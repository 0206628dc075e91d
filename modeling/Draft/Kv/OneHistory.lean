import Draft.Kv.Acknowledging
import Draft.Raft.Permanence

/-!
# One history

In a run in which servers verify what they answer and count, only leaders end
transfers, no entry is chopped off that a session waits for, and commands are
plain, the databases of all servers at all times are what parts of one list of
entries make of the empty database.  A write that was acknowledged is in the log
of every later leader, and stands in the list before every write that was asked
for after the acknowledgement.
-/

namespace Draft.Kv

open Consensus Raft

/-! ## One log behind the site and the protocol -/

theorem eq_of_holds {log : EntryLogger} {full g : List Entry} (hfull : log.Holds full)
    (hg : log.Holds g) {m : Nat} (hm : log.lastIndex ≤ m) (htake : full.take m = g.take m) :
    full = g := by
  have hbelow : full.take log.lastIndex = g.take log.lastIndex := by
    have heq := congrArg (List.take log.lastIndex) htake
    rwa [List.take_take, List.take_take, Nat.min_eq_left hm] at heq
  rw [← List.take_append_drop log.lastIndex full, ← List.take_append_drop log.lastIndex g, hbelow,
    ← hfull.entries, ← hg.entries]

namespace Cluster

variable {c c' c₁ c₂ : Cluster} {base : List Entry} {p p' : Protocol Bytes Entry}

def worldEvent (c : Cluster) : ClusterEvent → Option Draft.Event
  | .raft e => some e
  | .appendCommand id =>
      (c.sites id).store.appending.map fun w => .append id (logText w.cmd)
  | .command .. | .keepSession _ => none

/-- No entry is chopped off that a session waits for, and indices do not run over. -/
def Unharmed (c : Cluster) : ClusterEvent → Prop
  | .raft (.handle i _) => ∀ call ∈ c.world.calls[i]?,
      (c.sites call.dst).Spares (c.world.servers call.dst) call.request
  | .raft (.applyNext id) => (c.world.servers id).lastApplied + 1 < notLeader
  | _ => True

instance (c : Cluster) : (e : ClusterEvent) → Decidable (c.Unharmed e)
  | .raft (.handle i _) => inferInstanceAs (Decidable (∀ call ∈ c.world.calls[i]?,
      (c.sites call.dst).Spares (c.world.servers call.dst) call.request))
  | .raft (.applyNext id) =>
      inferInstanceAs (Decidable ((c.world.servers id).lastApplied + 1 < notLeader))
  | .raft (.electionTimeout _) | .raft (.heartbeatTimeout _)
  | .raft (.leadershipTransferTimeout _) | .raft (.append ..) | .raft (.transferLeadership ..)
  | .raft (.addServer ..) | .raft (.delServer ..) | .raft (.popCommitted _) | .raft (.compact _)
  | .raft (.writeFiles ..) | .raft (.succeed ..) | .raft (.fail ..)
  | .command .. | .appendCommand _ | .keepSession _ => instDecidableTrue

/--
The servers run as `FixedVerified` says, no entry is chopped off that a session
waits for, and commands do what their texts do.
-/
def Sound (c : Cluster) (e : ClusterEvent) : Prop :=
  (∀ d ∈ c.worldEvent e, c.world.FixedVerified d) ∧ c.Unharmed e ∧ e.Plain

instance (c : Cluster) (e : ClusterEvent) : Decidable (c.Sound e) :=
  inferInstanceAs (Decidable (_ ∧ _ ∧ _))

inductive StepsTo (c : Cluster) : ClusterEvent → Cluster → Prop
  | raft {e : Draft.Event} {id : Bytes} {w : World} (hexcluded : c.excluded e = false)
      (hactor : c.world.actor e = some id) (hworld : c.world.step e = some w) :
      StepsTo c (.raft e) { c.visit id fun x => x.after (c.world.servers id) (w.servers id) e with
        world := w }
  | command {id : Bytes} {session : Nat} {bytes : Bytes} {cmd : Command} :
      StepsTo c (.command id session bytes) (c.visit id fun x =>
        { x with store := x.store.handleCommand (c.world.servers id) session cmd })
  | appendCommand {id : Bytes} {w : Waiting} {world : World}
      (happending : (c.sites id).store.appending = some w)
      (hworld : c.world.step (.append id (logText w.cmd)) = some world) :
      StepsTo c (.appendCommand id)
        { c.visit id fun x => x.append (c.world.servers id) w with world := world }
  | keepSession {id : Bytes} {index : Nat} :
      StepsTo c (.keepSession id) (c.visit id fun x => x.keepSession index)

private theorem step_cases {e : ClusterEvent} (hstep : c.step e = some c') : c.StepsTo e c' := by
  cases e with
  | raft e =>
      simp only [step] at hstep
      split at hstep
      · cases hstep
      rename_i hexcluded
      split at hstep
      · rename_i hactor hworld
        cases hstep
        exact .raft (Bool.eq_false_of_not_eq_true hexcluded) hactor hworld
      · cases hstep
  | command id session bytes =>
      simp only [step] at hstep
      split at hstep
      · simp only [Option.ite_none_right_eq_some, Option.some.injEq] at hstep
        obtain ⟨-, rfl⟩ := hstep
        exact .command
      · cases hstep
  | appendCommand id =>
      simp only [step] at hstep
      split at hstep
      · rename_i happending hreturned
        obtain ⟨world, hworld, rfl⟩ := Option.map_eq_some_iff.mp hstep
        exact .appendCommand happending hworld
      · cases hstep
  | keepSession id =>
      simp only [step] at hstep
      split at hstep
      · simp only [Option.ite_none_right_eq_some, Option.some.injEq] at hstep
        obtain ⟨-, rfl⟩ := hstep
        exact .keepSession
      · cases hstep

structure Settled (base : List Entry) (p : Protocol Bytes Entry) (c : Cluster) : Prop where
  ready : c.world.Ready
  voting : c.world.VotingInv
  world : c.world.InOrder
  refines : Refines c.world.ids (fun id => (c.world.servers id).view) c.world.calls base p
  sites : ∀ id ∈ c.world.ids, (c.sites id).Tracks (p.log id) (c.world.servers id)

theorem Settled.tracked (h : c.Settled base p) : c.Tracked :=
  ⟨h.world, fun id hid => ⟨p.log id, h.sites id hid⟩⟩

private theorem step_world {e : ClusterEvent} (hstep : c.step e = some c') :
    (∃ d, c.worldEvent e = some d ∧ c.world.step d = some c'.world) ∨
      c.worldEvent e = none ∧ c'.world = c.world := by
  cases step_cases hstep with
  | raft hexcluded hactor hworld => exact .inl ⟨_, rfl, hworld⟩
  | command => exact .inr ⟨rfl, rfl⟩
  | appendCommand happending hworld =>
      refine .inl ⟨_, ?_, hworld⟩
      rw [worldEvent, happending, Option.map_some]
  | keepSession => exact .inr ⟨rfl, rfl⟩

private theorem Settled.undisturbed (h : c.Settled base p) {e : ClusterEvent} (hsound : c.Sound e)
    (hstep : c.step e = some c') : c.Undisturbed e := by
  obtain ⟨hverified, hunharmed, -⟩ := hsound
  cases e with
  | raft e =>
      cases e with
      | handle i recent =>
          intro call hcall
          obtain ⟨d, hd, hworld⟩ | ⟨hnone, -⟩ := step_world hstep
          · obtain rfl : d = .handle i recent := (Option.some.inj hd).symm
            obtain ⟨id, hactor, hid, -⟩ := World.step_reaction hworld
            obtain rfl : call.dst = id := by
              simpa [World.actor, Option.mem_def.mp hcall] using hactor
            exact ⟨h.refines.preserves hid rfl (List.mem_of_getElem? hcall)
              ((hverified _ rfl).2.2 call hcall), hunharmed call hcall⟩
          · cases hnone
      | applyNext id => exact hunharmed
      | _ => trivial
  | _ => trivial

/-! ## One step -/

end Cluster

structure Site.Extends (x y : Site) : Prop where
  committed : x.committed <+: y.committed
  appended : x.appended <+: y.appended
  answered : x.answered <+: y.answered

namespace Site.Extends

variable {x y z : Site}

theorem refl (x : Site) : x.Extends x := ⟨List.prefix_rfl, List.prefix_rfl, List.prefix_rfl⟩

theorem trans (h : x.Extends y) (k : y.Extends z) : x.Extends z :=
  ⟨h.committed.trans k.committed, h.appended.trans k.appended, h.answered.trans k.answered⟩

theorem commit (x : Site) (s : Raft) : x.Extends (x.commit s) :=
  ⟨List.prefix_append _ _, List.prefix_rfl, List.prefix_rfl⟩

theorem pass (x : Site) (e : LogEntry) : x.Extends (x.pass e) :=
  ⟨List.prefix_rfl, List.prefix_rfl, List.prefix_append _ _⟩

theorem append (x : Site) (s : Raft) (w : Waiting) : x.Extends (x.append s w) :=
  ⟨List.prefix_rfl, List.prefix_append _ _, List.prefix_rfl⟩

theorem after (x : Site) (s t : Raft) (e : Draft.Event) : x.Extends (x.after s t e) := by
  unfold Site.after
  split
  · split
    · exact commit x t
    · exact (pass x _).trans (commit _ t)
  · exact commit x t

end Site.Extends

namespace Cluster

variable {c c' c₁ c₂ : Cluster} {base : List Entry} {p p' : Protocol Bytes Entry}

private theorem extends_visit (c : Cluster) (id : Bytes) {f : Site → Site}
    (hf : (c.sites id).Extends (f (c.sites id))) (j : Bytes) :
    (c.sites j).Extends ((c.visit id f).sites j) := by
  by_cases hj : j = id
  · subst hj
    simpa [visit] using hf
  · simpa [visit, Function.update_of_ne hj] using Site.Extends.refl (c.sites j)

theorem step_extends {e : ClusterEvent} (hstep : c.step e = some c') (j : Bytes) :
    (c.sites j).Extends (c'.sites j) := by
  cases step_cases hstep with
  | @raft e id w hexcluded hactor hworld =>
      exact extends_visit c id (f := fun x => x.after (c.world.servers id) (w.servers id) e)
        (.after _ _ _ e) j
  | @command id =>
      exact extends_visit c id ⟨List.prefix_rfl, List.prefix_rfl, List.prefix_rfl⟩ j
  | @appendCommand id w world happending hworld =>
      exact extends_visit c id (f := fun x => x.append (c.world.servers id) w) (.append _ _ w) j
  | @keepSession id =>
      exact extends_visit c id ⟨List.prefix_rfl, List.prefix_rfl, List.prefix_rfl⟩ j

private theorem reaction_lastApplied {w : World} {s : Raft} {x : Site} {full : List Entry}
    {e : Draft.Event} (hregular : s.Regular) (h : x.Tracks full s)
    (hle : (w.reaction e s).lastApplied ≤ (w.reaction e s).commitIndex)
    (hexcluded : ∀ i recent, e = .handle i recent → w.moves e = false)
    (hcalls : ∀ i recent, e = .handle i recent → ∀ call ∈ w.calls[i]?,
      call.request.WellFormed ∧ s.Preserves call.request) :
    s.lastApplied ≤ (w.reaction e s).lastApplied ∧
      (w.reaction e s).lastApplied ≤ s.commitIndex := by
  by_cases hmoves : w.moves e = true
  · cases e with
    | applyNext id =>
        obtain ⟨lastApplied, applied, hsame, -⟩ := applyNext_replica s
        have hcommit : s.applyNext.commitIndex = s.commitIndex := by rw [hsame]
        refine ⟨?_, hle.trans hcommit.le⟩
        change s.lastApplied ≤ s.applyNext.lastApplied
        cases hpasses : s.passes with
        | none =>
            obtain ⟨-, -, heq | ⟨-, heq, -⟩⟩ := applyNext_none hpasses <;> omega
        | some e =>
            obtain ⟨-, -, -, -, heq⟩ := applyNext_some hpasses
            rw [heq]
            exact Nat.le_succ _
    | compact id =>
        obtain ⟨log, hsame, -⟩ := compact_replica s
        have hcommit : s.compact.commitIndex = s.commitIndex := by rw [hsame]
        have happlied : s.compact.lastApplied = s.lastApplied := by rw [hsame]
        exact ⟨happlied.ge, hle.trans hcommit.le⟩
    | handle i recent =>
        rw [hexcluded i recent rfl] at hmoves
        cases hmoves
    | _ => cases hmoves
  · obtain ⟨m, -, hproceeds, -⟩ := World.reaction_proceeds hregular h.logged
      (Bool.eq_false_of_not_eq_true hmoves) hcalls
    have happlied : (w.reaction e s).lastApplied = s.lastApplied :=
      congrArg (·.2.1) hproceeds.progress
    exact ⟨happlied.ge, happlied.le.trans h.logged.applied_le⟩

private theorem step_lastApplied {e : ClusterEvent} (h : c.Tracked) (h' : c'.Tracked)
    (hclear : c.Undisturbed e) (hstep : c.step e = some c') :
    ∀ id ∈ c'.world.ids, (c.world.servers id).lastApplied ≤ (c'.world.servers id).lastApplied ∧
      (c'.world.servers id).lastApplied ≤ (c.world.servers id).commitIndex := by
  intro j hj
  obtain ⟨full', hsite'⟩ := h'.sites j hj
  have hle' := hsite'.logged.applied_le
  have same : j ∈ c.world.ids → c'.world.servers j = c.world.servers j →
      (c.world.servers j).lastApplied ≤ (c'.world.servers j).lastApplied ∧
        (c'.world.servers j).lastApplied ≤ (c.world.servers j).commitIndex := by
    intro hmem heq
    obtain ⟨full, hsite⟩ := h.sites j hmem
    rw [heq]
    exact ⟨le_rfl, hsite.logged.applied_le⟩
  cases step_cases hstep with
  | @raft e id w hexcluded hactor hworld =>
      obtain ⟨id', hactor', hid, hw⟩ := World.step_reaction hworld
      obtain rfl : id = id' := Option.some.inj (hactor.symm.trans hactor')
      have hids : w.ids = c.world.ids := by rw [hw]; rfl
      by_cases heq : j = id
      · subst heq
        obtain ⟨full, hsite⟩ := h.sites j hid
        have hself : w.servers j =
            { c.world.reaction e (c.world.servers j) with sent := [] } := by
          rw [hw, World.act_self]
        change (w.servers j).lastApplied ≤ (w.servers j).commitIndex at hle'
        change _ ≤ (w.servers j).lastApplied ∧ (w.servers j).lastApplied ≤ _
        rw [hself] at hle' ⊢
        refine reaction_lastApplied (h.world.regular j hid) hsite hle' ?_ ?_
        · rintro i recent rfl
          simpa [excluded, World.moves] using hexcluded
        · rintro i recent rfl call hcall
          obtain rfl : call.dst = j := by
            simpa [World.actor, Option.mem_def.mp hcall] using hactor
          exact ⟨h.world.requests call (List.mem_of_getElem? hcall), (hclear call hcall).1⟩
      · refine same (hids ▸ hj) ?_
        change w.servers j = _
        rw [hw, World.act_of_ne _ _ heq]
  | command => exact same hj rfl
  | @appendCommand id w world happending hworld =>
      obtain ⟨hid, hw⟩ := World.local_reaction (f := fun s => s.append (logText w.cmd)) hworld
      have hids : world.ids = c.world.ids := by rw [hw]; rfl
      by_cases heq : j = id
      · subst heq
        obtain ⟨full, hsite⟩ := h.sites j hid
        have hself : (world.servers j).lastApplied = (c.world.servers j).lastApplied := by
          rw [hw, World.act_self, append]
          split <;> rfl
        exact ⟨hself.ge, hself.le.trans hsite.logged.applied_le⟩
      · refine same (hids ▸ hj) ?_
        change world.servers j = _
        rw [hw, World.act_of_ne _ _ heq]
  | keepSession => exact same hj rfl

structure Advances (c c' : Cluster) : Prop where
  ids : c'.world.ids = c.world.ids
  sites : ∀ id, (c.sites id).Extends (c'.sites id)
  lastApplied : ∀ id ∈ c.world.ids,
    (c.world.servers id).lastApplied ≤ (c'.world.servers id).lastApplied

theorem Advances.refl (c : Cluster) : c.Advances c := ⟨rfl, fun _ => .refl _, fun _ _ => le_rfl⟩

theorem Advances.trans (h : c.Advances c₁) (k : c₁.Advances c₂) : c.Advances c₂ :=
  ⟨k.ids.trans h.ids, fun id => (h.sites id).trans (k.sites id),
    fun id hid => (h.lastApplied id hid).trans (k.lastApplied id (h.ids ▸ hid))⟩

private theorem settled_step {e : ClusterEvent} (h : c.Settled base p) (hsound : c.Sound e)
    (hstep : c.step e = some c') :
    c.Advances c' ∧ ∃ p', p.Grows p' ∧ c'.Settled base p' := by
  have hclear := h.undisturbed hsound hstep
  have htracked := tracked_step h.tracked hsound.2.2 hclear hstep
  have happlied := step_lastApplied h.tracked htracked hclear hstep
  obtain ⟨hready, hvoting, hids, p', hgrows, hrefines⟩ :
      c'.world.Ready ∧ c'.world.VotingInv ∧ c'.world.ids = c.world.ids ∧ ∃ p', p.Grows p' ∧
        Refines c'.world.ids (fun id => (c'.world.servers id).view) c'.world.calls base p' := by
    rcases step_world hstep with ⟨d, hd, hworld⟩ | ⟨-, hworld⟩
    · have hverified := hsound.1 d hd
      have hmoves : c.world.Moves True d c'.world :=
        World.step_moves h.ready hverified.1.1 (.inl trivial) hworld
      exact ⟨hmoves.ready h.ready, World.voting_step h.ready hverified.1 h.voting hmoves,
        hmoves.ids, World.refines_step h.ready hverified h.voting h.refines hworld⟩
    · rw [hworld]
      exact ⟨h.ready, h.voting, rfl, p, .refl p, h.refines⟩
  refine ⟨⟨hids, step_extends hstep, fun id hid => (happlied id (hids ▸ hid)).1⟩,
    p', hgrows, hready, hvoting, htracked.world, hrefines, fun id hid => ?_⟩
  obtain ⟨full, hsite⟩ := htracked.sites id hid
  have hserver := hrefines.server id hid
  have hold := h.sites id (hids ▸ hid)
  have hlength := hold.logged.commit_le
  have hlength' := hsite.logged.commit_le
  have hcut : (c.sites id).committed.length = (c.world.servers id).commitIndex := by
    rw [hold.committed, List.length_take, Nat.min_eq_left hlength]
  have hcut' : (c'.sites id).committed.length = (c'.world.servers id).commitIndex := by
    rw [hsite.committed, List.length_take, Nat.min_eq_left hlength']
  -- both logs begin with what the server had committed before
  have hextends := (step_extends hstep id).committed
  have hfull : (c.sites id).committed <+: full := by
    rw [hsite.committed] at hextends
    exact hextends.trans (List.take_prefix _ _)
  have hdecided := (h.refines.server id (hids ▸ hid)).decided hgrows
  rw [← hids] at hdecided
  have hlog : (c.sites id).committed <+: p'.log id := by
    rw [hold.committed]
    rcases hrefines.inv.decided_comparable hdecided hserver.committed with hle | hle
    · exact hle.trans (List.take_prefix _ _)
    · -- the commit index has not gone back
      have hshort := hextends.length_le
      rw [hcut, hcut'] at hshort
      have hcommit : (c'.world.servers id).commitIndex ≤ (p'.log id).length := hserver.commit_le
      have hsame := hle.eq_of_length_le (by
        rw [List.length_take, List.length_take]
        change min (c.world.servers id).commitIndex _ ≤ min (c'.world.servers id).commitIndex _
        omega)
      exact hsame ▸ List.take_prefix _ _
  have heq : full = p'.log id := by
    refine eq_of_holds hsite.logged.holds hserver.holds (hsite.base_le.trans (happlied id hid).2) ?_
    rw [← hcut, ← List.prefix_iff_eq_take.mp hfull, ← List.prefix_iff_eq_take.mp hlog]
  rw [← heq]
  exact hsite

/-! ## Runs -/

private theorem settled_run {es : List ClusterEvent} (h : c₁.Settled base p)
    (hsound : Along step Sound c₁ es) (hrun : run step c₁ es = some c₂) :
    c₁.Advances c₂ ∧ ∃ p', p.Grows p' ∧ c₂.Settled base p' := by
  refine run_invariant (P := fun c => c₁.Advances c ∧ ∃ p', p.Grows p' ∧ c.Settled base p')
    ?_ hsound ⟨.refl c₁, p, .refl p, h⟩ hrun
  intro c e c' hsound ⟨hadvances, q, hq, hsettled⟩ hstep
  obtain ⟨hadvances', q', hq', hsettled'⟩ := settled_step hsettled hsound hstep
  exact ⟨hadvances.trans hadvances', q', hq.trans hq', hsettled'⟩

structure StartsFresh (log : EntryLogger) (full : List Entry) (c : Cluster) : Prop where
  fresh : c.Fresh
  world : c.world.StartsFrom log full

theorem StartsFresh.settled {log : EntryLogger} {full : List Entry} (h : c.StartsFresh log full) :
    ∃ p, c.Settled full p := by
  obtain ⟨p, hp⟩ := h.world.safety
  refine ⟨p, h.world.started.ready, h.world.started.voting, h.fresh.world, hp, fun id hid => ?_⟩
  obtain ⟨g, hsite⟩ := h.fresh.tracked.sites id hid
  have heq : g = p.log id :=
    eq_of_holds hsite.logged.holds (hp.server id hid).holds (h.fresh.base id hid).le rfl
  exact heq ▸ hsite

end Cluster

/-! ## One list for all databases -/

/-- The site has committed a part of `g`, and its database is what a part of that makes. -/
structure Site.Shows (g : List Entry) (x : Site) (s : Raft) : Prop where
  applied_le : s.lastApplied ≤ s.commitIndex
  commit_le : s.commitIndex ≤ g.length
  committed : x.committed = g.take s.commitIndex
  db : x.store.db = Database.empty.restore (texts (g.take s.lastApplied))

theorem Site.Shows.get {g : List Entry} {x : Site} {s : Raft} (h : x.Shows g s) (session : Nat)
    {cmd : Command} (hget : cmd.type = .get) :
    (x.store.handleCommand s session cmd).replies = x.store.replies ++
      [⟨session, "OK", (Database.empty.restore (texts (g.take s.lastApplied)) cmd.key).getD
        (ascii "null")⟩] := by
  rw [← h.db, Store.handleCommand, hget]
  rfl

namespace Cluster

variable {c c' c₁ c₂ : Cluster} {base : List Entry} {p p' : Protocol Bytes Entry}

private theorem Settled.committed_length (h : c.Settled base p) {id : Bytes} (hid : id ∈ c.world.ids) :
    (c.sites id).committed.length = (c.world.servers id).commitIndex := by
  have hsite := h.sites id hid
  rw [hsite.committed, List.length_take, Nat.min_eq_left hsite.logged.commit_le]

theorem Settled.decided (h : c.Settled base p) {id : Bytes} (hid : id ∈ c.world.ids) :
    Decides c.world.ids base p (c.world.servers id).currTerm (c.sites id).committed := by
  rw [(h.sites id hid).committed]
  exact (h.refines.server id hid).committed

private theorem Settled.place (h : c.Settled base p) {id : Bytes} (hid : id ∈ c.world.ids) {e : Entry}
    (he : e ∈ (c.sites id).committed) :
    ∃ i, (c.sites id).committed[i]? = some e ∧ e.index = i + 1 := by
  have hsite := h.sites id hid
  obtain ⟨i, hi⟩ := List.mem_iff_getElem?.mp he
  refine ⟨i, hi, ?_⟩
  rw [hsite.committed] at hi
  exact (hsite.logged.holds.indexed.take _) i e hi

private theorem Settled.comparable (h : c.Settled base p) {id id' : Bytes} (hid : id ∈ c.world.ids)
    (hid' : id' ∈ c.world.ids) : (c.sites id).committed <+: (c.sites id').committed ∨
      (c.sites id').committed <+: (c.sites id).committed :=
  h.refines.inv.decided_comparable (h.decided hid) (h.decided hid')

theorem Settled.shows (h : c.Settled base p) {id : Bytes} (hid : id ∈ c.world.ids)
    {g : List Entry} (hg : (c.sites id).committed <+: g) :
    (c.sites id).Shows g (c.world.servers id) := by
  have hsite := h.sites id hid
  have hlength := h.committed_length hid
  have htake := List.prefix_iff_eq_take.mp hg
  rw [hlength] at htake
  refine ⟨hsite.logged.applied_le, hlength ▸ hg.length_le, htake, ?_⟩
  have hless := hsite.logged.applied_le
  have hcut : g.take (c.world.servers id).lastApplied =
      (p.log id).take (c.world.servers id).lastApplied := by
    have heq := congrArg (List.take (c.world.servers id).lastApplied)
      (htake.symm.trans hsite.committed)
    rwa [List.take_take, List.take_take, Nat.min_eq_left hless] at heq
  rw [hcut]
  exact hsite.db

/--
In every run of sound steps from a first start there is one list of entries
such that at every time every server has committed a part of it, and its
database, which it answers from, is what the entries up to the last applied one
make.  The database of a server only moves on along the list.
-/
theorem one_history {es : List ClusterEvent} {log : EntryLogger} {full : List Entry}
    (hstart : c.StartsFresh log full) (hsound : Along step Sound c es)
    (hrun : run step c es = some c₂) :
    ∃ g : List Entry, ∀ es₁ es₂ c₁, es = es₁ ++ es₂ → run step c es₁ = some c₁ →
      ∀ id ∈ c₁.world.ids, (c₁.sites id).Shows g (c₁.world.servers id) ∧
        (c₁.world.servers id).lastApplied ≤ (c₂.world.servers id).lastApplied ∧
        ∀ session cmd, cmd.type = .get →
          ((c₁.sites id).store.handleCommand (c₁.world.servers id) session cmd).replies =
            (c₁.sites id).store.replies ++ [⟨session, "OK",
              (Database.empty.restore (texts (g.take (c₁.world.servers id).lastApplied))
                cmd.key).getD (ascii "null")⟩] := by
  obtain ⟨p, hp⟩ := hstart.settled
  obtain ⟨hfirst, p₂, -, hp₂⟩ := settled_run hp hsound hrun
  -- the list is the longest of those that are committed in the end
  obtain ⟨g, hg⟩ : ∃ g, ∀ id ∈ c₂.world.ids, (c₂.sites id).committed <+: g := by
    by_cases hnil : c₂.world.ids = []
    · exact ⟨[], by simp [hnil]⟩
    · obtain ⟨g, -, hall⟩ := exists_longest
        (l := c₂.world.ids.map fun id => (c₂.sites id).committed) (by simpa using hnil) (by
          intro a ha b hb
          obtain ⟨id, hid, rfl⟩ := List.mem_map.mp ha
          obtain ⟨id', hid', rfl⟩ := List.mem_map.mp hb
          exact hp₂.comparable hid hid')
      exact ⟨g, fun id hid => hall _ (List.mem_map_of_mem hid)⟩
  refine ⟨g, fun es₁ es₂ c₁ heq hrun₁ id hid => ?_⟩
  subst heq
  obtain ⟨hsound₁, hsound₂⟩ := hsound.split hrun₁
  obtain ⟨hadvances₁, p₁, -, hp₁⟩ := settled_run hp hsound₁ hrun₁
  obtain ⟨hadvances₂, -⟩ := settled_run hp₁ hsound₂ (run_rest hrun hrun₁)
  have hshows :=
    hp₁.shows hid ((hadvances₂.sites id).committed.trans (hg id (hadvances₂.ids.symm ▸ hid)))
  exact ⟨hshows, hadvances₂.lastApplied id hid, fun session cmd hget => hshows.get session hget⟩

private theorem startsFresh_firstStart : firstStart.StartsFresh ((World.cluster ["a:1", "b:1", "c:1"]
    true).servers []).log
    [{ term := 1, index := 1, data := ascii "a:1,b:1,c:1", config := true }] :=
  ⟨fresh_firstStart, by decide⟩

theorem one_history_set : ∃ c g, run step firstStart setCommitted = some c ∧
    (c.world.servers (ascii "a:1")).lastApplied = 2 ∧
    (c.sites (ascii "a:1")).Shows g (c.world.servers (ascii "a:1")) ∧
    (c.sites (ascii "c:1")).Shows g (c.world.servers (ascii "c:1")) := by
  have hrun := (Option.some_get (show (run step firstStart setCommitted).isSome by decide)).symm
  obtain ⟨g, hall⟩ := one_history startsFresh_firstStart (by decide) hrun
  have hend := hall setCommitted [] _ (by simp) hrun
  exact ⟨_, g, hrun, by decide, (hend (ascii "a:1") (by decide)).1,
    (hend (ascii "c:1") (by decide)).1⟩

/-! ## Acknowledged writes -/

/--
A write that was acknowledged at some time is from then on in the log of every
leader of no earlier term, or the leader has compacted it away and committed it.
-/
theorem acknowledged_kept {es es' : List ClusterEvent} {log : EntryLogger} {full : List Entry}
    (hstart : c.StartsFresh log full) (hsound : Along step Sound c (es ++ es'))
    (hrun : run step c es = some c₁) (hrun' : run step c₁ es' = some c₂) :
    ∀ id ∈ c₁.world.ids, ∀ a ∈ (c₁.sites id).answered, ∀ l ∈ c₂.world.ids,
      (c₂.world.servers l).role = .leader →
      (c₁.world.servers id).currTerm ≤ (c₂.world.servers l).currTerm →
      (∃ y ∈ (c₂.world.servers l).log.get a.2.index, y.toEntry = a.2) ∨
        a.2.index ≤ (c₂.world.servers l).log.lastIndex ∧ a.2 ∈ (c₂.sites l).committed := by
  obtain ⟨hfirst, hlast⟩ := hsound.split hrun
  obtain ⟨p, hp⟩ := hstart.settled
  obtain ⟨-, p₁, -, hp₁⟩ := settled_run hp hfirst hrun
  obtain ⟨hadvances, p₂, hgrows, hp₂⟩ := settled_run hp₁ hlast hrun'
  intro id hid a ha l hl hrole hterm
  obtain ⟨i, hi, hindex⟩ := hp₁.place hid ((hp₁.sites id hid).answered a ha).2
  have hserver := hp₂.refines.server l hl
  have hdecided := (hp₁.decided hid).mono hgrows le_rfl
  rw [← hadvances.ids] at hdecided
  have hpart := hp₂.refines.inv.decided_prefix_leader hdecided hterm
    (hp₂.refines.elected_of_leader hp₂.voting.2 hl hrole)
  have hown : p₂.log l = p₂.leaders.log (c₂.world.servers l).currTerm :=
    (hserver.leader hrole).1
  rw [← hown] at hpart
  have hentry : (p₂.log l)[i]? = some a.2 := prefix_getElem? hpart hi
  have hmap := (hp₂.sites l hl).logged.holds.get_succ_map i
  rw [hentry] at hmap
  rw [hindex]
  split at hmap
  · rename_i hlow
    have hbase : (c₂.world.servers l).log.lastIndex ≤ (c₂.world.servers l).commitIndex :=
      hserver.compacted
    refine .inr ⟨hlow, ?_⟩
    rw [(hp₂.sites l hl).committed]
    refine List.mem_of_getElem? (i := i) ?_
    rw [List.getElem?_take_of_lt (hlow.trans_le hbase)]
    exact hentry
  · exact .inl (Option.map_eq_some_iff.mp hmap)

def electedAfter : List ClusterEvent :=
  [.raft (.electionTimeout (ascii "c:1")), .raft (.handle 9 false), .raft (.succeed 9 false),
    .raft (.handle 11 false), .raft (.succeed 11 false)]

theorem acknowledged_kept_elected : ∃ c₁ c₂, run step firstStart setCommitted = some c₁ ∧
    run step c₁ electedAfter = some c₂ ∧ ∃ a ∈ (c₁.sites (ascii "a:1")).answered,
      (∃ y ∈ (c₂.world.servers (ascii "c:1")).log.get a.2.index, y.toEntry = a.2) ∨
        a.2.index ≤ (c₂.world.servers (ascii "c:1")).log.lastIndex ∧
          a.2 ∈ (c₂.sites (ascii "c:1")).committed := by
  have hrun := (Option.some_get (show (run step firstStart setCommitted).isSome by decide)).symm
  have hsound : Along step Sound firstStart (setCommitted ++ electedAfter) := by decide
  refine ⟨_, _, hrun, (Option.some_get (by decide)).symm, _, List.head_mem (by decide), ?_⟩
  exact acknowledged_kept startsFresh_firstStart hsound hrun (Option.some_get (by decide)).symm
    (ascii "a:1") (by decide) _ (List.head_mem _) (ascii "c:1") (by decide) (by decide) (by decide)

/-- No leader of its term had got to the index of the entry. -/
def Unwritten (base : List Entry) (p : Protocol Bytes Entry) (e : Entry) : Prop :=
  base.length < e.index ∧
    (p.leaders.elected e.term → (p.leaders.log e.term).length < e.index)

private theorem Unwritten.earlier {e : Entry} (h : Unwritten base p' e) (hgrows : p.Grows p') :
    Unwritten base p e := by
  refine ⟨h.1, fun helected => ?_⟩
  obtain ⟨helected', hpart⟩ := hgrows.leaders e.term helected
  exact hpart.length_le.trans_lt (h.2 helected')

private theorem visit_appended (c : Cluster) (id : Bytes) {f : Site → Site}
    (hf : (f (c.sites id)).appended = (c.sites id).appended) (j : Bytes) :
    ((c.visit id f).sites j).appended = (c.sites j).appended := by
  by_cases hj : j = id
  · subst hj
    simpa [visit] using hf
  · simp [visit, Function.update_of_ne hj]

/-- What a leader appends goes behind all that was written in its term. -/
theorem Settled.appends_unwritten (h : c.Settled base p) {id : Bytes} (hid : id ∈ c.world.ids)
    (hrole : (c.world.servers id).role = .leader) {e : Entry}
    (hterm : e.term = (c.world.servers id).currTerm)
    (hindex : e.index = (c.world.servers id).log.lastEntryIndex + 1) : Unwritten base p e := by
  have hserver := h.refines.server id hid
  have hlength : (c.world.servers id).log.lastEntryIndex = (p.log id).length :=
    hserver.holds.lastEntryIndex_eq
  have hown : p.log id = p.leaders.log (c.world.servers id).currTerm := (hserver.leader hrole).1
  have hbase := (h.refines.inv.log_follows id).base_start.length_le
  refine ⟨by omega, fun _ => ?_⟩
  rw [hterm, ← hown]
  omega

private theorem unwritten_step {e : ClusterEvent} (h : c.Settled base p) (hstep : c.step e = some c')
    (j : Bytes) : ∀ b ∈ (c'.sites j).appended,
      b ∈ (c.sites j).appended ∨ Unwritten base p b.2 := by
  intro b hb
  cases step_cases hstep with
  | @raft e id w hexcluded hactor hworld =>
      refine .inl ?_
      have hsame := visit_appended c id
        (f := fun x => x.after (c.world.servers id) (w.servers id) e) (by
          unfold Site.after
          split
          · split <;> rfl
          · rfl) j
      rw [← hsame]
      exact hb
  | @command id =>
      rw [visit_appended c id rfl j] at hb
      exact .inl hb
  | @appendCommand id w world happending hworld =>
      obtain ⟨hid, -⟩ := World.local_reaction (f := fun s => s.append (logText w.cmd)) hworld
      by_cases heq : j = id
      · subst heq
        simp only [visit, Function.update_self, Site.append] at hb
        rcases List.mem_append.mp hb with hb | hb
        · exact .inl hb
        · split at hb
          · cases hb
          · rename_i hrole
            obtain rfl := List.mem_singleton.mp hb
            exact .inr (h.appends_unwritten hid (not_not.mp hrole) rfl rfl)
      · simp only [visit, Function.update_of_ne heq] at hb
        exact .inl hb
  | @keepSession id =>
      rw [visit_appended c id rfl j] at hb
      exact .inl hb

private theorem unwritten_run {es : List ClusterEvent} (h : c₁.Settled base p)
    (hsound : Along step Sound c₁ es) (hrun : run step c₁ es = some c₂) :
    ∀ id, ∀ b ∈ (c₂.sites id).appended,
      b ∈ (c₁.sites id).appended ∨ Unwritten base p b.2 := by
  refine (run_invariant (P := fun c => (∃ p', p.Grows p' ∧ c.Settled base p') ∧
    ∀ id, ∀ b ∈ (c.sites id).appended, b ∈ (c₁.sites id).appended ∨ Unwritten base p b.2)
    ?_ hsound ⟨⟨p, .refl p, h⟩, fun _ _ hb => .inl hb⟩ hrun).2
  intro c e c' hsound ⟨⟨q, hq, hsettled⟩, hknown⟩ hstep
  obtain ⟨-, q', hq', hsettled'⟩ := settled_step hsettled hsound hstep
  refine ⟨⟨q', hq.trans hq', hsettled'⟩, fun id b hb => ?_⟩
  rcases unwritten_step hsettled hstep id b hb with hold | hnew
  · exact hknown id b hold
  · exact .inr (hnew.earlier hq)

/--
A write is asked for after another one was acknowledged, maybe at another
server.  Wherever it is committed, it is committed behind the other one.
-/
theorem real_time_order {es es' : List ClusterEvent} {log : EntryLogger} {full : List Entry}
    (hstart : c.StartsFresh log full) (hsound : Along step Sound c (es ++ es'))
    (hrun : run step c es = some c₁) (hrun' : run step c₁ es' = some c₂) :
    ∀ id ∈ c₁.world.ids, ∀ a ∈ (c₁.sites id).answered,
      ∀ id', ∀ b ∈ (c₂.sites id').appended, b ∉ (c₁.sites id').appended →
      ∀ l ∈ c₂.world.ids, b.2 ∈ (c₂.sites l).committed → a.2.index < b.2.index := by
  obtain ⟨hfirst, hlast⟩ := hsound.split hrun
  obtain ⟨p, hp⟩ := hstart.settled
  obtain ⟨-, p₁, -, hp₁⟩ := settled_run hp hfirst hrun
  obtain ⟨hadvances, p₂, hgrows, hp₂⟩ := settled_run hp₁ hlast hrun'
  intro id hid a ha id' b hb hnew l hl hcommitted
  obtain ⟨hbase, hunwritten⟩ := (unwritten_run hp₁ hlast hrun' id' b hb).resolve_left hnew
  obtain ⟨i, hi, hindex⟩ := hp₁.place hid ((hp₁.sites id hid).answered a ha).2
  obtain ⟨j, hj, hindex'⟩ := hp₂.place hl hcommitted
  by_contra hle
  have hji : j ≤ i := by omega
  -- then the later entry is one of those that the first server had committed
  have hlength := lt_length_of_getElem? hi
  have hsame : (c₁.sites id).committed[j]? = some b.2 := by
    have hdecided := (hp₁.decided hid).mono hgrows le_rfl
    rw [← hadvances.ids] at hdecided
    have hx := List.getElem?_eq_getElem (show j < (c₁.sites id).committed.length by omega)
    rcases hp₂.refines.inv.decided_comparable hdecided (hp₂.decided hl) with hpart | hpart
    · rw [hx, ← hj, ← prefix_getElem? hpart hx]
    · exact prefix_getElem? hpart hj
  rw [(hp₁.sites id hid).committed] at hsame
  have hentry : (p₁.log id)[j]? = some b.2 := by
    refine prefix_getElem? (List.take_prefix _ _) hsame
  obtain ⟨helected, hpart⟩ :=
    (hp₁.refines.inv.log_follows id).created j b.2 (by omega) hentry
  have hlong := hpart.length_le
  rw [List.length_take, Nat.min_eq_left (lt_length_of_getElem? hentry)] at hlong
  have hshort := hunwritten helected
  omega

def setAgain : List ClusterEvent :=
  [.command (ascii "a:1") 2 (ascii "set k w\r\n"), .appendCommand (ascii "a:1"),
    .keepSession (ascii "a:1"), .raft (.heartbeatTimeout (ascii "a:1")),
    .raft (.handle 9 false), .raft (.succeed 9 false)]

theorem real_time_order_again : ∃ c₁ c₂, run step firstStart setCommitted = some c₁ ∧
    run step c₁ setAgain = some c₂ ∧ ∃ a ∈ (c₁.sites (ascii "a:1")).answered,
      ∃ b ∈ (c₂.sites (ascii "a:1")).appended, a.2.index < b.2.index := by
  have hrun := (Option.some_get (show (run step firstStart setCommitted).isSome by decide)).symm
  have hsound : Along step Sound firstStart (setCommitted ++ setAgain) := by decide
  refine ⟨_, _, hrun, (Option.some_get (by decide)).symm, _, List.head_mem (by decide), _,
    List.getLast_mem (by decide), ?_⟩
  exact real_time_order startsFresh_firstStart hsound hrun (Option.some_get (by decide)).symm
    (ascii "a:1") (by decide) _ (List.head_mem _) (ascii "a:1") _ (List.getLast_mem _) (by decide)
    (ascii "a:1") (by decide) (by decide)

end Cluster

end Draft.Kv
