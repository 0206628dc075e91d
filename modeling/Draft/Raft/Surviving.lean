import Draft.Raft.Permanence
import Draft.Raft.Restarting

/-!
# Committed entries across restarts

A server that is killed keeps its log file, with a part of what it was taking up
at worst.  What the file may lose is nothing that counts: an entry that differs
from the log of the leader whose request is handled.  A run with kills is still a
run of the abstract protocol, and what was committed stays.
-/

namespace Draft

open Consensus Raft

/-! ## The log of a server that is killed -/

namespace Raft

/--
The logs that a kill can leave while entries are merged.  Chopping is one change
of the file; of the entries behind it the first ones may be there.
-/
def mergeParts (log : EntryLogger) : List Entry → List EntryLogger
  | [] => [log]
  | e :: rest =>
      if log.entryConflicted e.index e.term then
        match log.chop e.index with
        | none => [log]
        | some new => log :: (makeEntries new (e :: rest)).inits.map new.append
      else if log.hasEntry e.index e.term then mergeParts log rest
      else (makeEntries log (e :: rest)).inits.map log.append

def logParts (s : Raft) : Request → List EntryLogger
  | .appendEntries req =>
      if s.currTerm ≤ req.term ∧ s.log.hasEntry req.prevLogIndex req.prevLogTerm then
        mergeParts s.log req.entries
      else []
  | _ => []

private theorem append_part {log new : EntryLogger} {entries : List Entry}
    (h : new ∈ (makeEntries log entries).inits.map log.append) :
    ∃ j, new = log.append (makeEntries log (entries.take j)) := by
  obtain ⟨part, hpart, rfl⟩ := List.mem_map.mp h
  rw [List.mem_inits, List.prefix_iff_eq_take] at hpart
  refine ⟨part.length, ?_⟩
  rw [makeEntries, List.map_take]
  exact congrArg log.append hpart

theorem append_nil (log : EntryLogger) : log.append [] = log := by
  simp [EntryLogger.append]

private theorem mem_mergeParts {log new : EntryLogger} {entries : List Entry}
    (h : new ∈ mergeParts log entries) :
    new = log ∨ (∃ e ∈ entries, log.entryConflicted e.index e.term ∧ log.chop e.index = some new) ∨
      ∃ j, mergeEntries log (entries.take j) = some new := by
  induction entries with
  | nil => exact .inl (by simpa [mergeParts] using h)
  | cons e rest ih =>
      unfold mergeParts at h
      split at h
      · rename_i hconflict
        split at h
        · exact .inl (by simpa using h)
        · rename_i cut hcut
          rcases List.mem_cons.mp h with hold | hpart
          · exact .inl hold
          · obtain ⟨j, rfl⟩ := append_part hpart
            cases j with
            | zero =>
                refine .inr (.inl ⟨e, List.mem_cons_self, hconflict, ?_⟩)
                rw [hcut, List.take_zero]
                exact congrArg some (append_nil cut).symm
            | succ j =>
                refine .inr (.inr ⟨j + 1, ?_⟩)
                rw [List.take_succ_cons, mergeEntries, if_pos hconflict, hcut]
                rfl
      · rename_i hconflict
        split at h
        · rename_i hheld
          rcases ih h with hold | ⟨x, hx, hcut⟩ | ⟨j, hj⟩
          · exact .inl hold
          · exact .inr (.inl ⟨x, List.mem_cons_of_mem _ hx, hcut⟩)
          · refine .inr (.inr ⟨j + 1, ?_⟩)
            rw [List.take_succ_cons, mergeEntries, if_neg hconflict, if_pos hheld]
            exact hj
        · rename_i hheld
          obtain ⟨j, rfl⟩ := append_part h
          cases j with
          | zero => exact .inl (append_nil log)
          | succ j =>
              refine .inr (.inr ⟨j + 1, ?_⟩)
              rw [List.take_succ_cons, mergeEntries, if_neg hconflict, if_neg hheld]

end Raft

/-! ## Steps of the protocol -/

section

variable {ids : List Bytes} {V : Bytes → View} {calls : List Call} {base : List Entry}
  {p : Protocol Bytes Entry} {id src : Bytes}

theorem Vouches.part {req : AppendEntriesReq}
    (h : Vouches ids base p src (.appendEntries req)) (j : Nat) :
    Vouches ids base p src
      (.appendEntries { req with entries := req.entries.take j, leaderCommit := 0 }) := by
  obtain ⟨helected, g, hg, hidx, hseg, -, hdecided⟩ := h
  refine ⟨helected, ?_⟩
  have hnone : ∀ l : List Entry, Decides ids base p req.term (l.take 0) := fun l =>
    hdecided.restrict (List.nil_prefix)
  rcases hseg.entries with hnil | ⟨-, hdrop⟩
  · refine ⟨g, hg, hidx, ⟨hseg.prev_le, hseg.prev_term, .inl ?_⟩, Nat.zero_le _, hnone g⟩
    dsimp only
    rw [hnil, List.take_nil]
  · have hprev := hseg.prev_le
    refine ⟨g.take (req.prevLogIndex + j), (List.take_prefix _ _).trans hg, hidx.take _,
      ⟨?_, ?_, .inr ⟨Nat.zero_le _, ?_⟩⟩, Nat.zero_le _, hnone _⟩
    · dsimp only
      rw [List.length_take]
      omega
    · exact (termAt_take (Nat.le_add_right _ _)).trans hseg.prev_term
    · dsimp only
      rw [hdrop, List.drop_take, Nat.add_sub_cancel_left]

private theorem Refines.adopts (h : Refines ids V calls base p) (hid : id ∈ ids)
    (hrole : (V id).role = .follower) (helected : p.leaders.elected (V id).currTerm) {k : Nat}
    {new : EntryLogger}
    (hk : Adopts (V id).log new (p.log id) (p.leaders.log (V id).currTerm) k) :
    Refines ids (Function.update V id { V id with log := new }) calls base
      (p.adopt id (V id).currTerm k) := by
  have hserver := h.server id hid
  have hcommit := h.commit_le_adopts hid le_rfl helected hk
  have hleader := h.committed_leader hid le_rfl helected
  have hdecided : Decides ids base p (V id).currTerm
      ((p.leaders.log (V id).currTerm).take (V id).commitIndex) := by
    rw [prefix_take_eq hleader (by rw [List.length_take]; have := hserver.commit_le; omega),
      List.take_take, Nat.min_self]
    exact hserver.committed
  exact h.adopt hid hrole helected hk.le hk.keep hk.holds (hk.base ▸ hserver.compacted) hcommit
    hdecided (V id).lastApplied (V id).cluster

theorem Refines.cut (h : Refines ids V calls base p) (hid : id ∈ ids)
    (hrole : (V id).role = .follower) (helected : p.leaders.elected (V id).currTerm) {k : Nat}
    {x y : Entry} (hx : (p.log id)[k]? = some x)
    (hy : (p.leaders.log (V id).currTerm)[k]? = some y) (hne : x ≠ y) {new : EntryLogger}
    (hnew : new.Holds ((p.log id).take k)) (hbase : new.lastIndex = (V id).log.lastIndex) :
    Refines ids (Function.update V id { V id with log := new }) calls base (p.cut id k) := by
  have hserver := h.server id hid
  have hgrows := Protocol.grows_cut p id k
  have hcommitted := Protocol.prefix_take_of_differ (List.take_prefix _ _)
    (h.committed_leader hid le_rfl helected) hx hy hne
  have absurdRole : ∀ {r : Role} {P : Prop}, r ≠ .follower → (V id).role = r → P :=
    fun hne heq => absurd (heq.symm.trans hrole) hne
  have hcommit : (V id).commitIndex ≤ k := by
    have := hcommitted.length_le
    have := hserver.commit_le
    simp only [List.length_take] at *
    omega
  have hinv := h.inv.cut (n := id) (by rw [hserver.current]; exact helected) hx
    (by rw [hserver.current]; exact hy) hne
  refine h.step hid hinv hgrows rfl (fun _ _ => rfl)
    (fun j hj => Protocol.cut_log_of_ne hj) (fun _ _ _ _ hb => hb) rfl ?_
  exact
    { current := hserver.current
      holds := by rw [Protocol.cut_log_self]; exact hnew
      ballot := hserver.ballot
      candidate := absurdRole (by simp)
      leader := absurdRole (by simp)
      matched := absurdRole (by simp)
      compacted := hbase ▸ hserver.compacted
      commit_le := by
        rw [Protocol.cut_log_self, List.length_take]
        exact le_min hcommit hserver.commit_le
      committed := by
        rw [Protocol.cut_log_self, List.take_take, Nat.min_eq_left hcommit]
        exact hserver.committed.mono hgrows le_rfl
      applied := fun a ha => by
        obtain ⟨hpos, q, hq, hentry⟩ := hserver.applied a ha
        exact ⟨hpos, q, hq.mono hgrows le_rfl, hentry⟩
      oldest := hserver.oldest }

private theorem Refines.mergePart (h : Refines ids V calls base p) (hid : id ∈ ids)
    (hrole : (V id).role = .follower) {req : AppendEntriesReq} (hterm : (V id).currTerm = req.term)
    (hvouches : Vouches ids base p src (.appendEntries req))
    (hprev : (V id).log.hasEntry req.prevLogIndex req.prevLogTerm)
    (hreaches : (V id).log.Reaches req) {new : EntryLogger}
    (hnew : new ∈ mergeParts (V id).log req.entries) :
    new.lastIndex = (V id).log.lastIndex ∧
      ∃ p', p.Grows p' ∧
        Refines ids (Function.update V id { V id with log := new }) calls base p' := by
  have helected : p.leaders.elected (V id).currTerm := hterm ▸ hvouches.1
  have unchanged : Refines ids (Function.update V id { V id with log := (V id).log }) calls base p := by
    rw [show ({ V id with log := (V id).log } : View) = V id from rfl, Function.update_eq_self]
    exact h
  have hlog := (h.server id hid).holds
  rcases mem_mergeParts hnew with rfl | ⟨e, he, hconflict, hcut⟩ | ⟨j, hmerge⟩
  · exact ⟨rfl, p, .refl p, unchanged⟩
  · obtain ⟨-, g, hg, hidx, hseg, -⟩ := hvouches
    obtain ⟨i, hi⟩ := List.getElem?_of_mem he
    have hindex := hseg.index hidx hi
    rcases hseg.entries with hnil | ⟨-, hdrop⟩
    · rw [hnil] at he
      cases he
    · rw [hdrop, List.getElem?_drop] at hi
      rw [hindex] at hconflict hcut
      obtain ⟨hlow, x, hx, hne⟩ := hlog.entryConflicted_iff.mp hconflict
      obtain ⟨cut, hchop, hholds, hbase⟩ := hlog.chop hlow (lt_length_of_getElem? hx)
      obtain rfl : cut = new := Option.some.inj (hchop.symm.trans hcut)
      have hy : (p.leaders.log (V id).currTerm)[req.prevLogIndex + i]? = some e := by
        rw [hterm]
        exact prefix_getElem? hg hi
      exact ⟨hbase, _, Protocol.grows_cut p id _, h.cut hid hrole helected hx hy
        (fun heq => hne (congrArg Entry.term heq)) hholds hbase⟩
  · have hreach : (V id).log.Reaches
        { req with entries := req.entries.take j, leaderCommit := 0 } := by
      refine hreaches.imp_left fun hnil => ?_
      dsimp only
      rw [hnil, List.take_nil]
    obtain ⟨g, hg, -, -, -, merged, hmerged, hbase, hcases⟩ :=
      h.merged hid (by exact hterm.le) (hvouches.part j) hprev hreach
    obtain rfl : merged = new := Option.some.inj (hmerged.symm.trans hmerge)
    refine ⟨hbase, ?_⟩
    rcases hcases with ⟨rfl, -⟩ | ⟨hholds, hpart⟩
    · exact ⟨p, .refl p, unchanged⟩
    · rw [← hterm] at hg
      exact ⟨_, Protocol.grows_adopt p id _ _,
        h.adopts hid hrole helected (adopts_new hholds hg hpart hbase)⟩

theorem Refines.comeBack (h : Refines ids V calls base p) (hid : id ∈ ids) {v : View}
    (hrole : v.role = .follower) (hterm : (V id).currTerm ≤ v.currTerm)
    (hballots : v.ballots = (V id).ballots) (helections : v.elections = (V id).elections)
    (hlog : v.log = (V id).log) (hcommit : v.commitIndex = v.log.lastIndex)
    (happlied : v.applied = []) :
    Refines ids (Function.update V id v) calls base (p.raise id v.currTerm) := by
  have hserver := h.server id hid
  have hle : p.current id ≤ v.currTerm := hserver.current.trans_le hterm
  have hgrows : p.Grows (p.raise id v.currTerm) := Protocol.grows_raise hle
  have absurdRole : ∀ {r : Role} {P : Prop}, r ≠ .follower → v.role = r → P :=
    fun hne heq => absurd (heq.symm.trans hrole) hne
  refine h.step hid (h.inv.raise hle) hgrows rfl (fun j hj => Function.update_of_ne hj ..)
    (fun _ _ => rfl) (fun _ _ _ _ hb => hb) helections ?_
  exact
    { current := Function.update_self ..
      holds := hlog ▸ hserver.holds
      ballot := fun t c => hballots ▸ hserver.ballot t c
      candidate := absurdRole (by simp)
      leader := absurdRole (by simp)
      matched := absurdRole (by simp)
      compacted := hcommit.ge
      commit_le := by
        rw [hcommit, hlog]
        exact hserver.holds.base_le
      committed := by
        rw [hcommit, hlog]
        refine (hserver.committed.mono hgrows hterm).restrict ?_
        exact List.take_prefix_take_left hserver.compacted
      applied := fun a ha => by
        rw [happlied] at ha
        cases ha
      oldest := fun x hx => (hserver.oldest x hx).trans (Nat.succ_le_succ hterm) }

theorem Refines.abandon (h : Refines ids V calls base p) (id : Bytes) :
    Refines ids V (calls.map (Call.abandon id)) base p :=
  { h with
    request := by
      intro c hc
      obtain ⟨d, hd, rfl⟩ := List.mem_map.mp hc
      rw [d.abandon_src, d.abandon_request]
      exact h.request d hd
    answer := by
      intro c hc req res hreq hres
      obtain ⟨d, hd, rfl⟩ := List.mem_map.mp hc
      rw [d.abandon_dst]
      exact h.answer d hd req res (d.abandon_request.symm.trans hreq)
        (d.abandon_response.symm.trans hres) }

end

/-! ## Runs with kills -/

namespace World

variable {w w' w₁ w₂ : World} {base : List Entry}

def logParts (w : World) : Event → List EntryLogger
  | .handle i _ =>
      match w.calls[i]? with
      | none => []
      | some c => (w.servers c.dst).logParts c.request
  | _ => []

/--
A server comes back with the log it had, or with a part of what it was taking up.
One that is killed when it has voted in an event is stopped after this event.
-/
def KeepsLog (w : World) : CrashEvent → Prop
  | .run _ => True
  | .stop id log => log = (w.servers id).log
  | .kill e k log => ∀ id ∈ w.actor e,
      (k < (w.voteWrites e).length ∨
        ∀ w' ∈ w.step e, (w'.servers id).ballots = (w.servers id).ballots) ∧
      (log = (w.servers id).log ∨ (w.voteWrites e).length ≤ k ∧ log ∈ w.logParts e)

instance (w : World) : (e : CrashEvent) → Decidable (w.KeepsLog e)
  | .run _ => instDecidableTrue
  | .stop id log => inferInstanceAs (Decidable (log = (w.servers id).log))
  | .kill e k log => inferInstanceAs (Decidable (∀ id ∈ w.actor e,
      (k < (w.voteWrites e).length ∨
        ∀ w' ∈ w.step e, (w'.servers id).ballots = (w.servers id).ballots) ∧
      (log = (w.servers id).log ∨ (w.voteWrites e).length ≤ k ∧ log ∈ w.logParts e)))

/-- Votes and logs are kept, and events run as `FixedVerified` says. -/
def KeepsVerified (w : World) (e : CrashEvent) : Prop :=
  w.KeepsVote e ∧ w.KeepsLog e ∧
    match e with
    | .run e | .kill e _ _ => w.FixedVerified e
    | .stop .. => True

instance (w : World) : (e : CrashEvent) → Decidable (w.KeepsVerified e)
  | .run e => inferInstanceAs (Decidable (w.KeepsVote (.run e) ∧ w.KeepsLog (.run e) ∧
      w.FixedVerified e))
  | .stop id log => inferInstanceAs (Decidable (w.KeepsVote (.stop id log) ∧
      w.KeepsLog (.stop id log) ∧ True))
  | .kill e k log => inferInstanceAs (Decidable (w.KeepsVote (.kill e k log) ∧
      w.KeepsLog (.kill e k log) ∧ w.FixedVerified e))

theorem KeepsVerified.voters {e : CrashEvent} (h : w.KeepsVerified e) : w.KeepsVoters e := by
  refine ⟨h.1, ?_⟩
  cases e with
  | run e => exact h.2.2.1
  | stop => trivial
  | kill => trivial

private theorem refines_restart {p : Protocol Bytes Entry}
    (hp : Refines w.ids (fun id => (w.servers id).view) w.calls base p) {id : Bytes}
    (hid : id ∈ w.ids) {file : VoteState} (hterm : (w.servers id).currTerm ≤ file.currTerm) :
    let r := w.restart id file (w.servers id).log (w.servers id).ballots
    Refines r.ids (fun id => (r.servers id).view) r.calls base (p.raise id file.currTerm) := by
  dsimp only
  rw [restart_map w id file _ _ Raft.view, restart_self]
  apply Refines.abandon
  exact hp.comeBack hid rfl hterm rfl rfl rfl rfl rfl

private theorem refines_restart_part {p : Protocol Bytes Entry}
    (hp : Refines w.ids (fun id => (w.servers id).view) w.calls base p) {id : Bytes}
    (hid : id ∈ w.ids) {c : Call} (hc : c ∈ w.calls) {req : AppendEntriesReq}
    (hrequest : c.request = .appendEntries req) {file : VoteState}
    (hterm : (w.servers id).currTerm ≤ req.term) (hfile : file.currTerm = req.term)
    (hprev : (w.servers id).log.hasEntry req.prevLogIndex req.prevLogTerm)
    (hreaches : (w.servers id).log.Reaches req) {log : EntryLogger}
    (hlog : log ∈ mergeParts (w.servers id).log req.entries) :
    let r := w.restart id file log (w.servers id).ballots
    ∃ p', p.Grows p' ∧ Refines r.ids (fun id => (r.servers id).view) r.calls base p' := by
  dsimp only
  have hle : (w.servers id).currTerm ≤ file.currTerm := hfile ▸ hterm
  have hback := refines_restart hp hid hle
  have hself := restart_self w id file (w.servers id).log (w.servers id).ballots
  have hvouches := hrequest ▸ hp.request c hc
  have hgrows : p.Grows (p.raise id file.currTerm) :=
    Protocol.grows_raise ((hp.server id hid).current.trans_le hle)
  obtain ⟨hbase, p', hgrows', hpart⟩ := hback.mergePart hid (by rw [hself]; rfl)
    (by rw [hself]; exact hfile) (hvouches.mono hgrows) (by rw [hself]; exact hprev)
    (by rw [hself]; exact hreaches) (by rw [hself]; exact hlog)
  have hview : ((w.restart id file log (w.servers id).ballots).servers id).view =
      { ((w.restart id file (w.servers id).log (w.servers id).ballots).servers id).view with
        log := log
        cluster := ((w.restart id file log (w.servers id).ballots).servers id).cluster } := by
    rw [hself] at hbase
    have hbase : log.lastIndex = (w.servers id).log.lastIndex := hbase
    simp only [restart_self, Raft.view, Raft.boot, hbase]
  have hcluster := hpart.cluster hid
    ((w.restart id file log (w.servers id).ballots).servers id).cluster fun hrole => by
      rw [Function.update_self, hself] at hrole
      cases hrole
  rw [Function.update_self, Function.update_idem, restart_map w id file _ _ Raft.view,
    Function.update_idem] at hcluster
  refine ⟨p', hgrows.trans hgrows', ?_⟩
  rw [restart_map w id file _ _ Raft.view, hview]
  exact hcluster

private theorem exists_of_logParts {e : Event} {log : EntryLogger} (h : log ∈ w.logParts e) :
    ∃ i recent c req, e = .handle i recent ∧ w.calls[i]? = some c ∧
      c.request = .appendEntries req ∧ (w.servers c.dst).currTerm ≤ req.term ∧
      (w.servers c.dst).log.hasEntry req.prevLogIndex req.prevLogTerm ∧
      log ∈ mergeParts (w.servers c.dst).log req.entries := by
  unfold logParts at h
  split at h
  · rename_i i recent
    split at h
    · cases h
    · rename_i c hc
      unfold Raft.logParts at h
      split at h
      · rename_i req hreq
        split at h
        · rename_i haccepts
          exact ⟨i, recent, c, req, rfl, hc, hreq, haccepts.1, haccepts.2, h⟩
        · cases h
      · cases h
  · cases h

private theorem writes_requestWrites {s : Raft} {term : Nat} (h : s.currTerm ≤ term) :
    (s.voteState.writes (s.requestWrites term)).currTerm = term := by
  unfold requestWrites
  split
  · rfl
  · change s.currTerm = term
    omega

private theorem refines_kill {p : Protocol Bytes Entry} {e : Event} {k : Nat} {log : EntryLogger}
    (honce : w.OneVote) (hlog : w.KeepsLog (.kill e k log)) (hverified : w.FixedVerified e)
    (hp : Refines w.ids (fun id => (w.servers id).view) w.calls base p)
    (hstep : w.crashStep (.kill e k log) = some w') :
    ∃ p', p.Grows p' ∧ Refines w'.ids (fun id => (w'.servers id).view) w'.calls base p' := by
  obtain ⟨id, t, w₁, hrun, hvote, rfl⟩ := kill_restart honce hstep
  obtain ⟨hballots, hkept⟩ := hlog id hvote.actor
  have hsame : (if k < (w.voteWrites e).length then (w.servers id).ballots else t.ballots) =
      (w.servers id).ballots := by
    have ht : (w₁.servers id).ballots = t.ballots := congrArg Voter.ballots hvote.voter
    split
    · rfl
    · rename_i hk
      exact ht ▸ hballots.resolve_left hk w₁ hrun
  rw [hsame]
  have hle := hvote.votes.changes.currTerm_le_take k
  rcases hkept with rfl | ⟨hk, hpart⟩
  · exact ⟨_, Protocol.grows_raise ((hp.server id hvote.mem).current.trans_le hle),
      refines_restart hp hvote.mem hle⟩
  · obtain ⟨i, recent, c, req, rfl, hc, hrequest, hterm, hprev, hnew⟩ := exists_of_logParts hpart
    obtain rfl : c.dst = id := by
      have hactor := hvote.actor
      simp only [actor, hc, Option.map_some, Option.some.injEq] at hactor
      exact hactor
    have hheeds := hverified.2.2 c hc
    rw [hrequest] at hheeds
    have hwrites : w.voteWrites (.handle i recent) = (w.servers c.dst).requestWrites req.term := by
      simp only [voteWrites, hc, hrequest, serveWrites]
    refine refines_restart_part hp hvote.mem (List.mem_of_getElem? hc) hrequest hterm ?_ hprev
      (hheeds hterm hprev).2 hnew
    rw [List.take_of_length_le hk, hwrites]
    exact writes_requestWrites hterm

private theorem refines_crashStep {p : Protocol Bytes Entry} {e : CrashEvent} (h : w.VotersInv)
    (hkeeps : w.KeepsVerified e)
    (hp : Refines w.ids (fun id => (w.servers id).view) w.calls base p)
    (hstep : w.crashStep e = some w') :
    ∃ p', p.Grows p' ∧ Refines w'.ids (fun id => (w'.servers id).view) w'.calls base p' := by
  obtain ⟨-, hlog, hverified⟩ := hkeeps
  cases e with
  | run e => exact refines_step h.ready hverified h.voting hp hstep
  | stop id log =>
      obtain ⟨hid, rfl⟩ := stop_restart hstep
      obtain rfl : log = (w.servers id).log := hlog
      have hterm : (w.servers id).currTerm ≤ (w.servers id).voteState.currTerm := le_rfl
      exact ⟨_, Protocol.grows_raise (hp.server id hid).current.le,
        refines_restart hp hid hterm⟩
  | kill e k log => exact refines_kill h.once hlog hverified hp hstep

private theorem crashStep_ids {e : CrashEvent} (h : w.VotersInv) (hkeeps : w.KeepsVoters e)
    (hstep : w.crashStep e = some w') : w'.ids = w.ids := by
  cases e with
  | run e =>
      have hmoves : w.Moves True e w' := step_moves h.ready hkeeps.2.1 (.inl trivial) hstep
      exact hmoves.ids
  | stop id log =>
      obtain ⟨-, rfl⟩ := stop_restart hstep
      rfl
  | kill e k log =>
      obtain ⟨id, t, w₁, -, -, rfl⟩ := kill_restart h.once hstep
      rfl

private theorem refines_crashRun {p : Protocol Bytes Entry} {es : List CrashEvent} (hvoters : w.VotersInv)
    (hp : Refines w.ids (fun id => (w.servers id).view) w.calls base p)
    (hkeeps : Along crashStep KeepsVerified w es) (hrun : run crashStep w es = some w₁) :
    w₁.VotersInv ∧ w₁.ids = w.ids ∧ ∃ p', p.Grows p' ∧
      Refines w₁.ids (fun id => (w₁.servers id).view) w₁.calls base p' := by
  refine run_invariant (P := fun w₁ => w₁.VotersInv ∧ w₁.ids = w.ids ∧ ∃ p', p.Grows p' ∧
    Refines w₁.ids (fun id => (w₁.servers id).view) w₁.calls base p')
    ?_ hkeeps ⟨hvoters, rfl, p, .refl p, hp⟩ hrun
  intro w e w' hkeeps ⟨hvoters, hids, q, hq, hrefines⟩ hstep
  obtain ⟨q', hq', hrefines'⟩ := refines_crashStep hvoters hkeeps hrefines hstep
  exact ⟨voters_crashStep hvoters hkeeps.voters hstep,
    (crashStep_ids hvoters hkeeps.voters hstep).trans hids, q', hq.trans hq', hrefines'⟩

/--
In a run of a fixed cluster with kills, which forget no vote and leave the log with a
part of what was taken up at worst, in which what is answered and counted is verified and
only leaders end transfers, an entry that some server has committed at some time
is from then on in the log of every leader of no earlier term, and it is what every
server commits at its index.
-/
theorem committed_survives {es es' : List CrashEvent} {log : EntryLogger} {full : List Entry}
    (hstart : w.StartsFrom log full) (hkeeps : Along crashStep KeepsVerified w (es ++ es'))
    (hrun : run crashStep w es = some w₁) (hrun' : run crashStep w₁ es' = some w₂) :
    ∀ s ∈ w₁.ids, ∀ i ≤ (w₁.servers s).commitIndex, ∀ x ∈ (w₁.servers s).log.get i,
      ∀ s' ∈ w₂.ids,
        ((w₂.servers s').role = .leader → (w₁.servers s).currTerm ≤ (w₂.servers s').currTerm →
          i ≤ (w₂.servers s').log.lastEntryIndex ∧
            ∀ y ∈ (w₂.servers s').log.get i, y.toEntry = x.toEntry) ∧
        (i ≤ (w₂.servers s').commitIndex →
          ∀ y ∈ (w₂.servers s').log.get i, y.toEntry = x.toEntry) := by
  obtain ⟨hfirst, hlast⟩ := hkeeps.split hrun
  obtain ⟨p, hp⟩ := hstart.safety
  obtain ⟨hvoters, -, p₁, -, hp₁⟩ := refines_crashRun hstart.started.voters hp hfirst hrun
  obtain ⟨hvoters₂, hids, p₂, hgrows, hp₂⟩ := refines_crashRun hvoters hp₁ hlast hrun'
  have hvotes := hvoters₂.voting.2
  rw [hids] at hp₂ hvotes
  exact fun s hs i hi x hx s' hs' => hp₁.permanent hp₂ hgrows hvotes hs (hids ▸ hs') hi hx

def committedOnce : List CrashEvent :=
  [.run (.electionTimeout (ascii "a:1")), .run (.handle 0 false), .run (.succeed 0 false),
    .run (.handle 3 false), .run (.succeed 3 false), .run (.append (ascii "a:1") (ascii "x")),
    .run (.heartbeatTimeout (ascii "a:1")), .run (.handle 7 false), .run (.succeed 7 false)]

def killedOnce : List CrashEvent :=
  let log := ((cluster ["a:1", "b:1", "c:1"] true).servers []).log
  let longer := log.append [log.makeEntry (ascii "x") 2 2 false]
  [.stop (ascii "a:1") longer, .stop (ascii "c:1") longer, .kill (.handle 6 false) 2 longer,
    .run (.electionTimeout (ascii "c:1")), .run (.handle 9 false), .run (.succeed 9 false),
    .run (.handle 11 false), .run (.succeed 11 false)]

theorem committed_survives_killed :
    ∃ w₁ w₂, run crashStep (cluster ["a:1", "b:1", "c:1"] true) committedOnce = some w₁ ∧
      run crashStep w₁ killedOnce = some w₂ ∧
      (w₁.servers (ascii "a:1")).commitIndex = 2 ∧
      (w₂.servers (ascii "c:1")).role = .leader ∧
      2 ≤ (w₂.servers (ascii "c:1")).log.lastEntryIndex := by
  have hstart : (cluster ["a:1", "b:1", "c:1"] true).StartsFrom
      ((cluster ["a:1", "b:1", "c:1"] true).servers []).log
      [{ term := 1, index := 1, data := ascii "a:1,b:1,c:1", config := true }] := by decide
  have hrun := (Option.some_get (show (run crashStep (cluster ["a:1", "b:1", "c:1"] true)
    committedOnce).isSome by decide)).symm
  refine ⟨_, _, hrun, (Option.some_get (by decide)).symm, by decide, by decide, ?_⟩
  have hkeeps : Along crashStep KeepsVerified (cluster ["a:1", "b:1", "c:1"] true)
      (committedOnce ++ killedOnce) := by decide
  have hall := committed_survives hstart hkeeps hrun (Option.some_get (by decide)).symm
  exact ((hall (ascii "a:1") (by decide) 2 (by decide) _ rfl (ascii "c:1") (by decide)).1
    (by decide) (by decide)).1

end World

end Draft
