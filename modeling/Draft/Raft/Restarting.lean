import Draft.Raft.ElectionSafety
import Draft.Raft.VoteCrash

/-!
# Elections across restarts

A server that is killed comes back as a follower with the term and the vote of
its file, and the callbacks of its old calls are gone.  As long as no vote is
forgotten, the votes it gave still count for nobody else, so a term has at most
one leader whatever is killed.
-/

namespace Draft

open Consensus Raft

/-! ## The vote file between two writes -/

namespace Voter

variable {v u : Voter} {ws : List VoteWrite}

theorem Change.currTerm_le_take (h : v.Change ws u) (k : Nat) :
    v.file.currTerm ≤ (v.file.writes (ws.take k)).currTerm := by
  cases h with
  | raise term hterm =>
      cases k with
      | zero => exact le_rfl
      | succ k => simpa [VoteState.writes, VoteState.write] using hterm.le
  | accept term hterm =>
      rcases k with _ | _ | k
      · exact le_rfl
      · exact le_rfl
      · simpa [VoteState.writes, VoteState.write] using hterm.le
  | elect =>
      rcases k with _ | _ | k
      · exact le_rfl
      · exact Nat.le_succ _
      · simp [VoteState.writes, VoteState.write]
  | grant candidate =>
      rcases k with _ | _ | k
      · exact le_rfl
      · exact le_rfl
      · simp [VoteState.writes, VoteState.write]
  | again => simp

theorem Changes.currTerm_le_take (h : v.Changes ws u) (k : Nat) :
    v.file.currTerm ≤ (v.file.writes (ws.take k)).currTerm := by
  induction h generalizing k with
  | refl => simp
  | tail hbefore hchange ih =>
      rename_i ws vs u t
      by_cases hk : k ≤ ws.length
      · rw [List.take_append_of_le_length hk]
        exact ih k
      · have htake : (ws ++ vs).take k = ws ++ vs.take (k - ws.length) := by
          rw [List.take_append, List.take_of_length_le (by omega)]
        rw [htake, VoteState.writes_append, ← hbefore.file]
        exact hbefore.currTerm_le.trans (hchange.currTerm_le_take _)

private theorem Changes.ballots_subset (h : v.Changes ws u) : v.ballots ⊆ u.ballots := by
  induction h with
  | refl => exact List.Subset.refl _
  | tail _ hchange ih =>
      refine List.Subset.trans ih ?_
      cases hchange with
      | raise => exact List.Subset.refl _
      | accept => exact List.Subset.refl _
      | elect => exact List.subset_append_left _ _
      | grant => exact List.subset_append_left _ _
      | again => exact List.subset_append_left _ _

end Voter

/-! ## Calls of a process that is gone -/

/-- The call, whose callback never runs if it was made by server `id`. -/
def Call.abandon (id : Bytes) (c : Call) : Call := if c.src = id then { c with done := true } else c

section

variable {id : Bytes} {calls : List Call}

theorem Call.abandon_src (c : Call) : (c.abandon id).src = c.src := by
  unfold abandon
  split <;> rfl

theorem Call.abandon_dst (c : Call) : (c.abandon id).dst = c.dst := by
  unfold abandon
  split <;> rfl

theorem Call.abandon_request (c : Call) : (c.abandon id).request = c.request := by
  unfold abandon
  split <;> rfl

theorem Call.abandon_response (c : Call) : (c.abandon id).response = c.response := by
  unfold abandon
  split <;> rfl

private theorem Call.abandon_done {c : Call} (h : c.done = true) : (c.abandon id).done = true := by
  unfold abandon
  split
  · rfl
  · exact h

private theorem Call.abandon_ballot (c : Call) : (c.abandon id).ballot = c.ballot := by
  unfold Call.ballot
  rw [c.abandon_request, c.abandon_src, c.abandon_dst]

private theorem Call.abandon_granted {c : Call} (h : c.granted) : (c.abandon id).granted := by
  unfold Call.granted
  rw [c.abandon_response]
  exact h

theorem Supports.abandon {s n : Bytes} {t : Nat} (h : Supports calls s t n) :
    Supports (calls.map (Call.abandon id)) s t n := by
  rcases h with rfl | ⟨c, hc, hdone, hballot, hgranted⟩
  · exact .inl rfl
  · exact .inr ⟨_, List.mem_map_of_mem hc, Call.abandon_done hdone,
      c.abandon_ballot.trans hballot, Call.abandon_granted hgranted⟩

variable {ids : List Bytes} {E : Bytes → Election}

theorem Voting.abandon (h : Voting ids E calls) (id : Bytes) :
    Voting ids E (calls.map (Call.abandon id)) :=
  { h with
    asked := by
      intro c hc req hreq
      obtain ⟨d, hd, rfl⟩ := List.mem_map.mp hc
      rw [d.abandon_src, d.abandon_dst]
      exact h.asked d hd req (d.abandon_request.symm.trans hreq)
    once := by
      have heq : (calls.map (Call.abandon id)).filterMap Call.ballot =
          calls.filterMap Call.ballot := by
        rw [List.filterMap_map]
        exact List.filterMap_congr fun c _ => c.abandon_ballot
      exact heq ▸ h.once
    granted := by
      intro c hc req res hreq hres
      obtain ⟨d, hd, rfl⟩ := List.mem_map.mp hc
      rw [d.abandon_src, d.abandon_dst]
      exact h.granted d hd req res (d.abandon_request.symm.trans hreq)
        (d.abandon_response.symm.trans hres)
    candidate := by
      intro s hs hrole
      obtain ⟨hself, hnew, Q, hQ, hvotes, hsupports⟩ := h.candidate s hs hrole
      exact ⟨hself, hnew, Q, hQ, hvotes, fun n hn => (hsupports n hn).abandon⟩ }

theorem Voting.comeBack (h : Voting ids E calls) (hid : id ∈ ids) {e : Election}
    (hrole : e.role = .follower) (hterm : (E id).currTerm ≤ e.currTerm)
    (hkeep : (E id).ballots ⊆ e.ballots) (helections : e.elections = (E id).elections)
    (honce : Voter.Once ⟨e.selfId, ⟨e.currTerm, e.votedFor⟩, e.ballots⟩) :
    Voting ids (Function.update E id e) calls :=
  h.update hterm hkeep honce.cast honce.unique (fun h => by simp [hrole] at h)
    (fun _ ht => .inl (helections ▸ ht)) (fun h => by simp [hrole] at h) hid

end

/-! ## Steps and restarts -/

private theorem Raft.settled_boot (settings : Settings) (log : EntryLogger) (currTerm : Nat)
    (votedFor : Bytes) (files : Sender) :
    (Raft.boot settings log currTerm votedFor files).Settled where
  recfg := rfl
  next := by
    intro p hp
    rcases mem_foldl_enlist hp with hold | ⟨-, hnode⟩
    · cases hold
    · rw [hnode]
      exact Nat.succ_pos _

namespace World

variable {w w' : World}

theorem restart_self (w : World) (id : Bytes) (file : VoteState) (log : EntryLogger)
    (ballots : List (Nat × Bytes)) :
    (w.restart id file log ballots).servers id =
      { Raft.boot (w.servers id).toSettings log file.currTerm file.votedFor
          (w.servers id).sender with
        ballots := ballots
        elections := (w.servers id).elections } :=
  if_pos rfl

private theorem restart_of_ne (w : World) {id j : Bytes} (file : VoteState) (log : EntryLogger)
    (ballots : List (Nat × Bytes)) (hj : j ≠ id) :
    (w.restart id file log ballots).servers j = w.servers j :=
  if_neg hj

theorem restart_map {β : Type*} (w : World) (id : Bytes) (file : VoteState) (log : EntryLogger)
    (ballots : List (Nat × Bytes)) (f : Raft → β) :
    (fun j => f ((w.restart id file log ballots).servers j)) =
      Function.update (fun j => f (w.servers j)) id
        (f ((w.restart id file log ballots).servers id)) := by
  funext j
  by_cases hj : j = id
  · subst hj
    rw [Function.update_self]
  · rw [restart_of_ne w file log ballots hj, Function.update_of_ne hj]

theorem Ready.restart (h : w.Ready) {id : Bytes} (file : VoteState) (log : EntryLogger)
    (ballots : List (Nat × Bytes)) : (w.restart id file log ballots).Ready := by
  have each : ∀ {P : Bytes → Raft → Prop}, (∀ j ∈ w.ids, P j (w.servers j)) →
      (id ∈ w.ids → P id ((w.restart id file log ballots).servers id)) →
      ∀ j ∈ w.ids, P j ((w.restart id file log ballots).servers j) := by
    intro P hold hthis j hj
    by_cases hjid : j = id
    · subst hjid
      exact hthis hj
    · rw [restart_of_ne w file log ballots hjid]
      exact hold j hj
  constructor
  · refine each (P := fun j s => s.selfId = j) h.self fun hid => ?_
    rw [restart_self]
    exact h.self id hid
  · refine each (P := fun _ s => s.Settled) h.settled fun hid => ?_
    rw [restart_self]
    have hboot := Raft.settled_boot (w.servers id).toSettings log file.currTerm file.votedFor
      (w.servers id).sender
    exact ⟨hboot.recfg, hboot.next⟩
  · refine each (P := fun _ s => s.sent = []) h.sent fun hid => ?_
    rw [restart_self]
    rfl

theorem VotingInv.restart (h : w.VotingInv) {id : Bytes} (hid : id ∈ w.ids) {file : VoteState}
    {log : EntryLogger} {ballots : List (Nat × Bytes)}
    (hterm : (w.servers id).currTerm ≤ file.currTerm)
    (hkeep : (w.servers id).ballots ⊆ ballots)
    (honce : Voter.Once ⟨(w.servers id).selfId, file, ballots⟩) :
    (w.restart id file log ballots).VotingInv := by
  refine ⟨h.1, ?_⟩
  rw [restart_map w id file log ballots Raft.toElection, restart_self]
  apply Voting.abandon
  exact h.2.comeBack hid rfl hterm hkeep rfl honce

/-- What is known of a run with kills: no vote is forgotten, and the members are fixed. -/
def KeepsVoters (w : World) (e : CrashEvent) : Prop :=
  w.KeepsVote e ∧
    match e with
    | .run e => w.FixedMembers e
    | .stop .. | .kill .. => True

instance (w : World) : (e : CrashEvent) → Decidable (w.KeepsVoters e)
  | .run e => inferInstanceAs (Decidable (w.KeepsVote (.run e) ∧ w.FixedMembers e))
  | .stop id log => inferInstanceAs (Decidable (w.KeepsVote (.stop id log) ∧ True))
  | .kill e k log => inferInstanceAs (Decidable (w.KeepsVote (.kill e k log) ∧ True))

structure VotersInv (w : World) : Prop where
  ready : w.Ready
  voting : w.VotingInv
  once : w.OneVote

theorem Started.voters (h : w.Started) : w.VotersInv where
  ready := h.ready
  voting := h.voting
  once := by
    refine Unvoted.oneVote ⟨fun id hid hself => h.named ?_, h.ballots, h.ready.sent, h.calls⟩
    rwa [← hself, h.ready.self id hid]

theorem stop_restart {id : Bytes} {log : EntryLogger}
    (hstep : w.crashStep (.stop id log) = some w') :
    id ∈ w.ids ∧ w' = w.restart id (w.servers id).voteState log (w.servers id).ballots := by
  simp only [crashStep] at hstep
  split at hstep
  · rename_i hid
    exact ⟨hid, (Option.some.inj hstep).symm⟩
  · cases hstep

theorem kill_restart {e : Event} {k : Nat} {log : EntryLogger} (h : w.OneVote)
    (hstep : w.crashStep (.kill e k log) = some w') :
    ∃ id t w₁, w.step e = some w₁ ∧ VoteStep w e w₁ id t ∧
      w' = w.restart id ((w.servers id).voteState.writes ((w.voteWrites e).take k)) log
        (if k < (w.voteWrites e).length then (w.servers id).ballots else t.ballots) := by
  simp only [crashStep] at hstep
  split at hstep
  · rename_i id w₁ hactor hrun
    obtain ⟨j, t, hvote⟩ := voteStep h hrun
    obtain rfl : j = id := Option.some.inj (hvote.actor.symm.trans hactor)
    have hballots : (w₁.servers j).ballots = t.ballots := congrArg Voter.ballots hvote.voter
    rw [hballots, Option.some.injEq] at hstep
    exact ⟨j, t, w₁, hrun, hvote, hstep.symm⟩
  · cases hstep

theorem voters_crashStep {e : CrashEvent} (h : w.VotersInv) (hkeeps : w.KeepsVoters e)
    (hstep : w.crashStep e = some w') : w'.VotersInv := by
  have honce := oneVote_crashStep h.once hkeeps.1 hstep
  cases e with
  | run e =>
      have hmoves : w.Moves True e w' := step_moves h.ready hkeeps.2.1 (.inl trivial) hstep
      exact ⟨hmoves.ready h.ready, voting_step h.ready hkeeps.2 h.voting hmoves, honce⟩
  | stop id log =>
      obtain ⟨hid, rfl⟩ := stop_restart hstep
      refine ⟨h.ready.restart _ _ _, h.voting.restart hid le_rfl (List.Subset.refl _) ?_, honce⟩
      exact h.once.once id hid
  | kill e k log =>
      obtain ⟨id, t, w₁, -, hvote, rfl⟩ := kill_restart h.once hstep
      refine ⟨h.ready.restart _ _ _, h.voting.restart hvote.mem ?_ ?_ ?_, honce⟩
      · exact hvote.votes.changes.currTerm_le_take k
      · split
        · exact List.Subset.refl _
        · exact hvote.votes.changes.ballots_subset
      · have hthis := honce.once id hvote.mem
        rw [restart_self] at hthis
        exact hthis

/--
In a run of a fixed cluster with kills, none of them between clearing a vote of the
current term and raising the term, at most one server wins a term, before it is killed or
after, and two leaders of one term are one server.
-/
theorem elections_survive {es : List CrashEvent} (hstart : w.Started)
    (hkeeps : Along crashStep KeepsVoters w es) (hrun : run crashStep w es = some w') :
    (∀ s ∈ w'.ids, ∀ s' ∈ w'.ids, ∀ t ∈ (w'.servers s).elections,
      t ∈ (w'.servers s').elections → s = s') ∧
    (∀ s ∈ w'.ids, ∀ s' ∈ w'.ids, (w'.servers s).role = .leader →
      (w'.servers s').role = .leader →
      (w'.servers s).currTerm = (w'.servers s').currTerm → s = s') := by
  have h : w'.VotersInv := run_invariant (P := VotersInv)
    (fun _ _ _ hkeeps h hstep => voters_crashStep h hkeeps hstep) hkeeps hstart.voters hrun
  have hvoting := h.voting.2
  refine ⟨fun s hs s' hs' t ht ht' => hvoting.winner_unique hs hs' ht ht', ?_⟩
  intro s hs s' hs' hrole hrole' hterm
  refine hvoting.winner_unique hs hs' (hvoting.leader s hs hrole) ?_
  have hleader : (w'.servers s').currTerm ∈ (w'.servers s').elections :=
    hvoting.leader s' hs' hrole'
  exact hterm ▸ hleader

def votesAcrossKills : List CrashEvent :=
  let log := ((cluster ["a:1", "b:1", "c:1"] true).servers []).log
  [.run (.electionTimeout (ascii "a:1")), .run (.handle 0 false), .run (.succeed 0 false),
    .kill (.handle 3 false) 2 log, .run (.handle 3 false), .run (.succeed 3 false),
    .stop (ascii "c:1") log, .run (.electionTimeout (ascii "b:1")), .run (.handle 7 false),
    .run (.succeed 7 false), .run (.handle 9 false), .run (.succeed 9 false)]

theorem elections_survive_kills :
    ∃ w', run crashStep (cluster ["a:1", "b:1", "c:1"] true) votesAcrossKills = some w' ∧
      (w'.servers (ascii "a:1")).elections = [2] ∧
      (w'.servers (ascii "b:1")).role = .candidate ∧
      ∀ s ∈ w'.ids, ∀ s' ∈ w'.ids, ∀ t ∈ (w'.servers s).elections,
        t ∈ (w'.servers s').elections → s = s' :=
  ⟨_, (Option.some_get (by decide)).symm, by decide, by decide,
    (elections_survive (w := cluster ["a:1", "b:1", "c:1"] true) (by decide) (by decide)
      (Option.some_get (by decide)).symm).1⟩

/--
The leader `a` of term 2 restarts and asks for votes in term 3.  Server `c` is killed by
this request when it has cleared its vote, and `b` becomes leader of term 2 as well.
-/
def electedTwice : List CrashEvent :=
  let log := ((cluster ["a:1", "b:1", "c:1"] true).servers []).log
  [.run (.electionTimeout (ascii "a:1")), .run (.handle 1 false), .run (.succeed 1 false),
    .run (.electionTimeout (ascii "b:1")), .run (.handle 5 false), .run (.succeed 5 false),
    .run (.handle 3 false), .run (.succeed 3 false), .stop (ascii "a:1") log,
    .run (.electionTimeout (ascii "a:1")), .run (.handle 11 false), .run (.succeed 11 false),
    .kill (.handle 13 false) 1 log, .run (.handle 7 false), .run (.succeed 7 false)]

theorem elections_forgotten :
    ∃ w', run crashStep (cluster ["a:1", "b:1", "c:1"] true) electedTwice = some w' ∧
      2 ∈ (w'.servers (ascii "a:1")).elections ∧ 2 ∈ (w'.servers (ascii "b:1")).elections :=
  ⟨_, (Option.some_get (by decide)).symm, by decide, by decide⟩

end World

end Draft
