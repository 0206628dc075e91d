import Draft.Raft.VoteFile

/-!
# Votes of servers that are killed

Runs in which any server may be killed, between two events or between two
writes to its vote file, and starts again from the file.  The file forgets a
vote only when the server is killed right after clearing it, before the term is
raised.
-/

namespace Draft

open Consensus Raft

inductive CrashEvent where
  | run (e : Event)
  /-- Server `id` is killed between two events and starts again with a log. -/
  | stop (id : Bytes) (log : EntryLogger)
  /-- The server that takes the event is killed after `k` of the writes to its vote file. -/
  | kill (e : Event) (k : Nat) (log : EntryLogger)

namespace World

variable (w : World)

def voteWrites : Event → List VoteWrite
  | .electionTimeout id => (w.servers id).preVoteWrites
  | .handle i _ =>
      match w.calls[i]? with
      | none => []
      | some c => (w.servers c.dst).serveWrites c.request
  | .succeed i _ =>
      match w.calls[i]? with
      | none => []
      | some c => (w.servers c.src).finishWrites c.request c.response
  | .fail i _ =>
      match w.calls[i]? with
      | none => []
      | some c => (w.servers c.src).finishWrites c.request none
  | _ => []

/-- A new process for server `id`; the callbacks of the old one are gone. -/
def restart (id : Bytes) (file : VoteState) (log : EntryLogger) (ballots : List (Nat × Bytes)) :
    World :=
  let s := w.servers id
  let t := Raft.boot s.toSettings log file.currTerm file.votedFor s.sender
  { w with
    servers := fun j =>
      if j = id then { t with ballots := ballots, elections := s.elections } else w.servers j
    calls := w.calls.map fun c => if c.src = id then { c with done := true } else c }

def crashStep : CrashEvent → Option World
  | .run e => w.step e
  | .stop id log =>
      if id ∈ w.ids then
        some (w.restart id (w.servers id).voteState log (w.servers id).ballots)
      else none
  | .kill e k log =>
      match w.actor e, w.step e with
      | some id, some w' =>
          -- a vote is given when the event is over
          let ballots :=
            if k < (w.voteWrites e).length then (w.servers id).ballots
            else (w'.servers id).ballots
          some (w.restart id ((w.servers id).voteState.writes ((w.voteWrites e).take k)) log
            ballots)
      | _, _ => none

/--
No server is killed between clearing its vote and raising its term, unless it
has not voted in the term it leaves.
-/
def KeepsVote (w : World) : CrashEvent → Prop
  | .kill e k _ => ((w.voteWrites e).take k).getLast? = some .clear →
      ∀ id ∈ w.actor e, ∀ b ∈ (w.servers id).ballots, b.1 ≠ (w.servers id).currTerm
  | _ => True

instance (w : World) (e : CrashEvent) : Decidable (w.KeepsVote e) := by
  unfold KeepsVote
  split <;> infer_instance

/-- Servers with names that have not voted yet; their files may hold anything. -/
structure Unvoted (w : World) : Prop where
  self : ∀ id ∈ w.ids, (w.servers id).selfId ≠ []
  ballots : ∀ id ∈ w.ids, (w.servers id).ballots = []
  sent : ∀ id ∈ w.ids, (w.servers id).sent = []
  calls : w.calls = []

instance (w : World) : Decidable w.Unvoted :=
  decidable_of_iff ((∀ id ∈ w.ids, (w.servers id).selfId ≠ []) ∧
      (∀ id ∈ w.ids, (w.servers id).ballots = []) ∧
      (∀ id ∈ w.ids, (w.servers id).sent = []) ∧ w.calls = [])
    ⟨fun h => ⟨h.1, h.2.1, h.2.2.1, h.2.2.2⟩, fun h => ⟨h.1, h.2, h.3, h.4⟩⟩

structure OneVote (w : World) : Prop where
  once : ∀ id ∈ w.ids, (w.servers id).voter.Once
  sent : ∀ id ∈ w.ids, (w.servers id).sent = []
  asked : ∀ c ∈ w.calls, ∀ b ∈ c.request.asked, b ≠ []

variable {w} {w' : World}

theorem Unvoted.oneVote (h : w.Unvoted) : w.OneVote where
  once := by
    intro id hid
    have hballots : (w.servers id).voter.ballots = [] := h.ballots id hid
    refine ⟨h.self id hid, ?_, ?_⟩ <;> simp [hballots]
  sent := h.sent
  asked := by simp [h.calls]

/-! ## Steps -/

structure VoteStep (w : World) (e : Event) (w' : World) (id : Bytes) (t : Raft) : Prop where
  actor : w.actor e = some id
  mem : id ∈ w.ids
  votes : (w.servers id).Votes (w.voteWrites e) t
  step : ∃ calls, w' = { w with calls := calls }.act id t ∧
    ∀ c ∈ calls, ∃ d ∈ w.calls, c.request = d.request

private theorem voteStep_local {e : Event} {id : Bytes} {f : Raft → Raft} (hactor : w.actor e = some id)
    (hvotes : (w.servers id).Votes (w.voteWrites e) (f (w.servers id)))
    (hstep : w.local_ id f = some w') : ∃ id t, VoteStep w e w' id t := by
  unfold World.local_ at hstep
  split at hstep
  · rename_i hid
    cases hstep
    exact ⟨id, _, hactor, hid.1, hvotes, w.calls, rfl, fun c hc => ⟨c, hc, rfl⟩⟩
  · cases hstep

private theorem requests_set {i : Nat} {c c' : Call} (hc : w.calls[i]? = some c)
    (hrequest : c'.request = c.request) :
    ∀ d ∈ w.calls.set i c', ∃ b ∈ w.calls, d.request = b.request := by
  intro d hd
  rcases List.mem_or_eq_of_mem_set hd with hd | rfl
  · exact ⟨d, hd, rfl⟩
  · exact ⟨c, List.mem_of_getElem? hc, hrequest⟩

private theorem voteStep_finish {e : Event} {i : Nat} {c : Call} {response : Option Response}
    {quick : Bool} (hc : w.calls[i]? = some c) (hactor : w.actor e = some c.src)
    (hwrites : w.voteWrites e = (w.servers c.src).finishWrites c.request response)
    (hstep : w.finishCall i c response quick = some w') : ∃ id t, VoteStep w e w' id t := by
  unfold finishCall at hstep
  split at hstep
  · rename_i hsrc
    cases hstep
    exact ⟨c.src, _, hactor, hsrc.1, hwrites ▸ votes_finish c.dst quick c.request response,
      _, rfl, requests_set hc rfl⟩
  · cases hstep

theorem voteStep {e : Event} (h : w.OneVote) (hstep : w.step e = some w') :
    ∃ id t, VoteStep w e w' id t := by
  have same : ∀ {s t : Raft}, t.standing = s.standing → s.Votes [] t := Votes.of_standing
  cases e with
  | electionTimeout id =>
      simp only [World.step] at hstep
      split at hstep
      · refine voteStep_local rfl ?_ hstep
        have timer : (w.servers id).Votes [] { w.servers id with electionTimer := false } :=
          .of_eq rfl rfl
        exact (votes_preVote false).after timer
      · cases hstep
  | heartbeatTimeout id =>
      simp only [World.step] at hstep
      split at hstep
      · exact voteStep_local rfl (same ((appendEntries_frame .standing rfl).trans rfl)) hstep
      · cases hstep
  | leadershipTransferTimeout id =>
      simp only [World.step] at hstep
      split at hstep
      · cases hstep
      · rename_i node _
        exact voteStep_local (f := fun s => s.onLeadershipTransferTimeout node) rfl
          (same (onLeadershipTransferTimeout_frame .standing rfl node)) hstep
  | append id data =>
      exact voteStep_local (f := fun s => s.append data) rfl
        (same (append_frame .standing rfl data)) hstep
  | transferLeadership id address =>
      exact voteStep_local (f := fun s => (s.leadershipTransfer address).1) rfl
        (same (leadershipTransfer_frame .standing address)) hstep
  | addServer id address =>
      exact voteStep_local (f := fun s => s.addServer address) rfl
        (same (addServer_frame .standing rfl address)) hstep
  | delServer id address =>
      exact voteStep_local (f := fun s => s.delServer address) rfl
        (same (delServer_frame .standing rfl address)) hstep
  | popCommitted id =>
      exact voteStep_local (f := popCommitted) rfl (same (popCommitted_frame .standing)) hstep
  | applyNext id =>
      exact voteStep_local (f := applyNext) rfl (same (applyNext_frame .standing rfl)) hstep
  | compact id =>
      exact voteStep_local (f := compact) rfl (same (compact_frame .standing rfl rfl)) hstep
  | writeFiles id files =>
      simp only [World.step] at hstep
      exact voteStep_local rfl (.of_eq rfl rfl) hstep
  | handle i recent =>
      simp only [World.step] at hstep
      split at hstep
      · cases hstep
      · rename_i c hc
        unfold handleCall at hstep
        split at hstep
        · rename_i hdst
          cases hstep
          have hwrites : w.voteWrites (.handle i recent) =
              (w.servers c.dst).serveWrites c.request := by simp only [voteWrites, hc]
          exact ⟨c.dst, _, by simp [actor, hc], hdst.1,
            hwrites ▸ votes_serve recent (h.asked c (List.mem_of_getElem? hc)),
            _, rfl, requests_set hc rfl⟩
        · cases hstep
  | succeed i quick =>
      simp only [World.step] at hstep
      split at hstep
      · cases hstep
      · rename_i c hc
        split at hstep
        · cases hstep
        · exact voteStep_finish hc (by simp [actor, hc]) (by simp only [voteWrites, hc]) hstep
  | fail i quick =>
      simp only [World.step] at hstep
      split at hstep
      · cases hstep
      · rename_i c hc
        exact voteStep_finish hc (by simp [actor, hc]) (by simp only [voteWrites, hc]) hstep

theorem VoteStep.voter {e : Event} {id : Bytes} {t : Raft} (h : VoteStep w e w' id t) :
    (w'.servers id).voter = t.voter := by
  obtain ⟨calls, rfl, -⟩ := h.step
  rw [act_self]
  rfl

theorem oneVote_step {e : Event} (h : w.OneVote) (hstep : w.step e = some w') : w'.OneVote := by
  obtain ⟨id, t, hvote⟩ := voteStep h hstep
  have hself := (h.once id hvote.mem).self
  have honce : t.voter.Once := hvote.votes.changes.once (h.once id hvote.mem)
  have hasked := hvote.votes.asked
  have hnone : (w.servers id).asked = [] := by
    rw [Raft.asked, h.sent id hvote.mem, List.filterMap_nil]
  obtain ⟨calls, rfl, hcalls⟩ := hvote.step
  refine ⟨fun j hj => ?_, fun j hj => ?_, fun c hc b hb => ?_⟩
  · by_cases hjid : j = id
    · subst hjid
      rw [act_self]
      exact honce
    · rw [act_of_ne _ _ hjid]
      exact h.once j hj
  · by_cases hjid : j = id
    · subst hjid
      rw [act_self]
    · rw [act_of_ne _ _ hjid]
      exact h.sent j hj
  · rcases List.mem_append.mp hc with hc | hc
    · obtain ⟨d, hd, hrequest⟩ := hcalls c hc
      exact h.asked d hd b (hrequest ▸ hb)
    · obtain ⟨o, ho, rfl⟩ := List.mem_map.mp hc
      have hmem : b ∈ t.asked := List.mem_filterMap.mpr ⟨o, ho, hb⟩
      rcases hasked b hmem with hold | rfl
      · rw [hnone] at hold
        cases hold
      · exact hself

theorem OneVote.restart (h : w.OneVote) {id : Bytes} {file : VoteState} {log : EntryLogger}
    {ballots : List (Nat × Bytes)}
    (honce : Voter.Once ⟨(w.servers id).selfId, file, ballots⟩) :
    (w.restart id file log ballots).OneVote where
  once := by
    intro j hj
    by_cases hjid : j = id
    · subst hjid
      simp only [World.restart, if_true]
      exact honce
    · simp only [World.restart, if_neg hjid]
      exact h.once j hj
  sent := by
    intro j hj
    by_cases hjid : j = id
    · subst hjid
      simp only [World.restart, if_true]
      rfl
    · simp only [World.restart, if_neg hjid]
      exact h.sent j hj
  asked := by
    intro c hc
    obtain ⟨d, hd, rfl⟩ := List.mem_map.mp hc
    split
    · exact h.asked d hd
    · exact h.asked d hd

theorem oneVote_crashStep {e : CrashEvent} (h : w.OneVote) (hkeeps : w.KeepsVote e)
    (hstep : w.crashStep e = some w') : w'.OneVote := by
  cases e with
  | run e => exact oneVote_step h hstep
  | stop id log =>
      simp only [crashStep] at hstep
      split at hstep
      · rename_i hid
        cases hstep
        exact h.restart (h.once id hid)
      · cases hstep
  | kill e k log =>
      simp only [crashStep] at hstep
      split at hstep
      · rename_i id w₁ hactor hrun
        cases hstep
        obtain ⟨j, t, hvote⟩ := voteStep h hrun
        obtain rfl : j = id := Option.some.inj (hvote.actor.symm.trans hactor)
        have honce := h.once j hvote.mem
        have hchanges := hvote.votes.changes
        refine h.restart ?_
        split
        · refine honce.restart (hchanges.knows_take honce k fun hlast c hc => ?_)
          exact hkeeps hlast j hactor _ hc rfl
        · rename_i hk
          rw [List.take_of_length_le (by omega)]
          have hfile : t.voter.file = (w.servers j).voteState.writes (w.voteWrites e) :=
            hchanges.file
          have hballots : (w₁.servers j).ballots = t.voter.ballots :=
            congrArg Voter.ballots hvote.voter
          rw [← hfile, hballots, ← hvote.votes.selfId]
          exact hchanges.once honce
      · cases hstep

/--
In a run with kills, none of them between clearing a vote of the current term
and raising the term, a server votes for one candidate a term.
-/
theorem vote_survives {es : List CrashEvent} (hstart : w.Unvoted)
    (hkeeps : Along crashStep KeepsVote w es) (hrun : run crashStep w es = some w') :
    ∀ id ∈ w'.ids, ∀ t c d, (t, c) ∈ (w'.servers id).ballots →
      (t, d) ∈ (w'.servers id).ballots → c = d := by
  have h : w'.OneVote := run_invariant (P := OneVote)
    (fun _ _ _ hkeeps h hstep => oneVote_crashStep h hkeeps hstep) hkeeps hstart.oneVote hrun
  exact fun id hid => (h.once id hid).unique

theorem vote_survives_killed :
    ∃ w', run crashStep (cluster ["a:1", "b:1", "c:1"] true)
        [.run (.electionTimeout (ascii "a:1")), .run (.handle 0 false), .run (.succeed 0 false),
          .kill (.handle 3 false) 2 ((cluster ["a:1", "b:1", "c:1"] true).servers []).log,
          .run (.handle 3 false)] = some w' ∧
      (w'.servers (ascii "c:1")).ballots = [(2, ascii "a:1")] ∧
      ∀ id ∈ w'.ids, ∀ t c d, (t, c) ∈ (w'.servers id).ballots →
        (t, d) ∈ (w'.servers id).ballots → c = d := by
  refine ⟨_, (Option.some_get (by decide)).symm, by decide, ?_⟩
  exact vote_survives (by decide) (by decide) (Option.some_get (by decide)).symm

/--
Server `c` votes for `a` in term 2 and is killed by the request of term 3 when it
has cleared its vote.  Then the late request of `b` for term 2 arrives.
-/
def clearedVote : List CrashEvent :=
  [.run (.electionTimeout (ascii "a:1")), .run (.handle 1 false), .run (.succeed 1 false),
    .run (.electionTimeout (ascii "b:1")), .run (.handle 5 false), .run (.succeed 5 false),
    .run (.handle 3 false), .run (.electionTimeout (ascii "a:1")), .run (.handle 9 false),
    .run (.succeed 9 false),
    .kill (.handle 11 false) 1 ((cluster ["a:1", "b:1", "c:1"] true).servers []).log,
    .run (.handle 7 false)]

theorem vote_forgotten :
    ¬ ∀ (w w' : World) (es : List CrashEvent), w.Unvoted → run crashStep w es = some w' →
      ∀ id ∈ w'.ids, ∀ b ∈ (w'.servers id).ballots, ∀ b' ∈ (w'.servers id).ballots,
        b.1 = b'.1 → b.2 = b'.2 := by
  intro h
  have hrun := (Option.some_get (show (run crashStep (cluster ["a:1", "b:1", "c:1"] true)
    clearedVote).isSome by decide)).symm
  have hsame := h _ _ clearedVote (by decide) hrun (ascii "c:1") (by decide) (2, ascii "a:1")
    (by decide) (2, ascii "b:1") (by decide) rfl
  exact absurd hsame (by decide)

end World

end Draft
