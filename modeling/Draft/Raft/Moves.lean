import Draft.Raft.Turns

/-!
# Moves

The moves a turn consists of, the turns of the functions behind timers and
callbacks, and what the handlers of the service and the callbacks of a
server's own calls add to a turn.
-/

namespace Draft.Raft

inductive Move (late : Prop) (s : Raft) : Raft → Prop
  | quiet {t : Raft} (h : Quiet late s t) : Move late s t
  | follow : Move late s { s with role := .follower }
  | newTerm (term : Nat) (votedFor : Bytes) (h : s.currTerm < term) :
      Move late s { s with role := .follower, currTerm := term, votedFor := votedFor }
  | campaign : Move late s s.becomeCandidate.requestVotes
  | campaignAlone (h : s.cluster.length = 1) : Move late s s.becomeCandidate
  | lead (hrole : s.role = .candidate) (hvotes : s.cluster.length / 2 < s.votes) :
      Move late s s.becomeLeader
  | commit (hrole : s.role = .leader) : Move late s s.adjustCommitIndex
  | append (hrole : s.role = .leader) (data : Bytes) : Move late s (s.append data)
  | applyNext : Move late s s.applyNext
  | compact : Move late s s.compact

def Turn (late : Prop) : Raft → Raft → Prop := Relation.ReflTransGen (Move late)

variable {late : Prop} {s t u : Raft}

theorem Turn.refl (s : Raft) : Turn late s s := Relation.ReflTransGen.refl

theorem Turn.trans (h : Turn late s t) (k : Turn late t u) : Turn late s u :=
  Relation.ReflTransGen.trans h k

theorem Move.turn (h : Move late s t) : Turn late s t := .single h

theorem Quiet.turn (h : Quiet late s t) : Turn late s t := .single (.quiet h)

/-! ## Moves of the log -/

/-- Only the log, the commit and apply indices and the answers to requests change. -/
structure Inward (s t : Raft) : Prop where
  election : t.toElection = s.toElection
  recfg : s.recfg = none → t.recfg = none
  cluster : t.cluster = s.cluster
  sent : t.sent = s.sent

theorem Inward.refl (s : Raft) : Inward s s := ⟨rfl, fun h => h, rfl, rfl⟩

theorem Inward.trans (h : Inward s t) (k : Inward t u) : Inward s u :=
  ⟨k.election.trans h.election, fun hs => k.recfg (h.recfg hs), k.cluster.trans h.cluster,
    k.sent.trans h.sent⟩

private theorem inward_commitTo (s : Raft) (index : Nat) : Inward s (s.commitTo index) :=
  ⟨rfl, fun h => h, rfl, rfl⟩

private theorem inward_commitAlone (s : Raft) (oldCommit : Nat) : Inward s (s.commitAlone oldCommit) := by
  unfold commitAlone
  split
  · split
    · exact inward_commitTo s _
    · exact ⟨rfl, fun h => h, rfl, rfl⟩
  · exact .refl s

private theorem inward_commitReconfiguration (s : Raft) (oldCommit : Nat) :
    Inward s (s.commitReconfiguration oldCommit) := by
  unfold commitReconfiguration
  dsimp only
  split
  · exact ⟨rfl, fun _ => rfl, rfl, rfl⟩
  · exact .refl s

theorem inward_adjustCommitIndex (s : Raft) : Inward s s.adjustCommitIndex := by
  unfold adjustCommitIndex
  split
  · exact ⟨rfl, fun h => h, rfl, rfl⟩
  · refine Inward.trans (Inward.trans ?_ (inward_commitAlone _ _))
      (inward_commitReconfiguration _ _)
    split
    · exact inward_commitTo s _
    · exact .refl s

theorem inward_append (s : Raft) (data : Bytes) : Inward s (s.append data) := by
  unfold Raft.append
  split <;> exact ⟨rfl, fun h => h, rfl, rfl⟩

theorem inward_applyNext (s : Raft) : Inward s s.applyNext := by
  unfold Raft.applyNext
  dsimp only
  repeat' split
  all_goals exact ⟨rfl, fun h => h, rfl, rfl⟩

theorem inward_compact (s : Raft) : Inward s s.compact := by
  unfold Raft.compact
  split <;> exact ⟨rfl, fun h => h, rfl, rfl⟩

/-! ## What a turn leaves settled -/

theorem Inward.settled (h : Inward s t) (hs : s.Settled) : t.Settled :=
  ⟨h.recfg hs.recfg, h.cluster ▸ hs.next⟩

theorem Move.settled (h : Move late s t) (hs : s.Settled) : t.Settled := by
  cases h with
  | quiet h => exact h.settled hs
  | follow => exact ⟨hs.recfg, hs.next⟩
  | newTerm => exact ⟨hs.recfg, hs.next⟩
  | campaign => exact ⟨hs.recfg, hs.next⟩
  | campaignAlone => exact ⟨hs.recfg, hs.next⟩
  | lead =>
      refine ⟨hs.recfg, fun p hp => ?_⟩
      obtain ⟨q, -, rfl⟩ := List.mem_map.mp hp
      exact Nat.succ_pos _
  | commit => exact (inward_adjustCommitIndex s).settled hs
  | append _ data => exact (inward_append s data).settled hs
  | applyNext => exact (inward_applyNext s).settled hs
  | compact => exact (inward_compact s).settled hs

theorem Turn.settled (h : Turn late s t) (hs : s.Settled) : t.Settled := by
  induction h with
  | refl => exact hs
  | tail _ hmove ih => exact hmove.settled ih

/-! ## The settings stay -/

theorem Move.settings (h : Move late s t) : t.toSettings = s.toSettings := by
  cases h with
  | quiet h => rw [h.election]
  | follow => rfl
  | newTerm => rfl
  | campaign => rfl
  | campaignAlone => rfl
  | lead => rfl
  | commit => rw [(inward_adjustCommitIndex s).election]
  | append _ data => rw [(inward_append s data).election]
  | applyNext => rw [(inward_applyNext s).election]
  | compact => rw [(inward_compact s).election]

theorem Turn.settings (h : Turn late s t) : t.toSettings = s.toSettings := by
  induction h with
  | refl => rfl
  | tail _ hmove ih => exact hmove.settings.trans ih

/-! ## Turns of the leader -/

theorem turn_appendEntries (hs : s.Settled) : Turn late s s.appendEntries := by
  have timer : Quiet late s { s with heartbeatTimer := true } :=
    .books rfl rfl (fun h => h) rfl rfl
  unfold appendEntries
  refine timer.turn.trans ?_
  dsimp only
  split
  · exact .refl _
  · rename_i hrole
    have hlead : s.role = .leader := Decidable.not_not.mp hrole
    have calls : Quiet late { s with heartbeatTimer := true }
        (Raft.invokeAll { s with heartbeatTimer := true } (s.others.filter (!·.transferDataTo))
          fun n => .appendEntries (s.appendEntriesReq n)) := by
      refine .invokeAll fun n hn => .appendEntries n.id n ?_ (.inl hlead)
      have hmem := List.mem_of_mem_filter (List.mem_of_mem_filter hn)
      obtain ⟨p, hp, rfl⟩ := List.mem_map.mp hmem
      exact hs.next p hp
    refine calls.turn.trans ?_
    split
    · refine Move.turn (.commit ?_)
      exact hlead
    · exact .refl _

theorem turn_stepUp (hs : s.Settled) (hrole : s.role = .candidate)
    (hvotes : s.cluster.length / 2 < s.votes) : Turn late s s.stepUp := by
  have lead : Move late s s.becomeLeader := .lead hrole hvotes
  exact lead.turn.trans (turn_appendEntries (lead.settled hs))

private theorem turn_leaderElection (hs : s.Settled) : Turn late s s.leaderElection := by
  unfold leaderElection
  dsimp only
  split
  · rename_i h
    have alone : Move late s s.becomeCandidate := .campaignAlone h.1
    refine alone.turn.trans (turn_stepUp (alone.settled hs) rfl ?_)
    have := h.1
    have := h.2
    omega
  · exact Move.campaign.turn

theorem turn_preVote (hs : s.Settled) (early : Bool) : Turn late s (s.preVote early) := by
  unfold preVote
  split
  · exact turn_leaderElection hs
  · have follow : Turn late s { s with role := .follower } := Move.follow.turn
    have books : Quiet late { s with role := .follower }
        { s with
          preVotesGranted := if s.contains s.selfId then 1 else 0
          preVotesRefused := 0
          role := .follower } := .books rfl rfl (fun h => h) rfl rfl
    exact follow.trans (books.trans (.invokeAll fun n _ => .preVote n.id _)).turn

private theorem turn_checkout (hs : s.Settled) : Turn late s s.checkout := by
  unfold checkout
  split
  · exact turn_leaderElection hs
  · split
    · exact Quiet.turn (.books rfl rfl (fun h => h) rfl rfl)
    · exact .refl s

theorem turn_onPreVote (hs : s.Settled) (res : Option VoteRes) :
    Turn late s (s.onPreVote res) := by
  have count : ∀ granted refused, Turn late s
      (Raft.checkout { s with preVotesGranted := granted, preVotesRefused := refused }) := by
    intro granted refused
    have books : Quiet late s { s with preVotesGranted := granted, preVotesRefused := refused } :=
      .books rfl rfl (fun h => h) rfl rfl
    exact books.turn.trans (turn_checkout (books.settled hs))
  unfold onPreVote
  split
  · exact .refl s
  · split
    · exact count (s.preVotesGranted + 1) s.preVotesRefused
    · exact count s.preVotesGranted (s.preVotesRefused + 1)

/-! ## Turns into another term -/

theorem turn_stepDown {term : Nat} (h : s.currTerm < term) (curLeader : Bytes) :
    Turn late s (s.stepDown term curLeader) := by
  have books : Quiet late { s with role := .follower, currTerm := term, votedFor := s.votedFor }
      { s with
        heartbeatTimer := false
        role := .follower
        currTerm := term
        electionTimer := true } := .books rfl rfl (fun h => h) rfl rfl
  exact (Move.newTerm term s.votedFor h).turn.trans
    (books.trans (quiet_endLeadershipTransfer _ curLeader)).turn

private theorem turn_acceptTerm {term : Nat} (h : s.currTerm < term) (leaderId : Bytes) :
    Turn late s (s.acceptTerm term leaderId) := by
  have books : Quiet late { s with role := .follower, currTerm := term, votedFor := [] }
      { s with
        votedFor := []
        heartbeatTimer := false
        role := .follower
        currTerm := term
        electionTimer := true } := .books rfl rfl (fun h => h) rfl rfl
  exact (Move.newTerm term [] h).turn.trans
    (books.trans (quiet_endLeadershipTransfer _ leaderId)).turn

theorem turn_heedCandidate (s : Raft) (term : Nat) : Turn late s (s.heedCandidate term) := by
  unfold heedCandidate
  split
  · rename_i h
    exact turn_acceptTerm h []
  · exact .refl s

theorem turn_heedLeader (s : Raft) (term : Nat) (leaderId : Bytes) :
    Turn late s (s.heedLeader term leaderId) := by
  unfold heedLeader
  split
  · rename_i h
    exact turn_acceptTerm h leaderId
  · exact (Move.follow : Move late s _).turn.trans
      (Quiet.turn (.books rfl rfl (fun h => h) rfl rfl))

theorem turn_followSender (s : Raft) (term : Nat) (leaderId : Bytes) :
    Turn late s (s.followSender term leaderId) := by
  have follow : ∀ t : Raft, Turn late t { t with role := .follower, leader := leaderId } :=
    fun t => (Move.follow : Move late t _).turn.trans
      (Quiet.turn (.books rfl rfl (fun h => h) rfl rfl))
  unfold followSender
  split
  · rename_i h
    exact (turn_acceptTerm h leaderId).trans (follow _)
  · exact follow s

end Draft.Raft
