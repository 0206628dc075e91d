import Draft.Raft.Frames

/-!
# What becomes of a reconfiguration

The reconfiguration in memory goes on as it is or is given up, and the members
stay the same, in all functions but the few that begin one, count an answer of
its server, or take the server in.
-/

namespace Draft

structure Plan where
  type : ReconfigurationType
  id : Bytes
  matchIndex : Nat
  entryAdded : Bool
  deriving DecidableEq, Repr

def Reconfiguration.plan (r : Reconfiguration) : Plan :=
  { type := r.type, id := r.n.id, matchIndex := r.n.matchIndex, entryAdded := r.entryAdded }

namespace Raft

variable {s t u : Raft}

def plan (s : Raft) : Option Plan := s.recfg.map Reconfiguration.plan

def keys (s : Raft) : List Bytes := s.cluster.map (·.1)

structure Carries (s t : Raft) : Prop where
  plan : t.plan = s.plan ∨ t.plan = none
  keys : t.keys = s.keys

namespace Carries

theorem refl (s : Raft) : Carries s s := ⟨.inl rfl, rfl⟩

theorem trans (h : Carries s t) (k : Carries t u) : Carries s u := by
  refine ⟨?_, k.keys.trans h.keys⟩
  rcases k.plan with hsame | hnone
  · rw [hsame]
    exact h.plan
  · exact .inr hnone

theorem after (k : Carries t u) (h : Carries s t) : Carries s u := h.trans k

theorem before (h : Carries s t) {p : Plan} (hp : t.plan = some p) : s.plan = some p := by
  rcases h.plan with hsame | hnone
  · exact hsame ▸ hp
  · rw [hnone] at hp
    cases hp

theorem of_eq (hrecfg : t.recfg = s.recfg) (hcluster : t.cluster = s.cluster) : Carries s t :=
  ⟨.inl (by rw [Raft.plan, hrecfg, Raft.plan]), by rw [Raft.keys, hcluster, Raft.keys]⟩

end Carries

/-! ## Replication -/

theorem keys_modifyNode (s : Raft) (id : Bytes) (f : Node → Node) :
    (s.modifyNode id f).keys = s.keys := by
  simp only [keys, modifyNode, List.map_map]
  refine List.map_congr_left fun p _ => ?_
  simp only [Function.comp_apply]
  split <;> rfl

private theorem carries_modifyNode (id : Bytes) {f : Node → Node}
    (hf : ∀ n, (f n).id = n.id ∧ (f n).matchIndex = n.matchIndex) :
    Carries s (s.modifyNode id f) := by
  refine ⟨.inl ?_, keys_modifyNode s id f⟩
  simp only [plan, modifyNode, Option.map_map]
  congr 1
  funext r
  simp only [Function.comp_apply]
  split
  · simp only [Reconfiguration.plan, hf]
  · rfl

private theorem carries_completeReconfiguration (status : Bytes) :
    Carries s (s.completeReconfiguration status) := ⟨.inr rfl, rfl⟩

private theorem carries_commitReconfiguration (oldCommit : Nat) :
    Carries s (s.commitReconfiguration oldCommit) := by
  unfold commitReconfiguration
  dsimp only
  split
  · exact carries_completeReconfiguration _
  · exact .refl s

private theorem carries_commitAlone (oldCommit : Nat) : Carries s (s.commitAlone oldCommit) := by
  unfold commitAlone
  repeat' split
  all_goals exact .of_eq rfl rfl

theorem carries_adjustCommitIndex : Carries s s.adjustCommitIndex := by
  unfold adjustCommitIndex
  split
  · exact .of_eq rfl rfl
  · dsimp only
    refine Carries.trans ?_ (carries_commitReconfiguration _)
    refine Carries.trans ?_ (carries_commitAlone _)
    split <;> exact .of_eq rfl rfl

theorem carries_appendEntriesTo (id : Bytes) : Carries s (s.appendEntriesTo id) := by
  unfold appendEntriesTo
  split <;> exact .of_eq rfl rfl

theorem carries_appendEntries : Carries s s.appendEntries := by
  unfold appendEntries
  dsimp only
  split
  · exact .of_eq rfl rfl
  split
  · refine Carries.trans ?_ carries_adjustCommitIndex
    exact .of_eq rfl rfl
  · exact .of_eq rfl rfl

/-! ## Sending a snapshot -/

private theorem carries_sendChunk (id : Bytes) : Carries s (s.sendChunk id) := by
  unfold sendChunk
  dsimp only
  split
  · refine (carries_modifyNode id (f := fun n => { n with
      transferDataTo := true, nextIndex := s.log.lastEntryIndex + 1 }) fun n => ⟨rfl, rfl⟩).trans ?_
    exact .of_eq rfl rfl
  · exact .of_eq rfl rfl

theorem carries_doDataTransfer (id : Bytes) : Carries s (s.doDataTransfer id) := by
  unfold doDataTransfer
  split
  · exact .refl s
  split
  · exact carries_appendEntriesTo id
  · exact carries_sendChunk id

private theorem carries_doDoneTransfer (id : Bytes) : Carries s (s.doDoneTransfer id) := .of_eq rfl rfl

private theorem carries_initTransfer : Carries s s.initTransfer := .of_eq rfl rfl

private theorem carries_startDataTransfer (id : Bytes) : Carries s (s.startDataTransfer id) := by
  have node : Carries s.initTransfer
      (s.initTransfer.modifyNode id fun n => { n with transferDataTo := true }) :=
    carries_modifyNode id fun _ => ⟨rfl, rfl⟩
  exact (carries_initTransfer.trans node).trans (carries_doDataTransfer id)

/-! ## Roles -/

private theorem carries_stepUp : Carries s s.stepUp := by
  have lead : Carries s s.becomeLeader := by
    refine ⟨.inl rfl, ?_⟩
    simp only [keys, becomeLeader, List.map_map]
    rfl
  exact lead.trans carries_appendEntries

private theorem carries_endLeadershipTransfer (curLeader : Bytes) :
    Carries s (s.endLeadershipTransfer curLeader) := by
  unfold endLeadershipTransfer
  split
  · exact .refl s
  · rename_i id _
    have node : Carries s (s.modifyNode id fun n => { n with transferLeaderTo := false }) :=
      carries_modifyNode id fun _ => ⟨rfl, rfl⟩
    dsimp only
    split
    · exact node.trans ⟨.inr rfl, rfl⟩
    split
    · exact node.trans (.of_eq rfl rfl)
    · exact node.trans (.of_eq rfl rfl)

theorem carries_stepDown (term : Nat) (curLeader : Bytes) :
    Carries s (s.stepDown term curLeader) := by
  refine Carries.trans ?_ (carries_endLeadershipTransfer curLeader)
  exact .of_eq rfl rfl

private theorem carries_leaderElection : Carries s s.leaderElection := by
  have candidate : Carries s s.becomeCandidate := .of_eq rfl rfl
  unfold leaderElection
  dsimp only
  split
  · exact candidate.trans carries_stepUp
  · exact candidate.trans (.of_eq rfl rfl)

theorem carries_preVote (early : Bool) : Carries s (s.preVote early) := by
  unfold preVote
  split
  · exact carries_leaderElection
  · exact .of_eq rfl rfl

private theorem carries_checkout : Carries s s.checkout := by
  unfold checkout
  split
  · exact carries_leaderElection
  split
  · exact .of_eq rfl rfl
  · exact .refl s

/-! ## Callbacks -/

theorem carries_onPreVote (res : Option VoteRes) : Carries s (s.onPreVote res) := by
  unfold onPreVote
  split
  · exact .refl s
  split
  · exact carries_checkout.after (.of_eq rfl rfl)
  · exact carries_checkout.after (.of_eq rfl rfl)

theorem carries_onRequestVote (res : Option VoteRes) : Carries s (s.onRequestVote res) := by
  unfold onRequestVote countVote
  split
  · exact .refl s
  split
  · exact .refl s
  split
  · split
    · exact .refl s
    dsimp only
    split
    · exact carries_stepUp.after (.of_eq rfl rfl)
    · exact .of_eq rfl rfl
  split
  · exact carries_stepDown _ _
  · exact .refl s

private theorem carries_timeoutNow (id : Bytes) : Carries s (s.timeoutNow id) := .of_eq rfl rfl

theorem carries_handleTransferLeaderTo (id : Bytes) :
    Carries s (s.handleTransferLeaderTo id) := by
  unfold handleTransferLeaderTo
  split
  · exact carries_timeoutNow id
  · exact .refl s

theorem carries_onTimeoutNow (id : Bytes) (res : Option VoteRes) :
    Carries s (s.onTimeoutNow id res) := by
  unfold onTimeoutNow
  split
  · exact carries_timeoutNow id
  · exact .refl s

theorem carries_onAppendInconsistent (id : Bytes) (matchIndex : Nat) :
    Carries s (s.onAppendInconsistent id matchIndex) := by
  have node : Carries s (s.modifyNode id fun n => { n with nextIndex := matchIndex + 1 }) :=
    carries_modifyNode id fun _ => ⟨rfl, rfl⟩
  unfold onAppendInconsistent
  dsimp only
  split
  · exact node.trans (carries_startDataTransfer id)
  · exact node.trans (carries_appendEntriesTo id)

theorem carries_onDataTransfer (id : Bytes) (res : Option DataRes) :
    Carries s (s.onDataTransfer id res) := by
  have moved : Carries s { s with sender := s.sender.advance } := .of_eq rfl rfl
  unfold onDataTransfer onDataSuccess
  split
  · split
    · exact carries_doDataTransfer id
    · exact .refl s
  dsimp only
  split
  · split
    · exact moved.trans (.of_eq rfl rfl)
    · exact moved.trans (carries_doDataTransfer id)
  split
  · exact moved.trans (carries_stepDown _ _)
  · exact moved

theorem carries_onDoneTransfer (id : Bytes) (res : Option DataRes) :
    Carries s (s.onDoneTransfer id res) := by
  have node : Carries s.initTransfer
      (s.initTransfer.modifyNode id fun n => { n with transferDataTo := false }) :=
    carries_modifyNode id fun _ => ⟨rfl, rfl⟩
  unfold onDoneTransfer
  split
  · split
    · exact carries_doDoneTransfer id
    · exact .refl s
  split
  · exact (carries_initTransfer.trans node).trans (carries_appendEntriesTo id)
  split
  · exact carries_stepDown _ _
  · exact .refl s

/-! ## Timers and the apply loop -/

theorem carries_append (data : Bytes) : Carries s (s.append data) := by
  unfold Raft.append
  split <;> exact .of_eq rfl rfl

theorem carries_leadershipTransfer (name : Bytes) :
    Carries s (s.leadershipTransfer name).1 := by
  have node : ∀ n : Node, Carries s
      { s.modifyNode n.id fun n => { n with transferLeaderTo := true } with
        serverTransferLeaderTo := some n.id, serverTransferReplyTo := true } := by
    intro n
    have flag : Carries s (s.modifyNode n.id fun n => { n with transferLeaderTo := true }) :=
      carries_modifyNode n.id fun _ => ⟨rfl, rfl⟩
    exact flag.trans (.of_eq rfl rfl)
  unfold leadershipTransfer
  dsimp only
  repeat' split
  all_goals first
    | exact .of_eq rfl rfl
    | exact (node _).trans (carries_timeoutNow _)
    | exact ((node _).trans (carries_appendEntriesTo _)).trans (.of_eq rfl rfl)

theorem carries_onLeadershipTransferTimeout (id : Bytes) :
    Carries s (s.onLeadershipTransferTimeout id) := by
  have node : Carries s (s.modifyNode id fun n => { n with transferLeaderTo := false }) :=
    carries_modifyNode id fun _ => ⟨rfl, rfl⟩
  unfold onLeadershipTransferTimeout
  dsimp only
  split
  · exact node.trans ⟨.inr rfl, rfl⟩
  split
  · exact node.trans (.of_eq rfl rfl)
  · exact node.trans (.of_eq rfl rfl)

theorem carries_popCommitted : Carries s s.popCommitted := by
  unfold Raft.popCommitted
  split <;> exact .of_eq rfl rfl

theorem carries_applyNext : Carries s s.applyNext := by
  unfold Raft.applyNext
  dsimp only
  repeat' split
  all_goals exact .of_eq rfl rfl

theorem carries_compact : Carries s s.compact := by
  unfold Raft.compact
  split <;> exact .of_eq rfl rfl

/-! ## The service -/

private theorem carries_acceptTerm (term : Nat) (leaderId : Bytes) :
    Carries s (s.acceptTerm term leaderId) :=
  (carries_stepDown term leaderId).after (.of_eq rfl rfl)

private theorem carries_heedCandidate (term : Nat) : Carries s (s.heedCandidate term) := by
  unfold heedCandidate
  split
  · exact carries_acceptTerm term []
  · exact .refl s

private theorem carries_heedLeader (term : Nat) (leaderId : Bytes) :
    Carries s (s.heedLeader term leaderId) := by
  unfold heedLeader
  split
  · exact carries_acceptTerm term leaderId
  · exact .of_eq rfl rfl

private theorem carries_followSender (term : Nat) (leaderId : Bytes) :
    Carries s (s.followSender term leaderId) := by
  unfold followSender
  split
  · exact (carries_acceptTerm term leaderId).trans (.of_eq rfl rfl)
  · exact .of_eq rfl rfl

private theorem plan_congr (h : t.recfg = s.recfg) : t.plan = s.plan := by rw [plan, h, plan]

theorem serve_plan (recent : Bool) (req : Request) :
    (s.serve recent req).1.plan = s.plan ∨ (s.serve recent req).1.plan = none := by
  cases req with
  | timeoutNow req =>
      exact ((carries_preVote true).after (s := s) (t := { s with electionTimer := false })
        (.of_eq rfl rfl)).plan
  | preVote req => exact .inl rfl
  | requestVote req =>
      have heed := (carries_heedCandidate (s := s) req.term).plan
      change (s.handleRequestVote req).1.plan = _ ∨ (s.handleRequestVote req).1.plan = _
      unfold handleRequestVote
      dsimp only
      repeat' split
      all_goals exact heed
  | appendEntries req =>
      have heed := (carries_heedLeader (s := s) req.term req.leaderId).plan
      change (s.handleAppendEntries req).1.plan = _ ∨ (s.handleAppendEntries req).1.plan = _
      unfold handleAppendEntries acceptEntries
      split
      · exact .inl rfl
      split
      · exact heed
      split
      · exact heed
      · rw [plan_congr (followEntries_recfg _ _ req)]
        exact heed
  | dataTransfer req =>
      have follow := (carries_followSender (s := s) req.term req.leaderId).plan
      change (s.handleDataTransfer req).1.plan = _ ∨ (s.handleDataTransfer req).1.plan = _
      unfold handleDataTransfer beginTransfer
      dsimp only
      split
      · exact .inl rfl
      split
      · split
        · have hinstall : ∀ u : Raft, (u.installBase req).recfg = u.recfg := fun u =>
            adjustConfiguration_recfg _ _
          rw [plan_congr (hinstall _)]
          exact follow
        · exact follow
      · exact follow
  | doneTransfer req =>
      have follow := (carries_followSender (s := s) req.term req.leaderId).plan
      change (s.handleDoneTransfer req).1.plan = _ ∨ (s.handleDoneTransfer req).1.plan = _
      unfold handleDoneTransfer
      dsimp only
      split
      · exact .inl rfl
      split
      · exact follow
      · exact follow

end Raft

end Draft
