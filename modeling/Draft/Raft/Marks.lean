import Draft.Foundation.ConsecutiveLog
import Draft.Raft.Creation

/-!
# Marks

The mark of an entry is its term with its index.  The end of a log has the mark
of its last entry or of its base, and a request carries the marks of the entries
and of the base that are sent with it.
-/

namespace Draft

def EntryLogger.marks (log : EntryLogger) : List (Nat × Nat) :=
  (log.lastTerm, log.lastIndex) :: log.entries.map fun e => (e.term, e.index)

def EntryLogger.lastMark (log : EntryLogger) : Nat × Nat :=
  (log.lastEntryTerm, log.lastEntryIndex)

theorem EntryLogger.lastMark_mem (log : EntryLogger) : log.lastMark ∈ log.marks := by
  unfold lastMark lastEntryTerm lastEntryIndex marks
  by_cases hnone : log.entries = []
  · rw [if_pos hnone, if_pos hnone]
    exact List.mem_cons_self
  · rw [if_neg hnone, if_neg hnone]
    have hlast : log.lastEntry = log.entries.getLast hnone := by
      unfold lastEntry
      rw [List.getLast?_eq_some_getLast hnone]
      rfl
    refine List.mem_cons_of_mem _ (List.mem_map.mpr ⟨log.lastEntry, ?_, rfl⟩)
    rw [hlast]
    exact List.getLast_mem hnone

theorem EntryLogger.mark_mem {log : EntryLogger} {e : LogEntry} (he : e ∈ log.entries) :
    (e.term, e.index) ∈ log.marks :=
  List.mem_cons_of_mem _ (List.mem_map.mpr ⟨e, he, rfl⟩)

theorem EntryLogger.marks_append (log : EntryLogger) (batch : List LogEntry) :
    (log.append batch).marks = log.marks ++ batch.map fun e => (e.term, e.index) := by
  simp [marks, append]

def Request.marks : Request → List (Nat × Nat)
  | .appendEntries req => req.entries.map fun e => (e.term, e.index)
  | .dataTransfer req => [(req.lastTerm, req.lastIndex)]
  | _ => []

namespace Raft

variable {s t u : Raft}

structure Tells (s t : Raft) : Prop where
  log : t.log = s.log
  sent : ∀ o ∈ t.sent, o ∈ s.sent ∨ ∀ m ∈ o.request.marks, m = (0, 0) ∨ m ∈ s.log.marks

namespace Tells

theorem refl (s : Raft) : Tells s s := ⟨rfl, fun _ ho => .inl ho⟩

theorem trans (h : Tells s t) (k : Tells t u) : Tells s u := by
  refine ⟨k.log.trans h.log, fun o ho => ?_⟩
  rcases k.sent o ho with hold | hnew
  · exact h.sent o hold
  · rw [h.log] at hnew
    exact .inr hnew

theorem after (k : Tells t u) (h : Tells s t) : Tells s u := h.trans k

theorem of_eq (hlog : t.log = s.log) (hsent : t.sent = s.sent) : Tells s t :=
  ⟨hlog, fun _ ho => .inl (hsent ▸ ho)⟩

theorem invoke {id : Bytes} {req : Request}
    (h : ∀ m ∈ req.marks, m = (0, 0) ∨ m ∈ s.log.marks) : Tells s (s.invoke id req) := by
  refine ⟨rfl, fun o ho => ?_⟩
  rcases List.mem_append.mp ho with hold | hnew
  · exact .inl hold
  · rw [List.mem_singleton.mp hnew]
    exact .inr h

theorem invokeAll {nodes : List Node} {req : Node → Request}
    (h : ∀ n, ∀ m ∈ (req n).marks, m = (0, 0) ∨ m ∈ s.log.marks) :
    Tells s (s.invokeAll nodes req) := by
  refine ⟨rfl, fun o ho => ?_⟩
  rcases List.mem_append.mp ho with hold | hnew
  · exact .inl hold
  · obtain ⟨n, -, rfl⟩ := List.mem_map.mp hnew
    exact .inr (h n)

end Tells

/-! ## Requests -/

private theorem entriesFrom_marks (log : EntryLogger) (count index : Nat) :
    ∀ e ∈ entriesFrom log count index,
      (e.term, e.index) = (0, 0) ∨ (e.term, e.index) ∈ log.marks := by
  induction count generalizing index with
  | zero =>
      intro e he
      cases he
  | succ count ih =>
      unfold entriesFrom
      split
      · intro e he
        cases he
      · rename_i x hx
        intro e he
        rcases List.mem_cons.mp he with rfl | he
        · unfold EntryLogger.get at hx
          split at hx
          · cases hx
          split at hx
          · rw [← Option.some.inj hx]
            exact .inl rfl
          · have hmem := List.mem_of_getElem? hx
            rcases List.mem_cons.mp hmem with rfl | hmem
            · exact .inl rfl
            · exact .inr (log.mark_mem hmem)
        · exact ih (index + 1) e he

private theorem appendEntriesReq_marks (s : Raft) (n : Node) :
    ∀ m ∈ (Request.appendEntries (s.appendEntriesReq n)).marks, m = (0, 0) ∨ m ∈ s.log.marks := by
  intro m hm
  obtain ⟨e, he, rfl⟩ := List.mem_map.mp hm
  exact entriesFrom_marks s.log _ _ e he

private theorem dataReq_marks (s : Raft) (number : Nat) (name data : Bytes) :
    ∀ m ∈ (Request.dataTransfer (s.dataReq number name data)).marks,
      m = (0, 0) ∨ m ∈ s.log.marks := by
  intro m hm
  rw [List.mem_singleton.mp hm]
  unfold dataReq
  cases s.logCompactionEnabled with
  | false => exact .inl rfl
  | true => exact .inr List.mem_cons_self

/-! ## Replication -/

private theorem tells_adjustCommitIndex : Tells s s.adjustCommitIndex := by
  refine .of_eq (adjustCommitIndex_log s) ?_
  unfold adjustCommitIndex commitReconfiguration commitAlone
  dsimp only
  repeat' split
  all_goals rfl

private theorem tells_appendEntriesTo (id : Bytes) : Tells s (s.appendEntriesTo id) := by
  unfold appendEntriesTo
  split
  · exact .refl s
  · exact .invoke (appendEntriesReq_marks s _)

theorem tells_appendEntries : Tells s s.appendEntries := by
  have heartbeats : ∀ nodes : List Node, Tells s
      ({ s with heartbeatTimer := true }.invokeAll nodes fun n =>
        .appendEntries ({ s with heartbeatTimer := true }.appendEntriesReq n)) := by
    intro nodes
    have timer : Tells s { s with heartbeatTimer := true } := .of_eq rfl rfl
    exact timer.trans (.invokeAll (appendEntriesReq_marks { s with heartbeatTimer := true }))
  unfold appendEntries
  dsimp only
  split
  · exact .of_eq rfl rfl
  split
  · exact (heartbeats _).trans tells_adjustCommitIndex
  · exact heartbeats _

/-! ## Sending a snapshot -/

private theorem tells_sendChunk (id : Bytes) : Tells s (s.sendChunk id) := by
  have chunk : ∀ (t : Raft) (number : Nat) (name data : Bytes), Tells s t →
      Tells s (t.invoke id (.dataTransfer (s.dataReq number name data))) := by
    intro t number name data h
    have marks := dataReq_marks s number name data
    rw [← h.log] at marks
    exact h.trans (.invoke marks)
  unfold sendChunk
  dsimp only
  split
  · exact chunk _ _ _ _ (.of_eq rfl rfl)
  · exact chunk _ _ _ _ (.of_eq rfl rfl)

private theorem tells_doDataTransfer (id : Bytes) : Tells s (s.doDataTransfer id) := by
  unfold doDataTransfer
  split
  · exact .refl s
  split
  · exact tells_appendEntriesTo id
  · exact tells_sendChunk id

private theorem tells_doDoneTransfer (id : Bytes) : Tells s (s.doDoneTransfer id) := by
  have sends : Tells { s with
      sender := { s.sender with doneTransferId := s.sender.doneTransferId + 1 } }
      (s.doDoneTransfer id) := .invoke (fun m hm => by cases hm)
  exact sends.after (.of_eq rfl rfl)

private theorem tells_startDataTransfer (id : Bytes) : Tells s (s.startDataTransfer id) :=
  (tells_doDataTransfer id).after (.of_eq rfl rfl)

/-! ## Roles -/

private theorem tells_stepUp : Tells s s.stepUp := tells_appendEntries.after (.of_eq rfl rfl)

private theorem tells_stepDown (term : Nat) (curLeader : Bytes) : Tells s (s.stepDown term curLeader) := by
  unfold stepDown endLeadershipTransfer
  dsimp only
  repeat' split
  all_goals exact .of_eq rfl rfl

private theorem tells_leaderElection : Tells s s.leaderElection := by
  have candidate : Tells s s.becomeCandidate := .of_eq rfl rfl
  unfold leaderElection
  dsimp only
  split
  · exact candidate.trans tells_stepUp
  · have votes : Tells s.becomeCandidate (s.becomeCandidate.invokeAll s.becomeCandidate.others
        fun _ => .requestVote (s.becomeCandidate.voteReq false)) :=
      .invokeAll fun _ m hm => by cases hm
    exact (candidate.trans votes).trans (.of_eq rfl rfl)

theorem tells_preVote (early : Bool) : Tells s (s.preVote early) := by
  unfold preVote
  split
  · exact tells_leaderElection
  · have polls : ∀ (t : Raft) (nodes : List Node),
        Tells t (t.invokeAll nodes fun _ => .preVote (s.voteReq early)) :=
      fun t nodes => .invokeAll fun _ m hm => by cases hm
    exact (polls _ _).after (.of_eq rfl rfl)

private theorem tells_checkout : Tells s s.checkout := by
  unfold checkout
  split
  · exact tells_leaderElection
  split
  · exact .of_eq rfl rfl
  · exact .refl s

/-! ## Callbacks -/

private theorem tells_onPreVote (res : Option VoteRes) : Tells s (s.onPreVote res) := by
  unfold onPreVote
  split
  · exact .refl s
  split
  · exact tells_checkout.after (.of_eq rfl rfl)
  · exact tells_checkout.after (.of_eq rfl rfl)

private theorem tells_onRequestVote (res : Option VoteRes) : Tells s (s.onRequestVote res) := by
  unfold onRequestVote countVote
  split
  · exact .refl s
  split
  · exact .refl s
  split
  · split
    · exact .refl s
    dsimp only
    split
    · exact tells_stepUp.after (.of_eq rfl rfl)
    · exact .of_eq rfl rfl
  split
  · exact tells_stepDown _ _
  · exact .refl s

private theorem tells_timeoutNow (id : Bytes) : Tells s (s.timeoutNow id) :=
  .invoke fun m hm => by cases hm

private theorem tells_handleTransferLeaderTo (id : Bytes) : Tells s (s.handleTransferLeaderTo id) := by
  unfold handleTransferLeaderTo
  split
  · exact tells_timeoutNow id
  · exact .refl s

private theorem tells_onTimeoutNow (id : Bytes) (res : Option VoteRes) :
    Tells s (s.onTimeoutNow id res) := by
  unfold onTimeoutNow
  split
  · exact tells_timeoutNow id
  · exact .refl s

private theorem tells_onAppendSuccess (hrecfg : s.recfg = none) (id : Bytes) (matchIndex : Nat)
    (quick : Bool) : Tells s (s.onAppendSuccess id matchIndex quick) := by
  have matched : (s.recordMatch id matchIndex).recfg = none := by
    simp [recordMatch, modifyNode, hrecfg]
  have adjusted : (s.recordMatch id matchIndex).adjustCommitIndex.recfg = none := by
    rcases adjustCommitIndex_recfg (s.recordMatch id matchIndex) with h | ⟨h, -⟩
    · rw [h, matched]
    · exact h
  have tells : Tells s (s.recordMatch id matchIndex).adjustCommitIndex :=
    tells_adjustCommitIndex.after (.of_eq rfl rfl)
  -- nobody is being added, so the catch-up does not go on
  have next : ∀ t : Raft, t.recfg = none → Tells s t →
      Tells s (if t.newly id then t.handleCatchUpServerAppendEntries quick else t) := by
    intro t ht htells
    rw [if_neg (by simp [newly, ht])]
    exact htells
  unfold onAppendSuccess
  dsimp only
  split
  · exact tells
  split
  · refine next _ ?_ (tells.trans (tells_handleTransferLeaderTo id))
    unfold handleTransferLeaderTo
    split <;> exact adjusted
  · exact next _ adjusted tells

private theorem tells_onAppendInconsistent (id : Bytes) (matchIndex : Nat) :
    Tells s (s.onAppendInconsistent id matchIndex) := by
  unfold onAppendInconsistent
  dsimp only
  split
  · exact (tells_startDataTransfer id).after (.of_eq rfl rfl)
  · exact (tells_appendEntriesTo id).after (.of_eq rfl rfl)

private theorem tells_onAppendEntries (hrecfg : s.recfg = none) (id : Bytes)
    (res : Option AppendEntriesRes) (quick : Bool) : Tells s (s.onAppendEntries id res quick) := by
  unfold onAppendEntries
  cases res with
  | none =>
      dsimp only
      rw [if_neg (by simp [newly, hrecfg])]
      exact .refl s
  | some res =>
      dsimp only
      split
      · exact .refl s
      split
      · exact tells_onAppendSuccess hrecfg id res.matchIndex quick
      split
      · exact tells_stepDown _ _
      · exact tells_onAppendInconsistent id res.matchIndex

private theorem tells_onDataTransfer (id : Bytes) (res : Option DataRes) :
    Tells s (s.onDataTransfer id res) := by
  have moved : Tells s { s with sender := s.sender.advance } := .of_eq rfl rfl
  unfold onDataTransfer onDataSuccess
  split
  · split
    · exact tells_doDataTransfer id
    · exact .refl s
  dsimp only
  split
  · split
    · exact (tells_doDoneTransfer id).after (.of_eq rfl rfl)
    · exact moved.trans (tells_doDataTransfer id)
  split
  · exact moved.trans (tells_stepDown _ _)
  · exact moved

private theorem tells_onDoneTransfer (id : Bytes) (res : Option DataRes) :
    Tells s (s.onDoneTransfer id res) := by
  unfold onDoneTransfer
  split
  · split
    · exact tells_doDoneTransfer id
    · exact .refl s
  split
  · exact (tells_appendEntriesTo id).after (.of_eq rfl rfl)
  split
  · exact tells_stepDown _ _
  · exact .refl s

theorem tells_finish (hrecfg : s.recfg = none) (id : Bytes) (quick : Bool) (req : Request)
    (res : Option Response) : Tells s (s.finish id quick req res) := by
  cases req with
  | timeoutNow req =>
      rcases res with _ | ⟨res | _ | _⟩
      · exact tells_onTimeoutNow id none
      · exact tells_onTimeoutNow id (some res)
      · exact .refl s
      · exact .refl s
  | preVote req =>
      rcases res with _ | ⟨res | _ | _⟩
      · exact tells_onPreVote none
      · exact tells_onPreVote (some res)
      · exact .refl s
      · exact .refl s
  | requestVote req =>
      rcases res with _ | ⟨res | _ | _⟩
      · exact tells_onRequestVote none
      · exact tells_onRequestVote (some res)
      · exact .refl s
      · exact .refl s
  | appendEntries req =>
      rcases res with _ | ⟨_ | res | _⟩
      · exact tells_onAppendEntries hrecfg id none quick
      · exact .refl s
      · exact tells_onAppendEntries hrecfg id (some res) quick
      · exact .refl s
  | dataTransfer req =>
      rcases res with _ | ⟨_ | _ | res⟩
      · exact tells_onDataTransfer id none
      · exact .refl s
      · exact .refl s
      · exact tells_onDataTransfer id (some res)
  | doneTransfer req =>
      rcases res with _ | ⟨_ | _ | res⟩
      · exact tells_onDoneTransfer id none
      · exact .refl s
      · exact .refl s
      · exact tells_onDoneTransfer id (some res)

theorem tells_leadershipTransfer (name : Bytes) : Tells s (s.leadershipTransfer name).1 := by
  have node : ∀ n : Node, Tells s
      { s.modifyNode n.id fun n => { n with transferLeaderTo := true } with
        serverTransferLeaderTo := some n.id, serverTransferReplyTo := true } :=
    fun _ => .of_eq rfl rfl
  unfold leadershipTransfer
  dsimp only
  repeat' split
  all_goals first
    | exact .of_eq rfl rfl
    | exact (node _).trans (tells_timeoutNow _)
    | exact ((node _).trans (tells_appendEntriesTo _)).trans (.of_eq rfl rfl)

theorem tells_onLeadershipTransferTimeout (id : Bytes) :
    Tells s (s.onLeadershipTransferTimeout id) := by
  unfold onLeadershipTransferTimeout
  dsimp only
  repeat' split
  all_goals exact .of_eq rfl rfl

theorem tells_popCommitted : Tells s s.popCommitted := by
  unfold Raft.popCommitted
  split <;> exact .of_eq rfl rfl

theorem tells_applyNext : Tells s s.applyNext := by
  unfold Raft.applyNext
  dsimp only
  repeat' split
  all_goals exact .of_eq rfl rfl

/-! ## What a request leaves -/

private theorem mergeEntries_marks {log log' : EntryLogger} {entries : List Entry}
    (h : mergeEntries log entries = some log') :
    ∀ m ∈ log'.marks, m ∈ log.marks ∨ m ∈ entries.map fun e => (e.term, e.index) := by
  have appended : ∀ (base : EntryLogger) (batch : List Entry),
      (∀ m ∈ base.marks, m ∈ log.marks) → ∀ m ∈ (base.append (makeEntries base batch)).marks,
        m ∈ log.marks ∨ m ∈ batch.map fun e => (e.term, e.index) := by
    intro base batch hbase m hm
    rw [EntryLogger.marks_append] at hm
    rcases List.mem_append.mp hm with hm | hm
    · exact .inl (hbase m hm)
    · rw [makeEntries, List.map_map] at hm
      exact .inr hm
  induction entries with
  | nil =>
      rw [← Option.some.inj h]
      exact fun m hm => .inl hm
  | cons e rest ih =>
      unfold mergeEntries at h
      split at h
      · rw [Option.map_eq_some_iff] at h
        obtain ⟨kept, hkept, rfl⟩ := h
        refine appended kept (e :: rest) fun m hm => ?_
        unfold EntryLogger.chop at hkept
        split at hkept
        · cases hkept
        · rw [← Option.some.inj hkept] at hm
          rcases List.mem_cons.mp hm with rfl | hm
          · exact List.mem_cons_self
          · obtain ⟨x, hx, rfl⟩ := List.mem_map.mp hm
            exact log.mark_mem (List.mem_of_mem_take hx)
      split at h
      · intro m hm
        exact (ih h m hm).imp_right fun hm => List.mem_cons_of_mem _ hm
      · rw [← Option.some.inj h]
        exact appended log (e :: rest) fun m hm => hm

private theorem installBase_marks (s : Raft) (req : DataReq) :
    ∀ m ∈ (s.installBase req).log.marks,
      m ∈ s.log.marks ∨ m ∈ (Request.dataTransfer req).marks := by
  have kept : ∀ x ∈ ((s.log.chop (s.log.lastIndex + 1)).getD s.log).entries, x ∈ s.log.entries := by
    unfold EntryLogger.chop
    split
    · exact fun _ hx => hx
    · exact fun _ hx => List.mem_of_mem_take hx
  have hlog : (s.installBase req).log =
      ((s.log.chop (s.log.lastIndex + 1)).getD s.log).copyStates req.lastConfig req.lastIndex
        req.lastTerm := by
    rw [show (s.installBase req).log = (s.installBase req).toReplica.log from rfl,
      installBase_replica]
  intro m hm
  rw [hlog] at hm
  rcases List.mem_cons.mp hm with rfl | hm
  · exact .inr List.mem_cons_self
  · obtain ⟨x, hx, rfl⟩ := List.mem_map.mp hm
    exact .inl (s.log.mark_mem (kept x hx))

structure Hears (s : Raft) (req : Request) (t : Raft) : Prop where
  log : ∀ m ∈ t.log.marks, m ∈ s.log.marks ∨ m ∈ req.marks
  sent : ∀ o ∈ t.sent, o ∈ s.sent ∨ ∀ m ∈ o.request.marks, m = (0, 0) ∨ m ∈ s.log.marks

theorem Tells.hears (h : Tells s t) (req : Request) : Hears s req t where
  log := fun _ hm => .inl (h.log ▸ hm)
  sent := h.sent

private theorem tells_acceptTerm (term : Nat) (leaderId : Bytes) : Tells s (s.acceptTerm term leaderId) :=
  (tells_stepDown term leaderId).after (.of_eq rfl rfl)

private theorem tells_heedCandidate (term : Nat) : Tells s (s.heedCandidate term) := by
  unfold heedCandidate
  split
  · exact tells_acceptTerm term []
  · exact .refl s

private theorem tells_heedLeader (term : Nat) (leaderId : Bytes) :
    Tells s (s.heedLeader term leaderId) := by
  unfold heedLeader
  split
  · exact tells_acceptTerm term leaderId
  · exact .of_eq rfl rfl

private theorem tells_followSender (term : Nat) (leaderId : Bytes) :
    Tells s (s.followSender term leaderId) := by
  unfold followSender
  split
  · exact (tells_acceptTerm term leaderId).trans (.of_eq rfl rfl)
  · exact .of_eq rfl rfl

theorem hears_serve (s : Raft) (recent : Bool) (req : Request) :
    Hears s req (s.serve recent req).1 := by
  cases req with
  | timeoutNow req =>
      have begins : Tells s ({ s with electionTimer := false }.preVote true) :=
        (tells_preVote true).after (.of_eq rfl rfl)
      exact begins.hears _
  | preVote req => exact (Tells.refl s).hears _
  | requestVote req =>
      have heed := tells_heedCandidate (s := s) req.term
      refine Tells.hears ?_ _
      change Tells s (s.handleRequestVote req).1
      unfold handleRequestVote
      dsimp only
      repeat' split
      all_goals first
        | exact heed
        | exact heed.trans (.of_eq rfl rfl)
  | appendEntries req =>
      have heed := tells_heedLeader (s := s) req.term req.leaderId
      change Hears s _ (s.handleAppendEntries req).1
      unfold handleAppendEntries acceptEntries
      split
      · exact (Tells.refl s).hears _
      split
      · exact heed.hears _
      split
      · exact heed.hears _
      · rename_i log hmerge
        constructor
        · intro m hm
          rw [show (Raft.followEntries _ log req).log = log by
            rw [followEntries_replica]] at hm
          rw [heed.log] at hmerge
          exact mergeEntries_marks hmerge m hm
        · intro o ho
          rw [followEntries_sent] at ho
          exact heed.sent o ho
  | dataTransfer req =>
      have follow := tells_followSender (s := s) req.term req.leaderId
      change Hears s _ (s.handleDataTransfer req).1
      unfold handleDataTransfer beginTransfer
      dsimp only
      split
      · exact (Tells.refl s).hears _
      split
      · split
        · constructor
          · intro m hm
            have := installBase_marks _ req m hm
            rwa [show ({ s.followSender req.term req.leaderId with
              electionTimer := false } : Raft).log = s.log from follow.log] at this
          · intro o ho
            rw [installBase_sent] at ho
            exact follow.sent o ho
        · have timer : Tells s { s.followSender req.term req.leaderId with
              electionTimer := false } := follow.trans (.of_eq rfl rfl)
          exact timer.hears _
      · exact follow.hears _
  | doneTransfer req =>
      have follow := tells_followSender (s := s) req.term req.leaderId
      refine Tells.hears ?_ _
      change Tells s (s.handleDoneTransfer req).1
      unfold handleDoneTransfer
      dsimp only
      repeat' split
      all_goals first
        | exact .refl s
        | exact follow
        | exact follow.trans (.of_eq rfl rfl)

/-! ## The segment in a request -/

private theorem entriesFrom_held {log : EntryLogger} (h : log.Consecutive) (count k : Nat) :
    entriesFrom log count (log.lastIndex + k + 1) =
      ((log.entries.drop k).take count).map (·.toEntry) := by
  induction count generalizing k with
  | zero => simp [entriesFrom]
  | succ count ih =>
      have hget : log.get (log.lastIndex + k + 1) = log.entries[k]? := by
        rw [h.get_eq, if_neg (by omega), if_pos (by omega)]
        congr 1
        omega
      rw [entriesFrom, hget]
      cases hk : log.entries[k]? with
      | none =>
          have hlen := List.getElem?_eq_none_iff.mp hk
          simp [List.drop_eq_nil_of_le hlen]
      | some e =>
          obtain ⟨hlt, rfl⟩ := List.getElem?_eq_some_iff.mp hk
          simp only [List.drop_eq_getElem_cons hlt, List.take_succ_cons, List.map_cons]
          congr 1
          exact ih (k + 1)

private theorem entriesFrom_compacted {log : EntryLogger} (h : log.Consecutive) {count i : Nat}
    (hpos : 0 < i) (hi : i ≤ log.lastIndex) : entriesFrom log count i = [] := by
  cases count with
  | zero => rfl
  | succ count =>
      have hget : log.get i = none := by
        rw [h.get_eq, if_neg (by omega), if_neg (by omega)]
      rw [entriesFrom, hget]

private theorem appendEntriesReq_prev (h : s.log.Consecutive) (n : Node) :
    (∃ x ∈ s.log.infos, x.index = n.nextIndex - 1 ∧
        x.index = (s.appendEntriesReq n).prevLogIndex ∧
        x.term = (s.appendEntriesReq n).prevLogTerm) ∨
      (n.nextIndex - 1 ≤ s.log.lastIndex ∨ s.log.lastEntryIndex < n.nextIndex - 1) ∧
        n.nextIndex - 1 ≠ 0 ∧
        (s.appendEntriesReq n).prevLogIndex = s.log.lastIndex ∧
        (s.appendEntriesReq n).prevLogTerm = s.log.lastTerm := by
  have hget := h.get_eq (n.nextIndex - 1)
  rw [h.lastEntryIndex_eq]
  unfold appendEntriesReq
  cases hprev : s.log.get (n.nextIndex - 1) with
  | none =>
      rw [hprev] at hget
      split at hget
      · cases hget
      · refine .inr ⟨?_, ‹_›, rfl, rfl⟩
        by_contra hin
        rw [if_pos (by omega), eq_comm, List.getElem?_eq_none_iff] at hget
        omega
  | some x =>
      obtain ⟨hx, hindex⟩ := h.mem_infos_of_get hprev
      exact .inl ⟨x, hx, hindex, rfl, rfl⟩

/--
A request names the sentry, an entry that is held or the base, and it carries
either nothing or all that the log holds from the next index on.
-/
theorem appendEntriesReq_held (s : Raft) (h : s.log.Consecutive) (n : Node)
    (hn : 0 < n.nextIndex) :
    ((∃ x ∈ s.log.infos, x.index = (s.appendEntriesReq n).prevLogIndex ∧
        x.term = (s.appendEntriesReq n).prevLogTerm) ∨
      (s.appendEntriesReq n).prevLogIndex = s.log.lastIndex ∧
        (s.appendEntriesReq n).prevLogTerm = s.log.lastTerm) ∧
    (n.nextIndex ≤ s.log.lastIndex ∧ (s.appendEntriesReq n).entries = [] ∨
      s.log.lastIndex < n.nextIndex ∧ (s.appendEntriesReq n).entries =
        (s.log.entries.filter fun e =>
          n.nextIndex ≤ e.index ∧ e.index ≤ s.log.lastEntryIndex).map (·.toEntry)) ∧
    ((s.appendEntriesReq n).entries ≠ [] →
      (s.appendEntriesReq n).prevLogIndex = n.nextIndex - 1) := by
  have hprev := appendEntriesReq_prev h n
  refine ⟨?_, ?_, ?_⟩
  · rcases hprev with ⟨x, hx, -, hindex, hterm⟩ | ⟨-, -, hindex, hterm⟩
    · exact .inl ⟨x, hx, hindex, hterm⟩
    · exact .inr ⟨hindex, hterm⟩
  · rcases Nat.lt_or_ge s.log.lastIndex n.nextIndex with hnext | hnext
    · refine .inr ⟨hnext, ?_⟩
      obtain ⟨k, hk⟩ : ∃ k, n.nextIndex = s.log.lastIndex + k + 1 :=
        ⟨n.nextIndex - s.log.lastIndex - 1, by omega⟩
      unfold appendEntriesReq
      rw [hk, h.filter_from, entriesFrom_held h, List.take_of_length_le]
      rw [List.length_drop, h.lastEntryIndex_eq]
      omega
    · exact .inl ⟨hnext, entriesFrom_compacted h hn hnext⟩
  · intro hne
    -- Entries are sent above the base only, so what is before them is held or the base.
    have hbase : s.log.lastIndex < n.nextIndex := by
      by_contra hlow
      exact hne (entriesFrom_compacted h hn (by omega))
    have hlast : n.nextIndex ≤ s.log.lastEntryIndex := by
      by_contra hhigh
      apply hne
      unfold appendEntriesReq
      rw [show s.log.lastEntryIndex + 1 - n.nextIndex = 0 by omega, entriesFrom]
    rcases hprev with ⟨x, -, hx, hindex, -⟩ | ⟨hout, hpos, hindex, -⟩
    · rw [← hindex, hx]
    · rw [hindex]
      omega

def compactedLeader : Raft :=
  let entry (i : Nat) : LogEntry :=
    { term := 2, index := i, data := ascii "d x", config := false, prevCfg := 0 }
  { (World.cluster ["s0:1", "s1:1"] true).servers (ascii "s0:1") with
    log := { lastIndex := 2, lastTerm := 1, lastConfig := ascii "s0:1,s1:1",
             entries := [entry 3, entry 4], cfgEntryIndex := 0 } }

theorem appendEntriesReq_held_compacted :
    let n : Node := { compactedLeader.makeNode (ascii "s1:1") defaultRpcPort with nextIndex := 3 }
    (compactedLeader.appendEntriesReq n).entries = compactedLeader.log.entries.map (·.toEntry) ∧
      (compactedLeader.appendEntriesReq n).prevLogIndex = 2 := by
  have h := appendEntriesReq_held compactedLeader (by decide)
    { compactedLeader.makeNode (ascii "s1:1") defaultRpcPort with nextIndex := 3 } (by decide)
  rcases h.2.1 with hnone | ⟨-, hall⟩
  · exact absurd hnone.1 (by decide)
  · exact ⟨hall, h.2.2 (by rw [hall]; decide)⟩

end Raft

end Draft
