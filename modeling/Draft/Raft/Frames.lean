import Draft.Raft.Parcels

/-!
# Frames

A server's state has parts that are looked at apart from one another.  For each
function it is said which of them it touches: every other part is the same
afterwards.
-/

namespace Draft

def Request.asked : Request → Option Bytes
  | .requestVote req => some req.candidateId
  | _ => none

def Request.isPreVote : Request → Bool
  | .preVote _ => true
  | _ => false

/-- The parts of a server that functions touch or leave alone. -/
inductive Part where
  | standing | poll | sending | progress | books
  deriving DecidableEq

abbrev Part.Value : Part → Type
  | .standing => Election × List Bytes
  | .poll => Nat × List Bytes
  | .sending => Sender × Nat × List (Bytes × Parcel)
  | .progress => Nat × Nat × Option Nat
  | .books => EntryLogger × Nat × Bool

def Request.part : Request → Option Part
  | .requestVote _ => some .standing
  | .preVote _ => some .poll
  | .dataTransfer _ | .doneTransfer _ => some .sending
  | .timeoutNow _ | .appendEntries _ => none

private theorem Request.asked_eq_none {request : Request} (h : (some .standing == request.part) = false) :
    request.asked = none := by
  cases request with
  | requestVote req => cases h
  | _ => rfl

private theorem Request.isPreVote_eq_false {request : Request} (h : (some .poll == request.part) = false) :
    request.isPreVote = false := by
  cases request with
  | preVote req => cases h
  | _ => rfl

private theorem Request.parcel_eq_none {request : Request} (h : (some .sending == request.part) = false) :
    request.parcel = none := by
  cases request with
  | dataTransfer req => cases h
  | doneTransfer req => cases h
  | _ => rfl

/-- What the callback of a call touches. -/
def Request.finishes : Request → List Part
  | .timeoutNow _ => []
  | .preVote _ => [.standing, .poll, .books]
  | .requestVote _ => [.standing, .books]
  | .appendEntries _ | .dataTransfer _ | .doneTransfer _ => [.standing, .sending, .books]

theorem Request.progress_notMem_finishes (request : Request) :
    .progress ∉ request.finishes := by
  cases request <;> simp [finishes]

/-- What the handler of a request touches. -/
def Request.serves : Request → List Part
  | .timeoutNow _ => [.standing, .poll, .books]
  | .preVote _ => []
  | .requestVote _ => [.standing, .books]
  | .appendEntries _ | .dataTransfer _ => [.standing, .progress, .books]
  | .doneTransfer _ => [.standing, .sending, .books]

theorem Request.poll_notMem_serves {request : Request} (h : ∀ r, request ≠ .timeoutNow r) :
    .poll ∉ request.serves := by
  cases request with
  | timeoutNow req => exact absurd rfl (h req)
  | _ => simp [serves]

namespace Raft

variable {s t : Raft}

/-! ## The parts -/

/-- The part of the state that elections are about, and the votes asked for in this event. -/
def standing (s : Raft) : Election × List Bytes :=
  (s.toElection, s.sent.filterMap (·.request.asked))

def poll (s : Raft) : Nat × List Bytes :=
  (s.preVotesGranted, (s.sent.filter (·.request.isPreVote)).map (·.dst))

def progress (s : Raft) : Nat × Nat × Option Nat := (s.log.lastIndex, s.lastApplied, s.callback)

/-- The entry of the pending reconfiguration is in the log. -/
def busy (s : Raft) : Bool :=
  s.recfg.any fun r => r.entryAdded || r.type = .serverRemoval

def books (s : Raft) : EntryLogger × Nat × Bool := (s.log, s.commitIndex, s.busy)

def part (s : Raft) : (p : Part) → p.Value
  | .standing => s.standing
  | .poll => s.poll
  | .sending => s.sending
  | .progress => s.progress
  | .books => s.books

private theorem standing_eq (helection : t.toElection = s.toElection) (hsent : t.sent = s.sent) :
    t.standing = s.standing := by
  rw [standing, standing, helection, hsent]

theorem election_of_standing (h : t.standing = s.standing) : t.toElection = s.toElection :=
  congrArg Prod.fst h

theorem Inward.standing (h : Inward s t) : t.standing = s.standing :=
  standing_eq h.election h.sent

theorem preVotesGranted_of_poll (h : t.poll = s.poll) : t.preVotesGranted = s.preVotesGranted :=
  congrArg Prod.fst h

theorem log_of_books (h : t.books = s.books) : t.log = s.log := congrArg Prod.fst h

theorem commitIndex_of_books (h : t.books = s.books) : t.commitIndex = s.commitIndex :=
  congrArg (·.2.1) h

theorem busy_of_books (h : t.books = s.books) : t.busy = s.busy := congrArg (·.2.2) h

/-! ## Calls and nodes -/

theorem invokeAll_frame {p : Part} {nodes : List Node} {request : Node → Request}
    (h : ∀ n, (some p == (request n).part) = false) :
    (s.invokeAll nodes request).part p = s.part p := by
  cases p with
  | standing =>
      have hasked := fun n => Request.asked_eq_none (h n)
      simp [part, standing, invokeAll, hasked]
  | poll =>
      have hpolled := fun n => Request.isPreVote_eq_false (h n)
      simp [part, poll, invokeAll, List.filter_map, hpolled, Function.comp_def]
  | sending =>
      have hparcel := fun n => Request.parcel_eq_none (h n)
      simp [part, sending, invokeAll, hparcel]
  | progress | books => rfl

private theorem invoke_frame {p : Part} {dst : Bytes} {request : Request}
    (h : (some p == request.part) = false) : (s.invoke dst request).part p = s.part p := by
  cases p with
  | standing => simp [part, standing, invoke, Request.asked_eq_none h]
  | poll => simp [part, poll, invoke, Request.isPreVote_eq_false h]
  | sending => simp [part, sending, invoke, Request.parcel_eq_none h]
  | progress | books => rfl

variable (p : Part)

@[simp] theorem modifyNode_busy (id : Bytes) (f : Node → Node) :
    (s.modifyNode id f).busy = s.busy := by
  simp only [busy, modifyNode]
  cases s.recfg with
  | none => rfl
  | some r =>
      simp only [Option.map_some, Option.any_some]
      split <;> rfl

@[simp] theorem modifyNode_frame (id : Bytes) (f : Node → Node) :
    (s.modifyNode id f).part p = s.part p := by
  cases p with
  | books =>
      simp only [part, books, modifyNode_busy]
      rfl
  | _ => rfl

@[simp] theorem reply_frame (body : Bytes) : (s.reply body).part p = s.part p := by
  cases p <;> rfl

@[simp] theorem refuse_frame (status : String) : (s.refuse status).part p = s.part p :=
  reply_frame p _

@[simp] theorem completeReconfiguration_frame (h : (p == .books) = false) (status : Bytes) :
    (s.completeReconfiguration status).part p = s.part p := by
  cases p with
  | books => cases h
  | _ => rfl

/-! ## Replication -/

@[simp] theorem adjustCommitIndex_frame (h : (p == .books) = false) :
    s.adjustCommitIndex.part p = s.part p := by
  unfold adjustCommitIndex commitReconfiguration commitAlone
  dsimp only
  repeat' split
  all_goals cases p with
    | books => cases h
    | _ => rfl

@[simp] theorem appendEntriesTo_frame (id : Bytes) : (s.appendEntriesTo id).part p = s.part p := by
  unfold appendEntriesTo
  split
  · rfl
  · exact invoke_frame rfl

@[simp] theorem appendEntries_frame (h : (p == .books) = false) :
    s.appendEntries.part p = s.part p := by
  have timer : { s with heartbeatTimer := true }.part p = s.part p := by cases p <;> rfl
  have heartbeats : ∀ nodes : List Node,
      ({ s with heartbeatTimer := true }.invokeAll nodes fun n =>
        .appendEntries ({ s with heartbeatTimer := true }.appendEntriesReq n)).part p = s.part p :=
    fun nodes => (invokeAll_frame fun _ => rfl).trans timer
  unfold appendEntries
  dsimp only
  split
  · exact timer
  split
  · exact (adjustCommitIndex_frame p h).trans (heartbeats _)
  · exact heartbeats _

@[simp] theorem append_frame (h : (p == .books) = false) (data : Bytes) :
    (s.append data).part p = s.part p := by
  unfold Raft.append
  split
  · rfl
  · cases p with
    | books => cases h
    | _ => rfl

@[simp] theorem appendConfiguration_frame (h : (p == .books) = false) :
    s.appendConfiguration.part p = s.part p := by
  cases p with
  | books => cases h
  | _ => rfl

@[simp] theorem deployReconfiguration_frame (h : (p == .books) = false) (r : Reconfiguration) :
    (s.deployReconfiguration r).part p = s.part p := by
  unfold deployReconfiguration
  dsimp only
  repeat' split
  all_goals cases p with
    | books => cases h
    | _ => rfl

@[simp] theorem handleCatchUpServerAppendEntries_frame (h : (p == .books) = false) (quick : Bool) :
    (s.handleCatchUpServerAppendEntries quick).part p = s.part p := by
  unfold handleCatchUpServerAppendEntries
  split
  · rfl
  split
  · refine (appendEntriesTo_frame p _).trans ?_
    cases p with
    | books => cases h
    | _ => rfl
  split
  · simp [h]
  · simp [h]

/-! ## Sending a snapshot -/

@[simp] theorem initTransfer_frame (h : (p == .sending) = false) :
    s.initTransfer.part p = s.part p := by
  cases p with
  | sending => cases h
  | _ => rfl

private theorem invoke_sender_frame {request : Request} (hpart : request.part = some .sending)
    (h : (p == .sending) = false) (sender : Sender) (id : Bytes) :
    ({ s with sender := sender }.invoke id request).part p = s.part p := by
  refine (invoke_frame (hpart ▸ h)).trans ?_
  cases p with
  | sending => cases h
  | _ => rfl

@[simp] theorem sendChunk_frame (h : (p == .sending) = false) (id : Bytes) :
    (s.sendChunk id).part p = s.part p := by
  unfold sendChunk
  dsimp only
  split
  · exact (invoke_sender_frame p rfl h _ id).trans (modifyNode_frame p id _)
  · exact invoke_sender_frame p rfl h _ id

@[simp] theorem doDataTransfer_frame (h : (p == .sending) = false) (id : Bytes) :
    (s.doDataTransfer id).part p = s.part p := by
  unfold doDataTransfer
  repeat' split
  all_goals simp [h]

@[simp] theorem doDoneTransfer_frame (h : (p == .sending) = false) (id : Bytes) :
    (s.doDoneTransfer id).part p = s.part p :=
  invoke_sender_frame p rfl h _ id

@[simp] theorem startDataTransfer_frame (h : (p == .sending) = false) (id : Bytes) :
    (s.startDataTransfer id).part p = s.part p := by
  simp [startDataTransfer, h]

/-! ## Roles and elections -/

@[simp] theorem endLeadershipTransfer_frame (h : (p == .books) = false) (curLeader : Bytes) :
    (s.endLeadershipTransfer curLeader).part p = s.part p := by
  unfold endLeadershipTransfer
  dsimp only
  repeat' split
  all_goals cases p with
    | books => cases h
    | _ => rfl

@[simp] theorem stepDown_frame (hstanding : (p == .standing) = false)
    (hbooks : (p == .books) = false) (term : Nat) (curLeader : Bytes) :
    (s.stepDown term curLeader).part p = s.part p := by
  refine (endLeadershipTransfer_frame p hbooks curLeader).trans ?_
  cases p with
  | standing => cases hstanding
  | _ => rfl

@[simp] theorem stepUp_frame (hstanding : (p == .standing) = false)
    (hbooks : (p == .books) = false) : s.stepUp.part p = s.part p := by
  refine (appendEntries_frame p hbooks).trans ?_
  cases p with
  | standing => cases hstanding
  | _ => rfl

@[simp] theorem leaderElection_frame (hstanding : (p == .standing) = false)
    (hbooks : (p == .books) = false) : s.leaderElection.part p = s.part p := by
  have candidate : s.becomeCandidate.part p = s.part p := by
    cases p with
    | standing => cases hstanding
    | _ => rfl
  have votes : s.becomeCandidate.requestVotes.part p = s.becomeCandidate.part p := by
    have asked : (s.becomeCandidate.invokeAll s.becomeCandidate.others fun _ =>
        .requestVote (s.becomeCandidate.voteReq false)).part p = s.becomeCandidate.part p := by
      exact invokeAll_frame fun _ => hstanding
    refine Eq.trans ?_ asked
    cases p <;> rfl
  unfold leaderElection
  dsimp only
  split
  · exact (stepUp_frame p hstanding hbooks).trans candidate
  · exact votes.trans candidate

theorem preVote_frame (hstanding : (p == .standing) = false) (hpoll : (p == .poll) = false)
    (hbooks : (p == .books) = false) (early : Bool) : (s.preVote early).part p = s.part p := by
  unfold preVote
  split
  · exact leaderElection_frame p hstanding hbooks
  · refine (invokeAll_frame ?_).trans ?_
    · exact fun _ => hpoll
    · cases p with
      | standing => cases hstanding
      | poll => cases hpoll
      | _ => rfl

@[simp] theorem checkout_frame (hstanding : (p == .standing) = false)
    (hbooks : (p == .books) = false) : s.checkout.part p = s.part p := by
  unfold checkout
  split
  · exact leaderElection_frame p hstanding hbooks
  split
  · cases p <;> rfl
  · rfl

theorem onPreVote_frame (hstanding : (p == .standing) = false) (hpoll : (p == .poll) = false)
    (hbooks : (p == .books) = false) (res : Option VoteRes) :
    (s.onPreVote res).part p = s.part p := by
  have counted : ∀ granted refused : Nat,
      { s with preVotesGranted := granted, preVotesRefused := refused }.part p = s.part p := by
    intro granted refused
    cases p with
    | poll => cases hpoll
    | _ => rfl
  unfold onPreVote
  split
  · rfl
  split
  · exact (checkout_frame p hstanding hbooks).trans (counted _ _)
  · exact (checkout_frame p hstanding hbooks).trans (counted _ _)

theorem onRequestVote_frame (hstanding : (p == .standing) = false) (hbooks : (p == .books) = false)
    (res : Option VoteRes) : (s.onRequestVote res).part p = s.part p := by
  have counted : { s with votes := s.votes + 1 }.part p = s.part p := by
    cases p with
    | standing => cases hstanding
    | _ => rfl
  unfold onRequestVote countVote
  split
  · rfl
  split
  · rfl
  split
  · split
    · rfl
    dsimp only
    split
    · exact (stepUp_frame p hstanding hbooks).trans counted
    · exact counted
  split
  · exact stepDown_frame p hstanding hbooks _ _
  · rfl

/-! ## Callbacks -/

@[simp] theorem timeoutNow_frame (id : Bytes) : (s.timeoutNow id).part p = s.part p :=
  invoke_frame rfl

@[simp] theorem handleTransferLeaderTo_frame (id : Bytes) :
    (s.handleTransferLeaderTo id).part p = s.part p := by
  unfold handleTransferLeaderTo
  split <;> simp

@[simp] theorem onTimeoutNow_frame (id : Bytes) (res : Option VoteRes) :
    (s.onTimeoutNow id res).part p = s.part p := by
  unfold onTimeoutNow
  split <;> simp

@[simp] theorem recordMatch_frame (id : Bytes) (matchIndex : Nat) :
    (s.recordMatch id matchIndex).part p = s.part p :=
  modifyNode_frame p id _

theorem onAppendSuccess_frame (h : (p == .books) = false) (id : Bytes) (matchIndex : Nat)
    (quick : Bool) : (s.onAppendSuccess id matchIndex quick).part p = s.part p := by
  unfold onAppendSuccess
  dsimp only
  repeat' split
  all_goals simp [h]

theorem onAppendInconsistent_frame (h : (p == .sending) = false) (id : Bytes) (matchIndex : Nat) :
    (s.onAppendInconsistent id matchIndex).part p = s.part p := by
  unfold onAppendInconsistent
  dsimp only
  split <;> simp [h]

private theorem onAppendEntries_frame (hstanding : (p == .standing) = false)
    (hsending : (p == .sending) = false) (hbooks : (p == .books) = false) (id : Bytes)
    (res : Option AppendEntriesRes) (quick : Bool) :
    (s.onAppendEntries id res quick).part p = s.part p := by
  unfold onAppendEntries
  repeat' split
  · exact handleCatchUpServerAppendEntries_frame p hbooks quick
  · rfl
  · rfl
  · exact onAppendSuccess_frame p hbooks id _ quick
  · exact stepDown_frame p hstanding hbooks _ id
  · exact onAppendInconsistent_frame p hsending id _

theorem onDataSuccess_frame (h : (p == .sending) = false) (id : Bytes) :
    (s.onDataSuccess id).part p = s.part p := by
  unfold onDataSuccess
  dsimp only
  split
  · refine (doDoneTransfer_frame p h id).trans ?_
    cases p with
    | sending => cases h
    | _ => rfl
  · exact doDataTransfer_frame p h id

private theorem onDataTransfer_frame (hstanding : (p == .standing) = false)
    (hsending : (p == .sending) = false) (hbooks : (p == .books) = false) (id : Bytes)
    (res : Option DataRes) : (s.onDataTransfer id res).part p = s.part p := by
  have moved : { s with sender := s.sender.advance }.part p = s.part p := by
    cases p with
    | sending => cases hsending
    | _ => rfl
  unfold onDataTransfer
  dsimp only
  repeat' split
  · exact doDataTransfer_frame p hsending id
  · rfl
  · exact (onDataSuccess_frame p hsending id).trans moved
  · exact (stepDown_frame p hstanding hbooks _ id).trans moved
  · exact moved

private theorem onDoneTransfer_frame (hstanding : (p == .standing) = false)
    (hsending : (p == .sending) = false) (hbooks : (p == .books) = false) (id : Bytes)
    (res : Option DataRes) : (s.onDoneTransfer id res).part p = s.part p := by
  unfold onDoneTransfer
  repeat' split
  · exact doDoneTransfer_frame p hsending id
  · rfl
  · simp [hsending]
  · exact stepDown_frame p hstanding hbooks _ id
  · rfl

/-- A callback touches no other part than its request says. -/
theorem finish_frame (id : Bytes) (quick : Bool) {req : Request} (h : p ∉ req.finishes)
    (res : Option Response) : (s.finish id quick req res).part p = s.part p := by
  cases req with
  | timeoutNow req =>
      rcases res with _ | ⟨res | _ | _⟩
      · exact onTimeoutNow_frame p id none
      · exact onTimeoutNow_frame p id (some res)
      · rfl
      · rfl
  | preVote req =>
      obtain ⟨hstanding, hpoll, hbooks⟩ :
          (p == .standing) = false ∧ (p == .poll) = false ∧ (p == .books) = false := by
        simpa [Request.finishes] using h
      rcases res with _ | ⟨res | _ | _⟩
      · exact onPreVote_frame p hstanding hpoll hbooks none
      · exact onPreVote_frame p hstanding hpoll hbooks (some res)
      · rfl
      · rfl
  | requestVote req =>
      obtain ⟨hstanding, hbooks⟩ : (p == .standing) = false ∧ (p == .books) = false := by
        simpa [Request.finishes] using h
      rcases res with _ | ⟨res | _ | _⟩
      · exact onRequestVote_frame p hstanding hbooks none
      · exact onRequestVote_frame p hstanding hbooks (some res)
      · rfl
      · rfl
  | appendEntries req =>
      obtain ⟨hstanding, hsending, hbooks⟩ :
          (p == .standing) = false ∧ (p == .sending) = false ∧ (p == .books) = false := by
        simpa [Request.finishes] using h
      rcases res with _ | ⟨_ | res | _⟩
      · exact onAppendEntries_frame p hstanding hsending hbooks id none quick
      · rfl
      · exact onAppendEntries_frame p hstanding hsending hbooks id (some res) quick
      · rfl
  | dataTransfer req =>
      obtain ⟨hstanding, hsending, hbooks⟩ :
          (p == .standing) = false ∧ (p == .sending) = false ∧ (p == .books) = false := by
        simpa [Request.finishes] using h
      rcases res with _ | ⟨_ | _ | res⟩
      · exact onDataTransfer_frame p hstanding hsending hbooks id none
      · rfl
      · rfl
      · exact onDataTransfer_frame p hstanding hsending hbooks id (some res)
  | doneTransfer req =>
      obtain ⟨hstanding, hsending, hbooks⟩ :
          (p == .standing) = false ∧ (p == .sending) = false ∧ (p == .books) = false := by
        simpa [Request.finishes] using h
      rcases res with _ | ⟨_ | _ | res⟩
      · exact onDoneTransfer_frame p hstanding hsending hbooks id none
      · rfl
      · rfl
      · exact onDoneTransfer_frame p hstanding hsending hbooks id (some res)

/-! ## Configuration requests and timers -/

@[simp] theorem makeConfig_frame (h : (p == .books) = false) (n : Node)
    (type : ReconfigurationType) : (s.makeConfig n type).part p = s.part p := by
  cases p with
  | books => cases h
  | _ => rfl

theorem addServer_frame (h : (p == .sending) = false) (name : Bytes) :
    (s.addServer name).part p = s.part p := by
  unfold addServer
  dsimp only
  split
  · exact refuse_frame p _
  split
  · exact refuse_frame p _
  split
  · exact refuse_frame p _
  split
  · exact refuse_frame p _
  · rename_i hnone
    have config : ∀ n : Node, (s.makeConfig n .serverAddition).part p = s.part p := by
      intro n
      cases p with
      | books =>
          simp only [part, books, busy, Option.not_isSome_iff_eq_none.mp hnone]
          rfl
      | _ => rfl
    split
    · refine (doDataTransfer_frame p h _).trans ?_
      exact (initTransfer_frame p h).trans (config _)
    · exact (appendEntriesTo_frame p _).trans (config _)

theorem leadershipTransfer_frame (name : Bytes) :
    (s.leadershipTransfer name).1.part p = s.part p := by
  have begun : ∀ n : Node, { s.modifyNode n.id fun n => { n with transferLeaderTo := true } with
      serverTransferLeaderTo := some n.id
      serverTransferReplyTo := true }.part p = s.part p := by
    intro n
    refine Eq.trans ?_ (modifyNode_frame p n.id fun n => { n with transferLeaderTo := true })
    cases p <;> rfl
  have timed : ∀ (u : Raft) (timer : Option Bytes),
      { u with leadershipTransferTimer := timer }.part p = u.part p := by
    intro u timer
    cases p <;> rfl
  unfold leadershipTransfer
  dsimp only
  repeat' split
  all_goals first
    | exact refuse_frame p _
    | exact (timeoutNow_frame p _).trans (begun _)
    | exact (timed _ _).trans ((appendEntriesTo_frame p _).trans (begun _))

theorem delServer_frame (h : (p == .books) = false) (name : Bytes) :
    (s.delServer name).part p = s.part p := by
  have removed : ∀ cluster : List (Bytes × Node),
      { s with cluster := cluster }.appendConfiguration.part p = s.part p := by
    intro cluster
    refine (appendConfiguration_frame p h).trans ?_
    cases p <;> rfl
  unfold delServer
  dsimp only
  repeat' split
  all_goals first
    | exact refuse_frame p _
    | exact (makeConfig_frame p h _ _).trans ((leadershipTransfer_frame p _).trans (removed _))
    | exact (refuse_frame p _).trans ((leadershipTransfer_frame p _).trans (removed _))
    | exact (appendEntries_frame p h).trans ((makeConfig_frame p h _ _).trans (removed _))

theorem onLeadershipTransferTimeout_frame (h : (p == .books) = false) (id : Bytes) :
    (s.onLeadershipTransferTimeout id).part p = s.part p := by
  unfold onLeadershipTransferTimeout
  dsimp only
  repeat' split
  all_goals cases p with
    | books => cases h
    | _ => rfl

theorem popCommitted_frame : s.popCommitted.part p = s.part p := by
  unfold Raft.popCommitted
  split
  · rfl
  · cases p <;> rfl

theorem applyNext_frame (h : (p == .progress) = false) : s.applyNext.part p = s.part p := by
  unfold Raft.applyNext
  dsimp only
  repeat' split
  all_goals cases p with
    | progress => cases h
    | _ => rfl

theorem compact_frame (hprogress : (p == .progress) = false) (hbooks : (p == .books) = false) :
    s.compact.part p = s.part p := by
  unfold Raft.compact
  split
  · rfl
  · cases p with
    | progress => cases hprogress
    | books => cases hbooks
    | _ => rfl

/-! ## The service -/

@[simp] theorem acceptTerm_frame (hstanding : (p == .standing) = false)
    (hbooks : (p == .books) = false) (term : Nat) (leaderId : Bytes) :
    (s.acceptTerm term leaderId).part p = s.part p := by
  refine (stepDown_frame p hstanding hbooks term leaderId).trans ?_
  cases p with
  | standing => cases hstanding
  | _ => rfl

theorem handleTimeoutNow_frame (hstanding : (p == .standing) = false) (hpoll : (p == .poll) = false)
    (hbooks : (p == .books) = false) : s.handleTimeoutNow.1.part p = s.part p := by
  refine (preVote_frame p hstanding hpoll hbooks true).trans ?_
  cases p <;> rfl

private theorem heedCandidate_frame (hstanding : (p == .standing) = false)
    (hbooks : (p == .books) = false) (term : Nat) : (s.heedCandidate term).part p = s.part p := by
  unfold heedCandidate
  split
  · exact acceptTerm_frame p hstanding hbooks term []
  · rfl

theorem handleRequestVote_frame (hstanding : (p == .standing) = false)
    (hbooks : (p == .books) = false) (req : VoteReq) :
    (s.handleRequestVote req).1.part p = s.part p := by
  have heeded := heedCandidate_frame (s := s) p hstanding hbooks req.term
  unfold handleRequestVote
  dsimp only
  repeat' split
  · exact heeded
  · exact heeded
  · exact heeded
  · refine Eq.trans ?_ heeded
    cases p with
    | standing => cases hstanding
    | _ => rfl

theorem adjustConfiguration_frame (config : Bytes) :
    (s.adjustConfiguration config).part p = s.part p := by
  unfold adjustConfiguration
  split
  · rfl
  · cases p <;> rfl

private theorem followEntries_frame (hprogress : (p == .progress) = false)
    (hbooks : (p == .books) = false) (log : EntryLogger) (req : AppendEntriesReq) :
    (s.followEntries log req).part p = s.part p := by
  have learned : { { s with log := log }.learnCommit req.leaderCommit with
      leader := req.leaderId }.part p = s.part p := by
    unfold learnCommit
    split
    all_goals cases p with
      | progress => cases hprogress
      | books => cases hbooks
      | _ => rfl
  unfold followEntries
  dsimp only
  split
  · exact (adjustConfiguration_frame p _).trans learned
  · exact learned

theorem acceptEntries_frame (hprogress : (p == .progress) = false) (hbooks : (p == .books) = false)
    (req : AppendEntriesReq) : (s.acceptEntries req).1.part p = s.part p := by
  unfold acceptEntries
  split
  · rfl
  split
  · rfl
  · exact followEntries_frame p hprogress hbooks _ req

theorem heedLeader_frame (hstanding : (p == .standing) = false) (hbooks : (p == .books) = false)
    (term : Nat) (leaderId : Bytes) : (s.heedLeader term leaderId).part p = s.part p := by
  unfold heedLeader
  split
  · exact acceptTerm_frame p hstanding hbooks term leaderId
  · cases p with
    | standing => cases hstanding
    | _ => rfl

theorem handleAppendEntries_frame (hstanding : (p == .standing) = false)
    (hprogress : (p == .progress) = false) (hbooks : (p == .books) = false)
    (req : AppendEntriesReq) : (s.handleAppendEntries req).1.part p = s.part p := by
  unfold handleAppendEntries
  split
  · rfl
  · exact (acceptEntries_frame p hprogress hbooks req).trans
      (heedLeader_frame p hstanding hbooks _ _)

theorem beginTransfer_frame (hprogress : (p == .progress) = false)
    (hbooks : (p == .books) = false) (req : DataReq) : (s.beginTransfer req).part p = s.part p := by
  have base : ∀ (u : Raft) (log : EntryLogger) (commit applied : Nat),
      { u with log := log, commitIndex := commit, lastApplied := applied }.part p = u.part p := by
    intro u log commit applied
    cases p with
    | progress => cases hprogress
    | books => cases hbooks
    | _ => rfl
  have timer : { s with electionTimer := false }.part p = s.part p := by cases p <;> rfl
  unfold beginTransfer installBase
  dsimp only
  split
  · refine (base _ _ _ _).trans ((adjustConfiguration_frame p _).trans ?_)
    exact (base _ _ _ _).trans timer
  · exact timer

theorem followSender_frame (hstanding : (p == .standing) = false) (hbooks : (p == .books) = false)
    (term : Nat) (leaderId : Bytes) : (s.followSender term leaderId).part p = s.part p := by
  have follower : ∀ u : Raft,
      { u with role := .follower, leader := leaderId }.part p = u.part p := by
    intro u
    cases p with
    | standing => cases hstanding
    | _ => rfl
  unfold followSender
  refine (follower _).trans ?_
  split
  · exact acceptTerm_frame p hstanding hbooks term leaderId
  · rfl

theorem handleDataTransfer_frame (hstanding : (p == .standing) = false)
    (hprogress : (p == .progress) = false) (hbooks : (p == .books) = false) (req : DataReq) :
    (s.handleDataTransfer req).1.part p = s.part p := by
  have followed := followSender_frame (s := s) p hstanding hbooks req.term req.leaderId
  unfold handleDataTransfer
  dsimp only
  repeat' split
  · rfl
  · exact (beginTransfer_frame p hprogress hbooks req).trans followed
  · exact followed

private theorem handleDoneTransfer_frame (hstanding : (p == .standing) = false)
    (hsending : (p == .sending) = false) (hbooks : (p == .books) = false) (req : DoneReq) :
    (s.handleDoneTransfer req).1.part p = s.part p := by
  have followed := followSender_frame (s := s) p hstanding hbooks req.term req.leaderId
  unfold handleDoneTransfer
  dsimp only
  repeat' split
  · rfl
  · exact followed
  all_goals
    refine Eq.trans ?_ followed
    cases p with
    | sending => cases hsending
    | _ => rfl

/-- A handler touches no other part than its request says. -/
theorem serve_frame (recent : Bool) {req : Request} (h : p ∉ req.serves) :
    (s.serve recent req).1.part p = s.part p := by
  cases req with
  | timeoutNow req =>
      obtain ⟨hstanding, hpoll, hbooks⟩ :
          (p == .standing) = false ∧ (p == .poll) = false ∧ (p == .books) = false := by
        simpa [Request.serves] using h
      exact handleTimeoutNow_frame p hstanding hpoll hbooks
  | preVote req => rfl
  | requestVote req =>
      obtain ⟨hstanding, hbooks⟩ : (p == .standing) = false ∧ (p == .books) = false := by
        simpa [Request.serves] using h
      exact handleRequestVote_frame p hstanding hbooks req
  | appendEntries req =>
      obtain ⟨hstanding, hprogress, hbooks⟩ :
          (p == .standing) = false ∧ (p == .progress) = false ∧ (p == .books) = false := by
        simpa [Request.serves] using h
      exact handleAppendEntries_frame p hstanding hprogress hbooks req
  | dataTransfer req =>
      obtain ⟨hstanding, hprogress, hbooks⟩ :
          (p == .standing) = false ∧ (p == .progress) = false ∧ (p == .books) = false := by
        simpa [Request.serves] using h
      exact handleDataTransfer_frame p hstanding hprogress hbooks req
  | doneTransfer req =>
      obtain ⟨hstanding, hsending, hbooks⟩ :
          (p == .standing) = false ∧ (p == .sending) = false ∧ (p == .books) = false := by
        simpa [Request.serves] using h
      exact handleDoneTransfer_frame p hstanding hsending hbooks req

end Raft

end Draft
