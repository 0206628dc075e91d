import Draft.Raft.Replication

/-!
# Elections, and the callbacks of a server's own calls

A callback gets `none` for a call that failed.
-/

namespace Draft.Raft

variable (s : Raft)

/-! ## Roles -/

/-- The first half of `step_up`, before the heartbeats. -/
def becomeLeader : Raft :=
  { s with
    role := .leader
    leader := s.selfId
    elections := s.elections ++ [s.currTerm]
    cluster := s.cluster.map fun p =>
      (p.1, { p.2 with matchIndex := 0, nextIndex := s.log.lastEntryIndex + 1 })
    electionTimer := false }

def stepUp : Raft := s.becomeLeader.appendEntries

/-- The end of `step_down`: a leadership transfer is over once the leader steps down. -/
def endLeadershipTransfer (curLeader : Bytes) : Raft :=
  match s.serverTransferLeaderTo with
  | none => s
  | some id =>
      let s := s.modifyNode id fun n => { n with transferLeaderTo := false }
      let s :=
        if s.recfg.any (·.type = .serverRemoval) then
          { { s with leader := curLeader }.completeReconfiguration (ascii "OK") with
            leadershipTransferTimer := none }
        else if s.serverTransferReplyTo then
          { s.reply (ascii "OK " ++ id) with leadershipTransferTimer := none }
        else s
      { s with serverTransferReplyTo := false, serverTransferLeaderTo := none }

def stepDown (newTerm : Nat) (curLeader : Bytes) : Raft :=
  { s with
    heartbeatTimer := false
    role := .follower
    currTerm := newTerm
    electionTimer := true }.endLeadershipTransfer curLeader

/-! ## Elections -/

/-- A vote given, to this server itself or to a candidate that asked. -/
def castVote (candidate : Bytes) : Raft :=
  { s with votedFor := candidate, ballots := s.ballots ++ [(s.currTerm, candidate)] }

def requestVotes : Raft :=
  { s.invokeAll s.others fun _ => .requestVote (s.voteReq false) with electionTimer := true }

/-- The first half of `leader_election`. -/
def becomeCandidate : Raft :=
  { s with
    role := .candidate
    leader := ascii "unknown"
    currTerm := s.currTerm + 1
    votes := if s.contains s.selfId then 1 else 0 }.castVote s.selfId

def leaderElection : Raft :=
  let s := s.becomeCandidate
  if s.cluster.length = 1 ∧ s.votes ≠ 0 then s.stepUp else s.requestVotes

def preVote (early : Bool) : Raft :=
  if s.cluster.length = 1 ∧ s.contains s.selfId then s.leaderElection
  else
    { s with
      preVotesGranted := if s.contains s.selfId then 1 else 0
      preVotesRefused := 0
      role := .follower }.invokeAll s.others fun _ => .preVote (s.voteReq early)

def checkout : Raft :=
  if s.cluster.length / 2 < s.preVotesGranted then s.leaderElection
  else if s.preVotesGranted + s.preVotesRefused = s.cluster.length then
    { s with electionTimer := true }
  else s

def onPreVote (res : Option VoteRes) : Raft :=
  if s.role ≠ .follower then s
  else if res.any (·.voteGranted) then
    { s with preVotesGranted := s.preVotesGranted + 1 }.checkout
  else { s with preVotesRefused := s.preVotesRefused + 1 }.checkout

/-- `++votes > cluster.size() / 2`. -/
def countVote : Raft :=
  let s := { s with votes := s.votes + 1 }
  if s.cluster.length / 2 < s.votes then s.stepUp else s

def onRequestVote (res : Option VoteRes) : Raft :=
  match res with
  | none => s
  | some res =>
      if s.role ≠ .candidate then s
      else if res.voteGranted then
        if res.term < s.currTerm then s else s.countVote
      else if s.currTerm < res.term then s.stepDown res.term []
      else s

/-! ## Leadership transfer -/

def timeoutNow (id : Bytes) : Raft := s.invoke id (.timeoutNow (s.voteReq false))

def transferringLeaderTo (id : Bytes) : Bool := (s.findNode id).any (·.transferLeaderTo)

def handleTransferLeaderTo (id : Bytes) : Raft :=
  if (s.findNode id).any (·.matchIndex = s.log.lastEntryIndex) then s.timeoutNow id else s

def onTimeoutNow (id : Bytes) (res : Option VoteRes) : Raft :=
  if res.isNone && s.transferringLeaderTo id then s.timeoutNow id else s

/-! ## Answers to `append_entries` -/

/-- The branch of `on_append_entries` for success, before the two checks on the node. -/
def recordMatch (id : Bytes) (matchIndex : Nat) : Raft :=
  s.modifyNode id fun n => { n with matchIndex := matchIndex, nextIndex := matchIndex + 1 }

def onAppendSuccess (id : Bytes) (matchIndex : Nat) (quick : Bool) : Raft :=
  let s := (s.recordMatch id matchIndex).adjustCommitIndex
  if s.faulted then s
  else
    let s := if s.transferringLeaderTo id then s.handleTransferLeaderTo id else s
    if s.newly id then s.handleCatchUpServerAppendEntries quick else s

/-- The branch for a log inconsistency: the next index is the follower's last plus one. -/
def onAppendInconsistent (id : Bytes) (matchIndex : Nat) : Raft :=
  let s := s.modifyNode id fun n => { n with nextIndex := matchIndex + 1 }
  if (s.log.get (matchIndex + 1)).isNone then s.startDataTransfer id
  else s.appendEntriesTo id

def onAppendEntries (id : Bytes) (res : Option AppendEntriesRes) (quick : Bool) : Raft :=
  match res with
  | none => if s.newly id then s.handleCatchUpServerAppendEntries quick else s
  | some res =>
      if s.role ≠ .leader then s
      else if res.success then s.onAppendSuccess id res.matchIndex quick
      else if s.currTerm < res.term then s.stepDown res.term id
      else s.onAppendInconsistent id res.matchIndex

/-! ## Answers to a data transfer -/

/-- `on_data_transfer` has nothing left to send and goes on to `done_transfer`. -/
def transferFinished (sender : Sender) : Bool :=
  sender.pending = [] && (!sender.isRegularFile sender.path || sender.eof sender.path)

def onDataSuccess (id : Bytes) : Raft :=
  if transferFinished s.sender then
    let sender := if s.sender.isRegularFile s.sender.path then s.sender.close else s.sender
    { s with sender := sender }.doDoneTransfer id
  else s.doDataTransfer id

def onDataTransfer (id : Bytes) (res : Option DataRes) : Raft :=
  match res with
  | none => if s.newly id then s.doDataTransfer id else s
  | some res =>
      let s := { s with sender := s.sender.advance }
      if res.success then s.onDataSuccess id
      else if s.currTerm < res.term then s.stepDown res.term id
      else s

def onDoneTransfer (id : Bytes) (res : Option DataRes) : Raft :=
  match res with
  | none => if s.newly id then s.doDoneTransfer id else s
  | some res =>
      if res.success then
        (s.initTransfer.modifyNode id fun n => { n with transferDataTo := false }).appendEntriesTo id
      else if s.currTerm < res.term then s.stepDown res.term id
      else s

end Draft.Raft
