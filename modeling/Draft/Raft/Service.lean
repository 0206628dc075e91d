import Draft.Raft.Elections

/-!
# The service

The handlers of `rpc_service_impl`.  A handler returns the state it leaves and
its response.  Writing a received chunk to disk is not part of this state.
-/

namespace Draft.Raft

variable (s : Raft)

/-- The `voted_for()[0] = 0` and `step_down` of a request with a newer term. -/
def acceptTerm (term : Nat) (leaderId : Bytes) : Raft :=
  { s with votedFor := [] }.stepDown term leaderId

/-! ## Votes -/

def handleTimeoutNow : Raft × VoteRes :=
  let s := { s with electionTimer := false }.preVote true
  (s, ⟨s.currTerm, false⟩)

/-- The log check of `pre_vote` and `request_vote`. -/
def logAhead (req : VoteReq) : Bool :=
  req.lastLogTerm < s.log.lastEntryTerm || req.lastLogIndex < s.log.lastEntryIndex

/-- `recent` says that the last heartbeat is less than the election timeout ago. -/
def handlePreVote (recent : Bool) (req : VoteReq) : VoteRes :=
  if s.logAhead req then ⟨s.currTerm, false⟩
  else if recent && !req.early then ⟨s.currTerm, false⟩
  else ⟨req.term, true⟩

/-- The term check of `request_vote`. -/
def heedCandidate (term : Nat) : Raft :=
  if s.currTerm < term then s.acceptTerm term [] else s

def handleRequestVote (req : VoteReq) : Raft × VoteRes :=
  let s := s.heedCandidate req.term
  if req.term < s.currTerm then (s, ⟨s.currTerm, false⟩)
  else if s.votedFor ≠ [] ∧ req.candidateId ≠ s.votedFor then (s, ⟨s.currTerm, false⟩)
  else if s.logAhead req then (s, ⟨s.currTerm, false⟩)
  else (s.castVote req.candidateId, ⟨req.term, true⟩)

/-! ## `append_entries` -/

/-- Make the entries of a request, all before any of them is appended. -/
def makeEntries (log : EntryLogger) (entries : List Entry) : List LogEntry :=
  entries.map fun e => log.makeEntry e.data e.index e.term e.config

/--
The two entry loops: entries already held are skipped up to the first that is
not, which is chopped off when it conflicts; the rest is appended.
-/
def mergeEntries (log : EntryLogger) : List Entry → Option EntryLogger
  | [] => some log
  | e :: rest =>
      if log.entryConflicted e.index e.term then
        (log.chop e.index).map fun log => log.append (makeEntries log (e :: rest))
      else if log.hasEntry e.index e.term then mergeEntries log rest
      else some (log.append (makeEntries log (e :: rest)))

def needAdjustCfg (old new : EntryLogger) (entries : List Entry) : Bool :=
  entries.any (·.config) || old.cfgEntryIndex ≠ new.cfgEntryIndex

def appendResult (result : Bool) : AppendEntriesRes :=
  ⟨s.currTerm, result, s.log.lastEntryIndex⟩

def learnCommit (leaderCommit : Nat) : Raft :=
  if s.commitIndex < leaderCommit then s.commitTo (min leaderCommit s.log.lastEntryIndex)
  else s

def followEntries (log : EntryLogger) (req : AppendEntriesReq) : Raft :=
  let t := { { s with log := log }.learnCommit req.leaderCommit with leader := req.leaderId }
  if needAdjustCfg s.log log req.entries then t.adjustConfiguration log.config else t

/-- The handler once the term has been checked. -/
def acceptEntries (req : AppendEntriesReq) : Raft × AppendEntriesRes :=
  if ¬ s.log.hasEntry req.prevLogIndex req.prevLogTerm then (s, s.appendResult false)
  else
    match mergeEntries s.log req.entries with
    | none => (s, s.appendResult false)
    | some log => (s.followEntries log req, (s.followEntries log req).appendResult true)

/-- The term check of `append_entries`. -/
def heedLeader (term : Nat) (leaderId : Bytes) : Raft :=
  if s.currTerm < term then s.acceptTerm term leaderId
  else { s with electionTimer := true, role := .follower }

def handleAppendEntries (req : AppendEntriesReq) : Raft × AppendEntriesRes :=
  if req.term < s.currTerm then (s, s.appendResult false)
  else (s.heedLeader req.term req.leaderId).acceptEntries req

/-! ## Data transfer -/

def dataResult (result : Bool) : DataRes := ⟨s.currTerm, result⟩

/-- The base of the sender takes the place of the whole log; a failed `chop` is ignored. -/
def installBase (req : DataReq) : Raft :=
  let log := (s.log.chop (s.log.lastIndex + 1)).getD s.log
  let s := { s with
    log := log, commitIndex := req.lastIndex, lastApplied := req.lastIndex }
  let s := s.adjustConfiguration req.lastConfig
  { s with log := s.log.copyStates req.lastConfig req.lastIndex req.lastTerm }

/-- The part of the handler for the first request of a transfer. -/
def beginTransfer (req : DataReq) : Raft :=
  let s := { s with electionTimer := false }
  if s.logCompactionEnabled then s.installBase req else s

/-- The start common to `data_transfer` and `done_transfer`. -/
def followSender (term : Nat) (leaderId : Bytes) : Raft :=
  { if s.currTerm < term then s.acceptTerm term leaderId else s with
    role := .follower, leader := leaderId }

def handleDataTransfer (req : DataReq) : Raft × DataRes :=
  if req.term < s.currTerm then (s, s.dataResult false)
  else
    let s := s.followSender req.term req.leaderId
    let s := if req.id = 1 then s.beginTransfer req else s
    (s, s.dataResult true)

def handleDoneTransfer (req : DoneReq) : Raft × DataRes :=
  if req.term < s.currTerm then (s, s.dataResult false)
  else
    let s := s.followSender req.term req.leaderId
    let s :=
      if req.name = [] then s
      else
        let path := req.name.takeWhile (· ≠ 47)
        { s with
          sender := { s.sender with path := path }
          dataTransferQueue :=
            s.dataTransferQueue + if s.sender.exists_ path then 1 else 0 }
    (s, s.dataResult true)

/-! ## Dispatch -/

def serve (recent : Bool) : Request → Raft × Response
  | .timeoutNow _ => s.handleTimeoutNow.map id .vote
  | .preVote req => (s, .vote (s.handlePreVote recent req))
  | .requestVote req => (s.handleRequestVote req).map id .vote
  | .appendEntries req => (s.handleAppendEntries req).map id .append
  | .dataTransfer req => (s.handleDataTransfer req).map id .data
  | .doneTransfer req => (s.handleDoneTransfer req).map id .data

/-- The callback of a call to the node `id`; a response of another kind does not occur. -/
def finish (id : Bytes) (quick : Bool) : Request → Option Response → Raft
  | .timeoutNow _, some (.vote res) => s.onTimeoutNow id (some res)
  | .preVote _, some (.vote res) => s.onPreVote (some res)
  | .requestVote _, some (.vote res) => s.onRequestVote (some res)
  | .appendEntries _, some (.append res) => s.onAppendEntries id (some res) quick
  | .dataTransfer _, some (.data res) => s.onDataTransfer id (some res)
  | .doneTransfer _, some (.data res) => s.onDoneTransfer id (some res)
  | .timeoutNow _, none => s.onTimeoutNow id none
  | .preVote _, none => s.onPreVote none
  | .requestVote _, none => s.onRequestVote none
  | .appendEntries _, none => s.onAppendEntries id none quick
  | .dataTransfer _, none => s.onDataTransfer id none
  | .doneTransfer _, none => s.onDoneTransfer id none
  | _, some _ => s

end Draft.Raft
