import Draft.Raft.State

/-!
# Replication

Requests are built from the state at the moment they are sent, as `fill` does.
The functions that follow are the leader's: heartbeats, the commit rule, the
catch-up of a new server and the sending of a snapshot.
-/

namespace Draft.Raft

variable (s : Raft)

/-! ## `fill` -/

def voteReq (early : Bool) : VoteReq :=
  { term := s.currTerm
    candidateId := s.selfId
    lastLogIndex := s.log.lastEntryIndex
    lastLogTerm := s.log.lastEntryTerm
    early := early }

/-- The entries loop of `append_entries(node*)`: `count` entries from `index` on. -/
def entriesFrom (log : EntryLogger) : Nat → Nat → List Entry
  | 0, _ => []
  | count + 1, index =>
      match log.get index with
      | none => []
      | some e => e.toEntry :: entriesFrom log count (index + 1)

def appendEntriesReq (n : Node) : AppendEntriesReq :=
  let prev := s.log.get (n.nextIndex - 1)
  { term := s.currTerm
    leaderId := s.selfId
    prevLogIndex := (prev.map (·.index)).getD s.log.lastIndex
    prevLogTerm := (prev.map (·.term)).getD s.log.lastTerm
    entries := entriesFrom s.log (s.log.lastEntryIndex + 1 - n.nextIndex) n.nextIndex
    leaderCommit := s.commitIndex }

def doneReq : DoneReq :=
  { term := s.currTerm, leaderId := s.selfId, name := s.sender.last }

/-- The fields of a `data_req` that come from the log are set with compaction on only. -/
def dataReq (id : Nat) (name data : Bytes) : DataReq :=
  { term := s.currTerm
    leaderId := s.selfId
    lastIndex := if s.logCompactionEnabled then s.log.lastIndex else 0
    lastTerm := if s.logCompactionEnabled then s.log.lastTerm else 0
    lastConfig := if s.logCompactionEnabled && id = 1 then s.log.lastConfig else []
    name := name
    data := data
    id := id }

/-! ## The commit rule -/

/-- A follower match the first loop of `adjust_commit_index` takes into account. -/
def qualifies (n : Node) : Bool :=
  s.commitIndex < n.matchIndex &&
    (s.log.get n.matchIndex).any (·.term = s.currTerm)

/-- The first loop reads the entry at a match above the commit index; it may be null. -/
def readsMissing (n : Node) : Bool :=
  s.commitIndex < n.matchIndex && (s.log.get n.matchIndex).isNone

def minMatch : Nat :=
  (s.others.filter s.qualifies).foldl (fun m n => min m n.matchIndex) s.log.lastEntryIndex

def maxMatch : Nat :=
  (s.others.filter s.qualifies).foldl (fun m n => max m n.matchIndex) 0

def count (index : Nat) : Nat :=
  (if s.contains s.selfId then 1 else 0) + (s.others.filter (index ≤ ·.matchIndex)).length

/--
The second loop, from `i` down to `low`.  Its counter is unsigned: below 0 it
would go on from the top, which only an empty cluster lets happen.
-/
def scan (low : Nat) : Nat → Option Nat
  | 0 => if low = 0 ∧ s.cluster.length / 2 < s.count 0 then some 0 else none
  | i + 1 =>
      if i + 1 < low then none
      else if s.cluster.length / 2 < s.count (i + 1) then some (i + 1)
      else scan low i

def commitTo (index : Nat) : Raft :=
  { s with commitIndex := index, wakeUps := s.wakeUps + 1 }

def commitAlone (oldCommit : Nat) : Raft :=
  if s.cluster.length = 1 ∧ s.contains s.selfId then
    if oldCommit < s.log.lastEntryIndex then s.commitTo s.log.lastEntryIndex
    else { s with commitIndex := s.log.lastEntryIndex }
  else s

/-- The end of `adjust_commit_index`, for a pending reconfiguration. -/
def commitReconfiguration (oldCommit : Nat) : Raft :=
  let index := s.log.cfgEntryIndex
  if oldCommit < index ∧ index ≤ s.commitIndex ∧ s.recfg.isSome then
    s.completeReconfiguration (ascii "OK")
  else s

def adjustCommitIndex : Raft :=
  if s.others.any s.readsMissing then { s with faulted := true }
  else
    let oldCommit := s.commitIndex % 2 ^ 32
    let counted :=
      match s.scan s.minMatch s.maxMatch with
      | some i => s.commitTo i
      | none => s
    (counted.commitAlone oldCommit).commitReconfiguration oldCommit

/-! ## `append_entries` -/

def appendEntriesTo (id : Bytes) : Raft :=
  match s.findNode id with
  | none => s
  | some n => s.invoke id (.appendEntries (s.appendEntriesReq n))

/-- `append_entries()`: the heartbeat to every member not in a data transfer. -/
def appendEntries : Raft :=
  let s := { s with heartbeatTimer := true }
  if s.role ≠ .leader then s
  else
    let s := s.invokeAll (s.others.filter (!·.transferDataTo)) fun n =>
      .appendEntries (s.appendEntriesReq n)
    if s.cluster.length = 1 ∧ s.contains s.selfId then s.adjustCommitIndex else s

/-- `append` and `handle_append`: a client's data becomes an entry of the leader. -/
def append (data : Bytes) : Raft :=
  if s.role ≠ .leader then s
  else
    { s with
      log := s.log.append
        [s.log.makeEntry data (s.log.lastEntryIndex + 1) s.currTerm false] }

def appendConfiguration : Raft :=
  { s with
    log := s.log.append
      [s.log.makeEntry s.serializeConfiguration (s.log.lastEntryIndex + 1) s.currTerm true] }

/-! ## Catching up a new server -/

/-- `rounds < server_catch_up_rounds_ - 1`, in 32 bits. -/
def roundsLeft (rounds : Nat) : Bool :=
  rounds < (s.serverCatchUpRounds + (2 ^ 32 - 1)) % 2 ^ 32

/-- `last_entry_index() - match_index <= 5`, in 64 bits. -/
def caughtUp (n : Node) : Bool :=
  (s.log.lastEntryIndex + (2 ^ 64 - n.matchIndex)) % 2 ^ 64 ≤ 5

def deployReconfiguration (r : Reconfiguration) : Raft :=
  if r.entryAdded then s
  else
    let s :=
      if s.contains r.n.id then s else { s with cluster := s.cluster ++ [(r.n.id, r.n)] }
    { s.appendConfiguration with recfg := some { r with entryAdded := true } }

/-- `quick` says that the round took less than the election timeout. -/
def handleCatchUpServerAppendEntries (quick : Bool) : Raft :=
  match s.recfg with
  | none => s
  | some r =>
      if s.roundsLeft r.rounds then
        { s with recfg := some { r with rounds := r.rounds + 1 } }.appendEntriesTo r.n.id
      else if quick && s.caughtUp r.n then (s.deployReconfiguration r).appendEntries
      else s.completeReconfiguration (ascii "TIMEOUT")

/-! ## Sending a snapshot -/

def initTransfer : Raft := { s with sender := s.sender.initTransfer }

/-- The request of `do_data_transfer`, after its checks. -/
def sendChunk (id : Bytes) : Raft :=
  let number := s.sender.dataTransferId + 1
  let last := s.log.lastEntryIndex
  let t := { s.sender with dataTransferId := number }.transfer
  let request := s.dataReq number t.2.1 t.2.2
  let s :=
    if number = 1 then
      s.modifyNode id fun n => { n with transferDataTo := true, nextIndex := last + 1 }
    else s
  { s with sender := t.1 }.invoke id (.dataTransfer request)

def doDataTransfer (id : Bytes) : Raft :=
  if s.role ≠ .leader then s
  else if s.sender.pending = [] ∧ s.newly id ∧ ¬ s.sender.exists_ s.sender.path ∧
      (s.findNode id).all (!·.transferDataTo) then
    s.appendEntriesTo id
  else s.sendChunk id

def doDoneTransfer (id : Bytes) : Raft :=
  { s with sender := { s.sender with doneTransferId := s.sender.doneTransferId + 1 } }.invoke id
    (.doneTransfer s.doneReq)

/-- The branch of `on_append_entries` for an entry the leader no longer has. -/
def startDataTransfer (id : Bytes) : Raft :=
  (s.initTransfer.modifyNode id fun n => { n with transferDataTo := true }).doDataTransfer id

end Draft.Raft
