import Draft.Raft.Service

/-!
# Configuration requests and timers

The operations behind the HTTP handlers, with the texts of their answers, and
what runs when a timer expires.
-/

namespace Draft.Raft

variable (s : Raft)

def refuse (status : String) : Raft := s.reply (ascii status ++ ascii " " ++ s.leader)

def makeConfig (n : Node) (type : ReconfigurationType) : Raft :=
  { s with recfg := some { type := type, n := n, rounds := 0, entryAdded := false } }

def addServer (name : Bytes) : Raft :=
  let address := s.makeId name
  if s.role ≠ .leader then s.refuse "NOT_LEADER"
  else if s.contains address then s.refuse "IN_CFG"
  else if ¬ isIpv4 address then s.refuse "INVALID_SERVER"
  else if s.recfg.isSome then s.refuse "INPROGRESS"
  else
    let n := s.makeNode address defaultRpcPort
    let s := s.makeConfig n .serverAddition
    if s.logCompactionEnabled then s.initTransfer.doDataTransfer n.id
    else s.appendEntriesTo n.id

/-- `latest_server`: the first member with the largest match, or this server. -/
def latestServer : Bytes :=
  let latest := s.others.foldl
    (fun best n =>
      match best with
      | none => some n
      | some m => if m.matchIndex < n.matchIndex then some n else best) none
  match latest with
  | none => s.selfId
  | some n => n.id

/-- The answer tells whether the transfer was taken up (`RC_GOOD`). -/
def leadershipTransfer (name : Bytes) : Raft × Bool :=
  let address := s.makeId name
  if s.role ≠ .leader then (s.refuse "NOT_LEADER", false)
  else if address = [] then (s.refuse "EMPTY_SERVER", false)
  else if s.serverTransferLeaderTo.isSome then (s.refuse "INPROGRESS", false)
  else if address = s.selfId then (s.refuse "IN_CFG", false)
  else
    match s.cluster.find? (·.1 = address) with
    | none => (s.refuse "NOT_IN_CFG", false)
    | some (_, n) =>
        let s := { s.modifyNode n.id fun n => { n with transferLeaderTo := true } with
          serverTransferLeaderTo := some n.id
          serverTransferReplyTo := true }
        if n.matchIndex = s.log.lastEntryIndex then (s.timeoutNow n.id, true)
        else ({ s.appendEntriesTo n.id with leadershipTransferTimer := some n.id }, true)

def delServer (name : Bytes) : Raft :=
  let address := s.makeId name
  if s.role ≠ .leader then s.refuse "NOT_LEADER"
  else
    match s.cluster.find? (·.1 = address) with
    | none => s.refuse "NOT_IN_CFG"
    | some (_, n) =>
        if s.recfg.isSome then s.refuse "INPROGRESS"
        else if s.cluster.length = 1 then s.refuse "UNIQUE_SERVER"
        else
          let s :=
            { s with cluster := s.cluster.filter (·.1 ≠ address) }.appendConfiguration
          if address = s.selfId then
            let (s, taken) := s.leadershipTransfer s.latestServer
            if taken then s.makeConfig n .serverRemoval else s.refuse "ERROR"
          else (s.makeConfig n .serverRemoval).appendEntries

/-! ## Timers -/

def onElectionTimeout : Raft := { s with electionTimer := false }.preVote false

def onHeartbeatTimeout : Raft := { s with heartbeatTimer := false }.appendEntries

def onLeadershipTransferTimeout (id : Bytes) : Raft :=
  let s := { s.modifyNode id fun n => { n with transferLeaderTo := false } with
    leadershipTransferTimer := none }
  let s :=
    if s.recfg.any (·.type = .serverRemoval) then s.completeReconfiguration (ascii "TIMEOUT")
    else if s.serverTransferReplyTo then s.reply (ascii "TIMEOUT" ++ s.leader)
    else s
  { s with serverTransferReplyTo := false, serverTransferLeaderTo := none }

/-! ## The apply loop -/

def popCommitted : Raft :=
  if s.draining ∨ s.callback.isSome ∨ s.wakeUps = 0 then s
  else { s with wakeUps := s.wakeUps - 1, draining := true }

/-- One turn of the inner loop; a configuration entry is not passed on. -/
def applyNext : Raft :=
  if ¬ s.draining ∨ s.callback.isSome then s
  else if s.commitIndex ≤ s.lastApplied then { s with draining := false }
  else
    let index := s.lastApplied + 1
    match s.log.get index with
    | none => { s with lastApplied := index, faulted := true }
    | some e =>
        if e.config then { s with lastApplied := index }
        else { s with
          lastApplied := index
          applied := s.applied ++ [(index, e)]
          callback := some e.index }

/-- The end of the storage server's commit callback: compaction of the log. -/
def compact : Raft :=
  match s.callback with
  | none => s
  | some index =>
      let log :=
        if s.logCompactionEnabled ∧ index = s.commitIndex then (s.log.drop index).getD s.log
        else s.log
      { s with log := log, callback := none }

end Draft.Raft
