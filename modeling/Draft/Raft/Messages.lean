import Draft.Foundation.EntryLogger

/-!
# The messages of `raft.proto`

One structure for each message, less the request numbers that the handlers
only echo.  `data_req` keeps its number, because the receiver tests it.
-/

namespace Draft

structure VoteReq where
  term : Nat
  candidateId : Bytes
  lastLogIndex : Nat
  lastLogTerm : Nat
  early : Bool
  deriving DecidableEq, Repr

structure VoteRes where
  term : Nat
  voteGranted : Bool
  deriving DecidableEq, Repr

structure AppendEntriesReq where
  term : Nat
  leaderId : Bytes
  prevLogIndex : Nat
  prevLogTerm : Nat
  entries : List Entry
  leaderCommit : Nat
  deriving DecidableEq, Repr

structure AppendEntriesRes where
  term : Nat
  success : Bool
  matchIndex : Nat
  deriving DecidableEq, Repr

structure DataReq where
  term : Nat
  leaderId : Bytes
  lastIndex : Nat
  lastTerm : Nat
  lastConfig : Bytes
  name : Bytes
  data : Bytes
  id : Nat
  deriving DecidableEq, Repr

structure DoneReq where
  term : Nat
  leaderId : Bytes
  name : Bytes
  deriving DecidableEq, Repr

structure DataRes where
  term : Nat
  success : Bool
  deriving DecidableEq, Repr

inductive Request where
  | timeoutNow (req : VoteReq)
  | preVote (req : VoteReq)
  | requestVote (req : VoteReq)
  | appendEntries (req : AppendEntriesReq)
  | dataTransfer (req : DataReq)
  | doneTransfer (req : DoneReq)
  deriving DecidableEq, Repr

inductive Response where
  | vote (res : VoteRes)
  | append (res : AppendEntriesRes)
  | data (res : DataRes)
  deriving DecidableEq, Repr

def AppendEntriesReq.lastIndex (req : AppendEntriesReq) : Nat :=
  req.prevLogIndex + req.entries.length

end Draft
