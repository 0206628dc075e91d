import Draft.Raft.Messages
import Draft.Raft.Transfer

/-!
# The state of one server

The fields of `raft_impl`, grouped by what they are for, so that a function
which leaves a whole group alone says so in one equation.  The fields marked as
history record what the server did and are read by no function.
-/

namespace Draft

inductive Role where
  | leader
  | candidate
  | follower
  deriving DecidableEq, Repr

structure Node where
  id : Bytes
  nextIndex : Nat
  matchIndex : Nat
  transferLeaderTo : Bool
  transferDataTo : Bool
  deriving DecidableEq, Repr

inductive ReconfigurationType where
  | serverAddition
  | serverRemoval
  deriving DecidableEq, Repr

structure Reconfiguration where
  type : ReconfigurationType
  n : Node
  rounds : Nat
  entryAdded : Bool
  deriving DecidableEq, Repr

/-- The values `init` reads from the configuration file or the interface. -/
structure Settings where
  selfId : Bytes
  interfaceAddress : Bytes
  rpcPort : Bytes
  serverCatchUpRounds : Nat
  logCompactionEnabled : Bool

/-- Settings, term, vote and role.  The first byte of `votedFor` is 0 when it is empty. -/
structure Election extends Settings where
  role : Role
  currTerm : Nat
  votedFor : Bytes
  votes : Nat
  /-- History: the votes this server gave, its own included. -/
  ballots : List (Nat × Bytes)
  /-- History: the terms in which `step_up` ran. -/
  elections : List Nat

structure Replica where
  log : EntryLogger
  commitIndex : Nat
  lastApplied : Nat
  /-- History: what the apply loop passed to the commit callback, at which index. -/
  applied : List (Nat × LogEntry)

/-- The apply loop between its two waits, and the callback it has not left yet. -/
structure ApplyLoop where
  wakeUps : Nat
  draining : Bool
  callback : Option Nat

structure Housekeeping where
  leader : Bytes
  preVotesGranted : Nat
  preVotesRefused : Nat
  electionTimer : Bool
  heartbeatTimer : Bool
  leadershipTransferTimer : Option Bytes
  recfg : Option Reconfiguration
  serverTransferLeaderTo : Option Bytes
  serverTransferReplyTo : Bool
  /-- The bodies prepared for configuration requests; the last one of a request is sent. -/
  replies : List Bytes
  sender : Sender
  dataTransferQueue : Nat

/-- A call on its way out, with the role and the term of the sender when it was made. -/
structure Outgoing where
  dst : Bytes
  role : Role
  term : Nat
  request : Request
  deriving DecidableEq, Repr

structure Raft extends Election, Replica, ApplyLoop, Housekeeping where
  /-- `cluster`, an association list in the place of the hash map. -/
  cluster : List (Bytes × Node)
  /-- The calls made since the current event began. -/
  sent : List Outgoing
  /-- A null pointer was read; the process is gone. -/
  faulted : Bool

def defaultRpcPort : Bytes := ascii "2023"

namespace Raft

variable (s : Raft)

def contains (address : Bytes) : Bool := s.cluster.any (·.1 = address)

def others : List Node := (s.cluster.map (·.2)).filter (·.id ≠ s.selfId)

/-- The node an RPC task points to: in the cluster, or the one being added. -/
def findNode (id : Bytes) : Option Node :=
  match (s.cluster.map (·.2)).find? (·.id = id) with
  | some n => some n
  | none =>
      match s.recfg with
      | some r => if r.n.id = id then some r.n else none
      | none => none

/-- A change to a node; `recfg` and the cluster share the node being added. -/
def modifyNode (id : Bytes) (f : Node → Node) : Raft :=
  { s with
    cluster := s.cluster.map fun p => if p.2.id = id then (p.1, f p.2) else p
    recfg := s.recfg.map fun r => if r.n.id = id then { r with n := f r.n } else r }

def newly (id : Bytes) : Bool :=
  match s.recfg with
  | some r => r.n.id = id && r.type = .serverAddition
  | none => false

def invoke (dst : Bytes) (request : Request) : Raft :=
  { s with sent := s.sent ++ [⟨dst, s.role, s.currTerm, request⟩] }

def invokeAll (nodes : List Node) (request : Node → Request) : Raft :=
  { s with sent := s.sent ++ nodes.map fun n => ⟨n.id, s.role, s.currTerm, request n⟩ }

def reply (body : Bytes) : Raft := { s with replies := s.replies ++ [body] }

def makeId (address : Bytes) : Bytes :=
  if (split 58 address).length = 1 then
    address ++ ascii ":" ++
      (if address = s.interfaceAddress then s.rpcPort else defaultRpcPort)
  else address

/-- `make_node`; `id` holds 32 bytes. -/
def makeNode (address port : Bytes) : Node :=
  let name :=
    match split 58 address with
    | host :: port :: _ => host ++ ascii ":" ++ port
    | _ => address ++ ascii ":" ++ port
  { id := name.take 32
    nextIndex := s.log.lastEntryIndex + 1
    matchIndex := 0
    transferLeaderTo := false
    transferDataTo := false }

def serializeConfiguration : Bytes := joinComma (s.cluster.map (·.2.id))

def adjustConfiguration (config : Bytes) : Raft :=
  if config = [] then s
  else
    let addresses := split 44 config
    let known := addresses.foldl
      (fun cluster address =>
        if cluster.any (·.1 = address) then cluster
        else cluster ++ [(address, s.makeNode address defaultRpcPort)]) s.cluster
    { s with cluster := known.filter (·.1 ∈ addresses) }

/--
`complete_reconfiguration`.  A server that is being removed answers the request
for its leadership transfer with this, the two are one.
-/
def completeReconfiguration (status : Bytes) : Raft :=
  { s.reply (status ++ ascii " " ++ s.leader) with
    recfg := none
    serverTransferReplyTo := s.serverTransferReplyTo &&
      !s.recfg.any fun r => r.type = .serverRemoval && r.n.id = s.selfId }

end Raft

end Draft
