import Mathlib.Data.Finset.Card
import Draft.Consensus.Run
import Draft.Raft.Administration

/-!
# A cluster of servers

The servers exchange calls.  A call that was made stays in the list: its
request may be handled once, at any time or never; its callback runs at most
once, with the response of the handler or with a failure, whether or not the
request is ever handled.  Nothing is assumed about the order of calls.
-/

namespace Draft

/-- A server after `init` and `start`, with a configuration in its log. -/
def Raft.boot (settings : Settings) (log : EntryLogger) (currTerm : Nat) (votedFor : Bytes)
    (files : Sender) : Raft :=
  let base : Raft :=
    { toSettings := settings
      role := .follower
      currTerm := currTerm
      votedFor := votedFor
      votes := 0
      ballots := []
      elections := []
      log := log
      commitIndex := log.lastIndex
      lastApplied := log.lastIndex
      applied := []
      wakeUps := 0
      draining := false
      callback := none
      leader := []
      preVotesGranted := 0
      preVotesRefused := 0
      electionTimer := true
      heartbeatTimer := false
      leadershipTransferTimer := none
      recfg := none
      serverTransferLeaderTo := none
      serverTransferReplyTo := false
      replies := []
      sender := files.initTransfer
      dataTransferQueue := 0
      cluster := []
      sent := []
      faulted := false }
  let config := if log.cfgEntryIndex = 0 then log.lastConfig else log.config
  { base with
    cluster := (split 44 config).foldl
      (fun cluster address =>
        if cluster.any (·.1 = address) then cluster
        else cluster ++ [(address, base.makeNode address
          (if address = settings.selfId then settings.rpcPort else defaultRpcPort))]) [] }

structure Call where
  src : Bytes
  dst : Bytes
  role : Role
  term : Nat
  request : Request
  response : Option Response
  done : Bool
  deriving DecidableEq, Repr

def Outgoing.call (src : Bytes) (o : Outgoing) : Call :=
  { src := src, dst := o.dst, role := o.role, term := o.term, request := o.request,
    response := none, done := false }

structure World where
  ids : List Bytes
  servers : Bytes → Raft
  calls : List Call

def World.boot (ids : List Bytes) (settings : Bytes → Settings) (log : EntryLogger)
    (currTerm : Bytes → Nat) (votedFor : Bytes → Bytes) (files : Bytes → Sender) : World :=
  { ids := ids
    servers := fun id => .boot (settings id) log (currTerm id) (votedFor id) (files id)
    calls := [] }

inductive Event where
  | electionTimeout (id : Bytes)
  | heartbeatTimeout (id : Bytes)
  | leadershipTransferTimeout (id : Bytes)
  | append (id data : Bytes)
  | transferLeadership (id address : Bytes)
  | addServer (id address : Bytes)
  | delServer (id address : Bytes)
  | popCommitted (id : Bytes)
  | applyNext (id : Bytes)
  | compact (id : Bytes)
  /-- The files of a server change. -/
  | writeFiles (id : Bytes) (files : List (Bytes × FileNode))
  | handle (call : Nat) (recent : Bool)
  | succeed (call : Nat) (quick : Bool)
  | fail (call : Nat) (quick : Bool)
  deriving DecidableEq, Repr

namespace World

variable (w : World)

/-- The state after server `id` went to `s`: what it sent becomes calls. -/
def act (id : Bytes) (s : Raft) : World :=
  { w with
    servers := fun j => if j = id then { s with sent := [] } else w.servers j
    calls := w.calls ++ s.sent.map (Outgoing.call id) }

/-- A local event of server `id`, which has to be running. -/
def local_ (id : Bytes) (f : Raft → Raft) : Option World :=
  if id ∈ w.ids ∧ ¬ (w.servers id).faulted then some (w.act id (f (w.servers id))) else none

def handleCall (i : Nat) (c : Call) (recent : Bool) : Option World :=
  if c.dst ∈ w.ids ∧ ¬ (w.servers c.dst).faulted ∧ c.response = none then
    let r := (w.servers c.dst).serve recent c.request
    some ({ w with calls := w.calls.set i { c with response := some r.2 } }.act c.dst r.1)
  else none

def finishCall (i : Nat) (c : Call) (response : Option Response) (quick : Bool) :
    Option World :=
  if c.src ∈ w.ids ∧ ¬ (w.servers c.src).faulted ∧ c.done = false then
    some ({ w with calls := w.calls.set i { c with done := true } }.act c.src
      ((w.servers c.src).finish c.dst quick c.request response))
  else none

def step : Event → Option World
  | .electionTimeout id =>
      if (w.servers id).electionTimer then w.local_ id Raft.onElectionTimeout else none
  | .heartbeatTimeout id =>
      if (w.servers id).heartbeatTimer then w.local_ id Raft.onHeartbeatTimeout else none
  | .leadershipTransferTimeout id =>
      match (w.servers id).leadershipTransferTimer with
      | none => none
      | some node => w.local_ id fun s => s.onLeadershipTransferTimeout node
  | .append id data => w.local_ id fun s => s.append data
  | .transferLeadership id address => w.local_ id fun s => (s.leadershipTransfer address).1
  | .addServer id address => w.local_ id fun s => s.addServer address
  | .delServer id address => w.local_ id fun s => s.delServer address
  | .popCommitted id => w.local_ id Raft.popCommitted
  | .applyNext id => w.local_ id Raft.applyNext
  | .compact id => w.local_ id Raft.compact
  | .writeFiles id files =>
      w.local_ id fun s => { s with sender := { s.sender with files := files } }
  | .handle i recent =>
      match w.calls[i]? with
      | none => none
      | some c => w.handleCall i c recent
  | .succeed i quick =>
      match w.calls[i]? with
      | none => none
      | some c => if c.response = none then none else w.finishCall i c c.response quick
  | .fail i quick =>
      match w.calls[i]? with
      | none => none
      | some c => w.finishCall i c none quick

def actor : Event → Option Bytes
  | .electionTimeout id | .heartbeatTimeout id | .leadershipTransferTimeout id | .append id _
  | .transferLeadership id _ | .addServer id _ | .delServer id _ | .popCommitted id
  | .applyNext id | .compact id | .writeFiles id _ => some id
  | .handle i _ => w.calls[i]?.map (·.dst)
  | .succeed i _ | .fail i _ => w.calls[i]?.map (·.src)

end World

def World.cluster (addresses : List String) (compaction : Bool) : World :=
  let ids := addresses.map ascii
  .boot ids
    (fun id => { selfId := id, interfaceAddress := id, rpcPort := defaultRpcPort,
                 serverCatchUpRounds := 10, logCompactionEnabled := compaction })
    { lastIndex := 0, lastTerm := 0, lastConfig := [], cfgEntryIndex := 1,
      entries := [{ term := 1, index := 1, data := joinComma ids, config := true, prevCfg := 0 }] }
    (fun _ => 1) (fun _ => [])
    (fun _ => { path := ascii "db", files := [], pending := [],
                fin := { path := none, position := 0, good := true, gcount := 0 }, last := [],
                dataTransferId := 0, doneTransferId := 0 })

/-- The event changes no membership. -/
def Event.fixed : Event → Bool
  | .addServer .. | .delServer .. => false
  | _ => true

end Draft
