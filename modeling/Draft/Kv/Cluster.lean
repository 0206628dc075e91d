import Draft.Kv.Server
import Draft.Raft.Progress

/-!
# A cluster of storage servers

Every server of a cluster has its store.  The thread that takes commands appends
an entry, and keeps the session under its index in a step of its own: in between
the entry may be committed and passed on, or chopped off by another leader.
Here no server handles a data transfer, which would replace its database, and a
session reads every command with a parser that was reset, as after a reply.
-/

namespace Draft.Kv

open Raft

structure Site where
  store : Store
  /-- What `append` answered, until `handle_command` goes on. -/
  returned : Option Nat
  /-- History: the commands that were appended, each with its entry. -/
  appended : List (Waiting × Entry)
  /-- History: the entries that the commit index went past. -/
  committed : List Entry
  /-- History: the sessions that the callback answered, each with the entry it was passed. -/
  answered : List (Waiting × Entry)

structure Cluster where
  world : World
  sites : Bytes → Site

inductive ClusterEvent where
  | raft (e : Draft.Event)
  /-- A session parses what it read. -/
  | command (id : Bytes) (session : Nat) (bytes : Bytes)
  | appendCommand (id : Bytes)
  | keepSession (id : Bytes)
  deriving DecidableEq, Repr

namespace Site

variable (x : Site)

def empty : Site :=
  { store := .empty, returned := none, appended := [], committed := [], answered := [] }

def append (s : Raft) (w : Waiting) : Site :=
  { x with
    returned := some (Server.appendIndex { raft := s, store := x.store })
    appended := x.appended ++
      if s.role ≠ .leader then []
      else
        [(w, { term := s.currTerm, index := s.log.lastEntryIndex + 1, data := logText w.cmd,
               config := false })] }

/-- The rest of `handle_command`, once `append` has returned. -/
def keepSession (index : Nat) : Site :=
  { x with store := x.store.waitFor index, returned := none }

def pass (e : LogEntry) : Site :=
  { x with
    store := x.store.onLogEntryCommitted e
    answered := x.answered ++ ((x.store.find e.index).map fun w => (w, e.toEntry)).toList }

def commit (s : Raft) : Site :=
  { x with
    committed := x.committed ++
      (s.log.entries.filter fun e =>
        x.committed.length < e.index ∧ e.index ≤ s.commitIndex).map (·.toEntry) }

def after (s t : Raft) (e : Draft.Event) : Site :=
  match e with
  | .applyNext _ =>
      match s.passes with
      | none => x.commit t
      | some e => (x.pass e).commit t
  | _ => x.commit t

end Site

namespace Cluster

variable (c : Cluster)

/-- Only `handle_command` appends data, and no data transfer is handled. -/
def excluded : Draft.Event → Bool
  | .append .. => true
  | .handle i _ => ((c.world.calls[i]?).bind (·.request.parcel)).isSome
  | _ => false

def visit (id : Bytes) (f : Site → Site) : Cluster :=
  { c with sites := Function.update c.sites id (f (c.sites id)) }

def step : ClusterEvent → Option Cluster
  | .raft e =>
      if c.excluded e then none
      else
        match c.world.actor e, c.world.step e with
        | some id, some w =>
            some { c.visit id fun x => x.after (c.world.servers id) (w.servers id) e with
              world := w }
        | _, _ => none
  | .command id session bytes =>
      -- the session has answered before, so its parser is reset
      match CommandParser.fresh.parse bytes with
      | (.good, p, _) =>
          if id ∈ c.world.ids ∧ ¬ (c.world.servers id).faulted ∧
              (c.sites id).store.appending = none then
            some (c.visit id fun x =>
              { x with store := x.store.handleCommand (c.world.servers id) session p.cmd })
          else none
      | _ => none
  | .appendCommand id =>
      match (c.sites id).store.appending, (c.sites id).returned with
      | some w, none =>
          (c.world.step (.append id (logText w.cmd))).map fun world =>
            { c.visit id fun x => x.append (c.world.servers id) w with world := world }
      | _, _ => none
  | .keepSession id =>
      match (c.sites id).returned with
      | some index =>
          if id ∈ c.world.ids ∧ ¬ (c.world.servers id).faulted then
            some (c.visit id fun x => x.keepSession index)
          else none
      | none => none

end Cluster

end Draft.Kv
