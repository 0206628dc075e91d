import Draft.Foundation.Bytes

/-!
# The log of a server

`entry_logger` keeps a sentry, the entries in `infos` order and, in a second
file, the index, term and configuration up to which the log was compacted.
This module has its operations over lists; byte offsets, payload sizes and the
growth of the files are not part of it.
-/

namespace Draft

/-- `LogEntry` of `raft.proto`. -/
structure Entry where
  term : Nat
  index : Nat
  data : Bytes
  config : Bool
  deriving DecidableEq, Repr

/--
`log_entry`.  A configuration entry stores in front of its data the index of
the configuration entry before it, here `prevCfg`; `data` is what `str` returns.
-/
structure LogEntry extends Entry where
  prevCfg : Nat
  deriving DecidableEq, Repr

def logEntrySentry : LogEntry :=
  { term := 0, index := 0, data := [], config := false, prevCfg := 0 }

structure EntryLogger where
  lastIndex : Nat
  lastTerm : Nat
  lastConfig : Bytes
  entries : List LogEntry
  cfgEntryIndex : Nat
  deriving DecidableEq, Repr

namespace EntryLogger

variable (log : EntryLogger)

def infos : List LogEntry := logEntrySentry :: log.entries

def lastEntry : LogEntry := log.entries.getLast?.getD logEntrySentry

def belowFirst (index : Nat) : Bool := log.entries.head?.any (index < ·.index)

/--
`operator[]`.  The source subtracts `last_index` without a check; on a log with
consecutive indices the difference is never negative.
-/
def get (index : Nat) : Option LogEntry :=
  if log.lastEntry.index < index ∨ (index ≠ 0 ∧ log.belowFirst index) then none
  else if index = 0 then some logEntrySentry
  else log.infos[index - log.lastIndex]?

def hasEntry (index term : Nat) : Bool :=
  match log.get index with
  | none => log.lastIndex = index && log.lastTerm = term
  | some e => e.index = index && e.term = term

def entryConflicted (index term : Nat) : Bool :=
  match log.get index with
  | none => false
  | some e => e.term ≠ term

def lastEntryIndex : Nat :=
  if log.entries = [] then log.lastIndex else log.lastEntry.index

def lastEntryTerm : Nat :=
  if log.entries = [] then log.lastTerm else log.lastEntry.term

/-- `config`: the data of the entry at `cfg_entry_index_`, empty when there is none. -/
def config : Bytes :=
  match log.get log.cfgEntryIndex with
  | none => []
  | some e => e.data

/-- `make_entry` with `copy`: a configuration entry points to the one before it. -/
def makeEntry (data : Bytes) (index term : Nat) (cfg : Bool) : LogEntry :=
  { term := term, index := index, data := data, config := cfg,
    prevCfg := if cfg then log.cfgEntryIndex else 0 }

def append (batch : List LogEntry) : EntryLogger :=
  { log with
    entries := log.entries ++ batch
    cfgEntryIndex :=
      batch.foldl (fun cfg e => if e.config then e.index else cfg) log.cfgEntryIndex }

/-- The guard of `chop` and `drop`, answered with `RC_OOR`. -/
def outOfRange (index : Nat) : Bool :=
  index = 0 || log.lastEntry.index < index || log.belowFirst index

def cfgBelow (index : Nat) : Nat → Nat → Nat
  | 0, cfg => cfg
  | fuel + 1, cfg =>
      if index ≤ cfg then
        match log.get cfg with
        | none => cfg
        | some e => cfgBelow index fuel e.prevCfg
      else cfg

def chop (index : Nat) : Option EntryLogger :=
  if log.outOfRange index then none
  else some { log with
    entries := log.entries.take (index - log.lastIndex - 1)
    cfgEntryIndex := log.cfgBelow index log.entries.length log.cfgEntryIndex }

/-- `copy(states_ptr, index, term)`: an empty configuration leaves the old one. -/
def copyStates (config : Bytes) (index term : Nat) : EntryLogger :=
  { log with
    lastIndex := index
    lastTerm := term
    lastConfig := if config = [] then log.lastConfig else config }

def configUpTo (index : Nat) : Bytes :=
  let cfg := log.cfgBelow (index + 1) log.entries.length log.cfgEntryIndex
  if cfg = 0 then []
  else
    match log.get cfg with
    | none => []
    | some e => e.data

/-- `drop`: remove the entries up to `index`, which becomes the base of the log. -/
def drop (index : Nat) : Option EntryLogger :=
  if log.outOfRange index then none
  else
    match log.get index with
    | none => none
    | some e =>
        let cfg := if log.cfgEntryIndex ≤ index then 0 else log.cfgEntryIndex
        some ({ log with
          entries := log.entries.drop (index - log.lastIndex)
          cfgEntryIndex := cfg }.copyStates (log.configUpTo index) index e.term)

end EntryLogger

end Draft
