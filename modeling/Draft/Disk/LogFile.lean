import Mathlib.Data.Rat.Floor
import Draft.Disk.Image
import Draft.Foundation.EntryLogger

/-!
# The files of the log

`entry_logger` over the two files it maps.  The log file holds the raw entries
one after another, a sentry first, and a zero word behind the last one; the
other file holds the base of the log.  Sizes and offsets are below 2^63, as
files are, and system calls succeed.
-/

namespace Draft

open Disk

/-! ## Entries as bytes -/

def pageSize : Nat := 4096

def roundUp (unit size : Nat) : Nat := (size + unit - 1) / unit * unit

def logEntryAlignment : Nat := 8

/-- `sizeof(log_entry)`, the bytes of an entry before its data. -/
def logEntrySize : Nat := 40

namespace LogEntry

variable (e : LogEntry)

/-- The field `len`: a configuration entry has the previous index in front of its data. -/
def len : Nat := e.data.length + if e.config then 8 else 0

/-- The field `size`, as `make_log_entry` computes it. -/
def size : Nat := roundUp logEntryAlignment (logEntrySize + e.len)

/-- What `copy` puts into the data of an entry; the previous index is in network order. -/
def content : Bytes := (if e.config then (word e.prevCfg).reverse else []) ++ e.data

def bytes : Bytes :=
  word e.size ++ (word e.index ++ (word e.term ++
    ((if e.config then 1 else 0) :: (List.replicate 7 0 ++ (word e.len ++
      (e.content ++ List.replicate (e.size - logEntrySize - e.len) 0))))))

structure Fits : Prop where
  index : e.index < 2 ^ 64
  term : e.term < 2 ^ 64
  size : e.size < 2 ^ 64
  prevCfg : e.prevCfg < 2 ^ 64

instance : Decidable e.Fits :=
  decidable_of_iff (e.index < 2 ^ 64 ∧ e.term < 2 ^ 64 ∧ e.size < 2 ^ 64 ∧ e.prevCfg < 2 ^ 64)
    ⟨fun h => ⟨h.1, h.2.1, h.2.2.1, h.2.2.2⟩, fun h => ⟨h.index, h.term, h.size, h.prevCfg⟩⟩

end LogEntry

/-- The entry at an offset: `index`, `term`, `cfg` and `str()`. -/
def readEntry (image : Bytes) (off : Nat) : Option Entry := do
  let index ← readWord image (off + 8)
  let term ← readWord image (off + 16)
  let cfg ← image[off + 24]?
  let len ← readWord image (off + 32)
  let skip := if cfg = 0 then 0 else 8
  if skip ≤ len ∧ off + logEntrySize + len ≤ image.length then
    some { term := term, index := index, config := cfg ≠ 0,
           data := slice image (off + logEntrySize + skip) (len - skip) }
  else none

/-- The word in front of the data of a configuration entry, in host order. -/
def readPrevCfg (image : Bytes) (off : Nat) : Option Nat :=
  if off + logEntrySize + 8 ≤ image.length then
    some (leValue (slice image (off + logEntrySize) 8).reverse)
  else none

/-! ## `states` -/

def statesSize : Nat := 32

/-- What `make_states` and `copy` put together for a configuration. -/
def statesBytes (config : Bytes) (index term : Nat) : Bytes :=
  let size := roundUp logEntryAlignment (statesSize + config.length)
  word size ++ (word index ++ (word term ++ (word config.length ++
    (config ++ List.replicate (size - statesSize - config.length) 0))))

/-! ## The files -/

structure Disk where
  stat : Bytes
  ldbs : Bytes
  deriving DecidableEq, Repr

/-- One write to a mapped file, or a change of its size. -/
inductive DiskWrite where
  | stat (off : Nat) (bytes : Bytes)
  | ldbs (off : Nat) (bytes : Bytes)
  | growStat (size : Nat)
  | growLdbs (size : Nat)
  deriving DecidableEq, Repr

/-- `ftruncate`: a file that grows is filled up with zeros. -/
def resize (file : Bytes) (size : Nat) : Bytes :=
  file.take size ++ List.replicate (size - file.length) 0

def Disk.write (d : Disk) : DiskWrite → Disk
  | .stat off bytes => { d with stat := overwrite d.stat off bytes }
  | .ldbs off bytes => { d with ldbs := overwrite d.ldbs off bytes }
  | .growStat size => { d with stat := resize d.stat size }
  | .growLdbs size => { d with ldbs := resize d.ldbs size }

def Disk.writes (d : Disk) (ws : List DiskWrite) : Disk := ws.foldl write d

/-- `map`: a missing or empty file gets its default length, others whole pages. -/
def mapFile (file : Option Bytes) (length : Nat) : Bytes :=
  match file with
  | none | some [] => List.replicate (roundUp pageSize length) 0
  | some bytes => resize bytes (roundUp pageSize bytes.length)

/-- The new size of `remap(size * factor)`. -/
def grownSize (factor : ℚ) (size : Nat) : Nat := roundUp pageSize ⌊size * factor⌋₊

/-- The sizes a file grows to until it has enough; `none` when the loop does not end. -/
def growths (factor : ℚ) (enough : Nat → Bool) : Nat → Nat → Option (List Nat)
  | 0, _ => none
  | fuel + 1, size =>
      if enough size then some []
      else (growths factor enough fuel (grownSize factor size)).map (grownSize factor size :: ·)

/-! ## `entry_logger` -/

structure LogEntryInfo where
  index : Nat
  amount : Nat
  deriving DecidableEq, Repr

structure LogFile extends Disk where
  factor : ℚ
  infos : List LogEntryInfo
  payloadSize : Nat
  cfgEntryIndex : Nat
  deriving DecidableEq, Repr

structure Walk where
  infos : List LogEntryInfo
  payloadSize : Nat
  cfgEntryIndex : Nat
  deriving DecidableEq, Repr

/-- The loop of `init` from an offset on; `none` when it leaves the image. -/
def walk (image : Bytes) : Nat → Nat → Nat → Option Walk
  | 0, _, _ => none
  | fuel + 1, off, cfg =>
      match readWord image off with
      | none => none
      | some size =>
          if size = 0 then some ⟨[], off, cfg⟩
          else
            match image[off + 24]?, readWord image (off + 8) with
            | some flag, some index =>
                (walk image fuel (off + size) (if flag = 0 then cfg else index)).map fun w =>
                  { w with infos := ⟨index, off⟩ :: w.infos }
            | _, _ => none

/-- `sizeof(log_entry)` and an end marker. -/
def defaultLdbsSize : Nat := logEntrySize + 8

namespace LogFile

/--
The constructor and `init` on the files that exist.  The constructor's test of
the factor sets its argument, and the member stays as it was given.
-/
def init (factor : ℚ) (stat ldbs : Option Bytes) : Option LogFile :=
  let image := mapFile ldbs defaultLdbsSize
  let image := if ldbs.isNone then overwrite image 0 logEntrySentry.bytes else image
  let states := mapFile stat statesSize
  let states :=
    if stat.isNone then overwrite states 0 (word statesSize ++ List.replicate 24 0) else states
  (walk image image.length 0 0).map fun w =>
    { stat := states
      ldbs := image
      factor := factor
      infos := w.infos
      payloadSize := w.payloadSize
      cfgEntryIndex := w.cfgEntryIndex }

variable (f : LogFile)

def reopen : Option LogFile := init f.factor (some f.stat) (some f.ldbs)

def lastIndex : Nat := (readWord f.stat 8).getD 0

def lastTerm : Nat := (readWord f.stat 16).getD 0

def lastConfig : Bytes := slice f.stat statesSize ((readWord f.stat 24).getD 0)

def backIndex : Nat := (f.infos.getLast?.map (·.index)).getD 0

def belowFirst (index : Nat) : Bool := f.infos.tail.head?.any (index < ·.index)

/-- `operator[]`, as the offset of the entry; an index outside the vector is `none` as well. -/
def offset (index : Nat) : Option Nat :=
  match f.infos.head? with
  | none => none
  | some front =>
      if index < front.index ∨ f.backIndex < index ∨ (index ≠ 0 ∧ f.belowFirst index) then none
      else if index = 0 then some front.amount
      else if index < f.lastIndex + front.index then none
      else f.infos[index - f.lastIndex - front.index]?.map (·.amount)

def get (index : Nat) : Option Entry := (f.offset index).bind (readEntry f.ldbs)

def hasEntry (index term : Nat) : Bool :=
  match f.get index with
  | none => f.lastIndex = index && f.lastTerm = term
  | some e => e.index = index && e.term = term

def entryConflicted (index term : Nat) : Bool :=
  match f.get index with
  | none => false
  | some e => e.term ≠ term

def payload : Nat := f.payloadSize

/-- `entries()`: the sentry counts. -/
def entries : Nat := f.infos.length

def lastAmount : Nat := (f.infos.getLast?.map (·.amount)).getD 0

def lastEntry : Option Entry := readEntry f.ldbs f.lastAmount

def lastEntryIndex : Nat :=
  if f.infos.length = 1 then f.lastIndex else (f.lastEntry.map (·.index)).getD 0

def lastEntryTerm : Nat :=
  if f.infos.length = 1 then f.lastTerm else (f.lastEntry.map (·.term)).getD 0

def makeEntry (data : Bytes) (index term : Nat) (cfg : Bool) : LogEntry :=
  { term := term, index := index, data := data, config := cfg,
    prevCfg := if cfg then f.cfgEntryIndex else 0 }

/-! ### `append` -/

def batchSize (batch : List LogEntry) : Nat := (batch.map LogEntry.size).sum

/-- The condition under which the loop of `append` stops growing the file. -/
def hasRoom (batch : List LogEntry) (size : Nat) : Bool :=
  batchSize batch < size - f.payloadSize - 8

def entryCopies (off : Nat) : List LogEntry → List DiskWrite
  | [] => []
  | e :: rest => .ldbs off e.bytes :: entryCopies (off + e.size) rest

/-- The loop of `append`, and the end marker behind the last entry. -/
def entryWrites (off : Nat) (batch : List LogEntry) : List DiskWrite :=
  entryCopies off batch ++ [.ldbs (off + batchSize batch) (word 0)]

def placed (off : Nat) : List LogEntry → List LogEntryInfo
  | [] => []
  | e :: rest => ⟨e.index, off⟩ :: placed (off + e.size) rest

def tailEnd : Nat := f.lastAmount + (readWord f.ldbs f.lastAmount).getD 0

def appendWrites (batch : List LogEntry) : Option (List DiskWrite) :=
  (growths f.factor (f.hasRoom batch) (f.payloadSize + batchSize batch + 10) f.ldbs.length).map
    fun sizes => sizes.map .growLdbs ++ entryWrites f.tailEnd batch

def append (batch : List LogEntry) : Option LogFile :=
  (f.appendWrites batch).map fun ws =>
    { f with
      toDisk := f.toDisk.writes ws
      infos := f.infos ++ placed f.tailEnd batch
      payloadSize := f.payloadSize + batchSize batch
      cfgEntryIndex :=
        batch.foldl (fun cfg e => if e.config then e.index else cfg) f.cfgEntryIndex }

/-! ### `chop` -/

/-- The guard of `chop` and `drop`. -/
def outOfRange (index : Nat) : Bool :=
  index = 0 || f.infos.isEmpty || (f.infos.head?.any (index < ·.index)) ||
    f.backIndex < index || f.belowFirst index

def cfgBelow (index : Nat) : Nat → Nat → Option Nat
  | 0, _ => none
  | fuel + 1, cfg =>
      if index ≤ cfg then
        ((f.offset cfg).bind (readPrevCfg f.ldbs)).bind (cfgBelow index fuel)
      else some cfg

inductive Answer where
  | oor
  | good
  deriving DecidableEq, Repr

def chopWrites (index : Nat) : Option (List DiskWrite) :=
  f.infos[index - f.lastIndex]?.map fun m => [.ldbs m.amount (word 0)]

/-- `chop`; `none` when a null pointer is read. -/
def chop (index : Nat) : Option (LogFile × Answer) :=
  if f.outOfRange index then some (f, .oor)
  else do
    let cfg ← f.cfgBelow index (f.infos.length + 1) f.cfgEntryIndex
    let m ← f.infos[index - f.lastIndex]?
    let ws ← f.chopWrites index
    some ({ f with
      toDisk := f.toDisk.writes ws
      infos := f.infos.take (index - f.lastIndex)
      payloadSize := m.amount
      cfgEntryIndex := cfg }, .good)

/-! ### `copy` -/

def statHasRoom (config : Bytes) (size : Nat) : Bool := config.length ≤ size - statesSize

/-- `copy(make_states(config), index, term)`: an empty configuration leaves the old one. -/
def copyWrites (config : Bytes) (index term : Nat) : Option (List DiskWrite) :=
  if config = [] then some [.stat 8 (word index), .stat 16 (word term)]
  else
    (growths f.factor (statHasRoom config) (config.length + statesSize + 1) f.stat.length).map
      fun sizes => sizes.map .growStat ++ [.stat 0 (statesBytes config index term)]

def copyStates (config : Bytes) (index term : Nat) : Option LogFile :=
  (f.copyWrites config index term).map fun ws => { f with toDisk := f.toDisk.writes ws }

/-! ### `drop` -/

def configUpTo (index : Nat) : Option Bytes :=
  (f.cfgBelow (index + 1) (f.infos.length + 1) f.cfgEntryIndex).map fun cfg =>
    if cfg = 0 then [] else ((f.get cfg).map (·.data)).getD []

def moveWrites (index : Nat) : Option (List DiskWrite) := do
  let first ← f.infos[1]?
  let m ← f.infos[index + 1 - f.lastIndex]?
  let moved := slice f.ldbs m.amount (f.tailEnd - m.amount)
  some [.ldbs first.amount moved, .ldbs (first.amount + moved.length) (word 0)]

/-- `drop` before its `copy`: how the log file and the vectors change. -/
def dropEntries (index : Nat) : Option (List DiskWrite × List LogEntryInfo × Nat) :=
  if index = f.backIndex then
    (f.chopWrites (f.lastIndex + 1)).bind fun ws =>
      f.infos[1]?.map fun first => (ws, f.infos.take 1, first.amount)
  else do
    let first ← f.infos[1]?
    let m ← f.infos[index + 1 - f.lastIndex]?
    let dropped := m.amount - first.amount
    let ws ← f.moveWrites index
    some (ws,
      f.infos.take 1 ++ (f.infos.drop (1 + (index - f.lastIndex))).map fun i =>
        { i with amount := i.amount - dropped },
      f.payloadSize - dropped)

def dropWrites (index : Nat) : Option (List DiskWrite) := do
  let config ← f.configUpTo index
  let e ← f.get index
  let d ← f.dropEntries index
  let ws ← f.copyWrites config index e.term
  some (d.1 ++ ws)

def drop (index : Nat) : Option (LogFile × Answer) :=
  let cfg := if f.cfgEntryIndex ≤ index then 0 else f.cfgEntryIndex
  if f.outOfRange index then some (f, .oor)
  else if index = f.backIndex ∧ f.outOfRange (f.lastIndex + 1) then
    -- the nested `chop` refuses
    (f.configUpTo index).map fun _ => ({ f with cfgEntryIndex := cfg }, .oor)
  else do
    let d ← f.dropEntries index
    let ws ← f.dropWrites index
    some ({ f with
      toDisk := f.toDisk.writes ws
      infos := d.2.1
      payloadSize := d.2.2
      cfgEntryIndex := cfg }, .good)

end LogFile

end Draft
