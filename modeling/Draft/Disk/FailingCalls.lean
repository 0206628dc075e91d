import Draft.Disk.Chain
import Draft.Disk.Reopening

/-!
# Appending while system calls fail

`append` maps the log file anew when it has to grow, and syncs the range it has
written.  Both may fail: a failed growth comes before the entries are copied but
leaves the file marked as not mapped, a failed sync comes behind all changes.
The branch of `remap` without `mremap` is the one that is compiled.
-/

namespace Draft

open Disk

inductive RcErrno where
  | mmapNotMapped
  | mmapError
  | oom
  | good
  deriving DecidableEq, Repr

/-- What a system call does: it succeeds, or it fails with `ENOMEM` or with another error. -/
inductive CallResult where
  | ok
  | noMemory
  | error
  deriving DecidableEq, Repr

/-- The result of the next system call; behind the given ones all succeed. -/
def nextCall : List CallResult → CallResult × List CallResult
  | [] => (.ok, [])
  | result :: rest => (result, rest)

structure MappedLog extends LogFile where
  mapped : Bool
  deriving DecidableEq, Repr

namespace MappedLog

variable (m : MappedLog)

/--
`remap`.  The flag is taken down first, so that `unmap` returns at once and the
old mapping stays where it is.
-/
def remap (newSize : Nat) (calls : List CallResult) : MappedLog × RcErrno × List CallResult :=
  if m.mapped = false then (m, .mmapNotMapped, calls)
  else
    let unmapped := { m with mapped := false }
    -- `ftruncate`, then `mmap`
    match nextCall calls with
    | (.ok, calls) =>
        match nextCall calls with
        | (.ok, calls) =>
            ({ m with ldbs := resize m.ldbs (roundUp pageSize newSize) }, .good, calls)
        | (.noMemory, calls) => (unmapped, .oom, calls)
        | (.error, calls) => (unmapped, .mmapError, calls)
    | (_, calls) => (unmapped, .mmapError, calls)

def growLdbs (calls : List CallResult) : MappedLog × RcErrno × List CallResult :=
  m.remap ⌊m.ldbs.length * m.factor⌋₊ calls

def syncRange (calls : List CallResult) : RcErrno × List CallResult :=
  if m.mapped = false then (.mmapNotMapped, calls)
  else
    match nextCall calls with
    | (.ok, calls) => (.good, calls)
    | (_, calls) => (.mmapError, calls)

/-- The first loop of `append`; `none` when it does not end. -/
def grow (batch : List LogEntry) :
    Nat → MappedLog → List CallResult → Option (MappedLog × RcErrno × List CallResult)
  | 0, _, _ => none
  | fuel + 1, m, calls =>
      if m.hasRoom batch m.ldbs.length then some (m, .good, calls)
      else
        match m.growLdbs calls with
        | (m, .good, calls) => grow batch fuel m calls
        | failed => some failed

def copyIn (batch : List LogEntry) : MappedLog :=
  { m with
    toDisk := m.toDisk.writes (LogFile.entryWrites m.tailEnd batch)
    infos := m.infos ++ LogFile.placed m.tailEnd batch
    payloadSize := m.payloadSize + LogFile.batchSize batch
    cfgEntryIndex := batch.foldl (fun cfg e => if e.config then e.index else cfg) m.cfgEntryIndex }

def fuel (batch : List LogEntry) : Nat := m.payloadSize + LogFile.batchSize batch + 10

def append (batch : List LogEntry) (sync : Bool) (calls : List CallResult) :
    Option (MappedLog × RcErrno × List CallResult) :=
  match grow batch (m.fuel batch) m calls with
  | some (m, .good, calls) =>
      let m := m.copyIn batch
      if sync then some (m, m.syncRange calls) else some (m, .good, calls)
  | failed => failed

def sizes (batch : List LogEntry) : Option (List Nat) :=
  growths m.factor (m.hasRoom batch) (m.fuel batch) m.ldbs.length

/-- None of the system calls that growing takes fails: two for each size. -/
def Grows (batch : List LogEntry) (calls : List CallResult) : Prop :=
  ∀ sizes ∈ m.sizes batch, ∀ result ∈ calls.take (2 * sizes.length), result = .ok

def Syncs (batch : List LogEntry) (sync : Bool) (calls : List CallResult) : Prop :=
  sync = true → ∀ sizes ∈ m.sizes batch, (nextCall (calls.drop (2 * sizes.length))).1 = .ok

/-- The log is as it was, and it can still be appended to. -/
structure Keeps (m m' : MappedLog) : Prop where
  infos : m'.infos = m.infos
  payload : m'.payload = m.payload
  cfgEntryIndex : m'.cfgEntryIndex = m.cfgEntryIndex
  lastEntryIndex : m'.lastEntryIndex = m.lastEntryIndex
  get : ∀ index, m'.get index = m.get index
  later : ∀ (batch : List LogEntry) (sync : Bool), (m'.toLogFile.append batch).isSome →
    ∃ n, m'.append batch sync [] = some (n, .good, [])

end MappedLog

/-! ## Growing -/

private theorem length_resize (file : Bytes) (size : Nat) : (resize file size).length = size := by
  simp [resize]
  omega

namespace LogFile.Stores

variable {f : LogFile} {log : EntryLogger}

private theorem resized (h : f.Stores log) {size : Nat} (hle : f.ldbs.length ≤ size)
    (hpages : size % pageSize = 0) : Stores { f with ldbs := resize f.ldbs size } log := by
  constructor
  case image =>
    obtain ⟨rest, himage⟩ := h.image
    refine ⟨rest ++ List.replicate (size - f.ldbs.length) 0, ?_⟩
    rw [resize_eq hle, himage]
    simp
  case ldbsPages =>
    rw [length_resize]
    exact hpages
  case states => exact h.states
  case infos => exact h.infos
  case payload => exact h.payload
  case cfg => exact h.cfg
  case consecutive => exact h.consecutive
  case fits => exact h.fits
  case lastIndex => exact h.lastIndex
  case lastTerm => exact h.lastTerm
  case lastConfig => exact h.lastConfig
  case cfgEntryIndex => exact h.cfgEntryIndex
  case factor => exact h.factor
  case statPages => exact h.statPages

end LogFile.Stores

namespace MappedLog

variable {m m' : MappedLog} {log : EntryLogger} {batch : List LogEntry} {calls : List CallResult}

def resized (m : MappedLog) (size : Nat) : MappedLog := { m with ldbs := resize m.ldbs size }

private theorem growLdbs_cases (hmapped : m.mapped = true) (calls : List CallResult) :
    (∀ result ∈ calls.take 2, result = .ok) ∧
        m.growLdbs calls =
          (m.resized (grownSize m.factor m.ldbs.length), .good, calls.drop 2) ∨
      (¬ ∀ result ∈ calls.take 2, result = .ok) ∧
        ∃ rc rest, rc ≠ .good ∧ m.growLdbs calls = ({ m with mapped := false }, rc, rest) := by
  unfold growLdbs remap
  rw [if_neg (by simp [hmapped])]
  cases calls with
  | nil => exact .inl ⟨by simp, rfl⟩
  | cons truncated calls =>
      cases truncated with
      | noMemory => exact .inr ⟨by simp, _, _, by simp, rfl⟩
      | error => exact .inr ⟨by simp, _, _, by simp, rfl⟩
      | ok =>
          cases calls with
          | nil => exact .inl ⟨by simp, rfl⟩
          | cons placed calls =>
              cases placed with
              | ok => exact .inl ⟨by simp, rfl⟩
              | noMemory => exact .inr ⟨by simp, _, _, by simp, rfl⟩
              | error => exact .inr ⟨by simp, _, _, by simp, rfl⟩

private theorem stores_resized {factor : ℚ} {enough : Nat → Bool} {fuel : Nat} {sizes : List Nat}
    (h : m.Stores log) (hfactor : factor = m.factor)
    (hsizes : growths factor enough fuel m.ldbs.length = some sizes) (n : Nat) :
    ((sizes.take n).foldl resized m).Stores log := by
  induction fuel generalizing m sizes n with
  | zero => cases hsizes
  | succ fuel ih =>
      rw [growths] at hsizes
      split at hsizes
      · cases hsizes
        rw [List.take_nil]
        exact h
      · obtain ⟨rest, hrest, rfl⟩ := Option.map_eq_some_iff.mp hsizes
        cases n with
        | zero => exact h
        | succ n =>
            subst hfactor
            have hgrown : (m.resized (grownSize m.factor m.ldbs.length)).Stores log :=
              h.resized (grownSize_ge h.factor _) (roundUp_mod _ _)
            rw [List.take_succ_cons, List.foldl_cons]
            refine ih hgrown rfl ?_ n
            rw [resized, length_resize]
            exact hrest

private theorem grow_cases {fuel : Nat} {sizes : List Nat} (hmapped : m.mapped = true)
    (hsizes : growths m.factor (m.hasRoom batch) fuel m.ldbs.length = some sizes) :
    (∀ result ∈ calls.take (2 * sizes.length), result = .ok) ∧
        grow batch fuel m calls =
          some (sizes.foldl resized m, .good, calls.drop (2 * sizes.length)) ∨
      (¬ ∀ result ∈ calls.take (2 * sizes.length), result = .ok) ∧
        ∃ n rc rest, rc ≠ .good ∧ grow batch fuel m calls =
          some ({ (sizes.take n).foldl resized m with mapped := false }, rc, rest) := by
  induction fuel generalizing m calls sizes with
  | zero => cases hsizes
  | succ fuel ih =>
      rw [growths] at hsizes
      rw [grow]
      split at hsizes
      · cases hsizes
        rename_i hroom
        rw [if_pos hroom]
        exact .inl ⟨by simp, rfl⟩
      · rename_i hroom
        obtain ⟨rest, hrest, rfl⟩ := Option.map_eq_some_iff.mp hsizes
        rw [if_neg hroom]
        have hlength : 2 * (grownSize m.factor m.ldbs.length :: rest).length =
            2 + 2 * rest.length := by
          rw [List.length_cons]
          omega
        have hsplit : (∀ result ∈ calls.take (2 + 2 * rest.length), result = .ok) ↔
            (∀ result ∈ calls.take 2, result = .ok) ∧
              ∀ result ∈ (calls.drop 2).take (2 * rest.length), result = .ok := by
          rw [List.take_add, List.forall_mem_append]
        rw [hlength, hsplit, ← List.drop_drop]
        rcases growLdbs_cases hmapped calls with ⟨hok, hgrow⟩ | ⟨hfails, rc, rest', hrc, hgrow⟩
        · have hnext : growths m.factor (m.hasRoom batch) fuel
              (m.resized (grownSize m.factor m.ldbs.length)).ldbs.length = some rest := by
            rw [resized, length_resize]
            exact hrest
          rw [hgrow]
          rcases @ih (m.resized (grownSize m.factor m.ldbs.length)) (calls.drop 2) rest hmapped
            hnext with ⟨hrest, hends⟩ | ⟨hrest, n, rc, rest', hrc, hends⟩
          · exact .inl ⟨⟨hok, hrest⟩, hends⟩
          · exact .inr ⟨fun h => hrest h.2, n + 1, rc, rest', hrc, hends⟩
        · rw [hgrow]
          refine .inr ⟨fun h => hfails h.1, 0, rc, rest', hrc, ?_⟩
          cases rc with
          | good => exact absurd rfl hrc
          | mmapNotMapped | mmapError | oom => rfl

/-! ## Answers -/

private theorem foldl_resized (sizes : List Nat) :
    ∃ file, sizes.foldl resized m = { m with ldbs := file } := by
  induction sizes generalizing m with
  | nil => exact ⟨m.ldbs, rfl⟩
  | cons size sizes ih =>
      obtain ⟨file, hfile⟩ := ih (m := m.resized size)
      exact ⟨file, hfile⟩

private theorem writes_growLdbs (sizes : List Nat) :
    (sizes.foldl resized m).toDisk = m.toDisk.writes (sizes.map .growLdbs) := by
  induction sizes generalizing m with
  | nil => rfl
  | cons size sizes ih => exact ih (m := m.resized size)

private theorem sizes_isSome (h : m.Stores log) (hfactor : m.factor = 5 / 4) (batch : List LogEntry) :
    (m.sizes batch).isSome := by
  have hlength := h.image_length
  have henough : ∀ size, m.payloadSize + LogFile.batchSize batch + 9 ≤ size →
      m.hasRoom batch size = true := by
    intro size hle
    rw [LogFile.hasRoom, decide_eq_true_eq]
    omega
  rw [sizes, hfactor]
  exact growths_isSome (fun size => lt_grownSize_default) henough (by omega)
    (by unfold fuel; omega) (by unfold fuel; omega)

private theorem stores_tailEnd (h : m.Stores log) (h' : m'.Stores log) : m'.tailEnd = m.tailEnd := by
  rw [h.tailEnd_eq, h'.tailEnd_eq]

private theorem append_grown {sizes : List Nat} (hgrow : grow batch (m.fuel batch) m calls =
    some (sizes.foldl resized m, .good, calls.drop (2 * sizes.length))) (sync : Bool) :
    m.append batch sync calls = some ((sizes.foldl resized m).copyIn batch,
      if sync then ((sizes.foldl resized m).copyIn batch).syncRange
        (calls.drop (2 * sizes.length)) else (.good, calls.drop (2 * sizes.length))) := by
  unfold append
  rw [hgrow]
  cases sync <;> rfl

private theorem append_succeeds (h : m.Stores log) (hmapped : m.mapped = true) {f : LogFile} (sync : Bool)
    (happend : m.toLogFile.append batch = some f) :
    m.append batch sync [] = some ({ toLogFile := f, mapped := true }, .good, []) := by
  obtain ⟨ws, hws, hf⟩ := Option.map_eq_some_iff.mp happend
  obtain ⟨sizes, hsizes, rfl⟩ := Option.map_eq_some_iff.mp hws
  rcases @grow_cases m batch [] _ _ hmapped hsizes with ⟨-, hgrow⟩ | ⟨hfails, -⟩
  · have hgrown := stores_resized h rfl hsizes sizes.length
    rw [List.take_length] at hgrown
    have htail := stores_tailEnd h hgrown
    have hdisk := writes_growLdbs (m := m) sizes
    obtain ⟨file, hfile⟩ := foldl_resized (m := m) sizes
    have hcopied : (sizes.foldl resized m).copyIn batch = { toLogFile := f, mapped := true } := by
      rw [← hf, copyIn, htail, hdisk, ← Disk.writes_append, hfile, hmapped]
    rw [append_grown hgrow, hcopied, List.drop_nil]
    cases sync <;> rfl
  · exact absurd (by simp) hfails

private theorem append_unmapped (hmapped : m.mapped = false) (batch : List LogEntry) (n : MappedLog) :
    m.append batch true [] ≠ some (n, .good, []) := by
  unfold append fuel
  rw [grow]
  split
  · rename_i hgood
    split at hgood
    · simp only [Option.some.injEq, Prod.mk.injEq] at hgood
      obtain ⟨rfl, -, rfl⟩ := hgood
      simp [syncRange, copyIn, hmapped]
    · simp [growLdbs, remap, hmapped] at hgood
  · rename_i hgood
    intro heq
    exact hgood _ _ heq

/-! ## Appending -/

/-- A growth that has failed leaves a file that cannot be synced any more. -/
theorem not_keeps_of_unmapped (h : m'.Stores log) (hfactor : m'.factor = 5 / 4)
    (hunmapped : m'.mapped = false) : ¬ Keeps m m' := by
  intro hkeeps
  have hfits : (m'.toLogFile.append []).isSome := by
    have hsizes := sizes_isSome h hfactor []
    unfold LogFile.append LogFile.appendWrites
    rw [Option.isSome_map, Option.isSome_map]
    exact hsizes
  obtain ⟨n, hn⟩ := hkeeps.later [] true hfits
  exact append_unmapped hunmapped [] n hn

private theorem not_keeps_of_copied {sizes : List Nat} (hbatch : batch ≠ []) :
    ¬ Keeps m ((sizes.foldl resized m).copyIn batch) := by
  intro hkeeps
  obtain ⟨file, hfile⟩ := foldl_resized (m := m) sizes
  have hinfos := congrArg List.length hkeeps.infos
  rw [hfile] at hinfos
  cases batch with
  | nil => exact hbatch rfl
  | cons e batch => simp [copyIn, LogFile.placed] at hinfos

private theorem keeps_of_empty (h : m.Stores log) (hmapped : m.mapped = true) {sizes : List Nat}
    (hsizes : m.sizes [] = some sizes) :
    Keeps m ((sizes.foldl resized m).copyIn []) := by
  have happends : (m.toLogFile.append []).isSome := by
    unfold LogFile.append LogFile.appendWrites
    rw [Option.isSome_map, Option.isSome_map]
    exact Option.isSome_iff_exists.mpr ⟨sizes, hsizes⟩
  obtain ⟨f, hf⟩ := Option.isSome_iff_exists.mp happends
  have hcopied : (sizes.foldl resized m).copyIn [] = { toLogFile := f, mapped := true } := by
    rcases @grow_cases m [] [] _ _ hmapped hsizes with ⟨-, hgrow⟩ | ⟨hfails, -⟩
    · have hboth := (append_grown hgrow false).symm.trans (append_succeeds h hmapped false hf)
      simpa using congrArg (Option.map (·.1)) hboth
    · exact absurd (by simp) hfails
  have hsame : log.append [] = log := by simp [EntryLogger.append]
  have hstores : f.Stores log := by
    have hconsecutive : (log.append []).Consecutive := by
      rw [hsame]
      exact h.consecutive
    have happended := h.append (by simp) hconsecutive hf
    rwa [hsame] at happended
  obtain ⟨ws, -, hf⟩ := Option.map_eq_some_iff.mp hf
  rw [hcopied]
  constructor
  case infos =>
    rw [← hf]
    exact List.append_nil _
  case payload =>
    rw [← hf]
    rfl
  case cfgEntryIndex =>
    rw [← hf]
    rfl
  case lastEntryIndex =>
    change f.lastEntryIndex = m.lastEntryIndex
    rw [hstores.lastEntryIndex_eq, h.lastEntryIndex_eq]
  case get =>
    intro index
    change f.get index = m.get index
    rw [hstores.get_eq, h.get_eq]
  case later =>
    intro batch sync hlater
    obtain ⟨g, hg⟩ := Option.isSome_iff_exists.mp hlater
    exact ⟨_, append_succeeds hstores rfl sync hg⟩

private theorem syncRange_good (hmapped : m.mapped = true) :
    (m.syncRange calls).1 = .good ↔ (nextCall calls).1 = .ok := by
  unfold syncRange
  rw [if_neg (by simp [hmapped])]
  rcases nextCall calls with ⟨result, rest⟩
  cases result <;> simp

/--
An `append` that fails leaves the log as it was exactly when growing the file
does not fail, and neither does the sync unless there are no entries to append.
-/
theorem failed_append_keeps {rc : RcErrno} {sync : Bool} {rest : List CallResult}
    (hstores : m.Stores log) (hmapped : m.mapped = true) (hfactor : m.factor = 5 / 4)
    (happend : m.append batch sync calls = some (m', rc, rest)) :
    (rc ≠ .good → Keeps m m') ↔
      m.Grows batch calls ∧ (batch = [] ∨ m.Syncs batch sync calls) := by
  obtain ⟨sizes, hsizes⟩ := Option.isSome_iff_exists.mp (sizes_isSome hstores hfactor batch)
  have hgrows : m.Grows batch calls ↔
      ∀ result ∈ calls.take (2 * sizes.length), result = .ok := by
    simp [Grows, hsizes]
  rcases @grow_cases m batch calls _ _ hmapped hsizes with
    ⟨hok, hgrow⟩ | ⟨hfails, n, rc', rest', hrc', hgrow⟩
  · have hgrown := append_grown hgrow sync
    rw [happend, Option.some.injEq, Prod.mk.injEq] at hgrown
    obtain ⟨rfl, hanswer⟩ := hgrown
    by_cases hbatch : batch = []
    · subst hbatch
      exact iff_of_true (fun _ => keeps_of_empty hstores hmapped hsizes) ⟨hgrows.mpr hok, .inl rfl⟩
    · have hgood : rc = .good ↔ m.Syncs batch sync calls := by
        obtain ⟨file, hfile⟩ := foldl_resized (m := m) sizes
        have hstill : ((sizes.foldl resized m).copyIn batch).mapped = true := by
          rw [hfile]
          exact hmapped
        have hrc := congrArg Prod.fst hanswer
        cases sync with
        | false => simp [Syncs, show rc = .good from hrc]
        | true =>
            rw [show rc = _ from hrc, if_pos rfl, syncRange_good hstill]
            simp [Syncs, hsizes]
      constructor
      · intro hkeeps
        by_contra hnot
        have hfailed : rc ≠ .good := fun hrc => hnot ⟨hgrows.mpr hok, .inr (hgood.mp hrc)⟩
        exact not_keeps_of_copied hbatch (hkeeps hfailed)
      · rintro ⟨-, hcond⟩ hfailed
        exact absurd (hgood.mpr (hcond.resolve_left hbatch)) hfailed
  · have hleft : m' = { (sizes.take n).foldl resized m with mapped := false } ∧ rc = rc' := by
      unfold append at happend
      rw [hgrow] at happend
      cases rc' with
      | good => exact absurd rfl hrc'
      | mmapNotMapped | mmapError | oom =>
          simp only [Option.some.injEq, Prod.mk.injEq] at happend
          exact ⟨happend.1.symm, happend.2.1.symm⟩
    obtain ⟨rfl, rfl⟩ := hleft
    have hresized := stores_resized hstores rfl hsizes n
    have hfactor' : ((sizes.take n).foldl resized m).factor = 5 / 4 := by
      obtain ⟨file, hfile⟩ := foldl_resized (m := m) (sizes.take n)
      rw [hfile]
      exact hfactor
    have hlost : ¬ Keeps m { (sizes.take n).foldl resized m with mapped := false } :=
      not_keeps_of_unmapped hresized hfactor' rfl
    exact iff_of_false (fun h => hlost (h hrc')) fun h => hfails (hgrows.mp h.1)

private theorem sizes_of_room (h : m.hasRoom batch m.ldbs.length = true) : m.sizes batch = some [] := by
  unfold sizes fuel
  rw [growths, if_pos h]

private theorem new_hasRoom {f : LogFile} (h : LogFile.init (5 / 4) none none = some f)
    (hbatch : LogFile.batchSize batch ≤ 64) : f.hasRoom batch f.ldbs.length = true := by
  have hstores := LogFile.Stores.init_new (by norm_num) h
  have hpayload : f.payloadSize = 40 := hstores.payload
  have hlength := hstores.image_length
  have hpages := hstores.ldbsPages
  unfold pageSize at hpages
  rw [LogFile.hasRoom, decide_eq_true_eq, hpayload]
  omega

private theorem new_isSome : (LogFile.init (5 / 4) none none).isSome := by decide +kernel

private theorem append_unsynced (hmapped : m.mapped = true)
    (hroom : m.hasRoom batch m.ldbs.length = true) :
    m.append batch true [.error] = some (m.copyIn batch, .mmapError, []) := by
  rcases @grow_cases m batch [.error] _ _ hmapped (sizes_of_room hroom) with
    ⟨-, hgrow⟩ | ⟨hfails, -⟩
  · rw [append_grown hgrow, if_pos rfl]
    unfold syncRange
    rw [if_neg (by simp [copyIn, hmapped])]
    rfl
  · exact absurd (by simp) hfails

theorem failed_append_keeps_empty :
    ∃ (m m' : MappedLog) (rc : RcErrno) (rest : List CallResult),
      m.append [] true [.error] = some (m', rc, rest) ∧ rc ≠ .good ∧ Keeps m m' := by
  obtain ⟨f, hf⟩ := Option.isSome_iff_exists.mp new_isSome
  let m : MappedLog := { toLogFile := f, mapped := true }
  have hstores := LogFile.Stores.init_new (by norm_num) hf
  have hroom : f.hasRoom [] f.ldbs.length = true := new_hasRoom hf (by decide)
  have happend := append_unsynced (m := m) rfl hroom
  have hfactor : m.factor = 5 / 4 := LogFile.init_factor hf
  have hsizes : m.sizes [] = some [] := sizes_of_room hroom
  have hgrows : m.Grows [] [.error] := by simp [Grows, hsizes]
  have hfailed : RcErrno.mmapError ≠ .good := by decide
  exact ⟨m, _, _, _, happend, hfailed,
    (failed_append_keeps hstores rfl hfactor happend).mpr ⟨hgrows, .inl rfl⟩ hfailed⟩

/-- The entry of a client stays in the log when its sync fails. -/
theorem append_unsynced_stays :
    ¬ ∀ (m m' : MappedLog) (log : EntryLogger) (batch : List LogEntry) (sync : Bool)
        (calls rest : List CallResult) (rc : RcErrno), m.Stores log → m.mapped = true →
      m.factor = 5 / 4 → m.append batch sync calls = some (m', rc, rest) → rc ≠ .good →
      Keeps m m' := by
  intro h
  obtain ⟨f, hf⟩ := Option.isSome_iff_exists.mp new_isSome
  let m : MappedLog := { toLogFile := f, mapped := true }
  let e : LogEntry :=
    { term := 1, index := 1, data := ascii "set k v", config := false, prevCfg := 0 }
  have hstores := LogFile.Stores.init_new (by norm_num) hf
  have hroom : f.hasRoom [e] f.ldbs.length = true := new_hasRoom hf (by decide)
  have hfactor : m.factor = 5 / 4 := LogFile.init_factor hf
  have hkeeps := h m _ _ [e] true _ _ _ hstores rfl hfactor (append_unsynced rfl hroom)
    (by decide)
  exact @not_keeps_of_copied m [e] [] (List.cons_ne_nil e []) hkeeps

end MappedLog

end Draft
