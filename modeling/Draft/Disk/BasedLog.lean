import Draft.Disk.Chain
import Draft.Disk.Reopening

/-!
# A list with a base

What the log is for: a base, which is an index and a term, and the entries
numbered from the base on.  The logger and its two files stand for such a list,
and every run of its operations is a run of the operations on the list.
-/

namespace Draft

open Disk Consensus LogFile

/-! ## Numbered entries -/

/-- `sizeof(log_entry)` and what follows it, on the boundary of a word. -/
def Entry.size (e : Entry) : Nat :=
  roundUp logEntryAlignment (logEntrySize + (e.data.length + if e.config then 8 else 0))

def Numbered : Nat → List Entry → Prop
  | _, [] => True
  | base, e :: es => e.index = base + 1 ∧ Numbered (base + 1) es

namespace Numbered

variable {base i : Nat} {es fs : List Entry}

theorem append : Numbered base (es ++ fs) ↔
    Numbered base es ∧ Numbered (base + es.length) fs := by
  induction es generalizing base with
  | nil => simp [Numbered]
  | cons e es ih =>
      have hlength : base + 1 + es.length = base + (e :: es).length := by simp; omega
      simp only [List.cons_append, Numbered, ih, and_assoc, hlength]

theorem lastIndex (h : Numbered base es) :
    (es.getLast?.map (·.index)).getD base = base + es.length := by
  induction es generalizing base with
  | nil => rfl
  | cons e es ih =>
      have := ih h.2
      rw [List.getLast?_cons]
      cases hlast : es.getLast? with
      | none =>
          rw [List.getLast?_eq_none_iff.mp hlast]
          simpa using h.1
      | some last =>
          simp only [hlast, Option.map_some, Option.getD_some, List.length_cons] at this ⊢
          omega

private theorem find?_eq (h : Numbered base es) :
    es.find? (·.index = i) = if base < i then es[i - base - 1]? else none := by
  induction es generalizing base with
  | nil => simp
  | cons e es ih =>
      obtain ⟨he, hes⟩ := h
      by_cases hi : base + 1 = i
      · simp [he, ← hi]
      · rw [List.find?_cons_of_neg (by simpa [he] using hi), ih hes]
        by_cases hlt : base + 1 < i
        · obtain ⟨k, hk⟩ : ∃ k, i - base - 1 = k + 1 := ⟨i - base - 2, by omega⟩
          have hk' : i - (base + 1) - 1 = k := by omega
          rw [if_pos hlt, if_pos (by omega), hk, hk']
          rfl
        · rw [if_neg hlt, if_neg (by omega)]

private theorem index_gt (h : Numbered base es) : ∀ e ∈ es, base < e.index := by
  induction es generalizing base with
  | nil => simp
  | cons e es ih =>
      intro x hx
      rcases List.mem_cons.mp hx with rfl | hx
      · have := h.1
        omega
      · have := ih h.2 x hx
        omega

private theorem filter_lt (h : Numbered base es) :
    es.filter (·.index < i) = es.take (i - base - 1) := by
  induction es generalizing base with
  | nil => simp
  | cons e es ih =>
      obtain ⟨he, hes⟩ := h
      by_cases hi : base + 1 < i
      · obtain ⟨k, hk⟩ : ∃ k, i - base - 1 = k + 1 := ⟨i - base - 2, by omega⟩
        have hk' : i - (base + 1) - 1 = k := by omega
        rw [List.filter_cons_of_pos (by simpa [he] using hi), ih hes, hk, hk', List.take_succ_cons]
      · have hzero : i - base - 1 = 0 := by omega
        rw [hzero, List.take_zero, List.filter_eq_nil_iff]
        intro x hx
        have hall : Numbered base (e :: es) := ⟨he, hes⟩
        have := hall.index_gt x hx
        simp only [decide_eq_true_eq]
        omega

private theorem filter_gt (h : Numbered base es) (hi : base ≤ i) :
    es.filter (i < ·.index) = es.drop (i - base) := by
  induction es generalizing base with
  | nil => simp
  | cons e es ih =>
      obtain ⟨he, hes⟩ := h
      by_cases hbase : base = i
      · have hzero : i - base = 0 := by omega
        rw [hzero, List.drop_zero, List.filter_eq_self]
        intro x hx
        have hall : Numbered base (e :: es) := ⟨he, hes⟩
        have := hall.index_gt x hx
        simp only [decide_eq_true_eq]
        omega
      · obtain ⟨k, hk⟩ : ∃ k, i - base = k + 1 := ⟨i - base - 1, by omega⟩
        have hk' : i - (base + 1) = k := by omega
        rw [List.filter_cons_of_neg (by simp only [he, decide_eq_true_eq]; omega),
          ih hes (by omega), hk, hk', List.drop_succ_cons]

theorem take (h : Numbered base es) (k : Nat) : Numbered base (es.take k) := by
  rw [← List.take_append_drop k es] at h
  exact (append.mp h).1

theorem drop (h : Numbered base es) {k : Nat} (hk : k ≤ es.length) :
    Numbered (base + k) (es.drop k) := by
  rw [← List.take_append_drop k es] at h
  have := (append.mp h).2
  rwa [List.length_take, Nat.min_eq_left hk] at this

end Numbered

def number (index : Nat) : List (Nat × Bytes × Bool) → List Entry
  | [] => []
  | (term, data, cfg) :: rest =>
      { term := term, index := index, data := data, config := cfg } :: number (index + 1) rest

private theorem numbered_number (base : Nat) (batch : List (Nat × Bytes × Bool)) :
    Numbered base (number (base + 1) batch) := by
  induction batch generalizing base with
  | nil => trivial
  | cons b rest ih => exact ⟨rfl, ih (base + 1)⟩

def LogFile.LogOp.onEntries : LogOp → Bool
  | .install _ _ _ => false
  | _ => true

/-! ## The list -/

structure BasedLog where
  index : Nat
  term : Nat
  entries : List Entry
  numbered : Numbered index entries

namespace BasedLog

variable (l : BasedLog)

def empty : BasedLog := ⟨0, 0, [], trivial⟩

def held (i : Nat) : Option Entry := l.entries.find? (·.index = i)

/-- The sentry has index 0. -/
def lookup (i : Nat) : Option Entry := if i = 0 then some logEntrySentry.toEntry else l.held i

def hasEntry (i t : Nat) : Bool :=
  match l.lookup i with
  | none => l.index = i && l.term = t
  | some e => e.term = t

def entryConflicted (i t : Nat) : Bool := (l.lookup i).any (·.term ≠ t)

def lastIndex : Nat := (l.entries.getLast?.map (·.index)).getD l.index

def lastTerm : Nat := (l.entries.getLast?.map (·.term)).getD l.term

def infos : List Entry := logEntrySentry.toEntry :: l.entries

def offset (k : Nat) : Nat := ((l.infos.take k).map Entry.size).sum

theorem lastIndex_eq : l.lastIndex = l.index + l.entries.length := l.numbered.lastIndex

private theorem held_eq (i : Nat) :
    l.held i = if l.index < i then l.entries[i - l.index - 1]? else none :=
  l.numbered.find?_eq

private theorem held_bounds {l : BasedLog} {i : Nat} {e : Entry} (h : l.held i = some e) :
    l.index < i ∧ i ≤ l.index + l.entries.length := by
  rw [held_eq, Option.ite_none_right_eq_some] at h
  have := (List.getElem?_eq_some_iff.mp h.2).1
  omega

def append (batch : List (Nat × Bytes × Bool)) : BasedLog where
  index := l.index
  term := l.term
  entries := l.entries ++ number (l.lastIndex + 1) batch
  numbered := by
    refine Numbered.append.mpr ⟨l.numbered, ?_⟩
    rw [l.lastIndex_eq]
    exact numbered_number _ batch

def chop (i : Nat) : Option BasedLog :=
  (l.held i).map fun _ =>
    { index := l.index
      term := l.term
      entries := l.entries.filter (·.index < i)
      numbered := by
        rw [l.numbered.filter_lt]
        exact l.numbered.take _ }

/-- The entries above `i` over `i` and its term, if `i` is held. -/
def drop (i : Nat) : Option BasedLog :=
  match h : l.held i with
  | none => none
  | some e => some
    { index := i
      term := e.term
      entries := l.entries.filter (i < ·.index)
      numbered := by
        obtain ⟨hlt, hle⟩ := held_bounds h
        have hbase : l.index + (i - l.index) = i := by omega
        have hdrop := l.numbered.drop (k := i - l.index) (by omega)
        rw [l.numbered.filter_gt hlt.le]
        rwa [hbase] at hdrop }

private theorem chop_held {l : BasedLog} {i : Nat} {e : Entry} (h : l.held i = some e) :
    ∃ l', l.chop i = some l' ∧ l'.index = l.index ∧ l'.term = l.term ∧
      l'.entries = l.entries.filter (·.index < i) :=
  ⟨_, congrArg (Option.map _) h, rfl, rfl, rfl⟩

private theorem drop_held {l : BasedLog} {i : Nat} {e : Entry} (h : l.held i = some e) :
    ∃ l', l.drop i = some l' ∧ l'.index = i ∧ l'.term = e.term ∧
      l'.entries = l.entries.filter (i < ·.index) := by
  unfold drop
  split
  · rename_i hnone
    rw [h] at hnone
    cases hnone
  · rename_i e' he'
    rw [h, Option.some.injEq] at he'
    subst he'
    exact ⟨_, rfl, rfl, rfl, rfl⟩

def exec : LogOp → Option BasedLog
  | .append batch => some (l.append batch)
  | .chop i => l.chop i
  | .drop i => l.drop i
  | .install _ _ _ => none

end BasedLog

/-! ## The logger as such a list -/

namespace LogFile

/-- The files hold the entries of the list over its base, at the default growth factor. -/
structure Follows (f : LogFile) (l : BasedLog) (log : EntryLogger) : Prop where
  stores : f.Stores log
  chained : log.Chained
  factor : f.factor = 5 / 4
  index : l.index = log.lastIndex
  term : l.term = log.lastTerm
  entries : l.entries = log.entries.map (·.toEntry)

private theorem map_makeBatch (f : LogFile) (index : Nat) (batch : List (Nat × Bytes × Bool)) :
    (f.makeBatch index batch).map (·.toEntry) = number index batch := by
  induction batch generalizing index with
  | nil => rfl
  | cons b rest ih => exact congrArg _ (ih (index + 1))

private theorem makeBatch_prevCfg (f : LogFile) (index : Nat) (batch : List (Nat × Bytes × Bool))
    {e : LogEntry} (he : e ∈ f.makeBatch index batch) (hcfg : e.config = true) :
    e.prevCfg = f.cfgEntryIndex := by
  induction batch generalizing index with
  | nil => cases he
  | cons b rest ih =>
      rcases List.mem_cons.mp he with rfl | he
      · exact if_pos hcfg
      · exact ih (index + 1) he

private theorem append_factor {f g : LogFile} {batch : List LogEntry} (h : f.append batch = some g) :
    g.factor = f.factor := by
  obtain ⟨ws, -, rfl⟩ := Option.map_eq_some_iff.mp h
  rfl

private theorem chop_factor {f g : LogFile} {i : Nat} {answer : Answer}
    (h : f.chop i = some (g, answer)) : g.factor = f.factor := by
  unfold chop at h
  split at h
  · cases h
    rfl
  · simp only [Option.bind_eq_bind, Option.bind_eq_some_iff] at h
    obtain ⟨cfg, -, m, -, ws, -, hg⟩ := h
    cases hg
    rfl

private theorem drop_factor {f g : LogFile} {i : Nat} (h : f.drop i = some (g, .good)) :
    g.factor = f.factor := by
  unfold drop at h
  dsimp only at h
  split at h
  · cases h
  · split at h
    · simp at h
    · simp only [Option.bind_eq_bind, Option.bind_eq_some_iff] at h
      obtain ⟨d, -, ws, -, hg⟩ := h
      cases hg
      rfl

namespace Follows

variable {f g : LogFile} {l : BasedLog} {log : EntryLogger}

theorem length_eq (h : f.Follows l log) : l.entries.length = log.entries.length := by
  rw [h.entries, List.length_map]

theorem lastIndex_eq (h : f.Follows l log) : f.lastEntryIndex = l.lastIndex := by
  rw [h.stores.lastEntryIndex_eq, h.stores.consecutive.lastEntryIndex_eq, l.lastIndex_eq, h.index,
    h.length_eq]

private theorem held_none (h : f.Follows l log) (i : Nat) :
    l.held i = none ↔ log.outOfRange i = true := by
  rw [← Bool.not_eq_false, h.stores.consecutive.outOfRange_iff, l.held_eq, h.index, h.entries]
  split
  · rw [List.getElem?_eq_none_iff, List.length_map]
    omega
  · simp only [true_iff]
    omega

private theorem lookup_eq (h : f.Follows l log) (i : Nat) : f.get i = l.lookup i := by
  rw [h.stores.get_eq, h.stores.consecutive.get_eq, BasedLog.lookup, l.held_eq, h.index,
    h.entries]
  split
  · rfl
  · split
    · rw [List.getElem?_map]
    · rfl

theorem append (h : f.Follows l log) {batch : List (Nat × Bytes × Bool)}
    (hexec : f.exec (.append batch) = some g) : ∃ log', g.Follows (l.append batch) log' := by
  simp only [exec] at hexec
  split at hexec
  · rename_i hfits
    refine ⟨_, h.stores.append hfits (h.stores.consecutive_append batch) hexec, ?_,
      (append_factor hexec).trans h.factor, h.index, h.term, ?_⟩
    · refine h.chained.append (fun x hx hcfg => ?_) (fun x hx => ?_)
      · rw [makeBatch_prevCfg f _ _ hx hcfg, h.stores.cfg]
      · obtain ⟨k, hk⟩ := List.getElem?_of_mem hx
        have hindex := makeBatch_index f _ _ hk
        rw [h.stores.lastEntryIndex_eq, h.stores.consecutive.lastEntryIndex_eq] at hindex
        rcases h.chained.newest with hle | ⟨y, hy, -, hy'⟩
        · omega
        · have := h.stores.consecutive.mem_bounds hy
          omega
    · simp only [BasedLog.append, EntryLogger.append, List.map_append, map_makeBatch, h.entries,
        h.lastIndex_eq]
  · cases hexec

private theorem chop_oor (h : f.Follows l log) {i : Nat} (hi : l.held i = none) :
    f.chop i = some (f, .oor) := by
  have hrefines := h.stores.chop_refines h.chained i
  rwa [EntryLogger.chop, if_pos ((h.held_none i).mp hi)] at hrefines

private theorem chop_good (h : f.Follows l log) {i : Nat} {e : Entry} (hi : l.held i = some e) :
    ∃ g l' log', f.chop i = some (g, .good) ∧ l.chop i = some l' ∧ g.Follows l' log' := by
  have hrange : log.outOfRange i = false := by
    rw [← Bool.not_eq_true, ← h.held_none, hi]
    simp
  have hrefines := h.stores.chop_refines h.chained i
  rw [EntryLogger.chop, if_neg (by simp [hrange])] at hrefines
  obtain ⟨g, hg, hstores, hchained⟩ := hrefines
  obtain ⟨l', hl', hindex, hterm, hentries⟩ := BasedLog.chop_held hi
  refine ⟨g, l', _, hg, hl', hstores, hchained, (chop_factor hg).trans h.factor,
    hindex.trans h.index, hterm.trans h.term, ?_⟩
  rw [hentries, l.numbered.filter_lt, h.entries, h.index, ← List.map_take]

private theorem drop_oor (h : f.Follows l log) {i : Nat} (hi : l.held i = none) :
    f.drop i = some (f, .oor) := by
  have hrefines := h.stores.drop_refines h.chained h.factor i
  rwa [EntryLogger.drop, if_pos ((h.held_none i).mp hi)] at hrefines

private theorem drop_good (h : f.Follows l log) {i : Nat} {e : Entry} (hi : l.held i = some e) :
    ∃ g l' log', f.drop i = some (g, .good) ∧ l.drop i = some l' ∧ g.Follows l' log' := by
  have hrange : log.outOfRange i = false := by
    rw [← Bool.not_eq_true, ← h.held_none, hi]
    simp
  obtain ⟨hlt, -⟩ := BasedLog.held_bounds hi
  have hget : ∃ x, log.get i = some x ∧ x.term = e.term := by
    have hlookup := h.lookup_eq i
    rw [h.stores.get_eq, BasedLog.lookup, if_neg (by omega), hi] at hlookup
    obtain ⟨x, hx, rfl⟩ := Option.map_eq_some_iff.mp hlookup
    exact ⟨x, hx, rfl⟩
  obtain ⟨x, hx, hterm⟩ := hget
  have hrefines := h.stores.drop_refines h.chained h.factor i
  rw [EntryLogger.drop, if_neg (by simp [hrange]), hx] at hrefines
  obtain ⟨g, hg, hstores, hchained⟩ := hrefines
  obtain ⟨l', hl', hindex', hterm', hentries⟩ := BasedLog.drop_held hi
  refine ⟨g, l', _, hg, hl', hstores, hchained, (drop_factor hg).trans h.factor, hindex',
    hterm'.trans hterm.symm, ?_⟩
  rw [hentries, l.numbered.filter_gt hlt.le, h.entries, h.index, ← List.map_drop]
  rfl

theorem exec (h : f.Follows l log) {op : LogOp} (hop : op.onEntries)
    (hexec : f.exec op = some g) : ∃ l' log', l.exec op = some l' ∧ g.Follows l' log' := by
  cases op with
  | append batch =>
      obtain ⟨log', hg⟩ := h.append hexec
      exact ⟨_, log', rfl, hg⟩
  | chop i =>
      simp only [LogFile.exec] at hexec
      cases hi : l.held i with
      | none =>
          rw [h.chop_oor hi] at hexec
          cases hexec
      | some e =>
          obtain ⟨g', l', log', hchop, hl', hg'⟩ := h.chop_good hi
          rw [hchop] at hexec
          cases hexec
          exact ⟨l', log', hl', hg'⟩
  | drop i =>
      simp only [LogFile.exec] at hexec
      cases hi : l.held i with
      | none =>
          rw [h.drop_oor hi] at hexec
          cases hexec
      | some e =>
          obtain ⟨g', l', log', hdrop, hl', hg'⟩ := h.drop_good hi
          rw [hdrop] at hexec
          cases hexec
          exact ⟨l', log', hl', hg'⟩
  | install c i t => cases hop

private theorem infos_eq (h : f.Follows l log) : l.infos = log.infos.map (·.toEntry) := by
  rw [BasedLog.infos, h.entries]
  rfl

theorem offset_eq (h : f.Follows l log) (k : Nat) :
    l.offset k = batchSize (log.infos.take k) := by
  rw [BasedLog.offset, h.infos_eq, ← List.map_take, List.map_map]
  rfl

theorem lastTerm_eq (h : f.Follows l log) : f.lastEntryTerm = l.lastTerm := by
  have hlength : f.infos.length = log.entries.length + 1 := by
    rw [h.stores.infos, length_placed]
    rfl
  unfold LogFile.lastEntryTerm BasedLog.lastTerm
  rw [hlength, h.stores.lastEntry_eq, h.stores.lastTerm_eq, EntryLogger.lastEntry, h.entries,
    h.term, List.getLast?_map]
  cases hlast : log.entries.getLast? with
  | none => simp [List.getLast?_eq_none_iff.mp hlast]
  | some e =>
      have hne : log.entries ≠ [] := by
        rintro hnil
        simp [hnil] at hlast
      have := List.length_pos_of_ne_nil hne
      rw [if_neg (by omega)]
      rfl

end Follows

structure Represents (f : LogFile) (l : BasedLog) : Prop where
  index : f.lastIndex = l.index
  term : f.lastTerm = l.term
  get : ∀ i, f.get i = l.lookup i
  hasEntry : ∀ i t, f.hasEntry i t = l.hasEntry i t
  entryConflicted : ∀ i t, f.entryConflicted i t = l.entryConflicted i t
  lastEntryIndex : f.lastEntryIndex = l.lastIndex
  lastEntryTerm : f.lastEntryTerm = l.lastTerm
  entries : f.entries = l.entries.length + 1
  payload : f.payload = l.offset f.entries
  /-- An amount is the offset of its entry. -/
  places : ∀ k e, l.infos[k]? = some e →
    f.infos[k]? = some ⟨e.index, l.offset k⟩ ∧ readEntry f.ldbs (l.offset k) = some e
  /-- The end marker follows the last entry. -/
  marker : readWord f.ldbs f.payload = some 0
  chop : ∀ i, (f.chop i).map (·.2) = some (if (l.held i).isSome then .good else .oor)
  drop : ∀ i, (f.drop i).map (·.2) = some (if (l.held i).isSome then .good else .oor)

private theorem BasedLog.lookup_index {l : BasedLog} {i : Nat} {e : Entry} (h : l.lookup i = some e) :
    e.index = i := by
  unfold BasedLog.lookup at h
  split at h
  · cases h
    exact (‹i = 0›).symm
  · simpa using List.find?_some h

private theorem Follows.represents {f : LogFile} {l : BasedLog} {log : EntryLogger}
    (h : f.Follows l log) : f.Represents l := by
  have hentries : f.entries = l.entries.length + 1 := by
    rw [LogFile.entries, h.stores.infos, length_placed, h.length_eq]
    rfl
  have hpayload : f.payload = batchSize log.infos := h.stores.payload
  constructor
  case index => rw [h.stores.lastIndex_eq, h.index]
  case term => rw [h.stores.lastTerm_eq, h.term]
  case get => exact h.lookup_eq
  case hasEntry =>
    intro i t
    unfold LogFile.hasEntry BasedLog.hasEntry
    rw [h.lookup_eq, h.stores.lastIndex_eq, h.stores.lastTerm_eq, ← h.index, ← h.term]
    cases hlookup : l.lookup i with
    | none => rfl
    | some e => simp [BasedLog.lookup_index hlookup]
  case entryConflicted =>
    intro i t
    unfold LogFile.entryConflicted BasedLog.entryConflicted
    rw [h.lookup_eq]
    cases l.lookup i <;> rfl
  case lastEntryIndex => exact h.lastIndex_eq
  case lastEntryTerm => exact h.lastTerm_eq
  case entries => exact hentries
  case payload =>
    rw [hpayload, h.offset_eq, List.take_of_length_le]
    simp [hentries, h.length_eq, EntryLogger.infos]
  case places =>
    intro k e he
    rw [h.infos_eq, List.getElem?_map] at he
    obtain ⟨x, hx, rfl⟩ := Option.map_eq_some_iff.mp he
    rw [h.offset_eq, h.stores.getElem?_infos, hx]
    exact ⟨rfl, h.stores.readEntry_infos hx⟩
  case marker =>
    obtain ⟨rest, himage⟩ := h.stores.image
    rw [hpayload, himage]
    exact readWord_append (length_encode _) (by decide)
  case chop =>
    intro i
    cases hi : l.held i with
    | none => rw [h.chop_oor hi]; rfl
    | some e =>
        obtain ⟨g, -, -, hg, -⟩ := h.chop_good hi
        rw [hg]
        rfl
  case drop =>
    intro i
    cases hi : l.held i with
    | none => rw [h.drop_oor hi]; rfl
    | some e =>
        obtain ⟨g, -, -, hg, -⟩ := h.drop_good hi
        rw [hg]
        rfl

private theorem follows_new {f : LogFile} (h : init (5 / 4) none none = some f) :
    ∃ log, f.Follows .empty log := by
  exact ⟨_, Stores.init_new (by norm_num) h, ⟨.inl le_rfl, by simp⟩, init_factor h, rfl, rfl, rfl⟩

/-- Every run of a logger on new files is a run of a list with a base, which it represents. -/
theorem refines_list {f g : LogFile} {ops : List LogOp}
    (hinit : init (5 / 4) none none = some f)
    (hops : ∀ op ∈ ops, op.onEntries)
    (hrun : run exec f ops = some g) :
    ∃ l, run BasedLog.exec .empty ops = some l ∧ g.Represents l := by
  obtain ⟨l, hl, log, hg⟩ := run_simulation
    (R := fun f l => ∃ log, LogFile.Follows f l log)
    (fun f l op g hop ⟨log, hf⟩ hexec => by
      obtain ⟨l', log', hl', hg⟩ := hf.exec hop hexec
      exact ⟨l', hl', log', hg⟩)
    hops (follows_new hinit) hrun
  exact ⟨l, hl, hg.represents⟩

theorem refines_list_history :
    ∃ f g l, init (5 / 4) none none = some f ∧ run exec f history = some g ∧
      run BasedLog.exec .empty history = some l ∧ g.Represents l := by
  obtain ⟨g, hg⟩ := Option.isSome_iff_exists.mp history_runs
  obtain ⟨f, hinit, hrun⟩ := Option.bind_eq_some_iff.mp hg
  obtain ⟨l, hl, hrep⟩ := refines_list hinit (by decide) hrun
  exact ⟨f, g, l, hinit, hrun, hl, hrep⟩

end LogFile

end Draft
