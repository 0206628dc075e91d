import Draft.Foundation.EntryLogger

/-!
# The full log behind a compacted one

`Holds log full` says that `full` is the list of entries from index 1 on and
that `log` keeps those above its base.  Each operation of the logger is
described by what it does to the full log.
-/

namespace Draft

def termAt (full : List Entry) : Nat → Option Nat
  | 0 => some 0
  | i + 1 => full[i]?.map (·.term)

def Indexed (full : List Entry) : Prop :=
  ∀ i e, full[i]? = some e → e.index = i + 1

instance (full : List Entry) : Decidable (Indexed full) :=
  decidable_of_iff (∀ i : Fin full.length, full[i].index = i + 1)
    ⟨fun h i e he => by
      obtain ⟨hi, rfl⟩ := List.getElem?_eq_some_iff.mp he
      exact h ⟨i, hi⟩,
    fun h i => h i _ (List.getElem?_eq_getElem i.isLt)⟩

structure EntryLogger.Holds (log : EntryLogger) (full : List Entry) : Prop where
  base_le : log.lastIndex ≤ full.length
  entries : log.entries.map LogEntry.toEntry = full.drop log.lastIndex
  indexed : Indexed full
  base_term : termAt full log.lastIndex = some log.lastTerm

instance (log : EntryLogger) (full : List Entry) : Decidable (log.Holds full) :=
  decidable_of_iff (log.lastIndex ≤ full.length ∧
      log.entries.map LogEntry.toEntry = full.drop log.lastIndex ∧ Indexed full ∧
      termAt full log.lastIndex = some log.lastTerm)
    ⟨fun h => ⟨h.1, h.2.1, h.2.2.1, h.2.2.2⟩, fun h => ⟨h.1, h.2, h.3, h.4⟩⟩

theorem Indexed.take {full : List Entry} (h : Indexed full) (k : Nat) :
    Indexed (full.take k) := by
  intro i e he
  rw [List.getElem?_take] at he
  split at he
  · exact h i e he
  · cases he

theorem Indexed.append {full rest : List Entry} (h : Indexed full)
    (hrest : ∀ i e, rest[i]? = some e → e.index = full.length + i + 1) :
    Indexed (full ++ rest) := by
  intro i e he
  rcases Nat.lt_or_ge i full.length with hi | hi
  · rw [List.getElem?_append_left hi] at he
    exact h i e he
  · rw [List.getElem?_append_right hi] at he
    rw [hrest _ e he]
    omega

theorem termAt_take {full : List Entry} {i k : Nat} (h : i ≤ k) :
    termAt (full.take k) i = termAt full i := by
  cases i with
  | zero => rfl
  | succ i => simp [termAt, List.getElem?_take_of_lt h]

theorem termAt_append {full rest : List Entry} {i : Nat} (h : i ≤ full.length) :
    termAt (full ++ rest) i = termAt full i := by
  cases i with
  | zero => rfl
  | succ i => simp [termAt, List.getElem?_append_left h]

theorem termAt_part {full g : List Entry} (h : full <+: g) {i : Nat} (hi : i ≤ full.length) :
    termAt full i = termAt g i := by
  obtain ⟨rest, rfl⟩ := h
  exact (termAt_append hi).symm

namespace EntryLogger

variable {log : EntryLogger} {full : List Entry}

@[simp] theorem get_zero (log : EntryLogger) : log.get 0 = some logEntrySentry := by
  simp [get]

namespace Holds

/-! ## Reading -/

theorem length_entries (h : log.Holds full) :
    log.entries.length = full.length - log.lastIndex := by
  have := congrArg List.length h.entries
  simpa using this

theorem getElem?_entries (h : log.Holds full) (k : Nat) :
    log.entries[k]?.map LogEntry.toEntry = full[log.lastIndex + k]? := by
  rw [← List.getElem?_map, h.entries, List.getElem?_drop]

theorem index_of_getElem? (h : log.Holds full) {k : Nat} {e : LogEntry}
    (he : log.entries[k]? = some e) : e.index = log.lastIndex + k + 1 := by
  refine h.indexed _ e.toEntry ?_
  rw [← h.getElem?_entries, he]
  rfl

theorem entries_eq_nil_iff (h : log.Holds full) :
    log.entries = [] ↔ full.length = log.lastIndex := by
  have hlen := h.length_entries
  have hle := h.base_le
  rw [← List.length_eq_zero_iff]
  omega

theorem lastEntry_index (h : log.Holds full) (hne : log.entries ≠ []) :
    log.lastEntry.index = full.length := by
  have hlen := h.length_entries
  have hpos := List.length_pos_iff.mpr hne
  have hlast : log.entries[log.entries.length - 1]? = some log.lastEntry := by
    rw [lastEntry, ← List.getLast?_eq_getElem?, List.getLast?_eq_some_getLast hne]
    rfl
  rw [h.index_of_getElem? hlast]
  omega

theorem lastEntryIndex_eq (h : log.Holds full) : log.lastEntryIndex = full.length := by
  unfold lastEntryIndex
  split
  · rename_i hnil
    exact (h.entries_eq_nil_iff.mp hnil).symm
  · rename_i hne
    exact h.lastEntry_index hne

theorem belowFirst_iff (h : log.Holds full) (i : Nat) :
    log.belowFirst i = true ↔ log.entries ≠ [] ∧ i ≤ log.lastIndex := by
  unfold belowFirst
  cases hlog : log.entries with
  | nil => simp
  | cons e rest =>
      have he : e.index = log.lastIndex + 0 + 1 :=
        h.index_of_getElem? (k := 0) (e := e) (by simp [hlog])
      simp only [List.head?_cons, Option.any_some, decide_eq_true_eq, he, ne_eq, reduceCtorEq,
        not_false_eq_true, true_and]
      omega

theorem get_above (h : log.Holds full) {i : Nat} (hi : log.lastIndex < i) :
    log.get i = log.entries[i - log.lastIndex - 1]? := by
  unfold get
  by_cases hnil : log.entries = []
  · have : log.lastEntry.index < i := by
      simp only [lastEntry, hnil, List.getLast?_nil, Option.getD_none, logEntrySentry]
      omega
    simp [this, hnil]
  · have hbelow : ¬ log.belowFirst i = true := by
      rw [h.belowFirst_iff]
      omega
    by_cases hlt : full.length < i
    · rw [if_pos (by rw [h.lastEntry_index hnil]; exact .inl hlt), List.getElem?_eq_none]
      have := h.length_entries
      omega
    · have hsub : i - log.lastIndex = (i - log.lastIndex - 1) + 1 := by omega
      rw [if_neg (by rw [h.lastEntry_index hnil]; simp [hlt, hbelow]), if_neg (by omega),
        infos, hsub, List.getElem?_cons_succ]
      rfl

theorem get_below (h : log.Holds full) {i : Nat} (hi : i ≤ log.lastIndex) (h0 : i ≠ 0) :
    log.get i = none := by
  unfold get
  by_cases hnil : log.entries = []
  · have : log.lastEntry.index < i := by
      simp only [lastEntry, hnil, List.getLast?_nil, Option.getD_none, logEntrySentry]
      omega
    simp [this]
  · simp [h0, (h.belowFirst_iff i).mpr ⟨hnil, hi⟩]

theorem get_succ_map (h : log.Holds full) (i : Nat) :
    (log.get (i + 1)).map LogEntry.toEntry = if i < log.lastIndex then none else full[i]? := by
  split
  · rename_i hlt
    rw [h.get_below hlt (by omega)]
    rfl
  · rename_i hge
    rw [h.get_above (by omega), h.getElem?_entries]
    congr 1
    omega

theorem get_eq_none_iff (h : log.Holds full) {i : Nat} :
    log.get (i + 1) = none ↔ i < log.lastIndex ∨ full.length ≤ i := by
  have hmap := h.get_succ_map i
  rw [← Option.map_eq_none_iff (f := LogEntry.toEntry), hmap]
  split
  · rename_i hlt
    simp [hlt]
  · rename_i hge
    simp only [List.getElem?_eq_none_iff]
    omega

theorem hasEntry_iff (h : log.Holds full) {i t : Nat} :
    log.hasEntry i t = true ↔ (i = 0 ∨ log.lastIndex ≤ i) ∧ termAt full i = some t := by
  unfold hasEntry
  cases i with
  | zero => simp [logEntrySentry, termAt]
  | succ i =>
      have hmap := h.get_succ_map i
      cases hget : log.get (i + 1) with
      | none =>
          rw [hget] at hmap
          have hbase := h.base_term
          split at hmap
          · simp only [Bool.and_eq_true, decide_eq_true_eq]
            constructor
            · rintro ⟨hi, ht⟩
              rw [hi, ht] at hbase
              exact ⟨.inr (Nat.le_of_eq hi), hbase⟩
            · rintro ⟨hi, ht⟩
              have heq : log.lastIndex = i + 1 := by omega
              rw [heq, ht] at hbase
              exact ⟨heq, (Option.some.inj hbase).symm⟩
          · simp only [Option.map_none] at hmap
            have hlen := List.getElem?_eq_none_iff.mp hmap.symm
            have hle := h.base_le
            simp only [termAt, ← hmap, Option.map_none, Bool.and_eq_true, decide_eq_true_eq]
            constructor
            · rintro ⟨hi, -⟩
              omega
            · rintro ⟨-, ht⟩
              cases ht
      | some e =>
          rw [hget] at hmap
          split at hmap
          · cases hmap
          · have hfull : full[i]? = some e.toEntry := hmap.symm
            have hidx := h.indexed i _ hfull
            simp only [termAt, hfull, Option.map_some, Option.some.injEq, Bool.and_eq_true,
              decide_eq_true_eq]
            constructor
            · rintro ⟨-, ht⟩
              exact ⟨by omega, ht⟩
            · rintro ⟨-, ht⟩
              exact ⟨hidx, ht⟩

theorem entryConflicted_iff (h : log.Holds full) {i t : Nat} :
    log.entryConflicted (i + 1) t = true ↔
      log.lastIndex ≤ i ∧ ∃ e, full[i]? = some e ∧ e.term ≠ t := by
  unfold entryConflicted
  have hmap := h.get_succ_map i
  cases hget : log.get (i + 1) with
  | none =>
      rw [hget] at hmap
      split at hmap
      · simp
        omega
      · simp [← hmap]
  | some e =>
      rw [hget] at hmap
      split at hmap
      · cases hmap
      · have hfull : full[i]? = some e.toEntry := hmap.symm
        simp only [hfull, decide_eq_true_eq, Option.some.injEq, exists_eq_left']
        omega

theorem termAt_length (h : log.Holds full) :
    termAt full full.length = some log.lastEntryTerm := by
  unfold lastEntryTerm
  split
  · rename_i hnil
    rw [h.entries_eq_nil_iff.mp hnil]
    exact h.base_term
  · rename_i hne
    have hlen := h.length_entries
    have hpos := List.length_pos_iff.mpr hne
    have hlast : log.entries[log.entries.length - 1]? = some log.lastEntry := by
      rw [lastEntry, ← List.getLast?_eq_getElem?, List.getLast?_eq_some_getLast hne]
      rfl
    have hmap := h.getElem?_entries (log.entries.length - 1)
    rw [hlast, Option.map_some] at hmap
    obtain ⟨k, hk⟩ : ∃ k, full.length = k + 1 := ⟨full.length - 1, by omega⟩
    rw [hk, termAt, show k = log.lastIndex + (log.entries.length - 1) by omega, ← hmap]
    rfl

theorem outOfRange_iff (h : log.Holds full) {i : Nat} :
    log.outOfRange i = false ↔ log.lastIndex < i ∧ i ≤ full.length := by
  have hbelow := h.belowFirst_iff i
  have hle := h.base_le
  by_cases hnil : log.entries = []
  · have hlast : log.lastEntry.index = 0 := by simp [lastEntry, hnil, logEntrySentry]
    have hlen := h.entries_eq_nil_iff.mp hnil
    simp only [outOfRange, hlast, Bool.or_eq_false_iff, decide_eq_false_iff_not]
    omega
  · have hlast := h.lastEntry_index hnil
    rw [outOfRange, hlast, Bool.or_eq_false_iff, Bool.or_eq_false_iff, ← Bool.not_eq_true
      (log.belowFirst i), hbelow]
    simp only [decide_eq_false_iff_not, hnil, not_false_eq_true, ne_eq, true_and]
    omega

/-! ## Writing -/

theorem append (h : log.Holds full) {batch : List LogEntry} {rest : List Entry}
    (hbatch : batch.map LogEntry.toEntry = rest)
    (hrest : ∀ i e, rest[i]? = some e → e.index = full.length + i + 1) :
    (log.append batch).Holds (full ++ rest) where
  base_le := by
    rw [List.length_append]
    exact Nat.le_add_right_of_le h.base_le
  entries := by
    simp only [EntryLogger.append, List.map_append, h.entries, hbatch]
    rw [List.drop_append_of_le_length h.base_le]
  indexed := h.indexed.append hrest
  base_term := (termAt_append h.base_le).trans h.base_term

theorem append_entry (h : log.Holds full) (data : Bytes) (term : Nat) (config : Bool) :
    (log.append [log.makeEntry data (log.lastEntryIndex + 1) term config]).Holds
      (full ++ [{ term := term, index := full.length + 1, data := data, config := config }]) := by
  refine h.append ?_ ?_
  · rw [h.lastEntryIndex_eq]
    rfl
  · intro i e he
    obtain ⟨hi, rfl⟩ := List.getElem?_eq_some_iff.mp he
    obtain rfl : i = 0 := by simpa using hi
    rfl

theorem chop (h : log.Holds full) {i : Nat} (hlo : log.lastIndex ≤ i) (hhi : i < full.length) :
    ∃ new, log.chop (i + 1) = some new ∧ new.Holds (full.take i) ∧
      new.lastIndex = log.lastIndex := by
  have hrange : log.outOfRange (i + 1) = false := h.outOfRange_iff.mpr (by omega)
  refine ⟨{ log with
    entries := log.entries.take (i + 1 - log.lastIndex - 1)
    cfgEntryIndex := log.cfgBelow (i + 1) log.entries.length log.cfgEntryIndex },
    by simp [EntryLogger.chop, hrange], ?_, rfl⟩
  exact
    { base_le := by
        simp only [List.length_take]
        omega
      entries := by
        simp only [List.map_take, h.entries, List.drop_take]
        congr 1
        omega
      indexed := h.indexed.take i
      base_term := (termAt_take hlo).trans h.base_term }

theorem drop (h : log.Holds full) {i : Nat} (hlo : log.lastIndex < i) (hhi : i ≤ full.length) :
    ∃ new, log.drop i = some new ∧ new.Holds full ∧ new.lastIndex = i := by
  have hrange : log.outOfRange i = false := h.outOfRange_iff.mpr ⟨hlo, hhi⟩
  obtain ⟨k, rfl⟩ : ∃ k, i = k + 1 := ⟨i - 1, by omega⟩
  have hmap := h.get_succ_map k
  rw [if_neg (by omega)] at hmap
  obtain ⟨e, he⟩ : ∃ e, log.get (k + 1) = some e := by
    cases hget : log.get (k + 1) with
    | none =>
        rw [h.get_eq_none_iff] at hget
        omega
    | some e => exact ⟨e, rfl⟩
  refine ⟨{ log with
    entries := log.entries.drop (k + 1 - log.lastIndex)
    cfgEntryIndex := if log.cfgEntryIndex ≤ k + 1 then 0 else log.cfgEntryIndex
    }.copyStates (log.configUpTo (k + 1)) (k + 1) e.term,
    by simp [EntryLogger.drop, hrange, he], ?_, rfl⟩
  exact
    { base_le := hhi
      entries := by
        simp only [copyStates, List.map_drop, h.entries, List.drop_drop]
        congr 1
        omega
      indexed := h.indexed
      base_term := by
        rw [he] at hmap
        simp only [copyStates, termAt, ← hmap, Option.map_some] }

theorem drop_eq_none (h : log.Holds full) {i : Nat} (hi : i ≤ log.lastIndex ∨ full.length < i) :
    log.drop i = none := by
  have hrange : log.outOfRange i = true := by
    rw [← Bool.not_eq_false, h.outOfRange_iff]
    omega
  simp [EntryLogger.drop, hrange]

theorem drop_getD (h : log.Holds full) {i : Nat} (hi : i ≤ full.length) :
    ((log.drop i).getD log).Holds full ∧
      ((log.drop i).getD log).lastIndex ≤ max log.lastIndex i := by
  rcases Nat.lt_or_ge log.lastIndex i with hlt | hge
  · obtain ⟨new, hnew, hholds, hlast⟩ := h.drop hlt hi
    rw [hnew, Option.getD_some]
    exact ⟨hholds, hlast ▸ Nat.le_max_right _ _⟩
  · rw [h.drop_eq_none (.inl hge), Option.getD_none]
    exact ⟨h, Nat.le_max_left _ _⟩

theorem chop_all (h : log.Holds full) :
    ((log.chop (log.lastIndex + 1)).getD log).entries = [] := by
  by_cases hnil : log.entries = []
  · have hrange : log.outOfRange (log.lastIndex + 1) = true := by
      have := h.entries_eq_nil_iff.mp hnil
      rw [← Bool.not_eq_false, h.outOfRange_iff]
      omega
    simp [EntryLogger.chop, hrange, hnil]
  · have hrange : log.outOfRange (log.lastIndex + 1) = false := by
      have h₁ := h.base_le
      have h₂ := mt h.entries_eq_nil_iff.mpr hnil
      exact h.outOfRange_iff.mpr (by omega)
    simp [EntryLogger.chop, hrange]

end Holds

theorem holds_copyStates {log : EntryLogger} {full : List Entry} {config : Bytes}
    {index term : Nat} (hnil : log.entries = []) (hlen : full.length = index)
    (hidx : Indexed full) (hterm : termAt full index = some term) :
    (log.copyStates config index term).Holds full where
  base_le := Nat.le_of_eq hlen.symm
  entries := by
    rw [copyStates, hnil, ← hlen]
    simp
  indexed := hidx
  base_term := hterm

end EntryLogger

end Draft
