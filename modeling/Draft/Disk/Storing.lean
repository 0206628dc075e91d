import Draft.Disk.Layout

/-!
# Stored logs

What the files and the vectors of a logger say of the log it stands for, what
its queries answer then, and what its operations make of it.
-/

namespace Draft

open Disk LogFile

/-! ## The log of a logger -/

namespace LogFile

/-- The two files hold a log, and the vectors point into them. -/
structure Stores (f : LogFile) (log : EntryLogger) : Prop where
  image : ∃ rest, f.ldbs = encode log.infos ++ (word 0 ++ rest)
  states : ∃ size rest, f.stat = word size ++ (word log.lastIndex ++ (word log.lastTerm ++
    (word log.lastConfig.length ++ (log.lastConfig ++ rest))))
  infos : f.infos = placed 0 log.infos
  payload : f.payloadSize = batchSize log.infos
  cfg : f.cfgEntryIndex = log.cfgEntryIndex
  consecutive : log.Consecutive
  fits : ∀ e ∈ log.entries, e.Fits
  lastIndex : log.lastIndex < 2 ^ 64
  lastTerm : log.lastTerm < 2 ^ 64
  lastConfig : log.lastConfig.length < 2 ^ 64
  cfgEntryIndex : log.cfgEntryIndex < 2 ^ 64
  factor : 1 ≤ f.factor
  ldbsPages : f.ldbs.length % pageSize = 0
  statPages : f.stat.length % pageSize = 0

variable {f f' : LogFile} {log : EntryLogger}

namespace Stores

theorem infos_fit (h : f.Stores log) : ∀ e ∈ log.infos, e.Fits := by
  intro e he
  rcases List.mem_cons.mp he with rfl | he
  · decide
  · exact h.fits e he

/-! ### The base -/

theorem lastIndex_eq (h : f.Stores log) : f.lastIndex = log.lastIndex := by
  obtain ⟨size, rest, hstat⟩ := h.states
  rw [LogFile.lastIndex, hstat, readWord_append (length_word _) h.lastIndex, Option.getD_some]

theorem lastTerm_eq (h : f.Stores log) : f.lastTerm = log.lastTerm := by
  obtain ⟨size, rest, hstat⟩ := h.states
  have hword : readWord f.stat 16 = some log.lastTerm := by
    rw [hstat]
    exact (readWord_skip (length_word size) 8).trans
      (readWord_append (length_word log.lastIndex) h.lastTerm)
  rw [LogFile.lastTerm, hword, Option.getD_some]

theorem lastConfig_eq (h : f.Stores log) : f.lastConfig = log.lastConfig := by
  obtain ⟨size, rest, hstat⟩ := h.states
  have hpre : (word size ++ (word log.lastIndex ++ word log.lastTerm)).length = 24 := by simp
  have hlen : f.stat = (word size ++ (word log.lastIndex ++ word log.lastTerm)) ++
      (word log.lastConfig.length ++ (log.lastConfig ++ rest)) := by simp [hstat]
  have hword : readWord f.stat 24 = some log.lastConfig.length := by
    rw [hlen, readWord_append hpre h.lastConfig]
  have hdata : f.stat = (word size ++ (word log.lastIndex ++ (word log.lastTerm ++
      word log.lastConfig.length))) ++ (log.lastConfig ++ rest) := by simp [hstat]
  rw [LogFile.lastConfig, hword, Option.getD_some, hdata]
  exact slice_append (by simp [statesSize]) rfl

/-! ### The vectors -/

private theorem map_index_placed (off : Nat) (es : List LogEntry) :
    (placed off es).map (·.index) = es.map (·.index) := by
  induction es generalizing off with
  | nil => rfl
  | cons e es ih => simp [placed, ih]

theorem backIndex_eq (h : f.Stores log) : f.backIndex = log.lastEntry.index := by
  have hmap := congrArg List.getLast? (map_index_placed 0 log.infos)
  rw [List.getLast?_map, List.getLast?_map] at hmap
  rw [backIndex, h.infos, hmap, EntryLogger.infos, List.getLast?_cons, EntryLogger.lastEntry]
  rfl

private theorem belowFirst_eq (h : f.Stores log) (i : Nat) : f.belowFirst i = log.belowFirst i := by
  rw [LogFile.belowFirst, h.infos, EntryLogger.infos, EntryLogger.belowFirst]
  cases log.entries with
  | nil => rfl
  | cons e es => rfl

theorem outOfRange_eq (h : f.Stores log) (i : Nat) : f.outOfRange i = log.outOfRange i := by
  have hempty : f.infos.isEmpty = false := by rw [h.infos]; rfl
  have hfront : f.infos.head?.any (i < ·.index) = false := by
    rw [h.infos]
    exact decide_eq_false (Nat.not_lt_zero i)
  rw [LogFile.outOfRange, hempty, hfront, h.backIndex_eq, h.belowFirst_eq, Bool.or_false,
    Bool.or_false, EntryLogger.outOfRange]

theorem getElem?_infos (h : f.Stores log) (k : Nat) :
    f.infos[k]? = log.infos[k]?.map fun e => ⟨e.index, batchSize (log.infos.take k)⟩ := by
  rw [h.infos, getElem?_placed]
  simp

theorem offset_eq (h : f.Stores log) (i : Nat) :
    f.offset i =
      if i = 0 then some 0
      else if log.lastIndex < i ∧ i ≤ log.lastIndex + log.entries.length then
        some (batchSize (log.infos.take (i - log.lastIndex)))
      else none := by
  have hhead : f.infos.head? = some ⟨0, 0⟩ := by rw [h.infos]; rfl
  unfold offset
  rw [hhead]
  dsimp only
  rw [h.backIndex_eq, h.belowFirst_eq, h.lastIndex_eq]
  by_cases hi : i = 0
  · subst hi
    simp
  have hrange := h.consecutive.outOfRange_iff i
  simp only [EntryLogger.outOfRange, Bool.or_eq_false_iff, decide_eq_false_iff_not] at hrange
  rw [if_neg hi, if_neg hi]
  by_cases hheld : log.lastIndex < i ∧ i ≤ log.lastIndex + log.entries.length
  · obtain ⟨⟨-, hlast⟩, hbelow⟩ := hrange.mpr hheld
    rw [if_neg (by simp [hlast, hbelow]), if_pos hheld, if_neg (by omega), h.getElem?_infos,
      Nat.sub_zero]
    have hlen : i - log.lastIndex < log.infos.length := by
      simp only [EntryLogger.infos, List.length_cons]
      omega
    rw [List.getElem?_eq_getElem hlen]
    rfl
  · rw [if_neg hheld, if_pos]
    by_contra hnot
    simp only [not_or, not_and, Bool.not_eq_true] at hnot
    exact hheld (hrange.mp ⟨⟨hi, hnot.2.1⟩, hnot.2.2 hi⟩)

/-! ### The entries -/

theorem image_split (h : f.Stores log) {k : Nat} {e : LogEntry} (hk : log.infos[k]? = some e) :
    ∃ post, f.ldbs = encode (log.infos.take k) ++ (e.bytes ++ post) := by
  obtain ⟨rest, himage⟩ := h.image
  have hsplit : log.infos = log.infos.take k ++ e :: log.infos.drop (k + 1) := by
    have hlt : k < log.infos.length := (List.getElem?_eq_some_iff.mp hk).1
    have hget : log.infos[k] = e := (List.getElem?_eq_some_iff.mp hk).2
    rw [← hget, List.cons_getElem_drop_succ, List.take_append_drop]
  refine ⟨encode (log.infos.drop (k + 1)) ++ (word 0 ++ rest), ?_⟩
  conv_lhs => rw [himage, hsplit]
  simp

theorem readEntry_infos (h : f.Stores log) {k : Nat} {e : LogEntry}
    (hk : log.infos[k]? = some e) :
    readEntry f.ldbs (batchSize (log.infos.take k)) = some e.toEntry := by
  obtain ⟨post, himage⟩ := h.image_split hk
  rw [himage]
  exact readEntry_append (length_encode _) (h.infos_fit e (List.mem_of_getElem? hk))

theorem get_eq (h : f.Stores log) (i : Nat) : f.get i = (log.get i).map (·.toEntry) := by
  rw [LogFile.get, h.offset_eq, h.consecutive.get_eq]
  by_cases hi : i = 0
  · rw [if_pos hi, if_pos hi]
    exact h.readEntry_infos (k := 0) rfl
  rw [if_neg hi, if_neg hi]
  by_cases hheld : log.lastIndex < i ∧ i ≤ log.lastIndex + log.entries.length
  · rw [if_pos hheld, if_pos hheld.1]
    obtain ⟨k, hk⟩ : ∃ k, i - log.lastIndex = k + 1 := ⟨i - log.lastIndex - 1, by omega⟩
    have hlt : k < log.entries.length := by omega
    have hget : log.infos[k + 1]? = some log.entries[k] := by
      simp [EntryLogger.infos, hlt]
    rw [hk, Option.bind_some, h.readEntry_infos hget, Nat.add_sub_cancel,
      List.getElem?_eq_getElem hlt]
    rfl
  · rw [if_neg hheld]
    split
    · rw [List.getElem?_eq_none (by omega)]
      rfl
    · rfl

private theorem lastAmount_eq (h : f.Stores log) :
    f.lastAmount = batchSize (log.infos.take log.entries.length) := by
  have hlast : f.infos.getLast? = log.infos[log.entries.length]?.map fun e =>
      ⟨e.index, batchSize (log.infos.take log.entries.length)⟩ := by
    rw [List.getLast?_eq_getElem?, h.getElem?_infos]
    simp [h.infos, EntryLogger.infos]
  have hlen : log.entries.length < log.infos.length := by simp [EntryLogger.infos]
  rw [LogFile.lastAmount, hlast, List.getElem?_eq_getElem hlen]
  rfl

private theorem infos_last (log : EntryLogger) :
    log.infos[log.entries.length]? = some log.lastEntry := by
  cases hentries : log.entries with
  | nil => simp [EntryLogger.infos, EntryLogger.lastEntry, hentries]
  | cons e es =>
      rw [EntryLogger.infos, EntryLogger.lastEntry, hentries, List.getLast?_eq_getElem?]
      simp

theorem lastEntry_eq (h : f.Stores log) : f.lastEntry = some log.lastEntry.toEntry := by
  rw [LogFile.lastEntry, h.lastAmount_eq]
  exact h.readEntry_infos (infos_last log)

theorem tailEnd_eq (h : f.Stores log) : f.tailEnd = batchSize log.infos := by
  obtain ⟨post, himage⟩ := h.image_split (infos_last log)
  have hsize : readWord f.ldbs f.lastAmount = some log.lastEntry.size := by
    rw [h.lastAmount_eq, himage]
    exact (readWord_skip (length_encode (log.infos.take log.entries.length)) 0).trans
      (LogEntry.read_size (h.infos_fit _ (List.mem_of_getElem? (infos_last log))) post)
  have hsplit : log.infos = log.infos.take log.entries.length ++ [log.lastEntry] := by
    have hlt : log.entries.length < log.infos.length := by simp [EntryLogger.infos]
    have hget : log.infos[log.entries.length] = log.lastEntry :=
      (List.getElem?_eq_some_iff.mp (infos_last log)).2
    have hdrop : log.infos.drop log.entries.length = [log.lastEntry] := by
      rw [← hget, ← List.cons_getElem_drop_succ (h := hlt)]
      simp [EntryLogger.infos]
    rw [← hdrop, List.take_append_drop]
  rw [tailEnd, hsize, Option.getD_some, h.lastAmount_eq]
  conv_rhs => rw [hsplit]
  simp

end Stores

end LogFile

end Draft
