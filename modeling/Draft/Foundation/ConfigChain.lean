import Mathlib.Data.List.Basic
import Draft.Foundation.EntryLogger

/-!
# The configuration chain of a log

A configuration entry points to the one before it.  As long as every link goes
down, to a held configuration entry or below the base, the walk of `chop` and
`drop` ends, and `config` reads the newest configuration entry.
-/

namespace Draft

def newestCfg (cfg : Nat) (es : List LogEntry) : Nat :=
  es.foldl (fun cfg e => if e.config then e.index else cfg) cfg

/-! ## Consecutive logs -/

namespace EntryLogger

variable {log : EntryLogger}

def Consecutive (log : EntryLogger) : Prop :=
  ∀ k e, log.entries[k]? = some e → e.index = log.lastIndex + k + 1

theorem Consecutive.lastEntry_index (h : log.Consecutive) (hne : log.entries ≠ []) :
    log.lastEntry.index = log.lastIndex + log.entries.length := by
  have hpos : 0 < log.entries.length := List.length_pos_of_ne_nil hne
  have hlast : log.entries[log.entries.length - 1]? = some log.lastEntry := by
    rw [EntryLogger.lastEntry, List.getLast?_eq_getElem?]
    cases hget : log.entries[log.entries.length - 1]? with
    | none =>
        rw [List.getElem?_eq_none_iff] at hget
        omega
    | some e => rfl
  have := h _ _ hlast
  omega

theorem Consecutive.belowFirst_iff (h : log.Consecutive) (i : Nat) :
    log.belowFirst i = true ↔ log.entries ≠ [] ∧ i ≤ log.lastIndex := by
  unfold belowFirst
  cases hentries : log.entries with
  | nil => simp
  | cons e es =>
      have he := h 0 e (by simp [hentries])
      simp only [List.head?_cons, Option.any_some, decide_eq_true_eq, ne_eq, reduceCtorEq,
        not_false_eq_true, true_and]
      omega

theorem Consecutive.get_eq (h : log.Consecutive) (i : Nat) :
    log.get i =
      if i = 0 then some logEntrySentry
      else if log.lastIndex < i then log.entries[i - log.lastIndex - 1]? else none := by
  unfold get
  by_cases hi : i = 0
  · subst hi
    simp
  rw [if_neg hi, if_neg hi]
  by_cases hnil : log.entries = []
  · have hlast : log.lastEntry.index = 0 := by simp [lastEntry, hnil, logEntrySentry]
    rw [if_pos (.inl (by omega))]
    simp [hnil]
  have hlast := h.lastEntry_index hnil
  by_cases hbase : log.lastIndex < i
  · rw [if_pos hbase]
    by_cases hhi : log.lastEntry.index < i
    · rw [if_pos (.inl hhi), eq_comm, List.getElem?_eq_none_iff]
      omega
    · have hbelow : ¬ (i ≠ 0 ∧ log.belowFirst i) := by
        rw [h.belowFirst_iff]
        omega
      rw [if_neg (not_or.mpr ⟨hhi, hbelow⟩), infos]
      obtain ⟨k, hk⟩ : ∃ k, i - log.lastIndex = k + 1 := ⟨i - log.lastIndex - 1, by omega⟩
      rw [hk]
      rfl
  · rw [if_neg hbase, if_pos (.inr ⟨hi, (h.belowFirst_iff i).mpr ⟨hnil, by omega⟩⟩)]

theorem Consecutive.outOfRange_iff (h : log.Consecutive) (i : Nat) :
    log.outOfRange i = false ↔
      log.lastIndex < i ∧ i ≤ log.lastIndex + log.entries.length := by
  have hbelow : log.belowFirst i = false ↔ ¬ (log.entries ≠ [] ∧ i ≤ log.lastIndex) := by
    rw [← h.belowFirst_iff, Bool.not_eq_true]
  simp only [outOfRange, Bool.or_eq_false_iff, decide_eq_false_iff_not, hbelow]
  by_cases hnil : log.entries = []
  · have hlast : log.lastEntry.index = 0 := by simp [lastEntry, hnil, logEntrySentry]
    simp only [hlast, hnil, List.length_nil]
    omega
  · have hlast := h.lastEntry_index hnil
    have hpos := List.length_pos_of_ne_nil hnil
    simp only [hlast, hnil, ne_eq, not_false_eq_true, true_and]
    omega

theorem Consecutive.lastEntryIndex_eq (h : log.Consecutive) :
    log.lastEntryIndex = log.lastIndex + log.entries.length := by
  unfold lastEntryIndex
  split
  · rename_i hnil
    simp [hnil]
  · exact h.lastEntry_index ‹_›

theorem Consecutive.drop_eq (h : log.Consecutive) {i : Nat} {new : EntryLogger}
    (hdrop : log.drop i = some new) : ∃ k term, i = log.lastIndex + k + 1 ∧
      new = EntryLogger.copyStates { log with
        entries := log.entries.drop (k + 1)
        cfgEntryIndex := if log.cfgEntryIndex ≤ log.lastIndex + k + 1 then 0
          else log.cfgEntryIndex } (log.configUpTo (log.lastIndex + k + 1))
          (log.lastIndex + k + 1) term := by
  unfold EntryLogger.drop at hdrop
  split at hdrop
  · cases hdrop
  rename_i hrange
  obtain ⟨hlo, -⟩ := (h.outOfRange_iff i).mp (by simpa using hrange)
  obtain ⟨k, rfl⟩ : ∃ k, i = log.lastIndex + k + 1 := ⟨i - log.lastIndex - 1, by omega⟩
  have hsub : log.lastIndex + k + 1 - log.lastIndex = k + 1 := by omega
  split at hdrop
  · cases hdrop
  rename_i e hget
  rw [hsub, Option.some.injEq] at hdrop
  exact ⟨k, e.term, rfl, hdrop.symm⟩

/-! ## Links -/

/-- A link of the chain: below the base, or the index of a held configuration. -/
def Links (log : EntryLogger) (cfg : Nat) : Prop :=
  cfg ≤ log.lastIndex ∨ ∃ x ∈ log.entries, x.config = true ∧ x.index = cfg

structure Chained (log : EntryLogger) : Prop where
  newest : log.Links log.cfgEntryIndex
  prev : ∀ x ∈ log.entries, x.config = true → x.prevCfg < x.index ∧ log.Links x.prevCfg

theorem Consecutive.mem_bounds (h : log.Consecutive) {x : LogEntry} (hx : x ∈ log.entries) :
    log.lastIndex < x.index ∧ x.index ≤ log.lastIndex + log.entries.length := by
  obtain ⟨k, hk, rfl⟩ := List.getElem_of_mem hx
  have := h k _ (List.getElem?_eq_getElem hk)
  omega

theorem Consecutive.get_mem (h : log.Consecutive) {x : LogEntry} (hx : x ∈ log.entries) :
    log.get x.index = some x := by
  obtain ⟨k, hk, rfl⟩ := List.getElem_of_mem hx
  have hindex := h k _ (List.getElem?_eq_getElem hk)
  have hsub : log.entries[k].index - log.lastIndex - 1 = k := by omega
  rw [h.get_eq, if_neg (by omega), if_pos (by omega), hsub, List.getElem?_eq_getElem hk]

theorem Links.cut {cfg : Nat} (h : log.Links cfg) (hcons : log.Consecutive) {k : Nat}
    (hlt : cfg < log.lastIndex + k + 1) (cfg' : Nat) :
    Links { log with entries := log.entries.take k, cfgEntryIndex := cfg' } cfg := by
  rcases h with hle | ⟨x, hx, hconfig, rfl⟩
  · exact .inl hle
  · refine .inr ⟨x, ?_, hconfig, rfl⟩
    obtain ⟨j, hj, rfl⟩ := List.getElem_of_mem hx
    have hindex := hcons j _ (List.getElem?_eq_getElem hj)
    exact List.mem_of_getElem? (i := j)
      (by rw [List.getElem?_take_of_lt (by omega), List.getElem?_eq_getElem hj])

namespace Chained

variable {batch : List LogEntry}

theorem append (hchain : log.Chained)
    (hnew : ∀ x ∈ batch, x.config = true → x.prevCfg = log.cfgEntryIndex)
    (hbound : ∀ x ∈ batch, log.cfgEntryIndex < x.index) : (log.append batch).Chained := by
  have hlinks : ∀ cfg, log.Links cfg → (log.append batch).Links cfg := by
    rintro cfg (hle | ⟨x, hx, hconfig, hindex⟩)
    · exact .inl hle
    · exact .inr ⟨x, List.mem_append_left _ hx, hconfig, hindex⟩
  have hnewest : ∀ (es : List LogEntry) (cfg : Nat), (∀ x ∈ es, x ∈ batch) →
      (log.append batch).Links cfg → (log.append batch).Links (newestCfg cfg es) := by
    intro es
    induction es with
    | nil => exact fun cfg _ hcfg => hcfg
    | cons e es ih =>
        intro cfg hes hcfg
        refine ih _ (fun x hx => hes x (List.mem_cons_of_mem _ hx)) ?_
        dsimp only
        split
        · exact .inr ⟨e, List.mem_append_right _ (hes e List.mem_cons_self), ‹_›, rfl⟩
        · exact hcfg
  constructor
  · exact hnewest batch _ (fun x hx => hx) (hlinks _ hchain.newest)
  · intro x hx hconfig
    rcases List.mem_append.mp hx with hx | hx
    · obtain ⟨hlt, hprev⟩ := hchain.prev x hx hconfig
      exact ⟨hlt, hlinks _ hprev⟩
    · rw [hnew x hx hconfig]
      exact ⟨hbound x hx, hlinks _ hchain.newest⟩

theorem cut (hchain : log.Chained) (hcons : log.Consecutive) {k cfg : Nat}
    (hlinks : log.Links cfg) (hlt : cfg < log.lastIndex + k + 1) :
    EntryLogger.Chained { log with entries := log.entries.take k, cfgEntryIndex := cfg } := by
  constructor
  · exact hlinks.cut hcons hlt cfg
  · intro x hx hconfig
    obtain ⟨hprev, hlink⟩ := hchain.prev x (List.mem_of_mem_take hx) hconfig
    refine ⟨hprev, hlink.cut hcons ?_ cfg⟩
    obtain ⟨j, hj⟩ := List.getElem?_of_mem hx
    rw [List.getElem?_take, Option.ite_none_right_eq_some] at hj
    have hindex := hcons j x hj.2
    omega

theorem drop (hchain : log.Chained) (hcons : log.Consecutive) {k : Nat} (config : Bytes)
    (term : Nat) :
    (EntryLogger.copyStates { log with
      entries := log.entries.drop (k + 1)
      cfgEntryIndex := if log.cfgEntryIndex ≤ log.lastIndex + k + 1 then 0
        else log.cfgEntryIndex } config (log.lastIndex + k + 1) term).Chained := by
  have hlinks : ∀ cfg, log.Links cfg → cfg ≤ log.lastIndex + k + 1 ∨
      ∃ x ∈ log.entries.drop (k + 1), x.config = true ∧ x.index = cfg := by
    rintro cfg (hle | ⟨x, hx, hconfig, rfl⟩)
    · exact .inl (by omega)
    · obtain ⟨j, hj, rfl⟩ := List.getElem_of_mem hx
      have hindex := hcons j _ (List.getElem?_eq_getElem hj)
      by_cases hjk : j ≤ k
      · exact .inl (by omega)
      · refine .inr ⟨_, List.mem_of_getElem? (i := j - (k + 1)) ?_, hconfig, rfl⟩
        rw [List.getElem?_drop, Nat.add_sub_cancel' (by omega), List.getElem?_eq_getElem hj]
  constructor
  · dsimp only [EntryLogger.copyStates, EntryLogger.Links]
    split
    · exact .inl (Nat.zero_le _)
    · exact hlinks _ hchain.newest
  · intro x hx hconfig
    obtain ⟨hlt, hlink⟩ := hchain.prev x (List.mem_of_mem_drop hx) hconfig
    exact ⟨hlt, hlinks _ hlink⟩

/-! ## The walk down the chain -/

theorem cfg_le (hchain : log.Chained) (hcons : log.Consecutive) :
    log.cfgEntryIndex ≤ log.lastIndex + log.entries.length := by
  rcases hchain.newest with hle | ⟨x, hx, -, hindex⟩
  · omega
  · have := hcons.mem_bounds hx
    omega

/-- The walk ends below the index, at a link that no entry from the index on passes over. -/
theorem cfgBelow_spec (hchain : log.Chained) (hcons : log.Consecutive) {i : Nat}
    (hi : log.lastIndex < i) {n cfg : Nat} (hcfg : log.Links cfg) (hn : cfg ≤ log.lastIndex + n) :
    log.cfgBelow i n cfg < i ∧ log.Links (log.cfgBelow i n cfg) ∧
      (log.cfgBelow i n cfg = cfg ∨
        ∃ x ∈ log.entries, x.config = true ∧ x.prevCfg = log.cfgBelow i n cfg) ∧
      ∀ d, d < i → d ≤ cfg →
        (∀ x ∈ log.entries, x.config = true → i ≤ x.index → d ≤ x.prevCfg) →
        d ≤ log.cfgBelow i n cfg := by
  induction n generalizing cfg with
  | zero => exact ⟨Nat.lt_of_le_of_lt hn hi, hcfg, .inl rfl, fun d _ hd _ => hd⟩
  | succ n ih =>
      rw [cfgBelow]
      by_cases hle : i ≤ cfg
      · rcases hcfg with hbase | ⟨x, hx, hconfig, rfl⟩
        · omega
        · obtain ⟨hlt, hprev⟩ := hchain.prev x hx hconfig
          rw [if_pos hle, hcons.get_mem hx]
          obtain ⟨hbelow, hlink, hwhere, hover⟩ := ih hprev (by omega)
          refine ⟨hbelow, hlink, .inr ?_, fun d hd _ hall =>
            hover d hd (hall x hx hconfig hle) hall⟩
          rcases hwhere with hsame | hheld
          · exact ⟨x, hx, hconfig, hsame.symm⟩
          · exact hheld
      · rw [if_neg hle]
        exact ⟨by omega, hcfg, .inl rfl, fun d _ hd _ => hd⟩

end Chained

/-! ## The newest configuration -/

def newestEntry (log : EntryLogger) : Option LogEntry := log.entries.reverse.find? (·.config)

/-- The newest configuration: that of the newest entry, or the one of the stat file. -/
def newestConfig (log : EntryLogger) : Bytes := (log.newestEntry.map (·.data)).getD log.lastConfig

theorem newestEntry_mem {x : LogEntry} (h : log.newestEntry = some x) :
    x ∈ log.entries ∧ x.config = true := by
  have hconfig := List.find?_some (p := fun x : LogEntry => x.config) h
  exact ⟨List.mem_reverse.mp (List.mem_of_find?_eq_some h), hconfig⟩

theorem newestEntry_eq_none : log.newestEntry = none ↔ ∀ x ∈ log.entries, x.config = false := by
  simp [newestEntry]

theorem newestEntry_append (log : EntryLogger) (batch : List LogEntry) :
    (log.append batch).newestEntry = (batch.reverse.find? (·.config)).or log.newestEntry := by
  simp [newestEntry, append, List.find?_append]

theorem Consecutive.lt_of_append (h : log.Consecutive) {before after : List LogEntry}
    (hentries : log.entries = before ++ after) {x y : LogEntry} (hx : x ∈ before) (hy : y ∈ after) :
    x.index < y.index := by
  obtain ⟨i, hi, rfl⟩ := List.getElem_of_mem hx
  obtain ⟨j, hj, rfl⟩ := List.getElem_of_mem hy
  have hx' := h i before[i] (by
    rw [hentries, List.getElem?_append_left hi, List.getElem?_eq_getElem])
  have hy' := h (before.length + j) after[j] (by
    rw [hentries, List.getElem?_append_right (Nat.le_add_right _ _), Nat.add_sub_cancel_left,
      List.getElem?_eq_getElem])
  omega

theorem Consecutive.newestEntry_le (h : log.Consecutive) {x : LogEntry}
    (hx : log.newestEntry = some x) : ∀ y ∈ log.entries, y.config = true → y.index ≤ x.index := by
  obtain ⟨-, after, before, hsplit, hnone⟩ := List.find?_eq_some_iff_append.mp hx
  have hentries : log.entries = (before.reverse ++ [x]) ++ after.reverse := by
    have := congrArg List.reverse hsplit
    simpa using this
  intro y hy hconfig
  rw [hentries] at hy
  rcases List.mem_append.mp hy with hy | hy
  · rcases List.mem_append.mp hy with hy | hy
    · rw [List.append_assoc] at hentries
      have hlt := h.lt_of_append hentries hy (show x ∈ [x] ++ after.reverse by simp)
      exact Nat.le_of_lt hlt
    · exact Nat.le_of_eq (congrArg (·.index) (List.mem_singleton.mp hy))
  · have := hnone y (List.mem_reverse.mp hy)
    simp [hconfig] at this

/-- No link from the index on passes over a configuration entry below the index. -/
def Unskipped (log : EntryLogger) (i : Nat) : Prop :=
  ∀ d ∈ log.entries, d.config = true → d.index < i →
    ∀ e ∈ log.entries, e.config = true → i ≤ e.index → d.index ≤ e.prevCfg

instance (log : EntryLogger) (i : Nat) : Decidable (log.Unskipped i) :=
  inferInstanceAs (Decidable (∀ d ∈ log.entries, d.config = true → d.index < i →
    ∀ e ∈ log.entries, e.config = true → i ≤ e.index → d.index ≤ e.prevCfg))

/-- The chain begins at the newest configuration entry. -/
structure Traced (log : EntryLogger) : Prop extends Chained log where
  consecutive : log.Consecutive
  newest_le : ∀ x ∈ log.entries, x.config = true → x.index ≤ log.cfgEntryIndex

namespace Traced

variable {batch : List LogEntry}

theorem newestEntry_index (h : log.Traced) {x : LogEntry} (hx : log.newestEntry = some x) :
    x.index = log.cfgEntryIndex := by
  obtain ⟨hmem, hconfig⟩ := newestEntry_mem hx
  have hle := h.newest_le x hmem hconfig
  have hbase := h.consecutive.mem_bounds hmem
  rcases h.newest with hlow | ⟨y, hy, hyconfig, hindex⟩
  · omega
  · have := h.consecutive.newestEntry_le hx y hy hyconfig
    omega

theorem cfg_le_of_none (h : log.Traced) (hnone : log.newestEntry = none) :
    log.cfgEntryIndex ≤ log.lastIndex := by
  rcases h.newest with hlow | ⟨y, hy, hconfig, -⟩
  · exact hlow
  · rw [newestEntry_eq_none.mp hnone y hy] at hconfig
    cases hconfig

theorem config_eq (h : log.Traced) : log.config = (log.newestEntry.map (·.data)).getD [] := by
  cases hnewest : log.newestEntry with
  | some x =>
      rw [config, ← h.newestEntry_index hnewest,
        h.consecutive.get_mem (newestEntry_mem hnewest).1]
      rfl
  | none =>
      have hle := h.cfg_le_of_none hnewest
      rw [config, h.consecutive.get_eq]
      split
      · rfl
      · rename_i hsome
        split at hsome
        · cases hsome
          rfl
        · rw [if_neg (by omega)] at hsome
          cases hsome

/-- A batch is put on a chain; it may make up for a newest entry the chain does not begin at. -/
theorem append (hchain : log.Chained) (hcons : log.Consecutive)
    (hnew : (log.append batch).Consecutive)
    (hprev : ∀ x ∈ batch, x.config = true → x.prevCfg = log.cfgEntryIndex)
    (hnewest : (∀ x ∈ log.entries, x.config = true → x.index ≤ log.cfgEntryIndex) ∨
      ∃ x ∈ batch, x.config = true) : (log.append batch).Traced := by
  have hbound : ∀ x ∈ batch, log.lastIndex + log.entries.length < x.index := by
    intro x hx
    obtain ⟨j, hj, rfl⟩ := List.getElem_of_mem hx
    have := hnew (log.entries.length + j) batch[j] (by
      rw [EntryLogger.append, List.getElem?_append_right (Nat.le_add_right _ _),
        Nat.add_sub_cancel_left, List.getElem?_eq_getElem])
    simp only [EntryLogger.append] at this
    omega
  have hcfg := hchain.cfg_le hcons
  have hrises : ∀ (es : List LogEntry) (cfg : Nat), (∀ x ∈ es, cfg < x.index) →
      es.Pairwise (·.index < ·.index) → cfg ≤ newestCfg cfg es ∧
        ∀ x ∈ es, x.config = true → x.index ≤ newestCfg cfg es := by
    intro es
    induction es with
    | nil => exact fun cfg _ _ => ⟨Nat.le_refl _, by simp⟩
    | cons e es ih =>
        intro cfg hlt hsorted
        rw [List.pairwise_cons] at hsorted
        have hstep : newestCfg cfg (e :: es) =
            newestCfg (if e.config then e.index else cfg) es := rfl
        have he := hlt e List.mem_cons_self
        obtain ⟨hle, hall⟩ := ih (if e.config then e.index else cfg) (fun x hx => by
          split
          · exact hsorted.1 x hx
          · exact hlt x (List.mem_cons_of_mem _ hx)) hsorted.2
        rw [hstep]
        refine ⟨Nat.le_trans ?_ hle, fun x hx hconfig => ?_⟩
        · split
          · exact Nat.le_of_lt he
          · exact Nat.le_refl _
        · rcases List.mem_cons.mp hx with rfl | hx
          · rw [if_pos hconfig] at hle ⊢
            exact hle
          · exact hall x hx hconfig
  have hsorted : batch.Pairwise (·.index < ·.index) := by
    rw [List.pairwise_iff_getElem]
    intro i j hi hj hij
    have hplace : ∀ k (hk : k < batch.length), batch[k].index =
        log.lastIndex + (log.entries.length + k) + 1 := by
      intro k hk
      refine hnew (log.entries.length + k) batch[k] ?_
      rw [EntryLogger.append, List.getElem?_append_right (Nat.le_add_right _ _),
        Nat.add_sub_cancel_left, List.getElem?_eq_getElem]
    rw [hplace i hi, hplace j hj]
    omega
  obtain ⟨hle, hall⟩ := hrises batch log.cfgEntryIndex
    (fun x hx => Nat.lt_of_le_of_lt hcfg (hbound x hx)) hsorted
  refine ⟨hchain.append hprev fun x hx => Nat.lt_of_le_of_lt hcfg (hbound x hx), hnew, ?_⟩
  intro x hx hconfig
  change x.index ≤ newestCfg log.cfgEntryIndex batch
  rcases List.mem_append.mp hx with hx | hx
  · rcases hnewest with hold | ⟨y, hy, hyconfig⟩
    · exact Nat.le_trans (hold x hx hconfig) hle
    · have hx' := hcons.mem_bounds hx
      have hy' := hbound y hy
      have hle := hall y hy hyconfig
      omega
  · exact hall x hx hconfig

theorem configUpTo_eq (h : log.Traced) {i : Nat} (hle : log.cfgEntryIndex ≤ i) :
    log.configUpTo i = (log.newestEntry.map (·.data)).getD [] := by
  have hstay : log.cfgBelow (i + 1) log.entries.length log.cfgEntryIndex = log.cfgEntryIndex := by
    cases log.entries.length with
    | zero => rfl
    | succ n => rw [cfgBelow, if_neg (by omega)]
  rw [configUpTo, hstay, ← h.config_eq, config]
  split
  · rename_i hzero
    rw [hzero, h.consecutive.get_eq, if_pos rfl]
    rfl
  · rfl

theorem configUpTo_mem (h : log.Traced) {i : Nat} (hi : log.lastIndex ≤ i) :
    log.configUpTo i = [] ∨
      ∃ x ∈ log.entries, x.config = true ∧ x.data = log.configUpTo i := by
  obtain ⟨-, hlinks, -, -⟩ := h.cfgBelow_spec h.consecutive (i := i + 1) (by omega) h.newest
    (h.cfg_le h.consecutive)
  unfold configUpTo
  dsimp only
  rcases hlinks with hbase | ⟨x, hx, hconfig, hindex⟩
  · by_cases hzero : log.cfgBelow (i + 1) log.entries.length log.cfgEntryIndex = 0
    · exact .inl (if_pos hzero)
    · rw [h.consecutive.get_eq, if_neg hzero, if_neg hzero, if_neg (by omega)]
      exact .inl rfl
  · have hbounds := h.consecutive.mem_bounds hx
    refine .inr ⟨x, hx, hconfig, ?_⟩
    rw [← hindex, h.consecutive.get_mem hx, if_neg (by omega)]

theorem drop_traced (h : log.Traced) {i : Nat} {new : EntryLogger}
    (hdrop : log.drop i = some new) : new.Traced := by
  obtain ⟨k, term, rfl, hnew⟩ := h.consecutive.drop_eq hdrop
  have hchained := h.toChained.drop h.consecutive (k := k)
    (log.configUpTo (log.lastIndex + k + 1)) term
  have hentries : new.entries = log.entries.drop (k + 1) := hnew ▸ rfl
  have hlast : new.lastIndex = log.lastIndex + k + 1 := hnew ▸ rfl
  have hcfg : new.cfgEntryIndex =
      if log.cfgEntryIndex ≤ log.lastIndex + k + 1 then 0 else log.cfgEntryIndex := hnew ▸ rfl
  rw [← hnew] at hchained
  have hcons : new.Consecutive := by
    intro j x hx
    rw [hentries, List.getElem?_drop] at hx
    have := h.consecutive _ x hx
    omega
  refine ⟨hchained, hcons, fun x hx hconfig => ?_⟩
  have hle := h.newest_le x (List.mem_of_mem_drop (hentries ▸ hx)) hconfig
  have hgt := (hcons.mem_bounds hx).1
  rw [hcfg, if_neg (by omega)]
  exact hle

/-- Dropping entries leaves the newest configuration, in the log or in the stat file. -/
theorem drop (h : log.Traced) (hdata : ∀ x ∈ log.entries, x.config = true → x.data ≠ [])
    {i : Nat} {new : EntryLogger} (hdrop : log.drop i = some new) :
    new.Traced ∧ new.newestConfig = log.newestConfig := by
  have htraced := h.drop_traced hdrop
  obtain ⟨k, term, rfl, hnew⟩ := h.consecutive.drop_eq hdrop
  have hentries : new.entries = log.entries.drop (k + 1) := hnew ▸ rfl
  have hlast : new.lastIndex = log.lastIndex + k + 1 := hnew ▸ rfl
  have hmem : ∀ x ∈ new.entries, x ∈ log.entries := fun x hx =>
    List.mem_of_mem_drop (hentries ▸ hx)
  refine ⟨htraced, ?_⟩
  by_cases hle : log.cfgEntryIndex ≤ log.lastIndex + k + 1
  · have hnone : new.newestEntry = none := by
      rw [newestEntry_eq_none]
      intro x hx
      by_contra hconfig
      have hle' := h.newest_le x (hmem x hx) (by simpa using hconfig)
      have hgt := (htraced.consecutive.mem_bounds hx).1
      omega
    have hlastConfig : new.lastConfig =
        if log.configUpTo (log.lastIndex + k + 1) = [] then log.lastConfig
        else log.configUpTo (log.lastIndex + k + 1) := hnew ▸ rfl
    rw [newestConfig, hnone, Option.map_none, Option.getD_none, hlastConfig,
      h.configUpTo_eq hle, newestConfig]
    cases hnewest : log.newestEntry with
    | none => rfl
    | some x =>
        obtain ⟨hx, hconfig⟩ := newestEntry_mem hnewest
        exact if_neg (hdata x hx hconfig)
  · have hsome : ∃ x, log.newestEntry = some x := by
      rw [← Option.ne_none_iff_exists']
      intro hnone
      have := h.cfg_le_of_none hnone
      omega
    obtain ⟨x, hx⟩ := hsome
    have hindex := h.newestEntry_index hx
    -- the newest entry is behind the index
    have hkeeps : new.newestEntry = some x := by
      have hsplit : log.entries = log.entries.take (k + 1) ++ log.entries.drop (k + 1) :=
        (List.take_append_drop _ _).symm
      have hor : log.newestEntry =
          ((log.entries.drop (k + 1)).reverse.find? (·.config)).or
            ((log.entries.take (k + 1)).reverse.find? (·.config)) := by
        rw [newestEntry]
        conv_lhs => rw [hsplit]
        rw [List.reverse_append, List.find?_append]
      rw [newestEntry, hentries]
      cases hfind : (log.entries.drop (k + 1)).reverse.find? (·.config) with
      | some y =>
          rw [hfind, hx] at hor
          exact hor.symm
      | none =>
          rw [hfind, Option.none_or, hx] at hor
          have hmem := List.mem_reverse.mp (List.mem_of_find?_eq_some hor.symm)
          obtain ⟨j, hj⟩ := List.getElem?_of_mem hmem
          rw [List.getElem?_take, Option.ite_none_right_eq_some] at hj
          have := h.consecutive j x hj.2
          omega
    rw [newestConfig, hkeeps, newestConfig, hx]
    rfl

/-- What `chop` leaves: a chain, which begins at the newest entry when no link skips one. -/
theorem chop (h : log.Traced) {i : Nat} {new : EntryLogger} (hchop : log.chop i = some new) :
    new.Chained ∧ new.Consecutive ∧
      (∀ x, x ∈ new.entries ↔ x ∈ log.entries ∧ x.index < i) ∧
      new.lastConfig = log.lastConfig ∧
      (new.cfgEntryIndex = log.cfgEntryIndex ∨
        ∃ x ∈ log.entries, x.config = true ∧ x.prevCfg = new.cfgEntryIndex) ∧
      (log.Unskipped i → ∀ x ∈ new.entries, x.config = true → x.index ≤ new.cfgEntryIndex) := by
  unfold EntryLogger.chop at hchop
  split at hchop
  · cases hchop
  rename_i hrange
  obtain ⟨hlo, hhi⟩ := (h.consecutive.outOfRange_iff i).mp (by simpa using hrange)
  obtain ⟨k, rfl⟩ : ∃ k, i = log.lastIndex + k + 1 := ⟨i - log.lastIndex - 1, by omega⟩
  have hsub : log.lastIndex + k + 1 - log.lastIndex - 1 = k := by omega
  obtain ⟨hbelow, hlink, hwhere, hover⟩ := h.cfgBelow_spec h.consecutive hlo h.newest
    (h.cfg_le h.consecutive)
  rw [hsub, Option.some.injEq] at hchop
  subst hchop
  have hmem : ∀ x, x ∈ log.entries.take k ↔ x ∈ log.entries ∧ x.index < log.lastIndex + k + 1 := by
    intro x
    constructor
    · intro hx
      obtain ⟨j, hj⟩ := List.getElem?_of_mem hx
      rw [List.getElem?_take, Option.ite_none_right_eq_some] at hj
      have := h.consecutive j x hj.2
      exact ⟨List.mem_of_mem_take hx, by omega⟩
    · rintro ⟨hx, hlt⟩
      obtain ⟨j, hj⟩ := List.getElem?_of_mem hx
      have := h.consecutive j x hj
      exact List.mem_of_getElem? (i := j) (by rw [List.getElem?_take_of_lt (by omega), hj])
  refine ⟨h.toChained.cut h.consecutive hlink hbelow, ?_, hmem, rfl, hwhere, ?_⟩
  · intro j x hx
    rw [List.getElem?_take, Option.ite_none_right_eq_some] at hx
    exact h.consecutive j x hx.2
  · intro hunskipped x hx hconfig
    obtain ⟨hx, hlt⟩ := (hmem x).mp hx
    exact hover x.index hlt (h.newest_le x hx hconfig) (hunskipped x hx hconfig hlt)

theorem newestConfig_eq (h : log.Traced) {new : EntryLogger} (hnew : new.Traced)
    (hcfg : new.cfgEntryIndex = log.cfgEntryIndex) (hindex : new.lastIndex = log.lastIndex)
    (hlast : new.lastConfig = log.lastConfig)
    (hsub : ∀ x ∈ new.entries, x.config = true → x ∈ log.entries) :
    new.newestConfig = log.newestConfig := by
  have hentry : new.newestEntry = log.newestEntry := by
    cases hx : new.newestEntry with
    | none =>
        have hle := hnew.cfg_le_of_none hx
        cases hy : log.newestEntry with
        | none => rfl
        | some y =>
            have hyindex := h.newestEntry_index hy
            have hybase := h.consecutive.mem_bounds (newestEntry_mem hy).1
            omega
    | some x =>
        obtain ⟨hxmem, hxconfig⟩ := newestEntry_mem hx
        have hxindex := hnew.newestEntry_index hx
        have hxget := h.consecutive.get_mem (hsub x hxmem hxconfig)
        cases hy : log.newestEntry with
        | none =>
            rw [newestEntry_eq_none.mp hy x (hsub x hxmem hxconfig)] at hxconfig
            cases hxconfig
        | some y =>
            have hyindex := h.newestEntry_index hy
            have hyget := h.consecutive.get_mem (newestEntry_mem hy).1
            rw [hyindex, ← hcfg, ← hxindex, hxget] at hyget
            exact hyget
  rw [newestConfig, hentry, hlast, newestConfig]

theorem copyStates {config : Bytes} {index term : Nat} (hnil : log.entries = [])
    (hle : log.cfgEntryIndex ≤ index) : (log.copyStates config index term).Traced := by
  refine ⟨⟨.inl hle, ?_⟩, ?_, ?_⟩ <;> simp [EntryLogger.copyStates, hnil, Consecutive]

end Traced

end EntryLogger

end Draft
