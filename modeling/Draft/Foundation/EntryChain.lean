import Draft.Foundation.ConsecutiveLog

/-!
# The chain above an entry

Whatever lies below a configuration entry, the chain of the entries above it
leads down to it.  Entries put on the log, a cut above the entry and a base
below it keep this.
-/

namespace Draft.EntryLogger

variable {log new : EntryLogger} {x : LogEntry} {batch : List LogEntry} {i : Nat}

/-- The index is that of a held configuration entry, the given one or one above it. -/
def LeadsTo (log : EntryLogger) (x : LogEntry) (cfg : Nat) : Prop :=
  ∃ e ∈ log.entries, e.config = true ∧ x.index ≤ e.index ∧ e.index = cfg

structure ChainedTo (log : EntryLogger) (x : LogEntry) : Prop where
  mem : x ∈ log.entries
  newest : log.LeadsTo x log.cfgEntryIndex
  prev : ∀ e ∈ log.entries, e.config = true → x.index < e.index →
    e.prevCfg < e.index ∧ log.LeadsTo x e.prevCfg

theorem LeadsTo.mono {cfg : Nat} (h : log.LeadsTo x cfg)
    (hsub : ∀ e ∈ log.entries, e ∈ new.entries) : new.LeadsTo x cfg := by
  obtain ⟨e, he, hrest⟩ := h
  exact ⟨e, hsub e he, hrest⟩

namespace ChainedTo

theorem index_le (h : log.ChainedTo x) : x.index ≤ log.cfgEntryIndex := by
  obtain ⟨e, -, -, hle, hindex⟩ := h.newest
  omega

theorem last (hcons : log.Consecutive) (hconfig : x.config = true)
    (hindex : x.index = log.lastEntryIndex + 1) : (log.append [x]).ChainedTo x where
  mem := by simp [EntryLogger.append]
  newest := ⟨x, by simp [EntryLogger.append], hconfig, Nat.le_refl _, by
    simp [EntryLogger.append, hconfig]⟩
  prev := by
    intro e he _ hlt
    rcases List.mem_append.mp he with he | he
    · have hbounds := hcons.mem_bounds he
      have hlast := hcons.lastEntryIndex_eq
      omega
    · rw [List.mem_singleton.mp he] at hlt
      exact absurd hlt (Nat.lt_irrefl _)

theorem append (h : log.ChainedTo x) (hnew : (log.append batch).Consecutive)
    (hprev : ∀ e ∈ batch, e.config = true → e.prevCfg = log.cfgEntryIndex) :
    (log.append batch).ChainedTo x := by
  have hold : ∀ e ∈ log.entries, e ∈ (log.append batch).entries :=
    fun e he => List.mem_append_left _ he
  have hbound : ∀ e ∈ batch, x.index < e.index ∧ log.cfgEntryIndex < e.index := by
    intro e he
    obtain ⟨d, hd, -, -, hindex⟩ := h.newest
    have hx := hnew.lt_of_append rfl h.mem he
    have hcfg := hnew.lt_of_append rfl hd he
    omega
  have hnewest : ∀ (es : List LogEntry) (cfg : Nat), (∀ e ∈ es, e ∈ batch) →
      (log.append batch).LeadsTo x cfg → (log.append batch).LeadsTo x (newestCfg cfg es) := by
    intro es
    induction es with
    | nil => exact fun cfg _ hcfg => hcfg
    | cons e es ih =>
        intro cfg hes hcfg
        refine ih _ (fun d hd => hes d (List.mem_cons_of_mem _ hd)) ?_
        have he := hes e List.mem_cons_self
        dsimp only
        split
        · exact ⟨e, List.mem_append_right _ he, ‹_›, Nat.le_of_lt (hbound e he).1, rfl⟩
        · exact hcfg
  refine ⟨hold x h.mem, hnewest batch _ (fun e he => he) (h.newest.mono hold), ?_⟩
  intro e he hconfig hlt
  rcases List.mem_append.mp he with he | he
  · obtain ⟨hdown, hreach⟩ := h.prev e he hconfig hlt
    exact ⟨hdown, hreach.mono hold⟩
  · rw [hprev e he hconfig]
    exact ⟨(hbound e he).2, h.newest.mono hold⟩

theorem append_plain (h : log.ChainedTo x) {e : LogEntry} (hplain : e.config = false) :
    (log.append [e]).ChainedTo x := by
  have hold : ∀ d ∈ log.entries, d ∈ (log.append [e]).entries :=
    fun d hd => List.mem_append_left _ hd
  have hcfg : (log.append [e]).cfgEntryIndex = log.cfgEntryIndex := by
    simp [EntryLogger.append, hplain]
  refine ⟨hold x h.mem, hcfg ▸ h.newest.mono hold, ?_⟩
  intro d hd hconfig hlt
  rcases List.mem_append.mp hd with hd | hd
  · obtain ⟨hdown, hreach⟩ := h.prev d hd hconfig hlt
    exact ⟨hdown, hreach.mono hold⟩
  · rw [List.mem_singleton.mp hd, hplain] at hconfig
    cases hconfig

/-- The walk down to an index above the entry does not pass over the entry. -/
theorem cfgBelow_leadsTo (h : log.ChainedTo x) (hcons : log.Consecutive) (hlt : x.index < i)
    {n cfg : Nat} (hcfg : log.LeadsTo x cfg) (hn : cfg ≤ log.lastIndex + n) :
    log.cfgBelow i n cfg < i ∧ log.LeadsTo x (log.cfgBelow i n cfg) := by
  induction n generalizing cfg with
  | zero =>
      obtain ⟨e, he, -, -, rfl⟩ := hcfg
      have := hcons.mem_bounds he
      omega
  | succ n ih =>
      rw [cfgBelow]
      by_cases hle : i ≤ cfg
      · obtain ⟨e, he, hconfig, -, rfl⟩ := hcfg
        obtain ⟨hdown, hreach⟩ := h.prev e he hconfig (by omega)
        rw [if_pos hle, hcons.get_mem he]
        exact ih hreach (by omega)
      · rw [if_neg hle]
        exact ⟨by omega, hcfg⟩

theorem chop (h : log.ChainedTo x) (hcons : log.Consecutive) (hlt : x.index < i)
    (hchop : log.chop i = some new) : new.ChainedTo x := by
  have hentries := (chop_entries hchop).2
  have hmem : ∀ {e : LogEntry}, e ∈ new.entries ↔ e ∈ log.entries ∧ e.index < i :=
    fun {e} => by rw [hentries]; exact hcons.mem_take
  have hcut : ∀ {cfg : Nat}, cfg < i → log.LeadsTo x cfg → new.LeadsTo x cfg := by
    rintro _ hcfg ⟨e, he, hconfig, hle, rfl⟩
    exact ⟨e, hmem.mpr ⟨he, hcfg⟩, hconfig, hle, rfl⟩
  refine ⟨hmem.mpr ⟨h.mem, hlt⟩, ?_, ?_⟩
  · obtain ⟨e, he, -, -, hindex⟩ := h.newest
    have hbounds := hcons.mem_bounds he
    obtain ⟨hbelow, hreach⟩ := h.cfgBelow_leadsTo hcons hlt h.newest
      (n := log.entries.length) (by omega)
    have hcfg : new.cfgEntryIndex = log.cfgBelow i log.entries.length log.cfgEntryIndex := by
      unfold EntryLogger.chop at hchop
      split at hchop
      · cases hchop
      · rw [← Option.some.inj hchop]
    rw [hcfg]
    exact hcut hbelow hreach
  · intro e he hconfig hlt
    obtain ⟨he, hei⟩ := hmem.mp he
    obtain ⟨hdown, hreach⟩ := h.prev e he hconfig hlt
    exact ⟨hdown, hcut (Nat.lt_trans hdown hei) hreach⟩

theorem drop (h : log.ChainedTo x) (hcons : log.Consecutive) (hlt : i < x.index)
    (hdrop : log.drop i = some new) : new.ChainedTo x := by
  obtain ⟨k, term, rfl, rfl⟩ := hcons.drop_eq hdrop
  have hkept : ∀ e ∈ log.entries, x.index ≤ e.index → e ∈ log.entries.drop (k + 1) := by
    intro e he hle
    obtain ⟨j, hj, rfl⟩ := List.getElem_of_mem he
    have hindex := hcons j _ (List.getElem?_eq_getElem hj)
    refine List.mem_of_getElem? (i := j - (k + 1)) ?_
    rw [List.getElem?_drop, Nat.add_sub_cancel' (by omega), List.getElem?_eq_getElem hj]
  have hreach : ∀ {cfg : Nat} {t : EntryLogger}, t.entries = log.entries.drop (k + 1) →
      log.LeadsTo x cfg → t.LeadsTo x cfg := by
    rintro _ t ht ⟨e, he, hconfig, hle, rfl⟩
    exact ⟨e, ht ▸ hkept e he hle, hconfig, hle, rfl⟩
  have hcfg := h.index_le
  refine ⟨hkept x h.mem (Nat.le_refl _), ?_, ?_⟩
  · have hsame : (if log.cfgEntryIndex ≤ log.lastIndex + k + 1 then 0 else log.cfgEntryIndex) =
        log.cfgEntryIndex := if_neg (by omega)
    refine hreach rfl ?_
    dsimp only [EntryLogger.copyStates]
    rw [hsame]
    exact h.newest
  · intro e he hconfig hgt
    obtain ⟨hdown, hprev⟩ := h.prev e (List.mem_of_mem_drop he) hconfig hgt
    exact ⟨hdown, hreach rfl hprev⟩

end ChainedTo

end Draft.EntryLogger
