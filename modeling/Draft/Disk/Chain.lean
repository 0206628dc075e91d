import Draft.Disk.Operations

/-!
# The configuration chain

As long as every configuration entry points below itself, to a held one or
below the base, `chop` and `drop` find their way and do to the files what
`EntryLogger` says.
-/

namespace Draft

open Disk

/-! ## Growing a file -/

theorem growths_isSome {factor : ℚ} {enough : Nat → Bool} {need : Nat}
    (hgrow : ∀ size, 4 ≤ size → size < grownSize factor size)
    (henough : ∀ size, need ≤ size → enough size = true) {fuel size : Nat} (hsize : 4 ≤ size)
    (hfuel : need < size + fuel) (hpos : 0 < fuel) :
    (growths factor enough fuel size).isSome := by
  induction fuel generalizing size with
  | zero => omega
  | succ fuel ih =>
      rw [growths]
      split
      · rfl
      · rename_i hnot
        have hlt : size < need := by
          by_contra hle
          exact hnot (henough size (by omega))
        have hmore := hgrow size hsize
        rw [Option.isSome_map]
        exact ih (by omega) (by omega) (by omega)

theorem lt_grownSize_default {size : Nat} (h : 4 ≤ size) : size < grownSize (5 / 4) size := by
  refine Nat.lt_of_lt_of_le (Nat.lt_succ_self size) (le_trans ?_ (le_roundUp (by decide) _))
  refine Nat.le_floor ?_
  have hsize : (4 : ℚ) ≤ size := by exact_mod_cast h
  push_cast
  linarith

namespace LogFile.Stores

open EntryLogger

variable {f f' : LogFile} {log : EntryLogger} {batch : List LogEntry}

private theorem readPrevCfg_eq (h : f.Stores log) {x : LogEntry} (hx : x ∈ log.entries)
    (hconfig : x.config = true) :
    (f.offset x.index).bind (readPrevCfg f.ldbs) = some x.prevCfg := by
  obtain ⟨k, hk, rfl⟩ := List.getElem_of_mem hx
  have hindex := h.consecutive k _ (List.getElem?_eq_getElem hk)
  have hsub : log.entries[k].index - log.lastIndex = k + 1 := by omega
  have hget : log.infos[k + 1]? = some log.entries[k] := by
    simp [EntryLogger.infos, hk]
  obtain ⟨post, himage⟩ := h.image_split hget
  rw [h.offset_eq, if_neg (by omega), if_pos (by omega), hsub, Option.bind_some, himage]
  exact readPrevCfg_append (length_encode _) (h.fits _ hx) hconfig

private theorem cfgBelow_eq (h : f.Stores log) (hchain : log.Chained) {i : Nat}
    (hi : log.lastIndex < i) {n m cfg : Nat} (hcfg : log.Links cfg)
    (hn : cfg ≤ log.lastIndex + n) (hm : n < m) :
    f.cfgBelow i m cfg = some (log.cfgBelow i n cfg) ∧ log.cfgBelow i n cfg < i ∧
      log.Links (log.cfgBelow i n cfg) := by
  obtain ⟨m, rfl⟩ : ∃ m', m = m' + 1 := ⟨m - 1, by omega⟩
  induction n generalizing m cfg with
  | zero =>
      rw [LogFile.cfgBelow, if_neg (by omega)]
      exact ⟨rfl, Nat.lt_of_le_of_lt hn hi, hcfg⟩
  | succ n ih =>
      rw [LogFile.cfgBelow, EntryLogger.cfgBelow]
      by_cases hle : i ≤ cfg
      · rcases hcfg with hbase | ⟨x, hx, hconfig, rfl⟩
        · omega
        · obtain ⟨hlt, hprev⟩ := hchain.prev x hx hconfig
          obtain ⟨m, rfl⟩ : ∃ m', m = m' + 1 := ⟨m - 1, by omega⟩
          rw [if_pos hle, if_pos hle, h.readPrevCfg_eq hx hconfig, h.consecutive.get_mem hx]
          exact ih hprev (by omega) m (by omega)
      · rw [if_neg hle, if_neg hle]
        exact ⟨rfl, by omega, hcfg⟩

private theorem cfgBelow_newest (h : f.Stores log) (hchain : log.Chained) {i : Nat}
    (hi : log.lastIndex < i) :
    f.cfgBelow i (f.infos.length + 1) f.cfgEntryIndex =
        some (log.cfgBelow i log.entries.length log.cfgEntryIndex) ∧
      log.cfgBelow i log.entries.length log.cfgEntryIndex < i ∧
      log.Links (log.cfgBelow i log.entries.length log.cfgEntryIndex) := by
  have hlength : f.infos.length = log.entries.length + 1 := by
    rw [h.infos, length_placed]
    rfl
  rw [h.cfg, hlength]
  refine h.cfgBelow_eq hchain hi hchain.newest ?_ (by omega)
  rcases hchain.newest with hle | ⟨x, hx, -, hindex⟩
  · omega
  · have := h.consecutive.mem_bounds hx
    omega

theorem configUpTo_eq (h : f.Stores log) (hchain : log.Chained) {i : Nat}
    (hi : log.lastIndex ≤ i) : f.configUpTo i = some (log.configUpTo i) := by
  obtain ⟨hcfg, -, -⟩ := h.cfgBelow_newest hchain (show log.lastIndex < i + 1 by omega)
  rw [LogFile.configUpTo, hcfg, Option.map_some, EntryLogger.configUpTo]
  split
  · rfl
  · rw [h.get_eq]
    cases log.get (log.cfgBelow (i + 1) log.entries.length log.cfgEntryIndex) <;> rfl

/-! ### `chop` -/

theorem chop_refines (h : f.Stores log) (hchain : log.Chained) (i : Nat) :
    match log.chop i with
    | none => f.chop i = some (f, .oor)
    | some log' => ∃ g, f.chop i = some (g, .good) ∧ g.Stores log' ∧ log'.Chained := by
  unfold EntryLogger.chop
  cases hrange : log.outOfRange i with
  | true =>
      rw [if_pos rfl]
      unfold LogFile.chop
      rw [h.outOfRange_eq, hrange, if_pos rfl]
  | false =>
      rw [if_neg (by simp)]
      dsimp only
      have hf : f.outOfRange i = false := by rw [h.outOfRange_eq, hrange]
      obtain ⟨k, hk, rfl, hplace⟩ := h.held hf
      obtain ⟨hcfg, hlt, hlinks⟩ := h.cfgBelow_newest hchain
        (show log.lastIndex < log.lastIndex + k + 1 by omega)
      have hinfo := h.infos_place (k := k + 1) (by simpa [EntryLogger.infos] using hk)
      have hsub : log.lastIndex + k + 1 - log.lastIndex - 1 = k := by omega
      have hsome : ∃ g, f.chop (log.lastIndex + k + 1) = some (g, .good) := by
        unfold LogFile.chop
        rw [hf, if_neg (by simp)]
        simp only [Option.bind_eq_bind, chopWrites, hplace, hinfo, hcfg, Option.map_some,
          Option.bind_some]
        exact ⟨_, rfl⟩
      obtain ⟨g, hg⟩ := hsome
      obtain ⟨k', cfg, -, hk', hcfg', hstores⟩ := h.chop hg
      obtain rfl : k' = k := by omega
      rw [hcfg, Option.some.injEq] at hcfg'
      subst hcfg'
      rw [hsub]
      exact ⟨g, hg, hstores, hchain.cut h.consecutive hlinks hlt⟩

/-! ### `drop` -/

private theorem copyWrites_isSome (h : f.Stores log) (hfactor : f.factor = 5 / 4) (config : Bytes)
    (index term : Nat) : (f.copyWrites config index term).isSome := by
  unfold LogFile.copyWrites
  split
  · rfl
  · rw [Option.isSome_map, hfactor]
    obtain ⟨size, rest, hstates⟩ := h.states
    have hlength : 32 ≤ f.stat.length := by
      simp only [hstates, List.length_append, length_word]
      omega
    refine growths_isSome (fun _ => lt_grownSize_default) (fun size hsize => ?_)
      (by omega : 4 ≤ f.stat.length)
      (by omega : config.length + statesSize < f.stat.length + (config.length + statesSize + 1))
      (Nat.succ_pos _)
    simp only [statHasRoom, decide_eq_true_eq]
    omega

theorem drop_refines (h : f.Stores log) (hchain : log.Chained) (hfactor : f.factor = 5 / 4)
    (i : Nat) :
    match log.drop i with
    | none => f.drop i = some (f, .oor)
    | some log' => ∃ g, f.drop i = some (g, .good) ∧ g.Stores log' ∧ log'.Chained := by
  unfold EntryLogger.drop
  cases hrange : log.outOfRange i with
  | true =>
      rw [if_pos rfl]
      unfold LogFile.drop
      dsimp only
      rw [h.outOfRange_eq, hrange, if_pos rfl]
  | false =>
      rw [if_neg (by simp)]
      have hf : f.outOfRange i = false := by rw [h.outOfRange_eq, hrange]
      obtain ⟨k, hk, rfl, -⟩ := h.held hf
      have hget : log.get (log.lastIndex + k + 1) = some log.entries[k] := by
        have hindex := h.consecutive k _ (List.getElem?_eq_getElem hk)
        rw [← hindex]
        exact h.consecutive.get_mem (List.getElem_mem hk)
      rw [hget]
      dsimp only
      have hconfig := h.configUpTo_eq hchain
        (show log.lastIndex ≤ log.lastIndex + k + 1 by omega)
      obtain ⟨ws, image, hentries, -⟩ := h.dropEntries hk
      obtain ⟨vs, hvs⟩ := Option.isSome_iff_exists.mp
        (h.copyWrites_isSome hfactor (log.configUpTo (log.lastIndex + k + 1))
          (log.lastIndex + k + 1) log.entries[k].term)
      have hsome : ∃ g, f.drop (log.lastIndex + k + 1) = some (g, .good) := by
        unfold LogFile.drop
        dsimp only
        rw [hf, if_neg (by simp), if_neg (by rw [h.first_inRange hk]; simp)]
        simp only [Option.bind_eq_bind, dropWrites, hentries, hconfig, h.get_held hk, hvs,
          Option.bind_some]
        exact ⟨_, rfl⟩
      obtain ⟨g, hg⟩ := hsome
      obtain ⟨k', hk', config, hk'', hconfig', hstores⟩ := h.drop hg
      obtain rfl : k' = k := by omega
      rw [hconfig, Option.some.injEq] at hconfig'
      subst hconfig'
      have hsub : log.lastIndex + k' + 1 - log.lastIndex = k' + 1 := by omega
      rw [hsub]
      exact ⟨g, hg, hstores, hchain.drop h.consecutive _ _⟩

end LogFile.Stores

end Draft
