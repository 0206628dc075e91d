import Draft.Disk.Storing

/-!
# Operations on stored logs

Each operation that succeeds turns a stored log into the stored log one
expects.  The configuration chain is followed, but nothing is said here of
where it leads.
-/

namespace Draft

open Disk

namespace LogFile.Stores

variable {f f' : LogFile} {log : EntryLogger}

theorem image_length (h : f.Stores log) : batchSize log.infos + 8 ≤ f.ldbs.length := by
  obtain ⟨rest, himage⟩ := h.image
  simp only [himage, List.length_append, length_encode, length_word]
  omega

theorem cut (h : f.Stores log) {k : Nat} (hk : k < log.infos.length) :
    (∃ rest, overwrite f.ldbs (batchSize (log.infos.take k)) (word 0) =
      encode (log.infos.take k) ++ (word 0 ++ rest)) ∧
    (overwrite f.ldbs (batchSize (log.infos.take k)) (word 0)).length = f.ldbs.length := by
  obtain ⟨post, himage⟩ := h.image_split (List.getElem?_eq_getElem hk)
  have hsize := log.infos[k].size_ge
  have htake : f.ldbs.take (batchSize (log.infos.take k)) = encode (log.infos.take k) := by
    rw [himage, ← length_encode, List.take_left]
  refine ⟨⟨_, by rw [overwrite, htake]⟩, length_overwrite ?_⟩
  rw [himage]
  simp only [List.length_append, length_encode, LogEntry.length_bytes, length_word, logEntrySize]
    at hsize ⊢
  omega

/-! ### `append` -/

theorem grown (h : f.Stores log) {batch : List LogEntry} {ws : List DiskWrite}
    (hws : f.appendWrites batch = some ws) :
    ∃ (sizes : List Nat) (d : Disk) (rest : Bytes),
      ws = sizes.map .growLdbs ++ entryWrites (batchSize log.infos) batch ∧
      growths f.factor (f.hasRoom batch) (f.payloadSize + batchSize batch + 10) f.ldbs.length =
        some sizes ∧
      f.toDisk.writes (sizes.map .growLdbs) = d ∧ d.stat = f.stat ∧
      d.ldbs = encode log.infos ++ (word 0 ++ rest) ∧ d.ldbs.length % pageSize = 0 ∧
      batchSize log.infos + batchSize batch + 8 < d.ldbs.length := by
  obtain ⟨sizes, hsizes, rfl⟩ := Option.map_eq_some_iff.mp hws
  obtain ⟨size', hle, hpage, henough, hwrites⟩ :=
    growths_spec h.factor h.ldbsPages hsizes
  obtain ⟨rest, himage⟩ := h.image
  have hroom : batchSize log.infos + batchSize batch + 8 < size' := by
    simp only [hasRoom, h.payload, decide_eq_true_eq] at henough
    omega
  refine ⟨sizes, _, rest ++ List.replicate (size' - f.ldbs.length) 0, by rw [h.tailEnd_eq],
    hsizes, (hwrites f.toDisk).1 rfl, rfl, ?_, ?_, ?_⟩
  · simp [himage]
  · simp only [List.length_append, List.length_replicate]
    rw [Nat.add_sub_cancel' hle]
    exact hpage
  · simp only [List.length_append, List.length_replicate]
    omega

theorem append (h : f.Stores log) {batch : List LogEntry} (hfits : ∀ e ∈ batch, e.Fits)
    (hcons : (log.append batch).Consecutive) (happend : f.append batch = some f') :
    f'.Stores (log.append batch) := by
  obtain ⟨ws, hws, rfl⟩ := Option.map_eq_some_iff.mp happend
  obtain ⟨sizes, d, rest, rfl, -, hd, hstat, himage, hpage, hroom⟩ := h.grown hws
  have hinfos : (log.append batch).infos = log.infos ++ batch := rfl
  have hcopies := writes_entryWrites d hroom.le
  have htake : d.ldbs.take (batchSize log.infos) = encode log.infos := by
    rw [himage, ← length_encode, List.take_left]
  have hdisk : f.toDisk.writes (sizes.map .growLdbs ++ entryWrites (batchSize log.infos) batch) =
      { d with ldbs := encode (log.append batch).infos ++ (word 0 ++
          d.ldbs.drop (batchSize log.infos + batchSize batch + 8)) } := by
    rw [Disk.writes_append, hd, hcopies, htake, hinfos, encode_append, List.append_assoc]
  have hlength : (encode (log.append batch).infos ++ (word 0 ++
      d.ldbs.drop (batchSize log.infos + batchSize batch + 8))).length = d.ldbs.length := by
    simp only [hinfos, encode_append, List.length_append, length_encode, length_word,
      List.length_drop]
    omega
  constructor
  case image => exact ⟨_, congrArg Disk.ldbs hdisk⟩
  case states =>
    obtain ⟨size, rest', hstates⟩ := h.states
    exact ⟨size, rest', (congrArg Disk.stat hdisk).trans (hstat.trans hstates)⟩
  case infos =>
    rw [hinfos, placed_append, Nat.zero_add, ← h.infos, ← h.tailEnd_eq]
  case payload =>
    rw [hinfos, batchSize_append, ← h.payload]
  case cfg => exact congrArg (newestCfg · batch) h.cfg
  case consecutive => exact hcons
  case fits =>
    intro e he
    rcases List.mem_append.mp he with he | he
    · exact h.fits e he
    · exact hfits e he
  case lastIndex => exact h.lastIndex
  case lastTerm => exact h.lastTerm
  case lastConfig => exact h.lastConfig
  case cfgEntryIndex => exact newestCfg_lt h.cfgEntryIndex hfits
  case factor => exact h.factor
  case ldbsPages =>
    have hldbs := congrArg (fun d => d.ldbs.length) hdisk
    dsimp only at hldbs ⊢
    rw [hldbs, hlength]
    exact hpage
  case statPages =>
    have hstat' := congrArg (fun d => d.stat.length) hdisk
    dsimp only at hstat' ⊢
    rw [hstat', hstat]
    exact h.statPages

/-! ### `chop` -/

private theorem cfgBelow_lt {i fuel cfg r : Nat} (hcfg : cfg < 2 ^ 64)
    (h : f.cfgBelow i fuel cfg = some r) : r < 2 ^ 64 := by
  induction fuel generalizing cfg with
  | zero => cases h
  | succ fuel ih =>
      rw [LogFile.cfgBelow] at h
      split at h
      · obtain ⟨prev, hprev, hrest⟩ := Option.bind_eq_some_iff.mp h
        obtain ⟨off, -, hread⟩ := Option.bind_eq_some_iff.mp hprev
        refine ih ?_ hrest
        unfold readPrevCfg at hread
        split at hread
        · cases hread
          have hlen : (slice f.ldbs (off + logEntrySize) 8).reverse.length ≤ 8 := by
            rw [List.length_reverse]
            exact length_slice_le _ _ _
          calc leValue (slice f.ldbs (off + logEntrySize) 8).reverse
              < 256 ^ (slice f.ldbs (off + logEntrySize) 8).reverse.length := leValue_lt _
            _ ≤ 256 ^ 8 := Nat.pow_le_pow_right (by decide) hlen
        · cases hread
      · cases h
        exact hcfg

private theorem cutAt (h : f.Stores log) {k cfg : Nat} (hk : k < log.entries.length)
    (hcfg : cfg < 2 ^ 64) :
    Stores { f with
        ldbs := overwrite f.ldbs (batchSize (log.infos.take (k + 1))) (word 0)
        infos := f.infos.take (k + 1)
        payloadSize := batchSize (log.infos.take (k + 1))
        cfgEntryIndex := cfg }
      { log with entries := log.entries.take k, cfgEntryIndex := cfg } := by
  obtain ⟨himage, hlength⟩ := h.cut (k := k + 1) (by simpa [EntryLogger.infos] using hk)
  constructor
  case image => exact himage
  case states => exact h.states
  case infos =>
    rw [h.infos, placed_take]
    rfl
  case payload => rfl
  case cfg => rfl
  case consecutive =>
    intro j e he
    refine h.consecutive j e ?_
    rw [List.getElem?_take] at he
    split at he
    · exact he
    · cases he
  case fits => exact fun e he => h.fits e (List.mem_of_mem_take he)
  case lastIndex => exact h.lastIndex
  case lastTerm => exact h.lastTerm
  case lastConfig => exact h.lastConfig
  case cfgEntryIndex => exact hcfg
  case factor => exact h.factor
  case ldbsPages =>
    dsimp only
    rw [hlength]
    exact h.ldbsPages
  case statPages => exact h.statPages

theorem held (h : f.Stores log) {i : Nat} (hrange : f.outOfRange i = false) :
    ∃ k, k < log.entries.length ∧ i = log.lastIndex + k + 1 ∧ i - f.lastIndex = k + 1 := by
  rw [h.outOfRange_eq, h.consecutive.outOfRange_iff] at hrange
  rw [h.lastIndex_eq]
  exact ⟨i - log.lastIndex - 1, by omega, by omega, by omega⟩

theorem infos_place (h : f.Stores log) {k : Nat} (hk : k < log.infos.length) :
    f.infos[k]? = some ⟨log.infos[k].index, batchSize (log.infos.take k)⟩ := by
  rw [h.getElem?_infos, List.getElem?_eq_getElem hk]
  rfl

theorem chop (h : f.Stores log) {i : Nat} (hchop : f.chop i = some (f', .good)) :
    ∃ k cfg, k < log.entries.length ∧ i = log.lastIndex + k + 1 ∧
      f.cfgBelow i (f.infos.length + 1) f.cfgEntryIndex = some cfg ∧
      f'.Stores { log with entries := log.entries.take k, cfgEntryIndex := cfg } := by
  unfold LogFile.chop at hchop
  split at hchop
  · cases hchop
  rename_i hrange
  obtain ⟨k, hk, hi, hk'⟩ := h.held (Bool.not_eq_true _ ▸ hrange)
  have hplace := h.infos_place (k := k + 1) (by simpa [EntryLogger.infos] using hk)
  simp only [Option.bind_eq_bind, chopWrites, hk', hplace, Option.map_some, Option.bind_some] at hchop
  obtain ⟨cfg, hcfg, hrest⟩ := Option.bind_eq_some_iff.mp hchop
  cases hrest
  exact ⟨k, cfg, hk, hi, hcfg, h.cutAt hk (cfgBelow_lt (h.cfg ▸ h.cfgEntryIndex) hcfg)⟩

/-! ### `copy` -/

theorem copyWrites (h : f.Stores log) {config : Bytes} {index term : Nat} {ws : List DiskWrite}
    (hws : f.copyWrites config index term = some ws) :
    ∃ stat, (∀ d : Disk, d.stat = f.stat → d.writes ws = { d with stat := stat }) ∧
      stat.length % pageSize = 0 ∧
      ∃ size rest, stat = word size ++ (word index ++ (word term ++
        (word (if config = [] then log.lastConfig else config).length ++
          ((if config = [] then log.lastConfig else config) ++ rest)))) := by
  obtain ⟨size, rest, hstates⟩ := h.states
  unfold LogFile.copyWrites at hws
  split at hws
  · rename_i hnil
    cases hws
    have hindex : overwrite f.stat 8 (word index) = word size ++ (word index ++
        (word log.lastTerm ++ (word log.lastConfig.length ++ (log.lastConfig ++ rest)))) := by
      rw [hstates]
      exact overwrite_append (length_word _) (by simp)
    have hterm : overwrite (overwrite f.stat 8 (word index)) 16 (word term) =
        word size ++ (word index ++
          (word term ++ (word log.lastConfig.length ++ (log.lastConfig ++ rest)))) := by
      have hpre : (word size ++ word index).length = 16 := by simp
      rw [hindex, ← List.append_assoc, ← List.append_assoc (word size)]
      exact overwrite_append hpre (by simp)
    refine ⟨overwrite (overwrite f.stat 8 (word index)) 16 (word term), fun d hd => ?_, ?_,
      size, rest, ?_⟩
    · simp only [Disk.writes_cons, Disk.writes_nil, Disk.write, hd]
    · have hlen : (overwrite (overwrite f.stat 8 (word index)) 16 (word term)).length =
          f.stat.length := by
        rw [hterm, hstates]
        simp
      rw [hlen]
      exact h.statPages
    · rw [hterm]
      simp [hnil]
  · rename_i hne
    obtain ⟨sizes, hsizes, rfl⟩ := Option.map_eq_some_iff.mp hws
    obtain ⟨size', hle, hpage, henough, hwrites⟩ := growths_spec h.factor h.statPages hsizes
    have hroom : roundUp logEntryAlignment (statesSize + config.length) ≤ size' := by
      have hlen : 0 < config.length := List.length_pos_of_ne_nil hne
      simp only [statHasRoom, decide_eq_true_eq] at henough
      simp only [roundUp, logEntryAlignment, statesSize, pageSize] at henough hpage ⊢
      omega
    have hbytes : (statesBytes config index term).length =
        roundUp logEntryAlignment (statesSize + config.length) := by
      have := le_roundUp (by decide : 0 < logEntryAlignment) (statesSize + config.length)
      simp only [statesBytes, List.length_append, length_word, List.length_replicate,
        statesSize] at this ⊢
      omega
    refine ⟨overwrite (f.stat ++ List.replicate (size' - f.stat.length) 0) 0
      (statesBytes config index term), fun d hd => ?_, ?_, ?_⟩
    · rw [Disk.writes_append, (hwrites d).2 (by rw [hd]), hd]
      rfl
    · rw [length_overwrite]
      · rw [List.length_append, List.length_replicate, Nat.add_sub_cancel' hle]
        exact hpage
      · rw [hbytes, List.length_append, List.length_replicate]
        omega
    · rw [if_neg hne, overwrite, List.take_zero, List.nil_append]
      generalize List.drop _ _ = tail
      exact ⟨roundUp logEntryAlignment (statesSize + config.length),
        List.replicate (roundUp logEntryAlignment (statesSize + config.length) - statesSize -
          config.length) 0 ++ tail, by simp [statesBytes]⟩

theorem copyStates (h : f.Stores log) {config : Bytes} {index term : Nat}
    (hindex : index < 2 ^ 64) (hterm : term < 2 ^ 64) (hconfig : config.length < 2 ^ 64)
    (hcons : (log.copyStates config index term).Consecutive)
    (hcopy : f.copyStates config index term = some f') :
    f'.Stores (log.copyStates config index term) := by
  obtain ⟨ws, hws, rfl⟩ := Option.map_eq_some_iff.mp hcopy
  obtain ⟨stat, hwrites, hpage, hstates⟩ := h.copyWrites hws
  have hdisk := hwrites f.toDisk rfl
  constructor
  case image =>
    obtain ⟨rest, himage⟩ := h.image
    exact ⟨rest, (congrArg Disk.ldbs hdisk).trans himage⟩
  case states =>
    obtain ⟨size, rest, hstat⟩ := hstates
    exact ⟨size, rest, (congrArg Disk.stat hdisk).trans hstat⟩
  case infos => exact h.infos
  case payload => exact h.payload
  case cfg => exact h.cfg
  case consecutive => exact hcons
  case fits => exact h.fits
  case lastIndex => exact hindex
  case lastTerm => exact hterm
  case lastConfig =>
    dsimp only [EntryLogger.copyStates]
    split
    · exact h.lastConfig
    · exact hconfig
  case cfgEntryIndex => exact h.cfgEntryIndex
  case factor => exact h.factor
  case ldbsPages =>
    have hldbs := congrArg (fun d => d.ldbs.length) hdisk
    dsimp only at hldbs ⊢
    rw [hldbs]
    exact h.ldbsPages
  case statPages =>
    have hstat := congrArg (fun d => d.stat.length) hdisk
    dsimp only at hstat ⊢
    rw [hstat]
    exact hpage

/-! ### `drop` -/

private theorem readEntry_data_lt {image : Bytes} {off : Nat} {e : Entry}
    (h : readEntry image off = some e) : e.data.length < 2 ^ 64 := by
  unfold readEntry at h
  simp only [Option.bind_eq_bind, Option.bind_eq_some_iff] at h
  obtain ⟨index, -, term, -, cfg, -, len, hlen, hrest⟩ := h
  rw [Option.ite_none_right_eq_some] at hrest
  obtain ⟨-, hrest⟩ := hrest
  cases hrest
  exact lt_of_le_of_lt (length_slice_le _ _ _) (lt_of_le_of_lt (Nat.sub_le _ _) (readWord_lt hlen))

private theorem configUpTo_lt {index : Nat} {config : Bytes} (h : f.configUpTo index = some config) :
    config.length < 2 ^ 64 := by
  obtain ⟨cfg, -, rfl⟩ := Option.map_eq_some_iff.mp h
  split
  · decide
  · cases hget : f.get cfg with
    | none => simp
    | some e =>
        obtain ⟨off, -, hread⟩ := Option.bind_eq_some_iff.mp hget
        exact readEntry_data_lt hread

theorem moved (h : f.Stores log) {k : Nat} (hk : k + 1 < log.entries.length) :
    ∃ image, (∃ rest, image = encode (logEntrySentry :: log.entries.drop (k + 1)) ++
        (word 0 ++ rest)) ∧ image.length = f.ldbs.length ∧
      ∃ ws, f.moveWrites (log.lastIndex + k + 1) = some ws ∧
        ∀ d : Disk, d.ldbs = f.ldbs → d.writes ws = { d with ldbs := image } := by
  obtain ⟨rest, himage⟩ := h.image
  have hsentry : f.ldbs = logEntrySentry.bytes ++ (encode log.entries ++ (word 0 ++ rest)) := by
    simp [himage, EntryLogger.infos]
  have hsplit : log.infos = log.infos.take (k + 2) ++ log.entries.drop (k + 1) :=
    (List.take_append_drop (k + 2) log.infos).symm
  have hbehind : f.ldbs = encode (log.infos.take (k + 2)) ++
      (encode (log.entries.drop (k + 1)) ++ (word 0 ++ rest)) := by
    conv_lhs => rw [himage, hsplit]
    simp
  have hsizes := congrArg batchSize hsplit
  rw [batchSize_append] at hsizes
  have hfirst := h.infos_place (k := 1) (by simp [EntryLogger.infos]; omega)
  have hnext := h.infos_place (k := k + 2) (by simp [EntryLogger.infos]; omega)
  have hone : log.infos.take 1 = [logEntrySentry] := rfl
  have hslice : slice f.ldbs (batchSize (log.infos.take (k + 2)))
      (batchSize log.infos - batchSize (log.infos.take (k + 2))) =
        encode (log.entries.drop (k + 1)) := by
    rw [hbehind]
    exact slice_append (length_encode _) (by rw [length_encode]; omega)
  have hws : f.moveWrites (log.lastIndex + k + 1) = some [
      .ldbs logEntrySentry.size (encode (log.entries.drop (k + 1))),
      .ldbs (logEntrySentry.size + (encode (log.entries.drop (k + 1))).length) (word 0)] := by
    have hplace : log.lastIndex + k + 1 + 1 - f.lastIndex = k + 2 := by
      rw [h.lastIndex_eq]
      omega
    simp [moveWrites, hfirst, hplace, hnext, h.tailEnd_eq, hslice, hone]
  have htake : f.ldbs.take logEntrySentry.size = logEntrySentry.bytes := by
    rw [hsentry, ← LogEntry.length_bytes, List.take_left]
  have hbound : logEntrySentry.size ≤ f.ldbs.length := by
    rw [hsentry, List.length_append, LogEntry.length_bytes]
    exact Nat.le_add_right _ _
  refine ⟨_, ⟨f.ldbs.drop (logEntrySentry.size +
    (encode (log.entries.drop (k + 1))).length + 8), rfl⟩, ?_, _, hws, fun d hd => ?_⟩
  · have hlen := congrArg List.length himage
    simp only [List.length_append, length_encode, length_word] at hlen
    have hinfos : batchSize (log.infos.take (k + 2)) = logEntrySentry.size +
        batchSize (log.entries.take (k + 1)) := rfl
    simp only [encode_cons, List.length_append, LogEntry.length_bytes, length_encode,
      length_word, List.length_drop]
    omega
  · have hmarked := writes_marked d (encode (log.entries.drop (k + 1))) (hd ▸ hbound)
    rw [hmarked, hd, htake]
    simp

theorem dropEntries (h : f.Stores log) {k : Nat} (hk : k < log.entries.length) :
    ∃ ws image, f.dropEntries (log.lastIndex + k + 1) =
        some (ws, placed 0 (logEntrySentry :: log.entries.drop (k + 1)),
          batchSize (logEntrySentry :: log.entries.drop (k + 1))) ∧
      (∀ d : Disk, d.ldbs = f.ldbs → d.writes ws = { d with ldbs := image }) ∧
      (∃ rest, image = encode (logEntrySentry :: log.entries.drop (k + 1)) ++
        (word 0 ++ rest)) ∧ image.length = f.ldbs.length := by
  have hfirst := h.infos_place (k := 1) (by simp [EntryLogger.infos]; omega)
  have hone : log.infos.take 1 = [logEntrySentry] := rfl
  have hlast := h.consecutive.lastEntry_index (List.ne_nil_of_length_pos (by omega))
  have hinfos : f.infos.take 1 = placed 0 [logEntrySentry] := by
    rw [h.infos, placed_take, hone]
  by_cases hback : log.lastIndex + k + 1 = log.lastEntry.index
  · have hnil : log.entries.drop (k + 1) = [] := List.drop_eq_nil_of_le (by omega)
    obtain ⟨himage, hlength⟩ := h.cut (k := 1) (by simp [EntryLogger.infos]; omega)
    refine ⟨[.ldbs (batchSize (log.infos.take 1)) (word 0)], _, ?_, fun d hd => ?_, himage.imp
      fun rest hrest => by rw [hrest, hone, hnil], hlength⟩
    · have hplace : f.lastIndex + 1 - f.lastIndex = 1 := by omega
      rw [LogFile.dropEntries, if_pos (hback.trans h.backIndex_eq.symm)]
      simp only [chopWrites, hplace, hfirst, Option.map_some, Option.bind_some, hinfos, hone, hnil]
    · simp only [Disk.writes_cons, Disk.writes_nil, Disk.write, hd]
  · obtain ⟨image, himage, hlength, ws, hws, hwrites⟩ := h.moved (k := k) (by omega)
    refine ⟨ws, image, ?_, hwrites, himage, hlength⟩
    have hnext := h.infos_place (k := k + 2) (by simp [EntryLogger.infos]; omega)
    have hplace : log.lastIndex + k + 1 + 1 - f.lastIndex = k + 2 := by
      rw [h.lastIndex_eq]
      omega
    have hskip : 1 + (log.lastIndex + k + 1 - f.lastIndex) = k + 2 := by
      rw [h.lastIndex_eq]
      omega
    have hshift : batchSize (log.infos.take (k + 2)) =
        logEntrySentry.size + (batchSize (log.infos.take (k + 2)) - logEntrySentry.size) := by
      have hinfos : batchSize (log.infos.take (k + 2)) = logEntrySentry.size +
          batchSize (log.entries.take (k + 1)) := rfl
      omega
    have hmoved : (f.infos.drop (k + 2)).map (fun i =>
        { i with amount :=
          i.amount - (batchSize (log.infos.take (k + 2)) - logEntrySentry.size) }) =
          placed logEntrySentry.size (log.entries.drop (k + 1)) := by
      rw [h.infos, placed_drop, Nat.zero_add, hshift, ← hshift]
      conv_lhs => rw [hshift]
      rw [Nat.add_sub_cancel_left]
      exact placed_sub _ _ _
    have htotal := congrArg batchSize (List.take_append_drop (k + 2) log.infos)
    rw [batchSize_append] at htotal
    have hpayload : f.payloadSize - (batchSize (log.infos.take (k + 2)) - logEntrySentry.size) =
        logEntrySentry.size + batchSize (log.entries.drop (k + 1)) := by
      have hdrop : log.infos.drop (k + 2) = log.entries.drop (k + 1) := rfl
      rw [hdrop] at htotal
      rw [h.payload]
      omega
    rw [LogFile.dropEntries, if_neg (by rw [h.backIndex_eq]; exact hback)]
    simp only [hfirst, hplace, hnext, hws, hskip, hone, batchSize_cons, batchSize_nil,
      Nat.add_zero, Option.bind_eq_bind, Option.bind_some, hmoved, hinfos, hpayload]
    rfl

theorem get_held (h : f.Stores log) {k : Nat} (hk : k < log.entries.length) :
    f.get (log.lastIndex + k + 1) = some log.entries[k].toEntry := by
  have hsub : log.lastIndex + k + 1 - log.lastIndex - 1 = k := by omega
  rw [h.get_eq, h.consecutive.get_eq, if_neg (Nat.succ_ne_zero _), if_pos (by omega), hsub,
    List.getElem?_eq_getElem hk]
  rfl

theorem first_inRange (h : f.Stores log) {k : Nat} (hk : k < log.entries.length) :
    f.outOfRange (f.lastIndex + 1) = false := by
  rw [h.outOfRange_eq, h.lastIndex_eq, h.consecutive.outOfRange_iff]
  omega

theorem drop (h : f.Stores log) {i : Nat} (hdrop : f.drop i = some (f', .good)) :
    ∃ k, ∃ hk : k < log.entries.length, ∃ config, i = log.lastIndex + k + 1 ∧
      f.configUpTo i = some config ∧
      f'.Stores (EntryLogger.copyStates { log with
        entries := log.entries.drop (k + 1)
        cfgEntryIndex := if log.cfgEntryIndex ≤ i then 0 else log.cfgEntryIndex }
          config i log.entries[k].term) := by
  unfold LogFile.drop at hdrop
  dsimp only at hdrop
  split at hdrop
  · cases hdrop
  rename_i hrange
  obtain ⟨k, hk, rfl, -⟩ := h.held (Bool.not_eq_true _ ▸ hrange)
  rw [if_neg (by rw [h.first_inRange hk]; simp)] at hdrop
  obtain ⟨ws, image, hentries, hwrites, himage, hlength⟩ := h.dropEntries hk
  simp only [Option.bind_eq_bind, hentries, Option.bind_some, dropWrites, h.get_held hk] at hdrop
  obtain ⟨all, hall, hrest⟩ := Option.bind_eq_some_iff.mp hdrop
  obtain ⟨config, hconfig, hcopy⟩ := Option.bind_eq_some_iff.mp hall
  obtain ⟨vs, hvs, hcat⟩ := Option.bind_eq_some_iff.mp hcopy
  cases hcat
  cases hrest
  obtain ⟨stat, hstat, hpage, hstates⟩ := h.copyWrites hvs
  have hdisk : f.toDisk.writes (ws ++ vs) = { stat := stat, ldbs := image } := by
    rw [Disk.writes_append, hwrites _ rfl]
    exact hstat _ rfl
  have hfits := h.fits _ (List.getElem_mem hk)
  have hindex := h.consecutive k _ (List.getElem?_eq_getElem hk)
  refine ⟨k, hk, config, rfl, hconfig, ?_⟩
  constructor
  case image =>
    obtain ⟨rest, hrest⟩ := himage
    exact ⟨rest, (congrArg Disk.ldbs hdisk).trans hrest⟩
  case states =>
    obtain ⟨size, rest, hrest⟩ := hstates
    exact ⟨size, rest, (congrArg Disk.stat hdisk).trans hrest⟩
  case infos => rfl
  case payload => rfl
  case cfg =>
    dsimp only [EntryLogger.copyStates]
    rw [h.cfg]
  case consecutive =>
    intro j e he
    have hj : log.entries[k + 1 + j]? = some e := by
      rw [← List.getElem?_drop]
      exact he
    have := h.consecutive _ e hj
    dsimp only [EntryLogger.copyStates]
    omega
  case fits => exact fun e he => h.fits e (List.mem_of_mem_drop he)
  case lastIndex =>
    rw [← hindex]
    exact hfits.index
  case lastTerm => exact hfits.term
  case lastConfig =>
    dsimp only [EntryLogger.copyStates]
    split
    · exact h.lastConfig
    · exact configUpTo_lt hconfig
  case cfgEntryIndex =>
    dsimp only [EntryLogger.copyStates]
    split
    · decide
    · exact h.cfgEntryIndex
  case factor => exact h.factor
  case ldbsPages =>
    have hldbs := congrArg (fun d => d.ldbs.length) hdisk
    dsimp only at hldbs ⊢
    rw [hldbs, hlength]
    exact h.ldbsPages
  case statPages =>
    have hstat' := congrArg (fun d => d.stat.length) hdisk
    dsimp only at hstat' ⊢
    rw [hstat']
    exact hpage

end LogFile.Stores

end Draft
