import Draft.Consensus.Run
import Draft.Disk.Operations

/-!
# Reopening a log

Whatever a logger did to new files, a second logger on the same files finds the
same entries at the same places, and the same base.
-/

namespace Draft

open Disk Consensus

namespace LogFile

/-! ## Operations that succeed -/

/-- An operation of the server on its log; the entries of a batch are terms, data and flags. -/
inductive LogOp where
  | append (batch : List (Nat × Bytes × Bool))
  | chop (index : Nat)
  | drop (index : Nat)
  /-- `chop` of everything and `copy`, as the `data_transfer` handler does. -/
  | install (config : Bytes) (index term : Nat)
  deriving DecidableEq, Repr

variable (f : LogFile)

/-- Entries made before any of them is appended, with indices from `index` on. -/
def makeBatch (index : Nat) : List (Nat × Bytes × Bool) → List LogEntry
  | [] => []
  | (term, data, cfg) :: rest => f.makeEntry data index term cfg :: makeBatch (index + 1) rest

def exec : LogOp → Option LogFile
  | .append batch =>
      let entries := f.makeBatch (f.lastEntryIndex + 1) batch
      if ∀ e ∈ entries, e.Fits then f.append entries else none
  | .chop index =>
      match f.chop index with
      | some (g, .good) => some g
      | _ => none
  | .drop index =>
      match f.drop index with
      | some (g, .good) => some g
      | _ => none
  | .install config index term =>
      if index < 2 ^ 64 ∧ term < 2 ^ 64 ∧ config.length < 2 ^ 64 then
        -- the answer of `chop` is not looked at
        (f.chop (f.lastIndex + 1)).bind fun r => r.1.copyStates config index term
      else none

variable {f} {log : EntryLogger} {g : LogFile}

theorem makeBatch_index (f : LogFile) (index : Nat) (batch : List (Nat × Bytes × Bool)) {k : Nat}
    {e : LogEntry} (h : (f.makeBatch index batch)[k]? = some e) : e.index = index + k := by
  induction batch generalizing index k with
  | nil => simp [makeBatch] at h
  | cons b rest ih =>
      obtain ⟨term, data, cfg⟩ := b
      cases k with
      | zero =>
          simp only [makeBatch, List.getElem?_cons_zero, Option.some.injEq] at h
          rw [← h]
          rfl
      | succ k =>
          have := ih (index + 1) (by simpa [makeBatch] using h)
          omega

namespace Stores

theorem lastEntryIndex_eq (h : f.Stores log) : f.lastEntryIndex = log.lastEntryIndex := by
  have hlength : f.infos.length = log.entries.length + 1 := by
    rw [h.infos, length_placed]
    rfl
  unfold LogFile.lastEntryIndex EntryLogger.lastEntryIndex
  rw [hlength, h.lastEntry_eq, h.lastIndex_eq]
  by_cases hnil : log.entries = []
  · rw [if_pos (by simp [hnil]), if_pos hnil]
  · have := List.length_pos_of_ne_nil hnil
    rw [if_neg (by omega), if_neg hnil]
    rfl

theorem consecutive_append (h : f.Stores log) (batch : List (Nat × Bytes × Bool)) :
    (log.append (f.makeBatch (f.lastEntryIndex + 1) batch)).Consecutive := by
  intro k e he
  by_cases hk : k < log.entries.length
  · rw [EntryLogger.append, List.getElem?_append_left hk] at he
    exact h.consecutive k e he
  · rw [EntryLogger.append, List.getElem?_append_right (by omega)] at he
    have hindex := makeBatch_index f _ _ he
    rw [h.lastEntryIndex_eq, h.consecutive.lastEntryIndex_eq] at hindex
    dsimp only [EntryLogger.append]
    omega

private theorem chop_first (h : f.Stores log) {answer : Answer}
    (hchop : f.chop (f.lastIndex + 1) = some (g, answer)) :
    ∃ cfg, g.Stores { log with entries := [], cfgEntryIndex := cfg } := by
  cases answer with
  | good =>
      obtain ⟨k, cfg, -, hk, -, hg⟩ := h.chop hchop
      rw [h.lastIndex_eq] at hk
      obtain rfl : k = 0 := by omega
      exact ⟨cfg, hg⟩
  | oor =>
      have hnil : log.entries = [] := by
        by_contra hne
        have hrange := h.first_inRange (List.length_pos_of_ne_nil hne)
        simp [LogFile.chop, hrange, Option.bind_eq_some_iff] at hchop
      have hsame : g = f := by
        unfold LogFile.chop at hchop
        split at hchop
        · cases hchop
          rfl
        · simp [Option.bind_eq_some_iff] at hchop
      subst hsame
      refine ⟨log.cfgEntryIndex, ?_⟩
      rw [← hnil]
      exact h

theorem exec (h : f.Stores log) {op : LogOp} (hexec : f.exec op = some g) :
    ∃ log', g.Stores log' := by
  cases op with
  | append batch =>
      simp only [LogFile.exec] at hexec
      split at hexec
      · exact ⟨_, h.append ‹_› (h.consecutive_append batch) hexec⟩
      · cases hexec
  | chop index =>
      simp only [LogFile.exec] at hexec
      split at hexec
      · rename_i g' hchop
        cases hexec
        obtain ⟨k, cfg, -, -, -, hg⟩ := h.chop hchop
        exact ⟨_, hg⟩
      · cases hexec
  | drop index =>
      simp only [LogFile.exec] at hexec
      split at hexec
      · rename_i g' hdrop
        cases hexec
        obtain ⟨k, hk, config, -, -, hg⟩ := h.drop hdrop
        exact ⟨_, hg⟩
      · cases hexec
  | install config index term =>
      simp only [LogFile.exec] at hexec
      split at hexec
      · rename_i hfits
        obtain ⟨⟨f', answer⟩, hchop, hcopy⟩ := Option.bind_eq_some_iff.mp hexec
        obtain ⟨cfg, hf'⟩ := h.chop_first hchop
        refine ⟨_, hf'.copyStates hfits.1 hfits.2.1 hfits.2.2 ?_ hcopy⟩
        intro k e he
        simp [EntryLogger.copyStates] at he
      · cases hexec

/-! ## New files -/

theorem init_new {factor : ℚ} (hfactor : 1 ≤ factor) (h : init factor none none = some f) :
    f.Stores
      { lastIndex := 0, lastTerm := 0, lastConfig := [], entries := [], cfgEntryIndex := 0 } := by
  have hsentry : ∀ e ∈ [logEntrySentry], e.Fits := by decide
  have hzeros : mapFile none defaultLdbsSize = List.replicate logEntrySentry.size 0 ++
      (word 0 ++ List.replicate 4048 0) := by
    have hword : word 0 = List.replicate 8 0 := by decide
    rw [hword, List.replicate_append_replicate, List.replicate_append_replicate]
    rfl
  have himage : overwrite (mapFile none defaultLdbsSize) 0 logEntrySentry.bytes =
      encode [logEntrySentry] ++ (word 0 ++ List.replicate 4048 0) := by
    rw [hzeros, encode_cons, encode_nil, List.append_nil]
    exact overwrite_start (by simp)
  have hstates : overwrite (mapFile none statesSize) 0 (word statesSize ++ List.replicate 24 0) =
      word statesSize ++ (word 0 ++ (word 0 ++ (word 0 ++ List.replicate 4064 0))) := by
    have hzeros : mapFile none statesSize = List.replicate 32 0 ++ List.replicate 4064 0 := by
      rw [List.replicate_append_replicate]
      rfl
    have hwords : List.replicate 24 0 = word 0 ++ (word 0 ++ word 0) := by decide
    rw [hzeros, hwords, overwrite_start (by simp)]
    simp only [List.append_assoc]
  have hlength : ([logEntrySentry] : List LogEntry).length <
      (encode [logEntrySentry] ++ (word 0 ++ List.replicate 4048 0)).length := by
    simp only [List.length_append, length_word, List.length_replicate, List.length_singleton]
    omega
  have hwalk := walk_encode hsentry (List.replicate 4048 0) hlength
  unfold init at h
  simp only [Option.isNone_none, if_true, himage, hstates, hwalk, Option.map_some,
    Option.some.injEq] at h
  subst h
  constructor
  case image => exact ⟨_, rfl⟩
  case states => exact ⟨statesSize, List.replicate 4064 0, rfl⟩
  case infos => rfl
  case payload => rfl
  case cfg => rfl
  case consecutive => exact fun k e he => by simp at he
  case fits => simp
  case lastIndex => decide
  case lastTerm => decide
  case lastConfig => decide
  case cfgEntryIndex => decide
  case factor => exact hfactor
  case ldbsPages =>
    simp only [List.length_append, length_encode, length_word, List.length_replicate]
    rfl
  case statPages =>
    simp only [List.length_append, length_word, List.length_replicate]
    rfl

/-! ## A second logger -/

theorem mapFile_pages {file : Bytes} {length : Nat} (hne : file ≠ [])
    (hpages : file.length % pageSize = 0) : mapFile (some file) length = file := by
  have hsize : roundUp pageSize file.length = file.length := roundUp_of_mod (by decide) hpages
  cases file with
  | nil => exact absurd rfl hne
  | cons c rest =>
      change resize (c :: rest) (roundUp pageSize (c :: rest).length) = c :: rest
      rw [hsize, resize_eq le_rfl]
      simp

theorem reopen (h : f.Stores log) :
    f.reopen = some { f with cfgEntryIndex := newestCfg 0 log.infos } := by
  obtain ⟨rest, himage⟩ := h.image
  obtain ⟨size, rest', hstates⟩ := h.states
  have hldbs : mapFile (some f.ldbs) defaultLdbsSize = f.ldbs := by
    refine mapFile_pages (List.ne_nil_of_length_pos ?_) h.ldbsPages
    have := h.image_length
    omega
  have hstat : mapFile (some f.stat) statesSize = f.stat := by
    refine mapFile_pages (List.ne_nil_of_length_pos ?_) h.statPages
    rw [hstates, List.length_append, length_word]
    omega
  have hfuel : log.infos.length < f.ldbs.length := by
    have := h.image_length
    have := length_le_batchSize log.infos
    omega
  have hwalk := walk_encode h.infos_fit rest (himage ▸ hfuel)
  rw [← himage] at hwalk
  unfold LogFile.reopen init
  simp only [Option.isNone_some, Bool.false_eq_true, if_false, hldbs, hstat, hwalk,
    Option.map_some]
  rw [← h.infos, ← h.payload]

end Stores

theorem init_factor {factor : ℚ} {stat ldbs : Option Bytes}
    (h : init factor stat ldbs = some f) : f.factor = factor := by
  unfold init at h
  obtain ⟨w, -, rfl⟩ := Option.map_eq_some_iff.mp h
  rfl

theorem stores_run {ops : List LogOp} (h : f.Stores log) (hrun : run exec f ops = some g) :
    ∃ log', g.Stores log' :=
  run_preserves (P := fun f => ∃ log, f.Stores log) (fun _ _ _ ⟨_, hf⟩ hexec => hf.exec hexec)
    ⟨log, h⟩ hrun

/-- A second logger on the files of a first one has its entries, their places and its base. -/
theorem reopening_lossless {factor : ℚ} {ops : List LogOp} (hfactor : 1 ≤ factor)
    (hinit : init factor none none = some f) (hrun : run exec f ops = some g) :
    ∃ k, g.reopen = some k ∧ k.infos = g.infos ∧ k.payload = g.payload ∧
      k.lastIndex = g.lastIndex ∧ k.lastTerm = g.lastTerm ∧ k.lastConfig = g.lastConfig ∧
      ∀ index, k.get index = g.get index := by
  obtain ⟨log, hlog⟩ := stores_run (Stores.init_new hfactor hinit) hrun
  exact ⟨_, hlog.reopen, rfl, rfl, rfl, rfl, rfl, fun _ => rfl⟩

def history : List LogOp :=
  [.append [(1, ascii "first", false), (1, ascii "a:1,b:1", true)],
    .append [(1, ascii "a longer entry of the first term", false)], .chop 3, .drop 1,
    .append [(2, ascii "x", false)]]

theorem history_runs : ((init (5 / 4) none none).bind fun f => run exec f history).isSome := by
  decide +kernel

theorem reopening_lossless_history :
    ∃ f g k, init (5 / 4) none none = some f ∧ run exec f history = some g ∧
      g.reopen = some k ∧ k.infos = g.infos ∧ k.payload = g.payload ∧
      k.lastIndex = g.lastIndex ∧ k.lastTerm = g.lastTerm ∧ k.lastConfig = g.lastConfig ∧
      ∀ index, k.get index = g.get index := by
  obtain ⟨g, hg⟩ := Option.isSome_iff_exists.mp history_runs
  obtain ⟨f, hinit, hrun⟩ := Option.bind_eq_some_iff.mp hg
  obtain ⟨k, hk⟩ := reopening_lossless (by norm_num) hinit hrun
  exact ⟨f, g, k, hinit, hrun, hk⟩

end LogFile

end Draft
