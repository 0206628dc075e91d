import Draft.Disk.BasedLog

/-!
# A crash between two writes

The writes of an operation reach the two files one after another.  A process
that stops between two of them leaves the files for `init`, which reads entries
as long as it finds no zero word.  `chop` is a single write; `append` takes the
old end marker away before it writes a new one; `drop` changes the log file
before the base.
-/

namespace Draft

open Disk Consensus

namespace LogFile

/-! ## The loop of `init` from an offset on -/

private theorem walk_fuel {image : Bytes} {fuel fuel' off cfg : Nat}
    (h : image.length < off + fuel + 8) (h' : image.length < off + fuel' + 8) :
    walk image fuel off cfg = walk image fuel' off cfg := by
  have hend : ∀ {off : Nat}, image.length < off + 8 → ∀ fuel cfg, walk image fuel off cfg = none := by
    intro off hoff fuel cfg
    cases fuel with
    | zero => rfl
    | succ fuel => rw [walk, readWord, if_neg (by omega)]
  induction fuel generalizing fuel' off cfg with
  | zero => rw [hend (by omega), hend (by omega)]
  | succ fuel ih =>
      cases fuel' with
      | zero => rw [hend (by omega), hend (by omega)]
      | succ fuel' =>
          rw [walk, walk]
          split
          · rfl
          · rename_i size _
            split
            · rfl
            · have hrest : ∀ cfg, walk image fuel (off + size) cfg =
                  walk image fuel' (off + size) cfg := fun cfg => ih (by omega) (by omega)
              split
              · rw [hrest]
              · rfl

private theorem walk_cfg (image : Bytes) (fuel off cfg cfg' : Nat) :
    (walk image fuel off cfg).map (·.infos) = (walk image fuel off cfg').map (·.infos) := by
  induction fuel generalizing off cfg cfg' with
  | zero => rfl
  | succ fuel ih =>
      rw [walk, walk]
      split
      · rfl
      · split
        · rfl
        · split
          · rename_i size _ _ _ _ flag index _ _
            have hrest := congrArg (Option.map (⟨index, off⟩ :: ·))
              (ih (off + size) (if flag = 0 then cfg else index) (if flag = 0 then cfg' else index))
            simpa only [Option.map_map, Function.comp_def] using hrest
          · rfl

private theorem readEntry_congr {image image' : Bytes} (hlen : image.length = image'.length) {off : Nat}
    (h : image.drop off = image'.drop off) : readEntry image off = readEntry image' off := by
  have hslice : ∀ k len, slice image (off + k) len = slice image' (off + k) len := by
    intro k len
    rw [← slice_drop, ← slice_drop, h]
  have hbyte : image[off + 24]? = image'[off + 24]? := by
    rw [← List.getElem?_drop, ← List.getElem?_drop, h]
  unfold readEntry
  simp only [readWord_of_drop h, hbyte, hlen, Nat.add_assoc, hslice]

private theorem walk_congr {image image' : Bytes} {off : Nat} (h : image.drop off = image'.drop off)
    (fuel cfg : Nat) :
    walk image fuel off cfg = walk image' fuel off cfg ∧
      ∀ w, walk image fuel off cfg = some w →
        ∀ i ∈ w.infos, image.drop i.amount = image'.drop i.amount := by
  induction fuel generalizing off cfg with
  | zero => exact ⟨rfl, by simp [walk]⟩
  | succ fuel ih =>
      have hsize := readWord_of_drop h 0
      have hindex := readWord_of_drop h 8
      have hbyte : image[off + 24]? = image'[off + 24]? := by
        rw [← List.getElem?_drop, ← List.getElem?_drop, h]
      rw [Nat.add_zero] at hsize
      have hnext : ∀ size, image.drop (off + size) = image'.drop (off + size) := by
        intro size
        rw [← List.drop_drop, ← List.drop_drop, h]
      rw [walk, walk, ← hsize, ← hindex, ← hbyte]
      split
      · exact ⟨rfl, by simp⟩
      · rename_i size _
        split
        · exact ⟨rfl, by simp⟩
        · split
          · rename_i flag index _ _
            obtain ⟨hwalk, hinfos⟩ := ih (hnext size) (if flag = 0 then cfg else index)
            rw [← hwalk]
            refine ⟨rfl, fun w hw i hi => ?_⟩
            obtain ⟨w', hw', rfl⟩ := Option.map_eq_some_iff.mp hw
            rcases List.mem_cons.mp hi with rfl | hi
            · exact h
            · exact hinfos w' hw' i hi
          · exact ⟨rfl, by simp⟩

def infosFrom (image : Bytes) (off : Nat) : Option (List LogEntryInfo) :=
  (walk image image.length off 0).map (·.infos)

def entriesFrom (image : Bytes) (off : Nat) : Option (List (Option Entry)) :=
  (infosFrom image off).map fun infos => infos.map fun i => readEntry image i.amount

private theorem walk_infos {image : Bytes} {fuel off : Nat} (h : image.length < off + fuel + 8)
    (cfg : Nat) : (walk image fuel off cfg).map (·.infos) = infosFrom image off := by
  have hfuel : walk image fuel off 0 = walk image image.length off 0 := walk_fuel h (by omega)
  rw [walk_cfg image fuel off cfg 0, infosFrom, hfuel]

private theorem entriesFrom_marker (pre rest : Bytes) :
    entriesFrom (pre ++ (word 0 ++ rest)) pre.length = some [] := by
  obtain ⟨fuel, hfuel⟩ : ∃ fuel, (pre ++ (word 0 ++ rest)).length = fuel + 1 := by
    refine ⟨(pre ++ (word 0 ++ rest)).length - 1, ?_⟩
    simp only [List.length_append, length_word]
    omega
  rw [entriesFrom, infosFrom, hfuel, walk_marker]
  rfl

private theorem entriesFrom_congr {image image' : Bytes} (hlen : image.length = image'.length) {off : Nat}
    (h : image.drop off = image'.drop off) : entriesFrom image off = entriesFrom image' off := by
  obtain ⟨hwalk, hinfos⟩ := walk_congr h image.length 0
  rw [entriesFrom, entriesFrom, infosFrom, infosFrom, ← hlen, ← hwalk]
  cases hw : walk image image.length off 0 with
  | none => rfl
  | some w =>
      refine congrArg some (List.map_congr_left fun i hi => ?_)
      exact readEntry_congr hlen (hinfos w hw i hi)

/-! ## What a log holds -/

/-- The base and the entries held, `none` for one that cannot be read. -/
structure Contents where
  index : Nat
  term : Nat
  config : Bytes
  entries : List (Option Entry)
  deriving DecidableEq, Repr

def contents (f : LogFile) : Contents where
  index := f.lastIndex
  term := f.lastTerm
  config := f.lastConfig
  entries := f.infos.tail.map fun i => readEntry f.ldbs i.amount

def Contents.Numbered (c : Contents) : Prop :=
  ∀ k e, c.entries[k]? = some e → ∃ x, e = some x ∧ x.index = c.index + k + 1

/-- What `init` makes of the two files. -/
def recovered (factor : ℚ) (d : Disk) : Option Contents :=
  (init factor (some d.stat) (some d.ldbs)).map contents

def readBack (es : List LogEntry) : List (Option Entry) := es.map fun e => some e.toEntry

private theorem map_placed (pre post : Bytes) {es : List LogEntry} (h : ∀ e ∈ es, e.Fits) :
    (placed pre.length es).map (fun i => readEntry (pre ++ (encode es ++ post)) i.amount) =
      readBack es := by
  induction es generalizing pre with
  | nil => rfl
  | cons e es ih =>
      have himage : pre ++ (encode (e :: es) ++ post) = (pre ++ e.bytes) ++ (encode es ++ post) := by
        simp
      have hlen : pre.length + e.size = (pre ++ e.bytes).length := by simp
      have hread : readEntry (pre ++ (encode (e :: es) ++ post)) pre.length = some e.toEntry := by
        rw [encode_cons, List.append_assoc]
        exact readEntry_append rfl (h e List.mem_cons_self)
      rw [placed, List.map_cons, hread, himage, hlen,
        ih _ fun x hx => h x (List.mem_cons_of_mem _ hx)]
      rfl

private theorem entriesFrom_encode (pre post : Bytes) {es : List LogEntry} (h : ∀ e ∈ es, e.Fits) :
    entriesFrom (pre ++ (encode es ++ post)) pre.length =
      (entriesFrom (pre ++ (encode es ++ post)) (pre.length + batchSize es)).map
        (readBack es ++ ·) := by
  generalize himage : pre ++ (encode es ++ post) = image
  have hlen : pre.length + batchSize es ≤ image.length := by
    rw [← himage]
    simp only [List.length_append, length_encode]
    omega
  have hcount := length_le_batchSize es
  have hwalk := congrArg (Option.map (·.infos))
    (walk_entries pre post h (image.length - es.length) 0)
  rw [himage, Nat.add_sub_cancel' (by omega), Option.map_map] at hwalk
  have hsplit : infosFrom image pre.length =
      (infosFrom image (pre.length + batchSize es)).map (placed pre.length es ++ ·) := by
    have htail : (walk image (image.length - es.length) (pre.length + batchSize es)
        (newestCfg 0 es)).map (·.infos) = infosFrom image (pre.length + batchSize es) :=
      walk_infos (by omega) _
    rw [← htail, Option.map_map]
    exact hwalk
  rw [entriesFrom, entriesFrom, hsplit, Option.map_map, Option.map_map]
  have hread := map_placed pre post h
  rw [himage] at hread
  simp [Function.comp_def, hread]

structure Paged (d : Disk) : Prop where
  stat : d.stat ≠ []
  ldbs : d.ldbs ≠ []
  statPages : d.stat.length % pageSize = 0
  ldbsPages : d.ldbs.length % pageSize = 0

private theorem recovered_eq (f : LogFile) {d : Disk} (hd : Paged d) (hstat : d.stat = f.stat) :
    recovered f.factor d =
      (entriesFrom d.ldbs 0).map fun es => { f.contents with entries := es.tail } := by
  have hldbs : mapFile (some d.ldbs) defaultLdbsSize = d.ldbs :=
    Stores.mapFile_pages hd.ldbs hd.ldbsPages
  have hmap : mapFile (some f.stat) statesSize = f.stat := by
    rw [← hstat]
    exact Stores.mapFile_pages hd.stat hd.statPages
  unfold recovered init
  simp only [Option.isNone_some, Bool.false_eq_true, if_false, hldbs, hmap, Option.map_map,
    entriesFrom, infosFrom, hstat]
  refine congrArg (Option.map · _) (funext fun w => ?_)
  simp only [Function.comp_apply, contents, List.map_tail]
  rfl

private theorem recovered_encode (f : LogFile) {d : Disk} (hd : Paged d) (hstat : d.stat = f.stat)
    {xs : List LogEntry} {post : Bytes} (hfits : ∀ e ∈ xs, e.Fits)
    (himage : d.ldbs = encode (logEntrySentry :: xs) ++ post) :
    recovered f.factor d =
      (entriesFrom d.ldbs (batchSize (logEntrySentry :: xs))).map fun rest =>
        { f.contents with entries := readBack xs ++ rest } := by
  have hall : ∀ e ∈ logEntrySentry :: xs, e.Fits := by
    intro e he
    rcases List.mem_cons.mp he with rfl | he
    · decide
    · exact hfits e he
  have hentries := entriesFrom_encode [] post hall
  rw [List.nil_append, ← himage, List.length_nil, Nat.zero_add] at hentries
  rw [recovered_eq f hd hstat, hentries, Option.map_map]
  rfl

private theorem recovered_marked (f : LogFile) {d : Disk} (hd : Paged d) (hstat : d.stat = f.stat)
    {xs : List LogEntry} {post : Bytes} (hfits : ∀ e ∈ xs, e.Fits)
    (himage : d.ldbs = encode (logEntrySentry :: xs) ++ (word 0 ++ post)) :
    recovered f.factor d = some { f.contents with entries := readBack xs } := by
  have hmarker := entriesFrom_marker (encode (logEntrySentry :: xs)) post
  rw [← himage, length_encode] at hmarker
  rw [recovered_encode f hd hstat hfits himage, hmarker, Option.map_some, List.append_nil]

namespace Stores

variable {f g : LogFile} {log : EntryLogger}

private theorem contents_eq (h : f.Stores log) :
    f.contents = ⟨log.lastIndex, log.lastTerm, log.lastConfig, readBack log.entries⟩ := by
  obtain ⟨rest, himage⟩ := h.image
  have hread : f.infos.map (fun i => readEntry f.ldbs i.amount) = readBack log.infos := by
    rw [h.infos, himage]
    exact map_placed [] _ h.infos_fit
  rw [contents, h.lastIndex_eq, h.lastTerm_eq, h.lastConfig_eq, List.map_tail, hread]
  rfl

private theorem paged (h : f.Stores log) : Paged f.toDisk where
  stat := by
    obtain ⟨size, rest, hstates⟩ := h.states
    rw [hstates]
    exact List.ne_nil_of_length_pos (by simp)
  ldbs := List.ne_nil_of_length_pos (by have := h.image_length; omega)
  statPages := h.statPages
  ldbsPages := h.ldbsPages

theorem numbered (h : f.Stores log) {xs : List LogEntry}
    (hcons : EntryLogger.Consecutive { log with entries := xs }) :
    Contents.Numbered { f.contents with entries := readBack xs } := by
  intro k e he
  rw [readBack, List.getElem?_map] at he
  obtain ⟨x, hx, rfl⟩ := Option.map_eq_some_iff.mp he
  refine ⟨x.toEntry, rfl, (hcons k x hx).trans ?_⟩
  rw [h.contents_eq]

end Stores

/-! ## Changes of the files -/

inductive Change where
  | append (batch : List LogEntry)
  | chop (index : Nat)
  | drop (index : Nat)
  deriving DecidableEq, Repr

def Change.Continues (f : LogFile) : Change → Prop
  | .append batch => ∀ k e, batch[k]? = some e → e.Fits ∧ e.index = f.lastEntryIndex + k + 1
  | _ => True

variable (f : LogFile)

/-- The writes of a change, in their order; nothing is written for `RC_OOR`. -/
def changeWrites : Change → Option (List DiskWrite)
  | .append batch => f.appendWrites batch
  | .chop index => (f.chop index).bind fun r =>
      if r.2 = .good then f.chopWrites index else some []
  | .drop index => (f.drop index).bind fun r =>
      if r.2 = .good then f.dropWrites index else some []

/-- The log before the change or after it; for `append`, with a part of the batch. -/
def Outcome : Change → Contents → Prop
  | .append batch, c => ∃ m, c =
      { f.contents with entries := f.contents.entries ++ readBack (batch.take m) }
  | .chop index, c => c = f.contents ∨ ∃ r, f.chop index = some r ∧ c = r.1.contents
  | .drop index, c => c = f.contents ∨ ∃ r, f.drop index = some r ∧ c = r.1.contents

/-- Wherever the writes stop, `init` recovers a log one may have expected. -/
def CrashConsistent (change : Change) (ws : List DiskWrite) : Prop :=
  ∀ k, ∃ c, recovered f.factor (f.toDisk.writes (ws.take k)) = some c ∧
    f.Outcome change c ∧ c.Numbered

def grownLdbs (batch : List LogEntry) : Option Bytes :=
  (growths f.factor (f.hasRoom batch) (f.payloadSize + batchSize batch + 10) f.ldbs.length).map
    fun sizes => (f.toDisk.writes (sizes.map .growLdbs)).ldbs

/--
What the file already holds where an entry of the batch will end is a zero
word, or the next entries of the batch and a zero word.
-/
def ClearBehind (batch : List LogEntry) : Prop :=
  ∀ image, f.grownLdbs batch = some image → ∀ j, 0 < j → j ≤ batch.length →
    ∃ m, entriesFrom image (f.payloadSize + batchSize (batch.take j)) =
      some (readBack ((batch.drop j).take m))

def Change.Safe : Change → Prop
  | .append batch => f.ClearBehind batch
  | .chop _ => True
  | .drop index => f.outOfRange index = true

variable {f}

namespace Stores

variable {f g : LogFile} {log : EntryLogger}

private theorem recovered_self (h : f.Stores log) : recovered f.factor f.toDisk = some f.contents := by
  obtain ⟨rest, himage⟩ := h.image
  rw [recovered_marked f h.paged rfl h.fits himage, h.contents_eq]

private theorem consecutive_self (h : f.Stores log) : f.contents.Numbered := by
  have := h.numbered h.consecutive
  rwa [h.contents_eq] at this ⊢

/-! ### `chop` -/

private theorem crash_chop (h : f.Stores log) {i : Nat} {ws : List DiskWrite}
    (hws : f.changeWrites (.chop i) = some ws) : f.CrashConsistent (.chop i) ws := by
  obtain ⟨⟨g, answer⟩, hchop, hrest⟩ := Option.bind_eq_some_iff.mp hws
  cases answer with
  | oor =>
      obtain rfl : [] = ws := by simpa using hrest
      intro k
      rw [List.take_nil]
      exact ⟨_, h.recovered_self, .inl rfl, h.consecutive_self⟩
  | good =>
      obtain ⟨j, cfg, hj, rfl, -, hg⟩ := h.chop hchop
      have hplace := h.infos_place (k := j + 1) (by simpa [EntryLogger.infos] using hj)
      have hsub : log.lastIndex + j + 1 - f.lastIndex = j + 1 := by
        rw [h.lastIndex_eq]
        omega
      rw [if_pos rfl, chopWrites, hsub, hplace, Option.map_some, Option.some.injEq] at hrest
      subst hrest
      intro k
      cases k with
      | zero => exact ⟨_, h.recovered_self, .inl rfl, h.consecutive_self⟩
      | succ k =>
          obtain ⟨⟨rest, hcut⟩, hlength⟩ :=
            h.cut (k := j + 1) (by simpa [EntryLogger.infos] using hj)
          have hfits : ∀ e ∈ log.entries.take j, e.Fits :=
            fun e he => h.fits e (List.mem_of_mem_take he)
          have hpaged : Paged (f.toDisk.write
              (.ldbs (batchSize (log.infos.take (j + 1))) (word 0))) := by
            refine ⟨h.paged.stat, ?_, h.statPages, ?_⟩
            · exact List.ne_nil_of_length_pos
                (hlength.symm ▸ List.length_pos_of_ne_nil h.paged.ldbs)
            · exact hlength.symm ▸ h.ldbsPages
          rw [List.take_succ_cons, List.take_nil, Disk.writes_cons, Disk.writes_nil]
          refine ⟨_, recovered_marked f hpaged rfl hfits hcut, .inr ⟨_, hchop, ?_⟩,
            h.numbered hg.consecutive⟩
          rw [hg.contents_eq, h.contents_eq]

/-! ### `drop` -/

private theorem crash_drop (h : f.Stores log) {i : Nat} {ws : List DiskWrite}
    (hws : f.changeWrites (.drop i) = some ws) :
    f.CrashConsistent (.drop i) ws ↔ f.outOfRange i = true := by
  obtain ⟨⟨g, answer⟩, hdrop, hrest⟩ := Option.bind_eq_some_iff.mp hws
  cases hrange : f.outOfRange i with
  | true =>
      have hoor : f.drop i = some (f, .oor) := by
        unfold LogFile.drop
        dsimp only
        rw [hrange, if_pos rfl]
      rw [hdrop, Option.some.injEq] at hoor
      cases hoor
      obtain rfl : [] = ws := by simpa using hrest
      refine iff_of_true (fun k => ?_) rfl
      rw [List.take_nil]
      exact ⟨_, h.recovered_self, .inl rfl, h.consecutive_self⟩
  | false =>
      obtain ⟨j, hj, rfl, -⟩ := h.held hrange
      have hgood : answer = .good := by
        unfold LogFile.drop at hdrop
        dsimp only at hdrop
        rw [hrange, if_neg (by simp), if_neg (by rw [h.first_inRange hj]; simp)] at hdrop
        simp only [Option.bind_eq_bind, Option.bind_eq_some_iff] at hdrop
        obtain ⟨d, -, vs, -, hg⟩ := hdrop
        cases hg
        rfl
      subst hgood
      obtain ⟨k', hk', config, hindex, -, hg⟩ := h.drop hdrop
      obtain rfl : k' = j := by omega
      obtain ⟨us, image, hentries, hwrites, ⟨rest, himage⟩, hlength⟩ := h.dropEntries hj
      rw [if_pos rfl] at hrest
      simp only [Option.bind_eq_bind, dropWrites, hentries, Option.bind_some,
        Option.bind_eq_some_iff] at hrest
      obtain ⟨-, -, e, -, vs, -, hcat⟩ := hrest
      cases hcat
      refine iff_of_false (fun hcrash => ?_) (by simp)
      -- the point between the writes to the log file and those to the base
      obtain ⟨c, hc, houtcome, -⟩ := hcrash us.length
      have hpaged : Paged { f.toDisk with ldbs := image } := by
        refine ⟨h.paged.stat, ?_, h.statPages, hlength.symm ▸ h.ldbsPages⟩
        exact List.ne_nil_of_length_pos (hlength.symm ▸ List.length_pos_of_ne_nil h.paged.ldbs)
      rw [List.take_left, hwrites _ rfl, recovered_marked f hpaged rfl
        (fun e he => h.fits e (List.mem_of_mem_drop he)) himage, Option.some.injEq] at hc
      subst hc
      rcases houtcome with hold | ⟨r, hr, hnew⟩
      · have hcount := congrArg (fun c => c.entries.length) hold
        rw [h.contents_eq] at hcount
        simp only [readBack, List.length_map, List.length_drop] at hcount
        omega
      · rw [hdrop, Option.some.injEq] at hr
        subst hr
        have hbase := congrArg (·.index) hnew
        rw [h.contents_eq, hg.contents_eq] at hbase
        simp only [EntryLogger.copyStates] at hbase
        omega

/-! ### `append` -/

private theorem entryCopies_take (off : Nat) (es : List LogEntry) (j : Nat) :
    (entryCopies off es).take j = entryCopies off (es.take j) := by
  induction es generalizing off j with
  | nil => simp [entryCopies]
  | cons e es ih =>
      cases j with
      | zero => rfl
      | succ j => simp [entryCopies, ih]

private theorem length_entryCopies (off : Nat) (es : List LogEntry) :
    (entryCopies off es).length = es.length := by
  induction es generalizing off with
  | nil => rfl
  | cons e es ih => simp [entryCopies, ih]

private theorem writes_growths_take {factor : ℚ} {enough : Nat → Bool} {fuel size : Nat} {sizes : List Nat}
    (hfactor : 1 ≤ factor) (hsize : size % pageSize = 0)
    (h : growths factor enough fuel size = some sizes) (k : Nat) {d : Disk}
    (hd : d.ldbs.length = size) :
    ∃ n, (size + n) % pageSize = 0 ∧ d.writes ((sizes.take k).map .growLdbs) =
      { d with ldbs := d.ldbs ++ List.replicate n 0 } := by
  induction fuel generalizing size sizes k d with
  | zero => cases h
  | succ fuel ih =>
      rw [growths] at h
      split at h
      · cases h
        exact ⟨0, hsize, by simp⟩
      · obtain ⟨rest, hrest, rfl⟩ := Option.map_eq_some_iff.mp h
        cases k with
        | zero => exact ⟨0, hsize, by simp⟩
        | succ k =>
            have hge := grownSize_ge hfactor size
            have hresize : d.write (.growLdbs (grownSize factor size)) =
                { d with ldbs := d.ldbs ++ List.replicate (grownSize factor size - size) 0 } := by
              rw [Disk.write, resize_eq (by omega), hd]
            have hlen : (d.write (.growLdbs (grownSize factor size))).ldbs.length =
                grownSize factor size := by
              rw [hresize]
              simp only [List.length_append, List.length_replicate]
              omega
            obtain ⟨n, hn, hwrites⟩ := ih (roundUp_mod _ _) hrest k hlen
            refine ⟨grownSize factor size - size + n, ?_, ?_⟩
            · rw [← Nat.add_assoc, Nat.add_sub_cancel' hge]
              exact hn
            · rw [List.take_succ_cons, List.map_cons, Disk.writes_cons, hwrites, hresize]
              simp only [List.append_assoc, List.replicate_append_replicate]

private theorem consecutive_batch (h : f.Stores log) {batch : List LogEntry}
    (hnew : Change.Continues f (.append batch)) (m : Nat) :
    EntryLogger.Consecutive { log with entries := log.entries ++ batch.take m } := by
  intro k e he
  dsimp only at he ⊢
  by_cases hk : k < log.entries.length
  · rw [List.getElem?_append_left hk] at he
    exact h.consecutive k e he
  · rw [List.getElem?_append_right (by omega), List.getElem?_take,
      Option.ite_none_right_eq_some] at he
    have hindex := (hnew _ e he.2).2
    rw [h.lastEntryIndex_eq, h.consecutive.lastEntryIndex_eq] at hindex
    omega

private theorem consecutive_appended (h : f.Stores log) {batch : List LogEntry}
    (hnew : Change.Continues f (.append batch)) : (log.append batch).Consecutive := by
  have hcons := h.consecutive_batch hnew batch.length
  rwa [List.take_length] at hcons

private theorem numbered_outcome (h : f.Stores log) {batch : List LogEntry}
    (hnew : Change.Continues f (.append batch)) {c : Contents}
    (hc : f.Outcome (.append batch) c) : c.Numbered := by
  obtain ⟨m, rfl⟩ := hc
  have hcontents : f.contents.entries ++ readBack (batch.take m) =
      readBack (log.entries ++ batch.take m) := by
    rw [h.contents_eq]
    exact List.map_append.symm
  rw [hcontents]
  exact h.numbered (h.consecutive_batch hnew m)

/-- The files while the batch is copied: what `init` finds behind the copied entries is old. -/
theorem recovered_copied (h : f.Stores log) {batch : List LogEntry} {d : Disk} {rest : Bytes}
    (hfits : ∀ e ∈ batch, e.Fits) (hstat : d.stat = f.stat)
    (himage : d.ldbs = encode log.infos ++ (word 0 ++ rest))
    (hpage : d.ldbs.length % pageSize = 0)
    (hroom : batchSize log.infos + batchSize batch ≤ d.ldbs.length) :
    recovered f.factor (d.writes (entryCopies (batchSize log.infos) batch)) =
      (entriesFrom d.ldbs (batchSize log.infos + batchSize batch)).map fun es =>
        { f.contents with entries := f.contents.entries ++ (readBack batch ++ es) } := by
  have htake : d.ldbs.take (batchSize log.infos) = encode log.infos := by
    rw [himage, ← length_encode, List.take_left]
  have hcopies := writes_entryCopies d hroom
  rw [htake] at hcopies
  generalize hd' : d.writes (entryCopies (batchSize log.infos) batch) = d' at hcopies
  have hldbs : d'.ldbs = encode (logEntrySentry :: (log.entries ++ batch)) ++
      d.ldbs.drop (batchSize log.infos + batchSize batch) := by
    rw [hcopies]
    simp [EntryLogger.infos]
  have hpre : (encode (logEntrySentry :: (log.entries ++ batch))).length =
      batchSize log.infos + batchSize batch := by
    simp [EntryLogger.infos, Nat.add_assoc]
  have hlen : d'.ldbs.length = d.ldbs.length := by
    rw [hldbs, List.length_append, hpre, List.length_drop]
    omega
  have hpaged : Paged d' := by
    refine ⟨?_, ?_, ?_, hlen ▸ hpage⟩
    · rw [hcopies]
      exact hstat ▸ h.paged.stat
    · refine List.ne_nil_of_length_pos ?_
      rw [hlen, himage, List.length_append, length_encode]
      simp only [EntryLogger.infos, batchSize_cons]
      have := logEntrySentry.size_pos
      omega
    · rw [hcopies]
      exact hstat ▸ h.statPages
  have hdrop : d'.ldbs.drop (batchSize log.infos + batchSize batch) =
      d.ldbs.drop (batchSize log.infos + batchSize batch) := by
    rw [hldbs, ← hpre, List.drop_left]
  have hfitsAll : ∀ e ∈ log.entries ++ batch, e.Fits := by
    intro e he
    rcases List.mem_append.mp he with he | he
    · exact h.fits e he
    · exact hfits e he
  have hrecovered := recovered_encode f hpaged (by rw [hcopies]; exact hstat) hfitsAll hldbs
  rw [← length_encode, hpre, entriesFrom_congr hlen hdrop] at hrecovered
  rw [hrecovered, h.contents_eq]
  refine congrArg (Option.map · _) (funext fun es => ?_)
  simp [readBack]

private theorem recovered_growing (h : f.Stores log) {enough : Nat → Bool} {fuel : Nat}
    {sizes : List Nat} (hsizes : growths f.factor enough fuel f.ldbs.length = some sizes) (k : Nat) :
    recovered f.factor (f.toDisk.writes ((sizes.take k).map .growLdbs)) = some f.contents := by
  obtain ⟨n, hn, hwrites⟩ := writes_growths_take h.factor h.ldbsPages hsizes k (d := f.toDisk) rfl
  obtain ⟨rest, himage⟩ := h.image
  have hpaged : Paged { f.toDisk with ldbs := f.ldbs ++ List.replicate n 0 } := by
    refine ⟨h.paged.stat, ?_, h.statPages, ?_⟩
    · exact List.append_ne_nil_of_left_ne_nil h.paged.ldbs _
    · rw [List.length_append, List.length_replicate]
      exact hn
  have hmarked : f.ldbs ++ List.replicate n 0 =
      encode (logEntrySentry :: log.entries) ++ (word 0 ++ (rest ++ List.replicate n 0)) := by
    rw [himage]
    simp [EntryLogger.infos]
  rw [hwrites, recovered_marked f hpaged rfl h.fits hmarked, h.contents_eq]

private theorem recovered_appended (h : f.Stores log) {batch : List LogEntry} {ws : List DiskWrite}
    (hfits : ∀ e ∈ batch, e.Fits) (hcons : (log.append batch).Consecutive)
    (hws : f.appendWrites batch = some ws) :
    recovered f.factor (f.toDisk.writes ws) =
      some { f.contents with entries := f.contents.entries ++ readBack batch } := by
  obtain ⟨g, hg⟩ : ∃ g, f.append batch = some g := by
    rw [LogFile.append, hws]
    exact ⟨_, rfl⟩
  have hstores := h.append hfits hcons hg
  have hdisk : g.toDisk = f.toDisk.writes ws ∧ g.factor = f.factor := by
    rw [LogFile.append, hws, Option.map_some, Option.some.injEq] at hg
    rw [← hg]
    exact ⟨rfl, rfl⟩
  have hself := hstores.recovered_self
  rw [hdisk.1, hdisk.2, hstores.contents_eq] at hself
  rw [hself, h.contents_eq]
  simp [EntryLogger.append, readBack]

/-- The three kinds of points of an `append`: growing, copying, and behind the end marker. -/
theorem crash_append (h : f.Stores log) {batch : List LogEntry} {ws : List DiskWrite}
    (hnew : Change.Continues f (.append batch)) (hws : f.appendWrites batch = some ws) :
    f.CrashConsistent (.append batch) ws ↔ f.ClearBehind batch := by
  obtain ⟨sizes, d, rest, rfl, hsizes, hd, hstat, himage, hpage, hroom⟩ := h.grown hws
  have hfits : ∀ e ∈ batch, e.Fits := by
    intro e he
    obtain ⟨k, hk⟩ := List.getElem?_of_mem he
    exact (hnew k e hk).1
  have hgrown : f.grownLdbs batch = some d.ldbs := by
    rw [grownLdbs, hsizes, Option.map_some, hd]
  have htaken : ∀ j, batchSize (batch.take j) ≤ batchSize batch := by
    intro j
    conv_rhs => rw [← List.take_append_drop j batch, batchSize_append]
    exact Nat.le_add_right _ _
  have hcopied : ∀ j, recovered f.factor (f.toDisk.writes (sizes.map .growLdbs ++
      entryCopies (batchSize log.infos) (batch.take j))) =
        (entriesFrom d.ldbs (f.payloadSize + batchSize (batch.take j))).map fun es =>
          { f.contents with entries := f.contents.entries ++ (readBack (batch.take j) ++ es) } := by
    intro j
    rw [Disk.writes_append, hd, h.payload]
    exact h.recovered_copied (fun e he => hfits e (List.mem_of_mem_take he)) hstat himage hpage
      (by have := htaken j; omega)
  have hpoint : ∀ j, j ≤ batch.length →
      (sizes.map DiskWrite.growLdbs ++ entryWrites (batchSize log.infos) batch).take
        (sizes.length + j) =
      sizes.map .growLdbs ++ entryCopies (batchSize log.infos) (batch.take j) := by
    intro j hj
    have hlength : sizes.length = (sizes.map DiskWrite.growLdbs).length := by simp
    rw [hlength, List.take_length_add_append, entryWrites,
      List.take_append_of_le_length (by rw [length_entryCopies]; exact hj), entryCopies_take]
  constructor
  · intro hcrash image hsome j hpos hj
    obtain rfl : d.ldbs = image := Option.some.inj (hgrown.symm.trans hsome)
    obtain ⟨c, hc, ⟨m, hm⟩, -⟩ := hcrash (sizes.length + j)
    rw [hpoint j hj, hcopied] at hc
    obtain ⟨es, hes, rfl⟩ := Option.map_eq_some_iff.mp hc
    have hsame : readBack (batch.take j) ++ es = readBack (batch.take m) :=
      List.append_cancel_left (congrArg Contents.entries hm)
    have hlength : (readBack (batch.take j)).length = j := by
      rw [readBack, List.length_map, List.length_take, Nat.min_eq_left hj]
    refine ⟨m - j, hes.trans (congrArg some ?_)⟩
    calc es = (readBack (batch.take j) ++ es).drop j := (List.drop_left' hlength).symm
      _ = readBack ((batch.take m).drop j) := by rw [hsame, readBack, readBack, List.map_drop]
      _ = readBack ((batch.drop j).take (m - j)) := by rw [List.drop_take]
  · intro hclear k
    suffices hout : ∃ c, recovered f.factor (f.toDisk.writes
        ((sizes.map DiskWrite.growLdbs ++ entryWrites (batchSize log.infos) batch).take k)) =
          some c ∧ f.Outcome (.append batch) c from
      hout.imp fun c hc => ⟨hc.1, hc.2, h.numbered_outcome hnew hc.2⟩
    by_cases hgrow : k ≤ sizes.length
    · have htake : (sizes.map DiskWrite.growLdbs ++ entryWrites (batchSize log.infos) batch).take k =
          (sizes.take k).map .growLdbs := by
        rw [List.take_append_of_le_length (by simpa using hgrow), List.map_take]
      rw [htake]
      exact ⟨_, h.recovered_growing hsizes k, 0, by simp [readBack]⟩
    obtain ⟨j, rfl⟩ : ∃ j, k = sizes.length + j := ⟨k - sizes.length, by omega⟩
    by_cases hj : j ≤ batch.length
    · obtain ⟨m, hm⟩ := hclear _ hgrown j (by omega) hj
      rw [hpoint j hj, hcopied, hm]
      refine ⟨_, rfl, j + m, ?_⟩
      simp only [List.take_add, readBack, List.map_append]
    · have hall : (sizes.map DiskWrite.growLdbs ++ entryWrites (batchSize log.infos) batch).take
          (sizes.length + j) =
            sizes.map .growLdbs ++ entryWrites (batchSize log.infos) batch := by
        refine List.take_of_length_le ?_
        simp only [entryWrites, List.length_append, List.length_map, length_entryCopies,
          List.length_singleton]
        omega
      rw [hall]
      exact ⟨_, h.recovered_appended hfits (h.consecutive_appended hnew) hws, batch.length,
        by rw [List.take_length]⟩

end Stores

/-- When the files survive a crash between any two writes of a change. -/
theorem crash_consistent {f : LogFile} {log : EntryLogger} (h : f.Stores log) {change : Change}
    (hnew : change.Continues f) {ws : List DiskWrite} (hws : f.changeWrites change = some ws) :
    f.CrashConsistent change ws ↔ change.Safe f := by
  cases change with
  | append batch => exact h.crash_append hnew hws
  | chop i => exact iff_of_true (h.crash_chop hws) trivial
  | drop i => exact h.crash_drop hws

def short : List LogOp := [.append [(1, ascii "a", false)]]

def next : LogEntry := { term := 1, index := 2, data := ascii "b", config := false, prevCfg := 0 }

private theorem short_runs : ∃ f log, ((init (5 / 4) none none).bind fun f => run exec f short) = some f ∧
    f.Stores log := by
  have hruns : ((init (5 / 4) none none).bind fun f => run exec f short).isSome := by
    decide +kernel
  obtain ⟨f, hf⟩ := Option.isSome_iff_exists.mp hruns
  obtain ⟨g, hinit, hrun⟩ := Option.bind_eq_some_iff.mp hf
  obtain ⟨log, hlog⟩ := stores_run (Stores.init_new (by norm_num) hinit) hrun
  exact ⟨f, log, hf, hlog⟩

theorem crash_consistent_short :
    ∃ f ws, ((init (5 / 4) none none).bind fun f => run exec f short) = some f ∧
      f.changeWrites (.append [next]) = some ws ∧
      (f.CrashConsistent (.append [next]) ws ↔ (Change.append [next]).Safe f) := by
  obtain ⟨f, log, hf, hlog⟩ := short_runs
  have hfacts : ((init (5 / 4) none none).bind fun f => run exec f short).all
      fun f => (f.changeWrites (.append [next])).isSome ∧ f.lastEntryIndex = 1 := by
    decide +kernel
  rw [hf, Option.all_some, decide_eq_true_eq] at hfacts
  obtain ⟨ws, hws⟩ := Option.isSome_iff_exists.mp hfacts.1
  have hnew : Change.Continues f (.append [next]) := by
    intro k e he
    cases k with
    | zero =>
        obtain rfl : next = e := by simpa using he
        exact ⟨by decide, by rw [hfacts.2]; rfl⟩
    | succ k => simp at he
  exact ⟨f, ws, hf, hws, crash_consistent hlog hnew hws⟩

/-- `drop` of the only entry: behind its first write the entry is gone and the base is the old one. -/
theorem drop_torn :
    ∃ (f : LogFile) (log : EntryLogger) (ws : List DiskWrite), f.Stores log ∧
      f.changeWrites (.drop 1) = some ws ∧
      ¬ f.CrashConsistent (.drop 1) ws := by
  obtain ⟨f, log, hf, hlog⟩ := short_runs
  have hfacts : ((init (5 / 4) none none).bind fun f => run exec f short).all
      fun f => (f.changeWrites (.drop 1)).isSome ∧ f.outOfRange 1 = false := by
    decide +kernel
  rw [hf, Option.all_some, decide_eq_true_eq] at hfacts
  obtain ⟨ws, hws⟩ := Option.isSome_iff_exists.mp hfacts.1
  refine ⟨f, log, ws, hlog, hws, ?_⟩
  rw [hlog.crash_drop hws, hfacts.2]
  simp

end LogFile

end Draft
