import Draft.Disk.LogFile
import Draft.Foundation.ConfigChain

/-!
# The layout of the log file

A list of entries behind one another, with a zero word behind the last one, is
what the loop of `init` reads back, whatever follows.
-/

namespace Draft

open Disk

theorem le_roundUp {unit : Nat} (h : 0 < unit) (size : Nat) : size ≤ roundUp unit size := by
  have hdiv := Nat.lt_div_mul_add (a := size + unit - 1) h
  unfold roundUp
  omega

theorem roundUp_mod (unit size : Nat) : roundUp unit size % unit = 0 :=
  Nat.mul_mod_left _ _

theorem roundUp_of_mod {unit size : Nat} (h : 0 < unit) (hsize : size % unit = 0) :
    roundUp unit size = size := by
  obtain ⟨k, rfl⟩ := Nat.dvd_of_mod_eq_zero hsize
  unfold roundUp
  have hdiv : (unit * k + unit - 1) / unit = k := by
    rw [Nat.add_sub_assoc h, Nat.mul_add_div h, Nat.div_eq_of_lt (by omega), Nat.add_zero]
  rw [hdiv, Nat.mul_comm]

/-! ## Writes -/

namespace Disk

@[simp] theorem writes_nil (d : Disk) : d.writes [] = d := rfl

@[simp] theorem writes_cons (d : Disk) (w : DiskWrite) (ws : List DiskWrite) :
    d.writes (w :: ws) = (d.write w).writes ws := rfl

theorem writes_append (d : Disk) (ws vs : List DiskWrite) :
    d.writes (ws ++ vs) = (d.writes ws).writes vs := List.foldl_append

end Disk

theorem resize_eq {file : Bytes} {size : Nat} (h : file.length ≤ size) :
    resize file size = file ++ List.replicate (size - file.length) 0 := by
  rw [resize, List.take_of_length_le h]

theorem grownSize_ge {factor : ℚ} (h : 1 ≤ factor) (size : Nat) : size ≤ grownSize factor size := by
  refine le_trans ?_ (le_roundUp (by decide) _)
  refine Nat.le_floor ?_
  exact le_mul_of_one_le_right (Nat.cast_nonneg size) h

theorem growths_spec {factor : ℚ} {enough : Nat → Bool} {fuel size : Nat} {sizes : List Nat}
    (hfactor : 1 ≤ factor) (hsize : size % pageSize = 0)
    (h : growths factor enough fuel size = some sizes) :
    ∃ size', size ≤ size' ∧ size' % pageSize = 0 ∧ enough size' = true ∧
      ∀ d : Disk,
        (d.ldbs.length = size → d.writes (sizes.map .growLdbs) =
          { d with ldbs := d.ldbs ++ List.replicate (size' - size) 0 }) ∧
        (d.stat.length = size → d.writes (sizes.map .growStat) =
          { d with stat := d.stat ++ List.replicate (size' - size) 0 }) := by
  induction fuel generalizing size sizes with
  | zero => cases h
  | succ fuel ih =>
      rw [growths] at h
      split at h
      · rename_i henough
        cases h
        exact ⟨size, le_rfl, hsize, henough, fun d => ⟨fun _ => by simp, fun _ => by simp⟩⟩
      · obtain ⟨rest, hrest, rfl⟩ := Option.map_eq_some_iff.mp h
        have hge := grownSize_ge hfactor size
        have hmod : grownSize factor size % pageSize = 0 := roundUp_mod _ _
        obtain ⟨size', hle, hpage, henough, hwrites⟩ := ih hmod hrest
        have hzeros : ∀ file : Bytes, file.length = size →
            resize file (grownSize factor size) =
              file ++ List.replicate (grownSize factor size - size) 0 ∧
            (resize file (grownSize factor size)).length = grownSize factor size := by
          rintro file rfl
          rw [resize_eq hge]
          exact ⟨rfl, by rw [List.length_append, List.length_replicate]; omega⟩
        have hsum : grownSize factor size - size + (size' - grownSize factor size) =
            size' - size := by omega
        refine ⟨size', hge.trans hle, hpage, henough, fun d => ⟨fun hd => ?_, fun hd => ?_⟩⟩
        · obtain ⟨hresize, hlen⟩ := hzeros _ hd
          rw [List.map_cons, Disk.writes_cons, (hwrites _).1 hlen]
          simp only [Disk.write, hresize, List.append_assoc, List.replicate_append_replicate, hsum]
        · obtain ⟨hresize, hlen⟩ := hzeros _ hd
          rw [List.map_cons, Disk.writes_cons, (hwrites _).2 hlen]
          simp only [Disk.write, hresize, List.append_assoc, List.replicate_append_replicate, hsum]

/-! ## One entry -/

namespace LogEntry

variable (e : LogEntry)

theorem size_ge : logEntrySize + e.len ≤ e.size := le_roundUp (by decide) _

theorem size_pos : 0 < e.size := Nat.lt_of_lt_of_le (by decide) (Nat.le_of_add_right_le e.size_ge)

private theorem length_content : e.content.length = e.len := by
  unfold content len
  split <;> simp [Nat.add_comm]

@[simp] theorem length_bytes : e.bytes.length = e.size := by
  have hsize := e.size_ge
  simp only [bytes, List.length_append, List.length_cons, List.length_replicate, length_word,
    length_content, logEntrySize] at hsize ⊢
  omega

variable {e}

theorem Fits.len (h : e.Fits) : e.len < 2 ^ 64 := by
  have hsize := e.size_ge
  have := h.size
  omega

/-! ### Reading an entry back -/

theorem read_size (h : e.Fits) (post : Bytes) : readWord (e.bytes ++ post) 0 = some e.size := by
  simp only [bytes, List.append_assoc]
  exact readWord_zero h.size

private theorem read_index (h : e.Fits) (post : Bytes) : readWord (e.bytes ++ post) 8 = some e.index := by
  simp only [bytes, List.append_assoc]
  exact (readWord_skip (length_word _) 0).trans (readWord_zero h.index)

private theorem read_term (h : e.Fits) (post : Bytes) : readWord (e.bytes ++ post) 16 = some e.term := by
  simp only [bytes, List.append_assoc]
  exact (readWord_skip (length_word _) 8).trans
    ((readWord_skip (length_word _) 0).trans (readWord_zero h.term))

def head (e : LogEntry) : Bytes :=
  word e.size ++ (word e.index ++ (word e.term ++
    ((if e.config then 1 else 0) :: List.replicate 7 0)))

@[simp] theorem length_head (e : LogEntry) : e.head.length = 32 := by simp [head]

private theorem bytes_eq (e : LogEntry) : e.bytes = e.head ++ (word e.len ++
    (e.content ++ List.replicate (e.size - logEntrySize - e.len) 0)) := by
  simp [bytes, head]

private theorem read_cfg (e : LogEntry) (post : Bytes) :
    (e.bytes ++ post)[24]? = some (if e.config then 1 else 0) := by
  have hlen : (word e.size ++ (word e.index ++ word e.term)).length = 24 := by simp
  have hbytes : e.bytes ++ post = (word e.size ++ (word e.index ++ word e.term)) ++
      ((if e.config then 1 else 0) :: (List.replicate 7 0 ++ (word e.len ++
        (e.content ++ List.replicate (e.size - logEntrySize - e.len) 0)) ++ post)) := by
    simp [bytes]
  rw [hbytes, List.getElem?_append_right (by omega), hlen]
  rfl

private theorem read_len (h : e.Fits) (post : Bytes) : readWord (e.bytes ++ post) 32 = some e.len := by
  rw [bytes_eq, List.append_assoc, List.append_assoc]
  exact (readWord_skip (length_head e) 0).trans (readWord_zero h.len)

private theorem slice_content (e : LogEntry) (post : Bytes) (k len : Nat) (h : k + len ≤ e.len) :
    slice (e.bytes ++ post) (logEntrySize + k) len = slice e.content k len := by
  have hhead : (e.head ++ word e.len).length = logEntrySize := by simp [logEntrySize]
  have hbytes : e.bytes ++ post = (e.head ++ word e.len) ++ (e.content ++
      (List.replicate (e.size - logEntrySize - e.len) 0 ++ post)) := by
    simp [bytes_eq]
  rw [hbytes, slice_skip hhead, slice_append_left (by rw [e.length_content]; exact h)]

private theorem read_data (e : LogEntry) (post : Bytes) :
    slice (e.bytes ++ post) (logEntrySize + (if e.config then 8 else 0))
      (e.len - if e.config then 8 else 0) = e.data := by
  have hlen : (if e.config then 8 else 0) ≤ e.len := by
    unfold len
    omega
  rw [slice_content e post _ _ (by omega)]
  unfold content len
  cases hconfig : e.config with
  | true => simp [slice]
  | false => simp [slice]

private theorem read_prevCfg (e : LogEntry) (hconfig : e.config = true) (post : Bytes) :
    slice (e.bytes ++ post) logEntrySize 8 = (word e.prevCfg).reverse := by
  have hlen : 8 ≤ e.len := by
    simp [len, hconfig]
  have hslice := slice_content e post 0 8 (by omega)
  rw [Nat.add_zero] at hslice
  rw [hslice, content, if_pos hconfig]
  simp [slice]

end LogEntry

theorem readEntry_append {pre post : Bytes} {e : LogEntry} {off : Nat} (hoff : pre.length = off)
    (h : e.Fits) : readEntry (pre ++ (e.bytes ++ post)) off = some e.toEntry := by
  have hat : ∀ k, readWord (pre ++ (e.bytes ++ post)) (off + k) = readWord (e.bytes ++ post) k :=
    fun k => readWord_skip hoff k
  have hcfg : (pre ++ (e.bytes ++ post))[off + 24]? = some (if e.config then 1 else 0) := by
    rw [← hoff, List.getElem?_append_right (Nat.le_add_right _ _), Nat.add_sub_cancel_left,
      LogEntry.read_cfg]
  have hbound : off + logEntrySize + e.len ≤ (pre ++ (e.bytes ++ post)).length := by
    have := e.size_ge
    simp only [List.length_append, LogEntry.length_bytes]
    omega
  have hdata : ∀ k, slice (pre ++ (e.bytes ++ post)) (off + logEntrySize + k) (e.len - k) =
      slice (e.bytes ++ post) (logEntrySize + k) (e.len - k) := by
    intro k
    rw [Nat.add_assoc, slice_skip hoff]
  have hskip : (if (if e.config then (1 : UInt8) else 0) = 0 then 0 else 8) =
      if e.config then 8 else 0 := by
    cases e.config <;> rfl
  have hflag : decide ((if e.config then (1 : UInt8) else 0) ≠ 0) = e.config := by
    cases e.config <;> rfl
  have hlen : (if e.config then 8 else 0) ≤ e.len := Nat.le_add_left _ _
  unfold readEntry
  rw [hat, hat, hat, hcfg, LogEntry.read_index h, LogEntry.read_term h, LogEntry.read_len h]
  simp only [Option.bind_eq_bind, Option.bind_some, hskip]
  rw [if_pos ⟨hlen, hbound⟩, hflag, hdata, LogEntry.read_data]

theorem readPrevCfg_append {pre post : Bytes} {e : LogEntry} {off : Nat} (hoff : pre.length = off)
    (h : e.Fits) (hconfig : e.config = true) :
    readPrevCfg (pre ++ (e.bytes ++ post)) off = some e.prevCfg := by
  have hbound : off + logEntrySize + 8 ≤ (pre ++ (e.bytes ++ post)).length := by
    have := e.size_ge
    have hlen : 8 ≤ e.len := by simp [LogEntry.len, hconfig]
    simp only [List.length_append, LogEntry.length_bytes]
    omega
  rw [readPrevCfg, if_pos hbound, slice_skip hoff, LogEntry.read_prevCfg e hconfig,
    List.reverse_reverse, leValue_word h.prevCfg]

/-! ## Entries behind one another -/

def encode (es : List LogEntry) : Bytes := es.flatMap LogEntry.bytes

open LogFile

@[simp] theorem encode_nil : encode [] = [] := rfl

@[simp] theorem encode_cons (e : LogEntry) (es : List LogEntry) :
    encode (e :: es) = e.bytes ++ encode es := rfl

@[simp] theorem encode_append (es fs : List LogEntry) :
    encode (es ++ fs) = encode es ++ encode fs := List.flatMap_append

@[simp] theorem batchSize_nil : batchSize [] = 0 := rfl

@[simp] theorem batchSize_cons (e : LogEntry) (es : List LogEntry) :
    batchSize (e :: es) = e.size + batchSize es := rfl

@[simp] theorem batchSize_append (es fs : List LogEntry) :
    batchSize (es ++ fs) = batchSize es + batchSize fs := by
  simp [batchSize]

@[simp] theorem length_encode (es : List LogEntry) : (encode es).length = batchSize es := by
  induction es with
  | nil => rfl
  | cons e es ih => simp [ih]

theorem length_le_batchSize (es : List LogEntry) : es.length ≤ batchSize es := by
  induction es with
  | nil => exact le_rfl
  | cons e es ih =>
      have := e.size_pos
      simp only [List.length_cons, batchSize_cons]
      omega

@[simp] theorem length_placed (off : Nat) (es : List LogEntry) :
    (placed off es).length = es.length := by
  induction es generalizing off with
  | nil => rfl
  | cons e es ih => simp [placed, ih]

theorem placed_append (off : Nat) (es fs : List LogEntry) :
    placed off (es ++ fs) = placed off es ++ placed (off + batchSize es) fs := by
  induction es generalizing off with
  | nil => rfl
  | cons e es ih => simp [placed, ih, Nat.add_assoc]

theorem newestCfg_lt {cfg : Nat} {es : List LogEntry} (hcfg : cfg < 2 ^ 64)
    (h : ∀ e ∈ es, e.Fits) : newestCfg cfg es < 2 ^ 64 := by
  induction es generalizing cfg with
  | nil => exact hcfg
  | cons e es ih =>
      refine ih ?_ fun x hx => h x (List.mem_cons_of_mem _ hx)
      dsimp only
      split
      · exact (h e List.mem_cons_self).index
      · exact hcfg

theorem getElem?_placed (off : Nat) (es : List LogEntry) (k : Nat) :
    (placed off es)[k]? = es[k]?.map fun e => ⟨e.index, off + batchSize (es.take k)⟩ := by
  induction es generalizing off k with
  | nil => rfl
  | cons e es ih =>
      cases k with
      | zero => simp [placed]
      | succ k => simp [placed, ih, Nat.add_assoc]

theorem placed_take (off : Nat) (es : List LogEntry) (k : Nat) :
    (placed off es).take k = placed off (es.take k) := by
  induction es generalizing off k with
  | nil => simp [placed]
  | cons e es ih =>
      cases k with
      | zero => rfl
      | succ k => simp [placed, ih]

theorem placed_drop (off : Nat) (es : List LogEntry) (k : Nat) :
    (placed off es).drop k = placed (off + batchSize (es.take k)) (es.drop k) := by
  induction es generalizing off k with
  | nil => simp [placed]
  | cons e es ih =>
      cases k with
      | zero => rfl
      | succ k => simp [placed, ih, Nat.add_assoc]

theorem placed_sub (off shift : Nat) (es : List LogEntry) :
    (placed (off + shift) es).map (fun i => { i with amount := i.amount - shift }) =
      placed off es := by
  induction es generalizing off with
  | nil => rfl
  | cons e es ih =>
      have hoff : off + shift + e.size = off + e.size + shift := by omega
      simp [placed, hoff, ih]

/-! ### The loop of `init` -/

theorem walk_marker (pre rest : Bytes) (fuel cfg : Nat) :
    walk (pre ++ (word 0 ++ rest)) (fuel + 1) pre.length cfg = some ⟨[], pre.length, cfg⟩ := by
  rw [walk, readWord_append rfl (by decide)]
  rfl

private theorem walk_entry (pre post : Bytes) {e : LogEntry} (h : e.Fits) (fuel cfg : Nat) :
    walk (pre ++ (e.bytes ++ post)) (fuel + 1) pre.length cfg =
      (walk (pre ++ (e.bytes ++ post)) fuel (pre.length + e.size)
        (if e.config then e.index else cfg)).map fun w =>
          { w with infos := ⟨e.index, pre.length⟩ :: w.infos } := by
  have hat : ∀ k, readWord (pre ++ (e.bytes ++ post)) (pre.length + k) =
      readWord (e.bytes ++ post) k := fun k => readWord_skip rfl k
  have hcfg : (pre ++ (e.bytes ++ post))[pre.length + 24]? =
      some (if e.config then 1 else 0) := by
    rw [List.getElem?_append_right (Nat.le_add_right _ _), Nat.add_sub_cancel_left,
      LogEntry.read_cfg]
  have hsize := hat 0
  rw [Nat.add_zero, LogEntry.read_size h] at hsize
  rw [walk, hsize, hcfg, hat, LogEntry.read_index h]
  dsimp only
  rw [if_neg (Nat.ne_of_gt e.size_pos)]
  have hflag : (if (if e.config then (1 : UInt8) else 0) = 0 then cfg else e.index) =
      if e.config then e.index else cfg := by
    cases e.config <;> rfl
  rw [hflag]

theorem walk_entries (pre post : Bytes) {es : List LogEntry} (h : ∀ e ∈ es, e.Fits)
    (fuel cfg : Nat) :
    walk (pre ++ (encode es ++ post)) (es.length + fuel) pre.length cfg =
      (walk (pre ++ (encode es ++ post)) fuel (pre.length + batchSize es)
        (newestCfg cfg es)).map fun w => { w with infos := placed pre.length es ++ w.infos } := by
  induction es generalizing pre cfg with
  | nil => simp [newestCfg, placed]
  | cons e es ih =>
      have himage : pre ++ (encode (e :: es) ++ post) =
          (pre ++ e.bytes) ++ (encode es ++ post) := by simp
      have hlen : pre.length + e.size = (pre ++ e.bytes).length := by simp
      have hrest := ih (pre ++ e.bytes) (fun x hx => h x (List.mem_cons_of_mem _ hx))
        (if e.config then e.index else cfg)
      have hhead := walk_entry pre (encode es ++ post) (h e List.mem_cons_self)
        (es.length + fuel) cfg
      rw [← List.append_assoc pre, ← himage] at hhead
      rw [← himage] at hrest
      rw [List.length_cons, Nat.add_right_comm, hhead, hlen, hrest, Option.map_map]
      simp [placed, newestCfg, Nat.add_assoc, Function.comp_def]

/-- `init` reads entries back, whatever stands behind their end marker. -/
theorem walk_encode {es : List LogEntry} (h : ∀ e ∈ es, e.Fits) (rest : Bytes) {fuel : Nat}
    (hfuel : es.length < fuel) :
    walk (encode es ++ (word 0 ++ rest)) fuel 0 0 =
      some ⟨placed 0 es, batchSize es, newestCfg 0 es⟩ := by
  obtain ⟨k, rfl⟩ := Nat.exists_eq_add_of_lt hfuel
  have hentries := walk_entries [] (word 0 ++ rest) h (k + 1) 0
  have hmarker := walk_marker (encode es) rest k (newestCfg 0 es)
  rw [length_encode] at hmarker
  simp only [List.nil_append, List.length_nil, Nat.zero_add] at hentries
  rw [Nat.add_assoc, hentries, hmarker]
  simp

/-! ### The loop of `append` -/

theorem writes_entryCopies (d : Disk) {off : Nat} {es : List LogEntry}
    (h : off + batchSize es ≤ d.ldbs.length) :
    d.writes (entryCopies off es) =
      { d with ldbs := d.ldbs.take off ++ (encode es ++ d.ldbs.drop (off + batchSize es)) } := by
  induction es generalizing d off with
  | nil => simp [entryCopies]
  | cons e es ih =>
      rw [batchSize_cons] at h
      have hlen : (d.ldbs.take off ++ e.bytes).length = off + e.size := by
        rw [List.length_append, List.length_take, LogEntry.length_bytes]
        omega
      have himage : (d.write (.ldbs off e.bytes)).ldbs =
          (d.ldbs.take off ++ e.bytes) ++ d.ldbs.drop (off + e.size) := by
        simp [Disk.write, overwrite]
      have hbound : off + e.size + batchSize es ≤ (d.write (.ldbs off e.bytes)).ldbs.length := by
        rw [himage, List.length_append, hlen, List.length_drop]
        omega
      have htake : (d.write (.ldbs off e.bytes)).ldbs.take (off + e.size) =
          d.ldbs.take off ++ e.bytes := by
        rw [himage, ← hlen, List.take_left]
      have hdrop : (d.write (.ldbs off e.bytes)).ldbs.drop (off + e.size + batchSize es) =
          d.ldbs.drop (off + batchSize (e :: es)) := by
        rw [himage, ← List.drop_drop, ← hlen, List.drop_left, hlen, List.drop_drop,
          batchSize_cons, Nat.add_assoc]
      rw [entryCopies, Disk.writes_cons, ih _ hbound, htake, hdrop]
      simp [Disk.write]

theorem writes_marked (d : Disk) {off : Nat} (bytes : Bytes) (h : off ≤ d.ldbs.length) :
    d.writes [.ldbs off bytes, .ldbs (off + bytes.length) (word 0)] =
      { d with ldbs := d.ldbs.take off ++ (bytes ++ (word 0 ++
          d.ldbs.drop (off + bytes.length + 8))) } := by
  have hlen : (d.ldbs.take off ++ bytes).length = off + bytes.length := by
    rw [List.length_append, List.length_take]
    omega
  have hover : overwrite (overwrite d.ldbs off bytes) (off + bytes.length) (word 0) =
      (d.ldbs.take off ++ bytes) ++ (word 0 ++ (d.ldbs.drop (off + bytes.length)).drop 8) := by
    have hfirst : overwrite d.ldbs off bytes =
        (d.ldbs.take off ++ bytes) ++ d.ldbs.drop (off + bytes.length) := by
      rw [overwrite, List.append_assoc]
    rw [hfirst]
    exact overwrite_left hlen
  rw [List.drop_drop, List.append_assoc] at hover
  simp only [Disk.writes_cons, Disk.writes_nil, Disk.write, hover]

theorem writes_entryWrites (d : Disk) {off : Nat} {es : List LogEntry}
    (h : off + batchSize es + 8 ≤ d.ldbs.length) :
    d.writes (entryWrites off es) =
      { d with ldbs := d.ldbs.take off ++ (encode es ++ (word 0 ++
          d.ldbs.drop (off + batchSize es + 8))) } := by
  have hcopies := writes_entryCopies d (by omega : off + batchSize es ≤ d.ldbs.length)
  have hmarked := writes_marked d (encode es) (by omega : off ≤ d.ldbs.length)
  rw [length_encode] at hmarked
  rw [entryWrites, Disk.writes_append, hcopies, ← hmarked]
  simp [Disk.write, overwrite]

end Draft
