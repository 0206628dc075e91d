import Draft.Disk.Reopening

/-!
# Growing the log file

The loop of `append` multiplies the size of the file until there is room for a
batch.  Its test is one of 64 bits, and nothing but the growth factor makes it
come to an end.
-/

namespace Draft

open Disk

/-! ## The loop -/

section Growths

variable {factor : ℚ} {enough : Nat → Bool} {low bound : Nat}

private theorem lt_grownSize (hpos : 0 < low) (hfactor : (low : ℚ) + 1 ≤ low * factor) {size : Nat}
    (h : low ≤ size) : size < grownSize factor size := by
  refine Nat.lt_of_lt_of_le (Nat.lt_succ_self size) (le_trans ?_ (le_roundUp (by decide) _))
  refine Nat.le_floor ?_
  have hlow : (0 : ℚ) < low := by exact_mod_cast hpos
  have hsize : (low : ℚ) ≤ size := by exact_mod_cast h
  have hone : 1 ≤ low * (factor - 1) := by linarith
  have hmore : 0 ≤ factor - 1 := by
    by_contra hneg
    have := mul_neg_of_pos_of_neg hlow (not_le.mp hneg)
    linarith
  have := mul_le_mul_of_nonneg_right hsize hmore
  push_cast
  linarith

private theorem grownSize_le (hpages : low % pageSize = 0) (hfactor : low * factor < (low : ℚ) + 1) :
    grownSize factor low ≤ low := by
  have hfloor : ⌊low * factor⌋₊ ≤ low := by
    refine Nat.lt_succ_iff.mp ((Nat.floor_lt' (Nat.succ_ne_zero low)).mpr ?_)
    push_cast
    exact hfactor
  calc grownSize factor low ≤ roundUp pageSize low := by
        unfold grownSize roundUp
        exact Nat.mul_le_mul_right _ (Nat.div_le_div_right (by omega))
    _ = low := roundUp_of_mod (by decide) hpages

structure Reaches (enough : Nat → Bool) (bound size : Nat) (sizes : List Nat) : Prop where
  grows : (size :: sizes).Pairwise (· ≤ ·)
  below : ∀ x ∈ size :: sizes, x < bound
  enough : enough (sizes.getLastD size) = true

private theorem growths_reaches (hgrow : ∀ size, low ≤ size → size < grownSize factor size) {size : Nat}
    (hlow : low ≤ size) (hsize : size < bound)
    (hcalls : ∀ n, (∀ m ≤ n, enough ((grownSize factor)^[m] size) = false) →
      (grownSize factor)^[n + 1] size < bound) {fuel : Nat} (hfuel : bound ≤ size + fuel) :
    ∃ sizes, growths factor enough fuel size = some sizes ∧ Reaches enough bound size sizes := by
  induction fuel generalizing size with
  | zero => omega
  | succ fuel ih =>
      rw [growths]
      cases henough : enough size with
      | true => exact ⟨[], by simp, by simp, by simpa using hsize, by simpa using henough⟩
      | false =>
          have hlt := hgrow size hlow
          have hnext : grownSize factor size < bound := hcalls 0 fun m hm => by
            obtain rfl := Nat.le_zero.mp hm
            exact henough
          obtain ⟨sizes, hsizes, hreaches⟩ := ih (by omega) hnext (fun n hn => by
            refine hcalls (n + 1) fun m hm => ?_
            cases m with
            | zero => exact henough
            | succ m => exact hn m (by omega)) (by omega)
          refine ⟨grownSize factor size :: sizes, by simp [hsizes], ?_, ?_, ?_⟩
          · refine List.pairwise_cons.mpr ⟨fun x hx => ?_, hreaches.grows⟩
            rcases List.mem_cons.mp hx with rfl | hx
            · exact hlt.le
            · exact hlt.le.trans (List.rel_of_pairwise_cons hreaches.grows hx)
          · exact List.forall_mem_cons.mpr ⟨hsize, hreaches.below⟩
          · rw [List.getLastD_cons]
            exact hreaches.enough

private theorem growths_stuck {size : Nat} (hsame : grownSize factor size = size)
    (hnot : enough size = false) (fuel : Nat) : growths factor enough fuel size = none := by
  induction fuel with
  | zero => rfl
  | succ fuel ih => rw [growths, hnot, if_neg (by simp), hsame, ih, Option.map_none]

end Growths

namespace LogFile

/-- `ldbs_size - payload_size_ - log_end_marker_size`, in 64 bits. -/
def availableSize (f : LogFile) (size : Nat) : Nat :=
  (size + (2 ^ 64 - f.payloadSize) + (2 ^ 64 - 8)) % 2 ^ 64

/-- `size_bytes`, the sum of the sizes in 64 bits. -/
def sizeBytes (batch : List LogEntry) : Nat := batchSize batch % 2 ^ 64

/-- The test that ends the loop of `append`. -/
def fitsIn (f : LogFile) (batch : List LogEntry) (size : Nat) : Bool :=
  sizeBytes batch < f.availableSize size

/--
What the loop of `append` is for: it ends, the file only grows, no size is below
the payload and its end marker, and the last one has room for the batch.
-/
def Grows (f : LogFile) (batch : List LogEntry) : Prop :=
  ∃ fuel sizes, growths f.factor (f.fitsIn batch) fuel f.ldbs.length = some sizes ∧
    (f.ldbs.length :: sizes).Pairwise (· ≤ ·) ∧
    (∀ size ∈ f.ldbs.length :: sizes, f.payloadSize + 8 ≤ size) ∧
    f.payloadSize + 8 + batchSize batch < sizes.getLastD f.ldbs.length

def Remaps (f : LogFile) (batch : List LogEntry) : Prop :=
  ∀ n, (∀ m ≤ n, f.fitsIn batch ((grownSize f.factor)^[m] f.ldbs.length) = false) →
    0 < (grownSize f.factor)^[n + 1] f.ldbs.length ∧
      (grownSize f.factor)^[n + 1] f.ldbs.length < 2 ^ 63

variable {f : LogFile} {log : EntryLogger} {batch : List LogEntry} {size : Nat}

private theorem fitsIn_iff (hroom : f.payloadSize + 8 ≤ size) (hsize : size < 2 ^ 63)
    (hbatch : batchSize batch < 2 ^ 64) :
    f.fitsIn batch size = true ↔ f.payloadSize + 8 + batchSize batch < size := by
  have havailable : f.availableSize size = size - f.payloadSize - 8 := by
    unfold availableSize
    omega
  rw [fitsIn, sizeBytes, Nat.mod_eq_of_lt hbatch, havailable, decide_eq_true_eq]
  omega

private theorem grows_iff (hroom : f.payloadSize + 8 ≤ f.ldbs.length)
    (hpages : f.ldbs.length % pageSize = 0) (hsize : f.ldbs.length < 2 ^ 63)
    (hbatch : batchSize batch < 2 ^ 64) (hcalls : f.Remaps batch) :
    f.Grows batch ↔ f.payloadSize + 8 + batchSize batch < f.ldbs.length ∨
      (f.ldbs.length : ℚ) + 1 ≤ f.ldbs.length * f.factor := by
  constructor
  · rintro ⟨fuel, sizes, hsizes, hgrows, -, hlast⟩
    by_contra hneither
    rw [not_or, not_le] at hneither
    obtain ⟨hfull, hfactor⟩ := hneither
    have hnot : f.fitsIn batch f.ldbs.length = false := by
      rw [← Bool.not_eq_true, fitsIn_iff hroom hsize hbatch]
      exact hfull
    have hle := grownSize_le hpages hfactor
    cases fuel with
    | zero => cases hsizes
    | succ fuel =>
        have hturn := hsizes
        rw [growths, hnot, if_neg (by simp), Option.map_eq_some_iff] at hturn
        obtain ⟨rest, -, rfl⟩ := hturn
        have hge := List.rel_of_pairwise_cons hgrows List.mem_cons_self
        rw [growths_stuck (le_antisymm hle hge) hnot] at hsizes
        cases hsizes
  · intro h
    rcases h with hfits | hfactor
    · refine ⟨1, [], ?_, by simp, by simpa using hroom, hfits⟩
      rw [growths, if_pos ((fitsIn_iff hroom hsize hbatch).mpr hfits)]
    · have hfuel : 2 ^ 63 ≤ f.ldbs.length + 2 ^ 63 := Nat.le_add_left _ _
      obtain ⟨sizes, hsizes, hreaches⟩ := growths_reaches
        (fun size => lt_grownSize (by omega) hfactor) le_rfl hsize (fun n hn => (hcalls n hn).2)
        hfuel
      have hrooms : ∀ size ∈ f.ldbs.length :: sizes, f.payloadSize + 8 ≤ size := by
        intro size hmem
        rcases List.mem_cons.mp hmem with rfl | hmem
        · exact hroom
        · exact hroom.trans (List.rel_of_pairwise_cons hreaches.grows hmem)
      have hlast : sizes.getLastD f.ldbs.length ∈ f.ldbs.length :: sizes := by
        rw [← List.getLast_eq_getLastD (List.cons_ne_nil _ _)]
        exact List.getLast_mem _
      exact ⟨_, sizes, hsizes, hreaches.grows, hrooms,
        (fitsIn_iff (hrooms _ hlast) (hreaches.below _ hlast) hbatch).mp hreaches.enough⟩

private theorem Stores.payload_le (h : f.Stores log) : f.payloadSize + 8 ≤ f.ldbs.length := by
  obtain ⟨rest, himage⟩ := h.image
  rw [h.payload, himage]
  simp only [List.length_append, length_encode, length_word]
  omega

/-- On a log that the files hold the wrapping test is the one without wrapping. -/
theorem Stores.fitsIn_eq (h : f.Stores log) (hle : f.ldbs.length ≤ size) (hsize : size < 2 ^ 63)
    (hbatch : batchSize batch < 2 ^ 64) : f.fitsIn batch size = f.hasRoom batch size := by
  rw [Bool.eq_iff_iff, fitsIn_iff (h.payload_le.trans hle) hsize hbatch, hasRoom,
    decide_eq_true_eq]
  omega

/-- So the loop in 64 bits grows the file as that of `appendWrites` does. -/
theorem Stores.growths_fitsIn (h : f.Stores log) (hsize : f.ldbs.length < 2 ^ 63)
    (hbatch : batchSize batch < 2 ^ 64) (hcalls : f.Remaps batch) (fuel : Nat) :
    growths f.factor (f.fitsIn batch) fuel f.ldbs.length =
      growths f.factor (f.hasRoom batch) fuel f.ldbs.length := by
  have hgrown : ∀ n, f.ldbs.length ≤ (grownSize f.factor)^[n] f.ldbs.length := by
    intro n
    induction n with
    | zero => exact le_rfl
    | succ n ih =>
        rw [Function.iterate_succ_apply']
        exact ih.trans (grownSize_ge h.factor _)
  suffices hturn : ∀ n, (∀ m < n, f.fitsIn batch ((grownSize f.factor)^[m] f.ldbs.length) = false) →
      growths f.factor (f.fitsIn batch) fuel ((grownSize f.factor)^[n] f.ldbs.length) =
        growths f.factor (f.hasRoom batch) fuel ((grownSize f.factor)^[n] f.ldbs.length) from
    hturn 0 fun m hm => absurd hm (Nat.not_lt_zero m)
  induction fuel with
  | zero =>
      intro n _
      rw [growths, growths]
  | succ fuel ih =>
      intro n hfull
      have hbelow : (grownSize f.factor)^[n] f.ldbs.length < 2 ^ 63 := by
        cases n with
        | zero => exact hsize
        | succ n => exact (hcalls n fun m hm => hfull m (Nat.lt_succ_of_le hm)).2
      rw [growths, growths, ← h.fitsIn_eq (hgrown n) hbelow hbatch]
      cases hfits : f.fitsIn batch ((grownSize f.factor)^[n] f.ldbs.length) with
      | true => rw [if_pos rfl, if_pos rfl]
      | false =>
          rw [← Function.iterate_succ_apply' (grownSize f.factor), ih (n + 1)]
          intro m hm
          rcases Nat.lt_succ_iff_lt_or_eq.mp hm with hm | rfl
          · exact hfull m hm
          · exact hfits

/--
With the growth factor that the constructor keeps, on any log: the loop of
`append` does its work exactly when the batch fits as it is, or the factor adds
at least a byte to the file.
-/
theorem append_grows {factor : ℚ} {stat ldbs : Option Bytes} {made : LogFile}
    (hmade : init factor stat ldbs = some made) (hlog : f.Stores log)
    (hsize : f.ldbs.length < 2 ^ 63) (hbatch : batchSize batch < 2 ^ 64)
    (hcalls : Remaps { f with factor := made.factor } batch) :
    Grows { f with factor := made.factor } batch ↔
      f.payloadSize + 8 + batchSize batch < f.ldbs.length ∨
        (f.ldbs.length : ℚ) + 1 ≤ f.ldbs.length * factor := by
  have hiff := grows_iff (f := { f with factor := made.factor }) hlog.payload_le hlog.ldbsPages
    hsize hbatch hcalls
  rw [init_factor hmade] at hiff ⊢
  exact hiff

def longEntry : LogEntry :=
  { term := 1, index := 1, data := List.replicate 5000 0, config := false, prevCfg := 0 }

private theorem batchSize_longEntry : batchSize [longEntry] = 5040 := by
  have hlen : longEntry.len = 5000 := by
    simp only [LogEntry.len, longEntry, List.length_replicate, Bool.false_eq_true, if_false]
  simp [batchSize, LogEntry.size, hlen, roundUp, logEntrySize, logEntryAlignment]

private theorem new_sizes (factor : ℚ) :
    ∃ made, init factor none none = some made ∧ made.payloadSize = 40 ∧
      made.ldbs.length = 4096 := by
  have hsizes : (init 1 none none).map (fun f => (f.payloadSize, f.ldbs.length)) =
      some (40, 4096) := by decide +kernel
  unfold init at hsizes ⊢
  simp only [Option.map_map, Option.map_eq_some_iff] at hsizes ⊢
  obtain ⟨w, hw, hpair⟩ := hsizes
  exact ⟨_, ⟨w, hw, rfl⟩, congrArg Prod.fst hpair, congrArg Prod.snd hpair⟩

theorem append_grows_long : ∃ made, init (5 / 4) none none = some made ∧
    made.Grows [longEntry] := by
  obtain ⟨made, hmade, hpayload, hlength⟩ := new_sizes (5 / 4)
  have hgrown : grownSize (5 / 4) 4096 = 8192 := by decide +kernel
  refine ⟨made, hmade, (append_grows hmade (Stores.init_new (by norm_num) hmade) (by omega)
    (by rw [batchSize_longEntry]; norm_num) ?_).mpr (.inr ?_)⟩
  · intro n hn
    rw [init_factor hmade] at hn ⊢
    rw [hlength] at hn ⊢
    cases n with
    | zero => simp [hgrown]
    | succ n =>
        have hfits := hn 1 (by omega)
        rw [Function.iterate_one, hgrown, ← Bool.not_eq_true, fitsIn_iff (by simp [hpayload])
          (by norm_num) (by rw [batchSize_longEntry]; norm_num), batchSize_longEntry] at hfits
        exact absurd (by simp [hpayload]) hfits
  · rw [hlength]
    norm_num

/-- The constructor leaves the factor 1/2 as it is, and half a page is a page again. -/
theorem halved_stuck :
    ¬ ∀ (factor : ℚ) (stat ldbs : Option Bytes) (made f : LogFile) (log : EntryLogger)
      (batch : List LogEntry), init factor stat ldbs = some made → f.Stores log →
      f.ldbs.length < 2 ^ 63 → batchSize batch < 2 ^ 64 →
      Remaps { f with factor := made.factor } batch →
      Grows { f with factor := made.factor } batch := by
  intro h
  obtain ⟨made, hmade, -⟩ := new_sizes (1 / 2)
  obtain ⟨f, hf, hpayload, hlength⟩ := new_sizes 1
  have hsame : grownSize (1 / 2) 4096 = 4096 := by decide +kernel
  have hiterate : ∀ n, (grownSize (1 / 2))^[n] 4096 = 4096 := Function.iterate_fixed hsame
  have hbatch : batchSize [longEntry] < 2 ^ 64 := by
    rw [batchSize_longEntry]
    norm_num
  have hremaps : Remaps { f with factor := made.factor } [longEntry] := by
    intro n _
    rw [init_factor hmade, hlength, hiterate]
    norm_num
  obtain ⟨fuel, sizes, hsizes, -⟩ := h _ _ _ made f _ _ hmade (Stores.init_new le_rfl hf)
    (by omega) hbatch hremaps
  rw [init_factor hmade, hlength, growths_stuck hsame] at hsizes
  · cases hsizes
  · rw [← Bool.not_eq_true, fitsIn_iff (by simp [hpayload]) (by norm_num) hbatch,
      batchSize_longEntry]
    simp

end LogFile

end Draft
