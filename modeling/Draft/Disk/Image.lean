import Mathlib.Data.List.TakeDrop
import Mathlib.Tactic.Ring
import Draft.Foundation.Bytes

/-!
# Byte images

A mapped file is a list of bytes.  Words of 64 bits are read and written in
little-endian order, and a write replaces as many bytes as it brings.
-/

namespace Draft.Disk

/-! ## Words -/

def leBytes : Nat → Nat → Bytes
  | 0, _ => []
  | k + 1, n => UInt8.ofNat n :: leBytes k (n / 256)

def leValue : Bytes → Nat
  | [] => 0
  | c :: rest => c.toNat + 256 * leValue rest

@[simp] theorem length_leBytes (k n : Nat) : (leBytes k n).length = k := by
  induction k generalizing n with
  | zero => rfl
  | succ k ih => simp [leBytes, ih]

private theorem leValue_leBytes (k n : Nat) : leValue (leBytes k n) = n % 256 ^ k := by
  induction k generalizing n with
  | zero => simp [leBytes, leValue, Nat.mod_one]
  | succ k ih =>
      have hsplit : n % 256 ^ (k + 1) = n % 256 + 256 * (n / 256 % 256 ^ k) := by
        rw [pow_succ', Nat.mod_mul]
      rw [leBytes, leValue, ih, UInt8.toNat_ofNat', hsplit]

theorem leValue_lt (bytes : Bytes) : leValue bytes < 256 ^ bytes.length := by
  induction bytes with
  | nil => simp [leValue]
  | cons c rest ih =>
      have hc := c.toNat_lt
      rw [leValue, List.length_cons, pow_succ]
      omega

def word (n : Nat) : Bytes := leBytes 8 n

@[simp] theorem length_word (n : Nat) : (word n).length = 8 := length_leBytes 8 n

theorem leValue_word {n : Nat} (h : n < 2 ^ 64) : leValue (word n) = n := by
  rw [word, leValue_leBytes]
  exact Nat.mod_eq_of_lt (by simpa using h)

/-! ## Reading -/

def slice (image : Bytes) (off len : Nat) : Bytes := (image.drop off).take len

def readWord (image : Bytes) (off : Nat) : Option Nat :=
  if off + 8 ≤ image.length then some (leValue (slice image off 8)) else none

theorem length_slice_le (image : Bytes) (off len : Nat) : (slice image off len).length ≤ len := by
  simp [slice, List.length_take]

theorem readWord_lt {image : Bytes} {off n : Nat} (h : readWord image off = some n) :
    n < 2 ^ 64 := by
  unfold readWord at h
  split at h
  · cases h
    calc leValue (slice image off 8) < 256 ^ (slice image off 8).length := leValue_lt _
      _ ≤ 256 ^ 8 := Nat.pow_le_pow_right (by decide) (length_slice_le image off 8)
  · cases h

theorem slice_append {pre bytes post : Bytes} {off len : Nat} (hoff : pre.length = off)
    (hlen : bytes.length = len) : slice (pre ++ (bytes ++ post)) off len = bytes := by
  subst hoff hlen
  simp [slice]

theorem slice_drop (image : Bytes) (off k len : Nat) :
    slice (image.drop off) k len = slice image (off + k) len := by
  simp [slice, List.drop_drop]

theorem readWord_append {pre post : Bytes} {off n : Nat} (hoff : pre.length = off)
    (hn : n < 2 ^ 64) : readWord (pre ++ (word n ++ post)) off = some n := by
  have hlen : off + 8 ≤ (pre ++ (word n ++ post)).length := by
    simp only [List.length_append, length_word]
    omega
  rw [readWord, if_pos hlen, slice_append hoff (length_word n), leValue_word hn]

private theorem readWord_drop (image : Bytes) (off k : Nat) :
    readWord (image.drop off) k = readWord image (off + k) := by
  unfold readWord
  rw [slice_drop, List.length_drop]
  have hiff : k + 8 ≤ image.length - off ↔ off + k + 8 ≤ image.length := by omega
  simp only [hiff]

theorem readWord_skip {bytes rest : Bytes} {n : Nat} (h : bytes.length = n) (k : Nat) :
    readWord (bytes ++ rest) (n + k) = readWord rest k := by
  rw [← readWord_drop, ← h, List.drop_left]

theorem slice_skip {bytes rest : Bytes} {n : Nat} (h : bytes.length = n) (k len : Nat) :
    slice (bytes ++ rest) (n + k) len = slice rest k len := by
  rw [← slice_drop, ← h, List.drop_left]

theorem slice_append_left {bytes rest : Bytes} {k len : Nat} (h : k + len ≤ bytes.length) :
    slice (bytes ++ rest) k len = slice bytes k len := by
  rw [slice, slice, List.drop_append_of_le_length (by omega),
    List.take_append_of_le_length (by rw [List.length_drop]; omega)]

theorem readWord_zero {rest : Bytes} {n : Nat} (hn : n < 2 ^ 64) :
    readWord (word n ++ rest) 0 = some n :=
  @readWord_append [] rest 0 n rfl hn

theorem readWord_of_drop {image image' : Bytes} {off : Nat} (h : image.drop off = image'.drop off)
    (k : Nat) : readWord image (off + k) = readWord image' (off + k) := by
  rw [← readWord_drop, ← readWord_drop, h]

/-! ## Writing -/

def overwrite (image : Bytes) (off : Nat) (bytes : Bytes) : Bytes :=
  image.take off ++ (bytes ++ image.drop (off + bytes.length))

theorem overwrite_left {pre post bytes : Bytes} {off : Nat} (hoff : pre.length = off) :
    overwrite (pre ++ post) off bytes = pre ++ (bytes ++ post.drop bytes.length) := by
  subst hoff
  rw [overwrite, List.take_left, ← List.drop_drop, List.drop_left]

theorem overwrite_append {pre old post bytes : Bytes} {off : Nat} (hoff : pre.length = off)
    (hlen : old.length = bytes.length) :
    overwrite (pre ++ (old ++ post)) off bytes = pre ++ (bytes ++ post) := by
  rw [overwrite_left hoff, ← hlen, List.drop_left]

theorem overwrite_start {old post bytes : Bytes} (hlen : old.length = bytes.length) :
    overwrite (old ++ post) 0 bytes = bytes ++ post :=
  @overwrite_append [] old post bytes 0 rfl hlen

theorem length_overwrite {image bytes : Bytes} {off : Nat}
    (h : off + bytes.length ≤ image.length) : (overwrite image off bytes).length = image.length := by
  simp only [overwrite, List.length_append, List.length_take, List.length_drop]
  omega

end Draft.Disk
