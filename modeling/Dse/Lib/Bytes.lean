import Mathlib.Data.Nat.Basic
import Mathlib.Data.List.GetD
import Mathlib.Tactic.Ring

/-!
# Numbers as bytes

Fixed-width encodings of natural numbers, least significant byte first (`le`) and most significant
byte first (`be`), the numbers they denote (`ofLE`, `ofBE`) and reading a window out of a byte
string that is followed by zeros without end (`window`).
-/

namespace Bytes

/-- The `n` low bytes of `x`, least significant first. -/
def le : ℕ → ℕ → List UInt8
  | 0, _ => []
  | n + 1, x => UInt8.ofNat x :: le n (x / 256)

/-- The `n` low bytes of `x`, most significant first. -/
def be (n x : ℕ) : List UInt8 := (le n x).reverse

/-- The number a byte string denotes, least significant byte first. -/
def ofLE : List UInt8 → ℕ
  | [] => 0
  | b :: bs => b.toNat + 256 * ofLE bs

/-- The number a byte string denotes, most significant byte first. -/
def ofBE (bs : List UInt8) : ℕ := ofLE bs.reverse

/-- The `n` bytes of `data` from offset `i` on, with zeros past its end. -/
def window (data : List UInt8) (i n : ℕ) : List UInt8 :=
  (List.range n).map fun k => data.getD (i + k) 0

@[simp] theorem length_le (n x : ℕ) : (le n x).length = n := by
  induction n generalizing x with
  | zero => rfl
  | succ n ih => simp [le, ih]

@[simp] theorem length_be (n x : ℕ) : (be n x).length = n := by simp [be]

/-- Decoding undoes encoding, up to the width. -/
theorem ofLE_le (n x : ℕ) : ofLE (le n x) = x % 256 ^ n := by
  induction n generalizing x with
  | zero => simp [le, ofLE, Nat.mod_one]
  | succ n ih =>
    rw [le, ofLE, ih, Nat.pow_succ', Nat.mod_mul]
    simp

theorem ofBE_be (n x : ℕ) : ofBE (be n x) = x % 256 ^ n := by
  rw [ofBE, be, List.reverse_reverse, ofLE_le]

/-- Two numbers that fit have equal encodings only if they are equal. -/
theorem be_inj {n x y : ℕ} (hx : x < 256 ^ n) (hy : y < 256 ^ n) (h : be n x = be n y) : x = y := by
  have h' := congrArg ofBE h
  rwa [ofBE_be, ofBE_be, Nat.mod_eq_of_lt hx, Nat.mod_eq_of_lt hy] at h'

theorem le_inj {n x y : ℕ} (hx : x < 256 ^ n) (hy : y < 256 ^ n) (h : le n x = le n y) : x = y :=
  be_inj hx hy (congrArg List.reverse h)

/-! ## Numbers of longer strings -/

theorem ofLE_append (as bs : List UInt8) :
    ofLE (as ++ bs) = ofLE as + 256 ^ as.length * ofLE bs := by
  induction as with
  | nil => simp [ofLE]
  | cons a as ih =>
    rw [List.cons_append, ofLE, ofLE, ih, List.length_cons, Nat.pow_succ']
    ring

theorem ofLE_lt (bs : List UInt8) : ofLE bs < 256 ^ bs.length := by
  induction bs with
  | nil => simp [ofLE]
  | cons b bs ih =>
    have hb : b.toNat < 256 := b.toNat_lt
    rw [ofLE, List.length_cons, Nat.pow_succ']
    omega

/-- Encoding undoes decoding. -/
theorem le_ofLE (bs : List UInt8) : le bs.length (ofLE bs) = bs := by
  induction bs with
  | nil => rfl
  | cons b bs ih =>
    have hb : b.toNat < 256 := b.toNat_lt
    have hlow : UInt8.ofNat (b.toNat + 256 * ofLE bs) = b := by
      rw [← UInt8.toNat_inj, UInt8.toNat_ofNat', Nat.add_mul_mod_self_left, Nat.mod_eq_of_lt hb]
    have hhigh : (b.toNat + 256 * ofLE bs) / 256 = ofLE bs := by omega
    rw [ofLE, List.length_cons, le, hlow, hhigh, ih]

theorem be_ofBE (bs : List UInt8) : be bs.length (ofBE bs) = bs := by
  have h := congrArg List.reverse (le_ofLE bs.reverse)
  rwa [List.length_reverse, List.reverse_reverse] at h

theorem ofBE_append (as bs : List UInt8) :
    ofBE (as ++ bs) = ofBE as * 256 ^ bs.length + ofBE bs := by
  rw [ofBE, ofBE, ofBE, List.reverse_append, ofLE_append, List.length_reverse]
  ring

theorem ofBE_lt (bs : List UInt8) : ofBE bs < 256 ^ bs.length := by
  have h := ofLE_lt bs.reverse
  rwa [List.length_reverse] at h

/-! ## Windows -/

@[simp] theorem length_window (data : List UInt8) (i n : ℕ) : (window data i n).length = n := by
  simp [window]

theorem getD_window (data : List UInt8) (i : ℕ) {k n : ℕ} (h : k < n) :
    (window data i n).getD k 0 = data.getD (i + k) 0 := by
  rw [List.getD_eq_getElem _ _ (by rw [length_window]; exact h)]
  simp [window]

/-- A window that begins behind the first bytes does not see them. -/
theorem window_append (as bs : List UInt8) (i n : ℕ) :
    window (as ++ bs) (as.length + i) n = window bs i n := by
  unfold window
  refine List.map_congr_left fun k _ => ?_
  rw [Nat.add_assoc, List.getD_append_right _ _ _ _ (by omega), Nat.add_sub_cancel_left]

/-- A window at the start of a string that is no longer than it. -/
theorem window_of_le {as : List UInt8} (bs : List UInt8) {n : ℕ} (h : as.length ≤ n) :
    window (as ++ bs) 0 n = as ++ window bs 0 (n - as.length) := by
  refine List.ext_getElem (by simp [h]) fun k hk _ => ?_
  rw [length_window] at hk
  simp only [window, List.getElem_map, List.getElem_range, Nat.zero_add]
  by_cases hlt : k < as.length
  · rw [List.getElem_append_left hlt, List.getD_append _ _ _ _ hlt, List.getD_eq_getElem _ _ hlt]
  · rw [List.getElem_append_right (by omega), List.getD_append_right _ _ _ _ (by omega)]
    simp

/-- A window over a field is the field. -/
theorem window_self (pre as bs : List UInt8) :
    window (pre ++ (as ++ bs)) pre.length as.length = as := by
  have h := window_append pre (as ++ bs) 0 as.length
  rw [Nat.add_zero, window_of_le bs (le_refl _), Nat.sub_self] at h
  exact h.trans (List.append_nil as)

/-- Two windows side by side. -/
theorem window_add (data : List UInt8) (i m n : ℕ) :
    window data i (m + n) = window data i m ++ window data (i + m) n := by
  unfold window
  rw [List.range_add, List.map_append, List.map_map]
  refine congrArg _ (List.map_congr_left fun k _ => ?_)
  rw [Function.comp_apply, Nat.add_assoc]

/-- A window into a window. -/
theorem window_window (data : List UInt8) {i m j n : ℕ} (h : j + n ≤ m) :
    window (window data i m) j n = window data (i + j) n := by
  refine List.map_congr_left fun k hk => ?_
  rw [List.mem_range] at hk
  rw [getD_window data i (by omega), Nat.add_assoc]

theorem window_replicate (m i n : ℕ) :
    window (List.replicate m 0) i n = List.replicate n 0 := by
  refine List.eq_replicate_iff.mpr ⟨length_window .., fun b hb => ?_⟩
  obtain ⟨k, -, rfl⟩ := List.mem_map.mp hb
  rw [List.getD_eq_getElem?_getD, List.getElem?_getD_replicate_default_eq]

/-- The number in the first `n` bytes of a window of `m`. -/
theorem ofBE_window_div (data : List UInt8) (i : ℕ) {m n : ℕ} (h : n ≤ m) :
    ofBE (window data i m) / 256 ^ (m - n) = ofBE (window data i n) := by
  have hsplit := window_add data i n (m - n)
  rw [Nat.add_sub_cancel' h] at hsplit
  have hlt := ofBE_lt (window data (i + n) (m - n))
  rw [length_window] at hlt
  have hpos : 0 < 256 ^ (m - n) := Nat.pow_pos (by omega)
  rw [hsplit, ofBE_append, length_window, Nat.mul_comm, Nat.mul_add_div hpos,
    Nat.div_eq_of_lt hlt, Nat.add_zero]

/-- Only zeros stay the same when they are read from one byte further on. -/
theorem eq_replicate_of_window {bs : List UInt8} (h : window bs 1 bs.length = bs) :
    bs = List.replicate bs.length 0 := by
  have hnext : ∀ k < bs.length, bs.getD k 0 = bs.getD (k + 1) 0 := by
    intro k hk
    calc bs.getD k 0 = (window bs 1 bs.length).getD k 0 := by rw [h]
      _ = bs.getD (k + 1) 0 := by rw [getD_window bs 1 hk, Nat.add_comm]
  -- from the end of the string, where the reading meets the first zero, back to its start
  have hzero : ∀ j ≤ bs.length, bs.getD (bs.length - j) 0 = 0 := by
    intro j
    induction j with
    | zero => exact fun _ => List.getD_eq_default _ _ (by omega)
    | succ j ih =>
      intro hj
      rw [hnext _ (by omega), show bs.length - (j + 1) + 1 = bs.length - j from by omega]
      exact ih (by omega)
  refine List.eq_replicate_iff.mpr ⟨rfl, fun b hb => ?_⟩
  obtain ⟨k, hk, rfl⟩ := List.mem_iff_getElem.mp hb
  have hk0 := hzero (bs.length - k) (by omega)
  rwa [Nat.sub_sub_self hk.le, List.getD_eq_getElem _ _ hk] at hk0

end Bytes
