import Mathlib.Data.BitVec

/-!
# Checked arithmetic on machine words

The arithmetic of a language that reverts on overflow: an operation on words of width `w` returns
the exact result, or nothing when the exact result is not a word. Every operation is specified
through `toNat`, so that its users argue about natural numbers.
-/

namespace Word

variable {w : ℕ}

/-- Checked addition. -/
def add? (a b : BitVec w) : Option (BitVec w) :=
  if a.toNat + b.toNat < 2 ^ w then some (a + b) else none

/-- Checked subtraction. -/
def sub? (a b : BitVec w) : Option (BitVec w) :=
  if b ≤ a then some (a - b) else none

/-- Checked multiplication. -/
def mul? (a b : BitVec w) : Option (BitVec w) :=
  if a.toNat * b.toNat < 2 ^ w then some (a * b) else none

/-- Checked division: division by zero fails. -/
def div? (a b : BitVec w) : Option (BitVec w) :=
  if b = 0 then none else some (a / b)

theorem add?_eq_some {a b c : BitVec w} : add? a b = some c ↔ a.toNat + b.toNat = c.toNat := by
  unfold add?
  constructor
  · intro h
    split at h
    · rename_i hlt
      obtain rfl := Option.some.inj h
      rw [BitVec.toNat_add, Nat.mod_eq_of_lt hlt]
    · cases h
  · intro h
    have hlt : a.toNat + b.toNat < 2 ^ w := h ▸ c.isLt
    rw [if_pos hlt]
    congr 1
    apply BitVec.eq_of_toNat_eq
    rw [BitVec.toNat_add, Nat.mod_eq_of_lt hlt, h]

theorem sub?_eq_some {a b c : BitVec w} : sub? a b = some c ↔ a.toNat = c.toNat + b.toNat := by
  unfold sub?
  constructor
  · intro h
    split at h
    · rename_i hle
      obtain rfl := Option.some.inj h
      rw [BitVec.toNat_sub_of_le hle]
      have := BitVec.le_def.mp hle
      omega
    · cases h
  · intro h
    have hle : b ≤ a := BitVec.le_def.mpr (by omega)
    rw [if_pos hle]
    congr 1
    apply BitVec.eq_of_toNat_eq
    rw [BitVec.toNat_sub_of_le hle]
    omega

theorem mul?_eq_some {a b c : BitVec w} : mul? a b = some c ↔ a.toNat * b.toNat = c.toNat := by
  unfold mul?
  constructor
  · intro h
    split at h
    · rename_i hlt
      obtain rfl := Option.some.inj h
      rw [BitVec.toNat_mul, Nat.mod_eq_of_lt hlt]
    · cases h
  · intro h
    have hlt : a.toNat * b.toNat < 2 ^ w := h ▸ c.isLt
    rw [if_pos hlt]
    congr 1
    apply BitVec.eq_of_toNat_eq
    rw [BitVec.toNat_mul, Nat.mod_eq_of_lt hlt, h]

theorem div?_eq_some {a b c : BitVec w} :
    div? a b = some c ↔ b ≠ 0 ∧ a.toNat / b.toNat = c.toNat := by
  unfold div?
  by_cases hb : b = 0
  · simp [hb]
  · rw [if_neg hb, Option.some.injEq, and_iff_right hb]
    constructor
    · rintro rfl
      exact (BitVec.toNat_udiv ..).symm
    · intro h
      apply BitVec.eq_of_toNat_eq
      rw [← h]
      exact BitVec.toNat_udiv ..

@[simp] theorem zero_add? (a : BitVec w) : add? 0#w a = some a :=
  add?_eq_some.mpr (by simp)

/-- A sum that fits is the value of a word. -/
theorem exists_toNat {n : ℕ} : (∃ a : BitVec w, n = a.toNat) ↔ n < 2 ^ w := by
  constructor
  · rintro ⟨a, rfl⟩
    exact a.isLt
  · intro h
    exact ⟨.ofNat w n, by rw [BitVec.toNat_ofNat, Nat.mod_eq_of_lt h]⟩

theorem eq_add_of_toNat {a b c : BitVec w} (h : a.toNat + b.toNat = c.toNat) : c = a + b := by
  apply BitVec.eq_of_toNat_eq
  rw [BitVec.toNat_add, h, Nat.mod_eq_of_lt c.isLt]

@[simp] theorem add?_zero (a : BitVec w) : add? a 0#w = some a :=
  add?_eq_some.mpr (by simp)

@[simp] theorem sub?_zero (a : BitVec w) : sub? a 0#w = some a :=
  sub?_eq_some.mpr (by simp)

theorem add?_assoc (a b c : BitVec w) :
    (add? a b).bind (fun ab => add? ab c) = (add? b c).bind (add? a) := by
  refine Option.ext fun d => ?_
  simp only [Option.bind_eq_some_iff, add?_eq_some]
  have hd := d.isLt
  constructor
  · rintro ⟨ab, hab, habc⟩
    obtain ⟨bc, hbc⟩ := exists_toNat.mpr (show b.toNat + c.toNat < 2 ^ w by omega)
    exact ⟨bc, hbc, by omega⟩
  · rintro ⟨bc, hbc, habc⟩
    obtain ⟨ab, hab⟩ := exists_toNat.mpr (show a.toNat + b.toNat < 2 ^ w by omega)
    exact ⟨ab, hab, by omega⟩

/-- Subtracting a sum is subtracting its parts. -/
theorem sub?_add (a b c : BitVec w) :
    (add? b c).bind (sub? a) = (sub? a b).bind (fun d => sub? d c) := by
  refine Option.ext fun d => ?_
  simp only [Option.bind_eq_some_iff, add?_eq_some, sub?_eq_some]
  have ha := a.isLt
  constructor
  · rintro ⟨bc, hbc, habc⟩
    obtain ⟨e, he⟩ := exists_toNat.mpr (show d.toNat + c.toNat < 2 ^ w by omega)
    exact ⟨e, by omega, he.symm⟩
  · rintro ⟨e, hae, hde⟩
    obtain ⟨bc, hbc⟩ := exists_toNat.mpr (show b.toNat + c.toNat < 2 ^ w by omega)
    exact ⟨bc, hbc, by omega⟩

theorem sub?_of_le {a b : BitVec w} (h : b ≤ a) : sub? a b = some (a - b) := if_pos h

/-- Adding the first of `n + 1` equal words whose sum is a word. -/
theorem fits_succ {a v : BitVec w} {n : ℕ} (h : a.toNat + (n + 1) * v.toNat < 2 ^ w) :
    (a + v).toNat = a.toNat + v.toNat ∧ (a + v).toNat + n * v.toNat < 2 ^ w := by
  rw [Nat.add_mul, Nat.one_mul] at h
  have hsum : (a + v).toNat = a.toNat + v.toNat := by
    rw [BitVec.toNat_add, Nat.mod_eq_of_lt (by omega)]
  rw [hsum]
  exact ⟨rfl, by omega⟩

/-! ## The order -/

theorem zero_le (a : BitVec w) : 0 ≤ a := by simp [BitVec.le_def]

theorem lt_of_le_of_lt {a b c : BitVec w} (h : a ≤ b) (h' : b < c) : a < c := by
  rw [BitVec.le_def] at h
  rw [BitVec.lt_def] at h' ⊢
  omega

theorem lt_of_le_of_ne {a b : BitVec w} (h : a ≤ b) (hne : a ≠ b) : a < b := by
  have : a.toNat ≠ b.toNat := fun h' => hne (BitVec.eq_of_toNat_eq h')
  rw [BitVec.le_def] at h
  rw [BitVec.lt_def]
  omega

end Word
