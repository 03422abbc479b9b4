import Mathlib.Data.Finset.Max
import Mathlib.Order.Interval.Finset.Nat

/-!
# Settlement books

What a settlement period is about, without any storage layout: units of one value each are either
claimed (paid out at once) or buffered (waiting to be burned, and released again when challenged),
never both. A book carries these laws as fields, so the operations below are only defined where they
keep them, and every reachable book is sound by construction.
-/

/-- A settlement book over units `ι` worth `value` each. -/
structure Book (ι : Type*) [DecidableEq ι] (value : ℕ) where
  /-- The units paid out. -/
  claimed : Finset ι
  /-- The units in the burn buffer. -/
  buffered : Finset ι
  /-- The amount paid out. -/
  paid : ℕ
  /-- The amount still to be burned. -/
  pending : ℕ
  /-- The amount of the buffered units that is burned already. -/
  burnt : ℕ
  disjoint : Disjoint claimed buffered
  paid_eq : paid = value * claimed.card
  pending_eq : pending + burnt = value * buffered.card

namespace Book

variable {ι : Type*} [DecidableEq ι] {value : ℕ}

/-- A period begins with nothing settled. -/
def empty : Book ι value where
  claimed := ∅
  buffered := ∅
  paid := 0
  pending := 0
  burnt := 0
  disjoint := Finset.disjoint_empty_left _
  paid_eq := (Nat.mul_zero value).symm
  pending_eq := (Nat.mul_zero value).symm

/-- Pay out the units `s`, none of which is settled yet. -/
def claim (b : Book ι value) (s : Finset ι) (hc : Disjoint b.claimed s)
    (hb : Disjoint b.buffered s) : Book ι value where
  claimed := b.claimed ∪ s
  buffered := b.buffered
  paid := b.paid + value * s.card
  pending := b.pending
  burnt := b.burnt
  disjoint := Finset.disjoint_union_left.mpr ⟨b.disjoint, hb.symm⟩
  paid_eq := by rw [Finset.card_union_of_disjoint hc, b.paid_eq, Nat.mul_add]
  pending_eq := b.pending_eq

/-- Put the units `s`, none of which is settled yet, in the burn buffer. -/
def buffer (b : Book ι value) (s : Finset ι) (hc : Disjoint b.claimed s)
    (hb : Disjoint b.buffered s) : Book ι value where
  claimed := b.claimed
  buffered := b.buffered ∪ s
  paid := b.paid
  pending := b.pending + value * s.card
  burnt := b.burnt
  disjoint := Finset.disjoint_union_right.mpr ⟨b.disjoint, hc⟩
  paid_eq := b.paid_eq
  pending_eq := by
    rw [Finset.card_union_of_disjoint hb, Nat.mul_add, ← b.pending_eq]
    omega

/-- Take the challenged units `s` out of the burn buffer. -/
def release (b : Book ι value) (s : Finset ι) (hs : s ⊆ b.buffered)
    (hp : value * s.card ≤ b.pending) : Book ι value where
  claimed := b.claimed
  buffered := b.buffered \ s
  paid := b.paid
  pending := b.pending - value * s.card
  burnt := b.burnt
  disjoint := b.disjoint.mono_right Finset.sdiff_subset
  paid_eq := b.paid_eq
  pending_eq := by
    have h := b.pending_eq
    rw [Finset.card_sdiff_of_subset hs, Nat.mul_sub]
    omega

/-- Burn everything that is pending. -/
def burnAll (b : Book ι value) : Book ι value where
  claimed := b.claimed
  buffered := b.buffered
  paid := b.paid
  pending := 0
  burnt := b.burnt + b.pending
  disjoint := b.disjoint
  paid_eq := b.paid_eq
  pending_eq := by
    have h := b.pending_eq
    omega

/-- What can happen to a book. -/
inductive Step : Book ι value → Book ι value → Prop
  /-- Nothing is settled. -/
  | idle (b : Book ι value) : Step b b
  /-- The next period begins. -/
  | renew (b : Book ι value) : Step b empty
  | claim (b : Book ι value) (s : Finset ι) (hc : Disjoint b.claimed s)
      (hb : Disjoint b.buffered s) : Step b (b.claim s hc hb)
  | buffer (b : Book ι value) (s : Finset ι) (hc : Disjoint b.claimed s)
      (hb : Disjoint b.buffered s) : Step b (b.buffer s hc hb)
  | release (b : Book ι value) (s : Finset ι) (hs : s ⊆ b.buffered)
      (hp : value * s.card ≤ b.pending) : Step b (b.release s hs hp)
  | burnAll (b : Book ι value) : Step b b.burnAll

/-- What is settled is backed by the settled units. -/
theorem paid_add_pending_le (b : Book ι value) :
    b.paid + b.pending ≤ value * (b.claimed ∪ b.buffered).card := by
  rw [Finset.card_union_of_disjoint b.disjoint, Nat.mul_add, ← b.paid_eq, ← b.pending_eq]
  omega

/-- Releasing units of a book never asks for more than is pending, unless some of the buffered
amount is burned already. -/
theorem release_le (b : Book ι value) (hb : b.burnt = 0) {s : Finset ι} (hs : s ⊆ b.buffered) :
    value * s.card ≤ b.pending := by
  have h := b.pending_eq
  rw [hb, Nat.add_zero] at h
  rw [h]
  exact Nat.mul_le_mul_left _ (Finset.card_le_card hs)

/-- Units of distinct ranks from 1 on, each with `c` times its rank within `total`, take up no more
than `total` at `c` each. -/
theorem mul_card_le {ι : Type*} {rank : ι → ℕ} (hinj : Function.Injective rank) {s : Finset ι}
    {c total : ℕ} (h : ∀ i ∈ s, 1 ≤ rank i ∧ c * rank i ≤ total) : c * s.card ≤ total := by
  classical
  rcases s.eq_empty_or_nonempty with rfl | hne
  · simp
  · obtain ⟨m, hm, hmax⟩ := s.exists_max_image rank hne
    have hsub : s.image rank ⊆ Finset.Icc 1 (rank m) := by
      intro k hk
      obtain ⟨i, hi, rfl⟩ := Finset.mem_image.mp hk
      exact Finset.mem_Icc.mpr ⟨(h i hi).1, hmax i hi⟩
    have hcard := Finset.card_le_card hsub
    rw [Finset.card_image_of_injective s hinj, Nat.card_Icc] at hcard
    calc c * s.card ≤ c * rank m := Nat.mul_le_mul_left c (by omega)
      _ ≤ total := (h m hm).2

end Book
