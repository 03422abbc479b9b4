import Mathlib.Data.BitVec
import Mathlib.Order.Defs.Unbundled

/-!
# Range lists

A list `[a₀, b₀, a₁, b₁, …]` stands for the inclusive ranges `[a₀, b₀]`, `[a₁, b₁]`, and so on; an
odd element at the end stands for nothing. Two such lists meet when some point lies in a range of
each, and then the end points of two of the ranges are in order crosswise, which is what a search by
positions can see.
-/

namespace Ranges

variable {α : Type*}

/-- The ranges that a list stands for. -/
def ofList : List α → List (α × α)
  | a :: b :: l => (a, b) :: ofList l
  | _ => []

variable [LE α]

/-- A point lies in one of the ranges. -/
def Covers (l : List α) (x : α) : Prop := ∃ r ∈ ofList l, r.1 ≤ x ∧ x ≤ r.2

/-- Two range lists share a point. -/
def Meets (l l' : List α) : Prop := ∃ x, Covers l x ∧ Covers l' x

omit [LE α] in
theorem mem_ofList {l : List α} (d : α) {r : α × α} : r ∈ ofList l ↔
    ∃ k, 2 * k + 1 < l.length ∧ r = (l.getD (2 * k) d, l.getD (2 * k + 1) d) := by
  induction l using ofList.induct with
  | case1 a b l ih =>
    rw [ofList, List.mem_cons, ih]
    constructor
    · rintro (rfl | ⟨k, hk, rfl⟩)
      · exact ⟨0, by simp, rfl⟩
      · refine ⟨k + 1, ?_, rfl⟩
        simp only [List.length_cons]
        omega
    · rintro ⟨k, hk, rfl⟩
      cases k with
      | zero => exact Or.inl rfl
      | succ k =>
        simp only [List.length_cons] at hk
        exact Or.inr ⟨k, by omega, rfl⟩
  | case2 l h =>
    have hlen : l.length < 2 := by
      match l, h with
      | [], _ => simp
      | [a], _ => simp
      | a :: b :: l, h => exact absurd rfl (h a b l)
    rw [ofList.eq_2 l h]
    constructor
    · intro hr
      cases hr
    · rintro ⟨k, hk, -⟩
      omega

theorem Meets.symm {l l' : List α} (h : Meets l l') : Meets l' l := by
  obtain ⟨x, hx, hx'⟩ := h
  exact ⟨x, hx', hx⟩

/-- Ranges that meet have their end points in order crosswise. -/
theorem Meets.exists_positions [IsTrans α (· ≤ ·)] {l l' : List α} (h : Meets l l') (d : α) :
    ∃ k k', 2 * k + 1 < l.length ∧ 2 * k' + 1 < l'.length ∧
      l.getD (2 * k) d ≤ l'.getD (2 * k' + 1) d ∧ l'.getD (2 * k') d ≤ l.getD (2 * k + 1) d := by
  obtain ⟨x, ⟨r, hr, h1, h2⟩, ⟨r', hr', h3, h4⟩⟩ := h
  obtain ⟨k, hk, rfl⟩ := (mem_ofList d).mp hr
  obtain ⟨k', hk', rfl⟩ := (mem_ofList d).mp hr'
  exact ⟨k, k', hk, hk', IsTrans.trans _ _ _ h1 h4, IsTrans.trans _ _ _ h3 h2⟩

/-- Two elements of the query that follow each other are in order crosswise with a range. -/
def Crosses (l query : List α) : Prop := ∃ r ∈ ofList l, ∃ x ∈ query.zip query.tail,
  r.1 ≤ x.2 ∧ x.1 ≤ r.2

/-- The range lies within a range of the list. -/
def Contains (l : List α) (r : α × α) : Prop := ∃ r' ∈ ofList l, r'.1 ≤ r.1 ∧ r.2 ≤ r'.2

instance [DecidableLE α] (l : List α) (r : α × α) : Decidable (Contains l r) :=
  inferInstanceAs (Decidable (∃ r' ∈ ofList l, _))

omit [LE α] in
theorem mem_zip_tail {l : List α} (d : α) {x : α × α} : x ∈ l.zip l.tail ↔
    ∃ j, j + 1 < l.length ∧ x = (l.getD j d, l.getD (j + 1) d) := by
  rw [List.mem_iff_getElem]
  constructor
  · rintro ⟨j, hj, rfl⟩
    have hlen : j + 1 < l.length := by
      simp only [List.length_zip, List.length_tail] at hj
      omega
    refine ⟨j, hlen, ?_⟩
    simp [List.getD, hlen, Nat.lt_of_succ_lt hlen]
  · rintro ⟨j, hj, rfl⟩
    have hlen : j < (l.zip l.tail).length := by
      simp only [List.length_zip, List.length_tail]
      omega
    refine ⟨j, hlen, ?_⟩
    simp [List.getD, hj, Nat.lt_of_succ_lt hj]

/-- The query that asks for the end points of a range the wrong way round finds the lists that
contain the range. -/
theorem crosses_pair {l : List α} {r : α × α} : Crosses l [r.2, r.1] ↔ Contains l r := by
  simp [Crosses, Contains]

/-! ## Well-formed lists -/

/-- Every range has an end, and the end points come in order. -/
structure WellFormed (l : List α) : Prop where
  even : Even l.length
  ordered : l.Pairwise (· ≤ ·)

omit [LE α] in
/-- What lies between two ranges that follow each other. -/
def gaps (l : List α) : List (α × α) := ofList l.tail

/-- The range lies in a gap of the list and reaches neither end of it. -/
def FallsBetween [LT α] (l : List α) (r : α × α) : Prop := ∃ g ∈ gaps l, g.1 < r.1 ∧ r.2 < g.2

instance [LT α] [DecidableLT α] (l : List α) (r : α × α) : Decidable (FallsBetween l r) :=
  inferInstanceAs (Decidable (∃ g ∈ gaps l, _))

omit [LE α] in
theorem mem_gaps {l : List α} (d : α) {g : α × α} : g ∈ gaps l ↔
    ∃ k, 2 * k + 2 < l.length ∧ g = (l.getD (2 * k + 1) d, l.getD (2 * k + 2) d) := by
  have htail : ∀ i, l.tail.getD i d = l.getD (i + 1) d := by
    intro i
    cases l with
    | nil => rfl
    | cons a l => rfl
  unfold gaps
  rw [mem_ofList d, List.length_tail]
  simp only [htail]
  constructor
  · rintro ⟨k, hk, rfl⟩
    exact ⟨k, by omega, rfl⟩
  · rintro ⟨k, hk, rfl⟩
    exact ⟨k, by omega, rfl⟩

omit [LE α] in
/-- Two elements that follow each other bound a range or a gap. -/
theorem mem_zip_tail_iff {l : List α} {x : α × α} :
    x ∈ l.zip l.tail ↔ x ∈ ofList l ∨ x ∈ gaps l := by
  have d : α := x.1
  rw [mem_zip_tail d, mem_ofList d, mem_gaps d]
  constructor
  · rintro ⟨j, hj, rfl⟩
    obtain ⟨k, hk⟩ := Nat.even_or_odd' j
    rcases hk with rfl | rfl
    · exact Or.inl ⟨k, hj, rfl⟩
    · exact Or.inr ⟨k, hj, rfl⟩
  · rintro (⟨k, hk, rfl⟩ | ⟨k, hk, rfl⟩)
    · exact ⟨2 * k, hk, rfl⟩
    · exact ⟨2 * k + 1, hk, rfl⟩

namespace WellFormed

variable {l : List α}

theorem getD_le (hl : WellFormed l) (d : α) {i j : ℕ} (hij : i < j) (hj : j < l.length) :
    l.getD i d ≤ l.getD j d := by
  have hi : i < l.length := hij.trans hj
  have h := List.pairwise_iff_getElem.mp hl.ordered i j hi hj hij
  simpa [List.getD, hi, hj] using h

/-- A range does not end before it begins. -/
theorem le_of_mem (hl : WellFormed l) {r : α × α} (hr : r ∈ ofList l) : r.1 ≤ r.2 := by
  have d : α := r.1
  obtain ⟨k, hk, rfl⟩ := (mem_ofList d).mp hr
  exact hl.getD_le d (Nat.lt_succ_self (2 * k)) hk

/-- A gap has a range on either side. -/
theorem covers_gap (hl : WellFormed l) (hrefl : ∀ a : α, a ≤ a) {g : α × α} (hg : g ∈ gaps l) :
    Covers l g.1 ∧ Covers l g.2 := by
  have d : α := g.1
  obtain ⟨k, hk, rfl⟩ := (mem_gaps d).mp hg
  have hnext : 2 * (k + 1) + 1 < l.length := by
    obtain ⟨n, hn⟩ := hl.even
    omega
  constructor
  · refine ⟨_, (mem_ofList d).mpr ⟨k, by omega, rfl⟩, ?_, hrefl _⟩
    exact hl.getD_le d (Nat.lt_succ_self (2 * k)) (by omega)
  · refine ⟨_, (mem_ofList d).mpr ⟨k + 1, hnext, rfl⟩, hrefl _, ?_⟩
    exact hl.getD_le d (Nat.lt_succ_self (2 * (k + 1))) hnext

end WellFormed

/-- The search by positions finds the lists that meet the query, and those with a range in a gap
of it. -/
theorem crosses_iff [LT α] [Std.IsLinearOrder α] [Std.LawfulOrderLT α] {l query : List α}
    (hl : WellFormed l) (hq : WellFormed query) :
    Crosses l query ↔ Meets l query ∨ ∃ r ∈ ofList l, FallsBetween query r := by
  constructor
  · rintro ⟨r, hr, x, hx, h1, h2⟩
    have hrr := hl.le_of_mem hr
    rcases mem_zip_tail_iff.mp hx with hx | hx
    · -- two ranges: the one that begins later begins within the other
      have hxx := hq.le_of_mem hx
      rcases Std.le_total (a := r.1) (b := x.1) with hle | hle
      · exact Or.inl ⟨x.1, ⟨r, hr, hle, h2⟩, ⟨x, hx, Std.le_refl _, hxx⟩⟩
      · exact Or.inl ⟨r.1, ⟨r, hr, Std.le_refl _, hrr⟩, ⟨x, hx, hle, h1⟩⟩
    · -- a range and a gap: they overlap without a shared index only if the gap has it all
      obtain ⟨hcovers, hcovers'⟩ := hq.covers_gap Std.le_refl hx
      by_cases hbefore : r.1 ≤ x.1
      · exact Or.inl ⟨x.1, ⟨r, hr, hbefore, h2⟩, hcovers⟩
      by_cases hbehind : x.2 ≤ r.2
      · exact Or.inl ⟨x.2, ⟨r, hr, h1, hbehind⟩, hcovers'⟩
      exact Or.inr ⟨r, hr, x, hx, Std.not_le.mp hbefore, Std.not_le.mp hbehind⟩
  · rintro (⟨a, ⟨r, hr, h1, h2⟩, ⟨x, hx, h3, h4⟩⟩ | ⟨r, hr, g, hg, h1, h2⟩)
    · exact ⟨r, hr, x, mem_zip_tail_iff.mpr (Or.inl hx), Std.le_trans h1 h4, Std.le_trans h3 h2⟩
    · have hrr := hl.le_of_mem hr
      have hle : g.1 ≤ r.1 := Std.le_of_lt h1
      have hle' : r.2 ≤ g.2 := Std.le_of_lt h2
      exact ⟨r, hr, g, mem_zip_tail_iff.mpr (Or.inr hg), Std.le_trans hrr hle',
        Std.le_trans hle hrr⟩

end Ranges

instance isTransBitVecLE {w : ℕ} : IsTrans (BitVec w) (· ≤ ·) := ⟨fun _ _ _ => BitVec.le_trans⟩
