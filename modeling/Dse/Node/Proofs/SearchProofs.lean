import Dse.Node.Proofs.OrderProofs

/-!
# What the search for a conflict finds

`are_indexes_in_conflict` steps through the ranges of a commit two positions at a time, and through
the query one position at a time. So every other pair that it looks at is no range of the query but
the gap between two of them, and a commit that lies in such a gap is found although it shares no
index with the query.
-/

namespace Dse

namespace CommitHistory

variable {history : CommitHistory} {indexes : List U32}

/-- Some live commit shares an index with the query. -/
def Conflicts (history : CommitHistory) (indexes : List U32) : Prop :=
  ∃ c ∈ history.commits, c.Live ∧ Ranges.Meets c.indexes indexes

/-- Some live commit has a range that lies between two ranges of the query. -/
def FallsBetween (history : CommitHistory) (indexes : List U32) : Prop :=
  ∃ c ∈ history.commits, c.Live ∧ ∃ r ∈ Ranges.ofList c.indexes, Ranges.FallsBetween indexes r

theorem findConflict_isSome : (history.findConflict indexes).isSome ↔
    ∃ c ∈ history.commits, c.Live ∧ Ranges.Crosses c.indexes indexes := by
  unfold findConflict
  rw [List.find?_isSome]
  simp only [Commit.isInConflict_iff]

/-- The search misses no conflict, and what it finds besides lies between two ranges of the query. -/
theorem findConflict_isSome_iff (hcommits : ∀ c ∈ history.commits, Ranges.WellFormed c.indexes)
    (hindexes : Ranges.WellFormed indexes) : (history.findConflict indexes).isSome ↔
      history.Conflicts indexes ∨ history.FallsBetween indexes := by
  rw [findConflict_isSome]
  constructor
  · rintro ⟨c, hc, hl, hcrosses⟩
    rcases (Ranges.crosses_iff (hcommits c hc) hindexes).mp hcrosses with hmeets | hbetween
    · exact Or.inl ⟨c, hc, hl, hmeets⟩
    · exact Or.inr ⟨c, hc, hl, hbetween⟩
  · rintro (⟨c, hc, hl, hmeets⟩ | ⟨c, hc, hl, hbetween⟩)
    · exact ⟨c, hc, hl, (Ranges.crosses_iff (hcommits c hc) hindexes).mpr (Or.inl hmeets)⟩
    · exact ⟨c, hc, hl, (Ranges.crosses_iff (hcommits c hc) hindexes).mpr (Or.inr hbetween)⟩

/-- The search is exact unless all that is there to find lies between two ranges of the query. -/
theorem conflict_search_exact_iff
    (hcommits : ∀ c ∈ history.commits, Ranges.WellFormed c.indexes)
    (hindexes : Ranges.WellFormed indexes) :
    ((history.findConflict indexes).isSome ↔ history.Conflicts indexes) ↔
      (history.FallsBetween indexes → history.Conflicts indexes) := by
  rw [findConflict_isSome_iff hcommits hindexes]
  constructor
  · intro h hbetween
    exact h.mp (Or.inr hbetween)
  · intro h
    constructor
    · rintro (hconflict | hbetween)
      · exact hconflict
      · exact h hbetween
    · exact Or.inl

/-- A history with one commit, of the indexes `l`. -/
def ofIndexes (l : List U32) : CommitHistory := ⟨8, [{ plainCommit 6 with indexes := l }]⟩

theorem conflict_search_exact_iff_ofIndexes :
    (((ofIndexes [5, 6]).findConflict [1, 2, 6, 11]).isSome ↔
        (ofIndexes [5, 6]).Conflicts [1, 2, 6, 11]) ↔
      ((ofIndexes [5, 6]).FallsBetween [1, 2, 6, 11] →
        (ofIndexes [5, 6]).Conflicts [1, 2, 6, 11]) := by
  refine conflict_search_exact_iff ?_ ⟨by decide, by decide⟩
  intro c hc
  obtain rfl := List.mem_singleton.mp hc
  exact ⟨by decide, by decide⟩

/-- The commit of 5 to 6 is found for 1 to 2 and 10 to 11. -/
theorem not_conflict_search_exact_ofIndexes :
    ¬ ∀ (history : CommitHistory) (indexes : List U32),
      (∀ c ∈ history.commits, Ranges.WellFormed c.indexes) → Ranges.WellFormed indexes →
        ((history.findConflict indexes).isSome ↔ history.Conflicts indexes) := by
  intro h
  have hcommits : ∀ c ∈ (ofIndexes [5, 6]).commits, Ranges.WellFormed c.indexes := by
    intro c hc
    obtain rfl := List.mem_singleton.mp hc
    exact ⟨by decide, by decide⟩
  have hfound : ((ofIndexes [5, 6]).findConflict [1, 2, 10, 11]).isSome := by decide
  obtain ⟨c, hc, -, x, ⟨r, hr, h1, h2⟩, ⟨q, hq, h3, h4⟩⟩ :=
    (h (ofIndexes [5, 6]) [1, 2, 10, 11] hcommits ⟨by decide, by decide⟩).mp hfound
  obtain rfl := List.mem_singleton.mp hc
  obtain rfl := List.mem_singleton.mp hr
  simp only [Ranges.ofList, List.mem_cons, List.not_mem_nil, or_false] at hq
  rcases hq with rfl | rfl
  · exact absurd (Std.le_trans h1 h4) (by decide)
  · exact absurd (Std.le_trans h3 h2) (by decide)

end CommitHistory

end Dse
