import Mathlib.Data.List.Chain
import Dse.Node.Indexer

/-!
# What the validator of commits lets pass

`is_commit_valid` compares neighbouring indexes, the trade, the signer, the invalidating address and
the status. It does not look at the number of the indexes, nor at the type of the commit and its
receiver. So it lets pass what is no commit of the stage, or has no range at all.
-/

namespace Dse

variable {Hash : Type} {env : Env Hash}

namespace Commit

/-- Neighbours in order are all in order. -/
theorem indexesIncreasing_iff {indexes : List U32} :
    indexesIncreasing indexes = true ↔ indexes.Pairwise (· ≤ ·) := by
  rw [← List.isChain_iff_pairwise, List.isChain_iff_getElem]
  unfold indexesIncreasing
  rw [List.all_eq_true]
  constructor
  · intro h i hi
    have hnext := h (i + 1) (List.mem_range'_1.mpr ⟨by omega, by omega⟩)
    simpa [List.getD, hi, Nat.lt_of_succ_lt hi] using hnext
  · intro h j hj
    obtain ⟨hpos, hlt⟩ := List.mem_range'_1.mp hj
    obtain ⟨i, rfl⟩ := Nat.exists_eq_add_of_le hpos
    rw [Nat.add_comm 1 i] at hlt ⊢
    have hi : i + 1 < indexes.length := by omega
    simpa [List.getD, hi, Nat.lt_of_succ_lt hi] using h i hi

/-- The checks of `is_commit_valid`. -/
structure Checked (env : Env Hash) (c : Commit) (trade : Trade) (ownerAddress selfAddress : Address) :
    Prop where
  ordered : c.indexes.Pairwise (· ≤ ·)
  u : c.u = trade.id
  signed : c.signingAddress env = some ownerAddress
  iAddress : c.iAddress = if trade.isRequester then selfAddress else ownerAddress
  waiting : trade.status ∈
    [TradeStatus.waitingRT1Commit, .waitingPT1Commit, .waitingRT2Commit]

variable {c : Commit} {trade : Trade} {ownerAddress selfAddress : Address}

theorem isCommitValid_iff : c.isCommitValid env trade ownerAddress selfAddress = true ↔
    c.Checked env trade ownerAddress selfAddress := by
  have hrole : ¬ ((trade.isRequester = true ∧ c.iAddress ≠ selfAddress) ∨
      (trade.isRequester = false ∧ c.iAddress ≠ ownerAddress)) ↔
        c.iAddress = if trade.isRequester then selfAddress else ownerAddress := by
    cases trade.isRequester <;> simp
  unfold isCommitValid
  constructor
  · intro h
    split at h
    · cases h
    rename_i hindexes
    split at h
    · cases h
    rename_i hu
    split at h
    · cases h
    rename_i hsigned
    split at h
    · cases h
    rename_i hi
    refine ⟨indexesIncreasing_iff.mp (Bool.not_eq_false _ ▸ hindexes), not_not.mp hu,
      not_not.mp hsigned, hrole.mp hi, ?_⟩
    cases hstatus : trade.status <;> simp [hstatus] at h ⊢
  · intro h
    rw [if_neg (by rw [indexesIncreasing_iff.mpr h.ordered]; decide), if_neg (not_not.mpr h.u),
      if_neg (not_not.mpr h.signed), if_neg (hrole.mpr h.iAddress)]
    have hwaiting := h.waiting
    cases hstatus : trade.status <;> simp [hstatus] at hwaiting ⊢

/-- The indexes are ranges: at least one, and none without an end. -/
structure HasRanges (c : Commit) : Prop where
  even : Even c.indexes.length
  nonempty : 2 ≤ c.indexes.length

/-- The type of commit, and its receiver, that a stage of the trade waits for. -/
def FitsStage (c : Commit) (selfAddress : Address) : TradeStatus → Prop
  | .waitingRT1Commit => c.cType = .t1
  | .waitingPT1Commit => c.cType = .t1
  | .waitingRT2Commit => c.cType = .t2 ∧ c.rAddress = selfAddress
  | _ => True

/-- A commit that is worth something to the node at this stage of the trade. -/
structure Sound (env : Env Hash) (c : Commit) (trade : Trade) (ownerAddress selfAddress : Address) :
    Prop where
  ranges : c.HasRanges
  ordered : ∀ i j (hij : i < j) (hj : j < c.indexes.length), c.indexes[i] ≤ c.indexes[j]
  u : c.u = trade.id
  signed : c.signingAddress env = some ownerAddress
  iAddress : c.iAddress = if trade.isRequester then selfAddress else ownerAddress
  kind : c.FitsStage selfAddress trade.status

/-- A valid commit is sound exactly if it has ranges and fits the stage: what passes the checks has
every other part of soundness. -/
theorem commit_valid_sound_iff (env : Env Hash) (c : Commit) (trade : Trade)
    (ownerAddress selfAddress : Address) :
    (c.isCommitValid env trade ownerAddress selfAddress = true →
        c.Sound env trade ownerAddress selfAddress) ↔
      (c.Checked env trade ownerAddress selfAddress →
        c.HasRanges ∧ c.FitsStage selfAddress trade.status) := by
  rw [isCommitValid_iff]
  constructor
  · intro h hchecked
    exact ⟨(h hchecked).ranges, (h hchecked).kind⟩
  · intro h hchecked
    obtain ⟨hranges, hkind⟩ := h hchecked
    have hordered := List.pairwise_iff_getElem.mp hchecked.ordered
    exact ⟨hranges, fun i j hij hj => hordered i j (hij.trans hj) hj hij, hchecked.u,
      hchecked.signed, hchecked.iAddress, hkind⟩

/-- A commit without any index passes, and a type 1 commit where one of type 2 is due. -/
theorem not_commit_valid_sound :
    (¬ ∀ (c : Commit) (trade : Trade) (ownerAddress selfAddress : Address),
      c.isCommitValid plainEnv trade ownerAddress selfAddress = true →
        c.Sound plainEnv trade ownerAddress selfAddress) ∧
    ¬ ∀ (c : Commit) (trade : Trade) (ownerAddress selfAddress : Address), c.HasRanges →
      c.isCommitValid plainEnv trade ownerAddress selfAddress = true →
        c.FitsStage selfAddress trade.status := by
  constructor
  · intro h
    have hvalid : ({ plainCommit 6 with indexes := [] } : Commit).isCommitValid plainEnv
        (plainTrade .waitingRT1Commit false) 7 9 = true := by decide +kernel
    exact absurd (h _ _ _ _ hvalid).ranges.nonempty (by decide)
  · intro h
    have hvalid : (plainCommit 6).isCommitValid plainEnv
        (plainTrade .waitingRT2Commit false) 7 9 = true := by decide +kernel
    exact absurd (h _ _ _ _ ⟨by decide, by decide⟩ hvalid).1 (by decide)

end Commit

end Dse
