import Dse.Wallet.Proofs.WindowProofs

/-!
# The check of a commit range

`isValidCommitRange` divides the spendable half of the reserves by the value of an index and compares
the quotient with the end of the range, from the wrong side. Both sides agree at the quotient itself
and nowhere else.
-/

namespace Dse

namespace World

variable {Hash : Type}

/-- The range is not empty, and the wallet is in the epoch. -/
structure RangeInEpoch (w : World Hash) (timestamp sIndex eIndex epoch : U256) : Prop where
  pos : 0 < sIndex
  lt : sIndex < eIndex
  epoch : epoch = w.wallet.currentEpoch
  running : timestamp < w.wallet.epochExpiresBy

/-- The last index that the spendable half of the reserves backs. -/
def lastBacked (w : World Hash) : ℕ := w.wallet.reserves.toNat / (2 * w.wallet.indexValue.toNat)

variable {w : World Hash} {timestamp sIndex eIndex epoch : U256}

/-- What the check answers when the value of an index is neither zero nor too large to double. -/
theorem isValidCommitRange_eq_true (hpos : 0 < w.wallet.indexValue)
    (hfits : 2 * w.wallet.indexValue.toNat < 2 ^ 256) :
    w.isValidCommitRange timestamp sIndex eIndex epoch = some true ↔
      w.RangeInEpoch timestamp sIndex eIndex epoch ∧ w.lastBacked ≤ eIndex.toNat := by
  have htwo : (2 : U256).toNat = 2 := rfl
  obtain ⟨double, hdouble⟩ := Word.exists_toNat.mpr hfits
  have hmul : Word.mul? 2 w.wallet.indexValue = some double := by
    rw [Word.mul?_eq_some, htwo]
    exact hdouble
  have hne : double ≠ 0 := by
    rintro rfl
    rw [BitVec.lt_def] at hpos
    simp only [BitVec.ofNat_eq_ofNat, BitVec.toNat_zero] at hpos hdouble
    omega
  have hdiv : Word.div? w.wallet.reserves double = some (w.wallet.reserves / double) :=
    Word.div?_eq_some.mpr ⟨hne, (BitVec.toNat_udiv ..).symm⟩
  have hlast : (w.wallet.reserves / double).toNat = w.lastBacked := by
    rw [lastBacked, hdouble]
    exact BitVec.toNat_udiv ..
  unfold isValidCommitRange
  constructor
  · intro h
    split at h
    · cases h
    rename_i hzero
    split at h
    · cases h
    rename_i hle
    split at h
    · cases h
    rename_i hepoch
    obtain ⟨hcurrent, hexpires⟩ := not_or.mp hepoch
    simp only [hmul, hdiv, Option.bind_eq_bind, Option.bind_some, Option.some.injEq,
      decide_eq_true_eq] at h
    refine ⟨⟨?_, BitVec.not_le.mp hle, not_not.mp hcurrent, BitVec.not_le.mp hexpires⟩, ?_⟩
    · exact Word.lt_of_le_of_ne (Word.zero_le sIndex) (Ne.symm hzero)
    · rw [← hlast]
      exact BitVec.le_def.mp h
  · rintro ⟨hrange, hle⟩
    have hzero : sIndex ≠ 0 := by
      rintro rfl
      exact absurd hrange.pos (by decide)
    rw [if_neg hzero, if_neg (BitVec.not_le.mpr hrange.lt),
      if_neg (not_or.mpr ⟨not_not.mpr hrange.epoch, BitVec.not_le.mpr hrange.running⟩), hmul]
    simp only [hdiv, Option.bind_eq_bind, Option.bind_some, Option.some.injEq, decide_eq_true_eq]
    rw [BitVec.le_def, hlast]
    exact hle

/-- Dividing before comparing is exact. -/
theorem le_lastBacked_iff (hpos : 0 < w.wallet.indexValue) (n : ℕ) :
    n ≤ w.lastBacked ↔ 2 * w.wallet.indexValue.toNat * n ≤ w.wallet.reserves.toNat := by
  have hvalue : 0 < 2 * w.wallet.indexValue.toNat := by
    rw [BitVec.lt_def] at hpos
    simp only [BitVec.ofNat_eq_ofNat, BitVec.toNat_zero] at hpos
    omega
  rw [lastBacked, Nat.le_div_iff_mul_le hvalue, Nat.mul_comm n]

/-- In every state, the check is exact for a range exactly if the range is refused anyway, or ends at
the last index that is backed. -/
theorem commit_range_exact_iff (w : World Hash) (timestamp sIndex eIndex epoch : U256)
    (hpos : 0 < w.wallet.indexValue) (hfits : 2 * w.wallet.indexValue.toNat < 2 ^ 256) :
    (w.isValidCommitRange timestamp sIndex eIndex epoch = some true ↔
        w.RangeInEpoch timestamp sIndex eIndex epoch ∧
          2 * w.wallet.indexValue.toNat * eIndex.toNat ≤ w.wallet.reserves.toNat) ↔
      (w.RangeInEpoch timestamp sIndex eIndex epoch → eIndex.toNat = w.lastBacked) := by
  rw [isValidCommitRange_eq_true hpos hfits, ← le_lastBacked_iff hpos]
  constructor
  · intro h hrange
    rcases Nat.le_total w.lastBacked eIndex.toNat with hle | hle
    · exact Nat.le_antisymm (h.mp ⟨hrange, hle⟩).2 hle
    · exact Nat.le_antisymm hle (h.mpr ⟨hrange, hle⟩).2
  · intro h
    refine and_congr_right fun hrange => ?_
    rw [h hrange]

/-- The wallet of `plainWorld` backs 16 indexes. -/
theorem commit_range_exact_iff_epochWorld :
    ((epochWorld 1650000000).isValidCommitRange 1650000010 1 16 1 = some true ↔
        (epochWorld 1650000000).RangeInEpoch 1650000010 1 16 1 ∧ 2 * 30 * 16 ≤ 1000) ↔
      ((epochWorld 1650000000).RangeInEpoch 1650000010 1 16 1 → 16 = 16) :=
  commit_range_exact_iff (epochWorld 1650000000) 1650000010 1 16 1 (by decide +kernel)
    (by decide +kernel)

/-- The check refuses the indexes 1 to 5, which are backed, and accepts 1 to 17, which are not. -/
theorem not_commit_range_exact_epochWorld :
    (¬ ∀ timestamp sIndex eIndex epoch : U256,
      (epochWorld 1650000000).isValidCommitRange timestamp sIndex eIndex epoch = some true ↔
        (epochWorld 1650000000).RangeInEpoch timestamp sIndex eIndex epoch ∧
          2 * (epochWorld 1650000000).wallet.indexValue.toNat * eIndex.toNat ≤
            (epochWorld 1650000000).wallet.reserves.toNat) ∧
      (epochWorld 1650000000).isValidCommitRange 1650000010 1 17 1 = some true ∧
      (epochWorld 1650000000).lastBacked < 17 := by
  refine ⟨fun h => ?_, by decide +kernel, by decide +kernel⟩
  have hrefused : (epochWorld 1650000000).isValidCommitRange 1650000010 1 5 1 = some false := by
    decide +kernel
  have hrange : (epochWorld 1650000000).RangeInEpoch 1650000010 1 5 1 :=
    ⟨by decide, by decide, by decide +kernel, by decide +kernel⟩
  have haccepted := (h 1650000010 1 5 1).mpr ⟨hrange, by decide +kernel⟩
  rw [hrefused] at haccepted
  cases haccepted

end World

end Dse
