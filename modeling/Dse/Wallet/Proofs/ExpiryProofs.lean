import Dse.Wallet.Proofs.LockProofs

/-!
# Expiry of commitments

A commitment is for one epoch and should be worth nothing once that epoch is over
(`RedeemsLive`). The number of an epoch is part of what the owner signs, but the epoch's expiry is
only looked at by `startEpoch` and `burnCommits`: `redeemdType2` does not read the clock. A batch
for the number that the wallet currently has therefore goes through before the first epoch begins,
and after an epoch is over for as long as nobody starts the next one. These batches are exactly the
ones that break the law (`redeemsLive_iff`).
-/

namespace Dse

variable {Hash : Type} [DecidableEq Hash] [Inhabited Hash] (evm : Evm Hash)

/-- A batch with records is only redeemed while an epoch is running. -/
def RedeemsLive (w : World Hash) (tx : Tx Hash) : Prop :=
  ∀ data, tx.call = .redeemdType2 data → redeemRecords data ≠ [] → (w.exec evm tx).isSome →
    w.Running tx.timestamp

/-- Outside a running epoch, a batch of unsettled indices comes in, all of its records signed by the
owner for the current number, and the currency does not revert on its transfer. -/
structure StaleBatch (w : World Hash) (t : U256) (data : List UInt8) : Prop where
  nonempty : redeemRecords data ≠ []
  accepted : Redeemable evm (toAddressOf data) (w.wallet, 0) (redeemRecords data)
  covered : evm.transfer w.balances w.this (toAddressOf data)
    (.ofNat 256 ((redeemRecords data).length * w.wallet.indexValue.toNat)) ≠ .reverted
  idle : w.wallet.currentEpoch = 0 ∨ w.wallet.epochExpiresBy ≤ t

/-- The transaction redeems a stale batch. -/
def StaleRedeem (w : World Hash) (tx : Tx Hash) : Prop :=
  ∃ data, tx.call = .redeemdType2 data ∧ StaleBatch evm w tx.timestamp data

variable {evm} {w : World Hash}

omit [DecidableEq Hash] [Inhabited Hash] in
/-- No epoch is running before the first one, and after the current one is over. -/
theorem World.not_running_iff {t : U256} :
    ¬ w.Running t ↔ w.wallet.currentEpoch = 0 ∨ w.wallet.epochExpiresBy ≤ t := by
  unfold World.Running
  rw [not_and_or, BitVec.not_lt]
  refine or_congr_left ?_
  constructor
  · intro h
    by_contra hne
    have hpos : w.wallet.currentEpoch.toNat ≠ 0 := fun hz => hne (BitVec.eq_of_toNat_eq hz)
    refine h (BitVec.le_def.mpr ?_)
    change 1 ≤ w.wallet.currentEpoch.toNat
    omega
  · intro h hle
    rw [h] at hle
    exact absurd hle (by decide)

/-- A transaction redeems within a running epoch exactly when it redeems no stale batch. -/
theorem redeemsLive_iff {tx : Tx Hash} : RedeemsLive evm w tx ↔ ¬ StaleRedeem evm w tx := by
  have hexec : ∀ data, tx.call = .redeemdType2 data → w.exec evm tx = w.redeemdType2 evm data := by
    intro data hcall
    simp only [World.exec, hcall]
  constructor
  · intro hlive hstale
    obtain ⟨data, hcall, hbatch⟩ := hstale
    have hsome : (w.exec evm tx).isSome := by
      rw [hexec data hcall]
      exact World.redeemdType2_isSome.mpr ⟨hbatch.accepted, hbatch.covered⟩
    have hrun := hlive data hcall hbatch.nonempty hsome
    exact World.not_running_iff.mpr hbatch.idle hrun
  · intro hstale data hcall hne hsome
    by_contra hrun
    rw [hexec data hcall] at hsome
    obtain ⟨haccepted, hcovered⟩ := World.redeemdType2_isSome.mp hsome
    exact hstale ⟨data, hcall, hne, haccepted, hcovered, World.not_running_iff.mp hrun⟩

/-- In every run, from any state of the wallet, commitments expire with their epoch exactly when no
stale batch is redeemed. -/
theorem commitments_expire_iff (w : World Hash) (txs : List (Tx Hash)) :
    Run.Always (World.step evm) (RedeemsLive evm) w txs ↔
      Run.Always (World.step evm) (fun w tx => ¬ StaleRedeem evm w tx) w txs :=
  Run.always_congr fun _ _ => redeemsLive_iff

/-- The first epoch is over for a year, nobody has started the second one, and a commitment of the
first is redeemed. -/
def lateRedeemTxs : List (Tx (List UInt8)) :=
  [⟨3, 1650000000, .startEpoch⟩,
    ⟨3, 1681536000, .redeemdType2 (redeemCalldata 5 [⟨3, 3, plainSignature 7, plainSignature 7⟩])⟩]

/-- The redemption goes through, although the epoch ended after a week. -/
theorem not_commitments_expire_lateRedeemTxs :
    ¬ Run.Always (World.step plainEvm) (RedeemsLive plainEvm) plainWorld lateRedeemTxs := by
  rintro ⟨-, hlive, -⟩
  have hrun := hlive _ rfl (by decide +kernel) (by decide +kernel)
  exact absurd hrun.2 (by decide +kernel)

/-- Before the first epoch begins, commitments for epoch 0 are redeemed as well. -/
example : ¬ Run.Always (World.step plainEvm) (RedeemsLive plainEvm) plainWorld
    [⟨3, 1650000000,
      .redeemdType2 (redeemCalldata 5 [⟨3, 3, plainSignature 7, plainSignature 7⟩])⟩] := by
  rintro ⟨hlive, -⟩
  have hrun := hlive _ rfl (by decide +kernel) (by decide +kernel)
  exact absurd hrun.1 (by decide +kernel)

end Dse
