import Dse.Wallet.Proofs.RangeProofs

/-!
# The epoch through a run

Only `startEpoch` and `withdraw` write what a wallet has on record about its epoch, and until the
epoch has expired only `withdraw` gets that far: it leaves the epoch as it is and sets its reserves
to zero. Since `isValidCommitRange` compares the quotient of the reserves from the wrong side, a range
that it has accepted is accepted until the epoch expires, even when the reserves are withdrawn.
-/

namespace Dse

variable {Hash : Type} [DecidableEq Hash] [Inhabited Hash] {evm : Evm Hash} {w w' w₀ : World Hash}

/-- The epoch on record is the same in both states. -/
structure SameEpoch (w w' : World Hash) : Prop where
  epoch : w'.wallet.currentEpoch = w.wallet.currentEpoch
  expires : w'.wallet.epochExpiresBy = w.wallet.epochExpiresBy
  reserves : w'.wallet.reserves = w.wallet.reserves

/-- Only the two calls that burn write it. -/
theorem exec_sameEpoch {tx : Tx Hash} (h : w.exec evm tx = some w')
    (hstart : tx.call ≠ .startEpoch) (hwithdraw : tx.call ≠ .withdraw) : SameEpoch w w' := by
  obtain ⟨sender, t, call⟩ := tx
  cases call with
  | startEpoch => exact absurd rfl hstart
  | withdraw => exact absurd rfl hwithdraw
  | redeemdType2 data =>
    obtain ⟨total, hl, -⟩ := World.redeemdType2_loop h
    have hframe : w'.wallet = { w.wallet with claimed := w'.wallet.claimed } :=
      (redeemLoop_spec hl).frame
    constructor
    · rw [hframe]
    · rw [hframe]
    · rw [hframe]
  | burnCommits data =>
    obtain ⟨-, wal, total, hl, -, hw'⟩ := World.burnCommits_spec h
    obtain ⟨-, hepoch, hexpires, hreserves, -⟩ :=
      eq_of_buffers w.wallet wal (burnLoop_spec hl).frame
    rw [hw']
    exact ⟨hepoch, hexpires, hreserves⟩
  | challengeBurnCommits commitHash v r s =>
    obtain ⟨-, wal, total, hl, -, hw'⟩ := World.challengeBurnCommits_spec h
    obtain ⟨-, hepoch, hexpires, hreserves, -⟩ :=
      eq_of_buffers w.wallet wal (challengeLoop_spec hl).frame
    rw [hw']
    exact ⟨hepoch, hexpires, hreserves⟩
  | transfer recipient amount =>
    have hw' : w' = { w with balances := w'.balances } := World.deposit_frame h
    rw [hw']
    exact ⟨rfl, rfl, rfl⟩

/-- Where the epoch of `w₀` stands in `w`. -/
inductive EpochSince (w₀ w : World Hash) : Prop
  | runs (epoch : w.wallet.currentEpoch = w₀.wallet.currentEpoch)
      (expires : w.wallet.epochExpiresBy = w₀.wallet.epochExpiresBy)
      (reserves : w.wallet.reserves = w₀.wallet.reserves ∨ w.wallet.reserves = 0)
  | ended (epoch : w₀.wallet.currentEpoch < w.wallet.currentEpoch)
      (expired : w₀.wallet.epochExpiresBy ≤ w.now)

namespace EpochSince

omit [DecidableEq Hash] [Inhabited Hash] in
theorem of_sameEpoch (h : EpochSince w₀ w) (hs : SameEpoch w w') (ht : w.now ≤ w'.now) :
    EpochSince w₀ w' := by
  cases h with
  | runs epoch expires reserves =>
    refine .runs (hs.epoch.trans epoch) (hs.expires.trans expires) ?_
    rw [hs.reserves]
    exact reserves
  | ended epoch expired =>
    refine .ended ?_ (BitVec.le_trans expired ht)
    rw [hs.epoch]
    exact epoch

/-- A transaction ends the epoch only once it has expired. -/
theorem step (h : EpochSince w₀ w) {tx : Tx Hash} (ht : w.now ≤ tx.timestamp) :
    EpochSince w₀ (w.step evm tx) := by
  cases hs : w.exec evm tx with
  | none =>
    rw [World.step_of_none hs]
    exact h.of_sameEpoch ⟨rfl, rfl, rfl⟩ ht
  | some w' =>
    rw [World.step_of_some hs]
    by_cases hstart : tx.call = .startEpoch
    · simp only [World.exec, hstart] at hs
      obtain ⟨hexpired, hnext, -, -, -⟩ := World.startEpoch_spec hs
      have hlater : w.wallet.currentEpoch < w'.wallet.currentEpoch := by
        rw [BitVec.lt_def]
        omega
      cases h with
      | runs epoch expires reserves =>
        refine .ended ?_ ?_
        · rw [← epoch]
          exact hlater
        · rw [← expires]
          exact hexpired
      | ended epoch expired =>
        exact .ended (BitVec.lt_trans epoch hlater) (BitVec.le_trans expired ht)
    · by_cases hwithdraw : tx.call = .withdraw
      · simp only [World.exec, hwithdraw] at hs
        obtain ⟨-, -, hw'⟩ := World.withdraw_spec hs
        rw [hw']
        cases h with
        | runs epoch expires reserves => exact .runs epoch expires (.inr rfl)
        | ended epoch expired => exact .ended epoch (BitVec.le_trans expired ht)
      · obtain ⟨hepoch, hexpires, hreserves⟩ := exec_sameEpoch hs hstart hwithdraw
        exact h.of_sameEpoch ⟨hepoch, hexpires, hreserves⟩ ht

theorem run {txs : List (Tx Hash)} (hchron : w.Chronological evm txs) :
    EpochSince w (w.run evm txs) := by
  have hstep : ∀ (w' : World Hash) (tx : Tx Hash), EpochSince w w' → w'.now ≤ tx.timestamp →
      EpochSince w (w'.step evm tx) := fun _ _ h ht => h.step ht
  exact Run.final_inv hstep (.runs rfl rfl (.inl rfl)) hchron

end EpochSince

theorem run_same (evm : Evm Hash) (w : World Hash) (txs : List (Tx Hash)) :
    World.SameContract w (w.run evm txs) := by
  have hstep : ∀ (w' : World Hash) (tx : Tx Hash), World.SameContract w w' → True →
      World.SameContract w (w'.step evm tx) := fun w' tx h _ => h.trans (World.step_same w' tx)
  exact Run.final_inv hstep ⟨rfl, rfl, rfl, rfl, rfl, rfl⟩ (Run.always_trivial w txs)

/-- A range that the check has accepted is accepted, whatever is called in between, as long as the
epoch has not expired and no longer: also when the reserves that were to back it are withdrawn. -/
theorem valid_range_stays (hpos : 0 < w.wallet.indexValue)
    (hfits : 2 * w.wallet.indexValue.toNat < 2 ^ 256) {t₀ sIndex eIndex epoch : U256}
    (hvalid : w.isValidCommitRange t₀ sIndex eIndex epoch = some true) {txs : List (Tx Hash)}
    (hchron : w.Chronological evm txs) {t : U256} (ht : (w.run evm txs).now ≤ t) :
    (w.run evm txs).isValidCommitRange t sIndex eIndex epoch = some true ↔
      t < w.wallet.epochExpiresBy := by
  obtain ⟨hrange, hle⟩ := (World.isValidCommitRange_eq_true hpos hfits).mp hvalid
  have hvalue : (w.run evm txs).wallet.indexValue = w.wallet.indexValue :=
    (run_same evm w txs).indexValue
  rw [World.isValidCommitRange_eq_true (by rw [hvalue]; exact hpos) (by rw [hvalue]; exact hfits)]
  cases EpochSince.run hchron with
  | runs hepoch hexpires hreserves =>
    have hlast : (w.run evm txs).lastBacked ≤ eIndex.toNat := by
      unfold World.lastBacked
      rw [hvalue]
      rcases hreserves with hsame | hzero
      · rw [hsame]
        exact hle
      · -- no reserves back no index, so every range ends behind the last one that is backed
        rw [hzero]
        exact (Nat.zero_div _).le.trans (Nat.zero_le _)
    constructor
    · rintro ⟨hin, -⟩
      have hrunning := hin.running
      rw [hexpires] at hrunning
      exact hrunning
    · intro hlt
      refine ⟨⟨hrange.pos, hrange.lt, hrange.epoch.trans hepoch.symm, ?_⟩, hlast⟩
      rw [hexpires]
      exact hlt
  | ended hepoch hexpired =>
    constructor
    · rintro ⟨hin, -⟩
      rw [← hin.epoch, hrange.epoch] at hepoch
      exact absurd hepoch (BitVec.lt_irrefl _)
    · intro hlt
      exact absurd hlt (BitVec.not_lt.mpr (BitVec.le_trans hexpired ht))

/-- The owner of the wallet of `plainWorld` takes the reserves back, and the range from 1 to 17 is
still reported as backed. -/
theorem valid_range_stays_epochWorld :
    ((epochWorld 1650000000).run plainEvm [⟨7, 1650000010, .withdraw⟩]).isValidCommitRange
        1650000020 1 17 1 = some true ↔
      1650000020 < (epochWorld 1650000000).wallet.epochExpiresBy :=
  @valid_range_stays _ _ _ plainEvm (epochWorld 1650000000) (by decide +kernel) (by decide +kernel)
    1650000005 1 17 1 (by decide +kernel) [⟨7, 1650000010, .withdraw⟩] (by decide +kernel)
    1650000020 (by decide +kernel)

end Dse
