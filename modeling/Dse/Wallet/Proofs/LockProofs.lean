import Dse.Wallet.Proofs.TxProofs

/-!
# The lock on the security deposit

While an epoch is running only `redeemdType2` may take tokens out of the wallet (`Locked`). The
guard of `startEpoch` is the epoch's expiry, so it holds the lock. The guard of `withdraw` is the
epoch's duration: a withdrawal by the owner passes it at every time from `epochDuration` on, and
these early withdrawals are exactly the steps that break the lock (`locked_iff`).
-/

namespace Dse

variable {Hash : Type} [DecidableEq Hash] [Inhabited Hash] (evm : Evm Hash)

/-- The epoch of the wallet is running at `t`. -/
def World.Running (w : World Hash) (t : U256) : Prop :=
  1 ≤ w.wallet.currentEpoch ∧ t < w.wallet.epochExpiresBy

/-- What the lock promises about a transaction while an epoch is running. -/
structure Locked (w : World Hash) (tx : Tx Hash) : Prop where
  /-- The balance only falls by what `redeemdType2` pays out. -/
  balance : w.getBalance.toNat ≤ (w.step evm tx).getBalance.toNat + w.payout evm tx
  withdraw : tx.call = .withdraw → w.exec evm tx = none
  /-- `startEpoch` is the only other call that burns. -/
  startEpoch : tx.call = .startEpoch → w.exec evm tx = none

/-- The ledger after the pending amount is burned. -/
def World.burnedBalances (w : World Hash) : Ledger :=
  if w.wallet.pendingBurnAmount = 0 then w.balances
  else w.balances.move w.this 0 w.wallet.pendingBurnAmount

/-- The currency carries out the two transfers of a withdrawal. -/
def World.WithdrawCovered (w : World Hash) : Prop :=
  (w.wallet.pendingBurnAmount = 0 ∨
      w.balances.standardTransfer w.this 0 w.wallet.pendingBurnAmount = .moved) ∧
    w.burnedBalances.standardTransfer w.this w.wallet.owner (w.burnedBalances w.this) = .moved

/-- The owner withdraws at a time that the epoch's duration, but not its expiry, lets pass. -/
structure EarlyWithdraw (w : World Hash) (tx : Tx Hash) : Prop where
  call : tx.call = .withdraw
  sender : tx.sender = w.wallet.owner
  early : w.wallet.epochDuration ≤ tx.timestamp
  covered : w.WithdrawCovered

variable {evm} {w w' : World Hash} {tx : Tx Hash}

section Ledger

variable {amount : U256} {recipient : Address}

/-- A payment costs the wallet its amount, or nothing when it pays itself. -/
theorem balance_move_le {balances : Ledger} {this : Address}
    (hm : balances.standardTransfer this recipient amount = .moved) :
    (balances this).toNat ≤ (balances.move this recipient amount this).toNat + amount.toNat := by
  obtain ⟨hle, -⟩ := Ledger.standardTransfer_eq_moved.mp hm
  by_cases hr : recipient = this
  · subst hr
    rw [Ledger.move_self]
    omega
  · rw [Ledger.move_sender hle hr]
    omega

end Ledger

omit [DecidableEq Hash] [Inhabited Hash] in
theorem burnPendingAmount_eq_some (hstd : evm.transfer = Ledger.standardTransfer) :
    w.burnPendingAmount evm = some w' ↔
      (w.wallet.pendingBurnAmount = 0 ∨
        w.balances.standardTransfer w.this 0 w.wallet.pendingBurnAmount = .moved) ∧
      w' = { w with
        balances := w.burnedBalances
        wallet := { w.wallet with pendingBurnAmount := 0 } } := by
  unfold World.burnPendingAmount World.burnedBalances
  by_cases hp : w.wallet.pendingBurnAmount = 0
  · simp only [hp, ne_eq, not_true, if_false, if_true, true_or, true_and, Option.some.injEq]
    rw [← hp]
    exact eq_comm
  · simp only [hp, ne_eq, not_false_eq_true, if_true, if_false, false_or]
    constructor
    · intro h
      obtain ⟨w1, h1, h2⟩ := Option.bind_eq_some_iff.mp h
      obtain ⟨hm, rfl⟩ := (World.transfer_eq_some hstd).mp h1
      exact ⟨hm, (Option.some.inj h2).symm⟩
    · rintro ⟨hm, rfl⟩
      rw [(World.transfer_eq_some hstd).mpr ⟨hm, rfl⟩]
      rfl

omit [DecidableEq Hash] [Inhabited Hash] in
/-- When `withdraw` succeeds. -/
theorem withdraw_isSome (hstd : evm.transfer = Ledger.standardTransfer) {sender : Address}
    {t : U256} : (w.withdraw evm sender t).isSome ↔
      sender = w.wallet.owner ∧ w.wallet.epochDuration ≤ t ∧ w.WithdrawCovered := by
  simp only [Option.isSome_iff_exists, World.withdraw_eq_some, burnPendingAmount_eq_some hstd,
    World.safeTransfer_eq_some hstd, World.WithdrawCovered]
  constructor
  · rintro ⟨w', hs, ht, w₁, ⟨hb, rfl⟩, w₂, ⟨hm, rfl⟩, rfl⟩
    exact ⟨hs, ht, hb, hs ▸ hm⟩
  · rintro ⟨rfl, ht, hb, hm⟩
    exact ⟨_, rfl, ht, _, ⟨hb, rfl⟩, _, ⟨hm, rfl⟩, rfl⟩

/-- Apart from the calls that burn, only a redemption lowers the balance. -/
theorem exec_balance_le (hstd : evm.transfer = Ledger.standardTransfer)
    (h : w.exec evm tx = some w') (hw : tx.call ≠ .withdraw) (hs : tx.call ≠ .startEpoch) :
    w.getBalance.toNat ≤ w'.getBalance.toNat + w.payout evm tx := by
  obtain ⟨sender, t, call⟩ := tx
  cases call with
  | startEpoch => exact absurd rfl hs
  | withdraw => exact absurd rfl hw
  | redeemdType2 data =>
    obtain ⟨total, hl, hm, hw'⟩ := World.redeemdType2_spec hstd h
    have hpay : w.payout evm ⟨sender, t, .redeemdType2 data⟩ = total.toNat := by
      simp only [World.payout, hl, hstd, hm, if_true]
    rw [hpay, hw']
    exact balance_move_le hm
  | burnCommits data =>
    obtain ⟨-, wal, total, -, -, hw'⟩ := World.burnCommits_spec h
    rw [hw']
    exact Nat.le_add_right _ _
  | challengeBurnCommits commitHash v r s =>
    obtain ⟨-, wal, total, -, -, hw'⟩ := World.challengeBurnCommits_spec h
    rw [hw']
    exact Nat.le_add_right _ _
  | transfer recipient amount =>
    obtain ⟨hne, hm, hw'⟩ := World.deposit_spec hstd h
    have hle := BitVec.le_def.mp (Ledger.le_move_of_ne hm hne.symm)
    rw [hw']
    exact hle.trans (Nat.le_add_right _ _)

/-! ## The lock -/

/-- A step of a running epoch keeps the lock exactly when it is no early withdrawal. -/
theorem locked_iff (hstd : evm.transfer = Ledger.standardTransfer)
    (hrun : w.Running tx.timestamp) : Locked evm w tx ↔ ¬ EarlyWithdraw w tx := by
  have hwithdraw : tx.call = .withdraw → (w.exec evm tx).isSome → EarlyWithdraw w tx := by
    intro hc hs
    have he : w.exec evm tx = w.withdraw evm tx.sender tx.timestamp := by
      simp only [World.exec, hc]
    obtain ⟨h1, h2, h3⟩ := (withdraw_isSome hstd).mp (he ▸ hs)
    exact ⟨hc, h1, h2, h3⟩
  constructor
  · rintro hl ⟨hc, h1, h2, h3⟩
    have hs := (withdraw_isSome hstd).mpr ⟨h1, h2, h3⟩
    have hn := hl.withdraw hc
    simp only [World.exec, hc] at hn
    rw [hn] at hs
    cases hs
  · intro hne
    have hw : tx.call = .withdraw → w.exec evm tx = none := by
      intro hc
      by_contra hs
      exact hne (hwithdraw hc (Option.isSome_iff_ne_none.mpr hs))
    have hs : tx.call = .startEpoch → w.exec evm tx = none := by
      intro hc
      by_contra hs
      obtain ⟨w', hs⟩ := Option.ne_none_iff_exists'.mp hs
      simp only [World.exec, hc] at hs
      obtain ⟨hexp, -⟩ := World.startEpoch_spec hs
      exact BitVec.not_lt.mpr hexp hrun.2
    refine ⟨?_, hw, hs⟩
    cases he : w.exec evm tx with
    | none =>
      rw [World.step_of_none he]
      exact Nat.le_add_right _ _
    | some w' =>
      rw [World.step_of_some he]
      have hcw : tx.call ≠ .withdraw := fun hc => nomatch he.symm.trans (hw hc)
      have hcs : tx.call ≠ .startEpoch := fun hc => nomatch he.symm.trans (hs hc)
      exact (exec_balance_le hstd he hcw hcs :)

/-- In every run the lock is kept by every step of a running epoch exactly when none of these steps
is an early withdrawal. -/
theorem deposit_locked_iff (hstd : evm.transfer = Ledger.standardTransfer) (w : World Hash)
    (txs : List (Tx Hash)) :
    Run.Always (World.step evm) (fun w tx => w.Running tx.timestamp → Locked evm w tx) w txs ↔
      Run.Always (World.step evm) (fun w tx => w.Running tx.timestamp → ¬ EarlyWithdraw w tx)
        w txs :=
  Run.always_congr fun _ _ => forall_congr' fun hrun => locked_iff hstd hrun

/-- An epoch with a redemption, and a withdrawal when it is over. -/
def lateWithdrawTxs : List (Tx (List UInt8)) :=
  [⟨3, 1650000000, .startEpoch⟩,
    ⟨3, 1650000010, .redeemdType2 (redeemCalldata 5 [⟨3, 3, plainSignature 7, plainSignature 7⟩])⟩,
    ⟨7, 1650604800, .withdraw⟩]

theorem deposit_locked_iff_lateWithdrawTxs :
    Run.Always (World.step plainEvm) (fun w tx => w.Running tx.timestamp → Locked plainEvm w tx)
      plainWorld lateWithdrawTxs := by
  refine (deposit_locked_iff rfl plainWorld lateWithdrawTxs).mpr ⟨?_, ?_, ?_, trivial⟩
  · exact fun _ h => nomatch h.call
  · exact fun _ h => nomatch h.call
  · exact fun hrun => absurd hrun.2 (by decide +kernel)

/-- A withdrawal ten seconds into an epoch. -/
def earlyWithdrawTxs : List (Tx (List UInt8)) :=
  [⟨3, 1650000000, .startEpoch⟩, ⟨7, 1650000010, .withdraw⟩]

/-- The withdrawal takes out the whole deposit during the epoch. -/
theorem deposit_not_locked_earlyWithdrawTxs :
    ¬ Run.Always (World.step plainEvm)
      (fun w tx => w.Running tx.timestamp → Locked plainEvm w tx) plainWorld earlyWithdrawTxs := by
  rintro ⟨-, h, -⟩
  have hrun : (plainWorld.step plainEvm ⟨3, 1650000000, .startEpoch⟩).Running 1650000010 := by
    constructor
    · decide +kernel
    · decide +kernel
  have hsome : ((plainWorld.step plainEvm ⟨3, 1650000000, .startEpoch⟩).exec plainEvm
      ⟨7, 1650000010, .withdraw⟩).isSome := by decide +kernel
  rw [(h hrun).withdraw rfl] at hsome
  cases hsome

end Dse
