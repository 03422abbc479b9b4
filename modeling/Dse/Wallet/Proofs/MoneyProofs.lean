import Dse.Wallet.Proofs.TxProofs

/-!
# Whether the money moved

The wallet drops the flag that the currency's `transfer` returns, both when it pays a batch out and
when it burns the pending amount. A call that reverts leaves the books alone; one that goes through
over an answer of `false` has cleared a claim or a debt for which nothing moved.
-/

namespace Dse

namespace World

variable {Hash : Type} (evm : Evm Hash)

/-! ## Payments -/

/-- The currency answers `false` to a transfer of some tokens out of the wallet. -/
def Refuses (w : World Hash) (recipient : Address) (amount : U256) : Prop :=
  amount ≠ 0 ∧ evm.transfer w.balances w.this recipient amount = .refused

/-- Between `w` and `w'` the currency moved `amount` tokens, if any, out of the wallet to
`recipient`, and nothing else. -/
structure Pays (w w' : World Hash) (recipient : Address) (amount : U256) : Prop where
  moved : amount = 0 ∨ evm.transfer w.balances w.this recipient amount = .moved
  ledger : w'.balances = w.balances.move w.this recipient amount

/-- The pending amount is cleared, and all of it is paid to address 0. -/
structure PendingBurned (w w' : World Hash) : Prop where
  cleared : w'.wallet.pendingBurnAmount = 0
  burned : w.Pays evm w' 0 w.wallet.pendingBurnAmount

/-- Some open keys are marked as claimed, and `recipient` is paid one `indexValue` for each. -/
def ClaimedPaid (w w' : World Hash) (recipient : Address) : Prop :=
  ∃ (keys : List Hash) (amount : U256), keys.Nodup ∧
    (∀ k, w'.wallet.claimed k = true ↔ w.wallet.claimed k = true ∨ k ∈ keys) ∧
    (∀ k ∈ keys, w.wallet.claimed k = false) ∧
    amount.toNat = keys.length * w.wallet.indexValue.toNat ∧ w.Pays evm w' recipient amount

variable {evm} {w w' : World Hash} {recipient : Address} {amount : U256}

theorem Refuses.transfer (h : w.Refuses evm recipient amount) :
    w.transfer evm recipient amount = some w := by
  unfold World.transfer
  rw [h.2]

theorem Refuses.not_pays (h : w.Refuses evm recipient amount) :
    ¬ w.Pays evm w' recipient amount := by
  intro hpays
  rcases hpays.moved with hzero | hmoved
  · exact h.1 hzero
  · rw [h.2] at hmoved
    cases hmoved

/-- A transfer that goes through pays, unless the currency answered `false`. -/
theorem pays_of_transfer (h : w.transfer evm recipient amount = some w')
    (hanswer : ¬ w.Refuses evm recipient amount) : w.Pays evm w' recipient amount := by
  rcases transfer_pays h with ⟨hmoved, rfl⟩ | ⟨hrefused, rfl⟩
  · exact ⟨.inr hmoved, rfl⟩
  · have hzero : amount = 0 := by
      by_contra hne
      exact hanswer ⟨hne, hrefused⟩
    exact ⟨.inl hzero, by rw [hzero, Ledger.move_zero]⟩

theorem pendingBurned_of_burnPendingAmount (h : w.burnPendingAmount evm = some w')
    (hanswer : ¬ w.Refuses evm 0 w.wallet.pendingBurnAmount) : w.PendingBurned evm w' := by
  refine ⟨by rw [burnPendingAmount_spec h], ?_⟩
  unfold burnPendingAmount at h
  split at h
  · obtain ⟨w1, h1, h2⟩ := Option.bind_eq_some_iff.mp h
    obtain rfl := Option.some.inj h2
    have hpays := pays_of_transfer h1 hanswer
    exact ⟨hpays.moved, hpays.ledger⟩
  · rename_i hzero
    obtain rfl := Option.some.inj h
    rw [not_not] at hzero
    exact ⟨.inl hzero, by rw [hzero, Ledger.move_zero]⟩

/-- The pending amount is cleared over an answer of `false`. -/
theorem Refuses.burnPendingAmount (h : w.Refuses evm 0 w.wallet.pendingBurnAmount) :
    w.burnPendingAmount evm =
      some { w with wallet := { w.wallet with pendingBurnAmount := 0 } } := by
  unfold World.burnPendingAmount
  rw [if_pos h.1, h.transfer]
  rfl

/-! ## The entry points -/

/-- The checks of `startEpoch`, which know nothing of the currency. -/
structure CanStartEpoch (w : World Hash) (timestamp : U256) : Prop where
  expired : w.wallet.epochExpiresBy ≤ timestamp
  epoch : w.wallet.currentEpoch.toNat + 1 < 2 ^ 256
  expires : timestamp.toNat + w.wallet.epochDuration.toNat < 2 ^ 256

variable (evm) in
/-- The checks of `withdraw`, and the payment of the balance when nothing was burned before. -/
structure CanWithdraw (w : World Hash) (sender : Address) (timestamp : U256) : Prop where
  owner : sender = w.wallet.owner
  time : w.wallet.epochDuration ≤ timestamp
  paid : evm.transfer w.balances w.this sender w.getBalance = .moved

theorem startEpoch_burns_iff (timestamp : U256) :
    (∀ w', w.startEpoch evm timestamp = some w' → w.PendingBurned evm w') ↔
      ¬ (w.CanStartEpoch timestamp ∧ w.Refuses evm 0 w.wallet.pendingBurnAmount) := by
  constructor
  · rintro h ⟨hcan, hrefuses⟩
    obtain ⟨epoch, hepoch⟩ := Word.exists_toNat.mpr hcan.epoch
    obtain ⟨expires, hexpires⟩ := Word.exists_toNat.mpr hcan.expires
    have hstarts : w.startEpoch evm timestamp = some { w with wallet := { w.wallet with
        pendingBurnAmount := 0
        reserves := w.getBalance
        currentEpoch := epoch
        epochExpiresBy := expires } } := by
      exact startEpoch_eq_some.mpr ⟨hcan.expired, _, hrefuses.burnPendingAmount, epoch, expires,
        hepoch, hexpires, rfl⟩
    exact hrefuses.not_pays (h _ hstarts).burned
  · intro hanswer w' h
    obtain ⟨hexpired, hepoch, hexpires, -, -⟩ := startEpoch_spec h
    have hcan : w.CanStartEpoch timestamp :=
      ⟨hexpired, hepoch ▸ w'.wallet.currentEpoch.isLt, hexpires ▸ w'.wallet.epochExpiresBy.isLt⟩
    obtain ⟨-, w₁, h₁, epoch, expires, -, -, rfl⟩ := startEpoch_eq_some.mp h
    have hburned := pendingBurned_of_burnPendingAmount h₁ fun hrefuses => hanswer ⟨hcan, hrefuses⟩
    exact ⟨hburned.cleared, ⟨hburned.burned.moved, hburned.burned.ledger⟩⟩

/-- The owner is paid what the burning of the pending amount leaves. -/
def WithdrawBurns (evm : Evm Hash) (w w' : World Hash) (sender : Address) : Prop :=
  ∃ w₁, w.PendingBurned evm w₁ ∧ w'.wallet.pendingBurnAmount = 0 ∧
    w'.balances = w₁.balances.move w.this sender (w₁.balances w.this)

theorem withdraw_burns_iff (sender : Address) (timestamp : U256) :
    (∀ w', w.withdraw evm sender timestamp = some w' → w.WithdrawBurns evm w' sender) ↔
      ¬ (w.CanWithdraw evm sender timestamp ∧ w.Refuses evm 0 w.wallet.pendingBurnAmount) := by
  constructor
  · rintro h ⟨hcan, hrefuses⟩
    have hwithdraws : w.withdraw evm sender timestamp = some { w with
        balances := w.balances.move w.this sender w.getBalance
        wallet := { w.wallet with pendingBurnAmount := 0, reserves := 0 } } := by
      refine withdraw_eq_some.mpr ⟨hcan.owner, hcan.time, _, hrefuses.burnPendingAmount, { w with
        balances := w.balances.move w.this sender w.getBalance
        wallet := { w.wallet with pendingBurnAmount := 0 } }, ?_, rfl⟩
      have hpaid := hcan.paid
      simp only [safeTransfer, getBalance] at hpaid ⊢
      rw [hpaid]
    obtain ⟨w₁, hburned, -⟩ := h _ hwithdraws
    exact hrefuses.not_pays hburned.burned
  · intro hanswer w' h
    obtain ⟨howner, htime, w₁, h₁, w₂, h₂, rfl⟩ := withdraw_eq_some.mp h
    have hthis : w₁.this = w.this := by rw [burnPendingAmount_spec h₁]
    obtain ⟨hmoved, hw₂⟩ := safeTransfer_pays h₂
    have hburned : w.PendingBurned evm w₁ := by
      refine pendingBurned_of_burnPendingAmount h₁ fun hrefuses => hanswer ⟨⟨howner, htime, ?_⟩,
        hrefuses⟩
      -- the burning left the ledger alone, and the balance was paid from it
      obtain rfl := Option.some.inj (hrefuses.burnPendingAmount.symm.trans h₁)
      exact hmoved
    refine ⟨w₁, hburned, ?_, ?_⟩
    · rw [hw₂]
      exact hburned.cleared
    · rw [hw₂, getBalance, hthis]

variable [DecidableEq Hash]

/-- The worth of a batch. -/
def redeemWorth (w : World Hash) (data : List UInt8) : U256 :=
  .ofNat 256 ((redeemRecords data).length * w.wallet.indexValue.toNat)

omit [DecidableEq Hash] in
/-- How many keys were claimed between two states can be counted in only one way. -/
theorem claimed_length {claimed claimed' : Hash → Bool} {keys keys' : List Hash}
    (hnodup : keys.Nodup) (hnodup' : keys'.Nodup)
    (h : ∀ k, claimed' k = true ↔ claimed k = true ∨ k ∈ keys)
    (h' : ∀ k, claimed' k = true ↔ claimed k = true ∨ k ∈ keys')
    (hopen : ∀ k ∈ keys, claimed k = false) (hopen' : ∀ k ∈ keys', claimed k = false) :
    keys.length = keys'.length := by
  refine List.Perm.length_eq ((List.perm_ext_iff_of_nodup hnodup hnodup').mpr fun k => ?_)
  have hsame := (h k).symm.trans (h' k)
  constructor
  · intro hk
    have hk' := hsame.mp (.inr hk)
    rwa [hopen k hk, or_iff_right Bool.false_ne_true] at hk'
  · intro hk
    have hk' := hsame.mpr (.inr hk)
    rwa [hopen' k hk, or_iff_right Bool.false_ne_true] at hk'

theorem redeemdType2_pays_iff (data : List UInt8) :
    (∀ w', w.redeemdType2 evm data = some w' → w.ClaimedPaid evm w' (toAddressOf data)) ↔
      ¬ (Redeemable evm (toAddressOf data) (w.wallet, 0) (redeemRecords data) ∧
        w.Refuses evm (toAddressOf data) (w.redeemWorth data)) := by
  constructor
  · rintro h ⟨hacc, hrefuses⟩
    obtain ⟨wallet, heq⟩ := redeemdType2_of_redeemable hacc
    have hredeems : w.redeemdType2 evm data = some { w with wallet } :=
      heq.trans (Refuses.transfer (w := { w with wallet }) hrefuses)
    have hloop := redeemLoop_spec (redeemdType2_cases hredeems).1
    obtain ⟨keys, amount, hnodup, hclaimed, hopen, hamount, hpays⟩ := h _ hredeems
    have hcount : keys.length = (redeemRecords data).length := by
      rw [claimed_length hnodup hloop.nodup hclaimed hloop.claimed hopen
        fun k hk => (hloop.fresh k hk).1]
      exact List.length_map ..
    have hworth : amount = w.redeemWorth data := by
      rw [redeemWorth, ← hcount, ← hamount, BitVec.ofNat_toNat, BitVec.setWidth_eq]
    rw [hworth] at hpays
    exact hrefuses.not_pays hpays
  · intro hanswer w' h
    obtain ⟨hl, htransfer⟩ := redeemdType2_cases h
    have hloop := redeemLoop_spec hl
    have hacc := (redeemdType2_isSome.mp (Option.isSome_of_eq_some h)).1
    have hpays := pays_of_transfer htransfer fun hrefuses => hanswer ⟨hacc, hrefuses⟩
    refine ⟨redeemKeys evm w.wallet.currentEpoch (redeemRecords data), w.redeemWorth data,
      hloop.nodup, hloop.claimed, fun k hk => (hloop.fresh k hk).1, ?_, hpays.moved, hpays.ledger⟩
    rw [redeemKeys, List.length_map]
    exact hloop.amount

/-! ## Every call -/

variable [Inhabited Hash]

variable (evm) in
/-- What the wallet's books say after the transaction is what happened to the money. -/
structure FollowsMoney (w : World Hash) (tx : Tx Hash) : Prop where
  redeemed : ∀ data, tx.call = .redeemdType2 data → ∀ w', w.exec evm tx = some w' →
    w.ClaimedPaid evm w' (toAddressOf data)
  started : tx.call = .startEpoch → ∀ w', w.exec evm tx = some w' → w.PendingBurned evm w'
  withdrawn : tx.call = .withdraw → ∀ w', w.exec evm tx = some w' → w.WithdrawBurns evm w' tx.sender
  reverted : w.exec evm tx = none →
    (w.step evm tx).wallet.claimed = w.wallet.claimed ∧
      (w.step evm tx).wallet.pendingBurnAmount = w.wallet.pendingBurnAmount

variable (evm) in
/-- The call passes its checks, and the currency answers `false` to what it pays out or burns. -/
def PaysInVain (w : World Hash) (tx : Tx Hash) : Prop :=
  match tx.call with
  | .redeemdType2 data => Redeemable evm (toAddressOf data) (w.wallet, 0) (redeemRecords data) ∧
      w.Refuses evm (toAddressOf data) (w.redeemWorth data)
  | .startEpoch => w.CanStartEpoch tx.timestamp ∧ w.Refuses evm 0 w.wallet.pendingBurnAmount
  | .withdraw => w.CanWithdraw evm tx.sender tx.timestamp ∧
      w.Refuses evm 0 w.wallet.pendingBurnAmount
  | _ => False

/-- In every state and for every currency, the books follow the money in a transaction exactly if it
does not pay in vain. -/
theorem books_follow_money_iff (evm : Evm Hash) (w : World Hash) (tx : Tx Hash) :
    w.FollowsMoney evm tx ↔ ¬ w.PaysInVain evm tx := by
  have hreverted : w.exec evm tx = none →
      (w.step evm tx).wallet.claimed = w.wallet.claimed ∧
        (w.step evm tx).wallet.pendingBurnAmount = w.wallet.pendingBurnAmount := by
    intro h
    rw [step_of_none h]
    exact ⟨rfl, rfl⟩
  obtain ⟨sender, t, call⟩ := tx
  cases call with
  | startEpoch =>
    rw [PaysInVain, ← startEpoch_burns_iff]
    constructor
    · exact fun h => h.started rfl
    · exact fun h => ⟨by rintro _ ⟨⟩, fun _ => h, by rintro ⟨⟩, hreverted⟩
  | withdraw =>
    rw [PaysInVain, ← withdraw_burns_iff]
    constructor
    · exact fun h => h.withdrawn rfl
    · exact fun h => ⟨by rintro _ ⟨⟩, by rintro ⟨⟩, fun _ => h, hreverted⟩
  | redeemdType2 data =>
    rw [PaysInVain, ← redeemdType2_pays_iff]
    constructor
    · exact fun h => h.redeemed data rfl
    · intro h
      refine ⟨?_, by rintro ⟨⟩, by rintro ⟨⟩, hreverted⟩
      rintro _ ⟨⟩
      exact h
  | _ =>
    exact iff_of_true ⟨by rintro _ ⟨⟩, by rintro ⟨⟩, by rintro ⟨⟩, hreverted⟩ not_false

/-- The wallet of `plainWorld` without tokens. -/
def emptyWorld : World (List UInt8) := .init 1 604800 30 7 9 86400 (fun _ => 0) 0

/-- A batch of one record that the owner of the wallet signed. -/
def signedBatch : List UInt8 := redeemCalldata 9 [⟨1, 1, plainSignature 7, plainSignature 7⟩]

/-- Without tokens to pay with, a currency that answers `false` lets an index be claimed that nobody
is paid for, and a pending amount be written off that is not burned. -/
theorem not_books_follow_money :
    (¬ ∀ tx : Tx (List UInt8), emptyWorld.FollowsMoney flagEvm tx) ∧
    ((emptyWorld.step flagEvm ⟨9, 0, .redeemdType2 signedBatch⟩).wallet.claimed (claimBlob 1 0) =
        true ∧
      (emptyWorld.step flagEvm ⟨9, 0, .redeemdType2 signedBatch⟩).balances 9 = 0) ∧
    ((emptyWorld.run flagEvm [⟨9, 0, .startEpoch⟩,
        ⟨9, 10, .burnCommits (burnCalldata 9 [⟨1, 1, 0, plainSignature 7⟩])⟩]).wallet.pendingBurnAmount
          = 30 ∧
      (emptyWorld.run flagEvm [⟨9, 0, .startEpoch⟩,
        ⟨9, 10, .burnCommits (burnCalldata 9 [⟨1, 1, 0, plainSignature 7⟩])⟩,
        ⟨9, 604800, .startEpoch⟩]).wallet.pendingBurnAmount = 0 ∧
      (emptyWorld.run flagEvm [⟨9, 0, .startEpoch⟩,
        ⟨9, 10, .burnCommits (burnCalldata 9 [⟨1, 1, 0, plainSignature 7⟩])⟩,
        ⟨9, 604800, .startEpoch⟩]).balances 0 = 0) := by
  refine ⟨fun h => ?_, by decide +kernel, by decide +kernel⟩
  have hpaid := (h ⟨9, 0, .redeemdType2 signedBatch⟩).redeemed signedBatch rfl
  have haccepted : (redeemLoop flagEvm (toAddressOf signedBatch) (emptyWorld.wallet, 0)
      (redeemRecords signedBatch)).isSome := by
    decide +kernel
  exact (redeemdType2_pays_iff signedBatch).mp hpaid
    ⟨redeemLoop_isSome.mp haccepted, by decide +kernel, by decide +kernel⟩

end World

end Dse
