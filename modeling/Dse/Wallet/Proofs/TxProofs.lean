import Dse.Wallet.Chain
import Dse.Wallet.Proofs.LoopProofs

/-!
# What a successful transaction does

One specification for each entry point of the wallet, for a currency that behaves as the ERC20
standard asks. Together they are the inversion lemma of `World.exec`: the invariants of the later
modules are proved from them, entry point by entry point.
-/

namespace Dse

variable {Hash : Type} {evm : Evm Hash} {w w' : World Hash}

namespace World

/-! ## Moving tokens -/

theorem transfer_eq_some (hstd : evm.transfer = Ledger.standardTransfer) {recipient : Address}
    {amount : U256} : w.transfer evm recipient amount = some w' ↔
      w.balances.standardTransfer w.this recipient amount = .moved ∧
        w' = { w with balances := w.balances.move w.this recipient amount } := by
  unfold transfer
  rw [hstd]
  cases h : w.balances.standardTransfer w.this recipient amount with
  | moved => simp [eq_comm]
  | refused => exact absurd h (Ledger.standardTransfer_ne_refused _ _ _ _)
  | reverted => simp

theorem safeTransfer_eq_some (hstd : evm.transfer = Ledger.standardTransfer) {recipient : Address}
    {amount : U256} : w.safeTransfer evm recipient amount = some w' ↔
      w.balances.standardTransfer w.this recipient amount = .moved ∧
        w' = { w with balances := w.balances.move w.this recipient amount } := by
  unfold safeTransfer
  rw [hstd]
  cases h : w.balances.standardTransfer w.this recipient amount with
  | moved => simp [eq_comm]
  | refused => simp
  | reverted => simp

/-- What a transfer that does not revert does to the ledger. -/
theorem transfer_pays {recipient : Address} {amount : U256}
    (h : w.transfer evm recipient amount = some w') :
    (evm.transfer w.balances w.this recipient amount = .moved ∧
        w' = { w with balances := w.balances.move w.this recipient amount }) ∨
      (evm.transfer w.balances w.this recipient amount = .refused ∧ w' = w) := by
  unfold transfer at h
  split at h
  · rename_i hmoved
    exact .inl ⟨hmoved, (Option.some.inj h).symm⟩
  · rename_i hrefused
    exact .inr ⟨hrefused, (Option.some.inj h).symm⟩
  · cases h

/-- `safeTransfer` only returns when the tokens moved. -/
theorem safeTransfer_pays {recipient : Address} {amount : U256}
    (h : w.safeTransfer evm recipient amount = some w') :
    evm.transfer w.balances w.this recipient amount = .moved ∧
      w' = { w with balances := w.balances.move w.this recipient amount } := by
  unfold safeTransfer at h
  split at h
  · rename_i hmoved
    exact ⟨hmoved, (Option.some.inj h).symm⟩
  · cases h
  · cases h

/-- Only the ledger changes in a transfer, whatever the currency does. -/
theorem transfer_frame {recipient : Address} {amount : U256}
    (h : w.transfer evm recipient amount = some w') : w' = { w with balances := w'.balances } := by
  rcases transfer_pays h with ⟨-, rfl⟩ | ⟨-, rfl⟩
  · rfl
  · rfl

/-- Only the ledger and the pending amount change in `burnPendingAmount`. -/
theorem burnPendingAmount_spec (h : w.burnPendingAmount evm = some w') :
    w' = { w with
      balances := w'.balances
      wallet := { w.wallet with pendingBurnAmount := 0 } } := by
  unfold burnPendingAmount at h
  split at h
  · obtain ⟨w1, h1, h2⟩ := Option.bind_eq_some_iff.mp h
    obtain rfl := Option.some.inj h2
    rw [transfer_frame h1]
  · rename_i hp
    obtain rfl := Option.some.inj h
    rw [not_not] at hp
    rw [← hp]

/-! ## The entry points -/

/-- What a call of `startEpoch` checks and does, in the order of the source. -/
theorem startEpoch_eq_some {timestamp : U256} : w.startEpoch evm timestamp = some w' ↔
    w.wallet.epochExpiresBy ≤ timestamp ∧ ∃ w₁, w.burnPendingAmount evm = some w₁ ∧
      ∃ currentEpoch epochExpiresBy,
        w₁.wallet.currentEpoch.toNat + 1 = currentEpoch.toNat ∧
        timestamp.toNat + w₁.wallet.epochDuration.toNat = epochExpiresBy.toNat ∧
        w' = { w₁ with
          wallet := { w₁.wallet with reserves := w₁.getBalance, currentEpoch, epochExpiresBy } } := by
  simp only [startEpoch, Option.bind_eq_bind, Option.bind_eq_some_iff, revertIf_eq_some,
    BitVec.not_lt, Word.add?_eq_some, Option.some.injEq]
  constructor
  · rintro ⟨-, ht, w₁, h₁, epoch, he, expires, hx, rfl⟩
    exact ⟨ht, w₁, h₁, epoch, expires, he, hx, rfl⟩
  · rintro ⟨ht, w₁, h₁, epoch, expires, he, hx, rfl⟩
    exact ⟨(), ht, w₁, h₁, epoch, he, expires, hx, rfl⟩

/-- What a call of `withdraw` checks and does, in the order of the source. -/
theorem withdraw_eq_some {sender : Address} {timestamp : U256} :
    w.withdraw evm sender timestamp = some w' ↔
      sender = w.wallet.owner ∧ w.wallet.epochDuration ≤ timestamp ∧
        ∃ w₁, w.burnPendingAmount evm = some w₁ ∧
          ∃ w₂, w₁.safeTransfer evm sender w₁.getBalance = some w₂ ∧
            w' = { w₂ with wallet := { w₂.wallet with reserves := 0 } } := by
  simp only [withdraw, Option.bind_eq_bind, Option.bind_eq_some_iff, revertIf_eq_some, not_not,
    BitVec.not_lt, Option.some.injEq]
  constructor
  · rintro ⟨-, hs, -, ht, w₁, h₁, w₂, h₂, rfl⟩
    exact ⟨hs, ht, w₁, h₁, w₂, h₂, rfl⟩
  · rintro ⟨hs, ht, w₁, h₁, w₂, h₂, rfl⟩
    exact ⟨(), hs, (), ht, w₁, h₁, w₂, h₂, rfl⟩

theorem startEpoch_spec {timestamp : U256} (h : w.startEpoch evm timestamp = some w') :
    w.wallet.epochExpiresBy ≤ timestamp ∧
      w.wallet.currentEpoch.toNat + 1 = w'.wallet.currentEpoch.toNat ∧
      timestamp.toNat + w.wallet.epochDuration.toNat = w'.wallet.epochExpiresBy.toNat ∧
      w'.wallet.reserves = w'.getBalance ∧
      w' = { w with
        balances := w'.balances
        wallet := { w.wallet with
          pendingBurnAmount := 0
          reserves := w'.wallet.reserves
          currentEpoch := w'.wallet.currentEpoch
          epochExpiresBy := w'.wallet.epochExpiresBy } } := by
  obtain ⟨ht, w₁, h₁, epoch, expires, he, hx, rfl⟩ := startEpoch_eq_some.mp h
  have hw₁ := burnPendingAmount_spec h₁
  rw [hw₁] at he hx ⊢
  exact ⟨ht, he, hx, rfl, rfl⟩

theorem withdraw_spec {sender : Address} {timestamp : U256}
    (h : w.withdraw evm sender timestamp = some w') :
    sender = w.wallet.owner ∧ w.wallet.epochDuration ≤ timestamp ∧
      w' = { w with
        balances := w'.balances
        wallet := { w.wallet with pendingBurnAmount := 0, reserves := 0 } } := by
  obtain ⟨hs, ht, w₁, h₁, w₂, h₂, rfl⟩ := withdraw_eq_some.mp h
  have hw₁ := burnPendingAmount_spec h₁
  have hw₂ := (safeTransfer_pays h₂).2
  refine ⟨hs, ht, ?_⟩
  rw [hw₂, hw₁]

variable [DecidableEq Hash]

/-- A `redeemdType2` call that succeeds is its loop and then a transfer of one `indexValue` for each
record. -/
theorem redeemdType2_cases {data : List UInt8} (h : w.redeemdType2 evm data = some w') :
    redeemLoop evm (toAddressOf data) (w.wallet, 0) (redeemRecords data) =
        some (w'.wallet, .ofNat 256 ((redeemRecords data).length * w.wallet.indexValue.toNat)) ∧
      World.transfer evm { w with wallet := w'.wallet } (toAddressOf data)
        (.ofNat 256 ((redeemRecords data).length * w.wallet.indexValue.toNat)) = some w' := by
  unfold redeemdType2 at h
  obtain ⟨⟨wallet, total⟩, hl, ht⟩ := Option.bind_eq_some_iff.mp h
  have htotal : total = .ofNat 256 ((redeemRecords data).length * w.wallet.indexValue.toNat) := by
    rw [← (redeemLoop_spec hl).amount, BitVec.ofNat_toNat, BitVec.setWidth_eq]
  have hwallet : w'.wallet = wallet := by rw [transfer_frame ht]
  rw [hwallet, ← htotal]
  exact ⟨hl, ht⟩

/-- Whatever the currency does, the loop decides the storage. -/
theorem redeemdType2_loop {data : List UInt8} (h : w.redeemdType2 evm data = some w') :
    ∃ totalAmount, redeemLoop evm (toAddressOf data) (w.wallet, 0) (redeemRecords data) =
        some (w'.wallet, totalAmount) ∧
      w' = { w with wallet := w'.wallet, balances := w'.balances } := by
  obtain ⟨hl, ht⟩ := redeemdType2_cases h
  exact ⟨_, hl, transfer_frame ht⟩

/-- On a batch that the loop accepts, `redeemdType2` is a transfer of one `indexValue` for each
record. -/
theorem redeemdType2_of_redeemable {data : List UInt8}
    (h : Redeemable evm (toAddressOf data) (w.wallet, 0) (redeemRecords data)) :
    ∃ wallet, w.redeemdType2 evm data = World.transfer evm { w with wallet } (toAddressOf data)
      (.ofNat 256 ((redeemRecords data).length * w.wallet.indexValue.toNat)) := by
  obtain ⟨⟨wallet, total⟩, hl⟩ := Option.isSome_iff_exists.mp (redeemLoop_isSome.mpr h)
  have hsum : total.toNat = _ := (redeemLoop_spec hl).amount
  refine ⟨wallet, ?_⟩
  rw [← hsum, BitVec.ofNat_toNat, BitVec.setWidth_eq, redeemdType2, hl]
  rfl

omit [DecidableEq Hash] in
/-- When a transfer succeeds. -/
theorem transfer_isSome {recipient : Address} {amount : U256} :
    (w.transfer evm recipient amount).isSome ↔
      evm.transfer w.balances w.this recipient amount ≠ .reverted := by
  unfold transfer
  cases evm.transfer w.balances w.this recipient amount with
  | moved => simp
  | refused => simp
  | reverted => simp

/-- When `redeemdType2` succeeds. The clock has no part in it. -/
theorem redeemdType2_isSome {data : List UInt8} : (w.redeemdType2 evm data).isSome ↔
    Redeemable evm (toAddressOf data) (w.wallet, 0) (redeemRecords data) ∧
      evm.transfer w.balances w.this (toAddressOf data)
        (.ofNat 256 ((redeemRecords data).length * w.wallet.indexValue.toNat)) ≠ .reverted := by
  constructor
  · intro h
    have hacc : Redeemable evm (toAddressOf data) (w.wallet, 0) (redeemRecords data) := by
      obtain ⟨w', hs⟩ := Option.isSome_iff_exists.mp h
      obtain ⟨total, hl, -⟩ := redeemdType2_loop hs
      exact redeemLoop_isSome.mp (by rw [hl]; rfl)
    obtain ⟨wallet, heq⟩ := redeemdType2_of_redeemable hacc
    rw [heq, transfer_isSome] at h
    exact ⟨hacc, h⟩
  · rintro ⟨hacc, htr⟩
    obtain ⟨wallet, heq⟩ := redeemdType2_of_redeemable hacc
    rw [heq, transfer_isSome]
    exact htr

theorem redeemdType2_spec (hstd : evm.transfer = Ledger.standardTransfer) {data : List UInt8}
    (h : w.redeemdType2 evm data = some w') :
    ∃ totalAmount, redeemLoop evm (toAddressOf data) (w.wallet, 0) (redeemRecords data) =
        some (w'.wallet, totalAmount) ∧
      w.balances.standardTransfer w.this (toAddressOf data) totalAmount = .moved ∧
      w' = { w with
        wallet := w'.wallet
        balances := w.balances.move w.this (toAddressOf data) totalAmount } := by
  obtain ⟨hl, ht⟩ := redeemdType2_cases h
  obtain ⟨hm, hw'⟩ := (transfer_eq_some hstd).mp ht
  exact ⟨_, hl, hm, hw'⟩

theorem burnCommits_spec {timestamp : U256} {data : List UInt8}
    (h : w.burnCommits evm timestamp data = some w') :
    w.wallet.burnBuffer.toNat + invDisadvantageBuffer.toNat + timestamp.toNat <
        w.wallet.epochExpiresBy.toNat ∧
      ∃ wallet totalBurn, burnLoop evm (toAddressOf data) (w.wallet, 0) (burnRecords data) =
          some (wallet, totalBurn) ∧
        wallet.pendingBurnAmount.toNat + totalBurn.toNat = w'.wallet.pendingBurnAmount.toNat ∧
        w' = { w with
          wallet := { wallet with pendingBurnAmount := w'.wallet.pendingBurnAmount } } := by
  unfold burnCommits at h
  simp only [Option.bind_eq_bind, Option.bind_eq_some_iff, revertIf_eq_some,
    Word.add?_eq_some, Word.sub?_eq_some, Option.some.injEq] at h
  obtain ⟨margin, hm, deadline, hd, -, ht, ⟨wallet, totalBurn⟩, hl, pending, hp, rfl⟩ := h
  rw [BitVec.not_le, BitVec.lt_def] at ht
  exact ⟨by omega, wallet, totalBurn, hl, hp, rfl⟩

/-- When `burnCommits` succeeds. -/
theorem burnCommits_isSome {timestamp : U256} {data : List UInt8} :
    (w.burnCommits evm timestamp data).isSome ↔
      w.wallet.burnBuffer.toNat + invDisadvantageBuffer.toNat + timestamp.toNat <
          w.wallet.epochExpiresBy.toNat ∧
        Burnable evm (toAddressOf data) (w.wallet, 0) (burnRecords data) ∧
        w.wallet.pendingBurnAmount.toNat +
          (burnRecords data).length * w.wallet.indexValue.toNat < 2 ^ 256 := by
  constructor
  · intro h
    obtain ⟨w', hs⟩ := Option.isSome_iff_exists.mp h
    obtain ⟨htime, wal, total, hl, hp, -⟩ := burnCommits_spec hs
    have hl' := burnLoop_spec hl
    have hsum : total.toNat = _ := hl'.amount
    obtain ⟨-, -, -, -, -, hpd⟩ := eq_of_buffers w.wallet wal hl'.frame
    refine ⟨htime, burnLoop_isSome.mp (by rw [hl]; rfl), ?_⟩
    rw [← hsum, ← hpd, hp]
    exact w'.wallet.pendingBurnAmount.isLt
  · rintro ⟨htime, hacc, hfits⟩
    obtain ⟨⟨wal, total⟩, hl⟩ := Option.isSome_iff_exists.mp (burnLoop_isSome.mpr hacc)
    have hl' := burnLoop_spec hl
    have hsum : total.toNat = _ := hl'.amount
    obtain ⟨-, -, -, -, -, hpd⟩ := eq_of_buffers w.wallet wal hl'.frame
    have hexp := w.wallet.epochExpiresBy.isLt
    have hmargin : (w.wallet.burnBuffer + invDisadvantageBuffer).toNat =
        w.wallet.burnBuffer.toNat + invDisadvantageBuffer.toNat := by
      rw [BitVec.toNat_add, Nat.mod_eq_of_lt (by omega)]
    have hle : w.wallet.burnBuffer + invDisadvantageBuffer ≤ w.wallet.epochExpiresBy := by
      rw [BitVec.le_def]
      omega
    have hopen : ¬ w.wallet.epochExpiresBy - (w.wallet.burnBuffer + invDisadvantageBuffer) ≤
        timestamp := by
      rw [BitVec.le_def, BitVec.toNat_sub_of_le hle]
      omega
    have hpending : Word.add? wal.pendingBurnAmount total =
        some (wal.pendingBurnAmount + total) := by
      refine if_pos ?_
      rw [hpd, hsum]
      exact hfits
    simp only [burnCommits, Option.bind_eq_bind, Word.add?_eq_some.mpr hmargin.symm,
      Option.bind_some, Word.sub?_of_le hle, revertIf, if_neg hopen, hl, hpending,
      Option.isSome_some]

variable [Inhabited Hash]

theorem challengeBurnCommits_spec {timestamp : U256} {commitHash : List Hash} {v : List UInt8}
    {r s : List U256} (h : w.challengeBurnCommits evm timestamp commitHash v r s = some w') :
    (challengeRecords commitHash v r s).map ChallengeRecord.commitHash = commitHash ∧
      ∃ wallet totalBurn,
        challengeLoop evm timestamp (w.wallet, 0) (challengeRecords commitHash v r s) =
          some (wallet, totalBurn) ∧
        wallet.pendingBurnAmount.toNat = w'.wallet.pendingBurnAmount.toNat + totalBurn.toNat ∧
        w' = { w with
          wallet := { wallet with pendingBurnAmount := w'.wallet.pendingBurnAmount } } := by
  unfold challengeBurnCommits at h
  simp only [Option.bind_eq_bind, Option.bind_eq_some_iff, revertIf_eq_some,
    Word.sub?_eq_some, Option.some.injEq] at h
  obtain ⟨-, h1, -, h2, ⟨wallet, totalBurn⟩, hl, pending, hp, rfl⟩ := h
  refine ⟨?_, wallet, totalBurn, hl, hp, rfl⟩
  simp only [challengeRecords, List.map_map]
  refine (List.map_congr_left fun x _ => rfl).trans (List.map_fst_zip ?_)
  simp only [List.length_zip]
  omega

omit [DecidableEq Hash] [Inhabited Hash] in
/-- Only the ledger changes in a deposit. -/
theorem deposit_frame {sender recipient : Address} {amount : U256}
    (h : w.deposit evm sender recipient amount = some w') :
    w' = { w with balances := w'.balances } := by
  unfold deposit at h
  split at h
  · cases h
  · split at h
    · obtain rfl := Option.some.inj h
      rfl
    · obtain rfl := Option.some.inj h
      rfl
    · cases h

omit [DecidableEq Hash] [Inhabited Hash] in
theorem deposit_spec (hstd : evm.transfer = Ledger.standardTransfer) {sender recipient : Address}
    {amount : U256} (h : w.deposit evm sender recipient amount = some w') :
    sender ≠ w.this ∧ w.balances.standardTransfer sender recipient amount = .moved ∧
      w' = { w with balances := w.balances.move sender recipient amount } := by
  unfold deposit at h
  rw [hstd] at h
  split at h
  · cases h
  · rename_i hs
    split at h
    · rename_i hm
      obtain rfl := Option.some.inj h
      exact ⟨hs, hm, rfl⟩
    · rename_i hm
      exact absurd hm (Ledger.standardTransfer_ne_refused _ _ _ _)
    · cases h

/-! ## One transaction -/

/-- What no transaction changes. -/
structure SameContract (w w' : World Hash) : Prop where
  this : w'.this = w.this
  currency : w'.wallet.currency = w.wallet.currency
  owner : w'.wallet.owner = w.wallet.owner
  epochDuration : w'.wallet.epochDuration = w.wallet.epochDuration
  indexValue : w'.wallet.indexValue = w.wallet.indexValue
  burnBuffer : w'.wallet.burnBuffer = w.wallet.burnBuffer

omit [DecidableEq Hash] [Inhabited Hash] in
theorem SameContract.trans {w₁ w₂ w₃ : World Hash} (h : SameContract w₁ w₂)
    (h' : SameContract w₂ w₃) : SameContract w₁ w₃ :=
  ⟨h'.this.trans h.this, h'.currency.trans h.currency, h'.owner.trans h.owner,
    h'.epochDuration.trans h.epochDuration, h'.indexValue.trans h.indexValue,
    h'.burnBuffer.trans h.burnBuffer⟩

/-- No transaction changes the immutables, and only a block moves the clock. -/
theorem exec_same {tx : Tx Hash} (h : w.exec evm tx = some w') :
    SameContract w w' ∧ w'.now = w.now := by
  obtain ⟨sender, t, call⟩ := tx
  cases call with
  | startEpoch =>
    obtain ⟨-, -, -, -, hw'⟩ := startEpoch_spec h
    rw [hw']
    exact ⟨⟨rfl, rfl, rfl, rfl, rfl, rfl⟩, rfl⟩
  | withdraw =>
    obtain ⟨-, -, hw'⟩ := withdraw_spec h
    rw [hw']
    exact ⟨⟨rfl, rfl, rfl, rfl, rfl, rfl⟩, rfl⟩
  | redeemdType2 data =>
    obtain ⟨total, hl, hw'⟩ := redeemdType2_loop h
    have hf : w'.wallet = { w.wallet with claimed := w'.wallet.claimed } := (redeemLoop_spec hl).frame
    rw [hw', hf]
    exact ⟨⟨rfl, rfl, rfl, rfl, rfl, rfl⟩, rfl⟩
  | burnCommits data =>
    obtain ⟨-, wal, total, hl, -, hw'⟩ := burnCommits_spec h
    have hf := (burnLoop_spec hl).frame
    rw [hw', show wal = _ from hf]
    exact ⟨⟨rfl, rfl, rfl, rfl, rfl, rfl⟩, rfl⟩
  | challengeBurnCommits commitHash v r s =>
    obtain ⟨-, wal, total, hl, -, hw'⟩ := challengeBurnCommits_spec h
    have hf := (challengeLoop_spec hl).frame
    rw [hw', show wal = _ from hf]
    exact ⟨⟨rfl, rfl, rfl, rfl, rfl, rfl⟩, rfl⟩
  | transfer recipient amount =>
    have hw' : w' = { w with balances := w'.balances } := deposit_frame h
    rw [hw']
    exact ⟨⟨rfl, rfl, rfl, rfl, rfl, rfl⟩, rfl⟩

/-- A reverted transaction only moves the clock. -/
theorem step_of_none {tx : Tx Hash} (h : w.exec evm tx = none) :
    w.step evm tx = { w with now := tx.timestamp } := by
  simp [step, h]

theorem step_of_some {tx : Tx Hash} (h : w.exec evm tx = some w') :
    w.step evm tx = { w' with now := tx.timestamp } := by
  simp [step, h]

theorem step_same (w : World Hash) (tx : Tx Hash) : SameContract w (w.step evm tx) := by
  cases h : w.exec evm tx with
  | none =>
    rw [step_of_none h]
    exact ⟨rfl, rfl, rfl, rfl, rfl, rfl⟩
  | some w' =>
    rw [step_of_some h]
    obtain ⟨hs, -⟩ := exec_same h
    exact ⟨hs.this, hs.currency, hs.owner, hs.epochDuration, hs.indexValue, hs.burnBuffer⟩

/-- A reverted transaction pays nothing out. -/
theorem payout_of_none {tx : Tx Hash} (h : w.exec evm tx = none) : w.payout evm tx = 0 := by
  obtain ⟨sender, t, call⟩ := tx
  cases call with
  | redeemdType2 data =>
    replace h : w.redeemdType2 evm data = none := h
    unfold payout
    simp only
    split
    · rename_i wallet total hl
      split
      · rename_i hm
        rw [redeemdType2, hl] at h
        simp only [Option.bind_eq_bind, Option.bind_some, transfer, hm] at h
        cases h
      · rfl
    · rfl
  | _ => rfl

end World

/-- A reverted transaction changes no record. -/
theorem EpochRecord.next_of_none [DecidableEq Hash] [Inhabited Hash] (g : EpochRecord)
    {tx : Tx Hash} (h : w.exec evm tx = none) : g.next evm w tx = g := by
  simp [EpochRecord.next, h, World.payout_of_none h]

end Dse
