import Dse.Wallet.Proofs.AccountProofs
import Dse.Wallet.Proofs.MoneyProofs
import Dse.Wallet.Proofs.WindowProofs
import Mathlib.Algebra.Order.BigOperators.Group.List
import Mathlib.Logic.Relation

/-!
# Authorisation of settlements

The maps of a wallet say that an index is claimed or in the burn buffer, not who asked for it. An
observer keeps the log of the successful calls, and every record of the wallet leads back to it: a
claimed index to the one record that redeemed it, a burn record to the record that put it there,
both with the digests that the owner's signatures were recovered from (`Authorised`).

No entry point looks at who calls it, apart from `withdraw`. What authorises a payment is therefore
what the calldata holds: each transfer out of the wallet goes to the address that the records of the
batch are signed for, to address 0, or to the owner who calls (`Payment`).

`redeemdType2` drops the flag that the currency's `transfer` returns, so an index can be claimed
without its payment. Such batches are the only exception (`settlement_authorised_iff`).
-/

namespace Dse

variable {Hash : Type} [DecidableEq Hash] [Inhabited Hash] (evm : Evm Hash)

/-! ## The log -/

/-- The successful calls, each with the state it was made in. -/
abbrev CallLog (Hash : Type) := List (World Hash × Tx Hash)

/-- The logged run. -/
def World.logged (w : World Hash) (txs : List (Tx Hash)) : CallLog Hash × World Hash :=
  Run.final (Run.watch (World.step evm) (Run.record fun w tx => (w.exec evm tx).isSome)) ([], w) txs

omit [DecidableEq Hash] [Inhabited Hash] in
/-- The number of records of a transaction that redeem index `i` in epoch `e`. -/
def World.redemptionsOf (i : U32) (e : U256) (w : World Hash) (tx : Tx Hash) : ℕ :=
  match tx.call with
  | .redeemdType2 data =>
    if w.wallet.currentEpoch = e then ((redeemRecords data).map RedeemRecord.index).count i else 0
  | _ => 0

omit [DecidableEq Hash] [Inhabited Hash] in
/-- The number of records in the log that redeem index `i` in epoch `e`. -/
def CallLog.redemptions (log : CallLog Hash) (i : U32) (e : U256) : ℕ :=
  (log.map fun x => x.1.redemptionsOf i e x.2).sum

/-! ## What a settlement must have behind it -/

/-- The record `r` of a `redeemdType2` call redeems index `i` of epoch `e` to `a`. The currency moves
one `indexValue` for each record of the batch. -/
structure Redeems (w : World Hash) (tx : Tx Hash) (i : U32) (e : U256) (a : Address)
    (r : RedeemRecord) : Prop where
  call : ∃ data, tx.call = .redeemdType2 data ∧ toAddressOf data = a ∧ r ∈ redeemRecords data ∧
    ∃ amount : U256,
      amount.toNat = (redeemRecords data).length * w.wallet.indexValue.toNat ∧
      w.Pays evm (w.step evm tx) a amount
  epoch : w.wallet.currentEpoch = e
  index : r.index = i
  commit : evm.recover (evm.keccak256 (type2Blob i e r.u w.wallet.owner a)) r.commitSignature =
    w.wallet.owner
  invalidating : evm.recover (evm.invalidatingHash r.u) r.invalidatingSignature = w.wallet.owner

/-- The record `r` of a `burnCommits` call puts index `i` of epoch `e` in the burn buffer, with the
invalidating address and the invalidating digest of the commitment that the owner signed. -/
structure Burns (w : World Hash) (tx : Tx Hash) (i : U32) (e : U256) (iAddress : Address)
    (iBlob : Hash) (r : BurnRecord) : Prop where
  call : ∃ data, tx.call = .burnCommits data ∧ r ∈ burnRecords data ∧
    ((iAddress = w.wallet.owner ∨ iAddress = toAddressOf data) ∧
        evm.recover (evm.keccak256 (type1Blob i e r.u iAddress)) r.commitSignature =
          w.wallet.owner ∨
      iAddress = w.wallet.owner ∧
        evm.recover (evm.keccak256 (type2Blob i e r.u iAddress (toAddressOf data)))
          r.commitSignature = w.wallet.owner)
  epoch : w.wallet.currentEpoch = e
  index : r.index = i
  iBlob : iBlob = evm.invalidatingHash r.u

/-- One transfer of the wallet's tokens in a transaction, with what authorises it. -/
inductive Payment (w : World Hash) (tx : Tx Hash) : Ledger → Ledger → Prop
  /-- To the address of a redeemed batch, which every record of the batch is signed for. -/
  | redeem (data : List UInt8) (amount : U256) (hcall : tx.call = .redeemdType2 data)
      (hne : redeemRecords data ≠ [])
      (hsigned : ∀ r ∈ redeemRecords data, r.SignedBy evm w.wallet (toAddressOf data))
      (balances : Ledger) :
      Payment w tx balances (balances.move w.this (toAddressOf data) amount)
  /-- To address 0. -/
  | burn (amount : U256) (balances : Ledger) :
      Payment w tx balances (balances.move w.this 0 amount)
  /-- To the owner, who calls. -/
  | withdraw (amount : U256) (hcall : tx.call = .withdraw) (hsender : tx.sender = w.wallet.owner)
      (balances : Ledger) :
      Payment w tx balances (balances.move w.this w.wallet.owner amount)

/-- What a transaction does to the ledger: somebody else moves their tokens, or the wallet makes
authorised payments. -/
def PaysOnly (w : World Hash) (tx : Tx Hash) : Prop :=
  (∃ recipient amount, tx.call = .transfer recipient amount ∧ tx.sender ≠ w.this ∧
      (w.step evm tx).balances = w.balances.move tx.sender recipient amount) ∨
    Relation.ReflTransGen (Payment evm w tx) w.balances (w.step evm tx).balances

/-- The wallet holds a burn record under `k`. -/
def World.HasRecord (w : World Hash) (k : Hash) : Prop :=
  w.wallet.burnBufferTime k ≠ 0 ∨ w.wallet.burnBufferIBlob k ≠ default ∨
    w.wallet.burnBufferIAddress k ≠ 0

/-- Every settlement in the state `w` has a logged call behind it, and every logged call pays only
what is authorised. -/
structure Authorised (log : CallLog Hash) (w : World Hash) : Prop where
  claimed : ∀ i e, w.wallet.claimed (evm.claimIdentifier i e) = true →
    log.redemptions i e = 1 ∧ ∃ x ∈ log, ∃ a r, Redeems evm x.1 x.2 i e a r
  buffered : ∀ i e, w.HasRecord (evm.claimIdentifier i e) →
    ∃ x ∈ log, ∃ r, Burns evm x.1 x.2 i e (w.wallet.burnBufferIAddress (evm.claimIdentifier i e))
      (w.wallet.burnBufferIBlob (evm.claimIdentifier i e)) r
  paid : ∀ x ∈ log, PaysOnly evm x.1 x.2
  /-- The owner and the index value of every call are those of the wallet. -/
  same : ∀ x ∈ log, World.SameContract x.1 w

/-- `redeemdType2` accepts the batch, the batch is worth something, and the currency answers its
transfer with `false`. -/
structure UnpaidBatch (w : World Hash) (data : List UInt8) : Prop where
  accepted : Redeemable evm (toAddressOf data) (w.wallet, 0) (redeemRecords data)
  refused : w.Refuses evm (toAddressOf data) (w.redeemWorth data)

/-- The transaction redeems an unpaid batch. -/
def UnpaidRedeem (w : World Hash) (tx : Tx Hash) : Prop :=
  ∃ data, tx.call = .redeemdType2 data ∧ UnpaidBatch evm w data

variable {evm} {w w' : World Hash}

/-! ## Payments -/

section Payments

variable {tx : Tx Hash} {recipient : Address} {amount : U256}

omit [DecidableEq Hash] [Inhabited Hash] in
/-- Burning the pending amount is a payment to address 0, or none. -/
theorem burnPendingAmount_pays (h : w.burnPendingAmount evm = some w') :
    w'.this = w.this ∧ Relation.ReflTransGen (Payment evm w tx) w.balances w'.balances := by
  unfold World.burnPendingAmount at h
  split at h
  · obtain ⟨w1, h1, h2⟩ := Option.bind_eq_some_iff.mp h
    obtain rfl := Option.some.inj h2
    rcases World.transfer_pays h1 with ⟨-, hw1⟩ | ⟨-, hw1⟩
    · rw [hw1]
      exact ⟨rfl, .single (.burn _ _)⟩
    · rw [hw1]
      exact ⟨rfl, .refl⟩
  · obtain rfl := Option.some.inj h
    exact ⟨rfl, .refl⟩

omit [Inhabited Hash] in
/-- A redemption pays one `indexValue` for each record of its batch, or nothing when the currency
answers `false`. -/
theorem redeemdType2_pays {data : List UInt8} (h : w.redeemdType2 evm data = some w') :
    ∃ total : U256, redeemLoop evm (toAddressOf data) (w.wallet, 0) (redeemRecords data) =
        some (w'.wallet, total) ∧
      total.toNat = (redeemRecords data).length * w.wallet.indexValue.toNat ∧
      (w'.balances = w.balances.move w.this (toAddressOf data) total ∨
        evm.transfer w.balances w.this (toAddressOf data) total = .refused ∧
          w'.balances = w.balances) := by
  obtain ⟨hl, ht⟩ := World.redeemdType2_cases h
  refine ⟨_, hl, (redeemLoop_spec hl).amount, ?_⟩
  rcases World.transfer_pays ht with ⟨-, hw'⟩ | ⟨hrefused, hw'⟩
  · left
    rw [hw']
  · right
    refine ⟨hrefused, ?_⟩
    rw [hw']

/-- Every successful transaction pays only what is authorised. -/
theorem exec_paysOnly (h : w.exec evm tx = some w') : PaysOnly evm w tx := by
  unfold PaysOnly
  rw [World.step_of_some h]
  obtain ⟨sender, t, call⟩ := tx
  cases call with
  | startEpoch =>
    right
    obtain ⟨-, w₁, h₁, epoch, expires, -, -, rfl⟩ := World.startEpoch_eq_some.mp h
    exact (burnPendingAmount_pays h₁).2
  | withdraw =>
    right
    obtain ⟨howner, -, w₁, h₁, w₂, h₂, rfl⟩ := World.withdraw_eq_some.mp h
    obtain ⟨hthis, hburn⟩ := burnPendingAmount_pays h₁
    have hw₂ := (World.safeTransfer_pays h₂).2
    subst hw₂
    have hpay : Payment evm w ⟨sender, t, .withdraw⟩ w₁.balances
        (w₁.balances.move w.this w.wallet.owner w₁.getBalance) := .withdraw _ rfl howner _
    refine hburn.tail ?_
    rw [hthis]
    rwa [← howner] at hpay
  | redeemdType2 data =>
    right
    obtain ⟨total, hl, htotal, hb⟩ := redeemdType2_pays h
    have hsigned := (redeemLoop_spec hl).signed
    change Relation.ReflTransGen _ w.balances w'.balances
    rcases hb with hb | ⟨-, hb⟩
    · rw [hb]
      by_cases hne : redeemRecords data = []
      · -- an empty batch names an address that nothing is signed for, and moves no tokens
        have hzero : total = 0 := by
          rw [hne, List.length_nil, Nat.zero_mul] at htotal
          exact BitVec.eq_of_toNat_eq htotal
        rw [hzero, Ledger.move_zero]
      · exact .single (.redeem data total rfl hne hsigned _)
    · rw [hb]
  | burnCommits data =>
    right
    obtain ⟨-, wal, total, -, -, hw'⟩ := World.burnCommits_spec h
    rw [hw']
  | challengeBurnCommits commitHash v r s =>
    right
    obtain ⟨-, wal, total, -, -, hw'⟩ := World.challengeBurnCommits_spec h
    rw [hw']
  | transfer recipient amount =>
    replace h : w.deposit evm sender recipient amount = some w' := h
    unfold World.deposit at h
    split at h
    · cases h
    · rename_i hne
      split at h
      · obtain rfl := Option.some.inj h
        exact .inl ⟨recipient, amount, rfl, hne, rfl⟩
      · obtain rfl := Option.some.inj h
        exact .inr .refl
      · cases h

end Payments

/-! ## One transaction -/

section Step

variable {tx : Tx Hash}

/-- An unpaid batch goes through. -/
theorem UnpaidBatch.exec_isSome {data : List UInt8} (h : UnpaidBatch evm w data)
    (hcall : tx.call = .redeemdType2 data) : (w.exec evm tx).isSome := by
  obtain ⟨wallet, heq⟩ := World.redeemdType2_of_redeemable h.accepted
  have hkept : ({ w with wallet } : World Hash).transfer evm (toAddressOf data)
      (w.redeemWorth data) = some { w with wallet } :=
    World.Refuses.transfer (w := { w with wallet }) h.refused
  rw [World.exec, hcall]
  exact Option.isSome_of_eq_some (heq.trans hkept)

/-- Each record of a successful `redeemdType2` call redeems its index, unless its batch is
unpaid. -/
theorem redeems_of_mem {data : List UInt8} (hcall : tx.call = .redeemdType2 data)
    (h : w.exec evm tx = some w') (hpaid : ¬ UnpaidRedeem evm w tx) {r : RedeemRecord}
    (hr : r ∈ redeemRecords data) :
    Redeems evm w tx r.index w.wallet.currentEpoch (toAddressOf data) r := by
  have hex : w.redeemdType2 evm data = some w' := by
    simpa only [World.exec, hcall] using h
  obtain ⟨hl, htransfer⟩ := World.redeemdType2_cases hex
  have hloop := redeemLoop_spec hl
  obtain ⟨hcommit, hinvalidating⟩ := hloop.signed r hr
  have hacc := (World.redeemdType2_isSome.mp (Option.isSome_of_eq_some hex)).1
  have hpays := World.pays_of_transfer htransfer fun hrefuses =>
    hpaid ⟨data, hcall, hacc, hrefuses⟩
  refine ⟨⟨data, hcall, rfl, hr, w.redeemWorth data, hloop.amount, hpays.moved, ?_⟩, rfl, rfl,
    hcommit, hinvalidating⟩
  rw [World.step_of_some h]
  exact hpays.ledger

/-- No record of an unpaid batch redeems its index. -/
theorem UnpaidRedeem.not_redeems (h : UnpaidRedeem evm w tx) {i : U32} {e : U256} {a : Address}
    {r : RedeemRecord} : ¬ Redeems evm w tx i e a r := by
  intro hr
  obtain ⟨data, hcall, hunpaid⟩ := h
  obtain ⟨data', hcall', ha, -, amount, hamount, hpays⟩ := hr.call
  have hdata : data' = data := Call.redeemdType2.inj (hcall'.symm.trans hcall)
  subst hdata ha
  have hworth : amount = w.redeemWorth data' := by
    rw [World.redeemWorth, ← hamount, BitVec.ofNat_toNat, BitVec.setWidth_eq]
  rw [hworth] at hpays
  exact hunpaid.refused.not_pays hpays

omit [DecidableEq Hash] [Inhabited Hash] in
/-- A record of a batch counts as a redemption of its index. -/
theorem redemptionsOf_pos {data : List UInt8} (hcall : tx.call = .redeemdType2 data)
    {r : RedeemRecord} (hr : r ∈ redeemRecords data) :
    0 < w.redemptionsOf r.index w.wallet.currentEpoch tx := by
  simp only [World.redemptionsOf, hcall, if_true]
  exact List.count_pos_iff.mpr (List.mem_map_of_mem hr)

omit [DecidableEq Hash] [Inhabited Hash] in
/-- What counts as a redemption is a record of a batch. -/
theorem exists_of_redemptionsOf_pos {i : U32} {e : U256} (h : 0 < w.redemptionsOf i e tx) :
    ∃ data, tx.call = .redeemdType2 data ∧ w.wallet.currentEpoch = e ∧
      ∃ r ∈ redeemRecords data, r.index = i := by
  unfold World.redemptionsOf at h
  split at h
  · rename_i data hcall
    split at h
    · rename_i hepoch
      obtain ⟨r, hr, hi⟩ := List.mem_map.mp (List.count_pos_iff.mp h)
      exact ⟨data, hcall, hepoch, r, hr, hi⟩
    · exact absurd h (lt_irrefl 0)
  · exact absurd h (lt_irrefl 0)

omit [DecidableEq Hash] [Inhabited Hash] in
/-- A batch claims the keys of its indices once each, and no other key. -/
theorem Redeemed.claimed_toNat (hk : Function.Injective evm.keccak256) {toAddress : Address}
    {st st' : Wallet Hash × U256} {rs : List RedeemRecord}
    (h : Redeemed evm toAddress st rs st') (i : U32) (e : U256) :
    (st'.1.claimed (evm.claimIdentifier i e)).toNat =
      (st.1.claimed (evm.claimIdentifier i e)).toNat +
        if st.1.currentEpoch = e then (rs.map RedeemRecord.index).count i else 0 := by
  have hnodup : (rs.map RedeemRecord.index).Nodup := by
    refine List.Nodup.of_map (fun i => evm.claimIdentifier i st.1.currentEpoch) ?_
    rw [List.map_map]
    exact h.nodup
  have hmem : evm.claimIdentifier i e ∈ redeemKeys evm st.1.currentEpoch rs ↔
      st.1.currentEpoch = e ∧ i ∈ rs.map RedeemRecord.index := by
    simp only [redeemKeys, List.mem_map, claimIdentifier_inj hk]
    constructor
    · rintro ⟨r, hr, rfl, rfl⟩
      exact ⟨rfl, r, hr, rfl⟩
    · rintro ⟨rfl, r, hr, rfl⟩
      exact ⟨r, hr, rfl, rfl⟩
  have hclaimed := h.claimed (evm.claimIdentifier i e)
  rw [hmem] at hclaimed
  by_cases hin : st.1.currentEpoch = e ∧ i ∈ rs.map RedeemRecord.index
  · have hold := (h.fresh _ (hmem.mpr hin)).1
    rw [hclaimed.mpr (.inr hin), hold, if_pos hin.1, List.count_eq_one_of_mem hnodup hin.2]
    rfl
  · have hcount :
        (if st.1.currentEpoch = e then (rs.map RedeemRecord.index).count i else 0) = 0 := by
      split
      · rename_i he
        exact List.count_eq_zero_of_not_mem fun hi => hin ⟨he, hi⟩
      · rfl
    have hsame : st'.1.claimed (evm.claimIdentifier i e) =
        st.1.claimed (evm.claimIdentifier i e) := by
      rw [Bool.eq_iff_iff, hclaimed]
      exact or_iff_left hin
    rw [hcount, hsame, Nat.add_zero]

/-- A successful transaction adds one redemption for each key that it claims. -/
theorem exec_redemptions (hk : Function.Injective evm.keccak256) (h : w.exec evm tx = some w')
    (i : U32) (e : U256) :
    (w'.wallet.claimed (evm.claimIdentifier i e)).toNat =
      (w.wallet.claimed (evm.claimIdentifier i e)).toNat + w.redemptionsOf i e tx := by
  obtain ⟨sender, t, call⟩ := tx
  cases call with
  | startEpoch =>
    obtain ⟨-, -, -, -, hw'⟩ := World.startEpoch_spec h
    rw [hw']
    rfl
  | withdraw =>
    obtain ⟨-, -, hw'⟩ := World.withdraw_spec h
    rw [hw']
    rfl
  | redeemdType2 data =>
    obtain ⟨total, hl, -⟩ := World.redeemdType2_loop h
    exact (redeemLoop_spec hl).claimed_toNat hk i e
  | burnCommits data =>
    obtain ⟨-, wal, total, hl, -, hw'⟩ := World.burnCommits_spec h
    have hc := (eq_of_buffers _ _ (burnLoop_spec hl).frame).1
    rw [hw']
    exact congrArg (fun claimed => (claimed (evm.claimIdentifier i e)).toNat) hc
  | challengeBurnCommits commitHash v r s =>
    obtain ⟨-, wal, total, hl, -, hw'⟩ := World.challengeBurnCommits_spec h
    have hc := (eq_of_buffers _ _ (challengeLoop_spec hl).frame).1
    rw [hw']
    exact congrArg (fun claimed => (claimed (evm.claimIdentifier i e)).toNat) hc
  | transfer recipient amount =>
    have hw' : w' = { w with balances := w'.balances } := World.deposit_frame h
    rw [hw']
    rfl

omit [DecidableEq Hash] [Inhabited Hash] in
/-- A record that a successful `burnCommits` call stored is what the signed commitment says. -/
theorem burns_of_stored {data : List UInt8} (hcall : tx.call = .burnCommits data)
    {wal : Wallet Hash} {r : BurnRecord} (hr : r ∈ burnRecords data)
    (hsigned : r.SignedBy evm w.wallet (toAddressOf data))
    (hst : r.StoredIn evm w.wallet (toAddressOf data) wal) :
    Burns evm w tx r.index w.wallet.currentEpoch
      (wal.burnBufferIAddress (evm.claimIdentifier r.index w.wallet.currentEpoch))
      (wal.burnBufferIBlob (evm.claimIdentifier r.index w.wallet.currentEpoch)) r := by
  obtain ⟨-, hblob, haddr⟩ := hst
  rw [hblob, haddr]
  refine ⟨⟨data, hcall, hr, ?_⟩, rfl, rfl, rfl⟩
  unfold BurnRecord.SignedBy BurnRecord.blob at hsigned
  by_cases htype : r.ctype < 2
  · left
    rw [if_pos htype] at hsigned
    refine ⟨?_, hsigned⟩
    unfold BurnRecord.iAddress
    rw [if_pos htype]
    by_cases hzero : r.ctype = 0
    · exact .inl (if_pos hzero)
    · exact .inr (if_neg hzero)
  · right
    rw [if_neg htype] at hsigned
    have haddr : r.iAddress w.wallet (toAddressOf data) = w.wallet.owner := if_neg htype
    rw [haddr]
    exact ⟨rfl, hsigned⟩

/-- After a successful transaction every burn record of an index was there before, or the
transaction burns the index. -/
theorem exec_hasRecord (hk : Function.Injective evm.keccak256) (h : w.exec evm tx = some w')
    {i : U32} {e : U256} (hrec : w'.HasRecord (evm.claimIdentifier i e)) :
    SameRecord (evm.claimIdentifier i e) w w' ∨
      ∃ r, Burns evm w tx i e (w'.wallet.burnBufferIAddress (evm.claimIdentifier i e))
        (w'.wallet.burnBufferIBlob (evm.claimIdentifier i e)) r := by
  by_cases htouch : w.Touches evm (evm.claimIdentifier i e) tx
  · obtain ⟨sender, t, call⟩ := tx
    obtain ⟨-, hin⟩ := htouch
    cases call with
    | burnCommits data =>
      right
      obtain ⟨-, wal, total, hl, -, hw'⟩ := World.burnCommits_spec h
      have hl' := burnLoop_spec hl
      obtain ⟨r, hr, hid, hst⟩ := hl'.stored _ hin
      obtain ⟨rfl, rfl⟩ := (claimIdentifier_inj hk).mp hid
      rw [hw']
      exact ⟨r, burns_of_stored rfl hr (hl'.signed r hr) hst⟩
    | challengeBurnCommits commitHash v r s =>
      -- a challenged record is gone
      obtain ⟨hmap, wal, total, hl, -, hw'⟩ := World.challengeBurnCommits_spec h
      obtain ⟨h1, h2, h3⟩ := (challengeLoop_spec hl).deleted (evm.claimIdentifier i e)
        (by rw [hmap]; exact hin)
      rw [hw'] at hrec
      rcases hrec with hrec | hrec | hrec
      · exact absurd h1 hrec
      · exact absurd h2 hrec
      · exact absurd h3 hrec
    | _ => exact absurd hin id
  · exact .inl (exec_sameRecord h htouch)

end Step

/-! ## Runs -/

/-- The invariant: the log holds successful calls, counts the claimed keys and knows where every
burn record comes from. -/
structure Logged (evm : Evm Hash) (x : CallLog Hash × World Hash) : Prop where
  succeeded : ∀ y ∈ x.1, ∃ w', y.1.exec evm y.2 = some w'
  once : ∀ i e, x.1.redemptions i e = (x.2.wallet.claimed (evm.claimIdentifier i e)).toNat
  buffered : ∀ i e, x.2.HasRecord (evm.claimIdentifier i e) →
    ∃ y ∈ x.1, ∃ r, Burns evm y.1 y.2 i e
      (x.2.wallet.burnBufferIAddress (evm.claimIdentifier i e))
      (x.2.wallet.burnBufferIBlob (evm.claimIdentifier i e)) r
  same : ∀ y ∈ x.1, World.SameContract y.1 x.2

/-- Nothing that the log is about changes with the clock. -/
theorem Logged.tick {log : CallLog Hash} (h : Logged evm (log, w)) (t : U256) :
    Logged evm (log, { w with now := t }) :=
  ⟨h.succeeded, h.once, h.buffered, fun y hy =>
    ⟨(h.same y hy).this, (h.same y hy).currency, (h.same y hy).owner, (h.same y hy).epochDuration,
      (h.same y hy).indexValue, (h.same y hy).burnBuffer⟩⟩

/-- A successful transaction, once it is written down, keeps the log true. -/
theorem Logged.exec (hk : Function.Injective evm.keccak256) {log : CallLog Hash}
    (h : Logged evm (log, w)) {tx : Tx Hash} (hs : w.exec evm tx = some w') :
    Logged evm (log ++ [(w, tx)], w') := by
  have hsame := (World.exec_same hs).1
  refine ⟨?_, ?_, ?_, ?_⟩
  · intro y hy
    rcases List.mem_append.mp hy with hy | hy
    · exact h.succeeded y hy
    · rw [List.mem_singleton.mp hy]
      exact ⟨w', hs⟩
  · intro i e
    have hlog : CallLog.redemptions (log ++ [(w, tx)]) i e =
        log.redemptions i e + w.redemptionsOf i e tx := by
      simp [CallLog.redemptions]
    rw [hlog, exec_redemptions hk hs, h.once i e]
  · intro i e hrec
    rcases exec_hasRecord hk hs hrec with hkept | ⟨r, hr⟩
    · have hold : w.HasRecord (evm.claimIdentifier i e) := by
        unfold World.HasRecord at hrec ⊢
        rwa [hkept.time, hkept.iBlob, hkept.iAddress] at hrec
      obtain ⟨y, hy, r, hr⟩ := h.buffered i e hold
      rw [hkept.iBlob, hkept.iAddress]
      exact ⟨y, List.mem_append_left _ hy, r, hr⟩
    · exact ⟨(w, tx), List.mem_append_right _ (List.mem_singleton_self _), r, hr⟩
  · intro y hy
    rcases List.mem_append.mp hy with hy | hy
    · exact (h.same y hy).trans hsame
    · rw [List.mem_singleton.mp hy]
      exact hsame

/-- A transaction, reverted or not, keeps the log true. -/
theorem Logged.step (hk : Function.Injective evm.keccak256) (x : CallLog Hash × World Hash)
    (tx : Tx Hash) (h : Logged evm x) :
    Logged evm
      (Run.watch (World.step evm) (Run.record fun w tx => (w.exec evm tx).isSome) x tx) := by
  obtain ⟨log, w⟩ := x
  change Logged evm (if (w.exec evm tx).isSome then log ++ [(w, tx)] else log, w.step evm tx)
  cases hs : w.exec evm tx with
  | none =>
    rw [World.step_of_none hs]
    exact h.tick _
  | some w' =>
    rw [World.step_of_some hs]
    exact (h.exec hk hs).tick _

/-- The log of every run of a deployed wallet is true. -/
theorem logged_run (hk : Function.Injective evm.keccak256) (this : Address)
    (epochDuration indexValue : U256) (owner currency : Address) (burnBuffer : U256)
    (balances : Ledger) (now : U256) (txs : List (Tx Hash)) :
    Logged evm (World.logged evm
      (.init this epochDuration indexValue owner currency burnBuffer balances now) txs) := by
  have hinit : Logged evm ([],
      World.init this epochDuration indexValue owner currency burnBuffer balances now) := by
    refine ⟨by simp, fun i e => rfl, fun i e hrec => ?_, by simp⟩
    rcases hrec with hrec | hrec | hrec
    · exact absurd rfl hrec
    · exact absurd rfl hrec
    · exact absurd rfl hrec
  exact Run.final_inv (fun x tx h _ => Logged.step hk x tx h) hinit (Run.always_trivial _ txs)

omit [DecidableEq Hash] [Inhabited Hash] in
/-- Two different entries of the log count twice. -/
theorem CallLog.add_le_redemptions {log : CallLog Hash} {x y : World Hash × Tx Hash}
    (hx : x ∈ log) (hy : y ∈ log) (hne : x ≠ y) (i : U32) (e : U256) :
    x.1.redemptionsOf i e x.2 + y.1.redemptionsOf i e y.2 ≤ log.redemptions i e := by
  obtain ⟨l, l', rfl⟩ := List.append_of_mem hy
  have hsum : CallLog.redemptions (l ++ y :: l') i e =
      CallLog.redemptions (l ++ l') i e + y.1.redemptionsOf i e y.2 := by
    simp only [CallLog.redemptions, List.map_append, List.map_cons, List.sum_append, List.sum_cons]
    omega
  have hin : x ∈ l ++ l' := by
    simp only [List.mem_append, List.mem_cons] at hx ⊢
    rcases hx with hx | rfl | hx
    · exact .inl hx
    · exact absurd rfl hne
    · exact .inr hx
  have hle : x.1.redemptionsOf i e x.2 ≤ CallLog.redemptions (l ++ l') i e :=
    List.le_sum_of_mem (List.mem_map_of_mem hin)
  omega

/-- When everything that a true log accounts for is authorised, no call in it is an unpaid
redemption: the index would stay claimed, and its only record would have to be a paid one. -/
theorem Logged.paid {log : CallLog Hash} (h : Logged evm (log, w)) (ha : Authorised evm log w) :
    ∀ y ∈ log, ¬ UnpaidRedeem evm y.1 y.2 := by
  intro y hy hunpaid
  obtain ⟨data, hcall, hbatch⟩ := hunpaid
  obtain ⟨r, hr⟩ : ∃ r, r ∈ redeemRecords data := by
    refine List.exists_mem_of_length_pos (Nat.pos_of_ne_zero fun hz => ?_)
    have hworth := hbatch.refused.1
    rw [World.redeemWorth, hz, Nat.zero_mul] at hworth
    exact hworth rfl
  have hpos := redemptionsOf_pos (w := y.1) hcall hr
  set i := r.index
  set e := y.1.wallet.currentEpoch
  have hclaimed : w.wallet.claimed (evm.claimIdentifier i e) = true := by
    by_contra hc
    have honce : log.redemptions i e = _ := h.once i e
    rw [Bool.eq_false_iff.mpr hc, Bool.toNat_false] at honce
    have hle : y.1.redemptionsOf i e y.2 ≤ log.redemptions i e :=
      List.le_sum_of_mem (List.mem_map_of_mem hy)
    omega
  obtain ⟨hone, x, hx, a, r', hred⟩ := ha.claimed i e hclaimed
  by_cases hxy : x = y
  · subst hxy
    exact UnpaidRedeem.not_redeems ⟨data, hcall, hbatch⟩ hred
  · obtain ⟨data', hcall', -, hr', -⟩ := hred.call
    have hpos' := redemptionsOf_pos (w := x.1) hcall' hr'
    rw [hred.index, hred.epoch] at hpos'
    have hle := CallLog.add_le_redemptions hx hy hxy i e
    omega

/-- Everything that a true log without unpaid redemptions accounts for is authorised. -/
theorem Logged.authorised {log : CallLog Hash} (h : Logged evm (log, w))
    (hpaid : ∀ y ∈ log, ¬ UnpaidRedeem evm y.1 y.2) : Authorised evm log w := by
  refine ⟨fun i e hc => ?_, h.buffered, fun x hx => ?_, h.same⟩
  · have hone : log.redemptions i e = 1 := by
      have honce : log.redemptions i e = _ := h.once i e
      rw [hc] at honce
      exact honce
    have hpos : ∃ x ∈ log, 0 < x.1.redemptionsOf i e x.2 := by
      by_contra hne
      have hzero : log.redemptions i e = 0 := by
        refine List.sum_eq_zero fun n hn => ?_
        obtain ⟨x, hx, rfl⟩ := List.mem_map.mp hn
        by_contra hx0
        exact hne ⟨x, hx, Nat.pos_of_ne_zero hx0⟩
      omega
    obtain ⟨x, hx, hx0⟩ := hpos
    obtain ⟨w', hs⟩ := h.succeeded x hx
    obtain ⟨data, hcall, rfl, r, hr, rfl⟩ := exists_of_redemptionsOf_pos hx0
    exact ⟨hone, x, hx, toAddressOf data, r, redeems_of_mem hcall hs (hpaid x hx) hr⟩
  · obtain ⟨w', hs⟩ := h.succeeded x hx
    exact exec_paysOnly hs

theorem Logged.authorised_iff {x : CallLog Hash × World Hash} (h : Logged evm x) :
    Authorised evm x.1 x.2 ↔ ∀ y ∈ x.1, ¬ UnpaidRedeem evm y.1 y.2 :=
  ⟨Logged.paid h, Logged.authorised h⟩

/-- The log names every unpaid redemption of a run. -/
theorem logged_unpaid_iff (w : World Hash) (txs : List (Tx Hash)) :
    (∀ x ∈ (World.logged evm w txs).1, ¬ UnpaidRedeem evm x.1 x.2) ↔
      Run.Always (World.step evm) (fun w tx => ¬ UnpaidRedeem evm w tx) w txs := by
  unfold World.logged
  rw [Run.forall_mem_record (fun x : World Hash × Tx Hash => ¬ UnpaidRedeem evm x.1 x.2)]
  refine (and_iff_right (by simp)).trans (Run.always_congr fun w tx => ?_)
  constructor
  · intro h hunpaid
    obtain ⟨data, hcall, hbatch⟩ := hunpaid
    exact h (hbatch.exec_isSome hcall) ⟨data, hcall, hbatch⟩
  · exact fun h _ => h

/-- In every run by any callers, every settlement of a reachable state is authorised by the owner's
signatures over it exactly when no batch of the run goes unpaid. -/
theorem settlement_authorised_iff (hk : Function.Injective evm.keccak256) (this : Address)
    (epochDuration indexValue : U256) (owner currency : Address) (burnBuffer : U256)
    (balances : Ledger) (now : U256) (txs : List (Tx Hash)) :
    let w := World.init this epochDuration indexValue owner currency burnBuffer balances now
    let x := World.logged evm w txs
    Authorised evm x.1 x.2 ↔
      Run.Always (World.step evm) (fun w tx => ¬ UnpaidRedeem evm w tx) w txs := by
  intro w x
  have hlogged : Logged evm x :=
    logged_run hk this epochDuration indexValue owner currency burnBuffer balances now txs
  exact hlogged.authorised_iff.trans (logged_unpaid_iff w txs)

/-- A standard currency leaves no batch unpaid: one index is redeemed, and the burn record of
another is left. -/
theorem settlement_authorised_iff_settledTxs :
    let x := World.logged plainEvm plainWorld settledTxs
    Authorised plainEvm x.1 x.2 ∧
      x.2.wallet.claimed (claimBlob 3 1) = true ∧ x.2.HasRecord (claimBlob 2 1) := by
  have hpaid : ∀ (w : World (List UInt8)) tx, ¬ UnpaidRedeem plainEvm w tx := by
    rintro w tx ⟨data, -, hbatch⟩
    exact Ledger.standardTransfer_ne_refused _ _ _ _ hbatch.refused.2
  refine ⟨?_, by decide +kernel, .inl (by decide +kernel)⟩
  refine (settlement_authorised_iff Function.injective_id 1 604800 30 7 9 86400 _ 0 settledTxs).mpr ?_
  exact (Run.always_congr fun w tx => iff_true_intro (hpaid w tx)).mpr (Run.always_trivial _ _)

/-- A wallet like that of `plainWorld` with 10 tokens, less than an index is worth. -/
def shortWorld : World (List UInt8) :=
  .init 1 604800 30 7 9 86400 (fun a => if a = 1 then 10 else 0) 0

/-- A signed batch of one record. -/
def unpaidData : List UInt8 := redeemCalldata 5 [⟨3, 3, plainSignature 7, plainSignature 7⟩]

/-- An epoch starts, and the batch is redeemed. -/
def unpaidTxs : List (Tx (List UInt8)) :=
  [⟨3, 1650000000, .startEpoch⟩, ⟨3, 1650000010, .redeemdType2 unpaidData⟩]

/-- The index is claimed although nothing is paid for it. -/
theorem not_settlement_authorised_unpaidTxs :
    let x := World.logged flagEvm shortWorld unpaidTxs
    x.2.wallet.claimed (claimBlob 3 1) = true ∧ x.2.balances 5 = 0 ∧
      ¬ Authorised flagEvm x.1 x.2 := by
  intro x
  refine ⟨by decide +kernel, by decide +kernel, fun ha => ?_⟩
  have hlogged : Logged flagEvm x :=
    logged_run Function.injective_id 1 604800 30 7 9 86400 _ 0 unpaidTxs
  have hpaid := hlogged.authorised_iff.mp ha
  obtain ⟨-, hredeem, -⟩ := (logged_unpaid_iff shortWorld unpaidTxs).mp hpaid
  refine hredeem ⟨unpaidData, rfl, ?_, ?_, ?_⟩
  · exact redeemLoop_isSome.mp (by decide +kernel)
  · decide +kernel
  · decide +kernel

end Dse
