import Mathlib.Algebra.Order.BigOperators.Group.Finset
import Dse.Wallet.Proofs.SolvencyProofs

/-!
# A wallet that honours its commitments

A standard currency neither makes nor destroys tokens, so its balances stay within a word
(`Ledger.Bounded`) and a transfer can only fail for lack of funds. When the owner signs for backed
indexes only, there is no such lack (`Solvent`): nothing but the clock holds up the next epoch or the
owner's withdrawal, and every batch that the owner has signed and that is not settled yet is paid.
-/

namespace Dse

/-! ## The supply of a currency -/

namespace Ledger

variable {balances : Ledger} {sender recipient : Address} {amount : U256}

/-- The tokens of any accounts together fit a word. -/
def Bounded (balances : Ledger) : Prop :=
  ∀ accounts : Finset Address, ∑ a ∈ accounts, (balances a).toNat < 2 ^ 256

/-- A transfer between two accounts keeps what they and others hold together. -/
theorem sum_move (hm : balances.standardTransfer sender recipient amount = .moved)
    {accounts : Finset Address} (hs : sender ∈ accounts) (hr : recipient ∈ accounts) :
    ∑ a ∈ accounts, (balances.move sender recipient amount a).toNat =
      ∑ a ∈ accounts, (balances a).toNat := by
  obtain ⟨hle, hfits⟩ := standardTransfer_eq_moved.mp hm
  by_cases hne : recipient = sender
  · rw [hne, move_self]
  · have hmem : recipient ∈ accounts.erase sender := Finset.mem_erase.mpr ⟨hne, hr⟩
    have hrest : ∑ a ∈ (accounts.erase sender).erase recipient,
        (balances.move sender recipient amount a).toNat =
          ∑ a ∈ (accounts.erase sender).erase recipient, (balances a).toNat := by
      refine Finset.sum_congr rfl fun a ha => ?_
      obtain ⟨har, ha⟩ := Finset.mem_erase.mp ha
      rw [move_other (Finset.mem_erase.mp ha).1 har]
    have hsender := move_sender hle hne
    have hrecipient := move_recipient (hfits.resolve_left hne) hne
    rw [BitVec.le_def] at hle
    rw [← Finset.add_sum_erase _ _ hs, ← Finset.add_sum_erase _ _ hmem, hrest, hsender, hrecipient,
      ← Finset.add_sum_erase accounts _ hs, ← Finset.add_sum_erase _ _ hmem]
    omega

namespace Bounded

theorem add_lt (h : balances.Bounded) (hne : recipient ≠ sender) :
    (balances recipient).toNat + (balances sender).toNat < 2 ^ 256 := by
  have hsum := h {recipient, sender}
  rw [Finset.sum_pair hne] at hsum
  exact hsum

/-- Nothing but a lack of funds stops a transfer. -/
theorem moved (h : balances.Bounded) (hle : amount ≤ balances sender) (recipient : Address) :
    balances.standardTransfer sender recipient amount = .moved := by
  refine standardTransfer_eq_moved.mpr ⟨hle, ?_⟩
  by_cases hne : recipient = sender
  · exact .inl hne
  · have hsum := h.add_lt hne
    rw [BitVec.le_def] at hle
    exact .inr (by omega)

/-- A transfer keeps the bound. -/
theorem move (h : balances.Bounded)
    (hm : balances.standardTransfer sender recipient amount = .moved) :
    (balances.move sender recipient amount).Bounded := by
  intro accounts
  have hsub : accounts ⊆ insert sender (insert recipient accounts) := by
    intro a ha
    simp [ha]
  refine lt_of_le_of_lt (Finset.sum_le_sum_of_subset hsub) ?_
  rw [sum_move hm (by simp) (by simp)]
  exact h _

end Bounded

end Ledger

variable {Hash : Type} {evm : Evm Hash} {w w' : World Hash}

/-- What is burned stays within the supply. -/
theorem Ledger.Bounded.burned (h : w.balances.Bounded)
    (hm : w.wallet.pendingBurnAmount = 0 ∨
      w.balances.standardTransfer w.this 0 w.wallet.pendingBurnAmount = .moved) :
    w.burnedBalances.Bounded := by
  unfold World.burnedBalances
  split
  · exact h
  · rename_i hne
    exact h.move (hm.resolve_left hne)

variable [DecidableEq Hash] [Inhabited Hash]

/-- No transaction makes or destroys tokens. -/
theorem exec_bounded (hstd : evm.transfer = Ledger.standardTransfer) (h : w.balances.Bounded)
    {tx : Tx Hash} (hs : w.exec evm tx = some w') : w'.balances.Bounded := by
  obtain ⟨sender, t, call⟩ := tx
  cases call with
  | startEpoch =>
    obtain ⟨-, w₁, hburn, epoch, expires, -, -, hw'⟩ := World.startEpoch_eq_some.mp hs
    obtain ⟨hm, rfl⟩ := (burnPendingAmount_eq_some hstd).mp hburn
    rw [hw']
    exact h.burned hm
  | withdraw =>
    obtain ⟨-, -, w₁, hburn, w₂, hpay, hw'⟩ := World.withdraw_eq_some.mp hs
    obtain ⟨hm, rfl⟩ := (burnPendingAmount_eq_some hstd).mp hburn
    obtain ⟨hm₂, rfl⟩ := (World.safeTransfer_eq_some hstd).mp hpay
    rw [hw']
    exact (h.burned hm).move hm₂
  | redeemdType2 data =>
    obtain ⟨total, -, hm, hw'⟩ := World.redeemdType2_spec hstd hs
    rw [hw']
    exact h.move hm
  | burnCommits data =>
    obtain ⟨-, wal, total, -, -, hw'⟩ := World.burnCommits_spec hs
    rw [hw']
    exact h
  | challengeBurnCommits commitHash v r s =>
    obtain ⟨-, wal, total, -, -, hw'⟩ := World.challengeBurnCommits_spec hs
    rw [hw']
    exact h
  | transfer recipient amount =>
    obtain ⟨-, hm, hw'⟩ := World.deposit_spec hstd hs
    rw [hw']
    exact h.move hm

theorem step_bounded (hstd : evm.transfer = Ledger.standardTransfer) (h : w.balances.Bounded)
    (tx : Tx Hash) : (w.step evm tx).balances.Bounded := by
  cases hs : w.exec evm tx with
  | none =>
    rw [World.step_of_none hs]
    exact h
  | some w' =>
    have hbounded := exec_bounded hstd h hs
    rw [World.step_of_some hs]
    exact hbounded

/-! ## What the wallet is good for -/

/-- The batch is signed by the owner, and none of it is settled, in or before the batch. -/
structure RedeemDue (evm : Evm Hash) (w : World Hash) (toAddress : Address)
    (rs : List RedeemRecord) : Prop where
  signed : ∀ r ∈ rs, r.SignedBy evm w.wallet toAddress
  apart : (rs.map RedeemRecord.index).Nodup
  open_ : ∀ r ∈ rs, ¬ w.IsClaimed evm r.index ∧ ¬ w.IsBuffered evm r.index

/-- Only the clock and the word size stand in the way of the wallet's calls. -/
structure Honours (evm : Evm Hash) (w : World Hash) : Prop where
  starts : ∀ t, (w.startEpoch evm t).isSome ↔ w.wallet.epochExpiresBy ≤ t ∧
    w.wallet.currentEpoch.toNat + 1 < 2 ^ 256 ∧
    t.toNat + w.wallet.epochDuration.toNat < 2 ^ 256
  withdraws : ∀ sender t, (w.withdraw evm sender t).isSome ↔
    sender = w.wallet.owner ∧ w.wallet.epochDuration ≤ t
  /-- A batch for indexes in the range of the reserves is paid exactly when it is due. -/
  redeems : ∀ data, (∀ r ∈ redeemRecords data,
      Backed w.wallet.indexValue.toNat w.wallet.reserves.toNat r.index) →
    ((w.redeemdType2 evm data).isSome ↔
      RedeemDue evm w (toAddressOf data) (redeemRecords data))

omit [DecidableEq Hash] [Inhabited Hash] in
/-- With a supply that fits a word, nothing but a lack of funds stops the two calls that burn. -/
theorem Ledger.Bounded.burns (h : w.balances.Bounded)
    (hle : w.wallet.pendingBurnAmount ≤ w.getBalance) :
    w.balances.standardTransfer w.this 0 w.wallet.pendingBurnAmount = .moved :=
  h.moved hle 0

omit [DecidableEq Hash] [Inhabited Hash] in
theorem startEpoch_honoured (hstd : evm.transfer = Ledger.standardTransfer)
    (h : w.balances.Bounded) (hle : w.wallet.pendingBurnAmount ≤ w.getBalance) (t : U256) :
    (w.startEpoch evm t).isSome ↔ w.wallet.epochExpiresBy ≤ t ∧
      w.wallet.currentEpoch.toNat + 1 < 2 ^ 256 ∧
      t.toNat + w.wallet.epochDuration.toNat < 2 ^ 256 := by
  simp only [Option.isSome_iff_exists, World.startEpoch_eq_some, burnPendingAmount_eq_some hstd]
  constructor
  · rintro ⟨w', ht, w₁, ⟨-, rfl⟩, epoch, expires, hepoch, hexpires, -⟩
    exact ⟨ht, hepoch ▸ epoch.isLt, hexpires ▸ expires.isLt⟩
  · rintro ⟨ht, hepoch, hexpires⟩
    obtain ⟨epoch, hepoch⟩ := Word.exists_toNat.mpr hepoch
    obtain ⟨expires, hexpires⟩ := Word.exists_toNat.mpr hexpires
    exact ⟨_, ht, _, ⟨.inr (h.burns hle), rfl⟩, epoch, expires, hepoch, hexpires, rfl⟩

omit [DecidableEq Hash] [Inhabited Hash] in
theorem withdraw_honoured (hstd : evm.transfer = Ledger.standardTransfer)
    (h : w.balances.Bounded) (hle : w.wallet.pendingBurnAmount ≤ w.getBalance) (sender : Address)
    (t : U256) : (w.withdraw evm sender t).isSome ↔
      sender = w.wallet.owner ∧ w.wallet.epochDuration ≤ t := by
  have hburns := h.burns hle
  have hcovered : w.WithdrawCovered :=
    ⟨.inr hburns, (h.burned (.inr hburns)).moved (BitVec.le_refl _) w.wallet.owner⟩
  rw [withdraw_isSome hstd]
  constructor
  · rintro ⟨hs, ht, -⟩
    exact ⟨hs, ht⟩
  · rintro ⟨hs, ht⟩
    exact ⟨hs, ht, hcovered⟩

section Redeem

variable {value : ℕ} {g : EpochRecord} {b : Book U32 value} {toAddress : Address}
  {rs : List RedeemRecord}

omit [DecidableEq Hash] [Inhabited Hash] in
/-- The loop asks for a batch that is due, and for nothing else. -/
theorem redeemable_iff (hk : Function.Injective evm.keccak256)
    (hfits : rs.length * w.wallet.indexValue.toNat < 2 ^ 256) :
    Redeemable evm toAddress (w.wallet, 0) rs ↔ RedeemDue evm w toAddress rs := by
  have hinj : Function.Injective fun i => evm.claimIdentifier i w.wallet.currentEpoch :=
    fun i j hij => ((claimIdentifier_inj hk).mp hij).1
  have hkeys : redeemKeys evm w.wallet.currentEpoch rs =
      (rs.map RedeemRecord.index).map fun i => evm.claimIdentifier i w.wallet.currentEpoch := by
    rw [List.map_map]
    rfl
  constructor
  · intro h
    refine ⟨h.signed, List.Nodup.of_map _ (hkeys ▸ h.nodup), fun r hr => ?_⟩
    obtain ⟨hclaimed, htime⟩ := h.fresh _ (List.mem_map_of_mem hr)
    refine ⟨fun hc => ?_, fun hb => hb htime⟩
    cases hclaimed.symm.trans hc
  · intro h
    refine ⟨?_, fun k hkin => ?_, h.signed, by simpa using hfits⟩
    · show (redeemKeys evm w.wallet.currentEpoch rs).Nodup
      rw [hkeys]
      exact h.apart.map hinj
    · obtain ⟨r, hr, rfl⟩ := List.mem_map.mp hkin
      obtain ⟨hclaimed, hbuffered⟩ := h.open_ r hr
      exact ⟨Bool.eq_false_of_not_eq_true hclaimed, not_not.mp hbuffered⟩

omit [DecidableEq Hash] [Inhabited Hash] in
/-- A funded wallet has the money for every batch that is due. -/
theorem Funded.affords (hk : Function.Injective evm.keccak256) (h : Funded evm g b w)
    (hdue : RedeemDue evm w toAddress rs) (hbacked : ∀ r ∈ rs,
      Backed w.wallet.indexValue.toNat w.wallet.reserves.toNat r.index) :
    rs.length * w.wallet.indexValue.toNat ≤ w.getBalance.toNat := by
  have hinj : Function.Injective fun i => evm.claimIdentifier i w.wallet.currentEpoch :=
    fun i j hij => ((claimIdentifier_inj hk).mp hij).1
  obtain ⟨s, hc, hb, htotal, hidx, -⟩ := h.book.fresh_units hk (rs.map RedeemRecord.index) rfl
    (hdue.apart.map hinj) (fun k hkin => by
      obtain ⟨i, hi, rfl⟩ := List.mem_map.mp hkin
      obtain ⟨r, hr, rfl⟩ := List.mem_map.mp hi
      obtain ⟨hclaimed, hbuffered⟩ := hdue.open_ r hr
      exact ⟨Bool.eq_false_of_not_eq_true hclaimed, not_not.mp hbuffered⟩) rfl
  rw [List.length_map] at htotal
  have hcur : ∀ i ∈ s, Backed value g.reserves i ∧ (w.wallet.reserves = 0 → value = 0) := by
    intro i hi
    obtain ⟨r, hr, rfl⟩ := List.mem_map.mp (hidx i hi)
    exact h.backed_of_current (hbacked r hr)
  rw [← htotal]
  rcases h.funds with ⟨hres, -⟩ | ⟨-, hfunds⟩
  · -- the reserves are gone, so the indexes are worth nothing
    rcases s.eq_empty_or_nonempty with rfl | ⟨i, hi⟩
    · simp
    · rw [(hcur i hi).2 hres, Nat.zero_mul]
      exact Nat.zero_le _
  · -- what is settled after the batch is still within half of the reserves
    have hall : ∀ i ∈ (b.claim s hc hb).claimed ∪ (b.claim s hc hb).buffered,
        Backed value g.reserves i := by
      intro i hi
      simp only [Book.claim, Finset.mem_union] at hi
      rcases hi with (hi | hi) | hi
      · exact h.backed i (Finset.mem_union_left _ hi)
      · exact (hcur i hi).1
      · exact h.backed i (Finset.mem_union_right _ hi)
    have hpaid := (b.claim s hc hb).paid_add_pending_le
    have hhalf := Book.mul_card_le (fun i j hij => BitVec.eq_of_toNat_eq hij) hall
    have hclaim : (b.claim s hc hb).paid = g.redeemed + value * s.card :=
      congrArg (· + value * s.card) h.book.paid
    rw [hclaim] at hpaid
    rw [Nat.mul_assoc] at hhalf
    omega

omit [Inhabited Hash] in
theorem Funded.redeems (hk : Function.Injective evm.keccak256)
    (hstd : evm.transfer = Ledger.standardTransfer) (h : Funded evm g b w)
    (hbounded : w.balances.Bounded) {data : List UInt8} (hbacked : ∀ r ∈ redeemRecords data,
      Backed w.wallet.indexValue.toNat w.wallet.reserves.toNat r.index) :
    (w.redeemdType2 evm data).isSome ↔ RedeemDue evm w (toAddressOf data) (redeemRecords data) := by
  rw [World.redeemdType2_isSome, hstd]
  constructor
  · rintro ⟨hredeemable, -⟩
    have hfits := hredeemable.fits
    rw [show (0 : U256).toNat = 0 from rfl, Nat.zero_add] at hfits
    exact (redeemable_iff hk hfits).mp hredeemable
  · intro hdue
    have hafford := h.affords hk hdue hbacked
    have hfits := hafford.trans_lt w.getBalance.isLt
    refine ⟨(redeemable_iff hk hfits).mpr hdue, ?_⟩
    have hle : BitVec.ofNat 256 ((redeemRecords data).length * w.wallet.indexValue.toNat) ≤
        w.balances w.this := by
      rw [BitVec.le_def, BitVec.toNat_ofNat, Nat.mod_eq_of_lt hfits]
      exact hafford
    rw [hbounded.moved hle]
    nofun

end Redeem

/-! ## Runs -/

omit [Inhabited Hash] in
theorem Funded.honours {value : ℕ} {g : EpochRecord} {b : Book U32 value}
    (hk : Function.Injective evm.keccak256) (hstd : evm.transfer = Ledger.standardTransfer)
    (h : Funded evm g b w) (hbounded : w.balances.Bounded) : Honours evm w where
  starts := startEpoch_honoured hstd hbounded h.solvent.covered
  withdraws := withdraw_honoured hstd hbounded h.solvent.covered
  redeems _ hbacked := h.redeems hk hstd hbounded hbacked

/-- With a burn buffer that is not empty and a standard currency of bounded supply, in every run in
which the clock never goes back and the owner's signed records stay in range, the wallet honours its
commitments: whatever else was called, an epoch can be started as soon as the last one has expired,
the owner can withdraw, and a batch for indexes in range is paid exactly when it is signed and not
settled yet. -/
theorem honours_of_backed (hk : Function.Injective evm.keccak256)
    (hstd : evm.transfer = Ledger.standardTransfer) (this : Address)
    (epochDuration indexValue : U256) (owner currency : Address) (burnBuffer : U256)
    (hpos : 0 < burnBuffer) {balances : Ledger} (hsupply : balances.Bounded) (now : U256)
    (txs : List (Tx Hash))
    (hchron : World.Chronological evm
      (.init this epochDuration indexValue owner currency burnBuffer balances now) txs)
    (hbacked : Run.Always (World.step evm) (World.BackedCall evm)
      (.init this epochDuration indexValue owner currency burnBuffer balances now) txs) :
    Honours evm (World.run evm
      (.init this epochDuration indexValue owner currency burnBuffer balances now) txs) := by
  set w : World Hash := .init this epochDuration indexValue owner currency burnBuffer balances now
    with hw
  have hok := (hchron.watched evm {}).and ((Run.always_watch (World.BackedCall evm) _ _).mpr hbacked)
  have hinit : FundedRun evm indexValue.toNat ({}, w) :=
    ⟨hpos, .empty, represents_init this epochDuration indexValue owner currency burnBuffer
      balances now, by simp [Book.empty], Or.inl ⟨rfl, rfl⟩⟩
  obtain ⟨-, b, hfunded⟩ := Run.final_inv (FundedRun.step hk hstd) hinit hok
  have hstep : ∀ (w : World Hash) (tx : Tx Hash), w.balances.Bounded → True →
      (w.step evm tx).balances.Bounded := fun _ tx h _ => step_bounded hstd h tx
  have hbounded : (w.run evm txs).balances.Bounded :=
    Run.final_inv hstep hsupply (Run.always_trivial w txs)
  have hsame : (World.observed evm w txs).2 = w.run evm txs := Run.final_watch_snd _ _
  rw [← hsame] at hbounded ⊢
  exact hfunded.honours hk hstd hbounded

theorem bounded_plainWorld : plainWorld.balances.Bounded := by
  intro accounts
  have hvalue : ∀ a ∈ accounts, (plainWorld.balances a).toNat = if 1 = a then 1000 else 0 := by
    intro a _
    show (if a = 1 then (1000 : U256) else 0).toNat = _
    by_cases h : a = 1
    · rw [if_pos h, if_pos h.symm]
      rfl
    · rw [if_neg h, if_neg (Ne.symm h)]
      rfl
  rw [Finset.sum_congr rfl hvalue, Finset.sum_ite_eq]
  split
  · decide
  · decide

theorem honours_of_backed_settledTxs : Honours plainEvm (plainWorld.run plainEvm settledTxs) :=
  honours_of_backed (fun _ _ h => h) rfl 1 604800 30 7 9 86400 (by decide) bounded_plainWorld 0
    settledTxs (by decide +kernel) (by decide +kernel)

end Dse
