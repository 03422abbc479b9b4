import Dse.Wallet.Proofs.EpochProofs

/-!
# A wallet that cannot burn

`burnPendingAmount` sends the pending amount to address 0, on which many currencies revert. Then
`startEpoch` and `withdraw` revert as long as there is anything to burn, and a challenge, the only
way to take a commitment out of the burn buffer, compares the buffer time with the clock and so
reverts at any present-day time: the first commitment that is put in the buffer locks the wallet
for good, where an index is worth anything.
-/

namespace Dse

variable {Hash : Type} {evm : Evm Hash}

/-- The currency reverts a transfer of tokens to address 0. -/
def Evm.RevertsAtZero (evm : Evm Hash) : Prop :=
  ∀ balances sender amount, 0 < amount.toNat → evm.transfer balances sender 0 amount = .reverted

/-- The longest buffer time of a record. -/
def Wallet.longestBuffer (wallet : Wallet Hash) : ℕ :=
  wallet.burnBuffer.toNat + invDisadvantageBuffer.toNat

/-- The clock is past every buffer time. -/
structure World.Late (w : World Hash) : Prop where
  buffered : ∀ k, (w.wallet.burnBufferTime k).toNat ≤ w.wallet.longestBuffer
  clock : w.wallet.longestBuffer ≤ w.now.toNat

section Burn

variable {w w' : World Hash}

/-- With something to burn, `burnPendingAmount` reverts. -/
theorem Evm.RevertsAtZero.burnPendingAmount (h : evm.RevertsAtZero)
    (hp : 0 < w.wallet.pendingBurnAmount.toNat) : w.burnPendingAmount evm = none := by
  have hne : w.wallet.pendingBurnAmount ≠ 0 := by
    intro heq
    rw [heq] at hp
    exact absurd hp (by decide)
  unfold World.burnPendingAmount World.transfer
  rw [if_pos hne, h _ _ _ hp]
  rfl

theorem Evm.RevertsAtZero.startEpoch (h : evm.RevertsAtZero)
    (hp : 0 < w.wallet.pendingBurnAmount.toNat) (t : U256) : w.startEpoch evm t = none := by
  by_contra hne
  obtain ⟨w', hs⟩ := Option.ne_none_iff_exists'.mp hne
  obtain ⟨-, w₁, hburn, -⟩ := World.startEpoch_eq_some.mp hs
  cases (h.burnPendingAmount hp).symm.trans hburn

theorem Evm.RevertsAtZero.withdraw (h : evm.RevertsAtZero)
    (hp : 0 < w.wallet.pendingBurnAmount.toNat) (sender : Address) (t : U256) :
    w.withdraw evm sender t = none := by
  by_contra hne
  obtain ⟨w', hs⟩ := Option.ne_none_iff_exists'.mp hne
  obtain ⟨-, -, w₁, hburn, -⟩ := World.withdraw_eq_some.mp hs
  cases (h.burnPendingAmount hp).symm.trans hburn

end Burn

variable [DecidableEq Hash] [Inhabited Hash] {w w' w₀ : World Hash}

/-- A challenge that does anything reverts once the clock is past every buffer time. -/
theorem World.Late.challenge (h : w.Late) {t : U256} (ht : w.now ≤ t) {commitHash : List Hash}
    {v : List UInt8} {r s : List U256}
    (hs : w.challengeBurnCommits evm t commitHash v r s = some w') : commitHash = [] := by
  obtain ⟨hmap, wal, total, hl, -, -⟩ := challengeBurnCommits_spec hs
  cases commitHash with
  | nil => rfl
  | cons k ks =>
    have hopen := (challengeLoop_spec hl).open_ k (by rw [hmap]; exact List.mem_cons_self)
    have hbuffered := h.buffered k
    have hclock := h.clock
    rw [BitVec.lt_def] at hopen
    rw [BitVec.le_def] at ht
    have hold : t.toNat < (w.wallet.burnBufferTime k).toNat := hopen
    omega

/-! ## Runs -/

/-- The wallet has been locked since the state `w₀`. -/
structure LockedSince (evm : Evm Hash) (w₀ w : World Hash) : Prop where
  epoch : w.wallet.currentEpoch = w₀.wallet.currentEpoch
  expires : w.wallet.epochExpiresBy = w₀.wallet.epochExpiresBy
  reserves : w.wallet.reserves = w₀.wallet.reserves
  /-- What is to be burnt never gets less. -/
  pending : w₀.wallet.pendingBurnAmount.toNat ≤ w.wallet.pendingBurnAmount.toNat
  noStart : ∀ t, w.startEpoch evm t = none
  noWithdraw : ∀ sender t, w.withdraw evm sender t = none
  noChallenge : ∀ t commitHash v r s, w.now ≤ t → commitHash ≠ [] →
    w.challengeBurnCommits evm t commitHash v r s = none

/-- No transaction adds a longer buffer time. -/
theorem World.Late.exec_buffered (h : w.Late) {tx : Tx Hash} (ht : w.now ≤ tx.timestamp)
    {w' : World Hash} (hs : w.exec evm tx = some w') (k : Hash) :
    (w'.wallet.burnBufferTime k).toNat ≤ w.wallet.longestBuffer := by
  obtain ⟨sender, t, call⟩ := tx
  cases call with
  | startEpoch =>
    obtain ⟨-, -, -, -, hw'⟩ := startEpoch_spec hs
    rw [hw']
    exact h.buffered k
  | withdraw =>
    obtain ⟨-, -, hw'⟩ := withdraw_spec hs
    rw [hw']
    exact h.buffered k
  | redeemdType2 data =>
    obtain ⟨total, hl, hw'⟩ := redeemdType2_loop hs
    have hframe : w'.wallet = { w.wallet with claimed := w'.wallet.claimed } :=
      (redeemLoop_spec hl).frame
    have hkept : w'.wallet.burnBufferTime = w.wallet.burnBufferTime := by rw [hframe]
    rw [hkept]
    exact h.buffered k
  | burnCommits data =>
    obtain ⟨-, wal, total, hl, -, hw'⟩ := burnCommits_spec hs
    have hkept : w'.wallet.burnBufferTime = wal.burnBufferTime := by rw [hw']
    rw [hkept]
    by_cases hk : k ∈ burnKeys evm w.wallet.currentEpoch (burnRecords data)
    · obtain ⟨r, -, rfl, hstored⟩ := (burnLoop_spec hl).stored k hk
      have htime : (wal.burnBufferTime (evm.claimIdentifier r.index w.wallet.currentEpoch)).toNat =
          r.bufferTime w.wallet := BurnRecord.toNat_bTime hstored.1
      rw [htime]
      unfold BurnRecord.bufferTime Wallet.longestBuffer
      split
      · exact le_rfl
      · omega
    · rw [((burnLoop_spec hl).others k hk).1]
      exact h.buffered k
  | challengeBurnCommits commitHash v r s =>
    obtain rfl := h.challenge ht hs
    obtain ⟨-, wal, total, hl, -, hw'⟩ := challengeBurnCommits_spec hs
    obtain ⟨rfl, -⟩ : w.wallet = wal ∧ _ := Prod.mk.inj (Option.some.inj hl)
    rw [hw']
    exact h.buffered k
  | transfer recipient amount =>
    have hw' : w' = { w with balances := w'.balances } := deposit_frame hs
    rw [hw']
    exact h.buffered k

/-- No transaction takes the clock back or adds a longer buffer time. -/
theorem World.Late.step (h : w.Late) {tx : Tx Hash} (ht : w.now ≤ tx.timestamp) :
    (w.step evm tx).Late := by
  have hclock : w.wallet.longestBuffer ≤ tx.timestamp.toNat :=
    h.clock.trans (BitVec.le_def.mp ht)
  cases hs : w.exec evm tx with
  | none =>
    rw [step_of_none hs]
    exact ⟨h.buffered, hclock⟩
  | some w' =>
    have hbuffer : w'.wallet.longestBuffer = w.wallet.longestBuffer := by
      unfold Wallet.longestBuffer
      rw [(exec_same hs).1.burnBuffer]
    rw [step_of_some hs]
    constructor
    · intro k
      show (w'.wallet.burnBufferTime k).toNat ≤ w'.wallet.longestBuffer
      rw [hbuffer]
      exact h.exec_buffered ht hs k
    · show w'.wallet.longestBuffer ≤ tx.timestamp.toNat
      rw [hbuffer]
      exact hclock

/-- What locks the wallet: something to burn, at a time past every buffer time. -/
theorem World.Late.locked (h : w.Late) (hzero : evm.RevertsAtZero)
    (hpos : 0 < w.wallet.pendingBurnAmount.toNat) : LockedSince evm w w where
  epoch := rfl
  expires := rfl
  reserves := rfl
  pending := le_rfl
  noStart := hzero.startEpoch hpos
  noWithdraw := hzero.withdraw hpos
  noChallenge := by
    intro t commitHash v r s ht hne
    by_contra hsome
    obtain ⟨w', hs⟩ := Option.ne_none_iff_exists'.mp hsome
    exact hne (h.challenge ht hs)

/-- Apart from the calls that burn, no transaction lowers what is to be burnt. -/
theorem World.Late.pending_le (h : w.Late) {tx : Tx Hash} (ht : w.now ≤ tx.timestamp)
    (hs : w.exec evm tx = some w') (hstart : tx.call ≠ .startEpoch)
    (hwithdraw : tx.call ≠ .withdraw) :
    w.wallet.pendingBurnAmount.toNat ≤ w'.wallet.pendingBurnAmount.toNat := by
  obtain ⟨sender, t, call⟩ := tx
  cases call with
  | startEpoch => exact absurd rfl hstart
  | withdraw => exact absurd rfl hwithdraw
  | redeemdType2 data =>
    obtain ⟨total, hl, -⟩ := redeemdType2_loop hs
    have hframe : w'.wallet = { w.wallet with claimed := w'.wallet.claimed } :=
      (redeemLoop_spec hl).frame
    rw [hframe]
  | burnCommits data =>
    obtain ⟨-, wal, total, hl, hpend, -⟩ := burnCommits_spec hs
    obtain ⟨-, -, -, -, -, hpd⟩ := eq_of_buffers w.wallet wal (burnLoop_spec hl).frame
    rw [← hpend, hpd]
    exact Nat.le_add_right _ _
  | challengeBurnCommits commitHash v r s =>
    obtain rfl := h.challenge ht hs
    obtain ⟨-, wal, total, hl, hpend, -⟩ := challengeBurnCommits_spec hs
    obtain ⟨rfl, rfl⟩ : w.wallet = wal ∧ 0 = total := Prod.mk.inj (Option.some.inj hl)
    exact hpend.le
  | transfer recipient amount =>
    have hw' : w' = { w with balances := w'.balances } := deposit_frame hs
    rw [hw']

/-- A locked wallet stays so whatever is called next. -/
theorem LockedSince.step (h : LockedSince evm w₀ w) (hlate : w.Late) (hzero : evm.RevertsAtZero)
    (hpos : 0 < w₀.wallet.pendingBurnAmount.toNat) {tx : Tx Hash} (ht : w.now ≤ tx.timestamp) :
    LockedSince evm w₀ (w.step evm tx) := by
  have hlate' : (w.step evm tx).Late := hlate.step ht
  suffices hkept : SameEpoch w (w.step evm tx) ∧
      w.wallet.pendingBurnAmount.toNat ≤ (w.step evm tx).wallet.pendingBurnAmount.toNat by
    obtain ⟨hsame, hpending⟩ := hkept
    have hpending' := h.pending.trans hpending
    have hnow := hlate'.locked hzero (hpos.trans_le hpending')
    constructor
    · exact hsame.epoch.trans h.epoch
    · exact hsame.expires.trans h.expires
    · exact hsame.reserves.trans h.reserves
    · exact hpending'
    · exact hnow.noStart
    · exact hnow.noWithdraw
    · exact hnow.noChallenge
  cases hs : w.exec evm tx with
  | none =>
    rw [World.step_of_none hs]
    exact ⟨⟨rfl, rfl, rfl⟩, le_rfl⟩
  | some w' =>
    have hstart : tx.call ≠ .startEpoch := by
      intro heq
      simp only [World.exec, heq, h.noStart] at hs
      cases hs
    have hwithdraw : tx.call ≠ .withdraw := by
      intro heq
      simp only [World.exec, heq, h.noWithdraw] at hs
      cases hs
    obtain ⟨hepoch, hexpires, hreserves⟩ := exec_sameEpoch hs hstart hwithdraw
    have hpending := hlate.pending_le ht hs hstart hwithdraw
    rw [World.step_of_some hs]
    exact ⟨⟨hepoch, hexpires, hreserves⟩, hpending⟩

/-- A locked wallet stays so through any run. -/
theorem LockedSince.run (h : LockedSince evm w₀ w) (hlate : w.Late) (hzero : evm.RevertsAtZero)
    (hpos : 0 < w₀.wallet.pendingBurnAmount.toNat) {txs : List (Tx Hash)}
    (hchron : w.Chronological evm txs) : LockedSince evm w₀ (w.run evm txs) := by
  have hstep : ∀ (w : World Hash) (tx : Tx Hash), LockedSince evm w₀ w ∧ w.Late →
      w.now ≤ tx.timestamp → LockedSince evm w₀ (w.step evm tx) ∧ (w.step evm tx).Late :=
    fun _ _ hinv ht => ⟨hinv.1.step hinv.2 hzero hpos ht, hinv.2.step ht⟩
  exact (Run.final_inv hstep ⟨h, hlate⟩ hchron).1

omit [Inhabited Hash] in
/-- A batch of commitments that are worth something leaves something to burn. -/
theorem burnCommits_pending {t : U256} {data : List UInt8}
    (hs : w.burnCommits evm t data = some w') (hne : burnRecords data ≠ [])
    (hvalue : w.wallet.indexValue ≠ 0) : 0 < w'.wallet.pendingBurnAmount.toNat := by
  obtain ⟨-, wal, total, hl, hpend, -⟩ := World.burnCommits_spec hs
  have htotal : total.toNat = (burnRecords data).length * w.wallet.indexValue.toNat :=
    (burnLoop_spec hl).amount
  have hlength : 0 < (burnRecords data).length := List.length_pos_iff.mpr hne
  have hpos : 0 < w.wallet.indexValue.toNat :=
    Nat.pos_of_ne_zero fun hz => hvalue (BitVec.eq_of_toNat_eq hz)
  have hworth : 0 < total.toNat := htotal ▸ Nat.mul_pos hlength hpos
  omega

/-- On a present-day clock and with a currency that reverts a transfer to address 0, a wallet with
something to burn is locked: no epoch ever starts, the owner never withdraws, no challenge succeeds
and what is to be burnt never gets less. Something is to be burnt as soon as a commitment worth
anything is in the burn buffer. -/
theorem burn_locks (hzero : evm.RevertsAtZero) {this owner currency : Address}
    {epochDuration indexValue burnBuffer now : U256} {balances : Ledger}
    (hlate : burnBuffer.toNat + invDisadvantageBuffer.toNat ≤ now.toNat) (txs₁ : List (Tx Hash)) :
    let w₀ : World Hash :=
      .init this epochDuration indexValue owner currency burnBuffer balances now
    (∀ tx data w', tx.call = .burnCommits data → burnRecords data ≠ [] → indexValue ≠ 0 →
      (w₀.run evm txs₁).exec evm tx = some w' → 0 < w'.wallet.pendingBurnAmount.toNat) ∧
    (0 < (w₀.run evm txs₁).wallet.pendingBurnAmount.toNat → ∀ txs₂,
      w₀.Chronological evm (txs₁ ++ txs₂) →
        LockedSince evm (w₀.run evm txs₁) (w₀.run evm (txs₁ ++ txs₂))) := by
  intro w₀
  constructor
  · intro tx data w' hcall hne hvalue hs
    rw [World.exec, hcall] at hs
    have hsame : (w₀.run evm txs₁).wallet.indexValue = indexValue :=
      (run_same evm w₀ txs₁).indexValue
    exact burnCommits_pending hs hne (hsame ▸ hvalue)
  · intro hpending txs₂ hchron
    have hinit : w₀.Late := by
      constructor
      · intro k
        exact Nat.zero_le _
      · exact hlate
    obtain ⟨hbefore, hafter⟩ := (Run.always_append w₀ txs₁ txs₂).mp hchron
    have hstep : ∀ (w : World Hash) (tx : Tx Hash), w.Late → w.now ≤ tx.timestamp →
        (w.step evm tx).Late := fun _ _ h ht => h.step ht
    have hreached : (w₀.run evm txs₁).Late := Run.final_inv hstep hinit hbefore
    have hsplit : w₀.run evm (txs₁ ++ txs₂) = (w₀.run evm txs₁).run evm txs₂ :=
      List.foldl_append
    rw [hsplit]
    exact (hreached.locked hzero hpending).run hreached hzero hpending hafter

/-- `plainEvm` with a currency that reverts a transfer to address 0. -/
def zeroEvm : Evm (List UInt8) where
  keccak256 := plainEvm.keccak256
  ecrecover := plainEvm.ecrecover
  transfer := fun balances sender recipient amount =>
    if recipient = 0 then .reverted else balances.standardTransfer sender recipient amount

theorem zeroEvm_revertsAtZero : zeroEvm.RevertsAtZero := by
  intro balances sender amount _
  simp only [zeroEvm, if_true]

/-- An epoch starts. -/
def epochTxs : List (Tx (List UInt8)) := [⟨3, 1650000000, .startEpoch⟩]

/-- The owner burns a commitment of index 1. -/
def lockTx : Tx (List UInt8) := ⟨7, 1650000010, .burnCommits burnData⟩

/-- An epoch later, the owner wants a new epoch, and then the money back. -/
def stuckTxs : List (Tx (List UInt8)) :=
  [⟨3, 1650604810, .startEpoch⟩, ⟨7, 1650604820, .withdraw⟩]

/-- `plainWorld`, deployed at a present-day time. -/
def lateWorld : World (List UInt8) :=
  .init 1 604800 30 7 9 86400 (fun a => if a = 1 then 1000 else 0) 1650000000

theorem burn_locks_lockTx :
    (∃ w', (lateWorld.run zeroEvm epochTxs).exec zeroEvm lockTx = some w' ∧
      0 < w'.wallet.pendingBurnAmount.toNat) ∧
    LockedSince zeroEvm (lateWorld.run zeroEvm (epochTxs ++ [lockTx]))
      (lateWorld.run zeroEvm (epochTxs ++ [lockTx] ++ stuckTxs)) := by
  have hlate : (86400 : U256).toNat + invDisadvantageBuffer.toNat ≤ (1650000000 : U256).toNat := by
    decide +kernel
  constructor
  · obtain ⟨w', hs⟩ := Option.isSome_iff_exists.mp
      (show ((lateWorld.run zeroEvm epochTxs).exec zeroEvm lockTx).isSome by decide +kernel)
    exact ⟨w', hs, (burn_locks zeroEvm_revertsAtZero hlate epochTxs).1 lockTx burnData w' rfl
      (by decide +kernel) (by decide) hs⟩
  · exact (burn_locks zeroEvm_revertsAtZero hlate (epochTxs ++ [lockTx])).2 (by decide +kernel)
      stuckTxs (by decide +kernel)

end Dse
