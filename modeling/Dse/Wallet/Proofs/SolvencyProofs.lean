import Dse.Wallet.Proofs.AccountProofs
import Dse.Wallet.Proofs.LockProofs
import Dse.Wallet.Proofs.WindowProofs

/-!
# Solvency

Half of the reserves backs the indices of an epoch: index `i` is backed when `2 * indexValue * i`
is within the reserves. No entry point checks this. It is therefore a condition on the records the
owner signs (`BackedCall`), and under it the wallet stays solvent through every run
(`solvent_of_backed`): the units of the epoch's book have distinct ranks in the backed range, so
together they are worth at most half of the reserves (`Book.mul_card_le`).
-/

namespace Dse

variable {Hash : Type} {evm : Evm Hash}

/-- The index is in the range that half of `reserves` backs. -/
def Backed (value reserves : ℕ) (i : U32) : Prop :=
  1 ≤ i.toNat ∧ 2 * value * i.toNat ≤ reserves

/-- Every record that the owner signed names an index in the range of the current reserves. -/
def World.BackedCall (evm : Evm Hash) (w : World Hash) (tx : Tx Hash) : Prop :=
  match tx.call with
  | .redeemdType2 data => ∀ r ∈ redeemRecords data, r.SignedBy evm w.wallet (toAddressOf data) →
      Backed w.wallet.indexValue.toNat w.wallet.reserves.toNat r.index
  | .burnCommits data => ∀ r ∈ burnRecords data, r.SignedBy evm w.wallet (toAddressOf data) →
      Backed w.wallet.indexValue.toNat w.wallet.reserves.toNat r.index
  | _ => True

instance (value reserves : ℕ) (i : U32) : Decidable (Backed value reserves i) :=
  inferInstanceAs (Decidable (_ ∧ _))

instance (w : World Hash) (tx : Tx Hash) : Decidable (w.BackedCall evm tx) := by
  unfold World.BackedCall
  split <;> infer_instance

/-- What solvency promises about the epoch on record. -/
structure Solvent (evm : Evm Hash) (g : EpochRecord) (w : World Hash) : Prop where
  half : 2 * (g.redeemed + w.wallet.pendingBurnAmount.toNat) ≤ g.reserves
  settled : ∀ i, w.IsClaimed evm i ∨ w.IsBuffered evm i →
    Backed w.wallet.indexValue.toNat g.reserves i
  /-- The burn transfer never lacks funds. -/
  covered : w.wallet.pendingBurnAmount ≤ w.getBalance

/-- The invariant: every settled unit is backed by the epoch's reserves, and what `redeemdType2` did
not pay out of them is still there, unless they were withdrawn. -/
structure Funded {value : ℕ} (evm : Evm Hash) (g : EpochRecord) (b : Book U32 value)
    (w : World Hash) : Prop where
  book : Represents evm g b w
  backed : ∀ i ∈ b.claimed ∪ b.buffered, Backed value g.reserves i
  funds : (w.wallet.reserves = 0 ∧ w.wallet.pendingBurnAmount = 0) ∨
    (w.wallet.reserves.toNat = g.reserves ∧ g.reserves ≤ w.getBalance.toNat + g.redeemed)

section Step

variable {value : ℕ} {g : EpochRecord} {b : Book U32 value} {w w' : World Hash}

/-- A funded wallet is solvent. -/
theorem Funded.solvent (h : Funded evm g b w) : Solvent evm g w := by
  have hsum : 2 * (g.redeemed + w.wallet.pendingBurnAmount.toNat) ≤ g.reserves := by
    have h1 := b.paid_add_pending_le
    have h2 := Book.mul_card_le (fun i j hij => BitVec.eq_of_toNat_eq hij) h.backed
    rw [h.book.paid, h.book.pending] at h1
    rw [Nat.mul_assoc] at h2
    omega
  refine ⟨hsum, ?_, ?_⟩
  · intro i hi
    rw [h.book.value_eq]
    refine h.backed i (Finset.mem_union.mpr ?_)
    exact hi.imp (h.book.claimed i).mpr (h.book.buffered i).mpr
  · rcases h.funds with ⟨-, hp⟩ | ⟨-, hf⟩
    · rw [hp]
      exact Word.zero_le _
    · rw [BitVec.le_def]
      omega

/-- Indices in the range of the current reserves are backed by the epoch's, and worthless when the
reserves were withdrawn. -/
theorem Funded.backed_of_current (h : Funded evm g b w) {i : U32}
    (hi : Backed w.wallet.indexValue.toNat w.wallet.reserves.toNat i) :
    Backed value g.reserves i ∧ (w.wallet.reserves = 0 → value = 0) := by
  rw [h.book.value_eq] at hi
  obtain ⟨h1, h2⟩ := hi
  have hzero : w.wallet.reserves = 0 → value = 0 := by
    intro hr
    rw [hr] at h2
    have h3 : 2 * value * i.toNat = 0 := Nat.le_zero.mp h2
    rcases Nat.mul_eq_zero.mp h3 with h4 | h4
    · omega
    · omega
  refine ⟨⟨h1, ?_⟩, hzero⟩
  rcases h.funds with ⟨hr, -⟩ | ⟨hr, -⟩
  · rw [hzero hr]
    simp
  · exact hr ▸ h2

variable [DecidableEq Hash] [Inhabited Hash]

omit [DecidableEq Hash] [Inhabited Hash] in
/-- The funds are still there when the reserves stay as they are, the balance falls by no more than
what is paid out, and nothing is put aside from reserves that were withdrawn. -/
theorem Funded.funds_kept (h : Funded evm g b w) {paid : ℕ}
    (hres : w'.wallet.reserves = w.wallet.reserves)
    (hbal : w.getBalance.toNat ≤ w'.getBalance.toNat + paid)
    (hpd : w.wallet.reserves = 0 → w.wallet.pendingBurnAmount = 0 →
      w'.wallet.pendingBurnAmount = 0) :
    (w'.wallet.reserves = 0 ∧ w'.wallet.pendingBurnAmount = 0) ∨
      (w'.wallet.reserves.toNat = g.reserves ∧
        g.reserves ≤ w'.getBalance.toNat + (g.redeemed + paid)) := by
  rw [hres]
  rcases h.funds with ⟨h1, h2⟩ | ⟨h1, h2⟩
  · exact .inl ⟨h1, hpd h1 h2⟩
  · exact .inr ⟨h1, by omega⟩

omit [DecidableEq Hash] [Inhabited Hash] in
/-- The next epoch begins with the whole balance as its reserves. -/
theorem Funded.startEpoch (h : Funded evm g b w) {t : U256} (ht : w.now ≤ t)
    (hs : w.startEpoch evm t = some w') :
    Funded evm { redeemed := 0, reserves := w'.wallet.reserves.toNat }
      (.empty : Book U32 value) { w' with now := t } := by
  obtain ⟨-, -, -, hres, -⟩ := World.startEpoch_spec hs
  refine ⟨h.book.startEpoch ht hs _, ?_, .inr ⟨rfl, ?_⟩⟩
  · simp [Book.empty]
  · exact le_of_eq (congrArg BitVec.toNat hres)

/-- A redeemed batch claims indices in range, and the balance pays for them. -/
theorem Funded.redeemdType2 (hk : Function.Injective evm.keccak256)
    (hstd : evm.transfer = Ledger.standardTransfer) (h : Funded evm g b w) {tx : Tx Hash}
    {data : List UInt8} (hcall : tx.call = .redeemdType2 data) (hb : w.BackedCall evm tx)
    (hs : w.exec evm tx = some w') :
    ∃ b' : Book U32 value, Funded evm { g with redeemed := g.redeemed + w.payout evm tx } b' w' := by
  have hbal := exec_balance_le hstd hs (by simp [hcall]) (by simp [hcall])
  simp only [World.exec, hcall] at hs
  simp only [World.BackedCall, hcall] at hb
  obtain ⟨s, hc, hbuf, hpay, hsigned, hr⟩ := h.book.redeemdType2 hk hstd hs
  have hpayout : w.payout evm tx = value * s.card := by
    rw [hpay]
    simp only [World.payout, hcall]
  have hcur : ∀ i ∈ s, Backed w.wallet.indexValue.toNat w.wallet.reserves.toNat i := by
    intro i hi
    obtain ⟨r, hrin, rfl, hsig⟩ := hsigned i hi
    exact hb r hrin hsig
  obtain ⟨total, hl, -⟩ := World.redeemdType2_loop hs
  have hf := (redeemLoop_spec hl).frame
  have hres : w'.wallet.reserves = w.wallet.reserves := by
    simpa using congrArg Wallet.reserves hf
  have hpd : w'.wallet.pendingBurnAmount = w.wallet.pendingBurnAmount := by
    simpa using congrArg Wallet.pendingBurnAmount hf
  rw [hpayout] at hbal ⊢
  refine ⟨_, hr, ?_, h.funds_kept hres hbal fun _ hz => hpd.trans hz⟩
  intro i hi
  simp only [Book.claim, Finset.mem_union] at hi
  rcases hi with (hi | hi) | hi
  · exact h.backed i (Finset.mem_union_left _ hi)
  · exact (h.backed_of_current (hcur i hi)).1
  · exact h.backed i (Finset.mem_union_right _ hi)

/-- A burned batch puts indices in range in the burn buffer. -/
theorem Funded.burnCommits (hk : Function.Injective evm.keccak256)
    (hpos : 0 < w.wallet.burnBuffer.toNat) (h : Funded evm g b w) {tx : Tx Hash}
    {data : List UInt8} (hcall : tx.call = .burnCommits data) (hb : w.BackedCall evm tx)
    (hs : w.exec evm tx = some w') : ∃ b' : Book U32 value, Funded evm g b' w' := by
  simp only [World.exec, hcall] at hs
  simp only [World.BackedCall, hcall] at hb
  obtain ⟨s, hc, hbuf, hsigned, hr⟩ := h.book.burnCommits hk hpos hs
  have hcur : ∀ i ∈ s, Backed w.wallet.indexValue.toNat w.wallet.reserves.toNat i := by
    intro i hi
    obtain ⟨r, hrin, rfl, hsig⟩ := hsigned i hi
    exact hb r hrin hsig
  obtain ⟨-, wal, total, hl, -, hw'⟩ := World.burnCommits_spec hs
  have hres : w'.wallet.reserves = w.wallet.reserves := by
    obtain ⟨-, -, -, hres, -⟩ := eq_of_buffers w.wallet wal (burnLoop_spec hl).frame
    rw [hw']
    exact hres
  have hbal : w.getBalance.toNat ≤ w'.getBalance.toNat + 0 := by
    rw [hw']
    exact le_refl _
  refine ⟨_, hr, ?_, h.funds_kept hres hbal fun hr0 hp0 => ?_⟩
  · intro i hi
    simp only [Book.buffer, Finset.mem_union] at hi
    rcases hi with hi | hi | hi
    · exact h.backed i (Finset.mem_union_left _ hi)
    · exact h.backed i (Finset.mem_union_right _ hi)
    · exact (h.backed_of_current (hcur i hi)).1
  · -- the signed indices are worth nothing when the reserves are gone
    have hzero : value * s.card = 0 := by
      rcases s.eq_empty_or_nonempty with rfl | ⟨i, hi⟩
      · exact Nat.mul_zero value
      · rw [(h.backed_of_current (hcur i hi)).2 hr0, Nat.zero_mul]
    have hpd : b.pending + value * s.card = w'.wallet.pendingBurnAmount.toNat := hr.pending
    rw [h.book.pending, hp0, hzero] at hpd
    exact BitVec.eq_of_toNat_eq hpd.symm

/-- A challenged batch only takes indices out of the burn buffer. -/
theorem Funded.challengeBurnCommits (hk : Function.Injective evm.keccak256)
    (h : Funded evm g b w) {t : U256} (ht : w.now ≤ t) {commitHash : List Hash} {v : List UInt8}
    {r s : List U256} (hs : w.challengeBurnCommits evm t commitHash v r s = some w') :
    ∃ b' : Book U32 value, Funded evm g b' w' := by
  obtain ⟨s, hsub, hp, hr⟩ := h.book.challengeBurnCommits hk ht hs
  obtain ⟨-, wal, total, hl, -, hw'⟩ := World.challengeBurnCommits_spec hs
  have hres : w'.wallet.reserves = w.wallet.reserves := by
    obtain ⟨-, -, -, hres, -⟩ := eq_of_buffers w.wallet wal (challengeLoop_spec hl).frame
    rw [hw']
    exact hres
  have hbal : w.getBalance.toNat ≤ w'.getBalance.toNat + 0 := by
    rw [hw']
    exact le_refl _
  refine ⟨_, hr, ?_, h.funds_kept hres hbal fun _ hp0 => ?_⟩
  · intro i hi
    exact h.backed i (Finset.union_subset_union_right Finset.sdiff_subset hi)
  · have hpd : b.pending - value * s.card = w'.wallet.pendingBurnAmount.toNat := hr.pending
    rw [h.book.pending, hp0, show (0 : U256).toNat = 0 from rfl, Nat.zero_sub] at hpd
    exact BitVec.eq_of_toNat_eq hpd.symm

omit [DecidableEq Hash] [Inhabited Hash] in
/-- Time passing does not touch the funds. -/
theorem Funded.tick (h : Funded evm g b w) {t : U256} (ht : w.now ≤ t) :
    Funded evm g b { w with now := t } :=
  ⟨h.book.tick ht, h.backed, h.funds⟩

/-- Every successful transaction whose signed records are in range keeps the wallet funded. -/
theorem Funded.exec (hk : Function.Injective evm.keccak256)
    (hstd : evm.transfer = Ledger.standardTransfer) (hpos : 0 < w.wallet.burnBuffer.toNat)
    (h : Funded evm g b w) {tx : Tx Hash} (ht : w.now ≤ tx.timestamp)
    (hb : w.BackedCall evm tx) (hs : w.exec evm tx = some w') :
    ∃ b' : Book U32 value, Funded evm (g.next evm w tx) b' { w' with now := tx.timestamp } := by
  obtain ⟨sender, t, call⟩ := tx
  have hnow : w'.now ≤ t := (World.exec_same hs).2 ▸ ht
  cases call with
  | startEpoch =>
    have hnext : g.next evm w ⟨sender, t, .startEpoch⟩ =
        { redeemed := 0, reserves := w'.wallet.reserves.toNat } := by
      simp only [EpochRecord.next, hs]
    rw [hnext]
    exact ⟨.empty, h.startEpoch ht hs⟩
  | withdraw =>
    obtain ⟨-, -, hw'⟩ := World.withdraw_spec hs
    refine ⟨b.burnAll, (h.book.withdraw hs).tick hnow, h.backed, .inl ?_⟩
    rw [hw']
    exact ⟨rfl, rfl⟩
  | redeemdType2 data =>
    obtain ⟨b', hf⟩ := h.redeemdType2 hk hstd rfl hb hs
    exact ⟨b', hf.tick hnow⟩
  | burnCommits data =>
    obtain ⟨b', hf⟩ := h.burnCommits hk hpos rfl hb hs
    exact ⟨b', hf.tick hnow⟩
  | challengeBurnCommits commitHash v r s =>
    obtain ⟨b', hf⟩ := h.challengeBurnCommits hk ht hs
    exact ⟨b', hf.tick hnow⟩
  | transfer recipient amount =>
    have hbal : w.getBalance.toNat ≤ w'.getBalance.toNat + 0 :=
      exec_balance_le hstd hs (by simp) (by simp)
    obtain ⟨-, -, hw'⟩ := World.deposit_spec hstd hs
    have hwal : w'.wallet = w.wallet := by rw [hw']
    have hfunds := h.funds_kept (congrArg Wallet.reserves hwal) hbal
      fun _ hz => (congrArg Wallet.pendingBurnAmount hwal).trans hz
    exact ⟨b, (hw' ▸ h.book.balances _).tick hnow, h.backed, hfunds⟩

/-- The invariant of the runs whose signed records are in range. -/
def FundedRun (evm : Evm Hash) (value : ℕ) (x : EpochRecord × World Hash) : Prop :=
  0 < x.2.wallet.burnBuffer.toNat ∧ ∃ b : Book U32 value, Funded evm x.1 b x.2

theorem FundedRun.step (hk : Function.Injective evm.keccak256)
    (hstd : evm.transfer = Ledger.standardTransfer) (x : EpochRecord × World Hash) (tx : Tx Hash)
    (h : FundedRun evm value x) (hok : x.2.now ≤ tx.timestamp ∧ x.2.BackedCall evm tx) :
    FundedRun evm value (Run.watch (World.step evm) (EpochRecord.next evm) x tx) := by
  obtain ⟨g, w⟩ := x
  obtain ⟨hpos, b, hf⟩ := h
  obtain ⟨ht, hb⟩ := hok
  refine ⟨(World.step_same w tx).burnBuffer ▸ hpos, ?_⟩
  change ∃ b : Book U32 value, Funded evm (g.next evm w tx) b (w.step evm tx)
  cases hs : w.exec evm tx with
  | some w' =>
    rw [World.step_of_some hs]
    exact hf.exec hk hstd hpos ht hb hs
  | none =>
    rw [World.step_of_none hs, EpochRecord.next_of_none g hs]
    exact ⟨b, hf.book.tick ht, hf.backed, hf.funds⟩

end Step

/-! ## Solvency of runs -/

variable [DecidableEq Hash] [Inhabited Hash]

/-- In every run in which the owner's signed records stay in range, the wallet is solvent. -/
theorem solvent_of_backed (hk : Function.Injective evm.keccak256)
    (hstd : evm.transfer = Ledger.standardTransfer) (this : Address)
    (epochDuration indexValue : U256) (owner currency : Address) (burnBuffer : U256)
    (hpos : 0 < burnBuffer) (balances : Ledger) (now : U256) (txs : List (Tx Hash))
    (hchron : World.Chronological evm
      (.init this epochDuration indexValue owner currency burnBuffer balances now) txs)
    (hbacked : Run.Always (World.step evm) (World.BackedCall evm)
      (.init this epochDuration indexValue owner currency burnBuffer balances now) txs) :
    let x := World.observed evm
      (.init this epochDuration indexValue owner currency burnBuffer balances now) txs
    Solvent evm x.1 x.2 := by
  intro x
  have hok := (hchron.watched evm {}).and ((Run.always_watch (World.BackedCall evm) _ _).mpr hbacked)
  have hinit : FundedRun evm indexValue.toNat ({},
      World.init this epochDuration indexValue owner currency burnBuffer balances now) :=
    ⟨hpos, .empty, represents_init this epochDuration indexValue owner currency burnBuffer
      balances now, by simp [Book.empty], Or.inl ⟨rfl, rfl⟩⟩
  obtain ⟨-, b, hf⟩ := Run.final_inv (FundedRun.step hk hstd) hinit hok
  exact hf.solvent

theorem solvent_of_backed_settledTxs :
    let x := World.observed plainEvm plainWorld settledTxs
    Solvent plainEvm x.1 x.2 ∧ x.1.redeemed = 30 ∧ x.2.wallet.pendingBurnAmount = 30 :=
  ⟨solvent_of_backed Function.injective_id rfl 1 604800 30 7 9 86400 (by decide) _ 0 settledTxs
    (by decide) (by decide +kernel), by decide +kernel⟩

/-- A wallet with 20 tokens, too few for one index of 30. -/
def poorWorld : World (List UInt8) :=
  .init 1 604800 30 7 9 86400 (fun a => if a = 1 then 20 else 0) 0

/-- An epoch in which index 1 is burned. -/
def unbackedTxs : List (Tx (List UInt8)) :=
  [⟨3, 1650000000, .startEpoch⟩, ⟨3, 1650000010, .burnCommits burnData⟩]

/-- Burning an index that the reserves do not back leaves the wallet insolvent, and stuck: no epoch
can be started when the current one is over. -/
theorem not_solvent_unbackedTxs :
    let x := World.observed plainEvm poorWorld unbackedTxs
    ¬ Solvent plainEvm x.1 x.2 ∧ x.2.getBalance < x.2.wallet.pendingBurnAmount ∧
      (x.2.startEpoch plainEvm 1650604800).isNone := by
  refine ⟨fun h => ?_, by decide +kernel, by decide +kernel⟩
  exact absurd h.half (by decide +kernel)

end Dse
