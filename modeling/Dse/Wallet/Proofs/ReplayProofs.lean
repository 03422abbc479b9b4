import Dse.Wallet.Proofs.CalldataProofs
import Dse.Wallet.Proofs.TxProofs

/-!
# Two wallets of one owner

The bytes that the owner signs name an index, an epoch number, a trade, a type and receivers, and
neither a wallet nor a currency. What keeps a record that one wallet settles from being settled by
another one is only the state of the other: its epoch number, its settled indexes and its funds.
-/

namespace Dse

variable {Hash : Type} [DecidableEq Hash] (evm : Evm Hash)

/-! ## Accepted records -/

namespace World

/-- `redeemdType2` accepts the record, in some batch to `toAddress`. -/
def Redeems (w : World Hash) (toAddress : Address) (r : RedeemRecord) : Prop :=
  ∃ data, toAddressOf data = toAddress ∧ r ∈ redeemRecords data ∧
    (w.redeemdType2 evm data).isSome

/-- At time `t`, `burnCommits` accepts the record, in some batch to `toAddress`. -/
def Burns (w : World Hash) (t : U256) (toAddress : Address) (r : BurnRecord) : Prop :=
  ∃ data, toAddressOf data = toAddress ∧ r ∈ burnRecords data ∧ (w.burnCommits evm t data).isSome

/-- The index is not settled in the wallet's epoch. -/
def Free (w : World Hash) (index : U32) : Prop :=
  w.wallet.claimed (evm.claimIdentifier index w.wallet.currentEpoch) = false ∧
    w.wallet.burnBufferTime (evm.claimIdentifier index w.wallet.currentEpoch) = 0

/-- The wallet has the value of an index, and `toAddress` can take it. -/
def CanPay (w : World Hash) (toAddress : Address) : Prop :=
  w.wallet.indexValue ≤ w.balances w.this ∧
    (toAddress = w.this ∨
      (w.balances toAddress).toNat + w.wallet.indexValue.toNat < 2 ^ 256)

/-- There is time to burn, and the pending amount stays a word with one more index. -/
def CanBurn (w : World Hash) (t : U256) : Prop :=
  w.wallet.burnBuffer.toNat + invDisadvantageBuffer.toNat + t.toNat <
      w.wallet.epochExpiresBy.toNat ∧
    w.wallet.pendingBurnAmount.toNat + w.wallet.indexValue.toNat < 2 ^ 256

variable {evm} {w : World Hash} {t : U256} {toAddress : Address}

omit [DecidableEq Hash] in
/-- A value that is paid for several indexes can be paid for one. -/
theorem CanPay.of_batch {n : ℕ} (hn : 0 < n)
    (hfits : n * w.wallet.indexValue.toNat < 2 ^ 256)
    (h : w.balances.standardTransfer w.this toAddress
      (.ofNat 256 (n * w.wallet.indexValue.toNat)) = .moved) : w.CanPay toAddress := by
  have hle : w.wallet.indexValue.toNat ≤ n * w.wallet.indexValue.toNat :=
    Nat.le_mul_of_pos_left _ hn
  obtain ⟨hbal, hrecipient⟩ := Ledger.standardTransfer_eq_moved.mp h
  rw [BitVec.le_def, BitVec.toNat_ofNat, Nat.mod_eq_of_lt hfits] at hbal
  rw [BitVec.toNat_ofNat, Nat.mod_eq_of_lt hfits] at hrecipient
  refine ⟨BitVec.le_def.mpr (by omega), ?_⟩
  rcases hrecipient with hself | hlt
  · exact .inl hself
  · exact .inr (by omega)

omit [DecidableEq Hash] in
/-- There was more time to burn before. -/
theorem CanBurn.mono {t' : U256} (h : w.CanBurn t') (ht : t ≤ t') : w.CanBurn t := by
  refine ⟨?_, h.2⟩
  have hlt := h.1
  rw [BitVec.le_def] at ht
  omega

/-- `redeemdType2` accepts a record exactly when the owner signed it for the wallet's epoch, its
index is free and the wallet can pay. -/
theorem redeems_iff (hstd : evm.transfer = Ledger.standardTransfer) {r : RedeemRecord} :
    w.Redeems evm toAddress r ↔ r.asRead = r ∧ r.SignedBy evm w.wallet toAddress ∧
      w.Free evm r.index ∧ w.CanPay toAddress := by
  constructor
  · rintro ⟨data, rfl, hr, hsome⟩
    obtain ⟨hacc, htransfer⟩ := redeemdType2_isSome.mp hsome
    have hfits : (redeemRecords data).length * w.wallet.indexValue.toNat < 2 ^ 256 := by
      have h := hacc.fits
      rwa [show ((0 : U256).toNat) = 0 from rfl, Nat.zero_add] at h
    have hmoved : w.balances.standardTransfer w.this (toAddressOf data)
        (.ofNat 256 ((redeemRecords data).length * w.wallet.indexValue.toNat)) = .moved := by
      rw [hstd] at htransfer
      cases h : w.balances.standardTransfer w.this (toAddressOf data)
          (.ofNat 256 ((redeemRecords data).length * w.wallet.indexValue.toNat)) with
      | moved => rfl
      | refused => exact absurd h (Ledger.standardTransfer_ne_refused _ _ _ _)
      | reverted => exact absurd h htransfer
    exact ⟨RedeemRecord.asRead_of_mem hr, hacc.signed r hr, hacc.fresh _ (List.mem_map_of_mem hr),
      .of_batch (List.length_pos_of_mem hr) hfits hmoved⟩
  · rintro ⟨hread, hsigned, hfree, hpay⟩
    have hrecords : redeemRecords (spacedCalldata toAddress [r]) = [r] := by
      rw [redeemRecords_spacedCalldata toAddress (by simp), List.map_singleton, hread]
    refine ⟨spacedCalldata toAddress [r], toAddressOf_spacedCalldata _ _, ?_, ?_⟩
    · rw [hrecords]
      exact List.mem_singleton_self r
    · rw [redeemdType2_isSome, hrecords, toAddressOf_spacedCalldata, List.length_singleton,
        Nat.one_mul, BitVec.ofNat_toNat, BitVec.setWidth_eq, hstd]
      refine ⟨⟨List.nodup_singleton _, ?_, ?_, ?_⟩, ?_⟩
      · intro k hk
        rw [List.mem_singleton.mp hk]
        exact hfree
      · intro r' hr'
        rw [List.mem_singleton.mp hr']
        exact hsigned
      · rw [List.length_singleton, Nat.one_mul]
        show 0 + w.wallet.indexValue.toNat < 2 ^ 256
        have hlt := w.wallet.indexValue.isLt
        omega
      · rw [Ledger.standardTransfer_eq_moved.mpr hpay]
        decide

/-- `burnCommits` accepts a record exactly when it comes in time, the owner signed it for the
wallet's epoch, its index is free and the pending amount stays a word. -/
theorem burns_iff {r : BurnRecord} : w.Burns evm t toAddress r ↔ r.asRead = r ∧
    r.SignedBy evm w.wallet toAddress ∧ w.Free evm r.index ∧ w.CanBurn t := by
  constructor
  · rintro ⟨data, rfl, hr, hsome⟩
    obtain ⟨htime, hacc, hpending⟩ := burnCommits_isSome.mp hsome
    have hle : w.wallet.indexValue.toNat ≤
        (burnRecords data).length * w.wallet.indexValue.toNat :=
      Nat.le_mul_of_pos_left _ (List.length_pos_of_mem hr)
    exact ⟨BurnRecord.asRead_of_mem hr, hacc.signed r hr, hacc.fresh _ (List.mem_map_of_mem hr),
      htime, by omega⟩
  · rintro ⟨hread, hsigned, hfree, htime, hpending⟩
    have hrecords : burnRecords (burnCalldata toAddress [r]) = [r] := by
      rw [burnRecords_burnCalldata toAddress (by simp), List.map_singleton, hread]
    refine ⟨burnCalldata toAddress [r], toAddressOf_burnCalldata _ _, ?_, ?_⟩
    · rw [hrecords]
      exact List.mem_singleton_self r
    · rw [burnCommits_isSome, hrecords, toAddressOf_burnCalldata, List.length_singleton,
        Nat.one_mul]
      refine ⟨htime, ⟨?_, List.pairwise_singleton _ _, ?_, ?_, ?_⟩, hpending⟩
      · intro r' hr'
        rw [List.mem_singleton.mp hr']
        unfold BurnRecord.bTime
        by_cases htype : r.ctype = 1
        · have hexpires := w.wallet.epochExpiresBy.isLt
          have hlt : w.wallet.burnBuffer.toNat + invDisadvantageBuffer.toNat < 2 ^ 256 := by omega
          rw [if_pos htype, Word.add?, if_pos hlt]
          rfl
        · rw [if_neg htype]
          rfl
      · intro k hk
        rw [List.mem_singleton.mp hk]
        exact hfree
      · intro r' hr'
        rw [List.mem_singleton.mp hr']
        exact hsigned
      · rw [List.length_singleton, Nat.one_mul]
        show 0 + w.wallet.indexValue.toNat < 2 ^ 256
        have hlt := w.wallet.indexValue.isLt
        omega

end World

/-! ## Replays -/

variable {evm}

omit [DecidableEq Hash] in
/-- What the owner signed for one wallet is signed for every wallet of the owner that is in an epoch
of the same number. -/
theorem RedeemRecord.signedBy_congr {wallet wallet' : Wallet Hash} {toAddress : Address}
    {r : RedeemRecord} (howner : wallet.owner = wallet'.owner)
    (hepoch : wallet.currentEpoch = wallet'.currentEpoch) :
    r.SignedBy evm wallet toAddress ↔ r.SignedBy evm wallet' toAddress := by
  unfold SignedBy
  rw [howner, hepoch]

omit [DecidableEq Hash] in
theorem BurnRecord.signedBy_congr {wallet wallet' : Wallet Hash} {toAddress : Address}
    {r : BurnRecord} (howner : wallet.owner = wallet'.owner)
    (hepoch : wallet.currentEpoch = wallet'.currentEpoch) :
    r.SignedBy evm wallet toAddress ↔ r.SignedBy evm wallet' toAddress := by
  simp only [SignedBy, blob, iAddress, howner, hepoch]

/-- A record that one wallet redeems is redeemed by every other wallet of the owner that is in an
epoch of the same number, has the index free and can pay. -/
theorem World.Redeems.replayed (hstd : evm.transfer = Ledger.standardTransfer) {a b : World Hash}
    {toAddress : Address} {r : RedeemRecord} (h : a.Redeems evm toAddress r)
    (howner : a.wallet.owner = b.wallet.owner)
    (hepoch : a.wallet.currentEpoch = b.wallet.currentEpoch) (hfree : b.Free evm r.index)
    (hpay : b.CanPay toAddress) : b.Redeems evm toAddress r := by
  obtain ⟨hread, hsigned, -, -⟩ := (World.redeems_iff hstd).mp h
  exact (World.redeems_iff hstd).mpr
    ⟨hread, (RedeemRecord.signedBy_congr howner hepoch).mp hsigned, hfree, hpay⟩

theorem World.Burns.replayed {a b : World Hash} {t t' : U256} {toAddress : Address}
    {r : BurnRecord} (h : a.Burns evm t toAddress r) (howner : a.wallet.owner = b.wallet.owner)
    (hepoch : a.wallet.currentEpoch = b.wallet.currentEpoch) (hfree : b.Free evm r.index)
    (hburn : b.CanBurn t') : b.Burns evm t' toAddress r := by
  obtain ⟨hread, hsigned, -, -⟩ := World.burns_iff.mp h
  exact World.burns_iff.mpr
    ⟨hread, (BurnRecord.signedBy_congr howner hepoch).mp hsigned, hfree, hburn⟩

variable [Inhabited Hash]

omit [Inhabited Hash] in
/-- When no record is burned by both wallets, by one from `tA` on and by the other from `tB` on. -/
theorem no_burn_replay_iff (a b : World Hash) (tA tB : U256) :
    (∀ t t', tA ≤ t → tB ≤ t' → ∀ toAddress r, a.Burns evm t toAddress r →
        ¬ b.Burns evm t' toAddress r) ↔
      ∀ toAddress (r : BurnRecord), r.asRead = r → r.SignedBy evm a.wallet toAddress →
        r.SignedBy evm b.wallet toAddress → a.CanBurn tA → b.CanBurn tB →
        ¬ a.Free evm r.index ∨ ¬ b.Free evm r.index := by
  simp only [World.burns_iff]
  constructor
  · intro h toAddress r hread hsa hsb hba hbb
    rw [← not_and_or]
    rintro ⟨hfa, hfb⟩
    exact h tA tB (BitVec.le_refl _) (BitVec.le_refl _) toAddress r ⟨hread, hsa, hfa, hba⟩
      ⟨hread, hsb, hfb, hbb⟩
  · rintro h t t' ht ht' toAddress r ⟨hread, hsa, hfa, hba⟩ ⟨-, hsb, hfb, hbb⟩
    rcases h toAddress r hread hsa hsb (hba.mono ht) (hbb.mono ht') with hna | hnb
    · exact hna hfa
    · exact hnb hfb

/-- In all states that two wallets reach, no record is accepted by both exactly when every record
that is signed for the epochs of both names an index that is settled in one of them, or one of them
lacks the funds. To burn, at the time of its clock or later, a wallet lacks the time or the room in
the pending amount. -/
theorem no_replay_iff (hstd : evm.transfer = Ledger.standardTransfer) (A B : World Hash)
    (txsA txsB : List (Tx Hash)) :
    let a := A.run evm txsA
    let b := B.run evm txsB
    ((∀ toAddress r, a.Redeems evm toAddress r → ¬ b.Redeems evm toAddress r) ↔
      ∀ toAddress (r : RedeemRecord), r.asRead = r → r.SignedBy evm a.wallet toAddress →
        r.SignedBy evm b.wallet toAddress → a.CanPay toAddress → b.CanPay toAddress →
        ¬ a.Free evm r.index ∨ ¬ b.Free evm r.index) ∧
    ((∀ tA tB, a.now ≤ tA → b.now ≤ tB → ∀ toAddress r, a.Burns evm tA toAddress r →
        ¬ b.Burns evm tB toAddress r) ↔
      ∀ toAddress (r : BurnRecord), r.asRead = r → r.SignedBy evm a.wallet toAddress →
        r.SignedBy evm b.wallet toAddress → a.CanBurn a.now → b.CanBurn b.now →
        ¬ a.Free evm r.index ∨ ¬ b.Free evm r.index) := by
  intro a b
  refine ⟨?_, no_burn_replay_iff a b a.now b.now⟩
  simp only [World.redeems_iff hstd]
  constructor
  · intro h toAddress r hread hsa hsb hpa hpb
    rw [← not_and_or]
    rintro ⟨hfa, hfb⟩
    exact h toAddress r ⟨hread, hsa, hfa, hpa⟩ ⟨hread, hsb, hfb, hpb⟩
  · rintro h toAddress r ⟨hread, hsa, hfa, hpa⟩ ⟨-, hsb, hfb, hpb⟩
    rcases h toAddress r hread hsa hsb hpa hpb with hna | hnb
    · exact hna hfa
    · exact hnb hfb

/-- A wallet like that of `plainWorld`, of the same owner, at address 2 and for another currency. -/
def siblingWorld : World (List UInt8) :=
  .init 2 604800 30 7 11 86400 (fun a => if a = 2 then 1000 else 0) 0

/-- The first epoch begins. -/
def startTxs : List (Tx (List UInt8)) := [⟨3, 1650000000, .startEpoch⟩]

theorem no_replay_iff_siblingWorld :
    let a := plainWorld.run plainEvm startTxs
    let b := siblingWorld.run plainEvm startTxs
    ((∀ toAddress r, a.Redeems plainEvm toAddress r → ¬ b.Redeems plainEvm toAddress r) ↔
      ∀ toAddress (r : RedeemRecord), r.asRead = r → r.SignedBy plainEvm a.wallet toAddress →
        r.SignedBy plainEvm b.wallet toAddress → a.CanPay toAddress → b.CanPay toAddress →
        ¬ a.Free plainEvm r.index ∨ ¬ b.Free plainEvm r.index) ∧
    ((∀ tA tB, a.now ≤ tA → b.now ≤ tB → ∀ toAddress r, a.Burns plainEvm tA toAddress r →
        ¬ b.Burns plainEvm tB toAddress r) ↔
      ∀ toAddress (r : BurnRecord), r.asRead = r → r.SignedBy plainEvm a.wallet toAddress →
        r.SignedBy plainEvm b.wallet toAddress → a.CanBurn a.now → b.CanBurn b.now →
        ¬ a.Free plainEvm r.index ∨ ¬ b.Free plainEvm r.index) :=
  no_replay_iff rfl plainWorld siblingWorld startTxs startTxs

/-- One commitment of the owner to address 5 is redeemed by both wallets, and another one is burned
by both. -/
theorem not_no_replay_siblingWorld :
    plainWorld.wallet.owner = siblingWorld.wallet.owner ∧ plainWorld.this ≠ siblingWorld.this ∧
      (¬ ∀ toAddress r, (plainWorld.run plainEvm startTxs).Redeems plainEvm toAddress r →
        ¬ (siblingWorld.run plainEvm startTxs).Redeems plainEvm toAddress r) ∧
      ¬ ∀ tA tB, (plainWorld.run plainEvm startTxs).now ≤ tA →
        (siblingWorld.run plainEvm startTxs).now ≤ tB → ∀ toAddress r,
          (plainWorld.run plainEvm startTxs).Burns plainEvm tA toAddress r →
            ¬ (siblingWorld.run plainEvm startTxs).Burns plainEvm tB toAddress r := by
  refine ⟨rfl, by decide, ?_, ?_⟩
  · intro h
    have hr : (⟨1, 1, plainSignature 7, plainSignature 7⟩ : RedeemRecord) ∈ redeemRecords
        (redeemCalldata 5 [⟨1, 1, plainSignature 7, plainSignature 7⟩]) := by decide +kernel
    exact h 5 _ ⟨_, by decide +kernel, hr, by decide +kernel⟩
      ⟨_, by decide +kernel, hr, by decide +kernel⟩
  · intro h
    have hr : (⟨2, 1, 0, plainSignature 7⟩ : BurnRecord) ∈ burnRecords
        (burnCalldata 5 [⟨2, 1, 0, plainSignature 7⟩]) := by decide +kernel
    exact h 1650000010 1650000010 (by decide +kernel) (by decide +kernel) 5 _
      ⟨_, by decide +kernel, hr, by decide +kernel⟩
      ⟨_, by decide +kernel, hr, by decide +kernel⟩

end Dse
