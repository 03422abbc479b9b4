import Dse.Wallet.Proofs.WindowProofs

/-!
# Signatures without a signer

`ecrecover` answers a malformed signature with address 0, and the wallet compares that answer like
any other with the owner or with the recorded invalidating address. It rejects every malformed
signature as long as neither of the two is address 0: the owner is chosen once, by the constructor,
and a record of a type 1 commit to address 0 enters the burn buffer only through a batch that was
sent to it. Such a record lets malformed signatures through as long as it can be challenged, which is
while the clock is behind its buffer time.
-/

namespace Dse

variable {Hash : Type} [DecidableEq Hash] [Inhabited Hash] (evm : Evm Hash)

/-- `ecrecover` fails on the signature. -/
def Evm.Fails (message : Hash) (sig : EcdsaSignature) : Prop := evm.recover message sig = 0

omit [DecidableEq Hash] [Inhabited Hash] in
/-- The invalidating address is the owner, or for type 1 the address of the batch. -/
theorem BurnRecord.iAddress_ne_zero {wallet : Wallet Hash} {toAddress : Address} (r : BurnRecord)
    (howner : wallet.owner ≠ 0) (hto : r.ctype = 1 → toAddress ≠ 0) :
    r.iAddress wallet toAddress ≠ 0 := by
  unfold iAddress
  split
  · rename_i hlt
    split
    · exact howner
    · rename_i hzero
      have hlt' : r.ctype.toNat < 2 := UInt8.lt_iff_toNat_lt.mp hlt
      have hzero' : r.ctype.toNat ≠ 0 := fun h => hzero (UInt8.toNat_inj.mp h)
      exact hto (UInt8.toNat_inj.mp (show r.ctype.toNat = 1 by omega))
  · exact howner

namespace World

/-- `ecrecover` fails on one of the signatures that the call checks. -/
def ChecksMalformed (w : World Hash) (tx : Tx Hash) : Prop :=
  match tx.call with
  | .redeemdType2 data => ∃ r ∈ redeemRecords data,
      evm.Fails (evm.keccak256 (type2Blob r.index w.wallet.currentEpoch r.u w.wallet.owner
        (toAddressOf data))) r.commitSignature ∨
      evm.Fails (evm.invalidatingHash r.u) r.invalidatingSignature
  | .burnCommits data => ∃ r ∈ burnRecords data,
      evm.Fails (evm.keccak256 (r.blob w.wallet (toAddressOf data))) r.commitSignature
  | .challengeBurnCommits commitHash v r s => ∃ c ∈ challengeRecords commitHash v r s,
      evm.Fails (w.wallet.burnBufferIBlob c.commitHash) c.signature
  | _ => False

/-- Every call with a malformed signature that is made at `t` or later reverts. -/
def RejectsMalformed (w : World Hash) (t : U256) : Prop :=
  ∀ tx, t ≤ tx.timestamp → w.ChecksMalformed evm tx → w.exec evm tx = none

/-- The addresses that signatures are compared with at `t` or later: the owner's, and those of the
records of the burn buffer that are open at `t`. -/
structure SignersNamed (w : World Hash) (t : U256) : Prop where
  owner : w.wallet.owner ≠ 0
  iAddress : ∀ k, t < w.wallet.burnBufferTime k → w.wallet.burnBufferIAddress k ≠ 0

/-- The call burns a type 1 commit to address 0, and passes the checks of `burnCommits`. -/
structure BurnsToNobody (w : World Hash) (timestamp : U256) (data : List UInt8) : Prop where
  nobody : toAddressOf data = 0
  type1 : ∃ r ∈ burnRecords data, r.ctype = 1
  early : w.wallet.burnBuffer.toNat + invDisadvantageBuffer.toNat + timestamp.toNat <
    w.wallet.epochExpiresBy.toNat
  accepted : Burnable evm (toAddressOf data) (w.wallet, 0) (burnRecords data)
  fits : w.wallet.pendingBurnAmount.toNat +
    (burnRecords data).length * w.wallet.indexValue.toNat < 2 ^ 256

/-- The transaction is such a call. -/
def NamesNobody (w : World Hash) (tx : Tx Hash) : Prop :=
  ∃ data, tx.call = .burnCommits data ∧ w.BurnsToNobody evm tx.timestamp data

/-- The transaction is such a call, and its type 1 records can be challenged at `t`: the buffer time
that they get is later. -/
def OpensToNobody (w : World Hash) (t : U256) (tx : Tx Hash) : Prop :=
  w.NamesNobody evm tx ∧ t.toNat < w.wallet.burnBuffer.toNat + invDisadvantageBuffer.toNat

variable {evm} {w w' : World Hash} {t t' : U256} {tx : Tx Hash}

/-! ## Rejecting -/

/-- A wallet whose signers are named rejects what nobody signed. -/
theorem SignersNamed.rejects (h : w.SignersNamed t) : w.RejectsMalformed evm t := by
  rintro ⟨sender, timestamp, call⟩ ht hmal
  by_contra hsome
  obtain ⟨w', hexec⟩ := Option.ne_none_iff_exists'.mp hsome
  cases call with
  | redeemdType2 data =>
    obtain ⟨r, hr, hfails⟩ := hmal
    obtain ⟨total, hl, -⟩ := redeemdType2_loop hexec
    obtain ⟨hcommit, hinv⟩ := (redeemLoop_spec hl).signed r hr
    rcases hfails with hfails | hfails
    · exact h.owner (hcommit.symm.trans hfails)
    · exact h.owner (hinv.symm.trans hfails)
  | burnCommits data =>
    obtain ⟨r, hr, hfails⟩ := hmal
    obtain ⟨-, wal, total, hl, -⟩ := burnCommits_spec hexec
    have hsigned := (burnLoop_spec hl).signed r hr
    exact h.owner (hsigned.symm.trans hfails)
  | challengeBurnCommits commitHash v r s =>
    obtain ⟨c, hc, hfails⟩ := hmal
    obtain ⟨-, wal, total, hl, -⟩ := challengeBurnCommits_spec hexec
    have hloop := challengeLoop_spec hl
    have hopen : t < w.wallet.burnBufferTime c.commitHash :=
      Word.lt_of_le_of_lt ht (hloop.open_ c.commitHash (List.mem_map_of_mem hc))
    exact h.iAddress c.commitHash hopen ((hloop.signed c hc).symm.trans hfails)
  | _ => exact hmal

/-! ## Keeping the signers named -/

/-- A call that goes through keeps the signers named, unless it opens a record to nobody. -/
theorem SignersNamed.exec (h : w.SignersNamed t) (ht : t ≤ t') (hexec : w.exec evm tx = some w')
    (hnobody : ¬ w.OpensToNobody evm t' tx) : w'.SignersNamed t' := by
  have howner := (exec_same hexec).1.owner
  refine ⟨howner ▸ h.owner, fun k hk => ?_⟩
  by_cases htouch : w.Touches evm k tx
  · obtain ⟨sender, timestamp, call⟩ := tx
    obtain ⟨-, hin⟩ := htouch
    cases call with
    | burnCommits data =>
      -- the record that wrote under the key names the owner or the address of the batch
      have hsome := burnCommits_isSome.mp (Option.isSome_of_eq_some hexec)
      obtain ⟨-, wal, total, hl, -, hw'⟩ := burnCommits_spec hexec
      obtain ⟨r, hr, rfl, htime, -, haddress⟩ := (burnLoop_spec hl).stored k hin
      rw [hw', BitVec.lt_def] at hk
      rw [hw', haddress]
      refine r.iAddress_ne_zero h.owner fun htype hto => ?_
      refine hnobody ⟨⟨data, rfl, hto, ⟨r, hr, htype⟩, hsome.1, hsome.2.1, hsome.2.2⟩, ?_⟩
      have hbuffer := BurnRecord.toNat_bTime htime
      rw [BurnRecord.bufferTime, if_pos htype] at hbuffer
      exact hbuffer ▸ hk
    | challengeBurnCommits commitHash v r s =>
      obtain ⟨hmap, wal, total, hl, -, hw'⟩ := challengeBurnCommits_spec hexec
      have hdeleted := (challengeLoop_spec hl).deleted k (by rw [hmap]; exact hin)
      have htime : w'.wallet.burnBufferTime k = 0 := by
        rw [hw']
        exact hdeleted.1
      rw [htime] at hk
      exact absurd hk BitVec.not_lt_zero
    | _ => exact absurd hin id
  · have hsame := exec_sameRecord hexec htouch
    rw [hsame.iAddress]
    exact h.iAddress k (Word.lt_of_le_of_lt ht (hsame.time ▸ hk))

theorem SignersNamed.step (h : w.SignersNamed t) (ht : t ≤ t')
    (hnobody : ¬ w.OpensToNobody evm t' tx) : (w.step evm tx).SignersNamed t' := by
  cases hexec : w.exec evm tx with
  | none =>
    rw [step_of_none hexec]
    exact ⟨h.owner, fun k hk => h.iAddress k (Word.lt_of_le_of_lt ht hk)⟩
  | some w' =>
    have hnamed := h.exec ht hexec hnobody
    rw [step_of_some hexec]
    exact ⟨hnamed.owner, hnamed.iAddress⟩

omit [DecidableEq Hash] in
theorem signersNamed_init {this owner currency : Address}
    {epochDuration indexValue burnBuffer now : U256} {balances : Ledger} (howner : owner ≠ 0)
    (t : U256) : (init this epochDuration indexValue owner currency burnBuffer balances now :
      World Hash).SignersNamed t :=
  ⟨howner, fun _ hk => absurd hk BitVec.not_lt_zero⟩

/-! ## What a record of nobody lets through -/

/-- Such a call leaves a record behind whose signatures are compared with address 0, and enough
pending to challenge it. -/
theorem BurnsToNobody.exec {timestamp : U256} {data : List UInt8}
    (h : w.BurnsToNobody evm timestamp data) :
    ∃ w' k, w.burnCommits evm timestamp data = some w' ∧
      (w'.wallet.burnBufferTime k).toNat =
        w.wallet.burnBuffer.toNat + invDisadvantageBuffer.toNat ∧
      w'.wallet.burnBufferIAddress k = 0 ∧ w'.wallet.indexValue ≤ w'.wallet.pendingBurnAmount := by
  obtain ⟨w', hexec⟩ := Option.isSome_iff_exists.mp
    (burnCommits_isSome.mpr ⟨h.early, h.accepted, h.fits⟩)
  obtain ⟨r, hr, htype⟩ := h.type1
  obtain ⟨-, wal, total, hl, hpending, hw'⟩ := burnCommits_spec hexec
  have hloop := burnLoop_spec hl
  have hpos : r.bTime w.wallet ≠ some 0 := by
    intro hzero
    rw [BurnRecord.bTime, if_pos htype, Word.add?_eq_some] at hzero
    rw [show invDisadvantageBuffer.toNat = 3600 from rfl, show (0 : U256).toNat = 0 from rfl] at hzero
    omega
  obtain ⟨htime, -, haddress⟩ := burnLoop_stored hl hr hpos
  refine ⟨w', evm.claimIdentifier r.index w.wallet.currentEpoch, hexec, ?_, ?_, ?_⟩
  · have hbuffer := BurnRecord.toNat_bTime htime
    rw [BurnRecord.bufferTime, if_pos htype] at hbuffer
    rw [hw']
    exact hbuffer
  · have hcommit : r.iAddress w.wallet (toAddressOf data) = toAddressOf data := by
      rw [BurnRecord.iAddress, htype]
      rfl
    rw [hw']
    exact haddress.trans (hcommit.trans h.nobody)
  · have hamount : total.toNat = _ := hloop.amount
    have hvalue : w'.wallet.indexValue = w.wallet.indexValue :=
      (exec_same (show w.exec evm ⟨0, timestamp, .burnCommits data⟩ = some w' from hexec)).1.indexValue
    have hlen : 0 < (burnRecords data).length := List.length_pos_of_mem hr
    rw [hvalue, BitVec.le_def, ← hpending, hamount]
    calc w.wallet.indexValue.toNat
        ≤ (burnRecords data).length * w.wallet.indexValue.toNat := Nat.le_mul_of_pos_left _ hlen
      _ ≤ wal.pendingBurnAmount.toNat + (burnRecords data).length * w.wallet.indexValue.toNat :=
        Nat.le_add_left _ _

/-- After it, that record is released by any malformed signature. -/
theorem OpensToNobody.not_rejects (h : w.OpensToNobody evm t tx)
    (hfail : ∀ message, ∃ sig, evm.Fails message sig) :
    ¬ (w.step evm tx).RejectsMalformed evm t := by
  obtain ⟨⟨data, hcall, hburns⟩, ht⟩ := h
  obtain ⟨w', k, hexec, htime, haddress, hpending⟩ := hburns.exec
  have hstep : w.step evm tx = { w' with now := tx.timestamp } := by
    refine step_of_some ?_
    rw [World.exec, hcall]
    exact hexec
  obtain ⟨sig, hsig⟩ := hfail (w'.wallet.burnBufferIBlob k)
  rw [hstep]
  intro hrejects
  have hnone := hrejects ⟨0, t, .challengeBurnCommits [k] [sig.v] [sig.r] [sig.s]⟩
    (BitVec.le_refl t) ⟨⟨k, sig⟩, List.mem_singleton_self _, hsig⟩
  have hopen : t < w'.wallet.burnBufferTime k := by
    rw [BitVec.lt_def, htime]
    exact ht
  obtain ⟨w₂, hreleased, -⟩ := challenge_eq_some (w := { w' with now := tx.timestamp }) hopen
    (hsig.trans haddress.symm) hpending
  cases hnone.symm.trans hreleased

/-! ## Every run -/

/-- With an owner other than address 0, every state that is reached rejects the calls with a
malformed signature, at whatever time they are made, if no step burns a type 1 commit to address 0.
On a clock that never goes back, the states reject those that can still be made exactly if no such
step leaves a record that can still be challenged. -/
theorem malformed_rejected_iff (hfail : ∀ message, ∃ sig, evm.Fails message sig)
    (this owner currency : Address) (epochDuration indexValue burnBuffer now : U256)
    (balances : Ledger) (howner : owner ≠ 0) (txs : List (Tx Hash)) :
    let w : World Hash :=
      .init this epochDuration indexValue owner currency burnBuffer balances now
    (Run.Always (World.step evm) (fun w tx => ¬ w.NamesNobody evm tx) w txs →
      ∀ pre, pre <+: txs → (w.run evm pre).RejectsMalformed evm 0) ∧
    (w.Chronological evm txs →
      ((∀ pre, pre <+: txs → (w.run evm pre).RejectsMalformed evm (w.run evm pre).now) ↔
        Run.Always (World.step evm) (fun w tx => ¬ w.OpensToNobody evm tx.timestamp tx) w txs)) := by
  intro w
  have hinit : ∀ t, w.SignersNamed t := signersNamed_init howner
  constructor
  · intro hnobody pre hpre
    have hstep : ∀ (w : World Hash) (tx : Tx Hash), w.SignersNamed 0 → ¬ w.NamesNobody evm tx →
        (w.step evm tx).SignersNamed 0 :=
      fun _ _ hw hnot => hw.step (BitVec.le_refl 0) fun hopens => hnot hopens.1
    exact (Run.final_inv hstep (hinit 0) (hnobody.first hpre)).rejects
  · intro hchron
    have hstep : ∀ (w : World Hash) (tx : Tx Hash), w.SignersNamed w.now →
        w.now ≤ tx.timestamp → ¬ w.OpensToNobody evm tx.timestamp tx →
          (w.step evm tx).SignersNamed (w.step evm tx).now :=
      fun _ _ hw ht hnot => hw.step ht hnot
    have hrejects : ∀ w : World Hash, w.SignersNamed w.now → w.RejectsMalformed evm w.now :=
      fun _ hw => hw.rejects
    exact Run.forall_reached_iff hstep hrejects
      (fun _ _ _ hnot => (not_not.mp hnot).not_rejects hfail) (hinit w.now) hchron

/-- Recovery on `strictEvm` fails on a `v` of 0. -/
theorem fails_strictEvm (message : List UInt8) : ∃ sig, strictEvm.Fails message sig :=
  ⟨⟨0, 0, 0⟩, rfl⟩

/-- A signature of the owner of `plainWorld` that is read as it is. -/
def ownerSignature : EcdsaSignature := ⟨7, 27 <<< 248, 27⟩

/-- An epoch in which a type 1 commit to `toAddress` is burned. -/
def burnToTxs (toAddress : Address) : List (Tx (List UInt8)) :=
  [⟨9, 10, .startEpoch⟩, ⟨9, 20, .burnCommits (burnCalldata toAddress [⟨1, 1, 1, ownerSignature⟩])⟩]

theorem malformed_rejected_iff_burnToTxs :
    (plainWorld.run strictEvm (burnToTxs 5)).wallet.pendingBurnAmount = 30 ∧
      ∀ pre, pre <+: burnToTxs 5 → (plainWorld.run strictEvm pre).RejectsMalformed strictEvm
        (plainWorld.run strictEvm pre).now := by
  refine ⟨by decide +kernel, ((malformed_rejected_iff fails_strictEvm 1 7 9 604800 30 86400 0
    (fun a => if a = 1 then 1000 else 0) (by decide) (burnToTxs 5)).2 (by decide +kernel)).mpr
    ⟨?_, ?_, trivial⟩⟩
  · rintro ⟨⟨data, ⟨⟩, -⟩, -⟩
  · rintro ⟨⟨_, ⟨⟩, hburns⟩, -⟩
    exact absurd hburns.nobody (by decide +kernel)

/-- A wallet whose constructor was given no owner. -/
def ownerlessWorld : World (List UInt8) :=
  .init 1 604800 30 0 9 86400 (fun a => if a = 1 then 1000 else 0) 0

/-- An index is claimed from a wallet without an owner on two malformed signatures, and a record of a
commit to address 0 is released from the burn buffer on one. -/
theorem not_malformed_rejected :
    ¬ ownerlessWorld.RejectsMalformed strictEvm ownerlessWorld.now ∧
      plainWorld.Chronological strictEvm (burnToTxs 0) ∧
      ¬ (plainWorld.run strictEvm (burnToTxs 0)).RejectsMalformed strictEvm
        (plainWorld.run strictEvm (burnToTxs 0)).now := by
  refine ⟨?_, by decide +kernel, ?_⟩
  · intro h
    have hnone := h ⟨9, 30, .redeemdType2 (redeemCalldata 5 [⟨1, 1, ⟨0, 0, 0⟩, ⟨0, 0, 0⟩⟩])⟩
      (by decide) ⟨⟨1, 1, ⟨0, 0, 0⟩, ⟨0, 0, 0⟩⟩, by decide +kernel, .inl rfl⟩
    have hclaims : (ownerlessWorld.exec strictEvm ⟨9, 30, .redeemdType2 (redeemCalldata 5
        [⟨1, 1, ⟨0, 0, 0⟩, ⟨0, 0, 0⟩⟩])⟩).isSome := by
      decide +kernel
    rw [hnone] at hclaims
    cases hclaims
  · intro h
    have hnone := h ⟨9, 30, .challengeBurnCommits [claimBlob 1 1] [0] [0] [0]⟩
      (by decide +kernel) ⟨⟨claimBlob 1 1, ⟨0, 0, 0⟩⟩, List.mem_singleton_self _, rfl⟩
    have hreleases : ((plainWorld.run strictEvm (burnToTxs 0)).exec strictEvm
        ⟨9, 30, .challengeBurnCommits [claimBlob 1 1] [0] [0] [0]⟩).isSome := by
      decide +kernel
    rw [hnone] at hreleases
    cases hreleases

end World

end Dse
