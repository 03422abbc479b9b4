import Dse.Wallet.Proofs.CalldataProofs
import Dse.Wallet.Proofs.LoopProofs

/-!
# The signature that is checked

`recoverSigner` takes `v` from the first byte of `s`, so `ecrecover` gets the signature that was laid
out exactly if its `v` repeats that byte. A record is then judged by other signatures than its own:
on some chain, a record of the owner is refused or a record of nobody is accepted.
-/

namespace Dse

/-! ## Reading a signature -/

/-- The `v` of a signature is the byte that its `s` begins with. -/
def EcdsaSignature.VStartsS (sig : EcdsaSignature) : Prop := sig.v.toNat = sig.s.toNat / 2 ^ 248

instance (sig : EcdsaSignature) : Decidable sig.VStartsS := inferInstanceAs (Decidable (_ = _))

theorem EcdsaSignature.asRead_eq_iff (sig : EcdsaSignature) : sig.asRead = sig ↔ sig.VStartsS := by
  have hlead : (sig.s >>> 248).toNat = sig.s.toNat / 2 ^ 248 := by
    rw [BitVec.toNat_ushiftRight, Nat.shiftRight_eq_div_pow]
  have hbyte : sig.s.toNat / 2 ^ 248 < 256 := by
    have := sig.s.isLt
    omega
  obtain ⟨r, s, v⟩ := sig
  simp only [asRead, VStartsS, EcdsaSignature.mk.injEq, true_and] at hlead hbyte ⊢
  rw [hlead, ← UInt8.toNat_inj, UInt8.toNat_ofNat', Nat.mod_eq_of_lt hbyte]
  exact eq_comm

theorem signatureAt_eq_iff (pre post : List UInt8) (sig : EcdsaSignature) :
    signatureAt (pre ++ (sig.bytes ++ post)) pre.length = sig ↔ sig.VStartsS := by
  rw [signatureAt_bytes, EcdsaSignature.asRead_eq_iff]

/-- Both signatures of the record are read as they are. -/
def RedeemRecord.VsStartSs (r : RedeemRecord) : Prop :=
  r.commitSignature.VStartsS ∧ r.invalidatingSignature.VStartsS

theorem RedeemRecord.asRead_eq {r : RedeemRecord} (h : r.VsStartSs) : r.asRead = r := by
  obtain ⟨hcommit, hinv⟩ := h
  rw [← EcdsaSignature.asRead_eq_iff] at hcommit hinv
  rw [asRead, hcommit, hinv]

theorem BurnRecord.asRead_eq {r : BurnRecord} (h : r.commitSignature.VStartsS) : r.asRead = r := by
  rw [← EcdsaSignature.asRead_eq_iff] at h
  rw [asRead, h]

/-! ## Accepting a record -/

section

variable {Hash : Type} [DecidableEq Hash] (evm : Evm Hash)

/-- The index of a record can be settled in the epoch, and its value added to the total. -/
structure IndexOpen (st : Wallet Hash × U256) (index : U32) : Prop where
  unburned : st.1.burnBufferTime (evm.claimIdentifier index st.1.currentEpoch) = 0
  unclaimed : st.1.claimed (evm.claimIdentifier index st.1.currentEpoch) = false
  fits : st.2.toNat + st.1.indexValue.toNat < 2 ^ 256

/-- The loop body of `redeemdType2` at `byteOffset` accepts what it reads exactly if the index of `r`
is open and the owner signed `r`. -/
def RedeemRecord.JudgedAt (data : List UInt8) (byteOffset : ℕ) (toAddress : Address)
    (st : Wallet Hash × U256) (r : RedeemRecord) : Prop :=
  (redeemRecord evm toAddress st (redeemRecordAt data byteOffset)).isSome ↔
    IndexOpen evm st r.index ∧ r.SignedBy evm st.1 toAddress

/-- The loop body of `burnCommits` at `byteOffset` accepts what it reads exactly if the index of `r`
is open, its buffer time fits and the owner signed `r`. -/
def BurnRecord.JudgedAt (data : List UInt8) (byteOffset : ℕ) (toAddress : Address)
    (st : Wallet Hash × U256) (r : BurnRecord) : Prop :=
  (burnRecord evm toAddress st (burnRecordAt data byteOffset)).isSome ↔
    (IndexOpen evm st r.index ∧ (r.bTime st.1).isSome) ∧ r.SignedBy evm st.1 toAddress

variable {evm} {toAddress : Address} {st : Wallet Hash × U256}

theorem redeemRecord_isSome {r : RedeemRecord} : (redeemRecord evm toAddress st r).isSome ↔
    IndexOpen evm st r.index ∧ r.SignedBy evm st.1 toAddress := by
  rw [Option.isSome_iff_exists]
  constructor
  · rintro ⟨st', h⟩
    obtain ⟨hburn, hclaim, hsigned, htotal, -⟩ := redeemRecord_eq_some.mp h
    exact ⟨⟨hburn, hclaim, htotal ▸ st'.2.isLt⟩, hsigned⟩
  · rintro ⟨hopen, hsigned⟩
    obtain ⟨total, htotal⟩ := Word.exists_toNat.mpr hopen.fits
    exact ⟨(_, total), redeemRecord_eq_some.mpr
      ⟨hopen.unburned, hopen.unclaimed, hsigned, htotal, rfl⟩⟩

theorem burnRecord_isSome {r : BurnRecord} : (burnRecord evm toAddress st r).isSome ↔
    (IndexOpen evm st r.index ∧ (r.bTime st.1).isSome) ∧ r.SignedBy evm st.1 toAddress := by
  rw [Option.isSome_iff_exists]
  constructor
  · rintro ⟨st', h⟩
    obtain ⟨hburn, hclaim, hsigned, htotal, b, hb, -⟩ := burnRecord_eq_some.mp h
    exact ⟨⟨⟨hburn, hclaim, htotal ▸ st'.2.isLt⟩, Option.isSome_of_eq_some hb⟩, hsigned⟩
  · rintro ⟨⟨hopen, hb⟩, hsigned⟩
    obtain ⟨b, hb⟩ := Option.isSome_iff_exists.mp hb
    obtain ⟨total, htotal⟩ := Word.exists_toNat.mpr hopen.fits
    exact ⟨(_, total), burnRecord_eq_some.mpr
      ⟨hopen.unburned, hopen.unclaimed, hsigned, htotal, b, hb, rfl⟩⟩

/-- On one chain, a record is judged by its own signatures exactly if they and what is read of them
are both the owner's or both not, or its index is not open anyway. -/
theorem RedeemRecord.judgedAt_iff (pre post : List UInt8) (r : RedeemRecord) :
    r.JudgedAt evm (pre ++ (r.bytes ++ post)) pre.length toAddress st ↔
      (IndexOpen evm st r.index →
        (r.asRead.SignedBy evm st.1 toAddress ↔ r.SignedBy evm st.1 toAddress)) := by
  rw [JudgedAt, redeemRecordAt_bytes, redeemRecord_isSome]
  exact and_congr_right_iff

theorem BurnRecord.judgedAt_iff (pre post : List UInt8) (r : BurnRecord) :
    r.JudgedAt evm (pre ++ (r.bytes ++ post)) pre.length toAddress st ↔
      (IndexOpen evm st r.index ∧ (r.bTime st.1).isSome →
        (r.asRead.SignedBy evm st.1 toAddress ↔ r.SignedBy evm st.1 toAddress)) := by
  rw [JudgedAt, burnRecordAt_bytes, burnRecord_isSome]
  exact and_congr_right_iff

end

/-! ## A chain that tells two signatures apart -/

/-- On this chain the owner's signature of an invalidating message is `invalidating`, that of any
other message is `commit`, and there are no others. -/
def singleEvm (commit invalidating : EcdsaSignature) : Evm (List UInt8) :=
  { plainEvm with
    ecrecover := fun message v r s =>
      if (⟨r, s, v⟩ : EcdsaSignature) = if message.length = 4 then invalidating else commit then 7
      else 0 }

theorem recover_singleEvm (commit invalidating sig : EcdsaSignature) (message : List UInt8) :
    (singleEvm commit invalidating).recover message sig = 7 ↔
      sig = if message.length = 4 then invalidating else commit := by
  have hrecover : (singleEvm commit invalidating).recover message sig =
      if sig = if message.length = 4 then invalidating else commit then 7 else 0 := rfl
  rw [hrecover]
  by_cases h : sig = if message.length = 4 then invalidating else commit
  · rw [if_pos h]
    exact iff_of_true rfl h
  · rw [if_neg h]
    exact iff_of_false (by decide) h

theorem RedeemRecord.signedBy_singleEvm (commit invalidating : EcdsaSignature)
    (r : RedeemRecord) : r.SignedBy (singleEvm commit invalidating) plainWorld.wallet 9 ↔
      r.commitSignature = commit ∧ r.invalidatingSignature = invalidating := by
  have hlong : ∀ owner, ((singleEvm commit invalidating).keccak256 (type2Blob r.index
      plainWorld.wallet.currentEpoch r.u owner 9)).length ≠ 4 := by
    intro owner h
    rw [show ∀ bs, (singleEvm commit invalidating).keccak256 bs = bs from fun _ => rfl,
      length_type2Blob] at h
    cases h
  have hshort : ((singleEvm commit invalidating).invalidatingHash r.u).length = 4 :=
    Bytes.length_be 4 r.u.toNat
  rw [SignedBy, show plainWorld.wallet.owner = 7 from rfl, recover_singleEvm, recover_singleEvm,
    if_neg (hlong 7), if_pos hshort]

theorem BurnRecord.signedBy_singleEvm (commit : EcdsaSignature) (r : BurnRecord) :
    r.SignedBy (singleEvm commit commit) plainWorld.wallet 9 ↔ r.commitSignature = commit := by
  rw [SignedBy, show plainWorld.wallet.owner = 7 from rfl, recover_singleEvm, ite_self]

theorem indexOpen_singleEvm (commit invalidating : EcdsaSignature) (index : U32) :
    IndexOpen (singleEvm commit invalidating) (plainWorld.wallet, 0) index :=
  ⟨rfl, rfl, by decide⟩

/-! ## When the signatures of a record decide -/

/-- The signature that `recoverSigner` passes on is the one that was laid out exactly if its `v`
repeats the first byte of its `s`. On a given chain, a record is then accepted by its own signatures
exactly if what was read of them makes no difference; on every chain, exactly if their `v`s repeat
those bytes. -/
theorem signature_decoding_iff {Hash : Type} [DecidableEq Hash] (evm : Evm Hash)
    (toAddress : Address) (st : Wallet Hash × U256) (pre post : List UInt8) :
    (∀ sig : EcdsaSignature,
      signatureAt (pre ++ (sig.bytes ++ post)) pre.length = sig ↔ sig.VStartsS) ∧
    ((∀ r : RedeemRecord, r.JudgedAt evm (pre ++ (r.bytes ++ post)) pre.length toAddress st ↔
        (IndexOpen evm st r.index →
          (r.asRead.SignedBy evm st.1 toAddress ↔ r.SignedBy evm st.1 toAddress))) ∧
      ∀ r : BurnRecord, r.JudgedAt evm (pre ++ (r.bytes ++ post)) pre.length toAddress st ↔
        (IndexOpen evm st r.index ∧ (r.bTime st.1).isSome →
          (r.asRead.SignedBy evm st.1 toAddress ↔ r.SignedBy evm st.1 toAddress))) ∧
    (∀ r : RedeemRecord,
      (∀ (Hash : Type) [DecidableEq Hash] (evm : Evm Hash) (toAddress : Address)
        (st : Wallet Hash × U256),
        r.JudgedAt evm (pre ++ (r.bytes ++ post)) pre.length toAddress st) ↔ r.VsStartSs) ∧
    ∀ r : BurnRecord,
      (∀ (Hash : Type) [DecidableEq Hash] (evm : Evm Hash) (toAddress : Address)
        (st : Wallet Hash × U256),
        r.JudgedAt evm (pre ++ (r.bytes ++ post)) pre.length toAddress st) ↔
          r.commitSignature.VStartsS := by
  refine ⟨signatureAt_eq_iff pre post,
    ⟨RedeemRecord.judgedAt_iff pre post, BurnRecord.judgedAt_iff pre post⟩,
    fun r => ⟨fun h => ?_, fun hv Hash _ evm toAddress st => ?_⟩,
    fun r => ⟨fun h => ?_, fun hv Hash _ evm toAddress st => ?_⟩⟩
  · -- the chain on which the owner made these two signatures and no others
    have hread := (r.judgedAt_iff pre post).mp (h (List UInt8)
      (singleEvm r.commitSignature r.invalidatingSignature) 9 (plainWorld.wallet, 0))
      (indexOpen_singleEvm _ _ r.index)
    rw [RedeemRecord.signedBy_singleEvm, RedeemRecord.signedBy_singleEvm] at hread
    obtain ⟨hcommit, hinv⟩ := hread.mpr ⟨rfl, rfl⟩
    exact ⟨(EcdsaSignature.asRead_eq_iff _).mp hcommit, (EcdsaSignature.asRead_eq_iff _).mp hinv⟩
  · rw [RedeemRecord.judgedAt_iff, RedeemRecord.asRead_eq hv]
    exact fun _ => Iff.rfl
  · have hopen := indexOpen_singleEvm r.commitSignature r.commitSignature r.index
    have hbTime : (r.bTime plainWorld.wallet).isSome := by
      unfold BurnRecord.bTime
      split <;> rfl
    have hread := (r.judgedAt_iff pre post).mp (h (List UInt8)
      (singleEvm r.commitSignature r.commitSignature) 9 (plainWorld.wallet, 0)) ⟨hopen, hbTime⟩
    rw [BurnRecord.signedBy_singleEvm, BurnRecord.signedBy_singleEvm] at hread
    exact (EcdsaSignature.asRead_eq_iff _).mp (hread.mpr rfl)
  · rw [BurnRecord.judgedAt_iff, BurnRecord.asRead_eq hv]
    exact fun _ => Iff.rfl

/-- A signature of the owner whose `v` is 27 and whose `s` begins with 0 is read with `v` 0. Where
the recovery fails on that, both batches refuse the owner's own records. -/
theorem not_signature_decoding :
    (¬ ∀ (pre post : List UInt8) (sig : EcdsaSignature),
      signatureAt (pre ++ (sig.bytes ++ post)) pre.length = sig) ∧
    (¬ ∀ (pre post : List UInt8) (r : RedeemRecord),
      r.JudgedAt strictEvm (pre ++ (r.bytes ++ post)) pre.length 9 (plainWorld.wallet, 0)) ∧
    (¬ ∀ (pre post : List UInt8) (r : BurnRecord),
      r.JudgedAt strictEvm (pre ++ (r.bytes ++ post)) pre.length 9 (plainWorld.wallet, 0)) ∧
    (plainWorld.redeemdType2 strictEvm
      (redeemCalldata 9 [⟨1, 1, ⟨7, 0, 27⟩, ⟨7, 0, 27⟩⟩])).isNone := by
  refine ⟨fun h => ?_, fun h => ?_, fun h => ?_, by decide +kernel⟩
  · have hread := congrArg EcdsaSignature.v (h [] [] ⟨7, 0, 27⟩)
    revert hread
    decide +kernel
  · have hrefused : (redeemRecord strictEvm 9 (plainWorld.wallet, 0) (redeemRecordAt
        ([] ++ (RedeemRecord.bytes ⟨1, 1, ⟨7, 0, 27⟩, ⟨7, 0, 27⟩⟩ ++ [])) 0)).isSome = false := by
      decide +kernel
    have haccepted := (h [] [] ⟨1, 1, ⟨7, 0, 27⟩, ⟨7, 0, 27⟩⟩).mpr
      ⟨⟨rfl, rfl, by decide⟩, by decide +kernel⟩
    rw [List.length_nil, hrefused] at haccepted
    cases haccepted
  · have hrefused : (burnRecord strictEvm 9 (plainWorld.wallet, 0) (burnRecordAt
        ([] ++ (BurnRecord.bytes ⟨1, 1, 0, ⟨7, 0, 27⟩⟩ ++ [])) 0)).isSome = false := by
      decide +kernel
    have haccepted := (h [] [] ⟨1, 1, 0, ⟨7, 0, 27⟩⟩).mpr
      ⟨⟨⟨rfl, rfl, by decide⟩, rfl⟩, by decide +kernel⟩
    rw [List.length_nil, hrefused] at haccepted
    cases haccepted

end Dse
