import Dse.Node.Indexer
import Dse.Node.Proofs.HashProofs

/-!
# What a commit signature binds

The owner of a wallet signs the hash of a commit. Every field that `commit_hash` writes into the blob
can be read back from it, so with an injective hash a signature binds all of them. The indexes are not
written: a signature is good for the same commit over any indexes.
-/

namespace Dse

variable {Hash : Type} {env : Env Hash}

namespace Commit

/-- The commits agree in the fields that are written into the blob. -/
structure SameHashed (a b : Commit) : Prop where
  epoch : a.epoch = b.epoch
  u : a.u = b.u
  cType : a.cType = b.cType
  iAddress : a.iAddress = b.iAddress
  rAddress : a.cType = .t2 → a.rAddress = b.rAddress

instance (a b : Commit) : Decidable (a.SameHashed b) :=
  decidable_of_iff (a.epoch = b.epoch ∧ a.u = b.u ∧ a.cType = b.cType ∧ a.iAddress = b.iAddress ∧
      (a.cType = .t2 → a.rAddress = b.rAddress))
    ⟨fun h => ⟨h.1, h.2.1, h.2.2.1, h.2.2.2.1, h.2.2.2.2⟩,
      fun h => ⟨h.epoch, h.u, h.cType, h.iAddress, h.rAddress⟩⟩

/-! ## Reading the blob -/

theorem toNat_cType_lt (t : CommitType) : t.toNat < 256 ^ 32 := by
  cases t with
  | t1 => exact Nat.one_lt_pow (by omega) (by omega)
  | t2 => exact (show 2 < 256 ^ 1 by omega).trans_le (Nat.pow_le_pow_right (by omega) (by omega))

theorem toNat_cType_inj {t t' : CommitType} (h : t.toNat = t'.toNat) : t = t' := by
  cases t with
  | t1 =>
    cases t' with
    | t1 => rfl
    | t2 => cases h
  | t2 =>
    cases t' with
    | t1 => cases h
    | t2 => rfl

/-- The bytes of the receiver, at the end of the blob. -/
def tail (c : Commit) : List UInt8 :=
  if c.cType = .t2 then Bytes.be 20 c.rAddress.toNat else []

/-- The blob is read from the front: each field has its width. -/
theorem blob_inj {a b : Commit} (h : a.blob = b.blob) : a.SameHashed b := by
  have hfields : Bytes.le 32 a.epoch.toNat ++ (Bytes.le 32 a.u.toNat ++
        (Bytes.le 32 a.cType.toNat ++ (Bytes.be 20 a.iAddress.toNat ++ a.tail))) =
      Bytes.le 32 b.epoch.toNat ++ (Bytes.le 32 b.u.toNat ++
        (Bytes.le 32 b.cType.toNat ++ (Bytes.be 20 b.iAddress.toNat ++ b.tail))) := by
    unfold blob at h
    simp only [List.append_assoc] at h
    exact List.append_cancel_left h
  have h256 : (2 : ℕ) ^ 256 = 256 ^ 32 := by norm_num
  have h32 : (2 : ℕ) ^ 32 ≤ 256 ^ 32 := Nat.pow_le_pow_left (by omega) 32
  have h160 : (2 : ℕ) ^ 160 = 256 ^ 20 := by norm_num
  obtain ⟨hepoch, hfields⟩ := List.append_inj hfields (by simp)
  obtain ⟨hu, hfields⟩ := List.append_inj hfields (by simp)
  obtain ⟨htype, hfields⟩ := List.append_inj hfields (by simp)
  obtain ⟨hi, htail⟩ := List.append_inj hfields (by simp)
  have hcType : a.cType = b.cType :=
    toNat_cType_inj (Bytes.le_inj (toNat_cType_lt _) (toNat_cType_lt _) htype)
  refine ⟨?_, ?_, hcType, ?_, ?_⟩
  · apply BitVec.eq_of_toNat_eq
    exact Bytes.le_inj (h256 ▸ a.epoch.isLt) (h256 ▸ b.epoch.isLt) hepoch
  · apply BitVec.eq_of_toNat_eq
    exact Bytes.le_inj (a.u.isLt.trans_le h32) (b.u.isLt.trans_le h32) hu
  · apply BitVec.eq_of_toNat_eq
    exact Bytes.be_inj (h160 ▸ a.iAddress.isLt) (h160 ▸ b.iAddress.isLt) hi
  · intro ht
    have ht' : b.cType = .t2 := hcType ▸ ht
    unfold tail at htail
    rw [if_pos ht, if_pos ht'] at htail
    apply BitVec.eq_of_toNat_eq
    exact Bytes.be_inj (h160 ▸ a.rAddress.isLt) (h160 ▸ b.rAddress.isLt) htail

theorem blob_congr {a b : Commit} (h : a.SameHashed b) : a.blob = b.blob := by
  unfold blob
  rw [h.epoch, h.u, h.cType, h.iAddress]
  by_cases ht : a.cType = .t2
  · rw [h.rAddress ht]
  · rw [if_neg (h.cType ▸ ht), if_neg (h.cType ▸ ht)]

theorem commitHash_eq_iff (hinj : Function.Injective env.keccak256) {a b : Commit} :
    a.commitHash env = b.commitHash env ↔ a.SameHashed b := by
  constructor
  · intro h
    exact blob_inj (hinj h)
  · intro h
    exact congrArg env.keccak256 (blob_congr h)

/-! ## The same signature on another commit -/

/-- A signature is accepted for two commits exactly if they have one hash, where a signature recovers
an address for one hash only. -/
theorem signingAddress_eq_iff
    (hrec : ∀ h h' sig x, env.recover h sig = some x → env.recover h' sig = some x → h = h')
    {a b : Commit} {sig : Signature} {owner : Address}
    (ha : { a with signature := some sig }.signingAddress env = some owner) :
    { b with signature := some sig }.signingAddress env = some owner ↔
      a.commitHash env = b.commitHash env := by
  have ha' : env.recover (a.commitHash env) sig = some owner := ha
  constructor
  · intro hb
    exact hrec _ _ sig owner ha' hb
  · intro h
    show env.recover (b.commitHash env) sig = some owner
    rw [← h]
    exact ha'

/-- A commit hash, and a signature on it, binds the indexes of a commit exactly where another field
tells the commits apart. -/
theorem commit_hash_binds_iff (hinj : Function.Injective env.keccak256) (a b : Commit) :
    ((a.commitHash env = b.commitHash env → a.indexes = b.indexes ∧ a.SameHashed b) ↔
      (a.SameHashed b → a.indexes = b.indexes)) ∧
    ((∀ h h' sig x, env.recover h sig = some x → env.recover h' sig = some x → h = h') →
      ∀ sig owner, { a with signature := some sig }.signingAddress env = some owner →
        (({ b with signature := some sig }.signingAddress env = some owner →
            a.indexes = b.indexes ∧ a.SameHashed b) ↔
          (a.SameHashed b → a.indexes = b.indexes))) := by
  have hbinds : (a.SameHashed b → a.indexes = b.indexes ∧ a.SameHashed b) ↔
      (a.SameHashed b → a.indexes = b.indexes) := by
    constructor
    · exact fun h hsame => (h hsame).1
    · exact fun h hsame => ⟨h hsame, hsame⟩
  constructor
  · rw [commitHash_eq_iff hinj]
    exact hbinds
  · intro hrec sig owner ha
    rw [signingAddress_eq_iff hrec ha, commitHash_eq_iff hinj]
    exact hbinds

/-- An environment in which owner 7 has made one signature, on the commit `plainCommit 6`. -/
def oneSignatureEnv : Env (List UInt8) :=
  { plainEnv with
    recover := fun h signature =>
      if h = (plainCommit 6).blob ∧ signature = ⟨7, 0, 0⟩ then some 7 else none }

theorem signingAddress_oneSignatureEnv :
    (plainCommit 6).signingAddress oneSignatureEnv = some 7 := by
  have hone : ∀ h, oneSignatureEnv.recover h ⟨7, 0, 0⟩ =
      if h = (plainCommit 6).blob ∧ (⟨7, 0, 0⟩ : Signature) = ⟨7, 0, 0⟩ then some 7 else none :=
    fun _ => rfl
  have hblob : (plainCommit 6).commitHash oneSignatureEnv = (plainCommit 6).blob := rfl
  show oneSignatureEnv.recover ((plainCommit 6).commitHash oneSignatureEnv) ⟨7, 0, 0⟩ = some 7
  rw [hone, hblob, if_pos ⟨rfl, rfl⟩]

theorem commit_hash_binds_iff_oneSignatureEnv :
    let b := { plainCommit 6 with u := 7 }
    (((plainCommit 6).commitHash oneSignatureEnv = b.commitHash oneSignatureEnv →
        (plainCommit 6).indexes = b.indexes ∧ (plainCommit 6).SameHashed b) ↔
      ((plainCommit 6).SameHashed b → (plainCommit 6).indexes = b.indexes)) ∧
    (({ b with signature := some ⟨7, 0, 0⟩ }.signingAddress oneSignatureEnv = some 7 →
        (plainCommit 6).indexes = b.indexes ∧ (plainCommit 6).SameHashed b) ↔
      ((plainCommit 6).SameHashed b → (plainCommit 6).indexes = b.indexes)) := by
  intro b
  obtain ⟨hhash, hsig⟩ := commit_hash_binds_iff (show Function.Injective
    oneSignatureEnv.keccak256 from Function.injective_id) (plainCommit 6) b
  refine ⟨hhash, hsig ?_ ⟨7, 0, 0⟩ 7 signingAddress_oneSignatureEnv⟩
  have hone : ∀ h sig x, oneSignatureEnv.recover h sig = some x → h = (plainCommit 6).blob := by
    intro h sig x hx
    by_contra hne
    have hnone : oneSignatureEnv.recover h sig = none := if_neg fun hand => hne hand.1
    rw [hnone] at hx
    cases hx
  intro h h' sig x hx hx'
  rw [hone h sig x hx, hone h' sig x hx']

/-- One hash, and one signature, for the same commit over index 4 and over index 5. -/
theorem not_commit_hash_binds_oneSignatureEnv :
    Function.Injective oneSignatureEnv.keccak256 ∧
    (¬ ∀ a b : Commit, a.commitHash oneSignatureEnv = b.commitHash oneSignatureEnv →
      a.indexes = b.indexes ∧ a.SameHashed b) ∧
    ¬ ∀ (a b : Commit) (owner : Address), a.signature = b.signature →
      a.signingAddress oneSignatureEnv = some owner →
      b.signingAddress oneSignatureEnv = some owner → a.indexes = b.indexes := by
  refine ⟨Function.injective_id, ?_, ?_⟩
  · intro h
    have heq := (h (plainCommit 6) { plainCommit 6 with indexes := [5, 5] } rfl).1
    exact absurd heq (by decide)
  · intro h
    have heq := h (plainCommit 6) { plainCommit 6 with indexes := [5, 5] } 7 rfl
      signingAddress_oneSignatureEnv signingAddress_oneSignatureEnv
    exact absurd heq (by decide)

end Commit

end Dse
