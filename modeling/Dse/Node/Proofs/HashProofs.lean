import Dse.Node.Commit
import Dse.Wallet.Contract

/-!
# The two encodings of a commit

`commit_hash` writes a commit the way the node signs and checks it, `redeemdType2` and `burnCommits`
the way the wallet does. The node leaves 64 zero bytes where the wallet has the 32 bytes of the
index, so the two byte strings have different lengths for every commit.
-/

namespace Dse

variable {Hash : Type}

/-! ## Lengths -/

theorem Commit.length_blob (c : Commit) : c.blob.length = if c.cType = .t2 then 200 else 180 := by
  unfold Commit.blob
  split <;> simp

theorem BurnRecord.length_blob (wallet : Wallet Hash) (toAddress : Address) (r : BurnRecord) :
    (r.blob wallet toAddress).length = if r.ctype < 2 then 148 else 168 := by
  unfold BurnRecord.blob
  split
  · exact length_type1Blob _ _ _ _
  · exact length_type2Blob _ _ _ _ _

/-! ## The commits of a record -/

namespace Commit

/-- The record of a `redeemdType2` batch is about the commit: a type 2 commit of one index that the
owner invalidates and `toAddress` redeems. -/
structure IsRedeemed (c : Commit) (wallet : Wallet Hash) (toAddress : Address) (r : RedeemRecord) :
    Prop where
  indexes : c.indexes = [r.index, r.index]
  epoch : c.epoch = wallet.currentEpoch
  u : c.u = r.u
  cType : c.cType = .t2
  iAddress : c.iAddress = wallet.owner
  rAddress : c.rAddress = toAddress

/-- The record of a `burnCommits` batch is about the commit. A type 1 commit has no address that
redeems it. -/
structure IsBurned (c : Commit) (wallet : Wallet Hash) (toAddress : Address) (r : BurnRecord) :
    Prop where
  indexes : c.indexes = [r.index, r.index]
  epoch : c.epoch = wallet.currentEpoch
  u : c.u = r.u
  cType : c.cType = if r.ctype < 2 then .t1 else .t2
  iAddress : c.iAddress = r.iAddress wallet toAddress
  rAddress : c.cType = .t2 → c.rAddress = toAddress

end Commit

/-- No commit is written the same way on both sides. -/
theorem commit_blob_ne (c : Commit) (wallet : Wallet Hash) (toAddress : Address) :
    (∀ r : RedeemRecord, c.IsRedeemed wallet toAddress r →
      c.blob ≠ type2Blob r.index wallet.currentEpoch r.u wallet.owner toAddress) ∧
    (∀ r : BurnRecord, c.IsBurned wallet toAddress r → c.blob ≠ r.blob wallet toAddress) := by
  constructor
  · intro r hr h
    have hlen := congrArg List.length h
    rw [c.length_blob, if_pos hr.cType, length_type2Blob] at hlen
    omega
  · intro r hr h
    have hlen := congrArg List.length h
    rw [c.length_blob, r.length_blob, hr.cType] at hlen
    by_cases ht : r.ctype < 2
    · simp [ht] at hlen
    · simp [ht] at hlen

/-- The type 2 commit of index 4 in epoch 1, for trade 6, with owner 7 and receiver 5. -/
def plainType2Commit : Commit where
  indexes := [4, 4]
  epoch := 1
  u := 6
  cType := .t2
  iAddress := 7
  rAddress := 5
  walletAddress := 1
  signature := none
  invalidatingSignature := none

/-- The wallet of owner 7 in epoch 1. -/
def plainWallet : Wallet Unit :=
  { Wallet.ofConstructor 604800 30 7 9 86400 with currentEpoch := 1 }

theorem commit_blob_ne_plainType2Commit :
    plainType2Commit.blob ≠ type2Blob 4 1 6 7 5 ∧
    plainType2Commit.blob ≠ (⟨4, 6, 2, ⟨0, 0, 0⟩⟩ : BurnRecord).blob plainWallet 5 :=
  ⟨(commit_blob_ne plainType2Commit plainWallet 5).1 ⟨4, 6, ⟨0, 0, 0⟩, ⟨0, 0, 0⟩⟩
      ⟨rfl, rfl, rfl, rfl, rfl, rfl⟩,
    (commit_blob_ne plainType2Commit plainWallet 5).2 ⟨4, 6, 2, ⟨0, 0, 0⟩⟩
      ⟨rfl, rfl, rfl, rfl, rfl, fun _ => rfl⟩⟩

/-- The two sides do not agree on what the owner of a commit has signed. -/
theorem not_commit_blob_eq :
    ¬ ∀ (c : Commit) (wallet : Wallet Unit) (toAddress : Address),
      (∀ r : RedeemRecord, c.IsRedeemed wallet toAddress r →
        c.blob = type2Blob r.index wallet.currentEpoch r.u wallet.owner toAddress) ∧
      (∀ r : BurnRecord, c.IsBurned wallet toAddress r → c.blob = r.blob wallet toAddress) := by
  intro h
  have heq := (h plainType2Commit plainWallet 5).1 ⟨4, 6, ⟨0, 0, 0⟩, ⟨0, 0, 0⟩⟩
    ⟨rfl, rfl, rfl, rfl, rfl, rfl⟩
  have hlen := congrArg List.length heq
  rw [Commit.length_blob, length_type2Blob] at hlen
  cases hlen

end Dse
