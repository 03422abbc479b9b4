import Dse.Wallet.Contract

/-!
# The batch calls, on decoded records

`redeemdType2` and `burnCommits` read their records out of the calldata and `challengeBurnCommits`
out of four arrays. What they do with the records is written here apart from how they are read, so
that two calls can be compared by what they bring.
-/

namespace Dse

namespace World

variable {Hash : Type} [DecidableEq Hash] (evm : Evm Hash)

/-- `redeemdType2` on the records `rs`. -/
def redeem (toAddress : Address) (rs : List RedeemRecord) (w : World Hash) :
    Option (World Hash) := do
  let (wallet, totalAmount) ← redeemLoop evm toAddress (w.wallet, 0) rs
  { w with wallet }.transfer evm toAddress totalAmount

/-- `burnCommits` on the records `rs`. -/
def burn (timestamp : U256) (toAddress : Address) (rs : List BurnRecord) (w : World Hash) :
    Option (World Hash) := do
  let margin ← Word.add? w.wallet.burnBuffer invDisadvantageBuffer
  let deadline ← Word.sub? w.wallet.epochExpiresBy margin
  revertIf (deadline ≤ timestamp)
  let (wallet, totalBurn) ← burnLoop evm toAddress (w.wallet, 0) rs
  let pendingBurnAmount ← Word.add? wallet.pendingBurnAmount totalBurn
  some { w with wallet := { wallet with pendingBurnAmount } }

/-- `challengeBurnCommits` on the records `cs`. -/
def challenge [Inhabited Hash] (timestamp : U256) (cs : List (ChallengeRecord Hash))
    (w : World Hash) : Option (World Hash) := do
  let (wallet, totalBurn) ← challengeLoop evm timestamp (w.wallet, 0) cs
  let pendingBurnAmount ← Word.sub? wallet.pendingBurnAmount totalBurn
  some { w with wallet := { wallet with pendingBurnAmount } }

variable {evm} {w : World Hash}

theorem redeemdType2_eq (data : List UInt8) :
    w.redeemdType2 evm data = w.redeem evm (toAddressOf data) (redeemRecords data) := rfl

theorem burnCommits_eq (timestamp : U256) (data : List UInt8) :
    w.burnCommits evm timestamp data =
      w.burn evm timestamp (toAddressOf data) (burnRecords data) := rfl

/-- On arrays of one length, `challengeBurnCommits` works on their entries side by side. -/
theorem challengeBurnCommits_eq [Inhabited Hash] (timestamp : U256) {commitHash : List Hash}
    {v : List UInt8} {r s : List U256} (hv : commitHash.length = v.length)
    (hr : v.length = r.length) (hs : v.length = s.length) :
    w.challengeBurnCommits evm timestamp commitHash v r s =
      w.challenge evm timestamp (challengeRecords commitHash v r s) := by
  unfold challengeBurnCommits challenge
  have h1 : revertIf (commitHash.length ≠ v.length) = some () := by simp [hv]
  have h2 : revertIf (v.length ≠ r.length ∨ v.length ≠ s.length) = some () := by simp [← hr, ← hs]
  rw [h1, h2]
  rfl

end World

end Dse
