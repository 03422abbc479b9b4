import Dse.Lib.Bytes
import Dse.Lib.Word
import Dse.Wallet.Currency

/-!
# The `Wallet` contract

A function-by-function embedding of the time-locked wallet. A function returns the state it leaves
behind, or `none` when the call reverts. `keccak256`, the `ecrecover` precompile and the currency's
`transfer` are parameters (`Evm`); the digests are values of an arbitrary type `Hash`, whose default
value is the zero word that a mapping holds before it is written.

`redeemdType2` and `burnCommits` parse the raw calldata themselves, with word loads at computed
offsets; `redeemRecordAt` and `burnRecordAt` are these reads, and the loop bodies `redeemRecord` and
`burnRecord` work on what was read.
-/

namespace Dse

/-- What the contract calls and cannot see into. -/
structure Evm (Hash : Type) where
  /-- The hash function. -/
  keccak256 : List UInt8 → Hash
  /-- The signature recovery precompile, with `v`, `r` and `s` in this order. -/
  ecrecover : Hash → UInt8 → U256 → U256 → Address
  /-- The currency's `transfer`, on its ledger, from the caller to the recipient. -/
  transfer : Ledger → Address → Address → U256 → TransferResult

/-- The storage and the immutables of a wallet. -/
structure Wallet (Hash : Type) where
  claimed : Hash → Bool
  burnBufferTime : Hash → U256
  burnBufferIBlob : Hash → Hash
  burnBufferIAddress : Hash → Address
  /-- Wallet's on going epoch. -/
  currentEpoch : U256
  /-- Epoch's end time. -/
  epochExpiresBy : U256
  /-- Wallet's reserves in currency. -/
  reserves : U256
  /-- ERC20 token's address used as currency by wallet. -/
  currency : Address
  /-- Owner of the wallet. -/
  owner : Address
  /-- Duration of a epoch. -/
  epochDuration : U256
  /-- Value in currency per index. -/
  indexValue : U256
  /-- Buffer time for burn. -/
  burnBuffer : U256
  /-- Funds to be burnt before moving to next epoch. -/
  pendingBurnAmount : U256

/-- A wallet on its chain: its address, its storage, the ledger of its currency and the timestamp
of the last block. -/
structure World (Hash : Type) where
  this : Address
  wallet : Wallet Hash
  balances : Ledger
  now : U256

/-- Buffer time added to the burn buffer of commitments whose invalidating address is not the
owner: `1 hours`. -/
def invDisadvantageBuffer : U256 := 3600

/-- `if (c) revert();` -/
def revertIf (c : Prop) [Decidable c] : Option Unit := if c then none else some ()

@[simp] theorem revertIf_eq_some {c : Prop} [Decidable c] {u : Unit} :
    revertIf c = some u ↔ ¬ c := by
  unfold revertIf
  split <;> simp [*]

/-! ## Calldata and signatures -/

/-- The `r`, `s`, `v` of a signature as the contract reads them. -/
structure EcdsaSignature where
  r : U256
  s : U256
  v : UInt8
deriving DecidableEq, Repr

/-- The word of the calldata at byte `i`. -/
def calldataload (data : List UInt8) (i : ℕ) : U256 :=
  BitVec.ofNat 256 (Bytes.ofBE (Bytes.window data i 32))

/-- The three loads of `recoverSigner`. -/
def signatureAt (data : List UInt8) (sIndex : ℕ) : EcdsaSignature where
  r := calldataload data sIndex
  s := calldataload data (sIndex + 32)
  v := UInt8.ofNat (calldataload data (sIndex + 32) >>> 248).toNat

/-- The 16-bit record count of a batch. -/
def countOf (data : List UInt8) : ℕ := (calldataload data 4 >>> 240).toNat

/-- The `toAddress` of a batch. -/
def toAddressOf (data : List UInt8) : Address := (calldataload data 6 >>> 96).setWidth 160

/-- A 32-bit field at byte `i`. -/
def uint32At (data : List UInt8) (i : ℕ) : U32 := (calldataload data i >>> 224).setWidth 32

/-- The byte at `i`. -/
def uint8At (data : List UInt8) (i : ℕ) : UInt8 :=
  UInt8.ofNat (calldataload data i >>> 248).toNat

/-! ## The signed byte strings -/

/-- `abi.encodePacked(index, epoch)` of a `uint32` and a `uint256`. -/
def claimBlob (index : U32) (epoch : U256) : List UInt8 :=
  Bytes.be 4 index.toNat ++ Bytes.be 32 epoch.toNat

/-- `abi.encodePacked(u)` of a `uint32`: the invalidating message. -/
def invalidatingBlob (u : U32) : List UInt8 := Bytes.be 4 u.toNat

/-- The packed type 1 commit. -/
def type1Blob (index : U32) (epoch : U256) (u : U32) (iAddress : Address) : List UInt8 :=
  Bytes.be 32 index.toNat ++ Bytes.be 32 epoch.toNat ++ Bytes.be 32 u.toNat ++ Bytes.be 32 1 ++
    Bytes.be 20 iAddress.toNat

/-- The packed type 2 commit. -/
def type2Blob (index : U32) (epoch : U256) (u : U32) (owner toAddress : Address) : List UInt8 :=
  Bytes.be 32 index.toNat ++ Bytes.be 32 epoch.toNat ++ Bytes.be 32 u.toNat ++ Bytes.be 32 2 ++
    Bytes.be 20 owner.toNat ++ Bytes.be 20 toAddress.toNat

theorem length_type1Blob (index : U32) (epoch : U256) (u : U32) (iAddress : Address) :
    (type1Blob index epoch u iAddress).length = 148 := by
  simp [type1Blob]

theorem length_type2Blob (index : U32) (epoch : U256) (u : U32) (owner toAddress : Address) :
    (type2Blob index epoch u owner toAddress).length = 168 := by
  simp [type2Blob]

variable {Hash : Type} (evm : Evm Hash)

namespace Evm

/-- `ecrecover` on a signature that was read. -/
def recover (message : Hash) (sig : EcdsaSignature) : Address :=
  evm.ecrecover message sig.v sig.r sig.s

/-- `recoverSigner`: the signature at `sIndex` of the calldata, recovered. -/
def recoverSigner (data : List UInt8) (sIndex : ℕ) (message : Hash) : Address :=
  evm.recover message (signatureAt data sIndex)

/-- The key of an index in an epoch. -/
def claimIdentifier (index : U32) (epoch : U256) : Hash := evm.keccak256 (claimBlob index epoch)

/-- The digest of the invalidating message. -/
def invalidatingHash (u : U32) : Hash := evm.keccak256 (invalidatingBlob u)

end Evm

/-! ## Construction and moving tokens -/

/-- The storage the constructor leaves behind. -/
def Wallet.ofConstructor [Inhabited Hash] (epochDuration indexValue : U256)
    (owner currency : Address) (burnBuffer : U256) : Wallet Hash where
  claimed := fun _ => false
  burnBufferTime := fun _ => 0
  burnBufferIBlob := fun _ => default
  burnBufferIAddress := fun _ => 0
  currentEpoch := 0
  epochExpiresBy := 0
  reserves := 0
  currency := currency
  owner := owner
  epochDuration := epochDuration
  indexValue := indexValue
  burnBuffer := burnBuffer
  pendingBurnAmount := 0

namespace World

/-- `getBalance(currency)`. -/
def getBalance (w : World Hash) : U256 := w.balances w.this

/-- `IERC20(currency).transfer(to, amount)` made by the wallet. The returned flag is dropped. -/
def transfer (w : World Hash) (recipient : Address) (amount : U256) : Option (World Hash) :=
  match evm.transfer w.balances w.this recipient amount with
  | .moved => some { w with balances := w.balances.move w.this recipient amount }
  | .refused => some w
  | .reverted => none

/-- `safeTransfer`: a returned `false` reverts too. -/
def safeTransfer (w : World Hash) (recipient : Address) (amount : U256) : Option (World Hash) :=
  match evm.transfer w.balances w.this recipient amount with
  | .moved => some { w with balances := w.balances.move w.this recipient amount }
  | .refused => none
  | .reverted => none

/-- Burns pending burn amount, by sending it to address 0. -/
def burnPendingAmount (w : World Hash) : Option (World Hash) :=
  if w.wallet.pendingBurnAmount ≠ 0 then do
    let w ← w.transfer evm 0 w.wallet.pendingBurnAmount
    some { w with wallet := { w.wallet with pendingBurnAmount := 0 } }
  else
    some w

/-- Checks whether commit of an index in the current epoch valid. -/
def isValidCommitRange (w : World Hash) (timestamp sIndex eIndex epoch : U256) : Option Bool :=
  if sIndex = 0 then some false
  else if eIndex ≤ sIndex then some false
  else if epoch ≠ w.wallet.currentEpoch ∨ w.wallet.epochExpiresBy ≤ timestamp then some false
  else do
    let indexMax ← Word.div? w.wallet.reserves (← Word.mul? 2 w.wallet.indexValue)
    some (decide (indexMax ≤ eIndex))

/-- Starts next epoch. -/
def startEpoch (timestamp : U256) (w : World Hash) : Option (World Hash) := do
  revertIf (timestamp < w.wallet.epochExpiresBy)
  let w ← w.burnPendingAmount evm
  let currentEpoch ← Word.add? w.wallet.currentEpoch 1
  let epochExpiresBy ← Word.add? timestamp w.wallet.epochDuration
  some { w with wallet := { w.wallet with reserves := w.getBalance, currentEpoch, epochExpiresBy } }

/-- Owner withdraws security deposit and not redeemed balance in the wallet. -/
def withdraw (sender : Address) (timestamp : U256) (w : World Hash) : Option (World Hash) := do
  revertIf (sender ≠ w.wallet.owner)
  -- cannot withdraw during an active epoch
  revertIf (timestamp < w.wallet.epochDuration)
  let w ← w.burnPendingAmount evm
  let w ← w.safeTransfer evm sender w.getBalance
  some { w with wallet := { w.wallet with reserves := 0 } }

end World

/-! ## Redeeming type 2 commitments -/

/-- One record of a `redeemdType2` batch. -/
structure RedeemRecord where
  index : U32
  u : U32
  commitSignature : EcdsaSignature
  invalidatingSignature : EcdsaSignature
deriving DecidableEq, Repr

/-- The reads of the loop body at `byteOffset`. -/
def redeemRecordAt (data : List UInt8) (byteOffset : ℕ) : RedeemRecord where
  index := uint32At data byteOffset
  u := uint32At data (byteOffset + 4)
  commitSignature := signatureAt data (byteOffset + 8)
  invalidatingSignature := signatureAt data (byteOffset + 73)

/-- The records of a `redeemdType2` batch: 139 bytes apart, after the 26-byte header. -/
def redeemRecords (data : List UInt8) : List RedeemRecord :=
  (List.range (countOf data)).map fun i => redeemRecordAt data (26 + 139 * i)

/-- The loop body of `redeemdType2`, on the storage and `totalAmount`. -/
def redeemRecord [DecidableEq Hash] (toAddress : Address) (st : Wallet Hash × U256)
    (r : RedeemRecord) : Option (Wallet Hash × U256) := do
  let (wallet, totalAmount) := st
  let claimIdentifier := evm.claimIdentifier r.index wallet.currentEpoch
  -- check that index for the epoch hasn't been claimed nor pending burn
  revertIf (wallet.burnBufferTime claimIdentifier ≠ 0 ∨ wallet.claimed claimIdentifier = true)
  let commit := evm.keccak256 (type2Blob r.index wallet.currentEpoch r.u wallet.owner toAddress)
  revertIf (evm.recover commit r.commitSignature ≠ wallet.owner)
  revertIf (evm.recover (evm.invalidatingHash r.u) r.invalidatingSignature ≠ wallet.owner)
  let totalAmount ← Word.add? totalAmount wallet.indexValue
  some ({ wallet with claimed := Function.update wallet.claimed claimIdentifier true }, totalAmount)

/-- The loop of `redeemdType2`. -/
def redeemLoop [DecidableEq Hash] (toAddress : Address) (st : Wallet Hash × U256)
    (rs : List RedeemRecord) : Option (Wallet Hash × U256) :=
  rs.foldlM (redeemRecord evm toAddress) st

/-- Redeem time-locked commitments of type 2. -/
def World.redeemdType2 [DecidableEq Hash] (data : List UInt8) (w : World Hash) :
    Option (World Hash) := do
  let (wallet, totalAmount) ← redeemLoop evm (toAddressOf data) (w.wallet, 0) (redeemRecords data)
  { w with wallet }.transfer evm (toAddressOf data) totalAmount

/-! ## Burning commitments -/

/-- One record of a `burnCommits` batch. Types: (0) type 1 commit with the owner as invalidating
address, (1) type 1 commit with `toAddress` as invalidating address, (2) type 2 commit. -/
structure BurnRecord where
  index : U32
  u : U32
  ctype : UInt8
  commitSignature : EcdsaSignature
deriving DecidableEq, Repr

/-- The reads of the loop body at `byteOffset`. -/
def burnRecordAt (data : List UInt8) (byteOffset : ℕ) : BurnRecord where
  index := uint32At data byteOffset
  u := uint32At data (byteOffset + 4)
  ctype := uint8At data (byteOffset + 8)
  commitSignature := signatureAt data (byteOffset + 9)

/-- The records of a `burnCommits` batch: 74 bytes apart, after the 26-byte header. -/
def burnRecords (data : List UInt8) : List BurnRecord :=
  (List.range (countOf data)).map fun i => burnRecordAt data (26 + 74 * i)

namespace BurnRecord

/-- The invalidating address of the record's commit. -/
def iAddress (wallet : Wallet Hash) (toAddress : Address) (r : BurnRecord) : Address :=
  if r.ctype < 2 then if r.ctype = 0 then wallet.owner else toAddress else wallet.owner

/-- The bytes of the commit that the owner must have signed. -/
def blob (wallet : Wallet Hash) (toAddress : Address) (r : BurnRecord) : List UInt8 :=
  if r.ctype < 2 then type1Blob r.index wallet.currentEpoch r.u (r.iAddress wallet toAddress)
  else type2Blob r.index wallet.currentEpoch r.u wallet.owner toAddress

/-- `bTime`: the burn buffer, longer when the owner is not the invalidating address. -/
def bTime (wallet : Wallet Hash) (r : BurnRecord) : Option U256 :=
  if r.ctype = 1 then Word.add? wallet.burnBuffer invDisadvantageBuffer else some wallet.burnBuffer

end BurnRecord

/-- The loop body of `burnCommits`, on the storage and `totalBurn`. -/
def burnRecord [DecidableEq Hash] (toAddress : Address) (st : Wallet Hash × U256)
    (r : BurnRecord) : Option (Wallet Hash × U256) := do
  let (wallet, totalBurn) := st
  let claimIdentifier := evm.claimIdentifier r.index wallet.currentEpoch
  -- check that index for the epoch hasn't been claimed nor pending burn
  revertIf (wallet.burnBufferTime claimIdentifier ≠ 0 ∨ wallet.claimed claimIdentifier = true)
  let bTime ← r.bTime wallet
  -- checks that owner signed the commitment
  revertIf (evm.recover (evm.keccak256 (r.blob wallet toAddress)) r.commitSignature ≠ wallet.owner)
  let totalBurn ← Word.add? totalBurn wallet.indexValue
  some ({ wallet with
    burnBufferIAddress :=
      Function.update wallet.burnBufferIAddress claimIdentifier (r.iAddress wallet toAddress)
    burnBufferTime := Function.update wallet.burnBufferTime claimIdentifier bTime
    burnBufferIBlob :=
      Function.update wallet.burnBufferIBlob claimIdentifier (evm.invalidatingHash r.u) },
    totalBurn)

/-- The loop of `burnCommits`. -/
def burnLoop [DecidableEq Hash] (toAddress : Address) (st : Wallet Hash × U256)
    (rs : List BurnRecord) : Option (Wallet Hash × U256) :=
  rs.foldlM (burnRecord evm toAddress) st

/-- Burn commitments with no invalidating signatures. -/
def World.burnCommits [DecidableEq Hash] (timestamp : U256) (data : List UInt8) (w : World Hash) :
    Option (World Hash) := do
  -- can't call burn after epochExpiry - burnBuffer - invDisadvantageBuffer
  let margin ← Word.add? w.wallet.burnBuffer invDisadvantageBuffer
  let deadline ← Word.sub? w.wallet.epochExpiresBy margin
  revertIf (deadline ≤ timestamp)
  let (wallet, totalBurn) ← burnLoop evm (toAddressOf data) (w.wallet, 0) (burnRecords data)
  let pendingBurnAmount ← Word.add? wallet.pendingBurnAmount totalBurn
  some { w with wallet := { wallet with pendingBurnAmount } }

/-! ## Challenging commitments in the burn buffer -/

/-- The `i`-th entries of the four argument arrays of `challengeBurnCommits`. -/
structure ChallengeRecord (Hash : Type) where
  commitHash : Hash
  signature : EcdsaSignature

/-- The loop body of `challengeBurnCommits`, on the storage and `totalBurn`. -/
def challengeRecord [DecidableEq Hash] [Inhabited Hash] (timestamp : U256)
    (st : Wallet Hash × U256) (c : ChallengeRecord Hash) : Option (Wallet Hash × U256) := do
  let (wallet, totalBurn) := st
  revertIf (wallet.burnBufferTime c.commitHash ≤ timestamp)
  revertIf (evm.recover (wallet.burnBufferIBlob c.commitHash) c.signature ≠
    wallet.burnBufferIAddress c.commitHash)
  -- challenge is valid, delete records
  let totalBurn ← Word.add? totalBurn wallet.indexValue
  some ({ wallet with
    burnBufferTime := Function.update wallet.burnBufferTime c.commitHash 0
    burnBufferIBlob := Function.update wallet.burnBufferIBlob c.commitHash default
    burnBufferIAddress := Function.update wallet.burnBufferIAddress c.commitHash 0 }, totalBurn)

/-- The loop of `challengeBurnCommits`. -/
def challengeLoop [DecidableEq Hash] [Inhabited Hash] (timestamp : U256)
    (st : Wallet Hash × U256) (cs : List (ChallengeRecord Hash)) : Option (Wallet Hash × U256) :=
  cs.foldlM (challengeRecord evm timestamp) st

/-- The argument arrays read together. -/
def challengeRecords (commitHash : List Hash) (v : List UInt8) (r s : List U256) :
    List (ChallengeRecord Hash) :=
  (commitHash.zip (v.zip (r.zip s))).map fun (h, v, r, s) => ⟨h, ⟨r, s, v⟩⟩

/-- Challenge commit in burn buffer by providing invalidating signatures. -/
def World.challengeBurnCommits [DecidableEq Hash] [Inhabited Hash] (timestamp : U256)
    (commitHash : List Hash) (v : List UInt8) (r s : List U256) (w : World Hash) :
    Option (World Hash) := do
  revertIf (commitHash.length ≠ v.length)
  revertIf (v.length ≠ r.length ∨ v.length ≠ s.length)
  let (wallet, totalBurn) ←
    challengeLoop evm timestamp (w.wallet, 0) (challengeRecords commitHash v r s)
  let pendingBurnAmount ← Word.sub? wallet.pendingBurnAmount totalBurn
  some { w with wallet := { wallet with pendingBurnAmount } }

end Dse
