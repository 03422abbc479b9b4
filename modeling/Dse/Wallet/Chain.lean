import Dse.Lib.Run
import Dse.Wallet.Contract

/-!
# Transactions and runs of a wallet

A transaction calls the wallet, or moves tokens of the currency on behalf of another account
(deposits reach the wallet this way). A reverted transaction leaves everything but the clock as it
was. Block timestamps never go back (`Chronological`).

`EpochRecord` is the record of an observer, not part of any state: the tokens `redeemdType2` paid
out since the epoch began, and the reserves that the epoch's `startEpoch` wrote down.
-/

namespace Dse

/-- What a transaction calls. -/
inductive Call (Hash : Type)
  | startEpoch
  | withdraw
  | redeemdType2 (data : List UInt8)
  | burnCommits (data : List UInt8)
  | challengeBurnCommits (commitHash : List Hash) (v : List UInt8) (r s : List U256)
  /-- `transfer` of the currency, called by an account that is not the wallet. -/
  | transfer (recipient : Address) (amount : U256)

/-- A transaction: who sends it, in a block of which time, and what it calls. -/
structure Tx (Hash : Type) where
  sender : Address
  timestamp : U256
  call : Call Hash

variable {Hash : Type} [DecidableEq Hash] [Inhabited Hash] (evm : Evm Hash)

namespace World

/-- A transfer of the currency by `sender`, who is not the wallet. -/
def deposit (sender recipient : Address) (amount : U256) (w : World Hash) : Option (World Hash) :=
  if sender = w.this then none
  else match evm.transfer w.balances sender recipient amount with
    | .moved => some { w with balances := w.balances.move sender recipient amount }
    | .refused => some w
    | .reverted => none

/-- The state a successful transaction leaves behind, or `none` when it reverts. -/
def exec (w : World Hash) (tx : Tx Hash) : Option (World Hash) :=
  match tx.call with
  | .startEpoch => w.startEpoch evm tx.timestamp
  | .withdraw => w.withdraw evm tx.sender tx.timestamp
  | .redeemdType2 data => w.redeemdType2 evm data
  | .burnCommits data => w.burnCommits evm tx.timestamp data
  | .challengeBurnCommits commitHash v r s => w.challengeBurnCommits evm tx.timestamp commitHash v r s
  | .transfer recipient amount => w.deposit evm tx.sender recipient amount

/-- One transaction, reverted or not. -/
def step (w : World Hash) (tx : Tx Hash) : World Hash :=
  { (w.exec evm tx).getD w with now := tx.timestamp }

/-- The state after the transactions `txs`. -/
def run (w : World Hash) (txs : List (Tx Hash)) : World Hash := Run.final (step evm) w txs

/-- Block timestamps never go back. -/
abbrev Chronological (w : World Hash) (txs : List (Tx Hash)) : Prop :=
  Run.Always (step evm) (fun w tx => w.now ≤ tx.timestamp) w txs

/-- A deployed wallet, before the first transaction. -/
def init (this : Address) (epochDuration indexValue : U256) (owner currency : Address)
    (burnBuffer : U256) (balances : Ledger) (now : U256) : World Hash where
  this := this
  wallet := .ofConstructor epochDuration indexValue owner currency burnBuffer
  balances := balances
  now := now

/-- The tokens that the `redeemdType2` call of a transaction pays out. -/
def payout (w : World Hash) (tx : Tx Hash) : ℕ :=
  match tx.call with
  | .redeemdType2 data =>
    match redeemLoop evm (toAddressOf data) (w.wallet, 0) (redeemRecords data) with
    | some (_, totalAmount) =>
      if evm.transfer w.balances w.this (toAddressOf data) totalAmount = .moved then
        totalAmount.toNat
      else 0
    | none => 0
  | _ => 0

end World

/-- What an observer writes down about the current epoch. -/
structure EpochRecord where
  /-- Tokens paid out by `redeemdType2` since the epoch began. -/
  redeemed : ℕ := 0
  /-- The reserves set by the epoch's `startEpoch`. -/
  reserves : ℕ := 0

/-- The observer's update: a successful `startEpoch` opens a new record. -/
def EpochRecord.next (g : EpochRecord) (w : World Hash) (tx : Tx Hash) : EpochRecord :=
  match tx.call, w.exec evm tx with
  | .startEpoch, some w' => { redeemed := 0, reserves := w'.wallet.reserves.toNat }
  | _, _ => { g with redeemed := g.redeemed + w.payout evm tx }

/-- The observed run. -/
def World.observed (w : World Hash) (txs : List (Tx Hash)) : EpochRecord × World Hash :=
  Run.final (Run.watch (World.step evm) (EpochRecord.next evm)) ({}, w) txs

/-- The clock of an observed run. -/
theorem World.Chronological.watched {w : World Hash} {txs : List (Tx Hash)}
    (h : World.Chronological evm w txs) (g : EpochRecord) :
    Run.Always (Run.watch (World.step evm) (EpochRecord.next evm))
      (fun x tx => x.2.now ≤ tx.timestamp) (g, w) txs :=
  (Run.always_watch (fun (w : World Hash) (tx : Tx Hash) => w.now ≤ tx.timestamp) (g, w) txs).mpr h

/-! ## A chain to evaluate on -/

/-- Digests are the hashed bytes themselves, and a signature names its signer in `r`. -/
def plainEvm : Evm (List UInt8) where
  keccak256 := id
  ecrecover := fun _ _ r _ => r.setWidth 160
  transfer := Ledger.standardTransfer

/-- A currency that answers `false` where a standard one reverts. -/
def flagTransfer (balances : Ledger) (sender recipient : Address) (amount : U256) :
    TransferResult :=
  if balances.standardTransfer sender recipient amount = .moved then .moved else .refused

/-- `plainEvm` with such a currency. -/
def flagEvm : Evm (List UInt8) := { plainEvm with transfer := flagTransfer }

/-- `plainEvm` with a recovery that fails on every `v` but 27 and 28. -/
def strictEvm : Evm (List UInt8) :=
  { plainEvm with ecrecover := fun _ v r _ => if v = 27 ∨ v = 28 then r.setWidth 160 else 0 }

/-- The signature of `signer` on `plainEvm`. -/
def plainSignature (signer : Address) : EcdsaSignature where
  r := signer.setWidth 256
  s := 0
  v := 0

/-- The calldata of a `burnCommits` batch. -/
def burnCalldata (toAddress : Address) (rs : List BurnRecord) : List UInt8 :=
  List.replicate 4 0 ++ Bytes.be 2 rs.length ++ Bytes.be 20 toAddress.toNat ++
    rs.flatMap fun r => Bytes.be 4 r.index.toNat ++ Bytes.be 4 r.u.toNat ++ [r.ctype] ++
      Bytes.be 32 r.commitSignature.r.toNat ++ Bytes.be 32 r.commitSignature.s.toNat ++
      [r.commitSignature.v]

/-- The calldata of a `redeemdType2` batch. -/
def redeemCalldata (toAddress : Address) (rs : List RedeemRecord) : List UInt8 :=
  List.replicate 4 0 ++ Bytes.be 2 rs.length ++ Bytes.be 20 toAddress.toNat ++
    rs.flatMap fun r => Bytes.be 4 r.index.toNat ++ Bytes.be 4 r.u.toNat ++
      Bytes.be 32 r.commitSignature.r.toNat ++ Bytes.be 32 r.commitSignature.s.toNat ++
      [r.commitSignature.v] ++ Bytes.be 32 r.invalidatingSignature.r.toNat ++
      Bytes.be 32 r.invalidatingSignature.s.toNat ++ [r.invalidatingSignature.v]

/-- A wallet at address 1, owned by address 7, with 1000 tokens, 30 tokens an index, a week an epoch
and a day of burn buffer. -/
def plainWorld : World (List UInt8) :=
  .init 1 604800 30 7 9 86400 (fun a => if a = 1 then 1000 else 0) 0

end Dse
