import Dse.Lib.Reentry
import Dse.Wallet.Chain

/-!
# A currency that calls back

While a transfer is under way, the currency may call the wallet itself, or anybody who does. The
functions of the wallet are those of `Contract` with a hook before and one after the tokens of a
transfer move; what a function has read into a variable before it calls out, it still has when the
call returns.

The state carries what an observer has written down: the indexes that `redeemdType2` has asked the
currency to pay for, and what the currency answered.
-/

namespace Dse

open Reentry

/-- An index of an epoch for which the currency was asked to pay, and its answer. The index is paid
if the tokens moved. -/
structure Settled where
  index : U32
  epoch : U256
  answer : TransferResult
deriving DecidableEq, Repr

/-- A wallet and the indexes it has settled. -/
structure Paying (Hash : Type) where
  world : World Hash
  settled : List Settled

/-- What a call may do to the wallet while it is called out to. -/
abbrev Hooks (Hash : Type) := ℕ → Paying Hash → Paying Hash

variable {Hash : Type} (evm : Evm Hash)

namespace Paying

/-- The `n`-th transfer of a function: the tokens move between two calls of the currency. It settles
the indexes, each with its epoch. -/
def transfer (hooks : Hooks Hash) (n : ℕ) (p : Paying Hash) (recipient : Address) (amount : U256)
    (indexes : List (U32 × U256)) : Option (Paying Hash) :=
  let p := hooks (2 * n) p
  let answer := evm.transfer p.world.balances p.world.this recipient amount
  (p.world.transfer evm recipient amount).map fun world =>
    hooks (2 * n + 1)
      { world, settled := p.settled ++ indexes.map fun (index, epoch) => { index, epoch, answer } }

def safeTransfer (hooks : Hooks Hash) (n : ℕ) (p : Paying Hash) (recipient : Address)
    (amount : U256) : Option (Paying Hash) :=
  let p := hooks (2 * n) p
  (p.world.safeTransfer evm recipient amount).map fun world => hooks (2 * n + 1) { p with world }

/-- A write to the storage of the wallet. -/
def setWallet (p : Paying Hash) (f : Wallet Hash → Wallet Hash) : Paying Hash :=
  { p with world := { p.world with wallet := f p.world.wallet } }

def burnPendingAmount (hooks : Hooks Hash) (p : Paying Hash) : Option (Paying Hash) :=
  let pendingAmount := p.world.wallet.pendingBurnAmount
  if pendingAmount ≠ 0 then do
    let p ← p.transfer evm hooks 0 0 pendingAmount []
    some (p.setWallet fun wallet => { wallet with pendingBurnAmount := 0 })
  else
    some p

def startEpoch (hooks : Hooks Hash) (timestamp : U256) (p : Paying Hash) : Option (Paying Hash) := do
  revertIf (timestamp < p.world.wallet.epochExpiresBy)
  let p ← p.burnPendingAmount evm hooks
  let currentEpoch ← Word.add? p.world.wallet.currentEpoch 1
  let epochExpiresBy ← Word.add? timestamp p.world.wallet.epochDuration
  some (p.setWallet fun wallet =>
    { wallet with reserves := p.world.getBalance, currentEpoch, epochExpiresBy })

def withdraw (hooks : Hooks Hash) (sender : Address) (timestamp : U256) (p : Paying Hash) :
    Option (Paying Hash) := do
  revertIf (sender ≠ p.world.wallet.owner)
  revertIf (timestamp < p.world.wallet.epochDuration)
  let p ← p.burnPendingAmount evm hooks
  let p ← p.safeTransfer evm hooks 1 sender p.world.getBalance
  some (p.setWallet fun wallet => { wallet with reserves := 0 })

def redeemdType2 [DecidableEq Hash] (hooks : Hooks Hash) (data : List UInt8) (p : Paying Hash) :
    Option (Paying Hash) := do
  let (wallet, totalAmount) ←
    redeemLoop evm (toAddressOf data) (p.world.wallet, 0) (redeemRecords data)
  let indexes := (redeemRecords data).map fun r => (r.index, p.world.wallet.currentEpoch)
  (p.setWallet fun _ => wallet).transfer evm hooks 0 (toAddressOf data) totalAmount indexes

variable [DecidableEq Hash] [Inhabited Hash]

/-- A call of the wallet, in a block of the given time. The other functions call nobody. -/
def exec (timestamp : U256) (tx : Address × Call Hash) (hooks : Hooks Hash) (p : Paying Hash) :
    Option (Paying Hash) :=
  match tx.2 with
  | .startEpoch => p.startEpoch evm hooks timestamp
  | .withdraw => p.withdraw evm hooks tx.1 timestamp
  | .redeemdType2 data => p.redeemdType2 evm hooks data
  | .burnCommits data =>
    (p.world.burnCommits evm timestamp data).map fun world => { p with world }
  | .challengeBurnCommits commitHash v r s =>
    (p.world.challengeBurnCommits evm timestamp commitHash v r s).map fun world =>
      { p with world }
  | .transfer recipient amount =>
    (p.world.deposit evm tx.1 recipient amount).map fun world => { p with world }

/-- A transaction with everything that is called back, reverted or not. -/
def step (p : Paying Hash) (tx : U256 × Entry (Address × Call Hash)) : Paying Hash :=
  let p := (enter (exec evm tx.1) tx.2 p).getD p
  { p with world := { p.world with now := tx.1 } }

/-- The state after the transactions. -/
def run (p : Paying Hash) (txs : List (U256 × Entry (Address × Call Hash))) : Paying Hash :=
  Run.final (step evm) p txs

end Paying

end Dse
