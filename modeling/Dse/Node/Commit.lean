import Dse.Lib.Bytes
import Dse.Lib.Ranges
import Dse.Node.Types

/-!
# Commits and commit histories

The checks a node makes on a commit it receives: its signature, its validity for a trade, and the
search of a wallet's history for a commit over the same indexes. `keccak256`, the recovery of a
signature and the answers of the Ethereum node are parameters (`Env`).
-/

namespace Dse

/-- What a node knows from outside: its own identity, its keys and the chain. -/
structure Env (Hash : Type) where
  /-- The peer id of the node. -/
  nodeId : PeerId
  keccak256 : List UInt8 → Hash
  /-- `Signature::recover`, which fails on a malformed signature. -/
  recover : Hash → Signature → Option Address
  /-- `EthNode::owner_address`. -/
  ownerAddress : Address → Address
  /-- `EthNode::self_address`. -/
  selfAddress : Address
  /-- `EthNode::get_current_epoch`. -/
  getCurrentEpoch : Address → U256
  /-- The node's own time-locked wallet. -/
  timelockedWallet : Address

variable {Hash : Type}

namespace Commit

/-- The bytes that `commit_hash` hashes. -/
def blob (c : Commit) : List UInt8 :=
  -- the first 64 bytes stay zero: the indexes are not written into the blob
  List.replicate 64 0 ++ Bytes.le 32 c.epoch.toNat ++ Bytes.le 32 c.u.toNat ++
    Bytes.le 32 c.cType.toNat ++ Bytes.be 20 c.iAddress.toNat ++
    if c.cType = .t2 then Bytes.be 20 c.rAddress.toNat else []

def commitHash (env : Env Hash) (c : Commit) : Hash := env.keccak256 c.blob

def signingAddress (env : Env Hash) (c : Commit) : Option Address :=
  c.signature.bind fun signature => env.recover (c.commitHash env) signature

/-- The indexes are in increasing order. -/
def indexesIncreasing (indexes : List U32) : Bool :=
  (List.range' 1 (indexes.length - 1)).all fun i =>
    !decide (indexes.getD i 0 < indexes.getD (i - 1) 0)

/-- Validates received commitment. -/
def isCommitValid (env : Env Hash) (c : Commit) (trade : Trade)
    (ownerAddress selfAddress : Address) : Bool :=
  if indexesIncreasing c.indexes = false then false
  else if c.u ≠ trade.id then false
  else if c.signingAddress env ≠ some ownerAddress then false
  else if (trade.isRequester = true ∧ c.iAddress ≠ selfAddress) ∨
      (trade.isRequester = false ∧ c.iAddress ≠ ownerAddress) then false
  else match trade.status with
    | .waitingRT1Commit => true
    | .waitingPT1Commit => true
    | .waitingRT2Commit => true
    | _ => false

end Commit

namespace CommitHistory

/-- Whether the commit stands in the way of `indexes`. A T1 commit with an invalidating signature
does not. -/
def isInConflict (indexes : List U32) (c : Commit) : Bool :=
  if c.cType = .t1 ∧ c.invalidatingSignature ≠ none then false
  else
    (List.range' 1 (c.indexes.length / 2) 2).any fun i =>
      (List.range' 1 (indexes.length - 1)).any fun j =>
        decide (c.indexes.getD (i - 1) 0 ≤ indexes.getD j 0) &&
          decide (indexes.getD (j - 1) 0 ≤ c.indexes.getD i 0)

/-- The search of `are_indexes_in_conflict`. -/
def findConflict (history : CommitHistory) (indexes : List U32) : Option Commit :=
  history.commits.find? (isInConflict indexes)

/-- The function returns nothing: what the search found is dropped. -/
def areIndexesInConflict (history : CommitHistory) (indexes : List U32) : Unit :=
  let _ := history.findConflict indexes
  ()

def updateInvalditingSignature (history : CommitHistory) (id : U32)
    (invalidatingSignature : Signature) : CommitHistory :=
  { history with
    commits := history.commits.map fun c =>
      if c.u = id then { c with invalidatingSignature := some invalidatingSignature } else c }

def addNewCommits (history : CommitHistory) (commits : List Commit) : CommitHistory :=
  { history with commits := history.commits ++ commits }

end CommitHistory

end Dse
