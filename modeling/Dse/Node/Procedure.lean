import Dse.Node.Load

/-!
# The commit procedure

`CommitProcedure::verify` runs when a commit was received for a trade, `CommitProcedure::send` when
the node has to send one. Each is a task with its own copy of the trade, which it writes back when
it changes the status. The storage calls of a task are separate steps, with other tasks in between.
-/

namespace Dse

namespace TradeStatus

/-- From SOMETHING Waiting to SOMETHING Processing -/
def toProcessing : TradeStatus → TradeStatus
  | .waitingRT1Commit => .processingRT1Commit
  | .waitingPT1Commit => .processingPT1Commit
  | .waitingRT2Commit => .processingRT2Commit
  | status => status

/-- From SOMETHING Processing to SOMETHING Send -/
def toSend : TradeStatus → TradeStatus
  | .processingRT1Commit => .pSendT1Commit
  | .processingPT1Commit => .rSendT2Commit
  | .processingRT2Commit => .pFulfillService
  | status => status

/-- From SOMETHING Send to SOMETHING Waiting -/
def toWaiting : TradeStatus → TradeStatus
  | .pSendT1Commit => .waitingRT2Commit
  | .rSendT1Commit => .waitingPT1Commit
  | .rSendT2Commit => .waitingForService
  | status => status

end TradeStatus

inductive CommitProcedureEvent
  | sendSuccess (tradeId : U32)
  | sendFailed (tradeId : U32)
deriving DecidableEq, Repr

/-- Where a `verify` stands: what it does next. -/
inductive VerifyStage
  /-- Check the commit and update the trade to a processing status. -/
  | processing
  /-- Look whether the wallet is tracked. -/
  | tracking
  | loading (load : Load)
  /-- Add the wallet to the wallets of interest. -/
  | adding
  /-- Search the commit history. -/
  | checking
  /-- Update the trade to a send status. -/
  | finishing
deriving DecidableEq, Repr

/-- Where a `send` stands. -/
inductive SendStage
  | starting
  /-- Waiting for the response to the commit. -/
  | requested
  /-- Reporting to the indexer. -/
  | reporting (event : CommitProcedureEvent)
deriving DecidableEq, Repr

/-- What a step of a task leaves behind: the storage, the task unless it is over, and commands. -/
structure Outcome (τ : Type) where
  storage : Storage
  next : Option τ
  commands : List Command := []

variable {Hash : Type} (env : Env Hash)

/-- One step of `CommitProcedure::verify` -/
def verifyStep (commit : Commit) (trade : Trade) (s : Storage) :
    VerifyStage → Answer → Outcome (Trade × VerifyStage)
  | .processing, .run =>
    let ownerAddress := env.ownerAddress commit.walletAddress
    -- an invalid commit makes no difference: the branch is empty
    let () := if commit.isCommitValid env trade ownerAddress env.selfAddress = false then () else ()
    let trade := trade.updateStatus trade.status.toProcessing
    { storage := s.updateActiveTrade trade, next := some (trade, .tracking) }
  | .tracking, .run =>
    if commit.walletAddress ∈ s.getWalletsOfInterest then
      { storage := s, next := some (trade, .checking) }
    else
      { storage := s
        next := some (trade, .loading .providers)
        commands := [.dhtGetProviders commit.walletAddress] }
  | .loading load, answer =>
    match loadStep env commit.walletAddress s load answer with
    | (s, .goesOn load, commands) =>
      { storage := s, next := some (trade, .loading load), commands }
    | (s, .returned _, commands) => { storage := s, next := some (trade, .adding), commands }
    | (s, .panicked, commands) => { storage := s, next := none, commands }
  | .adding, .run =>
    { storage := s.addWalletOfInterest commit.walletAddress, next := some (trade, .checking) }
  | .checking, .run =>
    let () := match s.findCommitHistory commit.walletAddress with
      | some history => history.areIndexesInConflict commit.indexes
      | none => ()
    { storage := s, next := some (trade, .finishing) }
  | .finishing, .run =>
    let trade := trade.updateStatus trade.status.toSend
    { storage := s.updateActiveTrade trade, next := none }
  | stage, _ => { storage := s, next := some (trade, stage) }

/-- Creates commitment according to Send status -/
def findCommitment (trade : Trade) : Option Commit :=
  let () := match trade.status with
    | .rSendT1Commit => ()
    | .pSendT1Commit => ()
    | .rSendT2Commit => ()
    | _ => ()
  some {
    indexes := []
    epoch := 0
    u := 0
    cType := .t1
    iAddress := 0
    rAddress := 0
    walletAddress := 0
    signature := none
    invalidatingSignature := none }

/-- Creates the request that should be send according to trade status -/
def createSendRequest (trade : Trade) (commit : Commit) : Option ExchangeRequest :=
  match trade.status with
  | .rSendT1Commit => some (.t1RequesterCommit trade.id commit)
  | .pSendT1Commit => some (.t1ProviderCommit trade.id commit)
  | .rSendT2Commit => some (.t2RequesterCommit trade.id commit)
  | _ => none

/-- One step of `CommitProcedure::send`, apart from the report -/
def sendStep (trade : Trade) (s : Storage) : SendStage → Answer → Outcome (Trade × SendStage)
  | .starting, .run =>
    match (findCommitment trade).bind (createSendRequest trade) with
    | some request =>
      { storage := s
        next := some (trade, .requested)
        commands := [.sendExchangeRequest trade.counterPartyDetails.1 request] }
    -- an `expect` panics
    | none => { storage := s, next := none }
  | .requested, .exchange (some _) =>
    let trade := trade.updateStatus trade.status.toWaiting
    { storage := s.updateActiveTrade trade
      next := some (trade, .reporting (.sendSuccess trade.id)) }
  | .requested, .exchange none =>
    { storage := s, next := some (trade, .reporting (.sendFailed trade.id)) }
  | stage, _ => { storage := s, next := some (trade, stage) }

end Dse
