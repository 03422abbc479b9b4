import Dse.Lib.Run
import Dse.Node.Procedure

/-!
# The node

The indexer's loop takes network events, ticks of its interval and the reports of finished sends;
the server takes the posts of clients; the commit procedures run as tasks of their own. An `Input`
says which of these acts next and what it is handed, so a run of a node is a list of inputs.
-/

namespace Dse

/-- Where the handler of a post stands. -/
inductive PostStage
  /-- `NewQuery`: waiting for the network details, then for the publication. -/
  | newQueryDetails (query : QueryData)
  | newQueryPublished (query : Query)
  /-- `IWant`: waiting for the network details, then for the provider's response. -/
  | iWantDetails (providerId : PeerId) (id : U32)
  | iWantRequested
  /-- `StartCommit`: looking up the interest, waiting for the network details, then for the
  requester's response. -/
  | startCommit (quote : TradeQuote)
  | startCommitDetails (quote : TradeQuote) (iWant : IWant)
  | startCommitRequested (trade : Trade)
deriving DecidableEq, Repr

inductive Task
  | verify (commit : Commit) (trade : Trade) (stage : VerifyStage)
  | send (trade : Trade) (stage : SendStage)
  | post (stage : PostStage)
deriving DecidableEq, Repr

structure Node where
  storage : Storage
  /-- ids of trades in send status currently with active send() CommitProcedure -/
  activeSendCommitProc : Finset U32
  /-- The channel of the commit procedures. -/
  commitProcEvents : List CommitProcedureEvent
  tasks : ℕ → Option Task
  /-- The id of the task that is spawned next. -/
  nextTask : ℕ

/-- What the node does next. -/
inductive Input
  | network (event : NetworkEvent)
  | tick
  /-- The indexer receives from the channel of the commit procedures. -/
  | commitProcEvent
  | post (message : ReceivedMessage)
  /-- A task goes on with an answer. -/
  | task (id : ℕ) (answer : Answer)
deriving DecidableEq, Repr

/-- The capacity of the channel of the commit procedures. -/
def commitProcChannelCapacity : ℕ := 20

variable {Hash : Type} (env : Env Hash)

/-! ## The server -/

/-- One step of the handler of a post. -/
def postStep (s : Storage) : PostStage → Answer → Outcome PostStage
  | .newQueryDetails query, .networkDetails (some nodeAddr) =>
    let query : Query :=
      { id := 1, data := query, requesterAddr := nodeAddr, requesterId := env.nodeId
        requesterWalletAddress := env.timelockedWallet }
    { storage := s
      next := some (.newQueryPublished query)
      commands := [.publishMessage (.newQuery query)] }
  | .newQueryDetails _, .networkDetails none =>
    { storage := s, next := none, commands := [.reply false] }
  | .newQueryPublished query, .published true =>
    { storage := s.addQuerySent query, next := none, commands := [.reply true] }
  | .newQueryPublished _, .published false =>
    { storage := s, next := none, commands := [.reply false] }
  | .iWantDetails providerId id, .networkDetails (some nodeAddr) =>
    { storage := s
      next := some .iWantRequested
      commands := [.sendExchangeRequest providerId
        (.iWant { requesterId := env.nodeId, requesterAddr := nodeAddr, id })] }
  | .iWantDetails _ _, .networkDetails none =>
    { storage := s, next := none, commands := [.reply false] }
  | .iWantRequested, .exchange response =>
    { storage := s, next := none, commands := [.reply (response = some .ack)] }
  | .startCommit quote, .run =>
    match s.findIWant quote.id with
    | some iWant =>
      { storage := s
        next := some (.startCommitDetails quote iWant)
        commands := [.networkDetails] }
    | none => { storage := s, next := none, commands := [.reply false] }
  | .startCommitDetails quote iWant, .networkDetails (some nodeAddr) =>
    let trade := Trade.fromQuote quote iWant .waitingRT1Commit env.nodeId nodeAddr false
    { storage := s
      next := some (.startCommitRequested trade)
      commands := [.sendExchangeRequest trade.requesterId (.startCommit trade)] }
  | .startCommitDetails _ _, .networkDetails none =>
    { storage := s, next := none, commands := [.reply false] }
  | .startCommitRequested trade, .exchange (some .ack) =>
    { storage := s.addActiveTrade trade, next := none, commands := [.reply true] }
  | .startCommitRequested _, .exchange _ =>
    { storage := s, next := none, commands := [.reply false] }
  | stage, _ => { storage := s, next := some stage }

namespace Node

/-- `tokio::spawn` -/
def spawn (node : Node) (task : Task) : Node :=
  { node with
    tasks := Function.update node.tasks node.nextTask (some task)
    nextTask := node.nextTask + 1 }

/-- `handle_post` -/
def handlePost (node : Node) : ReceivedMessage → Node × List Command
  | .newQuery query => (node.spawn (.post (.newQueryDetails query)), [.networkDetails])
  | .placeBid _ _ => (node, [.reply false])
  | .acceptBid _ _ => (node, [.reply false])
  | .iWant _ providerId id => (node.spawn (.post (.iWantDetails providerId id)), [.networkDetails])
  | .startCommit quote => (node.spawn (.post (.startCommit quote)), [])

/-! ## The indexer -/

/-- The handler of a commit request: the trade must be in the status that waits for it, and the
sender its counter party. Starts a `verify`. -/
def handleCommit (waiting : TradeStatus) (node : Node) (senderPeerId : PeerId) (requestId : ℕ)
    (tradeId : U32) (commit : Commit) : Node × List Command :=
  match (node.storage.findActiveTrade tradeId).filter fun trade =>
      decide (trade.status = waiting) && decide (trade.counterPartyDetails.1 = senderPeerId) with
  | some trade =>
    (node.spawn (.verify commit trade .processing),
      [.sendExchangeResponse senderPeerId requestId .ack])
  | none => (node, [.sendExchangeResponse senderPeerId requestId .bad])

/-- `ExchangeRequest::T1RequesterCommit` -/
def handleT1RequesterCommit := handleCommit .waitingRT1Commit

/-- `ExchangeRequest::T1ProviderCommit` -/
def handleT1ProviderCommit := handleCommit .waitingPT1Commit

/-- `ExchangeRequest::T2RequesterCommit` -/
def handleT2RequesterCommit := handleCommit .waitingRT2Commit

/-- The requests of `handle_network_event`. -/
def handleExchangeRequest (node : Node) (senderPeerId : PeerId) (requestId : ℕ) :
    ExchangeRequest → Node × List Command
  | .iWant iWant =>
    ({ node with storage := node.storage.addIWant iWant },
      [.sendExchangeResponse senderPeerId requestId .ack])
  | .startCommit trade =>
    -- the trade is taken as it comes, but for its status
    ({ node with
        storage := node.storage.addActiveTrade (trade.updateStatus .rSendT1Commit) },
      [.sendExchangeResponse senderPeerId requestId .ack])
  | .t1RequesterCommit tradeId commit =>
    node.handleT1RequesterCommit senderPeerId requestId tradeId commit
  | .t1ProviderCommit tradeId commit =>
    node.handleT1ProviderCommit senderPeerId requestId tradeId commit
  | .t2RequesterCommit tradeId commit =>
    node.handleT2RequesterCommit senderPeerId requestId tradeId commit
  | .t2CommitValid _ => (node, [])
  | .invalidatingSignature _ _ => (node, [])

/-- A gossiped invalidating signature goes into the history of a wallet of interest. -/
def addInvalidatingSignature (s : Storage) (tradeId : U32) (wallet : Address)
    (invalidatingSignature : Signature) : Storage :=
  if wallet ∈ s.getWalletsOfInterest then
    s.updateCommitHistoryWithInvalidatingSignature tradeId wallet invalidatingSignature
  else s

/-- `handle_network_event` -/
def handleNetworkEvent (node : Node) : NetworkEvent → Node × List Command
  | .gossipsubMessageRecv (.newQuery query) =>
    ({ node with storage := node.storage.addQueryReceived query }, [])
  | .gossipsubMessageRecv (.commit commit _) =>
    if commit.walletAddress ∈ node.storage.getWalletsOfInterest then
      ({ node with
          storage := node.storage.addCommitsToCommitHistory commit.walletAddress [commit] }, [])
    else (node, [])
  | .gossipsubMessageRecv
      (.invalidatingSignature tradeId providerWallet requesterWallet invalidatingSignature) =>
    let s := addInvalidatingSignature node.storage tradeId providerWallet invalidatingSignature
    let s := addInvalidatingSignature s tradeId requesterWallet invalidatingSignature
    ({ node with storage := s }, [])
  | .exchangeRequest senderPeerId requestId request =>
    node.handleExchangeRequest senderPeerId requestId request
  | .commitRequest senderPeerId requestId (.wantHistory walletAddress) =>
    match node.storage.findCommitHistory walletAddress with
    | some history =>
      (node, [.sendCommitResponse senderPeerId requestId .ack,
        .sendCommitRequest senderPeerId (.update walletAddress history.commits true)])
    | none => (node, [.sendCommitResponse senderPeerId requestId .bad])
  | .commitRequest _ _ (.update _ _ _) => (node, [])
  | .newListenAddr _ _ => (node, [])

/-- Starts a `send` for a trade that is due and has none. -/
def startSend (node : Node) (trade : Trade) : Node :=
  if trade.isSendingStatus = true ∧ trade.id ∉ node.activeSendCommitProc then
    { node with activeSendCommitProc := insert trade.id node.activeSendCommitProc }.spawn
      (.send trade .starting)
  else node

/-- The tick arm of the indexer's loop. -/
def handleTick (node : Node) : Node := node.storage.getActiveTrades.foldl startSend node

/-- The arm of the commit procedures' channel. -/
def handleCommitProcEvent (node : Node) : Node :=
  match node.commitProcEvents with
  | [] => node
  | .sendSuccess tradeId :: events =>
    { node with
      commitProcEvents := events
      activeSendCommitProc := node.activeSendCommitProc.erase tradeId }
  | .sendFailed tradeId :: events =>
    { node with
      commitProcEvents := events
      activeSendCommitProc := node.activeSendCommitProc.erase tradeId }

/-! ## Tasks -/

/-- The task `id` leaves the storage and goes on as `next`. -/
def resume (node : Node) (id : ℕ) (storage : Storage) (next : Option Task) : Node :=
  { node with storage, tasks := Function.update node.tasks id next }

/-- One step of the task `id`. -/
def handleTask (node : Node) (id : ℕ) (answer : Answer) : Node × List Command :=
  match node.tasks id with
  | none => (node, [])
  | some (.verify commit trade stage) =>
    let o := verifyStep env commit trade node.storage stage answer
    (node.resume id o.storage (o.next.map fun (trade, stage) => .verify commit trade stage),
      o.commands)
  | some (.send _ (.reporting event)) =>
    -- `event_sender.send` waits while the channel is full
    if answer = .run ∧ node.commitProcEvents.length < commitProcChannelCapacity then
      ({ node with commitProcEvents := node.commitProcEvents ++ [event] }.resume id node.storage
        none, [])
    else (node, [])
  | some (.send trade stage) =>
    let o := sendStep trade node.storage stage answer
    (node.resume id o.storage (o.next.map fun (trade, stage) => .send trade stage), o.commands)
  | some (.post stage) =>
    let o := postStep env node.storage stage answer
    (node.resume id o.storage (o.next.map .post), o.commands)

/-- A node that has just been started on a database. -/
def start (storage : Storage) : Node where
  storage := storage
  activeSendCommitProc := ∅
  commitProcEvents := []
  tasks := fun _ => none
  nextTask := 0

/-- One step of the node, and what it asks for. -/
def act (node : Node) : Input → Node × List Command
  | .network event => node.handleNetworkEvent event
  | .tick => (node.handleTick, [])
  | .commitProcEvent => (node.handleCommitProcEvent, [])
  | .post message => node.handlePost message
  | .task id answer => node.handleTask env id answer

/-- One step of the node. -/
def step (node : Node) (input : Input) : Node := (node.act env input).1

/-- The node after the inputs. -/
def run (node : Node) (inputs : List Input) : Node := Run.final (step env) node inputs

end Node

/-! ## A node to evaluate on -/

/-- Peer 1, whose Ethereum account is 9. Digests are the hashed bytes themselves, and a signature
names its signer in `r`. Every wallet is owned by the address before it and in epoch 1. -/
def plainEnv : Env (List UInt8) where
  nodeId := ⟨[1]⟩
  keccak256 := id
  recover := fun _ signature => some (signature.r.setWidth 160)
  ownerAddress := fun wallet => wallet - 1
  selfAddress := 9
  getCurrentEpoch := fun _ => 1
  timelockedWallet := 8

/-- Trade 6 between requester 2 and provider 1. -/
def plainTrade (status : TradeStatus) (isRequester : Bool) : Trade where
  id := 6
  requesterAddr := ⟨[20]⟩
  requesterId := ⟨[2]⟩
  providerAddr := ⟨[10]⟩
  providerId := ⟨[1]⟩
  charge := 30
  status := status
  isRequester := isRequester

/-- A type 1 commit of index 4 by the owner 7 of wallet 8. -/
def plainCommit (u : U32) : Commit where
  indexes := [4, 4]
  epoch := 1
  u := u
  cType := .t1
  iAddress := 7
  rAddress := 0
  walletAddress := 8
  signature := some ⟨7, 0, 0⟩
  invalidatingSignature := none

/-- A provider's database with the trade. -/
def tradingStorage : Storage := Storage.new.addActiveTrade (plainTrade .waitingRT1Commit false)

/-- A `verify` whose load finds no provider. -/
def verifyInputs (id : ℕ) : List Input :=
  [.task id .run, .task id .run, .task id (.providers none), .task id .run, .task id .run,
    .task id .run]

end Dse
