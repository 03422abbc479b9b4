import Dse.Basic
import Mathlib.Data.List.AList

/-!
# The data of a node

Trades, commits and the messages between peers, field by field. Peer ids and network addresses are
the byte strings they are encoded as.
-/

namespace Dse

/-- A libp2p peer id. -/
structure PeerId where
  bytes : List UInt8
deriving DecidableEq, Repr, Inhabited

/-- A libp2p network address. -/
structure Multiaddr where
  bytes : List UInt8
deriving DecidableEq, Repr, Inhabited

/-- An ECDSA signature off chain. -/
structure Signature where
  r : U256
  s : U256
  v : BitVec 64
deriving DecidableEq, Repr, Inhabited

/-! ## Commits -/

inductive CommitType
  /-- Commitment Type 1 -/
  | t1
  /-- Commitment Type 2 -/
  | t2
deriving DecidableEq, Repr, Inhabited

/-- `c_type as u32`. -/
def CommitType.toNat : CommitType → ℕ
  | .t1 => 1
  | .t2 => 2

structure Commit where
  /-- Index ranges used for commitment. Every index range is defined by an even position and the
  one after it. -/
  indexes : List U32
  /-- epoch during which the commitment is valid -/
  epoch : U256
  /-- unique id that identifies commitment with the corresponding trade id -/
  u : U32
  cType : CommitType
  /-- address that invalidates the commitment -/
  iAddress : Address
  /-- address that can redeem this commitment with invalidating signature -/
  rAddress : Address
  walletAddress : Address
  /-- owner's signature on commitment's blob -/
  signature : Option Signature
  invalidatingSignature : Option Signature
deriving DecidableEq, Repr, Inhabited

structure CommitHistory where
  /-- Wallet address that made these commits -/
  walletAddress : Address
  commits : List Commit
deriving DecidableEq, Repr, Inhabited

/-! ## Queries, interests and trades -/

structure QueryData where
  queryString : String
deriving DecidableEq, Repr

structure Query where
  id : U32
  data : QueryData
  requesterAddr : Multiaddr
  requesterId : PeerId
  requesterWalletAddress : Address
deriving DecidableEq, Repr

structure TradeQuote where
  charge : U256
  id : U32
deriving DecidableEq, Repr

structure Bid where
  queryId : U32
  providerAddr : Multiaddr
  providerId : PeerId
  providerWalletAddress : Address
  charge : U256
deriving DecidableEq, Repr

structure IWant where
  requesterId : PeerId
  requesterAddr : Multiaddr
  id : U32
deriving DecidableEq, Repr

inductive TradeStatus
  | waitingRT1Commit
  | rSendT1Commit
  | processingRT1Commit
  | waitingPT1Commit
  | pSendT1Commit
  | processingPT1Commit
  | waitingRT2Commit
  | rSendT2Commit
  | processingRT2Commit
  | waitingForService
  | pFulfillService
  | waitingInvalidatingSignatures
deriving DecidableEq, Repr, Inhabited

structure Trade where
  id : U32
  requesterAddr : Multiaddr
  requesterId : PeerId
  providerAddr : Multiaddr
  providerId : PeerId
  charge : U256
  /-- Status of the trade -/
  status : TradeStatus
  /-- Flag whether node is requester OR provider -/
  isRequester : Bool
deriving DecidableEq, Repr

namespace Trade

def updateStatus (trade : Trade) (status : TradeStatus) : Trade := { trade with status }

def counterPartyDetails (trade : Trade) : PeerId × Multiaddr :=
  if trade.isRequester then (trade.providerId, trade.providerAddr)
  else (trade.requesterId, trade.requesterAddr)

/-- The statuses in which the indexer starts a send procedure by itself. -/
def isSendingStatus (trade : Trade) : Bool :=
  trade.status = .rSendT1Commit || trade.status = .pSendT1Commit || trade.status = .rSendT2Commit

/-- The trade a provider opens for a quote, with its own network details. -/
def fromQuote (quote : TradeQuote) (iWant : IWant) (status : TradeStatus) (nodeId : PeerId)
    (nodeAddr : Multiaddr) (isRequester : Bool) : Trade where
  id := quote.id
  requesterAddr := iWant.requesterAddr
  requesterId := iWant.requesterId
  providerAddr := nodeAddr
  providerId := nodeId
  charge := quote.charge
  status := status
  isRequester := isRequester

@[simp] theorem updateStatus_id (t : Trade) (s : TradeStatus) : (t.updateStatus s).id = t.id := rfl

@[simp] theorem updateStatus_status (t : Trade) (s : TradeStatus) :
    (t.updateStatus s).status = s := rfl

@[simp] theorem updateStatus_counterPartyDetails (t : Trade) (s : TradeStatus) :
    (t.updateStatus s).counterPartyDetails = t.counterPartyDetails := rfl

theorem isSendingStatus_iff {t : Trade} : t.isSendingStatus = true ↔
    t.status = .rSendT1Commit ∨ t.status = .pSendT1Commit ∨ t.status = .rSendT2Commit := by
  simp [isSendingStatus, or_assoc]

end Trade

/-! ## Messages -/

/-- The requests of the exchange protocol. -/
inductive ExchangeRequest
  | iWant (iWant : IWant)
  | startCommit (trade : Trade)
  | t1RequesterCommit (tradeId : U32) (commit : Commit)
  | t1ProviderCommit (tradeId : U32) (commit : Commit)
  | t2RequesterCommit (tradeId : U32) (commit : Commit)
  | t2CommitValid (tradeId : U32)
  | invalidatingSignature (tradeId : U32) (invalidatingSignature : Signature)
deriving DecidableEq, Repr

inductive ExchangeResponse
  | ack
  | bad
deriving DecidableEq, Repr

/-- The requests of the commit protocol. -/
inductive CommitRequest
  | wantHistory (walletAddress : Address)
  | update (walletAddress : Address) (commits : List Commit) (lastBatch : Bool)
deriving DecidableEq, Repr

inductive CommitResponse
  | ack
  | bad
deriving DecidableEq, Repr

inductive GossipsubMessage
  | newQuery (query : Query)
  | commit (commit : Commit) (tradeId : U32)
  | invalidatingSignature (tradeId : U32) (providerWallet requesterWallet : Address)
      (invalidatingSignature : Signature)
deriving DecidableEq, Repr

/-- What the network layer tells the rest of the node. -/
inductive NetworkEvent
  | gossipsubMessageRecv (message : GossipsubMessage)
  | exchangeRequest (senderPeerId : PeerId) (requestId : ℕ) (request : ExchangeRequest)
  | commitRequest (senderPeerId : PeerId) (requestId : ℕ) (request : CommitRequest)
  | newListenAddr (listenerId : ℕ) (address : Multiaddr)
deriving DecidableEq, Repr

/-- What a client of the node's server posts. -/
inductive ReceivedMessage
  | placeBid (queryId : U32) (charge : U256)
  | newQuery (query : QueryData)
  | acceptBid (queryId : U32) (providerId : PeerId)
  | startCommit (tradeQuote : TradeQuote)
  | iWant (providerAddr : Multiaddr) (providerId : PeerId) (id : U32)
deriving DecidableEq, Repr

end Dse
