import Dse.Node.Load
import Dse.Node.Wire

/-!
# The network task

The network task takes commands of the rest of the node and events of the swarm, one at a time. For
each of the two request-response protocols it keeps who waits for which request, and the channels on
which the requests of other peers are answered. The callers of a protocol are numbered in the order
of their commands: each command comes with a `oneshot::Sender` of its own.
-/

namespace Dse

/-! ## One protocol -/

/-- `(PeerId, RequestId)` -/
abbrev RequestKey := PeerId × ℕ

/-- A `oneshot::Sender`. -/
abbrev Caller := ℕ

inductive CallerError
  | outboundFailure
  | inboundFailure
  /-- "response channel missing for requst id {} to peer {}" -/
  | responseChannelMissing (requestId : ℕ) (peerId : PeerId)
deriving DecidableEq, Repr

/-- What a caller is told. -/
inductive CallerResult (Response : Type)
  /-- `Ok(response)` -/
  | response (response : Response)
  /-- `Ok(())` -/
  | sent
  | failed (error : CallerError)
deriving DecidableEq, Repr

/-- `RequestResponseEvent` -/
inductive RequestResponseEvent (Request Response : Type)
  | request (peer : PeerId) (requestId : ℕ) (request : Request)
  | response (peer : PeerId) (requestId : ℕ) (response : Response)
  | responseSent (peer : PeerId) (requestId : ℕ)
  | outboundFailure (peer : PeerId) (requestId : ℕ)
  | inboundFailure (peer : PeerId) (requestId : ℕ)
deriving DecidableEq, Repr

/-- What one protocol takes: a `Send*Request`, a `Send*Response` or an event. -/
inductive ProtocolInput (Request Response : Type)
  | sendRequest (peerId : PeerId) (request : Request)
  | sendResponse (peerId : PeerId) (requestId : ℕ) (response : Response)
  | event (event : RequestResponseEvent Request Response)
deriving DecidableEq, Repr

/-- What a step of one protocol hands out. -/
structure ProtocolOutput (Request Response : Type) where
  /-- `sender.send` -/
  told : Option (Caller × CallerResult Response) := none
  /-- `behaviour.send_request` -/
  request : Option (RequestKey × Request) := none
  /-- `behaviour.send_response`, whose result is dropped. -/
  response : Option (RequestKey × Response) := none
deriving DecidableEq, Repr

/-- What the network keeps for one protocol. -/
structure Protocol where
  pendingOutboundRequests : RequestKey → Option Caller
  pendingInboundResponse : RequestKey → Option Caller
  /-- The requests whose channel is there. -/
  inboundResponseChannels : Finset RequestKey
  /-- libp2p numbers the outbound requests. -/
  nextRequestId : ℕ
  /-- The sender of the next command. -/
  nextCaller : Caller

namespace Protocol

variable {Request Response : Type}

def new : Protocol where
  pendingOutboundRequests := fun _ => none
  pendingInboundResponse := fun _ => none
  inboundResponseChannels := ∅
  nextRequestId := 0
  nextCaller := 0

/-- `Send*Request` -/
def sendRequest (p : Protocol) (peerId : PeerId) (request : Request) :
    Protocol × ProtocolOutput Request Response :=
  let key := (peerId, p.nextRequestId)
  ({ p with
      nextRequestId := p.nextRequestId + 1
      nextCaller := p.nextCaller + 1
      pendingOutboundRequests := Function.update p.pendingOutboundRequests key p.nextCaller },
    { request := some (key, request) })

/-- `Send*Response` -/
def sendResponse (p : Protocol) (peerId : PeerId) (requestId : ℕ) (response : Response) :
    Protocol × ProtocolOutput Request Response :=
  let key := (peerId, requestId)
  if key ∈ p.inboundResponseChannels then
    ({ p with
        nextCaller := p.nextCaller + 1
        inboundResponseChannels := p.inboundResponseChannels.erase key
        pendingInboundResponse := Function.update p.pendingInboundResponse key p.nextCaller },
      { response := some (key, response) })
  else
    ({ p with nextCaller := p.nextCaller + 1 },
      { told := some (p.nextCaller, .failed (.responseChannelMissing requestId peerId)) })

/-- Removes the caller of an outbound request, and tells it. -/
def tellOutbound (p : Protocol) (key : RequestKey) (result : CallerResult Response) :
    Protocol × ProtocolOutput Request Response :=
  match p.pendingOutboundRequests key with
  | some caller =>
    ({ p with pendingOutboundRequests := Function.update p.pendingOutboundRequests key none },
      { told := some (caller, result) })
  | none => (p, {})

/-- Removes the caller of a response, and tells it. -/
def tellInbound (p : Protocol) (key : RequestKey) (result : CallerResult Response) :
    Protocol × ProtocolOutput Request Response :=
  match p.pendingInboundResponse key with
  | some caller =>
    ({ p with pendingInboundResponse := Function.update p.pendingInboundResponse key none },
      { told := some (caller, result) })
  | none => (p, {})

/-- The arm of `swarm_event_handler` for one protocol. -/
def handleEvent (p : Protocol) :
    RequestResponseEvent Request Response → Protocol × ProtocolOutput Request Response
  | .request peer requestId _ =>
    ({ p with inboundResponseChannels := insert (peer, requestId) p.inboundResponseChannels }, {})
  | .response peer requestId response => p.tellOutbound (peer, requestId) (.response response)
  | .responseSent peer requestId => p.tellInbound (peer, requestId) .sent
  | .outboundFailure peer requestId =>
    p.tellOutbound (peer, requestId) (.failed .outboundFailure)
  | .inboundFailure peer requestId => p.tellInbound (peer, requestId) (.failed .inboundFailure)

def act (p : Protocol) :
    ProtocolInput Request Response → Protocol × ProtocolOutput Request Response
  | .sendRequest peerId request => p.sendRequest peerId request
  | .sendResponse peerId requestId response => p.sendResponse peerId requestId response
  | .event event => p.handleEvent event

section Tell

variable (Request) (p : Protocol) (key : RequestKey) (result : CallerResult Response)

theorem tellOutbound_spec :
    (p.tellOutbound key result : Protocol × ProtocolOutput Request Response).2.response = none ∧
    (p.tellOutbound key result : Protocol × ProtocolOutput Request Response).1 =
      { p with pendingOutboundRequests := Function.update p.pendingOutboundRequests key none } := by
  unfold tellOutbound
  cases hkey : p.pendingOutboundRequests key with
  | none => simp only [← hkey, Function.update_eq_self, true_and]
  | some caller => exact ⟨rfl, rfl⟩

theorem tellInbound_spec :
    (p.tellInbound key result : Protocol × ProtocolOutput Request Response).2.response = none ∧
    (p.tellInbound key result : Protocol × ProtocolOutput Request Response).1 =
      { p with pendingInboundResponse := Function.update p.pendingInboundResponse key none } := by
  unfold tellInbound
  cases hkey : p.pendingInboundResponse key with
  | none => simp only [← hkey, Function.update_eq_self, true_and]
  | some caller => exact ⟨rfl, rfl⟩

end Tell

end Protocol

abbrev ExchangeEvent := RequestResponseEvent ExchangeRequest ExchangeResponse

abbrev CommitEvent := RequestResponseEvent CommitRequest CommitResponse

/-! ## The network -/

structure Network where
  /-- The topics that the swarm is subscribed to. -/
  subscriptions : List String
  exchange : Protocol
  commit : Protocol

inductive SwarmEvent
  | gossipsub (message : RawGossipsubMessage)
  | exchange (event : ExchangeEvent)
  | commit (event : CommitEvent)
  /-- Any other event: it emits nothing and touches neither protocol. -/
  | other
deriving DecidableEq, Repr

/-- What the network task receives next. -/
inductive NetworkInput
  | command (command : Command)
  | swarmEvent (event : SwarmEvent)
deriving DecidableEq, Repr

/-- What a step of the network hands out. -/
structure NetworkOutput where
  exchange : ProtocolOutput ExchangeRequest ExchangeResponse := {}
  commit : ProtocolOutput CommitRequest CommitResponse := {}
  /-- `emit_event` -/
  events : List NetworkEvent := []
  /-- `gossipsub.publish` -/
  published : Option (String × List UInt8) := none

namespace Network

def new : Network where
  -- subscribe to search query topic
  subscriptions := [GossipsubTopic.query.identTopic]
  exchange := .new
  commit := .new

/-- One step of the exchange protocol. -/
def actExchange (network : Network) (input : ProtocolInput ExchangeRequest ExchangeResponse)
    (events : List NetworkEvent) : Network × NetworkOutput :=
  let (exchange, output) := network.exchange.act input
  ({ network with exchange }, { exchange := output, events })

/-- One step of the commit protocol. -/
def actCommit (network : Network) (input : ProtocolInput CommitRequest CommitResponse)
    (events : List NetworkEvent) : Network × NetworkOutput :=
  let (commit, output) := network.commit.act input
  ({ network with commit }, { commit := output, events })

variable (serde : Serde GossipsubMessage)

def commandHandler (network : Network) : Command → Network × NetworkOutput
  | .publishMessage message =>
    (network, { published := some (message.topic, message.into serde) })
  | .sendExchangeResponse peerId requestId response =>
    network.actExchange (.sendResponse peerId requestId response) []
  | .sendExchangeRequest peerId request => network.actExchange (.sendRequest peerId request) []
  | .sendCommitResponse peerId requestId response =>
    network.actCommit (.sendResponse peerId requestId response) []
  | .sendCommitRequest peerId request => network.actCommit (.sendRequest peerId request) []
  -- the commands for the DHT and the node's own details
  | _ => (network, {})

def swarmEventHandler (network : Network) : SwarmEvent → Network × NetworkOutput
  | .gossipsub message =>
    match GossipsubMessage.tryFrom serde message with
    | some m => (network, { events := [.gossipsubMessageRecv m] })
    | none => (network, {})
  | .exchange event =>
    network.actExchange (.event event) <|
      match event with
      | .request peer requestId request => [.exchangeRequest peer requestId request]
      | _ => []
  | .commit event =>
    network.actCommit (.event event) <|
      match event with
      | .request peer requestId request => [.commitRequest peer requestId request]
      | _ => []
  | .other => (network, {})

def act (network : Network) : NetworkInput → Network × NetworkOutput
  | .command command => network.commandHandler serde command
  | .swarmEvent event => network.swarmEventHandler serde event

/-- One step of the network. -/
def step (network : Network) (input : NetworkInput) : Network := (network.act serde input).1

/-- Gossip leaves the network as it is. -/
theorem step_gossipsub (network : Network) (message : RawGossipsubMessage) :
    network.step serde (.swarmEvent (.gossipsub message)) = network := by
  unfold step act swarmEventHandler
  dsimp only
  split <;> rfl

end Network

/-- No gossip is understood. -/
def deafSerde : Serde GossipsubMessage where
  toVec _ := none
  fromSlice _ := none

end Dse
