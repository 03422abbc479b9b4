import Dse.Lib.Pending
import Dse.Node.Types
import Mathlib.Data.Finset.Basic

/-!
# The DHT and the addresses of peers

`command_handler` and `swarm_event_handler` for all that is neither gossip nor a request or a
response: the queries to the DHT, the addresses of peers, and the details of the node itself. A
caller whose query is under way waits in a map under the query's id; every other caller is answered
at once.
-/

namespace Dse

/-- What libp2p hands over, or is handed, and the node does not look into. -/
structure Kademlia where
  Record : Type
  Key : Type
  Quorum : Type
  Value : Type
  Err : Type

/-- The maps of callers that wait for a query. -/
inductive PendingMap
  | dhtPut
  | dhtStartProviding
  | dhtGet
  | dhtGetProviders
  | bootstrap
deriving DecidableEq, Repr

inductive DhtCommand (kad : Kademlia)
  | startListening (addr : Multiaddr)
  | addKadPeer (peerId : PeerId) (peerAddr : Multiaddr)
  | addRequestResponsePeer (peerId : PeerId) (peerAddr : Multiaddr)
  | dhtPut (record : kad.Record) (quorum : kad.Quorum)
  | dhtStartProviding (key : kad.Key)
  | dhtGet (key : kad.Key) (quorum : kad.Quorum)
  | dhtGetProviders (key : kad.Key)
  | bootstrap
  | networkDetails
  | subscribeNetworkEvents

/-- `QueryResult` -/
inductive QueryResult (kad : Kademlia)
  | putRecord (result : Except kad.Err kad.Value)
  | getRecord (result : Except kad.Err kad.Value)
  | bootstrapOk (numRemaining : U32)
  | bootstrapTimeout (numRemaining : Option U32) (error : kad.Err)
  | startProviding (result : Except kad.Err kad.Value)
  | getProviders (result : Except kad.Err kad.Value)
  /-- Any other result. -/
  | other

inductive DhtEvent (kad : Kademlia)
  /-- `MdnsEvent::Discovered` -/
  | discovered (nodes : List (PeerId × Multiaddr))
  | outboundQueryCompleted (id : ℕ) (result : QueryResult kad)
  /-- The address to send back to, if the node was dialled. -/
  | connectionEstablished (peerId : PeerId) (sendBackAddr : Option Multiaddr)
  | newListenAddr (address : Multiaddr)
  /-- libp2p starts a query of its own. -/
  | ownQuery

/-- What a caller is told. -/
inductive CommandResult (kad : Kademlia)
  | value (value : kad.Value)
  /-- `Ok(())` -/
  | done
  | failed (error : kad.Err)
  /-- "Get record error" -/
  | getRecordError
  | details (peerId : PeerId) (nodeAddress : Multiaddr)
  /-- "(network) node does not have local address assigned" -/
  | noAddress
  /-- A receiver of network events. -/
  | receiver

/-- A call on the swarm. -/
inductive SwarmCall (kad : Kademlia)
  | listenOn (addr : Multiaddr)
  | dial (addr : Multiaddr)
  | kademliaAddAddress (peerId : PeerId) (addr : Multiaddr)
  | exchangeAddAddress (peerId : PeerId) (addr : Multiaddr)
  | putRecord (record : kad.Record) (quorum : kad.Quorum)
  | startProviding (key : kad.Key)
  | getRecord (key : kad.Key) (quorum : kad.Quorum)
  | getProviders (key : kad.Key)
  | bootstrap

/-- What is received next. The call on the swarm that a command leads to may fail. -/
inductive DhtInput (kad : Kademlia)
  | command (command : DhtCommand kad) (failure : Option kad.Err)
  | event (event : DhtEvent kad)

structure Dht where
  /-- The id of the node's keypair. -/
  peerId : PeerId
  nodeAddress : Option Multiaddr
  /-- The callers that wait, each in a map and under the id of its query. -/
  pending : Pending.Table (PendingMap × ℕ)
  /-- The id of the query that is started next. -/
  nextQueryId : ℕ
  knownPeers : Finset PeerId

variable {kad : Kademlia}

/-- What a step tells and calls. -/
structure DhtOutput (kad : Kademlia) where
  told : Option (ℕ × CommandResult kad) := none
  calls : List (SwarmCall kad) := []

namespace Dht

/-- `Network::new`. Its own bootstrap, if it is started, is an `ownQuery`. -/
def new (peerId : PeerId) : Dht where
  peerId := peerId
  nodeAddress := none
  pending := .new
  nextQueryId := 0
  knownPeers := ∅

/-- The caller of the command is answered. -/
def answer (dht : Dht) (calls : List (SwarmCall kad)) (result : CommandResult kad) :
    Dht × DhtOutput kad :=
  let (pending, told) := dht.pending.step (.reply result)
  ({ dht with pending }, { told, calls })

/-- A query is started, and the caller of the command put into the map. -/
def query (dht : Dht) (calls : List (SwarmCall kad)) (map : PendingMap) : Dht × DhtOutput kad :=
  let (pending, told) := dht.pending.step (.wait (map, dht.nextQueryId))
  ({ dht with pending, nextQueryId := dht.nextQueryId + 1 }, { told, calls })

/-- The caller is taken out of the map, if it is there, and told. -/
def complete (dht : Dht) (map : PendingMap) (id : ℕ) (result : CommandResult kad) :
    Dht × DhtOutput kad :=
  let (pending, told) := dht.pending.step (.resolve (map, id) result)
  ({ dht with pending }, { told })

def commandHandler (dht : Dht) (failure : Option kad.Err) :
    DhtCommand kad → Dht × DhtOutput kad
  | .startListening addr =>
    match failure with
    | none => dht.answer [.listenOn addr] .done
    | some e => dht.answer [.listenOn addr] (.failed e)
  | .addKadPeer peerId peerAddr => dht.answer [.kademliaAddAddress peerId peerAddr] .done
  | .addRequestResponsePeer peerId peerAddr =>
    dht.answer [.exchangeAddAddress peerId peerAddr] .done
  | .dhtPut record quorum =>
    match failure with
    | none => dht.query [.putRecord record quorum] .dhtPut
    | some e => dht.answer [.putRecord record quorum] (.failed e)
  | .dhtStartProviding key =>
    match failure with
    | none => dht.query [.startProviding key] .dhtStartProviding
    | some e => dht.answer [.startProviding key] (.failed e)
  | .dhtGet key quorum => dht.query [.getRecord key quorum] .dhtGet
  | .dhtGetProviders key => dht.query [.getProviders key] .dhtGetProviders
  | .bootstrap =>
    match failure with
    | none => dht.query [.bootstrap] .bootstrap
    | some e => dht.answer [.bootstrap] (.failed e)
  | .networkDetails =>
    match dht.nodeAddress with
    | some v => dht.answer [] (.details dht.peerId v)
    | none => dht.answer [] .noAddress
  | .subscribeNetworkEvents => dht.answer [] .receiver

def queryCompleted (dht : Dht) (id : ℕ) : QueryResult kad → Dht × DhtOutput kad
  | .putRecord (.ok record) => dht.complete .dhtPut id (.value record)
  | .putRecord (.error err) => dht.complete .dhtPut id (.failed err)
  | .getRecord (.ok record) => dht.complete .dhtGet id (.value record)
  | .getRecord (.error _) => dht.complete .dhtGet id .getRecordError
  | .bootstrapOk numRemaining =>
    if numRemaining = 0 then dht.complete .bootstrap id .done else (dht, {})
  | .bootstrapTimeout numRemaining err =>
    if numRemaining = none ∨ numRemaining = some 0 then dht.complete .bootstrap id (.failed err)
    else (dht, {})
  | .startProviding (.ok record) => dht.complete .dhtStartProviding id (.value record)
  | .startProviding (.error err) => dht.complete .dhtStartProviding id (.failed err)
  | .getProviders (.ok record) => dht.complete .dhtGetProviders id (.value record)
  | .getProviders (.error err) => dht.complete .dhtGetProviders id (.failed err)
  | .other => (dht, {})

def swarmEventHandler (dht : Dht) : DhtEvent kad → Dht × DhtOutput kad
  | .discovered nodes =>
    (dht, { calls := nodes.flatMap fun (peer, address) =>
      [.kademliaAddAddress peer address, .dial address] })
  | .outboundQueryCompleted id result => dht.queryCompleted id result
  | .connectionEstablished peerId (some sendBackAddr) =>
    if peerId ∉ dht.knownPeers then (dht, { calls := [.kademliaAddAddress peerId sendBackAddr] })
    else (dht, {})
  | .connectionEstablished _ none => (dht, {})
  | .newListenAddr address => ({ dht with nodeAddress := some address }, {})
  | .ownQuery => ({ dht with nextQueryId := dht.nextQueryId + 1 }, {})

def act (dht : Dht) : DhtInput kad → Dht × DhtOutput kad
  | .command command failure => dht.commandHandler failure command
  | .event event => dht.swarmEventHandler event

/-- One step. -/
def step (dht : Dht) (input : DhtInput kad) : Dht := (dht.act input).1

/-- Everything that callers are told, in order. -/
def told (dht : Dht) : List (DhtInput kad) → List (ℕ × CommandResult kad)
  | [] => []
  | input :: inputs => (dht.act input).2.told.toList ++ (dht.step input).told inputs

/-- What one caller is told. -/
def toldTo (dht : Dht) (caller : ℕ) (inputs : List (DhtInput kad)) : List (CommandResult kad) :=
  ((dht.told inputs).filter fun x => x.1 = caller).map Prod.snd

end Dht

end Dse
