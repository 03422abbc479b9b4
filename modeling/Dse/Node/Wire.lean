import Dse.Lib.Codec
import Dse.Node.Types

/-!
# Messages on the wire

Requests and responses travel as frames of JSON, gossip as JSON under a topic. `serde_json` and the
frames of `libp2p` are parameters (`Serde`, `Framing`).
-/

namespace Dse

/-! ## Requests and responses -/

/-- `RequestResponse<P, REQ, RES>`, with what its functions call. -/
structure RequestResponse (Request Response : Type) where
  framing : Framing
  request : Serde Request
  response : Serde Response

namespace RequestResponse

variable {Request Response : Type} (codec : RequestResponse Request Response)

def readRequest (io : List UInt8) : Option Request := do
  let vec ← codec.framing.read io 1000000
  codec.request.fromSlice vec

def readResponse (io : List UInt8) : Option Response := do
  let vec ← codec.framing.read io 1000000
  codec.response.fromSlice vec

def writeRequest (req : Request) : Option (List UInt8) := do
  let val ← codec.request.toVec req
  codec.framing.write val

def writeResponse (res : Response) : Option (List UInt8) := do
  let val ← codec.response.toVec res
  codec.framing.write val

/-- `from_slice` undoes `to_vec`, and `read_length_prefixed` undoes `write_length_prefixed` up to its
limit. -/
structure Lawful : Prop where
  framing : codec.framing.Lawful
  request : codec.request.Undoes
  response : codec.response.Undoes

end RequestResponse

abbrev ExchangeCodec := RequestResponse ExchangeRequest ExchangeResponse

abbrev CommitCodec := RequestResponse CommitRequest CommitResponse

/-! ## Gossip -/

inductive GossipsubTopic
  | query
  | commit
  | invalidatingSignature
deriving DecidableEq, Repr

namespace GossipsubTopic

def identTopic : GossipsubTopic → String
  | .query => "Query"
  | .commit => "Commit"
  | .invalidatingSignature => "InvalidatingSignature"

def fromMessage : GossipsubMessage → GossipsubTopic
  | .newQuery _ => .query
  | .commit _ _ => .commit
  | .invalidatingSignature _ _ _ _ => .invalidatingSignature

end GossipsubTopic

/-- `gossipsub::GossipsubMessage` -/
structure RawGossipsubMessage where
  source : Option PeerId
  data : List UInt8
  topic : String
deriving DecidableEq, Repr

namespace GossipsubMessage

def topic (message : GossipsubMessage) : String := (GossipsubTopic.fromMessage message).identTopic

/-- `TryFrom<gossipsub::GossipsubMessage>` -/
def tryFrom (serde : Serde GossipsubMessage) (recvMessage : RawGossipsubMessage) :
    Option GossipsubMessage :=
  match recvMessage.source with
  | some _ => serde.fromSlice recvMessage.data
  | none => none

/-- `Into<Vec<u8>>` -/
def into (serde : Serde GossipsubMessage) (message : GossipsubMessage) : List UInt8 :=
  match serde.toVec message with
  | some v => v
  | none => []

end GossipsubMessage

end Dse
