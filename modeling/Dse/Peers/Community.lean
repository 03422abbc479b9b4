import Dse.Lib.Assembly
import Dse.Node.Indexer

/-!
# A community of nodes

Any number of nodes that all run this code, each with its own identity and clients. What reaches a
node by gossip, and the requests of the commit protocol that reach it, were sent by a node of the
community; the requests of the exchange protocol and all answers of the network may be anything.
-/

namespace Dse

/-- What carries commits or asks for them. -/
inductive Message
  | gossip (message : GossipsubMessage)
  | commitRequest (request : CommitRequest)
deriving DecidableEq, Repr

def NetworkEvent.message? : NetworkEvent → Option Message
  | .gossipsubMessageRecv message => some (.gossip message)
  | .commitRequest _ _ request => some (.commitRequest request)
  | _ => none

/-- The message that arrives: at the indexer, or at a load, which receives the same events. -/
def Input.message? : Input → Option Message
  | .network event => event.message?
  | .task _ (.event event) => event.message?
  | _ => none

def Command.message? : Command → Option Message
  | .publishMessage message => some (.gossip message)
  | .sendCommitRequest _ request => some (.commitRequest request)
  | _ => none

namespace Community

variable {ι Hash : Type}

/-- One step of one node, and the messages it sends. -/
def act (env : ι → Env Hash) (i : ι) (node : Node) (input : Input) : Node × List Message :=
  (node.step (env i) input, (node.act (env i) input).2.filterMap Command.message?)

/-- One step of the community. -/
def step [DecidableEq ι] (env : ι → Env Hash) :
    Assembly.State ι Node Message → ι × Input → Assembly.State ι Node Message :=
  Assembly.step (act env)

/-- What arrives in the step was sent by one of the nodes. -/
def Carried : Assembly.State ι Node Message → ι × Input → Prop := Assembly.Carried Input.message?

instance (x : Assembly.State ι Node Message) (i : ι × Input) : Decidable (Carried x i) :=
  inferInstanceAs (Decidable (Assembly.Carried Input.message? x i))

/-- The nodes are started on their databases. -/
def start (storage : ι → Storage) : Assembly.State ι Node Message :=
  Assembly.start fun i => .start (storage i)

end Community

end Dse
