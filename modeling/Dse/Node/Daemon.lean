import Dse.Lib.Broadcast
import Dse.Node.Indexer
import Dse.Node.Network

/-!
# The node with its network

The network task, the indexer and the other tasks of the node run side by side. The network emits
events on a broadcast channel, from which the indexer receives. The commands of the node go to the
network each in a task of its own, so they arrive in any order.
-/

namespace Dse

structure Daemon where
  network : Network
  node : Node
  /-- The indexer's receiver of the network's events. -/
  inbox : Broadcast.Receiver NetworkEvent
  /-- The commands on their way to the network. -/
  commands : List Command

/-- What runs next. -/
inductive DaemonInput
  | swarmEvent (event : SwarmEvent)
  /-- The network receives one of the commands. -/
  | command (place : ℕ)
  /-- The indexer receives from the network. -/
  | receive
  | tick
  | commitProcEvent
  | post (message : ReceivedMessage)
  | task (id : ℕ) (answer : Answer)
deriving DecidableEq, Repr

namespace Daemon

def start (storage : Storage) : Daemon where
  network := .new
  node := .start storage
  inbox := .new
  commands := []

variable {Hash : Type} (env : Env Hash) (serde : Serde GossipsubMessage) (slots : ℕ)

/-- What the node does in a step. -/
def nodeInput? (d : Daemon) : DaemonInput → Option Input
  | .swarmEvent _ => none
  | .command _ => none
  | .receive => d.inbox.recv.2.map .network
  | .tick => some .tick
  | .commitProcEvent => some .commitProcEvent
  | .post message => some (.post message)
  | .task id answer => some (.task id answer)

/-- The commands that the node issues in a step. -/
def issues (d : Daemon) (input : DaemonInput) : List Command :=
  ((d.nodeInput? input).map fun i => (d.node.act env i).2).getD []

/-- The events that the network emits in a step. -/
def emits (d : Daemon) : DaemonInput → List NetworkEvent
  | .swarmEvent event => (d.network.act serde (.swarmEvent event)).2.events
  | _ => []

/-- The node acts. -/
def actNode (d : Daemon) (input : DaemonInput) : Daemon :=
  { d with
    node := ((d.nodeInput? input).map (d.node.step env)).getD d.node
    commands := d.commands ++ d.issues env input }

/-- One step of the daemon. -/
def step (d : Daemon) : DaemonInput → Daemon
  | .swarmEvent event =>
    { d with
      network := d.network.step serde (.swarmEvent event)
      inbox := d.inbox.sendAll slots (d.emits serde (.swarmEvent event)) }
  | .command place =>
    match d.commands[place]? with
    | some command =>
      { d with
        network := d.network.step serde (.command command)
        commands := d.commands.eraseIdx place }
    | none => d
  | .receive => { d.actNode env .receive with inbox := d.inbox.recv.1 }
  | input => d.actNode env input

end Daemon

end Dse
