import Dse.Node.Indexer

/-!
# Two nodes and their requests

Two nodes on one network. Each task has at most one request under way, so the requests and the
responses to them are kept under the party and the task that asked. A request reaches the other
party when it is addressed to its peer id, and no one otherwise: a node does not dial itself. A
request or a response may be lost at any time, which its sender sees as an error, and a sender may
give up on a request that is still to arrive.
-/

namespace Dse

inductive Party
  | a
  | b
deriving DecidableEq, Repr

def Party.other : Party → Party
  | .a => .b
  | .b => .a

@[simp] theorem Party.other_other (p : Party) : p.other.other = p := by
  cases p <;> rfl

/-- Where the request of a task stands. -/
inductive Flight
  | request (peerId : PeerId) (request : ExchangeRequest)
  /-- The sender has given up, and the request is still to arrive. -/
  | abandoned (peerId : PeerId) (request : ExchangeRequest)
  /-- The request has arrived, and the handler sends no response. -/
  | handled
  | response (response : ExchangeResponse)
deriving DecidableEq, Repr

structure Peers where
  node : Party → Node
  flight : Party → ℕ → Option Flight

/-- What happens next. -/
inductive Label
  /-- A node takes a step that needs nothing from the other one. -/
  | act (p : Party) (input : Input)
  /-- The request of a task of `p` arrives at the other party. -/
  | deliver (p : Party) (id : ℕ)
  /-- The response arrives at the task. -/
  | respond (p : Party) (id : ℕ)
  /-- The request or the response is lost. -/
  | lose (p : Party) (id : ℕ)
  /-- The task gives up on its request. -/
  | giveUp (p : Party) (id : ℕ)
deriving DecidableEq, Repr

/-- The input is no request from a peer and no response to one. -/
def Input.isLocal : Input → Bool
  | .network (.exchangeRequest _ _ _) => false
  | .task _ (.exchange _) => false
  | _ => true

/-- A client posts to a node. -/
def Label.isPost : Label → Bool
  | .act _ (.post _) => true
  | _ => false

def Command.request? : Command → Option Flight
  | .sendExchangeRequest peerId request => some (.request peerId request)
  | _ => none

def Command.response? : Command → Option Flight
  | .sendExchangeResponse _ _ response => some (.response response)
  | _ => none

variable {Hash : Type} (env : Party → Env Hash)

namespace Peers

def setNode (s : Peers) (p : Party) (node : Node) : Peers :=
  { s with node := Function.update s.node p node }

def setFlight (s : Peers) (p : Party) (id : ℕ) (flight : Option Flight) : Peers :=
  { s with flight := fun q k => if q = p ∧ k = id then flight else s.flight q k }

/-- A node takes a step of its own. A task may send a request. -/
def act (s : Peers) (p : Party) (input : Input) : Peers :=
  let o := (s.node p).act (env p) input
  match input, o.2.findSome? Command.request? with
  | .task id _, some flight => (s.setNode p o.1).setFlight p id (some flight)
  | _, _ => s.setNode p o.1

/-- The request of a task of `p` is handled by the other party; the response goes back if the sender
still waits for it. -/
def deliver (s : Peers) (p : Party) (id : ℕ) : Peers :=
  let handle (request : ExchangeRequest) :=
    (s.node p.other).act (env p.other) (.network (.exchangeRequest (env p).nodeId id request))
  match s.flight p id with
  | some (.request peerId request) =>
    if peerId = (env p.other).nodeId then
      (s.setNode p.other (handle request).1).setFlight p id
        (some (((handle request).2.findSome? Command.response?).getD .handled))
    else s
  | some (.abandoned peerId request) =>
    if peerId = (env p.other).nodeId then
      (s.setNode p.other (handle request).1).setFlight p id none
    else s
  | _ => s

/-- The task `id` of `p` is handed the outcome of its request. -/
def answer (s : Peers) (p : Party) (id : ℕ) (response : Option ExchangeResponse)
    (flight : Option Flight) : Peers :=
  (s.setNode p ((s.node p).step (env p) (.task id (.exchange response)))).setFlight p id flight

/-- One step of the two nodes. -/
def step (s : Peers) : Label → Peers
  | .act p input => if input.isLocal then s.act env p input else s
  | .deliver p id => s.deliver env p id
  | .respond p id =>
    match s.flight p id with
    | some (.response response) => s.answer env p id (some response) none
    | _ => s
  | .lose p id =>
    match s.flight p id with
    | some (.request _ _) | some .handled | some (.response _) => s.answer env p id none none
    | _ => s
  | .giveUp p id =>
    match s.flight p id with
    | some (.request peerId request) => s.answer env p id none (some (.abandoned peerId request))
    | _ => s

/-- Two nodes that have just been started on their databases. -/
def start (storage : Party → Storage) : Peers where
  node p := .start (storage p)
  flight _ _ := none

/-- The two nodes after the steps. -/
def run (s : Peers) (labels : List Label) : Peers := Run.final (step env) s labels

end Peers

/-! ## Two nodes to evaluate on -/

/-- The requester 2 and the provider 1 of `plainTrade`. -/
def plainEnvs : Party → Env (List UInt8)
  | .a => { plainEnv with nodeId := ⟨[2]⟩ }
  | .b => plainEnv

end Dse
