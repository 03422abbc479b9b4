import Dse.Node.Storage

/-!
# Loading a commit history

`ChRequest::load_commit_history` asks the providers of a wallet for its history and takes in the
`Update` requests that arrive. It is the body of a task: it runs until it waits for something, and
goes on with the answer it is handed. `Answer` lists what a task can wait for and `Command` what a
node can ask of its network and of its clients.
-/

namespace Dse

/-- What a waiting task is handed. A failed call is `none` or `false`. -/
inductive Answer
  /-- Nothing was waited for. -/
  | run
  | exchange (response : Option ExchangeResponse)
  | commit (response : Option CommitResponse)
  | providers (peers : Option (List PeerId))
  | subscribed (ok : Bool)
  | event (event : NetworkEvent)
  /-- The interval ticks; the flag says whether the timeout is over. -/
  | interval (timeoutOver : Bool)
  | networkDetails (nodeAddr : Option Multiaddr)
  | published (ok : Bool)
deriving DecidableEq, Repr

inductive Command
  | sendExchangeRequest (peerId : PeerId) (request : ExchangeRequest)
  | sendExchangeResponse (peerId : PeerId) (requestId : ℕ) (response : ExchangeResponse)
  | sendCommitRequest (peerId : PeerId) (request : CommitRequest)
  | sendCommitResponse (peerId : PeerId) (requestId : ℕ) (response : CommitResponse)
  | publishMessage (message : GossipsubMessage)
  | dhtGetProviders (walletAddress : Address)
  | subscribeNetworkEvents
  | networkDetails
  /-- The reply to a client's post: status 200, or 500. -/
  | reply (ok : Bool)
deriving DecidableEq, Repr

inductive LoadState
  | pending
  | inProgress
  | ended
deriving DecidableEq, Repr

structure LoadingState where
  peers : List PeerId
  requestCount : ℕ
  state : LoadState
deriving DecidableEq, Repr

/-- The peer to ask next, or `none` when `peers.remove(0)` panics. Each peer is only requested
3 times -/
def LoadingState.queryFrom (st : LoadingState) : Option (LoadingState × Option PeerId) :=
  if st.requestCount ≤ 3 then
    let st := { st with requestCount := st.requestCount + 1 }
    some (st, st.peers.head?)
  else
    match st.peers with
    | [] => none
    | _ :: peers =>
      let st := { st with requestCount := 1, peers }
      some (st, st.peers.head?)

/-- Where a load stands. -/
inductive Load
  /-- Waiting for the providers of the wallet. -/
  | providers
  /-- Waiting for the subscription to network events. -/
  | subscribing (peers : List PeerId) (epoch : U256) (ownerAddress : Address)
  /-- In the `select!`. -/
  | selecting (st : LoadingState) (epoch : U256) (ownerAddress : Address)
  /-- In the tick arm, waiting for the response to `WantHistory`. -/
  | requesting (st : LoadingState) (epoch : U256) (ownerAddress : Address)
deriving DecidableEq, Repr

/-- How a step of a load ends. -/
inductive LoadProgress
  | goesOn (load : Load)
  | returned (ok : Bool)
  | panicked
deriving DecidableEq, Repr

variable {Hash : Type} (env : Env Hash)

/-- The commits of an `Update` that pass the filter of the load. -/
def loadedCommits (epoch : U256) (ownerAddress : Address) (commits : List Commit) : List Commit :=
  commits.filter fun c =>
    decide (c.epoch = epoch) && decide (c.signingAddress env = some ownerAddress)

/-- One step of `load_commit_history`. -/
def loadStep (walletAddress : Address) (s : Storage) :
    Load → Answer → Storage × LoadProgress × List Command
  | .providers, .providers none => (s, .returned false, [])
  | .providers, .providers (some peers) =>
    (s, .goesOn (.subscribing peers (env.getCurrentEpoch walletAddress)
      (env.ownerAddress walletAddress)), [.subscribeNetworkEvents])
  | .subscribing _ _ _, .subscribed false => (s, .returned false, [])
  | .subscribing peers epoch ownerAddress, .subscribed true =>
    (s, .goesOn (.selecting { peers, requestCount := 0, state := .pending } epoch ownerAddress), [])
  | .selecting st epoch ownerAddress,
      .event (.commitRequest _ _ (.update walletAddress commits lastBatch)) =>
    (s.addCommitsToCommitHistory walletAddress (loadedCommits env epoch ownerAddress commits),
      .goesOn (.selecting (if lastBatch then { st with state := .ended } else st) epoch
        ownerAddress), [])
  | .selecting st epoch ownerAddress, .interval timeoutOver =>
    if st.state = .ended then (s, .returned true, [])
    else if st.state = .pending ∨ timeoutOver = true then
      match st.queryFrom with
      | some (st, some peerId) =>
        (s, .goesOn (.requesting st epoch ownerAddress),
          [.sendCommitRequest peerId (.wantHistory walletAddress)])
      | some (_, none) => (s, .returned true, [])
      | none => (s, .panicked, [])
    else (s, .goesOn (.selecting st epoch ownerAddress), [])
  | .requesting st epoch ownerAddress, .commit response =>
    (s, .goesOn (.selecting (if response = some .ack then { st with state := .inProgress } else st)
      epoch ownerAddress), [])
  -- any other event passes by, and any other answer is not for this load
  | load, _ => (s, .goesOn load, [])

end Dse
