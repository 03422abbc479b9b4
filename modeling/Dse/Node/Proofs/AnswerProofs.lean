import Dse.Node.Daemon
import Dse.Node.Proofs.StepProofs
import Mathlib.Data.List.Count

/-!
# Which requests are answered

A `RequestLog` writes down the requests that the network has received, and those for which the node
has issued a response. As long as no request is overwritten in the broadcast channel, and none of a
variant is received that the indexer has no response for, every request is waiting or has been
answered, and exactly once.
-/

namespace Dse

open Broadcast

/-! ## Requests and their answers -/

/-- An inbound request of one of the protocols. -/
inductive InboundRequest
  | exchange (key : RequestKey)
  | commit (key : RequestKey)
deriving DecidableEq, Repr

/-- The request that a command answers. -/
def Command.answers? : Command → Option InboundRequest
  | .sendExchangeResponse peerId requestId _ => some (.exchange (peerId, requestId))
  | .sendCommitResponse peerId requestId _ => some (.commit (peerId, requestId))
  | _ => none

namespace NetworkEvent

/-- The request that comes with an event. -/
def asks? : NetworkEvent → Option InboundRequest
  | .exchangeRequest senderPeerId requestId _ => some (.exchange (senderPeerId, requestId))
  | .commitRequest senderPeerId requestId _ => some (.commit (senderPeerId, requestId))
  | _ => none

/-- The indexer has no response for the request. -/
def IsIgnored : NetworkEvent → Prop
  | .exchangeRequest _ _ (.t2CommitValid _) => True
  | .exchangeRequest _ _ (.invalidatingSignature _ _) => True
  | .commitRequest _ _ (.update _ _ _) => True
  | _ => False

end NetworkEvent

/-- What is ignored is a request. -/
theorem NetworkEvent.IsIgnored.asks {event : NetworkEvent} (h : event.IsIgnored) :
    ∃ r, event.asks? = some r := by
  cases event with
  | gossipsubMessageRecv message => exact h.elim
  | exchangeRequest sender requestId request => exact ⟨_, rfl⟩
  | commitRequest sender requestId request => exact ⟨_, rfl⟩
  | newListenAddr listenerId address => exact h.elim

/-- The requests that commands answer. -/
def answered (commands : List Command) : List InboundRequest :=
  commands.filterMap Command.answers?

/-- The requests that come with events. -/
def asked (events : List NetworkEvent) : List InboundRequest :=
  events.filterMap NetworkEvent.asks?

/-! ### The indexer answers what it does not ignore -/

namespace Node

variable (node : Node)

theorem answered_handleCommit (waiting : TradeStatus) (sender : PeerId) (requestId : ℕ)
    (tradeId : U32) (commit : Commit) :
    answered (node.handleCommit waiting sender requestId tradeId commit).2 =
      [.exchange (sender, requestId)] := by
  unfold handleCommit
  split <;> rfl

theorem answered_handleNetworkEvent_of_ignored {event : NetworkEvent} (h : event.IsIgnored) :
    answered (node.handleNetworkEvent event).2 = [] := by
  cases event with
  | gossipsubMessageRecv message => exact h.elim
  | exchangeRequest sender requestId request =>
    cases request with
    | t2CommitValid tradeId => rfl
    | invalidatingSignature tradeId signature => rfl
    | _ => exact h.elim
  | commitRequest sender requestId request =>
    cases request with
    | wantHistory walletAddress => exact h.elim
    | update walletAddress commits lastBatch => rfl
  | newListenAddr listenerId address => exact h.elim

theorem answered_handleNetworkEvent {event : NetworkEvent} (h : ¬ event.IsIgnored) :
    answered (node.handleNetworkEvent event).2 = event.asks?.toList := by
  cases event with
  | gossipsubMessageRecv message =>
    cases message with
    | newQuery query => rfl
    | commit commit tradeId =>
      unfold handleNetworkEvent
      dsimp only
      split <;> rfl
    | invalidatingSignature tradeId providerWallet requesterWallet signature => rfl
  | exchangeRequest sender requestId request =>
    cases request with
    | iWant iWant => rfl
    | startCommit trade => rfl
    | t1RequesterCommit tradeId commit => exact node.answered_handleCommit _ _ _ _ _
    | t1ProviderCommit tradeId commit => exact node.answered_handleCommit _ _ _ _ _
    | t2RequesterCommit tradeId commit => exact node.answered_handleCommit _ _ _ _ _
    | t2CommitValid tradeId => exact absurd trivial h
    | invalidatingSignature tradeId signature => exact absurd trivial h
  | commitRequest sender requestId request =>
    cases request with
    | wantHistory walletAddress =>
      unfold handleNetworkEvent
      dsimp only
      split <;> rfl
    | update walletAddress commits lastBatch => exact absurd trivial h
  | newListenAddr listenerId address => rfl

end Node

/-! ### Nothing else answers -/

variable {Hash : Type} (env : Env Hash) (serde : Serde GossipsubMessage) (slots : ℕ)

theorem answered_of_asks {commands : List Command} (h : ∀ c ∈ commands, c.Asks) :
    answered commands = [] := by
  refine List.filterMap_eq_nil_iff.mpr fun c hc => ?_
  have hasks := h c hc
  cases c with
  | sendExchangeResponse peerId requestId response => exact hasks.elim
  | sendCommitResponse peerId requestId response => exact hasks.elim
  | _ => rfl

theorem answered_postStep (s : Storage) (stage : PostStage) (answer : Answer) :
    answered (postStep env s stage answer).commands = [] := by
  unfold postStep
  split
  case h_8 => split <;> rfl
  all_goals rfl

/-- Only the handling of network events answers requests. -/
theorem Node.answered_act (node : Node) (input : Input) (h : ∀ event, input ≠ .network event) :
    answered (node.act env input).2 = [] := by
  cases input with
  | network event => exact absurd rfl (h event)
  | tick => rfl
  | commitProcEvent => rfl
  | post message => cases message <;> rfl
  | task id answer =>
    unfold Node.act Node.handleTask
    dsimp only
    split
    · rfl
    · exact answered_of_asks (verifyStep_writes env _ _ _ _ _).2
    · split <;> rfl
    · exact answered_of_asks (sendStep_cases _ _ _ _).2
    · exact answered_postStep env _ _ _

/-! ### The channels -/

/-- The channel of the request is there. -/
def Network.Holds (network : Network) : InboundRequest → Prop
  | .exchange key => key ∈ network.exchange.inboundResponseChannels
  | .commit key => key ∈ network.commit.inboundResponseChannels

namespace Protocol

variable {Request Response : Type} {p : Protocol} {key : RequestKey}

theorem mem_channels_handleEvent {event : RequestResponseEvent Request Response}
    (h : key ∈ (p.handleEvent event).1.inboundResponseChannels) :
    key ∈ p.inboundResponseChannels ∨ ∃ request, event = .request key.1 key.2 request := by
  cases event with
  | request peer requestId request =>
    rcases Finset.mem_insert.mp h with rfl | h
    · exact Or.inr ⟨request, rfl⟩
    · exact Or.inl h
  | response peer requestId response =>
    exact Or.inl (by rwa [handleEvent, (tellOutbound_spec Request _ _ _).2] at h)
  | responseSent peer requestId =>
    exact Or.inl (by rwa [handleEvent, (tellInbound_spec Request _ _ _).2] at h)
  | outboundFailure peer requestId =>
    exact Or.inl (by rwa [handleEvent, (tellOutbound_spec Request _ _ _).2] at h)
  | inboundFailure peer requestId =>
    exact Or.inl (by rwa [handleEvent, (tellInbound_spec Request _ _ _).2] at h)

theorem mem_channels_sendResponse {peerId : PeerId} {requestId : ℕ} {response : Response}
    (h : key ∈ (p.sendResponse peerId requestId response :
      Protocol × ProtocolOutput Request Response).1.inboundResponseChannels) :
    key ∈ p.inboundResponseChannels ∧ key ≠ (peerId, requestId) := by
  unfold sendResponse at h
  dsimp only at h
  by_cases hchannel : (peerId, requestId) ∈ p.inboundResponseChannels
  · rw [if_pos hchannel] at h
    exact (Finset.mem_erase.mp h).symm
  · rw [if_neg hchannel] at h
    exact ⟨h, ne_of_mem_of_not_mem h hchannel⟩

end Protocol

namespace Network

variable {network : Network} {r : InboundRequest}

/-- A channel comes with the event for its request. -/
theorem holds_swarmEvent {event : SwarmEvent}
    (h : (network.step serde (.swarmEvent event)).Holds r) :
    network.Holds r ∨ r ∈ asked (network.act serde (.swarmEvent event)).2.events := by
  cases event with
  | gossipsub message =>
    rw [step_gossipsub] at h
    exact Or.inl h
  | exchange event =>
    cases r with
    | exchange key =>
      refine (Protocol.mem_channels_handleEvent h).imp_right ?_
      rintro ⟨request, rfl⟩
      exact List.mem_singleton_self _
    | commit key => exact Or.inl h
  | commit event =>
    cases r with
    | exchange key => exact Or.inl h
    | commit key =>
      refine (Protocol.mem_channels_handleEvent h).imp_right ?_
      rintro ⟨request, rfl⟩
      exact List.mem_singleton_self _
  | other => exact Or.inl h

/-- A channel goes with the response for its request. -/
theorem holds_command {command : Command} (h : (network.step serde (.command command)).Holds r) :
    network.Holds r ∧ command.answers? ≠ some r := by
  cases command with
  | sendExchangeResponse peerId requestId response =>
    cases r with
    | exchange key =>
      obtain ⟨hmem, hne⟩ := Protocol.mem_channels_sendResponse h
      refine ⟨hmem, fun heq => hne ?_⟩
      cases heq
      rfl
    | commit key => exact ⟨h, nofun⟩
  | sendCommitResponse peerId requestId response =>
    cases r with
    | exchange key => exact ⟨h, nofun⟩
    | commit key =>
      obtain ⟨hmem, hne⟩ := Protocol.mem_channels_sendResponse h
      refine ⟨hmem, fun heq => hne ?_⟩
      cases heq
      rfl
  | _ => exact ⟨by cases r <;> exact h, nofun⟩

/-- One event at most. -/
theorem length_events (network : Network) (event : SwarmEvent) :
    (network.act serde (.swarmEvent event)).2.events.length ≤ 1 := by
  cases event with
  | gossipsub message =>
    unfold act swarmEventHandler
    dsimp only
    split
    · exact le_refl 1
    · exact Nat.zero_le 1
  | exchange event => cases event <;> first | exact le_refl 1 | exact Nat.zero_le 1
  | commit event => cases event <;> first | exact le_refl 1 | exact Nat.zero_le 1
  | other => exact Nat.zero_le 1

end Network

/-! ## The log of a run -/

structure RequestLog where
  /-- The requests that the network has received. -/
  received : List InboundRequest
  /-- The requests for which the node has issued a response. -/
  issued : List InboundRequest

namespace RequestLog

def start : RequestLog where
  received := []
  issued := []

/-- The observer. -/
def observe (log : RequestLog) (d : Daemon) (input : DaemonInput) : RequestLog where
  received := log.received ++ asked (d.emits serde input)
  issued := log.issued ++ answered (d.issues env input)

/-- libp2p gives every inbound request an id of its own. -/
def Admits (log : RequestLog) (d : Daemon) (input : DaemonInput) : Prop :=
  ∀ r ∈ asked (d.emits serde input), r ∉ log.received

end RequestLog

namespace Daemon

/-- The requests that the indexer has not received yet. -/
def waiting (d : Daemon) : List InboundRequest := asked d.inbox.queue

/-- The step loses a request: it is overwritten in the broadcast channel, or the indexer receives
it and ignores it. -/
def LosesRequest (d : Daemon) : DaemonInput → Prop
  | .swarmEvent event =>
    asked (d.inbox.lostAll slots (d.emits serde (.swarmEvent event))) ≠ []
  | .receive => ∃ event, d.inbox.recv.2 = some event ∧ event.IsIgnored
  | _ => False

end Daemon

namespace RequestLog

/-- Every request that was received is waiting, or the node has issued a response, and exactly one.
A channel is there only for requests that wait or whose response is on its way. -/
structure Answered (log : RequestLog) (d : Daemon) : Prop where
  once : ∀ r ∈ log.received, log.issued.count r + d.waiting.count r = 1
  only : ∀ r ∈ log.issued, r ∈ log.received
  released : ∀ r, d.network.Holds r → r ∈ d.waiting ∨ r ∈ answered d.commands

/-- The log fits the daemon, with what waits being known. -/
structure Fits (log : RequestLog) (d : Daemon) : Prop extends Answered log d where
  known : ∀ r ∈ d.waiting, r ∈ log.received

theorem fits_start (storage : Storage) : start.Fits (.start storage) where
  once := by simp [start]
  only := by simp [start]
  released r h := by
    cases r with
    | exchange key => exact absurd h (Finset.notMem_empty key)
    | commit key => exact absurd h (Finset.notMem_empty key)
  known _ h := by cases h

variable {env} {serde} {slots} {log : RequestLog} {d : Daemon}

/-! ### A swarm event -/

/-- What waits after a swarm event, and what was overwritten. -/
theorem asked_lost_append_waiting (env : Env Hash) (serde : Serde GossipsubMessage) (slots : ℕ)
    (d : Daemon) (event : SwarmEvent) :
    asked (d.inbox.lostAll slots (d.emits serde (.swarmEvent event))) ++
        (d.step env serde slots (.swarmEvent event)).waiting =
      d.waiting ++ asked (d.emits serde (.swarmEvent event)) := by
  have hsplit := d.inbox.lostAll_append_sendAll slots (d.emits serde (.swarmEvent event))
  have hasked := congrArg asked hsplit
  unfold asked at hasked ⊢
  rw [List.filterMap_append, List.filterMap_append] at hasked
  exact hasked

/-- A request that comes in is counted once more. -/
theorem Fits.count_swarmEvent (h : log.Fits d) {event : SwarmEvent}
    (hadm : log.Admits serde d (.swarmEvent event)) :
    ∀ r ∈ log.received ++ asked (d.emits serde (.swarmEvent event)),
      log.issued.count r +
        (d.waiting ++ asked (d.emits serde (.swarmEvent event))).count r = 1 := by
  intro r hr
  rw [List.count_append]
  rcases List.mem_append.mp hr with hr | hr
  · have hnew : r ∉ asked (d.emits serde (.swarmEvent event)) := fun hmem => hadm r hmem hr
    have honce := h.once r hr
    rw [List.count_eq_zero_of_not_mem hnew]
    omega
  · have hold := hadm r hr
    have hissued : r ∉ log.issued := fun hmem => hold (h.only r hmem)
    have hwaiting : r ∉ d.waiting := fun hmem => hold (h.known r hmem)
    have hone : (asked (d.emits serde (.swarmEvent event))).count r ≤ 1 :=
      le_trans List.count_le_length
        (le_trans (List.length_filterMap_le _ _) (d.network.length_events serde event))
    have hpos := List.count_pos_iff.mpr hr
    rw [List.count_eq_zero_of_not_mem hissued, List.count_eq_zero_of_not_mem hwaiting]
    omega

theorem Fits.answered_swarmEvent_iff (h : log.Fits d) {event : SwarmEvent}
    (hadm : log.Admits serde d (.swarmEvent event)) :
    (log.observe env serde d (.swarmEvent event)).Answered
        (d.step env serde slots (.swarmEvent event)) ↔
      ¬ d.LosesRequest serde slots (.swarmEvent event) := by
  have hsplit := asked_lost_append_waiting env serde slots d event
  have hcount := h.count_swarmEvent hadm
  have hissued : (log.observe env serde d (.swarmEvent event)).issued = log.issued :=
    List.append_nil _
  rw [← hsplit] at hcount
  constructor
  · -- an overwritten request would be counted twice
    intro hans hloses
    obtain ⟨r, hr⟩ := List.exists_mem_of_ne_nil _ hloses
    have hknown : r ∈ log.received ++ asked (d.emits serde (.swarmEvent event)) := by
      have hmem := List.mem_append_left
        (d.step env serde slots (.swarmEvent event)).waiting hr
      rw [hsplit] at hmem
      rcases List.mem_append.mp hmem with hmem | hmem
      · exact List.mem_append_left _ (h.known r hmem)
      · exact List.mem_append_right _ hmem
    have honce := hans.once r hknown
    have hall := hcount r hknown
    have hpos := List.count_pos_iff.mpr hr
    rw [hissued] at honce
    rw [List.count_append] at hall
    omega
  · intro hkeeps
    have hlost : asked (d.inbox.lostAll slots (d.emits serde (.swarmEvent event))) = [] :=
      not_not.mp hkeeps
    rw [hlost, List.nil_append] at hsplit hcount
    refine ⟨?_, ?_, ?_⟩
    · rw [hissued]
      exact hcount
    · rw [hissued]
      exact fun r hr => List.mem_append_left _ (h.only r hr)
    · intro r hr
      rw [hsplit]
      rcases d.network.holds_swarmEvent serde hr with hold | hnew
      · exact (h.released r hold).imp_left (List.mem_append_left _)
      · exact Or.inl (List.mem_append_right _ hnew)

/-! ### A receive -/

/-- A step that answers nothing and receives nothing. -/
theorem Fits.answered_of_quiet (h : log.Fits d) {input : DaemonInput} {d' : Daemon}
    (hemits : d.emits serde input = []) (hissues : answered (d.issues env input) = [])
    (hwaiting : d'.waiting = d.waiting)
    (hreleased : ∀ r, d'.network.Holds r → r ∈ d.waiting ∨ r ∈ answered d'.commands) :
    (log.observe env serde d input).Answered d' := by
  have hreceived : (log.observe env serde d input).received = log.received := by
    unfold observe
    rw [hemits]
    exact List.append_nil _
  have hissued : (log.observe env serde d input).issued = log.issued := by
    unfold observe
    rw [hissues, List.append_nil]
  refine ⟨?_, ?_, ?_⟩
  · rw [hreceived, hissued, hwaiting]
    exact h.once
  · rw [hreceived, hissued]
    exact h.only
  · rw [hwaiting]
    exact hreleased

theorem Fits.answered_receive_of_none (h : log.Fits d) (hnone : d.inbox.recv.2 = none)
    (hqueue : d.inbox.recv.1.queue = d.inbox.queue) :
    (log.observe env serde d .receive).Answered (d.step env serde slots .receive) := by
  have hissues : d.issues env .receive = [] := by
    unfold Daemon.issues Daemon.nodeInput?
    rw [hnone]
    rfl
  have hcommands : (d.step env serde slots .receive).commands = d.commands := by
    show d.commands ++ d.issues env .receive = d.commands
    rw [hissues, List.append_nil]
  refine h.answered_of_quiet rfl ?_ (congrArg asked hqueue) ?_
  · rw [hissues]
    rfl
  · rw [hcommands]
    exact h.released

/-- The node handles the event that is received. -/
theorem issues_receive {event : NetworkEvent} (hsome : d.inbox.recv.2 = some event) :
    d.issues env .receive = (d.node.handleNetworkEvent event).2 := by
  unfold Daemon.issues Daemon.nodeInput?
  rw [hsome]
  rfl

/-- The request of the event was the first to wait. -/
theorem waiting_receive {event : NetworkEvent}
    (hqueue : d.inbox.queue = event :: d.inbox.recv.1.queue) :
    d.waiting = event.asks?.toList ++ (d.step env serde slots .receive).waiting := by
  show asked d.inbox.queue = _ ++ asked d.inbox.recv.1.queue
  rw [hqueue]
  unfold asked
  rw [List.filterMap_cons]
  cases event.asks? <;> rfl

/-- A request that is ignored neither waits nor is answered. -/
theorem Fits.not_answered_receive (h : log.Fits d) {event : NetworkEvent}
    (hsome : d.inbox.recv.2 = some event)
    (hqueue : d.inbox.queue = event :: d.inbox.recv.1.queue) (hignored : event.IsIgnored) :
    ¬ (log.observe env serde d .receive).Answered (d.step env serde slots .receive) := by
  intro hans
  obtain ⟨r, hr⟩ := hignored.asks
  have hwaiting : d.waiting = [r] ++ (d.step env serde slots .receive).waiting := by
    rw [waiting_receive hqueue, hr]
    rfl
  have hissued : (log.observe env serde d .receive).issued = log.issued := by
    unfold observe
    rw [issues_receive hsome, d.node.answered_handleNetworkEvent_of_ignored hignored,
      List.append_nil]
  have hmem : r ∈ log.received := by
    refine h.known r ?_
    rw [hwaiting]
    exact List.mem_append_left _ (List.mem_singleton_self r)
  have hbefore := h.once r hmem
  have hafter := hans.once r (List.mem_append_left _ hmem)
  have hone : [r].count r = 1 := List.count_singleton_self
  rw [hissued] at hafter
  rw [hwaiting, List.count_append] at hbefore
  omega

/-- A request that is not ignored goes from those that wait to those that are answered. -/
theorem Fits.answered_receive (h : log.Fits d) {event : NetworkEvent}
    (hsome : d.inbox.recv.2 = some event)
    (hqueue : d.inbox.queue = event :: d.inbox.recv.1.queue) (hignored : ¬ event.IsIgnored) :
    (log.observe env serde d .receive).Answered (d.step env serde slots .receive) := by
  have hwaiting : d.waiting = event.asks?.toList ++ (d.step env serde slots .receive).waiting :=
    waiting_receive hqueue
  have hanswers := d.node.answered_handleNetworkEvent hignored
  have hissued : (log.observe env serde d .receive).issued =
      log.issued ++ event.asks?.toList := by
    unfold observe
    rw [issues_receive hsome, hanswers]
  have hcommands : answered (d.step env serde slots .receive).commands =
      answered d.commands ++ event.asks?.toList := by
    rw [← hanswers, ← issues_receive hsome]
    exact List.filterMap_append
  have hreceived : (log.observe env serde d .receive).received = log.received :=
    List.append_nil _
  refine ⟨?_, ?_, ?_⟩
  · rw [hreceived]
    intro r hr
    have honce := h.once r hr
    rw [hwaiting, List.count_append] at honce
    rw [hissued, List.count_append]
    omega
  · rw [hreceived, hissued]
    intro r hr
    rcases List.mem_append.mp hr with hr | hr
    · exact h.only r hr
    · refine h.known r ?_
      rw [hwaiting]
      exact List.mem_append_left _ hr
  · intro r hr
    rw [hcommands]
    rcases h.released r hr with hr | hr
    · rw [hwaiting] at hr
      rcases List.mem_append.mp hr with hr | hr
      · exact Or.inr (List.mem_append_right _ hr)
      · exact Or.inl hr
    · exact Or.inr (List.mem_append_left _ hr)

theorem Fits.answered_receive_iff (h : log.Fits d) :
    (log.observe env serde d .receive).Answered (d.step env serde slots .receive) ↔
      ¬ d.LosesRequest serde slots .receive := by
  rcases d.inbox.recv_cases with ⟨hnone, hqueue⟩ | ⟨event, hsome, hqueue⟩
  · refine iff_of_true (h.answered_receive_of_none hnone hqueue) ?_
    rintro ⟨event, hsome, -⟩
    rw [hnone] at hsome
    cases hsome
  · by_cases hignored : event.IsIgnored
    · refine iff_of_false (h.not_answered_receive hsome hqueue hignored) ?_
      exact fun hloses => hloses ⟨event, hsome, hignored⟩
    · refine iff_of_true (h.answered_receive hsome hqueue hignored) ?_
      rintro ⟨event', hsome', hignored'⟩
      rw [hsome] at hsome'
      cases hsome'
      exact hignored hignored'

/-! ### The other steps -/

theorem Fits.answered_command (h : log.Fits d) (place : ℕ) :
    (log.observe env serde d (.command place)).Answered
      (d.step env serde slots (.command place)) := by
  cases hplace : d.commands[place]? with
  | none =>
    have hstep : d.step env serde slots (.command place) = d := by
      unfold Daemon.step
      simp only [hplace]
    rw [hstep]
    exact h.answered_of_quiet rfl rfl rfl h.released
  | some command =>
    have hstep : d.step env serde slots (.command place) =
        { d with
          network := d.network.step serde (.command command)
          commands := d.commands.eraseIdx place } := by
      unfold Daemon.step
      simp only [hplace]
    rw [hstep]
    refine h.answered_of_quiet rfl rfl rfl fun r hr => ?_
    obtain ⟨hold, hne⟩ := d.network.holds_command serde hr
    refine (h.released r hold).imp_right fun hmem => ?_
    -- the command that has arrived is not the response for the request
    obtain ⟨c, hc, hanswers⟩ := List.mem_filterMap.mp hmem
    have hcne : c ≠ command := by
      rintro rfl
      exact hne hanswers
    refine List.mem_filterMap.mpr ⟨c, ?_, hanswers⟩
    obtain ⟨i, hi⟩ := List.mem_iff_getElem?.mp hc
    have hiplace : i ≠ place := by
      rintro rfl
      rw [hplace] at hi
      exact hcne (Option.some.inj hi).symm
    exact List.mem_eraseIdx_iff_getElem?.mpr ⟨i, hiplace, hi⟩

theorem Fits.answered_actNode (h : log.Fits d) {input : DaemonInput} {i : Input}
    (hinput : d.nodeInput? input = some i) (hno : ∀ event, i ≠ .network event)
    (hemits : d.emits serde input = []) :
    (log.observe env serde d input).Answered (d.actNode env input) := by
  have hissues : answered (d.issues env input) = [] := by
    unfold Daemon.issues
    rw [hinput]
    exact d.node.answered_act env i hno
  refine h.answered_of_quiet hemits hissues rfl fun r hr => ?_
  refine (h.released r hr).imp_right fun hmem => ?_
  have happend : answered (d.actNode env input).commands =
      answered d.commands ++ answered (d.issues env input) := List.filterMap_append
  rw [happend]
  exact List.mem_append_left _ hmem

/-- One step leaves every request waiting or answered once exactly if it loses none. -/
theorem Fits.answered_step_iff (h : log.Fits d) {input : DaemonInput}
    (hadm : log.Admits serde d input) :
    (log.observe env serde d input).Answered (d.step env serde slots input) ↔
      ¬ d.LosesRequest serde slots input := by
  cases input with
  | swarmEvent event => exact h.answered_swarmEvent_iff hadm
  | receive => exact h.answered_receive_iff
  | command place => exact iff_of_true (h.answered_command place) not_false
  | tick => exact iff_of_true (h.answered_actNode rfl (by rintro _ ⟨⟩) rfl) not_false
  | commitProcEvent => exact iff_of_true (h.answered_actNode rfl (by rintro _ ⟨⟩) rfl) not_false
  | post message => exact iff_of_true (h.answered_actNode rfl (by rintro _ ⟨⟩) rfl) not_false
  | task id answer => exact iff_of_true (h.answered_actNode rfl (by rintro _ ⟨⟩) rfl) not_false

/-- What waits has been received. -/
theorem Fits.known_step (h : log.Fits d) (input : DaemonInput) :
    ∀ r ∈ (d.step env serde slots input).waiting,
      r ∈ (log.observe env serde d input).received := by
  intro r hr
  cases input with
  | swarmEvent event =>
    have hmem := List.mem_append_right
      (asked (d.inbox.lostAll slots (d.emits serde (.swarmEvent event)))) hr
    rw [asked_lost_append_waiting] at hmem
    rcases List.mem_append.mp hmem with hmem | hmem
    · exact List.mem_append_left _ (h.known r hmem)
    · exact List.mem_append_right _ hmem
  | receive =>
    refine List.mem_append_left _ (h.known r ?_)
    rcases d.inbox.recv_cases with ⟨-, hqueue⟩ | ⟨event, -, hqueue⟩
    · have hwaiting : (d.step env serde slots .receive).waiting = d.waiting :=
        congrArg asked hqueue
      rw [hwaiting] at hr
      exact hr
    · unfold Daemon.waiting
      rw [hqueue]
      obtain ⟨e, he, hasks⟩ := List.mem_filterMap.mp hr
      exact List.mem_filterMap.mpr ⟨e, List.mem_cons_of_mem _ he, hasks⟩
  | command place =>
    refine List.mem_append_left _ (h.known r ?_)
    unfold Daemon.step at hr
    dsimp only at hr
    split at hr
    · exact hr
    · exact hr
  | tick => exact List.mem_append_left _ (h.known r hr)
  | commitProcEvent => exact List.mem_append_left _ (h.known r hr)
  | post message => exact List.mem_append_left _ (h.known r hr)
  | task id answer => exact List.mem_append_left _ (h.known r hr)

end RequestLog

/-- The daemon and its log. -/
abbrev Daemon.logged : RequestLog × Daemon → DaemonInput → RequestLog × Daemon :=
  Run.watch (Daemon.step env serde slots) (RequestLog.observe env serde)

/-- In every state of a run every request is waiting or answered exactly once, with channels only
for those whose response is still to come, exactly if no step of the run loses a request. -/
theorem answered_once_iff (storage : Storage) (inputs : List DaemonInput)
    (hadm : Run.Always (Daemon.logged env serde slots) (fun x i => x.1.Admits serde x.2 i)
      (.start, .start storage) inputs) :
    Run.Always (Daemon.logged env serde slots)
        (fun x i => (x.1.observe env serde x.2 i).Answered (x.2.step env serde slots i))
        (.start, .start storage) inputs ↔
      Run.Always (Daemon.logged env serde slots) (fun x i => ¬ x.2.LosesRequest serde slots i)
        (.start, .start storage) inputs := by
  have hstep : ∀ (x : RequestLog × Daemon) (i : DaemonInput), x.1.Fits x.2 →
      x.1.Admits serde x.2 i →
        (x.1.observe env serde x.2 i).Answered (x.2.step env serde slots i) →
          (Daemon.logged env serde slots x i).1.Fits (Daemon.logged env serde slots x i).2 :=
    fun x i h _ hans => ⟨hans, h.known_step i⟩
  exact Run.always_iff_of_inv (fun x i h ha => h.answered_step_iff ha) hstep
    (RequestLog.fits_start storage) hadm

/-- Peer 2 says what it wants, and is answered. -/
def answeredRequest : List DaemonInput :=
  [.swarmEvent (.exchange (.request ⟨[2]⟩ 0 (.iWant ⟨⟨[2]⟩, ⟨[20]⟩, 6⟩))), .receive, .command 0]

/-- Peer 2 says that a commit is valid. -/
def ignoredRequest : List DaemonInput :=
  [.swarmEvent (.exchange (.request ⟨[2]⟩ 0 (.t2CommitValid 6))), .receive]

/-- A request for an interest is answered once. -/
theorem answered_once_iff_iWant :
    Run.Always (Daemon.logged plainEnv deafSerde 20)
      (fun x i => (x.1.observe plainEnv deafSerde x.2 i).Answered
        (x.2.step plainEnv deafSerde 20 i)) (.start, .start Storage.new) answeredRequest := by
  refine (answered_once_iff plainEnv deafSerde 20 Storage.new answeredRequest ?_).mpr ?_
  · refine ⟨?_, nofun, nofun, trivial⟩
    intro r _
    exact List.not_mem_nil
  · refine ⟨?_, ?_, id, trivial⟩
    · exact fun hloses => hloses rfl
    · rintro ⟨event, ⟨⟩, hignored⟩
      exact hignored

/-- A `T2CommitValid` is never answered. -/
theorem not_answered_once_t2CommitValid :
    ¬ ∀ inputs, Run.Always (Daemon.logged plainEnv deafSerde 20)
        (fun x i => x.1.Admits deafSerde x.2 i) (.start, .start Storage.new) inputs →
      Run.Always (Daemon.logged plainEnv deafSerde 20)
        (fun x i => (x.1.observe plainEnv deafSerde x.2 i).Answered
          (x.2.step plainEnv deafSerde 20 i)) (.start, .start Storage.new) inputs := by
  intro h
  have hadm : Run.Always (Daemon.logged plainEnv deafSerde 20)
      (fun x i => x.1.Admits deafSerde x.2 i) (.start, .start Storage.new) ignoredRequest := by
    refine ⟨?_, nofun, trivial⟩
    intro r _
    exact List.not_mem_nil
  obtain ⟨-, hlast, -⟩ := h ignoredRequest hadm
  have honce := hlast.once (.exchange (⟨[2]⟩, 0)) (List.mem_singleton_self _)
  exact absurd honce (by decide)

end Dse
