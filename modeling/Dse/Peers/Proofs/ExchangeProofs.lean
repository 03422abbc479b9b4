import Dse.Node.Proofs.TaskProofs
import Dse.Peers.Exchange

/-!
# What one step of the two nodes does

A step moves at most one node, by an input that the label and the requests under way account for
(`Moved`), and a request or a response under way was there before or comes from what the step does
(`Flies`). Invariants of the two nodes are case analyses over the two.
-/

namespace Dse

open Storage

variable {Hash : Type}

/-! ## What a node asks and answers -/

/-- The requests a step of a task sends. -/
inductive Asked (env : Env Hash) (node : Node) : Input → PeerId → ExchangeRequest → Prop
  | commit {id : ℕ} {t : Trade} {commit : Commit} {request : ExchangeRequest}
      (h : node.tasks id = some (.send t .starting))
      (hr : createSendRequest t commit = some request) :
      Asked env node (.task id .run) t.counterPartyDetails.1 request
  | iWant {id : ℕ} {providerId : PeerId} {iid : U32} {nodeAddr : Multiaddr}
      (h : node.tasks id = some (.post (.iWantDetails providerId iid))) :
      Asked env node (.task id (.networkDetails (some nodeAddr))) providerId
        (.iWant { requesterId := env.nodeId, requesterAddr := nodeAddr, id := iid })
  | startCommit {id : ℕ} {quote : TradeQuote} {i : IWant} {nodeAddr : Multiaddr}
      (h : node.tasks id = some (.post (.startCommitDetails quote i))) :
      Asked env node (.task id (.networkDetails (some nodeAddr))) i.requesterId
        (.startCommit (Trade.fromQuote quote i .waitingRT1Commit env.nodeId nodeAddr false))

/-- The responses to a request. -/
inductive Answered (node : Node) (sender : PeerId) : ExchangeRequest → ExchangeResponse → Prop
  | iWant (i : IWant) : Answered node sender (.iWant i) .ack
  | startCommit (t : Trade) : Answered node sender (.startCommit t) .ack
  | accept {request : ExchangeRequest} {t : Trade} {commit : Commit}
      (hr : request.awaited = some (t.status, t.id, commit))
      (hf : node.storage.findActiveTrade t.id = some t) (hp : t.counterPartyDetails.1 = sender) :
      Answered node sender request .ack
  | refuse {request : ExchangeRequest} {status : TradeStatus} {tradeId : U32} {commit : Commit}
      (hr : request.awaited = some (status, tradeId, commit))
      (hno : ∀ t, node.storage.findActiveTrade tradeId = some t → t.status = status →
        t.counterPartyDetails.1 ≠ sender) : Answered node sender request .bad

namespace Effect

variable {env : Env Hash} {node node' : Node} {input : Input} {commands : List Command}

theorem asked (h : Effect env node input node' commands) {peerId : PeerId}
    {request : ExchangeRequest} (hc : Command.sendExchangeRequest peerId request ∈ commands) :
    Asked env node input peerId request := by
  cases h with
  | record _ hq => exact (hq _ hc).elim
  | iWant sender rid i => simp at hc
  | startCommit sender rid t => simp at hc
  | refuse _ _ => simp at hc
  | accept _ _ _ => simp at hc
  | tick => simp at hc
  | consume _ => simp at hc
  | post _ _ hq => exact (hq _ hc).elim
  | process _ => simp at hc
  | examine _ _ _ _ _ _ hq => exact (hq _ hc).elim
  | abandon _ _ hq => exact (hq _ hc).elim
  | finish _ => simp at hc
  | request h hr =>
    obtain ⟨rfl, rfl⟩ : peerId = _ ∧ request = _ := by simpa using hc
    exact .commit h hr
  | expect _ _ => simp at hc
  | sent _ => simp at hc
  | unsent _ => simp at hc
  | report _ => simp at hc
  | findsIWant _ _ => simp at hc
  | wants h =>
    obtain ⟨rfl, rfl⟩ : peerId = _ ∧ request = _ := by simpa using hc
    exact .iWant h
  | opens h ht =>
    obtain ⟨rfl, rfl⟩ : peerId = _ ∧ request = _ := by simpa using hc
    subst ht
    exact .startCommit h
  | opened _ => simp at hc
  | serve _ _ _ hq => exact (hq _ hc).elim

theorem answered {sender peerId : PeerId} {rid rid' : ℕ} {request : ExchangeRequest}
    {response : ExchangeResponse}
    (h : Effect env node (.network (.exchangeRequest sender rid request)) node' commands)
    (hc : Command.sendExchangeResponse peerId rid' response ∈ commands) :
    Answered node sender request response := by
  cases h with
  | record _ hq => exact (hq _ hc).elim
  | iWant sender rid i =>
    obtain ⟨-, -, rfl⟩ : peerId = _ ∧ rid' = _ ∧ response = .ack := by simpa using hc
    exact .iWant i
  | startCommit sender rid t =>
    obtain ⟨-, -, rfl⟩ : peerId = _ ∧ rid' = _ ∧ response = .ack := by simpa using hc
    exact .startCommit t
  | refuse hr hno =>
    obtain ⟨-, -, rfl⟩ : peerId = _ ∧ rid' = _ ∧ response = .bad := by simpa using hc
    exact .refuse hr hno
  | accept hr hf hp =>
    obtain ⟨-, -, rfl⟩ : peerId = _ ∧ rid' = _ ∧ response = .ack := by simpa using hc
    exact .accept hr hf hp

end Effect

/-! ## Steps of the two -/

variable (env : Party → Env Hash)

/-- The input that a step moves a node by. -/
inductive Moved (s : Peers) : Label → Party → Input → Prop
  | act {p : Party} {input : Input} (h : input.isLocal = true) : Moved s (.act p input) p input
  | deliver {p : Party} {id : ℕ} {request : ExchangeRequest}
      (h : s.flight p id = some (.request (env p.other).nodeId request) ∨
        s.flight p id = some (.abandoned (env p.other).nodeId request)) :
      Moved s (.deliver p id) p.other (.network (.exchangeRequest (env p).nodeId id request))
  | respond {p : Party} {id : ℕ} {response : ExchangeResponse}
      (h : s.flight p id = some (.response response)) :
      Moved s (.respond p id) p (.task id (.exchange (some response)))
  | lose {p : Party} {id : ℕ} {f : Flight} (h : s.flight p id = some f)
      (hf : ∀ peerId request, f ≠ .abandoned peerId request) :
      Moved s (.lose p id) p (.task id (.exchange none))
  | giveUp {p : Party} {id : ℕ} {peerId : PeerId} {request : ExchangeRequest}
      (h : s.flight p id = some (.request peerId request)) :
      Moved s (.giveUp p id) p (.task id (.exchange none))

/-- What a step puts under way. -/
inductive Flies (s : Peers) : Label → Party → ℕ → Flight → Prop
  | sent {p : Party} {id : ℕ} {answer : Answer} {peerId : PeerId} {request : ExchangeRequest}
      (h : Asked (env p) (s.node p) (.task id answer) peerId request) :
      Flies s (.act p (.task id answer)) p id (.request peerId request)
  | response {p : Party} {id : ℕ} {request : ExchangeRequest} {response : ExchangeResponse}
      (h : s.flight p id = some (.request (env p.other).nodeId request))
      (ha : Answered (s.node p.other) (env p).nodeId request response) :
      Flies s (.deliver p id) p id (.response response)
  | handled {p : Party} {id : ℕ} {request : ExchangeRequest}
      (h : s.flight p id = some (.request (env p.other).nodeId request)) :
      Flies s (.deliver p id) p id .handled
  | abandoned {p : Party} {id : ℕ} {peerId : PeerId} {request : ExchangeRequest}
      (h : s.flight p id = some (.request peerId request)) :
      Flies s (.giveUp p id) p id (.abandoned peerId request)

variable {env} {s : Peers} {l : Label} {p q : Party} {id : ℕ} {input : Input}

namespace Peers

theorem setNode_node (s : Peers) (p q : Party) (node : Node) :
    (s.setNode p node).node q = if q = p then node else s.node q :=
  Function.update_apply _ _ _ _

theorem setFlight_flight (s : Peers) (p q : Party) (id k : ℕ) (f : Option Flight) :
    (s.setFlight p id f).flight q k = if q = p ∧ k = id then f else s.flight q k := rfl

theorem act_node (s : Peers) (p : Party) (input : Input) :
    (s.act env p input).node = (s.setNode p ((s.node p).step (env p) input)).node := by
  unfold act
  simp only
  split <;> rfl

end Peers

open Peers

/-- A request among the commands. -/
theorem exists_of_findSome_request {commands : List Command} {f : Flight}
    (h : commands.findSome? Command.request? = some f) :
    ∃ peerId request, f = .request peerId request ∧
      Command.sendExchangeRequest peerId request ∈ commands := by
  obtain ⟨c, hc, hf⟩ := List.exists_of_findSome?_eq_some h
  cases c with
  | sendExchangeRequest peerId request => exact ⟨peerId, request, (Option.some.inj hf).symm, hc⟩
  | _ => cases hf

theorem exists_of_findSome_response {commands : List Command} {f : Flight}
    (h : commands.findSome? Command.response? = some f) :
    ∃ peerId rid response, f = .response response ∧
      Command.sendExchangeResponse peerId rid response ∈ commands := by
  obtain ⟨c, hc, hf⟩ := List.exists_of_findSome?_eq_some h
  cases c with
  | sendExchangeResponse peerId rid response =>
    exact ⟨peerId, rid, response, (Option.some.inj hf).symm, hc⟩
  | _ => cases hf

/-- A step leaves a node as it is, or moves it by one input. -/
theorem peers_node (env : Party → Env Hash) (s : Peers) (l : Label) (q : Party) :
    (s.step env l).node q = s.node q ∨ ∃ input, Moved env s l q input ∧
      (s.step env l).node q = (s.node q).step (env q) input := by
  have hset : ∀ {s' : Peers} {p : Party} {input : Input},
      s'.node = (s.setNode p ((s.node p).step (env p) input)).node → Moved env s l p input →
      s'.node q = s.node q ∨ ∃ input, Moved env s l q input ∧
        s'.node q = (s.node q).step (env q) input := by
    intro s' p input hs hm
    rw [hs, setNode_node]
    by_cases hq : q = p
    · subst hq
      exact .inr ⟨input, hm, if_pos rfl⟩
    · exact .inl (if_neg hq)
  cases l with
  | act p input =>
    unfold Peers.step
    simp only
    split
    · rename_i hlocal
      exact hset (act_node s p input) (.act hlocal)
    · exact .inl rfl
  | deliver p id =>
    unfold Peers.step Peers.deliver
    simp only
    split
    · rename_i peerId request hf
      split
      · rename_i hpeer
        subst hpeer
        exact hset rfl (.deliver (.inl hf))
      · exact .inl rfl
    · rename_i peerId request hf
      split
      · rename_i hpeer
        subst hpeer
        exact hset rfl (.deliver (.inr hf))
      · exact .inl rfl
    · exact .inl rfl
  | respond p id =>
    unfold Peers.step
    simp only
    split
    · rename_i response hf
      exact hset rfl (.respond hf)
    · exact .inl rfl
  | lose p id =>
    unfold Peers.step
    simp only
    split
    · rename_i hf
      exact hset rfl (.lose hf (by simp))
    · rename_i hf
      exact hset rfl (.lose hf (by simp))
    · rename_i hf
      exact hset rfl (.lose hf (by simp))
    · exact .inl rfl
  | giveUp p id =>
    unfold Peers.step
    simp only
    split
    · rename_i hf
      exact hset rfl (.giveUp hf)
    · exact .inl rfl

/-- The step that moves a node moves it by this input. -/
theorem peers_moved (h : Moved env s l q input) :
    (s.step env l).node q = (s.node q).step (env q) input := by
  have hset : ∀ {p : Party} {input : Input} {s' : Peers},
      s'.node = (s.setNode p ((s.node p).step (env p) input)).node →
      s'.node p = (s.node p).step (env p) input := by
    intro p input s' hs
    rw [hs, setNode_node, if_pos rfl]
  cases h with
  | act hlocal =>
    unfold Peers.step
    simp only [hlocal, if_true]
    exact hset (act_node s q _)
  | deliver hf =>
    unfold Peers.step Peers.deliver
    rcases hf with hf | hf
    · simp only [hf, if_true]
      exact hset rfl
    · simp only [hf, if_true]
      exact hset rfl
  | respond hf =>
    unfold Peers.step
    simp only [hf]
    exact hset rfl
  | @lose _ _ f hf hno =>
    unfold Peers.step
    cases f with
    | abandoned peerId request => exact absurd rfl (hno peerId request)
    | _ =>
      simp only [hf]
      exact hset rfl
  | giveUp hf =>
    unfold Peers.step
    simp only [hf]
    exact hset rfl

/-- What is under way was so before, or is put under way by the step. -/
theorem peers_flight {f : Flight} (h : (s.step env l).flight q id = some f) :
    s.flight q id = some f ∨ Flies env s l q id f := by
  have hset : ∀ {s' : Peers} {p : Party} {k : ℕ} {f' : Option Flight},
      (s'.setFlight p k f').flight q id = some f → s'.flight = s.flight →
      s.flight q id = some f ∨ q = p ∧ id = k ∧ f' = some f := by
    intro s' p k f' h hs
    rw [setFlight_flight] at h
    split at h
    · rename_i heq
      exact .inr ⟨heq.1, heq.2, h⟩
    · exact .inl (hs ▸ h)
  cases l with
  | act p input =>
    unfold Peers.step at h
    simp only at h
    split at h
    · unfold Peers.act at h
      simp only at h
      split at h
      · rename_i k answer f' hfind
        rcases hset h rfl with h | ⟨rfl, rfl, hf⟩
        · exact .inl h
        · cases hf
          obtain ⟨peerId, request, rfl, hmem⟩ := exists_of_findSome_request hfind
          exact .inr (.sent ((act_effect _ _).asked hmem))
      · exact .inl h
    · exact .inl h
  | deliver p k =>
    unfold Peers.step Peers.deliver at h
    simp only at h
    split at h
    · rename_i peerId request hflight
      split at h
      · rename_i hpeer
        subst hpeer
        rcases hset h rfl with h | ⟨rfl, rfl, hf⟩
        · exact .inl h
        · cases hf
          cases hfind : List.findSome? Command.response? _ with
          | none => exact .inr (.handled hflight)
          | some f' =>
            obtain ⟨peerId, rid, response, rfl, hmem⟩ := exists_of_findSome_response hfind
            exact .inr (.response hflight ((act_effect _ _).answered hmem))
      · exact .inl h
    · split at h
      · rcases hset h rfl with h | ⟨-, -, hf⟩
        · exact .inl h
        · cases hf
      · exact .inl h
    · exact .inl h
  | respond p k =>
    unfold Peers.step at h
    simp only at h
    split at h
    · rcases hset h rfl with h | ⟨-, -, hf⟩
      · exact .inl h
      · cases hf
    · exact .inl h
  | lose p k =>
    unfold Peers.step at h
    simp only at h
    split at h
    · rcases hset h rfl with h | ⟨-, -, hf⟩
      · exact .inl h
      · cases hf
    · rcases hset h rfl with h | ⟨-, -, hf⟩
      · exact .inl h
      · cases hf
    · rcases hset h rfl with h | ⟨-, -, hf⟩
      · exact .inl h
      · cases hf
    · exact .inl h
  | giveUp p k =>
    unfold Peers.step at h
    simp only at h
    split at h
    · rename_i peerId request hflight
      rcases hset h rfl with h | ⟨rfl, rfl, hf⟩
      · exact .inl h
      · cases hf
        exact .inr (.abandoned hflight)
    · exact .inl h

end Dse
