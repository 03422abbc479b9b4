import Dse.Node.Indexer
import Dse.Node.Proofs.StorageProofs

/-!
# What one step of a node does

`Effect` lists everything a step can do to the trades, the interests, the tasks and the indexer's
own state, with what it checked first and what it asks for. `act_effect` is the one place where the
handlers and the task bodies are unfolded; the invariants of a node are case analyses over `Effect`.
-/

namespace Dse

open Storage

variable {Hash : Type} (env : Env Hash)

/-! ## Loads -/

/-- Asks for no exchange. -/
def Command.IsQuiet : Command → Prop
  | .sendExchangeRequest _ _ => False
  | .sendExchangeResponse _ _ _ => False
  | _ => True

theorem Command.quiet_nil : ∀ x ∈ ([] : List Command), x.IsQuiet := fun _ h => absurd h (by simp)

theorem Command.quiet_singleton {c : Command} (h : c.IsQuiet) : ∀ x ∈ [c], x.IsQuiet := by
  intro x hx
  rw [List.mem_singleton.mp hx]
  exact h

/-- A command that asks something, and answers no request. -/
def Command.Asks : Command → Prop
  | .sendExchangeResponse _ _ _ => False
  | .sendCommitResponse _ _ _ => False
  | _ => True

theorem Command.asks_nil : ∀ c ∈ ([] : List Command), c.Asks := fun _ h => absurd h (by simp)

theorem Command.asks_singleton {c : Command} (h : c.Asks) : ∀ x ∈ [c], x.Asks := by
  intro x hx
  rw [List.mem_singleton.mp hx]
  exact h

/-- What a step of a `verify` or a `send` does to the storage. -/
inductive Writes (s : Storage) : Storage → Prop
  | nothing : Writes s s
  | trade (t : Trade) : Writes s (s.updateActiveTrade t)
  | commits (w : Address) (cs : List Commit) : Writes s (s.addCommitsToCommitHistory w cs)
  | wallet (w : Address) : Writes s (s.addWalletOfInterest w)

/-- A load stores commits or nothing, and asks for network events or a history. -/
theorem loadStep_cases (w : Address) (s : Storage) (load : Load) (answer : Answer) :
    ((loadStep env w s load answer).1 = s ∨
      ∃ w' cs, (loadStep env w s load answer).1 = s.addCommitsToCommitHistory w' cs) ∧
    ∀ c ∈ (loadStep env w s load answer).2.2, c = .subscribeNetworkEvents ∨
      ∃ peer, c = .sendCommitRequest peer (.wantHistory w) := by
  have hnone : ∀ c ∈ ([] : List Command), c = .subscribeNetworkEvents ∨
      ∃ peer, c = .sendCommitRequest peer (.wantHistory w) :=
    fun c hc => absurd hc List.not_mem_nil
  unfold loadStep
  split
  · exact ⟨Or.inl rfl, hnone⟩
  · exact ⟨Or.inl rfl, fun c hc => Or.inl (List.mem_singleton.mp hc)⟩
  · exact ⟨Or.inl rfl, hnone⟩
  · exact ⟨Or.inl rfl, hnone⟩
  · exact ⟨Or.inr ⟨_, _, rfl⟩, hnone⟩
  · split
    · exact ⟨Or.inl rfl, hnone⟩
    · split
      · split
        · exact ⟨Or.inl rfl, fun c hc => Or.inr ⟨_, List.mem_singleton.mp hc⟩⟩
        · exact ⟨Or.inl rfl, hnone⟩
        · exact ⟨Or.inl rfl, hnone⟩
      · exact ⟨Or.inl rfl, hnone⟩
  · exact ⟨Or.inl rfl, hnone⟩
  · exact ⟨Or.inl rfl, hnone⟩

/-- A load reads and writes commit histories only. -/
theorem loadStep_spec (w : Address) (s : Storage) (load : Load) (answer : Answer) :
    OnlyRecords s (loadStep env w s load answer).1 ∧
      ∀ c ∈ (loadStep env w s load answer).2.2, c.IsQuiet := by
  obtain ⟨hs, hc⟩ := loadStep_cases env w s load answer
  constructor
  · rcases hs with hs | ⟨w', cs, hs⟩
    · rw [hs]
      exact .refl s
    · rw [hs]
      exact onlyRecords_addCommits _ _ _
  · intro c hmem
    rcases hc c hmem with rfl | ⟨peer, rfl⟩
    · trivial
    · trivial

theorem loadStep_writes (w : Address) (s : Storage) (load : Load) (answer : Answer) :
    Writes s (loadStep env w s load answer).1 ∧
      ∀ c ∈ (loadStep env w s load answer).2.2, c.Asks := by
  obtain ⟨hs, hc⟩ := loadStep_cases env w s load answer
  constructor
  · rcases hs with hs | ⟨w', cs, hs⟩
    · rw [hs]
      exact .nothing
    · rw [hs]
      exact .commits w' cs
  · intro c hmem
    rcases hc c hmem with rfl | ⟨peer, rfl⟩
    · trivial
    · trivial

theorem verifyStep_writes (commit : Commit) (t : Trade) (s : Storage) (stage : VerifyStage)
    (answer : Answer) : Writes s (verifyStep env commit t s stage answer).storage ∧
      ∀ c ∈ (verifyStep env commit t s stage answer).commands, c.Asks := by
  unfold verifyStep
  split
  · exact ⟨.trade _, Command.asks_nil⟩
  · split
    · exact ⟨.nothing, Command.asks_nil⟩
    · exact ⟨.nothing, Command.asks_singleton trivial⟩
  · rename_i load
    have hload := loadStep_writes env commit.walletAddress s load answer
    split
    · rename_i heq
      rw [heq] at hload
      exact hload
    · rename_i heq
      rw [heq] at hload
      exact hload
    · rename_i heq
      rw [heq] at hload
      exact hload
  · exact ⟨.wallet _, Command.asks_nil⟩
  · exact ⟨.nothing, Command.asks_nil⟩
  · exact ⟨.trade _, Command.asks_nil⟩
  · exact ⟨.nothing, Command.asks_nil⟩

/-- A `send` stores its trade or nothing, and asks the counter party. -/
theorem sendStep_cases (t : Trade) (s : Storage) (stage : SendStage) (answer : Answer) :
    ((sendStep t s stage answer).storage = s ∨
      ∃ t', (sendStep t s stage answer).storage = s.updateActiveTrade t') ∧
    ∀ c ∈ (sendStep t s stage answer).commands, c.Asks := by
  unfold sendStep
  split
  · split
    · exact ⟨Or.inl rfl, Command.asks_singleton trivial⟩
    · exact ⟨Or.inl rfl, Command.asks_nil⟩
  · exact ⟨Or.inr ⟨_, rfl⟩, Command.asks_nil⟩
  · exact ⟨Or.inl rfl, Command.asks_nil⟩
  · exact ⟨Or.inl rfl, Command.asks_nil⟩

theorem sendStep_writes (t : Trade) (s : Storage) (stage : SendStage) (answer : Answer) :
    Writes s (sendStep t s stage answer).storage := by
  rcases (sendStep_cases t s stage answer).1 with hs | ⟨t', hs⟩
  · rw [hs]
    exact .nothing
  · rw [hs]
    exact .trade t'

/-- The trade id of a report. -/
def CommitProcedureEvent.tradeId : CommitProcedureEvent → U32
  | .sendSuccess tradeId => tradeId
  | .sendFailed tradeId => tradeId

/-- The status a commit request is accepted in, with its trade and commit. -/
def ExchangeRequest.awaited : ExchangeRequest → Option (TradeStatus × U32 × Commit)
  | .t1RequesterCommit tradeId commit => some (.waitingRT1Commit, tradeId, commit)
  | .t1ProviderCommit tradeId commit => some (.waitingPT1Commit, tradeId, commit)
  | .t2RequesterCommit tradeId commit => some (.waitingRT2Commit, tradeId, commit)
  | _ => none

namespace Node

section Tasks

variable (node : Node) (id id' : ℕ) (s : Storage) (task : Task) (next : Option Task)

@[simp] theorem spawn_storage : (node.spawn task).storage = node.storage := rfl

theorem spawn_tasks : (node.spawn task).tasks id' =
    if id' = node.nextTask then some task else node.tasks id' :=
  Function.update_apply _ _ _ _

@[simp] theorem resume_storage : (node.resume id s next).storage = s := rfl

theorem resume_tasks : (node.resume id s next).tasks id' = if id' = id then next else node.tasks id' :=
  Function.update_apply _ _ _ _

variable {node id task}

/-- Going on as the same task. -/
theorem resume_self (h : node.tasks id = some task) :
    node.resume id s (some task) = { node with storage := s } := by
  simp only [resume, ← h, Function.update_eq_self]

end Tasks

/-- The node with a `send` for the trade. -/
def sending (node : Node) (trade : Trade) : Node :=
  { node with activeSendCommitProc := insert trade.id node.activeSendCommitProc }.spawn
    (.send trade .starting)

end Node

/-! ## The tick -/

namespace Node

theorem startSend_eq (node : Node) (trade : Trade) : node.startSend trade =
    if trade.isSendingStatus = true ∧ trade.id ∉ node.activeSendCommitProc then
      node.sending trade
    else node := rfl

/-- The rule for a tick: what holds before and is kept by every `send` that is started, holds
after. -/
theorem handleTick_rule (P : Node → Prop) {node : Node} (h : P node)
    (hsend : ∀ n t, P n → n.storage = node.storage → node.storage.findActiveTrade t.id = some t →
      t.isSendingStatus = true → t.id ∉ n.activeSendCommitProc → P (n.sending t)) :
    P node.handleTick := by
  have hall : ∀ t ∈ node.storage.getActiveTrades, node.storage.findActiveTrade t.id = some t :=
    fun t ht => mem_getActiveTrades.mp ht
  suffices hfold : ∀ (ts : List Trade) (n : Node),
      (∀ t ∈ ts, node.storage.findActiveTrade t.id = some t) → n.storage = node.storage → P n →
        P (ts.foldl startSend n) from hfold _ node hall rfl h
  intro ts
  induction ts with
  | nil => exact fun n _ _ hn => hn
  | cons t ts ih =>
    intro n hts hs hn
    rw [List.foldl_cons, startSend_eq]
    have hts' : ∀ t ∈ ts, node.storage.findActiveTrade t.id = some t :=
      fun t' ht' => hts t' (List.mem_cons_of_mem _ ht')
    split
    · rename_i hdue
      exact ih _ hts' hs (hsend n t hn hs (hts t List.mem_cons_self) hdue.1 hdue.2)
    · exact ih _ hts' hs hn

theorem handleTick_storage (node : Node) : node.handleTick.storage = node.storage :=
  handleTick_rule (fun n => n.storage = node.storage) rfl fun _ _ hn _ _ _ _ => hn

end Node

/-! ## Steps -/

/-- What one step of a node does. -/
inductive Effect (node : Node) : Input → Node → List Command → Prop
  /-- Nothing but histories, queries and tracked wallets change. -/
  | record {input : Input} {s' : Storage} {commands : List Command}
      (hs : OnlyRecords node.storage s') (hc : ∀ c ∈ commands, c.IsQuiet) :
      Effect node input { node with storage := s' } commands
  /-- A request is taken note of, or refused. -/
  | iWant (sender : PeerId) (rid : ℕ) (i : IWant) :
      Effect node (.network (.exchangeRequest sender rid (.iWant i)))
        { node with storage := node.storage.addIWant i } [.sendExchangeResponse sender rid .ack]
  | startCommit (sender : PeerId) (rid : ℕ) (t : Trade) :
      Effect node (.network (.exchangeRequest sender rid (.startCommit t)))
        { node with storage := node.storage.addActiveTrade (t.updateStatus .rSendT1Commit) }
        [.sendExchangeResponse sender rid .ack]
  | refuse {sender : PeerId} {rid : ℕ} {request : ExchangeRequest} {status : TradeStatus}
      {tradeId : U32} {commit : Commit} (hr : request.awaited = some (status, tradeId, commit))
      (hno : ∀ t, node.storage.findActiveTrade tradeId = some t → t.status = status →
        t.counterPartyDetails.1 ≠ sender) :
      Effect node (.network (.exchangeRequest sender rid request)) node
        [.sendExchangeResponse sender rid .bad]
  | accept {sender : PeerId} {rid : ℕ} {request : ExchangeRequest} {t : Trade} {commit : Commit}
      (hr : request.awaited = some (t.status, t.id, commit))
      (hf : node.storage.findActiveTrade t.id = some t) (hp : t.counterPartyDetails.1 = sender) :
      Effect node (.network (.exchangeRequest sender rid request))
        (node.spawn (.verify commit t .processing)) [.sendExchangeResponse sender rid .ack]
  | tick : Effect node .tick node.handleTick []
  /-- The indexer takes note of a finished send. -/
  | consume {event : CommitProcedureEvent} {events : List CommitProcedureEvent}
      (h : node.commitProcEvents = event :: events) :
      Effect node .commitProcEvent
        { node with
          commitProcEvents := events
          activeSendCommitProc := node.activeSendCommitProc.erase event.tradeId } []
  | post {message : ReceivedMessage} {stage : PostStage} {commands : List Command}
      (hs : ∀ t, stage ≠ .startCommitRequested t)
      (hi : ∀ quote i, stage ≠ .startCommitDetails quote i)
      (hc : ∀ c ∈ commands, c.IsQuiet) :
      Effect node (.post message) (node.spawn (.post stage)) commands
  /-- A `verify` begins. -/
  | process {id : ℕ} {commit : Commit} {t : Trade}
      (h : node.tasks id = some (.verify commit t .processing)) :
      Effect node (.task id .run)
        (node.resume id (node.storage.updateActiveTrade (t.updateStatus t.status.toProcessing))
          (some (.verify commit (t.updateStatus t.status.toProcessing) .tracking))) []
  /-- A `verify` reads and writes commit histories. -/
  | examine {id : ℕ} {answer : Answer} {commit : Commit} {t : Trade} {stage stage' : VerifyStage}
      {s' : Storage} {commands : List Command}
      (h : node.tasks id = some (.verify commit t stage)) (hs : OnlyRecords node.storage s')
      (h1 : stage ≠ .processing) (h2 : stage ≠ .finishing) (h3 : stage' ≠ .processing)
      (h4 : stage' = .finishing → stage = .checking ∧ answer = .run)
      (hc : ∀ c ∈ commands, c.IsQuiet) :
      Effect node (.task id answer) (node.resume id s' (some (.verify commit t stage'))) commands
  /-- A load panics, and the `verify` with it. -/
  | abandon {id : ℕ} {answer : Answer} {commit : Commit} {t : Trade} {load : Load} {s' : Storage}
      {commands : List Command} (h : node.tasks id = some (.verify commit t (.loading load)))
      (hs : OnlyRecords node.storage s') (hc : ∀ c ∈ commands, c.IsQuiet) :
      Effect node (.task id answer) (node.resume id s' none) commands
  /-- A `verify` ends. -/
  | finish {id : ℕ} {commit : Commit} {t : Trade}
      (h : node.tasks id = some (.verify commit t .finishing)) :
      Effect node (.task id .run)
        (node.resume id (node.storage.updateActiveTrade (t.updateStatus t.status.toSend)) none) []
  /-- A `send` asks the counter party. -/
  | request {id : ℕ} {t : Trade} {commit : Commit} {request : ExchangeRequest}
      (h : node.tasks id = some (.send t .starting))
      (hr : createSendRequest t commit = some request) :
      Effect node (.task id .run) (node.resume id node.storage (some (.send t .requested)))
        [.sendExchangeRequest t.counterPartyDetails.1 request]
  /-- A `send` for a trade in no send status panics. -/
  | expect {id : ℕ} {t : Trade} (h : node.tasks id = some (.send t .starting))
      (ht : t.isSendingStatus = false) :
      Effect node (.task id .run) (node.resume id node.storage none) []
  /-- A `send` has its response, whatever it is. -/
  | sent {id : ℕ} {t : Trade} {response : ExchangeResponse}
      (h : node.tasks id = some (.send t .requested)) :
      Effect node (.task id (.exchange (some response)))
        (node.resume id (node.storage.updateActiveTrade (t.updateStatus t.status.toWaiting))
          (some (.send (t.updateStatus t.status.toWaiting) (.reporting (.sendSuccess t.id))))) []
  | unsent {id : ℕ} {t : Trade} (h : node.tasks id = some (.send t .requested)) :
      Effect node (.task id (.exchange none))
        (node.resume id node.storage (some (.send t (.reporting (.sendFailed t.id))))) []
  | report {id : ℕ} {t : Trade} {event : CommitProcedureEvent}
      (h : node.tasks id = some (.send t (.reporting event))) :
      Effect node (.task id .run)
        ({ node with commitProcEvents := node.commitProcEvents ++ [event] }.resume id node.storage
          none) []
  /-- A post looks up an interest. -/
  | findsIWant {id : ℕ} {quote : TradeQuote} {i : IWant}
      (h : node.tasks id = some (.post (.startCommit quote)))
      (hi : node.storage.findIWant quote.id = some i) :
      Effect node (.task id .run)
        (node.resume id node.storage (some (.post (.startCommitDetails quote i))))
        [.networkDetails]
  /-- A post sends an interest. -/
  | wants {id : ℕ} {providerId : PeerId} {iid : U32} {nodeAddr : Multiaddr}
      (h : node.tasks id = some (.post (.iWantDetails providerId iid))) :
      Effect node (.task id (.networkDetails (some nodeAddr)))
        (node.resume id node.storage (some (.post .iWantRequested)))
        [.sendExchangeRequest providerId
          (.iWant { requesterId := env.nodeId, requesterAddr := nodeAddr, id := iid })]
  /-- A post sends a trade. -/
  | opens {id : ℕ} {quote : TradeQuote} {i : IWant} {nodeAddr : Multiaddr} {t : Trade}
      (h : node.tasks id = some (.post (.startCommitDetails quote i)))
      (ht : t = Trade.fromQuote quote i .waitingRT1Commit env.nodeId nodeAddr false) :
      Effect node (.task id (.networkDetails (some nodeAddr)))
        (node.resume id node.storage (some (.post (.startCommitRequested t))))
        [.sendExchangeRequest i.requesterId (.startCommit t)]
  /-- A post stores the trade that the requester took. -/
  | opened {id : ℕ} {t : Trade} (h : node.tasks id = some (.post (.startCommitRequested t))) :
      Effect node (.task id (.exchange (some .ack)))
        (node.resume id (node.storage.addActiveTrade t) none) [.reply true]
  /-- A post goes on or ends in any other way. -/
  | serve {id : ℕ} {answer : Answer} {stage : PostStage} {next : Option PostStage} {s' : Storage}
      {commands : List Command} (h : node.tasks id = some (.post stage))
      (hs : OnlyRecords node.storage s')
      (hn : ∀ stage', next = some stage' → stage' = stage ∨ ∃ query,
        stage' = .newQueryPublished query) (hc : ∀ c ∈ commands, c.IsQuiet) :
      Effect node (.task id answer) (node.resume id s' (next.map .post)) commands

variable {env} {node : Node}

namespace Effect

/-- Handing a task an answer it does not wait for changes nothing. -/
theorem stay {id : ℕ} {answer : Answer} {task : Task} (h : node.tasks id = some task) :
    Effect env node (.task id answer) (node.resume id node.storage (some task)) [] := by
  rw [Node.resume_self _ h]
  exact .record (.refl _) Command.quiet_nil

end Effect

/-! ## The handlers -/

theorem handleCommit_effect {request : ExchangeRequest} {status : TradeStatus} {tradeId : U32}
    {commit : Commit} (hr : request.awaited = some (status, tradeId, commit)) (sender : PeerId)
    (rid : ℕ) : Effect env node (.network (.exchangeRequest sender rid request))
      (node.handleCommit status sender rid tradeId commit).1
      (node.handleCommit status sender rid tradeId commit).2 := by
  unfold Node.handleCommit
  split
  · rename_i t ht
    obtain ⟨hf, hcond⟩ := Option.filter_eq_some_iff.mp ht
    simp only [Bool.and_eq_true, decide_eq_true_eq] at hcond
    obtain ⟨rfl, hp⟩ := hcond
    have hid := findActiveTrade_id hf
    subst hid
    exact .accept hr hf hp
  · rename_i hno
    refine .refuse hr fun t hf hs hp => ?_
    have := Option.filter_eq_none_iff.mp hno t hf
    simp [hs, hp] at this

theorem handleExchangeRequest_effect (sender : PeerId) (rid : ℕ) (request : ExchangeRequest) :
    Effect env node (.network (.exchangeRequest sender rid request))
      (node.handleExchangeRequest sender rid request).1
      (node.handleExchangeRequest sender rid request).2 := by
  cases request with
  | iWant i => exact .iWant sender rid i
  | startCommit t => exact .startCommit sender rid t
  | t1RequesterCommit tradeId commit => exact handleCommit_effect rfl sender rid
  | t1ProviderCommit tradeId commit => exact handleCommit_effect rfl sender rid
  | t2RequesterCommit tradeId commit => exact handleCommit_effect rfl sender rid
  | t2CommitValid tradeId => exact .record (.refl _) Command.quiet_nil
  | invalidatingSignature tradeId sig => exact .record (.refl _) Command.quiet_nil

theorem onlyRecords_addInvalidatingSignature (s : Storage) (tradeId : U32) (w : Address)
    (sig : Signature) : OnlyRecords s (Node.addInvalidatingSignature s tradeId w sig) := by
  unfold Node.addInvalidatingSignature
  split
  · exact onlyRecords_updateInvalidatingSignature _ _ _ _
  · exact OnlyRecords.refl s

theorem handleNetworkEvent_effect (event : NetworkEvent) :
    Effect env node (.network event) (node.handleNetworkEvent event).1
      (node.handleNetworkEvent event).2 := by
  unfold Node.handleNetworkEvent
  split
  · exact .record (onlyRecords_addQueryReceived _ _) Command.quiet_nil
  · split
    · exact .record (onlyRecords_addCommits _ _ _) Command.quiet_nil
    · exact .record (OnlyRecords.refl _) Command.quiet_nil
  · exact .record ((onlyRecords_addInvalidatingSignature _ _ _ _).trans
      (onlyRecords_addInvalidatingSignature _ _ _ _)) Command.quiet_nil
  · exact handleExchangeRequest_effect _ _ _
  · split
    · exact .record (OnlyRecords.refl _) (by simp [Command.IsQuiet])
    · exact .record (OnlyRecords.refl _) (Command.quiet_singleton trivial)
  · exact .record (OnlyRecords.refl _) Command.quiet_nil
  · exact .record (OnlyRecords.refl _) Command.quiet_nil

theorem handlePost_effect (message : ReceivedMessage) :
    Effect env node (.post message) (node.handlePost message).1 (node.handlePost message).2 := by
  cases message with
  | newQuery query => exact .post nofun nofun (Command.quiet_singleton trivial)
  | placeBid queryId charge => exact .record (OnlyRecords.refl _) (Command.quiet_singleton trivial)
  | acceptBid queryId providerId => exact .record (OnlyRecords.refl _) (Command.quiet_singleton trivial)
  | iWant addr providerId id => exact .post nofun nofun (Command.quiet_singleton trivial)
  | startCommit quote => exact .post nofun nofun Command.quiet_nil

/-! ## The tasks -/

variable {id : ℕ} {answer : Answer}

theorem verifyStep_effect {commit : Commit} {t : Trade} {stage : VerifyStage}
    (h : node.tasks id = some (.verify commit t stage)) :
    Effect env node (.task id answer) (node.handleTask env id answer).1
      (node.handleTask env id answer).2 := by
  unfold Node.handleTask
  rw [h]
  simp only
  cases stage with
  | processing =>
    cases answer with
    | run => exact .process h
    | _ => exact Effect.stay h
  | tracking =>
    cases answer with
    | run =>
      simp only [verifyStep]
      split
      · exact .examine h (OnlyRecords.refl _) nofun nofun nofun nofun Command.quiet_nil
      · exact .examine h (OnlyRecords.refl _) nofun nofun nofun nofun
          (Command.quiet_singleton trivial)
    | _ => exact Effect.stay h
  | loading load =>
    obtain ⟨hs, hc⟩ := loadStep_spec env commit.walletAddress node.storage load answer
    simp only [verifyStep]
    revert hs hc
    generalize loadStep env commit.walletAddress node.storage load answer = result
    obtain ⟨s', progress, commands⟩ := result
    intro hs hc
    cases progress with
    | goesOn load' => exact .examine h hs nofun nofun nofun nofun hc
    | returned ok => exact .examine h hs nofun nofun nofun nofun hc
    | panicked => exact .abandon h hs hc
  | adding =>
    cases answer with
    | run =>
      exact .examine h (onlyRecords_addWalletOfInterest _ _) nofun nofun nofun nofun
        Command.quiet_nil
    | _ => exact Effect.stay h
  | checking =>
    cases answer with
    | run =>
      exact .examine h (OnlyRecords.refl _) nofun nofun nofun (fun _ => ⟨rfl, rfl⟩)
        Command.quiet_nil
    | _ => exact Effect.stay h
  | finishing =>
    cases answer with
    | run => exact .finish h
    | _ => exact Effect.stay h

theorem sendStep_effect {t : Trade} {stage : SendStage}
    (h : node.tasks id = some (.send t stage)) :
    Effect env node (.task id answer) (node.handleTask env id answer).1
      (node.handleTask env id answer).2 := by
  unfold Node.handleTask
  rw [h]
  cases stage with
  | reporting event =>
    simp only
    split
    · rename_i hcond
      rw [hcond.1]
      exact .report h
    · exact .record (OnlyRecords.refl _) Command.quiet_nil
  | starting =>
    simp only
    cases answer with
    | run =>
      simp only [sendStep, findCommitment, Option.bind_some]
      split
      · rename_i request hr
        exact .request h hr
      · rename_i hr
        refine .expect h ?_
        unfold createSendRequest at hr
        split at hr
        · cases hr
        · cases hr
        · cases hr
        · rename_i h1 h2 h3
          rw [Bool.eq_false_iff]
          intro hsend
          rcases Trade.isSendingStatus_iff.mp hsend with hs | hs | hs
          · exact h1 hs
          · exact h2 hs
          · exact h3 hs
    | _ => exact Effect.stay h
  | requested =>
    simp only
    cases answer with
    | exchange response =>
      cases response with
      | some response => exact .sent h
      | none => exact .unsent h
    | _ => exact Effect.stay h

theorem postStep_effect {stage : PostStage} (h : node.tasks id = some (.post stage)) :
    Effect env node (.task id answer) (node.handleTask env id answer).1
      (node.handleTask env id answer).2 := by
  unfold Node.handleTask
  rw [h]
  simp only
  have hreply : ∀ (s' : Storage) (ok : Bool), OnlyRecords node.storage s' →
      Effect env node (.task id answer) (node.resume id s' (Option.map Task.post none))
        [.reply ok] :=
    fun s' ok hs => .serve h hs nofun (Command.quiet_singleton trivial)
  have hstay : Effect env node (.task id answer)
      (node.resume id node.storage (some (.post stage))) [] := Effect.stay h
  cases stage with
  | newQueryDetails query =>
    cases answer with
    | networkDetails nodeAddr =>
      cases nodeAddr with
      | some nodeAddr =>
        exact .serve h (OnlyRecords.refl _) (fun _ hn => .inr ⟨_, (Option.some.inj hn).symm⟩)
          (Command.quiet_singleton trivial)
      | none => exact hreply _ _ (OnlyRecords.refl _)
    | _ => exact hstay
  | newQueryPublished query =>
    cases answer with
    | published ok =>
      cases ok with
      | true => exact hreply _ _ (onlyRecords_addQuerySent _ _)
      | false => exact hreply _ _ (OnlyRecords.refl _)
    | _ => exact hstay
  | iWantDetails providerId iid =>
    cases answer with
    | networkDetails nodeAddr =>
      cases nodeAddr with
      | some nodeAddr => exact .wants h
      | none => exact hreply _ _ (OnlyRecords.refl _)
    | _ => exact hstay
  | iWantRequested =>
    cases answer with
    | exchange response => exact hreply _ _ (OnlyRecords.refl _)
    | _ => exact hstay
  | startCommit quote =>
    cases answer with
    | run =>
      simp only [postStep]
      split
      · rename_i i hi
        exact .findsIWant h hi
      · exact hreply _ _ (OnlyRecords.refl _)
    | _ => exact hstay
  | startCommitDetails quote i =>
    cases answer with
    | networkDetails nodeAddr =>
      cases nodeAddr with
      | some nodeAddr => exact .opens h rfl
      | none => exact hreply _ _ (OnlyRecords.refl _)
    | _ => exact hstay
  | startCommitRequested t =>
    cases answer with
    | exchange response =>
      cases response with
      | some response =>
        cases response with
        | ack => exact .opened h
        | bad => exact hreply _ _ (OnlyRecords.refl _)
      | none => exact hreply _ _ (OnlyRecords.refl _)
    | _ => exact hstay

/-! ## The step -/

/-- What a step does is one of the effects. -/
theorem act_effect (node : Node) (input : Input) :
    Effect env node input (node.act env input).1 (node.act env input).2 := by
  cases input with
  | network event => exact handleNetworkEvent_effect event
  | tick => exact .tick
  | commitProcEvent =>
    simp only [Node.act, Node.handleCommitProcEvent]
    split
    · exact .record (OnlyRecords.refl _) Command.quiet_nil
    · rename_i h
      exact .consume h
    · rename_i h
      exact .consume h
  | post message => exact handlePost_effect message
  | task id answer =>
    cases h : node.tasks id with
    | none =>
      simp only [Node.act, Node.handleTask, h]
      exact .record (OnlyRecords.refl _) Command.quiet_nil
    | some task =>
      cases task with
      | verify commit t stage => exact verifyStep_effect h
      | send t stage => exact sendStep_effect h
      | post stage => exact postStep_effect h

theorem step_effect (node : Node) (input : Input) :
    Effect env node input (node.step env input) (node.act env input).2 :=
  act_effect node input

/-- A step of a `verify` writes at most its own trade, with another status, and goes on as a
`verify` of that trade. -/
theorem verify_step (env : Env Hash) {commit : Commit} {t : Trade} {stage : VerifyStage}
    (h : node.tasks id = some (.verify commit t stage)) (answer : Answer) :
    ∃ s' next, node.step env (.task id answer) = node.resume id s' next ∧
      (SameTrades node.storage s' ∨
        ∃ status, s' = node.storage.updateActiveTrade (t.updateStatus status)) ∧
      ∀ task, next = some task →
        ∃ status stage', task = .verify commit (t.updateStatus status) stage' := by
  obtain ⟨commands, he⟩ : ∃ commands,
      Effect env node (.task id answer) (node.step env (.task id answer)) commands :=
    ⟨_, step_effect node _⟩
  generalize node.step env (.task id answer) = node' at he
  cases he with
  | record hs _ =>
    refine ⟨_, some (.verify commit t stage), (Node.resume_self _ h).symm, .inl hs.toSameTrades, ?_⟩
    rintro task ⟨⟩
    exact ⟨t.status, stage, rfl⟩
  | process h' =>
    cases h.symm.trans h'
    refine ⟨_, _, rfl, .inr ⟨_, rfl⟩, ?_⟩
    rintro task ⟨⟩
    exact ⟨_, _, rfl⟩
  | examine h' hs =>
    cases h.symm.trans h'
    refine ⟨_, _, rfl, .inl hs.toSameTrades, ?_⟩
    rintro task ⟨⟩
    exact ⟨t.status, _, rfl⟩
  | abandon h' hs =>
    cases h.symm.trans h'
    exact ⟨_, none, rfl, .inl hs.toSameTrades, fun _ hn => by cases hn⟩
  | finish h' =>
    cases h.symm.trans h'
    exact ⟨_, none, rfl, .inr ⟨_, rfl⟩, fun _ hn => by cases hn⟩
  | request h' => cases h.symm.trans h'
  | expect h' => cases h.symm.trans h'
  | sent h' => cases h.symm.trans h'
  | unsent h' => cases h.symm.trans h'
  | report h' => cases h.symm.trans h'
  | findsIWant h' => cases h.symm.trans h'
  | wants h' => cases h.symm.trans h'
  | opens h' => cases h.symm.trans h'
  | opened h' => cases h.symm.trans h'
  | serve h' => cases h.symm.trans h'

end Dse
