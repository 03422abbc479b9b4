import Dse.Node.Proofs.StepProofs

/-!
# Where trades and tasks come from

A step does one of four things to the storage (`StorageEffect`), so a trade that is stored after a
step was stored before it or is one that the step writes (`Written`). A task that is there after a
step was there before it or is one that the step leaves (`Left`). Invariants about the copies of a
trade, stored or in a task, are case analyses over the two.
-/

namespace Dse

open Storage

variable {Hash : Type} (env : Env Hash) {node node' : Node} {input : Input}
  {commands : List Command}

/-- A commit request is accepted in this status. -/
def TradeStatus.IsAwaited (s : TradeStatus) : Prop :=
  s = .waitingRT1Commit ∨ s = .waitingPT1Commit ∨ s = .waitingRT2Commit

theorem ExchangeRequest.isAwaited {r : ExchangeRequest} {status : TradeStatus} {tradeId : U32}
    {commit : Commit} (h : r.awaited = some (status, tradeId, commit)) : status.IsAwaited := by
  cases r <;> simp only [awaited, Option.some.injEq, Prod.mk.injEq, reduceCtorEq] at h
  · exact .inl h.1.symm
  · exact .inr (.inl h.1.symm)
  · exact .inr (.inr h.1.symm)

/-- The trades that a step writes. -/
inductive Written (node : Node) : Input → Trade → Prop
  | startCommit (sender : PeerId) (rid : ℕ) (t : Trade) :
      Written node (.network (.exchangeRequest sender rid (.startCommit t)))
        (t.updateStatus .rSendT1Commit)
  | process {id : ℕ} {commit : Commit} {t : Trade}
      (h : node.tasks id = some (.verify commit t .processing)) :
      Written node (.task id .run) (t.updateStatus t.status.toProcessing)
  | finish {id : ℕ} {commit : Commit} {t : Trade}
      (h : node.tasks id = some (.verify commit t .finishing)) :
      Written node (.task id .run) (t.updateStatus t.status.toSend)
  | sent {id : ℕ} {t : Trade} {response : ExchangeResponse}
      (h : node.tasks id = some (.send t .requested)) :
      Written node (.task id (.exchange (some response))) (t.updateStatus t.status.toWaiting)
  | opened {id : ℕ} {t : Trade} (h : node.tasks id = some (.post (.startCommitRequested t))) :
      Written node (.task id (.exchange (some .ack))) t

/-- The tasks that a step starts, or takes on to their next stage. -/
inductive Left (node : Node) : Input → ℕ → Task → Prop
  | accept {sender : PeerId} {rid : ℕ} {request : ExchangeRequest} {t : Trade} {commit : Commit}
      (hr : request.awaited = some (t.status, t.id, commit))
      (hf : node.storage.findActiveTrade t.id = some t) (hp : t.counterPartyDetails.1 = sender) :
      Left node (.network (.exchangeRequest sender rid request)) node.nextTask
        (.verify commit t .processing)
  | tick {id : ℕ} {t : Trade} (hid : node.nextTask ≤ id)
      (hf : node.storage.findActiveTrade t.id = some t) (ht : t.isSendingStatus = true) :
      Left node .tick id (.send t .starting)
  | post {message : ReceivedMessage} {id : ℕ} {stage : PostStage}
      (hs : ∀ t, stage ≠ .startCommitRequested t)
      (hi : ∀ quote i, stage ≠ .startCommitDetails quote i) :
      Left node (.post message) id (.post stage)
  | process {id : ℕ} {commit : Commit} {t : Trade}
      (h : node.tasks id = some (.verify commit t .processing)) :
      Left node (.task id .run) id (.verify commit (t.updateStatus t.status.toProcessing) .tracking)
  | examine {id : ℕ} {answer : Answer} {commit : Commit} {t : Trade} {stage stage' : VerifyStage}
      (h : node.tasks id = some (.verify commit t stage))
      (h1 : stage ≠ .processing) (h2 : stage ≠ .finishing) (h3 : stage' ≠ .processing)
      (h4 : stage' = .finishing → stage = .checking ∧ answer = .run) :
      Left node (.task id answer) id (.verify commit t stage')
  | request {id : ℕ} {t : Trade} (h : node.tasks id = some (.send t .starting)) :
      Left node (.task id .run) id (.send t .requested)
  | sent {id : ℕ} {t : Trade} {response : ExchangeResponse}
      (h : node.tasks id = some (.send t .requested)) :
      Left node (.task id (.exchange (some response))) id
        (.send (t.updateStatus t.status.toWaiting) (.reporting (.sendSuccess t.id)))
  | unsent {id : ℕ} {t : Trade} (h : node.tasks id = some (.send t .requested)) :
      Left node (.task id (.exchange none)) id (.send t (.reporting (.sendFailed t.id)))
  | findsIWant {id : ℕ} {quote : TradeQuote} {i : IWant}
      (h : node.tasks id = some (.post (.startCommit quote)))
      (hi : node.storage.findIWant quote.id = some i) :
      Left node (.task id .run) id (.post (.startCommitDetails quote i))
  | opens {id : ℕ} {quote : TradeQuote} {i : IWant} {nodeAddr : Multiaddr}
      (h : node.tasks id = some (.post (.startCommitDetails quote i))) :
      Left node (.task id (.networkDetails (some nodeAddr))) id (.post (.startCommitRequested
        (Trade.fromQuote quote i .waitingRT1Commit env.nodeId nodeAddr false)))
  /-- A post that opens no trade goes on. -/
  | serve {id : ℕ} {answer : Answer} {stage stage' : PostStage}
      (h : node.tasks id = some (.post stage)) (hs : ∀ t, stage' ≠ .startCommitRequested t)
      (hi : ∀ quote i, stage' ≠ .startCommitDetails quote i) :
      Left node (.task id answer) id (.post stage')

/-- What a step does to the storage. -/
inductive StorageEffect (node : Node) (input : Input) : Storage → Prop
  | record {s' : Storage} (hs : OnlyRecords node.storage s') : StorageEffect node input s'
  | iWant {sender : PeerId} {rid : ℕ} {i : IWant}
      (hi : input = .network (.exchangeRequest sender rid (.iWant i))) :
      StorageEffect node input (node.storage.addIWant i)
  | add {t : Trade} (ht : Written node input t) :
      StorageEffect node input (node.storage.addActiveTrade t)
  | update {t : Trade} (ht : Written node input t) :
      StorageEffect node input (node.storage.updateActiveTrade t)

variable {env}

namespace Effect

theorem storageEffect (h : Effect env node input node' commands) :
    StorageEffect node input node'.storage := by
  cases h with
  | record hs _ => exact .record hs
  | iWant sender rid i => exact .iWant rfl
  | startCommit sender rid t => exact .add (.startCommit sender rid t)
  | refuse _ _ => exact .record (.refl _)
  | accept _ _ _ => exact .record (.refl _)
  | tick =>
    rw [Node.handleTick_storage]
    exact .record (.refl _)
  | consume _ => exact .record (.refl _)
  | post _ _ _ => exact .record (.refl _)
  | process h => exact .update (.process h)
  | examine _ hs => exact .record hs
  | abandon _ hs _ => exact .record hs
  | finish h => exact .update (.finish h)
  | request _ _ => exact .record (.refl _)
  | expect _ _ => exact .record (.refl _)
  | sent h => exact .update (.sent h)
  | unsent _ => exact .record (.refl _)
  | report _ => exact .record (.refl _)
  | findsIWant _ _ => exact .record (.refl _)
  | wants _ => exact .record (.refl _)
  | opens _ _ => exact .record (.refl _)
  | opened h => exact .add (.opened h)
  | serve _ hs _ _ => exact .record hs

/-- A task was there before or is left by the step. -/
theorem task (h : Effect env node input node' commands) {id : ℕ} {k : Task}
    (hk : node'.tasks id = some k) : node.tasks id = some k ∨ Left env node input id k := by
  have hresume : ∀ {n : Node} {id' : ℕ} {s' : Storage} {next : Option Task},
      (n.resume id' s' next).tasks id = some k → n.tasks id = some k ∨ id = id' ∧ next = some k := by
    intro n id' s' next hk
    rw [Node.resume_tasks] at hk
    split at hk
    · rename_i heq
      exact .inr ⟨heq, hk⟩
    · exact .inl hk
  have hspawn : ∀ {n : Node} {k' : Task}, (n.spawn k').tasks id = some k →
      n.tasks id = some k ∨ id = n.nextTask ∧ k = k' := by
    intro n k' hk
    rw [Node.spawn_tasks] at hk
    split at hk
    · rename_i heq
      exact .inr ⟨heq, (Option.some.inj hk).symm⟩
    · exact .inl hk
  cases h with
  | record _ _ => exact .inl hk
  | iWant sender rid i => exact .inl hk
  | startCommit sender rid t' => exact .inl hk
  | refuse _ _ => exact .inl hk
  | accept hr hf hp =>
    rcases hspawn hk with h | ⟨rfl, rfl⟩
    · exact .inl h
    · exact .inr (.accept hr hf hp)
  | tick =>
    have hrule := Node.handleTick_rule
      (fun n => node.nextTask ≤ n.nextTask ∧ (n.tasks id = some k →
        node.tasks id = some k ∨ Left env node .tick id k)) ⟨le_refl _, fun hk => .inl hk⟩ ?_
    · exact hrule.2 hk
    · intro n t hn _ hf ht _
      refine ⟨Nat.le_succ_of_le hn.1, fun hk => ?_⟩
      rcases hspawn hk with h | ⟨rfl, rfl⟩
      · exact hn.2 h
      · exact .inr (.tick hn.1 hf ht)
  | consume _ => exact .inl hk
  | post hs hi _ =>
    rcases hspawn hk with h | ⟨-, rfl⟩
    · exact .inl h
    · exact .inr (.post hs hi)
  | process h =>
    rcases hresume hk with h' | ⟨rfl, hnext⟩
    · exact .inl h'
    · cases hnext
      exact .inr (.process h)
  | examine h _ h1 h2 h3 h4 _ =>
    rcases hresume hk with h' | ⟨rfl, hnext⟩
    · exact .inl h'
    · cases hnext
      exact .inr (.examine h h1 h2 h3 h4)
  | abandon _ _ _ =>
    rcases hresume hk with h' | ⟨-, hnext⟩
    · exact .inl h'
    · cases hnext
  | finish _ =>
    rcases hresume hk with h' | ⟨-, hnext⟩
    · exact .inl h'
    · cases hnext
  | request h _ =>
    rcases hresume hk with h' | ⟨rfl, hnext⟩
    · exact .inl h'
    · cases hnext
      exact .inr (.request h)
  | expect _ _ =>
    rcases hresume hk with h' | ⟨-, hnext⟩
    · exact .inl h'
    · cases hnext
  | sent h =>
    rcases hresume hk with h' | ⟨rfl, hnext⟩
    · exact .inl h'
    · cases hnext
      exact .inr (.sent h)
  | unsent h =>
    rcases hresume hk with h' | ⟨rfl, hnext⟩
    · exact .inl h'
    · cases hnext
      exact .inr (.unsent h)
  | report _ =>
    rcases hresume hk with h' | ⟨-, hnext⟩
    · exact .inl h'
    · cases hnext
  | findsIWant h hi =>
    rcases hresume hk with h' | ⟨rfl, hnext⟩
    · exact .inl h'
    · cases hnext
      exact .inr (.findsIWant h hi)
  | wants h =>
    rcases hresume hk with h' | ⟨rfl, hnext⟩
    · exact .inl h'
    · cases hnext
      exact .inr (.serve h (by simp) (by simp))
  | opens h ht =>
    rcases hresume hk with h' | ⟨rfl, hnext⟩
    · exact .inl h'
    · cases hnext
      subst ht
      exact .inr (.opens h)
  | opened _ =>
    rcases hresume hk with h' | ⟨-, hnext⟩
    · exact .inl h'
    · cases hnext
  | @serve _ _ stage next _ _ h _ hn _ =>
    rcases hresume hk with h' | ⟨rfl, hnext⟩
    · exact .inl h'
    · obtain ⟨stage', hstage, rfl⟩ := Option.map_eq_some_iff.mp hnext
      rcases hn stage' hstage with rfl | ⟨query, rfl⟩
      · exact .inl h
      · exact .inr (.serve h (by simp) (by simp))

end Effect

theorem step_storageEffect (env : Env Hash) (node : Node) (input : Input) :
    StorageEffect node input (node.step env input).storage :=
  (step_effect node input).storageEffect

namespace StorageEffect

variable {s' : Storage}

/-- Histories only grow. -/
theorem grows (h : StorageEffect node input s') : Grows node.storage s' := by
  cases h with
  | record hs => exact hs.grows
  | iWant _ => exact grows_addIWant _ _
  | add _ => exact grows_addActiveTrade _ _
  | update _ => exact grows_updateActiveTrade _ _

/-- A stored trade was stored before or is written by the step. -/
theorem stored (h : StorageEffect node input s') {iid : U32} {t : Trade}
    (ht : s'.findActiveTrade iid = some t) :
    node.storage.findActiveTrade iid = some t ∨ Written node input t := by
  cases h with
  | record hs => exact .inl ((hs.trade iid).symm.trans ht)
  | iWant _ => exact .inl ht
  | add hw =>
    rw [findActiveTrade_addActiveTrade] at ht
    split at ht
    · exact .inr (Option.some.inj ht ▸ hw)
    · exact .inl ht
  | update hw =>
    rw [findActiveTrade_updateActiveTrade] at ht
    split at ht
    · exact .inr (Option.some.inj ht ▸ hw)
    · exact .inl ht

/-- A stored trade stays, perhaps in another form. -/
theorem stored_ne_none (h : StorageEffect node input s') {iid : U32}
    (ht : node.storage.findActiveTrade iid ≠ none) : s'.findActiveTrade iid ≠ none := by
  cases h with
  | record hs => exact (hs.trade iid).symm ▸ ht
  | iWant _ => exact ht
  | add _ =>
    rw [findActiveTrade_addActiveTrade]
    split
    · simp
    · exact ht
  | update _ =>
    rw [findActiveTrade_updateActiveTrade]
    split
    · simp
    · exact ht

/-- A stored interest was stored before or is the one that a request brings. -/
theorem iWant_stored (h : StorageEffect node input s') {iid : U32} {i : IWant}
    (hi : s'.findIWant iid = some i) : node.storage.findIWant iid = some i ∨
      ∃ sender rid, input = .network (.exchangeRequest sender rid (.iWant i)) := by
  cases h with
  | record hs => exact .inl ((hs.iWant iid).symm.trans hi)
  | iWant hinput =>
    rw [findIWant_addIWant] at hi
    split at hi
    · cases hi
      exact .inr ⟨_, _, hinput⟩
    · exact .inl hi
  | add _ => exact .inl hi
  | update _ => exact .inl ((findIWant_updateActiveTrade _ _ _).symm.trans hi)

end StorageEffect

/-- A stored interest was stored before or is the one that a request brings. -/
theorem step_iWant {iid : U32} {i : IWant}
    (hi : (node.step env input).storage.findIWant iid = some i) :
    node.storage.findIWant iid = some i ∨
      ∃ sender rid, input = .network (.exchangeRequest sender rid (.iWant i)) :=
  (step_storageEffect env node input).iWant_stored hi

/-- A stored trade was stored before or is written by the step. -/
theorem step_stored {iid : U32} {t : Trade}
    (ht : (node.step env input).storage.findActiveTrade iid = some t) :
    node.storage.findActiveTrade iid = some t ∨ Written node input t :=
  (step_storageEffect env node input).stored ht

/-- A stored trade stays, perhaps in another form. -/
theorem step_stored_ne_none {iid : U32} (ht : node.storage.findActiveTrade iid ≠ none) :
    (node.step env input).storage.findActiveTrade iid ≠ none :=
  (step_storageEffect env node input).stored_ne_none ht

/-- A task was there before or is left by the step. -/
theorem step_task {id : ℕ} {k : Task} (hk : (node.step env input).tasks id = some k) :
    node.tasks id = some k ∨ Left env node input id k :=
  (step_effect node input).task hk

/-! ## What single steps leave -/

/-- A commit that is accepted starts a `verify`. -/
theorem step_accept {request : ExchangeRequest} {t : Trade} {commit : Commit} (sender : PeerId)
    (rid : ℕ) (hr : request.awaited = some (t.status, t.id, commit))
    (hf : node.storage.findActiveTrade t.id = some t) (hp : t.counterPartyDetails.1 = sender) :
    node.step env (.network (.exchangeRequest sender rid request)) =
      node.spawn (.verify commit t .processing) := by
  have hcommit : (node.handleCommit t.status sender rid t.id commit).1 =
      node.spawn (.verify commit t .processing) := by
    simp [Node.handleCommit, hf, hp, Option.filter]
  cases request <;> simp only [ExchangeRequest.awaited, Option.some.injEq, Prod.mk.injEq,
    reduceCtorEq] at hr
  all_goals
    obtain ⟨hs, hid, rfl⟩ := hr
    rw [← hs, ← hid] at hcommit
    exact hcommit

/-- A `send` that has asked waits. -/
theorem step_request {id : ℕ} {t : Trade} (h : node.tasks id = some (.send t .starting))
    (ht : t.isSendingStatus = true) :
    (node.step env (.task id .run)).tasks id = some (.send t .requested) := by
  rcases Trade.isSendingStatus_iff.mp ht with hs | hs | hs <;>
    simp [Node.step, Node.act, Node.handleTask, h, sendStep, findCommitment, createSendRequest, hs,
      Node.resume_tasks]

/-- A `send` that has its response reports. -/
theorem step_sent {id : ℕ} {t : Trade} (h : node.tasks id = some (.send t .requested))
    (response : ExchangeResponse) :
    (node.step env (.task id (.exchange (some response)))).tasks id =
      some (.send (t.updateStatus t.status.toWaiting) (.reporting (.sendSuccess t.id))) := by
  simp [Node.step, Node.act, Node.handleTask, h, sendStep, Node.resume_tasks]

/-- A `verify` begins with a processing status. -/
theorem step_process {id : ℕ} {commit : Commit} {t : Trade}
    (h : node.tasks id = some (.verify commit t .processing)) :
    (node.step env (.task id .run)).storage =
      node.storage.updateActiveTrade (t.updateStatus t.status.toProcessing) := by
  simp [Node.step, Node.act, Node.handleTask, h, verifyStep]

/-- A `verify` that has not begun waits to be run. -/
theorem step_verify_waits {id : ℕ} {commit : Commit} {t : Trade} {answer : Answer}
    (h : node.tasks id = some (.verify commit t .processing)) (ha : answer ≠ .run) :
    (node.step env (.task id answer)).tasks id = some (.verify commit t .processing) := by
  cases answer with
  | run => exact absurd rfl ha
  | _ => simp [Node.step, Node.act, Node.handleTask, h, verifyStep, Node.resume_tasks]

end Dse
