import Dse.Node.Proofs.OneSendProofs
import Dse.Node.Proofs.ForwardProofs

/-!
# Crashes

A crash ends all tasks and forgets which sends are open; the node starts again on the database as it
was left. A trade in a waiting status goes on when the other party sends its commit, and one in a
send status with the next tick. Nothing takes a trade out of any other status but the task that a
crash has ended, so a trade that a crash finds in a processing status stays there, whatever happens
and however often the node is started again.
-/

namespace Dse

open Storage

variable {Hash : Type} (env : Env Hash)

/-- The node takes a step, or crashes and is started again. -/
def Node.stepOrCrash (node : Node) : Option Input → Node
  | some input => node.step env input
  | none => .start node.storage

/-- The step does not store the trade anew. -/
def NotReopened (x : U32) (node : Node) (input : Option Input) : Prop :=
  ∀ i ∈ input, node.storesTrade i ≠ some x

instance (x : U32) (node : Node) (input : Option Input) : Decidable (NotReopened x node input) :=
  inferInstanceAs (Decidable (∀ i ∈ input, _))

/-- A node that is started on the storage never touches the trade again, whatever happens and
however often it crashes, unless the trade is opened anew. -/
def Frozen (storage : Storage) (x : U32) (t : Trade) : Prop :=
  ∀ inputs, Run.Always (Node.stepOrCrash env) (NotReopened x) (.start storage) inputs →
    (Run.final (Node.stepOrCrash env) (.start storage) inputs).storage.findActiveTrade x = some t

variable {env} {node : Node} {x : U32} {t : Trade}

/-- The trade is stored, and no task has a copy of it. -/
structure Unattended (x : U32) (t : Trade) (node : Node) : Prop where
  stored : node.storage.findActiveTrade x = some t
  copies : ∀ k task t', ¬ node.Copies x k task t'

theorem unattended_start {storage : Storage} (h : storage.findActiveTrade x = some t) :
    Unattended x t (.start storage) where
  stored := h
  copies k task t' hc := by cases hc.1

/-- A trade is stored anew only by a `StartCommit`. -/
theorem Written.id_ne (h : Unattended x t node) {input : Input} (hno : node.storesTrade input ≠ some x)
    {t' : Trade} (hw : Written node input t') : t'.id ≠ x := by
  intro hid
  cases hw with
  | startCommit sender rid t' => exact hno (congrArg some hid)
  | process hk => exact h.copies _ _ _ ⟨hk, rfl, hid⟩
  | finish hk => exact h.copies _ _ _ ⟨hk, rfl, hid⟩
  | sent hk => exact h.copies _ _ _ ⟨hk, rfl, hid⟩
  | opened hk => exact hno (by simp only [Node.storesTrade, hk, hid])

/-- A task that takes up a trade finds it in a waiting or in a send status. -/
theorem Left.status (h : Unattended x t node) {input : Input} {k : ℕ} {task : Task}
    (hl : Left env node input k task) {t' : Trade} (hc : task.copy? = some t') (hid : t'.id = x) :
    t.status.IsAwaited ∨ t.isSendingStatus = true := by
  have hstored : ∀ {t' : Trade}, t'.id = x → node.storage.findActiveTrade t'.id = some t' →
      t' = t := by
    intro t' hid hf
    rw [hid, h.stored] at hf
    exact (Option.some.inj hf).symm
  cases hl with
  | accept hr hf _ =>
    cases hc
    exact .inl (hstored hid hf ▸ ExchangeRequest.isAwaited hr)
  | tick _ hf ht =>
    cases hc
    exact .inr (hstored hid hf ▸ ht)
  | process hk =>
    cases hc
    exact absurd ⟨hk, rfl, hid⟩ (h.copies _ _ _)
  | examine hk _ _ _ _ =>
    cases hc
    exact absurd ⟨hk, rfl, hid⟩ (h.copies _ _ _)
  | request hk =>
    cases hc
    exact absurd ⟨hk, rfl, hid⟩ (h.copies _ _ _)
  | sent _ => cases hc
  | unsent _ => cases hc
  | post _ _ => cases hc
  | findsIWant _ _ => cases hc
  | opens _ => cases hc
  | serve _ _ _ => cases hc

/-- Nothing happens to an unattended trade in a status that no task takes up. -/
theorem Unattended.step (h : Unattended x t node) (ha : ¬ t.status.IsAwaited)
    (hs : t.isSendingStatus = false) {input : Option Input} (hno : NotReopened x node input) :
    Unattended x t (node.stepOrCrash env input) := by
  cases input with
  | none => exact unattended_start h.stored
  | some input =>
    have hno : node.storesTrade input ≠ some x := hno input rfl
    constructor
    · show (node.step env input).storage.findActiveTrade x = some t
      have hsome : (node.step env input).storage.findActiveTrade x ≠ none :=
        step_stored_ne_none (by rw [h.stored]; exact Option.some_ne_none t)
      obtain ⟨t', ht'⟩ := Option.ne_none_iff_exists'.mp hsome
      rcases step_stored ht' with hold | hw
      · rw [ht', ← hold, h.stored]
      · exact absurd (findActiveTrade_id ht') (hw.id_ne h hno)
    · rintro k task t' ⟨hk, hc, hid⟩
      rcases step_task hk with hold | hleft
      · exact h.copies k task t' ⟨hold, hc, hid⟩
      · rcases hleft.status h hc hid with hawaited | hsending
        · exact ha hawaited
        · rw [hs] at hsending
          cases hsending

/-! ## Statuses that go on -/

theorem step_request_storage {k : ℕ} (hk : node.tasks k = some (.send t .starting))
    (ht : t.isSendingStatus = true) : (node.step env (.task k .run)).storage = node.storage := by
  rcases Trade.isSendingStatus_iff.mp ht with hs | hs | hs <;>
    simp [Node.step, Node.act, Node.handleTask, hk, sendStep, findCommitment, createSendRequest, hs]

theorem step_sent_storage {k : ℕ} (hk : node.tasks k = some (.send t .requested))
    (response : ExchangeResponse) :
    (node.step env (.task k (.exchange (some response)))).storage =
      node.storage.updateActiveTrade (t.updateStatus t.status.toWaiting) := by
  simp [Node.step, Node.act, Node.handleTask, hk, sendStep]

/-- What an update of a stored trade leaves. -/
theorem findActiveTrade_update_stored {s : Storage} (h : s.findActiveTrade x = some t)
    (status : TradeStatus) : (s.updateActiveTrade (t.updateStatus status)).findActiveTrade x =
      some (t.updateStatus status) := by
  have hid : t.id = x := findActiveTrade_id h
  rw [findActiveTrade_updateActiveTrade, Trade.updateStatus_id, hid,
    if_pos ⟨rfl, by rw [h]; rfl⟩]

/-- The request that a waiting status waits for. -/
theorem exists_awaited (h : t.status.IsAwaited) (commit : Commit) :
    ∃ request : ExchangeRequest, request.awaited = some (t.status, t.id, commit) := by
  rcases h with h | h | h
  · exact ⟨.t1RequesterCommit t.id commit, by rw [h]; rfl⟩
  · exact ⟨.t1ProviderCommit t.id commit, by rw [h]; rfl⟩
  · exact ⟨.t2RequesterCommit t.id commit, by rw [h]; rfl⟩

/-- The other party's commit takes a waiting trade on. -/
theorem awaited_moves (env : Env Hash) {storage : Storage}
    (ht : storage.findActiveTrade x = some t) (h : t.status.IsAwaited) :
    ∃ inputs, Run.Always (Node.stepOrCrash env) (NotReopened x) (.start storage) inputs ∧
      (Run.final (Node.stepOrCrash env) (.start storage) inputs).storage.findActiveTrade x =
        some (t.updateStatus t.status.toProcessing) := by
  have hid : t.id = x := findActiveTrade_id ht
  obtain ⟨request, hrequest⟩ := exists_awaited h default
  have hnode : (Node.start storage).step env
      (.network (.exchangeRequest t.counterPartyDetails.1 0 request)) =
      Node.spawn (.start storage) (.verify default t .processing) :=
    step_accept _ 0 hrequest (by rw [hid]; exact ht) rfl
  have htask : (Node.spawn (.start storage) (.verify default t .processing)).tasks 0 =
      some (.verify default t .processing) := Node.spawn_tasks _ _ _
  refine ⟨[some (.network (.exchangeRequest t.counterPartyDetails.1 0 request)),
    some (.task 0 .run)], ⟨?_, ?_, trivial⟩, ?_⟩
  · rintro i ⟨⟩
    cases request with
    | startCommit t' => cases hrequest
    | _ => rintro ⟨⟩
  · rintro i ⟨⟩ hstores
    cases hstores
  · show ((Node.step env _ _).step env (.task 0 .run)).storage.findActiveTrade x = _
    rw [hnode, step_process htask]
    exact findActiveTrade_update_stored ht _

/-- A tick starts the `send` of a trade that is due, and any response takes it on. -/
theorem sending_moves (env : Env Hash) {storage : Storage}
    (ht : storage.findActiveTrade x = some t) (h : t.isSendingStatus = true) :
    ∃ inputs, Run.Always (Node.stepOrCrash env) (NotReopened x) (.start storage) inputs ∧
      (Run.final (Node.stepOrCrash env) (.start storage) inputs).storage.findActiveTrade x =
        some (t.updateStatus t.status.toWaiting) := by
  have hid : t.id = x := findActiveTrade_id ht
  obtain ⟨k, hk⟩ : ∃ k, ((Node.start storage).step env .tick).tasks k =
      some (.send t .starting) :=
    (openSlots_start storage).tick_starts (by rw [hid]; exact ht) h (Finset.notMem_empty _)
  have hrequested : (((Node.start storage).step env .tick).step env (.task k .run)).tasks k =
      some (.send t .requested) := step_request hk h
  have hstored : (((Node.start storage).step env .tick).step env
      (.task k .run)).storage.findActiveTrade x = some t := by
    rw [step_request_storage hk h]
    show (Node.handleTick _).storage.findActiveTrade x = some t
    rw [Node.handleTick_storage]
    exact ht
  refine ⟨[some .tick, some (.task k .run), some (.task k (.exchange (some .ack)))],
    ⟨?_, ?_, ?_, trivial⟩, ?_⟩
  · rintro i ⟨⟩ ⟨⟩
  · rintro i ⟨⟩ ⟨⟩
  · rintro i ⟨⟩ hstores
    have htask : ((Node.start storage).step env .tick).step env (.task k .run) =
        ((Node.start storage).stepOrCrash env (some .tick)).stepOrCrash env
          (some (.task k .run)) := rfl
    rw [htask] at hrequested
    simp [Node.storesTrade, hrequested] at hstores
  · show ((((Node.start storage).step env .tick).step env (.task k .run)).step env
      (.task k (.exchange (some .ack)))).storage.findActiveTrade x = _
    rw [step_sent_storage hrequested]
    exact findActiveTrade_update_stored hstored _

/-- A crash freezes a trade exactly in the statuses that are neither waiting nor send statuses. -/
theorem restart_frozen_iff (env : Env Hash) (storage : Storage) (x : U32) (t : Trade)
    (ht : storage.findActiveTrade x = some t) :
    Frozen env storage x t ↔ ¬ t.status.IsAwaited ∧ t.isSendingStatus = false := by
  constructor
  · intro hfrozen
    constructor
    · intro h
      obtain ⟨inputs, hok, hmoved⟩ := awaited_moves env ht h
      rw [hfrozen inputs hok] at hmoved
      have hstatus := congrArg Trade.status (Option.some.inj hmoved)
      rw [Trade.updateStatus_status] at hstatus
      exact h.later.2 hstatus
    · by_contra h
      obtain ⟨inputs, hok, hmoved⟩ := sending_moves env ht (by simpa using h)
      rw [hfrozen inputs hok] at hmoved
      have hstatus := congrArg Trade.status (Option.some.inj hmoved)
      rw [Trade.updateStatus_status] at hstatus
      exact (Trade.later_of_isSendingStatus (by simpa using h)).2 hstatus
  · rintro ⟨ha, hs⟩ inputs hok
    exact (Run.final_inv (fun n i h hno => h.step ha hs hno) (unattended_start ht) hok).stored

/-- A provider's database after a crash in the middle of a `verify`. -/
def crashedStorage : Storage := Storage.new.addActiveTrade (plainTrade .processingRT1Commit false)

theorem restart_frozen_iff_crashedStorage :
    Frozen plainEnv crashedStorage 6 (plainTrade .processingRT1Commit false) :=
  (restart_frozen_iff plainEnv crashedStorage 6 (plainTrade .processingRT1Commit false)
    (by decide)).mpr ⟨(by rintro (h | h | h) <;> cases h), rfl⟩

end Dse
