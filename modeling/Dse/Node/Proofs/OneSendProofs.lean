import Dse.Node.Proofs.SendProofs
import Mathlib.Data.Finset.Card
import Mathlib.Data.List.Count

/-!
# A trade is active as long as its send

The ids in `active_send_commit_proc` are those of the `send`s that were spawned and whose report the
indexer has not received: each id has one, a task or a report on its way. A `send` starts with the
trade that the indexer found in a send status, so none of its `expect`s fails, and one that fails
leaves the trade as it was stored.
-/

namespace Dse

open Storage

variable {Hash : Type} {env : Env Hash} {node : Node} {input : Input}

/-! ## Open sends -/

namespace Node

/-- The trade that the task `k` sends for. -/
def sendOf? (node : Node) (k : ℕ) : Option U32 :=
  match node.tasks k with
  | some (.send trade _) => some trade.id
  | _ => none

/-- The tasks that send for a trade. -/
def sendTasks (node : Node) (x : U32) : Finset ℕ :=
  (Finset.range node.nextTask).filter fun k => node.sendOf? k = some x

/-- How many `send`s for the trade are open: tasks, and reports that the indexer has not received. -/
def openSends (node : Node) (x : U32) : ℕ :=
  (node.sendTasks x).card + (node.commitProcEvents.map CommitProcedureEvent.tradeId).count x

theorem sendOf?_eq_some_iff {k : ℕ} {x : U32} : node.sendOf? k = some x ↔ node.Sends k x := by
  unfold sendOf? Sends
  split
  · rename_i trade stage hk
    constructor
    · intro h
      exact ⟨trade, stage, hk, Option.some.inj h⟩
    · rintro ⟨t, stage', ht, rfl⟩
      rw [hk] at ht
      cases ht
      rfl
  · rename_i hno
    refine iff_of_false nofun ?_
    rintro ⟨t, stage, ht, -⟩
    exact hno t stage ht

end Node

/-- A trade in a send status has a request to send. -/
theorem createSendRequest_of_due {t : Trade} (h : t.isSendingStatus = true) (commit : Commit) :
    ∃ request, createSendRequest t commit = some request := by
  unfold createSendRequest
  rcases Trade.isSendingStatus_iff.mp h with hs | hs | hs
  · rw [hs]
    exact ⟨_, rfl⟩
  · rw [hs]
    exact ⟨_, rfl⟩
  · rw [hs]
    exact ⟨_, rfl⟩

/-- Every active id has an open `send`, which began in a send status. -/
structure OpenSlots (node : Node) : Prop extends SendSlots node where
  due : ∀ k t, node.tasks k = some (.send t .starting) → t.isSendingStatus = true
  covered : ∀ x ∈ node.activeSendCommitProc,
    (∃ k, node.Sends k x) ∨ ∃ event ∈ node.commitProcEvents, event.tradeId = x

theorem openSlots_start (s : Storage) : OpenSlots (.start s) where
  toSendSlots := sendSlots_start s
  due _ _ h := nomatch h
  covered x hx := absurd hx (Finset.notMem_empty x)

theorem SendSlots.mem_sendTasks (h : SendSlots node) {k : ℕ} {x : U32} :
    k ∈ node.sendTasks x ↔ node.Sends k x := by
  unfold Node.sendTasks
  rw [Finset.mem_filter, Finset.mem_range, Node.sendOf?_eq_some_iff]
  refine and_iff_right_of_imp ?_
  rintro ⟨t, stage, hk, -⟩
  exact h.fresh.lt_nextTask hk

theorem SendSlots.card_sendTasks_eq_zero (h : SendSlots node) {x : U32}
    (hno : ∀ k, ¬ node.Sends k x) : (node.sendTasks x).card = 0 := by
  rw [Finset.card_eq_zero]
  exact Finset.eq_empty_of_forall_notMem fun k hk => hno k (h.mem_sendTasks.mp hk)

theorem SendSlots.card_sendTasks_eq_one (h : SendSlots node) {k : ℕ} {x : U32}
    (hk : node.Sends k x) : (node.sendTasks x).card = 1 := by
  rw [Finset.card_eq_one]
  refine ⟨k, Finset.eq_singleton_iff_unique_mem.mpr ⟨h.mem_sendTasks.mpr hk, ?_⟩⟩
  exact fun k' hk' => h.task_unique k' k x (h.mem_sendTasks.mp hk') hk

/-- An active id has one open `send`, any other id none. -/
theorem OpenSlots.openSends_eq (h : OpenSlots node) (x : U32) :
    node.openSends x = if x ∈ node.activeSendCommitProc then 1 else 0 := by
  unfold Node.openSends
  by_cases hx : x ∈ node.activeSendCommitProc
  · rw [if_pos hx]
    rcases h.covered x hx with ⟨k, hk⟩ | ⟨event, he, rfl⟩
    · have hevents : x ∉ node.commitProcEvents.map CommitProcedureEvent.tradeId := by
        rintro hmem
        obtain ⟨event, he, hid⟩ := List.mem_map.mp hmem
        exact h.task_event k x hk event he hid
      rw [h.card_sendTasks_eq_one hk, List.count_eq_zero_of_not_mem hevents]
    · have hmem : event.tradeId ∈ node.commitProcEvents.map CommitProcedureEvent.tradeId :=
        List.mem_map_of_mem he
      have hone := List.count_eq_one_of_mem h.events_nodup hmem
      rw [hone, h.card_sendTasks_eq_zero fun k hk => h.task_event k _ hk event he rfl]
  · rw [if_neg hx]
    have hevents : x ∉ node.commitProcEvents.map CommitProcedureEvent.tradeId := by
      rintro hmem
      obtain ⟨event, he, rfl⟩ := List.mem_map.mp hmem
      exact hx (h.event_active event he)
    rw [h.card_sendTasks_eq_zero fun k hk => hx (h.task_active k x hk),
      List.count_eq_zero_of_not_mem hevents]

/-! ## A step -/

/-- Only ticks and receives change which ids are active, and reports wait until a receive. -/
theorem step_active (ht : input ≠ .tick) (hc : input ≠ .commitProcEvent) :
    (node.step env input).activeSendCommitProc = node.activeSendCommitProc ∧
      ∀ event ∈ node.commitProcEvents, event ∈ (node.step env input).commitProcEvents := by
  obtain ⟨commands, he⟩ : ∃ commands, Effect env node input (node.step env input) commands :=
    ⟨_, step_effect node input⟩
  generalize node.step env input = node' at he
  cases he with
  | tick => exact absurd rfl ht
  | consume _ => exact absurd rfl hc
  | report _ => exact ⟨rfl, fun event he => List.mem_append_left _ he⟩
  | _ => exact ⟨rfl, fun event he => he⟩

/-- A `send` that is not reporting goes on, for the same trade. -/
theorem sendStep_next {t : Trade} {stage : SendStage}
    (hdue : stage = .starting → t.isSendingStatus = true) (s : Storage) (answer : Answer) :
    ∃ t' stage', (sendStep t s stage answer).next = some (t', stage') ∧ t'.id = t.id := by
  unfold sendStep
  split
  · obtain ⟨commit, hcommit⟩ : ∃ commit, findCommitment t = some commit := ⟨_, rfl⟩
    obtain ⟨request, hrequest⟩ := createSendRequest_of_due (hdue rfl) commit
    rw [hcommit, Option.bind_some, hrequest]
    exact ⟨t, .requested, rfl, rfl⟩
  · exact ⟨_, _, rfl, rfl⟩
  · exact ⟨_, _, rfl, rfl⟩
  · exact ⟨_, _, rfl, rfl⟩

/-- The task of a `send` is what `sendStep` leaves of it. -/
theorem handleTask_send {k : ℕ} {t t' : Trade} {stage stage' : SendStage} {answer : Answer}
    (hk : node.tasks k = some (.send t stage)) (hno : ∀ event, stage ≠ .reporting event)
    (hnext : (sendStep t node.storage stage answer).next = some (t', stage')) :
    (node.handleTask env k answer).1.tasks k = some (.send t' stage') := by
  unfold Node.handleTask
  rw [hk]
  cases stage with
  | starting =>
    dsimp only
    rw [hnext, Node.resume_tasks, if_pos rfl]
    rfl
  | requested =>
    dsimp only
    rw [hnext, Node.resume_tasks, if_pos rfl]
    rfl
  | reporting event => exact absurd rfl (hno event)

/-- The task `k` goes on as a `send`, or has reported. -/
theorem OpenSlots.step_self (h : OpenSlots node) {k : ℕ} {t : Trade} {stage : SendStage}
    (hk : node.tasks k = some (.send t stage)) (answer : Answer) :
    (node.step env (.task k answer)).Sends k t.id ∨
      ∃ event ∈ (node.step env (.task k answer)).commitProcEvents, event.tradeId = t.id := by
  by_cases hreport : ∃ event, stage = .reporting event
  · obtain ⟨event, rfl⟩ := hreport
    have hid : event.tradeId = t.id := h.reports k t event hk
    unfold Node.step Node.act Node.handleTask
    dsimp only
    rw [hk]
    dsimp only
    by_cases hroom : answer = .run ∧ node.commitProcEvents.length < commitProcChannelCapacity
    · rw [if_pos hroom]
      exact Or.inr ⟨event, List.mem_concat_self, hid⟩
    · rw [if_neg hroom]
      exact Or.inl ⟨t, _, hk, rfl⟩
  · have hno : ∀ event, stage ≠ .reporting event := fun event heq => hreport ⟨event, heq⟩
    obtain ⟨t', stage', hnext, hid⟩ :=
      sendStep_next (fun hs => h.due k t (hs ▸ hk)) node.storage answer
    exact Or.inl ⟨t', stage', handleTask_send hk hno hnext, hid⟩

/-- Any step leaves an open `send` open, but for the receive of its report. -/
theorem OpenSlots.step_sends (h : OpenSlots node) (hc : input ≠ .commitProcEvent) {k : ℕ} {x : U32}
    (hk : node.Sends k x) : (node.step env input).Sends k x ∨
      ∃ event ∈ (node.step env input).commitProcEvents, event.tradeId = x := by
  obtain ⟨t, stage, hk, rfl⟩ := hk
  by_cases hself : ∃ answer, input = .task k answer
  · obtain ⟨answer, rfl⟩ := hself
    exact h.step_self hk answer
  · exact Or.inl ⟨t, stage, step_tasks_of_ne h.fresh hk fun answer heq => hself ⟨answer, heq⟩, rfl⟩

theorem OpenSlots.covered_tick (h : OpenSlots node) :
    ∀ x ∈ node.handleTick.activeSendCommitProc, (∃ k, node.handleTick.Sends k x) ∨
      ∃ event ∈ node.handleTick.commitProcEvents, event.tradeId = x := by
  let P : Node → Prop := fun n => n.Fresh ∧ ∀ x ∈ n.activeSendCommitProc,
    (∃ k, n.Sends k x) ∨ ∃ event ∈ n.commitProcEvents, event.tradeId = x
  have hnode : P node := ⟨h.fresh, h.covered⟩
  refine (Node.handleTick_rule P hnode ?_).2
  rintro n t ⟨hfresh, hcovered⟩ - - - -
  refine ⟨Node.Fresh.spawn hfresh _, fun x hx => ?_⟩
  rcases Finset.mem_insert.mp hx with rfl | hx
  · refine Or.inl ⟨n.nextTask, t, .starting, ?_, rfl⟩
    exact (Node.spawn_tasks _ _ _).trans (if_pos rfl)
  · refine (hcovered x hx).imp_left ?_
    rintro ⟨k, t', stage, hk, hid⟩
    have hlt := hfresh.lt_nextTask hk
    refine ⟨k, t', stage, ?_, hid⟩
    exact (Node.spawn_tasks _ _ _).trans ((if_neg (Nat.ne_of_lt hlt)).trans hk)

/-- The indexer takes the id of a report it receives out of the active ones. -/
theorem step_receive {event : CommitProcedureEvent} {events : List CommitProcedureEvent}
    (he : node.commitProcEvents = event :: events) : node.step env .commitProcEvent =
      { node with
        commitProcEvents := events
        activeSendCommitProc := node.activeSendCommitProc.erase event.tradeId } := by
  show node.handleCommitProcEvent = _
  unfold Node.handleCommitProcEvent
  rw [he]
  cases event <;> rfl

theorem OpenSlots.covered_receive (h : OpenSlots node) :
    ∀ x ∈ (node.step env .commitProcEvent).activeSendCommitProc,
      (∃ k, (node.step env .commitProcEvent).Sends k x) ∨
        ∃ event ∈ (node.step env .commitProcEvent).commitProcEvents, event.tradeId = x := by
  cases hevents : node.commitProcEvents with
  | nil =>
    have hsame : node.step env .commitProcEvent = node := by
      show node.handleCommitProcEvent = node
      unfold Node.handleCommitProcEvent
      rw [hevents]
    rw [hsame]
    exact h.covered
  | cons event events =>
    rw [step_receive hevents]
    intro x hx
    obtain ⟨hne, hx⟩ := Finset.mem_erase.mp hx
    refine (h.covered x hx).imp_right ?_
    rintro ⟨event', he, rfl⟩
    rw [hevents] at he
    rcases List.mem_cons.mp he with rfl | he
    · exact absurd rfl hne
    · exact ⟨event', he, rfl⟩

/-- Every step keeps the slots, with an open `send` for each active id. -/
theorem OpenSlots.step (h : OpenSlots node) : OpenSlots (node.step env input) where
  toSendSlots := h.toSendSlots.step
  due k t hk := by
    rcases step_task hk with hk | hk
    · exact h.due k t hk
    · cases hk with
      | tick _ _ ht => exact ht
  covered := by
    by_cases ht : input = .tick
    · rw [ht]
      exact h.covered_tick
    · by_cases hc : input = .commitProcEvent
      · rw [hc]
        exact h.covered_receive
      · obtain ⟨hactive, hevents⟩ : (node.step env input).activeSendCommitProc = _ ∧ _ :=
          step_active ht hc
        rw [hactive]
        intro x hx
        rcases h.covered x hx with ⟨k, hk⟩ | ⟨event, he, hid⟩
        · exact (h.step_sends hc hk).imp_left fun hk => ⟨k, hk⟩
        · exact Or.inr ⟨event, hevents event he, hid⟩

theorem openSlots_run (storage : Storage) (inputs : List Input) :
    OpenSlots ((Node.start storage).run env inputs) := by
  have hstep : ∀ n i, OpenSlots n → True → OpenSlots (n.step env i) := fun n i h _ => h.step
  exact Run.final_inv hstep (openSlots_start storage) (Run.always_trivial _ inputs)

/-! ## Failed sends -/

theorem mem_active_startSend {n : Node} {x : U32} (h : x ∈ n.activeSendCommitProc) (t : Trade) :
    x ∈ (n.startSend t).activeSendCommitProc := by
  rw [Node.startSend_eq]
  split
  · exact Finset.mem_insert_of_mem h
  · exact h

theorem mem_active_startSend_self (n : Node) {t : Trade} (ht : t.isSendingStatus = true) :
    t.id ∈ (n.startSend t).activeSendCommitProc := by
  rw [Node.startSend_eq]
  by_cases hx : t.id ∈ n.activeSendCommitProc
  · rw [if_neg fun hdue => hdue.2 hx]
    exact hx
  · rw [if_pos ⟨ht, hx⟩]
    exact Finset.mem_insert_self _ _

/-- After a tick every stored trade in a send status is active. -/
theorem mem_active_handleTick {t : Trade} (hf : node.storage.findActiveTrade t.id = some t)
    (ht : t.isSendingStatus = true) : t.id ∈ node.handleTick.activeSendCommitProc := by
  have hkeep : ∀ (ts : List Trade) (n : Node), t.id ∈ n.activeSendCommitProc →
      t.id ∈ (ts.foldl Node.startSend n).activeSendCommitProc := by
    intro ts
    induction ts with
    | nil => exact fun n hn => hn
    | cons t' ts ih => exact fun n hn => ih _ (mem_active_startSend hn t')
  have hall : ∀ (ts : List Trade) (n : Node), t ∈ ts →
      t.id ∈ (ts.foldl Node.startSend n).activeSendCommitProc := by
    intro ts
    induction ts with
    | nil => exact fun n hmem => absurd hmem List.not_mem_nil
    | cons t' ts ih =>
      intro n hmem
      rcases List.mem_cons.mp hmem with rfl | hmem
      · exact hkeep ts _ (mem_active_startSend_self n ht)
      · exact ih _ hmem
  exact hall _ node (mem_getActiveTrades.mpr hf)

/-- The next tick starts a `send` for a stored trade in a send status that has none open. -/
theorem OpenSlots.tick_starts (h : OpenSlots node) {t : Trade}
    (hf : node.storage.findActiveTrade t.id = some t) (ht : t.isSendingStatus = true)
    (hidle : t.id ∉ node.activeSendCommitProc) :
    ∃ k, (node.step env .tick).tasks k = some (.send t .starting) := by
  have hactive : t.id ∈ (node.step env .tick).activeSendCommitProc := mem_active_handleTick hf ht
  have hevents : (node.step env .tick).commitProcEvents = node.commitProcEvents :=
    Node.handleTick_rule (fun n => n.commitProcEvents = node.commitProcEvents) rfl
      fun _ _ hn _ _ _ _ => hn
  have hstep : OpenSlots (node.step env .tick) := h.step
  rcases hstep.covered _ hactive with ⟨k, hk⟩ | ⟨event, he, hid⟩
  · obtain ⟨t', stage, htask, hid⟩ := hk
    rcases step_task htask with hold | hleft
    · exact absurd (hid ▸ h.task_active k t'.id ⟨t', stage, hold, rfl⟩) hidle
    · cases hleft with
      | tick _ hf' _ =>
        rw [hid, hf] at hf'
        cases hf'
        exact ⟨k, htask⟩
  · rw [hevents] at he
    exact absurd (hid ▸ h.event_active event he) hidle

/-- Reporting writes nothing. -/
theorem step_storage_of_reporting {k : ℕ} {t : Trade} {event : CommitProcedureEvent}
    (hk : node.tasks k = some (.send t (.reporting event))) (answer : Answer) :
    (node.step env (.task k answer)).storage = node.storage := by
  unfold Node.step Node.act Node.handleTask
  dsimp only
  rw [hk]
  dsimp only
  split <;> rfl

/-- A `send` without a response reports its failure, and writes nothing. -/
theorem step_unsent {k : ℕ} {t : Trade} (hk : node.tasks k = some (.send t .requested)) :
    node.step env (.task k (.exchange none)) =
      node.resume k node.storage (some (.send t (.reporting (.sendFailed t.id)))) := by
  unfold Node.step Node.act Node.handleTask
  dsimp only
  rw [hk]
  rfl

/-! ## One send for each trade -/

/-- What holds of the sends of a node. -/
structure OneSend (env : Env Hash) (node : Node) : Prop where
  /-- An active id has exactly one open `send`, any other id none. -/
  open_eq : ∀ x, node.openSends x = if x ∈ node.activeSendCommitProc then 1 else 0
  /-- The `expect`s of `send` have what they expect. -/
  expects : ∀ k t, node.tasks k = some (.send t .starting) →
    ∃ commit request, findCommitment t = some commit ∧ createSendRequest t commit = some request
  /-- Two commits of one trade are not in flight at once. -/
  in_flight : ∀ k k' t t', node.tasks k = some (.send t .requested) →
    node.tasks k' = some (.send t' .requested) → t.id = t'.id → k = k'
  /-- A `send` that fails goes on to report it, and writes nothing. -/
  failed : ∀ k t, node.tasks k = some (.send t .requested) →
    (node.step env (.task k (.exchange none))).tasks k =
        some (.send t (.reporting (.sendFailed t.id))) ∧
      (node.step env (.task k (.exchange none))).storage = node.storage
  reported : ∀ k t event answer, node.tasks k = some (.send t (.reporting event)) →
    (node.step env (.task k answer)).storage = node.storage
  /-- When the report is received, nothing is written and the trade has no open `send`. -/
  received : ∀ event events, node.commitProcEvents = event :: events →
    (node.step env .commitProcEvent).storage = node.storage ∧
      event.tradeId ∉ (node.step env .commitProcEvent).activeSendCommitProc
  /-- A tick starts a `send` for every stored trade in a send status without one. -/
  eligible : ∀ t, node.storage.findActiveTrade t.id = some t → t.isSendingStatus = true →
    t.id ∉ node.activeSendCommitProc →
      ∃ k, (node.step env .tick).tasks k = some (.send t .starting)
  /-- So a trade whose `send` has failed is sent again by the tick after its report. -/
  retried : ∀ t events, node.commitProcEvents = .sendFailed t.id :: events →
    node.storage.findActiveTrade t.id = some t → t.isSendingStatus = true →
      ∃ k, ((node.step env .commitProcEvent).step env .tick).tasks k = some (.send t .starting)

/-- In every reachable state a trade has at most one `send`, exactly if it is active. -/
theorem one_send_per_trade (storage : Storage) (inputs : List Input) :
    OneSend env ((Node.start storage).run env inputs) := by
  have h : OpenSlots ((Node.start storage).run env inputs) := openSlots_run storage inputs
  generalize (Node.start storage).run env inputs = node at h
  refine ⟨h.openSends_eq, ?_, ?_, ?_, ?_, ?_, ?_, ?_⟩
  · intro k t hk
    obtain ⟨commit, hcommit⟩ : ∃ commit, findCommitment t = some commit := ⟨_, rfl⟩
    obtain ⟨request, hrequest⟩ := createSendRequest_of_due (h.due k t hk) commit
    exact ⟨commit, request, hcommit, hrequest⟩
  · intro k k' t t' hk hk' hid
    exact h.task_unique k k' t.id ⟨t, _, hk, rfl⟩ ⟨t', _, hk', hid.symm⟩
  · intro k t hk
    rw [step_unsent hk]
    exact ⟨by rw [Node.resume_tasks, if_pos rfl], rfl⟩
  · exact fun k t event answer hk => step_storage_of_reporting hk answer
  · intro event events he
    rw [step_receive he]
    exact ⟨rfl, Finset.notMem_erase _ _⟩
  · exact fun t hf ht hidle => h.tick_starts hf ht hidle
  · intro t events he hf ht
    have hnext : OpenSlots (node.step env .commitProcEvent) := h.step
    refine hnext.tick_starts ?_ ht ?_
    · rw [step_receive he]
      exact hf
    · rw [step_receive he]
      exact Finset.notMem_erase _ _

end Dse
