import Dse.Lib.Run
import Dse.Node.Proofs.SendProofs

/-!
# How the status of a trade moves

A task has its own copy of the trade and writes it back. As long as the copy of every running task
is the stored trade itself, each write takes the status one place on in the order of its side, and a
status is left before the same commit can be accepted again. That breaks exactly when a commit
request is accepted while an accepted one of the same trade waits for its `verify` to begin: the
status only changes in the `verify`, not in the handler that starts it.
-/

namespace Dse

open Storage

variable {Hash : Type} {env : Env Hash} {node node' : Node} {input : Input}

/-! ## The order of the statuses -/

/-- The two sides of a trade. -/
inductive Side
  | provider
  | requester
deriving DecidableEq, Repr

namespace TradeStatus

/-- The side in whose order the status stands. -/
def side : TradeStatus → Option Side
  | .waitingRT1Commit | .processingRT1Commit | .pSendT1Commit => some .provider
  | .waitingRT2Commit | .processingRT2Commit | .pFulfillService => some .provider
  | .rSendT1Commit | .waitingPT1Commit | .processingPT1Commit => some .requester
  | .rSendT2Commit | .waitingForService => some .requester
  | .waitingInvalidatingSignatures => none

/-- Its position there. -/
def position : TradeStatus → ℕ
  | .waitingRT1Commit => 0
  | .processingRT1Commit => 1
  | .pSendT1Commit => 2
  | .waitingRT2Commit => 3
  | .processingRT2Commit => 4
  | .pFulfillService => 5
  | .rSendT1Commit => 0
  | .waitingPT1Commit => 1
  | .processingPT1Commit => 2
  | .rSendT2Commit => 3
  | .waitingForService => 4
  | .waitingInvalidatingSignatures => 0

/-- The same status or a later one of the same side. -/
structure Forward (s s' : TradeStatus) : Prop where
  side : s'.side = s.side
  position : s.position ≤ s'.position

instance (s s' : TradeStatus) : Decidable (s.Forward s') :=
  decidable_of_iff (s'.side = s.side ∧ s.position ≤ s'.position)
    ⟨fun h => ⟨h.1, h.2⟩, fun h => ⟨h.side, h.position⟩⟩

/-- A `verify` that has begun has its trade in this status. -/
def IsProcessing (s : TradeStatus) : Prop :=
  s = .processingRT1Commit ∨ s = .processingPT1Commit ∨ s = .processingRT2Commit

variable {s s' s'' : TradeStatus}

theorem Forward.refl (s : TradeStatus) : s.Forward s := ⟨rfl, le_refl _⟩

theorem Forward.trans (h : s.Forward s') (h' : s'.Forward s'') : s.Forward s'' :=
  ⟨h'.side.trans h.side, h.position.trans h'.position⟩

theorem eq_of_place (h : s.side = s'.side) (hp : s.position = s'.position) : s = s' := by
  revert h hp
  cases s <;> cases s' <;> decide

theorem Forward.antisymm (h : s.Forward s') (h' : s'.Forward s) : s = s' :=
  eq_of_place h'.side (Nat.le_antisymm h.position h'.position)

/-- The status comes later. -/
def Later (s s' : TradeStatus) : Prop := s.Forward s' ∧ s ≠ s'

theorem IsAwaited.later (h : s.IsAwaited) : s.Later s.toProcessing := by
  rcases h with rfl | rfl | rfl <;> exact ⟨⟨rfl, by decide⟩, by decide⟩

theorem IsAwaited.toProcessing (h : s.IsAwaited) : s.toProcessing.IsProcessing := by
  rcases h with rfl | rfl | rfl
  · exact .inl rfl
  · exact .inr (.inl rfl)
  · exact .inr (.inr rfl)

theorem IsProcessing.later (h : s.IsProcessing) : s.Later s.toSend := by
  rcases h with rfl | rfl | rfl <;> exact ⟨⟨rfl, by decide⟩, by decide⟩

theorem IsAwaited.not_isProcessing (h : s.IsAwaited) : ¬ s.IsProcessing := by
  rcases h with rfl | rfl | rfl <;> rintro (h | h | h) <;> cases h

end TradeStatus

theorem Trade.later_of_isSendingStatus {t : Trade} (h : t.isSendingStatus = true) :
    t.status.Later t.status.toWaiting := by
  rcases Trade.isSendingStatus_iff.mp h with h | h | h <;> rw [h] <;>
    exact ⟨⟨rfl, by decide⟩, by decide⟩

theorem Trade.not_isAwaited_of_isSendingStatus {t : Trade} (h : t.isSendingStatus = true) :
    ¬ t.status.IsAwaited := by
  rcases Trade.isSendingStatus_iff.mp h with h | h | h <;> rw [h] <;>
    rintro (h | h | h) <;> cases h

theorem Trade.not_isProcessing_of_isSendingStatus {t : Trade} (h : t.isSendingStatus = true) :
    ¬ t.status.IsProcessing := by
  rcases Trade.isSendingStatus_iff.mp h with h | h | h <;> rw [h] <;>
    rintro (h | h | h) <;> cases h

/-! ## What a step starts -/

/-- The trade that a step stores anew: with a `StartCommit` from a provider, or at the end of a post
of `StartCommit`. -/
def Node.storesTrade (node : Node) : Input → Option U32
  | .network (.exchangeRequest _ _ (.startCommit t)) => some t.id
  | .task id (.exchange (some .ack)) =>
    match node.tasks id with
    | some (.post (.startCommitRequested t)) => some t.id
    | _ => none
  | _ => none

/-- No further `StartCommit` for the trade: the step does not store it anew. -/
def NotRestarted (x : U32) (node : Node) (input : Input) : Prop :=
  node.storesTrade input = some x → node.storage.findActiveTrade x = none

instance (x : U32) (node : Node) (input : Input) : Decidable (NotRestarted x node input) :=
  inferInstanceAs (Decidable (_ → _))

/-- The `verify` that a step starts: its trade, and the waiting status. -/
def Node.startsVerify (node : Node) : Input → Option (U32 × TradeStatus)
  | .network (.exchangeRequest sender _ request) =>
    match request.awaited with
    | some (status, tradeId, _) =>
      ((node.storage.findActiveTrade tradeId).filter fun trade =>
        decide (trade.status = status) && decide (trade.counterPartyDetails.1 = sender)).map
          fun trade => (trade.id, trade.status)
    | none => none
  | _ => none

/-- The observer: the `verify` tasks that were started, by trade and waiting status. -/
def Started.note (started : List (U32 × TradeStatus)) (node : Node) (input : Input) :
    List (U32 × TradeStatus) :=
  (node.startsVerify input).toList ++ started

/-- The step moves the status of the trade forward, if at all, and starts no `verify` for a waiting
status that one was started for before. -/
structure Progress (env : Env Hash) (x : U32) (started : List (U32 × TradeStatus)) (node : Node)
    (input : Input) : Prop where
  forward : ∀ t t', node.storage.findActiveTrade x = some t →
    (node.step env input).storage.findActiveTrade x = some t' → t.status.Forward t'.status
  once : ∀ status, node.startsVerify input = some (x, status) → (x, status) ∉ started

/-- The task is a `verify` of the trade that has not begun. -/
def Task.isUnbegun (x : U32) : Task → Bool
  | .verify _ t .processing => decide (t.id = x)
  | _ => false

/-- No commit for the trade is accepted while a `verify` of the trade has not begun. -/
def NotDuplicated (x : U32) (node : Node) (input : Input) : Prop :=
  ∀ start ∈ node.startsVerify input, start.1 = x →
    ∀ k < node.nextTask, (node.tasks k).any (Task.isUnbegun x) = false

instance (x : U32) (node : Node) (input : Input) : Decidable (NotDuplicated x node input) :=
  inferInstanceAs (Decidable (∀ start ∈ node.startsVerify input, _ → ∀ k < node.nextTask, _))

theorem Node.startsVerify_eq_some {sender : PeerId} {rid : ℕ} {request : ExchangeRequest}
    {t : Trade} {commit : Commit} (hr : request.awaited = some (t.status, t.id, commit))
    (hf : node.storage.findActiveTrade t.id = some t) (hp : t.counterPartyDetails.1 = sender) :
    node.startsVerify (.network (.exchangeRequest sender rid request)) =
      some (t.id, t.status) := by
  simp [startsVerify, hr, hf, hp, Option.filter]

/-- A `verify` is started for the stored trade, in a status that awaits it. -/
theorem Node.startsVerify_step (env : Env Hash) {x : U32} {status : TradeStatus}
    (h : node.startsVerify input = some (x, status)) :
    ∃ t commit, node.storage.findActiveTrade x = some t ∧ t.id = x ∧ t.status = status ∧
      status.IsAwaited ∧ node.step env input = node.spawn (.verify commit t .processing) := by
  unfold startsVerify at h
  split at h
  · rename_i sender rid request
    split at h
    · rename_i status' tradeId commit hr
      obtain ⟨t, ht, heq⟩ := Option.map_eq_some_iff.mp h
      cases heq
      obtain ⟨hf, hcond⟩ := Option.filter_eq_some_iff.mp ht
      simp only [Bool.and_eq_true, decide_eq_true_eq] at hcond
      have hid := findActiveTrade_id hf
      rw [← hcond.1, ← hid] at hr
      rw [← hid] at hf
      exact ⟨t, commit, hf, rfl, rfl, ExchangeRequest.isAwaited hr,
        step_accept sender rid hr hf hcond.2⟩
    · cases h
  · cases h

/-! ## Copies -/

/-- The copy of a trade that a task may write back. A `send` that reports writes nothing any
more. -/
def Task.copy? : Task → Option Trade
  | .verify _ t _ => some t
  | .send _ (.reporting _) => none
  | .send t _ => some t
  | .post _ => none

/-- The status of the copy is the one for where the task stands. -/
def Task.Fits : Task → Prop
  | .verify _ t .processing => t.status.IsAwaited
  | .verify _ t _ => t.status.IsProcessing
  | .send _ (.reporting _) => True
  | .send t _ => t.isSendingStatus = true
  | .post _ => True

/-- The task `k` has a copy of the trade `x`. -/
def Node.Copies (node : Node) (x : U32) (k : ℕ) (task : Task) (t : Trade) : Prop :=
  node.tasks k = some task ∧ task.copy? = some t ∧ t.id = x

section Copies

variable {x : U32} {k id : ℕ} {task task' : Task} {t : Trade}

theorem Node.copies_spawn (ht : node'.tasks = (node.spawn task').tasks)
    (h : node'.Copies x k task t) : (k = node.nextTask ∧ task = task') ∨ node.Copies x k task t := by
  obtain ⟨hk, hc⟩ := h
  rw [ht, Node.spawn_tasks] at hk
  split at hk
  · rename_i heq
    exact .inl ⟨heq, (Option.some.inj hk).symm⟩
  · exact .inr ⟨hk, hc⟩

theorem Node.Copies.spawn (h : node.Copies x k task t) (hf : node.Fresh)
    (ht : node'.tasks = (node.spawn task').tasks) : node'.Copies x k task t := by
  refine ⟨?_, h.2⟩
  rw [ht, Node.spawn_tasks, if_neg (hf.lt_nextTask h.1).ne]
  exact h.1

theorem Node.copies_resume {next : Option Task} (ht : node'.tasks = Function.update node.tasks id next)
    (h : node'.Copies x k task t) :
    (k = id ∧ next = some task) ∨ k ≠ id ∧ node.Copies x k task t := by
  obtain ⟨hk, hc⟩ := h
  rw [ht, Function.update_apply] at hk
  split at hk
  · rename_i heq
    exact .inl ⟨heq, hk⟩
  · rename_i hne
    exact .inr ⟨hne, hk, hc⟩

theorem Node.Copies.resume {next : Option Task} (h : node.Copies x k task t) (hne : k ≠ id)
    (ht : node'.tasks = Function.update node.tasks id next) : node'.Copies x k task t := by
  refine ⟨?_, h.2⟩
  rw [ht, Function.update_apply, if_neg hne]
  exact h.1

end Copies

theorem Task.fits_verify {commit : Commit} {t : Trade} {stage : VerifyStage}
    (h : stage ≠ .processing) : (Task.verify commit t stage).Fits ↔ t.status.IsProcessing := by
  cases stage with
  | processing => exact absurd rfl h
  | _ => rfl

theorem Task.isUnbegun_verify {x : U32} {commit : Commit} {t : Trade} {stage : VerifyStage}
    (h : stage ≠ .processing) : (Task.verify commit t stage).isUnbegun x = false := by
  cases stage with
  | processing => exact absurd rfl h
  | _ => rfl

theorem Task.copy_of_isUnbegun {x : U32} {task : Task} (h : task.isUnbegun x = true) :
    ∃ t, task.copy? = some t ∧ t.id = x := by
  unfold isUnbegun at h
  split at h
  · exact ⟨_, rfl, of_decide_eq_true h⟩
  · cases h

theorem Task.isUnbegun_of_ne {x : U32} {task : Task} {t : Trade} (hc : task.copy? = some t)
    (h : t.id ≠ x) : task.isUnbegun x = false := by
  unfold isUnbegun
  split
  · cases hc
    exact decide_eq_false h
  · rfl

/-- A `verify` is the only task with a copy in a waiting status. -/
theorem Task.Fits.isUnbegun {x : U32} {task : Task} {t : Trade} (h : task.Fits)
    (hc : task.copy? = some t) (hid : t.id = x) (ha : t.status.IsAwaited) :
    task.isUnbegun x = true := by
  cases task with
  | post stage => cases hc
  | verify commit t' stage =>
    cases hc
    by_cases hstage : stage = .processing
    · subst hstage
      exact decide_eq_true hid
    · exact absurd ((Task.fits_verify hstage).mp h) ha.not_isProcessing
  | send t' stage =>
    cases stage with
    | reporting event => cases hc
    | starting =>
      cases hc
      exact absurd ha (Trade.not_isAwaited_of_isSendingStatus h)
    | requested =>
      cases hc
      exact absurd ha (Trade.not_isAwaited_of_isSendingStatus h)

/-- A `send` is the only task with a copy in a send status. -/
theorem Task.Fits.sends {task : Task} {t : Trade} (h : task.Fits) (hc : task.copy? = some t)
    (hs : t.isSendingStatus = true) : ∃ stage, task = .send t stage := by
  cases task with
  | post stage => cases hc
  | verify commit t' stage =>
    cases hc
    by_cases hstage : stage = .processing
    · subst hstage
      exact absurd h (Trade.not_isAwaited_of_isSendingStatus hs)
    · exact absurd ((Task.fits_verify hstage).mp h) (Trade.not_isProcessing_of_isSendingStatus hs)
  | send t' stage =>
    cases stage with
    | reporting event => cases hc
    | starting =>
      cases hc
      exact ⟨_, rfl⟩
    | requested =>
      cases hc
      exact ⟨_, rfl⟩

/-! ## The invariant -/

/-- What runs for a trade has the stored trade as its copy, and there is one such task at most. A
waiting status for which a `verify` was started is behind, unless that `verify` has not begun. -/
structure Forwarding (x : U32) (started : List (U32 × TradeStatus)) (node : Node) : Prop where
  slots : SendSlots node
  copy : ∀ k task t, node.Copies x k task t →
    node.storage.findActiveTrade x = some t ∧ task.Fits
  unique : ∀ k k' task task' t t', node.Copies x k task t → node.Copies x k' task' t' → k = k'
  noted : ∀ k task t, node.Copies x k task t → task.isUnbegun x = true → (x, t.status) ∈ started
  passed : ∀ status, (x, status) ∈ started → ∃ t, node.storage.findActiveTrade x = some t ∧
    status.Forward t.status ∧
      (t.status = status → ∃ k task, node.Copies x k task t ∧ task.isUnbegun x = true)

namespace Forwarding

variable {x : U32} {started : List (U32 × TradeStatus)} {id : ℕ} {task : Task} {t : Trade}

/-- Nothing runs for the trade, and nothing did. -/
theorem of_empty (hs : SendSlots node) (hc : ∀ k task t, ¬ node.Copies x k task t)
    (hl : ∀ status, (x, status) ∉ started) : Forwarding x started node where
  slots := hs
  copy k task t h := absurd h (hc k task t)
  unique k _ task _ t _ h := absurd h (hc k task t)
  noted k task t h := absurd h (hc k task t)
  passed status h := absurd h (hl status)

theorem start (storage : Storage) : Forwarding x [] (.start storage) :=
  of_empty (sendSlots_start storage) (fun _ _ _ h => nomatch h.1) fun _ h => nomatch h

/-- A trade that is not stored has no copies. -/
theorem not_copies (h : Forwarding x started node) (hn : node.storage.findActiveTrade x = none)
    (k : ℕ) (task : Task) (t : Trade) : ¬ node.Copies x k task t := by
  intro hk
  cases (h.copy k task t hk).1.symm.trans hn

theorem not_started (h : Forwarding x started node)
    (hn : node.storage.findActiveTrade x = none) (status : TradeStatus) : (x, status) ∉ started := by
  intro hs
  obtain ⟨t, ht, -⟩ := h.passed status hs
  cases ht.symm.trans hn

/-- The same copies as before, where they fit, and the same trade. -/
theorem of_copies (h : Forwarding x started node) (hs : SendSlots node')
    (hst : node'.storage.findActiveTrade x = node.storage.findActiveTrade x)
    (hc : ∀ k task t, node'.Copies x k task t → ∃ task', node.Copies x k task' t ∧
      (task'.Fits → task.Fits) ∧ (task.isUnbegun x = true → task'.isUnbegun x = true))
    (hu : ∀ k task t, node.Copies x k task t → task.isUnbegun x = true →
      node'.Copies x k task t) : Forwarding x started node' where
  slots := hs
  copy k task t hk := by
    obtain ⟨task', hk', hfit, -⟩ := hc k task t hk
    obtain ⟨hf, hfit'⟩ := h.copy k task' t hk'
    exact ⟨hst.trans hf, hfit hfit'⟩
  unique k k' task task' t t' hk hk' := by
    obtain ⟨_, hold, -⟩ := hc k task t hk
    obtain ⟨_, hold', -⟩ := hc k' task' t' hk'
    exact h.unique k k' _ _ t t' hold hold'
  noted k task t hk hun := by
    obtain ⟨task', hk', -, hun'⟩ := hc k task t hk
    exact h.noted k task' t hk' (hun' hun)
  passed status hstatus := by
    obtain ⟨t, hf, hfw, hwait⟩ := h.passed status hstatus
    refine ⟨t, hst.trans hf, hfw, fun heq => ?_⟩
    obtain ⟨k, task, hk, hun⟩ := hwait heq
    exact ⟨k, task, hu k task t hk hun, hun⟩

/-- Nothing changes for the trade and its tasks. -/
theorem of_same (h : Forwarding x started node) (hs : SendSlots node')
    (hst : node'.storage.findActiveTrade x = node.storage.findActiveTrade x)
    (ht : node'.tasks = node.tasks) : Forwarding x started node' := by
  have hcopies : ∀ k task t, node'.Copies x k task t ↔ node.Copies x k task t := by
    intro k task t
    unfold Node.Copies
    rw [ht]
  exact h.of_copies hs hst (fun k task t hk => ⟨task, (hcopies k task t).mp hk, id, id⟩)
    fun k task t hk _ => (hcopies k task t).mpr hk

/-- A task that has begun goes on with its copy, or without one. -/
theorem resume (h : Forwarding x started node) {next : Option Task}
    (hk : node.tasks id = some task) (hun : task.isUnbegun x = false) (hs : SendSlots node')
    (ht : node'.tasks = Function.update node.tasks id next)
    (hst : node'.storage.findActiveTrade x = node.storage.findActiveTrade x)
    (hnext : ∀ task' t, next = some task' → task'.copy? = some t → t.id = x →
      task.copy? = some t ∧ (task.Fits → task'.Fits) ∧ task'.isUnbegun x = false) :
    Forwarding x started node' := by
  refine h.of_copies hs hst (fun k task' t hk' => ?_) fun k task' t hk' hun' => ?_
  · rcases Node.copies_resume ht hk' with ⟨rfl, hn⟩ | ⟨-, hold⟩
    · obtain ⟨hcopy, hfit, hun'⟩ := hnext task' t hn hk'.2.1 hk'.2.2
      exact ⟨task, ⟨hk, hcopy, hk'.2.2⟩, hfit, fun h' => nomatch hun'.symm.trans h'⟩
    · exact ⟨task', hold, fun hf => hf, fun hu => hu⟩
  · have hne : k ≠ id := by
      rintro rfl
      cases hk.symm.trans hk'.1
      cases hun.symm.trans hun'
    exact hk'.resume hne ht

/-- A task goes on without a copy, or ends. -/
theorem drop (h : Forwarding x started node) {next : Option Task}
    (hk : node.tasks id = some task) (hun : task.isUnbegun x = false) (hs : SendSlots node')
    (ht : node'.tasks = Function.update node.tasks id next)
    (hst : node'.storage.findActiveTrade x = node.storage.findActiveTrade x)
    (hnext : next.bind Task.copy? = none) : Forwarding x started node' := by
  refine h.resume hk hun hs ht hst fun task' t hn hc _ => ?_
  rw [hn, Option.bind_some, hc] at hnext
  cases hnext

/-- A task starts that has no copy of the trade. -/
theorem spawn (h : Forwarding x started node) (hs : SendSlots node')
    (ht : node'.tasks = (node.spawn task).tasks)
    (hst : node'.storage.findActiveTrade x = node.storage.findActiveTrade x)
    (hc : ∀ t, task.copy? = some t → t.id ≠ x) : Forwarding x started node' := by
  refine h.of_copies hs hst (fun k task' t hk => ?_) fun k task' t hk _ =>
    hk.spawn h.slots.fresh ht
  rcases Node.copies_spawn ht hk with ⟨-, rfl⟩ | hold
  · exact absurd hk.2.2 (hc t hk.2.1)
  · exact ⟨task', hold, fun hf => hf, fun hu => hu⟩

/-- A task starts with the stored trade as its copy, and nothing ran for the trade. -/
theorem spawn_copy (h : Forwarding x started node) (hs : SendSlots node')
    (ht : node'.tasks = (node.spawn task).tasks)
    (hst : node'.storage.findActiveTrade x = node.storage.findActiveTrade x)
    (hf : node.storage.findActiveTrade x = some t) (hcopy : task.copy? = some t)
    (hfit : task.Fits) (hno : ∀ k task t, ¬ node.Copies x k task t)
    {started' : List (U32 × TradeStatus)}
    (hun : task.isUnbegun x = true → (x, t.status) ∈ started')
    (hl : ∀ status, (x, status) ∈ started' →
      (x, status) ∈ started ∨ status = t.status ∧ task.isUnbegun x = true) :
    Forwarding x started' node' := by
  have hnew : node'.Copies x node.nextTask task t := by
    refine ⟨?_, hcopy, findActiveTrade_id hf⟩
    rw [ht, Node.spawn_tasks, if_pos rfl]
  have honly : ∀ {k task' t'}, node'.Copies x k task' t' →
      k = node.nextTask ∧ task' = task ∧ t' = t := by
    intro k task' t' hk
    rcases Node.copies_spawn ht hk with ⟨rfl, rfl⟩ | hold
    · exact ⟨rfl, rfl, Option.some.inj (hk.2.1.symm.trans hcopy)⟩
    · exact absurd hold (hno k task' t')
  refine { slots := hs, copy := ?_, unique := ?_, noted := ?_, passed := ?_ }
  · intro k task' t' hk
    obtain ⟨-, rfl, rfl⟩ := honly hk
    exact ⟨hst.trans hf, hfit⟩
  · exact fun k k' _ _ _ _ hk hk' => (honly hk).1.trans (honly hk').1.symm
  · intro k task' t' hk hun'
    obtain ⟨-, rfl, rfl⟩ := honly hk
    exact hun hun'
  · intro status hstatus
    rcases hl status hstatus with hold | ⟨rfl, hun'⟩
    · obtain ⟨t', hf', hfw, hwait⟩ := h.passed status hold
      cases hf.symm.trans hf'
      refine ⟨t, hst.trans hf, hfw, fun heq => ?_⟩
      obtain ⟨k, task', hk, -⟩ := hwait heq
      exact absurd hk (hno k task' t)
    · exact ⟨t, hst.trans hf, .refl _, fun _ => ⟨_, task, hnew, hun'⟩⟩

/-- The one task of the trade writes a later status. -/
theorem advance (h : Forwarding x started node) (hk : node.Copies x id task t) {t' : Trade}
    {next : Option Task} (hlater : t.status.Later t'.status) (hs : SendSlots node')
    (ht : node'.tasks = Function.update node.tasks id next)
    (hf' : node'.storage.findActiveTrade x = some t')
    (hnext : ∀ task', next = some task' → task'.isUnbegun x = false ∧
      ∀ t'', task'.copy? = some t'' → t'' = t' ∧ task'.Fits) : Forwarding x started node' := by
  have hf := (h.copy id task t hk).1
  have honly : ∀ {k task' t''}, node'.Copies x k task' t'' → k = id ∧ next = some task' := by
    intro k task' t'' hk'
    rcases Node.copies_resume ht hk' with hn | ⟨hne, hold⟩
    · exact hn
    · exact absurd (h.unique k id _ _ _ _ hold hk) hne
  refine { slots := hs, copy := ?_, unique := ?_, noted := ?_, passed := ?_ }
  · intro k task' t'' hk'
    obtain ⟨-, hn⟩ := honly hk'
    obtain ⟨rfl, hfit⟩ := (hnext task' hn).2 t'' hk'.2.1
    exact ⟨hf', hfit⟩
  · exact fun k k' _ _ _ _ hk hk' => (honly hk).1.trans (honly hk').1.symm
  · intro k task' t'' hk' hun
    cases (hnext task' (honly hk').2).1.symm.trans hun
  · intro status hstatus
    obtain ⟨t₀, hf₀, hfw, -⟩ := h.passed status hstatus
    cases hf.symm.trans hf₀
    refine ⟨t', hf', hfw.trans hlater.1, fun heq => ?_⟩
    -- a status between the two would be both of them
    subst heq
    exact absurd (hlater.1.antisymm hfw) hlater.2

/-- A task writes its copy back with a later status, for this trade or another one. -/
theorem write (h : Forwarding x started node) (hk : node.tasks id = some task)
    (hc : task.copy? = some t) {status : TradeStatus} {next : Option Task}
    (hs : SendSlots node') (ht : node'.tasks = Function.update node.tasks id next)
    (hst : node'.storage = node.storage.updateActiveTrade (t.updateStatus status))
    (hfit : task.Fits → t.status.Later status ∧ ∀ task', next = some task' → task'.Fits)
    (hnext : ∀ task', next = some task' → task'.isUnbegun x = false ∧
      ∀ t', task'.copy? = some t' → t' = t.updateStatus status) : Forwarding x started node' := by
  by_cases hid : t.id = x
  · have hcopies : node.Copies x id task t := ⟨hk, hc, hid⟩
    obtain ⟨hf, hfits⟩ := h.copy id task t hcopies
    obtain ⟨hl, hfit'⟩ := hfit hfits
    have hlater : t.status.Later (t.updateStatus status).status := hl
    refine h.advance hcopies hlater hs ht ?_ fun task' hn => ?_
    · rw [hst, findActiveTrade_updateActiveTrade, Trade.updateStatus_id, hid,
        if_pos ⟨rfl, by simp [hf]⟩]
    · exact ⟨(hnext task' hn).1, fun t' ht' => ⟨(hnext task' hn).2 t' ht', hfit' task' hn⟩⟩
  · refine h.resume hk (Task.isUnbegun_of_ne hc hid) hs ht ?_ fun task' t' hn hc' hid' => ?_
    · rw [hst, findActiveTrade_updateActiveTrade, Trade.updateStatus_id,
        if_neg fun heq => hid heq.1.symm]
    · rw [(hnext task' hn).2 t' hc'] at hid'
      exact absurd hid' hid

/-- The trade is stored for the first time, or another one is stored. -/
theorem add (h : Forwarding x started node) (hs : SendSlots node')
    (hst : node'.storage = node.storage.addActiveTrade t)
    (hno : t.id = x → node.storage.findActiveTrade x = none)
    (hc : ∀ k task t, node'.Copies x k task t ↔ node.Copies x k task t) :
    Forwarding x started node' := by
  by_cases hid : t.id = x
  · have hn := hno hid
    exact of_empty hs (fun k task t hk => h.not_copies hn k task t ((hc k task t).mp hk))
      (h.not_started hn)
  · refine h.of_copies hs ?_ (fun k task t hk => ?_) fun k task t hk _ => (hc k task t).mpr hk
    · rw [hst, findActiveTrade_addActiveTrade, if_neg (Ne.symm hid)]
    · exact ⟨task, (hc k task t).mp hk, fun hf => hf, fun hu => hu⟩

/-- A `send` starts. -/
theorem sending (h : Forwarding x started node) (hf : node.storage.findActiveTrade t.id = some t)
    (ht : t.isSendingStatus = true) (ha : t.id ∉ node.activeSendCommitProc) :
    Forwarding x started (node.sending t) := by
  have hs : SendSlots (node.sending t) := h.slots.sending ha
  by_cases hid : t.id = x
  · subst hid
    refine h.spawn_copy hs rfl rfl hf rfl ht (fun k task t' hk => ?_) nofun fun _ => .inl
    obtain ⟨hf', hfit⟩ := h.copy k task t' hk
    cases hf.symm.trans hf'
    obtain ⟨stage, rfl⟩ := hfit.sends hk.2.1 ht
    exact ha (h.slots.task_active k t.id ⟨t, stage, hk.1, rfl⟩)
  · refine h.spawn hs rfl rfl fun t' ht' => ?_
    cases ht'
    exact hid

/-- A commit is accepted, and not for the second time. -/
theorem accept (h : Forwarding x started node) {commit : Commit}
    (hs : SendSlots (node.spawn (.verify commit t .processing)))
    (hf : node.storage.findActiveTrade t.id = some t) (ha : t.status.IsAwaited)
    (hstart : node.startsVerify input = some (t.id, t.status))
    (hdup : NotDuplicated x node input) :
    Forwarding x ((t.id, t.status) :: started) (node.spawn (.verify commit t .processing)) := by
  by_cases hid : t.id = x
  · subst hid
    -- what runs in a waiting status is a `verify` that has not begun
    refine h.spawn_copy hs rfl rfl hf rfl ha (fun k task t' hk => ?_)
      (fun _ => List.mem_cons_self) fun status hl => ?_
    · obtain ⟨hf', hfit⟩ := h.copy k task t' hk
      cases hf.symm.trans hf'
      have hun := hdup _ hstart rfl k (h.slots.fresh.lt_nextTask hk.1)
      rw [hk.1, Option.any_some, hfit.isUnbegun hk.2.1 rfl ha] at hun
      cases hun
    · rcases List.mem_cons.mp hl with heq | hl
      · cases heq
        exact .inr ⟨rfl, decide_eq_true rfl⟩
      · exact .inl hl
  · have hspawn : Forwarding x started (node.spawn (.verify commit t .processing)) := by
      refine h.spawn hs rfl rfl fun t' ht' => ?_
      cases ht'
      exact hid
    have hl : ∀ s, (x, s) ∈ (t.id, t.status) :: started ↔ (x, s) ∈ started := by
      intro s
      rw [List.mem_cons, or_iff_right]
      rintro heq
      cases heq
      exact hid rfl
    exact { hspawn with
      noted := fun k task t' hk hun => (hl _).mpr (hspawn.noted k task t' hk hun)
      passed := fun s hs => hspawn.passed s ((hl s).mp hs) }

/-- Every step keeps the invariant, unless a commit is accepted twice. -/
theorem step (h : Forwarding x started node) (hno : NotRestarted x node input)
    (hdup : NotDuplicated x node input) :
    Forwarding x (Started.note started node input) (node.step env input) := by
  have hslots : SendSlots (node.step env input) := h.slots.step
  unfold Started.note
  cases hstart : node.startsVerify input with
  | some start =>
    obtain ⟨y, status⟩ := start
    obtain ⟨t, commit, hf, rfl, rfl, ha, heq⟩ := Node.startsVerify_step env hstart
    rw [heq] at hslots ⊢
    exact h.accept hslots hf ha hstart hdup
  | none =>
    rw [Option.toList_none, List.nil_append]
    obtain ⟨commands, he⟩ : ∃ commands, Effect env node input (node.step env input) commands :=
      ⟨_, step_effect node input⟩
    generalize node.step env input = node' at he hslots
    cases he with
    | record hs _ => exact h.of_same hslots (hs.trade x) rfl
    | iWant sender rid i => exact h.of_same hslots rfl rfl
    | startCommit sender rid t =>
      exact h.add hslots rfl (fun hid => hno (congrArg some hid)) fun _ _ _ => Iff.rfl
    | refuse _ _ => exact h
    | accept hr hf hp => cases hstart.symm.trans (Node.startsVerify_eq_some hr hf hp)
    | tick =>
      exact Node.handleTick_rule (fun n => Forwarding x started n) h
        fun n t hn hs hf ht ha => sending hn (hs ▸ hf) ht ha
    | consume he => exact h.of_same hslots rfl rfl
    | post _ _ _ => exact h.spawn hslots rfl rfl fun t ht => by cases ht
    | process hk =>
      refine h.write hk rfl hslots rfl rfl (fun hfit => ⟨TradeStatus.IsAwaited.later hfit, ?_⟩) ?_
      · rintro task' ⟨⟩
        exact TradeStatus.IsAwaited.toProcessing hfit
      · rintro task' ⟨⟩
        exact ⟨rfl, fun t' ht' => (Option.some.inj ht').symm⟩
    | examine hk hs h1 _ h3 _ _ =>
      refine h.resume hk (Task.isUnbegun_verify h1) hslots rfl (hs.trade x)
        fun task' t hn hc hid => ?_
      cases hn
      exact ⟨hc, fun hfit => (Task.fits_verify h3).mpr ((Task.fits_verify h1).mp hfit),
        Task.isUnbegun_verify h3⟩
    | abandon hk hs _ => exact h.drop hk rfl hslots rfl (hs.trade x) rfl
    | finish hk =>
      exact h.write hk rfl hslots rfl rfl
        (fun hfit => ⟨TradeStatus.IsProcessing.later hfit, by simp⟩) (by simp)
    | request hk hr =>
      refine h.resume hk rfl hslots rfl rfl fun task' t hn hc hid => ?_
      cases hn
      exact ⟨hc, fun hfit => hfit, rfl⟩
    | expect hk _ => exact h.drop hk rfl hslots rfl rfl rfl
    | sent hk =>
      refine h.write hk rfl hslots rfl rfl (fun hfit => ⟨Trade.later_of_isSendingStatus hfit, ?_⟩) ?_
      · rintro task' ⟨⟩
        trivial
      · rintro task' ⟨⟩
        exact ⟨rfl, nofun⟩
    | unsent hk => exact h.drop hk rfl hslots rfl rfl rfl
    | report hk => exact h.drop hk rfl hslots rfl rfl rfl
    | findsIWant hk _ => exact h.drop hk rfl hslots rfl rfl rfl
    | wants hk => exact h.drop hk rfl hslots rfl rfl rfl
    | opens hk _ => exact h.drop hk rfl hslots rfl rfl rfl
    | @opened k t hk =>
      have hstored : node.storesTrade (.task k (.exchange (some .ack))) = some t.id := by
        simp only [Node.storesTrade, hk]
      refine h.add hslots rfl (fun hid => hno (hstored.trans (congrArg some hid)))
        fun k' task t' => ⟨fun hc => ?_, fun hc => ?_⟩
      · rcases Node.copies_resume rfl hc with ⟨-, hn⟩ | ⟨-, hold⟩
        · cases hn
        · exact hold
      · refine hc.resume ?_ rfl
        rintro rfl
        cases hk.symm.trans hc.1
        cases hc.2.1
    | @serve _ _ _ next _ _ hk hs _ _ =>
      refine h.drop hk rfl hslots rfl (hs.trade x) ?_
      cases next <;> rfl

/-- The one task of the trade that writes it moves it forward. -/
theorem forward (h : Forwarding x started node) (hno : NotRestarted x node input) {t t' : Trade}
    (ht : node.storage.findActiveTrade x = some t)
    (ht' : (node.step env input).storage.findActiveTrade x = some t') :
    t.status.Forward t'.status := by
  have hid := findActiveTrade_id ht'
  rcases step_stored ht' with hold | hw
  · cases ht.symm.trans hold
    exact .refl _
  · have hcopy : ∀ {k task t₀}, node.tasks k = some task → task.copy? = some t₀ → t₀.id = x →
        t₀ = t ∧ task.Fits := by
      intro k task t₀ hk hc hid
      obtain ⟨hf, hfit⟩ := h.copy k task t₀ ⟨hk, hc, hid⟩
      exact ⟨Option.some.inj (hf.symm.trans ht), hfit⟩
    cases hw with
    | startCommit sender rid t₀ => cases ht.symm.trans (hno (congrArg some hid))
    | process hk =>
      obtain ⟨rfl, hfit⟩ := hcopy hk rfl hid
      exact (TradeStatus.IsAwaited.later hfit).1
    | finish hk =>
      obtain ⟨rfl, hfit⟩ := hcopy hk rfl hid
      exact (TradeStatus.IsProcessing.later hfit).1
    | sent hk =>
      obtain ⟨rfl, hfit⟩ := hcopy hk rfl hid
      exact (Trade.later_of_isSendingStatus hfit).1
    | @opened k _ hk =>
      have hstored : node.storesTrade (.task k (.exchange (some .ack))) = some t'.id := by
        simp only [Node.storesTrade, hk]
      cases ht.symm.trans (hno (hstored.trans (congrArg some hid)))

/-- A step makes progress exactly when it accepts no commit while an accepted one waits. -/
theorem progress_iff (h : Forwarding x started node) (hno : NotRestarted x node input) :
    Progress env x started node input ↔ NotDuplicated x node input := by
  constructor
  · rintro hp ⟨y, status⟩ hstart rfl k -
    obtain ⟨t, commit, hf, -, rfl, -, -⟩ := Node.startsVerify_step env hstart
    cases hk : node.tasks k with
    | none => rfl
    | some task =>
      rw [Option.any_some]
      by_contra hne
      have hun : task.isUnbegun y = true := Bool.eq_true_of_not_eq_false hne
      obtain ⟨t', hcopy, hid⟩ := Task.copy_of_isUnbegun hun
      have hcopies : node.Copies y k task t' := ⟨hk, hcopy, hid⟩
      cases hf.symm.trans (h.copy k task t' hcopies).1
      exact hp.once t.status hstart (h.noted k task t hcopies hun)
  · intro hdup
    refine ⟨fun t t' ht ht' => h.forward hno ht ht', fun status hstart hmem => ?_⟩
    obtain ⟨t, commit, hf, -, hst, -, -⟩ := Node.startsVerify_step env hstart
    obtain ⟨t', hf', -, hwait⟩ := h.passed status hmem
    cases hf.symm.trans hf'
    obtain ⟨k, task, hk, hun⟩ := hwait hst
    have hnone := hdup _ hstart rfl k (h.slots.fresh.lt_nextTask hk.1)
    rw [hk.1, Option.any_some, hun] at hnone
    cases hnone

end Forwarding

/-! ## Runs -/

/-- In every run that does not store the trade anew, its status only moves forward and each of its
waiting statuses is verified once, exactly when no commit for it is accepted while a `verify` of it
has not begun. -/
theorem status_forward_iff (storage : Storage) (x : U32) (inputs : List Input)
    (hno : Run.Always (Node.step env) (NotRestarted x) (.start storage) inputs) :
    Run.Always (Run.watch (Node.step env) Started.note)
        (fun g input => Progress env x g.1 g.2 input) ([], .start storage) inputs ↔
      Run.Always (Node.step env) (NotDuplicated x) (.start storage) inputs := by
  rw [← Run.always_watch (NotDuplicated x) (([], .start storage) : List (U32 × TradeStatus) × Node)]
  rw [← Run.always_watch (NotRestarted x) (([], .start storage) : List (U32 × TradeStatus) × Node)]
    at hno
  have hiff : ∀ (g : List (U32 × TradeStatus) × Node) (input : Input), Forwarding x g.1 g.2 →
      NotRestarted x g.2 input →
      (Progress env x g.1 g.2 input ↔ NotDuplicated x g.2 input) := fun _ _ h hno =>
    h.progress_iff hno
  refine Run.always_iff_of_inv hiff (fun g input h hno hp => ?_) (Forwarding.start storage) hno
  exact h.step hno ((h.progress_iff hno).mp hp)

/-- The requester's commit for trade 6, and the `verify` of it up to the end. -/
def verifiedInputs : List Input :=
  .network (.exchangeRequest ⟨[2]⟩ 0 (.t1RequesterCommit 6 (plainCommit 6))) :: verifyInputs 0

theorem status_forward_iff_verifiedInputs :
    Run.Always (Run.watch (Node.step plainEnv) Started.note)
      (fun g input => Progress plainEnv 6 g.1 g.2 input) ([], .start tradingStorage)
      (verifiedInputs ++ [.tick]) :=
  (status_forward_iff tradingStorage 6 (verifiedInputs ++ [.tick]) (by decide +kernel)).mpr
    (by decide +kernel)

/-- The commit comes twice before its `verify` begins. The second `verify` takes the trade back to
`ProcessingRT1Commit` when the first one is over. -/
theorem not_status_forward_verifiedInputs :
    ¬ Run.Always (Run.watch (Node.step plainEnv) Started.note)
      (fun g input => Progress plainEnv 6 g.1 g.2 input) ([], .start tradingStorage)
      (.network (.exchangeRequest ⟨[2]⟩ 0 (.t1RequesterCommit 6 (plainCommit 6))) ::
        verifiedInputs ++ [.task 1 .run]) := by
  intro h
  obtain ⟨-, hlast⟩ := (Run.always_concat _ _ _).mp h
  have hforward := hlast.forward (plainTrade .pSendT1Commit false)
    (plainTrade .processingRT1Commit false) (by decide +kernel) (by decide +kernel)
  exact absurd hforward (by decide)

end Dse
