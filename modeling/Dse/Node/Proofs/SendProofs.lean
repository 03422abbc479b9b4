import Dse.Node.Proofs.TaskProofs

/-!
# One send at a time

A trade has at most one `send` at a time: its id is in `active_send_commit_proc` from the tick that
starts the `send` until the indexer has received the report, and a tick starts none for an id that
is there.
-/

namespace Dse

open Storage

variable {Hash : Type} {env : Env Hash} {node node' : Node} {input : Input}
  {commands : List Command}

/-! ## Fresh task ids -/

/-- What a step does to the tasks. -/
inductive TaskEffect (node : Node) (input : Input) (node' : Node) : Prop
  | same (ht : node'.tasks = node.tasks) (hn : node'.nextTask = node.nextTask)
  | spawn {task : Task} (ht : node'.tasks = (node.spawn task).tasks)
      (hn : node'.nextTask = (node.spawn task).nextTask)
  | resume {id : ℕ} {answer : Answer} {task : Task} {next : Option Task}
      (hi : input = .task id answer) (hk : node.tasks id = some task)
      (ht : node'.tasks = Function.update node.tasks id next) (hn : node'.nextTask = node.nextTask)
  | tick (h : node' = node.handleTick)

theorem Effect.taskEffect (h : Effect env node input node' commands) :
    TaskEffect node input node' := by
  cases h with
  | record _ _ => exact .same rfl rfl
  | iWant sender rid i => exact .same rfl rfl
  | startCommit sender rid t => exact .same rfl rfl
  | refuse _ _ => exact .same rfl rfl
  | accept _ _ _ => exact .spawn rfl rfl
  | tick => exact .tick rfl
  | consume _ => exact .same rfl rfl
  | post _ _ _ => exact .spawn rfl rfl
  | process hk => exact .resume rfl hk rfl rfl
  | examine hk _ _ _ _ _ _ => exact .resume rfl hk rfl rfl
  | abandon hk _ _ => exact .resume rfl hk rfl rfl
  | finish hk => exact .resume rfl hk rfl rfl
  | request hk _ => exact .resume rfl hk rfl rfl
  | expect hk _ => exact .resume rfl hk rfl rfl
  | sent hk => exact .resume rfl hk rfl rfl
  | unsent hk => exact .resume rfl hk rfl rfl
  | report hk => exact .resume rfl hk rfl rfl
  | findsIWant hk _ => exact .resume rfl hk rfl rfl
  | wants hk => exact .resume rfl hk rfl rfl
  | opens hk _ => exact .resume rfl hk rfl rfl
  | opened hk => exact .resume rfl hk rfl rfl
  | serve hk _ _ _ => exact .resume rfl hk rfl rfl

theorem step_taskEffect (env : Env Hash) (node : Node) (input : Input) :
    TaskEffect node input (node.step env input) :=
  (step_effect node input).taskEffect

/-- The ids from the next one on are not in use. -/
def Node.Fresh (node : Node) : Prop := ∀ k, node.nextTask ≤ k → node.tasks k = none

theorem Node.Fresh.lt_nextTask (h : node.Fresh) {k : ℕ} {task : Task}
    (hk : node.tasks k = some task) : k < node.nextTask := by
  by_contra hge
  cases (h k (Nat.not_lt.mp hge)).symm.trans hk

theorem Node.Fresh.spawn (h : node.Fresh) (task : Task) : (node.spawn task).Fresh := by
  intro k hk
  have hlt : node.nextTask < k := hk
  rw [Node.spawn_tasks, if_neg (by omega)]
  exact h k (by omega)

theorem Node.Fresh.step (h : node.Fresh) : (node.step env input).Fresh := by
  cases step_taskEffect env node input with
  | same ht hn =>
    intro k hk
    rw [ht]
    exact h k (hn ▸ hk)
  | @spawn task ht hn =>
    intro k hk
    rw [ht]
    exact h.spawn task k (hn ▸ hk)
  | resume _ hid ht hn =>
    intro k hk
    have hlt := h.lt_nextTask hid
    rw [hn] at hk
    rw [ht, Function.update_of_ne (by omega)]
    exact h k hk
  | tick heq =>
    rw [heq]
    exact Node.handleTick_rule Node.Fresh h fun n t hn _ _ _ _ => Node.Fresh.spawn hn _

/-- Task ids are handed out in order. -/
theorem nextTask_le_step : node.nextTask ≤ (node.step env input).nextTask := by
  cases step_taskEffect env node input with
  | same _ hn => exact hn.ge
  | spawn _ hn => exact hn ▸ Nat.le_succ _
  | resume _ _ _ hn => exact hn.ge
  | tick heq =>
    rw [heq]
    exact Node.handleTick_rule (fun n => node.nextTask ≤ n.nextTask) (le_refl _)
      fun _ _ hn _ _ _ _ => Nat.le_succ_of_le hn

/-- A task that is not stepped stays as it is. -/
theorem step_tasks_of_ne (h : node.Fresh) {k : ℕ} {task : Task} (hk : node.tasks k = some task)
    (hne : ∀ answer, input ≠ .task k answer) : (node.step env input).tasks k = some task := by
  have hlt := h.lt_nextTask hk
  cases step_taskEffect env node input with
  | same ht _ =>
    rw [ht]
    exact hk
  | spawn ht _ =>
    rw [ht, Node.spawn_tasks, if_neg (by omega)]
    exact hk
  | @resume id answer _ _ hi _ ht _ =>
    have hkid : k ≠ id := by
      rintro rfl
      exact hne answer hi
    rw [ht, Function.update_of_ne hkid]
    exact hk
  | tick heq =>
    -- the task ids of the sends that a tick starts only go up
    have hkeep := Node.handleTick_rule
      (fun n => n.tasks k = some task ∧ node.nextTask ≤ n.nextTask) ⟨hk, le_refl _⟩
      (fun n t hn _ _ _ _ => ?_)
    · rw [heq]
      exact hkeep.1
    · have hkn : k ≠ n.nextTask := by
        have hle := hn.2
        omega
      constructor
      · show (Node.spawn _ _).tasks k = some task
        rw [Node.spawn_tasks, if_neg hkn]
        exact hn.1
      · exact Nat.le_succ_of_le hn.2

/-! ## Slots -/

/-- Task `k` is a `send` for the trade `x`. -/
def Node.Sends (node : Node) (k : ℕ) (x : U32) : Prop :=
  ∃ t stage, node.tasks k = some (.send t stage) ∧ t.id = x

/-- What is spoken for by a `send`, or by its report on the way to the indexer. -/
structure SendSlots (node : Node) : Prop where
  fresh : node.Fresh
  reports : ∀ k t event, node.tasks k = some (.send t (.reporting event)) → event.tradeId = t.id
  task_active : ∀ k x, node.Sends k x → x ∈ node.activeSendCommitProc
  event_active : ∀ event ∈ node.commitProcEvents, event.tradeId ∈ node.activeSendCommitProc
  task_unique : ∀ k k' x, node.Sends k x → node.Sends k' x → k = k'
  task_event : ∀ k x, node.Sends k x → ∀ event ∈ node.commitProcEvents, event.tradeId ≠ x
  events_nodup : (node.commitProcEvents.map CommitProcedureEvent.tradeId).Nodup

theorem sendSlots_start (s : Storage) : SendSlots (.start s) where
  fresh _ _ := rfl
  reports _ _ _ h := nomatch h
  task_active := by
    rintro k x ⟨t, stage, h, -⟩
    cases h
  event_active _ h := absurd h List.not_mem_nil
  task_unique := by
    rintro k k' x ⟨t, stage, h, -⟩
    cases h
  task_event := by
    rintro k x ⟨t, stage, h, -⟩
    cases h
  events_nodup := List.nodup_nil

theorem step_reports
    (h : ∀ k t event, node.tasks k = some (.send t (.reporting event)) → event.tradeId = t.id)
    {k : ℕ} {t : Trade} {event : CommitProcedureEvent}
    (hk : (node.step env input).tasks k = some (.send t (.reporting event))) :
    event.tradeId = t.id := by
  rcases step_task hk with hk | hk
  · exact h k t event hk
  · cases hk with
    | sent _ => rfl
    | unsent _ => rfl

/-- Only a tick starts a `send`. -/
theorem step_sends (hi : input ≠ .tick) {k : ℕ} {x : U32} (h : (node.step env input).Sends k x) :
    node.Sends k x := by
  obtain ⟨t, stage, hk, rfl⟩ := h
  rcases step_task hk with hk | hk
  · exact ⟨t, stage, hk, rfl⟩
  · cases hk with
    | tick _ _ _ => exact absurd rfl hi
    | request hold => exact ⟨t, _, hold, rfl⟩
    | sent hold => exact ⟨_, _, hold, rfl⟩
    | unsent hold => exact ⟨_, _, hold, rfl⟩

namespace SendSlots

/-- Fewer sends, and the indexer's own state as it was. -/
theorem of_sends (h : SendSlots node) (hf : node'.Fresh)
    (hr : ∀ k t event, node'.tasks k = some (.send t (.reporting event)) → event.tradeId = t.id)
    (hs : ∀ k x, node'.Sends k x → node.Sends k x)
    (ha : node'.activeSendCommitProc = node.activeSendCommitProc)
    (he : node'.commitProcEvents = node.commitProcEvents) : SendSlots node' where
  fresh := hf
  reports := hr
  task_active k x hk := by
    rw [ha]
    exact h.task_active k x (hs k x hk)
  event_active := by
    rw [ha, he]
    exact h.event_active
  task_unique k k' x hk hk' := h.task_unique k k' x (hs k x hk) (hs k' x hk')
  task_event k x hk := by
    rw [he]
    exact h.task_event k x (hs k x hk)
  events_nodup := by
    rw [he]
    exact h.events_nodup

theorem consume (h : SendSlots node) {event : CommitProcedureEvent}
    {events : List CommitProcedureEvent} (he : node.commitProcEvents = event :: events) :
    SendSlots { node with
      commitProcEvents := events
      activeSendCommitProc := node.activeSendCommitProc.erase event.tradeId } := by
  have hmem : event ∈ node.commitProcEvents := he ▸ List.mem_cons_self
  have hsub : ∀ event' ∈ events, event' ∈ node.commitProcEvents :=
    fun event' h' => he ▸ List.mem_cons_of_mem _ h'
  have hnodup := h.events_nodup
  rw [he, List.map_cons, List.nodup_cons] at hnodup
  refine { fresh := h.fresh, reports := h.reports, task_active := ?_, event_active := ?_,
           task_unique := h.task_unique, task_event := ?_, events_nodup := hnodup.2 }
  · intro k x hk
    exact Finset.mem_erase.mpr ⟨(h.task_event k x hk event hmem).symm, h.task_active k x hk⟩
  · intro event' h'
    refine Finset.mem_erase.mpr ⟨fun heq => hnodup.1 ?_, h.event_active event' (hsub event' h')⟩
    exact List.mem_map.mpr ⟨event', h', heq⟩
  · exact fun k x hk event' h' => h.task_event k x hk event' (hsub event' h')

theorem report (h : SendSlots node) {id : ℕ} {t : Trade} {event : CommitProcedureEvent}
    (ht : node.tasks id = some (.send t (.reporting event))) :
    SendSlots ({ node with commitProcEvents := node.commitProcEvents ++ [event] }.resume id
      node.storage none) := by
  have hid : event.tradeId = t.id := h.reports id t event ht
  have hown : node.Sends id event.tradeId := ⟨t, _, ht, hid.symm⟩
  have hold : ∀ {k task}, ({ node with
      commitProcEvents := node.commitProcEvents ++ [event] }.resume id node.storage none).tasks k =
        some task → k ≠ id ∧ node.tasks k = some task := by
    intro k task hk
    rw [Node.resume_tasks] at hk
    split at hk
    · cases hk
    · rename_i hne
      exact ⟨hne, hk⟩
  have hsends : ∀ {k x}, ({ node with
      commitProcEvents := node.commitProcEvents ++ [event] }.resume id node.storage none).Sends k x →
        k ≠ id ∧ node.Sends k x := by
    rintro k x ⟨t', stage, hk, hx⟩
    obtain ⟨hne, hk⟩ := hold hk
    exact ⟨hne, t', stage, hk, hx⟩
  refine { fresh := ?_, reports := ?_, task_active := ?_, event_active := ?_, task_unique := ?_,
           task_event := ?_, events_nodup := ?_ }
  · intro k hk
    have hne : k ≠ id := (Nat.lt_of_lt_of_le (h.fresh.lt_nextTask ht) hk).ne'
    rw [Node.resume_tasks, if_neg hne]
    exact h.fresh k hk
  · exact fun k t' event' hk => h.reports k t' event' (hold hk).2
  · exact fun k x hk => h.task_active k x (hsends hk).2
  · intro event' h'
    rcases List.mem_append.mp h' with h' | h'
    · exact h.event_active event' h'
    · rw [List.mem_singleton.mp h']
      exact h.task_active id _ hown
  · exact fun k k' x hk hk' => h.task_unique k k' x (hsends hk).2 (hsends hk').2
  · intro k x hk event' h'
    obtain ⟨hne, hk⟩ := hsends hk
    rcases List.mem_append.mp h' with h' | h'
    · exact h.task_event k x hk event' h'
    · rw [List.mem_singleton.mp h']
      rintro rfl
      exact hne (h.task_unique k id _ hk hown)
  · show ((node.commitProcEvents ++ [event]).map CommitProcedureEvent.tradeId).Nodup
    rw [List.map_append, List.nodup_append]
    refine ⟨h.events_nodup, List.nodup_singleton _, ?_⟩
    rintro x hx y hy rfl
    obtain ⟨event', h', hx'⟩ := List.mem_map.mp hx
    have hy' : x = event.tradeId := by simpa using hy
    exact h.task_event id _ hown event' h' (hx'.trans hy')

theorem sending (h : SendSlots node) {t : Trade} (ht : t.id ∉ node.activeSendCommitProc) :
    SendSlots (node.sending t) := by
  have hold : ∀ {k task}, (node.sending t).tasks k = some task →
      k = node.nextTask ∧ task = .send t .starting ∨ node.tasks k = some task := by
    intro k task hk
    have hk' : (if k = node.nextTask then some (.send t .starting) else node.tasks k) = some task :=
      (Node.spawn_tasks _ _ _).symm.trans hk
    split at hk'
    · rename_i heq
      exact .inl ⟨heq, (Option.some.inj hk').symm⟩
    · exact .inr hk'
  have hsends : ∀ {k x}, (node.sending t).Sends k x →
      k = node.nextTask ∧ x = t.id ∨ node.Sends k x := by
    rintro k x ⟨t', stage, hk, rfl⟩
    rcases hold hk with ⟨rfl, heq⟩ | hk
    · cases heq
      exact .inl ⟨rfl, rfl⟩
    · exact .inr ⟨t', stage, hk, rfl⟩
  have hnew : ∀ {k}, ¬ node.Sends k t.id := fun hk => ht (h.task_active _ _ hk)
  refine { fresh := ?_, reports := ?_, task_active := ?_, event_active := ?_, task_unique := ?_,
           task_event := ?_, events_nodup := h.events_nodup }
  · exact Node.Fresh.spawn h.fresh _
  · intro k t' event hk
    rcases hold hk with ⟨-, heq⟩ | hk
    · cases heq
    · exact h.reports k t' event hk
  · intro k x hk
    rcases hsends hk with ⟨-, rfl⟩ | hk
    · exact Finset.mem_insert_self _ _
    · exact Finset.mem_insert_of_mem (h.task_active k x hk)
  · exact fun event he => Finset.mem_insert_of_mem (h.event_active event he)
  · intro k k' x hk hk'
    rcases hsends hk with ⟨rfl, rfl⟩ | hk
    · rcases hsends hk' with ⟨rfl, -⟩ | hk'
      · rfl
      · exact absurd hk' hnew
    · rcases hsends hk' with ⟨rfl, rfl⟩ | hk'
      · exact absurd hk hnew
      · exact h.task_unique k k' x hk hk'
  · intro k x hk event he
    rcases hsends hk with ⟨-, rfl⟩ | hk
    · rintro heq
      exact ht (heq ▸ h.event_active event he)
    · exact h.task_event k x hk event he

/-- Every step keeps the slots. -/
theorem step (h : SendSlots node) : SendSlots (node.step env input) := by
  have hfresh : (node.step env input).Fresh := h.fresh.step
  have hreports : ∀ k t event, (node.step env input).tasks k = some (.send t (.reporting event)) →
      event.tradeId = t.id := fun k t event => step_reports h.reports
  have hsends : input ≠ .tick → ∀ k x, (node.step env input).Sends k x → node.Sends k x :=
    fun hi k x => step_sends hi
  obtain ⟨commands, he⟩ : ∃ commands, Effect env node input (node.step env input) commands :=
    ⟨_, step_effect node input⟩
  generalize node.step env input = node' at he hfresh hreports hsends
  cases he with
  | tick =>
    exact Node.handleTick_rule SendSlots h fun n t hn _ _ _ ht => hn.sending ht
  | consume he => exact h.consume he
  | report ht => exact h.report ht
  | @record input _ _ _ _ =>
    by_cases hi : input = .tick
    · exact h.of_sends hfresh hreports (fun k x hk => hk) rfl rfl
    · exact h.of_sends hfresh hreports (hsends hi) rfl rfl
  | iWant sender rid i => exact h.of_sends hfresh hreports (hsends (by simp)) rfl rfl
  | startCommit sender rid t => exact h.of_sends hfresh hreports (hsends (by simp)) rfl rfl
  | refuse _ _ => exact h.of_sends hfresh hreports (hsends (by simp)) rfl rfl
  | accept _ _ _ => exact h.of_sends hfresh hreports (hsends (by simp)) rfl rfl
  | post _ _ _ => exact h.of_sends hfresh hreports (hsends (by simp)) rfl rfl
  | process _ => exact h.of_sends hfresh hreports (hsends (by simp)) rfl rfl
  | examine _ _ _ _ _ _ _ => exact h.of_sends hfresh hreports (hsends (by simp)) rfl rfl
  | abandon _ _ _ => exact h.of_sends hfresh hreports (hsends (by simp)) rfl rfl
  | finish _ => exact h.of_sends hfresh hreports (hsends (by simp)) rfl rfl
  | request _ _ => exact h.of_sends hfresh hreports (hsends (by simp)) rfl rfl
  | expect _ _ => exact h.of_sends hfresh hreports (hsends (by simp)) rfl rfl
  | sent _ => exact h.of_sends hfresh hreports (hsends (by simp)) rfl rfl
  | unsent _ => exact h.of_sends hfresh hreports (hsends (by simp)) rfl rfl
  | findsIWant _ _ => exact h.of_sends hfresh hreports (hsends (by simp)) rfl rfl
  | wants _ => exact h.of_sends hfresh hreports (hsends (by simp)) rfl rfl
  | opens _ _ => exact h.of_sends hfresh hreports (hsends (by simp)) rfl rfl
  | opened _ => exact h.of_sends hfresh hreports (hsends (by simp)) rfl rfl
  | serve _ _ _ _ => exact h.of_sends hfresh hreports (hsends (by simp)) rfl rfl

end SendSlots

end Dse
