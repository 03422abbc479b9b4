import Dse.Node.Proofs.TaskProofs

/-!
# The commit gate

A `verify` looks whether its commit is valid for its trade, and goes on in either case. The
observer `Verification.note` keeps the verifications that began with a valid commit. In a run in
which no verification begins with an invalid one, a stored trade comes to `PSendT1Commit`,
`RSendT2Commit` or `PFulfillService` only at the end of a verification that the observer has kept.
-/

namespace Dse

open Storage

variable {Hash : Type} (env : Env Hash)

/-! ## Statuses -/

namespace TradeStatus

/-- The status a trade is verified in before it comes to a gated one. -/
def gate : TradeStatus → Option TradeStatus
  | .pSendT1Commit => some .waitingRT1Commit
  | .rSendT2Commit => some .waitingPT1Commit
  | .pFulfillService => some .waitingRT2Commit
  | _ => none

/-- The statuses that a trade was verified in on its way to a status. -/
def verified : TradeStatus → List TradeStatus
  | .processingRT1Commit | .pSendT1Commit | .waitingRT2Commit => [.waitingRT1Commit]
  | .processingRT2Commit | .pFulfillService => [.waitingRT1Commit, .waitingRT2Commit]
  | .processingPT1Commit | .rSendT2Commit | .waitingForService => [.waitingPT1Commit]
  | _ => []

theorem mem_verified_toProcessing {s w : TradeStatus} (h : w ∈ s.toProcessing.verified) :
    w ∈ s.verified ∨ w = s := by
  cases s <;> revert h <;> simp [verified, toProcessing] <;> tauto

theorem verified_toSend (s : TradeStatus) : s.toSend.verified = s.verified := by
  cases s <;> rfl

theorem verified_toWaiting (s : TradeStatus) : s.toWaiting.verified = s.verified := by
  cases s <;> rfl

theorem gate_toProcessing {s : TradeStatus} (h : s.IsAwaited) : s.toProcessing.gate = none := by
  rcases h with rfl | rfl | rfl <;> rfl

theorem gate_toProcessing_toSend {s : TradeStatus} (h : s.IsAwaited) :
    s.toProcessing.toSend.gate = some s := by
  rcases h with rfl | rfl | rfl <;> rfl

theorem gate_toWaiting {t : Trade} (h : t.isSendingStatus = true) :
    t.status.toWaiting.gate = none := by
  rcases Trade.isSendingStatus_iff.mp h with h | h | h <;> rw [h] <;> rfl

end TradeStatus

/-! ## Verifications -/

/-- A `verify` with the commit and the trade it begins with. -/
structure Verification where
  task : ℕ
  commit : Commit
  trade : Trade
deriving DecidableEq

namespace Verification

/-- The commit is valid for the trade, by the chain's word on the owner of its wallet. -/
def IsValid (v : Verification) : Prop :=
  v.commit.isCommitValid env v.trade (env.ownerAddress v.commit.walletAddress) env.selfAddress = true

instance (v : Verification) : Decidable (v.IsValid env) := instDecidableEqBool _ _

/-- The verification that a step begins. -/
def ofStep (node : Node) : Input → Option Verification
  | .task id .run =>
    match node.tasks id with
    | some (.verify commit trade .processing) => some ⟨id, commit, trade⟩
    | _ => none
  | _ => none

/-- The observer: a verification that begins with a valid commit is kept. -/
def note (log : List Verification) (node : Node) (input : Input) : List Verification :=
  match (ofStep node input).filter fun v => decide (v.IsValid env) with
  | some v => v :: log
  | none => log

/-- The verification that the step begins, if it begins one, has a valid commit. -/
def BeginsValid (node : Node) (input : Input) : Prop :=
  ∀ v, ofStep node input = some v → v.IsValid env

instance (node : Node) (input : Input) : Decidable (BeginsValid env node input) :=
  decidable_of_iff (∀ v ∈ ofStep node input, v.IsValid env) Iff.rfl

variable {env}

theorem note_mono {log : List Verification} {node : Node} {input : Input} {v : Verification}
    (h : v ∈ log) : v ∈ note env log node input := by
  unfold note
  split
  · exact List.mem_cons_of_mem _ h
  · exact h

theorem valid_of_mem_note {log : List Verification} {node : Node} {input : Input}
    (h : ∀ v ∈ log, v.IsValid env) : ∀ v ∈ note env log node input, v.IsValid env := by
  intro v hv
  unfold note at hv
  split at hv
  · rename_i v' hv'
    rcases List.mem_cons.mp hv with rfl | hv
    · exact of_decide_eq_true (Option.filter_eq_some_iff.mp hv').2
    · exact h v hv
  · exact h v hv

theorem mem_note {log : List Verification} {node : Node} {id : ℕ} {commit : Commit} {t : Trade}
    (h : node.tasks id = some (.verify commit t .processing))
    (hv : BeginsValid env node (.task id .run)) :
    ⟨id, commit, t⟩ ∈ note env log node (.task id .run) := by
  have hof : ofStep node (.task id .run) = some ⟨id, commit, t⟩ := by simp only [ofStep, h]
  have hvalid := hv _ hof
  unfold note
  rw [hof, Option.filter_some, if_pos (decide_eq_true hvalid)]
  exact List.mem_cons_self

end Verification

/-! ## The gate -/

/-- A step that stores a trade in a gated status ends a verification that is in the log, and whose
commit was valid for the trade in the status before. -/
def Gated (log : List Verification) (node : Node) (input : Input) : Prop :=
  ∀ iid t w, (node.step env input).storage.findActiveTrade iid = some t → t.status.gate = some w →
    node.storage.findActiveTrade iid ≠ some t →
    ∃ id commit t₀, input = .task id .run ∧ node.tasks id = some (.verify commit t₀ .finishing) ∧
      ⟨id, commit, t.updateStatus w⟩ ∈ log ∧
      (⟨id, commit, t.updateStatus w⟩ : Verification).IsValid env

/-- What is known of a task: a verification beyond its beginning is in the log. -/
def Task.Checked (log : List Verification) (id : ℕ) : Task → Prop
  | .verify _ t .processing => t.status.IsAwaited
  | .verify commit t _ =>
    ∃ w, w.IsAwaited ∧ t.status = w.toProcessing ∧ ⟨id, commit, t.updateStatus w⟩ ∈ log
  | .send _ (.reporting _) => True
  | .send t _ => t.isSendingStatus = true
  | .post (.startCommitRequested t) => t.status = .waitingRT1Commit
  | .post _ => True

theorem Task.checked_verify {log : List Verification} {id : ℕ} {commit : Commit} {t : Trade}
    {stage : VerifyStage} (h : stage ≠ .processing) :
    (Task.verify commit t stage).Checked log id ↔
      ∃ w, w.IsAwaited ∧ t.status = w.toProcessing ∧ ⟨id, commit, t.updateStatus w⟩ ∈ log := by
  cases stage with
  | processing => exact absurd rfl h
  | _ => rfl

/-- Every task is checked. -/
def TasksChecked (log : List Verification) (node : Node) : Prop :=
  ∀ id k, node.tasks id = some k → k.Checked log id

variable {env} {log : List Verification} {node : Node} {input : Input}

theorem Task.Checked.note {id : ℕ} {k : Task} (h : k.Checked log id) :
    k.Checked (Verification.note env log node input) id := by
  cases k with
  | verify commit t stage =>
    by_cases hstage : stage = .processing
    · subst hstage
      exact h
    · rw [Task.checked_verify hstage] at h ⊢
      obtain ⟨w, hw, hs, hmem⟩ := h
      exact ⟨w, hw, hs, Verification.note_mono hmem⟩
  | send t stage => cases stage <;> exact h
  | post stage => cases stage <;> exact h

theorem TasksChecked.step (h : TasksChecked log node)
    (hv : Verification.BeginsValid env node input) :
    TasksChecked (Verification.note env log node input) (node.step env input) := by
  intro id k hk
  rcases step_task hk with hk | hk
  · exact (h id k hk).note
  · cases hk with
    | accept hr hf hp => exact ExchangeRequest.isAwaited hr
    | tick _ hf ht => exact ht
    | @post message _ stage hs hi =>
      cases stage with
      | startCommitRequested t => exact absurd rfl (hs t)
      | _ => trivial
    | @process _ commit t hbegin =>
      have hw : t.status.IsAwaited := h id _ hbegin
      exact ⟨t.status, hw, rfl, Verification.mem_note hbegin hv⟩
    | examine hold h1 h2 h3 h4 =>
      have hold' := h id _ hold
      rw [Task.checked_verify h1] at hold'
      rw [Task.checked_verify h3]
      obtain ⟨w, hw, hs, hmem⟩ := hold'
      exact ⟨w, hw, hs, Verification.note_mono hmem⟩
    | request hold => exact (h id _ hold :)
    | sent hold => trivial
    | unsent hold => trivial
    | findsIWant hold hi => trivial
    | opens hold => rfl
    | @serve _ _ _ stage' hold hs hi =>
      cases stage' with
      | startCommitRequested t => exact absurd rfl (hs t)
      | _ => trivial

/-- The gate holds at every step. -/
theorem TasksChecked.gated (h : TasksChecked log node) (hvalid : ∀ v ∈ log, v.IsValid env) :
    Gated env log node input := by
  intro iid t w ht hw hnew
  rcases step_stored ht with hold | hwritten
  · exact absurd hold hnew
  · cases hwritten with
    | startCommit sender rid t => cases hw
    | process hbegin =>
      have hgate := TradeStatus.gate_toProcessing (h _ _ hbegin)
      rw [Trade.updateStatus_status, hgate] at hw
      cases hw
    | @finish id commit t₀ hend =>
      obtain ⟨w', hw', hs, hmem⟩ := h id _ hend
      have hgate := TradeStatus.gate_toProcessing_toSend hw'
      rw [Trade.updateStatus_status, hs, hgate] at hw
      cases hw
      exact ⟨id, commit, t₀, rfl, hend, hmem, hvalid _ hmem⟩
    | sent hold =>
      have hgate := TradeStatus.gate_toWaiting (h _ _ hold :)
      rw [Trade.updateStatus_status, hgate] at hw
      cases hw
    | opened hold =>
      have hs : t.status = .waitingRT1Commit := h _ _ hold
      rw [hs] at hw
      cases hw

/-! ## What a trade has behind it -/

/-- Every verification the trade must have gone through is in the log. -/
def Vouched (log : List Verification) (t : Trade) : Prop :=
  ∀ w ∈ t.status.verified, ∃ v ∈ log, v.trade.id = t.id ∧ v.trade.status = w

/-- The trade that a task works on. -/
def Task.trade? : Task → Option Trade
  | .verify _ t _ => some t
  | .send t _ => some t
  | .post (.startCommitRequested t) => some t
  | .post _ => none

/-- All copies of the trade `iid` are vouched for. -/
structure VouchedCopies (iid : U32) (x : List Verification × Node) : Prop where
  stored : ∀ t, x.2.storage.findActiveTrade iid = some t → Vouched x.1 t
  tasks : ∀ id k t, x.2.tasks id = some k → k.trade? = some t → t.id = iid → Vouched x.1 t

theorem Vouched.note {t : Trade} (h : Vouched log t) :
    Vouched (Verification.note env log node input) t := by
  intro w hw
  obtain ⟨v, hv, hid, hs⟩ := h w hw
  exact ⟨v, Verification.note_mono hv, hid, hs⟩

theorem Vouched.of_verified {t t' : Trade} (h : Vouched log t) (hid : t'.id = t.id)
    (hv : t'.status.verified = t.status.verified) : Vouched log t' := by
  intro w hw
  rw [hv] at hw
  rw [hid]
  exact h w hw

theorem vouched_of_verified_eq_nil {t : Trade} (h : t.status.verified = []) : Vouched log t := by
  intro w hw
  rw [h] at hw
  cases hw

theorem Vouched.process {id : ℕ} {commit : Commit} {t : Trade} (h : Vouched log t)
    (hbegin : node.tasks id = some (.verify commit t .processing))
    (hv : Verification.BeginsValid env node (.task id .run)) :
    Vouched (Verification.note env log node (.task id .run))
      (t.updateStatus t.status.toProcessing) := by
  intro w hw
  rcases TradeStatus.mem_verified_toProcessing hw with hw | rfl
  · exact (h.note :) w hw
  · exact ⟨_, Verification.mem_note hbegin hv, rfl, rfl⟩

variable {iid : U32}

theorem VouchedCopies.step (h : VouchedCopies iid (log, node))
    (hv : Verification.BeginsValid env node input) :
    VouchedCopies iid (Verification.note env log node input, node.step env input) := by
  constructor
  · intro t ht
    show Vouched (Verification.note env log node input) t
    have hid := findActiveTrade_id ht
    rcases step_stored ht with ht | ht
    · exact (h.stored t ht).note
    · cases ht with
      | startCommit sender rid t => exact vouched_of_verified_eq_nil rfl
      | process hbegin => exact (h.tasks _ _ _ hbegin rfl hid).process hbegin hv
      | finish hend =>
        exact Vouched.note (Vouched.of_verified (h.tasks _ _ _ hend rfl hid) rfl
          (TradeStatus.verified_toSend _))
      | sent hold =>
        exact Vouched.note (.of_verified (h.tasks _ _ _ hold rfl hid) rfl
          (TradeStatus.verified_toWaiting _))
      | opened hold => exact (h.tasks _ _ _ hold rfl hid).note
  · intro id k t hk ht hid
    show Vouched (Verification.note env log node input) t
    rcases step_task hk with hk | hk
    · exact (h.tasks id k t hk ht hid).note
    · cases hk with
      | accept hr hf hp =>
        cases ht
        subst hid
        exact (h.stored _ hf).note
      | tick _ hf hs =>
        cases ht
        subst hid
        exact (h.stored _ hf).note
      | @post message _ stage hs hi =>
        cases stage with
        | startCommitRequested t => exact absurd rfl (hs t)
        | _ => cases ht
      | process hbegin =>
        cases ht
        exact (h.tasks _ _ _ hbegin rfl hid).process hbegin hv
      | examine hold h1 h2 h3 h4 =>
        cases ht
        exact (h.tasks _ _ _ hold rfl hid).note
      | request hold =>
        cases ht
        exact (h.tasks _ _ _ hold rfl hid).note
      | sent hold =>
        cases ht
        exact Vouched.note (.of_verified (h.tasks _ _ _ hold rfl hid) rfl
          (TradeStatus.verified_toWaiting _))
      | unsent hold =>
        cases ht
        exact (h.tasks _ _ _ hold rfl hid).note
      | findsIWant hold hi => cases ht
      | opens hold =>
        cases ht
        exact vouched_of_verified_eq_nil rfl
      | @serve _ _ _ stage' hold hs hi =>
        cases stage' with
        | startCommitRequested t => exact absurd rfl (hs t)
        | _ => cases ht

/-! ## Runs -/

/-- What holds of an observed node at every step. -/
structure GateInv (env : Env Hash) (x : List Verification × Node) : Prop where
  valid : ∀ v ∈ x.1, v.IsValid env
  checked : TasksChecked x.1 x.2

theorem gateInv_start (env : Env Hash) (storage : Storage) : GateInv env ([], .start storage) :=
  ⟨fun _ h => absurd h List.not_mem_nil, fun _ _ hk => nomatch hk⟩

theorem GateInv.step {x : List Verification × Node} (h : GateInv env x)
    (hv : Verification.BeginsValid env x.2 input) :
    GateInv env (Run.watch (Node.step env) (Verification.note env) x input) :=
  ⟨Verification.valid_of_mem_note h.valid, h.checked.step hv⟩

/-- The observed run of a node that was just started. -/
def Node.verifying (env : Env Hash) (storage : Storage) (inputs : List Input) :
    List Verification × Node :=
  Run.final (Run.watch (Node.step env) (Verification.note env)) ([], .start storage) inputs

theorem Node.verifying_snd (storage : Storage) (inputs : List Input) :
    (Node.verifying env storage inputs).2 = Node.run env (.start storage) inputs :=
  Run.final_watch_snd _ _

/-- In a run in which no verification begins with an invalid commit, the gate holds at every step,
and a trade that had no verification behind it at the start comes to `PFulfillService` only with a
valid commit for `WaitingRT1Commit` and one for `WaitingRT2Commit`. -/
theorem commit_gate (storage : Storage) (inputs : List Input)
    (hvalid : Run.Always (Node.step env) (Verification.BeginsValid env) (.start storage) inputs) :
    Run.Always (Run.watch (Node.step env) (Verification.note env))
        (fun x input => Gated env x.1 x.2 input) ([], .start storage) inputs ∧
      ∀ iid, (∀ t, storage.findActiveTrade iid = some t → t.status.verified = []) →
        ∀ t, (Node.run env (.start storage) inputs).storage.findActiveTrade iid = some t →
          t.status = .pFulfillService →
          (∃ v ∈ (Node.verifying env storage inputs).1,
            v.IsValid env ∧ v.trade.id = iid ∧ v.trade.status = .waitingRT1Commit) ∧
          ∃ v ∈ (Node.verifying env storage inputs).1,
            v.IsValid env ∧ v.trade.id = iid ∧ v.trade.status = .waitingRT2Commit := by
  have hwatched : Run.Always (Run.watch (Node.step env) (Verification.note env))
      (fun x input => Verification.BeginsValid env x.2 input) ([], .start storage) inputs :=
    (Run.always_watch (Verification.BeginsValid env) ([], .start storage) inputs).mpr hvalid
  constructor
  · exact Run.always_of_inv (fun _ _ hx hok => hx.step hok)
      (fun _ _ hx _ => hx.checked.gated hx.valid) (gateInv_start env storage) hwatched
  · intro iid hstart t ht hs
    have hinv : GateInv env (Node.verifying env storage inputs) :=
      Run.final_inv (fun _ _ hx hok => hx.step hok) (gateInv_start env storage) hwatched
    have hcopies : VouchedCopies iid (Node.verifying env storage inputs) :=
      Run.final_inv (fun _ _ hx hok => hx.step hok)
        ⟨fun t ht => vouched_of_verified_eq_nil (hstart t ht), fun _ _ _ hk => nomatch hk⟩ hwatched
    rw [← Node.verifying_snd] at ht
    have hback := hcopies.stored t ht
    have hid := findActiveTrade_id ht
    subst hid
    constructor
    · obtain ⟨v, hv, hid, hs⟩ := hback .waitingRT1Commit (by simp [hs, TradeStatus.verified])
      exact ⟨v, hv, hinv.valid v hv, hid, hs⟩
    · obtain ⟨v, hv, hid, hs⟩ := hback .waitingRT2Commit (by simp [hs, TradeStatus.verified])
      exact ⟨v, hv, hinv.valid v hv, hid, hs⟩

/-- A trade that comes to its service with two valid commits. -/
def serviceInputs : List Input :=
  [.network (.exchangeRequest ⟨[2]⟩ 0 (.t1RequesterCommit 6 (plainCommit 6)))] ++ verifyInputs 0 ++
    [.tick, .task 1 .run, .task 1 (.exchange (some .ack)), .task 1 .run, .commitProcEvent,
      .network (.exchangeRequest ⟨[2]⟩ 1 (.t2RequesterCommit 6 (plainCommit 6)))] ++ verifyInputs 2

theorem commit_gate_serviceInputs :
    (∃ v ∈ (Node.verifying plainEnv tradingStorage serviceInputs).1,
      v.IsValid plainEnv ∧ v.trade.id = 6 ∧ v.trade.status = .waitingRT1Commit) ∧
    ∃ v ∈ (Node.verifying plainEnv tradingStorage serviceInputs).1,
      v.IsValid plainEnv ∧ v.trade.id = 6 ∧ v.trade.status = .waitingRT2Commit := by
  refine (commit_gate tradingStorage serviceInputs (by decide +kernel)).2 6 ?_
    (plainTrade .pFulfillService false) (by decide +kernel) rfl
  intro t ht
  have hstored : tradingStorage.findActiveTrade 6 = some (plainTrade .waitingRT1Commit false) := by
    decide +kernel
  cases hstored.symm.trans ht
  rfl

/-- A commit that nobody signed, on its way to the end of its `verify`. -/
def forgedInputs : List Input :=
  [.network (.exchangeRequest ⟨[2]⟩ 0
      (.t1RequesterCommit 6 { plainCommit 6 with signature := none })),
    .task 0 .run, .task 0 .run, .task 0 (.providers none), .task 0 .run, .task 0 .run]

/-- The commit that nobody signed takes the trade to `PSendT1Commit`. -/
theorem not_gated_forgedInputs :
    ¬ Run.Always (Run.watch (Node.step plainEnv) (Verification.note plainEnv))
      (fun x input => Gated plainEnv x.1 x.2 input) ([], .start tradingStorage)
      (forgedInputs ++ [.task 0 .run]) := by
  intro h
  obtain ⟨-, hgated⟩ := (Run.always_concat _ _ _).mp h
  obtain ⟨id, commit, t₀, -, -, hmem, -⟩ := hgated 6 (plainTrade .pSendT1Commit false)
    .waitingRT1Commit (by decide +kernel) rfl (by decide +kernel)
  have hlog : (Node.verifying plainEnv tradingStorage forgedInputs).1 = [] := by decide +kernel
  unfold Node.verifying at hlog
  rw [hlog] at hmem
  cases hmem

end Dse
