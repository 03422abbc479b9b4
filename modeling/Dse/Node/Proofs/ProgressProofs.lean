import Dse.Lib.Reach
import Dse.Node.Proofs.RestartProofs
import Dse.Node.Proofs.RotationProofs

/-!
# No trade is left behind

No load panics (`Load.Sound`), so a trade in a processing status has an open `verify`, and that
needs nothing from anybody to come to its end: where it waits for a call, the call can fail, and a
load whose requests all fail is over when it has nobody left to ask. A trade in a send status is
sent with a tick, once the report of an earlier `send` has been received; what it then waits for is
the response. So a node can always take such a trade on by itself, up to that response.
-/

namespace Dse

open Storage

variable {Hash : Type} {env : Env Hash} {node : Node} {input : Input} {x : U32} {t : Trade}

/-- Nobody else has answered: a call that needs a peer has failed, and no event has arrived. Whether
an exchange fails is left to the network as well. -/
def Answer.isOwn : Answer → Bool
  | .exchange _ => false
  | .commit response => response.isNone
  | .providers peers => peers.isNone
  | .event _ => false
  | .published ok => !ok
  | _ => true

/-- The node acts by itself: on no message, no post and no answer from anybody. -/
def Input.isOwn : Input → Bool
  | .network _ => false
  | .post _ => false
  | .task _ answer => answer.isOwn
  | _ => true

/-- The node acts by itself. -/
def Quiet (_ : Node) (input : Input) : Prop := input.isOwn = true

/-! ## Loads that do not panic -/

/-- The load asks the peers of some sequence one after the other. -/
def Load.Sound (load : Load) : Prop :=
  load = .providers ∨ ∃ peers asked, LoadProgress.Follows peers asked (.goesOn load)

/-- A load of the stage is sound. -/
def VerifyStage.Sound : VerifyStage → Prop
  | .loading load => load.Sound
  | _ => True

namespace Load.Sound

/-- A step of a sound load leaves a sound one, or is its last, and does not panic. -/
theorem step {load : Load} (h : load.Sound) (env : Env Hash) (wallet : Address)
    (s : Storage) (answer : Answer) :
    (∃ load', (loadStep env wallet s load answer).2.1 = .goesOn load' ∧ load'.Sound) ∨
      ∃ ok, (loadStep env wallet s load answer).2.1 = .returned ok := by
  rcases h with rfl | ⟨peers, asked, h⟩
  · cases answer with
    | providers peers =>
      cases peers with
      | none => exact .inr ⟨false, rfl⟩
      | some peers =>
        have hresults := LoadingState.results_start peers
        exact .inl ⟨_, rfl, .inr ⟨_, [], rfl, congrArg (Option.map List.reduceOption) hresults⟩⟩
    | _ => exact .inl ⟨_, rfl, .inl rfl⟩
  · have hfollows : LoadProgress.Follows peers (LoadProgress.note env wallet asked (.goesOn load)
        (s, answer)) (loadStep env wallet s load answer).2.1 := h.step (s, answer)
    cases hprogress : (loadStep env wallet s load answer).2.1 with
    | goesOn load' => exact .inl ⟨load', rfl, .inr ⟨_, _, hprogress ▸ hfollows⟩⟩
    | returned ok => exact .inr ⟨ok, rfl⟩
    | panicked =>
      rw [hprogress] at hfollows
      exact hfollows.elim

variable {st : LoadingState} {epoch : U256} {ownerAddress : Address}

/-- A sound load in its `select!` comes to the end of its peers. -/
theorem selecting (h : Load.Sound (.selecting st epoch ownerAddress)) :
    ∃ results, st.results = some results := by
  rcases h with h | ⟨peers, asked, h⟩
  · cases h
  · obtain ⟨results, hresults, -⟩ := Option.map_eq_some_iff.mp h
    exact ⟨results, hresults⟩

/-- One that waits for a response has the same peers left to ask. -/
theorem requesting (h : Load.Sound (.requesting st epoch ownerAddress)) :
    Load.Sound (.selecting st epoch ownerAddress) := by
  rcases h with h | h
  · cases h
  · exact .inr h

end Load.Sound

/-! ## A `verify` to its end -/

theorem step_verify {k : ℕ} {commit : Commit} {stage : VerifyStage}
    (hk : node.tasks k = some (.verify commit t stage)) (answer : Answer) :
    node.step env (.task k answer) =
      node.resume k (verifyStep env commit t node.storage stage answer).storage
        ((verifyStep env commit t node.storage stage answer).next.map
          fun (trade, stage) => .verify commit trade stage) := by
  unfold Node.step Node.act Node.handleTask
  dsimp only
  rw [hk]

/-- The task `k` verifies the trade as it is stored. -/
structure Verifies (x : U32) (k : ℕ) (commit : Commit) (t : Trade) (stage : VerifyStage)
    (node : Node) : Prop where
  task : node.tasks k = some (.verify commit t stage)
  stored : node.storage.findActiveTrade x = some t

/-- The `verify` comes to its end. -/
def Sendable (env : Env Hash) (x : U32) (t : Trade) (node : Node) : Prop :=
  Run.Reaches (Node.step env) Quiet node fun n =>
    n.storage.findActiveTrade x = some (t.updateStatus t.status.toSend)

namespace Verifies

variable {k : ℕ} {commit : Commit} {stage stage' : VerifyStage}

/-- One stage on, without a change to the trades. -/
theorem on (h : Verifies x k commit t stage node) (answer : Answer)
    (ha : (Input.task k answer).isOwn = true)
    {s' : Storage} {commands : List Command}
    (hstep : verifyStep env commit t node.storage stage answer =
      { storage := s', next := some (t, stage'), commands })
    (hs : SameTrades node.storage s')
    (hnext : Verifies x k commit t stage' (node.step env (.task k answer)) →
      Sendable env x t (node.step env (.task k answer))) : Sendable env x t node := by
  refine .head (i := .task k answer) ha (hnext ⟨?_, ?_⟩)
  · rw [step_verify h.task, hstep, Node.resume_tasks, if_pos rfl]
    rfl
  · rw [step_verify h.task, hstep, Node.resume_storage, hs.trade]
    exact h.stored

theorem finishing (h : Verifies x k commit t .finishing node) : Sendable env x t node := by
  refine .one (i := .task k .run) rfl ?_
  rw [step_verify h.task]
  exact findActiveTrade_update_stored h.stored _

theorem checking (h : Verifies x k commit t .checking node) : Sendable env x t node :=
  h.on .run rfl rfl (.refl _) finishing

theorem adding (h : Verifies x k commit t .adding node) : Sendable env x t node :=
  h.on .run rfl rfl (onlyRecords_addWalletOfInterest _ _).toSameTrades checking

/-- Asking the next peer fails, and there is one request less to make. -/
theorem asking {st st' : LoadingState} {epoch : U256} {ownerAddress : Address} {peerId : PeerId}
    (h : Verifies x k commit t (.loading (.selecting st epoch ownerAddress)) node)
    (hended : st.state ≠ .ended) (hquery : st.queryFrom = some (st', some peerId))
    (hnext : ∀ {n}, Verifies x k commit t (.loading (.selecting st' epoch ownerAddress)) n →
      Sendable env x t n) : Sendable env x t node := by
  have htick : verifyStep env commit t node.storage (.loading (.selecting st epoch ownerAddress))
      (.interval true) =
        { storage := node.storage
          next := some (t, .loading (.requesting st' epoch ownerAddress))
          commands := [.sendCommitRequest peerId (.wantHistory commit.walletAddress)] } := by
    simp [verifyStep, loadStep, hended, hquery]
  exact h.on (.interval true) rfl htick (.refl _) fun h =>
    h.on (.commit none) rfl rfl (.refl _) hnext

/-- A load in its `select!`, left alone, asks everybody it has left to ask and is over then. -/
theorem selecting {st : LoadingState} {epoch : U256} {ownerAddress : Address}
    {results : List (Option PeerId)} (hresults : st.results = some results)
    (h : Verifies x k commit t (.loading (.selecting st epoch ownerAddress)) node) :
    Sendable env x t node := by
  induction results generalizing st node with
  | nil =>
    rcases LoadingState.results_cases hresults with ⟨_, -, heq⟩ | ⟨_, _, _, -, -, heq⟩ <;> cases heq
  | cons result results ih =>
    by_cases hended : st.state = .ended
    · exact h.on (.interval true) rfl (by simp only [verifyStep, loadStep, if_pos hended]; rfl)
        (.refl _) adding
    · rcases LoadingState.results_cases hresults with
        ⟨st', hquery, -⟩ | ⟨st', peerId, results', hquery, hresults', heq⟩
      · have htick : verifyStep env commit t node.storage
            (.loading (.selecting st epoch ownerAddress)) (.interval true) =
              { storage := node.storage, next := some (t, .adding), commands := [] } := by
          simp [verifyStep, loadStep, hended, hquery]
        exact h.on (.interval true) rfl htick (.refl _) adding
      · obtain ⟨rfl, rfl⟩ := List.cons.inj heq
        exact h.asking hended hquery fun h => ih hresults' h

theorem loading {load : Load} (hload : load.Sound)
    (h : Verifies x k commit t (.loading load) node) : Sendable env x t node := by
  cases load with
  | providers => exact h.on (.providers none) rfl rfl (.refl _) adding
  | subscribing peers epoch ownerAddress =>
    exact h.on (.subscribed false) rfl rfl (.refl _) adding
  | selecting st epoch ownerAddress =>
    obtain ⟨results, hresults⟩ := hload.selecting
    exact h.selecting hresults
  | requesting st epoch ownerAddress =>
    obtain ⟨results, hresults⟩ := hload.requesting.selecting
    exact h.on (.commit none) rfl rfl (.refl _) (selecting hresults)

theorem tracking (h : Verifies x k commit t .tracking node) : Sendable env x t node := by
  by_cases hw : commit.walletAddress ∈ node.storage.getWalletsOfInterest
  · exact h.on .run rfl (by simp only [verifyStep, if_pos hw]; rfl) (.refl _) checking
  · exact h.on .run rfl (by simp only [verifyStep, if_neg hw]; rfl) (.refl _)
      (loading (.inl rfl))

/-- A `verify` that has begun comes to its end by itself, wherever it stands. -/
theorem sendable (h : Verifies x k commit t stage node) (hstage : stage ≠ .processing)
    (hsound : stage.Sound) : Sendable env x t node := by
  cases stage with
  | processing => exact absurd rfl hstage
  | tracking => exact h.tracking
  | loading load => exact h.loading hsound
  | adding => exact h.adding
  | checking => exact h.checking
  | finishing => exact h.finishing

/-- One that has not begun takes the trade to a processing status first. -/
theorem processing (h : Verifies x k commit t .processing node) :
    Verifies x k commit (t.updateStatus t.status.toProcessing) .tracking
      (node.step env (.task k .run)) := by
  constructor
  · rw [step_verify h.task, Node.resume_tasks, if_pos rfl]
    rfl
  · rw [step_verify h.task]
    exact findActiveTrade_update_stored h.stored _

end Verifies

/-! ## The `verify` of a trade in a processing status -/

namespace TradeStatus

variable {s : TradeStatus}

theorem not_isProcessing_toSend : ¬ s.toSend.IsProcessing := by
  cases s <;> rintro (h | h | h) <;> cases h

theorem not_isProcessing_rSendT1Commit : ¬ TradeStatus.rSendT1Commit.IsProcessing := by
  rintro (h | h | h) <;> cases h

theorem not_isProcessing_waitingRT1Commit : ¬ TradeStatus.waitingRT1Commit.IsProcessing := by
  rintro (h | h | h) <;> cases h

end TradeStatus

theorem Trade.not_isProcessing_toWaiting (h : t.isSendingStatus = true) :
    ¬ t.status.toWaiting.IsProcessing := by
  rcases Trade.isSendingStatus_iff.mp h with h | h | h <;> rw [h] <;>
    rintro (h | h | h) <;> cases h

/-- A task that does not panic. The copies that other tasks than a `verify` write back are in a send
status, or in the status in which a trade is opened. -/
def Task.Sound : Task → Prop
  | .verify _ _ stage => stage.Sound
  | .send t .starting => t.isSendingStatus = true
  | .send t .requested => t.isSendingStatus = true
  | .post (.startCommitRequested t) => t.status = .waitingRT1Commit
  | _ => True

/-- When it is stored in a processing status, the trade is the copy of a `verify` that has begun. -/
structure Tended (x : U32) (node : Node) : Prop where
  fresh : node.Fresh
  task : ∀ k task, node.tasks k = some task → task.Sound
  verified : ∀ t, node.storage.findActiveTrade x = some t → t.status.IsProcessing →
    ∃ k commit stage, node.tasks k = some (.verify commit t stage) ∧ stage ≠ .processing

theorem tended_start {storage : Storage}
    (h : ∀ t, storage.findActiveTrade x = some t → ¬ t.status.IsProcessing) :
    Tended x (.start storage) where
  fresh _ _ := rfl
  task _ _ hk := nomatch hk
  verified t ht hs := absurd hs (h t ht)

/-- A `verify` that has begun goes on with its copy, unless it comes to its end. -/
theorem verifyStep_next (env : Env Hash) (commit : Commit) (t : Trade) (s : Storage)
    {stage : VerifyStage} (h : stage ≠ .processing) (hs : stage.Sound) (answer : Answer) :
    (∃ stage', (verifyStep env commit t s stage answer).next = some (t, stage') ∧
        stage' ≠ .processing ∧ stage'.Sound) ∨
      (stage = .finishing ∧ answer = .run) := by
  cases stage with
  | processing => exact absurd rfl h
  | tracking =>
    cases answer with
    | run =>
      refine .inl ?_
      unfold verifyStep
      dsimp only
      split
      · exact ⟨_, rfl, nofun, trivial⟩
      · exact ⟨_, rfl, nofun, .inl rfl⟩
    | _ => exact .inl ⟨_, rfl, h, hs⟩
  | loading load =>
    refine .inl ?_
    have hload := Load.Sound.step hs env commit.walletAddress s answer
    unfold verifyStep
    dsimp only
    generalize loadStep env commit.walletAddress s load answer = o at hload ⊢
    obtain ⟨s', progress, commands⟩ := o
    rcases hload with ⟨load', heq, hsound⟩ | ⟨ok, heq⟩
    · obtain rfl : progress = .goesOn load' := heq
      exact ⟨_, rfl, nofun, hsound⟩
    · obtain rfl : progress = .returned ok := heq
      exact ⟨_, rfl, nofun, trivial⟩
  | adding =>
    cases answer with
    | run => exact .inl ⟨_, rfl, nofun, trivial⟩
    | _ => exact .inl ⟨_, rfl, h, hs⟩
  | checking =>
    cases answer with
    | run => exact .inl ⟨_, rfl, nofun, trivial⟩
    | _ => exact .inl ⟨_, rfl, h, hs⟩
  | finishing =>
    cases answer with
    | run => exact .inr ⟨rfl, rfl⟩
    | _ => exact .inl ⟨_, rfl, h, hs⟩

namespace Tended

theorem left (h : Tended x node) {k : ℕ} {task : Task} (hl : Left env node input k task)
    (hnext : (node.step env input).tasks k = some task) : task.Sound := by
  cases hl with
  | accept _ _ _ => trivial
  | tick _ _ ht => exact ht
  | @post _ _ stage hs _ =>
    cases stage with
    | startCommitRequested t => exact absurd rfl (hs t)
    | _ => trivial
  | process _ => trivial
  | @examine _ answer commit t stage stage' hk h1 h2 _ _ =>
    rw [step_verify hk, Node.resume_tasks, if_pos rfl] at hnext
    rcases verifyStep_next env commit t node.storage h1 (h.task _ _ hk) answer with
      ⟨stage'', heq, -, hsound⟩ | ⟨rfl, -⟩
    · rw [heq] at hnext
      cases hnext
      exact hsound
    · exact absurd rfl h2
  | request hk => exact (h.task _ _ hk :)
  | sent _ => trivial
  | unsent _ => trivial
  | findsIWant _ _ => trivial
  | opens _ => exact rfl
  | @serve _ _ _ stage' _ hs _ =>
    cases stage' with
    | startCommitRequested t => exact absurd rfl (hs t)
    | _ => trivial

/-- The trade that is stored before and after the step keeps its `verify`. -/
theorem keeps (h : Tended x node) (hold : node.storage.findActiveTrade x = some t)
    (hnew : (node.step env input).storage.findActiveTrade x = some t)
    (hs : t.status.IsProcessing) :
    ∃ k commit stage, (node.step env input).tasks k = some (.verify commit t stage) ∧
      stage ≠ .processing := by
  obtain ⟨k, commit, stage, hk, hstage⟩ := h.verified t hold hs
  by_cases hown : ∃ answer, input = .task k answer
  · obtain ⟨answer, rfl⟩ := hown
    rcases verifyStep_next env commit t node.storage hstage (h.task k _ hk) answer with
      ⟨stage', hnext, hstage', -⟩ | ⟨rfl, rfl⟩
    · refine ⟨k, commit, stage', ?_, hstage'⟩
      rw [step_verify hk, Node.resume_tasks, if_pos rfl, hnext]
      rfl
    · -- at its end it has written a send status
      rw [step_verify hk] at hnew
      have hwritten : some (t.updateStatus t.status.toSend) = some t :=
        (findActiveTrade_update_stored hold _).symm.trans hnew
      have hstatus := congrArg Trade.status (Option.some.inj hwritten)
      exact absurd hstatus.symm hs.later.2
  · exact ⟨k, commit, stage, step_tasks_of_ne h.fresh hk fun answer heq => hown ⟨answer, heq⟩,
      hstage⟩

/-- A trade that is written in a processing status is the copy of the `verify` that writes it. -/
theorem writes (h : Tended x node) (hw : Written node input t) (hs : t.status.IsProcessing) :
    ∃ k commit stage, (node.step env input).tasks k = some (.verify commit t stage) ∧
      stage ≠ .processing := by
  cases hw with
  | startCommit sender rid t' => exact absurd hs TradeStatus.not_isProcessing_rSendT1Commit
  | @process k commit t' hk =>
    refine ⟨k, commit, .tracking, ?_, nofun⟩
    rw [step_verify hk, Node.resume_tasks, if_pos rfl]
    rfl
  | finish hk => exact absurd hs TradeStatus.not_isProcessing_toSend
  | sent hk => exact absurd hs (Trade.not_isProcessing_toWaiting (h.task _ _ hk))
  | opened hk =>
    have hopen : t.status = .waitingRT1Commit := h.task _ _ hk
    rw [hopen] at hs
    exact absurd hs TradeStatus.not_isProcessing_waitingRT1Commit

/-- Every step keeps the invariant. -/
theorem step (h : Tended x node) : Tended x (node.step env input) where
  fresh := h.fresh.step
  task k task hk := by
    rcases step_task hk with hold | hleft
    · exact h.task k task hold
    · exact h.left hleft hk
  verified t ht hs := by
    rcases step_stored ht with hold | hw
    · exact h.keeps hold ht hs
    · exact h.writes hw hs

end Tended

/-! ## A `send` by the next tick -/

/-- The `send` of the trade, if one is open, has come to its report. -/
def Node.Idle (node : Node) (x : U32) : Prop :=
  ∀ k t stage, node.tasks k = some (.send t stage) → t.id = x → ∃ event, stage = .reporting event

/-- The indexer receives all reports on their way. -/
theorem reaches_received (env : Env Hash) (node : Node) :
    Run.Reaches (Node.step env) Quiet node fun n =>
      n.commitProcEvents = [] ∧ n.tasks = node.tasks ∧ n.storage = node.storage := by
  induction he : node.commitProcEvents generalizing node with
  | nil => exact .refl ⟨he, rfl, rfl⟩
  | cons event events ih =>
    refine .head (i := .commitProcEvent) rfl ?_
    rw [step_receive he]
    exact ih _ rfl

theorem step_report {k : ℕ} {event : CommitProcedureEvent}
    (hk : node.tasks k = some (.send t (.reporting event))) (he : node.commitProcEvents = []) :
    node.step env (.task k .run) =
      { node with commitProcEvents := [event] }.resume k node.storage none := by
  unfold Node.step Node.act Node.handleTask
  dsimp only
  rw [hk]
  dsimp only
  rw [if_pos ⟨rfl, by rw [he]; decide⟩, he]
  rfl

variable {n : Node}

/-- No `send` of the trade is left when its report has been received. -/
theorem OpenSlots.reaches_closed (h : OpenSlots node) (hidle : node.Idle x) :
    Run.Reaches (Node.step env) Quiet node fun n =>
      n.commitProcEvents = [] ∧ (∀ k, ¬ n.Sends k x) ∧ n.storage = node.storage := by
  refine ((reaches_received env node).inv (fun _ _ h _ => h.step) h).trans ?_
  rintro n ⟨hn, hevents, htasks, hstorage⟩
  by_cases hopen : ∃ k, n.Sends k x
  · obtain ⟨k, t, stage, hk, hid⟩ := hopen
    obtain ⟨event, rfl⟩ := hidle k t stage (htasks ▸ hk) hid
    refine .head (i := .task k .run) rfl ?_
    rw [step_report hk hevents]
    refine (reaches_received env _).mono ?_
    rintro n' ⟨hevents', htasks', hstorage'⟩
    refine ⟨hevents', ?_, hstorage'.trans hstorage⟩
    rintro k' ⟨t', stage', hk', hid'⟩
    rw [htasks', Node.resume_tasks] at hk'
    split at hk'
    · cases hk'
    · rename_i hne
      exact hne (hn.task_unique k' k x ⟨t', stage', hk', hid'⟩ ⟨t, _, hk, hid⟩)
  · exact .refl ⟨hevents, fun k hk => hopen ⟨k, hk⟩, hstorage⟩

/-- Then a tick starts one, if the trade is in a send status. -/
theorem OpenSlots.reaches_starting (h : OpenSlots node) (hidle : node.Idle x)
    (ht : node.storage.findActiveTrade x = some t) (hs : t.isSendingStatus = true) :
    Run.Reaches (Node.step env) Quiet node fun n =>
      n.storage = node.storage ∧ ∃ k, n.tasks k = some (.send t .starting) := by
  have hid : t.id = x := findActiveTrade_id ht
  refine ((h.reaches_closed hidle).inv (fun _ _ h _ => h.step) h).trans ?_
  rintro n ⟨hn, hevents, hclosed, hstorage⟩
  refine .one (i := .tick) rfl ⟨(Node.handleTick_storage n).trans hstorage, ?_⟩
  refine hn.tick_starts (by rw [hid, hstorage]; exact ht) hs fun hactive => ?_
  rcases hn.covered _ hactive with ⟨k, hk⟩ | ⟨event, he, -⟩
  · exact hclosed k (hid ▸ hk)
  · rw [hevents] at he
    exact absurd he List.not_mem_nil

/-! ## A node that is left to itself -/

/-- The node is left alone: it gets no message, no post and no answer, and what it asks of others
fails. -/
def Alone (_ : Node) (input : Input) : Prop :=
  input.isOwn = true ∨ ∃ k, input = .task k (.exchange none)

theorem reaches_alone {P : Node → Prop} (h : Run.Reaches (Node.step env) Quiet node P) :
    Run.Reaches (Node.step env) Alone node P :=
  h.lift (R := Eq) (fun _ _ i heq hok => ⟨i, .inl hok, heq ▸ rfl⟩) rfl
    fun _ _ heq hP => heq ▸ hP

/-- A `send` that is left alone fails, and is about to report that. -/
theorem OpenSlots.reaches_idle (h : OpenSlots node) (x : U32) :
    Run.Reaches (Node.step env) Alone node fun n =>
      n.Idle x ∧ n.storage = node.storage := by
  have honly : ∀ {n : Node} {k : ℕ} {t : Trade} {event : CommitProcedureEvent}, OpenSlots n →
      n.tasks k = some (.send t (.reporting event)) → t.id = x → n.Idle x := by
    intro n k t event hn hk hid k' t' stage' hk' hid'
    obtain rfl : k' = k := hn.task_unique k' k x ⟨t', _, hk', hid'⟩ ⟨t, _, hk, hid⟩
    cases hk.symm.trans hk'
    exact ⟨event, rfl⟩
  have hrequested : ∀ {n : Node} {k : ℕ} {t : Trade}, OpenSlots n →
      n.tasks k = some (.send t .requested) → t.id = x → n.storage = node.storage →
      Run.Reaches (Node.step env) Alone n fun n => n.Idle x ∧ n.storage = node.storage := by
    intro n k t hn hk hid hs
    refine .one (i := .task k (.exchange none)) (.inr ⟨k, rfl⟩) ⟨?_, ?_⟩
    · have hreport : (n.step env (.task k (.exchange none))).tasks k =
          some (.send t (.reporting (.sendFailed t.id))) := by
        rw [step_unsent hk, Node.resume_tasks, if_pos rfl]
      exact honly hn.step hreport hid
    · rw [step_unsent hk]
      exact hs
  by_cases hidle : node.Idle x
  · exact .refl ⟨hidle, rfl⟩
  · obtain ⟨k, t, stage, hk, hid, hno⟩ : ∃ k t stage, node.tasks k = some (.send t stage) ∧
        t.id = x ∧ ∀ event, stage ≠ .reporting event := by
      simpa [Node.Idle] using hidle
    cases stage with
    | starting =>
      have hdue := h.due k t hk
      refine .head (i := .task k .run) (.inl rfl) ?_
      exact hrequested h.step (step_request hk hdue) hid (step_request_storage hk hdue)
    | requested => exact hrequested h hk hid rfl
    | reporting event => exact absurd rfl (hno event)

/-- The node is about to send the commit of the trade to the other party, and any response to it
takes the trade to the next status. -/
structure Sending (env : Env Hash) (x : U32) (t : Trade) (k : ℕ) (node : Node) : Prop where
  asks : ∃ commit request, createSendRequest t commit = some request ∧
    (node.act env (.task k .run)).2 =
      [.sendExchangeRequest t.counterPartyDetails.1 request]
  answered : ∀ response, ((node.step env (.task k .run)).step env
    (.task k (.exchange (some response)))).storage.findActiveTrade x =
      some (t.updateStatus t.status.toWaiting)

theorem sending_of_starting {k : ℕ} (hk : node.tasks k = some (.send t .starting))
    (hs : t.isSendingStatus = true) (ht : node.storage.findActiveTrade x = some t) :
    Sending env x t k node where
  asks := by
    obtain ⟨commit, hcommit⟩ : ∃ commit, findCommitment t = some commit := ⟨_, rfl⟩
    obtain ⟨request, hrequest⟩ := createSendRequest_of_due hs commit
    refine ⟨commit, request, hrequest, ?_⟩
    simp only [Node.act, Node.handleTask, hk, sendStep, hcommit, Option.bind_some, hrequest]
  answered response := by
    rw [step_sent_storage (step_request hk hs), step_request_storage hk hs]
    exact findActiveTrade_update_stored ht _

/-- Whatever a run has brought, the node that is then left alone takes a trade that it stores in a
processing status to the send status that follows, and comes to send the commit of one that it
stores in a send status. -/
theorem left_alone_moves {storage : Storage}
    (hstorage : ∀ t, storage.findActiveTrade x = some t → ¬ t.status.IsProcessing)
    {inputs : List Input}
    (ht : ((Node.start storage).run env inputs).storage.findActiveTrade x = some t) :
    (t.status.IsProcessing → Run.Reaches (Node.step env) Alone
      ((Node.start storage).run env inputs) fun n =>
        n.storage.findActiveTrade x = some (t.updateStatus t.status.toSend)) ∧
    (t.isSendingStatus = true → Run.Reaches (Node.step env) Alone
      ((Node.start storage).run env inputs) fun n => ∃ k, Sending env x t k n) := by
  have hopen : OpenSlots ((Node.start storage).run env inputs) := openSlots_run storage inputs
  have htended : Tended x ((Node.start storage).run env inputs) :=
    Run.final_inv (fun _ _ h _ => h.step) (tended_start hstorage)
      (Run.always_trivial (Node.start storage) inputs)
  generalize (Node.start storage).run env inputs = node at *
  constructor
  · intro hs
    obtain ⟨k, commit, stage, hk, hstage⟩ := htended.verified t ht hs
    exact reaches_alone ((Verifies.mk hk ht).sendable hstage (htended.task k _ hk))
  · intro hs
    refine ((hopen.reaches_idle x).inv (fun _ _ h _ => h.step) hopen).trans ?_
    rintro n ⟨hn, hidle, hsame⟩
    have htn : n.storage.findActiveTrade x = some t := by
      rw [hsame]
      exact ht
    refine (reaches_alone (hn.reaches_starting hidle htn hs)).mono ?_
    rintro n' ⟨hsame', k, hk⟩
    exact ⟨k, sending_of_starting hk hs (by rw [hsame']; exact htn)⟩

/-- The requester's commit has been accepted, and its `verify` has begun. -/
def begunInputs : List Input :=
  [.network (.exchangeRequest ⟨[2]⟩ 0 (.t1RequesterCommit 6 (plainCommit 6))), .task 0 .run]

theorem left_alone_moves_begunInputs : Run.Reaches (Node.step plainEnv) Alone
    ((Node.start tradingStorage).run plainEnv begunInputs) fun n =>
      n.storage.findActiveTrade 6 = some (plainTrade .pSendT1Commit false) := by
  have hstorage : ∀ t, tradingStorage.findActiveTrade 6 = some t → ¬ t.status.IsProcessing := by
    intro t ht
    cases ht
    exact TradeStatus.not_isProcessing_waitingRT1Commit
  have ht : ((Node.start tradingStorage).run plainEnv begunInputs).storage.findActiveTrade 6 =
      some (plainTrade .processingRT1Commit false) := by
    decide +kernel
  have hmoves := @left_alone_moves _ plainEnv 6 _ _ hstorage begunInputs ht
  exact hmoves.1 (.inl rfl)

end Dse
