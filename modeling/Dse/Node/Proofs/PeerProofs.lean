import Dse.Node.Proofs.StepProofs

/-!
# What a peer can touch

A request from a peer, with the `verify` it starts, leaves the trades with another counter party and
the interests of other requesters as they were, unless it is an `IWant` or a `StartCommit` whose id
is already taken: these two handlers write before they look at the sender or at what is stored.
-/

namespace Dse

open Storage

variable {Hash : Type} {env : Env Hash} {node : Node}

/-! ## What belongs to others -/

/-- What is not the peer's is as it was: the trades with another counter party, and the interests of
other requesters. -/
structure Storage.Untouched (p : PeerId) (s s' : Storage) : Prop where
  trade : ∀ iid t, s.findActiveTrade iid = some t → t.counterPartyDetails.1 ≠ p →
    s'.findActiveTrade iid = some t
  iWant : ∀ iid i, s.findIWant iid = some i → i.requesterId ≠ p → s'.findIWant iid = some i

/-- The request takes the id of a stored interest of another requester, or of a stored trade with
another counter party, and says something else than what is stored. -/
def ExchangeRequest.Overwrites (p : PeerId) (s : Storage) : ExchangeRequest → Prop
  | .iWant i => ∃ i₀, s.findIWant i.id = some i₀ ∧ i₀.requesterId ≠ p ∧ i₀ ≠ i
  | .startCommit t => ∃ t₀, s.findActiveTrade t.id = some t₀ ∧ t₀.counterPartyDetails.1 ≠ p ∧
      t₀ ≠ t.updateStatus .rSendT1Commit
  | _ => False

/-- A step of a task that was spawned when the next task ids went from `lo` to `hi`. -/
def Input.IsOfTask (lo hi : ℕ) : Input → Prop
  | .task id _ => lo ≤ id ∧ id < hi
  | _ => False

instance (lo hi : ℕ) : DecidablePred (Input.IsOfTask lo hi) := fun input =>
  match input with
  | .task id _ => inferInstanceAs (Decidable (lo ≤ id ∧ id < hi))
  | .network _ | .tick | .commitProcEvent | .post _ => inferInstanceAs (Decidable False)

namespace Storage

variable {p : PeerId} {s s' : Storage}

theorem Untouched.refl (p : PeerId) (s : Storage) : Untouched p s s :=
  ⟨fun _ _ h _ => h, fun _ _ h _ => h⟩

theorem Untouched.of_sameTrades {s'' : Storage} (h : Untouched p s s') (h' : SameTrades s' s'') :
    Untouched p s s'' where
  trade iid t ht hp := (h'.trade iid).trans (h.trade iid t ht hp)
  iWant iid i hi hp := (h'.iWant iid).trans (h.iWant iid i hi hp)

theorem Untouched.updateActiveTrade (h : Untouched p s s') {t : Trade}
    (ht : ∀ t₀, s.findActiveTrade t.id = some t₀ → t₀.counterPartyDetails.1 = p) :
    Untouched p s (s'.updateActiveTrade t) where
  trade iid t₀ h₀ hp := by
    rw [findActiveTrade_updateActiveTrade, if_neg]
    · exact h.trade iid t₀ h₀ hp
    · rintro ⟨rfl, -⟩
      exact hp (ht t₀ h₀)
  iWant iid i hi hp := by
    rw [findIWant_updateActiveTrade]
    exact h.iWant iid i hi hp

theorem untouched_addIWant (p : PeerId) (s : Storage) (i : IWant) :
    Untouched p s (s.addIWant i) ↔ ¬ (ExchangeRequest.iWant i).Overwrites p s := by
  constructor
  · rintro h ⟨i₀, h₀, hp, hne⟩
    have h₁ := h.iWant i.id i₀ h₀ hp
    rw [findIWant_addIWant, if_pos rfl] at h₁
    exact hne (Option.some.inj h₁).symm
  · intro h
    refine ⟨fun iid t ht _ => ht, fun iid i₀ h₀ hp => ?_⟩
    rw [findIWant_addIWant]
    split
    · rename_i hid
      subst hid
      by_contra hne
      exact h ⟨i₀, h₀, hp, fun heq => hne (congrArg some heq.symm)⟩
    · exact h₀

theorem untouched_addActiveTrade (p : PeerId) (s : Storage) (t : Trade) :
    Untouched p s (s.addActiveTrade (t.updateStatus .rSendT1Commit)) ↔
      ¬ (ExchangeRequest.startCommit t).Overwrites p s := by
  constructor
  · rintro h ⟨t₀, h₀, hp, hne⟩
    have h₁ := h.trade t.id t₀ h₀ hp
    rw [findActiveTrade_addActiveTrade, Trade.updateStatus_id, if_pos rfl] at h₁
    exact hne (Option.some.inj h₁).symm
  · intro h
    refine ⟨fun iid t₀ h₀ hp => ?_, fun iid i hi _ => hi⟩
    rw [findActiveTrade_addActiveTrade, Trade.updateStatus_id]
    split
    · rename_i hid
      subst hid
      by_contra hne
      exact h ⟨t₀, h₀, hp, fun heq => hne (congrArg some heq.symm)⟩
    · exact h₀

end Storage

/-! ## Serving a request -/

/-- The node on its way through the tasks from `lo` to `hi`, which are for trades with `p`. -/
structure Serves (p : PeerId) (s : Storage) (lo hi : ℕ) (node : Node) : Prop where
  untouched : Untouched p s node.storage
  own : ∀ id task, lo ≤ id → id < hi → node.tasks id = some task → ∃ commit t stage,
    task = .verify commit t stage ∧
      ∀ t₀, s.findActiveTrade t.id = some t₀ → t₀.counterPartyDetails.1 = p

namespace Serves

variable {p : PeerId} {s : Storage} {lo hi : ℕ}

theorem step (h : Serves p s lo hi node) {input : Input} (hi' : input.IsOfTask lo hi) :
    Serves p s lo hi (node.step env input) := by
  cases input with
  | task id answer =>
    obtain ⟨hlo, hhi⟩ := hi'
    cases htask : node.tasks id with
    | none => simpa only [Node.step, Node.act, Node.handleTask, htask] using h
    | some task =>
      obtain ⟨commit, t, stage, rfl, hp⟩ := h.own id task hlo hhi htask
      obtain ⟨s', next, hstep, hs, hnext⟩ := verify_step env htask answer
      rw [hstep]
      constructor
      · rcases hs with hs | ⟨status, rfl⟩
        · exact h.untouched.of_sameTrades hs
        · exact h.untouched.updateActiveTrade hp
      · intro id' task' hlo' hhi' htask'
        rw [Node.resume_tasks] at htask'
        split at htask'
        · obtain ⟨status, stage', rfl⟩ := hnext task' htask'
          exact ⟨commit, _, stage', rfl, hp⟩
        · exact h.own id' task' hlo' hhi' htask'
  | network event => exact hi'.elim
  | tick => exact hi'.elim
  | commitProcEvent => exact hi'.elim
  | post message => exact hi'.elim

theorem run (h : Serves p s lo hi node) {inputs : List Input}
    (hin : ∀ input ∈ inputs, input.IsOfTask lo hi) : Serves p s lo hi (node.run env inputs) :=
  Run.final_inv (fun _ _ hn hok => hn.step hok) h
    ((Run.always_input (fun input : Input => input.IsOfTask lo hi) node inputs).mpr hin)

end Serves

/-- A request that stores nothing by itself. -/
theorem serves_request {p : PeerId} {request : ExchangeRequest} (hi : ∀ i, request ≠ .iWant i)
    (ht : ∀ t, request ≠ .startCommit t) (rid : ℕ) :
    Serves p node.storage node.nextTask
      (node.step env (.network (.exchangeRequest p rid request))).nextTask
      (node.step env (.network (.exchangeRequest p rid request))) := by
  obtain ⟨commands, he⟩ : ∃ commands,
      Effect env node (.network (.exchangeRequest p rid request))
        (node.step env (.network (.exchangeRequest p rid request))) commands :=
    ⟨_, step_effect node _⟩
  generalize node.step env (.network (.exchangeRequest p rid request)) = node' at he
  cases he with
  | record hs _ =>
    refine ⟨(Untouched.refl p _).of_sameTrades hs.toSameTrades, fun id task hlo hhi => ?_⟩
    exact absurd hlo (Nat.not_le.mpr hhi)
  | iWant sender rid i => exact absurd rfl (hi i)
  | startCommit sender rid t => exact absurd rfl (ht t)
  | refuse _ _ => exact ⟨.refl p _, fun id task hlo hhi => absurd hlo (Nat.not_le.mpr hhi)⟩
  | @accept _ _ _ t commit _ hf hp =>
    refine ⟨.refl p _, fun id task hlo hhi htask => ?_⟩
    obtain rfl : id = node.nextTask := Nat.le_antisymm (Nat.lt_succ_iff.mp hhi) hlo
    rw [Node.spawn_tasks, if_pos rfl] at htask
    refine ⟨commit, t, .processing, (Option.some.inj htask).symm, fun t₀ h₀ => ?_⟩
    cases hf.symm.trans h₀
    exact hp

theorem inputs_eq_nil {lo : ℕ} {inputs : List Input}
    (hin : ∀ input ∈ inputs, input.IsOfTask lo lo) : inputs = [] := by
  refine List.eq_nil_iff_forall_not_mem.mpr fun input hmem => ?_
  cases input with
  | task id answer => exact absurd (hin _ hmem).1 (Nat.not_le.mpr (hin _ hmem).2)
  | network event => exact hin _ hmem
  | tick => exact hin _ hmem
  | commitProcEvent => exact hin _ hmem
  | post message => exact hin _ hmem

/-- A request leaves what belongs to others as it was exactly when it overwrites none of it. -/
theorem untouched_iff (node : Node) (p : PeerId) (rid : ℕ) (request : ExchangeRequest)
    {inputs : List Input}
    (hin : ∀ input ∈ inputs, input.IsOfTask node.nextTask
      (node.step env (.network (.exchangeRequest p rid request))).nextTask) :
    Untouched p node.storage
        ((node.step env (.network (.exchangeRequest p rid request))).run env inputs).storage ↔
      ¬ request.Overwrites p node.storage := by
  have hserve : (∀ i, request ≠ .iWant i) → (∀ t, request ≠ .startCommit t) →
      Untouched p node.storage
        ((node.step env (.network (.exchangeRequest p rid request))).run env inputs).storage := by
    intro hi ht
    exact ((serves_request hi ht rid).run hin).untouched
  cases request with
  | iWant i =>
    obtain rfl := inputs_eq_nil hin
    exact untouched_addIWant p node.storage i
  | startCommit t =>
    obtain rfl := inputs_eq_nil hin
    exact untouched_addActiveTrade p node.storage t
  | t1RequesterCommit tradeId commit => exact iff_of_true (hserve nofun nofun) id
  | t1ProviderCommit tradeId commit => exact iff_of_true (hserve nofun nofun) id
  | t2RequesterCommit tradeId commit => exact iff_of_true (hserve nofun nofun) id
  | t2CommitValid tradeId => exact iff_of_true (hserve nofun nofun) id
  | invalidatingSignature tradeId sig => exact iff_of_true (hserve nofun nofun) id

theorem untouched_iff_commit :
    Untouched ⟨[2]⟩ tradingStorage
        (((Node.start tradingStorage).step plainEnv (.network (.exchangeRequest ⟨[2]⟩ 0
          (.t1RequesterCommit 6 (plainCommit 6))))).run plainEnv (verifyInputs 0)).storage ↔
      ¬ (ExchangeRequest.t1RequesterCommit 6 (plainCommit 6)).Overwrites ⟨[2]⟩ tradingStorage :=
  untouched_iff (.start tradingStorage) ⟨[2]⟩ 0 (.t1RequesterCommit 6 (plainCommit 6)) (by decide +kernel)

/-- A stranger replaces the trade with requester 2. -/
theorem not_untouched_startCommit :
    ¬ Untouched ⟨[3]⟩ tradingStorage
        (((Node.start tradingStorage).step plainEnv (.network (.exchangeRequest ⟨[3]⟩ 0
          (.startCommit (plainTrade .waitingRT1Commit true))))).run plainEnv []).storage := by
  intro h
  have hkept := h.trade 6 (plainTrade .waitingRT1Commit false) (by decide +kernel)
    (by decide +kernel)
  revert hkept
  decide +kernel

end Dse
