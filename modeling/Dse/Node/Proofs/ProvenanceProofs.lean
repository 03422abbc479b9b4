import Dse.Node.Proofs.RestartProofs
import Mathlib.Data.List.ReduceOption

/-!
# Where the terms of a trade come from

The terms of a trade are all of it but its status. They are fixed when the trade is opened, by the
`StartCommit` of a provider or by a quote of the node's own client for an interest that was received,
and no handler, no task and no crash changes them.
-/

namespace Dse

open Storage

variable {Hash : Type} {env : Env Hash} {node : Node}

/-- The trade but for its status. -/
def Trade.terms (t : Trade) : Trade := t.updateStatus .waitingRT1Commit

@[simp] theorem Trade.terms_updateStatus (t : Trade) (status : TradeStatus) :
    (t.updateStatus status).terms = t.terms := rfl

/-- The interest came with a request of a peer. -/
def Received (seen : List Input) (i : IWant) : Prop :=
  ∃ sender rid, .network (.exchangeRequest sender rid (.iWant i)) ∈ seen

/-- The terms of the trade are those of a `StartCommit` that was received, or of a quote that was
posted for an interest that was received. -/
inductive Origin (env : Env Hash) (seen : List Input) (t : Trade) : Prop
  | received {sender : PeerId} {rid : ℕ} {t' : Trade}
      (h : .network (.exchangeRequest sender rid (.startCommit t')) ∈ seen)
      (ht : t.terms = t'.terms)
  | quoted {quote : TradeQuote} {i : IWant} {id : ℕ} {nodeAddr : Multiaddr}
      (hp : .post (.startCommit quote) ∈ seen) (hi : Received seen i) (hid : i.id = quote.id)
      (ha : .task id (.networkDetails (some nodeAddr)) ∈ seen)
      (ht : t.terms =
        (Trade.fromQuote quote i .waitingRT1Commit env.nodeId nodeAddr false).terms)

section Origin

variable {seen seen' : List Input} {t : Trade}

theorem Received.mono {i : IWant} (h : Received seen i) (hs : seen ⊆ seen') : Received seen' i := by
  obtain ⟨sender, rid, hmem⟩ := h
  exact ⟨sender, rid, hs hmem⟩

theorem Origin.mono (h : Origin env seen t) (hs : seen ⊆ seen') : Origin env seen' t := by
  cases h with
  | received h ht => exact .received (hs h) ht
  | quoted hp hi hid ha ht => exact .quoted (hs hp) (hi.mono hs) hid (hs ha) ht

theorem Origin.of_terms (h : Origin env seen t) {t' : Trade} (ht' : t'.terms = t.terms) :
    Origin env seen t' := by
  cases h with
  | received h ht => exact .received h (ht'.trans ht)
  | quoted hp hi hid ha ht => exact .quoted hp hi hid ha (ht'.trans ht)

end Origin

/-! ## Handlers -/

/-- The stage in which the handler of a post begins. -/
def ReceivedMessage.firstStage? : ReceivedMessage → Option PostStage
  | .newQuery query => some (.newQueryDetails query)
  | .iWant _ providerId id => some (.iWantDetails providerId id)
  | .startCommit quote => some (.startCommit quote)
  | _ => none

section First

variable {message : ReceivedMessage} {stage : PostStage}

theorem handlePost_fst (node : Node) (message : ReceivedMessage) : (node.handlePost message).1 =
    (message.firstStage?.map fun stage => node.spawn (.post stage)).getD node := by
  cases message <;> rfl

/-- No handler comes back to the stage in which it began. -/
theorem postStep_next_first (hm : message.firstStage? = some stage) {s : Storage}
    {stage' : PostStage} {answer : Answer}
    (h : (postStep env s stage' answer).next = some stage) : stage' = stage := by
  unfold postStep at h
  split at h
  case h_8 =>
    split at h
    · cases h
      cases message <;> cases hm
    · cases h
  all_goals cases h
  case h_13 => rfl
  all_goals cases message <;> cases hm

/-- A handler that has just begun after a step was there before it or is started by the step. -/
theorem step_first (hm : message.firstStage? = some stage) {input : Input} {k : ℕ}
    (hk : (node.step env input).tasks k = some (.post stage)) :
    node.tasks k = some (.post stage) ∨
      ∃ message' : ReceivedMessage, message'.firstStage? = some stage ∧ input = .post message' := by
  rcases step_task hk with hold | hleft
  · exact .inl hold
  · cases hleft with
    | @post message' _ _ _ _ =>
      have hpost : ((message'.firstStage?.map fun stage => node.spawn (.post stage)).getD
          node).tasks k = some (.post stage) := by
        rw [← handlePost_fst]
        exact hk
      cases hfirst : message'.firstStage? with
      | none =>
        rw [hfirst] at hpost
        exact .inl hpost
      | some stage' =>
        rw [hfirst, Option.map_some, Option.getD_some, Node.spawn_tasks] at hpost
        split at hpost
        · cases hpost
          exact .inr ⟨message', hfirst, rfl⟩
        · exact .inl hpost
    | findsIWant _ _ => cases message <;> cases hm
    | opens _ => cases message <;> cases hm
    | @serve _ answer stage' _ h _ _ =>
      have hnext : (postStep env node.storage stage' answer).next.map Task.post =
          some (.post stage) := by
        rw [← hk]
        simp [Node.step, Node.act, Node.handleTask, h, Node.resume_tasks]
      obtain ⟨stage'', hstage'', heq⟩ := Option.map_eq_some_iff.mp hnext
      cases heq
      rw [postStep_next_first hm hstage''] at h
      exact .inl h

end First

/-! ## Origins -/

/-- Every trade of the node has an origin among the inputs that it has seen. -/
structure Provenance (env : Env Hash) (seen : List Input) (node : Node) : Prop where
  stored : ∀ iid t, node.storage.findActiveTrade iid = some t → Origin env seen t
  iWants : ∀ iid i, node.storage.findIWant iid = some i → Received seen i
  copies : ∀ k task t, node.tasks k = some task → task.copy? = some t → Origin env seen t
  opening : ∀ k t, node.tasks k = some (.post (.startCommitRequested t)) → Origin env seen t
  details : ∀ k quote i, node.tasks k = some (.post (.startCommitDetails quote i)) →
    .post (.startCommit quote) ∈ seen ∧ Received seen i ∧ i.id = quote.id
  quotes : ∀ k quote, node.tasks k = some (.post (.startCommit quote)) →
    .post (.startCommit quote) ∈ seen

namespace Provenance

variable {seen seen' : List Input}

theorem start (h : Provenance env seen node) :
    Provenance env seen (.start node.storage) where
  stored := h.stored
  iWants := h.iWants
  copies k task t hk := by cases hk
  opening k t hk := by cases hk
  details k quote i hk := by cases hk
  quotes k quote hk := by cases hk

/-- What a step writes has an origin. -/
theorem written (h : Provenance env seen node) {input : Input} {t : Trade}
    (hw : Written node input t) : Origin env (seen ++ [input]) t := by
  have hmono : seen ⊆ seen ++ [input] := List.subset_append_left seen [input]
  cases hw with
  | startCommit sender rid t =>
    exact .received (List.mem_append_right _ (List.mem_singleton.mpr rfl)) rfl
  | process hk => exact ((h.copies _ _ _ hk rfl).mono hmono).of_terms rfl
  | finish hk => exact ((h.copies _ _ _ hk rfl).mono hmono).of_terms rfl
  | sent hk => exact ((h.copies _ _ _ hk rfl).mono hmono).of_terms rfl
  | opened hk => exact (h.opening _ _ hk).mono hmono

theorem step (h : Provenance env seen node) (input : Input) :
    Provenance env (seen ++ [input]) (node.step env input) := by
  have hmono : seen ⊆ seen ++ [input] := List.subset_append_left seen [input]
  have hnow : input ∈ seen ++ [input] := List.mem_append_right _ (List.mem_singleton.mpr rfl)
  have hstored : ∀ iid t, node.storage.findActiveTrade iid = some t →
      Origin env (seen ++ [input]) t := fun iid t ht => (h.stored iid t ht).mono hmono
  refine ⟨fun iid t ht => ?_, fun iid i hi => ?_, fun k task t hk hc => ?_, fun k t hk => ?_,
    fun k quote i hk => ?_, fun k quote hk => ?_⟩
  · rcases step_stored ht with hold | hw
    · exact hstored iid t hold
    · exact h.written hw
  · rcases step_iWant hi with hold | ⟨sender, rid, rfl⟩
    · exact (h.iWants iid i hold).mono hmono
    · exact ⟨sender, rid, hnow⟩
  · have hcopy : ∀ {k task t}, node.tasks k = some task → task.copy? = some t →
        Origin env (seen ++ [input]) t := fun hk hc => (h.copies _ _ _ hk hc).mono hmono
    rcases step_task hk with hold | hleft
    · exact hcopy hold hc
    · cases hleft with
      | accept _ hf _ =>
        cases hc
        exact hstored _ _ hf
      | tick _ hf _ =>
        cases hc
        exact hstored _ _ hf
      | process h' =>
        cases hc
        exact (hcopy h' rfl).of_terms rfl
      | examine h' _ _ _ _ =>
        cases hc
        exact hcopy h' rfl
      | request h' =>
        cases hc
        exact hcopy h' rfl
      | sent _ => cases hc
      | unsent _ => cases hc
      | post _ _ => cases hc
      | findsIWant _ _ => cases hc
      | opens _ => cases hc
      | serve _ _ _ => cases hc
  · rcases step_task hk with hold | hleft
    · exact (h.opening k t hold).mono hmono
    · cases hleft with
      | post hs _ => exact absurd rfl (hs t)
      | opens h' =>
        obtain ⟨hp, hi, hid⟩ := h.details _ _ _ h'
        exact .quoted (hmono hp) (hi.mono hmono) hid hnow rfl
      | serve _ hs _ => exact absurd rfl (hs t)
  · rcases step_task hk with hold | hleft
    · obtain ⟨hp, hi, hid⟩ := h.details k quote i hold
      exact ⟨hmono hp, hi.mono hmono, hid⟩
    · cases hleft with
      | post _ hi => exact absurd rfl (hi quote i)
      | findsIWant h' hi =>
        exact ⟨hmono (h.quotes _ _ h'), (h.iWants _ _ hi).mono hmono,
          node.storage.iWants_keyed _ _ hi⟩
      | serve _ _ hi => exact absurd rfl (hi quote i)
  · have hm : (ReceivedMessage.startCommit quote).firstStage? = some (.startCommit quote) := rfl
    rcases step_first hm hk with hold | ⟨message, hfirst, rfl⟩
    · exact hmono (h.quotes k quote hold)
    · cases message <;> cases hfirst
      exact hnow

end Provenance

/-- In every run from an empty database, however often the node crashes, the terms of every stored
trade are those with which it was opened. -/
theorem stored_trade_origin (env : Env Hash) (inputs : List (Option Input)) (iid : U32)
    (t : Trade) (ht : (Run.final (Node.stepOrCrash env) (.start .new)
      inputs).storage.findActiveTrade iid = some t) :
    Origin env inputs.reduceOption t := by
  have hall : Provenance env inputs.reduceOption
      (Run.final (Node.stepOrCrash env) (.start .new) inputs) := by
    clear ht
    induction inputs using List.reverseRecOn with
    | nil =>
      refine ⟨fun iid t h => ?_, fun iid i h => ?_, fun k task t h => ?_, fun k t h => ?_,
        fun k quote i h => ?_, fun k quote h => ?_⟩ <;> cases h
    | append_singleton inputs input ih =>
      rw [Run.final, List.foldl_append]
      cases input with
      | none =>
        rw [List.reduceOption_append, List.reduceOption_singleton, Option.toList_none,
          List.append_nil]
        exact ih.start
      | some input =>
        rw [List.reduceOption_append, List.reduceOption_singleton]
        exact ih.step input
  exact hall.stored iid t ht

/-- A provider opens trade 6 for an interest of peer 2, and crashes. -/
def openedInputs : List (Option Input) :=
  [some (.network (.exchangeRequest ⟨[2]⟩ 0 (.iWant ⟨⟨[2]⟩, ⟨[20]⟩, 6⟩))),
    some (.post (.startCommit ⟨30, 6⟩)), some (.task 0 .run),
    some (.task 0 (.networkDetails (some ⟨[10]⟩))), some (.task 0 (.exchange (some .ack))), none]

theorem stored_trade_origin_openedInputs :
    Origin plainEnv openedInputs.reduceOption (plainTrade .waitingRT1Commit false) :=
  stored_trade_origin plainEnv openedInputs 6 (plainTrade .waitingRT1Commit false)
    (by decide +kernel)

end Dse
