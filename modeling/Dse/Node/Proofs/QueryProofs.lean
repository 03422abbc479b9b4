import Dse.Lib.Run
import Dse.Node.Proofs.TaskProofs

/-!
# The queries of a node

A query is stored under its id alone. The observer `Queries.note` writes down every query that the
node publishes or receives, so a query is lost exactly if another one with its id was stored after
it. The node itself gives every query that it publishes the id 1.
-/

namespace Dse

open Storage

variable {Hash : Type} {env : Env Hash}

/-! ## Trees that are written to -/

namespace Tree

variable {κ ν : Type} [DecidableEq κ] {key : ν → κ}

/-- Where a value of the log was stored, there is a value of the log. -/
def Wrote (key : ν → κ) (log : List ν) (t : Tree κ ν) : Prop :=
  ∀ v ∈ log, ∃ v' ∈ log, key v' = key v ∧ t.lookup (key v) = some v'

/-- Two stored values of one key are the same. -/
theorem values_inj {t : Tree κ ν} (ht : t.Keyed key) {v v' : ν} (hv : v ∈ t.values)
    (hv' : v' ∈ t.values) (hkey : key v = key v') : v = v' := by
  obtain ⟨k, hk⟩ := mem_values.mp hv
  obtain ⟨k', hk'⟩ := mem_values.mp hv'
  have hkk : k = k' := by rw [← ht k v hk, ← ht k' v' hk', hkey]
  rw [hkk, hk'] at hk
  exact (Option.some.inj hk).symm

theorem wrote_values {t : Tree κ ν} (ht : t.Keyed key) : Wrote key t.values t := by
  intro v hv
  obtain ⟨k, hk⟩ := mem_values.mp hv
  have hkey : key v = k := ht k v hk
  rw [← hkey] at hk
  exact ⟨v, hv, rfl, hk⟩

theorem Wrote.insert {log : List ν} {t : Tree κ ν} (h : Wrote key log t) (v : ν) :
    Wrote key (v :: log) (t.insert (key v) v : Tree κ ν) := by
  have hnew : (t.insert (key v) v : Tree κ ν).lookup (key v) = some v := AList.lookup_insert t
  intro u hu
  by_cases hk : key u = key v
  · rw [hk]
    exact ⟨v, List.mem_cons_self, rfl, hnew⟩
  · rcases List.mem_cons.mp hu with rfl | hu
    · exact absurd rfl hk
    · obtain ⟨v', hv', hkey, hlookup⟩ := h u hu
      refine ⟨v', List.mem_cons_of_mem _ hv', hkey, ?_⟩
      rw [AList.lookup_insert_ne hk]
      exact hlookup

/-- The whole log is still there exactly if no two of its values have one key. -/
theorem Wrote.kept_iff {log : List ν} {t : Tree κ ν} (ht : t.Keyed key) (h : Wrote key log t) :
    (∀ v ∈ log, v ∈ t.values) ↔ ∀ v ∈ log, ∀ v' ∈ log, key v = key v' → v = v' := by
  constructor
  · intro hkept v hv v' hv' hkey
    exact values_inj ht (hkept v hv) (hkept v' hv') hkey
  · intro hdistinct v hv
    obtain ⟨v', hv', hkey, hlookup⟩ := h v hv
    rw [hdistinct v' hv' v hv hkey] at hlookup
    exact mem_values.mpr ⟨key v, hlookup⟩

end Tree

/-! ## What a step stores -/

namespace Storage

/-- The queries are the same. -/
structure SameQueries (s s' : Storage) : Prop where
  sent : s'.queriesSent = s.queriesSent
  received : s'.queriesReceived = s.queriesReceived

variable {s s' s'' : Storage}

theorem SameQueries.refl (s : Storage) : SameQueries s s := ⟨rfl, rfl⟩

theorem SameQueries.trans (h : SameQueries s s') (h' : SameQueries s' s'') : SameQueries s s'' :=
  ⟨h'.sent.trans h.sent, h'.received.trans h.received⟩

theorem sameQueries_updateActiveTrade (s : Storage) (t : Trade) :
    SameQueries s (s.updateActiveTrade t) := by
  unfold updateActiveTrade
  split
  · exact ⟨rfl, rfl⟩
  · exact SameQueries.refl s

theorem sameQueries_addInvalidatingSignature (s : Storage) (tradeId : U32) (w : Address)
    (sig : Signature) : SameQueries s (Node.addInvalidatingSignature s tradeId w sig) := by
  unfold Node.addInvalidatingSignature
  split
  · exact ⟨rfl, rfl⟩
  · exact SameQueries.refl s

/-- A `verify` and a `send` leave the queries as they are. -/
theorem SameQueries.of_writes (h : Writes s s') : SameQueries s s' := by
  cases h with
  | nothing => exact SameQueries.refl s
  | trade t => exact sameQueries_updateActiveTrade s t
  | commits w cs => exact ⟨rfl, rfl⟩
  | wallet w => exact ⟨rfl, rfl⟩

end Storage

namespace Node

/-- The query that a step publishes: the publication of a post has succeeded. -/
def publishes (node : Node) : Input → Option Query
  | .task id (.published true) =>
    match node.tasks id with
    | some (.post (.newQueryPublished query)) => some query
    | _ => none
  | _ => none

/-- The query that a step receives. -/
def receives : Input → Option Query
  | .network (.gossipsubMessageRecv (.newQuery query)) => some query
  | _ => none

/-- The storage with what a step publishes and receives. -/
def withQueries (node : Node) (input : Input) : Storage :=
  let s := match node.publishes input with
    | some query => node.storage.addQuerySent query
    | none => node.storage
  match receives input with
  | some query => s.addQueryReceived query
  | none => s

variable {node : Node}

theorem withQueries_of_none {input : Input} (hp : node.publishes input = none)
    (hr : receives input = none) : node.withQueries input = node.storage := by
  unfold withQueries
  rw [hp, hr]

theorem handleExchangeRequest_queries (sender : PeerId) (rid : ℕ) (request : ExchangeRequest) :
    SameQueries node.storage (node.handleExchangeRequest sender rid request).1.storage := by
  have hcommit : ∀ status tradeId commit,
      SameQueries node.storage (node.handleCommit status sender rid tradeId commit).1.storage := by
    intro status tradeId commit
    unfold Node.handleCommit
    split <;> exact SameQueries.refl _
  cases request with
  | iWant i => exact ⟨rfl, rfl⟩
  | startCommit t => exact ⟨rfl, rfl⟩
  | t1RequesterCommit tradeId commit => exact hcommit _ _ _
  | t1ProviderCommit tradeId commit => exact hcommit _ _ _
  | t2RequesterCommit tradeId commit => exact hcommit _ _ _
  | t2CommitValid tradeId => exact SameQueries.refl _
  | invalidatingSignature tradeId sig => exact SameQueries.refl _

theorem handleNetworkEvent_queries (event : NetworkEvent) :
    SameQueries (node.withQueries (.network event))
      (node.handleNetworkEvent event).1.storage := by
  cases event with
  | gossipsubMessageRecv message =>
    cases message with
    | newQuery query => exact SameQueries.refl _
    | commit commit tradeId =>
      simp only [Node.handleNetworkEvent]
      split <;> exact ⟨rfl, rfl⟩
    | invalidatingSignature tradeId pw rw sig =>
      exact (sameQueries_addInvalidatingSignature _ _ _ _).trans
        (sameQueries_addInvalidatingSignature _ _ _ _)
  | exchangeRequest sender rid request => exact handleExchangeRequest_queries sender rid request
  | commitRequest sender rid request =>
    cases request with
    | wantHistory w =>
      simp only [Node.handleNetworkEvent]
      split <;> exact SameQueries.refl _
    | update w cs last => exact SameQueries.refl _
  | newListenAddr listener addr => exact SameQueries.refl _

theorem postStep_queries {id : ℕ} {stage : PostStage} (h : node.tasks id = some (.post stage))
    (answer : Answer) : SameQueries (node.withQueries (.task id answer))
      (postStep env node.storage stage answer).storage := by
  have hnone : (∀ query, stage = .newQueryPublished query → answer ≠ .published true) →
      node.withQueries (.task id answer) = node.storage := by
    intro hne
    refine withQueries_of_none ?_ rfl
    unfold publishes
    split
    · rename_i heq
      obtain ⟨rfl, rfl⟩ := Input.task.inj heq
      rw [h]
      split
      · rename_i query heq
        cases heq
        exact absurd rfl (hne query rfl)
      · rfl
    · rfl
  cases stage with
  | newQueryPublished query =>
    cases answer with
    | published ok =>
      cases ok with
      | true =>
        have hp : node.publishes (.task id (.published true)) = some query := by
          simp only [publishes, h]
        have hwith : node.withQueries (.task id (.published true)) =
            node.storage.addQuerySent query := by
          simp only [withQueries, hp, receives]
        rw [hwith]
        exact SameQueries.refl _
      | false =>
        rw [hnone (by rintro _ _ ⟨⟩)]
        exact SameQueries.refl _
    | _ =>
      rw [hnone (by rintro _ _ ⟨⟩)]
      exact SameQueries.refl _
  | newQueryDetails query =>
    rw [hnone (by rintro _ ⟨⟩)]
    cases answer with
    | networkDetails nodeAddr => cases nodeAddr <;> exact SameQueries.refl _
    | _ => exact SameQueries.refl _
  | iWantDetails providerId iid =>
    rw [hnone (by rintro _ ⟨⟩)]
    cases answer with
    | networkDetails nodeAddr => cases nodeAddr <;> exact SameQueries.refl _
    | _ => exact SameQueries.refl _
  | iWantRequested =>
    rw [hnone (by rintro _ ⟨⟩)]
    cases answer <;> exact SameQueries.refl _
  | startCommit quote =>
    rw [hnone (by rintro _ ⟨⟩)]
    cases answer with
    | run =>
      simp only [postStep]
      split <;> exact SameQueries.refl _
    | _ => exact SameQueries.refl _
  | startCommitDetails quote i =>
    rw [hnone (by rintro _ ⟨⟩)]
    cases answer with
    | networkDetails nodeAddr => cases nodeAddr <;> exact SameQueries.refl _
    | _ => exact SameQueries.refl _
  | startCommitRequested t =>
    rw [hnone (by rintro _ ⟨⟩)]
    cases answer with
    | exchange response =>
      cases response with
      | some response => cases response <;> exact ⟨rfl, rfl⟩
      | none => exact SameQueries.refl _
    | _ => exact SameQueries.refl _

/-- Nothing happens to the queries but what the step publishes and receives. -/
theorem step_queries (env : Env Hash) (node : Node) (input : Input) :
    SameQueries (node.withQueries input) (node.step env input).storage := by
  cases input with
  | network event => exact handleNetworkEvent_queries event
  | tick =>
    have hstorage : (node.step env .tick).storage = node.storage := handleTick_storage node
    rw [hstorage]
    exact SameQueries.refl _
  | commitProcEvent =>
    simp only [Node.step, Node.act, Node.handleCommitProcEvent]
    split <;> exact SameQueries.refl _
  | post message => cases message <;> exact SameQueries.refl _
  | task id answer =>
    cases h : node.tasks id with
    | none =>
      have hp : node.publishes (.task id answer) = none := by
        unfold publishes
        split
        · rename_i heq
          obtain ⟨rfl, rfl⟩ := Input.task.inj heq
          rw [h]
        · rfl
      rw [withQueries_of_none hp rfl]
      simp only [Node.step, Node.act, Node.handleTask, h]
      exact SameQueries.refl _
    | some task =>
      have hother : (∀ stage, task ≠ .post stage) →
          node.withQueries (.task id answer) = node.storage := by
        intro hne
        refine withQueries_of_none ?_ rfl
        unfold publishes
        split
        · rename_i heq
          obtain ⟨rfl, rfl⟩ := Input.task.inj heq
          rw [h]
          split
          · rename_i query heq
            exact absurd (Option.some.inj heq) (hne _)
          · rfl
        · rfl
      cases task with
      | verify commit t stage =>
        rw [hother (by rintro _ ⟨⟩)]
        simp only [Node.step, Node.act, Node.handleTask, h]
        exact .of_writes (verifyStep_writes env commit t node.storage stage answer).1
      | send t stage =>
        rw [hother (by rintro _ ⟨⟩)]
        simp only [Node.step, Node.act, Node.handleTask, h]
        cases stage with
        | reporting event =>
          simp only
          split <;> exact SameQueries.refl _
        | starting => exact .of_writes (sendStep_writes t _ _ answer)
        | requested => exact .of_writes (sendStep_writes t _ _ answer)
      | post stage =>
        simp only [Node.step, Node.act, Node.handleTask, h]
        exact postStep_queries h answer

/-- The query is one of the node's own. -/
def Own (env : Env Hash) (q : Query) : Prop :=
  q.id = 1 ∧ q.requesterId = env.nodeId ∧ q.requesterWalletAddress = env.timelockedWallet

/-- Two of the node's own queries differ in their data or in the address of the node. -/
theorem Own.eq {q q' : Query} (h : Own env q) (h' : Own env q') (hdata : q.data = q'.data)
    (haddr : q.requesterAddr = q'.requesterAddr) : q = q' := by
  obtain ⟨hid, hnode, hwallet⟩ := h
  obtain ⟨hid', hnode', hwallet'⟩ := h'
  cases q
  cases q'
  simp only at *
  subst hdata haddr hid hid' hnode hnode' hwallet hwallet'
  rfl

/-- A post that waits for its publication waited before, or has a query of the node's own. -/
theorem step_published {id : ℕ} {query : Query} {input : Input}
    (h : (node.step env input).tasks id = some (.post (.newQueryPublished query))) :
    node.tasks id = some (.post (.newQueryPublished query)) ∨ Own env query := by
  cases input with
  | task id' answer =>
    cases hk : node.tasks id' with
    | none =>
      left
      simpa only [Node.step, Node.act, Node.handleTask, hk] using h
    | some task =>
      cases task with
      | post stage =>
        simp only [Node.step, Node.act, Node.handleTask, hk, resume_tasks] at h
        split at h
        · rename_i heq
          subst heq
          obtain ⟨stage', hnext, heq⟩ := Option.map_eq_some_iff.mp h
          cases heq
          unfold postStep at hnext
          split at hnext
          case h_1 =>
            cases hnext
            exact .inr ⟨rfl, rfl, rfl⟩
          case h_8 => split at hnext <;> cases hnext
          all_goals cases hnext
          exact .inl hk
        · exact .inl h
      | verify commit t stage =>
        rcases step_task h with h | h
        · exact .inl h
        · cases h with
          | serve hserve hne _ => cases hk.symm.trans hserve
      | send t stage =>
        rcases step_task h with h | h
        · exact .inl h
        · cases h with
          | serve hserve hne _ => cases hk.symm.trans hserve
  | post message =>
    cases message with
    | placeBid queryId charge => exact .inl h
    | acceptBid queryId providerId => exact .inl h
    | newQuery data =>
      simp only [Node.step, Node.act, Node.handlePost, spawn_tasks] at h
      split at h
      · cases h
      · exact .inl h
    | startCommit quote =>
      simp only [Node.step, Node.act, Node.handlePost, spawn_tasks] at h
      split at h
      · cases h
      · exact .inl h
    | iWant addr providerId iid =>
      simp only [Node.step, Node.act, Node.handlePost, spawn_tasks] at h
      split at h
      · cases h
      · exact .inl h
  | network event =>
    rcases step_task h with h | h
    · exact .inl h
    · cases h
  | tick =>
    rcases step_task h with h | h
    · exact .inl h
    · cases h
  | commitProcEvent =>
    rcases step_task h with h | h
    · exact .inl h
    · cases h

end Node

/-! ## Runs -/

/-- The queries that an observer has seen since the start of the node. -/
structure Queries where
  sent : List Query
  received : List Query

namespace Queries

/-- The observer. -/
def note (g : Queries) (node : Node) (input : Input) : Queries where
  sent := (node.publishes input).toList ++ g.sent
  received := (Node.receives input).toList ++ g.received

/-- Every query that was seen, or that the database came with, is stored. -/
def Kept (storage : Storage) (g : Queries) (s : Storage) : Prop :=
  (∀ q ∈ g.sent ++ storage.getAllQueriesSent, q ∈ s.getAllQueriesSent) ∧
    ∀ q ∈ g.received ++ storage.getAllQueriesRecv, q ∈ s.getAllQueriesRecv

/-- The node has published one query at most, from one address, and no two received queries have
one id. -/
structure Apart (storage : Storage) (g : Queries) : Prop where
  sent : ∀ q ∈ g.sent, ∀ q' ∈ g.sent, q.data = q'.data ∧ q.requesterAddr = q'.requesterAddr
  stored : ∀ q ∈ g.sent, ∀ q' ∈ storage.getAllQueriesSent, q'.id = 1 → q' = q
  received : ∀ q ∈ g.received ++ storage.getAllQueriesRecv,
    ∀ q' ∈ g.received ++ storage.getAllQueriesRecv, q.id = q'.id → q = q'

/-- Under the id of a query that was seen, one that was seen is stored. -/
structure Wrote (storage : Storage) (g : Queries) (s : Storage) : Prop where
  sent : Tree.Wrote Query.id (g.sent ++ storage.getAllQueriesSent) s.queriesSent
  received : Tree.Wrote Query.id (g.received ++ storage.getAllQueriesRecv) s.queriesReceived

variable {storage : Storage} {g : Queries} {node : Node}

theorem wrote_start (s : Storage) : Wrote s ⟨[], []⟩ s where
  sent := Tree.wrote_values s.queriesSent_keyed
  received := Tree.wrote_values s.queriesReceived_keyed

theorem Wrote.step (h : g.Wrote storage node.storage) (input : Input) :
    (g.note node input).Wrote storage (node.step env input).storage := by
  have hsame := Node.step_queries env node input
  have hwith : (g.note node input).Wrote storage (node.withQueries input) := by
    unfold note Node.withQueries
    cases node.publishes input with
    | none =>
      cases Node.receives input with
      | none => exact h
      | some q => exact ⟨h.sent, h.received.insert q⟩
    | some p =>
      cases Node.receives input with
      | none => exact ⟨h.sent.insert p, h.received⟩
      | some q => exact ⟨h.sent.insert p, h.received.insert q⟩
  constructor
  · rw [hsame.sent]
    exact hwith.sent
  · rw [hsame.received]
    exact hwith.received

/-- The queries that the node has made are its own. -/
structure Made (env : Env Hash) (g : Queries) (node : Node) : Prop where
  waiting : ∀ id q, node.tasks id = some (.post (.newQueryPublished q)) → Node.Own env q
  sent : ∀ q ∈ g.sent, Node.Own env q

theorem made_start (env : Env Hash) (s : Storage) : Made env ⟨[], []⟩ (.start s) where
  waiting _ _ h := nomatch h
  sent _ hq := absurd hq List.not_mem_nil

theorem Made.step (h : g.Made env node) (input : Input) :
    (g.note node input).Made env (node.step env input) := by
  constructor
  · intro id q hq
    rcases Node.step_published hq with hq | hq
    · exact h.waiting id q hq
    · exact hq
  · intro q hq
    rcases List.mem_append.mp hq with hq | hq
    · have hp : node.publishes input = some q := by simpa using hq
      unfold Node.publishes at hp
      split at hp
      · split at hp
        · rename_i htask
          cases hp
          exact h.waiting _ _ htask
        · cases hp
      · cases hp
    · exact h.sent q hq

/-- The published queries have one id, so they are kept only if there is one of them. -/
theorem Made.distinct_iff (h : g.Made env node) (storage : Storage) :
    (∀ q ∈ g.sent ++ storage.getAllQueriesSent, ∀ q' ∈ g.sent ++ storage.getAllQueriesSent,
        q.id = q'.id → q = q') ↔
      (∀ q ∈ g.sent, ∀ q' ∈ g.sent, q.data = q'.data ∧ q.requesterAddr = q'.requesterAddr) ∧
        ∀ q ∈ g.sent, ∀ q' ∈ storage.getAllQueriesSent, q'.id = 1 → q' = q := by
  have hid : ∀ q ∈ g.sent, q.id = 1 := fun q hq => (h.sent q hq).1
  constructor
  · intro hdistinct
    constructor
    · intro q hq q' hq'
      have heq : q = q' := hdistinct q (List.mem_append_left _ hq) q' (List.mem_append_left _ hq')
        ((hid q hq).trans (hid q' hq').symm)
      exact ⟨congrArg Query.data heq, congrArg Query.requesterAddr heq⟩
    · intro q hq q' hq' hone
      exact hdistinct q' (List.mem_append_right _ hq') q (List.mem_append_left _ hq)
        (hone.trans (hid q hq).symm)
  · rintro ⟨hsent, hstored⟩ q hq q' hq' hkey
    rcases List.mem_append.mp hq with hq | hq
    · rcases List.mem_append.mp hq' with hq' | hq'
      · obtain ⟨hdata, haddr⟩ := hsent q hq q' hq'
        exact (h.sent q hq).eq (h.sent q' hq') hdata haddr
      · exact (hstored q hq q' hq' (hkey.symm.trans (hid q hq))).symm
    · rcases List.mem_append.mp hq' with hq' | hq'
      · exact hstored q' hq' q hq (hkey.trans (hid q' hq'))
      · exact Tree.values_inj storage.queriesSent_keyed hq hq' hkey

end Queries

/-- The run with its observer. -/
def Node.observedQueries (env : Env Hash) (storage : Storage) (inputs : List Input) :
    Queries × Node :=
  Run.final (Run.watch (Node.step env) Queries.note) (⟨[], []⟩, .start storage) inputs

/-- After a run, the node has every query that it published or received exactly if all that it
published are one query, and no two of the received ones have one id. -/
theorem queries_kept_iff (env : Env Hash) (storage : Storage) (inputs : List Input) :
    (Node.observedQueries env storage inputs).1.Kept storage
        (Node.observedQueries env storage inputs).2.storage ↔
      (Node.observedQueries env storage inputs).1.Apart storage := by
  have hstep : ∀ (x : Queries × Node) (input : Input),
      x.1.Wrote storage x.2.storage ∧ x.1.Made env x.2 → True →
      (Run.watch (Node.step env) Queries.note x input).1.Wrote storage
          (Run.watch (Node.step env) Queries.note x input).2.storage ∧
        (Run.watch (Node.step env) Queries.note x input).1.Made env
          (Run.watch (Node.step env) Queries.note x input).2 :=
    fun _ input h _ => ⟨h.1.step input, h.2.step input⟩
  have hstart : Queries.Wrote storage ⟨[], []⟩ (Node.start storage).storage ∧
      Queries.Made env ⟨[], []⟩ (.start storage) :=
    ⟨Queries.wrote_start storage, Queries.made_start env storage⟩
  let x : Queries × Node := (⟨[], []⟩, .start storage)
  obtain ⟨hwrote, hmade⟩ := Run.final_inv (s := x) hstep hstart (Run.always_trivial _ inputs)
  have hsent := (hwrote.sent.kept_iff (Storage.queriesSent_keyed _)).trans
    (hmade.distinct_iff storage)
  have hreceived := hwrote.received.kept_iff (Storage.queriesReceived_keyed _)
  constructor
  · rintro ⟨hs, hr⟩
    exact ⟨(hsent.mp hs).1, (hsent.mp hs).2, hreceived.mp hr⟩
  · intro h
    exact ⟨hsent.mpr ⟨h.sent, h.stored⟩, hreceived.mpr h.received⟩

/-- Two queries of the node, one after the other. -/
def twoPostsInputs : List Input :=
  [.post (.newQuery ⟨"a"⟩), .task 0 (.networkDetails (some ⟨[10]⟩)), .task 0 (.published true),
    .post (.newQuery ⟨"b"⟩), .task 1 (.networkDetails (some ⟨[10]⟩)), .task 1 (.published true)]

/-- The query that node `i` publishes. -/
def queryFrom (i : UInt8) : Query where
  id := 1
  data := ⟨"a"⟩
  requesterAddr := ⟨[i]⟩
  requesterId := ⟨[i]⟩
  requesterWalletAddress := 8

/-- Queries of two other nodes. -/
def twoRequestersInputs : List Input :=
  [.network (.gossipsubMessageRecv (.newQuery (queryFrom 2))),
    .network (.gossipsubMessageRecv (.newQuery (queryFrom 3)))]

/-- The second query takes the place of the first one, on either side. -/
theorem not_queries_kept :
    (¬ ∀ inputs, ∀ q ∈ (Node.observedQueries plainEnv .new inputs).1.sent,
      q ∈ (Node.observedQueries plainEnv .new inputs).2.storage.getAllQueriesSent) ∧
    ¬ ∀ inputs, ∀ q ∈ (Node.observedQueries plainEnv .new inputs).1.received,
      q ∈ (Node.observedQueries plainEnv .new inputs).2.storage.getAllQueriesRecv := by
  constructor
  · intro h
    exact absurd (h twoPostsInputs ⟨1, ⟨"a"⟩, ⟨[10]⟩, ⟨[1]⟩, 8⟩ (by decide +kernel))
      (by decide +kernel)
  · intro h
    exact absurd (h twoRequestersInputs (queryFrom 2) (by decide +kernel)) (by decide +kernel)

end Dse
