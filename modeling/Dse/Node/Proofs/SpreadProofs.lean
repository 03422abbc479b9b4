import Dse.Node.Proofs.OrderProofs

/-!
# How histories spread

A search of a history finds the commits that survive what came in: those stored at the start or
brought by a message or a load, and not silenced by an invalidating signature that came later
(`search_exact`). A node that is asked for a history sends the one it has, and a load takes in what
passes its filter. So from then on the node that loads finds what it would have found by itself and
what survived everything that came in at the other one, unless it is silenced again
(`history_spreads`): the invalidating signatures travel with their commits.
-/

namespace Dse

open Storage

variable {Hash : Type} {env : Env Hash} {w : Address}

/-! ## What comes in with a run -/

namespace Incoming

/-- It brings the commit into the history of the wallet, and the commit stands. -/
def BringsTo (w : Address) (c : Commit) : Incoming → Prop
  | .commits wallet cs => wallet = w ∧ c ∈ cs ∧ c.Live
  | _ => False

/-- It is a signature that invalidates the commit in the history of the wallet. -/
def Silences (w : Address) (c : Commit) : Incoming → Prop
  | .signature tradeId wallets _ => w ∈ wallets ∧ c.cType = .t1 ∧ c.u = tradeId
  | _ => False

instance (w : Address) (c : Commit) : ∀ x : Incoming, Decidable (x.Silences w c)
  | .nothing => .isFalse id
  | .commits _ _ => .isFalse id
  | .signature tradeId wallets _ =>
    inferInstanceAs (Decidable (w ∈ wallets ∧ c.cType = .t1 ∧ c.u = tradeId))

/-- The commit is among `cs` or comes in, and nothing that comes later silences it. -/
def Outlasts (w : Address) (cs : List Commit) (xs : List Incoming) (c : Commit) : Prop :=
  Survival.Survives (fun c => c ∈ cs ∧ c.Live) (BringsTo w) (Silences w) xs c

theorem silences_mark {x : Incoming} {c : Commit} {tradeId : U32} {sig : Signature} :
    x.Silences w (c.mark tradeId sig) ↔ x.Silences w c := by
  unfold Commit.mark
  split <;> rfl

end Incoming

namespace Node

/-- What comes into the histories with the inputs of a run. -/
def received (env : Env Hash) (node : Node) : List Input → List Incoming
  | [] => []
  | input :: inputs => Incoming.ofStep env node input :: (node.step env input).received env inputs

theorem run_append (node : Node) (inputs inputs' : List Input) :
    node.run env (inputs ++ inputs') = (node.run env inputs).run env inputs' :=
  List.foldl_append

theorem received_append (node : Node) (inputs inputs' : List Input) :
    node.received env (inputs ++ inputs') =
      node.received env inputs ++ (node.run env inputs).received env inputs' := by
  induction inputs generalizing node with
  | nil => rfl
  | cons input inputs ih => exact congrArg _ (ih (node.step env input))

end Node

/-- What stands in a history after something came in: what stood and is not silenced, and what was
brought. -/
theorem exists_live_receive (s : Storage) (x : Incoming) {Q : Commit → Prop}
    (hQ : ∀ tradeId sig c, Q (c.mark tradeId sig) ↔ Q c) :
    (∃ c ∈ (s.receive x).commitsOf w, c.Live ∧ Q c) ↔
      (∃ c ∈ s.commitsOf w, c.Live ∧ ¬ x.Silences w c ∧ Q c) ∨ ∃ c, x.BringsTo w c ∧ Q c := by
  cases x with
  | nothing => simp [receive, Incoming.Silences, Incoming.BringsTo]
  | commits wallet cs =>
    by_cases hw : w = wallet
    · subst hw
      simp only [receive, commitsOf_addCommits, if_true, List.mem_append, or_and_right, exists_or,
        Incoming.Silences, Incoming.BringsTo, not_false_eq_true, true_and, and_assoc]
    · simp [receive, commitsOf_addCommits, if_neg hw, Incoming.Silences, Incoming.BringsTo,
        Ne.symm hw]
  | signature tradeId wallets sig =>
    rw [commitsOf_signature]
    by_cases hw : w ∈ wallets
    · simp only [hw, if_true, List.mem_map, exists_exists_and_eq_and, Commit.live_mark, hQ,
        Incoming.Silences, Incoming.BringsTo, true_and, false_and, exists_false, or_false,
        and_assoc]
    · simp [Incoming.Silences, Incoming.BringsTo, hw]

/-- What stands in a history after a run is what survived everything that came in. -/
theorem exists_live_run (node : Node) (inputs : List Input) {Q : Commit → Prop}
    (hQ : ∀ tradeId sig c, Q (c.mark tradeId sig) ↔ Q c) :
    (∃ c ∈ (node.run env inputs).storage.commitsOf w, c.Live ∧ Q c) ↔
      ∃ c, Incoming.Outlasts w (node.storage.commitsOf w) (node.received env inputs) c ∧ Q c := by
  induction inputs using List.reverseRecOn generalizing Q with
  | nil => simp [Incoming.Outlasts, Node.received, Node.run, and_assoc]
  | append_singleton inputs input ih =>
    have hrun : (node.run env (inputs ++ [input])).storage.commitsOf w =
        ((node.run env inputs).storage.receive
          (Incoming.ofStep env (node.run env inputs) input)).commitsOf w := by
      rw [Node.run_append]
      exact commitsOf_congr (step_commitHistories env (node.run env inputs) input) w
    have hkeep : ∀ tradeId sig c,
        (¬ (Incoming.ofStep env (node.run env inputs) input).Silences w (c.mark tradeId sig) ∧
          Q (c.mark tradeId sig)) ↔
        ¬ (Incoming.ofStep env (node.run env inputs) input).Silences w c ∧ Q c := by
      intro tradeId sig c
      rw [hQ, Incoming.silences_mark]
    rw [hrun, exists_live_receive _ _ hQ, ih hkeep]
    simp only [Incoming.Outlasts, Node.received_append, Node.received, Survival.survives_concat,
      or_and_right, exists_or, and_assoc]

/-- The search finds a commit exactly when one that survived what came in stands in the way. -/
theorem search_exact (env : Env Hash) (node : Node) (inputs : List Input) (w : Address)
    (indexes : List U32) : (node.run env inputs).storage.conflictFound w indexes = true ↔
      ∃ c, Incoming.Outlasts w (node.storage.commitsOf w) (node.received env inputs) c ∧
        Ranges.Crosses c.indexes indexes := by
  rw [conflictFound_iff]
  refine exists_live_run node inputs fun tradeId sig c => ?_
  rw [Commit.mark_indexes]

/-! ## What a node sends -/

/-- What this code sends: no gossip but queries, and of a history the commits it has stored. -/
def Command.Fits (node : Node) : Command → Prop
  | .publishMessage message => ∃ query, message = .newQuery query
  | .sendCommitRequest _ (.update w cs _) => cs = node.storage.commitsOf w
  | _ => True

section Sends

variable {env : Env Hash} {node : Node} {input : Input} {c : Command}

theorem loadStep_fits {w : Address} {s : Storage} {load : Load} {answer : Answer}
    (hc : c ∈ (loadStep env w s load answer).2.2) : c.Fits node := by
  rcases (loadStep_cases env w s load answer).2 c hc with rfl | ⟨peer, rfl⟩
  · trivial
  · trivial

theorem verifyStep_fits {commit : Commit} {t : Trade} {s : Storage} {stage : VerifyStage}
    {answer : Answer} (hc : c ∈ (verifyStep env commit t s stage answer).commands) :
    c.Fits node := by
  cases stage with
  | loading load =>
    have hload : ∀ c ∈ (loadStep env commit.walletAddress s load answer).2.2, c.Fits node :=
      fun _ h => loadStep_fits h
    simp only [verifyStep] at hc
    generalize loadStep env commit.walletAddress s load answer = o at hload hc
    obtain ⟨s', progress, commands⟩ := o
    cases progress <;> exact hload c hc
  | tracking =>
    cases answer with
    | run =>
      simp only [verifyStep] at hc
      split at hc
      · cases hc
      · rw [List.mem_singleton.mp hc]
        trivial
    | _ => cases hc
  | _ => cases answer <;> cases hc

theorem sendStep_fits {t : Trade} {s : Storage} {stage : SendStage} {answer : Answer}
    (hc : c ∈ (sendStep t s stage answer).commands) : c.Fits node := by
  unfold sendStep at hc
  split at hc
  · split at hc
    · rw [List.mem_singleton.mp hc]
      trivial
    · cases hc
  · cases hc
  · cases hc
  · cases hc

theorem postStep_fits {s : Storage} {stage : PostStage} {answer : Answer}
    (hc : c ∈ (postStep env s stage answer).commands) : c.Fits node := by
  unfold postStep at hc
  split at hc
  · -- the query is published
    rw [List.mem_singleton.mp hc]
    exact ⟨_, rfl⟩
  case h_8 =>
    split at hc
    · rw [List.mem_singleton.mp hc]
      trivial
    · rw [List.mem_singleton.mp hc]
      trivial
  all_goals first
    | (rw [List.mem_singleton.mp hc]; trivial)
    | cases hc

theorem handleExchangeRequest_fits {sender : PeerId} {rid : ℕ} {request : ExchangeRequest}
    (hc : c ∈ (node.handleExchangeRequest sender rid request).2) : c.Fits node := by
  have hsingle : ∀ {response}, c ∈ [Command.sendExchangeResponse sender rid response] →
      c.Fits node := by
    intro response hmem
    rw [List.mem_singleton.mp hmem]
    trivial
  have hcommit : ∀ w tradeId commit, c ∈ (node.handleCommit w sender rid tradeId commit).2 →
      c.Fits node := by
    intro w tradeId commit hmem
    unfold Node.handleCommit at hmem
    split at hmem
    · exact hsingle hmem
    · exact hsingle hmem
  cases request with
  | iWant i => exact hsingle hc
  | startCommit t => exact hsingle hc
  | t1RequesterCommit tradeId commit => exact hcommit _ _ _ hc
  | t1ProviderCommit tradeId commit => exact hcommit _ _ _ hc
  | t2RequesterCommit tradeId commit => exact hcommit _ _ _ hc
  | t2CommitValid tradeId => cases hc
  | invalidatingSignature tradeId sig => cases hc

/-- Whatever a node is handed, it sends what fits. -/
theorem act_fits (hc : c ∈ (node.act env input).2) : c.Fits node := by
  cases input with
  | network event =>
    cases event with
    | gossipsubMessageRecv message =>
      cases message with
      | newQuery query => cases hc
      | commit commit tradeId =>
        simp only [Node.act, Node.handleNetworkEvent] at hc
        split at hc <;> cases hc
      | invalidatingSignature tradeId pw rw sig => cases hc
    | exchangeRequest sender rid request => exact handleExchangeRequest_fits hc
    | commitRequest sender rid request =>
      cases request with
      | wantHistory w =>
        simp only [Node.act, Node.handleNetworkEvent] at hc
        split at hc
        · rename_i history hfind
          rcases List.mem_cons.mp hc with rfl | hc
          · trivial
          · rw [List.mem_singleton.mp hc]
            show history.commits = node.storage.commitsOf w
            unfold commitsOf
            rw [hfind]
        · rw [List.mem_singleton.mp hc]
          trivial
      | update w cs last => cases hc
    | newListenAddr listener addr => cases hc
  | tick => cases hc
  | commitProcEvent => cases hc
  | post message =>
    cases message with
    | startCommit quote => cases hc
    | _ =>
      rw [List.mem_singleton.mp hc]
      trivial
  | task id answer =>
    simp only [Node.act, Node.handleTask] at hc
    split at hc
    · cases hc
    · exact verifyStep_fits hc
    · split at hc <;> cases hc
    · exact sendStep_fits hc
    · exact postStep_fits hc

end Sends

/-! ## From node to node -/

theorem Commit.signingAddress_mark (c : Commit) (tradeId : U32) (sig : Signature) :
    (c.mark tradeId sig).signingAddress env = c.signingAddress env := by
  unfold mark
  split <;> rfl

theorem Commit.epoch_mark (c : Commit) (tradeId : U32) (sig : Signature) :
    (c.mark tradeId sig).epoch = c.epoch := by
  unfold mark
  split <;> rfl

/-- A load takes in what passes its filter. -/
theorem ofStep_update {node : Node} {k : ℕ} {commit : Commit} {t : Trade} {st : LoadingState}
    {epoch : U256} {owner : Address}
    (hload : node.tasks k = some (.verify commit t (.loading (.selecting st epoch owner))))
    (sender : PeerId) (rid : ℕ) (cs : List Commit) (last : Bool) :
    Incoming.ofStep env node (.task k (.event (.commitRequest sender rid (.update w cs last)))) =
      .commits w (loadedCommits env epoch owner cs) := by
  unfold Incoming.ofStep
  simp only [hload]
  rfl

/-- A node sends a history that another one loads. From then on a search of the loading node finds
what it would have found without it, and what survived at the sending node, passes the filter of
the load and is not silenced again. -/
theorem history_spreads (env₁ env₂ : Env Hash) (provider loader : Node)
    (inputs₁ inputs₂ rest : List Input) {p₁ p₂ : PeerId} {rid rid' : ℕ} {cs : List Commit}
    {last : Bool} {k : ℕ} {commit : Commit} {t : Trade} {st : LoadingState} {epoch : U256}
    {owner : Address}
    (hsent : Command.sendCommitRequest p₂ (.update w cs last) ∈
      ((provider.run env₁ inputs₁).act env₁
        (.network (.commitRequest p₂ rid (.wantHistory w)))).2)
    (hload : (loader.run env₂ inputs₂).tasks k =
      some (.verify commit t (.loading (.selecting st epoch owner)))) (indexes : List U32) :
    let update := Input.task k (.event (.commitRequest p₁ rid' (.update w cs last)))
    let later := ((loader.run env₂ inputs₂).step env₂ update).received env₂ rest
    (loader.run env₂ (inputs₂ ++ update :: rest)).storage.conflictFound w indexes = true ↔
      ∃ c, (Incoming.Outlasts w (loader.storage.commitsOf w)
            (loader.received env₂ inputs₂ ++ later) c ∨
          Incoming.Outlasts w (provider.storage.commitsOf w) (provider.received env₁ inputs₁) c ∧
            c.epoch = epoch ∧ c.signingAddress env₂ = some owner ∧
            ∀ x ∈ later, ¬ x.Silences w c) ∧
        Ranges.Crosses c.indexes indexes := by
  intro update later
  obtain rfl : cs = (provider.run env₁ inputs₁).storage.commitsOf w := act_fits hsent
  have hcomes : Incoming.ofStep env₂ (loader.run env₂ inputs₂) update =
      .commits w (loadedCommits env₂ epoch owner
        ((provider.run env₁ inputs₁).storage.commitsOf w)) :=
    ofStep_update hload p₁ rid' _ last
  have hkeeps : ∀ c, Incoming.Outlasts w (loader.storage.commitsOf w)
        (loader.received env₂ (inputs₂ ++ update :: rest)) c ↔
      Incoming.Outlasts w (loader.storage.commitsOf w)
          (loader.received env₂ inputs₂ ++ later) c ∨
        Incoming.BringsTo w c (.commits w (loadedCommits env₂ epoch owner
          ((provider.run env₁ inputs₁).storage.commitsOf w))) ∧
          ∀ x ∈ later, ¬ x.Silences w c := by
    intro c
    unfold Incoming.Outlasts
    rw [Node.received_append, Node.received, hcomes]
    exact Survival.survives_middle fun _ h => h
  -- what the load brings and nothing silences later, in terms of the provider's run
  have hbrought : (∃ c, Incoming.BringsTo w c (.commits w (loadedCommits env₂ epoch owner
        ((provider.run env₁ inputs₁).storage.commitsOf w))) ∧
        (∀ x ∈ later, ¬ x.Silences w c) ∧ Ranges.Crosses c.indexes indexes) ↔
      ∃ c, Incoming.Outlasts w (provider.storage.commitsOf w) (provider.received env₁ inputs₁) c ∧
        c.epoch = epoch ∧ c.signingAddress env₂ = some owner ∧
        (∀ x ∈ later, ¬ x.Silences w c) ∧ Ranges.Crosses c.indexes indexes := by
    rw [← exists_live_run provider inputs₁ fun tradeId sig c => by
      rw [Commit.epoch_mark, Commit.signingAddress_mark, Commit.mark_indexes]
      simp only [Incoming.silences_mark]]
    refine exists_congr fun c => ?_
    simp only [Incoming.BringsTo, loadedCommits, List.mem_filter, Bool.and_eq_true,
      decide_eq_true_eq, true_and]
    tauto
  rw [search_exact]
  simp only [hkeeps, or_and_right, exists_or, and_assoc, hbrought]

/-- Commits of the trades 6 and 7 come in, and an invalidating signature for the first. -/
def askedInputs : List Input :=
  (invalidatedMessages 6 [12, 12] ++ [GossipsubMessage.commit (plainCommit 7) 7]).map fun message =>
    .network (.gossipsubMessageRecv message)

/-- The history of wallet 8 after that. -/
def sentCommits : List Commit :=
  [{ plainCommit 5 with indexes := [0, 10], cType := .t2 },
    { plainCommit 6 with indexes := [12, 12], invalidatingSignature := some ⟨7, 0, 0⟩ },
    plainCommit 7]

/-- The commit of trade 5 is found where the history was loaded. -/
theorem history_spreads_sentCommits :
    ((Node.start tradingStorage).run plainEnv
      (loadingInputs ++ [updateInput 8 sentCommits])).storage.conflictFound 8 [5, 5] = true := by
  have hsent : Command.sendCommitRequest ⟨[2]⟩ (.update 8 sentCommits true) ∈
      (((Node.start trackingStorage).run plainEnv askedInputs).act plainEnv
        (.network (.commitRequest ⟨[2]⟩ 0 (.wantHistory 8)))).2 := by
    decide +kernel
  have hload : ((Node.start tradingStorage).run plainEnv loadingInputs).tasks 0 =
      some (.verify (plainCommit 6) (plainTrade .processingRT1Commit false)
        (.loading (.selecting ⟨[⟨[4]⟩], 0, .pending⟩ 1 7))) := by
    decide +kernel
  have hcrosses : Ranges.Crosses ({ plainCommit 5 with indexes := [0, 10], cType := .t2 } :
      Commit).indexes [5, 5] := ⟨(0, 10), by decide, (5, 5), by decide, by decide, by decide⟩
  refine (history_spreads plainEnv plainEnv (.start trackingStorage) (.start tradingStorage)
    askedInputs loadingInputs [] hsent hload [5, 5]).mpr
      ⟨_, .inr ⟨.inl ⟨?_, ?_⟩, rfl, ?_, ?_⟩, hcrosses⟩
  · decide +kernel
  · decide +kernel
  · decide +kernel
  · intro x hx
    cases hx

end Dse
