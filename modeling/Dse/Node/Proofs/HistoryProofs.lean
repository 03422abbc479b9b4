import Dse.Node.Proofs.StepProofs
import Dse.Wallet.Contract

/-!
# What comes into a commit history

Commits and invalidating signatures come into the stored histories by three ways: a gossiped commit,
a gossiped invalidating signature, and an `Update` that a load takes in. `Incoming.ofStep` says what
a step brings, and `step_commitHistories` that it brings nothing else. A property of the stored
commits is therefore kept by a step exactly when what the step brings has it (`holds_step_iff`).

Neither the owner's signature on a gossiped commit nor any invalidating signature is looked at on
the way in, and a load checks its commits against the wallet it loads but stores them under the
wallet that the `Update` names. So the histories are authentic, and their invalidating signatures
genuine, exactly in the runs whose messages are.
-/

namespace Dse

open Storage

variable {Hash : Type} (env : Env Hash)

/-! ## What a step brings -/

/-- What comes in for the commit histories. -/
inductive Incoming
  | nothing
  | commits (wallet : Address) (cs : List Commit)
  | signature (tradeId : U32) (wallets : List Address) (invalidatingSignature : Signature)

namespace Incoming

/-- What a gossiped message brings to a storage. -/
def ofMessage (s : Storage) : GossipsubMessage → Incoming
  | .commit commit _ =>
    if commit.walletAddress ∈ s.getWalletsOfInterest then .commits commit.walletAddress [commit]
    else .nothing
  | .invalidatingSignature tradeId providerWallet requesterWallet invalidatingSignature =>
    .signature tradeId
      ([providerWallet, requesterWallet].filter fun w => decide (w ∈ s.getWalletsOfInterest))
      invalidatingSignature
  | .newQuery _ => .nothing

/-- What a load takes in of an answer. -/
def ofAnswer : Load → Answer → Incoming
  | .selecting _ epoch ownerAddress,
      .event (.commitRequest _ _ (.update walletAddress cs _)) =>
    .commits walletAddress (loadedCommits env epoch ownerAddress cs)
  | _, _ => .nothing

/-- What a step brings. -/
def ofStep (node : Node) : Input → Incoming
  | .network (.gossipsubMessageRecv message) => ofMessage node.storage message
  | .task id answer =>
    match node.tasks id with
    | some (.verify _ _ (.loading load)) => ofAnswer env load answer
    | _ => .nothing
  | _ => .nothing

end Incoming

/-- The commit with the invalidating signature of its trade. -/
def Commit.mark (tradeId : U32) (sig : Signature) (c : Commit) : Commit :=
  if c.u = tradeId then { c with invalidatingSignature := some sig } else c

theorem Commit.mark_mark (tradeId : U32) (sig : Signature) (c : Commit) :
    (c.mark tradeId sig).mark tradeId sig = c.mark tradeId sig := by
  unfold mark
  by_cases h : c.u = tradeId
  · simp only [if_pos h]
  · simp only [if_neg h]

namespace Storage

/-- The storage with what came in. -/
def receive (s : Storage) : Incoming → Storage
  | .nothing => s
  | .commits wallet cs => s.addCommitsToCommitHistory wallet cs
  | .signature tradeId wallets sig =>
    wallets.foldl
      (fun s wallet => s.updateCommitHistoryWithInvalidatingSignature tradeId wallet sig) s

@[simp] theorem commitHistories_updateActiveTrade (s : Storage) (t : Trade) :
    (s.updateActiveTrade t).commitHistories = s.commitHistories := by
  unfold updateActiveTrade
  split <;> rfl

variable {s s' : Storage}

theorem receive_signature_cons (s : Storage) (tradeId : U32) (w : Address) (wallets : List Address)
    (sig : Signature) : s.receive (.signature tradeId (w :: wallets) sig) =
      (s.updateCommitHistoryWithInvalidatingSignature tradeId w sig).receive
        (.signature tradeId wallets sig) := rfl

theorem commitsOf_signature (s : Storage) (tradeId : U32) (wallets : List Address) (sig : Signature)
    (w : Address) : (s.receive (.signature tradeId wallets sig)).commitsOf w =
      if w ∈ wallets then (s.commitsOf w).map (Commit.mark tradeId sig) else s.commitsOf w := by
  induction wallets generalizing s with
  | nil => rfl
  | cons w' wallets ih =>
    rw [receive_signature_cons, ih, commitsOf_updateInvalidatingSignature]
    by_cases hw : w = w'
    · subst hw
      rw [if_pos rfl, if_pos List.mem_cons_self]
      split
      · -- the same signature for the same wallet again
        rw [List.map_map]
        exact List.map_congr_left fun c _ => Commit.mark_mark tradeId sig c
      · rfl
    · simp [hw]

theorem findCommitHistory_congr (h : s'.commitHistories = s.commitHistories) (w : Address) :
    s'.findCommitHistory w = s.findCommitHistory w := by
  unfold findCommitHistory
  rw [h]

theorem commitsOf_congr (h : s'.commitHistories = s.commitHistories) (w : Address) :
    s'.commitsOf w = s.commitsOf w := by
  unfold commitsOf
  rw [findCommitHistory_congr h]

end Storage

/-- A load only stores what it takes in. -/
theorem loadStep_storage (w : Address) (s : Storage) (load : Load) (answer : Answer) :
    (loadStep env w s load answer).1 = s.receive (Incoming.ofAnswer env load answer) := by
  unfold loadStep
  split
  · rfl
  · rfl
  · rfl
  · rfl
  · rfl
  · split
    · rfl
    · split
      · split <;> rfl
      · rfl
  · rfl
  · -- nothing but an `Update` in the `select!` is taken in
    unfold Incoming.ofAnswer
    split
    · rename_i h _ _
      exact (h _ _ _ _ _ _ _ _ rfl rfl).elim
    · rfl

/-- A gossiped signature is stored for each of the two wallets that is tracked. -/
theorem addInvalidatingSignature_receive (s : Storage) (tradeId : U32) (pw rw : Address)
    (sig : Signature) :
    Node.addInvalidatingSignature (Node.addInvalidatingSignature s tradeId pw sig) tradeId rw sig =
      s.receive (.signature tradeId
        ([pw, rw].filter fun w => decide (w ∈ s.getWalletsOfInterest)) sig) := by
  have htracked : (Node.addInvalidatingSignature s tradeId pw sig).getWalletsOfInterest =
      s.getWalletsOfInterest := by
    unfold Node.addInvalidatingSignature
    split <;> rfl
  rw [Node.addInvalidatingSignature, htracked, Node.addInvalidatingSignature]
  by_cases hp : pw ∈ s.getWalletsOfInterest
  · by_cases hr : rw ∈ s.getWalletsOfInterest
    · simp [hp, hr, receive]
    · simp [hp, hr, receive]
  · by_cases hr : rw ∈ s.getWalletsOfInterest
    · simp [hp, hr, receive]
    · simp [hp, hr, receive]

variable {env} {node : Node} {input : Input}

theorem handleExchangeRequest_commitHistories (sender : PeerId) (rid : ℕ)
    (request : ExchangeRequest) :
    (node.handleExchangeRequest sender rid request).1.storage.commitHistories =
      node.storage.commitHistories := by
  have hcommit : ∀ status tradeId commit,
      (node.handleCommit status sender rid tradeId commit).1.storage = node.storage := by
    intro status tradeId commit
    unfold Node.handleCommit
    split <;> rfl
  cases request with
  | iWant i => rfl
  | startCommit t => rfl
  | t1RequesterCommit tradeId commit => exact congrArg commitHistories (hcommit _ _ _)
  | t1ProviderCommit tradeId commit => exact congrArg commitHistories (hcommit _ _ _)
  | t2RequesterCommit tradeId commit => exact congrArg commitHistories (hcommit _ _ _)
  | t2CommitValid tradeId => rfl
  | invalidatingSignature tradeId sig => rfl

/-- What a gossiped message does to the storage, the queries apart. -/
theorem gossip_commitHistories (message : GossipsubMessage) :
    (node.step env (.network (.gossipsubMessageRecv message))).storage.commitHistories =
      (node.storage.receive (Incoming.ofMessage node.storage message)).commitHistories := by
  cases message with
  | newQuery query => rfl
  | commit commit tradeId =>
    simp only [Node.step, Node.act, Node.handleNetworkEvent, Incoming.ofMessage]
    split <;> rfl
  | invalidatingSignature tradeId pw rw sig =>
    exact congrArg commitHistories (addInvalidatingSignature_receive _ _ _ _ _)

/-- A `verify` stores what its load takes in, and a trade at its two ends. -/
theorem verify_commitHistories {id : ℕ} {commit : Commit} {t : Trade} {stage : VerifyStage}
    (h : node.tasks id = some (.verify commit t stage)) (answer : Answer) :
    (node.step env (.task id answer)).storage.commitHistories =
      (node.storage.receive (Incoming.ofStep env node (.task id answer))).commitHistories := by
  have hstorage : (node.step env (.task id answer)).storage =
      (verifyStep env commit t node.storage stage answer).storage := by
    simp only [Node.step, Node.act, Node.handleTask, h, Node.resume_storage]
  rw [hstorage]
  simp only [Incoming.ofStep, h]
  cases stage with
  | loading load =>
    have hload := loadStep_storage env commit.walletAddress node.storage load answer
    simp only [verifyStep, ← hload]
    split <;> rename_i heq <;> rw [heq]
  | processing =>
    cases answer with
    | run => exact commitHistories_updateActiveTrade _ _
    | _ => rfl
  | tracking =>
    cases answer with
    | run =>
      simp only [verifyStep]
      split <;> rfl
    | _ => rfl
  | adding => cases answer <;> rfl
  | checking => cases answer <;> rfl
  | finishing =>
    cases answer with
    | run => exact commitHistories_updateActiveTrade _ _
    | _ => rfl

theorem sendStep_commitHistories (t : Trade) (s : Storage) (stage : SendStage) (answer : Answer) :
    (sendStep t s stage answer).storage.commitHistories = s.commitHistories := by
  rcases (sendStep_cases t s stage answer).1 with hs | ⟨t', hs⟩
  · rw [hs]
  · rw [hs]
    exact commitHistories_updateActiveTrade s t'

theorem postStep_commitHistories (s : Storage) (stage : PostStage) (answer : Answer) :
    (postStep env s stage answer).storage.commitHistories = s.commitHistories := by
  unfold postStep
  split
  case h_8 => split <;> rfl
  all_goals rfl

/-- Nothing comes into the histories but what the step brings. -/
theorem step_commitHistories (env : Env Hash) (node : Node) (input : Input) :
    (node.step env input).storage.commitHistories =
      (node.storage.receive (Incoming.ofStep env node input)).commitHistories := by
  cases input with
  | network event =>
    cases event with
    | gossipsubMessageRecv message => exact gossip_commitHistories message
    | exchangeRequest sender rid request => exact handleExchangeRequest_commitHistories _ _ _
    | commitRequest sender rid request =>
      cases request with
      | wantHistory w =>
        simp only [Node.step, Node.act, Node.handleNetworkEvent]
        split <;> rfl
      | update w cs last => rfl
    | newListenAddr listener addr => rfl
  | tick => exact congrArg commitHistories (Node.handleTick_storage node)
  | commitProcEvent =>
    simp only [Node.step, Node.act, Node.handleCommitProcEvent]
    split <;> rfl
  | post message => cases message <;> rfl
  | task id answer =>
    cases h : node.tasks id with
    | none => simp [Node.step, Node.act, Node.handleTask, Incoming.ofStep, h, receive]
    | some task =>
      cases task with
      | verify commit t stage => exact verify_commitHistories h answer
      | send t stage =>
        simp only [Node.step, Node.act, Node.handleTask, Incoming.ofStep, h]
        cases stage with
        | reporting event =>
          simp only
          split <;> rfl
        | starting => exact sendStep_commitHistories t _ _ answer
        | requested => exact sendStep_commitHistories t _ _ answer
      | post stage =>
        simp only [Node.step, Node.act, Node.handleTask, Incoming.ofStep, h]
        exact postStep_commitHistories _ stage answer

/-! ## Properties of the stored commits -/

section Holds

variable (P : Address → Commit → Prop)

/-- Every stored commit has the property. -/
def Storage.Holds (s : Storage) : Prop := ∀ w, ∀ c ∈ s.commitsOf w, P w c

/-- What comes in has the property. -/
def Incoming.Has (s : Storage) : Incoming → Prop
  | .nothing => True
  | .commits wallet cs => ∀ c ∈ cs, P wallet c
  | .signature tradeId wallets sig => ∀ w ∈ wallets, ∀ c ∈ s.commitsOf w, c.u = tradeId →
      P w { c with invalidatingSignature := some sig }

instance [∀ w c, Decidable (P w c)] (s : Storage) : ∀ x : Incoming, Decidable (x.Has P s)
  | .nothing => inferInstanceAs (Decidable True)
  | .commits _ cs => inferInstanceAs (Decidable (∀ c ∈ cs, _))
  -- through the list, and not through all addresses
  | .signature _ wallets _ => @List.decidableBAll _ _ (fun _ => List.decidableBAll _ _) wallets

variable (env) in
/-- What the step brings has the property. -/
def Brings (node : Node) (input : Input) : Prop :=
  (Incoming.ofStep env node input).Has P node.storage

instance [∀ w c, Decidable (P w c)] (node : Node) (input : Input) :
    Decidable (Brings env P node input) :=
  inferInstanceAs (Decidable ((Incoming.ofStep env node input).Has P node.storage))

variable {P} {s s' : Storage}

theorem holds_addCommits (h : s.Holds P) (w : Address) (cs : List Commit) :
    (s.addCommitsToCommitHistory w cs).Holds P ↔ ∀ c ∈ cs, P w c := by
  constructor
  · intro h' c hc
    refine h' w c ?_
    rw [commitsOf_addCommits, if_pos rfl]
    exact List.mem_append_right _ hc
  · intro hcs w' c hc
    rw [commitsOf_addCommits] at hc
    split at hc
    · rename_i hw
      subst hw
      rcases List.mem_append.mp hc with hc | hc
      · exact h w' c hc
      · exact hcs c hc
    · exact h w' c hc

theorem holds_signature (h : s.Holds P) (tradeId : U32) (wallets : List Address)
    (sig : Signature) :
    (s.receive (.signature tradeId wallets sig)).Holds P ↔ ∀ w ∈ wallets, ∀ c ∈ s.commitsOf w,
      c.u = tradeId → P w { c with invalidatingSignature := some sig } := by
  constructor
  · intro h' w hw c hc hu
    refine h' w _ ?_
    rw [commitsOf_signature, if_pos hw]
    refine List.mem_map.mpr ⟨c, hc, ?_⟩
    rw [Commit.mark, if_pos hu]
  · intro hsig w c hc
    rw [commitsOf_signature] at hc
    split at hc
    · rename_i hw
      obtain ⟨c₀, hc₀, rfl⟩ := List.mem_map.mp hc
      unfold Commit.mark
      split
      · rename_i hu
        exact hsig w hw c₀ hc₀ hu
      · exact h w c₀ hc₀
    · exact h w c hc

/-- A step keeps the property exactly when what it brings has it. -/
theorem holds_step_iff (h : node.storage.Holds P) :
    (node.step env input).storage.Holds P ↔ Brings env P node input := by
  have hstep : (node.step env input).storage.Holds P ↔
      (node.storage.receive (Incoming.ofStep env node input)).Holds P := by
    unfold Storage.Holds
    simp only [commitsOf_congr (step_commitHistories env node input)]
  rw [hstep]
  unfold Brings
  cases Incoming.ofStep env node input with
  | nothing => exact iff_of_true h trivial
  | commits w cs => exact holds_addCommits h w cs
  | signature tradeId wallets sig => exact holds_signature h tradeId wallets sig

variable (P) in
/-- Every stored commit has the property in every state of a run exactly when what every step
brings has it. -/
theorem holds_iff_brings (hs : node.storage.Holds P) (inputs : List Input) :
    Run.Always (Node.step env) (fun node input => (node.step env input).storage.Holds P) node
        inputs ↔
      Run.Always (Node.step env) (Brings env P) node inputs := by
  have hiff : ∀ (n : Node) (i : Input), n.storage.Holds P → True →
      ((n.step env i).storage.Holds P ↔ Brings env P n i) := fun _ _ h _ => holds_step_iff h
  exact Run.always_iff_of_inv hiff (fun _ _ _ _ h => h) hs (Run.always_trivial node inputs)

theorem holds_of_empty (h : s.commitHistories = ∅) : s.Holds P := by
  intro w c hc
  rw [commitsOf, findCommitHistory_eq_lookup, h] at hc
  simp at hc

end Holds

/-! ## Authentic commits -/

variable (env)

/-- The commit is one of the wallet, signed by the wallet's owner. -/
structure Commit.Authentic (w : Address) (c : Commit) : Prop where
  wallet : c.walletAddress = w
  signed : c.signingAddress env = some (env.ownerAddress w)

instance (w : Address) (c : Commit) : Decidable (c.Authentic env w) :=
  decidable_of_iff (c.walletAddress = w ∧ c.signingAddress env = some (env.ownerAddress w))
    ⟨fun h => ⟨h.1, h.2⟩, fun h => ⟨h.wallet, h.signed⟩⟩

/-- The commits that come in are authentic for the wallet they are stored under. -/
def Incoming.Authentic : Incoming → Prop
  | .commits wallet cs => ∀ c ∈ cs, c.Authentic env wallet
  | _ => True

instance : ∀ x : Incoming, Decidable (x.Authentic env)
  | .commits _ cs => inferInstanceAs (Decidable (∀ c ∈ cs, _))
  | .nothing | .signature _ _ _ => inferInstanceAs (Decidable True)

/-- The commits that the step brings are authentic. -/
def BringsAuthentic (node : Node) (input : Input) : Prop :=
  (Incoming.ofStep env node input).Authentic env

instance (node : Node) (input : Input) : Decidable (BringsAuthentic env node input) :=
  inferInstanceAs (Decidable ((Incoming.ofStep env node input).Authentic env))

variable {env}

/-- What the owner signed does not include the invalidating signature. -/
theorem Commit.Authentic.invalidate {w : Address} {c : Commit} (h : c.Authentic env w)
    (sig : Signature) : { c with invalidatingSignature := some sig }.Authentic env w :=
  ⟨h.wallet, h.signed⟩

theorem brings_authentic_iff (h : node.storage.Holds (Commit.Authentic env)) :
    Brings env (Commit.Authentic env) node input ↔ BringsAuthentic env node input := by
  unfold Brings BringsAuthentic
  cases Incoming.ofStep env node input with
  | nothing => rfl
  | commits w cs => rfl
  | signature tradeId wallets sig =>
    exact iff_of_true (fun w _ c hc _ => (h w c hc).invalidate sig) trivial

/-- The stored histories are authentic in every state of a run exactly when every commit that a step
brings is one of the wallet that it is stored under, and signed by its owner. -/
theorem history_authentic_iff (storage : Storage) (hs : storage.Holds (Commit.Authentic env))
    (inputs : List Input) :
    Run.Always (Node.step env)
        (fun node input => (node.step env input).storage.Holds (Commit.Authentic env))
        (.start storage) inputs ↔
      Run.Always (Node.step env) (BringsAuthentic env) (.start storage) inputs := by
  have hiff : ∀ (n : Node) (i : Input), n.storage.Holds (Commit.Authentic env) → True →
      ((n.step env i).storage.Holds (Commit.Authentic env) ↔ BringsAuthentic env n i) :=
    fun _ _ h _ => (holds_step_iff h).trans (brings_authentic_iff h)
  exact Run.always_iff_of_inv hiff (fun _ _ _ _ h => h) hs (Run.always_trivial _ inputs)

/-- A `verify` that loads the history of wallet 8, up to its first event. -/
def loadingInputs : List Input :=
  [.network (.exchangeRequest ⟨[2]⟩ 0 (.t1RequesterCommit 6 (plainCommit 6))), .task 0 .run,
    .task 0 .run, .task 0 (.providers (some [⟨[4]⟩])), .task 0 (.subscribed true)]

/-- Peer 4 sends an `Update` for the wallet. -/
def updateInput (wallet : Address) (cs : List Commit) : Input :=
  .task 0 (.event (.commitRequest ⟨[4]⟩ 0 (.update wallet cs true)))

theorem history_authentic_iff_update :
    Run.Always (Node.step plainEnv)
      (fun node input => (node.step plainEnv input).storage.Holds (Commit.Authentic plainEnv))
      (.start tradingStorage) (loadingInputs ++ [updateInput 8 [plainCommit 6]]) :=
  (history_authentic_iff tradingStorage (holds_of_empty rfl)
    (loadingInputs ++ [updateInput 8 [plainCommit 6]])).mpr (by decide +kernel)

/-- A commit of wallet 8 comes into the history of wallet 99. -/
theorem not_history_authentic_update :
    ¬ Run.Always (Node.step plainEnv)
      (fun node input => (node.step plainEnv input).storage.Holds (Commit.Authentic plainEnv))
      (.start tradingStorage) (loadingInputs ++ [updateInput 99 [plainCommit 6]]) := by
  intro h
  obtain ⟨-, hlast⟩ := (Run.always_concat _ _ _).mp h
  have hc := (hlast 99 (plainCommit 6) (by decide +kernel)).wallet
  exact absurd hc (by decide)

/-! ## Genuine invalidations -/

variable (env)

/-- A type 1 commit is only invalidated with a signature of its invalidating address over `u`. -/
def Commit.Genuine (c : Commit) : Prop :=
  c.cType = .t1 → ∀ sig ∈ c.invalidatingSignature,
    env.recover (env.keccak256 (invalidatingBlob c.u)) sig = some c.iAddress

instance (c : Commit) : Decidable (c.Genuine env) :=
  inferInstanceAs (Decidable (c.cType = .t1 → ∀ sig ∈ c.invalidatingSignature, _))

variable {env}

/-- The stored invalidating signatures of type 1 commits are genuine in every state of a run exactly
when every one that a step brings, with its commit or for stored commits, is. -/
theorem invalidations_genuine_iff (storage : Storage)
    (hs : storage.Holds fun _ c => c.Genuine env) (inputs : List Input) :
    Run.Always (Node.step env)
        (fun node input => (node.step env input).storage.Holds fun _ c => c.Genuine env)
        (.start storage) inputs ↔
      Run.Always (Node.step env) (Brings env fun _ c => c.Genuine env) (.start storage) inputs :=
  holds_iff_brings (fun _ c => c.Genuine env) hs inputs

/-- A commit of index 4 with an invalidating signature by `signer`. -/
def invalidatedCommit (signer : U256) : Commit :=
  { plainCommit 6 with invalidatingSignature := some ⟨signer, 0, 0⟩ }

theorem invalidations_genuine_iff_update :
    Run.Always (Node.step plainEnv)
      (fun node input => (node.step plainEnv input).storage.Holds fun _ c => c.Genuine plainEnv)
      (.start tradingStorage) (loadingInputs ++ [updateInput 8 [invalidatedCommit 7]]) :=
  (invalidations_genuine_iff tradingStorage (holds_of_empty rfl)
    (loadingInputs ++ [updateInput 8 [invalidatedCommit 7]])).mpr (by decide +kernel)

/-- A signature by 3 silences a commit whose invalidating address is 7. -/
theorem not_invalidations_genuine_update :
    ¬ Run.Always (Node.step plainEnv)
      (fun node input => (node.step plainEnv input).storage.Holds fun _ c => c.Genuine plainEnv)
      (.start tradingStorage) (loadingInputs ++ [updateInput 8 [invalidatedCommit 3]]) := by
  intro h
  obtain ⟨-, hlast⟩ := (Run.always_concat _ _ _).mp h
  have hsig := hlast 8 (invalidatedCommit 3) (by decide +kernel) rfl ⟨3, 0, 0⟩ rfl
  exact absurd hsig (by decide)

end Dse
