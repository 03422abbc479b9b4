import Dse.Node.Proofs.HistoryProofs

/-!
# What a load keeps to

A load of a wallet's history asks peers for it and then listens to everything that arrives at the
node. It takes in every `Update`, whatever wallet it is about and whoever sent it. The observer
`AskedPeers.note` keeps the peers that each load has asked. A load keeps to its wallet and to these
peers exactly when no other `Update` reaches it that makes a difference.
-/

namespace Dse

open Storage

variable {Hash : Type} (env : Env Hash)

/-! ## Loads and the peers they ask -/

/-- The load that the task `id` is in. -/
def Node.load? (node : Node) (id : ℕ) : Option Load :=
  match node.tasks id with
  | some (.verify _ _ (.loading load)) => some load
  | _ => none

/-- The load that goes on, if it does. -/
def LoadProgress.load? : LoadProgress → Option Load
  | .goesOn load => some load
  | _ => none

/-- The state of a load, once it has one. -/
def Load.state? : Load → Option LoadState
  | .selecting st _ _ => some st.state
  | .requesting st _ _ => some st.state
  | _ => none

/-- The peer that a command asks for the history of the wallet. -/
def Command.asks? (wallet : Address) : Command → Option PeerId
  | .sendCommitRequest peerId (.wantHistory w) => if w = wallet then some peerId else none
  | _ => none

/-- The answer hands over a commit that `sender` sent. -/
def Answer.Sends (sender : PeerId) (c : Commit) (answer : Answer) : Prop :=
  ∃ rid w cs last, answer = .event (.commitRequest sender rid (.update w cs last)) ∧ c ∈ cs

/-- The observer: the peers that each task has asked for the history it loads. -/
def AskedPeers.note (asked : ℕ → List PeerId) (node : Node) : Input → ℕ → List PeerId
  | .task id answer =>
    match node.tasks id with
    | some (.verify commit _ (.loading _)) =>
      Function.update asked id
        (asked id ++ (node.act env (.task id answer)).2.filterMap (Command.asks? commit.walletAddress))
    | _ => asked
  | _ => asked

/-! ## One step of a load -/

/-- A step of a load of `wallet` from `s` and `load` to `s'` and `load'` keeps to its wallet and to
the peers it asked. -/
structure Load.Isolated (asked : List PeerId) (wallet : Address) (answer : Answer) (s s' : Storage)
    (load : Load) (load' : Option Load) : Prop where
  /-- No other history changes. -/
  frame : ∀ w, w ≠ wallet → s'.findCommitHistory w = s.findCommitHistory w
  /-- What is added comes from a peer that was asked. -/
  source : ∃ cs, s'.commitsOf wallet = s.commitsOf wallet ++ cs ∧
    ∀ c ∈ cs, ∃ sender ∈ asked, answer.Sends sender c
  /-- The load comes to its end on a last batch for the wallet from a peer that was asked. -/
  ended : load.state? ≠ some .ended → load'.bind Load.state? = some .ended →
    ∃ sender ∈ asked, ∃ rid cs,
      answer = .event (.commitRequest sender rid (.update wallet cs true))

/-- An `Update` that reaches the load in its `select!` is for the wallet and from a peer that was
asked, or makes no difference: none of its commits passes the filter, the wallet it names has a
history already, and it does not end the load. -/
def Load.Fits (asked : List PeerId) (wallet : Address) (s : Storage) : Load → Answer → Prop
  | .selecting st epoch ownerAddress, .event (.commitRequest sender _ (.update w cs last)) =>
    (w = wallet ∧ sender ∈ asked) ∨
      (loadedCommits env epoch ownerAddress cs = [] ∧
        (w = wallet ∨ s.findCommitHistory w ≠ none) ∧ (last = true → st.state = .ended))
  | _, _ => True

variable {env} {asked : List PeerId} {wallet w : Address} {s : Storage} {answer : Answer}

theorem mem_loadedCommits {epoch : U256} {owner : Address} {cs : List Commit} {c : Commit}
    (h : c ∈ loadedCommits env epoch owner cs) : c ∈ cs :=
  List.mem_of_mem_filter h

/-- Adding no commits to a stored history changes nothing. -/
theorem findCommitHistory_addCommits_nil (h : s.findCommitHistory w ≠ none) (w' : Address) :
    (s.addCommitsToCommitHistory w []).findCommitHistory w' = s.findCommitHistory w' := by
  obtain ⟨history, hh⟩ := Option.ne_none_iff_exists'.mp h
  have hw := existingHistory_walletAddress s w
  have hadd : (s.existingHistory w).addNewCommits [] = history := by
    simp [existingHistory, hh, CommitHistory.addNewCommits]
  have hkey : history.walletAddress = w := by
    rw [← hadd]
    exact hw
  rw [addCommitsToCommitHistory, hadd, findCommitHistory_putCommitHistory, hkey]
  split
  · rename_i heq
    rw [heq, hh]
  · rfl

theorem findCommitHistory_addCommits_ne {w' : Address} (h : w' ≠ w) (cs : List Commit) :
    (s.addCommitsToCommitHistory w cs).findCommitHistory w' = s.findCommitHistory w' := by
  rw [addCommitsToCommitHistory, findCommitHistory_putCommitHistory, if_neg]
  rw [CommitHistory.addNewCommits, existingHistory_walletAddress]
  exact h

theorem findCommitHistory_addCommits_ne_none (cs : List Commit) :
    (s.addCommitsToCommitHistory w cs).findCommitHistory w ≠ none := by
  rw [addCommitsToCommitHistory, findCommitHistory_putCommitHistory, if_pos]
  · simp
  · exact (existingHistory_walletAddress s w).symm

/-- A step of a load that stores nothing and does not end. -/
theorem Load.isolated_of_quiet {load : Load} {load' : Option Load}
    (h : load'.bind Load.state? = some .ended → load.state? = some .ended) :
    load.Isolated asked wallet answer s s load' where
  frame _ _ := rfl
  source := ⟨[], by simp, by simp⟩
  ended hne he := absurd (h he) hne

section Update

variable {st : LoadingState} {epoch : U256} {owner : Address} {sender : PeerId} {rid : ℕ}
  {cs : List Commit} {last : Bool}

/-- The load after an `Update`. -/
def LoadingState.afterUpdate (st : LoadingState) (last : Bool) : LoadingState :=
  if last then { st with state := .ended } else st

theorem LoadingState.afterUpdate_ended (h : (st.afterUpdate last).state = .ended)
    (hne : st.state ≠ .ended) : last = true := by
  cases last with
  | true => rfl
  | false => exact absurd h hne

/-- A step of a load that takes in an `Update` is isolated exactly when the `Update` fits. -/
theorem Load.isolated_update_iff : (Load.selecting st epoch owner).Isolated asked wallet
        (.event (.commitRequest sender rid (.update w cs last))) s
        (s.addCommitsToCommitHistory w (loadedCommits env epoch owner cs))
        (some (.selecting (st.afterUpdate last) epoch owner)) ↔
      (Load.selecting st epoch owner).Fits env asked wallet s
        (.event (.commitRequest sender rid (.update w cs last))) := by
  have hcommits := commitsOf_addCommits s w wallet (loadedCommits env epoch owner cs)
  constructor
  · intro h
    have hended : last = true → st.state ≠ .ended → w = wallet ∧ sender ∈ asked := by
      intro hlast hne
      obtain ⟨sender', hs, rid', cs', heq⟩ := h.ended (by simpa [Load.state?] using hne)
        (by simp [Load.state?, LoadingState.afterUpdate, hlast])
      cases heq
      exact ⟨rfl, hs⟩
    by_cases hfit : w = wallet ∧ sender ∈ asked
    · exact .inl hfit
    · have hlast : last = true → st.state = .ended := fun hl => by
        by_contra hne
        exact hfit (hended hl hne)
      by_cases hw : w = wallet
      · -- commits for the wallet from a peer that was not asked
        subst hw
        obtain ⟨cs', hcs, hsent⟩ := h.source
        rw [hcommits, if_pos rfl, List.append_cancel_left_eq] at hcs
        refine .inr ⟨List.eq_nil_iff_forall_not_mem.mpr fun c hc => ?_, .inl rfl, hlast⟩
        obtain ⟨sender', hs, rid', w', cs'', last', heq, -⟩ := hsent c (hcs ▸ hc)
        cases heq
        exact hfit ⟨rfl, hs⟩
      · have hsame := h.frame w hw
        have hstored : s.findCommitHistory w ≠ none :=
          hsame ▸ findCommitHistory_addCommits_ne_none _
        have hof : (s.addCommitsToCommitHistory w (loadedCommits env epoch owner cs)).commitsOf w =
            s.commitsOf w := by
          unfold commitsOf
          rw [hsame]
        rw [commitsOf_addCommits, if_pos rfl, List.append_right_eq_self] at hof
        exact .inr ⟨hof, .inr hstored, hlast⟩
  · rintro (⟨rfl, hs⟩ | ⟨hnil, hw, hlast⟩)
    · refine ⟨fun w' hw' => findCommitHistory_addCommits_ne hw' _,
        ⟨loadedCommits env epoch owner cs, ?_, fun c hc => ?_⟩, ?_⟩
      · rw [hcommits, if_pos rfl]
      · exact ⟨sender, hs, rid, w, cs, last, rfl, mem_loadedCommits hc⟩
      · intro hne he
        have hended : (st.afterUpdate last).state = .ended := by simpa [Load.state?] using he
        have hlast := LoadingState.afterUpdate_ended hended (by simpa [Load.state?] using hne)
        subst hlast
        exact ⟨sender, hs, rid, cs, rfl⟩
    · rw [hnil] at hcommits ⊢
      refine ⟨fun w' hw' => ?_, ⟨[], ?_, by simp⟩, fun hne he => ?_⟩
      · rcases hw with rfl | hw
        · exact findCommitHistory_addCommits_ne hw' _
        · exact findCommitHistory_addCommits_nil hw w'
      · rw [hcommits]
        split
        · rename_i heq
          rw [heq]
        · simp
      · have hne' : st.state ≠ .ended := by simpa [Load.state?] using hne
        have hended : (st.afterUpdate last).state = .ended := by simpa [Load.state?] using he
        have hl := LoadingState.afterUpdate_ended hended hne'
        exact absurd (hlast hl) hne'

end Update

theorem LoadingState.queryFrom_state {st st' : LoadingState} {peer : Option PeerId}
    (h : st.queryFrom = some (st', peer)) : st'.state = st.state := by
  unfold queryFrom at h
  split at h
  · cases h
    rfl
  · split at h
    · cases h
    · cases h
      rfl

/-- A step of a load is isolated exactly when what it is handed fits. -/
theorem Load.isolated_iff (load : Load) :
    load.Isolated asked wallet answer s (loadStep env wallet s load answer).1
        (loadStep env wallet s load answer).2.1.load? ↔
      load.Fits env asked wallet s answer := by
  unfold loadStep
  split
  · exact iff_of_true (isolated_of_quiet nofun) trivial
  · exact iff_of_true (isolated_of_quiet nofun) trivial
  · exact iff_of_true (isolated_of_quiet nofun) trivial
  · exact iff_of_true (isolated_of_quiet (by simp [LoadProgress.load?, Load.state?])) trivial
  · exact isolated_update_iff
  · refine iff_of_true ?_ trivial
    split
    · exact isolated_of_quiet nofun
    · split
      · split
        · rename_i hq
          refine isolated_of_quiet fun he => ?_
          simp only [LoadProgress.load?, Option.bind_some, Load.state?, Option.some.injEq] at he ⊢
          rw [← LoadingState.queryFrom_state hq]
          exact he
        · exact isolated_of_quiet nofun
        · exact isolated_of_quiet nofun
      · exact isolated_of_quiet id
  · refine iff_of_true (isolated_of_quiet fun he => ?_) trivial
    simp only [LoadProgress.load?, Option.bind_some, Load.state?, Option.some.injEq] at he ⊢
    split at he
    · cases he
    · exact he
  · -- nothing but an `Update` in the `select!` is taken in
    refine iff_of_true (isolated_of_quiet id) ?_
    unfold Load.Fits
    split
    · rename_i h _ _
      exact (h _ _ _ _ _ _ _ _ rfl rfl).elim
    · trivial

/-! ## Loads of a node -/

variable (env)

/-- A step that is one of a load keeps to the load's wallet and to the peers it asked. -/
def LoadsIsolated (asked : ℕ → List PeerId) (node : Node) (input : Input) : Prop :=
  ∀ id answer commit t load, input = .task id answer →
    node.tasks id = some (.verify commit t (.loading load)) →
    load.Isolated (asked id) commit.walletAddress answer node.storage
      (node.step env input).storage ((node.step env input).load? id)

/-- What a load is handed fits. -/
def LoadsFit (asked : ℕ → List PeerId) (node : Node) (input : Input) : Prop :=
  ∀ id answer commit t load, input = .task id answer →
    node.tasks id = some (.verify commit t (.loading load)) →
    load.Fits env (asked id) commit.walletAddress node.storage answer

variable {env} {node : Node} {input : Input}

/-- What a step of a load does to the node. -/
theorem step_load {id : ℕ} {commit : Commit} {t : Trade} {load : Load}
    (h : node.tasks id = some (.verify commit t (.loading load))) (answer : Answer) :
    (node.step env (.task id answer)).storage =
        (loadStep env commit.walletAddress node.storage load answer).1 ∧
      (node.step env (.task id answer)).load? id =
        (loadStep env commit.walletAddress node.storage load answer).2.1.load? := by
  simp only [Node.step, Node.act, Node.handleTask, h, verifyStep, Node.load?, Node.resume_storage,
    Node.resume_tasks, if_true]
  generalize loadStep env commit.walletAddress node.storage load answer = result
  obtain ⟨s', progress, commands⟩ := result
  cases progress <;> exact ⟨rfl, rfl⟩

theorem loadsIsolated_iff (asked : ℕ → List PeerId) (node : Node) (input : Input) :
    LoadsIsolated env asked node input ↔ LoadsFit env asked node input := by
  refine forall_congr' fun id => forall_congr' fun answer => forall_congr' fun commit =>
    forall_congr' fun t => forall_congr' fun load => forall_congr' fun hi =>
    forall_congr' fun htask => ?_
  subst hi
  obtain ⟨hs, hl⟩ := @step_load _ env _ _ _ _ _ htask answer
  rw [hs, hl]
  exact load.isolated_iff

/-- In every run the loads keep to their wallets and to the peers they asked exactly when every
`Update` that reaches one of them fits. -/
theorem load_isolated_iff (storage : Storage) (inputs : List Input) :
    Run.Always (Run.watch (Node.step env) (AskedPeers.note env))
        (fun x input => LoadsIsolated env x.1 x.2 input) (fun _ => [], .start storage) inputs ↔
      Run.Always (Run.watch (Node.step env) (AskedPeers.note env))
        (fun x input => LoadsFit env x.1 x.2 input) (fun _ => [], .start storage) inputs :=
  Run.always_congr fun (x : (ℕ → List PeerId) × Node) input => loadsIsolated_iff x.1 x.2 input

/-- A load of wallet 8 stores an `Update` for wallet 99 from a peer that it has not asked, and comes
to its end on it. -/
theorem not_load_isolated_update :
    ¬ Run.Always (Run.watch (Node.step plainEnv) (AskedPeers.note plainEnv))
      (fun x input => LoadsIsolated plainEnv x.1 x.2 input) (fun _ => [], .start tradingStorage)
      (loadingInputs ++ [updateInput 99 [plainCommit 6]]) := by
  intro h
  obtain ⟨-, hlast⟩ := (Run.always_concat _ _ _).mp h
  have hframe := (hlast 0 _ _ _ _ rfl rfl).frame 99 (by decide)
  revert hframe
  decide +kernel

end Dse
