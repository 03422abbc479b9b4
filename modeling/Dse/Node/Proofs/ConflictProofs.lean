import Dse.Lib.Run
import Dse.Node.Proofs.TaskProofs

/-!
# Double spends

A `verify` searches the history of the wallet for a commit over the same indexes and drops what it
finds, and an accepted commit does not enter the history. The observer `Acceptances.note` keeps
every search, with the history it went through, and every commit that a trade was advanced on. In a
run in which no search meets a conflict, neither in the history nor with a commit that was searched
for before, the accepted commits of a wallet and an epoch do not overlap.
-/

namespace Dse

open Storage

variable {Hash : Type} {env : Env Hash}

/-! ## Invalidated commits -/

namespace Commit

/-- The commit stands: it is no type 1 commit with an invalidating signature. -/
def Live (c : Commit) : Prop := ¬ (c.cType = .t1 ∧ c.invalidatingSignature ≠ none)

/-- A type 1 commit that the node knows an invalidating signature for, from the commit itself or
from the history of its wallet. -/
def Invalidated (s : Storage) (c : Commit) : Prop :=
  c.cType = .t1 ∧ (c.invalidatingSignature ≠ none ∨
    ∃ c' ∈ s.commitsOf c.walletAddress, c'.signed = c.signed ∧ c'.invalidatingSignature ≠ none)

instance (s : Storage) (c : Commit) : Decidable (c.Invalidated s) :=
  inferInstanceAs (Decidable (_ ∧ (_ ∨ ∃ c' ∈ s.commitsOf c.walletAddress, _ ∧ _)))

theorem live_of_not_invalidated {s : Storage} {c : Commit} (h : ¬ c.Invalidated s) : c.Live := by
  rintro ⟨ht, hsig⟩
  exact h ⟨ht, .inl hsig⟩

/-- An invalidated commit stays invalidated. -/
theorem Invalidated.mono {s s' : Storage} {c : Commit} (h : c.Invalidated s) (hs : Grows s s') :
    c.Invalidated s' := by
  obtain ⟨ht, hsig | ⟨c', hc', hsigned, hsig⟩⟩ := h
  · exact ⟨ht, .inl hsig⟩
  · obtain ⟨c'', hc'', hage⟩ := hs _ c' hc'
    exact ⟨ht, .inr ⟨c'', hc'', hage.signed.trans hsigned, hage.invalidated hsig⟩⟩

/-- The search by positions sees every overlap with a live commit. -/
theorem isInConflict_of_meets {c : Commit} {indexes : List U32} (hl : c.Live)
    (h : Ranges.Meets c.indexes indexes) : CommitHistory.isInConflict indexes c = true := by
  obtain ⟨k, k', hk, hk', h1, h2⟩ := h.exists_positions 0
  unfold CommitHistory.isInConflict
  rw [if_neg hl]
  have hi : 2 * k + 1 ∈ List.range' 1 (c.indexes.length / 2) 2 := by
    rw [List.mem_range']
    exact ⟨k, by omega, by omega⟩
  have hj : 2 * k' + 1 ∈ List.range' 1 (indexes.length - 1) := by
    rw [List.mem_range']
    exact ⟨2 * k', by omega, by omega⟩
  refine List.any_eq_true.mpr ⟨_, hi, List.any_eq_true.mpr ⟨_, hj, ?_⟩⟩
  simpa using ⟨h1, h2⟩

end Commit

/-! ## Searches and acceptances -/

/-- A search of the history: by which task, for which commit, and through which commits. -/
structure Check where
  task : ℕ
  commit : Commit
  history : List Commit

namespace Check

/-- The search that a step makes. -/
def ofStep (node : Node) : Input → Option Check
  | .task id .run =>
    match node.tasks id with
    | some (.verify commit _ .checking) =>
      some ⟨id, commit, node.storage.commitsOf commit.walletAddress⟩
    | _ => none
  | _ => none

/-- The search meets no conflict: not in the history, and not with a commit of the same wallet and
epoch that another task has searched for before, unless one of the two is invalidated. -/
structure IsClean (checks : List Check) (s : Storage) (x : Check) : Prop where
  history : ∀ c ∈ x.history, CommitHistory.isInConflict x.commit.indexes c = false
  earlier : ∀ y ∈ checks, y.task ≠ x.task → y.commit.walletAddress = x.commit.walletAddress →
    y.commit.epoch = x.commit.epoch → ¬ y.commit.Invalidated s → ¬ x.commit.Invalidated s →
    CommitHistory.isInConflict x.commit.indexes y.commit = false

instance (checks : List Check) (s : Storage) (x : Check) : Decidable (x.IsClean checks s) :=
  decidable_of_iff
    ((∀ c ∈ x.history, CommitHistory.isInConflict x.commit.indexes c = false) ∧
      ∀ y ∈ checks, y.task ≠ x.task → y.commit.walletAddress = x.commit.walletAddress →
        y.commit.epoch = x.commit.epoch → ¬ y.commit.Invalidated s → ¬ x.commit.Invalidated s →
        CommitHistory.isInConflict x.commit.indexes y.commit = false)
    ⟨fun h => ⟨h.1, h.2⟩, fun h => ⟨h.history, h.earlier⟩⟩

end Check

/-- What an observer keeps about the acceptance of commits. -/
structure Acceptances where
  checks : List Check := []
  /-- The tasks that advanced their trade, with their commits. -/
  accepted : List (ℕ × Commit) := []

namespace Acceptances

/-- The acceptance that a step makes: a `verify` advances its trade out of a processing status. -/
def ofStep (node : Node) : Input → Option (ℕ × Commit)
  | .task id .run =>
    match node.tasks id with
    | some (.verify commit _ .finishing) => some (id, commit)
    | _ => none
  | _ => none

/-- The observer. -/
def note (g : Acceptances) (node : Node) (input : Input) : Acceptances where
  checks := (Check.ofStep node input).toList ++ g.checks
  accepted := (ofStep node input).toList ++ g.accepted

/-- A search that the step makes is clean. -/
def SearchesClean (g : Acceptances) (node : Node) (input : Input) : Prop :=
  ∀ x, Check.ofStep node input = some x → x.IsClean g.checks node.storage

instance (g : Acceptances) (node : Node) (input : Input) : Decidable (g.SearchesClean node input) :=
  decidable_of_iff (∀ x ∈ Check.ofStep node input, x.IsClean g.checks node.storage) Iff.rfl

/-- A commit that the step accepts overlaps no accepted commit of the same wallet and epoch, unless
one of the two is invalidated by now, and no commit that stood in the history when it was searched
for. -/
def NoDoubleSpend (g : Acceptances) (node : Node) (input : Input) : Prop :=
  ∀ id c, ofStep node input = some (id, c) →
    (∀ a ∈ g.accepted, a.1 ≠ id → a.2.walletAddress = c.walletAddress → a.2.epoch = c.epoch →
      ¬ a.2.Invalidated node.storage → ¬ c.Invalidated node.storage →
        ¬ Ranges.Meets a.2.indexes c.indexes) ∧
    (∃ x ∈ g.checks, x.task = id ∧ x.commit = c) ∧
    ∀ x ∈ g.checks, x.task = id → x.commit = c → ∀ c' ∈ x.history, c'.Live →
      ¬ Ranges.Meets c'.indexes c.indexes

/-! ## The invariant -/

/-- What the clean searches of a run have brought about. -/
structure Inv (g : Acceptances) (node : Node) : Prop where
  finishing : ∀ id c t, node.tasks id = some (.verify c t .finishing) →
    ∃ x ∈ g.checks, x.task = id ∧ x.commit = c
  accepted : ∀ a ∈ g.accepted, ∃ x ∈ g.checks, x.task = a.1 ∧ x.commit = a.2
  disjoint : ∀ x ∈ g.checks, ∀ y ∈ g.checks, y.task ≠ x.task →
    y.commit.walletAddress = x.commit.walletAddress → y.commit.epoch = x.commit.epoch →
    ¬ y.commit.Invalidated node.storage → ¬ x.commit.Invalidated node.storage →
    ¬ Ranges.Meets y.commit.indexes x.commit.indexes
  history : ∀ x ∈ g.checks, ∀ c ∈ x.history, c.Live → ¬ Ranges.Meets c.indexes x.commit.indexes

variable {g : Acceptances} {node : Node} {input : Input}

theorem inv_start (storage : Storage) : Inv {} (.start storage) where
  finishing _ _ _ h := nomatch h
  accepted _ h := absurd h List.not_mem_nil
  disjoint _ h := absurd h List.not_mem_nil
  history _ h := absurd h List.not_mem_nil

theorem mem_note_checks {x : Check} : x ∈ (g.note node input).checks ↔
    Check.ofStep node input = some x ∨ x ∈ g.checks := by
  simp [note]

theorem mem_note_accepted {a : ℕ × Commit} : a ∈ (g.note node input).accepted ↔
    ofStep node input = some a ∨ a ∈ g.accepted := by
  simp [note]

/-- A task that comes to its end has just searched, or was there before. -/
theorem step_finishing {id : ℕ} {c : Commit} {t : Trade}
    (h : (node.step env input).tasks id = some (.verify c t .finishing)) :
    node.tasks id = some (.verify c t .finishing) ∨
      ∃ x, Check.ofStep node input = some x ∧ x.task = id ∧ x.commit = c := by
  rcases step_task h with h | h
  · exact .inl h
  · cases h with
    | @examine _ answer _ _ stage _ hold h1 h2 h3 h4 =>
      obtain ⟨rfl, rfl⟩ := h4 rfl
      right
      refine ⟨⟨id, c, node.storage.commitsOf c.walletAddress⟩, ?_, rfl, rfl⟩
      simp only [Check.ofStep, hold]

theorem ofStep_eq_some {id : ℕ} {c : Commit} (h : ofStep node input = some (id, c)) :
    ∃ t, node.tasks id = some (.verify c t .finishing) := by
  unfold ofStep at h
  split at h
  · split at h
    · rename_i id' _ c' t htask
      cases h
      exact ⟨t, htask⟩
    · cases h
  · cases h

/-- A clean search keeps the invariant. -/
theorem Inv.step (h : Inv g node) (hclean : SearchesClean g node input) :
    Inv (g.note node input) (node.step env input) := by
  have hgrows : Grows node.storage (node.step env input).storage :=
    (step_storageEffect env node input).grows
  have hold : ∀ {c : Commit}, ¬ c.Invalidated (node.step env input).storage →
      ¬ c.Invalidated node.storage :=
    fun hc hinv => hc (hinv.mono hgrows)
  -- a new search against one that was made before
  have hnew : ∀ x, Check.ofStep node input = some x → ∀ y ∈ g.checks, y.task ≠ x.task →
      y.commit.walletAddress = x.commit.walletAddress → y.commit.epoch = x.commit.epoch →
      ¬ y.commit.Invalidated node.storage → ¬ x.commit.Invalidated node.storage →
      ¬ Ranges.Meets y.commit.indexes x.commit.indexes := by
    intro x hx y hy hid hw he hy' hx' hmeets
    have hfound := Commit.isInConflict_of_meets (Commit.live_of_not_invalidated hy') hmeets
    rw [(hclean x hx).earlier y hy hid hw he hy' hx'] at hfound
    cases hfound
  refine { finishing := ?_, accepted := ?_, disjoint := ?_, history := ?_ }
  · intro id c t htask
    rcases step_finishing htask with htask | ⟨x, hx, hid, hc⟩
    · obtain ⟨x, hx, hid, hc⟩ := h.finishing id c t htask
      exact ⟨x, mem_note_checks.mpr (.inr hx), hid, hc⟩
    · exact ⟨x, mem_note_checks.mpr (.inl hx), hid, hc⟩
  · rintro ⟨id, c⟩ ha
    rcases mem_note_accepted.mp ha with ha | ha
    · obtain ⟨t, htask⟩ := ofStep_eq_some ha
      obtain ⟨x, hx, hid, hc⟩ := h.finishing id c t htask
      exact ⟨x, mem_note_checks.mpr (.inr hx), hid, hc⟩
    · obtain ⟨x, hx, hid, hc⟩ := h.accepted _ ha
      exact ⟨x, mem_note_checks.mpr (.inr hx), hid, hc⟩
  · intro x hx y hy hid hw he hy' hx'
    rcases mem_note_checks.mp hx with hx | hx
    · rcases mem_note_checks.mp hy with hy | hy
      · cases hx.symm.trans hy
        exact absurd rfl hid
      · exact hnew x hx y hy hid hw he (hold hy') (hold hx')
    · rcases mem_note_checks.mp hy with hy | hy
      · exact fun hmeets =>
          hnew y hy x hx hid.symm hw.symm he.symm (hold hx') (hold hy') hmeets.symm
      · exact h.disjoint x hx y hy hid hw he (hold hy') (hold hx')
  · intro x hx c hc hl hmeets
    rcases mem_note_checks.mp hx with hx | hx
    · have hfound := Commit.isInConflict_of_meets hl hmeets
      rw [(hclean x hx).history c hc] at hfound
      cases hfound
    · exact h.history x hx c hc hl hmeets

/-- The invariant rules out a double spend at every step. -/
theorem Inv.noDoubleSpend (h : Inv g node) : NoDoubleSpend g node input := by
  intro id c hstep
  obtain ⟨t, htask⟩ := ofStep_eq_some hstep
  obtain ⟨x, hx, rfl, rfl⟩ := h.finishing id c t htask
  refine ⟨?_, ⟨x, hx, rfl, rfl⟩, ?_⟩
  · intro a ha hid hw he ha' hx'
    obtain ⟨y, hy, hya, hyc⟩ := h.accepted a ha
    rw [← hya] at hid
    rw [← hyc] at hw he ha' ⊢
    exact h.disjoint x hx y hy hid hw he ha' hx'
  · intro y hy _ hc c' hc' hl
    rw [← hc]
    exact h.history y hy c' hc' hl

end Acceptances

/-! ## Runs -/

/-- In a run in which every search is clean, no step accepts a commit that spends an index again. -/
theorem no_double_spend (storage : Storage) (inputs : List Input)
    (hclean : Run.Always (Run.watch (Node.step env) Acceptances.note)
      (fun x input => x.1.SearchesClean x.2 input) ({}, .start storage) inputs) :
    Run.Always (Run.watch (Node.step env) Acceptances.note)
      (fun x input => x.1.NoDoubleSpend x.2 input) ({}, .start storage) inputs := by
  have hstep : ∀ (x : Acceptances × Node) (input : Input), x.1.Inv x.2 →
      x.1.SearchesClean x.2 input →
      (Run.watch (Node.step env) Acceptances.note x input).1.Inv
        (Run.watch (Node.step env) Acceptances.note x input).2 :=
    fun _ _ h hok => h.step hok
  exact Run.always_of_inv hstep (fun _ _ h _ => h.noDoubleSpend) (Acceptances.inv_start storage)
    hclean

/-- A provider's database with trades 6 and 7. -/
def twoTradesStorage : Storage :=
  tradingStorage.addActiveTrade { plainTrade .waitingRT1Commit false with id := 7 }

/-- Commits for trades 6 and 7, the second one of index `i`, that are both searched for before
either is accepted. The last step, which accepts the second one, is left out. -/
def twoCommitsInputs (i : U32) : List Input :=
  [.network (.exchangeRequest ⟨[2]⟩ 0 (.t1RequesterCommit 6 (plainCommit 6))),
    .network (.exchangeRequest ⟨[2]⟩ 1
      (.t1RequesterCommit 7 { plainCommit 7 with indexes := [i, i] })),
    .task 0 .run, .task 1 .run, .task 0 .run, .task 1 .run, .task 0 (.providers none),
    .task 1 (.providers none), .task 0 .run, .task 1 .run, .task 0 .run, .task 1 .run, .task 0 .run]

theorem no_double_spend_twoCommitsInputs :
    Run.Always (Run.watch (Node.step plainEnv) Acceptances.note)
      (fun x input => x.1.NoDoubleSpend x.2 input) ({}, .start twoTradesStorage)
      (twoCommitsInputs 5 ++ [.task 1 .run]) :=
  no_double_spend twoTradesStorage (twoCommitsInputs 5 ++ [.task 1 .run]) (by decide +kernel)

/-- Index 4 is accepted for trade 6, and again for trade 7. -/
theorem double_spend_twoCommitsInputs :
    ¬ Run.Always (Run.watch (Node.step plainEnv) Acceptances.note)
      (fun x input => x.1.NoDoubleSpend x.2 input) ({}, .start twoTradesStorage)
      (twoCommitsInputs 4 ++ [.task 1 .run]) := by
  intro h
  obtain ⟨-, hlast⟩ := (Run.always_concat _ _ _).mp h
  obtain ⟨haccepted, -⟩ := hlast 1 (plainCommit 7) (by decide +kernel)
  have hcovers : Ranges.Covers (plainCommit 7).indexes (4 : U32) := ⟨(4, 4), by decide⟩
  exact haccepted (0, plainCommit 6) (by decide +kernel) (by decide) rfl rfl (by decide +kernel)
    (by decide +kernel) ⟨4, hcovers, hcovers⟩

end Dse
