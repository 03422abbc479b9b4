import Dse.Node.Storage

/-!
# What the storage functions do

Each function is described by what a later lookup sees. Trades, interests and commit histories do
not disturb each other (`SameTrades`), and a commit history only ever grows: a commit that was in it
stays, and a signature that invalidated it is at most replaced by another (`Grows`).
-/

namespace Dse

namespace Storage

variable {s s' : Storage}

/-! ## Trades and interests -/

theorem findActiveTrade_id {iid : U32} {t : Trade} (h : s.findActiveTrade iid = some t) :
    t.id = iid :=
  s.activeTrades_keyed iid t h

theorem mem_getActiveTrades {t : Trade} :
    t ∈ s.getActiveTrades ↔ s.findActiveTrade t.id = some t := by
  unfold getActiveTrades
  rw [Tree.mem_values]
  constructor
  · rintro ⟨k, hk⟩
    rw [s.activeTrades_keyed k t hk]
    exact hk
  · intro h
    exact ⟨t.id, h⟩

theorem findActiveTrade_addActiveTrade (s : Storage) (t : Trade) (iid : U32) :
    (s.addActiveTrade t).findActiveTrade iid =
      if iid = t.id then some t else s.findActiveTrade iid := by
  unfold addActiveTrade findActiveTrade
  split
  · rename_i h
    rw [h]
    exact AList.lookup_insert _
  · rename_i h
    exact AList.lookup_insert_ne h

theorem findActiveTrade_updateActiveTrade (s : Storage) (t : Trade) (iid : U32) :
    (s.updateActiveTrade t).findActiveTrade iid =
      if iid = t.id ∧ (s.findActiveTrade t.id).isSome then some t
      else s.findActiveTrade iid := by
  unfold updateActiveTrade
  cases h : s.findActiveTrade t.id with
  | some t' => simp [findActiveTrade_addActiveTrade]
  | none => simp

theorem findIWant_addIWant (s : Storage) (i : IWant) (iid : U32) :
    (s.addIWant i).findIWant iid = if iid = i.id then some i else s.findIWant iid := by
  unfold addIWant findIWant
  split
  · rename_i h
    rw [h]
    exact AList.lookup_insert _
  · rename_i h
    exact AList.lookup_insert_ne h

@[simp] theorem findIWant_updateActiveTrade (s : Storage) (t : Trade) (iid : U32) :
    (s.updateActiveTrade t).findIWant iid = s.findIWant iid := by
  unfold updateActiveTrade
  split <;> rfl

/-- The same trades and interests. -/
structure SameTrades (s s' : Storage) : Prop where
  trade : ∀ iid, s'.findActiveTrade iid = s.findActiveTrade iid
  iWant : ∀ iid, s'.findIWant iid = s.findIWant iid

theorem SameTrades.refl (s : Storage) : SameTrades s s := ⟨fun _ => rfl, fun _ => rfl⟩

theorem SameTrades.trans {s'' : Storage} (h : SameTrades s s') (h' : SameTrades s' s'') :
    SameTrades s s'' :=
  ⟨fun iid => (h'.trade iid).trans (h.trade iid), fun iid => (h'.iWant iid).trans (h.iWant iid)⟩

/-! ## Commit histories -/

theorem findCommitHistory_eq_lookup (s : Storage) (w : Address) :
    s.findCommitHistory w = s.commitHistories.lookup w := by
  unfold findCommitHistory
  cases h : s.commitHistories.lookup w with
  | some history =>
    have hmem : history ∈ s.commitHistories.values := Tree.mem_values.mpr ⟨w, h⟩
    cases hf : s.commitHistories.values.find? fun x => decide (x.walletAddress = w) with
    | none =>
      have hno := List.find?_eq_none.mp hf history hmem
      exact absurd (s.commitHistories_keyed w history h) (by simpa using hno)
    | some x =>
      obtain ⟨k, hk⟩ := Tree.mem_values.mp (List.mem_of_find?_eq_some hf)
      have hx : x.walletAddress = w := by simpa using List.find?_some hf
      rw [← s.commitHistories_keyed k x hk, hx, h] at hk
      exact hk.symm
  | none =>
    rw [List.find?_eq_none]
    intro x hx
    obtain ⟨k, hk⟩ := Tree.mem_values.mp hx
    have hkey := s.commitHistories_keyed k x hk
    simp only [decide_eq_true_eq]
    rintro rfl
    rw [hkey, hk] at h
    cases h

theorem findCommitHistory_putCommitHistory (s : Storage) (history : CommitHistory) (w : Address) :
    (s.putCommitHistory history).findCommitHistory w =
      if w = history.walletAddress then some history else s.findCommitHistory w := by
  rw [findCommitHistory_eq_lookup, findCommitHistory_eq_lookup]
  unfold putCommitHistory
  split
  · rename_i h
    rw [h]
    exact AList.lookup_insert _
  · rename_i h
    exact AList.lookup_insert_ne h

/-- The stored commits of a wallet. -/
def commitsOf (s : Storage) (w : Address) : List Commit :=
  match s.findCommitHistory w with
  | some history => history.commits
  | none => []

theorem existingHistory_walletAddress (s : Storage) (w : Address) :
    (s.existingHistory w).walletAddress = w := by
  unfold existingHistory
  cases h : s.findCommitHistory w with
  | some history =>
    rw [findCommitHistory_eq_lookup] at h
    exact s.commitHistories_keyed w history h
  | none => rfl

theorem existingHistory_commits (s : Storage) (w : Address) :
    (s.existingHistory w).commits = s.commitsOf w := by
  unfold existingHistory commitsOf
  cases s.findCommitHistory w <;> rfl

theorem commitsOf_putCommitHistory (s : Storage) (history : CommitHistory) (w : Address) :
    (s.putCommitHistory history).commitsOf w =
      if w = history.walletAddress then history.commits else s.commitsOf w := by
  unfold commitsOf
  rw [findCommitHistory_putCommitHistory]
  by_cases h : w = history.walletAddress
  · rw [if_pos h, if_pos h]
  · rw [if_neg h, if_neg h]

theorem commitsOf_addCommits (s : Storage) (w w' : Address) (commits : List Commit) :
    (s.addCommitsToCommitHistory w commits).commitsOf w' =
      if w' = w then s.commitsOf w ++ commits else s.commitsOf w' := by
  unfold addCommitsToCommitHistory
  rw [commitsOf_putCommitHistory]
  simp only [CommitHistory.addNewCommits, existingHistory_walletAddress, existingHistory_commits]

theorem commitsOf_updateInvalidatingSignature (s : Storage) (id : U32) (w w' : Address)
    (sig : Signature) :
    (s.updateCommitHistoryWithInvalidatingSignature id w sig).commitsOf w' =
      if w' = w then (s.commitsOf w).map fun c =>
        if c.u = id then { c with invalidatingSignature := some sig } else c
      else s.commitsOf w' := by
  unfold updateCommitHistoryWithInvalidatingSignature
  rw [commitsOf_putCommitHistory]
  simp only [CommitHistory.updateInvalditingSignature, existingHistory_walletAddress,
    existingHistory_commits]

end Storage

/-! ## Histories grow -/

/-- The commit without its invalidating signature: what its owner signed. -/
def Commit.signed (c : Commit) : Commit := { c with invalidatingSignature := none }

/-- The commit as it is now, after `c` was in the history before. -/
structure Commit.Ages (c c' : Commit) : Prop where
  signed : c'.signed = c.signed
  invalidated : c.invalidatingSignature ≠ none → c'.invalidatingSignature ≠ none

theorem Commit.Ages.refl (c : Commit) : c.Ages c := ⟨rfl, id⟩

theorem Commit.Ages.trans {a b c : Commit} (h : a.Ages b) (h' : b.Ages c) : a.Ages c :=
  ⟨h'.signed.trans h.signed, fun ha => h'.invalidated (h.invalidated ha)⟩

/-- No commit leaves a history. -/
def Storage.Grows (s s' : Storage) : Prop :=
  ∀ w, ∀ c ∈ s.commitsOf w, ∃ c' ∈ s'.commitsOf w, c.Ages c'

namespace Storage

variable {s s' : Storage}

theorem Grows.refl (s : Storage) : Grows s s := fun _ c hc => ⟨c, hc, .refl c⟩

theorem Grows.trans {s'' : Storage} (h : Grows s s') (h' : Grows s' s'') : Grows s s'' := by
  intro w c hc
  obtain ⟨c', hc', ha⟩ := h w c hc
  obtain ⟨c'', hc'', ha'⟩ := h' w c' hc'
  exact ⟨c'', hc'', ha.trans ha'⟩

theorem grows_addCommits (s : Storage) (w : Address) (commits : List Commit) :
    Grows s (s.addCommitsToCommitHistory w commits) := by
  intro w' c hc
  rw [commitsOf_addCommits]
  split
  · rename_i h
    exact ⟨c, List.mem_append_left _ (h ▸ hc), .refl c⟩
  · exact ⟨c, hc, .refl c⟩

theorem grows_updateInvalidatingSignature (s : Storage) (id : U32) (w : Address)
    (sig : Signature) :
    Grows s (s.updateCommitHistoryWithInvalidatingSignature id w sig) := by
  intro w' c hc
  rw [commitsOf_updateInvalidatingSignature]
  split
  · rename_i h
    refine ⟨_, List.mem_map_of_mem (h ▸ hc), ?_⟩
    split
    · exact ⟨rfl, fun _ => nofun⟩
    · exact .refl c
  · exact ⟨c, hc, .refl c⟩

theorem grows_of_commitsOf (h : ∀ w, s'.commitsOf w = s.commitsOf w) : Grows s s' :=
  fun w c hc => ⟨c, (h w).symm ▸ hc, .refl c⟩

/-- Nothing but histories, queries and tracked wallets change, and histories only grow. -/
structure OnlyRecords (s s' : Storage) : Prop extends SameTrades s s' where
  grows : Grows s s'

theorem OnlyRecords.refl (s : Storage) : OnlyRecords s s := ⟨.refl s, .refl s⟩

theorem OnlyRecords.trans {s'' : Storage} (h : OnlyRecords s s') (h' : OnlyRecords s' s'') :
    OnlyRecords s s'' :=
  ⟨h.toSameTrades.trans h'.toSameTrades, h.grows.trans h'.grows⟩

theorem onlyRecords_addCommits (s : Storage) (w : Address) (commits : List Commit) :
    OnlyRecords s (s.addCommitsToCommitHistory w commits) :=
  ⟨⟨fun _ => rfl, fun _ => rfl⟩, grows_addCommits s w commits⟩

theorem onlyRecords_updateInvalidatingSignature (s : Storage) (id : U32) (w : Address)
    (sig : Signature) :
    OnlyRecords s (s.updateCommitHistoryWithInvalidatingSignature id w sig) :=
  ⟨⟨fun _ => rfl, fun _ => rfl⟩, grows_updateInvalidatingSignature s id w sig⟩

theorem onlyRecords_addQueryReceived (s : Storage) (q : Query) :
    OnlyRecords s (s.addQueryReceived q) :=
  ⟨⟨fun _ => rfl, fun _ => rfl⟩, grows_of_commitsOf fun _ => rfl⟩

theorem onlyRecords_addQuerySent (s : Storage) (q : Query) : OnlyRecords s (s.addQuerySent q) :=
  ⟨⟨fun _ => rfl, fun _ => rfl⟩, grows_of_commitsOf fun _ => rfl⟩

theorem onlyRecords_addWalletOfInterest (s : Storage) (w : Address) :
    OnlyRecords s (s.addWalletOfInterest w) :=
  ⟨⟨fun _ => rfl, fun _ => rfl⟩, grows_of_commitsOf fun _ => rfl⟩

theorem grows_addActiveTrade (s : Storage) (t : Trade) : Grows s (s.addActiveTrade t) :=
  grows_of_commitsOf fun _ => rfl

theorem grows_updateActiveTrade (s : Storage) (t : Trade) : Grows s (s.updateActiveTrade t) := by
  unfold updateActiveTrade
  split
  · exact grows_addActiveTrade s t
  · exact .refl s

theorem grows_addIWant (s : Storage) (i : IWant) : Grows s (s.addIWant i) :=
  grows_of_commitsOf fun _ => rfl

end Storage

end Dse
