import Dse.Node.Proofs.DatabaseProofs
import Dse.Node.Proofs.OrderProofs

/-!
# Commits that stand stay where they are

Calls of the storage that come one after another take nothing out of a history: they append to it,
and mark the commits of a trade. A type 1 commit stops to stand only by a mark for its own trade in
its own wallet, a type 2 commit never does. What stands is found by every search for one of its
indexes.
-/

namespace Dse

open Storage

/-! ## One call -/

/-- The call marks the commits of the trade in the history of the wallet. -/
def StorageCall.Invalidates (w : Address) (tradeId : U32) (call : StorageCall) : Prop :=
  ∃ sig, call = .updateHistory (.updateCommitHistoryWithInvalidatingSignature tradeId w sig)

theorem Commit.signed_mark (c : Commit) (tradeId : U32) (sig : Signature) :
    (c.mark tradeId sig).signed = c.signed := by
  unfold mark
  split <;> rfl

/-- No call but the two that update a history touches one. -/
theorem StorageCall.commitsOf_exec {s : Storage} {call : StorageCall}
    (h : ∀ update, call ≠ .updateHistory update) (w : Address) :
    (call.exec s).commitsOf w = s.commitsOf w := by
  cases call with
  | updateHistory update => exact absurd rfl (h update)
  | updateActiveTrade trade =>
    simp only [exec, Storage.updateActiveTrade]
    split <;> rfl
  | _ => rfl

/-- A stored commit after a call: it is still in its history, and it stands if it stood and the call
did not mark it. -/
theorem StorageCall.exec_stands {s : Storage} {w : Address} {c : Commit} (hc : c ∈ s.commitsOf w)
    (call : StorageCall) : ∃ c' ∈ (call.exec s).commitsOf w, c'.signed = c.signed ∧
      (c.Live → ¬ (c.cType = .t1 ∧ call.Invalidates w c.u) → c'.Live) := by
  by_cases hcall : ∃ update, call = .updateHistory update
  · obtain ⟨update, rfl⟩ := hcall
    cases update with
    | addCommitsToCommitHistory w' cs =>
      refine ⟨c, ?_, rfl, fun hl _ => hl⟩
      simp only [exec, HistoryCall.exec, commitsOf_addCommits]
      split
      · rename_i hw
        exact List.mem_append_left _ (hw ▸ hc)
      · exact hc
    | updateCommitHistoryWithInvalidatingSignature tradeId w' sig =>
      simp only [exec, HistoryCall.exec, commitsOf_updateInvalidatingSignature]
      split
      · rename_i hw
        subst hw
        refine ⟨c.mark tradeId sig, List.mem_map_of_mem hc, c.signed_mark tradeId sig, ?_⟩
        intro hl hno
        refine Commit.live_mark.mpr ⟨hl, ?_⟩
        rintro ⟨ht, rfl⟩
        exact hno ⟨ht, sig, rfl⟩
      · exact ⟨c, hc, rfl, fun hl _ => hl⟩
  · rw [commitsOf_exec (not_exists.mp hcall)]
    exact ⟨c, hc, rfl, fun hl _ => hl⟩

/-! ## Calls one after another -/

theorem StorageCall.execAll_append (s : Storage) (calls calls' : List StorageCall) :
    execAll s (calls ++ calls') = execAll (execAll s calls) calls' :=
  List.foldl_append

/-- A stored commit after some calls. -/
theorem StorageCall.execAll_stands {s : Storage} {w : Address} {c : Commit}
    (hc : c ∈ s.commitsOf w) (hl : c.Live) (calls : List StorageCall) :
    ∃ c' ∈ (execAll s calls).commitsOf w, c'.signed = c.signed ∧
      ((c.cType = .t1 → ∀ call ∈ calls, ¬ call.Invalidates w c.u) → c'.Live) := by
  -- the commit is followed from call to call; once it is marked nothing more is asked of it
  suffices h : ∃ c' ∈ (execAll s calls).commitsOf w, c'.signed = c.signed ∧
      (c.Live → (c.cType = .t1 → ∀ call ∈ calls, ¬ call.Invalidates w c.u) → c'.Live) by
    obtain ⟨c', hc', hsigned, hlive⟩ := h
    exact ⟨c', hc', hsigned, hlive hl⟩
  clear hl
  induction calls generalizing s c with
  | nil => exact ⟨c, hc, rfl, fun hl _ => hl⟩
  | cons call calls ih =>
    obtain ⟨c₁, hc₁, hsigned₁, hlive₁⟩ := call.exec_stands hc
    obtain ⟨c', hc', hsigned, hlive⟩ := ih hc₁
    have htype : c₁.cType = c.cType := by
      show c₁.signed.cType = c.signed.cType
      rw [hsigned₁]
    have hu : c₁.u = c.u := by
      show c₁.signed.u = c.signed.u
      rw [hsigned₁]
    refine ⟨c', hc', hsigned.trans hsigned₁, ?_⟩
    intro hl hno
    rw [htype, hu] at hlive
    have hfirst : c₁.Live :=
      hlive₁ hl fun ⟨ht, hinv⟩ => hno ht call List.mem_cons_self hinv
    exact hlive hfirst fun ht call' hmem => hno ht call' (List.mem_cons_of_mem _ hmem)

/-- A history in which a commit stands has a conflict with every query for one of its indexes. -/
theorem CommitHistory.findConflict_of_stands {history : CommitHistory} {c : Commit}
    (hc : c ∈ history.commits) (hl : c.Live) {indexes : List U32}
    (hmeets : Ranges.Meets c.indexes indexes) : (history.findConflict indexes).isSome := by
  rw [findConflict, List.find?_isSome]
  exact ⟨c, hc, Commit.isInConflict_of_meets hl hmeets⟩

variable {Blob : Type}

/-- A commit that is added without an invalidating signature is in the history of its wallet after
all later calls, with what its owner signed. Unless it is of type 1 and one of these calls marked its
trade, every search for one of its indexes finds a commit. -/
theorem live_commitment_found (bincode : Bincode Blob) (before after : List StorageCall)
    (w : Address) {cs : List Commit} {c : Commit} (hc : c ∈ cs)
    (hinv : c.invalidatingSignature = none) :
    ∃ db history,
      StorageCall.runAll bincode .new
          (before ++ .updateHistory (.addCommitsToCommitHistory w cs) :: after) = some db ∧
        db.findCommitHistory bincode w = some history ∧
        (∃ c' ∈ history.commits, c'.signed = c.signed) ∧
        (c.cType = .t2 ∨ (∀ call ∈ after, ¬ call.Invalidates w c.u) →
          ∀ indexes, Ranges.Meets c.indexes indexes → (history.findConflict indexes).isSome) := by
  obtain ⟨db, hrun, hdb⟩ := (Backs.new bincode).runAll
    (before ++ .updateHistory (.addCommitsToCommitHistory w cs) :: after)
  set s := StorageCall.execAll .new before with hs
  have hadded : c ∈ (s.addCommitsToCommitHistory w cs).commitsOf w := by
    rw [commitsOf_addCommits, if_pos rfl]
    exact List.mem_append_right _ hc
  have hlive : c.Live := fun h => h.2 hinv
  obtain ⟨c', hc', hsigned, hstands⟩ := StorageCall.execAll_stands hadded hlive after
  have hall : StorageCall.execAll .new
      (before ++ .updateHistory (.addCommitsToCommitHistory w cs) :: after) =
        StorageCall.execAll (s.addCommitsToCommitHistory w cs) after := by
    rw [StorageCall.execAll_append, ← hs]
    rfl
  have hfind := hdb.findCommitHistory w
  rw [hall] at hfind
  -- a commit in the history shows that there is one
  unfold commitsOf at hc'
  cases hhistory : (StorageCall.execAll (s.addCommitsToCommitHistory w cs) after).findCommitHistory w
  with
  | none =>
    rw [hhistory] at hc'
    cases hc'
  | some history =>
    rw [hhistory] at hc' hfind
    refine ⟨db, history, hrun, hfind, ⟨c', hc', hsigned⟩, ?_⟩
    intro hkeeps indexes hmeets
    have hindexes : c'.indexes = c.indexes := by
      show c'.signed.indexes = c.signed.indexes
      rw [hsigned]
    refine CommitHistory.findConflict_of_stands hc' (hstands ?_) (hindexes ▸ hmeets)
    intro ht
    rcases hkeeps with ht2 | hno
    · rw [ht] at ht2
      cases ht2
    · exact hno

/-- A commit of trade 6 that is marked for trade 5 only. -/
theorem live_commitment_found_plainCommit :
    ∃ db history,
      StorageCall.runAll plainBincode .new
          [.updateHistory (.addCommitsToCommitHistory 8 [plainCommit 6]),
            .updateHistory (.updateCommitHistoryWithInvalidatingSignature 5 8 ⟨7, 0, 0⟩)] = some db ∧
        db.findCommitHistory plainBincode 8 = some history ∧
        (∃ c' ∈ history.commits, c'.signed = (plainCommit 6).signed) ∧
        (history.findConflict [3, 5]).isSome := by
  obtain ⟨db, history, hrun, hfind, hkept, hfound⟩ := live_commitment_found plainBincode []
    [.updateHistory (.updateCommitHistoryWithInvalidatingSignature 5 8 ⟨7, 0, 0⟩)] 8
    (List.mem_singleton_self (plainCommit 6)) rfl
  refine ⟨db, history, hrun, hfind, hkept, hfound (.inr ?_) [3, 5] ?_⟩
  · intro call hcall
    rw [List.mem_singleton.mp hcall]
    rintro ⟨sig, heq⟩
    injection heq with heq
    injection heq with hu
    exact absurd hu (by decide)
  · exact ⟨4, ⟨(4, 4), by decide, by decide, by decide⟩, ⟨(3, 5), by decide, by decide, by decide⟩⟩

end Dse
