import Dse.Node.HistoryCall
import Dse.Node.Indexer
import Dse.Node.Proofs.StorageProofs

/-!
# Concurrent updates of the histories

Between the two steps of a call another call can put its own copy back, and is then overwritten.
When every call writes what it would write if it read the history at that moment, the calls have the
outcome of some order of whole calls, and nothing that was added is missing.
-/

namespace Dse

open Storage

namespace HistoryCall

/-- What the calls leave, one after another. -/
def execAll (s : Storage) (calls : List HistoryCall) : Storage := calls.foldl exec s

/-- The histories are those that the calls leave one after another, in some order. -/
def Serialized (calls : List HistoryCall) (s s' : Storage) : Prop :=
  ∃ order : List HistoryCall, order.Perm calls ∧
    ∀ w, s'.findCommitHistory w = (execAll s order).findCommitHistory w

/-- Every commit that was added is in the history, perhaps invalidated by now. -/
def Kept (calls : List HistoryCall) (s' : Storage) : Prop :=
  ∀ w cs, addCommitsToCommitHistory w cs ∈ calls → ∀ c ∈ cs, ∃ c' ∈ s'.commitsOf w, c.Ages c'

theorem grows_exec (s : Storage) (call : HistoryCall) : Grows s (call.exec s) := by
  cases call with
  | addCommitsToCommitHistory w cs => exact grows_addCommits s w cs
  | updateCommitHistoryWithInvalidatingSignature tradeId w sig =>
    exact grows_updateInvalidatingSignature s tradeId w sig

theorem grows_execAll (s : Storage) (calls : List HistoryCall) : Grows s (execAll s calls) := by
  induction calls generalizing s with
  | nil => exact .refl s
  | cons call calls ih => exact (grows_exec s call).trans (ih _)

/-- Whole calls keep what they add. -/
theorem kept_execAll (s : Storage) (calls : List HistoryCall) : Kept calls (execAll s calls) := by
  intro w cs hmem c hc
  obtain ⟨before, after, rfl⟩ := List.append_of_mem hmem
  have hadded : c ∈ ((execAll s before).addCommitsToCommitHistory w cs).commitsOf w := by
    rw [commitsOf_addCommits, if_pos rfl]
    exact List.mem_append_right _ hc
  have hrun : execAll s (before ++ addCommitsToCommitHistory w cs :: after) =
      execAll ((execAll s before).addCommitsToCommitHistory w cs) after := by
    simp [execAll, exec]
  rw [hrun]
  exact grows_execAll _ after w c hadded

theorem Serialized.kept {calls : List HistoryCall} {s s' : Storage} (h : Serialized calls s s') :
    Kept calls s' := by
  obtain ⟨order, hperm, hsame⟩ := h
  intro w cs hmem c hc
  have hcommits : s'.commitsOf w = (execAll s order).commitsOf w := by
    unfold commitsOf
    rw [hsame]
  rw [hcommits]
  exact kept_execAll s order w cs (hperm.mem_iff.mpr hmem) c hc

/-- Calls that finish, each of which writes what it would write if it read the history only then,
have the outcome of the same calls one after another, and lose nothing. -/
theorem serialized_of_timely (s : Storage) (calls : List HistoryCall)
    (schedule : List (Fin calls.length))
    (ht : Run.Always (Serial.step (jobs calls)) (Serial.Timely (jobs calls)) (Serial.start s)
      schedule)
    (hdone : ∀ i, (interleave calls s schedule).phase i = .done) :
    Serialized calls s (interleave calls s schedule).shared ∧
      Kept calls (interleave calls s schedule).shared := by
  obtain ⟨order, hw⟩ := Serial.exists_order s schedule ht
  have hperm : order.Perm (List.finRange calls.length) := by
    refine (List.perm_ext_iff_of_nodup hw.nodup (List.nodup_finRange _)).mpr fun i => ?_
    exact iff_of_true ((hw.mem i).mpr (hdone i)) (List.mem_finRange i)
  have hcalls : (order.map calls.get).Perm calls := by
    have hmap := hperm.map calls.get
    rwa [List.map_get_finRange] at hmap
  have hshared : (interleave calls s schedule).shared = execAll s (order.map calls.get) := by
    rw [execAll, List.foldl_map, ← funext₂ fun s i => exec_job (calls.get i) s]
    exact hw.shared
  have hserial : Serialized calls s (interleave calls s schedule).shared :=
    ⟨order.map calls.get, hcalls, fun w => by rw [hshared]⟩
  exact ⟨hserial, hserial.kept⟩

/-- A commit is added, and then two invalidating signatures come for it side by side. -/
def invalidatingCalls : List HistoryCall :=
  [addCommitsToCommitHistory 8 [plainCommit 6],
    updateCommitHistoryWithInvalidatingSignature 6 8 ⟨7, 0, 0⟩,
    updateCommitHistoryWithInvalidatingSignature 6 8 ⟨7, 1, 0⟩]

def invalidatingSchedule : List (Fin invalidatingCalls.length) :=
  ([0, 0, 1, 2, 1, 2] : List (Fin 3))

theorem serialized_of_timely_invalidatingSchedule :
    Serialized invalidatingCalls .new
        (interleave invalidatingCalls .new invalidatingSchedule).shared ∧
      Kept invalidatingCalls (interleave invalidatingCalls .new invalidatingSchedule).shared :=
  serialized_of_timely .new invalidatingCalls invalidatingSchedule (by decide +kernel)
    (by decide +kernel)

/-- Two calls that add a commit each, and read before either writes. -/
def addingCalls : List HistoryCall :=
  [addCommitsToCommitHistory 8 [plainCommit 6], addCommitsToCommitHistory 8 [plainCommit 7]]

def addingSchedule : List (Fin addingCalls.length) := ([0, 1, 0, 1] : List (Fin 2))

/-- The commit of the call that writes first is lost. -/
theorem not_serialized_addingSchedule :
    ¬ Serialized addingCalls .new (interleave addingCalls .new addingSchedule).shared := by
  intro h
  obtain ⟨c', hc', hage⟩ := h.kept 8 [plainCommit 6] (by decide) (plainCommit 6) (by decide)
  have hcommits : (interleave addingCalls .new addingSchedule).shared.commitsOf 8 =
      [plainCommit 7] := by decide +kernel
  rw [hcommits, List.mem_singleton] at hc'
  subst hc'
  exact absurd hage.signed (by decide)

end HistoryCall

end Dse
