import Dse.Lib.Serial
import Dse.Node.Storage

/-!
# The calls that update a history, lock by lock

`add_commits_to_commit_history` and `update_commit_history_with_invalidating_signature` take the
lock of the database twice: `find_commit_history` reads the history under the first, and the
modified copy is inserted under the second. The indexer's handlers and the loads of spawned tasks
make these calls side by side. `Storage.addCommitsToCommitHistory` and its sibling are whole calls
in one step.
-/

namespace Dse

/-- A call that updates a stored history. -/
inductive HistoryCall
  | addCommitsToCommitHistory (walletAddress : Address) (commits : List Commit)
  | updateCommitHistoryWithInvalidatingSignature (tradeId : U32) (walletAddress : Address)
      (invalidatingSignature : Signature)
deriving DecidableEq, Repr

namespace HistoryCall

def walletAddress : HistoryCall → Address
  | addCommitsToCommitHistory walletAddress _ => walletAddress
  | updateCommitHistoryWithInvalidatingSignature _ walletAddress _ => walletAddress

/-- What the call makes of the history it read. -/
def modify : HistoryCall → CommitHistory → CommitHistory
  | addCommitsToCommitHistory _ commits, history => history.addNewCommits commits
  | updateCommitHistoryWithInvalidatingSignature tradeId _ invalidatingSignature, history =>
    history.updateInvalditingSignature tradeId invalidatingSignature

/-- The call as two steps, one for each time it holds the lock. -/
def job (call : HistoryCall) : Serial.Job Storage CommitHistory where
  read s := s.existingHistory call.walletAddress
  modify := call.modify
  write history s := s.putCommitHistory history

/-- The call as one step. -/
def exec (s : Storage) : HistoryCall → Storage
  | addCommitsToCommitHistory walletAddress commits =>
    s.addCommitsToCommitHistory walletAddress commits
  | updateCommitHistoryWithInvalidatingSignature tradeId walletAddress invalidatingSignature =>
    s.updateCommitHistoryWithInvalidatingSignature tradeId walletAddress invalidatingSignature

theorem exec_job (call : HistoryCall) (s : Storage) : call.job.exec s = call.exec s := by
  cases call <;> rfl

/-- The calls by their place in a list, as concurrent jobs. -/
def jobs (calls : List HistoryCall) (i : Fin calls.length) : Serial.Job Storage CommitHistory :=
  (calls.get i).job

/-- The calls take steps in the order of the schedule. -/
def interleave (calls : List HistoryCall) (s : Storage) (schedule : List (Fin calls.length)) :
    Serial.State Storage CommitHistory (Fin calls.length) :=
  Run.final (Serial.step (jobs calls)) (Serial.start s) schedule

end HistoryCall

end Dse
