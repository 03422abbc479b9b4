import Dse.Lib.Run
import Mathlib.Logic.Function.Basic
import Mathlib.Data.List.Nodup

/-!
# Jobs that read and write in two steps

A job takes a copy of a part of the shared state in one step, and puts back what it made of the copy
in another one; other jobs act in between. A job is timely when it puts back what it would put back
if it took its copy only now. If every job is, the shared state is what the finished jobs leave when
each of them is done in a single step, in the order in which they wrote.
-/

namespace Serial

variable {σ α ι : Type*}

/-- What a job reads, what it makes of it, and how it puts that back. -/
structure Job (σ α : Type*) where
  read : σ → α
  modify : α → α
  write : α → σ → σ

/-- The whole job in one step. -/
def Job.exec (job : Job σ α) (s : σ) : σ := job.write (job.modify (job.read s)) s

/-- Where a job stands. -/
inductive Phase (α : Type*)
  | waiting
  | holding (copy : α)
  | done
deriving DecidableEq

/-- The copy that the job holds. -/
def Phase.copy? : Phase α → Option α
  | .holding copy => some copy
  | _ => none

/-- The shared state, and where the jobs stand. -/
structure State (σ α ι : Type*) where
  shared : σ
  phase : ι → Phase α

/-- No job has begun. -/
def start (s : σ) : State σ α ι where
  shared := s
  phase _ := .waiting

variable [DecidableEq ι] (jobs : ι → Job σ α)

/-- The job `i` takes its next step. -/
def step (x : State σ α ι) (i : ι) : State σ α ι :=
  match x.phase i with
  | .waiting =>
    { x with phase := Function.update x.phase i (.holding ((jobs i).read x.shared)) }
  | .holding copy =>
    { shared := (jobs i).write ((jobs i).modify copy) x.shared
      phase := Function.update x.phase i .done }
  | .done => x

omit [DecidableEq ι] in
/-- If the job writes now, it writes what it would write if it read now. -/
def Timely (x : State σ α ι) (i : ι) : Prop :=
  ∀ copy ∈ (x.phase i).copy?, (jobs i).modify copy = (jobs i).modify ((jobs i).read x.shared)

instance [DecidableEq α] (x : State σ α ι) (i : ι) : Decidable (Timely jobs x i) :=
  inferInstanceAs (Decidable (∀ copy ∈ (x.phase i).copy?, _))

omit [DecidableEq ι] in
/-- The observer: the jobs that have written, in order. -/
def writes (order : List ι) (x : State σ α ι) (i : ι) : List ι :=
  match x.phase i with
  | .holding _ => order ++ [i]
  | _ => order

/-- The jobs that have written are the finished ones, and have left the shared state. -/
structure Written (s : σ) (order : List ι) (x : State σ α ι) : Prop where
  nodup : order.Nodup
  mem : ∀ i, i ∈ order ↔ x.phase i = .done
  shared : x.shared = order.foldl (fun s i => (jobs i).exec s) s

variable {jobs} {s : σ} {order : List ι} {x : State σ α ι} {i : ι}

omit [DecidableEq ι] in
theorem written_start (s : σ) : Written jobs s [] (start s) where
  nodup := List.nodup_nil
  mem i := by simp [start]
  shared := rfl

theorem step_waiting (h : x.phase i = .waiting) : step jobs x i =
    { x with phase := Function.update x.phase i (.holding ((jobs i).read x.shared)) } := by
  simp only [step, h]

theorem step_holding {copy : α} (h : x.phase i = .holding copy) : step jobs x i =
    { shared := (jobs i).write ((jobs i).modify copy) x.shared
      phase := Function.update x.phase i .done } := by
  simp only [step, h]

theorem step_done (h : x.phase i = .done) : step jobs x i = x := by
  simp only [step, h]

theorem Written.step (h : Written jobs s order x) (ht : Timely jobs x i) :
    Written jobs s (writes order x i) (step jobs x i) := by
  cases hi : x.phase i with
  | waiting =>
    have horder : writes order x i = order := by simp only [writes, hi]
    rw [horder, step_waiting hi]
    refine ⟨h.nodup, fun j => ?_, h.shared⟩
    simp only [h.mem, Function.update_apply]
    by_cases hj : j = i
    · simp [hj, hi]
    · rw [if_neg hj]
  | holding copy =>
    have horder : writes order x i = order ++ [i] := by simp only [writes, hi]
    have hnot : i ∉ order := by
      rw [h.mem, hi]
      nofun
    rw [horder, step_holding hi]
    refine ⟨?_, fun j => ?_, ?_⟩
    · exact List.nodup_append.mpr ⟨h.nodup, List.nodup_singleton i, fun a ha b hb =>
        List.mem_singleton.mp hb ▸ ne_of_mem_of_not_mem ha hnot⟩
    · simp only [List.mem_append, List.mem_singleton, h.mem, Function.update_apply]
      by_cases hj : j = i
      · simp [hj]
      · simp [hj]
    · -- the copy is as good as a new one
      have hfresh := ht copy (by rw [hi]; rfl)
      rw [List.foldl_append, ← h.shared, hfresh]
      rfl
  | done =>
    have horder : writes order x i = order := by simp only [writes, hi]
    rw [horder, step_done hi]
    exact h

/-- Timely jobs are done as if one after another. -/
theorem exists_order (s : σ) (schedule : List ι)
    (ht : Run.Always (step jobs) (Timely jobs) (start s) schedule) :
    ∃ order : List ι, Written jobs s order (Run.final (step jobs) (start s) schedule) := by
  have hstep : ∀ (y : List ι × State σ α ι) (i : ι), Written jobs s y.1 y.2 → Timely jobs y.2 i →
      Written jobs s (Run.watch (step jobs) writes y i).1 (Run.watch (step jobs) writes y i).2 :=
    fun _ _ h ht => h.step ht
  rw [← Run.always_watch (Timely jobs) (([], start s) : List ι × State σ α ι)] at ht
  have hfinal := Run.final_inv hstep (written_start s) ht
  rw [Run.final_watch_snd] at hfinal
  exact ⟨_, hfinal⟩

end Serial
