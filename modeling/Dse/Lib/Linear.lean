import Dse.Lib.Run
import Mathlib.Logic.Function.Basic
import Mathlib.Data.List.Nodup

/-!
# Calls that may take a lock twice

A call holds the lock of the shared state once or twice. In its first section it either ends, or
decides what it will write in its second one; other calls act in between. If no call changes what
another one decided, every interleaving is one of whole calls: each call takes effect in the section
in which it ends, and returns what it returns when the calls are made one after another in that
order. Since a call takes effect between its beginning and its end, that order keeps real time.
-/

namespace Linear

variable {σ ι : Type*}

/-- What the first section of a call leads to. -/
inductive Section (σ : Type*)
  /-- The call is over: the state it leaves, and whether it succeeded. -/
  | ends (s : σ) (ok : Bool)
  /-- The call takes the lock again, to write. -/
  | goesOn (write : σ → σ)

/-- A call is its first section. -/
abbrev Call (σ : Type*) := σ → Section σ

namespace Call

/-- The whole call in one step. -/
def exec (call : Call σ) (s : σ) : σ × Bool :=
  match call s with
  | .ends s ok => (s, ok)
  | .goesOn write => (write s, true)

/-- The call `d` does not change what `c` has decided. -/
def Keeps (c d : Call σ) : Prop :=
  ∀ s write, c s = .goesOn write → c (d.exec s).1 = .goesOn write

theorem exec_ends {call : Call σ} {s s' : σ} {ok : Bool} (h : call s = .ends s' ok) :
    call.exec s = (s', ok) := by
  simp only [exec, h]

theorem exec_goesOn {call : Call σ} {s : σ} {write : σ → σ} (h : call s = .goesOn write) :
    call.exec s = (write s, true) := by
  simp only [exec, h]

/-- A call that never takes the lock twice keeps its word. -/
theorem keeps_of_ends {c : Call σ} (h : ∀ s, ∃ s' ok, c s = .ends s' ok) (d : Call σ) :
    c.Keeps d := by
  intro s write hs
  obtain ⟨s', ok, hend⟩ := h s
  rw [hend] at hs
  cases hs

end Call

/-- Where a call stands. -/
inductive Phase (σ : Type*)
  | waiting
  | holding (write : σ → σ)
  | done

/-- The shared state, and where the calls stand. -/
structure State (σ ι : Type*) where
  shared : σ
  phase : ι → Phase σ

/-- No call has begun. -/
def start (s : σ) : State σ ι where
  shared := s
  phase _ := .waiting

variable [DecidableEq ι] (calls : ι → Call σ)

/-- The call `i` takes its next section. -/
def step (x : State σ ι) (i : ι) : State σ ι :=
  match x.phase i with
  | .waiting =>
    match calls i x.shared with
    | .ends s _ => { shared := s, phase := Function.update x.phase i .done }
    | .goesOn write => { x with phase := Function.update x.phase i (.holding write) }
  | .holding write => { shared := write x.shared, phase := Function.update x.phase i .done }
  | .done => x

omit [DecidableEq ι] in
/-- The observer: the calls that have ended and what they returned, in order. -/
def returns (log : List (ι × Bool)) (x : State σ ι) (i : ι) : List (ι × Bool) :=
  match x.phase i with
  | .waiting =>
    match calls i x.shared with
    | .ends _ ok => log ++ [(i, ok)]
    | .goesOn _ => log
  | .holding _ => log ++ [(i, true)]
  | .done => log

/-- The interleaving, with the calls that have ended in it. -/
def observed (s : σ) (schedule : List ι) : List (ι × Bool) × State σ ι :=
  Run.final (Run.watch (step calls) (returns calls)) ([], start s) schedule

omit [DecidableEq ι] in
/-- Whole calls, one after another, each of which returns what the log says. -/
inductive Sequential : σ → List (ι × Bool) → σ → Prop
  | nil (s : σ) : Sequential s [] s
  | concat {s s' : σ} {log : List (ι × Bool)} (h : Sequential s log s') (i : ι) :
    Sequential s (log ++ [(i, ((calls i).exec s').2)]) ((calls i).exec s').1

/-- The interleaving has the outcome of the calls in the log, one after another. -/
structure Linearized (s : σ) (log : List (ι × Bool)) (x : State σ ι) : Prop where
  nodup : (log.map Prod.fst).Nodup
  mem : ∀ i, i ∈ log.map Prod.fst ↔ x.phase i = .done
  sequential : Sequential calls s log x.shared

variable {calls} {s : σ} {log : List (ι × Bool)} {x : State σ ι} {i : ι}

/-- What a call in its second section is about to write is what it would decide to write now. -/
def Fresh (calls : ι → Call σ) (x : State σ ι) : Prop :=
  ∀ i write, x.phase i = .holding write → calls i x.shared = .goesOn write

omit [DecidableEq ι] in
theorem linearized_start (s : σ) : Linearized calls s [] (start s) where
  nodup := List.nodup_nil
  mem i := by simp [start]
  sequential := .nil s

omit [DecidableEq ι] in
theorem fresh_start (s : σ) : Fresh calls (start s) := by
  intro i write h
  cases h

/-- What a section does: the call goes on, or ends as a whole call, or was over before. -/
theorem step_cases (hfresh : Fresh calls x) (log : List (ι × Bool)) (i : ι) :
    (∃ write, calls i x.shared = .goesOn write ∧ x.phase i = .waiting ∧
      returns calls log x i = log ∧
      step calls x i = { x with phase := Function.update x.phase i (.holding write) }) ∨
    (x.phase i ≠ .done ∧ returns calls log x i = log ++ [(i, ((calls i).exec x.shared).2)] ∧
      step calls x i = { shared := ((calls i).exec x.shared).1
                         phase := Function.update x.phase i .done }) ∨
    (x.phase i = .done ∧ returns calls log x i = log ∧ step calls x i = x) := by
  unfold step returns
  cases hi : x.phase i with
  | waiting =>
    cases hcall : calls i x.shared with
    | ends s' ok =>
      rw [Call.exec_ends hcall]
      exact .inr (.inl ⟨by rintro ⟨⟩, rfl, rfl⟩)
    | goesOn write => exact .inl ⟨write, rfl, rfl, rfl, rfl⟩
  | holding write =>
    rw [Call.exec_goesOn (hfresh i write hi)]
    exact .inr (.inl ⟨by rintro ⟨⟩, rfl, rfl⟩)
  | done => exact .inr (.inr ⟨rfl, rfl, rfl⟩)

/-- If no call changes what another one decided, a section keeps all decisions up to date. -/
theorem Fresh.step (hkeeps : ∀ i j, i ≠ j → (calls i).Keeps (calls j)) (h : Fresh calls x)
    (i : ι) : Fresh calls (step calls x i) := by
  intro j write hj
  rcases step_cases h [] i with ⟨write', hcall, -, -, hstep⟩ | ⟨-, -, hstep⟩ | ⟨-, -, hstep⟩
  · rw [hstep] at hj ⊢
    by_cases hji : j = i
    · subst hji
      have hphase : Phase.holding write' = .holding write := by simpa using hj
      cases hphase
      exact hcall
    · exact h j write (by simpa [Function.update_of_ne hji] using hj)
  · rw [hstep] at hj ⊢
    by_cases hji : j = i
    · subst hji
      simp at hj
    · exact hkeeps j i hji x.shared write
        (h j write (by simpa [Function.update_of_ne hji] using hj))
  · rw [hstep] at hj ⊢
    exact h j write hj

theorem Linearized.step (hfresh : Fresh calls x) (h : Linearized calls s log x) (i : ι) :
    Linearized calls s (returns calls log x i) (step calls x i) := by
  rcases step_cases hfresh log i with
    ⟨write, -, hi, hlog, hstep⟩ | ⟨hi, hlog, hstep⟩ | ⟨-, hlog, hstep⟩
  · rw [hlog, hstep]
    refine ⟨h.nodup, fun j => ?_, h.sequential⟩
    rw [h.mem j]
    by_cases hj : j = i
    · simp [hj, hi]
    · simp [Function.update_of_ne hj]
  · rw [hlog, hstep]
    have hnot : i ∉ log.map Prod.fst := mt (h.mem i).mp hi
    refine ⟨?_, fun j => ?_, h.sequential.concat i⟩
    · rw [List.map_append]
      exact List.nodup_append.mpr ⟨h.nodup, List.nodup_singleton i, fun a ha b hb =>
        List.mem_singleton.mp hb ▸ ne_of_mem_of_not_mem ha hnot⟩
    · rw [List.map_append, List.mem_append, h.mem j]
      by_cases hj : j = i
      · simp [hj]
      · simp [hj]
  · rw [hlog, hstep]
    exact h

/-- Calls that leave each other's decisions alone are done as if one after another, whatever the
schedule. -/
theorem linearized_observed (hkeeps : ∀ i j, i ≠ j → (calls i).Keeps (calls j)) (s : σ)
    (schedule : List ι) :
    Linearized calls s (observed calls s schedule).1 (observed calls s schedule).2 := by
  have hstep : ∀ (y : List (ι × Bool) × State σ ι) (i : ι),
      (Fresh calls y.2 ∧ Linearized calls s y.1 y.2) → True →
      Fresh calls (Run.watch (step calls) (returns calls) y i).2 ∧
        Linearized calls s (Run.watch (step calls) (returns calls) y i).1
          (Run.watch (step calls) (returns calls) y i).2 :=
    fun y i h _ => ⟨h.1.step hkeeps i, h.2.step h.1 i⟩
  exact (Run.final_inv hstep ⟨fresh_start s, linearized_start s⟩
    (Run.always_trivial ([], start s) schedule)).2

end Linear
