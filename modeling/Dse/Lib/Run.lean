import Mathlib.Data.List.Basic

/-!
# Runs of a deterministic machine

A machine is a step function `step : σ → ι → σ`; the inputs carry everything the machine does not
decide itself (which task is scheduled, what the environment answers). A run is a list of inputs,
so "for every run" is a quantifier over lists, and "in every reachable state" is the same
quantifier, since every prefix of a run is a run.

`Always P` says that every step of a run meets `P`, a condition on the state before the step and on
the input. `watch` adds a history variable: a machine whose state carries what an observer has
recorded so far, without changing what the machine does.
-/

namespace Run

variable {σ ι γ : Type*}

/-- The state after the inputs `is`. -/
def final (step : σ → ι → σ) (s : σ) (is : List ι) : σ := is.foldl step s

/-- Every step of the run from `s` over the inputs meets `P`. -/
def Always (step : σ → ι → σ) (P : σ → ι → Prop) : σ → List ι → Prop
  | _, [] => True
  | s, i :: is => P s i ∧ Always step P (step s i) is

instance instDecidableAlways (step : σ → ι → σ) (P : σ → ι → Prop)
    [∀ s i, Decidable (P s i)] : ∀ s is, Decidable (Always step P s is)
  | _, [] => inferInstanceAs (Decidable True)
  | s, i :: is =>
    have := instDecidableAlways step P (step s i) is
    inferInstanceAs (Decidable (P s i ∧ Always step P (step s i) is))

/-- The machine `step` together with an observer: `obs` updates the record `g` from the state
before the step and the input. -/
def watch (step : σ → ι → σ) (obs : γ → σ → ι → γ) (x : γ × σ) (i : ι) : γ × σ :=
  (obs x.1 x.2 i, step x.2 i)

section Final

variable {step : σ → ι → σ}

@[simp] theorem final_nil (s : σ) : final step s [] = s := rfl

@[simp] theorem final_cons (s : σ) (i : ι) (is : List ι) :
    final step s (i :: is) = final step (step s i) is := rfl

end Final

section Always

variable {step : σ → ι → σ} {P Q : σ → ι → Prop}

@[simp] theorem always_nil (s : σ) : Always step P s [] := trivial

@[simp] theorem always_cons (s : σ) (i : ι) (is : List ι) :
    Always step P s (i :: is) ↔ P s i ∧ Always step P (step s i) is := Iff.rfl

theorem always_append (s : σ) (is js : List ι) :
    Always step P s (is ++ js) ↔ Always step P s is ∧ Always step P (final step s is) js := by
  induction is generalizing s with
  | nil => simp
  | cons i is ih => simp [ih, and_assoc]

/-- The first steps of a run. -/
theorem Always.first {s : σ} {is js : List ι} (h : Always step P s is) (hjs : js <+: is) :
    Always step P s js := by
  obtain ⟨ks, rfl⟩ := hjs
  exact ((always_append s js ks).mp h).1

@[simp] theorem always_concat (s : σ) (is : List ι) (i : ι) :
    Always step P s (is ++ [i]) ↔ Always step P s is ∧ P (final step s is) i := by
  rw [always_append]
  simp

theorem always_trivial (s : σ) (is : List ι) : Always step (fun _ _ => True) s is := by
  induction is generalizing s with
  | nil => trivial
  | cons i is ih => exact ⟨trivial, ih _⟩

/-- A condition on the inputs alone. -/
theorem always_input (p : ι → Prop) (s : σ) (is : List ι) :
    Always step (fun _ i => p i) s is ↔ ∀ i ∈ is, p i := by
  induction is generalizing s with
  | nil => simp
  | cons i is ih => simp [ih]

theorem always_congr (h : ∀ s i, P s i ↔ Q s i) {s : σ} {is : List ι} :
    Always step P s is ↔ Always step Q s is := by
  induction is generalizing s with
  | nil => rfl
  | cons i is ih => exact and_congr (h s i) ih

theorem Always.and {s : σ} {is : List ι} (hP : Always step P s is) (hQ : Always step Q s is) :
    Always step (fun s i => P s i ∧ Q s i) s is := by
  induction is generalizing s with
  | nil => trivial
  | cons i is ih => exact ⟨⟨hP.1, hQ.1⟩, ih hP.2 hQ.2⟩

end Always

section Invariant

variable {step : σ → ι → σ} {ok P Q : σ → ι → Prop} {Inv : σ → Prop}

/-- The invariant rule: an invariant of the start that every admitted step keeps holds at the end
of every admitted run. -/
theorem final_inv (hstep : ∀ s i, Inv s → ok s i → Inv (step s i)) {s : σ} {is : List ι}
    (hs : Inv s) (hok : Always step ok s is) : Inv (final step s is) := by
  induction is generalizing s with
  | nil => exact hs
  | cons i is ih => exact ih (hstep s i hs hok.1) hok.2

/-- What the invariant gives for one step holds for every step of an admitted run. -/
theorem always_of_inv (hstep : ∀ s i, Inv s → ok s i → Inv (step s i))
    (hP : ∀ s i, Inv s → ok s i → P s i) {s : σ} {is : List ι}
    (hs : Inv s) (hok : Always step ok s is) : Always step P s is := by
  induction is generalizing s with
  | nil => trivial
  | cons i is ih => exact ⟨hP s i hs hok.1, ih (hstep s i hs hok.1) hok.2⟩

/-- Two conditions that agree where the invariant holds, one of which keeps it, hold of the same
admitted runs. -/
theorem always_iff_of_inv (hiff : ∀ s i, Inv s → ok s i → (P s i ↔ Q s i))
    (hstep : ∀ s i, Inv s → ok s i → P s i → Inv (step s i)) {s : σ} {is : List ι}
    (hs : Inv s) (hok : Always step ok s is) : Always step P s is ↔ Always step Q s is := by
  induction is generalizing s with
  | nil => rfl
  | cons i is ih =>
    rw [always_cons, always_cons, ← hiff s i hs hok.1]
    exact and_congr_right fun hp => ih (hstep s i hs hok.1 hp) hok.2

/-- A property of all states that a run reaches, which follows from an invariant and is lost with
every step that is not admitted, holds exactly in the admitted runs. -/
theorem forall_reached_iff {R : σ → Prop}
    (hstep : ∀ s i, Inv s → P s i → ok s i → Inv (step s i)) (hinv : ∀ s, Inv s → R s)
    (hlost : ∀ s i, P s i → ¬ ok s i → ¬ R (step s i)) {s : σ} {is : List ι} (hs : Inv s)
    (hP : Always step P s is) : (∀ js, js <+: is → R (final step s js)) ↔ Always step ok s is := by
  induction is generalizing s with
  | nil =>
    refine iff_of_true (fun js hjs => ?_) trivial
    rw [List.prefix_nil.mp hjs]
    exact hinv s hs
  | cons i is ih =>
    constructor
    · intro h
      have hok : ok s i := by
        by_contra hnot
        exact hlost s i hP.1 hnot (h [i] (List.prefix_append [i] is))
      refine ⟨hok, (ih (hstep s i hs hP.1 hok) hP.2).mp fun js hjs => ?_⟩
      exact h (i :: js) (List.cons_prefix_cons.mpr ⟨rfl, hjs⟩)
    · rintro ⟨hok, hrest⟩ js hjs
      rcases List.prefix_cons_iff.mp hjs with rfl | ⟨ks, rfl, hks⟩
      · exact hinv s hs
      · exact (ih (hstep s i hs hP.1 hok) hP.2).mpr hrest ks hks

/-- A relation between the start and the current state that every admitted step extends holds
between the two ends of an admitted run. -/
theorem final_rel (R : σ → σ → Prop) (hrefl : ∀ s, R s s)
    (htrans : ∀ a b c, R a b → R b c → R a c) (hstep : ∀ s i, ok s i → R s (step s i))
    {s : σ} {is : List ι} (hok : Always step ok s is) : R s (final step s is) := by
  induction is generalizing s with
  | nil => exact hrefl s
  | cons i is ih => exact htrans _ _ _ (hstep s i hok.1) (ih hok.2)

end Invariant

section Watch

variable {step : σ → ι → σ} {obs : γ → σ → ι → γ}

/-- Watching a run does not change it. -/
@[simp] theorem final_watch_snd (x : γ × σ) (is : List ι) :
    (final (watch step obs) x is).2 = final step x.2 is := by
  induction is generalizing x with
  | nil => rfl
  | cons i is ih => exact ih _

/-- A condition on the machine alone holds of a watched run exactly when it holds of the run. -/
theorem always_watch (P : σ → ι → Prop) (x : γ × σ) (is : List ι) :
    Always (watch step obs) (fun x i => P x.2 i) x is ↔ Always step P x.2 is := by
  induction is generalizing x with
  | nil => exact Iff.rfl
  | cons i is ih => exact and_congr Iff.rfl (ih _)

end Watch

section Record

/-- The observer that writes down the steps that `p` selects. -/
def record (p : σ → ι → Bool) (log : List (σ × ι)) (s : σ) (i : ι) : List (σ × ι) :=
  if p s i then log ++ [(s, i)] else log

variable {step : σ → ι → σ} {p : σ → ι → Bool}

/-- What holds of every step that is written down holds of every selected step of the run. -/
theorem forall_mem_record (Q : σ × ι → Prop) (x : List (σ × ι) × σ) (is : List ι) :
    (∀ y ∈ (final (watch step (record p)) x is).1, Q y) ↔
      (∀ y ∈ x.1, Q y) ∧ Always step (fun s i => p s i = true → Q (s, i)) x.2 is := by
  induction is generalizing x with
  | nil => simp
  | cons i is ih =>
    rw [final_cons, ih, always_cons, ← and_assoc]
    refine and_congr_left' ?_
    unfold watch record
    by_cases hp : p x.2 i = true
    · rw [if_pos hp]
      simp only [List.forall_mem_append, List.forall_mem_singleton]
      exact and_congr_right' ⟨fun h _ => h, fun h => h hp⟩
    · rw [if_neg hp]
      exact (and_iff_left fun h => absurd h hp).symm

end Record

end Run
