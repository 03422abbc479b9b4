import Dse.Lib.Run

/-!
# What a run can still come to

An invariant says what no run does. That nothing gets stuck is the other kind of statement: from
where a run has come, some further run leads to a goal. `Reaches` is that statement for the admitted
runs of a machine; it composes, and a measure that can always be lowered leads to the goal.
-/

namespace Run

variable {σ ι τ κ : Type*} {step : σ → ι → σ} {ok : σ → ι → Prop} {P Q : σ → Prop} {s : σ}

/-- Some admitted run from `s` ends in a state with `P`. -/
def Reaches (step : σ → ι → σ) (ok : σ → ι → Prop) (s : σ) (P : σ → Prop) : Prop :=
  ∃ is, Always step ok s is ∧ P (final step s is)

namespace Reaches

theorem refl (h : P s) : Reaches step ok s P := ⟨[], trivial, h⟩

/-- One step, and then on. -/
theorem head {i : ι} (hok : ok s i) (h : Reaches step ok (step s i) P) : Reaches step ok s P := by
  obtain ⟨is, his, hP⟩ := h
  exact ⟨i :: is, ⟨hok, his⟩, hP⟩

theorem one {i : ι} (hok : ok s i) (h : P (step s i)) : Reaches step ok s P := head hok (refl h)

theorem mono (h : Reaches step ok s P) (hPQ : ∀ s, P s → Q s) : Reaches step ok s Q := by
  obtain ⟨is, his, hP⟩ := h
  exact ⟨is, his, hPQ _ hP⟩

theorem trans (h : Reaches step ok s P) (hnext : ∀ s', P s' → Reaches step ok s' Q) :
    Reaches step ok s Q := by
  obtain ⟨is, his, hP⟩ := h
  obtain ⟨js, hjs, hQ⟩ := hnext _ hP
  refine ⟨is ++ js, (always_append _ _ _).mpr ⟨his, hjs⟩, ?_⟩
  rw [final, List.foldl_append]
  exact hQ

/-- What admitted steps keep holds at the goal as well. -/
theorem inv {Inv : σ → Prop} (hstep : ∀ s i, Inv s → ok s i → Inv (step s i)) (hs : Inv s)
    (h : Reaches step ok s P) : Reaches step ok s fun s' => Inv s' ∧ P s' := by
  obtain ⟨is, his, hP⟩ := h
  exact ⟨is, his, final_inv hstep hs his, hP⟩

/-- A part of a machine can do alone what the machine can do through it: `R` relates the states, and
each admitted step of the part is an admitted step of the machine. -/
theorem lift {step' : τ → κ → τ} {ok' : τ → κ → Prop} {R : σ → τ → Prop} {Q : τ → Prop} {t : τ}
    (hsim : ∀ s t i, R s t → ok s i → ∃ j, ok' t j ∧ R (step s i) (step' t j)) (hR : R s t)
    (h : Reaches step ok s P) (hQ : ∀ s t, R s t → P s → Q t) : Reaches step' ok' t Q := by
  obtain ⟨is, his, hP⟩ := h
  induction is generalizing s t with
  | nil => exact refl (hQ s t hR hP)
  | cons i is ih =>
    obtain ⟨j, hj, hR'⟩ := hsim s t i hR his.1
    exact head hj (ih hR' his.2 hP)

end Reaches

/-- Where every state short of the goal leads to one with a smaller measure, every state leads to
the goal. -/
theorem reaches_of_measure {Inv : σ → Prop} (μ : σ → ℕ)
    (hnext : ∀ s, Inv s → ¬ Q s → Reaches step ok s fun s' => Inv s' ∧ μ s' < μ s) (hs : Inv s) :
    Reaches step ok s Q := by
  induction hm : μ s using Nat.strongRecOn generalizing s with
  | ind m ih =>
    by_cases hQ : Q s
    · exact .refl hQ
    · refine (hnext s hs hQ).trans fun s' h => ?_
      exact ih (μ s') (hm ▸ h.2) h.1 rfl

end Run
