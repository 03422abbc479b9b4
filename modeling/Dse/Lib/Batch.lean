import Mathlib.Data.List.Basic
import Mathlib.Logic.Basic

/-!
# Batches

A batch handles a list of records in one call: a loop checks every record, changes the state for it
and adds its worth to a total, and the total is settled at the end. Any of this may fail, and then
the whole call does. If settling a sum is settling its parts one after another, and settling does
not get in the way of a check, a batch is the same as a call of its own for every record; and if the
calls of two records commute, the order of the records makes no difference.
-/

namespace Batch

variable {σ ρ α : Type*}

/-! ## Steps that may fail -/

/-- The order of the records makes no difference to a run of steps of which any two commute, in the
states that an invariant admits. -/
theorem foldlM_perm {step : σ → ρ → Option σ} (Inv : σ → Prop)
    (hinv : ∀ s r s', Inv s → step s r = some s' → Inv s')
    (hcomm : ∀ s r r', Inv s → (step s r).bind (fun s => step s r') =
      (step s r').bind (fun s => step s r))
    {rs rs' : List ρ} (hp : rs.Perm rs') {s : σ} (hs : Inv s) :
    rs.foldlM step s = rs'.foldlM step s := by
  induction hp generalizing s with
  | nil => rfl
  | cons r hp ih =>
    rw [List.foldlM_cons, List.foldlM_cons]
    cases h : step s r with
    | none => rfl
    | some s' => exact ih (hinv s r s' hs h)
  | swap r r' rs =>
    have hswap : ∀ r r', (r :: r' :: rs).foldlM step s =
        ((step s r).bind fun s => step s r').bind (rs.foldlM step) := by
      intro r r'
      rw [List.foldlM_cons, Option.bind_assoc]
      rfl
    rw [hswap, hswap, hcomm s r' r hs]
  | trans hp hp' ih ih' => exact (ih hs).trans (ih' hs)

/-- A condition that the steps do not change can be asked for once, before the first of them. -/
theorem foldlM_guarded {step : σ → ρ → Option σ} (g : σ → Prop) [DecidablePred g]
    (hg : ∀ s r s', step s r = some s' → (g s' ↔ g s)) {rs : List ρ} (hrs : rs ≠ []) (s : σ) :
    rs.foldlM (fun s r => if g s then step s r else none) s =
      if g s then rs.foldlM step s else none := by
  have hpass : ∀ (rs : List ρ) (s : σ), g s →
      rs.foldlM (fun s r => if g s then step s r else none) s = rs.foldlM step s := by
    intro rs
    induction rs with
    | nil => exact fun s _ => rfl
    | cons r rs ih =>
      intro s hs
      rw [List.foldlM_cons, List.foldlM_cons, if_pos hs]
      exact Option.bind_congr fun s' h => ih s' ((hg s r s' h).mpr hs)
  by_cases hs : g s
  · rw [if_pos hs, hpass rs s hs]
  · obtain ⟨r, rs, rfl⟩ := List.exists_cons_of_ne_nil hrs
    rw [List.foldlM_cons, if_neg hs, if_neg hs]
    rfl

/-- Steps commute that succeed on a condition and have one effect, if after one record the condition
of another is what it was and that the two are apart. -/
theorem bind_comm_of_apart (step : σ → ρ → Option σ) {C : σ → ρ → Prop} {F : σ → ρ → σ}
    (P : ρ → ρ → Prop) {s : σ} (r r' : ρ)
    (hstep : ∀ s r s', step s r = some s' ↔ C s r ∧ s' = F s r)
    (hnext : ∀ r r', C s r → (C (F s r) r' ↔ C s r' ∧ P r r'))
    (hsymm : ∀ r r', P r r' → P r' r)
    (heff : ∀ r r', P r r' → F (F s r) r' = F (F s r') r) :
    (step s r).bind (fun s => step s r') = (step s r').bind (fun s => step s r) := by
  have hboth : ∀ r r' s', (step s r).bind (fun s => step s r') = some s' ↔
      (C s r ∧ C s r' ∧ P r r') ∧ s' = F (F s r) r' := by
    intro r r' s'
    simp only [Option.bind_eq_some_iff, hstep]
    constructor
    · rintro ⟨_, ⟨hr, rfl⟩, hr', rfl⟩
      obtain ⟨hr', hapart⟩ := (hnext r r' hr).mp hr'
      exact ⟨⟨hr, hr', hapart⟩, rfl⟩
    · rintro ⟨⟨hr, hr', hapart⟩, rfl⟩
      exact ⟨_, ⟨hr, rfl⟩, (hnext r r' hr).mpr ⟨hr', hapart⟩, rfl⟩
  have hle : ∀ r r' s', (step s r).bind (fun s => step s r') = some s' →
      (step s r').bind (fun s => step s r) = some s' := by
    intro r r' s' h
    obtain ⟨⟨hr, hr', hapart⟩, rfl⟩ := (hboth r r' s').mp h
    exact (hboth r' r _).mpr ⟨⟨hr', hr, hsymm r r' hapart⟩, heff r r' hapart⟩
  exact Option.ext fun s' => ⟨hle r r' s', hle r' r s'⟩

/-! ## Schemes -/

/-- What a batch does for one record, what the record is worth, and what is done with the total. -/
structure Scheme (σ ρ α : Type*) where
  zero : α
  add : α → α → Option α
  check : σ → ρ → Option σ
  worth : σ → α
  settle : α → σ → Option σ

namespace Scheme

/-- The loop of a batch, on the state and the total. -/
def loop (b : Scheme σ ρ α) (st : σ × α) (rs : List ρ) : Option (σ × α) :=
  rs.foldlM (fun st r => (b.check st.1 r).bind fun s =>
    (b.add st.2 (b.worth st.1)).map fun total => (s, total)) st

/-- A batch. -/
def run (b : Scheme σ ρ α) (rs : List ρ) (s : σ) : Option σ :=
  (b.loop (s, b.zero) rs).bind fun st => b.settle st.2 st.1

/-- In the states that `Inv` admits, a total settles like its parts, and settling does not get in the
way of a check. -/
structure Lawful (b : Scheme σ ρ α) (Inv : σ → Prop) : Prop where
  zero_add : ∀ x, b.add b.zero x = some x
  add_zero : ∀ x, b.add x b.zero = some x
  add_assoc : ∀ x y z, (b.add x y).bind (fun xy => b.add xy z) = (b.add y z).bind (b.add x)
  settle_zero : ∀ s, Inv s → b.settle b.zero s = some s
  settle_add : ∀ x y s, Inv s → (b.add x y).bind (fun xy => b.settle xy s) =
    (b.settle x s).bind (b.settle y)
  settle_check : ∀ x s r, Inv s → (b.settle x s).bind (fun s => b.check s r) =
    (b.check s r).bind (b.settle x)
  worth_check : ∀ s r s', b.check s r = some s' → b.worth s' = b.worth s
  worth_settle : ∀ x s s', b.settle x s = some s' → b.worth s' = b.worth s
  inv_check : ∀ s r s', Inv s → b.check s r = some s' → Inv s'
  inv_settle : ∀ x s s', Inv s → b.settle x s = some s' → Inv s'

section Lawful

variable {b : Scheme σ ρ α} {Inv : σ → Prop}

@[simp] theorem loop_nil (st : σ × α) : b.loop st [] = some st := rfl

theorem loop_cons (st : σ × α) (r : ρ) (rs : List ρ) : b.loop st (r :: rs) =
    (b.check st.1 r).bind fun s => (b.add st.2 (b.worth st.1)).bind fun total =>
      b.loop (s, total) rs := by
  unfold loop
  rw [List.foldlM_cons]
  cases b.check st.1 r with
  | none => rfl
  | some s =>
    cases b.add st.2 (b.worth st.1) with
    | none => rfl
    | some total => rfl

namespace Lawful

/-- The loop adds to the total that it begins with. -/
theorem loop_total (hb : b.Lawful Inv) (s : σ) (x : α) (rs : List ρ) : b.loop (s, x) rs =
    (b.loop (s, b.zero) rs).bind fun st => (b.add x st.2).map fun total => (st.1, total) := by
  induction rs generalizing s x with
  | nil => simp [hb.add_zero]
  | cons r rs ih =>
    rw [loop_cons, loop_cons, Option.bind_assoc]
    cases hs : b.check s r with
    | none => rfl
    | some s' =>
      simp only [Option.bind_some, hb.zero_add]
      rw [ih s' (b.worth s), Option.bind_assoc]
      have hassoc : ∀ st : σ × α, ((b.add (b.worth s) st.2).map fun total => (st.1, total)).bind
            (fun st => (b.add x st.2).map fun total => (st.1, total)) =
          (b.add x (b.worth s)).bind fun total =>
            (b.add total st.2).map fun total => (st.1, total) := by
        intro st
        have h := congrArg (Option.map fun total => (st.1, total))
          (hb.add_assoc x (b.worth s) st.2)
        rw [Option.map_bind, Option.map_bind] at h
        rw [Option.bind_map]
        exact h.symm
      simp only [hassoc]
      cases b.add x (b.worth s) with
      | none =>
        cases b.loop (s', b.zero) rs with
        | none => rfl
        | some st => rfl
      | some total => exact ih s' total

theorem inv_loop (hb : b.Lawful Inv) {s s' : σ} {x y : α} {rs : List ρ} (hs : Inv s)
    (h : b.loop (s, x) rs = some (s', y)) : Inv s' := by
  induction rs generalizing s x with
  | nil =>
    obtain ⟨rfl, rfl⟩ := Prod.mk.inj (Option.some.inj h)
    exact hs
  | cons r rs ih =>
    rw [loop_cons] at h
    obtain ⟨s₁, h₁, h⟩ := Option.bind_eq_some_iff.mp h
    obtain ⟨total, -, h⟩ := Option.bind_eq_some_iff.mp h
    exact ih (hb.inv_check s r s₁ hs h₁) h

/-- Settling before the loop is settling after it. -/
theorem settle_loop (hb : b.Lawful Inv) (x y : α) {s : σ} (hs : Inv s) (rs : List ρ) :
    ((b.settle x s).bind fun s => b.loop (s, y) rs) =
      (b.loop (s, y) rs).bind fun st => (b.settle x st.1).map fun s => (s, st.2) := by
  induction rs generalizing s y with
  | nil =>
    rw [loop_nil, Option.bind_some]
    cases b.settle x s with
    | none => rfl
    | some s' => rfl
  | cons r rs ih =>
    have hworth : ((b.settle x s).bind fun s => b.loop (s, y) (r :: rs)) =
        ((b.settle x s).bind fun s => b.check s r).bind fun s' =>
          (b.add y (b.worth s)).bind fun total => b.loop (s', total) rs := by
      cases h : b.settle x s with
      | none => rfl
      | some s' =>
        rw [Option.bind_some, Option.bind_some, loop_cons, hb.worth_settle x s s' h]
    rw [hworth, hb.settle_check x s r hs, loop_cons]
    cases h : b.check s r with
    | none => rfl
    | some s' =>
      simp only [Option.bind_some]
      cases b.add y (b.worth s) with
      | none =>
        cases b.settle x s' with
        | none => rfl
        | some s'' => rfl
      | some total => exact ih total (hb.inv_check s r s' hs h)

/-- A batch settles its first record, and then the rest. -/
theorem run_cons (hb : b.Lawful Inv) (r : ρ) (rs : List ρ) {s : σ} (hs : Inv s) :
    b.run (r :: rs) s = (b.run [r] s).bind (b.run rs) := by
  unfold run
  rw [loop_cons, loop_cons]
  cases h : b.check s r with
  | none => rfl
  | some s' =>
    have hs' : Inv s' := hb.inv_check s r s' hs h
    simp only [Option.bind_some, hb.zero_add, loop_nil]
    rw [hb.loop_total, Option.bind_assoc]
    calc (b.loop (s', b.zero) rs).bind (fun st =>
          ((b.add (b.worth s) st.2).map fun total => (st.1, total)).bind
            fun st => b.settle st.2 st.1)
        = (b.loop (s', b.zero) rs).bind (fun st =>
          (b.settle (b.worth s) st.1).bind (b.settle st.2)) := by
          refine Option.bind_congr fun st hst => ?_
          rw [← hb.settle_add _ _ _ (hb.inv_loop hs' hst), Option.bind_map]
          rfl
      _ = ((b.loop (s', b.zero) rs).bind fun st =>
            (b.settle (b.worth s) st.1).map fun s => (s, st.2)).bind
              fun st => b.settle st.2 st.1 := by
          rw [Option.bind_assoc]
          refine Option.bind_congr fun st _ => ?_
          rw [Option.bind_map]
          rfl
      _ = (b.settle (b.worth s) s').bind fun s =>
            (b.loop (s, b.zero) rs).bind fun st => b.settle st.2 st.1 := by
          rw [← hb.settle_loop _ _ hs', Option.bind_assoc]

/-- One record at a time: the check and the settlement of its worth. -/
theorem run_singleton (hb : b.Lawful Inv) (r : ρ) (s : σ) :
    b.run [r] s = (b.check s r).bind (b.settle (b.worth s)) := by
  unfold run
  rw [loop_cons]
  cases b.check s r with
  | none => rfl
  | some s' =>
    rw [Option.bind_some, Option.bind_some, hb.zero_add]
    rfl

theorem inv_singleton (hb : b.Lawful Inv) {r : ρ} {s s' : σ} (hs : Inv s)
    (h : b.run [r] s = some s') : Inv s' := by
  rw [hb.run_singleton] at h
  obtain ⟨s₁, h₁, h₂⟩ := Option.bind_eq_some_iff.mp h
  exact hb.inv_settle _ _ _ (hb.inv_check _ _ _ hs h₁) h₂

/-- A batch is a batch of its own for every record, one after another. -/
theorem run_eq_foldlM (hb : b.Lawful Inv) (rs : List ρ) {s : σ} (hs : Inv s) :
    b.run rs s = rs.foldlM (fun s r => b.run [r] s) s := by
  induction rs generalizing s with
  | nil => exact hb.settle_zero s hs
  | cons r rs ih =>
    rw [hb.run_cons r rs hs, List.foldlM_cons]
    exact Option.bind_congr fun s' h => ih (hb.inv_singleton hs h)

/-- Two records commute in a batch if their checks do. -/
theorem run_swap (hb : b.Lawful Inv) {s : σ} (hs : Inv s) (r r' : ρ)
    (hcomm : (b.check s r).bind (fun s => b.check s r') =
      (b.check s r').bind (fun s => b.check s r)) :
    (b.run [r] s).bind (b.run [r']) = (b.run [r'] s).bind (b.run [r]) := by
  -- both checks first, then both settlements
  have hboth : ∀ r r', (b.run [r] s).bind (b.run [r']) =
      ((b.check s r).bind fun s => b.check s r').bind fun s' =>
        (b.settle (b.worth s) s').bind (b.settle (b.worth s)) := by
    intro r r'
    rw [hb.run_singleton]
    cases h : b.check s r with
    | none => rfl
    | some s₁ =>
      have hs₁ : Inv s₁ := hb.inv_check s r s₁ hs h
      calc (b.settle (b.worth s) s₁).bind (b.run [r'])
          = (b.settle (b.worth s) s₁).bind (fun s₂ =>
              (b.check s₂ r').bind (b.settle (b.worth s))) := by
            refine Option.bind_congr fun s₂ h₂ => ?_
            rw [hb.run_singleton, hb.worth_settle _ _ _ h₂, hb.worth_check _ _ _ h]
        _ = ((b.settle (b.worth s) s₁).bind fun s₂ => b.check s₂ r').bind
              (b.settle (b.worth s)) := (Option.bind_assoc _ _ _).symm
        _ = ((b.check s₁ r').bind (b.settle (b.worth s))).bind (b.settle (b.worth s)) := by
            rw [hb.settle_check _ _ _ hs₁]
        _ = (b.check s₁ r').bind fun s' =>
              (b.settle (b.worth s) s').bind (b.settle (b.worth s)) := Option.bind_assoc _ _ _
  rw [hboth, hboth, hcomm]

/-- The order of the records makes no difference to a batch whose checks commute. -/
theorem run_perm (hb : b.Lawful Inv)
    (hcomm : ∀ s r r', Inv s → (b.check s r).bind (fun s => b.check s r') =
      (b.check s r').bind (fun s => b.check s r))
    {rs rs' : List ρ} (hp : rs.Perm rs') {s : σ} (hs : Inv s) : b.run rs s = b.run rs' s := by
  rw [hb.run_eq_foldlM rs hs, hb.run_eq_foldlM rs' hs]
  exact foldlM_perm Inv (fun s r s' hs h => hb.inv_singleton hs h)
    (fun s r r' hs => hb.run_swap hs r r' (hcomm s r r' hs)) hp hs

end Lawful

end Lawful

end Scheme

end Batch
