import Mathlib.Data.List.Basic
import Mathlib.Logic.Function.Basic
import Mathlib.Order.Nat

/-!
# Callers that wait under a key

A table of callers, numbered as they come. A caller is answered at once, or waits under a key until
the key is resolved; a caller that comes to a key that is taken drops the one that waits there. When
no key is used twice, every caller is told what first resolves its own key, and nothing else.
-/

namespace Pending

variable {κ α : Type*}

structure Table (κ : Type*) where
  waiting : κ → Option ℕ
  /-- The caller that comes next. -/
  next : ℕ

inductive Event (κ α : Type*)
  /-- A caller comes, and waits under the key. -/
  | wait (key : κ)
  /-- A caller comes, and is answered at once. -/
  | reply (answer : α)
  | resolve (key : κ) (answer : α)

namespace Table

def new : Table κ where
  waiting := fun _ => none
  next := 0

/-- The callers that wait have come before. -/
def Fresh (t : Table κ) : Prop := ∀ key caller, t.waiting key = some caller → caller < t.next

theorem fresh_new : (new : Table κ).Fresh := fun _ _ h => nomatch h

end Table

variable [DecidableEq κ]

/-- What the event answers to a caller that waits under the key. -/
def Event.answer? (key : κ) : Event κ α → Option α
  | .resolve key' answer => if key' = key then some answer else none
  | _ => none

namespace Table

/-- One event, and what a caller is told. -/
def step (t : Table κ) : Event κ α → Table κ × Option (ℕ × α)
  | .wait key =>
    ({ waiting := Function.update t.waiting key (some t.next), next := t.next + 1 }, none)
  | .reply answer => ({ t with next := t.next + 1 }, some (t.next, answer))
  | .resolve key answer =>
    ({ t with waiting := Function.update t.waiting key none },
      (t.waiting key).map fun caller => (caller, answer))

/-- The table after the events. -/
def after (t : Table κ) (es : List (Event κ α)) : Table κ := es.foldl (fun t e => (t.step e).1) t

/-- Everything that is told, in order. -/
def told (t : Table κ) : List (Event κ α) → List (ℕ × α)
  | [] => []
  | e :: es => (t.step e).2.toList ++ (t.step e).1.told es

/-- What one caller is told. -/
def toldTo (t : Table κ) (caller : ℕ) (es : List (Event κ α)) : List α :=
  ((t.told es).filter fun x => x.1 = caller).map Prod.snd

variable {t : Table κ} {key : κ} {caller : ℕ} {e : Event κ α} {answer : α}

/-! ## One event -/

theorem next_le_step (t : Table κ) (e : Event κ α) : t.next ≤ (t.step e).1.next := by
  cases e with
  | wait key => exact Nat.le_succ t.next
  | reply answer => exact Nat.le_succ t.next
  | resolve key answer => exact le_refl t.next

/-- Who waits after an event waited before it, or has just come. -/
theorem of_waiting_step (h : (t.step e).1.waiting key = some caller) :
    t.waiting key = some caller ∧ e.answer? key = none ∨ e = .wait key ∧ caller = t.next := by
  cases e with
  | wait key' =>
    have hw : Function.update t.waiting key' (some t.next) key = some caller := h
    by_cases hkey : key = key'
    · subst hkey
      rw [Function.update_self] at hw
      exact .inr ⟨rfl, (Option.some.inj hw).symm⟩
    · rw [Function.update_of_ne hkey] at hw
      exact .inl ⟨hw, rfl⟩
  | reply answer => exact .inl ⟨h, rfl⟩
  | resolve key' answer =>
    have hw : Function.update t.waiting key' none key = some caller := h
    by_cases hkey : key = key'
    · subst hkey
      rw [Function.update_self] at hw
      cases hw
    · rw [Function.update_of_ne hkey] at hw
      exact .inl ⟨hw, if_neg (Ne.symm hkey)⟩

/-- A caller waits on until its key is resolved, or another one comes to it. -/
theorem waiting_step (hw : t.waiting key = some caller) (hfree : e ≠ .wait key)
    (hno : e.answer? key = none) : (t.step e).1.waiting key = some caller := by
  cases e with
  | wait key' =>
    have hne : key ≠ key' := fun hkey => hfree (congrArg Event.wait hkey.symm)
    exact (Function.update_of_ne hne _ _).trans hw
  | reply answer => exact hw
  | resolve key' answer =>
    have hne : key ≠ key' := by
      rintro rfl
      rw [Event.answer?, if_pos rfl] at hno
      cases hno
    exact (Function.update_of_ne hne _ _).trans hw

/-- Who is told something has waited for it, or has just come. -/
theorem of_step_told (h : (t.step e).2 = some (caller, answer)) :
    (∃ key, t.waiting key = some caller ∧ e.answer? key = some answer) ∨ caller = t.next := by
  cases e with
  | wait key => cases h
  | reply answer' =>
    cases h
    exact .inr rfl
  | resolve key answer' =>
    obtain ⟨caller', hw, heq⟩ := Option.map_eq_some_iff.mp h
    cases heq
    exact .inl ⟨key, hw, if_pos rfl⟩

/-- A caller is told what resolves its key. -/
theorem step_told (hw : t.waiting key = some caller) (ha : e.answer? key = some answer) :
    (t.step e).2 = some (caller, answer) := by
  cases e with
  | wait key' => cases ha
  | reply answer' => cases ha
  | resolve key' answer' =>
    rw [Event.answer?] at ha
    split at ha
    · rename_i hkey
      subst hkey
      cases ha
      show (t.waiting key').map _ = _
      rw [hw]
      rfl
    · cases ha

theorem Fresh.step (h : t.Fresh) (e : Event κ α) : (t.step e).1.Fresh := by
  intro key caller hw
  rcases of_waiting_step hw with ⟨hold, -⟩ | ⟨rfl, rfl⟩
  · exact (h key caller hold).trans_le (next_le_step t e)
  · exact Nat.lt_succ_self t.next

/-! ## Many events -/

theorem Fresh.after (h : t.Fresh) (es : List (Event κ α)) : (t.after es).Fresh := by
  induction es generalizing t with
  | nil => exact h
  | cons e es ih => exact ih (h.step e)

theorem next_le_after (t : Table κ) (es : List (Event κ α)) : t.next ≤ (t.after es).next := by
  induction es generalizing t with
  | nil => exact le_refl t.next
  | cons e es ih => exact (next_le_step t e).trans (ih _)

theorem after_append (t : Table κ) (es es' : List (Event κ α)) :
    t.after (es ++ es') = (t.after es).after es' :=
  List.foldl_append

theorem told_append (t : Table κ) (es es' : List (Event κ α)) :
    t.told (es ++ es') = t.told es ++ (t.after es).told es' := by
  induction es generalizing t with
  | nil => rfl
  | cons e es ih =>
    show (t.step e).2.toList ++ (t.step e).1.told (es ++ es') = _
    rw [ih, ← List.append_assoc]
    rfl

theorem toldTo_append (t : Table κ) (caller : ℕ) (es es' : List (Event κ α)) :
    t.toldTo caller (es ++ es') = t.toldTo caller es ++ (t.after es).toldTo caller es' := by
  simp only [toldTo, told_append, List.filter_append, List.map_append]

/-- An event that tells the caller nothing. -/
theorem toldTo_cons_of_none (h : ∀ answer, (t.step e).2 ≠ some (caller, answer))
    (es : List (Event κ α)) : t.toldTo caller (e :: es) = (t.step e).1.toldTo caller es := by
  have hnone : ((t.step e).2.toList.filter fun x => x.1 = caller) = [] := by
    refine List.filter_eq_nil_iff.mpr fun x hx hcaller => ?_
    rw [Option.mem_toList] at hx
    refine h x.2 (hx.trans (congrArg some ?_))
    exact Prod.ext (of_decide_eq_true hcaller) rfl
  rw [toldTo, told, List.filter_append, hnone]
  rfl

theorem toldTo_cons_of_some (h : (t.step e).2 = some (caller, answer)) (es : List (Event κ α)) :
    t.toldTo caller (e :: es) = answer :: (t.step e).1.toldTo caller es := by
  rw [toldTo, told, h]
  simp [toldTo]

/-- Whoever has been told something has come. -/
theorem lt_of_mem_told (h : t.Fresh) {es : List (Event κ α)} {x : ℕ × α} (hx : x ∈ t.told es) :
    x.1 < (t.after es).next := by
  induction es generalizing t with
  | nil => cases hx
  | cons e es ih =>
    rcases List.mem_append.mp hx with hnow | hlater
    · rw [Option.mem_toList] at hnow
      refine Nat.lt_of_lt_of_le ?_ (next_le_after (t.step e).1 es)
      rcases of_step_told hnow with ⟨key, hw, -⟩ | hnext
      · exact (h key x.1 hw).trans_le (next_le_step t e)
      · -- only a caller that comes is told something as the next one
        cases e with
        | wait key => cases hnow
        | reply answer => exact hnext ▸ Nat.lt_succ_self t.next
        | resolve key answer =>
          obtain ⟨caller, hw, heq⟩ := Option.map_eq_some_iff.mp hnow
          exact heq ▸ h key caller hw
    · exact ih (h.step e) hlater

/-- Nobody is told anything before coming. -/
theorem toldTo_before (h : t.Fresh) (es : List (Event κ α)) :
    t.toldTo (t.after es).next es = [] := by
  rw [toldTo, List.map_eq_nil_iff, List.filter_eq_nil_iff]
  intro x hx hcaller
  exact (lt_of_mem_told h hx).ne (of_decide_eq_true hcaller)

/-- A caller that has come and does not wait is told nothing any more. -/
theorem toldTo_of_gone (hlt : caller < t.next) (hgone : ∀ key, t.waiting key ≠ some caller)
    (es : List (Event κ α)) : t.toldTo caller es = [] := by
  induction es generalizing t with
  | nil => rfl
  | cons e es ih =>
    have hnone : ∀ answer, (t.step e).2 ≠ some (caller, answer) := by
      intro answer htold
      rcases of_step_told htold with ⟨key, hw, -⟩ | hnext
      · exact hgone key hw
      · exact hlt.ne hnext
    rw [toldTo_cons_of_none hnone]
    refine ih (hlt.trans_le (next_le_step t e)) fun key hw => ?_
    rcases of_waiting_step hw with ⟨hold, -⟩ | ⟨-, hnext⟩
    · exact hgone key hold
    · exact hlt.ne hnext

/-- A caller that waits under one key is told what first resolves it. -/
theorem toldTo_of_waiting (hlt : caller < t.next) (hw : t.waiting key = some caller)
    (hone : ∀ key', t.waiting key' = some caller → key' = key) {es : List (Event κ α)}
    (hfree : ∀ e ∈ es, e ≠ .wait key) :
    t.toldTo caller es = (es.findSome? (Event.answer? key)).toList := by
  induction es generalizing t with
  | nil => rfl
  | cons e es ih =>
    have hlt' : caller < (t.step e).1.next := hlt.trans_le (next_le_step t e)
    have hone' : ∀ key', (t.step e).1.waiting key' = some caller → key' = key := by
      intro key' hw'
      rcases of_waiting_step hw' with ⟨hold, -⟩ | ⟨-, hnext⟩
      · exact hone key' hold
      · exact absurd hnext hlt.ne
    cases ha : e.answer? key with
    | some answer =>
      have hgone : ∀ key', (t.step e).1.waiting key' ≠ some caller := by
        intro key' hw'
        have hkey := hone' key' hw'
        subst hkey
        rcases of_waiting_step hw' with ⟨-, hno⟩ | ⟨-, hnext⟩
        · cases hno.symm.trans ha
        · exact hlt.ne hnext
      rw [toldTo_cons_of_some (step_told hw ha), toldTo_of_gone hlt' hgone, List.findSome?_cons, ha]
      rfl
    | none =>
      have hnone : ∀ answer, (t.step e).2 ≠ some (caller, answer) := by
        intro answer htold
        rcases of_step_told htold with ⟨key', hw', ha'⟩ | hnext
        · rw [hone key' hw', ha] at ha'
          cases ha'
        · exact hlt.ne hnext
      rw [toldTo_cons_of_none hnone, List.findSome?_cons, ha]
      exact ih hlt' (waiting_step hw (hfree e List.mem_cons_self) ha) hone' fun e' he' =>
        hfree e' (List.mem_cons_of_mem _ he')

/-- The next caller, when it waits under a key that nobody comes to after it. -/
theorem toldTo_wait (h : t.Fresh) {es : List (Event κ α)} (hfree : ∀ e ∈ es, e ≠ .wait key) :
    t.toldTo t.next (.wait key :: es) = (es.findSome? (Event.answer? key)).toList := by
  rw [toldTo_cons_of_none nofun]
  refine toldTo_of_waiting (Nat.lt_succ_self _) (Function.update_self _ _ _) (fun key' hw => ?_) hfree
  rcases of_waiting_step hw with ⟨hold, -⟩ | ⟨heq, -⟩
  · exact absurd (h key' t.next hold) (Nat.lt_irrefl _)
  · exact (Event.wait.inj heq).symm

/-- The next caller, when it is answered at once. -/
theorem toldTo_reply (h : t.Fresh) (answer : α) (es : List (Event κ α)) :
    t.toldTo t.next (.reply answer :: es) = [answer] := by
  have hgone : ∀ key, (t.step (.reply answer)).1.waiting key ≠ some t.next :=
    fun key hw => Nat.lt_irrefl _ (h key t.next hw)
  rw [toldTo_cons_of_some rfl, toldTo_of_gone (Nat.lt_succ_self t.next) hgone]

end Table

end Pending
