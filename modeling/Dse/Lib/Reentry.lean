import Mathlib.Order.Basic

/-!
# Methods that can be re-entered

An object whose methods call code of somebody else, which may call the object back before it
returns. `hooks n` is what the code called in the `n`-th place does to the object, so a method is a
function of its hooks and of the state. An `Entry` is a call with everything that is called back in
each of these places, to any depth. What every method guarantees about the state before and after
it, if it may rely on its hooks to do the same, holds of every entry: a reflexive and transitive
relation, of which an invariant is the case that forgets the state before.
-/

namespace Reentry

variable {σ μ : Type*}

/-- A call of a method, with the calls made back in each place where it calls out. -/
inductive Entry (μ : Type*)
  | mk (method : μ) (during : List (List (Entry μ)))

variable (exec : μ → (ℕ → σ → σ) → σ → Option σ)

mutual

/-- A call: the state it leaves, or `none` when it reverts. -/
def enter : Entry μ → σ → Option σ
  | .mk method during, s => exec method (enterNth during) s

/-- The calls made back in the `n`-th place. -/
def enterNth : List (List (Entry μ)) → ℕ → σ → σ
  | [], _, s => s
  | entries :: _, 0, s => enterAll entries s
  | _ :: during, n + 1, s => enterNth during n s

/-- Calls one after another. One that reverts leaves the state as it was. -/
def enterAll : List (Entry μ) → σ → σ
  | [], s => s
  | entry :: entries, s => enterAll entries ((enter entry s).getD s)

end

/-- A call during which nothing is called back. -/
def Entry.plain (method : μ) : Entry μ := .mk method []

theorem enter_plain (method : μ) (s : σ) :
    enter exec (.plain method) s = exec method (fun _ s => s) s := rfl

variable {exec}

/-- Every method takes a state to a related one, if its hooks do. -/
def Guarantees (exec : μ → (ℕ → σ → σ) → σ → Option σ) (R : σ → σ → Prop) : Prop :=
  ∀ method hooks s s', (∀ n s, R s (hooks n s)) → exec method hooks s = some s' → R s s'

section Guarantee

variable {R : σ → σ → Prop}

mutual

/-- What the methods guarantee holds between the states before and after a call with everything that
is called back. -/
theorem enter_guarantee (h : Guarantees exec R) (hrefl : ∀ s, R s s)
    (htrans : ∀ {a b c}, R a b → R b c → R a c) : ∀ (e : Entry μ) {s s' : σ},
    enter exec e s = some s' → R s s'
  | .mk method during, _, _, he =>
    h method _ _ _ (fun n _ => enterNth_guarantee h hrefl htrans during n) he

theorem enterNth_guarantee (h : Guarantees exec R) (hrefl : ∀ s, R s s)
    (htrans : ∀ {a b c}, R a b → R b c → R a c) :
    ∀ (during : List (List (Entry μ))) (n : ℕ) {s : σ}, R s (enterNth exec during n s)
  | [], _, _ => hrefl _
  | entries :: _, 0, _ => enterAll_guarantee h hrefl htrans entries
  | _ :: during, n + 1, _ => enterNth_guarantee h hrefl htrans during n

theorem enterAll_guarantee (h : Guarantees exec R) (hrefl : ∀ s, R s s)
    (htrans : ∀ {a b c}, R a b → R b c → R a c) : ∀ (entries : List (Entry μ)) {s : σ},
    R s (enterAll exec entries s)
  | [], _ => hrefl _
  | entry :: entries, s => by
    have hrest : R ((enter exec entry s).getD s) (enterAll exec entries _) :=
      enterAll_guarantee h hrefl htrans entries
    refine htrans ?_ hrest
    cases he : enter exec entry s with
    | none => exact hrefl s
    | some s' => exact enter_guarantee h hrefl htrans entry he

end

end Guarantee

end Reentry
