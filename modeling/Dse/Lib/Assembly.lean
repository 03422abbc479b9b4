import Dse.Lib.Run

/-!
# Parties and what they send to each other

Parties act one at a time. An action may be the arrival of a message, and it may send messages. What
arrives was sent by one of the parties before, to whomever: messages may be lost, repeated, delayed
and delivered to the wrong party.

The rule of assumption and commitment (`Assembly.assured`): where each party, as long as only
messages with `M` arrive at it, keeps its property and sends only messages with `M`, all parties do
so together.
-/

namespace Assembly

variable {ι σ α μ : Type*}

structure State (ι σ μ : Type*) where
  party : ι → σ
  /-- Everything that was ever sent. -/
  sent : List μ

/-- Nothing was sent yet. -/
def start (party : ι → σ) : State ι σ μ where
  party := party
  sent := []

section

variable [DecidableEq ι] (act : ι → σ → α → σ × List μ) (arrival : α → Option μ)

/-- One party acts. -/
def step (x : State ι σ μ) (i : ι × α) : State ι σ μ where
  party := Function.update x.party i.1 (act i.1 (x.party i.1) i.2).1
  sent := x.sent ++ (act i.1 (x.party i.1) i.2).2

omit [DecidableEq ι] in
/-- What arrives with the action was sent. -/
def Carried (x : State ι σ μ) (i : ι × α) : Prop := ∀ m, arrival i.2 = some m → m ∈ x.sent

omit [DecidableEq ι] in
instance [DecidableEq μ] (x : State ι σ μ) (i : ι × α) : Decidable (Carried arrival x i) :=
  decidable_of_iff (∀ m ∈ (arrival i.2).toList, m ∈ x.sent)
    ⟨fun h m hm => h m (Option.mem_toList.mpr hm), fun h m hm => h m (Option.mem_toList.mp hm)⟩

/-- The parties keep `P`, and have sent only messages with `M`. -/
structure Assured (P : ι → σ → Prop) (M : μ → Prop) (x : State ι σ μ) : Prop where
  party : ∀ i, P i (x.party i)
  sent : ∀ m ∈ x.sent, M m

variable {act arrival} {P : ι → σ → Prop} {M : μ → Prop} {x : State ι σ μ}

theorem Assured.step (hact : ∀ i s a, P i s → (∀ m, arrival a = some m → M m) →
      P i (act i s a).1 ∧ ∀ m ∈ (act i s a).2, M m)
    (h : Assured P M x) {i : ι × α} (hc : Carried arrival x i) : Assured P M (step act x i) := by
  obtain ⟨hparty, hsent⟩ := hact i.1 (x.party i.1) i.2 (h.party i.1) fun m hm =>
    h.sent m (hc m hm)
  constructor
  · intro j
    show P j (Function.update x.party i.1 (act i.1 (x.party i.1) i.2).1 j)
    by_cases hj : j = i.1
    · subst hj
      rw [Function.update_self]
      exact hparty
    · rw [Function.update_of_ne hj]
      exact h.party j
  · intro m hm
    rcases List.mem_append.mp hm with hm | hm
    · exact h.sent m hm
    · exact hsent m hm

end

end Assembly
