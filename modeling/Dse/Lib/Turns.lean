import Mathlib.Data.Nat.Bits
import Mathlib.Logic.Relation
import Dse.Lib.Run

/-!
# Taking turns

Two players exchange messages: the turns are numbered, the player `false` moves in the even ones and
the player `true` in the odd ones. Each player goes through a cycle of its own. It sends its message
until it knows that the other one has accepted it, waits for the message of the next turn, examines
what it has accepted, and sends again. What the players share is only how many messages have been
accepted.

An exchange that keeps to these rules never lets the players drift apart (`InTurn`): each of them is
busy with the last accepted message or with the one that is due.

A machine refines such a specification when every admitted step of it is matched by steps of the
specification (`Run.refines`).
-/

namespace Turns

/-- What a player is busy with, and in which turn. -/
inductive Busy
  | sends (turn : ℕ)
  | awaits (turn : ℕ)
  | examines (turn : ℕ)
deriving DecidableEq, Repr

structure State where
  /-- The number of messages that have been accepted. -/
  accepted : ℕ
  busy : Bool → Busy

/-- The player whose turn it is. -/
def mover (turn : ℕ) : Bool := turn.bodd

def start : State where
  accepted := 0
  busy p := if p then .awaits 0 else .sends 0

namespace State

/-- The player `p` turns to something else. -/
def turnTo (s : State) (p : Bool) (b : Busy) : State :=
  { s with busy := Function.update s.busy p b }

@[simp] theorem turnTo_accepted (s : State) (p : Bool) (b : Busy) :
    (s.turnTo p b).accepted = s.accepted := rfl

theorem turnTo_busy (s : State) (p q : Bool) (b : Busy) :
    (s.turnTo p b).busy q = if q = p then b else s.busy q := Function.update_apply _ _ _ _

end State

/-- What can happen in an exchange. -/
inductive Step : State → State → Prop
  /-- The message that is due is accepted. -/
  | accept {s : State} {p : Bool} (hp : s.busy p = .awaits s.accepted)
      (hq : s.busy (!p) = .sends s.accepted) : Step s { s with accepted := s.accepted + 1 }
  | examine {s : State} {p : Bool} {turn : ℕ} (hp : s.busy p = .awaits turn)
      (ht : turn < s.accepted) : Step s (s.turnTo p (.examines turn))
  | reply {s : State} {p : Bool} {turn : ℕ} (hp : s.busy p = .examines turn) :
      Step s (s.turnTo p (.sends (turn + 1)))
  /-- A player stops sending once its message is accepted. -/
  | pass {s : State} {p : Bool} {turn : ℕ} (hp : s.busy p = .sends turn)
      (ht : turn < s.accepted) : Step s (s.turnTo p (.awaits (turn + 1)))

/-- The player `p` is busy with the last accepted message or with the one that is due. -/
def Busy.Fits (accepted : ℕ) (p : Bool) : Busy → Prop
  | .sends turn => mover turn = p ∧ (turn = accepted ∨ turn + 1 = accepted)
  | .awaits turn => mover turn = !p ∧ (turn = accepted ∨ turn + 1 = accepted)
  | .examines turn => mover turn = !p ∧ turn + 1 = accepted

def InTurn (s : State) : Prop := ∀ p, (s.busy p).Fits s.accepted p

@[simp] theorem mover_succ (turn : ℕ) : mover (turn + 1) = !mover turn := Nat.bodd_succ turn

/-- A player that turns to something that fits keeps the players in turn. -/
theorem InTurn.turnTo {s : State} (h : InTurn s) {p : Bool} {b : Busy}
    (hb : b.Fits s.accepted p) : InTurn (s.turnTo p b) := by
  intro q
  rw [State.turnTo_busy]
  by_cases hq : q = p
  · rw [if_pos hq, hq]
    exact hb
  · rw [if_neg hq]
    exact h q

theorem InTurn.step {s s' : State} (h : InTurn s) (hs : Step s s') : InTurn s' := by
  cases hs with
  | @accept p hp hq =>
    have hfits := h p
    have hfits' := h (!p)
    rw [hp] at hfits
    rw [hq] at hfits'
    intro q
    show (s.busy q).Fits (s.accepted + 1) q
    by_cases hqp : q = p
    · rw [hqp, hp]
      exact ⟨hfits.1, .inr rfl⟩
    · rw [Bool.eq_not_of_ne hqp, hq]
      exact ⟨hfits'.1, .inr rfl⟩
  | @examine p turn hp ht =>
    have hfits := h p
    rw [hp] at hfits
    refine h.turnTo ⟨hfits.1, ?_⟩
    exact hfits.2.resolve_left (Nat.ne_of_lt ht)
  | @reply p turn hp =>
    have hfits := h p
    rw [hp] at hfits
    refine h.turnTo ⟨?_, .inl hfits.2⟩
    rw [mover_succ, hfits.1, Bool.not_not]
  | @pass p turn hp ht =>
    have hfits := h p
    rw [hp] at hfits
    refine h.turnTo ⟨?_, .inl (hfits.2.resolve_left (Nat.ne_of_lt ht))⟩
    rw [mover_succ, hfits.1]

end Turns

namespace Run

variable {σ ι α : Type*} {step : σ → ι → σ} {ok : σ → ι → Prop} {R : σ → α → Prop}
  {Step : α → α → Prop}

end Run
