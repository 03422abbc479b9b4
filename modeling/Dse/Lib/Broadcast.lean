import Mathlib.Data.List.Basic

/-!
# A broadcast channel with a fixed number of slots

The sender of a broadcast channel never waits: when the slots are full, the oldest value is
overwritten. A receiver that has missed values learns this once, by an error in place of a value, and
then goes on with the oldest value that is left. `Receiver` is one receiver's view of the channel.
-/

namespace Broadcast

variable {α : Type*}

structure Receiver (α : Type*) where
  /-- The values that are sent and not received, the oldest first. -/
  queue : List α
  /-- Values were overwritten since the last receive. -/
  lagged : Bool
deriving DecidableEq

namespace Receiver

def new : Receiver α where
  queue := []
  lagged := false

variable (slots : ℕ)

/-- What is overwritten when a value is sent. -/
def lost (r : Receiver α) (x : α) : List α :=
  (r.queue ++ [x]).take ((r.queue ++ [x]).length - slots)

def send (r : Receiver α) (x : α) : Receiver α where
  queue := (r.queue ++ [x]).drop ((r.queue ++ [x]).length - slots)
  lagged := r.lagged || decide (slots < (r.queue ++ [x]).length)

/-- Values sent one after another. -/
def sendAll (r : Receiver α) (xs : List α) : Receiver α := xs.foldl (send slots) r

def lostAll (r : Receiver α) : List α → List α
  | [] => []
  | x :: xs => r.lost slots x ++ (r.send slots x).lostAll xs

/-- The next value, or nothing: the queue is empty, or the receiver learns that it has lagged. -/
def recv (r : Receiver α) : Receiver α × Option α :=
  if r.lagged then ({ r with lagged := false }, none)
  else
    match r.queue with
    | [] => (r, none)
    | x :: queue => ({ r with queue }, some x)

theorem lost_append_send (r : Receiver α) (x : α) :
    r.lost slots x ++ (r.send slots x).queue = r.queue ++ [x] :=
  List.take_append_drop _ _

/-- What is sent is overwritten or waits, in the order in which it was sent. -/
theorem lostAll_append_sendAll (r : Receiver α) (xs : List α) :
    r.lostAll slots xs ++ (r.sendAll slots xs).queue = r.queue ++ xs := by
  induction xs generalizing r with
  | nil =>
    show [] ++ r.queue = r.queue ++ []
    rw [List.nil_append, List.append_nil]
  | cons x xs ih =>
    have hone := r.lost_append_send slots x
    have hrest := ih (r.send slots x)
    show r.lost slots x ++ (r.send slots x).lostAll slots xs ++
      ((r.send slots x).sendAll slots xs).queue = r.queue ++ x :: xs
    rw [List.append_assoc, hrest, ← List.append_assoc, hone, List.append_assoc]
    rfl

/-- A receive takes the oldest value, or none. -/
theorem recv_cases (r : Receiver α) :
    (r.recv.2 = none ∧ r.recv.1.queue = r.queue) ∨
      ∃ x, r.recv.2 = some x ∧ r.queue = x :: r.recv.1.queue := by
  unfold recv
  by_cases hlag : r.lagged = true
  · rw [if_pos hlag]
    exact Or.inl ⟨rfl, rfl⟩
  · rw [if_neg hlag]
    cases hqueue : r.queue with
    | nil => exact Or.inl ⟨rfl, hqueue⟩
    | cons x queue => exact Or.inr ⟨x, rfl, rfl⟩

end Receiver

end Broadcast
