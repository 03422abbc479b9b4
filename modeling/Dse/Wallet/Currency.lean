import Dse.Basic
import Mathlib.Logic.Function.Basic

/-!
# The ERC20 currency of a wallet

The currency is a contract of its own. The wallet only sees its `transfer` and `balanceOf`, so the
model keeps the currency's ledger and leaves open what `transfer` does (`TransferResult`);
`standardTransfer` is the behaviour the ERC20 standard asks for.
-/

namespace Dse

/-- The balances a token contract keeps. -/
abbrev Ledger := Address → U256

/-- What one `transfer` call on a token does. -/
inductive TransferResult
  /-- The tokens move and the call returns `true`. -/
  | moved
  /-- Nothing moves and the call returns `false`. -/
  | refused
  /-- The call reverts. -/
  | reverted
deriving DecidableEq, Repr

namespace Ledger

/-- The ledger after `amount` tokens moved from `sender` to `recipient`. -/
def move (balances : Ledger) (sender recipient : Address) (amount : U256) : Ledger :=
  let debited := Function.update balances sender (balances sender - amount)
  Function.update debited recipient (debited recipient + amount)

/-- A standard ERC20 moves the tokens and returns `true`, and reverts when the sender has too few
tokens or the recipient's balance would overflow. -/
def standardTransfer (balances : Ledger) (sender recipient : Address) (amount : U256) :
    TransferResult :=
  if amount ≤ balances sender ∧
      (recipient = sender ∨ (balances recipient).toNat + amount.toNat < 2 ^ 256) then
    .moved
  else
    .reverted

/-- A standard token never answers `false`. -/
theorem standardTransfer_ne_refused (balances : Ledger) (sender recipient : Address)
    (amount : U256) : standardTransfer balances sender recipient amount ≠ .refused := by
  unfold standardTransfer
  split <;> simp

theorem standardTransfer_eq_moved {balances : Ledger} {sender recipient : Address}
    {amount : U256} : standardTransfer balances sender recipient amount = .moved ↔
      amount ≤ balances sender ∧
        (recipient = sender ∨ (balances recipient).toNat + amount.toNat < 2 ^ 256) := by
  unfold standardTransfer
  split
  · rename_i h
    exact iff_of_true rfl h
  · rename_i h
    exact iff_of_false nofun h

/-- Moving tokens to oneself changes nothing. -/
@[simp] theorem move_self (balances : Ledger) (a : Address) (amount : U256) :
    balances.move a a amount = balances := by
  simp [move]

/-- Moving no tokens changes nothing. -/
@[simp] theorem move_zero (balances : Ledger) (a b : Address) : balances.move a b 0 = balances := by
  simp [move]

/-- What the sender is left with. -/
theorem move_sender {balances : Ledger} {sender recipient : Address} {amount : U256}
    (hle : amount ≤ balances sender) (hne : recipient ≠ sender) :
    (balances.move sender recipient amount sender).toNat =
      (balances sender).toNat - amount.toNat := by
  simp only [move, Function.update_of_ne hne.symm, Function.update_self]
  exact BitVec.toNat_sub_of_le hle

/-- What the recipient then has. -/
theorem move_recipient {balances : Ledger} {sender recipient : Address} {amount : U256}
    (hlt : (balances recipient).toNat + amount.toNat < 2 ^ 256) (hne : recipient ≠ sender) :
    (balances.move sender recipient amount recipient).toNat =
      (balances recipient).toNat + amount.toNat := by
  simp only [move, Function.update_self, Function.update_of_ne hne]
  rw [BitVec.toNat_add, Nat.mod_eq_of_lt hlt]

/-- Every other balance stays as it was. -/
theorem move_other {balances : Ledger} {sender recipient a : Address} {amount : U256}
    (hs : a ≠ sender) (hr : a ≠ recipient) : balances.move sender recipient amount a = balances a := by
  simp [move, hs, hr]

/-- A transfer by somebody else never lowers an account's balance. -/
theorem le_move_of_ne {balances : Ledger} {sender recipient a : Address} {amount : U256}
    (hm : standardTransfer balances sender recipient amount = .moved) (hs : a ≠ sender) :
    balances a ≤ balances.move sender recipient amount a := by
  by_cases hr : a = recipient
  · subst hr
    rcases (standardTransfer_eq_moved.mp hm).2 with h | h
    · exact absurd h hs
    · have := move_recipient h hs
      rw [BitVec.le_def]
      omega
  · rw [move_other hs hr]
    exact BitVec.le_refl _

/-- Two transfers to one recipient are one transfer of both amounts. -/
theorem move_move {balances : Ledger} {sender recipient : Address} (hne : recipient ≠ sender)
    (x y : U256) : (balances.move sender recipient x).move sender recipient y =
      balances.move sender recipient (x + y) := by
  funext a
  by_cases hr : a = recipient
  · subst hr
    simp only [move, Function.update_self, Function.update_of_ne hne]
    exact BitVec.add_assoc _ _ _
  · by_cases hs : a = sender
    · subst hs
      simp only [move, Function.update_self, Function.update_of_ne hr]
      bv_omega
    · rw [move_other hs hr, move_other hs hr, move_other hs hr]

/-- A standard currency transfers a sum exactly when it transfers its parts. -/
theorem standardTransfer_add {balances : Ledger} {sender recipient : Address} {x y xy : U256}
    (hne : recipient ≠ sender) (hsum : x.toNat + y.toNat = xy.toNat) :
    balances.standardTransfer sender recipient xy = .moved ↔
      balances.standardTransfer sender recipient x = .moved ∧
        (balances.move sender recipient x).standardTransfer sender recipient y = .moved := by
  simp only [standardTransfer_eq_moved, or_iff_right hne, BitVec.le_def]
  constructor
  · rintro ⟨hbal, hlt⟩
    have hx : x ≤ balances sender := BitVec.le_def.mpr (by omega)
    have hxlt : (balances recipient).toNat + x.toNat < 2 ^ 256 := by omega
    refine ⟨⟨by omega, hxlt⟩, ?_, ?_⟩
    · rw [move_sender hx hne]
      omega
    · rw [move_recipient hxlt hne]
      omega
  · rintro ⟨⟨hx, hxlt⟩, hy, hylt⟩
    rw [move_sender (BitVec.le_def.mpr hx) hne] at hy
    rw [move_recipient hxlt hne] at hylt
    omega

end Ledger

end Dse
