import Dse.Lib.Batch
import Dse.Wallet.Batch
import Dse.Wallet.Proofs.TxProofs

/-!
# A batch is a sequence

The three batch calls are instances of one scheme: a loop that checks the records and writes to the
shared maps, and one settlement of the total. The settlements are additive and touch nothing that a
check reads, and two checks commute since each of them closes its own key to the other.
-/

namespace Dse

variable {Hash : Type}

/-! ## The scheme of a batch call -/

/-- The scheme of a batch call: `body` is the loop body, `settle` what follows the loop. -/
def batchScheme {ρ : Type} (body : Wallet Hash × U256 → ρ → Option (Wallet Hash × U256))
    (settle : U256 → World Hash → Option (World Hash)) : Batch.Scheme (World Hash) ρ U256 where
  zero := 0
  add := Word.add?
  check w r := ((body (w.wallet, 0) r).map Prod.fst).map fun wallet => { w with wallet }
  worth w := w.wallet.indexValue
  settle := settle

/-- The body adds one `indexValue` to the total, whatever the total is, and does nothing else with
it. -/
structure Totals {ρ : Type} (body : Wallet Hash × U256 → ρ → Option (Wallet Hash × U256)) :
    Prop where
  total : ∀ wallet x r, body (wallet, x) r = (body (wallet, 0) r).bind fun st =>
    (Word.add? x wallet.indexValue).map fun total => (st.1, total)
  value : ∀ st r st', body st r = some st' → st'.1.indexValue = st.1.indexValue

section Scheme

variable {ρ : Type} {body : Wallet Hash × U256 → ρ → Option (Wallet Hash × U256)}
  {settle : U256 → World Hash → Option (World Hash)}

theorem batchScheme_loop (hbody : Totals body) (w : World Hash) (x : U256) (rs : List ρ) :
    (batchScheme body settle).loop (w, x) rs =
      (rs.foldlM body (w.wallet, x)).map fun st => ({ w with wallet := st.1 }, st.2) := by
  induction rs generalizing w x with
  | nil => rfl
  | cons r rs ih =>
    rw [Batch.Scheme.loop_cons, List.foldlM_cons, hbody.total]
    show (((body (w.wallet, 0) r).map _).map _).bind _ = _
    cases body (w.wallet, 0) r with
    | none => rfl
    | some st =>
      show (Word.add? x w.wallet.indexValue).bind _ = _
      cases Word.add? x w.wallet.indexValue with
      | none => rfl
      | some total => exact ih { w with wallet := st.1 } total

theorem batchScheme_run (hbody : Totals body) (w : World Hash) (rs : List ρ) :
    (batchScheme body settle).run rs w =
      (rs.foldlM body (w.wallet, 0)).bind fun st => settle st.2 { w with wallet := st.1 } := by
  unfold Batch.Scheme.run
  rw [show ((w, (batchScheme body settle).zero) : World Hash × U256) = (w, 0) from rfl,
    batchScheme_loop hbody, Option.bind_map]
  rfl

theorem batchScheme_check {w w' : World Hash} {r : ρ} :
    (batchScheme body settle).check w r = some w' ↔
      ∃ st, body (w.wallet, 0) r = some st ∧ { w with wallet := st.1 } = w' := by
  show Option.map _ (Option.map Prod.fst (body (w.wallet, 0) r)) = some w' ↔ _
  rw [Option.map_map]
  exact Option.map_eq_some_iff

/-- Records that commute on the storage commute in a batch. -/
theorem batchScheme_comm (w : World Hash) (r r' : ρ)
    (h : ((body (w.wallet, 0) r).map Prod.fst).bind
        (fun wallet => (body (wallet, 0) r').map Prod.fst) =
      ((body (w.wallet, 0) r').map Prod.fst).bind
        (fun wallet => (body (wallet, 0) r).map Prod.fst)) :
    ((batchScheme body settle).check w r).bind
        (fun w => (batchScheme body settle).check w r') =
      ((batchScheme body settle).check w r').bind
        fun w => (batchScheme body settle).check w r := by
  have hboth : ∀ r r', ((batchScheme body settle).check w r).bind
        (fun w => (batchScheme body settle).check w r') =
      (((body (w.wallet, 0) r).map Prod.fst).bind
        fun wallet => (body (wallet, 0) r').map Prod.fst).map fun wallet => { w with wallet } := by
    intro r r'
    rw [Option.map_bind]
    exact Option.bind_map
  rw [hboth, hboth, h]

/-- What is left to show of a batch call is about its settlement. -/
theorem batchScheme_lawful (hbody : Totals body) {Inv : World Hash → Prop}
    (hzero : ∀ w, Inv w → settle 0 w = some w)
    (hadd : ∀ x y w, Inv w → (Word.add? x y).bind (fun xy => settle xy w) =
      (settle x w).bind (settle y))
    (hcheck : ∀ x w r, Inv w → (settle x w).bind (fun w => (batchScheme body settle).check w r) =
      ((batchScheme body settle).check w r).bind (settle x))
    (hvalue : ∀ x w w', settle x w = some w' → w'.wallet.indexValue = w.wallet.indexValue)
    (hinv : ∀ w r w', Inv w → (batchScheme body settle).check w r = some w' → Inv w')
    (hinv' : ∀ x w w', Inv w → settle x w = some w' → Inv w') :
    (batchScheme body settle).Lawful Inv where
  zero_add := Word.zero_add?
  add_zero := Word.add?_zero
  add_assoc := Word.add?_assoc
  settle_zero := hzero
  settle_add := hadd
  settle_check := hcheck
  worth_check w r w' h := by
    obtain ⟨st, hst, rfl⟩ := batchScheme_check.mp h
    exact hbody.value _ _ _ hst
  worth_settle := hvalue
  inv_check := hinv
  inv_settle := hinv'

end Scheme

variable [DecidableEq Hash] {evm : Evm Hash}

/-! ## `redeemdType2` -/

theorem redeemRecord_totals (toAddress : Address) : Totals (redeemRecord evm toAddress) where
  total wallet x r := by
    refine Option.ext fun st' => ?_
    simp only [Option.bind_eq_some_iff, Option.map_eq_some_iff, redeemRecord_eq_some,
      Word.add?_eq_some]
    constructor
    · rintro ⟨hb, hc, hs, ht, hw⟩
      exact ⟨(st'.1, wallet.indexValue), ⟨hb, hc, hs, Nat.zero_add _, hw⟩, st'.2, ht, rfl⟩
    · rintro ⟨st, ⟨hb, hc, hs, -, hw⟩, total, ht, rfl⟩
      exact ⟨hb, hc, hs, ht, hw⟩
  value st r st' h := by
    obtain ⟨-, -, -, -, hw⟩ := redeemRecord_eq_some.mp h
    rw [hw]

/-- The scheme of `redeemdType2`: the total is transferred. -/
def redeemScheme (evm : Evm Hash) (toAddress : Address) :
    Batch.Scheme (World Hash) RedeemRecord U256 :=
  batchScheme (redeemRecord evm toAddress) fun total w => w.transfer evm toAddress total

namespace World

theorem redeem_eq_run (toAddress : Address) (rs : List RedeemRecord) (w : World Hash) :
    w.redeem evm toAddress rs = (redeemScheme evm toAddress).run rs w := by
  rw [redeemScheme, batchScheme_run (redeemRecord_totals toAddress)]
  rfl

omit [DecidableEq Hash] in
/-- A transfer does not look at the wallet's storage. -/
theorem exists_transfer_eq (evm : Evm Hash) (w : World Hash) (recipient : Address) (amount : U256) :
    ∃ ledger : Option Ledger, ∀ wallet, World.transfer evm { w with wallet } recipient amount =
      ledger.map fun balances => { w with wallet, balances } := by
  cases h : evm.transfer w.balances w.this recipient amount with
  | moved =>
    refine ⟨some (w.balances.move w.this recipient amount), fun wallet => ?_⟩
    simp only [transfer, h, Option.map_some]
  | refused =>
    refine ⟨some w.balances, fun wallet => ?_⟩
    simp only [transfer, h, Option.map_some]
  | reverted =>
    refine ⟨none, fun wallet => ?_⟩
    simp only [transfer, h, Option.map_none]

omit [DecidableEq Hash] in
theorem transfer_zero (hstd : evm.transfer = Ledger.standardTransfer) (w : World Hash)
    (recipient : Address) : w.transfer evm recipient 0 = some w := by
  rw [transfer_eq_some hstd, Ledger.move_zero, Ledger.standardTransfer_eq_moved]
  refine ⟨⟨Word.zero_le _, .inr ?_⟩, rfl⟩
  have hlt := (w.balances recipient).isLt
  rwa [show (0 : U256).toNat = 0 from rfl, Nat.add_zero]

omit [DecidableEq Hash] in
/-- A standard currency transfers a sum to somebody else as it transfers its parts. -/
theorem transfer_add (hstd : evm.transfer = Ledger.standardTransfer) {w : World Hash}
    {recipient : Address} (hne : recipient ≠ w.this) (x y : U256) :
    (Word.add? x y).bind (fun xy => w.transfer evm recipient xy) =
      (w.transfer evm recipient x).bind fun w => w.transfer evm recipient y := by
  refine Option.ext fun w' => ?_
  simp only [Option.bind_eq_some_iff, Word.add?_eq_some, transfer_eq_some hstd]
  constructor
  · rintro ⟨xy, hsum, hmoved, rfl⟩
    obtain ⟨hx, hy⟩ := (Ledger.standardTransfer_add hne hsum).mp hmoved
    refine ⟨_, ⟨hx, rfl⟩, hy, ?_⟩
    simp only [Ledger.move_move hne, Word.eq_add_of_toNat hsum]
  · rintro ⟨_, ⟨hx, rfl⟩, hy, rfl⟩
    have hfits : x.toNat + y.toNat < 2 ^ 256 := by
      obtain ⟨hxle, -⟩ := Ledger.standardTransfer_eq_moved.mp hx
      obtain ⟨hyle, -⟩ := Ledger.standardTransfer_eq_moved.mp hy
      have hlt := (w.balances w.this).isLt
      rw [BitVec.le_def, Ledger.move_sender hxle hne] at hyle
      rw [BitVec.le_def] at hxle
      omega
    obtain ⟨xy, hsum⟩ := Word.exists_toNat.mpr hfits
    refine ⟨xy, hsum, (Ledger.standardTransfer_add hne hsum).mpr ⟨hx, hy⟩, ?_⟩
    simp only [Ledger.move_move hne, Word.eq_add_of_toNat hsum]

end World

theorem redeemScheme_lawful (hstd : evm.transfer = Ledger.standardTransfer) (toAddress : Address) :
    (redeemScheme evm toAddress).Lawful fun w => toAddress ≠ w.this := by
  refine batchScheme_lawful (redeemRecord_totals toAddress) ?_ ?_ ?_ ?_ ?_ ?_
  · exact fun w _ => World.transfer_zero hstd w toAddress
  · exact fun x y w hne => World.transfer_add hstd hne x y
  · intro x w r _
    obtain ⟨ledger, hledger⟩ := World.exists_transfer_eq evm w toAddress x
    have hfirst : w.transfer evm toAddress x = ledger.map fun balances => { w with balances } :=
      hledger w.wallet
    have hcheck : ∀ balances, (redeemScheme evm toAddress).check { w with balances } r =
        ((redeemRecord evm toAddress (w.wallet, 0) r).map Prod.fst).map
          fun wallet => { w with balances, wallet } := fun _ => rfl
    show (w.transfer evm toAddress x).bind (fun w => (redeemScheme evm toAddress).check w r) =
      ((redeemScheme evm toAddress).check w r).bind fun w => w.transfer evm toAddress x
    rw [hfirst, hcheck w.balances, Option.bind_map]
    show ledger.bind (fun balances => (redeemScheme evm toAddress).check { w with balances } r) = _
    simp only [hcheck]
    cases (redeemRecord evm toAddress (w.wallet, 0) r).map Prod.fst with
    | none =>
      cases ledger with
      | none => rfl
      | some balances => rfl
    | some wallet =>
      rw [Option.map_some, Option.bind_some, hledger wallet]
      cases ledger with
      | none => rfl
      | some balances => rfl
  · intro x w w' h
    rw [World.transfer_frame h]
  · intro w r w' hne h
    obtain ⟨st, -, rfl⟩ := batchScheme_check.mp h
    exact hne
  · intro x w w' hne h
    rw [World.transfer_frame h]
    exact hne

/-- What the loop body asks of a record. -/
def RedeemRecord.Admitted (evm : Evm Hash) (toAddress : Address) (wallet : Wallet Hash)
    (r : RedeemRecord) : Prop :=
  wallet.burnBufferTime (evm.claimIdentifier r.index wallet.currentEpoch) = 0 ∧
    wallet.claimed (evm.claimIdentifier r.index wallet.currentEpoch) = false ∧
    r.SignedBy evm wallet toAddress

/-- What the loop body leaves of the storage. -/
def RedeemRecord.claimIn (evm : Evm Hash) (wallet : Wallet Hash) (r : RedeemRecord) :
    Wallet Hash :=
  { wallet with
    claimed :=
      Function.update wallet.claimed (evm.claimIdentifier r.index wallet.currentEpoch) true }

theorem redeemRecord_fst {toAddress : Address} {wallet wallet' : Wallet Hash} {r : RedeemRecord} :
    (redeemRecord evm toAddress (wallet, 0) r).map Prod.fst = some wallet' ↔
      r.Admitted evm toAddress wallet ∧ wallet' = r.claimIn evm wallet := by
  simp only [Option.map_eq_some_iff, redeemRecord_eq_some]
  constructor
  · rintro ⟨st, ⟨hb, hc, hs, -, hw⟩, rfl⟩
    exact ⟨⟨hb, hc, hs⟩, hw⟩
  · rintro ⟨⟨hb, hc, hs⟩, rfl⟩
    exact ⟨(_, wallet.indexValue), ⟨hb, hc, hs, Nat.zero_add _, rfl⟩, rfl⟩

/-- A claimed index is closed to the records behind. -/
theorem RedeemRecord.admitted_claimIn {toAddress : Address} {wallet : Wallet Hash}
    {r r' : RedeemRecord} : r'.Admitted evm toAddress (r.claimIn evm wallet) ↔
      r'.Admitted evm toAddress wallet ∧ evm.claimIdentifier r.index wallet.currentEpoch ≠
        evm.claimIdentifier r'.index wallet.currentEpoch := by
  constructor
  · rintro ⟨hb, hc, hs⟩
    have hc' : Function.update wallet.claimed (evm.claimIdentifier r.index wallet.currentEpoch) true
        (evm.claimIdentifier r'.index wallet.currentEpoch) = false := hc
    have hne : evm.claimIdentifier r'.index wallet.currentEpoch ≠
        evm.claimIdentifier r.index wallet.currentEpoch := by
      intro heq
      rw [heq, Function.update_self] at hc'
      cases hc'
    rw [Function.update_of_ne hne] at hc'
    exact ⟨⟨hb, hc', hs⟩, hne.symm⟩
  · rintro ⟨⟨hb, hc, hs⟩, hne⟩
    exact ⟨hb, (Function.update_of_ne hne.symm _ _).trans hc, hs⟩

theorem redeemScheme_comm (toAddress : Address) (w : World Hash) (r r' : RedeemRecord) :
    ((redeemScheme evm toAddress).check w r).bind
        (fun w => (redeemScheme evm toAddress).check w r') =
      ((redeemScheme evm toAddress).check w r').bind
        fun w => (redeemScheme evm toAddress).check w r := by
  refine batchScheme_comm w r r' (Batch.bind_comm_of_apart
    (fun wallet r => (redeemRecord evm toAddress (wallet, 0) r).map Prod.fst)
    (fun r r' => evm.claimIdentifier r.index w.wallet.currentEpoch ≠
      evm.claimIdentifier r'.index w.wallet.currentEpoch) r r'
    (fun _ _ _ => redeemRecord_fst) (fun r r' _ => RedeemRecord.admitted_claimIn)
    (fun r r' hne => hne.symm) fun r r' hne => ?_)
  unfold RedeemRecord.claimIn
  simp only [Function.update_comm hne]

/-! ## `burnCommits` -/

theorem burnRecord_totals (toAddress : Address) : Totals (burnRecord evm toAddress) where
  total wallet x r := by
    refine Option.ext fun st' => ?_
    simp only [Option.bind_eq_some_iff, Option.map_eq_some_iff, burnRecord_eq_some,
      Word.add?_eq_some]
    constructor
    · rintro ⟨hb, hc, hs, ht, hw⟩
      exact ⟨(st'.1, wallet.indexValue), ⟨hb, hc, hs, Nat.zero_add _, hw⟩, st'.2, ht, rfl⟩
    · rintro ⟨st, ⟨hb, hc, hs, -, hw⟩, total, ht, rfl⟩
      exact ⟨hb, hc, hs, ht, hw⟩
  value st r st' h := by
    obtain ⟨-, -, -, -, b, -, hw⟩ := burnRecord_eq_some.mp h
    rw [hw]

theorem challengeRecord_totals [Inhabited Hash] (timestamp : U256) :
    Totals (challengeRecord evm timestamp) where
  total wallet x c := by
    refine Option.ext fun st' => ?_
    simp only [Option.bind_eq_some_iff, Option.map_eq_some_iff, challengeRecord_eq_some,
      Word.add?_eq_some]
    constructor
    · rintro ⟨ho, hs, ht, hw⟩
      exact ⟨(st'.1, wallet.indexValue), ⟨ho, hs, Nat.zero_add _, hw⟩, st'.2, ht, rfl⟩
    · rintro ⟨st, ⟨ho, hs, -, hw⟩, total, ht, rfl⟩
      exact ⟨ho, hs, ht, hw⟩
  value st c st' h := by
    obtain ⟨-, -, -, hw⟩ := challengeRecord_eq_some.mp h
    rw [hw]

/-! ## Totals that go to the pending amount -/

/-- The storage with another pending amount. -/
def Wallet.setPending (wallet : Wallet Hash) (pendingBurnAmount : U256) : Wallet Hash :=
  { wallet with pendingBurnAmount }

/-- The scheme of a batch whose total changes the pending amount. -/
def pendingScheme {ρ : Type} (body : Wallet Hash × U256 → ρ → Option (Wallet Hash × U256))
    (change : U256 → U256 → Option U256) : Batch.Scheme (World Hash) ρ U256 :=
  batchScheme body fun total w => (change w.wallet.pendingBurnAmount total).map fun pending =>
    { w with wallet := w.wallet.setPending pending }

/-- The body does not look at the pending amount, and leaves it. -/
structure LeavesPending {ρ : Type}
    (body : Wallet Hash × U256 → ρ → Option (Wallet Hash × U256)) : Prop where
  reads : ∀ wallet pending r, (body (wallet.setPending pending, 0) r).map Prod.fst =
    ((body (wallet, 0) r).map Prod.fst).map fun wallet => wallet.setPending pending
  writes : ∀ wallet r wallet', (body (wallet, 0) r).map Prod.fst = some wallet' →
    wallet'.pendingBurnAmount = wallet.pendingBurnAmount

omit [DecidableEq Hash] in
/-- A body that succeeds on a condition and has one effect, neither of which is about the pending
amount. -/
theorem leavesPending_of {ρ : Type} {body : Wallet Hash × U256 → ρ → Option (Wallet Hash × U256)}
    {C : Wallet Hash → ρ → Prop} {F : Wallet Hash → ρ → Wallet Hash}
    (hbody : ∀ wallet r wallet', (body (wallet, 0) r).map Prod.fst = some wallet' ↔
      C wallet r ∧ wallet' = F wallet r)
    (hC : ∀ wallet pending r, C (wallet.setPending pending) r ↔ C wallet r)
    (hF : ∀ wallet pending r, F (wallet.setPending pending) r = (F wallet r).setPending pending)
    (hpending : ∀ wallet r, (F wallet r).pendingBurnAmount = wallet.pendingBurnAmount) :
    LeavesPending body where
  reads wallet pending r := by
    refine Option.ext fun wallet' => ?_
    rw [hbody, hC, hF, Option.map_eq_some_iff]
    constructor
    · rintro ⟨hc, rfl⟩
      exact ⟨F wallet r, (hbody _ _ _).mpr ⟨hc, rfl⟩, rfl⟩
    · rintro ⟨wallet₁, h, rfl⟩
      obtain ⟨hc, rfl⟩ := (hbody _ _ _).mp h
      exact ⟨hc, rfl⟩
  writes wallet r wallet' h := by
    obtain ⟨-, rfl⟩ := (hbody _ _ _).mp h
    exact hpending wallet r

omit [DecidableEq Hash] in
/-- A batch whose total changes the pending amount is lawful if the change by a sum is the change by
its parts. -/
theorem pendingScheme_lawful {ρ : Type}
    {body : Wallet Hash × U256 → ρ → Option (Wallet Hash × U256)}
    {change : U256 → U256 → Option U256} (hbody : Totals body) (hleaves : LeavesPending body)
    (hzero : ∀ pending, change pending 0 = some pending)
    (hadd : ∀ pending x y, (Word.add? x y).bind (change pending) =
      (change pending x).bind fun pending => change pending y)
    {Inv : World Hash → Prop}
    (hinv : ∀ w r w', Inv w → (pendingScheme body change).check w r = some w' → Inv w')
    (hinv' : ∀ w pending, Inv w → Inv { w with wallet := w.wallet.setPending pending }) :
    (pendingScheme body change).Lawful Inv := by
  refine batchScheme_lawful hbody ?_ ?_ ?_ ?_ hinv ?_
  · intro w _
    rw [hzero]
    rfl
  · intro x y w _
    have h := congrArg (Option.map fun pending =>
      ({ w with wallet := w.wallet.setPending pending } : World Hash))
      (hadd w.wallet.pendingBurnAmount x y)
    rw [Option.map_bind, Option.map_bind] at h
    rw [Option.bind_map]
    exact h
  · intro x w r _
    have hcheck : ∀ wallet, (pendingScheme body change).check { w with wallet } r =
        ((body (wallet, 0) r).map Prod.fst).map fun wallet => { w with wallet } := fun _ => rfl
    have hsettle : ∀ wallet, (pendingScheme body change).settle x { w with wallet } =
        (change wallet.pendingBurnAmount x).map fun pending =>
          { w with wallet := wallet.setPending pending } := fun _ => rfl
    show ((pendingScheme body change).settle x { w with wallet := w.wallet }).bind
        (fun w => (pendingScheme body change).check w r) =
      ((pendingScheme body change).check { w with wallet := w.wallet } r).bind
        ((pendingScheme body change).settle x)
    rw [hcheck, hsettle, Option.bind_map, Option.bind_map]
    cases h : (body (w.wallet, 0) r).map Prod.fst with
    | none =>
      refine Option.bind_eq_none_iff.mpr fun pending _ => ?_
      show (pendingScheme body change).check { w with wallet := w.wallet.setPending pending } r =
        none
      rw [hcheck, hleaves.reads, h]
      rfl
    | some wallet =>
      show _ = (pendingScheme body change).settle x { w with wallet := wallet }
      rw [hsettle, hleaves.writes _ _ _ h, Option.map_eq_bind]
      refine Option.bind_congr fun pending _ => ?_
      show (pendingScheme body change).check { w with wallet := w.wallet.setPending pending } r = _
      rw [hcheck, hleaves.reads, h]
      rfl
  · intro x w w' h
    obtain ⟨pending, -, rfl⟩ := Option.map_eq_some_iff.mp h
    rfl
  · intro x w w' hw h
    obtain ⟨pending, -, rfl⟩ := Option.map_eq_some_iff.mp h
    exact hinv' w pending hw

/-! ### The burning loop -/

/-- What the loop body asks of a record. -/
structure BurnRecord.Admitted (evm : Evm Hash) (toAddress : Address) (wallet : Wallet Hash)
    (r : BurnRecord) : Prop where
  unburned : wallet.burnBufferTime (evm.claimIdentifier r.index wallet.currentEpoch) = 0
  unclaimed : wallet.claimed (evm.claimIdentifier r.index wallet.currentEpoch) = false
  signed : r.SignedBy evm wallet toAddress
  timed : (r.bTime wallet).isSome

/-- What the loop body leaves of the storage. -/
def BurnRecord.enterIn (evm : Evm Hash) (toAddress : Address) (wallet : Wallet Hash)
    (r : BurnRecord) : Wallet Hash :=
  { wallet with
    burnBufferIAddress := Function.update wallet.burnBufferIAddress
      (evm.claimIdentifier r.index wallet.currentEpoch) (r.iAddress wallet toAddress)
    burnBufferTime := Function.update wallet.burnBufferTime
      (evm.claimIdentifier r.index wallet.currentEpoch) ((r.bTime wallet).getD 0)
    burnBufferIBlob := Function.update wallet.burnBufferIBlob
      (evm.claimIdentifier r.index wallet.currentEpoch) (evm.invalidatingHash r.u) }

theorem burnRecord_fst {toAddress : Address} {wallet wallet' : Wallet Hash} {r : BurnRecord} :
    (burnRecord evm toAddress (wallet, 0) r).map Prod.fst = some wallet' ↔
      r.Admitted evm toAddress wallet ∧ wallet' = r.enterIn evm toAddress wallet := by
  simp only [Option.map_eq_some_iff, burnRecord_eq_some]
  constructor
  · rintro ⟨st, ⟨hb, hc, hs, -, b, htime, hw⟩, rfl⟩
    refine ⟨⟨hb, hc, hs, by rw [htime]; rfl⟩, ?_⟩
    rw [hw]
    unfold BurnRecord.enterIn
    rw [htime]
    rfl
  · rintro ⟨⟨hb, hc, hs, htimed⟩, rfl⟩
    obtain ⟨b, htime⟩ := Option.isSome_iff_exists.mp htimed
    refine ⟨(_, wallet.indexValue), ⟨hb, hc, hs, Nat.zero_add _, b, htime, ?_⟩, rfl⟩
    rw [htime]
    rfl

theorem burnRecord_leavesPending (toAddress : Address) :
    LeavesPending (burnRecord evm toAddress) :=
  leavesPending_of (fun _ _ _ => burnRecord_fst)
    (fun _ _ _ => ⟨fun h => ⟨h.unburned, h.unclaimed, h.signed, h.timed⟩,
      fun h => ⟨h.unburned, h.unclaimed, h.signed, h.timed⟩⟩)
    (fun _ _ _ => rfl) fun _ _ => rfl

/-- With a burn buffer above zero, a burned index is closed to the records behind. -/
theorem BurnRecord.admitted_enterIn {toAddress : Address} {wallet : Wallet Hash}
    {r r' : BurnRecord} (hpos : 0 < wallet.burnBuffer.toNat)
    (hr : r.Admitted evm toAddress wallet) :
    r'.Admitted evm toAddress (r.enterIn evm toAddress wallet) ↔
      r'.Admitted evm toAddress wallet ∧ evm.claimIdentifier r.index wallet.currentEpoch ≠
        evm.claimIdentifier r'.index wallet.currentEpoch := by
  obtain ⟨b, htime⟩ := Option.isSome_iff_exists.mp hr.timed
  constructor
  · rintro ⟨hb, hc, hs, ht⟩
    have hb' : Function.update wallet.burnBufferTime
        (evm.claimIdentifier r.index wallet.currentEpoch) ((r.bTime wallet).getD 0)
        (evm.claimIdentifier r'.index wallet.currentEpoch) = 0 := hb
    have hne : evm.claimIdentifier r'.index wallet.currentEpoch ≠
        evm.claimIdentifier r.index wallet.currentEpoch := by
      intro heq
      rw [heq, Function.update_self, htime] at hb'
      exact BurnRecord.bTime_pos htime hpos hb'
    rw [Function.update_of_ne hne] at hb'
    exact ⟨⟨hb', hc, hs, ht⟩, hne.symm⟩
  · rintro ⟨⟨hb, hc, hs, ht⟩, hne⟩
    exact ⟨(Function.update_of_ne hne.symm _ _).trans hb, hc, hs, ht⟩

/-- The scheme of `burnCommits` behind its deadline check: the total becomes pending. -/
def burnScheme (evm : Evm Hash) (toAddress : Address) :
    Batch.Scheme (World Hash) BurnRecord U256 :=
  pendingScheme (burnRecord evm toAddress) Word.add?

theorem burnScheme_lawful (toAddress : Address) :
    (burnScheme evm toAddress).Lawful fun w => 0 < w.wallet.burnBuffer.toNat := by
  refine pendingScheme_lawful (burnRecord_totals toAddress) (burnRecord_leavesPending toAddress)
    Word.add?_zero (fun pending x y => (Word.add?_assoc pending x y).symm) ?_ fun _ _ hpos => hpos
  intro w r w' hpos h
  obtain ⟨st, hst, rfl⟩ := batchScheme_check.mp h
  obtain ⟨-, -, -, -, b, -, hw⟩ := burnRecord_eq_some.mp hst
  show 0 < st.1.burnBuffer.toNat
  rw [hw]
  exact hpos

theorem burnScheme_comm (toAddress : Address) {w : World Hash}
    (hpos : 0 < w.wallet.burnBuffer.toNat) (r r' : BurnRecord) :
    ((burnScheme evm toAddress).check w r).bind (fun w => (burnScheme evm toAddress).check w r') =
      ((burnScheme evm toAddress).check w r').bind
        fun w => (burnScheme evm toAddress).check w r := by
  refine batchScheme_comm w r r' (Batch.bind_comm_of_apart
    (fun wallet r => (burnRecord evm toAddress (wallet, 0) r).map Prod.fst)
    (fun r r' => evm.claimIdentifier r.index w.wallet.currentEpoch ≠
      evm.claimIdentifier r'.index w.wallet.currentEpoch) r r'
    (fun _ _ _ => burnRecord_fst) (fun r r' hr => BurnRecord.admitted_enterIn hpos hr)
    (fun r r' hne => hne.symm) fun r r' hne => ?_)
  have hcomm : ∀ {β : Type} (f : Hash → β) (a b : β),
      Function.update (Function.update f (evm.claimIdentifier r.index w.wallet.currentEpoch) a)
        (evm.claimIdentifier r'.index w.wallet.currentEpoch) b =
      Function.update (Function.update f (evm.claimIdentifier r'.index w.wallet.currentEpoch) b)
        (evm.claimIdentifier r.index w.wallet.currentEpoch) a :=
    fun f a b => (Function.update_comm hne a b f)
  have hreads : ∀ r r' : BurnRecord,
      r'.bTime (r.enterIn evm toAddress w.wallet) = r'.bTime w.wallet ∧
        r'.iAddress (r.enterIn evm toAddress w.wallet) toAddress =
          r'.iAddress w.wallet toAddress := fun _ _ => ⟨rfl, rfl⟩
  conv_lhs => rw [BurnRecord.enterIn, (hreads r r').1, (hreads r r').2]
  conv_rhs => rw [BurnRecord.enterIn, (hreads r' r).1, (hreads r' r).2]
  unfold BurnRecord.enterIn
  simp only [hcomm]

/-! ### The challenging loop -/

section Challenge

variable [Inhabited Hash]

/-- What the loop body asks of a record. -/
def ChallengeRecord.Admitted (evm : Evm Hash) (timestamp : U256) (wallet : Wallet Hash)
    (c : ChallengeRecord Hash) : Prop :=
  timestamp < wallet.burnBufferTime c.commitHash ∧
    evm.recover (wallet.burnBufferIBlob c.commitHash) c.signature =
      wallet.burnBufferIAddress c.commitHash

/-- What the loop body leaves of the storage. -/
def ChallengeRecord.deleteIn (wallet : Wallet Hash) (c : ChallengeRecord Hash) : Wallet Hash :=
  { wallet with
    burnBufferTime := Function.update wallet.burnBufferTime c.commitHash 0
    burnBufferIBlob := Function.update wallet.burnBufferIBlob c.commitHash default
    burnBufferIAddress := Function.update wallet.burnBufferIAddress c.commitHash 0 }

theorem challengeRecord_fst {timestamp : U256} {wallet wallet' : Wallet Hash}
    {c : ChallengeRecord Hash} :
    (challengeRecord evm timestamp (wallet, 0) c).map Prod.fst = some wallet' ↔
      c.Admitted evm timestamp wallet ∧ wallet' = c.deleteIn wallet := by
  simp only [Option.map_eq_some_iff, challengeRecord_eq_some]
  constructor
  · rintro ⟨st, ⟨ht, hs, -, hw⟩, rfl⟩
    exact ⟨⟨ht, hs⟩, hw⟩
  · rintro ⟨⟨ht, hs⟩, rfl⟩
    exact ⟨(_, wallet.indexValue), ⟨ht, hs, Nat.zero_add _, rfl⟩, rfl⟩

theorem challengeRecord_leavesPending (timestamp : U256) :
    LeavesPending (challengeRecord evm timestamp) :=
  leavesPending_of (fun _ _ _ => challengeRecord_fst) (fun _ _ _ => Iff.rfl)
    (fun _ _ _ => rfl) fun _ _ => rfl

/-- A deleted record is closed to the challenges behind. -/
theorem ChallengeRecord.admitted_deleteIn {timestamp : U256} {wallet : Wallet Hash}
    {c c' : ChallengeRecord Hash} :
    c'.Admitted evm timestamp (c.deleteIn wallet) ↔
      c'.Admitted evm timestamp wallet ∧ c.commitHash ≠ c'.commitHash := by
  constructor
  · rintro ⟨ht, hs⟩
    have ht' : timestamp < Function.update wallet.burnBufferTime c.commitHash 0 c'.commitHash := ht
    have hs' : evm.recover
        (Function.update wallet.burnBufferIBlob c.commitHash default c'.commitHash) c'.signature =
          Function.update wallet.burnBufferIAddress c.commitHash 0 c'.commitHash := hs
    have hne : c'.commitHash ≠ c.commitHash := by
      intro heq
      rw [heq, Function.update_self] at ht'
      exact absurd (Word.zero_le timestamp) (BitVec.not_le.mpr ht')
    rw [Function.update_of_ne hne] at ht'
    rw [Function.update_of_ne hne, Function.update_of_ne hne] at hs'
    exact ⟨⟨ht', hs'⟩, hne.symm⟩
  · rintro ⟨⟨ht, hs⟩, hne⟩
    refine ⟨?_, ?_⟩
    · show timestamp < Function.update wallet.burnBufferTime c.commitHash 0 c'.commitHash
      rw [Function.update_of_ne hne.symm]
      exact ht
    · show evm.recover
        (Function.update wallet.burnBufferIBlob c.commitHash default c'.commitHash) c'.signature =
          Function.update wallet.burnBufferIAddress c.commitHash 0 c'.commitHash
      rw [Function.update_of_ne hne.symm, Function.update_of_ne hne.symm]
      exact hs

/-- The scheme of `challengeBurnCommits`: the total is no longer pending. -/
def challengeScheme (evm : Evm Hash) (timestamp : U256) :
    Batch.Scheme (World Hash) (ChallengeRecord Hash) U256 :=
  pendingScheme (challengeRecord evm timestamp) Word.sub?

theorem challengeScheme_lawful (timestamp : U256) :
    (challengeScheme evm timestamp).Lawful fun _ => True :=
  pendingScheme_lawful (challengeRecord_totals timestamp) (challengeRecord_leavesPending timestamp)
    Word.sub?_zero Word.sub?_add (fun _ _ _ _ _ => trivial) fun _ _ _ => trivial

theorem challengeScheme_comm (timestamp : U256) (w : World Hash) (c c' : ChallengeRecord Hash) :
    ((challengeScheme evm timestamp).check w c).bind
        (fun w => (challengeScheme evm timestamp).check w c') =
      ((challengeScheme evm timestamp).check w c').bind
        fun w => (challengeScheme evm timestamp).check w c := by
  refine batchScheme_comm w c c' (Batch.bind_comm_of_apart
    (fun wallet c => (challengeRecord evm timestamp (wallet, 0) c).map Prod.fst)
    (fun c c' => c.commitHash ≠ c'.commitHash) c c'
    (fun _ _ _ => challengeRecord_fst) (fun c c' _ => ChallengeRecord.admitted_deleteIn)
    (fun c c' hne => hne.symm) fun c c' hne => ?_)
  unfold ChallengeRecord.deleteIn
  simp only [Function.update_comm hne]

end Challenge

/-! ## The calls -/

namespace World

/-- What `burnCommits` checks before its loop. -/
def burnGuard (timestamp : U256) (w : World Hash) : Option Unit :=
  (Word.add? w.wallet.burnBuffer invDisadvantageBuffer).bind fun margin =>
    (Word.sub? w.wallet.epochExpiresBy margin).bind fun deadline =>
      revertIf (deadline ≤ timestamp)

/-- More than the burn buffer and the disadvantage buffer is left of the epoch. -/
def MayBurn (timestamp : U256) (w : World Hash) : Prop := (w.burnGuard timestamp).isSome

instance (timestamp : U256) (w : World Hash) : Decidable (w.MayBurn timestamp) :=
  inferInstanceAs (Decidable (_ = true))

theorem burn_eq (timestamp : U256) (toAddress : Address) (rs : List BurnRecord)
    (w : World Hash) : w.burn evm timestamp toAddress rs =
      if w.MayBurn timestamp then (burnScheme evm toAddress).run rs w else none := by
  have hrun : (burnScheme evm toAddress).run rs w =
      (burnLoop evm toAddress (w.wallet, 0) rs).bind fun st =>
        (Word.add? st.1.pendingBurnAmount st.2).map fun pendingBurnAmount =>
          { w with wallet := { st.1 with pendingBurnAmount } } :=
    batchScheme_run (burnRecord_totals toAddress) w rs
  have hburn : w.burn evm timestamp toAddress rs =
      (w.burnGuard timestamp).bind fun _ => (burnScheme evm toAddress).run rs w := by
    rw [hrun]
    unfold burn burnGuard
    simp only [Option.bind_eq_bind, Option.bind_assoc, Option.map_eq_bind]
    rfl
  rw [hburn]
  by_cases hopen : w.MayBurn timestamp
  · obtain ⟨u, hu⟩ := Option.isSome_iff_exists.mp hopen
    rw [if_pos hopen, hu, Option.bind_some]
  · rw [if_neg hopen, Option.not_isSome_iff_eq_none.mp hopen, Option.bind_none]

/-- The deadline of `burnCommits` does not move when an index is burned. -/
theorem mayBurn_of_burned {timestamp : U256} {toAddress : Address} {r : BurnRecord}
    {w w' : World Hash} (h : (burnScheme evm toAddress).run [r] w = some w') :
    w'.MayBurn timestamp ↔ w.MayBurn timestamp := by
  rw [(burnScheme_lawful toAddress).run_singleton] at h
  obtain ⟨w₁, h₁, h₂⟩ := Option.bind_eq_some_iff.mp h
  obtain ⟨st, hst, rfl⟩ := batchScheme_check.mp h₁
  obtain ⟨pending, -, rfl⟩ := Option.map_eq_some_iff.mp h₂
  obtain ⟨-, -, -, -, b, -, hw⟩ := burnRecord_eq_some.mp hst
  unfold MayBurn burnGuard Wallet.setPending
  rw [hw]

theorem challenge_eq_run [Inhabited Hash] (timestamp : U256) (cs : List (ChallengeRecord Hash))
    (w : World Hash) : w.challenge evm timestamp cs = (challengeScheme evm timestamp).run cs w := by
  rw [challengeScheme, pendingScheme, batchScheme_run (challengeRecord_totals timestamp)]
  unfold challenge challengeLoop
  refine Option.bind_congr fun st _ => ?_
  rw [Option.map_eq_bind]
  rfl

/-! ### Redeeming -/

theorem redeem_eq_sequence (hstd : evm.transfer = Ledger.standardTransfer) {toAddress : Address}
    (rs : List RedeemRecord) {w : World Hash} (hne : toAddress ≠ w.this) :
    w.redeem evm toAddress rs = rs.foldlM (fun w r => w.redeem evm toAddress [r]) w := by
  simp only [redeem_eq_run]
  exact (redeemScheme_lawful hstd toAddress).run_eq_foldlM rs hne

theorem redeem_perm (hstd : evm.transfer = Ledger.standardTransfer) {toAddress : Address}
    {rs rs' : List RedeemRecord} (hp : rs.Perm rs') {w : World Hash} (hne : toAddress ≠ w.this) :
    w.redeem evm toAddress rs = w.redeem evm toAddress rs' := by
  rw [redeem_eq_run, redeem_eq_run]
  exact (redeemScheme_lawful hstd toAddress).run_perm
    (fun w r r' _ => redeemScheme_comm toAddress w r r') hp hne

/-! ### Burning -/

/-- An empty batch only asks for the deadline, which is why the list must not be empty. -/
theorem burn_eq_sequence (timestamp : U256) (toAddress : Address) {rs : List BurnRecord}
    (hrs : rs ≠ []) {w : World Hash} (hpos : 0 < w.wallet.burnBuffer.toNat) :
    w.burn evm timestamp toAddress rs =
      rs.foldlM (fun w r => w.burn evm timestamp toAddress [r]) w := by
  simp only [burn_eq]
  rw [Batch.foldlM_guarded (MayBurn timestamp) (fun _ _ _ h => mayBurn_of_burned h) hrs,
    (burnScheme_lawful toAddress).run_eq_foldlM rs hpos]

theorem burn_perm (timestamp : U256) (toAddress : Address) {rs rs' : List BurnRecord}
    (hp : rs.Perm rs') {w : World Hash} (hpos : 0 < w.wallet.burnBuffer.toNat) :
    w.burn evm timestamp toAddress rs = w.burn evm timestamp toAddress rs' := by
  rw [burn_eq, burn_eq, (burnScheme_lawful toAddress).run_perm
    (fun w r r' hpos => burnScheme_comm toAddress hpos r r') hp hpos]

/-! ### Challenging -/

theorem challenge_eq_sequence [Inhabited Hash] (timestamp : U256)
    (cs : List (ChallengeRecord Hash)) (w : World Hash) : w.challenge evm timestamp cs =
      cs.foldlM (fun w c => w.challenge evm timestamp [c]) w := by
  simp only [challenge_eq_run]
  exact (challengeScheme_lawful timestamp).run_eq_foldlM cs trivial

theorem challenge_perm [Inhabited Hash] (timestamp : U256) {cs cs' : List (ChallengeRecord Hash)}
    (hp : cs.Perm cs') (w : World Hash) :
    w.challenge evm timestamp cs = w.challenge evm timestamp cs' := by
  rw [challenge_eq_run, challenge_eq_run]
  exact (challengeScheme_lawful timestamp).run_perm
    (fun w c c' _ => challengeScheme_comm timestamp w c c') hp trivial

/-! ### All three -/

/-- A batch call is the sequence of its single-record calls in the same block, and the order of its
records makes no difference, to its success and to the state that it leaves. -/
theorem batch_eq_sequence [Inhabited Hash] (hstd : evm.transfer = Ledger.standardTransfer)
    (w : World Hash) (hpos : 0 < w.wallet.burnBuffer) (timestamp : U256) :
    (∀ toAddress, toAddress ≠ w.this → ∀ rs, rs ≠ [] →
      w.redeem evm toAddress rs = rs.foldlM (fun w r => w.redeem evm toAddress [r]) w ∧
        ∀ rs', rs.Perm rs' → w.redeem evm toAddress rs = w.redeem evm toAddress rs') ∧
    (∀ toAddress, ∀ rs, rs ≠ [] →
      w.burn evm timestamp toAddress rs =
          rs.foldlM (fun w r => w.burn evm timestamp toAddress [r]) w ∧
        ∀ rs', rs.Perm rs' →
          w.burn evm timestamp toAddress rs = w.burn evm timestamp toAddress rs') ∧
    (∀ cs, cs ≠ [] →
      w.challenge evm timestamp cs = cs.foldlM (fun w c => w.challenge evm timestamp [c]) w ∧
        ∀ cs', cs.Perm cs' → w.challenge evm timestamp cs = w.challenge evm timestamp cs') := by
  have hpos' : 0 < w.wallet.burnBuffer.toNat := BitVec.lt_def.mp hpos
  refine ⟨?_, ?_, ?_⟩
  · intro toAddress hne rs _
    exact ⟨redeem_eq_sequence hstd rs hne, fun rs' hp => redeem_perm hstd hp hne⟩
  · intro toAddress rs hrs
    exact ⟨burn_eq_sequence timestamp toAddress hrs hpos',
      fun rs' hp => burn_perm timestamp toAddress hp hpos'⟩
  · intro cs _
    exact ⟨challenge_eq_sequence timestamp cs w, fun cs' hp => challenge_perm timestamp hp w⟩

/-- Two indices are burned in one call, in two calls, and the other way round. -/
theorem batch_eq_sequence_plainWorld :
    let w := plainWorld.step plainEvm ⟨3, 1650000000, .startEpoch⟩
    let burned : List BurnRecord := [⟨1, 1, 0, plainSignature 7⟩, ⟨2, 1, 1, plainSignature 7⟩]
    let redeemed : List RedeemRecord := [⟨3, 1, plainSignature 7, plainSignature 7⟩]
    (w.burn plainEvm 1650000010 5 burned).isSome ∧
      w.burn plainEvm 1650000010 5 burned =
        burned.foldlM (fun w r => w.burn plainEvm 1650000010 5 [r]) w ∧
      w.burn plainEvm 1650000010 5 burned = w.burn plainEvm 1650000010 5 burned.reverse ∧
      w.redeem plainEvm 5 redeemed = redeemed.foldlM (fun w r => w.redeem plainEvm 5 [r]) w ∧
      ∀ cs, cs ≠ [] → w.challenge plainEvm 1650000010 cs =
        cs.foldlM (fun w c => w.challenge plainEvm 1650000010 [c]) w := by
  intro w burned redeemed
  have hstd : plainEvm.transfer = Ledger.standardTransfer := rfl
  obtain ⟨hredeem, hburn, hchallenge⟩ :=
    batch_eq_sequence hstd w (by decide +kernel) 1650000010
  obtain ⟨hseq, hperm⟩ := hburn 5 burned (List.cons_ne_nil _ _)
  refine ⟨by decide +kernel, hseq, hperm _ (List.reverse_perm burned).symm, ?_, ?_⟩
  · exact (hredeem 5 (by decide) redeemed (List.cons_ne_nil _ _)).1
  · exact fun cs hcs => (hchallenge cs hcs).1

end World

end Dse
