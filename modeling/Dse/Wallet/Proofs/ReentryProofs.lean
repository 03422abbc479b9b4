import Dse.Wallet.Reentry
import Dse.Wallet.Proofs.TxProofs

/-!
# What holds when the currency calls back

`redeemdType2` marks the indexes of a batch before it asks the currency to pay for them. Whatever is
called back in between finds them marked, so no index is settled twice, neither by tokens that move
nor by an answer of `false` (`Settles` says what any call adds to what was settled before).
`burnPendingAmount` clears the pending amount after it has sent it away, so each call back of
`startEpoch` sends it away once more.
-/

namespace Dse

open Reentry

variable {Hash : Type} {evm : Evm Hash}

/-! ## Nothing is called back -/

namespace Paying

/-- The hooks of a currency that calls nobody. -/
def quiet (_ : ℕ) (p : Paying Hash) : Paying Hash := p

theorem transfer_quiet (p : Paying Hash) (n : ℕ) (recipient : Address) (amount : U256) :
    p.transfer evm quiet n recipient amount [] =
      (p.world.transfer evm recipient amount).map fun world => { p with world } := by
  simp [transfer, quiet]

theorem world_transfer (p : Paying Hash) (n : ℕ) (recipient : Address) (amount : U256)
    (indexes : List (U32 × U256)) :
    (p.transfer evm quiet n recipient amount indexes).map Paying.world =
      p.world.transfer evm recipient amount := by
  simp [transfer, quiet, Function.comp_def]

theorem burnPendingAmount_quiet (p : Paying Hash) : p.burnPendingAmount evm quiet =
    (p.world.burnPendingAmount evm).map fun world => { p with world } := by
  unfold burnPendingAmount World.burnPendingAmount
  dsimp only
  by_cases h : p.world.wallet.pendingBurnAmount ≠ 0
  · rw [if_pos h, if_pos h, transfer_quiet]
    cases p.world.transfer evm 0 p.world.wallet.pendingBurnAmount <;> rfl
  · rw [if_neg h, if_neg h]
    rfl

theorem startEpoch_quiet (p : Paying Hash) (timestamp : U256) : p.startEpoch evm quiet timestamp =
    (p.world.startEpoch evm timestamp).map fun world => { p with world } := by
  unfold startEpoch World.startEpoch
  rw [burnPendingAmount_quiet]
  simp only [Option.bind_eq_bind]
  cases revertIf (timestamp < p.world.wallet.epochExpiresBy) with
  | none => rfl
  | some _ =>
    cases p.world.burnPendingAmount evm with
    | none => rfl
    | some world =>
      simp only [Option.bind_some, Option.map_some]
      cases Word.add? world.wallet.currentEpoch 1 with
      | none => rfl
      | some epoch =>
        simp only [Option.bind_some]
        cases Word.add? timestamp world.wallet.epochDuration <;> rfl

theorem withdraw_quiet (p : Paying Hash) (sender : Address) (timestamp : U256) :
    p.withdraw evm quiet sender timestamp =
      (p.world.withdraw evm sender timestamp).map fun world => { p with world } := by
  unfold withdraw World.withdraw
  rw [burnPendingAmount_quiet]
  simp only [Option.bind_eq_bind]
  cases revertIf (sender ≠ p.world.wallet.owner) with
  | none => rfl
  | some _ =>
    cases revertIf (timestamp < p.world.wallet.epochDuration) with
    | none => rfl
    | some _ =>
      cases p.world.burnPendingAmount evm with
      | none => rfl
      | some world =>
        simp only [Option.bind_some, Option.map_some]
        show ((world.safeTransfer evm sender world.getBalance).map _).bind _ = _
        cases world.safeTransfer evm sender world.getBalance <;> rfl

variable [DecidableEq Hash] [Inhabited Hash]

/-- A call during which nothing is called back does what the function of the contract does. -/
theorem world_exec (timestamp : U256) (tx : Address × Call Hash) (p : Paying Hash) :
    (p.exec evm timestamp tx quiet).map Paying.world =
      p.world.exec evm { sender := tx.1, timestamp, call := tx.2 } := by
  have hworld : ∀ (settled : List Settled) (r : Option (World Hash)),
      (r.map fun world => Paying.mk world settled).map Paying.world = r := by
    intro settled r
    cases r <;> rfl
  unfold exec World.exec
  cases tx.2 with
  | startEpoch =>
    dsimp only
    rw [startEpoch_quiet, hworld p.settled]
  | withdraw =>
    dsimp only
    rw [withdraw_quiet, hworld p.settled]
  | redeemdType2 data =>
    show (p.redeemdType2 evm quiet data).map Paying.world = p.world.redeemdType2 evm data
    unfold redeemdType2 World.redeemdType2
    cases redeemLoop evm (toAddressOf data) (p.world.wallet, 0) (redeemRecords data) with
    | none => rfl
    | some x => exact world_transfer _ 0 _ _ _
  | burnCommits data => exact hworld p.settled _
  | challengeBurnCommits commitHash v r s => exact hworld p.settled _
  | transfer recipient amount => exact hworld p.settled _

/-- Runs in which nothing is called back are the runs of the contract. -/
theorem run_plain (p : Paying Hash) (txs : List (Tx Hash)) :
    (p.run evm (txs.map fun tx => (tx.timestamp, .plain (tx.sender, tx.call)))).world =
      p.world.run evm txs := by
  induction txs generalizing p with
  | nil => rfl
  | cons tx txs ih =>
    have hone : (p.exec evm tx.timestamp (tx.sender, tx.call) quiet).map Paying.world =
        p.world.exec evm tx := world_exec tx.timestamp (tx.sender, tx.call) p
    have hstep : (p.step evm (tx.timestamp, .plain (tx.sender, tx.call))).world =
        p.world.step evm tx := by
      unfold step World.step
      rw [← hone, enter_plain]
      show _ = { ((p.exec evm tx.timestamp _ quiet).map Paying.world).getD p.world with
        now := tx.timestamp }
      rw [Option.getD_map]
      rfl
    exact (ih _).trans (congrArg (fun w => World.run evm w txs) hstep)

end Paying

/-! ## What a call settles -/

/-- The key of a settled index. -/
def Settled.key (evm : Evm Hash) (x : Settled) : Hash := evm.claimIdentifier x.index x.epoch

/-- No index that is marked is in the burn buffer. -/
def Paying.Apart (p : Paying Hash) : Prop :=
  ∀ k, p.world.wallet.claimed k = true → p.world.wallet.burnBufferTime k = 0

/-- The currency gave this answer to a transfer, which did not revert. -/
def Evm.Answers (evm : Evm Hash) (answer : TransferResult) : Prop :=
  answer ≠ .reverted ∧
    ∃ balances sender recipient amount, evm.transfer balances sender recipient amount = answer

/-- Between the two states the indexes `new` were settled, none of which was marked before. -/
structure SettledBy (evm : Evm Hash) (new : List Settled) (p p' : Paying Hash) : Prop where
  log : p'.settled = p.settled ++ new
  nodup : (new.map (Settled.key evm)).Nodup
  fresh : ∀ k ∈ new.map (Settled.key evm), p.world.wallet.claimed k = false
  claimed : ∀ k, p'.world.wallet.claimed k = true ↔
    p.world.wallet.claimed k = true ∨ k ∈ new.map (Settled.key evm)
  apart : p.Apart → p'.Apart
  answered : ∀ x ∈ new, evm.Answers x.answer

/-- What is called between the two states settles only indexes that were not marked before. -/
def Settles (evm : Evm Hash) (p p' : Paying Hash) : Prop := ∃ new, SettledBy evm new p p'

/-- What is not marked after some indexes were marked was not marked before, and is none of them. -/
theorem unmarked_before {claimed claimed' : Hash → Bool} {keys : List Hash}
    (h : ∀ k, claimed' k = true ↔ claimed k = true ∨ k ∈ keys) {k : Hash}
    (hk : claimed' k = false) : claimed k = false ∧ k ∉ keys := by
  have hnot : ¬ (claimed k = true ∨ k ∈ keys) := by
    rw [← h k, hk]
    exact Bool.false_ne_true
  rw [not_or] at hnot
  exact ⟨Bool.eq_false_iff.mpr hnot.1, hnot.2⟩

namespace Settles

variable {p q p' : Paying Hash} {hooks : Hooks Hash}

/-- Nothing is settled where neither the log nor the marks change, nor a marked index enters the
burn buffer. -/
theorem of_kept (hlog : p'.settled = p.settled)
    (hclaimed : p'.world.wallet.claimed = p.world.wallet.claimed)
    (htime : ∀ k, p.world.wallet.claimed k = true → p.world.wallet.burnBufferTime k = 0 →
      p'.world.wallet.burnBufferTime k = 0) : Settles evm p p' := by
  refine ⟨[], ?_, List.nodup_nil, nofun, fun k => ?_, fun hapart k hk => ?_, nofun⟩
  · rw [hlog, List.append_nil]
  · rw [hclaimed]
    exact (or_iff_left List.not_mem_nil).symm
  · have hmarked : p.world.wallet.claimed k = true := hclaimed ▸ hk
    exact htime k hmarked (hapart k hmarked)

theorem of_same (hlog : p'.settled = p.settled)
    (hclaimed : p'.world.wallet.claimed = p.world.wallet.claimed)
    (htime : p'.world.wallet.burnBufferTime = p.world.wallet.burnBufferTime) : Settles evm p p' :=
  of_kept hlog hclaimed fun k _ hk => by rw [htime, hk]

theorem refl (p : Paying Hash) : Settles evm p p := of_same rfl rfl rfl

theorem trans (h : Settles evm p q) (h' : Settles evm q p') : Settles evm p p' := by
  obtain ⟨new, h⟩ := h
  obtain ⟨new', h'⟩ := h'
  have hfresh : ∀ k ∈ new'.map (Settled.key evm),
      p.world.wallet.claimed k = false ∧ k ∉ new.map (Settled.key evm) :=
    fun k hk => unmarked_before h.claimed (h'.fresh k hk)
  refine ⟨new ++ new', ?_, ?_, fun k hk => ?_, fun k => ?_, h'.apart ∘ h.apart, fun x hx => ?_⟩
  · rw [h'.log, h.log, List.append_assoc]
  · rw [List.map_append]
    exact List.nodup_append'.mpr ⟨h.nodup, h'.nodup, fun k hk hk' => (hfresh k hk').2 hk⟩
  · rw [List.map_append, List.mem_append] at hk
    rcases hk with hk | hk
    · exact h.fresh k hk
    · exact (hfresh k hk).1
  · rw [h'.claimed k, h.claimed k, List.map_append, List.mem_append, or_assoc]
  · rcases List.mem_append.mp hx with hx | hx
    · exact h.answered x hx
    · exact h'.answered x hx

/-- A transfer that pays for no index settles what is settled by the calls back. -/
theorem transfer (hhooks : ∀ n q, Settles evm q (hooks n q)) {n : ℕ} {recipient : Address}
    {amount : U256} (hp : p.transfer evm hooks n recipient amount [] = some p') :
    Settles evm p p' := by
  obtain ⟨world, hworld, rfl⟩ := Option.map_eq_some_iff.mp hp
  refine ((hhooks (2 * n) p).trans (of_same ?_ ?_ ?_)).trans (hhooks (2 * n + 1) _)
  · exact List.append_nil _
  · rw [World.transfer_frame hworld]
  · rw [World.transfer_frame hworld]

theorem safeTransfer (hhooks : ∀ n q, Settles evm q (hooks n q)) {n : ℕ} {recipient : Address}
    {amount : U256} (hp : p.safeTransfer evm hooks n recipient amount = some p') :
    Settles evm p p' := by
  obtain ⟨world, hworld, rfl⟩ := Option.map_eq_some_iff.mp hp
  have hmoved : Settles evm (hooks (2 * n) p) { hooks (2 * n) p with world } := by
    refine of_same rfl ?_ ?_
    · rw [(World.safeTransfer_pays hworld).2]
    · rw [(World.safeTransfer_pays hworld).2]
  exact ((hhooks (2 * n) p).trans hmoved).trans (hhooks (2 * n + 1) _)

theorem burnPendingAmount (hhooks : ∀ n q, Settles evm q (hooks n q))
    (hp : p.burnPendingAmount evm hooks = some p') : Settles evm p p' := by
  unfold Paying.burnPendingAmount at hp
  dsimp only at hp
  split at hp
  · obtain ⟨q, hq, heq⟩ := Option.bind_eq_some_iff.mp hp
    obtain rfl := Option.some.inj heq
    exact (transfer hhooks hq).trans (of_same rfl rfl rfl)
  · obtain rfl := Option.some.inj hp
    exact refl p

theorem startEpoch (hhooks : ∀ n q, Settles evm q (hooks n q)) {timestamp : U256}
    (hp : p.startEpoch evm hooks timestamp = some p') : Settles evm p p' := by
  simp only [Paying.startEpoch, Option.bind_eq_bind, Option.bind_eq_some_iff,
    Option.some.injEq] at hp
  obtain ⟨-, -, q, hq, -, -, -, -, rfl⟩ := hp
  exact (burnPendingAmount hhooks hq).trans (of_same rfl rfl rfl)

theorem withdraw (hhooks : ∀ n q, Settles evm q (hooks n q)) {sender : Address}
    {timestamp : U256} (hp : p.withdraw evm hooks sender timestamp = some p') :
    Settles evm p p' := by
  simp only [Paying.withdraw, Option.bind_eq_bind, Option.bind_eq_some_iff,
    Option.some.injEq] at hp
  obtain ⟨-, -, -, -, q, hq, q', hq', rfl⟩ := hp
  exact ((burnPendingAmount hhooks hq).trans (safeTransfer hhooks hq')).trans
    (of_same rfl rfl rfl)

/-- A batch that was marked is settled when the currency has answered: what was called back before
that found it marked. -/
theorem of_marked {toAddress : Address} {total : U256} {rs : List RedeemRecord}
    {wallet : Wallet Hash} {batch : List Settled}
    (hloop : Redeemed evm toAddress (p.world.wallet, 0) rs (wallet, total))
    (hkeys : batch.map (Settled.key evm) = redeemKeys evm p.world.wallet.currentEpoch rs)
    (hq : Settles evm (p.setWallet fun _ => wallet) q)
    (hlog : p'.settled = q.settled ++ batch)
    (hclaimed : p'.world.wallet.claimed = q.world.wallet.claimed)
    (htime : p'.world.wallet.burnBufferTime = q.world.wallet.burnBufferTime)
    (hanswered : ∀ x ∈ batch, evm.Answers x.answer) : Settles evm p p' := by
  obtain ⟨new, h⟩ := hq
  have hmarks : ∀ k, wallet.claimed k = true ↔
      p.world.wallet.claimed k = true ∨ k ∈ batch.map (Settled.key evm) := by
    rw [hkeys]
    exact hloop.claimed
  have hopen : ∀ k ∈ new.map (Settled.key evm),
      p.world.wallet.claimed k = false ∧ k ∉ batch.map (Settled.key evm) :=
    fun k hk => unmarked_before hmarks (h.fresh k hk)
  have hbuffer : wallet.burnBufferTime = p.world.wallet.burnBufferTime := by
    have hframe := congrArg Wallet.burnBufferTime hloop.frame
    exact hframe
  refine ⟨new ++ batch, ?_, ?_, fun k hk => ?_, fun k => ?_, fun hapart => ?_, fun x hx => ?_⟩
  · rw [hlog, h.log, List.append_assoc]
    rfl
  · rw [List.map_append]
    refine List.nodup_append'.mpr ⟨h.nodup, ?_, fun k hk => (hopen k hk).2⟩
    rw [hkeys]
    exact hloop.nodup
  · rw [List.map_append, List.mem_append] at hk
    rcases hk with hk | hk
    · exact (hopen k hk).1
    · exact (hloop.fresh k (hkeys ▸ hk)).1
  · rw [hclaimed, h.claimed k, List.map_append, List.mem_append, or_comm (a := k ∈ _), ← or_assoc]
    exact or_congr_left (hmarks k)
  · -- the marked batch is not in the burn buffer, and what was called back kept that
    have hmarked : (p.setWallet fun _ => wallet).Apart := by
      intro k hk
      show wallet.burnBufferTime k = 0
      rw [hbuffer]
      rcases (hmarks k).mp hk with hk | hk
      · exact hapart k hk
      · exact (hloop.fresh k (hkeys ▸ hk)).2
    intro k hk
    rw [htime]
    exact h.apart hmarked k (hclaimed ▸ hk)
  · rcases List.mem_append.mp hx with hx | hx
    · exact h.answered x hx
    · exact hanswered x hx

variable [DecidableEq Hash]

/-- The indexes of a batch are marked before anybody is called. -/
theorem redeemdType2 (hhooks : ∀ n q, Settles evm q (hooks n q)) {data : List UInt8}
    (hp : p.redeemdType2 evm hooks data = some p') : Settles evm p p' := by
  obtain ⟨⟨wallet, totalAmount⟩, hloop, htransfer⟩ := Option.bind_eq_some_iff.mp hp
  obtain ⟨world, hworld, rfl⟩ := Option.map_eq_some_iff.mp htransfer
  refine trans (of_marked (redeemLoop_spec hloop) ?_ (hhooks 0 _) rfl ?_ ?_ ?_) (hhooks 1 _)
  · rw [List.map_map, List.map_map]
    rfl
  · rw [World.transfer_frame hworld]
  · rw [World.transfer_frame hworld]
  · intro x hx
    obtain ⟨y, -, rfl⟩ := List.mem_map.mp hx
    refine ⟨?_, _, _, _, _, rfl⟩
    rcases World.transfer_pays hworld with ⟨hmoved, -⟩ | ⟨hrefused, -⟩
    · exact hmoved ▸ nofun
    · exact hrefused ▸ nofun

theorem burnCommits {timestamp : U256} {data : List UInt8} {world : World Hash}
    (hw : p.world.burnCommits evm timestamp data = some world) :
    Settles evm p { p with world } := by
  obtain ⟨-, wallet, totalBurn, hloop, -, hworld⟩ := World.burnCommits_spec hw
  have hspec := burnLoop_spec hloop
  have hclaimed : world.wallet.claimed = p.world.wallet.claimed := by
    rw [hworld]
    exact (eq_of_buffers _ _ hspec.frame).1
  refine of_kept rfl hclaimed fun k hmarked htime => ?_
  have hother : k ∉ burnKeys evm p.world.wallet.currentEpoch (burnRecords data) := by
    intro hin
    have hunclaimed := (hspec.fresh k hin).1
    rw [hmarked] at hunclaimed
    cases hunclaimed
  show world.wallet.burnBufferTime k = 0
  rw [hworld]
  exact (hspec.others k hother).1.trans htime

variable [Inhabited Hash]

theorem challengeBurnCommits {timestamp : U256} {commitHash : List Hash} {v : List UInt8}
    {r s : List U256} {world : World Hash}
    (hw : p.world.challengeBurnCommits evm timestamp commitHash v r s = some world) :
    Settles evm p { p with world } := by
  obtain ⟨-, wallet, totalBurn, hloop, -, hworld⟩ := World.challengeBurnCommits_spec hw
  have hspec := challengeLoop_spec hloop
  have hclaimed : world.wallet.claimed = p.world.wallet.claimed := by
    rw [hworld]
    exact (eq_of_buffers _ _ hspec.frame).1
  refine of_kept rfl hclaimed fun k _ htime => ?_
  show world.wallet.burnBufferTime k = 0
  rw [hworld]
  by_cases hdeleted : k ∈ (challengeRecords commitHash v r s).map ChallengeRecord.commitHash
  · exact (hspec.deleted k hdeleted).1
  · exact (hspec.others k hdeleted).1.trans htime

theorem guarantee (timestamp : U256) : Guarantees (Paying.exec evm timestamp) (Settles evm) := by
  rintro ⟨sender, call⟩ hooks p p' hhooks hp
  unfold Paying.exec at hp
  have hmap : ∀ {r : Option (World Hash)}, r.map (fun world => { p with world }) = some p' →
      ∃ world, r = some world ∧ { p with world } = p' :=
    fun heq => Option.map_eq_some_iff.mp heq
  cases call with
  | startEpoch => exact startEpoch hhooks hp
  | withdraw => exact withdraw hhooks hp
  | redeemdType2 data => exact redeemdType2 hhooks hp
  | burnCommits data =>
    obtain ⟨world, hw, rfl⟩ := hmap hp
    exact burnCommits hw
  | challengeBurnCommits commitHash v r s =>
    obtain ⟨world, hw, rfl⟩ := hmap hp
    exact challengeBurnCommits hw
  | transfer recipient amount =>
    obtain ⟨world, hw, rfl⟩ := hmap hp
    refine of_same rfl ?_ ?_
    · rw [World.deposit_frame hw]
    · rw [World.deposit_frame hw]

/-- A transaction, reverted or not, with everything that is called back. -/
theorem step (p : Paying Hash) (tx : U256 × Entry (Address × Call Hash)) :
    Settles evm p (p.step evm tx) := by
  have henter : Settles evm p ((enter (Paying.exec evm tx.1) tx.2 p).getD p) := by
    cases he : enter (Paying.exec evm tx.1) tx.2 p with
    | none => exact refl p
    | some p' => exact enter_guarantee (guarantee tx.1) refl trans tx.2 he
  exact henter.trans (of_same rfl rfl rfl)

end Settles

/-! ## No index is paid twice -/

/-- Every index is settled at most once in an epoch, those that are settled are the ones that are
marked, none of them is in the burn buffer, and for each the currency gave its answer. -/
structure PaidOnce (evm : Evm Hash) (p : Paying Hash) : Prop where
  once : (p.settled.map (Settled.key evm)).Nodup
  claimed : ∀ k, p.world.wallet.claimed k = true ↔ k ∈ p.settled.map (Settled.key evm)
  apart : ∀ k, p.world.wallet.claimed k = true → p.world.wallet.burnBufferTime k = 0
  answered : ∀ x ∈ p.settled, evm.Answers x.answer

variable [DecidableEq Hash] [Inhabited Hash]

/-- Whatever the currency does with a transfer and whatever it calls back, to any depth, no index of
an epoch is settled twice, and so none is paid twice. -/
theorem paid_once (evm : Evm Hash) (this : Address) (epochDuration indexValue : U256)
    (owner currency : Address) (burnBuffer : U256) (balances : Ledger) (now : U256)
    (txs : List (U256 × Entry (Address × Call Hash))) :
    PaidOnce evm ((Paying.mk (.init this epochDuration indexValue owner currency burnBuffer balances
      now) []).run evm txs) := by
  let p : Paying Hash :=
    ⟨.init this epochDuration indexValue owner currency burnBuffer balances now, []⟩
  have hsettles : Settles evm p (p.run evm txs) :=
    Run.final_inv (fun q tx h _ => h.trans (Settles.step q tx)) (Settles.refl p)
      (Run.always_trivial p txs)
  obtain ⟨new, h⟩ := hsettles
  have hlog : (p.run evm txs).settled = new := h.log
  have hapart : (p.run evm txs).Apart := h.apart fun k hk => by cases hk
  constructor
  · rw [hlog]
    exact h.nodup
  · intro k
    rw [hlog, h.claimed k]
    exact or_iff_right Bool.false_ne_true
  · exact hapart
  · rw [hlog]
    exact h.answered

/-! ## The pending amount is burned again -/

/-- `startEpoch`, called back `n` times, each time while the pending amount is sent away. -/
def nestedStart (sender : Address) : ℕ → Entry (Address × Call Hash)
  | 0 => .plain (sender, .startEpoch)
  | n + 1 => .mk (sender, .startEpoch) [[nestedStart sender n]]

/-- The epoch is over, something is pending, and the tokens suffice for `n` times as much. -/
structure CanReburn (timestamp : U256) (n : ℕ) (w : World Hash) : Prop where
  ended : w.wallet.epochExpiresBy ≤ timestamp
  pending : w.wallet.pendingBurnAmount ≠ 0
  backed : n * w.wallet.pendingBurnAmount.toNat ≤ w.getBalance.toNat
  room : (w.balances 0).toNat + n * w.wallet.pendingBurnAmount.toNat < 2 ^ 256
  apart : w.this ≠ 0
  epochs : w.wallet.currentEpoch.toNat + n < 2 ^ 256
  expires : timestamp.toNat + w.wallet.epochDuration.toNat < 2 ^ 256

/-- The pending amount was sent away `n` times, and as many epochs have passed. -/
structure BurntTimes (n : ℕ) (w w' : World Hash) : Prop where
  contract : w'.this = w.this ∧ w'.wallet.epochDuration = w.wallet.epochDuration
  balance : w'.getBalance.toNat + n * w.wallet.pendingBurnAmount.toNat = w.getBalance.toNat
  sink : (w'.balances 0).toNat = (w.balances 0).toNat + n * w.wallet.pendingBurnAmount.toNat
  epoch : w'.wallet.currentEpoch.toNat = w.wallet.currentEpoch.toNat + n
  cleared : w'.wallet.pendingBurnAmount = 0

omit [DecidableEq Hash] [Inhabited Hash] in
/-- A burn with a call back that comes to `q`, and none after the transfer. -/
theorem Paying.burnPendingAmount_hooked {p q : Paying Hash} {hooks : Hooks Hash}
    {world : World Hash} (hq : hooks 0 p = q) (hid : ∀ r, hooks 1 r = r)
    (hpending : p.world.wallet.pendingBurnAmount ≠ 0)
    (hworld : q.world.transfer evm 0 p.world.wallet.pendingBurnAmount = some world) :
    p.burnPendingAmount evm hooks = some (({ q with world } : Paying Hash).setWallet
      fun wallet => { wallet with pendingBurnAmount := 0 }) := by
  unfold Paying.burnPendingAmount
  dsimp only
  rw [if_pos hpending]
  show ((((hooks 0 p).world.transfer evm 0 _).map fun world => hooks 1 _).bind _) = _
  rw [hq, hworld]
  show some (Paying.setWallet (hooks 1 _) _) = _
  rw [hid, List.map_nil, List.append_nil]

omit [DecidableEq Hash] [Inhabited Hash] in
/-- The tokens are sent away by a `startEpoch` from the state that the call back leaves. -/
theorem Paying.startEpoch_hooked (hstd : evm.transfer = Ledger.standardTransfer) {timestamp : U256}
    {n : ℕ} {p q : Paying Hash} {hooks : Hooks Hash} (hq : hooks 0 p = q) (hid : ∀ r, hooks 1 r = r)
    (h : CanReburn timestamp (n + 1) p.world)
    (hburnt : BurntTimes n p.world q.world ∨ n = 0 ∧ q = p) :
    ∃ p', p.startEpoch evm hooks timestamp = some p' ∧ BurntTimes (n + 1) p.world p'.world := by
  obtain ⟨hthis, hduration, hbalance, hsink, hepoch⟩ : q.world.this = p.world.this ∧
      q.world.wallet.epochDuration = p.world.wallet.epochDuration ∧
      q.world.getBalance.toNat + n * p.world.wallet.pendingBurnAmount.toNat =
        p.world.getBalance.toNat ∧
      (q.world.balances 0).toNat =
        (p.world.balances 0).toNat + n * p.world.wallet.pendingBurnAmount.toNat ∧
      q.world.wallet.currentEpoch.toNat = p.world.wallet.currentEpoch.toNat + n := by
    rcases hburnt with hb | ⟨rfl, rfl⟩
    · exact ⟨hb.contract.1, hb.contract.2, hb.balance, hb.sink, hb.epoch⟩
    · simp
  have hbacked := h.backed
  have hroom := h.room
  rw [Nat.succ_mul] at hbacked hroom
  have hapart : (0 : Address) ≠ q.world.this := by
    rw [hthis]
    exact h.apart.symm
  have hle : p.world.wallet.pendingBurnAmount ≤ q.world.balances q.world.this := by
    rw [BitVec.le_def]
    have hq' : q.world.getBalance = q.world.balances q.world.this := rfl
    rw [hq'] at hbalance
    omega
  have hlt : (q.world.balances 0).toNat + p.world.wallet.pendingBurnAmount.toNat < 2 ^ 256 := by
    omega
  obtain ⟨world, hworld⟩ : ∃ world,
      q.world.transfer evm 0 p.world.wallet.pendingBurnAmount = some world :=
    ⟨_, (World.transfer_eq_some hstd).mpr
      ⟨Ledger.standardTransfer_eq_moved.mpr ⟨hle, .inr hlt⟩, rfl⟩⟩
  obtain ⟨-, hmove⟩ := (World.transfer_eq_some hstd).mp hworld
  have hburn := Paying.burnPendingAmount_hooked hq hid h.pending hworld
  have hwallet : world.wallet = q.world.wallet := by rw [hmove]
  have hself : world.this = q.world.this := by rw [hmove]
  have hledger : world.balances =
      q.world.balances.move q.world.this 0 p.world.wallet.pendingBurnAmount := by rw [hmove]
  obtain ⟨currentEpoch, hcurrent⟩ : ∃ a : U256, world.wallet.currentEpoch.toNat + 1 = a.toNat := by
    refine Word.exists_toNat.mpr ?_
    have he := h.epochs
    rw [hwallet]
    omega
  obtain ⟨epochExpiresBy, hexpires⟩ : ∃ a : U256,
      timestamp.toNat + world.wallet.epochDuration.toNat = a.toNat := by
    refine Word.exists_toNat.mpr ?_
    rw [hwallet, hduration]
    exact h.expires
  have hover : ¬ timestamp < p.world.wallet.epochExpiresBy := BitVec.not_lt.mpr h.ended
  refine ⟨({ q with world } : Paying Hash).setWallet fun wallet =>
    { wallet with
      pendingBurnAmount := 0, reserves := world.getBalance, currentEpoch, epochExpiresBy }, ?_, ?_⟩
  · simp only [Paying.startEpoch, revertIf, if_neg hover, Option.bind_eq_bind, Option.bind_some,
      hburn, Option.bind_eq_some_iff]
    exact ⟨currentEpoch, Word.add?_eq_some.mpr hcurrent, epochExpiresBy,
      Word.add?_eq_some.mpr hexpires, rfl⟩
  · refine ⟨⟨hself.trans hthis, ?_⟩, ?_, ?_, ?_, rfl⟩
    · show world.wallet.epochDuration = _
      rw [hwallet, hduration]
    · show (world.balances world.this).toNat + _ = _
      rw [hledger, hself, Ledger.move_sender hle hapart, Nat.succ_mul]
      have hq' : q.world.getBalance = q.world.balances q.world.this := rfl
      rw [hq'] at hbalance
      rw [BitVec.le_def] at hle
      omega
    · show (world.balances 0).toNat = _
      rw [hledger, Ledger.move_recipient hlt hapart, Nat.succ_mul]
      omega
    · show currentEpoch.toNat = _
      rw [← hcurrent, hwallet, hepoch]
      omega

/-- A currency that calls `startEpoch` back `n` times during a burn makes the wallet burn its pending
amount `n + 1` times. -/
theorem reentrant_burns (hstd : evm.transfer = Ledger.standardTransfer) (sender : Address)
    (timestamp : U256) (n : ℕ) (p : Paying Hash) (h : CanReburn timestamp (n + 1) p.world) :
    ∃ p', enter (Paying.exec evm timestamp) (nestedStart sender n) p = some p' ∧
      BurntTimes (n + 1) p.world p'.world := by
  induction n with
  | zero => exact Paying.startEpoch_hooked hstd rfl (fun _ => rfl) h (.inr ⟨rfl, rfl⟩)
  | succ n ih =>
    have hbelow : CanReburn timestamp (n + 1) p.world :=
      { h with
        backed := by
          have hb := h.backed
          rw [Nat.succ_mul] at hb
          omega
        room := by
          have hr := h.room
          rw [Nat.succ_mul] at hr
          omega
        epochs := by
          have he := h.epochs
          omega }
    obtain ⟨q, hq, hburnt⟩ := ih hbelow
    refine Paying.startEpoch_hooked hstd ?_ (fun _ => rfl) h (.inl hburnt)
    show enterAll _ [nestedStart sender n] p = q
    show (enter _ (nestedStart sender n) p).getD p = q
    rw [hq]
    rfl

/-- `plainWorld` with one index to be burned, at the end of its first epoch. -/
def dueWorld : World (List UInt8) :=
  { plainWorld with wallet :=
    { plainWorld.wallet with pendingBurnAmount := 30, currentEpoch := 1, epochExpiresBy := 604800 } }

theorem reentrant_burns_dueWorld :
    ∃ p', enter (Paying.exec plainEvm 604800) (nestedStart 5 2) ⟨dueWorld, []⟩ = some p' ∧
      BurntTimes 3 dueWorld p'.world :=
  reentrant_burns rfl 5 604800 2 ⟨dueWorld, []⟩ ⟨by decide, by decide, by decide, by decide,
    by decide, by decide, by decide⟩

end Dse
