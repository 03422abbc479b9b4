import Dse.Wallet.Proofs.TxProofs

/-!
# The challenge window

`burnCommits` writes a buffer time into the record, and a later `challengeBurnCommits` compares it
with the clock. The record survives every transaction that does not name its key
(`run_sameRecord`), so the outcome of a challenge is decided by what was written at the burn.

The buffer time that is written is a duration, not the time at which the buffer ends, so a
challenge gets the outcome its window promises only when the two readings agree
(`challenge_window`).
-/

namespace Dse

variable {Hash : Type} [DecidableEq Hash] {evm : Evm Hash}

/-! ## Challenging one record -/

namespace BurnRecord

/-- The buffer time of the record, as a number. -/
def bufferTime (wallet : Wallet Hash) (r : BurnRecord) : ℕ :=
  wallet.burnBuffer.toNat + if r.ctype = 1 then invDisadvantageBuffer.toNat else 0

/-- The length of the record's challenge window: longer when the owner is not the invalidating
address. -/
def window (wallet : Wallet Hash) (toAddress : Address) (r : BurnRecord) : ℕ :=
  wallet.burnBuffer.toNat +
    if r.iAddress wallet toAddress ≠ wallet.owner then invDisadvantageBuffer.toNat else 0

omit [DecidableEq Hash] in
theorem toNat_bTime {wallet : Wallet Hash} {r : BurnRecord} {b : U256}
    (h : r.bTime wallet = some b) : b.toNat = r.bufferTime wallet := by
  unfold bTime at h
  unfold bufferTime
  split at h
  · rename_i hc
    rw [if_pos hc]
    exact (Word.add?_eq_some.mp h).symm
  · rename_i hc
    rw [if_neg hc, Option.some.inj h, Nat.add_zero]

end BurnRecord

variable [Inhabited Hash]

/-- A challenge of the record under `k`, made at `t`, comes out as a window that ends at `expiry`
promises. -/
structure InWindow (evm : Evm Hash) (w : World Hash) (k : Hash) (sig : EcdsaSignature)
    (expiry : ℕ) (t : U256) : Prop where
  succeeds : t.toNat < expiry →
    ∃ w', w.challengeBurnCommits evm t [k] [sig.v] [sig.r] [sig.s] = some w' ∧
      w'.wallet.burnBufferTime k = 0 ∧ w'.wallet.burnBufferIBlob k = default ∧
      w'.wallet.burnBufferIAddress k = 0 ∧
      w'.wallet.pendingBurnAmount.toNat + w.wallet.indexValue.toNat =
        w.wallet.pendingBurnAmount.toNat
  reverts : expiry ≤ t.toNat → w.challengeBurnCommits evm t [k] [sig.v] [sig.r] [sig.s] = none

section Single

variable {w : World Hash} {k : Hash} {sig : EcdsaSignature} {t : U256}

/-- A challenge of one record reverts once the clock reaches the stored buffer time. -/
theorem challenge_eq_none (h : w.wallet.burnBufferTime k ≤ t) :
    w.challengeBurnCommits evm t [k] [sig.v] [sig.r] [sig.s] = none := by
  by_contra hne
  obtain ⟨w', hs⟩ := Option.ne_none_iff_exists'.mp hne
  obtain ⟨hmap, wal, total, hl, -, -⟩ := World.challengeBurnCommits_spec hs
  have hop := (challengeLoop_spec hl).open_ k (by rw [hmap]; exact List.mem_singleton_self k)
  exact BitVec.not_lt.mpr h hop

/-- A challenge of one record by its invalidating address succeeds before that. -/
theorem challenge_eq_some (h : t < w.wallet.burnBufferTime k)
    (hsig : evm.recover (w.wallet.burnBufferIBlob k) sig = w.wallet.burnBufferIAddress k)
    (hp : w.wallet.indexValue ≤ w.wallet.pendingBurnAmount) :
    ∃ w', w.challengeBurnCommits evm t [k] [sig.v] [sig.r] [sig.s] = some w' ∧
      w'.wallet.burnBufferTime k = 0 ∧ w'.wallet.burnBufferIBlob k = default ∧
      w'.wallet.burnBufferIAddress k = 0 ∧
      w'.wallet.pendingBurnAmount.toNat + w.wallet.indexValue.toNat =
        w.wallet.pendingBurnAmount.toNat := by
  have hsome : (w.challengeBurnCommits evm t [k] [sig.v] [sig.r] [sig.s]).isSome := by
    simp [World.challengeBurnCommits, challengeRecords, challengeLoop, challengeRecord, revertIf,
      BitVec.not_le.mpr h, hsig, Word.sub?_of_le hp]
  obtain ⟨w', hs⟩ := Option.isSome_iff_exists.mp hsome
  obtain ⟨hmap, wal, total, hl, hpend, hw'⟩ := World.challengeBurnCommits_spec hs
  have hl' := challengeLoop_spec hl
  obtain ⟨h1, h2, h3⟩ := hl'.deleted k (by rw [hmap]; exact List.mem_singleton_self k)
  have htotal : total.toNat = w.wallet.indexValue.toNat := by
    simpa [challengeRecords] using hl'.total
  obtain ⟨-, -, -, -, -, hpd⟩ := eq_of_buffers w.wallet wal hl'.frame
  refine ⟨w', hs, ?_, ?_, ?_, ?_⟩
  · rw [hw']
    exact h1
  · rw [hw']
    exact h2
  · rw [hw']
    exact h3
  · rw [← htotal, ← hpend, hpd]

end Single

/-! ## The record between the burn and the challenge -/

/-- The transaction rewrites or deletes the record under `k`. -/
def World.Touches (evm : Evm Hash) (k : Hash) (w : World Hash) (tx : Tx Hash) : Prop :=
  (w.exec evm tx).isSome ∧
    match tx.call with
    | .burnCommits data => k ∈ burnKeys evm w.wallet.currentEpoch (burnRecords data)
    | .challengeBurnCommits commitHash _ _ _ => k ∈ commitHash
    | _ => False

/-- The record under `k` is the same in both states. -/
structure SameRecord (k : Hash) (w w' : World Hash) : Prop where
  time : w'.wallet.burnBufferTime k = w.wallet.burnBufferTime k
  iBlob : w'.wallet.burnBufferIBlob k = w.wallet.burnBufferIBlob k
  iAddress : w'.wallet.burnBufferIAddress k = w.wallet.burnBufferIAddress k

/-- A successful transaction that does not name the key leaves its record alone. -/
theorem exec_sameRecord {w w' : World Hash} {k : Hash} {tx : Tx Hash}
    (h : w.exec evm tx = some w') (hk : ¬ w.Touches evm k tx) : SameRecord k w w' := by
  obtain ⟨sender, t, call⟩ := tx
  replace hk := fun hin => hk ⟨h ▸ rfl, hin⟩
  cases call with
  | startEpoch =>
    obtain ⟨-, -, -, -, hw'⟩ := World.startEpoch_spec h
    rw [hw']
    exact ⟨rfl, rfl, rfl⟩
  | withdraw =>
    obtain ⟨-, -, hw'⟩ := World.withdraw_spec h
    rw [hw']
    exact ⟨rfl, rfl, rfl⟩
  | redeemdType2 data =>
    obtain ⟨total, hl, -⟩ := World.redeemdType2_loop h
    have hf : w'.wallet = { w.wallet with claimed := w'.wallet.claimed } :=
      (redeemLoop_spec hl).frame
    refine ⟨?_, ?_, ?_⟩
    · rw [hf]
    · rw [hf]
    · rw [hf]
  | burnCommits data =>
    obtain ⟨-, wal, total, hl, -, hw'⟩ := World.burnCommits_spec h
    obtain ⟨h1, h2, h3⟩ := (burnLoop_spec hl).others k hk
    rw [hw']
    exact ⟨h1, h2, h3⟩
  | challengeBurnCommits commitHash v r s =>
    obtain ⟨hmap, wal, total, hl, -, hw'⟩ := World.challengeBurnCommits_spec h
    obtain ⟨h1, h2, h3⟩ := (challengeLoop_spec hl).others k (by rw [hmap]; exact hk)
    rw [hw']
    exact ⟨h1, h2, h3⟩
  | transfer recipient amount =>
    have hw' : w' = { w with balances := w'.balances } := World.deposit_frame h
    rw [hw']
    exact ⟨rfl, rfl, rfl⟩

theorem step_sameRecord {w : World Hash} {k : Hash} {tx : Tx Hash} (hk : ¬ w.Touches evm k tx) :
    SameRecord k w (w.step evm tx) := by
  cases h : w.exec evm tx with
  | none =>
    rw [World.step_of_none h]
    exact ⟨rfl, rfl, rfl⟩
  | some w' =>
    rw [World.step_of_some h]
    obtain ⟨h1, h2, h3⟩ := exec_sameRecord h hk
    exact ⟨h1, h2, h3⟩

/-- The record is still there after any run that does not name its key. -/
theorem run_sameRecord {w : World Hash} {k : Hash} {txs : List (Tx Hash)}
    (h : Run.Always (World.step evm) (fun w tx => ¬ w.Touches evm k tx) w txs) :
    SameRecord k w (w.run evm txs) :=
  Run.final_rel (SameRecord k) (fun _ => ⟨rfl, rfl, rfl⟩)
    (fun _ _ _ h1 h2 =>
      ⟨h2.time.trans h1.time, h2.iBlob.trans h1.iBlob, h2.iAddress.trans h1.iAddress⟩)
    (fun _ _ => step_sameRecord) h

/-! ## The window -/

/-- A `burnCommits` call of time `t` puts `r` in the burn buffer. -/
structure BurnRecord.PutBy (evm : Evm Hash) (w : World Hash) (t : U256) (data : List UInt8)
    (w₁ : World Hash) (r : BurnRecord) : Prop where
  call : w.burnCommits evm t data = some w₁
  mem : r ∈ burnRecords data
  stored : r.StoredIn evm w.wallet (toAddressOf data) w₁.wallet

omit [Inhabited Hash] in
/-- Once the burn buffer is above zero, a successful call puts every record of its batch there. -/
theorem putBy_of_mem {w w₁ : World Hash} {t : U256} {data : List UInt8}
    (h : w.burnCommits evm t data = some w₁) (hpos : 0 < w.wallet.burnBuffer.toNat)
    {r : BurnRecord} (hr : r ∈ burnRecords data) : r.PutBy evm w t data w₁ := by
  obtain ⟨-, wal, total, hl, -, hw₁⟩ := World.burnCommits_spec h
  have hstored := burnLoop_stored hl hr fun hzero => BurnRecord.bTime_pos hzero hpos rfl
  rw [hw₁]
  exact ⟨hw₁ ▸ h, hr, hstored⟩

/-- A record goes into the burn buffer at `t` and is still there at `t'`, with the pending amount
covering it. A challenge by the invalidating address at `t'` comes out as the window from `t` on
promises exactly when comparing `t'` with the bare buffer time happens to agree with comparing it
with the end of the window. -/
theorem challenge_window {w w₁ : World Hash} {t t' : U256} {data : List UInt8}
    {r : BurnRecord} (hput : r.PutBy evm w t data w₁) {txs : List (Tx Hash)}
    (hkept : Run.Always (World.step evm)
      (fun w₂ tx => ¬ w₂.Touches evm (evm.claimIdentifier r.index w.wallet.currentEpoch) tx)
      { w₁ with now := t } txs)
    {w₂ : World Hash} (hrun : w₂ = World.run evm { w₁ with now := t } txs)
    (hpend : w₂.wallet.indexValue ≤ w₂.wallet.pendingBurnAmount) {sig : EcdsaSignature}
    (hsig : evm.recover (evm.invalidatingHash r.u) sig = r.iAddress w.wallet (toAddressOf data)) :
    InWindow evm w₂ (evm.claimIdentifier r.index w.wallet.currentEpoch) sig
        (t.toNat + r.window w.wallet (toAddressOf data)) t' ↔
      (t'.toNat < r.bufferTime w.wallet ↔
        t'.toNat < t.toNat + r.window w.wallet (toAddressOf data)) := by
  obtain ⟨h1, h2, h3⟩ := hput.stored
  obtain ⟨e1, e2, e3⟩ := run_sameRecord hkept
  rw [← hrun] at e1 e2 e3
  have htime := BurnRecord.toNat_bTime h1
  set k := evm.claimIdentifier r.index w.wallet.currentEpoch with hk
  have hcode : t' < w₂.wallet.burnBufferTime k ↔ t'.toNat < r.bufferTime w.wallet := by
    rw [BitVec.lt_def, e1, ← htime]
  have hsig' : evm.recover (w₂.wallet.burnBufferIBlob k) sig = w₂.wallet.burnBufferIAddress k := by
    rw [e2, e3]
    exact (h2 ▸ hsig).trans h3.symm
  constructor
  · intro h
    rw [← hcode]
    constructor
    · intro hlt
      by_contra hge
      obtain ⟨w', hs, -⟩ := challenge_eq_some hlt hsig' hpend
      rw [h.reverts (not_lt.mp hge)] at hs
      cases hs
    · intro hlt
      by_contra hge
      obtain ⟨w', hs, -⟩ := h.succeeds hlt
      rw [challenge_eq_none (BitVec.not_lt.mp hge)] at hs
      cases hs
  · intro h
    refine ⟨fun hlt => ?_, fun hge => ?_⟩
    · exact challenge_eq_some (hcode.mpr (h.mpr hlt)) hsig' hpend
    · refine challenge_eq_none (BitVec.not_lt.mp fun hlt => ?_)
      exact absurd (h.mp (hcode.mp hlt)) (not_lt.mpr hge)

/-- The wallet of `plainWorld` in an epoch that starts at the Unix time `t`. -/
def epochWorld (t : U256) : World (List UInt8) :=
  plainWorld.run plainEvm [⟨3, t, .startEpoch⟩]

/-- A burn of index 1, whose invalidating address is the owner. -/
def burnData : List UInt8 := burnCalldata 5 [⟨1, 1, 0, plainSignature 7⟩]

/-- The record of `burnData`. -/
def burnedRecord : BurnRecord := ⟨1, 1, 0, plainSignature 7⟩

/-- The wallet after the burn of `burnData` at `t`, in an epoch that started ten seconds before. -/
def burnedWorld (t : U256) : World (List UInt8) :=
  ((epochWorld (t - 10)).burnCommits plainEvm t burnData).getD plainWorld

/-- In the first day after 1970 a challenge within the window succeeds. -/
theorem challenge_window_day_one :
    InWindow plainEvm (World.run plainEvm { burnedWorld 1010 with now := 1010 }
      [⟨3, 1015, .startEpoch⟩]) (claimBlob 1 1) (plainSignature 7) (1010 + 86400) 1020 := by
  have hsome : ((epochWorld 1000).burnCommits plainEvm 1010 burnData).isSome := by decide +kernel
  have hburn : (epochWorld 1000).burnCommits plainEvm 1010 burnData = some (burnedWorld 1010) := by
    rw [← Option.some_get hsome, Option.get_eq_getD]
    rfl
  have hput : burnedRecord.PutBy plainEvm (epochWorld 1000) 1010 burnData (burnedWorld 1010) :=
    putBy_of_mem hburn (by decide +kernel) (by decide +kernel)
  have hkept : Run.Always (World.step plainEvm)
      (fun w tx => ¬ w.Touches plainEvm (claimBlob 1 1) tx) { burnedWorld 1010 with now := 1010 }
      [⟨3, 1015, .startEpoch⟩] := ⟨fun h => h.2, trivial⟩
  have hsig : plainEvm.recover (plainEvm.invalidatingHash burnedRecord.u) (plainSignature 7) =
      burnedRecord.iAddress (epochWorld 1000).wallet (toAddressOf burnData) := by decide +kernel
  exact (challenge_window hput hkept rfl (by decide +kernel) hsig).mpr (by decide +kernel)

/-- Ten seconds after a burn at a present-day time, a challenge reverts a day too early. -/
theorem challenge_window_unix_time :
    burnedRecord.PutBy plainEvm (epochWorld 1650000000) 1650000010 burnData
        (burnedWorld 1650000010) ∧
      burnedRecord.window (epochWorld 1650000000).wallet (toAddressOf burnData) = 86400 ∧
      ¬ InWindow plainEvm { burnedWorld 1650000010 with now := 1650000010 } (claimBlob 1 1)
        (plainSignature 7) (1650000010 + 86400) 1650000020 := by
  have hsome : ((epochWorld 1650000000).burnCommits plainEvm 1650000010 burnData).isSome := by
    decide +kernel
  have hburn : (epochWorld 1650000000).burnCommits plainEvm 1650000010 burnData =
      some (burnedWorld 1650000010) := by
    rw [← Option.some_get hsome, Option.get_eq_getD]
    rfl
  have hnone : (burnedWorld 1650000010).wallet.burnBufferTime (claimBlob 1 1) ≤ 1650000020 := by
    decide +kernel
  refine ⟨putBy_of_mem hburn (by decide +kernel)
    (by decide +kernel), by decide +kernel, fun h => ?_⟩
  obtain ⟨w', hs, -⟩ := h.succeeds (by decide)
  exact absurd hs (by rw [challenge_eq_none]; exacts [nofun, hnone])

end Dse
