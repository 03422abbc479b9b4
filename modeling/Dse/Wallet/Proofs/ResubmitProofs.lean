import Dse.Wallet.Proofs.TxProofs

/-!
# Invalidated commitments

A challenge shows the invalidating signature of a commitment, which ends the commitment for good:
its index may be used for another one, but the commitment itself should never be burned again
(`StaysInvalidated`). The wallet forgets the challenge. It deletes the burn record and keeps nothing
else, so the commitment is as good as new: `burnCommits` asks of a batch what `World.BurnAccepts`
says, in which no challenge occurs. The batches that break the law are exactly the accepted ones
that hold an invalidated commitment (`staysInvalidated_iff`).

`EpochCommits` is the record of an observer: which signed commitment is behind a burn record, and
which commitments were challenged since the epoch began.
-/

namespace Dse

/-- A commitment as the owner signed it: index, epoch, `u`, type and addresses are packed in the
bytes. -/
structure SignedCommit where
  blob : List UInt8
  signature : EcdsaSignature
deriving DecidableEq, Repr

variable {Hash : Type} [DecidableEq Hash] [Inhabited Hash] (evm : Evm Hash)

omit [DecidableEq Hash] [Inhabited Hash] in
/-- The commitment that a record of a batch brings. -/
def BurnRecord.commit (wallet : Wallet Hash) (toAddress : Address) (r : BurnRecord) :
    SignedCommit :=
  ⟨r.blob wallet toAddress, r.commitSignature⟩

/-- What an observer writes down about the commitments of the current epoch. -/
structure EpochCommits (Hash : Type) where
  /-- The commitment that a burn record was created from. -/
  behind : Hash → Option SignedCommit := fun _ => none
  /-- The commitments whose burn records were challenged. -/
  invalidated : List SignedCommit := []

/-- The observer's update: a successful `startEpoch` opens a new record. -/
def EpochCommits.next (g : EpochCommits Hash) (w : World Hash) (tx : Tx Hash) : EpochCommits Hash :=
  match tx.call, w.exec evm tx with
  | .startEpoch, some _ => {}
  | .burnCommits data, some _ =>
    { g with behind := (burnRecords data).foldl (fun behind r =>
        Function.update behind (evm.claimIdentifier r.index w.wallet.currentEpoch)
          (some (r.commit w.wallet (toAddressOf data)))) g.behind }
  | .challengeBurnCommits commitHash _ _ _, some _ =>
    { behind := fun k => if k ∈ commitHash then none else g.behind k
      invalidated := g.invalidated ++ commitHash.filterMap g.behind }
  | _, _ => g

/-- No successful `burnCommits` call holds an invalidated commitment. -/
def StaysInvalidated (x : EpochCommits Hash × World Hash) (tx : Tx Hash) : Prop :=
  ∀ data, tx.call = .burnCommits data → (x.2.exec evm tx).isSome →
    ∀ r ∈ burnRecords data, r.commit x.2.wallet (toAddressOf data) ∉ x.1.invalidated

/-- What `burnCommits` asks of a batch: that it comes in time, that it is burnable, and that the
pending amount stays a word. -/
structure World.BurnAccepts (w : World Hash) (t : U256) (data : List UInt8) : Prop where
  early : w.wallet.burnBuffer.toNat + invDisadvantageBuffer.toNat + t.toNat <
    w.wallet.epochExpiresBy.toNat
  burnable : Burnable evm (toAddressOf data) (w.wallet, 0) (burnRecords data)
  fits : w.wallet.pendingBurnAmount.toNat +
    (burnRecords data).length * w.wallet.indexValue.toNat < 2 ^ 256

/-- The transaction brings an accepted batch with an invalidated commitment. -/
def Resubmission (x : EpochCommits Hash × World Hash) (tx : Tx Hash) : Prop :=
  ∃ data, tx.call = .burnCommits data ∧ x.2.BurnAccepts evm tx.timestamp data ∧
    ∃ r ∈ burnRecords data, r.commit x.2.wallet (toAddressOf data) ∈ x.1.invalidated

variable {evm}

/-- The invalidated commitments stay out of a transaction exactly when it is no resubmission. -/
theorem staysInvalidated_iff {x : EpochCommits Hash × World Hash} {tx : Tx Hash} :
    StaysInvalidated evm x tx ↔ ¬ Resubmission evm x tx := by
  have hexec : ∀ data, tx.call = .burnCommits data →
      ((x.2.exec evm tx).isSome ↔ x.2.BurnAccepts evm tx.timestamp data) := by
    intro data hcall
    simp only [World.exec, hcall]
    refine World.burnCommits_isSome.trans ?_
    exact ⟨fun ⟨h1, h2, h3⟩ => ⟨h1, h2, h3⟩, fun ⟨h1, h2, h3⟩ => ⟨h1, h2, h3⟩⟩
  constructor
  · intro hstays hresub
    obtain ⟨data, hcall, haccepts, r, hr, hin⟩ := hresub
    exact hstays data hcall ((hexec data hcall).mpr haccepts) r hr hin
  · intro hresub data hcall hsome r hr hin
    exact hresub ⟨data, hcall, (hexec data hcall).mp hsome, r, hr, hin⟩

/-- In every run, an invalidated commitment stays invalidated for the rest of its epoch exactly when
no accepted batch of the run resubmits one. -/
theorem invalidated_stays_iff (x : EpochCommits Hash × World Hash) (txs : List (Tx Hash)) :
    Run.Always (Run.watch (World.step evm) (EpochCommits.next evm)) (StaysInvalidated evm) x txs ↔
      Run.Always (Run.watch (World.step evm) (EpochCommits.next evm))
        (fun x tx => ¬ Resubmission evm x tx) x txs :=
  Run.always_congr fun _ _ => staysInvalidated_iff

/-- A wallet like that of `plainWorld` whose burn buffer is above the Unix time, so that its records
can be challenged. -/
def longBufferWorld : World (List UInt8) :=
  .init 1 10000000000 30 7 9 2000000000 (fun a => if a = 1 then 1000 else 0) 0

/-- A batch with one commitment of type 1. -/
def resubmittedData : List UInt8 := burnCalldata 5 [⟨1, 1, 0, plainSignature 7⟩]

/-- A commitment is burned and challenged, and the same calldata comes in again. -/
def resubmitTxs : List (Tx (List UInt8)) :=
  [⟨3, 1650000000, .startEpoch⟩, ⟨3, 1650000010, .burnCommits resubmittedData⟩,
    ⟨3, 1650000020, .challengeBurnCommits [claimBlob 1 1] [0] [(plainSignature 7).r] [0]⟩,
    ⟨3, 1650000030, .burnCommits resubmittedData⟩]

/-- The invalidated commitment counts towards the pending amount again. -/
theorem not_invalidated_stays_resubmitTxs :
    (longBufferWorld.run plainEvm resubmitTxs).wallet.pendingBurnAmount = 30 ∧
      ¬ Run.Always (Run.watch (World.step plainEvm) (EpochCommits.next plainEvm))
        (StaysInvalidated plainEvm) ({}, longBufferWorld) resubmitTxs := by
  refine ⟨by decide +kernel, ?_⟩
  rintro ⟨-, -, -, hstays, -⟩
  refine hstays resubmittedData rfl (by decide +kernel) ⟨1, 1, 0, plainSignature 7⟩
    (by decide +kernel) ?_
  decide +kernel

/-! ## What stands in the way of a resubmission -/

/-- The owner signed every commitment that the observer knows. -/
def EpochCommits.Signed (evm : Evm Hash) (x : EpochCommits Hash × World Hash) : Prop :=
  ∀ c : SignedCommit, (c ∈ x.1.invalidated ∨ ∃ k, x.1.behind k = some c) →
    evm.recover (evm.keccak256 c.blob) c.signature = x.2.wallet.owner

omit [Inhabited Hash] in
/-- The commitments behind the burn records after a batch are those from before and those of the
batch. -/
theorem behind_of_foldl {key : BurnRecord → Hash} {commit : BurnRecord → SignedCommit}
    {rs : List BurnRecord} {behind : Hash → Option SignedCommit} {k : Hash} {c : SignedCommit}
    (h : rs.foldl (fun behind r => Function.update behind (key r) (some (commit r))) behind k =
      some c) : behind k = some c ∨ ∃ r ∈ rs, commit r = c := by
  induction rs generalizing behind with
  | nil => exact .inl h
  | cons r rs ih =>
    rcases ih h with h | ⟨r', hr', hc⟩
    · replace h : Function.update behind (key r) (some (commit r)) k = some c := h
      by_cases hk : k = key r
      · subst hk
        rw [Function.update_self] at h
        exact .inr ⟨r, List.mem_cons_self, Option.some.inj h⟩
      · rw [Function.update_of_ne hk] at h
        exact .inl h
    · exact .inr ⟨r', List.mem_cons_of_mem _ hr', hc⟩

/-- A transaction only adds commitments that the owner signed. -/
theorem EpochCommits.Signed.step (x : EpochCommits Hash × World Hash) (tx : Tx Hash)
    (h : EpochCommits.Signed evm x) :
    EpochCommits.Signed evm (Run.watch (World.step evm) (EpochCommits.next evm) x tx) := by
  obtain ⟨g, w⟩ := x
  intro c hc
  change evm.recover (evm.keccak256 c.blob) c.signature = (w.step evm tx).wallet.owner
  rw [(World.step_same w tx).owner]
  change (c ∈ (g.next evm w tx).invalidated ∨ ∃ k, (g.next evm w tx).behind k = some c) at hc
  unfold EpochCommits.next at hc
  split at hc
  · rcases hc with hc | ⟨k, hc⟩
    · cases hc
    · cases hc
  · rename_i data w' hcall hs
    rcases hc with hc | ⟨k, hc⟩
    · exact h c (.inl hc)
    · rcases behind_of_foldl hc with hc | ⟨r, hr, rfl⟩
      · exact h c (.inr ⟨k, hc⟩)
      · simp only [World.exec, hcall] at hs
        obtain ⟨-, wal, total, hl, -⟩ := World.burnCommits_spec hs
        exact (burnLoop_spec hl).signed r hr
  · rcases hc with hc | ⟨k, hc⟩
    · rcases List.mem_append.mp hc with hc | hc
      · exact h c (.inl hc)
      · obtain ⟨k, -, hk⟩ := List.mem_filterMap.mp hc
        exact h c (.inr ⟨k, hk⟩)
    · simp only at hc
      split at hc
      · cases hc
      · exact h c (.inr ⟨k, hc⟩)
  · exact h c hc

/-- In every run, a batch that only resubmits one invalidated commitment is accepted whenever it
comes in time, its index is free and the pending amount stays a word. The challenge itself leaves
nothing in the way. -/
theorem resubmission_accepted (w : World Hash) (txs : List (Tx Hash)) :
    let x := Run.final (Run.watch (World.step evm) (EpochCommits.next evm)) ({}, w) txs
    ∀ t data r, burnRecords data = [r] →
      r.commit x.2.wallet (toAddressOf data) ∈ x.1.invalidated →
      x.2.wallet.burnBuffer.toNat + invDisadvantageBuffer.toNat + t.toNat <
        x.2.wallet.epochExpiresBy.toNat →
      x.2.wallet.claimed (evm.claimIdentifier r.index x.2.wallet.currentEpoch) = false →
      x.2.wallet.burnBufferTime (evm.claimIdentifier r.index x.2.wallet.currentEpoch) = 0 →
      x.2.wallet.pendingBurnAmount.toNat + x.2.wallet.indexValue.toNat < 2 ^ 256 →
      x.2.BurnAccepts evm t data := by
  intro x t data r hdata hin htime hclaimed hbuffer hfits
  have hsigned : EpochCommits.Signed evm x := by
    refine Run.final_inv (fun x tx h _ => EpochCommits.Signed.step x tx h) ?_
      (Run.always_trivial _ txs)
    rintro c (hc | ⟨k, hc⟩)
    · cases hc
    · cases hc
  have hr : r.SignedBy evm x.2.wallet (toAddressOf data) := hsigned _ (.inl hin)
  have htimed : (r.bTime x.2.wallet).isSome := by
    unfold BurnRecord.bTime
    split
    · have hexp := x.2.wallet.epochExpiresBy.isLt
      have hlt : x.2.wallet.burnBuffer.toNat + invDisadvantageBuffer.toNat < 2 ^ 256 := by omega
      rw [Word.add?, if_pos hlt]
      rfl
    · rfl
  refine ⟨htime, ?_, ?_⟩
  · rw [hdata]
    refine ⟨by simpa using htimed, List.pairwise_singleton _ _, ?_, by simpa using hr, ?_⟩
    · intro k hk
      rw [List.mem_singleton.mp hk]
      exact ⟨hclaimed, hbuffer⟩
    · rw [List.length_singleton, Nat.one_mul]
      change 0 + x.2.wallet.indexValue.toNat < 2 ^ 256
      omega
  · rw [hdata, List.length_singleton, Nat.one_mul]
    exact hfits

end Dse
