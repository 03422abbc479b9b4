import Dse.Wallet.Book
import Dse.Wallet.Proofs.TxProofs
import Mathlib.Data.Set.Card

/-!
# The wallet keeps a settlement book

The storage of a wallet is five maps over digests that no call ever clears. `Represents` relates it
to the settlement book of the current epoch (`Book`): the units are the indices of the epoch, the
claimed and the buffered units are those whose records say so, and the amounts agree. Its second
half is what keeps old epochs out of the way: every record belongs to a known epoch, no record
belongs to a future one, and the buffer time of a record is below the expiry of its epoch, so once
the epoch is over the record can no longer be challenged.

`exec_refines` is the refinement: every successful transaction is a step of the book.
-/

namespace Dse

variable {Hash : Type} {evm : Evm Hash}

/-! ## Keys -/

theorem claimBlob_inj {i i' : U32} {e e' : U256} (h : claimBlob i e = claimBlob i' e') :
    i = i' ∧ e = e' := by
  obtain ⟨h1, h2⟩ := List.append_inj h (by simp)
  constructor
  · exact BitVec.eq_of_toNat_eq (Bytes.be_inj (lt_of_lt_of_eq i.isLt (by norm_num))
      (lt_of_lt_of_eq i'.isLt (by norm_num)) h1)
  · exact BitVec.eq_of_toNat_eq (Bytes.be_inj (lt_of_lt_of_eq e.isLt (by norm_num))
      (lt_of_lt_of_eq e'.isLt (by norm_num)) h2)

theorem claimIdentifier_inj (hk : Function.Injective evm.keccak256) {i i' : U32} {e e' : U256} :
    evm.claimIdentifier i e = evm.claimIdentifier i' e' ↔ i = i' ∧ e = e' := by
  constructor
  · exact fun h => claimBlob_inj (hk h)
  · rintro ⟨rfl, rfl⟩
    rfl

/-- The index is claimed in the current epoch. -/
def World.IsClaimed (evm : Evm Hash) (w : World Hash) (i : U32) : Prop :=
  w.wallet.claimed (evm.claimIdentifier i w.wallet.currentEpoch) = true

/-- The index is in the burn buffer in the current epoch. -/
def World.IsBuffered (evm : Evm Hash) (w : World Hash) (i : U32) : Prop :=
  w.wallet.burnBufferTime (evm.claimIdentifier i w.wallet.currentEpoch) ≠ 0

/-! ## The abstraction relation -/

/-- The wallet, with the observer's record of its epoch, keeps the book `b`. -/
structure Represents {value : ℕ} (evm : Evm Hash) (g : EpochRecord) (b : Book U32 value)
    (w : World Hash) : Prop where
  value_eq : w.wallet.indexValue.toNat = value
  claimed : ∀ i, i ∈ b.claimed ↔ w.IsClaimed evm i
  buffered : ∀ i, i ∈ b.buffered ↔ w.IsBuffered evm i
  pending : b.pending = w.wallet.pendingBurnAmount.toNat
  paid : b.paid = g.redeemed
  keyed : ∀ k, w.wallet.burnBufferTime k ≠ 0 →
    ∃ i e, e ≤ w.wallet.currentEpoch ∧ k = evm.claimIdentifier i e
  fresh : ∀ i e, w.wallet.currentEpoch < e →
    w.wallet.claimed (evm.claimIdentifier i e) = false ∧
      w.wallet.burnBufferTime (evm.claimIdentifier i e) = 0
  live : ∀ i, w.IsBuffered evm i →
    w.wallet.burnBufferTime (evm.claimIdentifier i w.wallet.currentEpoch) <
      w.wallet.epochExpiresBy
  stale : ∀ i e, e < w.wallet.currentEpoch →
    w.wallet.burnBufferTime (evm.claimIdentifier i e) ≤ w.now

section Refinement

variable {value : ℕ} {g : EpochRecord} {b : Book U32 value} {w w' : World Hash}

/-- Time passing changes nothing that is represented. -/
theorem Represents.tick (h : Represents evm g b w) {t : U256} (ht : w.now ≤ t) :
    Represents evm g b { w with now := t } :=
  { h with stale := fun i e he => BitVec.le_trans (h.stale i e he) ht }

/-- The ledger is not represented. -/
theorem Represents.balances (h : Represents evm g b w) (balances : Ledger) :
    Represents evm g b { w with balances } :=
  { h with }

/-- A deployed wallet keeps the empty book. -/
theorem represents_init [DecidableEq Hash] [Inhabited Hash] (this : Address)
    (epochDuration indexValue : U256) (owner currency : Address) (burnBuffer : U256)
    (balances : Ledger) (now : U256) :
    Represents evm {} (.empty : Book U32 indexValue.toNat)
      (.init this epochDuration indexValue owner currency burnBuffer balances now) where
  value_eq := rfl
  claimed := by simp [Book.empty, World.IsClaimed, World.init, Wallet.ofConstructor]
  buffered := by simp [Book.empty, World.IsBuffered, World.init, Wallet.ofConstructor]
  pending := rfl
  paid := rfl
  keyed := fun k hk => absurd rfl hk
  fresh := fun i e _ => ⟨rfl, rfl⟩
  live := fun i hi => absurd rfl hi
  stale := fun i e _ => Word.zero_le _

/-- When the next epoch starts the clock has passed every buffer time of the old one, and no record
of the new one exists. -/
theorem Represents.startEpoch (h : Represents evm g b w) {t : U256} (ht : w.now ≤ t)
    (hs : w.startEpoch evm t = some w') (r : ℕ) :
    Represents evm { redeemed := 0, reserves := r } (.empty : Book U32 value)
      { w' with now := t } := by
  obtain ⟨hexp, hep, -, -, hw'⟩ := World.startEpoch_spec hs
  have hlt : w.wallet.currentEpoch < w'.wallet.currentEpoch := by
    rw [BitVec.lt_def]
    omega
  have hc : w'.wallet.claimed = w.wallet.claimed := by rw [hw']
  have hb : w'.wallet.burnBufferTime = w.wallet.burnBufferTime := by rw [hw']
  have hpast : ∀ i e, e ≤ w.wallet.currentEpoch →
      w.wallet.burnBufferTime (evm.claimIdentifier i e) ≤ t := by
    intro i e he
    by_cases hcur : e = w.wallet.currentEpoch
    · subst hcur
      by_cases hz : w.wallet.burnBufferTime (evm.claimIdentifier i w.wallet.currentEpoch) = 0
      · rw [hz]
        exact Word.zero_le _
      · exact BitVec.le_trans (BitVec.le_of_lt (h.live i hz)) hexp
    · exact BitVec.le_trans (h.stale i e (Word.lt_of_le_of_ne he hcur)) ht
  have hnew := fun i => h.fresh i _ hlt
  refine
    { value_eq := ?_
      claimed := ?_
      buffered := ?_
      pending := ?_
      paid := rfl
      keyed := ?_
      fresh := ?_
      live := ?_
      stale := ?_ }
  · rw [hw']
    exact h.value_eq
  · intro i
    simp [Book.empty, World.IsClaimed, hc, (hnew i).1]
  · intro i
    simp [Book.empty, World.IsBuffered, hb, (hnew i).2]
  · rw [hw']
    rfl
  · intro k hk
    obtain ⟨i, e, he, rfl⟩ := h.keyed k (hb ▸ hk)
    exact ⟨i, e, BitVec.le_of_lt (Word.lt_of_le_of_lt he hlt), rfl⟩
  · intro i e he
    rw [hc, hb]
    exact h.fresh i e (BitVec.lt_trans hlt he)
  · intro i hi
    exact absurd (hb ▸ (hnew i).2) hi
  · intro i e he
    refine hb ▸ hpast i e ?_
    change e < w'.wallet.currentEpoch at he
    rw [BitVec.lt_def] at he
    rw [BitVec.le_def]
    omega

/-- A withdrawal burns what is pending; the records stay. -/
theorem Represents.withdraw (h : Represents evm g b w) {sender : Address} {t : U256}
    (hs : w.withdraw evm sender t = some w') : Represents evm g b.burnAll w' := by
  obtain ⟨-, -, hw'⟩ := World.withdraw_spec hs
  rw [hw']
  exact { h with pending := rfl }

/-- A batch over fresh keys settles its indices: new units, one for each record. -/
theorem Represents.fresh_units (hk : Function.Injective evm.keccak256) (h : Represents evm g b w)
    (is : List U32) {keys : List Hash} {total : ℕ}
    (hkeys : keys = is.map fun i => evm.claimIdentifier i w.wallet.currentEpoch)
    (hnodup : keys.Nodup)
    (hfresh : ∀ k ∈ keys, w.wallet.claimed k = false ∧ w.wallet.burnBufferTime k = 0)
    (htotal : total = is.length * w.wallet.indexValue.toNat) :
    ∃ s, Disjoint b.claimed s ∧ Disjoint b.buffered s ∧ value * s.card = total ∧
      (∀ i ∈ s, i ∈ is) ∧
      ∀ i, i ∈ s ↔ evm.claimIdentifier i w.wallet.currentEpoch ∈ keys := by
  have hinj : Function.Injective fun i => evm.claimIdentifier i w.wallet.currentEpoch :=
    fun i j hij => ((claimIdentifier_inj hk).mp hij).1
  have hmem : ∀ i, i ∈ is.toFinset ↔ evm.claimIdentifier i w.wallet.currentEpoch ∈ keys := by
    intro i
    rw [List.mem_toFinset, hkeys, List.mem_map_of_injective hinj]
  refine ⟨is.toFinset, ?_, ?_, ?_, fun i => List.mem_toFinset.mp, hmem⟩
  · rw [Finset.disjoint_right]
    intro i hi hic
    have hclaimed := (h.claimed i).mp hic
    rw [World.IsClaimed, (hfresh _ ((hmem i).mp hi)).1] at hclaimed
    cases hclaimed
  · rw [Finset.disjoint_right]
    intro i hi hib
    exact (h.buffered i).mp hib (hfresh _ ((hmem i).mp hi)).2
  · have hcard : is.toFinset.card = is.length :=
      List.toFinset_card_of_nodup (List.Nodup.of_map _ (hkeys ▸ hnodup))
    rw [hcard, htotal, h.value_eq, Nat.mul_comm]

variable [DecidableEq Hash]

/-- A redeemed batch claims the indices of its records. -/
theorem Represents.redeemdType2 (hk : Function.Injective evm.keccak256)
    (hstd : evm.transfer = Ledger.standardTransfer) (h : Represents evm g b w)
    {data : List UInt8} (hs : w.redeemdType2 evm data = some w') :
    ∃ s hc hb, value * s.card = w.payout evm ⟨0, 0, .redeemdType2 data⟩ ∧
      (∀ i ∈ s, ∃ r ∈ redeemRecords data,
        r.index = i ∧ r.SignedBy evm w.wallet (toAddressOf data)) ∧
      Represents evm { g with redeemed := g.redeemed + value * s.card } (b.claim s hc hb) w' := by
  obtain ⟨total, hl, hm, hw'⟩ := World.redeemdType2_spec hstd hs
  have hl' := redeemLoop_spec hl
  have hframe : w'.wallet = { w.wallet with claimed := w'.wallet.claimed } := hl'.frame
  have htot : total.toNat = ((redeemRecords data).map RedeemRecord.index).length *
      w.wallet.indexValue.toNat := by simpa using hl'.total
  obtain ⟨s, hc, hb, htotal, hidx, hmem⟩ := h.fresh_units hk
    ((redeemRecords data).map RedeemRecord.index) (by rw [List.map_map]; rfl) hl'.nodup hl'.fresh
    htot
  set epoch := w.wallet.currentEpoch with hepoch
  refine ⟨s, hc, hb, ?_, ?_, ?_⟩
  · rw [htotal]
    simp only [World.payout, hl, hstd, hm, if_true]
  · intro i hi
    obtain ⟨r, hr, rfl⟩ := List.mem_map.mp (hidx i hi)
    exact ⟨r, hr, rfl, hl'.signed r hr⟩
  · rw [hw', hframe]
    refine
      { value_eq := h.value_eq
        claimed := ?_
        buffered := h.buffered
        pending := h.pending
        paid := congrArg (· + value * s.card) h.paid
        keyed := h.keyed
        fresh := ?_
        live := h.live
        stale := h.stale }
    · intro i
      have h1 := hl'.claimed (evm.claimIdentifier i epoch)
      simp only [Book.claim, Finset.mem_union, h.claimed i, hmem i]
      exact h1.symm
    · intro i e he
      refine ⟨?_, (h.fresh i e he).2⟩
      by_contra hne
      rcases (hl'.claimed _).mp (Bool.not_eq_false _ |>.mp hne) with h1 | h1
      · rw [(h.fresh i e he).1] at h1
        cases h1
      · obtain ⟨r, -, hr⟩ := List.mem_map.mp h1
        obtain ⟨-, rfl⟩ := (claimIdentifier_inj hk).mp hr
        exact BitVec.lt_irrefl _ he

/-- A burned batch puts the indices of its records in the burn buffer. -/
theorem Represents.burnCommits (hk : Function.Injective evm.keccak256)
    (hpos : 0 < w.wallet.burnBuffer.toNat) (h : Represents evm g b w) {t : U256}
    {data : List UInt8} (hs : w.burnCommits evm t data = some w') :
    ∃ s hc hb, (∀ i ∈ s, ∃ r ∈ burnRecords data,
        r.index = i ∧ r.SignedBy evm w.wallet (toAddressOf data)) ∧
      Represents evm g (b.buffer s hc hb) w' := by
  obtain ⟨hdl, wal, total, hl, hp, hw'⟩ := World.burnCommits_spec hs
  have hl' := burnLoop_spec hl
  have htot : total.toNat = ((burnRecords data).map BurnRecord.index).length *
      w.wallet.indexValue.toNat := by simpa using hl'.total
  obtain ⟨s, hc, hb, htotal, hidx, hmem⟩ := h.fresh_units hk
    ((burnRecords data).map BurnRecord.index) (by rw [List.map_map]; rfl) (hl'.nodup hpos)
    hl'.fresh htot
  set epoch := w.wallet.currentEpoch with hepoch
  -- the buffer times written by the batch
  have hnew : ∀ k ∈ burnKeys evm epoch (burnRecords data), wal.burnBufferTime k ≠ 0 ∧
      (wal.burnBufferTime k).toNat ≤
        w.wallet.burnBuffer.toNat + invDisadvantageBuffer.toNat := by
    intro k hkin
    obtain ⟨r, -, hid, hbt, -, -⟩ := hl'.stored k hkin
    rw [hid] at hbt
    exact ⟨BurnRecord.bTime_pos hbt hpos, BurnRecord.bTime_le hbt⟩
  have hold : ∀ k, k ∉ burnKeys evm epoch (burnRecords data) →
      wal.burnBufferTime k = w.wallet.burnBufferTime k := fun k hkn => (hl'.others k hkn).1
  have hother : ∀ i e, e ≠ epoch →
      evm.claimIdentifier i e ∉ burnKeys evm epoch (burnRecords data) := by
    intro i e he hin
    obtain ⟨r, -, hr⟩ := List.mem_map.mp hin
    exact he ((claimIdentifier_inj hk).mp hr).2.symm
  obtain ⟨hclaimed, hcur, hexp, -, hval, hpend⟩ := eq_of_buffers w.wallet wal hl'.frame
  have hbuf : ∀ i, i ∈ (b.buffer s hc hb).buffered ↔
      wal.burnBufferTime (evm.claimIdentifier i epoch) ≠ 0 := by
    intro i
    simp only [Book.buffer, Finset.mem_union, h.buffered i, hmem i]
    by_cases hin : evm.claimIdentifier i epoch ∈ burnKeys evm epoch (burnRecords data)
    · simpa [hin] using (hnew _ hin).1
    · rw [hold _ hin]
      exact ⟨fun hor => hor.elim id (absurd · hin), Or.inl⟩
  refine ⟨s, hc, hb, ?_, ?_⟩
  · intro i hi
    obtain ⟨r, hr, rfl⟩ := List.mem_map.mp (hidx i hi)
    exact ⟨r, hr, rfl, hl'.signed r hr⟩
  rw [hw']
  refine
    { value_eq := hval ▸ h.value_eq
      claimed := ?_
      buffered := ?_
      pending := ?_
      paid := h.paid
      keyed := ?_
      fresh := ?_
      live := ?_
      stale := ?_ }
  · intro i
    simp only [World.IsClaimed, hclaimed, hcur]
    exact h.claimed i
  · intro i
    simp only [World.IsBuffered, hcur]
    exact hbuf i
  · simp only [Book.buffer, htotal, h.pending, ← hpend]
    exact hp
  · intro k hkz
    simp only [hcur]
    by_cases hin : k ∈ burnKeys evm epoch (burnRecords data)
    · obtain ⟨r, -, hr⟩ := List.mem_map.mp hin
      exact ⟨r.index, epoch, BitVec.le_refl _, hr.symm⟩
    · exact h.keyed k (hold k hin ▸ hkz)
  · intro i e he
    simp only [hcur] at he
    rw [hclaimed, hold _ (hother i e (BitVec.ne_of_lt he).symm)]
    exact h.fresh i e he
  · intro i hi
    simp only [World.IsBuffered, hcur, hexp, ← hepoch] at hi ⊢
    by_cases hin : evm.claimIdentifier i epoch ∈ burnKeys evm epoch (burnRecords data)
    · have := (hnew _ hin).2
      rw [BitVec.lt_def]
      omega
    · rw [hold _ hin] at hi ⊢
      exact h.live i hi
  · intro i e he
    simp only [hcur] at he
    rw [hold _ (hother i e (BitVec.ne_of_lt he))]
    exact h.stale i e he

variable [Inhabited Hash]

omit [DecidableEq Hash] [Inhabited Hash] in
/-- The records of a challenged batch belong to the current epoch. -/
theorem Represents.challenged_current (h : Represents evm g b w) {t : U256} (ht : w.now ≤ t)
    {k : Hash} (hk : t < w.wallet.burnBufferTime k) :
    ∃ i, k = evm.claimIdentifier i w.wallet.currentEpoch := by
  have hz : w.wallet.burnBufferTime k ≠ 0 := by
    intro hz
    rw [hz] at hk
    exact BitVec.not_lt_zero hk
  obtain ⟨i, e, he, rfl⟩ := h.keyed k hz
  by_cases hcur : e = w.wallet.currentEpoch
  · exact ⟨i, by rw [hcur]⟩
  · have h1 := h.stale i e (Word.lt_of_le_of_ne he hcur)
    exact absurd hk (BitVec.not_lt.mpr (BitVec.le_trans h1 ht))

/-- The units of a challenged batch: buffered indices, one for each record. -/
theorem Represents.challenged_units (hk : Function.Injective evm.keccak256)
    (h : Represents evm g b w) {t : U256} (ht : w.now ≤ t) {cs : List (ChallengeRecord Hash)}
    {st' : Wallet Hash × U256} (hl : Challenged evm t (w.wallet, 0) cs st') :
    ∃ s ⊆ b.buffered, value * s.card = st'.2.toNat ∧ ∀ i, i ∈ s ↔
      evm.claimIdentifier i w.wallet.currentEpoch ∈ cs.map ChallengeRecord.commitHash := by
  classical
  set epoch := w.wallet.currentEpoch with hepoch
  set hashes := cs.map ChallengeRecord.commitHash with hhashes
  set s := b.buffered.filter fun i => evm.claimIdentifier i epoch ∈ hashes with hsdef
  have hmem : ∀ i, i ∈ s ↔ evm.claimIdentifier i epoch ∈ hashes := by
    intro i
    rw [hsdef, Finset.mem_filter, h.buffered i]
    refine ⟨fun hi => hi.2, fun hi => ⟨?_, hi⟩⟩
    intro hz
    have h1 := hl.open_ _ hi
    rw [show w.wallet.burnBufferTime (evm.claimIdentifier i epoch) = 0 from hz] at h1
    exact BitVec.not_lt_zero h1
  have himage : s.image (fun i => evm.claimIdentifier i epoch) = hashes.toFinset := by
    ext k
    simp only [Finset.mem_image, List.mem_toFinset]
    constructor
    · rintro ⟨i, hi, rfl⟩
      exact (hmem i).mp hi
    · intro hkin
      obtain ⟨i, rfl⟩ := h.challenged_current ht (hl.open_ k hkin)
      exact ⟨i, (hmem i).mpr hkin, rfl⟩
  have hcard : s.card = cs.length := by
    have hinj : Function.Injective fun i => evm.claimIdentifier i epoch :=
      fun i j hij => ((claimIdentifier_inj hk).mp hij).1
    rw [← Finset.card_image_of_injective s hinj, himage, List.toFinset_card_of_nodup hl.nodup,
      List.length_map]
  refine ⟨s, Finset.filter_subset _ _, ?_, hmem⟩
  have h1 := hl.total
  rw [show ((w.wallet, (0 : U256)) : Wallet Hash × U256).2.toNat = 0 from rfl, Nat.zero_add] at h1
  rw [hcard, h1, Nat.mul_comm, ← h.value_eq]

/-- A challenged batch releases its units. -/
theorem Represents.challengeBurnCommits (hk : Function.Injective evm.keccak256)
    (h : Represents evm g b w) {t : U256} (ht : w.now ≤ t) {commitHash : List Hash}
    {v : List UInt8} {r s : List U256}
    (hs : w.challengeBurnCommits evm t commitHash v r s = some w') :
    ∃ s hsub hp, Represents evm g (b.release s hsub hp) w' := by
  obtain ⟨-, wal, total, hl, hpend, hw'⟩ := World.challengeBurnCommits_spec hs
  have hl' := challengeLoop_spec hl
  obtain ⟨s, hsub, htotal, hmem⟩ := h.challenged_units hk ht hl'
  set epoch := w.wallet.currentEpoch with hepoch
  set hashes := (challengeRecords commitHash v r _).map ChallengeRecord.commitHash with hhashes
  obtain ⟨hclaimed, hcur, hexp, -, hval, hpd⟩ := eq_of_buffers w.wallet wal hl'.frame
  have htime : ∀ k, wal.burnBufferTime k = w.wallet.burnBufferTime k ∨
      wal.burnBufferTime k = 0 := by
    intro k
    by_cases hin : k ∈ hashes
    · exact Or.inr (hl'.deleted k hin).1
    · exact Or.inl (hl'.others k hin).1
  have hp : value * s.card ≤ b.pending := by
    rw [hpd] at hpend
    rw [htotal, h.pending]
    change total.toNat ≤ _
    omega
  refine ⟨s, hsub, hp, ?_⟩
  rw [hw']
  refine
    { value_eq := hval ▸ h.value_eq
      claimed := ?_
      buffered := ?_
      pending := ?_
      paid := h.paid
      keyed := ?_
      fresh := ?_
      live := ?_
      stale := ?_ }
  · intro i
    simp only [World.IsClaimed, hclaimed, hcur]
    exact h.claimed i
  · intro i
    simp only [Book.release, Finset.mem_sdiff, World.IsBuffered, hcur, h.buffered i, hmem i]
    by_cases hin : evm.claimIdentifier i epoch ∈ hashes
    · exact ⟨fun hi => absurd hin hi.2, fun hi => absurd (hl'.deleted _ hin).1 hi⟩
    · rw [show wal.burnBufferTime (evm.claimIdentifier i epoch) = _ from (hl'.others _ hin).1]
      exact ⟨And.left, fun hi => ⟨hi, hin⟩⟩
  · simp only [Book.release, htotal, h.pending]
    rw [hpd] at hpend
    omega
  · intro k hkz
    simp only [hcur]
    rcases htime k with hk' | hk'
    · exact h.keyed k (hk' ▸ hkz)
    · exact absurd hk' hkz
  · intro i e he
    simp only [hcur] at he
    rw [hclaimed]
    refine ⟨(h.fresh i e he).1, ?_⟩
    rcases htime (evm.claimIdentifier i e) with hk' | hk'
    · exact hk'.trans (h.fresh i e he).2
    · exact hk'
  · intro i hi
    simp only [World.IsBuffered, hcur, hexp] at hi ⊢
    rcases htime (evm.claimIdentifier i epoch) with hk' | hk'
    · rw [hk'] at hi ⊢
      exact h.live i hi
    · exact absurd hk' hi
  · intro i e he
    simp only [hcur] at he
    rcases htime (evm.claimIdentifier i e) with hk' | hk'
    · rw [hk']
      exact h.stale i e he
    · rw [hk']
      exact Word.zero_le _

/-- Every successful transaction is a step of the book, and only a withdrawal burns before the
period is over. -/
theorem exec_refines (hk : Function.Injective evm.keccak256)
    (hstd : evm.transfer = Ledger.standardTransfer) (hpos : 0 < w.wallet.burnBuffer.toNat)
    (h : Represents evm g b w) {tx : Tx Hash} (ht : w.now ≤ tx.timestamp)
    (hs : w.exec evm tx = some w') :
    ∃ b', Book.Step b b' ∧ (tx.call ≠ .withdraw → b.burnt = 0 → b'.burnt = 0) ∧
      Represents evm (g.next evm w tx) b' { w' with now := tx.timestamp } := by
  obtain ⟨sender, t, call⟩ := tx
  have hnow : w'.now = w.now := (World.exec_same hs).2
  have htick : ∀ {g' : EpochRecord} {b' : Book U32 value}, Represents evm g' b' w' →
      Represents evm g' b' { w' with now := t } := fun hr => hr.tick (hnow ▸ ht)
  cases call with
  | startEpoch =>
    have hnext : g.next evm w ⟨sender, t, .startEpoch⟩ =
        { redeemed := 0, reserves := w'.wallet.reserves.toNat } := by
      simp only [EpochRecord.next, hs]
    rw [hnext]
    exact ⟨.empty, .renew b, fun _ _ => rfl, h.startEpoch ht hs _⟩
  | withdraw =>
    exact ⟨b.burnAll, .burnAll b, fun hne => absurd rfl hne, htick (h.withdraw hs)⟩
  | redeemdType2 data =>
    obtain ⟨s, hc, hb, hpay, -, hr⟩ := h.redeemdType2 hk hstd hs
    have hnext : g.next evm w ⟨sender, t, .redeemdType2 data⟩ =
        { g with redeemed := g.redeemed + value * s.card } := by
      rw [hpay]
      rfl
    rw [hnext]
    exact ⟨_, .claim b s hc hb, fun _ => id, htick hr⟩
  | burnCommits data =>
    obtain ⟨s, hc, hb, -, hr⟩ := h.burnCommits hk hpos hs
    exact ⟨_, .buffer b s hc hb, fun _ => id, htick hr⟩
  | challengeBurnCommits commitHash v r s =>
    obtain ⟨s, hsub, hp, hr⟩ := h.challengeBurnCommits hk ht hs
    exact ⟨_, .release b s hsub hp, fun _ => id, htick hr⟩
  | transfer recipient amount =>
    obtain ⟨-, -, hw'⟩ := World.deposit_spec hstd hs
    exact ⟨b, .idle b, fun _ => id, htick (hw' ▸ h.balances _)⟩

/-- A transaction, reverted or not, is a step of the book. -/
theorem step_refines (hk : Function.Injective evm.keccak256)
    (hstd : evm.transfer = Ledger.standardTransfer) (hpos : 0 < w.wallet.burnBuffer.toNat)
    (h : Represents evm g b w) {tx : Tx Hash} (ht : w.now ≤ tx.timestamp) :
    ∃ b', Book.Step b b' ∧ (tx.call ≠ .withdraw → b.burnt = 0 → b'.burnt = 0) ∧
      Represents evm (g.next evm w tx) b' (w.step evm tx) := by
  cases hs : w.exec evm tx with
  | some w' =>
    rw [World.step_of_some hs]
    exact exec_refines hk hstd hpos h ht hs
  | none =>
    rw [World.step_of_none hs, EpochRecord.next_of_none g hs]
    exact ⟨b, .idle b, fun _ => id, h.tick ht⟩

end Refinement

/-! ## Settlement accounting -/

variable [DecidableEq Hash] [Inhabited Hash]

/-- The settlement accounts of the current epoch, and what the accounts rule out next. -/
structure Accounts (evm : Evm Hash) (g : EpochRecord) (w : World Hash) : Prop where
  exclusive : ∀ i, ¬ (w.IsClaimed evm i ∧ w.IsBuffered evm i)
  pending : w.wallet.pendingBurnAmount.toNat =
    w.wallet.indexValue.toNat * {i | w.IsBuffered evm i}.ncard
  redeemed : g.redeemed = w.wallet.indexValue.toNat * {i | w.IsClaimed evm i}.ncard
  /-- A new epoch begins with nothing settled. -/
  renewed : ∀ t w', w.now ≤ t → w.startEpoch evm t = some w' →
    ∀ i, ¬ w'.IsClaimed evm i ∧ ¬ w'.IsBuffered evm i
  /-- The records of earlier epochs cannot be challenged any more. -/
  closed : ∀ i e t, e < w.wallet.currentEpoch → w.now ≤ t → ∀ commitHash v r s,
    evm.claimIdentifier i e ∈ commitHash → w.challengeBurnCommits evm t commitHash v r s = none
  /-- The subtraction in `challengeBurnCommits` never underflows. -/
  covered : ∀ t cs st, w.now ≤ t → challengeLoop evm t (w.wallet, 0) cs = some st →
    st.2 ≤ st.1.pendingBurnAmount

/-- A represented wallet that never burned early has sound accounts. -/
theorem Represents.accounts (hk : Function.Injective evm.keccak256) {value : ℕ} {g : EpochRecord}
    {b : Book U32 value} {w : World Hash} (h : Represents evm g b w) (hb : b.burnt = 0) :
    Accounts evm g w where
  exclusive := fun i hi =>
    Finset.disjoint_left.mp b.disjoint ((h.claimed i).mpr hi.1) ((h.buffered i).mpr hi.2)
  pending := by
    have hset : {i | w.IsBuffered evm i} = ↑b.buffered := by
      ext i
      exact (h.buffered i).symm
    have hp := b.pending_eq
    rw [hb, Nat.add_zero] at hp
    rw [← h.pending, hp, h.value_eq, hset, Set.ncard_coe_finset]
  redeemed := by
    have hset : {i | w.IsClaimed evm i} = ↑b.claimed := by
      ext i
      exact (h.claimed i).symm
    rw [← h.paid, b.paid_eq, h.value_eq, hset, Set.ncard_coe_finset]
  renewed := by
    intro t w' ht hs i
    have h' := h.startEpoch ht hs 0
    exact ⟨fun hi => Finset.notMem_empty i ((h'.claimed i).mpr hi),
      fun hi => Finset.notMem_empty i ((h'.buffered i).mpr hi)⟩
  closed := by
    intro i e t he ht commitHash v r s hin
    by_contra hne
    obtain ⟨w', hs⟩ := Option.ne_none_iff_exists'.mp hne
    obtain ⟨hmap, wal, total, hl, -, -⟩ := World.challengeBurnCommits_spec hs
    rw [← hmap] at hin
    obtain ⟨j, hj⟩ := h.challenged_current ht ((challengeLoop_spec hl).open_ _ hin)
    obtain ⟨-, rfl⟩ := (claimIdentifier_inj hk).mp hj
    exact BitVec.lt_irrefl _ he
  covered := by
    intro t cs st ht hl
    have hl' := challengeLoop_spec hl
    obtain ⟨s, hsub, htotal, -⟩ := h.challenged_units hk ht hl'
    have hle := b.release_le hb hsub
    obtain ⟨-, -, -, -, -, hpd⟩ := eq_of_buffers w.wallet st.1 hl'.frame
    rw [BitVec.le_def, hpd, ← h.pending, ← htotal]
    exact hle

/-- The invariant of the runs without `withdraw`: a book without burnt amounts is kept. -/
def Booked (evm : Evm Hash) (value : ℕ) (x : EpochRecord × World Hash) : Prop :=
  0 < x.2.wallet.burnBuffer.toNat ∧
    ∃ b : Book U32 value, b.burnt = 0 ∧ Represents evm x.1 b x.2

theorem Booked.step (hk : Function.Injective evm.keccak256)
    (hstd : evm.transfer = Ledger.standardTransfer) {value : ℕ} (x : EpochRecord × World Hash)
    (tx : Tx Hash) (h : Booked evm value x)
    (hok : x.2.now ≤ tx.timestamp ∧ tx.call ≠ .withdraw) :
    Booked evm value (Run.watch (World.step evm) (EpochRecord.next evm) x tx) := by
  obtain ⟨hpos, b, hb, hr⟩ := h
  obtain ⟨b', -, hburnt, hr'⟩ := step_refines hk hstd hpos hr hok.1
  exact ⟨(World.step_same x.2 tx).burnBuffer ▸ hpos, b', hburnt hok.2 hb, hr'⟩

/-- In every run without `withdraw`, the accounts of every epoch are sound. -/
theorem settlement_accounting (hk : Function.Injective evm.keccak256)
    (hstd : evm.transfer = Ledger.standardTransfer) (this : Address)
    (epochDuration indexValue : U256) (owner currency : Address) (burnBuffer : U256)
    (hpos : 0 < burnBuffer) (balances : Ledger) (now : U256) (txs : List (Tx Hash))
    (hchron : World.Chronological evm
      (.init this epochDuration indexValue owner currency burnBuffer balances now) txs)
    (hwithdraw : ∀ tx ∈ txs, tx.call ≠ .withdraw) :
    let x := World.observed evm
      (.init this epochDuration indexValue owner currency burnBuffer balances now) txs
    Accounts evm x.1 x.2 := by
  intro x
  have hok := (hchron.watched evm {}).and
    ((Run.always_input (fun tx => tx.call ≠ .withdraw) _ txs).mpr hwithdraw)
  have hinit : Booked evm indexValue.toNat ({},
      World.init this epochDuration indexValue owner currency burnBuffer balances now) :=
    ⟨hpos, .empty, rfl, represents_init this epochDuration indexValue owner currency burnBuffer
      balances now⟩
  obtain ⟨-, b, hb, hr⟩ := Run.final_inv (Booked.step hk hstd) hinit hok
  exact hr.accounts hk hb

/-- An epoch in which an index is redeemed, two are burned and one of these is challenged. -/
def settledTxs : List (Tx (List UInt8)) :=
  [⟨3, 10, .startEpoch⟩,
    ⟨3, 20, .burnCommits (burnCalldata 5
      [⟨1, 1, 0, plainSignature 7⟩, ⟨2, 2, 1, plainSignature 7⟩])⟩,
    ⟨3, 30, .redeemdType2 (redeemCalldata 5 [⟨3, 3, plainSignature 7, plainSignature 7⟩])⟩,
    ⟨3, 40, .challengeBurnCommits [claimBlob 1 1] [0] [(plainSignature 7).r] [0]⟩]

theorem settlement_accounting_settledTxs :
    let x := World.observed plainEvm plainWorld settledTxs
    Accounts plainEvm x.1 x.2 ∧ x.1.redeemed = 30 ∧ x.2.wallet.pendingBurnAmount = 30 :=
  ⟨settlement_accounting Function.injective_id rfl 1 604800 30 7 9 86400 (by decide) _ 0 settledTxs
    (by decide) (by simp [settledTxs]), by decide +kernel⟩

end Dse
