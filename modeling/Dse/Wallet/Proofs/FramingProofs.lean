import Dse.Wallet.Proofs.CalldataProofs

/-!
# Which bytes an iteration reads

The documented batch has its records back to back. An iteration reads two numbers, for a burn a type,
and slices of 65 bytes for the signatures; together they are the bytes of one record, wherever it
lies. The loop of `burnCommits` steps from record to record. That of `redeemdType2` is one byte further
off with every iteration: it reads a batch as it was packed only when there is one record, or a second
one that is nothing but zeros.
-/

namespace Dse

/-! ## Slices -/

/-- A signature is read within its slice. -/
theorem signatureAt_window (data : List UInt8) (i : ℕ) :
    signatureAt (Bytes.window data i 65) 0 = signatureAt data i := by
  have hword : ∀ j, j + 32 ≤ 65 →
      calldataload (Bytes.window data i 65) j = calldataload data (i + j) := by
    intro j hj
    rw [calldataload, calldataload, Bytes.window_window data hj]
  rw [signatureAt, signatureAt, hword 0 (by omega), hword (0 + 32) (by omega)]
  rfl

/-- What an iteration of `redeemdType2` reads: its signatures are slices of the calldata. -/
structure RedeemSlices where
  index : U32
  u : U32
  commitSignature : List UInt8
  invalidatingSignature : List UInt8
deriving DecidableEq, Repr

/-- What an iteration of `burnCommits` reads. -/
structure BurnSlices where
  index : U32
  u : U32
  ctype : UInt8
  commitSignature : List UInt8
deriving DecidableEq, Repr

def redeemSlicesAt (data : List UInt8) (byteOffset : ℕ) : RedeemSlices where
  index := uint32At data byteOffset
  u := uint32At data (byteOffset + 4)
  commitSignature := Bytes.window data (byteOffset + 8) 65
  invalidatingSignature := Bytes.window data (byteOffset + 73) 65

def burnSlicesAt (data : List UInt8) (byteOffset : ℕ) : BurnSlices where
  index := uint32At data byteOffset
  u := uint32At data (byteOffset + 4)
  ctype := uint8At data (byteOffset + 8)
  commitSignature := Bytes.window data (byteOffset + 9) 65

/-- The record that the loop body makes of its slices. -/
def RedeemSlices.toRecord (x : RedeemSlices) : RedeemRecord where
  index := x.index
  u := x.u
  commitSignature := signatureAt x.commitSignature 0
  invalidatingSignature := signatureAt x.invalidatingSignature 0

def BurnSlices.toRecord (x : BurnSlices) : BurnRecord where
  index := x.index
  u := x.u
  ctype := x.ctype
  commitSignature := signatureAt x.commitSignature 0

theorem toRecord_redeemSlicesAt (data : List UInt8) (byteOffset : ℕ) :
    (redeemSlicesAt data byteOffset).toRecord = redeemRecordAt data byteOffset := by
  simp only [RedeemSlices.toRecord, redeemSlicesAt, signatureAt_window, redeemRecordAt]

theorem toRecord_burnSlicesAt (data : List UInt8) (byteOffset : ℕ) :
    (burnSlicesAt data byteOffset).toRecord = burnRecordAt data byteOffset := by
  simp only [BurnSlices.toRecord, burnSlicesAt, signatureAt_window, burnRecordAt]

/-- What iteration `i` of `redeemdType2` reads. -/
def redeemIteration (data : List UInt8) (i : ℕ) : RedeemSlices := redeemSlicesAt data (26 + 139 * i)

/-- What iteration `i` of `burnCommits` reads. -/
def burnIteration (data : List UInt8) (i : ℕ) : BurnSlices := burnSlicesAt data (26 + 74 * i)

theorem redeemRecords_eq (data : List UInt8) : redeemRecords data =
    (List.range (countOf data)).map fun i => (redeemIteration data i).toRecord :=
  List.map_congr_left fun _ _ => (toRecord_redeemSlicesAt data _).symm

theorem burnRecords_eq (data : List UInt8) : burnRecords data =
    (List.range (countOf data)).map fun i => (burnIteration data i).toRecord :=
  List.map_congr_left fun _ _ => (toRecord_burnSlicesAt data _).symm

/-! ## The slices of a record -/

def RedeemRecord.slices (r : RedeemRecord) : RedeemSlices where
  index := r.index
  u := r.u
  commitSignature := r.commitSignature.bytes
  invalidatingSignature := r.invalidatingSignature.bytes

def BurnRecord.slices (r : BurnRecord) : BurnSlices where
  index := r.index
  u := r.u
  ctype := r.ctype
  commitSignature := r.commitSignature.bytes

/-- The slices at an offset are those of a record exactly if its bytes lie there. -/
theorem redeemSlicesAt_eq_iff (data : List UInt8) (byteOffset : ℕ) (r : RedeemRecord) :
    redeemSlicesAt data byteOffset = r.slices ↔ Bytes.window data byteOffset 138 = r.bytes := by
  have hsplit : Bytes.window data byteOffset 138 =
      Bytes.window data byteOffset 4 ++ (Bytes.window data (byteOffset + 4) 4 ++
        (Bytes.window data (byteOffset + 8) 65 ++ Bytes.window data (byteOffset + 73) 65)) := by
    rw [← Bytes.window_add, ← Bytes.window_add, ← Bytes.window_add]
  simp only [redeemSlicesAt, RedeemRecord.slices, RedeemSlices.mk.injEq, uint32At_eq_iff]
  rw [hsplit, RedeemRecord.bytes]
  constructor
  · rintro ⟨hindex, hu, hcommit, hinv⟩
    rw [hindex, hu, hcommit, hinv]
  · intro h
    obtain ⟨hindex, h⟩ := List.append_inj h (by simp)
    obtain ⟨hu, h⟩ := List.append_inj h (by simp)
    obtain ⟨hcommit, hinv⟩ := List.append_inj h (by simp)
    exact ⟨hindex, hu, hcommit, hinv⟩

theorem burnSlicesAt_eq_iff (data : List UInt8) (byteOffset : ℕ) (r : BurnRecord) :
    burnSlicesAt data byteOffset = r.slices ↔ Bytes.window data byteOffset 74 = r.bytes := by
  have hsplit : Bytes.window data byteOffset 74 =
      Bytes.window data byteOffset 4 ++ (Bytes.window data (byteOffset + 4) 4 ++
        (Bytes.window data (byteOffset + 8) 1 ++ Bytes.window data (byteOffset + 9) 65)) := by
    rw [← Bytes.window_add, ← Bytes.window_add, ← Bytes.window_add]
  simp only [burnSlicesAt, BurnRecord.slices, BurnSlices.mk.injEq, uint32At_eq_iff, uint8At_eq_iff]
  rw [hsplit, BurnRecord.bytes]
  constructor
  · rintro ⟨hindex, hu, htype, hcommit⟩
    rw [hindex, hu, htype, hcommit]
  · intro h
    obtain ⟨hindex, h⟩ := List.append_inj h (by simp)
    obtain ⟨hu, h⟩ := List.append_inj h (by simp)
    obtain ⟨htype, hcommit⟩ := List.append_inj h (by simp)
    exact ⟨hindex, hu, htype, hcommit⟩

/-! ## Batches of blocks -/

/-- The loop over a packed batch reads every record as it is, and none of the others with it. -/
structure Framed {ρ β : Type} (calldata : List ρ → List UInt8) (iteration : List UInt8 → ℕ → β)
    (slices : ρ → β) (rs : List ρ) : Prop where
  count : countOf (calldata rs) = rs.length
  own : ∀ (i : ℕ) (hi : i < rs.length), iteration (calldata rs) i = slices rs[i]
  others : ∀ i < rs.length, ∀ j ≠ i, ∀ r,
    iteration (calldata (rs.set j r)) i = iteration (calldata rs) i

/-- The window over block `i` of a batch. -/
theorem window_block {α : Type} {f : α → List UInt8} {n : ℕ} (hf : ∀ x, (f x).length = n)
    (header : List UInt8) (xs : List α) {i : ℕ} (hi : i < xs.length) :
    Bytes.window (header ++ xs.flatMap f) (header.length + n * i) n = f xs[i] := by
  obtain ⟨pre, post, hflat, hpre⟩ := flatMap_eq_block hf xs hi
  have hself := Bytes.window_self (header ++ pre) (f xs[i]) post
  rw [List.length_append, hpre, List.append_assoc, hf] at hself
  rw [hflat, hself]

theorem redeemCalldata_eq (toAddress : Address) (rs : List RedeemRecord) :
    redeemCalldata toAddress rs =
      batchHeader toAddress rs.length ++ rs.flatMap RedeemRecord.bytes := by
  have hbytes : RedeemRecord.bytes = fun r => Bytes.be 4 r.index.toNat ++ Bytes.be 4 r.u.toNat ++
      Bytes.be 32 r.commitSignature.r.toNat ++ Bytes.be 32 r.commitSignature.s.toNat ++
      [r.commitSignature.v] ++ Bytes.be 32 r.invalidatingSignature.r.toNat ++
      Bytes.be 32 r.invalidatingSignature.s.toNat ++ [r.invalidatingSignature.v] := by
    funext r
    simp only [RedeemRecord.bytes, EcdsaSignature.bytes, List.append_assoc]
  rw [hbytes]
  rfl

/-- Every record of a `burnCommits` batch is read where it lies. -/
theorem burnIteration_burnCalldata (toAddress : Address) (bs : List BurnRecord) {i : ℕ}
    (hi : i < bs.length) : burnIteration (burnCalldata toAddress bs) i = bs[i].slices := by
  have hblock := window_block BurnRecord.length_bytes (batchHeader toAddress bs.length) bs hi
  rw [length_batchHeader, ← burnCalldata_eq] at hblock
  exact (burnSlicesAt_eq_iff _ _ _).mpr hblock

theorem framed_burnCalldata (toAddress : Address) {bs : List BurnRecord} (h : bs.length < 2 ^ 16) :
    Framed (burnCalldata toAddress) burnIteration BurnRecord.slices bs where
  count := by rw [burnCalldata_eq, countOf_batchHeader _ h]
  own _ hi := burnIteration_burnCalldata toAddress bs hi
  others i hi j hj r := by
    have hset : i < (bs.set j r).length := by rwa [List.length_set]
    rw [burnIteration_burnCalldata _ _ hset, burnIteration_burnCalldata _ _ hi,
      List.getElem_set_ne hj]

/-! ## The loop of `redeemdType2` -/

/-- Every byte of the record is zero. -/
def RedeemRecord.Blank (r : RedeemRecord) : Prop := r.bytes = List.replicate 138 0

instance (r : RedeemRecord) : Decidable r.Blank := inferInstanceAs (Decidable (_ = _))

/-- What iteration `i` reads begins `i` bytes behind the start of record `i`. -/
theorem redeemIteration_eq_iff (toAddress : Address) (rs : List RedeemRecord) (i : ℕ)
    (r : RedeemRecord) : redeemIteration (redeemCalldata toAddress rs) i = r.slices ↔
      Bytes.window (rs.flatMap RedeemRecord.bytes) (139 * i) 138 = r.bytes := by
  have hskip := Bytes.window_append (batchHeader toAddress rs.length)
    (rs.flatMap RedeemRecord.bytes) (139 * i) 138
  rw [length_batchHeader] at hskip
  rw [redeemIteration, redeemSlicesAt_eq_iff, redeemCalldata_eq, hskip]

/-- The first record is read where it lies. -/
theorem redeemIteration_zero (toAddress : Address) (rs : List RedeemRecord) (h : 0 < rs.length) :
    redeemIteration (redeemCalldata toAddress rs) 0 = rs[0].slices := by
  have hblock := window_block RedeemRecord.length_bytes [] rs h
  exact (redeemIteration_eq_iff toAddress rs 0 rs[0]).mpr hblock

/-- What iteration 1 reads of a batch of two is the second record from its second byte on. -/
theorem redeemIteration_one (toAddress : Address) (r₀ r₁ r : RedeemRecord) :
    redeemIteration (redeemCalldata toAddress [r₀, r₁]) 1 = r.slices ↔
      Bytes.window r₁.bytes 1 138 = r.bytes := by
  have hskip := Bytes.window_append r₀.bytes r₁.bytes 1 138
  rw [r₀.length_bytes] at hskip
  have hflat : [r₀, r₁].flatMap RedeemRecord.bytes = r₀.bytes ++ r₁.bytes := by simp
  rw [redeemIteration_eq_iff, hflat, hskip]

theorem redeemIteration_one_iff (toAddress : Address) (r₀ r₁ : RedeemRecord) :
    redeemIteration (redeemCalldata toAddress [r₀, r₁]) 1 = r₁.slices ↔ r₁.Blank := by
  rw [redeemIteration_one, RedeemRecord.Blank]
  constructor
  · intro h
    rw [← r₁.length_bytes] at h
    have hzero := Bytes.eq_replicate_of_window h
    rwa [r₁.length_bytes] at hzero
  · intro h
    rw [h, Bytes.window_replicate]

/-- Iteration 1 reads the first byte of the third record as the `v` of a signature. -/
theorem getD_redeemIteration_one (toAddress : Address) (rs : List RedeemRecord)
    (h : 2 < rs.length) :
    (redeemIteration (redeemCalldata toAddress rs) 1).invalidatingSignature.getD 64 0 =
      rs[2].bytes.getD 0 0 := by
  have hblock := window_block RedeemRecord.length_bytes (batchHeader toAddress rs.length) rs h
  rw [length_batchHeader, ← redeemCalldata_eq] at hblock
  have hslice : (redeemIteration (redeemCalldata toAddress rs) 1).invalidatingSignature =
      Bytes.window (redeemCalldata toAddress rs) 238 65 := rfl
  rw [hslice, Bytes.getD_window _ _ (by omega), ← hblock, Bytes.getD_window _ _ (by omega)]

theorem redeemIteration_of_blank (toAddress : Address) {rs : List RedeemRecord}
    (hlen : rs.length ≤ 2) (hblank : ∀ r ∈ rs.tail, r.Blank) {i : ℕ} (hi : i < rs.length) :
    redeemIteration (redeemCalldata toAddress rs) i = rs[i].slices := by
  cases i with
  | zero => exact redeemIteration_zero toAddress rs hi
  | succ i =>
    obtain ⟨r₀, r₁, rfl⟩ := List.length_eq_two.mp (show rs.length = 2 by omega)
    obtain rfl : i = 0 := by
      rw [List.length_cons, List.length_singleton] at hi
      omega
    exact (redeemIteration_one_iff toAddress r₀ r₁).mpr (hblank r₁ List.mem_cons_self)

/-- Replacing the record in front leaves the blank record behind it. -/
theorem blank_set {rs : List RedeemRecord} (hlen : rs.length ≤ 2) (hblank : ∀ r ∈ rs.tail, r.Blank)
    {j : ℕ} (hj : j ≠ 1) (r : RedeemRecord) : ∀ r' ∈ (rs.set j r).tail, r'.Blank := by
  cases j with
  | zero =>
    cases rs with
    | nil => exact hblank
    | cons r₀ rs => exact hblank
  | succ j =>
    rw [List.set_eq_of_length_le (by omega)]
    exact hblank

theorem framed_redeemCalldata_iff (toAddress : Address) {rs : List RedeemRecord}
    (hlt : rs.length < 2 ^ 16) :
    Framed (redeemCalldata toAddress) redeemIteration RedeemRecord.slices rs ↔
      rs.length ≤ 2 ∧ ∀ r ∈ rs.tail, r.Blank := by
  constructor
  · intro hframed
    have hlen : rs.length ≤ 2 := by
      by_contra hlong
      have hthree : 2 < rs.length := by omega
      -- the `v` that iteration 1 reads follows the first byte of the third record
      have hbyte : ∀ r : RedeemRecord, rs[2].bytes.getD 0 0 = r.bytes.getD 0 0 := by
        intro r
        have hset : 2 < (rs.set 2 r).length := by rwa [List.length_set]
        have hsame := hframed.others 1 (by omega) 2 (by decide) r
        have hread := getD_redeemIteration_one toAddress (rs.set 2 r) hset
        rwa [hsame, getD_redeemIteration_one toAddress rs hthree, List.getElem_set_self] at hread
      have hdiffer := (hbyte ⟨0, 0, ⟨0, 0, 0⟩, ⟨0, 0, 0⟩⟩).symm.trans
        (hbyte ⟨0x01000000, 0, ⟨0, 0, 0⟩, ⟨0, 0, 0⟩⟩)
      revert hdiffer
      decide +kernel
    refine ⟨hlen, fun r hr => ?_⟩
    obtain ⟨r₀, r₁, rfl⟩ : ∃ r₀ r₁, rs = [r₀, r₁] := by
      have htail := List.length_pos_of_mem hr
      rw [List.length_tail] at htail
      exact List.length_eq_two.mp (by omega)
    obtain rfl := List.mem_singleton.mp hr
    exact (redeemIteration_one_iff toAddress r₀ r).mp (hframed.own 1 Nat.one_lt_two)
  · rintro ⟨hlen, hblank⟩
    refine ⟨?_, fun i hi => redeemIteration_of_blank toAddress hlen hblank hi, ?_⟩
    · rw [redeemCalldata_eq, countOf_batchHeader _ hlt]
    · intro i hi j hj r
      have hset : i < (rs.set j r).length := by rwa [List.length_set]
      rw [redeemIteration_of_blank toAddress hlen hblank hi]
      cases i with
      | zero => rw [redeemIteration_zero _ _ hset, List.getElem_set_ne hj]
      | succ i =>
        have hj1 : j ≠ 1 := by omega
        rw [redeemIteration_of_blank toAddress (by rwa [List.length_set])
          (blank_set hlen hblank hj1 r) hset, List.getElem_set_ne hj]

/-- Every documented batch of `burnCommits` is read record by record. One of `redeemdType2` is exactly
if it has at most two records and the second is blank. -/
theorem record_framing_iff (toAddress : Address) :
    (∀ bs : List BurnRecord, bs.length < 2 ^ 16 →
      Framed (burnCalldata toAddress) burnIteration BurnRecord.slices bs) ∧
    ∀ rs : List RedeemRecord, rs.length < 2 ^ 16 →
      (Framed (redeemCalldata toAddress) redeemIteration RedeemRecord.slices rs ↔
        rs.length ≤ 2 ∧ ∀ r ∈ rs.tail, r.Blank) :=
  ⟨fun _ h => framed_burnCalldata toAddress h, fun _ h => framed_redeemCalldata_iff toAddress h⟩

/-- Of the records with the indexes 1 and 2, the second is read with the index 512. -/
theorem not_record_framing :
    (¬ ∀ (toAddress : Address) (rs : List RedeemRecord), rs.length < 2 ^ 16 →
      Framed (redeemCalldata toAddress) redeemIteration RedeemRecord.slices rs) ∧
    (redeemIteration (redeemCalldata 9 [⟨1, 0, ⟨7, 0, 27⟩, ⟨7, 0, 27⟩⟩,
      ⟨2, 0, ⟨7, 0, 27⟩, ⟨7, 0, 27⟩⟩]) 1).index = 512 := by
  refine ⟨fun h => ?_, by decide +kernel⟩
  have hread := (h 9 [⟨1, 0, ⟨7, 0, 27⟩, ⟨7, 0, 27⟩⟩, ⟨2, 0, ⟨7, 0, 27⟩, ⟨7, 0, 27⟩⟩]
    (by decide)).own 1 (by decide)
  revert hread
  decide +kernel

end Dse
