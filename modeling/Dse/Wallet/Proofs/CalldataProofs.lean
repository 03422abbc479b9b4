import Dse.Wallet.Chain

/-!
# Reading a batch back from its calldata

A batch is a 26-byte header and its records. An iteration reads its record field by field, except
for the `v` of a signature, which it takes from the first byte of `s` and not from the byte behind
it: a record is read as itself with every `v` replaced by that byte (`asRead`). The records of a
`burnCommits` batch lie back to back. The loop of `redeemdType2` steps over 139 bytes, one more than
a record has, so its records are read back when a spare byte follows each of them.
-/

namespace Dse

/-! ## Fields -/

theorem toNat_calldataload (data : List UInt8) (i : ℕ) :
    (calldataload data i).toNat = Bytes.ofBE (Bytes.window data i 32) := by
  have hlt := Bytes.ofBE_lt (Bytes.window data i 32)
  rw [Bytes.length_window] at hlt
  have hword : (256 : ℕ) ^ 32 = 2 ^ 256 := by norm_num
  rw [calldataload, BitVec.toNat_ofNat, Nat.mod_eq_of_lt (hword ▸ hlt)]

/-- A word shifted down to its first `n` bytes. -/
theorem calldataload_shift (data : List UInt8) (i : ℕ) {n : ℕ} (h : n ≤ 32) :
    (calldataload data i >>> (8 * (32 - n))).toNat = Bytes.ofBE (Bytes.window data i n) := by
  rw [BitVec.toNat_ushiftRight, toNat_calldataload, Nat.shiftRight_eq_div_pow, Nat.pow_mul]
  exact Bytes.ofBE_window_div data i h

theorem calldataload_be (pre post : List UInt8) (n x : ℕ) (hn : n ≤ 32) (hx : x < 256 ^ n) :
    (calldataload (pre ++ (Bytes.be n x ++ post)) pre.length >>> (8 * (32 - n))).toNat = x := by
  have hself := Bytes.window_self pre (Bytes.be n x) post
  rw [Bytes.length_be] at hself
  rw [calldataload_shift _ _ hn, hself, Bytes.ofBE_be, Nat.mod_eq_of_lt hx]

theorem uint32At_eq_iff (data : List UInt8) (i : ℕ) (x : U32) :
    uint32At data i = x ↔ Bytes.window data i 4 = Bytes.be 4 x.toNat := by
  have hload := calldataload_shift data i (show 4 ≤ 32 by omega)
  have hlt := Bytes.ofBE_lt (Bytes.window data i 4)
  have hbytes := Bytes.be_ofBE (Bytes.window data i 4)
  rw [Bytes.length_window] at hlt hbytes
  have hread : (uint32At data i).toNat = Bytes.ofBE (Bytes.window data i 4) := by
    rw [uint32At, BitVec.toNat_setWidth, hload]
    exact Nat.mod_eq_of_lt (by omega)
  constructor
  · rintro rfl
    rw [hread, hbytes]
  · intro h
    apply BitVec.eq_of_toNat_eq
    rw [hread, h, Bytes.ofBE_be]
    exact Nat.mod_eq_of_lt x.isLt

theorem uint8At_eq_iff (data : List UInt8) (i : ℕ) (x : UInt8) :
    uint8At data i = x ↔ Bytes.window data i 1 = [x] := by
  have hload := calldataload_shift data i (show 1 ≤ 32 by omega)
  have hwindow : Bytes.window data i 1 = [data.getD i 0] := rfl
  have hread : uint8At data i = data.getD i 0 := by
    rw [uint8At, hload, hwindow]
    simp [Bytes.ofBE, Bytes.ofLE]
  rw [hread, hwindow, List.singleton_inj]

theorem uint32At_be (pre post : List UInt8) (x : U32) :
    uint32At (pre ++ (Bytes.be 4 x.toNat ++ post)) pre.length = x := by
  rw [uint32At_eq_iff]
  have hself := Bytes.window_self pre (Bytes.be 4 x.toNat) post
  rwa [Bytes.length_be] at hself

theorem uint8At_singleton (pre post : List UInt8) (x : UInt8) :
    uint8At (pre ++ (x :: post)) pre.length = x := by
  rw [uint8At_eq_iff]
  exact Bytes.window_self pre [x] post

theorem calldataload_word (pre post : List UInt8) (x : U256) :
    calldataload (pre ++ (Bytes.be 32 x.toNat ++ post)) pre.length = x := by
  have h := calldataload_be pre post 32 x.toNat (le_refl 32) (by have := x.isLt; omega)
  apply BitVec.eq_of_toNat_eq
  rw [Nat.sub_self, Nat.mul_zero, BitVec.ushiftRight_zero] at h
  exact h

/-- The signature that `recoverSigner` makes of one: its `v` is the first byte of `s`. -/
def EcdsaSignature.asRead (sig : EcdsaSignature) : EcdsaSignature :=
  { sig with v := UInt8.ofNat (sig.s >>> 248).toNat }

/-- The bytes of a signature, `r`, `s` and `v`. -/
def EcdsaSignature.bytes (sig : EcdsaSignature) : List UInt8 :=
  Bytes.be 32 sig.r.toNat ++ Bytes.be 32 sig.s.toNat ++ [sig.v]

@[simp] theorem EcdsaSignature.length_bytes (sig : EcdsaSignature) : sig.bytes.length = 65 := by
  simp [bytes]

theorem signatureAt_bytes (pre post : List UInt8) (sig : EcdsaSignature) :
    signatureAt (pre ++ (sig.bytes ++ post)) pre.length = sig.asRead := by
  have hr := calldataload_word pre (Bytes.be 32 sig.s.toNat ++ ([sig.v] ++ post)) sig.r
  have hs := calldataload_word (pre ++ Bytes.be 32 sig.r.toNat) ([sig.v] ++ post) sig.s
  rw [List.length_append, Bytes.length_be, List.append_assoc] at hs
  simp only [signatureAt, EcdsaSignature.asRead, EcdsaSignature.bytes, List.append_assoc, hr, hs]

/-! ## Records -/

/-- The bytes of a record of a `redeemdType2` batch. -/
def RedeemRecord.bytes (r : RedeemRecord) : List UInt8 :=
  Bytes.be 4 r.index.toNat ++ (Bytes.be 4 r.u.toNat ++ (r.commitSignature.bytes ++
    r.invalidatingSignature.bytes))

/-- The bytes of a record of a `burnCommits` batch. -/
def BurnRecord.bytes (r : BurnRecord) : List UInt8 :=
  Bytes.be 4 r.index.toNat ++ (Bytes.be 4 r.u.toNat ++ ([r.ctype] ++ r.commitSignature.bytes))

@[simp] theorem RedeemRecord.length_bytes (r : RedeemRecord) : r.bytes.length = 138 := by
  simp [bytes]

@[simp] theorem BurnRecord.length_bytes (r : BurnRecord) : r.bytes.length = 74 := by
  simp [bytes]

def RedeemRecord.asRead (r : RedeemRecord) : RedeemRecord :=
  { r with
    commitSignature := r.commitSignature.asRead
    invalidatingSignature := r.invalidatingSignature.asRead }

def BurnRecord.asRead (r : BurnRecord) : BurnRecord :=
  { r with commitSignature := r.commitSignature.asRead }

theorem redeemRecordAt_bytes (pre post : List UInt8) (r : RedeemRecord) :
    redeemRecordAt (pre ++ (r.bytes ++ post)) pre.length = r.asRead := by
  have hindex := uint32At_be pre (Bytes.be 4 r.u.toNat ++ (r.commitSignature.bytes ++
    (r.invalidatingSignature.bytes ++ post))) r.index
  have hu := uint32At_be (pre ++ Bytes.be 4 r.index.toNat) (r.commitSignature.bytes ++
    (r.invalidatingSignature.bytes ++ post)) r.u
  have hcommit := signatureAt_bytes (pre ++ Bytes.be 4 r.index.toNat ++ Bytes.be 4 r.u.toNat)
    (r.invalidatingSignature.bytes ++ post) r.commitSignature
  have hinv := signatureAt_bytes (pre ++ Bytes.be 4 r.index.toNat ++ Bytes.be 4 r.u.toNat ++
    r.commitSignature.bytes) post r.invalidatingSignature
  simp only [List.length_append, Bytes.length_be, EcdsaSignature.length_bytes, List.append_assoc]
    at hindex hu hcommit hinv
  simp only [redeemRecordAt, RedeemRecord.asRead, RedeemRecord.bytes, List.append_assoc, hindex, hu,
    hcommit, hinv]

theorem burnRecordAt_bytes (pre post : List UInt8) (r : BurnRecord) :
    burnRecordAt (pre ++ (r.bytes ++ post)) pre.length = r.asRead := by
  have hindex := uint32At_be pre (Bytes.be 4 r.u.toNat ++ (r.ctype ::
    (r.commitSignature.bytes ++ post))) r.index
  have hu := uint32At_be (pre ++ Bytes.be 4 r.index.toNat) (r.ctype ::
    (r.commitSignature.bytes ++ post)) r.u
  have htype := uint8At_singleton (pre ++ Bytes.be 4 r.index.toNat ++ Bytes.be 4 r.u.toNat)
    (r.commitSignature.bytes ++ post) r.ctype
  have hcommit := signatureAt_bytes (pre ++ Bytes.be 4 r.index.toNat ++ Bytes.be 4 r.u.toNat ++
    [r.ctype]) post r.commitSignature
  simp only [List.length_append, Bytes.length_be, List.length_singleton, List.append_assoc,
    List.cons_append, List.nil_append] at hindex hu htype hcommit
  simp only [burnRecordAt, BurnRecord.asRead, BurnRecord.bytes, List.append_assoc,
    List.cons_append, List.nil_append, hindex, hu, htype, hcommit]

/-! ## Batches -/

/-- The header of a batch: the selector, the count of records and the address. -/
def batchHeader (toAddress : Address) (count : ℕ) : List UInt8 :=
  List.replicate 4 0 ++ Bytes.be 2 count ++ Bytes.be 20 toAddress.toNat

@[simp] theorem length_batchHeader (toAddress : Address) (count : ℕ) :
    (batchHeader toAddress count).length = 26 := by
  simp [batchHeader]

theorem countOf_batchHeader (toAddress : Address) {count : ℕ} (h : count < 2 ^ 16)
    (post : List UInt8) : countOf (batchHeader toAddress count ++ post) = count := by
  have hcount := calldataload_be (List.replicate 4 0) (Bytes.be 20 toAddress.toNat ++ post) 2 count
    (by omega) (by omega)
  rw [List.length_replicate] at hcount
  simpa [countOf, batchHeader, List.append_assoc] using hcount

theorem toAddressOf_batchHeader (toAddress : Address) (count : ℕ) (post : List UInt8) :
    toAddressOf (batchHeader toAddress count ++ post) = toAddress := by
  have haddr := calldataload_be (List.replicate 4 0 ++ Bytes.be 2 count) post 20 toAddress.toNat
    (by omega) (by have := toAddress.isLt; omega)
  simp only [List.length_append, List.length_replicate, Bytes.length_be, List.append_assoc] at haddr
  apply BitVec.eq_of_toNat_eq
  simp only [toAddressOf, batchHeader, List.append_assoc, BitVec.toNat_setWidth]
  rw [show (96 : ℕ) = 8 * (32 - 20) from rfl, haddr, Nat.mod_eq_of_lt toAddress.isLt]

/-- Blocks of one length, back to back: the block `i` and what lies before and behind it. -/
theorem flatMap_eq_block {α : Type} {f : α → List UInt8} {n : ℕ} (hf : ∀ x, (f x).length = n)
    (xs : List α) {i : ℕ} (hi : i < xs.length) :
    ∃ pre post, xs.flatMap f = pre ++ (f xs[i] ++ post) ∧ pre.length = n * i := by
  refine ⟨(xs.take i).flatMap f, (xs.drop (i + 1)).flatMap f, ?_, ?_⟩
  · rw [← List.flatMap_cons, ← List.flatMap_append, ← List.drop_eq_getElem_cons hi,
      List.take_append_drop]
  · have hlen : ∀ ys : List α, (ys.flatMap f).length = n * ys.length := by
      intro ys
      induction ys with
      | nil => simp
      | cons y ys ih =>
        rw [List.flatMap_cons, List.length_append, ih, hf, List.length_cons, Nat.mul_add]
        omega
    rw [hlen, List.length_take, Nat.min_eq_left hi.le]

/-- The iterations of a batch loop, each at the offset of its record. -/
theorem map_range_blocks {α β : Type} {f : α → List UInt8} {n : ℕ} (hf : ∀ x, (f x).length = n)
    {readAt : List UInt8 → ℕ → β} {asRead : α → β}
    (hread : ∀ pre post x, readAt (pre ++ (f x ++ post)) pre.length = asRead x)
    (header : List UInt8) (xs : List α) :
    ((List.range xs.length).map fun i => readAt (header ++ xs.flatMap f) (header.length + n * i)) =
      xs.map asRead := by
  refine List.ext_getElem (by simp) fun i hi _ => ?_
  rw [List.length_map, List.length_range] at hi
  obtain ⟨pre, post, hflat, hpre⟩ := flatMap_eq_block hf xs hi
  have hat := hread (header ++ pre) post xs[i]
  rw [List.length_append, hpre, List.append_assoc] at hat
  rw [List.getElem_map, List.getElem_map, List.getElem_range, hflat, hat]

theorem burnCalldata_eq (toAddress : Address) (rs : List BurnRecord) :
    burnCalldata toAddress rs = batchHeader toAddress rs.length ++ rs.flatMap BurnRecord.bytes := by
  have hbytes : BurnRecord.bytes = fun r => Bytes.be 4 r.index.toNat ++ Bytes.be 4 r.u.toNat ++
      [r.ctype] ++ Bytes.be 32 r.commitSignature.r.toNat ++ Bytes.be 32 r.commitSignature.s.toNat ++
      [r.commitSignature.v] := by
    funext r
    simp only [BurnRecord.bytes, EcdsaSignature.bytes, List.append_assoc]
  rw [hbytes]
  rfl

@[simp] theorem toAddressOf_burnCalldata (toAddress : Address) (rs : List BurnRecord) :
    toAddressOf (burnCalldata toAddress rs) = toAddress := by
  rw [burnCalldata_eq, toAddressOf_batchHeader]

/-- `burnCommits` reads the records that were packed, up to their `v`s. -/
theorem burnRecords_burnCalldata (toAddress : Address) {rs : List BurnRecord}
    (h : rs.length < 2 ^ 16) :
    burnRecords (burnCalldata toAddress rs) = rs.map BurnRecord.asRead := by
  have hblocks := map_range_blocks BurnRecord.length_bytes burnRecordAt_bytes
    (batchHeader toAddress rs.length) rs
  rw [length_batchHeader] at hblocks
  rw [burnCalldata_eq, burnRecords, countOf_batchHeader _ h, hblocks]

/-- The calldata of a `redeemdType2` batch, with a spare byte behind every record. -/
def spacedCalldata (toAddress : Address) (rs : List RedeemRecord) : List UInt8 :=
  batchHeader toAddress rs.length ++ rs.flatMap fun r => r.bytes ++ [0]

@[simp] theorem toAddressOf_spacedCalldata (toAddress : Address) (rs : List RedeemRecord) :
    toAddressOf (spacedCalldata toAddress rs) = toAddress := by
  rw [spacedCalldata, toAddressOf_batchHeader]

/-- `redeemdType2` reads the spaced records, up to their `v`s. -/
theorem redeemRecords_spacedCalldata (toAddress : Address) {rs : List RedeemRecord}
    (h : rs.length < 2 ^ 16) :
    redeemRecords (spacedCalldata toAddress rs) = rs.map RedeemRecord.asRead := by
  have hlen : ∀ r : RedeemRecord, (r.bytes ++ [0]).length = 139 := by
    intro r
    rw [List.length_append, r.length_bytes, List.length_singleton]
  have hread : ∀ pre post (r : RedeemRecord),
      redeemRecordAt (pre ++ ((r.bytes ++ [0]) ++ post)) pre.length = r.asRead := by
    intro pre post r
    rw [List.append_assoc]
    exact redeemRecordAt_bytes pre ([0] ++ post) r
  have hblocks := map_range_blocks hlen hread (batchHeader toAddress rs.length) rs
  rw [length_batchHeader] at hblocks
  rw [spacedCalldata, redeemRecords, countOf_batchHeader _ h, hblocks]

/-! ## What can be read -/

/-- Reading leaves a record that was read as it is. -/
theorem RedeemRecord.asRead_of_mem {data : List UInt8} {r : RedeemRecord}
    (h : r ∈ redeemRecords data) : r.asRead = r := by
  obtain ⟨i, -, rfl⟩ := List.mem_map.mp h
  rfl

theorem BurnRecord.asRead_of_mem {data : List UInt8} {r : BurnRecord}
    (h : r ∈ burnRecords data) : r.asRead = r := by
  obtain ⟨i, -, rfl⟩ := List.mem_map.mp h
  rfl

end Dse
