import Mathlib.Data.Nat.Digits.Defs

/-!
# Messages on a byte stream

A message is serialized, and its bytes are written as one frame. A frame says how long its payload
is, and a reader refuses a frame that is longer than it wants to read. So a message comes back from
the stream exactly if the reader's limit admits it, whatever the limit of the writer is. The frames
with a length prefix of seven bits a byte (`Framing.lengthPrefixed`) are an instance.
-/

/-- A serializer, which may fail, and the deserializer that belongs to it. -/
structure Serde (α : Type*) where
  toVec : α → Option (List UInt8)
  fromSlice : List UInt8 → Option α

/-- What was serialized is read back. -/
def Serde.Undoes {α : Type*} (serde : Serde α) : Prop :=
  ∀ v bytes, serde.toVec v = some bytes → serde.fromSlice bytes = some v

/-- A serializer that knows one message. -/
def Serde.only {α : Type*} [DecidableEq α] (v : α) (bytes : List UInt8) : Serde α where
  toVec u := if u = v then some bytes else none
  fromSlice b := if b = bytes then some v else none

theorem Serde.only_toVec {α : Type*} [DecidableEq α] (v : α) (bytes : List UInt8) :
    (Serde.only v bytes).toVec v = some bytes :=
  if_pos rfl

theorem Serde.undoes_only {α : Type*} [DecidableEq α] (v : α) (bytes : List UInt8) :
    (Serde.only v bytes).Undoes := by
  intro u b h
  have hif : (if u = v then some bytes else none) = some b := h
  by_cases hu : u = v
  · rw [if_pos hu] at hif
    subst hu
    exact if_pos (Option.some.inj hif).symm
  · rw [if_neg hu] at hif
    cases hif

/-- How a payload is put into a frame, and read out of a stream by a reader with a limit. -/
structure Framing where
  write : List UInt8 → Option (List UInt8)
  read : List UInt8 → ℕ → Option (List UInt8)

namespace Framing

/-- A payload comes back from its frame if the reader's limit admits it, and is refused otherwise. -/
structure Lawful (framing : Framing) : Prop where
  undoes : ∀ payload io m, framing.write payload = some io → payload.length ≤ m →
    framing.read io m = some payload
  refuses : ∀ payload io m, framing.write payload = some io → m < payload.length →
    framing.read io m = none

variable {α : Type*}

/-- A message as a frame. -/
def writeMessage (framing : Framing) (serde : Serde α) (v : α) : Option (List UInt8) :=
  (serde.toVec v).bind framing.write

/-- The message in the next frame of the stream. -/
def readMessage (framing : Framing) (serde : Serde α) (maxSize : ℕ) (io : List UInt8) : Option α :=
  (framing.read io maxSize).bind serde.fromSlice

/-- A message comes back exactly if the reader's limit admits its bytes. -/
theorem Lawful.read_write_iff {framing : Framing} (hf : framing.Lawful) {serde : Serde α}
    (hs : serde.Undoes) {maxSize : ℕ} {v : α} {bytes io : List UInt8}
    (hv : serde.toVec v = some bytes) (hio : framing.writeMessage serde v = some io) :
    framing.readMessage serde maxSize io = some v ↔ bytes.length ≤ maxSize := by
  have hframe : framing.write bytes = some io := by
    unfold writeMessage at hio
    rw [hv] at hio
    exact hio
  unfold readMessage
  by_cases hlen : bytes.length ≤ maxSize
  · rw [hf.undoes bytes io maxSize hframe hlen]
    exact iff_of_true (hs v bytes hv) hlen
  · rw [hf.refuses bytes io maxSize hframe (Nat.lt_of_not_le hlen)]
    exact iff_of_false (by simp) hlen

/-! ## Length prefixes -/

/-- The digits of a number to the base 128, a byte each, with the high bit set on all but the last. -/
def groups : List ℕ → List UInt8
  | [] => [0]
  | [d] => [.ofNat d]
  | d :: ds => .ofNat (d + 128) :: groups ds

def varint (n : ℕ) : List UInt8 := groups (Nat.digits 128 n)

/-- The number at the front of a stream, and the rest of the stream. -/
def readVarint : List UInt8 → Option (ℕ × List UInt8)
  | [] => none
  | b :: io =>
    if b.toNat < 128 then some (b.toNat, io)
    else (readVarint io).map fun (n, io) => (b.toNat - 128 + 128 * n, io)

theorem readVarint_groups {ds : List ℕ} (h : ∀ d ∈ ds, d < 128) (io : List UInt8) :
    readVarint (groups ds ++ io) = some (Nat.ofDigits 128 ds, io) := by
  have hbyte : ∀ n, n < 256 → (UInt8.ofNat n).toNat = n := by
    intro n hn
    rw [UInt8.toNat_ofNat', Nat.mod_eq_of_lt hn]
  induction ds using groups.induct with
  | case1 => rfl
  | case2 d =>
    have hd := h d List.mem_cons_self
    have hval := hbyte d (by omega)
    show (if (UInt8.ofNat d).toNat < 128 then _ else _) = _
    rw [hval, if_pos hd, Nat.ofDigits_singleton]
    rfl
  | case3 d ds hne ih =>
    have hd := h d List.mem_cons_self
    have hval := hbyte (d + 128) (by omega)
    have hrest := ih fun d' hd' => h d' (List.mem_cons_of_mem _ hd')
    rw [groups.eq_3 d ds hne]
    show (if (UInt8.ofNat (d + 128)).toNat < 128 then _ else _) = _
    rw [hval, if_neg (by omega)]
    show (readVarint (groups ds ++ io)).map _ = _
    rw [hrest, Option.map_some, Nat.ofDigits_cons, Nat.add_sub_cancel]

theorem readVarint_varint (n : ℕ) (io : List UInt8) : readVarint (varint n ++ io) = some (n, io) := by
  have hdigits : ∀ d ∈ Nat.digits 128 n, d < 128 := fun d hd => Nat.digits_lt_base (by omega) hd
  rw [varint, readVarint_groups hdigits, Nat.ofDigits_digits]

/-- Frames that begin with the length of the payload. -/
def lengthPrefixed : Framing where
  write payload := some (varint payload.length ++ payload)
  read io maxSize := (readVarint io).bind fun (len, io) =>
    if maxSize < len ∨ io.length < len then none else some (io.take len)

theorem read_lengthPrefixed (payload : List UInt8) (maxSize : ℕ) :
    lengthPrefixed.read (varint payload.length ++ payload) maxSize =
      if maxSize < payload.length ∨ payload.length < payload.length then none
      else some (payload.take payload.length) := by
  unfold lengthPrefixed
  dsimp only
  rw [readVarint_varint]
  rfl

theorem lawful_lengthPrefixed : lengthPrefixed.Lawful where
  undoes payload io m hio hlen := by
    obtain rfl := Option.some.inj hio
    rw [read_lengthPrefixed, if_neg (by omega), List.take_length]
  refuses payload io m hio hlen := by
    obtain rfl := Option.some.inj hio
    rw [read_lengthPrefixed, if_pos (Or.inl hlen)]

end Framing
