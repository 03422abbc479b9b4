import Dse.Node.Indexer
import Dse.Node.Proofs.StorageProofs
import Dse.Node.Wire

/-!
# What arrives of a message

`write_request` and `write_response` write a message of any size, `read_request` and `read_response`
refuse one of more than 1000000 bytes. The requests of a node have no bound of their own: an `Update`
carries the whole history of a wallet.
-/

namespace Dse

/-! ## The round trip -/

namespace RequestResponse

variable {Request Response : Type} {codec : RequestResponse Request Response}

/-- What was written comes back exactly if it has at most 1000000 bytes. -/
theorem Lawful.request_iff (h : codec.Lawful) {v : Request} {bytes io : List UInt8}
    (hv : codec.request.toVec v = some bytes) (hio : codec.writeRequest v = some io) :
    codec.readRequest io = some v ↔ bytes.length ≤ 1000000 :=
  h.framing.read_write_iff h.request hv hio

theorem Lawful.response_iff (h : codec.Lawful) {v : Response} {bytes io : List UInt8}
    (hv : codec.response.toVec v = some bytes) (hio : codec.writeResponse v = some io) :
    codec.readResponse io = some v ↔ bytes.length ≤ 1000000 :=
  h.framing.read_write_iff h.response hv hio

end RequestResponse

/-- The requests and responses of both protocols come back exactly if they have at most 1000000
bytes. -/
theorem wire_round_trip_iff {exchange : ExchangeCodec} {commit : CommitCodec}
    (he : exchange.Lawful) (hc : commit.Lawful) :
    (∀ (v : ExchangeRequest) bytes io, exchange.request.toVec v = some bytes →
      exchange.writeRequest v = some io →
        (exchange.readRequest io = some v ↔ bytes.length ≤ 1000000)) ∧
    (∀ (v : ExchangeResponse) bytes io, exchange.response.toVec v = some bytes →
      exchange.writeResponse v = some io →
        (exchange.readResponse io = some v ↔ bytes.length ≤ 1000000)) ∧
    (∀ (v : CommitRequest) bytes io, commit.request.toVec v = some bytes →
      commit.writeRequest v = some io →
        (commit.readRequest io = some v ↔ bytes.length ≤ 1000000)) ∧
    (∀ (v : CommitResponse) bytes io, commit.response.toVec v = some bytes →
      commit.writeResponse v = some io →
        (commit.readResponse io = some v ↔ bytes.length ≤ 1000000)) :=
  ⟨fun _ _ _ => he.request_iff, fun _ _ _ => he.response_iff, fun _ _ _ => hc.request_iff,
    fun _ _ _ => hc.response_iff⟩

/-! ## The text of a commit request -/

namespace Json

def ascii (s : String) : List UInt8 := s.toList.map fun c => .ofNat c.toNat

/-- Values with commas between them. -/
def items (values : List (List UInt8)) : List UInt8 := [44].intercalate values

def array (values : List (List UInt8)) : List UInt8 := [91] ++ items values ++ [93]

def string (s : List UInt8) : List UInt8 := [34] ++ s ++ [34]

def object (fields : List (String × List UInt8)) : List UInt8 :=
  [123] ++ items (fields.map fun f => string (ascii f.1) ++ [58] ++ f.2) ++ [125]

def nat (n : ℕ) : List UInt8 := ascii (toString n)

/-- The digits of a number to the base 16, at least `width` of them. -/
def hex (width n : ℕ) : List UInt8 :=
  let digits := Nat.toDigits 16 n
  string (ascii "0x" ++ List.replicate (width - digits.length) 48 ++
    digits.map fun c => .ofNat c.toNat)

def option {α : Type} (f : α → List UInt8) : Option α → List UInt8
  | some a => f a
  | none => ascii "null"

def bool (b : Bool) : List UInt8 := ascii (if b then "true" else "false")

def signature (sig : Signature) : List UInt8 :=
  object [("r", hex 1 sig.r.toNat), ("s", hex 1 sig.s.toNat), ("v", nat sig.v.toNat)]

def commitType : CommitType → List UInt8
  | .t1 => string (ascii "T1")
  | .t2 => string (ascii "T2")

def commit (c : Commit) : List UInt8 :=
  object [("indexes", array (c.indexes.map fun i => nat i.toNat)), ("epoch", hex 1 c.epoch.toNat),
    ("u", nat c.u.toNat), ("c_type", commitType c.cType), ("i_address", hex 40 c.iAddress.toNat),
    ("r_address", hex 40 c.rAddress.toNat), ("wallet_address", hex 40 c.walletAddress.toNat),
    ("signature", option signature c.signature),
    ("invalidating_signature", option signature c.invalidatingSignature)]

def commitRequest : CommitRequest → List UInt8
  | .wantHistory walletAddress =>
    object [("WantHistory", object [("wallet_address", hex 40 walletAddress.toNat)])]
  | .update walletAddress commits lastBatch =>
    object [("Update", object [("wallet_address", hex 40 walletAddress.toNat),
      ("commits", array (commits.map commit)), ("last_batch", bool lastBatch)])]

/-! ### Lengths -/

theorem sum_le_length_items (values : List (List UInt8)) :
    (values.map List.length).sum ≤ (items values).length := by
  unfold items
  induction values with
  | nil => exact Nat.zero_le _
  | cons v values ih =>
    cases values with
    | nil => simp [List.intercalate]
    | cons u values =>
      have hsplit : ([44] : List UInt8).intercalate (v :: u :: values) =
          v ++ ([44] ++ [44].intercalate (u :: values)) := rfl
      rw [hsplit, List.map_cons, List.sum_cons, List.length_append, List.length_append]
      omega

theorem length_ascii (s : String) : (ascii s).length = s.length := by
  rw [ascii, List.length_map, String.length_toList]

/-- An object has its fields, with their names in quotes and colons. -/
theorem sum_le_length_object (fields : List (String × List UInt8)) :
    (fields.map fun f => f.1.length + 3 + f.2.length).sum ≤ (object fields).length := by
  have hitems := sum_le_length_items (fields.map fun f => string (ascii f.1) ++ [58] ++ f.2)
  have hfields : (fields.map fun f => string (ascii f.1) ++ [58] ++ f.2).map List.length =
      fields.map fun f => f.1.length + 3 + f.2.length := by
    rw [List.map_map]
    refine List.map_congr_left fun f _ => ?_
    simp only [Function.comp_apply, string, List.length_append, length_ascii,
      List.length_singleton]
    omega
  rw [hfields] at hitems
  unfold object
  rw [List.length_append, List.length_append]
  omega

/-- A commit is longer than the names of its fields. -/
theorem length_commit (c : Commit) : 100 ≤ (commit c).length := by
  have hnames : "indexes".length + "epoch".length + "u".length + "c_type".length +
      "i_address".length + "r_address".length + "wallet_address".length + "signature".length +
      "invalidating_signature".length = 82 := rfl
  unfold commit
  refine le_trans ?_ (sum_le_length_object _)
  simp only [List.map_cons, List.map_nil, List.sum_cons, List.sum_nil]
  omega

theorem length_array (commits : List Commit) :
    100 * commits.length ≤ (array (commits.map commit)).length := by
  have hsum : 100 * commits.length ≤ ((commits.map commit).map List.length).sum := by
    induction commits with
    | nil => exact le_refl 0
    | cons c commits ih =>
      have hc := length_commit c
      simp only [List.map_cons, List.sum_cons, List.length_cons]
      omega
  have hitems := sum_le_length_items (commits.map commit)
  unfold array
  rw [List.length_append, List.length_append]
  omega

/-- An update has 100 bytes and more for each of its commits. -/
theorem length_update (walletAddress : Address) (commits : List Commit) (lastBatch : Bool) :
    100 * commits.length ≤ (commitRequest (.update walletAddress commits lastBatch)).length := by
  unfold commitRequest
  refine le_trans ?_ (sum_le_length_object _)
  simp only [List.map_cons, List.map_nil, List.sum_cons, List.sum_nil]
  have hobject := sum_le_length_object [("wallet_address", hex 40 walletAddress.toNat),
    ("commits", array (commits.map commit)), ("last_batch", bool lastBatch)]
  simp only [List.map_cons, List.map_nil, List.sum_cons, List.sum_nil] at hobject
  have harray := length_array commits
  omega

end Json

/-! ## A history that does not arrive -/

/-- The commit protocol where the only request ever sent is `v`. -/
def commitCodec (v : CommitRequest) : CommitCodec where
  framing := .lengthPrefixed
  request := .only v (Json.commitRequest v)
  response := .only .ack (Json.string (Json.ascii "Ack"))

theorem lawful_commitCodec (v : CommitRequest) : (commitCodec v).Lawful where
  framing := Framing.lawful_lengthPrefixed
  request := Serde.undoes_only _ _
  response := Serde.undoes_only _ _

theorem commitCodec_toVec (v : CommitRequest) :
    (commitCodec v).request.toVec v = some (Json.commitRequest v) :=
  Serde.only_toVec _ _

theorem commitCodec_writeRequest (v : CommitRequest) :
    (commitCodec v).writeRequest v = Framing.lengthPrefixed.write (Json.commitRequest v) := by
  unfold RequestResponse.writeRequest
  rw [commitCodec_toVec]
  rfl

/-- The exchange protocol where only `T2CommitValid` for trade 6 is sent. -/
def exchangeCodec : ExchangeCodec where
  framing := .lengthPrefixed
  request := .only (.t2CommitValid 6)
    (Json.object [("T2CommitValid", Json.object [("trade_id", Json.nat 6)])])
  response := .only .ack (Json.string (Json.ascii "Ack"))

theorem lawful_exchangeCodec : exchangeCodec.Lawful where
  framing := Framing.lawful_lengthPrefixed
  request := Serde.undoes_only _ _
  response := Serde.undoes_only _ _

/-- The request for the history of wallet 8 comes back. -/
theorem wire_round_trip_iff_wantHistory :
    ((commitCodec (.wantHistory 8)).writeRequest (.wantHistory 8)).bind
      (commitCodec (.wantHistory 8)).readRequest = some (.wantHistory 8) := by
  obtain ⟨-, -, hrequest, -⟩ :=
    wire_round_trip_iff lawful_exchangeCodec (lawful_commitCodec (.wantHistory 8))
  have hwrite := commitCodec_writeRequest (.wantHistory 8)
  have hlen : (Json.commitRequest (.wantHistory 8)).length ≤ 1000000 := by decide
  have hread := (hrequest _ _ _ (commitCodec_toVec _) hwrite).mpr hlen
  rw [hwrite]
  exact hread

/-- A database with the commits for wallet 8. -/
def historyStorage (commits : List Commit) : Storage :=
  Storage.new.addCommitsToCommitHistory 8 commits

theorem findCommitHistory_historyStorage (commits : List Commit) :
    (historyStorage commits).findCommitHistory 8 = some ⟨8, commits⟩ := by
  unfold historyStorage Storage.addCommitsToCommitHistory
  rw [Storage.findCommitHistory_putCommitHistory]
  exact if_pos rfl

/-- A node answers a request for a history with all the commits in one update. -/
theorem mem_act_wantHistory (commits : List Commit) (peer : PeerId) (requestId : ℕ) :
    .sendCommitRequest peer (.update 8 commits true) ∈
      ((Node.start (historyStorage commits)).act plainEnv
        (.network (.commitRequest peer requestId (.wantHistory 8)))).2 := by
  unfold Node.act Node.handleNetworkEvent Node.start
  dsimp only
  rw [findCommitHistory_historyStorage]
  exact List.mem_cons_of_mem _ List.mem_cons_self

/-- A history of 10001 commits. -/
def longHistory : List Commit := List.replicate 10001 (plainCommit 6)

/-- A node with the long history sends it in an update that its peer refuses. -/
theorem not_wire_round_trip_longHistory :
    Command.sendCommitRequest ⟨[2]⟩ (.update 8 longHistory true) ∈
      ((Node.start (historyStorage longHistory)).act plainEnv
        (.network (.commitRequest ⟨[2]⟩ 0 (.wantHistory 8)))).2 ∧
    ¬ ∀ commit : CommitCodec, commit.Lawful → ∀ io,
      commit.writeRequest (.update 8 longHistory true) = some io →
        commit.readRequest io = some (.update 8 longHistory true) := by
  refine ⟨mem_act_wantHistory longHistory ⟨[2]⟩ 0, fun h => ?_⟩
  let v : CommitRequest := .update 8 longHistory true
  have hback := h (commitCodec v) (lawful_commitCodec v) _ (commitCodec_writeRequest v)
  have hfits : (Json.commitRequest v).length ≤ 1000000 :=
    ((lawful_commitCodec v).request_iff (commitCodec_toVec v) (commitCodec_writeRequest v)).mp hback
  have hlong : longHistory.length = 10001 := List.length_replicate
  have hlen := Json.length_update 8 longHistory true
  rw [hlong] at hlen
  have hbytes : 100 * 10001 ≤ (Json.commitRequest v).length := hlen
  omega

end Dse
