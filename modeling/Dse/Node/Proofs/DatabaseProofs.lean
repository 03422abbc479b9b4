import Dse.Node.Database
import Dse.Node.Indexer
import Dse.Node.Proofs.StorageProofs

/-!
# The database under the storage

A database backs a `Storage` when its trees hold the same records, serialized, under the bytes
of their keys. Every call keeps that, and the names of the trees tell the trees apart by their
lengths. No call writes the tree that `get_wallets_of_interest` reads: what `add_wallet_of_interest`
writes goes into the tree of the active trades. So no wallet that is added is ever tracked.
-/

namespace Dse

open Database

variable {Blob : Type} {bincode : Bincode Blob} {db db' : Database Blob} {s : Storage}

namespace Database

/-! ## Trees and keys -/

@[simp] theorem openTree_insert_self (tree key : List UInt8) (blob : Blob) :
    (db.insert tree key blob).openTree tree = (db.openTree tree).insert key blob :=
  Function.update_self _ _ _

/-- Names of different lengths are names of different trees. -/
@[simp] theorem openTree_insert_of_length {tree tree' : List UInt8} (h : tree'.length ≠ tree.length)
    (key : List UInt8) (blob : Blob) : (db.insert tree key blob).openTree tree' = db.openTree tree' :=
  Function.update_of_ne (ne_of_apply_ne List.length h) _ _

@[simp] theorem length_activeTradesTree : activeTradesTree.length = 13 := by decide

@[simp] theorem length_queriesSentTree : queriesSentTree.length = 12 := by decide

@[simp] theorem length_queriesReceivedTree : queriesReceivedTree.length = 16 := by decide

@[simp] theorem length_bidsSentTree : bidsSentTree.length = 9 := by decide

@[simp] theorem length_bidsReceivedTree (queryId : U32) :
    (bidsReceivedTree queryId).length = 17 := by
  rw [bidsReceivedTree, List.length_append, Bytes.length_be]
  rfl

@[simp] theorem length_commitHistoryTree : commitHistoryTree.length = 14 := by decide

@[simp] theorem length_iWantsTree : iWantsTree.length = 7 := by decide

@[simp] theorem length_walletsOfInterestName : walletsOfInterestName.length = 19 := by decide

theorem idKey_injective : Function.Injective idKey := fun a b h =>
  BitVec.eq_of_toNat_eq (Bytes.be_inj a.isLt b.isLt h)

theorem walletKey_injective : Function.Injective walletKey := fun a b h =>
  BitVec.eq_of_toNat_eq (Bytes.be_inj a.isLt b.isLt h)

theorem idKey_ne_walletsOfInterestName (id : U32) : idKey id ≠ walletsOfInterestName := by
  intro h
  have hlen := congrArg List.length h
  rw [idKey, Bytes.length_be] at hlen
  cases hlen

end Database

/-! ## What a database backs -/

/-- The tree holds the records of the typed one, serialized, under the bytes of their keys. -/
def Stores {κ ν : Type} [DecidableEq κ] (key : κ → List UInt8) (codec : Codec ν Blob)
    (t : Tree (List UInt8) Blob) (t' : Tree κ ν) : Prop :=
  ∀ k, t.lookup (key k) = (t'.lookup k).map codec.serialize

section Stores

variable {κ ν : Type} [DecidableEq κ] {key : κ → List UInt8} {codec : Codec ν Blob}
  {t : Tree (List UInt8) Blob} {t' : Tree κ ν}

theorem stores_empty : Stores key codec (∅ : Tree (List UInt8) Blob) (∅ : Tree κ ν) := by
  intro k
  simp

theorem Stores.insert (h : Stores key codec t t') (hkey : Function.Injective key) (k : κ) (v : ν) :
    Stores key codec (t.insert (key k) (codec.serialize v) : Tree (List UInt8) Blob)
      (t'.insert k v : Tree κ ν) := by
  intro k'
  by_cases hk : k' = k
  · rw [hk, AList.lookup_insert, AList.lookup_insert]
    rfl
  · rw [AList.lookup_insert_ne hk, AList.lookup_insert_ne (hkey.ne hk), h k']

theorem Stores.insert_other (h : Stores key codec t t') {other : List UInt8}
    (hne : ∀ k, key k ≠ other) (blob : Blob) :
    Stores key codec (t.insert other blob : Tree (List UInt8) Blob) t' := by
  intro k
  rw [AList.lookup_insert_ne (hne k), h k]

theorem Stores.find (h : Stores key codec t t') (k : κ) :
    (t.lookup (key k)).bind codec.deserialize = t'.lookup k := by
  rw [h k]
  cases t'.lookup k with
  | none => rfl
  | some v => exact codec.deserialize_serialize v

end Stores

/-- The database holds what the storage says. -/
@[mk_iff]
structure Backs (bincode : Bincode Blob) (db : Database Blob) (s : Storage) : Prop where
  iWants : Stores idKey bincode.iWant (db.openTree iWantsTree) s.iWants
  activeTrades : Stores idKey bincode.trade (db.openTree activeTradesTree) s.activeTrades
  activeTradesWallets : (db.openTree activeTradesTree).lookup walletsOfInterestName =
    s.activeTradesWallets.map bincode.walletsOfInterest.serialize
  walletsOfInterest : (db.openTree walletsOfInterestName).lookup walletsOfInterestName =
    s.walletsOfInterest.map bincode.walletsOfInterest.serialize
  commitHistories : Stores walletKey bincode.commitHistory (db.openTree commitHistoryTree)
    s.commitHistories
  /-- Nothing else is in the tree of the histories. -/
  histories : ∀ key blob, (db.openTree commitHistoryTree).lookup key = some blob →
    ∃ history : CommitHistory, key = walletKey history.walletAddress ∧
      blob = bincode.commitHistory.serialize history
  queriesSent : Stores idKey bincode.query (db.openTree queriesSentTree) s.queriesSent
  queriesReceived : Stores idKey bincode.query (db.openTree queriesReceivedTree) s.queriesReceived

namespace Backs

theorem new (bincode : Bincode Blob) : Backs bincode .new .new where
  iWants := stores_empty
  activeTrades := stores_empty
  activeTradesWallets := by simp [Database.new, Storage.new]
  walletsOfInterest := by simp [Database.new, Storage.new]
  commitHistories := stores_empty
  histories key blob h := by simp [Database.new] at h
  queriesSent := stores_empty
  queriesReceived := stores_empty

/-! ## Reading -/

theorem findActiveTrade (h : Backs bincode db s) (iid : U32) :
    db.findActiveTrade bincode iid = s.findActiveTrade iid :=
  h.activeTrades.find iid

theorem getWalletsOfInterest (h : Backs bincode db s) :
    db.getWalletsOfInterest bincode = some s.getWalletsOfInterest := by
  unfold Database.getWalletsOfInterest
  rw [h.walletsOfInterest]
  unfold Storage.getWalletsOfInterest
  cases s.walletsOfInterest with
  | none => rfl
  | some wallets => exact bincode.walletsOfInterest.deserialize_serialize wallets

/-- The search through all values finds the one under the wallet's key. -/
theorem findCommitHistory (h : Backs bincode db s) (w : Address) :
    db.findCommitHistory bincode w = s.findCommitHistory w := by
  rw [Storage.findCommitHistory_eq_lookup]
  have hlookup := h.commitHistories w
  unfold Database.findCommitHistory
  cases hf : (db.openTree commitHistoryTree).values.find? fun blob =>
      (bincode.commitHistory.deserialize blob).any fun history =>
        decide (history.walletAddress = w) with
  | none =>
    cases hw : s.commitHistories.lookup w with
    | none => rfl
    | some history =>
      rw [hw] at hlookup
      have hmem : bincode.commitHistory.serialize history ∈
          (db.openTree commitHistoryTree).values := Tree.mem_values.mpr ⟨_, hlookup⟩
      have hno := List.find?_eq_none.mp hf _ hmem
      rw [bincode.commitHistory.deserialize_serialize] at hno
      exact absurd (s.commitHistories_keyed w history hw) (by simpa using hno)
  | some blob =>
    obtain ⟨key, hkey⟩ := Tree.mem_values.mp (List.mem_of_find?_eq_some hf)
    obtain ⟨history, rfl, rfl⟩ := h.histories key blob hkey
    have hfound := List.find?_some hf
    rw [bincode.commitHistory.deserialize_serialize] at hfound
    have hw : history.walletAddress = w := by simpa using hfound
    rw [hw, hlookup] at hkey
    rw [Option.bind_some, bincode.commitHistory.deserialize_serialize]
    obtain ⟨history', hlook, heq⟩ := Option.map_eq_some_iff.mp hkey
    have hsame : some history' = some history := by
      rw [← bincode.commitHistory.deserialize_serialize history', heq,
        bincode.commitHistory.deserialize_serialize]
    rw [hlook, hsame]

/-! ## Writing -/

theorem addIWant (h : Backs bincode db s) (msg : IWant) :
    Backs bincode (db.addIWant bincode msg) (s.addIWant msg) := by
  have hnew := h.iWants.insert idKey_injective msg.id msg
  simpa [backs_iff, Database.addIWant, Storage.addIWant] using ⟨hnew, h.activeTrades,
    h.activeTradesWallets, h.walletsOfInterest, h.commitHistories, h.histories, h.queriesSent,
    h.queriesReceived⟩

theorem addActiveTrade (h : Backs bincode db s) (msg : Trade) :
    Backs bincode (db.addActiveTrade bincode msg) (s.addActiveTrade msg) := by
  have hnew := h.activeTrades.insert idKey_injective msg.id msg
  have hwallets := (idKey_ne_walletsOfInterestName msg.id).symm
  simpa [backs_iff, Database.addActiveTrade, Storage.addActiveTrade,
    AList.lookup_insert_ne hwallets] using ⟨h.iWants, hnew, h.activeTradesWallets,
    h.walletsOfInterest, h.commitHistories, h.histories, h.queriesSent, h.queriesReceived⟩

theorem updateActiveTrade (h : Backs bincode db s) (trade : Trade) :
    Backs bincode (db.updateActiveTrade bincode trade) (s.updateActiveTrade trade) := by
  unfold Database.updateActiveTrade Storage.updateActiveTrade
  rw [h.findActiveTrade]
  cases s.findActiveTrade trade.id with
  | some t => exact h.addActiveTrade trade
  | none => exact h

theorem addQuerySent (h : Backs bincode db s) (query : Query) :
    Backs bincode (db.addQuerySent bincode query) (s.addQuerySent query) := by
  have hnew := h.queriesSent.insert idKey_injective query.id query
  simpa [backs_iff, Database.addQuerySent, Storage.addQuerySent] using ⟨h.iWants,
    h.activeTrades, h.activeTradesWallets, h.walletsOfInterest, h.commitHistories, h.histories,
    hnew, h.queriesReceived⟩

theorem addQueryReceived (h : Backs bincode db s) (query : Query) :
    Backs bincode (db.addQueryReceived bincode query) (s.addQueryReceived query) := by
  have hnew := h.queriesReceived.insert idKey_injective query.id query
  simpa [backs_iff, Database.addQueryReceived, Storage.addQueryReceived] using ⟨h.iWants,
    h.activeTrades, h.activeTradesWallets, h.walletsOfInterest, h.commitHistories, h.histories,
    h.queriesSent, hnew⟩

/-- Bids go into trees of their own. -/
theorem addBidReceivedForQuery (h : Backs bincode db s) (queryId : U32) (bid : Bid) :
    Backs bincode (db.addBidReceivedForQuery bincode queryId bid) s := by
  rw [backs_iff] at h ⊢
  simpa [Database.addBidReceivedForQuery] using h

theorem addBidSentForQuery (h : Backs bincode db s) (bid : Bid) (query : Query) :
    Backs bincode (db.addBidSentForQuery bincode bid query) s := by
  rw [backs_iff] at h ⊢
  simpa [Database.addBidSentForQuery] using h

/-- The set of wallets goes into the tree of the active trades, under a key that is no trade's. -/
theorem addWalletOfInterest (h : Backs bincode db s) (w : Address) :
    ∃ db', db.addWalletOfInterest bincode w = some db' ∧
      Backs bincode db' (s.addWalletOfInterest w) := by
  have htrades := h.activeTrades.insert_other idKey_ne_walletsOfInterestName
    (bincode.walletsOfInterest.serialize (insert w s.getWalletsOfInterest))
  refine ⟨_, by rw [Database.addWalletOfInterest, h.getWalletsOfInterest]; rfl, ?_⟩
  simpa [backs_iff, Storage.addWalletOfInterest] using ⟨h.iWants, htrades,
    h.walletsOfInterest, h.commitHistories, h.histories, h.queriesSent, h.queriesReceived⟩

/-- A history goes under the key of its wallet. -/
theorem putCommitHistory (h : Backs bincode db s) (history : CommitHistory) :
    Backs bincode (db.insert commitHistoryTree (walletKey history.walletAddress)
      (bincode.commitHistory.serialize history)) (s.putCommitHistory history) := by
  have hnew := h.commitHistories.insert walletKey_injective history.walletAddress history
  have honly : ∀ key blob, ((db.openTree commitHistoryTree).insert (walletKey history.walletAddress)
      (bincode.commitHistory.serialize history)).lookup key = some blob →
        ∃ history : CommitHistory, key = walletKey history.walletAddress ∧
          blob = bincode.commitHistory.serialize history := by
    intro key blob hlookup
    by_cases hkey : key = walletKey history.walletAddress
    · subst hkey
      rw [AList.lookup_insert] at hlookup
      exact ⟨history, rfl, (Option.some.inj hlookup).symm⟩
    · rw [AList.lookup_insert_ne hkey] at hlookup
      exact h.histories key blob hlookup
  simpa [backs_iff, Storage.putCommitHistory] using ⟨h.iWants, h.activeTrades,
    h.activeTradesWallets, h.walletsOfInterest, hnew, honly, h.queriesSent, h.queriesReceived⟩

theorem updateHistory (h : Backs bincode db s) (call : HistoryCall) :
    Backs bincode (db.updateHistory bincode call) (call.exec s) := by
  have hwallet : (call.modify (s.existingHistory call.walletAddress)).walletAddress =
      call.walletAddress := by
    cases call <;> exact Storage.existingHistory_walletAddress s _
  have hexec : call.exec s =
      s.putCommitHistory (call.modify (s.existingHistory call.walletAddress)) := by
    cases call <;> rfl
  have hdb : db.updateHistory bincode call = db.insert commitHistoryTree
      (walletKey (call.modify (s.existingHistory call.walletAddress)).walletAddress)
      (bincode.commitHistory.serialize
        (call.modify (s.existingHistory call.walletAddress))) := by
    rw [hwallet, Database.updateHistory, h.findCommitHistory]
    rfl
  rw [hexec, hdb]
  exact h.putCommitHistory _

/-- A call on the database does what the call on the storage does, and does not panic. -/
theorem run (h : Backs bincode db s) (call : StorageCall) :
    ∃ db', call.run bincode db = some db' ∧ Backs bincode db' (call.exec s) := by
  cases call with
  | addIWant msg => exact ⟨_, rfl, h.addIWant msg⟩
  | addActiveTrade msg => exact ⟨_, rfl, h.addActiveTrade msg⟩
  | addNewTrade trade => exact ⟨_, rfl, h.addActiveTrade trade⟩
  | updateActiveTrade trade => exact ⟨_, rfl, h.updateActiveTrade trade⟩
  | addBidReceivedForQuery queryId bid => exact ⟨_, rfl, h.addBidReceivedForQuery queryId bid⟩
  | addBidSentForQuery bid query => exact ⟨_, rfl, h.addBidSentForQuery bid query⟩
  | addQuerySent query => exact ⟨_, rfl, h.addQuerySent query⟩
  | addQueryReceived query => exact ⟨_, rfl, h.addQueryReceived query⟩
  | addWalletOfInterest w => exact h.addWalletOfInterest w
  | updateHistory call => exact ⟨_, rfl, h.updateHistory call⟩

theorem runAll (h : Backs bincode db s) (calls : List StorageCall) :
    ∃ db', StorageCall.runAll bincode db calls = some db' ∧
      Backs bincode db' (StorageCall.execAll s calls) := by
  induction calls generalizing db s with
  | nil => exact ⟨db, rfl, h⟩
  | cons call calls ih =>
    obtain ⟨db₁, hrun, h₁⟩ := h.run call
    obtain ⟨db₂, hall, h₂⟩ := ih h₁
    refine ⟨db₂, ?_, h₂⟩
    rw [StorageCall.runAll, List.foldlM_cons, hrun]
    exact hall

end Backs

/-! ## Tracked wallets -/

/-- No call writes the tree that is read. -/
theorem StorageCall.exec_walletsOfInterest (s : Storage) (call : StorageCall) :
    (call.exec s).walletsOfInterest = s.walletsOfInterest := by
  cases call with
  | updateActiveTrade trade =>
    simp only [exec, Storage.updateActiveTrade]
    split <;> rfl
  | updateHistory call => cases call <;> rfl
  | _ => rfl

theorem StorageCall.execAll_walletsOfInterest (s : Storage) (calls : List StorageCall) :
    (execAll s calls).walletsOfInterest = s.walletsOfInterest := by
  induction calls generalizing s with
  | nil => rfl
  | cons call calls ih => exact (ih _).trans (exec_walletsOfInterest s call)

/-- The wallets that were added are tracked, and no others, in the database that the calls leave. So
a node on that database appends gossiped commits of these wallets and does not load their histories
again. -/
structure KeepsTrack {Hash : Type} (bincode : Bincode Blob) (env : Env Hash)
    (calls : List StorageCall) (db : Database Blob) : Prop where
  tracked : ∀ w, (∃ wallets, db.getWalletsOfInterest bincode = some wallets ∧ w ∈ wallets) ↔
    .addWalletOfInterest w ∈ calls
  appended : ∀ (node : Node) (c : Commit) (tradeId : U32), Backs bincode db node.storage →
    .addWalletOfInterest c.walletAddress ∈ calls →
      (node.step env (.network (.gossipsubMessageRecv (.commit c tradeId)))).storage.commitsOf
        c.walletAddress = node.storage.commitsOf c.walletAddress ++ [c]
  checked : ∀ (node : Node) (id : ℕ) (c : Commit) (t : Trade), Backs bincode db node.storage →
    .addWalletOfInterest c.walletAddress ∈ calls →
      node.tasks id = some (.verify c t .tracking) →
        (node.step env (.task id .run)).tasks id = some (.verify c t .checking)

section KeepsTrack

variable {Hash : Type} {env : Env Hash} {node : Node} {c : Commit}

/-- A gossiped commit of a tracked wallet is appended to its history. -/
theorem Node.commitsOf_gossip_tracked (h : c.walletAddress ∈ node.storage.getWalletsOfInterest)
    (tradeId : U32) :
    (node.step env (.network (.gossipsubMessageRecv (.commit c tradeId)))).storage.commitsOf
      c.walletAddress = node.storage.commitsOf c.walletAddress ++ [c] := by
  simp only [Node.step, Node.act, Node.handleNetworkEvent, if_pos h]
  rw [Storage.commitsOf_addCommits, if_pos rfl]

/-- A `verify` does not load the history of a tracked wallet. -/
theorem Node.tracking_tracked {id : ℕ} {t : Trade}
    (h : c.walletAddress ∈ node.storage.getWalletsOfInterest)
    (htask : node.tasks id = some (.verify c t .tracking)) :
    (node.step env (.task id .run)).tasks id = some (.verify c t .checking) := by
  simp [Node.step, Node.act, Node.handleTask, htask, verifyStep, h, Node.resume]

/-- The rest follows from what is tracked. -/
theorem KeepsTrack.of_tracked {calls : List StorageCall}
    (h : ∀ w, (∃ wallets, db.getWalletsOfInterest bincode = some wallets ∧ w ∈ wallets) ↔
      .addWalletOfInterest w ∈ calls) : KeepsTrack bincode env calls db := by
  have hstored : ∀ {node : Node} {w : Address}, Backs bincode db node.storage →
      .addWalletOfInterest w ∈ calls → w ∈ node.storage.getWalletsOfInterest := by
    intro node w hdb hw
    obtain ⟨wallets, hget, hmem⟩ := (h w).mpr hw
    cases hdb.getWalletsOfInterest.symm.trans hget
    exact hmem
  exact ⟨h, fun _ _ tradeId hdb hw => Node.commitsOf_gossip_tracked (hstored hdb hw) tradeId,
    fun _ _ _ _ hdb hw htask => Node.tracking_tracked (hstored hdb hw) htask⟩

end KeepsTrack

/-- From a new database, the wallets that were added are tracked exactly when none was. -/
theorem keepsTrack_iff {Hash : Type} (bincode : Bincode Blob) (env : Env Hash)
    (calls : List StorageCall) :
    (∃ db, StorageCall.runAll bincode .new calls = some db ∧ KeepsTrack bincode env calls db) ↔
      ∀ w, .addWalletOfInterest w ∉ calls := by
  obtain ⟨db, hrun, hdb⟩ := (Backs.new bincode).runAll calls
  have hnone : ∀ w, ¬ ∃ wallets, db.getWalletsOfInterest bincode = some wallets ∧ w ∈ wallets := by
    rintro w ⟨wallets, hget, hmem⟩
    rw [hdb.getWalletsOfInterest, Storage.getWalletsOfInterest,
      StorageCall.execAll_walletsOfInterest] at hget
    cases hget
    exact absurd hmem (Finset.notMem_empty w)
  constructor
  · rintro ⟨db', hrun', hkeeps⟩ w hw
    cases hrun.symm.trans hrun'
    exact hnone w ((hkeeps.tracked w).mpr hw)
  · intro hno
    exact ⟨db, hrun, .of_tracked fun w => iff_of_false (hnone w) (hno w)⟩

/-- Values that say what they are. -/
inductive PlainBlob
  | iWant (i : IWant)
  | trade (t : Trade)
  | bid (b : Bid)
  | query (q : Query)
  | commitHistory (h : CommitHistory)
  | walletsOfInterest (ws : Finset Address)

def plainBincode : Bincode PlainBlob where
  iWant := ⟨.iWant, fun | .iWant i => some i | _ => none, fun _ => rfl⟩
  trade := ⟨.trade, fun | .trade t => some t | _ => none, fun _ => rfl⟩
  bid := ⟨.bid, fun | .bid b => some b | _ => none, fun _ => rfl⟩
  query := ⟨.query, fun | .query q => some q | _ => none, fun _ => rfl⟩
  commitHistory := ⟨.commitHistory, fun | .commitHistory h => some h | _ => none, fun _ => rfl⟩
  walletsOfInterest :=
    ⟨.walletsOfInterest, fun | .walletsOfInterest ws => some ws | _ => none, fun _ => rfl⟩

/-- Wallet 8 is added, and is not tracked. -/
theorem not_keepsTrack_addWalletOfInterest :
    ¬ ∃ db, StorageCall.runAll plainBincode .new [.addWalletOfInterest 8] = some db ∧
      KeepsTrack plainBincode plainEnv [.addWalletOfInterest 8] db := by
  rintro ⟨db, hrun, hkeeps⟩
  obtain ⟨wallets, hget, hmem⟩ := (hkeeps.tracked 8).mpr List.mem_cons_self
  have hempty : (StorageCall.runAll plainBincode .new [.addWalletOfInterest 8]).bind
      (fun db => db.getWalletsOfInterest plainBincode) = some ∅ := by decide +kernel
  rw [hrun, Option.bind_some, hget] at hempty
  rw [Option.some.inj hempty] at hmem
  exact absurd hmem (Finset.notMem_empty 8)

end Dse
