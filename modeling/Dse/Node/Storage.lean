import Dse.Node.Commit

/-!
# The storage of a node

The database is a map of trees, and a tree a map from keys to values. Every value is kept under a
key taken from the value itself, which is an invariant of the type: there is no storage with a trade
under a foreign id. A call of a `Storage` function is one atomic step.

`add_wallet_of_interest` writes its entry into the tree of the active trades, where it does not read
as a trade, and `get_wallets_of_interest` reads the tree of the wallets of interest, which nothing
writes. The two entries are two fields here.
-/

namespace Dse

/-- A tree of the database. -/
abbrev Tree (κ ν : Type) := AList fun _ : κ => ν

namespace Tree

variable {κ ν : Type} [DecidableEq κ]

/-- Every value is kept under its own key. -/
def Keyed (key : ν → κ) (t : Tree κ ν) : Prop := ∀ k v, t.lookup k = some v → key v = k

omit [DecidableEq κ] in
/-- The values of a tree. -/
def values (t : Tree κ ν) : List ν := t.entries.map Sigma.snd

theorem keyed_empty (key : ν → κ) : Keyed key (∅ : Tree κ ν) := by
  intro k v h
  simp at h

theorem Keyed.insert {key : ν → κ} {t : Tree κ ν} (h : t.Keyed key) (v : ν) :
    Keyed key (t.insert (key v) v : Tree κ ν) := by
  intro k v' hv
  by_cases hk : k = key v
  · subst hk
    rw [AList.lookup_insert] at hv
    rw [Option.some.inj hv]
  · rw [AList.lookup_insert_ne hk] at hv
    exact h k v' hv

theorem mem_values {t : Tree κ ν} {v : ν} : v ∈ t.values ↔ ∃ k, t.lookup k = some v := by
  simp only [values, List.mem_map]
  constructor
  · rintro ⟨⟨k, v'⟩, h, rfl⟩
    exact ⟨k, AList.mem_lookup_iff.mpr h⟩
  · rintro ⟨k, h⟩
    exact ⟨⟨k, v⟩, AList.mem_lookup_iff.mp h, rfl⟩

end Tree

structure Storage where
  /-- `i-wants` -/
  iWants : Tree U32 IWant
  /-- `active-trades` -/
  activeTrades : Tree U32 Trade
  /-- The entry `wallets-of-interest` in the tree `active-trades`. -/
  activeTradesWallets : Option (Finset Address)
  /-- The entry `wallets-of-interest` in the tree of that name. -/
  walletsOfInterest : Option (Finset Address)
  /-- `commit-history` -/
  commitHistories : Tree Address CommitHistory
  /-- `queries-sent` -/
  queriesSent : Tree U32 Query
  /-- `queries-received` -/
  queriesReceived : Tree U32 Query
  iWants_keyed : iWants.Keyed IWant.id
  activeTrades_keyed : activeTrades.Keyed Trade.id
  commitHistories_keyed : commitHistories.Keyed CommitHistory.walletAddress
  queriesSent_keyed : queriesSent.Keyed Query.id
  queriesReceived_keyed : queriesReceived.Keyed Query.id

namespace Storage

/-- A new database. -/
def new : Storage where
  iWants := ∅
  activeTrades := ∅
  activeTradesWallets := none
  walletsOfInterest := none
  commitHistories := ∅
  queriesSent := ∅
  queriesReceived := ∅
  iWants_keyed := Tree.keyed_empty _
  activeTrades_keyed := Tree.keyed_empty _
  commitHistories_keyed := Tree.keyed_empty _
  queriesSent_keyed := Tree.keyed_empty _
  queriesReceived_keyed := Tree.keyed_empty _

/-! ## Interests and trades -/

/-- Stores newly received `IWANT` message from requester -/
def addIWant (s : Storage) (msg : IWant) : Storage :=
  { s with
    iWants := s.iWants.insert msg.id msg
    iWants_keyed := s.iWants_keyed.insert msg }

/-- Finds I wants -/
def findIWant (s : Storage) (iid : U32) : Option IWant := s.iWants.lookup iid

/-- Stores `Trade` received from provider -/
def addActiveTrade (s : Storage) (msg : Trade) : Storage :=
  { s with
    activeTrades := s.activeTrades.insert msg.id msg
    activeTrades_keyed := s.activeTrades_keyed.insert msg }

def findActiveTrade (s : Storage) (iid : U32) : Option Trade := s.activeTrades.lookup iid

/-- Updates Active Trade, unless the trade does not pre-exist -/
def updateActiveTrade (s : Storage) (trade : Trade) : Storage :=
  match s.findActiveTrade trade.id with
  | some _ => s.addActiveTrade trade
  | none => s

/-- Get all active trades -/
def getActiveTrades (s : Storage) : List Trade := s.activeTrades.values

/-! ## Wallets of interest -/

/-- Gets all wallets of interest -/
def getWalletsOfInterest (s : Storage) : Finset Address := s.walletsOfInterest.getD ∅

/-- Adds a wallet of interest -/
def addWalletOfInterest (s : Storage) (walletAddress : Address) : Storage :=
  { s with activeTradesWallets := some (insert walletAddress s.getWalletsOfInterest) }

/-! ## Commit histories -/

/-- Find commit history of `wallet_address` -/
def findCommitHistory (s : Storage) (walletAddress : Address) : Option CommitHistory :=
  s.commitHistories.values.find? fun history => decide (history.walletAddress = walletAddress)

/-- The history to extend: the stored one, or an empty one. -/
def existingHistory (s : Storage) (walletAddress : Address) : CommitHistory :=
  (s.findCommitHistory walletAddress).getD { walletAddress, commits := [] }

/-- Stores a history under its wallet. -/
def putCommitHistory (s : Storage) (history : CommitHistory) : Storage :=
  { s with
    commitHistories := s.commitHistories.insert history.walletAddress history
    commitHistories_keyed := s.commitHistories_keyed.insert history }

/-- Adds new commit to the commit history of a wallet address -/
def addCommitsToCommitHistory (s : Storage) (walletAddress : Address) (commits : List Commit) :
    Storage :=
  s.putCommitHistory ((s.existingHistory walletAddress).addNewCommits commits)

/-- Adds invalidating signature to wallet's commit history -/
def updateCommitHistoryWithInvalidatingSignature (s : Storage) (tradeId : U32)
    (walletAddress : Address) (invalidatingSignature : Signature) : Storage :=
  s.putCommitHistory
    ((s.existingHistory walletAddress).updateInvalditingSignature tradeId invalidatingSignature)

/-! ## Queries -/

/-- Adds new query published by the requester (i.e. node) -/
def addQuerySent (s : Storage) (query : Query) : Storage :=
  { s with
    queriesSent := s.queriesSent.insert query.id query
    queriesSent_keyed := s.queriesSent_keyed.insert query }

/-- Adds new query received by the provider over gossipsub -/
def addQueryReceived (s : Storage) (query : Query) : Storage :=
  { s with
    queriesReceived := s.queriesReceived.insert query.id query
    queriesReceived_keyed := s.queriesReceived_keyed.insert query }

/-- Get all queries sent by the user -/
def getAllQueriesSent (s : Storage) : List Query := s.queriesSent.values

/-- Get all queries received over p2p network -/
def getAllQueriesRecv (s : Storage) : List Query := s.queriesReceived.values

end Storage

end Dse
