import Dse.Lib.Bytes
import Dse.Node.HistoryCall

/-!
# The database, tree by tree

sled keeps trees by name, and a tree maps keys to values; keys, names and values are byte strings,
and bincode turns the records of a node into values and back. The functions of `Storage` are written
here as what they read and insert in which tree. `StorageCall.exec` is the same call on `Storage`,
where the values are the records themselves.
-/

namespace Dse

/-! ## bincode and sled -/

/-- What bincode does for one type. -/
structure Codec (α Blob : Type) where
  serialize : α → Blob
  deserialize : Blob → Option α
  deserialize_serialize : ∀ a, deserialize (serialize a) = some a

/-- What bincode does for the records of a node. -/
structure Bincode (Blob : Type) where
  iWant : Codec IWant Blob
  trade : Codec Trade Blob
  bid : Codec Bid Blob
  query : Codec Query Blob
  commitHistory : Codec CommitHistory Blob
  walletsOfInterest : Codec (Finset Address) Blob

/-- The trees by name. A tree that was not opened yet is empty. -/
structure Database (Blob : Type) where
  openTree : List UInt8 → Tree (List UInt8) Blob

/-- The name of a tree, or a key, that is written out in the source. -/
def byteString (s : String) : List UInt8 := s.toList.map fun c => UInt8.ofNat c.toNat

namespace Database

def activeTradesTree := byteString "active-trades"

def queriesSentTree := byteString "queries-sent"

def queriesReceivedTree := byteString "queries-received"

def bidsSentTree := byteString "bids-sent"

/-- There is a tree of received bids for every query. -/
def bidsReceivedTree (queryId : U32) := byteString "bids-received" ++ Bytes.be 4 queryId.toNat

def commitHistoryTree := byteString "commit-history"

def iWantsTree := byteString "i-wants"

/-- The name of a tree, and of a key. -/
def walletsOfInterestName := byteString "wallets-of-interest"

/-- `to_be_bytes` -/
def idKey (id : U32) : List UInt8 := Bytes.be 4 id.toNat

/-- `as_bytes` -/
def walletKey (walletAddress : Address) : List UInt8 := Bytes.be 20 walletAddress.toNat

variable {Blob : Type}

/-- A new database. -/
def new : Database Blob where
  openTree _ := ∅

def insert (db : Database Blob) (tree key : List UInt8) (blob : Blob) : Database Blob where
  openTree := Function.update db.openTree tree ((db.openTree tree).insert key blob)

variable (bincode : Bincode Blob) (db : Database Blob)

/-! ## Interests, trades, bids and queries -/

def addIWant (msg : IWant) : Database Blob :=
  db.insert iWantsTree (idKey msg.id) (bincode.iWant.serialize msg)

def addActiveTrade (msg : Trade) : Database Blob :=
  db.insert activeTradesTree (idKey msg.id) (bincode.trade.serialize msg)

/-- Stores new trade -/
def addNewTrade (trade : Trade) : Database Blob :=
  db.insert activeTradesTree (idKey trade.id) (bincode.trade.serialize trade)

def findActiveTrade (iid : U32) : Option Trade :=
  ((db.openTree activeTradesTree).lookup (idKey iid)).bind bincode.trade.deserialize

def updateActiveTrade (trade : Trade) : Database Blob :=
  match db.findActiveTrade bincode trade.id with
  | some _ => db.addActiveTrade bincode trade
  | none => db

/-- BidderId uniquely identifies a bid received for the query sent -/
def addBidReceivedForQuery (queryId : U32) (bid : Bid) : Database Blob :=
  db.insert (bidsReceivedTree queryId) bid.providerId.bytes (bincode.bid.serialize bid)

/-- QueryId uniquely identifies bid sent for a query received -/
def addBidSentForQuery (bid : Bid) (query : Query) : Database Blob :=
  db.insert bidsSentTree (idKey query.id) (bincode.bid.serialize bid)

def addQuerySent (query : Query) : Database Blob :=
  db.insert queriesSentTree (idKey query.id) (bincode.query.serialize query)

def addQueryReceived (query : Query) : Database Blob :=
  db.insert queriesReceivedTree (idKey query.id) (bincode.query.serialize query)

/-! ## Wallets of interest -/

/-- Gets all wallets of interest, and panics on a value that does not read. -/
def getWalletsOfInterest : Option (Finset Address) :=
  match (db.openTree walletsOfInterestName).lookup walletsOfInterestName with
  | some blob => bincode.walletsOfInterest.deserialize blob
  | none => some ∅

/-- Adds a wallet of interest -/
def addWalletOfInterest (walletAddress : Address) : Option (Database Blob) :=
  (db.getWalletsOfInterest bincode).map fun prev =>
    -- into the tree of the active trades
    db.insert activeTradesTree walletsOfInterestName
      (bincode.walletsOfInterest.serialize (Insert.insert walletAddress prev))

/-! ## Commit histories -/

/-- Find commit history of `wallet_address` -/
def findCommitHistory (walletAddress : Address) : Option CommitHistory :=
  ((db.openTree commitHistoryTree).values.find? fun blob =>
    (bincode.commitHistory.deserialize blob).any fun history =>
      decide (history.walletAddress = walletAddress)).bind bincode.commitHistory.deserialize

/-- The two functions that update a history. -/
def updateHistory (call : HistoryCall) : Database Blob :=
  let existing := (db.findCommitHistory bincode call.walletAddress).getD
    { walletAddress := call.walletAddress, commits := [] }
  db.insert commitHistoryTree (walletKey call.walletAddress)
    (bincode.commitHistory.serialize (call.modify existing))

end Database

/-! ## Calls -/

/-- A call of a function of `Storage` that may write. -/
inductive StorageCall
  | addIWant (msg : IWant)
  | addActiveTrade (msg : Trade)
  | addNewTrade (trade : Trade)
  | updateActiveTrade (trade : Trade)
  | addBidReceivedForQuery (queryId : U32) (bid : Bid)
  | addBidSentForQuery (bid : Bid) (query : Query)
  | addQuerySent (query : Query)
  | addQueryReceived (query : Query)
  | addWalletOfInterest (walletAddress : Address)
  | updateHistory (call : HistoryCall)
deriving DecidableEq, Repr

namespace StorageCall

variable {Blob : Type} (bincode : Bincode Blob)

/-- The call on the database, unless it panics. -/
def run (db : Database Blob) : StorageCall → Option (Database Blob)
  | addIWant msg => some (db.addIWant bincode msg)
  | addActiveTrade msg => some (db.addActiveTrade bincode msg)
  | addNewTrade trade => some (db.addNewTrade bincode trade)
  | updateActiveTrade trade => some (db.updateActiveTrade bincode trade)
  | addBidReceivedForQuery queryId bid => some (db.addBidReceivedForQuery bincode queryId bid)
  | addBidSentForQuery bid query => some (db.addBidSentForQuery bincode bid query)
  | addQuerySent query => some (db.addQuerySent bincode query)
  | addQueryReceived query => some (db.addQueryReceived bincode query)
  | addWalletOfInterest walletAddress => db.addWalletOfInterest bincode walletAddress
  | updateHistory call => some (db.updateHistory bincode call)

/-- The calls one after another. -/
def runAll (db : Database Blob) (calls : List StorageCall) : Option (Database Blob) :=
  calls.foldlM (run bincode) db

/-- The call on `Storage`, which keeps no bids. -/
def exec (s : Storage) : StorageCall → Storage
  | addIWant msg => s.addIWant msg
  | addActiveTrade msg => s.addActiveTrade msg
  | addNewTrade trade => s.addActiveTrade trade
  | updateActiveTrade trade => s.updateActiveTrade trade
  | addBidReceivedForQuery _ _ => s
  | addBidSentForQuery _ _ => s
  | addQuerySent query => s.addQuerySent query
  | addQueryReceived query => s.addQueryReceived query
  | addWalletOfInterest walletAddress => s.addWalletOfInterest walletAddress
  | updateHistory call => call.exec s

/-- The calls on `Storage`, one after another. -/
def execAll (s : Storage) (calls : List StorageCall) : Storage := calls.foldl exec s

end StorageCall

end Dse
