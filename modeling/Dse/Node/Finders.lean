import Dse.Node.Database

/-!
# Finding and listing records

The functions of `Storage` that only read, on the trees. A search for an id looks at the key of each
entry, a search for a bid at the values; a listing leaves out what does not read as a record of its
kind.

What they should find is told by the calls that came before: the last record that was written under
the id.
-/

namespace Dse

namespace Database

variable {Blob : Type} (bincode : Bincode Blob) (db : Database Blob)

/-! ## Finding -/

/-- Finds query sent by query id -/
def findQuerySentByQueryId (queryId : U32) : Option Query :=
  ((db.openTree queriesSentTree).lookup (idKey queryId)).bind bincode.query.deserialize

/-- Finds query received by query id -/
def findQueryReceivedByQueryId (queryId : U32) : Option Query :=
  ((db.openTree queriesReceivedTree).lookup (idKey queryId)).bind bincode.query.deserialize

/-- Finds bid sent for a query id -/
def findBidSentByQueryId (queryId : U32) : Option Bid :=
  ((db.openTree bidsSentTree).lookup (idKey queryId)).bind bincode.bid.deserialize

/-- Finds I wants, and panics on a value that does not read. -/
def findIWant (iid : U32) : Option (Option IWant) :=
  match (db.openTree iWantsTree).lookup (idKey iid) with
  | some blob => (bincode.iWant.deserialize blob).map some
  | none => some none

/-- Find bid received by query id & provider id -/
def findBidReceived (queryId : U32) (providerId : PeerId) : Option Bid :=
  ((db.openTree (bidsReceivedTree queryId)).values.find? fun blob =>
    (bincode.bid.deserialize blob).any fun bid =>
      decide (bid.queryId = queryId) && decide (bid.providerId = providerId)).bind
    bincode.bid.deserialize

/-! ## Listing -/

/-- The values of a tree that read as records. -/
def list {ν : Type} (codec : Codec ν Blob) (tree : List UInt8) : List ν :=
  (db.openTree tree).values.filterMap codec.deserialize

/-- Get all active trades -/
def getActiveTrades : List Trade := db.list bincode.trade activeTradesTree

/-- Get all queries sent by the user -/
def getAllQueriesSent : List Query := db.list bincode.query queriesSentTree

/-- Get all queries received over p2p network -/
def getAllQueriesRecv : List Query := db.list bincode.query queriesReceivedTree

/-- Find all bids received for a query by query id -/
def findAllBidsRecvByQueryId (queryId : U32) : List Bid :=
  db.list bincode.bid (bidsReceivedTree queryId)

end Database

/-! ## What was written -/

namespace StorageCall

/-- What the last call from which `select` takes something gives. -/
def lastOf {β : Type} (select : StorageCall → Option β) (calls : List StorageCall) : Option β :=
  (calls.filterMap select).getLast?

def iWant? (iid : U32) : StorageCall → Option IWant
  | addIWant msg => if msg.id = iid then some msg else none
  | _ => none

def querySent? (queryId : U32) : StorageCall → Option Query
  | addQuerySent query => if query.id = queryId then some query else none
  | _ => none

def queryReceived? (queryId : U32) : StorageCall → Option Query
  | addQueryReceived query => if query.id = queryId then some query else none
  | _ => none

/-- The bid is kept for the query it is sent for, not for the one it names. -/
def bidSent? (queryId : U32) : StorageCall → Option Bid
  | addBidSentForQuery bid query => if query.id = queryId then some bid else none
  | _ => none

def bidReceived? (queryId : U32) (providerId : PeerId) : StorageCall → Option Bid
  | addBidReceivedForQuery id bid =>
    if id = queryId ∧ bid.providerId = providerId then some bid else none
  | _ => none

def walletOfInterest? : StorageCall → Option Address
  | addWalletOfInterest walletAddress => some walletAddress
  | _ => none

/-- The trade `iid` after a call: an update needs a trade to be there. -/
def tradeAfter (iid : U32) (trade : Option Trade) : StorageCall → Option Trade
  | addActiveTrade msg => if msg.id = iid then some msg else trade
  | addNewTrade msg => if msg.id = iid then some msg else trade
  | updateActiveTrade msg => if msg.id = iid then trade.map fun _ => msg else trade
  | _ => trade

/-- The trade `iid` after the calls. -/
def activeTrade (iid : U32) (calls : List StorageCall) : Option Trade :=
  calls.foldl (tradeAfter iid) none

@[simp] theorem lastOf_concat {β : Type} (select : StorageCall → Option β)
    (calls : List StorageCall) (call : StorageCall) :
    lastOf select (calls ++ [call]) = (select call).or (lastOf select calls) := by
  unfold lastOf
  cases h : select call with
  | none => simp [h]
  | some b => simp [h]

@[simp] theorem activeTrade_concat (iid : U32) (calls : List StorageCall) (call : StorageCall) :
    activeTrade iid (calls ++ [call]) = tradeAfter iid (activeTrade iid calls) call := by
  simp [activeTrade]

end StorageCall

end Dse
