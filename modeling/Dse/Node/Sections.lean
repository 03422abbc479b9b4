import Dse.Lib.Linear
import Dse.Node.Database

/-!
# The calls of the storage, lock by lock

Every function of `Storage` takes the lock of the database, some of them twice: `update_active_trade`
looks for the trade and then inserts, `add_wallet_of_interest` and the two functions that update a
history read what they extend and then insert. The lock is free in between, so calls of the indexer,
of the commit procedures and of the server mix.
-/

namespace Dse

namespace StorageCall

/-- The call, section by section. -/
def sections : StorageCall → Linear.Call Storage
  | addIWant msg, s => .ends (s.addIWant msg) true
  | addActiveTrade msg, s => .ends (s.addActiveTrade msg) true
  | addNewTrade trade, s => .ends (s.addActiveTrade trade) true
  | updateActiveTrade trade, s =>
    match s.findActiveTrade trade.id with
    | some _ => .goesOn fun s => s.addActiveTrade trade
    -- Returns err if Trade does not pre-exists
    | none => .ends s false
  | addBidReceivedForQuery _ _, s => .ends s true
  | addBidSentForQuery _ _, s => .ends s true
  | addQuerySent query, s => .ends (s.addQuerySent query) true
  | addQueryReceived query, s => .ends (s.addQueryReceived query) true
  | addWalletOfInterest walletAddress, s =>
    let prev := s.getWalletsOfInterest
    .goesOn fun s => { s with activeTradesWallets := some (insert walletAddress prev) }
  | updateHistory call, s =>
    let existing := s.existingHistory call.walletAddress
    .goesOn fun s => s.putCommitHistory (call.modify existing)

/-- The wallet whose history the call updates. -/
def historyWallet? : StorageCall → Option Address
  | updateHistory call => some call.walletAddress
  | _ => none

/-- The calls by their place in a list, side by side. -/
def concurrent (calls : List StorageCall) (i : Fin calls.length) : Linear.Call Storage :=
  (calls.get i).sections

end StorageCall

end Dse
