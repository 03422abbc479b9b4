import Dse.Node.Finders
import Dse.Node.Proofs.DatabaseProofs

/-!
# A finder returns what was written last

`Shelved` says which records a tree keeps and that it keeps nothing else. It holds of every tree
after every sequence of calls, with the records that were written last, and the finders and the
listings read it off. The tree of the active trades holds one entry more, the set of wallets that
`add_wallet_of_interest` puts there: a listing of the trades shows it if its bytes read as a trade.
-/

namespace Dse

open Database StorageCall

variable {Blob : Type} {bincode : Bincode Blob} {db db' : Database Blob}
  {calls : List StorageCall}

/-! ## Trees -/

/-- The tree keeps the records `records`, under the bytes of their keys, and no others. -/
structure Shelved {κ ν : Type} (key : κ → List UInt8) (codec : Codec ν Blob)
    (t : Tree (List UInt8) Blob) (records : κ → Option ν) : Prop where
  lookup : ∀ k, t.lookup (key k) = (records k).map codec.serialize
  keys : ∀ bytes blob, t.lookup bytes = some blob → ∃ k, bytes = key k

section Shelved

variable {κ ν : Type} {key : κ → List UInt8} {codec : Codec ν Blob} {t : Tree (List UInt8) Blob}
  {records : κ → Option ν}

theorem shelved_empty : Shelved key codec (∅ : Tree (List UInt8) Blob) fun _ => none where
  lookup k := by simp
  keys bytes blob h := by simp at h

/-- The record written last is the one that is kept. -/
theorem Shelved.insert (h : Shelved key codec t records) [DecidableEq κ]
    (hkey : Function.Injective key) (k : κ) (v : ν) :
    Shelved key codec (t.insert (key k) (codec.serialize v) : Tree (List UInt8) Blob)
      fun k' => (if k = k' then some v else none).or (records k') where
  lookup k' := by
    by_cases hk : k = k'
    · rw [if_pos hk, ← hk, AList.lookup_insert]
      rfl
    · rw [if_neg hk, AList.lookup_insert_ne (hkey.ne (Ne.symm hk)), h.lookup]
      rfl
  keys bytes blob hb := by
    by_cases hbytes : bytes = key k
    · exact ⟨k, hbytes⟩
    · rw [AList.lookup_insert_ne hbytes] at hb
      exact h.keys bytes blob hb

theorem Shelved.find (h : Shelved key codec t records) (k : κ) :
    (t.lookup (key k)).bind codec.deserialize = records k := by
  rw [h.lookup k]
  cases records k with
  | none => rfl
  | some v => exact codec.deserialize_serialize v

/-- What an entry holds. -/
theorem Shelved.entry (h : Shelved key codec t records) {bytes : List UInt8} {blob : Blob}
    (hb : t.lookup bytes = some blob) :
    ∃ k v, bytes = key k ∧ records k = some v ∧ codec.deserialize blob = some v := by
  obtain ⟨k, rfl⟩ := h.keys bytes blob hb
  rw [h.lookup k] at hb
  obtain ⟨v, hv, rfl⟩ := Option.map_eq_some_iff.mp hb
  exact ⟨k, v, rfl, hv, codec.deserialize_serialize v⟩

end Shelved

/-- Entries under different keys hold different records, if a record names its key. -/
theorem nodup_filterMap_entries {ν : Type} (read : Blob → Option ν) (p : List UInt8 → Bool)
    (t : Tree (List UInt8) Blob) (name : ν → List UInt8)
    (hname : ∀ bytes blob v, t.lookup bytes = some blob → p bytes = true → read blob = some v →
      name v = bytes) :
    (((t.entries.filter fun e => p e.1).filterMap fun e => read e.2)).Nodup := by
  refine List.pairwise_filterMap.mpr ?_
  have hkeys := (List.nodupKeys_iff_pairwise.mp t.nodupKeys).filter fun e => p e.1
  refine hkeys.imp_of_mem fun {e e'} he he' hne v hv v' hv' hvv => hne ?_
  have hmem : ∀ {e : Sigma fun _ : List UInt8 => Blob}, e ∈ t.entries.filter (fun e => p e.1) →
      ∀ {v : ν}, read e.2 = some v → name v = e.1 := by
    intro e he v hv
    obtain ⟨hmem, hp⟩ := List.mem_filter.mp he
    exact hname e.1 e.2 v (AList.mem_lookup_iff.mpr hmem) hp hv
  rw [← hmem he hv, ← hmem he' hv', hvv]

/-- The entries under one key. -/
theorem filter_entries_eq {t : Tree (List UInt8) Blob} (key : List UInt8) :
    (t.entries.filter fun e => decide (e.1 = key)).map Sigma.snd = (t.lookup key).toList := by
  have hall : ∀ l : List (Sigma fun _ : List UInt8 => Blob),
      (l.filter fun e => decide (e.1 = key)).map Sigma.snd = l.lookupAll key := by
    intro l
    induction l with
    | nil => rfl
    | cons e l ih =>
      obtain ⟨bytes, blob⟩ := e
      by_cases hkey : bytes = key
      · subst hkey
        rw [List.filter_cons_of_pos (by simp), List.map_cons, ih, List.lookupAll_cons_eq]
      · rw [List.filter_cons_of_neg (by simpa using hkey), ih,
          List.lookupAll_cons_ne _ _ (Ne.symm hkey)]
  rw [hall]
  exact List.lookupAll_eq_dlookup key t.nodupKeys

/-- The entry under one key, behind all others. -/
theorem perm_values {t : Tree (List UInt8) Blob} (key : List UInt8) :
    t.values.Perm (((t.entries.filter fun e => !decide (e.1 = key)).map Sigma.snd) ++
      (t.lookup key).toList) := by
  have hsplit := (List.filter_append_perm (fun e : Sigma fun _ : List UInt8 => Blob =>
    decide (e.1 = key)) t.entries).map Sigma.snd
  rw [List.map_append, filter_entries_eq] at hsplit
  exact hsplit.symm.trans List.perm_append_comm

/-! ## Records name their keys -/

theorem lastOf_mem {β : Type} {select : StorageCall → Option β} {b : β}
    (h : lastOf select calls = some b) : ∃ call ∈ calls, select call = some b :=
  List.mem_filterMap.mp (List.mem_of_getLast? h)

theorem lastOf_querySent?_id {id : U32} {query : Query}
    (h : lastOf (querySent? id) calls = some query) : query.id = id := by
  obtain ⟨call, -, hcall⟩ := lastOf_mem h
  unfold querySent? at hcall
  split at hcall
  · split at hcall
    · rename_i hid
      cases hcall
      exact hid
    · cases hcall
  · cases hcall

theorem lastOf_queryReceived?_id {id : U32} {query : Query}
    (h : lastOf (queryReceived? id) calls = some query) : query.id = id := by
  obtain ⟨call, -, hcall⟩ := lastOf_mem h
  unfold queryReceived? at hcall
  split at hcall
  · split at hcall
    · rename_i hid
      cases hcall
      exact hid
    · cases hcall
  · cases hcall

theorem lastOf_bidReceived?_providerId {queryId : U32} {providerId : PeerId} {bid : Bid}
    (h : lastOf (bidReceived? queryId providerId) calls = some bid) :
    bid.providerId = providerId := by
  obtain ⟨call, -, hcall⟩ := lastOf_mem h
  unfold bidReceived? at hcall
  split at hcall
  · split at hcall
    · rename_i hid
      cases hcall
      exact hid.2
    · cases hcall
  · cases hcall

theorem activeTrade_id {iid : U32} {trade : Trade} (h : activeTrade iid calls = some trade) :
    trade.id = iid := by
  induction calls using List.reverseRecOn generalizing trade with
  | nil => cases h
  | append_singleton calls call ih =>
    rw [activeTrade_concat] at h
    unfold tradeAfter at h
    split at h
    · split at h
      · rename_i hid
        cases h
        exact hid
      · exact ih h
    · split at h
      · rename_i hid
        cases h
        exact hid
      · exact ih h
    · split at h
      · rename_i hid
        obtain ⟨t, -, rfl⟩ := Option.map_eq_some_iff.mp h
        exact hid
      · exact ih h
    · exact ih h

/-! ## The database after the calls -/

theorem bidsReceivedTree_injective : Function.Injective bidsReceivedTree := fun _ _ h =>
  idKey_injective (List.append_cancel_left h)

theorem peerId_bytes_injective : Function.Injective PeerId.bytes := by
  rintro ⟨a⟩ ⟨b⟩ rfl
  rfl

/-- What the calls wrote last is what the trees keep. -/
@[mk_iff]
structure Holds (bincode : Bincode Blob) (db : Database Blob) (calls : List StorageCall) :
    Prop where
  iWants : Shelved idKey bincode.iWant (db.openTree iWantsTree) fun id => lastOf (iWant? id) calls
  queriesSent : Shelved idKey bincode.query (db.openTree queriesSentTree) fun id =>
    lastOf (querySent? id) calls
  queriesReceived : Shelved idKey bincode.query (db.openTree queriesReceivedTree) fun id =>
    lastOf (queryReceived? id) calls
  bidsSent : Shelved idKey bincode.bid (db.openTree bidsSentTree) fun id =>
    lastOf (bidSent? id) calls
  bidsReceived : ∀ queryId, Shelved PeerId.bytes bincode.bid
    (db.openTree (bidsReceivedTree queryId)) fun providerId =>
      lastOf (bidReceived? queryId providerId) calls
  trades : ∀ id, (db.openTree activeTradesTree).lookup (idKey id) =
    (activeTrade id calls).map bincode.trade.serialize
  /-- The entry that is no trade. -/
  wallets : (db.openTree activeTradesTree).lookup walletsOfInterestName =
    (lastOf walletOfInterest? calls).map fun w => bincode.walletsOfInterest.serialize {w}
  tradeKeys : ∀ bytes blob, (db.openTree activeTradesTree).lookup bytes = some blob →
    (∃ id, bytes = idKey id) ∨ bytes = walletsOfInterestName
  /-- Nothing is written into the tree that is read. -/
  walletsOfInterest : db.openTree walletsOfInterestName = ∅

namespace Holds

theorem new (bincode : Bincode Blob) : Holds bincode .new [] where
  iWants := shelved_empty
  queriesSent := shelved_empty
  queriesReceived := shelved_empty
  bidsSent := shelved_empty
  bidsReceived _ := shelved_empty
  trades _ := AList.lookup_empty _
  wallets := AList.lookup_empty _
  tradeKeys bytes blob h := by simp [Database.new] at h
  walletsOfInterest := rfl

theorem findActiveTrade (h : Holds bincode db calls) (iid : U32) :
    db.findActiveTrade bincode iid = activeTrade iid calls := by
  unfold Database.findActiveTrade
  rw [h.trades iid]
  cases activeTrade iid calls with
  | none => rfl
  | some t => exact bincode.trade.deserialize_serialize t

theorem addIWant (h : Holds bincode db calls) (msg : IWant) :
    Holds bincode (db.addIWant bincode msg) (calls ++ [.addIWant msg]) := by
  have hnew := h.iWants.insert idKey_injective msg.id msg
  simpa [holds_iff, Database.addIWant, iWant?, querySent?, queryReceived?, bidSent?, bidReceived?,
    tradeAfter, walletOfInterest?] using ⟨hnew, h.queriesSent, h.queriesReceived, h.bidsSent,
    h.bidsReceived, h.trades, h.wallets, h.tradeKeys, h.walletsOfInterest⟩

theorem addQuerySent (h : Holds bincode db calls) (query : Query) :
    Holds bincode (db.addQuerySent bincode query) (calls ++ [.addQuerySent query]) := by
  have hnew := h.queriesSent.insert idKey_injective query.id query
  simpa [holds_iff, Database.addQuerySent, iWant?, querySent?, queryReceived?, bidSent?,
    bidReceived?, tradeAfter, walletOfInterest?] using ⟨h.iWants, hnew, h.queriesReceived,
    h.bidsSent, h.bidsReceived, h.trades, h.wallets, h.tradeKeys, h.walletsOfInterest⟩

theorem addQueryReceived (h : Holds bincode db calls) (query : Query) :
    Holds bincode (db.addQueryReceived bincode query) (calls ++ [.addQueryReceived query]) := by
  have hnew := h.queriesReceived.insert idKey_injective query.id query
  simpa [holds_iff, Database.addQueryReceived, iWant?, querySent?, queryReceived?, bidSent?,
    bidReceived?, tradeAfter, walletOfInterest?] using ⟨h.iWants, h.queriesSent, hnew,
    h.bidsSent, h.bidsReceived, h.trades, h.wallets, h.tradeKeys, h.walletsOfInterest⟩

theorem addBidSentForQuery (h : Holds bincode db calls) (bid : Bid) (query : Query) :
    Holds bincode (db.addBidSentForQuery bincode bid query)
      (calls ++ [.addBidSentForQuery bid query]) := by
  have hnew := h.bidsSent.insert idKey_injective query.id bid
  simpa [holds_iff, Database.addBidSentForQuery, iWant?, querySent?, queryReceived?, bidSent?,
    bidReceived?, tradeAfter, walletOfInterest?] using ⟨h.iWants, h.queriesSent,
    h.queriesReceived, hnew, h.bidsReceived, h.trades, h.wallets, h.tradeKeys,
    h.walletsOfInterest⟩

/-- The trees of the other queries stay as they are. -/
theorem addBidReceivedForQuery (h : Holds bincode db calls) (queryId : U32) (bid : Bid) :
    Holds bincode (db.addBidReceivedForQuery bincode queryId bid)
      (calls ++ [.addBidReceivedForQuery queryId bid]) := by
  have hnew : ∀ id, Shelved PeerId.bytes bincode.bid
      ((db.addBidReceivedForQuery bincode queryId bid).openTree (bidsReceivedTree id))
      fun providerId => (if queryId = id ∧ bid.providerId = providerId then some bid else none).or
        (lastOf (bidReceived? id providerId) calls) := by
    intro id
    unfold Database.addBidReceivedForQuery
    by_cases hid : queryId = id
    · subst hid
      simpa using (h.bidsReceived queryId).insert peerId_bytes_injective bid.providerId bid
    · have hother : (db.insert (bidsReceivedTree queryId) bid.providerId.bytes
          (bincode.bid.serialize bid)).openTree (bidsReceivedTree id) =
          db.openTree (bidsReceivedTree id) :=
        Function.update_of_ne (bidsReceivedTree_injective.ne (Ne.symm hid)) _ _
      simpa [hother, hid] using h.bidsReceived id
  rw [Database.addBidReceivedForQuery] at hnew ⊢
  simpa [holds_iff, iWant?, querySent?, queryReceived?, bidSent?, bidReceived?, tradeAfter,
    walletOfInterest?] using ⟨h.iWants, h.queriesSent, h.queriesReceived, h.bidsSent, hnew,
    h.trades, h.wallets, h.tradeKeys, h.walletsOfInterest⟩

/-- A trade goes under its id. -/
theorem insertTrade (h : Holds bincode db calls) (trade : Trade) {call : StorageCall}
    (hcall : call = .addActiveTrade trade ∨ call = .addNewTrade trade ∨
      call = .updateActiveTrade trade ∧ (activeTrade trade.id calls).isSome) :
    Holds bincode (db.addActiveTrade bincode trade) (calls ++ [call]) := by
  have hafter : ∀ id, tradeAfter id (activeTrade id calls) call =
      if trade.id = id then some trade else activeTrade id calls := by
    intro id
    rcases hcall with rfl | rfl | ⟨rfl, hsome⟩
    · rfl
    · rfl
    · obtain ⟨t, ht⟩ := Option.isSome_iff_exists.mp hsome
      by_cases hid : trade.id = id
      · subst hid
        simp [tradeAfter, ht]
      · simp [tradeAfter, hid]
  have hselect : (∀ id, iWant? id call = none) ∧ (∀ id, querySent? id call = none) ∧
      (∀ id, queryReceived? id call = none) ∧ (∀ id, bidSent? id call = none) ∧
      (∀ id p, bidReceived? id p call = none) ∧ walletOfInterest? call = none := by
    rcases hcall with rfl | rfl | ⟨rfl, -⟩ <;> exact ⟨fun _ => rfl, fun _ => rfl, fun _ => rfl,
      fun _ => rfl, fun _ _ => rfl, rfl⟩
  obtain ⟨h1, h2, h3, h4, h5, h6⟩ := hselect
  have htrades : ∀ id, ((db.openTree activeTradesTree).insert (idKey trade.id)
      (bincode.trade.serialize trade)).lookup (idKey id) =
      (if trade.id = id then some trade else activeTrade id calls).map bincode.trade.serialize := by
    intro id
    by_cases hid : trade.id = id
    · rw [if_pos hid, ← hid, AList.lookup_insert]
      rfl
    · rw [if_neg hid, AList.lookup_insert_ne (idKey_injective.ne (Ne.symm hid)), h.trades]
  have hwallets := (idKey_ne_walletsOfInterestName trade.id).symm
  have hkeys : ∀ bytes blob, ((db.openTree activeTradesTree).insert (idKey trade.id)
      (bincode.trade.serialize trade)).lookup bytes = some blob →
      (∃ id, bytes = idKey id) ∨ bytes = walletsOfInterestName := by
    intro bytes blob hb
    by_cases hbytes : bytes = idKey trade.id
    · exact .inl ⟨trade.id, hbytes⟩
    · rw [AList.lookup_insert_ne hbytes] at hb
      exact h.tradeKeys bytes blob hb
  simpa [holds_iff, Database.addActiveTrade, h1, h2, h3, h4, h5, h6, hafter,
    AList.lookup_insert_ne hwallets] using ⟨h.iWants, h.queriesSent, h.queriesReceived,
    h.bidsSent, h.bidsReceived, htrades, h.wallets, hkeys, h.walletsOfInterest⟩

/-- Without a trade an update writes nothing. -/
theorem updateActiveTrade (h : Holds bincode db calls) (trade : Trade) :
    Holds bincode (db.updateActiveTrade bincode trade) (calls ++ [.updateActiveTrade trade]) := by
  unfold Database.updateActiveTrade
  rw [h.findActiveTrade]
  cases ht : activeTrade trade.id calls with
  | some t => exact h.insertTrade trade (.inr (.inr ⟨rfl, by rw [ht]; rfl⟩))
  | none =>
    have hafter : ∀ id, tradeAfter id (activeTrade id calls) (.updateActiveTrade trade) =
        activeTrade id calls := by
      intro id
      by_cases hid : trade.id = id
      · subst hid
        simp [tradeAfter, ht]
      · simp [tradeAfter, hid]
    simpa [holds_iff, hafter, iWant?, querySent?, queryReceived?, bidSent?, bidReceived?,
      walletOfInterest?] using (holds_iff bincode db calls).mp h

/-- The set of wallets that is written holds one wallet: the one that is read is empty. -/
theorem addWalletOfInterest (h : Holds bincode db calls) (w : Address) :
    ∃ db', db.addWalletOfInterest bincode w = some db' ∧
      Holds bincode db' (calls ++ [.addWalletOfInterest w]) := by
  have hread : db.getWalletsOfInterest bincode = some ∅ := by
    unfold Database.getWalletsOfInterest
    rw [h.walletsOfInterest, AList.lookup_empty]
  have htrades : ∀ id, ((db.openTree activeTradesTree).insert walletsOfInterestName
      (bincode.walletsOfInterest.serialize {w})).lookup (idKey id) =
      (activeTrade id calls).map bincode.trade.serialize := by
    intro id
    rw [AList.lookup_insert_ne (idKey_ne_walletsOfInterestName id), h.trades]
  have hkeys : ∀ bytes blob, ((db.openTree activeTradesTree).insert walletsOfInterestName
      (bincode.walletsOfInterest.serialize {w})).lookup bytes = some blob →
      (∃ id, bytes = idKey id) ∨ bytes = walletsOfInterestName := by
    intro bytes blob hb
    by_cases hbytes : bytes = walletsOfInterestName
    · exact .inr hbytes
    · rw [AList.lookup_insert_ne hbytes] at hb
      exact h.tradeKeys bytes blob hb
  refine ⟨_, by rw [Database.addWalletOfInterest, hread]; rfl, ?_⟩
  simpa [holds_iff, iWant?, querySent?, queryReceived?, bidSent?, bidReceived?, tradeAfter,
    walletOfInterest?] using ⟨h.iWants, h.queriesSent, h.queriesReceived, h.bidsSent,
    h.bidsReceived, htrades, hkeys, h.walletsOfInterest⟩

theorem updateHistory (h : Holds bincode db calls) (call : HistoryCall) :
    Holds bincode (db.updateHistory bincode call) (calls ++ [.updateHistory call]) := by
  rw [holds_iff] at h ⊢
  simpa [Database.updateHistory, iWant?, querySent?, queryReceived?, bidSent?, bidReceived?,
    tradeAfter, walletOfInterest?] using h

theorem run (h : Holds bincode db calls) (call : StorageCall) :
    ∃ db', call.run bincode db = some db' ∧ Holds bincode db' (calls ++ [call]) := by
  cases call with
  | addIWant msg => exact ⟨_, rfl, h.addIWant msg⟩
  | addActiveTrade msg => exact ⟨_, rfl, h.insertTrade msg (.inl rfl)⟩
  | addNewTrade trade => exact ⟨_, rfl, h.insertTrade trade (.inr (.inl rfl))⟩
  | updateActiveTrade trade => exact ⟨_, rfl, h.updateActiveTrade trade⟩
  | addBidReceivedForQuery queryId bid => exact ⟨_, rfl, h.addBidReceivedForQuery queryId bid⟩
  | addBidSentForQuery bid query => exact ⟨_, rfl, h.addBidSentForQuery bid query⟩
  | addQuerySent query => exact ⟨_, rfl, h.addQuerySent query⟩
  | addQueryReceived query => exact ⟨_, rfl, h.addQueryReceived query⟩
  | addWalletOfInterest w => exact h.addWalletOfInterest w
  | updateHistory call => exact ⟨_, rfl, h.updateHistory call⟩

theorem runAll (h : Holds bincode db calls) (more : List StorageCall) :
    ∃ db', StorageCall.runAll bincode db more = some db' ∧ Holds bincode db' (calls ++ more) := by
  induction more generalizing db calls with
  | nil => exact ⟨db, rfl, by rwa [List.append_nil]⟩
  | cons call more ih =>
    obtain ⟨db₁, hrun, h₁⟩ := h.run call
    obtain ⟨db₂, hall, h₂⟩ := ih h₁
    refine ⟨db₂, ?_, by rwa [List.append_assoc] at h₂⟩
    rw [StorageCall.runAll, List.foldlM_cons, hrun]
    exact hall

/-! ## Finding -/

/-- The search through the values of a query's tree comes down to the entry of the provider. A bid
that names another query is kept, and not found. -/
theorem findBidReceived (h : Holds bincode db calls) (queryId : U32) (providerId : PeerId) :
    db.findBidReceived bincode queryId providerId =
      (lastOf (bidReceived? queryId providerId) calls).filter fun bid =>
        decide (bid.queryId = queryId) := by
  have htree := h.bidsReceived queryId
  unfold Database.findBidReceived
  cases hf : (db.openTree (bidsReceivedTree queryId)).values.find? fun blob =>
      (bincode.bid.deserialize blob).any fun bid =>
        decide (bid.queryId = queryId) && decide (bid.providerId = providerId) with
  | none =>
    have hno := List.find?_eq_none.mp hf
    cases hlast : lastOf (bidReceived? queryId providerId) calls with
    | none => rfl
    | some bid =>
      have hlookup := htree.lookup providerId
      rw [hlast] at hlookup
      have hnot := hno _ (Tree.mem_values.mpr ⟨_, hlookup⟩)
      rw [bincode.bid.deserialize_serialize] at hnot
      have hprovider := lastOf_bidReceived?_providerId hlast
      have hquery : bid.queryId ≠ queryId := by
        rintro rfl
        exact hnot (by simp [hprovider])
      simp [Option.filter, hquery]
  | some blob =>
    obtain ⟨bytes, hbytes⟩ := Tree.mem_values.mp (List.mem_of_find?_eq_some hf)
    obtain ⟨p, bid, rfl, hlast, hread⟩ := htree.entry hbytes
    have hfound := List.find?_some hf
    rw [hread] at hfound
    have hboth : bid.queryId = queryId ∧ bid.providerId = providerId := by simpa using hfound
    have hp : p = providerId := (lastOf_bidReceived?_providerId hlast).symm.trans hboth.2
    subst hp
    rw [Option.bind_some, hread, hlast]
    simp [Option.filter, hboth.1]

end Holds

/-- Every finder returns the record that was written last under what it looks for, apart from one: a
bid that was received is found only if it names the query that it was added for. -/
structure Finds (bincode : Bincode Blob) (db : Database Blob) (calls : List StorageCall) :
    Prop where
  iWant : ∀ iid, db.findIWant bincode iid = some (lastOf (iWant? iid) calls)
  activeTrade : ∀ iid, db.findActiveTrade bincode iid = activeTrade iid calls
  querySent : ∀ id, db.findQuerySentByQueryId bincode id = lastOf (querySent? id) calls
  queryReceived : ∀ id, db.findQueryReceivedByQueryId bincode id =
    lastOf (queryReceived? id) calls
  bidSent : ∀ id, db.findBidSentByQueryId bincode id = lastOf (bidSent? id) calls
  bidReceived : ∀ id providerId, db.findBidReceived bincode id providerId =
    (lastOf (bidReceived? id providerId) calls).filter fun bid => decide (bid.queryId = id)

/-- Whatever calls were made, none of them panics, and every finder returns what was written last (a
bid that was received, only if it names the query that it was added for). -/
theorem finds_runAll (bincode : Bincode Blob) (calls : List StorageCall) :
    ∃ db, runAll bincode .new calls = some db ∧ Finds bincode db calls := by
  obtain ⟨db, hrun, h⟩ := (Holds.new bincode).runAll calls
  rw [List.nil_append] at h
  refine ⟨db, hrun, ?_, h.findActiveTrade, h.queriesSent.find, h.queriesReceived.find,
    h.bidsSent.find, h.findBidReceived⟩
  intro iid
  unfold Database.findIWant
  rw [h.iWants.lookup iid]
  cases lastOf (iWant? iid) calls with
  | none => rfl
  | some msg => simp [bincode.iWant.deserialize_serialize]

/-! ## Listing -/

/-- A listing of a tree that keeps records under the keys they name. -/
theorem Shelved.mem_list {κ ν : Type} {key : κ → List UInt8} {codec : Codec ν Blob}
    {tree : List UInt8} {records : κ → Option ν} (h : Shelved key codec (db.openTree tree) records)
    (name : ν → κ) (hname : ∀ k v, records k = some v → name v = k) :
    (db.list codec tree).Nodup ∧ ∀ v, v ∈ db.list codec tree ↔ records (name v) = some v := by
  have hentries : db.list codec tree = (((db.openTree tree).entries.filter
      fun e => (fun _ => true) e.1).filterMap fun e => codec.deserialize e.2) := by
    rw [List.filter_true, Database.list, Tree.values, List.filterMap_map]
    rfl
  constructor
  · rw [hentries]
    refine nodup_filterMap_entries codec.deserialize (fun _ => true) _ (fun v => key (name v))
      fun bytes blob v hb _ hread => ?_
    obtain ⟨k, v', rfl, hk, hread'⟩ := h.entry hb
    obtain rfl : v' = v := Option.some.inj (hread'.symm.trans hread)
    rw [hname k v' hk]
  · intro v
    rw [Database.list, List.mem_filterMap]
    constructor
    · rintro ⟨blob, hblob, hread⟩
      obtain ⟨bytes, hb⟩ := Tree.mem_values.mp hblob
      obtain ⟨k, v', rfl, hk, hread'⟩ := h.entry hb
      obtain rfl : v' = v := Option.some.inj (hread'.symm.trans hread)
      rw [hname k v' hk, hk]
    · intro hv
      refine ⟨codec.serialize v, Tree.mem_values.mpr ⟨key (name v), ?_⟩,
        codec.deserialize_serialize v⟩
      rw [h.lookup, hv]
      rfl

/-- The trade that the set of wallets reads as, among the active trades. -/
def misread (bincode : Bincode Blob) (calls : List StorageCall) : Option Trade :=
  (lastOf walletOfInterest? calls).bind fun w =>
    bincode.trade.deserialize (bincode.walletsOfInterest.serialize {w})

/-- The trades that are there, each of them once, and what the set of wallets reads as. -/
theorem Holds.perm_getActiveTrades (h : Holds bincode db calls) :
    ∃ trades : List Trade, (db.getActiveTrades bincode).Perm (trades ++ (misread bincode calls).toList) ∧
      trades.Nodup ∧ ∀ t, t ∈ trades ↔ StorageCall.activeTrade t.id calls = some t := by
  have hentry : ∀ bytes blob, (db.openTree activeTradesTree).lookup bytes = some blob →
      (!decide (bytes = walletsOfInterestName)) = true → ∃ id t, bytes = idKey id ∧
        StorageCall.activeTrade id calls = some t ∧ bincode.trade.deserialize blob = some t := by
    intro bytes blob hb hne
    rcases h.tradeKeys bytes blob hb with ⟨id, rfl⟩ | rfl
    · rw [h.trades id] at hb
      obtain ⟨t, ht, rfl⟩ := Option.map_eq_some_iff.mp hb
      exact ⟨id, t, rfl, ht, bincode.trade.deserialize_serialize t⟩
    · simp at hne
  refine ⟨((db.openTree activeTradesTree).entries.filter fun e =>
    !decide (e.1 = walletsOfInterestName)).filterMap fun e => bincode.trade.deserialize e.2,
    ?_, ?_, fun t => ?_⟩
  · have hperm := (perm_values (t := db.openTree activeTradesTree) walletsOfInterestName).filterMap
      bincode.trade.deserialize
    rw [List.filterMap_append, List.filterMap_map, h.wallets] at hperm
    have hmisread : (((lastOf walletOfInterest? calls).map fun w =>
        bincode.walletsOfInterest.serialize {w}).toList.filterMap bincode.trade.deserialize) =
        (misread bincode calls).toList := by
      unfold misread
      cases lastOf walletOfInterest? calls with
      | none => rfl
      | some w => cases hw : bincode.trade.deserialize (bincode.walletsOfInterest.serialize {w}) <;>
          simp [hw]
    rw [hmisread] at hperm
    exact hperm
  · refine nodup_filterMap_entries bincode.trade.deserialize
      (fun bytes => !decide (bytes = walletsOfInterestName)) _ (fun t => idKey t.id)
      fun bytes blob t hb hne hread => ?_
    obtain ⟨id, t', rfl, ht, hread'⟩ := hentry bytes blob hb hne
    obtain rfl : t' = t := Option.some.inj (hread'.symm.trans hread)
    rw [activeTrade_id ht]
  · rw [List.mem_filterMap]
    constructor
    · rintro ⟨⟨bytes, blob⟩, he, hread⟩
      obtain ⟨hmem, hne⟩ := List.mem_filter.mp he
      obtain ⟨id, t', rfl, ht, hread'⟩ := hentry bytes blob (AList.mem_lookup_iff.mpr hmem) hne
      obtain rfl : t' = t := Option.some.inj (hread'.symm.trans hread)
      rw [activeTrade_id ht, ht]
    · intro ht
      have hlookup := h.trades t.id
      rw [ht] at hlookup
      refine ⟨⟨idKey t.id, bincode.trade.serialize t⟩, List.mem_filter.mpr
        ⟨AList.mem_lookup_iff.mp hlookup, ?_⟩, bincode.trade.deserialize_serialize t⟩
      simpa using idKey_ne_walletsOfInterestName t.id

/-- Every listing shows what was written last under each key, once. The listing of the active trades
shows one trade more if the set of wallets reads as one. -/
structure Lists (bincode : Bincode Blob) (db : Database Blob) (calls : List StorageCall) :
    Prop where
  queriesSent : (db.getAllQueriesSent bincode).Nodup ∧ ∀ query,
    query ∈ db.getAllQueriesSent bincode ↔ lastOf (querySent? query.id) calls = some query
  queriesReceived : (db.getAllQueriesRecv bincode).Nodup ∧ ∀ query,
    query ∈ db.getAllQueriesRecv bincode ↔ lastOf (queryReceived? query.id) calls = some query
  bidsReceived : ∀ queryId, (db.findAllBidsRecvByQueryId bincode queryId).Nodup ∧ ∀ bid,
    bid ∈ db.findAllBidsRecvByQueryId bincode queryId ↔
      lastOf (bidReceived? queryId bid.providerId) calls = some bid
  activeTrades : ∃ trades : List Trade,
    (db.getActiveTrades bincode).Perm (trades ++ (misread bincode calls).toList) ∧
      trades.Nodup ∧ ∀ t, t ∈ trades ↔ activeTrade t.id calls = some t

theorem lists_runAll (bincode : Bincode Blob) (calls : List StorageCall) :
    ∃ db, runAll bincode .new calls = some db ∧ Lists bincode db calls := by
  obtain ⟨db, hrun, h⟩ := (Holds.new bincode).runAll calls
  rw [List.nil_append] at h
  exact ⟨db, hrun, h.queriesSent.mem_list Query.id fun _ _ => lastOf_querySent?_id,
    h.queriesReceived.mem_list Query.id fun _ _ => lastOf_queryReceived?_id,
    fun queryId => (h.bidsReceived queryId).mem_list Bid.providerId
      fun _ _ => lastOf_bidReceived?_providerId,
    h.perm_getActiveTrades⟩

end Dse
