import Dse.Lib.Run
import Dse.Node.Dht

/-!
# Every caller of the DHT is told once

Whoever sends a command is told exactly one thing, by the first completion of its own query in its
own map, or at once if there is no query; until then it waits. Nothing that completes under another
id, in another map or before the query was started reaches it.
-/

namespace Dse

variable {kad : Kademlia}

/-! ## What a caller may expect -/

namespace DhtCommand

/-- The map that the caller waits in, if the call on the swarm does not fail. -/
def map? : DhtCommand kad → Option PendingMap
  | .dhtPut _ _ => some .dhtPut
  | .dhtStartProviding _ => some .dhtStartProviding
  | .dhtGet _ _ => some .dhtGet
  | .dhtGetProviders _ => some .dhtGetProviders
  | .bootstrap => some .bootstrap
  | _ => none

/-- The failure of the command, if its call on the swarm is one that may fail. -/
def fails (failure : Option kad.Err) : DhtCommand kad → Option kad.Err
  | .startListening _ => failure
  | .dhtPut _ _ => failure
  | .dhtStartProviding _ => failure
  | .bootstrap => failure
  | _ => none

/-- What a caller without a query is told. -/
def result (peerId : PeerId) (nodeAddress : Option Multiaddr) : DhtCommand kad → CommandResult kad
  | .networkDetails =>
    match nodeAddress with
    | some v => .details peerId v
    | none => .noAddress
  | .subscribeNetworkEvents => .receiver
  | _ => .done

/-- What the command does to the table of callers. -/
def event (peerId : PeerId) (nodeAddress : Option Multiaddr) (id : ℕ) (failure : Option kad.Err)
    (command : DhtCommand kad) : Pending.Event (PendingMap × ℕ) (CommandResult kad) :=
  match command.fails failure, command.map? with
  | some e, _ => .reply (.failed e)
  | none, some map => .wait (map, id)
  | none, none => .reply (command.result peerId nodeAddress)

end DhtCommand

/-- The map that the result of a query belongs to, and what a caller in it is told. A bootstrap goes
on while there are peers left. -/
def QueryResult.completes : QueryResult kad → Option (PendingMap × CommandResult kad)
  | .putRecord (.ok record) => some (.dhtPut, .value record)
  | .putRecord (.error err) => some (.dhtPut, .failed err)
  | .getRecord (.ok record) => some (.dhtGet, .value record)
  | .getRecord (.error _) => some (.dhtGet, .getRecordError)
  | .bootstrapOk numRemaining => if numRemaining = 0 then some (.bootstrap, .done) else none
  | .bootstrapTimeout numRemaining err =>
    if numRemaining = none ∨ numRemaining = some 0 then some (.bootstrap, .failed err) else none
  | .startProviding (.ok record) => some (.dhtStartProviding, .value record)
  | .startProviding (.error err) => some (.dhtStartProviding, .failed err)
  | .getProviders (.ok record) => some (.dhtGetProviders, .value record)
  | .getProviders (.error err) => some (.dhtGetProviders, .failed err)
  | .other => none

namespace DhtInput

/-- What the input says to a caller that waits in the map for the query. -/
def completes (map : PendingMap) (id : ℕ) : DhtInput kad → Option (CommandResult kad)
  | .event (.outboundQueryCompleted id' result) =>
    (result.completes.filter fun x => decide (x.1 = map ∧ id' = id)).map Prod.snd
  | _ => none

def isCommand : DhtInput kad → Bool
  | .command _ _ => true
  | .event _ => false

/-- The input starts a query. -/
def isQuery : DhtInput kad → Bool
  | .command c failure => c.map?.isSome && (c.fails failure).isNone
  | .event .ownQuery => true
  | .event _ => false

def newListenAddr? : DhtInput kad → Option Multiaddr
  | .event (.newListenAddr address) => some address
  | _ => none

end DhtInput

namespace Dht

/-- What the input does to the table of callers. -/
def pendingEvent? (dht : Dht) :
    DhtInput kad → Option (Pending.Event (PendingMap × ℕ) (CommandResult kad))
  | .command command failure =>
    some (command.event dht.peerId dht.nodeAddress dht.nextQueryId failure)
  | .event (.outboundQueryCompleted id result) =>
    result.completes.map fun x => .resolve (x.1, id) x.2
  | .event _ => none

/-- What the inputs do to the table of callers. -/
def pendingEvents (dht : Dht) :
    List (DhtInput kad) → List (Pending.Event (PendingMap × ℕ) (CommandResult kad))
  | [] => []
  | input :: inputs => (dht.pendingEvent? input).toList ++ (dht.step input).pendingEvents inputs

theorem pendingEvent?_completed (dht : Dht) (id : ℕ) (result : QueryResult kad) :
    dht.pendingEvent? (.event (.outboundQueryCompleted id result)) =
      result.completes.map fun x => .resolve (x.1, id) x.2 := rfl

/-! ## One step -/

/-- A command does one of two things to the table. -/
theorem commandHandler_eq (dht : Dht) (failure : Option kad.Err) (command : DhtCommand kad) :
    ∃ calls, dht.commandHandler failure command =
      match command.fails failure, command.map? with
      | some e, _ => dht.answer calls (.failed e)
      | none, some map => dht.query calls map
      | none, none => dht.answer calls (command.result dht.peerId dht.nodeAddress) := by
  cases command with
  | networkDetails =>
    unfold commandHandler DhtCommand.result
    cases failure <;> cases dht.nodeAddress <;> exact ⟨_, rfl⟩
  | _ => cases failure <;> exact ⟨_, rfl⟩

theorem queryCompleted_eq (dht : Dht) (id : ℕ) (result : QueryResult kad) :
    dht.queryCompleted id result =
      match result.completes with
      | some (map, answer) => dht.complete map id answer
      | none => (dht, {}) := by
  cases result with
  | putRecord result => cases result <;> rfl
  | getRecord result => cases result <;> rfl
  | startProviding result => cases result <;> rfl
  | getProviders result => cases result <;> rfl
  | bootstrapOk numRemaining =>
    by_cases h : numRemaining = 0
    · simp only [queryCompleted, QueryResult.completes, if_pos h]
    · simp only [queryCompleted, QueryResult.completes, if_neg h]
  | bootstrapTimeout numRemaining err =>
    by_cases h : numRemaining = none ∨ numRemaining = some 0
    · simp only [queryCompleted, QueryResult.completes, if_pos h]
    · simp only [queryCompleted, QueryResult.completes, if_neg h]
  | other => rfl

/-- What a step does. -/
structure Steps (dht : Dht) (input : DhtInput kad) (x : Dht × DhtOutput kad) : Prop where
  peerId : x.1.peerId = dht.peerId
  nodeAddress : x.1.nodeAddress = input.newListenAddr?.or dht.nodeAddress
  nextQueryId : x.1.nextQueryId = dht.nextQueryId + if input.isQuery then 1 else 0
  pending : x.1.pending = dht.pending.after (dht.pendingEvent? input).toList
  told : x.2.told.toList = dht.pending.told (dht.pendingEvent? input).toList

theorem commandHandler_steps (dht : Dht) (failure : Option kad.Err) (command : DhtCommand kad) :
    dht.Steps (.command command failure) (dht.commandHandler failure command) := by
  obtain ⟨calls, h⟩ := dht.commandHandler_eq failure command
  rw [h]
  have hevent : dht.pendingEvent? (.command command failure) =
      some (command.event dht.peerId dht.nodeAddress dht.nextQueryId failure) := rfl
  unfold DhtCommand.event at hevent
  cases hfails : command.fails failure with
  | some e =>
    have hquery : (DhtInput.command command failure).isQuery = false := by
      simp [DhtInput.isQuery, hfails]
    rw [hfails] at hevent
    exact ⟨rfl, rfl, by rw [hquery]; rfl, hevent ▸ rfl, hevent ▸ rfl⟩
  | none =>
    rw [hfails] at hevent
    cases hmap : command.map? with
    | some map =>
      have hquery : (DhtInput.command command failure).isQuery = true := by
        simp [DhtInput.isQuery, hfails, hmap]
      rw [hmap] at hevent
      exact ⟨rfl, rfl, by rw [hquery]; rfl, hevent ▸ rfl, hevent ▸ rfl⟩
    | none =>
      have hquery : (DhtInput.command command failure).isQuery = false := by
        simp [DhtInput.isQuery, hmap]
      rw [hmap] at hevent
      exact ⟨rfl, rfl, by rw [hquery]; rfl, hevent ▸ rfl, hevent ▸ rfl⟩

theorem swarmEventHandler_steps (dht : Dht) (event : DhtEvent kad) :
    dht.Steps (.event event) (dht.swarmEventHandler event) := by
  cases event with
  | discovered nodes => exact ⟨rfl, rfl, rfl, rfl, rfl⟩
  | connectionEstablished peerId sendBackAddr =>
    cases sendBackAddr with
    | none => exact ⟨rfl, rfl, rfl, rfl, rfl⟩
    | some addr =>
      by_cases h : peerId ∉ dht.knownPeers
      · rw [swarmEventHandler, if_pos h]
        exact ⟨rfl, rfl, rfl, rfl, rfl⟩
      · rw [swarmEventHandler, if_neg h]
        exact ⟨rfl, rfl, rfl, rfl, rfl⟩
  | newListenAddr address => exact ⟨rfl, rfl, rfl, rfl, rfl⟩
  | ownQuery => exact ⟨rfl, rfl, rfl, rfl, rfl⟩
  | outboundQueryCompleted id result =>
    show dht.Steps _ (dht.queryCompleted id result)
    rw [queryCompleted_eq]
    cases h : result.completes with
    | none =>
      have hevent : dht.pendingEvent? (.event (.outboundQueryCompleted id result)) = none := by
        rw [pendingEvent?_completed, h]
        rfl
      exact ⟨rfl, rfl, rfl, hevent ▸ rfl, hevent ▸ rfl⟩
    | some x =>
      have hevent : dht.pendingEvent? (.event (.outboundQueryCompleted id result)) =
          some (.resolve (x.1, id) x.2) := by
        rw [pendingEvent?_completed, h]
        rfl
      refine ⟨rfl, rfl, rfl, hevent ▸ rfl, hevent ▸ ?_⟩
      exact (List.append_nil _).symm

theorem act_steps (dht : Dht) (input : DhtInput kad) : dht.Steps input (dht.act input) := by
  cases input with
  | command command failure => exact dht.commandHandler_steps failure command
  | event event => exact dht.swarmEventHandler_steps event

/-! ## Runs -/

/-- The state after the inputs. -/
def run (dht : Dht) (inputs : List (DhtInput kad)) : Dht := Run.final step dht inputs

theorem run_pending (dht : Dht) (inputs : List (DhtInput kad)) :
    (dht.run inputs).pending = dht.pending.after (dht.pendingEvents inputs) := by
  induction inputs generalizing dht with
  | nil => rfl
  | cons input inputs ih =>
    show ((dht.step input).run inputs).pending = _
    rw [ih, step, (act_steps dht input).pending, ← Pending.Table.after_append]
    rfl

theorem pendingEvents_append (dht : Dht) (inputs inputs' : List (DhtInput kad)) :
    dht.pendingEvents (inputs ++ inputs') =
      dht.pendingEvents inputs ++ (dht.run inputs).pendingEvents inputs' := by
  induction inputs generalizing dht with
  | nil => rfl
  | cons input inputs ih =>
    show (dht.pendingEvent? input).toList ++ (dht.step input).pendingEvents (inputs ++ inputs') = _
    rw [ih, ← List.append_assoc]
    rfl

/-- What is told is what the table of callers tells. -/
theorem told_eq (dht : Dht) (inputs : List (DhtInput kad)) :
    dht.told inputs = dht.pending.told (dht.pendingEvents inputs) := by
  induction inputs generalizing dht with
  | nil => rfl
  | cons input inputs ih =>
    show (dht.act input).2.told.toList ++ (dht.step input).told inputs = _
    rw [ih, (act_steps dht input).told, step, (act_steps dht input).pending,
      ← Pending.Table.told_append]
    rfl

theorem toldTo_eq (dht : Dht) (caller : ℕ) (inputs : List (DhtInput kad)) :
    dht.toldTo caller inputs = dht.pending.toldTo caller (dht.pendingEvents inputs) := by
  rw [toldTo, told_eq]
  rfl

theorem run_peerId (dht : Dht) (inputs : List (DhtInput kad)) :
    (dht.run inputs).peerId = dht.peerId := by
  induction inputs generalizing dht with
  | nil => rfl
  | cons input inputs ih => exact (ih (dht.step input)).trans (act_steps dht input).peerId

/-- The queries are numbered as they are started. -/
theorem run_nextQueryId (dht : Dht) (inputs : List (DhtInput kad)) :
    (dht.run inputs).nextQueryId = dht.nextQueryId + inputs.countP DhtInput.isQuery := by
  induction inputs generalizing dht with
  | nil => rfl
  | cons input inputs ih =>
    show ((dht.step input).run inputs).nextQueryId = _
    rw [ih, step, (act_steps dht input).nextQueryId, List.countP_cons]
    omega

/-- The node's address is the one it listened on last. -/
theorem run_nodeAddress (dht : Dht) (inputs : List (DhtInput kad)) :
    (dht.run inputs).nodeAddress =
      (inputs.filterMap DhtInput.newListenAddr?).getLast?.or dht.nodeAddress := by
  induction inputs generalizing dht with
  | nil => rfl
  | cons input inputs ih =>
    show ((dht.step input).run inputs).nodeAddress = _
    rw [ih, step, (act_steps dht input).nodeAddress, List.filterMap_cons]
    cases input.newListenAddr? with
    | none => rfl
    | some address =>
      show _ = (address :: _).getLast?.or _
      rw [List.getLast?_cons]
      cases (inputs.filterMap DhtInput.newListenAddr?).getLast? <;> rfl

theorem next_pendingEvent (dht : Dht) (input : DhtInput kad) :
    (dht.pending.after (dht.pendingEvent? input).toList).next =
      dht.pending.next + if input.isCommand then 1 else 0 := by
  cases input with
  | command command failure =>
    show (dht.pending.step (command.event _ _ _ failure)).1.next = _
    unfold DhtCommand.event
    split <;> rfl
  | event event =>
    cases event with
    | outboundQueryCompleted id result =>
      rw [pendingEvent?_completed]
      cases result.completes <;> rfl
    | _ => rfl

/-- The callers are numbered as they come. -/
theorem run_next (dht : Dht) (inputs : List (DhtInput kad)) :
    (dht.run inputs).pending.next = dht.pending.next + inputs.countP DhtInput.isCommand := by
  induction inputs generalizing dht with
  | nil => rfl
  | cons input inputs ih =>
    show ((dht.step input).run inputs).pending.next = _
    rw [ih, step, (act_steps dht input).pending, next_pendingEvent, List.countP_cons]
    omega

/-- A caller in the map is told what completes its query. -/
theorem answer?_pendingEvent (dht : Dht) (map : PendingMap) (id : ℕ) (input : DhtInput kad) :
    (dht.pendingEvent? input).bind (Pending.Event.answer? (map, id)) = input.completes map id := by
  cases input with
  | command command failure =>
    show (command.event _ _ _ failure).answer? (map, id) = none
    unfold DhtCommand.event
    split <;> rfl
  | event event =>
    cases event with
    | outboundQueryCompleted id' result =>
      show _ = (result.completes.filter fun x => decide (x.1 = map ∧ id' = id)).map Prod.snd
      rw [pendingEvent?_completed]
      cases result.completes with
      | none => rfl
      | some x =>
        show (if (x.1, id') = (map, id) then some x.2 else none) = _
        by_cases h : x.1 = map ∧ id' = id
        · simp [h, Option.filter]
        · simp [h, Option.filter]
    | _ => rfl

theorem findSome?_pendingEvents (dht : Dht) (map : PendingMap) (id : ℕ)
    (inputs : List (DhtInput kad)) :
    (dht.pendingEvents inputs).findSome? (Pending.Event.answer? (map, id)) =
      inputs.findSome? (DhtInput.completes map id) := by
  induction inputs generalizing dht with
  | nil => rfl
  | cons input inputs ih =>
    have hone := answer?_pendingEvent dht map id input
    rw [pendingEvents, List.findSome?_append, ih, List.findSome?_cons, ← hone]
    cases dht.pendingEvent? input with
    | none => rfl
    | some e =>
      simp only [Option.toList_some, List.findSome?_singleton, Option.bind_some]
      cases e.answer? (map, id) <;> rfl

/-- No id is used for two queries. -/
theorem not_wait_of_lt (dht : Dht) {id : ℕ} (h : id < dht.nextQueryId) (map : PendingMap)
    (inputs : List (DhtInput kad)) : ∀ e ∈ dht.pendingEvents inputs, e ≠ .wait (map, id) := by
  induction inputs generalizing dht with
  | nil => exact fun _ he => nomatch he
  | cons input inputs ih =>
    rintro e he rfl
    rcases List.mem_append.mp he with hnow | hlater
    · cases input with
      | command command failure =>
        rw [Option.mem_toList] at hnow
        have hevent := Option.some.inj hnow
        unfold DhtCommand.event at hevent
        split at hevent
        · cases hevent
        · cases hevent
          exact Nat.lt_irrefl _ h
        · cases hevent
      | event event =>
        cases event with
        | outboundQueryCompleted id' result =>
          rw [pendingEvent?_completed, Option.mem_toList] at hnow
          obtain ⟨x, -, hx⟩ := Option.map_eq_some_iff.mp hnow
          cases hx
        | _ => cases hnow
    · refine ih (dht.step input) ?_ _ hlater rfl
      rw [step, (act_steps dht input).nextQueryId]
      omega

end Dht

/-! ## Callers -/

/-- The caller of a command is told what the first completion of its query in its map says, or at
once that its call on the swarm has failed, or what there is to tell without a query; it is told this
once, and nothing else. -/
theorem dht_caller_told (peerId : PeerId) (pre post : List (DhtInput kad))
    (command : DhtCommand kad) (failure : Option kad.Err) :
    (Dht.new peerId).toldTo (pre.countP DhtInput.isCommand)
        (pre ++ .command command failure :: post) =
      match command.fails failure, command.map? with
      | some e, _ => [.failed e]
      | none, some map =>
        (post.findSome? (DhtInput.completes map (pre.countP DhtInput.isQuery))).toList
      | none, none =>
        [command.result peerId (pre.filterMap DhtInput.newListenAddr?).getLast?] := by
  have hfresh : (Dht.new peerId).pending.Fresh := Pending.Table.fresh_new
  have hfresh' := hfresh.after ((Dht.new peerId).pendingEvents pre)
  rw [← Dht.run_pending] at hfresh'
  have hcaller : pre.countP DhtInput.isCommand =
      (((Dht.new peerId).pending).after ((Dht.new peerId).pendingEvents pre)).next := by
    rw [← Dht.run_pending, Dht.run_next]
    exact (Nat.zero_add _).symm
  have hid : ((Dht.new peerId).run pre).nextQueryId = pre.countP DhtInput.isQuery := by
    rw [Dht.run_nextQueryId]
    exact Nat.zero_add _
  have haddr : ((Dht.new peerId).run pre).nodeAddress =
      (pre.filterMap DhtInput.newListenAddr?).getLast? := by
    rw [Dht.run_nodeAddress]
    exact Option.or_none
  have hpeer : ((Dht.new peerId).run pre).peerId = peerId := Dht.run_peerId _ _
  -- what is told before the caller comes is not told to it
  rw [Dht.toldTo_eq, Dht.pendingEvents_append, Pending.Table.toldTo_append, hcaller,
    Pending.Table.toldTo_before hfresh, List.nil_append, ← Dht.run_pending]
  show Pending.Table.toldTo _ _ (DhtCommand.event _ _ _ failure command :: _) = _
  rw [DhtCommand.event, hid, haddr, hpeer]
  cases hfails : command.fails failure with
  | some e => exact Pending.Table.toldTo_reply hfresh' _ _
  | none =>
    cases hmap : command.map? with
    | none => exact Pending.Table.toldTo_reply hfresh' _ _
    | some map =>
      have hquery : (DhtInput.command command failure).isQuery = true := by
        simp [DhtInput.isQuery, hfails, hmap]
      have hlt : pre.countP DhtInput.isQuery <
          (((Dht.new peerId).run pre).step (.command command failure)).nextQueryId := by
        rw [Dht.step, (Dht.act_steps _ _).nextQueryId, hid, hquery]
        exact Nat.lt_succ_self _
      have htold := Pending.Table.toldTo_wait hfresh' (Dht.not_wait_of_lt _ hlt map post)
      rw [Dht.findSome?_pendingEvents] at htold
      exact htold

end Dse
