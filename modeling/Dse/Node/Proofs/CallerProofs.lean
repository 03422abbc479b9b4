import Dse.Node.Network
import Dse.Lib.Run
import Mathlib.Data.List.Nodup

/-!
# The callers of the network

Whoever sends a command waits on a `oneshot` for what becomes of it. A `CallLedger` writes down, next to
a protocol, which call belongs to which request, who was told what, and what libp2p has done with
each inbound request. No caller is told twice, or of another call. A caller of `send_response` waits
for an event that libp2p still owes exactly as long as nobody answers a request that has failed: the
error that libp2p returns there is dropped, and the caller is put into the map all the same.
-/

namespace Dse

variable {Request Response : Type}

/-! ## Calls -/

/-- What a caller waits for: the response to a request, or the sending of a response. -/
inductive PendingCall
  | request (key : RequestKey)
  | response (key : RequestKey)
deriving DecidableEq, Repr

namespace ProtocolInput

/-- The call that comes with a command. -/
def call? (p : Protocol) : ProtocolInput Request Response → Option PendingCall
  | .sendRequest peerId _ => some (.request (peerId, p.nextRequestId))
  | .sendResponse peerId requestId _ => some (.response (peerId, requestId))
  | .event _ => none

/-- The call that an input decides, and how. A `Send*Response` decides its own call if the channel
is missing. -/
def outcome? : ProtocolInput Request Response → Option (PendingCall × CallerResult Response)
  | .event (.response peer requestId response) =>
    some (.request (peer, requestId), .response response)
  | .event (.outboundFailure peer requestId) =>
    some (.request (peer, requestId), .failed .outboundFailure)
  | .event (.responseSent peer requestId) => some (.response (peer, requestId), .sent)
  | .event (.inboundFailure peer requestId) =>
    some (.response (peer, requestId), .failed .inboundFailure)
  | .sendResponse peerId requestId _ =>
    some (.response (peerId, requestId), .failed (.responseChannelMissing requestId peerId))
  | .sendRequest _ _ => none
  | .event (.request _ _ _) => none

end ProtocolInput

namespace Protocol

/-- The caller is in the map for the call. -/
def Waits (p : Protocol) (caller : Caller) : PendingCall → Prop
  | .request key => p.pendingOutboundRequests key = some caller
  | .response key => p.pendingInboundResponse key = some caller

/-- A call has one caller. -/
theorem Waits.unique {p : Protocol} {c c' : Caller} {call : PendingCall} (h : p.Waits c call)
    (h' : p.Waits c' call) : c = c' := by
  cases call with
  | request key => exact Option.some.inj (h.symm.trans h')
  | response key => exact Option.some.inj (h.symm.trans h')

/-- What a step does to the callers. -/
inductive Effect (p : Protocol) (input : ProtocolInput Request Response) : Prop
  /-- No caller comes or goes. -/
  | quiet (hcall : input.call? p = none) (htold : (p.act input).2.told = none)
      (hnext : (p.act input).1.nextCaller = p.nextCaller)
      (hwaits : ∀ c call, (p.act input).1.Waits c call ↔ p.Waits c call)
  /-- A caller begins to wait. -/
  | waiting (call : PendingCall) (hcall : input.call? p = some call)
      (htold : (p.act input).2.told = none)
      (hnext : (p.act input).1.nextCaller = p.nextCaller + 1)
      (hwaits : ∀ c call', (p.act input).1.Waits c call' ↔
        if call' = call then c = p.nextCaller else p.Waits c call')
  /-- A caller is told at once. -/
  | refused (call : PendingCall) (result : CallerResult Response) (hcall : input.call? p = some call)
      (htold : (p.act input).2.told = some (p.nextCaller, result))
      (houtcome : input.outcome? = some (call, result))
      (hnext : (p.act input).1.nextCaller = p.nextCaller + 1)
      (hwaits : ∀ c call', (p.act input).1.Waits c call' ↔ p.Waits c call')
  /-- A caller is told, and waits no longer. -/
  | told (caller : Caller) (call : PendingCall) (result : CallerResult Response)
      (hcall : input.call? p = none) (hwaited : p.Waits caller call)
      (htold : (p.act input).2.told = some (caller, result))
      (houtcome : input.outcome? = some (call, result))
      (hnext : (p.act input).1.nextCaller = p.nextCaller)
      (hwaits : ∀ c call', (p.act input).1.Waits c call' ↔ call' ≠ call ∧ p.Waits c call')

variable {p p' : Protocol} {input : ProtocolInput Request Response}

/-- One entry of the map for requests is set. -/
theorem waits_of_setOutbound {key : RequestKey} {entry : Option Caller}
    (ho : p'.pendingOutboundRequests = Function.update p.pendingOutboundRequests key entry)
    (hi : p'.pendingInboundResponse = p.pendingInboundResponse) (c : Caller) (call : PendingCall) :
    p'.Waits c call ↔ if call = .request key then entry = some c else p.Waits c call := by
  cases call with
  | request key' =>
    show p'.pendingOutboundRequests key' = some c ↔ _
    rw [ho, Function.update_apply]
    by_cases hk : key' = key
    · rw [if_pos hk, if_pos (congrArg _ hk)]
    · have hne : PendingCall.request key' ≠ .request key := fun h => hk (PendingCall.request.inj h)
      rw [if_neg hk, if_neg hne]
      rfl
  | response key' =>
    show p'.pendingInboundResponse key' = some c ↔ _
    rw [hi, if_neg PendingCall.noConfusion]
    rfl

/-- One entry of the map for responses is set. -/
theorem waits_of_setInbound {key : RequestKey} {entry : Option Caller}
    (ho : p'.pendingOutboundRequests = p.pendingOutboundRequests)
    (hi : p'.pendingInboundResponse = Function.update p.pendingInboundResponse key entry)
    (c : Caller) (call : PendingCall) :
    p'.Waits c call ↔ if call = .response key then entry = some c else p.Waits c call := by
  cases call with
  | request key' =>
    show p'.pendingOutboundRequests key' = some c ↔ _
    rw [ho, if_neg PendingCall.noConfusion]
    rfl
  | response key' =>
    show p'.pendingInboundResponse key' = some c ↔ _
    rw [hi, Function.update_apply]
    by_cases hk : key' = key
    · rw [if_pos hk, if_pos (congrArg _ hk)]
    · have hne : PendingCall.response key' ≠ .response key :=
        fun h => hk (PendingCall.response.inj h)
      rw [if_neg hk, if_neg hne]
      rfl

/-- A caller that is taken out of its map and told. -/
theorem effect_of_taken {call : PendingCall} {caller : Caller} {result : CallerResult Response}
    (hact : p.act input = (p', { told := some (caller, result) })) (hcall : input.call? p = none)
    (houtcome : input.outcome? = some (call, result)) (hwaited : p.Waits caller call)
    (hnext : p'.nextCaller = p.nextCaller)
    (hwaits : ∀ c call', p'.Waits c call' ↔ if call' = call then none = some c else p.Waits c call') :
    p.Effect input := by
  refine .told caller call result hcall hwaited (by rw [hact]) houtcome (by rw [hact, hnext])
    fun c call' => ?_
  rw [hact]
  by_cases heq : call' = call
  · refine iff_of_false (fun hw => ?_) fun hne => hne.1 heq
    have hnone := (hwaits c call').mp hw
    rw [if_pos heq] at hnone
    cases hnone
  · have hold := hwaits c call'
    rw [if_neg heq] at hold
    exact hold.trans (and_iff_right heq).symm

theorem effect_of_tellOutbound {key : RequestKey} {result : CallerResult Response}
    (hact : p.act input = p.tellOutbound key result) (hcall : input.call? p = none)
    (houtcome : input.outcome? = some (.request key, result)) : p.Effect input := by
  cases hkey : p.pendingOutboundRequests key with
  | none =>
    have hsame : p.act input = (p, {}) := by rw [hact, tellOutbound, hkey]
    refine .quiet hcall ?_ ?_ fun c call => ?_ <;> rw [hsame]
  | some caller =>
    have htell : p.act input =
        ({ p with pendingOutboundRequests := Function.update p.pendingOutboundRequests key none },
          { told := some (caller, result) }) := by rw [hact, tellOutbound, hkey]
    exact effect_of_taken htell hcall houtcome hkey rfl (waits_of_setOutbound rfl rfl)

theorem effect_of_tellInbound {key : RequestKey} {result : CallerResult Response}
    (hact : p.act input = p.tellInbound key result) (hcall : input.call? p = none)
    (houtcome : input.outcome? = some (.response key, result)) : p.Effect input := by
  cases hkey : p.pendingInboundResponse key with
  | none =>
    have hsame : p.act input = (p, {}) := by rw [hact, tellInbound, hkey]
    refine .quiet hcall ?_ ?_ fun c call => ?_ <;> rw [hsame]
  | some caller =>
    have htell : p.act input =
        ({ p with pendingInboundResponse := Function.update p.pendingInboundResponse key none },
          { told := some (caller, result) }) := by rw [hact, tellInbound, hkey]
    exact effect_of_taken htell hcall houtcome hkey rfl (waits_of_setInbound rfl rfl)

theorem effect_sendRequest (p : Protocol) (peerId : PeerId) (request : Request) :
    p.Effect (.sendRequest peerId request : ProtocolInput Request Response) := by
  let input : ProtocolInput Request Response := .sendRequest peerId request
  have hset : ∀ c call, (p.act input).1.Waits c call ↔
      if call = .request (peerId, p.nextRequestId) then some p.nextCaller = some c
      else p.Waits c call := waits_of_setOutbound rfl rfl
  refine .waiting (.request (peerId, p.nextRequestId)) rfl rfl rfl fun c call => ?_
  rw [hset, Option.some_inj, @eq_comm _ p.nextCaller]

theorem effect_sendResponse (p : Protocol) (peerId : PeerId) (requestId : ℕ) (response : Response) :
    p.Effect (.sendResponse peerId requestId response : ProtocolInput Request Response) := by
  let input : ProtocolInput Request Response := .sendResponse peerId requestId response
  by_cases hchannel : (peerId, requestId) ∈ p.inboundResponseChannels
  · have hact : p.act input = _ := if_pos hchannel
    have hset : ∀ c call, (p.act input).1.Waits c call ↔
        if call = .response (peerId, requestId) then some p.nextCaller = some c
        else p.Waits c call := by
      rw [hact]
      exact waits_of_setInbound rfl rfl
    refine .waiting (.response (peerId, requestId)) rfl (by rw [hact]) (by rw [hact])
      fun c call => ?_
    rw [hset, Option.some_inj, @eq_comm _ p.nextCaller]
  · have hact : p.act input = _ := if_neg hchannel
    refine .refused (.response (peerId, requestId)) _ rfl (by rw [hact]) rfl (by rw [hact])
      fun c call => ?_
    rw [hact]
    cases call <;> rfl

/-- Every step is one of the four. -/
theorem act_effect (p : Protocol) (input : ProtocolInput Request Response) : p.Effect input := by
  cases input with
  | sendRequest peerId request => exact effect_sendRequest p peerId request
  | sendResponse peerId requestId response => exact effect_sendResponse p peerId requestId response
  | event event =>
    cases event with
    | request peer requestId request =>
      refine .quiet rfl rfl rfl fun c call => ?_
      cases call <;> rfl
    | response peer requestId response => exact effect_of_tellOutbound rfl rfl rfl
    | responseSent peer requestId => exact effect_of_tellInbound rfl rfl rfl
    | outboundFailure peer requestId => exact effect_of_tellOutbound rfl rfl rfl
    | inboundFailure peer requestId => exact effect_of_tellInbound rfl rfl rfl

end Protocol

/-! ## The ledger of a protocol -/

/-- What libp2p has done with an inbound request. -/
inductive InboundStatus
  | unseen
  /-- It handed the request out. -/
  | received
  /-- It took the response, and owes an event. -/
  | accepted
  /-- It emitted the event for the response. -/
  | finished
  /-- It emitted a failure, and takes no response. -/
  | failed
deriving DecidableEq, Repr

/-- A caller that was told something, with what was decided by the same step. -/
structure Telling (Response : Type) where
  caller : Caller
  result : CallerResult Response
  outcome : Option (PendingCall × CallerResult Response)
deriving DecidableEq, Repr

structure CallLedger (Response : Type) where
  inbound : RequestKey → InboundStatus
  calls : List (Caller × PendingCall)
  told : List (Telling Response)

namespace CallLedger

def start : CallLedger Response where
  inbound := fun _ => .unseen
  calls := []
  told := []

/-- The callers that were told. -/
def callers (g : CallLedger Response) : List Caller := g.told.map Telling.caller

/-- libp2p follows the inbound requests. `send_response` is an error once a request has failed. -/
def follow (g : CallLedger Response) (input : ProtocolInput Request Response)
    (output : ProtocolOutput Request Response) : RequestKey → InboundStatus :=
  match input with
  | .event (.request peer requestId _) => Function.update g.inbound (peer, requestId) .received
  | .event (.responseSent peer requestId) => Function.update g.inbound (peer, requestId) .finished
  | .event (.inboundFailure peer requestId) =>
    Function.update g.inbound (peer, requestId) <|
      if g.inbound (peer, requestId) = .accepted then .finished else .failed
  | _ =>
    match output.response with
    | some (key, _) =>
      if g.inbound key = .received then Function.update g.inbound key .accepted else g.inbound
    | none => g.inbound

/-- The observer. -/
def observe (g : CallLedger Response) (p : Protocol) (input : ProtocolInput Request Response) :
    CallLedger Response where
  inbound := g.follow input (p.act input).2
  calls := g.calls ++ (input.call? p).toList.map (p.nextCaller, ·)
  told := g.told ++ (p.act input).2.told.toList.map fun t => ⟨t.1, t.2, input.outcome?⟩

/-- Every inbound request has an id of its own, a response has one event, and a failed request none
any more. -/
def Admits (g : CallLedger Response) : ProtocolInput Request Response → Prop
  | .event (.request peer requestId _) => g.inbound (peer, requestId) = .unseen
  | .event (.responseSent peer requestId) => g.inbound (peer, requestId) = .accepted
  | .event (.inboundFailure peer requestId) =>
    g.inbound (peer, requestId) ≠ .finished ∧ g.inbound (peer, requestId) ≠ .failed
  | _ => True

/-- No caller was told twice, and each of the outcome of its own call. -/
structure Honest (g : CallLedger Response) : Prop where
  once : g.callers.Nodup
  own : ∀ t ∈ g.told, ∃ call, (t.caller, call) ∈ g.calls ∧ t.outcome = some (call, t.result)
  oneCall : (g.calls.map Prod.fst).Nodup

/-- Every caller has been told or waits, and libp2p owes an event to those who wait for the sending
of a response. -/
structure NoOrphan (g : CallLedger Response) (p : Protocol) : Prop where
  served : ∀ x ∈ g.calls, x.1 ∈ g.callers ∨ p.Waits x.1 x.2
  owed : ∀ key caller, p.pendingInboundResponse key = some caller → g.inbound key = .accepted

/-- The input answers a request that has failed, on its channel. -/
def AnswersFailed (g : CallLedger Response) (p : Protocol) : ProtocolInput Request Response → Prop
  | .sendResponse peerId requestId _ =>
    (peerId, requestId) ∈ p.inboundResponseChannels ∧ g.inbound (peerId, requestId) = .failed
  | _ => False

/-! ### No caller is told twice -/

/-- The ledger fits the protocol. -/
structure Fits (g : CallLedger Response) (p : Protocol) : Prop extends Honest g where
  known : ∀ x ∈ g.calls, x.1 < p.nextCaller
  waits : ∀ caller call, p.Waits caller call → (caller, call) ∈ g.calls ∧ caller ∉ g.callers

theorem fits_start : Fits (start : CallLedger Response) .new where
  once := List.nodup_nil
  own := by simp [start]
  oneCall := List.nodup_nil
  known := by simp [start]
  waits caller call h := by cases call <;> simp [Protocol.Waits, Protocol.new] at h

variable {g : CallLedger Response} {p : Protocol} {input : ProtocolInput Request Response}

/-- Told callers have a call. -/
theorem Fits.known_told (h : g.Fits p) {caller : Caller} (hc : caller ∈ g.callers) :
    caller < p.nextCaller := by
  obtain ⟨t, ht, rfl⟩ := List.mem_map.mp hc
  obtain ⟨call, hcall, -⟩ := h.own t ht
  exact h.known _ hcall

theorem Fits.oneCall_eq (h : g.Fits p) {caller : Caller} {call call' : PendingCall}
    (hc : (caller, call) ∈ g.calls) (hc' : (caller, call') ∈ g.calls) : call = call' :=
  congrArg Prod.snd (List.inj_on_of_nodup_map h.oneCall hc hc' rfl)

theorem observe_calls (hcall : input.call? p = none) : (g.observe p input).calls = g.calls := by
  unfold observe
  rw [hcall]
  exact List.append_nil _

theorem observe_calls_some {call : PendingCall} (hcall : input.call? p = some call) :
    (g.observe p input).calls = g.calls ++ [(p.nextCaller, call)] := by
  unfold observe
  rw [hcall]
  rfl

theorem observe_told (htold : (p.act input).2.told = none) : (g.observe p input).told = g.told := by
  unfold observe
  rw [htold]
  exact List.append_nil _

theorem observe_told_some {caller : Caller} {result : CallerResult Response}
    (htold : (p.act input).2.told = some (caller, result)) :
    (g.observe p input).told = g.told ++ [⟨caller, result, input.outcome?⟩] := by
  unfold observe
  rw [htold]
  rfl

theorem observe_callers (htold : (p.act input).2.told = none) :
    (g.observe p input).callers = g.callers :=
  congrArg (List.map Telling.caller) (observe_told htold)

theorem observe_callers_some {caller : Caller} {result : CallerResult Response}
    (htold : (p.act input).2.told = some (caller, result)) :
    (g.observe p input).callers = g.callers ++ [caller] := by
  unfold callers
  rw [observe_told_some htold, List.map_append, List.map_singleton]

/-- A new call goes to a caller without one. -/
theorem Fits.nodup_calls (h : g.Fits p) (call : PendingCall) :
    ((g.calls ++ [(p.nextCaller, call)]).map Prod.fst).Nodup := by
  rw [List.map_append, List.map_singleton]
  refine List.nodup_append.mpr ⟨h.oneCall, List.nodup_singleton _, fun a ha b hb => ?_⟩
  rw [List.mem_singleton] at hb
  obtain ⟨x, hx, rfl⟩ := List.mem_map.mp ha
  have hlt := h.known x hx
  exact fun heq => absurd (heq.trans hb) (Nat.ne_of_lt hlt)

theorem Fits.known_concat (h : g.Fits p) (call : PendingCall) :
    ∀ x ∈ g.calls ++ [(p.nextCaller, call)], x.1 < p.nextCaller + 1 := by
  intro x hx
  rcases List.mem_append.mp hx with hx | hx
  · exact Nat.lt_succ_of_lt (h.known x hx)
  · rw [List.mem_singleton.mp hx]
    exact Nat.lt_succ_self _

/-- Telling a caller that was not told. -/
theorem Fits.nodup_callers (h : g.Fits p) {t : Telling Response} (ht : t.caller ∉ g.callers) :
    ((g.told ++ [t]).map Telling.caller).Nodup := by
  rw [List.map_append, List.map_singleton]
  exact List.nodup_append.mpr ⟨h.once, List.nodup_singleton _, fun a ha b hb =>
    List.mem_singleton.mp hb ▸ ne_of_mem_of_not_mem ha ht⟩

/-- Every step keeps the ledger fitting, whatever libp2p does. -/
theorem Fits.observe (h : g.Fits p) (input : ProtocolInput Request Response) :
    (g.observe p input).Fits (p.act input).1 := by
  have hnext : p.nextCaller ∉ g.callers := fun hc => Nat.lt_irrefl _ (h.known_told hc)
  cases p.act_effect input with
  | quiet hcall htold hnc hwaits =>
    have hcalls := observe_calls (g := g) hcall
    have htells := observe_told (g := g) htold
    have hcallers := observe_callers (g := g) htold
    refine ⟨⟨?_, ?_, ?_⟩, ?_, ?_⟩
    · rw [hcallers]
      exact h.once
    · rw [hcalls, htells]
      exact h.own
    · rw [hcalls]
      exact h.oneCall
    · rw [hcalls, hnc]
      exact h.known
    · intro c call hw
      rw [hcalls, hcallers]
      exact h.waits c call ((hwaits c call).mp hw)
  | waiting call hcall htold hnc hwaits =>
    have hcalls := observe_calls_some (g := g) hcall
    have htells := observe_told (g := g) htold
    have hcallers := observe_callers (g := g) htold
    refine ⟨⟨?_, ?_, ?_⟩, ?_, ?_⟩
    · rw [hcallers]
      exact h.once
    · rw [hcalls, htells]
      intro t ht
      obtain ⟨call', hmem, hout⟩ := h.own t ht
      exact ⟨call', List.mem_append_left _ hmem, hout⟩
    · rw [hcalls]
      exact h.nodup_calls call
    · rw [hcalls, hnc]
      exact h.known_concat call
    · intro c call' hw
      rw [hcalls, hcallers]
      have hw' := (hwaits c call').mp hw
      by_cases heq : call' = call
      · rw [if_pos heq] at hw'
        rw [hw', heq]
        exact ⟨List.mem_concat_self, hnext⟩
      · rw [if_neg heq] at hw'
        obtain ⟨hmem, hnot⟩ := h.waits c call' hw'
        exact ⟨List.mem_append_left _ hmem, hnot⟩
  | refused call result hcall htold houtcome hnc hwaits =>
    have hcalls := observe_calls_some (g := g) hcall
    have htells := observe_told_some (g := g) htold
    have hcallers := observe_callers_some (g := g) htold
    refine ⟨⟨?_, ?_, ?_⟩, ?_, ?_⟩
    · unfold callers
      rw [htells]
      exact h.nodup_callers hnext
    · rw [hcalls, htells]
      intro t ht
      rcases List.mem_append.mp ht with ht | ht
      · obtain ⟨call', hmem, hout⟩ := h.own t ht
        exact ⟨call', List.mem_append_left _ hmem, hout⟩
      · rw [List.mem_singleton.mp ht]
        exact ⟨call, List.mem_concat_self, houtcome⟩
    · rw [hcalls]
      exact h.nodup_calls call
    · rw [hcalls, hnc]
      exact h.known_concat call
    · intro c call' hw
      rw [hcalls, hcallers]
      obtain ⟨hmem, hnot⟩ := h.waits c call' ((hwaits c call').mp hw)
      refine ⟨List.mem_append_left _ hmem, fun hc => ?_⟩
      rcases List.mem_append.mp hc with hc | hc
      · exact hnot hc
      · exact absurd (List.mem_singleton.mp hc) (Nat.ne_of_lt (h.known _ hmem))
  | told caller call result hcall hwaited htold houtcome hnc hwaits =>
    have hcalls := observe_calls (g := g) hcall
    have htells := observe_told_some (g := g) htold
    have hcallers := observe_callers_some (g := g) htold
    obtain ⟨hown, hnew⟩ := h.waits caller call hwaited
    refine ⟨⟨?_, ?_, ?_⟩, ?_, ?_⟩
    · unfold callers
      rw [htells]
      exact h.nodup_callers hnew
    · rw [hcalls, htells]
      intro t ht
      rcases List.mem_append.mp ht with ht | ht
      · exact h.own t ht
      · rw [List.mem_singleton.mp ht]
        exact ⟨call, hown, houtcome⟩
    · rw [hcalls]
      exact h.oneCall
    · rw [hcalls, hnc]
      exact h.known
    · intro c call' hw
      obtain ⟨hne, hw'⟩ := (hwaits c call').mp hw
      obtain ⟨hmem, hnot⟩ := h.waits c call' hw'
      rw [hcalls, hcallers]
      refine ⟨hmem, fun hc => ?_⟩
      rcases List.mem_append.mp hc with hc | hc
      · exact hnot hc
      · -- the caller has one call only
        rw [List.mem_singleton.mp hc] at hmem
        exact hne (h.oneCall_eq hmem hown)

/-! ### Nobody waits in vain -/

/-- What the network still has of the inbound requests, and what libp2p did with them. -/
structure Inbound (g : CallLedger Response) (p : Protocol) : Prop where
  owed : ∀ key caller, p.pendingInboundResponse key = some caller → g.inbound key = .accepted
  held : ∀ key ∈ p.inboundResponseChannels, g.inbound key = .received ∨ g.inbound key = .failed

/-- The ledger of a protocol where nobody waits in vain. -/
structure Served (g : CallLedger Response) (p : Protocol) : Prop extends Fits g p, Inbound g p where
  served : ∀ x ∈ g.calls, x.1 ∈ g.callers ∨ p.Waits x.1 x.2
  fresh : ∀ key caller, p.pendingOutboundRequests key = some caller → key.2 < p.nextRequestId

theorem served_start : Served (start : CallLedger Response) .new where
  toFits := fits_start
  served := by simp [start]
  owed _ _ h := by simp [Protocol.new] at h
  fresh _ _ h := by simp [Protocol.new] at h
  held _ h := by simp [Protocol.new] at h

/-- Nobody waits yet for a call that begins to wait. -/
theorem Served.unwaited (h : g.Served p) {call : PendingCall} (hcall : input.call? p = some call)
    (htold : (p.act input).2.told = none) (caller : Caller) : ¬ p.Waits caller call := by
  intro hw
  cases input with
  | sendRequest peerId request =>
    obtain rfl := Option.some.inj hcall
    exact Nat.lt_irrefl _ (h.fresh _ caller hw)
  | sendResponse peerId requestId response =>
    obtain rfl := Option.some.inj hcall
    have howed := h.owed _ caller hw
    by_cases hchannel : (peerId, requestId) ∈ p.inboundResponseChannels
    · rcases h.held _ hchannel with heq | heq
      · rw [heq] at howed
        cases howed
      · rw [heq] at howed
        cases howed
    · have hact : p.act (.sendResponse peerId requestId response :
          ProtocolInput Request Response) = _ := if_neg hchannel
      rw [hact] at htold
      cases htold
  | event event => cases hcall

theorem Served.observe_served (h : g.Served p) (input : ProtocolInput Request Response) :
    ∀ x ∈ (g.observe p input).calls,
      x.1 ∈ (g.observe p input).callers ∨ (p.act input).1.Waits x.1 x.2 := by
  cases p.act_effect input with
  | quiet hcall htold hnc hwaits =>
    rw [observe_calls hcall, observe_callers htold]
    intro x hx
    rw [hwaits]
    exact h.served x hx
  | waiting call hcall htold hnc hwaits =>
    rw [observe_calls_some hcall, observe_callers htold]
    intro x hx
    rw [hwaits]
    rcases List.mem_append.mp hx with hx | hx
    · refine (h.served x hx).imp_right fun hw => ?_
      have hne : x.2 ≠ call := by
        rintro rfl
        exact h.unwaited hcall htold x.1 hw
      rw [if_neg hne]
      exact hw
    · rw [List.mem_singleton.mp hx]
      exact Or.inr (if_pos rfl |>.mpr rfl)
  | refused call result hcall htold houtcome hnc hwaits =>
    rw [observe_calls_some hcall, observe_callers_some htold]
    intro x hx
    rw [hwaits]
    rcases List.mem_append.mp hx with hx | hx
    · exact (h.served x hx).imp_left (List.mem_append_left _)
    · rw [List.mem_singleton.mp hx]
      exact Or.inl List.mem_concat_self
  | told caller call result hcall hwaited htold houtcome hnc hwaits =>
    rw [observe_calls hcall, observe_callers_some htold]
    intro x hx
    rw [hwaits]
    rcases h.served x hx with hc | hw
    · exact Or.inl (List.mem_append_left _ hc)
    · by_cases hcase : x.2 = call
      · have hsame : x.1 = caller := by
          rw [hcase] at hw
          exact hw.unique hwaited
        rw [hsame]
        exact Or.inl List.mem_concat_self
      · exact Or.inr ⟨hcase, hw⟩

theorem Inbound.same (h : g.Inbound p) {g' : CallLedger Response} {p' : Protocol}
    (hg : g'.inbound = g.inbound) (hp : p'.pendingInboundResponse = p.pendingInboundResponse)
    (hc : p'.inboundResponseChannels = p.inboundResponseChannels) : g'.Inbound p' where
  owed := by
    rw [hg, hp]
    exact h.owed
  held := by
    rw [hg, hc]
    exact h.held

/-- A new request, with its channel. -/
theorem Inbound.receive (h : g.Inbound p) {key : RequestKey} {g' : CallLedger Response}
    (hunseen : g.inbound key = .unseen)
    (hg : g'.inbound = Function.update g.inbound key .received) :
    g'.Inbound { p with inboundResponseChannels := insert key p.inboundResponseChannels } := by
  constructor
  · intro key' caller hp
    have howed := h.owed key' caller hp
    have hne : key' ≠ key := by
      rintro rfl
      rw [hunseen] at howed
      cases howed
    rw [hg, Function.update_of_ne hne]
    exact howed
  · intro key' hmem
    rw [hg, Function.update_apply]
    by_cases hk : key' = key
    · exact Or.inl (if_pos hk)
    · rw [if_neg hk]
      exact h.held key' (Finset.mem_of_mem_insert_of_ne hmem hk)

/-- A response that libp2p takes, with its caller. -/
theorem Inbound.accept (h : g.Inbound p) {key : RequestKey} {caller : Caller}
    {g' : CallLedger Response} (hg : g'.inbound = Function.update g.inbound key .accepted) :
    g'.Inbound
      { p with
        nextCaller := p.nextCaller + 1
        inboundResponseChannels := p.inboundResponseChannels.erase key
        pendingInboundResponse := Function.update p.pendingInboundResponse key caller } := by
  constructor
  · intro key' caller' hp
    rw [hg, Function.update_apply]
    by_cases hk : key' = key
    · exact if_pos hk
    · rw [if_neg hk]
      have hp' : Function.update p.pendingInboundResponse key (some caller) key' = some caller' := hp
      rw [Function.update_of_ne hk] at hp'
      exact h.owed key' caller' hp'
  · intro key' hmem
    obtain ⟨hne, hmem⟩ := Finset.mem_erase.mp hmem
    rw [hg, Function.update_of_ne hne]
    exact h.held key' hmem

/-- Taking the caller of a request out of its map. -/
theorem Inbound.tellOutbound (h : g.Inbound p) {key : RequestKey} {result : CallerResult Response}
    (hact : p.act input = p.tellOutbound key result)
    (hfollow : g.follow input (p.act input).2 =
      match (p.act input).2.response with
      | some (key, _) =>
        if g.inbound key = .received then Function.update g.inbound key .accepted else g.inbound
      | none => g.inbound) : (g.observe p input).Inbound (p.act input).1 := by
  obtain ⟨hresponse, hafter⟩ := p.tellOutbound_spec Request key result
  have hsame : (g.observe p input).inbound = g.inbound := by
    unfold CallLedger.observe
    rw [hfollow, hact, hresponse]
  rw [hact, hafter]
  exact h.same hsame rfl rfl

/-- Taking a caller of a response out of its map, when libp2p has nothing more to say. -/
theorem Inbound.tellInbound (h : g.Inbound p) {key : RequestKey} {result : CallerResult Response}
    {g' : CallLedger Response} {status : InboundStatus}
    (hg : g'.inbound = Function.update g.inbound key status)
    (hstatus : key ∈ p.inboundResponseChannels → status = .failed) :
    g'.Inbound (p.tellInbound key result : Protocol × ProtocolOutput Request Response).1 := by
  rw [(p.tellInbound_spec Request key result).2]
  constructor
  · intro key' caller hp
    rw [hg, Function.update_apply]
    have hp' : Function.update p.pendingInboundResponse key none key' = some caller := hp
    rw [Function.update_apply] at hp'
    by_cases hk : key' = key
    · rw [if_pos hk] at hp'
      cases hp'
    · rw [if_neg hk] at hp' ⊢
      exact h.owed key' caller hp'
  · intro key' hmem
    rw [hg, Function.update_apply]
    by_cases hk : key' = key
    · rw [if_pos hk]
      exact Or.inr (hstatus (hk ▸ hmem))
    · rw [if_neg hk]
      exact h.held key' hmem

/-- A step that libp2p admits, and that answers no failed request. -/
theorem Inbound.observe (h : g.Inbound p) (hadm : g.Admits input)
    (hanswers : ¬ g.AnswersFailed p input) : (g.observe p input).Inbound (p.act input).1 := by
  cases input with
  | sendRequest peerId request => exact ⟨h.owed, h.held⟩
  | sendResponse peerId requestId response =>
    by_cases hchannel : (peerId, requestId) ∈ p.inboundResponseChannels
    · have hreceived : g.inbound (peerId, requestId) = .received :=
        (h.held _ hchannel).resolve_right fun hf => hanswers ⟨hchannel, hf⟩
      have hact : p.act (.sendResponse peerId requestId response :
          ProtocolInput Request Response) = _ := if_pos hchannel
      have hfollow : (g.observe p (.sendResponse peerId requestId response :
          ProtocolInput Request Response)).inbound =
            Function.update g.inbound (peerId, requestId) .accepted := by
        unfold CallLedger.observe follow
        rw [hact]
        exact if_pos hreceived
      rw [hact]
      exact h.accept hfollow
    · have hact : p.act (.sendResponse peerId requestId response :
          ProtocolInput Request Response) = _ := if_neg hchannel
      have hfollow : (g.observe p (.sendResponse peerId requestId response :
          ProtocolInput Request Response)).inbound = g.inbound := by
        unfold CallLedger.observe follow
        rw [hact]
      rw [hact]
      exact h.same hfollow rfl rfl
  | event event =>
    cases event with
    | request peer requestId request => exact h.receive hadm rfl
    | response peer requestId response =>
      exact h.tellOutbound rfl rfl
    | responseSent peer requestId =>
      refine h.tellInbound rfl fun hmem => ?_
      have haccepted : g.inbound (peer, requestId) = .accepted := hadm
      rcases h.held _ hmem with heq | heq
      · rw [haccepted] at heq
        cases heq
      · rw [haccepted] at heq
        cases heq
    | outboundFailure peer requestId =>
      exact h.tellOutbound rfl rfl
    | inboundFailure peer requestId =>
      refine h.tellInbound rfl fun hmem => ?_
      have hreceived : g.inbound (peer, requestId) = .received :=
        (h.held _ hmem).resolve_right hadm.2
      rw [hreceived]
      rfl

/-- The outbound requests in the map have ids that were given out. -/
def Fresh (p : Protocol) : Prop :=
  ∀ key caller, p.pendingOutboundRequests key = some caller → key.2 < p.nextRequestId

theorem Fresh.tellOutbound (h : Fresh p) (key : RequestKey) (result : CallerResult Response) :
    Fresh (p.tellOutbound key result : Protocol × ProtocolOutput Request Response).1 := by
  rw [(p.tellOutbound_spec Request key result).2]
  intro key' caller hp
  have hp' : Function.update p.pendingOutboundRequests key none key' = some caller := hp
  rw [Function.update_apply] at hp'
  by_cases hk : key' = key
  · rw [if_pos hk] at hp'
    cases hp'
  · rw [if_neg hk] at hp'
    exact h key' caller hp'

theorem Fresh.tellInbound (h : Fresh p) (key : RequestKey) (result : CallerResult Response) :
    Fresh (p.tellInbound key result : Protocol × ProtocolOutput Request Response).1 := by
  rw [(p.tellInbound_spec Request key result).2]
  exact h

theorem Fresh.act (h : Fresh p) (input : ProtocolInput Request Response) :
    Fresh (p.act input).1 := by
  cases input with
  | sendRequest peerId request =>
    intro key caller hp
    have hp' : Function.update p.pendingOutboundRequests (peerId, p.nextRequestId)
        (some p.nextCaller) key = some caller := hp
    rw [Function.update_apply] at hp'
    by_cases hk : key = (peerId, p.nextRequestId)
    · rw [hk]
      exact Nat.lt_succ_self _
    · rw [if_neg hk] at hp'
      exact Nat.lt_succ_of_lt (h key caller hp')
  | sendResponse peerId requestId response =>
    unfold Protocol.act Protocol.sendResponse
    dsimp only
    split
    · exact h
    · exact h
  | event event =>
    cases event with
    | request peer requestId request => exact h
    | response peer requestId response => exact h.tellOutbound _ _
    | responseSent peer requestId => exact h.tellInbound _ _
    | outboundFailure peer requestId => exact h.tellOutbound _ _
    | inboundFailure peer requestId => exact h.tellInbound _ _

theorem Served.noOrphan (h : g.Served p) : g.NoOrphan p := ⟨h.served, h.owed⟩

theorem Served.observe (h : g.Served p) (hadm : g.Admits input)
    (hanswers : ¬ g.AnswersFailed p input) : (g.observe p input).Served (p.act input).1 where
  toFits := h.toFits.observe input
  toInbound := h.toInbound.observe hadm hanswers
  served := h.observe_served input
  fresh := Fresh.act h.fresh input

/-- One step leaves nobody waiting in vain exactly if it does not answer a request that has
failed. -/
theorem Served.noOrphan_observe_iff (h : g.Served p) (hadm : g.Admits input) :
    (g.observe p input).NoOrphan (p.act input).1 ↔ ¬ g.AnswersFailed p input := by
  constructor
  · intro hno hanswers
    cases input with
    | sendResponse peerId requestId response =>
      obtain ⟨hchannel, hfailed⟩ := hanswers
      have hact : p.act (.sendResponse peerId requestId response :
          ProtocolInput Request Response) = _ := if_pos hchannel
      have hfollow : (g.observe p (.sendResponse peerId requestId response :
          ProtocolInput Request Response)).inbound = g.inbound := by
        unfold CallLedger.observe follow
        rw [hact]
        exact if_neg (by rw [hfailed]; nofun)
      rw [hact] at hno
      have howed := hno.owed (peerId, requestId) p.nextCaller (Function.update_self _ _ _)
      rw [hfollow, hfailed] at howed
      cases howed
    | sendRequest peerId request => exact hanswers
    | event event => exact hanswers
  · intro hanswers
    exact (h.observe hadm hanswers).noOrphan

section Option

variable {input? : Option (ProtocolInput Request Response)}

theorem Fits.observe_option (h : g.Fits p) (input? : Option (ProtocolInput Request Response)) :
    ((input?.map (g.observe p)).getD g).Fits ((input?.map fun i => (p.act i).1).getD p) := by
  cases input? with
  | none => exact h
  | some input => exact h.observe input

theorem Served.observe_option (h : g.Served p) (hadm : ∀ i ∈ input?, g.Admits i)
    (hanswers : ¬ ∃ i ∈ input?, g.AnswersFailed p i) :
    ((input?.map (g.observe p)).getD g).Served ((input?.map fun i => (p.act i).1).getD p) := by
  cases input? with
  | none => exact h
  | some input => exact h.observe (hadm input rfl) fun hf => hanswers ⟨input, rfl, hf⟩

theorem Served.noOrphan_option_iff (h : g.Served p) (hadm : ∀ i ∈ input?, g.Admits i) :
    ((input?.map (g.observe p)).getD g).NoOrphan ((input?.map fun i => (p.act i).1).getD p) ↔
      ¬ ∃ i ∈ input?, g.AnswersFailed p i := by
  cases input? with
  | none => exact iff_of_true h.noOrphan (by simp)
  | some input =>
    have hone := h.noOrphan_observe_iff (hadm input rfl)
    have hex : (∃ i ∈ some input, g.AnswersFailed p i) ↔ g.AnswersFailed p input := by simp
    rw [hex]
    exact hone

end Option

end CallLedger

/-! ## Both protocols -/

namespace NetworkInput

/-- What the exchange protocol takes of an input. -/
def exchange? : NetworkInput → Option (ProtocolInput ExchangeRequest ExchangeResponse)
  | .command (.sendExchangeRequest peerId request) => some (.sendRequest peerId request)
  | .command (.sendExchangeResponse peerId requestId response) =>
    some (.sendResponse peerId requestId response)
  | .swarmEvent (.exchange event) => some (.event event)
  | _ => none

/-- What the commit protocol takes of an input. -/
def commit? : NetworkInput → Option (ProtocolInput CommitRequest CommitResponse)
  | .command (.sendCommitRequest peerId request) => some (.sendRequest peerId request)
  | .command (.sendCommitResponse peerId requestId response) =>
    some (.sendResponse peerId requestId response)
  | .swarmEvent (.commit event) => some (.event event)
  | _ => none

end NetworkInput

variable (serde : Serde GossipsubMessage)

namespace Network

theorem step_exchange (network : Network) (input : NetworkInput) :
    (network.step serde input).exchange =
      (input.exchange?.map fun i => (network.exchange.act i).1).getD network.exchange := by
  cases input with
  | command command => cases command <;> rfl
  | swarmEvent event =>
    cases event with
    | gossipsub message => rw [step_gossipsub]; rfl
    | exchange event => rfl
    | commit event => rfl
    | other => rfl

theorem step_commit (network : Network) (input : NetworkInput) :
    (network.step serde input).commit =
      (input.commit?.map fun i => (network.commit.act i).1).getD network.commit := by
  cases input with
  | command command => cases command <;> rfl
  | swarmEvent event =>
    cases event with
    | gossipsub message => rw [step_gossipsub]; rfl
    | exchange event => rfl
    | commit event => rfl
    | other => rfl

end Network

/-- A ledger for each protocol. -/
structure CallLedgers where
  exchange : CallLedger ExchangeResponse
  commit : CallLedger CommitResponse

namespace CallLedgers

def start : CallLedgers where
  exchange := .start
  commit := .start

def observe (g : CallLedgers) (network : Network) (input : NetworkInput) : CallLedgers where
  exchange := (input.exchange?.map (g.exchange.observe network.exchange)).getD g.exchange
  commit := (input.commit?.map (g.commit.observe network.commit)).getD g.commit

def Admits (g : CallLedgers) (input : NetworkInput) : Prop :=
  (∀ i ∈ input.exchange?, g.exchange.Admits i) ∧ ∀ i ∈ input.commit?, g.commit.Admits i

def Honest (g : CallLedgers) : Prop := g.exchange.Honest ∧ g.commit.Honest

def NoOrphan (g : CallLedgers) (network : Network) : Prop :=
  g.exchange.NoOrphan network.exchange ∧ g.commit.NoOrphan network.commit

/-- The command answers a request that has failed. -/
def AnswersFailed (g : CallLedgers) (network : Network) (input : NetworkInput) : Prop :=
  (∃ i ∈ input.exchange?, g.exchange.AnswersFailed network.exchange i) ∨
    ∃ i ∈ input.commit?, g.commit.AnswersFailed network.commit i

end CallLedgers

/-- The network and its ledgers. -/
abbrev Network.audit : CallLedgers × Network → NetworkInput → CallLedgers × Network :=
  Run.watch (Network.step serde) CallLedgers.observe

/-- No caller of the network is told twice or of another call. And nobody waits in vain, in any
state of the run, exactly as long as no command answers a request that has failed. -/
theorem no_orphaned_caller_iff (inputs : List NetworkInput) :
    (Run.final (Network.audit serde) (.start, .new) inputs).1.Honest ∧
    (Run.Always (Network.audit serde) (fun x i => x.1.Admits i) (.start, .new) inputs →
      (Run.Always (Network.audit serde)
          (fun x i => (x.1.observe x.2 i).NoOrphan (x.2.step serde i)) (.start, .new) inputs ↔
        Run.Always (Network.audit serde) (fun x i => ¬ x.1.AnswersFailed x.2 i)
          (.start, .new) inputs)) := by
  constructor
  · let Inv : CallLedgers × Network → Prop := fun x =>
      x.1.exchange.Fits x.2.exchange ∧ x.1.commit.Fits x.2.commit
    have hstep : ∀ x i, Inv x → True → Inv (Network.audit serde x i) := by
      rintro ⟨g, network⟩ i ⟨he, hc⟩ -
      refine ⟨?_, ?_⟩
      · show (CallLedgers.observe g network i).exchange.Fits (network.step serde i).exchange
        rw [network.step_exchange]
        exact he.observe_option i.exchange?
      · show (CallLedgers.observe g network i).commit.Fits (network.step serde i).commit
        rw [network.step_commit]
        exact hc.observe_option i.commit?
    have hstart : Inv (.start, .new) := ⟨CallLedger.fits_start, CallLedger.fits_start⟩
    obtain ⟨he, hc⟩ := Run.final_inv hstep hstart (Run.always_trivial _ inputs)
    exact ⟨he.toHonest, hc.toHonest⟩
  · intro hadm
    let Inv : CallLedgers × Network → Prop := fun x =>
      x.1.exchange.Served x.2.exchange ∧ x.1.commit.Served x.2.commit
    have hstart : Inv (.start, .new) := ⟨CallLedger.served_start, CallLedger.served_start⟩
    refine Run.always_iff_of_inv ?_ ?_ hstart hadm
    · rintro ⟨g, network⟩ i ⟨he, hc⟩ ⟨hae, hac⟩
      have hbe := he.noOrphan_option_iff hae
      have hbc := hc.noOrphan_option_iff hac
      show (g.observe network i).NoOrphan (network.step serde i) ↔ ¬ g.AnswersFailed network i
      unfold CallLedgers.NoOrphan CallLedgers.AnswersFailed
      rw [network.step_exchange, network.step_commit, not_or]
      exact and_congr hbe hbc
    · rintro ⟨g, network⟩ i ⟨he, hc⟩ ⟨hae, hac⟩ hno
      obtain ⟨hne, hnc⟩ : (g.observe network i).NoOrphan (network.step serde i) := hno
      rw [network.step_exchange] at hne
      rw [network.step_commit] at hnc
      refine ⟨?_, ?_⟩
      · show (CallLedgers.observe g network i).exchange.Served (network.step serde i).exchange
        rw [network.step_exchange]
        exact he.observe_option hae ((he.noOrphan_option_iff hae).mp hne)
      · show (CallLedgers.observe g network i).commit.Served (network.step serde i).commit
        rw [network.step_commit]
        exact hc.observe_option hac ((hc.noOrphan_option_iff hac).mp hnc)

/-- Peer 2 asks, is answered, and the answer is sent. -/
def answeredInputs : List NetworkInput :=
  [.swarmEvent (.exchange (.request ⟨[2]⟩ 0 (.iWant ⟨⟨[2]⟩, ⟨[20]⟩, 6⟩))),
    .command (.sendExchangeResponse ⟨[2]⟩ 0 .ack),
    .swarmEvent (.exchange (.responseSent ⟨[2]⟩ 0))]

/-- The request of peer 2 fails before it is answered. -/
def failedInputs : List NetworkInput :=
  [.swarmEvent (.exchange (.request ⟨[2]⟩ 0 (.iWant ⟨⟨[2]⟩, ⟨[20]⟩, 6⟩))),
    .swarmEvent (.exchange (.inboundFailure ⟨[2]⟩ 0)),
    .command (.sendExchangeResponse ⟨[2]⟩ 0 .ack)]

/-- Nobody waits in vain for an answer that is sent. -/
theorem no_orphaned_caller_iff_answered :
    Run.Always (Network.audit deafSerde)
      (fun x i => (x.1.observe x.2 i).NoOrphan (x.2.step deafSerde i)) (.start, .new)
      answeredInputs := by
  refine ((no_orphaned_caller_iff deafSerde answeredInputs).2 ?_).mpr ?_
  · refine ⟨⟨?_, nofun⟩, ⟨?_, nofun⟩, ⟨?_, nofun⟩, trivial⟩
    · rintro i ⟨⟩
      rfl
    · rintro i ⟨⟩
      trivial
    · rintro i ⟨⟩
      rfl
  · refine ⟨?_, ?_, ?_, trivial⟩
    · rintro (⟨i, ⟨⟩, h⟩ | ⟨i, h, -⟩)
      · exact h
      · cases h
    · rintro (⟨i, ⟨⟩, -, h⟩ | ⟨i, h, -⟩)
      · exact absurd h (by decide)
      · cases h
    · rintro (⟨i, ⟨⟩, h⟩ | ⟨i, h, -⟩)
      · exact h
      · cases h

/-- The answer to a request that has failed is never told. -/
theorem not_no_orphaned_caller_failed :
    ¬ ∀ inputs,
      Run.Always (Network.audit deafSerde) (fun x i => x.1.Admits i) (.start, .new) inputs →
      Run.Always (Network.audit deafSerde)
        (fun x i => (x.1.observe x.2 i).NoOrphan (x.2.step deafSerde i)) (.start, .new) inputs := by
  intro h
  have hadm : Run.Always (Network.audit deafSerde) (fun x i => x.1.Admits i) (.start, .new)
      failedInputs := by
    refine ⟨⟨?_, nofun⟩, ⟨?_, nofun⟩, ⟨?_, nofun⟩, trivial⟩
    · rintro i ⟨⟩
      rfl
    · rintro i ⟨⟩
      exact ⟨by decide, by decide⟩
    · rintro i ⟨⟩
      trivial
  obtain ⟨-, -, ⟨hlast, -⟩, -⟩ := h failedInputs hadm
  have howed := hlast.owed (⟨[2]⟩, 0) 0 rfl
  exact absurd howed (by decide)
end Dse
