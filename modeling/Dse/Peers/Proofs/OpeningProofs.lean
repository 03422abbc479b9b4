import Dse.Node.Proofs.ProvenanceProofs
import Dse.Node.Proofs.SendProofs
import Dse.Peers.Proofs.RoleProofs

/-!
# How far a trade gets

Between two nodes that set up their trades with each other, a trade has the terms that its two
clients have posted, and it stays in the status in which it was opened: the requester's copy names
the requester itself as the counter party, so its commit goes to a peer that no one can dial.
-/

namespace Dse

open Storage

variable {Hash : Type} {env : Party → Env Hash}

/-! ## The terms -/

/-- The network of the node has reported the address. -/
def Reported (seen : List Label) (p : Party) (addr : Multiaddr) : Prop :=
  ∃ k, .act p (.task k (.networkDetails (some addr))) ∈ seen

/-- The client of `p` has posted its interest in a quote of the peer. -/
def Interested (seen : List Label) (p : Party) (providerId : PeerId) (id : U32) : Prop :=
  ∃ addr, .act p (.post (.iWant addr providerId id)) ∈ seen

/-- The interest is one that the client of `p` has in a quote of the other node. -/
structure Wanted (env : Party → Env Hash) (seen : List Label) (p : Party) (i : IWant) : Prop where
  requesterId : i.requesterId = (env p).nodeId
  requesterAddr : Reported seen p i.requesterAddr
  interested : Interested seen p (env p.other).nodeId i.id

/-- The trade is between the provider `p` and the other node, at the charge that the client of `p`
has quoted, in reply to an interest that the other client has posted. -/
structure Negotiated (env : Party → Env Hash) (seen : List Label) (p : Party) (t : Trade) :
    Prop where
  providerId : t.providerId = (env p).nodeId
  requesterId : t.requesterId = (env p.other).nodeId
  providerAddr : Reported seen p t.providerAddr
  requesterAddr : Reported seen p.other t.requesterAddr
  quoted : .act p (.post (.startCommit ⟨t.charge, t.id⟩)) ∈ seen
  interested : Interested seen p.other t.providerId t.id

section Mono

variable {seen seen' : List Label} {p : Party}

theorem Reported.mono {addr : Multiaddr} (h : Reported seen p addr) (hs : seen ⊆ seen') :
    Reported seen' p addr := by
  obtain ⟨k, hk⟩ := h
  exact ⟨k, hs hk⟩

theorem Interested.mono {providerId : PeerId} {id : U32} (h : Interested seen p providerId id)
    (hs : seen ⊆ seen') : Interested seen' p providerId id := by
  obtain ⟨addr, ha⟩ := h
  exact ⟨addr, hs ha⟩

theorem Wanted.mono {i : IWant} (h : Wanted env seen p i) (hs : seen ⊆ seen') :
    Wanted env seen' p i where
  requesterId := h.requesterId
  requesterAddr := h.requesterAddr.mono hs
  interested := h.interested.mono hs

theorem Negotiated.mono {t : Trade} (h : Negotiated env seen p t) (hs : seen ⊆ seen') :
    Negotiated env seen' p t where
  providerId := h.providerId
  requesterId := h.requesterId
  providerAddr := h.providerAddr.mono hs
  requesterAddr := h.requesterAddr.mono hs
  quoted := hs h.quoted
  interested := h.interested.mono hs

theorem Negotiated.updateStatus {t : Trade} (h : Negotiated env seen p t) (status : TradeStatus) :
    Negotiated env seen p (t.updateStatus status) :=
  ⟨h.providerId, h.requesterId, h.providerAddr, h.requesterAddr, h.quoted, h.interested⟩

end Mono

/-- What a handler of a post of `q` has been told. -/
def PostStage.Told (env : Party → Env Hash) (seen : List Label) (q : Party) : PostStage → Prop
  | .iWantDetails providerId id => Interested seen q providerId id
  | .startCommit quote => .act q (.post (.startCommit quote)) ∈ seen
  | .startCommitDetails quote i => .act q (.post (.startCommit quote)) ∈ seen ∧
      Wanted env seen q.other i ∧ i.id = quote.id
  | .startCommitRequested t => Negotiated env seen q t
  | _ => True

/-- The request of `q` to the peer says what the client of `q` has posted. -/
def ExchangeRequest.Told (env : Party → Env Hash) (seen : List Label) (q : Party)
    (peerId : PeerId) : ExchangeRequest → Prop
  | .iWant i => i.requesterId = (env q).nodeId ∧ Reported seen q i.requesterAddr ∧
      Interested seen q peerId i.id
  | .startCommit t => Negotiated env seen q t
  | _ => True

/-- Everything that the two nodes keep about trades goes back to what their clients have posted. -/
structure Agreed (env : Party → Env Hash) (seen : List Label) (s : Peers) : Prop where
  stored : ∀ q iid t, (s.node q).storage.findActiveTrade iid = some t →
    ∃ p, Negotiated env seen p t
  iWant : ∀ q iid i, (s.node q).storage.findIWant iid = some i → Wanted env seen q.other i
  copies : ∀ q k task t, (s.node q).tasks k = some task → task.copy? = some t →
    ∃ p, Negotiated env seen p t
  posts : ∀ q k stage, (s.node q).tasks k = some (.post stage) → stage.Told env seen q
  flight : ∀ q k peerId request, s.flight q k = some (.request peerId request) ∨
    s.flight q k = some (.abandoned peerId request) → request.Told env seen q peerId

theorem PostStage.Told.mono {seen seen' : List Label} {q : Party} {stage : PostStage}
    (h : stage.Told env seen q) (hs : seen ⊆ seen') : stage.Told env seen' q := by
  cases stage with
  | iWantDetails providerId id => exact Interested.mono h hs
  | startCommit quote => exact hs h
  | startCommitDetails quote i => exact ⟨hs h.1, h.2.1.mono hs, h.2.2⟩
  | startCommitRequested t => exact Negotiated.mono h hs
  | _ => trivial

theorem ExchangeRequest.Told.mono {seen seen' : List Label} {q : Party} {peerId : PeerId}
    {request : ExchangeRequest} (h : request.Told env seen q peerId) (hs : seen ⊆ seen') :
    request.Told env seen' q peerId := by
  cases request with
  | iWant i => exact ⟨h.1, h.2.1.mono hs, h.2.2.mono hs⟩
  | startCommit t => exact Negotiated.mono h hs
  | _ => trivial

namespace Agreed

variable {seen : List Label} {s : Peers} {l : Label} {q : Party} {input : Input}

theorem start {storage : Party → Storage} (ht : ∀ p iid, (storage p).findActiveTrade iid = none)
    (hi : ∀ p iid, (storage p).findIWant iid = none) : Agreed env [] (Peers.start storage) where
  stored q iid _ h := nomatch (ht q iid).symm.trans h
  iWant q iid _ h := nomatch (hi q iid).symm.trans h
  copies _ _ _ _ h := nomatch h
  posts _ _ _ h := nomatch h
  flight _ _ _ _ h := by rcases h with h | h <;> cases h

/-- A request that arrives was sent by the other node to this one. -/
theorem arrives (h : Agreed env seen s) {sender : PeerId} {rid : ℕ} {request : ExchangeRequest}
    (hm : Moved env s l q (.network (.exchangeRequest sender rid request))) :
    request.Told env seen q.other (env q).nodeId := by
  cases hm with
  | act hlocal => cases hlocal
  | @deliver p _ _ hf =>
    rw [Party.other_other]
    exact h.flight p rid _ request hf

/-- A step by an answer of the network or by a post is a step of the node itself. -/
theorem moved_eq (hm : Moved env s l q input)
    (hi : (∃ k addr, input = .task k (.networkDetails addr)) ∨ ∃ message, input = .post message) :
    l = .act q input := by
  cases hm with
  | act _ => rfl
  | deliver _ => rcases hi with ⟨_, _, hi⟩ | ⟨_, hi⟩ <;> cases hi
  | respond _ => rcases hi with ⟨_, _, hi⟩ | ⟨_, hi⟩ <;> cases hi
  | lose _ _ => rcases hi with ⟨_, _, hi⟩ | ⟨_, hi⟩ <;> cases hi
  | giveUp _ => rcases hi with ⟨_, _, hi⟩ | ⟨_, hi⟩ <;> cases hi

theorem written (h : Agreed env seen s) (hm : Moved env s l q input) {t : Trade}
    (ht : Written (s.node q) input t) : ∃ p, Negotiated env seen p t := by
  have hcopy : ∀ {k task t}, (s.node q).tasks k = some task → task.copy? = some t →
      ∀ status, ∃ p, Negotiated env seen p (t.updateStatus status) := by
    intro k task t hk hc status
    obtain ⟨p, hp⟩ := h.copies q k task t hk hc
    exact ⟨p, hp.updateStatus status⟩
  cases ht with
  | startCommit sender rid t =>
    have harrives : Negotiated env seen q.other t := h.arrives hm
    exact ⟨q.other, harrives.updateStatus _⟩
  | process hk => exact hcopy hk rfl _
  | finish hk => exact hcopy hk rfl _
  | sent hk => exact hcopy hk rfl _
  | opened hk => exact ⟨q, h.posts q _ _ hk⟩

theorem copied (h : Agreed env seen s) {k : ℕ} {task : Task}
    (ht : Left (env q) (s.node q) input k task) {t : Trade} (hc : task.copy? = some t) :
    ∃ p, Negotiated env seen p t := by
  cases ht with
  | accept _ hf _ =>
    cases hc
    exact h.stored q _ _ hf
  | tick _ hf _ =>
    cases hc
    exact h.stored q _ _ hf
  | process hk =>
    cases hc
    obtain ⟨p, hp⟩ := h.copies q _ _ _ hk rfl
    exact ⟨p, hp.updateStatus _⟩
  | examine hk _ _ _ _ =>
    cases hc
    exact h.copies q _ _ _ hk rfl
  | request hk =>
    cases hc
    exact h.copies q _ _ _ hk rfl
  | sent _ => cases hc
  | unsent _ => cases hc
  | post _ _ => cases hc
  | findsIWant _ _ => cases hc
  | opens _ => cases hc
  | serve _ _ _ => cases hc

/-- A handler that is there after a step knows what it was told, or what the step tells it. -/
theorem told (h : Agreed env seen s) (hm : Moved env s l q input) {k : ℕ} {stage : PostStage}
    (hk : ((s.node q).step (env q) input).tasks k = some (.post stage)) :
    stage.Told env (seen ++ [l]) q := by
  have hmono : seen ⊆ seen ++ [l] := List.subset_append_left seen [l]
  have hnow : l ∈ seen ++ [l] := List.mem_append_right _ (List.mem_singleton.mpr rfl)
  have hfirst : ∀ message : ReceivedMessage, message.firstStage? = some stage →
      (s.node q).tasks k = some (.post stage) ∨ ∃ message' : ReceivedMessage,
        message'.firstStage? = some stage ∧ .act q (.post message') ∈ seen ++ [l] := by
    intro message hmessage
    rcases step_first hmessage hk with hold | ⟨message', hfirst', rfl⟩
    · exact .inl hold
    · exact .inr ⟨message', hfirst', moved_eq hm (.inr ⟨message', rfl⟩) ▸ hnow⟩
  cases stage with
  | newQueryDetails query => trivial
  | newQueryPublished query => trivial
  | iWantRequested => trivial
  | iWantDetails providerId id =>
    rcases hfirst (.iWant default providerId id) rfl with hold | ⟨message, hfirst', hmem⟩
    · exact (h.posts q k _ hold).mono hmono
    · cases message <;> cases hfirst'
      exact ⟨_, hmem⟩
  | startCommit quote =>
    rcases hfirst (.startCommit quote) rfl with hold | ⟨message, hfirst', hmem⟩
    · exact (h.posts q k _ hold).mono hmono
    · cases message <;> cases hfirst'
      exact hmem
  | startCommitDetails quote i =>
    rcases step_task hk with hold | hleft
    · exact (h.posts q k _ hold).mono hmono
    · cases hleft with
      | post _ hi => exact absurd rfl (hi quote i)
      | findsIWant h' hi =>
        have hquote : .act q (.post (.startCommit quote)) ∈ seen := h.posts q k _ h'
        exact ⟨hmono hquote, (h.iWant q _ _ hi).mono hmono,
          (s.node q).storage.iWants_keyed _ _ hi⟩
      | serve _ _ hi => exact absurd rfl (hi quote i)
  | startCommitRequested t =>
    rcases step_task hk with hold | hleft
    · exact (h.posts q k _ hold).mono hmono
    · cases hleft with
      | post hs _ => exact absurd rfl (hs t)
      | @opens _ quote i nodeAddr h' =>
        obtain ⟨hquote, hwanted, hid⟩ := h.posts q k _ h'
        have hl : l = .act q (.task k (.networkDetails (some nodeAddr))) :=
          moved_eq hm (.inl ⟨k, _, rfl⟩)
        have hinterested : Interested seen q.other (env q).nodeId quote.id := by
          have hi := hwanted.interested
          rw [Party.other_other, hid] at hi
          exact hi
        exact ⟨rfl, hwanted.requesterId, ⟨k, hl ▸ hnow⟩, hwanted.requesterAddr.mono hmono,
          hmono hquote, hinterested.mono hmono⟩
      | serve _ hs _ => exact absurd rfl (hs t)

theorem flies (h : Agreed env seen s) {k : ℕ} {f : Flight} (hf : Flies env s l q k f)
    {peerId : PeerId} {request : ExchangeRequest}
    (hr : f = .request peerId request ∨ f = .abandoned peerId request) :
    request.Told env (seen ++ [l]) q peerId := by
  have hmono : seen ⊆ seen ++ [l] := List.subset_append_left seen [l]
  have hnow : l ∈ seen ++ [l] := List.mem_append_right _ (List.mem_singleton.mpr rfl)
  cases hf with
  | sent hask =>
    rcases hr with hr | hr <;> cases hr
    cases hask with
    | commit _ hcreate =>
      unfold createSendRequest at hcreate
      split at hcreate <;> cases hcreate <;> trivial
    | iWant hk =>
      have hposted : Interested seen q peerId _ := h.posts q k _ hk
      exact ⟨rfl, ⟨k, hnow⟩, hposted.mono hmono⟩
    | startCommit hk =>
      obtain ⟨hquote, hwanted, hid⟩ := h.posts q k _ hk
      have hinterested := hwanted.interested
      rw [Party.other_other, hid] at hinterested
      exact ⟨rfl, hwanted.requesterId, ⟨k, hnow⟩, hwanted.requesterAddr.mono hmono,
        hmono hquote, hinterested.mono hmono⟩
  | response _ _ => rcases hr with hr | hr <;> cases hr
  | handled _ => rcases hr with hr | hr <;> cases hr
  | abandoned hf =>
    rcases hr with hr | hr <;> cases hr
    exact (h.flight q k _ _ (.inl hf)).mono hmono

theorem step (h : Agreed env seen s) (l : Label) : Agreed env (seen ++ [l]) (s.step env l) := by
  have hmono : seen ⊆ seen ++ [l] := List.subset_append_left seen [l]
  have hexists : ∀ {t}, (∃ p, Negotiated env seen p t) → ∃ p, Negotiated env (seen ++ [l]) p t :=
    fun ⟨p, hp⟩ => ⟨p, hp.mono hmono⟩
  refine ⟨fun q iid t ht => hexists ?_, fun q iid i hi => ?_, fun q k task t hk hc => hexists ?_,
    fun q k stage hk => ?_, fun q k peerId request hf => ?_⟩
  · rcases peers_node env s l q with hq | ⟨input, hm, hq⟩
    · exact h.stored q iid t (hq ▸ ht)
    · rw [hq] at ht
      rcases step_stored ht with hold | hw
      · exact h.stored q iid t hold
      · exact h.written hm hw
  · rcases peers_node env s l q with hq | ⟨input, hm, hq⟩
    · exact (h.iWant q iid i (hq ▸ hi)).mono hmono
    · rw [hq] at hi
      rcases step_iWant hi with hold | ⟨sender, rid, rfl⟩
      · exact (h.iWant q iid i hold).mono hmono
      · obtain ⟨hreq, haddr, hint⟩ := h.arrives hm
        refine Wanted.mono ⟨hreq, haddr, ?_⟩ hmono
        rw [Party.other_other]
        exact hint
  · rcases peers_node env s l q with hq | ⟨input, hm, hq⟩
    · exact h.copies q k task t (hq ▸ hk) hc
    · rw [hq] at hk
      rcases step_task hk with hold | hleft
      · exact h.copies q k task t hold hc
      · exact h.copied hleft hc
  · rcases peers_node env s l q with hq | ⟨input, hm, hq⟩
    · exact (h.posts q k stage (hq ▸ hk)).mono hmono
    · rw [hq] at hk
      exact h.told hm hk
  · rcases hf with hf | hf
    · rcases peers_flight hf with hold | hnew
      · exact (h.flight q k peerId request (.inl hold)).mono hmono
      · exact h.flies hnew (.inl rfl)
    · rcases peers_flight hf with hold | hnew
      · exact (h.flight q k peerId request (.inr hold)).mono hmono
      · exact h.flies hnew (.inr rfl)

end Agreed

/-- In every run of two nodes from databases without trades and without interests, each trade that a
node has stored was quoted by the client of one of them, in reply to an interest of the other client,
and has these terms. -/
theorem stored_trade_negotiated (env : Party → Env Hash) {storage : Party → Storage}
    (ht : ∀ p iid, (storage p).findActiveTrade iid = none)
    (hi : ∀ p iid, (storage p).findIWant iid = none) (labels : List Label) (q : Party) (iid : U32)
    (t : Trade)
    (hstored : (((Peers.start storage).run env labels).node q).storage.findActiveTrade iid =
      some t) :
    ∃ p, Negotiated env labels p t := by
  have hall : Agreed env labels ((Peers.start storage).run env labels) := by
    clear hstored
    induction labels using List.reverseRecOn with
    | nil => exact .start ht hi
    | append_singleton labels l ih =>
      rw [Peers.run, Run.final, List.foldl_append]
      exact ih.step l
  exact hall.stored q iid t hstored

theorem stored_trade_negotiated_openLabels :
    ∃ p, Negotiated plainEnvs openLabels p (plainTrade .rSendT1Commit false) :=
  @stored_trade_negotiated _ plainEnvs (fun _ => Storage.new) (fun _ _ => rfl) (fun _ _ => rfl)
    openLabels .a 6 (plainTrade .rSendT1Commit false) (by decide +kernel)

/-! ## The status -/

/-- The request is one to the node itself, which never arrives. -/
def Flight.ToSelf (own : PeerId) : Flight → Prop
  | .request peerId _ => peerId = own
  | .abandoned peerId _ => peerId = own
  | _ => False

/-- The status in which a trade is opened. -/
def Trade.openedStatus (own : PeerId) (t : Trade) : TradeStatus :=
  if t.requesterId = own then .rSendT1Commit else .waitingRT1Commit

/-- Every trade is in the status in which it was opened, and no commit is on its way to anybody
else. -/
structure Stalled (env : Party → Env Hash) (s : Peers) : Prop where
  roles : RoleInv env s
  fresh : ∀ q, (s.node q).Fresh
  sent : ∀ q k f, s.flight q k = some f → k < (s.node q).nextTask
  stored : ∀ q iid t, (s.node q).storage.findActiveTrade iid = some t →
    t.status = t.openedStatus (env q).nodeId
  sending : ∀ q k t stage, (s.node q).tasks k = some (.send t stage) → t.status = .rSendT1Commit
  toSelf : ∀ q k t stage, (s.node q).tasks k = some (.send t stage) →
    ∀ f, s.flight q k = some f → f.ToSelf (env q).nodeId

namespace Stalled

variable {s : Peers} {l : Label} {q : Party} {input : Input}

theorem start {storage : Party → Storage} (ht : ∀ p iid, (storage p).findActiveTrade iid = none)
    (hi : ∀ p iid, (storage p).findIWant iid = none) : Stalled env (Peers.start storage) where
  roles := .start ht hi
  fresh _ _ _ := rfl
  sent _ _ _ h := nomatch h
  stored q iid _ h := nomatch (ht q iid).symm.trans h
  sending _ _ _ _ h := nomatch h
  toSelf _ _ _ _ h := nomatch h

/-- No `send` is handed a response. -/
theorem not_responded (h : Stalled env s) {k : ℕ} {t : Trade} {stage : SendStage}
    (hk : (s.node q).tasks k = some (.send t stage)) {response : ExchangeResponse}
    (hm : Moved env s l q (.task k (.exchange (some response)))) : False := by
  cases hm with
  | act hlocal => cases hlocal
  | respond hf => exact h.toSelf q k t stage hk _ hf

/-- The request of a `send` stays one to the node itself. -/
theorem flies (h : Stalled env s) (hne : ∀ p, (env p).nodeId ≠ (env p.other).nodeId) {k : ℕ}
    {t : Trade} {stage : SendStage} (hk : (s.node q).tasks k = some (.send t stage)) {f : Flight}
    (hf : (s.step env l).flight q k = some f) : f.ToSelf (env q).nodeId := by
  rcases peers_flight hf with hold | hnew
  · exact h.toSelf q k t stage hk f hold
  · cases hnew with
    | sent hask =>
      cases hask with
      | @commit _ t' _ _ hstart _ =>
        have hown : Requested (env q).nodeId t' := h.roles.task q k _ hstart
        show t'.counterPartyDetails.1 = (env q).nodeId
        simp [Trade.counterPartyDetails, hown.isRequester, hown.requesterId]
      | iWant hpost => cases hk.symm.trans hpost
      | startCommit hpost => cases hk.symm.trans hpost
    | response hold _ => exact absurd (h.toSelf q k t stage hk _ hold).symm (hne q)
    | handled hold => exact absurd (h.toSelf q k t stage hk _ hold).symm (hne q)
    | abandoned hold => exact (h.toSelf q k t stage hk _ hold :)

theorem written (h : Stalled env s) (hne : ∀ p, (env p).nodeId ≠ (env p.other).nodeId)
    (hm : Moved env s l q input) {t : Trade} (hw : Written (s.node q) input t) :
    t.status = t.openedStatus (env q).nodeId := by
  cases hw with
  | startCommit sender rid t =>
    have harrives : Requested (env q).nodeId t := (h.roles.arrives hm).2
    exact (if_pos harrives.requesterId).symm
  | process hk => exact (h.roles.task q _ _ hk).elim
  | finish hk => exact (h.roles.task q _ _ hk).elim
  | sent hk => exact (h.not_responded hk hm).elim
  | opened hk =>
    have hprov : Provided (env q.other).nodeId t := h.roles.task q _ _ hk
    have hother : t.requesterId ≠ (env q).nodeId := by
      rw [hprov.requesterId]
      exact (hne q).symm
    rw [hprov.status, Trade.openedStatus, if_neg hother]

/-- A `send` that a step leaves is for a trade that the node has requested, and it is a new one or
goes on under the same id. -/
theorem left (h : Stalled env s) (hm : Moved env s l q input) {k : ℕ} {t : Trade}
    {stage : SendStage} (hl : Left (env q) (s.node q) input k (.send t stage)) :
    t.status = .rSendT1Commit ∧ ((input = .tick ∧ (s.node q).nextTask ≤ k) ∨
      ∃ t' stage', (s.node q).tasks k = some (.send t' stage')) := by
  cases hl with
  | tick hid hf hs =>
    refine ⟨?_, .inl ⟨rfl, hid⟩⟩
    have hstatus := h.stored q _ _ hf
    rw [Trade.openedStatus] at hstatus
    split at hstatus
    · exact hstatus
    · rcases Trade.isSendingStatus_iff.mp hs with hs | hs | hs <;> cases hs.symm.trans hstatus
  | request hk => exact ⟨h.sending q k _ _ hk, .inr ⟨_, _, hk⟩⟩
  | sent hk => exact (h.not_responded hk hm).elim
  | unsent hk => exact ⟨h.sending q k _ _ hk, .inr ⟨_, _, hk⟩⟩

/-- Nothing is put under way by a tick. -/
theorem not_flies_tick (hm : Moved env s l q .tick) {k : ℕ} {f : Flight} :
    ¬ Flies env s l q k f := by
  intro hf
  cases hm
  cases hf

theorem step (h : Stalled env s) (hne : ∀ p, (env p).nodeId ≠ (env p.other).nodeId) (l : Label) :
    Stalled env (s.step env l) := by
  refine ⟨h.roles.step hne l, fun q => ?_, fun q k f hf => ?_, fun q iid t ht => ?_,
    fun q k t stage hk => ?_, fun q k t stage hk f hf => ?_⟩
  · rcases peers_node env s l q with hq | ⟨input, _, hq⟩
    · exact hq ▸ h.fresh q
    · exact hq ▸ (h.fresh q).step
  · have hle : (s.node q).nextTask ≤ ((s.step env l).node q).nextTask := by
      rcases peers_node env s l q with hq | ⟨input, _, hq⟩
      · exact hq ▸ le_refl _
      · exact hq ▸ nextTask_le_step
    rcases peers_flight hf with hold | hnew
    · exact (h.sent q k f hold).trans_le hle
    · cases hnew with
      | sent hask =>
        cases hask with
        | commit hk _ => exact ((h.fresh q).lt_nextTask hk).trans_le hle
        | iWant hk => exact ((h.fresh q).lt_nextTask hk).trans_le hle
        | startCommit hk => exact ((h.fresh q).lt_nextTask hk).trans_le hle
      | response hold _ => exact (h.sent q k _ hold).trans_le hle
      | handled hold => exact (h.sent q k _ hold).trans_le hle
      | abandoned hold => exact (h.sent q k _ hold).trans_le hle
  · rcases peers_node env s l q with hq | ⟨input, hm, hq⟩
    · exact h.stored q iid t (hq ▸ ht)
    · rw [hq] at ht
      rcases step_stored ht with hold | hw
      · exact h.stored q iid t hold
      · exact h.written hne hm hw
  · rcases peers_node env s l q with hq | ⟨input, hm, hq⟩
    · exact h.sending q k t stage (hq ▸ hk)
    · rw [hq] at hk
      rcases step_task hk with hold | hleft
      · exact h.sending q k t stage hold
      · exact (h.left hm hleft).1
  · rcases peers_node env s l q with hq | ⟨input, hm, hq⟩
    · exact h.flies hne (hq ▸ hk) hf
    · rw [hq] at hk
      rcases step_task hk with hold | hleft
      · exact h.flies hne hold hf
      · rcases (h.left hm hleft).2 with ⟨rfl, hnew⟩ | ⟨t', stage', hold⟩
        · -- the id of a new task has not been used for a request
          rcases peers_flight hf with hold | hflies
          · exact absurd (h.sent q k f hold) (Nat.not_lt.mpr hnew)
          · exact absurd hflies (not_flies_tick hm)
        · exact h.flies hne hold hf

end Stalled

/-- In every run of two distinct nodes from databases without trades, no trade ever leaves the
status in which it was opened, and no commit is ever verified. -/
theorem opened_trades_stall (hne : ∀ p, (env p).nodeId ≠ (env p.other).nodeId)
    {storage : Party → Storage} (ht : ∀ p iid, (storage p).findActiveTrade iid = none)
    (hi : ∀ p iid, (storage p).findIWant iid = none) (labels : List Label) (q : Party) :
    let node := ((Peers.start storage).run env labels).node q
    (∀ iid t, node.storage.findActiveTrade iid = some t →
      t.status = t.openedStatus (env q).nodeId) ∧
    ∀ k commit t stage, node.tasks k ≠ some (.verify commit t stage) := by
  have hall : Stalled env ((Peers.start storage).run env labels) :=
    Run.final_inv (fun s l h _ => h.step hne l) (Stalled.start ht hi)
      (Run.always_trivial (Peers.start storage) labels)
  exact ⟨hall.stored q, fun k commit t stage hk => hall.roles.task q k _ hk⟩

/-- The requester goes on to send its commit, again and again. -/
def stallLabels : List Label :=
  openLabels ++ [.act .a .tick, .act .a (.task 1 .run), .lose .a 1, .act .a (.task 1 .run),
    .act .a .commitProcEvent, .act .a .tick, .act .a (.task 2 .run), .giveUp .a 2]

theorem opened_trades_stall_stallLabels :
    (plainTrade .rSendT1Commit false).status =
      (plainTrade .rSendT1Commit false).openedStatus ⟨[2]⟩ := by
  have hne : ∀ p, (plainEnvs p).nodeId ≠ (plainEnvs p.other).nodeId := by
    intro p
    cases p <;> decide
  exact (@opened_trades_stall _ plainEnvs hne (fun _ => Storage.new) (fun _ _ => rfl)
    (fun _ _ => rfl) stallLabels .a).1 6 (plainTrade .rSendT1Commit false) (by decide +kernel)

end Dse
