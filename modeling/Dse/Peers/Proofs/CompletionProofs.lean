import Dse.Peers.Proofs.CourseProofs

/-!
# A trade can always be completed

While the trade is on its course, one of the two nodes can take it on: a node with an open `verify`
lets it come to its end, and otherwise one that is to send a commit sends it, unless the other node
has still to come to the stage, and then that one can be taken on. What is under way is given up on
first. So no state that a run without trouble reaches is a dead end, whatever was lost, repeated or
delayed on the way.
-/

namespace Dse

open Storage

variable {Hash : Type} {env : Party → Env Hash} {t t₁ t₂ : Trade} {g : StageRecord} {s : Peers}
  {p : Party} {k : ℕ}

/-! ## Steps of one node -/

theorem Input.isLocal_of_isOwn {input : Input} (h : input.isOwn = true) : input.isLocal = true := by
  cases input with
  | network event => cases h
  | task k answer =>
    cases answer with
    | exchange response => cases h
    | _ => rfl
  | _ => rfl

theorem Input.isPost_of_isOwn {input : Input} (h : input.isOwn = true) (p : Party) :
    (Label.act p input).isPost = false := by
  cases input with
  | post message => cases h
  | _ => rfl

/-- A step of one node's own leaves the other one as it is. -/
theorem peers_act_other (env : Party → Env Hash) (s : Peers) (p : Party) (input : Input) :
    (s.step env (.act p input)).node p.other = s.node p.other := by
  unfold Peers.step
  simp only
  split
  · rw [Peers.act_node, Peers.setNode_node, if_neg p.ne_other.symm]
  · rfl

/-- A quiet step of one node is a smooth one of the two. -/
theorem smooth_act {input : Input} (hq : Quiet (s.node p) input) (hn : g.accepted.Nodup)
    (iid : U32) : Smooth env iid (g, s) (.act p input) where
  early _ _ h := by cases h
  once := by
    rw [StageRecord.note_of_not_arriving rfl]
    exact hn
  noPost := Input.isPost_of_isOwn hq p

/-- What a node can do by itself, it can do while the other one waits. -/
theorem reaches_own {P : Node → Prop} (hn : g.accepted.Nodup) (iid : U32)
    (h : Run.Reaches (Node.step (env p)) Quiet (s.node p) P) :
    Run.Reaches (Peers.stagedStep env iid) (Smooth env iid) (g, s) fun y =>
      y.1 = g ∧ P (y.2.node p) ∧ y.2.node p.other = s.node p.other := by
  let R : Node → StageRecord × Peers → Prop := fun n y =>
    y.1 = g ∧ y.2.node p = n ∧ y.2.node p.other = s.node p.other
  have hstart : R (s.node p) (g, s) := ⟨rfl, rfl, rfl⟩
  refine h.lift (R := R) ?_ hstart ?_
  · rintro n ⟨g', s'⟩ input ⟨rfl, rfl, hother⟩ hq
    have hnote : StageRecord.note env iid g' s' (.act p input) = g' :=
      StageRecord.note_of_not_arriving rfl
    refine ⟨.act p input, smooth_act hq hn iid, hnote, ?_, ?_⟩
    · exact peers_moved (.act (Input.isLocal_of_isOwn hq))
    · exact (peers_act_other env s' p input).trans hother
  · rintro n y ⟨hg, rfl, hother⟩ hP
    exact ⟨hg, hP, hother⟩

/-! ## Taking a trade on -/

/-- The party `p` has taken the trade to a later status, and the other one still stores what it
stored. -/
structure Advances (iid : U32) (p : Party) (x y : StageRecord × Peers) : Prop where
  other : (y.2.node p.other).storage = (x.2.node p.other).storage
  later : ∃ t₁ t₂, (x.2.node p).storage.findActiveTrade iid = some t₁ ∧
    (y.2.node p).storage.findActiveTrade iid = some t₂ ∧ t₁.status.Later t₂.status

theorem TradeStatus.Later.trans {s s' s'' : TradeStatus} (h : s.Later s') (h' : s'.Later s'') :
    s.Later s'' := by
  refine ⟨h.1.trans h'.1, fun heq => ?_⟩
  subst heq
  exact h.2 (h.1.antisymm h'.1)

namespace OnCourse

/-- An open `verify` takes the trade on. -/
theorem verify_advances (h : OnCourse t (g, s)) {commit : Commit} {t' : Trade}
    {stage : VerifyStage} (hk : (s.node p).tasks k = some (.verify commit t' stage))
    (hid : t'.id = t.id) : Run.Reaches (Peers.stagedStep env t.id) (Smooth env t.id) (g, s)
      (Advances t.id p (g, s)) := by
  obtain ⟨hf, hfits⟩ := (h.forwarding p).copy k _ t' ⟨hk, rfl, hid⟩
  have hv : Verifies t.id k commit t' stage (s.node p) := ⟨hk, hf⟩
  by_cases hstage : stage = .processing
  · subst hstage
    have hawaited : t'.status.IsAwaited := hfits
    have hquiet : Quiet (s.node p) (.task k .run) := rfl
    refine (reaches_own h.once t.id (.head hquiet (hv.processing.sendable nofun trivial))).mono ?_
    rintro y ⟨-, hy, hother⟩
    exact ⟨congrArg Node.storage hother, _, _, hf, hy, hawaited.later.trans
      hawaited.toProcessing.later⟩
  · have hprocessing := (Task.fits_verify hstage).mp hfits
    have hsound : stage.Sound := (h.tended p).task k _ hk
    refine (reaches_own h.once t.id (hv.sendable hstage hsound)).mono ?_
    rintro y ⟨-, hy, hother⟩
    exact ⟨congrArg Node.storage hother, _, _, hf, hy, hprocessing.later⟩

end OnCourse

/-! ## A commit and the answer to it -/

/-- A commit request is answered, and changes no trade where it arrives. -/
theorem commit_answered {node : Node} {env : Env Hash} {request : ExchangeRequest}
    {c : TradeStatus × U32 × Commit} (hr : request.awaited = some c) (sender : PeerId) (rid : ℕ) :
    (node.step env (.network (.exchangeRequest sender rid request))).storage = node.storage ∧
      ∃ response, (node.act env (.network (.exchangeRequest sender rid request))).2 =
        [.sendExchangeResponse sender rid response] := by
  have hcommit : ∀ w tradeId commit,
      (node.handleCommit w sender rid tradeId commit).1.storage = node.storage ∧
        ∃ response, (node.handleCommit w sender rid tradeId commit).2 =
          [.sendExchangeResponse sender rid response] := by
    intro w tradeId commit
    unfold Node.handleCommit
    split
    · exact ⟨rfl, _, rfl⟩
    · exact ⟨rfl, _, rfl⟩
  cases request with
  | iWant i => cases hr
  | startCommit t => cases hr
  | t1RequesterCommit tradeId commit => exact hcommit _ _ _
  | t1ProviderCommit tradeId commit => exact hcommit _ _ _
  | t2RequesterCommit tradeId commit => exact hcommit _ _ _
  | t2CommitValid tradeId => cases hr
  | invalidatingSignature tradeId sig => cases hr

/-- Once a commit has arrived, the response is under way, and its sender has not moved. -/
theorem peers_delivered (env : Party → Env Hash) {request : ExchangeRequest}
    {c : TradeStatus × U32 × Commit}
    (hf : s.flight p k = some (.request (env p.other).nodeId request))
    (hr : request.awaited = some c) :
    (∃ response, (s.step env (.deliver p k)).flight p k = some (.response response)) ∧
      (s.step env (.deliver p k)).node p = s.node p ∧
      ((s.step env (.deliver p k)).node p.other).storage = (s.node p.other).storage := by
  obtain ⟨hsame, response, hresponse⟩ := @commit_answered _ (s.node p.other) (env p.other) _ _ hr
    (env p).nodeId k
  refine ⟨⟨response, ?_⟩, ?_, ?_⟩
  · simp only [Peers.step, Peers.deliver, hf, if_true, Peers.setFlight_flight, and_self, hresponse,
      List.findSome?_cons, Command.response?, Option.getD_some]
  · have hmoved : Moved env s (.deliver p k) p.other _ := .deliver (.inl hf)
    have hother := hmoved.other_eq
    rwa [Party.other_other] at hother
  · rw [peers_moved (.deliver (.inl hf))]
    exact hsame

/-- A response takes the trade of a `send` on. -/
theorem peers_responded (env : Party → Env Hash) {response : ExchangeResponse}
    (hf : s.flight p k = some (.response response))
    (hk : (s.node p).tasks k = some (.send t .requested)) :
    ((s.step env (.respond p k)).node p).storage =
        (s.node p).storage.updateActiveTrade (t.updateStatus t.status.toWaiting) ∧
      (s.step env (.respond p k)).node p.other = s.node p.other := by
  constructor
  · rw [peers_moved (.respond hf)]
    exact step_sent_storage hk response
  · exact (Moved.respond hf).other_eq

/-! ## Sending a commit -/

/-- A step that brings no request is smooth, unless it hands a `send` an early refusal. -/
theorem smooth_of_not_arriving {iid : U32} {l : Label} (hn : g.accepted.Nodup)
    (ha : s.arriving env l = none) (hpost : l.isPost = false)
    (hearly : g.NoEarlyBad s l) : Smooth env iid (g, s) l where
  early := hearly
  once := by
    rw [StageRecord.note_of_not_arriving ha]
    exact hn
  noPost := hpost

/-- The commit of the trade is about to be sent. -/
structure Starting (x : StageRecord × Peers) (p : Party) (t₁ : Trade) (k : ℕ)
    (y : StageRecord × Peers) : Prop where
  record : y.1 = x.1
  storage : (y.2.node p).storage = (x.2.node p).storage
  other : y.2.node p.other = x.2.node p.other
  task : (y.2.node p).tasks k = some (.send t₁ .starting)

namespace OnCourse

variable {w : TradeStatus}

/-- With no request of the trade under way, a `send` is started by a tick. -/
theorem idle_starting (h : OnCourse t (g, s)) (hidle : (s.node p).Idle t.id)
    (ht : (s.node p).storage.findActiveTrade t.id = some t₁) (hs : t₁.isSendingStatus = true) :
    Run.Reaches (Peers.stagedStep env t.id) (Smooth env t.id) (g, s) fun y =>
      ∃ k, Starting (g, s) p t₁ k y := by
  refine (reaches_own h.once t.id ((h.slots p).reaches_starting hidle ht hs)).mono ?_
  rintro y ⟨hg, ⟨hsame, k, hk⟩, hother⟩
  exact ⟨k, hg, hsame, hother, hk⟩

/-- A request of the trade that is under way is lost first. -/
theorem reaches_starting (h : OnCourse t (g, s)) (hr : t.requesterId = (env .a).nodeId)
    (hp : t.providerId = (env .b).nodeId)
    (ht : (s.node p).storage.findActiveTrade t.id = some t₁) (hs : t₁.isSendingStatus = true) :
    Run.Reaches (Peers.stagedStep env t.id) (Smooth env t.id) (g, s) fun y =>
      ∃ k, Starting (g, s) p t₁ k y := by
  by_cases hidle : (s.node p).Idle t.id
  · exact h.idle_starting hidle ht hs
  · obtain ⟨k, t', stage, hk, hid, hno⟩ : ∃ k t' stage,
        (s.node p).tasks k = some (.send t' stage) ∧ t'.id = t.id ∧
          ∀ event, stage ≠ .reporting event := by
      simpa [Node.Idle] using hidle
    have hcopy : (Task.send t' stage).copy? = some t' := by
      cases stage with
      | reporting event => exact absurd rfl (hno event)
      | _ => rfl
    cases ht.symm.trans ((h.forwarding p).copy k _ t' ⟨hk, hcopy, hid⟩).1
    cases stage with
    | reporting event => exact absurd rfl (hno event)
    | starting => exact .refl ⟨k, rfl, rfl, rfl, hk⟩
    | requested =>
      obtain ⟨f, hf, hab⟩ := h.waits p k _ hk
      have hsmooth : Smooth env t.id (g, s) (.lose p k) :=
        smooth_of_not_arriving h.once rfl rfl fun _ _ heq => by cases heq
      have hnode : (s.step env (.lose p k)).node p = (s.node p).resume k (s.node p).storage
          (some (.send t₁ (.reporting (.sendFailed t₁.id)))) :=
        (peers_moved (.lose hf hab)).trans (step_unsent hk)
      have hother : (s.step env (.lose p k)).node p.other = s.node p.other :=
        (Moved.lose hf hab).other_eq
      have hnote : StageRecord.note env t.id g s (.lose p k) = g :=
        StageRecord.note_of_not_arriving rfl
      have hnext : OnCourse t (g, s.step env (.lose p k)) := hnote ▸ h.step hr hp hsmooth
      have hreports : ((s.step env (.lose p k)).node p).tasks k =
          some (.send t₁ (.reporting (.sendFailed t₁.id))) := by
        rw [hnode, Node.resume_tasks, if_pos rfl]
      have hidle' : ((s.step env (.lose p k)).node p).Idle t.id := by
        intro k' t'' stage' hk' hid'
        obtain rfl : k' = k := (hnext.slots p).task_unique k' k t.id ⟨t'', _, hk', hid'⟩
          ⟨t₁, _, hreports, hid⟩
        cases hreports.symm.trans hk'
        exact ⟨_, rfl⟩
      have hstored : ((s.step env (.lose p k)).node p).storage = (s.node p).storage := by
        rw [hnode, Node.resume_storage]
      refine .head (i := .lose p k) hsmooth ?_
      show Run.Reaches _ _ (StageRecord.note env t.id g s (.lose p k), s.step env (.lose p k)) _
      rw [hnote]
      refine (hnext.idle_starting hidle' (by rw [hstored]; exact ht) hs).mono ?_
      rintro y ⟨k', hy⟩
      exact ⟨k', hy.record, hy.storage.trans hstored, hy.other.trans hother, hy.task⟩

/-- A stage that is on record is behind the node that accepts it, if that verifies nothing. -/
theorem later_of_accepted (h : OnCourse t (g, s))
    (hno : ∀ k commit t' stage, (s.node p).tasks k = some (.verify commit t' stage) →
      t'.id ≠ t.id)
    (ht : (s.node p).storage.findActiveTrade t.id = some t₁) (hw : w ∈ g.accepted)
    (hp : w ∈ p.statuses) : w.Later t₁.status := by
  obtain ⟨t', ht', hfw, hwait⟩ := (h.forwarding p).passed w (StageRecord.mem_begun.mpr ⟨hw, hp⟩)
  cases ht.symm.trans ht'
  refine ⟨hfw, fun heq => ?_⟩
  obtain ⟨k, task, hk, hun⟩ := hwait heq.symm
  unfold Task.isUnbegun at hun
  split at hun
  · exact hno _ _ _ _ hk.1 (of_decide_eq_true hun)
  · cases hun

/-- A commit that arrives is accepted for the first time, or refused as none that is early. -/
theorem smooth_deliver (h : OnCourse t (g, s)) {request : ExchangeRequest} {commit : Commit}
    (hno : ∀ k commit t' stage, (s.node p.other).tasks k = some (.verify commit t' stage) →
      t'.id ≠ t.id)
    (hr : t.requesterId = (env .a).nodeId) (hp : t.providerId = (env .b).nodeId)
    (ht : (s.node p.other).storage.findActiveTrade t.id = some t₂)
    (hb : t₂.status ∉ w.before)
    (hf : s.flight p k = some (.request (env p.other).nodeId request))
    (hw : request.awaited = some (w, t.id, commit)) :
    Smooth env t.id (g, s) (.deliver p k) ∧
      (StageRecord.note env t.id g s (.deliver p k)).early = g.early := by
  have harr := arriving_of_request hf
  have hcopy := h.stage.copy p.other t₂ ht
  have hparty : t₂.counterPartyDetails.1 = (env p).nodeId := by
    rw [hcopy.counterParty hr hp, Party.other_other]
  by_cases hst : t₂.status = w
  · subst hst
    have hnote := StageRecord.note_accept (g := g) harr hw ht hparty
    have honce : t₂.status ∉ g.accepted := fun hmem =>
      (h.later_of_accepted hno ht hmem hcopy.status).2 rfl
    refine ⟨⟨nofun, ?_, rfl⟩, by rw [hnote]⟩
    rw [hnote]
    exact List.nodup_cons.mpr ⟨honce, h.once⟩
  · have hnote := StageRecord.note_refuse (g := g) harr hw ht hst hb
    refine ⟨⟨nofun, ?_, rfl⟩, by rw [hnote]⟩
    rw [hnote]
    exact h.once

/-- A commit that is about to be sent, to a node that has come to its stage, takes the trade on. -/
theorem starting_advances (h : OnCourse t (g, s)) (hr : t.requesterId = (env .a).nodeId)
    (hp : t.providerId = (env .b).nodeId)
    (hno : ∀ k commit t' stage, (s.node p.other).tasks k = some (.verify commit t' stage) →
      t'.id ≠ t.id)
    (ht₂ : (s.node p.other).storage.findActiveTrade t.id = some t₂)
    (hstage : t₁.status.stage = some w) (hb : t₂.status ∉ w.before)
    (hk : (s.node p).tasks k = some (.send t₁ .starting)) (hid : t₁.id = t.id) :
    Run.Reaches (Peers.stagedStep env t.id) (Smooth env t.id) (g, s)
      (Advances t.id p (g, s)) := by
  have hs : t₁.isSendingStatus = true := (h.slots p).due k t₁ hk
  have hstored := ((h.forwarding p).copy k _ t₁ ⟨hk, rfl, hid⟩).1
  have hnotEarly : (p, k) ∉ g.early := fun hmem => (h.early p k hmem).2 t₁ hk
  -- the request is put under way
  have hquiet : Quiet (s.node p) (.task k .run) := rfl
  have hsmooth₁ : Smooth env t.id (g, s) (.act p (.task k .run)) := smooth_act hquiet h.once t.id
  obtain ⟨commit, request, hrequest, hf⟩ := peers_asks env hk hs
  obtain ⟨w', hw, hstage', -⟩ := createSendRequest_awaited hrequest
  cases hstage.symm.trans hstage'
  rw [hid] at hw
  have hparty : t₁.counterPartyDetails.1 = (env p.other).nodeId :=
    (h.stage.copy p t₁ hstored).counterParty hr hp
  rw [hparty] at hf
  have hnode₁ : (s.step env (.act p (.task k .run))).node p =
      (s.node p).step (env p) (.task k .run) := peers_moved (.act rfl)
  have hother₁ : (s.step env (.act p (.task k .run))).node p.other = s.node p.other :=
    peers_act_other env s p _
  have hnote₁ : StageRecord.note env t.id g s (.act p (.task k .run)) = g :=
    StageRecord.note_of_not_arriving rfl
  have h₁ : OnCourse t (g, s.step env (.act p (.task k .run))) := hnote₁ ▸ h.step hr hp hsmooth₁
  have hk₁ : ((s.step env (.act p (.task k .run))).node p).tasks k =
      some (.send t₁ .requested) := by
    rw [hnode₁]
    exact step_request hk hs
  have hstorage₁ : ((s.step env (.act p (.task k .run))).node p).storage = (s.node p).storage := by
    rw [hnode₁]
    exact step_request_storage hk hs
  refine .head (i := .act p (.task k .run)) hsmooth₁ ?_
  show Run.Reaches _ _ (StageRecord.note env t.id g s (.act p (.task k .run)),
    s.step env (.act p (.task k .run))) _
  rw [hnote₁]
  generalize s.step env (.act p (.task k .run)) = s₁ at *
  -- it arrives at the other node
  obtain ⟨hsmooth₂, hearly⟩ := h₁.smooth_deliver (by rw [hother₁]; exact hno) hr hp
    (by rw [hother₁]; exact ht₂) hb hf hw
  obtain ⟨⟨response, hresponse⟩, hnode₂, hother₂⟩ := peers_delivered env hf hw
  have h₂ : OnCourse t (StageRecord.note env t.id g s₁ (.deliver p k),
      s₁.step env (.deliver p k)) := h₁.step hr hp hsmooth₂
  refine .head (i := .deliver p k) hsmooth₂ ?_
  show Run.Reaches _ _ (StageRecord.note env t.id g s₁ (.deliver p k), s₁.step env (.deliver p k)) _
  generalize StageRecord.note env t.id g s₁ (.deliver p k) = g₂ at *
  generalize s₁.step env (.deliver p k) = s₂ at *
  -- and is answered
  have hsmooth₃ : Smooth env t.id (g₂, s₂) (.respond p k) := by
    refine smooth_of_not_arriving h₂.once rfl rfl ?_
    rintro p' k' ⟨⟩ -
    rw [hearly]
    exact hnotEarly
  obtain ⟨hwritten, hother₃⟩ := peers_responded env hresponse (hnode₂ ▸ hk₁)
  refine .one (i := .respond p k) hsmooth₃ ⟨?_, t₁, t₁.updateStatus t₁.status.toWaiting, hstored,
    ?_, Trade.later_of_isSendingStatus hs⟩
  · show ((s₂.step env (.respond p k)).node p.other).storage = (s.node p.other).storage
    rw [hother₃, hother₂, hother₁]
  · show ((s₂.step env (.respond p k)).node p).storage.findActiveTrade t.id = _
    rw [hwritten, hnode₂, hstorage₁]
    exact findActiveTrade_update_stored hstored _

/-- A commit can be sent to a node that has come to its stage. -/
theorem send_advances (h : OnCourse t (g, s)) (hr : t.requesterId = (env .a).nodeId)
    (hp : t.providerId = (env .b).nodeId)
    (hno : ∀ k commit t' stage, (s.node p.other).tasks k = some (.verify commit t' stage) →
      t'.id ≠ t.id)
    (ht₁ : (s.node p).storage.findActiveTrade t.id = some t₁)
    (ht₂ : (s.node p.other).storage.findActiveTrade t.id = some t₂)
    (hs : t₁.isSendingStatus = true) (hstage : t₁.status.stage = some w)
    (hb : t₂.status ∉ w.before) :
    Run.Reaches (Peers.stagedStep env t.id) (Smooth env t.id) (g, s)
      (Advances t.id p (g, s)) := by
  have hcourse : ∀ y l, OnCourse t y → Smooth env t.id y l →
      OnCourse t (Peers.stagedStep env t.id y l) := fun _ _ hy hok => hy.step hr hp hok
  refine ((h.reaches_starting hr hp ht₁ hs).inv hcourse h).trans ?_
  rintro ⟨g', s'⟩ ⟨h', k, hy⟩
  have hother := hy.other
  refine (h'.starting_advances hr hp (by rw [hother]; exact hno) (by rw [hother]; exact ht₂)
    hstage hb hy.task (findActiveTrade_id ht₁)).mono ?_
  rintro z ⟨hz, t₃, t₄, ht₃, ht₄, hlater⟩
  refine ⟨hz.trans (congrArg Node.storage hother), t₃, t₄, ?_, ht₄, hlater⟩
  rw [← hy.storage]
  exact ht₃

end OnCourse

/-! ## The end of the trade -/

/-- The requester waits for the service, and the provider is to fulfil it. -/
structure Completed (t : Trade) (x : StageRecord × Peers) : Prop where
  requester : (x.2.node .a).storage.findActiveTrade t.id =
    some ((t.side .a).updateStatus .waitingForService)
  provider : (x.2.node .b).storage.findActiveTrade t.id =
    some ((t.side .b).updateStatus .pFulfillService)

/-- Where the two nodes stand when neither verifies anything. -/
structure Resting (rs ps : TradeStatus) (accepted : List TradeStatus) : Prop where
  requester : rs ∈ Party.a.statuses
  provider : ps ∈ Party.b.statuses
  requesterRests : ¬ rs.IsProcessing
  providerRests : ¬ ps.IsProcessing
  requesterReached : ∀ w ∈ rs.reached, w ∈ accepted
  providerReached : ∀ w ∈ ps.reached, w ∈ accepted
  requesterLater : ∀ w ∈ accepted, w ∈ Party.a.statuses → w.Later rs
  providerLater : ∀ w ∈ accepted, w ∈ Party.b.statuses → w.Later ps

/-- Unless the trade is completed, one of the nodes is to send a commit, and the other one has come
to its stage. -/
theorem Resting.cases {rs ps : TradeStatus} {accepted : List TradeStatus}
    (h : Resting rs ps accepted) : rs = .waitingForService ∧ ps = .pFulfillService ∨
      (∃ w, rs.stage = some w ∧ ps ∉ w.before) ∨ ∃ w, ps.stage = some w ∧ rs ∉ w.before := by
  have hself : ∀ w : TradeStatus, ¬ w.Later w := fun w hw => hw.2 rfl
  have hrequester : rs ∉ ps.reached := fun hw =>
    hself rs (h.requesterLater rs (h.providerReached rs hw) h.requester)
  have hprovider : ps ∉ rs.reached := fun hw =>
    hself ps (h.providerLater ps (h.requesterReached ps hw) h.provider)
  have hps := h.provider
  have hprests := h.providerRests
  have hrs := h.requester
  have hrrests := h.requesterRests
  cases rs with
  | rSendT1Commit => exact .inr (.inl ⟨.waitingRT1Commit, rfl, List.not_mem_nil⟩)
  | waitingPT1Commit =>
    -- only a provider that is to send its commit has not asked for this one yet
    cases ps <;> revert hps hprests hrequester hprovider <;>
      simp [Party.statuses, TradeStatus.providerStatuses, TradeStatus.reached, TradeStatus.stage,
        TradeStatus.before, TradeStatus.IsProcessing]
  | rSendT2Commit =>
    cases ps <;> revert hps hprests hprovider <;>
      simp [Party.statuses, TradeStatus.providerStatuses, TradeStatus.reached, TradeStatus.stage,
        TradeStatus.before, TradeStatus.IsProcessing]
  | waitingForService =>
    cases ps <;> revert hps hprests hprovider <;>
      simp [Party.statuses, TradeStatus.providerStatuses, TradeStatus.reached, TradeStatus.stage,
        TradeStatus.before, TradeStatus.IsProcessing]
  | _ =>
    revert hrs hrrests
    simp [Party.statuses, TradeStatus.requesterStatuses, TradeStatus.IsProcessing]

theorem Trade.isSendingStatus_of_stage {w : TradeStatus} (h : t.status.stage = some w) :
    t.isSendingStatus = true := by
  rw [Trade.isSendingStatus_iff]
  cases hs : t.status <;> rw [hs] at h <;> simp [TradeStatus.stage] at h ⊢

namespace OnCourse

/-- A node that verifies nothing has its trade in no processing status. -/
theorem rests (h : OnCourse t (g, s))
    (hno : ∀ k commit t' stage, (s.node p).tasks k = some (.verify commit t' stage) →
      t'.id ≠ t.id)
    (ht : (s.node p).storage.findActiveTrade t.id = some t₁) : ¬ t₁.status.IsProcessing := by
  intro hs
  obtain ⟨k, commit, stage, hk, -⟩ := (h.tended p).verified t₁ ht hs
  exact hno k commit t₁ stage hk (findActiveTrade_id ht)

theorem resting (h : OnCourse t (g, s))
    (hno : ∀ p k commit t' stage, (s.node p).tasks k = some (.verify commit t' stage) →
      t'.id ≠ t.id)
    (h₁ : (s.node .a).storage.findActiveTrade t.id = some t₁)
    (h₂ : (s.node .b).storage.findActiveTrade t.id = some t₂) :
    Resting t₁.status t₂.status g.accepted where
  requester := (h.stage.copy .a t₁ h₁).status
  provider := (h.stage.copy .b t₂ h₂).status
  requesterRests := h.rests (hno .a) h₁
  providerRests := h.rests (hno .b) h₂
  requesterReached := (h.stage.copy .a t₁ h₁).reached
  providerReached := (h.stage.copy .b t₂ h₂).reached
  requesterLater _ hw hp := h.later_of_accepted (hno .a) h₁ hw hp
  providerLater _ hw hp := h.later_of_accepted (hno .b) h₂ hw hp

/-- A trade on its course that is not completed can be taken on by one of the nodes. -/
theorem advances (h : OnCourse t (g, s)) (hr : t.requesterId = (env .a).nodeId)
    (hp : t.providerId = (env .b).nodeId) (hopen : ¬ Completed t (g, s)) :
    ∃ p, Run.Reaches (Peers.stagedStep env t.id) (Smooth env t.id) (g, s)
      (Advances t.id p (g, s)) := by
  by_cases hverify : ∃ p k commit t' stage,
      (s.node p).tasks k = some (.verify commit t' stage) ∧ t'.id = t.id
  · obtain ⟨p, k, commit, t', stage, hk, hid⟩ := hverify
    exact ⟨p, h.verify_advances hk hid⟩
  · have hno : ∀ p k commit t' stage, (s.node p).tasks k = some (.verify commit t' stage) →
        t'.id ≠ t.id := fun p k commit t' stage hk hid =>
      hverify ⟨p, k, commit, t', stage, hk, hid⟩
    obtain ⟨t₁, h₁⟩ := Option.ne_none_iff_exists'.mp (h.stage.stored .a)
    obtain ⟨t₂, h₂⟩ := Option.ne_none_iff_exists'.mp (h.stage.stored .b)
    rcases (h.resting hno h₁ h₂).cases with ⟨hs₁, hs₂⟩ | ⟨w, hw, hb⟩ | ⟨w, hw, hb⟩
    · refine absurd ⟨?_, ?_⟩ hopen
      · rw [h₁, (h.stage.copy .a t₁ h₁).same, hs₁]
      · rw [h₂, (h.stage.copy .b t₂ h₂).same, hs₂]
    · exact ⟨.a, h.send_advances hr hp (hno .b) h₁ h₂ (Trade.isSendingStatus_of_stage hw) hw hb⟩
    · exact ⟨.b, h.send_advances hr hp (hno .a) h₂ h₁ (Trade.isSendingStatus_of_stage hw) hw hb⟩

end OnCourse

/-! ## The way to the end -/

/-- How far the stored trade is from the last status of its side. -/
def Storage.ahead (iid : U32) (s : Storage) : ℕ :=
  match s.findActiveTrade iid with
  | some t => 5 - t.status.position
  | none => 0

/-- How far the trade is from its end at both nodes. -/
def Peers.ahead (iid : U32) (s : Peers) : ℕ :=
  (s.node .a).storage.ahead iid + (s.node .b).storage.ahead iid

theorem TradeStatus.Later.position_lt {w w' : TradeStatus} (h : w.Later w') :
    w.position < w'.position :=
  Nat.lt_of_le_of_ne h.1.position fun heq => h.2 (TradeStatus.eq_of_place h.1.side.symm heq)

theorem TradeStatus.position_le (w : TradeStatus) : w.position ≤ 5 := by
  cases w <;> decide

/-- Taking the trade on brings it nearer to its end. -/
theorem Advances.ahead_lt {iid : U32} {x y : StageRecord × Peers} (h : Advances iid p x y) :
    y.2.ahead iid < x.2.ahead iid := by
  obtain ⟨t₁, t₂, h₁, h₂, hlater⟩ := h.later
  have hlt : (y.2.node p).storage.ahead iid < (x.2.node p).storage.ahead iid := by
    have hpos := hlater.position_lt
    have hle := t₂.status.position_le
    simp only [Storage.ahead, h₁, h₂]
    omega
  have hother : (y.2.node p.other).storage.ahead iid = (x.2.node p.other).storage.ahead iid := by
    rw [h.other]
  unfold Peers.ahead
  cases p with
  | a => exact Nat.add_lt_add_of_lt_of_le hlt hother.le
  | b => exact Nat.add_lt_add_of_le_of_lt hother.le hlt

/-- Two nodes store the trade as requester and provider, the requester to send its first commit and the
provider to wait for it (`Trade.side`). No state that they reach from there without trouble is a dead
end: whatever was lost, repeated or delayed, they can go on without trouble until the trade is
completed at both. -/
theorem trade_completes (t : Trade) (hr : t.requesterId = (env .a).nodeId)
    (hp : t.providerId = (env .b).nodeId) {storage : Party → Storage}
    (ht : ∀ p, (storage p).findActiveTrade t.id = some (t.side p)) {labels : List Label}
    (hok : Run.Always (Peers.stagedStep env t.id) (Smooth env t.id) ({}, Peers.start storage)
      labels) :
    Run.Reaches (Peers.stagedStep env t.id) (Smooth env t.id) (Peers.staged env t.id storage labels)
      (Completed t) := by
  have hcourse : ∀ y l, OnCourse t y → Smooth env t.id y l →
      OnCourse t (Peers.stagedStep env t.id y l) := fun _ _ h hok => h.step hr hp hok
  have hreached : OnCourse t (Peers.staged env t.id storage labels) :=
    Run.final_inv hcourse (onCourse_start t ht) hok
  refine Run.reaches_of_measure (fun y => y.2.ahead t.id) (fun y hy hopen => ?_) hreached
  obtain ⟨p, hadvances⟩ := hy.advances hr hp hopen
  exact (hadvances.inv hcourse hy).mono fun z hz => ⟨hz.1, hz.2.ahead_lt⟩

theorem trade_completes_timelyLabels :
    Run.Reaches (Peers.stagedStep plainEnvs 6) (Smooth plainEnvs 6)
      (Peers.staged plainEnvs 6 tradingStorages timelyLabels)
      (Completed (plainTrade .rSendT1Commit true)) := by
  have hstored : ∀ p, (tradingStorages p).findActiveTrade 6 =
      some ((plainTrade .rSendT1Commit true).side p) := by
    intro p
    cases p <;> decide +kernel
  exact trade_completes (plainTrade .rSendT1Commit true) rfl rfl hstored (by decide +kernel)

end Dse
