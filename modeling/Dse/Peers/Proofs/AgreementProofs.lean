import Dse.Peers.Proofs.StageProofs

/-!
# Two-party agreement on the stages

`StageInv` ties every copy of the trade, stored or in a task, and every response under way to the
acceptances on record, whatever the order of the steps. `TurnInv` says in which order the requester
goes through its own statuses: it comes to `WaitingPT1Commit` once, and leaves it by a `verify`.
-/

namespace Dse

open Storage

variable {Hash : Type} {env : Party → Env Hash}

/-! ## Copies of the trade -/

/-- The trade as the two parties store it at the start: the copy of each is flagged with its own role,
and is in the first status of that role. -/
def Trade.side (t : Trade) : Party → Trade
  | .a => { t with status := .rSendT1Commit, isRequester := true }
  | .b => { t with status := .waitingRT1Commit, isRequester := false }

/-- A copy of the trade `t` at the party `q`: it differs in the status, which is one of the party's,
and whose stages are on record. -/
structure Copy (t : Trade) (accepted : List TradeStatus) (q : Party) (t' : Trade) : Prop where
  same : t' = (t.side q).updateStatus t'.status
  status : t'.status ∈ q.statuses
  reached : ∀ w ∈ t'.status.reached, w ∈ accepted

/-- A copy in a `verify`, which was accepted in a status and is processed if it has begun. -/
structure VerifyCopy (t : Trade) (accepted : List TradeStatus) (q : Party) (stage : VerifyStage)
    (t' : Trade) (w : TradeStatus) : Prop where
  same : t' = (t.side q).updateStatus t'.status
  awaited : w.IsAwaited
  mem : w ∈ q.statuses
  status : t'.status = if stage = .processing then w else w.toProcessing
  reached : ∀ x ∈ w.toProcessing.reached, x ∈ accepted

variable {t t' : Trade} {acc acc' : List TradeStatus} {q : Party}

theorem Copy.mono (h : Copy t acc q t') (hacc : ∀ w ∈ acc, w ∈ acc') : Copy t acc' q t' :=
  ⟨h.same, h.status, fun w hw => hacc w (h.reached w hw)⟩

theorem Copy.updateStatus {s : TradeStatus} (h : t' = (t.side q).updateStatus t'.status)
    (hs : s ∈ q.statuses) (hr : ∀ w ∈ s.reached, w ∈ acc) : Copy t acc q (t'.updateStatus s) := by
  refine ⟨?_, hs, hr⟩
  rw [h]
  rfl

theorem VerifyCopy.mono {stage : VerifyStage} {w : TradeStatus}
    (h : VerifyCopy t acc q stage t' w) (hacc : ∀ w ∈ acc, w ∈ acc') :
    VerifyCopy t acc' q stage t' w :=
  ⟨h.same, h.awaited, h.mem, h.status, fun x hx => hacc x (h.reached x hx)⟩

/-! ## The invariant -/

/-- What is known of a task that works on the trade. -/
def Task.StageOk (t : Trade) (acc : List TradeStatus) (q : Party) : Task → Prop
  | .verify _ t' stage => t'.id = t.id → ∃ w, VerifyCopy t acc q stage t' w
  | .send t' stage => t'.id = t.id → Copy t acc q t' ∧
      ((∀ event, stage ≠ .reporting event) → t'.isSendingStatus = true)
  | .post _ => False

/-- What is known of the request of a `send` that waits for its response. -/
def Flight.StageOk (g : StageRecord) (q : Party) (k : ℕ) (t' : Trade) : Flight → Prop
  | .request _ r => ∃ w commit, r.awaited = some (w, t'.id, commit) ∧ t'.status.stage = some w
  | .response .ack => ∀ w, t'.status.stage = some w → w ∈ g.accepted
  | .response .bad => (q, k) ∉ g.early → ∀ w, t'.status.stage = some w → w ∈ g.accepted
  | _ => True

/-- The request opens no trade. -/
def Flight.NoStart : Flight → Prop
  | .request _ (.startCommit _) => False
  | .abandoned _ (.startCommit _) => False
  | _ => True

theorem Flight.noStart_of_awaited {peerId : PeerId} {r : ExchangeRequest}
    {c : TradeStatus × U32 × Commit} (h : r.awaited = some c) :
    (Flight.request peerId r).NoStart := by
  cases r with
  | startCommit t => cases h
  | _ => trivial

theorem Flight.noStart_abandoned {peerId : PeerId} {r : ExchangeRequest}
    (h : (Flight.request peerId r).NoStart) : (Flight.abandoned peerId r).NoStart := by
  cases r with
  | startCommit t => exact h
  | _ => trivial

/-- The invariant of the two nodes and what the observer has on record. -/
structure StageInv (t : Trade) (x : StageRecord × Peers) : Prop where
  slots : ∀ q, SendSlots (x.2.node q)
  stored : ∀ q, (x.2.node q).storage.findActiveTrade t.id ≠ none
  copy : ∀ q t', (x.2.node q).storage.findActiveTrade t.id = some t' → Copy t x.1.accepted q t'
  task : ∀ q k task, (x.2.node q).tasks k = some task → task.StageOk t x.1.accepted q
  /-- A request under way is that of a task that has asked. -/
  asked : ∀ q k f, x.2.flight q k = some f →
    k < (x.2.node q).nextTask ∧ ∀ t', (x.2.node q).tasks k ≠ some (.send t' .starting)
  noStart : ∀ q k f, x.2.flight q k = some f → f.NoStart
  answer : ∀ q k t' f, (x.2.node q).tasks k = some (.send t' .requested) → t'.id = t.id →
    x.2.flight q k = some f → f.StageOk x.1 q k t'

variable {g g' : StageRecord} {s : Peers} {l : Label} {input : Input} {k : ℕ}

theorem Task.StageOk.mono {task : Task} (h : task.StageOk t acc q)
    (hacc : ∀ w ∈ acc, w ∈ acc') : task.StageOk t acc' q := by
  cases task with
  | verify commit t' stage =>
    intro hid
    obtain ⟨w, hw⟩ := h hid
    exact ⟨w, hw.mono hacc⟩
  | send t' stage =>
    intro hid
    obtain ⟨hc, hs⟩ := h hid
    exact ⟨hc.mono hacc, hs⟩
  | post stage => exact h

theorem Flight.StageOk.mono {f : Flight} (h : f.StageOk g q k t')
    (hacc : ∀ w ∈ g.accepted, w ∈ g'.accepted) (hearly : ∀ y ∈ g.early, y ∈ g'.early) :
    f.StageOk g' q k t' := by
  cases f with
  | request peerId r => exact h
  | abandoned peerId r => trivial
  | handled => trivial
  | response r =>
    cases r with
    | ack => exact fun w hw => hacc w (h w hw)
    | bad => exact fun hne w hw => hacc w (h (fun he => hne (hearly _ he)) w hw)

theorem stageInv_start (t : Trade) {storage : Party → Storage}
    (ht : ∀ p, (storage p).findActiveTrade t.id = some (t.side p)) :
    StageInv t ({}, Peers.start storage) where
  slots q := sendSlots_start (storage q)
  stored q := by
    show (storage q).findActiveTrade t.id ≠ none
    rw [ht q]
    simp
  copy q t' h := by
    have h' : (storage q).findActiveTrade t.id = some t' := h
    cases (ht q).symm.trans h'
    cases q with
    | a => exact ⟨rfl, by simp [Trade.side, Party.statuses, TradeStatus.requesterStatuses],
        fun _ h => by cases h⟩
    | b => exact ⟨rfl, by simp [Trade.side, Party.statuses, TradeStatus.providerStatuses],
        fun _ h => by cases h⟩
  task _ _ _ h := by cases h
  asked _ _ _ h := by cases h
  noStart _ _ _ h := by cases h
  answer _ _ _ _ h := by cases h

/-! ## Arrivals -/

/-- The request that arrives is the one that moves the node. -/
theorem Moved.arriving {sender : PeerId} {rid : ℕ} {request : ExchangeRequest}
    (h : Moved env s l q (.network (.exchangeRequest sender rid request))) :
    ∃ p, q = p.other ∧ sender = (env p).nodeId ∧ s.arriving env l = some (p, rid, request) := by
  cases h with
  | act hlocal => cases hlocal
  | @deliver p _ _ hf =>
    refine ⟨p, rfl, rfl, ?_⟩
    unfold Peers.arriving
    rcases hf with hf | hf
    · simp [hf]
    · simp [hf]

/-- The trade names the other node as the counter party. -/
theorem Copy.counterParty (h : Copy t acc q t') (hr : t.requesterId = (env .a).nodeId)
    (hp : t.providerId = (env .b).nodeId) : t'.counterPartyDetails.1 = (env q.other).nodeId := by
  rw [h.same, Trade.updateStatus_counterPartyDetails]
  cases q with
  | a => exact hp
  | b => exact hr

namespace StageInv

/-- A request that opens no trade arrives. -/
theorem arrives_noStart (h : StageInv t (g, s)) {sender : PeerId} {rid : ℕ} {t₁ : Trade}
    (hm : Moved env s l q (.network (.exchangeRequest sender rid (.startCommit t₁)))) : False := by
  cases hm with
  | act hlocal => cases hlocal
  | deliver hf =>
    rcases hf with hf | hf
    · exact h.noStart _ _ _ hf
    · exact h.noStart _ _ _ hf

/-- What a step writes is a copy of the trade whose stages are on record. -/
theorem written (h : StageInv t (g, s)) (hok : g.NoEarlyBad s l) (hm : Moved env s l q input)
    (hw : Written (s.node q) input t') (hid : t'.id = t.id) : Copy t g.accepted q t' := by
  cases hw with
  | startCommit sender rid t₁ => exact (h.arrives_noStart hm).elim
  | process hk =>
    obtain ⟨w, hv⟩ := h.task q _ _ hk hid
    have hs := hv.status
    rw [if_pos rfl] at hs
    rw [hs]
    exact Copy.updateStatus hv.same (Party.toProcessing_mem_statuses hv.mem) hv.reached
  | finish hk =>
    obtain ⟨w, hv⟩ := h.task q _ _ hk hid
    have hs := hv.status
    rw [if_neg (by simp)] at hs
    rw [hs]
    refine Copy.updateStatus hv.same
      (Party.toSend_mem_statuses (Party.toProcessing_mem_statuses hv.mem)) ?_
    rw [TradeStatus.reached_toSend]
    exact hv.reached
  | @sent k t₁ response hk =>
    obtain ⟨hc, -⟩ := h.task q _ _ hk hid
    refine Copy.updateStatus hc.same (Party.toWaiting_mem_statuses hc.status) fun w hw => ?_
    rcases TradeStatus.mem_reached_toWaiting hw with hw | hw
    · exact hc.reached w hw
    -- the stage that is left: its response has come
    · cases hm with
      | act hlocal => cases hlocal
      | respond hf =>
        have hans := h.answer q k t₁ _ hk hid hf
        cases response with
        | ack => exact hans w hw
        | bad => exact hans (hok q k rfl hf) w hw
  | opened hk => exact (h.task q _ _ hk).elim

/-- What a step leaves of a task. -/
theorem left (h : StageInv t (g, s)) (hok : g.NoEarlyBad s l) (hm : Moved env s l q input)
    (hpost : ∀ m, input ≠ .post m) (hacc : ∀ w ∈ g.accepted, w ∈ g'.accepted)
    (hnew : ∀ p id request t₁ commit, s.arriving env l = some (p, id, request) →
      request.awaited = some (t₁.status, t.id, commit) →
      (s.node p.other).storage.findActiveTrade t.id = some t₁ →
      t₁.counterPartyDetails.1 = (env p).nodeId → t₁.status ∈ g'.accepted)
    {task : Task} (ht : Left (env q) (s.node q) input k task) :
    task.StageOk t g'.accepted q := by
  cases ht with
  | @accept _ _ request t₁ commit hr hf hp =>
    intro hid
    rw [hid] at hr hf
    obtain ⟨p, rfl, rfl, harr⟩ := hm.arriving
    have hc := h.copy _ t₁ hf
    have hin := hnew p _ request t₁ commit harr hr hf hp
    refine ⟨t₁.status, hc.same, ExchangeRequest.isAwaited hr, hc.status, (if_pos rfl).symm, ?_⟩
    intro x hx
    rcases TradeStatus.mem_reached_toProcessing (ExchangeRequest.isAwaited hr) hx with hx | rfl
    · exact hacc x (hc.reached x hx)
    · exact hin
  | tick _ hf hs =>
    intro hid
    rw [hid] at hf
    exact ⟨(h.copy q _ hf).mono hacc, fun _ => hs⟩
  | post _ _ => exact absurd rfl (hpost _)
  | process hk =>
    intro hid
    obtain ⟨w, hv⟩ := h.task q _ _ hk hid
    have hs := hv.status
    rw [if_pos rfl] at hs
    refine ⟨w, ?_, hv.awaited, hv.mem, ?_, fun x hx => hacc x (hv.reached x hx)⟩
    · exact (Copy.updateStatus hv.same (Party.toProcessing_mem_statuses (hs ▸ hv.mem))
        (hs ▸ hv.reached)).same
    · rw [Trade.updateStatus_status, hs]
      exact (if_neg (by simp)).symm
  | examine hk h1 _ h3 _ =>
    intro hid
    obtain ⟨w, hv⟩ := h.task q _ _ hk hid
    refine ⟨w, hv.same, hv.awaited, hv.mem, ?_, fun x hx => hacc x (hv.reached x hx)⟩
    rw [hv.status, if_neg h1, if_neg h3]
  | request hk =>
    intro hid
    obtain ⟨hc, hs⟩ := h.task q _ _ hk hid
    exact ⟨hc.mono hacc, fun _ => hs (by simp)⟩
  | sent hk => exact fun hid =>
      ⟨(h.written hok hm (.sent hk) hid).mono hacc, fun hno => absurd rfl (hno _)⟩
  | unsent hk =>
    intro hid
    obtain ⟨hc, hs⟩ := h.task q _ _ hk hid
    exact ⟨hc.mono hacc, fun hno => absurd rfl (hno _)⟩
  | findsIWant hk _ => exact (h.task q _ _ hk).elim
  | opens hk => exact (h.task q _ _ hk).elim
  | serve hk _ _ => exact (h.task q _ _ hk).elim

/-- What is under way at a task that had asked before, or is asked for now. -/
theorem prior_or_asked {f : Flight} (hf : Flies env s l q k f) :
    (∃ f₀, s.flight q k = some f₀) ∨ ∃ answer peerId request, l = .act q (.task k answer) ∧
      Asked (env q) (s.node q) (.task k answer) peerId request ∧ f = .request peerId request := by
  cases hf with
  | sent hask => exact .inr ⟨_, _, _, rfl, hask, rfl⟩
  | response hf _ => exact .inl ⟨_, hf⟩
  | handled hf => exact .inl ⟨_, hf⟩
  | abandoned hf => exact .inl ⟨_, hf⟩

/-- A task that asks was about to. -/
theorem asks (h : StageInv t (g, s)) {answer : Answer} {peerId : PeerId}
    {request : ExchangeRequest} (hask : Asked (env q) (s.node q) (.task k answer) peerId request) :
    answer = .run ∧ ∃ t' commit, (s.node q).tasks k = some (.send t' .starting) ∧
      createSendRequest t' commit = some request := by
  cases hask with
  | commit hk hr => exact ⟨rfl, _, _, hk, hr⟩
  | iWant hk => exact (h.task q _ _ hk).elim
  | startCommit hk => exact (h.task q _ _ hk).elim

/-- A task that has asked does not start again. -/
theorem step_asked {f : Flight} (h : StageInv t (g, s)) (hf : s.flight q k = some f) :
    k < ((s.step env l).node q).nextTask ∧
      ∀ t', ((s.step env l).node q).tasks k ≠ some (.send t' .starting) := by
  obtain ⟨hlt, hne⟩ := h.asked q k f hf
  rcases peers_node env s l q with hq | ⟨input, hm, hq⟩
  · rw [hq]
    exact ⟨hlt, hne⟩
  · rw [hq]
    refine ⟨Nat.lt_of_lt_of_le hlt nextTask_le_step, fun t' hk => ?_⟩
    rcases step_task hk with hk | hk
    · exact hne t' hk
    · cases hk with
      | tick hid _ _ => exact absurd hid (Nat.not_le.mpr hlt)

end StageInv

/-- The request of a `send` is awaited in the status of its stage. -/
theorem createSendRequest_awaited {commit : Commit} {request : ExchangeRequest}
    (h : createSendRequest t commit = some request) :
    ∃ w, request.awaited = some (w, t.id, commit) ∧ t.status.stage = some w ∧
      t.isSendingStatus = true := by
  unfold createSendRequest at h
  split at h
  · rename_i hs
    cases h
    exact ⟨_, rfl, by rw [hs]; rfl, Trade.isSendingStatus_iff.mpr (.inl hs)⟩
  · rename_i hs
    cases h
    exact ⟨_, rfl, by rw [hs]; rfl, Trade.isSendingStatus_iff.mpr (.inr (.inl hs))⟩
  · rename_i hs
    cases h
    exact ⟨_, rfl, by rw [hs]; rfl, Trade.isSendingStatus_iff.mpr (.inr (.inr hs))⟩
  · cases h

theorem arriving_of_request {request : ExchangeRequest}
    (h : s.flight q k = some (.request (env q.other).nodeId request)) :
    s.arriving env (.deliver q k) = some (q, k, request) := by
  unfold Peers.arriving
  simp [h]

namespace StageInv

open StageRecord

/-- A response tells that the stage is on record, unless it is an early refusal. -/
theorem response (h : StageInv t (g, s)) (hr : t.requesterId = (env .a).nodeId)
    (hp : t.providerId = (env .b).nodeId) {request : ExchangeRequest} {response : ExchangeResponse}
    (hk : (s.node q).tasks k = some (.send t' .requested)) (hid : t'.id = t.id)
    (hf : s.flight q k = some (.request (env q.other).nodeId request))
    (ha : Answered (s.node q.other) (env q).nodeId request response) :
    (Flight.response response).StageOk (note env t.id g s (.deliver q k)) q k t' := by
  have harr := arriving_of_request hf
  obtain ⟨w, commit, hw, hstage⟩ := h.answer q k t' _ hk hid hf
  have hcopy : Copy t g.accepted q t' := (h.task q k _ hk hid).1
  rw [hid] at hw
  cases ha with
  | iWant i => cases hw
  | startCommit t₁ => cases hw
  | @accept _ t₂ commit₂ hr₂ hf₂ hp₂ =>
    obtain ⟨rfl, hid₂, rfl⟩ : w = t₂.status ∧ t.id = t₂.id ∧ commit = commit₂ := by
      simpa using hw.symm.trans hr₂
    rw [← hid₂] at hf₂
    intro w' hw'
    cases hstage.symm.trans hw'
    exact mem_accepted harr hw hf₂ hp₂
  | @refuse _ status tradeId commit₂ hr₂ hno =>
    obtain ⟨rfl, rfl, rfl⟩ : w = status ∧ t.id = tradeId ∧ commit = commit₂ := by
      simpa using hw.symm.trans hr₂
    intro hearly w' hw'
    cases hstage.symm.trans hw'
    obtain ⟨t₂, hf₂⟩ := Option.ne_none_iff_exists'.mp (h.stored q.other)
    have hcopy₂ := h.copy q.other t₂ hf₂
    have hparty : t₂.counterPartyDetails.1 = (env q).nodeId := by
      rw [hcopy₂.counterParty hr hp, Party.other_other]
    have hne : t₂.status ≠ w := fun hs => hno t₂ hf₂ hs hparty
    rcases Party.mem_before_or_mem_reached hcopy.status hstage hcopy₂.status hne with hb | hreach
    · exact absurd (mem_early harr hw hf₂ hne hb) hearly
    · exact accepted_mono (hcopy₂.reached w hreach)

/-- A step keeps the invariant, unless a `send` is handed an early refusal. -/
theorem step (h : StageInv t (g, s)) (hr : t.requesterId = (env .a).nodeId)
    (hp : t.providerId = (env .b).nodeId) (hok : g.NoEarlyBad s l)
    (hpost : l.isPost = false) : StageInv t (note env t.id g s l, s.step env l) := by
  have hacc : ∀ w ∈ g.accepted, w ∈ (note env t.id g s l).accepted := fun w => accepted_mono
  have hearly : ∀ y ∈ g.early, y ∈ (note env t.id g s l).early := fun y => early_mono
  have hinput : ∀ {q input}, Moved env s l q input → ∀ m, input ≠ .post m := by
    rintro q input hm m rfl
    cases hm
    cases hpost
  refine { slots := ?_, stored := ?_, copy := ?_, task := ?_, asked := ?_, noStart := ?_,
           answer := ?_ }
  · intro q
    show SendSlots ((s.step env l).node q)
    rcases peers_node env s l q with hq | ⟨input, hm, hq⟩
    · rw [hq]
      exact h.slots q
    · rw [hq]
      exact (h.slots q).step
  · intro q
    show ((s.step env l).node q).storage.findActiveTrade t.id ≠ none
    rcases peers_node env s l q with hq | ⟨input, hm, hq⟩
    · rw [hq]
      exact h.stored q
    · rw [hq]
      exact step_stored_ne_none (h.stored q)
  · intro q t' ht
    replace ht : ((s.step env l).node q).storage.findActiveTrade t.id = some t' := ht
    have hid := findActiveTrade_id ht
    rcases peers_node env s l q with hq | ⟨input, hm, hq⟩
    · rw [hq] at ht
      exact (h.copy q t' ht).mono hacc
    · rw [hq] at ht
      rcases step_stored ht with ht | ht
      · exact (h.copy q t' ht).mono hacc
      · exact (h.written hok hm ht hid).mono hacc
  · intro q k task hk
    replace hk : ((s.step env l).node q).tasks k = some task := hk
    rcases peers_node env s l q with hq | ⟨input, hm, hq⟩
    · rw [hq] at hk
      exact (h.task q k task hk).mono hacc
    · rw [hq] at hk
      rcases step_task hk with hk | hk
      · exact (h.task q k task hk).mono hacc
      · refine h.left hok hm (hinput hm) hacc ?_ hk
        exact fun p id request t₁ commit ha hr₁ hf₁ hp₁ => mem_accepted ha hr₁ hf₁ hp₁
  · intro q k f hf
    rcases peers_flight hf with hf | hf
    · exact h.step_asked hf
    · rcases prior_or_asked hf with ⟨f₀, hf₀⟩ | ⟨answer, peerId, request, rfl, hask, rfl⟩
      · exact h.step_asked hf₀
      · obtain ⟨rfl, t', commit, hk, hreq⟩ := h.asks hask
        obtain ⟨w, -, -, hs⟩ := createSendRequest_awaited hreq
        have hlt : k < (s.node q).nextTask := by
          by_contra hge
          cases ((h.slots q).fresh k (Nat.not_lt.mp hge)).symm.trans hk
        show k < ((s.step env _).node q).nextTask ∧ ∀ t', ((s.step env _).node q).tasks k ≠ _
        rw [peers_moved (.act rfl)]
        refine ⟨Nat.lt_of_lt_of_le hlt nextTask_le_step, fun t'' hk'' => ?_⟩
        cases (step_request hk hs).symm.trans hk''
  · intro q k f hf
    rcases peers_flight hf with hf | hf
    · exact h.noStart q k f hf
    · cases hf with
      | sent hask =>
        obtain ⟨rfl, t', commit, hk, hreq⟩ := h.asks hask
        obtain ⟨w, hw, -, -⟩ := createSendRequest_awaited hreq
        exact Flight.noStart_of_awaited hw
      | response _ _ => trivial
      | handled _ => trivial
      | abandoned hf₀ => exact Flight.noStart_abandoned (h.noStart q k _ hf₀)
  · intro q k t' f hk hid hf
    replace hk : ((s.step env l).node q).tasks k = some (.send t' .requested) := hk
    -- a task that has asked before has not changed
    have hold : ∀ {f₀}, s.flight q k = some f₀ → (s.node q).tasks k = some (.send t' .requested) := by
      intro f₀ hf₀
      rcases peers_node env s l q with hq | ⟨input, hm, hq⟩
      · exact hq ▸ hk
      · rw [hq] at hk
        rcases step_task hk with hk | hk
        · exact hk
        · cases hk with
          | request hk₀ => exact absurd hk₀ ((h.asked q k f₀ hf₀).2 _)
    rcases peers_flight hf with hf | hf
    · exact (h.answer q k t' f (hold hf) hid hf).mono hacc hearly
    · cases hf with
      | sent hask =>
        obtain ⟨rfl, t₁, commit, hk₁, hreq⟩ := h.asks hask
        obtain ⟨w, hw, hstage, hs⟩ := createSendRequest_awaited hreq
        rw [peers_moved (.act rfl)] at hk
        cases (step_request hk₁ hs).symm.trans hk
        exact ⟨w, commit, hw, hstage⟩
      | response hf₀ ha => exact h.response hr hp (hold hf₀) hid hf₀ ha
      | handled _ => trivial
      | abandoned _ => trivial

end StageInv

/-! ## The requester's turn -/

/-- The order in which the requester goes through its statuses. -/
structure TurnInv (t : Trade) (x : StageRecord × Peers) : Prop where
  /-- The provider's commit is not accepted before the requester's own one is sent. -/
  notYet : ∀ t', (x.2.node .a).storage.findActiveTrade t.id = some t' →
    t'.status = .rSendT1Commit → .waitingPT1Commit ∉ x.1.accepted
  first : ∀ k t' stage, (x.2.node .a).tasks k = some (.send t' stage) → t'.id = t.id →
    (∀ event, stage ≠ .reporting event) → t'.status = .rSendT1Commit →
    ∀ t₁, (x.2.node .a).storage.findActiveTrade t.id = some t₁ → t₁.status = .rSendT1Commit
  /-- The provider's commit is accepted, and waits to be verified. -/
  pending : ∀ t', (x.2.node .a).storage.findActiveTrade t.id = some t' →
    t'.status = .waitingPT1Commit → .waitingPT1Commit ∈ x.1.accepted →
    ∃ k commit t₁, (x.2.node .a).tasks k = some (.verify commit t₁ .processing) ∧ t₁.id = t.id

theorem Moved.of_arriving {p : Party} {id : ℕ} {request : ExchangeRequest}
    (h : s.arriving env l = some (p, id, request)) :
    Moved env s l p.other (.network (.exchangeRequest (env p).nodeId id request)) := by
  unfold Peers.arriving at h
  split at h
  · split at h
    · rename_i hf
      split at h
      · rename_i hpeer
        cases h
        subst hpeer
        exact .deliver (.inl hf)
      · cases h
    · rename_i hf
      split at h
      · rename_i hpeer
        cases h
        subst hpeer
        exact .deliver (.inr hf)
      · cases h
    · cases h
  · cases h

namespace StageInv

open StageRecord

/-- The requester verifies nothing but the provider's commit. -/
theorem verifies (h : StageInv t (g, s)) {commit : Commit} {stage : VerifyStage}
    (hk : (s.node .a).tasks k = some (.verify commit t' stage)) (hid : t'.id = t.id) :
    .waitingPT1Commit ∈ g.accepted ∧
      t'.status = if stage = .processing then .waitingPT1Commit else .processingPT1Commit := by
  obtain ⟨w, hv⟩ := h.task .a k _ hk hid
  obtain rfl : w = .waitingPT1Commit := by
    have hmem := hv.mem
    rcases hv.awaited with rfl | rfl | rfl
    · simp [Party.statuses, TradeStatus.requesterStatuses] at hmem
    · rfl
    · simp [Party.statuses, TradeStatus.requesterStatuses] at hmem
  exact ⟨hv.reached _ (by decide), hv.status⟩

/-- The acceptance of the provider's commit is the requester's own. -/
theorem accepts (h : StageInv t (g, s))
    (hmem : .waitingPT1Commit ∈ (note env t.id g s l).accepted) :
    .waitingPT1Commit ∈ g.accepted ∨ ∃ t₁ commit,
      (s.node .a).storage.findActiveTrade t.id = some t₁ ∧ t₁.status = .waitingPT1Commit ∧
      (s.step env l).node .a = (s.node .a).spawn (.verify commit t₁ .processing) := by
  rcases of_mem_accepted hmem with hmem | ⟨p, id, request, t₁, commit, harr, hr, hf, hs, hp⟩
  · exact .inl hmem
  · have hmem := (h.copy p.other t₁ hf).status
    rw [hs] at hmem
    have ha : p.other = .a := by
      cases hother : p.other with
      | a => rfl
      | b => simp [hother, Party.statuses, TradeStatus.providerStatuses] at hmem
    have hmoved := peers_moved (Moved.of_arriving harr)
    have hid := findActiveTrade_id hf
    rw [← hid] at hr hf ⊢
    rw [← hs] at hr
    rw [step_accept _ _ hr hf hp, ha] at hmoved
    rw [ha] at hf
    exact .inr ⟨t₁, commit, hf, hs, hmoved⟩

/-- What the requester writes. -/
theorem writes (h : StageInv t (g, s)) (hm : Moved env s l .a input)
    (hw : Written (s.node .a) input t') (hid : t'.id = t.id) :
    .waitingPT1Commit ∈ g.accepted ∧
        (t'.status = .processingPT1Commit ∨ t'.status = .rSendT2Commit) ∨
      ∃ k response t₁, input = .task k (.exchange (some response)) ∧
        (s.node .a).tasks k = some (.send t₁ .requested) ∧ t₁.id = t.id ∧
        (t₁.status = .rSendT1Commit ∧ t'.status = .waitingPT1Commit ∨
          t'.status = .waitingForService) := by
  cases hw with
  | startCommit sender rid t₁ => exact (h.arrives_noStart hm).elim
  | process hk =>
    obtain ⟨hacc, hs⟩ := h.verifies hk hid
    rw [if_pos rfl] at hs
    exact .inl ⟨hacc, .inl (by rw [Trade.updateStatus_status, hs]; rfl)⟩
  | finish hk =>
    obtain ⟨hacc, hs⟩ := h.verifies hk hid
    rw [if_neg (by simp)] at hs
    exact .inl ⟨hacc, .inr (by rw [Trade.updateStatus_status, hs]; rfl)⟩
  | @sent k t₁ response hk =>
    obtain ⟨hc, hsend⟩ := h.task .a k _ hk hid
    refine .inr ⟨k, response, t₁, rfl, hk, hid, ?_⟩
    rw [Trade.updateStatus_status]
    rcases Trade.isSendingStatus_iff.mp (hsend (by simp)) with hs | hs | hs
    · exact .inl ⟨hs, by rw [hs]; rfl⟩
    · have hmem := hc.status
      simp [hs, Party.statuses, TradeStatus.requesterStatuses] at hmem
    · exact .inr (by rw [hs]; rfl)
  | opened hk => exact (h.task .a _ _ hk).elim

end StageInv

theorem turnInv_start (t : Trade) (storage : Party → Storage) :
    TurnInv t ({}, Peers.start storage) where
  notYet _ _ _ h := absurd h List.not_mem_nil
  first _ _ _ h := by cases h
  pending _ _ _ h := absurd h List.not_mem_nil

namespace TurnInv

open StageRecord

theorem step_notYet (h : TurnInv t (g, s)) (hS : StageInv t (g, s))
    (ht : ((s.step env l).node .a).storage.findActiveTrade t.id = some t')
    (hs : t'.status = .rSendT1Commit) : .waitingPT1Commit ∉ (note env t.id g s l).accepted := by
  intro hmem
  rcases hS.accepts hmem with hmem | ⟨t₁, commit, hf, hs₁, hnode⟩
  · rcases peers_node env s l .a with hq | ⟨input, hm, hq⟩
    · exact h.notYet t' (hq ▸ ht) hs hmem
    · rw [hq] at ht
      rcases step_stored ht with hold | hw
      · exact h.notYet t' hold hs hmem
      · rcases hS.writes hm hw (findActiveTrade_id ht) with ⟨-, hs' | hs'⟩ |
          ⟨k, response, t₁, -, -, -, ⟨-, hs'⟩ | hs'⟩ <;> cases hs.symm.trans hs'
  · rw [hnode] at ht
    cases hf.symm.trans ht
    cases hs.symm.trans hs₁

theorem step_first (h : TurnInv t (g, s)) (hS : StageInv t (g, s)) {stage : SendStage}
    (hk : ((s.step env l).node .a).tasks k = some (.send t' stage)) (hid : t'.id = t.id)
    (hstage : ∀ event, stage ≠ .reporting event) (hs : t'.status = .rSendT1Commit) {t₁ : Trade}
    (ht : ((s.step env l).node .a).storage.findActiveTrade t.id = some t₁) :
    t₁.status = .rSendT1Commit := by
  rcases peers_node env s l .a with hq | ⟨input, hm, hq⟩
  · rw [hq] at hk ht
    exact h.first k t' stage hk hid hstage hs t₁ ht
  rw [hq] at hk ht
  obtain ⟨t₀, ht₀⟩ := Option.ne_none_iff_exists'.mp (hS.stored .a)
  -- while the first commit is being sent, only its own response moves the trade on
  have hkeep : ∀ stage₀, (s.node .a).tasks k = some (.send t' stage₀) →
      (∀ event, stage₀ ≠ .reporting event) → t₁.status = .rSendT1Commit := by
    intro stage₀ hk₀ hstage₀
    have hs₀ := h.first k t' stage₀ hk₀ hid hstage₀ hs t₀ ht₀
    rcases step_stored ht with hold | hw
    · cases ht₀.symm.trans hold
      exact hs₀
    · rcases hS.writes hm hw (findActiveTrade_id ht) with
        ⟨hmem, -⟩ | ⟨k₂, response, t₂, rfl, hk₂, hid₂, -⟩
      · exact absurd hmem (h.notYet t₀ ht₀ hs₀)
      · have hsame : k = k₂ := (hS.slots .a).task_unique k k₂ t.id ⟨t', _, hk₀, hid⟩
          ⟨t₂, _, hk₂, hid₂⟩
        subst hsame
        cases (step_sent hk₂ response).symm.trans hk
        exact absurd rfl (hstage _)
  rcases step_task hk with hk₀ | hk₀
  · exact hkeep stage hk₀ hstage
  · cases hk₀ with
    | tick _ hf _ =>
      rw [hid] at hf
      rcases step_stored ht with hold | hw
      · cases hf.symm.trans hold
        exact hs
      · cases hw
    | request hold => exact hkeep _ hold (by simp)
    | sent _ => exact absurd rfl (hstage _)
    | unsent _ => exact absurd rfl (hstage _)

theorem step_pending (h : TurnInv t (g, s)) (hS : StageInv t (g, s))
    (ht : ((s.step env l).node .a).storage.findActiveTrade t.id = some t')
    (hs : t'.status = .waitingPT1Commit)
    (hmem : .waitingPT1Commit ∈ (note env t.id g s l).accepted) :
    ∃ k commit t₁, ((s.step env l).node .a).tasks k = some (.verify commit t₁ .processing) ∧
      t₁.id = t.id := by
  rcases hS.accepts hmem with hmem | ⟨t₁, commit, hf, hs₁, hnode⟩
  · rcases peers_node env s l .a with hq | ⟨input, hm, hq⟩
    · rw [hq] at ht ⊢
      exact h.pending t' ht hs hmem
    rw [hq] at ht ⊢
    rcases step_stored ht with hold | hw
    · obtain ⟨k, commit, t₁, hk, hid⟩ := h.pending t' hold hs hmem
      by_cases hin : ∃ answer, input = .task k answer
      · obtain ⟨answer, rfl⟩ := hin
        by_cases ha : answer = .run
        -- the commit is verified now, and the trade leaves the status
        · subst ha
          obtain ⟨-, hs₁⟩ := hS.verifies hk hid
          rw [if_pos rfl] at hs₁
          rw [step_process hk, findActiveTrade_updateActiveTrade, Trade.updateStatus_id, hid,
            if_pos ⟨rfl, by rw [hold]; rfl⟩] at ht
          cases ht
          rw [Trade.updateStatus_status, hs₁] at hs
          cases hs
        · exact ⟨k, commit, t₁, step_verify_waits hk ha, hid⟩
      · exact ⟨k, commit, t₁, step_tasks_of_ne (hS.slots .a).fresh hk
          fun answer heq => hin ⟨answer, heq⟩, hid⟩
    · obtain ⟨t₀, ht₀⟩ := Option.ne_none_iff_exists'.mp (hS.stored .a)
      rcases hS.writes hm hw (findActiveTrade_id ht) with ⟨-, hs' | hs'⟩ |
        ⟨k, response, t₁, -, hk, hid, ⟨hs₁, -⟩ | hs'⟩
      · cases hs.symm.trans hs'
      · cases hs.symm.trans hs'
      · have hs₀ := h.first k t₁ _ hk hid (by simp) hs₁ t₀ ht₀
        exact absurd hmem (h.notYet t₀ ht₀ hs₀)
      · cases hs.symm.trans hs'
  · rw [hnode]
    refine ⟨(s.node .a).nextTask, commit, t₁, ?_, findActiveTrade_id hf⟩
    rw [Node.spawn_tasks, if_pos rfl]

theorem step (h : TurnInv t (g, s)) (hS : StageInv t (g, s)) :
    TurnInv t (note env t.id g s l, s.step env l) where
  notYet _ ht hs := h.step_notYet hS ht hs
  first _ _ _ hk hid hstage hs _ ht := h.step_first hS hk hid hstage hs ht
  pending _ ht hs hmem := h.step_pending hS ht hs hmem

end TurnInv

/-! ## Runs -/

/-- The two nodes agree on how far the trade `iid` has come: a sending status is left only when the
other node has accepted the commit, and when the requester waits for the provider's commit and the
provider for the requester's second one, the requester has the first one to verify. -/
structure Agreement (iid : U32) (x : StageRecord × Peers) : Prop where
  accepted : ∀ q t', (x.2.node q).storage.findActiveTrade iid = some t' →
    ∀ s ∈ t'.status.behind, ∀ w, s.stage = some w → w ∈ x.1.accepted
  pending : ∀ t₁ t₂, (x.2.node .a).storage.findActiveTrade iid = some t₁ →
    t₁.status = .waitingPT1Commit → (x.2.node .b).storage.findActiveTrade iid = some t₂ →
    t₂.status = .waitingRT2Commit →
    ∃ k commit t', (x.2.node .a).tasks k = some (.verify commit t' .processing) ∧ t'.id = iid

theorem StageInv.agreement {x : StageRecord × Peers} (h : StageInv t x) (hT : TurnInv t x) :
    Agreement t.id x where
  accepted q t' ht s hs w hw := (h.copy q t' ht).reached w (TradeStatus.stage_mem_reached hs hw)
  pending t₁ t₂ ht₁ hs₁ ht₂ hs₂ := by
    refine hT.pending t₁ ht₁ hs₁ ((h.copy .b t₂ ht₂).reached _ ?_)
    rw [hs₂]
    decide

/-- The observed run of two nodes. -/
def Peers.staged (env : Party → Env Hash) (iid : U32) (storage : Party → Storage)
    (labels : List Label) : StageRecord × Peers :=
  Run.final (Run.watch (Peers.step env) (StageRecord.note env iid)) ({}, Peers.start storage) labels

/-- In a run in which no `send` is handed an early refusal, the two nodes agree on the stages of the
trade in every state. -/
theorem stage_agreement (t : Trade) (hr : t.requesterId = (env .a).nodeId)
    (hp : t.providerId = (env .b).nodeId) {storage : Party → Storage}
    (ht : ∀ p, (storage p).findActiveTrade t.id = some (t.side p)) {labels : List Label}
    (hpost : ∀ l ∈ labels, l.isPost = false)
    (hok : Run.Always (Run.watch (Peers.step env) (StageRecord.note env t.id))
      (fun x l => x.1.NoEarlyBad x.2 l) ({}, Peers.start storage) labels) :
    Agreement t.id (Peers.staged env t.id storage labels) := by
  have hboth := hok.and ((Run.always_input (fun l : Label => l.isPost = false) _ _).mpr hpost)
  have hstep : ∀ (x : StageRecord × Peers) (l : Label), StageInv t x ∧ TurnInv t x →
      x.1.NoEarlyBad x.2 l ∧ l.isPost = false →
      StageInv t (Run.watch (Peers.step env) (StageRecord.note env t.id) x l) ∧
        TurnInv t (Run.watch (Peers.step env) (StageRecord.note env t.id) x l) :=
    fun _ _ h hok => ⟨h.1.step hr hp hok.1 hok.2, h.2.step h.1⟩
  have hinv : StageInv t (Peers.staged env t.id storage labels) ∧
      TurnInv t (Peers.staged env t.id storage labels) :=
    Run.final_inv hstep ⟨stageInv_start t ht, turnInv_start t storage⟩ hboth
  exact hinv.1.agreement hinv.2

/-- The databases of the two parties of `plainTrade`. -/
def tradingStorages (p : Party) : Storage :=
  Storage.new.addActiveTrade ((plainTrade .rSendT1Commit true).side p)

/-- The requester's first commit is accepted and acknowledged, and the provider's first one too. -/
def timelyLabels : List Label :=
  [.act .a .tick, .act .a (.task 0 .run), .deliver .a 0, .respond .a 0] ++
    (verifyInputs 0).map (.act .b) ++
    [.act .b .tick, .act .b (.task 1 .run), .deliver .b 1, .respond .b 1]

theorem stage_agreement_timelyLabels :
    Agreement 6 (Peers.staged plainEnvs 6 tradingStorages timelyLabels) := by
  have hstored : ∀ p, (tradingStorages p).findActiveTrade 6 =
      some ((plainTrade .rSendT1Commit true).side p) := by
    intro p
    cases p <;> decide +kernel
  exact stage_agreement (plainTrade .rSendT1Commit true) rfl rfl hstored (by decide) (by decide +kernel)

/-- The acknowledgement of the requester's first commit comes after the provider's commit. -/
def lateAckLabels : List Label :=
  [.act .a .tick, .act .a (.task 0 .run), .deliver .a 0] ++ (verifyInputs 0).map (.act .b) ++
    [.act .b .tick, .act .b (.task 1 .run), .deliver .b 1, .respond .b 1, .respond .a 0,
      .act .a (.task 0 .run), .act .a .commitProcEvent, .act .b (.task 1 .run),
      .act .b .commitProcEvent]

/-- The requester refuses the provider's commit, which the provider takes for accepted. -/
theorem not_agreement_lateAckLabels :
    ¬ Agreement 6 (Peers.staged plainEnvs 6 tradingStorages lateAckLabels) := by
  intro h
  have hmem := h.accepted .b ((plainTrade .waitingRT2Commit true).side .b |>.updateStatus
    .waitingRT2Commit) (by decide +kernel) .pSendT1Commit (by decide) .waitingPT1Commit rfl
  have haccepted : (Peers.staged plainEnvs 6 tradingStorages lateAckLabels).1.accepted =
      [.waitingRT1Commit] := by decide +kernel
  rw [haccepted] at hmem
  cases hmem with
  | tail _ h => cases h

end Dse
