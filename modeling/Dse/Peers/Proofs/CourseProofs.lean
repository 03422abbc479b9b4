import Dse.Node.Proofs.ProgressProofs
import Dse.Peers.Proofs.AgreementProofs

/-!
# A trade on its course

Two things can leave a trade of two nodes unfinished for good: a `send` that takes an early refusal
for a success, and a commit that is accepted a second time. In a run without them `OnCourse` says of
each node that the trade is in the hands of at most one task, whose copy is the stored trade, and
that a stage is on record exactly when the node that accepts it has begun it.
-/

namespace Dse

open Storage

variable {Hash : Type} {env : Party → Env Hash}

/-! ## Runs without trouble -/

/-- What the step of an observed run must not be, for the trade `iid`. -/
structure Smooth (env : Party → Env Hash) (iid : U32) (x : StageRecord × Peers) (l : Label) :
    Prop where
  early : x.1.NoEarlyBad x.2 l
  /-- No commit is accepted twice. -/
  once : (x.1.note env iid x.2 l).accepted.Nodup
  noPost : l.isPost = false

instance (iid : U32) (x : StageRecord × Peers) (l : Label) : Decidable (Smooth env iid x l) :=
  decidable_of_iff (x.1.NoEarlyBad x.2 l ∧ (x.1.note env iid x.2 l).accepted.Nodup ∧
      l.isPost = false)
    ⟨fun h => ⟨h.1, h.2.1, h.2.2⟩, fun h => ⟨h.early, h.once, h.noPost⟩⟩

/-- One step of the observed nodes. -/
def Peers.stagedStep (env : Party → Env Hash) (iid : U32) :
    StageRecord × Peers → Label → StageRecord × Peers :=
  Run.watch (Peers.step env) (StageRecord.note env iid)

variable {t t' : Trade} {g : StageRecord} {s : Peers} {l : Label} {q p : Party} {input : Input}
  {k : ℕ}

/-! ## What moves a node -/

theorem Party.ne_other (p : Party) : p ≠ p.other := by
  cases p <;> nofun

theorem Party.eq_other_of_ne (h : q ≠ p) : q = p.other := by
  cases q with
  | a =>
    cases p with
    | a => exact absurd rfl h
    | b => rfl
  | b =>
    cases p with
    | a => rfl
    | b => exact absurd rfl h

/-- A step moves one node. -/
theorem Moved.party_eq {input' : Input} (h : Moved env s l p input) (h' : Moved env s l q input') :
    p = q := by
  cases h <;> cases h' <;> rfl

/-- A step that moves one node leaves the other one as it is. -/
theorem Moved.other_eq (h : Moved env s l q input) :
    (s.step env l).node q.other = s.node q.other := by
  rcases peers_node env s l q.other with hq | ⟨input', hm, -⟩
  · exact hq
  · have hne : q ≠ q.other := by cases q <;> nofun
    exact absurd (h.party_eq hm) hne

/-- A step moves one node at most. -/
theorem exists_other_eq (env : Party → Env Hash) (s : Peers) (l : Label) :
    ∃ q : Party, (s.step env l).node q.other = s.node q.other := by
  rcases peers_node env s l .b with hb | ⟨input, hm, -⟩
  · exact ⟨.a, hb⟩
  · exact ⟨.b, hm.other_eq⟩

/-- A request or a response is put under way where a task asks, and an answer takes it away. -/
theorem peers_flight_stays {f : Flight} (hf : s.flight q k = some f)
    (hno : ∀ peerId request, f ≠ .abandoned peerId request)
    (hl : ∀ response, Moved env s l q (.task k (.exchange response)) → False) :
    ∃ f', (s.step env l).flight q k = some f' ∧
      ∀ peerId request, f' ≠ .abandoned peerId request := by
  have hset : ∀ {s' : Peers} {p : Party} {id : ℕ} {f' : Flight},
      (∀ peerId request, f' ≠ .abandoned peerId request) → s'.flight = s.flight →
      ∃ f'', (s'.setFlight p id (some f')).flight q k = some f'' ∧
        ∀ peerId request, f'' ≠ .abandoned peerId request := by
    intro s' p id f' hf' hs
    rw [Peers.setFlight_flight, hs]
    split
    · exact ⟨f', rfl, hf'⟩
    · exact ⟨f, hf, hno⟩
  have hother : ∀ {s' : Peers} {p : Party} {id : ℕ} {f' : Option Flight},
      ¬ (q = p ∧ k = id) → s'.flight = s.flight →
      ∃ f'', (s'.setFlight p id f').flight q k = some f'' ∧
        ∀ peerId request, f'' ≠ .abandoned peerId request := by
    intro s' p id f' hne hs
    rw [Peers.setFlight_flight, if_neg hne, hs]
    exact ⟨f, hf, hno⟩
  cases l with
  | act p input =>
    unfold Peers.step
    simp only
    split
    · unfold Peers.act
      simp only
      split
      · rename_i hfind
        obtain ⟨peerId, request, rfl, -⟩ := exists_of_findSome_request hfind
        exact hset (by simp) rfl
      · exact ⟨f, hf, hno⟩
    · exact ⟨f, hf, hno⟩
  | deliver p id =>
    unfold Peers.step Peers.deliver
    simp only
    split
    · split
      · cases hfind : List.findSome? Command.response? _ with
        | none => exact hset (by simp) rfl
        | some f' =>
          obtain ⟨peerId, rid, response, rfl, -⟩ := exists_of_findSome_response hfind
          exact hset (by simp) rfl
      · exact ⟨f, hf, hno⟩
    · rename_i hflight
      split
      · refine hother ?_ rfl
        rintro ⟨rfl, rfl⟩
        cases hf.symm.trans hflight
        exact hno _ _ rfl
      · exact ⟨f, hf, hno⟩
    · exact ⟨f, hf, hno⟩
  | respond p id =>
    by_cases hqp : q = p ∧ k = id
    · obtain ⟨rfl, rfl⟩ := hqp
      unfold Peers.step
      simp only
      split
      · rename_i hflight
        exact (hl _ (.respond hflight)).elim
      · exact ⟨f, hf, hno⟩
    · unfold Peers.step
      simp only
      split
      · exact hother hqp rfl
      · exact ⟨f, hf, hno⟩
  | lose p id =>
    by_cases hqp : q = p ∧ k = id
    · obtain ⟨rfl, rfl⟩ := hqp
      exact (hl _ (.lose hf hno)).elim
    · unfold Peers.step
      simp only
      split
      · exact hother hqp rfl
      · exact hother hqp rfl
      · exact hother hqp rfl
      · exact ⟨f, hf, hno⟩
  | giveUp p id =>
    by_cases hqp : q = p ∧ k = id
    · obtain ⟨rfl, rfl⟩ := hqp
      unfold Peers.step
      simp only
      split
      · rename_i hflight
        exact (hl _ (.giveUp hflight)).elim
      · exact ⟨f, hf, hno⟩
    · unfold Peers.step
      simp only
      split
      · exact hother hqp rfl
      · exact ⟨f, hf, hno⟩

/-- A `send` that starts puts its request under way. -/
theorem peers_asks (env : Party → Env Hash) (hk : (s.node q).tasks k = some (.send t .starting))
    (hs : t.isSendingStatus = true) : ∃ commit request, createSendRequest t commit = some request ∧
      (s.step env (.act q (.task k .run))).flight q k =
        some (.request t.counterPartyDetails.1 request) := by
  obtain ⟨commit, hcommit⟩ : ∃ commit, findCommitment t = some commit := ⟨_, rfl⟩
  obtain ⟨request, hrequest⟩ := createSendRequest_of_due hs commit
  refine ⟨commit, request, hrequest, ?_⟩
  have hsend : sendStep t (s.node q).storage .starting .run =
      { storage := (s.node q).storage
        next := some (t, .requested)
        commands := [.sendExchangeRequest t.counterPartyDetails.1 request] } := by
    simp only [sendStep, hcommit, Option.bind_some, hrequest]
  simp only [Peers.step, Input.isLocal, if_true, Peers.act, Node.act, Node.handleTask, hk, hsend,
    List.findSome?_cons, Command.request?, Peers.setFlight_flight, and_self]

/-- The request that is under way or was given up on. -/
def Flight.asks? : Flight → Option ExchangeRequest
  | .request _ r => some r
  | .abandoned _ r => some r
  | _ => none

/-- What arrives is the request that was under way. -/
theorem Peers.flight_of_arriving {id : ℕ} {request : ExchangeRequest}
    (h : s.arriving env l = some (p, id, request)) :
    ∃ f, s.flight p id = some f ∧ f.asks? = some request := by
  unfold Peers.arriving at h
  split at h
  · split at h
    · rename_i hf
      split at h
      · cases h
        exact ⟨_, hf, rfl⟩
      · cases h
    · rename_i hf
      split at h
      · cases h
        exact ⟨_, hf, rfl⟩
      · cases h
    · cases h
  · cases h

/-- What arrives with a step moves the other node. -/
theorem Moved.eq_of_arriving {id : ℕ} {request : ExchangeRequest} (h : Moved env s l q input)
    (ha : s.arriving env l = some (p, id, request)) :
    input = .network (.exchangeRequest (env p).nodeId id request) := by
  cases l with
  | deliver p' id' =>
    cases h with
    | deliver hf =>
      unfold Peers.arriving at ha
      rcases hf with hf | hf
      · simp only [hf, if_true] at ha
        cases ha
        rfl
      · simp only [hf, if_true] at ha
        cases ha
        rfl
  | _ => cases ha

/-- The acceptance that a node takes down is the one on record. -/
theorem Moved.starts {iid : U32} {w : TradeStatus} (h : Moved env s l q input)
    (hs : (s.node q).startsVerify input = some (iid, w)) :
    ∃ p id request t commit, q = p.other ∧ s.arriving env l = some (p, id, request) ∧
      request.awaited = some (w, iid, commit) ∧
      (s.node p.other).storage.findActiveTrade iid = some t ∧ t.status = w ∧
      t.counterPartyDetails.1 = (env p).nodeId := by
  unfold Node.startsVerify at hs
  split at hs
  · rename_i sender rid request
    split at hs
    · rename_i status tradeId commit hr
      obtain ⟨t, ht, heq⟩ := Option.map_eq_some_iff.mp hs
      cases heq
      obtain ⟨hf, hcond⟩ := Option.filter_eq_some_iff.mp ht
      simp only [Bool.and_eq_true, decide_eq_true_eq] at hcond
      obtain ⟨p, rfl, rfl, ha⟩ := h.arriving
      have hid := findActiveTrade_id hf
      subst hid
      rw [hcond.1]
      exact ⟨p, rid, request, t, commit, rfl, ha, hr, hf, hcond.1, hcond.2⟩
    · cases hs
  · cases hs

namespace StageRecord

variable {iid : U32} {id : ℕ} {request : ExchangeRequest} {commit : Commit} {w : TradeStatus}

theorem note_accept (ha : s.arriving env l = some (p, id, request))
    (hr : request.awaited = some (t.status, iid, commit))
    (hf : (s.node p.other).storage.findActiveTrade iid = some t)
    (hp : t.counterPartyDetails.1 = (env p).nodeId) :
    note env iid g s l = { g with accepted := t.status :: g.accepted } := by
  unfold note
  simp only [ha, hr, hf, if_pos, hp, and_self]

/-- A refusal by a node that has the stage behind it is not taken down. -/
theorem note_refuse (ha : s.arriving env l = some (p, id, request))
    (hr : request.awaited = some (w, iid, commit))
    (hf : (s.node p.other).storage.findActiveTrade iid = some t) (hne : t.status ≠ w)
    (hb : t.status ∉ w.before) : note env iid g s l = g := by
  unfold note
  simp only [ha, hr, hf, if_pos, hne, hb, false_and, if_false]

theorem note_of_not_arriving (ha : s.arriving env l = none) : note env iid g s l = g := by
  unfold note
  simp only [ha]

/-- A refusal is taken down when its request arrives. -/
theorem of_mem_early {y : Party × ℕ} (h : y ∈ (note env iid g s l).early) : y ∈ g.early ∨
    ∃ request, s.arriving env l = some (y.1, y.2, request) := by
  unfold note at h
  split at h
  · rename_i p id request ha
    split at h
    · split at h
      · split at h
        · exact .inl h
        · split at h
          · rcases List.mem_cons.mp h with rfl | h
            · exact .inr ⟨request, ha⟩
            · exact .inl h
          · exact .inl h
      · exact .inl h
    · exact .inl h
  · exact .inl h

/-- The acceptances on record that are the node's own. -/
def begun (iid : U32) (q : Party) (g : StageRecord) : List (U32 × TradeStatus) :=
  (g.accepted.filter fun w => decide (w ∈ q.statuses)).map fun w => (iid, w)

theorem mem_begun : (iid, w) ∈ g.begun iid q ↔ w ∈ g.accepted ∧ w ∈ q.statuses := by
  simp [begun]

end StageRecord

theorem Party.eq_of_mem_statuses {w : TradeStatus} (hp : w ∈ p.statuses) (hq : w ∈ q.statuses) :
    p = q := by
  cases p <;> cases q <;> cases w <;> revert hp hq <;> decide

theorem Forwarding.congr {x : U32} {started started' : List (U32 × TradeStatus)} {node : Node}
    (h : Forwarding x started node) (hl : ∀ w, (x, w) ∈ started ↔ (x, w) ∈ started') :
    Forwarding x started' node where
  slots := h.slots
  copy := h.copy
  unique := h.unique
  noted k task t hk hun := (hl _).mp (h.noted k task t hk hun)
  passed w hw := h.passed w ((hl w).mpr hw)

/-! ## The invariant -/

structure OnCourse (t : Trade) (x : StageRecord × Peers) : Prop where
  stage : StageInv t x
  slots : ∀ q, OpenSlots (x.2.node q)
  tended : ∀ q, Tended t.id (x.2.node q)
  once : x.1.accepted.Nodup
  forwarding : ∀ q, Forwarding t.id (x.1.begun t.id q) (x.2.node q)
  /-- A `send` that waits has its request or the response to it under way. -/
  waits : ∀ q k t', (x.2.node q).tasks k = some (.send t' .requested) →
    ∃ f, x.2.flight q k = some f ∧ ∀ peerId request, f ≠ .abandoned peerId request
  /-- A `send` that was refused has asked. -/
  early : ∀ q k, (q, k) ∈ x.1.early →
    k < (x.2.node q).nextTask ∧ ∀ t', (x.2.node q).tasks k ≠ some (.send t' .starting)

theorem onCourse_start (t : Trade) {storage : Party → Storage}
    (ht : ∀ p, (storage p).findActiveTrade t.id = some (t.side p)) :
    OnCourse t ({}, Peers.start storage) where
  stage := stageInv_start t ht
  slots q := openSlots_start (storage q)
  tended q := by
    refine tended_start fun t' h => ?_
    cases (ht q).symm.trans h
    cases q with
    | a => exact TradeStatus.not_isProcessing_rSendT1Commit
    | b => exact TradeStatus.not_isProcessing_waitingRT1Commit
  once := List.nodup_nil
  forwarding q := Forwarding.start (storage q)
  waits _ _ _ h := by cases h
  early _ _ h := absurd h List.not_mem_nil

namespace OnCourse

open StageRecord

/-- No trade is stored anew. -/
theorem storesTrade_eq_none (h : OnCourse t (g, s)) (hm : Moved env s l q input) :
    (s.node q).storesTrade input = none := by
  unfold Node.storesTrade
  split
  · exact (h.stage.arrives_noStart hm).elim
  · split
    · rename_i hk
      exact (h.stage.task q _ _ hk).elim
    · rfl
  · rfl

/-- A commit that would be accepted for a second time is on record. -/
theorem notDuplicated (h : OnCourse t (g, s)) (hm : Moved env s l q input)
    (honce : (note env t.id g s l).accepted.Nodup) : NotDuplicated t.id (s.node q) input := by
  rintro ⟨y, w⟩ hstart rfl k -
  obtain ⟨p, id, request, t₁, commit, rfl, ha, hr, hf, rfl, hp⟩ := hm.starts hstart
  rw [note_accept ha hr hf hp, List.nodup_cons] at honce
  cases hk : (s.node p.other).tasks k with
  | none => rfl
  | some task =>
    rw [Option.any_some]
    by_contra hne
    have hun : task.isUnbegun t.id = true := Bool.eq_true_of_not_eq_false hne
    obtain ⟨t', hcopy, hid⟩ := Task.copy_of_isUnbegun hun
    have hcopies : (s.node p.other).Copies t.id k task t' := ⟨hk, hcopy, hid⟩
    cases hf.symm.trans ((h.forwarding p.other).copy k task t' hcopies).1
    exact honce.1 (mem_begun.mp ((h.forwarding p.other).noted k task t₁ hcopies hun)).1

/-- What the node has begun is what is on record for it. -/
theorem step_begun (h : OnCourse t (g, s)) (hm : Moved env s l q input) (w : TradeStatus) :
    (t.id, w) ∈ Started.note (g.begun t.id q) (s.node q) input ↔
      (t.id, w) ∈ (note env t.id g s l).begun t.id q := by
  unfold Started.note
  rw [List.mem_append, Option.mem_toList, mem_begun, mem_begun]
  constructor
  · rintro (hstart | ⟨hacc, hq⟩)
    · obtain ⟨p, id, request, t₁, commit, rfl, ha, hr, hf, rfl, hp⟩ := hm.starts hstart
      exact ⟨mem_accepted ha hr hf hp, (h.stage.copy p.other t₁ hf).status⟩
    · exact ⟨accepted_mono hacc, hq⟩
  · rintro ⟨hacc, hq⟩
    rcases of_mem_accepted hacc with hacc | ⟨p, id, request, t₁, commit, ha, hr, hf, rfl, hp⟩
    · exact .inr ⟨hacc, hq⟩
    · have hcopy := h.stage.copy p.other t₁ hf
      obtain rfl : p.other = q := Party.eq_of_mem_statuses hcopy.status hq
      have hid := findActiveTrade_id hf
      rw [← hid] at hr hf ⊢
      rw [hm.eq_of_arriving ha]
      exact .inl (Node.startsVerify_eq_some hr hf hp)

/-- Nothing is taken down for a node that does not move. -/
theorem begun_eq (h : OnCourse t (g, s)) (hq : (s.step env l).node q = s.node q)
    (w : TradeStatus) :
    (t.id, w) ∈ g.begun t.id q ↔ (t.id, w) ∈ (note env t.id g s l).begun t.id q := by
  rw [mem_begun, mem_begun]
  refine and_congr_left fun hw => ⟨accepted_mono, fun hacc => ?_⟩
  rcases of_mem_accepted hacc with hacc | ⟨p, id, request, t₁, commit, ha, hr, hf, rfl, hp⟩
  · exact hacc
  · obtain rfl : p.other = q :=
      Party.eq_of_mem_statuses (h.stage.copy p.other t₁ hf).status hw
    -- the node that accepts has spawned a task
    have hmoved := peers_moved (Moved.of_arriving ha)
    have hid := findActiveTrade_id hf
    rw [← hid] at hr hf
    rw [hq, step_accept _ _ hr hf hp] at hmoved
    exact absurd (congrArg Node.nextTask hmoved) (Nat.succ_ne_self _).symm

theorem step_waits (h : OnCourse t (g, s)) {t' : Trade}
    (hk : ((s.step env l).node q).tasks k = some (.send t' .requested)) :
    ∃ f, (s.step env l).flight q k = some f ∧ ∀ peerId request, f ≠ .abandoned peerId request := by
  have hstays : (s.node q).tasks k = some (.send t' .requested) →
      ∃ f, (s.step env l).flight q k = some f ∧
        ∀ peerId request, f ≠ .abandoned peerId request := by
    intro hold
    obtain ⟨f, hf, hno⟩ := h.waits q k t' hold
    refine peers_flight_stays hf hno fun response hm => ?_
    rw [peers_moved hm] at hk
    cases response with
    | some response =>
      have hreport := Option.some.inj ((step_sent hold response).symm.trans hk)
      injection hreport with _ hstage
      cases hstage
    | none =>
      rw [step_unsent hold, Node.resume_tasks, if_pos rfl] at hk
      cases hk
  rcases peers_node env s l q with hq | ⟨input, hm, hq⟩
  · exact hstays (hq ▸ hk)
  · rw [hq] at hk
    rcases step_task hk with hold | hleft
    · exact hstays hold
    · cases hleft with
      | request hold =>
        cases hm with
        | act _ =>
          have hdue := (h.slots q).due k t' hold
          obtain ⟨commit, request, -, hf⟩ := peers_asks env hold hdue
          exact ⟨_, hf, by simp⟩

/-- A task that has begun does not start again. -/
theorem step_not_starting (h : k < (s.node q).nextTask ∧
    ∀ t', (s.node q).tasks k ≠ some (.send t' .starting)) :
    k < ((s.step env l).node q).nextTask ∧
      ∀ t', ((s.step env l).node q).tasks k ≠ some (.send t' .starting) := by
  rcases peers_node env s l q with hq | ⟨input, hm, hq⟩
  · rw [hq]
    exact h
  · rw [hq]
    refine ⟨Nat.lt_of_lt_of_le h.1 nextTask_le_step, fun t' hk => ?_⟩
    rcases step_task hk with hold | hleft
    · exact h.2 t' hold
    · cases hleft with
      | tick hid _ _ => exact absurd hid (Nat.not_le.mpr h.1)

/-- A smooth step keeps the trade on its course. -/
theorem step (h : OnCourse t (g, s)) (hr : t.requesterId = (env .a).nodeId)
    (hp : t.providerId = (env .b).nodeId) (hok : Smooth env t.id (g, s) l) :
    OnCourse t (note env t.id g s l, s.step env l) where
  stage := h.stage.step hr hp hok.early hok.noPost
  slots q := by
    show OpenSlots ((s.step env l).node q)
    rcases peers_node env s l q with hq | ⟨input, hm, hq⟩
    · rw [hq]
      exact h.slots q
    · rw [hq]
      exact (h.slots q).step
  tended q := by
    show Tended t.id ((s.step env l).node q)
    rcases peers_node env s l q with hq | ⟨input, hm, hq⟩
    · rw [hq]
      exact h.tended q
    · rw [hq]
      exact (h.tended q).step
  once := hok.once
  forwarding q := by
    show Forwarding t.id ((note env t.id g s l).begun t.id q) ((s.step env l).node q)
    rcases peers_node env s l q with hq | ⟨input, hm, hq⟩
    · rw [hq]
      exact (h.forwarding q).congr (h.begun_eq hq)
    · rw [hq]
      refine ((h.forwarding q).step ?_ (h.notDuplicated hm hok.once)).congr (h.step_begun hm)
      intro hstores
      rw [h.storesTrade_eq_none hm] at hstores
      cases hstores
  waits q k t' hk := h.step_waits hk
  early q k hmem := by
    refine step_not_starting ?_
    rcases of_mem_early hmem with hold | ⟨request, ha⟩
    · exact h.early q k hold
    · obtain ⟨f, hf, -⟩ := Peers.flight_of_arriving ha
      exact h.stage.asked q k f hf

end OnCourse

end Dse
