import Dse.Lib.Turns
import Dse.Peers.Proofs.CourseProofs

/-!
# The commits of a trade are exchanged in turn

Seen from outside, the two nodes of a trade take turns (`Turns`): the requester's T1 commit is the
message of turn 0, the provider's T1 commit that of turn 1 and the requester's T2 commit that of
turn 2; the service, which the nodes know nothing about, would be that of turn 3. In a smooth run
every step of the nodes is a step of that exchange, or nothing that it tells apart, so the stored
statuses are never more than one turn apart.
-/

namespace Dse

open Storage

variable {Hash : Type} {env : Party → Env Hash} {t t₁ t₂ : Trade} {g : StageRecord} {s : Peers}
  {l : Label} {p q : Party} {input : Input}

/-! ## The exchange that the statuses show -/

/-- What a node with the trade in a status is busy with. -/
def TradeStatus.busy : TradeStatus → Option Turns.Busy
  | .rSendT1Commit => some (.sends 0)
  | .waitingRT1Commit => some (.awaits 0)
  | .processingRT1Commit => some (.examines 0)
  | .pSendT1Commit => some (.sends 1)
  | .waitingPT1Commit => some (.awaits 1)
  | .processingPT1Commit => some (.examines 1)
  | .rSendT2Commit => some (.sends 2)
  | .waitingRT2Commit => some (.awaits 2)
  | .processingRT2Commit => some (.examines 2)
  | .pFulfillService => some (.sends 3)
  | .waitingForService => some (.awaits 3)
  | .waitingInvalidatingSignatures => none

/-- The requester has the first turn. -/
def Party.second : Party → Bool
  | .a => false
  | .b => true

/-- The statuses in which the commits of the turns are accepted. -/
def commitStages : List TradeStatus := [.waitingRT1Commit, .waitingPT1Commit, .waitingRT2Commit]

/-- The nodes show the state `st` of an exchange in turn. -/
structure Plays (t : Trade) (x : StageRecord × Peers) (st : Turns.State) : Prop where
  turns : st.accepted ≤ 3
  /-- The commits are accepted in the order of the turns. -/
  accepted : x.1.accepted = (commitStages.take st.accepted).reverse
  busy : ∀ p, ∃ t', (x.2.node p).storage.findActiveTrade t.id = some t' ∧
    t'.status.busy = some (st.busy p.second)

/-! ## What a step does to the stored trade -/

namespace TradeStatus

/-- A node takes its trade on, when the commits of `accepted` have been accepted. -/
inductive Moves (accepted : List TradeStatus) : TradeStatus → TradeStatus → Prop
  | process {s : TradeStatus} (hs : s.IsAwaited) (hacc : s ∈ accepted) :
      Moves accepted s s.toProcessing
  | finish {s : TradeStatus} (hs : s.IsProcessing) : Moves accepted s s.toSend
  | pass {s w : TradeStatus} (hs : s.stage = some w) (hacc : w ∈ accepted) :
      Moves accepted s s.toWaiting

variable {s s' x w : TradeStatus} {accepted : List TradeStatus}

/-- The trade has come to the sending status `x`. -/
def HasCome (x s : TradeStatus) : Prop := s = x ∨ x ∈ s.behind

/-- A status in which nothing is sent is behind the sending status that the trade has come to. -/
theorem HasCome.mem_behind (h : x.HasCome s) (hx : x.stage = some w) (hs : s.stage = none) :
    x ∈ s.behind := by
  refine h.resolve_left fun heq => ?_
  rw [heq, hx] at hs
  cases hs

/-- Taking the trade on does not take it back before a sending status. -/
theorem Moves.hasCome (h : Moves accepted s s') (hx : x.stage = some w) (hs : x.HasCome s) :
    x.HasCome s' := by
  cases h with
  | process ha _ =>
    have hnone : s.stage = none := by rcases ha with rfl | rfl | rfl <;> rfl
    have hbehind := hs.mem_behind hx hnone
    rcases ha with rfl | rfl | rfl <;> exact .inr hbehind
  | finish hp =>
    have hnone : s.stage = none := by rcases hp with rfl | rfl | rfl <;> rfl
    have hbehind := hs.mem_behind hx hnone
    rcases hp with rfl | rfl | rfl <;> exact .inr hbehind
  | pass hw _ =>
    refine .inr ?_
    rcases hs with rfl | hbehind
    · cases s <;> cases hw <;> decide
    · cases s <;> cases hw <;> revert hbehind <;> simp [behind, toWaiting]
      exact Or.inl

/-- What moving looks like from outside. -/
theorem Moves.step {st : Turns.State} (h : Moves accepted s s') {p : Bool}
    (hs : s.busy = some (st.busy p))
    (hacc : ∀ w turn, w ∈ accepted → w.busy = some (.awaits turn) → turn < st.accepted) :
    ∃ b, s'.busy = some b ∧ Turns.Step st (st.turnTo p b) := by
  cases h with
  | process ha hin =>
    have hturn : ∃ turn, s.busy = some (.awaits turn) ∧
        s.toProcessing.busy = some (.examines turn) := by
      rcases ha with rfl | rfl | rfl <;> exact ⟨_, rfl, rfl⟩
    obtain ⟨turn, hbusy, hnext⟩ := hturn
    exact ⟨_, hnext, .examine (Option.some.inj (hs.symm.trans hbusy)) (hacc s turn hin hbusy)⟩
  | finish hp =>
    have hturn : ∃ turn, s.busy = some (.examines turn) ∧
        s.toSend.busy = some (.sends (turn + 1)) := by
      rcases hp with rfl | rfl | rfl <;> exact ⟨_, rfl, rfl⟩
    obtain ⟨turn, hbusy, hnext⟩ := hturn
    exact ⟨_, hnext, .reply (Option.some.inj (hs.symm.trans hbusy))⟩
  | @pass w hw hin =>
    have hturn : ∃ turn, s.busy = some (.sends turn) ∧ w.busy = some (.awaits turn) ∧
        s.toWaiting.busy = some (.awaits (turn + 1)) := by
      cases s <;> cases hw <;> exact ⟨_, rfl, rfl, rfl⟩
    obtain ⟨turn, hbusy, hw, hnext⟩ := hturn
    exact ⟨_, hnext, .pass (Option.some.inj (hs.symm.trans hbusy)) (hacc w turn hin hw)⟩

/-- Which commits have been accepted when `n` of them have. -/
theorem mem_stages {n turn : ℕ} (hn : n ≤ 3) (hw : w.busy = some (.awaits turn)) :
    w ∈ (commitStages.take n).reverse → turn < n := by
  obtain rfl | rfl | rfl | rfl : n = 0 ∨ n = 1 ∨ n = 2 ∨ n = 3 := by omega
  all_goals cases w <;> cases hw <;> decide

end TradeStatus

namespace OnCourse

open StageRecord

/-- A step leaves the trade as it is stored, or takes it on. -/
theorem moves (h : OnCourse t (g, s)) (hok : g.NoEarlyBad s l) (hm : Moved env s l q input)
    (h₁ : (s.node q).storage.findActiveTrade t.id = some t₁)
    (h₂ : ((s.node q).step (env q) input).storage.findActiveTrade t.id = some t₂) :
    t₂ = t₁ ∨ TradeStatus.Moves g.accepted t₁.status t₂.status := by
  rcases step_stored h₂ with hold | hw
  · exact .inl (Option.some.inj (hold.symm.trans h₁))
  · refine .inr ?_
    have hcopy : ∀ {k : ℕ} {task : Task} {t' : Trade}, (s.node q).tasks k = some task →
        task.copy? = some t' → t'.id = t.id → t₁ = t' ∧ task.Fits := by
      intro k task t' hk hc hid
      obtain ⟨hstored, hfits⟩ := (h.forwarding q).copy k task t' ⟨hk, hc, hid⟩
      exact ⟨Option.some.inj (h₁.symm.trans hstored), hfits⟩
    have hid : t₂.id = t.id := findActiveTrade_id h₂
    have hwritten := h.stage.written hok hm hw hid
    cases hw with
    | startCommit sender rid t' => exact (h.stage.arrives_noStart hm).elim
    | process hk =>
      obtain ⟨rfl, hfits⟩ := hcopy hk rfl hid
      have hawaited : t₁.status.IsAwaited := hfits
      refine .process hawaited (hwritten.reached _ ?_)
      show t₁.status ∈ t₁.status.toProcessing.reached
      rcases hawaited with hs | hs | hs <;> rw [hs] <;> decide
    | finish hk =>
      obtain ⟨rfl, hfits⟩ := hcopy hk rfl hid
      have hprocessing : t₁.status.IsProcessing := hfits
      exact .finish hprocessing
    | sent hk =>
      obtain ⟨rfl, hfits⟩ := hcopy hk rfl hid
      have hsend : t₁.isSendingStatus = true := hfits
      obtain ⟨w, hstage, hin⟩ : ∃ w, t₁.status.stage = some w ∧
          w ∈ t₁.status.toWaiting.reached := by
        rcases Trade.isSendingStatus_iff.mp hsend with hs | hs | hs <;> rw [hs] <;>
          exact ⟨_, rfl, by decide⟩
      exact .pass hstage (hwritten.reached w hin)
    | opened hk => exact (h.stage.task q _ _ hk).elim

end OnCourse

/-- The observer takes down an acceptance, or none. -/
theorem StageRecord.note_cases (env : Party → Env Hash) (iid : U32) (g : StageRecord) (s : Peers)
    (l : Label) : (note env iid g s l).accepted = g.accepted ∨
      ∃ p id request t₁ commit, s.arriving env l = some (p, id, request) ∧
        request.awaited = some (t₁.status, iid, commit) ∧
        (s.node p.other).storage.findActiveTrade iid = some t₁ ∧
        t₁.counterPartyDetails.1 = (env p).nodeId ∧
        (note env iid g s l).accepted = t₁.status :: g.accepted := by
  unfold note
  split
  · rename_i p id request ha
    split
    · rename_i w tradeId commit t₁ hr hf
      split
      · rename_i hid
        subst hid
        split
        · rename_i hacc
          obtain ⟨rfl, hparty⟩ := hacc
          exact .inr ⟨p, id, request, t₁, commit, ha, hr, hf, hparty, rfl⟩
        · split
          · exact .inl rfl
          · exact .inl rfl
      · exact .inl rfl
    · exact .inl rfl
  · exact .inl rfl

/-! ## The refinement -/

/-- The invariant: what is asked has been come to, and the nodes show the state of an exchange. -/
structure Alternates (t : Trade) (x : StageRecord × Peers) (st : Turns.State) : Prop where
  course : OnCourse t x
  plays : Plays t x st
  asked : ∀ q k f r w commit, x.2.flight q k = some f → f.asks? = some r →
    r.awaited = some (w, t.id, commit) →
      ∃ t' x', (x.2.node q).storage.findActiveTrade t.id = some t' ∧
        TradeStatus.stage x' = some w ∧ x'.HasCome t'.status

namespace TradeStatus

variable {n : ℕ} {w x : TradeStatus}

/-- The commit that is accepted for the first time, by a node that has come so far, is that of the
turn that is due. -/
theorem due_of_not_mem (hn : n ≤ 3) (hw : w.IsAwaited)
    (hnot : w ∉ (commitStages.take n).reverse)
    (hreached : ∀ w' ∈ w.reached, w' ∈ (commitStages.take n).reverse) :
    n + 1 ≤ 3 ∧ w.busy = some (.awaits n) ∧
      w :: (commitStages.take n).reverse = (commitStages.take (n + 1)).reverse := by
  obtain rfl | rfl | rfl | rfl : n = 0 ∨ n = 1 ∨ n = 2 ∨ n = 3 := by omega
  all_goals rcases hw with rfl | rfl | rfl <;> revert hnot hreached <;> decide

/-- A commit is sent in the turn in which it is awaited. -/
theorem busy_of_stage {turn : ℕ} (hx : x.stage = some w) (hw : w.busy = some (.awaits turn)) :
    x.busy = some (.sends turn) := by
  cases x <;> cases hx <;> cases hw <;> rfl

end TradeStatus

theorem ExchangeRequest.isAwaited_of_awaited {request : ExchangeRequest} {w : TradeStatus}
    {iid : U32} {commit : Commit} (h : request.awaited = some (w, iid, commit)) :
    w.IsAwaited := by
  cases request with
  | t1RequesterCommit tradeId commit =>
    cases h
    exact .inl rfl
  | t1ProviderCommit tradeId commit =>
    cases h
    exact .inr (.inl rfl)
  | t2RequesterCommit tradeId commit =>
    cases h
    exact .inr (.inr rfl)
  | _ => cases h

namespace OnCourse

/-- What a step of the two nodes does to the trade as a party stores it. -/
theorem party_moves (h : OnCourse t (g, s)) (hok : g.NoEarlyBad s l)
    (h₁ : (s.node q).storage.findActiveTrade t.id = some t₁) :
    ∃ t₂, ((s.step env l).node q).storage.findActiveTrade t.id = some t₂ ∧
      (t₂ = t₁ ∨ TradeStatus.Moves g.accepted t₁.status t₂.status) := by
  rcases peers_node env s l q with hq | ⟨input, hm, hq⟩
  · exact ⟨t₁, by rw [hq]; exact h₁, .inl rfl⟩
  · rw [hq]
    have hstored : (s.node q).storage.findActiveTrade t.id ≠ none := by
      rw [h₁]
      simp
    have hkept : ((s.node q).step (env q) input).storage.findActiveTrade t.id ≠ none :=
      step_stored_ne_none hstored
    obtain ⟨t₂, h₂⟩ := Option.ne_none_iff_exists'.mp hkept
    exact ⟨t₂, h₂, h.moves hok hm h₁ h₂⟩

end OnCourse

namespace Alternates

open StageRecord

variable {st : Turns.State}

/-- A request is asked in a status that the node does not go back behind. -/
theorem step_asked (h : Alternates t (g, s) st) (hok : g.NoEarlyBad s l) {f : Flight}
    {r : ExchangeRequest} {w : TradeStatus} {commit : Commit}
    (hf : (s.step env l).flight q k = some f) (hr : f.asks? = some r)
    (hw : r.awaited = some (w, t.id, commit)) :
    ∃ t' x, ((s.step env l).node q).storage.findActiveTrade t.id = some t' ∧
      TradeStatus.stage x = some w ∧ x.HasCome t'.status := by
  have hold : ∀ f₀, s.flight q k = some f₀ → f₀.asks? = some r →
      ∃ t' x, ((s.step env l).node q).storage.findActiveTrade t.id = some t' ∧
        TradeStatus.stage x = some w ∧ x.HasCome t'.status := by
    intro f₀ hf₀ hr₀
    obtain ⟨t₁, x, h₁, hx, hcome⟩ := h.asked q k f₀ r w commit hf₀ hr₀ hw
    obtain ⟨t₂, h₂, heq | hmoves⟩ := h.course.party_moves hok h₁
    · exact ⟨t₂, x, h₂, hx, heq ▸ hcome⟩
    · exact ⟨t₂, x, h₂, hx, hmoves.hasCome hx hcome⟩
  rcases peers_flight hf with hf | hf
  · exact hold f hf hr
  · cases hf with
    | sent hask =>
      cases hr
      obtain ⟨rfl, t', commit', hk, hreq⟩ := h.course.stage.asks hask
      obtain ⟨w', hw', hstage, hs⟩ := createSendRequest_awaited hreq
      obtain ⟨rfl, hid, rfl⟩ : w' = w ∧ t'.id = t.id ∧ commit' = commit := by
        simpa using hw'.symm.trans hw
      obtain ⟨hstored, -⟩ := (h.course.forwarding q).copy k _ t' ⟨hk, rfl, hid⟩
      refine ⟨t', t'.status, ?_, hstage, .inl rfl⟩
      rw [peers_moved (.act rfl), step_request_storage hk hs]
      exact hstored
    | response _ _ => cases hr
    | handled _ => cases hr
    | abandoned hf₀ => exact hold _ hf₀ hr

/-- An acceptance is that of the commit that is due. -/
theorem accept (h : Alternates t (g, s) st) (hok : Smooth env t.id (g, s) l) {id : ℕ}
    {request : ExchangeRequest} {commit : Commit}
    (ha : s.arriving env l = some (p, id, request))
    (hr : request.awaited = some (t₁.status, t.id, commit))
    (hf : (s.node p.other).storage.findActiveTrade t.id = some t₁)
    (hparty : t₁.counterPartyDetails.1 = (env p).nodeId)
    (hacc : (note env t.id g s l).accepted = t₁.status :: g.accepted) :
    Turns.Step st { st with accepted := st.accepted + 1 } ∧
      Plays t (note env t.id g s l, s.step env l) { st with accepted := st.accepted + 1 } := by
  have haccepted := h.plays.accepted
  have hcopy := h.course.stage.copy p.other t₁ hf
  have hnot : t₁.status ∉ g.accepted := by
    have honce := hok.once
    rw [hacc] at honce
    exact (List.nodup_cons.mp honce).1
  obtain ⟨hle, hawaits, hnext⟩ := TradeStatus.due_of_not_mem h.plays.turns
    (ExchangeRequest.isAwaited_of_awaited hr) (haccepted ▸ hnot) (haccepted ▸ hcopy.reached)
  -- the node that sends the commit has not got beyond that
  obtain ⟨f, hflight, hasks⟩ := Peers.flight_of_arriving ha
  obtain ⟨t₂, x, h₂, hx, hcome⟩ := h.asked p id f request _ commit hflight hasks hr
  have hsends : t₂.status.busy = some (.sends st.accepted) := by
    rcases hcome with heq | hbehind
    · rw [heq]
      exact TradeStatus.busy_of_stage hx hawaits
    · have hreached := TradeStatus.stage_mem_reached hbehind hx
      exact absurd ((h.course.stage.copy p t₂ h₂).reached _ hreached) hnot
  have hplays : ∀ q t', (s.node q).storage.findActiveTrade t.id = some t' →
      t'.status.busy = some (st.busy q.second) := by
    intro q t' ht'
    obtain ⟨t₃, h₃, hbusy⟩ := h.plays.busy q
    cases ht'.symm.trans h₃
    exact hbusy
  have hother : p.second = !p.other.second := by
    cases p <;> rfl
  -- what is stored stays
  have hstored : ∀ q, ((s.step env l).node q).storage = (s.node q).storage := by
    have hm := Moved.of_arriving ha
    have hp : ((s.step env l).node p.other).storage = (s.node p.other).storage := by
      have hid := findActiveTrade_id hf
      rw [← hid] at hr hf
      rw [peers_moved hm, step_accept _ _ hr hf hparty, Node.spawn_storage]
    have hq : (s.step env l).node p = s.node p := by
      have heq := hm.other_eq
      rwa [Party.other_other] at heq
    intro q
    by_cases hqp : q = p
    · rw [hqp, hq]
    · rw [Party.eq_other_of_ne hqp, hp]
  refine ⟨.accept (p := p.other.second) ?_ ?_, hle, ?_, fun q => ?_⟩
  · exact Option.some.inj ((hplays _ _ hf).symm.trans hawaits)
  · rw [← hother]
    exact Option.some.inj ((hplays _ _ h₂).symm.trans hsends)
  · show (note env t.id g s l).accepted = _
    rw [hacc, haccepted]
    exact hnext
  · obtain ⟨t₃, h₃, hbusy⟩ := h.plays.busy q
    refine ⟨t₃, ?_, hbusy⟩
    show ((s.step env l).node q).storage.findActiveTrade t.id = some t₃
    rw [hstored]
    exact h₃

/-- A step without an acceptance is one of a node that takes the trade on, or shows nothing. -/
theorem quiet (h : Alternates t (g, s) st) (hok : g.NoEarlyBad s l)
    (hacc : (note env t.id g s l).accepted = g.accepted) :
    ∃ st', Relation.ReflTransGen Turns.Step st st' ∧
      Plays t (note env t.id g s l, s.step env l) st' := by
  obtain ⟨q, hother⟩ := exists_other_eq env s l
  obtain ⟨t₁, h₁, hbusy₁⟩ := h.plays.busy q
  obtain ⟨t₃, h₃, hbusy₃⟩ := h.plays.busy q.other
  obtain ⟨t₂, h₂, hmoves⟩ := h.course.party_moves hok h₁
  have hplays : ∀ st' : Turns.State, st'.accepted = st.accepted →
      t₂.status.busy = some (st'.busy q.second) → st'.busy q.other.second = st.busy q.other.second →
      Plays t (note env t.id g s l, s.step env l) st' := by
    intro st' haccepted hmover hrest
    refine ⟨haccepted ▸ h.plays.turns, ?_, fun p => ?_⟩
    · show (note env t.id g s l).accepted = _
      rw [hacc, haccepted]
      exact h.plays.accepted
    · by_cases hp : p = q
      · subst hp
        exact ⟨t₂, h₂, hmover⟩
      · obtain rfl := Party.eq_other_of_ne hp
        refine ⟨t₃, ?_, ?_⟩
        · show ((s.step env l).node q.other).storage.findActiveTrade t.id = some t₃
          rw [hother]
          exact h₃
        · rw [hrest]
          exact hbusy₃
  rcases hmoves with heq | hmoves
  · exact ⟨st, .refl, hplays st rfl (heq ▸ hbusy₁) rfl⟩
  · obtain ⟨b, hb, hstep⟩ := hmoves.step hbusy₁ fun w turn hw hturn =>
      TradeStatus.mem_stages h.plays.turns hturn (h.plays.accepted ▸ hw)
    refine ⟨_, .single hstep, hplays _ (Turns.State.turnTo_accepted _ _ _) ?_ ?_⟩
    · rw [Turns.State.turnTo_busy, if_pos rfl]
      exact hb
    · have hne : q.other.second ≠ q.second := by cases q <;> decide
      rw [Turns.State.turnTo_busy, if_neg hne]

/-- Every smooth step of the nodes is matched by steps of the exchange. -/
theorem step (h : Alternates t (g, s) st) (hr : t.requesterId = (env .a).nodeId)
    (hp : t.providerId = (env .b).nodeId) (hok : Smooth env t.id (g, s) l) :
    ∃ st', Relation.ReflTransGen Turns.Step st st' ∧
      Alternates t (note env t.id g s l, s.step env l) st' := by
  have hcourse := h.course.step hr hp hok
  have hasked : ∀ q k f r w commit, (s.step env l).flight q k = some f → f.asks? = some r →
      r.awaited = some (w, t.id, commit) → ∃ t' x,
        ((s.step env l).node q).storage.findActiveTrade t.id = some t' ∧
          TradeStatus.stage x = some w ∧ x.HasCome t'.status :=
    fun _ _ _ _ _ _ hf hr₁ hw => h.step_asked hok.early hf hr₁ hw
  rcases note_cases env t.id g s l with hacc | ⟨p, id, request, t₁, commit, ha, hr₁, hf, hq, hacc⟩
  · obtain ⟨st', hsteps, hplays⟩ := h.quiet hok.early hacc
    exact ⟨st', hsteps, hcourse, hplays, hasked⟩
  · obtain ⟨hstep, hplays⟩ := h.accept hok ha hr₁ hf hq hacc
    exact ⟨_, .single hstep, hcourse, hplays, hasked⟩

end Alternates

end Dse
