import Dse.Node.Proofs.ProvenanceProofs
import Dse.Peers.Proofs.CompletionProofs

/-!
# Deadlock

What the troubles leave behind is a trade that nobody works on: no task has a copy of it, no request
for it is under way, and neither node stores it in a send status. Nothing but a new `StartCommit` of
the provider's client can touch such a trade, so when both nodes are started again, a trade goes on
exactly if one of them is to send a commit.
-/

namespace Dse

open Storage

variable {Hash : Type} {env : Party → Env Hash} {iid : U32} {kept : Party → Trade} {s : Peers}
  {l : Label} {q : Party} {input : Input} {k : ℕ}

/-! ## Whom a task and a request are about -/

/-- The trade that the handler of a post is about to open. -/
def PostStage.concerns? : PostStage → Option U32
  | .startCommit quote => some quote.id
  | .startCommitDetails quote _ => some quote.id
  | .startCommitRequested t => some t.id
  | _ => none

/-- The trade that a task may write. -/
def Task.concerns? : Task → Option U32
  | .verify _ t _ => some t.id
  | .send _ (.reporting _) => none
  | .send t _ => some t.id
  | .post stage => stage.concerns?

def ExchangeRequest.concerns? : ExchangeRequest → Option U32
  | .startCommit t => some t.id
  | .t1RequesterCommit tradeId _ => some tradeId
  | .t1ProviderCommit tradeId _ => some tradeId
  | .t2RequesterCommit tradeId _ => some tradeId
  | _ => none

/-- The trade of a request that is still to arrive. -/
def Flight.concerns? : Flight → Option U32
  | .request _ r => r.concerns?
  | .abandoned _ r => r.concerns?
  | _ => none

theorem ExchangeRequest.concerns?_of_awaited {request : ExchangeRequest} {w : TradeStatus}
    {tradeId : U32} {commit : Commit} (h : request.awaited = some (w, tradeId, commit)) :
    request.concerns? = some tradeId := by
  cases request <;> cases h <;> rfl

/-- No client posts the start of the trade. -/
def NotOpened (iid : U32) (l : Label) : Prop :=
  ∀ p quote, l = .act p (.post (.startCommit quote)) → quote.id ≠ iid

/-- Nobody works on the trade, and neither node is to send a commit. -/
structure Deadlocked (iid : U32) (kept : Party → Trade) (s : Peers) : Prop where
  stored : ∀ q, (s.node q).storage.findActiveTrade iid = some (kept q)
  rests : ∀ q, (kept q).isSendingStatus = false
  task : ∀ q k task, (s.node q).tasks k = some task → task.concerns? ≠ some iid
  flight : ∀ q k f, s.flight q k = some f → f.concerns? ≠ some iid

namespace Deadlocked

theorem start {storage : Party → Storage}
    (h : ∀ q, (storage q).findActiveTrade iid = some (kept q))
    (hrests : ∀ q, (kept q).isSendingStatus = false) :
    Deadlocked iid kept (Peers.start storage) where
  stored := h
  rests := hrests
  task _ _ _ hk := nomatch hk
  flight _ _ _ hf := nomatch hf

/-- What arrives is about another trade. -/
theorem arrives (h : Deadlocked iid kept s) {sender : PeerId} {rid : ℕ}
    {request : ExchangeRequest}
    (hm : Moved env s l q (.network (.exchangeRequest sender rid request))) :
    request.concerns? ≠ some iid := by
  cases hm with
  | act hlocal => cases hlocal
  | deliver hf =>
    rcases hf with hf | hf
    · exact h.flight _ _ _ hf
    · exact h.flight _ _ _ hf

/-- A step writes other trades only. -/
theorem written (h : Deadlocked iid kept s) (hm : Moved env s l q input) {t : Trade}
    (hw : Written (s.node q) input t) : t.id ≠ iid := by
  rintro rfl
  cases hw with
  | startCommit sender rid t => exact h.arrives hm rfl
  | process hk => exact h.task q _ _ hk rfl
  | finish hk => exact h.task q _ _ hk rfl
  | sent hk => exact h.task q _ _ hk rfl
  | opened hk => exact h.task q _ _ hk rfl

/-- The handler of a post begins with the post. -/
theorem opening (h : Deadlocked iid kept s) (hno : NotOpened iid l) (hm : Moved env s l q input)
    {quote : TradeQuote}
    (hk : ((s.node q).step (env q) input).tasks k = some (.post (.startCommit quote))) :
    quote.id ≠ iid := by
  have hfirst : (ReceivedMessage.startCommit quote).firstStage? = some (.startCommit quote) := rfl
  rcases step_first hfirst hk with hold | ⟨message, hmessage, rfl⟩
  · exact fun hid => h.task q k _ hold (congrArg some hid)
  · cases message <;> cases hmessage
    cases hm with
    | act _ => exact hno q quote rfl

/-- A step leaves tasks for other trades only. -/
theorem left (h : Deadlocked iid kept s) (hno : NotOpened iid l) (hm : Moved env s l q input)
    {task : Task} (hk : ((s.node q).step (env q) input).tasks k = some task)
    (hl : Left (env q) (s.node q) input k task) : task.concerns? ≠ some iid := by
  have hpost : ∀ {stage : PostStage}, task = .post stage →
      (∀ t, stage ≠ .startCommitRequested t) → (∀ quote i, stage ≠ .startCommitDetails quote i) →
      task.concerns? ≠ some iid := by
    rintro stage rfl hs hi
    cases stage with
    | startCommit quote => exact fun hid => h.opening hno hm hk (Option.some.inj hid)
    | startCommitDetails quote i => exact absurd rfl (hi quote i)
    | startCommitRequested t => exact absurd rfl (hs t)
    | _ => nofun
  cases hl with
  | accept hr _ _ =>
    have harrives := h.arrives hm
    rw [ExchangeRequest.concerns?_of_awaited hr] at harrives
    exact harrives
  | tick _ hf hs =>
    intro hid
    rw [Option.some.inj hid, h.stored q] at hf
    rw [← Option.some.inj hf, h.rests q] at hs
    cases hs
  | post hs hi => exact hpost rfl hs hi
  | process hold => exact (h.task q _ _ hold :)
  | examine hold _ _ _ _ => exact (h.task q _ _ hold :)
  | request hold => exact (h.task q _ _ hold :)
  | sent _ => nofun
  | unsent _ => nofun
  | findsIWant hold _ => exact (h.task q _ _ hold :)
  | opens hold => exact (h.task q _ _ hold :)
  | serve _ hs hi => exact hpost rfl hs hi

/-- Only requests for other trades are put under way. -/
theorem flies (h : Deadlocked iid kept s) {f : Flight} (hf : Flies env s l q k f) :
    f.concerns? ≠ some iid := by
  cases hf with
  | sent hask =>
    cases hask with
    | commit hk hr =>
      obtain ⟨w, hw, -, -⟩ := createSendRequest_awaited hr
      rw [Flight.concerns?, ExchangeRequest.concerns?_of_awaited hw]
      exact h.task q _ _ hk
    | iWant _ => nofun
    | startCommit hk => exact (h.task q _ _ hk :)
  | response _ _ => nofun
  | handled _ => nofun
  | abandoned hf => exact (h.flight q k _ hf :)

theorem step (h : Deadlocked iid kept s) (hno : NotOpened iid l) :
    Deadlocked iid kept (s.step env l) where
  stored q := by
    rcases peers_node env s l q with hq | ⟨input, hm, hq⟩
    · rw [hq]
      exact h.stored q
    · have hsome : ((s.node q).step (env q) input).storage.findActiveTrade iid ≠ none :=
        step_stored_ne_none (by rw [h.stored q]; exact Option.some_ne_none _)
      obtain ⟨t, ht⟩ := Option.ne_none_iff_exists'.mp hsome
      rw [hq]
      rcases step_stored ht with hold | hw
      · rw [ht, ← hold, h.stored q]
      · exact absurd (findActiveTrade_id ht) (h.written hm hw)
  rests := h.rests
  task q k task hk := by
    rcases peers_node env s l q with hq | ⟨input, hm, hq⟩
    · exact h.task q k task (hq ▸ hk)
    · rw [hq] at hk
      rcases step_task hk with hold | hleft
      · exact h.task q k task hold
      · exact h.left hno hm hk hleft
  flight q k f hf := by
    rcases peers_flight hf with hold | hnew
    · exact h.flight q k f hold
    · exact h.flies hnew

end Deadlocked

/-! ## After a restart of both nodes -/

/-- A node that has just been started sends its commit, and any answer takes the trade on. -/
theorem restarted_moves (env : Party → Env Hash) {storage : Party → Storage}
    (h : ∀ q, (storage q).findActiveTrade iid = some (kept q))
    (hparty : (kept q).counterPartyDetails.1 = (env q.other).nodeId)
    (hs : (kept q).isSendingStatus = true) :
    ∃ labels, (∀ l ∈ labels, NotOpened iid l) ∧
      (((Peers.start storage).run env labels).node q).storage.findActiveTrade iid =
        some ((kept q).updateStatus (kept q).status.toWaiting) := by
  have hid : (kept q).id = iid := findActiveTrade_id (h q)
  have hnode₀ : ((Peers.start storage).step env (.act q .tick)).node q =
      (Node.start (storage q)).step (env q) .tick := peers_moved (.act rfl)
  obtain ⟨k, hk₀⟩ : ∃ k, ((Node.start (storage q)).step (env q) .tick).tasks k =
      some (.send (kept q) .starting) :=
    (openSlots_start (storage q)).tick_starts (by rw [hid]; exact h q) hs (Finset.notMem_empty _)
  have hstored₀ : (((Peers.start storage).step env (.act q .tick)).node q).storage = storage q := by
    rw [hnode₀]
    exact Node.handleTick_storage _
  refine ⟨[.act q .tick, .act q (.task k .run), .deliver q k, .respond q k], ?_, ?_⟩
  · intro l hl p quote heq
    subst heq
    simp at hl
  · show (Node.storage (Peers.node (Peers.step env (Peers.step env (Peers.step env (Peers.step env
      (Peers.start storage) (.act q .tick)) (.act q (.task k .run))) (.deliver q k)) (.respond q k))
      q)).findActiveTrade iid = _
    rw [← hnode₀] at hk₀
    generalize (Peers.start storage).step env (.act q .tick) = s₀ at *
    obtain ⟨commit, request, hrequest, hf⟩ := peers_asks env hk₀ hs
    obtain ⟨w, hw, -, -⟩ := createSendRequest_awaited hrequest
    have hnode₁ : (s₀.step env (.act q (.task k .run))).node q =
        (s₀.node q).step (env q) (.task k .run) := peers_moved (.act rfl)
    have hk₁ : ((s₀.step env (.act q (.task k .run))).node q).tasks k =
        some (.send (kept q) .requested) := by
      rw [hnode₁]
      exact step_request hk₀ hs
    have hstored₁ : ((s₀.step env (.act q (.task k .run))).node q).storage = storage q := by
      rw [hnode₁, step_request_storage hk₀ hs, hstored₀]
    rw [hparty] at hf
    generalize s₀.step env (.act q (.task k .run)) = s₁ at *
    obtain ⟨⟨response, hresponse⟩, hnode₂, -⟩ := peers_delivered env hf hw
    rw [(peers_responded env hresponse (hnode₂ ▸ hk₁)).1, hnode₂, hstored₁]
    exact findActiveTrade_update_stored (h q) _

/-- Two nodes that are started on the databases never change the trade again, whatever arrives, is
lost or delayed, unless it is opened anew. -/
def BothFrozen (env : Party → Env Hash) (iid : U32) (storage : Party → Storage)
    (kept : Party → Trade) : Prop :=
  ∀ labels, (∀ l ∈ labels, NotOpened iid l) → ∀ q,
    (((Peers.start storage).run env labels).node q).storage.findActiveTrade iid = some (kept q)

/-- When both nodes of a trade are started again, each with a copy that names the other node as its
counter party, the trade is frozen exactly if neither of them stores it in a send status. -/
theorem both_restarted_frozen_iff (env : Party → Env Hash) {storage : Party → Storage}
    (h : ∀ q, (storage q).findActiveTrade iid = some (kept q))
    (hparty : ∀ q, (kept q).counterPartyDetails.1 = (env q.other).nodeId) :
    BothFrozen env iid storage kept ↔ ∀ q, (kept q).isSendingStatus = false := by
  constructor
  · intro hfrozen q
    by_contra hs
    have hs : (kept q).isSendingStatus = true := by simpa using hs
    obtain ⟨labels, hno, hmoved⟩ := restarted_moves env h (hparty q) hs
    rw [hfrozen labels hno q] at hmoved
    have hstatus := congrArg Trade.status (Option.some.inj hmoved)
    exact (Trade.later_of_isSendingStatus hs).2 hstatus
  · intro hrests labels hno q
    have hok := (@Run.always_input _ _ (Peers.step env) (NotOpened iid) (Peers.start storage)
      labels).mpr hno
    have hdead : Deadlocked iid kept ((Peers.start storage).run env labels) :=
      Run.final_inv (fun s l hdead hno => hdead.step hno) (Deadlocked.start h hrests) hok
    exact hdead.stored q

/-- What an early refusal leaves: the requester waits for the provider's commit, and the provider
for the requester's second one. -/
def refusedTrades (q : Party) : Trade :=
  ((plainTrade .rSendT1Commit true).side q).updateStatus
    (match q with
      | .a => .waitingPT1Commit
      | .b => .waitingRT2Commit)

def refusedStorages (q : Party) : Storage := Storage.new.addActiveTrade (refusedTrades q)

theorem both_restarted_frozen_iff_refusedStorages :
    BothFrozen plainEnvs 6 refusedStorages refusedTrades := by
  have hstored : ∀ q, (refusedStorages q).findActiveTrade 6 = some (refusedTrades q) := by
    intro q
    cases q <;> decide +kernel
  have hparty : ∀ q, (refusedTrades q).counterPartyDetails.1 = (plainEnvs q.other).nodeId := by
    intro q
    cases q <;> decide
  exact (both_restarted_frozen_iff plainEnvs hstored hparty).mpr fun q => by cases q <;> decide

end Dse
