import Dse.Peers.Proofs.ExchangeProofs

/-!
# Roles

A provider opens a trade with `is_requester = false` and sends it over as it is, and the requester
stores it with that flag. So the provider's copy says who is who, and the requester's copy names the
requester itself as the counter party.
-/

namespace Dse

open Storage

variable {Hash : Type} {env : Party → Env Hash}

namespace TradeStatus

def requesterStatuses : List TradeStatus :=
  [.rSendT1Commit, .waitingPT1Commit, .processingPT1Commit, .rSendT2Commit, .waitingForService]

def providerStatuses : List TradeStatus :=
  [.waitingRT1Commit, .processingRT1Commit, .pSendT1Commit, .waitingRT2Commit, .processingRT2Commit,
    .pFulfillService]

end TradeStatus

/-- A trade stored by the node `own`, with `other` as the other node: the flag tells the requester,
the counter party is the other node, and the status is one of the role's. -/
structure RoleConsistent (own other : PeerId) (t : Trade) : Prop where
  role : t.isRequester = true ↔ t.requesterId = own
  counterParty : t.counterPartyDetails.1 = other
  status : t.status ∈
    if t.requesterId = own then TradeStatus.requesterStatuses else TradeStatus.providerStatuses

/-! ## The invariant -/

/-- A trade the node itself has requested, in whatever status. -/
structure Requested (own : PeerId) (t : Trade) : Prop where
  requesterId : t.requesterId = own
  isRequester : t.isRequester = false

/-- A trade the node provides to the other one. -/
structure Provided (other : PeerId) (t : Trade) : Prop where
  requesterId : t.requesterId = other
  isRequester : t.isRequester = false
  status : t.status = .waitingRT1Commit

/-- The tasks of a node: none verifies, and the sends are for trades the node has requested. -/
def Task.RoleOk (own other : PeerId) : Task → Prop
  | .verify _ _ _ => False
  | .send t _ => Requested own t
  | .post (.startCommitDetails _ i) => i.requesterId = other
  | .post (.startCommitRequested t) => Provided other t
  | .post _ => True

/-- A request of the node `own` to `peerId`. A commit is for the node itself, which no one gets. -/
def ExchangeRequest.RoleOk (own peerId : PeerId) : ExchangeRequest → Prop
  | .iWant i => i.requesterId = own
  | .startCommit t => Requested peerId t
  | _ => peerId = own

def Flight.RoleOk (own : PeerId) : Flight → Prop
  | .request peerId r => r.RoleOk own peerId
  | .abandoned peerId r => r.RoleOk own peerId
  | _ => True

/-- The roles in two nodes and what is under way between them. -/
structure RoleInv (env : Party → Env Hash) (s : Peers) : Prop where
  stored : ∀ q iid t, (s.node q).storage.findActiveTrade iid = some t →
    Requested (env q).nodeId t ∨ Provided (env q.other).nodeId t
  iWant : ∀ q iid i, (s.node q).storage.findIWant iid = some i →
    i.requesterId = (env q.other).nodeId
  task : ∀ q k task, (s.node q).tasks k = some task →
    task.RoleOk (env q).nodeId (env q.other).nodeId
  flight : ∀ q k f, s.flight q k = some f → f.RoleOk (env q).nodeId

theorem Requested.updateStatus {own : PeerId} {t : Trade} (h : Requested own t) (s : TradeStatus) :
    Requested own (t.updateStatus s) :=
  ⟨h.requesterId, h.isRequester⟩

variable {s : Peers} {l : Label} {q : Party} {input : Input}

namespace RoleInv

theorem start {storage : Party → Storage} (ht : ∀ p iid, (storage p).findActiveTrade iid = none)
    (hi : ∀ p iid, (storage p).findIWant iid = none) : RoleInv env (Peers.start storage) where
  stored q iid _ h := nomatch (ht q iid).symm.trans h
  iWant q iid _ h := nomatch (hi q iid).symm.trans h
  task _ _ _ h := nomatch h
  flight _ _ _ h := nomatch h

/-- A request that arrives is one that its sender may send. -/
theorem arrives (h : RoleInv env s) {sender : PeerId} {rid : ℕ} {request : ExchangeRequest}
    (hm : Moved env s l q (.network (.exchangeRequest sender rid request))) :
    sender = (env q.other).nodeId ∧ request.RoleOk (env q.other).nodeId (env q).nodeId := by
  cases hm with
  | act hlocal => cases hlocal
  | @deliver p _ _ hf =>
    rw [Party.other_other]
    refine ⟨rfl, ?_⟩
    rcases hf with hf | hf
    · exact h.flight p rid _ hf
    · exact h.flight p rid _ hf

/-- No commit arrives at a node. -/
theorem no_commit (hne : ∀ p, (env p).nodeId ≠ (env p.other).nodeId) {r : ExchangeRequest}
    {c : TradeStatus × U32 × Commit} (hr : r.awaited = some c)
    (h : r.RoleOk (env q.other).nodeId (env q).nodeId) : False := by
  cases r with
  | iWant i => cases hr
  | startCommit t => cases hr
  | t1RequesterCommit tradeId commit => exact hne q h
  | t1ProviderCommit tradeId commit => exact hne q h
  | t2RequesterCommit tradeId commit => exact hne q h
  | t2CommitValid tradeId => cases hr
  | invalidatingSignature tradeId sig => cases hr

theorem written (h : RoleInv env s) (hm : Moved env s l q input) {t : Trade}
    (ht : Written (s.node q) input t) :
    Requested (env q).nodeId t ∨ Provided (env q.other).nodeId t := by
  cases ht with
  | startCommit sender rid t =>
    have harrives : Requested (env q).nodeId t := (h.arrives hm).2
    exact .inl (harrives.updateStatus _)
  | process hk => exact (h.task q _ _ hk).elim
  | finish hk => exact (h.task q _ _ hk).elim
  | sent hk =>
    have hsend : Requested (env q).nodeId _ := h.task q _ _ hk
    exact .inl (hsend.updateStatus _)
  | opened hk => exact .inr (h.task q _ _ hk)

theorem left (h : RoleInv env s) (hne : ∀ p, (env p).nodeId ≠ (env p.other).nodeId)
    (hm : Moved env s l q input) {k : ℕ} {task : Task}
    (ht : Left (env q) (s.node q) input k task) :
    task.RoleOk (env q).nodeId (env q.other).nodeId := by
  cases ht with
  | accept hr hf hp => exact (no_commit hne hr (h.arrives hm).2).elim
  | tick _ hf hs =>
    rcases h.stored q _ _ hf with hreq | hprov
    · exact hreq
    · rcases Trade.isSendingStatus_iff.mp hs with hs | hs | hs <;>
        cases hprov.status.symm.trans hs
  | @post message _ stage hs hi =>
    cases stage with
    | startCommitRequested t => exact absurd rfl (hs t)
    | startCommitDetails quote i => exact absurd rfl (hi quote i)
    | _ => trivial
  | process hk => exact (h.task q _ _ hk).elim
  | examine hk _ _ _ _ => exact (h.task q _ _ hk).elim
  | request hk => exact (h.task q _ _ hk :)
  | sent hk =>
    have hsend : Requested (env q).nodeId _ := h.task q _ _ hk
    exact hsend.updateStatus _
  | unsent hk => exact (h.task q _ _ hk :)
  | findsIWant hk hi => exact h.iWant q _ _ hi
  | opens hk => exact ⟨(h.task q _ _ hk :), rfl, rfl⟩
  | @serve _ _ _ stage' hk hs hi =>
    cases stage' with
    | startCommitRequested t => exact absurd rfl (hs t)
    | startCommitDetails quote i => exact absurd rfl (hi quote i)
    | _ => trivial

theorem flies (h : RoleInv env s) {k : ℕ} {f : Flight} (hf : Flies env s l q k f) :
    f.RoleOk (env q).nodeId := by
  cases hf with
  | sent hask =>
    cases hask with
    | @commit _ t commit request hk hr =>
      have hsend : Requested (env q).nodeId t := h.task q _ _ hk
      have hself : t.counterPartyDetails.1 = (env q).nodeId := by
        simp [Trade.counterPartyDetails, hsend.isRequester, hsend.requesterId]
      unfold createSendRequest at hr
      split at hr
      · cases hr
        exact hself
      · cases hr
        exact hself
      · cases hr
        exact hself
      · cases hr
    | iWant hk => rfl
    | startCommit hk => exact ⟨rfl, rfl⟩
  | response _ _ => trivial
  | handled _ => trivial
  | abandoned hf => exact (h.flight q k _ hf :)

theorem step (h : RoleInv env s) (hne : ∀ p, (env p).nodeId ≠ (env p.other).nodeId) (l : Label) :
    RoleInv env (s.step env l) := by
  refine { stored := ?_, iWant := ?_, task := ?_, flight := ?_ }
  · intro q iid t ht
    rcases peers_node env s l q with hq | ⟨input, hm, hq⟩
    · exact h.stored q iid t (hq ▸ ht)
    · rw [hq] at ht
      rcases step_stored ht with ht | ht
      · exact h.stored q iid t ht
      · exact h.written hm ht
  · intro q iid i hi
    rcases peers_node env s l q with hq | ⟨input, hm, hq⟩
    · exact h.iWant q iid i (hq ▸ hi)
    · rw [hq] at hi
      rcases step_iWant hi with hi | ⟨sender, rid, rfl⟩
      · exact h.iWant q iid i hi
      · exact (h.arrives hm).2
  · intro q k task hk
    rcases peers_node env s l q with hq | ⟨input, hm, hq⟩
    · exact h.task q k task (hq ▸ hk)
    · rw [hq] at hk
      rcases step_task hk with hk | hk
      · exact h.task q k task hk
      · exact h.left hne hm hk
  · intro q k f hf
    rcases peers_flight hf with hf | hf
    · exact h.flight q k f hf
    · exact h.flies hf

end RoleInv

/-! ## Runs -/

/-- In every state that two distinct nodes reach from databases without trades, a stored trade is
consistent with the roles exactly when the node is not its requester. -/
theorem role_consistent_iff (hne : ∀ p, (env p).nodeId ≠ (env p.other).nodeId)
    {storage : Party → Storage} (ht : ∀ p iid, (storage p).findActiveTrade iid = none)
    (hi : ∀ p iid, (storage p).findIWant iid = none) (labels : List Label) (q : Party) (iid : U32)
    (t : Trade)
    (hstored : (((Peers.start storage).run env labels).node q).storage.findActiveTrade iid =
      some t) :
    RoleConsistent (env q).nodeId (env q.other).nodeId t ↔ t.requesterId ≠ (env q).nodeId := by
  have hinv : RoleInv env ((Peers.start storage).run env labels) :=
    Run.final_inv (fun s l h _ => h.step hne l) (RoleInv.start ht hi)
      (Run.always_trivial (Peers.start storage) labels)
  constructor
  · intro hc hown
    have hflag := hc.role.mpr hown
    rcases hinv.stored q iid t hstored with h | h
    · cases h.isRequester.symm.trans hflag
    · cases h.isRequester.symm.trans hflag
  · intro hown
    rcases hinv.stored q iid t hstored with h | h
    · exact absurd h.requesterId hown
    · refine ⟨?_, ?_, ?_⟩
      · simp [h.isRequester, hown]
      · simp [Trade.counterPartyDetails, h.isRequester, h.requesterId]
      · rw [if_neg hown, h.status]
        decide

/-- The requester posts its interest in quote 6, and the provider starts the trade. -/
def openLabels : List Label :=
  [.act .a (.post (.iWant ⟨[10]⟩ ⟨[1]⟩ 6)), .act .a (.task 0 (.networkDetails (some ⟨[20]⟩))),
    .deliver .a 0, .respond .a 0, .act .b (.post (.startCommit ⟨30, 6⟩)), .act .b (.task 0 .run),
    .act .b (.task 0 (.networkDetails (some ⟨[10]⟩))), .deliver .b 0, .respond .b 0]

theorem role_consistent_iff_openLabels :
    RoleConsistent ⟨[1]⟩ ⟨[2]⟩ (plainTrade .waitingRT1Commit false) ↔
      (plainTrade .waitingRT1Commit false).requesterId ≠ ⟨[1]⟩ := by
  have hne : ∀ p, (plainEnvs p).nodeId ≠ (plainEnvs p.other).nodeId := by
    intro p
    cases p <;> decide
  exact @role_consistent_iff _ plainEnvs hne (fun _ => Storage.new) (fun _ _ => rfl) (fun _ _ => rfl)
    openLabels .b 6 (plainTrade .waitingRT1Commit false) (by decide +kernel)

/-- The requester has stored the trade with the provider's flag. -/
theorem not_role_consistent_openLabels :
    ¬ ∀ t, (((Peers.start fun _ => Storage.new).run plainEnvs openLabels).node
        .a).storage.findActiveTrade 6 = some t →
      RoleConsistent (plainEnvs .a).nodeId (plainEnvs .b).nodeId t := by
  intro h
  have hc := h (plainTrade .rSendT1Commit false) (by decide +kernel)
  have hflag := hc.role.mpr (by decide)
  cases hflag

end Dse
