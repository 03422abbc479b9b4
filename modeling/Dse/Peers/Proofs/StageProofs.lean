import Dse.Node.Proofs.SendProofs
import Dse.Peers.Proofs.RoleProofs

/-!
# Stages

A trade goes through three stages, in each of which one node sends a commit and the other one
accepts it. A `send` takes every response for a success, also the one that refuses the commit. The
observer `StageRecord.note` keeps the acceptances of a trade's commits, and the refusals by a node
that had not come to the stage yet. In a run in which no `send` is handed such a refusal, a node
leaves a sending status only when the other one has accepted the commit.
-/

namespace Dse

open Storage

variable {Hash : Type}

/-! ## Statuses -/

namespace TradeStatus

/-- The status in which the other node accepts the commit that is sent in a sending status. -/
def stage : TradeStatus → Option TradeStatus
  | .rSendT1Commit => some .waitingRT1Commit
  | .pSendT1Commit => some .waitingPT1Commit
  | .rSendT2Commit => some .waitingRT2Commit
  | _ => none

/-- The sending statuses that a trade has left on its way to a status. -/
def behind : TradeStatus → List TradeStatus
  | .waitingPT1Commit | .processingPT1Commit | .rSendT2Commit => [.rSendT1Commit]
  | .waitingForService => [.rSendT1Commit, .rSendT2Commit]
  | .waitingRT2Commit | .processingRT2Commit | .pFulfillService => [.pSendT1Commit]
  | _ => []

/-- The statuses of a node that has not come to the stage yet in which it accepts a commit. -/
def before : TradeStatus → List TradeStatus
  | .waitingPT1Commit => [.rSendT1Commit]
  | .waitingRT2Commit => [.waitingRT1Commit, .processingRT1Commit, .pSendT1Commit]
  | _ => []

/-- The stages, at either node, that a trade has behind it when it comes to a status. -/
def reached : TradeStatus → List TradeStatus
  | .waitingPT1Commit | .processingRT1Commit | .pSendT1Commit => [.waitingRT1Commit]
  | .processingPT1Commit | .rSendT2Commit | .waitingRT2Commit =>
    [.waitingRT1Commit, .waitingPT1Commit]
  | .waitingForService | .processingRT2Commit | .pFulfillService =>
    [.waitingRT1Commit, .waitingPT1Commit, .waitingRT2Commit]
  | _ => []

theorem mem_reached_toProcessing {s w : TradeStatus} (h : s.IsAwaited)
    (hw : w ∈ s.toProcessing.reached) : w ∈ s.reached ∨ w = s := by
  rcases h with rfl | rfl | rfl <;> revert hw <;> simp [reached, toProcessing, or_assoc]

theorem reached_toSend (s : TradeStatus) : s.toSend.reached = s.reached := by
  cases s <;> rfl

theorem mem_reached_toWaiting {s w : TradeStatus} (h : w ∈ s.toWaiting.reached) :
    w ∈ s.reached ∨ s.stage = some w := by
  cases s <;> revert h <;> simp [reached, toWaiting, stage] <;> tauto

theorem stage_mem_reached {s x w : TradeStatus} (h : x ∈ s.behind) (hw : x.stage = some w) :
    w ∈ s.reached := by
  cases s <;> simp [behind] at h
  all_goals first
    | (subst h; cases hw; decide)
    | (rcases h with rfl | rfl <;> cases hw <;> decide)

end TradeStatus

/-- The statuses of the two parties: `a` is the requester. -/
def Party.statuses : Party → List TradeStatus
  | .a => TradeStatus.requesterStatuses
  | .b => TradeStatus.providerStatuses

namespace Party

variable {q : Party} {s s' w : TradeStatus}

theorem toProcessing_mem_statuses (h : s ∈ q.statuses) : s.toProcessing ∈ q.statuses := by
  cases q <;> cases s <;> revert h <;> decide

theorem toSend_mem_statuses (h : s ∈ q.statuses) : s.toSend ∈ q.statuses := by
  cases q <;> cases s <;> revert h <;> decide

theorem toWaiting_mem_statuses (h : s ∈ q.statuses) : s.toWaiting ∈ q.statuses := by
  cases q <;> cases s <;> revert h <;> decide

/-- A node that does not accept a commit has not come to the stage, or has it behind it. -/
theorem mem_before_or_mem_reached (h : s ∈ q.statuses) (hw : s.stage = some w)
    (h' : s' ∈ q.other.statuses) (hne : s' ≠ w) : s' ∈ w.before ∨ w ∈ s'.reached := by
  cases q <;> cases s <;> cases hw <;> revert h <;> cases s' <;> revert h' hne <;> decide

end Party

/-! ## The observer -/

/-- What an observer keeps about the commits of a trade. -/
structure StageRecord where
  /-- The statuses in which a handler has accepted one and started a `verify`. -/
  accepted : List TradeStatus := []
  /-- The sends that were refused by a node that had not come to the stage yet. -/
  early : List (Party × ℕ) := []

variable (env : Party → Env Hash)

/-- The request that arrives with a step, and whose it is. -/
def Peers.arriving (s : Peers) : Label → Option (Party × ℕ × ExchangeRequest)
  | .deliver p id =>
    match s.flight p id with
    | some (.request peerId request) | some (.abandoned peerId request) =>
      if peerId = (env p.other).nodeId then some (p, id, request) else none
    | _ => none
  | _ => none

namespace StageRecord

/-- The observer of the trade `iid`. -/
def note (iid : U32) (g : StageRecord) (s : Peers) (l : Label) : StageRecord :=
  match s.arriving env l with
  | some (p, id, request) =>
    match request.awaited, (s.node p.other).storage.findActiveTrade iid with
    | some (w, tradeId, _), some t =>
      if tradeId = iid then
        if t.status = w ∧ t.counterPartyDetails.1 = (env p).nodeId then
          { g with accepted := w :: g.accepted }
        else if t.status ∈ w.before then { g with early := (p, id) :: g.early }
        else g
      else g
    | _, _ => g
  | none => g

/-- No `send` is handed a refusal by a node that had not come to the stage yet. -/
def NoEarlyBad (g : StageRecord) (s : Peers) (l : Label) : Prop :=
  ∀ p id, l = .respond p id → s.flight p id = some (.response .bad) → (p, id) ∉ g.early

instance (g : StageRecord) (s : Peers) (l : Label) : Decidable (g.NoEarlyBad s l) :=
  match l with
  | .respond p id =>
    decidable_of_iff (s.flight p id = some (.response .bad) → (p, id) ∉ g.early)
      ⟨fun h _ _ heq => by cases heq; exact h, fun h => h p id rfl⟩
  | .act _ _ | .deliver _ _ | .lose _ _ | .giveUp _ _ => .isTrue nofun

variable {env} {iid : U32} {g : StageRecord} {s : Peers} {l : Label}

theorem accepted_mono {w : TradeStatus} (h : w ∈ g.accepted) :
    w ∈ (note env iid g s l).accepted := by
  unfold note
  split
  · split
    · split
      · split
        · exact List.mem_cons_of_mem _ h
        · split
          · exact h
          · exact h
      · exact h
    · exact h
  · exact h

theorem early_mono {x : Party × ℕ} (h : x ∈ g.early) : x ∈ (note env iid g s l).early := by
  unfold note
  split
  · split
    · split
      · split
        · exact h
        · split
          · exact List.mem_cons_of_mem _ h
          · exact h
      · exact h
    · exact h
  · exact h

variable {p : Party} {id : ℕ} {request : ExchangeRequest} {t : Trade} {w : TradeStatus}
  {commit : Commit}

theorem mem_accepted (ha : s.arriving env l = some (p, id, request))
    (hr : request.awaited = some (t.status, iid, commit))
    (hf : (s.node p.other).storage.findActiveTrade iid = some t)
    (hp : t.counterPartyDetails.1 = (env p).nodeId) :
    t.status ∈ (note env iid g s l).accepted := by
  unfold note
  simp only [ha, hr, hf, if_pos, hp, and_self]
  exact List.mem_cons_self

theorem mem_early (ha : s.arriving env l = some (p, id, request))
    (hr : request.awaited = some (w, iid, commit))
    (hf : (s.node p.other).storage.findActiveTrade iid = some t) (hne : t.status ≠ w)
    (hb : t.status ∈ w.before) : (p, id) ∈ (note env iid g s l).early := by
  unfold note
  simp only [ha, hr, hf, if_pos, hne, hb, false_and, if_false]
  exact List.mem_cons_self

/-- Where a new acceptance comes from. -/
theorem of_mem_accepted (h : w ∈ (note env iid g s l).accepted) : w ∈ g.accepted ∨
    ∃ p id request t commit, s.arriving env l = some (p, id, request) ∧
      request.awaited = some (w, iid, commit) ∧
      (s.node p.other).storage.findActiveTrade iid = some t ∧ t.status = w ∧
      t.counterPartyDetails.1 = (env p).nodeId := by
  unfold note at h
  split at h
  · rename_i p id request ha
    split at h
    · rename_i w' tradeId commit t hr hf
      split at h
      · rename_i hid
        subst hid
        split at h
        · rename_i hacc
          rcases List.mem_cons.mp h with rfl | h
          · exact .inr ⟨p, id, request, t, commit, ha, hr, hf, hacc.1, hacc.2⟩
          · exact .inl h
        · split at h
          · exact .inl h
          · exact .inl h
      · exact .inl h
    · exact .inl h
  · exact .inl h

end StageRecord

end Dse
