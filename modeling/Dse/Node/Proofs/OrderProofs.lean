import Dse.Lib.Survival
import Dse.Node.Proofs.ConflictProofs
import Dse.Node.Proofs.HistoryProofs

/-!
# The order of gossiped messages

A gossiped invalidating signature marks the commits of its trade that are in the history when it
comes, and is not kept. A commit that comes after it, for the first time or again, stands. So what a
search of the history finds depends on the order of the messages, unless the ranges of every commit
that is both gossiped and invalidated lie within ranges of commits that stand in every order.
-/

namespace Dse

open Storage

variable {Hash : Type} {env : Env Hash}

/-! ## What a message does to a history -/

namespace GossipsubMessage

/-- The commit that the message brings for the wallet. -/
def brings? (w : Address) : GossipsubMessage → Option Commit
  | .commit c _ => if c.walletAddress = w then some c else none
  | _ => none

/-- The trade whose commits of the wallet the message invalidates. -/
def silences? (w : Address) : GossipsubMessage → Option U32
  | .invalidatingSignature tradeId providerWallet requesterWallet _ =>
    if providerWallet = w ∨ requesterWallet = w then some tradeId else none
  | _ => none

/-- The commits of a tracked wallet after the message. -/
def apply (w : Address) (cs : List Commit) : GossipsubMessage → List Commit
  | .commit c _ => if c.walletAddress = w then cs ++ [c] else cs
  | .invalidatingSignature tradeId providerWallet requesterWallet sig =>
    if providerWallet = w ∨ requesterWallet = w then cs.map (Commit.mark tradeId sig) else cs
  | .newQuery _ => cs

end GossipsubMessage

namespace Node

/-- The node after the gossiped messages. -/
def deliver (env : Env Hash) (node : Node) (messages : List GossipsubMessage) : Node :=
  node.run env (messages.map fun message => .network (.gossipsubMessageRecv message))

variable {node : Node} {w : Address}

theorem deliver_cons (message : GossipsubMessage) (messages : List GossipsubMessage) :
    node.deliver env (message :: messages) =
      (node.step env (.network (.gossipsubMessageRecv message))).deliver env messages := rfl

theorem getWalletsOfInterest_gossip (message : GossipsubMessage) :
    (node.step env (.network (.gossipsubMessageRecv message))).storage.getWalletsOfInterest =
      node.storage.getWalletsOfInterest := by
  cases message with
  | newQuery query => rfl
  | commit c tradeId =>
    simp only [Node.step, Node.act, Node.handleNetworkEvent]
    split <;> rfl
  | invalidatingSignature tradeId pw rw sig =>
    simp only [Node.step, Node.act, Node.handleNetworkEvent, Node.addInvalidatingSignature]
    split <;> split <;> rfl

theorem commitsOf_gossip (h : w ∈ node.storage.getWalletsOfInterest) (message : GossipsubMessage) :
    (node.step env (.network (.gossipsubMessageRecv message))).storage.commitsOf w =
      message.apply w (node.storage.commitsOf w) := by
  rw [commitsOf_congr (step_commitHistories env node _)]
  cases message with
  | newQuery query => rfl
  | commit c tradeId =>
    simp only [Incoming.ofStep, Incoming.ofMessage, GossipsubMessage.apply]
    by_cases hc : c.walletAddress = w
    · rw [hc, if_pos h, if_pos rfl, receive, commitsOf_addCommits, if_pos rfl]
    · rw [if_neg hc]
      split
      · rw [receive, commitsOf_addCommits, if_neg (Ne.symm hc)]
      · rfl
  | invalidatingSignature tradeId pw rw' sig =>
    simp only [Incoming.ofStep, Incoming.ofMessage, GossipsubMessage.apply, commitsOf_signature]
    refine if_congr ?_ rfl rfl
    simp only [List.mem_filter, List.mem_cons, List.not_mem_nil, or_false, h, decide_true, and_true]
    exact or_congr eq_comm eq_comm

/-- The commits of a tracked wallet after the messages. -/
theorem commitsOf_deliver (h : w ∈ node.storage.getWalletsOfInterest)
    (messages : List GossipsubMessage) :
    (node.deliver env messages).storage.commitsOf w =
      messages.foldl (GossipsubMessage.apply w) (node.storage.commitsOf w) := by
  induction messages generalizing node with
  | nil => rfl
  | cons message messages ih =>
    rw [deliver_cons, ih ((getWalletsOfInterest_gossip message).symm ▸ h), commitsOf_gossip h]
    rfl

end Node

/-! ## What a search finds -/

/-- Whether the search of `are_indexes_in_conflict` in the history of the wallet finds a commit. -/
def Storage.conflictFound (s : Storage) (w : Address) (indexes : List U32) : Bool :=
  ((s.findCommitHistory w).bind fun history => history.findConflict indexes).isSome

namespace Commit

instance (c : Commit) : Decidable c.Live := inferInstanceAs (Decidable (¬ _))

theorem isInConflict_iff {c : Commit} {indexes : List U32} :
    CommitHistory.isInConflict indexes c = true ↔ c.Live ∧ Ranges.Crosses c.indexes indexes := by
  unfold CommitHistory.isInConflict
  by_cases hl : c.Live
  · rw [if_neg hl, List.any_eq_true]
    refine Iff.trans ⟨?_, ?_⟩ (and_iff_right hl).symm
    · rintro ⟨i, hi, hany⟩
      obtain ⟨j, hj, hij⟩ := List.any_eq_true.mp hany
      obtain ⟨k, hk, rfl⟩ := List.mem_range'.mp hi
      obtain ⟨k', hk', rfl⟩ := List.mem_range'.mp hj
      simp only [Bool.and_eq_true, decide_eq_true_eq] at hij
      refine ⟨_, (Ranges.mem_ofList 0).mpr ⟨k, by omega, rfl⟩, _,
        (Ranges.mem_zip_tail 0).mpr ⟨k', by omega, rfl⟩, ?_⟩
      simpa [Nat.add_comm] using hij
    · rintro ⟨r, hr, x, hx, h1, h2⟩
      obtain ⟨k, hk, rfl⟩ := (Ranges.mem_ofList 0).mp hr
      obtain ⟨j, hj, rfl⟩ := (Ranges.mem_zip_tail 0).mp hx
      refine ⟨2 * k + 1, List.mem_range'.mpr ⟨k, by omega, by omega⟩, List.any_eq_true.mpr
        ⟨j + 1, List.mem_range'.mpr ⟨j, by omega, by omega⟩, ?_⟩⟩
      simpa using ⟨h1, h2⟩
  · rw [if_pos (not_not.mp hl)]
    simp [hl]

theorem live_mark {c : Commit} {tradeId : U32} {sig : Signature} :
    (c.mark tradeId sig).Live ↔ c.Live ∧ ¬ (c.cType = .t1 ∧ c.u = tradeId) := by
  unfold mark Live
  split
  · rename_i hu
    simp only [hu, and_true, ne_eq, reduceCtorEq, not_false_eq_true]
    exact ⟨fun h => ⟨fun h' => h h'.1, h⟩, fun h => h.2⟩
  · rename_i hu
    simp [hu]

theorem mark_indexes {c : Commit} {tradeId : U32} {sig : Signature} :
    (c.mark tradeId sig).indexes = c.indexes := by
  unfold mark
  split <;> rfl

end Commit

theorem Storage.conflictFound_iff {s : Storage} {w : Address} {indexes : List U32} :
    s.conflictFound w indexes = true ↔
      ∃ c ∈ s.commitsOf w, c.Live ∧ Ranges.Crosses c.indexes indexes := by
  unfold conflictFound commitsOf
  cases s.findCommitHistory w with
  | none => simp
  | some history =>
    rw [Option.bind_some, CommitHistory.findConflict, List.find?_isSome]
    simp only [Commit.isInConflict_iff]

/-! ## Commits that survive -/

section Survivors

variable (w : Address)

/-- The message brings the commit, and it stands. -/
def Born (c : Commit) (message : GossipsubMessage) : Prop := message.brings? w = some c ∧ c.Live

/-- The message invalidates the commit. -/
def Kills (c : Commit) (message : GossipsubMessage) : Prop :=
  c.cType = .t1 ∧ message.silences? w = some c.u

variable {w} {cs : List Commit}

/-- The commits that stand after the messages are the ones that survive them. -/
theorem exists_live_iff_survives (messages : List GossipsubMessage) {Q : Commit → Prop}
    (hQ : ∀ tradeId sig c, Q (c.mark tradeId sig) ↔ Q c) :
    (∃ c ∈ messages.foldl (GossipsubMessage.apply w) cs, c.Live ∧ Q c) ↔
      ∃ c, Survival.Survives (fun c => c ∈ cs ∧ c.Live) (Born w) (Kills w) messages c ∧ Q c := by
  induction messages using List.reverseRecOn generalizing Q with
  | nil => simp [and_assoc]
  | append_singleton messages message ih =>
    rw [List.foldl_append, List.foldl_cons, List.foldl_nil]
    simp only [Survival.survives_concat]
    cases message with
    | newQuery query =>
      simpa [GossipsubMessage.apply, Kills, Born, GossipsubMessage.silences?,
        GossipsubMessage.brings?] using ih hQ
    | commit c tradeId =>
      by_cases hc : c.walletAddress = w
      · -- one more commit at the end
        simp only [GossipsubMessage.apply, if_pos hc, List.mem_append, List.mem_singleton, Kills,
          Born, GossipsubMessage.silences?, GossipsubMessage.brings?, or_and_right, exists_or,
          ih hQ]
        simp
      · simpa [GossipsubMessage.apply, Kills, Born, GossipsubMessage.silences?,
          GossipsubMessage.brings?, hc] using ih hQ
    | invalidatingSignature tradeId pw rw' sig =>
      by_cases hw : pw = w ∨ rw' = w
      · -- the survivors of before, but for the type 1 commits of the trade
        have hkeep : ∀ u sig' c, (¬ ((c.mark u sig').cType = .t1 ∧ (c.mark u sig').u = tradeId) ∧
            Q (c.mark u sig')) ↔ ¬ (c.cType = .t1 ∧ c.u = tradeId) ∧ Q c := by
          intro u sig' c
          rw [hQ]
          unfold Commit.mark
          split <;> rfl
        simp only [GossipsubMessage.apply, if_pos hw, List.mem_map, Kills, Born,
          GossipsubMessage.silences?, GossipsubMessage.brings?]
        rw [exists_exists_and_eq_and]
        simp only [Commit.live_mark, hQ, and_assoc]
        rw [ih hkeep]
        simp [and_assoc, eq_comm]
      · simpa [GossipsubMessage.apply, Kills, Born, GossipsubMessage.silences?,
          GossipsubMessage.brings?, hw] using ih hQ

end Survivors

/-! ## Messages in any order -/

/-- The live commits of the wallet that the messages bring. -/
def liveCommits (w : Address) (messages : List GossipsubMessage) : List Commit :=
  (messages.filterMap (GossipsubMessage.brings? w)).filter fun c => decide c.Live

/-- The trades whose commits of the wallet the messages invalidate. -/
def silenced (w : Address) (messages : List GossipsubMessage) : List U32 :=
  messages.filterMap (GossipsubMessage.silences? w)

/-- Every range of a commit that the messages both bring and invalidate lies within a range of a
live commit, stored before or brought by them, that they do not invalidate. -/
def Covered (w : Address) (cs : List Commit) (messages : List GossipsubMessage) : Prop :=
  ∀ c ∈ liveCommits w messages, c.cType = .t1 → c.u ∈ silenced w messages →
    ∀ r ∈ Ranges.ofList c.indexes, ∃ c' ∈ cs ++ liveCommits w messages,
      c'.Live ∧ (c'.cType = .t1 → c'.u ∉ silenced w messages) ∧ Ranges.Contains c'.indexes r

instance (w : Address) (cs : List Commit) (messages : List GossipsubMessage) :
    Decidable (Covered w cs messages) :=
  -- through the list of ranges, and not through all pairs of words
  have (c : Commit) : Decidable (∀ r ∈ Ranges.ofList c.indexes, ∃ c' ∈ cs ++ liveCommits w messages,
      c'.Live ∧ (c'.cType = .t1 → c'.u ∉ silenced w messages) ∧ Ranges.Contains c'.indexes r) :=
    List.decidableBAll _ _
  inferInstanceAs (Decidable (∀ c ∈ liveCommits w messages, _ → _ → ∀ r ∈ Ranges.ofList c.indexes,
    ∃ c' ∈ cs ++ liveCommits w messages, _ ∧ (_ → _) ∧ _))

variable {w : Address} {cs : List Commit} {messages : List GossipsubMessage} {c : Commit}

theorem mem_liveCommits : c ∈ liveCommits w messages ↔ ∃ m ∈ messages, Born w c m := by
  simp only [liveCommits, Born, List.mem_filter, List.mem_filterMap, decide_eq_true_eq]
  constructor
  · rintro ⟨⟨m, hm, hb⟩, hl⟩
    exact ⟨m, hm, hb, hl⟩
  · rintro ⟨m, hm, hb, hl⟩
    exact ⟨⟨m, hm, hb⟩, hl⟩

theorem mem_silenced {u : U32} :
    u ∈ silenced w messages ↔ ∃ m ∈ messages, m.silences? w = some u := by
  simp [silenced]

theorem contested_iff : Survival.Contested (Born w) (Kills w) messages c ↔
    c ∈ liveCommits w messages ∧ c.cType = .t1 ∧ c.u ∈ silenced w messages := by
  rw [mem_liveCommits, mem_silenced]
  refine and_congr_right fun _ => ?_
  constructor
  · rintro ⟨m, hm, ht, hs⟩
    exact ⟨ht, m, hm, hs⟩
  · rintro ⟨ht, m, hm, hs⟩
    exact ⟨m, hm, ht, hs⟩

theorem settled_iff : Survival.Settled (fun c => c ∈ cs ∧ c.Live) (Born w) (Kills w) messages c ↔
    c ∈ cs ++ liveCommits w messages ∧ c.Live ∧ (c.cType = .t1 → c.u ∉ silenced w messages) := by
  have hlive : c ∈ liveCommits w messages → c.Live := by
    intro h
    obtain ⟨_, _, _, hl⟩ := mem_liveCommits.mp h
    exact hl
  have hkill : (∀ m ∈ messages, ¬ Kills w c m) ↔ (c.cType = .t1 → c.u ∉ silenced w messages) := by
    rw [mem_silenced]
    constructor
    · rintro h ht ⟨m, hm, hs⟩
      exact h m hm ⟨ht, hs⟩
    · rintro h m hm ⟨ht, hs⟩
      exact h ht ⟨m, hm, hs⟩
  unfold Survival.Settled
  rw [hkill, ← mem_liveCommits, List.mem_append, ← and_assoc]
  refine and_congr_left fun _ => ?_
  constructor
  · rintro (⟨hc, hl⟩ | hc)
    · exact ⟨.inl hc, hl⟩
    · exact ⟨.inr hc, hlive hc⟩
  · rintro ⟨hc | hc, hl⟩
    · exact .inl ⟨hc, hl⟩
    · exact .inr hc

/-- The messages cover what they bring and invalidate exactly when for every query a commit that
stands in every order answers for those that do not. -/
theorem covered_iff : Covered w cs messages ↔
    ∀ c, Survival.Contested (Born w) (Kills w) messages c → ∀ indexes,
      Ranges.Crosses c.indexes indexes →
        ∃ c', Survival.Settled (fun c => c ∈ cs ∧ c.Live) (Born w) (Kills w) messages c' ∧
          Ranges.Crosses c'.indexes indexes := by
  constructor
  · intro h c hc indexes hcross
    obtain ⟨hmem, ht, hu⟩ := contested_iff.mp hc
    obtain ⟨r, hr, x, hx, h1, h2⟩ := hcross
    obtain ⟨c', hc', hl, hs, r', hr', h1', h2'⟩ := h c hmem ht hu r hr
    exact ⟨c', settled_iff.mpr ⟨hc', hl, hs⟩, r', hr', x, hx, BitVec.le_trans h1' h1,
      BitVec.le_trans h2 h2'⟩
  · intro h c hmem ht hu r hr
    have hself : Ranges.Crosses c.indexes [r.2, r.1] :=
      Ranges.crosses_pair.mpr ⟨r, hr, BitVec.le_refl _, BitVec.le_refl _⟩
    obtain ⟨c', hs, hcross⟩ := h c (contested_iff.mpr ⟨hmem, ht, hu⟩) _ hself
    obtain ⟨hc', hl, hsil⟩ := settled_iff.mp hs
    exact ⟨c', hc', hl, hsil, Ranges.crosses_pair.mp hcross⟩

/-- What the search finds after the messages, in terms of what survives them. -/
theorem conflictFound_deliver {node : Node} (h : w ∈ node.storage.getWalletsOfInterest)
    (messages : List GossipsubMessage) (indexes : List U32) :
    (node.deliver env messages).storage.conflictFound w indexes = true ↔
      ∃ c, Survival.Survives (fun c => c ∈ node.storage.commitsOf w ∧ c.Live) (Born w) (Kills w)
        messages c ∧ Ranges.Crosses c.indexes indexes := by
  rw [conflictFound_iff, Node.commitsOf_deliver h]
  refine exists_live_iff_survives messages fun tradeId sig c => ?_
  rw [Commit.mark_indexes]

/-- No message both brings a commit and invalidates one. -/
theorem not_kills_of_born {m : GossipsubMessage} {c c' : Commit} (h : Born w c m) :
    ¬ Kills w c' m := by
  cases m with
  | commit c tradeId => exact fun h' => nomatch h'.2
  | newQuery query => exact nomatch h.1
  | invalidatingSignature tradeId pw rw' sig => exact nomatch h.1

/-- Two nodes that track the wallet and have the same commits of it agree on every search, in
whatever orders and however often they handle the messages, exactly when the messages cover what
they both bring and invalidate. -/
theorem conflict_search_order_iff (env₁ env₂ : Env Hash) (node₁ node₂ : Node) (w : Address)
    (h₁ : w ∈ node₁.storage.getWalletsOfInterest) (h₂ : w ∈ node₂.storage.getWalletsOfInterest)
    (heq : node₁.storage.commitsOf w = node₂.storage.commitsOf w)
    (messages : List GossipsubMessage) :
    (∀ l₁ l₂ : List GossipsubMessage, (∀ m, m ∈ l₁ ↔ m ∈ messages) →
        (∀ m, m ∈ l₂ ↔ m ∈ messages) → ∀ indexes,
        (node₁.deliver env₁ l₁).storage.conflictFound w indexes =
          (node₂.deliver env₂ l₂).storage.conflictFound w indexes) ↔
      Covered w (node₁.storage.commitsOf w) messages := by
  have hdisj : ∀ m c c', Born w c m → ¬ Kills w c' m := fun _ _ _ => not_kills_of_born
  rw [covered_iff, ← Survival.order_independent_iff hdisj messages]
  refine forall_congr' fun l₁ => forall_congr' fun l₂ => forall_congr' fun _ =>
    forall_congr' fun _ => forall_congr' fun indexes => ?_
  rw [Bool.eq_iff_iff, conflictFound_deliver h₁, conflictFound_deliver h₂, heq]

/-- A database that tracks wallet 8 and has a type 2 commit of it over the indexes 0 to 10. -/
def trackingStorage : Storage :=
  { Storage.new with walletsOfInterest := some {8} }.addCommitsToCommitHistory 8
    [{ plainCommit 5 with indexes := [0, 10], cType := .t2 }]

/-- A commit of `u` over the indexes, and an invalidating signature for it. -/
def invalidatedMessages (u : U32) (indexes : List U32) : List GossipsubMessage :=
  [.commit { plainCommit u with indexes } u, .invalidatingSignature u 8 9 ⟨7, 0, 0⟩]

theorem conflict_search_order_iff_inside :
    Covered 8 ((Node.start trackingStorage).storage.commitsOf 8) (invalidatedMessages 6 [4, 4]) ∧
      ∀ l₁ l₂ : List GossipsubMessage, (∀ m, m ∈ l₁ ↔ m ∈ invalidatedMessages 6 [4, 4]) →
        (∀ m, m ∈ l₂ ↔ m ∈ invalidatedMessages 6 [4, 4]) → ∀ indexes,
        ((Node.start trackingStorage).deliver plainEnv l₁).storage.conflictFound 8 indexes =
          ((Node.start trackingStorage).deliver plainEnv l₂).storage.conflictFound 8 indexes := by
  have hcovered : Covered 8 ((Node.start trackingStorage).storage.commitsOf 8)
      (invalidatedMessages 6 [4, 4]) := by decide +kernel
  have htracked : 8 ∈ (Node.start trackingStorage).storage.getWalletsOfInterest := by
    decide +kernel
  exact ⟨hcovered, (conflict_search_order_iff plainEnv plainEnv (.start trackingStorage)
    (.start trackingStorage) 8 htracked htracked rfl (invalidatedMessages 6 [4, 4])).mpr hcovered⟩

/-- A commit of index 12 that comes after its invalidating signature stands, and one that comes
before does not. -/
theorem not_conflict_search_order_outside :
    ¬ ∀ l₁ l₂ : List GossipsubMessage, (∀ m, m ∈ l₁ ↔ m ∈ invalidatedMessages 6 [12, 12]) →
      (∀ m, m ∈ l₂ ↔ m ∈ invalidatedMessages 6 [12, 12]) → ∀ indexes,
      ((Node.start trackingStorage).deliver plainEnv l₁).storage.conflictFound 8 indexes =
        ((Node.start trackingStorage).deliver plainEnv l₂).storage.conflictFound 8 indexes := by
  intro h
  have hsame := h (invalidatedMessages 6 [12, 12]) (invalidatedMessages 6 [12, 12]).reverse
    (fun _ => Iff.rfl) (fun _ => List.mem_reverse) [12, 12]
  revert hsame
  decide +kernel

end Dse
