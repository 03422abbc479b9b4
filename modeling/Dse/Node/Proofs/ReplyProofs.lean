import Dse.Node.Proofs.SendProofs
import Dse.Node.Proofs.TaskProofs
import Mathlib.Algebra.BigOperators.Group.Finset.Piecewise

/-!
# Every post is answered once

The handler of a post runs as a task that waits for the network and for the other party, and replies
to the client when it ends. `PostLog` is the record of an observer who numbers the posts and counts
the replies to each of them. A post has had its reply, or its handler is still running, and never
both; no reply goes to anybody else.
-/

namespace Dse

variable {Hash : Type} (env : Env Hash) {node : Node}

def Command.isReply : Command → Bool
  | .reply _ => true
  | _ => false

/-- The number of replies among the commands. -/
def repliesIn (commands : List Command) : ℕ := commands.countP Command.isReply

@[simp] theorem repliesIn_nil : repliesIn [] = 0 := rfl

theorem repliesIn_eq_zero {commands : List Command} (h : ∀ c ∈ commands, c.isReply = false) :
    repliesIn commands = 0 :=
  List.countP_eq_zero.mpr fun c hc => by simp [h c hc]

/-! ## Who replies -/

/-- The handler of a post replies in the step in which it ends. -/
theorem postStep_replies (s : Storage) (stage : PostStage) (answer : Answer) :
    ((postStep env s stage answer).next = none ∧
        repliesIn (postStep env s stage answer).commands = 1) ∨
      ((∃ stage', (postStep env s stage answer).next = some stage') ∧
        repliesIn (postStep env s stage answer).commands = 0) := by
  unfold postStep
  split
  · exact .inr ⟨⟨_, rfl⟩, rfl⟩
  · exact .inl ⟨rfl, rfl⟩
  · exact .inl ⟨rfl, rfl⟩
  · exact .inl ⟨rfl, rfl⟩
  · exact .inr ⟨⟨_, rfl⟩, rfl⟩
  · exact .inl ⟨rfl, rfl⟩
  · exact .inl ⟨rfl, rfl⟩
  · -- the lookup of the interest ends the handler, or takes it on
    split
    · exact .inr ⟨⟨_, rfl⟩, rfl⟩
    · exact .inl ⟨rfl, rfl⟩
  · exact .inr ⟨⟨_, rfl⟩, rfl⟩
  · exact .inl ⟨rfl, rfl⟩
  · exact .inl ⟨rfl, rfl⟩
  · exact .inl ⟨rfl, rfl⟩
  · exact .inr ⟨⟨_, rfl⟩, rfl⟩

theorem loadStep_replies (w : Address) (s : Storage) (load : Load) (answer : Answer) :
    repliesIn (loadStep env w s load answer).2.2 = 0 := by
  refine repliesIn_eq_zero fun c hc => ?_
  rcases (loadStep_cases env w s load answer).2 c hc with rfl | ⟨peer, rfl⟩
  · rfl
  · rfl

theorem verifyStep_replies (commit : Commit) (t : Trade) (s : Storage) (stage : VerifyStage)
    (answer : Answer) : repliesIn (verifyStep env commit t s stage answer).commands = 0 := by
  unfold verifyStep
  split
  · rfl
  · split
    · rfl
    · rfl
  · rename_i load
    have hload := loadStep_replies env commit.walletAddress s load answer
    split
    · rename_i heq
      rw [heq] at hload
      exact hload
    · rename_i heq
      rw [heq] at hload
      exact hload
    · rename_i heq
      rw [heq] at hload
      exact hload
  · rfl
  · rfl
  · rfl
  · rfl

theorem sendStep_replies (t : Trade) (s : Storage) (stage : SendStage) (answer : Answer) :
    repliesIn (sendStep t s stage answer).commands = 0 := by
  unfold sendStep
  split
  · split
    · rfl
    · rfl
  · rfl
  · rfl
  · rfl

/-- Who is answered on the network is no client. -/
theorem handleNetworkEvent_replies (node : Node) (event : NetworkEvent) :
    repliesIn (node.handleNetworkEvent event).2 = 0 := by
  have hcommit : ∀ (status : TradeStatus) (sender : PeerId) (rid : ℕ) (tradeId : U32)
      (commit : Commit),
      repliesIn (Node.handleCommit status node sender rid tradeId commit).2 = 0 := by
    intro status sender rid tradeId commit
    unfold Node.handleCommit
    split
    · rfl
    · rfl
  cases event with
  | gossipsubMessageRecv message =>
    cases message with
    | newQuery query => rfl
    | commit commit tradeId =>
      unfold Node.handleNetworkEvent
      dsimp only
      split
      · rfl
      · rfl
    | invalidatingSignature tradeId provider requester sig => rfl
  | exchangeRequest sender rid request =>
    cases request with
    | t1RequesterCommit tradeId commit => exact hcommit _ _ _ _ _
    | t1ProviderCommit tradeId commit => exact hcommit _ _ _ _ _
    | t2RequesterCommit tradeId commit => exact hcommit _ _ _ _ _
    | _ => rfl
  | commitRequest sender rid request =>
    cases request with
    | wantHistory w =>
      unfold Node.handleNetworkEvent
      dsimp only
      split
      · rfl
      · rfl
    | update w commits lastBatch => rfl
  | newListenAddr listenerId address => rfl

/-- The handler of a post starts, or replies at once. -/
theorem handlePost_replies (node : Node) (message : ReceivedMessage) :
    ((node.handlePost message).1 = node ∧ repliesIn (node.handlePost message).2 = 1) ∨
      ∃ stage, (node.handlePost message).1 = node.spawn (.post stage) ∧
        repliesIn (node.handlePost message).2 = 0 := by
  cases message with
  | placeBid queryId charge => exact .inl ⟨rfl, rfl⟩
  | acceptBid queryId providerId => exact .inl ⟨rfl, rfl⟩
  | newQuery query => exact .inr ⟨_, rfl, rfl⟩
  | iWant addr providerId id => exact .inr ⟨_, rfl, rfl⟩
  | startCommit quote => exact .inr ⟨_, rfl, rfl⟩

/-- Any other task replies to nobody. -/
theorem handleTask_replies {id : ℕ} (answer : Answer)
    (h : ∀ stage, node.tasks id ≠ some (.post stage)) :
    repliesIn (node.handleTask env id answer).2 = 0 := by
  unfold Node.handleTask
  split
  · rfl
  · exact verifyStep_replies env _ _ _ _ _
  · split
    · rfl
    · rfl
  · exact sendStep_replies _ _ _ _
  · rename_i stage hk
    exact absurd hk (h stage)

/-! ## The observer -/

/-- The posts by their number, and the replies to them. -/
structure PostLog where
  posts : ℕ := 0
  /-- The task that handles a post, unless it was replied to at once. -/
  handler : ℕ → Option ℕ := fun _ => none
  replies : ℕ → ℕ := fun _ => 0
  /-- All replies, whoever they go to. -/
  total : ℕ := 0

namespace PostLog

/-- The next post, with its handler, and what is replied at once. -/
def post (g : PostLog) (handler : Option ℕ) (replies : ℕ) : PostLog where
  posts := g.posts + 1
  handler := Function.update g.handler g.posts handler
  replies := Function.update g.replies g.posts replies
  total := g.total + replies

/-- What the task `id` replies goes to its post. -/
def reply (g : PostLog) (id replies : ℕ) : PostLog :=
  { g with
    replies := fun n => g.replies n + if g.handler n = some id then replies else 0
    total := g.total + replies }

/-- The observer's update. -/
def next (g : PostLog) (node : Node) (input : Input) : PostLog :=
  let replies := repliesIn (node.act env input).2
  match input with
  | .post message =>
    g.post (if (node.handlePost message).1.nextTask = node.nextTask then none
      else some node.nextTask) replies
  | .task id _ => g.reply id replies
  | _ => { g with total := g.total + replies }

variable (g : PostLog) (handler : Option ℕ) (replies : ℕ)

@[simp] theorem post_posts : (g.post handler replies).posts = g.posts + 1 := rfl

@[simp] theorem post_handler_self : (g.post handler replies).handler g.posts = handler :=
  Function.update_self _ _ _

theorem post_handler_of_ne {n : ℕ} (h : n ≠ g.posts) :
    (g.post handler replies).handler n = g.handler n := Function.update_of_ne h _ _

@[simp] theorem post_replies_self : (g.post handler replies).replies g.posts = replies :=
  Function.update_self _ _ _

theorem post_replies_of_ne {n : ℕ} (h : n ≠ g.posts) :
    (g.post handler replies).replies n = g.replies n := Function.update_of_ne h _ _

/-- The new post adds its replies. -/
theorem post_sum : ∑ n ∈ Finset.range (g.posts + 1), (g.post handler replies).replies n =
    ∑ n ∈ Finset.range g.posts, g.replies n + replies := by
  rw [Finset.sum_range_succ, post_replies_self]
  refine congrArg (· + replies) (Finset.sum_congr rfl fun n hn => ?_)
  exact g.post_replies_of_ne handler replies (Nat.ne_of_lt (Finset.mem_range.mp hn))

end PostLog

/-- The observed run. -/
def Node.postLog (node : Node) (inputs : List Input) : PostLog × Node :=
  Run.final (Run.watch (Node.step env) (PostLog.next env)) ({}, node) inputs

/-- The handler of the post is still running. -/
def PostLog.IsOpen (g : PostLog) (node : Node) (n : ℕ) : Prop :=
  ∃ id stage, g.handler n = some id ∧ node.tasks id = some (.post stage)

/-- Every post has had one reply or is open, and there are no other replies. -/
structure RepliedOnce (g : PostLog) (node : Node) : Prop where
  once : ∀ n < g.posts, (g.replies n = 1 ∧ ¬ g.IsOpen node n) ∨ (g.replies n = 0 ∧ g.IsOpen node n)
  total : g.total = ∑ n ∈ Finset.range g.posts, g.replies n

/-- The log knows the handlers by their task ids. -/
structure Tracked (g : PostLog) (node : Node) : Prop where
  fresh : node.Fresh
  handler_lt : ∀ n id, g.handler n = some id → n < g.posts ∧ id < node.nextTask
  handler_inj : ∀ n m id, g.handler n = some id → g.handler m = some id → n = m
  handled : ∀ id stage, node.tasks id = some (.post stage) → ∃ n, g.handler n = some id
  replied : RepliedOnce g node

theorem tracked_start (s : Storage) : Tracked {} (.start s) where
  fresh _ _ := rfl
  handler_lt n id h := by cases h
  handler_inj n m id h := by cases h
  handled id stage h := by cases h
  replied := ⟨fun n hn => absurd hn (Nat.not_lt_zero n), rfl⟩

/-! ## Steps -/

variable {env} {g : PostLog} {input : Input}

/-- A step that is neither a post nor a handler's leaves the handlers alone. -/
theorem step_handlers (hfresh : node.Fresh) (hpost : ∀ message, input ≠ .post message)
    (htask : ∀ id answer stage, input = .task id answer → node.tasks id ≠ some (.post stage))
    {k : ℕ} {stage : PostStage} :
    (node.step env input).tasks k = some (.post stage) ↔ node.tasks k = some (.post stage) := by
  constructor
  · intro hk
    rcases step_task hk with hold | hleft
    · exact hold
    · cases hleft with
      | post _ _ => exact absurd rfl (hpost _)
      | findsIWant h _ => exact absurd h (htask _ _ _ rfl)
      | opens h => exact absurd h (htask _ _ _ rfl)
      | serve h _ _ => exact absurd h (htask _ _ _ rfl)
  · intro hk
    exact step_tasks_of_ne hfresh hk fun answer hi => htask k answer stage hi hk

/-- Handlers that go on as they were, and nothing said: the log stays true. -/
theorem Tracked.quiet (h : Tracked g node) {node' : Node} (hfresh : node'.Fresh)
    (hle : node.nextTask ≤ node'.nextTask)
    (htasks : ∀ k stage, node'.tasks k = some (.post stage) ↔ node.tasks k = some (.post stage)) :
    Tracked g node' := by
  have hopen : ∀ n, g.IsOpen node' n ↔ g.IsOpen node n := fun n => by
    simp only [PostLog.IsOpen, htasks]
  refine ⟨hfresh, fun n id hn => ?_, h.handler_inj, fun id stage hid => ?_, fun n hn => ?_,
    h.replied.total⟩
  · exact ⟨(h.handler_lt n id hn).1, (h.handler_lt n id hn).2.trans_le hle⟩
  · exact h.handled id stage ((htasks id stage).mp hid)
  · rw [hopen]
    exact h.replied.once n hn

/-- A post that is replied to at once has no handler. -/
theorem Tracked.replied_at_once (h : Tracked g node) : Tracked (g.post none 1) node := by
  have hhandler : ∀ n id, (g.post none 1).handler n = some id →
      n ≠ g.posts ∧ g.handler n = some id := by
    intro n id hn
    by_cases hnew : n = g.posts
    · subst hnew
      rw [PostLog.post_handler_self] at hn
      cases hn
    · exact ⟨hnew, by rwa [PostLog.post_handler_of_ne _ _ _ hnew] at hn⟩
  refine ⟨h.fresh, fun n id hn => ?_, fun n m id hn hm => ?_, fun id stage hid => ?_,
    fun n hn => ?_, ?_⟩
  · have hold := h.handler_lt n id (hhandler n id hn).2
    exact ⟨Nat.lt_succ_of_lt hold.1, hold.2⟩
  · exact h.handler_inj n m id (hhandler n id hn).2 (hhandler m id hm).2
  · obtain ⟨n, hn⟩ := h.handled id stage hid
    refine ⟨n, ?_⟩
    rw [PostLog.post_handler_of_ne _ _ _ (Nat.ne_of_lt (h.handler_lt n id hn).1)]
    exact hn
  · by_cases hnew : n = g.posts
    · subst hnew
      refine .inl ⟨PostLog.post_replies_self g none 1, ?_⟩
      rintro ⟨id, stage, hid, -⟩
      exact (hhandler _ id hid).1 rfl
    · have hlt : n < g.posts := Nat.lt_of_le_of_ne (Nat.le_of_lt_succ hn) hnew
      simp only [PostLog.IsOpen, PostLog.post_handler_of_ne _ _ _ hnew,
        PostLog.post_replies_of_ne _ _ _ hnew]
      exact h.replied.once n hlt
  · rw [PostLog.post_posts, PostLog.post_sum, ← h.replied.total]
    rfl

/-- A post that starts a handler is open. -/
theorem Tracked.spawned (h : Tracked g node) (stage : PostStage) :
    Tracked (g.post (some node.nextTask) 0) (node.spawn (.post stage)) := by
  have hold : ∀ n id, g.handler n = some id →
      (node.spawn (.post stage)).tasks id = node.tasks id := by
    intro n id hn
    rw [Node.spawn_tasks, if_neg (Nat.ne_of_lt (h.handler_lt n id hn).2)]
  -- the new task id is nobody's yet
  have hunused : ∀ n, g.handler n ≠ some node.nextTask := fun n hn =>
    Nat.lt_irrefl _ (h.handler_lt n _ hn).2
  have hhandler : ∀ n id, (g.post (some node.nextTask) 0).handler n = some id →
      (n = g.posts ∧ id = node.nextTask) ∨ (n ≠ g.posts ∧ g.handler n = some id) := by
    intro n id hn
    by_cases hnew : n = g.posts
    · subst hnew
      rw [PostLog.post_handler_self] at hn
      exact .inl ⟨rfl, (Option.some.inj hn).symm⟩
    · exact .inr ⟨hnew, by rwa [PostLog.post_handler_of_ne _ _ _ hnew] at hn⟩
  refine ⟨h.fresh.spawn _, fun n id hn => ?_, fun n m id hn hm => ?_, fun id stage' hid => ?_,
    fun n hn => ?_, ?_⟩
  · rcases hhandler n id hn with ⟨rfl, rfl⟩ | ⟨-, hn⟩
    · exact ⟨Nat.lt_succ_self _, Nat.lt_succ_self _⟩
    · have hlt := h.handler_lt n id hn
      exact ⟨Nat.lt_succ_of_lt hlt.1, Nat.lt_succ_of_lt hlt.2⟩
  · rcases hhandler n id hn with ⟨rfl, rfl⟩ | ⟨-, hn⟩
    · rcases hhandler m _ hm with ⟨rfl, -⟩ | ⟨-, hm⟩
      · rfl
      · exact absurd hm (hunused m)
    · rcases hhandler m id hm with ⟨-, rfl⟩ | ⟨-, hm⟩
      · exact absurd hn (hunused n)
      · exact h.handler_inj n m id hn hm
  · rw [Node.spawn_tasks] at hid
    by_cases hid' : id = node.nextTask
    · exact ⟨g.posts, by rw [hid', PostLog.post_handler_self]⟩
    · rw [if_neg hid'] at hid
      obtain ⟨n, hn⟩ := h.handled id stage' hid
      refine ⟨n, ?_⟩
      rw [PostLog.post_handler_of_ne _ _ _ (Nat.ne_of_lt (h.handler_lt n id hn).1)]
      exact hn
  · by_cases hnew : n = g.posts
    · subst hnew
      refine .inr ⟨PostLog.post_replies_self g _ 0, node.nextTask, stage,
        PostLog.post_handler_self g _ 0, ?_⟩
      rw [Node.spawn_tasks, if_pos rfl]
    · have hlt : n < g.posts := Nat.lt_of_le_of_ne (Nat.le_of_lt_succ hn) hnew
      have hopen : (g.post (some node.nextTask) 0).IsOpen (node.spawn (.post stage)) n ↔
          g.IsOpen node n := by
        simp only [PostLog.IsOpen, PostLog.post_handler_of_ne _ _ _ hnew]
        refine exists_congr fun id => exists_congr fun stage' => and_congr_right fun hn => ?_
        rw [hold n id hn]
      rw [hopen, PostLog.post_replies_of_ne _ _ _ hnew]
      exact h.replied.once n hlt
  · rw [PostLog.post_posts, PostLog.post_sum, ← h.replied.total]
    rfl

/-- A handler takes a step: it goes on, or replies and ends. -/
theorem Tracked.handler (h : Tracked g node) {id : ℕ} {stage : PostStage}
    (hk : node.tasks id = some (.post stage)) (s : Storage) {next : Option PostStage} {r : ℕ}
    (hnext : next = none ∧ r = 1 ∨ (∃ stage', next = some stage') ∧ r = 0) :
    Tracked (g.reply id r) (node.resume id s (next.map .post)) := by
  obtain ⟨n, hn⟩ := h.handled id stage hk
  have hlt := h.handler_lt n id hn
  have hother : ∀ m, m ≠ n → g.handler m ≠ some id := fun m hm hmid =>
    hm (h.handler_inj m n id hmid hn)
  have hzero : g.replies n = 0 ∧ g.IsOpen node n := by
    rcases h.replied.once n hlt.1 with ⟨-, hnot⟩ | hopen
    · exact absurd ⟨id, stage, hn, hk⟩ hnot
    · exact hopen
  refine ⟨fun k hge => ?_, fun m k hm => ?_, h.handler_inj, fun k stage' hk' => ?_,
    fun m hm => ?_, ?_⟩
  · have hge' : node.nextTask ≤ k := hge
    rw [Node.resume_tasks, if_neg (by omega)]
    exact h.fresh k hge'
  · exact h.handler_lt m k hm
  · rw [Node.resume_tasks] at hk'
    by_cases hkid : k = id
    · exact ⟨n, by rw [hkid]; exact hn⟩
    · rw [if_neg hkid] at hk'
      exact h.handled k stage' hk'
  · by_cases hmn : m = n
    · subst hmn
      have hreplies : (g.reply id r).replies m = r := by
        show g.replies m + (if g.handler m = some id then r else 0) = r
        rw [hzero.1, if_pos hn, Nat.zero_add]
      rw [hreplies]
      rcases hnext with ⟨rfl, rfl⟩ | ⟨⟨stage', rfl⟩, rfl⟩
      · refine .inl ⟨rfl, ?_⟩
        rintro ⟨k, stage', hk', htask⟩
        have hkid : k = id := Option.some.inj (hk'.symm.trans hn)
        rw [Node.resume_tasks, if_pos hkid] at htask
        cases htask
      · refine .inr ⟨rfl, id, stage', hn, ?_⟩
        rw [Node.resume_tasks, if_pos rfl]
        rfl
    · have hreplies : (g.reply id r).replies m = g.replies m := by
        show g.replies m + (if g.handler m = some id then r else 0) = g.replies m
        rw [if_neg (hother m hmn), Nat.add_zero]
      have hopen : (g.reply id r).IsOpen (node.resume id s (next.map .post)) m ↔
          g.IsOpen node m := by
        refine exists_congr fun k => exists_congr fun stage' => and_congr_right fun hk' => ?_
        have hkid : k ≠ id := by
          rintro rfl
          exact hother m hmn hk'
        rw [Node.resume_tasks, if_neg hkid]
      rw [hreplies, hopen]
      exact h.replied.once m hm
  · show g.total + r = ∑ m ∈ Finset.range g.posts,
      (g.replies m + if g.handler m = some id then r else 0)
    have hshare : ∀ m ∈ Finset.range g.posts,
        (if g.handler m = some id then r else 0) = if m = n then r else 0 := by
      intro m _
      by_cases hmn : m = n
      · rw [if_pos (hmn ▸ hn), if_pos hmn]
      · rw [if_neg (hother m hmn), if_neg hmn]
    rw [Finset.sum_add_distrib, Finset.sum_congr rfl hshare, Finset.sum_ite_eq',
      if_pos (Finset.mem_range.mpr hlt.1), h.replied.total]

/-- Nothing is replied: the log stays as it is. -/
theorem PostLog.next_quiet (hpost : ∀ message, input ≠ .post message)
    (h : repliesIn (node.act env input).2 = 0) : g.next env node input = g := by
  unfold PostLog.next
  rw [h]
  cases input with
  | post message => exact absurd rfl (hpost message)
  | task id answer => simp [PostLog.reply]
  | _ => rfl

theorem Tracked.step (h : Tracked g node) (input : Input) :
    Tracked (g.next env node input) (node.step env input) := by
  have hquiet : (∀ message, input ≠ .post message) →
      (∀ id answer stage, input = .task id answer → node.tasks id ≠ some (.post stage)) →
      repliesIn (node.act env input).2 = 0 →
      Tracked (g.next env node input) (node.step env input) := by
    intro hpost htask hzero
    rw [PostLog.next_quiet hpost hzero]
    exact h.quiet h.fresh.step nextTask_le_step fun _ _ => step_handlers h.fresh hpost htask
  cases input with
  | network event =>
    exact hquiet (by rintro _ ⟨⟩) (by rintro _ _ _ ⟨⟩) (handleNetworkEvent_replies node event)
  | tick => exact hquiet (by rintro _ ⟨⟩) (by rintro _ _ _ ⟨⟩) rfl
  | commitProcEvent => exact hquiet (by rintro _ ⟨⟩) (by rintro _ _ _ ⟨⟩) rfl
  | post message =>
    rcases handlePost_replies node message with ⟨hnode, hreplies⟩ | ⟨stage, hnode, hreplies⟩
    · have hstep : node.step env (.post message) = node := hnode
      have hlog : g.next env node (.post message) = g.post none 1 := by
        simp only [PostLog.next, Node.act, hreplies, hnode, if_true]
      rw [hstep, hlog]
      exact h.replied_at_once
    · have hstep : node.step env (.post message) = node.spawn (.post stage) := hnode
      have hne : (node.spawn (.post stage)).nextTask ≠ node.nextTask :=
        Nat.succ_ne_self node.nextTask
      have hlog : g.next env node (.post message) = g.post (some node.nextTask) 0 := by
        simp only [PostLog.next, Node.act, hreplies, hnode, if_neg hne]
      rw [hstep, hlog]
      exact h.spawned stage
  | task id answer =>
    by_cases hk : ∃ stage, node.tasks id = some (.post stage)
    · obtain ⟨stage, hk⟩ := hk
      have hact : node.act env (.task id answer) =
          (node.resume id (postStep env node.storage stage answer).storage
            ((postStep env node.storage stage answer).next.map .post),
          (postStep env node.storage stage answer).commands) := by
        simp only [Node.act, Node.handleTask, hk]
      have hnext := h.handler hk (postStep env node.storage stage answer).storage
        (postStep_replies env node.storage stage answer)
      rw [Node.step, PostLog.next, hact]
      exact hnext
    · have hnone : ∀ stage, node.tasks id ≠ some (.post stage) := fun stage hs => hk ⟨stage, hs⟩
      refine hquiet (by rintro _ ⟨⟩) ?_ (handleTask_replies env answer hnone)
      rintro _ _ stage ⟨⟩
      exact hnone stage

/-- In every run every client is replied to once, unless the handler of the post still waits. -/
theorem one_reply_per_post (env : Env Hash) (storage : Storage) (inputs : List Input) :
    let x := (Node.start storage).postLog env inputs
    RepliedOnce x.1 x.2 := by
  have hstep : ∀ (y : PostLog × Node) (i : Input), Tracked y.1 y.2 → True →
      Tracked (Run.watch (Node.step env) (PostLog.next env) y i).1
        (Run.watch (Node.step env) (PostLog.next env) y i).2 := fun y i h _ => h.step i
  exact (Run.final_inv hstep (tracked_start storage)
    (Run.always_trivial ({}, Node.start storage) inputs)).replied

end Dse
