import Dse.Node.Indexer
import Dse.Node.Network
import Dse.Lib.Run

/-!
# Who hears a gossiped message

A message is published under the topic of its variant, and gossipsub hands it to the connected nodes
that are subscribed to the topic. A node subscribes when it is made, to the topic of the queries, and
to nothing later.
-/

namespace Dse

variable (serde : Serde GossipsubMessage)

namespace Network

/-- The network after the inputs. -/
def run (inputs : List NetworkInput) : Network := Run.final (Network.step serde) .new inputs

/-- What a connected node emits when a node publishes: gossipsub hands the data, with its source,
to those who are subscribed to the topic. -/
def hears (network : Network) (source : PeerId) : Option (String × List UInt8) → List NetworkEvent
  | some (topic, data) =>
    if topic ∈ network.subscriptions then
      (network.act serde (.swarmEvent (.gossipsub ⟨some source, data, topic⟩))).2.events
    else []
  | none => []

/-! ## Subscriptions -/

theorem step_subscriptions (network : Network) (input : NetworkInput) :
    (network.step serde input).subscriptions = network.subscriptions := by
  cases input with
  | command command => cases command <;> rfl
  | swarmEvent event =>
    cases event with
    | gossipsub message => rw [step_gossipsub]
    | exchange event => rfl
    | commit event => rfl
    | other => rfl

/-- No input subscribes to a topic, or gives one up. -/
theorem run_subscriptions (inputs : List NetworkInput) :
    (run serde inputs).subscriptions = [GossipsubTopic.query.identTopic] := by
  have hstep : ∀ n i, n.subscriptions = [GossipsubTopic.query.identTopic] → True →
      (Network.step serde n i).subscriptions = [GossipsubTopic.query.identTopic] := by
    intro n i hn _
    rw [step_subscriptions, hn]
  exact Run.final_inv hstep rfl (Run.always_trivial _ inputs)

end Network

/-! ## Topics -/

namespace GossipsubTopic

theorem identTopic_injective : Function.Injective identTopic := by
  intro a b h
  cases a <;> cases b <;> first | rfl | exact absurd h (by decide)

theorem fromMessage_eq_query_iff {message : GossipsubMessage} :
    fromMessage message = .query ↔ ∃ query, message = .newQuery query := by
  cases message with
  | newQuery query => exact iff_of_true rfl ⟨query, rfl⟩
  | commit commit tradeId => exact iff_of_false nofun (by simp)
  | invalidatingSignature tradeId providerWallet requesterWallet signature =>
    exact iff_of_false nofun (by simp)

end GossipsubTopic

/-- A message is published under the topic of the queries exactly if it is one. -/
theorem GossipsubMessage.topic_mem_iff {message : GossipsubMessage} :
    message.topic ∈ [GossipsubTopic.query.identTopic] ↔ ∃ query, message = .newQuery query := by
  rw [List.mem_singleton, GossipsubMessage.topic, GossipsubTopic.identTopic_injective.eq_iff,
    GossipsubTopic.fromMessage_eq_query_iff]

/-! ## Hearing -/

variable {serde} {message : GossipsubMessage}

/-- What is received is what was published. -/
theorem GossipsubMessage.tryFrom_into
    (h : (serde.toVec message).bind serde.fromSlice = some message) (source : PeerId)
    (topic : String) :
    GossipsubMessage.tryFrom serde ⟨some source, message.into serde, topic⟩ = some message := by
  cases hbytes : serde.toVec message with
  | none =>
    rw [hbytes] at h
    cases h
  | some bytes =>
    have hinto : message.into serde = bytes := by
      unfold GossipsubMessage.into
      rw [hbytes]
    rw [hbytes] at h
    rw [hinto]
    exact h

/-- A node hears a published message exactly if it is a query. -/
theorem Network.hears_run_iff (h : (serde.toVec message).bind serde.fromSlice = some message)
    (inputs : List NetworkInput) (source : PeerId) :
    (run serde inputs).hears serde source (some (message.topic, message.into serde)) =
      [.gossipsubMessageRecv message] ↔ ∃ query, message = .newQuery query := by
  unfold hears
  dsimp only
  rw [run_subscriptions, ← GossipsubMessage.topic_mem_iff]
  by_cases htopic : message.topic ∈ [GossipsubTopic.query.identTopic]
  · rw [if_pos htopic]
    unfold act swarmEventHandler
    dsimp only
    rw [GossipsubMessage.tryFrom_into h]
    exact iff_of_true rfl htopic
  · rw [if_neg htopic]
    exact iff_of_false nofun htopic

/-- What a node publishes reaches the handlers of all the others it is connected to exactly if it is
a query, or there are none. -/
theorem gossip_reaches_handlers_iff {ι : Type} (connected : ι → ι → Prop) (peer : ι → PeerId)
    (inputs : ι → List NetworkInput) (message : GossipsubMessage)
    (hround : (serde.toVec message).bind serde.fromSlice = some message) (i : ι) :
    (∀ j, j ≠ i → connected i j →
      (Network.run serde (inputs j)).hears serde (peer i)
        ((Network.run serde (inputs i)).act serde (.command (.publishMessage message))).2.published =
          [.gossipsubMessageRecv message]) ↔
      (∃ query, message = .newQuery query) ∨ ∀ j, j ≠ i → ¬ connected i j := by
  have hhears : ∀ j, (Network.run serde (inputs j)).hears serde (peer i)
      ((Network.run serde (inputs i)).act serde (.command (.publishMessage message))).2.published =
        [.gossipsubMessageRecv message] ↔ ∃ query, message = .newQuery query :=
    fun j => Network.hears_run_iff hround (inputs j) (peer i)
  simp only [hhears]
  constructor
  · intro h
    by_cases hquery : ∃ query, message = .newQuery query
    · exact Or.inl hquery
    · exact Or.inr fun j hj hc => hquery (h j hj hc)
  · rintro (hquery | hnone) j hj hc
    · exact hquery
    · exact absurd hc (hnone j hj)

/-- Peer 2 asks for apples. -/
def appleQuery : GossipsubMessage := .newQuery ⟨1, ⟨"apples"⟩, ⟨[20]⟩, ⟨[2]⟩, 8⟩

/-- A query is heard by the other of two connected nodes. -/
theorem gossip_reaches_handlers_iff_query :
    (Network.run (.only appleQuery [1]) []).hears (.only appleQuery [1]) ⟨[2]⟩
      ((Network.run (.only appleQuery [1]) []).act (.only appleQuery [1])
        (.command (.publishMessage appleQuery))).2.published =
          [.gossipsubMessageRecv appleQuery] := by
  have hround : ((Serde.only appleQuery [1]).toVec appleQuery).bind
      (Serde.only appleQuery [1]).fromSlice = some appleQuery := by
    rw [Serde.only_toVec]
    exact Serde.undoes_only _ _ _ _ (Serde.only_toVec _ _)
  exact (gossip_reaches_handlers_iff (fun _ _ : Bool => True) (fun _ => ⟨[2]⟩) (fun _ => [])
    appleQuery hround true).mpr (Or.inl ⟨_, rfl⟩) false (by decide) trivial

/-- A gossiped commit is heard by nobody. -/
theorem not_gossip_reaches_handlers_commit :
    ¬ ∀ (serde : Serde GossipsubMessage) (message : GossipsubMessage),
      (serde.toVec message).bind serde.fromSlice = some message →
        (Network.run serde []).hears serde ⟨[2]⟩
          ((Network.run serde []).act serde (.command (.publishMessage message))).2.published =
            [.gossipsubMessageRecv message] := by
  intro h
  let message : GossipsubMessage := .commit (plainCommit 6) 6
  have hround : ((Serde.only message [1]).toVec message).bind
      (Serde.only message [1]).fromSlice = some message := by
    rw [Serde.only_toVec]
    exact Serde.undoes_only _ _ _ _ (Serde.only_toVec _ _)
  obtain ⟨query, hquery⟩ := (Network.hears_run_iff hround [] ⟨[2]⟩).mp (h _ message hround)
  have hno : GossipsubMessage.commit (plainCommit 6) 6 ≠ .newQuery query := by nofun
  exact hno hquery

end Dse
