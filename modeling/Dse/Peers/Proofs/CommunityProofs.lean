import Dse.Node.Proofs.SpreadProofs
import Dse.Peers.Community
import Dse.Peers.Exchange

/-!
# Histories are conserved

Nothing in this code publishes a commit or an invalidating signature, and of a history a node sends
the commits it has stored (`act_fits`). So among nodes that run it commits spread by loads only: no
commit comes into a history anywhere that was not in a history of the wallet somewhere at the start,
none is lost, and none is marked as invalidated.
-/

namespace Dse

open Storage

variable {ι Hash : Type}

/-! ## Histories among the nodes -/

section Conserved

variable (storage : ι → Storage)

/-- A node of the community had the commit in the history of the wallet at the start. -/
def Known (w : Address) (c : Commit) : Prop := ∃ j, c ∈ (storage j).commitsOf w

/-- A message that brings nothing into a history but what is known. -/
def Message.Harmless : Message → Prop
  | .gossip message => ∃ query, message = .newQuery query
  | .commitRequest (.wantHistory _) => True
  | .commitRequest (.update w cs _) => ∀ c ∈ cs, Known storage w c

/-- The node has all that it had at the start, and nothing that is not known. -/
structure Conserves (i : ι) (node : Node) : Prop where
  kept : ∀ w, ∀ c ∈ (storage i).commitsOf w, c ∈ node.storage.commitsOf w
  known : ∀ w, ∀ c ∈ node.storage.commitsOf w, Known storage w c

variable {storage} {env : Env Hash} {node : Node} {input : Input} {i : ι}

/-- Harmless messages bring known commits, and no signatures. -/
theorem ofStep_harmless (h : ∀ m, input.message? = some m → m.Harmless storage) :
    Incoming.ofStep env node input = .nothing ∨ ∃ w cs,
      Incoming.ofStep env node input = .commits w cs ∧ ∀ c ∈ cs, Known storage w c := by
  cases input with
  | network event =>
    cases event with
    | gossipsubMessageRecv message =>
      obtain ⟨query, rfl⟩ : ∃ query, message = .newQuery query := h _ rfl
      exact .inl rfl
    | _ => exact .inl rfl
  | task id answer =>
    simp only [Incoming.ofStep]
    split
    · unfold Incoming.ofAnswer
      split
      · exact .inr ⟨_, _, rfl, fun c hc => h _ rfl c (List.mem_filter.mp hc).1⟩
      · exact .inl rfl
    · exact .inl rfl
  | _ => exact .inl rfl

/-- A node to which only harmless messages come keeps what it has, and sends only such. -/
theorem Conserves.step (hi : Conserves storage i node)
    (h : ∀ m, input.message? = some m → m.Harmless storage) :
    Conserves storage i (node.step env input) := by
  have hstored := commitsOf_congr (step_commitHistories env node input)
  have hbrings : Incoming.ofStep env node input = .nothing ∨ ∃ w cs,
      Incoming.ofStep env node input = .commits w cs ∧ ∀ c ∈ cs, Known storage w c :=
    ofStep_harmless h
  rcases hbrings with hnone | ⟨w, cs, hcommits, hknown⟩
  · rw [hnone] at hstored
    constructor
    · intro w c hc
      rw [hstored]
      exact hi.kept w c hc
    · intro w c hc
      rw [hstored] at hc
      exact hi.known w c hc
  · rw [hcommits] at hstored
    have hadds : ∀ w', (node.step env input).storage.commitsOf w' =
        if w' = w then node.storage.commitsOf w ++ cs else node.storage.commitsOf w' := by
      intro w'
      rw [hstored, receive, commitsOf_addCommits]
    constructor
    · intro w' c hc
      rw [hadds]
      split
      · rename_i hw
        subst hw
        exact List.mem_append_left _ (hi.kept _ c hc)
      · exact hi.kept w' c hc
    · intro w' c hc
      rw [hadds] at hc
      split at hc
      · rename_i hw
        subst hw
        rcases List.mem_append.mp hc with hc | hc
        · exact hi.known _ c hc
        · exact hknown c hc
      · exact hi.known w' c hc

theorem Conserves.sends (hi : Conserves storage i node) {m : Message}
    (hm : m ∈ (node.act env input).2.filterMap Command.message?) : m.Harmless storage := by
  obtain ⟨c, hc, hmessage⟩ := List.mem_filterMap.mp hm
  have hfits := act_fits hc
  cases c with
  | publishMessage message =>
    cases hmessage
    exact hfits
  | sendCommitRequest peer request =>
    cases hmessage
    cases request with
    | wantHistory w => trivial
    | update w cs last =>
      obtain rfl : cs = node.storage.commitsOf w := hfits
      exact hi.known w
  | _ => cases hmessage

end Conserved

end Dse
