import Mathlib.Data.List.ReduceOption
import Dse.Node.Proofs.LoadProofs

/-!
# The peers that a load asks, one after the other

`query_from` begins to count at 0 for the first peer and at 1 for every other one, and lets the count
reach 4 before it moves on, so every peer is asked four times. A load asks a beginning of that
sequence, and one whose requests all fail asks all of it. The list of peers is empty only when the
load ends, so nothing is removed from an empty list.
-/

namespace Dse

namespace LoadingState

variable {st st' : LoadingState} {peerId : PeerId}

/-! ## The results of `query_from` -/

/-- How often `query_from` can still be called. -/
def remaining (st : LoadingState) : ℕ := 4 * st.peers.length + (4 - st.requestCount)

theorem queryFrom_cases (h : st.queryFrom = some (st', some peerId)) :
    (st.requestCount ≤ 3 ∧ st'.requestCount = st.requestCount + 1 ∧ st'.peers = st.peers) ∨
      (3 < st.requestCount ∧ st'.requestCount = 1 ∧ ∃ p, st.peers = p :: st'.peers) := by
  unfold queryFrom at h
  split at h
  · rename_i hcount
    obtain ⟨rfl, -⟩ := Prod.mk.inj (Option.some.inj h)
    exact .inl ⟨hcount, rfl, rfl⟩
  · rename_i hcount
    split at h
    · cases h
    · rename_i p peers hpeers
      obtain ⟨rfl, -⟩ := Prod.mk.inj (Option.some.inj h)
      exact .inr ⟨Nat.lt_of_not_le hcount, rfl, p, hpeers⟩

theorem remaining_lt (h : st.queryFrom = some (st', some peerId)) :
    st'.remaining < st.remaining := by
  unfold remaining
  obtain ⟨hcount, hnext, hpeers⟩ | ⟨hcount, hnext, p, hpeers⟩ := queryFrom_cases h
  · rw [hnext, hpeers]
    omega
  · rw [hnext, hpeers, List.length_cons]
    omega

/-- The results of calling `query_from` up to the first `None`, unless it panics before. -/
def results (st : LoadingState) : Option (List (Option PeerId)) :=
  match _h : st.queryFrom with
  | none => none
  | some (_, none) => some [none]
  | some (st', some peerId) => st'.results.map (some peerId :: ·)
termination_by st.remaining
decreasing_by exact remaining_lt _h

theorem results_of_panic (h : st.queryFrom = none) : st.results = none := by
  rw [results]
  split
  · rfl
  · rename_i h'
    rw [h] at h'
    cases h'
  · rename_i h'
    rw [h] at h'
    cases h'

theorem results_of_none (h : st.queryFrom = some (st', none)) : st.results = some [none] := by
  rw [results]
  split
  · rename_i h'
    rw [h] at h'
    cases h'
  · rfl
  · rename_i h'
    rw [h] at h'
    cases h'

theorem results_of_some (h : st.queryFrom = some (st', some peerId)) :
    st.results = st'.results.map (some peerId :: ·) := by
  rw [results]
  split
  · rename_i h'
    rw [h] at h'
    cases h'
  · rename_i h'
    rw [h] at h'
    cases h'
  · rename_i h'
    rw [h] at h'
    cases h'
    rfl

theorem results_cases {results : List (Option PeerId)} (h : st.results = some results) :
    (∃ st', st.queryFrom = some (st', none) ∧ results = [none]) ∨
      ∃ st' peerId results', st.queryFrom = some (st', some peerId) ∧
        st'.results = some results' ∧ results = some peerId :: results' := by
  cases hquery : st.queryFrom with
  | none =>
    rw [results_of_panic hquery] at h
    cases h
  | some x =>
    obtain ⟨st', next⟩ := x
    cases next with
    | none =>
      rw [results_of_none hquery] at h
      exact .inl ⟨st', rfl, (Option.some.inj h).symm⟩
    | some peerId =>
      rw [results_of_some hquery] at h
      obtain ⟨results', hresults', rfl⟩ := Option.map_eq_some_iff.mp h
      exact .inr ⟨st', peerId, results', rfl, hresults', rfl⟩

/-- What a load does besides asking does not change whom it asks. -/
theorem queryFrom_withState (st : LoadingState) (s : LoadState) :
    queryFrom { st with state := s } =
      st.queryFrom.map fun x => ({ x.1 with state := s }, x.2) := by
  obtain ⟨peers, count, s'⟩ := st
  unfold queryFrom
  by_cases hcount : count ≤ 3
  · simp [hcount]
  · cases peers <;> simp [hcount]

theorem results_withState (st : LoadingState) (s : LoadState) :
    results { st with state := s } = st.results := by
  fun_induction results st with
  | case1 st h =>
    have hquery := queryFrom_withState st s
    rw [h] at hquery
    exact results_of_panic hquery
  | case2 st st' h =>
    have hquery := queryFrom_withState st s
    rw [h] at hquery
    exact results_of_none hquery
  | case3 st st' p h ih =>
    have hquery := queryFrom_withState st s
    rw [h] at hquery
    rw [results_of_some hquery, ih]

/-- What is left to ask when `n` requests to the first peer are left. -/
def schedule (n : ℕ) : List PeerId → List (Option PeerId)
  | [] => [none]
  | p :: peers => List.replicate n (some p) ++ schedule 4 peers

/-- The first peer is asked once more, as long as its count allows it. -/
theorem results_again {n : ℕ} (hn : n < 4) (p : PeerId) (peers : List PeerId) (s : LoadState) :
    results ⟨p :: peers, 4 - (n + 1), s⟩ =
      (results ⟨p :: peers, 4 - n, s⟩).map (some p :: ·) := by
  have hquery : queryFrom ⟨p :: peers, 4 - (n + 1), s⟩ = some (⟨p :: peers, 4 - n, s⟩, some p) := by
    unfold queryFrom
    rw [if_pos (show 4 - (n + 1) ≤ 3 by omega), show 4 - (n + 1) + 1 = 4 - n by omega]
    rfl
  exact results_of_some hquery

/-- A count of `4 - n` leaves `n` requests to the first peer. -/
theorem results_schedule (n : ℕ) (hn : n ≤ 4) (peers : List PeerId) (p : PeerId) (s : LoadState) :
    results ⟨p :: peers, 4 - n, s⟩ = some (schedule n (p :: peers)) := by
  induction peers generalizing p n with
  | nil =>
    induction n with
    | zero => exact results_of_none rfl
    | succ n ih =>
      rw [results_again hn, ih (by omega)]
      rfl
  | cons q peers ihpeers =>
    induction n with
    | zero =>
      -- the first peer is used up: its successor is asked at once, and three times more
      have hquery : queryFrom ⟨p :: q :: peers, 4, s⟩ = some (⟨q :: peers, 1, s⟩, some q) := rfl
      rw [Nat.sub_zero, results_of_some hquery, ihpeers 3 (by omega) q]
      rfl
    | succ n ih =>
      rw [results_again hn, ih (by omega)]
      rfl

theorem schedule_four (peers : List PeerId) :
    schedule 4 peers = peers.flatMap (fun p => List.replicate 4 (some p)) ++ [none] := by
  induction peers with
  | nil => rfl
  | cons p peers ih => rw [schedule, ih, List.flatMap_cons, List.append_assoc]

/-- The state a load begins with. -/
def start (peers : List PeerId) : LoadingState where
  peers := peers
  requestCount := 0
  state := .pending

/-- Every peer is asked four times, and then the calls end. -/
theorem results_start (peers : List PeerId) : (start peers).results =
    some (peers.flatMap (fun p => List.replicate 4 (some p)) ++ [none]) := by
  rw [← schedule_four]
  cases peers with
  | nil => exact results_of_none rfl
  | cons p peers => exact results_schedule 4 (le_refl 4) peers p .pending

end LoadingState

/-! ## The requests of a load -/

variable {Hash : Type} (env : Env Hash) (wallet : Address)

namespace LoadProgress

/-- A step of the load, if it has not come to its end, with the storage it finds and the answer it is
handed. -/
def step (progress : LoadProgress) (input : Storage × Answer) : LoadProgress :=
  match progress with
  | .goesOn load => (loadStep env wallet input.1 load input.2).2.1
  | .returned ok => .returned ok
  | .panicked => .panicked

/-- The observer: the peers that the load has asked. -/
def note (asked : List PeerId) (progress : LoadProgress) (input : Storage × Answer) : List PeerId :=
  match progress with
  | .goesOn load =>
    asked ++ (loadStep env wallet input.1 load input.2).2.2.filterMap (Command.asks? wallet)
  | _ => asked

/-- What is left to ask, in the state of the load, makes up the sequence `peers` with what was asked. -/
def Follows (peers : List PeerId) (asked : List PeerId) : LoadProgress → Prop
  | .goesOn .providers => False
  | .goesOn (.subscribing peers' _ _) =>
    asked = [] ∧ (LoadingState.start peers').results.map List.reduceOption = some peers
  | .goesOn (.selecting st _ _) =>
    st.results.map (fun results => asked ++ results.reduceOption) = some peers
  | .goesOn (.requesting st _ _) =>
    st.results.map (fun results => asked ++ results.reduceOption) = some peers
  | .returned _ => asked <+: peers
  | .panicked => False

variable {env wallet} {peers asked : List PeerId}

/-- Asking the next peer. -/
theorem follows_queryFrom {st : LoadingState} {epoch : U256} {owner : Address}
    (h : Follows peers asked (.goesOn (.selecting st epoch owner))) :
    (∃ st', st.queryFrom = some (st', none) ∧ asked <+: peers) ∨
      ∃ st' peerId, st.queryFrom = some (st', some peerId) ∧
        Follows peers (asked ++ [peerId]) (.goesOn (.requesting st' epoch owner)) := by
  obtain ⟨results, hresults, hpeers⟩ := Option.map_eq_some_iff.mp h
  rcases LoadingState.results_cases hresults with
    ⟨st', hquery, -⟩ | ⟨st', peerId, results', hquery, hresults', rfl⟩
  · exact .inl ⟨st', hquery, _, hpeers⟩
  · refine .inr ⟨st', peerId, hquery, ?_⟩
    rw [List.reduceOption_cons_of_some] at hpeers
    show st'.results.map _ = some peers
    rw [hresults', Option.map_some, List.append_assoc]
    exact congrArg some hpeers

/-- A load that asks nobody in a step has as much left to ask as before. -/
theorem Follows.selecting {st st' : LoadingState} {epoch : U256} {owner : Address}
    (h : Follows peers asked (.goesOn (.selecting st epoch owner)))
    (hsame : st'.results = st.results) :
    Follows peers (asked ++ []) (.goesOn (.selecting st' epoch owner)) := by
  show st'.results.map _ = some peers
  rw [hsame, List.append_nil]
  exact h

/-- A step of a load takes its next peer from the sequence, and does not panic. -/
theorem Follows.step {progress : LoadProgress} (h : Follows peers asked progress)
    (input : Storage × Answer) : Follows peers (note env wallet asked progress input)
      (LoadProgress.step env wallet progress input) := by
  obtain ⟨s, answer⟩ := input
  cases progress with
  | returned ok => exact h
  | panicked => exact h
  | goesOn load =>
    simp only [LoadProgress.step, note]
    cases load with
    | providers => exact h.elim
    | subscribing peers' epoch owner =>
      obtain ⟨rfl, hpeers⟩ := h
      cases answer with
      | subscribed ok =>
        cases ok with
        | false => exact List.nil_prefix
        | true => simpa [Follows, loadStep, LoadingState.start, Function.comp_def] using hpeers
      | _ => exact ⟨rfl, hpeers⟩
    | selecting st epoch owner =>
      have hbegins : asked ++ [] <+: peers := by
        obtain ⟨results, -, hresults⟩ := Option.map_eq_some_iff.mp h
        rw [List.append_nil]
        exact ⟨_, hresults⟩
      cases answer with
      | event event =>
        cases event with
        | commitRequest sender rid request =>
          cases request with
          | wantHistory w => exact h.selecting rfl
          | update w cs last =>
            cases last with
            | true => exact h.selecting (LoadingState.results_withState st .ended)
            | false => exact h.selecting rfl
        | _ => exact h.selecting rfl
      | interval timeoutOver =>
        simp only [loadStep]
        split
        · exact hbegins
        · split
          · obtain ⟨st', hquery, -⟩ | ⟨st', peerId, hquery, hfollows⟩ := follows_queryFrom h
            · rw [hquery]
              exact hbegins
            · rw [hquery]
              simpa [Command.asks?] using hfollows
          · exact h.selecting rfl
      | _ => exact h.selecting rfl
    | requesting st epoch owner =>
      cases answer with
      | commit response =>
        refine Follows.selecting h ?_
        split
        · exact LoadingState.results_withState st .inProgress
        · rfl
      | _ =>
        show st.results.map (fun results => asked ++ [] ++ results.reduceOption) = some peers
        rw [List.append_nil]
        exact h

end LoadProgress

namespace Load

/-- The load from its subscription on, with the peers that it has asked. -/
def observed (env : Env Hash) (wallet : Address) (peers : List PeerId) (epoch : U256)
    (owner : Address) (inputs : List (Storage × Answer)) : List PeerId × LoadProgress :=
  Run.final (Run.watch (LoadProgress.step env wallet) (LoadProgress.note env wallet))
    ([], .goesOn (.subscribing peers epoch owner)) inputs

variable {env wallet} {peers : List PeerId} {epoch : U256} {owner : Address}

theorem reduceOption_schedule (n : ℕ) (peers : List PeerId) :
    (peers.flatMap (fun p => List.replicate n (some p)) ++ [none]).reduceOption =
      peers.flatMap (List.replicate n) := by
  have hreplicate : ∀ p : PeerId, (List.replicate n (some p)).reduceOption = List.replicate n p :=
    fun p => List.filterMap_replicate_of_some rfl
  rw [List.reduceOption_append]
  induction peers with
  | nil => rfl
  | cons p peers ih =>
    rw [List.flatMap_cons, List.reduceOption_append, List.append_assoc, ih, List.flatMap_cons,
      hreplicate]

/-- Whatever a load is handed, it asks a beginning of the sequence, and does not panic. -/
theorem observed_asked (inputs : List (Storage × Answer)) :
    (observed env wallet peers epoch owner inputs).1 <+: peers.flatMap (List.replicate 4) ∧
      (observed env wallet peers epoch owner inputs).2 ≠ .panicked := by
  have hstep : ∀ (x : List PeerId × LoadProgress) (input : Storage × Answer),
      x.2.Follows (peers.flatMap (List.replicate 4)) x.1 → True →
        (Run.watch (LoadProgress.step env wallet) (LoadProgress.note env wallet) x input).2.Follows
          (peers.flatMap (List.replicate 4))
          (Run.watch (LoadProgress.step env wallet) (LoadProgress.note env wallet) x input).1 :=
    fun _ input h _ => h.step input
  have hstart : LoadProgress.Follows (peers.flatMap (List.replicate 4)) []
      (.goesOn (.subscribing peers epoch owner)) := by
    refine ⟨rfl, ?_⟩
    rw [LoadingState.results_start, Option.map_some, reduceOption_schedule]
  let x : List PeerId × LoadProgress := ([], .goesOn (.subscribing peers epoch owner))
  have hfollows := Run.final_inv (s := x) hstep hstart (Run.always_trivial _ inputs)
  generalize hend : observed env wallet peers epoch owner inputs = y
  have hy : y.2.Follows (peers.flatMap (List.replicate 4)) y.1 := hend ▸ hfollows
  obtain ⟨asked, progress⟩ := y
  cases progress with
  | panicked => exact hy.elim
  | returned ok => exact ⟨hy, by rintro ⟨⟩⟩
  | goesOn load =>
    refine ⟨?_, by rintro ⟨⟩⟩
    cases load with
    | providers => exact hy.elim
    | subscribing peers' epoch owner =>
      obtain ⟨rfl, -⟩ := hy
      exact List.nil_prefix
    | selecting st epoch owner =>
      obtain ⟨results, -, hresults⟩ := Option.map_eq_some_iff.mp hy
      exact ⟨_, hresults⟩
    | requesting st epoch owner =>
      obtain ⟨results, -, hresults⟩ := Option.map_eq_some_iff.mp hy
      exact ⟨_, hresults⟩

/-- The interval ticks, and the request that the load then makes fails; `n` times. -/
def failures (n : ℕ) : List (Storage × Answer) :=
  (List.replicate n [(Storage.new, Answer.interval false), (Storage.new, .commit none)]).flatten

/-- A pending load whose requests all fail asks everything that is left to ask. -/
theorem failures_asked {st : LoadingState} {results : List (Option PeerId)}
    (h : st.results = some results) (hpending : st.state = .pending) (asked : List PeerId) :
    (Run.final (Run.watch (LoadProgress.step env wallet) (LoadProgress.note env wallet))
        (asked, .goesOn (.selecting st epoch owner)) (failures results.length)).1 =
      asked ++ results.reduceOption := by
  induction results generalizing st asked with
  | nil => exact (List.append_nil asked).symm
  | cons result results ih =>
    have hfailures : failures (result :: results).length =
        (Storage.new, Answer.interval false) :: (Storage.new, .commit none) ::
          failures results.length := rfl
    rw [hfailures, Run.final_cons, Run.final_cons]
    rcases LoadingState.results_cases h with
      ⟨st', hquery, hresults⟩ | ⟨st', peerId, results', hquery, hresults', hresults⟩
    · obtain ⟨rfl, rfl⟩ := List.cons.inj hresults
      simp [Run.watch, LoadProgress.step, LoadProgress.note, loadStep, hpending, hquery, failures]
    · obtain ⟨rfl, rfl⟩ := List.cons.inj hresults
      have hnext := ih hresults' ((LoadingState.queryFrom_state hquery).trans hpending)
        (asked ++ [peerId])
      simpa [Run.watch, LoadProgress.step, LoadProgress.note, loadStep, hpending, hquery,
        Command.asks?] using hnext

/-- A load can ask every peer four times. -/
theorem observed_failures : (observed env wallet peers epoch owner
    ((Storage.new, .subscribed true) :: failures (4 * peers.length + 1))).1 =
      peers.flatMap (List.replicate 4) := by
  have hlength : (peers.flatMap (fun p => List.replicate 4 (some p)) ++ [none]).length =
      4 * peers.length + 1 := by
    simp [List.length_flatMap, Nat.mul_comm]
  show (Run.final (Run.watch (LoadProgress.step env wallet) (LoadProgress.note env wallet))
    ([], .goesOn (.selecting (.start peers) epoch owner)) (failures (4 * peers.length + 1))).1 = _
  rw [← hlength, failures_asked (LoadingState.results_start peers) rfl, reduceOption_schedule]
  exact List.nil_append _

/-! ## Three requests to a peer -/

/-- Every peer is asked three times in a row, in the order of the list, and the load sends no more
requests than that. -/
structure Rotates (env : Env Hash) (wallet : Address) (peers : List PeerId) (epoch : U256)
    (owner : Address) : Prop where
  results : (LoadingState.start peers).results =
    some (peers.flatMap (fun p => List.replicate 3 (some p)) ++ [none])
  requests : ∀ inputs,
    (observed env wallet peers epoch owner inputs).1.length ≤ 3 * peers.length
  runs : ∀ inputs, (observed env wallet peers epoch owner inputs).2 ≠ .panicked

/-- The rotation is as it should be only where there is nobody to ask. -/
theorem rotates_iff (env : Env Hash) (wallet : Address) (peers : List PeerId) (epoch : U256)
    (owner : Address) : Rotates env wallet peers epoch owner ↔ peers = [] := by
  constructor
  · intro h
    have hmany := h.requests ((Storage.new, .subscribed true) :: failures (4 * peers.length + 1))
    rw [observed_failures] at hmany
    have hlength : (peers.flatMap (List.replicate 4)).length = 4 * peers.length := by
      simp [List.length_flatMap, Nat.mul_comm]
    rw [hlength] at hmany
    exact List.length_eq_zero_iff.mp (by omega)
  · rintro rfl
    refine ⟨LoadingState.results_start [], ?_, fun inputs => (observed_asked inputs).2⟩
    intro inputs
    have hbegins : (observed env wallet [] epoch owner inputs).1 <+: [] :=
      (observed_asked inputs).1
    rw [List.prefix_nil.mp hbegins]
    exact Nat.zero_le _

/-- The only peer is asked four times. -/
theorem not_rotates_onePeer :
    ¬ ∀ peers : List PeerId, Rotates plainEnv 8 peers 1 7 := by
  intro h
  have hresults := (h [⟨[2]⟩]).results
  rw [LoadingState.results_start] at hresults
  exact absurd hresults (by decide)

end Load

end Dse
