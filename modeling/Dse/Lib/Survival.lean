import Mathlib.Data.List.Basic
import Mathlib.Data.List.Induction

/-!
# Records that events bring and take away

Events bear records and kill them. A record survives a list of events when it was there at the start
or is born by one of them, and is not killed later. Whether a record survives depends on the order
only when it is contested, born by one event and killed by another: a record that no event kills is
settled and survives every order. So what a query finds among the survivors is the same for every
order exactly when a settled record answers for every contested one.
-/

namespace Survival

variable {ρ ε : Type*} (init : ρ → Prop) (born kill : ρ → ε → Prop)

/-- The record is there after the events. -/
def Survives (es : List ε) (p : ρ) : Prop :=
  (init p ∧ ∀ k ∈ es, ¬ kill p k) ∨
    ∃ pre b post, es = pre ++ b :: post ∧ born p b ∧ ∀ k ∈ post, ¬ kill p k

/-- The record is there or is born, and nothing kills it. -/
def Settled (es : List ε) (p : ρ) : Prop :=
  (init p ∨ ∃ b ∈ es, born p b) ∧ ∀ k ∈ es, ¬ kill p k

/-- The record is born, and something kills it. -/
def Contested (es : List ε) (p : ρ) : Prop :=
  (∃ b ∈ es, born p b) ∧ ∃ k ∈ es, kill p k

variable {init born kill} {es es' : List ε} {p : ρ}

@[simp] theorem survives_nil : Survives init born kill [] p ↔ init p := by
  simp [Survives]

/-- One more event kills what it kills and adds what it bears. -/
theorem survives_concat {e : ε} : Survives init born kill (es ++ [e]) p ↔
    (Survives init born kill es p ∧ ¬ kill p e) ∨ born p e := by
  constructor
  · rintro (⟨hi, hk⟩ | ⟨pre, b, post, heq, hb, hk⟩)
    · exact .inl ⟨.inl ⟨hi, fun k hmem => hk k (List.mem_append_left _ hmem)⟩,
        hk e (by simp)⟩
    · rcases List.eq_nil_or_concat post with rfl | ⟨post, k, rfl⟩
      · obtain ⟨-, rfl⟩ := List.append_inj' heq rfl |>.imp_right List.singleton_inj.mp
        exact .inr hb
      · rw [List.concat_eq_append, ← List.cons_append, ← List.append_assoc] at heq
        obtain ⟨rfl, rfl⟩ := List.append_inj' heq rfl |>.imp_right List.singleton_inj.mp
        refine .inl ⟨.inr ⟨pre, b, post, rfl, hb, fun k hmem => hk k ?_⟩, hk e ?_⟩
        · simp [hmem]
        · simp
  · rintro (⟨⟨hi, hk⟩ | ⟨pre, b, post, rfl, hb, hk⟩, he⟩ | hb)
    · refine .inl ⟨hi, fun k hmem => ?_⟩
      rcases List.mem_append.mp hmem with hmem | hmem
      · exact hk k hmem
      · exact List.mem_singleton.mp hmem ▸ he
    · refine .inr ⟨pre, b, post ++ [e], by simp, hb, fun k hmem => ?_⟩
      rcases List.mem_append.mp hmem with hmem | hmem
      · exact hk k hmem
      · exact List.mem_singleton.mp hmem ▸ he
    · exact .inr ⟨es, e, [], rfl, hb, by simp⟩

/-- An event that kills nothing adds what it bears and the rest does not kill. -/
theorem survives_middle {b : ε} (hb : ∀ q, ¬ kill q b) :
    Survives init born kill (es ++ b :: es') p ↔
      Survives init born kill (es ++ es') p ∨ born p b ∧ ∀ k ∈ es', ¬ kill p k := by
  induction es' using List.reverseRecOn with
  | nil => simp [survives_concat, hb]
  | append_singleton es' e ih =>
    rw [← List.cons_append, ← List.append_assoc, survives_concat, ih, ← List.append_assoc,
      survives_concat]
    simp only [List.mem_append, List.mem_singleton, or_imp, forall_and, forall_eq]
    tauto

/-- A settled record survives. -/
theorem Settled.survives (h : Settled init born kill es p) : Survives init born kill es p := by
  obtain ⟨hi | ⟨b, hmem, hb⟩, hk⟩ := h
  · exact .inl ⟨hi, hk⟩
  · obtain ⟨pre, post, rfl⟩ := List.append_of_mem hmem
    exact .inr ⟨pre, b, post, rfl, hb, fun k h => hk k (by simp [h])⟩

/-- A survivor is settled or contested. -/
theorem Survives.settled_or_contested (h : Survives init born kill es p) :
    Settled init born kill es p ∨ Contested born kill es p := by
  by_cases hk : ∃ k ∈ es, kill p k
  · obtain ⟨k, hmem, hkill⟩ := hk
    rcases h with ⟨-, hno⟩ | ⟨pre, b, post, rfl, hb, -⟩
    · exact absurd hkill (hno k hmem)
    · exact .inr ⟨⟨b, by simp, hb⟩, k, hmem, hkill⟩
  · have hno : ∀ k ∈ es, ¬ kill p k := fun k hmem hkill => hk ⟨k, hmem, hkill⟩
    rcases h with ⟨hi, -⟩ | ⟨pre, b, post, rfl, hb, -⟩
    · exact .inl ⟨.inl hi, hno⟩
    · exact .inl ⟨.inr ⟨b, by simp, hb⟩, hno⟩

/-- What is settled depends on the events alone, not on their order. -/
theorem Settled.congr (h : Settled init born kill es p) (he : ∀ e, e ∈ es ↔ e ∈ es') :
    Settled init born kill es' p := by
  refine ⟨h.1.imp_right fun ⟨b, hmem, hb⟩ => ⟨b, (he b).mp hmem, hb⟩, fun k hmem => ?_⟩
  exact h.2 k ((he k).mpr hmem)

theorem Contested.congr (h : Contested born kill es p) (he : ∀ e, e ∈ es ↔ e ∈ es') :
    Contested born kill es' p := by
  obtain ⟨⟨b, hb, hborn⟩, k, hk, hkill⟩ := h
  exact ⟨⟨b, (he b).mp hb, hborn⟩, k, (he k).mp hk, hkill⟩

/-- In an order in which all that kills comes last, only settled records survive. -/
theorem Survives.settled_of_append {ks : List ε} (hks : ∀ k ∈ ks, ∀ q, ¬ born q k)
    (hkill : ∀ k ∈ es, ∀ q, kill q k → k ∈ ks) (h : Survives init born kill (es ++ ks) p) :
    Settled init born kill es p := by
  have hno : (∀ k ∈ ks, ¬ kill p k) → ∀ k ∈ es, ¬ kill p k :=
    fun hk k hmem hkp => hk k (hkill k hmem p hkp) hkp
  rcases h with ⟨hi, hk⟩ | ⟨pre, b, post, heq, hb, hk⟩
  · exact ⟨.inl hi, fun k hmem => hk k (List.mem_append_left _ hmem)⟩
  · rcases List.append_eq_append_iff.mp heq with ⟨as, rfl, has⟩ | ⟨bs, rfl, hbs⟩
    · -- the birth is among the events that kill
      exact absurd hb (hks b (by rw [has]; simp) p)
    · cases bs with
      | nil => exact absurd hb (hks b (by rw [← List.nil_append ks, ← hbs]; simp) p)
      | cons b' bs =>
        rw [List.cons_append, List.cons.injEq] at hbs
        obtain ⟨rfl, rfl⟩ := hbs
        exact ⟨.inr ⟨b, by simp, hb⟩, hno fun k hmem => hk k (List.mem_append_right _ hmem)⟩

/-- A query among the survivors has the same outcome for every order of the same events, with
repetitions, exactly when a settled record answers whenever a contested one does. -/
theorem order_independent_iff {ι : Type*} {found : ρ → ι → Prop}
    (hdisj : ∀ e p q, born p e → ¬ kill q e) (es : List ε) :
    (∀ l₁ l₂ : List ε, (∀ e, e ∈ l₁ ↔ e ∈ es) → (∀ e, e ∈ l₂ ↔ e ∈ es) → ∀ i,
        (∃ p, Survives init born kill l₁ p ∧ found p i) ↔
          ∃ p, Survives init born kill l₂ p ∧ found p i) ↔
      ∀ p, Contested born kill es p → ∀ i, found p i →
        ∃ q, Settled init born kill es q ∧ found q i := by
  classical
  constructor
  · intro h p hp i hi
    obtain ⟨⟨b, hmem, hb⟩, -⟩ := hp
    -- the birth comes last in one order, and everything that kills in the other
    have hlast : Survives init born kill (es ++ [b]) p := survives_concat.mpr (.inr hb)
    obtain ⟨q, hq, hqi⟩ := (h (es ++ [b]) (es ++ es.filter fun k => decide (∃ q, kill q k))
      (by simp [hmem]) (by simp +contextual) i).mp ⟨p, hlast, hi⟩
    refine ⟨q, Survives.settled_of_append (fun k hk r hr => ?_) (fun k hk r hr => ?_) hq, hqi⟩
    · obtain ⟨q', hq'⟩ := of_decide_eq_true (List.mem_filter.mp hk).2
      exact hdisj k r q' hr hq'
    · exact List.mem_filter.mpr ⟨hk, decide_eq_true ⟨r, hr⟩⟩
  · intro h l₁ l₂ h₁ h₂ i
    have hall : ∀ l l' : List ε, (∀ e, e ∈ l ↔ e ∈ es) → (∀ e, e ∈ l' ↔ e ∈ es) →
        (∃ p, Survives init born kill l p ∧ found p i) →
          ∃ p, Survives init born kill l' p ∧ found p i := by
      rintro l l' hl hl' ⟨p, hp, hi⟩
      rcases hp.settled_or_contested with hs | hc
      · exact ⟨p, ((hs.congr hl).congr fun e => (hl' e).symm).survives, hi⟩
      · obtain ⟨q, hq, hqi⟩ := h p (hc.congr hl) i hi
        exact ⟨q, (hq.congr fun e => (hl' e).symm).survives, hqi⟩
    exact ⟨hall l₁ l₂ h₁ h₂, hall l₂ l₁ h₂ h₁⟩

end Survival
