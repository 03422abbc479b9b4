import Dse.Wallet.Contract

/-!
# What the three batch loops do

Each loop is described once, in closed form, by a structure that says everything a completed loop
did: the total it added up, which fields it left alone, which records it wrote and what it had
checked. The proofs about transactions use these structures and never look into a loop body again.
-/

namespace Dse

variable {Hash : Type} [DecidableEq Hash] (evm : Evm Hash)

/-! ## `redeemdType2` -/

/-- The owner signed the commitment of the record to `toAddress`, and its invalidating message. -/
def RedeemRecord.SignedBy (wallet : Wallet Hash) (toAddress : Address) (r : RedeemRecord) : Prop :=
  evm.recover (evm.keccak256 (type2Blob r.index wallet.currentEpoch r.u wallet.owner toAddress))
      r.commitSignature = wallet.owner ∧
    evm.recover (evm.invalidatingHash r.u) r.invalidatingSignature = wallet.owner

instance (wallet : Wallet Hash) (toAddress : Address) (r : RedeemRecord) :
    Decidable (r.SignedBy evm wallet toAddress) :=
  inferInstanceAs (Decidable (_ ∧ _))

/-- The keys that the records of a batch claim. -/
def redeemKeys (epoch : U256) (rs : List RedeemRecord) : List Hash :=
  rs.map fun r => evm.claimIdentifier r.index epoch

/-- What a completed loop of `redeemdType2` did to the storage and `totalAmount`. -/
structure Redeemed (toAddress : Address) (st : Wallet Hash × U256) (rs : List RedeemRecord)
    (st' : Wallet Hash × U256) : Prop where
  total : st'.2.toNat = st.2.toNat + rs.length * st.1.indexValue.toNat
  frame : st'.1 = { st.1 with claimed := st'.1.claimed }
  claimed : ∀ k, st'.1.claimed k = true ↔
    st.1.claimed k = true ∨ k ∈ redeemKeys evm st.1.currentEpoch rs
  nodup : (redeemKeys evm st.1.currentEpoch rs).Nodup
  fresh : ∀ k ∈ redeemKeys evm st.1.currentEpoch rs,
    st.1.claimed k = false ∧ st.1.burnBufferTime k = 0
  signed : ∀ r ∈ rs, r.SignedBy evm st.1 toAddress

variable {evm}

theorem redeemRecord_eq_some {toAddress : Address} {st st' : Wallet Hash × U256}
    {r : RedeemRecord} : redeemRecord evm toAddress st r = some st' ↔
      st.1.burnBufferTime (evm.claimIdentifier r.index st.1.currentEpoch) = 0 ∧
      st.1.claimed (evm.claimIdentifier r.index st.1.currentEpoch) = false ∧
      r.SignedBy evm st.1 toAddress ∧
      st.2.toNat + st.1.indexValue.toNat = st'.2.toNat ∧
      st'.1 = { st.1 with
        claimed :=
          Function.update st.1.claimed (evm.claimIdentifier r.index st.1.currentEpoch) true } := by
  obtain ⟨wallet, totalAmount⟩ := st
  obtain ⟨wallet', totalAmount'⟩ := st'
  simp only [redeemRecord, RedeemRecord.SignedBy, Option.bind_eq_bind, Option.bind_eq_some_iff,
    revertIf_eq_some, Word.add?_eq_some, Option.some.injEq, Prod.mk.injEq]
  constructor
  · rintro ⟨-, h1, -, h2, -, h3, total, ht, rfl, rfl⟩
    simp only [not_or, not_not, Bool.not_eq_true, ne_eq] at h1 h2 h3
    exact ⟨h1.1, h1.2, ⟨h2, h3⟩, ht, rfl⟩
  · rintro ⟨h1, h1', ⟨h2, h3⟩, ht, rfl⟩
    refine ⟨(), ?_, (), not_not.mpr h2, (), not_not.mpr h3, totalAmount', ht, rfl, rfl⟩
    simp [h1, h1']

theorem redeemLoop_spec {toAddress : Address} {st st' : Wallet Hash × U256}
    {rs : List RedeemRecord} (h : redeemLoop evm toAddress st rs = some st') :
    Redeemed evm toAddress st rs st' := by
  unfold redeemLoop at h
  induction rs generalizing st with
  | nil =>
    obtain rfl := Option.some.inj h
    exact ⟨by simp, rfl, by simp [redeemKeys], List.nodup_nil, by simp [redeemKeys], by simp⟩
  | cons r rs ih =>
    rw [List.foldlM_cons] at h
    obtain ⟨st1, h1, h2⟩ := Option.bind_eq_some_iff.mp h
    obtain ⟨hb, hc, hsig, ht, hw⟩ := redeemRecord_eq_some.mp h1
    have ih := ih h2
    obtain ⟨w1, a1⟩ := st1
    subst hw
    change _ = a1.toNat at ht
    set k := evm.claimIdentifier r.index st.1.currentEpoch with hk
    have hkeys : redeemKeys evm st.1.currentEpoch (r :: rs) =
        k :: redeemKeys evm st.1.currentEpoch rs := rfl
    have hfresh : ∀ k' ∈ redeemKeys evm st.1.currentEpoch rs,
        k' ≠ k ∧ st.1.claimed k' = false ∧ st.1.burnBufferTime k' = 0 := by
      intro k' hk'
      obtain ⟨hc', hb'⟩ := ih.fresh k' hk'
      have hne : k' ≠ k := by
        rintro rfl
        simp at hc'
      exact ⟨hne, by simpa [Function.update_of_ne hne] using hc', hb'⟩
    refine ⟨?_, ih.frame, ?_, ?_, ?_, ?_⟩
    · have := ih.total
      simp only [List.length_cons, Nat.add_mul, Nat.one_mul] at this ⊢
      omega
    · intro k'
      rw [ih.claimed, hkeys, List.mem_cons]
      by_cases hne : k' = k
      · simp [hne]
      · simp [hne]
    · rw [hkeys, List.nodup_cons]
      exact ⟨fun hin => (hfresh k hin).1 rfl, ih.nodup⟩
    · intro k' hk'
      rw [hkeys] at hk'
      rcases List.mem_cons.mp hk' with rfl | hk'
      · exact ⟨hc, hb⟩
      · exact (hfresh k' hk').2
    · intro r' hr'
      rcases List.mem_cons.mp hr' with rfl | hr'
      · exact hsig
      · exact ih.signed r' hr'

omit [DecidableEq Hash] in
/-- A batch is worth one `indexValue` for each record. -/
theorem Redeemed.amount {toAddress : Address} {wallet : Wallet Hash} {rs : List RedeemRecord}
    {st' : Wallet Hash × U256} (h : Redeemed evm toAddress (wallet, 0) rs st') :
    st'.2.toNat = rs.length * wallet.indexValue.toNat :=
  h.total.trans (Nat.zero_add _)

variable (evm) in
/-- What the loop of `redeemdType2` asks of a batch. -/
structure Redeemable (toAddress : Address) (st : Wallet Hash × U256) (rs : List RedeemRecord) :
    Prop where
  nodup : (redeemKeys evm st.1.currentEpoch rs).Nodup
  fresh : ∀ k ∈ redeemKeys evm st.1.currentEpoch rs,
    st.1.claimed k = false ∧ st.1.burnBufferTime k = 0
  signed : ∀ r ∈ rs, r.SignedBy evm st.1 toAddress
  fits : st.2.toNat + rs.length * st.1.indexValue.toNat < 2 ^ 256

/-- The loop completes exactly on the batches that it asks for. -/
theorem redeemLoop_isSome {toAddress : Address} {st : Wallet Hash × U256} {rs : List RedeemRecord} :
    (redeemLoop evm toAddress st rs).isSome ↔ Redeemable evm toAddress st rs := by
  constructor
  · intro h
    obtain ⟨st', h⟩ := Option.isSome_iff_exists.mp h
    have hl := redeemLoop_spec h
    exact ⟨hl.nodup, hl.fresh, hl.signed, hl.total ▸ st'.2.isLt⟩
  · intro h
    unfold redeemLoop
    induction rs generalizing st with
    | nil => rfl
    | cons r rs ih =>
      obtain ⟨hin, hnodup⟩ := List.nodup_cons.mp h.nodup
      have hfresh := h.fresh _ List.mem_cons_self
      obtain ⟨hsum, hfits⟩ := Word.fits_succ h.fits
      have hfirst : redeemRecord evm toAddress st r = some ({ st.1 with
          claimed := Function.update st.1.claimed
            (evm.claimIdentifier r.index st.1.currentEpoch) true }, st.2 + st.1.indexValue) :=
        redeemRecord_eq_some.mpr
          ⟨hfresh.2, hfresh.1, h.signed r List.mem_cons_self, hsum.symm, rfl⟩
      rw [List.foldlM_cons, hfirst, Option.bind_eq_bind, Option.bind_some]
      refine ih ⟨hnodup, fun k hk => ?_,
        fun r' hr' => h.signed r' (List.mem_cons_of_mem _ hr'), hfits⟩
      · have hne : k ≠ evm.claimIdentifier r.index st.1.currentEpoch := by
          rintro rfl
          exact hin hk
        obtain ⟨hc, hb⟩ := h.fresh k (List.mem_cons_of_mem _ hk)
        exact ⟨(Function.update_of_ne hne _ _).trans hc, hb⟩

/-! ## `burnCommits` -/

variable (evm)

/-- The keys that the records of a batch put in the burn buffer. -/
def burnKeys (epoch : U256) (rs : List BurnRecord) : List Hash :=
  rs.map fun r => evm.claimIdentifier r.index epoch

/-- The owner signed the commitment of the record. -/
def BurnRecord.SignedBy (wallet : Wallet Hash) (toAddress : Address) (r : BurnRecord) : Prop :=
  evm.recover (evm.keccak256 (r.blob wallet toAddress)) r.commitSignature = wallet.owner

instance (wallet : Wallet Hash) (toAddress : Address) (r : BurnRecord) :
    Decidable (r.SignedBy evm wallet toAddress) :=
  inferInstanceAs (Decidable (_ = _))

/-- The burn buffer holds, under the key of `r`, what `r` says. -/
def BurnRecord.StoredIn (wallet : Wallet Hash) (toAddress : Address) (wallet' : Wallet Hash)
    (r : BurnRecord) : Prop :=
  r.bTime wallet =
      some (wallet'.burnBufferTime (evm.claimIdentifier r.index wallet.currentEpoch)) ∧
    wallet'.burnBufferIBlob (evm.claimIdentifier r.index wallet.currentEpoch) =
      evm.invalidatingHash r.u ∧
    wallet'.burnBufferIAddress (evm.claimIdentifier r.index wallet.currentEpoch) =
      r.iAddress wallet toAddress

/-- What a completed loop of `burnCommits` did to the storage and `totalBurn`. -/
structure Burned (toAddress : Address) (st : Wallet Hash × U256) (rs : List BurnRecord)
    (st' : Wallet Hash × U256) : Prop where
  total : st'.2.toNat = st.2.toNat + rs.length * st.1.indexValue.toNat
  frame : st'.1 = { st.1 with
    burnBufferTime := st'.1.burnBufferTime
    burnBufferIBlob := st'.1.burnBufferIBlob
    burnBufferIAddress := st'.1.burnBufferIAddress }
  others : ∀ k, k ∉ burnKeys evm st.1.currentEpoch rs →
    st'.1.burnBufferTime k = st.1.burnBufferTime k ∧
    st'.1.burnBufferIBlob k = st.1.burnBufferIBlob k ∧
    st'.1.burnBufferIAddress k = st.1.burnBufferIAddress k
  stored : ∀ k ∈ burnKeys evm st.1.currentEpoch rs, ∃ r ∈ rs,
    evm.claimIdentifier r.index st.1.currentEpoch = k ∧ r.StoredIn evm st.1 toAddress st'.1
  fresh : ∀ k ∈ burnKeys evm st.1.currentEpoch rs,
    st.1.claimed k = false ∧ st.1.burnBufferTime k = 0
  signed : ∀ r ∈ rs, r.SignedBy evm st.1 toAddress
  nodup : 0 < st.1.burnBuffer.toNat → (burnKeys evm st.1.currentEpoch rs).Nodup

variable {evm}

omit [DecidableEq Hash] in
/-- Nothing that the accounts are about changes when only the burn buffer does. -/
theorem eq_of_buffers (wal wal' : Wallet Hash) (h : wal' = { wal with
      burnBufferTime := wal'.burnBufferTime
      burnBufferIBlob := wal'.burnBufferIBlob
      burnBufferIAddress := wal'.burnBufferIAddress }) :
    wal'.claimed = wal.claimed ∧ wal'.currentEpoch = wal.currentEpoch ∧
      wal'.epochExpiresBy = wal.epochExpiresBy ∧ wal'.reserves = wal.reserves ∧
      wal'.indexValue = wal.indexValue ∧ wal'.pendingBurnAmount = wal.pendingBurnAmount := by
  rw [h]
  exact ⟨rfl, rfl, rfl, rfl, rfl, rfl⟩

omit [DecidableEq Hash] in
/-- A burn buffer above zero makes every stored buffer time nonzero. -/
theorem BurnRecord.bTime_pos {wallet : Wallet Hash} {r : BurnRecord} {b : U256}
    (h : r.bTime wallet = some b) (hpos : 0 < wallet.burnBuffer.toNat) : b ≠ 0 := by
  rintro rfl
  unfold BurnRecord.bTime at h
  split at h
  · have hsum := Word.add?_eq_some.mp h
    rw [show (0 : U256).toNat = 0 from rfl] at hsum
    omega
  · rw [Option.some.inj h] at hpos
    exact absurd hpos (lt_irrefl 0)

omit [DecidableEq Hash] in
/-- A stored buffer time never exceeds the burn buffer by more than the disadvantage buffer. -/
theorem BurnRecord.bTime_le {wallet : Wallet Hash} {r : BurnRecord} {b : U256}
    (h : r.bTime wallet = some b) :
    b.toNat ≤ wallet.burnBuffer.toNat + invDisadvantageBuffer.toNat := by
  unfold BurnRecord.bTime at h
  split at h
  · exact le_of_eq (Word.add?_eq_some.mp h).symm
  · rw [Option.some.inj h]
    omega

theorem burnRecord_eq_some {toAddress : Address} {st st' : Wallet Hash × U256}
    {r : BurnRecord} : burnRecord evm toAddress st r = some st' ↔
      st.1.burnBufferTime (evm.claimIdentifier r.index st.1.currentEpoch) = 0 ∧
      st.1.claimed (evm.claimIdentifier r.index st.1.currentEpoch) = false ∧
      r.SignedBy evm st.1 toAddress ∧
      st.2.toNat + st.1.indexValue.toNat = st'.2.toNat ∧
      ∃ b, r.bTime st.1 = some b ∧ st'.1 = { st.1 with
        burnBufferIAddress := Function.update st.1.burnBufferIAddress
          (evm.claimIdentifier r.index st.1.currentEpoch) (r.iAddress st.1 toAddress)
        burnBufferTime := Function.update st.1.burnBufferTime
          (evm.claimIdentifier r.index st.1.currentEpoch) b
        burnBufferIBlob := Function.update st.1.burnBufferIBlob
          (evm.claimIdentifier r.index st.1.currentEpoch) (evm.invalidatingHash r.u) } := by
  obtain ⟨wallet, totalBurn⟩ := st
  obtain ⟨wallet', totalBurn'⟩ := st'
  simp only [burnRecord, BurnRecord.SignedBy, Option.bind_eq_bind, Option.bind_eq_some_iff,
    revertIf_eq_some, Word.add?_eq_some, Option.some.injEq, Prod.mk.injEq]
  constructor
  · rintro ⟨-, h1, b, hb, -, h2, total, ht, rfl, rfl⟩
    simp only [not_or, not_not, Bool.not_eq_true, ne_eq] at h1 h2
    exact ⟨h1.1, h1.2, h2, ht, b, hb, rfl⟩
  · rintro ⟨h1, h1', h2, ht, b, hb, rfl⟩
    refine ⟨(), ?_, b, hb, (), not_not.mpr h2, totalBurn', ht, rfl, rfl⟩
    simp [h1, h1']

theorem burnLoop_spec {toAddress : Address} {st st' : Wallet Hash × U256}
    {rs : List BurnRecord} (h : burnLoop evm toAddress st rs = some st') :
    Burned evm toAddress st rs st' := by
  unfold burnLoop at h
  induction rs generalizing st with
  | nil =>
    obtain rfl := Option.some.inj h
    exact ⟨by simp, rfl, fun _ _ => ⟨rfl, rfl, rfl⟩, by simp [burnKeys], by simp [burnKeys],
      by simp, fun _ => List.nodup_nil⟩
  | cons r rs ih =>
    rw [List.foldlM_cons] at h
    obtain ⟨st1, h1, h2⟩ := Option.bind_eq_some_iff.mp h
    obtain ⟨hb, hc, hsig, ht, b, hbt, hw⟩ := burnRecord_eq_some.mp h1
    have ih := ih h2
    obtain ⟨w1, a1⟩ := st1
    subst hw
    change _ = a1.toNat at ht
    set k := evm.claimIdentifier r.index st.1.currentEpoch with hk
    have hkeys : burnKeys evm st.1.currentEpoch (r :: rs) =
        k :: burnKeys evm st.1.currentEpoch rs := rfl
    have hfresh : ∀ k' ∈ burnKeys evm st.1.currentEpoch rs,
        st.1.claimed k' = false ∧ st.1.burnBufferTime k' = 0 := by
      intro k' hk'
      obtain ⟨hc', hb'⟩ := ih.fresh k' hk'
      by_cases hne : k' = k
      · subst hne
        exact ⟨hc, hb⟩
      · exact ⟨hc', by simpa [Function.update_of_ne hne] using hb'⟩
    refine ⟨?_, ih.frame, ?_, ?_, ?_, ?_, ?_⟩
    · have := ih.total
      simp only [List.length_cons, Nat.add_mul, Nat.one_mul] at this ⊢
      omega
    · intro k' hk'
      rw [hkeys, List.mem_cons, not_or] at hk'
      obtain ⟨e1, e2, e3⟩ := ih.others k' hk'.2
      simp only [Function.update_of_ne hk'.1] at e1 e2 e3
      exact ⟨e1, e2, e3⟩
    · intro k' hk'
      by_cases hin : k' ∈ burnKeys evm st.1.currentEpoch rs
      · -- a later record of the batch wrote under the same key
        obtain ⟨r', hr', hid, hst⟩ := ih.stored k' hin
        exact ⟨r', List.mem_cons_of_mem _ hr', hid, hst⟩
      · obtain ⟨e1, e2, e3⟩ := ih.others k' hin
        rw [hkeys] at hk'
        rcases List.mem_cons.mp hk' with rfl | hk'
        · simp only [Function.update_self] at e1 e2 e3
          exact ⟨r, List.mem_cons_self, rfl, by rw [hbt, ← e1], e2, e3⟩
        · exact absurd hk' hin
    · intro k' hk'
      rw [hkeys] at hk'
      rcases List.mem_cons.mp hk' with rfl | hk'
      · exact ⟨hc, hb⟩
      · exact hfresh k' hk'
    · intro r' hr'
      rcases List.mem_cons.mp hr' with rfl | hr'
      · exact hsig
      · exact ih.signed r' hr'
    · intro hpos
      rw [hkeys, List.nodup_cons]
      refine ⟨fun hin => ?_, ih.nodup hpos⟩
      have hb' := (ih.fresh k hin).2
      simp only [Function.update_self] at hb'
      exact BurnRecord.bTime_pos hbt hpos hb'

omit [DecidableEq Hash] in
/-- A batch is worth one `indexValue` for each record. -/
theorem Burned.amount {toAddress : Address} {wallet : Wallet Hash} {rs : List BurnRecord}
    {st' : Wallet Hash × U256} (h : Burned evm toAddress (wallet, 0) rs st') :
    st'.2.toNat = rs.length * wallet.indexValue.toNat :=
  h.total.trans (Nat.zero_add _)

variable (evm) in
/-- What the loop of `burnCommits` asks of a batch. A key may come up again only behind records
whose buffer time is zero, which read as absent. -/
structure Burnable (toAddress : Address) (st : Wallet Hash × U256) (rs : List BurnRecord) :
    Prop where
  timed : ∀ r ∈ rs, (r.bTime st.1).isSome
  apart : rs.Pairwise fun r r' => evm.claimIdentifier r.index st.1.currentEpoch =
    evm.claimIdentifier r'.index st.1.currentEpoch → r.bTime st.1 = some 0
  fresh : ∀ k ∈ burnKeys evm st.1.currentEpoch rs,
    st.1.claimed k = false ∧ st.1.burnBufferTime k = 0
  signed : ∀ r ∈ rs, r.SignedBy evm st.1 toAddress
  fits : st.2.toNat + rs.length * st.1.indexValue.toNat < 2 ^ 256

/-- In a completed loop a key comes up again only behind records whose buffer time is zero. -/
theorem burnLoop_apart {toAddress : Address} {st st' : Wallet Hash × U256} {rs : List BurnRecord}
    (h : burnLoop evm toAddress st rs = some st') : (∀ r ∈ rs, (r.bTime st.1).isSome) ∧
      rs.Pairwise fun r r' => evm.claimIdentifier r.index st.1.currentEpoch =
        evm.claimIdentifier r'.index st.1.currentEpoch → r.bTime st.1 = some 0 := by
  unfold burnLoop at h
  induction rs generalizing st with
  | nil => exact ⟨by simp, .nil⟩
  | cons r rs ih =>
    rw [List.foldlM_cons] at h
    obtain ⟨st1, h1, h2⟩ := Option.bind_eq_some_iff.mp h
    obtain ⟨-, -, -, -, b, hb, hw⟩ := burnRecord_eq_some.mp h1
    have hfresh := (burnLoop_spec h2).fresh
    obtain ⟨htimed, hapart⟩ := ih h2
    obtain ⟨w1, a1⟩ := st1
    subst hw
    refine ⟨fun r' hr' => ?_, .cons (fun r' hr' hkey => ?_) hapart⟩
    · rcases List.mem_cons.mp hr' with rfl | hr'
      · rw [hb]
        rfl
      · exact htimed r' hr'
    · -- the later record found the key free although `r` had just written its buffer time there
      have hzero := (hfresh _ (List.mem_map_of_mem hr')).2
      simp only [← hkey, Function.update_self] at hzero
      rw [hb, hzero]

/-- A completed loop keeps what it stored for a record whose buffer time is not zero. -/
theorem burnLoop_stored {toAddress : Address} {st st' : Wallet Hash × U256} {rs : List BurnRecord}
    (h : burnLoop evm toAddress st rs = some st') {r : BurnRecord} (hr : r ∈ rs)
    (hpos : r.bTime st.1 ≠ some 0) : r.StoredIn evm st.1 toAddress st'.1 := by
  unfold burnLoop at h
  induction rs generalizing st with
  | nil => cases hr
  | cons r₀ rs ih =>
    rw [List.foldlM_cons] at h
    obtain ⟨st1, h1, h2⟩ := Option.bind_eq_some_iff.mp h
    obtain ⟨-, -, -, -, b, hb, hw⟩ := burnRecord_eq_some.mp h1
    have hrest := burnLoop_spec h2
    obtain ⟨w1, a1⟩ := st1
    subst hw
    rcases List.mem_cons.mp hr with rfl | hr
    · -- no later record of the batch finds the key free
      have hlast : evm.claimIdentifier r.index st.1.currentEpoch ∉
          burnKeys evm st.1.currentEpoch rs := by
        intro hin
        have hzero := (hrest.fresh _ hin).2
        simp only [Function.update_self] at hzero
        exact hpos (hb.trans (congrArg some hzero))
      obtain ⟨e1, e2, e3⟩ := hrest.others _ hlast
      simp only [Function.update_self] at e1 e2 e3
      exact ⟨by rw [hb, ← e1], e2, e3⟩
    · have hstored := ih h2 hr hpos
      exact hstored

/-- The loop completes exactly on the batches that it asks for. -/
theorem burnLoop_isSome {toAddress : Address} {st : Wallet Hash × U256} {rs : List BurnRecord} :
    (burnLoop evm toAddress st rs).isSome ↔ Burnable evm toAddress st rs := by
  constructor
  · intro h
    obtain ⟨st', h⟩ := Option.isSome_iff_exists.mp h
    have hl := burnLoop_spec h
    obtain ⟨htimed, hapart⟩ := burnLoop_apart h
    exact ⟨htimed, hapart, hl.fresh, hl.signed, hl.total ▸ st'.2.isLt⟩
  · intro h
    unfold burnLoop
    induction rs generalizing st with
    | nil => rfl
    | cons r rs ih =>
      obtain ⟨happart, hapart⟩ := List.pairwise_cons.mp h.apart
      obtain ⟨b, hb⟩ := Option.isSome_iff_exists.mp (h.timed r List.mem_cons_self)
      have hfresh := h.fresh _ List.mem_cons_self
      obtain ⟨hsum, hfits⟩ := Word.fits_succ h.fits
      have hfirst : burnRecord evm toAddress st r = some ({ st.1 with
          burnBufferIAddress := Function.update st.1.burnBufferIAddress
            (evm.claimIdentifier r.index st.1.currentEpoch) (r.iAddress st.1 toAddress)
          burnBufferTime := Function.update st.1.burnBufferTime
            (evm.claimIdentifier r.index st.1.currentEpoch) b
          burnBufferIBlob := Function.update st.1.burnBufferIBlob
            (evm.claimIdentifier r.index st.1.currentEpoch) (evm.invalidatingHash r.u) },
          st.2 + st.1.indexValue) :=
        burnRecord_eq_some.mpr
          ⟨hfresh.2, hfresh.1, h.signed r List.mem_cons_self, hsum.symm, b, hb, rfl⟩
      rw [List.foldlM_cons, hfirst, Option.bind_eq_bind, Option.bind_some]
      refine ih ⟨fun r' hr' => h.timed r' (List.mem_cons_of_mem _ hr'), hapart, fun k hk => ?_,
        fun r' hr' => h.signed r' (List.mem_cons_of_mem _ hr'), hfits⟩
      · obtain ⟨hc, ht⟩ := h.fresh k (List.mem_cons_of_mem _ hk)
        refine ⟨hc, ?_⟩
        by_cases hne : k = evm.claimIdentifier r.index st.1.currentEpoch
        · obtain ⟨r', hr', hkey⟩ := List.mem_map.mp hk
          have hzero := happart r' hr' (hne.symm.trans hkey.symm)
          rw [hb] at hzero
          rw [hne]
          exact (Function.update_self _ _ _).trans (Option.some.inj hzero)
        · exact (Function.update_of_ne hne _ _).trans ht

/-! ## `challengeBurnCommits` -/

variable [Inhabited Hash] (evm)

/-- What a completed loop of `challengeBurnCommits` did to the storage and `totalBurn`. -/
structure Challenged (timestamp : U256) (st : Wallet Hash × U256) (cs : List (ChallengeRecord Hash))
    (st' : Wallet Hash × U256) : Prop where
  total : st'.2.toNat = st.2.toNat + cs.length * st.1.indexValue.toNat
  frame : st'.1 = { st.1 with
    burnBufferTime := st'.1.burnBufferTime
    burnBufferIBlob := st'.1.burnBufferIBlob
    burnBufferIAddress := st'.1.burnBufferIAddress }
  others : ∀ k, k ∉ cs.map ChallengeRecord.commitHash →
    st'.1.burnBufferTime k = st.1.burnBufferTime k ∧
    st'.1.burnBufferIBlob k = st.1.burnBufferIBlob k ∧
    st'.1.burnBufferIAddress k = st.1.burnBufferIAddress k
  deleted : ∀ k ∈ cs.map ChallengeRecord.commitHash, st'.1.burnBufferTime k = 0 ∧
    st'.1.burnBufferIBlob k = default ∧ st'.1.burnBufferIAddress k = 0
  open_ : ∀ k ∈ cs.map ChallengeRecord.commitHash, timestamp < st.1.burnBufferTime k
  signed : ∀ c ∈ cs, evm.recover (st.1.burnBufferIBlob c.commitHash) c.signature =
    st.1.burnBufferIAddress c.commitHash
  nodup : (cs.map ChallengeRecord.commitHash).Nodup

variable {evm}

theorem challengeRecord_eq_some {timestamp : U256} {st st' : Wallet Hash × U256}
    {c : ChallengeRecord Hash} : challengeRecord evm timestamp st c = some st' ↔
      timestamp < st.1.burnBufferTime c.commitHash ∧
      evm.recover (st.1.burnBufferIBlob c.commitHash) c.signature =
        st.1.burnBufferIAddress c.commitHash ∧
      st.2.toNat + st.1.indexValue.toNat = st'.2.toNat ∧
      st'.1 = { st.1 with
        burnBufferTime := Function.update st.1.burnBufferTime c.commitHash 0
        burnBufferIBlob := Function.update st.1.burnBufferIBlob c.commitHash default
        burnBufferIAddress := Function.update st.1.burnBufferIAddress c.commitHash 0 } := by
  obtain ⟨wallet, totalBurn⟩ := st
  obtain ⟨wallet', totalBurn'⟩ := st'
  simp only [challengeRecord, Option.bind_eq_bind, Option.bind_eq_some_iff,
    revertIf_eq_some, Word.add?_eq_some, Option.some.injEq, Prod.mk.injEq]
  constructor
  · rintro ⟨-, h1, -, h2, total, ht, rfl, rfl⟩
    exact ⟨BitVec.not_le.mp h1, not_not.mp h2, ht, rfl⟩
  · rintro ⟨h1, h2, ht, rfl⟩
    exact ⟨(), BitVec.not_le.mpr h1, (), not_not.mpr h2, totalBurn', ht, rfl, rfl⟩

theorem challengeLoop_spec {timestamp : U256} {st st' : Wallet Hash × U256}
    {cs : List (ChallengeRecord Hash)} (h : challengeLoop evm timestamp st cs = some st') :
    Challenged evm timestamp st cs st' := by
  unfold challengeLoop at h
  induction cs generalizing st with
  | nil =>
    obtain rfl := Option.some.inj h
    exact ⟨by simp, rfl, fun _ _ => ⟨rfl, rfl, rfl⟩, by simp, by simp, by simp, List.nodup_nil⟩
  | cons c cs ih =>
    rw [List.foldlM_cons] at h
    obtain ⟨st1, h1, h2⟩ := Option.bind_eq_some_iff.mp h
    obtain ⟨hop, hsig, ht, hw⟩ := challengeRecord_eq_some.mp h1
    have ih := ih h2
    obtain ⟨w1, a1⟩ := st1
    subst hw
    change _ = a1.toNat at ht
    -- a deleted record reads as expired, so no later record of the batch names it
    have hne : ∀ k ∈ cs.map ChallengeRecord.commitHash, k ≠ c.commitHash := by
      rintro k hk rfl
      have := ih.open_ _ hk
      simp only [Function.update_self] at this
      exact absurd this BitVec.not_lt_zero
    refine ⟨?_, ih.frame, ?_, ?_, ?_, ?_, ?_⟩
    · have := ih.total
      simp only [List.length_cons, Nat.add_mul, Nat.one_mul] at this ⊢
      omega
    · intro k hk
      rw [List.map_cons, List.mem_cons, not_or] at hk
      obtain ⟨e1, e2, e3⟩ := ih.others k hk.2
      simp only [Function.update_of_ne hk.1] at e1 e2 e3
      exact ⟨e1, e2, e3⟩
    · intro k hk
      by_cases hin : k ∈ cs.map ChallengeRecord.commitHash
      · exact ih.deleted k hin
      · rcases List.mem_cons.mp hk with rfl | hk
        · obtain ⟨e1, e2, e3⟩ := ih.others _ hin
          rw [e1, e2, e3]
          simp
        · exact absurd hk hin
    · intro k hk
      rcases List.mem_cons.mp hk with rfl | hk
      · exact hop
      · have := ih.open_ k hk
        simpa [Function.update_of_ne (hne k hk)] using this
    · intro c' hc'
      rcases List.mem_cons.mp hc' with rfl | hc'
      · exact hsig
      · have hk := hne _ (List.mem_map_of_mem hc')
        have := ih.signed c' hc'
        simpa [Function.update_of_ne hk] using this
    · rw [List.map_cons, List.nodup_cons]
      exact ⟨fun hin => hne _ hin rfl, ih.nodup⟩

end Dse
