import Dse.Node.Proofs.DatabaseProofs
import Dse.Node.Sections

/-!
# Concurrent calls of the storage

Between its two sections a call relies on what it read: that the trade is there, which wallets are
tracked, what a history holds. No trade is ever deleted, and no call writes the tree of the tracked
wallets. So only two updates of one history can get in each other's way, and all other calls are
done as if one after another.
-/

namespace Dse

open Linear

namespace StorageCall

variable {s : Storage}

/-- The sections of a call, one right after the other, are the call. -/
theorem exec_sections (call : StorageCall) (s : Storage) :
    (call.sections.exec s).1 = call.exec s := by
  cases call with
  | updateActiveTrade trade =>
    show (Call.exec (sections (.updateActiveTrade trade)) s).1 = s.updateActiveTrade trade
    cases h : s.findActiveTrade trade.id with
    | some t => simp only [Call.exec, sections, Storage.updateActiveTrade, h]
    | none => simp only [Call.exec, sections, Storage.updateActiveTrade, h]
  | updateHistory call => cases call <;> rfl
  | _ => rfl

/-! ## What a call relies on -/

/-- No call deletes a trade. -/
theorem findActiveTrade_isSome_exec (call : StorageCall) {iid : U32}
    (h : (s.findActiveTrade iid).isSome) : ((call.exec s).findActiveTrade iid).isSome := by
  cases call with
  | addActiveTrade msg =>
    simp only [exec, Storage.findActiveTrade_addActiveTrade]
    split <;> simp [h]
  | addNewTrade trade =>
    simp only [exec, Storage.findActiveTrade_addActiveTrade]
    split <;> simp [h]
  | updateActiveTrade trade =>
    simp only [exec, Storage.findActiveTrade_updateActiveTrade]
    split <;> simp [h]
  | updateHistory call => cases call <;> exact h
  | _ => exact h

theorem getWalletsOfInterest_exec (call : StorageCall) (s : Storage) :
    (call.exec s).getWalletsOfInterest = s.getWalletsOfInterest := by
  unfold Storage.getWalletsOfInterest
  rw [exec_walletsOfInterest]

/-- A history is only written by the calls for its wallet. -/
theorem findCommitHistory_exec (call : StorageCall) {w : Address}
    (h : call.historyWallet? ≠ some w) :
    (call.exec s).findCommitHistory w = s.findCommitHistory w := by
  cases call with
  | updateActiveTrade trade =>
    simp only [exec, Storage.updateActiveTrade]
    split <;> rfl
  | updateHistory call =>
    have hne : w ≠ call.walletAddress := fun hw => h (congrArg some hw.symm)
    have hwallet : (call.modify (s.existingHistory call.walletAddress)).walletAddress =
        call.walletAddress := by
      cases call <;> exact Storage.existingHistory_walletAddress s _
    have hexec : call.exec s =
        s.putCommitHistory (call.modify (s.existingHistory call.walletAddress)) := by
      cases call <;> rfl
    show (call.exec s).findCommitHistory w = s.findCommitHistory w
    rw [hexec, Storage.findCommitHistory_putCommitHistory, hwallet, if_neg hne]
  | _ => rfl

/-- Two calls leave each other alone, unless they update the same history. -/
theorem keeps_sections (c d : StorageCall)
    (h : ∀ w, c.historyWallet? = some w → d.historyWallet? ≠ some w) :
    c.sections.Keeps d.sections := by
  cases c with
  | updateActiveTrade trade =>
    intro s write hs
    rw [exec_sections]
    have hfound : (s.findActiveTrade trade.id).isSome := by
      cases hf : s.findActiveTrade trade.id with
      | some t => rfl
      | none =>
        simp only [sections, hf] at hs
        cases hs
    obtain ⟨t, ht⟩ := Option.isSome_iff_exists.mp hfound
    obtain ⟨t', ht'⟩ := Option.isSome_iff_exists.mp (findActiveTrade_isSome_exec d hfound)
    simp only [sections, ht] at hs
    simp only [sections, ht']
    exact hs
  | addWalletOfInterest w =>
    intro s write hs
    rw [exec_sections]
    simp only [sections] at hs ⊢
    rw [getWalletsOfInterest_exec]
    exact hs
  | updateHistory call =>
    intro s write hs
    rw [exec_sections]
    have hsame : (d.exec s).existingHistory call.walletAddress =
        s.existingHistory call.walletAddress := by
      unfold Storage.existingHistory
      rw [findCommitHistory_exec d (h _ rfl)]
    simp only [sections] at hs ⊢
    rw [hsame]
    exact hs
  | _ => exact Call.keeps_of_ends (fun s => ⟨_, _, rfl⟩) _

/-! ## Interleavings -/

/-- No two of the calls update the same history. -/
theorem keeps_concurrent {calls : List StorageCall}
    (h : (calls.filterMap historyWallet?).Nodup) (i j : Fin calls.length) (hij : i ≠ j) :
    (concurrent calls i).Keeps (concurrent calls j) := by
  refine keeps_sections _ _ fun w hi hj => ?_
  have hpair := List.pairwise_iff_get.mp (List.pairwise_filterMap.mp h)
  rcases lt_or_gt_of_ne hij with hlt | hlt
  · exact hpair i j hlt w hi w hj rfl
  · exact hpair j i hlt w hj w hi rfl

/-- Whole calls one after another, by their places in the list. -/
theorem execAll_of_sequential {calls : List StorageCall} {log : List (Fin calls.length × Bool)}
    {s' : Storage} (h : Sequential (concurrent calls) s log s') :
    s' = execAll s (log.map fun entry => calls.get entry.1) := by
  induction h with
  | nil => rfl
  | @concat s₁ log h i ih =>
    have hlast : ((concurrent calls i).exec s₁).1 = (calls.get i).exec s₁ :=
      exec_sections (calls.get i) s₁
    rw [hlast, List.map_append, execAll, List.foldl_append, ih]
    rfl

/-- The storage is what the calls leave one after another, in some order. -/
def Serializable (calls : List StorageCall) (s s' : Storage) : Prop :=
  ∃ order : List StorageCall, order.Perm calls ∧ s' = execAll s order

/-- Calls of the storage, no two of which update the same history, can be interleaved in any way:
each of them takes effect as a whole, and returns what it then returns. -/
theorem linearized_of_nodup (s : Storage) (calls : List StorageCall)
    (h : (calls.filterMap historyWallet?).Nodup) (schedule : List (Fin calls.length)) :
    let x := observed (concurrent calls) s schedule
    Linearized (concurrent calls) s x.1 x.2 ∧
      ((∀ i, x.2.phase i = .done) → Serializable calls s x.2.shared) := by
  have hlin := linearized_observed (keeps_concurrent h) s schedule
  refine ⟨hlin, fun hdone => ⟨_, ?_, execAll_of_sequential hlin.sequential⟩⟩
  have hperm : ((observed (concurrent calls) s schedule).1.map Prod.fst).Perm
      (List.finRange calls.length) := by
    refine (List.perm_ext_iff_of_nodup hlin.nodup (List.nodup_finRange _)).mpr fun i => ?_
    exact iff_of_true ((hlin.mem i).mpr (hdone i)) (List.mem_finRange i)
  have hmap := hperm.map calls.get
  rw [List.map_get_finRange, List.map_map] at hmap
  exact hmap

/-- Two updates of a trade, the trade itself and two wallets, side by side. -/
def racingCalls : List StorageCall :=
  [updateActiveTrade (plainTrade .pSendT1Commit false),
    addActiveTrade (plainTrade .waitingRT1Commit false),
    updateActiveTrade (plainTrade .processingRT1Commit false), addWalletOfInterest 8,
    addWalletOfInterest 9]

/-- The first update comes too early, and ends without the trade. -/
def racingSchedule : List (Fin racingCalls.length) := ([0, 3, 1, 2, 4, 3, 4, 2] : List (Fin 5))

theorem linearized_of_nodup_racingCalls :
    let x := observed (concurrent racingCalls) .new racingSchedule
    (Linearized (concurrent racingCalls) .new x.1 x.2 ∧
      ((∀ i, x.2.phase i = .done) → Serializable racingCalls .new x.2.shared)) ∧
    x.1 = [((0 : Fin 5), false), ((1 : Fin 5), true), ((3 : Fin 5), true), ((4 : Fin 5), true),
      ((2 : Fin 5), true)] :=
  ⟨linearized_of_nodup .new racingCalls (by decide) racingSchedule, rfl⟩

end StorageCall

end Dse
