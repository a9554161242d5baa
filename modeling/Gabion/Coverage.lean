/-
  Which cells the repair frames of a run contain.

  Under any calls, `capacity` frames that reach the repair lane contain every cell that
  stays active meanwhile (`repair_covers_under_mutation`): each of them has the cell or
  brings the cursor closer to its slot.
-/
import Gabion.Refinement
import Gabion.Sweep

namespace Gabion

open Function Circular

namespace CellStore

variable {w : CountWidth} {pins : ℕ → Bool} {s s' : CellStore w}

/-! ## Frames of a run -/

/-- The frame a call composes. -/
def frameOf (s : CellStore w) : StoreCall w → List CellHandle
  | .fillFrame maxCells dest => (s.fillFrameFor maxCells dest).2
  | _ => []

/-- The call composes a frame whose dirty lanes leave room for the repair lane. -/
def reachesRepair (s : CellStore w) : StoreCall w → Bool
  | .fillFrame maxCells dest => s.leavesRoom (s.lacksFor dest) maxCells
  | _ => false

/-- The calls of a run, each with the store it is made on. -/
def steps (s : CellStore w) : List (StoreCall w) → List (CellStore w × StoreCall w)
  | [] => []
  | c :: cs => (s, c) :: (s.call c).steps cs

theorem call_capacity (h : s.toCellTable.Inv pins) (c : StoreCall w) :
    (s.call c).capacity = s.capacity := by
  cases c with
  | internRule d =>
    obtain ⟨-, -, -, hs⟩ := internRule_spec h d
    exact hs.capacity
  | internNode id => exact (internNode_grows h id).same.capacity
  | ingestLocal obs => exact (ingestLocal_step h obs []).capacity
  | mergeRemote obs => exact (mergeRemote_step h obs []).capacity
  | expire cur live => exact (expire_spec h cur live []).1.capacity
  | expireAt now => exact (expire_spec h (s.epochScratch now) s.liveScratch []).1.capacity
  | fillFrame maxCells dest =>
    show (s.fillFrameFor maxCells dest).1.capacity = s.capacity
    rw [fillFrameFor_eq, (sameData_fillFrame s _ maxCells).table]
  | frontier c => rfl
  | clearDirty => rfl
  | clear => exact (clearLoop_spec h s.capacity).1.capacity

/-- Only the repair lane moves the cursor, apart from `clear`. -/
theorem call_repairCursor (h : s.toCellTable.Inv pins) {c : StoreCall w} (hc : c ≠ .clear)
    (hr : s.reachesRepair c = false) : (s.call c).repairCursor = s.repairCursor := by
  cases c with
  | internRule d =>
    obtain ⟨-, -, -, hs⟩ := internRule_spec h d
    exact hs.repairCursor
  | internNode id => exact (internNode_grows h id).same.repairCursor
  | ingestLocal obs => exact (ingestLocal_step h obs []).repairCursor
  | mergeRemote obs => exact (mergeRemote_step h obs []).repairCursor
  | expire cur live => exact (expire_spec h cur live []).1.repairCursor
  | expireAt now => exact (expire_spec h (s.epochScratch now) s.liveScratch []).1.repairCursor
  | fillFrame maxCells dest =>
    show (s.fillFrameFor maxCells dest).1.repairCursor = s.repairCursor
    rw [fillFrameFor_eq]
    exact (fillFrame_full hr).2
  | frontier c => rfl
  | clearDirty => rfl
  | clear => exact absurd rfl hc

/-! ## Coverage under mutation -/

/-- A run has the cell in one of its repair frames, or all of them together have not yet
    brought the cursor to its slot. -/
theorem steps_closer (handle : CellHandle) : ∀ (calls : List (StoreCall w)) (s : CellStore w)
    (pins : ℕ → Bool), s.toCellTable.Inv pins → Lanes s →
    (∀ p ∈ s.steps calls, (p.1.resolve handle).isSome = true) →
    (∃ p ∈ s.steps calls, p.1.reachesRepair p.2 = true ∧ handle ∈ p.1.frameOf p.2) ∨
      (s.steps calls).countP (fun p => p.1.reachesRepair p.2) ≤
        dist s.capacity s.repairCursor handle.index
  | [], _, _, _, _, _ => .inr (Nat.zero_le _)
  | c :: cs, s, pins, h, hl, hlive => by
    rw [steps, List.forall_mem_cons] at hlive
    obtain ⟨hhead, htail⟩ := hlive
    obtain ⟨x, hx⟩ := Option.isSome_iff_exists.1 hhead
    obtain ⟨-, hlt, hactive, hhandle⟩ := CellTable.resolve_eq_some hx
    obtain ⟨pins', h', hl'⟩ := call_inv h hl c
    rw [steps, List.countP_cons, List.exists_mem_cons_iff]
    rcases steps_closer handle cs (s.call c) pins' h' hl' htail with hfound | hdist
    · exact .inl (.inr hfound)
    rw [call_capacity h c] at hdist
    cases hr : s.reachesRepair c with
    | true =>
      -- the call is a frame that sweeps
      cases c with
      | fillFrame maxCells dest =>
        have hcall : (s.call (.fillFrame maxCells dest)).repairCursor =
            (s.fillFrame (s.lacksFor dest) maxCells).1.repairCursor := by
          rw [← fillFrameFor_eq]; rfl
        rw [hcall] at hdist
        rcases fillFrame_closer hl hr hlt hactive with hmem | hcloser
        · refine .inl (.inl ⟨rfl, ?_⟩)
          rw [frameOf, fillFrameFor_eq, hhandle]
          exact hmem
        · exact .inr (by simp only [if_true]; omega)
      | _ => cases hr
    | false =>
      refine .inr ?_
      simp only [Bool.false_eq_true, if_false, Nat.add_zero]
      by_cases hc : c = .clear
      · -- nothing is active after a `clear`, so the run ends here
        subst hc
        cases cs with
        | nil => exact Nat.zero_le _
        | cons c' cs' =>
          obtain ⟨y, hy⟩ := Option.isSome_iff_exists.1 (htail _ (List.mem_cons_self ..))
          have ha : s.clear.isActive handle.index = true := (CellTable.resolve_eq_some hy).2.2.1
          have hsome : s.clear.view handle.index ≠ none := by
            rw [CellTable.view, if_pos ha]
            exact Option.some_ne_none _
          exact absurd ((clear_spec h).2.2 handle.index) hsome
      · rw [← call_repairCursor h hc hr]
        exact hdist

/-- Enough repair frames bring the cursor past every slot. -/
theorem steps_cover (h : s.toCellTable.Inv pins) (hl : Lanes s) {calls : List (StoreCall w)}
    (hcount : s.capacity ≤ (s.steps calls).countP fun p => p.1.reachesRepair p.2)
    {handle : CellHandle} (hlive : ∀ p ∈ s.steps calls, (p.1.resolve handle).isSome = true) :
    ∃ p ∈ s.steps calls, p.1.reachesRepair p.2 = true ∧ handle ∈ p.1.frameOf p.2 := by
  rcases steps_closer handle calls s pins h hl hlive with hfound | hdist
  · exact hfound
  · have hlt := dist_lt (b := handle.index) hl.cursor_lt
    omega

/-- **Repair coverage under mutation.**  In any run, take the calls from the first to the last of
    `capacity` frame compositions that reach the repair lane: a cell that is active all the
    time is in one of these frames. -/
theorem repair_covers_under_mutation (s : CellStore w) (hs : s.Reachable)
    (calls : List (StoreCall w))
    (hcount : s.capacity ≤ (s.steps calls).countP fun p => p.1.reachesRepair p.2)
    (handle : CellHandle)
    (hlive : ∀ p ∈ s.steps calls, (p.1.resolve handle).isSome = true) :
    ∃ p ∈ s.steps calls, p.1.reachesRepair p.2 = true ∧ handle ∈ p.1.frameOf p.2 := by
  obtain ⟨pins, h, hl⟩ := hs.inv
  exact steps_cover h hl hcount hlive

/-- A store of two cells whose rings have been cleared. -/
def quiet : Option (CellStore .u32) :=
  (new .u32 tinyConfig tinyNode).map
    (run · [.ingestLocal [tinyHits], .mergeRemote [tinyHits], .clearDirty])

theorem quiet_reachable {s : CellStore .u32} (h : quiet = some s) : s.Reachable := by
  obtain ⟨s₀, hnew, rfl⟩ := Option.map_eq_some_iff.1 h
  exact ⟨_, _, s₀, _, hnew, rfl⟩

/-- Hits are counted between two frames of one cell and one of two. -/
def quietCalls : List (StoreCall .u32) :=
  [.fillFrame 1 none, .ingestLocal [tinyHits], .fillFrame 2 (some 0)]

theorem repair_covers_quiet : ∃ s : CellStore .u32, quiet = some s ∧
    ∃ p ∈ s.steps quietCalls, p.1.reachesRepair p.2 = true ∧ ⟨1, 1⟩ ∈ p.1.frameOf p.2 := by
  have heval : quiet.map (fun s =>
      (decide (s.capacity ≤ (s.steps quietCalls).countP fun p => p.1.reachesRepair p.2),
        (s.steps quietCalls).all fun p => (p.1.resolve ⟨1, 1⟩).isSome)) = some (true, true) := by
    decide +kernel
  obtain ⟨s, hs, hvals⟩ := Option.map_eq_some_iff.1 heval
  simp only [Prod.mk.injEq, decide_eq_true_eq, List.all_eq_true] at hvals
  exact ⟨s, hs, repair_covers_under_mutation s (quiet_reachable hs) quietCalls hvals.1 ⟨1, 1⟩
    hvals.2⟩

end CellStore

end Gabion
