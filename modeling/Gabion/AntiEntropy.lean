/-
  Anti-entropy towards one destination.

  The dirty lanes take the first distinct cells their rings offer (`dirtyLanes_bump`), and the
  rings are never drained.  Frames for one destination reach every cell exactly when the
  offers leave room in a frame or all cells fit in one (`anti_entropy_reaches_iff`).
-/
import Gabion.Coverage
import Gabion.FrameOrder

namespace Gabion

open Function

namespace CellStore

variable {w : CountWidth} {pins : ℕ → Bool} {s s' : CellStore w}

/-! ## Dirty lanes -/

/-- What the two dirty lanes have for a destination. -/
def offered (s : CellStore w) (dest : Option ℕ) : List CellHandle :=
  s.laneOf (s.lacksFor dest) s.localDirty.toList ++
    s.laneOf (s.lacksFor dest) s.forwardedDirty.toList

theorem SameData.offered (h : SameData s s') (dest : Option ℕ) :
    s'.offered dest = s.offered dest := by
  have hlacks : s'.lacksFor dest = s.lacksFor dest := by
    cases dest with
    | none => rfl
    | some slot =>
      funext x
      simp only [lacksFor, peerLacks, h.table, h.peerFrontiers]
  unfold CellStore.offered
  rw [hlacks, h.localDirty, h.forwardedDirty, laneOf_table h.table, laneOf_table h.table]

/-- The dirty lanes of a frame take the first distinct cells they offer. -/
theorem dirtyLanes_bump (hl : Lanes s) (dest : Option ℕ) (maxCells : ℕ) :
    (s.bumpSelectionEpoch.dirtyLanes (s.lacksFor dest) maxCells).out =
      (s.offered dest).eraseDups.take maxCells :=
  (dirtyLanes_filled hl _ maxCells).out

theorem leavesRoom_iff (hl : Lanes s) (dest : Option ℕ) (maxCells : ℕ) :
    s.leavesRoom (s.lacksFor dest) maxCells = true ↔
      (s.offered dest).toFinset.card < maxCells := by
  rw [leavesRoom, decide_eq_true_iff, dirtyLanes_bump hl, List.length_take, length_eraseDups]
  omega

/-! ## Frames only -/

theorem SameData.refl (s : CellStore w) : SameData s s := ⟨rfl, rfl, rfl, rfl, rfl⟩

theorem SameData.trans {s₁ s₂ : CellStore w} (h : SameData s s₁) (h' : SameData s₁ s₂) :
    SameData s s₂ :=
  ⟨h'.1.trans h.1, h'.2.trans h.2, h'.3.trans h.3, h'.4.trans h.4, h'.5.trans h.5⟩

/-- The calls for a list of destinations. -/
def frameCalls (w : CountWidth) (maxCells : ℕ) (dests : List (Option ℕ)) : List (StoreCall w) :=
  dests.map (.fillFrame maxCells)

theorem call_fillFrame (s : CellStore w) (maxCells : ℕ) (dest : Option ℕ) :
    s.call (.fillFrame maxCells dest) = (s.fillFrame (s.lacksFor dest) maxCells).1 := by
  rw [← fillFrameFor_eq]; rfl

/-- Along frames the data stays what it was. -/
theorem steps_frames (maxCells : ℕ) : ∀ (dests : List (Option ℕ)) (s : CellStore w), Lanes s →
    ∀ p ∈ s.steps (frameCalls w maxCells dests),
      SameData s p.1 ∧ Lanes p.1 ∧ ∃ dest ∈ dests, p.2 = .fillFrame maxCells dest
  | [], _, _, _, hp => by cases hp
  | dest :: dests, s, hl, p, hp => by
    have hsame : SameData s (s.call (.fillFrame maxCells dest)) := by
      rw [call_fillFrame]
      exact sameData_fillFrame s _ maxCells
    have hl' : Lanes (s.call (.fillFrame maxCells dest)) := by
      rw [call_fillFrame]
      exact fillFrame_lanes hl _ maxCells
    rcases List.mem_cons.1 hp with rfl | hp
    · exact ⟨.refl s, hl, dest, List.mem_cons_self .., rfl⟩
    · obtain ⟨h1, h2, d, hd, h3⟩ := steps_frames maxCells dests _ hl' p hp
      exact ⟨hsame.trans h1, h2, d, List.mem_cons_of_mem _ hd, h3⟩

theorem length_steps : ∀ (calls : List (StoreCall w)) (s : CellStore w),
    (s.steps calls).length = calls.length
  | [], _ => rfl
  | c :: cs, s => congrArg Nat.succ (length_steps cs (s.call c))

/-- As many frames with room as there are slots contain every active cell. -/
theorem frames_cover (h : s.toCellTable.Inv pins) (hl : Lanes s) {maxCells : ℕ}
    {dests : List (Option ℕ)} (hlen : s.capacity ≤ dests.length)
    (hroom : ∀ dest ∈ dests, (s.offered dest).toFinset.card < maxCells) {x : ℕ}
    (hx : s.isActive x = true) :
    ∃ p ∈ s.steps (frameCalls w maxCells dests), s.handleFor x ∈ p.1.frameOf p.2 := by
  have hrepair : ∀ p ∈ s.steps (frameCalls w maxCells dests), p.1.reachesRepair p.2 = true := by
    intro p hp
    obtain ⟨hsame, hlp, dest, hdest, hcall⟩ := steps_frames maxCells dests s hl p hp
    rw [hcall, reachesRepair, leavesRoom_iff hlp, hsame.offered]
    exact hroom dest hdest
  have hlive : ∀ p ∈ s.steps (frameCalls w maxCells dests),
      (p.1.resolve (s.handleFor x)).isSome = true := by
    intro p hp
    rw [(steps_frames maxCells dests s hl p hp).1.table, h.resolve_handleFor hx]
    rfl
  obtain ⟨p, hp, -, hmem⟩ := steps_cover h hl (by
    rw [List.countP_eq_length.2 hrepair, length_steps, frameCalls, List.length_map]
    exact hlen) hlive
  exact ⟨p, hp, hmem⟩

/-! ## One destination -/

/-- Every active cell is in one of the next `n` frames for the destination. -/
def Reaches (s : CellStore w) (maxCells : ℕ) (dest : Option ℕ) (n : ℕ) : Prop :=
  ∀ x, s.isActive x = true →
    ∃ p ∈ s.steps (frameCalls w maxCells (List.replicate n dest)), s.handleFor x ∈ p.1.frameOf p.2

/-- The dirty lanes leave room in the frames for the destination, or all cells fit in one. -/
def RepairRuns (s : CellStore w) (maxCells : ℕ) (dest : Option ℕ) : Prop :=
  (s.offered dest).toFinset.card < maxCells ∨ s.activeLen ≤ maxCells

theorem reaches_of_repairRuns (h : s.toCellTable.Inv pins) (hl : Lanes s) {maxCells : ℕ}
    {dest : Option ℕ} (hrun : s.RepairRuns maxCells dest) :
    s.Reaches maxCells dest s.capacity := by
  intro x hx
  rcases hrun with hroom | hfits
  · exact frames_cover h hl (List.length_replicate ..).ge
      (fun d hd => by rw [List.eq_of_mem_replicate hd]; exact hroom) hx
  · -- the first frame has all cells
    obtain ⟨n, hn⟩ := Nat.exists_eq_succ_of_ne_zero (Nat.zero_lt_of_lt hl.cursor_lt).ne'
    rw [hn, List.replicate_succ]
    refine ⟨(s, .fillFrame maxCells dest), List.mem_cons_self .., ?_⟩
    rw [frameOf, fillFrameFor_eq]
    exact fillFrame_complete h hl _ hfits hx

/-- Otherwise every frame is the same, and smaller than the active set. -/
theorem not_reaches (h : s.toCellTable.Inv pins) (hl : Lanes s) {maxCells : ℕ} {dest : Option ℕ}
    (hstuck : ¬ s.RepairRuns maxCells dest) : ∃ x, s.isActive x = true ∧
      ∀ n, ∀ p ∈ s.steps (frameCalls w maxCells (List.replicate n dest)),
        s.handleFor x ∉ p.1.frameOf p.2 := by
  unfold RepairRuns at hstuck
  push Not at hstuck
  obtain ⟨hfull, hmany⟩ := hstuck
  have hframe : ∀ s₁ : CellStore w, SameData s s₁ → Lanes s₁ →
      s₁.frameOf (.fillFrame maxCells dest) = (s.offered dest).eraseDups.take maxCells := by
    intro s₁ hsame hl₁
    have hroom : s₁.leavesRoom (s₁.lacksFor dest) maxCells = false := by
      rw [Bool.eq_false_iff, Ne, leavesRoom_iff hl₁, hsame.offered]
      exact not_lt.2 hfull
    rw [frameOf, fillFrameFor_eq, (fillFrame_full hroom).1, dirtyLanes_bump hl₁, hsame.offered]
  have hframed := fillFrame_framed hl (s.lacksFor dest) maxCells
  obtain ⟨x, hx, hmiss⟩ := hframed.exists_missing h hmany
  refine ⟨x, hx, fun n p hp => ?_⟩
  obtain ⟨hsame, hlp, d, hd, hcall⟩ := steps_frames maxCells _ s hl p hp
  rw [hcall, List.eq_of_mem_replicate hd, hframe p.1 hsame hlp, ← hframe s (.refl s) hl, frameOf,
    fillFrameFor_eq]
  exact hmiss

/-- **When anti-entropy reaches every cell.**  For a store at rest and a fixed destination, some
    number of frames contains every active cell if and only if the distinct cells that the
    dirty lanes offer leave room in a frame, or all active cells fit in one; and then
    `capacity` frames do. -/
theorem anti_entropy_reaches_iff (s : CellStore w) (hs : s.Reachable) (maxCells : ℕ)
    (dest : Option ℕ) :
    ((∃ n, s.Reaches maxCells dest n) ↔ s.RepairRuns maxCells dest) ∧
      (s.RepairRuns maxCells dest → s.Reaches maxCells dest s.capacity) := by
  obtain ⟨pins, h, hl⟩ := hs.inv
  have hsuff : s.RepairRuns maxCells dest → s.Reaches maxCells dest s.capacity :=
    reaches_of_repairRuns h hl
  refine ⟨⟨?_, fun hrun => ⟨_, hsuff hrun⟩⟩, hsuff⟩
  rintro ⟨n, hreach⟩
  by_contra hstuck
  obtain ⟨x, hx, hmiss⟩ := not_reaches h hl hstuck
  obtain ⟨p, hp, hmem⟩ := hreach x hx
  exact hmiss n p hp hmem

/-- The store of two cells with its rings as the writes left them. -/
def busy : Option (CellStore .u32) :=
  (new .u32 tinyConfig tinyNode).map (run · [.ingestLocal [tinyHits], .mergeRemote [tinyHits]])

theorem busy_reachable {s : CellStore .u32} (h : busy = some s) : s.Reachable := by
  obtain ⟨s₀, hnew, rfl⟩ := Option.map_eq_some_iff.1 h
  exact ⟨_, _, s₀, _, hnew, rfl⟩

theorem anti_entropy_reaches_busy : ∃ s : CellStore .u32, busy = some s ∧
    s.RepairRuns 2 none ∧ s.Reaches 2 none s.capacity := by
  have heval : busy.map (fun s => decide (s.activeLen ≤ 2)) = some true := by decide +kernel
  obtain ⟨s, hs, hvals⟩ := Option.map_eq_some_iff.1 heval
  have hrun : s.RepairRuns 2 none := .inr (of_decide_eq_true hvals)
  exact ⟨s, hs, hrun, (anti_entropy_reaches_iff s (busy_reachable hs) 2 none).2 hrun⟩

/-- With frames of one cell, the local dirty entry is sent forever and the other cell never. -/
theorem busy_starves_repair : ∃ s : CellStore .u32, busy = some s ∧ s.Reachable ∧ s.capacity = 2 ∧
    s.activeLen = 2 ∧ ∀ n, ¬ s.Reaches 1 none n := by
  have heval : busy.map (fun s => (s.capacity, s.activeLen, (s.offered none).toFinset.card)) =
      some (2, 2, 2) := by decide +kernel
  obtain ⟨s, hs, hvals⟩ := Option.map_eq_some_iff.1 heval
  simp only [Prod.mk.injEq] at hvals
  obtain ⟨hcap, hactive, hoffered⟩ := hvals
  have hreach := busy_reachable hs
  obtain ⟨pins, h, hl⟩ := hreach.inv
  have hstuck : ¬ s.RepairRuns 1 none := by
    unfold RepairRuns
    omega
  obtain ⟨x, hx, hmiss⟩ := not_reaches h hl hstuck
  refine ⟨s, hs, hreach, hcap, hactive, fun n hn => ?_⟩
  obtain ⟨p, hp, hmem⟩ := hn x hx
  exact hmiss n p hp hmem

end CellStore

end Gabion
