/-
  What the repair lane of a frame covers.

  A frame whose dirty lanes leave room sweeps a run of slots from the repair cursor on, at
  least one and at most all of them: every active cell of the run is in the frame, and the
  next sweep starts where this one stopped (`fillFrame_sweeps`).  A frame with room for all
  active cells has them all (`fillFrame_complete`).
-/
import Gabion.Frame

namespace Gabion

open Function Circular

namespace CellStore

variable {w : CountWidth} {pins : ℕ → Bool} {s s' : CellStore w}

/-! ## The lane -/

theorem Picked.mem_select {sel : Selection} (hp : Picked s sel) (x : ℕ) :
    s.handleFor x ∈ (sel.select s.selectionEpoch (s.handleFor x)).out := by
  unfold Selection.select
  split_ifs with hm
  · obtain ⟨h, hmem, hx⟩ := (hp.marks_iff _).1 hm
    have hh := (hp.handle h hmem).2
    rw [hx] at hh
    exact hh ▸ hmem
  · exact List.mem_append_right _ (List.mem_singleton.2 rfl)

/-- What the lane did: it visited the `m` slots from `start` on, until the frame was full or
    the fuel was used up, and left the cursor behind the last one. -/
structure Swept (s : CellStore w) (maxCells fuel start : ℕ) (sel : Selection) (m : ℕ)
    (res : Selection × ℕ) : Prop where
  le_fuel : m ≤ fuel
  kept : ∀ h ∈ sel.out, h ∈ res.1.out
  covered : ∀ i < m, s.isActive ((start + i) % s.capacity) = true →
    s.handleFor ((start + i) % s.capacity) ∈ res.1.out
  cursor : res.2 = (start + m) % s.capacity
  stop : m = fuel ∨ maxCells ≤ res.1.out.length
  progress : 0 < fuel → sel.out.length < maxCells → 0 < m

/-- One more slot in front. -/
theorem Swept.cons {maxCells fuel start m : ℕ} {sel sel₁ : Selection} {res : Selection × ℕ}
    (h : Swept s maxCells fuel (start + 1) sel₁ m res) (hkept : ∀ h ∈ sel.out, h ∈ sel₁.out)
    (hfirst : s.isActive (start % s.capacity) = true →
      s.handleFor (start % s.capacity) ∈ sel₁.out) :
    Swept s maxCells (fuel + 1) start sel (m + 1) res := by
  refine ⟨Nat.succ_le_succ h.le_fuel, fun c hc => h.kept c (hkept c hc), fun i hi ha => ?_, ?_,
    h.stop.imp (congrArg Nat.succ) id, fun _ _ => Nat.succ_pos m⟩
  · cases i with
    | zero => exact h.kept _ (hfirst ha)
    | succ i =>
      rw [show start + (i + 1) = start + 1 + i by omega] at ha ⊢
      exact h.covered i (by omega) ha
  · rw [h.cursor, Nat.add_right_comm, Nat.add_assoc]

theorem repairLane_spec (maxCells : ℕ) : ∀ (fuel visited : ℕ) (sel : Selection), Picked s sel →
    ∃ m, Swept s maxCells fuel (s.repairCursor + visited) sel m
      (s.repairLane maxCells fuel visited sel ((s.repairCursor + visited) % s.capacity))
  | 0, visited, sel, _ =>
    ⟨0, le_rfl, fun _ h => h, fun _ hi => absurd hi (Nat.not_lt_zero _), rfl, .inl rfl,
      fun h => absurd h (lt_irrefl _)⟩
  | fuel + 1, visited, sel, hp => by
    have hnext : ((s.repairCursor + visited) % s.capacity + 1) % s.capacity =
        (s.repairCursor + (visited + 1)) % s.capacity := add_succ_mod
    unfold repairLane
    dsimp only
    rw [hnext]
    split_ifs with hroom ha
    · have hp₁ := hp.select (h := s.handleFor ((s.repairCursor + visited) % s.capacity)) ha rfl
      obtain ⟨m, hm⟩ := repairLane_spec maxCells fuel (visited + 1) _ hp₁
      exact ⟨m + 1, Swept.cons hm (fun _ => mem_select _ _ _) fun _ => hp.mem_select _⟩
    · obtain ⟨m, hm⟩ := repairLane_spec maxCells fuel (visited + 1) sel hp
      exact ⟨m + 1, Swept.cons hm (fun _ h => h) fun h => absurd h ha⟩
    · exact ⟨0, Nat.zero_le _, fun _ h => h, fun _ hi => absurd hi (Nat.not_lt_zero _), rfl,
        .inr (not_lt.1 hroom), fun _ h => absurd h hroom⟩

/-! ## Lengths -/

theorem dirtyLane_length_le (lacks : ℕ → Bool) (maxCells : ℕ) : ∀ (es : List DirtyEntry)
    (sel : Selection), sel.out.length ≤ maxCells →
    (s.dirtyLane lacks maxCells es sel).out.length ≤ maxCells
  | [], _, h => h
  | e :: es, sel, h => by
    have hsel := (select_length_le sel s.selectionEpoch e.handle).2
    unfold dirtyLane
    split_ifs with h1 h2
    · exact h
    · exact dirtyLane_length_le lacks maxCells es _ (by omega)
    · exact dirtyLane_length_le lacks maxCells es _ h

theorem dirtyLanes_length_le (s : CellStore w) (lacks : ℕ → Bool) (maxCells : ℕ) :
    (s.dirtyLanes lacks maxCells).out.length ≤ maxCells := by
  have h := dirtyLane_length_le (s := s) lacks maxCells s.localDirty.toList
    { marks := s.selectionMarks, out := [] } (Nat.zero_le _)
  unfold dirtyLanes
  dsimp only
  split_ifs
  · exact h
  · exact dirtyLane_length_le lacks maxCells _ _ h

theorem repairLane_length_le (maxCells : ℕ) : ∀ (fuel visited : ℕ) (sel : Selection) (next : ℕ),
    sel.out.length ≤ maxCells → (s.repairLane maxCells fuel visited sel next).1.out.length ≤ maxCells
  | 0, _, _, _, h => h
  | fuel + 1, visited, sel, next, h => by
    have hsel := (select_length_le sel s.selectionEpoch
      (s.handleFor ((s.repairCursor + visited) % s.capacity))).2
    unfold repairLane
    dsimp only
    split_ifs with h1 h2
    · exact repairLane_length_le maxCells fuel _ _ _ (by omega)
    · exact repairLane_length_le maxCells fuel _ _ _ h
    · exact h

/-! ## Frames -/

/-- The dirty lanes of the frame leave room for the repair lane. -/
def leavesRoom (s : CellStore w) (lacks : ℕ → Bool) (maxCells : ℕ) : Bool :=
  decide ((s.bumpSelectionEpoch.dirtyLanes lacks maxCells).out.length < maxCells)

/-- A frame: at most `maxCells` handles of active cells, no cell twice. -/
structure Framed (s : CellTable w) (maxCells : ℕ) (frame : List CellHandle) : Prop where
  handle : ∀ h ∈ frame, s.isActive h.index = true ∧ h = s.handleFor h.index
  nodup : (frame.map CellHandle.index).Nodup
  length_le : frame.length ≤ maxCells

theorem Picked.framed {sel : Selection} {maxCells : ℕ} (hp : Picked s sel)
    (hlen : sel.out.length ≤ maxCells) : Framed s.toCellTable maxCells sel.out :=
  ⟨hp.handle, hp.nodup, hlen⟩

theorem bump_repairCursor (s : CellStore w) :
    s.bumpSelectionEpoch.repairCursor = s.repairCursor := by
  unfold bumpSelectionEpoch
  dsimp only
  split_ifs <;> rfl

/-- A frame that the dirty lanes fill: the repair cursor stays. -/
theorem fillFrame_full {lacks : ℕ → Bool} {maxCells : ℕ}
    (h : s.leavesRoom lacks maxCells = false) :
    (s.fillFrame lacks maxCells).2 = (s.bumpSelectionEpoch.dirtyLanes lacks maxCells).out ∧
      (s.fillFrame lacks maxCells).1.repairCursor = s.repairCursor := by
  have hfull := not_lt.1 (of_decide_eq_false h)
  have hle := dirtyLanes_length_le s.bumpSelectionEpoch lacks maxCells
  unfold fillFrame
  dsimp only
  split_ifs with h0
  · refine ⟨?_, rfl⟩
    rw [h0] at hle ⊢
    exact (List.length_eq_zero_iff.1 (Nat.le_zero.1 hle)).symm
  · exact ⟨rfl, bump_repairCursor s⟩

theorem fillFrame_room {lacks : ℕ → Bool} {maxCells : ℕ} (h : s.leavesRoom lacks maxCells = true) :
    let lane := s.bumpSelectionEpoch.repairLane maxCells s.bumpSelectionEpoch.capacity 0
      (s.bumpSelectionEpoch.dirtyLanes lacks maxCells) s.bumpSelectionEpoch.repairCursor
    (s.fillFrame lacks maxCells).2 = lane.1.out ∧
      (s.fillFrame lacks maxCells).1.repairCursor = lane.2 := by
  have hroom := of_decide_eq_true h
  have h0 : maxCells ≠ 0 := by omega
  unfold fillFrame
  rw [if_neg h0]
  dsimp only
  rw [if_neg (by omega)]
  exact ⟨rfl, rfl⟩

theorem fillFrame_framed (hl : Lanes s) (lacks : ℕ → Bool) (maxCells : ℕ) :
    Framed s.toCellTable maxCells (s.fillFrame lacks maxCells).2 := by
  obtain ⟨hb, hm⟩ := bump_lanes hl
  have hp := dirtyLanes_picked hb hm lacks maxCells
  have hle := dirtyLanes_length_le s.bumpSelectionEpoch lacks maxCells
  rw [← (sameData_bump s).table]
  cases hroom : s.leavesRoom lacks maxCells with
  | false =>
    rw [(fillFrame_full hroom).1]
    exact hp.framed hle
  | true =>
    rw [(fillFrame_room hroom).1]
    exact (repairLane_picked _ _ _ _ _ hp).framed (repairLane_length_le _ _ _ _ _ hle)

/-- **A frame that reaches the repair lane** has every active cell of the `m` slots from the
    cursor on, and moves the cursor behind them. -/
theorem fillFrame_sweeps (hl : Lanes s) {lacks : ℕ → Bool} {maxCells : ℕ}
    (h : s.leavesRoom lacks maxCells = true) : ∃ m, 0 < m ∧
      (s.fillFrame lacks maxCells).1.repairCursor = (s.repairCursor + m) % s.capacity ∧
      (∀ i < m, s.isActive ((s.repairCursor + i) % s.capacity) = true →
        s.handleFor ((s.repairCursor + i) % s.capacity) ∈ (s.fillFrame lacks maxCells).2) ∧
      (m = s.capacity ∨ maxCells ≤ (s.fillFrame lacks maxCells).2.length) := by
  obtain ⟨hb, hm⟩ := bump_lanes hl
  have hp := dirtyLanes_picked hb hm lacks maxCells
  have hroom := of_decide_eq_true h
  have hpos : 0 < s.bumpSelectionEpoch.capacity := Nat.zero_lt_of_lt hb.cursor_lt
  obtain ⟨m, hsw⟩ := repairLane_spec maxCells s.bumpSelectionEpoch.capacity 0 _ hp
  obtain ⟨hframe, hcur⟩ := fillFrame_room h
  rw [Nat.add_zero, Nat.mod_eq_of_lt hb.cursor_lt] at hsw
  rw [hframe, hcur, ← bump_repairCursor s, ← (sameData_bump s).table]
  exact ⟨m, hsw.progress hpos hroom, hsw.cursor, hsw.covered, hsw.stop⟩

/-- The slots of the active cells. -/
def activeSlots (t : CellTable w) : Finset ℕ :=
  (Finset.range t.capacity).filter fun x => t.isActive x = true

theorem card_activeSlots {t : CellTable w} (hi : t.Inv pins) :
    (activeSlots t).card = t.activeLen := by
  rw [hi.activeLen_eq, Slots.tally, activeSlots, Finset.card_filter]
  exact Finset.sum_congr rfl fun y _ => by cases t.isActive y <;> rfl

theorem mem_activeSlots {t : CellTable w} (hi : t.Inv pins) {x : ℕ} :
    x ∈ activeSlots t ↔ t.isActive x = true := by
  rw [activeSlots, Finset.mem_filter, Finset.mem_range]
  exact ⟨And.right, fun h => ⟨hi.lt h, h⟩⟩

section
variable {t : CellTable w} {maxCells : ℕ} {frame : List CellHandle}

theorem Framed.subset (h : Framed t maxCells frame) (hi : t.Inv pins) :
    (frame.map CellHandle.index).toFinset ⊆ activeSlots t := by
  intro y hy
  obtain ⟨c, hc, rfl⟩ := List.mem_map.1 (List.mem_toFinset.1 hy)
  exact (mem_activeSlots hi).2 (h.handle c hc).1

theorem Framed.card (h : Framed t maxCells frame) :
    (frame.map CellHandle.index).toFinset.card = frame.length := by
  rw [List.toFinset_card_of_nodup h.nodup, List.length_map]

theorem Framed.length_le_active (h : Framed t maxCells frame) (hi : t.Inv pins) :
    frame.length ≤ t.activeLen := by
  rw [← h.card, ← card_activeSlots hi]
  exact Finset.card_le_card (h.subset hi)

theorem Framed.mem_iff (h : Framed t maxCells frame) {x : ℕ} :
    t.handleFor x ∈ frame ↔ x ∈ (frame.map CellHandle.index).toFinset := by
  rw [List.mem_toFinset, List.mem_map]
  refine ⟨fun hx => ⟨_, hx, rfl⟩, ?_⟩
  rintro ⟨c, hc, rfl⟩
  exact (h.handle c hc).2 ▸ hc

/-- A frame with as many handles as there are active cells has them all. -/
theorem Framed.complete (h : Framed t maxCells frame) (hi : t.Inv pins)
    (hlen : t.activeLen ≤ frame.length) {x : ℕ} (hx : t.isActive x = true) :
    t.handleFor x ∈ frame := by
  have heq := Finset.eq_of_subset_of_card_le (h.subset hi) (by
    rw [h.card, card_activeSlots hi]
    exact hlen)
  rw [h.mem_iff, heq]
  exact (mem_activeSlots hi).2 hx

/-- A frame smaller than the active set misses a cell. -/
theorem Framed.exists_missing (h : Framed t maxCells frame) (hi : t.Inv pins)
    (hlt : maxCells < t.activeLen) : ∃ x, t.isActive x = true ∧ t.handleFor x ∉ frame := by
  by_contra hall
  push Not at hall
  have hsub : activeSlots t ⊆ (frame.map CellHandle.index).toFinset := fun x hx =>
    h.mem_iff.1 (hall x ((mem_activeSlots hi).1 hx))
  have hcard := Finset.card_le_card hsub
  rw [card_activeSlots hi, h.card] at hcard
  have := h.length_le
  omega

end

/-- **A frame with room for all active cells has them all.** -/
theorem fillFrame_complete (hi : s.toCellTable.Inv pins) (hl : Lanes s) (lacks : ℕ → Bool)
    {maxCells : ℕ} (hlen : s.activeLen ≤ maxCells) {x : ℕ} (hx : s.isActive x = true) :
    s.handleFor x ∈ (s.fillFrame lacks maxCells).2 := by
  have hf := fillFrame_framed hl lacks maxCells
  cases hroom : s.leavesRoom lacks maxCells with
  | false =>
    have hfull := not_lt.1 (of_decide_eq_false hroom)
    rw [← (fillFrame_full hroom).1] at hfull
    exact hf.complete hi (hlen.trans hfull) hx
  | true =>
    obtain ⟨m, -, -, hcov, hend⟩ := fillFrame_sweeps hl hroom
    rcases hend with rfl | hfull
    · have hd := hcov (dist s.capacity s.repairCursor x) (dist_lt hl.cursor_lt)
      rw [add_dist hl.cursor_lt (hi.lt hx)] at hd
      exact hd hx
    · exact hf.complete hi (hlen.trans hfull) hx

/-- **Progress towards a cell**: a frame that reaches the repair lane has the cell, or brings
    the cursor closer to its slot. -/
theorem fillFrame_closer (hl : Lanes s) {lacks : ℕ → Bool} {maxCells : ℕ}
    (h : s.leavesRoom lacks maxCells = true) {x : ℕ} (hlt : x < s.capacity)
    (hx : s.isActive x = true) :
    s.handleFor x ∈ (s.fillFrame lacks maxCells).2 ∨
      dist s.capacity (s.fillFrame lacks maxCells).1.repairCursor x <
        dist s.capacity s.repairCursor x := by
  obtain ⟨m, hpos, hcur, hcov, -⟩ := fillFrame_sweeps hl h
  have hslot := add_dist hl.cursor_lt hlt
  by_cases hm : dist s.capacity s.repairCursor x < m
  · have hd := hcov _ hm
    rw [hslot] at hd
    exact .inl (hd hx)
  · have hadv := dist_advance hl.cursor_lt hlt (not_lt.1 hm)
    rw [hcur]
    exact .inr (by omega)

end CellStore

end Gabion
