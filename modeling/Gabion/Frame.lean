/-
  Gossip frame composition (`fill_gossip_frame`, `fill_gossip_frame_for_peer`) and the repair
  slice (`visit_repair_slice`).

  A frame is filled from three lanes: local dirty entries, forwarded dirty entries, and a
  slice of the active cells that starts at the shared repair cursor.  Composition changes
  the selection marks, the selection epoch and the cursor, nothing else.
-/
import Gabion.StoreStep

namespace Gabion

open Function

/-- The marks and the handles selected so far for one frame. -/
structure Selection where
  marks : ℕ → ℕ
  out : List CellHandle

/-- `mark_selected`, followed by the push of the handle if it was not marked before. -/
def Selection.select (sel : Selection) (epoch : ℕ) (handle : CellHandle) : Selection :=
  if sel.marks handle.index = epoch then sel
  else { marks := update sel.marks handle.index epoch, out := sel.out ++ [handle] }

namespace CellStore

variable {w : CountWidth}

def bumpSelectionEpoch (s : CellStore w) : CellStore w :=
  let next := (s.selectionEpoch + 1) % 2 ^ 32
  if next = 0 then { s with selectionMarks := fun _ => 0, selectionEpoch := 1 }
  else { s with selectionEpoch := next }

def dirtyEntryCurrent (s : CellStore w) (entry : DirtyEntry) : Bool :=
  entry.handle.index < s.capacity &&
    s.generations entry.handle.index == entry.handle.generation &&
    (s.cells entry.handle.index).originSequence == entry.originSequence

def peerLacks (s : CellStore w) (peerSlot cellIndex : ℕ) : Bool :=
  let cell := s.cells cellIndex
  decide (cell.originSequence > s.peerFrontiers.lastAcked peerSlot cell.key.origin)

/-- Lanes 1 and 2: the current entries of a ring that the destination may lack. -/
def dirtyLane (s : CellStore w) (lacks : ℕ → Bool) (maxCells : ℕ) :
    List DirtyEntry → Selection → Selection
  | [], sel => sel
  | entry :: rest, sel =>
    if sel.out.length ≥ maxCells then sel
    else if s.dirtyEntryCurrent entry && lacks entry.handle.index then
      dirtyLane s lacks maxCells rest (sel.select s.selectionEpoch entry.handle)
    else dirtyLane s lacks maxCells rest sel

/-- Lane 3: `fuel` more slots may be visited, `visited` have been; the cursor to be stored
    is carried along. -/
def repairLane (s : CellStore w) (maxCells : ℕ) :
    ℕ → ℕ → Selection → ℕ → Selection × ℕ
  | 0, _, sel, nextCursor => (sel, nextCursor)
  | fuel + 1, visited, sel, nextCursor =>
    if sel.out.length < maxCells then
      let slot := (s.repairCursor + visited) % s.capacity
      if s.isActive slot then
        repairLane s maxCells fuel (visited + 1) (sel.select s.selectionEpoch (s.handleFor slot))
          ((slot + 1) % s.capacity)
      else repairLane s maxCells fuel (visited + 1) sel ((slot + 1) % s.capacity)
    else (sel, nextCursor)

/-- The two dirty lanes of a frame. -/
def dirtyLanes (s : CellStore w) (lacks : ℕ → Bool) (maxCells : ℕ) : Selection :=
  let sel := s.dirtyLane lacks maxCells s.localDirty.toList { marks := s.selectionMarks, out := [] }
  if sel.out.length ≥ maxCells then sel
  else s.dirtyLane lacks maxCells s.forwardedDirty.toList sel

/-- The body the two frame functions share: they differ in `lacks`. -/
def fillFrame (s : CellStore w) (lacks : ℕ → Bool) (maxCells : ℕ) :
    CellStore w × List CellHandle :=
  if maxCells = 0 then (s, [])
  else
    let s := s.bumpSelectionEpoch
    let sel := s.dirtyLanes lacks maxCells
    if sel.out.length ≥ maxCells then ({ s with selectionMarks := sel.marks }, sel.out)
    else
      let (sel, nextCursor) := s.repairLane maxCells s.capacity 0 sel s.repairCursor
      ({ s with selectionMarks := sel.marks, repairCursor := nextCursor }, sel.out)

def fillGossipFrame (s : CellStore w) (maxCells : ℕ) : CellStore w × List CellHandle :=
  s.fillFrame (fun _ => true) maxCells

def fillGossipFrameForPeer (s : CellStore w) (maxCells peerSlot : ℕ) :
    CellStore w × List CellHandle :=
  s.fillFrame (s.peerLacks peerSlot) maxCells

/-- A frame for a destination: an interned peer slot, or none. -/
def fillFrameFor (s : CellStore w) (maxCells : ℕ) : Option ℕ → CellStore w × List CellHandle
  | none => s.fillGossipFrame maxCells
  | some peerSlot => s.fillGossipFrameForPeer maxCells peerSlot

/-- The loop of `visit_repair_slice`: the repair lane, which the visitor may end after any
    cell.  A stateful visitor answers from the handles it has been given, the last one new. -/
def sliceLane (s : CellStore w) (maxCells : ℕ) (visit : List CellHandle → Bool) :
    ℕ → ℕ → Selection → ℕ → Selection × ℕ
  | 0, _, sel, nextCursor => (sel, nextCursor)
  | fuel + 1, visited, sel, nextCursor =>
    if sel.out.length < maxCells then
      let slot := (s.repairCursor + visited) % s.capacity
      if s.isActive slot && sel.marks slot != s.selectionEpoch then
        let sel := sel.select s.selectionEpoch (s.handleFor slot)
        if visit sel.out then
          sliceLane s maxCells visit fuel (visited + 1) sel ((slot + 1) % s.capacity)
        else (sel, (slot + 1) % s.capacity)
      else sliceLane s maxCells visit fuel (visited + 1) sel ((slot + 1) % s.capacity)
    else (sel, nextCursor)

/-- The handles given to the visitor are returned; the source returns their number. -/
def visitRepairSlice (s : CellStore w) (maxCells : ℕ) (visit : List CellHandle → Bool) :
    CellStore w × List CellHandle :=
  if s.capacity = 0 ∨ maxCells = 0 ∨ s.activeLen = 0 then (s, [])
  else
    let s := s.bumpSelectionEpoch
    let (sel, nextCursor) := s.sliceLane maxCells visit s.capacity 0
      { marks := s.selectionMarks, out := [] } s.repairCursor
    ({ s with selectionMarks := sel.marks, repairCursor := nextCursor }, sel.out)

/-- What a destination may lack, as the dirty lanes judge it. -/
def lacksFor (s : CellStore w) : Option ℕ → ℕ → Bool
  | none => fun _ => true
  | some peerSlot => s.peerLacks peerSlot

theorem fillFrameFor_eq (s : CellStore w) (maxCells : ℕ) (dest : Option ℕ) :
    s.fillFrameFor maxCells dest = s.fillFrame (s.lacksFor dest) maxCells := by
  cases dest <;> rfl

/-! ## What a lane selects -/

variable {pins : ℕ → Bool} {s s' : CellStore w}

/-- A selection of active cells, each marked and taken once. -/
structure Picked (s : CellStore w) (sel : Selection) : Prop where
  marks_iff : ∀ x, sel.marks x = s.selectionEpoch ↔ ∃ h ∈ sel.out, h.index = x
  marks_le : ∀ x, sel.marks x ≤ s.selectionEpoch
  handle : ∀ h ∈ sel.out, s.isActive h.index = true ∧ h = s.handleFor h.index
  nodup : (sel.out.map CellHandle.index).Nodup

theorem Picked.select {sel : Selection} (hp : Picked s sel) {h : CellHandle}
    (ha : s.isActive h.index = true) (hh : h = s.handleFor h.index) :
    Picked s (sel.select s.selectionEpoch h) := by
  unfold Selection.select
  split_ifs with hm
  · exact hp
  · have hnew : ¬ ∃ h' ∈ sel.out, h'.index = h.index := fun he => hm ((hp.marks_iff _).2 he)
    refine ⟨fun x => ?_, fun x => ?_, fun h' hh' => ?_, ?_⟩
    · simp only [List.mem_append, List.mem_singleton]
      by_cases hx : x = h.index
      · rw [hx, update_self]
        exact iff_of_true rfl ⟨h, .inr rfl, rfl⟩
      · rw [update_of_ne hx, hp.marks_iff]
        constructor
        · rintro ⟨h', hm', rfl⟩
          exact ⟨h', .inl hm', rfl⟩
        · rintro ⟨h', hm' | rfl, rfl⟩
          · exact ⟨h', hm', rfl⟩
          · exact absurd rfl hx
    · by_cases hx : x = h.index
      · simp [hx]
      · simpa [hx] using hp.marks_le x
    · rcases List.mem_append.1 hh' with hh' | hh'
      · exact hp.handle h' hh'
      · rw [List.mem_singleton.1 hh']
        exact ⟨ha, hh⟩
    · rw [List.map_append, List.nodup_append]
      refine ⟨hp.nodup, List.nodup_singleton _, fun a ha b hb => ?_⟩
      obtain ⟨h', hm', rfl⟩ := List.mem_map.1 ha
      rw [List.mem_map] at hb
      obtain ⟨h'', hm'', rfl⟩ := hb
      rw [List.mem_singleton.1 hm'']
      exact fun he => hnew ⟨h', hm', he⟩

theorem mem_select (sel : Selection) (epoch : ℕ) (h : CellHandle) {h' : CellHandle}
    (hm : h' ∈ sel.out) : h' ∈ (sel.select epoch h).out := by
  unfold Selection.select
  split_ifs
  · exact hm
  · exact List.mem_append_left _ hm

theorem select_length_le (sel : Selection) (epoch : ℕ) (h : CellHandle) :
    sel.out.length ≤ (sel.select epoch h).out.length ∧
      (sel.select epoch h).out.length ≤ sel.out.length + 1 := by
  unfold Selection.select
  split_ifs <;> simp

/-- A current ring entry is the handle of an active cell. -/
theorem current_spec {e : DirtyEntry} (hg : GoodEntry s.capacity e)
    (hc : s.dirtyEntryCurrent e = true) :
    s.isActive e.handle.index = true ∧ e.handle = s.handleFor e.handle.index := by
  simp only [dirtyEntryCurrent, Bool.and_eq_true, beq_iff_eq] at hc
  obtain ⟨⟨-, hgen⟩, -⟩ := hc
  refine ⟨(CellTable.isActive_eq _).2 (hgen ▸ hg.2), ?_⟩
  rw [CellTable.handleFor, hgen]

theorem dirtyLane_picked (lacks : ℕ → Bool) (maxCells : ℕ) : ∀ (es : List DirtyEntry)
    (sel : Selection), (∀ e ∈ es, GoodEntry s.capacity e) → Picked s sel →
    Picked s (s.dirtyLane lacks maxCells es sel)
  | [], _, _, hp => hp
  | e :: es, sel, hes, hp => by
    have hes' := (List.forall_mem_cons.1 hes).2
    unfold dirtyLane
    split_ifs with h1 h2
    · exact hp
    · obtain ⟨ha, hh⟩ := current_spec (hes e (by simp)) (Bool.and_eq_true_iff.1 h2).1
      exact dirtyLane_picked lacks maxCells es _ hes' (hp.select ha hh)
    · exact dirtyLane_picked lacks maxCells es _ hes' hp

theorem repairLane_picked (maxCells : ℕ) : ∀ fuel visited (sel : Selection) next, Picked s sel →
    Picked s (s.repairLane maxCells fuel visited sel next).1
  | 0, _, _, _, hp => hp
  | fuel + 1, visited, sel, next, hp => by
    unfold repairLane
    dsimp only
    split_ifs with h1 h2
    · exact repairLane_picked maxCells fuel _ _ _ (hp.select h2 rfl)
    · exact repairLane_picked maxCells fuel _ _ _ hp
    · exact hp

theorem repairLane_cursor_lt (maxCells : ℕ) (hc : 0 < s.capacity) : ∀ fuel visited (sel : Selection)
    next, next < s.capacity → (s.repairLane maxCells fuel visited sel next).2 < s.capacity
  | 0, _, _, _, hn => hn
  | fuel + 1, visited, sel, next, hn => by
    have hlt := Nat.mod_lt ((s.repairCursor + visited) % s.capacity + 1) hc
    unfold repairLane
    dsimp only
    split_ifs with h1 h2
    · exact repairLane_cursor_lt maxCells hc fuel _ _ _ hlt
    · exact repairLane_cursor_lt maxCells hc fuel _ _ _ hlt
    · exact hn

/-! ## The store after a frame -/

/-- What frame composition leaves alone. -/
structure SameData (s s' : CellStore w) : Prop where
  table : s'.toCellTable = s.toCellTable
  localDirty : s'.localDirty = s.localDirty
  forwardedDirty : s'.forwardedDirty = s.forwardedDirty
  nextSequenceByOrigin : s'.nextSequenceByOrigin = s.nextSequenceByOrigin
  peerFrontiers : s'.peerFrontiers = s.peerFrontiers

theorem sameData_bump (s : CellStore w) : SameData s s.bumpSelectionEpoch := by
  unfold bumpSelectionEpoch
  dsimp only
  split_ifs <;> exact ⟨rfl, rfl, rfl, rfl, rfl⟩

theorem sameData_fillFrame (s : CellStore w) (lacks : ℕ → Bool) (maxCells : ℕ) :
    SameData s (s.fillFrame lacks maxCells).1 := by
  have hb := sameData_bump s
  unfold fillFrame
  dsimp only
  split_ifs
  · exact ⟨rfl, rfl, rfl, rfl, rfl⟩
  · exact ⟨hb.1, hb.2, hb.3, hb.4, hb.5⟩
  · exact ⟨hb.1, hb.2, hb.3, hb.4, hb.5⟩

/-- The new epoch is above every mark, so no slot counts as selected. -/
theorem bump_lanes (hl : Lanes s) : Lanes s.bumpSelectionEpoch ∧
    ∀ x, s.bumpSelectionEpoch.selectionMarks x < s.bumpSelectionEpoch.selectionEpoch := by
  have he := hl.epoch_lt
  unfold bumpSelectionEpoch
  dsimp only
  split_ifs with h0
  · exact ⟨⟨hl.1, hl.2, hl.3, fun _ => Nat.zero_le _, by norm_num⟩, fun _ => Nat.one_pos⟩
  · have hlt : ∀ x, s.selectionMarks x < (s.selectionEpoch + 1) % 2 ^ 32 := fun x => by
      have := hl.marks_le x
      omega
    exact ⟨⟨hl.1, hl.2, hl.3, fun x => (hlt x).le, Nat.mod_lt _ (by norm_num)⟩, hlt⟩

theorem picked_nil (hm : ∀ x, s.selectionMarks x < s.selectionEpoch) :
    Picked s { marks := s.selectionMarks, out := [] } :=
  ⟨fun x => by simpa using (hm x).ne, fun x => (hm x).le, by simp, by simp⟩

theorem dirtyLanes_picked (hl : Lanes s) (hm : ∀ x, s.selectionMarks x < s.selectionEpoch)
    (lacks : ℕ → Bool) (maxCells : ℕ) : Picked s (s.dirtyLanes lacks maxCells) := by
  have h1 := dirtyLane_picked lacks maxCells s.localDirty.toList _
    (fun e he => hl.localDirty.mem_toList he) (picked_nil hm)
  unfold dirtyLanes
  dsimp only
  split_ifs
  · exact h1
  · exact dirtyLane_picked lacks maxCells _ _ (fun e he => hl.forwardedDirty.mem_toList he) h1

theorem fillFrame_lanes (hl : Lanes s) (lacks : ℕ → Bool) (maxCells : ℕ) :
    Lanes (s.fillFrame lacks maxCells).1 := by
  obtain ⟨hb, hm⟩ := bump_lanes hl
  have hp := dirtyLanes_picked hb hm lacks maxCells
  unfold fillFrame
  dsimp only
  split_ifs
  · exact hl
  · exact ⟨hb.1, hb.2, hb.3, hp.marks_le, hb.5⟩
  · exact ⟨hb.1, hb.2, repairLane_cursor_lt _ (by have := hb.3; omega) _ _ _ _ hb.3,
      (repairLane_picked _ _ _ _ _ hp).marks_le, hb.5⟩

/-! ## The store after a repair slice -/

theorem sliceLane_picked (maxCells : ℕ) (visit : List CellHandle → Bool) :
    ∀ fuel visited (sel : Selection) next, Picked s sel →
      Picked s (s.sliceLane maxCells visit fuel visited sel next).1
  | 0, _, _, _, hp => hp
  | fuel + 1, visited, sel, next, hp => by
    unfold sliceLane
    dsimp only
    split_ifs with h1 h2 h3
    · exact sliceLane_picked maxCells visit fuel _ _ _ (hp.select (Bool.and_eq_true_iff.1 h2).1 rfl)
    · exact hp.select (Bool.and_eq_true_iff.1 h2).1 rfl
    · exact sliceLane_picked maxCells visit fuel _ _ _ hp
    · exact hp

theorem sliceLane_cursor_lt (maxCells : ℕ) (visit : List CellHandle → Bool) (hc : 0 < s.capacity) :
    ∀ fuel visited (sel : Selection) next, next < s.capacity →
      (s.sliceLane maxCells visit fuel visited sel next).2 < s.capacity
  | 0, _, _, _, hn => hn
  | fuel + 1, visited, sel, next, hn => by
    have hlt := Nat.mod_lt ((s.repairCursor + visited) % s.capacity + 1) hc
    unfold sliceLane
    dsimp only
    split_ifs with h1 h2 h3
    · exact sliceLane_cursor_lt maxCells visit hc fuel _ _ _ hlt
    · exact hlt
    · exact sliceLane_cursor_lt maxCells visit hc fuel _ _ _ hlt
    · exact hn

theorem sameData_visitRepairSlice (s : CellStore w) (maxCells : ℕ)
    (visit : List CellHandle → Bool) : SameData s (s.visitRepairSlice maxCells visit).1 := by
  have hb := sameData_bump s
  unfold visitRepairSlice
  dsimp only
  split_ifs
  · exact ⟨rfl, rfl, rfl, rfl, rfl⟩
  · exact ⟨hb.1, hb.2, hb.3, hb.4, hb.5⟩

theorem visitRepairSlice_lanes (hl : Lanes s) (maxCells : ℕ) (visit : List CellHandle → Bool) :
    Lanes (s.visitRepairSlice maxCells visit).1 := by
  obtain ⟨hb, hm⟩ := bump_lanes hl
  unfold visitRepairSlice
  dsimp only
  split_ifs
  · exact hl
  · exact ⟨hb.1, hb.2, sliceLane_cursor_lt _ _ (by have := hb.3; omega) _ _ _ _ hb.3,
      (sliceLane_picked _ _ _ _ _ _ (picked_nil hm)).marks_le, hb.5⟩

end CellStore

end Gabion
