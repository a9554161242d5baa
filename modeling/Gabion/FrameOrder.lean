/-
  Gossip frames, cell by cell.

  A frame is the start of one list without repetitions: the dirty entries of the local ring,
  those of the forwarded ring, and the active slots from the repair cursor on
  (`fillFrame_sources`).  The rings are walked with 32-bit sums; while these do not overflow,
  that is the order of insertion (`toList_eq`), and the frame is exact if none does before it is
  full (`frame_exact`).
-/
import Gabion.Refinement
import Gabion.Steps
import Gabion.Sweep

namespace Gabion

open Function

/-! ## The order of insertion -/

namespace DirtyRing

variable {P : DirtyEntry → Prop} {r : DirtyRing}

/-- The entries of a ring, oldest first. -/
def insertionOrder (r : DirtyRing) : List DirtyEntry :=
  (List.range r.len).map fun offset => r.entries ((r.start + offset) % r.capacity)

theorem length_insertionOrder (r : DirtyRing) : r.insertionOrder.length = r.len := by
  rw [insertionOrder, List.length_map, List.length_range]

/-- The lanes walk a ring in this order, unless a sum does not fit 32 bits. -/
theorem toList_eq_of_sums (h : ∀ offset < r.len, r.start + offset < 2 ^ 32) :
    r.toList = r.insertionOrder := by
  refine List.map_congr_left fun offset hmem => ?_
  rw [entryAt, Nat.mod_eq_of_lt (h offset (List.mem_range.1 hmem))]

theorem toList_eq (h : r.start + r.len ≤ 2 ^ 32) : r.toList = r.insertionOrder :=
  toList_eq_of_sums fun offset hlt => by omega

/-- The entries that a walk reads before it comes to a sum that does not fit 32 bits. -/
def readable (r : DirtyRing) : List DirtyEntry := r.insertionOrder.take (2 ^ 32 - r.start)

theorem toList_eq_readable (r : DirtyRing) :
    r.toList = r.readable ++ r.toList.drop (2 ^ 32 - r.start) := by
  have hread : r.toList.take (2 ^ 32 - r.start) = r.readable := by
    rw [readable, insertionOrder, toList, ← List.map_take, ← List.map_take]
    refine List.map_congr_left fun offset hmem => ?_
    rw [List.take_range, List.mem_range] at hmem
    have hlt : r.start + offset < 2 ^ 32 := by omega
    rw [entryAt, Nat.mod_eq_of_lt hlt]
  rw [← hread, List.take_append_drop]

theorem insertionOrder_eq_readable (r : DirtyRing) :
    r.insertionOrder = r.readable ++ r.insertionOrder.drop (2 ^ 32 - r.start) :=
  (List.take_append_drop _ _).symm

theorem insertionOrder_push_room (h : All P r) (hlt : r.len < r.capacity) (e : DirtyEntry) :
    (r.push e).insertionOrder = r.insertionOrder ++ [e] := by
  have hc := r.capacity_lt
  have hhead := h.head_eq hlt
  have hpush : r.push e = { r with
      len := r.len + 1
      entries := update r.entries r.len e
      head := (r.len + 1) % r.capacity } := by
    rw [DirtyRing.push, if_neg (by omega), if_neg (by omega)]
    show DirtyRing.mk _ _ _ _ _ = _
    rw [hhead, Nat.mod_eq_of_lt (a := r.len + 1) (by omega)]
    rfl
  have hstart : (r.push e).start = 0 := by
    rw [hpush, start]
    split_ifs with hfull
    · have hfull : r.len + 1 = r.capacity := hfull
      show (r.len + 1) % r.capacity = 0
      rw [hfull, Nat.mod_self]
    · rfl
  have hstart' : r.start = 0 := by rw [start, if_neg (by omega)]
  have hcap : (r.push e).capacity = r.capacity := by rw [hpush]; rfl
  have hlen : (r.push e).len = r.len + 1 := by rw [hpush]
  have hentries : (r.push e).entries = update r.entries r.len e := by rw [hpush]
  rw [insertionOrder, insertionOrder, hstart, hstart', hcap, hlen, hentries, List.range_succ,
    List.map_append, List.map_cons, List.map_nil]
  congr 1
  · refine List.map_congr_left fun k hk => ?_
    have hk := List.mem_range.1 hk
    rw [Nat.zero_add, Nat.mod_eq_of_lt (by omega)]
    exact update_of_ne (by omega) _ _
  · rw [Nat.zero_add, Nat.mod_eq_of_lt hlt]
    simp

theorem insertionOrder_push_full (h : All P r) (hfull : r.len = r.capacity)
    (hpos : 0 < r.capacity) (e : DirtyEntry) :
    (r.push e).insertionOrder = r.insertionOrder.drop 1 ++ [e] := by
  have hc := r.capacity_lt
  have hhead := h.head_lt hpos
  have hpush : r.push e = { r with
      overflowSeq := min (r.overflowSeq + 1) u64Max
      entries := update r.entries r.head e
      head := (r.head + 1) % r.capacity } := by
    rw [DirtyRing.push, if_neg (by omega), if_pos hfull]
    show DirtyRing.mk _ _ _ _ _ = _
    rw [Nat.mod_eq_of_lt (a := r.head + 1) (by omega)]
    rfl
  have hstart : (r.push e).start = (r.head + 1) % r.capacity := by
    rw [hpush, start]
    exact if_pos hfull
  have hstart' : r.start = r.head := if_pos hfull
  have hcap : (r.push e).capacity = r.capacity := by rw [hpush]; rfl
  obtain ⟨n, hn⟩ : ∃ n, r.len = n + 1 := ⟨r.len - 1, by omega⟩
  have hlen : (r.push e).len = n + 1 := by rw [hpush]; exact hn
  have hentries : (r.push e).entries = update r.entries r.head e := by rw [hpush]
  have hindex : ∀ k, ((r.head + 1) % r.capacity + k) % r.capacity =
      (r.head + (k + 1)) % r.capacity := fun k => by
    rw [Nat.mod_add_mod, Nat.add_assoc, Nat.add_comm 1 k]
  rw [insertionOrder, insertionOrder, hstart, hstart', hcap, hlen, hentries, hn]
  nth_rw 1 [List.range_succ]
  simp only [List.range_succ_eq_map, List.map_append, List.map_cons, List.map_nil, List.drop_one,
    List.tail_cons, List.map_map]
  congr 1
  · refine List.map_congr_left fun k hk => ?_
    have hk := List.mem_range.1 hk
    rw [hindex]
    refine update_of_ne (fun hsame => ?_) _ _
    -- one round further is the first slot that comes back to the head
    rcases Nat.lt_or_ge (r.head + (k + 1)) r.capacity with hlt | hge
    · rw [Nat.mod_eq_of_lt hlt] at hsame
      omega
    · rw [Nat.mod_eq_sub_mod hge, Nat.mod_eq_of_lt (by omega)] at hsame
      omega
  · rw [hindex, ← hn, hfull, Nat.add_mod_right, Nat.mod_eq_of_lt hhead, update_self]

/-- **A push is the newest entry**; a full ring loses its oldest one for it. -/
theorem insertionOrder_push (h : All P r) (e : DirtyEntry) :
    (r.push e).insertionOrder =
      (r.insertionOrder ++ [e]).drop (r.insertionOrder.length + 1 - r.capacity) := by
  have hle := h.len_le
  rw [length_insertionOrder]
  rcases Nat.eq_zero_or_pos r.capacity with h0 | hpos
  · have hlen : r.len = 0 := by omega
    have hpush : (r.push e).len = 0 := by rw [DirtyRing.push, if_pos h0]; exact hlen
    rw [insertionOrder, insertionOrder, hpush, hlen, h0]
    rfl
  · rcases Nat.lt_or_ge r.len r.capacity with hlt | hge
    · rw [insertionOrder_push_room h hlt, show r.len + 1 - r.capacity = 0 by omega, List.drop_zero]
    · have hfull : r.len = r.capacity := by omega
      rw [insertionOrder_push_full h hfull hpos, show r.len + 1 - r.capacity = 1 by omega,
        List.drop_append_of_le_length]
      rw [length_insertionOrder]
      omega

theorem capacity_push (r : DirtyRing) (e : DirtyEntry) : (r.push e).capacity = r.capacity := by
  unfold push
  split_ifs <;> rfl

/-- The ring after the pushes of `log`, all of them since it was empty. -/
structure Logged (log : List DirtyEntry) (r : DirtyRing) : Prop where
  all : All (fun _ => True) r
  order : r.insertionOrder = log.drop (log.length - r.capacity)
  head : 0 < r.capacity → r.head = log.length % r.capacity

variable {log : List DirtyEntry}

/-- An empty ring has no pushes to remember. -/
theorem Logged.empty (h : All (fun _ => True) r) (hlen : r.len = 0) (hhead : r.head = 0) :
    Logged [] r := by
  refine ⟨h, ?_, fun _ => ?_⟩
  · rw [insertionOrder, hlen, List.range_zero, List.map_nil, List.drop_nil]
  · rw [hhead, List.length_nil, Nat.zero_mod]

theorem Logged.len_eq (h : Logged log r) : r.len = min log.length r.capacity := by
  rw [← length_insertionOrder, h.order, List.length_drop]
  omega

theorem Logged.push (h : Logged log r) (e : DirtyEntry) : Logged (log ++ [e]) (r.push e) := by
  have hlen := h.len_eq
  refine ⟨h.all.push trivial, ?_, fun hpos => ?_⟩
  · rw [insertionOrder_push h.all, length_insertionOrder, capacity_push, h.order,
      ← List.drop_append_of_le_length (Nat.sub_le ..), List.drop_drop, List.length_append]
    congr 1
    simp only [List.length_cons, List.length_nil]
    omega
  · rw [capacity_push] at hpos ⊢
    have hlt := h.all.head_lt hpos
    have hc := r.capacity_lt
    have hpush : (r.push e).head = (r.head + 1) % 2 ^ 32 % r.capacity := by
      unfold DirtyRing.push
      rw [if_neg hpos.ne']
      split_ifs <;> rfl
    rw [hpush, Nat.mod_eq_of_lt (a := r.head + 1) (by omega), h.head hpos, Nat.mod_add_mod,
      List.length_append]
    rfl

/-! ## Pushes from the start -/

theorem capacity_pushes (log : List DirtyEntry) (r : DirtyRing) :
    (log.foldl push r).capacity = r.capacity := by
  induction log generalizing r with
  | nil => rfl
  | cons e es ih => rw [List.foldl_cons, ih, capacity_push]

theorem logged_pushes (capacity : ℕ) (log : List DirtyEntry) :
    Logged log (log.foldl push (withCapacity capacity)) := by
  induction log using List.reverseRecOn with
  | nil => exact .empty (all_withCapacity capacity) rfl rfl
  | append_singleton es e ih =>
    rw [List.foldl_append]
    exact ih.push e

/-- A push loses an entry when the ring is full; one without places loses the pushed one. -/
theorem overflowSeq_push (h : All P r) (e : DirtyEntry) : (r.push e).overflowSeq =
    if r.len = r.capacity then min (r.overflowSeq + 1) u64Max else r.overflowSeq := by
  have hle := h.len_le
  unfold push
  split_ifs with h0 hfull hfull
  · rfl
  · omega
  · rfl
  · rfl

theorem overflowSeq_pushes (capacity : ℕ) (log : List DirtyEntry) :
    (log.foldl push (withCapacity capacity)).overflowSeq =
      min (log.length - capacity % 2 ^ 32) u64Max := by
  induction log using List.reverseRecOn with
  | nil =>
    rw [List.length_nil, Nat.zero_sub, Nat.zero_min]
    rfl
  | append_singleton es e ih =>
    have hlog := logged_pushes capacity es
    have hlen := hlog.len_eq
    have hcap : (es.foldl push (withCapacity capacity)).capacity = capacity % 2 ^ 32 :=
      capacity_pushes es _
    rw [hcap] at hlen
    rw [List.foldl_append, List.foldl_cons, List.foldl_nil, overflowSeq_push hlog.all, hcap, hlen, ih,
      List.length_append, List.length_singleton]
    split_ifs with hfull <;> omega

theorem iter_eq_toList (r : DirtyRing) : r.iter = r.toList := rfl

/-- **A ring is a bounded history**: it holds the last entries pushed, oldest first, and has
    counted the others.  The sums of the walk fit 32 bits. -/
theorem pushes_bounded_history (capacity : ℕ) (hcap : capacity < 2 ^ 31) (log : List DirtyEntry) :
    let r := log.foldl push (withCapacity capacity)
    let kept := min log.length capacity
    r.len = kept ∧
    r.iter = log.drop (log.length - kept) ∧
    (List.range r.len).map r.entryAt = log.drop (log.length - kept) ∧
    r.overflowSeq = min (log.length - kept) u64Max ∧
    ∀ offset < r.len, r.start + offset < 2 ^ 32 := by
  intro r kept
  have hlog : Logged log r := logged_pushes capacity log
  have hsize : r.capacity = capacity :=
    (capacity_pushes log _).trans (Nat.mod_eq_of_lt (a := capacity) (by omega))
  have hlen : r.len = kept := by rw [hlog.len_eq, hsize]
  -- the walk starts below the capacity, so no sum reaches twice the capacity
  have hsums : ∀ offset < r.len, r.start + offset < 2 ^ 32 := by
    intro offset hlt
    have hle := hlog.all.len_le
    have hhead := hlog.all.head_lt (by omega)
    unfold start
    split_ifs
    · omega
    · omega
  have horder : r.toList = log.drop (log.length - kept) := by
    rw [toList_eq_of_sums hsums, hlog.order, hsize]
    congr 1
    omega
  have hlost : r.overflowSeq = min (log.length - kept) u64Max := by
    have hcount : r.overflowSeq = min (log.length - capacity % 2 ^ 32) u64Max :=
      overflowSeq_pushes capacity log
    rw [hcount, Nat.mod_eq_of_lt (a := capacity) (by omega)]
    congr 1
    omega
  exact ⟨hlen, (iter_eq_toList r).trans horder, horder, hlost, hsums⟩

theorem pushes_bounded_history_three :
    let e := fun n => DirtyEntry.mk ⟨n, 1⟩ n
    let r := [e 1, e 2, e 3].foldl push (withCapacity 2)
    r.iter = [e 2, e 3] ∧ r.overflowSeq = 1 := by
  intro e r
  obtain ⟨-, hiter, -, hlost, -⟩ := pushes_bounded_history 2 (by norm_num) [e 1, e 2, e 3]
  exact ⟨hiter, hlost⟩

end DirtyRing

namespace CellStore

variable {w : CountWidth} {pins : ℕ → Bool} {s s' : CellStore w} {maxCells : ℕ}

/-! ## Sources of a frame -/

/-- The cells of the current entries that the destination may lack, in the order given. -/
def laneOf (s : CellStore w) (lacks : ℕ → Bool) (entries : List DirtyEntry) : List CellHandle :=
  (entries.filter fun e => s.dirtyEntryCurrent e && lacks e.handle.index).map DirtyEntry.handle

/-- The active cells of some slots, in the order given. -/
def activeOf (s : CellStore w) (slots : List ℕ) : List CellHandle :=
  (slots.filter s.isActive).map s.handleFor

/-- All slots in cyclic order from the repair cursor on. -/
def sweepOrder (s : CellStore w) : List ℕ :=
  (List.range s.capacity).map fun i => (s.repairCursor + i) % s.capacity

/-- **What a frame is taken from**: the local and the forwarded dirty entries, oldest first,
    then all active cells from the cursor on. -/
def frameSources (s : CellStore w) (dest : Option ℕ) : List CellHandle :=
  s.laneOf (s.lacksFor dest) s.localDirty.insertionOrder ++
    s.laneOf (s.lacksFor dest) s.forwardedDirty.insertionOrder ++ s.activeOf s.sweepOrder

theorem laneOf_cons (s : CellStore w) (lacks : ℕ → Bool) (e : DirtyEntry) (es : List DirtyEntry) :
    s.laneOf lacks (e :: es) = if s.dirtyEntryCurrent e && lacks e.handle.index then
      e.handle :: s.laneOf lacks es else s.laneOf lacks es := by
  unfold laneOf
  rw [List.filter_cons]
  split_ifs <;> rfl

theorem laneOf_append (s : CellStore w) (lacks : ℕ → Bool) (es es' : List DirtyEntry) :
    s.laneOf lacks (es ++ es') = s.laneOf lacks es ++ s.laneOf lacks es' := by
  rw [laneOf, laneOf, laneOf, List.filter_append, List.map_append]

theorem activeOf_cons (s : CellStore w) (x : ℕ) (xs : List ℕ) :
    s.activeOf (x :: xs) =
      if s.isActive x then s.handleFor x :: s.activeOf xs else s.activeOf xs := by
  unfold activeOf
  rw [List.filter_cons]
  split_ifs <;> rfl

theorem laneOf_table (ht : s'.toCellTable = s.toCellTable) (lacks : ℕ → Bool)
    (es : List DirtyEntry) : s'.laneOf lacks es = s.laneOf lacks es := by
  unfold laneOf dirtyEntryCurrent
  rw [ht]

/-! ## Filling -/

theorem eraseDups_concat {α : Type} [DecidableEq α] (l : List α) (a : α) :
    (l ++ [a]).eraseDups = if a ∈ l then l.eraseDups else l.eraseDups ++ [a] := by
  rw [List.eraseDups_append]
  by_cases h : a ∈ l
  · simp [h, List.removeAll]
  · simp [h, List.removeAll, List.eraseDups_cons]

theorem length_eraseDups {α : Type} [DecidableEq α] (l : List α) :
    l.eraseDups.length = l.toFinset.card := by
  induction l using List.reverseRecOn with
  | nil => rfl
  | append_singleton l a ih =>
    rw [eraseDups_concat, List.toFinset_append, List.toFinset_cons, List.toFinset_nil,
      insert_empty_eq, Finset.union_singleton]
    split_ifs with h
    · rw [Finset.insert_eq_of_mem (List.mem_toFinset.2 h), ih]
    · rw [Finset.card_insert_of_notMem (mt List.mem_toFinset.1 h), List.length_append,
        List.length_singleton, ih]

/-- What comes behind enough elements is cut off. -/
theorem take_eraseDups_append {α : Type} [DecidableEq α] {n : ℕ} {l : List α}
    (h : n ≤ l.eraseDups.length) (rest : List α) :
    (l ++ rest).eraseDups.take n = l.eraseDups.take n := by
  rw [List.eraseDups_append, List.take_append_of_le_length h]

/-- The selection is what fits of the sources, each cell once. -/
structure Filled (s : CellStore w) (maxCells : ℕ) (sources : List CellHandle) (sel : Selection) :
    Prop where
  picked : Picked s sel
  out : sel.out = sources.eraseDups.take maxCells

variable {sources : List CellHandle} {sel : Selection}

/-- While there is room, nothing has been cut off. -/
theorem Filled.out_eq (h : Filled s maxCells sources sel) (hroom : sel.out.length < maxCells) :
    sel.out = sources.eraseDups := by
  have hout := h.out
  rw [hout, List.length_take] at hroom
  rw [hout, List.take_of_length_le (by omega)]

theorem Filled.select (h : Filled s maxCells sources sel) (hroom : sel.out.length < maxCells)
    {c : CellHandle} (ha : s.isActive c.index = true) (hc : c = s.handleFor c.index) :
    Filled s maxCells (sources ++ [c]) (sel.select s.selectionEpoch c) := by
  have hout := h.out_eq hroom
  refine ⟨h.picked.select ha hc, ?_⟩
  -- the mark of a slot tells whether its cell has been taken
  have hmark : sel.marks c.index = s.selectionEpoch ↔ c ∈ sources := by
    rw [h.picked.marks_iff, hout]
    simp only [List.mem_eraseDups]
    refine ⟨fun ⟨c', hmem, hindex⟩ => ?_, fun hmem => ⟨c, hmem, rfl⟩⟩
    have hc' := (h.picked.handle c' (by rw [hout]; exact List.mem_eraseDups.2 hmem)).2
    rw [hindex, ← hc] at hc'
    exact hc' ▸ hmem
  rw [Selection.select, eraseDups_concat]
  simp only [hmark]
  split_ifs with hmem
  · exact h.out
  · rw [hout] at hroom ⊢
    rw [List.take_of_length_le (by simp; omega)]

/-- A full selection stays as it is, whatever else there is. -/
theorem Filled.stop (h : Filled s maxCells sources sel) (hfull : maxCells ≤ sel.out.length)
    (rest : List CellHandle) : Filled s maxCells (sources ++ rest) sel := by
  have hout := h.out
  refine ⟨h.picked, ?_⟩
  rw [hout, List.length_take] at hfull
  rw [hout, take_eraseDups_append (by omega)]

theorem dirtyLane_filled (lacks : ℕ → Bool) {es : List DirtyEntry}
    (hes : ∀ e ∈ es, GoodEntry s.capacity e) (h : Filled s maxCells sources sel) :
    Filled s maxCells (sources ++ s.laneOf lacks es) (s.dirtyLane lacks maxCells es sel) := by
  induction es generalizing sources sel with
  | nil =>
    rw [show s.laneOf lacks [] = [] from rfl, List.append_nil]
    exact h
  | cons e es ih =>
    have hrest : ∀ e' ∈ es, GoodEntry s.capacity e' := fun e' he' => hes e' (List.mem_cons_of_mem _ he')
    unfold dirtyLane
    split_ifs with hfull hcur
    · exact h.stop hfull _
    · obtain ⟨ha, hc⟩ := current_spec (hes e (List.mem_cons_self ..)) (Bool.and_eq_true_iff.1 hcur).1
      have hsel := ih hrest (h.select (not_le.1 hfull) ha hc)
      rwa [laneOf_cons, if_pos hcur, List.append_cons]
    · rw [laneOf_cons, if_neg hcur]
      exact ih hrest h

theorem repairLane_filled {fuel visited next : ℕ} (h : Filled s maxCells sources sel) :
    Filled s maxCells
      (sources ++ s.activeOf ((List.range' visited fuel).map fun i => (s.repairCursor + i) % s.capacity))
      (s.repairLane maxCells fuel visited sel next).1 := by
  induction fuel generalizing visited sel next sources with
  | zero =>
    rw [show s.activeOf _ = [] from rfl, List.append_nil]
    exact h
  | succ fuel ih =>
    rw [List.range'_succ, List.map_cons, activeOf_cons]
    unfold repairLane
    dsimp only
    split_ifs with ha hroom hroom
    · have hsel := h.select hroom (c := s.handleFor ((s.repairCursor + visited) % s.capacity)) ha rfl
      rw [List.append_cons]
      exact ih hsel
    · exact h.stop (not_lt.1 hroom) _
    · exact ih h
    · exact h.stop (not_lt.1 hroom) _

/-- The dirty lanes of a frame. -/
theorem dirtyLanes_filled (hl : Lanes s) (lacks : ℕ → Bool) (maxCells : ℕ) :
    Filled s.bumpSelectionEpoch maxCells
      (s.laneOf lacks s.localDirty.toList ++ s.laneOf lacks s.forwardedDirty.toList)
      (s.bumpSelectionEpoch.dirtyLanes lacks maxCells) := by
  obtain ⟨hb, hm⟩ := bump_lanes hl
  have hd := sameData_bump s
  have hempty : Filled s.bumpSelectionEpoch maxCells []
      { marks := s.bumpSelectionEpoch.selectionMarks, out := [] } := ⟨picked_nil hm, by simp⟩
  have hlocal := dirtyLane_filled lacks (fun e he => hb.localDirty.mem_toList he) hempty
  rw [List.nil_append, laneOf_table hd.table, hd.localDirty] at hlocal
  unfold dirtyLanes
  dsimp only
  rw [hd.localDirty, hd.forwardedDirty]
  split_ifs with hfull
  · exact hlocal.stop hfull _
  · have hfwd := dirtyLane_filled lacks (fun e he => hb.forwardedDirty.mem_toList he) hlocal
    rwa [laneOf_table hd.table, hd.forwardedDirty] at hfwd

/-- **A frame is the start of its sources**, as the lanes walk them. -/
theorem fillFrame_sources (hl : Lanes s) (lacks : ℕ → Bool) (maxCells : ℕ) :
    (s.fillFrame lacks maxCells).2 =
      (s.laneOf lacks s.localDirty.toList ++ s.laneOf lacks s.forwardedDirty.toList ++
        s.activeOf s.sweepOrder).eraseDups.take maxCells := by
  have hd := sameData_bump s
  have hlanes := dirtyLanes_filled hl lacks maxCells
  have hsweep : s.bumpSelectionEpoch.activeOf ((List.range' 0 s.bumpSelectionEpoch.capacity).map
      fun i => (s.bumpSelectionEpoch.repairCursor + i) % s.bumpSelectionEpoch.capacity) =
      s.activeOf s.sweepOrder := by
    unfold activeOf sweepOrder
    rw [hd.table, bump_repairCursor, List.range_eq_range']
  cases hroom : s.leavesRoom lacks maxCells with
  | false =>
    rw [(fillFrame_full hroom).1]
    exact (hlanes.stop (not_lt.1 (of_decide_eq_false hroom)) _).out
  | true =>
    rw [(fillFrame_room hroom).1, ← hsweep]
    exact (repairLane_filled hlanes).out

/-- The walks over the rings come to no sum past 32 bits, or not before the frame is full. -/
def ReadsInTime (s : CellStore w) (dest : Option ℕ) (maxCells : ℕ) : Prop :=
  let reads := fun ring : DirtyRing => s.laneOf (s.lacksFor dest) ring.readable
  (s.localDirty.start + s.localDirty.len ≤ 2 ^ 32 ∨
    maxCells ≤ (reads s.localDirty).eraseDups.length) ∧
  (s.forwardedDirty.start + s.forwardedDirty.len ≤ 2 ^ 32 ∨
    maxCells ≤ (reads s.localDirty ++ reads s.forwardedDirty).eraseDups.length)

theorem fillFrame_exact (hl : Lanes s) {dest : Option ℕ} (h : s.ReadsInTime dest maxCells) :
    (s.fillFrame (s.lacksFor dest) maxCells).2 = (s.frameSources dest).eraseDups.take maxCells := by
  -- sources that begin with enough cells give the same frame
  have hfront : ∀ {front : List CellHandle}, maxCells ≤ front.eraseDups.length → ∀ rest rest',
      (front ++ rest).eraseDups.take maxCells = (front ++ rest').eraseDups.take maxCells :=
    fun hfull rest rest' => by rw [take_eraseDups_append hfull, take_eraseDups_append hfull]
  obtain ⟨hlocal, hforwarded⟩ := h
  rw [fillFrame_sources hl, frameSources]
  rcases hlocal with hlocal | hfull
  · have hread : s.localDirty.readable = s.localDirty.insertionOrder :=
      List.take_of_length_le (by rw [DirtyRing.length_insertionOrder]; omega)
    rw [DirtyRing.toList_eq hlocal]
    rcases hforwarded with hforwarded | hfull
    · rw [DirtyRing.toList_eq hforwarded]
    · dsimp only at hfull
      rw [hread] at hfull
      rw [DirtyRing.toList_eq_readable, DirtyRing.insertionOrder_eq_readable s.forwardedDirty,
        laneOf_append, laneOf_append, ← List.append_assoc, ← List.append_assoc, List.append_assoc,
        List.append_assoc (_ ++ _)]
      exact hfront hfull _ _
  · rw [s.localDirty.toList_eq_readable, s.localDirty.insertionOrder_eq_readable, laneOf_append,
      laneOf_append, List.append_assoc, List.append_assoc, List.append_assoc, List.append_assoc]
    exact hfront hfull _ _

/-- **A frame is as long as it can be.** -/
theorem fillFrame_length (hi : s.toCellTable.Inv pins) (hl : Lanes s) (lacks : ℕ → Bool)
    (maxCells : ℕ) : (s.fillFrame lacks maxCells).2.length = min maxCells s.activeLen := by
  have hf := fillFrame_framed hl lacks maxCells
  have hle := hf.length_le_active hi
  have hcap := hf.length_le
  -- all active cells are in the frame, or it is full
  have hall : (∀ x, s.isActive x = true → s.handleFor x ∈ (s.fillFrame lacks maxCells).2) →
      s.activeLen ≤ (s.fillFrame lacks maxCells).2.length := fun hmem => by
    rw [← card_activeSlots hi, ← hf.card]
    exact Finset.card_le_card fun x hx => hf.mem_iff.1 (hmem x ((mem_activeSlots hi).1 hx))
  rcases Nat.lt_or_ge maxCells s.activeLen with hlt | hge
  · have hfull : maxCells ≤ (s.fillFrame lacks maxCells).2.length := by
      cases hroom : s.leavesRoom lacks maxCells with
      | false =>
        rw [(fillFrame_full hroom).1]
        exact not_lt.1 (of_decide_eq_false hroom)
      | true =>
        obtain ⟨m, -, -, hcov, hend⟩ := fillFrame_sweeps hl hroom
        rcases hend with rfl | hfull
        · refine hlt.le.trans (hall fun x hx => ?_)
          have hd := hcov _ (Circular.dist_lt (b := x) hl.cursor_lt)
          rw [Circular.add_dist hl.cursor_lt (hi.lt hx)] at hd
          exact hd hx
        · exact hfull
    omega
  · have := hall fun x hx => fillFrame_complete hi hl lacks hge hx
    omega

/-- **Frame composition is exact**, unless a walk over a ring overflows before the frame is full:
    the frame is the first `maxCells` distinct cells of its sources.  In any case no cell comes
    twice, every handle resolves, and there are as many as possible.  The last part says what
    oldest first means: an entry that is pushed comes last, and the first one goes when the ring is
    full. -/
theorem frame_exact (config : CellStoreConfig) (id : NodeIdentity) (s₀ : CellStore w)
    (hnew : new w config id = some s₀) (calls : List (PublicCall w)) (maxCells : ℕ)
    (dest : Option ℕ) :
    let s := s₀.publicRun calls
    let frame := (s.fillFrameFor maxCells dest).2
    (s.ReadsInTime dest maxCells → frame = (s.frameSources dest).eraseDups.take maxCells) ∧
    (frame.map CellHandle.index).Nodup ∧
    (∀ h ∈ frame, s.resolve h = some h.index) ∧
    frame.length = min maxCells s.activeLen ∧
    ∀ ring, ring = s.localDirty ∨ ring = s.forwardedDirty → ∀ e, (ring.push e).insertionOrder =
      (ring.insertionOrder ++ [e]).drop (ring.insertionOrder.length + 1 - ring.capacity) := by
  intro s frame
  obtain ⟨pins, hi, hl⟩ := publicRun_inv hnew calls
  have hframe : frame = (s.fillFrame (s.lacksFor dest) maxCells).2 :=
    congrArg Prod.snd (fillFrameFor_eq s maxCells dest)
  have hf := fillFrame_framed hl (s.lacksFor dest) maxCells
  rw [hframe]
  refine ⟨fillFrame_exact hl, hf.nodup, fun h hmem => ?_, fillFrame_length hi hl _ maxCells, ?_⟩
  · obtain ⟨ha, hh⟩ := hf.handle h hmem
    rw [hh]
    exact hi.resolve_handleFor ha
  · rintro ring (rfl | rfl) e
    · exact DirtyRing.insertionOrder_push hl.localDirty e
    · exact DirtyRing.insertionOrder_push hl.forwardedDirty e

theorem frame_exact_tiny : ∃ s₀ : CellStore .u32, new .u32 tinyConfig tinyNode = some s₀ ∧
    ((s₀.publicRun [.call (.ingestLocal [tinyHits]), .call (.mergeRemote [tinyHits])]).fillFrameFor 2
      (some 0)).2 = [⟨0, 1⟩, ⟨1, 1⟩] := by
  have hrun :
      let s := tinyStore.publicRun
        [.call (.ingestLocal [tinyHits]), .call (.mergeRemote [tinyHits])]
      s.localDirty.start + s.localDirty.len = 1 ∧
        s.forwardedDirty.start + s.forwardedDirty.len = 1 ∧
        (s.frameSources (some 0)).eraseDups.take 2 = [⟨0, 1⟩, ⟨1, 1⟩] := by decide +kernel
  obtain ⟨hlocal, hforwarded, hsources⟩ := hrun
  have hexact := (frame_exact _ _ _ tinyStore_new
    [.call (.ingestLocal [tinyHits]), .call (.mergeRemote [tinyHits])] 2 (some 0)).1
    ⟨.inl (by rw [hlocal]; norm_num), .inl (by rw [hforwarded]; norm_num)⟩
  exact ⟨tinyStore, tinyStore_new, hexact.trans hsources⟩

end CellStore

end Gabion
