/-
  A ring too large for its own walk.

  The walk over a ring adds the start and an offset in 32 bits.  In a ring of `2 ^ 32 - 1`
  entries that has come round to the third one, the last sum overflows: the oldest but one
  entry of the round is read again, and the newest entry is not read at all
  (`mem_toList_huge`).  `huge_ring_misses_newest` is the frame of such a ring.
-/
import Gabion.FrameOrder

namespace Gabion

open Function

namespace DirtyRing

variable {r : DirtyRing}

/-- The walk over a full ring of `2 ^ 32 - 1` entries that starts at the third one reads all
    entries but the newest. -/
theorem mem_toList_huge (hc : r.capacity = 2 ^ 32 - 1) (hlen : r.len = r.capacity)
    (hhead : r.head = 2) (e : DirtyEntry) : e ∈ r.toList ↔ e ∈ r.insertionOrder.dropLast := by
  have hstart : r.start = 2 := by rw [start, if_pos hlen, hhead]
  have horder : r.insertionOrder.dropLast =
      (List.range (2 ^ 32 - 2)).map fun k => r.entries ((2 + k) % (2 ^ 32 - 1)) := by
    rw [insertionOrder, hstart, hlen, hc, show 2 ^ 32 - 1 = 2 ^ 32 - 2 + 1 by norm_num,
      List.range_succ, List.map_append, List.map_cons, List.map_nil, List.dropLast_concat]
  rw [horder, toList, hlen, hc, List.mem_map, List.mem_map]
  simp only [List.mem_range, entryAt, hstart, hc]
  constructor
  · rintro ⟨k, hk, rfl⟩
    rcases Nat.lt_or_ge k (2 ^ 32 - 2) with hlt | hge
    · exact ⟨k, hlt, by rw [Nat.mod_eq_of_lt (a := 2 + k) (b := 2 ^ 32) (by omega)]⟩
    · -- the sum that overflows
      obtain rfl : k = 2 ^ 32 - 2 := by omega
      exact ⟨2 ^ 32 - 3, by norm_num, by norm_num⟩
  · rintro ⟨k, hk, rfl⟩
    exact ⟨k, by omega, by rw [Nat.mod_eq_of_lt (a := 2 + k) (b := 2 ^ 32) (by omega)]⟩

end DirtyRing

namespace CellStore

/-! ## One key, counted over and over -/

/-- Three cells, and a local ring of `2 ^ 32 - 1` entries. -/
def hugeRingConfig : CellStoreConfig where
  cellCapacity := 3
  ruleDictionaryCapacity := 1
  nodeDictionaryCapacity := 1
  localDirtyCapacity := 2 ^ 32 - 1
  forwardedDirtyCapacity := 0
  peerCapacity := 0

/-- A hit on one of three keys. -/
def keyHit (keyHash : KeyHash) : Observation .u64 where
  ruleFingerprint := 7
  keyHash
  bucket := 5
  origin := 0
  incarnation := 0
  count := 1
  lastUpdateMillis := 0
  count_le := by decide

/-- The dirty entries of a hit on key 0 and `n` hits on key 1. -/
def hitLog (n : ℕ) : List DirtyEntry :=
  ⟨⟨0, 1⟩, 1⟩ :: (List.range n).map fun i => ⟨⟨1, 1⟩, i + 2⟩

theorem hitLog_succ (n : ℕ) : hitLog (n + 1) = hitLog n ++ [⟨⟨1, 1⟩, n + 2⟩] := by
  rw [hitLog, hitLog, List.range_succ, List.map_append, List.cons_append]
  rfl

theorem length_hitLog (n : ℕ) : (hitLog n).length = n + 1 := by
  rw [hitLog, List.length_cons, List.length_map, List.length_range]

/-- The store after a hit on key 0 and `n` hits on key 1. -/
structure KeyHits (n : ℕ) (s : CellStore .u64) : Prop where
  inv : ∃ pins, s.toCellTable.Inv pins
  lanes : Lanes s
  capacity : s.capacity = 3
  gen0 : s.generations 0 = 1
  gen1 : s.generations 1 = 1
  gen2 : s.generations 2 = 0
  freeHead : s.freeHead = some 2
  cursor : s.repairCursor = 0
  forwarded : s.forwardedDirty.toList = [] ∧ s.forwardedDirty.insertionOrder = []
  id0 : s.idOf 0 = (keyHit 0).localId s.localIdentity
  id1 : s.idOf 1 = (keyHit 1).localId s.localIdentity
  count0 : (s.cells 0).count = 1
  count : (s.cells 1).count = n
  sequence : (s.cells 1).originSequence = n + 1
  next : s.nextSequenceByOrigin s.localNodeSlot = n + 1
  size : s.localDirty.capacity = 2 ^ 32 - 1
  ring : s.localDirty.Logged (hitLog n)

variable {s : CellStore .u64} {n : ℕ}

/-- What a hit on key `k` does, which is counted in slot `x`. -/
structure Hit (k : KeyHash) (x n : ℕ) (s s' : CellStore .u64) : Prop where
  inv : ∃ pins, s'.toCellTable.Inv pins
  lanes : Lanes s → Lanes s'
  capacity : s'.capacity = s.capacity
  generations : s'.generations = s.generations
  freeHead : s'.freeHead = s.freeHead
  cursor : s'.repairCursor = s.repairCursor
  localNodeSlot : s'.localNodeSlot = s.localNodeSlot
  localIdentity : s'.localIdentity = s.localIdentity
  ids : ∀ y, s.isActive y = true → s'.idOf y = s.idOf y
  origin : (s'.cells x).key.origin = s.localNodeSlot
  cells : ∀ y, y ≠ x → s'.cells y = s.cells y
  count : (s'.cells x).count = n + 1
  sequence : (s'.cells x).originSequence = s.nextSequence s.localNodeSlot
  next : s'.nextSequenceByOrigin s.localNodeSlot = s.nextSequence s.localNodeSlot
  localDirty : s'.localDirty = s.localDirty.push ⟨s.handleFor x, s.nextSequence s.localNodeSlot⟩
  forwardedDirty : s'.forwardedDirty = s.forwardedDirty
  result : ∃ delta, (s.ingestRow (keyHit k) []).2.2 =
    .ok { handle := s.handleFor x, changed := true, delta }

theorem hit_of_key {pins : ℕ → Bool} {k : KeyHash} {x : ℕ} (hi : s.toCellTable.Inv pins)
    (hx : s.isActive x = true) (hid : s.idOf x = (keyHit k).localId s.localIdentity)
    (hn : (s.cells x).count = n) (hlt : n < u64Max) :
    Hit k x n s (s.step (.ingestRow (keyHit k))) := by
  have hadd : CountWidth.saturatingAddHits .u64 (s.cells x).count (keyHit k).count = n + 1 := by
    rw [hn]
    simp only [CountWidth.saturatingAddHits, CountWidth.max, keyHit, u64Max] at hlt ⊢
    omega
  have horigin : (s.cells x).key.origin = s.localNodeSlot :=
    congrArg CompactCellKey.origin (key_of_localId hi hx hid).2
  obtain ⟨hinv, hlanes, hcap, hslot, hident, hkeeps⟩ := step_spec hi (.ingestRow (keyHit k))
  obtain ⟨he, hresult⟩ := ingestRow_raised hi hx hid (by rw [hadd, hn]; omega) []
  rw [hadd] at he
  generalize htable : s.toCellTable.setCell x _ = t at he
  have hcells : t.cells = update s.cells x { s.cells x with
      count := n + 1
      lastUpdateMillis := (keyHit k).lastUpdateMillis
      originSequence := s.nextSequence s.localNodeSlot } := by
    rw [← htable]
    rfl
  have ht : t.generations = s.generations ∧ t.freeHead = s.freeHead ∧
      s.localNodeSlot = t.localNodeSlot := by
    rw [← htable]
    exact ⟨rfl, rfl, rfl⟩
  obtain ⟨hgen, hfree, htslot⟩ := ht
  have he : s.step (.ingestRow (keyHit k)) = s.announced t s.localNodeSlot x := he
  rw [he] at hinv hlanes hcap hslot hident hkeeps ⊢
  have hhandle : t.handleFor x = s.handleFor x := by
    rw [CellTable.handleFor, CellTable.handleFor, hgen]
  refine ⟨⟨_, hinv⟩, hlanes, hcap, ?_, ?_, announced_repairCursor .., hslot, hident, ?_, ?_, ?_, ?_,
    ?_, ?_, ?_, ?_, hresult⟩
  · rw [announced_toCellTable, hgen]
  · rw [announced_toCellTable, hfree]
  · intro y hy
    refine (hkeeps y hy ?_).2
    rw [announced_toCellTable, CellTable.isActive, hgen]
    exact hy
  · rw [announced_toCellTable, hcells, update_self]
    exact horigin
  · intro y hy
    rw [announced_toCellTable, hcells, update_of_ne hy]
  · rw [announced_toCellTable, hcells, update_self]
  · rw [announced_toCellTable, hcells, update_self]
  · rw [announced_nextSequenceByOrigin, update_self]
  · rw [announced_localDirty, if_pos htslot, hhandle]
  · rw [announced_forwardedDirty, if_pos htslot]

theorem KeyHits.step (h : KeyHits n s) (hn : n + 2 ≤ u64Max) :
    KeyHits (n + 1) (s.step (.ingestRow (keyHit 1))) := by
  obtain ⟨pins, hi⟩ := h.inv
  have hactive0 : s.isActive 0 = true := by rw [CellTable.isActive, h.gen0]; rfl
  have hactive1 : s.isActive 1 = true := by rw [CellTable.isActive, h.gen1]; rfl
  have hseq : s.nextSequence s.localNodeSlot = n + 2 := by
    rw [nextSequence, h.next]
    exact min_eq_left hn
  have hhit := hit_of_key hi hactive1 h.id1 h.count (by omega)
  have hentry : (⟨s.handleFor 1, n + 2⟩ : DirtyEntry) = ⟨⟨1, 1⟩, n + 2⟩ := by
    rw [CellTable.handleFor, h.gen1]
  refine ⟨hhit.inv, hhit.lanes h.lanes, hhit.capacity.trans h.capacity, ?_, ?_, ?_, ?_, ?_, ?_, ?_,
    ?_, ?_, hhit.count, ?_, ?_, ?_, ?_⟩
  · rw [hhit.generations, h.gen0]
  · rw [hhit.generations, h.gen1]
  · rw [hhit.generations, h.gen2]
  · rw [hhit.freeHead, h.freeHead]
  · rw [hhit.cursor, h.cursor]
  · rw [hhit.forwardedDirty]; exact h.forwarded
  · rw [hhit.ids 0 hactive0, hhit.localIdentity, h.id0]
  · rw [hhit.ids 1 hactive1, hhit.localIdentity, h.id1]
  · rw [hhit.cells 0 (by decide), h.count0]
  · rw [hhit.sequence, hseq]
  · rw [hhit.localNodeSlot, hhit.next, hseq]
  · rw [hhit.localDirty, DirtyRing.capacity_push, h.size]
  · rw [hhit.localDirty, hseq, hentry, hitLog_succ]
    exact h.ring.push _

theorem KeyHits.steps {k : ℕ} (h : KeyHits n s) (hk : n + k + 1 ≤ u64Max) :
    KeyHits (n + k) (s.runSteps (List.replicate k (.ingestRow (keyHit 1)))) := by
  induction k generalizing s n with
  | zero => exact h
  | succ k ih =>
    rw [List.replicate_succ, ← Nat.add_assoc, Nat.add_right_comm]
    exact ih (h.step (by omega)) (by omega)

/-- A hit on key 0 and one on key 1. -/
theorem keyHits_one : ∃ s₀ : CellStore .u64, new .u64 hugeRingConfig tinyNode = some s₀ ∧
    KeyHits 1 (s₀.runSteps [.ingestRow (keyHit 0), .ingestRow (keyHit 1)]) := by
  have hslots : (new .u64 hugeRingConfig tinyNode).map (fun s₀ =>
      let s := s₀.runSteps [.ingestRow (keyHit 0), .ingestRow (keyHit 1)]
      (s.capacity, s.generations 0, s.generations 1, s.generations 2, s.freeHead, s.repairCursor)) =
      some (3, 1, 1, 0, some 2, 0) := by decide +kernel
  have hcells : (new .u64 hugeRingConfig tinyNode).map (fun s₀ =>
      let s := s₀.runSteps [.ingestRow (keyHit 0), .ingestRow (keyHit 1)]
      (s.localIdentity, s.idOf 0, s.idOf 1, (s.cells 1).count, (s.cells 1).originSequence,
        s.nextSequenceByOrigin s.localNodeSlot)) =
      some (tinyNode, (keyHit 0).localId tinyNode, (keyHit 1).localId tinyNode, 1, 2, 2) := by
    decide +kernel
  have hrings : (new .u64 hugeRingConfig tinyNode).map (fun s₀ =>
      let s := s₀.runSteps [.ingestRow (keyHit 0), .ingestRow (keyHit 1)]
      ((s.cells 0).count, s.forwardedDirty.len, s.localDirty.capacity, s.localDirty.head,
        s.localDirty.insertionOrder)) = some (1, 0, 2 ^ 32 - 1, 2, hitLog 1) := by decide +kernel
  obtain ⟨s₀, hnew, hslots⟩ := Option.map_eq_some_iff.1 hslots
  rw [hnew, Option.map_some, Option.some.injEq] at hcells hrings
  obtain ⟨h0, hl0, -⟩ := new_spec hnew
  simp only [Prod.mk.injEq] at hslots hcells hrings
  obtain ⟨hcap, hg0, hg1, hg2, hfree, hcur⟩ := hslots
  obtain ⟨hident, hid0, hid1, hcount, hseq, hnext⟩ := hcells
  obtain ⟨hcount0, hfwd, hsize, hhead, horder⟩ := hrings
  have hlanes := runSteps_lanes h0 hl0 [.ingestRow (keyHit 0), .ingestRow (keyHit 1)]
  refine ⟨s₀, hnew, ⟨_, runSteps_inv h0 _⟩, hlanes, hcap, hg0, hg1, hg2, hfree, hcur, ⟨?_, ?_⟩,
    by rw [hident]; exact hid0, by rw [hident]; exact hid1, hcount0, hcount, hseq, hnext, hsize,
    ⟨?_, ?_, fun _ => ?_⟩⟩
  · rw [DirtyRing.toList, hfwd]; rfl
  · rw [DirtyRing.insertionOrder, hfwd]; rfl
  · exact ⟨hlanes.localDirty.len_le, hlanes.localDirty.head_eq, hlanes.localDirty.head_lt,
      fun _ _ => trivial⟩
  · rw [horder, hsize, length_hitLog]; rfl
  · rw [hhead, hsize, length_hitLog]; rfl

/-! ## The frame -/

/-- A list of one element, many times, in front of another list. -/
theorem eraseDups_const_append {α : Type} [DecidableEq α] {l : List α} {a : α}
    (hl : ∀ b ∈ l, b = a) (ha : a ∈ l) (rest : List α) :
    (l ++ rest).eraseDups = a :: (rest.filter (· != a)).eraseDups := by
  cases l with
  | nil => cases ha
  | cons b l =>
    obtain rfl := hl b (List.mem_cons_self ..)
    rw [List.cons_append, List.eraseDups_cons, List.filter_append]
    have hnone : l.filter (fun c => !c == b) = [] :=
      List.filter_eq_nil_iff.2 fun c hc => by simp [hl c (List.mem_cons_of_mem _ hc)]
    rw [hnone, List.nil_append]
    rfl

/-- The store after a hit on key 2, with the newest entry in the second place of the ring. -/
structure Overrun (s : CellStore .u64) (newest : DirtyEntry) : Prop where
  lanes : Lanes s
  sweep : s.activeOf s.sweepOrder = [⟨0, 1⟩, ⟨1, 1⟩, ⟨2, 1⟩]
  forwarded : s.forwardedDirty.toList = [] ∧ s.forwardedDirty.insertionOrder = []
  current : newest.handle = ⟨2, 1⟩ ∧ s.dirtyEntryCurrent newest = true
  older : ∃ older, s.localDirty.insertionOrder = older ++ [newest] ∧
    (∀ e, e ∈ s.localDirty.toList ↔ e ∈ older) ∧ (∀ e ∈ older, e.handle = ⟨1, 1⟩) ∧
    ∃ e ∈ older, s.dirtyEntryCurrent e = true

/-- The code's walk takes key 1 for the first cell and key 0 for the second; the newest change
    is on key 2. -/
theorem Overrun.frames {newest : DirtyEntry} (h : Overrun s newest) :
    (s.fillFrameFor 2 none).2 = [⟨1, 1⟩, ⟨0, 1⟩] ∧
      (s.frameSources none).eraseDups.take 2 = [⟨1, 1⟩, ⟨2, 1⟩] := by
  obtain ⟨older, horder, hwalk, hhandle, e, he, hcur⟩ := h.older
  have hlane : ∀ es : List DirtyEntry, (∀ e, e ∈ es ↔ e ∈ older) →
      (∀ c ∈ s.laneOf (fun _ => true) es, c = ⟨1, 1⟩) ∧
        (⟨1, 1⟩ : CellHandle) ∈ s.laneOf (fun _ => true) es := by
    intro es hes
    simp only [laneOf, List.mem_map, List.mem_filter, Bool.and_true]
    refine ⟨?_, e, ⟨(hes e).2 he, hcur⟩, hhandle e he⟩
    rintro c ⟨e', ⟨he', -⟩, rfl⟩
    exact hhandle e' ((hes e').1 he')
  constructor
  · obtain ⟨hall, hmem⟩ := hlane s.localDirty.toList hwalk
    rw [fillFrameFor_eq, fillFrame_sources h.lanes, h.forwarded.1, h.sweep]
    show ((s.laneOf (fun _ => true) s.localDirty.toList ++ [] ++ _).eraseDups).take 2 = _
    rw [List.append_nil, eraseDups_const_append hall hmem]
    decide
  · obtain ⟨hall, hmem⟩ := hlane older fun _ => Iff.rfl
    have hnew : s.laneOf (fun _ => true) [newest] = [⟨2, 1⟩] := by
      simp [laneOf, h.current.1, h.current.2]
    show ((s.laneOf (fun _ => true) s.localDirty.insertionOrder ++
      s.laneOf (fun _ => true) s.forwardedDirty.insertionOrder ++ _).eraseDups).take 2 = _
    have hnil : s.laneOf (fun _ => true) [] = [] := rfl
    rw [horder, laneOf_append, hnew, h.forwarded.2, hnil, h.sweep, List.append_nil,
      List.append_assoc, eraseDups_const_append hall hmem]
    decide

/-- The entries of key 1 that are left when the ring has come round. -/
theorem mem_older {e : DirtyEntry} (he : e ∈ (hitLog n).drop 2) : e.handle = ⟨1, 1⟩ := by
  rw [hitLog, List.drop_succ_cons] at he
  obtain ⟨i, -, rfl⟩ := List.mem_map.1 (List.mem_of_mem_drop he)
  rfl

/-- The last hit on key 1 is among them. -/
theorem last_mem_older (hn : 2 ≤ n) : ⟨⟨1, 1⟩, n + 1⟩ ∈ (hitLog n).drop 2 := by
  obtain ⟨m, rfl⟩ : ∃ m, n = m + 1 := ⟨n - 1, by omega⟩
  rw [hitLog_succ, List.drop_append_of_le_length (by rw [length_hitLog]; omega)]
  exact List.mem_append_right _ (List.mem_singleton.2 rfl)

/-- The entry of a hit on key 2, after as many changes as the ring has places. -/
def newestEntry : DirtyEntry := { handle := ⟨2, 1⟩, originSequence := 2 ^ 32 + 1 }

theorem KeyHits.overrun (h : KeyHits (2 ^ 32 - 1) s) :
    Overrun (s.step (.ingestRow (keyHit 2))) newestEntry := by
  obtain ⟨pins, hi⟩ := h.inv
  have hactive1 : s.isActive 1 = true := by rw [CellTable.isActive, h.gen1]; rfl
  have hr : s.ruleDictionary.find (keyHit 2).ruleFingerprint = some (s.cells 1).key.rule :=
    (key_of_localId hi hactive1 h.id1).1
  -- the two active cells have other keys
  have hnone : ∀ y, s.isActive y = true → s.idOf y ≠ (keyHit 2).localId s.localIdentity := by
    intro y hy he
    have hlt := hi.lt hy
    rw [h.capacity] at hlt
    interval_cases y
    · exact absurd (congrArg CellId.keyHash (h.id0.symm.trans he)) (show (0 : KeyHash) ≠ 2 by decide)
    · exact absurd (congrArg CellId.keyHash (h.id1.symm.trans he)) (show (1 : KeyHash) ≠ 2 by decide)
    · rw [CellTable.isActive, h.gen2] at hy; cases hy
  have hseq : s.nextSequence s.localNodeSlot = 2 ^ 32 + 1 := by
    rw [nextSequence, h.next]; rfl
  obtain ⟨c, -, hcseq, he⟩ := ingestRow_placed hi h.freeHead hr hnone []
  have hlanes := (step_spec hi (.ingestRow (keyHit 2))).lanes h.lanes
  have he : s.step (.ingestRow (keyHit 2)) =
    s.announced (s.toCellTable.place 2 c) s.localNodeSlot 2 := he
  have hgen : ∀ x, (s.toCellTable.place 2 c).generations x =
      if x = 2 then 1 else s.generations x := fun x => by
    show update s.generations 2 ((s.generations 2 + 1) % 2 ^ 32) x = _
    rw [update_apply, h.gen2]
    rfl
  have hcap : (s.toCellTable.place 2 c).capacity = 3 := h.capacity
  have hcells : ∀ x, (s.toCellTable.place 2 c).cells x = if x = 2 then c else s.cells x :=
    fun x => update_apply ..
  have hslot : s.localNodeSlot = (s.toCellTable.place 2 c).localNodeSlot := rfl
  have hring : (s.announced (s.toCellTable.place 2 c) s.localNodeSlot 2).localDirty =
      s.localDirty.push newestEntry := by
    rw [announced_localDirty, if_pos hslot, hseq, CellTable.handleFor, hgen, if_pos rfl]
    rfl
  have hforwarded : (s.announced (s.toCellTable.place 2 c) s.localNodeSlot 2).forwardedDirty =
      s.forwardedDirty := by rw [announced_forwardedDirty, if_pos hslot]
  rw [he] at hlanes ⊢
  have hlog := h.ring.push newestEntry
  have hsize : (s.localDirty.push newestEntry).capacity = 2 ^ 32 - 1 := by
    rw [DirtyRing.capacity_push, h.size]
  have hlength : (hitLog (2 ^ 32 - 1) ++ [newestEntry]).length = 2 ^ 32 + 1 := by
    rw [List.length_append, length_hitLog]; rfl
  have horder : (s.localDirty.push newestEntry).insertionOrder =
      (hitLog (2 ^ 32 - 1)).drop 2 ++ [newestEntry] := by
    rw [hlog.order, hlength, hsize, show 2 ^ 32 + 1 - (2 ^ 32 - 1) = 2 by norm_num,
      List.drop_append_of_le_length (by rw [length_hitLog]; norm_num)]
  refine ⟨hlanes, ?_, by rw [hforwarded]; exact h.forwarded, ⟨rfl, ?_⟩,
    (hitLog (2 ^ 32 - 1)).drop 2, by rw [hring, horder], fun e => ?_, fun e => mem_older, ?_⟩
  · rw [sweepOrder, announced_repairCursor, announced_toCellTable, hcap, h.cursor]
    simp only [activeOf, announced_toCellTable]
    simp [List.range_succ, List.filter, CellTable.isActive, CellTable.handleFor, hgen, h.gen0, h.gen1]
  · simp [dirtyEntryCurrent, newestEntry, announced_toCellTable, hcap, hgen, hcells, hcseq, hseq]
  · rw [hring, DirtyRing.mem_toList_huge hsize, horder, List.dropLast_concat]
    · rw [hlog.len_eq, hlength, hsize]; rfl
    · rw [hlog.head (by rw [hsize]; norm_num), hlength, hsize]; rfl
  · refine ⟨_, last_mem_older (by norm_num), ?_⟩
    simp [dirtyEntryCurrent, announced_toCellTable, hcap, hgen, hcells, h.gen1, h.sequence]

/-- **A ring that misses its newest change.**  Of three cells, the frame for two takes the one
    changed last but one and, from the repair lane, one that has not changed for `2 ^ 32`
    changes.  The newest change is left out. -/
theorem huge_ring_misses_newest : ∃ s₀ : CellStore .u64,
    new .u64 hugeRingConfig tinyNode = some s₀ ∧
    let s := s₀.publicRun [.call (.ingestLocal
      (keyHit 0 :: List.replicate (2 ^ 32 - 1) (keyHit 1) ++ [keyHit 2]))]
    (s.fillFrameFor 2 none).2 = [⟨1, 1⟩, ⟨0, 1⟩] ∧
      (s.frameSources none).eraseDups.take 2 = [⟨1, 1⟩, ⟨2, 1⟩] := by
  obtain ⟨s₀, hnew, hone⟩ := keyHits_one
  refine ⟨s₀, hnew, ?_⟩
  have hrun : ∀ k, s₀.publicRun [.call (.ingestLocal
      (keyHit 0 :: List.replicate (k + 1) (keyHit 1) ++ [keyHit 2]))] =
      ((s₀.runSteps [.ingestRow (keyHit 0), .ingestRow (keyHit 1)]).runSteps
        (List.replicate k (.ingestRow (keyHit 1)))).step (.ingestRow (keyHit 2)) := fun k => by
    have hcall : ∀ obs, s₀.publicRun [.call (.ingestLocal obs)] =
        s₀.runSteps (obs.map .ingestRow) := fun obs => ingestLocal_steps s₀ obs []
    rw [hcall, List.map_append, runSteps_append, List.map_cons, List.replicate_succ, List.map_cons,
      List.map_replicate]
    rfl
  have hmany := hone.steps (k := 2 ^ 32 - 2) (by unfold u64Max; omega)
  have hsum : 1 + (2 ^ 32 - 2) = 2 ^ 32 - 1 := by norm_num
  have hpred : 2 ^ 32 - 1 = 2 ^ 32 - 2 + 1 := by norm_num
  rw [hsum] at hmany
  dsimp only
  rw [hpred, hrun]
  exact hmany.overrun.frames

end CellStore

end Gabion
