/-
  `CellIndex` (`crdt/index.rs`): the open-addressing index from a 64-bit hash to a slot,
  as an instance of the Robin Hood table.

  `slot_indexes` and `hashes` are one array of optional pairs; `EMPTY_INDEX_SLOT` is
  `none`.  The capacity is a power of two, so `x & mask` is `x % capacity`.
-/
import Gabion.Types
import Gabion.Lib.RobinHood

namespace Gabion

open RobinHood Circular

structure CellIndex where
  buckets : ℕ → Option (BitVec 64 × ℕ)
  len : ℕ
  capacity : ℕ

namespace CellIndex

/-- `(hash as u32) & mask`. -/
def ideal (capacity : ℕ) (e : BitVec 64 × ℕ) : ℕ := e.1.toNat % capacity

/-- `capacity.is_power_of_two()`. -/
def isPowerOfTwo (c : ℕ) : Bool := 2 ^ Nat.log2 c == c

/-- `none` where the source asserts. -/
def withCapacity (capacity : ℕ) : Option CellIndex :=
  if capacity = 0 then none
  else if isPowerOfTwo capacity then some { buckets := fun _ => none, len := 0, capacity }
  else none

def find (t : CellIndex) (hash : BitVec 64) (eq : ℕ → Bool) : Option ℕ :=
  if t.len = 0 then none
  else
    (findLoop t.capacity (ideal t.capacity) t.buckets (fun e => e.1 == hash && eq e.2) t.capacity
      (hash.toNat % t.capacity) 0).map fun r => r.2.2

/-- `insert_unchecked` behind its two assertions, which the callers keep: the slot is not
    `EMPTY_INDEX_SLOT` (slots are below the capacity of a slab), and the table is not full. -/
def insertUnchecked (t : CellIndex) (hash : BitVec 64) (slot : ℕ) : CellIndex :=
  { t with
    buckets := insertLoop t.capacity (ideal t.capacity) t.capacity t.buckets
      (hash.toNat % t.capacity) (hash, slot) 0
    len := t.len + 1 }

def remove (t : CellIndex) (hash : BitVec 64) (slot : ℕ) : CellIndex :=
  if t.len = 0 then t
  else
    match findLoop t.capacity (ideal t.capacity) t.buckets (fun e => e.1 == hash && e.2 == slot)
      t.capacity (hash.toNat % t.capacity) 0 with
    | none => t
    | some (i, _) =>
      { t with
        buckets := backshift t.capacity (ideal t.capacity) t.capacity t.buckets i
        len := t.len - 1 }

/-! ## Specification -/

/-- The table stores slot `slot` under `hash`. -/
def Contains (t : CellIndex) (hash : BitVec 64) (slot : ℕ) : Prop :=
  Stored t.capacity t.buckets (hash, slot)

structure Wf (t : CellIndex) : Prop where
  pos : 0 < t.capacity
  layout : Layout t.capacity (ideal t.capacity) t.buckets
  len_eq : t.len = occupied t.capacity t.buckets

variable {t : CellIndex} {hash : BitVec 64} {slot : ℕ}

theorem Wf.ideal_lt (h : t.Wf) (e : BitVec 64 × ℕ) : ideal t.capacity e < t.capacity :=
  Nat.mod_lt _ h.pos

theorem withCapacity_spec {c : ℕ} (h : withCapacity c = some t) :
    t.Wf ∧ t.capacity = c ∧ t.len = 0 ∧ ∀ hash slot, ¬ t.Contains hash slot := by
  unfold withCapacity at h
  split_ifs at h with h0 h1
  cases h
  exact ⟨⟨Nat.pos_of_ne_zero h0, layout_empty, occupied_empty.symm⟩, rfl, rfl,
    fun _ _ ⟨_, _, h⟩ => by simp at h⟩

theorem find_some {p : ℕ → Bool} (hw : t.Wf) (h : t.find hash p = some slot) :
    t.Contains hash slot ∧ p slot = true := by
  unfold find at h
  split_ifs at h with h0
  obtain ⟨⟨i, e⟩, he, rfl⟩ := Option.map_eq_some_iff.1 h
  obtain ⟨hi, hb, hp⟩ := findLoop_sound _ _ _ (Nat.mod_lt _ hw.pos) he
  simp only [Bool.and_eq_true, beq_iff_eq] at hp
  exact ⟨⟨i, hi, by rw [hb, ← hp.1]⟩, hp.2⟩

theorem find_of_contains {p : ℕ → Bool} (hw : t.Wf) (h : t.Contains hash slot)
    (he : p slot = true) : ∃ slot', t.find hash p = some slot' := by
  obtain ⟨j, hj, hb⟩ := h
  have hl : t.len ≠ 0 := by
    have := occupied_pos hj hb
    rw [hw.len_eq]; omega
  have := findLoop_complete hw.ideal_lt hw.layout (p := fun e => e.1 == hash && p e.2) hj hb
    (by simp [he]) t.capacity 0 (Nat.zero_le _) (by simpa using probe_lt hw.ideal_lt _ j)
  obtain ⟨r, hr⟩ := Option.isSome_iff_exists.1 this
  have hm : (ideal t.capacity (hash, slot) + 0) % t.capacity = hash.toNat % t.capacity := by
    simp [ideal]
  rw [hm] at hr
  exact ⟨r.2.2, by simp [find, hl, hr]⟩

/-- Some bucket is empty or holds an entry at home.  A table that is not full has one; a full
    one that has been filled by insertion does, too. -/
def Anchored (t : CellIndex) : Prop :=
  ∃ z < t.capacity, Stops t.capacity (ideal t.capacity) t.buckets z

theorem Wf.exists_empty (hw : t.Wf) (hlen : t.len < t.capacity) :
    ∃ e < t.capacity, t.buckets e = none :=
  RobinHood.exists_empty (by rw [← hw.len_eq]; exact hlen)

theorem Wf.anchored (hw : t.Wf) (hlen : t.len < t.capacity) : t.Anchored := by
  obtain ⟨e, he, hb⟩ := hw.exists_empty hlen
  exact ⟨e, he, stops_of_none hb⟩

/-- The loop of `insert_unchecked` ends, also in the last empty bucket. -/
theorem insertUnchecked_runs (hw : t.Wf) (hlen : t.len < t.capacity) :
    InsertRun t.capacity (ideal t.capacity) t.buckets (hash.toNat % t.capacity) (hash, slot) 0
      (t.insertUnchecked hash slot).buckets := by
  obtain ⟨e, he, hb⟩ := hw.exists_empty hlen
  have hi : hash.toNat % t.capacity < t.capacity := Nat.mod_lt _ hw.pos
  exact insertLoop_runs _ _ _ _ _ hi ⟨e, he, hb, dist_lt hi⟩

theorem insertUnchecked_full_spec (hw : t.Wf) (hlen : t.len < t.capacity)
    (hn : ¬ t.Contains hash slot) :
    (t.insertUnchecked hash slot).Wf ∧ (t.insertUnchecked hash slot).Anchored ∧
      ∀ h s, (t.insertUnchecked hash slot).Contains h s ↔
        t.Contains h s ∨ (h = hash ∧ s = slot) := by
  obtain ⟨h1, h2, h3, h4⟩ := (insertUnchecked_runs hw hlen).spec hw.ideal_lt hw.layout
    (Nat.mod_lt _ hw.pos) (fits_home hw.ideal_lt (hash, slot)) hn (hw.exists_empty hlen)
  refine ⟨⟨hw.pos, h1, ?_⟩, h4, fun h s => ?_⟩
  · exact (congrArg (· + 1) hw.len_eq).trans h3.symm
  · exact (h2 (h, s)).trans (by simp [Contains])

theorem insertUnchecked_spec (hw : t.Wf) (hlen : t.len < t.capacity)
    (hn : ¬ t.Contains hash slot) :
    (t.insertUnchecked hash slot).Wf ∧
      ∀ h s, (t.insertUnchecked hash slot).Contains h s ↔
        t.Contains h s ∨ (h = hash ∧ s = slot) :=
  ⟨(insertUnchecked_full_spec hw hlen hn).1, (insertUnchecked_full_spec hw hlen hn).2.2⟩

/-- The entry at bucket `i` is the only one stored under its hash and slot. -/
theorem storedOff_iff (hw : t.Wf) {i : ℕ} (hi : i < t.capacity)
    (hb : t.buckets i = some (hash, slot)) (e : BitVec 64 × ℕ) :
    StoredOff t.capacity t.buckets i e ↔ Stored t.capacity t.buckets e ∧ e ≠ (hash, slot) := by
  constructor
  · rintro ⟨j, hj, hji, he⟩
    exact ⟨⟨j, hj, he⟩, fun h => hji (hw.layout.distinct j hj i hi _ (h ▸ he) hb)⟩
  · rintro ⟨⟨j, hj, he⟩, hne⟩
    exact ⟨j, hj, fun h => hne (Option.some.inj (by rw [← he, ← hb, h])), he⟩

/-- `remove` shifts from the bucket of the pair. -/
theorem remove_of_contains (hw : t.Wf) (hc : t.Contains hash slot) :
    ∃ i < t.capacity, t.buckets i = some (hash, slot) ∧ t.remove hash slot = { t with
      buckets := backshift t.capacity (ideal t.capacity) t.capacity t.buckets i
      len := t.len - 1 } := by
  obtain ⟨s, hs⟩ := find_of_contains (p := (· == slot)) hw hc (by simp)
  unfold find at hs
  split_ifs at hs with hne
  obtain ⟨⟨i, e⟩, hr, -⟩ := Option.map_eq_some_iff.1 hs
  obtain ⟨hi, hb, hp⟩ := findLoop_sound _ _ _ (Nat.mod_lt _ hw.pos) hr
  simp only [Bool.and_eq_true, beq_iff_eq] at hp
  refine ⟨i, hi, by rw [hb, ← hp.1, ← hp.2], ?_⟩
  simp only [remove, hne, if_false, hr]

/-- Without the pair `remove` does nothing. -/
theorem remove_of_not_contains (hw : t.Wf) (hc : ¬ t.Contains hash slot) :
    t.remove hash slot = t := by
  unfold remove
  split_ifs
  · rfl
  split
  · rfl
  · rename_i i e he
    obtain ⟨hi, hb, hp⟩ := findLoop_sound _ _ _ (Nat.mod_lt _ hw.pos) he
    simp only [Bool.and_eq_true, beq_iff_eq] at hp
    exact absurd ⟨i, hi, by rw [hb, ← hp.1, ← hp.2]⟩ hc

/-- The shift of `remove` ends, also on a full table. -/
theorem backshift_runs_of_anchored (hw : t.Wf) (ha : t.Anchored) {i : ℕ} (hi : i < t.capacity)
    {e : BitVec 64 × ℕ} (hb : t.buckets i = some e) :
    ShiftRun t.capacity (ideal t.capacity) t.buckets i
      (backshift t.capacity (ideal t.capacity) t.capacity t.buckets i) :=
  backshift_runs hw.ideal_lt hw.layout hi hb ha

theorem remove_full_spec (hw : t.Wf) (ha : t.Anchored) (hc : t.Contains hash slot) :
    (t.remove hash slot).Wf ∧ (t.remove hash slot).len + 1 = t.len ∧
      (t.remove hash slot).capacity = t.capacity ∧
      ∀ h s, (t.remove hash slot).Contains h s ↔ t.Contains h s ∧ ¬ (h = hash ∧ s = slot) := by
  obtain ⟨i, hi, hb, heq⟩ := remove_of_contains hw hc
  have hpos := occupied_pos hi hb
  have hne : t.len ≠ 0 := by rw [hw.len_eq]; omega
  obtain ⟨h1, h2, h3⟩ := (backshift_runs_of_anchored hw ha hi hb).spec hw.ideal_lt hi
    (hw.layout.hole hi hb) ⟨_, hb⟩
  rw [heq]
  refine ⟨⟨hw.pos, h1, ?_⟩, Nat.sub_add_cancel (Nat.pos_of_ne_zero hne), rfl, fun h s => ?_⟩
  · dsimp only; rw [hw.len_eq]; omega
  · simp only [Contains, h2, storedOff_iff hw hi hb, ne_eq, Prod.mk.injEq]

theorem remove_spec (hw : t.Wf) (hlen : t.len < t.capacity) (hc : t.Contains hash slot) :
    (t.remove hash slot).Wf ∧ (t.remove hash slot).len + 1 = t.len ∧
      (t.remove hash slot).capacity = t.capacity ∧
      ∀ h s, (t.remove hash slot).Contains h s ↔ t.Contains h s ∧ ¬ (h = hash ∧ s = slot) :=
  remove_full_spec hw (hw.anchored hlen) hc

/-! ## The index as a multimap

The pairs stored in the index form a finite set: a hash may stand with many slots. -/

/-- The mutating calls of the index. -/
inductive Op
  | insertUnchecked (hash : BitVec 64) (slot : ℕ)
  | remove (hash : BitVec 64) (slot : ℕ)

def apply (t : CellIndex) : Op → CellIndex
  | .insertUnchecked hash slot => t.insertUnchecked hash slot
  | .remove hash slot => t.remove hash slot

/-- **What a call means** for the stored pairs. -/
def Op.change (pairs : Finset (BitVec 64 × ℕ)) : Op → Finset (BitVec 64 × ℕ)
  | insertUnchecked hash slot => insert (hash, slot) pairs
  | remove hash slot => pairs.erase (hash, slot)

/-- What a caller of `insert_unchecked` has to know: the pair is not there, and there is room. -/
def Op.Allowed (capacity : ℕ) (pairs : Finset (BitVec 64 × ℕ)) : Op → Prop
  | insertUnchecked hash slot => (hash, slot) ∉ pairs ∧ pairs.card < capacity
  | remove _ _ => True

/-- Every call of the sequence is allowed when it is made. -/
def AllowedRun (capacity : ℕ) : Finset (BitVec 64 × ℕ) → List Op → Prop
  | _, [] => True
  | pairs, op :: ops => op.Allowed capacity pairs ∧ AllowedRun capacity (op.change pairs) ops

/-- The index stands for the pairs. -/
structure Refines (t : CellIndex) (capacity : ℕ) (pairs : Finset (BitVec 64 × ℕ)) : Prop where
  wf : t.Wf
  anchored : t.Anchored
  capacity_eq : t.capacity = capacity
  contains : ∀ hash slot, t.Contains hash slot ↔ (hash, slot) ∈ pairs
  len_eq : t.len = pairs.card

variable {capacity : ℕ} {pairs : Finset (BitVec 64 × ℕ)}

theorem withCapacity_refines (h : withCapacity capacity = some t) : t.Refines capacity ∅ := by
  obtain ⟨hw, hcap, hlen, hno⟩ := withCapacity_spec h
  have hpos := hw.pos
  exact ⟨hw, hw.anchored (by omega), hcap, fun hash slot => by simp [hno], by simpa using hlen⟩

theorem Refines.insertUnchecked (h : t.Refines capacity pairs) (hnew : (hash, slot) ∉ pairs)
    (hroom : pairs.card < capacity) :
    (t.insertUnchecked hash slot).Refines capacity (insert (hash, slot) pairs) := by
  have hlen : t.len < t.capacity := by rw [h.len_eq, h.capacity_eq]; exact hroom
  obtain ⟨hw, ha, hc⟩ := insertUnchecked_full_spec h.wf hlen (mt (h.contains hash slot).1 hnew)
  refine ⟨hw, ha, h.capacity_eq, fun x y => ?_, ?_⟩
  · rw [hc, h.contains, Finset.mem_insert, Prod.mk.injEq, or_comm]
  · rw [Finset.card_insert_of_notMem hnew, ← h.len_eq]
    rfl

theorem Refines.remove (h : t.Refines capacity pairs) (hash : BitVec 64) (slot : ℕ) :
    (t.remove hash slot).Refines capacity (pairs.erase (hash, slot)) := by
  by_cases hmem : (hash, slot) ∈ pairs
  · obtain ⟨hw, hlen, hcap, hc⟩ := remove_full_spec h.wf h.anchored ((h.contains _ _).2 hmem)
    have hle : t.len ≤ t.capacity := by
      rw [h.wf.len_eq]
      exact (Finset.card_filter_le _ _).trans_eq (Finset.card_range _)
    refine ⟨hw, hw.anchored (by omega), hcap.trans h.capacity_eq, fun x y => ?_, ?_⟩
    · rw [hc, h.contains, Finset.mem_erase, ne_eq, Prod.mk.injEq, and_comm]
    · rw [Finset.card_erase_of_mem hmem, ← h.len_eq]
      omega
  · rw [remove_of_not_contains h.wf (mt (h.contains hash slot).1 hmem), Finset.erase_eq_of_notMem hmem]
    exact h

/-- **Every sequence of allowed calls** keeps the index and the pairs together. -/
theorem Refines.run (ops : List Op) (h : t.Refines capacity pairs)
    (hops : AllowedRun capacity pairs ops) :
    (ops.foldl apply t).Refines capacity (ops.foldl Op.change pairs) := by
  induction ops generalizing t pairs with
  | nil => exact h
  | cons op ops ih =>
    obtain ⟨hop, hops⟩ := hops
    refine ih ?_ hops
    cases op with
    | insertUnchecked hash slot => exact h.insertUnchecked hop.1 hop.2
    | remove hash slot => exact h.remove hash slot

theorem withCapacity_two_pow (k : ℕ) : ∃ t, withCapacity (2 ^ k) = some t := by
  have hpow : isPowerOfTwo (2 ^ k) = true := by simp [isPowerOfTwo]
  have hpos : 2 ^ k ≠ 0 := (Nat.two_pow_pos k).ne'
  exact ⟨_, by rw [withCapacity, if_neg hpos, if_pos hpow]⟩

/-- **The index refines a finite multimap.**  For every power of two as capacity and every
    sequence of allowed calls, whatever the hashes, up to a full table: `find` returns a stored
    slot with the hash that the predicate accepts, and one exactly if there is one; the stored
    pairs are those inserted and not removed since, and `len` is their number.  The searches
    count their steps up to the capacity; the two loops without a bound of their own, the one of
    an insertion and the shift of a removal, end. -/
theorem index_refines_multimap (k : ℕ) (ops : List Op) (hops : AllowedRun (2 ^ k) ∅ ops) :
    ∃ t₀, withCapacity (2 ^ k) = some t₀ ∧
      let t := ops.foldl apply t₀
      let pairs := ops.foldl Op.change ∅
      (∀ hash (eq : ℕ → Bool),
        (∀ slot, t.find hash eq = some slot → (hash, slot) ∈ pairs ∧ eq slot = true) ∧
        ((∃ slot, t.find hash eq = some slot) ↔ ∃ slot, (hash, slot) ∈ pairs ∧ eq slot = true)) ∧
      (∀ hash slot, t.Contains hash slot ↔ (hash, slot) ∈ pairs) ∧
      t.len = pairs.card ∧
      (∀ hash slot, pairs.card < 2 ^ k →
        InsertRun (2 ^ k) (ideal (2 ^ k)) t.buckets (hash.toNat % 2 ^ k) (hash, slot) 0
          (t.insertUnchecked hash slot).buckets) ∧
      ∀ hash slot, (hash, slot) ∈ pairs → ∃ i, t.buckets i = some (hash, slot) ∧
        ShiftRun (2 ^ k) (ideal (2 ^ k)) t.buckets i (t.remove hash slot).buckets := by
  obtain ⟨t₀, hnew⟩ := withCapacity_two_pow k
  have h := (withCapacity_refines hnew).run ops hops
  refine ⟨t₀, hnew, fun hash eq => ⟨fun slot hfind => ?_, ?_, ?_⟩, h.contains, h.len_eq,
    fun hash slot hroom => ?_, fun hash slot hmem => ?_⟩
  · obtain ⟨hc, he⟩ := find_some h.wf hfind
    exact ⟨(h.contains _ _).1 hc, he⟩
  · rintro ⟨slot, hfind⟩
    obtain ⟨hc, he⟩ := find_some h.wf hfind
    exact ⟨slot, (h.contains _ _).1 hc, he⟩
  · rintro ⟨slot, hmem, he⟩
    exact find_of_contains h.wf ((h.contains _ _).2 hmem) he
  · have hlen : (ops.foldl apply t₀).len < (ops.foldl apply t₀).capacity := by
      rw [h.len_eq, h.capacity_eq]
      exact hroom
    have hrun : InsertRun _ _ _ _ (hash, slot) 0 _ := insertUnchecked_runs h.wf hlen
    rwa [h.capacity_eq] at hrun
  · obtain ⟨i, hi, hb, heq⟩ := remove_of_contains h.wf ((h.contains _ _).2 hmem)
    refine ⟨i, hb, ?_⟩
    have hrun := backshift_runs_of_anchored h.wf h.anchored hi hb
    rw [heq]
    simp only [h.capacity_eq] at hrun ⊢
    exact hrun

/-- Two pairs under one hash fill a table of two buckets; the first is removed, and one that is
    not there. -/
def crowdedOps : List Op :=
  [.insertUnchecked 6 1, .insertUnchecked 6 2, .remove 6 1, .remove 6 3]

theorem index_refines_crowded : AllowedRun (2 ^ 1) ∅ crowdedOps ∧
    ∃ t₀, withCapacity (2 ^ 1) = some t₀ ∧ (crowdedOps.foldl apply t₀).len = 1 ∧
      (∃ slot, (crowdedOps.foldl apply t₀).find 6 (fun _ => true) = some slot) ∧
      ∃ slot, ((crowdedOps.take 2).foldl apply t₀).find 6 (· == 2) = some slot := by
  have hops : AllowedRun (2 ^ 1) ∅ crowdedOps :=
    ⟨⟨by decide, by decide⟩, ⟨by decide, by decide⟩, trivial, trivial, trivial⟩
  have hfull : AllowedRun (2 ^ 1) ∅ (crowdedOps.take 2) :=
    ⟨⟨by decide, by decide⟩, ⟨by decide, by decide⟩, trivial⟩
  obtain ⟨t₀, hnew, hfind, -, hlen, -⟩ := index_refines_multimap 1 crowdedOps hops
  obtain ⟨t₁, hnew₁, hfind₁, -⟩ := index_refines_multimap 1 (crowdedOps.take 2) hfull
  cases hnew.symm.trans hnew₁
  exact ⟨hops, t₀, hnew, hlen.trans (by decide), (hfind 6 _).2.2 ⟨2, by decide⟩,
    (hfind₁ 6 _).2.2 ⟨2, by decide⟩⟩

end CellIndex

end Gabion
