/-
  Rule and node identity dictionaries (`crdt/dictionary.rs`).

  `RuleDictionary` and `NodeDictionary` of the source differ in what they key on and in
  what `intern` does to a descriptor it finds; everything else is shared here as
  `Dictionary`.  `EMPTY_DICT_SLOT` is `none`.
-/
import Gabion.Slab

namespace Gabion

open Slots Function

/-! ## Descriptors -/

def u32Max : ℕ := 2 ^ 32 - 1

structure RuleDescriptor where
  fingerprint : Fingerprint
  windowMillis : ℕ
  bucketMillis : ℕ
  limit : ℕ
  flags : ℕ
  localRuleId : ℕ
deriving DecidableEq, Repr

namespace RuleDescriptor

def default : RuleDescriptor :=
  { fingerprint := 0
    windowMillis := 60000
    bucketMillis := 1000
    limit := 0
    flags := 0
    localRuleId := u32Max }

/-- The descriptor of a rule known from the wire only. -/
def wireOnly (fingerprint : Fingerprint) : RuleDescriptor := { default with fingerprint }

def appliesLocally (d : RuleDescriptor) : Bool := d.localRuleId != u32Max

def currentEpoch (d : RuleDescriptor) (nowMillis : ℕ) : BucketEpoch :=
  if d.bucketMillis = 0 then 0 else BitVec.ofNat 32 (nowMillis / d.bucketMillis)

def liveBuckets (d : RuleDescriptor) : ℕ :=
  if d.bucketMillis = 0 then 0
  else max ((d.windowMillis + d.bucketMillis - 1) / d.bucketMillis) 1

end RuleDescriptor

/-- What a dictionary interns: descriptors with a key, and the value of an unused slot. -/
class Interned (δ : Type) (κ : outParam Type) where
  key : δ → κ
  hashKey : κ → BitVec 64
  blank : δ

instance : Interned RuleDescriptor Fingerprint where
  key := RuleDescriptor.fingerprint
  hashKey := hashFingerprint
  blank := RuleDescriptor.default

/-- `NodeDescriptor` of the source is a `NodeIdentity` under another name. -/
instance : Interned NodeIdentity NodeIdentity where
  key := id
  hashKey := hashNodeIdentity
  blank := { nodeId := 0, incarnation := 0 }

/-! ## Dictionaries -/

structure Dictionary (δ : Type) where
  descriptors : ℕ → δ
  refcounts : ℕ → ℕ
  index : CellIndex
  freeNext : ℕ → Option ℕ
  freeHead : Option ℕ
  len : ℕ
  capacity : ℕ

abbrev RuleDictionary := Dictionary RuleDescriptor

abbrev NodeDictionary := Dictionary NodeIdentity

/-- `u32::next_power_of_two`: `none` is the panic of a checked build, for `c` above `2 ^ 31`.  A
    release build gives 0 there, and goes on with an index of two buckets. -/
def nextPowerOfTwo (c : ℕ) : Option ℕ :=
  let p := if c ≤ 1 then 1 else 2 ^ (Nat.log2 (c - 1) + 1)
  if p ≤ u32Max then some p else none

def pow2IndexCapacityFor (capacity : ℕ) : Option ℕ := do
  let base ← nextPowerOfTwo (max capacity 1)
  return max (min (base * 2) u32Max) 2

namespace Dictionary

variable {δ κ : Type} [Interned δ κ]

/-- `none` where the source asserts. -/
def withCapacity (capacity : ℕ) : Option (Dictionary δ) :=
  if capacity = 0 ∨ ¬ capacity < 2 ^ 16 - 1 then none
  else do
    let index ← CellIndex.withCapacity (← pow2IndexCapacityFor capacity)
    return {
      descriptors := fun _ => Interned.blank
      refcounts := fun _ => 0
      index
      freeNext := initNext capacity
      freeHead := some 0
      len := 0
      capacity }

def descriptor (d : Dictionary δ) (slot : ℕ) : Option δ :=
  if slot < d.capacity ∧ 0 < d.refcounts slot then some (d.descriptors slot) else none

def find [DecidableEq κ] (d : Dictionary δ) (key : κ) : Option ℕ :=
  d.index.find (Interned.hashKey δ key) fun slot => Interned.key (d.descriptors slot) == key

def replaceDescriptor (d : Dictionary δ) (slot : ℕ) (descriptor : δ) : Dictionary δ :=
  { d with descriptors := update d.descriptors slot descriptor }

/-- Give the free slot `slot` to a descriptor that is not interned. -/
def takeSlot (d : Dictionary δ) (slot : ℕ) (descriptor : δ) : Dictionary δ :=
  { d with
    freeHead := d.freeNext slot
    descriptors := update d.descriptors slot descriptor
    refcounts := update d.refcounts slot 0
    index := d.index.insertUnchecked (Interned.hashKey δ (Interned.key descriptor)) slot
    len := d.len + 1 }

omit [Interned δ κ] in
theorem replaceDescriptor_descriptors (d : Dictionary δ) (slot : ℕ) (x : δ) :
    (d.replaceDescriptor slot x).descriptors = update d.descriptors slot x := rfl

theorem takeSlot_descriptors (d : Dictionary δ) (slot : ℕ) (x : δ) :
    (d.takeSlot slot x).descriptors = update d.descriptors slot x := rfl

theorem takeSlot_refcounts (d : Dictionary δ) (slot : ℕ) (x : δ) :
    (d.takeSlot slot x).refcounts = update d.refcounts slot 0 := rfl

/-- The part of `intern` after a failed lookup. -/
def internFresh (d : Dictionary δ) (descriptor : δ) : Dictionary δ × Option ℕ :=
  match d.freeHead with
  | none => (d, none)
  | some slot => (d.takeSlot slot descriptor, some slot)

def incRef (d : Dictionary δ) (slot : ℕ) : Dictionary δ :=
  { d with refcounts := update d.refcounts slot (min (d.refcounts slot + 1) u32Max) }

/-- Put a slot whose last reference is gone back on the free list. -/
def releaseSlot (d : Dictionary δ) (slot : ℕ) : Dictionary δ :=
  { d with
    refcounts := update d.refcounts slot 0
    index := d.index.remove (Interned.hashKey δ (Interned.key (d.descriptors slot))) slot
    descriptors := update d.descriptors slot Interned.blank
    freeNext := update d.freeNext slot d.freeHead
    freeHead := some slot
    len := d.len - 1 }

theorem releaseSlot_descriptors (d : Dictionary δ) (slot : ℕ) :
    (d.releaseSlot slot).descriptors = update d.descriptors slot Interned.blank := rfl

theorem releaseSlot_refcounts (d : Dictionary δ) (slot : ℕ) :
    (d.releaseSlot slot).refcounts = update d.refcounts slot 0 := rfl

/-- Decrement a reference count; the flag says whether the slot was freed. -/
def decRef (d : Dictionary δ) (slot : ℕ) : Dictionary δ × Bool :=
  if d.refcounts slot = 0 then (d, false)
  else if d.refcounts slot - 1 = 0 then (d.releaseSlot slot, true)
  else ({ d with refcounts := update d.refcounts slot (d.refcounts slot - 1) }, false)

end Dictionary

/-- Interning a known rule replaces its descriptor. -/
def RuleDictionary.intern (d : RuleDictionary) (descriptor : RuleDescriptor) :
    RuleDictionary × Option ℕ :=
  match d.find descriptor.fingerprint with
  | some slot => (d.replaceDescriptor slot descriptor, some slot)
  | none => d.internFresh descriptor

def NodeDictionary.intern (d : NodeDictionary) (id : NodeIdentity) : NodeDictionary × Option ℕ :=
  match d.find id with
  | some slot => (d, some slot)
  | none => d.internFresh id

/-! ## Specification -/

theorem le_of_nextPowerOfTwo {c p : ℕ} (h : nextPowerOfTwo c = some p) : c ≤ p ∧ p ≤ u32Max := by
  unfold nextPowerOfTwo at h
  simp only [Option.ite_none_right_eq_some, Option.some.injEq] at h
  obtain ⟨hle, rfl⟩ := h
  refine ⟨?_, hle⟩
  split_ifs with h1
  · exact h1
  · have := Nat.lt_log2_self (n := c - 1)
    omega

theorem not_isPowerOfTwo_u32Max : CellIndex.isPowerOfTwo u32Max = false := by decide

/-- An index is created at least twice as large as what it indexes, and that is at most
    `2 ^ 30` slots. -/
theorem index_capacity {c i : ℕ} {t : CellIndex} (hi : pow2IndexCapacityFor c = some i)
    (ht : CellIndex.withCapacity i = some t) : c < i ∧ c ≤ 2 ^ 30 := by
  simp only [pow2IndexCapacityFor, Option.bind_eq_bind, Option.bind_eq_some_iff,
    Option.pure_def, Option.some.injEq] at hi
  obtain ⟨b, hb, rfl⟩ := hi
  obtain ⟨hcb, hb⟩ := le_of_nextPowerOfTwo hb
  unfold CellIndex.withCapacity at ht
  split_ifs at ht with h0 hp
  -- the clamped capacity `u32Max` is not a power of two
  have hne : b * 2 ≤ u32Max := by
    by_contra hc
    have : max (min (b * 2) u32Max) 2 = u32Max := by unfold u32Max at *; omega
    rw [this, not_isPowerOfTwo_u32Max] at hp
    cases hp
  have hpow : b * 2 ≤ 2 ^ 31 := by
    have hm : max (min (b * 2) u32Max) 2 = b * 2 := by omega
    rw [hm] at hp
    have hp : 2 ^ Nat.log2 (b * 2) = b * 2 := by simpa [CellIndex.isPowerOfTwo] using hp
    have hlt : Nat.log2 (b * 2) < 32 := by
      by_contra hc
      have := Nat.pow_le_pow_right (n := 2) (by norm_num) (not_lt.1 hc)
      unfold u32Max at hne; omega
    have := Nat.pow_le_pow_right (n := 2) (by norm_num) (Nat.lt_succ_iff.1 hlt)
    omega
  omega

namespace Dictionary

variable {δ κ : Type} [Interned δ κ]

/-- Slot `s` is interned. -/
def Live (d : Dictionary δ) (s : ℕ) : Prop :=
  d.index.Contains (Interned.hashKey δ (Interned.key (d.descriptors s))) s

structure Wf (d : Dictionary δ) : Prop where
  slab : Slab (Interned.hashKey δ) d.index d.freeNext d.freeHead d.capacity d.Live
    fun s => Interned.key (d.descriptors s)
  len_eq : d.len = d.index.len
  unused : ∀ s, ¬ d.Live s → d.refcounts s = 0

variable {d d' : Dictionary δ} {x : δ} {s : ℕ}

theorem Wf.live_lt (hw : d.Wf) (h : d.Live s) : s < d.capacity := hw.slab.lt s h

/-- A slot in use is interned, so its descriptor can be read. -/
theorem Wf.live_of_pos (hw : d.Wf) (h : 0 < d.refcounts s) : d.Live s := by
  by_contra hc
  rw [hw.unused s hc] at h
  exact absurd h (lt_irrefl 0)

theorem Wf.descriptor_of_pos (hw : d.Wf) (h : 0 < d.refcounts s) :
    d.descriptor s = some (d.descriptors s) :=
  if_pos ⟨hw.live_lt (hw.live_of_pos h), h⟩

theorem Wf.find_iff [DecidableEq κ] (hw : d.Wf) {k : κ} :
    d.find k = some s ↔ d.Live s ∧ Interned.key (d.descriptors s) = k :=
  hw.slab.find_iff

theorem Wf.find_none_iff [DecidableEq κ] (hw : d.Wf) {k : κ} :
    d.find k = none ↔ ∀ s, d.Live s → Interned.key (d.descriptors s) ≠ k :=
  hw.slab.find_none_iff

/-- Being live is what the slab says, whatever predicate it was built with. -/
theorem live_iff_of_slab {live : ℕ → Prop}
    (h : Slab (Interned.hashKey δ) d.index d.freeNext d.freeHead d.capacity live
      fun s => Interned.key (d.descriptors s)) (y : ℕ) : d.Live y ↔ live y := by
  rw [Live, h.contains]
  exact and_iff_left rfl

theorem withCapacity_spec {c : ℕ} (h : withCapacity c = some d) :
    d.Wf ∧ d.capacity = c ∧ 0 < c ∧ (∀ s, ¬ d.Live s) ∧ ∀ s, d.refcounts s = 0 := by
  simp only [withCapacity, Option.bind_eq_bind] at h
  split_ifs at h with h0
  simp only [Option.bind_eq_some_iff, Option.pure_def, Option.some.injEq] at h
  obtain ⟨i, hi, t, ht, hd⟩ := h
  have hc : 0 < c := by omega
  obtain ⟨-, -, hlen, he⟩ := CellIndex.withCapacity_spec ht
  have hl : ∀ s, ¬ d.Live s := fun s h => he _ _ (by rw [← hd] at h; exact h)
  subst hd
  exact ⟨⟨Slab.init hc (index_capacity hi ht).1 ht hl, hlen.symm, fun _ _ => rfl⟩, rfl, hc, hl,
    fun _ => rfl⟩

/-- What taking a free slot `s` for the descriptor `x` does. -/
structure Fresh (d d' : Dictionary δ) (x : δ) (s : ℕ) : Prop where
  wf : d'.Wf
  capacity : d'.capacity = d.capacity
  refcounts : d'.refcounts = d.refcounts
  new : ¬ d.Live s
  live : ∀ y, d'.Live y ↔ d.Live y ∨ y = s
  descriptors : d'.descriptors = update d.descriptors s x

theorem Fresh.keep (h : d.Fresh d' x s) {y : ℕ} (hy : d.Live y) :
    d'.descriptors y = d.descriptors y := by
  have hne : y ≠ s := fun e => h.new (e ▸ hy)
  rw [h.descriptors, update_of_ne hne]

theorem Fresh.descriptors_self (h : d.Fresh d' x s) : d'.descriptors s = x := by
  rw [h.descriptors, update_self]

theorem fresh_takeSlot (hw : d.Wf)
    (hk : ∀ y, d.Live y → Interned.key (d.descriptors y) ≠ Interned.key x)
    (hh : d.freeHead = some s) : d.Fresh (d.takeSlot s x) x s := by
  have hslab := hh ▸ hw.slab
  have hnew := hslab.head_spec.2
  have hs : Slab (Interned.hashKey δ) (d.takeSlot s x).index d.freeNext (d.takeSlot s x).freeHead
      d.capacity (fun y => d.Live y ∨ y = s)
      (fun y => Interned.key ((d.takeSlot s x).descriptors y)) :=
    hslab.insert (fun _ _ => rfl) hk (fun _ => Iff.rfl)
      (fun y hy => by rw [takeSlot_descriptors, update_of_ne hy])
      (by rw [takeSlot_descriptors, update_self])
  have hl := live_iff_of_slab (d := d.takeSlot s x) hs
  have hr : (d.takeSlot s x).refcounts = d.refcounts := by
    rw [takeSlot_refcounts, ← hw.unused s hnew, update_eq_self]
  refine ⟨⟨hs.congr (fun y => (hl y).symm) fun _ _ => rfl, ?_, fun y hy => ?_⟩, rfl, hr, hnew, hl,
    rfl⟩
  · simp only [takeSlot, CellIndex.insertUnchecked, hw.len_eq]
  · rw [hr]
    exact hw.unused y fun h => hy ((hl y).2 (.inl h))

theorem internFresh_some (hw : d.Wf)
    (hk : ∀ y, d.Live y → Interned.key (d.descriptors y) ≠ Interned.key x)
    (h : d.internFresh x = (d', some s)) : d.Fresh d' x s := by
  unfold internFresh at h
  split at h
  · cases h
  · cases h
    exact fresh_takeSlot hw hk ‹_›

theorem Wf.incRef (hw : d.Wf) (hs : d.Live s) : (d.incRef s).Wf :=
  ⟨hw.slab, hw.len_eq, fun y hy => by
    have hne : y ≠ s := fun h => hy (h ▸ hs)
    simp only [Dictionary.incRef, update_of_ne hne]
    exact hw.unused y hy⟩

/-- What dropping one reference to slot `s` does. -/
structure Dropped (d d' : Dictionary δ) (s : ℕ) (freed : Bool) : Prop where
  wf : d'.Wf
  capacity : d'.capacity = d.capacity
  refcounts : d'.refcounts = update d.refcounts s (d.refcounts s - 1)
  freed_iff : freed = true ↔ d.refcounts s = 1
  live : ∀ y, d'.Live y ↔ d.Live y ∧ ¬ (y = s ∧ freed = true)
  descriptors : ∀ y, d'.Live y → d'.descriptors y = d.descriptors y

theorem dropped_releaseSlot (hw : d.Wf) (h1 : d.refcounts s = 1) :
    d.Dropped (d.releaseSlot s) s true := by
  have hlive := hw.live_of_pos (h1 ▸ Nat.one_pos)
  have hs : Slab (Interned.hashKey δ) (d.releaseSlot s).index (d.releaseSlot s).freeNext
      (d.releaseSlot s).freeHead d.capacity (fun y => d.Live y ∧ y ≠ s)
      (fun y => Interned.key ((d.releaseSlot s).descriptors y)) :=
    hw.slab.remove hlive (fun _ => Iff.rfl) fun y hy => by
      rw [releaseSlot_descriptors, update_of_ne hy]
  have hl := live_iff_of_slab (d := d.releaseSlot s) hs
  refine ⟨⟨hs.congr (fun y => (hl y).symm) fun _ _ => rfl, ?_, fun y hy => ?_⟩, rfl, ?_, by simp [h1],
    fun y => by simp [hl], fun y hy => ?_⟩
  · have hroom := hw.slab.room
    have hle := hw.slab.len_le
    have := (CellIndex.remove_spec hw.slab.wf (by omega) hlive).2.1
    simp only [releaseSlot, hw.len_eq]
    omega
  · by_cases hys : y = s
    · simp [releaseSlot, hys]
    · rw [releaseSlot_refcounts, update_of_ne hys]
      exact hw.unused y fun h => hy ((hl y).2 ⟨h, hys⟩)
  · simp [releaseSlot, h1]
  · rw [releaseSlot_descriptors, update_of_ne ((hl y).1 hy).2]

theorem decRef_spec (hw : d.Wf) (h0 : 0 < d.refcounts s) :
    d.Dropped (d.decRef s).1 s (d.decRef s).2 := by
  unfold decRef
  have hlive := hw.live_of_pos h0
  split_ifs with h1 h2
  · omega
  · exact dropped_releaseSlot hw (by omega)
  · refine ⟨⟨hw.slab, hw.len_eq, fun y hy => ?_⟩, rfl, rfl, by simp; omega, fun y => by simp [Live],
      fun y _ => rfl⟩
    have hne : y ≠ s := fun h => hy (h ▸ hlive)
    simp only [update_of_ne hne]
    exact hw.unused y hy

/-- Replacing the descriptor of an interned slot by one with the same key. -/
theorem Wf.replace (hw : d.Wf) (hk : Interned.key x = Interned.key (d.descriptors s)) :
    (d.replaceDescriptor s x).Wf ∧ ∀ y, (d.replaceDescriptor s x).Live y ↔ d.Live y := by
  have hd : ∀ y, Interned.key ((d.replaceDescriptor s x).descriptors y) =
      Interned.key (d.descriptors y) := by
    intro y
    by_cases h : y = s
    · rw [h, replaceDescriptor_descriptors, update_self, hk]
    · rw [replaceDescriptor_descriptors, update_of_ne h]
  have hl : ∀ y, (d.replaceDescriptor s x).Live y ↔ d.Live y := fun y => by
    rw [Live, Live, hd]; rfl
  exact ⟨⟨hw.slab.congr (fun y => (hl y).symm) fun y _ => (hd y).symm, hw.len_eq,
    fun y hy => hw.unused y fun h => hy ((hl y).2 h)⟩, hl⟩

end Dictionary

end Gabion
