/-
  The table of counts in shared memory (`nginx/src/shm/aggregate.rs`), between the operations
  of its single writer.

  A slot carries a sequence number: 0 is an empty slot, an odd number one that is being
  written.  The table is probed linearly for at most `MAX_PROBE` slots, and a removal pulls
  the cells behind it back towards their homes.  Through `Refines` it is a map with saturating
  addition, saturating subtraction and removal at zero.  A write that finds no slot is dropped
  and counted.
-/
import Gabion.Lib.LinearProbe
import Gabion.Window

namespace Gabion

namespace Nginx

open Function LinearProbe

def maxProbe : ℕ := 128

structure AggregateCell where
  ruleFingerprint : Fingerprint
  keyHash : KeyHash
  bucket : BucketEpoch
  count : ℕ
  lastUpdateMillis : ℕ
deriving DecidableEq, Repr

def AggregateCell.identity (cell : AggregateCell) : CellIdentity where
  ruleFingerprint := cell.ruleFingerprint
  keyHash := cell.keyHash
  bucket := cell.bucket

structure AggregateSlot where
  seq : ℕ
  cell : AggregateCell

inductive Read
  | empty
  | busy
  | live (cell : AggregateCell)

/-- A read during which the slot does not change. -/
def AggregateSlot.read (slot : AggregateSlot) : Read :=
  if slot.seq = 0 then .empty else if slot.seq % 2 = 1 then .busy else .live slot.cell

/-- The cell in a slot. -/
def AggregateSlot.live (slot : AggregateSlot) : Option AggregateCell :=
  if slot.seq = 0 then none else some slot.cell

/-- The table and what it needs of the zone: the next sequence number of the header, which is
    even and starts at 2, and the counter of dropped writes.  The capacity is a power of two
    from 2 on.  The sequence number is not cut to its 64 bits: the table is that of the source
    for the first `2 ^ 63 - 1` writes. -/
structure ShmTable where
  bits : ℕ
  slots : ℕ → AggregateSlot
  aggregateWriteSeq : ℕ
  dropped : ℕ
  bits_pos : 0 < bits
  bits_lt : bits < 64
  seq_even : aggregateWriteSeq % 2 = 0
  seq_pos : 0 < aggregateWriteSeq

inductive Probe
  | found (index : ℕ) (cell : AggregateCell)
  | vacant (index : ℕ)
  | full

namespace ShmTable

def capacity (t : ShmTable) : ℕ := 2 ^ t.bits

def mask (t : ShmTable) : ℕ := t.capacity - 1

/-- An empty table in a fresh zone. -/
def new (bits : ℕ) (bits_pos : 0 < bits) (bits_lt : bits < 64) : ShmTable where
  bits := bits
  slots := fun _ => ⟨0, ⟨0, 0, 0, 0, 0⟩⟩
  aggregateWriteSeq := 2
  dropped := 0
  bits_pos := bits_pos
  bits_lt := bits_lt
  seq_even := rfl
  seq_pos := Nat.two_pos

/-- The loop of `ShmAggregateStore::new`. -/
def clear (t : ShmTable) : ShmTable :=
  { t with slots := fun i => if (t.slots i).seq = 0 then t.slots i else { t.slots i with seq := 0 } }

section
variable (mixIndex : CellIdentity → BitVec 64)

/-- The slot a search starts at. -/
def home (t : ShmTable) (k : CellIdentity) : ℕ := (mixIndex k).toNat &&& t.mask

def probeFrom (t : ShmTable) (k : CellIdentity) : ℕ → ℕ → Probe
  | 0, _ => .full
  | fuel + 1, distance =>
    let index := (t.home mixIndex k + distance) &&& t.mask
    match (t.slots index).read with
    | .empty => .vacant index
    | .live cell =>
      if cell.identity = k then .found index cell else probeFrom t k fuel (distance + 1)
    | .busy => probeFrom t k fuel (distance + 1)

def probe (t : ShmTable) (k : CellIdentity) : Probe := t.probeFrom mixIndex k maxProbe 0

def get (t : ShmTable) (k : CellIdentity) : Option AggregateCell :=
  match t.probe mixIndex k with
  | .found _ cell => some cell
  | .vacant _ | .full => none

/-- `AggregateSlot::write` under the next even sequence number. -/
def write (t : ShmTable) (index : ℕ) (cell : AggregateCell) : ShmTable :=
  { t with
    slots := update t.slots index { seq := t.aggregateWriteSeq, cell }
    aggregateWriteSeq := t.aggregateWriteSeq + 2
    seq_even := (Nat.add_mod_right ..).trans t.seq_even
    seq_pos := Nat.add_pos_left t.seq_pos 2 }

/-- The store of 0 that frees a slot. -/
def free (t : ShmTable) (index : ℕ) : ShmTable :=
  { t with slots := update t.slots index { t.slots index with seq := 0 } }

def writeDelta (t : ShmTable) (k : CellIdentity) (delta nowMillis : ℕ) : ShmTable :=
  let cell (count : ℕ) : AggregateCell :=
    { ruleFingerprint := k.ruleFingerprint
      keyHash := k.keyHash
      bucket := k.bucket
      count
      lastUpdateMillis := nowMillis }
  match t.probe mixIndex k with
  | .found index found => t.write index (cell (min (found.count + delta) u64Max))
  | .vacant index => t.write index (cell delta)
  | .full => { t with dropped := t.dropped + 1 }

/-- The loop of `remove`; `fuel` bounds its turns. -/
def removeFrom : ℕ → ShmTable → ℕ → ℕ → ShmTable
  | 0, t, hole, _ => t.free hole
  | fuel + 1, t, hole, gap =>
    if gap < maxProbe then
      let gap := gap + 1
      let index := (hole + gap) &&& t.mask
      match (t.slots index).read with
      | .empty => t.free hole
      | .live cell =>
        if (BitVec.ofNat 64 index - mixIndex cell.identity).toNat &&& t.mask ≥ gap then
          removeFrom fuel (t.write hole cell) index 0
        else removeFrom fuel t hole gap
      | .busy => removeFrom fuel t hole gap
    else t.free hole

/-- Every move brings a cell closer to its home, and it is at most `MAX_PROBE` turns to the next
    move. -/
def remove (t : ShmTable) (hole : ℕ) : ShmTable :=
  removeFrom mixIndex ((t.capacity * maxProbe + 1) * (maxProbe + 1)) t hole 0

def writeExpiration (t : ShmTable) (k : CellIdentity) (lastCount : ℕ) : ShmTable :=
  match t.probe mixIndex k with
  | .found index found =>
    let count := found.count - lastCount
    if count = 0 then t.remove mixIndex index else t.write index { found with count }
  | .vacant _ | .full => t

/-- What the readers of the table see. -/
def reader (t : ShmTable) : AggregateTable where
  get := fun k => (t.get mixIndex k).map AggregateCell.count

end

/-! ## Positions -/

variable (mixIndex : CellIdentity → BitVec 64) {t : ShmTable}

theorem capacity_pos : 0 < t.capacity := Nat.two_pow_pos _

theorem and_mask (x : ℕ) : x &&& t.mask = x % t.capacity := Nat.and_two_pow_sub_one_eq_mod x t.bits

theorem home_lt (k : CellIdentity) : t.home mixIndex k < t.capacity := by
  rw [home, and_mask]
  exact Nat.mod_lt _ t.capacity_pos

/-- `index.wrapping_sub(home) & mask` is the distance from the home slot. -/
theorem wrapping_sub_and_mask (index : ℕ) (k : CellIdentity) (hindex : index < t.capacity) :
    (BitVec.ofNat 64 index - mixIndex k).toNat &&& t.mask =
      Circular.dist t.capacity (t.home mixIndex k) index := by
  have hdvd : t.capacity ∣ 2 ^ 64 := Nat.pow_dvd_pow 2 t.bits_lt.le
  have hle : t.capacity ≤ 2 ^ 64 := Nat.le_of_dvd (by decide) hdvd
  have hmix := (mixIndex k).isLt
  rw [and_mask, BitVec.toNat_sub, BitVec.toNat_ofNat, Nat.mod_eq_of_lt (show index < 2 ^ 64 by omega),
    Nat.mod_mod_of_dvd _ hdvd, Circular.dist, home, and_mask]
  have hlt : (mixIndex k).toNat % t.capacity < t.capacity := Nat.mod_lt _ t.capacity_pos
  refine Nat.ModEq.add_right_cancel' ((mixIndex k).toNat % t.capacity) ?_
  calc 2 ^ 64 - (mixIndex k).toNat + index + (mixIndex k).toNat % t.capacity
      ≡ 2 ^ 64 - (mixIndex k).toNat + index + (mixIndex k).toNat [MOD t.capacity] :=
        Nat.ModEq.add_left _ (Nat.mod_modEq _ _)
    _ = index + 2 ^ 64 := by omega
    _ ≡ index + t.capacity [MOD t.capacity] :=
        Nat.ModEq.add_left _ ((Nat.modEq_zero_iff_dvd.2 hdvd).trans
          (Nat.modEq_zero_iff_dvd.2 dvd_rfl).symm)
    _ = index + t.capacity - (mixIndex k).toNat % t.capacity + (mixIndex k).toNat % t.capacity := by
        omega

/-! ## The cells of the table -/

/-- The cells between two writes. -/
def cells (t : ShmTable) : ℕ → Option AggregateCell := AggregateSlot.live ∘ t.slots

/-- No write is under way. -/
def Quiet (t : ShmTable) : Prop := ∀ i, (t.slots i).seq % 2 = 0

theorem Quiet.read (h : t.Quiet) (i : ℕ) :
    (t.slots i).read = (t.cells i).elim .empty .live := by
  have heven := h i
  rw [cells, comp_apply, AggregateSlot.read, AggregateSlot.live]
  split_ifs <;> first | rfl | omega

theorem Quiet.update {slots : ℕ → AggregateSlot} (h : t.Quiet) (index : ℕ) {slot : AggregateSlot}
    (heven : slot.seq % 2 = 0) (hslots : slots = update t.slots index slot) (i : ℕ) :
    (slots i).seq % 2 = 0 := by
  subst hslots
  by_cases hi : i = index
  · rw [hi, update_self, heven]
  · rw [update_of_ne hi, h i]

theorem Quiet.write (h : t.Quiet) (index : ℕ) (cell : AggregateCell) :
    (t.write index cell).Quiet :=
  h.update index t.seq_even rfl

theorem Quiet.free (h : t.Quiet) (index : ℕ) : (t.free index).Quiet :=
  h.update index rfl rfl

theorem cells_write (index : ℕ) (cell : AggregateCell) :
    (t.write index cell).cells = update t.cells index (some cell) := by
  rw [cells, write, comp_update, AggregateSlot.live, if_neg t.seq_pos.ne']
  rfl

theorem cells_free (index : ℕ) : (t.free index).cells = update t.cells index none := by
  rw [cells, free, comp_update, AggregateSlot.live, if_pos rfl]
  rfl

theorem quiet_clear : t.clear.Quiet := by
  intro i
  simp only [clear]
  split_ifs with hi
  · rw [hi]
  · rfl

theorem cells_clear : t.clear.cells = fun _ => none := by
  funext i
  simp only [cells, clear, comp_apply]
  split_ifs with hi
  · exact if_pos hi
  · exact if_pos rfl

/-! ## Searching and removing -/

/-- The table is laid out for `MAX_PROBE`. -/
structure Sound (t : ShmTable) : Prop where
  quiet : t.Quiet
  layout : Layout t.capacity maxProbe AggregateCell.identity (t.home mixIndex) t.cells

variable {mixIndex} {k : CellIdentity}

/-- **Where a search ends.** -/
theorem Sound.probe (h : t.Sound mixIndex) (k : CellIdentity) :
    match t.probe mixIndex k with
    | .found index cell =>
      index < t.capacity ∧ t.cells index = some cell ∧ cell.identity = k
    | .vacant index => ∃ d < maxProbe, index = (t.home mixIndex k + d) % t.capacity ∧
        Passes t.capacity AggregateCell.identity (t.home mixIndex) t.cells k d ∧
        t.cells index = none
    | .full => Passes t.capacity AggregateCell.identity (t.home mixIndex) t.cells k maxProbe := by
  suffices hwalk : ∀ fuel distance, fuel + distance = maxProbe →
      Passes t.capacity AggregateCell.identity (t.home mixIndex) t.cells k distance →
      match t.probeFrom mixIndex k fuel distance with
      | .found index cell => index < t.capacity ∧ t.cells index = some cell ∧ cell.identity = k
      | .vacant index => ∃ d < maxProbe, index = (t.home mixIndex k + d) % t.capacity ∧
          Passes t.capacity AggregateCell.identity (t.home mixIndex) t.cells k d ∧
          t.cells index = none
      | .full => Passes t.capacity AggregateCell.identity (t.home mixIndex) t.cells k maxProbe from
    hwalk maxProbe 0 rfl nofun
  intro fuel
  induction fuel with
  | zero =>
    intro distance hsum hpass
    rw [Nat.zero_add] at hsum
    rw [probeFrom, ← hsum]
    exact hpass
  | succ fuel ih =>
    intro distance hsum hpass
    have hlt : (t.home mixIndex k + distance) % t.capacity < t.capacity :=
      Nat.mod_lt _ t.capacity_pos
    simp only [probeFrom, and_mask, h.quiet.read]
    cases hcell : t.cells ((t.home mixIndex k + distance) % t.capacity) with
    | none => exact ⟨distance, by omega, rfl, hpass, hcell⟩
    | some cell =>
      simp only [Option.elim_some]
      split_ifs with hk
      · exact ⟨hlt, hcell, hk⟩
      · refine ih (distance + 1) (by omega) fun d hd => ?_
        rcases Nat.lt_succ_iff_lt_or_eq.1 hd with hd | rfl
        · exact hpass d hd
        · exact ⟨cell, hcell, hk⟩

/-- The table `t'` has the cells of `t` outside the hole. -/
structure Removed (mixIndex : CellIdentity → BitVec 64) (t : ShmTable) (hole : ℕ) (t' : ShmTable) :
    Prop where
  sound : t'.Sound mixIndex
  bits : t'.bits = t.bits
  dropped : t'.dropped = t.dropped
  stored : ∀ cell, Stored t.capacity t'.cells cell ↔ StoredBut t.capacity t.cells hole cell

theorem removed_free {hole : ℕ} (hquiet : t.Quiet)
    (h : Layout t.capacity maxProbe AggregateCell.identity (t.home mixIndex)
        (update t.cells hole none) ∧
      ∀ cell, Stored t.capacity (update t.cells hole none) cell ↔
        StoredBut t.capacity t.cells hole cell) : Removed mixIndex t hole (t.free hole) := by
  rw [← cells_free] at h
  exact ⟨⟨hquiet.free hole, h.1⟩, rfl, rfl, h.2⟩

/-- **A removal** keeps the layout and all cells outside the hole. -/
theorem removeFrom_spec : ∀ {fuel : ℕ} {t : ShmTable} {hole gap : ℕ}, t.Quiet →
    Hole t.capacity maxProbe AggregateCell.identity (t.home mixIndex) t.cells hole gap →
    gap ≤ maxProbe →
    shift t.capacity AggregateCell.identity (t.home mixIndex) t.cells hole * (maxProbe + 1) +
      (maxProbe - gap) < fuel →
    Removed mixIndex t hole (removeFrom mixIndex fuel t hole gap) := by
  intro fuel
  induction fuel with
  | zero =>
    intro t hole gap _ _ _ hfuel
    exact absurd hfuel (Nat.not_lt_zero _)
  | succ fuel ih =>
    intro t hole gap hquiet hhole hgap hfuel
    have hhome := t.home_lt mixIndex
    rw [removeFrom]
    split_ifs with hlt
    · have hindex : (hole + (gap + 1)) % t.capacity < t.capacity := Nat.mod_lt _ t.capacity_pos
      simp only [and_mask, hquiet.read]
      cases hcell : t.cells ((hole + (gap + 1)) % t.capacity) with
      | none => exact removed_free hquiet (hhole.close_empty hhome hcell)
      | some cell =>
        simp only [Option.elim_some]
        have hdist := t.wrapping_sub_and_mask mixIndex _ cell.identity hindex
        rw [and_mask] at hdist
        rw [hdist]
        split_ifs with hfar
        · -- the cell is copied into the hole, and its slot is the next hole
          obtain ⟨hmoved, hstored⟩ := hhole.move hhome hcell hfar
          have hless := hhole.shift_lt hhome hcell hfar
          rw [← cells_write] at hmoved hstored hless
          have hmeasure := Nat.mul_le_mul_right (maxProbe + 1) (Nat.succ_le_of_lt hless)
          rw [Nat.succ_mul] at hmeasure
          have hrest := ih (hquiet.write hole cell) hmoved (Nat.zero_le _) (by
            show shift t.capacity AggregateCell.identity (t.home mixIndex) _ _ * _ + _ < _
            omega)
          exact ⟨hrest.sound, hrest.bits, hrest.dropped, fun b =>
            (hrest.stored b).trans (hstored b)⟩
        · exact ih hquiet (hhole.skip hhome hcell (not_le.1 hfar)) (by omega) (by omega)
    · exact removed_free hquiet (hhole.close_bound hhome (not_lt.1 hlt))

/-- A removal takes out the cell of its slot. -/
theorem Sound.remove (h : t.Sound mixIndex) {index : ℕ} {cell : AggregateCell}
    (hindex : index < t.capacity) (hcell : t.cells index = some cell) :
    (t.remove mixIndex index).Sound mixIndex ∧
      (t.remove mixIndex index).dropped = t.dropped ∧
      ∀ b, Stored (t.remove mixIndex index).capacity (t.remove mixIndex index).cells b ↔
        Stored t.capacity t.cells b ∧ b.identity ≠ cell.identity := by
  have hhole := h.layout.hole hindex
  have hmeasure := Nat.mul_le_mul_right (maxProbe + 1) hhole.shift_le
  have hfuel : shift t.capacity AggregateCell.identity (t.home mixIndex) t.cells index *
      (maxProbe + 1) + (maxProbe - 0) < (t.capacity * maxProbe + 1) * (maxProbe + 1) := by
    rw [Nat.succ_mul]
    omega
  have hremoved := removeFrom_spec h.quiet hhole (Nat.zero_le _) hfuel
  have hcapacity : (t.remove mixIndex index).capacity = t.capacity :=
    congrArg (2 ^ ·) hremoved.bits
  rw [hcapacity]
  exact ⟨hremoved.sound, hremoved.dropped, fun b =>
    (hremoved.stored b).trans (h.layout.storedBut_iff hindex hcell)⟩

/-! ## The table as a map -/

end ShmTable

/-- What a plain map holds for an identity. -/
structure Counted where
  count : ℕ
  lastUpdateMillis : ℕ
deriving DecidableEq, Repr

def AggregateCell.counted (cell : AggregateCell) : Counted := ⟨cell.count, cell.lastUpdateMillis⟩

theorem AggregateCell.eq_iff {a b : AggregateCell} :
    a = b ↔ a.identity = b.identity ∧ a.counted = b.counted := by
  cases a
  cases b
  simp [identity, counted, and_assoc]

/-- The cell that a map entry stands for. -/
def Counted.cell (c : Counted) (k : CellIdentity) : AggregateCell where
  ruleFingerprint := k.ruleFingerprint
  keyHash := k.keyHash
  bucket := k.bucket
  count := c.count
  lastUpdateMillis := c.lastUpdateMillis

/-- A plain map with saturating addition, saturating subtraction and removal at zero. -/
abbrev CountMap := CellIdentity → Option Counted

namespace CountMap

def add (m : CountMap) (k : CellIdentity) (delta nowMillis : ℕ) : CountMap :=
  update m k (some ⟨(m k).elim delta fun c => min (c.count + delta) u64Max, nowMillis⟩)

def subtract (m : CountMap) (k : CellIdentity) (lastCount : ℕ) : CountMap :=
  match m k with
  | none => m
  | some c =>
    if c.count - lastCount = 0 then update m k none
    else update m k (some { c with count := c.count - lastCount })

theorem subtract_none {m : CountMap} {k : CellIdentity} (lastCount : ℕ) (hm : m k = none) :
    m.subtract k lastCount = m := by
  simp only [subtract, hm]

theorem subtract_some {m : CountMap} {k : CellIdentity} {c : Counted} (lastCount : ℕ)
    (hm : m k = some c) : m.subtract k lastCount =
      if c.count - lastCount = 0 then update m k none
      else update m k (some { c with count := c.count - lastCount }) := by
  simp only [subtract, hm]

end CountMap

/-- A call of the writer. -/
inductive Write
  | delta (k : CellIdentity) (delta nowMillis : ℕ)
  | expiration (k : CellIdentity) (lastCount : ℕ)

def Write.table (mixIndex : CellIdentity → BitVec 64) (t : ShmTable) : Write → ShmTable
  | .delta k added nowMillis => t.writeDelta mixIndex k added nowMillis
  | .expiration k lastCount => t.writeExpiration mixIndex k lastCount

def Write.map (m : CountMap) : Write → CountMap
  | .delta k added nowMillis => m.add k added nowMillis
  | .expiration k lastCount => m.subtract k lastCount

/-- **The table holds the map.** -/
structure Refines (mixIndex : CellIdentity → BitVec 64) (t : ShmTable) (m : CountMap) : Prop where
  sound : t.Sound mixIndex
  holds : ∀ cell, Stored t.capacity t.cells cell ↔ m cell.identity = some cell.counted

section
variable {mixIndex : CellIdentity → BitVec 64} {t t' : ShmTable} {m : CountMap} {k : CellIdentity}

theorem refines_clear (t : ShmTable) : Refines mixIndex t.clear (fun _ => none) where
  sound := ⟨ShmTable.quiet_clear, by rw [ShmTable.cells_clear]; exact layout_empty⟩
  holds := fun cell => by
    rw [ShmTable.cells_clear]
    exact ⟨nofun, nofun⟩

/-- What a search tells about the map. -/
theorem Refines.probe (h : Refines mixIndex t m) (k : CellIdentity) :
    match t.probe mixIndex k with
    | .found index cell =>
      index < t.capacity ∧ t.cells index = some cell ∧ cell.identity = k ∧ m k = some cell.counted
    | .vacant index => m k = none ∧ ∃ d < maxProbe, index = (t.home mixIndex k + d) % t.capacity ∧
        Passes t.capacity AggregateCell.identity (t.home mixIndex) t.cells k d ∧
        t.cells index = none
    | .full => m k = none := by
  have hnone : (∀ i < t.capacity, ∀ cell, t.cells i = some cell → cell.identity ≠ k) →
      m k = none := by
    intro habsent
    cases hm : m k with
    | none => rfl
    | some c =>
      obtain ⟨i, hi, hc⟩ := (h.holds (c.cell k)).2 hm
      exact absurd rfl (habsent i hi _ hc)
  have hspec := h.sound.probe k
  have hhome := t.home_lt mixIndex
  split at hspec
  · obtain ⟨hindex, hcell, hk⟩ := hspec
    exact ⟨hindex, hcell, hk, hk ▸ (h.holds _).1 ⟨_, hindex, hcell⟩⟩
  · obtain ⟨d, hd, rfl, hpass, hempty⟩ := hspec
    exact ⟨hnone (h.sound.layout.not_stored_of_empty hhome hpass hempty), d, hd, rfl, hpass, hempty⟩
  · exact hnone (h.sound.layout.not_stored_of_bound hhome hspec)

theorem Refines.get (h : Refines mixIndex t m) (k : CellIdentity) :
    t.get mixIndex k = (m k).map fun c => c.cell k := by
  have hspec := h.probe k
  unfold ShmTable.get
  split at hspec
  · obtain ⟨-, -, rfl, hm⟩ := hspec
    rw [hm]
    rfl
  · rw [hspec.1]
    rfl
  · rw [hspec]
    rfl

/-- The table after a write of one cell. -/
theorem Refines.set (h : Refines mixIndex t m) {new : AggregateCell} (hsound : t'.Sound mixIndex)
    (hstored : ∀ b, Stored t'.capacity t'.cells b ↔
      b = new ∨ Stored t.capacity t.cells b ∧ b.identity ≠ new.identity) :
    Refines mixIndex t' (update m new.identity (some new.counted)) := by
  refine ⟨hsound, fun b => (hstored b).trans ?_⟩
  rw [h.holds, AggregateCell.eq_iff]
  by_cases hk : b.identity = new.identity
  · simp [hk, eq_comm]
  · simp [hk]

/-- The table after the removal of one identity. -/
theorem Refines.unset (h : Refines mixIndex t m) (hsound : t'.Sound mixIndex)
    (hstored : ∀ b, Stored t'.capacity t'.cells b ↔ Stored t.capacity t.cells b ∧ b.identity ≠ k) :
    Refines mixIndex t' (update m k none) := by
  refine ⟨hsound, fun b => (hstored b).trans ?_⟩
  rw [h.holds]
  by_cases hk : b.identity = k
  · simp [hk]
  · simp [hk]

/-- The found cell is written over. -/
theorem Refines.overwrite (h : Refines mixIndex t m) {index : ℕ} {cell new : AggregateCell}
    (hindex : index < t.capacity) (hcell : t.cells index = some cell)
    (hk : new.identity = cell.identity) :
    Refines mixIndex (t.write index new) (update m new.identity (some new.counted)) := by
  refine h.set ⟨h.sound.quiet.write index new, ?_⟩ fun b => ?_
  · rw [ShmTable.cells_write]
    exact h.sound.layout.overwrite hcell hk
  · rw [ShmTable.cells_write, hk, ← h.sound.layout.storedBut_iff hindex hcell]
    exact stored_update hindex

/-- The new cell goes into the first empty slot. -/
theorem Refines.insert (h : Refines mixIndex t m) (new : AggregateCell) {d : ℕ} (hd : d < maxProbe)
    (hpass : Passes t.capacity AggregateCell.identity (t.home mixIndex) t.cells new.identity d)
    (hempty : t.cells ((t.home mixIndex new.identity + d) % t.capacity) = none) :
    Refines mixIndex (t.write ((t.home mixIndex new.identity + d) % t.capacity) new)
      (update m new.identity (some new.counted)) := by
  have hhome := t.home_lt mixIndex
  have hindex : (t.home mixIndex new.identity + d) % t.capacity < t.capacity :=
    Nat.mod_lt _ t.capacity_pos
  refine h.set ⟨h.sound.quiet.write _ new, ?_⟩ fun b => ?_
  · rw [ShmTable.cells_write]
    exact h.sound.layout.insert hhome hpass hd hempty
  · rw [ShmTable.cells_write]
    refine (stored_update hindex).trans (or_congr_right ?_)
    have hnew := h.sound.layout.not_stored_of_empty hhome hpass hempty
    constructor
    · rintro ⟨i, hi, -, hb⟩
      exact ⟨⟨i, hi, hb⟩, hnew i hi b hb⟩
    · rintro ⟨⟨i, hi, hb⟩, -⟩
      refine ⟨i, hi, ?_, hb⟩
      rintro rfl
      rw [hempty] at hb
      cases hb

/-- **One call of the writer**: the map's operation, or a dropped addition. -/
theorem Refines.step (h : Refines mixIndex t m) (w : Write) :
    (Refines mixIndex (w.table mixIndex t) (w.map m) ∧ (w.table mixIndex t).dropped = t.dropped) ∨
      ∃ k added nowMillis, w = .delta k added nowMillis ∧ Refines mixIndex (w.table mixIndex t) m ∧
        (w.table mixIndex t).dropped = t.dropped + 1 := by
  cases w with
  | delta k added nowMillis =>
    have hspec := h.probe k
    simp only [Write.table, Write.map, ShmTable.writeDelta, CountMap.add]
    split at hspec
    · obtain ⟨hindex, hcell, rfl, hm⟩ := hspec
      rw [hm]
      exact .inl ⟨h.overwrite hindex hcell rfl, rfl⟩
    · obtain ⟨hm, d, hd, rfl, hpass, hempty⟩ := hspec
      rw [hm]
      exact .inl ⟨h.insert (Counted.cell ⟨added, nowMillis⟩ k) hd hpass hempty, rfl⟩
    · exact .inr ⟨k, added, nowMillis, rfl, ⟨⟨h.sound.quiet, h.sound.layout⟩, h.holds⟩, rfl⟩
  | expiration k lastCount =>
    refine .inl ?_
    have hspec := h.probe k
    simp only [Write.table, Write.map, ShmTable.writeExpiration]
    split at hspec
    · obtain ⟨hindex, hcell, rfl, hm⟩ := hspec
      rw [CountMap.subtract_some lastCount hm]
      split_ifs with hzero hzero' hzero'
      · obtain ⟨hsound, hdropped, hstored⟩ := h.sound.remove hindex hcell
        exact ⟨h.unset hsound hstored, hdropped⟩
      · exact absurd hzero hzero'
      · exact absurd hzero' hzero
      · exact ⟨h.overwrite hindex hcell rfl, rfl⟩
    · rw [CountMap.subtract_none lastCount hspec.1]
      exact ⟨h, rfl⟩
    · rw [CountMap.subtract_none lastCount hspec]
      exact ⟨h, rfl⟩

/-- A run of the writer without a dropped write. -/
theorem Refines.run (h : Refines mixIndex t m) : ∀ {writes : List Write},
    t.dropped ≤ (writes.foldl (Write.table mixIndex) t).dropped ∧
    ((writes.foldl (Write.table mixIndex) t).dropped = t.dropped →
      Refines mixIndex (writes.foldl (Write.table mixIndex) t) (writes.foldl Write.map m)) := by
  intro writes
  induction writes generalizing t m with
  | nil => exact ⟨le_rfl, fun _ => h⟩
  | cons w writes ih =>
    rcases h.step w with ⟨hnext, hdropped⟩ | ⟨_, _, _, -, hnext, hdropped⟩
    · obtain ⟨hle, hrun⟩ := ih hnext
      rw [hdropped] at hle hrun
      exact ⟨hle, hrun⟩
    · obtain ⟨hle, -⟩ := ih hnext
      rw [hdropped] at hle
      exact ⟨(Nat.le_succ _).trans hle, fun heq => absurd hle (by rw [List.foldl_cons] at heq; omega)⟩

end

/-- **The table is a map.**  After any calls of a single writer on an emptied table of which none
    was dropped, a lookup returns what the map holds, no identity is stored twice, and every
    cell is fewer than 128 slots behind its home with no empty slot in between. -/
theorem table_refines_map (mixIndex : CellIdentity → BitVec 64) (t : ShmTable)
    (writes : List Write)
    (hdropped : (writes.foldl (Write.table mixIndex) t.clear).dropped = t.dropped) :
    let u := writes.foldl (Write.table mixIndex) t.clear
    let m := writes.foldl Write.map fun _ => none
    (∀ k, u.get mixIndex k = (m k).map fun c => c.cell k) ∧
    (∀ i < u.capacity, ∀ j < u.capacity, ∀ a b, u.cells i = some a → u.cells j = some b →
      a.identity = b.identity → i = j) ∧
    ∀ i < u.capacity, ∀ cell, u.cells i = some cell → ∃ distance < 128,
      (u.home mixIndex cell.identity + distance) % u.capacity = i ∧
      ∀ d < distance, u.cells ((u.home mixIndex cell.identity + d) % u.capacity) ≠ none := by
  intro u m
  have h : Refines mixIndex u m := (refines_clear t).run.2 hdropped
  refine ⟨h.get, h.sound.layout.distinct, fun i hi cell hcell => ?_⟩
  exact ⟨_, h.sound.layout.near i hi cell hcell, home_add_disp (u.home_lt mixIndex) hi,
    h.sound.layout.reach i hi cell hcell⟩

/-- Two cells at the last slot of a table of four: the second wraps around to the first slot, and
    the removal of the first pulls it back. -/
theorem table_refines_map_wrap :
    let writes : List Write := [.delta ⟨1, 1, 7⟩ 3 10, .delta ⟨1, 2, 7⟩ 4 11, .delta ⟨1, 2, 7⟩ 1 12,
      .expiration ⟨1, 1, 7⟩ 3]
    let u := writes.foldl (Write.table fun _ => 3) (ShmTable.new 2 (by decide) (by decide)).clear
    u.dropped = 0 ∧ u.get (fun _ => 3) ⟨1, 1, 7⟩ = none ∧
      u.get (fun _ => 3) ⟨1, 2, 7⟩ = some ⟨1, 2, 7, 5, 12⟩ := by
  intro writes u
  have hdropped : u.dropped = 0 := by decide +kernel
  have h := (table_refines_map (fun _ => 3) (ShmTable.new 2 (by decide) (by decide)) writes
    hdropped).1
  exact ⟨hdropped, (h _).trans (by decide +kernel), (h _).trans (by decide +kernel)⟩

end Nginx

end Gabion
