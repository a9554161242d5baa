/-
  The queue of hits in shared memory (`nginx/src/shm/queue.rs`).

  A ring whose slots carry sequence numbers: a slot is free for the position `pos` if its
  number is `pos`, and holds the event of `pos` if its number is `pos + 1`.  The calls are
  modelled as they run when no other one is under way.  Between calls the ring is a bounded
  queue (`Holds`): `push` appends unless the ring is full, `pop` takes the oldest event.
-/
import Gabion.Lib.Circular
import Gabion.Types

namespace Gabion

namespace Nginx

open Function

structure QueueEvent where
  ruleFingerprint : Fingerprint
  keyHash : KeyHash
  bucket : BucketEpoch
  hits : ℕ
  ruleLimit : ℕ
  nowMillis : ℕ
deriving DecidableEq, Repr

structure QueueSlot where
  seq : BitVec 64
  event : QueueEvent

/-- The ring and its control block.  The capacity is a power of two from 2 on. -/
structure RequestQueue where
  bits : ℕ
  enqueuePos : BitVec 64
  dequeuePos : BitVec 64
  dropped : ℕ
  slots : ℕ → QueueSlot
  bits_pos : 0 < bits
  bits_lt : bits < 63

namespace RequestQueue

def capacity (q : RequestQueue) : ℕ := 2 ^ q.bits

def capacityMask (q : RequestQueue) : BitVec 64 := BitVec.ofNat 64 (q.capacity - 1)

def new (bits : ℕ) (bits_pos : 0 < bits) (bits_lt : bits < 63) : RequestQueue where
  bits := bits
  enqueuePos := 0
  dequeuePos := 0
  dropped := 0
  slots := fun i => { seq := BitVec.ofNat 64 i, event := ⟨0, 0, 0, 0, 0, 0⟩ }
  bits_pos := bits_pos
  bits_lt := bits_lt

/-- The slot of a position. -/
def slotOf (q : RequestQueue) (pos : BitVec 64) : ℕ := (pos &&& q.capacityMask).toNat

inductive PushResult
  | ok
  | queueOverflow
deriving DecidableEq, Repr

/-- The position is claimed, the event written and its sequence number published. -/
def enqueued (q : RequestQueue) (event : QueueEvent) : RequestQueue :=
  let pos := q.enqueuePos
  { q with
    enqueuePos := pos + 1
    slots := update q.slots (q.slotOf pos) { seq := pos + 1, event } }

/-- `push`; `none` if it would read the same sequence number for ever. -/
def push (q : RequestQueue) (event : QueueEvent) : Option (RequestQueue × PushResult) :=
  let pos := q.enqueuePos
  let slot := q.slots (q.slotOf pos)
  let diff := (slot.seq - pos).toInt
  if diff = 0 then some (q.enqueued event, .ok)
  else if diff < 0 then some ({ q with dropped := q.dropped + 1 }, .queueOverflow)
  else none

/-- The position is claimed and its slot released for the next round. -/
def dequeued (q : RequestQueue) : RequestQueue :=
  let pos := q.dequeuePos
  let slot := q.slots (q.slotOf pos)
  { q with
    dequeuePos := pos + 1
    slots := update q.slots (q.slotOf pos)
      { slot with seq := pos + BitVec.ofNat 64 q.capacity } }

/-- `pop`; `none` as for `push`. -/
def pop (q : RequestQueue) : Option (RequestQueue × Option QueueEvent) :=
  let pos := q.dequeuePos
  let slot := q.slots (q.slotOf pos)
  let diff := (slot.seq - (pos + 1)).toInt
  if diff = 0 then some (q.dequeued, some slot.event)
  else if diff < 0 then some (q, none)
  else none

/-! ## Positions -/

variable (q : RequestQueue)

theorem two_le_capacity : 2 ≤ q.capacity :=
  Nat.le_self_pow q.bits_pos.ne' 2

theorem capacity_lt : q.capacity < 2 ^ 63 := Nat.pow_lt_pow_right (by decide) q.bits_lt

/-- The mask takes a position modulo the capacity, also where the position has wrapped. -/
theorem slotOf_ofNat (n : ℕ) : q.slotOf (BitVec.ofNat 64 n) = n % q.capacity := by
  have hlt := q.capacity_lt
  unfold slotOf capacityMask
  rw [BitVec.toNat_and, BitVec.toNat_ofNat, BitVec.toNat_ofNat,
    Nat.mod_eq_of_lt (show q.capacity - 1 < 2 ^ 64 by omega), capacity, Nat.and_two_pow_sub_one_eq_mod]
  exact Nat.mod_mod_of_dvd n (Nat.pow_dvd_pow 2 (by have := q.bits_lt; omega))

/-- The difference of two positions is the true one while they are close. -/
theorem toInt_sub_ofNat {a b : ℕ} (hab : a < b + 2 ^ 63) (hba : b < a + 2 ^ 63) :
    (BitVec.ofNat 64 a - BitVec.ofNat 64 b).toInt = (a : ℤ) - b := by
  rw [BitVec.toInt_sub, BitVec.toInt_ofNat', BitVec.toInt_ofNat', Int.bmod_sub_bmod,
    Int.sub_bmod_bmod]
  refine Int.bmod_eq_of_le ?_ ?_ <;> omega

theorem ofNat_succ (n : ℕ) : BitVec.ofNat 64 n + 1 = BitVec.ofNat 64 (n + 1) :=
  (BitVec.ofNat_add n 1).symm

/-- Different offsets below the capacity are different slots. -/
theorem slot_ne {d i j : ℕ} (hi : i < q.capacity) (hj : j < q.capacity) (h : i ≠ j) :
    (d + i) % q.capacity ≠ (d + j) % q.capacity := by
  intro he
  have hmod : i ≡ j [MOD q.capacity] := Nat.ModEq.add_left_cancel' d he
  exact h (Nat.ModEq.eq_of_lt_of_lt hmod hi hj)

/-! ## The bounded queue -/

variable {q}

/-- **The ring holds the events**, oldest first, at the positions from `d` on. -/
structure HoldsFrom (q : RequestQueue) (d : ℕ) (events : List QueueEvent) : Prop where
  enqueuePos : q.enqueuePos = BitVec.ofNat 64 (d + events.length)
  dequeuePos : q.dequeuePos = BitVec.ofNat 64 d
  fits : events.length ≤ q.capacity
  taken : ∀ i event, events[i]? = some event →
    q.slots ((d + i) % q.capacity) = ⟨BitVec.ofNat 64 (d + i + 1), event⟩
  free : ∀ i, events.length ≤ i → i < q.capacity →
    (q.slots ((d + i) % q.capacity)).seq = BitVec.ofNat 64 (d + i)

/-- The ring holds the events, wherever they stand in it. -/
def Holds (q : RequestQueue) (events : List QueueEvent) : Prop := ∃ d, q.HoldsFrom d events

theorem new_holds (bits : ℕ) (bits_pos : 0 < bits) (bits_lt : bits < 63) :
    (new bits bits_pos bits_lt).Holds [] := by
  refine ⟨0, rfl, rfl, Nat.zero_le _, nofun, fun i _ hi => ?_⟩
  rw [Nat.zero_add, Nat.mod_eq_of_lt hi]
  rfl

variable {d : ℕ} {events : List QueueEvent}

/-- A push while there is room appends. -/
theorem HoldsFrom.push_ok (h : q.HoldsFrom d events) (hroom : events.length < q.capacity)
    (event : QueueEvent) : q.push event = some (q.enqueued event, .ok) ∧
      (q.enqueued event).HoldsFrom d (events ++ [event]) := by
  have hslot : q.slotOf q.enqueuePos = (d + events.length) % q.capacity := by
    rw [h.enqueuePos, slotOf_ofNat]
  have hseq : (q.slots (q.slotOf q.enqueuePos)).seq = q.enqueuePos := by
    rw [hslot, h.free _ le_rfl hroom, h.enqueuePos]
  constructor
  · simp only [push, hseq, BitVec.sub_self, BitVec.toInt_zero, if_true]
  refine ⟨?_, h.dequeuePos, ?_, fun i e hi => ?_, fun i hi hlt => ?_⟩
  · show q.enqueuePos + 1 = _
    rw [h.enqueuePos, ofNat_succ, List.length_append, List.length_singleton, Nat.add_assoc]
  · rw [List.length_append, List.length_singleton]
    exact hroom
  · show update q.slots (q.slotOf q.enqueuePos) _ ((d + i) % q.capacity) = _
    rw [hslot]
    rcases Nat.lt_or_ge i events.length with hlt | hge
    · -- the older events stay where they are
      rw [update_of_ne (q.slot_ne (hlt.trans hroom) hroom hlt.ne)]
      rw [List.getElem?_append_left hlt] at hi
      exact h.taken i e hi
    · rw [List.getElem?_append_right hge, List.getElem?_singleton] at hi
      split_ifs at hi with hzero
      obtain rfl : i = events.length := by omega
      cases hi
      rw [update_self, h.enqueuePos, ofNat_succ]
  · rw [List.length_append, List.length_singleton] at hi
    show (update q.slots (q.slotOf q.enqueuePos) _ ((d + i) % q.capacity)).seq = _
    rw [hslot, update_of_ne (q.slot_ne hlt hroom (by omega))]
    exact h.free i (by omega) hlt

/-- A push into a full ring drops the event. -/
theorem HoldsFrom.push_overflow (h : q.HoldsFrom d events) (hfull : events.length = q.capacity)
    (event : QueueEvent) :
    q.push event = some ({ q with dropped := q.dropped + 1 }, .queueOverflow) := by
  have hcap := q.two_le_capacity
  have hlt := q.capacity_lt
  -- the slot still has the oldest event
  have hslot : q.slotOf q.enqueuePos = (d + 0) % q.capacity := by
    rw [h.enqueuePos, slotOf_ofNat, hfull, Nat.add_mod_right, Nat.add_zero]
  have hseq : (q.slots (q.slotOf q.enqueuePos)).seq = BitVec.ofNat 64 (d + 1) := by
    obtain ⟨oldest, hold⟩ : ∃ e, events[0]? = some e :=
      ⟨_, List.getElem?_eq_getElem (by omega)⟩
    rw [hslot, h.taken 0 oldest hold]
  have hdiff : ((q.slots (q.slotOf q.enqueuePos)).seq - q.enqueuePos).toInt =
      1 - (q.capacity : ℤ) := by
    rw [hseq, h.enqueuePos, hfull, toInt_sub_ofNat (by omega) (by omega)]
    omega
  simp only [push, hdiff]
  rw [if_neg (by omega), if_pos (by omega)]

/-- A pop takes the oldest event. -/
theorem HoldsFrom.pop_cons {event : QueueEvent} (h : q.HoldsFrom d (event :: events)) :
    q.pop = some (q.dequeued, some event) ∧ q.dequeued.HoldsFrom (d + 1) events := by
  have hcap := q.two_le_capacity
  have hslot : q.slotOf q.dequeuePos = (d + 0) % q.capacity := by
    rw [h.dequeuePos, slotOf_ofNat, Nat.add_zero]
  have hat : q.slots (q.slotOf q.dequeuePos) = ⟨q.dequeuePos + 1, event⟩ := by
    rw [hslot, h.taken 0 event rfl, h.dequeuePos, ofNat_succ]
  have hfits : events.length + 1 ≤ q.capacity := h.fits
  constructor
  · simp only [pop, hat, BitVec.sub_self, BitVec.toInt_zero, if_true]
  refine ⟨?_, ?_, ?_, fun i e hi => ?_, fun i hi hlt => ?_⟩
  · show q.enqueuePos = _
    rw [h.enqueuePos, List.length_cons]
    congr 1
    omega
  · show q.dequeuePos + 1 = _
    rw [h.dequeuePos, ofNat_succ]
  · exact Nat.le_of_succ_le hfits
  · have hlen : i < events.length := (List.getElem?_eq_some_iff.1 hi).1
    show update q.slots (q.slotOf q.dequeuePos) _ ((d + 1 + i) % q.capacity) = _
    rw [hslot, show d + 1 + i = d + (i + 1) by omega,
      update_of_ne (q.slot_ne (by omega) (by omega) (by omega))]
    exact h.taken (i + 1) e hi
  · show (update q.slots (q.slotOf q.dequeuePos) _ ((d + 1 + i) % q.capacity)).seq = _
    change i < q.capacity at hlt
    rw [hslot]
    rcases Nat.lt_or_ge (i + 1) q.capacity with hin | hlast
    · rw [show d + 1 + i = d + (i + 1) by omega,
        update_of_ne (q.slot_ne hin (by omega) (by omega))]
      exact h.free (i + 1) (by simpa using hi) hin
    · -- the slot that was read is free for the next round
      obtain rfl : i = q.capacity - 1 := by omega
      rw [show d + 1 + (q.capacity - 1) = d + 0 + q.capacity by omega, Nat.add_mod_right, update_self,
        h.dequeuePos]
      exact (BitVec.ofNat_add _ _).symm

theorem HoldsFrom.pop_nil (h : q.HoldsFrom d []) : q.pop = some (q, none) := by
  have hcap := q.two_le_capacity
  have hslot : q.slotOf q.dequeuePos = (d + 0) % q.capacity := by
    rw [h.dequeuePos, slotOf_ofNat, Nat.add_zero]
  have hseq : (q.slots (q.slotOf q.dequeuePos)).seq = BitVec.ofNat 64 d := by
    rw [hslot, h.free 0 le_rfl (by omega)]
    rfl
  have hdiff : ((q.slots (q.slotOf q.dequeuePos)).seq - (q.dequeuePos + 1)).toInt = -1 := by
    rw [hseq, h.dequeuePos, ofNat_succ, toInt_sub_ofNat (by omega) (by omega)]
    omega
  simp only [pop, hdiff]
  rw [if_neg (by decide), if_pos (by decide)]

theorem Holds.length_le (h : q.Holds events) : events.length ≤ q.capacity := by
  obtain ⟨d, h⟩ := h
  exact h.fits

/-! ## Calls -/

/-- What is in a bounded queue after an event is offered to it. -/
def offer (capacity : ℕ) (events : List QueueEvent) (event : QueueEvent) : List QueueEvent :=
  if events.length < capacity then events ++ [event] else events

/-- **A push** returns; it appends its event, or drops it if the queue is full. -/
theorem Holds.push (h : q.Holds events) (event : QueueEvent) :
    ∃ q' result, q.push event = some (q', result) ∧ q'.bits = q.bits ∧
      q'.Holds (offer q.capacity events event) ∧
      (result = .queueOverflow ↔ events.length = q.capacity) := by
  obtain ⟨d, h⟩ := h
  unfold offer
  rcases Nat.lt_or_eq_of_le h.fits with hroom | hfull
  · obtain ⟨hpush, hholds⟩ := h.push_ok hroom event
    rw [if_pos hroom]
    exact ⟨_, _, hpush, rfl, ⟨d, hholds⟩, by simp [hroom.ne]⟩
  · rw [if_neg hfull.not_lt]
    exact ⟨_, _, h.push_overflow hfull event, rfl,
      ⟨d, h.enqueuePos, h.dequeuePos, h.fits, h.taken, h.free⟩, by simp [hfull]⟩

/-- **A pop** returns the oldest event. -/
theorem Holds.pop (h : q.Holds events) : ∃ q', q.pop = some (q', events.head?) ∧
    q'.bits = q.bits ∧ q'.Holds events.tail := by
  obtain ⟨d, h⟩ := h
  cases events with
  | nil => exact ⟨q, h.pop_nil, rfl, d, h⟩
  | cons event rest => exact ⟨_, h.pop_cons.1, rfl, d + 1, h.pop_cons.2⟩

end RequestQueue

end Nginx

end Gabion
