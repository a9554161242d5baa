/-
  The queue of hits under concurrent producers and consumers (`nginx/src/shm/queue.rs`), one
  atomic load, store or exchange at a time.

  The memory is that of `RequestQueue`, with events written and read word by word.  The history
  numbers the successful exchanges on `enqueue_pos` and on `dequeue_pos`, and `stage k` says
  how far the event of the `k`-th push has come.

  * `Inv`: which stages the sequence number of a slot can mean.  A slot serves the positions
    `k`, `k + capacity`, … one after the other (`Inv.others`).
  * `Asserts`: what a thread knows between two steps; `Rely`: what it relies on while others
    step.
  * `push_alone`, `pop_alone`: a call that no other thread interrupts is that of `RequestQueue`.
-/
import Gabion.Nginx.Words

namespace Gabion

namespace Nginx

namespace Ring

open Function Threads

variable {T : Type}

/-- How far the event of a push has come: its position is claimed by a producer, it is
    published, taken by a consumer, and its slot is released. -/
inductive Stage (T : Type)
  | free
  | claimed (t : T) (event : QueueEvent)
  | published (event : QueueEvent)
  | taken (t : T) (event : QueueEvent)
  | released (event : QueueEvent)

namespace Stage

def event : Stage T → Option QueueEvent
  | .free => none
  | .claimed _ event | .published event | .taken _ event | .released event => some event

def rank : Stage T → ℕ
  | .free => 0
  | .claimed .. => 1
  | .published _ => 2
  | .taken .. => 3
  | .released _ => 4

/-- By how much the sequence number of the slot is ahead of the position. -/
def lead : Stage T → ℕ
  | .published _ | .taken .. => 1
  | .free | .claimed .. | .released _ => 0

/-- Claimed by a producer and not yet released by a consumer. -/
def Held (s : Stage T) : Prop := 0 < s.rank ∧ s.rank < 4

def publish : Stage T → Stage T
  | .claimed _ event => .published event
  | s => s

def take (t : T) : Stage T → Stage T
  | .published event => .taken t event
  | s => s

def release : Stage T → Stage T
  | .taken _ event => .released event
  | s => s

end Stage

/-- The queue and its history: the numbers of pushes and pops that have claimed a position,
    the stages, and what the calls have returned.  A refused push is kept with the position it
    tried and the stages at the time it read the slot. -/
structure Memory (T : Type) where
  queue : RequestQueue
  pushes : ℕ
  pops : ℕ
  stage : ℕ → Stage T
  accepted : List (ℕ × QueueEvent)
  returned : List (ℕ × QueueEvent)
  refused : List (BitVec 64 × (ℕ → Stage T))

def Memory.new (queue : RequestQueue) : Memory T where
  queue := queue
  pushes := 0
  pops := 0
  stage := fun _ => .free
  accepted := []
  returned := []
  refused := []

/-- Where a thread is; `k` is the number of its claim. -/
inductive Local (T : Type)
  | idle
  | pushing (event : QueueEvent)
  | pushSeq (event : QueueEvent) (pos : BitVec 64)
  | pushClaim (event : QueueEvent) (pos : BitVec 64)
  | writing (event : QueueEvent) (pos : BitVec 64) (k : ℕ) (left : List EventWord)
  | overflow (pos : BitVec 64) (seen : ℕ → Stage T)
  | popping
  | popSeq (pos : BitVec 64)
  | popClaim (pos : BitVec 64)
  | reading (pos : BitVec 64) (k : ℕ) (left : List EventWord) (got : QueueEvent)

/-- `fail` is a spurious failure of `compare_exchange_weak`. -/
inductive Input
  | push (event : QueueEvent)
  | pop
  | go
  | fail

def blank : QueueEvent := ⟨0, 0, 0, 0, 0, 0⟩

/-- The order of the stores in `write_slot`. -/
def writeOrder : List EventWord :=
  [.ruleFingerprintLo, .ruleFingerprintHi, .keyHashLo, .keyHashHi, .bucket, .hits, .ruleLimit,
    .nowMillis]

/-- The order of the loads in `read_slot`. -/
def readOrder : List EventWord :=
  [.ruleFingerprintHi, .ruleFingerprintLo, .keyHashHi, .keyHashLo, .bucket, .hits, .ruleLimit,
    .nowMillis]

namespace Memory

def setSlot (g : Memory T) (pos : BitVec 64) (slot : QueueSlot) : Memory T :=
  { g with
    queue := { g.queue with slots := update g.queue.slots (g.queue.slotOf pos) slot } }

def setSeq (g : Memory T) (pos seq : BitVec 64) : Memory T :=
  g.setSlot pos { g.queue.slots (g.queue.slotOf pos) with seq }

def setEvent (g : Memory T) (pos : BitVec 64) (event : QueueEvent) : Memory T :=
  g.setSlot pos { g.queue.slots (g.queue.slotOf pos) with event }

def setStage (g : Memory T) (k : ℕ) (s : Stage T) : Memory T :=
  { g with stage := update g.stage k s }

/-- A successful exchange of `enqueue_pos`. -/
def claim (g : Memory T) (t : T) (event : QueueEvent) (pos : BitVec 64) : Memory T :=
  { g.setStage g.pushes (.claimed t event) with
    queue := { g.queue with enqueuePos := pos + 1 }
    pushes := g.pushes + 1 }

/-- A successful exchange of `dequeue_pos`. -/
def take (g : Memory T) (t : T) (pos : BitVec 64) : Memory T :=
  { g.setStage g.pops ((g.stage g.pops).take t) with
    queue := { g.queue with dequeuePos := pos + 1 }
    pops := g.pops + 1 }

/-- The store that ends a push. -/
def publish (g : Memory T) (event : QueueEvent) (pos : BitVec 64) (k : ℕ) : Memory T :=
  { (g.setSeq pos (pos + 1)).setStage k (g.stage k).publish with
    accepted := (k, event) :: g.accepted }

/-- The store that ends a pop. -/
def release (g : Memory T) (pos : BitVec 64) (k : ℕ) (got : QueueEvent) : Memory T :=
  { (g.setSeq pos (pos + BitVec.ofNat 64 g.queue.capacity)).setStage k (g.stage k).release with
    returned := (k, got) :: g.returned }

/-- The count of an overflow. -/
def refuse (g : Memory T) (pos : BitVec 64) (seen : ℕ → Stage T) : Memory T :=
  { g with
    queue := { g.queue with dropped := g.queue.dropped + 1 }
    refused := (pos, seen) :: g.refused }

end Memory

/-- **One load, store or exchange.**  Every thread may push and pop. -/
def next (t : T) (i : Input) (l : Local T) (g : Memory T) : Local T × Memory T :=
  match l, i with
  | .idle, .push event => (.pushing event, g)
  | .idle, .pop => (.popping, g)
  | .pushing event, .go => (.pushSeq event g.queue.enqueuePos, g)
  | .pushSeq event pos, .go =>
    let diff := ((g.queue.slots (g.queue.slotOf pos)).seq - pos).toInt
    if diff = 0 then (.pushClaim event pos, g)
    else if diff < 0 then (.overflow pos g.stage, g)
    else (.pushing event, g)
  | .pushClaim event pos, .go =>
    if g.queue.enqueuePos = pos then
      (.writing event pos g.pushes writeOrder, g.claim t event pos)
    else (.pushing event, g)
  | .pushClaim event _, .fail => (.pushing event, g)
  | .writing event pos k (f :: left), .go =>
    (.writing event pos k left,
      g.setEvent pos (event.copy f (g.queue.slots (g.queue.slotOf pos)).event))
  | .writing event pos k [], .go => (.idle, g.publish event pos k)
  | .overflow pos seen, .go => (.idle, g.refuse pos seen)
  | .popping, .go => (.popSeq g.queue.dequeuePos, g)
  | .popSeq pos, .go =>
    let diff := ((g.queue.slots (g.queue.slotOf pos)).seq - (pos + 1)).toInt
    if diff = 0 then (.popClaim pos, g)
    else if diff < 0 then (.idle, g)
    else (.popping, g)
  | .popClaim pos, .go =>
    if g.queue.dequeuePos = pos then (.reading pos g.pops readOrder blank, g.take t pos)
    else (.popping, g)
  | .popClaim _, .fail => (.popping, g)
  | .reading pos k (f :: left) got, .go =>
    (.reading pos k left (QueueEvent.copy f (g.queue.slots (g.queue.slotOf pos)).event got), g)
  | .reading pos k [] got, .go => (.idle, g.release pos k got)
  | l, _ => (l, g)

/-- A thread between calls or at the head of a loop. -/
def Local.AtHead : Local T → Prop
  | .idle | .pushing _ | .popping => True
  | _ => False

/-- **What a step can do.** -/
inductive Move (t : T) (g : Memory T) : Local T → Local T → Memory T → Prop
  | stay (l : Local T) : Move t g l l g
  | turn (l l' : Local T) (hhead : l'.AtHead) : Move t g l l' g
  | loadEnqueue (event : QueueEvent) :
      Move t g (.pushing event) (.pushSeq event g.queue.enqueuePos) g
  | vacant (event : QueueEvent) (pos : BitVec 64)
      (hdiff : ((g.queue.slots (g.queue.slotOf pos)).seq - pos).toInt = 0) :
      Move t g (.pushSeq event pos) (.pushClaim event pos) g
  | full (event : QueueEvent) (pos : BitVec 64)
      (hdiff : ((g.queue.slots (g.queue.slotOf pos)).seq - pos).toInt < 0) :
      Move t g (.pushSeq event pos) (.overflow pos g.stage) g
  | claim (event : QueueEvent) (pos : BitVec 64) (hpos : g.queue.enqueuePos = pos) :
      Move t g (.pushClaim event pos) (.writing event pos g.pushes writeOrder)
        (g.claim t event pos)
  | store (event : QueueEvent) (pos : BitVec 64) (k : ℕ) (f : EventWord) (left : List EventWord) :
      Move t g (.writing event pos k (f :: left)) (.writing event pos k left)
        (g.setEvent pos (event.copy f (g.queue.slots (g.queue.slotOf pos)).event))
  | publish (event : QueueEvent) (pos : BitVec 64) (k : ℕ) :
      Move t g (.writing event pos k []) .idle (g.publish event pos k)
  | refuse (pos : BitVec 64) (seen : ℕ → Stage T) :
      Move t g (.overflow pos seen) .idle (g.refuse pos seen)
  | loadDequeue : Move t g .popping (.popSeq g.queue.dequeuePos) g
  | ready (pos : BitVec 64)
      (hdiff : ((g.queue.slots (g.queue.slotOf pos)).seq - (pos + 1)).toInt = 0) :
      Move t g (.popSeq pos) (.popClaim pos) g
  | take (pos : BitVec 64) (hpos : g.queue.dequeuePos = pos) :
      Move t g (.popClaim pos) (.reading pos g.pops readOrder blank) (g.take t pos)
  | fetch (pos : BitVec 64) (k : ℕ) (f : EventWord) (left : List EventWord) (got : QueueEvent) :
      Move t g (.reading pos k (f :: left) got)
        (.reading pos k left (QueueEvent.copy f (g.queue.slots (g.queue.slotOf pos)).event got)) g
  | release (pos : BitVec 64) (k : ℕ) (got : QueueEvent) :
      Move t g (.reading pos k [] got) .idle (g.release pos k got)

theorem next_move (t : T) (i : Input) (l : Local T) (g : Memory T) :
    Move t g l (next t i l g).1 (next t i l g).2 := by
  unfold next
  split
  · exact .turn _ _ trivial
  · exact .turn _ _ trivial
  · exact .loadEnqueue _
  · dsimp only
    split_ifs with hzero hneg
    · exact .vacant _ _ hzero
    · exact .full _ _ hneg
    · exact .turn _ _ trivial
  · split_ifs with hpos
    · exact .claim _ _ hpos
    · exact .turn _ _ trivial
  · exact .turn _ _ trivial
  · exact .store ..
  · exact .publish ..
  · exact .refuse ..
  · exact .loadDequeue
  · dsimp only
    split_ifs with hzero hneg
    · exact .ready _ hzero
    · exact .turn _ _ trivial
    · exact .turn _ _ trivial
  · split_ifs with hpos
    · exact .take _ hpos
    · exact .turn _ _ trivial
  · exact .turn _ _ trivial
  · exact .fetch ..
  · exact .release ..
  · exact .stay _

/-! ## Positions -/

theorem ofNat_ne {a b : ℕ} (hab : a < b) (hb : b < a + 2 ^ 64) :
    BitVec.ofNat 64 a ≠ BitVec.ofNat 64 b := by
  intro heq
  have hmod := congrArg BitVec.toNat heq
  rw [BitVec.toNat_ofNat, BitVec.toNat_ofNat] at hmod
  omega

theorem eq_of_diff {a b : BitVec 64} (h : (a - b).toInt = 0) : a = b := by
  have hzero : a - b = 0 := BitVec.eq_of_toInt_eq h
  rw [← BitVec.sub_add_cancel a b, hzero]
  exact BitVec.zero_add b

namespace Memory

variable (g : Memory T)

/-- The slot of the position `k`. -/
def slotAt (k : ℕ) : QueueSlot := g.queue.slots (k % g.queue.capacity)

theorem slots_ofNat (k : ℕ) :
    g.queue.slots (g.queue.slotOf (BitVec.ofNat 64 k)) = g.slotAt k := by
  rw [RequestQueue.slotOf_ofNat, slotAt]

theorem slotAt_setSlot (k p : ℕ) (slot : QueueSlot) :
    (g.setSlot (BitVec.ofNat 64 k) slot).slotAt p =
      if p % g.queue.capacity = k % g.queue.capacity then slot else g.slotAt p := by
  show update g.queue.slots (g.queue.slotOf (BitVec.ofNat 64 k)) slot (p % g.queue.capacity) = _
  rw [RequestQueue.slotOf_ofNat]
  split_ifs with hp
  · rw [hp, update_self]
  · rw [update_of_ne hp, slotAt]

theorem seqAt_setSeq (k p : ℕ) (seq : BitVec 64) :
    ((g.setSeq (BitVec.ofNat 64 k) seq).slotAt p).seq =
      if p % g.queue.capacity = k % g.queue.capacity then seq else (g.slotAt p).seq := by
  rw [setSeq, slotAt_setSlot]
  split_ifs <;> rfl

theorem eventAt_setSeq (k p : ℕ) (seq : BitVec 64) :
    ((g.setSeq (BitVec.ofNat 64 k) seq).slotAt p).event = (g.slotAt p).event := by
  rw [setSeq, slotAt_setSlot]
  split_ifs with hp
  · rw [slots_ofNat, slotAt, slotAt, hp]
  · rfl

theorem seqAt_setEvent (k p : ℕ) (event : QueueEvent) :
    ((g.setEvent (BitVec.ofNat 64 k) event).slotAt p).seq = (g.slotAt p).seq := by
  rw [setEvent, slotAt_setSlot]
  split_ifs with hp
  · rw [slots_ofNat, slotAt, slotAt, hp]
  · rfl

theorem eventAt_setEvent (k p : ℕ) (event : QueueEvent) :
    ((g.setEvent (BitVec.ofNat 64 k) event).slotAt p).event =
      if p % g.queue.capacity = k % g.queue.capacity then event else (g.slotAt p).event := by
  rw [setEvent, slotAt_setSlot]
  split_ifs <;> rfl

end Memory

/-! ## The invariant -/

/-- The slot of the position `k` has been released by the position before. -/
def Ready (g : Memory T) (k : ℕ) : Prop :=
  k < g.queue.capacity ∨ (g.stage (k - g.queue.capacity)).rank = 4

/-- **The invariant of the memory.**  While a position has its slot, the sequence number is that
    of the position up to its claim, and one more from its publication on. -/
structure Inv (g : Memory T) : Prop where
  enqueuePos : g.queue.enqueuePos = BitVec.ofNat 64 g.pushes
  dequeuePos : g.queue.dequeuePos = BitVec.ofNat 64 g.pops
  free_iff : ∀ k, (g.stage k).rank = 0 ↔ g.pushes ≤ k
  gone_iff : ∀ k, 3 ≤ (g.stage k).rank ↔ k < g.pops
  ready : ∀ k, 0 < (g.stage k).rank → Ready g k
  seq : ∀ k, Ready g k → (g.stage k).rank < 4 →
    (g.slotAt k).seq = BitVec.ofNat 64 (k + (g.stage k).lead)
  event : ∀ k, (g.stage k).rank = 2 ∨ (g.stage k).rank = 3 →
    (g.stage k).event = some (g.slotAt k).event
  accepted : ∀ k event, (k, event) ∈ g.accepted → 2 ≤ (g.stage k).rank ∧
    (g.stage k).event = some event
  accepted_once : (g.accepted.map Prod.fst).Nodup
  returned : ∀ k event, (k, event) ∈ g.returned → g.stage k = .released event
  returned_once : (g.returned.map Prod.fst).Nodup
  refused : ∀ pos seen, (pos, seen) ∈ g.refused → g.queue.capacity ≤ pos.toNat ∧
    (seen (pos.toNat - g.queue.capacity)).Held

section
variable {g g' : Memory T} {k p : ℕ}

theorem Stage.rank_le (s : Stage T) : s.rank ≤ 4 := by
  cases s <;> simp [rank]

theorem Stage.lead_le (s : Stage T) : s.lead ≤ 1 ∧ (0 < s.lead → 2 ≤ s.rank) := by
  cases s <;> simp [lead, rank]

theorem Inv.pops_le (h : Inv g) : g.pops ≤ g.pushes := by
  by_contra hlt
  have hfree := (h.free_iff g.pushes).2 le_rfl
  have hgone := (h.gone_iff g.pushes).2 (not_le.1 hlt)
  omega

/-- Of the positions of a slot, those before a claimed one are released. -/
theorem Inv.released_before (h : Inv g) (hp : p % g.queue.capacity = k % g.queue.capacity)
    (hlt : p < k) (hk : 0 < (g.stage k).rank) : (g.stage p).rank = 4 := by
  induction k using Nat.strong_induction_on with
  | _ k ih =>
    have hcap := g.queue.two_le_capacity
    have hle : p + g.queue.capacity ≤ k := by
      have hdvd : g.queue.capacity ∣ k - p := (Nat.modEq_iff_dvd' hlt.le).1 hp
      have := Nat.le_of_dvd (Nat.sub_pos_of_lt hlt) hdvd
      omega
    have hrel : (g.stage (k - g.queue.capacity)).rank = 4 :=
      (h.ready k hk).resolve_left (by omega)
    rcases Nat.lt_or_ge p (k - g.queue.capacity) with hbefore | hat
    · refine ih _ (by omega) ?_ hbefore (by omega)
      rw [hp, ← Nat.mod_eq_sub_mod (show g.queue.capacity ≤ k by omega)]
    · rw [show p = k - g.queue.capacity by omega, hrel]

/-- **A slot serves one position at a time**: while it is ready for one, those before it are
    released, and those after it are neither claimed nor ready. -/
theorem Inv.others (h : Inv g) (hready : Ready g k) (hk : (g.stage k).rank < 4)
    (hp : p % g.queue.capacity = k % g.queue.capacity) (hne : p ≠ k) :
    (g.stage p).rank = 4 ∨ (g.stage p).rank = 0 ∧ ¬Ready g p := by
  have hcap := g.queue.two_le_capacity
  have hsub : ∀ {m : ℕ}, g.queue.capacity ≤ m →
      (m - g.queue.capacity) % g.queue.capacity = m % g.queue.capacity := fun hm =>
    (Nat.mod_eq_sub_mod hm).symm
  have hfar : ∀ {m n : ℕ}, m < n → m % g.queue.capacity = n % g.queue.capacity →
      m + g.queue.capacity ≤ n := by
    intro m n hlt hmod
    have hdvd : g.queue.capacity ∣ n - m := (Nat.modEq_iff_dvd' hlt.le).1 hmod
    have := Nat.le_of_dvd (Nat.sub_pos_of_lt hlt) hdvd
    omega
  rcases Nat.lt_or_gt_of_ne hne with hlt | hgt
  · have hle := hfar hlt hp
    have hrel := hready.resolve_left (by omega)
    rcases Nat.lt_or_ge p (k - g.queue.capacity) with hbefore | hat
    · exact .inl (h.released_before (by rw [hp, hsub (by omega)]) hbefore (by omega))
    · rw [show p = k - g.queue.capacity by omega]
      exact .inl hrel
  · have hle := hfar hgt hp.symm
    refine .inr ⟨?_, fun hrp => ?_⟩
    · by_contra hclaimed
      have := h.released_before hp.symm hgt (Nat.pos_of_ne_zero hclaimed)
      omega
    · have hrel := hrp.resolve_left (by omega)
      rcases Nat.lt_or_ge k (p - g.queue.capacity) with hbefore | hat
      · have := h.released_before (by rw [← hp, hsub (by omega)]) hbefore (by omega)
        omega
      · rw [show p - g.queue.capacity = k by omega] at hrel
        omega

/-! ## Sequence numbers -/

/-- The sequence number of a ready position is at least its own, and at most that of the last
    position the slot can serve. -/
theorem Inv.seq_of_ready (h : Inv g) (hready : Ready g k) :
    ∃ s, (g.slotAt k).seq = BitVec.ofNat 64 s ∧ k ≤ s ∧
      s ≤ max k (max g.pushes (g.pops + g.queue.capacity)) := by
  have hpops := h.pops_le
  have hcap := g.queue.two_le_capacity
  induction hn : g.pushes - k using Nat.strong_induction_on generalizing k with
  | _ n ih =>
    have hfree := h.free_iff k
    have hgone := h.gone_iff k
    have hrank := (g.stage k).rank_le
    have hlead := (g.stage k).lead_le
    by_cases hlt : (g.stage k).rank < 4
    · exact ⟨_, h.seq k hready hlt, Nat.le_add_right .., by omega⟩
    · -- released: the slot has moved on to the next position
      have hrel : (g.stage k).rank = 4 := by omega
      have hnext : Ready g (k + g.queue.capacity) := .inr (by rw [Nat.add_sub_cancel, hrel])
      obtain ⟨s, hseq, hle, hmax⟩ := ih (g.pushes - (k + g.queue.capacity)) (by omega) hnext rfl
      refine ⟨s, ?_, by omega, by omega⟩
      rw [← hseq, Memory.slotAt, Memory.slotAt, Nat.add_mod_right]

/-- The slot of a position that is not ready is held by the position before. -/
theorem Inv.seq_of_not_ready (h : Inv g) (hk : k ≤ g.pushes) (hnot : ¬Ready g k) :
    g.queue.capacity ≤ k ∧ (g.stage (k - g.queue.capacity)).Held ∧
      ∃ s, (g.slotAt k).seq = BitVec.ofNat 64 s ∧ s < k ∧ k ≤ s + g.queue.capacity := by
  obtain ⟨hlt, hrel⟩ := not_or.1 hnot
  have hcap := not_lt.1 hlt
  have htwo := g.queue.two_le_capacity
  have hfree := h.free_iff (k - g.queue.capacity)
  have hslot : g.slotAt k = g.slotAt (k - g.queue.capacity) := by
    rw [Memory.slotAt, Memory.slotAt, Nat.mod_eq_sub_mod hcap]
  have hrank := (g.stage (k - g.queue.capacity)).rank_le
  have hlead := (g.stage (k - g.queue.capacity)).lead_le
  refine ⟨hcap, ⟨by omega, by omega⟩, ?_⟩
  rw [hslot]
  exact ⟨_, h.seq _ (h.ready _ (by omega)) (by omega), by omega, by omega⟩

theorem Inv.ready_of_seq (h : Inv g) (hk : k ≤ g.pushes)
    (hseq : (g.slotAt k).seq = BitVec.ofNat 64 k) : Ready g k := by
  by_contra hnot
  obtain ⟨-, -, s, hs, hlt, hle⟩ := h.seq_of_not_ready hk hnot
  have hcap := g.queue.capacity_lt
  exact ofNat_ne hlt (by omega) (hs.symm.trans hseq)

theorem Inv.published_of_seq (h : Inv g) (hk : k ≤ g.pops)
    (hseq : (g.slotAt k).seq = BitVec.ofNat 64 (k + 1)) : 2 ≤ (g.stage k).rank := by
  by_contra hlow
  have hcap := g.queue.capacity_lt
  have hlead := (g.stage k).lead_le
  by_cases hready : Ready g k
  · exact ofNat_ne (by omega) (by omega) ((h.seq k hready (by omega)).symm.trans hseq)
  · obtain ⟨-, -, s, hs, hlt, hle⟩ := h.seq_of_not_ready (hk.trans h.pops_le) hready
    exact ofNat_ne (Nat.lt_succ_of_lt hlt) (by omega) (hs.symm.trans hseq)

/-- A push that finds a smaller number finds a position that is still held. -/
theorem Inv.held_of_full (h : Inv g) (hk : k ≤ g.pushes) (hbound : g.pushes + g.pops < 2 ^ 63)
    (hdiff : ((g.slotAt k).seq - BitVec.ofNat 64 k).toInt < 0) :
    g.queue.capacity ≤ k ∧ (g.stage (k - g.queue.capacity)).Held := by
  have hpops := h.pops_le
  have hcap : g.queue.capacity ≤ 2 ^ 62 :=
    Nat.pow_le_pow_right (by decide) (Nat.le_of_lt_succ g.queue.bits_lt)
  have hnot : ¬Ready g k := by
    intro hready
    obtain ⟨s, hseq, hle, hmax⟩ := h.seq_of_ready hready
    rw [hseq, RequestQueue.toInt_sub_ofNat (by omega) (by omega)] at hdiff
    omega
  obtain ⟨hge, hheld, -⟩ := h.seq_of_not_ready hk hnot
  exact ⟨hge, hheld⟩

end

/-! ## Assertions -/

/-- **What a thread knows.** -/
def Asserts (t : T) (l : Local T) (g : Memory T) : Prop :=
  match l with
  | .idle | .pushing _ | .popping => True
  | .pushSeq _ pos => ∃ k ≤ g.pushes, pos = BitVec.ofNat 64 k
  | .pushClaim _ pos => ∃ k ≤ g.pushes, pos = BitVec.ofNat 64 k ∧ Ready g k
  | .writing event pos k left =>
    pos = BitVec.ofNat 64 k ∧ g.stage k = .claimed t event ∧ Copied left event (g.slotAt k).event
  | .overflow pos seen =>
    g.queue.capacity ≤ pos.toNat ∧ (seen (pos.toNat - g.queue.capacity)).Held
  | .popSeq pos => ∃ k ≤ g.pops, pos = BitVec.ofNat 64 k
  | .popClaim pos => ∃ k ≤ g.pops, pos = BitVec.ofNat 64 k ∧ 2 ≤ (g.stage k).rank
  | .reading pos k left got =>
    pos = BitVec.ofNat 64 k ∧ ∃ event, g.stage k = .taken t event ∧ Copied left event got

/-- What a thread relies on while others step. -/
structure Rely (u : T) (g g' : Memory T) : Prop where
  capacity : g'.queue.capacity = g.queue.capacity
  pushes : g.pushes ≤ g'.pushes
  pops : g.pops ≤ g'.pops
  rank : ∀ k, (g.stage k).rank ≤ (g'.stage k).rank
  claimed : ∀ k event, g.stage k = .claimed u event →
    g'.stage k = .claimed u event ∧ (g'.slotAt k).event = (g.slotAt k).event
  taken : ∀ k event, g.stage k = .taken u event → g'.stage k = .taken u event

theorem Rely.refl (u : T) (g : Memory T) : Rely u g g :=
  ⟨rfl, le_rfl, le_rfl, fun _ => le_rfl, fun _ _ h => ⟨h, rfl⟩, fun _ _ h => h⟩

theorem Ready.mono {g g' : Memory T} {k : ℕ} (h : Ready g k)
    (hcapacity : g'.queue.capacity = g.queue.capacity)
    (hrank : ∀ p, (g.stage p).rank ≤ (g'.stage p).rank) : Ready g' k := by
  unfold Ready at h ⊢
  rw [hcapacity]
  refine h.imp_right fun hrel => ?_
  have hle := hrank (k - g.queue.capacity)
  have hmax := (g'.stage (k - g.queue.capacity)).rank_le
  omega

theorem Asserts.rely {u : T} {l : Local T} {g g' : Memory T} (h : Asserts u l g)
    (hr : Rely u g g') : Asserts u l g' := by
  cases l with
  | idle | pushing | popping => exact trivial
  | pushSeq event pos =>
    obtain ⟨k, hk, hpos⟩ := h
    exact ⟨k, hk.trans hr.pushes, hpos⟩
  | pushClaim event pos =>
    obtain ⟨k, hk, hpos, hready⟩ := h
    exact ⟨k, hk.trans hr.pushes, hpos, hready.mono hr.capacity hr.rank⟩
  | writing event pos k left =>
    obtain ⟨hpos, hstage, hcopied⟩ := h
    obtain ⟨hstage', hevent⟩ := hr.claimed k event hstage
    exact ⟨hpos, hstage', hevent ▸ hcopied⟩
  | overflow pos seen =>
    obtain ⟨hcap, hheld⟩ := h
    exact ⟨hr.capacity ▸ hcap, hr.capacity ▸ hheld⟩
  | popSeq pos =>
    obtain ⟨k, hk, hpos⟩ := h
    exact ⟨k, hk.trans hr.pops, hpos⟩
  | popClaim pos =>
    obtain ⟨k, hk, hpos, hrank⟩ := h
    exact ⟨k, hk.trans hr.pops, hpos, hrank.trans (hr.rank k)⟩
  | reading pos k left got =>
    obtain ⟨hpos, event, hstage, hcopied⟩ := h
    exact ⟨hpos, event, hr.taken k event hstage, hcopied⟩

theorem Asserts.of_atHead {t : T} {l : Local T} {g : Memory T} (h : l.AtHead) : Asserts t l g := by
  cases l <;> trivial

/-! ## Steps -/

section
variable {t u : T} {g g' : Memory T} {l l' : Local T} {event got : QueueEvent} {pos : BitVec 64}
  {k : ℕ}

/-- An exchange that succeeds finds the position that the thread knows. -/
theorem eq_of_claim {m n : ℕ} (hm : m ≤ n) (hn : n < 2 ^ 63)
    (h : BitVec.ofNat 64 n = BitVec.ofNat 64 m) : m = n := by
  by_contra hne
  exact ofNat_ne (lt_of_le_of_ne hm hne) (by omega) h.symm

theorem Stage.eq_free {s : Stage T} (h : s.rank = 0) : s = .free := by
  cases s <;> first | rfl | cases h

theorem Stage.eq_published {s : Stage T} (h : s.rank = 2) : ∃ event, s = .published event := by
  cases s with
  | published event => exact ⟨event, rfl⟩
  | free | claimed | taken | released => cases h

theorem Asserts.pushClaim (h : Asserts t (.pushClaim event pos) g) (hinv : Inv g)
    (hpos : g.queue.enqueuePos = pos) (hbound : g.pushes + g.pops < 2 ^ 63) :
    pos = BitVec.ofNat 64 g.pushes ∧ Ready g g.pushes := by
  obtain ⟨k, hk, hp, hready⟩ := h
  rw [← hpos, hinv.enqueuePos] at hp
  obtain rfl := eq_of_claim hk (by omega) hp
  exact ⟨hpos.symm.trans hinv.enqueuePos, hready⟩

theorem Asserts.popClaim (h : Asserts t (.popClaim pos) g) (hinv : Inv g)
    (hpos : g.queue.dequeuePos = pos) (hbound : g.pushes + g.pops < 2 ^ 63) :
    pos = BitVec.ofNat 64 g.pops ∧ ∃ event, g.stage g.pops = .published event := by
  obtain ⟨k, hk, hp, hrank⟩ := h
  rw [← hpos, hinv.dequeuePos] at hp
  obtain rfl := eq_of_claim hk (by omega) hp
  have hgone := hinv.gone_iff g.pops
  exact ⟨hpos.symm.trans hinv.dequeuePos, Stage.eq_published (by omega)⟩

/-- A step that moves one stage on. -/
theorem Rely.setStage {s : Stage T} (hcapacity : g'.queue.capacity = g.queue.capacity)
    (hpushes : g.pushes ≤ g'.pushes) (hpops : g.pops ≤ g'.pops)
    (hstage : g'.stage = update g.stage k s) (hrank : (g.stage k).rank ≤ s.rank)
    (hclaimed : ∀ event, g.stage k ≠ .claimed u event) (htaken : ∀ event, g.stage k ≠ .taken u event)
    (hevent : ∀ p, (g'.slotAt p).event = (g.slotAt p).event) : Rely u g g' := by
  refine ⟨hcapacity, hpushes, hpops, fun p => ?_, fun p event hp => ⟨?_, hevent p⟩,
    fun p event hp => ?_⟩
  · rw [hstage]
    by_cases hpk : p = k
    · rw [hpk, update_self]
      exact hrank
    · rw [update_of_ne hpk]
  · rw [hstage, update_of_ne, hp]
    rintro rfl
    exact hclaimed event hp
  · rw [hstage, update_of_ne, hp]
    rintro rfl
    exact htaken event hp

/-- **No step interferes.** -/
theorem Move.rely (hmove : Move t g l l' g') (hinv : Inv g) (h : Asserts t l g) (hu : u ≠ t)
    (hbound : g.pushes + g.pops < 2 ^ 63) : Rely u g g' := by
  have hpops := hinv.pops_le
  cases hmove with
  | stay | turn | loadEnqueue | vacant | full | loadDequeue | ready | fetch => exact .refl u g
  | refuse pos seen =>
    exact ⟨rfl, le_rfl, le_rfl, fun _ => le_rfl, fun _ _ h => ⟨h, rfl⟩, fun _ _ h => h⟩
  | claim event pos hpos =>
    have hstage := Stage.eq_free ((hinv.free_iff g.pushes).2 le_rfl)
    refine .setStage rfl (Nat.le_succ _) le_rfl rfl ?_ ?_ ?_ fun _ => rfl
    · rw [hstage]
      exact Nat.zero_le _
    · rw [hstage]
      exact fun _ => nofun
    · rw [hstage]
      exact fun _ => nofun
  | store event pos k f left =>
    obtain ⟨rfl, hstage, -⟩ := h
    refine ⟨rfl, le_rfl, le_rfl, fun _ => le_rfl, fun p event' hp => ⟨hp, ?_⟩, fun _ _ h => h⟩
    rw [Memory.eventAt_setEvent]
    refine if_neg fun hsame => ?_
    -- the other thread has claimed another position, which is in another slot
    have hne : p ≠ k := by
      rintro rfl
      rw [hstage, Stage.claimed.injEq] at hp
      exact hu hp.1.symm
    have hheld : (g.stage k).Held := by
      rw [hstage]
      exact ⟨Nat.zero_lt_one, by simp [Stage.rank]⟩
    have hrank : (g.stage p).rank = 1 := by rw [hp, Stage.rank]
    have hothers := hinv.others (hinv.ready k hheld.1) hheld.2 hsame hne
    omega
  | publish event pos k =>
    obtain ⟨rfl, hstage, -⟩ := h
    refine .setStage rfl le_rfl le_rfl rfl ?_ ?_ ?_ fun p => ?_
    · rw [hstage]
      exact Nat.le_succ 1
    · rw [hstage]
      intro event' heq
      rw [Stage.claimed.injEq] at heq
      exact hu heq.1.symm
    · rw [hstage]
      exact fun _ => nofun
    · exact Memory.eventAt_setSeq g k p _
  | take pos hpos =>
    obtain ⟨-, event, hstage⟩ := h.popClaim hinv hpos hbound
    refine .setStage rfl le_rfl (Nat.le_succ _) rfl ?_ ?_ ?_ fun _ => rfl
    · rw [hstage]
      exact Nat.le_succ 2
    · rw [hstage]
      exact fun _ => nofun
    · rw [hstage]
      exact fun _ => nofun
  | release pos k got =>
    obtain ⟨rfl, event, hstage, -⟩ := h
    refine .setStage rfl le_rfl le_rfl rfl ?_ ?_ ?_ fun p => ?_
    · rw [hstage]
      exact Nat.le_succ 3
    · rw [hstage]
      exact fun _ => nofun
    · rw [hstage]
      intro event' heq
      rw [Stage.taken.injEq] at heq
      exact hu heq.1.symm
    · exact Memory.eventAt_setSeq g k p _

theorem rank_le_update {s : Stage T} (hs : (g.stage k).rank ≤ s.rank) (p : ℕ) :
    (g.stage p).rank ≤ (update g.stage k s p).rank := by
  by_cases hp : p = k
  · rw [hp, update_self]
    exact hs
  · rw [update_of_ne hp]

/-- **The event of one position moves on by one stage.**  Claims move `pushes` and `pops`, and
    only the slot of the position may change. -/
structure Advance (g g' : Memory T) (k : ℕ) (s : Stage T) : Prop where
  bits : g'.queue.bits = g.queue.bits
  stage : g'.stage = update g.stage k s
  rank : s.rank = (g.stage k).rank + 1
  same : s.rank ≠ 1 → s.event = (g.stage k).event
  enqueuePos : g'.queue.enqueuePos = BitVec.ofNat 64 g'.pushes
  dequeuePos : g'.queue.dequeuePos = BitVec.ofNat 64 g'.pops
  pushes : g'.pushes = g.pushes ∧ s.rank ≠ 1 ∨ g'.pushes = k + 1 ∧ k = g.pushes ∧ s.rank = 1
  pops : g'.pops = g.pops ∧ s.rank ≠ 3 ∨ g'.pops = k + 1 ∧ k = g.pops ∧ s.rank = 3
  other : ∀ p, p % g.queue.capacity ≠ k % g.queue.capacity → g'.slotAt p = g.slotAt p
  seq : s.rank ≠ 4 → (g'.slotAt k).seq = BitVec.ofNat 64 (k + s.lead)
  next_seq : s.rank = 4 → (g'.slotAt k).seq = BitVec.ofNat 64 (k + g.queue.capacity)
  event : s.rank = 2 ∨ s.rank = 3 → s.event = some (g'.slotAt k).event
  accepted : g'.accepted = g.accepted ∨
    s.rank = 2 ∧ ∃ event, s.event = some event ∧ g'.accepted = (k, event) :: g.accepted
  returned : g'.returned = g.returned ∨
    ∃ event, s = .released event ∧ g'.returned = (k, event) :: g.returned
  refused : g'.refused = g.refused

namespace Advance

variable {s : Stage T} {p : ℕ} (ha : Advance g g' k s)
include ha

theorem capacity : g'.queue.capacity = g.queue.capacity := congrArg (2 ^ ·) ha.bits

theorem stage_self : g'.stage k = s := by rw [ha.stage, update_self]

theorem stage_of_ne (hp : p ≠ k) : g'.stage p = g.stage p := by rw [ha.stage, update_of_ne hp]

theorem ready_mono (hp : Ready g p) : Ready g' p := by
  have hrank := ha.rank
  refine hp.mono ha.capacity ?_
  rw [ha.stage]
  exact rank_le_update (by omega)

/-- Positions in other slots were ready before. -/
theorem ready_of_slot_ne (hp : Ready g' p) (hslot : p % g.queue.capacity ≠ k % g.queue.capacity) :
    Ready g p := by
  unfold Ready at hp ⊢
  rw [ha.capacity] at hp
  by_cases hsmall : p < g.queue.capacity
  · exact .inl hsmall
  have hne : p - g.queue.capacity ≠ k := by
    rintro rfl
    exact hslot (Nat.mod_eq_sub_mod (not_lt.1 hsmall))
  rw [ha.stage_of_ne hne] at hp
  exact hp

variable (h : Inv g) (hready : Ready g k) (hlt : (g.stage k).rank < 4)
include h hready hlt

/-- The slot becomes ready for the next position when this one is released. -/
theorem seq_of_slot_eq (hpk : p ≠ k) (hslot : p % g.queue.capacity = k % g.queue.capacity)
    (hp : Ready g' p) (hp4 : (g.stage p).rank < 4) :
    (g'.slotAt p).seq = BitVec.ofNat 64 (p + (g.stage p).lead) := by
  obtain ⟨hzero, hnot⟩ := (h.others hready hlt hslot hpk).resolve_left hp4.ne
  obtain ⟨hcap, hnrel⟩ := not_or.1 hnot
  unfold Ready at hp
  rw [ha.capacity] at hp
  have hrel := hp.resolve_left hcap
  have hprev : p - g.queue.capacity = k := by
    by_contra hne
    rw [ha.stage_of_ne hne] at hrel
    exact hnrel hrel
  rw [hprev, ha.stage_self] at hrel
  have hsame : g'.slotAt p = g'.slotAt k := by
    rw [Memory.slotAt, Memory.slotAt, ha.capacity, hslot]
  rw [hsame, ha.next_seq hrel, Stage.eq_free hzero, ← hprev, Nat.sub_add_cancel (not_lt.1 hcap)]
  rfl

theorem seq_eq (hp : Ready g' p) (hp4 : (g'.stage p).rank < 4) :
    (g'.slotAt p).seq = BitVec.ofNat 64 (p + (g'.stage p).lead) := by
  by_cases hpk : p = k
  · rw [hpk, ha.stage_self] at hp4 ⊢
    exact ha.seq hp4.ne
  rw [ha.stage_of_ne hpk] at hp4 ⊢
  by_cases hslot : p % g.queue.capacity = k % g.queue.capacity
  · exact ha.seq_of_slot_eq h hready hlt hpk hslot hp hp4
  · rw [ha.other p hslot]
    exact h.seq p (ha.ready_of_slot_ne hp hslot) hp4

theorem event_eq (hp : (g'.stage p).rank = 2 ∨ (g'.stage p).rank = 3) :
    (g'.stage p).event = some (g'.slotAt p).event := by
  by_cases hpk : p = k
  · rw [hpk, ha.stage_self] at hp ⊢
    exact ha.event hp
  rw [ha.stage_of_ne hpk] at hp ⊢
  rw [ha.other]
  · exact h.event p hp
  · intro hslot
    have hothers := h.others hready hlt hslot hpk
    omega

omit hready hlt

theorem accepted_stage {event : QueueEvent} (hp : (p, event) ∈ g'.accepted) :
    2 ≤ (g'.stage p).rank ∧ (g'.stage p).event = some event := by
  have hrank := ha.rank
  have hold : (p, event) ∈ g.accepted →
      2 ≤ (g'.stage p).rank ∧ (g'.stage p).event = some event := by
    intro hp
    obtain ⟨h2, hev⟩ := h.accepted p event hp
    by_cases hpk : p = k
    · rw [hpk] at h2 hev
      rw [hpk, ha.stage_self, ha.same (by omega)]
      exact ⟨by omega, hev⟩
    · rw [ha.stage_of_ne hpk]
      exact ⟨h2, hev⟩
  rcases ha.accepted with hsame | ⟨h2, event', hs, hcons⟩
  · exact hold (hsame ▸ hp)
  rw [hcons] at hp
  rcases List.mem_cons.1 hp with heq | hp
  · cases heq
    rw [ha.stage_self]
    exact ⟨h2.ge, hs⟩
  · exact hold hp

theorem accepted_once : (g'.accepted.map Prod.fst).Nodup := by
  have hrank := ha.rank
  rcases ha.accepted with hsame | ⟨h2, event', hs, hcons⟩
  · rw [hsame]
    exact h.accepted_once
  rw [hcons]
  refine List.nodup_cons.2 ⟨fun hmem => ?_, h.accepted_once⟩
  obtain ⟨⟨p, event⟩, hp, rfl⟩ := List.mem_map.1 hmem
  have := (h.accepted p event hp).1
  dsimp only at hrank
  omega

include hlt

omit ha in
/-- A position whose event was returned is not moved again. -/
theorem not_returned (event : QueueEvent) : (k, event) ∉ g.returned := by
  intro hp
  rw [h.returned k event hp] at hlt
  exact lt_irrefl 4 hlt

theorem returned_stage {event : QueueEvent} (hp : (p, event) ∈ g'.returned) :
    g'.stage p = .released event := by
  have hold : (p, event) ∈ g.returned → g'.stage p = .released event := by
    intro hp
    rw [ha.stage_of_ne, h.returned p event hp]
    rintro rfl
    exact not_returned h hlt event hp
  rcases ha.returned with hsame | ⟨event', hs, hcons⟩
  · exact hold (hsame ▸ hp)
  rw [hcons] at hp
  rcases List.mem_cons.1 hp with heq | hp
  · cases heq
    rw [ha.stage_self, hs]
  · exact hold hp

theorem returned_once : (g'.returned.map Prod.fst).Nodup := by
  rcases ha.returned with hsame | ⟨event', hs, hcons⟩
  · rw [hsame]
    exact h.returned_once
  rw [hcons]
  refine List.nodup_cons.2 ⟨fun hmem => ?_, h.returned_once⟩
  obtain ⟨⟨p, event⟩, hp, rfl⟩ := List.mem_map.1 hmem
  exact not_returned h hlt event hp

end Advance

theorem Inv.advance {s : Stage T} (h : Inv g) (hready : Ready g k) (hlt : (g.stage k).rank < 4)
    (ha : Advance g g' k s) : Inv g' := by
  have hrank := ha.rank
  have hfree := h.free_iff k
  have hgone := h.gone_iff k
  refine ⟨ha.enqueuePos, ha.dequeuePos, fun p => ?_, fun p => ?_, fun p hp => ?_,
    fun p hp hp4 => ha.seq_eq h hready hlt hp hp4, fun p hp => ha.event_eq h hready hlt hp,
    fun p event hp => ha.accepted_stage h hp, ha.accepted_once h,
    fun p event hp => ha.returned_stage h hlt hp, ha.returned_once h hlt, ?_⟩
  · have hpushes := ha.pushes
    have hold := h.free_iff p
    by_cases hpk : p = k
    · rw [hpk, ha.stage_self]
      omega
    · rw [ha.stage_of_ne hpk]
      omega
  · have hpops := ha.pops
    have hold := h.gone_iff p
    by_cases hpk : p = k
    · rw [hpk, ha.stage_self]
      omega
    · rw [ha.stage_of_ne hpk]
      omega
  · by_cases hpk : p = k
    · exact hpk ▸ ha.ready_mono hready
    · rw [ha.stage_of_ne hpk] at hp
      exact ha.ready_mono (h.ready p hp)
  · rw [ha.refused, ha.capacity]
    exact h.refused

/-- **A push claims its position.** -/
theorem Inv.claim (h : Inv g) (t : T) (event : QueueEvent) (hready : Ready g g.pushes) :
    Inv (g.claim t event (BitVec.ofNat 64 g.pushes)) := by
  have hfree := (h.free_iff g.pushes).2 le_rfl
  have hseq := h.seq g.pushes hready (by omega)
  rw [Stage.eq_free hfree] at hseq
  refine h.advance (s := .claimed t event) hready (by omega) ?_
  exact {
    bits := rfl
    stage := rfl
    rank := by rw [hfree, Stage.rank]
    same := absurd rfl
    enqueuePos := RequestQueue.ofNat_succ _
    dequeuePos := h.dequeuePos
    pushes := .inr ⟨rfl, rfl, rfl⟩
    pops := .inl ⟨rfl, by simp [Stage.rank]⟩
    other := fun _ _ => rfl
    seq := fun _ => hseq
    next_seq := by simp [Stage.rank]
    event := by simp [Stage.rank]
    accepted := .inl rfl
    returned := .inl rfl
    refused := rfl }

/-- **A pop claims its position.** -/
theorem Inv.take (h : Inv g) (t : T) (hpub : g.stage g.pops = .published event) :
    Inv (g.take t (BitVec.ofNat 64 g.pops)) := by
  have htwo : (g.stage g.pops).rank = 2 := by rw [hpub, Stage.rank]
  have hready := h.ready g.pops (by omega)
  have hseq := h.seq g.pops hready (by omega)
  have hevent := h.event g.pops (.inl htwo)
  rw [hpub] at hseq hevent
  refine h.advance (s := .taken t event) hready (by omega) ?_
  exact {
    bits := rfl
    stage := by
      show update g.stage g.pops ((g.stage g.pops).take t) = _
      rw [hpub, Stage.take]
    rank := by rw [htwo, Stage.rank]
    same := fun _ => by rw [hpub]; rfl
    enqueuePos := h.enqueuePos
    dequeuePos := RequestQueue.ofNat_succ _
    pushes := .inl ⟨rfl, by simp [Stage.rank]⟩
    pops := .inr ⟨rfl, rfl, rfl⟩
    other := fun _ _ => rfl
    seq := fun _ => hseq
    next_seq := by simp [Stage.rank]
    event := fun _ => hevent
    accepted := .inl rfl
    returned := .inl rfl
    refused := rfl }

/-- A word is stored into a claimed slot. -/
theorem Inv.setEvent (h : Inv g) (hclaimed : g.stage k = .claimed t event) (event' : QueueEvent) :
    Inv (g.setEvent (BitVec.ofNat 64 k) event') := by
  refine ⟨h.enqueuePos, h.dequeuePos, h.free_iff, h.gone_iff, h.ready, fun p hp hp4 => ?_,
    fun p hp => ?_, h.accepted, h.accepted_once, h.returned, h.returned_once, h.refused⟩
  · rw [Memory.seqAt_setEvent]
    exact h.seq p hp hp4
  · have hone : (g.stage k).rank = 1 := by rw [hclaimed, Stage.rank]
    have hp : (g.stage p).rank = 2 ∨ (g.stage p).rank = 3 := hp
    rw [Memory.eventAt_setEvent, if_neg]
    · exact h.event p hp
    · intro hsame
      have hothers := h.others (h.ready k (by omega)) (by omega) hsame (by rintro rfl; omega)
      omega

/-- **A push publishes its event.** -/
theorem Inv.publish (h : Inv g) (hclaimed : g.stage k = .claimed t event)
    (hevent : (g.slotAt k).event = event) : Inv (g.publish event (BitVec.ofNat 64 k) k) := by
  have hone : (g.stage k).rank = 1 := by rw [hclaimed, Stage.rank]
  refine h.advance (s := .published event) (h.ready k (by omega)) (by omega) ?_
  exact {
    bits := rfl
    stage := by
      show update g.stage k (g.stage k).publish = _
      rw [hclaimed, Stage.publish]
    rank := by rw [hone, Stage.rank]
    same := fun _ => by rw [hclaimed]; rfl
    enqueuePos := h.enqueuePos
    dequeuePos := h.dequeuePos
    pushes := .inl ⟨rfl, by simp [Stage.rank]⟩
    pops := .inl ⟨rfl, by simp [Stage.rank]⟩
    other := fun p hp => (Memory.slotAt_setSlot g k p _).trans (if_neg hp)
    seq := fun _ =>
      (Memory.seqAt_setSeq g k k _).trans ((if_pos rfl).trans (RequestQueue.ofNat_succ k))
    next_seq := by simp [Stage.rank]
    event := fun _ => by
      rw [show ((g.publish event (BitVec.ofNat 64 k) k).slotAt k).event = (g.slotAt k).event from
        Memory.eventAt_setSeq g k k _, hevent]
      rfl
    accepted := .inr ⟨rfl, event, rfl, rfl⟩
    returned := .inl rfl
    refused := rfl }

/-- **A pop releases its slot.** -/
theorem Inv.release (h : Inv g) (htaken : g.stage k = .taken t event) :
    Inv (g.release (BitVec.ofNat 64 k) k event) := by
  have hthree : (g.stage k).rank = 3 := by rw [htaken, Stage.rank]
  refine h.advance (s := .released event) (h.ready k (by omega)) (by omega) ?_
  exact {
    bits := rfl
    stage := by
      show update g.stage k (g.stage k).release = _
      rw [htaken, Stage.release]
    rank := by rw [hthree, Stage.rank]
    same := fun _ => by rw [htaken]; rfl
    enqueuePos := h.enqueuePos
    dequeuePos := h.dequeuePos
    pushes := .inl ⟨rfl, by simp [Stage.rank]⟩
    pops := .inl ⟨rfl, by simp [Stage.rank]⟩
    other := fun p hp => (Memory.slotAt_setSlot g k p _).trans (if_neg hp)
    seq := absurd rfl
    next_seq := fun _ =>
      (Memory.seqAt_setSeq g k k _).trans ((if_pos rfl).trans (BitVec.ofNat_add ..).symm)
    event := by simp [Stage.rank]
    accepted := .inl rfl
    returned := .inr ⟨event, rfl, rfl⟩
    refused := rfl }

/-- **Every step keeps the invariant.** -/
theorem Move.inv (hmove : Move t g l l' g') (hinv : Inv g) (h : Asserts t l g)
    (hbound : g.pushes + g.pops < 2 ^ 63) : Inv g' := by
  cases hmove with
  | stay | turn | loadEnqueue | vacant | full | loadDequeue | ready | fetch => exact hinv
  | claim event pos hpos =>
    obtain ⟨rfl, hready⟩ := h.pushClaim hinv hpos hbound
    exact hinv.claim t event hready
  | store event pos k f left =>
    obtain ⟨rfl, hstage, -⟩ := h
    exact hinv.setEvent hstage _
  | publish event pos k =>
    obtain ⟨rfl, hstage, hcopied⟩ := h
    exact hinv.publish hstage hcopied.eq
  | refuse pos seen =>
    obtain ⟨hcap, hheld⟩ := h
    refine ⟨hinv.enqueuePos, hinv.dequeuePos, hinv.free_iff, hinv.gone_iff, hinv.ready, hinv.seq,
      hinv.event, hinv.accepted, hinv.accepted_once, hinv.returned, hinv.returned_once, ?_⟩
    intro pos' seen' hmem
    rcases List.mem_cons.1 hmem with heq | hmem
    · cases heq
      exact ⟨hcap, hheld⟩
    · exact hinv.refused pos' seen' hmem
  | take pos hpos =>
    obtain ⟨rfl, event, hpub⟩ := h.popClaim hinv hpos hbound
    exact hinv.take t hpub
  | release pos k got =>
    obtain ⟨rfl, event, hstage, hcopied⟩ := h
    rw [hcopied.eq]
    exact hinv.release hstage

theorem mem_writeOrder (f : EventWord) : f ∈ writeOrder := by
  cases f <;> decide

theorem mem_readOrder (f : EventWord) : f ∈ readOrder := by
  cases f <;> decide

/-- **Every step leaves the thread with its assertion.** -/
theorem Move.asserts (hmove : Move t g l l' g') (hinv : Inv g) (h : Asserts t l g)
    (hbound : g.pushes + g.pops < 2 ^ 63) : Asserts t l' g' := by
  have hpops := hinv.pops_le
  cases hmove with
  | stay => exact h
  | turn _ l' hhead => exact .of_atHead hhead
  | publish | refuse | release => exact trivial
  | loadEnqueue event => exact ⟨g.pushes, le_rfl, hinv.enqueuePos⟩
  | loadDequeue => exact ⟨g.pops, le_rfl, hinv.dequeuePos⟩
  | vacant event pos hdiff =>
    obtain ⟨k, hk, rfl⟩ := h
    rw [Memory.slots_ofNat] at hdiff
    exact ⟨k, hk, rfl, hinv.ready_of_seq hk (eq_of_diff hdiff)⟩
  | full event pos hdiff =>
    obtain ⟨k, hk, rfl⟩ := h
    rw [Memory.slots_ofNat] at hdiff
    have hheld := hinv.held_of_full hk hbound hdiff
    have htoNat : (BitVec.ofNat 64 k).toNat = k := by
      rw [BitVec.toNat_ofNat, Nat.mod_eq_of_lt (by omega)]
    show _ ≤ (BitVec.ofNat 64 k).toNat ∧ (g.stage ((BitVec.ofNat 64 k).toNat - _)).Held
    rw [htoNat]
    exact hheld
  | claim event pos hpos =>
    obtain ⟨rfl, -⟩ := h.pushClaim hinv hpos hbound
    exact ⟨rfl, update_self .., copied_of_forall mem_writeOrder⟩
  | store event pos k f left =>
    obtain ⟨rfl, hstage, hcopied⟩ := h
    refine ⟨rfl, hstage, ?_⟩
    rw [Memory.eventAt_setEvent, if_pos rfl, Memory.slots_ofNat]
    exact hcopied.copy
  | ready pos hdiff =>
    obtain ⟨k, hk, rfl⟩ := h
    rw [Memory.slots_ofNat, RequestQueue.ofNat_succ] at hdiff
    exact ⟨k, hk, rfl, hinv.published_of_seq hk (eq_of_diff hdiff)⟩
  | take pos hpos =>
    obtain ⟨rfl, event, hpub⟩ := h.popClaim hinv hpos hbound
    refine ⟨rfl, event, ?_, copied_of_forall mem_readOrder⟩
    show update g.stage g.pops ((g.stage g.pops).take t) g.pops = _
    rw [update_self, hpub, Stage.take]
  | fetch pos k f left got =>
    obtain ⟨rfl, event, hstage, hcopied⟩ := h
    refine ⟨rfl, event, hstage, ?_⟩
    have hevent := hinv.event k (.inr (by rw [hstage, Stage.rank]))
    rw [hstage, Stage.event, Option.some.injEq] at hevent
    rw [Memory.slots_ofNat, ← hevent]
    exact hcopied.copy

theorem Move.claims_le (hmove : Move t g l l' g') : g.pushes + g.pops ≤ g'.pushes + g'.pops := by
  cases hmove with
  | claim => exact Nat.add_le_add_right (Nat.le_succ _) _
  | take => exact Nat.add_le_add_left (Nat.le_succ _) _
  | stay | turn | loadEnqueue | vacant | full | loadDequeue | ready | fetch | store | publish |
    refuse | release => exact le_rfl

end

/-! ## Runs -/

theorem holds_new (bits : ℕ) (bits_pos : 0 < bits) (bits_lt : bits < 63) :
    Holds Inv Asserts (⟨fun _ => .idle, .new (.new bits bits_pos bits_lt)⟩ :
      Config T (Local T) (Memory T)) := by
  refine ⟨?_, fun _ => trivial⟩
  exact {
    enqueuePos := rfl
    dequeuePos := rfl
    free_iff := fun k => ⟨fun _ => Nat.zero_le k, fun _ => rfl⟩
    gone_iff := fun k => ⟨nofun, nofun⟩
    ready := fun k hk => absurd hk (lt_irrefl 0)
    seq := fun k hk _ => by
      rcases hk with hk | hk
      · rw [Memory.slotAt, Nat.mod_eq_of_lt hk]
        rfl
      · cases hk
    event := fun k hk => by rcases hk with hk | hk <;> cases hk
    accepted := nofun
    accepted_once := List.nodup_nil
    returned := nofun
    returned_once := List.nodup_nil
    refused := nofun }

theorem holds_step [DecidableEq T] (c : Config T (Local T) (Memory T)) (e : T × Input)
    (h : Holds Inv Asserts c)
    (hbound : (step next c e).shared.pushes + (step next c e).shared.pops < 2 ^ 63) :
    Holds Inv Asserts (step next c e) := by
  have hmove := next_move e.1 e.2 (c.locals e.1) c.shared
  have hown := h.thread e.1
  have hb := hmove.claims_le.trans_lt hbound
  exact h.step rfl (hmove.inv h.shared hown hb) (hmove.asserts h.shared hown hb)
    fun u hu hthread => hthread.rely (hmove.rely h.shared hown hu hb)

/-- **The queue loses and duplicates nothing.**  For any capacity, threads and interleaving with
    fewer than 2^63 claims: pushes are accepted once and their events returned by at most one
    pop; the pop with the `k`-th claim of `dequeue_pos` returns the event of the push with the
    `k`-th claim of `enqueue_pos`; and a push is refused only if the position `capacity` places
    before the one it tried was held when it read the slot. -/
theorem queue_exact [DecidableEq T] (bits : ℕ) (bits_pos : 0 < bits) (bits_lt : bits < 63)
    (schedule : List (T × Input))
    (hbound : (run next ⟨fun _ => .idle, .new (.new bits bits_pos bits_lt)⟩ schedule).shared.pushes +
      (run next ⟨fun _ => .idle, .new (.new bits bits_pos bits_lt)⟩ schedule).shared.pops < 2 ^ 63) :
    let g := (run next ⟨fun _ => .idle, .new (.new bits bits_pos bits_lt)⟩ schedule).shared
    (∀ k event, (k, event) ∈ g.accepted → (g.stage k).event = some event) ∧
    (g.accepted.map Prod.fst).Nodup ∧
    (∀ k event, (k, event) ∈ g.returned → (g.stage k).event = some event) ∧
    (g.returned.map Prod.fst).Nodup ∧
    ∀ pos seen, (pos, seen) ∈ g.refused →
      g.queue.capacity ≤ pos.toNat ∧ (seen (pos.toNat - g.queue.capacity)).Held := by
  intro g
  have hback : ∀ (c : Config T (Local T) (Memory T)) (e : T × Input),
      (step next c e).shared.pushes + (step next c e).shared.pops < 2 ^ 63 →
      c.shared.pushes + c.shared.pops < 2 ^ 63 := fun c e =>
    (next_move e.1 e.2 (c.locals e.1) c.shared).claims_le.trans_lt
  have halong := (along_of_final
    (B := fun c => Memory.pushes c.shared + Memory.pops c.shared < 2 ^ 63) hback hbound).2
  have h : Inv g := (halong.run holds_step (holds_new bits bits_pos bits_lt)).shared
  refine ⟨fun k event hk => (h.accepted k event hk).2, h.accepted_once, fun k event hk => ?_,
    h.returned_once, h.refused⟩
  rw [h.returned k event hk, Stage.event]

/-- Two slots: a producer stalls between its claim and its stores, the next one passes it, a
    third push finds the ring full, and the first pop waits for the stalled event. -/
theorem queue_exact_stall :
    let first : QueueEvent := ⟨1, 2, 3, 4, 5, 6⟩
    let second : QueueEvent := ⟨7, 8, 9, 10, 11, 12⟩
    let schedule : List (Bool × Input) :=
      (false, .push first) :: List.replicate 3 (false, .go) ++
        (true, .push second) :: List.replicate 12 (true, .go) ++
        (true, .push second) :: List.replicate 3 (true, .go) ++
        (true, .pop) :: List.replicate 2 (true, .go) ++
        List.replicate 9 (false, .go) ++
        (true, .pop) :: List.replicate 12 (true, .go)
    let g := (run next ⟨fun _ => .idle, .new (.new 1 (by decide) (by decide))⟩ schedule).shared
    g.accepted = [(0, first), (1, second)] ∧ g.returned = [(0, first)] ∧
      g.refused.map Prod.fst = [2] ∧ (g.stage 0).event = some first := by
  intro first second schedule g
  have haccepted : g.accepted = [(0, first), (1, second)] := by decide +kernel
  have hreturned : g.returned = [(0, first)] := by decide +kernel
  have hrefused : g.refused.map Prod.fst = [2] := by decide +kernel
  have hclaims : g.pushes + g.pops < 2 ^ 63 := by decide +kernel
  have hexact := queue_exact 1 (by decide) (by decide) schedule hclaims
  have hmem : (0, first) ∈ g.returned := by
    rw [hreturned]
    exact List.mem_singleton_self _
  exact ⟨haccepted, hreturned, hrefused, hexact.2.2.1 0 first hmem⟩

/-! ## One thread alone

A call during which no other thread steps is the call of `RequestQueue`. -/

section
variable {g : Memory T} {t : T} {event got : QueueEvent} {pos : BitVec 64} {k : ℕ}
  {left : List EventWord}

theorem setEvent_self (g : Memory T) (pos : BitVec 64) :
    g.setEvent pos (g.queue.slots (g.queue.slotOf pos)).event = g := by
  simp [Memory.setEvent, Memory.setSlot]

theorem setEvent_setEvent (g : Memory T) (pos : BitVec 64) (event event' : QueueEvent) :
    (g.setEvent pos event).setEvent pos event' = g.setEvent pos event' := by
  simp only [Memory.setEvent, Memory.setSlot, RequestQueue.slotOf, RequestQueue.capacityMask,
    RequestQueue.capacity, update_self, update_idem]

/-- The claim, the stores and the publication together. -/
theorem publish_queue (t : T) (g : Memory T) (event : QueueEvent) :
    (((g.claim t event g.queue.enqueuePos).setEvent g.queue.enqueuePos event).publish event
      g.queue.enqueuePos g.pushes).queue = g.queue.enqueued event := by
  simp only [Memory.publish, Memory.setStage, Memory.setSeq, Memory.setSlot, Memory.setEvent,
    Memory.claim, RequestQueue.enqueued, RequestQueue.slotOf, RequestQueue.capacityMask,
    RequestQueue.capacity, update_self, update_idem]

theorem solo_writing (h : Copied left event (g.queue.slots (g.queue.slotOf pos)).event) :
    Solo next t (.writing event pos k left, g) (.writing event pos k [], g.setEvent pos event) := by
  induction left generalizing g with
  | nil =>
    rw [← h.eq, setEvent_self]
    exact .refl
  | cons f left ih =>
    refine .head .go ?_
    rw [← setEvent_setEvent g pos (event.copy f _) event]
    refine ih ?_
    show Copied left event
      (update g.queue.slots (g.queue.slotOf pos) _ (g.queue.slotOf pos)).event
    rw [update_self]
    exact h.copy

theorem solo_reading (h : Copied left (g.queue.slots (g.queue.slotOf pos)).event got) :
    Solo next t (.reading pos k left got, g)
      (.reading pos k [] (g.queue.slots (g.queue.slotOf pos)).event, g) := by
  induction left generalizing got with
  | nil =>
    rw [← h.eq]
    exact .refl
  | cons f left ih => exact .head .go (ih h.copy)

theorem solo_push (t : T) {q : RequestQueue} {result : RequestQueue.PushResult}
    (h : g.queue.push event = some (q, result)) :
    ∃ g', Solo next t (.idle, g) (.idle, g') ∧ g'.queue = q ∧
      g'.accepted = if result = .ok then (g.pushes, event) :: g.accepted else g.accepted := by
  unfold RequestQueue.push at h
  dsimp only at h
  split_ifs at h with hzero hneg
  · cases h
    have hclaim : Solo next t (.pushSeq event g.queue.enqueuePos, g)
        (.writing event g.queue.enqueuePos g.pushes writeOrder,
          g.claim t event g.queue.enqueuePos) := by
      refine .head .go ?_
      rw [next, if_pos hzero]
      refine .head .go ?_
      rw [next, if_pos rfl]
      exact .refl
    refine ⟨_, .head (.push event) (.head .go (hclaim.trans
      ((solo_writing (copied_of_forall mem_writeOrder)).trans (.head .go .refl)))), ?_, rfl⟩
    exact publish_queue t g event
  · cases h
    refine ⟨g.refuse g.queue.enqueuePos g.stage, .head (.push event) (.head .go (.head .go ?_)),
      rfl, rfl⟩
    rw [next, if_neg hzero, if_pos hneg]
    exact .head .go .refl

theorem solo_pop (t : T) {q : RequestQueue} {result : Option QueueEvent}
    (h : g.queue.pop = some (q, result)) :
    ∃ g', Solo next t (.idle, g) (.idle, g') ∧ g'.queue = q ∧
      g'.returned = (result.map (g.pops, ·)).toList ++ g.returned := by
  unfold RequestQueue.pop at h
  dsimp only at h
  split_ifs at h with hzero hneg
  · cases h
    have hclaim : Solo next t (.popSeq g.queue.dequeuePos, g)
        (.reading g.queue.dequeuePos g.pops readOrder blank, g.take t g.queue.dequeuePos) := by
      refine .head .go ?_
      rw [next, if_pos hzero]
      refine .head .go ?_
      rw [next, if_pos rfl]
      exact .refl
    exact ⟨_, .head .pop (.head .go (hclaim.trans
      ((solo_reading (copied_of_forall mem_readOrder)).trans (.head .go .refl)))), rfl, rfl⟩
  · cases h
    refine ⟨g, .head .pop (.head .go (.head .go ?_)), rfl, rfl⟩
    rw [next, if_neg hzero, if_pos hneg]
    exact .refl

variable [DecidableEq T] {c : Config T (Local T) (Memory T)} {q : RequestQueue}

/-- **A push alone** is `RequestQueue.push`. -/
theorem push_alone {result : RequestQueue.PushResult} (ht : c.locals t = .idle)
    (h : c.shared.queue.push event = some (q, result)) :
    ∃ (inputs : List Input) (g' : Memory T),
      run next c (inputs.map (t, ·)) = ⟨c.locals, g'⟩ ∧ g'.queue = q ∧
      g'.accepted = if result = .ok then (c.shared.pushes, event) :: c.shared.accepted
        else c.shared.accepted := by
  obtain ⟨g', hsolo, hqueue, haccepted⟩ := solo_push t h
  obtain ⟨inputs, hrun⟩ := hsolo.exists_run_of_locals ht
  exact ⟨inputs, g', hrun, hqueue, haccepted⟩

/-- **A pop alone** is `RequestQueue.pop`. -/
theorem pop_alone {result : Option QueueEvent} (ht : c.locals t = .idle)
    (h : c.shared.queue.pop = some (q, result)) :
    ∃ (inputs : List Input) (g' : Memory T),
      run next c (inputs.map (t, ·)) = ⟨c.locals, g'⟩ ∧ g'.queue = q ∧
      g'.returned = (result.map (c.shared.pops, ·)).toList ++ c.shared.returned := by
  obtain ⟨g', hsolo, hqueue, hreturned⟩ := solo_pop t h
  obtain ⟨inputs, hrun⟩ := hsolo.exists_run_of_locals ht
  exact ⟨inputs, g', hrun, hqueue, hreturned⟩

end

end Ring

end Nginx

end Gabion
