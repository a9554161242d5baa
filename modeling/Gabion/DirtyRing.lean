/-
  Dirty rings (`crdt/dirty_ring.rs`) and peer frontiers (`crdt/peer_frontier.rs`).

  A ring keeps the last `capacity` changes of a lane and is never drained; a frontier row
  holds, for one peer, the highest acknowledged sequence of every origin.
-/
import Gabion.Types

namespace Gabion

open Function

/-! ## Dirty rings -/

structure DirtyEntry where
  handle : CellHandle
  originSequence : ℕ
deriving DecidableEq, Repr

structure DirtyRing where
  entries : ℕ → DirtyEntry
  size : ℕ
  head : ℕ
  len : ℕ
  overflowSeq : ℕ

namespace DirtyRing

def withCapacity (capacity : ℕ) : DirtyRing where
  entries := fun _ => { handle := { index := 0, generation := 0 }, originSequence := 0 }
  size := capacity
  head := 0
  len := 0
  overflowSeq := 0

/-- `entries.len() as u32`. -/
def capacity (r : DirtyRing) : ℕ := r.size % 2 ^ 32

def push (r : DirtyRing) (entry : DirtyEntry) : DirtyRing :=
  if r.capacity = 0 then { r with overflowSeq := min (r.overflowSeq + 1) u64Max }
  else
    let r :=
      if r.len = r.capacity then { r with overflowSeq := min (r.overflowSeq + 1) u64Max }
      else { r with len := r.len + 1 }
    { r with
      entries := update r.entries r.head entry
      head := (r.head + 1) % 2 ^ 32 % r.capacity }

def start (r : DirtyRing) : ℕ := if r.len = r.capacity then r.head else 0

/-- `ring_entry_at`, with the 32-bit sum of the source. -/
def entryAt (r : DirtyRing) (offset : ℕ) : DirtyEntry :=
  r.entries ((r.start + offset) % 2 ^ 32 % r.capacity)

/-- The entries in the order the lanes walk them, oldest first. -/
def toList (r : DirtyRing) : List DirtyEntry := (List.range r.len).map r.entryAt

/-- `iter`, with the 32-bit sum of the source. -/
def iter (r : DirtyRing) : List DirtyEntry :=
  let cap := r.capacity
  let start := if r.len = cap then r.head else 0
  (List.range r.len).map fun offset => r.entries ((start + offset) % 2 ^ 32 % cap)

def clear (r : DirtyRing) : DirtyRing := { r with head := 0, len := 0, overflowSeq := 0 }

/-- Every entry the ring holds satisfies `P`. -/
structure All (P : DirtyEntry → Prop) (r : DirtyRing) : Prop where
  len_le : r.len ≤ r.capacity
  head_eq : r.len < r.capacity → r.head = r.len
  head_lt : 0 < r.capacity → r.head < r.capacity
  entries : ∀ i < r.len, P (r.entries i)

variable {P Q : DirtyEntry → Prop} {r : DirtyRing}

theorem all_withCapacity (c : ℕ) : All P (withCapacity c) :=
  ⟨Nat.zero_le _, fun _ => rfl, id, fun _ h => absurd h (Nat.not_lt_zero _)⟩

theorem all_clear (r : DirtyRing) : All P r.clear :=
  ⟨Nat.zero_le _, fun _ => rfl, id, fun _ h => absurd h (Nat.not_lt_zero _)⟩

theorem capacity_lt (r : DirtyRing) : r.capacity < 2 ^ 32 := Nat.mod_lt _ (by norm_num)

theorem All.push (h : All P r) {e : DirtyEntry} (he : P e) : All P (r.push e) := by
  have hc := r.capacity_lt
  unfold DirtyRing.push
  split_ifs with h0 h1
  · exact ⟨h.len_le, h.head_eq, h.head_lt, h.entries⟩
  · -- the ring is full: the oldest entry is overwritten
    refine ⟨h.len_le, fun hl => absurd h1 (ne_of_lt hl), fun hp => Nat.mod_lt _ hp,
      fun i hi => ?_⟩
    by_cases hi' : i = r.head
    · simp [hi', he]
    · simpa [hi'] using h.entries i hi
  · have hlt : r.len < r.capacity := lt_of_le_of_ne h.len_le h1
    have hh := h.head_eq hlt
    refine ⟨hlt, fun hl => ?_, fun hp => Nat.mod_lt _ hp, fun i hi => ?_⟩
    · have hl : r.len + 1 < r.capacity := hl
      show (r.head + 1) % 2 ^ 32 % r.capacity = r.len + 1
      rw [hh, Nat.mod_eq_of_lt (a := r.len + 1) (by omega), Nat.mod_eq_of_lt hl]
    · have hi : i < r.len + 1 := hi
      by_cases hi' : i = r.head
      · simp [hi', he]
      · simpa [hi'] using h.entries i (by omega)

theorem All.entryAt (h : All P r) {k : ℕ} (hk : k < r.len) : P (r.entryAt k) := by
  have hc := r.capacity_lt
  have hle := h.len_le
  refine h.entries _ ?_
  unfold start
  split_ifs with h1
  · exact h1 ▸ Nat.mod_lt _ (by omega)
  · rw [zero_add, Nat.mod_eq_of_lt (a := k) (by omega), Nat.mod_eq_of_lt (by omega)]
    exact hk

theorem All.mem_toList (h : All P r) {e : DirtyEntry} (he : e ∈ r.toList) : P e := by
  obtain ⟨k, hk, rfl⟩ := List.mem_map.1 he
  exact h.entryAt (List.mem_range.1 hk)

end DirtyRing

/-! ## Peer frontiers -/

structure PeerFrontierTable where
  peerIds : ℕ → Option NodeId
  lastAckedSeq : ℕ → ℕ
  lastSentSeq : ℕ → ℕ
  peerCapacity : ℕ
  nodeCapacity : ℕ
  fullRejects : ℕ

namespace PeerFrontierTable

def new (peerCapacity nodeCapacity : ℕ) : PeerFrontierTable where
  peerIds := fun _ => none
  lastAckedSeq := fun _ => 0
  lastSentSeq := fun _ => 0
  peerCapacity := peerCapacity
  nodeCapacity := nodeCapacity
  fullRejects := 0

def findPeer (t : PeerFrontierTable) (peer : NodeId) : Option ℕ :=
  (List.range t.peerCapacity).find? fun i => t.peerIds i == some peer

def internPeer (t : PeerFrontierTable) (peer : NodeId) : PeerFrontierTable × Option ℕ :=
  match t.findPeer peer with
  | some slot => (t, some slot)
  | none =>
    match (List.range t.peerCapacity).find? fun i => (t.peerIds i).isNone with
    | some i => ({ t with peerIds := update t.peerIds i (some peer) }, some i)
    | none => ({ t with fullRejects := min (t.fullRejects + 1) u64Max }, none)

/-- Write `0` to the sequences at `base, ..., base + n - 1`. -/
def zeroFrom (f : ℕ → ℕ) (base n : ℕ) : ℕ → ℕ := fun i => if base ≤ i ∧ i < base + n then 0 else f i

def removePeer (t : PeerFrontierTable) (peer : NodeId) : PeerFrontierTable :=
  match t.findPeer peer with
  | none => t
  | some slot =>
    { t with
      peerIds := update t.peerIds slot none
      lastAckedSeq := zeroFrom t.lastAckedSeq (slot * t.nodeCapacity) t.nodeCapacity
      lastSentSeq := zeroFrom t.lastSentSeq (slot * t.nodeCapacity) t.nodeCapacity }

def flatIndex (t : PeerFrontierTable) (peerSlot nodeSlot : ℕ) : ℕ :=
  peerSlot * t.nodeCapacity + nodeSlot

def lastAcked (t : PeerFrontierTable) (peerSlot nodeSlot : ℕ) : ℕ :=
  t.lastAckedSeq (t.flatIndex peerSlot nodeSlot)

def lastSent (t : PeerFrontierTable) (peerSlot nodeSlot : ℕ) : ℕ :=
  t.lastSentSeq (t.flatIndex peerSlot nodeSlot)

/-- The two `record_*` methods raise one entry to `sequence`. -/
def raise (f : ℕ → ℕ) (i sequence : ℕ) : ℕ → ℕ := if f i < sequence then update f i sequence else f

def recordSent (t : PeerFrontierTable) (peerSlot nodeSlot sequence : ℕ) : PeerFrontierTable :=
  { t with lastSentSeq := raise t.lastSentSeq (t.flatIndex peerSlot nodeSlot) sequence }

def recordAcked (t : PeerFrontierTable) (peerSlot nodeSlot sequence : ℕ) : PeerFrontierTable :=
  { t with lastAckedSeq := raise t.lastAckedSeq (t.flatIndex peerSlot nodeSlot) sequence }

def clearNodeSlot (t : PeerFrontierTable) (nodeSlot : ℕ) : PeerFrontierTable :=
  (List.range t.peerCapacity).foldl
    (fun t peerSlot =>
      { t with
        lastAckedSeq := update t.lastAckedSeq (t.flatIndex peerSlot nodeSlot) 0
        lastSentSeq := update t.lastSentSeq (t.flatIndex peerSlot nodeSlot) 0 }) t

end PeerFrontierTable

end Gabion
