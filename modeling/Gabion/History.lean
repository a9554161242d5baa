/-
  The history of a store.

  Generations come round after `2 ^ 31` lifetimes of a slot, rings keep their last entries
  only, and node slots are handed on from one origin to the next.  `History` keeps what is
  lost: the number of lifetimes of every cell slot, and everything pushed on the rings with
  the lifetime it was pushed in.

  `Change` says once what a step can do to the columns that carry sequences.  From it follow
  what an origin's slot holds when it is free (`Recycled`) and what the entries on the rings
  say about the cells (`Recorded`).
-/
import Gabion.FrameOrder

namespace Gabion

open Function

variable {w : CountWidth}

/-- A dirty entry, with the lifetime of its cell slot it was pushed in. -/
structure Push where
  entry : DirtyEntry
  lifetime : ℕ

structure History where
  /-- how many lifetimes each cell slot has begun -/
  lifetimes : ℕ → ℕ
  /-- the pushes since the rings were last cleared, oldest first -/
  localPushes : List Push
  forwardedPushes : List Push

namespace CellStore

/-- The dirty entry of a row: `push_dirty` is reached when the row has changed a cell. -/
def rowEntry (s' : CellStore w) : RowResult → Option DirtyEntry
  | .ok o => if o.changed then some ⟨o.handle, (s'.cells o.handle.index).originSequence⟩ else none
  | .error _ => none

/-- The dirty entry a step pushes. -/
def stepEntry (s : CellStore w) : StoreStep w → Option DirtyEntry
  | .ingestRow obs => rowEntry (s.ingestRow obs []).1 (s.ingestRow obs []).2.2
  | .mergeRow obs => rowEntry (s.mergeRow obs []).1 (s.mergeRow obs []).2.2
  | _ => none

end CellStore

namespace History

def empty : History := { lifetimes := fun _ => 0, localPushes := [], forwardedPushes := [] }

def pushes (h : History) : List Push := h.localPushes ++ h.forwardedPushes

/-- A slot that was free and is active has begun a new lifetime. -/
def lifetimesAfter (h : History) (s s' : CellStore w) (x : ℕ) : ℕ :=
  if s.isActive x = false ∧ s'.isActive x = true then h.lifetimes x + 1 else h.lifetimes x

/-- The history after a step from `s` to `s'` that pushes `entry`. -/
def note (h : History) (s s' : CellStore w) : Option DirtyEntry → History
  | none => { h with lifetimes := h.lifetimesAfter s s' }
  | some e =>
    let lifetimes := h.lifetimesAfter s s'
    let push := { entry := e, lifetime := lifetimes e.handle.index }
    if (s'.cells e.handle.index).key.origin = s'.localNodeSlot then
      { h with lifetimes, localPushes := h.localPushes ++ [push] }
    else { h with lifetimes, forwardedPushes := h.forwardedPushes ++ [push] }

def after (h : History) (s : CellStore w) : StoreStep w → History
  | .clearDirty => { h with localPushes := [], forwardedPushes := [] }
  | st => h.note s (s.step st) (s.stepEntry st)

def afterSteps (h : History) (s : CellStore w) : List (StoreStep w) → History
  | [] => h
  | st :: steps => (h.after s st).afterSteps (s.step st) steps

/-- The pushes that are still on a ring of `capacity` places. -/
def recent (capacity : ℕ) (log : List Push) : List Push := log.drop (log.length - capacity)

/-- What is on the two rings of a store. -/
def onRings (h : History) (s : CellStore w) : List Push :=
  recent s.localDirty.capacity h.localPushes ++ recent s.forwardedDirty.capacity h.forwardedPushes

variable {h : History} {s s' : CellStore w}

theorem note_lifetimes (h : History) (s s' : CellStore w) (e : Option DirtyEntry) :
    (h.note s s' e).lifetimes = h.lifetimesAfter s s' := by
  cases e with
  | none => rfl
  | some e =>
    simp only [note]
    split_ifs <;> rfl

theorem note_local {e : DirtyEntry}
    (ho : (s'.cells e.handle.index).key.origin = s'.localNodeSlot) :
    (h.note s s' (some e)).localPushes =
      h.localPushes ++ [⟨e, h.lifetimesAfter s s' e.handle.index⟩] := by
  simp only [note]
  rw [if_pos ho]

theorem mem_pushes_note {e : DirtyEntry} {p : Push} : p ∈ (h.note s s' (some e)).pushes ↔
    p ∈ h.pushes ∨ p = ⟨e, h.lifetimesAfter s s' e.handle.index⟩ := by
  simp only [note, pushes]
  split_ifs
  · simp only [List.mem_append, List.mem_singleton]
    tauto
  · simp only [List.mem_append, List.mem_singleton]
    tauto

theorem countP_pushes_note (e : DirtyEntry) (q : Push → Bool) :
    (h.note s s' (some e)).pushes.countP q =
      h.pushes.countP q + if q ⟨e, h.lifetimesAfter s s' e.handle.index⟩ then 1 else 0 := by
  simp only [note, pushes]
  split_ifs <;> simp [*, List.countP_append] <;> omega

end History

/-! ## Frontier columns -/

namespace PeerFrontierTable

variable {t : PeerFrontierTable}

/-- Nothing is known of what a peer holds of the node slot. -/
def Forgets (t : PeerFrontierTable) (nodeSlot : ℕ) : Prop :=
  ∀ p < t.peerCapacity, t.lastAcked p nodeSlot = 0 ∧ t.lastSent p nodeSlot = 0

/-- What `clear_node_slot` has done after some peer slots: nothing but zeros is written. -/
theorem clearNodeSlot_loop (ps : List ℕ) (t : PeerFrontierTable) (o : ℕ) :
    let t' := ps.foldl (fun t peerSlot => { t with
      lastAckedSeq := update t.lastAckedSeq (t.flatIndex peerSlot o) 0
      lastSentSeq := update t.lastSentSeq (t.flatIndex peerSlot o) 0 }) t
    (t'.nodeCapacity = t.nodeCapacity ∧ t'.peerCapacity = t.peerCapacity) ∧
      (∀ i, t.lastAckedSeq i = 0 → t'.lastAckedSeq i = 0) ∧
      (∀ i, t.lastSentSeq i = 0 → t'.lastSentSeq i = 0) ∧
      ∀ p ∈ ps, t'.lastAckedSeq (t.flatIndex p o) = 0 ∧ t'.lastSentSeq (t.flatIndex p o) = 0 := by
  induction ps generalizing t with
  | nil => simp
  | cons q ps ih =>
    obtain ⟨hsize, hacked, hsent, hall⟩ := ih { t with
      lastAckedSeq := update t.lastAckedSeq (t.flatIndex q o) 0
      lastSentSeq := update t.lastSentSeq (t.flatIndex q o) 0 }
    have hzero : ∀ (f : ℕ → ℕ) j i, f i = 0 → update f j 0 i = 0 := fun f j i hi => by
      rw [update_apply]
      split_ifs <;> simp [hi]
    refine ⟨hsize, fun i hi => hacked i (hzero _ _ i hi), fun i hi => hsent i (hzero _ _ i hi), ?_⟩
    intro p hp
    rcases List.mem_cons.1 hp with rfl | hp
    · exact ⟨hacked _ (update_self ..), hsent _ (update_self ..)⟩
    · exact hall p hp

theorem clearNodeSlot_spec (t : PeerFrontierTable) (o : ℕ) :
    (t.clearNodeSlot o).nodeCapacity = t.nodeCapacity ∧ (t.clearNodeSlot o).Forgets o ∧
      ∀ o', t.Forgets o' → (t.clearNodeSlot o).Forgets o' := by
  obtain ⟨⟨hnode, hpeer⟩, hacked, hsent, hall⟩ := clearNodeSlot_loop (List.range t.peerCapacity) t o
  have hflat : ∀ p n, (t.clearNodeSlot o).flatIndex p n = t.flatIndex p n := fun p n => by
    rw [flatIndex, flatIndex]
    exact congrArg (fun c => p * c + n) hnode
  refine ⟨hnode, fun p hp => ?_, fun o' ho p hp => ?_⟩
  · rw [lastAcked, lastSent, hflat]
    exact hall p (List.mem_range.2 (lt_of_lt_of_eq hp hpeer))
  · rw [lastAcked, lastSent, hflat]
    obtain ⟨ha, hs⟩ := ho p (lt_of_lt_of_eq hp hpeer)
    exact ⟨hacked _ ha, hsent _ hs⟩

end PeerFrontierTable

namespace CellStore

variable {pins : ℕ → Bool} {s s' s₁ : CellStore w} {x : ℕ}

/-! ## What a step can do -/

/-- A step that leaves cells, counters and rings alone.  Node slots may be taken, and of the
    frontiers only columns of node slots in use are raised. -/
structure Still (s s' : CellStore w) : Prop where
  cells : s'.cells = s.cells
  generations : s'.generations = s.generations
  localNodeSlot : s'.localNodeSlot = s.localNodeSlot
  counters : s'.nextSequenceByOrigin = s.nextSequenceByOrigin
  localDirty : s'.localDirty = s.localDirty
  forwardedDirty : s'.forwardedDirty = s.forwardedDirty
  nodes : ∀ o, s.nodeDictionary.Live o → s'.nodeDictionary.Live o
  nodeCapacity : s'.nodeDictionary.capacity = s.nodeDictionary.capacity
  frontierSize : s'.peerFrontiers.nodeCapacity = s.peerFrontiers.nodeCapacity
  forgets : ∀ o < s.peerFrontiers.nodeCapacity, ¬ s'.nodeDictionary.Live o →
    s.peerFrontiers.Forgets o → s'.peerFrontiers.Forgets o

/-- A step that changes the cell in `x`, or places one there, and announces it. -/
structure Announced (s s' : CellStore w) (x : ℕ) : Prop where
  cells : ∀ y, y ≠ x → s'.cells y = s.cells y
  generations : ∀ y, y ≠ x → s'.generations y = s.generations y
  active : s'.isActive x = true
  lifetime : s'.generations x = s.generations x ∧ (s'.cells x).key = (s.cells x).key ∨
    s.isActive x = false ∧ s'.generations x = (s.generations x + 1) % 2 ^ 32
  sequence : (s'.cells x).originSequence = s.nextSequence (s'.cells x).key.origin
  counters : s'.nextSequenceByOrigin = update s.nextSequenceByOrigin (s'.cells x).key.origin
    (s.nextSequence (s'.cells x).key.origin)
  localDirty : s'.localDirty = if (s'.cells x).key.origin = s'.localNodeSlot then
    s.localDirty.push ⟨s'.handleFor x, (s'.cells x).originSequence⟩ else s.localDirty
  forwardedDirty : s'.forwardedDirty = if (s'.cells x).key.origin = s'.localNodeSlot then
    s.forwardedDirty else s.forwardedDirty.push ⟨s'.handleFor x, (s'.cells x).originSequence⟩
  nodes : ∀ o, s.nodeDictionary.Live o → s'.nodeDictionary.Live o
  nodeCapacity : s'.nodeDictionary.capacity = s.nodeDictionary.capacity
  frontiers : s'.peerFrontiers = s.peerFrontiers

/-- A step that frees the cell in `x`, and its node slot with the last cell of the origin. -/
structure Freed (s s' : CellStore w) (x : ℕ) : Prop where
  active : s.isActive x = true
  inactive : s'.isActive x = false
  cells : s'.cells = s.cells
  generations : s'.generations = update s.generations x ((s.generations x + 1) % 2 ^ 32)
  localDirty : s'.localDirty = s.localDirty
  forwardedDirty : s'.forwardedDirty = s.forwardedDirty
  nodeCapacity : s'.nodeDictionary.capacity = s.nodeDictionary.capacity
  node : (∀ o, s'.nodeDictionary.Live o ↔ s.nodeDictionary.Live o) ∧
      s'.nextSequenceByOrigin = s.nextSequenceByOrigin ∧ s'.peerFrontiers = s.peerFrontiers ∨
    (∀ o, s'.nodeDictionary.Live o ↔ s.nodeDictionary.Live o ∧ o ≠ (s.cells x).key.origin) ∧
      s'.nextSequenceByOrigin = update s.nextSequenceByOrigin (s.cells x).key.origin 0 ∧
      s'.peerFrontiers = s.peerFrontiers.clearNodeSlot (s.cells x).key.origin

/-- **What a step can do**, with the dirty entry it pushes. -/
inductive Change (s s' : CellStore w) : Option DirtyEntry → Prop
  | still : Still s s' → Change s s' none
  | announced (x : ℕ) : Announced s s' x →
      Change s s' (some ⟨s'.handleFor x, (s'.cells x).originSequence⟩)
  | freed (x : ℕ) : Freed s s' x → Change s s' none

theorem Still.of_frontiers (hc : s'.cells = s.cells) (hg : s'.generations = s.generations)
    (hs : s'.localNodeSlot = s.localNodeSlot) (hn : s'.nextSequenceByOrigin = s.nextSequenceByOrigin)
    (hl : s'.localDirty = s.localDirty) (hf : s'.forwardedDirty = s.forwardedDirty)
    (ho : ∀ o, s.nodeDictionary.Live o → s'.nodeDictionary.Live o)
    (hcap : s'.nodeDictionary.capacity = s.nodeDictionary.capacity)
    (hp : s'.peerFrontiers = s.peerFrontiers) : Still s s' :=
  ⟨hc, hg, hs, hn, hl, hf, ho, hcap, by rw [hp], fun _ _ _ h => by rw [hp]; exact h⟩

theorem Still.refl (s : CellStore w) : Still s s :=
  .of_frontiers rfl rfl rfl rfl rfl rfl (fun _ => id) rfl rfl

theorem Still.trans (h : Still s s₁) (h' : Still s₁ s') : Still s s' :=
  ⟨h'.cells.trans h.cells, h'.generations.trans h.generations,
    h'.localNodeSlot.trans h.localNodeSlot, h'.counters.trans h.counters,
    h'.localDirty.trans h.localDirty, h'.forwardedDirty.trans h.forwardedDirty,
    fun o ho => h'.nodes o (h.nodes o ho), h'.nodeCapacity.trans h.nodeCapacity,
    h'.frontierSize.trans h.frontierSize, fun o ho hn hz =>
      h'.forgets o (by rw [h.frontierSize]; exact ho) hn
        (h.forgets o ho (fun hl => hn (h'.nodes o hl)) hz)⟩

theorem SameData.still (h : SameData s s') : Still s s' :=
  .of_frontiers (by rw [h.table]) (by rw [h.table]) (by rw [h.table]) h.nextSequenceByOrigin
    h.localDirty h.forwardedDirty (fun _ ho => by rw [h.table]; exact ho) (by rw [h.table])
    h.peerFrontiers

theorem Still.isActive (h : Still s s') (x : ℕ) : s'.isActive x = s.isActive x := by
  rw [CellTable.isActive, CellTable.isActive, h.generations]

/-- An interned identity and then a change. -/
theorem Announced.of_still (h : Still s s₁) (hp : s₁.peerFrontiers = s.peerFrontiers)
    (ha : Announced s₁ s' x) : Announced s s' x := by
  have hnext : ∀ o, s₁.nextSequence o = s.nextSequence o := fun o => by
    rw [nextSequence, nextSequence, h.counters]
  refine ⟨fun y hy => ?_, fun y hy => ?_, ha.active, ?_, ?_, ?_, ?_, ?_,
    fun o ho => ha.nodes o (h.nodes o ho), ha.nodeCapacity.trans h.nodeCapacity,
    ha.frontiers.trans hp⟩
  · rw [ha.cells y hy, h.cells]
  · rw [ha.generations y hy, h.generations]
  · have hl := ha.lifetime
    rwa [h.isActive, h.generations, h.cells] at hl
  · rw [ha.sequence, hnext]
  · rw [ha.counters, hnext, h.counters]
  · rw [ha.localDirty, h.localDirty]
  · rw [ha.forwardedDirty, h.forwardedDirty]

/-! ### Rows -/

theorem translateRule_still {fp : Fingerprint} {r : Option ℕ} (he : s.translateRule fp = (s', r)) :
    Still s s' ∧ s'.peerFrontiers = s.peerFrontiers := by
  have hrules : ∀ d, Still s { s with ruleDictionary := d } := fun d =>
    .of_frontiers rfl rfl rfl rfl rfl rfl (fun _ => id) rfl rfl
  rcases translateRule_cases s fp with ⟨r, -, h⟩ | ⟨-, r, -, h⟩ | ⟨-, -, h⟩
  · obtain ⟨rfl, -⟩ := Prod.mk.inj (he.symm.trans h)
    exact ⟨.refl _, rfl⟩
  · obtain ⟨rfl, -⟩ := Prod.mk.inj (he.symm.trans h)
    exact ⟨hrules _, rfl⟩
  · obtain ⟨rfl, -⟩ := Prod.mk.inj (he.symm.trans h)
    exact ⟨.of_frontiers rfl rfl rfl rfl rfl rfl (fun _ => id) rfl rfl, rfl⟩

theorem internNode_still (h : s.toCellTable.Inv pins) {id : NodeIdentity} {o : Option ℕ}
    (he : s.internNode id = (s', o)) : Still s s' ∧ s'.peerFrontiers = s.peerFrontiers := by
  have hnodes := (internNode_grows h id).nodes
  rw [he] at hnodes
  have hlive : ∀ o, s.nodeDictionary.Live o → s'.nodeDictionary.Live o := fun o ho =>
    (hnodes o ho).1
  rcases internNode_cases s id with ⟨o, -, h⟩ | ⟨-, o, -, h⟩ | ⟨-, -, h⟩
  · obtain ⟨rfl, -⟩ := Prod.mk.inj (he.symm.trans h)
    exact ⟨.refl _, rfl⟩
  · obtain ⟨rfl, -⟩ := Prod.mk.inj (he.symm.trans h)
    exact ⟨.of_frontiers rfl rfl rfl rfl rfl rfl hlive rfl rfl, rfl⟩
  · obtain ⟨rfl, -⟩ := Prod.mk.inj (he.symm.trans h)
    exact ⟨.of_frontiers rfl rfl rfl rfl rfl rfl hlive rfl rfl, rfl⟩

/-- `announced` over a table that differs from that of `s` in slot `x`. -/
theorem announced_change {t : CellTable w} {o : ℕ}
    (hcells : ∀ y, y ≠ x → t.cells y = s.cells y)
    (hgen : ∀ y, y ≠ x → t.generations y = s.generations y) (hx : t.isActive x = true)
    (hlife : t.generations x = s.generations x ∧ (t.cells x).key = (s.cells x).key ∨
      s.isActive x = false ∧ t.generations x = (s.generations x + 1) % 2 ^ 32)
    (ho : (t.cells x).key.origin = o) (hseq : (t.cells x).originSequence = s.nextSequence o)
    (hnodes : ∀ n, s.nodeDictionary.Live n → t.nodeDictionary.Live n)
    (hcap : t.nodeDictionary.capacity = s.nodeDictionary.capacity) :
    Announced s (s.announced t o x) x := by
  have ht := announced_toCellTable s t o x
  refine ⟨?_, ?_, ?_, ?_, ?_, ?_, ?_, ?_, ?_, ?_, announced_peerFrontiers s t o x⟩
  · rw [ht]; exact hcells
  · rw [ht]; exact hgen
  · rw [ht]; exact hx
  · rw [ht]; exact hlife
  · rw [ht, ho]; exact hseq
  · rw [ht, ho]; exact announced_nextSequenceByOrigin s t o x
  · rw [announced_localDirty, ht, ho, hseq]
  · rw [announced_forwardedDirty, ht, ho, hseq]
  · rw [ht]; exact hnodes
  · rw [ht]; exact hcap

/-- A row changes one cell and announces it, or changes none. -/
def RowChange (s s' : CellStore w) (res : RowResult) : Prop :=
  rowEntry s' res = none ∧ Still s s' ∨
    ∃ x, rowEntry s' res = some ⟨s'.handleFor x, (s'.cells x).originSequence⟩ ∧ Announced s s' x

theorem Upserted.change {key : CompactCellKey} {res : RowResult} (h : s.toCellTable.Inv pins)
    (hu : Upserted s key s' res) : RowChange s s' res := by
  cases hu with
  | full => exact .inl ⟨rfl, .of_frontiers rfl rfl rfl rfl rfl rfl (fun _ => id) rfl rfl⟩
  | same x hx => exact .inl ⟨rfl, .refl _⟩
  | raised x c delta hx hk hc hseq =>
    have hcell : (s.toCellTable.setCell x c).cells x = c := update_self ..
    refine .inr ⟨x, ?_, announced_change (fun y hy => update_of_ne hy _ _) (fun _ _ => rfl) hx
      (.inl ⟨rfl, by rw [hcell, hc, hk]⟩) (by rw [hcell, hc]) (by rw [hcell, hseq]) (fun _ => id) rfl⟩
    rw [announced_toCellTable]
    simp only [rowEntry, if_true, announced_toCellTable]
    rfl
  | placed x c delta hh hk hc hseq =>
    have hn := Bool.eq_false_iff.2 (hh ▸ h.slab).head_spec.2
    have hcell : (s.toCellTable.place x c).cells x = c := update_self ..
    refine .inr ⟨x, ?_, announced_change (fun y hy => update_of_ne hy _ _)
      (fun y hy => update_of_ne hy _ _) (by simp [CellTable.isActive_place, hn])
      (.inr ⟨hn, update_self ..⟩) (by rw [hcell, hc]) (by rw [hcell, hseq]) (fun _ => id) rfl⟩
    rw [announced_toCellTable]
    simp only [rowEntry, if_true, announced_toCellTable]
    rfl

theorem RowRun.change {fp : Fingerprint} {id : NodeIdentity} {res : RowResult}
    (h : s.toCellTable.Inv pins) (hr : RowRun s fp id s' res) : RowChange s s' res := by
  cases hr with
  | ruleFull ht => exact .inl ⟨rfl, (translateRule_still ht).1⟩
  | nodeFull ht hn =>
    have hg := (translateRule_some h ht).1
    exact .inl ⟨rfl, (translateRule_still ht).1.trans (internNode_still hg.inv hn).1⟩
  | upserted kh b ht hn hu =>
    have hg := (translateRule_some h ht).1
    obtain ⟨hrule, hp⟩ := translateRule_still ht
    obtain ⟨hnode, hp'⟩ := internNode_still hg.inv hn
    have hstill := hrule.trans hnode
    rcases hu.change (internNode_some hg.inv hn).1.inv with ⟨he, hs⟩ | ⟨x, he, ha⟩
    · exact .inl ⟨he, hstill.trans hs⟩
    · exact .inr ⟨x, he, ha.of_still hstill (hp'.trans hp)⟩

theorem RowChange.change {res : RowResult} (h : RowChange s s' res) :
    Change s s' (rowEntry s' res) := by
  rcases h with ⟨he, hs⟩ | ⟨x, he, ha⟩
  · rw [he]; exact .still hs
  · rw [he]; exact .announced x ha

/-! ### Frees -/

theorem freeCellAt_freed (h : s.toCellTable.Inv pins) (hx : s.isActive x = true) :
    Freed s (s.freeCellAt x) x := by
  have ht := freeCellAt_toCellTable s x
  have hd := Dictionary.decRef_spec h.nodes (h.node_pos hx)
  have hinactive : (s.freeCellAt x).isActive x = false := by
    rw [ht, CellTable.isActive_release, if_pos rfl, hx]
    rfl
  cases hfreed : (s.nodeDictionary.decRef (s.cells x).key.origin).2 with
  | false =>
    have he : s.freeCellAt x = { s with toCellTable := s.toCellTable.release x } := by
      simp only [freeCellAt, hfreed]
      rfl
    rw [hfreed] at hd
    rw [he] at hinactive ⊢
    exact ⟨hx, hinactive, rfl, rfl, rfl, rfl, hd.capacity,
      .inl ⟨fun o => (hd.live o).trans (by simp), rfl, rfl⟩⟩
  | true =>
    have he : s.freeCellAt x = { s with
        toCellTable := s.toCellTable.release x
        peerFrontiers := s.peerFrontiers.clearNodeSlot (s.cells x).key.origin
        nextSequenceByOrigin := update s.nextSequenceByOrigin (s.cells x).key.origin 0 } := by
      simp only [freeCellAt, hfreed]
      rfl
    rw [hfreed] at hd
    rw [he] at hinactive ⊢
    exact ⟨hx, hinactive, rfl, rfl, rfl, rfl, hd.capacity,
      .inr ⟨fun o => (hd.live o).trans (by simp), rfl, rfl⟩⟩

/-! ### Steps -/

theorem internRule_still (s : CellStore w) (d : RuleDescriptor) : Still s (s.internRule d).1 := by
  unfold internRule
  dsimp only
  split
  · exact .of_frontiers rfl rfl rfl rfl rfl rfl (fun _ => id) rfl rfl
  · exact .of_frontiers rfl rfl rfl rfl rfl rfl (fun _ => id) rfl rfl

/-- **Every step is a change**, unless it clears the rings or writes the frontiers. -/
theorem step_change (h : s.toCellTable.Inv pins) (st : StoreStep w) (hclear : st ≠ .clearDirty)
    (hset : ∀ t, st ≠ .setFrontiers t) : Change s (s.step st) (s.stepEntry st) := by
  cases st with
  | internRule d => exact .still (internRule_still s d)
  | internNode id => exact .still (internNode_still h (Prod.mk.eta (p := s.internNode id)).symm).1
  | ingestRow obs => exact ((ingestRow_runs h obs []).change h).change
  | mergeRow obs => exact ((mergeRow_runs h obs []).change h).change
  | expireSlot cur live x =>
    show Change s (expireStep cur live (s, []) x).1 none
    unfold expireStep
    dsimp only
    split_ifs with hx
    · exact .freed x (freeCellAt_freed h (Bool.and_eq_true_iff.1 hx).1)
    · exact .still (.refl s)
  | clearSlot x =>
    show Change s (if s.isActive x then s.freeCellAt x else s) none
    split_ifs with hx
    · exact .freed x (freeCellAt_freed h hx)
    · exact .still (.refl s)
  | clearDirty => exact absurd rfl hclear
  | resetSelection => exact .still (.of_frontiers rfl rfl rfl rfl rfl rfl (fun _ => id) rfl rfl)
  | fillFrame maxCells dest =>
    show Change s (s.fillFrameFor maxCells dest).1 none
    rw [fillFrameFor_eq]
    exact .still (sameData_fillFrame s _ maxCells).still
  | visitRepairSlice maxCells visit =>
    exact .still (sameData_visitRepairSlice s maxCells visit).still
  | setFrontiers table => exact absurd rfl (hset table)

/-! ## Free node slots and sequences -/

/-- **A node slot that is free holds nothing of its last origin**, and the sequences of an
    origin's cells are distinct values its counter has had. -/
structure Recycled (s : CellStore w) : Prop where
  size : s.peerFrontiers.nodeCapacity = s.nodeDictionary.capacity
  forgets : ∀ o < s.nodeDictionary.capacity, ¬ s.nodeDictionary.Live o → s.peerFrontiers.Forgets o
  unused : ∀ o, ¬ s.nodeDictionary.Live o → s.nextSequenceByOrigin o = 0
  bounded : ∀ o, s.nextSequenceByOrigin o ≤ u64Max
  le : ∀ x, s.isActive x = true →
    (s.cells x).originSequence ≤ s.nextSequenceByOrigin (s.cells x).key.origin
  distinct : ∀ x y, s.isActive x = true → s.isActive y = true →
    (s.cells x).key.origin = (s.cells y).key.origin →
    s.nextSequenceByOrigin (s.cells x).key.origin < u64Max →
    (s.cells x).originSequence = (s.cells y).originSequence → x = y

theorem Recycled.still (h : Recycled s) (hs : Still s s') : Recycled s' := by
  have hlive : ∀ o, ¬ s'.nodeDictionary.Live o → ¬ s.nodeDictionary.Live o := fun o hn hl =>
    hn (hs.nodes o hl)
  refine ⟨?_, fun o ho hn => ?_, fun o hn => ?_, ?_, ?_, ?_⟩
  · rw [hs.frontierSize, hs.nodeCapacity, h.size]
  · rw [hs.nodeCapacity] at ho
    exact hs.forgets o (by rw [h.size]; exact ho) hn (h.forgets o ho (hlive o hn))
  · rw [hs.counters]
    exact h.unused o (hlive o hn)
  · rw [hs.counters]
    exact h.bounded
  · simp only [hs.isActive, hs.cells, hs.counters]
    exact h.le
  · simp only [hs.isActive, hs.cells, hs.counters]
    exact h.distinct

theorem Announced.isActive (h : Announced s s' x) {y : ℕ} (hy : y ≠ x) :
    s'.isActive y = s.isActive y := by
  rw [CellTable.isActive, CellTable.isActive, h.generations y hy]

/-- A counter never goes back when a change is announced. -/
theorem Announced.counter_le (h : Announced s s' x) (hr : Recycled s) (o : ℕ) :
    s.nextSequenceByOrigin o ≤ s'.nextSequenceByOrigin o := by
  have hb := hr.bounded o
  rw [h.counters, update_apply]
  split_ifs with ho
  · subst ho
    exact le_min (Nat.le_succ _) hb
  · exact le_refl _

theorem Announced.counter_self (h : Announced s s' x) :
    s'.nextSequenceByOrigin (s'.cells x).key.origin = (s'.cells x).originSequence := by
  rw [h.counters, update_self, h.sequence]

/-- Below the largest value, the new sequence is larger than the counter was. -/
theorem Announced.counter_lt (h : Announced s s' x)
    (hlt : s'.nextSequenceByOrigin (s'.cells x).key.origin < u64Max) :
    s.nextSequenceByOrigin (s'.cells x).key.origin < (s'.cells x).originSequence := by
  rw [h.counter_self] at hlt
  rw [h.sequence, nextSequence] at hlt ⊢
  omega

theorem Recycled.announced (h : Recycled s) (hi : s'.toCellTable.Inv pins)
    (ha : Announced s s' x) : Recycled s' := by
  have hlive : ∀ o, ¬ s'.nodeDictionary.Live o → ¬ s.nodeDictionary.Live o := fun o hn hl =>
    hn (ha.nodes o hl)
  -- a cell of the same origin has an older sequence
  have holder : ∀ y, y ≠ x → s'.isActive y = true →
      (s'.cells y).key.origin = (s'.cells x).key.origin →
      s'.nextSequenceByOrigin (s'.cells x).key.origin < u64Max →
      (s'.cells y).originSequence < (s'.cells x).originSequence := by
    intro y hy hay ho hlt
    have hle := h.le y (by rw [← ha.isActive hy]; exact hay)
    rw [← ha.cells y hy, ho] at hle
    exact lt_of_le_of_lt hle (ha.counter_lt hlt)
  refine ⟨?_, fun o ho hn => ?_, fun o hn => ?_, fun o => ?_, fun y hy => ?_,
    fun y z hy hz ho hlt he => ?_⟩
  · rw [ha.frontiers, ha.nodeCapacity, h.size]
  · rw [ha.nodeCapacity] at ho
    rw [ha.frontiers]
    exact h.forgets o ho (hlive o hn)
  · have hne : o ≠ (s'.cells x).key.origin := fun e => hn (e ▸ hi.node_live ha.active)
    rw [ha.counters, update_of_ne hne]
    exact h.unused o (hlive o hn)
  · rw [ha.counters, update_apply]
    split_ifs
    · exact min_le_right _ _
    · exact h.bounded o
  · by_cases hyx : y = x
    · rw [hyx, ha.counter_self]
    · rw [ha.isActive hyx] at hy
      rw [ha.cells y hyx]
      exact (h.le y hy).trans (ha.counter_le h _)
  · by_cases hyx : y = x
    · subst hyx
      by_contra hne
      exact absurd he.symm (holder z (Ne.symm hne) hz ho.symm hlt).ne
    · by_cases hzx : z = x
      · subst hzx
        rw [ho] at hlt
        exact absurd he (holder y hyx hy ho hlt).ne
      · rw [ha.isActive hyx] at hy
        rw [ha.isActive hzx] at hz
        rw [ha.cells y hyx] at ho hlt he
        rw [ha.cells z hzx] at ho he
        exact h.distinct y z hy hz ho (lt_of_le_of_lt (ha.counter_le h _) hlt) he

/-- The cells that stay keep the counters of their origins. -/
theorem Freed.kept (hi : s'.toCellTable.Inv pins) (hf : Freed s s' x) {y : ℕ}
    (hy : s'.isActive y = true) : s.isActive y = true ∧
      s'.nextSequenceByOrigin (s.cells y).key.origin = s.nextSequenceByOrigin (s.cells y).key.origin := by
  have hyx : y ≠ x := fun e => by rw [e, hf.inactive] at hy; cases hy
  refine ⟨?_, ?_⟩
  · rwa [CellTable.isActive, hf.generations, update_of_ne hyx] at hy
  · have hlive := hi.node_live hy
    rw [hf.cells] at hlive
    rcases hf.node with ⟨-, hc, -⟩ | ⟨hn, hc, -⟩
    · rw [hc]
    · rw [hc, update_of_ne ((hn _).1 hlive).2]

theorem Recycled.freed (h : Recycled s) (hi : s'.toCellTable.Inv pins) (hf : Freed s s' x) :
    Recycled s' := by
  have hcells : ∀ y, s'.isActive y = true → s.isActive y = true := fun y hy => (hf.kept hi hy).1
  refine ⟨?_, fun o ho hn => ?_, fun o hn => ?_, fun o => ?_, fun y hy => ?_,
    fun y z hy hz ho hlt he => ?_⟩
  · rw [hf.nodeCapacity, ← h.size]
    rcases hf.node with ⟨-, -, hp⟩ | ⟨-, -, hp⟩
    · rw [hp]
    · rw [hp, (PeerFrontierTable.clearNodeSlot_spec ..).1]
  · rw [hf.nodeCapacity] at ho
    rcases hf.node with ⟨hl, -, hp⟩ | ⟨hl, -, hp⟩
    · rw [hp]
      exact h.forgets o ho fun hlive => hn ((hl o).2 hlive)
    · obtain ⟨-, hself, hkeep⟩ := s.peerFrontiers.clearNodeSlot_spec (s.cells x).key.origin
      rw [hp]
      by_cases he : o = (s.cells x).key.origin
      · rw [he]; exact hself
      · exact hkeep o (h.forgets o ho fun hlive => hn ((hl o).2 ⟨hlive, he⟩))
  · rcases hf.node with ⟨hl, hc, -⟩ | ⟨hl, hc, -⟩
    · rw [hc]
      exact h.unused o fun hlive => hn ((hl o).2 hlive)
    · rw [hc, update_apply]
      split_ifs with he
      · rfl
      · exact h.unused o fun hlive => hn ((hl o).2 ⟨hlive, he⟩)
  · rcases hf.node with ⟨-, hc, -⟩ | ⟨-, hc, -⟩
    · rw [hc]; exact h.bounded o
    · rw [hc, update_apply]
      split_ifs
      · exact Nat.zero_le _
      · exact h.bounded o
  · rw [hf.cells, (hf.kept hi hy).2]
    exact h.le y (hcells y hy)
  · rw [hf.cells] at ho hlt he
    rw [(hf.kept hi hy).2] at hlt
    exact h.distinct y z (hcells y hy) (hcells z hz) ho hlt he

theorem Recycled.change {e : Option DirtyEntry} (h : Recycled s) (hi : s'.toCellTable.Inv pins)
    (hc : Change s s' e) : Recycled s' := by
  cases hc with
  | still hs => exact h.still hs
  | announced x ha => exact h.announced hi ha
  | freed x hf => exact h.freed hi hf

/-! ## Entries and lifetimes -/

/-- The push is the newest change of the cell in `x`. -/
def newestOf (s : CellStore w) (h : History) (x : ℕ) (p : Push) : Bool :=
  p.entry.handle.index == x && p.lifetime == h.lifetimes x &&
    p.entry.originSequence == (s.cells x).originSequence

/-- **What a history says about the store it belongs to.** -/
structure Recorded (s : CellStore w) (h : History) : Prop where
  localRing : s.localDirty.Logged (h.localPushes.map Push.entry)
  forwardedRing : s.forwardedDirty.Logged (h.forwardedPushes.map Push.entry)
  generation : ∀ x, (s.generations x + (s.isActive x).toNat) % 2 ^ 32 = 2 * h.lifetimes x % 2 ^ 32
  entry_generation : ∀ p ∈ h.pushes,
    (p.entry.handle.generation + 1) % 2 ^ 32 = 2 * p.lifetime % 2 ^ 32
  lifetime_le : ∀ p ∈ h.pushes, p.lifetime ≤ h.lifetimes p.entry.handle.index
  entry_le : ∀ p ∈ h.pushes, s.isActive p.entry.handle.index = true →
    p.lifetime = h.lifetimes p.entry.handle.index →
    p.entry.originSequence ≤ (s.cells p.entry.handle.index).originSequence
  newest : ∀ x, s.isActive x = true →
    s.nextSequenceByOrigin (s.cells x).key.origin < u64Max → h.pushes.countP (newestOf s h x) ≤ 1

variable {h : History}

theorem Recorded.still (hr : Recorded s h) (hs : Still s s') : Recorded s' (h.note s s' none) := by
  have hlife : (h.note s s' none).lifetimes = h.lifetimes := by
    funext x
    rw [History.note_lifetimes, History.lifetimesAfter, hs.isActive]
    simp
  have hpushes : (h.note s s' none).pushes = h.pushes := rfl
  have hnewest : newestOf s' (h.note s s' none) = newestOf s h := by
    funext x p
    simp only [newestOf, hlife, hs.cells]
  refine ⟨?_, ?_, ?_, ?_, ?_, ?_, ?_⟩
  · rw [hs.localDirty]; exact hr.localRing
  · rw [hs.forwardedDirty]; exact hr.forwardedRing
  · simp only [hlife, hs.isActive, hs.generations]
    exact hr.generation
  · rw [hpushes]; exact hr.entry_generation
  · rw [hpushes, hlife]; exact hr.lifetime_le
  · simp only [hpushes, hlife, hs.isActive, hs.cells]
    exact hr.entry_le
  · simp only [hpushes, hnewest, hs.isActive, hs.cells, hs.counters]
    exact hr.newest

theorem Recorded.freed (hr : Recorded s h) (hi : s'.toCellTable.Inv pins) (hf : Freed s s' x) :
    Recorded s' (h.note s s' none) := by
  have hkept : ∀ y, s'.isActive y = true → s.isActive y = true := fun y hy => (hf.kept hi hy).1
  have hlife : (h.note s s' none).lifetimes = h.lifetimes := by
    funext y
    rw [History.note_lifetimes, History.lifetimesAfter, if_neg]
    rintro ⟨hn, hy⟩
    rw [hkept y hy] at hn
    cases hn
  have hpushes : (h.note s s' none).pushes = h.pushes := rfl
  have hnewest : newestOf s' (h.note s s' none) = newestOf s h := by
    funext y p
    simp only [newestOf, hlife, hf.cells]
  refine ⟨?_, ?_, fun y => ?_, ?_, ?_, ?_, ?_⟩
  · rw [hf.localDirty]; exact hr.localRing
  · rw [hf.forwardedDirty]; exact hr.forwardedRing
  · rw [hlife, hf.generations]
    have hgen := hr.generation y
    by_cases hyx : y = x
    · subst hyx
      rw [hf.active] at hgen
      rw [hf.inactive, update_self]
      simpa using hgen
    · rw [CellTable.isActive, hf.generations, update_of_ne hyx]
      exact hgen
  · rw [hpushes]; exact hr.entry_generation
  · rw [hpushes, hlife]; exact hr.lifetime_le
  · simp only [hpushes, hlife, hf.cells]
    exact fun p hp ha => hr.entry_le p hp (hkept _ ha)
  · intro y hy hlt
    rw [hf.cells, (hf.kept hi hy).2] at hlt
    rw [hpushes, hnewest]
    exact hr.newest y (hkept y hy) hlt

/-- The lifetimes after a change: the slot goes on with its lifetime or begins the next. -/
theorem Announced.lifetimes (ha : Announced s s' x) (h : History) :
    (∀ y, y ≠ x → h.lifetimesAfter s s' y = h.lifetimes y) ∧
      (s.isActive x = true ∧ s'.generations x = s.generations x ∧
          h.lifetimesAfter s s' x = h.lifetimes x ∨
        s.isActive x = false ∧ s'.generations x = (s.generations x + 1) % 2 ^ 32 ∧
          h.lifetimesAfter s s' x = h.lifetimes x + 1) := by
  refine ⟨fun y hy => ?_, ?_⟩
  · rw [History.lifetimesAfter, ha.isActive hy]
    simp
  · rcases ha.lifetime with ⟨hg, -⟩ | ⟨hn, hg⟩
    · have hx : s.isActive x = true := by
        have hx := ha.active
        rwa [CellTable.isActive, hg] at hx
      exact .inl ⟨hx, hg, by simp [History.lifetimesAfter, hx]⟩
    · exact .inr ⟨hn, hg, by simp [History.lifetimesAfter, hn, ha.active]⟩

/-- The entries of the lifetime that goes on are older than the new one. -/
theorem Announced.older (ha : Announced s s' x) (hrec : Recycled s) (hr : Recorded s h) {p : Push}
    (hp : p ∈ h.pushes) (hpx : p.entry.handle.index = x)
    (hlife : p.lifetime = h.lifetimesAfter s s' x) :
    p.entry.originSequence ≤ s.nextSequenceByOrigin (s'.cells x).key.origin := by
  have hle := hr.lifetime_le p hp
  rcases ha.lifetime with ⟨hg, hkey⟩ | ⟨hn, -⟩
  · rcases (ha.lifetimes h).2 with ⟨hx, -, hl⟩ | ⟨hn, hg', -⟩
    · rw [hkey]
      refine le_trans ?_ (hrec.le x hx)
      rw [← hpx]
      exact hr.entry_le p hp (by rw [hpx]; exact hx) (by rw [hlife, hl, hpx])
    · have hx := ha.active
      rw [CellTable.isActive, hg] at hx
      rw [CellTable.isActive, hx] at hn
      cases hn
  · rcases (ha.lifetimes h).2 with ⟨hx, -⟩ | ⟨-, -, hl⟩
    · rw [hx] at hn; cases hn
    · rw [hpx] at hle
      omega

/-- Generations count the lifetimes, also of the slot that changed. -/
theorem Announced.generation (ha : Announced s s' x) (hr : Recorded s h) (y : ℕ) :
    (s'.generations y + (s'.isActive y).toNat) % 2 ^ 32 = 2 * h.lifetimesAfter s s' y % 2 ^ 32 := by
  obtain ⟨hother, hself⟩ := ha.lifetimes h
  have hold := hr.generation y
  by_cases hyx : y = x
  · subst hyx
    rw [ha.active]
    rcases hself with ⟨hx, hg, hl⟩ | ⟨hn, hg, hl⟩
    · rwa [hg, hl, ← hx]
    · rw [hn] at hold
      rw [hg, hl]
      simp only [Bool.toNat_true, Bool.toNat_false] at hold ⊢
      omega
  · rw [ha.isActive hyx, ha.generations y hyx, hother y hyx]
    exact hold

/-- No second entry is the newest one of a cell. -/
theorem Announced.newest (ha : Announced s s' x) (hr : Recorded s h) (hrec : Recycled s)
    {e : DirtyEntry} (hindex : e.handle.index = x) {y : ℕ} (hy : s'.isActive y = true)
    (hlt : s'.nextSequenceByOrigin (s'.cells y).key.origin < u64Max) :
    (h.note s s' (some e)).pushes.countP (newestOf s' (h.note s s' (some e)) y) ≤ 1 := by
  have hlife := History.note_lifetimes h s s' (some e)
  rw [History.countP_pushes_note]
  by_cases hyx : y = x
  · subst hyx
    -- the older entries of this lifetime have smaller sequences
    have hnone : h.pushes.countP (newestOf s' (h.note s s' (some e)) y) = 0 := by
      rw [List.countP_eq_zero]
      intro p hp hnew
      simp only [newestOf, hlife, Bool.and_eq_true, beq_iff_eq] at hnew
      have hle := ha.older hrec hr hp hnew.1.1 hnew.1.2
      have hlt := ha.counter_lt hlt
      omega
    rw [hnone]
    split_ifs <;> omega
  · have hother := (ha.lifetimes h).1 y hyx
    have hpush : newestOf s' (h.note s s' (some e)) y
        ⟨e, h.lifetimesAfter s s' e.handle.index⟩ = false := by
      simp [newestOf, hindex, Ne.symm hyx]
    have hsame : newestOf s' (h.note s s' (some e)) y = newestOf s h y := by
      funext p
      simp only [newestOf, hlife, hother, ha.cells y hyx]
    rw [hpush, hsame]
    rw [ha.isActive hyx] at hy
    rw [ha.cells y hyx] at hlt
    simpa using hr.newest y hy (lt_of_le_of_lt (ha.counter_le hrec _) hlt)

theorem Recorded.announced (hr : Recorded s h) (hrec : Recycled s) (ha : Announced s s' x) :
    Recorded s' (h.note s s' (some ⟨s'.handleFor x, (s'.cells x).originSequence⟩)) := by
  generalize he : (⟨s'.handleFor x, (s'.cells x).originSequence⟩ : DirtyEntry) = e
  have hindex : e.handle.index = x := by rw [← he]; rfl
  have hseq : e.originSequence = (s'.cells x).originSequence := by rw [← he]
  have hlife := History.note_lifetimes h s s' (some e)
  refine ⟨?_, ?_, ?_, ?_, ?_, ?_, fun y => ha.newest hr hrec hindex⟩
  · rw [ha.localDirty, he, History.note, hindex]
    split_ifs with ho
    · rw [List.map_append]
      exact hr.localRing.push e
    · exact hr.localRing
  · rw [ha.forwardedDirty, he, History.note, hindex]
    split_ifs with ho
    · exact hr.forwardedRing
    · rw [List.map_append]
      exact hr.forwardedRing.push e
  · rw [hlife]; exact ha.generation hr
  · intro p hp
    rcases History.mem_pushes_note.1 hp with hp | rfl
    · exact hr.entry_generation p hp
    · have hx := ha.generation hr x
      rw [ha.active] at hx
      rw [hindex, ← he]
      exact hx
  · intro p hp
    rw [hlife]
    rcases History.mem_pushes_note.1 hp with hp | rfl
    · refine (hr.lifetime_le p hp).trans ?_
      unfold History.lifetimesAfter
      split_ifs <;> omega
    · exact le_refl _
  · intro p hp hact hl
    rw [hlife] at hl
    rcases History.mem_pushes_note.1 hp with hp | rfl
    · by_cases hpx : p.entry.handle.index = x
      · rw [hpx] at hl ⊢
        have hle := ha.older hrec hr hp hpx hl
        exact hle.trans ((ha.counter_le hrec _).trans (ha.counter_self).le)
      · rw [ha.isActive hpx] at hact
        rw [(ha.lifetimes h).1 _ hpx] at hl
        rw [ha.cells _ hpx]
        exact hr.entry_le p hp hact hl
    · show e.originSequence ≤ (s'.cells e.handle.index).originSequence
      rw [hindex, hseq]

theorem Recorded.change {e : Option DirtyEntry} (hr : Recorded s h) (hrec : Recycled s)
    (hi : s'.toCellTable.Inv pins) (hc : Change s s' e) : Recorded s' (h.note s s' e) := by
  cases hc with
  | still hs => exact hr.still hs
  | announced x ha => exact hr.announced hrec ha
  | freed x hf => exact hr.freed hi hf

theorem Recorded.clearDirty (hr : Recorded s h) :
    Recorded s.clearDirty { h with localPushes := [], forwardedPushes := [] } :=
  ⟨.empty (DirtyRing.all_clear _) rfl rfl, .empty (DirtyRing.all_clear _) rfl rfl, hr.generation,
    nofun, nofun, nofun, fun _ _ _ => Nat.zero_le _⟩

/-! ## Whole runs -/

/-- **The invariant of a store and its history.** -/
structure Remembered (s : CellStore w) (h : History) : Prop where
  inv : ∃ pins, s.toCellTable.Inv pins
  recycled : Recycled s
  recorded : Recorded s h

theorem Remembered.still (hm : Remembered s h) (hi : s'.toCellTable.Inv pins) (hs : Still s s') :
    Remembered s' h := by
  have hnote : h.note s s' none = h := by
    have hlife : h.lifetimesAfter s s' = h.lifetimes := by
      funext x
      rw [History.lifetimesAfter, hs.isActive]
      simp
    rw [History.note, hlife]
  exact ⟨⟨pins, hi⟩, hm.recycled.still hs, hnote ▸ hm.recorded.still hs⟩

theorem Remembered.step (hm : Remembered s h) (st : StoreStep w) (hset : ∀ t, st ≠ .setFrontiers t) :
    Remembered (s.step st) (h.after s st) := by
  obtain ⟨pins, hi⟩ := hm.inv
  have hinv := (step_spec hi st).inv
  by_cases hclear : st = .clearDirty
  · subst hclear
    refine ⟨⟨_, hinv⟩, ?_, hm.recorded.clearDirty⟩
    exact ⟨hm.recycled.1, hm.recycled.2, hm.recycled.3, hm.recycled.4, hm.recycled.5, hm.recycled.6⟩
  · have hchange := step_change hi st hclear hset
    have hafter : h.after s st = h.note s (s.step st) (s.stepEntry st) := by
      cases st with
      | clearDirty => exact absurd rfl hclear
      | _ => rfl
    rw [hafter]
    exact ⟨⟨_, hinv⟩, hm.recycled.change hinv hchange,
      hm.recorded.change hm.recycled hinv hchange⟩

theorem Remembered.steps (hm : Remembered s h) (steps : List (StoreStep w))
    (hset : ∀ t, StoreStep.setFrontiers t ∉ steps) :
    Remembered (s.runSteps steps) (h.afterSteps s steps) := by
  induction steps generalizing s h with
  | nil => exact hm
  | cons st steps ih =>
    have hfirst := hm.step st fun t e => hset t (e ▸ List.mem_cons_self ..)
    exact ih hfirst fun t ht => hset t (List.mem_cons_of_mem _ ht)

theorem new_columns {config : CellStoreConfig} {id : NodeIdentity} (hnew : new w config id = some s) :
    s.nextSequenceByOrigin = (fun _ => 0) ∧ s.generations = (fun _ => 0) ∧
      s.localDirty = .withCapacity config.localDirtyCapacity ∧
      s.forwardedDirty = .withCapacity config.forwardedDirtyCapacity ∧
      s.peerFrontiers = .new config.peerCapacity config.nodeDictionaryCapacity ∧
      s.nodeDictionary.capacity = config.nodeDictionaryCapacity := by
  unfold new at hnew
  split_ifs at hnew
  simp only [Option.bind_eq_bind, Option.bind_eq_some_iff, Option.pure_def,
    Option.some.injEq] at hnew
  obtain ⟨i, hi, t, ht, nodes, hnodes, slot, hslot, rules, hrules, hs⟩ := hnew
  have hcap := (Dictionary.withCapacity_spec hnodes).2.1
  rw [← hs]
  refine ⟨rfl, rfl, rfl, rfl, rfl, ?_⟩
  show (NodeDictionary.intern nodes id).1.capacity = _
  rw [← hcap, NodeDictionary.intern]
  split
  · rfl
  · unfold Dictionary.internFresh
    split <;> rfl

/-- A new store remembers nothing. -/
theorem remembered_new {config : CellStoreConfig} {id : NodeIdentity} (hnew : new w config id = some s) :
    Remembered s .empty := by
  obtain ⟨hi, hl, hact, -⟩ := new_spec hnew
  obtain ⟨hcounters, hgens, hlocal, hforwarded, hfrontiers, hcap⟩ := new_columns hnew
  refine ⟨⟨_, hi⟩, ⟨?_, fun o _ _ => ?_, fun o _ => ?_, fun o => ?_, fun x hx => ?_,
    fun x y hx => ?_⟩, ⟨?_, ?_, fun x => ?_, nofun, nofun, nofun, fun _ _ _ => Nat.zero_le _⟩⟩
  · rw [hfrontiers, hcap]; rfl
  · rw [hfrontiers]
    exact fun p _ => ⟨rfl, rfl⟩
  · rw [hcounters]
  · rw [hcounters]; exact Nat.zero_le _
  · rw [hact] at hx; cases hx
  · rw [hact] at hx; cases hx
  · rw [hlocal]; exact .empty (DirtyRing.all_withCapacity _) rfl rfl
  · rw [hforwarded]; exact .empty (DirtyRing.all_withCapacity _) rfl rfl
  · rw [hgens, hact]; rfl

/-! ## What is on the rings -/

/-- The entry is current, and its slot has not begun `2 ^ 31` lifetimes since the push. -/
def currentPush (s : CellStore w) (h : History) (p : Push) : Bool :=
  s.dirtyEntryCurrent p.entry &&
    decide (h.lifetimes p.entry.handle.index - p.lifetime < 2 ^ 31)

/-- A current entry comes from the lifetime its cell is in. -/
theorem Recorded.newest_of_current (hr : Recorded s h) {p : Push} (hp : p ∈ h.pushes)
    (hc : currentPush s h p = true) : s.isActive p.entry.handle.index = true ∧
      newestOf s h p.entry.handle.index p = true := by
  simp only [currentPush, dirtyEntryCurrent, Bool.and_eq_true, decide_eq_true_eq, beq_iff_eq] at hc
  obtain ⟨⟨⟨-, hgen⟩, hseq⟩, hyoung⟩ := hc
  have hentry := hr.entry_generation p hp
  have hcell := hr.generation p.entry.handle.index
  have hle := hr.lifetime_le p hp
  have hodd : s.generations p.entry.handle.index % 2 = 1 := by omega
  have hactive := (CellTable.isActive_eq p.entry.handle.index).2 hodd
  rw [hactive, hgen] at hcell
  simp only [Bool.toNat_true] at hcell
  have hlife : p.lifetime = h.lifetimes p.entry.handle.index := by omega
  exact ⟨hactive, by simp [newestOf, hlife, hseq]⟩

/-- **At most one entry on the two rings is current for a cell.** -/
theorem Recorded.one_current (hr : Recorded s h) (x : ℕ)
    (hlt : s.isActive x = true → s.nextSequenceByOrigin (s.cells x).key.origin < u64Max) :
    (h.onRings s).countP (fun p => p.entry.handle.index == x && currentPush s h p) ≤ 1 := by
  have hsub : (h.onRings s).Sublist h.pushes :=
    (List.drop_sublist _ _).append (List.drop_sublist _ _)
  refine (hsub.countP_le).trans ?_
  by_cases hx : s.isActive x = true
  · refine (List.countP_mono_left fun p hp hc => ?_).trans (hr.newest x hx (hlt hx))
    obtain ⟨hpx, hc⟩ := Bool.and_eq_true_iff.1 hc
    have hnew := (hr.newest_of_current hp hc).2
    rwa [beq_iff_eq.1 hpx] at hnew
  · -- a free slot has no current entry at all
    refine le_of_eq_of_le (List.countP_eq_zero.2 fun p hp hc => hx ?_) (Nat.zero_le 1)
    obtain ⟨hpx, hc⟩ := Bool.and_eq_true_iff.1 hc
    have hact := (hr.newest_of_current hp hc).1
    rwa [beq_iff_eq.1 hpx] at hact

/-- The recent pushes are what the rings hold, oldest first. -/
theorem Recorded.rings (hr : Recorded s h) :
    s.localDirty.insertionOrder =
        (History.recent s.localDirty.capacity h.localPushes).map Push.entry ∧
      s.forwardedDirty.insertionOrder =
        (History.recent s.forwardedDirty.capacity h.forwardedPushes).map Push.entry := by
  simp only [History.recent, List.map_drop]
  constructor
  · rw [hr.localRing.order, List.length_map]
  · rw [hr.forwardedRing.order, List.length_map]

end CellStore

end Gabion
