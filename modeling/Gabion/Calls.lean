/-
  Runs of store calls.

  `StoreCall` lists the mutating calls of `CellStore` (frontier methods are reached through
  `peer_frontiers_mut`).  Every store reached from a new one by any calls satisfies the
  table invariant and the lane invariant (`Reachable.inv`).
-/
import Gabion.Frame

namespace Gabion

open Function SlotMap

inductive FrontierCall
  | internPeer (peer : NodeId)
  | removePeer (peer : NodeId)
  | recordSent (peerSlot nodeSlot sequence : ℕ)
  | recordAcked (peerSlot nodeSlot sequence : ℕ)

def PeerFrontierTable.call (t : PeerFrontierTable) : FrontierCall → PeerFrontierTable
  | .internPeer peer => (t.internPeer peer).1
  | .removePeer peer => t.removePeer peer
  | .recordSent p n seq => t.recordSent p n seq
  | .recordAcked p n seq => t.recordAcked p n seq

inductive StoreCall (w : CountWidth)
  | internRule (descriptor : RuleDescriptor)
  | internNode (id : NodeIdentity)
  | ingestLocal (obs : List (Observation w))
  | mergeRemote (obs : List (Observation w))
  | expire (currentEpochByRule : List BucketEpoch) (liveBuckets : List ℕ)
  | expireAt (nowMillis : ℕ)
  | fillFrame (maxCells : ℕ) (dest : Option ℕ)
  | frontier (c : FrontierCall)
  | clearDirty
  | clear

namespace CellStore

variable {w : CountWidth}

def call (s : CellStore w) : StoreCall w → CellStore w
  | .internRule d => (s.internRule d).1
  | .internNode id => (s.internNode id).1
  | .ingestLocal obs => (s.ingestLocal obs []).1
  | .mergeRemote obs => (s.mergeRemote obs []).1
  | .expire cur live => (s.expire cur live []).1
  | .expireAt now => (s.expireAt now []).1
  | .fillFrame maxCells dest => (s.fillFrameFor maxCells dest).1
  | .frontier c => { s with peerFrontiers := s.peerFrontiers.call c }
  | .clearDirty => s.clearDirty
  | .clear => s.clear

def run (s : CellStore w) (calls : List (StoreCall w)) : CellStore w := calls.foldl call s

/-- The stores a node can get to, with or without rejected rows. -/
def Reachable (s : CellStore w) : Prop :=
  ∃ config id s₀ calls, new w config id = some s₀ ∧ s = s₀.run calls

variable {pins : ℕ → Bool} {s s' : CellStore w}

/-! ## Batches -/

section
variable {row : CellStore w → Observation w → List CellDelta →
  CellStore w × List CellDelta × RowResult}

theorem rows_cons (s : CellStore w) (o : Observation w) (os : List (Observation w))
    (sink : List CellDelta) :
    rows row s (o :: os) sink = rows row (row s o sink).1 os (row s o sink).2.1 := rfl

/-- A property every row keeps is kept by a batch. -/
theorem rows_induct {P : CellStore w → List CellDelta → Prop}
    (hrow : ∀ s o sink, P s sink → P (row s o sink).1 (row s o sink).2.1) :
    ∀ (obs : List (Observation w)) (s : CellStore w) (sink : List CellDelta), P s sink →
      P (rows row s obs sink).1 (rows row s obs sink).2
  | [], _, _, h => h
  | o :: os, s, sink, h => by
    rw [rows_cons]
    exact rows_induct hrow os _ _ (hrow s o sink h)

end

theorem RowStep.refl (h : s.toCellTable.Inv pins) : RowStep pins s s := (Grows.refl h).rowStep

theorem ingestLocal_step (h : s.toCellTable.Inv pins) (obs : List (Observation w))
    (sink : List CellDelta) : RowStep pins s (s.ingestLocal obs sink).1 :=
  rows_induct (P := fun s' _ => RowStep pins s s')
    (fun _ o sink h' => h'.trans (ingestRow_spec h'.inv o sink).1) obs s sink (.refl h)

theorem mergeRemote_step (h : s.toCellTable.Inv pins) (obs : List (Observation w))
    (sink : List CellDelta) : RowStep pins s (s.mergeRemote obs sink).1 :=
  rows_induct (P := fun s' _ => RowStep pins s s')
    (fun _ o sink h' => h'.trans (mergeRow_spec h'.inv o sink).1) obs s sink (.refl h)

/-! ## Clearing -/

/-- The slot loop of `clear` leaves no active cell below `n`. -/
theorem clearLoop_spec (h : s.toCellTable.Inv pins) (n : ℕ) :
    let s' := (List.range n).foldl
      (fun s slot => if s.isActive slot then s.freeCellAt slot else s) s
    FreeStep pins s s' ∧ ∀ x, s'.view x = if x < n then none else s.view x := by
  induction n with
  | zero => exact ⟨.refl h, fun x => by simp⟩
  | succ n ih =>
    obtain ⟨hs, hv⟩ := ih
    dsimp only
    rw [List.range_succ, List.foldl_append, List.foldl_cons, List.foldl_nil]
    generalize (List.range n).foldl _ s = s₁ at hs hv
    have key : ∀ {s₂ : CellStore w}, (∀ x, s₂.view x = if x = n then none else s₁.view x) →
        ∀ x, s₂.view x = if x < n + 1 then none else s.view x := fun h2 x => by
      rw [h2, hv]
      by_cases hxn : x = n
      · simp [hxn]
      · simp only [hxn, if_false, Nat.lt_succ_iff_lt_or_eq, or_false]
    split_ifs with ha
    · obtain ⟨h1, h2⟩ := freeCellAt_spec hs.inv ha
      exact ⟨hs.trans h1, key fun x => by rw [h2, update_apply]⟩
    · refine ⟨hs, key fun x => ?_⟩
      split_ifs with hx
      · rw [hx]; exact if_neg ha
      · rfl

theorem clear_spec (h : s.toCellTable.Inv pins) : s.clear.toCellTable.Inv pins ∧
    Lanes s.clear ∧ ∀ x, s.clear.view x = none := by
  obtain ⟨hs, hv⟩ := clearLoop_spec h s.capacity
  refine ⟨hs.inv, ?_, fun x => ?_⟩
  · exact ⟨DirtyRing.all_clear _, DirtyRing.all_clear _, hs.inv.pos, fun _ => le_rfl,
      Nat.two_pow_pos 32⟩
  · refine (hv x).trans ?_
    split_ifs with hx
    · rfl
    · by_contra hc
      obtain ⟨e, he⟩ := Option.ne_none_iff_exists'.1 hc
      exact hx (h.below x e he)

/-! ## Whole runs -/

theorem internNode_grows (h : s.toCellTable.Inv pins) (id : NodeIdentity) :
    Grows pins s (s.internNode id).1 := by
  unfold internNode NodeDictionary.intern
  cases hfind : s.nodeDictionary.find id with
  | some slot => exact .refl h
  | none =>
    dsimp only
    split
    · rename_i d slot hint
      exact .freshNode h (Dictionary.internFresh_some h.nodes (h.nodes.find_none_iff.1 hfind) hint)
    · exact .of_table h rfl rfl rfl rfl rfl rfl

/-- Every call keeps both invariants. -/
theorem call_inv (h : s.toCellTable.Inv pins) (hl : Lanes s) (c : StoreCall w) :
    ∃ pins', (s.call c).toCellTable.Inv pins' ∧ Lanes (s.call c) := by
  cases c with
  | internRule d =>
    show ∃ pins', (s.internRule d).1.toCellTable.Inv pins' ∧ Lanes (s.internRule d).1
    obtain ⟨pins', hi, -, hs⟩ := internRule_spec h d
    exact ⟨pins', hi, hl.congr hs⟩
  | internNode id =>
    have hg := internNode_grows h id
    exact ⟨pins, hg.inv, hl.congr hg.same⟩
  | ingestLocal obs =>
    have hs := ingestLocal_step h obs []
    exact ⟨pins, hs.inv, hs.lanes hl⟩
  | mergeRemote obs =>
    have hs := mergeRemote_step h obs []
    exact ⟨pins, hs.inv, hs.lanes hl⟩
  | expire cur live =>
    have hs := (expire_spec h cur live []).1
    exact ⟨pins, hs.inv, hs.lanes hl⟩
  | expireAt now =>
    have hs := (expire_spec h (s.epochScratch now) s.liveScratch []).1
    exact ⟨pins, hs.inv, hs.lanes hl⟩
  | fillFrame maxCells dest =>
    show ∃ pins', (s.fillFrameFor maxCells dest).1.toCellTable.Inv pins' ∧
      Lanes (s.fillFrameFor maxCells dest).1
    rw [fillFrameFor_eq, (sameData_fillFrame s _ maxCells).table]
    exact ⟨pins, h, fillFrame_lanes hl _ maxCells⟩
  | frontier c => exact ⟨pins, h, ⟨hl.1, hl.2, hl.3, hl.4, hl.5⟩⟩
  | clearDirty =>
    exact ⟨pins, h, ⟨DirtyRing.all_clear _, DirtyRing.all_clear _, hl.3, hl.4, hl.5⟩⟩
  | clear => exact ⟨pins, (clear_spec h).1, (clear_spec h).2.1⟩

theorem run_inv (h : s.toCellTable.Inv pins) (hl : Lanes s) (calls : List (StoreCall w)) :
    ∃ pins', (s.run calls).toCellTable.Inv pins' ∧ Lanes (s.run calls) := by
  induction calls generalizing s pins with
  | nil => exact ⟨pins, h, hl⟩
  | cons c cs ih =>
    obtain ⟨pins', h', hl'⟩ := call_inv h hl c
    exact ih h' hl'

/-- What every call of a run keeps holds of the store it ends in. -/
theorem run_induct {P : CellStore w → Prop} (h : s.toCellTable.Inv pins) (hl : Lanes s) (hP : P s)
    {calls : List (StoreCall w)} (hcall : ∀ (s : CellStore w) pins, ∀ c ∈ calls,
      s.toCellTable.Inv pins → P s → P (s.call c)) : P (s.run calls) := by
  induction calls generalizing s pins with
  | nil => exact hP
  | cons c cs ih =>
    obtain ⟨pins', h', hl'⟩ := call_inv h hl c
    exact ih h' hl' (hcall s pins c (List.mem_cons_self ..) h hP)
      fun s pins c' hc' => hcall s pins c' (List.mem_cons_of_mem _ hc')

/-- **Every reachable store satisfies the invariants.** -/
theorem Reachable.inv (h : Reachable s) : ∃ pins, s.toCellTable.Inv pins ∧ Lanes s := by
  obtain ⟨config, id, s₀, calls, hnew, rfl⟩ := h
  obtain ⟨h0, hl, -⟩ := new_spec hnew
  exact run_inv h0 hl calls

theorem run_append (s : CellStore w) (cs cs' : List (StoreCall w)) :
    s.run (cs ++ cs') = (s.run cs).run cs' := List.foldl_append ..

theorem Reachable.run (h : Reachable s) (calls : List (StoreCall w)) : Reachable (s.run calls) := by
  obtain ⟨config, id, s₀, cs, hnew, rfl⟩ := h
  exact ⟨config, id, s₀, cs ++ calls, hnew, (run_append ..).symm⟩

end CellStore

end Gabion
