/-
  Store calls as runs of single steps.

  A batch is its rows, a sweep its slots: `StoreStep` lists what a call does at once, and
  every public call of the store is a run of steps (`call_eq_steps`, `publicRun_steps`).  So
  what each step keeps (`step_spec`) holds between the rows of a batch and in the middle of
  a sweep, too.  `PublicCall` adds to `StoreCall` the public calls that no caller in the
  crate uses: `visit_repair_slice`, and any change made through `peer_frontiers_mut`.
-/
import Gabion.Calls
import Gabion.Rows

namespace Gabion

open Function

/-- One step of a store call. -/
inductive StoreStep (w : CountWidth)
  | internRule (descriptor : RuleDescriptor)
  | internNode (id : NodeIdentity)
  | ingestRow (obs : Observation w)
  | mergeRow (obs : Observation w)
  | expireSlot (currentEpochByRule : List BucketEpoch) (liveBuckets : List ℕ) (slot : ℕ)
  | clearSlot (slot : ℕ)
  | clearDirty
  | resetSelection
  | fillFrame (maxCells : ℕ) (dest : Option ℕ)
  | visitRepairSlice (maxCells : ℕ) (visit : List CellHandle → Bool)
  | setFrontiers (table : PeerFrontierTable)

/-- The public calls that change a store. -/
inductive PublicCall (w : CountWidth)
  | call (c : StoreCall w)
  | visitRepairSlice (maxCells : ℕ) (visit : List CellHandle → Bool)
  | peerFrontiersMut (table : PeerFrontierTable)

namespace CellStore

variable {w : CountWidth}

def step (s : CellStore w) : StoreStep w → CellStore w
  | .internRule d => (s.internRule d).1
  | .internNode id => (s.internNode id).1
  | .ingestRow obs => (s.ingestRow obs []).1
  | .mergeRow obs => (s.mergeRow obs []).1
  | .expireSlot cur live slot => (expireStep cur live (s, []) slot).1
  | .clearSlot slot => if s.isActive slot then s.freeCellAt slot else s
  | .clearDirty => s.clearDirty
  | .resetSelection => { s with repairCursor := 0, selectionEpoch := 0, selectionMarks := fun _ => 0 }
  | .fillFrame maxCells dest => (s.fillFrameFor maxCells dest).1
  | .visitRepairSlice maxCells visit => (s.visitRepairSlice maxCells visit).1
  | .setFrontiers table => { s with peerFrontiers := table }

def runSteps (s : CellStore w) (steps : List (StoreStep w)) : CellStore w := steps.foldl step s

def publicCall (s : CellStore w) : PublicCall w → CellStore w
  | .call c => s.call c
  | .visitRepairSlice maxCells visit => (s.visitRepairSlice maxCells visit).1
  | .peerFrontiersMut table => { s with peerFrontiers := table }

def publicRun (s : CellStore w) (calls : List (PublicCall w)) : CellStore w :=
  calls.foldl publicCall s

/-! ## Calls are runs of steps -/

/-- The steps of a call, made on the store `s`. -/
def callSteps (s : CellStore w) : StoreCall w → List (StoreStep w)
  | .internRule d => [.internRule d]
  | .internNode id => [.internNode id]
  | .ingestLocal obs => obs.map .ingestRow
  | .mergeRemote obs => obs.map .mergeRow
  | .expire cur live => (List.range s.capacity).map (.expireSlot cur live)
  | .expireAt now => (List.range s.capacity).map (.expireSlot (s.epochScratch now) s.liveScratch)
  | .fillFrame maxCells dest => [.fillFrame maxCells dest]
  | .frontier c => [.setFrontiers (s.peerFrontiers.call c)]
  | .clearDirty => [.clearDirty]
  | .clear => (List.range s.capacity).map .clearSlot ++ [.clearDirty, .resetSelection]

theorem runSteps_append (s : CellStore w) (steps steps' : List (StoreStep w)) :
    s.runSteps (steps ++ steps') = (s.runSteps steps).runSteps steps' := List.foldl_append ..

/-- The store a batch leaves is folded over its rows. -/
theorem rows_steps {row : CellStore w → Observation w → List CellDelta →
      CellStore w × List CellDelta × RowResult} {mk : Observation w → StoreStep w}
    (hrow : ∀ s o sink, (row s o sink).1 = step s (mk o)) (obs : List (Observation w))
    (s : CellStore w) (sink : List CellDelta) :
    (rows row s obs sink).1 = s.runSteps (obs.map mk) := by
  induction obs generalizing s sink with
  | nil => rfl
  | cons o os ih =>
    rw [rows_cons, ih, hrow]
    rfl

theorem ingestLocal_steps (s : CellStore w) (obs : List (Observation w)) (sink : List CellDelta) :
    (s.ingestLocal obs sink).1 = s.runSteps (obs.map .ingestRow) :=
  rows_steps (fun s o sink => ingestRow_store s o sink []) obs s sink

theorem mergeRemote_steps (s : CellStore w) (obs : List (Observation w)) (sink : List CellDelta) :
    (s.mergeRemote obs sink).1 = s.runSteps (obs.map .mergeRow) :=
  rows_steps (fun s o sink => mergeRow_store s o sink []) obs s sink

theorem expireStep_store (cur : List BucketEpoch) (live : List ℕ) (s : CellStore w)
    (sink sink' : List CellExpiration) (x : ℕ) :
    (expireStep cur live (s, sink) x).1 = (expireStep cur live (s, sink') x).1 := by
  unfold expireStep
  dsimp only
  split_ifs <;> rfl

theorem expire_steps (s : CellStore w) (cur : List BucketEpoch) (live : List ℕ)
    (sink : List CellExpiration) :
    (s.expire cur live sink).1 = s.runSteps ((List.range s.capacity).map (.expireSlot cur live)) := by
  unfold expire
  generalize List.range s.capacity = slots
  induction slots generalizing s sink with
  | nil => rfl
  | cons x xs ih =>
    rw [List.foldl_cons, ← Prod.mk.eta (p := expireStep cur live (s, sink) x), ih,
      expireStep_store cur live s sink []]
    rfl

/-- **A call is the run of its steps.** -/
theorem call_eq_steps (s : CellStore w) (c : StoreCall w) :
    s.call c = s.runSteps (s.callSteps c) := by
  cases c with
  | ingestLocal obs => exact ingestLocal_steps s obs []
  | mergeRemote obs => exact mergeRemote_steps s obs []
  | expire cur live => exact expire_steps s cur live []
  | expireAt now => exact expire_steps s _ _ []
  | clear =>
    have hloop : s.runSteps ((List.range s.capacity).map .clearSlot) = (List.range s.capacity).foldl
        (fun s slot => if s.isActive slot then s.freeCellAt slot else s) s := List.foldl_map
    rw [callSteps, runSteps_append, hloop]
    rfl
  | _ => rfl

/-- The steps of a run of calls. -/
def stepsOf (s : CellStore w) : List (StoreCall w) → List (StoreStep w)
  | [] => []
  | c :: cs => s.callSteps c ++ (s.call c).stepsOf cs

theorem run_eq_steps (s : CellStore w) (calls : List (StoreCall w)) :
    s.run calls = s.runSteps (s.stepsOf calls) := by
  induction calls generalizing s with
  | nil => rfl
  | cons c cs ih =>
    rw [stepsOf, runSteps_append, ← call_eq_steps, ← ih]
    rfl

/-- Interning steps come from interning calls. -/
theorem mem_stepsOf {s : CellStore w} {calls : List (StoreCall w)} :
    (∀ d, StoreStep.internRule d ∈ s.stepsOf calls → StoreCall.internRule d ∈ calls) ∧
      ∀ id, StoreStep.internNode id ∈ s.stepsOf calls → StoreCall.internNode id ∈ calls := by
  induction calls generalizing s with
  | nil => simp [stepsOf]
  | cons c cs ih =>
    obtain ⟨hrule, hnode⟩ := ih (s := s.call c)
    have hcall : (∀ d, StoreStep.internRule d ∈ s.callSteps c → c = .internRule d) ∧
        ∀ id, StoreStep.internNode id ∈ s.callSteps c → c = .internNode id := by
      cases c <;> simp [callSteps, eq_comm]
    simp only [stepsOf, List.mem_append, List.mem_cons]
    exact ⟨fun d => Or.imp (fun h => (hcall.1 d h).symm) (hrule d),
      fun id => Or.imp (fun h => (hcall.2 id h).symm) (hnode id)⟩

theorem publicRun_steps (s : CellStore w) (calls : List (PublicCall w)) :
    ∃ steps, s.publicRun calls = s.runSteps steps := by
  induction calls generalizing s with
  | nil => exact ⟨[], rfl⟩
  | cons c cs ih =>
    obtain ⟨steps, hsteps⟩ := ih (s.publicCall c)
    have hcall : ∃ first, s.publicCall c = s.runSteps first := by
      cases c with
      | call c => exact ⟨s.callSteps c, call_eq_steps s c⟩
      | visitRepairSlice maxCells visit => exact ⟨[.visitRepairSlice maxCells visit], rfl⟩
      | peerFrontiersMut table => exact ⟨[.setFrontiers table], rfl⟩
    obtain ⟨first, hfirst⟩ := hcall
    refine ⟨first ++ steps, ?_⟩
    rw [runSteps_append, ← hfirst]
    exact hsteps

/-! ## What a step keeps -/

variable {pins : ℕ → Bool} {s s' : CellStore w}

/-- The step is an `intern_rule` call that creates rule slot `r`. -/
def creates (s : CellStore w) : StoreStep w → ℕ → Bool
  | .internRule d, r =>
    (s.ruleDictionary.find d.fingerprint).isNone && (s.internRule d).2 == some r
  | _, _ => false

/-- Some step of the run is an `intern_rule` call that creates rule slot `r`. -/
def created (s : CellStore w) : List (StoreStep w) → ℕ → Bool
  | [], _ => false
  | st :: steps, r => s.creates st r || (s.step st).created steps r

/-- A cell that is active in both stores has the same key, and the dictionaries read it as the
    same identity. -/
def KeepsCells (s s' : CellStore w) : Prop :=
  ∀ x, s.isActive x = true → s'.isActive x = true →
    (s'.cells x).key = (s.cells x).key ∧ s'.idOf x = s.idOf x

theorem idOf_eq_of_view {x : ℕ} (hv : s'.view x = none ∨ s'.view x = s.view x)
    (hx : s.isActive x = true) (hx' : s'.isActive x = true) : s'.idOf x = s.idOf x := by
  have h' : s'.view x = some (s'.idOf x, (s'.cells x).count) :=
    CellTable.view_eq_some.2 ⟨hx', rfl, rfl⟩
  have h : s.view x = some (s.idOf x, (s.cells x).count) := CellTable.view_eq_some.2 ⟨hx, rfl, rfl⟩
  rcases hv with hv | hv
  · rw [h'] at hv; cases hv
  · rw [h', h] at hv
    exact congrArg Prod.fst (Option.some.inj hv)

theorem KeepsCells.of_view (hc : s'.cells = s.cells)
    (hv : ∀ x, s'.view x = none ∨ s'.view x = s.view x) : KeepsCells s s' := fun x hx hx' =>
  ⟨by rw [hc], idOf_eq_of_view (hv x) hx hx'⟩

/-- What one step does to the store. -/
structure Stepped (pins : ℕ → Bool) (s s' : CellStore w) : Prop where
  inv : s'.toCellTable.Inv pins
  lanes : Lanes s → Lanes s'
  capacity : s'.capacity = s.capacity
  localNodeSlot : s'.localNodeSlot = s.localNodeSlot
  localIdentity : s'.localIdentity = s.localIdentity
  keeps : KeepsCells s s'

theorem Grows.stepped (h : Grows pins s s') : Stepped pins s s' :=
  ⟨h.inv, fun hl => hl.congr h.same, h.same.capacity, h.same.localNodeSlot, h.same.localIdentity,
    .of_view h.same.cells fun x => .inr (congrFun h.view x)⟩

theorem FreeStep.stepped (h : FreeStep pins s s')
    (hv : ∀ x, s'.view x = none ∨ s'.view x = s.view x) : Stepped pins s s' :=
  ⟨h.inv, h.lanes, h.capacity, h.localNodeSlot, h.localIdentity, .of_view h.cells hv⟩

theorem SameData.stepped (h : s.toCellTable.Inv pins) (hd : SameData s s')
    (hl : Lanes s → Lanes s') : Stepped pins s s' := by
  refine ⟨by rw [hd.table]; exact h, hl, by rw [hd.table], by rw [hd.table], by rw [hd.table],
    .of_view (by rw [hd.table]) fun x => .inr (by rw [hd.table])⟩

/-! ### Rows -/

theorem SameCells.isActive (h : SameCells s s') (x : ℕ) : s'.isActive x = s.isActive x := by
  rw [CellTable.isActive, CellTable.isActive, h.generations]

/-- An upsert never moves an active cell to another key, and the cell it reports is active. -/
theorem Upserted.keys {key : CompactCellKey} {res : RowResult} (h : s.toCellTable.Inv pins)
    (hu : Upserted s key s' res) :
    (∀ y, s.isActive y = true → (s'.cells y).key = (s.cells y).key) ∧
      ∀ o, res = .ok o → s'.isActive o.handle.index = true := by
  cases hu with
  | full => exact ⟨fun _ _ => rfl, fun o ho => by cases ho⟩
  | same x hx => exact ⟨fun _ _ => rfl, fun o ho => by cases ho; exact hx⟩
  | raised x c delta hx hk hc =>
    rw [announced_toCellTable]
    refine ⟨fun y _ => CellTable.setCell_key (hc.trans hk.symm) y, fun o ho => ?_⟩
    cases ho
    exact hx
  | placed x c delta hh =>
    have hn := Bool.eq_false_iff.2 (hh ▸ h.slab).head_spec.2
    rw [announced_toCellTable]
    refine ⟨fun y hy => ?_, fun o ho => ?_⟩
    · have hyx : y ≠ x := fun e => by rw [e, hn] at hy; cases hy
      rw [CellTable.place_cells, update_of_ne hyx]
    · cases ho
      show (s.toCellTable.place x c).isActive x = true
      simp [CellTable.isActive_place, hn]

theorem internNode_some (h : s.toCellTable.Inv pins) {id : NodeIdentity} {o : ℕ}
    (he : s.internNode id = (s', some o)) :
    Grows pins s s' ∧ s'.nodeDictionary.Live o ∧ s'.nodeDictionary.descriptors o = id :=
  translateNode_some h ((translateNode_eq s id).trans he)

theorem RowRun.keys {fp : Fingerprint} {id : NodeIdentity} {res : RowResult}
    (h : s.toCellTable.Inv pins) (hr : RowRun s fp id s' res) :
    (∀ y, s.isActive y = true → (s'.cells y).key = (s.cells y).key) ∧
      ∀ o, res = .ok o → s'.isActive o.handle.index = true := by
  cases hr with
  | ruleFull ht =>
    have hg := translateRule_none h ht
    exact ⟨fun y _ => by rw [hg.same.cells], fun o ho => by cases ho⟩
  | nodeFull ht hn =>
    have hg := (translateRule_some h ht).1
    have hg₂ := hg.trans (translateNode_none hg.inv ((translateNode_eq ..).trans hn))
    exact ⟨fun y _ => by rw [hg₂.same.cells], fun o ho => by cases ho⟩
  | upserted kh b ht hn hu =>
    have hg := (translateRule_some h ht).1
    have hg₂ := hg.trans (internNode_some hg.inv hn).1
    obtain ⟨hk, ho⟩ := hu.keys hg₂.inv
    refine ⟨fun y hy => ?_, ho⟩
    rw [hk y (by rw [hg₂.same.isActive, hy]), hg₂.same.cells]

/-- A row keeps every cell that was active. -/
theorem RowEffect.view_keeps {k : CellId} {mode : UpsertMode} {a : Bool} {sink sink' : List CellDelta}
    {res : RowResult} (he : RowEffect w s.view s'.view k mode a sink sink' res) {x : ℕ}
    (hx : s.isActive x = true) (hx' : s'.isActive x = true) : s'.idOf x = s.idOf x := by
  cases he with
  | rejected e hv => exact idOf_eq_of_view (.inr (congrFun hv x)) hx hx'
  | same y c o hy hc hv => exact idOf_eq_of_view (.inr (congrFun hv x)) hx hx'
  | changed y c row o hold hv =>
    by_cases hxy : x = y
    · subst hxy
      have hview : s.view x = some (s.idOf x, (s.cells x).count) :=
        CellTable.view_eq_some.2 ⟨hx, rfl, rfl⟩
      have hview' : s'.view x = some (s'.idOf x, (s'.cells x).count) :=
        CellTable.view_eq_some.2 ⟨hx', rfl, rfl⟩
      rw [hv, update_self] at hview'
      rcases hold with hold | ⟨hnone, -⟩
      · rw [hview] at hold
        have h1 := congrArg Prod.fst (Option.some.inj hold)
        have h2 := congrArg Prod.fst (Option.some.inj hview')
        exact h2.symm.trans h1.symm
      · rw [hview] at hnone; cases hnone
    · exact idOf_eq_of_view (.inr (by rw [hv, update_of_ne hxy])) hx hx'

theorem RowStep.stepped (h : RowStep pins s s')
    (hk : ∀ y, s.isActive y = true → (s'.cells y).key = (s.cells y).key)
    (hid : ∀ x, s.isActive x = true → s'.isActive x = true → s'.idOf x = s.idOf x) :
    Stepped pins s s' :=
  ⟨h.inv, h.lanes, h.capacity, h.localNodeSlot, h.localIdentity,
    fun x hx hx' => ⟨hk x hx, hid x hx hx'⟩⟩

theorem ingestRow_stepped (h : s.toCellTable.Inv pins) (obs : Observation w)
    (sink : List CellDelta) : Stepped pins s (s.ingestRow obs sink).1 := by
  obtain ⟨hs, he⟩ := ingestRow_spec h obs sink
  exact hs.stepped ((ingestRow_runs h obs sink).keys h).1 fun _ => he.view_keeps

theorem mergeRow_stepped (h : s.toCellTable.Inv pins) (obs : Observation w)
    (sink : List CellDelta) : Stepped pins s (s.mergeRow obs sink).1 := by
  obtain ⟨hs, he⟩ := mergeRow_spec h obs sink
  exact hs.stepped ((mergeRow_runs h obs sink).keys h).1 fun _ => he.view_keeps

/-! ### Steps -/

/-- **What `intern_rule` does**: it registers the rule, or the dictionary is full. -/
theorem internRule_cases (h : s.toCellTable.Inv pins) (d : RuleDescriptor) {pins' : ℕ → Bool}
    (hpins : pins' = fun r => pins r || s.creates (.internRule d) r) :
    (s.internRule d).1.toCellTable.Inv pins' ∧ (s.internRule d).1.view = s.view ∧
      SameCells s (s.internRule d).1 ∧
      ((∃ r, Registered pins pins' s (s.internRule d).1 d r ∧
          ∀ y, pins' y = true → pins y = true ∨ y = r) ∨
        (s.internRule d).1.ruleDictionary = s.ruleDictionary ∧ pins' = pins) := by
  cases hfind : s.ruleDictionary.find d.fingerprint with
  | some r =>
    have hsame : pins' = pins := by simp [hpins, creates, hfind]
    obtain ⟨-, hi, hv, hs, hreg⟩ := internRule_known h hfind
    rw [hsame]
    exact ⟨hi, hv, hs, .inl ⟨r, hreg, fun y hy => .inl hy⟩⟩
  | none =>
    cases hr : (s.internRule d).2 with
    | some r =>
      have hupdate : pins' = update pins r true := by
        funext y
        by_cases hy : y = r
        · simp [hpins, creates, hfind, hr, hy]
        · simp [hpins, creates, hfind, hr, hy, Ne.symm hy]
      obtain ⟨hi, hv, hs, hreg⟩ := internRule_fresh h hfind (Prod.ext rfl hr)
      rw [hupdate]
      refine ⟨hi, hv, hs, .inl ⟨r, hreg, fun y hy => ?_⟩⟩
      by_cases hyr : y = r
      · exact .inr hyr
      · rw [update_of_ne hyr] at hy
        exact .inl hy
    | none =>
      have hsame : pins' = pins := by simp [hpins, creates, hr]
      obtain ⟨hg, hdict⟩ := internRule_none h (Prod.ext rfl hr)
      rw [hsame]
      exact ⟨hg.inv, hg.view, hg.same, .inr ⟨hdict, rfl⟩⟩

theorem internRule_stepped (h : s.toCellTable.Inv pins) (d : RuleDescriptor) :
    Stepped (fun r => pins r || s.creates (.internRule d) r) s (s.internRule d).1 := by
  obtain ⟨hi, hv, hs, -⟩ := internRule_cases h d rfl
  exact ⟨hi, fun hl => hl.congr hs, hs.capacity, hs.localNodeSlot, hs.localIdentity,
    .of_view hs.cells fun x => .inr (congrFun hv x)⟩

/-- **What one step does.**  `pins` gains the rule slot the step creates, if any. -/
theorem step_spec (h : s.toCellTable.Inv pins) (st : StoreStep w) :
    Stepped (fun r => pins r || s.creates st r) s (s.step st) := by
  cases st with
  | internRule d => exact internRule_stepped h d
  | internNode id =>
    simp only [creates, Bool.or_false]
    exact (internNode_grows h id).stepped
  | ingestRow obs =>
    simp only [creates, Bool.or_false]
    exact ingestRow_stepped h obs []
  | mergeRow obs =>
    simp only [creates, Bool.or_false]
    exact mergeRow_stepped h obs []
  | expireSlot cur live x =>
    obtain ⟨hs, hv⟩ := expireStep_spec h cur live [] x
    simp only [creates, Bool.or_false]
    refine hs.stepped fun y => ?_
    rw [hv]
    split_ifs
    · exact .inl rfl
    · exact .inr rfl
  | clearSlot x =>
    simp only [creates, Bool.or_false, step]
    split_ifs with hx
    · obtain ⟨hs, hv⟩ := freeCellAt_spec h hx
      refine hs.stepped fun y => ?_
      rw [hv, update_apply]
      split_ifs
      · exact .inl rfl
      · exact .inr rfl
    · exact (Grows.refl h).stepped
  | clearDirty =>
    simp only [creates, Bool.or_false]
    exact ⟨h, fun hl => ⟨DirtyRing.all_clear _, DirtyRing.all_clear _, hl.3, hl.4, hl.5⟩, rfl, rfl,
      rfl, .of_view rfl fun _ => .inr rfl⟩
  | resetSelection =>
    simp only [creates, Bool.or_false]
    exact ⟨h, fun hl => ⟨hl.1, hl.2, h.pos, fun _ => le_rfl, Nat.two_pow_pos 32⟩, rfl, rfl, rfl,
      .of_view rfl fun _ => .inr rfl⟩
  | fillFrame maxCells dest =>
    simp only [creates, Bool.or_false, step]
    rw [fillFrameFor_eq]
    exact (sameData_fillFrame s _ maxCells).stepped h fun hl => fillFrame_lanes hl _ maxCells
  | visitRepairSlice maxCells visit =>
    simp only [creates, Bool.or_false]
    exact (sameData_visitRepairSlice s maxCells visit).stepped h fun hl =>
      visitRepairSlice_lanes hl maxCells visit
  | setFrontiers table =>
    simp only [creates, Bool.or_false]
    exact ⟨h, fun hl => ⟨hl.1, hl.2, hl.3, hl.4, hl.5⟩, rfl, rfl, rfl, .of_view rfl fun _ => .inr rfl⟩

/-! ## Whole runs -/

/-- What every step of a run keeps holds of the store it ends in. -/
theorem runSteps_induct {P : CellStore w → Prop}
    (hstep : ∀ (s : CellStore w) pins st, s.toCellTable.Inv pins → P s → P (s.step st))
    (h : s.toCellTable.Inv pins) (hP : P s) (steps : List (StoreStep w)) : P (s.runSteps steps) := by
  induction steps generalizing s pins with
  | nil => exact hP
  | cons st steps ih => exact ih (step_spec h st).inv (hstep s pins st h hP)

/-- **The invariant after a run**: the rule slots with a reference of their own are those that
    an `intern_rule` call has created. -/
theorem runSteps_inv (h : s.toCellTable.Inv pins) (steps : List (StoreStep w)) :
    (s.runSteps steps).toCellTable.Inv fun r => pins r || s.created steps r := by
  induction steps generalizing s pins with
  | nil =>
    simp only [created, Bool.or_false]
    exact h
  | cons st steps ih =>
    simp only [created, ← Bool.or_assoc]
    exact ih (step_spec h st).inv

theorem runSteps_lanes (h : s.toCellTable.Inv pins) (hl : Lanes s) (steps : List (StoreStep w)) :
    Lanes (s.runSteps steps) :=
  runSteps_induct (fun _ _ st h hl => (step_spec h st).lanes hl) h hl steps

/-- Every store reached by public calls satisfies the invariants. -/
theorem publicRun_inv {config : CellStoreConfig} {id : NodeIdentity} {s₀ : CellStore w}
    (hnew : new w config id = some s₀) (calls : List (PublicCall w)) :
    ∃ pins, (s₀.publicRun calls).toCellTable.Inv pins ∧ Lanes (s₀.publicRun calls) := by
  obtain ⟨h0, hl, -⟩ := new_spec hnew
  obtain ⟨steps, hsteps⟩ := publicRun_steps s₀ calls
  rw [hsteps]
  exact ⟨_, runSteps_inv h0 steps, runSteps_lanes h0 hl steps⟩

end CellStore

end Gabion
