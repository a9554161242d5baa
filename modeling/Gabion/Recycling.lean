/-
  Recycled node slots in a running node.

  An iteration of the loop is at most one call on the cell table, and what it does besides
  (frames, acknowledgements, peers that leave) is `Still`: acknowledgements are written for
  identities the dictionary finds, so never for a free node slot.  So the history of a run is
  the history of its table calls (`history`), and the invariant of a store and its history
  holds along every run (`run_remembered`).
-/
import Gabion.History
import Gabion.RingOverflow
import Gabion.RuntimeStep
import Gabion.Agreement

namespace Gabion

open Function

variable {w : CountWidth}

/-! ## Frontier writes -/

namespace PeerFrontierTable

variable {t : PeerFrontierTable} {o n : ℕ}

theorem flatIndex_inj {p q : ℕ} (ho : o < t.nodeCapacity) (hn : n < t.nodeCapacity) :
    t.flatIndex q o = t.flatIndex p n ↔ q = p ∧ o = n := by
  refine ⟨fun he => ?_, fun h => by rw [h.1, h.2]⟩
  have hmod := congrArg (· % t.nodeCapacity) he
  simp only [flatIndex, Nat.mul_add_mod_of_lt ho, Nat.mul_add_mod_of_lt hn] at hmod
  subst hmod
  exact ⟨Nat.eq_of_mul_eq_mul_right (Nat.zero_lt_of_lt ho) (Nat.add_right_cancel he), rfl⟩

/-- An acknowledgement for one node slot leaves the columns of the others. -/
theorem Forgets.recordAcked (h : t.Forgets o) (ho : o < t.nodeCapacity) (hn : n < t.nodeCapacity)
    (hne : o ≠ n) (p seq : ℕ) : (t.recordAcked p n seq).Forgets o := by
  intro q hq
  obtain ⟨hacked, hsent⟩ := h q hq
  refine ⟨?_, hsent⟩
  have hflat : t.flatIndex q o ≠ t.flatIndex p n := fun he => hne ((flatIndex_inj ho hn).1 he).2
  show raise t.lastAckedSeq (t.flatIndex p n) seq (t.flatIndex q o) = 0
  unfold raise
  split_ifs
  · rw [update_of_ne hflat]; exact hacked
  · exact hacked

theorem internPeer_spec (t : PeerFrontierTable) (peer : NodeId) :
    (t.internPeer peer).1.nodeCapacity = t.nodeCapacity ∧
      ∀ o, t.Forgets o → (t.internPeer peer).1.Forgets o := by
  unfold internPeer
  split
  · exact ⟨rfl, fun _ => id⟩
  · split
    · exact ⟨rfl, fun _ => id⟩
    · exact ⟨rfl, fun _ => id⟩

theorem removePeer_spec (t : PeerFrontierTable) (peer : NodeId) :
    (t.removePeer peer).nodeCapacity = t.nodeCapacity ∧
      ∀ o, t.Forgets o → (t.removePeer peer).Forgets o := by
  have hzero : ∀ (f : ℕ → ℕ) base k i, f i = 0 → zeroFrom f base k i = 0 := fun f base k i hi => by
    unfold zeroFrom
    split_ifs
    · rfl
    · exact hi
  unfold removePeer
  split
  · exact ⟨rfl, fun _ => id⟩
  · exact ⟨rfl, fun o h p hp => ⟨hzero _ _ _ _ (h p hp).1, hzero _ _ _ _ (h p hp).2⟩⟩

end PeerFrontierTable

namespace CellStore

variable {pins : ℕ → Bool} {s : CellStore w} {t : PeerFrontierTable}

/-- A change of the frontiers that raises columns of node slots in use only. -/
theorem still_frontiers (hsize : t.nodeCapacity = s.peerFrontiers.nodeCapacity)
    (hf : ∀ o < s.peerFrontiers.nodeCapacity, ¬ s.nodeDictionary.Live o →
      s.peerFrontiers.Forgets o → t.Forgets o) : Still s { s with peerFrontiers := t } :=
  ⟨rfl, rfl, rfl, rfl, rfl, rfl, fun _ => id, rfl, hsize, hf⟩

/-- What follows a table call is still: acknowledgements are for node slots in use. -/
theorem FollowUp.still {t : CellStore w} {c : StoreCall w} (h : FollowUp s c)
    (ht : t.toCellTable = s.toCellTable) (hi : t.toCellTable.Inv pins)
    (hsize : t.peerFrontiers.nodeCapacity = t.nodeDictionary.capacity) : Still t (t.call c) := by
  cases h with
  | fillFrame maxCells dest =>
    show Still t (t.fillFrameFor maxCells dest).1
    rw [fillFrameFor_eq]
    exact (sameData_fillFrame t _ _).still
  | internPeer peer =>
    obtain ⟨hcap, hforgets⟩ := t.peerFrontiers.internPeer_spec peer
    exact still_frontiers hcap fun o _ _ => hforgets o
  | removePeer peer =>
    obtain ⟨hcap, hforgets⟩ := t.peerFrontiers.removePeer_spec peer
    exact still_frontiers hcap fun o _ _ => hforgets o
  | recordAcked peerSlot sequence hfind =>
    rw [← ht] at hfind
    have hlive := (hi.nodes.find_iff.1 hfind).1
    refine still_frontiers rfl fun o ho hn hz => hz.recordAcked ho ?_ ?_ peerSlot _
    · rw [hsize]
      exact hi.nodes.live_lt hlive
    · rintro rfl
      exact hn hlive

theorem FollowedBy.still {s' : CellStore w} (h : FollowedBy s s') (hi : s.toCellTable.Inv pins)
    (hsize : s.peerFrontiers.nodeCapacity = s.nodeDictionary.capacity) : Still s s' := by
  refine h.induct (P := fun t => Still s t) (.refl s) fun t c ht hc hstill => ?_
  refine hstill.trans (hc.still ht (ht ▸ hi) ?_)
  rw [hstill.frontierSize, hstill.nodeCapacity, hsize]

/-- Only `frontier` calls write the frontiers directly. -/
theorem setFrontiers_mem_callSteps {c : StoreCall w} (h : .setFrontiers t ∈ s.callSteps c) :
    ∃ f, c = .frontier f := by
  cases c with
  | frontier f => exact ⟨f, rfl⟩
  | _ => simp [callSteps] at h

theorem setFrontiers_mem_stepsOf {calls : List (StoreCall w)}
    (h : .setFrontiers t ∈ s.stepsOf calls) : ∃ f, .frontier f ∈ calls := by
  induction calls generalizing s with
  | nil => cases h
  | cons c cs ih =>
    rcases List.mem_append.1 h with h | h
    · obtain ⟨f, rfl⟩ := setFrontiers_mem_callSteps h
      exact ⟨f, List.mem_cons_self ..⟩
    · obtain ⟨f, hf⟩ := ih h
      exact ⟨f, List.mem_cons_of_mem _ hf⟩

/-- Calls on a new store, none of them a direct frontier write. -/
theorem remembered_run {config : CellStoreConfig} {id : NodeIdentity} {s₀ : CellStore w}
    (hnew : new w config id = some s₀) {calls : List (StoreCall w)}
    (hcalls : ∀ f, .frontier f ∉ calls) :
    Remembered (s₀.run calls) (History.empty.afterSteps s₀ (s₀.stepsOf calls)) := by
  rw [run_eq_steps]
  refine (remembered_new hnew).steps _ fun t ht => ?_
  obtain ⟨f, hf⟩ := setFrontiers_mem_stepsOf ht
  exact hcalls f hf

end CellStore

namespace Runtime

open CellStore (Remembered)

variable {env : Platform} {r r' : Runtime w} {pins : ℕ → Bool}

/-! ## The history of a run -/

/-- What an iteration adds to the history: the steps of its table call. -/
def noted (env : Platform) (r : Runtime w) (now : ℕ) (arm : ArmOutcome) (h : History) : History :=
  (r.tableCall env now (r.firedArm arm)).elim h fun c => h.afterSteps r.store (r.store.callSteps c)

def history (env : Platform) : Runtime w → List (ℕ × ArmOutcome) → History → History
  | _, [], h => h
  | r, (now, arm) :: rest, h =>
    (r.iteration env now arm).elim h fun r' => history env r' rest (r.noted env now arm h)

variable {h : History}

theorem storeAfter_remembered (hm : Remembered r.store h) {call : Option (StoreCall w)}
    (hloop : LoopCall call) : Remembered (r.storeAfter call)
      (call.elim h fun c => h.afterSteps r.store (r.store.callSteps c)) := by
  cases hcase : call with
  | none => exact hm
  | some c =>
    have hsteps := hm.steps (r.store.callSteps c) fun t ht => by
      obtain ⟨f, rfl⟩ := CellStore.setFrontiers_mem_callSteps ht
      rw [hcase] at hloop
      cases hloop
    rwa [← CellStore.call_eq_steps] at hsteps

theorem iteration_remembered {now : ℕ} {arm : ArmOutcome} (hb : Between pins r)
    (hm : Remembered r.store h) (hr : r.iteration env now arm = some r') :
    Remembered r'.store (r.noted env now arm h) := by
  have hcall := storeAfter_remembered hm (tableCall_loopCall env r now (r.firedArm arm))
  obtain ⟨pins, hi⟩ := hcall.inv
  exact hcall.still (hb.iteration hr).inv ((iteration_follows hr).still hi hcall.recycled.size)

/-- **The invariant holds along every run.** -/
theorem run_remembered {arms : List (ℕ × ArmOutcome)} (hb : Between pins r)
    (hm : Remembered r.store h) (hr : r.run env arms = some r') :
    Remembered r'.store (r.history env arms h) := by
  induction arms generalizing r h with
  | nil =>
    cases hr
    exact hm
  | cons arm rest ih =>
    obtain ⟨now, arm⟩ := arm
    obtain ⟨r₁, h₁, hr⟩ := Option.bind_eq_some_iff.1 hr
    rw [history, h₁]
    exact ih (hb.iteration h₁) (iteration_remembered hb hm h₁) hr

/-- **A recycled origin slot inherits nothing.**  In every state of every run, from a store on
    which any calls but direct frontier writes have been made: free node slots have counter
    zero and nothing acknowledged or sent; the sequences of an origin's cells are at most its
    counter and, below the largest value, distinct; and the entries on the rings, with the
    lifetimes they were pushed in, are current at most once for each cell. -/
theorem recycled_slot_inherits_nothing (env : Platform) (config : CellStoreConfig)
    (id : NodeIdentity) (s₀ : CellStore w) (hnew : CellStore.new w config id = some s₀)
    (calls : List (StoreCall w)) (hcalls : ∀ f, .frontier f ∉ calls) (gossip : GossipConfig)
    (aggregates : DashMapStore) (arms : List (ℕ × ArmOutcome)) (r : Runtime w)
    (hr : (fromParts gossip (s₀.run calls) aggregates).run env arms = some r) :
    let s := r.store
    let h := (fromParts gossip (s₀.run calls) aggregates).history env arms
      (History.empty.afterSteps s₀ (s₀.stepsOf calls))
    (∃ free, Slots.Chain s.nodeDictionary.freeNext s.nodeDictionary.freeHead free ∧
      ∀ o ∈ free, s.nextSequenceByOrigin o = 0 ∧ ∀ p < s.peerFrontiers.peerCapacity,
        s.peerFrontiers.lastAcked p o = 0 ∧ s.peerFrontiers.lastSent p o = 0) ∧
    (∀ x, s.isActive x = true →
      (s.cells x).originSequence ≤ s.nextSequenceByOrigin (s.cells x).key.origin) ∧
    (∀ x y, s.isActive x = true → s.isActive y = true → x ≠ y →
      (s.cells x).key.origin = (s.cells y).key.origin →
      s.nextSequenceByOrigin (s.cells x).key.origin < u64Max →
      (s.cells x).originSequence ≠ (s.cells y).originSequence) ∧
    (s.localDirty.insertionOrder =
        (History.recent s.localDirty.capacity h.localPushes).map Push.entry ∧
      s.forwardedDirty.insertionOrder =
        (History.recent s.forwardedDirty.capacity h.forwardedPushes).map Push.entry) ∧
    ∀ x, (s.isActive x = true → s.nextSequenceByOrigin (s.cells x).key.origin < u64Max) →
      (h.onRings s).countP (fun p => p.entry.handle.index == x && s.currentPush h p) ≤ 1 := by
  have hstart := CellStore.remembered_run hnew hcalls
  obtain ⟨pins, hi⟩ := hstart.inv
  have hm := run_remembered (between_fromParts hi gossip aggregates) hstart hr
  obtain ⟨pins', hi'⟩ := hm.inv
  refine ⟨?_, hm.recycled.le, fun x y hx hy hne ho hlt he =>
    hne (hm.recycled.distinct x y hx hy ho hlt he), hm.recorded.rings, hm.recorded.one_current⟩
  obtain ⟨k, ⟨free, hchain, -, -, hmem⟩, -⟩ := hi'.nodes.slab.free
  refine ⟨free, hchain, fun o ho => ?_⟩
  obtain ⟨hlt, hn⟩ := (hmem o).1 ho
  exact ⟨hm.recycled.unused o hn, hm.recycled.forgets o hlt hn⟩

/-- A cell of another node ages out, and its node slot is free again. -/
theorem recycled_slot_tiny : ∃ (s₀ : CellStore .u32) (r : Runtime .u32),
    CellStore.new .u32 CellStore.tinyConfig CellStore.tinyNode = some s₀ ∧
    (fromParts tinyGossip (s₀.run [.mergeRemote [CellStore.tinyHits]]) .empty).run tinyPlatform
      [(90000, .tick)] = some r ∧
    (s₀.run [.mergeRemote [CellStore.tinyHits]]).nextSequenceByOrigin 1 = 1 ∧
    r.store.nodeDictionary.freeHead = some 1 ∧ r.store.nextSequenceByOrigin 1 = 0 := by
  have heval : (((fromParts tinyGossip (tinyStore.run [.mergeRemote [CellStore.tinyHits]])
      .empty).run tinyPlatform [(90000, .tick)]).map fun r =>
          ((tinyStore.run [.mergeRemote [CellStore.tinyHits]]).nextSequenceByOrigin 1,
            r.store.nodeDictionary.freeHead)) = some (1, some 1) := by decide +kernel
  obtain ⟨r, hrun, hvals⟩ := Option.map_eq_some_iff.1 heval
  obtain ⟨hone, hhead⟩ := Prod.mk.inj hvals
  refine ⟨tinyStore, r, tinyStore_new, hrun, hone, hhead, ?_⟩
  obtain ⟨⟨free, hchain, hfree⟩, -⟩ := recycled_slot_inherits_nothing tinyPlatform
    CellStore.tinyConfig CellStore.tinyNode tinyStore tinyStore_new
    [.mergeRemote [CellStore.tinyHits]] (fun f hf => by simp at hf) tinyGossip .empty
    [(90000, .tick)] r hrun
  cases free with
  | nil =>
    have hnil : r.store.nodeDictionary.freeHead = none := hchain
    rw [hhead] at hnil
    cases hnil
  | cons o free =>
    have hcons : r.store.nodeDictionary.freeHead = some o := hchain.1
    rw [hhead] at hcons
    cases hcons
    exact (hfree 1 (List.mem_cons_self ..)).1

/-! ## A counter that has reached its largest value -/

open CellStore (keyHit KeyHits hugeRingConfig)

/-- One hit on a key, far below the limit of its rule. -/
def keyRequest (keyHash : KeyHash) : LimitRequest where
  ruleFingerprint := 7
  keyHash
  bucket := 5
  hits := 1
  ruleLimit := 2 ^ 40
  nowMillis := 0
  reply := none

def keyArm (keyHash : KeyHash) : ℕ × ArmOutcome :=
  (0, .request (some (.limit (keyRequest keyHash))))

/-- A node whose error budget is larger than what `rule_pending` can hold. -/
structure Patient (r : Runtime .u64) : Prop where
  flush : r.wantImmediateFlush = false
  config : r.config = tinyGossip
  peers : r.peers.length = 1

theorem Patient.noteHits {r : Runtime .u64} (hp : Patient r) (k : KeyHash) :
    (r.noteHits 0 (keyRequest k)).wantImmediateFlush = false := by
  unfold Runtime.noteHits
  split
  · exact hp.flush
  · rename_i slot _
    simp only [hp.flush, hp.config, hp.peers, tinyGossip, keyRequest, Bool.false_or,
      Bool.and_eq_false_iff, decide_eq_false_iff_not, not_lt]
    left
    exact (min_le_right _ _).trans (by decide)

theorem Patient.iteration {r : Runtime .u64} (hp : Patient r) (k : KeyHash) :
    ∃ r', r.iteration tinyPlatform (keyArm k).1 (keyArm k).2 = some r' ∧ Patient r' ∧
      r'.store = r.store.step (.ingestRow (keyHit k)) := by
  have hrun : r.iteration tinyPlatform (keyArm k).1 (keyArm k).2 =
      some (r.handleLimitRequest 0 (keyRequest k)).finish := by
    simp only [Runtime.iteration, hp.flush]
    rfl
  obtain ⟨pending, budget, flush, hnote⟩ := r.noteHits_cases 0 (keyRequest k)
  have hflush := hp.noteHits k
  rw [hnote] at hflush
  have hhandle : ∃ sink, r.handleLimitRequest 0 (keyRequest k) = { r with
      rulePending := pending, lastErrorBudget := budget, wantImmediateFlush := flush
      store := r.store.step (.ingestRow (keyHit k)), sinkBuf := sink, pendingReply := none } := by
    unfold handleLimitRequest
    rw [hnote]
    exact ⟨_, rfl⟩
  obtain ⟨sink, hhandle⟩ := hhandle
  refine ⟨_, hrun, ?_, ?_⟩
  · rw [hhandle]
    unfold Runtime.finish
    dsimp only
    split_ifs
    · exact ⟨hflush, hp.config, hp.peers⟩
    · exact ⟨hflush, hp.config, hp.peers⟩
  · rw [finish_store, hhandle]

/-- Hits on some keys are rows of them, for the store and for the history. -/
theorem Patient.run {r : Runtime .u64} (hp : Patient r) (ks : List KeyHash) (h : History) :
    ∃ r', r.run tinyPlatform (ks.map keyArm) = some r' ∧
      r'.store = r.store.runSteps (ks.map fun k => .ingestRow (keyHit k)) ∧
      r.history tinyPlatform (ks.map keyArm) h =
        h.afterSteps r.store (ks.map fun k => .ingestRow (keyHit k)) := by
  induction ks generalizing r h with
  | nil => exact ⟨r, rfl, rfl, rfl⟩
  | cons k ks ih =>
    obtain ⟨r₁, h₁, hp₁, hstore⟩ := hp.iteration k
    have hfired : r.firedArm (keyArm k).2 = (keyArm k).2 := by
      unfold firedArm
      rw [hp.flush]
      rfl
    have hnoted : r.noted tinyPlatform (keyArm k).1 (keyArm k).2 h =
        h.after r.store (.ingestRow (keyHit k)) := by
      unfold noted
      rw [hfired]
      rfl
    obtain ⟨r₂, h₂, hstore₂, hhist⟩ := ih hp₁ (h.after r.store (.ingestRow (keyHit k)))
    refine ⟨r₂, ?_, ?_, ?_⟩
    · rw [List.map_cons, ← Prod.mk.eta (p := keyArm k), Runtime.run, h₁]
      exact h₂
    · rw [hstore₂, hstore]
      rfl
    · rw [List.map_cons, ← Prod.mk.eta (p := keyArm k), Runtime.history, h₁]
      show r₁.history tinyPlatform (ks.map keyArm) (r.noted tinyPlatform _ _ h) = _
      rw [hnoted, hhist, hstore]
      rfl

/-- The counter of the local node has reached its largest value; the cell in slot 0 has not. -/
structure Exhausted (c : ℕ) (s : CellStore .u64) : Prop where
  inv : ∃ pins, s.toCellTable.Inv pins
  capacity : s.capacity = 3
  generation : s.generations 0 = 1
  id0 : s.idOf 0 = (keyHit 0).localId s.localIdentity
  count : (s.cells 0).count = c
  next : s.nextSequenceByOrigin s.localNodeSlot = u64Max
  size : s.localDirty.capacity = 2 ^ 32 - 1

theorem exhausted_of_hits {s : CellStore .u64} (h : KeyHits (u64Max - 1) s) : Exhausted 1 s :=
  ⟨h.inv, h.capacity, h.gen0, h.id0, h.count0, h.next, h.size⟩

/-- What a hit on key 0 pushes then. -/
def lastPush (lifetime : ℕ) : Push where
  entry := { handle := ⟨0, 1⟩, originSequence := u64Max }
  lifetime

/-- One more hit gives the cell the same sequence again. -/
theorem Exhausted.step {s : CellStore .u64} {c : ℕ} (hx : Exhausted c s) (hc : c < u64Max)
    (h : History) :
    let s' := s.step (.ingestRow (keyHit 0))
    let h' := h.after s (.ingestRow (keyHit 0))
    Exhausted (c + 1) s' ∧ (s'.cells 0).originSequence = u64Max ∧
      h'.localPushes = h.localPushes ++ [lastPush (h.lifetimes 0)] ∧
      h'.lifetimes 0 = h.lifetimes 0 := by
  obtain ⟨pins, hi⟩ := hx.inv
  have hactive : s.isActive 0 = true := by rw [CellTable.isActive, hx.generation]; rfl
  have hseq : s.nextSequence s.localNodeSlot = u64Max := by
    rw [CellStore.nextSequence, hx.next]
    exact min_eq_right (Nat.le_succ _)
  have hhit := CellStore.hit_of_key hi hactive hx.id0 hx.count hc
  obtain ⟨delta, hresult⟩ := hhit.result
  have hentry : s.stepEntry (.ingestRow (keyHit 0)) = some (lastPush 0).entry := by
    have hcell : ((s.ingestRow (keyHit 0) []).1.cells 0).originSequence = u64Max :=
      hhit.sequence.trans hseq
    rw [CellStore.stepEntry, hresult, CellStore.rowEntry, CellTable.handleFor, hx.generation, lastPush,
      ← hcell]
    rfl
  have hlife : h.lifetimesAfter s (s.step (.ingestRow (keyHit 0))) 0 = h.lifetimes 0 := by
    rw [History.lifetimesAfter, hactive]
    simp
  have hafter : h.after s (.ingestRow (keyHit 0)) =
      h.note s (s.step (.ingestRow (keyHit 0))) (some (lastPush 0).entry) := by
    rw [← hentry]
    rfl
  refine ⟨⟨hhit.inv, hhit.capacity.trans hx.capacity, ?_, ?_, hhit.count, ?_, ?_⟩,
    hhit.sequence.trans hseq, ?_, ?_⟩
  · rw [hhit.generations, hx.generation]
  · rw [hhit.ids 0 hactive, hhit.localIdentity, hx.id0]
  · rw [hhit.localNodeSlot, hhit.next, hseq]
  · rw [hhit.localDirty, DirtyRing.capacity_push, hx.size]
  · have hlocal := hhit.origin.trans hhit.localNodeSlot.symm
    rw [hafter, History.note_local (e := (lastPush 0).entry) hlocal]
    show _ ++ [Push.mk _ (h.lifetimesAfter s _ 0)] = _
    rw [hlife]
    rfl
  · rw [hafter, History.note_lifetimes, hlife]

/-- Two hits in that state leave two current entries for the cell. -/
theorem Exhausted.twice {s : CellStore .u64} (hx : Exhausted 1 s) (h : History) :
    let s' := s.runSteps [.ingestRow (keyHit 0), .ingestRow (keyHit 0)]
    let h' := h.afterSteps s [.ingestRow (keyHit 0), .ingestRow (keyHit 0)]
    1 < (h'.onRings s').countP fun p => p.entry.handle.index == 0 && s'.currentPush h' p := by
  obtain ⟨hx₁, -, hlog₁, hlife₁⟩ := hx.step (by decide) h
  obtain ⟨hx₂, hseq, hlog₂, hlife₂⟩ := hx₁.step (by decide) (h.after s (.ingestRow (keyHit 0)))
  dsimp only [CellStore.runSteps, List.foldl_cons, List.foldl_nil, History.afterSteps]
  rw [hlog₁, hlife₁, List.append_assoc] at hlog₂
  rw [hlife₁] at hlife₂
  generalize (s.step (.ingestRow (keyHit 0))).step (.ingestRow (keyHit 0)) = s' at hx₂ hseq ⊢
  generalize (h.after s (.ingestRow (keyHit 0))).after _ _ = h' at hlog₂ hlife₂ ⊢
  generalize h.lifetimes 0 = life at hlog₂ hlife₂
  have hcurrent : s'.currentPush h' (lastPush life) = true := by
    simp [lastPush, CellStore.currentPush, CellStore.dirtyEntryCurrent, hx₂.capacity,
      hx₂.generation, hseq, hlife₂]
  have hrecent : History.recent s'.localDirty.capacity h'.localPushes =
      History.recent (2 ^ 32 - 3) h.localPushes ++ [lastPush life, lastPush life] := by
    have hlength : (h.localPushes ++ ([lastPush life] ++ [lastPush life])).length - (2 ^ 32 - 1) =
        h.localPushes.length - (2 ^ 32 - 3) := by
      simp only [List.length_append, List.length_cons, List.length_nil]
      omega
    rw [History.recent, hx₂.size, hlog₂, hlength, List.drop_append_of_le_length (Nat.sub_le ..)]
    rfl
  have htwo : [lastPush life, lastPush life].countP
      (fun p => p.entry.handle.index == 0 && s'.currentPush h' p) = 2 := by
    simp only [List.countP_cons, hcurrent]
    rfl
  rw [History.onRings, hrecent, List.countP_append, List.countP_append]
  omega

/-- The hits of such a run: a first one on key 0, then on key 1 until the counter is at its
    end, and two more on key 0. -/
def exhaustingHits (k : ℕ) : List KeyHash := [0, 1] ++ List.replicate k 1 ++ [0, 0]

theorem exhaustingHits_steps (k : ℕ) :
    (exhaustingHits k).map (fun key => StoreStep.ingestRow (keyHit key)) =
      [.ingestRow (keyHit 0), .ingestRow (keyHit 1)] ++ List.replicate k (.ingestRow (keyHit 1)) ++
        [.ingestRow (keyHit 0), .ingestRow (keyHit 0)] := by
  simp [exhaustingHits]

theorem afterSteps_append (h : History) (s : CellStore w) (steps steps' : List (StoreStep w)) :
    h.afterSteps s (steps ++ steps') =
      (h.afterSteps s steps).afterSteps (s.runSteps steps) steps' := by
  induction steps generalizing h s with
  | nil => rfl
  | cons st steps ih => exact ih (h.after s st) (s.step st)

theorem exhausted_run {s₀ : CellStore .u64} (hone : KeyHits 1
      (s₀.runSteps [.ingestRow (keyHit 0), .ingestRow (keyHit 1)])) {k : ℕ} (hk : k + 2 = u64Max) :
    ∃ r, (fromParts tinyGossip s₀ .empty).run tinyPlatform ((exhaustingHits k).map keyArm) = some r ∧
      let h := (fromParts tinyGossip s₀ .empty).history tinyPlatform
        ((exhaustingHits k).map keyArm) .empty
      1 < (h.onRings r.store).countP fun p =>
        p.entry.handle.index == 0 && r.store.currentPush h p := by
  have hpatient : Patient (fromParts tinyGossip s₀ .empty) := ⟨rfl, rfl, rfl⟩
  obtain ⟨r, hrun, hstore, hhist⟩ := hpatient.run (exhaustingHits k) .empty
  refine ⟨r, hrun, ?_⟩
  have hmany := hone.steps (k := k) (by omega)
  rw [← CellStore.runSteps_append, show 1 + k = u64Max - 1 by omega] at hmany
  rw [exhaustingHits_steps, CellStore.runSteps_append] at hstore
  rw [exhaustingHits_steps, afterSteps_append] at hhist
  dsimp only
  rw [hhist, hstore]
  exact (exhausted_of_hits hmany).twice _

/-- **Entries of one sequence.**  After `2 ^ 64 - 1` changes of a node its counter stays where
    it is.  Two further hits on one cell leave two entries that are both current for it, and
    the slot has not begun another lifetime since either push. -/
theorem exhausted_counter_repeats : ∃ (s₀ : CellStore .u64) (r : Runtime .u64),
    CellStore.new .u64 hugeRingConfig CellStore.tinyNode = some s₀ ∧
    (fromParts tinyGossip s₀ .empty).run tinyPlatform
      ((exhaustingHits (u64Max - 2)).map keyArm) = some r ∧
    let h := (fromParts tinyGossip s₀ .empty).history tinyPlatform
      ((exhaustingHits (u64Max - 2)).map keyArm) .empty
    1 < (h.onRings r.store).countP fun p =>
      p.entry.handle.index == 0 && r.store.currentPush h p := by
  obtain ⟨s₀, hnew, hone⟩ := CellStore.keyHits_one
  obtain ⟨r, hrun, hcount⟩ := exhausted_run hone (k := u64Max - 2) (by unfold u64Max; omega)
  exact ⟨s₀, r, hnew, hrun, hcount⟩

end Runtime

end Gabion
