/-
  Slots and references over the whole life of a store.

  `Lifecycle` is what the columns of a store say about each other without any reference to
  how it was reached: parities, free list, index and keys.  It holds after any public calls
  (`slot_lifecycle`).  `references_follow_cells` is the same for the dictionaries: reference
  counts are the active cells, and so a cell's rule and origin stay what they are.
-/
import Gabion.Refinement
import Gabion.Steps
import Gabion.Sweep

namespace Gabion

open Function Slots

variable {w : CountWidth}

/-! ## Slots -/

/-- The free list, the index and the keys of the active cells fit together. -/
structure CellTable.Lifecycle (t : CellTable w) : Prop where
  /-- The links from `free_head` on form a list without repetition, which ends, and which
      has exactly the slots of even generation. -/
  freelist : ∃ free, Chain t.freeNext t.freeHead free ∧ free.Nodup ∧
    ∀ x, x ∈ free ↔ x < t.capacity ∧ t.generations x % 2 = 0
  /-- The active slots are those of odd generation. -/
  active_iff : ∀ x, t.isActive x = true ↔ x < t.capacity ∧ t.generations x % 2 = 1
  activeLen : t.activeLen = (CellStore.activeSlots t).card
  /-- An active slot has one bucket of the index. -/
  bucket : ∀ x, t.isActive x = true →
    ∃! i, i < t.index.capacity ∧ ∃ hash, t.index.buckets i = some (hash, x)
  /-- A bucket holds the hash of the key of an active slot. -/
  hash : ∀ i < t.index.capacity, ∀ hash x, t.index.buckets i = some (hash, x) →
    t.isActive x = true ∧ hash = hashCompactCellKey (t.cells x).key
  lookup : ∀ x, t.isActive x = true → t.lookupIndex (t.cells x).key = some x
  key_inj : ∀ x y, t.isActive x = true → t.isActive y = true →
    (t.cells x).key = (t.cells y).key → x = y

theorem CellTable.Inv.lifecycle {pins : ℕ → Bool} {t : CellTable w} (h : t.Inv pins) :
    t.Lifecycle := by
  have hash : ∀ i < t.index.capacity, ∀ hash x, t.index.buckets i = some (hash, x) →
      t.isActive x = true ∧ hash = hashCompactCellKey (t.cells x).key := fun i hi hash x hb =>
    (h.slab.contains hash x).1 ⟨i, hi, hb⟩
  refine ⟨?_, fun x => ?_, (CellStore.card_activeSlots h).symm, fun x hx => ?_, hash,
    fun x hx => h.slab.find_iff.2 ⟨hx, rfl⟩, h.slab.inj⟩
  · obtain ⟨k, ⟨free, hchain, hnodup, -, hmem⟩, -⟩ := h.slab.free
    refine ⟨free, hchain, hnodup, fun x => ?_⟩
    simp only [hmem, CellTable.isActive_eq, Nat.mod_two_ne_one]
  · exact ⟨fun hx => ⟨h.lt hx, (CellTable.isActive_eq x).1 hx⟩,
      fun hx => (CellTable.isActive_eq x).2 hx.2⟩
  · obtain ⟨i, hi, hb⟩ := (h.slab.contains _ x).2 ⟨hx, rfl⟩
    refine ⟨i, ⟨hi, _, hb⟩, ?_⟩
    -- a second bucket for the slot would hold the same entry
    rintro j ⟨hj, hash', hb'⟩
    obtain ⟨-, rfl⟩ := hash j hj hash' x hb'
    exact h.slab.wf.layout.distinct j hj i hi _ hb' hb

namespace CellStore

/-- **Slot lifecycle and index invariant**: after any public calls, with rejected rows and
    `clear` among them. -/
theorem slot_lifecycle (config : CellStoreConfig) (id : NodeIdentity) (s₀ : CellStore w)
    (hnew : new w config id = some s₀) (calls : List (PublicCall w)) :
    (s₀.publicRun calls).toCellTable.Lifecycle := by
  obtain ⟨pins, h, -⟩ := publicRun_inv hnew calls
  exact h.lifecycle

/-- Two cells fill the store, so the third row is rejected; the sweep frees one of them. -/
def crowdedCalls : List (PublicCall .u32) :=
  [.call (.ingestLocal [tinyHits, { tinyHits with bucket := 70 }, { tinyHits with bucket := 6 }]),
    .call (.expireAt 90000), .visitRepairSlice 1 fun _ => true,
    .call (.mergeRemote [tinyHits])]

theorem slot_lifecycle_crowded : ∃ s₀ : CellStore .u32, new .u32 tinyConfig tinyNode = some s₀ ∧
    (s₀.publicRun crowdedCalls).activeLen = 2 ∧
    (s₀.publicRun crowdedCalls).toCellTable.Lifecycle := by
  have hlen : (tinyStore.publicRun crowdedCalls).activeLen = 2 := by decide +kernel
  exact ⟨tinyStore, tinyStore_new, hlen, slot_lifecycle _ _ _ tinyStore_new crowdedCalls⟩

/-! ## References -/

/-- The `expect` of a row: `emit_delta` comes last and reads the rule of the cell the row has
    changed. -/
def rowExpects : CellStore w × List CellDelta × RowResult → List (CellTable w × ℕ)
  | (s', _, .ok o) =>
    if o.changed then [(s'.toCellTable, (s'.cells o.handle.index).key.rule)] else []
  | (_, _, .error _) => []

/-- The `expect`s of a step: a table, and the rule slot whose descriptor is looked up in it.
    `emit_expiration` comes before the cell is freed. -/
def expects (s : CellStore w) : StoreStep w → List (CellTable w × ℕ)
  | .ingestRow obs => rowExpects (s.ingestRow obs [])
  | .mergeRow obs => rowExpects (s.mergeRow obs [])
  | .expireSlot cur live x =>
    if s.isActive x && s.expired cur live x then [(s.toCellTable, (s.cells x).key.rule)] else []
  | _ => []

variable {pins : ℕ → Bool} {s s' : CellStore w}

theorem rowExpects_some {sink : List CellDelta} {res : RowResult} (h : s'.toCellTable.Inv pins)
    (ho : ∀ o, res = .ok o → s'.isActive o.handle.index = true) :
    ∀ p ∈ rowExpects (s', sink, res), (p.1.ruleDictionary.descriptor p.2).isSome = true := by
  cases res with
  | error e => intro p hp; cases hp
  | ok o =>
    intro p hp
    simp only [rowExpects] at hp
    split_ifs at hp with hc
    · obtain rfl := List.mem_singleton.1 hp
      rw [h.descriptor_rule (ho o rfl)]
      rfl
    · cases hp

theorem expects_some (h : s.toCellTable.Inv pins) (st : StoreStep w) :
    ∀ p ∈ s.expects st, (p.1.ruleDictionary.descriptor p.2).isSome = true := by
  cases st with
  | ingestRow obs =>
    exact rowExpects_some (ingestRow_stepped h obs []).inv ((ingestRow_runs h obs []).keys h).2
  | mergeRow obs =>
    exact rowExpects_some (mergeRow_stepped h obs []).inv ((mergeRow_runs h obs []).keys h).2
  | expireSlot cur live x =>
    intro p hp
    simp only [expects] at hp
    split_ifs at hp with hx
    · obtain rfl := List.mem_singleton.1 hp
      rw [h.descriptor_rule (Bool.and_eq_true_iff.1 hx).1]
      rfl
    · cases hp
  | _ => intro p hp; cases hp

theorem runSteps_local (h : s.toCellTable.Inv pins) (steps : List (StoreStep w)) :
    (s.runSteps steps).localNodeSlot = s.localNodeSlot ∧
      (s.runSteps steps).localIdentity = s.localIdentity := by
  refine runSteps_induct (P := fun s' => s'.localNodeSlot = s.localNodeSlot ∧
    s'.localIdentity = s.localIdentity) (fun s' _ st h' hs => ?_) h ⟨rfl, rfl⟩ steps
  have hst := step_spec h' st
  exact ⟨hst.localNodeSlot.trans hs.1, hst.localIdentity.trans hs.2⟩

/-- **Reference counting keeps every cell's identity alive**: in every store between two steps
    of a run.  The last part says that a slot in use is never handed to another identity: the
    identity a cell stands for, read through the dictionaries, stays as long as the cell. -/
theorem references_follow_cells (config : CellStoreConfig) (id : NodeIdentity) (s₀ : CellStore w)
    (hnew : new w config id = some s₀) (steps : List (StoreStep w)) :
    let s := s₀.runSteps steps
    (∀ r, s.ruleDictionary.refcounts r = s.uses (·.rule) r + (s₀.created steps r).toNat) ∧
    (∀ o, s.nodeDictionary.refcounts o =
      s.uses (·.origin) o + if o = s₀.localNodeSlot then 1 else 0) ∧
    (∀ x, s.isActive x = true →
      (s.ruleDictionary.descriptor (s.cells x).key.rule).isSome = true ∧
      (s.nodeDictionary.descriptor (s.cells x).key.origin).map NodeIdentity.incarnation =
        some (s.cells x).key.incarnation) ∧
    (∀ st, ∀ p ∈ s.expects st, (p.1.ruleDictionary.descriptor p.2).isSome = true) ∧
    (s.localNodeSlot = s₀.localNodeSlot ∧
      s.nodeDictionary.descriptor s₀.localNodeSlot = some id) ∧
    (∀ st x, s.isActive x = true → (s.step st).isActive x = true →
      ((s.step st).cells x).key = (s.cells x).key ∧ (s.step st).idOf x = s.idOf x) := by
  obtain ⟨h0, -, -, -, hid, -⟩ := new_spec hnew
  have h := runSteps_inv h0 steps
  obtain ⟨hslot, hident⟩ := runSteps_local h0 steps
  refine ⟨fun r => ?_, fun o => ?_, fun x hx => ⟨?_, ?_⟩, fun st => expects_some h st, ⟨hslot, ?_⟩,
    fun st => (step_spec h st).keeps⟩
  · simpa using h.rule_refs r
  · rw [h.node_refs, hslot]
    by_cases ho : o = s₀.localNodeSlot <;> simp [ho]
  · rw [h.descriptor_rule hx]
    rfl
  · rw [h.nodes.descriptor_of_pos (h.node_pos hx), h.incarnation x hx]
    rfl
  · have hpos : 0 < (s₀.runSteps steps).nodeDictionary.refcounts s₀.localNodeSlot := by
      rw [h.node_refs, hslot]
      simp
    have hlocal := h.local_id
    rw [hslot] at hlocal
    rw [h.nodes.descriptor_of_pos hpos, hlocal, hident, hid]

/-- A registered rule and a cell of it. -/
def registeredSteps : List (StoreStep .u32) :=
  [.internRule { RuleDescriptor.wireOnly 7 with localRuleId := 0 }, .ingestRow tinyHits]

theorem references_registered : ∃ s₀ : CellStore .u32, new .u32 tinyConfig tinyNode = some s₀ ∧
    (s₀.runSteps registeredSteps).ruleDictionary.refcounts 0 = 2 := by
  have hrun : (tinyStore.runSteps registeredSteps).uses (·.rule) 0 = 1 ∧
      tinyStore.created registeredSteps 0 = true := by decide +kernel
  obtain ⟨huses, hcreated⟩ := hrun
  refine ⟨tinyStore, tinyStore_new, ?_⟩
  have hrefs := (references_follow_cells _ _ _ tinyStore_new registeredSteps).1 0
  rw [hrefs, huses, hcreated]
  rfl

end CellStore

end Gabion
