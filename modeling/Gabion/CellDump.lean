/-
  The dump of all cells that the admin channel gives out (`build_cell_dump` in
  `gossip/runtime.rs`, `gossip/admin.rs`).

  The dump walks the slots and looks up rule and origin of every active cell; the lookups may
  fail, and the dump has values for that.  They are never used: along every run of the loop, the
  dump is the map the store stands for (`cell_dump_exact`).
-/
import Gabion.RuntimeStep
import Gabion.TickFrames

namespace Gabion

variable {w : CountWidth}

/-- The active cells, in storage order. -/
def CellTable.activeHandles (t : CellTable w) : List CellHandle :=
  (List.range t.capacity).filterMap fun i => if t.isActive i then some (t.handleFor i) else none

structure CellDumpEntry where
  ruleFingerprint : Fingerprint
  keyHash : KeyHash
  bucket : BucketEpoch
  count : ℕ
  lastUpdateMillis : ℕ
  originSequence : ℕ
  originNodeId : Option NodeId
  originIncarnation : Option Incarnation
  ruleWindowMillis : ℕ
  ruleBucketMillis : ℕ
  ruleLimit : ℕ
  appliesLocally : Bool

structure CellDumpSnapshot where
  localIdentity : NodeIdentity
  cells : List CellDumpEntry

/-- The entry of a cell, with what the dictionaries know of its rule and its origin. -/
def CellDumpEntry.of (row : Cell) (rule : Option RuleDescriptor) (origin : Option NodeIdentity) :
    CellDumpEntry where
  ruleFingerprint := (rule.map RuleDescriptor.fingerprint).getD 0
  keyHash := row.key.keyHash
  bucket := row.key.bucket
  count := row.count
  lastUpdateMillis := row.lastUpdateMillis
  originSequence := row.originSequence
  originNodeId := origin.map NodeIdentity.nodeId
  originIncarnation := origin.map NodeIdentity.incarnation
  ruleWindowMillis := (rule.map RuleDescriptor.windowMillis).getD 0
  ruleBucketMillis := (rule.map RuleDescriptor.bucketMillis).getD 0
  ruleLimit := (rule.map RuleDescriptor.limit).getD 0
  appliesLocally := (rule.map RuleDescriptor.appliesLocally).getD false

def Runtime.buildCellDump (r : Runtime w) : CellDumpSnapshot where
  localIdentity := r.store.localIdentity
  cells := r.store.activeHandles.filterMap fun handle => (r.store.get handle).map fun row =>
    .of row (r.store.ruleDictionary.descriptor row.key.rule)
      (r.store.nodeDictionary.descriptor row.key.origin)

/-- The cell that an entry speaks of, if it names the origin. -/
def CellDumpEntry.id? (e : CellDumpEntry) : Option CellId := do
  let nodeId ← e.originNodeId
  let incarnation ← e.originIncarnation
  return { ruleFingerprint := e.ruleFingerprint, keyHash := e.keyHash, bucket := e.bucket, nodeId,
           incarnation }

namespace CellTable

variable {pins : ℕ → Bool} {t : CellTable w} {x : ℕ}

/-- The entry of a slot. -/
def dumpEntry (t : CellTable w) (x : ℕ) : CellDumpEntry :=
  .of (t.cells x) (some (t.ruleDictionary.descriptors (t.cells x).key.rule))
    (some (t.nodeDictionary.descriptors (t.cells x).key.origin))

theorem Inv.dumpEntry_id? (h : t.Inv pins) (hx : t.isActive x = true) :
    (t.dumpEntry x).id? = some (t.idOf x) := by
  rw [idOf, idOfKey, h.incarnation x hx]
  rfl

/-- **The dump of a table**: one entry for each active slot, and no lookup fails. -/
theorem Inv.dump_eq (h : t.Inv pins) : (t.activeHandles.filterMap fun handle =>
      (t.get handle).map fun row => CellDumpEntry.of row
        (t.ruleDictionary.descriptor row.key.rule) (t.nodeDictionary.descriptor row.key.origin)) =
    ((List.range t.capacity).filter fun x => t.isActive x).map t.dumpEntry := by
  rw [activeHandles, List.filterMap_filterMap, ← List.filterMap_eq_map, ← List.filterMap_eq_filter,
    List.filterMap_filterMap]
  refine List.filterMap_congr fun x _ => ?_
  by_cases hx : t.isActive x = true
  · have hnode := h.nodes.descriptor_of_pos (h.node_pos hx)
    simp [hx, get, h.resolve_handleFor hx, h.descriptor_rule hx, hnode, dumpEntry]
  · simp [hx, Option.guard]

end CellTable

/-- **The cell dump is exact.**  Along every run of the loop, on any store that calls can lead to:
    no two entries of the dump speak of the same cell, every entry names its origin, and the
    entries are those of the map the store stands for.  Each entry has the parameters under which
    the rule dictionary has its fingerprint. -/
theorem cell_dump_exact {r r' : Runtime w} {env : Platform} {arms : List (ℕ × ArmOutcome)}
    (hs : r.store.Reachable) (hr : r.run env arms = some r') :
    (r'.buildCellDump.cells.map CellDumpEntry.id?).Nodup ∧
    (∀ e ∈ r'.buildCellDump.cells, e.id?.isSome ∧ ∃ slot rule,
      r'.store.ruleDictionary.find e.ruleFingerprint = some slot ∧
      r'.store.ruleDictionary.descriptor slot = some rule ∧
      e.ruleWindowMillis = rule.windowMillis ∧ e.ruleBucketMillis = rule.bucketMillis ∧
      e.ruleLimit = rule.limit ∧ e.appliesLocally = rule.appliesLocally) ∧
    ∀ id count, r'.store.toMap id = WithBot.some count ↔
      ∃ e ∈ r'.buildCellDump.cells, e.id? = some id ∧ e.count = count := by
  obtain ⟨pins, h, -⟩ := (Runtime.run_reachable hs hr).inv
  have hcells : r'.buildCellDump.cells =
      ((List.range r'.store.capacity).filter fun x => r'.store.isActive x).map
        r'.store.dumpEntry := h.dump_eq
  have hmem : ∀ e, e ∈ r'.buildCellDump.cells ↔
      ∃ x, r'.store.isActive x = true ∧ r'.store.dumpEntry x = e := by
    intro e
    rw [hcells, List.mem_map]
    constructor
    · rintro ⟨x, hx, rfl⟩
      exact ⟨x, (List.mem_filter.1 hx).2, rfl⟩
    · rintro ⟨x, hx, rfl⟩
      exact ⟨x, List.mem_filter.2 ⟨List.mem_range.2 (h.lt hx), hx⟩, rfl⟩
  refine ⟨?_, ?_, ?_⟩
  · rw [hcells, List.map_map]
    refine List.Nodup.map_on ?_ (List.nodup_range.filter _)
    intro x hx y hy heq
    have hx := (List.mem_filter.1 hx).2
    have hy := (List.mem_filter.1 hy).2
    rw [Function.comp_apply, Function.comp_apply, h.dumpEntry_id? hx, h.dumpEntry_id? hy] at heq
    exact h.idOf_inj hx hy (Option.some.inj heq)
  · intro e he
    obtain ⟨x, hx, rfl⟩ := (hmem e).1 he
    refine ⟨by rw [h.dumpEntry_id? hx]; rfl, (r'.store.cells x).key.rule, _, ?_,
      h.descriptor_rule hx, rfl, rfl, rfl, rfl⟩
    exact h.rules.find_iff.2 ⟨h.rule_live hx, rfl⟩
  · intro id count
    rw [h.toMap_eq_coe]
    constructor
    · rintro ⟨x, hx, rfl, rfl⟩
      exact ⟨_, (hmem _).2 ⟨x, hx, rfl⟩, h.dumpEntry_id? hx, rfl⟩
    · rintro ⟨e, he, hid, rfl⟩
      obtain ⟨x, hx, rfl⟩ := (hmem e).1 he
      rw [h.dumpEntry_id? hx, Option.some.injEq] at hid
      exact ⟨x, hx, hid, rfl⟩

/-- A node with two keys: two entries, which are what the store holds. -/
theorem cell_dump_exact_pair : ∃ (s₀ : CellStore .u32) (r : Runtime .u32),
    Runtime.twoKeys GossipSettings.default = some (s₀, r) ∧ r.buildCellDump.cells.length = 2 ∧
    (r.buildCellDump.cells.map CellDumpEntry.id?).Nodup ∧
    ∀ id count, r.store.toMap id = WithBot.some count ↔
      ∃ e ∈ r.buildCellDump.cells, e.id? = some id ∧ e.count = count := by
  have heval : ((Runtime.twoKeys GossipSettings.default).map fun p =>
      p.2.buildCellDump.cells.length) = some 2 := by decide +kernel
  obtain ⟨⟨s₀, r⟩, htwo, hlen⟩ := Option.map_eq_some_iff.1 heval
  obtain ⟨hnew, hrun⟩ := Runtime.twoKeys_eq_some htwo
  obtain ⟨hnodup, -, hmap⟩ := cell_dump_exact ⟨_, _, s₀, _, hnew, rfl⟩ hrun
  exact ⟨s₀, r, htwo, hlen, hnodup, hmap⟩

end Gabion
