/-
  The joint invariant of a cell table, and what one call does to the cells it holds.

  `CellTable.Inv` ties generations, free list, index and reference counts together; every
  call keeps it, also when rows are rejected.  `CellTable.view` reads the active cells as
  entries of a map; `RowEffect` and `expireStep_view` say how a row and an expiry change it.
-/
import Gabion.CellStore
import Gabion.Lib.SlotMap

namespace Gabion

open Function Slots SlotMap

/-- The identity a cell stands for in the whole cluster. -/
structure CellId where
  ruleFingerprint : Fingerprint
  keyHash : KeyHash
  bucket : BucketEpoch
  nodeId : NodeId
  incarnation : Incarnation
deriving DecidableEq, Repr

/-- The aggregate row a cell counts towards. -/
def CellId.identity (k : CellId) : CellIdentity :=
  { ruleFingerprint := k.ruleFingerprint, keyHash := k.keyHash, bucket := k.bucket }

/-- The cell `node` counts its own hits in. -/
def CellIdentity.ofNode (k : CellIdentity) (node : NodeIdentity) : CellId where
  ruleFingerprint := k.ruleFingerprint
  keyHash := k.keyHash
  bucket := k.bucket
  nodeId := node.nodeId
  incarnation := node.incarnation

namespace CellTable

variable {w : CountWidth}

section
variable (t : CellTable w)

/-- The cluster-wide identity behind a compact key. -/
def idOfKey (key : CompactCellKey) : CellId where
  ruleFingerprint := (t.ruleDictionary.descriptors key.rule).fingerprint
  keyHash := key.keyHash
  bucket := key.bucket
  nodeId := (t.nodeDictionary.descriptors key.origin).nodeId
  incarnation := key.incarnation

def idOf (x : ℕ) : CellId := t.idOfKey (t.cells x).key

/-- The active cells, as entries. -/
def view : View CellId := fun x => if t.isActive x then some (t.idOf x, (t.cells x).count) else none

/-- **The map a table stands for.** -/
def toMap : CellId → WithBot ℕ := lookup t.capacity t.view

/-- The number of active cells whose key has `f key = r`. -/
def uses (f : CompactCellKey → ℕ) (r : ℕ) : ℕ :=
  tally t.capacity fun x => t.isActive x && f (t.cells x).key == r

end

/-- **The invariant of a cell table.**  `pins` are the rule slots an `intern_rule` call
    created; they hold one reference of their own. -/
structure Inv (pins : ℕ → Bool) (t : CellTable w) : Prop where
  pos : 0 < t.capacity
  le : t.capacity ≤ 2 ^ 30
  slab : Slab hashCompactCellKey t.index t.freeNext t.freeHead t.capacity
    (fun x => t.isActive x = true) fun x => (t.cells x).key
  len_eq : t.activeLen = t.index.len
  rules : t.ruleDictionary.Wf
  nodes : t.nodeDictionary.Wf
  rule_refs : ∀ r, t.ruleDictionary.refcounts r = t.uses (·.rule) r + (pins r).toNat
  node_refs : ∀ o, t.nodeDictionary.refcounts o =
    t.uses (·.origin) o + (decide (o = t.localNodeSlot)).toNat
  local_id : t.nodeDictionary.descriptors t.localNodeSlot = t.localIdentity
  incarnation : ∀ x, t.isActive x = true → (t.cells x).key.incarnation =
    (t.nodeDictionary.descriptors (t.cells x).key.origin).incarnation
  count_le : ∀ x, t.isActive x = true → (t.cells x).count ≤ w.max

variable {pins : ℕ → Bool} {t t' : CellTable w} {x y : ℕ}

/-! ## Consequences of the invariant -/

theorem isActive_eq (x : ℕ) : t.isActive x = true ↔ t.generations x % 2 = 1 := by simp [isActive]

/-- A handle that resolves is that of an active cell. -/
theorem resolve_eq_some {handle : CellHandle} (h : t.resolve handle = some x) :
    x = handle.index ∧ handle.index < t.capacity ∧ t.isActive handle.index = true ∧
      handle = t.handleFor handle.index := by
  unfold resolve at h
  split_ifs at h with hlt hgen hodd
  cases h
  have hgen := not_not.1 hgen
  refine ⟨rfl, not_le.1 hlt, (isActive_eq _).2 (hgen ▸ not_not.1 hodd), ?_⟩
  rw [handleFor, hgen]

theorem Inv.lt (h : Inv pins t) (hx : t.isActive x = true) : x < t.capacity := h.slab.lt x hx

theorem Inv.resolve_handleFor (h : Inv pins t) (hx : t.isActive x = true) :
    t.resolve (t.handleFor x) = some x := by
  have hlt := h.lt hx
  have hodd := (isActive_eq x).1 hx
  simp [resolve, handleFor, hlt, hodd]

theorem Inv.uses_pos (h : Inv pins t) (f : CompactCellKey → ℕ) (hx : t.isActive x = true) :
    0 < t.uses f (f (t.cells x).key) :=
  tally_pos.2 ⟨x, h.lt hx, by simp [hx]⟩

theorem Inv.rule_pos (h : Inv pins t) (hx : t.isActive x = true) :
    0 < t.ruleDictionary.refcounts (t.cells x).key.rule := by
  rw [h.rule_refs]; exact Nat.add_pos_left (h.uses_pos (·.rule) hx) _

theorem Inv.node_pos (h : Inv pins t) (hx : t.isActive x = true) :
    0 < t.nodeDictionary.refcounts (t.cells x).key.origin := by
  rw [h.node_refs]; exact Nat.add_pos_left (h.uses_pos (·.origin) hx) _

/-- A cell pins its rule: the `expect`s of the source never fire. -/
theorem Inv.descriptor_rule (h : Inv pins t) (hx : t.isActive x = true) :
    t.ruleDictionary.descriptor (t.cells x).key.rule =
      some (t.ruleDictionary.descriptors (t.cells x).key.rule) :=
  h.rules.descriptor_of_pos (h.rule_pos hx)

theorem Inv.rule_live (h : Inv pins t) (hx : t.isActive x = true) :
    t.ruleDictionary.Live (t.cells x).key.rule := h.rules.live_of_pos (h.rule_pos hx)

theorem Inv.node_live (h : Inv pins t) (hx : t.isActive x = true) :
    t.nodeDictionary.Live (t.cells x).key.origin := h.nodes.live_of_pos (h.node_pos hx)

theorem Inv.local_live (h : Inv pins t) : t.nodeDictionary.Live t.localNodeSlot :=
  h.nodes.live_of_pos (by rw [h.node_refs]; simp)

theorem Inv.activeLen_eq (h : Inv pins t) : t.activeLen = tally t.capacity t.isActive := by
  obtain ⟨k, hf, hk⟩ := h.slab.free
  have hf : Free t.freeNext t.freeHead k (fun x => x < t.capacity ∧ t.isActive x = false) :=
    hf.iff fun x => by simp
  have := hf.tally_add
  rw [h.len_eq]
  omega

/-- A key whose rule and origin are interned, with the incarnation of its origin. -/
structure GoodKey (t : CellTable w) (key : CompactCellKey) : Prop where
  rule : t.ruleDictionary.Live key.rule
  origin : t.nodeDictionary.Live key.origin
  incarnation : key.incarnation = (t.nodeDictionary.descriptors key.origin).incarnation

theorem Inv.goodKey (h : Inv pins t) (hx : t.isActive x = true) : t.GoodKey (t.cells x).key :=
  ⟨h.rule_live hx, h.node_live hx, h.incarnation x hx⟩

/-- Keys of one table with the same cluster-wide identity are equal. -/
theorem Inv.idOfKey_inj (h : Inv pins t) {k k' : CompactCellKey} (hk : t.GoodKey k)
    (hk' : t.GoodKey k') (he : t.idOfKey k = t.idOfKey k') : k = k' := by
  have hnode : t.nodeDictionary.descriptors k.origin = t.nodeDictionary.descriptors k'.origin := by
    have h1 := congrArg CellId.nodeId he
    have h2 : k.incarnation = k'.incarnation := congrArg CellId.incarnation he
    rw [hk.incarnation, hk'.incarnation] at h2
    cases hd : t.nodeDictionary.descriptors k.origin
    cases hd' : t.nodeDictionary.descriptors k'.origin
    simp only [idOfKey, hd, hd'] at h1 h2
    rw [h1, h2]
  have hr := h.rules.slab.inj _ _ hk.rule hk'.rule (congrArg CellId.ruleFingerprint he)
  have ho := h.nodes.slab.inj _ _ hk.origin hk'.origin hnode
  obtain ⟨r, kh, b, o, i⟩ := k
  obtain ⟨r', kh', b', o', i'⟩ := k'
  simp only [idOfKey, CellId.mk.injEq] at he
  simp only [CompactCellKey.mk.injEq]
  exact ⟨hr, he.2.1, he.2.2.1, ho, he.2.2.2.2⟩

/-- **One identity never has two cells.** -/
theorem Inv.idOf_inj (h : Inv pins t) (hx : t.isActive x = true) (hy : t.isActive y = true)
    (he : t.idOf x = t.idOf y) : x = y :=
  h.slab.inj x y hx hy (h.idOfKey_inj (h.goodKey hx) (h.goodKey hy) he)

theorem view_eq_some {e : CellId × ℕ} :
    t.view x = some e ↔ t.isActive x = true ∧ t.idOf x = e.1 ∧ (t.cells x).count = e.2 := by
  obtain ⟨k, c⟩ := e
  unfold view
  split_ifs with h <;> simp [h]

theorem Inv.inj (h : Inv pins t) : SlotMap.Inj t.view := fun x y k c d hx hy => by
  obtain ⟨hx, hkx, -⟩ := view_eq_some.1 hx
  obtain ⟨hy, hky, -⟩ := view_eq_some.1 hy
  exact h.idOf_inj hx hy (hkx.trans hky.symm)

theorem Inv.below (h : Inv pins t) : Below t.capacity t.view := fun _ _ hx =>
  h.lt (view_eq_some.1 hx).1

theorem Inv.toMap_eq_coe (h : Inv pins t) {k : CellId} {c : ℕ} :
    t.toMap k = WithBot.some c ↔ ∃ x, t.isActive x = true ∧ t.idOf x = k ∧ (t.cells x).count = c :=
  (lookup_eq_coe h.inj h.below).trans (by simp only [view_eq_some])

/-! ## Dictionary growth -/

def withRules (t : CellTable w) (d : RuleDictionary) : CellTable w := { t with ruleDictionary := d }

def withNodes (t : CellTable w) (d : NodeDictionary) : CellTable w := { t with nodeDictionary := d }

theorem Inv.withRules (h : Inv pins t) {d : RuleDictionary} (hw : d.Wf)
    (hr : d.refcounts = t.ruleDictionary.refcounts) : Inv pins (t.withRules d) :=
  ⟨h.pos, h.le, h.slab, h.len_eq, hw, h.nodes, fun r => (congrFun hr r).trans (h.rule_refs r),
    h.node_refs, h.local_id, h.incarnation, h.count_le⟩

theorem Inv.withNodes (h : Inv pins t) {d : NodeDictionary} (hw : d.Wf)
    (hr : d.refcounts = t.nodeDictionary.refcounts)
    (hd : ∀ o, t.nodeDictionary.Live o → d.descriptors o = t.nodeDictionary.descriptors o) :
    Inv pins (t.withNodes d) := by
  refine ⟨h.pos, h.le, h.slab, h.len_eq, h.rules, hw, h.rule_refs,
    fun o => (congrFun hr o).trans (h.node_refs o), (hd _ h.local_live).trans h.local_id,
    fun x hx => ?_, h.count_le⟩
  exact (h.incarnation x hx).trans (congrArg NodeIdentity.incarnation (hd _ (h.node_live hx)).symm)

/-- The cells are the same when keys of live dictionary slots are. -/
theorem Inv.view_congr (h : Inv pins t) (hc : t'.cells = t.cells)
    (hg : t'.generations = t.generations)
    (hr : ∀ r, t.ruleDictionary.Live r → (t'.ruleDictionary.descriptors r).fingerprint =
      (t.ruleDictionary.descriptors r).fingerprint)
    (ho : ∀ o, t.nodeDictionary.Live o → t'.nodeDictionary.descriptors o =
      t.nodeDictionary.descriptors o) : t'.view = t.view := by
  funext x
  have hact : t'.isActive x = t.isActive x := by rw [isActive, isActive, hg]
  unfold view
  rw [hact]
  split_ifs with hx
  · simp only [idOf, idOfKey, hc, hr _ (h.rule_live hx), ho _ (h.node_live hx)]
  · rfl

/-! ## Placing and releasing a cell -/

/-- The table after `alloc_slot` has returned `x` and cell `c` is stored there. -/
def place (t : CellTable w) (x : ℕ) (c : Cell) : CellTable w :=
  { t with
    freeHead := t.freeNext x
    freeNext := update t.freeNext x none
    generations := update t.generations x ((t.generations x + 1) % 2 ^ 32)
    activeLen := t.activeLen + 1
    cells := update t.cells x c
    ruleDictionary := t.ruleDictionary.incRef c.key.rule
    nodeDictionary := t.nodeDictionary.incRef c.key.origin
    index := t.index.insertUnchecked (hashCompactCellKey c.key) x }

/-- The table after `free_cell_at x`. -/
def release (t : CellTable w) (x : ℕ) : CellTable w :=
  { t with
    index := t.index.remove (hashCompactCellKey (t.cells x).key) x
    ruleDictionary := (t.ruleDictionary.decRef (t.cells x).key.rule).1
    nodeDictionary := (t.nodeDictionary.decRef (t.cells x).key.origin).1
    generations := update t.generations x ((t.generations x + 1) % 2 ^ 32)
    freeNext := update t.freeNext x t.freeHead
    freeHead := some x
    activeLen := t.activeLen - 1 }

theorem isActive_flip {g : ℕ → ℕ} (ht : t'.generations = update g x ((g x + 1) % 2 ^ 32))
    (hg : g = t.generations) (y : ℕ) :
    t'.isActive y = if y = x then !t.isActive x else t.isActive y := by
  subst hg
  unfold isActive
  rw [ht]
  split_ifs with h
  · rw [h, update_self]
    rcases Nat.mod_two_eq_zero_or_one (t.generations x) with h0 | h0
    · simp only [h0, show (t.generations x + 1) % 2 ^ 32 % 2 = 1 by omega]; decide
    · simp only [h0, show (t.generations x + 1) % 2 ^ 32 % 2 = 0 by omega]; decide
  · rw [update_of_ne h]

theorem isActive_place (c : Cell) (y : ℕ) :
    (t.place x c).isActive y = if y = x then !t.isActive x else t.isActive y :=
  isActive_flip rfl rfl y

theorem isActive_release (y : ℕ) :
    (t.release x).isActive y = if y = x then !t.isActive x else t.isActive y :=
  isActive_flip rfl rfl y

theorem place_cells (c : Cell) : (t.place x c).cells = update t.cells x c := rfl

theorem release_cells : (t.release x).cells = t.cells := rfl

theorem uses_place {c : Cell} (hx : x < t.capacity) (hn : t.isActive x = false)
    (f : CompactCellKey → ℕ) (r : ℕ) :
    (t.place x c).uses f r = t.uses f r + (f c.key == r).toNat := by
  have h : t.uses f r + ((t.place x c).isActive x && f ((t.place x c).cells x).key == r).toNat =
      (t.place x c).uses f r + (t.isActive x && f (t.cells x).key == r).toNat :=
    tally_change (p := fun y => t.isActive y && f (t.cells y).key == r)
      (q := fun y => (t.place x c).isActive y && f ((t.place x c).cells y).key == r) hx
      fun y _ hy => by simp only [isActive_place, if_neg hy, place_cells, update_of_ne hy]
  simpa [isActive_place, place_cells, hn] using h.symm

theorem uses_release (hx : x < t.capacity) (ha : t.isActive x = true) (f : CompactCellKey → ℕ)
    (r : ℕ) : t.uses f r = (t.release x).uses f r + (f (t.cells x).key == r).toNat := by
  have h : t.uses f r + ((t.release x).isActive x && f ((t.release x).cells x).key == r).toNat =
      (t.release x).uses f r + (t.isActive x && f (t.cells x).key == r).toNat :=
    tally_change (p := fun y => t.isActive y && f (t.cells y).key == r)
      (q := fun y => (t.release x).isActive y && f ((t.release x).cells y).key == r) hx
      fun y _ hy => by simp only [isActive_release, if_neg hy, release_cells]
  simpa [isActive_release, ha] using h

section
variable {δ κ : Type} [Interned δ κ] {d : Dictionary δ} {f : CompactCellKey → ℕ} {b : ℕ → Bool}

omit [Interned δ κ] in
/-- Reference counts follow a placed cell; they stay far below their 32-bit limit. -/
theorem Inv.refs_place (h : Inv pins t) (hd : ∀ r, d.refcounts r = t.uses f r + (b r).toNat)
    (hx : x < t.capacity) (hn : t.isActive x = false) (c : Cell) (r : ℕ) :
    (d.incRef (f c.key)).refcounts r = (t.place x c).uses f r + (b r).toNat := by
  rw [uses_place hx hn, Dictionary.incRef]
  by_cases hr : r = f c.key
  · subst hr
    have h1 : t.uses f (f c.key) ≤ t.capacity := tally_le _ _
    have h2 := h.le
    have h3 := Bool.toNat_le (b (f c.key))
    simp only [update_self, u32Max, hd, beq_self_eq_true, Bool.toNat_true]
    omega
  · simp only [update_of_ne hr, hd, beq_eq_false_iff_ne.2 (Ne.symm hr), Bool.toNat_false,
      Nat.add_zero]

/-- Reference counts follow a released cell. -/
theorem refs_release (hw : d.Wf) (hd : ∀ r, d.refcounts r = t.uses f r + (b r).toNat)
    (hx : x < t.capacity) (ha : t.isActive x = true) (r : ℕ) :
    (d.decRef (f (t.cells x).key)).1.refcounts r = (t.release x).uses f r + (b r).toNat := by
  have h1 := uses_release hx ha f
  have hpos : 0 < d.refcounts (f (t.cells x).key) := by
    have := h1 (f (t.cells x).key)
    simp only [beq_self_eq_true, Bool.toNat_true] at this
    rw [hd]; omega
  rw [(Dictionary.decRef_spec hw hpos).refcounts]
  by_cases hr : r = f (t.cells x).key
  · have := h1 r
    subst hr
    simp only [beq_self_eq_true, Bool.toNat_true] at this
    rw [update_self, hd]; omega
  · rw [update_of_ne hr, hd, h1 r, beq_eq_false_iff_ne.2 (Ne.symm hr), Bool.toNat_false,
      Nat.add_zero]

end

theorem Inv.place (h : Inv pins t) {c : Cell} (hh : t.freeHead = some x)
    (hg : t.GoodKey c.key) (hk : ∀ y, t.isActive y = true → (t.cells y).key ≠ c.key)
    (hc : c.count ≤ w.max) : Inv pins (t.place x c) := by
  have hslab := hh ▸ h.slab
  obtain ⟨hx, hn⟩ := hslab.head_spec
  have hn : t.isActive x = false := by simpa using hn
  have hact : ∀ y, (t.place x c).isActive y = true ↔ t.isActive y = true ∨ y = x := fun y => by
    rw [isActive_place]
    split_ifs with hy <;> simp [hy, hn]
  refine ⟨h.pos, h.le, ?_, ?_, h.rules.incRef hg.rule, h.nodes.incRef hg.origin, fun r => ?_,
    fun o => ?_, h.local_id, fun y hy => ?_, fun y hy => ?_⟩
  · exact hslab.insert (fun y hy => (update_of_ne hy _ _).symm) hk hact
      (fun y hy => by rw [place_cells, update_of_ne hy]) (by rw [place_cells, update_self])
  · show t.activeLen + 1 = t.index.len + 1
    rw [h.len_eq]
  · exact h.refs_place h.rule_refs hx hn c r
  · exact h.refs_place (b := fun o => decide (o = t.localNodeSlot)) h.node_refs hx hn c o
  · rw [place_cells]
    by_cases hyx : y = x
    · rw [hyx, update_self]; exact hg.incarnation
    · rw [update_of_ne hyx]
      exact h.incarnation y (((hact y).1 hy).resolve_right hyx)
  · rw [place_cells]
    by_cases hyx : y = x
    · rw [hyx, update_self]; exact hc
    · rw [update_of_ne hyx]
      exact h.count_le y (((hact y).1 hy).resolve_right hyx)

theorem Inv.release (h : Inv pins t) (ha : t.isActive x = true) : Inv pins (t.release x) := by
  have hx := h.lt ha
  have hact : ∀ y, (t.release x).isActive y = true ↔ t.isActive y = true ∧ y ≠ x := fun y => by
    rw [isActive_release]
    split_ifs with hy <;> simp [hy, ha]
  have hrule := Dictionary.decRef_spec h.rules (h.rule_pos ha)
  have hnode := Dictionary.decRef_spec h.nodes (h.node_pos ha)
  have hnodes := refs_release (b := fun o => decide (o = t.localNodeSlot)) h.nodes h.node_refs hx ha
  -- a node slot still in use keeps its descriptor
  have hdesc : ∀ o, 0 < (t.release x).nodeDictionary.refcounts o →
      (t.release x).nodeDictionary.descriptors o = t.nodeDictionary.descriptors o :=
    fun o ho => hnode.descriptors o (hnode.wf.live_of_pos ho)
  refine ⟨h.pos, h.le, h.slab.remove ha hact fun _ _ => rfl, ?_, hrule.wf, hnode.wf,
    refs_release h.rules h.rule_refs hx ha, hnodes, ?_, fun y hy => ?_,
    fun y hy => h.count_le y ((hact y).1 hy).1⟩
  · have h1 := h.slab.room
    have h2 := h.slab.len_le
    have := (CellIndex.remove_spec h.slab.wf (by omega)
      ((h.slab.contains (hashCompactCellKey (t.cells x).key) x).2 ⟨ha, rfl⟩)).2.1
    show t.activeLen - 1 = (t.index.remove (hashCompactCellKey (t.cells x).key) x).len
    rw [h.len_eq]; omega
  · refine (hdesc _ ?_).trans h.local_id
    have := hnodes t.localNodeSlot
    simp only [decide_true, Bool.toNat_true] at this
    exact this ▸ Nat.succ_pos _
  · refine (h.incarnation y ((hact y).1 hy).1).trans (congrArg _ (hdesc _ ?_).symm)
    have hpos : 0 < (t.release x).uses (·.origin) (t.cells y).key.origin :=
      tally_pos.2 ⟨y, h.lt ((hact y).1 hy).1, by simp [hy, release_cells]⟩
    exact (hnodes _).symm ▸ Nat.add_pos_left hpos _

theorem Inv.view_place (h : Inv pins t) {c : Cell} (hh : t.freeHead = some x) :
    (t.place x c).view = update t.view x (some (t.idOfKey c.key, c.count)) := by
  have hn := Bool.eq_false_iff.2 (hh ▸ h.slab).head_spec.2
  funext y
  unfold view
  rw [isActive_place]
  by_cases hy : y = x
  · subst hy
    simp [hn, idOf, place_cells]
    rfl
  · simp only [if_neg hy, update_of_ne hy, idOf, place_cells]
    rfl

theorem Inv.view_release (h : Inv pins t) (ha : t.isActive x = true) :
    (t.release x).view = update t.view x none := by
  have h' := h.release ha
  have hrule := Dictionary.decRef_spec h.rules (h.rule_pos ha)
  have hnode := Dictionary.decRef_spec h.nodes (h.node_pos ha)
  funext y
  unfold view
  by_cases hy : y = x
  · simp [isActive_release, hy, ha]
  · rw [update_of_ne hy]
    have hact : (t.release x).isActive y = t.isActive y := by simp [isActive_release, hy]
    rw [hact]
    split_ifs with hya
    · -- the rule and the node of another cell keep their descriptors
      have hr := hrule.descriptors _ (h'.rule_live (hact.trans hya))
      have ho := hnode.descriptors _ (h'.node_live (hact.trans hya))
      simp only [release_cells] at hr ho
      have hid : (t.release x).idOf y = t.idOf y := by
        simp only [idOf, idOfKey, CellTable.release, hr, ho]
      rw [hid, release_cells]
    · rfl

/-! ## Raising a cell -/

def setCell (t : CellTable w) (x : ℕ) (c : Cell) : CellTable w :=
  { t with cells := update t.cells x c }

theorem setCell_key {c : Cell} (hc : c.key = (t.cells x).key) (y : ℕ) :
    ((t.setCell x c).cells y).key = (t.cells y).key := by
  show (update t.cells x c y).key = _
  by_cases hy : y = x
  · rw [hy, update_self, hc]
  · rw [update_of_ne hy]

theorem Inv.setCell (h : Inv pins t) {c : Cell} (hc : c.key = (t.cells x).key)
    (hle : c.count ≤ w.max) : Inv pins (t.setCell x c) := by
  have huses : ∀ f r, (t.setCell x c).uses f r = t.uses f r := fun f r =>
    tally_congr fun y _ => by rw [setCell_key hc]; rfl
  refine ⟨h.pos, h.le, h.slab.congr (fun _ => Iff.rfl) fun y _ => (setCell_key hc y).symm, h.len_eq,
    h.rules, h.nodes, fun r => (h.rule_refs r).trans (by rw [huses]),
    fun o => (h.node_refs o).trans (by rw [huses]; rfl), h.local_id, fun y hy => ?_, fun y hy => ?_⟩
  · rw [setCell_key hc]; exact h.incarnation y hy
  · show (update t.cells x c y).count ≤ w.max
    by_cases hyx : y = x
    · rw [hyx, update_self]; exact hle
    · rw [update_of_ne hyx]; exact h.count_le y hy

theorem view_setCell {c : Cell} (hc : c.key = (t.cells x).key) (ha : t.isActive x = true) :
    (t.setCell x c).view = update t.view x (some (t.idOf x, c.count)) := by
  funext y
  have hid : (t.setCell x c).idOf y = t.idOf y := by
    unfold idOf
    rw [setCell_key hc]
    rfl
  have hact : (t.setCell x c).isActive y = t.isActive y := rfl
  unfold view
  rw [hid, hact]
  by_cases hy : y = x
  · subst hy
    simp [ha, CellTable.setCell]
  · simp [hy, CellTable.setCell]

end CellTable

end Gabion
