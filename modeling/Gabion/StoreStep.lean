/-
  What the calls of the store do to its table.

  A row of `ingest_local` or `merge_remote` raises one entry of the map, or is rejected
  (`RowStep`); a step of `expire` removes one entry or none.  `Grows` collects what
  translating an identity may add to the dictionaries.
-/
import Gabion.StoreInv

namespace Gabion

open Function SlotMap

namespace CellStore

variable {w : CountWidth} {pins : ℕ → Bool} {s s' : CellStore w}

/-! ## Translating identities -/

/-- What rows may do to the rule dictionary: interned rules stay as they are, new ones are
    wire-only rules that were not interned. -/
structure RulesGrow (s s' : CellStore w) : Prop where
  keep : ∀ r, s.ruleDictionary.Live r → s'.ruleDictionary.Live r ∧
    s'.ruleDictionary.descriptors r = s.ruleDictionary.descriptors r
  new : ∀ r, s'.ruleDictionary.Live r → s.ruleDictionary.Live r ∨
    ∃ fp, s'.ruleDictionary.descriptors r = RuleDescriptor.wireOnly fp ∧
      ∀ r', s.ruleDictionary.Live r' → (s.ruleDictionary.descriptors r').fingerprint ≠ fp

theorem RulesGrow.of_eq (hi : s'.ruleDictionary.index = s.ruleDictionary.index)
    (hd : s'.ruleDictionary.descriptors = s.ruleDictionary.descriptors) : RulesGrow s s' := by
  have hl : ∀ r, s'.ruleDictionary.Live r ↔ s.ruleDictionary.Live r := fun r => by
    rw [Dictionary.Live, Dictionary.Live, hi, hd]
  exact ⟨fun r hr => ⟨(hl r).2 hr, by rw [hd]⟩, fun r hr => .inl ((hl r).1 hr)⟩

theorem RulesGrow.trans {s₁ s₂ : CellStore w} (h : RulesGrow s s₁) (h' : RulesGrow s₁ s₂) :
    RulesGrow s s₂ := by
  refine ⟨fun r hr => ?_, fun r hr => ?_⟩
  · obtain ⟨h1, e1⟩ := h.keep r hr
    obtain ⟨h2, e2⟩ := h'.keep r h1
    exact ⟨h2, e2.trans e1⟩
  · rcases h'.new r hr with h1 | ⟨fp, e, hn⟩
    · rcases h.new r h1 with h0 | ⟨fp, e, hn⟩
      · exact .inl h0
      · exact .inr ⟨fp, ((h'.keep r h1).2).trans e, hn⟩
    · refine .inr ⟨fp, e, fun r' hr' => ?_⟩
      obtain ⟨h1, e1⟩ := h.keep r' hr'
      rw [← e1]
      exact hn r' h1

/-- The parts of the store outside the dictionaries, rings and counters. -/
structure SameCells (s s' : CellStore w) : Prop where
  cells : s'.cells = s.cells
  generations : s'.generations = s.generations
  capacity : s'.capacity = s.capacity
  localNodeSlot : s'.localNodeSlot = s.localNodeSlot
  localIdentity : s'.localIdentity = s.localIdentity
  localDirty : s'.localDirty = s.localDirty
  forwardedDirty : s'.forwardedDirty = s.forwardedDirty
  repairCursor : s'.repairCursor = s.repairCursor
  selectionMarks : s'.selectionMarks = s.selectionMarks
  selectionEpoch : s'.selectionEpoch = s.selectionEpoch

theorem SameCells.trans {s₁ s₂ : CellStore w} (h : SameCells s s₁) (h' : SameCells s₁ s₂) :
    SameCells s s₂ :=
  ⟨h'.1.trans h.1, h'.2.trans h.2, h'.3.trans h.3, h'.4.trans h.4, h'.5.trans h.5, h'.6.trans h.6,
    h'.7.trans h.7, h'.8.trans h.8, h'.9.trans h.9, h'.10.trans h.10⟩

/-- What translating an identity does: dictionaries may grow, the cells stay. -/
structure Grows (pins : ℕ → Bool) (s s' : CellStore w) : Prop where
  inv : s'.toCellTable.Inv pins
  same : SameCells s s'
  view : s'.view = s.view
  rules : RulesGrow s s'
  nodes : ∀ o, s.nodeDictionary.Live o → s'.nodeDictionary.Live o ∧
    s'.nodeDictionary.descriptors o = s.nodeDictionary.descriptors o

theorem Grows.trans {s₁ s₂ : CellStore w} (h : Grows pins s s₁) (h' : Grows pins s₁ s₂) :
    Grows pins s s₂ := by
  refine ⟨h'.inv, h.same.trans h'.same, h'.view.trans h.view, h.rules.trans h'.rules,
    fun o ho => ?_⟩
  obtain ⟨h1, e1⟩ := h.nodes o ho
  obtain ⟨h2, e2⟩ := h'.nodes o h1
  exact ⟨h2, e2.trans e1⟩

/-- A store that differs in its reject counters only. -/
theorem Grows.of_table (h : s.toCellTable.Inv pins) (ht : s'.toCellTable = s.toCellTable)
    (h1 : s'.localDirty = s.localDirty) (h2 : s'.forwardedDirty = s.forwardedDirty)
    (h3 : s'.repairCursor = s.repairCursor) (h4 : s'.selectionMarks = s.selectionMarks)
    (h5 : s'.selectionEpoch = s.selectionEpoch) : Grows pins s s' := by
  refine ⟨ht ▸ h, ⟨by rw [ht], by rw [ht], by rw [ht], by rw [ht], by rw [ht], h1, h2, h3, h4, h5⟩,
    by rw [ht], .of_eq (by rw [ht]) (by rw [ht]), fun o ho => ?_⟩
  rw [ht]
  exact ⟨ho, rfl⟩

theorem Grows.refl (h : s.toCellTable.Inv pins) : Grows pins s s := .of_table h rfl rfl rfl rfl rfl rfl

theorem Grows.freshRule (h : s.toCellTable.Inv pins) {d : RuleDictionary} {fp : Fingerprint} {r : ℕ}
    (hn : ∀ y, s.ruleDictionary.Live y → (s.ruleDictionary.descriptors y).fingerprint ≠ fp)
    (hf : s.ruleDictionary.Fresh d (RuleDescriptor.wireOnly fp) r) :
    Grows pins s { s with ruleDictionary := d } := by
  have hkeep : ∀ y, s.ruleDictionary.Live y → d.descriptors y = s.ruleDictionary.descriptors y :=
    fun _ hy => hf.keep hy
  refine ⟨h.withRules hf.wf hf.refcounts, ⟨rfl, rfl, rfl, rfl, rfl, rfl, rfl, rfl, rfl, rfl⟩,
    h.view_congr rfl rfl (fun y hy => congrArg _ (hkeep y hy)) fun _ _ => rfl,
    ⟨fun y hy => ⟨(hf.live y).2 (.inl hy), hkeep y hy⟩, fun y hy => ?_⟩, fun o ho => ⟨ho, rfl⟩⟩
  rcases (hf.live y).1 hy with hy | rfl
  · exact .inl hy
  · exact .inr ⟨fp, hf.descriptors_self, hn⟩

theorem Grows.freshNode (h : s.toCellTable.Inv pins) {d : NodeDictionary} {id : NodeIdentity} {o : ℕ}
    (hf : s.nodeDictionary.Fresh d id o) : Grows pins s { s with nodeDictionary := d } := by
  have hkeep : ∀ y, s.nodeDictionary.Live y → d.descriptors y = s.nodeDictionary.descriptors y :=
    fun _ hy => hf.keep hy
  exact ⟨h.withNodes hf.wf hf.refcounts hkeep, ⟨rfl, rfl, rfl, rfl, rfl, rfl, rfl, rfl, rfl, rfl⟩,
    h.view_congr rfl rfl (fun _ _ => rfl) hkeep, .of_eq rfl rfl,
    fun y hy => ⟨(hf.live y).2 (.inl hy), hkeep y hy⟩⟩

theorem translateRule_some (h : s.toCellTable.Inv pins) {fp : Fingerprint} {r : ℕ}
    (he : s.translateRule fp = (s', some r)) :
    Grows pins s s' ∧ s'.ruleDictionary.Live r ∧
      (s'.ruleDictionary.descriptors r).fingerprint = fp := by
  unfold translateRule at he
  split at he
  · rename_i slot hfind
    cases he
    exact ⟨.refl h, h.rules.find_iff.1 hfind⟩
  · rename_i hfind
    have hn := h.rules.find_none_iff.1 hfind
    have hfind' : s.ruleDictionary.find (RuleDescriptor.wireOnly fp).fingerprint = none := hfind
    simp only [RuleDictionary.intern, hfind'] at he
    split at he
    · rename_i d slot hint
      cases he
      have hf := Dictionary.internFresh_some h.rules hn hint
      exact ⟨.freshRule h hn hf, (hf.live r).2 (.inr rfl), by rw [hf.descriptors_self]; rfl⟩
    · cases he

theorem translateRule_none (h : s.toCellTable.Inv pins) {fp : Fingerprint}
    (he : s.translateRule fp = (s', none)) : Grows pins s s' := by
  unfold translateRule at he
  split at he
  · cases he
  · split at he
    · cases he
    · cases he
      exact .of_table h rfl rfl rfl rfl rfl rfl

theorem translateNode_some (h : s.toCellTable.Inv pins) {id : NodeIdentity} {o : ℕ}
    (he : s.translateNode id = (s', some o)) :
    Grows pins s s' ∧ s'.nodeDictionary.Live o ∧ s'.nodeDictionary.descriptors o = id := by
  unfold translateNode at he
  split at he
  · rename_i slot hfind
    cases he
    exact ⟨.refl h, h.nodes.find_iff.1 hfind⟩
  · rename_i hfind
    have hn := h.nodes.find_none_iff.1 hfind
    simp only [internNode, NodeDictionary.intern, hfind] at he
    split at he
    · rename_i d slot hint
      cases he
      have hf := Dictionary.internFresh_some h.nodes hn hint
      exact ⟨.freshNode h hf, (hf.live o).2 (.inr rfl), hf.descriptors_self⟩
    · cases he

theorem translateNode_none (h : s.toCellTable.Inv pins) {id : NodeIdentity}
    (he : s.translateNode id = (s', none)) : Grows pins s s' := by
  unfold translateNode internNode at he
  split at he
  · cases he
  · split at he
    · cases he
    · cases he
      exact .of_table h rfl rfl rfl rfl rfl rfl

/-! ## Rows -/

/-- A ring entry that points at a slot of the table, in an active generation. -/
def GoodEntry (capacity : ℕ) (e : DirtyEntry) : Prop :=
  e.handle.index < capacity ∧ e.handle.generation % 2 = 1

/-- What frame composition relies on: ring entries, repair cursor and selection marks. -/
structure Lanes (s : CellStore w) : Prop where
  localDirty : s.localDirty.All (GoodEntry s.capacity)
  forwardedDirty : s.forwardedDirty.All (GoodEntry s.capacity)
  cursor_lt : s.repairCursor < s.capacity
  marks_le : ∀ x, s.selectionMarks x ≤ s.selectionEpoch
  epoch_lt : s.selectionEpoch < 2 ^ 32

theorem Lanes.congr (h : Lanes s) (hs : SameCells s s') : Lanes s' := by
  refine ⟨?_, ?_, ?_, ?_, ?_⟩
  · rw [hs.localDirty, hs.capacity]; exact h.localDirty
  · rw [hs.forwardedDirty, hs.capacity]; exact h.forwardedDirty
  · rw [hs.repairCursor, hs.capacity]; exact h.cursor_lt
  · rw [hs.selectionMarks, hs.selectionEpoch]; exact h.marks_le
  · rw [hs.selectionEpoch]; exact h.epoch_lt

theorem pushDirty_toCellTable (s : CellStore w) (origin : ℕ) (handle : CellHandle) (seq : ℕ) :
    (s.pushDirty origin handle seq).toCellTable = s.toCellTable := by
  unfold pushDirty
  split_ifs <;> rfl

theorem pushDirty_repairCursor (s : CellStore w) (origin : ℕ) (handle : CellHandle) (seq : ℕ) :
    (s.pushDirty origin handle seq).repairCursor = s.repairCursor := by
  unfold pushDirty
  split_ifs <;> rfl

theorem Lanes.pushDirty (h : Lanes s) (origin : ℕ) {handle : CellHandle} (seq : ℕ)
    (hi : handle.index < s.capacity) (hg : handle.generation % 2 = 1) :
    Lanes (s.pushDirty origin handle seq) := by
  unfold CellStore.pushDirty
  split_ifs
  · exact ⟨h.localDirty.push ⟨hi, hg⟩, h.forwardedDirty, h.cursor_lt, h.marks_le, h.epoch_lt⟩
  · exact ⟨h.localDirty, h.forwardedDirty.push ⟨hi, hg⟩, h.cursor_lt, h.marks_le, h.epoch_lt⟩

/-- What an upsert does to the entries: nothing, or it moves the entry of `k` from `c` to
    `mode.next c`, where a missing entry counts as `0`, and reports the difference. -/
inductive RowEffect (w : CountWidth) (V V' : View CellId) (k : CellId) (mode : UpsertMode)
    (applies : Bool) (sink sink' : List CellDelta) : RowResult → Prop
  | rejected (e : InsertReject) : V' = V → sink' = sink →
      RowEffect w V V' k mode applies sink sink' (.error e)
  | same (x c : ℕ) (o : UpdateOutcome) : V x = some (k, c) → mode.next w c = c → V' = V →
      sink' = sink → RowEffect w V V' k mode applies sink sink' (.ok o)
  | changed (x c : ℕ) (row : CellDelta) (o : UpdateOutcome) :
      V x = some (k, c) ∨ (V x = none ∧ (∀ y d, V y ≠ some (k, d)) ∧ c = 0) →
      V' = update V x (some (k, mode.next w c)) → sink' = sink ++ [row] →
      row.key = k.identity → row.delta = mode.next w c - c → row.appliesLocally = applies →
      RowEffect w V V' k mode applies sink sink' (.ok o)

/-- What a row of a batch does to the store. -/
structure RowStep (pins : ℕ → Bool) (s s' : CellStore w) : Prop where
  inv : s'.toCellTable.Inv pins
  lanes : Lanes s → Lanes s'
  capacity : s'.capacity = s.capacity
  localNodeSlot : s'.localNodeSlot = s.localNodeSlot
  localIdentity : s'.localIdentity = s.localIdentity
  rules : RulesGrow s s'
  repairCursor : s'.repairCursor = s.repairCursor

theorem RowStep.trans {s₁ s₂ : CellStore w} (h : RowStep pins s s₁) (h' : RowStep pins s₁ s₂) :
    RowStep pins s s₂ :=
  ⟨h'.inv, fun hl => h'.lanes (h.lanes hl), h'.capacity.trans h.capacity,
    h'.localNodeSlot.trans h.localNodeSlot, h'.localIdentity.trans h.localIdentity,
    h.rules.trans h'.rules, h'.repairCursor.trans h.repairCursor⟩

theorem Grows.rowStep (h : Grows pins s s') : RowStep pins s s' :=
  ⟨h.inv, fun hl => hl.congr h.same, h.same.capacity, h.same.localNodeSlot, h.same.localIdentity,
    h.rules, h.same.repairCursor⟩

end CellStore

/-- The observed count of a merge fits the width. -/
def UpsertMode.Fits (w : CountWidth) : UpsertMode → Prop
  | accumulate _ => True
  | maxMerge observed => observed ≤ w.max

theorem UpsertMode.next_le {w : CountWidth} {mode : UpsertMode} (h : mode.Fits w) {c : ℕ}
    (hc : c ≤ w.max) : mode.next w c ≤ w.max := by
  cases mode with
  | accumulate hits => exact w.saturatingAddHits_le c hits
  | maxMerge observed =>
    simp only [UpsertMode.next]
    split_ifs
    · exact h
    · exact hc

/-- A new cell starts as if it had counted `0` before. -/
theorem UpsertMode.initial_eq (w : CountWidth) (mode : UpsertMode) :
    mode.initial w = mode.next w 0 := by
  cases mode with
  | accumulate hits => rfl
  | maxMerge observed =>
    simp only [UpsertMode.next, UpsertMode.initial]
    split_ifs <;> omega

namespace CellStore

variable {w : CountWidth} {pins : ℕ → Bool} {s s' : CellStore w}

theorem emitDelta_eq {t : CellTable w} (h : t.Inv pins) {x : ℕ} (hx : t.isActive x = true)
    (sink : List CellDelta) (previous current delta : ℕ) :
    t.emitDelta sink x previous current delta (t.cells x).key.rule =
      sink ++ [⟨t.handleFor x, (t.idOf x).identity, previous, current, delta,
        (t.ruleDictionary.descriptors (t.cells x).key.rule).appliesLocally⟩] := by
  simp only [CellTable.emitDelta, h.descriptor_rule hx]
  rfl

/-- The common end of an upsert: `s₁` has the new cell in its table, `announce` adds the
    dirty entry and the delta row. -/
theorem announce_spec {s₁ : CellStore w} {key : CompactCellKey} {x seq previous current delta : ℕ}
    {sink sink' : List CellDelta} {res : RowResult}
    (he : s₁.announce key x seq previous current delta sink = (s', sink', res))
    (h : s₁.toCellTable.Inv pins) (hx : s₁.isActive x = true) (hk : (s₁.cells x).key = key) :
    s'.toCellTable = s₁.toCellTable ∧ (Lanes s₁ → Lanes s') ∧
      s'.repairCursor = s₁.repairCursor ∧ (∃ o, res = .ok o) ∧
      sink' = sink ++ [⟨s₁.handleFor x, (s₁.idOf x).identity, previous, current, delta,
        (s₁.ruleDictionary.descriptors key.rule).appliesLocally⟩] := by
  unfold announce at he
  dsimp only at he
  rw [pushDirty_toCellTable, ← hk, emitDelta_eq h hx, hk] at he
  cases he
  refine ⟨pushDirty_toCellTable .., fun hl => ?_, pushDirty_repairCursor .., ⟨_, rfl⟩, rfl⟩
  exact hl.pushDirty _ _ (h.lt hx) ((CellTable.isActive_eq x).1 hx)

theorem updateCell_spec (h : s.toCellTable.Inv pins) {spec : UpsertSpec} {x : ℕ}
    {sink sink' : List CellDelta} {res : RowResult} (hm : spec.mode.Fits w)
    (hx : s.isActive x = true) (hk : (s.cells x).key = spec.key)
    (he : s.updateCell spec x sink = (s', sink', res)) :
    RowStep pins s s' ∧ RowEffect w s.view s'.view (s.idOfKey spec.key) spec.mode
      (s.ruleDictionary.descriptors spec.key.rule).appliesLocally sink sink' res := by
  have hid : s.idOf x = s.idOfKey spec.key := by rw [CellTable.idOf, hk]
  have hview : s.view x = some (s.idOfKey spec.key, (s.cells x).count) :=
    CellTable.view_eq_some.2 ⟨hx, hid, rfl⟩
  unfold updateCell at he
  dsimp only at he
  split_ifs at he with hnext
  · cases he
    exact ⟨(Grows.refl h).rowStep, .same x _ _ hview hnext rfl rfl⟩
  -- the stored count moves: same key, new count
  generalize hc : Cell.mk _ _ _ _ = c at he
  have hck : c.key = (s.cells x).key := by rw [← hc]; rfl
  have hcc : c.count = spec.mode.next w (s.cells x).count := by rw [← hc]
  have hinv := h.setCell hck (hcc ▸ UpsertMode.next_le hm (h.count_le x hx))
  have hk' : ((s.toCellTable.setCell x c).cells x).key = spec.key := by
    rw [CellTable.setCell_key hck, hk]
  obtain ⟨ht, hl, hcur, ⟨o, rfl⟩, hs⟩ := announce_spec he hinv hx hk'
  have ht : s'.toCellTable = s.toCellTable.setCell x c := ht
  have hid' : (s.toCellTable.setCell x c).idOf x = s.idOfKey spec.key := by
    rw [CellTable.idOf, hk']; rfl
  refine ⟨⟨ht ▸ hinv, fun h => hl ⟨h.1, h.2, h.3, h.4, h.5⟩, by rw [ht]; rfl, by rw [ht]; rfl,
    by rw [ht]; rfl, .of_eq (by rw [ht]; rfl) (by rw [ht]; rfl), hcur⟩, ?_⟩
  refine .changed x _ _ o (.inl hview) ?_ hs (congrArg CellId.identity hid') rfl rfl
  rw [ht, CellTable.view_setCell hck hx, hcc, hid]

theorem insertCell_spec (h : s.toCellTable.Inv pins) {spec : UpsertSpec}
    {sink sink' : List CellDelta} {res : RowResult} (hm : spec.mode.Fits w)
    (hg : s.GoodKey spec.key) (hk : ∀ y, s.isActive y = true → (s.cells y).key ≠ spec.key)
    (he : s.insertCell spec sink = (s', sink', res)) :
    RowStep pins s s' ∧ RowEffect w s.view s'.view (s.idOfKey spec.key) spec.mode
      (s.ruleDictionary.descriptors spec.key.rule).appliesLocally sink sink' res := by
  unfold insertCell CellTable.allocSlot at he
  cases hh : s.freeHead with
  | none =>
    simp only [hh] at he
    cases he
    have hg : Grows pins s s.noteCellStoreFull := .of_table h rfl rfl rfl rfl rfl rfl
    exact ⟨hg.rowStep, .rejected _ rfl rfl⟩
  | some x =>
    simp only [hh] at he
    dsimp only [nextOriginSequence] at he
    generalize hc : Cell.mk _ _ _ _ = c at he
    have hck : c.key = spec.key := by rw [← hc]
    have hcc : c.count = spec.mode.next w 0 := by rw [← hc, ← UpsertMode.initial_eq]
    have hn := Bool.eq_false_iff.2 (hh ▸ h.slab).head_spec.2
    have hinv : (s.toCellTable.place x c).Inv pins :=
      h.place hh (hck ▸ hg) (hck ▸ hk)
        (hcc ▸ UpsertMode.next_le hm (Nat.zero_le _))
    have hx : (s.toCellTable.place x c).isActive x = true := by
      simp [CellTable.isActive_place, hn]
    have hk' : ((s.toCellTable.place x c).cells x).key = spec.key := by
      rw [CellTable.place_cells, update_self, hck]
    have hid : (s.toCellTable.place x c).idOf x = s.idOfKey spec.key := by
      rw [CellTable.idOf, hk']; rfl
    rw [← hck] at he
    obtain ⟨ht, hl, hcur, ⟨o, rfl⟩, hs⟩ := announce_spec he hinv hx (hk'.trans hck.symm)
    have ht : s'.toCellTable = s.toCellTable.place x c := ht
    refine ⟨⟨ht ▸ hinv, fun h => hl ⟨h.1, h.2, h.3, h.4, h.5⟩, by rw [ht]; rfl, by rw [ht]; rfl,
      by rw [ht]; rfl, .of_eq (by rw [ht]; rfl) (by rw [ht]; rfl), hcur⟩, ?_⟩
    -- an entry with this identity would be a cell with this key
    have hf : ∀ y d, s.view y ≠ some (s.idOfKey spec.key, d) := fun y d hy => by
      obtain ⟨hya, hyk, -⟩ := CellTable.view_eq_some.1 hy
      exact hk y hya (h.idOfKey_inj (h.goodKey hya) hg hyk)
    refine .changed x 0 _ o (.inr ⟨by simp [CellTable.view, hn], hf, rfl⟩) ?_ hs
      (congrArg CellId.identity hid) (UpsertMode.initial_eq w spec.mode) (by rw [hck]; rfl)
    rw [ht, h.view_place hh, hcc, hck]

/-- **What an upsert does.** -/
theorem upsert_spec (h : s.toCellTable.Inv pins) {spec : UpsertSpec} {sink sink' : List CellDelta}
    {res : RowResult} (hm : spec.mode.Fits w) (hg : s.GoodKey spec.key)
    (he : s.upsert spec sink = (s', sink', res)) :
    RowStep pins s s' ∧ RowEffect w s.view s'.view (s.idOfKey spec.key) spec.mode
      (s.ruleDictionary.descriptors spec.key.rule).appliesLocally sink sink' res := by
  unfold upsert at he
  split at he
  · rename_i x hx
    obtain ⟨hx, hk⟩ := h.slab.find_iff.1 hx
    exact updateCell_spec h hm hx hk he
  · rename_i hx
    exact insertCell_spec h hm hg (h.slab.find_none_iff.1 hx) he

end CellStore

/-- The cluster-wide identity of an observed row. -/
def Observation.id {w : CountWidth} (obs : Observation w) : CellId where
  ruleFingerprint := obs.ruleFingerprint
  keyHash := obs.keyHash
  bucket := obs.bucket
  nodeId := obs.origin
  incarnation := obs.incarnation

/-- The identity a row is ingested under: the origin columns of the row are ignored. -/
def Observation.localId {w : CountWidth} (obs : Observation w) (node : NodeIdentity) : CellId where
  ruleFingerprint := obs.ruleFingerprint
  keyHash := obs.keyHash
  bucket := obs.bucket
  nodeId := node.nodeId
  incarnation := node.incarnation

/-- Whether the rule of a fingerprint is one of the node's own. -/
def CellTable.appliesTo {w : CountWidth} (t : CellTable w) (fp : Fingerprint) : Bool :=
  match t.ruleDictionary.find fp with
  | some r => (t.ruleDictionary.descriptors r).appliesLocally
  | none => false

theorem CellTable.Inv.appliesTo_eq {w : CountWidth} {pins : ℕ → Bool} {t : CellTable w}
    (h : t.Inv pins) {r : ℕ} (hr : t.ruleDictionary.Live r) {fp : Fingerprint}
    (hf : (t.ruleDictionary.descriptors r).fingerprint = fp) :
    t.appliesTo fp = (t.ruleDictionary.descriptors r).appliesLocally := by
  rw [appliesTo, h.rules.find_iff.2 ⟨hr, hf⟩]

namespace CellStore

variable {w : CountWidth} {pins : ℕ → Bool} {s s' : CellStore w}

theorem upsert_applies {spec : UpsertSpec} {sink sink' : List CellDelta} {res : RowResult}
    (he : s.upsert spec sink = (s', sink', res)) (h : s.toCellTable.Inv pins)
    (hm : spec.mode.Fits w) (hg : s.GoodKey spec.key) {k : CellId} (hk : s.idOfKey spec.key = k) :
    RowStep pins s s' ∧ RowEffect w s.view s'.view k spec.mode
      (s'.appliesTo k.ruleFingerprint) sink sink' res := by
  obtain ⟨h1, h2⟩ := upsert_spec h hm hg he
  obtain ⟨hl, hd⟩ := h1.rules.keep _ hg.rule
  have hf : (s'.ruleDictionary.descriptors spec.key.rule).fingerprint = k.ruleFingerprint := by
    rw [hd, ← hk]; rfl
  rw [h1.inv.appliesTo_eq hl hf, hd, ← hk]
  exact ⟨h1, h2⟩

/-- **What an ingested row does**: it adds its count to the entry of the local identity. -/
theorem ingestRow_spec (h : s.toCellTable.Inv pins) (obs : Observation w) (sink : List CellDelta) :
    RowStep pins s (s.ingestRow obs sink).1 ∧
      RowEffect w s.view (s.ingestRow obs sink).1.view (obs.localId s.localIdentity)
        (.accumulate obs.count) ((s.ingestRow obs sink).1.appliesTo obs.ruleFingerprint) sink
        (s.ingestRow obs sink).2.1 (s.ingestRow obs sink).2.2 := by
  rcases he : s.ingestRow obs sink with ⟨s', sink', res⟩
  unfold ingestRow at he
  split at he
  · rename_i s₁ ht
    cases he
    have hg := translateRule_none h ht
    exact ⟨hg.rowStep, .rejected _ hg.view rfl⟩
  · rename_i s₁ r ht
    obtain ⟨hg, hr, hf⟩ := translateRule_some h ht
    have hid := hg.inv.local_id
    have hk : s₁.idOfKey ⟨r, obs.keyHash, obs.bucket, s₁.localNodeSlot,
        s₁.localIdentity.incarnation⟩ = obs.localId s.localIdentity := by
      simp only [CellTable.idOfKey, Observation.localId, hf, hid, hg.same.localIdentity]
    obtain ⟨h1, h2⟩ := upsert_applies he hg.inv trivial
      ⟨hr, hg.inv.local_live, congrArg NodeIdentity.incarnation hid.symm⟩ hk
    exact ⟨hg.rowStep.trans h1, hg.view ▸ h2⟩

/-- **What a merged row does**: it raises the entry of its identity to the observed count. -/
theorem mergeRow_spec (h : s.toCellTable.Inv pins) (obs : Observation w) (sink : List CellDelta) :
    RowStep pins s (s.mergeRow obs sink).1 ∧
      RowEffect w s.view (s.mergeRow obs sink).1.view obs.id
        (.maxMerge obs.count) ((s.mergeRow obs sink).1.appliesTo obs.ruleFingerprint) sink
        (s.mergeRow obs sink).2.1 (s.mergeRow obs sink).2.2 := by
  rcases he : s.mergeRow obs sink with ⟨s', sink', res⟩
  unfold mergeRow at he
  split at he
  · rename_i s₁ ht
    cases he
    have hg := translateRule_none h ht
    exact ⟨hg.rowStep, .rejected _ hg.view rfl⟩
  · rename_i s₁ r ht
    obtain ⟨hg, hr, hf⟩ := translateRule_some h ht
    split at he
    · rename_i s₂ ht₂
      cases he
      have hg₂ := hg.trans (translateNode_none hg.inv ht₂)
      exact ⟨hg₂.rowStep, .rejected _ hg₂.view rfl⟩
    · rename_i s₂ o ht₂
      obtain ⟨hg₂, ho, hd⟩ := translateNode_some hg.inv ht₂
      obtain ⟨hr', hf'⟩ := hg₂.rules.keep r hr
      have hk : s₂.idOfKey ⟨r, obs.keyHash, obs.bucket, o, obs.incarnation⟩ = obs.id := by
        simp only [CellTable.idOfKey, Observation.id, hf', hf, hd]
      obtain ⟨h1, h2⟩ := upsert_applies he hg₂.inv obs.count_le ⟨hr', ho, by rw [hd]⟩ hk
      exact ⟨(hg.trans hg₂).rowStep.trans h1, (hg.trans hg₂).view ▸ h2⟩

/-! ## Expiry -/

theorem freeCellAt_toCellTable (s : CellStore w) (x : ℕ) :
    (s.freeCellAt x).toCellTable = s.toCellTable.release x := by
  unfold freeCellAt
  dsimp only
  split_ifs <;> rfl

/-- What freeing cells does: nothing else changes, and rule slots that stay interned keep
    their descriptor. -/
structure FreeStep (pins : ℕ → Bool) (s s' : CellStore w) : Prop where
  inv : s'.toCellTable.Inv pins
  cells : s'.cells = s.cells
  lanes : Lanes s → Lanes s'
  capacity : s'.capacity = s.capacity
  localNodeSlot : s'.localNodeSlot = s.localNodeSlot
  localIdentity : s'.localIdentity = s.localIdentity
  rules : ∀ r, s'.ruleDictionary.Live r → s.ruleDictionary.Live r ∧
    s'.ruleDictionary.descriptors r = s.ruleDictionary.descriptors r
  repairCursor : s'.repairCursor = s.repairCursor

theorem FreeStep.refl (h : s.toCellTable.Inv pins) : FreeStep pins s s :=
  ⟨h, rfl, id, rfl, rfl, rfl, fun _ hr => ⟨hr, rfl⟩, rfl⟩

theorem FreeStep.trans {s₁ s₂ : CellStore w} (h : FreeStep pins s s₁) (h' : FreeStep pins s₁ s₂) :
    FreeStep pins s s₂ := by
  refine ⟨h'.inv, h'.cells.trans h.cells, fun hl => h'.lanes (h.lanes hl),
    h'.capacity.trans h.capacity, h'.localNodeSlot.trans h.localNodeSlot,
    h'.localIdentity.trans h.localIdentity, fun r hr => ?_, h'.repairCursor.trans h.repairCursor⟩
  obtain ⟨h1, e1⟩ := h'.rules r hr
  obtain ⟨h2, e2⟩ := h.rules r h1
  exact ⟨h2, e1.trans e2⟩

/-- A pinned rule is not released. -/
theorem FreeStep.pinned (h : FreeStep pins s s') {r : ℕ} (hp : pins r = true) :
    s'.ruleDictionary.Live r ∧ s'.ruleDictionary.descriptors r = s.ruleDictionary.descriptors r := by
  have hl : s'.ruleDictionary.Live r := h.inv.rules.live_of_pos (by
    rw [h.inv.rule_refs, hp]; exact Nat.succ_pos _)
  exact ⟨hl, (h.rules r hl).2⟩

theorem freeCellAt_spec (h : s.toCellTable.Inv pins) {x : ℕ} (hx : s.isActive x = true) :
    FreeStep pins s (s.freeCellAt x) ∧ (s.freeCellAt x).view = update s.view x none := by
  have ht := freeCellAt_toCellTable s x
  have hd := Dictionary.decRef_spec h.rules (h.rule_pos hx)
  refine ⟨⟨ht ▸ h.release hx, by rw [ht]; rfl, fun hl => ?_, by rw [ht]; rfl,
    by rw [ht]; rfl, by rw [ht]; rfl, fun r hr => ?_, ?_⟩, by rw [ht, h.view_release hx]⟩
  · unfold freeCellAt
    dsimp only
    split_ifs <;> exact ⟨hl.1, hl.2, hl.3, hl.4, hl.5⟩
  · rw [ht] at hr ⊢
    exact ⟨((hd.live r).1 hr).1, hd.descriptors r hr⟩
  · unfold freeCellAt
    dsimp only
    split_ifs <;> rfl

theorem emitExpiration_eq {t : CellTable w} (h : t.Inv pins) {x : ℕ} (hx : t.isActive x = true)
    (sink : List CellExpiration) :
    t.emitExpiration sink x = sink ++ [⟨t.handleFor x, (t.idOf x).identity, (t.cells x).count,
      (t.cells x).lastUpdateMillis, t.appliesTo (t.idOf x).ruleFingerprint⟩] := by
  have happ : t.appliesTo (t.idOf x).ruleFingerprint = _ := h.appliesTo_eq (h.rule_live hx) rfl
  simp only [CellTable.emitExpiration, h.descriptor_rule hx, happ]
  rfl

/-- What one step of the slot loop of `expire` does: a cell that has aged out goes, any
    other stays. -/
theorem expireStep_spec (h : s.toCellTable.Inv pins) (cur : List BucketEpoch) (live : List ℕ)
    (sink : List CellExpiration) (x : ℕ) :
    FreeStep pins s (expireStep cur live (s, sink) x).1 ∧
      ∀ y, (expireStep cur live (s, sink) x).1.view y =
        if y = x ∧ s.expired cur live x = true then none else s.view y := by
  unfold expireStep
  dsimp only
  split_ifs with hx
  · obtain ⟨ha, he⟩ := Bool.and_eq_true_iff.1 hx
    obtain ⟨h1, h2⟩ := freeCellAt_spec h ha
    refine ⟨h1, fun y => ?_⟩
    rw [h2, update_apply]
    simp only [he, and_true]
  · refine ⟨.refl h, fun y => ?_⟩
    split_ifs with hy
    · -- the slot is inactive, so it has no entry
      obtain ⟨rfl, he⟩ := hy
      simp only [he, Bool.and_true] at hx
      exact if_neg hx
    · rfl

/-- **What `expire` does to the entries**: it removes those that have aged out. -/
theorem expire_spec (h : s.toCellTable.Inv pins) (cur : List BucketEpoch) (live : List ℕ)
    (sink : List CellExpiration) :
    FreeStep pins s (s.expire cur live sink).1 ∧
      ∀ x, (s.expire cur live sink).1.view x =
        if x < s.capacity ∧ s.expired cur live x = true then none else s.view x := by
  unfold expire
  generalize s.capacity = n
  induction n with
  | zero => exact ⟨.refl h, fun x => by simp⟩
  | succ n ih =>
    obtain ⟨hs, hv⟩ := ih
    rw [List.range_succ, List.foldl_append, List.foldl_cons, List.foldl_nil]
    generalize (List.range n).foldl (expireStep cur live) (s, sink) = acc at hs hv
    obtain ⟨s₁, sink₁⟩ := acc
    dsimp only at hs hv
    obtain ⟨hs', hv'⟩ := expireStep_spec hs.inv cur live sink₁ n
    refine ⟨hs.trans hs', fun x => ?_⟩
    have hexp : s₁.expired cur live n = s.expired cur live n := by
      unfold CellTable.expired
      rw [hs.cells]
    rw [hv', hexp, hv]
    by_cases hxn : x = n
    · subst hxn
      simp
    · simp only [hxn, false_and, if_false, Nat.lt_succ_iff_lt_or_eq, or_false]

/-! ## Registration -/

/-- What registering a rule does: the slot of its fingerprint holds the descriptor, and is
    pinned if it was not interned before. -/
structure Registered (pins pins' : ℕ → Bool) (s s' : CellStore w) (d : RuleDescriptor) (r : ℕ) :
    Prop where
  live_self : s'.ruleDictionary.Live r
  desc_self : s'.ruleDictionary.descriptors r = d
  live : ∀ y, s'.ruleDictionary.Live y ↔ s.ruleDictionary.Live y ∨ y = r
  desc : ∀ y, y ≠ r → s'.ruleDictionary.descriptors y = s.ruleDictionary.descriptors y
  key : s.ruleDictionary.Live r → (s.ruleDictionary.descriptors r).fingerprint = d.fingerprint
  pin : ¬ s.ruleDictionary.Live r → pins' r = true
  pins : ∀ y, pins y = true → pins' y = true

theorem Inv_incRef_rule {t : CellTable w} (h : t.Inv pins) {r : ℕ} (hr : t.ruleDictionary.Live r)
    (h0 : t.ruleDictionary.refcounts r = 0) :
    (t.withRules (t.ruleDictionary.incRef r)).Inv (update pins r true) := by
  have huses : t.uses (·.rule) r = 0 ∧ pins r = false := by
    have h1 := h.rule_refs r
    rw [h0] at h1
    obtain ⟨h2, h3⟩ := Nat.add_eq_zero_iff.1 h1.symm
    exact ⟨h2, Bool.toNat_eq_zero.1 h3⟩
  refine ⟨h.pos, h.le, h.slab, h.len_eq, h.rules.incRef hr, h.nodes, fun y => ?_, h.node_refs,
    h.local_id, h.incarnation, h.count_le⟩
  show update t.ruleDictionary.refcounts r _ y = t.uses (·.rule) y + _
  by_cases hy : y = r
  · subst hy
    simp [h0, huses.1, u32Max]
  · rw [update_of_ne hy, update_of_ne hy, h.rule_refs]

/-- Registering a known rule replaces its descriptor. -/
theorem internRule_known (h : s.toCellTable.Inv pins) {d : RuleDescriptor} {r : ℕ}
    (hfind : s.ruleDictionary.find d.fingerprint = some r) :
    (s.internRule d).2 = some r ∧ (s.internRule d).1.toCellTable.Inv pins ∧
      (s.internRule d).1.view = s.view ∧ SameCells s (s.internRule d).1 ∧
      Registered pins pins s (s.internRule d).1 d r := by
  have he : s.internRule d =
      ({ s with ruleDictionary := s.ruleDictionary.replaceDescriptor r d }, some r) := by
    simp only [internRule, RuleDictionary.intern, hfind, Option.isSome_some, if_true]
  rw [he]
  obtain ⟨hl, hk⟩ := h.rules.find_iff.1 hfind
  obtain ⟨hw, hlive⟩ := h.rules.replace (x := d) hk.symm
  have hdesc : ∀ y, y ≠ r → (s.ruleDictionary.replaceDescriptor r d).descriptors y =
      s.ruleDictionary.descriptors y := fun y hy => update_of_ne hy _ _
  have hself : (s.ruleDictionary.replaceDescriptor r d).descriptors r = d := update_self ..
  refine ⟨rfl, h.withRules hw rfl, h.view_congr rfl rfl (fun y _ => ?_) fun _ _ => rfl,
    ⟨rfl, rfl, rfl, rfl, rfl, rfl, rfl, rfl, rfl, rfl⟩, ⟨(hlive r).2 hl, hself, fun y => ?_, hdesc,
    fun _ => hk, fun hn => absurd hl hn, fun _ => id⟩⟩
  · by_cases hy : y = r
    · rw [hy, hself]; exact hk.symm
    · rw [hdesc y hy]
  · rw [hlive]
    exact ⟨.inl, fun h => h.elim id fun e => e ▸ hl⟩

/-- A rule that was not known is interned and pinned. -/
theorem internRule_fresh (h : s.toCellTable.Inv pins) {d : RuleDescriptor} {r : ℕ}
    (hfind : s.ruleDictionary.find d.fingerprint = none) (he : s.internRule d = (s', some r)) :
    s'.toCellTable.Inv (update pins r true) ∧ s'.view = s.view ∧ SameCells s s' ∧
      Registered pins (update pins r true) s s' d r := by
  unfold internRule RuleDictionary.intern at he
  simp only [hfind, Option.isSome_none, Bool.false_eq_true, if_false] at he
  have hn := h.rules.find_none_iff.1 hfind
  split at he
  · rename_i rules slot hint
    cases he
    have hf := Dictionary.internFresh_some h.rules hn hint
    have hl := (hf.live r).2 (.inr rfl)
    have h0 : rules.refcounts r = 0 := by rw [hf.refcounts, h.rules.unused r hf.new]
    have hinv := Inv_incRef_rule (h.withRules hf.wf hf.refcounts) hl h0
    refine ⟨hinv, h.view_congr rfl rfl (fun y hy => congrArg _ (hf.keep hy)) fun _ _ => rfl,
      ⟨rfl, rfl, rfl, rfl, rfl, rfl, rfl, rfl, rfl, rfl⟩, ⟨hl, hf.descriptors_self, hf.live,
      fun y hy => ?_, fun hr => absurd hr hf.new, fun _ => update_self .., fun y hy => ?_⟩⟩
    · show rules.descriptors y = _
      rw [hf.descriptors, update_of_ne hy]
    · by_cases hyr : y = r
      · rw [hyr, update_self]
      · rw [update_of_ne hyr, hy]
  · cases he

theorem internRule_some (h : s.toCellTable.Inv pins) {d : RuleDescriptor} {r : ℕ}
    (he : s.internRule d = (s', some r)) :
    ∃ pins', s'.toCellTable.Inv pins' ∧ s'.view = s.view ∧ SameCells s s' ∧
      Registered pins pins' s s' d r := by
  cases hfind : s.ruleDictionary.find d.fingerprint with
  | some slot =>
    have hknown := internRule_known h hfind
    rw [he] at hknown
    obtain ⟨hr, hknown⟩ := hknown
    obtain rfl : r = slot := Option.some.inj hr
    exact ⟨pins, hknown⟩
  | none => exact ⟨_, internRule_fresh h hfind he⟩

theorem internRule_none (h : s.toCellTable.Inv pins) {d : RuleDescriptor}
    (he : s.internRule d = (s', none)) : Grows pins s s' ∧ s'.ruleDictionary = s.ruleDictionary := by
  unfold internRule at he
  split at he
  · cases he
  · cases he
    exact ⟨.of_table h rfl rfl rfl rfl rfl rfl, rfl⟩

/-- **Interning a rule leaves the cells alone.** -/
theorem internRule_spec (h : s.toCellTable.Inv pins) (d : RuleDescriptor) :
    ∃ pins', (s.internRule d).1.toCellTable.Inv pins' ∧ (s.internRule d).1.view = s.view ∧
      SameCells s (s.internRule d).1 := by
  cases hr : (s.internRule d).2 with
  | some r =>
    obtain ⟨pins', hi, hv, hs, -⟩ := internRule_some h (Prod.ext rfl hr)
    exact ⟨pins', hi, hv, hs⟩
  | none =>
    have hg := (internRule_none h (Prod.ext rfl hr)).1
    exact ⟨pins, hg.inv, hg.view, hg.same⟩

/-! ## A new store -/

theorem new_spec {config : CellStoreConfig} {id : NodeIdentity} (h : new w config id = some s) :
    s.toCellTable.Inv (fun _ => false) ∧ Lanes s ∧ (∀ x, s.isActive x = false) ∧
      (∀ r, ¬ s.ruleDictionary.Live r) ∧ s.localIdentity = id ∧
      s.capacity = config.cellCapacity := by
  unfold new at h
  split_ifs at h with h0
  simp only [Option.bind_eq_bind, Option.bind_eq_some_iff, Option.pure_def, Option.some.injEq] at h
  obtain ⟨i, hi, t, ht, nodes, hnodes, slot, hslot, rules, hrules, hs⟩ := h
  obtain ⟨hnw, -, -, hnl, hnr⟩ := Dictionary.withCapacity_spec hnodes
  obtain ⟨hrw, -, -, hrl, hrr⟩ := Dictionary.withCapacity_spec hrules
  obtain ⟨-, -, hlen, -⟩ := CellIndex.withCapacity_spec ht
  have hcap := index_capacity hi ht
  have hn : nodes.find id = none := hnw.find_none_iff.2 fun s hs => absurd hs (hnl s)
  have hint : NodeDictionary.intern nodes id = nodes.internFresh id := by
    simp only [NodeDictionary.intern, hn]
  rw [hint] at hslot hs
  have hf : nodes.Fresh (nodes.internFresh id).1 id slot :=
    Dictionary.internFresh_some hnw (fun s hs => absurd hs (hnl s)) (Prod.ext rfl hslot)
  have hact : ∀ x, s.isActive x = false := fun x => by rw [← hs]; rfl
  have huses : ∀ f r, s.uses f r = 0 := fun f r =>
    Slots.tally_zero fun x _ => by rw [hact, Bool.false_and]
  have hlive : (nodes.internFresh id).1.Live slot := (hf.live slot).2 (.inr rfl)
  refine ⟨⟨?_, ?_, ?_, ?_, ?_, ?_, fun r => ?_, fun o => ?_, ?_, fun x hx => ?_, fun x hx => ?_⟩,
    ⟨?_, ?_, ?_, fun x => ?_, ?_⟩, hact, ?_, by rw [← hs], by rw [← hs]⟩
  · rw [← hs]; exact Nat.pos_of_ne_zero h0
  · rw [← hs]; exact hcap.2
  · rw [← hs]
    exact Slab.init (Nat.pos_of_ne_zero h0) hcap.1 ht fun x => by
      have := hact x
      rw [← hs] at this
      rw [this]; simp
  · rw [← hs]; exact hlen.symm
  · rw [← hs]; exact hrw
  · rw [← hs]; exact hf.wf.incRef hlive
  · rw [huses, ← hs]; exact hrr r
  · rw [huses, ← hs]
    show ((nodes.internFresh id).1.incRef slot).refcounts o = 0 + (decide (o = slot)).toNat
    rw [Dictionary.incRef]
    by_cases ho : o = slot
    · subst ho
      simp [hf.refcounts, hnr, u32Max]
    · simp [ho, hf.refcounts, hnr]
  · rw [← hs]; exact hf.descriptors_self
  · rw [hact] at hx; cases hx
  · rw [hact] at hx; cases hx
  · rw [← hs]; exact DirtyRing.all_withCapacity _
  · rw [← hs]; exact DirtyRing.all_withCapacity _
  · rw [← hs]; exact Nat.pos_of_ne_zero h0
  · rw [← hs]
  · rw [← hs]; norm_num
  · rw [← hs]; exact hrl

end CellStore

end Gabion
