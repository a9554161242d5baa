/-
  One row of a batch, exactly.

  `RowStep` and `RowEffect` say what a row does to the map of cells.  Here the store a row
  leaves is given field by field: translating the rule and the origin takes at most one slot
  of each dictionary (`translateRule_cases`, `translateNode_cases`), and an upsert is one of
  four changes (`Upserted`).  `RowRun` puts them together; an ingested row is a row of the
  local identity, so both kinds of row are instances of it.
-/
import Gabion.StoreStep

namespace Gabion

open Function

namespace CellStore

variable {w : CountWidth} {pins : ℕ → Bool} {s s' : CellStore w}

/-! ## Translation -/

theorem translateRule_cases (s : CellStore w) (fp : Fingerprint) :
    (∃ r, s.ruleDictionary.find fp = some r ∧ s.translateRule fp = (s, some r)) ∨
    (s.ruleDictionary.find fp = none ∧ ∃ r, s.ruleDictionary.freeHead = some r ∧
      s.translateRule fp =
        ({ s with ruleDictionary := s.ruleDictionary.takeSlot r (.wireOnly fp) }, some r)) ∨
    (s.ruleDictionary.find fp = none ∧ s.ruleDictionary.freeHead = none ∧
      s.translateRule fp = (s.noteRuleDictionaryFull, none)) := by
  unfold translateRule
  cases hfind : s.ruleDictionary.find fp with
  | some r => exact .inl ⟨r, rfl, rfl⟩
  | none =>
    have hfind' : s.ruleDictionary.find (RuleDescriptor.wireOnly fp).fingerprint = none := hfind
    simp only [RuleDictionary.intern, hfind', Dictionary.internFresh]
    cases hh : s.ruleDictionary.freeHead with
    | some r => exact .inr (.inl ⟨trivial, r, rfl, rfl⟩)
    | none => exact .inr (.inr ⟨trivial, rfl, rfl⟩)

theorem internNode_cases (s : CellStore w) (id : NodeIdentity) :
    (∃ o, s.nodeDictionary.find id = some o ∧ s.internNode id = (s, some o)) ∨
    (s.nodeDictionary.find id = none ∧ ∃ o, s.nodeDictionary.freeHead = some o ∧
      s.internNode id = ({ s with nodeDictionary := s.nodeDictionary.takeSlot o id }, some o)) ∨
    (s.nodeDictionary.find id = none ∧ s.nodeDictionary.freeHead = none ∧
      s.internNode id = (s.noteNodeDictionaryFull, none)) := by
  unfold internNode NodeDictionary.intern
  cases hfind : s.nodeDictionary.find id with
  | some o => exact .inl ⟨o, rfl, rfl⟩
  | none =>
    simp only [Dictionary.internFresh]
    cases hh : s.nodeDictionary.freeHead with
    | some o => exact .inr (.inl ⟨trivial, o, rfl, rfl⟩)
    | none => exact .inr (.inr ⟨trivial, rfl, rfl⟩)

/-- Looking the identity up first makes no difference. -/
theorem translateNode_eq (s : CellStore w) (id : NodeIdentity) :
    s.translateNode id = s.internNode id := by
  unfold translateNode
  cases hfind : s.nodeDictionary.find id with
  | some o => simp only [internNode, NodeDictionary.intern, hfind]
  | none => rfl

/-! ## Upserts -/

/-- The sequence the next change of a cell of `origin` gets. -/
def nextSequence (s : CellStore w) (origin : ℕ) : ℕ := min (s.nextSequenceByOrigin origin + 1) u64Max

/-- The store after the cell in `x` has changed: the table `t`, the counter of the origin one
    further, and a dirty entry for the cell. -/
def announced (s : CellStore w) (t : CellTable w) (origin x : ℕ) : CellStore w :=
  ({ s with
      toCellTable := t
      nextSequenceByOrigin := update s.nextSequenceByOrigin origin (s.nextSequence origin) } :
    CellStore w).pushDirty origin (t.handleFor x) (s.nextSequence origin)

theorem announced_toCellTable (s : CellStore w) (t : CellTable w) (origin x : ℕ) :
    (s.announced t origin x).toCellTable = t := pushDirty_toCellTable ..

theorem announced_nextSequenceByOrigin (s : CellStore w) (t : CellTable w) (origin x : ℕ) :
    (s.announced t origin x).nextSequenceByOrigin =
      update s.nextSequenceByOrigin origin (s.nextSequence origin) := by
  unfold announced pushDirty
  dsimp only
  split_ifs <;> rfl

theorem announced_peerFrontiers (s : CellStore w) (t : CellTable w) (origin x : ℕ) :
    (s.announced t origin x).peerFrontiers = s.peerFrontiers := by
  unfold announced pushDirty
  dsimp only
  split_ifs <;> rfl

theorem announced_localDirty (s : CellStore w) (t : CellTable w) (origin x : ℕ) :
    (s.announced t origin x).localDirty = if origin = t.localNodeSlot then
      s.localDirty.push ⟨t.handleFor x, s.nextSequence origin⟩ else s.localDirty := by
  unfold announced pushDirty
  dsimp only
  split_ifs <;> rfl

theorem announced_forwardedDirty (s : CellStore w) (t : CellTable w) (origin x : ℕ) :
    (s.announced t origin x).forwardedDirty = if origin = t.localNodeSlot then s.forwardedDirty else
      s.forwardedDirty.push ⟨t.handleFor x, s.nextSequence origin⟩ := by
  unfold announced pushDirty
  dsimp only
  split_ifs <;> rfl

theorem announced_repairCursor (s : CellStore w) (t : CellTable w) (origin x : ℕ) :
    (s.announced t origin x).repairCursor = s.repairCursor := pushDirty_repairCursor ..

/-- **What an upsert under `key` does**: it finds no free slot, leaves the cell as it is,
    replaces it, or places a new one. -/
inductive Upserted (s : CellStore w) (key : CompactCellKey) : CellStore w → RowResult → Prop
  | full : s.freeHead = none → (∀ y, s.isActive y = true → (s.cells y).key ≠ key) →
      Upserted s key s.noteCellStoreFull (.error .cellStoreFull)
  | same (x : ℕ) : s.isActive x = true → (s.cells x).key = key →
      Upserted s key s (.ok { handle := s.handleFor x, changed := false, delta := none })
  | raised (x : ℕ) (c : Cell) (delta : Option CellDelta) : s.isActive x = true →
      (s.cells x).key = key → c.key = key → c.originSequence = s.nextSequence key.origin →
      Upserted s key (s.announced (s.toCellTable.setCell x c) key.origin x)
        (.ok { handle := s.handleFor x, changed := true, delta })
  | placed (x : ℕ) (c : Cell) (delta : Option CellDelta) : s.freeHead = some x →
      (∀ y, s.isActive y = true → (s.cells y).key ≠ key) → c.key = key →
      c.originSequence = s.nextSequence key.origin →
      Upserted s key (s.announced (s.toCellTable.place x c) key.origin x)
        (.ok { handle := (s.toCellTable.place x c).handleFor x, changed := true, delta })

theorem upsert_upserted (h : s.toCellTable.Inv pins) (spec : UpsertSpec) (sink : List CellDelta) :
    Upserted s spec.key (s.upsert spec sink).1 (s.upsert spec sink).2.2 := by
  unfold upsert
  cases hfind : s.lookupIndex spec.key with
  | some x =>
    obtain ⟨hx, hk⟩ := h.slab.find_iff.1 hfind
    dsimp only [updateCell]
    split_ifs with hnext
    · exact .same x hx hk
    · exact .raised x _ _ hx hk hk rfl
  | none =>
    have hk := h.slab.find_none_iff.1 hfind
    dsimp only [insertCell, CellTable.allocSlot]
    cases hh : s.freeHead with
    | none => exact .full hh hk
    | some x => exact .placed x _ _ hh hk rfl rfl

/-! ## Rows -/

/-- **What a row for a rule and an origin does.** -/
inductive RowRun (s : CellStore w) (fp : Fingerprint) (id : NodeIdentity) :
    CellStore w → RowResult → Prop
  | ruleFull {s' : CellStore w} : s.translateRule fp = (s', none) →
      RowRun s fp id s' (.error .ruleDictionaryFull)
  | nodeFull {s₁ s' : CellStore w} {r : ℕ} : s.translateRule fp = (s₁, some r) →
      s₁.internNode id = (s', none) → RowRun s fp id s' (.error .nodeDictionaryFull)
  | upserted {s₁ s₂ s' : CellStore w} {r o : ℕ} {res : RowResult} (keyHash : KeyHash)
      (bucket : BucketEpoch) : s.translateRule fp = (s₁, some r) →
      s₁.internNode id = (s₂, some o) →
      Upserted s₂ ⟨r, keyHash, bucket, o, id.incarnation⟩ s' res → RowRun s fp id s' res

theorem mergeRow_runs (h : s.toCellTable.Inv pins) (obs : Observation w) (sink : List CellDelta) :
    RowRun s obs.ruleFingerprint ⟨obs.origin, obs.incarnation⟩ (s.mergeRow obs sink).1
      (s.mergeRow obs sink).2.2 := by
  unfold mergeRow
  rcases ht : s.translateRule obs.ruleFingerprint with ⟨s₁, _ | r⟩
  · exact .ruleFull ht
  · have hg := (translateRule_some h ht).1
    dsimp only
    rw [translateNode_eq]
    rcases hn : s₁.internNode ⟨obs.origin, obs.incarnation⟩ with ⟨s₂, _ | o⟩
    · exact .nodeFull ht hn
    · have hg₂ := (translateNode_some hg.inv ((translateNode_eq ..).trans hn)).1
      have hup := upsert_upserted hg₂.inv ⟨⟨r, obs.keyHash, obs.bucket, o, obs.incarnation⟩,
        obs.lastUpdateMillis, .maxMerge obs.count⟩ sink
      exact .upserted obs.keyHash obs.bucket ht hn hup

/-- An ingested row is a row of the local identity: that one is always interned. -/
theorem ingestRow_runs (h : s.toCellTable.Inv pins) (obs : Observation w) (sink : List CellDelta) :
    RowRun s obs.ruleFingerprint s.localIdentity (s.ingestRow obs sink).1
      (s.ingestRow obs sink).2.2 := by
  unfold ingestRow
  rcases ht : s.translateRule obs.ruleFingerprint with ⟨s₁, _ | r⟩
  · exact .ruleFull ht
  · have hg := (translateRule_some h ht).1
    have hfind : s₁.nodeDictionary.find s₁.localIdentity = some s₁.localNodeSlot :=
      hg.inv.nodes.find_iff.2 ⟨hg.inv.local_live, hg.inv.local_id⟩
    have hn : s₁.internNode s.localIdentity = (s₁, some s₁.localNodeSlot) := by
      simp only [internNode, NodeDictionary.intern, ← hg.same.localIdentity, hfind]
    have hup := upsert_upserted hg.inv ⟨⟨r, obs.keyHash, obs.bucket, s₁.localNodeSlot,
      s₁.localIdentity.incarnation⟩, obs.lastUpdateMillis, .accumulate obs.count⟩ sink
    dsimp only
    rw [hg.same.localIdentity] at hup ⊢
    exact .upserted obs.keyHash obs.bucket ht hn hup

/-- The compact key of the local node's cell for a row. -/
def localKey (s : CellStore w) (r : ℕ) (obs : Observation w) : CompactCellKey where
  rule := r
  keyHash := obs.keyHash
  bucket := obs.bucket
  origin := s.localNodeSlot
  incarnation := s.localIdentity.incarnation

theorem ingestRow_known {obs : Observation w} {r : ℕ}
    (hr : s.ruleDictionary.find obs.ruleFingerprint = some r) (sink : List CellDelta) :
    s.ingestRow obs sink =
      s.upsert ⟨s.localKey r obs, obs.lastUpdateMillis, .accumulate obs.count⟩ sink := by
  simp only [ingestRow, translateRule, hr]
  rfl

theorem idOfKey_localKey (h : s.toCellTable.Inv pins) {obs : Observation w} {r : ℕ}
    (hr : s.ruleDictionary.find obs.ruleFingerprint = some r) :
    s.GoodKey (s.localKey r obs) ∧
      s.idOfKey (s.localKey r obs) = obs.localId s.localIdentity := by
  obtain ⟨hlive, hfp⟩ := h.rules.find_iff.1 hr
  have hid := h.local_id
  refine ⟨⟨hlive, h.local_live, congrArg NodeIdentity.incarnation hid.symm⟩, ?_⟩
  have hfp : (s.ruleDictionary.descriptors r).fingerprint = obs.ruleFingerprint := hfp
  simp only [CellTable.idOfKey, localKey, Observation.localId, hfp, hid]

/-- The cell a row of the local node counts on has the row's key. -/
theorem key_of_localId (h : s.toCellTable.Inv pins) {obs : Observation w} {x : ℕ}
    (hx : s.isActive x = true) (hid : s.idOf x = obs.localId s.localIdentity) :
    s.ruleDictionary.find obs.ruleFingerprint = some (s.cells x).key.rule ∧
      (s.cells x).key = s.localKey (s.cells x).key.rule obs := by
  have hfp : (s.ruleDictionary.descriptors (s.cells x).key.rule).fingerprint =
      obs.ruleFingerprint := congrArg CellId.ruleFingerprint hid
  have hr : s.ruleDictionary.find obs.ruleFingerprint = some (s.cells x).key.rule :=
    h.rules.find_iff.2 ⟨h.rule_live hx, hfp⟩
  obtain ⟨hgood, hkey⟩ := idOfKey_localKey h hr
  exact ⟨hr, h.idOfKey_inj (h.goodKey hx) hgood (hid.trans hkey.symm)⟩

/-- A row that counts on the cell in `x`. -/
theorem ingestRow_raised (h : s.toCellTable.Inv pins) {obs : Observation w} {x : ℕ}
    (hx : s.isActive x = true) (hid : s.idOf x = obs.localId s.localIdentity)
    (hne : w.saturatingAddHits (s.cells x).count obs.count ≠ (s.cells x).count)
    (sink : List CellDelta) :
    (s.ingestRow obs sink).1 = s.announced (s.toCellTable.setCell x
        { s.cells x with
          count := w.saturatingAddHits (s.cells x).count obs.count
          lastUpdateMillis := obs.lastUpdateMillis
          originSequence := s.nextSequence s.localNodeSlot }) s.localNodeSlot x ∧
      ∃ delta, (s.ingestRow obs sink).2.2 =
        .ok { handle := s.handleFor x, changed := true, delta } := by
  obtain ⟨hr, hk⟩ := key_of_localId h hx hid
  have hfind : s.lookupIndex (s.localKey (s.cells x).key.rule obs) = some x :=
    h.slab.find_iff.2 ⟨hx, hk⟩
  have hnext : (UpsertMode.accumulate obs.count).next w (s.cells x).count ≠ (s.cells x).count := hne
  rw [ingestRow_known hr, upsert, hfind]
  dsimp only [updateCell]
  rw [if_neg hnext]
  exact ⟨rfl, _, rfl⟩

/-- A row that starts a cell in the free slot `x`. -/
theorem ingestRow_placed (h : s.toCellTable.Inv pins) {obs : Observation w} {x r : ℕ}
    (hfree : s.freeHead = some x) (hr : s.ruleDictionary.find obs.ruleFingerprint = some r)
    (hnone : ∀ y, s.isActive y = true → s.idOf y ≠ obs.localId s.localIdentity)
    (sink : List CellDelta) : ∃ c, c.key = s.localKey r obs ∧
      c.originSequence = s.nextSequence s.localNodeSlot ∧
      (s.ingestRow obs sink).1 = s.announced (s.toCellTable.place x c) s.localNodeSlot x := by
  have hk : ∀ y, s.isActive y = true → (s.cells y).key ≠ s.localKey r obs := fun y hy he =>
    hnone y hy (by rw [CellTable.idOf, he, (idOfKey_localKey h hr).2])
  have hfind : s.lookupIndex (s.localKey r obs) = none := h.slab.find_none_iff.2 hk
  rw [ingestRow_known hr, upsert, hfind]
  dsimp only [insertCell, CellTable.allocSlot]
  rw [hfree]
  exact ⟨_, rfl, rfl, rfl⟩

/-! ## Sinks -/

/-- The store an upsert leaves does not depend on the sink. -/
theorem upsert_store (s : CellStore w) (spec : UpsertSpec) (sink sink' : List CellDelta) :
    (s.upsert spec sink).1 = (s.upsert spec sink').1 := by
  unfold upsert
  cases s.lookupIndex spec.key with
  | some x =>
    dsimp only [updateCell]
    split_ifs <;> rfl
  | none =>
    dsimp only [insertCell]
    cases s.toCellTable.allocSlot with
    | mk t slot => cases slot <;> rfl

theorem ingestRow_store (s : CellStore w) (obs : Observation w) (sink sink' : List CellDelta) :
    (s.ingestRow obs sink).1 = (s.ingestRow obs sink').1 := by
  unfold ingestRow
  rcases s.translateRule obs.ruleFingerprint with ⟨s₁, _ | r⟩
  · rfl
  · exact upsert_store s₁ _ sink sink'

theorem mergeRow_store (s : CellStore w) (obs : Observation w) (sink sink' : List CellDelta) :
    (s.mergeRow obs sink).1 = (s.mergeRow obs sink').1 := by
  unfold mergeRow
  rcases s.translateRule obs.ruleFingerprint with ⟨s₁, _ | r⟩
  · rfl
  · dsimp only
    rcases s₁.translateNode ⟨obs.origin, obs.incarnation⟩ with ⟨s₂, _ | o⟩
    · rfl
    · exact upsert_store s₂ _ sink sink'

end CellStore

end Gabion
