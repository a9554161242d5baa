/-
  Identities that outlive their cells.

  A row interns its rule and its origin before it asks for a cell slot.  When it is rejected
  then, what it has interned keeps a dictionary slot that no cell refers to, and only a cell
  could give it back (`rejected_row_strands`).  Runs without such rows return every slot
  that was taken for a remote rule or origin (`stale_identities_returned`): each interned
  slot has a reference (`Held`), so without cells only registered rules and the local node
  are left.
-/
import Gabion.Lifecycle

namespace Gabion

open Function

/-! ## Referenced dictionaries -/

namespace Dictionary

variable {δ κ : Type} [Interned δ κ] {d d' : Dictionary δ} {x : δ} {s : ℕ}

/-- Every interned slot has a reference. -/
def Held (d : Dictionary δ) : Prop := ∀ y, d.Live y → 0 < d.refcounts y

/-- Every interned slot has a reference, apart from `s`, maybe. -/
def HeldBut (d : Dictionary δ) (s : ℕ) : Prop := ∀ y, d.Live y → y ≠ s → 0 < d.refcounts y

theorem Held.but (h : d.Held) (s : ℕ) : d.HeldBut s := fun y hy _ => h y hy

theorem HeldBut.held (h : d.HeldBut s) (hs : 0 < d.refcounts s) : d.Held := fun y hy => by
  by_cases hys : y = s
  · rw [hys]; exact hs
  · exact h y hy hys

theorem Fresh.heldBut (hf : d.Fresh d' x s) (h : d.Held) : d'.HeldBut s := fun y hy hys => by
  rw [hf.refcounts]
  exact h y (((hf.live y).1 hy).resolve_right hys)

theorem HeldBut.incRef (h : d.HeldBut s) : (d.incRef s).Held := by
  intro y hy
  simp only [Dictionary.incRef, update_apply]
  split_ifs with hys
  · unfold u32Max; omega
  · exact h y hy hys

/-- A slot that is not freed still has a reference. -/
theorem Dropped.held {freed : Bool} (hd : d.Dropped d' s freed) (h : d.Held) : d'.Held := by
  intro y hy
  obtain ⟨hlive, hkept⟩ := (hd.live y).1 hy
  have hpos := h y hlive
  rw [hd.refcounts, update_apply]
  split_ifs with hys
  · have hone : d.refcounts s ≠ 1 := fun h1 => hkept ⟨hys, hd.freed_iff.2 h1⟩
    rw [hys] at hpos
    omega
  · exact hpos

end Dictionary

namespace CellStore

variable {w : CountWidth} {pins : ℕ → Bool} {s s' s₁ : CellStore w}

/-! ## Rows that are rejected late -/

/-- A row for the rule `fp` and the origin `id` takes a dictionary slot for one of them, and is
    rejected then: there is no slot for the origin, or no free cell. -/
def strandsRow (s : CellStore w) (fp : Fingerprint) (id : NodeIdentity) : Bool :=
  let newRule := (s.ruleDictionary.find fp).isNone
  let newNode := (s.nodeDictionary.find id).isNone
  let ruleFull := newRule && s.ruleDictionary.freeHead.isNone
  let nodeFull := newNode && s.nodeDictionary.freeHead.isNone
  !ruleFull && (newRule || newNode && !nodeFull) && (nodeFull || s.freeHead.isNone)

def strands (s : CellStore w) : StoreStep w → Bool
  | .ingestRow obs => s.strandsRow obs.ruleFingerprint s.localIdentity
  | .mergeRow obs => s.strandsRow obs.ruleFingerprint ⟨obs.origin, obs.incarnation⟩
  | _ => false

/-- Some row of the run strands what it has interned. -/
def strandsRun (s : CellStore w) : List (StoreStep w) → Bool
  | [] => false
  | st :: steps => s.strands st || (s.step st).strandsRun steps

/-! ## What a row leaves referenced -/

/-- What translating a rule does to the references: only the slot found may lack one, and a
    known rule changes nothing. -/
theorem translateRule_heldBut (h : s.toCellTable.Inv pins) (hh : s.ruleDictionary.Held)
    {fp : Fingerprint} {r : ℕ} (ht : s.translateRule fp = (s₁, some r)) :
    s₁.ruleDictionary.HeldBut r ∧ s₁.nodeDictionary = s.nodeDictionary ∧ s₁.freeHead = s.freeHead ∧
      (s₁ = s ∧ s.ruleDictionary.find fp ≠ none ∨
        s.ruleDictionary.find fp = none ∧ s.ruleDictionary.freeHead ≠ none) := by
  rcases translateRule_cases s fp with ⟨r', hfind, he⟩ | ⟨hfind, r', hfree, he⟩ | ⟨-, -, he⟩
  · rw [he] at ht
    cases ht
    exact ⟨hh.but r, rfl, rfl, .inl ⟨rfl, by rw [hfind]; exact Option.some_ne_none _⟩⟩
  · rw [he] at ht
    cases ht
    have hf := Dictionary.fresh_takeSlot (x := RuleDescriptor.wireOnly fp) h.rules
      (h.rules.find_none_iff.1 hfind) hfree
    exact ⟨hf.heldBut hh, rfl, rfl, .inr ⟨hfind, by rw [hfree]; exact Option.some_ne_none _⟩⟩
  · rw [he] at ht
    cases ht

theorem internNode_heldBut (h : s.toCellTable.Inv pins) (hh : s.nodeDictionary.Held)
    {id : NodeIdentity} {o : ℕ} (hn : s.internNode id = (s₁, some o)) :
    s₁.nodeDictionary.HeldBut o ∧ s₁.ruleDictionary = s.ruleDictionary ∧ s₁.freeHead = s.freeHead ∧
      (s₁ = s ∨ s.nodeDictionary.find id = none ∧ s.nodeDictionary.freeHead ≠ none) := by
  rcases internNode_cases s id with ⟨o', -, he⟩ | ⟨hfind, o', hfree, he⟩ | ⟨-, -, he⟩
  · rw [he] at hn
    cases hn
    exact ⟨hh.but o, rfl, rfl, .inl rfl⟩
  · rw [he] at hn
    cases hn
    have hf := Dictionary.fresh_takeSlot (x := id) h.nodes (h.nodes.find_none_iff.1 hfind) hfree
    exact ⟨hf.heldBut hh, rfl, rfl, .inr ⟨hfind, by rw [hfree]; exact Option.some_ne_none _⟩⟩
  · rw [he] at hn
    cases hn

/-- A row that places no cell under a key refers to both slots of the key already; one that
    places a cell takes the references. -/
theorem Upserted.held {key : CompactCellKey} {res : RowResult} (h : s.toCellTable.Inv pins)
    (hu : Upserted s key s' res) (hrules : s.ruleDictionary.HeldBut key.rule)
    (hnodes : s.nodeDictionary.HeldBut key.origin)
    (hfull : s.freeHead = none → s.ruleDictionary.Held ∧ s.nodeDictionary.Held) :
    s'.ruleDictionary.Held ∧ s'.nodeDictionary.Held := by
  cases hu with
  | full hfree => exact hfull hfree
  | same x hx hk =>
    subst hk
    exact ⟨hrules.held (h.rule_pos hx), hnodes.held (h.node_pos hx)⟩
  | raised x c delta hx hk =>
    subst hk
    rw [announced_toCellTable]
    exact ⟨hrules.held (h.rule_pos hx), hnodes.held (h.node_pos hx)⟩
  | placed x c delta hh hk hc =>
    rw [announced_toCellTable]
    subst hc
    exact ⟨hrules.incRef, hnodes.incRef⟩

theorem RowRun.held {fp : Fingerprint} {id : NodeIdentity} {res : RowResult}
    (h : s.toCellTable.Inv pins) (hr : RowRun s fp id s' res) (hrules : s.ruleDictionary.Held)
    (hnodes : s.nodeDictionary.Held) (hs : s.strandsRow fp id = false) :
    s'.ruleDictionary.Held ∧ s'.nodeDictionary.Held := by
  cases hr with
  | ruleFull ht =>
    rcases translateRule_cases s fp with ⟨r', -, he⟩ | ⟨-, r', -, he⟩ | ⟨-, -, he⟩
    · rw [he] at ht; cases ht
    · rw [he] at ht; cases ht
    · rw [he] at ht; cases ht
      exact ⟨hrules, hnodes⟩
  | nodeFull ht hn =>
    obtain ⟨-, hnd, -, hknown⟩ := translateRule_heldBut h hrules ht
    rcases internNode_cases _ id with ⟨o', -, he⟩ | ⟨-, o', -, he⟩ | ⟨hfind, hfree, he⟩
    · rw [he] at hn; cases hn
    · rw [he] at hn; cases hn
    · rw [he] at hn; cases hn
      rcases hknown with ⟨rfl, -⟩ | ⟨hnew, hroom⟩
      · exact ⟨hrules, hnodes⟩
      · -- a new rule, and no slot for the origin
        rw [hnd] at hfind hfree
        simp [strandsRow, hnew, hroom, hfind, hfree] at hs
  | upserted kh b ht hn hu =>
    have hg := (translateRule_some h ht).1
    have hg₂ := (internNode_some hg.inv hn).1
    obtain ⟨hr₁, hnd, hfree₁, hknown⟩ := translateRule_heldBut h hrules ht
    obtain ⟨hn₂, hrd, hfree₂, hknown₂⟩ := internNode_heldBut hg.inv (hnd ▸ hnodes) hn
    refine hu.held hg₂.inv (hrd ▸ hr₁) hn₂ fun hfull => ?_
    rw [hfree₂, hfree₁] at hfull
    rcases hknown with ⟨rfl, hfound⟩ | ⟨hnew, hroom⟩
    · rcases hknown₂ with rfl | ⟨hnew, hroom⟩
      · exact ⟨hrules, hnodes⟩
      · -- a new origin, and no free cell
        simp [strandsRow, hfound, hnew, hroom, hfull] at hs
    · -- a new rule, and no free cell
      simp [strandsRow, hnew, hroom, hfull] at hs

/-! ## Runs -/

/-- Every interned slot has a reference, and the pinned rules are registered ones. -/
structure Clean (registered : Fingerprint → Prop) (pins : ℕ → Bool) (s : CellStore w) : Prop where
  rules : s.ruleDictionary.Held
  nodes : s.nodeDictionary.Held
  pinned : ∀ r, pins r = true → registered (s.ruleDictionary.descriptors r).fingerprint

variable {registered : Fingerprint → Prop}

theorem pinned_live (h : s.toCellTable.Inv pins) {r : ℕ} (hp : pins r = true) :
    s.ruleDictionary.Live r := h.rules.live_of_pos (by
  rw [h.rule_refs, hp]
  exact Nat.succ_pos _)

theorem SameCells.uses (hs : SameCells s s') (f : CompactCellKey → ℕ) (r : ℕ) :
    s'.uses f r = s.uses f r := by
  simp only [CellTable.uses, CellTable.isActive, hs.cells, hs.generations, hs.capacity]

theorem internRule_nodeDictionary (s : CellStore w) (d : RuleDescriptor) :
    (s.internRule d).1.nodeDictionary = s.nodeDictionary := by
  unfold internRule
  rcases RuleDictionary.intern s.ruleDictionary d with ⟨rules, _ | r⟩ <;> rfl

/-- Registering a rule: its slot keeps the references it had, or is pinned. -/
theorem Registered.clean {pins' : ℕ → Bool} {d : RuleDescriptor} {r : ℕ}
    (hreg : Registered pins pins' s s' d r) (h : s.toCellTable.Inv pins)
    (h' : s'.toCellTable.Inv pins') (hs : SameCells s s')
    (hnodes : s'.nodeDictionary = s.nodeDictionary) (hc : Clean registered pins s)
    (hpins : ∀ y, pins' y = true → pins y = true ∨ y = r) :
    Clean (fun fp => registered fp ∨ d.fingerprint = fp) pins' s' := by
  refine ⟨fun y hy => ?_, hnodes ▸ hc.nodes, fun y hy => ?_⟩
  · rw [h'.rule_refs, hs.uses]
    by_cases hlive : s.ruleDictionary.Live y
    · have hpos := hc.rules y hlive
      rw [h.rule_refs] at hpos
      cases hp : pins y with
      | true => rw [hreg.pins y hp]; exact Nat.succ_pos _
      | false =>
        rw [hp] at hpos
        exact Nat.add_pos_left hpos _
    · obtain rfl := ((hreg.live y).1 hy).resolve_left hlive
      rw [hreg.pin hlive]
      exact Nat.succ_pos _
  · by_cases hyr : y = r
    · rw [hyr, hreg.desc_self]
      exact .inr rfl
    · rw [hreg.desc y hyr]
      exact .inl (hc.pinned y ((hpins y hy).resolve_right hyr))

theorem Clean.internRule (hc : Clean registered pins s) (h : s.toCellTable.Inv pins)
    (d : RuleDescriptor) :
    Clean (fun fp => registered fp ∨ d.fingerprint = fp)
      (fun r => pins r || s.creates (.internRule d) r) (s.internRule d).1 := by
  have hnodes := internRule_nodeDictionary s d
  obtain ⟨hi, -, hs, ⟨r, hreg, hpins⟩ | ⟨hdict, hpins⟩⟩ := internRule_cases h d rfl
  · exact hreg.clean h hi hs hnodes hc hpins
  · rw [hpins]
    refine ⟨hdict ▸ hc.rules, hnodes ▸ hc.nodes, fun y hy => ?_⟩
    rw [hdict]
    exact .inl (hc.pinned y hy)

theorem Clean.row {fp : Fingerprint} {id : NodeIdentity} {res : RowResult}
    (hc : Clean registered pins s) (h : s.toCellTable.Inv pins) (hr : RowRun s fp id s' res)
    (hrow : RowStep pins s s') (hs : s.strandsRow fp id = false) : Clean registered pins s' := by
  obtain ⟨hrules, hnodes⟩ := hr.held h hc.rules hc.nodes hs
  refine ⟨hrules, hnodes, fun r hp => ?_⟩
  rw [(hrow.rules.keep r (pinned_live h hp)).2]
  exact hc.pinned r hp

theorem Clean.freeCellAt (hc : Clean registered pins s) (h : s.toCellTable.Inv pins) {x : ℕ}
    (hx : s.isActive x = true) : Clean registered pins (s.freeCellAt x) := by
  have hrule := Dictionary.decRef_spec h.rules (h.rule_pos hx)
  have hnode := Dictionary.decRef_spec h.nodes (h.node_pos hx)
  refine ⟨?_, ?_, fun r hp => ?_⟩
  · rw [freeCellAt_toCellTable]
    exact hrule.held hc.rules
  · rw [freeCellAt_toCellTable]
    exact hnode.held hc.nodes
  · rw [((freeCellAt_spec h hx).1.pinned hp).2]
    exact hc.pinned r hp

theorem Clean.of_table (hc : Clean registered pins s) (ht : s'.toCellTable = s.toCellTable) :
    Clean registered pins s' :=
  ⟨by rw [ht]; exact hc.rules, by rw [ht]; exact hc.nodes, by rw [ht]; exact hc.pinned⟩

theorem Clean.mono {registered' : Fingerprint → Prop} (hc : Clean registered pins s)
    (hr : ∀ fp, registered fp → registered' fp) : Clean registered' pins s :=
  ⟨hc.rules, hc.nodes, fun r hp => hr _ (hc.pinned r hp)⟩

/-- What a step keeps that strands nothing. -/
theorem Clean.step (hc : Clean registered pins s) (h : s.toCellTable.Inv pins) {st : StoreStep w}
    (hnode : ∀ id, st ≠ .internNode id) (hs : s.strands st = false) :
    Clean (fun fp => registered fp ∨ ∃ d, st = .internRule d ∧ d.fingerprint = fp)
      (fun r => pins r || s.creates st r) (s.step st) := by
  cases st with
  | internRule d =>
    exact (hc.internRule h d).mono fun fp => Or.imp id fun hd => ⟨d, rfl, hd⟩
  | internNode id => exact absurd rfl (hnode id)
  | ingestRow obs =>
    simp only [creates, Bool.or_false]
    exact (hc.row h (ingestRow_runs h obs []) (ingestRow_spec h obs []).1 hs).mono fun _ => .inl
  | mergeRow obs =>
    simp only [creates, Bool.or_false]
    exact (hc.row h (mergeRow_runs h obs []) (mergeRow_spec h obs []).1 hs).mono fun _ => .inl
  | expireSlot cur live x =>
    simp only [creates, Bool.or_false, CellStore.step, expireStep]
    split_ifs with hx
    · exact (hc.freeCellAt h (Bool.and_eq_true_iff.1 hx).1).mono fun _ => .inl
    · exact hc.mono fun _ => .inl
  | clearSlot x =>
    simp only [creates, Bool.or_false, CellStore.step]
    split_ifs with hx
    · exact (hc.freeCellAt h hx).mono fun _ => .inl
    · exact hc.mono fun _ => .inl
  | fillFrame maxCells dest =>
    simp only [creates, Bool.or_false, CellStore.step]
    rw [fillFrameFor_eq]
    exact (hc.of_table (sameData_fillFrame s _ maxCells).table).mono fun _ => .inl
  | visitRepairSlice maxCells visit =>
    simp only [creates, Bool.or_false]
    exact (hc.of_table (sameData_visitRepairSlice s maxCells visit).table).mono fun _ => .inl
  | clearDirty | resetSelection | setFrontiers table =>
    simp only [creates, Bool.or_false]
    exact (hc.mono fun _ => .inl).of_table rfl

theorem Clean.run (hc : Clean registered pins s) (h : s.toCellTable.Inv pins)
    {steps : List (StoreStep w)} (hnode : ∀ id, StoreStep.internNode id ∉ steps)
    (hs : s.strandsRun steps = false) :
    Clean (fun fp => registered fp ∨ ∃ d, .internRule d ∈ steps ∧ d.fingerprint = fp)
      (fun r => pins r || s.created steps r) (s.runSteps steps) := by
  induction steps generalizing s pins registered with
  | nil =>
    simp only [created, Bool.or_false]
    exact hc.mono fun _ => .inl
  | cons st steps ih =>
    obtain ⟨hst, hrest⟩ := Bool.or_eq_false_iff.1 hs
    have hstep := hc.step h (fun id he => hnode id (he ▸ List.mem_cons_self ..)) hst
    simp only [created, ← Bool.or_assoc]
    refine (ih hstep (step_spec h st).inv (fun id hm => hnode id (List.mem_cons_of_mem _ hm))
      hrest).mono ?_
    rintro fp ((hreg | ⟨d, rfl, hd⟩) | ⟨d, hm, hd⟩)
    · exact .inl hreg
    · exact .inr ⟨d, List.mem_cons_self .., hd⟩
    · exact .inr ⟨d, List.mem_cons_of_mem _ hm, hd⟩

/-- A new store has interned its own identity only. -/
theorem new_nodes {config : CellStoreConfig} {id : NodeIdentity} (hnew : new w config id = some s) :
    ∀ o, s.nodeDictionary.Live o → o = s.localNodeSlot := by
  unfold new at hnew
  split_ifs at hnew with h0
  simp only [Option.bind_eq_bind, Option.bind_eq_some_iff, Option.pure_def, Option.some.injEq] at hnew
  obtain ⟨-, -, -, -, nodes, hnodes, slot, hslot, -, -, rfl⟩ := hnew
  obtain ⟨hw, -, -, hl, -⟩ := Dictionary.withCapacity_spec hnodes
  have hn : nodes.find id = none := hw.find_none_iff.2 fun y hy => absurd hy (hl y)
  have hint : NodeDictionary.intern nodes id = nodes.internFresh id := by
    simp only [NodeDictionary.intern, hn]
  have hf := Dictionary.internFresh_some (x := id) hw (fun y hy => absurd hy (hl y))
    (Prod.ext rfl (hint ▸ hslot))
  intro o ho
  have ho : (nodes.internFresh id).1.Live o := hint ▸ ho
  exact ((hf.live o).1 ho).resolve_left (hl o)

theorem clean_new {config : CellStoreConfig} {id : NodeIdentity} (hnew : new w config id = some s) :
    Clean (fun _ => False) (fun _ => false) s := by
  obtain ⟨h, -, -, hrules, -⟩ := new_spec hnew
  refine ⟨fun r hr => absurd hr (hrules r), fun o ho => ?_, fun r hr => by cases hr⟩
  rw [new_nodes hnew o ho, h.node_refs]
  simp

theorem uses_of_empty (h : s.toCellTable.Inv pins) (h0 : s.activeLen = 0) (f : CompactCellKey → ℕ)
    (r : ℕ) : s.uses f r = 0 := by
  refine Slots.tally_zero fun x hx => ?_
  have hnone : s.isActive x = false := by
    by_contra hc
    have hpos := Slots.tally_pos.2 ⟨x, hx, by simpa using hc⟩
    rw [← h.activeLen_eq, h0] at hpos
    exact absurd hpos (lt_irrefl 0)
  rw [hnone, Bool.false_and]

/-- **Stale identities are given back**, in runs whose rows are not rejected after they have
    interned something: without an active cell, only the local node and registered rules are
    interned.  (`intern_node` takes a slot by itself; it is not among the calls.) -/
theorem stale_identities_returned (config : CellStoreConfig) (id : NodeIdentity) (s₀ : CellStore w)
    (hnew : new w config id = some s₀) (calls : List (StoreCall w))
    (hcalls : ∀ node, StoreCall.internNode node ∉ calls)
    (hroom : s₀.strandsRun (s₀.stepsOf calls) = false) (hempty : (s₀.run calls).activeLen = 0) :
    (∀ node, ((s₀.run calls).nodeDictionary.find node).isSome = true → node = id) ∧
      ∀ fp, ((s₀.run calls).ruleDictionary.find fp).isSome = true →
        ∃ d, StoreCall.internRule d ∈ calls ∧ d.fingerprint = fp := by
  obtain ⟨h0, -, -, -, hid, -⟩ := new_spec hnew
  have h := runSteps_inv h0 (s₀.stepsOf calls)
  have hc := (clean_new hnew).run h0 (fun node hm => hcalls node (mem_stepsOf.2 node hm)) hroom
  obtain ⟨-, hident⟩ := runSteps_local h0 (s₀.stepsOf calls)
  rw [← run_eq_steps] at h hc hident
  refine ⟨fun node hsome => ?_, fun fp hsome => ?_⟩
  · obtain ⟨o, ho⟩ := Option.isSome_iff_exists.1 hsome
    obtain ⟨hlive, hkey⟩ := h.nodes.find_iff.1 ho
    have hpos := hc.nodes o hlive
    rw [h.node_refs, uses_of_empty h hempty, Nat.zero_add] at hpos
    have hlocal : o = (s₀.run calls).localNodeSlot := by
      by_contra hne
      simp [hne] at hpos
    rw [← hkey, hlocal]
    exact h.local_id.trans (hident.trans hid)
  · obtain ⟨r, hr⟩ := Option.isSome_iff_exists.1 hsome
    obtain ⟨hlive, hkey⟩ := h.rules.find_iff.1 hr
    have hpos := hc.rules r hlive
    rw [h.rule_refs, uses_of_empty h hempty, Nat.zero_add] at hpos
    have hp : (false || s₀.created (s₀.stepsOf calls) r) = true := by
      by_contra hne
      rw [Bool.not_eq_true] at hne
      rw [hne] at hpos
      exact absurd hpos (lt_irrefl 0)
    rcases hc.pinned r hp with hfalse | ⟨d, hd, hfp⟩
    · exact hfalse.elim
    · exact ⟨d, mem_stepsOf.1 d hd, hfp.trans hkey⟩

/-- A registered rule, hits of two nodes on it, and their expiry. -/
def returnedCalls : List (StoreCall .u32) :=
  [.internRule (.wireOnly 7), .ingestLocal [tinyHits], .mergeRemote [tinyHits], .expireAt 90000]

theorem identities_returned_tiny : ∃ s₀ : CellStore .u32, new .u32 tinyConfig tinyNode = some s₀ ∧
    (s₀.run returnedCalls).activeLen = 0 ∧
    ∀ node, ((s₀.run returnedCalls).nodeDictionary.find node).isSome = true → node = tinyNode := by
  have hrun : tinyStore.strandsRun (tinyStore.stepsOf returnedCalls) = false ∧
      (tinyStore.run returnedCalls).activeLen = 0 := by decide +kernel
  obtain ⟨hroom, hempty⟩ := hrun
  have hcalls : ∀ node, StoreCall.internNode node ∉ returnedCalls := by simp [returnedCalls]
  exact ⟨tinyStore, tinyStore_new, hempty,
    (stale_identities_returned _ _ _ tinyStore_new returnedCalls hcalls hroom hempty).1⟩

/-- Two local cells fill the store; the row of rule 9 from node 2 is rejected; both cells
    expire. -/
def strandingCalls : List (StoreCall .u32) :=
  [.ingestLocal [tinyHits, { tinyHits with bucket := 6 }],
    .mergeRemote [{ tinyHits with ruleFingerprint := 9 }], .expireAt 90000]

/-- **A rejected row strands its identities**: no cell is active, and rule 9 and node 2 still
    have their slots. -/
theorem rejected_row_strands : ∃ s₀ : CellStore .u32, new .u32 tinyConfig tinyNode = some s₀ ∧
    (s₀.run strandingCalls).activeLen = 0 ∧
    (s₀.run strandingCalls).ruleDictionary.find 9 = some 1 ∧
    (s₀.run strandingCalls).nodeDictionary.find ⟨2, 1⟩ = some 1 := by
  exact ⟨tinyStore, tinyStore_new, by decide +kernel⟩

end CellStore

end Gabion
