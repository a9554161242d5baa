/-
  `CellStore` (`crdt.rs`): cells, dictionaries, dirty rings and peer frontiers, and the
  calls that change them.

  A store has a count width `w` (the type parameter `C` of the source).  The cell columns
  are one array of `Cell`s, `NO_FREE` is `none`, and the scratch arrays of `expire_at` are
  local values.  Sinks are lists; a call returns the store, the sink and, for rows, the
  outcome the source computes and drops.
-/
import Gabion.Dictionary
import Gabion.DirtyRing

namespace Gabion

open Function

/-! ## Rows -/

/-- A row of an `ObservationBatch<C>`: counts fit the width. -/
structure Observation (w : CountWidth) where
  ruleFingerprint : Fingerprint
  keyHash : KeyHash
  bucket : BucketEpoch
  origin : NodeId
  incarnation : Incarnation
  count : ℕ
  lastUpdateMillis : ℕ
  count_le : count ≤ w.max
deriving DecidableEq

/-- A row of a `DeltaSink`. -/
structure CellDelta where
  handle : CellHandle
  key : CellIdentity
  previousCount : ℕ
  currentCount : ℕ
  delta : ℕ
  appliesLocally : Bool
deriving DecidableEq, Repr

/-- A row of an `ExpirationSink`. -/
structure CellExpiration where
  handle : CellHandle
  key : CellIdentity
  lastCount : ℕ
  lastUpdateMillis : ℕ
  appliesLocally : Bool
deriving DecidableEq, Repr

structure UpdateOutcome where
  handle : CellHandle
  changed : Bool
  delta : Option CellDelta
deriving DecidableEq, Repr

inductive InsertReject
  | cellStoreFull
  | ruleDictionaryFull
  | nodeDictionaryFull
deriving DecidableEq, Repr

inductive UpsertMode
  | accumulate (hits : ℕ)
  | maxMerge (observed : ℕ)

/-- The count an existing cell moves to. -/
def UpsertMode.next (w : CountWidth) (previous : ℕ) : UpsertMode → ℕ
  | accumulate hits => w.saturatingAddHits previous hits
  | maxMerge observed => if observed > previous then observed else previous

/-- The count of a new cell. -/
def UpsertMode.initial (w : CountWidth) : UpsertMode → ℕ
  | accumulate hits => w.saturatingAddHits 0 hits
  | maxMerge observed => observed

structure UpsertSpec where
  key : CompactCellKey
  nowMillis : ℕ
  mode : UpsertMode

/-! ## The store -/

structure CellStoreConfig where
  cellCapacity : ℕ
  ruleDictionaryCapacity : ℕ
  nodeDictionaryCapacity : ℕ
  localDirtyCapacity : ℕ
  forwardedDirtyCapacity : ℕ
  peerCapacity : ℕ

/-- One entry of the identity and hot columns. -/
structure Cell where
  key : CompactCellKey
  count : ℕ
  lastUpdateMillis : ℕ
  originSequence : ℕ
deriving DecidableEq, Repr

/-- The part of the store that decides which cells exist: columns, free list, index and
    dictionaries. -/
structure CellTable (w : CountWidth) where
  cells : ℕ → Cell
  generations : ℕ → ℕ
  freeNext : ℕ → Option ℕ
  freeHead : Option ℕ
  activeLen : ℕ
  capacity : ℕ
  index : CellIndex
  ruleDictionary : RuleDictionary
  nodeDictionary : NodeDictionary
  localIdentity : NodeIdentity
  localNodeSlot : ℕ

structure CellStore (w : CountWidth) extends CellTable w where
  localDirty : DirtyRing
  forwardedDirty : DirtyRing
  repairCursor : ℕ
  selectionMarks : ℕ → ℕ
  selectionEpoch : ℕ
  nextSequenceByOrigin : ℕ → ℕ
  peerFrontiers : PeerFrontierTable
  cellStoreFullRejects : ℕ
  ruleDictionaryFullRejects : ℕ
  nodeDictionaryFullRejects : ℕ

/-! ### Cell lookups -/

namespace CellTable

variable {w : CountWidth} (s : CellTable w)

def handleFor (index : ℕ) : CellHandle := { index, generation := s.generations index }

def isActive (index : ℕ) : Bool := s.generations index % 2 == 1

def lookupIndex (key : CompactCellKey) : Option ℕ :=
  s.index.find (hashCompactCellKey key) fun slot => (s.cells slot).key == key

def resolve (handle : CellHandle) : Option ℕ :=
  if handle.index ≥ s.capacity then none
  else if s.generations handle.index ≠ handle.generation then none
  else if handle.generation % 2 ≠ 1 then none
  else some handle.index

/-- The row a handle stands for. -/
def get (handle : CellHandle) : Option Cell := (s.resolve handle).map s.cells

/-! ### Slot lifecycle -/

def allocSlot : CellTable w × Option ℕ :=
  match s.freeHead with
  | none => (s, none)
  | some slot =>
    ({ s with
        freeHead := s.freeNext slot
        freeNext := update s.freeNext slot none
        generations := update s.generations slot ((s.generations slot + 1) % 2 ^ 32)
        activeLen := s.activeLen + 1 }, some slot)

def freeSlot (slot : ℕ) : CellTable w :=
  { s with
    generations := update s.generations slot ((s.generations slot + 1) % 2 ^ 32)
    freeNext := update s.freeNext slot s.freeHead
    freeHead := some slot
    activeLen := s.activeLen - 1 }

/-! ### Sink rows

The source looks the rule's descriptor up with `expect`; a cell holds a reference to its
rule, so the `none` branches are never taken (`Inv.descriptor_rule`). -/

def emitDelta (sink : List CellDelta) (slot previous current delta ruleSlot : ℕ) :
    List CellDelta :=
  match s.ruleDictionary.descriptor ruleSlot with
  | none => sink
  | some d =>
    sink ++ [{
      handle := s.handleFor slot
      key := {
        ruleFingerprint := d.fingerprint
        keyHash := (s.cells slot).key.keyHash
        bucket := (s.cells slot).key.bucket }
      previousCount := previous
      currentCount := current
      delta
      appliesLocally := d.appliesLocally }]

def emitExpiration (sink : List CellExpiration) (slot : ℕ) : List CellExpiration :=
  match s.ruleDictionary.descriptor (s.cells slot).key.rule with
  | none => sink
  | some d =>
    sink ++ [{
      handle := s.handleFor slot
      key := {
        ruleFingerprint := d.fingerprint
        keyHash := (s.cells slot).key.keyHash
        bucket := (s.cells slot).key.bucket }
      lastCount := (s.cells slot).count
      lastUpdateMillis := (s.cells slot).lastUpdateMillis
      appliesLocally := d.appliesLocally }]

/-- The test of `expire`: the cell in `slot` has aged out of its rule's live window.  Rules
    beyond either slice never expire. -/
def expired (currentEpochByRule : List BucketEpoch) (liveBuckets : List ℕ) (slot : ℕ) : Bool :=
  match currentEpochByRule[(s.cells slot).key.rule]?, liveBuckets[(s.cells slot).key.rule]? with
  | some current, some live => (s.cells slot).key.bucket.toNat + live < current.toNat
  | _, _ => false

end CellTable

namespace CellStore

variable {w : CountWidth}

def blankCell : Cell where
  key := { rule := 0, keyHash := 0, bucket := 0, origin := 0, incarnation := 0 }
  count := 0
  lastUpdateMillis := 0
  originSequence := 0

/-- `none` where the source panics. -/
def new (w : CountWidth) (config : CellStoreConfig) (localIdentity : NodeIdentity) :
    Option (CellStore w) :=
  if config.cellCapacity = 0 then none
  else do
    let index ← CellIndex.withCapacity (← pow2IndexCapacityFor config.cellCapacity)
    let nodes ← Dictionary.withCapacity config.nodeDictionaryCapacity
    let (nodes, slot) := NodeDictionary.intern nodes localIdentity
    let localNodeSlot ← slot
    let rules ← Dictionary.withCapacity config.ruleDictionaryCapacity
    return {
      cells := fun _ => blankCell
      generations := fun _ => 0
      freeNext := Slots.initNext config.cellCapacity
      freeHead := some 0
      activeLen := 0
      capacity := config.cellCapacity
      index
      ruleDictionary := rules
      nodeDictionary := nodes.incRef localNodeSlot
      localIdentity
      localNodeSlot
      localDirty := DirtyRing.withCapacity config.localDirtyCapacity
      forwardedDirty := DirtyRing.withCapacity config.forwardedDirtyCapacity
      repairCursor := 0
      selectionMarks := fun _ => 0
      selectionEpoch := 0
      nextSequenceByOrigin := fun _ => 0
      peerFrontiers :=
        PeerFrontierTable.new config.peerCapacity config.nodeDictionaryCapacity
      cellStoreFullRejects := 0
      ruleDictionaryFullRejects := 0
      nodeDictionaryFullRejects := 0 }

/-! ### Dictionaries and reject counters -/

def noteCellStoreFull (s : CellStore w) : CellStore w :=
  { s with cellStoreFullRejects := min (s.cellStoreFullRejects + 1) u64Max }

def noteRuleDictionaryFull (s : CellStore w) : CellStore w :=
  { s with ruleDictionaryFullRejects := min (s.ruleDictionaryFullRejects + 1) u64Max }

def noteNodeDictionaryFull (s : CellStore w) : CellStore w :=
  { s with nodeDictionaryFullRejects := min (s.nodeDictionaryFullRejects + 1) u64Max }

/-- Register a configured rule; the first registration holds a reference of its own. -/
def internRule (s : CellStore w) (descriptor : RuleDescriptor) : CellStore w × Option ℕ :=
  let alreadyKnown := (s.ruleDictionary.find descriptor.fingerprint).isSome
  match RuleDictionary.intern s.ruleDictionary descriptor with
  | (rules, some slot) =>
    let rules := if alreadyKnown then rules else rules.incRef slot
    ({ s with ruleDictionary := rules }, some slot)
  | (_, none) => (s.noteRuleDictionaryFull, none)

def internNode (s : CellStore w) (id : NodeIdentity) : CellStore w × Option ℕ :=
  match NodeDictionary.intern s.nodeDictionary id with
  | (nodes, some slot) => ({ s with nodeDictionary := nodes }, some slot)
  | (_, none) => (s.noteNodeDictionaryFull, none)

/-! ### Updates -/

def freeCellAt (s : CellStore w) (slot : ℕ) : CellStore w :=
  let key := (s.cells slot).key
  let index := s.index.remove (hashCompactCellKey key) slot
  let rules := (s.ruleDictionary.decRef key.rule).1
  let (nodes, freedNode) := s.nodeDictionary.decRef key.origin
  let s := { s with index, ruleDictionary := rules, nodeDictionary := nodes }
  let s :=
    if freedNode then
      { s with
        peerFrontiers := s.peerFrontiers.clearNodeSlot key.origin
        nextSequenceByOrigin := update s.nextSequenceByOrigin key.origin 0 }
    else s
  { s with toCellTable := s.toCellTable.freeSlot slot }

def nextOriginSequence (s : CellStore w) (origin : ℕ) : CellStore w × ℕ :=
  let seq := min (s.nextSequenceByOrigin origin + 1) u64Max
  ({ s with nextSequenceByOrigin := update s.nextSequenceByOrigin origin seq }, seq)

def pushDirty (s : CellStore w) (origin : ℕ) (handle : CellHandle) (sequence : ℕ) : CellStore w :=
  let entry := { handle, originSequence := sequence }
  if origin = s.localNodeSlot then { s with localDirty := s.localDirty.push entry }
  else { s with forwardedDirty := s.forwardedDirty.push entry }

abbrev RowResult := Except InsertReject UpdateOutcome

/-- The common end of both branches of `upsert`: a dirty entry and a delta row. -/
def announce (s : CellStore w) (key : CompactCellKey) (slot seq previous current delta : ℕ)
    (sink : List CellDelta) : CellStore w × List CellDelta × RowResult :=
  let handle := s.handleFor slot
  let s := s.pushDirty key.origin handle seq
  let sink := s.emitDelta sink slot previous current delta key.rule
  (s, sink, .ok { handle, changed := true, delta := sink.getLast? })

/-- `upsert` on an existing cell. -/
def updateCell (s : CellStore w) (spec : UpsertSpec) (slot : ℕ) (sink : List CellDelta) :
    CellStore w × List CellDelta × RowResult :=
  let previous := (s.cells slot).count
  let next := spec.mode.next w previous
  if next = previous then
    (s, sink, .ok { handle := s.handleFor slot, changed := false, delta := none })
  else
    let (s, seq) := s.nextOriginSequence spec.key.origin
    let cell := { s.cells slot with
      count := next, lastUpdateMillis := spec.nowMillis, originSequence := seq }
    let s := { s with cells := update s.cells slot cell }
    s.announce spec.key slot seq previous next (CountWidth.saturatingDelta next previous) sink

/-- `upsert` when no cell has the key. -/
def insertCell (s : CellStore w) (spec : UpsertSpec) (sink : List CellDelta) :
    CellStore w × List CellDelta × RowResult :=
  match s.toCellTable.allocSlot with
  | (_, none) => (s.noteCellStoreFull, sink, .error .cellStoreFull)
  | (table, some slot) =>
    let s := { s with toCellTable := table }
    let initial := spec.mode.initial w
    let (s, seq) := s.nextOriginSequence spec.key.origin
    let cell := {
      key := spec.key, count := initial, lastUpdateMillis := spec.nowMillis, originSequence := seq }
    let s := { s with
      cells := update s.cells slot cell
      ruleDictionary := s.ruleDictionary.incRef spec.key.rule
      nodeDictionary := s.nodeDictionary.incRef spec.key.origin
      index := s.index.insertUnchecked (hashCompactCellKey spec.key) slot }
    s.announce spec.key slot seq 0 initial initial sink

def upsert (s : CellStore w) (spec : UpsertSpec) (sink : List CellDelta) :
    CellStore w × List CellDelta × RowResult :=
  match s.lookupIndex spec.key with
  | some slot => s.updateCell spec slot sink
  | none => s.insertCell spec sink

/-- The rule slot of a fingerprint; an unknown rule is interned as wire-only.  The same
    code stands in `ingest_local` and in `translate_identity`. -/
def translateRule (s : CellStore w) (fingerprint : Fingerprint) : CellStore w × Option ℕ :=
  match s.ruleDictionary.find fingerprint with
  | some slot => (s, some slot)
  | none =>
    match RuleDictionary.intern s.ruleDictionary (RuleDescriptor.wireOnly fingerprint) with
    | (rules, some slot) => ({ s with ruleDictionary := rules }, some slot)
    | (_, none) => (s.noteRuleDictionaryFull, none)

/-- The node slot of an identity, as `translate_identity` finds or creates it. -/
def translateNode (s : CellStore w) (id : NodeIdentity) : CellStore w × Option ℕ :=
  match s.nodeDictionary.find id with
  | some slot => (s, some slot)
  | none => s.internNode id

def ingestRow (s : CellStore w) (obs : Observation w) (sink : List CellDelta) :
    CellStore w × List CellDelta × RowResult :=
  match s.translateRule obs.ruleFingerprint with
  | (s, none) => (s, sink, .error .ruleDictionaryFull)
  | (s, some rule) =>
    s.upsert {
      key := {
        rule
        keyHash := obs.keyHash
        bucket := obs.bucket
        origin := s.localNodeSlot
        incarnation := s.localIdentity.incarnation }
      nowMillis := obs.lastUpdateMillis
      mode := .accumulate obs.count } sink

def mergeRow (s : CellStore w) (obs : Observation w) (sink : List CellDelta) :
    CellStore w × List CellDelta × RowResult :=
  match s.translateRule obs.ruleFingerprint with
  | (s, none) => (s, sink, .error .ruleDictionaryFull)
  | (s, some rule) =>
    match s.translateNode { nodeId := obs.origin, incarnation := obs.incarnation } with
    | (s, none) => (s, sink, .error .nodeDictionaryFull)
    | (s, some origin) =>
      s.upsert {
        key := {
          rule
          keyHash := obs.keyHash
          bucket := obs.bucket
          origin
          incarnation := obs.incarnation }
        nowMillis := obs.lastUpdateMillis
        mode := .maxMerge obs.count } sink

/-- The row loop of `ingest_local` and `merge_remote`: outcomes are dropped. -/
def rows (row : CellStore w → Observation w → List CellDelta → CellStore w × List CellDelta × RowResult)
    (s : CellStore w) (obs : List (Observation w)) (sink : List CellDelta) :
    CellStore w × List CellDelta :=
  obs.foldl (fun acc o => ((row acc.1 o acc.2).1, (row acc.1 o acc.2).2.1)) (s, sink)

def ingestLocal (s : CellStore w) (obs : List (Observation w)) (sink : List CellDelta) :
    CellStore w × List CellDelta :=
  rows ingestRow s obs sink

def mergeRemote (s : CellStore w) (obs : List (Observation w)) (sink : List CellDelta) :
    CellStore w × List CellDelta :=
  rows mergeRow s obs sink

/-! ### Expiry -/

/-- One step of the slot loop of `expire`. -/
def expireStep (currentEpochByRule : List BucketEpoch) (liveBuckets : List ℕ)
    (acc : CellStore w × List CellExpiration) (slot : ℕ) : CellStore w × List CellExpiration :=
  if acc.1.isActive slot && acc.1.expired currentEpochByRule liveBuckets slot then
    (acc.1.freeCellAt slot, acc.1.emitExpiration acc.2 slot)
  else acc

def expire (s : CellStore w) (currentEpochByRule : List BucketEpoch) (liveBuckets : List ℕ)
    (sink : List CellExpiration) : CellStore w × List CellExpiration :=
  (List.range s.capacity).foldl (expireStep currentEpochByRule liveBuckets) (s, sink)

def epochScratch (s : CellStore w) (nowMillis : ℕ) : List BucketEpoch :=
  (List.range s.ruleDictionary.capacity).map fun slot =>
    match s.ruleDictionary.descriptor slot with
    | some d => d.currentEpoch nowMillis
    | none => 0

def liveScratch (s : CellStore w) : List ℕ :=
  (List.range s.ruleDictionary.capacity).map fun slot =>
    match s.ruleDictionary.descriptor slot with
    | some d => d.liveBuckets
    | none => 0

def expireAt (s : CellStore w) (nowMillis : ℕ) (sink : List CellExpiration) :
    CellStore w × List CellExpiration :=
  s.expire (s.epochScratch nowMillis) s.liveScratch sink

def clearDirty (s : CellStore w) : CellStore w :=
  { s with localDirty := s.localDirty.clear, forwardedDirty := s.forwardedDirty.clear }

def clear (s : CellStore w) : CellStore w :=
  let s := (List.range s.capacity).foldl
    (fun s slot => if s.isActive slot then s.freeCellAt slot else s) s
  { s.clearDirty with repairCursor := 0, selectionEpoch := 0, selectionMarks := fun _ => 0 }

end CellStore

end Gabion
