/-
  A cell store refines a finite map from cluster-wide identities to counts.

  `specCall` says what a call does to the map: a merged row takes the maximum, an ingested
  row adds with saturation, expiry removes what has aged out, other calls do nothing.
  Along a run without rejected rows the store and the map stay equal.
-/
import Gabion.Calls

namespace Gabion

open Function SlotMap

/-- The abstract state: the count of every identity, `⊥` where there is no entry. -/
abbrev CountMap := CellId → WithBot ℕ

/-- An ingested row: saturating addition to one entry. -/
def addHits (w : CountWidth) (m : CountMap) (k : CellId) (hits : ℕ) : CountMap :=
  update m k (WithBot.some (w.saturatingAddHits ((m k).unbotD 0) hits))

/-- The entry a merged row stands for. -/
def Observation.entry {w : CountWidth} (obs : Observation w) : CellId × WithBot ℕ :=
  (obs.id, WithBot.some obs.count)

namespace CellStore

variable {w : CountWidth}

/-- The identity `k` has aged out: its rule has slots in both slices, and
    `bucket + live < current`. -/
def aged (s : CellStore w) (cur : List BucketEpoch) (live : List ℕ) (k : CellId) : Bool :=
  match s.ruleDictionary.find k.ruleFingerprint with
  | none => false
  | some r =>
    match cur[r]?, live[r]? with
    | some c, some l => k.bucket.toNat + l < c.toNat
    | _, _ => false

/-- The identity `k` has aged out at time `now`, by the descriptor of its rule. -/
def agedAt (s : CellStore w) (now : ℕ) (k : CellId) : Bool :=
  match (s.ruleDictionary.find k.ruleFingerprint).bind s.ruleDictionary.descriptor with
  | none => false
  | some d => k.bucket.toNat + d.liveBuckets < (d.currentEpoch now).toNat

/-- What a call does to the map.  The store is consulted for the local identity and for the
    descriptors of rules only. -/
def specCall (s : CellStore w) (m : CountMap) : StoreCall w → CountMap
  | .ingestLocal obs =>
    obs.foldl (fun m o => addHits w m (o.localId s.localIdentity) o.count) m
  | .mergeRemote obs => (obs.map Observation.entry).foldl merge m
  | .expire cur live => fun k => if s.aged cur live k then ⊥ else m k
  | .expireAt now => fun k => if s.agedAt now k then ⊥ else m k
  | .clear => fun _ => ⊥
  | .internRule _ | .internNode _ | .fillFrame _ _ | .frontier _ | .clearDirty => m

def specRun (s : CellStore w) (m : CountMap) : List (StoreCall w) → CountMap
  | [] => m
  | c :: cs => specRun (s.call c) (s.specCall m c) cs

/-! ## Runs without rejected rows -/

def rowsAccepted (row : CellStore w → Observation w → List CellDelta →
    CellStore w × List CellDelta × RowResult) (s : CellStore w) :
    List (Observation w) → List CellDelta → Bool
  | [], _ => true
  | o :: os, sink =>
    (row s o sink).2.2.isOk && rowsAccepted row (row s o sink).1 os (row s o sink).2.1

/-- No row of the call is rejected for capacity. -/
def accepted (s : CellStore w) : StoreCall w → Bool
  | .ingestLocal obs => rowsAccepted ingestRow s obs []
  | .mergeRemote obs => rowsAccepted mergeRow s obs []
  | _ => true

def runAccepted (s : CellStore w) : List (StoreCall w) → Bool
  | [] => true
  | c :: cs => s.accepted c && (s.call c).runAccepted cs

variable {pins : ℕ → Bool} {s s' : CellStore w}

/-! ## One row -/

/-- An accepted row moves the entry of `k` by its mode. -/
theorem RowEffect.lookup_eq {n : ℕ} {V V' : View CellId} {k : CellId} {mode : UpsertMode} {a : Bool}
    {sink sink' : List CellDelta} {res : RowResult} (hi : Inj V) (hb : Below n V)
    (hb' : Below n V') (h : RowEffect w V V' k mode a sink sink' res) (hok : res.isOk = true) :
    lookup n V' = update (lookup n V) k (WithBot.some (mode.next w ((lookup n V k).unbotD 0))) := by
  cases h with
  | rejected e _ _ => simp [Except.isOk, Except.toBool] at hok
  | same x c o hx hc hV _ =>
    have hl : lookup n V k = WithBot.some c := (lookup_eq_coe hi hb).2 ⟨x, hx⟩
    rw [hV, hl, WithBot.unbotD_coe, hc, ← hl, update_eq_self]
  | changed x c row o hx hV _ _ _ _ =>
    have hxn : x < n := hb' x _ (by rw [hV, update_self])
    rcases hx with hx | ⟨hx, hn, rfl⟩
    · have hl : lookup n V k = WithBot.some c := (lookup_eq_coe hi hb).2 ⟨x, hx⟩
      rw [hV, lookup_set hi hb hxn (.inl ⟨c, hx⟩), hl, WithBot.unbotD_coe]
    · have hl : lookup n V k = ⊥ := (lookup_eq_bot hi hb).2 hn
      rw [hV, lookup_set hi hb hxn (.inr ⟨hx, hn⟩), hl, WithBot.unbotD_bot]

theorem toMap_of_effect (h : s.toCellTable.Inv pins) (hs : RowStep pins s s') {k : CellId}
    {mode : UpsertMode} {a : Bool} {sink sink' : List CellDelta} {res : RowResult}
    (he : RowEffect w s.view s'.view k mode a sink sink' res) (hok : res.isOk = true) :
    s'.toMap = update s.toMap k (WithBot.some (mode.next w ((s.toMap k).unbotD 0))) := by
  unfold CellTable.toMap
  rw [hs.capacity]
  exact he.lookup_eq h.inj h.below (hs.capacity ▸ hs.inv.below) hok

/-- A row leaves every entry alone, or it is accepted and moves the entry of `k`. -/
theorem toMap_of_row (h : s.toCellTable.Inv pins) (hs : RowStep pins s s') {k : CellId}
    {mode : UpsertMode} {a : Bool} {sink sink' : List CellDelta} {res : RowResult}
    (he : RowEffect w s.view s'.view k mode a sink sink' res) :
    s'.toMap = if res.isOk then
      update s.toMap k (WithBot.some (mode.next w ((s.toMap k).unbotD 0))) else s.toMap := by
  split_ifs with hok
  · exact toMap_of_effect h hs he hok
  · cases he with
    | rejected e hv _ => rw [CellTable.toMap, hv, hs.capacity]; rfl
    | same => exact absurd rfl hok
    | changed => exact absurd rfl hok

theorem maxMerge_coe (w : CountWidth) (m : WithBot ℕ) (o : ℕ) :
    WithBot.some ((UpsertMode.maxMerge o).next w (m.unbotD 0)) = m ⊔ WithBot.some o := by
  cases m with
  | bot => rw [WithBot.unbotD_bot, ← UpsertMode.initial_eq, bot_sup_eq]; rfl
  | coe c =>
    rw [WithBot.unbotD_coe, ← WithBot.coe_sup, UpsertMode.next]
    split_ifs with h
    · rw [sup_eq_right.2 (le_of_lt h)]
    · rw [sup_eq_left.2 (not_lt.1 h)]

/-! ## One call -/

theorem ingest_toMap : ∀ (obs : List (Observation w)) (s : CellStore w) (sink : List CellDelta),
    s.toCellTable.Inv pins → rowsAccepted ingestRow s obs sink = true →
    (rows ingestRow s obs sink).1.toMap =
      obs.foldl (fun m o => addHits w m (o.localId s.localIdentity) o.count) s.toMap
  | [], _, _, _, _ => rfl
  | o :: os, s, sink, h, ha => by
    obtain ⟨ho, hos⟩ := Bool.and_eq_true_iff.1 ha
    obtain ⟨hs, he⟩ := ingestRow_spec h o sink
    rw [rows_cons, ingest_toMap os _ _ hs.inv hos, List.foldl_cons, hs.localIdentity,
      toMap_of_effect h hs he ho]
    rfl

theorem merge_toMap : ∀ (obs : List (Observation w)) (s : CellStore w) (sink : List CellDelta),
    s.toCellTable.Inv pins → rowsAccepted mergeRow s obs sink = true →
    (rows mergeRow s obs sink).1.toMap = (obs.map Observation.entry).foldl merge s.toMap
  | [], _, _, _, _ => rfl
  | o :: os, s, sink, h, ha => by
    obtain ⟨ho, hos⟩ := Bool.and_eq_true_iff.1 ha
    obtain ⟨hs, he⟩ := mergeRow_spec h o sink
    rw [rows_cons, merge_toMap os _ _ hs.inv hos, List.map_cons, List.foldl_cons,
      toMap_of_effect h hs he ho, maxMerge_coe]
    rfl

/-- A property of entries that merging the rows keeps is kept by the batch, also when some
    of its rows are rejected. -/
theorem mergeRemote_entries {P : CellId → WithBot ℕ → Prop} (h : s.toCellTable.Inv pins)
    {obs : List (Observation w)} (hP : ∀ k, P k (s.toMap k))
    (hobs : ∀ o ∈ obs, ∀ m, P o.id m → P o.id (m ⊔ WithBot.some o.count)) (sink : List CellDelta) :
    ∀ k, P k ((s.mergeRemote obs sink).1.toMap k) := by
  unfold mergeRemote
  induction obs generalizing s sink with
  | nil => exact hP
  | cons o os ih =>
    obtain ⟨hs, he⟩ := mergeRow_spec h o sink
    rw [rows_cons]
    refine ih hs.inv (fun k => ?_) (fun o' ho' => hobs o' (List.mem_cons_of_mem o ho')) _
    rw [toMap_of_row h hs he]
    split_ifs with hok
    · by_cases hk : k = o.id
      · rw [hk, update_self, maxMerge_coe]
        exact hobs o (List.mem_cons_self ..) _ (hP o.id)
      · rw [update_of_ne hk]
        exact hP k
    · exact hP k

/-- The slot test of `expire` is the test on the identity of the cell. -/
theorem expired_eq_aged (h : s.toCellTable.Inv pins) (cur : List BucketEpoch) (live : List ℕ)
    {x : ℕ} (hx : s.isActive x = true) : s.expired cur live x = s.aged cur live (s.idOf x) := by
  have hfind : s.ruleDictionary.find (s.idOf x).ruleFingerprint = some (s.cells x).key.rule :=
    h.rules.find_iff.2 ⟨h.rule_live hx, rfl⟩
  simp only [aged, hfind]
  rfl

theorem expire_toMap (h : s.toCellTable.Inv pins) (cur : List BucketEpoch) (live : List ℕ)
    (sink : List CellExpiration) (k : CellId) :
    (s.expire cur live sink).1.toMap k = if s.aged cur live k then ⊥ else s.toMap k := by
  obtain ⟨hs, hv⟩ := expire_spec h cur live sink
  -- an entry stays when it is not aged
  have hmem : ∀ x c, (s.expire cur live sink).1.view x = some (k, c) ↔
      s.view x = some (k, c) ∧ s.aged cur live k = false := by
    intro x c
    rw [hv]
    constructor
    · intro hx
      split_ifs at hx with he
      obtain ⟨ha, hid, -⟩ := CellTable.view_eq_some.1 hx
      refine ⟨hx, ?_⟩
      have := expired_eq_aged h cur live ha
      rw [hid] at this
      rw [← this]
      exact Bool.eq_false_iff.2 fun he' => he ⟨h.lt ha, he'⟩
    · rintro ⟨hx, hk⟩
      obtain ⟨ha, hid, -⟩ := CellTable.view_eq_some.1 hx
      rw [if_neg, hx]
      rintro ⟨-, he⟩
      rw [expired_eq_aged h cur live ha, hid, hk] at he
      cases he
  unfold CellTable.toMap
  split_ifs with hk
  · refine (lookup_eq_bot hs.inv.inj hs.inv.below).2 fun x c hx => ?_
    rw [hmem, hk] at hx
    cases hx.2
  · refine lookup_ext hs.inv.inj hs.inv.below h.inj h.below fun c => ?_
    simp only [hmem, Bool.eq_false_iff.2 hk, and_true]

theorem agedAt_eq (h : s.toCellTable.Inv pins) (now : ℕ) (k : CellId) :
    s.aged (s.epochScratch now) s.liveScratch k = s.agedAt now k := by
  unfold aged agedAt
  cases hfind : s.ruleDictionary.find k.ruleFingerprint with
  | none => rfl
  | some r =>
    have hr := h.rules.live_lt (h.rules.find_iff.1 hfind).1
    simp only [epochScratch, liveScratch, List.getElem?_map, List.getElem?_range hr,
      Option.map_some, Option.bind_some]
    cases s.ruleDictionary.descriptor r with
    | none => simp
    | some d => rfl

/-- **One call**: the map of the store moves as specified. -/
theorem call_toMap (h : s.toCellTable.Inv pins) (c : StoreCall w) (ha : s.accepted c = true) :
    (s.call c).toMap = s.specCall s.toMap c := by
  cases c with
  | internRule d =>
    show (s.internRule d).1.toMap = s.toMap
    unfold CellTable.toMap
    obtain ⟨-, -, hv, hs⟩ := internRule_spec h d
    rw [hv, hs.capacity]
  | internNode id =>
    have hg := internNode_grows h id
    show (s.internNode id).1.toMap = s.toMap
    rw [CellTable.toMap, hg.view, hg.same.capacity]
    rfl
  | ingestLocal obs => exact ingest_toMap obs s [] h ha
  | mergeRemote obs => exact merge_toMap obs s [] h ha
  | expire cur live => exact funext fun k => expire_toMap h cur live [] k
  | expireAt now =>
    refine funext fun k => (expire_toMap h _ _ [] k).trans ?_
    rw [agedAt_eq h]
    rfl
  | fillFrame maxCells dest =>
    show (s.fillFrameFor maxCells dest).1.toMap = s.toMap
    rw [fillFrameFor_eq, (sameData_fillFrame s _ maxCells).table]
  | frontier c => rfl
  | clearDirty => rfl
  | clear =>
    obtain ⟨h1, -, h2⟩ := clear_spec h
    refine funext fun k => (lookup_eq_bot h1.inj h1.below).2 fun x c hx => ?_
    rw [h2] at hx
    cases hx

/-- **Whole runs**: the store and the map stay equal. -/
theorem run_toMap : ∀ (calls : List (StoreCall w)) (s : CellStore w) (pins : ℕ → Bool),
    s.toCellTable.Inv pins → Lanes s → s.runAccepted calls = true →
    (s.run calls).toMap = s.specRun s.toMap calls
  | [], _, _, _, _, _ => rfl
  | c :: cs, s, pins, h, hl, ha => by
    obtain ⟨hc, hcs⟩ := Bool.and_eq_true_iff.1 ha
    obtain ⟨pins', h', hl'⟩ := call_inv h hl c
    rw [specRun, ← call_toMap h c hc]
    exact run_toMap cs _ pins' h' hl' hcs

/-- Merging batch after batch is merging the rows one after another. -/
theorem specRun_merges : ∀ (batches : List (List (Observation w))) (s : CellStore w) (m : CountMap),
    s.specRun m (batches.map .mergeRemote) = (batches.flatten.map Observation.entry).foldl merge m
  | [], _, _ => rfl
  | b :: bs, s, m => by
    rw [List.map_cons, specRun, specRun_merges bs, List.flatten_cons, List.map_append,
      List.foldl_append]
    rfl

/-- **A cell store refines a finite map.**  Whatever calls are made on a new store:
    without rejected rows the store holds exactly the specified map; every entry is held by
    one cell and no two cells have the same identity; and the map after merges depends only
    on the set of entries merged. -/
theorem cellStore_refines_map (config : CellStoreConfig) (id : NodeIdentity) (s₀ : CellStore w)
    (hnew : new w config id = some s₀) (calls : List (StoreCall w)) :
    (s₀.runAccepted calls = true → (s₀.run calls).toMap = s₀.specRun (fun _ => ⊥) calls) ∧
    (∀ k c, (s₀.run calls).toMap k = WithBot.some c ↔ ∃ x, (s₀.run calls).isActive x = true ∧
      (s₀.run calls).idOf x = k ∧ ((s₀.run calls).cells x).count = c) ∧
    (∀ x y, (s₀.run calls).isActive x = true → (s₀.run calls).isActive y = true →
      (s₀.run calls).idOf x = (s₀.run calls).idOf y → x = y) ∧
    ∀ batches batches' : List (List (Observation w)),
      (∀ e, e ∈ batches.flatten.map Observation.entry ↔
        e ∈ batches'.flatten.map Observation.entry) →
      (s₀.run calls).runAccepted (batches.map .mergeRemote) = true →
      (s₀.run calls).runAccepted (batches'.map .mergeRemote) = true →
      ((s₀.run calls).run (batches.map .mergeRemote)).toMap =
        ((s₀.run calls).run (batches'.map .mergeRemote)).toMap := by
  obtain ⟨h0, hl0, hact, -⟩ := new_spec hnew
  obtain ⟨pins, h, hl⟩ := run_inv h0 hl0 calls
  refine ⟨fun ha => ?_, fun k c => h.toMap_eq_coe, fun x y hx hy he => h.idOf_inj hx hy he,
    fun bs bs' he ha ha' => ?_⟩
  · have hbot : s₀.toMap = fun _ => ⊥ := funext fun k =>
      (lookup_eq_bot h0.inj h0.below).2 fun x c hx => by
        have := (CellTable.view_eq_some.1 hx).1
        rw [hact] at this
        cases this
    rw [run_toMap calls s₀ _ h0 hl0 ha, hbot]
  · rw [run_toMap _ _ _ h hl ha, run_toMap _ _ _ h hl ha', specRun_merges, specRun_merges]
    exact mergeAll_congr he _

/-! ### A run to look at -/

/-- A store of two cells, two rules and two nodes. -/
def tinyConfig : CellStoreConfig where
  cellCapacity := 2
  ruleDictionaryCapacity := 2
  nodeDictionaryCapacity := 2
  localDirtyCapacity := 2
  forwardedDirtyCapacity := 2
  peerCapacity := 1

def tinyNode : NodeIdentity := { nodeId := 1, incarnation := 1 }

/-- Four hits on one key in bucket 5, seen at node 2. -/
def tinyHits : Observation .u32 where
  ruleFingerprint := 7
  keyHash := 3
  bucket := 5
  origin := 2
  incarnation := 1
  count := 4
  lastUpdateMillis := 5000
  count_le := by decide

/-- The hits are counted locally, merged, gossiped and expired, and the slots are reused. -/
def tinyCalls : List (StoreCall .u32) :=
  [.ingestLocal [tinyHits], .mergeRemote [tinyHits, tinyHits], .fillFrame 1 none,
    .expireAt 90000, .mergeRemote [tinyHits]]

theorem cellStore_refines_map_tiny : ∃ s₀ : CellStore .u32,
    new .u32 tinyConfig tinyNode = some s₀ ∧ s₀.runAccepted tinyCalls = true ∧
      (s₀.run tinyCalls).toMap = s₀.specRun (fun _ => ⊥) tinyCalls := by
  have hrun : (new .u32 tinyConfig tinyNode).map (·.runAccepted tinyCalls) = some true := by
    decide +kernel
  obtain ⟨s₀, hnew, ha⟩ := Option.map_eq_some_iff.1 hrun
  exact ⟨s₀, hnew, ha, (cellStore_refines_map tinyConfig tinyNode s₀ hnew tinyCalls).1 ha⟩

end CellStore

/-- The store of a node that has just started. -/
def tinyStore : CellStore .u32 :=
  (CellStore.new .u32 CellStore.tinyConfig CellStore.tinyNode).get (by decide +kernel)

theorem tinyStore_new : CellStore.new .u32 CellStore.tinyConfig CellStore.tinyNode =
    some tinyStore := (Option.some_get _).symm

end Gabion
