/-
  The aggregate rows of a node (`server/src/store.rs`) and the sums they stand for.

  `DashMapStore` maps a rule, key and bucket to a count.  It is fed with the delta rows and
  expiration rows of the cell store.  `ofTotals T` is the store that holds exactly the
  non-zero sums of `T`; applying the rows of a store call to it gives the sums after the
  call, as long as the sums stay below `u64::MAX`.
-/
import Gabion.Calls

namespace Gabion

open Function SlotMap

/-- `DashMapStore<C>`. -/
structure DashMapStore where
  cells : CellIdentity → Option ℕ

namespace DashMapStore

/-- A new store. -/
def empty : DashMapStore := ⟨fun _ => none⟩

def applyDelta (m : DashMapStore) (row : CellDelta) : DashMapStore :=
  if row.appliesLocally = false then m
  else if row.delta = 0 then m
  else ⟨update m.cells row.key (some (min ((m.cells row.key).getD 0 + row.delta) u64Max))⟩

def applyExpiration (m : DashMapStore) (row : CellExpiration) : DashMapStore :=
  if row.appliesLocally = false then m
  else
    match m.cells row.key with
    | none => m
    | some entry =>
      let next := entry - row.lastCount
      ⟨update m.cells row.key (if next = 0 then none else some next)⟩

def apply (m : DashMapStore) (deltas : List CellDelta) (expirations : List CellExpiration) :
    DashMapStore :=
  expirations.foldl applyExpiration (deltas.foldl applyDelta m)

/-- `window_total`; `checked_sub` fails from the first offset past the current bucket on. -/
def windowTotal (m : DashMapStore) (ruleFingerprint : Fingerprint) (keyHash : KeyHash)
    (nowMillis bucketMillis liveBuckets : ℕ) : ℕ :=
  let current := nowMillis / bucketMillis % 2 ^ 32
  (List.range liveBuckets).foldl
    (fun total offset =>
      if offset ≤ current then
        let bucket := BitVec.ofNat 32 (current - offset)
        min (total + (m.cells { ruleFingerprint, keyHash, bucket }).getD 0) u64Max
      else total) 0

/-! ## Stores of sums -/

/-- The store with a row for every non-zero sum. -/
def ofTotals (T : CellIdentity → ℕ) : DashMapStore := ⟨fun k => if T k = 0 then none else some (T k)⟩

theorem getD_ofTotals (T : CellIdentity → ℕ) (k : CellIdentity) :
    ((ofTotals T).cells k).getD 0 = T k := by
  simp only [ofTotals]
  split_ifs with h
  · exact h.symm
  · rfl

theorem ofTotals_update (T : CellIdentity → ℕ) (k : CellIdentity) (c : ℕ) :
    ofTotals (update T k c) = ⟨update (ofTotals T).cells k (if c = 0 then none else some c)⟩ := by
  refine congrArg DashMapStore.mk (funext fun k' => ?_)
  by_cases h : k' = k
  · rw [h, update_self, update_self]
  · rw [update_of_ne h, update_of_ne h, ofTotals]

theorem applyDelta_ofTotals {T : CellIdentity → ℕ} {row : CellDelta}
    (hrow : row.appliesLocally = true) (hle : T row.key + row.delta ≤ u64Max) :
    (ofTotals T).applyDelta row = ofTotals (update T row.key (T row.key + row.delta)) := by
  unfold applyDelta
  rw [if_neg (by rw [hrow]; decide)]
  split_ifs with h0
  · rw [h0, Nat.add_zero, update_eq_self]
  · rw [getD_ofTotals, min_eq_left hle, ofTotals_update, if_neg (by omega)]

theorem applyExpiration_ofTotals {T : CellIdentity → ℕ} {row : CellExpiration}
    (hrow : row.appliesLocally = true) :
    (ofTotals T).applyExpiration row = ofTotals (update T row.key (T row.key - row.lastCount)) := by
  unfold applyExpiration
  rw [if_neg (by rw [hrow]; decide)]
  by_cases h0 : T row.key = 0
  · have hn : (ofTotals T).cells row.key = none := if_pos h0
    rw [hn, h0, Nat.zero_sub]
    dsimp only
    rw [← h0, update_eq_self]
  · have hs : (ofTotals T).cells row.key = some (T row.key) := if_neg h0
    rw [hs, ofTotals_update]

end DashMapStore

/-! ## The sums of a cell table -/

namespace CellTable

variable {w : CountWidth} {pins : ℕ → Bool} {t t' : CellTable w}

/-- The sum of the counts of all active cells with this rule, key and bucket, over every
    origin and incarnation. -/
def identityTotal (t : CellTable w) (k : CellIdentity) : ℕ :=
  total t.capacity t.view fun id => id.identity = k

/-- The sums of the rules the node applies. -/
def localTotals (t : CellTable w) (k : CellIdentity) : ℕ :=
  if t.appliesTo k.ruleFingerprint then t.identityTotal k else 0

theorem Inv.identityTotal_le (h : t.Inv pins) (hw : w ≠ .u64) (k : CellIdentity) :
    t.identityTotal k ≤ u64Max := by
  have hle : t.identityTotal k ≤ t.capacity * w.max :=
    total_le (fun x id c hx => by
      obtain ⟨ha, -, rfl⟩ := view_eq_some.1 hx
      exact h.count_le x ha) _
  have hmax : w.max ≤ 2 ^ 32 - 1 := by
    cases w with
    | u16 => decide
    | u32 => decide
    | u64 => exact absurd rfl hw
  calc t.identityTotal k ≤ t.capacity * w.max := hle
    _ ≤ 2 ^ 30 * (2 ^ 32 - 1) := Nat.mul_le_mul h.le hmax
    _ ≤ u64Max := by decide

/-- Only registered rules apply locally: they are pinned. -/
def LocalPinned (pins : ℕ → Bool) (t : CellTable w) : Prop :=
  ∀ r, t.ruleDictionary.Live r → (t.ruleDictionary.descriptors r).appliesLocally = true →
    pins r = true

theorem appliesTo_of_not_live (h : t.Inv pins) {fp : Fingerprint}
    (hn : ∀ r, t.ruleDictionary.Live r → (t.ruleDictionary.descriptors r).fingerprint ≠ fp) :
    t.appliesTo fp = false := by
  rw [appliesTo, h.rules.find_none_iff.2 hn]

end CellTable

namespace CellStore

variable {w : CountWidth} {pins : ℕ → Bool} {s s' : CellStore w}

/-- Rows of a batch intern wire-only rules at most: which rules apply locally is fixed. -/
theorem RulesGrow.appliesTo_eq (h : RulesGrow s s') (hi : s.toCellTable.Inv pins)
    (hi' : s'.toCellTable.Inv pins) (fp : Fingerprint) : s'.appliesTo fp = s.appliesTo fp := by
  by_cases hex : ∃ r, s.ruleDictionary.Live r ∧ (s.ruleDictionary.descriptors r).fingerprint = fp
  · obtain ⟨r, hr, hf⟩ := hex
    obtain ⟨hr', hd⟩ := h.keep r hr
    rw [hi.appliesTo_eq hr hf, hi'.appliesTo_eq hr' (by rw [hd, hf]), hd]
  · have hn : ∀ r, s.ruleDictionary.Live r → (s.ruleDictionary.descriptors r).fingerprint ≠ fp :=
      fun r hr hf => hex ⟨r, hr, hf⟩
    rw [CellTable.appliesTo_of_not_live hi hn]
    by_cases hex' : ∃ r, s'.ruleDictionary.Live r ∧
        (s'.ruleDictionary.descriptors r).fingerprint = fp
    · obtain ⟨r, hr, hf⟩ := hex'
      rw [hi'.appliesTo_eq hr hf]
      rcases h.new r hr with hr | ⟨fp', hd, -⟩
      · rw [(h.keep r hr).2] at hf
        exact absurd hf (hn r hr)
      · rw [hd]; rfl
    · exact CellTable.appliesTo_of_not_live hi' fun r hr hf => hex' ⟨r, hr, hf⟩

theorem RulesGrow.localPinned (h : RulesGrow s s') (hp : s.LocalPinned pins) :
    s'.LocalPinned pins := by
  intro r hr ha
  rcases h.new r hr with hr | ⟨fp, hd, -⟩
  · rw [(h.keep r hr).2] at ha
    exact hp r hr ha
  · rw [hd] at ha; cases ha

/-- Freeing cells releases no registered rule. -/
theorem FreeStep.appliesTo_eq (h : FreeStep pins s s') (hi : s.toCellTable.Inv pins)
    (hp : s.LocalPinned pins) (fp : Fingerprint) : s'.appliesTo fp = s.appliesTo fp := by
  by_cases hex : ∃ r, s'.ruleDictionary.Live r ∧ (s'.ruleDictionary.descriptors r).fingerprint = fp
  · obtain ⟨r, hr', hf⟩ := hex
    obtain ⟨hr, hd⟩ := h.rules r hr'
    rw [h.inv.appliesTo_eq hr' hf, hi.appliesTo_eq hr (by rw [← hd, hf]), hd]
  · have hn : ∀ r, s'.ruleDictionary.Live r → (s'.ruleDictionary.descriptors r).fingerprint ≠ fp :=
      fun r hr hf => hex ⟨r, hr, hf⟩
    rw [CellTable.appliesTo_of_not_live h.inv hn]
    by_cases hex' : ∃ r, s.ruleDictionary.Live r ∧ (s.ruleDictionary.descriptors r).fingerprint = fp
    · obtain ⟨r, hr, hf⟩ := hex'
      rw [hi.appliesTo_eq hr hf]
      by_contra hc
      -- a pinned slot is live after the step, with the same descriptor
      have hpin := hp r hr (Bool.eq_false_or_eq_true _ |>.resolve_right fun hb => hc hb.symm)
      obtain ⟨hr', hd⟩ := h.pinned hpin
      exact hn r hr' (by rw [hd, hf])
    · exact (CellTable.appliesTo_of_not_live hi fun r hr hf => hex' ⟨r, hr, hf⟩).symm

theorem FreeStep.localPinned (h : FreeStep pins s s') (hp : s.LocalPinned pins) :
    s'.LocalPinned pins := by
  intro r hr ha
  obtain ⟨hr, hd⟩ := h.rules r hr
  rw [hd] at ha
  exact hp r hr ha

/-! ## Rows -/

/-- A cell that moves from `c` to `d` moves the sum of its identity, and no other. -/
theorem identityTotal_set {k : CellId} {x c d : ℕ} (hcap : s'.capacity = s.capacity)
    (hx : x < s.capacity) (hold : s.view x = some (k, c) ∨ s.view x = none ∧ c = 0) (hcd : c ≤ d)
    (hv : s'.view = update s.view x (some (k, d))) (k' : CellIdentity) :
    s'.identityTotal k' =
      if k' = k.identity then s.identityTotal k' + (d - c) else s.identityTotal k' := by
  have hsum := total_update hx (some (k, d)) (V := s.view) fun id => decide (id.identity = k')
  rw [← hv, ← hcap] at hsum
  have hc : entryCount (fun id : CellId => decide (id.identity = k')) (s.view x) =
      if k.identity = k' then c else 0 := by
    rcases hold with hold | ⟨hold, rfl⟩
    · simp [hold, entryCount]
    · simp [hold, entryCount]
  rw [hc] at hsum
  simp only [entryCount, decide_eq_true_eq] at hsum
  unfold CellTable.identityTotal
  rw [hcap] at hsum ⊢
  by_cases hk : k' = k.identity
  · simp only [hk, if_true] at hsum ⊢
    omega
  · rw [if_neg hk]
    rw [if_neg (Ne.symm hk), if_neg (Ne.symm hk)] at hsum
    omega

theorem le_next {mode : UpsertMode} {c : ℕ} (hc : c ≤ w.max) : c ≤ mode.next w c := by
  cases mode with
  | accumulate hits => exact w.le_saturatingAddHits hits hc
  | maxMerge observed =>
    simp only [UpsertMode.next]
    split_ifs <;> omega

/-- A row that changes a cell, new or at `c`, moves the sum of its identity as it moves the
    cell. -/
theorem identityTotal_changed {k : CellId} {mode : UpsertMode} {x c : ℕ}
    (hstep : RowStep pins s s') (h : s.toCellTable.Inv pins)
    (hold : s.view x = some (k, c) ∨ s.view x = none ∧ c = 0)
    (hv : s'.view = update s.view x (some (k, mode.next w c))) (k' : CellIdentity) :
    s'.identityTotal k' =
      if k' = k.identity then s.identityTotal k' + (mode.next w c - c) else s.identityTotal k' := by
  have hx : x < s.capacity := by
    rw [← hstep.capacity]
    exact hstep.inv.below x _ (by rw [hv, update_self])
  have hc : c ≤ w.max := by
    rcases hold with hx | ⟨-, rfl⟩
    · obtain ⟨ha, -, rfl⟩ := CellTable.view_eq_some.1 hx
      exact h.count_le x ha
    · exact Nat.zero_le _
  exact identityTotal_set hstep.capacity hx hold (le_next hc) hv k'

/-- **A row keeps the aggregates equal to the sums**: its delta row says by how much the sum
    of its identity moves. -/
theorem RowEffect.totals {k : CellId} {mode : UpsertMode} {sink sink' : List CellDelta}
    {res : RowResult} (hstep : RowStep pins s s')
    (he : RowEffect w s.view s'.view k mode (s'.appliesTo k.ruleFingerprint) sink sink' res)
    (h : s.toCellTable.Inv pins) (hw : w ≠ .u64) {m : DashMapStore}
    (hm : sink.foldl DashMapStore.applyDelta m = .ofTotals s.localTotals) :
    sink'.foldl DashMapStore.applyDelta m = .ofTotals s'.localTotals := by
  have happ := hstep.rules.appliesTo_eq h hstep.inv
  have hsame : s'.view = s.view → s'.localTotals = s.localTotals := fun hv => by
    funext k'
    rw [CellTable.localTotals, CellTable.localTotals, happ, CellTable.identityTotal,
      CellTable.identityTotal, hv, hstep.capacity]
  cases he with
  | rejected e hv hs => rw [hs, hm, hsame hv]
  | same x c o hx hn hv hs => rw [hs, hm, hsame hv]
  | changed x c row o hold hv hs hk hd ha =>
    have hset := identityTotal_changed hstep h (hold.imp_right fun h => ⟨h.1, h.2.2⟩) hv
    rw [hs, List.foldl_append, hm, List.foldl_cons, List.foldl_nil]
    cases hb : s'.appliesTo k.ruleFingerprint with
    | false =>
      -- a wire-only rule has no row, and its identities no local sum
      have hskip : (DashMapStore.ofTotals s.localTotals).applyDelta row = .ofTotals s.localTotals :=
        if_pos (ha.trans hb)
      rw [hskip]
      congr 1
      funext k'
      rw [CellTable.localTotals, CellTable.localTotals, happ, hset]
      split_ifs with h1 h2
      · rw [h2] at h1
        rw [← happ] at h1
        exact absurd (hb.symm.trans h1) (by decide)
      · rfl
      · rfl
    | true =>
      have htot : s'.localTotals = update s.localTotals row.key (s.localTotals row.key + row.delta) := by
        funext k'
        rw [CellTable.localTotals, happ, hset, hk, hd]
        by_cases hk' : k' = k.identity
        · have hb' : s.appliesTo k.identity.ruleFingerprint = true := by rw [← happ]; exact hb
          rw [hk', update_self, CellTable.localTotals, if_pos hb', if_pos hb', if_pos rfl]
        · rw [update_of_ne hk', if_neg hk', CellTable.localTotals]
      have hle : s.localTotals row.key + row.delta ≤ u64Max := by
        have := congrFun htot row.key
        rw [update_self] at this
        rw [← this, CellTable.localTotals]
        split_ifs
        · exact hstep.inv.identityTotal_le hw _
        · exact Nat.zero_le _
      rw [DashMapStore.applyDelta_ofTotals (ha.trans hb) hle, htot]

/-- What an accepted row adds to the sum of its identity: what its own cell, at `c` before,
    grows by. -/
theorem RowEffect.identityTotal {k : CellId} {mode : UpsertMode} {a : Bool}
    {sink sink' : List CellDelta} {res : RowResult} (hstep : RowStep pins s s')
    (he : RowEffect w s.view s'.view k mode a sink sink' res) (h : s.toCellTable.Inv pins)
    (hok : res.isOk = true) : ∃ c, c ≤ s.identityTotal k.identity ∧ ∀ k', s'.identityTotal k' =
      if k' = k.identity then s.identityTotal k' + (mode.next w c - c) else s.identityTotal k' := by
  have hle : ∀ {x c}, s.view x = some (k, c) → c ≤ s.identityTotal k.identity := fun hx =>
    le_total (h.below _ _ hx) hx (decide_eq_true rfl)
  cases he with
  | rejected e => cases hok
  | same x c o hx hn hv =>
    refine ⟨c, hle hx, fun k' => ?_⟩
    rw [hn, Nat.sub_self, Nat.add_zero, ite_self, CellTable.identityTotal, CellTable.identityTotal,
      hv, hstep.capacity]
  | changed x c row o hold hv =>
    have hc : c ≤ s.identityTotal k.identity := by
      rcases hold with hx | ⟨-, -, rfl⟩
      · exact hle hx
      · exact Nat.zero_le _
    exact ⟨c, hc, identityTotal_changed hstep h (hold.imp_right fun h => ⟨h.1, h.2.2⟩) hv⟩

/-- A delta row stays in the range of the counts. -/
theorem RowEffect.delta_le {k : CellId} {mode : UpsertMode} {a : Bool} {sink sink' : List CellDelta}
    {res : RowResult} (hstep : RowStep pins s s')
    (he : RowEffect w s.view s'.view k mode a sink sink' res) (hle : ∀ d ∈ sink, d.delta ≤ w.max) :
    ∀ d ∈ sink', d.delta ≤ w.max := by
  intro d hd
  cases he with
  | rejected e hv hs => exact hle d (hs ▸ hd)
  | same x c o hx hn hv hs => exact hle d (hs ▸ hd)
  | changed x c row o hold hv hs hk hdelta ha =>
    rw [hs, List.mem_append, List.mem_singleton] at hd
    rcases hd with hd | rfl
    · exact hle d hd
    · -- the row ends at the count that the cell has now
      obtain ⟨hactive, -, hcount⟩ := CellTable.view_eq_some.1
        (show s'.view x = some (k, mode.next w c) by rw [hv, update_self])
      have hmax := hstep.inv.count_le x hactive
      rw [hcount] at hmax
      rw [hdelta]
      exact (Nat.sub_le _ _).trans hmax

section Batches

variable {row : CellStore w → Observation w → List CellDelta →
    CellStore w × List CellDelta × RowResult} {key : CellStore w → Observation w → CellId}
  {mode : Observation w → UpsertMode}
  (hrow : ∀ (s : CellStore w), s.toCellTable.Inv pins → ∀ o sink, RowStep pins s (row s o sink).1 ∧
    RowEffect w s.view (row s o sink).1.view (key s o) (mode o)
      ((row s o sink).1.appliesTo (key s o).ruleFingerprint) sink (row s o sink).2.1
      (row s o sink).2.2)

include hrow

/-- A batch of rows keeps the aggregates equal to the sums. -/
theorem rows_totals (h : s.toCellTable.Inv pins) (hw : w ≠ .u64) (obs : List (Observation w)) :
    (rows row s obs []).2.foldl DashMapStore.applyDelta (.ofTotals s.localTotals) =
      .ofTotals (rows row s obs []).1.localTotals := by
  refine (rows_induct (P := fun s' sink => s'.toCellTable.Inv pins ∧
    sink.foldl DashMapStore.applyDelta (.ofTotals s.localTotals) = .ofTotals s'.localTotals)
    (fun s' o sink hp => ?_) obs s [] ⟨h, rfl⟩).2
  obtain ⟨h1, h2⟩ := hrow s' hp.1 o sink
  exact ⟨h1.inv, h2.totals h1 hp.1 hw hp.2⟩

theorem rows_delta_le (h : s.toCellTable.Inv pins) (obs : List (Observation w)) :
    ∀ d ∈ (rows row s obs []).2, d.delta ≤ w.max := by
  refine (rows_induct (P := fun s' sink => s'.toCellTable.Inv pins ∧ ∀ d ∈ sink, d.delta ≤ w.max)
    (fun s' o sink hp => ?_) obs s [] ⟨h, nofun⟩).2
  obtain ⟨hstep, heffect⟩ := hrow s' hp.1 o sink
  exact ⟨hstep.inv, heffect.delta_le hstep hp.2⟩

end Batches

theorem ingestLocal_totals (h : s.toCellTable.Inv pins) (hw : w ≠ .u64) (obs : List (Observation w)) :
    (s.ingestLocal obs []).2.foldl DashMapStore.applyDelta (.ofTotals s.localTotals) =
      .ofTotals (s.ingestLocal obs []).1.localTotals :=
  rows_totals (fun _ h o sink => ingestRow_spec h o sink) h hw obs

theorem mergeRemote_totals (h : s.toCellTable.Inv pins) (hw : w ≠ .u64) (obs : List (Observation w)) :
    (s.mergeRemote obs []).2.foldl DashMapStore.applyDelta (.ofTotals s.localTotals) =
      .ofTotals (s.mergeRemote obs []).1.localTotals :=
  rows_totals (fun _ h o sink => mergeRow_spec h o sink) h hw obs

/-! ## Expiry -/

theorem identityTotal_clear {x : ℕ} (h : s.toCellTable.Inv pins) (hcap : s'.capacity = s.capacity)
    (hx : s.isActive x = true) (hv : s'.view = update s.view x none) (k' : CellIdentity) :
    s'.identityTotal k' = if k' = (s.idOf x).identity
      then s.identityTotal k' - (s.cells x).count else s.identityTotal k' := by
  have hsum := total_update (h.lt hx) none (V := s.view) fun id => decide (id.identity = k')
  have hview : s.view x = some (s.idOf x, (s.cells x).count) := CellTable.view_eq_some.2 ⟨hx, rfl, rfl⟩
  rw [← hv, hview, ← hcap] at hsum
  simp only [entryCount, decide_eq_true_eq] at hsum
  unfold CellTable.identityTotal
  rw [hcap] at hsum ⊢
  by_cases hk : k' = (s.idOf x).identity
  · simp only [hk, if_true] at hsum ⊢
    omega
  · rw [if_neg hk]
    rw [if_neg (Ne.symm hk)] at hsum
    exact hsum

/-- **A step of expiry keeps the aggregates equal to the sums.** -/
theorem expireStep_totals (h : s.toCellTable.Inv pins) (hp : s.LocalPinned pins)
    (cur : List BucketEpoch) (live : List ℕ) {sink : List CellExpiration} (x : ℕ) {m : DashMapStore}
    (hm : sink.foldl DashMapStore.applyExpiration m = .ofTotals s.localTotals) :
    (expireStep cur live (s, sink) x).2.foldl DashMapStore.applyExpiration m =
      .ofTotals (expireStep cur live (s, sink) x).1.localTotals := by
  unfold expireStep
  dsimp only
  split_ifs with hx
  · obtain ⟨ha, -⟩ := Bool.and_eq_true_iff.1 hx
    obtain ⟨hfree, hv⟩ := freeCellAt_spec h ha
    have happ := hfree.appliesTo_eq h hp
    have hclear := identityTotal_clear h hfree.capacity ha hv
    rw [emitExpiration_eq h ha, List.foldl_append, hm, List.foldl_cons, List.foldl_nil]
    generalize hrow : CellExpiration.mk _ _ _ _ _ = row
    have hkey : row.key = (s.idOf x).identity := by rw [← hrow]
    have hcount : row.lastCount = (s.cells x).count := by rw [← hrow]
    have hb : row.appliesLocally = s.appliesTo (s.idOf x).ruleFingerprint := by rw [← hrow]
    cases hloc : row.appliesLocally with
    | false =>
      have hskip : (DashMapStore.ofTotals s.localTotals).applyExpiration row =
        .ofTotals s.localTotals := if_pos hloc
      rw [hskip]
      congr 1
      funext k'
      rw [CellTable.localTotals, CellTable.localTotals, happ, hclear]
      split_ifs with h1 h2
      · rw [h2] at h1
        exact absurd ((hloc.symm.trans hb).trans h1) (by decide)
      · rfl
      · rfl
    | true =>
      rw [DashMapStore.applyExpiration_ofTotals hloc]
      congr 1
      funext k'
      symm
      rw [CellTable.localTotals, happ, hclear, hkey, hcount]
      by_cases hk' : k' = (s.idOf x).identity
      · have hb' : s.appliesTo (s.idOf x).identity.ruleFingerprint = true := hb.symm.trans hloc
        rw [hk', update_self, CellTable.localTotals, if_pos hb', if_pos hb', if_pos rfl]
      · rw [update_of_ne hk', if_neg hk', CellTable.localTotals]
  · exact hm

theorem expire_totals (h : s.toCellTable.Inv pins) (hp : s.LocalPinned pins)
    (cur : List BucketEpoch) (live : List ℕ) :
    (s.expire cur live []).2.foldl DashMapStore.applyExpiration (.ofTotals s.localTotals) =
      .ofTotals (s.expire cur live []).1.localTotals := by
  unfold expire
  generalize s.capacity = n
  suffices hn : ∀ n, let acc := (List.range n).foldl (expireStep cur live) (s, [])
      FreeStep pins s acc.1 ∧ acc.2.foldl DashMapStore.applyExpiration (.ofTotals s.localTotals) =
        .ofTotals acc.1.localTotals from (hn n).2
  intro n
  induction n with
  | zero => exact ⟨.refl h, rfl⟩
  | succ n ih =>
    dsimp only at ih ⊢
    rw [List.range_succ, List.foldl_append, List.foldl_cons, List.foldl_nil]
    generalize (List.range n).foldl (expireStep cur live) (s, []) = acc at ih
    obtain ⟨s₁, sink₁⟩ := acc
    obtain ⟨hs, hm⟩ := ih
    exact ⟨hs.trans (expireStep_spec hs.inv cur live sink₁ n).1,
      expireStep_totals hs.inv (hs.localPinned hp) cur live n hm⟩

/-- Expiry takes from a sum only what has expired. -/
theorem expire_identityTotal (h : s.toCellTable.Inv pins) (cur : List BucketEpoch) (live : List ℕ)
    (sink : List CellExpiration) (k : CellIdentity) :
    (s.expire cur live sink).1.identityTotal k ≤ s.identityTotal k ∧
      ((∀ x, s.isActive x = true → (s.idOf x).identity = k → s.expired cur live x = false) →
        (s.expire cur live sink).1.identityTotal k = s.identityTotal k) := by
  obtain ⟨hs, hv⟩ := expire_spec h cur live sink
  unfold CellTable.identityTotal total
  rw [hs.capacity]
  refine ⟨Finset.sum_le_sum fun x _ => ?_, fun hkeep => Finset.sum_congr rfl fun x _ => ?_⟩
  · rw [hv]
    split_ifs
    · exact Nat.zero_le _
    · exact le_rfl
  · rw [hv]
    split_ifs with hx
    · -- an expired cell counts for another identity
      rcases he : s.view x with _ | ⟨id, c⟩
      · rfl
      · obtain ⟨ha, hid, -⟩ := CellTable.view_eq_some.1 he
        have hne : id.identity ≠ k := fun hk => by
          have := hkeep x ha (by rw [hid]; exact hk)
          rw [hx.2] at this
          cases this
        simp [entryCount, hne]
    · rfl

end CellStore

end Gabion
