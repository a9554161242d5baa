/-
  What one node records.

  A recorded hit is ingested into the cell store, and its delta row goes to the aggregates.
  A node that hears of no other counts in one cell for each rule, key and bucket, so a row of
  its aggregates is the sum of the hits recorded there, up to what a 32-bit counter holds
  (`records_rows`).
-/
import Gabion.Retention
import Gabion.Window

namespace Gabion

open Function SlotMap

/-- The hits of the requests that count under `k`. -/
def counted (reqs : List LimitRequest) (k : CellIdentity) : ℕ :=
  (reqs.map fun req => if req.identity = k then req.hits else 0).sum

theorem counted_cons (req : LimitRequest) (rest : List LimitRequest) (k : CellIdentity) :
    counted (req :: rest) k = (if req.identity = k then req.hits else 0) + counted rest k := by
  rw [counted, List.map_cons, List.sum_cons, counted]

/-- The store and the aggregates of a node. -/
structure Ledger where
  store : CellStore .u32
  aggregates : DashMapStore

namespace Ledger

def accepts (l : Ledger) (req : LimitRequest) : Bool :=
  (l.store.ingestRow (req.observation .u32) []).2.2.isOk

/-- The effect of a limit request: the row is ingested and its delta applied. -/
def record (l : Ledger) (req : LimitRequest) : Ledger where
  store := (l.store.ingestLocal [req.observation .u32] []).1
  aggregates := l.aggregates.apply (l.store.ingestLocal [req.observation .u32] []).2 []

/-- A sequence of limit requests; `none` if a row is rejected. -/
def records : Ledger → List LimitRequest → Option Ledger
  | l, [] => some l
  | l, req :: rest => if l.accepts req then (l.record req).records rest else none

/-- The iteration of the gossip loop that serves a limit request records it. -/
theorem record_iterated {env : Platform} {r r' : Runtime .u32} {req : LimitRequest}
    (h : Runtime.Iterated env r (some (.ingestLocal [req.observation .u32])) r') :
    (Ledger.mk r.store r.aggregates |>.record req).store.toCellTable = r'.store.toCellTable ∧
      (Ledger.mk r.store r.aggregates |>.record req).aggregates = r'.aggregates :=
  ⟨h.table.symm, h.aggregates.symm⟩

variable {pins : ℕ → Bool} {l l' : Ledger}

/-! ## The map of counts -/

/-- What a recorded request does to the map of counts. -/
def addRequest (node : NodeIdentity) (m : CountMap) (req : LimitRequest) : CountMap :=
  addHits .u32 m ((req.observation .u32).localId node) (req.observation .u32).count

theorem saturatingAddHits_u32 {c : ℕ} (hc : c ≤ u32Max) (hits : ℕ) :
    CountWidth.u32.saturatingAddHits c (CountWidth.u32.saturatingFromU64 hits) =
      min (c + hits) u32Max := by
  have hmax : CountWidth.u32.max = u32Max := rfl
  have hlt : u32Max + u32Max ≤ u64Max := by decide
  rw [CountWidth.saturatingAddHits, CountWidth.saturatingFromU64, hmax]
  omega

/-- Cells of other nodes are left alone. -/
theorem addRequests_other (node : NodeIdentity) {id : CellId} (hid : id ≠ id.identity.ofNode node)
    (reqs : List LimitRequest) (m : CountMap) : reqs.foldl (addRequest node) m id = m id := by
  induction reqs generalizing m with
  | nil => rfl
  | cons req rest ih =>
    rw [List.foldl_cons, ih, addRequest, addHits, update_of_ne]
    rintro rfl
    exact hid rfl

/-- **A cell of the node holds the saturated sum of its hits.** -/
theorem addRequests_eq (node : NodeIdentity) (k : CellIdentity) (reqs : List LimitRequest)
    (m : CountMap) (hm : (m (k.ofNode node)).unbotD 0 ≤ u32Max) :
    (reqs.foldl (addRequest node) m (k.ofNode node)).unbotD 0 =
      min ((m (k.ofNode node)).unbotD 0 + counted reqs k) u32Max := by
  induction reqs generalizing m with
  | nil => exact (min_eq_left hm).symm
  | cons req rest ih =>
    have hone : (addRequest node m req (k.ofNode node)).unbotD 0 =
        min ((m (k.ofNode node)).unbotD 0 + if req.identity = k then req.hits else 0) u32Max := by
      split_ifs with hk
      · have hcell : (req.observation .u32).localId node = k.ofNode node := by rw [← hk]; rfl
        rw [addRequest, addHits, hcell, update_self, WithBot.unbotD_coe]
        exact saturatingAddHits_u32 hm req.hits
      · rw [addRequest, addHits, update_of_ne, Nat.add_zero, min_eq_left hm]
        intro hcell
        exact hk (congrArg CellId.identity hcell).symm
    rw [List.foldl_cons, ih _ (by rw [hone]; exact min_le_right _ _), hone,
      counted_cons]
    omega

/-! ## Recorded requests -/

/-- The aggregates hold the sums of the store. -/
structure Sound (pins : ℕ → Bool) (l : Ledger) : Prop where
  inv : l.store.toCellTable.Inv pins
  totals : l.aggregates = .ofTotals l.store.localTotals

theorem Sound.record (h : Sound pins l) (req : LimitRequest) : Sound pins (l.record req) := by
  refine ⟨(CellStore.ingestLocal_step h.inv _ []).inv, ?_⟩
  rw [Ledger.record, h.totals]
  exact CellStore.ingestLocal_totals h.inv (by decide) [req.observation .u32]

theorem records_spec : ∀ (reqs : List LimitRequest) {l : Ledger}, Sound pins l →
    l.records reqs = some l' → Sound pins l' ∧ CellStore.RowStep pins l.store l'.store ∧
      l'.store.toMap = reqs.foldl (addRequest l.store.localIdentity) l.store.toMap
  | [], l, h, hr => by
    cases hr
    exact ⟨h, .refl h.inv, rfl⟩
  | req :: rest, l, h, hr => by
    unfold records at hr
    split_ifs at hr with hok
    obtain ⟨hstep, heff⟩ := CellStore.ingestRow_spec h.inv (req.observation .u32) []
    obtain ⟨hsound, hrest, hmap⟩ := records_spec rest (h.record req) hr
    refine ⟨hsound, hstep.trans hrest, ?_⟩
    have hlocal : (l.record req).store.localIdentity = l.store.localIdentity := hstep.localIdentity
    rw [hmap, hlocal, List.foldl_cons]
    congr 1
    exact CellStore.toMap_of_effect h.inv hstep heff hok

/-- **What a node has counted**: in a store that was only registered with, the hits recorded
    for a rule, key and bucket, up to `u32::MAX`. -/
theorem records_identityTotal {reqs : List LimitRequest} (hreg : l.store.Registering pins)
    (h : Sound pins l) (hr : l.records reqs = some l') (k : CellIdentity) :
    l'.store.identityTotal k = min (counted reqs k) u32Max := by
  obtain ⟨hsound, hstep, hmap⟩ := records_spec reqs h hr
  set node := l.store.localIdentity with hnode
  -- the cells of the store are the node's own
  have hown : ∀ x id c, l'.store.view x = some (id, c) → id = id.identity.ofNode node := by
    intro x id c hx
    by_contra hid
    have hcell := (lookup_eq_coe hsound.inv.inj hsound.inv.below).2 ⟨x, hx⟩
    have hbot : l'.store.toMap id = ⊥ := by
      rw [hmap, addRequests_other node hid, hreg.toMap]
    exact WithBot.bot_ne_coe (hbot.symm.trans hcell)
  have htotal : l'.store.identityTotal k = (l'.store.toMap (k.ofNode node)).unbotD 0 := by
    refine total_eq_lookup hsound.inv.inj hsound.inv.below (decide_eq_true rfl) ?_
    intro x id c hx hid
    rw [hown x id c hx, of_decide_eq_true hid]
  have hzero : (l.store.toMap (k.ofNode node)).unbotD 0 = 0 := by
    rw [hreg.toMap, WithBot.unbotD_bot]
  rw [htotal, hmap, addRequests_eq node k reqs _ (by rw [hzero]; exact Nat.zero_le _), hzero,
    Nat.zero_add]

/-- **The rows of the aggregates**: a rule that is not the node's own has none. -/
theorem records_rows {reqs : List LimitRequest} (hreg : l.store.Registering pins)
    (h : Sound pins l) (hr : l.records reqs = some l') (fp : Fingerprint) (keyHash : KeyHash)
    (bucket : ℕ) : l'.aggregates.countFor fp keyHash bucket = if l.store.appliesTo fp then
      min (counted reqs ⟨fp, keyHash, BitVec.ofNat 32 bucket⟩) u32Max else 0 := by
  obtain ⟨hsound, hstep, -⟩ := records_spec reqs h hr
  have happ : l'.store.appliesTo fp = l.store.appliesTo fp :=
    hstep.rules.appliesTo_eq h.inv hsound.inv fp
  rw [DashMapStore.countFor, hsound.totals, DashMapStore.getD_ofTotals, CellTable.localTotals,
    happ, records_identityTotal hreg h hr]

theorem records_countFor {reqs : List LimitRequest} (hreg : l.store.Registering pins)
    (h : Sound pins l) (hr : l.records reqs = some l') {fp : Fingerprint}
    (hfp : l.store.appliesTo fp = true) (keyHash : KeyHash) (bucket : ℕ) :
    l'.aggregates.countFor fp keyHash bucket =
      min (counted reqs ⟨fp, keyHash, BitVec.ofNat 32 bucket⟩) u32Max := by
  rw [records_rows hreg h hr, if_pos hfp]

/-- **What `window_total` reads**: the window's rows.  The sum of `u32` counters over fewer
    than 2³² buckets does not saturate. -/
theorem records_windowTotal {reqs : List LimitRequest} (hreg : l.store.Registering pins)
    (h : Sound pins l) (hr : l.records reqs = some l') {fp : Fingerprint}
    (hfp : l.store.appliesTo fp = true) (keyHash : KeyHash) (now bucketMillis : ℕ) {live : ℕ}
    (hlive : live < 2 ^ 32) : l'.aggregates.windowTotal fp keyHash now bucketMillis live =
      ∑ bucket ∈ windowSpan (now / bucketMillis % 2 ^ 32) live,
        min (counted reqs ⟨fp, keyHash, BitVec.ofNat 32 bucket⟩) u32Max := by
  rw [windowTotal_eq, Finset.sum_congr rfl fun bucket _ =>
    records_countFor hreg h hr hfp keyHash bucket]
  refine min_eq_left ?_
  calc ∑ bucket ∈ windowSpan (now / bucketMillis % 2 ^ 32) live,
        min (counted reqs ⟨fp, keyHash, BitVec.ofNat 32 bucket⟩) u32Max
      ≤ (windowSpan (now / bucketMillis % 2 ^ 32) live).card * u32Max :=
        Finset.sum_le_card_nsmul _ _ _ fun _ _ => min_le_right _ _
    _ ≤ (2 ^ 32 - 1) * u32Max :=
        Nat.mul_le_mul_right _ ((card_windowSpan_le _ _).trans (Nat.le_sub_one_of_lt hlive))
    _ ≤ u64Max := by decide

/-- A node that has registered its rules and counted nothing. -/
theorem sound_start {s : CellStore .u32} (h : s.Registering pins) : Sound pins ⟨s, .empty⟩ := by
  refine ⟨h.inv, ?_⟩
  rw [h.localTotals]
  rfl

/-- A registered rule has room for its first hit. -/
theorem records_first {s : CellStore .u32} {slot : ℕ} {d : RuleDescriptor} (h : s.Registering pins)
    (hd : s.Holds pins slot d) (req : LimitRequest) (hreq : req.ruleFingerprint = d.fingerprint) :
    (Ledger.mk s .empty).records [req] = some ((Ledger.mk s .empty).record req) :=
  if_pos (CellStore.ingestRow_isOk h.inv hd hreq h.inv.pos (h.isActive 0) [])

/-- A cell that is there takes any number of further hits. -/
theorem records_again {slot : ℕ} {d : RuleDescriptor} {req : LimitRequest}
    (hreq : req.ruleFingerprint = d.fingerprint) (n : ℕ) : ∀ {l : Ledger}, Sound pins l →
    l.store.Holds pins slot d →
    l.store.toMap (req.identity.ofNode l.store.localIdentity) ≠ ⊥ →
      ∃ l', l.records (List.replicate n req) = some l' := by
  induction n with
  | zero => exact fun _ _ _ => ⟨_, rfl⟩
  | succ n ih =>
    intro l h hd hstored
    have hobs : (req.observation .u32).ruleFingerprint = d.fingerprint := hreq
    have hok : l.accepts req = true :=
      CellStore.ingestRow_isOk_of_stored h.inv hd hobs hstored []
    obtain ⟨hstep, heff⟩ := CellStore.ingestRow_spec h.inv (req.observation .u32) []
    rw [List.replicate_succ, records, if_pos hok]
    refine ih (h.record req) (hd.rowStep hstep) ?_
    show (l.store.ingestRow (req.observation .u32) []).1.toMap
      (req.identity.ofNode (l.store.ingestRow (req.observation .u32) []).1.localIdentity) ≠ ⊥
    rw [hstep.localIdentity, CellStore.toMap_of_effect h.inv hstep heff hok]
    show update _ _ _ ((req.observation .u32).localId l.store.localIdentity) ≠ ⊥
    rw [update_self]
    exact WithBot.coe_ne_bot

theorem records_replicate {s : CellStore .u32} {slot : ℕ} {d : RuleDescriptor}
    (h : s.Registering pins) (hd : s.Holds pins slot d) (req : LimitRequest)
    (hreq : req.ruleFingerprint = d.fingerprint) (n : ℕ) :
    ∃ l, (Ledger.mk s .empty).records (List.replicate n req) = some l := by
  cases n with
  | zero => exact ⟨_, rfl⟩
  | succ n =>
    have hobs : (req.observation .u32).ruleFingerprint = d.fingerprint := hreq
    have hok : (Ledger.mk s .empty).accepts req = true :=
      CellStore.ingestRow_isOk h.inv hd hobs h.inv.pos (h.isActive 0) []
    have hstep := (CellStore.ingestRow_spec h.inv (req.observation .u32) []).1
    rw [List.replicate_succ, records, if_pos hok]
    refine records_again hreq n ((sound_start h).record req) (hd.rowStep hstep) ?_
    have hstored := CellStore.ingestRow_toMap_ne_bot h.inv hd hobs h.inv.pos (h.isActive 0) []
    rw [← hstep.localIdentity] at hstored
    exact hstored

end Ledger

end Gabion
