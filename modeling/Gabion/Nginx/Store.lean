/-
  The leader's runtime on the table in shared memory (`nginx/src/shm/aggregate.rs`,
  `nginx/src/leader.rs`).

  `ShmAggregateStore` receives the rows that a `DashMapStore` receives in the server.  The
  runtime model keeps a `DashMapStore`; here it is run beside the table, and the table is
  compared with it.  A dropped write leaves the table below the map, and nothing that comes
  later brings it above (`Below`).
-/
import Gabion.Agreement
import Gabion.Nginx.Table

namespace Gabion

namespace Nginx

open Function

/-- `ShmAggregateStore`: the writer of the table and the lease epoch it was built in. -/
structure ShmAggregateStore where
  table : ShmTable
  epoch : ℕ

namespace ShmAggregateStore

def new (table : ShmTable) (leaseEpoch : ℕ) : ShmAggregateStore := ⟨table.clear, leaseEpoch⟩

variable (mixIndex : CellIdentity → BitVec 64)

def applyDelta (t : ShmTable) (row : CellDelta) : ShmTable :=
  if row.appliesLocally = false then t
  else if row.delta = 0 then t
  else t.writeDelta mixIndex row.key row.delta 0

def applyExpiration (t : ShmTable) (row : CellExpiration) : ShmTable :=
  if row.appliesLocally = false then t else t.writeExpiration mixIndex row.key row.lastCount

/-- `apply`, with the lease epoch it loads. -/
def apply (store : ShmAggregateStore) (leaseEpoch : ℕ) (deltas : List CellDelta)
    (expirations : List CellExpiration) : ShmAggregateStore :=
  if leaseEpoch ≠ store.epoch then store
  else
    { store with
      table := expirations.foldl (applyExpiration mixIndex)
        (deltas.foldl (applyDelta mixIndex) store.table) }

variable {mixIndex}

@[simp] theorem apply_epoch (store : ShmAggregateStore) (leaseEpoch : ℕ) (deltas : List CellDelta)
    (expirations : List CellExpiration) :
    (store.apply mixIndex leaseEpoch deltas expirations).epoch = store.epoch := by
  unfold apply
  split_ifs <;> rfl

@[simp] theorem apply_nil (store : ShmAggregateStore) (leaseEpoch : ℕ) :
    store.apply mixIndex leaseEpoch [] [] = store := by
  unfold apply
  split_ifs <;> rfl

end ShmAggregateStore

/-- A leader's runtime and its store. -/
structure LeaderRuntime where
  runtime : Runtime .u32
  store : ShmAggregateStore

namespace LeaderRuntime

/-- An iteration of the loop while the lease epoch is `leaseEpoch`. -/
def iteration (mixIndex : CellIdentity → BitVec 64) (env : Platform) (leaseEpoch : ℕ)
    (l : LeaderRuntime) (now : ℕ) (arm : ArmOutcome) : Option LeaderRuntime :=
  (l.runtime.handled env now arm).map fun r =>
    { runtime := r.finish
      store :=
        if r.sinkBuf ≠ [] ∨ r.expirationBuf ≠ [] then
          l.store.apply mixIndex leaseEpoch r.sinkBuf r.expirationBuf
        else l.store }

def run (mixIndex : CellIdentity → BitVec 64) (env : Platform) (leaseEpoch : ℕ) :
    LeaderRuntime → List (ℕ × ArmOutcome) → Option LeaderRuntime
  | l, [] => some l
  | l, (now, arm) :: rest =>
    (l.iteration mixIndex env leaseEpoch now arm).bind fun l => run mixIndex env leaseEpoch l rest

end LeaderRuntime

/-! ## The table stays below the map -/

variable {mixIndex : CellIdentity → BitVec 64} {t : ShmTable} {m : CountMap} {ref : DashMapStore}

def CountMap.count (m : CountMap) (k : CellIdentity) : ℕ := (m k).elim 0 Counted.count

theorem CountMap.count_add (m : CountMap) (k : CellIdentity) (delta nowMillis : ℕ)
    (hle : delta ≤ u64Max) :
    (m.add k delta nowMillis).count = update m.count k (min (m.count k + delta) u64Max) := by
  funext k'
  simp only [count, add]
  by_cases hk : k' = k
  · subst hk
    rw [update_self, update_self]
    cases m k' with
    | none => simp [hle]
    | some c => rfl
  · rw [update_of_ne hk, update_of_ne hk, count]

theorem CountMap.count_subtract (m : CountMap) (k : CellIdentity) (lastCount : ℕ) :
    (m.subtract k lastCount).count = update m.count k (m.count k - lastCount) := by
  funext k'
  by_cases hk : k' = k
  · subst hk
    rw [update_self]
    cases hm : m k' with
    | none => simp [subtract_none lastCount hm, count, hm]
    | some c =>
      rw [subtract_some lastCount hm]
      split_ifs with hzero
      · simp [count, hm, hzero]
      · simp [count, hm]
  · rw [update_of_ne hk]
    cases hm : m k with
    | none => rw [subtract_none lastCount hm]
    | some c =>
      rw [subtract_some lastCount hm]
      split_ifs <;> simp [count, update_of_ne hk]

/-- The count of a row, 0 if there is none. -/
def rowCount (ref : DashMapStore) (k : CellIdentity) : ℕ := (ref.cells k).getD 0

theorem rowCount_applyDelta {row : CellDelta} (ref : DashMapStore)
    (hlocal : ¬row.appliesLocally = false) (hzero : ¬row.delta = 0) :
    rowCount (ref.applyDelta row) =
      update (rowCount ref) row.key (min (rowCount ref row.key + row.delta) u64Max) := by
  funext k
  rw [DashMapStore.applyDelta, if_neg hlocal, if_neg hzero, rowCount]
  dsimp only
  by_cases hk : k = row.key
  · rw [hk, update_self, update_self, Option.getD_some, rowCount]
  · rw [update_of_ne hk, update_of_ne hk, rowCount]

theorem rowCount_applyExpiration {row : CellExpiration} (ref : DashMapStore)
    (hlocal : ¬row.appliesLocally = false) :
    rowCount (ref.applyExpiration row) =
      update (rowCount ref) row.key (rowCount ref row.key - row.lastCount) := by
  funext k
  rw [DashMapStore.applyExpiration, if_neg hlocal]
  by_cases hk : k = row.key
  · rw [hk, update_self]
    cases href : ref.cells row.key with
    | none => simp [rowCount, href]
    | some entry =>
      simp only [rowCount, href, update_self, Option.getD_some]
      split_ifs with hzero
      · exact hzero.symm
      · rfl
  · rw [update_of_ne hk]
    cases ref.cells row.key with
    | none => rfl
    | some entry => simp only [rowCount, update_of_ne hk]

/-- **The table is below the map.** -/
def Below (mixIndex : CellIdentity → BitVec 64) (t : ShmTable) (ref : DashMapStore) : Prop :=
  ∃ m : CountMap, Refines mixIndex t m ∧ ∀ k, m.count k ≤ rowCount ref k ∧ m.count k ≤ u64Max

theorem below_clear (t : ShmTable) : Below mixIndex t.clear .empty :=
  ⟨fun _ => none, refines_clear t, fun _ => ⟨le_rfl, Nat.zero_le _⟩⟩

theorem Below.get (h : Below mixIndex t ref) (k : CellIdentity) :
    ((t.get mixIndex k).elim 0 AggregateCell.count) ≤ rowCount ref k := by
  obtain ⟨m, hm, hle⟩ := h
  refine le_trans (le_of_eq ?_) (hle k).1
  rw [hm.get, CountMap.count]
  cases m k <;> rfl

/-- A delta row, whether or not its write is dropped. -/
theorem Below.applyDelta (h : Below mixIndex t ref) (row : CellDelta) (hrow : row.delta ≤ u64Max) :
    Below mixIndex (ShmAggregateStore.applyDelta mixIndex t row) (ref.applyDelta row) := by
  by_cases hskip : row.appliesLocally = false ∨ row.delta = 0
  · unfold ShmAggregateStore.applyDelta DashMapStore.applyDelta
    split_ifs with hlocal hzero
    · exact h
    · exact h
    · exact absurd hskip (not_or.2 ⟨hlocal, hzero⟩)
  obtain ⟨hlocal, hzero⟩ := not_or.1 hskip
  obtain ⟨m, hm, hle⟩ := h
  obtain ⟨hkey, hmax⟩ := hle row.key
  rw [ShmAggregateStore.applyDelta, if_neg hlocal, if_neg hzero]
  rcases hm.step (.delta row.key row.delta 0) with ⟨hnext, -⟩ | ⟨_, _, _, -, hnext, -⟩
  · refine ⟨_, hnext, fun k => ?_⟩
    rw [rowCount_applyDelta ref hlocal hzero, Write.map, CountMap.count_add _ _ _ _ hrow]
    by_cases hk : k = row.key
    · rw [hk, update_self, update_self]
      exact ⟨min_le_min_right _ (Nat.add_le_add_right hkey _), min_le_right _ _⟩
    · rw [update_of_ne hk, update_of_ne hk]
      exact hle k
  · -- dropped: the map moves, the table does not
    refine ⟨m, hnext, fun k => ⟨?_, (hle k).2⟩⟩
    rw [rowCount_applyDelta ref hlocal hzero]
    by_cases hk : k = row.key
    · rw [hk, update_self]
      exact le_min (hkey.trans (Nat.le_add_right _ _)) hmax
    · rw [update_of_ne hk]
      exact (hle k).1

theorem Below.applyExpiration (h : Below mixIndex t ref) (row : CellExpiration) :
    Below mixIndex (ShmAggregateStore.applyExpiration mixIndex t row) (ref.applyExpiration row) := by
  by_cases hlocal : row.appliesLocally = false
  · rw [ShmAggregateStore.applyExpiration, DashMapStore.applyExpiration, if_pos hlocal, if_pos hlocal]
    exact h
  obtain ⟨m, hm, hle⟩ := h
  rw [ShmAggregateStore.applyExpiration, if_neg hlocal]
  rcases hm.step (.expiration row.key row.lastCount) with ⟨hnext, -⟩ | ⟨_, _, _, hdelta, -⟩
  · refine ⟨_, hnext, fun k => ?_⟩
    rw [rowCount_applyExpiration ref hlocal, Write.map, CountMap.count_subtract]
    by_cases hk : k = row.key
    · obtain ⟨hkey, hmax⟩ := hle row.key
      rw [hk, update_self, update_self]
      exact ⟨Nat.sub_le_sub_right hkey _, (Nat.sub_le _ _).trans hmax⟩
    · rw [update_of_ne hk, update_of_ne hk]
      exact hle k
  · cases hdelta

/-- **What every row keeps, an application keeps.** -/
theorem ShmAggregateStore.apply_rel {rel : ShmTable → DashMapStore → Prop} {deltas : List CellDelta}
    {expirations : List CellExpiration} {store : ShmAggregateStore}
    (hdelta : ∀ row ∈ deltas, ∀ t ref, rel t ref →
      rel (applyDelta mixIndex t row) (ref.applyDelta row))
    (hexpiration : ∀ row ∈ expirations, ∀ t ref, rel t ref →
      rel (applyExpiration mixIndex t row) (ref.applyExpiration row))
    (h : rel store.table ref) :
    rel (store.apply mixIndex store.epoch deltas expirations).table
      (ref.apply deltas expirations) := by
  rw [ShmAggregateStore.apply, if_neg (not_not.2 rfl)]
  exact List.foldl_rel (List.foldl_rel h hdelta) hexpiration

theorem Below.apply {deltas : List CellDelta} {expirations : List CellExpiration}
    {store : ShmAggregateStore} (h : Below mixIndex store.table ref)
    (hrows : ∀ row ∈ deltas, row.delta ≤ u64Max) :
    Below mixIndex (store.apply mixIndex store.epoch deltas expirations).table
      (ref.apply deltas expirations) :=
  ShmAggregateStore.apply_rel (fun row hrow _ _ h => h.applyDelta row (hrows row hrow))
    (fun row _ _ _ h => h.applyExpiration row) h

/-! ## Runs of a leader -/

namespace LeaderRuntime

variable {env : Platform} {l l' : LeaderRuntime} {pins : ℕ → Bool} {applies : Fingerprint → Bool}

/-- **The invariant between iterations.** -/
structure Bounded (mixIndex : CellIdentity → BitVec 64) (pins : ℕ → Bool)
    (applies : Fingerprint → Bool) (leaseEpoch : ℕ) (l : LeaderRuntime) : Prop where
  agree : l.runtime.Agree pins applies
  epoch : l.store.epoch = leaseEpoch
  below : Below mixIndex l.store.table l.runtime.aggregates

theorem delta_le_of_loopCall {r : Runtime .u32} (h : r.store.toCellTable.Inv pins)
    {call : Option (StoreCall .u32)} (hcall : Runtime.LoopCall call) :
    ∀ row ∈ (r.rowsOf call).1, row.delta ≤ u64Max := by
  have hmax : CountWidth.max .u32 ≤ u64Max := by decide
  cases hcall with
  | none => exact nofun
  | ingestLocal obs =>
    exact fun row hrow => (CellStore.rows_delta_le
      (fun _ h o sink => CellStore.ingestRow_spec h o sink) h obs row hrow).trans hmax
  | mergeRemote obs =>
    exact fun row hrow => (CellStore.rows_delta_le
      (fun _ h o sink => CellStore.mergeRow_spec h o sink) h obs row hrow).trans hmax
  | expireAt now => exact nofun

/-- An iteration is one of the runtime, whose rows go to the store. -/
theorem iteration_spec {leaseEpoch now : ℕ} {arm : ArmOutcome} (hs : l.runtime.sinkBuf = [])
    (he : l.runtime.expirationBuf = [])
    (hi : l.iteration mixIndex env leaseEpoch now arm = some l') :
    let call := l.runtime.tableCall env now (l.runtime.firedArm arm)
    Runtime.Iterated env l.runtime call l'.runtime ∧
      l'.store = l.store.apply mixIndex leaseEpoch (l.runtime.rowsOf call).1
        (l.runtime.rowsOf call).2 := by
  obtain ⟨r, hr, rfl⟩ := Option.map_eq_some_iff.1 hi
  have hspec := Runtime.handled_spec hr hs he
  refine ⟨hspec.finish, ?_⟩
  dsimp only
  rw [← hspec.sinkBuf, ← hspec.expirationBuf]
  split_ifs with hne
  · rfl
  · obtain ⟨hsink, hexpiration⟩ := not_or.1 hne
    rw [not_not.1 hsink, not_not.1 hexpiration, ShmAggregateStore.apply_nil]

/-- A store that has lost the lease writes nothing. -/
theorem iteration_stale {leaseEpoch now : ℕ} {arm : ArmOutcome}
    (hstale : leaseEpoch ≠ l.store.epoch) (hi : l.iteration mixIndex env leaseEpoch now arm = some l') : l'.store = l.store := by
  obtain ⟨r, -, rfl⟩ := Option.map_eq_some_iff.1 hi
  dsimp only
  rw [ShmAggregateStore.apply, if_pos hstale, ite_self]

theorem Bounded.iteration {leaseEpoch now : ℕ} {arm : ArmOutcome}
    (h : Bounded mixIndex pins applies leaseEpoch l)
    (hi : l.iteration mixIndex env leaseEpoch now arm = some l') :
    Bounded mixIndex pins applies leaseEpoch l' := by
  obtain ⟨hit, hstore⟩ := iteration_spec h.agree.sinkBuf h.agree.expirationBuf hi
  have hcall := Runtime.tableCall_loopCall env l.runtime now (l.runtime.firedArm arm)
  refine ⟨h.agree.iterated (by decide) hcall hit, ?_, ?_⟩
  · rw [hstore, ShmAggregateStore.apply_epoch, h.epoch]
  · rw [hstore, hit.aggregates, ← h.epoch]
    exact h.below.apply (delta_le_of_loopCall h.agree.inv hcall)

theorem Bounded.run {leaseEpoch : ℕ} : ∀ (arms : List (ℕ × ArmOutcome)) {l : LeaderRuntime},
    Bounded mixIndex pins applies leaseEpoch l → l.run mixIndex env leaseEpoch arms = some l' →
    Bounded mixIndex pins applies leaseEpoch l'
  | [], _, h, hr => by
    cases hr
    exact h
  | (now, arm) :: rest, _, h, hr => by
    obtain ⟨l₁, h₁, hr⟩ := Option.bind_eq_some_iff.1 hr
    exact Bounded.run rest (h.iteration h₁) hr

/-- **The table never over-counts.**  Rules are registered, the store is built on the emptied
    table, and the loop runs while the lease stays with it.  The count that the table has for
    an identity of a registered rule is at most the sum of the leader's cells. -/
theorem table_le_sums (mixIndex : CellIdentity → BitVec 64) (env : Platform)
    {config : CellStoreConfig} {id : NodeIdentity} {s₀ : CellStore .u32}
    (hnew : CellStore.new .u32 config id = some s₀) (rules : List RuleDescriptor)
    (gossip : GossipConfig) (t : ShmTable) (leaseEpoch : ℕ) (arms : List (ℕ × ArmOutcome))
    {l : LeaderRuntime}
    (hrun : (LeaderRuntime.mk (.fromParts gossip (s₀.internRules rules) .empty)
      (.new t leaseEpoch)).run mixIndex env leaseEpoch arms = some l)
    (k : CellIdentity) (hk : (s₀.internRules rules).appliesTo k.ruleFingerprint = true) :
    (l.store.table.get mixIndex k).elim 0 AggregateCell.count ≤ l.runtime.store.identityTotal k := by
  obtain ⟨pins, hreg⟩ := CellStore.internRules_registering hnew rules
  have hstart : Bounded mixIndex pins (s₀.internRules rules).appliesTo leaseEpoch
      ⟨.fromParts gossip (s₀.internRules rules) .empty, .new t leaseEpoch⟩ :=
    ⟨Runtime.agree_fromParts hreg gossip, rfl, below_clear t⟩
  have h := hstart.run arms hrun
  refine (h.below.get k).trans (le_of_eq ?_)
  rw [rowCount, h.agree.aggregates, DashMapStore.getD_ofTotals, CellTable.localTotals,
    h.agree.applies, if_pos hk]

/-- Four hits on a registered rule, on a table of two slots. -/
theorem table_le_sums_tiny : ∃ (s₀ : CellStore .u32) (l : LeaderRuntime),
    CellStore.new .u32 CellStore.tinyConfig CellStore.tinyNode = some s₀ ∧
      (LeaderRuntime.mk (.fromParts Runtime.tinyGossip (s₀.internRules [Runtime.tinyRule]) .empty)
        (.new (.new 1 (by decide) (by decide)) 3)).run (fun _ => 1) Runtime.tinyPlatform 3
          Runtime.tinyArms = some l ∧
      (s₀.internRules [Runtime.tinyRule]).appliesTo 7 = true ∧
      l.store.table.get (fun _ => 1) ⟨7, 3, 5⟩ = some ⟨7, 3, 5, 4, 0⟩ ∧
      4 ≤ l.runtime.store.identityTotal ⟨7, 3, 5⟩ := by
  have heval : (((LeaderRuntime.mk Runtime.tinyRuntime
        (.new (.new 1 (by decide) (by decide)) 3)).run (fun _ => 1) Runtime.tinyPlatform 3
          Runtime.tinyArms).map fun l => ((tinyStore.internRules [Runtime.tinyRule]).appliesTo 7,
            l.store.table.get (fun _ => 1) ⟨7, 3, 5⟩)) = some (true, some ⟨7, 3, 5, 4, 0⟩) := by
    decide +kernel
  obtain ⟨l, hrun, hvals⟩ := Option.map_eq_some_iff.1 heval
  simp only [Prod.mk.injEq] at hvals
  obtain ⟨happ, hcell⟩ := hvals
  have hle := table_le_sums (fun _ => 1) Runtime.tinyPlatform tinyStore_new [Runtime.tinyRule]
    Runtime.tinyGossip (.new 1 (by decide) (by decide)) 3 Runtime.tinyArms hrun ⟨7, 3, 5⟩ happ
  rw [hcell] at hle
  exact ⟨tinyStore, l, tinyStore_new, hrun, happ, hcell, hle⟩

end LeaderRuntime

/-! ## The table is the map while no write is dropped -/

/-- The table holds the counts of the map. -/
def Exact (mixIndex : CellIdentity → BitVec 64) (t : ShmTable) (ref : DashMapStore) : Prop :=
  ∃ m : CountMap, Refines mixIndex t m ∧ ∀ k, m.count k = rowCount ref k

theorem Exact.get (h : Exact mixIndex t ref) (k : CellIdentity) :
    (t.get mixIndex k).elim 0 AggregateCell.count = rowCount ref k := by
  obtain ⟨m, hm, heq⟩ := h
  rw [← heq, hm.get, CountMap.count]
  cases m k <;> rfl

/-- **The table follows the map**: it is below it, and has its counts unless a write has been
    dropped since the counter stood at `d`. -/
structure Tracks (mixIndex : CellIdentity → BitVec 64) (d : ℕ) (t : ShmTable) (ref : DashMapStore) :
    Prop where
  below : Below mixIndex t ref
  dropped : d ≤ t.dropped
  exact : t.dropped = d → Exact mixIndex t ref

theorem exact_clear (t : ShmTable) : Exact mixIndex t.clear .empty :=
  ⟨fun _ => none, refines_clear t, fun _ => rfl⟩

theorem Tracks.applyDelta {d : ℕ} (h : Tracks mixIndex d t ref) (row : CellDelta)
    (hrow : row.delta ≤ u64Max) :
    Tracks mixIndex d (ShmAggregateStore.applyDelta mixIndex t row) (ref.applyDelta row) := by
  have hbelow := h.below.applyDelta row hrow
  by_cases hskip : row.appliesLocally = false ∨ row.delta = 0
  · have htable : ShmAggregateStore.applyDelta mixIndex t row = t := by
      unfold ShmAggregateStore.applyDelta
      split_ifs with hlocal hzero
      · rfl
      · rfl
      · exact absurd hskip (not_or.2 ⟨hlocal, hzero⟩)
    have hmap : ref.applyDelta row = ref := by
      unfold DashMapStore.applyDelta
      split_ifs with hlocal hzero
      · rfl
      · rfl
      · exact absurd hskip (not_or.2 ⟨hlocal, hzero⟩)
    rw [htable, hmap]
    exact h
  obtain ⟨hlocal, hzero⟩ := not_or.1 hskip
  have htable : ShmAggregateStore.applyDelta mixIndex t row =
      (Write.delta row.key row.delta 0).table mixIndex t := by
    rw [ShmAggregateStore.applyDelta, if_neg hlocal, if_neg hzero]
    rfl
  obtain ⟨m₀, hm₀, -⟩ := h.below
  refine ⟨hbelow, ?_, fun hd => ?_⟩
  · rw [htable]
    rcases hm₀.step (.delta row.key row.delta 0) with ⟨-, hdropped⟩ | ⟨_, _, _, -, -, hdropped⟩
    · exact hdropped ▸ h.dropped
    · exact hdropped ▸ h.dropped.trans (Nat.le_succ _)
  · have hle := h.dropped
    rw [htable] at hd ⊢
    -- the counter has not moved, so the write was made
    have hsame : t.dropped = d := by
      rcases hm₀.step (.delta row.key row.delta 0) with ⟨-, hdropped⟩ | ⟨_, _, _, -, -, hdropped⟩
      · exact hdropped.symm.trans hd
      · omega
    obtain ⟨m, hm, heq⟩ := h.exact hsame
    rcases hm.step (.delta row.key row.delta 0) with ⟨hnext, -⟩ | ⟨_, _, _, -, -, hdropped⟩
    · refine ⟨_, hnext, fun k => ?_⟩
      rw [rowCount_applyDelta ref hlocal hzero, Write.map, CountMap.count_add _ _ _ _ hrow, heq]
      congr 1
      exact funext heq
    · omega

theorem Tracks.applyExpiration {d : ℕ} (h : Tracks mixIndex d t ref) (row : CellExpiration) :
    Tracks mixIndex d (ShmAggregateStore.applyExpiration mixIndex t row)
      (ref.applyExpiration row) := by
  have hbelow := h.below.applyExpiration row
  by_cases hlocal : row.appliesLocally = false
  · rw [ShmAggregateStore.applyExpiration, DashMapStore.applyExpiration, if_pos hlocal,
      if_pos hlocal]
    exact h
  have htable : ShmAggregateStore.applyExpiration mixIndex t row =
      (Write.expiration row.key row.lastCount).table mixIndex t := by
    rw [ShmAggregateStore.applyExpiration, if_neg hlocal]
    rfl
  have hstep : ∀ {m : CountMap}, Refines mixIndex t m →
      Refines mixIndex ((Write.expiration row.key row.lastCount).table mixIndex t)
        ((Write.expiration row.key row.lastCount).map m) ∧
      ((Write.expiration row.key row.lastCount).table mixIndex t).dropped = t.dropped := by
    intro m hm
    rcases hm.step (.expiration row.key row.lastCount) with hnext | ⟨_, _, _, hdelta, -⟩
    · exact hnext
    · cases hdelta
  obtain ⟨m₀, hm₀, -⟩ := h.below
  refine ⟨hbelow, ?_, fun hd => ?_⟩
  · rw [htable, (hstep hm₀).2]
    exact h.dropped
  · rw [htable] at hd ⊢
    obtain ⟨m, hm, heq⟩ := h.exact ((hstep hm₀).2.symm.trans hd)
    refine ⟨_, (hstep hm).1, fun k => ?_⟩
    rw [rowCount_applyExpiration ref hlocal, Write.map, CountMap.count_subtract, heq]
    congr 1
    exact funext heq

theorem Tracks.apply {d : ℕ} {deltas : List CellDelta} {expirations : List CellExpiration}
    {store : ShmAggregateStore} (h : Tracks mixIndex d store.table ref)
    (hrows : ∀ row ∈ deltas, row.delta ≤ u64Max) :
    Tracks mixIndex d (store.apply mixIndex store.epoch deltas expirations).table
      (ref.apply deltas expirations) :=
  ShmAggregateStore.apply_rel (fun row hrow _ _ h => h.applyDelta row (hrows row hrow))
    (fun row _ _ _ h => h.applyExpiration row) h

end Nginx

end Gabion
