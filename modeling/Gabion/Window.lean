/-
  Sliding windows (`window.rs`, and the readers of `server/src/store.rs`).

  A window is the current bucket and the `live - 1` before it (`windowSpan`).
-/
import Gabion.Aggregate

namespace Gabion

/-! ## Header arithmetic -/

/-- The walk of `time_until_admit_millis` from `bucket` to `current`; `fuel` bounds the
    buckets that are left. -/
def agedOffFrom (countFor : ℕ → ℕ) (need : ℕ) : ℕ → ℕ → ℕ → Option ℕ
  | 0, _, _ => none
  | fuel + 1, bucket, agedOff =>
    let agedOff := min (agedOff + countFor bucket) u64Max
    if need ≤ agedOff then some bucket else agedOffFrom countFor need fuel (bucket + 1) agedOff

/-- `need` hits have to age off; the newest bucket is the fallback. -/
def timeUntilAdmitMillis (nowMillis bucketMillis liveBuckets limit total hits : ℕ)
    (countFor : ℕ → ℕ) : ℕ :=
  let bm := max bucketMillis 1
  let live := max liveBuckets 1
  let need := min (total + hits) u64Max - limit
  if need = 0 then 0
  else
    let current := nowMillis / bm % 2 ^ 32
    let oldest := current - (live - 1)
    let bucket := (agedOffFrom countFor need (current - oldest + 1) oldest 0).getD current
    min ((bucket + live) * bm) u64Max - nowMillis

def limitRemaining (limit total : ℕ) : ℕ := limit - total

def timeUntilNextBucketBoundaryMillis (nowMillis bucketMillis : ℕ) : ℕ :=
  let bm := max bucketMillis 1
  bm - nowMillis % bm

/-! ## The readers of the aggregates -/

namespace DashMapStore

variable (m : DashMapStore) (ruleFingerprint : Fingerprint) (keyHash : KeyHash)

/-- The row of one bucket. -/
def countFor (bucket : ℕ) : ℕ :=
  (m.cells { ruleFingerprint, keyHash, bucket := BitVec.ofNat 32 bucket }).getD 0

end DashMapStore

/-- The aggregates in shared memory (`nginx/src/shm/aggregate.rs`), as far as its readers see
    them: the count that `get` finds. -/
structure AggregateTable where
  get : CellIdentity → Option ℕ

/-- `AggregateTable::window_total`: the clamps are its own. -/
def AggregateTable.windowTotal (t : AggregateTable) (ruleFingerprint : Fingerprint)
    (keyHash : KeyHash) (nowMillis bucketMillis liveBuckets : ℕ) : ℕ :=
  let bm := max bucketMillis 1
  let current := nowMillis / bm % 2 ^ 32
  let live := max liveBuckets 1
  (List.range live).foldl
    (fun total offset =>
      if offset ≤ current then
        let bucket := BitVec.ofNat 32 (current - offset)
        min (total + (t.get { ruleFingerprint, keyHash, bucket }).getD 0) u64Max
      else total) 0

/-- The table sums as the server does. -/
theorem AggregateTable.windowTotal_eq (t : AggregateTable) (fp : Fingerprint) (keyHash : KeyHash)
    (now bucketMillis live : ℕ) : t.windowTotal fp keyHash now bucketMillis live =
      DashMapStore.windowTotal ⟨t.get⟩ fp keyHash now (max bucketMillis 1) (max live 1) := rfl

/-- The buckets of a window. -/
def windowSpan (current live : ℕ) : Finset ℕ :=
  (Finset.range (current + 1)).filter fun bucket => current < bucket + live

theorem mem_windowSpan {current live bucket : ℕ} :
    bucket ∈ windowSpan current live ↔ bucket ≤ current ∧ current < bucket + live := by
  rw [windowSpan, Finset.mem_filter, Finset.mem_range, Nat.lt_succ_iff]

theorem windowSpan_zero (current : ℕ) : windowSpan current 0 = ∅ := by
  ext bucket
  simp only [mem_windowSpan, Finset.notMem_empty, iff_false]
  omega

/-- One more live bucket: the next older one, if there is one. -/
theorem windowSpan_succ (current live : ℕ) : windowSpan current (live + 1) =
    if live ≤ current then insert (current - live) (windowSpan current live)
    else windowSpan current live := by
  ext bucket
  split_ifs with h
  · simp only [mem_windowSpan, Finset.mem_insert]
    omega
  · simp only [mem_windowSpan]
    omega

theorem card_windowSpan_le (current live : ℕ) : (windowSpan current live).card ≤ live := by
  have hsub : windowSpan current live ⊆ Finset.Ico (current + 1 - live) (current + 1) := by
    intro bucket hb
    rw [mem_windowSpan] at hb
    rw [Finset.mem_Ico]
    omega
  calc (windowSpan current live).card ≤ (Finset.Ico (current + 1 - live) (current + 1)).card :=
        Finset.card_le_card hsub
    _ ≤ live := by rw [Nat.card_Ico]; omega

/-- A later window holds no older bucket. -/
theorem mem_windowSpan_of_later {current later live bucket : ℕ} (h : current ≤ later)
    (hb : bucket ∈ windowSpan later live) (hle : bucket ≤ current) :
    bucket ∈ windowSpan current live := by
  rw [mem_windowSpan] at hb ⊢
  omega

/-- **What `window_total` sums**: the rows of the window, up to `u64::MAX`. -/
theorem windowTotal_eq (m : DashMapStore) (fp : Fingerprint) (keyHash : KeyHash)
    (now bucketMillis live : ℕ) : m.windowTotal fp keyHash now bucketMillis live =
      min (∑ bucket ∈ windowSpan (now / bucketMillis % 2 ^ 32) live, m.countFor fp keyHash bucket)
        u64Max := by
  unfold DashMapStore.windowTotal
  generalize now / bucketMillis % 2 ^ 32 = current
  induction live with
  | zero => rw [windowSpan_zero]; rfl
  | succ live ih =>
    dsimp only at ih ⊢
    rw [List.range_succ, List.foldl_append, ih, List.foldl_cons, List.foldl_nil, windowSpan_succ]
    split_ifs with h
    · -- the saturation of the partial sum does not show in the whole
      have hnew : current - live ∉ windowSpan current live := by
        rw [mem_windowSpan]; omega
      rw [Finset.sum_insert hnew, add_comm (m.countFor _ _ _)]
      generalize ∑ bucket ∈ windowSpan current live, m.countFor fp keyHash bucket = total
      show min (min total u64Max + m.countFor fp keyHash (current - live)) u64Max = _
      omega
    · rfl

theorem windowTotal_empty (fp : Fingerprint) (keyHash : KeyHash) (now bucketMillis live : ℕ) :
    DashMapStore.empty.windowTotal fp keyHash now bucketMillis live = 0 := by
  have hrow : ∀ bucket, DashMapStore.empty.countFor fp keyHash bucket = 0 := fun _ => rfl
  rw [windowTotal_eq, Finset.sum_eq_zero fun bucket _ => hrow bucket]
  rfl

end Gabion
