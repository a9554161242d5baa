/-
  The layout of a shared zone (`nginx/src/shm.rs`): six regions one after the other, each from a
  cache line on, and the largest table of counts that leaves nginx its allowance.

  Plain arithmetic on `usize` that does not fit 64 bits stops the model (`Stop.overflow`), so
  that a result is one without overflow.
-/
import Mathlib.Data.Nat.Log
import Gabion.Lib.Fallible

namespace Gabion

namespace Nginx.Shm

open Fallible

/-! ## `usize` -/

/-- Why there is no result: the source returns `None`, or an operation overflows. -/
inductive Stop
  | none
  | overflow
deriving DecidableEq, Repr

def addUsize (a b : ℕ) : Except Stop ℕ := if a + b < 2 ^ 64 then .ok (a + b) else .error .overflow

def mulUsize (a b : ℕ) : Except Stop ℕ := if a * b < 2 ^ 64 then .ok (a * b) else .error .overflow

def subUsize (a b : ℕ) : Except Stop ℕ := if b ≤ a then .ok (a - b) else .error .overflow

def checkedMul (a b : ℕ) : Except Stop ℕ := if a * b < 2 ^ 64 then .ok (a * b) else .error .none

def checkedSub (a b : ℕ) : Except Stop ℕ := if b ≤ a then .ok (a - b) else .error .none

def checkedIlog2 (a : ℕ) : Except Stop ℕ := if a = 0 then .error .none else .ok (Nat.log 2 a)

def isPowerOfTwo (n : ℕ) : Bool := 2 ^ Nat.log 2 n == n

/-! ## Layouts -/

def cacheline : ℕ := 64

/-- `!mask` is the complement in 64 bits. -/
def alignUp (value align : ℕ) : Except Stop ℕ := do
  let mask ← subUsize align 1
  let sum ← addUsize value mask
  return sum &&& (2 ^ 64 - 1 - mask)

def queueCapacity : ℕ := 2048

def minAggregateCapacity : ℕ := 1024

/-- `magic`, `version`, the identity (two words, the incarnation and its padding), and five
    words. -/
def sizeOfHeader : ℕ := 4 + 4 + (8 + 8 + 4 + 4) + 5 * 8

def sizeOfLeaderLease : ℕ := 2 * 8

def sizeOfQueueControl : ℕ := 4 * 8

/-- Five words, the bucket and its padding, and three words. -/
def sizeOfQueueSlot : ℕ := 5 * 8 + 4 + 4 + 3 * 8

def sizeOfAggregateSlot : ℕ := 8 * 8

/-- Seven counters, one for each rule, and four. -/
def sizeOfStats : ℕ := 7 * 8 + 64 * 8 + 4 * 8

structure Layout where
  queueCapacity : ℕ
  aggregateCapacity : ℕ
  headerOffset : ℕ
  leaseOffset : ℕ
  queueControlOffset : ℕ
  queueSlotsOffset : ℕ
  aggregateSlotsOffset : ℕ
  statsOffset : ℕ
  totalBytes : ℕ
deriving DecidableEq, Repr

/-- `align_up(offset + bytes, CACHELINE)`: where the region behind one of `bytes` bytes starts. -/
def nextOffset (offset bytes : ℕ) : Except Stop ℕ := do
  let sum ← addUsize offset bytes
  alignUp sum cacheline

def Layout.new (queueCapacity aggregateCapacity : ℕ) : Except Stop Layout :=
  if !isPowerOfTwo queueCapacity || queueCapacity < 2 then .error .none
  else if !isPowerOfTwo aggregateCapacity || aggregateCapacity < 2 then .error .none
  else do
    let headerOffset := 0
    let leaseOffset ← nextOffset headerOffset sizeOfHeader
    let queueControlOffset ← nextOffset leaseOffset sizeOfLeaderLease
    let queueSlotsOffset ← nextOffset queueControlOffset sizeOfQueueControl
    let queueSlotsBytes ← checkedMul queueCapacity sizeOfQueueSlot
    let aggregateSlotsOffset ← nextOffset queueSlotsOffset queueSlotsBytes
    let aggregateSlotsBytes ← checkedMul aggregateCapacity sizeOfAggregateSlot
    let statsOffset ← nextOffset aggregateSlotsOffset aggregateSlotsBytes
    let totalBytes ← nextOffset statsOffset sizeOfStats
    return { queueCapacity, aggregateCapacity, headerOffset, leaseOffset, queueControlOffset,
             queueSlotsOffset, aggregateSlotsOffset, statsOffset, totalBytes }

/-- The loop of `for_zone`.  The capacity is a power of two below `2 ^ 64`, so that the loop
    ends within 64 rounds. -/
def fitLoop (usable : ℕ) : ℕ → ℕ → Except Stop Layout
  | 0, _ => .error .none
  | rounds + 1, capacity =>
    if minAggregateCapacity ≤ capacity then do
      let layout ← Layout.new queueCapacity capacity
      if layout.totalBytes ≤ usable then return layout else fitLoop usable rounds (capacity / 2)
    else .error .none

def Layout.forZone (zoneBytes pageBytes : ℕ) : Except Stop Layout := do
  let pages ← mulUsize 4 pageBytes
  let allowance ← addUsize (zoneBytes / 128) pages
  let usable ← checkedSub zoneBytes allowance
  let exponent ← checkedIlog2 (usable / sizeOfAggregateSlot)
  fitLoop usable 64 (2 ^ exponent)

/-! ## Regions -/

structure Region where
  start : ℕ
  bytes : ℕ

/-- Header, lease, queue control, queue slots, count slots and statistics. -/
def Layout.regions (l : Layout) : List Region :=
  [⟨l.headerOffset, sizeOfHeader⟩, ⟨l.leaseOffset, sizeOfLeaderLease⟩,
    ⟨l.queueControlOffset, sizeOfQueueControl⟩,
    ⟨l.queueSlotsOffset, l.queueCapacity * sizeOfQueueSlot⟩,
    ⟨l.aggregateSlotsOffset, l.aggregateCapacity * sizeOfAggregateSlot⟩, ⟨l.statsOffset, sizeOfStats⟩]

/-- What the regions take when the table has `capacity` counts. -/
def regionSizes (capacity : ℕ) : List ℕ :=
  [sizeOfHeader, sizeOfLeaderLease, sizeOfQueueControl, queueCapacity * sizeOfQueueSlot,
    capacity * sizeOfAggregateSlot, sizeOfStats]

/-- Regions that follow each other, each from a cache line on, and end within `bytes`. -/
structure Placed (regions : List Region) (bytes : ℕ) : Prop where
  inOrder : regions.Pairwise fun a b => a.start + a.bytes ≤ b.start
  aligned : ∀ r ∈ regions, cacheline ∣ r.start
  inside : ∀ r ∈ regions, r.start + r.bytes ≤ bytes

/-- The six regions with a table of this capacity have a place in `bytes` bytes. -/
def Fits (bytes capacity : ℕ) : Prop :=
  ∃ regions : List Region, regions.map Region.bytes = regionSizes capacity ∧ Placed regions bytes

/-- The bytes of the cache lines that are whole. -/
def wholeLines (bytes : ℕ) : ℕ := bytes / cacheline * cacheline

/-! ## Offsets -/

theorem and_complement {sum k : ℕ} (hk : k < 64) (hsum : sum < 2 ^ 64) :
    sum &&& (2 ^ 64 - 1 - (2 ^ k - 1)) = sum / 2 ^ k * 2 ^ k := by
  have hle : 2 ^ k - 1 < 2 ^ 64 := by
    have := Nat.pow_lt_pow_right (a := 2) (by norm_num) hk
    omega
  rw [Nat.sub_sub, Nat.add_comm 1]
  refine Nat.eq_of_testBit_eq fun i => ?_
  rw [Nat.testBit_and, Nat.testBit_two_pow_sub_succ hle, Nat.testBit_two_pow_sub_one,
    Nat.testBit_mul_two_pow, Nat.testBit_div_two_pow]
  rcases Nat.lt_or_ge i k with hlt | hge
  · simp [hlt, Nat.not_le.2 hlt]
  · rw [Nat.sub_add_cancel hge]
    rcases Nat.lt_or_ge i 64 with hlt | hbig
    · simp [hge, hlt, Nat.not_lt.2 hge]
    · rw [Nat.testBit_lt_two_pow (hsum.trans_le (Nat.pow_le_pow_right (by norm_num) hbig))]
      simp

theorem addUsize_eq_ok {a b c : ℕ} : addUsize a b = .ok c ↔ a + b < 2 ^ 64 ∧ c = a + b := ite_eq_ok

theorem checkedMul_eq_ok {a b c : ℕ} : checkedMul a b = .ok c ↔ a * b < 2 ^ 64 ∧ c = a * b :=
  ite_eq_ok

/-- **A region starts at the next cache line.** -/
theorem nextOffset_eq_ok {offset bytes n : ℕ} : nextOffset offset bytes = .ok n ↔
    offset + bytes + 63 < 2 ^ 64 ∧ n = (offset + bytes + 63) / 64 * 64 := by
  have hmask : subUsize cacheline 1 = .ok 63 := rfl
  simp only [nextOffset, alignUp, bind_eq_ok, hmask, addUsize_eq_ok, Except.ok.injEq, pure, Except.pure]
  constructor
  · rintro ⟨_, ⟨-, rfl⟩, _, rfl, _, ⟨hlt, rfl⟩, rfl⟩
    exact ⟨hlt, and_complement (k := 6) (by norm_num) hlt⟩
  · rintro ⟨hlt, rfl⟩
    exact ⟨_, ⟨by omega, rfl⟩, _, rfl, _, ⟨hlt, rfl⟩, and_complement (k := 6) (by norm_num) hlt⟩

theorem isPowerOfTwo_pow (k : ℕ) : isPowerOfTwo (2 ^ k) = true := by
  rw [isPowerOfTwo, Nat.log_pow (by norm_num), beq_self_eq_true]

/-- The layout of a zone with `c` count slots. -/
def zoneLayout (c : ℕ) : Layout where
  queueCapacity := 2048
  aggregateCapacity := c
  headerOffset := 0
  leaseOffset := 128
  queueControlOffset := 192
  queueSlotsOffset := 256
  aggregateSlotsOffset := 147712
  statsOffset := 147712 + 64 * c
  totalBytes := 148352 + 64 * c

theorem new_zone {k : ℕ} (hk : 1 ≤ k) (hlt : 2 ^ k < 2 ^ 55) :
    Layout.new queueCapacity (2 ^ k) = .ok (zoneLayout (2 ^ k)) := by
  have htwo : ¬ 2 ^ k < 2 := by
    have := Nat.pow_le_pow_right (n := 2) (by norm_num) hk
    omega
  have hpow := isPowerOfTwo_pow k
  generalize 2 ^ k = c at *
  have hqueue : (!isPowerOfTwo queueCapacity || decide (queueCapacity < 2)) = false := by decide
  rw [Layout.new, if_neg (by rw [hqueue]; exact Bool.false_ne_true), if_neg (by simp [hpow, htwo])]
  simp only [bind_eq_ok, nextOffset_eq_ok, checkedMul_eq_ok]
  simp only [sizeOfHeader, sizeOfLeaderLease, sizeOfQueueControl, sizeOfQueueSlot, queueCapacity,
    sizeOfAggregateSlot, sizeOfStats]
  refine ⟨128, ⟨by norm_num, by norm_num⟩, 192, ⟨by norm_num, by norm_num⟩, 256,
    ⟨by norm_num, by norm_num⟩, 147456, ⟨by norm_num, by norm_num⟩, 147712, ⟨by norm_num, by norm_num⟩,
    _, ⟨by omega, rfl⟩, 147712 + 64 * c, ⟨by omega, by omega⟩, 148352 + 64 * c,
    ⟨by omega, by omega⟩, rfl⟩

theorem zoneLayout_regions (c : ℕ) : (zoneLayout c).regions = [⟨0, 72⟩, ⟨128, 16⟩, ⟨192, 32⟩,
    ⟨256, 147456⟩, ⟨147712, c * 64⟩, ⟨147712 + 64 * c, 600⟩] := by
  norm_num [Layout.regions, zoneLayout, sizeOfHeader, sizeOfLeaderLease, sizeOfQueueControl,
    sizeOfQueueSlot, sizeOfAggregateSlot, sizeOfStats]

theorem regionSizes_eq (c : ℕ) : regionSizes c = [72, 16, 32, 147456, c * 64, 600] := by
  norm_num [regionSizes, sizeOfHeader, sizeOfLeaderLease, sizeOfQueueControl, queueCapacity,
    sizeOfQueueSlot, sizeOfAggregateSlot, sizeOfStats]

theorem zoneLayout_sizes (c : ℕ) :
    (zoneLayout c).regions.map Region.bytes = regionSizes c := by
  rw [zoneLayout_regions, regionSizes_eq]
  rfl

/-- The statistics are the last region. -/
theorem zoneLayout_placed {c bytes : ℕ} (h : 148312 + 64 * c ≤ bytes) :
    Placed (zoneLayout c).regions bytes := by
  rw [zoneLayout_regions]
  refine ⟨?_, ?_, ?_⟩
  · simp only [List.pairwise_cons, List.forall_mem_cons, List.not_mem_nil, IsEmpty.forall_iff,
      implies_true, List.Pairwise.nil, and_true]
    omega
  · simp only [cacheline, List.forall_mem_cons, List.not_mem_nil, IsEmpty.forall_iff, implies_true,
      and_true]
    omega
  · simp only [List.forall_mem_cons, List.not_mem_nil, IsEmpty.forall_iff, implies_true, and_true]
    omega

/-- **No place is tighter than the layout's**: regions that start at cache lines do not end
    before those of `zoneLayout`. -/
theorem Fits.le {c bytes : ℕ} (h : Fits bytes c) : 148312 + 64 * c ≤ bytes := by
  obtain ⟨regions, hsizes, horder, haligned, hinside⟩ := h
  rw [regionSizes_eq] at hsizes
  obtain ⟨header, regions, rfl, hheader, hsizes⟩ := List.map_eq_cons_iff.1 hsizes
  obtain ⟨lease, regions, rfl, hlease, hsizes⟩ := List.map_eq_cons_iff.1 hsizes
  obtain ⟨control, regions, rfl, hcontrol, hsizes⟩ := List.map_eq_cons_iff.1 hsizes
  obtain ⟨queue, regions, rfl, hqueue, hsizes⟩ := List.map_eq_cons_iff.1 hsizes
  obtain ⟨counts, regions, rfl, hcounts, hsizes⟩ := List.map_eq_cons_iff.1 hsizes
  obtain ⟨stats, regions, rfl, hstats, -⟩ := List.map_eq_cons_iff.1 hsizes
  simp only [List.pairwise_cons, List.forall_mem_cons] at horder
  simp only [cacheline, List.forall_mem_cons] at haligned hinside
  -- each region starts at the next cache line at the earliest
  have hlease : 128 ≤ lease.start := by omega
  have hcontrol : 192 ≤ control.start := by omega
  have hqueue : 256 ≤ queue.start := by omega
  have hcounts : 147712 ≤ counts.start := by omega
  omega

theorem fits_of_le {c bytes : ℕ} (h : 148312 + 64 * c ≤ bytes) : Fits bytes c :=
  ⟨_, zoneLayout_sizes c, zoneLayout_placed h⟩

/-! ## The largest table -/

variable {usable : ℕ}

/-- A table has a place in the whole cache lines if its block, which is whole cache lines, is
    within the bytes. -/
theorem fits_iff {c : ℕ} :
    Fits (wholeLines usable) c ↔ (zoneLayout c).totalBytes ≤ usable := by
  have hiff : 148312 + 64 * c ≤ wholeLines usable ↔ 148352 + 64 * c ≤ usable := by
    rw [wholeLines, cacheline]
    omega
  exact ⟨fun h => hiff.1 h.le, fun h => fits_of_le (hiff.2 h)⟩

/-- A table that fits is no larger than the space for its slots. -/
theorem Fits.le_div {c : ℕ} (h : Fits (wholeLines usable) c) :
    c ≤ usable / sizeOfAggregateSlot := by
  have hblock : 148352 + 64 * c ≤ usable := fits_iff.1 h
  rw [sizeOfAggregateSlot]
  omega

theorem one_le_of_minAggregateCapacity {j : ℕ} (h : minAggregateCapacity ≤ 2 ^ j) : 1 ≤ j := by
  by_contra hzero
  rw [show j = 0 by omega, minAggregateCapacity] at h
  omega

/-- What the loop finds from `2 ^ k` downwards: the first power of two that fits, or none. -/
inductive Found (usable k : ℕ) : Except Stop Layout → Prop
  | layout (j : ℕ) : j ≤ k → minAggregateCapacity ≤ 2 ^ j → Fits (wholeLines usable) (2 ^ j) →
      (∀ i ≤ k, Fits (wholeLines usable) (2 ^ i) → i ≤ j) →
      Found usable k (.ok (zoneLayout (2 ^ j)))
  | none : (∀ i ≤ k, minAggregateCapacity ≤ 2 ^ i → ¬ Fits (wholeLines usable) (2 ^ i)) →
      Found usable k (.error .none)

theorem fitLoop_found {rounds k : ℕ} (hrounds : k < rounds) (hlt : 2 ^ k < 2 ^ 55) :
    Found usable k (fitLoop usable rounds (2 ^ k)) := by
  induction rounds generalizing k with
  | zero => omega
  | succ rounds ih =>
    unfold fitLoop
    split_ifs with hmin
    · have hk := one_le_of_minAggregateCapacity hmin
      rw [new_zone hk hlt]
      simp only [bind, Except.bind, pure, Except.pure]
      split_ifs with hle
      · exact .layout k le_rfl hmin (fits_iff.2 hle) fun i hi _ => hi
      · -- `2 ^ k` does not fit: what is found below is the largest
        obtain ⟨k, rfl⟩ : ∃ m, k = m + 1 := ⟨k - 1, by omega⟩
        have hhalf : 2 ^ (k + 1) / 2 = 2 ^ k := by rw [pow_succ, Nat.mul_div_cancel _ (by norm_num)]
        have hgone : ∀ i ≤ k + 1, Fits (wholeLines usable) (2 ^ i) → i ≤ k := by
          intro i hi hfit
          rcases Nat.lt_or_ge k i with hlarge | hsmall
          · rw [show i = k + 1 by omega] at hfit
            exact absurd (fits_iff.1 hfit) hle
          · exact hsmall
        rw [hhalf]
        have hbelow := ih (k := k) (by omega) (by rw [pow_succ] at hlt; omega)
        generalize fitLoop usable rounds (2 ^ k) = found at hbelow
        cases hbelow with
        | layout j hj hminj hfit hmax =>
          exact .layout j (by omega) hminj hfit fun i hi hf => hmax i (hgone i hi hf) hf
        | none hnone => exact .none fun i hi hm hf => hnone i (hgone i hi hf) hm hf
    · refine .none fun i hi hm => absurd (hm.trans ?_) hmin
      exact Nat.pow_le_pow_right (by norm_num) hi

/-- `for_zone` once the bytes it may use are known. -/
def largestLayout (usable : ℕ) : Except Stop Layout :=
  if usable / sizeOfAggregateSlot = 0 then .error .none
  else fitLoop usable 64 (2 ^ Nat.log 2 (usable / sizeOfAggregateSlot))

theorem forZone_eq {zoneBytes pageBytes : ℕ} (hzone : zoneBytes < 2 ^ 60) (hpage : pageBytes < 2 ^ 60) :
    Layout.forZone zoneBytes pageBytes =
      largestLayout (zoneBytes - (zoneBytes / 128 + 4 * pageBytes)) := by
  have hpages : mulUsize 4 pageBytes = .ok (4 * pageBytes) := if_pos (by omega)
  have hallowance : addUsize (zoneBytes / 128) (4 * pageBytes) =
      .ok (zoneBytes / 128 + 4 * pageBytes) := if_pos (by omega)
  simp only [Layout.forZone, largestLayout, hpages, hallowance, bind, Except.bind]
  by_cases hroom : zoneBytes / 128 + 4 * pageBytes ≤ zoneBytes
  · rw [checkedSub, if_pos hroom]
    dsimp only
    rw [checkedIlog2]
    split_ifs <;> rfl
  · rw [checkedSub, if_neg hroom, Nat.sub_eq_zero_of_le (by omega), Nat.zero_div, if_pos rfl]

/-- The largest power of two that could fit bounds the search. -/
theorem largestLayout_found {usable : ℕ} (husable : usable < 2 ^ 60) :
    largestLayout usable = .error .none ∧ (∀ k, ¬ Fits (wholeLines usable) (2 ^ k)) ∨
      ∃ n, (∀ k, Fits (wholeLines usable) (2 ^ k) → k ≤ n) ∧
        Found usable n (largestLayout usable) := by
  have hle : ∀ k, Fits (wholeLines usable) (2 ^ k) → 2 ^ k ≤ usable / sizeOfAggregateSlot :=
    fun k h => h.le_div
  unfold largestLayout
  split_ifs with hzero
  · refine .inl ⟨rfl, fun k h => ?_⟩
    have := hle k h
    have := Nat.two_pow_pos k
    omega
  · have hlog : 2 ^ Nat.log 2 (usable / sizeOfAggregateSlot) < 2 ^ 55 := by
      have := Nat.pow_log_le_self 2 hzero
      rw [sizeOfAggregateSlot] at this ⊢
      omega
    have hlt : Nat.log 2 (usable / sizeOfAggregateSlot) < 64 :=
      (Nat.pow_lt_pow_iff_right (by norm_num)).1 hlog |>.trans (by norm_num)
    exact .inr ⟨_, fun k h => Nat.le_log_of_pow_le (by norm_num) (hle k h),
      fitLoop_found hlt hlog⟩

/-- **A zone's layout is sound and has the largest table that fits.**  The regions have a place in
    the cache lines that are whole: `for_zone` rounds the end of the last one up.  It never
    overflows, and it returns `None` exactly when no table of at least `minAggregateCapacity` slots
    fits. -/
theorem forZone_largest (zoneBytes pageBytes : ℕ) (hzone : zoneBytes < 2 ^ 60)
    (hpage : pageBytes < 2 ^ 60) :
    Layout.forZone zoneBytes pageBytes ≠ .error .overflow ∧
    let allowance := zoneBytes / 128 + 4 * pageBytes
    let usable := wholeLines (zoneBytes - allowance)
    (∀ l, Layout.forZone zoneBytes pageBytes = .ok l →
      l.regions.map Region.bytes = regionSizes l.aggregateCapacity ∧ Placed l.regions usable ∧
      l.totalBytes + allowance ≤ zoneBytes ∧
      minAggregateCapacity ≤ l.aggregateCapacity ∧ (∃ k, l.aggregateCapacity = 2 ^ k) ∧
      ∀ k, Fits usable (2 ^ k) → 2 ^ k ≤ l.aggregateCapacity) ∧
    (Layout.forZone zoneBytes pageBytes = .error .none ↔
      ∀ k, minAggregateCapacity ≤ 2 ^ k → ¬ Fits usable (2 ^ k)) := by
  rw [forZone_eq hzone hpage]
  dsimp only
  generalize hallowance : zoneBytes / 128 + 4 * pageBytes = allowance
  generalize husable : zoneBytes - allowance = usable
  rcases largestLayout_found (show usable < 2 ^ 60 by omega) with ⟨heq, hnone⟩ | ⟨n, hreach, hfound⟩
  · rw [heq]
    exact ⟨by simp, by simp, by simp [hnone]⟩
  · generalize largestLayout usable = found at hfound
    cases hfound with
    | layout j hj hmin hfit hmax =>
      have hblock : 148352 + 64 * 2 ^ j ≤ usable := fits_iff.1 hfit
      refine ⟨by simp, ?_, ?_⟩
      · intro l hl
        cases hl
        refine ⟨zoneLayout_sizes _, zoneLayout_placed hfit.le, ?_, hmin, ⟨j, rfl⟩, fun k hk => ?_⟩
        · show 148352 + 64 * 2 ^ j + allowance ≤ zoneBytes
          omega
        · exact Nat.pow_le_pow_right (by norm_num) (hmax k (hreach k hk) hk)
      · simp only [reduceCtorEq, false_iff, not_forall, not_not]
        exact ⟨j, hmin, hfit⟩
    | none hnone =>
      refine ⟨by simp, by simp, ?_⟩
      simp only [true_iff]
      exact fun k hmin hfit => hnone k (hreach k hfit) hmin hfit

/-- A zone of 64 MiB on pages of 4 KiB holds half a million counts. -/
theorem forZone_largest_mebibytes :
    Layout.forZone (64 * 2 ^ 20) 4096 = .ok (zoneLayout (2 ^ 19)) ∧
      ¬ Fits (wholeLines (64 * 2 ^ 20 - (64 * 2 ^ 20 / 128 + 4 * 4096))) (2 ^ 20) := by
  have hzone : Layout.forZone (64 * 2 ^ 20) 4096 = .ok (zoneLayout (2 ^ 19)) := by decide +kernel
  obtain ⟨-, hok, -⟩ := forZone_largest (64 * 2 ^ 20) 4096 (by norm_num) (by norm_num)
  obtain ⟨-, -, -, -, -, hmax⟩ := hok _ hzone
  refine ⟨hzone, fun hfit => ?_⟩
  have hle : 2 ^ 20 ≤ 2 ^ 19 := hmax 20 hfit
  omega

/-- **A last cache line that is not whole.**  The regions with the least table would end two bytes
    before the allowance of this zone, but the cache line they end in reaches into it: `for_zone`
    returns `None`. -/
theorem cut_line_refused :
    Layout.forZone 232046 4096 = .error .none ∧
      Fits (232046 - (232046 / 128 + 4 * 4096)) minAggregateCapacity ∧
      ¬ (Layout.forZone 232046 4096 = .error .none ↔ ∀ k, minAggregateCapacity ≤ 2 ^ k →
        ¬ Fits (232046 - (232046 / 128 + 4 * 4096)) (2 ^ k)) := by
  have hnone : Layout.forZone 232046 4096 = .error .none := by decide +kernel
  have hfits : Fits (232046 - (232046 / 128 + 4 * 4096)) minAggregateCapacity :=
    fits_of_le (by norm_num [minAggregateCapacity])
  exact ⟨hnone, hfits, fun h => h.1 hnone 10 (by decide) hfits⟩

end Nginx.Shm

end Gabion
