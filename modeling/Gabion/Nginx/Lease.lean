/-
  The leader lease (`nginx/src/shm/lease.rs`), one atomic load, exchange or addition at a time.

  Owner and expiry share one word; a worker that finds its own id renews, one that finds no
  owner or an expired lease takes over and then adds one to the epoch.  `Attempt.step` and
  `releaseStep` are the bodies of the two loops; `Attempt.step_spec` says what a step of
  `try_acquire` can do.

  Workers call `try_acquire` and `release` in any order, and read one clock before each
  `try_acquire`.  `grant` is the expiry of a worker's latest grant that it has not released.
  As long as a grant has not expired, the word is the one its exchange stored (`Inv`).
-/
import Gabion.Lib.Threads
import Gabion.Types

namespace Gabion

namespace Nginx

open Function Threads

/-! ## The word -/

def ownerMax : ℕ := 2 ^ 24 - 1

def expiresMask : ℕ := 2 ^ 40 - 1

def pack (owner expiresMillis : ℕ) : ℕ := (owner &&& ownerMax) <<< 40 ||| (expiresMillis &&& expiresMask)

def unpack (state : ℕ) : ℕ × ℕ := (state >>> 40, state &&& expiresMask)

def truncateOwner (workerId : BitVec 32) : ℕ :=
  let lo := workerId.toNat &&& ownerMax
  let hi := workerId.toNat >>> 24
  let folded := lo ^^^ hi
  if folded = 0 then 1 else folded

theorem and_expiresMask (x : ℕ) : x &&& expiresMask = x % 2 ^ 40 := Nat.and_two_pow_sub_one_eq_mod x 40

theorem and_ownerMax (x : ℕ) : x &&& ownerMax = x % 2 ^ 24 := Nat.and_two_pow_sub_one_eq_mod x 24

theorem pack_eq (owner expires : ℕ) :
    pack owner expires = owner % 2 ^ 24 * 2 ^ 40 + expires % 2 ^ 40 := by
  rw [pack, and_ownerMax, and_expiresMask, ← Nat.shiftLeft_add_eq_or_of_lt (Nat.mod_lt _ (by decide)),
    Nat.shiftLeft_eq]

theorem unpack_pack {owner expires : ℕ} (ho : owner < 2 ^ 24) (he : expires < 2 ^ 40) :
    unpack (pack owner expires) = (owner, expires) := by
  rw [unpack, pack_eq, and_expiresMask, Nat.shiftRight_eq_div_pow, Nat.mod_eq_of_lt ho,
    Nat.mod_eq_of_lt he, Prod.mk.injEq]
  omega

theorem unpack_pack_owner {owner : ℕ} (ho : owner < 2 ^ 24) (expires : ℕ) :
    (unpack (pack owner expires)).1 = owner := by
  rw [unpack, pack_eq, Nat.shiftRight_eq_div_pow, Nat.mod_eq_of_lt ho]
  have he := Nat.mod_lt expires (show 0 < 2 ^ 40 by decide)
  dsimp only
  omega

theorem truncateOwner_lt (workerId : BitVec 32) : truncateOwner workerId < 2 ^ 24 := by
  have hid := workerId.isLt
  have hlo : workerId.toNat &&& ownerMax < 2 ^ 24 := by
    rw [and_ownerMax]
    exact Nat.mod_lt _ (by decide)
  have hhi : workerId.toNat >>> 24 < 2 ^ 24 := by
    rw [Nat.shiftRight_eq_div_pow]
    omega
  have hxor := Nat.xor_lt_two_pow hlo hhi
  unfold truncateOwner
  dsimp only
  split_ifs
  · decide
  · exact hxor

theorem truncateOwner_ne_zero (workerId : BitVec 32) : truncateOwner workerId ≠ 0 := by
  unfold truncateOwner
  dsimp only
  split_ifs with h
  · decide
  · exact h

/-! ## `try_acquire` and `release` -/

structure LeaderLease where
  state : ℕ
  epoch : ℕ
deriving DecidableEq, Repr

/-- The arguments of a call of `try_acquire`. -/
structure Attempt where
  workerId : BitVec 32
  nowMillis : ℕ
  ttlMillis : ℕ
deriving DecidableEq, Repr

namespace Attempt

def ownerId (a : Attempt) : ℕ := truncateOwner a.workerId

def now (a : Attempt) : ℕ := min a.nowMillis expiresMask

def newExpires (a : Attempt) : ℕ := min (min (a.now + a.ttlMillis) u64Max) expiresMask

/-- The expiry as the caller sees it. -/
def expiry (a : Attempt) : ℕ := a.nowMillis + a.ttlMillis

/-- The call returns `false` at once. -/
def vain (a : Attempt) : Bool := a.workerId = 0 ∨ a.ttlMillis = 0

def newState (a : Attempt) : ℕ := pack a.ownerId a.newExpires

end Attempt

/-- Where a call of `try_acquire` is, with the word it has loaded. -/
inductive AcquirePc
  | load
  | renew (state : ℕ)
  | takeOver (state : ℕ)
  | bump
deriving DecidableEq, Repr

inductive ReleasePc
  | load
  | exchange (state : ℕ)
deriving DecidableEq, Repr

/-- A call goes on or returns. -/
inductive Progress (α : Type)
  | goto (pc : α)
  | done (result : Bool)
deriving DecidableEq, Repr

def Attempt.step (a : Attempt) (pc : AcquirePc) (lease : LeaderLease) :
    Progress AcquirePc × LeaderLease :=
  match pc with
  | .load =>
    let (owner, expires) := unpack lease.state
    if owner = a.ownerId then (.goto (.renew lease.state), lease)
    else if owner ≠ 0 ∧ expires > a.now then (.done false, lease)
    else (.goto (.takeOver lease.state), lease)
  | .renew state =>
    if lease.state = state then (.done true, { lease with state := a.newState })
    else (.goto .load, lease)
  | .takeOver state =>
    if lease.state = state then (.goto .bump, { lease with state := a.newState })
    else (.goto .load, lease)
  | .bump => (.done true, { lease with epoch := (lease.epoch + 1) % 2 ^ 64 })

/-- An exchange of `try_acquire` that succeeds. -/
def AcquirePc.wins (pc : AcquirePc) (lease : LeaderLease) : Bool :=
  match pc with
  | .renew state | .takeOver state => lease.state = state
  | .load | .bump => false

def releaseStep (workerId : BitVec 32) (pc : ReleasePc) (lease : LeaderLease) :
    Progress ReleasePc × LeaderLease :=
  match pc with
  | .load =>
    if (unpack lease.state).1 ≠ truncateOwner workerId then (.done false, lease)
    else (.goto (.exchange lease.state), lease)
  | .exchange state =>
    if lease.state = state then (.done true, { lease with state := pack 0 0 })
    else (.goto .load, lease)

def ReleasePc.wins (pc : ReleasePc) (lease : LeaderLease) : Bool :=
  match pc with
  | .exchange state => lease.state = state
  | .load => false

/-- **What a step of `try_acquire` can do.** -/
inductive Acquires (a : Attempt) (lease : LeaderLease) :
    AcquirePc → Progress AcquirePc → LeaderLease → Prop
  | own (howner : (unpack lease.state).1 = a.ownerId) :
      Acquires a lease .load (.goto (.renew lease.state)) lease
  | refused (howner : (unpack lease.state).1 ≠ a.ownerId) :
      Acquires a lease .load (.done false) lease
  | vacant (howner : (unpack lease.state).1 ≠ a.ownerId)
      (hfree : (unpack lease.state).1 = 0 ∨ (unpack lease.state).2 ≤ a.now) :
      Acquires a lease .load (.goto (.takeOver lease.state)) lease
  | renewed : Acquires a lease (.renew lease.state) (.done true) { lease with state := a.newState }
  | taken : Acquires a lease (.takeOver lease.state) (.goto .bump) { lease with state := a.newState }
  | lost (pc : AcquirePc) (hload : pc ≠ .load) (hbump : pc ≠ .bump) (hpc : pc.wins lease = false) :
      Acquires a lease pc (.goto .load) lease
  | bumped : Acquires a lease .bump (.done true) { lease with epoch := (lease.epoch + 1) % 2 ^ 64 }

theorem Attempt.step_spec (a : Attempt) (pc : AcquirePc) (lease : LeaderLease) :
    Acquires a lease pc (a.step pc lease).1 (a.step pc lease).2 := by
  cases pc with
  | load =>
    simp only [step]
    split_ifs with howner hheld
    · exact .own howner
    · exact .refused howner
    · refine .vacant howner ?_
      by_contra hnot
      obtain ⟨hzero, hle⟩ := not_or.1 hnot
      exact hheld ⟨hzero, not_le.1 hle⟩
  | renew state =>
    simp only [step]
    split_ifs with hstate
    · cases hstate
      exact .renewed
    · exact .lost _ nofun nofun (decide_eq_false hstate)
  | takeOver state =>
    simp only [step]
    split_ifs with hstate
    · cases hstate
      exact .taken
    · exact .lost _ nofun nofun (decide_eq_false hstate)
  | bump => exact .bumped

/-- **What a step of `release` can do.** -/
inductive Releases (workerId : BitVec 32) (lease : LeaderLease) :
    ReleasePc → Progress ReleasePc → LeaderLease → Prop
  | foreign (howner : (unpack lease.state).1 ≠ truncateOwner workerId) :
      Releases workerId lease .load (.done false) lease
  | own (howner : (unpack lease.state).1 = truncateOwner workerId) :
      Releases workerId lease .load (.goto (.exchange lease.state)) lease
  | released : Releases workerId lease (.exchange lease.state) (.done true)
      { lease with state := pack 0 0 }
  | lost (state : ℕ) (hstate : lease.state ≠ state) :
      Releases workerId lease (.exchange state) (.goto .load) lease

theorem releaseStep_spec (workerId : BitVec 32) (pc : ReleasePc) (lease : LeaderLease) :
    Releases workerId lease pc (releaseStep workerId pc lease).1
      (releaseStep workerId pc lease).2 := by
  cases pc with
  | load =>
    simp only [releaseStep]
    split_ifs with howner
    · exact .foreign howner
    · exact .own (not_not.1 howner)
  | exchange state =>
    simp only [releaseStep]
    split_ifs with hstate
    · cases hstate
      exact .released
    · exact .lost state hstate

/-! ## Workers on one lease -/

namespace Lease

variable {T : Type}

/-- The lease and the clock, the greatest TTL asked for, and the grants. -/
structure Memory (T : Type) where
  lease : LeaderLease
  clock : ℕ
  maxTtl : ℕ
  grant : T → Option ℕ

def Memory.new : Memory T where
  lease := ⟨0, 0⟩
  clock := 0
  maxTtl := 0
  grant := fun _ => none

inductive Local
  | idle
  | acquiring (a : Attempt) (pc : AcquirePc)
  | releasing (pc : ReleasePc)

inductive Input
  | acquire (ttlMillis : ℕ)
  | release
  | go
  | wait (millis : ℕ)

def Local.ofAcquire (a : Attempt) : Progress AcquirePc → Local
  | .goto pc => .acquiring a pc
  | .done _ => .idle

def Local.ofRelease : Progress ReleasePc → Local
  | .goto pc => .releasing pc
  | .done _ => .idle

section
variable [DecidableEq T] (id : T → BitVec 32)

/-- **One load, exchange or addition.**  A call of `try_acquire` starts with reading the clock,
    and time can pass at any point. -/
def next (t : T) (i : Input) (l : Local) (g : Memory T) : Local × Memory T :=
  match l, i with
  | l, .wait millis => (l, { g with clock := g.clock + millis })
  | .idle, .acquire ttlMillis =>
    let a : Attempt := ⟨id t, g.clock, ttlMillis⟩
    (if a.vain then .idle else .acquiring a .load, { g with maxTtl := max g.maxTtl ttlMillis })
  | .idle, .release => (.releasing .load, g)
  | .acquiring a pc, .go =>
    (.ofAcquire a (a.step pc g.lease).1,
      { g with
        lease := (a.step pc g.lease).2
        grant := if pc.wins g.lease then update g.grant t (some a.expiry) else g.grant })
  | .releasing pc, .go =>
    (.ofRelease (releaseStep (id t) pc g.lease).1,
      { g with
        lease := (releaseStep (id t) pc g.lease).2
        grant := if pc.wins g.lease then update g.grant t none else g.grant })
  | l, _ => (l, g)

/-- **The invariant**: the word is that of the grant that has not expired. -/
def Inv (g : Memory T) : Prop :=
  ∀ t expiry, g.grant t = some expiry → g.clock < expiry →
    expiry < 2 ^ 40 ∧ g.lease.state = pack (truncateOwner (id t)) expiry

/-- **What a worker knows.** -/
def Asserts (t : T) (l : Local) (g : Memory T) : Prop :=
  match l with
  | .idle | .releasing .load => True
  | .releasing (.exchange state) => (unpack state).1 = truncateOwner (id t)
  | .acquiring a pc =>
    a.workerId = id t ∧ a.nowMillis ≤ g.clock ∧ a.expiry < 2 ^ 40 ∧
      match pc with
      | .renew state => (unpack state).1 = a.ownerId
      | .takeOver state => (unpack state).1 = 0 ∨ (unpack state).2 ≤ a.now
      | .load | .bump => True

end

variable {id : T → BitVec 32} {t u : T} {g g' : Memory T} {l : Local}

theorem Asserts.mono (h : Asserts id t l g) (hclock : g.clock ≤ g'.clock) : Asserts id t l g' := by
  cases l with
  | idle => exact trivial
  | acquiring a pc => exact ⟨h.1, h.2.1.trans hclock, h.2.2⟩
  | releasing pc => cases pc <;> exact h

/-- Below 2^40 nothing saturates. -/
theorem newExpires_eq {a : Attempt} (h : a.expiry < 2 ^ 40) : a.newExpires = a.expiry := by
  have hmask : expiresMask = 2 ^ 40 - 1 := rfl
  have hmax : u64Max = 2 ^ 64 - 1 := rfl
  unfold Attempt.newExpires Attempt.now
  unfold Attempt.expiry at h ⊢
  omega

/-- A word that names a worker is no other worker's grant. -/
theorem Inv.no_other (hid : Injective fun t => truncateOwner (id t)) (h : Inv id g)
    (howner : (unpack g.lease.state).1 = truncateOwner (id t)) :
    ∀ u ≠ t, ∀ expiry, g.grant u = some expiry → g.clock < expiry → False := by
  intro u hut expiry hu hlt
  rw [(h u expiry hu hlt).2, unpack_pack_owner (truncateOwner_lt _)] at howner
  exact hut (hid howner)

/-- Neither is a word without owner or with an expiry that has passed. -/
theorem Inv.no_grant (h : Inv id g) {now : ℕ} (hnow : now ≤ g.clock)
    (hfree : (unpack g.lease.state).1 = 0 ∨ (unpack g.lease.state).2 ≤ now) :
    ∀ u expiry, g.grant u = some expiry → g.clock < expiry → False := by
  intro u expiry hu hlt
  obtain ⟨hbound, hstate⟩ := h u expiry hu hlt
  rw [hstate, unpack_pack (truncateOwner_lt _) hbound] at hfree
  rcases hfree with hzero | hle
  · exact truncateOwner_ne_zero _ hzero
  · exact absurd (hle.trans hnow) (not_le.2 hlt)

variable [DecidableEq T]

/-- A worker replaces the word while no other worker has a grant that has not expired. -/
theorem inv_replace (hno : ∀ u ≠ t, ∀ expiry, g.grant u = some expiry →
      g.clock < expiry → False) (hclock : g'.clock = g.clock) {grant : Option ℕ}
    (hgrant : g'.grant = update g.grant t grant)
    (hnew : ∀ expiry, grant = some expiry → g.clock < expiry →
      expiry < 2 ^ 40 ∧ g'.lease.state = pack (truncateOwner (id t)) expiry) : Inv id g' := by
  intro u expiry hu hlt
  rw [hclock] at hlt
  rw [hgrant] at hu
  by_cases hut : u = t
  · subst hut
    rw [update_self] at hu
    exact hnew expiry hu hlt
  · rw [update_of_ne hut] at hu
    exact (hno u hut expiry hu hlt).elim

variable (id) in
theorem next_clock_le (t : T) (i : Input) (l : Local) (g : Memory T) :
    g.clock ≤ (next id t i l g).2.clock ∧ g.maxTtl ≤ (next id t i l g).2.maxTtl := by
  unfold next
  split
  · exact ⟨Nat.le_add_right .., le_rfl⟩
  · exact ⟨le_rfl, le_max_left ..⟩
  · exact ⟨le_rfl, le_rfl⟩
  · exact ⟨le_rfl, le_rfl⟩
  · exact ⟨le_rfl, le_rfl⟩
  · exact ⟨le_rfl, le_rfl⟩

variable (hid : Injective fun t => truncateOwner (id t))
include hid

/-- **A step of `try_acquire`.** -/
theorem acquire_step {a : Attempt} {pc : AcquirePc} (h : Inv id g)
    (ht : Asserts id t (.acquiring a pc) g) :
    Inv id (next id t .go (.acquiring a pc) g).2 ∧
      Asserts id t (next id t .go (.acquiring a pc) g).1 (next id t .go (.acquiring a pc) g).2 := by
  obtain ⟨hworker, hnow, hexpiry, hpc⟩ := ht
  have hown : a.ownerId = truncateOwner (id t) := by rw [Attempt.ownerId, hworker]
  have hnew : ∀ expiry, some a.expiry = some expiry → g.clock < expiry →
      expiry < 2 ^ 40 ∧ a.newState = pack (truncateOwner (id t)) expiry := by
    rintro expiry heq -
    cases heq
    exact ⟨hexpiry, by rw [Attempt.newState, hown, newExpires_eq hexpiry]⟩
  have hspec := a.step_spec pc g.lease
  simp only [next]
  generalize a.step pc g.lease = r at hspec
  obtain ⟨progress, lease⟩ := r
  cases hspec with
  | own howner => exact ⟨h, hworker, hnow, hexpiry, howner⟩
  | refused => exact ⟨h, trivial⟩
  | vacant howner hfree => exact ⟨h, hworker, hnow, hexpiry, hfree⟩
  | renewed =>
    have hnone := h.no_other hid (hpc.trans hown)
    exact ⟨inv_replace hnone rfl (if_pos (decide_eq_true rfl)) hnew, trivial⟩
  | taken =>
    have hnone := h.no_grant ((min_le_left _ _).trans hnow) hpc
    exact ⟨inv_replace (fun u _ => hnone u) rfl (if_pos (decide_eq_true rfl)) hnew, hworker, hnow,
      hexpiry, trivial⟩
  | lost _ _ _ hlost =>
    rw [hlost]
    exact ⟨h, hworker, hnow, hexpiry, trivial⟩
  | bumped => exact ⟨h, trivial⟩

/-- **A step of `release`.** -/
theorem release_step {pc : ReleasePc} (h : Inv id g) (ht : Asserts id t (.releasing pc) g) :
    Inv id (next id t .go (.releasing pc) g).2 ∧
      Asserts id t (next id t .go (.releasing pc) g).1 (next id t .go (.releasing pc) g).2 := by
  have hspec := releaseStep_spec (id t) pc g.lease
  simp only [next]
  generalize releaseStep (id t) pc g.lease = r at hspec
  obtain ⟨progress, lease⟩ := r
  cases hspec with
  | foreign => exact ⟨h, trivial⟩
  | own howner => exact ⟨h, howner⟩
  | released =>
    exact ⟨inv_replace (h.no_other hid ht) rfl (if_pos (decide_eq_true rfl)) nofun, trivial⟩
  | lost state hstate =>
    rw [show ReleasePc.wins (.exchange state) g.lease = false from decide_eq_false hstate]
    exact ⟨h, trivial⟩

/-- **A step keeps the invariant and leaves the worker with its assertion.** -/
theorem next_keeps (i : Input) (h : Inv id g) (ht : Asserts id t l g)
    (hbound : (next id t i l g).2.clock + (next id t i l g).2.maxTtl < 2 ^ 40) :
    Inv id (next id t i l g).2 ∧ Asserts id t (next id t i l g).1 (next id t i l g).2 := by
  cases i with
  | wait millis =>
    have hnext : next id t (.wait millis) l g = (l, { g with clock := g.clock + millis }) := by
      cases l <;> rfl
    rw [hnext]
    have hle : g.clock ≤ g.clock + millis := Nat.le_add_right ..
    exact ⟨fun u expiry hu hlt => h u expiry hu (hle.trans_lt hlt), ht.mono hle⟩
  | acquire ttlMillis =>
    cases l with
    | idle =>
      refine ⟨h, ?_⟩
      have httl : ttlMillis ≤ max g.maxTtl ttlMillis := le_max_right ..
      have hexpiry : g.clock + ttlMillis < 2 ^ 40 := by
        have hb : g.clock + max g.maxTtl ttlMillis < 2 ^ 40 := hbound
        omega
      simp only [next]
      split_ifs
      · exact trivial
      · exact ⟨rfl, le_rfl, hexpiry, trivial⟩
    | acquiring | releasing => exact ⟨h, ht⟩
  | release =>
    cases l with
    | idle => exact ⟨h, trivial⟩
    | acquiring | releasing => exact ⟨h, ht⟩
  | go =>
    cases l with
    | idle => exact ⟨h, ht⟩
    | acquiring a pc => exact acquire_step hid h ht
    | releasing pc => exact release_step hid h ht

theorem holds_step (c : Config T Local (Memory T)) (e : T × Input)
    (h : Holds (Inv id) (Asserts id) c)
    (hbound : (step (next id) c e).shared.clock + (step (next id) c e).shared.maxTtl < 2 ^ 40) :
    Holds (Inv id) (Asserts id) (step (next id) c e) := by
  obtain ⟨hinv, hown⟩ := next_keeps hid e.2 h.shared (h.thread e.1) hbound
  exact h.step rfl hinv hown fun u _ hu => hu.mono (next_clock_le id ..).1

/-- **At most one worker holds the lease.**  The truncated ids are distinct, and all times plus
    TTLs are below 2^40.  In any interleaving, at most one worker has a latest grant that
    expires after the time on the clock and that it has not released. -/
theorem lease_exclusive (schedule : List (T × Input))
    (hbound : (run (next id) ⟨fun _ => .idle, .new⟩ schedule).shared.clock +
      (run (next id) ⟨fun _ => .idle, .new⟩ schedule).shared.maxTtl < 2 ^ 40) :
    let g := (run (next id) ⟨fun _ => .idle, .new⟩ schedule).shared
    ∀ t u expiry expiry', g.grant t = some expiry → g.clock < expiry →
      g.grant u = some expiry' → g.clock < expiry' → t = u := by
  intro g t u expiry expiry' ht hlt hu hlt'
  have hback : ∀ (c : Config T Local (Memory T)) (e : T × Input),
      (step (next id) c e).shared.clock + (step (next id) c e).shared.maxTtl < 2 ^ 40 →
      c.shared.clock + c.shared.maxTtl < 2 ^ 40 := by
    intro c e hb
    obtain ⟨hclock, httl⟩ := next_clock_le id e.1 e.2 (c.locals e.1) c.shared
    exact (Nat.add_le_add hclock httl).trans_lt hb
  have halong := (along_of_final
    (B := fun c => Memory.clock c.shared + Memory.maxTtl c.shared < 2 ^ 40) hback hbound).2
  have hstart : Holds (Inv id) (Asserts id) ⟨fun _ => .idle, .new⟩ := ⟨nofun, fun _ => trivial⟩
  have h : Inv id g := (halong.run (holds_step hid) hstart).shared
  -- the word names both
  refine hid ?_
  have hword := (h t expiry ht hlt).2.symm.trans (h u expiry' hu hlt').2
  have howner := congrArg (fun state => (unpack state).1) hword
  simpa only [unpack_pack_owner (truncateOwner_lt _)] using howner

omit hid in
/-- Two workers find the lease free and one of them stalls before its exchange; later the other
    lets its grant expire, and the first takes over. -/
theorem lease_exclusive_stall :
    let id : Bool → BitVec 32 := fun b => if b then 1 else 2
    let schedule : List (Bool × Input) :=
      [(false, .acquire 10), (false, .go), (true, .acquire 10), (true, .go), (true, .go),
        (true, .go), (false, .go), (false, .go), (true, .wait 10), (false, .acquire 5), (false, .go),
        (false, .go), (false, .go)]
    let g := (run (next id) ⟨fun _ => .idle, .new⟩ schedule).shared
    g.grant true = some 10 ∧ g.grant false = some 15 ∧ g.clock = 10 ∧
      ∀ u expiry, g.grant u = some expiry → g.clock < expiry → u = false := by
  intro id schedule g
  have htrue : g.grant true = some 10 := by decide +kernel
  have hfalse : g.grant false = some 15 := by decide +kernel
  have hclock : g.clock = 10 := by decide +kernel
  have hid : Injective fun t => truncateOwner (id t) := by
    intro t u
    revert t u
    decide +kernel
  have hexclusive := lease_exclusive hid schedule (by decide +kernel)
  refine ⟨htrue, hfalse, hclock, fun u expiry hu hlt => ?_⟩
  exact hexclusive u false expiry 15 hu hlt hfalse (by rw [hclock]; decide)

end Lease

end Nginx

end Gabion
