/-
  The workers that compete for leading gossip (`nginx/src/leader.rs`), one access to the shared
  zone at a time.

  A worker campaigns for the lease.  Elected, it stamps a new incarnation into the header,
  binds its socket, empties the count table and builds a `ShmAggregateStore`, which remembers
  the lease epoch it loads; then it drains the queue and renews the lease before every pass.
  At the end of its term it releases the lease.  Owner, epoch and incarnation are separate
  words, and a worker can stall between any two steps.

  The history numbers the terms and keeps the incarnations they stamped and those under which
  they ingested hits.  `renewed` says that a worker's renewal in `drain_loop` has returned
  `true` and no other worker has taken the lease since.
-/
import Gabion.Dictionary
import Gabion.Nginx.Lease

namespace Gabion

namespace Nginx

namespace Leader

open Function Threads

variable {T : Type}

def leaseTtlMillis : ℕ := 1000

/-- `fresh_incarnation`, on the seconds of the wall clock; `none` is a clock before 1970. -/
def freshIncarnation (seconds : Option ℕ) : ℕ := max (seconds.elim 1 fun s => min s u32Max) 1

/-- The incarnation a term takes after loading the last one. -/
def newIncarnation (seconds : Option ℕ) (loaded : ℕ) : ℕ :=
  max (freshIncarnation seconds) (min (loaded + 1) u32Max)

/-- A leader term that has stamped its incarnation. -/
structure Term where
  number : ℕ
  incarnation : ℕ
deriving DecidableEq, Repr

/-- The zone and its history. -/
structure Zone (T : Type) where
  lease : LeaderLease
  clock : ℕ
  incarnation : ℕ
  terms : ℕ
  renewed : T → Bool
  stamped : List Term
  ingested : List Term

def Zone.new (incarnation : ℕ) : Zone T where
  lease := ⟨0, 0⟩
  clock := 0
  incarnation := incarnation
  terms := 0
  renewed := fun _ => false
  stamped := []
  ingested := []

/-- Where a worker is.  From `leading` on it has a store, with its epoch. -/
inductive Local
  | waiting
  | campaigning (a : Attempt) (pc : AcquirePc)
  | elected (number : ℕ)
  | stamping (number loaded incarnation : ℕ)
  | binding (term : Term)
  | building (term : Term)
  | leading (term : Term) (epoch : ℕ)
  | renewing (term : Term) (epoch : ℕ) (a : Attempt) (pc : AcquirePc)
  | draining (term : Term) (epoch : ℕ)
  | releasing (pc : ReleasePc)

namespace Local

/-- The epoch of the worker's `ShmAggregateStore`. -/
def store : Local → Option ℕ
  | .leading _ epoch | .renewing _ epoch _ _ | .draining _ epoch => some epoch
  | .waiting | .campaigning .. | .elected _ | .stamping .. | .binding _ | .building _
  | .releasing _ => none

/-- Elected, without a store yet. -/
def PreLoad : Local → Prop
  | .elected _ | .stamping .. | .binding _ | .building _ => True
  | _ => False

/-- From the exchange that wins the election to the release. -/
def InTerm : Local → Prop
  | .waiting => False
  | .campaigning _ pc => pc = .bump
  | _ => True

end Local

/-- `hit` is a queue event that is recorded, `stop` ends the term: told to stop, failed or
    panicked. -/
inductive Input
  | go
  | load (seconds : Option ℕ)
  | hit
  | stop
  | wait (millis : ℕ)

/-- The exchange of a takeover that succeeds. -/
def takes (pc : AcquirePc) (lease : LeaderLease) : Bool :=
  match pc with
  | .takeOver state => lease.state = state
  | .load | .renew _ | .bump => false

namespace Zone

variable [DecidableEq T]

/-- A step of `try_acquire` by the worker `t`; with a takeover the renewals of all others are
    over. -/
def setLease (g : Zone T) (t : T) (pc : AcquirePc) (lease : LeaderLease) : Zone T :=
  { g with
    lease
    renewed := fun u => if takes pc g.lease && u ≠ t then false else g.renewed u }

def setRenewed (g : Zone T) (t : T) (b : Bool) : Zone T := { g with renewed := update g.renewed t b }

end Zone

section
variable [DecidableEq T] (id : T → BitVec 32)

/-- **One access to the zone.** -/
def next (t : T) (i : Input) (l : Local) (g : Zone T) : Local × Zone T :=
  match l, i with
  | l, .wait millis => (l, { g with clock := g.clock + millis })
  -- campaign
  | .waiting, .go =>
    let a : Attempt := ⟨id t, g.clock, leaseTtlMillis⟩
    (if a.vain then .waiting else .campaigning a .load, g)
  | .campaigning a pc, .go =>
    match a.step pc g.lease with
    | (.goto pc', lease) => (.campaigning a pc', g.setLease t pc lease)
    | (.done true, lease) =>
      (.elected g.terms, { g.setLease t pc lease with terms := g.terms + 1 })
    | (.done false, lease) => (.waiting, g.setLease t pc lease)
  -- leader_main
  | .elected number, .load seconds =>
    (.stamping number g.incarnation (newIncarnation seconds g.incarnation), g)
  | .stamping number _ incarnation, .go =>
    (.binding ⟨number, incarnation⟩,
      { g with incarnation, stamped := ⟨number, incarnation⟩ :: g.stamped })
  | .binding term, .go => (.building term, g)
  | .building term, .go => (.leading term g.lease.epoch, g)
  -- drain_loop
  | .leading term epoch, .go => (.renewing term epoch ⟨id t, g.clock, leaseTtlMillis⟩ .load, g)
  | .renewing term epoch a pc, .go =>
    match a.step pc g.lease with
    | (.goto pc', lease) => (.renewing term epoch a pc', g.setLease t pc lease)
    | (.done true, lease) =>
      (.draining term epoch, (g.setLease t pc lease).setRenewed t true)
    | (.done false, lease) => (.releasing .load, (g.setLease t pc lease).setRenewed t false)
  | .draining term epoch, .hit => (.draining term epoch, { g with ingested := term :: g.ingested })
  | .draining term epoch, .go => (.leading term epoch, g)
  -- the end of a term
  | .elected _, .stop | .stamping .., .stop | .binding _, .stop | .building _, .stop
  | .leading .., .stop | .draining .., .stop => (.releasing .load, g.setRenewed t false)
  | .releasing pc, .go =>
    match releaseStep (id t) pc g.lease with
    | (.goto pc', lease) => (.releasing pc', { g with lease })
    | (.done _, lease) => (.waiting, { g with lease })
  | l, _ => (l, g)

/-- **What a step can do.** -/
inductive Move (t : T) (g : Zone T) : Input → Local → Local → Zone T → Prop
  | stay (i : Input) (l : Local) : Move t g i l l g
  | tick (l : Local) (millis : ℕ) : Move t g (.wait millis) l l { g with clock := g.clock + millis }
  | start (a : Attempt) (ha : a.workerId = id t) : Move t g .go .waiting (.campaigning a .load) g
  | campaign (a : Attempt) (pc pc' : AcquirePc) (lease : LeaderLease)
      (h : Acquires a g.lease pc (.goto pc') lease) :
      Move t g .go (.campaigning a pc) (.campaigning a pc') (g.setLease t pc lease)
  | elect (a : Attempt) (pc : AcquirePc) (lease : LeaderLease)
      (h : Acquires a g.lease pc (.done true) lease) :
      Move t g .go (.campaigning a pc) (.elected g.terms)
        { g.setLease t pc lease with terms := g.terms + 1 }
  | yield (a : Attempt) (pc : AcquirePc) (lease : LeaderLease)
      (h : Acquires a g.lease pc (.done false) lease) :
      Move t g .go (.campaigning a pc) .waiting (g.setLease t pc lease)
  | load (number : ℕ) (seconds : Option ℕ) : Move t g (.load seconds) (.elected number)
      (.stamping number g.incarnation (newIncarnation seconds g.incarnation)) g
  | stamp (number loaded incarnation : ℕ) : Move t g .go (.stamping number loaded incarnation)
      (.binding ⟨number, incarnation⟩)
      { g with incarnation, stamped := ⟨number, incarnation⟩ :: g.stamped }
  | bind (term : Term) : Move t g .go (.binding term) (.building term) g
  | build (term : Term) : Move t g .go (.building term) (.leading term g.lease.epoch) g
  | renew (term : Term) (epoch : ℕ) (a : Attempt) (ha : a.workerId = id t) :
      Move t g .go (.leading term epoch) (.renewing term epoch a .load) g
  | renewal (term : Term) (epoch : ℕ) (a : Attempt) (pc pc' : AcquirePc) (lease : LeaderLease)
      (h : Acquires a g.lease pc (.goto pc') lease) :
      Move t g .go (.renewing term epoch a pc) (.renewing term epoch a pc') (g.setLease t pc lease)
  | renewed (term : Term) (epoch : ℕ) (a : Attempt) (pc : AcquirePc) (lease : LeaderLease)
      (h : Acquires a g.lease pc (.done true) lease) :
      Move t g .go (.renewing term epoch a pc) (.draining term epoch)
        ((g.setLease t pc lease).setRenewed t true)
  | lost (term : Term) (epoch : ℕ) (a : Attempt) (pc : AcquirePc) (lease : LeaderLease)
      (h : Acquires a g.lease pc (.done false) lease) :
      Move t g .go (.renewing term epoch a pc) (.releasing .load)
        ((g.setLease t pc lease).setRenewed t false)
  | hit (term : Term) (epoch : ℕ) : Move t g .hit (.draining term epoch) (.draining term epoch)
      { g with ingested := term :: g.ingested }
  | rest (term : Term) (epoch : ℕ) : Move t g .go (.draining term epoch) (.leading term epoch) g
  | stop (l : Local) (hl : l.InTerm) : Move t g .stop l (.releasing .load) (g.setRenewed t false)
  | release (pc pc' : ReleasePc) (lease : LeaderLease)
      (h : Releases (id t) g.lease pc (.goto pc') lease) :
      Move t g .go (.releasing pc) (.releasing pc') { g with lease }
  | released (pc : ReleasePc) (b : Bool) (lease : LeaderLease)
      (h : Releases (id t) g.lease pc (.done b) lease) :
      Move t g .go (.releasing pc) .waiting { g with lease }

theorem next_move (t : T) (i : Input) (l : Local) (g : Zone T) :
    Move id t g i l (next id t i l g).1 (next id t i l g).2 := by
  unfold next
  split
  · exact .tick _ _
  · dsimp only
    split_ifs
    · exact .stay _ _
    · exact .start _ rfl
  · rename_i a pc
    have hspec := a.step_spec pc g.lease
    generalize a.step pc g.lease = r at hspec
    split
    · exact .campaign _ _ _ _ hspec
    · exact .elect _ _ _ hspec
    · exact .yield _ _ _ hspec
  · exact .load ..
  · exact .stamp ..
  · exact .bind _
  · exact .build _
  · exact .renew _ _ _ rfl
  · rename_i a pc
    have hspec := a.step_spec pc g.lease
    generalize a.step pc g.lease = r at hspec
    split
    · exact .renewal _ _ _ _ _ _ hspec
    · exact .renewed _ _ _ _ _ hspec
    · exact .lost _ _ _ _ _ hspec
  · exact .hit ..
  · exact .rest ..
  · exact .stop _ trivial
  · exact .stop _ trivial
  · exact .stop _ trivial
  · exact .stop _ trivial
  · exact .stop _ trivial
  · exact .stop _ trivial
  · rename_i pc
    have hspec := releaseStep_spec (id t) pc g.lease
    generalize releaseStep (id t) pc g.lease = r at hspec
    split
    · exact .release _ _ _ hspec
    · exact .released _ _ _ hspec
  · exact .stay _ _

end

/-! ## Who the lease names -/

/-- The lease names the worker. -/
def Named (id : T → BitVec 32) (lease : LeaderLease) (t : T) : Prop :=
  (unpack lease.state).1 = truncateOwner (id t)

instance (id : T → BitVec 32) (lease : LeaderLease) (t : T) : Decidable (Named id lease t) :=
  inferInstanceAs (Decidable (_ = _))

/-- What a caller of `try_acquire` knows of the word it has loaded. -/
def KnowsWord (id : T → BitVec 32) (t : T) (a : Attempt) (pc : AcquirePc) : Prop :=
  a.workerId = id t ∧
    match pc with
    | .renew state => (unpack state).1 = truncateOwner (id t)
    | .takeOver state => (unpack state).1 ≠ truncateOwner (id t)
    | .load | .bump => True

def Knows (id : T → BitVec 32) (t : T) : Local → Prop
  | .campaigning a pc | .renewing _ _ a pc => KnowsWord id t a pc
  | .releasing (.exchange state) => (unpack state).1 = truncateOwner (id t)
  | _ => True

/-- **What `try_acquire` does to the lease**: nothing, or the word names the caller, or the epoch
    moves on. -/
inductive Effect (id : T → BitVec 32) (t : T) (lease : LeaderLease) :
    AcquirePc → Progress AcquirePc → LeaderLease → Prop
  | none (pc : AcquirePc) (progress : Progress AcquirePc) (hgoto : progress ≠ .goto .bump)
      (hdone : progress ≠ .done true) : Effect id t lease pc progress lease
  | renew (state : ℕ) (hnamed : Named id lease t) (hnext : Named id { lease with state } t) :
      Effect id t lease (.renew lease.state) (.done true) { lease with state }
  | take (state : ℕ) (hnamed : ¬Named id lease t) (hnext : Named id { lease with state } t) :
      Effect id t lease (.takeOver lease.state) (.goto .bump) { lease with state }
  | bump : Effect id t lease .bump (.done true) { lease with epoch := (lease.epoch + 1) % 2 ^ 64 }

section
variable {id : T → BitVec 32} {lease lease' : LeaderLease} {t u : T} {a : Attempt}
  {pc : AcquirePc} {progress : Progress AcquirePc}

theorem named_newState (ha : a.workerId = id t) : Named id { lease with state := a.newState } t := by
  show (unpack (pack (truncateOwner a.workerId) a.newExpires)).1 = truncateOwner (id t)
  rw [unpack_pack_owner (truncateOwner_lt _), ha]

theorem not_named_released : ¬Named id { lease with state := pack 0 0 } t := by
  show (unpack (pack 0 0)).1 ≠ truncateOwner (id t)
  rw [unpack_pack_owner (by decide)]
  exact (truncateOwner_ne_zero _).symm

theorem Named.eq (hid : Injective fun t => truncateOwner (id t)) (ht : Named id lease t)
    (hu : Named id lease u) : t = u := hid (ht.symm.trans hu)

theorem KnowsWord.effect (hk : KnowsWord id t a pc) (h : Acquires a lease pc progress lease') :
    Effect id t lease pc progress lease' ∧
      ∀ pc', progress = .goto pc' → KnowsWord id t a pc' := by
  obtain ⟨ha, hword⟩ := hk
  have hown : a.ownerId = truncateOwner (id t) := by rw [Attempt.ownerId, ha]
  cases h with
  | own howner =>
    refine ⟨.none _ _ (by rintro ⟨⟩) (by rintro ⟨⟩), ?_⟩
    rintro pc' ⟨⟩
    exact ⟨ha, howner.trans hown⟩
  | refused =>
    refine ⟨.none _ _ (by rintro ⟨⟩) (by rintro ⟨⟩), ?_⟩
    rintro pc' ⟨⟩
  | vacant howner =>
    refine ⟨.none _ _ (by rintro ⟨⟩) (by rintro ⟨⟩), ?_⟩
    rintro pc' ⟨⟩
    exact ⟨ha, hown ▸ howner⟩
  | renewed =>
    refine ⟨.renew _ hword (named_newState ha), ?_⟩
    rintro pc' ⟨⟩
  | taken =>
    refine ⟨.take _ hword (named_newState ha), ?_⟩
    rintro pc' ⟨⟩
    exact ⟨ha, trivial⟩
  | lost =>
    refine ⟨.none _ _ (by rintro ⟨⟩) (by rintro ⟨⟩), ?_⟩
    rintro pc' ⟨⟩
    exact ⟨ha, trivial⟩
  | bumped =>
    refine ⟨.bump, ?_⟩
    rintro pc' ⟨⟩

end

/-! ## One writer -/

/-- **At most one store has the epoch of the lease.**  A worker outside a term is not named by the
    lease, and while a store has the epoch, neither is another worker that is about to load it. -/
structure OneWriter (id : T → BitVec 32) (locals : T → Local) (lease : LeaderLease) : Prop where
  knows : ∀ t, Knows id t (locals t)
  le : ∀ t e, (locals t).store = some e → e ≤ lease.epoch
  outside : ∀ t, ¬(locals t).InTerm → ¬Named id lease t
  preload : ∀ t u, t ≠ u → (locals t).store = some lease.epoch → (locals u).PreLoad →
    ¬Named id lease u
  unique : ∀ t u, (locals t).store = some lease.epoch → (locals u).store = some lease.epoch → t = u

section
variable [DecidableEq T] {id : T → BitVec 32} {locals : T → Local} {lease lease' : LeaderLease}
  {x : T} {l : Local}

/-- A store that a worker still has after its step. -/
theorem store_of_update (hstore : l.store = none ∨ l.store = (locals x).store) {t : T} {e : ℕ}
    (h : (update locals x l t).store = some e) : (locals t).store = some e := by
  by_cases ht : t = x
  · subst ht
    rw [update_self] at h
    rcases hstore with hs | hs
    · rw [hs] at h
      cases h
    · rw [← hs, h]
  · rwa [update_of_ne ht] at h

theorem knows_update (h : ∀ t, Knows id t (locals t)) (hx : Knows id x l) :
    ∀ t, Knows id t (update locals x l t) :=
  (forall_update_iff locals fun t l => Knows id t l).2 ⟨hx, fun t _ => h t⟩

theorem outside_update (h : ∀ t, ¬(locals t).InTerm → ¬Named id lease t)
    (hothers : ∀ u, u ≠ x → Named id lease' u → Named id lease u)
    (hself : Named id lease' x → l.InTerm) :
    ∀ t, ¬(update locals x l t).InTerm → ¬Named id lease' t :=
  (forall_update_iff locals fun t l => ¬l.InTerm → ¬Named id lease' t).2
    ⟨fun hl hn => hl (hself hn), fun t htx ht hn => h t ht (hothers t htx hn)⟩

/-- A step that leaves the epoch, and names nobody new but perhaps the worker itself, who has its
    store or none. -/
theorem OneWriter.word (h : OneWriter id locals lease) (hknows : Knows id x l)
    (hepoch : lease'.epoch = lease.epoch) (hstore : l.store = none ∨ l.store = (locals x).store)
    (hothers : ∀ u, u ≠ x → Named id lease' u → Named id lease u)
    (hself : Named id lease' x → l.InTerm ∧ (l.PreLoad → (locals x).PreLoad ∧ Named id lease x)) :
    OneWriter id (update locals x l) lease' := by
  refine ⟨knows_update h.knows hknows, fun t e ht => ?_,
    outside_update h.outside hothers fun hn => (hself hn).1, fun t u htu ht hu hn => ?_,
    fun t u ht hu => ?_⟩
  · rw [hepoch]
    exact h.le t e (store_of_update hstore ht)
  · rw [hepoch] at ht
    have ht' := store_of_update hstore ht
    by_cases hux : u = x
    · subst hux
      rw [update_self] at hu
      obtain ⟨hpre, hn'⟩ := (hself hn).2 hu
      exact h.preload t u htu ht' hpre hn'
    · rw [update_of_ne hux] at hu
      exact h.preload t u htu ht' hu (hothers u hux hn)
  · rw [hepoch] at ht hu
    exact h.unique t u (store_of_update hstore ht) (store_of_update hstore hu)

/-- The epoch moves on: no store has it. -/
theorem OneWriter.bump (h : OneWriter id locals lease) (hknows : Knows id x l)
    (hstore : l.store = none ∨ l.store = (locals x).store) (hterm : l.InTerm)
    (hfits : lease.epoch + 1 < 2 ^ 64) :
    OneWriter id (update locals x l) { lease with epoch := (lease.epoch + 1) % 2 ^ 64 } := by
  rw [Nat.mod_eq_of_lt hfits]
  have hlt : ∀ t, (update locals x l t).store ≠ some (lease.epoch + 1) := by
    intro t ht
    have := h.le t _ (store_of_update hstore ht)
    omega
  refine ⟨knows_update h.knows hknows, fun t e ht => ?_,
    outside_update h.outside (fun _ _ hn => hn) fun _ => hterm,
    fun t u _ ht => absurd ht (hlt t), fun t u ht => absurd ht (hlt t)⟩
  exact (h.le t e (store_of_update hstore ht)).trans (Nat.le_succ _)

/-- A worker that the lease names builds its store. -/
theorem OneWriter.build (hid : Injective fun t => truncateOwner (id t))
    (h : OneWriter id locals lease) (hknows : Knows id x l) (hpre : (locals x).PreLoad)
    (hnamed : Named id lease x) (hstore : l.store = some lease.epoch) (hterm : l.InTerm)
    (hl : ¬l.PreLoad) : OneWriter id (update locals x l) lease := by
  have hothers : ∀ t, t ≠ x → (locals t).store ≠ some lease.epoch := fun t htx ht =>
    h.preload t x htx ht hpre hnamed
  refine ⟨knows_update h.knows hknows, ?_, outside_update h.outside (fun _ _ hn => hn) fun _ => hterm,
    fun t u htu ht hu hn => ?_, fun t u ht hu => ?_⟩
  · refine (forall_update_iff locals fun _ l => ∀ e, l.store = some e → e ≤ lease.epoch).2
      ⟨fun e he => ?_, fun t _ => h.le t⟩
    rw [hstore, Option.some.injEq] at he
    exact he.ge
  · obtain rfl := hnamed.eq hid hn
    rw [update_self] at hu
    exact hl hu
  · have heq : ∀ t, (update locals x l t).store = some lease.epoch → t = x := by
      intro t ht
      by_contra htx
      rw [update_of_ne htx] at ht
      exact hothers t htx ht
    rw [heq t ht, heq u hu]

end

/-- A store loads the epoch while the lease names its worker, and the epoch does not wrap
    around. -/
def loadsNamed (id : T → BitVec 32) (t : T) (i : Input) (l : Local) (lease : LeaderLease) : Bool :=
  match l, i with
  | .building _, .go => Named id lease t
  | .campaigning _ .bump, .go | .renewing _ _ _ .bump, .go => lease.epoch + 1 < 2 ^ 64
  | _, _ => true

section
variable {id : T → BitVec 32} {lease : LeaderLease} {t : T} {a : Attempt} {pc : AcquirePc}

theorem epoch_fits_of_campaigning (h : loadsNamed id t .go (.campaigning a pc) lease)
    (hpc : pc = .bump) : lease.epoch + 1 < 2 ^ 64 := by
  subst hpc
  exact of_decide_eq_true h

theorem epoch_fits_of_renewing {term : Term} {epoch : ℕ}
    (h : loadsNamed id t .go (.renewing term epoch a pc) lease) (hpc : pc = .bump) :
    lease.epoch + 1 < 2 ^ 64 := by
  subst hpc
  exact of_decide_eq_true h

end

section
variable [DecidableEq T] {id : T → BitVec 32} (hid : Injective fun t => truncateOwner (id t))
include hid

/-- A step of `try_acquire` by a worker that campaigns or renews. -/
theorem OneWriter.acquire {locals : T → Local} {lease lease' : LeaderLease} {x : T} {l : Local}
    {a : Attempt} {pc : AcquirePc} {progress : Progress AcquirePc}
    (h : OneWriter id locals lease) (hword : KnowsWord id x a pc)
    (hacquires : Acquires a lease pc progress lease') (hknows : Knows id x l)
    (hstore : l.store = none ∨ l.store = (locals x).store)
    (hpre : progress ≠ .done true → ¬l.PreLoad)
    (hrenew : ∀ state, pc = .renew state → ¬l.PreLoad ∨ ¬Named id lease x)
    (hterm : (locals x).InTerm ∨ progress = .goto .bump ∨ progress = .done true → l.InTerm)
    (hfits : pc = .bump → lease.epoch + 1 < 2 ^ 64) :
    OneWriter id (update locals x l) lease' := by
  have hothers : ∀ {state}, Named id { lease with state } x →
      ∀ u, u ≠ x → Named id { lease with state } u → Named id lease u := fun hx u hu hn =>
    absurd (hn.eq hid hx) hu
  obtain ⟨heffect, -⟩ := hword.effect hacquires
  cases heffect with
  | none _ _ hgoto hdone =>
    refine h.word hknows rfl hstore (fun _ _ hn => hn) fun hn => ⟨?_, fun hl => ?_⟩
    · refine hterm (.inl ?_)
      by_contra hout
      exact h.outside x hout hn
    · exact absurd hl (hpre hdone)
  | renew state hnamed hnext =>
    refine h.word hknows rfl hstore (hothers hnext) fun _ => ⟨hterm (.inr (.inr rfl)), fun hl => ?_⟩
    rcases hrenew _ rfl with hnot | hnot
    · exact absurd hl hnot
    · exact absurd hnamed hnot
  | take state hnamed hnext =>
    exact h.word hknows rfl hstore (hothers hnext) fun _ =>
      ⟨hterm (.inr (.inl rfl)), fun hl => absurd hl (hpre nofun)⟩
  | bump => exact h.bump hknows hstore (hterm (.inr (.inr rfl))) (hfits rfl)

/-- **A step keeps the writer single**, if a worker that loads the epoch is named by the lease. -/
theorem Move.oneWriter {locals : T → Local} {g g' : Zone T} {x : T} {i : Input} {l l' : Local}
    (hmove : Move id x g i l l' g') (hl : locals x = l) (h : OneWriter id locals g.lease)
    (hok : loadsNamed id x i l g.lease) : OneWriter id (update locals x l') g'.lease := by
  have hknows := h.knows x
  have hout := h.outside x
  rw [hl] at hknows hout
  -- a step on the worker's own state only
  have hlocal : ∀ {l' : Local}, Knows id x l' → l'.store = none ∨ l'.store = l.store →
      (l'.PreLoad → l.PreLoad) → (l.InTerm → l'.InTerm) →
      OneWriter id (update locals x l') g.lease := by
    intro l' hk hs hp ht
    refine h.word hk rfl (hl ▸ hs) (fun _ _ hn => hn) fun hn => ⟨ht ?_, fun hpre => ⟨hl ▸ hp hpre, hn⟩⟩
    by_contra hnot
    exact hout hnot hn
  cases hmove with
  | stay => exact hlocal hknows (.inr rfl) (fun hp => hp) fun ht => ht
  | tick => exact hlocal hknows (.inr rfl) (fun hp => hp) fun ht => ht
  | start a ha => exact hlocal ⟨ha, trivial⟩ (.inl rfl) nofun nofun
  | load number seconds => exact hlocal trivial (.inl rfl) (fun _ => trivial) fun _ => trivial
  | stamp number loaded incarnation =>
    exact hlocal trivial (.inl rfl) (fun _ => trivial) fun _ => trivial
  | bind term => exact hlocal trivial (.inl rfl) (fun _ => trivial) fun _ => trivial
  | build term =>
    exact h.build hid trivial (hl ▸ trivial) (of_decide_eq_true hok) rfl trivial nofun
  | renew term epoch a ha => exact hlocal ⟨ha, trivial⟩ (.inr rfl) nofun fun _ => trivial
  | hit term epoch => exact hlocal trivial (.inr rfl) nofun fun _ => trivial
  | rest term epoch => exact hlocal trivial (.inr rfl) nofun fun _ => trivial
  | stop => exact hlocal trivial (.inl rfl) nofun fun _ => trivial
  | campaign a pc pc' lease hacquires =>
    have hnext := (hknows.effect hacquires).2 pc' rfl
    refine h.acquire hid hknows hacquires hnext (.inl rfl) (fun _ => nofun)
      (fun _ _ => .inl nofun) ?_ (epoch_fits_of_campaigning hok)
    rintro (hin | hgoto | hdone)
    · rw [hl] at hin
      cases hin
      cases hacquires with
      | lost _ _ hbump => exact absurd rfl hbump
    · cases hgoto
      rfl
    · cases hdone
  | elect a pc lease hacquires =>
    refine h.acquire hid hknows hacquires trivial (.inl rfl) (fun hne => absurd rfl hne)
      (fun state hpc => .inr (hout ?_)) (fun _ => trivial) (epoch_fits_of_campaigning hok)
    subst hpc
    exact nofun
  | yield a pc lease hacquires =>
    refine h.acquire hid hknows hacquires trivial (.inl rfl) (fun _ => nofun)
      (fun _ _ => .inl nofun) ?_ (epoch_fits_of_campaigning hok)
    rintro (hin | hgoto | hdone)
    · rw [hl] at hin
      cases hin
      cases hacquires
    · cases hgoto
    · cases hdone
  | renewal term epoch a pc pc' lease hacquires =>
    have hnext := (hknows.effect hacquires).2 pc' rfl
    exact h.acquire hid hknows hacquires hnext (.inr (by rw [hl]; rfl)) (fun _ => nofun)
      (fun _ _ => .inl nofun) (fun _ => trivial) (epoch_fits_of_renewing hok)
  | renewed term epoch a pc lease hacquires =>
    exact h.acquire hid hknows hacquires trivial (.inr (by rw [hl]; rfl)) (fun _ => nofun)
      (fun _ _ => .inl nofun) (fun _ => trivial) (epoch_fits_of_renewing hok)
  | lost term epoch a pc lease hacquires =>
    exact h.acquire hid hknows hacquires trivial (.inl rfl) (fun _ => nofun)
      (fun _ _ => .inl nofun) (fun _ => trivial) (epoch_fits_of_renewing hok)
  | release pc pc' lease hreleases =>
    cases hreleases with
    | own howner => exact hlocal howner (.inl rfl) nofun fun _ => trivial
    | lost => exact hlocal trivial (.inl rfl) nofun fun _ => trivial
  | released pc b lease hreleases =>
    cases hreleases with
    | foreign howner =>
      exact h.word trivial rfl (.inl rfl) (fun _ _ hn => hn) fun hn => absurd hn howner
    | released =>
      exact h.word trivial rfl (.inl rfl) (fun _ _ hn => absurd hn not_named_released) fun hn =>
        absurd hn not_named_released

end

variable {id : T → BitVec 32}

theorem not_named_new (t : T) : ¬Named id ⟨0, 0⟩ t := (truncateOwner_ne_zero (id t)).symm

variable [DecidableEq T]

/-- A worker takes its next `n` steps. -/
def steps (t : T) (n : ℕ) : List (T × Input) := List.replicate n (t, .go)

/-- **One store writes the table**, if every store loads the epoch while the lease names its
    worker.  In any such run of workers with distinct truncated ids, at most one of the stores
    has the epoch of the lease. -/
theorem one_store_of_named_loads (hid : Injective fun t => truncateOwner (id t)) (incarnation : ℕ)
    (schedule : List (T × Input))
    (hok : Along (next id) (fun c e => loadsNamed id e.1 e.2 (c.locals e.1) c.shared.lease)
      ⟨fun _ => .waiting, .new incarnation⟩ schedule) :
    let c := run (next id) ⟨fun _ => .waiting, .new incarnation⟩ schedule
    ∀ t u, (c.locals t).store = some c.shared.lease.epoch →
      (c.locals u).store = some c.shared.lease.epoch → t = u := by
  intro c
  have hstart : OneWriter id (fun _ => Local.waiting) (Zone.new incarnation : Zone T).lease :=
    ⟨fun _ => trivial, nofun, fun t _ => not_named_new t, nofun, nofun⟩
  refine (hok.run (P := fun c => OneWriter id c.locals c.shared.lease) (fun c e h hnamed => ?_)
    hstart).unique
  exact (next_move id e.1 e.2 (c.locals e.1) c.shared).oneWriter hid rfl h hnamed

/-- A worker stalls between its election and the load of the epoch, and another one is elected
    meanwhile: both stores have the epoch of the lease. -/
theorem two_stores_at_once :
    let id : Bool → BitVec 32 := fun b => if b then 1 else 2
    let schedule : List (Bool × Input) :=
      steps false 4 ++ [(false, .wait 1000)] ++
        steps true 4 ++ [(true, .load (some 6))] ++ steps true 3 ++
        [(false, .load (some 6))] ++ steps false 3
    let c := run (next id) ⟨fun _ => .waiting, .new 5⟩ schedule
    c.shared.lease.epoch = 2 ∧ (c.locals true).store = some 2 ∧ (c.locals false).store = some 2 := by
  decide +kernel

/-- A worker stalls for longer than its lease and another one takes over and has its own store. -/
theorem one_store_of_named_loads_stall :
    let id : Bool → BitVec 32 := fun b => if b then 1 else 2
    let schedule : List (Bool × Input) :=
      steps false 4 ++ [(false, .load (some 6))] ++ steps false 3 ++ [(false, .wait 1000)] ++
        steps true 4 ++ [(true, .load (some 6))] ++ steps true 3
    let c := run (next id) ⟨fun _ => .waiting, .new 5⟩ schedule
    (c.locals false).store = some 1 ∧ (c.locals true).store = some c.shared.lease.epoch ∧
      ∀ t, (c.locals t).store = some c.shared.lease.epoch → t = true := by
  intro id schedule c
  have hfalse : (c.locals false).store = some 1 := by decide +kernel
  have htrue : (c.locals true).store = some c.shared.lease.epoch := by decide +kernel
  have hid : Injective fun t => truncateOwner (id t) := by decide
  have hone := one_store_of_named_loads hid 5 schedule (by decide +kernel)
  exact ⟨hfalse, htrue, fun t ht => hone t true ht htrue⟩

/-! ## The epoch of the leader's store -/

/-- The epoch is incremented, and a renewal in `drain_loop` exchanges the word, while the lease
    names the worker. -/
def staysNamed (id : T → BitVec 32) (t : T) (i : Input) (l : Local) (lease : LeaderLease) : Bool :=
  match l, i with
  | .campaigning _ .bump, .go => Named id lease t
  | .renewing _ _ _ pc, .go => pc.wins lease → Named id lease t
  | _, _ => true

omit [DecidableEq T] in
theorem named_of_campaigning {lease : LeaderLease} {t : T} {a : Attempt} {pc : AcquirePc}
    (h : staysNamed id t .go (.campaigning a pc) lease) (hpc : pc = .bump) : Named id lease t := by
  subst hpc
  exact of_decide_eq_true h

/-- **What holds of a worker and its store.** -/
structure Current (id : T → BitVec 32) (t : T) (l : Local) (g : Zone T) : Prop where
  knows : Knows id t l
  calm : ∀ term epoch a, l ≠ .renewing term epoch a .bump
  current : ∀ epoch, l.store = some epoch → Named id g.lease t → epoch = g.lease.epoch
  renewed : g.renewed t = true → Named id g.lease t ∧ ∃ epoch, l.store = some epoch

section
variable {g g' : Zone T} {t u : T} {l l' m : Local} {i : Input}

omit [DecidableEq T]

/-- A worker whose term ends. -/
theorem current_of_retired (hknows : Knows id t l') (hl' : l'.store = none)
    (hrenewed : ¬g'.renewed t = true) : Current id t l' g' := by
  refine ⟨hknows, ?_, fun epoch hs => ?_, fun hr => absurd hr hrenewed⟩
  · rintro term epoch a rfl
    cases hl'
  · rw [hl'] at hs
    cases hs

/-- A worker without a store. -/
theorem Current.of_store_none (h : Current id t l g) (hknows : Knows id t l') (hl : l.store = none)
    (hl' : l'.store = none) (hrenewed : g'.renewed t = true → g.renewed t = true) :
    Current id t l' g' := by
  refine current_of_retired hknows hl' fun hr => ?_
  obtain ⟨-, epoch, hs⟩ := h.renewed (hrenewed hr)
  rw [hl] at hs
  cases hs

/-- A worker that the lease does not name. -/
theorem Current.of_not_named (h : Current id u m g) (hnamed : ¬Named id g'.lease u)
    (hrenewed : ¬g'.renewed u = true) : Current id u m g' :=
  ⟨h.knows, h.calm, fun _ _ hn => absurd hn hnamed, fun hr => absurd hr hrenewed⟩

/-- A worker with the same store. -/
theorem Current.of_store_eq (h : Current id t l g) (hknows : Knows id t l')
    (hcalm : ∀ term epoch a, l' ≠ .renewing term epoch a .bump) (hl' : l'.store = l.store)
    (hlease : g'.lease = g.lease) (hrenewed : g'.renewed t = true → g.renewed t = true) :
    Current id t l' g' := by
  refine ⟨hknows, hcalm, fun epoch hs hn => ?_, fun hr => ?_⟩
  · rw [hlease] at hn ⊢
    exact h.current epoch (hl' ▸ hs) hn
  · rw [hlease, hl']
    exact h.renewed (hrenewed hr)

end

section
variable {g g' : Zone T} {t u : T} {l l' m : Local} {i : Input} {a : Attempt} {pc : AcquirePc}
  {progress : Progress AcquirePc} {lease : LeaderLease}

theorem setLease_renewed_le (g : Zone T) (t u : T) (pc : AcquirePc) (lease : LeaderLease)
    (h : (g.setLease t pc lease).renewed u = true) : g.renewed u = true := by
  simp only [Zone.setLease] at h
  split_ifs at h with htakes
  exact h

theorem setRenewed_false_self (g : Zone T) (t : T) : ¬(g.setRenewed t false).renewed t = true := by
  simp [Zone.setRenewed]

theorem setRenewed_of_ne (g : Zone T) {t u : T} (hu : u ≠ t) (b : Bool) :
    (g.setRenewed t b).renewed u = g.renewed u := update_of_ne hu ..

/-- **A worker's own steps keep its store current.** -/
theorem Move.current (hmove : Move id t g i l l' g') (h : Current id t l g)
    (hok : staysNamed id t i l g.lease) : Current id t l' g' := by
  have hknows := h.knows
  cases hmove with
  | stay => exact h
  | tick => exact h.of_store_eq hknows h.calm rfl rfl fun hr => hr
  | start a ha => exact h.of_store_none ⟨ha, trivial⟩ rfl rfl fun hr => hr
  | load | stamp | bind => exact h.of_store_none trivial rfl rfl fun hr => hr
  | build term =>
    refine ⟨trivial, nofun, fun epoch hs _ => ?_, fun hr => ?_⟩
    · cases hs
      rfl
    · obtain ⟨-, epoch, hs⟩ := h.renewed hr
      cases hs
  | renew term epoch a ha => exact h.of_store_eq ⟨ha, trivial⟩ nofun rfl rfl fun hr => hr
  | hit | rest => exact h.of_store_eq trivial nofun rfl rfl fun hr => hr
  | stop => exact current_of_retired trivial rfl (setRenewed_false_self g t)
  | campaign a pc pc' lease hacquires =>
    have hnext := (hknows.effect hacquires).2 pc' rfl
    exact h.of_store_none hnext rfl rfl (setLease_renewed_le g t t pc lease)
  | elect a pc lease hacquires =>
    exact h.of_store_none trivial rfl rfl (setLease_renewed_le g t t pc lease)
  | yield a pc lease hacquires =>
    exact h.of_store_none trivial rfl rfl (setLease_renewed_le g t t pc lease)
  | renewal term epoch a pc pc' lease hacquires =>
    obtain ⟨heffect, hnext⟩ := hknows.effect hacquires
    cases heffect with
    | none _ _ hgoto =>
      refine h.of_store_eq (hnext pc' rfl) ?_ rfl rfl (setLease_renewed_le g t t pc _)
      rintro _ _ _ ⟨⟩
      exact hgoto rfl
    | take state hnot =>
      exact absurd (of_decide_eq_true hok (decide_eq_true rfl)) hnot
  | renewed term epoch a pc lease hacquires =>
    obtain ⟨heffect, -⟩ := hknows.effect hacquires
    cases heffect with
    | none _ _ _ hdone => exact absurd rfl hdone
    | renew state hnamed hnext =>
      refine ⟨trivial, nofun, fun e hs _ => ?_, fun _ => ⟨hnext, epoch, rfl⟩⟩
      exact h.current e hs hnamed
    | bump => exact absurd rfl (h.calm term epoch a)
  | lost term epoch a pc lease hacquires =>
    exact current_of_retired trivial rfl (setRenewed_false_self _ t)
  | release pc pc' lease hreleases =>
    cases hreleases with
    | own howner => exact h.of_store_none howner rfl rfl fun hr => hr
    | lost => exact h.of_store_none trivial rfl rfl fun hr => hr
  | released pc b lease hreleases => exact h.of_store_none trivial rfl rfl fun hr => hr

variable (hid : Injective fun t => truncateOwner (id t))
include hid

/-- A step of `try_acquire` by another worker. -/
theorem Current.acquire (h : Current id u m g) (hu : u ≠ t) (hword : KnowsWord id t a pc)
    (hacquires : Acquires a g.lease pc progress lease) (hbump : pc = .bump → Named id g.lease t)
    (hlease : g'.lease = lease) (hrenewed : g'.renewed u = (g.setLease t pc lease).renewed u) :
    Current id u m g' := by
  have hle : g'.renewed u = true → g.renewed u = true := by
    rw [hrenewed]
    exact setLease_renewed_le g t u pc lease
  have hnot : Named id g.lease t → ¬g'.renewed u = true := fun hn hr =>
    hu ((h.renewed (hle hr)).1.eq hid hn)
  obtain ⟨heffect, -⟩ := hword.effect hacquires
  cases heffect with
  | none => exact h.of_store_eq h.knows h.calm rfl hlease hle
  | renew state hnamed hnext =>
    exact h.of_not_named (hlease ▸ fun hn => hu (hn.eq hid hnext)) (hnot hnamed)
  | take state _ hnext =>
    refine h.of_not_named (hlease ▸ fun hn => hu (hn.eq hid hnext)) ?_
    rw [hrenewed]
    simp [Zone.setLease, takes, hu]
  | bump =>
    have hnamed : Named id { g.lease with epoch := _ } t := hbump rfl
    exact h.of_not_named (hlease ▸ fun hn => hu (hn.eq hid hnamed)) (hnot hnamed)

/-- **The steps of other workers keep a worker's store current.** -/
theorem Move.current_other (hmove : Move id t g i l l' g') (ht : Current id t l g) (hu : u ≠ t)
    (h : Current id u m g) (hok : staysNamed id t i l g.lease) : Current id u m g' := by
  have hknows := ht.knows
  cases hmove with
  | stay | start | load | bind | build | renew | rest => exact h
  | tick | stamp | hit => exact h.of_store_eq h.knows h.calm rfl rfl fun hr => hr
  | stop =>
    refine h.of_store_eq h.knows h.calm rfl rfl fun hr => ?_
    rwa [setRenewed_of_ne g hu] at hr
  | campaign a pc pc' lease hacquires =>
    exact h.acquire hid hu hknows hacquires (named_of_campaigning hok) rfl rfl
  | elect a pc lease hacquires =>
    exact h.acquire hid hu hknows hacquires (named_of_campaigning hok) rfl rfl
  | yield a pc lease hacquires =>
    exact h.acquire hid hu hknows hacquires (named_of_campaigning hok) rfl rfl
  | renewal term epoch a pc pc' lease hacquires =>
    refine h.acquire hid hu hknows hacquires ?_ rfl rfl
    rintro rfl
    exact absurd rfl (ht.calm term epoch a)
  | renewed term epoch a pc lease hacquires =>
    refine h.acquire hid hu hknows hacquires ?_ rfl (setRenewed_of_ne _ hu _)
    rintro rfl
    exact absurd rfl (ht.calm term epoch a)
  | lost term epoch a pc lease hacquires =>
    refine h.acquire hid hu hknows hacquires ?_ rfl (setRenewed_of_ne _ hu _)
    rintro rfl
    exact absurd rfl (ht.calm term epoch a)
  | release pc pc' lease hreleases =>
    cases hreleases with
    | own | lost => exact h.of_store_eq h.knows h.calm rfl rfl fun hr => hr
  | released pc b lease hreleases =>
    cases hreleases with
    | foreign => exact h.of_store_eq h.knows h.calm rfl rfl fun hr => hr
    | released =>
      exact h.of_not_named not_named_released fun hr => hu ((h.renewed hr).1.eq hid hknows)

end

/-- **The leader's store is current**, if every increment of the epoch and every exchange of a
    renewal happens while the lease names the worker.  In any such run of workers with distinct
    truncated ids, a worker whose renewal has returned `true`, and after whom no other has taken
    the lease, has a store with the epoch of the lease. -/
theorem renewed_store_current (hid : Injective fun t => truncateOwner (id t)) (incarnation : ℕ)
    (schedule : List (T × Input))
    (hok : Along (next id) (fun c e => staysNamed id e.1 e.2 (c.locals e.1) c.shared.lease)
      ⟨fun _ => .waiting, .new incarnation⟩ schedule) :
    let c := run (next id) ⟨fun _ => .waiting, .new incarnation⟩ schedule
    ∀ t, c.shared.renewed t = true → (c.locals t).store = some c.shared.lease.epoch := by
  intro c t ht
  have hstart : Holds (fun _ => True) (Current id)
      ⟨fun _ => .waiting, (.new incarnation : Zone T)⟩ :=
    ⟨trivial, fun t => ⟨trivial, nofun, nofun, nofun⟩⟩
  have hrun : Holds (fun _ => True) (Current id) c := by
    refine hok.run (fun c e h hnamed => ?_) hstart
    have hmove := next_move id e.1 e.2 (c.locals e.1) c.shared
    exact h.step rfl trivial (hmove.current (h.thread e.1) hnamed) fun u hu hcur =>
      hmove.current_other hid (h.thread e.1) hu hcur hnamed
  obtain ⟨hnamed, epoch, hstore⟩ := (hrun.thread t).renewed ht
  rw [hstore, (hrun.thread t).current epoch hstore hnamed]

/-- A leader stalls until another worker has led and released; its renewal then takes the lease
    again, under an epoch its store does not have. -/
theorem renewed_store_stale :
    let id : Bool → BitVec 32 := fun b => if b then 1 else 2
    let schedule : List (Bool × Input) :=
      steps false 4 ++ [(false, .load (some 5))] ++ steps false 3 ++ [(false, .wait 1000)] ++
        steps true 4 ++ [(true, .load (some 6)), (true, .go), (true, .stop)] ++ steps true 2 ++
        steps false 4
    let c := run (next id) ⟨fun _ => .waiting, .new 5⟩ schedule
    c.shared.renewed false = true ∧ (c.locals false).store = some 1 ∧ c.shared.lease.epoch = 3 := by
  decide +kernel

/-- A leader stalls for longer than its lease, but renews it before another worker takes it. -/
theorem renewed_store_current_late :
    let id : Bool → BitVec 32 := fun b => if b then 1 else 2
    let schedule : List (Bool × Input) :=
      steps false 4 ++ [(false, .load (some 5))] ++ steps false 3 ++ [(false, .wait 1000)] ++
        steps false 3 ++ steps true 2
    let c := run (next id) ⟨fun _ => .waiting, .new 5⟩ schedule
    c.shared.renewed false = true ∧ (c.locals false).store = some c.shared.lease.epoch := by
  intro id schedule c
  have hrenewed : c.shared.renewed false = true := by decide +kernel
  have hid : Injective fun t => truncateOwner (id t) := by decide
  have hcurrent := renewed_store_current hid 5 schedule (by decide +kernel)
  exact ⟨hrenewed, hcurrent false hrenewed⟩

/-! ## The identities of the terms -/

/-- No other term has stamped its incarnation since the load, and the loaded one is not the
    largest. -/
def stampsFresh (i : Input) (l : Local) (incarnation : ℕ) : Bool :=
  match l, i with
  | .stamping _ loaded _, .go => incarnation = loaded ∧ loaded < u32Max
  | _, _ => true

theorem lt_newIncarnation {loaded : ℕ} (seconds : Option ℕ) (h : loaded < u32Max) :
    loaded < newIncarnation seconds loaded := by
  rw [newIncarnation]
  omega

/-- The term a worker leads. -/
def Local.term : Local → Option Term
  | .binding term | .building term | .leading term _ | .renewing term _ _ _ | .draining term _ =>
    some term
  | .waiting | .campaigning .. | .elected _ | .stamping .. | .releasing _ => none

/-- The incarnations stamped so far. -/
structure Distinct (g : Zone T) : Prop where
  le : ∀ p ∈ g.stamped, p.incarnation ≤ g.incarnation
  eq : ∀ p ∈ g.stamped, ∀ q ∈ g.stamped, p.incarnation = q.incarnation → p = q
  ingested : ∀ p ∈ g.ingested, p ∈ g.stamped

/-- A worker leads a term that was stamped, or is about to stamp a larger incarnation than the
    one it loaded. -/
structure Stamped (l : Local) (g : Zone T) : Prop where
  term : ∀ p, l.term = some p → p ∈ g.stamped
  lt : ∀ number loaded incarnation, l = .stamping number loaded incarnation → loaded < u32Max →
    loaded < incarnation

section
omit [DecidableEq T]
variable {g g' : Zone T} {l l' : Local}

theorem Distinct.stamp (h : Distinct g) {number incarnation : ℕ} (hlt : g.incarnation < incarnation) :
    Distinct { g with incarnation, stamped := ⟨number, incarnation⟩ :: g.stamped } := by
  have hle : ∀ p ∈ g.stamped, p.incarnation < incarnation := fun p hp => (h.le p hp).trans_lt hlt
  refine ⟨fun p hp => ?_, fun p hp q hq hpq => ?_, fun p hp => .tail _ (h.ingested p hp)⟩
  · rcases List.mem_cons.1 hp with rfl | hp
    · exact le_rfl
    · exact (hle p hp).le
  · rcases List.mem_cons.1 hp with rfl | hp <;> rcases List.mem_cons.1 hq with rfl | hq
    · rfl
    · exact absurd hpq (hle q hq).ne'
    · exact absurd hpq (hle p hp).ne
    · exact h.eq p hp q hq hpq

theorem Distinct.hit (h : Distinct g) {term : Term} (hterm : term ∈ g.stamped) :
    Distinct { g with ingested := term :: g.ingested } := by
  refine ⟨h.le, h.eq, fun p hp => ?_⟩
  rcases List.mem_cons.1 hp with rfl | hp
  · exact hterm
  · exact h.ingested p hp

/-- A worker that does not stamp and leads the term it led, or none. -/
theorem Stamped.of_term (h : Stamped l g) (hterm : ∀ p, l'.term = some p → l.term = some p)
    (hl' : ∀ number loaded incarnation, l' ≠ .stamping number loaded incarnation)
    (hstamped : g'.stamped = g.stamped) : Stamped l' g' :=
  ⟨fun p hp => hstamped ▸ h.term p (hterm p hp), fun _ _ _ hl => absurd hl (hl' _ _ _)⟩

theorem Stamped.mono (h : Stamped l g) (hstamped : g.stamped ⊆ g'.stamped) : Stamped l g' :=
  ⟨fun p hp => hstamped (h.term p hp), h.lt⟩

end

section
variable {g g' : Zone T} {t : T} {l l' : Local} {i : Input}

/-- **A step keeps the incarnations distinct.** -/
theorem Move.distinct (hmove : Move id t g i l l' g') (h : Distinct g) (hl : Stamped l g)
    (hok : stampsFresh i l g.incarnation) :
    Distinct g' ∧ Stamped l' g' ∧ g.stamped ⊆ g'.stamped := by
  cases hmove with
  | stay => exact ⟨h, hl, List.Subset.refl _⟩
  | tick => exact ⟨⟨h.le, h.eq, h.ingested⟩, ⟨hl.term, hl.lt⟩, List.Subset.refl _⟩
  | start | bind | build | renew | rest =>
    exact ⟨h, hl.of_term (fun p hp => hp) nofun rfl, List.Subset.refl _⟩
  | load number seconds =>
    refine ⟨h, ⟨nofun, ?_⟩, List.Subset.refl _⟩
    rintro _ _ _ ⟨⟩ hlt
    exact lt_newIncarnation seconds hlt
  | stamp number loaded incarnation =>
    obtain ⟨heq, hlt⟩ := of_decide_eq_true hok
    refine ⟨h.stamp (heq ▸ hl.lt _ _ _ rfl hlt), ⟨?_, nofun⟩, List.subset_cons_self ..⟩
    rintro p ⟨⟩
    exact List.mem_cons_self
  | hit term epoch =>
    have hterm := hl.term term rfl
    exact ⟨h.hit hterm, ⟨hl.term, nofun⟩, List.Subset.refl _⟩
  | campaign | elect | yield | renewal | renewed | lost | stop | release | released =>
    refine ⟨⟨h.le, h.eq, h.ingested⟩, hl.of_term ?_ nofun rfl, List.Subset.refl _⟩
    first | exact fun p hp => hp | exact nofun

end

/-- **Terms have distinct identities**, if each stamps its incarnation before another one does
    after its load, and the incarnations have not reached the largest.  In any such run two terms
    that have ingested a hit under the same incarnation are the same term. -/
theorem ingested_identities_distinct (incarnation : ℕ) (schedule : List (T × Input))
    (hok : Along (next id) (fun c e => stampsFresh e.2 (c.locals e.1) c.shared.incarnation)
      ⟨fun _ => .waiting, .new incarnation⟩ schedule) :
    let g := (run (next id) ⟨fun _ => .waiting, .new incarnation⟩ schedule).shared
    ∀ p ∈ g.ingested, ∀ q ∈ g.ingested, p.incarnation = q.incarnation → p.number = q.number := by
  intro g p hp q hq hpq
  have hstart : Holds Distinct (fun _ : T => Stamped)
      ⟨fun _ => .waiting, (.new incarnation : Zone T)⟩ :=
    ⟨⟨nofun, nofun, nofun⟩, fun _ => ⟨nofun, nofun⟩⟩
  have hrun : Holds Distinct (fun _ : T => Stamped)
      (run (next id) ⟨fun _ => .waiting, .new incarnation⟩ schedule) := by
    refine hok.run (fun c e h hfresh => ?_) hstart
    have hmove := next_move id e.1 e.2 (c.locals e.1) c.shared
    obtain ⟨hdistinct, hown, hsub⟩ := hmove.distinct h.shared (h.thread e.1) hfresh
    exact h.step rfl hdistinct hown fun u _ hu => hu.mono hsub
  have heq := hrun.shared.eq p (hrun.shared.ingested p hp) q (hrun.shared.ingested q hq) hpq
  rw [heq]

/-- A worker stalls between the load and the store of the incarnation while another one leads:
    both ingest hits under the incarnation `6`. -/
theorem identity_shared :
    let id : Bool → BitVec 32 := fun b => if b then 1 else 2
    let schedule : List (Bool × Input) :=
      steps false 4 ++ [(false, .load (some 5)), (false, .wait 1000)] ++
        steps true 4 ++ [(true, .load (some 6))] ++ steps true 6 ++ [(true, .hit), (true, .stop)] ++
        steps true 2 ++ steps false 7 ++ [(false, .hit)]
    let g := (run (next id) ⟨fun _ => .waiting, .new 5⟩ schedule).shared
    g.terms = 2 ∧ g.ingested = [⟨0, 6⟩, ⟨1, 6⟩] := by
  decide +kernel

/-- Two workers lead one after the other within a second. -/
theorem ingested_identities_distinct_second :
    let id : Bool → BitVec 32 := fun b => if b then 1 else 2
    let term (b : Bool) : List (Bool × Input) :=
      steps b 4 ++ [(b, .load (some 5))] ++ steps b 6 ++ [(b, .hit), (b, .stop)] ++ steps b 2
    let g := (run (next id) ⟨fun _ => .waiting, .new 5⟩ (term false ++ term true)).shared
    g.ingested = [⟨1, 7⟩, ⟨0, 6⟩] ∧
      ∀ p ∈ g.ingested, ∀ q ∈ g.ingested, p.incarnation = q.incarnation → p.number = q.number := by
  intro id term g
  have hingested : g.ingested = [⟨1, 7⟩, ⟨0, 6⟩] := by decide +kernel
  exact ⟨hingested, ingested_identities_distinct 5 (term false ++ term true) (by decide +kernel)⟩

end Leader

end Nginx

end Gabion
