/-
  Calls on the shared memory return (`nginx/src/shm/lease.rs`, `nginx/src/shm/queue.rs`).

  `try_acquire`, `release`, `push` and `pop` are loops around an exchange.  A turn is lost only if
  another thread has won an exchange on the same word since, or if a weak exchange fails by
  itself.  A worker that is stopped, wherever it stands, holds up nobody.

  * A worker that asks for the lease when it is free gets it, or another worker has got it since
    (`lease_fails_over`).
  * A push or pop returns (`queue_calls_return`): it loses at most three steps for each claim of
    another thread.
-/
import Gabion.Lib.LockFree
import Gabion.Nginx.Lease
import Gabion.Nginx.Ring

namespace Gabion

namespace Nginx

open Function Threads

/-! ## The lease -/

namespace Lease

variable {T : Type} [DecidableEq T] (id : T → BitVec 32) (t : T)

/-- The steps that a call has to make if nobody changes the word; one turn more once the word it
    has loaded is gone. -/
def Local.rank (state : ℕ) : Local → ℕ
  | .idle => 0
  | .acquiring _ .load => 3
  | .acquiring _ (.renew loaded) | .acquiring _ (.takeOver loaded) =>
    if state = loaded then 2 else 4
  | .acquiring _ .bump => 1
  | .releasing .load => 2
  | .releasing (.exchange loaded) => if state = loaded then 1 else 3

theorem Local.rank_eq_zero {state : ℕ} {l : Local} (h : l.rank state = 0) : l = .idle := by
  unfold rank at h
  split at h
  · rfl
  all_goals first | omega | split_ifs at h

theorem Local.rank_le_add (state state' : ℕ) (l : Local) :
    l.rank state' ≤ l.rank state + if state' = state then 0 else 2 := by
  by_cases hstate : state' = state
  · rw [hstate, if_pos rfl]
    exact Nat.le_add_right _ _
  · rw [if_neg hstate]
    unfold rank
    split <;> first | omega | (split_ifs <;> omega)

/-- A call makes no step in vain, whatever word it has loaded. -/
theorem next_rank_lt {l : Local} (g : Memory T) (hl : l ≠ .idle) :
    (next id t .go l g).1.rank (next id t .go l g).2.lease.state < l.rank g.lease.state := by
  cases l with
  | idle => exact absurd rfl hl
  | acquiring a pc =>
    have hstep := a.step_spec pc g.lease
    simp only [next]
    generalize (a.step pc g.lease).1 = progress at hstep ⊢
    generalize (a.step pc g.lease).2 = lease at hstep ⊢
    cases hstep with
    | own | vacant | refused | renewed | taken | bumped => simp [Local.ofAcquire, Local.rank]
    | lost pc hload hbump hpc =>
      cases pc with
      | load => exact absurd rfl hload
      | bump => exact absurd rfl hbump
      | renew loaded | takeOver loaded =>
        simp only [AcquirePc.wins, decide_eq_false_iff_not] at hpc
        simp [Local.ofAcquire, Local.rank, hpc]
  | releasing pc =>
    have hstep := releaseStep_spec (id t) pc g.lease
    simp only [next]
    generalize (releaseStep (id t) pc g.lease).1 = progress at hstep ⊢
    generalize (releaseStep (id t) pc g.lease).2 = lease at hstep ⊢
    cases hstep with
    | foreign | own | released => simp [Local.ofRelease, Local.rank]
    | lost loaded hstate => simp [Local.ofRelease, Local.rank, hstate]

deriving instance DecidableEq for Input

/-- Another worker changes the word. -/
def changesWord (c : Config T Local (Memory T)) (e : T × Input) : Bool :=
  e.1 ≠ t && (step (next id) c e).shared.lease.state ≠ c.shared.lease.state

/-- The worker does not start a call. -/
def NoCall (e : T × Input) : Prop :=
  e.1 = t → e.2 = .go ∨ ∃ millis, e.2 = .wait millis

/-- The calls of a worker have a rank. -/
theorem ranked : Ranked (next id) (fun _ => True) (fun _ e => NoCall t e)
    (fun _ e => decide (e = (t, .go))) (changesWord id t) 2
    (fun c => (c.locals t).rank c.shared.lease.state) where
  keeps _ _ _ _ := trivial
  returned c e _ hcall hzero := by
    obtain ⟨u, i⟩ := e
    have hidle := Local.rank_eq_zero hzero
    suffices hstep : (step (next id) c (u, i)).locals t = .idle by rw [hstep, Local.rank]
    by_cases hu : u = t
    · subst hu
      rw [locals_step_self, hidle]
      rcases hcall rfl with rfl | ⟨millis, rfl⟩ <;> rfl
    · rw [locals_step_of_ne hu]
      exact hidle
  own_lt c e _ _ hown hpos := by
    obtain rfl := of_decide_eq_true hown
    have hbusy : c.locals t ≠ .idle := by
      rintro hidle
      rw [hidle] at hpos
      exact hpos rfl
    rw [locals_step_self, shared_step]
    exact next_rank_lt id t c.shared hbusy
  other_le c e _ hcall hown := by
    obtain ⟨u, i⟩ := e
    by_cases hu : u = t
    · subst hu
      rcases hcall rfl with rfl | ⟨millis, rfl⟩
      · exact absurd rfl (of_decide_eq_false hown)
      · rw [locals_step_self, shared_step]
        simp only [next]
        exact Nat.le_add_right _ _
    · rw [locals_step_of_ne hu]
      refine (Local.rank_le_add c.shared.lease.state _ (c.locals t)).trans
        (Nat.add_le_add_left ?_ _)
      unfold changesWord
      split_ifs <;> simp_all

/-! ### A free lease -/

/-- A word that does not keep the attempt from going on. -/
def Attempt.Open (a : Attempt) (state : ℕ) : Prop :=
  (unpack state).1 = a.ownerId ∨ (unpack state).1 = 0 ∨ (unpack state).2 ≤ a.now

/-- The step is an exchange of `try_acquire` that succeeds. -/
def Wins (c : Config T Local (Memory T)) (e : T × Input) : Prop :=
  e.2 = .go ∧ ∃ a pc, c.locals e.1 = .acquiring a pc ∧ pc.wins c.shared.lease = true

/-- The worker is still asking, and the word is still open to it. -/
def Waits (a : Attempt) (c : Config T Local (Memory T)) : Prop :=
  Attempt.Open a c.shared.lease.state ∧ ∃ pc, c.locals t = .acquiring a pc ∧ pc ≠ .bump

/-- Whoever changes the word without being granted the lease frees it. -/
theorem next_state {u : T} {i : Input} {l : Local} {g : Memory T}
    (h : ¬(i = .go ∧ ∃ a pc, l = .acquiring a pc ∧ pc.wins g.lease = true)) :
    (next id u i l g).2.lease.state = g.lease.state ∨
      (next id u i l g).2.lease.state = pack 0 0 := by
  unfold next
  split
  · exact .inl rfl
  · exact .inl rfl
  · exact .inl rfl
  · rename_i a pc
    refine .inl ?_
    have hlost : pc.wins g.lease ≠ true := fun hwins => h ⟨rfl, a, pc, rfl, hwins⟩
    cases pc with
    | load =>
      simp only [Attempt.step]
      split_ifs <;> rfl
    | bump => rfl
    | renew loaded | takeOver loaded =>
      have hne : g.lease.state ≠ loaded := by simpa [AcquirePc.wins] using hlost
      simp [Attempt.step, hne]
  · rename_i pc
    have hstep := releaseStep_spec (id u) pc g.lease
    dsimp only
    generalize (releaseStep (id u) pc g.lease).1 = progress at hstep
    generalize (releaseStep (id u) pc g.lease).2 = lease at hstep ⊢
    cases hstep with
    | foreign | own | lost => exact .inl rfl
    | released => exact .inr rfl
  · exact .inl rfl

theorem Waits.step {a : Attempt} {c : Config T Local (Memory T)} {e : T × Input}
    (h : Waits t a c) (hcall : NoCall t e) (hlost : ¬ Wins c e) :
    Waits t a (step (next id) c e) := by
  obtain ⟨hopen, pc, hpc, hbump⟩ := h
  obtain ⟨u, i⟩ := e
  refine ⟨?_, ?_⟩
  · rcases next_state id (u := u) hlost with hsame | hfreed
    · exact hsame ▸ hopen
    · refine .inr (.inl ?_)
      rw [shared_step, hfreed]
      exact unpack_pack_owner (by decide) 0
  · by_cases hu : u = t
    · subst hu
      rw [locals_step_self, hpc]
      rcases hcall rfl with rfl | ⟨millis, rfl⟩
      · have hnot : pc.wins c.shared.lease ≠ true := fun hwins => hlost ⟨rfl, a, pc, hpc, hwins⟩
        cases pc with
        | bump => exact absurd rfl hbump
        | load =>
          simp only [next, Attempt.step]
          split_ifs with howner hheld
          · exact ⟨_, rfl, fun h => by cases h⟩
          · -- an open word is not held by another worker
            rcases hopen with hown | hzero | hexpired
            · exact absurd hown howner
            · exact absurd hzero hheld.1
            · exact absurd hexpired (not_le.2 hheld.2)
          · exact ⟨_, rfl, fun h => by cases h⟩
        | renew loaded | takeOver loaded =>
          have hne : c.shared.lease.state ≠ loaded := by simpa [AcquirePc.wins] using hnot
          simp only [next, Attempt.step, if_neg hne]
          exact ⟨_, rfl, fun h => by cases h⟩
      · exact ⟨pc, rfl, hbump⟩
    · rw [locals_step_of_ne hu]
      exact ⟨pc, hpc, hbump⟩

/-- **The lease fails over.**  Let a worker call `try_acquire` when the lease has no owner, is its
    own or has expired, in any state of the other workers, and let the workers go on in any way;
    any of them may stop for good, also the last owner.  When the worker has made three steps, and
    two more for each time another worker has changed the word since, its call has returned, and a
    worker, this or another one, has been granted the lease since the call. -/
theorem lease_fails_over (c : Config T Local (Memory T)) (hidle : c.locals t = .idle)
    (hid : id t ≠ 0) {ttlMillis : ℕ} (httl : ttlMillis ≠ 0)
    (hfree : (unpack c.shared.lease.state).1 = 0 ∨
      (unpack c.shared.lease.state).1 = truncateOwner (id t) ∨
      (unpack c.shared.lease.state).2 ≤ c.shared.clock)
    (schedule : List (T × Input)) (hcalls : ∀ e ∈ schedule, NoCall t e)
    (hsteps : 3 + 2 * count (next id) (changesWord id t)
        (step (next id) c (t, .acquire ttlMillis)) schedule ≤
      schedule.countP fun e => decide (e = (t, .go))) :
    (run (next id) (step (next id) c (t, .acquire ttlMillis)) schedule).locals t = .idle ∧
      ∃ before e after, schedule = before ++ e :: after ∧
        Wins (run (next id) (step (next id) c (t, .acquire ttlMillis)) before) e := by
  set c' := step (next id) c (t, .acquire ttlMillis) with hc'
  have hvain : Attempt.vain ⟨id t, c.shared.clock, ttlMillis⟩ = false :=
    decide_eq_false (not_or.2 ⟨hid, httl⟩)
  have hcall : c'.locals t = .acquiring ⟨id t, c.shared.clock, ttlMillis⟩ .load := by
    rw [hc', locals_step_self, hidle]
    simp [next, hvain]
  have hword : c'.shared.lease = c.shared.lease := by
    rw [hc', shared_step, hidle]
    rfl
  have hreturns : (run (next id) c' schedule).locals t = .idle := by
    refine Local.rank_eq_zero ((ranked id t).run trivial (along_of_mem hcalls) ?_)
    rw [count_eq_countP, hcall]
    exact hsteps
  refine ⟨hreturns, ?_⟩
  by_contra hnone
  -- without a grant the call goes on and the word stays open to it
  have hlost : Along (next id) (fun c e => ¬ Wins c e) c' schedule := by
    by_contra hnot
    obtain ⟨before, e, after, hschedule, hwins⟩ := exists_of_not_along hnot
    exact hnone ⟨before, e, after, hschedule, not_not.1 hwins⟩
  have hstart : Waits t ⟨id t, c.shared.clock, ttlMillis⟩ c' := by
    refine ⟨?_, .load, hcall, fun h => by cases h⟩
    rw [hword]
    rcases hfree with hzero | hown | hexpired
    · exact .inr (.inl hzero)
    · exact .inl hown
    · refine .inr (.inr (le_min hexpired ?_))
      exact Nat.and_le_right
  obtain ⟨-, pc, hpc, -⟩ := (hlost.and_mem hcalls).run
    (fun c e hwaits hok => hwaits.step id t hok.2 hok.1) hstart
  rw [hreturns] at hpc
  cases hpc

/-- The first worker's lease has expired.  It renews it after the second has found it expired, so
    the second loses its exchange and stands by. -/
theorem lease_fails_over_renewed :
    let id : Bool → BitVec 32 := fun b => if b then 1 else 2
    let c := run (next id) ⟨fun _ => .idle, .new⟩ [(false, .acquire 10), (false, .go),
      (false, .go), (false, .go), (true, .wait 10)]
    let c' := step (next id) c (true, .acquire 10)
    let schedule := [(true, .go), (false, .acquire 10), (false, .go), (false, .go), (true, .go),
      (true, .go), (true, .go), (true, .go)]
    (run (next id) c' schedule).locals true = .idle ∧
      ∃ before e after, schedule = before ++ e :: after ∧ Wins (run (next id) c' before) e := by
  intro id c c' schedule
  refine lease_fails_over id true c (by rfl) (by decide) (by decide) (by decide +kernel) schedule
    ?_ (by decide +kernel)
  intro e he heq
  simp only [schedule, List.mem_cons, List.not_mem_nil, or_false] at he
  rcases he with rfl | rfl | rfl | rfl | rfl | rfl | rfl | rfl <;>
    first | exact .inl rfl | cases heq

end Lease

/-! ## The queue -/

namespace Ring

variable {T : Type}

/-- The steps that a call has to make if nobody else claims a position: reading the position and
    the sequence number, the exchange, eight words and the last store.  One turn more once the
    position it has read is gone. -/
def Local.rank (g : Memory T) : Local T → ℕ
  | .idle => 0
  | .pushing _ | .popping => 12
  | .pushSeq _ pos => if g.queue.enqueuePos = pos then 11 else 14
  | .popSeq pos => if g.queue.dequeuePos = pos then 11 else 14
  | .pushClaim _ pos => if g.queue.enqueuePos = pos then 10 else 13
  | .popClaim pos => if g.queue.dequeuePos = pos then 10 else 13
  | .writing _ _ _ left | .reading _ _ left _ => left.length + 1
  | .overflow _ _ => 1

theorem Local.rank_eq_zero {g : Memory T} {l : Local T} (h : l.rank g = 0) : l = .idle := by
  unfold rank at h
  split at h
  · rfl
  all_goals first | omega | split_ifs at h

/-- Only the two positions count. -/
theorem Local.rank_eq {g g' : Memory T} (henqueue : g'.queue.enqueuePos = g.queue.enqueuePos)
    (hdequeue : g'.queue.dequeuePos = g.queue.dequeuePos) (l : Local T) : l.rank g' = l.rank g := by
  unfold rank
  rw [henqueue, hdequeue]

theorem Local.rank_le_add (g g' : Memory T) (l : Local T) : l.rank g' ≤ l.rank g + 3 := by
  unfold rank
  split <;> first | omega | (split_ifs <;> omega)

/-- The slot of the next push is vacant or not yet released. -/
theorem Inv.enqueue_diff_le {g : Memory T} (h : Inv g) :
    ((g.queue.slots (g.queue.slotOf g.queue.enqueuePos)).seq - g.queue.enqueuePos).toInt ≤ 0 := by
  rw [h.enqueuePos, Memory.slots_ofNat]
  by_cases hready : Ready g g.pushes
  · have hrank := (h.free_iff g.pushes).2 le_rfl
    have hlead := (g.stage g.pushes).lead_le
    rw [h.seq g.pushes hready (by omega), RequestQueue.toInt_sub_ofNat (by omega) (by omega)]
    omega
  · obtain ⟨-, -, s, hseq, hlt, hle⟩ := h.seq_of_not_ready le_rfl hready
    have hcap := g.queue.capacity_lt
    rw [hseq, RequestQueue.toInt_sub_ofNat (by omega) (by omega)]
    omega

/-- The slot of the next pop is published or not yet. -/
theorem Inv.dequeue_diff_le {g : Memory T} (h : Inv g) :
    ((g.queue.slots (g.queue.slotOf g.queue.dequeuePos)).seq -
      (g.queue.dequeuePos + 1)).toInt ≤ 0 := by
  rw [h.dequeuePos, Memory.slots_ofNat, RequestQueue.ofNat_succ]
  by_cases hready : Ready g g.pops
  · have hrank := mt (h.gone_iff g.pops).1 (lt_irrefl _)
    have hlead := (g.stage g.pops).lead_le
    rw [h.seq g.pops hready (by omega), RequestQueue.toInt_sub_ofNat (by omega) (by omega)]
    omega
  · obtain ⟨-, -, s, hseq, hlt, hle⟩ := h.seq_of_not_ready h.pops_le hready
    have hcap : g.queue.capacity ≤ 2 ^ 62 :=
      Nat.pow_le_pow_right (by decide) (Nat.le_of_lt_succ g.queue.bits_lt)
    rw [hseq, RequestQueue.toInt_sub_ofNat (by omega) (by omega)]
    omega

/-- A call makes no step in vain. -/
theorem next_rank_lt (t : T) {g : Memory T} {l : Local T} (h : Inv g)
    (hl : l ≠ .idle) : (next t .go l g).1.rank (next t .go l g).2 < l.rank g := by
  cases l with
  | idle => exact absurd rfl hl
  | pushing event | popping => simp [next, Local.rank]
  | pushSeq event pos =>
    have hdiff := h.enqueue_diff_le
    simp only [next]
    split_ifs with hzero hneg
    · simp only [Local.rank]
      split_ifs <;> omega
    · simp only [Local.rank]
      split_ifs <;> omega
    · -- a greater number: the position is gone
      have hgone : g.queue.enqueuePos ≠ pos := by
        rintro rfl
        omega
      simp [Local.rank, hgone]
  | popSeq pos =>
    have hdiff := h.dequeue_diff_le
    simp only [next]
    split_ifs with hzero hneg
    · simp only [Local.rank]
      split_ifs <;> omega
    · simp only [Local.rank]
      split_ifs <;> omega
    · have hgone : g.queue.dequeuePos ≠ pos := by
        rintro rfl
        omega
      simp [Local.rank, hgone]
  | pushClaim event pos =>
    simp only [next]
    split_ifs with hpos
    · simp [Local.rank, hpos, writeOrder]
    · simp [Local.rank, hpos]
  | popClaim pos =>
    simp only [next]
    split_ifs with hpos
    · simp [Local.rank, hpos, readOrder]
    · simp [Local.rank, hpos]
  | writing event pos k left | reading pos k left got =>
    cases left <;> simp [next, Local.rank]
  | overflow pos seen => simp [next, Local.rank]

/-- A weak exchange that fails by itself costs a turn. -/
theorem next_fail_rank_le (t : T) (g : Memory T) (l : Local T) :
    (next t .fail l g).1.rank (next t .fail l g).2 ≤ l.rank g + 3 := by
  cases l with
  | pushClaim | popClaim =>
    simp only [next, Local.rank]
    split_ifs <;> omega
  | writing _ _ _ left | reading _ _ left => cases left <;> exact Nat.le_add_right _ _
  | idle | pushing | pushSeq | overflow | popping | popSeq => exact Nat.le_add_right _ _

/-- Positions change with a claim only. -/
theorem Move.positions {u : T} {g g' : Memory T} {l l' : Local T} (h : Move u g l l' g')
    (hclaims : g'.pushes + g'.pops = g.pushes + g.pops) :
    g'.queue.enqueuePos = g.queue.enqueuePos ∧ g'.queue.dequeuePos = g.queue.dequeuePos := by
  cases h with
  | claim | take =>
    simp only [Memory.claim, Memory.take, Memory.setStage] at hclaims
    omega
  | stay | turn | loadEnqueue | vacant | full | loadDequeue | ready | fetch | store | publish |
    refuse | release => exact ⟨rfl, rfl⟩

deriving instance DecidableEq for Input

variable [DecidableEq T] (t : T)

/-- Another thread claims a position, or an exchange of the call fails by itself. -/
def contends (c : Config T (Local T) (Memory T)) (e : T × Input) : Bool :=
  e = (t, .fail) || e.1 ≠ t &&
    (step next c e).shared.pushes + (step next c e).shared.pops ≠ c.shared.pushes + c.shared.pops

/-- The thread does not start a call. -/
def NoCall (e : T × Input) : Prop := e.1 = t → e.2 = .go ∨ e.2 = .fail

/-- The calls of a thread have a rank. -/
theorem ranked : Ranked next (Holds Inv Asserts)
    (fun c e => (step next c e).shared.pushes + (step next c e).shared.pops < 2 ^ 63 ∧ NoCall t e)
    (fun _ e => decide (e = (t, .go))) (contends t) 3
    (fun c : Config T (Local T) (Memory T) => (c.locals t).rank c.shared) where
  keeps c e h hok := holds_step c e h hok.1
  returned c e _ hok hzero := by
    obtain ⟨u, i⟩ := e
    have hidle := Local.rank_eq_zero hzero
    suffices hstep : (step next c (u, i)).locals t = .idle by rw [hstep, Local.rank]
    by_cases hu : u = t
    · subst hu
      rw [locals_step_self, hidle]
      rcases hok.2 rfl with rfl | rfl <;> rfl
    · rw [locals_step_of_ne hu]
      exact hidle
  own_lt c e h _ hown hpos := by
    obtain rfl := of_decide_eq_true hown
    have hbusy : c.locals t ≠ .idle := by
      rintro hidle
      rw [hidle] at hpos
      exact hpos rfl
    rw [locals_step_self, shared_step]
    exact next_rank_lt t h.shared hbusy
  other_le c e _ hok hown := by
    obtain ⟨u, i⟩ := e
    by_cases hu : u = t
    · subst hu
      rcases hok.2 rfl with rfl | rfl
      · exact absurd rfl (of_decide_eq_false hown)
      · have hcontends : contends u c (u, .fail) = true := by simp [contends]
        rw [locals_step_self, shared_step, if_pos hcontends]
        exact next_fail_rank_le u c.shared (c.locals u)
    · rw [locals_step_of_ne hu]
      by_cases hcontends : contends t c (u, i) = true
      · rw [if_pos hcontends]
        exact Local.rank_le_add _ _ _
      · have hclaims : (step next c (u, i)).shared.pushes + (step next c (u, i)).shared.pops =
            c.shared.pushes + c.shared.pops := by
          simpa [contends, hu] using hcontends
        obtain ⟨henqueue, hdequeue⟩ :=
          (next_move u i (c.locals u) c.shared).positions hclaims
        rw [if_neg hcontends, shared_step, Local.rank_eq henqueue hdequeue]
        exact Nat.le_add_right _ _

/-- **A push or pop returns.**  For any capacity, and threads that push and pop in any
    interleaving, with fewer than 2^63 claims in all; any thread may stop for good, also between
    its claim and its last store.  A call has returned when it has made 12 steps, and three more
    for each claim of another thread since, and for each of its weak exchanges that has failed by
    itself. -/
theorem queue_calls_return (bits : ℕ) (bits_pos : 0 < bits) (bits_lt : bits < 63)
    (before : List (T × Input)) {c : Config T (Local T) (Memory T)}
    (hbefore : run next ⟨fun _ => .idle, .new (.new bits bits_pos bits_lt)⟩ before = c)
    (hidle : c.locals t = .idle) {call : Input} (hcall : call = .pop ∨ ∃ event, call = .push event)
    (schedule : List (T × Input)) (hcalls : ∀ e ∈ schedule, NoCall t e)
    (hbound : (run next (step next c (t, call)) schedule).shared.pushes +
      (run next (step next c (t, call)) schedule).shared.pops < 2 ^ 63)
    (hsteps : 12 + 3 * count next (contends t) (step next c (t, call)) schedule ≤
      schedule.countP fun e => decide (e = (t, .go))) :
    (run next (step next c (t, call)) schedule).locals t = .idle := by
  have hback : ∀ (c : Config T (Local T) (Memory T)) (e : T × Input),
      (step next c e).shared.pushes + (step next c e).shared.pops < 2 ^ 63 →
      c.shared.pushes + c.shared.pops < 2 ^ 63 := fun c e =>
    (next_move e.1 e.2 (c.locals e.1) c.shared).claims_le.trans_lt
  obtain ⟨hbound', halong⟩ := along_of_final
    (B := fun c => Memory.pushes c.shared + Memory.pops c.shared < 2 ^ 63) hback hbound
  have hstart := (along_of_final
    (B := fun c => Memory.pushes c.shared + Memory.pops c.shared < 2 ^ 63) hback
    (hbefore ▸ hback c (t, call) hbound')).2
  have hholds : Holds Inv Asserts c :=
    hbefore ▸ hstart.run holds_step (holds_new bits bits_pos bits_lt)
  have hrank : ((step next c (t, call)).locals t).rank (step next c (t, call)).shared = 12 := by
    rw [locals_step_self, hidle]
    rcases hcall with rfl | ⟨event, rfl⟩ <;> rfl
  refine Local.rank_eq_zero ((ranked t).run (holds_step c (t, call) hholds hbound')
    (halong.and_mem hcalls) ?_)
  rw [count_eq_countP, hrank]
  exact hsteps

/-- Two slots: a push that loses its exchange to another one, which then stops between its claim
    and its stores. -/
theorem queue_calls_return_stall :
    let event : QueueEvent := ⟨1, 2, 3, 4, 5, 6⟩
    let c : Config Bool (Local Bool) (Memory Bool) :=
      run next ⟨fun _ => .idle, .new (.new 1 (by decide) (by decide))⟩ [(false, .push event)]
    (run next (step next c (true, .push event)) ([(true, .go), (true, .go), (false, .go),
      (false, .go), (false, .go)] ++ List.replicate 13 (true, .go))).locals true = .idle := by
  intro event c
  refine queue_calls_return true 1 (by decide) (by decide) [(false, .push event)] rfl (by rfl)
    (.inr ⟨event, rfl⟩) _ ?_ (by decide +kernel) (by decide +kernel)
  intro e he heq
  simp only [List.cons_append, List.nil_append, List.mem_cons, List.mem_replicate] at he
  rcases he with rfl | rfl | rfl | rfl | rfl | ⟨-, rfl⟩ <;> exact .inl rfl

end Ring

end Nginx

end Gabion
