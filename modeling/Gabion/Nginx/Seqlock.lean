/-
  The slots of the count table as seqlocks (`nginx/src/shm/aggregate.rs`), one atomic load or
  store at a time.

  One writer publishes cells and frees slots, in any order; `remove` and the clearing loop of
  `ShmAggregateStore::new` are such sequences.  Any number of threads read slots meanwhile.
  The history keeps what was published under which sequence number (`published`) and what the
  reads reported (`live`).

  * `Inv`: a slot whose number is even and not zero holds the cell published under it.
  * `Asserts`: what a thread knows between two steps.  A reader knows that its number was
    published in its slot, and that the words it has come from that publication if the number
    is still there.  A number that has left its slot does not come back (`Rely`).
  * `write_alone`, `read_alone`: a call that no other thread interrupts is that of `ShmTable`.
-/
import Gabion.Nginx.Words

namespace Gabion

namespace Nginx

namespace Seqlock

open Function Threads

/-- A slot in memory. -/
structure Slot where
  seq : BitVec 64
  cell : AggregateCell

/-- The slots, the counter for sequence numbers in the header, and the history. -/
structure Memory where
  slots : ℕ → Slot
  aggregateWriteSeq : BitVec 64
  writes : ℕ
  published : List (BitVec 64 × ℕ × AggregateCell)
  live : List (ℕ × AggregateCell)

def blank : AggregateCell := ⟨0, 0, 0, 0, 0⟩

/-- A zone of zeroes; the counter starts at 2. -/
def Memory.new : Memory where
  slots := fun _ => ⟨0, blank⟩
  aggregateWriteSeq := 2
  writes := 0
  published := []
  live := []

/-- Where a thread is. -/
inductive Local
  | idle
  /-- `write`, with its sequence number. -/
  | opening (index : ℕ) (cell : AggregateCell) (seq : BitVec 64)
  | writing (index : ℕ) (cell : AggregateCell) (seq : BitVec 64) (left : List CellWord)
  /-- `read`, after the first load of the sequence number. -/
  | reading (index : ℕ) (seq : BitVec 64) (left : List CellWord) (got : AggregateCell)

inductive Input
  | write (index : ℕ) (cell : AggregateCell)
  | free (index : ℕ)
  | read (index : ℕ)
  | go

def Memory.setSeq (g : Memory) (index : ℕ) (seq : BitVec 64) : Memory :=
  { g with slots := update g.slots index { g.slots index with seq } }

def Memory.setCell (g : Memory) (index : ℕ) (cell : AggregateCell) : Memory :=
  { g with slots := update g.slots index { g.slots index with cell } }

variable {R : Type}

/-- **One load or store.**  The thread `none` is the writer; every thread may read. -/
def next (t : Option R) (i : Input) (l : Local) (g : Memory) : Local × Memory :=
  match l, i with
  | .idle, .write index cell =>
    if t.isNone then
      (.opening index cell g.aggregateWriteSeq,
        { g with aggregateWriteSeq := g.aggregateWriteSeq + 2, writes := g.writes + 1 })
    else (l, g)
  | .idle, .free index => if t.isNone then (.idle, g.setSeq index 0) else (l, g)
  | .idle, .read index =>
    let seq := (g.slots index).seq
    if seq = 0 then (.idle, g)
    else if seq &&& 1 = 1 then (.idle, g)
    else (.reading index seq AggregateCell.readOrder blank, g)
  | .opening index cell seq, .go =>
    (.writing index cell seq AggregateCell.writeOrder, g.setSeq index (seq - 1))
  | .writing index cell seq (f :: left), .go =>
    (.writing index cell seq left, g.setCell index (cell.copy f (g.slots index).cell))
  | .writing index cell seq [], .go =>
    (.idle, { g.setSeq index seq with published := (seq, index, cell) :: g.published })
  | .reading index seq (f :: left) got, .go =>
    (.reading index seq left (AggregateCell.copy f (g.slots index).cell got), g)
  | .reading index seq [] got, .go =>
    if (g.slots index).seq = seq then (.idle, { g with live := (index, got) :: g.live })
    else (.idle, g)
  | l, _ => (l, g)

/-- **What a step can do.** -/
inductive Move (t : Option R) (g : Memory) : Local → Local → Memory → Prop
  | stay (l : Local) : Move t g l l g
  | begin (index : ℕ) (cell : AggregateCell) (ht : t = none) :
      Move t g .idle (.opening index cell g.aggregateWriteSeq)
        { g with aggregateWriteSeq := g.aggregateWriteSeq + 2, writes := g.writes + 1 }
  | free (index : ℕ) (ht : t = none) : Move t g .idle .idle (g.setSeq index 0)
  | load (index : ℕ) (hseq : (g.slots index).seq ≠ 0) (heven : (g.slots index).seq &&& 1 ≠ 1) :
      Move t g .idle (.reading index (g.slots index).seq AggregateCell.readOrder blank) g
  | open (index : ℕ) (cell : AggregateCell) (seq : BitVec 64) :
      Move t g (.opening index cell seq) (.writing index cell seq AggregateCell.writeOrder)
        (g.setSeq index (seq - 1))
  | store (index : ℕ) (cell : AggregateCell) (seq : BitVec 64) (f : CellWord)
      (left : List CellWord) : Move t g (.writing index cell seq (f :: left))
        (.writing index cell seq left) (g.setCell index (cell.copy f (g.slots index).cell))
  | publish (index : ℕ) (cell : AggregateCell) (seq : BitVec 64) :
      Move t g (.writing index cell seq []) .idle
        { g.setSeq index seq with published := (seq, index, cell) :: g.published }
  | fetch (index : ℕ) (seq : BitVec 64) (f : CellWord) (left : List CellWord)
      (got : AggregateCell) : Move t g (.reading index seq (f :: left) got)
        (.reading index seq left (AggregateCell.copy f (g.slots index).cell got)) g
  | confirm (index : ℕ) (seq : BitVec 64) (got : AggregateCell)
      (hseq : (g.slots index).seq = seq) : Move t g (.reading index seq [] got) .idle
        { g with live := (index, got) :: g.live }
  | abandon (index : ℕ) (seq : BitVec 64) (got : AggregateCell) :
      Move t g (.reading index seq [] got) .idle g

theorem next_move (t : Option R) (i : Input) (l : Local) (g : Memory) :
    Move t g l (next t i l g).1 (next t i l g).2 := by
  unfold next
  split
  · split_ifs with ht
    · exact .begin _ _ (Option.isNone_iff_eq_none.1 ht)
    · exact .stay _
  · split_ifs with ht
    · exact .free _ (Option.isNone_iff_eq_none.1 ht)
    · exact .stay _
  · dsimp only
    split_ifs with hseq heven
    · exact .stay _
    · exact .stay _
    · exact .load _ hseq heven
  · exact .open ..
  · exact .store ..
  · exact .publish ..
  · exact .fetch ..
  · split_ifs with hseq
    · exact .confirm _ _ _ hseq
    · exact .abandon ..
  · exact .stay _

/-! ## Sequence numbers -/

/-- The number of the `n`-th write. -/
def number (n : ℕ) : BitVec 64 := BitVec.ofNat 64 (2 * (n + 1))

theorem number_succ (n : ℕ) : number n + 2 = number (n + 1) := by
  exact (BitVec.ofNat_add (2 * (n + 1)) 2).symm

theorem number_inj {m n : ℕ} (hm : m < 2 ^ 63 - 1) (hn : n < 2 ^ 63 - 1) (h : number m = number n) :
    m = n := by
  have hnat := congrArg BitVec.toNat h
  rw [number, number, BitVec.toNat_ofNat, BitVec.toNat_ofNat, Nat.mod_eq_of_lt (by omega),
    Nat.mod_eq_of_lt (by omega)] at hnat
  omega

/-- Published numbers: even and not 0. -/
structure Stable (seq : BitVec 64) : Prop where
  ne_zero : seq ≠ 0
  even : seq.toNat % 2 = 0

theorem stable_number {n : ℕ} (hn : n < 2 ^ 63 - 1) : Stable (number n) := by
  have hnat : (number n).toNat = 2 * (n + 1) := by
    rw [number, BitVec.toNat_ofNat, Nat.mod_eq_of_lt (by omega)]
  refine ⟨fun hzero => ?_, by omega⟩
  have h0 : (number n).toNat = 0 := congrArg BitVec.toNat hzero
  omega

theorem toNat_and_one (seq : BitVec 64) : (seq &&& 1).toNat = seq.toNat % 2 := by
  rw [BitVec.toNat_and]
  exact Nat.and_two_pow_sub_one_eq_mod seq.toNat 1

theorem and_one_eq_one_iff (seq : BitVec 64) : seq &&& 1 = 1 ↔ seq.toNat % 2 = 1 := by
  rw [← BitVec.toNat_inj, toNat_and_one]
  rfl

theorem Stable.of_load {seq : BitVec 64} (hseq : seq ≠ 0) (heven : seq &&& 1 ≠ 1) : Stable seq := by
  rw [Ne, and_one_eq_one_iff] at heven
  exact ⟨hseq, by omega⟩

theorem Stable.pred_odd {seq : BitVec 64} (h : Stable seq) : (seq - 1).toNat % 2 = 1 := by
  have hne := h.ne_zero
  have hpos : seq.toNat ≠ 0 := fun hzero => hne (BitVec.eq_of_toNat_eq hzero)
  have heven := h.even
  have hlt := seq.isLt
  have hone : (1 : BitVec 64).toNat = 1 := rfl
  rw [BitVec.toNat_sub, hone]
  omega

theorem Stable.ne_pred {seq s : BitVec 64} (h : Stable seq) (hs : Stable s) : s ≠ seq - 1 := by
  rintro rfl
  have hodd := h.pred_odd
  rw [hs.even] at hodd
  cases hodd

/-! ## The invariant -/

@[simp] theorem setSeq_self (g : Memory) (index : ℕ) (seq : BitVec 64) :
    (g.setSeq index seq).slots index = { g.slots index with seq } := update_self ..

theorem setSeq_of_ne (g : Memory) {index i : ℕ} (seq : BitVec 64) (hi : i ≠ index) :
    (g.setSeq index seq).slots i = g.slots i := update_of_ne hi ..

@[simp] theorem setCell_self (g : Memory) (index : ℕ) (cell : AggregateCell) :
    (g.setCell index cell).slots index = { g.slots index with cell } := update_self ..

theorem setCell_of_ne (g : Memory) {index i : ℕ} (cell : AggregateCell) (hi : i ≠ index) :
    (g.setCell index cell).slots i = g.slots i := update_of_ne hi ..

theorem setCell_seq (g : Memory) (index i : ℕ) (cell : AggregateCell) :
    ((g.setCell index cell).slots i).seq = (g.slots i).seq := by
  by_cases hi : i = index
  · rw [hi, setCell_self]
  · rw [setCell_of_ne g cell hi]

/-- **The invariant of the memory.** -/
structure Inv (g : Memory) : Prop where
  counter : g.aggregateWriteSeq = number g.writes
  numbered : ∀ p ∈ g.published, ∃ n < g.writes, p.1 = number n
  stable : ∀ p ∈ g.published, Stable p.1
  distinct : ∀ p ∈ g.published, ∀ q ∈ g.published, p.1 = q.1 → p = q
  holds : ∀ index, Stable (g.slots index).seq →
    ((g.slots index).seq, index, (g.slots index).cell) ∈ g.published
  live : ∀ p ∈ g.live, ∃ seq, (seq, p.1, p.2) ∈ g.published

/-- A number of a write that has not published yet. -/
structure Fresh (g : Memory) (seq : BitVec 64) : Prop where
  stable : Stable seq
  numbered : ∃ n < g.writes, seq = number n
  unpublished : ∀ p ∈ g.published, p.1 ≠ seq

/-- **What a thread knows.** -/
def Asserts (t : Option R) (l : Local) (g : Memory) : Prop :=
  match l with
  | .idle => True
  | .opening _ _ seq => t = none ∧ Fresh g seq
  | .writing index cell seq left =>
    t = none ∧ Fresh g seq ∧ (g.slots index).seq = seq - 1 ∧ Copied left cell (g.slots index).cell
  | .reading index seq left got =>
    ∃ cell, (seq, index, cell) ∈ g.published ∧ ((g.slots index).seq = seq → Copied left cell got)

/-- What a thread relies on while others step. -/
structure Rely (u : Option R) (g g' : Memory) : Prop where
  published : ∀ p ∈ g.published, p ∈ g'.published
  gone : ∀ p ∈ g.published, (g'.slots p.2.1).seq = p.1 → (g.slots p.2.1).seq = p.1
  writer : u = none → g'.slots = g.slots ∧ g'.published = g.published ∧ g'.writes = g.writes

theorem Rely.of_eq {u : Option R} {g g' : Memory} (hslots : g'.slots = g.slots)
    (hpublished : g'.published = g.published) (hwrites : u = none → g'.writes = g.writes) :
    Rely u g g' :=
  ⟨fun _ hp => hpublished ▸ hp, fun _ _ h => hslots ▸ h, fun hu => ⟨hslots, hpublished, hwrites hu⟩⟩

theorem Asserts.rely {u : Option R} {l : Local} {g g' : Memory} (h : Asserts u l g)
    (hr : Rely u g g') : Asserts u l g' := by
  have hfresh : ∀ {seq}, u = none → Fresh g seq → Fresh g' seq := by
    rintro seq hu ⟨hstable, hnumbered, hun⟩
    obtain ⟨-, hpublished, hwrites⟩ := hr.writer hu
    exact ⟨hstable, hwrites ▸ hnumbered, hpublished ▸ hun⟩
  cases l with
  | idle => exact trivial
  | opening index cell seq => exact ⟨h.1, hfresh h.1 h.2⟩
  | writing index cell seq left =>
    obtain ⟨hu, hf, hseq, hcopied⟩ := h
    have hslots := (hr.writer hu).1
    exact ⟨hu, hfresh hu hf, hslots ▸ hseq, hslots ▸ hcopied⟩
  | reading index seq left got =>
    obtain ⟨cell, hcell, hcopied⟩ := h
    exact ⟨cell, hr.published _ hcell, fun hseq => hcopied (hr.gone _ hcell hseq)⟩

section
variable {t u : Option R} {g g' : Memory} {l l' : Local}

/-- **No step interferes.** -/
theorem Move.rely (hmove : Move t g l l' g') (hinv : Inv g) (h : Asserts t l g) (hu : u ≠ t) :
    Rely u g g' := by
  cases hmove with
  | stay | load | fetch | abandon | confirm => exact .of_eq rfl rfl fun _ => rfl
  | begin index cell ht => exact .of_eq rfl rfl fun hnone => absurd (hnone.trans ht.symm) hu
  | free index ht =>
    refine ⟨fun _ hp => hp, fun p hp hseq => ?_, fun hnone => absurd (hnone.trans ht.symm) hu⟩
    by_cases hi : p.2.1 = index
    · rw [hi, setSeq_self] at hseq
      exact absurd hseq.symm (hinv.stable p hp).ne_zero
    · rwa [setSeq_of_ne g _ hi] at hseq
  | «open» index cell seq =>
    obtain ⟨ht, hfresh⟩ := h
    refine ⟨fun _ hp => hp, fun p hp hseq => ?_, fun hnone => absurd (hnone.trans ht.symm) hu⟩
    by_cases hi : p.2.1 = index
    · rw [hi, setSeq_self] at hseq
      exact absurd hseq.symm (hfresh.stable.ne_pred (hinv.stable p hp))
    · rwa [setSeq_of_ne g _ hi] at hseq
  | store index cell seq f left =>
    obtain ⟨ht, -⟩ := h
    refine ⟨fun _ hp => hp, fun p hp hseq => ?_, fun hnone => absurd (hnone.trans ht.symm) hu⟩
    rwa [setCell_seq] at hseq
  | publish index cell seq =>
    obtain ⟨ht, hfresh, -⟩ := h
    refine ⟨fun _ hp => List.mem_cons_of_mem _ hp, fun p hp hseq => ?_,
      fun hnone => absurd (hnone.trans ht.symm) hu⟩
    by_cases hi : p.2.1 = index
    · rw [hi] at hseq
      exact absurd ((congrArg Slot.seq (setSeq_self g index seq)).symm.trans hseq).symm
        (hfresh.unpublished p hp)
    · have hsame := setSeq_of_ne g seq hi
      exact (congrArg Slot.seq hsame).symm.trans hseq

theorem Move.writes_le (hmove : Move t g l l' g') : g.writes ≤ g'.writes := by
  cases hmove with
  | begin => exact Nat.le_succ _
  | stay | load | fetch | abandon | confirm | free | «open» | store | publish => exact le_rfl

/-- The number that leaves a slot is not stable any more. -/
theorem Inv.setSeq (h : Inv g) (index : ℕ) {seq : BitVec 64} (hseq : ¬Stable seq) :
    Inv (g.setSeq index seq) := by
  refine ⟨h.counter, h.numbered, h.stable, h.distinct, fun i hi => ?_, h.live⟩
  by_cases hii : i = index
  · rw [hii, setSeq_self] at hi
    exact absurd hi hseq
  · rw [setSeq_of_ne g seq hii] at hi ⊢
    exact h.holds i hi

theorem Move.inv (hmove : Move t g l l' g') (hinv : Inv g) (h : Asserts t l g) : Inv g' := by
  cases hmove with
  | stay | load | fetch | abandon => exact hinv
  | begin index cell ht =>
    refine ⟨?_, fun p hp => ?_, hinv.stable, hinv.distinct, hinv.holds, hinv.live⟩
    · show g.aggregateWriteSeq + 2 = number (g.writes + 1)
      rw [hinv.counter, number_succ]
    · obtain ⟨n, hn, hp⟩ := hinv.numbered p hp
      exact ⟨n, Nat.lt_succ_of_lt hn, hp⟩
  | free index ht => exact hinv.setSeq index fun hzero => hzero.ne_zero rfl
  | «open» index cell seq =>
    obtain ⟨-, hfresh⟩ := h
    refine hinv.setSeq index fun hpred => ?_
    exact hfresh.stable.ne_pred hpred rfl
  | store index cell seq f left =>
    obtain ⟨-, hfresh, hseq, -⟩ := h
    refine ⟨hinv.counter, hinv.numbered, hinv.stable, hinv.distinct, fun i hi => ?_, hinv.live⟩
    rw [setCell_seq] at hi
    by_cases hii : i = index
    · rw [hii, hseq] at hi
      exact absurd rfl (hfresh.stable.ne_pred hi)
    · rw [setCell_of_ne g _ hii]
      exact hinv.holds i hi
  | publish index cell seq =>
    obtain ⟨-, hfresh, -, hcopied⟩ := h
    refine ⟨hinv.counter, ?_, ?_, ?_, fun i hi => ?_, fun p hp => ?_⟩
    · rintro p hp
      rcases List.mem_cons.1 hp with rfl | hp
      · exact hfresh.numbered
      · exact hinv.numbered p hp
    · rintro p hp
      rcases List.mem_cons.1 hp with rfl | hp
      · exact hfresh.stable
      · exact hinv.stable p hp
    · rintro p hp q hq hpq
      rcases List.mem_cons.1 hp with rfl | hp <;> rcases List.mem_cons.1 hq with rfl | hq
      · rfl
      · exact absurd hpq.symm (hfresh.unpublished q hq)
      · exact absurd hpq (hfresh.unpublished p hp)
      · exact hinv.distinct p hp q hq hpq
    · dsimp only at hi ⊢
      by_cases hii : i = index
      · rw [hii, setSeq_self, hcopied.eq]
        exact List.mem_cons_self
      · rw [setSeq_of_ne g seq hii] at hi ⊢
        exact List.mem_cons_of_mem _ (hinv.holds i hi)
    · obtain ⟨s, hs⟩ := hinv.live p hp
      exact ⟨s, List.mem_cons_of_mem _ hs⟩
  | confirm index seq got hseq =>
    obtain ⟨cell, hcell, hcopied⟩ := h
    refine ⟨hinv.counter, hinv.numbered, hinv.stable, hinv.distinct, hinv.holds, fun p hp => ?_⟩
    rcases List.mem_cons.1 hp with rfl | hp
    · rw [← (hcopied hseq).eq] at hcell
      exact ⟨seq, hcell⟩
    · exact hinv.live p hp

theorem Move.asserts (hmove : Move t g l l' g') (hinv : Inv g) (h : Asserts t l g)
    (hbound : g'.writes < 2 ^ 63) : Asserts t l' g' := by
  cases hmove with
  | stay => exact h
  | free | publish | confirm | abandon => exact trivial
  | begin index cell ht =>
    have hlt : g.writes < 2 ^ 63 - 1 := Nat.lt_sub_of_add_lt hbound
    refine ⟨ht, ?_, ⟨g.writes, Nat.lt_succ_self _, hinv.counter⟩, fun p hp heq => ?_⟩
    · rw [hinv.counter]
      exact stable_number hlt
    · obtain ⟨n, hn, hpn⟩ := hinv.numbered p hp
      rw [hpn, hinv.counter] at heq
      exact hn.ne (number_inj (hn.trans hlt) hlt heq)
  | load index hseq heven =>
    exact ⟨_, hinv.holds index (.of_load hseq heven), fun _ =>
      copied_of_forall AggregateCell.mem_readOrder⟩
  | «open» index cell seq =>
    obtain ⟨ht, hfresh⟩ := h
    exact ⟨ht, ⟨hfresh.stable, hfresh.numbered, hfresh.unpublished⟩,
      congrArg Slot.seq (setSeq_self g index _), copied_of_forall AggregateCell.mem_writeOrder⟩
  | store index cell seq f left =>
    obtain ⟨ht, hfresh, hseq, hcopied⟩ := h
    refine ⟨ht, ⟨hfresh.stable, hfresh.numbered, hfresh.unpublished⟩, ?_, ?_⟩
    · rw [setCell_seq, hseq]
    · rw [setCell_self]
      exact hcopied.copy
  | fetch index seq f left got =>
    obtain ⟨cell, hcell, hcopied⟩ := h
    refine ⟨cell, hcell, fun hseq => ?_⟩
    -- the number is still there, so the slot holds the cell published under it
    have hheld := hinv.holds index (hseq ▸ hinv.stable _ hcell)
    have heq := hinv.distinct _ hheld _ hcell hseq
    simp only [Prod.mk.injEq] at heq
    rw [heq.2.2]
    exact (hcopied hseq).copy

end

/-! ## Runs -/

theorem holds_new : Holds Inv Asserts (⟨fun _ => .idle, .new⟩ : Config (Option R) Local Memory) := by
  refine ⟨⟨rfl, nofun, nofun, nofun, fun index h => absurd rfl h.ne_zero, nofun⟩, fun _ => trivial⟩

theorem holds_step [DecidableEq R] (c : Config (Option R) Local Memory) (e : Option R × Input)
    (h : Holds Inv Asserts c) (hbound : (step next c e).shared.writes < 2 ^ 63) :
    Holds Inv Asserts (step next c e) := by
  have hmove := next_move e.1 e.2 (c.locals e.1) c.shared
  have hown := h.thread e.1
  exact h.step rfl (hmove.inv h.shared hown) (hmove.asserts h.shared hown hbound)
    fun u hu hthread => hthread.rely (hmove.rely h.shared hown hu)

/-- **Readers see whole cells.**  With a single writer that makes fewer than 2^63 writes, in any
    interleaving, what a read of a slot reports as live is a cell that the writer published in
    that slot. -/
theorem live_reads_published [DecidableEq R] (schedule : List (Option R × Input))
    (hbound : (run next ⟨fun _ => .idle, .new⟩ schedule).shared.writes < 2 ^ 63) :
    let c := run next ⟨fun _ => .idle, .new⟩ schedule
    ∀ index cell, (index, cell) ∈ c.shared.live → ∃ seq, (seq, index, cell) ∈ c.shared.published := by
  intro c index cell hlive
  have hback : ∀ (c : Config (Option R) Local Memory) (e : Option R × Input),
      (step next c e).shared.writes < 2 ^ 63 → c.shared.writes < 2 ^ 63 := fun c e =>
    (next_move e.1 e.2 (c.locals e.1) c.shared).writes_le.trans_lt
  have halong := (along_of_final (B := fun c => Memory.writes c.shared < 2 ^ 63) hback hbound).2
  have h : Holds Inv Asserts c := halong.run holds_step holds_new
  exact h.shared.live (index, cell) hlive

/-- A cell is written over while it is read: the first read reports nothing, the second one the
    new cell. -/
theorem live_reads_published_overlap :
    let old : AggregateCell := ⟨1, 2, 3, 4, 0⟩
    let new : AggregateCell := ⟨5, 6, 7, 8, 0⟩
    let schedule : List (Option Unit × Input) :=
      (none, .write 0 old) :: List.replicate 9 (none, .go) ++
        (some (), .read 0) :: List.replicate 3 (some (), .go) ++
        (none, .write 0 new) :: List.replicate 9 (none, .go) ++
        List.replicate 5 (some (), .go) ++
        (some (), .read 0) :: List.replicate 8 (some (), .go)
    let c := run next ⟨fun _ => .idle, .new⟩ schedule
    c.shared.live = [(0, new)] ∧ ∃ seq, (seq, 0, new) ∈ c.shared.published := by
  intro old new schedule c
  have hlive : c.shared.live = [(0, new)] := by decide +kernel
  have hwrites : c.shared.writes = 2 := by decide +kernel
  refine ⟨hlive, live_reads_published schedule (hwrites ▸ by decide) 0 new ?_⟩
  rw [show (run next ⟨fun _ => .idle, .new⟩ schedule).shared.live = [(0, new)] from hlive]
  exact List.mem_singleton_self _

/-! ## One thread alone

A call during which no other thread steps is that of `ShmTable`. -/

/-- The memory holds the table. -/
structure Models (g : Memory) (table : ShmTable) : Prop where
  slots : ∀ index, g.slots index =
    ⟨BitVec.ofNat 64 (table.slots index).seq, (table.slots index).cell⟩
  writeSeq : g.aggregateWriteSeq = BitVec.ofNat 64 table.aggregateWriteSeq

section
variable {g : Memory} {table : ShmTable} {t : Option R} {index : ℕ} {cell got : AggregateCell}
  {seq : BitVec 64} {left : List CellWord}

theorem setCell_setCell (g : Memory) (index : ℕ) (cell cell' : AggregateCell) :
    (g.setCell index cell).setCell index cell' = g.setCell index cell' := by
  simp only [Memory.setCell, update_self, update_idem]

theorem solo_writing (h : Copied left cell (g.slots index).cell) :
    Solo next t (.writing index cell seq left, g)
      (.writing index cell seq [], g.setCell index cell) := by
  induction left generalizing g with
  | nil =>
    have hself : g.setCell index cell = g := by simp [Memory.setCell, ← h.eq]
    rw [hself]
    exact .refl
  | cons f left ih =>
    refine .head .go ?_
    rw [← setCell_setCell g index (cell.copy f _) cell]
    refine ih ?_
    show Copied left cell (update g.slots index _ index).cell
    rw [update_self]
    exact h.copy

theorem solo_reading (h : Copied left (g.slots index).cell got) :
    Solo next t (.reading index seq left got, g) (.reading index seq [] (g.slots index).cell, g) := by
  induction left generalizing got with
  | nil =>
    rw [← h.eq]
    exact .refl
  | cons f left ih => exact .head .go (ih h.copy)

theorem Models.write (h : Models g table) (index : ℕ) (cell : AggregateCell) : ∃ g',
    Solo next (none : Option R) (.idle, g) (.idle, g') ∧ Models g' (table.write index cell) := by
  have hwrite : Solo next (none : Option R) (.idle, g) (.idle, _) :=
    .head (.write index cell) (.head .go ((solo_writing (copied_of_forall
      AggregateCell.mem_writeOrder)).trans (.head .go .refl)))
  refine ⟨_, hwrite, fun i => ?_, ?_⟩
  · by_cases hi : i = index
    · subst hi
      simp [Memory.setSeq, Memory.setCell, ShmTable.write, h.writeSeq]
    · simp [Memory.setSeq, Memory.setCell, ShmTable.write, hi, h.slots]
  · show g.aggregateWriteSeq + 2 = _
    rw [h.writeSeq]
    exact (BitVec.ofNat_add ..).symm

theorem Models.read (h : Models g table) (t : Option R) (hseq : (table.slots index).seq < 2 ^ 64) :
    ∃ g', Solo next t (.idle, g) (.idle, g') ∧ Models g' table ∧
      g'.live = match (table.slots index).read with
        | .live cell => (index, cell) :: g.live
        | .empty | .busy => g.live := by
  have hnat : (g.slots index).seq.toNat = (table.slots index).seq := by
    rw [h.slots, BitVec.toNat_ofNat, Nat.mod_eq_of_lt hseq]
  have hzero : (g.slots index).seq = 0 ↔ (table.slots index).seq = 0 := by
    rw [← BitVec.toNat_inj, hnat]
    rfl
  have hodd : (g.slots index).seq &&& 1 = 1 ↔ (table.slots index).seq % 2 = 1 := by
    rw [and_one_eq_one_iff, hnat]
  have hload : Solo next t (.idle, g) (next t (.read index) .idle g) := .head (.read index) .refl
  rw [AggregateSlot.read]
  simp only [next, hzero, hodd] at hload
  split_ifs at hload ⊢ with hempty hbusy
  · exact ⟨g, hload, h, rfl⟩
  · exact ⟨g, hload, h, rfl⟩
  · have hread := hload.trans (solo_reading (copied_of_forall AggregateCell.mem_readOrder))
    refine ⟨{ g with live := (index, (g.slots index).cell) :: g.live },
      hread.trans (.head .go ?_), ⟨h.slots, h.writeSeq⟩, by rw [h.slots]⟩
    rw [next, if_pos rfl]
    exact .refl

variable [DecidableEq R] {c : Config (Option R) Local Memory}

/-- **A write alone** is `ShmTable.write`. -/
theorem write_alone (ht : c.locals none = .idle) (h : Models c.shared table) (index : ℕ)
    (cell : AggregateCell) : ∃ (inputs : List Input) (g : Memory),
      run next c (inputs.map (none, ·)) = ⟨c.locals, g⟩ ∧ Models g (table.write index cell) := by
  obtain ⟨g, hsolo, hmodels⟩ := h.write (R := R) index cell
  obtain ⟨inputs, hrun⟩ := hsolo.exists_run_of_locals ht
  exact ⟨inputs, g, hrun, hmodels⟩

/-- **A read alone** is `AggregateSlot.read`. -/
theorem read_alone (ht : c.locals t = .idle) (h : Models c.shared table)
    (hseq : (table.slots index).seq < 2 ^ 64) : ∃ (inputs : List Input) (g : Memory),
      run next c (inputs.map (t, ·)) = ⟨c.locals, g⟩ ∧ Models g table ∧
        g.live = match (table.slots index).read with
          | .live cell => (index, cell) :: c.shared.live
          | .empty | .busy => c.shared.live := by
  obtain ⟨g, hsolo, hmodels, hlive⟩ := h.read t hseq
  obtain ⟨inputs, hrun⟩ := hsolo.exists_run_of_locals ht
  exact ⟨inputs, g, hrun, hmodels, hlive⟩

end

end Seqlock

end Nginx

end Gabion
