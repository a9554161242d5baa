/-
  Slots of the peer frontier, cached on peer entries (`handle_inbound`, `handle_peer_event` and
  `peer_frontier.rs`).

  A datagram interns its sender in the frontier table and caches node id and slot on the entry of
  its source address; when an entry leaves, its node is taken out of the table.  Entries and
  table together are the `Contacts` of a node, and `Contacts.Step` says once what an iteration
  can do to them.  The cached slots stay those of their nodes as long as no entry leaves whose
  node another entry carries (`cached_slots_valid_iff`); then the frames for a peer leave out what
  its own node has acknowledged.
-/
import Gabion.Inbound
import Gabion.Recycling

namespace Gabion

open Function

variable {w : CountWidth}

/-! ## The frontier table -/

/-- A `record_acked` call: a datagram of `sender` carried a cell of the origin in `nodeSlot`. -/
structure Ack where
  sender : NodeId
  nodeSlot : ℕ
  sequence : ℕ
deriving DecidableEq, Repr

def Ack.record (peerSlot : ℕ) (t : PeerFrontierTable) (a : Ack) : PeerFrontierTable :=
  t.recordAcked peerSlot a.nodeSlot a.sequence

namespace PeerFrontierTable

variable {t t' t'' : PeerFrontierTable} {i : NodeId} {slot n : ℕ} {log acks : List Ack}

/-- Every peer has at most one slot, which is a slot of the table. -/
structure Distinct (t : PeerFrontierTable) : Prop where
  lt : ∀ {slot i}, t.peerIds slot = some i → slot < t.peerCapacity
  inj : ∀ {slot slot' i}, t.peerIds slot = some i → t.peerIds slot' = some i → slot = slot'

theorem findPeer_some (h : t.findPeer i = some slot) : t.peerIds slot = some i := by
  have hslot := List.find?_some h
  simpa using hslot

theorem findPeer_none (h : t.findPeer i = none) (hlt : slot < t.peerCapacity) :
    t.peerIds slot ≠ some i := by
  have hnone := List.find?_eq_none.1 h slot (List.mem_range.2 hlt)
  simpa using hnone

theorem Distinct.findPeer (hd : t.Distinct) (h : t.peerIds slot = some i) :
    t.findPeer i = some slot := by
  cases hfind : t.findPeer i with
  | none => exact absurd h (findPeer_none hfind (hd.lt h))
  | some slot' => rw [hd.inj (findPeer_some hfind) h]

/-- Every sequence above zero was acknowledged by the peer of its row. -/
def Acknowledged (t : PeerFrontierTable) (log : List Ack) : Prop :=
  ∀ slot n, n < t.nodeCapacity → t.lastAcked slot n ≠ 0 →
    ∃ i, t.peerIds slot = some i ∧ ⟨i, n, t.lastAcked slot n⟩ ∈ log

/-! ### Columns that are cleared -/

/-- The table with some acknowledgements forgotten. -/
structure Kept (t t' : PeerFrontierTable) : Prop where
  peerIds : t'.peerIds = t.peerIds
  peerCapacity : t'.peerCapacity = t.peerCapacity
  nodeCapacity : t'.nodeCapacity = t.nodeCapacity
  acked : ∀ j, t'.lastAckedSeq j = t.lastAckedSeq j ∨ t'.lastAckedSeq j = 0

theorem Kept.refl (t : PeerFrontierTable) : Kept t t := ⟨rfl, rfl, rfl, fun _ => .inl rfl⟩

theorem Kept.trans (h : Kept t t') (h' : Kept t' t'') : Kept t t'' := by
  refine ⟨h'.peerIds.trans h.peerIds, h'.peerCapacity.trans h.peerCapacity,
    h'.nodeCapacity.trans h.nodeCapacity, fun j => ?_⟩
  rcases h'.acked j with hj | hj
  · rw [hj]
    exact h.acked j
  · exact .inr hj

theorem kept_clearNodeSlot (t : PeerFrontierTable) (o : ℕ) : Kept t (t.clearNodeSlot o) := by
  unfold clearNodeSlot
  generalize List.range t.peerCapacity = slots
  induction slots generalizing t with
  | nil => exact .refl t
  | cons p slots ih =>
    rw [List.foldl_cons]
    refine Kept.trans ?_ (ih _)
    refine ⟨rfl, rfl, rfl, fun j => ?_⟩
    rcases eq_or_ne j (t.flatIndex p o) with rfl | hne
    · exact .inr (update_self ..)
    · exact .inl (update_of_ne hne ..)

theorem Kept.distinct (h : Kept t t') (hd : t.Distinct) : t'.Distinct := by
  refine ⟨fun {slot i} hs => ?_, fun {slot slot' i} hs hs' => ?_⟩
  · rw [h.peerIds] at hs
    rw [h.peerCapacity]
    exact hd.lt hs
  · rw [h.peerIds] at hs hs'
    exact hd.inj hs hs'

theorem Kept.acknowledged (h : Kept t t') (ha : t.Acknowledged log) : t'.Acknowledged log := by
  intro slot n hn hne
  have hflat : t'.lastAcked slot n = t'.lastAckedSeq (t.flatIndex slot n) := by
    rw [lastAcked, flatIndex, flatIndex, h.nodeCapacity]
  have hsame : t'.lastAcked slot n = t.lastAcked slot n := by
    rcases h.acked (t.flatIndex slot n) with hj | hj
    · rw [hflat, hj]
      rfl
    · exact absurd (hflat.trans hj) hne
  rw [hsame] at hne ⊢
  rw [h.peerIds]
  exact ha slot n (h.nodeCapacity ▸ hn) hne

/-! ### Peers that come and go -/

/-- What `intern_peer` can do. -/
inductive Interned (t : PeerFrontierTable) (i : NodeId) : PeerFrontierTable → Option ℕ → Prop
  | known (slot : ℕ) (h : t.peerIds slot = some i) : Interned t i t (some slot)
  | fresh (slot : ℕ) (hlt : slot < t.peerCapacity) (hfree : t.peerIds slot = none)
      (hnew : ∀ slot < t.peerCapacity, t.peerIds slot ≠ some i) :
      Interned t i { t with peerIds := update t.peerIds slot (some i) } (some slot)
  | full : Interned t i { t with fullRejects := min (t.fullRejects + 1) u64Max } none

theorem internPeer_interned (t : PeerFrontierTable) (i : NodeId) :
    Interned t i (t.internPeer i).1 (t.internPeer i).2 := by
  unfold internPeer
  split
  · rename_i slot hfind
    exact .known slot (findPeer_some hfind)
  · rename_i hfind
    split
    · rename_i slot hfree
      have hlt := List.mem_range.1 (List.mem_of_find?_eq_some hfree)
      have hnone := List.find?_some hfree
      exact .fresh slot hlt (by simpa using hnone) fun slot' h' => findPeer_none hfind h'
    · exact .full

theorem Interned.registered (h : Interned t i t' (some slot)) : t'.peerIds slot = some i := by
  cases h with
  | known _ h => exact h
  | fresh => exact update_self ..

/-- The others keep their slots. -/
theorem Interned.others {o : Option ℕ} {j : NodeId} (h : Interned t i t' o)
    (hj : t.peerIds n = some j) : t'.peerIds n = some j := by
  cases h with
  | known => exact hj
  | full => exact hj
  | fresh slot hlt hfree hnew =>
    have hne : n ≠ slot := by
      rintro rfl
      rw [hfree] at hj
      cases hj
    exact (update_of_ne hne ..).trans hj

theorem Interned.distinct {o : Option ℕ} (h : Interned t i t' o) (hd : t.Distinct) :
    t'.Distinct := by
  cases h with
  | known => exact hd
  | full => exact ⟨hd.lt, hd.inj⟩
  | fresh slot hlt hfree hnew =>
    -- an id of the new table is the new one in its slot, or an old one in another
    have hids : ∀ {s j}, update t.peerIds slot (some i) s = some j →
        s = slot ∧ j = i ∨ s ≠ slot ∧ t.peerIds s = some j := by
      intro s j hs
      rcases eq_or_ne s slot with rfl | hne
      · rw [update_self] at hs
        exact .inl ⟨rfl, (Option.some.inj hs).symm⟩
      · rw [update_of_ne hne] at hs
        exact .inr ⟨hne, hs⟩
    refine ⟨fun {s j} hs => ?_, fun {s s' j} hs hs' => ?_⟩
    · rcases hids hs with ⟨rfl, -⟩ | ⟨-, hs⟩
      · exact hlt
      · exact hd.lt hs
    · rcases hids hs with ⟨hslot, hj⟩ | ⟨-, hs⟩ <;> rcases hids hs' with ⟨hslot', hj'⟩ | ⟨-, hs'⟩
      · exact hslot.trans hslot'.symm
      · exact absurd (hj ▸ hs') (hnew _ (hd.lt hs'))
      · exact absurd (hj' ▸ hs) (hnew _ (hd.lt hs))
      · exact hd.inj hs hs'

theorem Interned.nodeCapacity {o : Option ℕ} (h : Interned t i t' o) :
    t'.nodeCapacity = t.nodeCapacity := by
  cases h <;> rfl

theorem Interned.acknowledged {o : Option ℕ} (h : Interned t i t' o) (ha : t.Acknowledged log) :
    t'.Acknowledged log := by
  intro slot n hn hne
  rw [h.nodeCapacity] at hn
  have hsame : t'.lastAcked slot n = t.lastAcked slot n := by
    cases h <;> rfl
  rw [hsame] at hne ⊢
  obtain ⟨j, hj, hmem⟩ := ha slot n hn hne
  exact ⟨j, h.others hj, hmem⟩

theorem removePeer_of_registered (hd : t.Distinct) (h : t.peerIds slot = some i) :
    t.removePeer i = { t with
      peerIds := update t.peerIds slot none
      lastAckedSeq := zeroFrom t.lastAckedSeq (slot * t.nodeCapacity) t.nodeCapacity
      lastSentSeq := zeroFrom t.lastSentSeq (slot * t.nodeCapacity) t.nodeCapacity } := by
  rw [removePeer, hd.findPeer h]

/-- What `remove_peer` can do. -/
theorem removePeer_cases (hd : t.Distinct) (i : NodeId) :
    t.removePeer i = t ∧ (∀ slot, t.peerIds slot ≠ some i) ∨
      ∃ slot, t.peerIds slot = some i ∧ t.removePeer i = { t with
        peerIds := update t.peerIds slot none
        lastAckedSeq := zeroFrom t.lastAckedSeq (slot * t.nodeCapacity) t.nodeCapacity
        lastSentSeq := zeroFrom t.lastSentSeq (slot * t.nodeCapacity) t.nodeCapacity } := by
  cases hfind : t.findPeer i with
  | none =>
    refine .inl ⟨by rw [removePeer, hfind], fun slot hslot => ?_⟩
    exact findPeer_none hfind (hd.lt hslot) hslot
  | some slot =>
    have hslot := findPeer_some hfind
    exact .inr ⟨slot, hslot, removePeer_of_registered hd hslot⟩

/-- The ids after a removal: those of the other peers. -/
theorem removePeer_peerIds (hd : t.Distinct) {j : NodeId} :
    (t.removePeer i).peerIds n = some j ↔ t.peerIds n = some j ∧ j ≠ i := by
  rcases removePeer_cases hd i with ⟨he, habsent⟩ | ⟨slot, hslot, he⟩
  · rw [he]
    refine ⟨fun h => ⟨h, ?_⟩, And.left⟩
    rintro rfl
    exact habsent n h
  · rw [he]
    dsimp only
    rcases eq_or_ne n slot with rfl | hne
    · simp [hslot, eq_comm]
    · rw [update_of_ne hne]
      refine ⟨fun h => ⟨h, ?_⟩, And.left⟩
      rintro rfl
      exact hne (hd.inj h hslot)

theorem removePeer_distinct (hd : t.Distinct) (i : NodeId) : (t.removePeer i).Distinct := by
  have hcap : (t.removePeer i).peerCapacity = t.peerCapacity := by
    unfold removePeer
    split <;> rfl
  refine ⟨fun {slot j} hs => ?_, fun {slot slot' j} hs hs' => ?_⟩
  · rw [hcap]
    exact hd.lt ((removePeer_peerIds hd).1 hs).1
  · exact hd.inj ((removePeer_peerIds hd).1 hs).1 ((removePeer_peerIds hd).1 hs').1

/-- The row of a removed peer is forgotten, the other rows stay. -/
theorem removePeer_acknowledged (hd : t.Distinct) (ha : t.Acknowledged log) (i : NodeId) :
    (t.removePeer i).Acknowledged log := by
  rcases removePeer_cases hd i with ⟨he, -⟩ | ⟨slot, hslot, he⟩
  · rw [he]
    exact ha
  rw [he]
  intro p n hn hne
  have hrow : p ≠ slot := by
    rintro rfl
    refine hne (if_pos ⟨Nat.le_add_right .., ?_⟩)
    exact Nat.add_lt_add_left hn _
  have hsame : zeroFrom t.lastAckedSeq (slot * t.nodeCapacity) t.nodeCapacity (t.flatIndex p n) =
      t.lastAckedSeq (t.flatIndex p n) := by
    refine if_neg fun hin => hrow ?_
    have hdiv : (p * t.nodeCapacity + n) / t.nodeCapacity = p := by
      rw [Nat.mul_comm, Nat.mul_add_div (Nat.zero_lt_of_lt hn), Nat.div_eq_of_lt hn, Nat.add_zero]
    have hbounds : (p * t.nodeCapacity + n) / t.nodeCapacity = slot :=
      Nat.div_eq_of_lt_le hin.1 (by rw [Nat.add_mul, Nat.one_mul]; exact hin.2)
    exact hdiv.symm.trans hbounds
  have hold : t.lastAcked p n ≠ 0 := fun hz => hne (hsame.trans hz)
  obtain ⟨j, hj, hmem⟩ := ha p n hn hold
  refine ⟨j, (update_of_ne hrow ..).trans hj, ?_⟩
  show (⟨j, n, zeroFrom _ _ _ (t.flatIndex p n)⟩ : Ack) ∈ log
  rw [hsame]
  exact hmem

/-! ### Acknowledgements -/

theorem recordAcked_acknowledged {sequence : ℕ} (ha : t.Acknowledged log)
    (hslot : t.peerIds slot = some i) (hn : n < t.nodeCapacity) :
    (t.recordAcked slot n sequence).Acknowledged (log ++ [⟨i, n, sequence⟩]) := by
  intro p m hm hne
  replace hm : m < t.nodeCapacity := hm
  have hold : t.lastAcked p m ≠ 0 → (t.recordAcked slot n sequence).lastAcked p m = t.lastAcked p m →
      ∃ j, t.peerIds p = some j ∧ (⟨j, m, (t.recordAcked slot n sequence).lastAcked p m⟩ : Ack) ∈
        log ++ [⟨i, n, sequence⟩] := by
    intro hold hsame
    obtain ⟨j, hj, hmem⟩ := ha p m hm hold
    rw [hsame]
    exact ⟨j, hj, List.mem_append_left _ hmem⟩
  have hraise : (t.recordAcked slot n sequence).lastAcked p m =
      raise t.lastAckedSeq (t.flatIndex slot n) sequence (t.flatIndex p m) := rfl
  unfold raise at hraise
  split_ifs at hraise with hlt
  · by_cases hsame : p = slot ∧ m = n
    · obtain ⟨rfl, rfl⟩ := hsame
      rw [update_self] at hraise
      rw [hraise]
      exact ⟨i, hslot, List.mem_append_right _ (List.mem_singleton.2 rfl)⟩
    · rw [update_of_ne fun he => hsame ((flatIndex_inj hm hn).1 he)] at hraise
      exact hold (fun hz => hne (hraise.trans hz)) hraise
  · exact hold (fun hz => hne (hraise.trans hz)) hraise

theorem records_peerIds (acks : List Ack) (t : PeerFrontierTable) (slot : ℕ) :
    (acks.foldl (Ack.record slot) t).peerIds = t.peerIds ∧
      (acks.foldl (Ack.record slot) t).peerCapacity = t.peerCapacity := by
  induction acks generalizing t with
  | nil => exact ⟨rfl, rfl⟩
  | cons a acks ih => exact ih (a.record slot t)

theorem records_distinct (acks : List Ack) (hd : t.Distinct) :
    (acks.foldl (Ack.record slot) t).Distinct := by
  obtain ⟨hids, hcap⟩ := records_peerIds acks t slot
  refine ⟨fun {s j} hs => ?_, fun {s s' j} hs hs' => ?_⟩
  · rw [hids] at hs
    rw [hcap]
    exact hd.lt hs
  · rw [hids] at hs hs'
    exact hd.inj hs hs'

theorem records_acknowledged (ha : t.Acknowledged log) (hslot : t.peerIds slot = some i)
    (hacks : ∀ a ∈ acks, a.sender = i ∧ a.nodeSlot < t.nodeCapacity) :
    (acks.foldl (Ack.record slot) t).Acknowledged (log ++ acks) := by
  induction acks generalizing t log with
  | nil => rwa [List.append_nil]
  | cons a acks ih =>
    obtain ⟨hsender, hlt⟩ := hacks a (List.mem_cons_self ..)
    have hone : (a.record slot t).Acknowledged (log ++ [⟨i, a.nodeSlot, a.sequence⟩]) :=
      recordAcked_acknowledged ha hslot hlt
    have hall := ih hone hslot fun b hb => hacks b (List.mem_cons_of_mem _ hb)
    rwa [List.append_assoc, ← hsender] at hall

end PeerFrontierTable

/-! ## Store calls -/

namespace CellStore

open PeerFrontierTable (Kept kept_clearNodeSlot)

variable {pins : ℕ → Bool} {s s' : CellStore w}

theorem RowRun.frontiers {fp : Fingerprint} {id : NodeIdentity} {res : RowResult}
    (h : s.toCellTable.Inv pins) (hr : RowRun s fp id s' res) : s'.peerFrontiers = s.peerFrontiers := by
  cases hr with
  | ruleFull ht => exact (translateRule_still ht).2
  | nodeFull ht hn =>
    have hg := (translateRule_some h ht).1
    exact (internNode_still hg.inv hn).2.trans (translateRule_still ht).2
  | upserted kh b ht hn hu =>
    have hg := (translateRule_some h ht).1
    have hids := (internNode_still hg.inv hn).2.trans (translateRule_still ht).2
    cases hu with
    | full => exact hids
    | same => exact hids
    | raised => exact (announced_peerFrontiers ..).trans hids
    | placed => exact (announced_peerFrontiers ..).trans hids

theorem Freed.frontiers {x : ℕ} (h : Freed s s' x) : Kept s.peerFrontiers s'.peerFrontiers := by
  rcases h.node with ⟨-, -, he⟩ | ⟨-, -, he⟩
  · rw [he]
    exact .refl _
  · rw [he]
    exact kept_clearNodeSlot _ _

/-- No step but a direct write does more to the frontiers than clear columns. -/
theorem step_frontiers (h : s.toCellTable.Inv pins) (st : StoreStep w)
    (hset : ∀ t, st ≠ .setFrontiers t) : Kept s.peerFrontiers (s.step st).peerFrontiers := by
  have hsame : ∀ {t : PeerFrontierTable}, t = s.peerFrontiers → Kept s.peerFrontiers t :=
    fun he => he ▸ .refl _
  cases st with
  | internRule d =>
    refine hsame ?_
    show (s.internRule d).1.peerFrontiers = _
    unfold internRule
    dsimp only
    split <;> rfl
  | internNode id => exact hsame (internNode_still h (Prod.mk.eta (p := s.internNode id)).symm).2
  | ingestRow obs => exact hsame ((ingestRow_runs h obs []).frontiers h)
  | mergeRow obs => exact hsame ((mergeRow_runs h obs []).frontiers h)
  | expireSlot cur live x =>
    show Kept _ (expireStep cur live (s, []) x).1.peerFrontiers
    unfold expireStep
    dsimp only
    split_ifs with hx
    · exact (freeCellAt_freed h (Bool.and_eq_true_iff.1 hx).1).frontiers
    · exact .refl _
  | clearSlot x =>
    show Kept _ (if s.isActive x then s.freeCellAt x else s).peerFrontiers
    split_ifs with hx
    · exact (freeCellAt_freed h hx).frontiers
    · exact .refl _
  | clearDirty => exact .refl _
  | resetSelection => exact .refl _
  | fillFrame maxCells dest =>
    refine hsame ?_
    show (s.fillFrameFor maxCells dest).1.peerFrontiers = _
    rw [fillFrameFor_eq]
    exact (sameData_fillFrame s _ maxCells).peerFrontiers
  | visitRepairSlice maxCells visit => exact hsame (sameData_visitRepairSlice s maxCells visit).peerFrontiers
  | setFrontiers table => exact absurd rfl (hset table)

theorem runSteps_frontiers (h : s.toCellTable.Inv pins) (steps : List (StoreStep w))
    (hset : ∀ t, .setFrontiers t ∉ steps) : Kept s.peerFrontiers (s.runSteps steps).peerFrontiers := by
  induction steps generalizing s pins with
  | nil => exact .refl _
  | cons st steps ih =>
    have hfirst := step_frontiers h st fun t e => hset t (e ▸ List.mem_cons_self ..)
    exact hfirst.trans (ih (step_spec h st).inv fun t ht => hset t (List.mem_cons_of_mem _ ht))

theorem run_frontiers (h : s.toCellTable.Inv pins) (calls : List (StoreCall w))
    (hcalls : ∀ f, .frontier f ∉ calls) : Kept s.peerFrontiers (s.run calls).peerFrontiers := by
  rw [run_eq_steps]
  refine runSteps_frontiers h _ fun t ht => ?_
  obtain ⟨f, hf⟩ := setFrontiers_mem_stepsOf ht
  exact hcalls f hf

/-- The cells in use have sequences above zero. -/
def Numbered (s : CellStore w) : Prop := ∀ x, s.isActive x = true → 0 < (s.cells x).originSequence

theorem nextSequence_pos (s : CellStore w) (origin : ℕ) : 0 < s.nextSequence origin :=
  lt_min (Nat.succ_pos _) (by decide)

theorem Change.numbered {entry : Option DirtyEntry} (hc : Change s s' entry) (hn : Numbered s) :
    Numbered s' := by
  intro y hy
  cases hc with
  | still h =>
    rw [h.isActive] at hy
    rw [h.cells]
    exact hn y hy
  | announced x h =>
    rcases eq_or_ne y x with rfl | hne
    · rw [h.sequence]
      exact nextSequence_pos s _
    · rw [CellTable.isActive, h.generations y hne] at hy
      rw [h.cells y hne]
      exact hn y hy
  | freed x h =>
    rcases eq_or_ne y x with rfl | hne
    · rw [h.inactive] at hy
      cases hy
    · rw [CellTable.isActive, h.generations, update_of_ne hne] at hy
      rw [h.cells]
      exact hn y hy

theorem Reachable.numbered (h : s.Reachable) : Numbered s := by
  obtain ⟨config, id, s₀, calls, hnew, rfl⟩ := h
  obtain ⟨hi, -, hact, -⟩ := new_spec hnew
  rw [run_eq_steps]
  refine runSteps_induct (fun s pins st h hn => ?_) hi (fun x hx => ?_) _
  · by_cases hclear : st = .clearDirty
    · subst hclear
      exact hn
    by_cases hset : ∃ t, st = .setFrontiers t
    · obtain ⟨t, rfl⟩ := hset
      exact hn
    · exact (step_change h st hclear fun t ht => hset ⟨t, ht⟩).numbered hn
  · rw [hact] at hx
    cases hx

end CellStore

/-! ## Entries and table -/

/-- What a node knows of its peers. -/
structure Contacts where
  peers : List Peer
  frontiers : PeerFrontierTable

namespace Contacts

open PeerFrontierTable (Kept)

variable {c c' : Contacts} {log acks : List Ack} {departing : Option SocketAddr}

/-- **Every cached slot is that of its node.** -/
def Valid (c : Contacts) : Prop :=
  ∀ p ∈ c.peers, ∀ i slot, p.nodeId = some i → p.peerSlot = some slot →
    c.frontiers.peerIds slot = some i

/-- The node of the entry that leaves is carried by no other entry. -/
def SoleDeparture (c : Contacts) (departing : Option SocketAddr) : Prop :=
  ∀ addr ∈ departing, ∀ removed, c.peers.find? (fun p => p.addr = addr) = some removed →
    ∀ i, removed.nodeId = some i → ∀ p ∈ c.peers.eraseP (fun p => p.addr = addr), p.nodeId ≠ some i

/-- **What an iteration can do** to entries and table, with the address that leaves and the
    acknowledgements recorded. -/
inductive Step (c : Contacts) : Option SocketAddr → Contacts → List Ack → Prop
  | idle {c' : Contacts} (hperm : c'.peers.Perm c.peers) (hkept : Kept c.frontiers c'.frontiers) :
      Step c none c' []
  | heard {t t' : PeerFrontierTable} {i : NodeId} {slot : ℕ} {acks : List Ack} (src : SocketAddr)
      (hkept : Kept c.frontiers t) (hintern : t.Interned i t' (some slot))
      (hacks : ∀ a ∈ acks, a.sender = i ∧ a.nodeSlot < t'.nodeCapacity) :
      Step c none ⟨Runtime.cachePeer src i slot c.peers, acks.foldl (Ack.record slot) t'⟩ acks
  | added (addr : SocketAddr) :
      Step c none ⟨c.peers ++ [{ addr, nodeId := none, peerSlot := none }], c.frontiers⟩ []
  | unknown {addr : SocketAddr} (hfind : c.peers.find? (fun p => p.addr = addr) = none) :
      Step c (some addr) c []
  | left {addr : SocketAddr} {removed : Peer}
      (hfind : c.peers.find? (fun p => p.addr = addr) = some removed) :
      Step c (some addr) ⟨c.peers.eraseP fun p => p.addr = addr,
        removed.nodeId.elim c.frontiers c.frontiers.removePeer⟩ []

/-- What holds whether the slots are valid or not. -/
structure Tracked (c : Contacts) (log : List Ack) : Prop where
  distinct : c.frontiers.Distinct
  together : ∀ p ∈ c.peers, p.nodeId.isSome = p.peerSlot.isSome
  acked : c.frontiers.Acknowledged log

theorem mem_cachePeer {src : SocketAddr} {i : NodeId} {slot : ℕ} {p : Peer} :
    ∀ {peers : List Peer}, p ∈ Runtime.cachePeer src i slot peers →
      p ∈ peers ∨ p.nodeId = some i ∧ p.peerSlot = some slot
  | [], h => .inl h
  | q :: peers, h => by
    unfold Runtime.cachePeer at h
    split_ifs at h
    · rcases List.mem_cons.1 h with rfl | h
      · exact .inr ⟨rfl, rfl⟩
      · exact .inl (List.mem_cons_of_mem _ h)
    · rcases List.mem_cons.1 h with rfl | h
      · exact .inl (List.mem_cons_self ..)
      · exact (mem_cachePeer h).imp_left (List.mem_cons_of_mem _)

theorem Step.tracked (h : Step c departing c' acks) (ht : c.Tracked log) :
    c'.Tracked (log ++ acks) := by
  cases h with
  | idle hperm hkept =>
    rw [List.append_nil]
    exact ⟨hkept.distinct ht.distinct, fun p hp => ht.together p (hperm.mem_iff.1 hp),
      hkept.acknowledged ht.acked⟩
  | heard src hkept hintern hacks =>
    have hd := hintern.distinct (hkept.distinct ht.distinct)
    have ha := hintern.acknowledged (hkept.acknowledged ht.acked)
    refine ⟨PeerFrontierTable.records_distinct acks hd, fun p hp => ?_,
      PeerFrontierTable.records_acknowledged ha hintern.registered hacks⟩
    rcases mem_cachePeer hp with hp | ⟨hi, hs⟩
    · exact ht.together p hp
    · rw [hi, hs]
      rfl
  | added addr =>
    rw [List.append_nil]
    refine ⟨ht.distinct, fun p hp => ?_, ht.acked⟩
    rcases List.mem_append.1 hp with hp | hp
    · exact ht.together p hp
    · rw [List.mem_singleton.1 hp]
      rfl
  | unknown hfind =>
    rw [List.append_nil]
    exact ht
  | left hfind =>
    rename_i addr removed
    rw [List.append_nil]
    have hsub : ∀ p ∈ c.peers.eraseP (fun p => p.addr = addr), p.nodeId.isSome = p.peerSlot.isSome :=
      fun p hp => ht.together p (List.mem_of_mem_eraseP hp)
    cases removed.nodeId with
    | none => exact ⟨ht.distinct, hsub, ht.acked⟩
    | some i =>
      exact ⟨PeerFrontierTable.removePeer_distinct ht.distinct i, hsub,
        PeerFrontierTable.removePeer_acknowledged ht.distinct ht.acked i⟩

theorem soleDeparture_none : c.SoleDeparture none := by
  rintro addr ⟨⟩

theorem soleDeparture_unknown {addr : SocketAddr}
    (hfind : c.peers.find? (fun p => p.addr = addr) = none) : c.SoleDeparture (some addr) := by
  rintro addr' ⟨⟩ removed hremoved
  rw [hfind] at hremoved
  cases hremoved

theorem soleDeparture_iff {addr : SocketAddr} {removed : Peer}
    (hfind : c.peers.find? (fun p => p.addr = addr) = some removed) :
    c.SoleDeparture (some addr) ↔ ∀ i, removed.nodeId = some i →
      ∀ p ∈ c.peers.eraseP (fun p => p.addr = addr), p.nodeId ≠ some i := by
  refine ⟨fun h => h addr rfl removed hfind, ?_⟩
  rintro h addr' ⟨⟩ removed' hremoved
  rw [hfind] at hremoved
  cases hremoved
  exact h

/-- Entries that outlive a node's row in the table stay valid exactly if none is of that node. -/
theorem removePeer_valid_iff {peers : List Peer} (ht : c.Tracked log) (hv : c.Valid)
    (hmem : ∀ p ∈ peers, p ∈ c.peers) (i : NodeId) :
    Valid ⟨peers, c.frontiers.removePeer i⟩ ↔ ∀ p ∈ peers, p.nodeId ≠ some i := by
  constructor
  · intro hv' p hp hpi
    -- the entry left behind still has the slot, the table no longer has the node
    have hslot : p.peerSlot.isSome := by
      rw [← ht.together p (hmem p hp), hpi]
      rfl
    obtain ⟨slot, hslot⟩ := Option.isSome_iff_exists.1 hslot
    have hafter := hv' p hp i slot hpi hslot
    exact ((PeerFrontierTable.removePeer_peerIds ht.distinct).1 hafter).2 rfl
  · intro hsole p hp j slot hj hs
    have hbefore := hv p (hmem p hp) j slot hj hs
    refine (PeerFrontierTable.removePeer_peerIds ht.distinct).2 ⟨hbefore, ?_⟩
    rintro rfl
    exact hsole p hp hj

/-- **A step keeps the slots valid exactly if the node that leaves is carried by no other
    entry.** -/
theorem Step.valid_iff (h : Step c departing c' acks) (ht : c.Tracked log) (hv : c.Valid) :
    c'.Valid ↔ c.SoleDeparture departing := by
  cases h with
  | idle hperm hkept =>
    refine iff_of_true (fun p hp i slot hi hs => ?_) soleDeparture_none
    rw [hkept.peerIds]
    exact hv p (hperm.mem_iff.1 hp) i slot hi hs
  | heard src hkept hintern hacks =>
    refine iff_of_true (fun p hp j slot' hj hs => ?_) soleDeparture_none
    rw [(PeerFrontierTable.records_peerIds acks _ _).1]
    rcases mem_cachePeer hp with hp | ⟨hi, hslot⟩
    · refine hintern.others ?_
      rw [hkept.peerIds]
      exact hv p hp j slot' hj hs
    · rw [hi] at hj
      rw [hslot] at hs
      cases hj
      cases hs
      exact hintern.registered
  | added addr =>
    refine iff_of_true (fun p hp i slot hi hs => ?_) soleDeparture_none
    rcases List.mem_append.1 hp with hp | hp
    · exact hv p hp i slot hi hs
    · rw [List.mem_singleton.1 hp] at hi
      cases hi
  | unknown hfind => exact iff_of_true hv (soleDeparture_unknown hfind)
  | left hfind =>
    rename_i addr removed
    have hmem : ∀ p ∈ c.peers.eraseP (fun p => p.addr = addr), p ∈ c.peers := fun p hp =>
      List.mem_of_mem_eraseP hp
    rw [soleDeparture_iff hfind]
    cases removed.nodeId with
    | none =>
      refine iff_of_true (fun p hp => hv p (hmem p hp)) ?_
      rintro i ⟨⟩
    | some i =>
      refine (removePeer_valid_iff ht hv hmem i).trans ⟨?_, fun h => h i rfl⟩
      rintro h j ⟨⟩
      exact h

end Contacts

/-! ## Iterations -/

namespace Runtime

open CellStore (Remembered Numbered)
open PeerFrontierTable (Kept)

variable {env : Platform} {r r' : Runtime w} {pins : ℕ → Bool} {h : History} {log : List Ack}

def contacts (r : Runtime w) : Contacts := ⟨r.peers, r.store.peerFrontiers⟩

/-- The address whose departure an arm brings. -/
def departing : ArmOutcome → Option SocketAddr
  | .peerEvent (some (.removed addr)) => some addr
  | _ => none

/-- The `record_acked` calls for the cells of a datagram. -/
def acksFrom (nodes : NodeDictionary) (sender : NodeId) (cells : List (Wire.WireCell w)) : List Ack :=
  cells.filterMap fun cell =>
    (nodes.find { nodeId := cell.originNodeId, incarnation := cell.originIncarnation }).map
      fun nodeSlot => ⟨sender, nodeSlot, cell.originSequence⟩

/-- The `record_acked` calls of an arm. -/
def acksOf (env : Platform) (r : Runtime w) : ArmOutcome → List Ack
  | .inbound (some (datagram, _)) =>
    match r.decodeInbound env (datagram.take r.config.wireLimits.maxPayloadBytes) with
    | (_, .error _) => []
    | (cells, .ok summary) =>
      let store := (r.store.mergeRemote (cells.map observationFromWire) []).1
      match (store.peerFrontiers.internPeer summary.header.senderNodeId).2 with
      | none => []
      | some _ => acksFrom store.nodeDictionary summary.header.senderNodeId cells
  | _ => []

theorem ackCells_frontiers (slot : ℕ) (sender : NodeId) (cells : List (Wire.WireCell w))
    (s : CellStore w) : (cells.foldl (ackCell slot) s).peerFrontiers =
      (acksFrom s.nodeDictionary sender cells).foldl (Ack.record slot) s.peerFrontiers := by
  induction cells generalizing s with
  | nil => rfl
  | cons cell cells ih =>
    rw [List.foldl_cons, ih]
    unfold ackCell
    split
    · rename_i hfind
      simp only [acksFrom, List.filterMap_cons, hfind, Option.map_none]
    · rename_i nodeSlot hfind
      simp only [acksFrom, List.filterMap_cons, hfind, Option.map_some, List.foldl_cons, Ack.record]

/-! ### Ticks -/

theorem swapAt_perm {α : Type} (xs : List α) (i j : ℕ) : (swapAt xs i j).Perm xs := by
  unfold swapAt
  split
  · rename_i a b ha hb
    obtain ⟨hi, rfl⟩ := List.getElem?_eq_some_iff.1 ha
    obtain ⟨hj, rfl⟩ := List.getElem?_eq_some_iff.1 hb
    exact List.set_set_perm hi hj
  · exact .refl xs

theorem shufflePeers_perm (rng : BitVec 64) (peers : List Peer) (n : ℕ) :
    (shufflePeers rng peers n).2.Perm peers := by
  unfold shufflePeers
  generalize hlen : peers.length = len
  clear hlen
  induction List.range n generalizing rng peers with
  | nil => exact .refl peers
  | cons i is ih =>
    rw [List.foldl_cons]
    exact (ih _ _).trans (swapAt_perm ..)

/-- The state in which a tick has composed the frames for its first `k` peers. -/
def composing (env : Platform) (r : Runtime w) (now k : ℕ) : Runtime w :=
  let r := r.expireTick now
  (List.range k).foldl (gossipTo env) (r.pickPeers (r.pickCount env))

theorem gossip_contacts (peers : List ℕ) (r : Runtime w) :
    (peers.foldl (gossipTo env) r).contacts = r.contacts := by
  refine (gossip_induct (R := fun r r' => r'.contacts = r.contacts) (fun _ => rfl)
    (fun h h' => h'.trans h) (fun r maxCells dest => ?_) (fun r dst handles => ?_) peers r)
  · have hsame : (r.store.fillFrameFor maxCells dest).1.peerFrontiers = r.store.peerFrontiers := by
      rw [CellStore.fillFrameFor_eq]
      exact (CellStore.sameData_fillFrame r.store _ maxCells).peerFrontiers
    rw [contacts, hsame]
    rfl
  · unfold encodePacketsFor
    split <;> rfl

theorem storeAfter_frontiers (hm : Remembered r.store h) {call : Option (StoreCall w)}
    (hloop : LoopCall call) : Kept r.store.peerFrontiers (r.storeAfter call).peerFrontiers := by
  obtain ⟨pins, hi⟩ := hm.inv
  cases hloop with
  | none => exact .refl _
  | ingestLocal obs => exact CellStore.run_frontiers hi [.ingestLocal obs] fun f hf => by simp at hf
  | mergeRemote obs => exact CellStore.run_frontiers hi [.mergeRemote obs] fun f hf => by simp at hf
  | expireAt now => exact CellStore.run_frontiers hi [.expireAt now] fun f hf => by simp at hf

/-- Composing frames shuffles the entries and clears columns of the table. -/
theorem composing_step (hm : Remembered r.store h) (now k : ℕ) :
    Contacts.Step r.contacts none (r.composing env now k).contacts [] := by
  unfold composing
  dsimp only
  rw [gossip_contacts]
  exact .idle (shufflePeers_perm ..) (storeAfter_frontiers hm (.expireAt now))

theorem handleGossipTick_contacts (hm : Remembered r.store h) (now : ℕ) :
    Contacts.Step r.contacts none (r.handleGossipTick env now).contacts [] := by
  unfold handleGossipTick
  dsimp only
  split_ifs
  · exact .idle (.refl _) (storeAfter_frontiers hm (.expireAt now))
  · exact composing_step hm now _

/-! ### Datagrams and events -/

theorem handleInbound_contacts (hm : Remembered r.store h) (datagram : List UInt8)
    (src : SocketAddr) :
    Contacts.Step r.contacts none
      (r.handleInbound env (datagram.take r.config.wireLimits.maxPayloadBytes) src).contacts
      (r.acksOf env (.inbound (some (datagram, src)))) := by
  unfold handleInbound acksOf
  dsimp only
  generalize r.decodeInbound env (datagram.take r.config.wireLimits.maxPayloadBytes) = decoded
  obtain ⟨cells, e | summary⟩ := decoded
  · exact .idle (.refl _) (.refl _)
  · have hmerge := storeAfter_remembered hm (.mergeRemote (cells.map observationFromWire))
    have hkept := storeAfter_frontiers hm (.mergeRemote (cells.map observationFromWire))
    have hstore : r.storeAfter (some (.mergeRemote (cells.map observationFromWire))) =
        (r.store.mergeRemote (cells.map observationFromWire) []).1 := rfl
    rw [hstore] at hmerge hkept
    dsimp only
    generalize (r.store.mergeRemote (cells.map observationFromWire) []).1 = s at hmerge hkept ⊢
    have hintern := s.peerFrontiers.internPeer_interned summary.header.senderNodeId
    generalize s.peerFrontiers.internPeer summary.header.senderNodeId = result at hintern ⊢
    obtain ⟨t, _ | slot⟩ := result
    · cases hintern with
      | full => exact .idle (.refl _) (hkept.trans ⟨rfl, rfl, rfl, fun _ => .inl rfl⟩)
    · dsimp only
      unfold contacts
      dsimp only
      rw [ackCells_frontiers slot summary.header.senderNodeId]
      refine .heard src hkept hintern fun a ha => ?_
      obtain ⟨cell, -, hcell⟩ := List.mem_filterMap.1 ha
      obtain ⟨nodeSlot, hfind, rfl⟩ := Option.map_eq_some_iff.1 hcell
      obtain ⟨pins, hi⟩ := hmerge.inv
      refine ⟨rfl, ?_⟩
      rw [hintern.nodeCapacity, hmerge.recycled.size]
      exact hi.nodes.live_lt (hi.nodes.find_iff.1 hfind).1

theorem handlePeerEvent_contacts (r : Runtime w) (evt : PeerEvent) :
    Contacts.Step r.contacts (departing (.peerEvent (some evt))) (r.handlePeerEvent evt).contacts
      [] := by
  cases evt with
  | added addr =>
    simp only [handlePeerEvent]
    split_ifs
    · exact .idle (.refl _) (.refl _)
    · exact .added addr
  | removed addr =>
    simp only [handlePeerEvent]
    split
    · rename_i hfind
      exact .unknown hfind
    · rename_i removed hfind
      have hstep := Contacts.Step.left (c := r.contacts) hfind
      split
      · rename_i hnone
        rwa [hnone] at hstep
      · rename_i nodeId hsome
        rwa [hsome] at hstep

/-! ### All arms -/

theorem handle_contacts {now : ℕ} {arm : ArmOutcome} (hm : Remembered r.store h)
    (hr : r.handle env now arm = some r') :
    Contacts.Step r.contacts (departing arm) r'.contacts (r.acksOf env arm) := by
  have hidle : Contacts.Step r.contacts none r.contacts [] := .idle (.refl _) (.refl _)
  cases arm with
  | request req =>
    rcases req with _ | (req | _)
    · cases hr
    · cases hr
      obtain ⟨pending, budget, flush, hnote⟩ := r.noteHits_cases now req
      unfold handleLimitRequest
      rw [hnote]
      exact .idle (.refl _) (storeAfter_frontiers hm (.ingestLocal [req.observation w]))
    · cases hr
  | inbound recv =>
    rcases recv with _ | ⟨datagram, src⟩
    · cases hr
    · cases hr
      exact handleInbound_contacts hm datagram src
  | writable result =>
    simp only [handle, drainOneSend] at hr
    split at hr
    · cases hr; exact hidle
    · split at hr <;> cases hr <;> exact hidle
  | peerEvent evt =>
    rcases evt with _ | evt
    · cases hr; exact hidle
    · cases hr; exact handlePeerEvent_contacts r evt
  | admin => cases hr; exact hidle
  | tick => cases hr; exact handleGossipTick_contacts hm now

theorem finish_contacts (r : Runtime w) : r.finish.contacts = r.contacts := by
  unfold finish
  dsimp only
  split_ifs <;> rfl

theorem iteration_contacts {now : ℕ} {arm : ArmOutcome} (hm : Remembered r.store h)
    (hr : r.iteration env now arm = some r') :
    Contacts.Step r.contacts (departing (r.firedArm arm)) r'.contacts
      (r.acksOf env (r.firedArm arm)) := by
  unfold firedArm
  unfold iteration at hr
  split_ifs at hr ⊢
  · cases hr
    rw [finish_contacts]
    exact handleGossipTick_contacts (r := { r with
      wantImmediateFlush := false, thresholdFires := min (r.thresholdFires + 1) u64Max }) hm now
  · obtain ⟨r₁, h₁, rfl⟩ := Option.map_eq_some_iff.1 hr
    rw [finish_contacts]
    exact handle_contacts hm h₁

/-! ## Runs -/

/-- Every entry that leaves along the run is the only one with its node. -/
def SoleDepartures (env : Platform) : Runtime w → List (ℕ × ArmOutcome) → Prop
  | _, [] => True
  | r, (now, arm) :: rest => ∀ r', r.iteration env now arm = some r' →
      r.contacts.SoleDeparture (departing (r.firedArm arm)) ∧ SoleDepartures env r' rest

/-- The `record_acked` calls of a run. -/
def acks (env : Platform) : Runtime w → List (ℕ × ArmOutcome) → List Ack
  | _, [] => []
  | r, (now, arm) :: rest =>
    r.acksOf env (r.firedArm arm) ++ (r.iteration env now arm).elim [] fun r' => acks env r' rest

/-- What the peer of an entry is taken to have, its node has acknowledged. -/
def PrunedByOwn (r : Runtime w) (log : List Ack) : Prop :=
  ∀ p ∈ r.peers, ∀ i, p.nodeId = some i → ∀ x, r.store.isActive x = true →
    r.store.lacksFor p.peerSlot x = false →
      ∃ a ∈ log, a.sender = i ∧ a.nodeSlot = (r.store.cells x).key.origin ∧
        (r.store.cells x).originSequence ≤ a.sequence

/-- The state of a run, with the acknowledgements recorded so far. -/
structure Heard (pins : ℕ → Bool) (r : Runtime w) (log : List Ack) : Prop where
  between : Between pins r
  remembered : ∃ h, Remembered r.store h
  tracked : r.contacts.Tracked log
  reachable : r.store.Reachable

theorem Heard.iteration {now : ℕ} {arm : ArmOutcome} (hh : Heard pins r log)
    (hr : r.iteration env now arm = some r') :
    Heard pins r' (log ++ r.acksOf env (r.firedArm arm)) := by
  obtain ⟨h, hm⟩ := hh.remembered
  exact ⟨hh.between.iteration hr, ⟨_, iteration_remembered hh.between hm hr⟩,
    (iteration_contacts hm hr).tracked hh.tracked,
    ((storeAfter_leadsTo ..).trans (iteration_follows hr).leadsTo).reachable hh.reachable⟩

theorem Heard.valid_iff {now : ℕ} {arm : ArmOutcome} (hh : Heard pins r log)
    (hv : r.contacts.Valid) (hr : r.iteration env now arm = some r') :
    r'.contacts.Valid ↔ r.contacts.SoleDeparture (departing (r.firedArm arm)) := by
  obtain ⟨h, hm⟩ := hh.remembered
  exact (iteration_contacts hm hr).valid_iff hh.tracked hv

theorem Heard.run {arms : List (ℕ × ArmOutcome)} (hh : Heard pins r log)
    (hr : r.run env arms = some r') : Heard pins r' (log ++ r.acks env arms) := by
  induction arms generalizing r log with
  | nil =>
    cases hr
    rw [acks, List.append_nil]
    exact hh
  | cons arm rest ih =>
    obtain ⟨now, arm⟩ := arm
    obtain ⟨r₁, h₁, hr⟩ := Option.bind_eq_some_iff.1 hr
    rw [acks, h₁, ← List.append_assoc]
    exact ih (hh.iteration h₁) hr

/-- All states of the run are valid exactly if all departures are sole. -/
theorem Heard.run_valid_iff {arms : List (ℕ × ArmOutcome)} (hh : Heard pins r log)
    (hv : r.contacts.Valid) :
    (∀ k r', r.run env (arms.take k) = some r' → r'.contacts.Valid) ↔ r.SoleDepartures env arms := by
  induction arms generalizing r log with
  | nil =>
    refine iff_of_true (fun k r' hr => ?_) trivial
    rw [List.take_nil] at hr
    cases hr
    exact hv
  | cons arm rest ih =>
    obtain ⟨now, arm⟩ := arm
    constructor
    · intro hall r₁ h₁
      have hrest : ∀ k r', r₁.run env (rest.take k) = some r' → r'.contacts.Valid := fun k r' hr =>
        hall (k + 1) r' (Option.bind_eq_some_iff.2 ⟨r₁, h₁, hr⟩)
      have hv₁ := hrest 0 r₁ rfl
      exact ⟨(hh.valid_iff hv h₁).1 hv₁, (ih (hh.iteration h₁) hv₁).1 hrest⟩
    · intro hsole k r' hr
      cases k with
      | zero =>
        cases hr
        exact hv
      | succ k =>
        obtain ⟨r₁, h₁, hr⟩ := Option.bind_eq_some_iff.1 hr
        obtain ⟨hone, hrest⟩ := hsole r₁ h₁
        exact (ih (hh.iteration h₁) ((hh.valid_iff hv h₁).2 hone)).2 hrest k r' hr

/-- Where slots are valid, a frame leaves out what its destination has acknowledged. -/
theorem prunedByOwn (hi : r.store.toCellTable.Inv pins)
    (hsize : r.store.peerFrontiers.nodeCapacity = r.store.nodeDictionary.capacity)
    (hn : Numbered r.store) (ht : r.contacts.Tracked log) (hv : r.contacts.Valid) :
    r.PrunedByOwn log := by
  intro p hp i hid x hx hlacks
  cases hslot : p.peerSlot with
  | none =>
    rw [hslot] at hlacks
    cases hlacks
  | some slot =>
    rw [hslot] at hlacks
    have hle : (r.store.cells x).originSequence ≤
        r.store.peerFrontiers.lastAcked slot (r.store.cells x).key.origin :=
      not_lt.1 (of_decide_eq_false hlacks)
    have hlt : (r.store.cells x).key.origin < r.store.peerFrontiers.nodeCapacity := by
      rw [hsize]
      exact hi.nodes.live_lt (hi.node_live hx)
    obtain ⟨j, hj, hmem⟩ := ht.acked slot _ hlt ((hn x hx).trans_le hle).ne'
    have hown : r.store.peerFrontiers.peerIds slot = some i := hv p hp i slot hid hslot
    have hsame : j = i := Option.some.inj (hj.symm.trans hown)
    exact ⟨_, hmem, hsame, rfl, hle⟩

theorem composing_prunedByOwn (hh : Heard pins r log) (hv : r.contacts.Valid) (now k : ℕ) :
    (r.composing env now k).PrunedByOwn log := by
  obtain ⟨h, hm⟩ := hh.remembered
  have hstep : Contacts.Step r.contacts none (r.composing env now k).contacts [] :=
    composing_step hm now k
  have hexpired := storeAfter_remembered hm (.expireAt now)
  obtain ⟨pins', hi⟩ := hexpired.inv
  have hfollows : CellStore.FollowedBy (r.storeAfter (some (.expireAt now)))
      (r.composing env now k).store := gossip_follows (List.range k) _
  have htable := hfollows.table
  have hfrontiers : (r.composing env now k).store.peerFrontiers =
      (r.storeAfter (some (.expireAt now))).peerFrontiers :=
    congrArg Contacts.frontiers (gossip_contacts (List.range k) _)
  have hinv : (r.composing env now k).store.toCellTable.Inv pins' := by
    rw [htable]
    exact hi
  refine prunedByOwn hinv ?_ ?_ ?_ ?_
  · rw [htable, hfrontiers]
    exact hexpired.recycled.size
  · exact (((storeAfter_leadsTo ..).trans hfollows.leadsTo).reachable hh.reachable).numbered
  · have htracked := hstep.tracked hh.tracked
    rwa [List.append_nil] at htracked
  · exact (hstep.valid_iff hh.tracked hv).2 fun _ haddr => by cases haddr

theorem heard_fromParts {config : CellStoreConfig} {id : NodeIdentity} {s₀ : CellStore w}
    (hnew : CellStore.new w config id = some s₀) {calls : List (StoreCall w)}
    (hcalls : ∀ f, .frontier f ∉ calls) (gossip : GossipConfig) (aggregates : DashMapStore) :
    ∃ pins, Heard pins (fromParts gossip (s₀.run calls) aggregates) [] := by
  have hm := CellStore.remembered_run hnew hcalls
  obtain ⟨pins, hi⟩ := hm.inv
  obtain ⟨-, -, -, -, hfrontiers, -⟩ := CellStore.new_columns hnew
  have hkept := CellStore.run_frontiers (CellStore.new_spec hnew).1 calls hcalls
  rw [hfrontiers] at hkept
  have hdistinct : (PeerFrontierTable.new config.peerCapacity
      config.nodeDictionaryCapacity).Distinct := ⟨nofun, nofun⟩
  have hacked : (PeerFrontierTable.new config.peerCapacity
      config.nodeDictionaryCapacity).Acknowledged [] := fun slot n _ hne => absurd rfl hne
  refine ⟨pins, between_fromParts hi gossip aggregates, ⟨_, hm⟩,
    ⟨hkept.distinct hdistinct, fun p hp => ?_, hkept.acknowledged hacked⟩,
    ⟨config, id, s₀, calls, hnew, rfl⟩⟩
  obtain ⟨addr, -, rfl⟩ := List.mem_map.1 hp
  rfl

/-- **Cached peer slots.**  From a store on which any calls but direct frontier writes have been
    made, over any arms: all states of the run have valid slots if and only if no entry leaves
    whose node another entry carries.  Then every frame of a further tick leaves out only cells
    that the node of its destination has acknowledged. -/
theorem cached_slots_valid_iff (env : Platform) {config : CellStoreConfig} {id : NodeIdentity}
    {s₀ : CellStore w} (hnew : CellStore.new w config id = some s₀) (calls : List (StoreCall w))
    (hcalls : ∀ f, .frontier f ∉ calls) (gossip : GossipConfig) (aggregates : DashMapStore)
    (arms : List (ℕ × ArmOutcome)) :
    let r₀ := fromParts gossip (s₀.run calls) aggregates
    ((∀ k r, r₀.run env (arms.take k) = some r → r.contacts.Valid) ↔ r₀.SoleDepartures env arms) ∧
    (r₀.SoleDepartures env arms → ∀ r, r₀.run env arms = some r →
      ∀ now k, (r.composing env now k).PrunedByOwn (r₀.acks env arms)) := by
  intro r₀
  obtain ⟨pins, hh⟩ := heard_fromParts hnew hcalls gossip aggregates
  have hv : r₀.contacts.Valid := by
    intro p hp i slot hi
    obtain ⟨addr, -, rfl⟩ := List.mem_map.1 hp
    cases hi
  have hiff : (∀ k r, r₀.run env (arms.take k) = some r → r.contacts.Valid) ↔
      r₀.SoleDepartures env arms := hh.run_valid_iff hv
  refine ⟨hiff, fun hsole r hr now k => composing_prunedByOwn (hh.run hr) ?_ now k⟩
  refine hiff.2 hsole arms.length r ?_
  rwa [List.take_length]

/-! ### Two addresses of one node -/

/-- A header of node 5 with no cells. -/
def helloHeader : Wire.Header := { foreignHeader with clusterIdHash := 9 }

/-- It arrives from an address. -/
def helloFrom (src : SocketAddr) : ArmOutcome := .inbound (some (Wire.patchHeader helloHeader, src))

def firstAddr : SocketAddr := { ip := 2, port := 7000 }

def secondAddr : SocketAddr := { ip := 3, port := 7000 }

/-- Node 5 is heard from the address of an entry. -/
theorem cached_slots_valid_hello : ∃ (s₀ : CellStore .u32) (r : Runtime .u32),
    CellStore.new .u32 CellStore.tinyConfig CellStore.tinyNode = some s₀ ∧
    (fromParts tinyGossip (s₀.run [.internRule tinyRule]) .empty).run tinyPlatform
      [(5000, helloFrom firstAddr)] = some r ∧
    r.peers = [⟨firstAddr, some 5, some 0⟩] ∧ r.contacts.Valid := by
  have heval : (((fromParts tinyGossip (tinyStore.run [.internRule tinyRule]) .empty).run
      tinyPlatform [(5000, helloFrom firstAddr)]).map fun r => r.peers) =
      some [⟨firstAddr, some 5, some 0⟩] := by decide +kernel
  obtain ⟨r, hrun, hpeers⟩ := Option.map_eq_some_iff.1 heval
  obtain ⟨hiff, -⟩ := cached_slots_valid_iff tinyPlatform tinyStore_new [.internRule tinyRule]
    (fun f hf => by simp at hf) tinyGossip .empty [(5000, helloFrom firstAddr)]
  refine ⟨tinyStore, r, tinyStore_new, hrun, hpeers,
    hiff.2 (fun r' _ => ⟨fun addr haddr => ?_, trivial⟩) 1 r hrun⟩
  cases haddr

/-- The packet node 2 sends once it has counted four hits. -/
def neighbourPacket : Option (List UInt8) := do
  let s₀ ← CellStore.new .u32 CellStore.tinyConfig otherNode
  let r ← (fromParts tinyGossip (s₀.internRules [tinyRule]) .empty).run tinyPlatform (tinyArms.take 3)
  r.sent.head?.map Prod.snd

/-- Node 5 is heard from two addresses, the first of them leaves, then node 2 is heard. -/
def twinArms (datagram : List UInt8) : List (ℕ × ArmOutcome) :=
  [(5000, .peerEvent (some (.added secondAddr))), (5001, helloFrom firstAddr),
    (5002, helloFrom secondAddr), (5003, .peerEvent (some (.removed firstAddr))),
    (5004, .inbound (some (datagram, firstAddr)))]

/-- **A slot passes to another node.**  The entry that stays carries node 5 and slot 0, where the
    table now has node 2; the cell of node 2 is left out for it, although node 5 has acknowledged
    nothing. -/
theorem twin_keeps_stale_slot : ∃ (s₀ : CellStore .u32) (datagram : List UInt8) (r : Runtime .u32),
    CellStore.new .u32 CellStore.tinyConfig CellStore.tinyNode = some s₀ ∧
    neighbourPacket = some datagram ∧
    (fromParts tinyGossip (s₀.run [.internRule tinyRule]) .empty).run tinyPlatform
      (twinArms datagram) = some r ∧
    r.peers = [⟨secondAddr, some 5, some 0⟩] ∧ r.store.peerFrontiers.peerIds 0 = some 2 ∧
    ¬ r.contacts.Valid ∧
    ¬ r.PrunedByOwn ((fromParts tinyGossip (s₀.run [.internRule tinyRule]) .empty).acks tinyPlatform
      (twinArms datagram)) := by
  have heval : (neighbourPacket.bind fun datagram =>
        ((fromParts tinyGossip (tinyStore.run [.internRule tinyRule]) .empty).run tinyPlatform
          (twinArms datagram)).map fun r =>
            (r.peers, r.store.peerFrontiers.peerIds 0, r.store.isActive 0,
              r.store.lacksFor (some 0) 0,
              (fromParts tinyGossip (tinyStore.run [.internRule tinyRule]) .empty).acks tinyPlatform
                (twinArms datagram))) =
      some ([⟨secondAddr, some 5, some 0⟩], some 2, true, false, [⟨2, 1, 1⟩]) := by decide +kernel
  obtain ⟨datagram, hpacket, hrest⟩ := Option.bind_eq_some_iff.1 heval
  obtain ⟨r, hrun, hvals⟩ := Option.map_eq_some_iff.1 hrest
  simp only [Prod.mk.injEq] at hvals
  obtain ⟨hpeers, hid, hactive, hlacks, hacks⟩ := hvals
  have hmem : ⟨secondAddr, some 5, some 0⟩ ∈ r.peers := by
    rw [hpeers]
    exact List.mem_singleton.2 rfl
  refine ⟨tinyStore, datagram, r, tinyStore_new, hpacket, hrun, hpeers, hid, fun hv => ?_,
    fun hpruned => ?_⟩
  · have hown : r.store.peerFrontiers.peerIds 0 = some 5 := hv _ hmem 5 0 rfl rfl
    rw [hid] at hown
    exact absurd hown (by decide)
  · obtain ⟨a, ha, hsender, -⟩ := hpruned _ hmem 5 rfl 0 hactive hlacks
    rw [hacks, List.mem_singleton] at ha
    rw [ha] at hsender
    exact absurd hsender (by decide)

end Runtime

end Gabion
