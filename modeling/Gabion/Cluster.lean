/-
  A cluster of gossiping nodes.

  The nodes take turns in any order; an inbound arm may deliver any packet that some node
  has handed to its transport before, to any node, any number of times.  Two ghost tables
  record the hits every node has accepted and the cells it has expired.  `Sound` bounds
  what a node may hold, and what a packet may carry, by the hits of the origin.
-/
import Gabion.Agreement
import Gabion.Wire.RoundTrip

namespace Gabion

open Function

def CellId.node (id : CellId) : NodeIdentity := { nodeId := id.nodeId, incarnation := id.incarnation }

/-- The hits an arm adds to `k`: those of a limit request whose row is not rejected. -/
def Runtime.acceptedHits {w : CountWidth} (r : Runtime w) (k : CellIdentity) : ArmOutcome → ℕ
  | .request (some (.limit req)) =>
    if req.identity = k ∧ (r.store.ingestRow (req.observation w) []).2.2.isOk then req.hits else 0
  | _ => 0

structure Cluster (ι : Type) (w : CountWidth) where
  nodes : ι → Runtime w
  /-- every packet handed to a transport so far -/
  network : List (List UInt8)
  /-- the hits every node has accepted for its own cells -/
  accepted : ι → CellIdentity → ℕ
  /-- the cells of its own that a node has expired -/
  expired : ι → CellIdentity → Bool

namespace Cluster

variable {ι : Type} [DecidableEq ι] {w : CountWidth}

/-- A node holds a cell of its own for `k`. -/
def holdsOwn (r : Runtime w) (k : CellIdentity) : Bool :=
  r.store.toMap (k.ofNode r.store.localIdentity) ≠ ⊥

/-- A datagram is delivered only if it was sent. -/
def deliverable (c : Cluster ι w) : ArmOutcome → Bool
  | .inbound (some (datagram, _)) => datagram ∈ c.network
  | _ => true

/-- The cluster after node `i` has gone from its state to `r'` by `arm`. -/
def advance (c : Cluster ι w) (i : ι) (arm : ArmOutcome) (r' : Runtime w) : Cluster ι w where
  nodes := update c.nodes i r'
  network := r'.sent.map Prod.snd ++ c.network
  accepted := update c.accepted i fun k =>
    c.accepted i k + (c.nodes i).acceptedHits k ((c.nodes i).firedArm arm)
  expired := update c.expired i fun k =>
    c.expired i k || (holdsOwn (c.nodes i) k && !holdsOwn r' k)

/-- Node `i` runs one iteration; `none` if its loop returns, or the datagram was never sent. -/
def step (env : Platform) (c : Cluster ι w) (i : ι) (now : ℕ) (arm : ArmOutcome) :
    Option (Cluster ι w) :=
  if c.deliverable arm then ((c.nodes i).iteration env now arm).map (c.advance i arm) else none

def run (env : Platform) : Cluster ι w → List (ι × ℕ × ArmOutcome) → Option (Cluster ι w)
  | c, [] => some c
  | c, (i, now, arm) :: rest => (c.step env i now arm).bind fun c => run env c rest

/-- A cluster at its start: every node has a new store with some rules registered, and its
    own node id and incarnation. -/
structure Start (ids : ι → NodeIdentity) (c : Cluster ι w) : Prop where
  injective : Injective ids
  nodes : ∀ i, ∃ config s₀ rules gossip, CellStore.new w config (ids i) = some s₀ ∧
    c.nodes i = .fromParts gossip (s₀.internRules rules) .empty
  network : c.network = []
  accepted : c.accepted = fun _ _ => 0
  expired : c.expired = fun _ _ => false

/-! ## What a node may count -/

variable {env : Platform} {ids : ι → NodeIdentity} {c c' : Cluster ι w} {r r' : Runtime w}

/-- The count-width-saturated total of the hits a node has accepted. -/
def total (c : Cluster ι w) (o : ι) (k : CellIdentity) : ℕ := w.saturatingFromU64 (c.accepted o k)

/-- A count for the cell `id` that its origin has not exceeded. -/
def Bounded (ids : ι → NodeIdentity) (c : Cluster ι w) (id : CellId) (count : ℕ) : Prop :=
  ∀ o, ids o = id.node → count ≤ c.total o id.identity

/-- Whatever is decoded from the bytes, or from what is left of them, is bounded. -/
def PacketBounded (env : Platform) (ids : ι → NodeIdentity) (c : Cluster ι w) (bytes : List UInt8) :
    Prop :=
  ∀ n key limits accept cells summary,
    Wire.decodeInner env.mac w key limits accept (bytes.take n) = (cells, .ok summary) →
      ∀ cell ∈ cells, Bounded ids c cell.id cell.count

/-- **The invariant of a cluster.** -/
structure Sound (env : Platform) (ids : ι → NodeIdentity) (c : Cluster ι w) : Prop where
  injective : Injective ids
  inv : ∀ n, ∃ pins, (c.nodes n).store.toCellTable.Inv pins
  sinkBuf : ∀ n, (c.nodes n).sinkBuf = []
  expirationBuf : ∀ n, (c.nodes n).expirationBuf = []
  identity : ∀ n, (c.nodes n).store.localIdentity = ids n
  bounded : ∀ n id count, (c.nodes n).store.toMap id = WithBot.some count → Bounded ids c id count
  pool : ∀ n slot, PacketBounded env ids c ((c.nodes n).sendPool slot)
  sent : ∀ n, ∀ p ∈ (c.nodes n).sent, PacketBounded env ids c p.2
  network : ∀ bytes ∈ c.network, PacketBounded env ids c bytes
  own : ∀ o k, c.expired o k = false →
    ((c.nodes o).store.toMap (k.ofNode (ids o))).unbotD 0 = c.total o k

/-! ### The fields of the next state -/

section
variable (c : Cluster ι w) (i : ι) (arm : ArmOutcome) (r' : Runtime w) {n : ι}

@[simp] theorem advance_nodes_self : (c.advance i arm r').nodes i = r' := update_self ..

@[simp] theorem advance_nodes_of_ne (h : n ≠ i) : (c.advance i arm r').nodes n = c.nodes n :=
  update_of_ne h ..

@[simp] theorem advance_accepted_self (k : CellIdentity) : (c.advance i arm r').accepted i k =
    c.accepted i k + (c.nodes i).acceptedHits k ((c.nodes i).firedArm arm) := by
  simp only [advance, update_self]

@[simp] theorem advance_accepted_of_ne (h : n ≠ i) :
    (c.advance i arm r').accepted n = c.accepted n := update_of_ne h ..

@[simp] theorem advance_expired_self (k : CellIdentity) : (c.advance i arm r').expired i k =
    (c.expired i k || (holdsOwn (c.nodes i) k && !holdsOwn r' k)) := by
  simp only [advance, update_self]

@[simp] theorem advance_expired_of_ne (h : n ≠ i) :
    (c.advance i arm r').expired n = c.expired n := update_of_ne h ..

end

/-! ### Totals only grow -/

theorem total_mono (c : Cluster ι w) (i : ι) (arm : ArmOutcome) (r' : Runtime w) (o : ι)
    (k : CellIdentity) : c.total o k ≤ (c.advance i arm r').total o k := by
  refine min_le_min_right _ ?_
  by_cases ho : o = i
  · rw [ho, advance_accepted_self]
    exact Nat.le_add_right _ _
  · rw [advance_accepted_of_ne c i arm r' ho]

theorem Bounded.mono {id : CellId} {count : ℕ} (h : Bounded ids c id count) (i : ι)
    (arm : ArmOutcome) (r' : Runtime w) : Bounded ids (c.advance i arm r') id count :=
  fun o ho => (h o ho).trans (total_mono c i arm r' o _)

theorem PacketBounded.mono {bytes : List UInt8} (h : PacketBounded env ids c bytes) (i : ι)
    (arm : ArmOutcome) (r' : Runtime w) : PacketBounded env ids (c.advance i arm r') bytes :=
  fun n key limits accept cells summary hd cell hcell =>
    (h n key limits accept cells summary hd cell hcell).mono i arm r'

omit [DecidableEq ι] in
/-- A packet of a table whose entries are bounded is bounded. -/
theorem packetBounded_nextInto {pins : ℕ → Bool} {t : CellTable w} (ht : t.Inv pins)
    (hb : ∀ id count, t.toMap id = WithBot.some count → Bounded ids c id count)
    (p : Wire.Packets) : PacketBounded env ids c (p.nextInto env.mac t).2.1 := by
  intro n key limits accept cells summary hd cell hcell
  obtain ⟨handle, -, row, hrow, rfl⟩ :=
    Wire.decode_nextInto (Wire.countsFit ht) p hd cell hcell
  exact hb _ _ (Wire.rowOf_toMap ht hrow)

/-! ## One iteration -/

/-- What remains to be shown about an iteration of node `i`: the entries of its own table. -/
structure NodeSound (ids : ι → NodeIdentity) (c' : Cluster ι w) (i : ι) (r' : Runtime w) : Prop where
  inv : ∃ pins, r'.store.toCellTable.Inv pins
  identity : r'.store.localIdentity = ids i
  bounded : ∀ id count, r'.store.toMap id = WithBot.some count → Bounded ids c' id count
  own : ∀ k, c'.expired i k = false →
    (r'.store.toMap (k.ofNode (ids i))).unbotD 0 = c'.total i k

theorem Sound.advance (h : Sound env ids c) {i : ι} {arm : ArmOutcome}
    {call : Option (StoreCall w)} (hit : Runtime.Iterated env (c.nodes i) call r')
    (hn : NodeSound ids (c.advance i arm r') i r') : Sound env ids (c.advance i arm r') := by
  -- the other nodes are as they were, and the bounds have grown
  have hnode : ∀ {P : Runtime w → Prop}, P r' → (∀ n, P (c.nodes n)) →
      ∀ n, P ((c.advance i arm r').nodes n) := by
    intro P hP hall n
    by_cases hni : n = i
    · rw [hni, advance_nodes_self]; exact hP
    · rw [advance_nodes_of_ne c i arm r' hni]; exact hall n
  have hpool : ∀ slot, PacketBounded env ids (c.advance i arm r') (r'.sendPool slot) := by
    intro slot
    obtain ⟨pins, hinv⟩ := hn.inv
    rcases hit.pool slot with heq | ⟨p, heq⟩
    · rw [heq]; exact (h.pool i slot).mono i arm r'
    · rw [heq]; exact packetBounded_nextInto hinv hn.bounded p
  have hsent : ∀ p ∈ r'.sent, PacketBounded env ids (c.advance i arm r') p.2 := by
    intro p hp
    rcases hit.sent p hp with hp | ⟨slot, heq⟩
    · exact (h.sent i p hp).mono i arm r'
    · rw [heq]; exact (h.pool i slot).mono i arm r'
  refine ⟨h.injective, hnode (P := fun r => ∃ pins, r.store.toCellTable.Inv pins) hn.inv h.inv,
    hnode (P := fun r => r.sinkBuf = []) hit.sinkBuf h.sinkBuf,
    hnode (P := fun r => r.expirationBuf = []) hit.expirationBuf h.expirationBuf, ?_, ?_, ?_, ?_,
    ?_, ?_⟩
  · intro n
    by_cases hni : n = i
    · rw [hni, advance_nodes_self]; exact hn.identity
    · rw [advance_nodes_of_ne c i arm r' hni]; exact h.identity n
  · exact hnode (P := fun r => ∀ id count, r.store.toMap id = WithBot.some count →
      Bounded ids (c.advance i arm r') id count) hn.bounded
      fun n id count hm => (h.bounded n id count hm).mono i arm r'
  · exact hnode (P := fun r => ∀ slot, PacketBounded env ids (c.advance i arm r') (r.sendPool slot))
      hpool fun n slot => (h.pool n slot).mono i arm r'
  · exact hnode (P := fun r => ∀ p ∈ r.sent, PacketBounded env ids (c.advance i arm r') p.2)
      hsent fun n p hp => (h.sent n p hp).mono i arm r'
  · intro bytes hb
    rcases List.mem_append.1 hb with hb | hb
    · obtain ⟨p, hp, rfl⟩ := List.mem_map.1 hb
      exact hsent p hp
    · exact (h.network bytes hb).mono i arm r'
  · intro o k he
    by_cases hoi : o = i
    · subst hoi
      rw [advance_nodes_self]
      exact hn.own k he
    · rw [advance_expired_of_ne c i arm r' hoi] at he
      rw [total, advance_accepted_of_ne c i arm r' hoi, advance_nodes_of_ne c i arm r' hoi]
      exact h.own o k he

/-! ### The four kinds of iterations -/

/-- An iteration that changes no entry. -/
theorem Sound.node_same (h : Sound env ids c) {i : ι} {arm : ArmOutcome}
    (hinv : ∃ pins, r'.store.toCellTable.Inv pins)
    (hid : r'.store.localIdentity = (c.nodes i).store.localIdentity)
    (hmap : r'.store.toMap = (c.nodes i).store.toMap)
    (hhits : ∀ k, (c.nodes i).acceptedHits k ((c.nodes i).firedArm arm) = 0) :
    NodeSound ids (c.advance i arm r') i r' := by
  refine ⟨hinv, hid.trans (h.identity i), ?_, ?_⟩
  · intro id count hm
    rw [hmap] at hm
    exact (h.bounded i id count hm).mono i arm r'
  · intro k he
    rw [advance_expired_self, Bool.or_eq_false_iff] at he
    rw [total, advance_accepted_self, hhits, Nat.add_zero, hmap]
    exact h.own i k he.1

/-- Adding hits with saturation, in one step or in two. -/
theorem saturatingAddHits_sat (w : CountWidth) (total hits : ℕ) :
    w.saturatingAddHits (w.saturatingFromU64 total) (w.saturatingFromU64 hits) =
      w.saturatingFromU64 (total + hits) := by
  rw [w.saturatingAddHits_eq]
  unfold CountWidth.saturatingFromU64
  omega

theorem saturatingAddHits_mono (w : CountWidth) {a b : ℕ} (h : a ≤ b) (hits : ℕ) :
    w.saturatingAddHits a hits ≤ w.saturatingAddHits b hits := by
  rw [w.saturatingAddHits_eq, w.saturatingAddHits_eq]
  omega

/-- A limit request. -/
theorem Sound.node_limit (h : Sound env ids c) {i : ι} {arm : ArmOutcome} {req : LimitRequest}
    (ha : (c.nodes i).firedArm arm = .request (some (.limit req)))
    (ht : r'.store.toCellTable =
      ((c.nodes i).store.ingestLocal [req.observation w] []).1.toCellTable) :
    NodeSound ids (c.advance i arm r') i r' := by
  obtain ⟨pins, hinv⟩ := h.inv i
  obtain ⟨hstep, heff⟩ := CellStore.ingestRow_spec hinv (req.observation w) []
  have hkey : (req.observation w).localId (c.nodes i).store.localIdentity =
      req.identity.ofNode (ids i) := by rw [h.identity i]; rfl
  have htable : r'.store.toCellTable =
      ((c.nodes i).store.ingestRow (req.observation w) []).1.toCellTable := ht
  have hmap := CellStore.toMap_of_row hinv hstep heff
  rw [hkey, ← htable] at hmap
  have hhits : ∀ k, (c.nodes i).acceptedHits k ((c.nodes i).firedArm arm) =
      if req.identity = k ∧ ((c.nodes i).store.ingestRow (req.observation w) []).2.2.isOk = true
        then req.hits else 0 := fun k => by rw [ha]; rfl
  -- what the node held before, as a number
  have hold : ∀ k, ((c.nodes i).store.toMap (k.ofNode (ids i))).unbotD 0 ≤ c.total i k := by
    intro k
    rcases hm : (c.nodes i).store.toMap (k.ofNode (ids i)) with _ | count
    · exact Nat.zero_le _
    · exact h.bounded i _ _ hm i rfl
  by_cases hok : ((c.nodes i).store.ingestRow (req.observation w) []).2.2.isOk = true
  · rw [if_pos hok] at hmap
    have htotal : ∀ k, (c.advance i arm r').total i k = if req.identity = k
        then w.saturatingAddHits (c.total i k) (w.saturatingFromU64 req.hits) else c.total i k := by
      intro k
      rw [total, advance_accepted_self, hhits]
      simp only [hok, and_true]
      split_ifs
      · rw [total, saturatingAddHits_sat]
      · rfl
    refine ⟨⟨pins, htable ▸ hstep.inv⟩, ?_, ?_, ?_⟩
    · rw [htable, hstep.localIdentity]; exact h.identity i
    · intro id count hm
      rw [hmap] at hm
      by_cases hid : id = req.identity.ofNode (ids i)
      · -- the cell that was counted up: its origin is this node
        rw [hid, update_self] at hm
        cases hm
        intro o ho
        have hoi : o = i := h.injective (by rw [ho, hid]; rfl)
        rw [hoi, hid]
        show _ ≤ (c.advance i arm r').total i req.identity
        rw [htotal, if_pos rfl]
        exact saturatingAddHits_mono w (hold req.identity) _
      · rw [update_of_ne hid] at hm
        exact (h.bounded i id count hm).mono i arm r'
    · intro k he
      rw [advance_expired_self, Bool.or_eq_false_iff] at he
      rw [hmap, htotal]
      by_cases hk : req.identity = k
      · rw [if_pos hk, ← hk, update_self, WithBot.unbotD_coe, h.own i req.identity (hk ▸ he.1)]
        rfl
      · have hne : k.ofNode (ids i) ≠ req.identity.ofNode (ids i) := fun he' =>
          hk (congrArg CellId.identity he').symm
        rw [if_neg hk, update_of_ne hne]
        exact h.own i k he.1
  · rw [if_neg hok] at hmap
    refine h.node_same ⟨pins, htable ▸ hstep.inv⟩ (by rw [htable, hstep.localIdentity]) hmap ?_
    intro k
    rw [hhits, if_neg fun hk => hok hk.2]

/-- An entry of node `i` while nothing is accepted: bounded, and exact for the node's own hits
    that have not expired. -/
def EntrySound (ids : ι → NodeIdentity) (c : Cluster ι w) (i : ι) (id : CellId) (m : WithBot ℕ) :
    Prop :=
  (∀ count, m = WithBot.some count → Bounded ids c id count) ∧
    ∀ k, c.expired i k = false → id = k.ofNode (ids i) → m.unbotD 0 = c.total i k

omit [DecidableEq ι] in
/-- A merged row that is bounded lifts no entry above the hits of its origin, and no entry of the
    node itself at all. -/
theorem EntrySound.sup {i : ι} {id : CellId} {m : WithBot ℕ} (h : EntrySound ids c i id m) {d : ℕ}
    (hb : Bounded ids c id d) : EntrySound ids c i id (m ⊔ WithBot.some d) := by
  cases m with
  | bot =>
    rw [bot_sup_eq]
    refine ⟨fun count hcount => by cases hcount; exact hb, fun k he hid => ?_⟩
    have hown := h.2 k he hid
    have hle := hb i (by rw [hid]; rfl)
    rw [hid] at hle
    rw [WithBot.unbotD_bot] at hown
    rw [WithBot.unbotD_coe]
    exact le_antisymm hle (hown ▸ Nat.zero_le _)
  | coe e =>
    rw [← WithBot.coe_sup]
    refine ⟨fun count hcount => ?_, fun k he hid => ?_⟩
    · cases hcount
      exact fun n hn => max_le (h.1 e rfl n hn) (hb n hn)
    · have hown := h.2 k he hid
      have hle := hb i (by rw [hid]; rfl)
      rw [hid] at hle
      rw [WithBot.unbotD_coe] at hown ⊢
      rw [hown]
      exact max_eq_left hle

/-- A datagram that was sent before. -/
theorem Sound.node_inbound (h : Sound env ids c) {i : ι} {arm : ArmOutcome}
    {datagram : List UInt8} {n : ℕ} {key : Option Wire.HmacKey} {limits : Wire.FrameLimits}
    {accept : Wire.Header → Bool} {cells : List (Wire.WireCell w)} {summary : Wire.DecodedSummary}
    (hsent : datagram ∈ c.network)
    (hd : Wire.decodeInner env.mac w key limits accept (datagram.take n) = (cells, .ok summary))
    (ht : r'.store.toCellTable = ((c.nodes i).store.mergeRemote
      (cells.map Runtime.observationFromWire) []).1.toCellTable)
    (hhits : ∀ k, (c.nodes i).acceptedHits k ((c.nodes i).firedArm arm) = 0) :
    NodeSound ids (c.advance i arm r') i r' := by
  obtain ⟨pins, hinv⟩ := h.inv i
  have hstep := CellStore.mergeRemote_step hinv (cells.map Runtime.observationFromWire) []
  have hrow : ∀ o ∈ cells.map Runtime.observationFromWire, Bounded ids c o.id o.count := by
    intro o ho
    obtain ⟨cell, hcell, rfl⟩ := List.mem_map.1 ho
    exact h.network datagram hsent n key limits accept cells summary hd cell hcell
  have hmerged := CellStore.mergeRemote_entries (P := EntrySound ids c i) hinv
    (fun id => ⟨h.bounded i id, fun k he hid => by rw [hid]; exact h.own i k he⟩)
    (fun o ho m hm => hm.sup (hrow o ho)) []
  refine ⟨⟨pins, ht ▸ hstep.inv⟩, by rw [ht, hstep.localIdentity]; exact h.identity i, ?_, ?_⟩
  · intro id count hm
    rw [ht] at hm
    exact ((hmerged id).1 count hm).mono i arm r'
  · intro k he
    rw [advance_expired_self, Bool.or_eq_false_iff] at he
    rw [total, advance_accepted_self, hhits, Nat.add_zero, ht]
    exact (hmerged _).2 k he.1 rfl

/-- A tick. -/
theorem Sound.node_tick (h : Sound env ids c) {i : ι} {arm : ArmOutcome} {now : ℕ}
    (ht : r'.store.toCellTable = ((c.nodes i).store.expireAt now []).1.toCellTable)
    (hhits : ∀ k, (c.nodes i).acceptedHits k ((c.nodes i).firedArm arm) = 0) :
    NodeSound ids (c.advance i arm r') i r' := by
  obtain ⟨pins, hinv⟩ := h.inv i
  have hfree := (CellStore.expire_spec hinv ((c.nodes i).store.epochScratch now)
    (c.nodes i).store.liveScratch []).1
  have hmap : ∀ id, r'.store.toMap id = ⊥ ∨ r'.store.toMap id = (c.nodes i).store.toMap id := by
    intro id
    rw [ht, CellStore.expireAt, CellStore.expire_toMap hinv]
    split_ifs
    · exact .inl rfl
    · exact .inr rfl
  have hid : r'.store.localIdentity = ids i := by
    rw [ht]; exact hfree.localIdentity.trans (h.identity i)
  refine ⟨⟨pins, ht ▸ hfree.inv⟩, hid, ?_, ?_⟩
  · intro id count hm
    rcases hmap id with hb | hs
    · rw [hb] at hm; cases hm
    · rw [hs] at hm
      exact (h.bounded i id count hm).mono i arm r'
  · intro k he
    rw [advance_expired_self, Bool.or_eq_false_iff] at he
    rw [total, advance_accepted_self, hhits, Nat.add_zero]
    refine Eq.trans ?_ (h.own i k he.1)
    rcases hmap (k.ofNode (ids i)) with hb | hs
    · -- the entry is gone: the node held none before, or it has expired it now
      have hlost := he.2
      simp only [holdsOwn, hid, h.identity i, hb, ne_eq, not_true_eq_false, decide_false,
        Bool.not_false, Bool.and_true, decide_not, Bool.not_eq_false', decide_eq_true_eq] at hlost
      rw [hb, hlost]
    · rw [hs]

/-! ## Runs -/

theorem Sound.step (h : Sound env ids c) {i : ι} {now : ℕ} {arm : ArmOutcome}
    (hs : c.step env i now arm = some c') : Sound env ids c' := by
  unfold Cluster.step at hs
  split_ifs at hs with hdel
  obtain ⟨r', hr', rfl⟩ := Option.map_eq_some_iff.1 hs
  have hit := Runtime.iteration_spec hr' (h.sinkBuf i) (h.expirationBuf i)
  refine h.advance hit ?_
  have htable := hit.table
  -- an arm that is served as it stands was not replaced by a flush
  have hfired : (c.nodes i).firedArm arm = .tick ∨ (c.nodes i).firedArm arm = arm := by
    unfold Runtime.firedArm
    split_ifs
    · exact .inl rfl
    · exact .inr rfl
  have hidle : ∀ {a}, (c.nodes i).firedArm arm = a → (c.nodes i).tableCall env now a = none →
      (∀ k, (c.nodes i).acceptedHits k a = 0) → NodeSound ids (c.advance i arm r') i r' := by
    intro a ha hcall hhits
    rw [ha, hcall] at htable
    have ht : r'.store.toCellTable = (c.nodes i).store.toCellTable := htable
    exact h.node_same (ht ▸ h.inv i) (by rw [ht]) (by rw [ht]) (by rw [ha]; exact hhits)
  cases ha : (c.nodes i).firedArm arm with
  | request req =>
    rcases req with _ | (req | _)
    · exact hidle ha rfl fun _ => rfl
    · rw [ha] at htable
      exact h.node_limit ha htable
    · exact hidle ha rfl fun _ => rfl
  | inbound recv =>
    rcases recv with _ | ⟨datagram, src⟩
    · exact hidle ha rfl fun _ => rfl
    · rcases hd : (c.nodes i).decodeInbound env
          (datagram.take (c.nodes i).config.wireLimits.maxPayloadBytes) with ⟨cells, e | summary⟩
      · exact hidle ha (by simp only [Runtime.tableCall, hd]) fun _ => rfl
      · have harm : arm = .inbound (some (datagram, src)) := by
          rcases hfired with hf | hf
          · rw [ha] at hf; cases hf
          · rw [← hf, ha]
        rw [ha] at htable
        simp only [Runtime.tableCall, hd] at htable
        have hnet : datagram ∈ c.network := by
          rw [harm] at hdel
          exact of_decide_eq_true hdel
        exact h.node_inbound hnet hd htable (by rw [ha]; exact fun _ => rfl)
  | writable result => exact hidle ha rfl fun _ => rfl
  | peerEvent evt => exact hidle ha rfl fun _ => rfl
  | admin => exact hidle ha rfl fun _ => rfl
  | tick =>
    rw [ha] at htable
    exact h.node_tick htable (by rw [ha]; exact fun _ => rfl)

theorem Sound.run : ∀ (events : List (ι × ℕ × ArmOutcome)) {c : Cluster ι w}, Sound env ids c →
    c.run env events = some c' → Sound env ids c'
  | [], _, h, hr => by cases hr; exact h
  | (i, now, arm) :: rest, _, h, hr => by
    obtain ⟨c₁, h₁, hr⟩ := Option.bind_eq_some_iff.1 hr
    exact Sound.run rest (h.step h₁) hr

omit [DecidableEq ι] in
theorem packetBounded_nil : PacketBounded env ids c [] := by
  intro n key limits accept cells summary hd
  simp [Wire.decodeInner, Wire.headerLen] at hd

omit [DecidableEq ι] in
theorem Start.sound (h : Start ids c) : Sound env ids c := by
  choose config s₀ rules gossip hnew hnode using h.nodes
  choose pins hreg using fun i => CellStore.internRules_registering (hnew i) (rules i)
  have hstore : ∀ i, (c.nodes i).store = (s₀ i).internRules (rules i) := by
    intro i; rw [hnode]; rfl
  have hbot : ∀ i id, (c.nodes i).store.toMap id = ⊥ := by
    intro i id; rw [hstore]; exact (hreg i).toMap id
  refine ⟨h.injective, fun i => ⟨pins i, ?_⟩, fun i => ?_, fun i => ?_, fun i => ?_, ?_, ?_, ?_, ?_, ?_⟩
  · rw [hstore]; exact (hreg i).inv
  · rw [hnode]; rfl
  · rw [hnode]; rfl
  · obtain ⟨-, -, -, -, hid, -⟩ := CellStore.new_spec (hnew i)
    rw [hstore, CellStore.internRules_localIdentity, hid]
  · intro i id count hm
    rw [hbot] at hm
    cases hm
  · intro i slot
    rw [hnode]
    exact packetBounded_nil
  · intro i p hp
    rw [hnode] at hp
    cases hp
  · intro bytes hb
    rw [h.network] at hb
    cases hb
  · intro i k _
    rw [hbot, total, h.accepted]
    exact (Nat.zero_min _).symm

/-- **No node over-counts.**  Start any nodes with distinct identities and run any
    interleaving of their loops, in which every datagram received was sent before, to whom
    and however often that may be, under any clocks.  No node holds more for a cell of origin
    `o` than `o` has accepted, up to saturation; and until `o` expires that cell, `o` itself
    holds exactly that. -/
theorem no_over_count (env : Platform) (ids : ι → NodeIdentity) {c₀ c : Cluster ι w}
    (hstart : Start ids c₀) (events : List (ι × ℕ × ArmOutcome))
    (hrun : c₀.run env events = some c) (o : ι) (k : CellIdentity) :
    (∀ n count, (c.nodes n).store.toMap (k.ofNode (ids o)) = WithBot.some count →
      count ≤ w.saturatingFromU64 (c.accepted o k)) ∧
    (c.expired o k = false →
      ((c.nodes o).store.toMap (k.ofNode (ids o))).unbotD 0 =
        w.saturatingFromU64 (c.accepted o k)) := by
  have h : Sound env ids c := hstart.sound.run events hrun
  exact ⟨fun n count hm => h.bounded n _ count hm o rfl, h.own o k⟩

/-! ### Two nodes -/

def pairIds : Bool → NodeIdentity
  | false => { nodeId := 1, incarnation := 1 }
  | true => { nodeId := 2, incarnation := 1 }

/-- Two nodes that know one rule. -/
def pairOf (a b : CellStore .u32) : Cluster Bool .u32 where
  nodes := fun i => .fromParts Runtime.tinyGossip
    ((bif i then b else a).internRules [Runtime.tinyRule]) .empty
  network := []
  accepted := fun _ _ => 0
  expired := fun _ _ => false

def pair : Option (Cluster Bool .u32) :=
  (CellStore.new .u32 CellStore.tinyConfig (pairIds false)).bind fun a =>
    (CellStore.new .u32 CellStore.tinyConfig (pairIds true)).map (pairOf a)

theorem pair_start {c : Cluster Bool .u32} (h : pair = some c) : Start pairIds c := by
  obtain ⟨a, ha, hab⟩ := Option.bind_eq_some_iff.1 h
  obtain ⟨b, hb, rfl⟩ := Option.map_eq_some_iff.1 hab
  refine ⟨by decide, fun i => ⟨CellStore.tinyConfig, bif i then b else a, [Runtime.tinyRule],
    Runtime.tinyGossip, ?_, rfl⟩, rfl, rfl, rfl⟩
  cases i
  · exact ha
  · exact hb

/-- Node 1 counts four hits, flushes and sends them; the packet reaches node 2 twice, and
    node 1 itself. -/
def pairEvents (packet : List UInt8) : List (Bool × ℕ × ArmOutcome) :=
  [(false, 5000, .request (some (.limit Runtime.tinyRequest))), (false, 5001, .admin),
    (false, 5002, .writable .ok), (true, 5003, .inbound (some (packet, { ip := 1, port := 7000 }))),
    (true, 5004, .inbound (some (packet, { ip := 1, port := 7000 }))),
    (false, 5005, .inbound (some (packet, { ip := 1, port := 7000 })))]

/-- What the second node has in the end. -/
theorem pair_run : ∃ (c₀ c : Cluster Bool .u32) (packet : List UInt8), Start pairIds c₀ ∧
    c₀.run Runtime.tinyPlatform (pairEvents packet) = some c ∧
      (c.nodes true).store.toMap (Runtime.tinyRequest.identity.ofNode (pairIds false)) =
        WithBot.some 4 ∧
      c.expired false Runtime.tinyRequest.identity = false := by
  have heval : (pair.bind fun c₀ =>
      (c₀.run Runtime.tinyPlatform ((pairEvents []).take 3)).bind fun c₁ =>
        (c₀.run Runtime.tinyPlatform (pairEvents (c₁.network.headD []))).map fun c =>
          ((c.nodes true).store.toMap (Runtime.tinyRequest.identity.ofNode (pairIds false)),
            c.expired false Runtime.tinyRequest.identity)) =
      some (WithBot.some 4, false) := by decide +kernel
  obtain ⟨c₀, hpair, hrest⟩ := Option.bind_eq_some_iff.1 heval
  obtain ⟨c₁, -, hrest⟩ := Option.bind_eq_some_iff.1 hrest
  obtain ⟨c, hrun, hvals⟩ := Option.map_eq_some_iff.1 hrest
  obtain ⟨hcount, hexp⟩ := Prod.mk.injEq .. ▸ hvals
  exact ⟨c₀, c, _, pair_start hpair, hrun, hcount, hexp⟩

theorem no_over_count_pair : ∃ (c₀ c : Cluster Bool .u32) (packet : List UInt8),
    Start pairIds c₀ ∧ c₀.run Runtime.tinyPlatform (pairEvents packet) = some c ∧
      (c.nodes true).store.toMap (Runtime.tinyRequest.identity.ofNode (pairIds false)) =
        WithBot.some 4 ∧
      4 ≤ CountWidth.u32.saturatingFromU64 (c.accepted false Runtime.tinyRequest.identity) ∧
      ((c.nodes false).store.toMap
          (Runtime.tinyRequest.identity.ofNode (pairIds false))).unbotD 0 =
        CountWidth.u32.saturatingFromU64 (c.accepted false Runtime.tinyRequest.identity) := by
  obtain ⟨c₀, c, packet, hstart, hrun, hcount, hexp⟩ := pair_run
  have h := no_over_count Runtime.tinyPlatform pairIds hstart _ hrun false
    Runtime.tinyRequest.identity
  exact ⟨c₀, c, packet, hstart, hrun, hcount, h.1 true 4 hcount, h.2 hexp⟩

end Cluster

end Gabion
