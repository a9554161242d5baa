/-
  Datagrams that leave a node as it was.

  A decoded datagram merges its cells, acknowledges their sequences on the sender's row of
  the peer frontier and caches the sender on the peer entry of its source address, whatever
  cluster id its header carries.  It has no effect exactly when it brings nothing new
  (`NothingNew`): every count is already covered, every sequence already acknowledged, the
  sender already cached.
-/
import Gabion.Agreement

namespace Gabion

open Function SlotMap

namespace CellStore

variable {w : CountWidth} {pins : ℕ → Bool} {s : CellStore w}

/-! ## Rows that are covered -/

/-- The store already counts at least as much for the row's identity. -/
def Covers (s : CellStore w) (o : Observation w) : Prop := WithBot.some o.count ≤ s.toMap o.id

/-- A covered row finds its rule, its node and its cell, and the cell stays. -/
theorem mergeRow_covered (h : s.toCellTable.Inv pins) {o : Observation w} (hc : s.Covers o)
    (sink : List CellDelta) : (s.mergeRow o sink).1 = s ∧ (s.mergeRow o sink).2.1 = sink := by
  obtain ⟨n, hn⟩ : ∃ n : ℕ, s.toMap o.id = WithBot.some n := by
    refine Option.ne_none_iff_exists'.1 fun hbot => ?_
    rw [Covers, show s.toMap o.id = ⊥ from hbot] at hc
    exact WithBot.not_coe_le_bot _ hc
  have hle : o.count ≤ n := by
    rw [Covers, hn] at hc
    exact WithBot.coe_le_coe.1 hc
  obtain ⟨x, hx, hid, hcount⟩ := h.toMap_eq_coe.1 hn
  have hrule : s.ruleDictionary.find o.ruleFingerprint = some (s.cells x).key.rule :=
    h.rules.find_iff.2 ⟨h.rule_live hx, congrArg CellId.ruleFingerprint hid⟩
  have hnode : s.nodeDictionary.find { nodeId := o.origin, incarnation := o.incarnation } =
      some (s.cells x).key.origin := by
    refine h.nodes.find_iff.2 ⟨h.node_live hx, ?_⟩
    have h1 := congrArg CellId.nodeId hid
    have h2 := congrArg CellId.incarnation hid
    have h3 := h.incarnation x hx
    cases hd : s.nodeDictionary.descriptors (s.cells x).key.origin with
    | mk nodeId incarnation =>
      simp only [CellTable.idOf, CellTable.idOfKey, hd] at h1 h2 h3
      show NodeIdentity.mk nodeId incarnation = _
      rw [h1, ← h3, h2]
      rfl
  have hkey : (s.cells x).key = {
      rule := (s.cells x).key.rule
      keyHash := o.keyHash
      bucket := o.bucket
      origin := (s.cells x).key.origin
      incarnation := o.incarnation } := by
    have h1 := congrArg CellId.keyHash hid
    have h2 := congrArg CellId.bucket hid
    have h3 := congrArg CellId.incarnation hid
    rw [← show (s.cells x).key.keyHash = o.keyHash from h1,
      ← show (s.cells x).key.bucket = o.bucket from h2,
      ← show (s.cells x).key.incarnation = o.incarnation from h3]
  have hcell : s.lookupIndex (s.cells x).key = some x := h.slab.find_iff.2 ⟨hx, rfl⟩
  have hstay : (UpsertMode.maxMerge o.count).next w (s.cells x).count = (s.cells x).count :=
    if_neg (by omega)
  simp only [mergeRow, translateRule, hrule, translateNode, hnode]
  rw [upsert, ← hkey]
  simp only [hcell, updateCell, hstay, if_true, and_self]

theorem mergeRemote_covered (h : s.toCellTable.Inv pins) (sink : List CellDelta) :
    ∀ {obs : List (Observation w)}, (∀ o ∈ obs, s.Covers o) →
      s.mergeRemote obs sink = (s, sink)
  | [], _ => rfl
  | o :: os, hobs => by
    obtain ⟨h1, h2⟩ := mergeRow_covered h (hobs o (List.mem_cons_self ..)) sink
    rw [mergeRemote, rows_cons, h1, h2]
    exact mergeRemote_covered h sink fun o' ho' => hobs o' (List.mem_cons_of_mem o ho')

/-! ## Rejected rows show in a counter -/

def rejectCounts (s : CellStore w) : ℕ × ℕ × ℕ :=
  (s.cellStoreFullRejects, s.ruleDictionaryFullRejects, s.nodeDictionaryFullRejects)

/-- The counters are `u64` values. -/
def rejectMax : ℕ × ℕ × ℕ := (u64Max, u64Max, u64Max)

/-- No reject counter has reached its end. -/
def Unsaturated (s : CellStore w) : Prop :=
  s.rejectCounts.1 < u64Max ∧ s.rejectCounts.2.1 < u64Max ∧ s.rejectCounts.2.2 < u64Max

theorem Unsaturated.le (h : s.Unsaturated) : s.rejectCounts ≤ rejectMax :=
  ⟨le_of_lt h.1, le_of_lt h.2.1, le_of_lt h.2.2⟩

theorem le_note {c : ℕ} (h : c ≤ u64Max) : c ≤ min (c + 1) u64Max :=
  le_min (Nat.le_succ c) h

theorem note_ne {c : ℕ} (h : c < u64Max) : min (c + 1) u64Max ≠ c := by
  rw [min_eq_left (Nat.succ_le_of_lt h)]
  exact Nat.succ_ne_self c

theorem rejectCounts_announce (s : CellStore w) (key : CompactCellKey)
    (slot seq previous current delta : ℕ) (sink : List CellDelta) :
    (s.announce key slot seq previous current delta sink).1.rejectCounts = s.rejectCounts := by
  show (s.pushDirty key.origin (s.handleFor slot) seq).rejectCounts = s.rejectCounts
  unfold pushDirty
  split_ifs <;> rfl

theorem upsert_rejects (s : CellStore w) (spec : UpsertSpec) (sink : List CellDelta) :
    (s.upsert spec sink).2.2.isOk = true ∧ (s.upsert spec sink).1.rejectCounts = s.rejectCounts ∨
      (s.upsert spec sink).1 = s.noteCellStoreFull := by
  unfold upsert
  split
  · left
    unfold updateCell
    dsimp only
    split_ifs
    · exact ⟨rfl, rfl⟩
    · exact ⟨rfl, rejectCounts_announce ..⟩
  · unfold insertCell
    split
    · exact .inr rfl
    · exact .inl ⟨rfl, rejectCounts_announce ..⟩

/-- A merged row is accepted and counts no reject, or it is rejected and counted. -/
theorem mergeRow_rejects (s : CellStore w) (o : Observation w) (sink : List CellDelta) :
    (s.mergeRow o sink).2.2.isOk = true ∧ (s.mergeRow o sink).1.rejectCounts = s.rejectCounts ∨
      ∃ s₁ : CellStore w, s₁.rejectCounts = s.rejectCounts ∧
        ((s.mergeRow o sink).1 = s₁.noteCellStoreFull ∨
          (s.mergeRow o sink).1 = s₁.noteRuleDictionaryFull ∨
          (s.mergeRow o sink).1 = s₁.noteNodeDictionaryFull) := by
  unfold mergeRow
  rcases hr : s.translateRule o.ruleFingerprint with ⟨s₁, _ | rule⟩
  · refine .inr ⟨s, rfl, .inr (.inl ?_)⟩
    unfold translateRule at hr
    split at hr
    · cases hr
    · split at hr <;> cases hr
      rfl
  · have h1 : s₁.rejectCounts = s.rejectCounts := by
      unfold translateRule at hr
      split at hr
      · cases hr; rfl
      · split at hr <;> cases hr
        rfl
    dsimp only
    rcases hn : s₁.translateNode ⟨o.origin, o.incarnation⟩ with ⟨s₂, _ | origin⟩
    · refine .inr ⟨s₁, h1, .inr (.inr ?_)⟩
      unfold translateNode internNode at hn
      split at hn
      · cases hn
      · split at hn <;> cases hn
        rfl
    · have h2 : s₂.rejectCounts = s₁.rejectCounts := by
        unfold translateNode internNode at hn
        split at hn
        · cases hn; rfl
        · split at hn <;> cases hn
          rfl
      dsimp only
      rcases upsert_rejects s₂ _ sink with ⟨hok, hc⟩ | hnote
      · exact .inl ⟨hok, hc.trans (h2.trans h1)⟩
      · exact .inr ⟨s₂, h2.trans h1, .inl hnote⟩

theorem mergeRow_counts {o : Observation w} {sink : List CellDelta} (h : s.rejectCounts ≤ rejectMax) :
    s.rejectCounts ≤ (s.mergeRow o sink).1.rejectCounts ∧
      (s.mergeRow o sink).1.rejectCounts ≤ rejectMax := by
  rcases mergeRow_rejects s o sink with ⟨-, he⟩ | ⟨s₁, he, hs⟩
  · rw [he]
    exact ⟨le_refl _, h⟩
  · rw [← he] at h ⊢
    rcases hs with hs | hs | hs <;> rw [hs]
    · exact ⟨⟨le_note h.1, le_refl _⟩, ⟨min_le_right _ _, h.2⟩⟩
    · exact ⟨⟨le_refl _, le_note h.2.1, le_refl _⟩, ⟨h.1, min_le_right _ _, h.2.2⟩⟩
    · exact ⟨⟨le_refl _, le_refl _, le_note h.2.2⟩, ⟨h.1, h.2.1, min_le_right _ _⟩⟩

theorem mergeRow_ok_of_counts {o : Observation w} {sink : List CellDelta} (h : s.Unsaturated)
    (he : (s.mergeRow o sink).1.rejectCounts = s.rejectCounts) :
    (s.mergeRow o sink).2.2.isOk = true := by
  rcases mergeRow_rejects s o sink with ⟨hok, -⟩ | ⟨s₁, he₁, hs⟩
  · exact hok
  · unfold Unsaturated at h
    rw [← he₁] at h he
    exfalso
    rcases hs with hs | hs | hs <;> rw [hs] at he
    · exact note_ne h.1 (congrArg Prod.fst he)
    · exact note_ne h.2.1 (congrArg (·.2.1) he)
    · exact note_ne h.2.2 (congrArg (·.2.2) he)

theorem mergeRows_counts : ∀ (obs : List (Observation w)) {s : CellStore w} (sink : List CellDelta),
    s.rejectCounts ≤ rejectMax → s.rejectCounts ≤ (rows mergeRow s obs sink).1.rejectCounts
  | [], _, _, _ => le_refl _
  | o :: os, s, sink, h => by
    obtain ⟨h1, h2⟩ := mergeRow_counts h
    rw [rows_cons]
    exact h1.trans (mergeRows_counts os _ h2)

/-- A batch that raises no reject counter was accepted as a whole. -/
theorem rowsAccepted_of_counts : ∀ (obs : List (Observation w)) {s : CellStore w}
    (sink : List CellDelta), s.Unsaturated →
    (rows mergeRow s obs sink).1.rejectCounts = s.rejectCounts → rowsAccepted mergeRow s obs sink
  | [], _, _, _, _ => rfl
  | o :: os, s, sink, h, he => by
    obtain ⟨h1, h2⟩ := mergeRow_counts h.le
    rw [rows_cons] at he
    have h3 := mergeRows_counts os (s.mergeRow o sink).2.1 h2
    have hrow : (s.mergeRow o sink).1.rejectCounts = s.rejectCounts :=
      le_antisymm (h3.trans he.le) h1
    have hun : (s.mergeRow o sink).1.Unsaturated := by rw [Unsaturated, hrow]; exact h
    exact Bool.and_eq_true_iff.2 ⟨mergeRow_ok_of_counts h hrow,
      rowsAccepted_of_counts os _ hun (he.trans hrow.symm)⟩

/-- **A batch that changes neither the map nor a reject counter was covered.** -/
theorem covered_of_mergeRemote (h : s.toCellTable.Inv pins) (hun : s.Unsaturated)
    {obs : List (Observation w)} {sink : List CellDelta}
    (hmap : (s.mergeRemote obs sink).1.toMap = s.toMap)
    (hcounts : (s.mergeRemote obs sink).1.rejectCounts = s.rejectCounts) :
    ∀ o ∈ obs, s.Covers o := by
  have ha := rowsAccepted_of_counts obs sink hun hcounts
  rw [mergeRemote, merge_toMap obs s sink h ha] at hmap
  intro o ho
  exact ((mergeAll_le_iff _ _ o.id _).1 (le_of_eq (congrFun hmap o.id))).2 o.entry
    (List.mem_map_of_mem ho) rfl

end CellStore

/-! ## The sender's row -/

namespace PeerFrontierTable

theorem raise_eq_self (f : ℕ → ℕ) (i sequence : ℕ) : raise f i sequence = f ↔ sequence ≤ f i := by
  unfold raise
  split_ifs with h
  · refine iff_of_false (fun he => ?_) (not_le.2 h)
    have := congrFun he i
    rw [update_self] at this
    omega
  · exact iff_of_true rfl (not_lt.1 h)

theorem le_raise (f : ℕ → ℕ) (i sequence : ℕ) : f ≤ raise f i sequence := by
  unfold raise
  split_ifs with h
  · exact le_update_self_iff.2 (le_of_lt h)
  · exact le_refl f

theorem recordAcked_of_le {t : PeerFrontierTable} {peerSlot nodeSlot sequence : ℕ}
    (h : sequence ≤ t.lastAcked peerSlot nodeSlot) :
    t.recordAcked peerSlot nodeSlot sequence = t := by
  rw [recordAcked, (raise_eq_self t.lastAckedSeq _ sequence).2 h]

/-- Interning a peer that is not in the table changes the table. -/
theorem internPeer_eq_self {t t' : PeerFrontierTable} {peer : NodeId} {slot : ℕ}
    (h : t.internPeer peer = (t', some slot)) (hids : t'.peerIds = t.peerIds) :
    t.findPeer peer = some slot ∧ t' = t := by
  unfold internPeer at h
  split at h
  · rename_i slot' hfind
    cases h
    exact ⟨hfind, rfl⟩
  · split at h
    · rename_i i hfree
      cases h
      have hnone := List.find?_some hfree
      rw [← hids] at hnone
      simp at hnone
    · cases h

end PeerFrontierTable

namespace Runtime

variable {w : CountWidth} {env : Platform} {pins : ℕ → Bool} {r r' : Runtime w}

theorem le_ackCell (peerSlot : ℕ) (s : CellStore w) (c : Wire.WireCell w) :
    s.peerFrontiers.lastAckedSeq ≤ (ackCell peerSlot s c).peerFrontiers.lastAckedSeq := by
  unfold ackCell
  split
  · exact le_refl _
  · exact PeerFrontierTable.le_raise _ _ _

theorem le_ackCells (peerSlot : ℕ) (cells : List (Wire.WireCell w)) (s : CellStore w) :
    s.peerFrontiers.lastAckedSeq ≤
      (cells.foldl (ackCell peerSlot) s).peerFrontiers.lastAckedSeq := by
  induction cells generalizing s with
  | nil => exact le_refl _
  | cons c cs ih => exact (le_ackCell peerSlot s c).trans (ih _)

theorem ackCells_peerIds (peerSlot : ℕ) (cells : List (Wire.WireCell w)) (s : CellStore w) :
    (cells.foldl (ackCell peerSlot) s).peerFrontiers.peerIds = s.peerFrontiers.peerIds := by
  induction cells generalizing s with
  | nil => rfl
  | cons c cs ih =>
    refine (ih _).trans ?_
    unfold ackCell
    split <;> rfl

/-- The frontier already acknowledges the cell's sequence on the row of the peer. -/
def Acked (s : CellStore w) (peerSlot : ℕ) (c : Wire.WireCell w) : Prop :=
  ∀ nodeSlot, s.nodeDictionary.find ⟨c.originNodeId, c.originIncarnation⟩ = some nodeSlot →
    c.originSequence ≤ s.peerFrontiers.lastAcked peerSlot nodeSlot

theorem ackCell_of_acked {peerSlot : ℕ} {s : CellStore w} {c : Wire.WireCell w}
    (h : Acked s peerSlot c) : ackCell peerSlot s c = s := by
  unfold ackCell
  split
  · rfl
  · rename_i nodeSlot hfind
    rw [PeerFrontierTable.recordAcked_of_le (h nodeSlot hfind)]

theorem acked_of_seq {peerSlot : ℕ} {s : CellStore w} {c : Wire.WireCell w}
    (h : (ackCell peerSlot s c).peerFrontiers.lastAckedSeq = s.peerFrontiers.lastAckedSeq) :
    Acked s peerSlot c := by
  intro nodeSlot hfind
  simp only [ackCell, hfind, PeerFrontierTable.recordAcked] at h
  exact (PeerFrontierTable.raise_eq_self s.peerFrontiers.lastAckedSeq _ _).1 h

theorem ackCells_eq_self {peerSlot : ℕ} {s : CellStore w} : ∀ {cells : List (Wire.WireCell w)},
    cells.foldl (ackCell peerSlot) s = s ↔ ∀ c ∈ cells, Acked s peerSlot c
  | [] => by simp
  | c :: cs => by
    rw [List.foldl_cons, List.forall_mem_cons]
    constructor
    · intro h
      -- sequences only rise, so the first cell raised none
      have hle := le_ackCells peerSlot cs (ackCell peerSlot s c)
      rw [h] at hle
      have hc := acked_of_seq (le_antisymm hle (le_ackCell peerSlot s c))
      rw [ackCell_of_acked hc] at h
      exact ⟨hc, ackCells_eq_self.1 h⟩
    · rintro ⟨hc, hcs⟩
      rw [ackCell_of_acked hc]
      exact ackCells_eq_self.2 hcs

/-- The peer entry of the address, if there is one, already names the sender and its row. -/
def Cached (peers : List Peer) (src : SocketAddr) (senderId : NodeId) (peerSlot : ℕ) : Prop :=
  ∀ p, peers.find? (fun p => p.addr = src) = some p →
    p.nodeId = some senderId ∧ p.peerSlot = some peerSlot

theorem cachePeer_eq_self {src : SocketAddr} {senderId : NodeId} {peerSlot : ℕ} :
    ∀ {peers : List Peer}, cachePeer src senderId peerSlot peers = peers ↔
      Cached peers src senderId peerSlot
  | [] => by simp [cachePeer, Cached]
  | p :: ps => by
    unfold cachePeer Cached
    split_ifs with h
    · obtain ⟨addr, nodeId, slot⟩ := p
      simp only [List.find?_cons, show addr = src from h, decide_true, Option.some.injEq,
        forall_eq', List.cons.injEq, Peer.mk.injEq, true_and, and_true]
      exact and_congr eq_comm eq_comm
    · simp only [List.find?_cons, h, decide_false, List.cons.injEq, true_and]
      exact cachePeer_eq_self

/-! ## Datagrams without effect -/

/-- What the isolation of clusters protects: the store with its dictionaries, rings and
    frontier, the peers and the aggregates. -/
structure Unaffected (r r' : Runtime w) : Prop where
  store : r'.store = r.store
  peers : r'.peers = r.peers
  aggregates : r'.aggregates = r.aggregates

/-- The cells of `sender` bring nothing new: counts, sequences and sender are known. -/
def NothingNew (r : Runtime w) (src : SocketAddr) (cells : List (Wire.WireCell w))
    (sender : NodeId) : Prop :=
  (∀ c ∈ cells, r.store.Covers (observationFromWire c)) ∧
    ∃ peerSlot, r.store.peerFrontiers.findPeer sender = some peerSlot ∧
      (∀ c ∈ cells, Acked r.store peerSlot c) ∧ Cached r.peers src sender peerSlot

/-- The bytes do not decode, or they decode to cells that bring nothing new. -/
def Harmless (env : Platform) (r : Runtime w) (bytes : List UInt8) (src : SocketAddr) : Prop :=
  ∀ cells summary, r.decodeInbound env bytes = (cells, .ok summary) →
    r.NothingNew src cells summary.header.senderNodeId

theorem NothingNew.merge (hb : Between pins r) {src : SocketAddr} {cells : List (Wire.WireCell w)}
    {sender : NodeId} (h : r.NothingNew src cells sender) :
    r.store.mergeRemote (cells.map observationFromWire) [] = (r.store, []) :=
  CellStore.mergeRemote_covered hb.inv [] fun o ho => by
    obtain ⟨c, hc, rfl⟩ := List.mem_map.1 ho
    exact h.1 c hc

theorem unaffected_finish (h1 : r'.store = r.store) (h2 : r'.peers = r.peers)
    (h3 : r'.aggregates = r.aggregates) (h4 : r'.sinkBuf = []) (h5 : r'.expirationBuf = []) :
    Unaffected r r'.finish := by
  unfold finish
  rw [if_neg (by simp [h4, h5])]
  exact ⟨h1, h2, h3⟩

theorem handleInbound_unaffected (hb : Between pins r) {bytes : List UInt8} {src : SocketAddr}
    (h : r.Harmless env bytes src) : Unaffected r (r.handleInbound env bytes src).finish := by
  unfold handleInbound
  rcases hd : r.decodeInbound env bytes with ⟨cells, e | summary⟩
  · exact unaffected_finish rfl rfl rfl rfl hb.expirationBuf
  · have hnew := h cells summary hd
    obtain ⟨-, peerSlot, hfind, hacked, hcached⟩ := id hnew
    have hintern : r.store.peerFrontiers.internPeer summary.header.senderNodeId =
        (r.store.peerFrontiers, some peerSlot) := by
      rw [PeerFrontierTable.internPeer, hfind]
    simp only [hnew.merge hb, hintern]
    exact unaffected_finish (ackCells_eq_self.2 hacked) (cachePeer_eq_self.2 hcached) rfl rfl
      hb.expirationBuf

theorem finish_peers (r : Runtime w) : r.finish.peers = r.peers := by
  unfold finish
  dsimp only
  split_ifs <;> rfl

theorem ackCells_rejects (peerSlot : ℕ) (cells : List (Wire.WireCell w)) (s : CellStore w) :
    (cells.foldl (ackCell peerSlot) s).rejectCounts = s.rejectCounts := by
  induction cells generalizing s with
  | nil => rfl
  | cons c cs ih =>
    refine (ih _).trans ?_
    unfold ackCell
    split <;> rfl

theorem handleInbound_harmless (hb : Between pins r) (hun : r.store.Unsaturated)
    (hfull : r.store.peerFrontiers.fullRejects < u64Max) {bytes : List UInt8} {src : SocketAddr}
    (h : Unaffected r (r.handleInbound env bytes src).finish) : r.Harmless env bytes src := by
  intro cells summary hd
  have hstore : (r.handleInbound env bytes src).store = r.store := (finish_store _).symm.trans h.store
  have hpeers : (r.handleInbound env bytes src).peers = r.peers := (finish_peers _).symm.trans h.peers
  simp only [handleInbound, hd] at hstore hpeers
  -- the merge changed neither the map nor a counter, so it was covered
  have hcover : ∀ c ∈ cells, r.store.Covers (observationFromWire c) := by
    have hmerged : (r.store.mergeRemote (cells.map observationFromWire) []).1.toMap = r.store.toMap ∧
        (r.store.mergeRemote (cells.map observationFromWire) []).1.rejectCounts =
          r.store.rejectCounts := by
      split at hstore
      · exact ⟨congrArg (·.toMap) hstore, congrArg (·.rejectCounts) hstore⟩
      · have ht := congrArg (·.toCellTable) hstore
        have hc := congrArg (·.rejectCounts) hstore
        dsimp only at ht hc
        rw [ackCells_table] at ht
        rw [ackCells_rejects] at hc
        exact ⟨congrArg (·.toMap) ht, hc⟩
    have hcov := CellStore.covered_of_mergeRemote hb.inv hun hmerged.1 hmerged.2
    exact fun c hc => hcov _ (List.mem_map_of_mem hc)
  have hsame : r.store.mergeRemote (cells.map observationFromWire) [] = (r.store, []) :=
    CellStore.mergeRemote_covered hb.inv [] fun o ho => by
      obtain ⟨c, hc, rfl⟩ := List.mem_map.1 ho
      exact hcover c hc
  rw [hsame] at hstore hpeers
  refine ⟨hcover, ?_⟩
  dsimp only at hstore hpeers
  rcases hintern : r.store.peerFrontiers.internPeer summary.header.senderNodeId with ⟨t, _ | peerSlot⟩
  · -- a full frontier counts the sender
    simp only [hintern] at hstore
    have ht : t.fullRejects = r.store.peerFrontiers.fullRejects :=
      congrArg (·.peerFrontiers.fullRejects) hstore
    unfold PeerFrontierTable.internPeer at hintern
    split at hintern
    · cases hintern
    · split at hintern <;> cases hintern
      exact absurd ht (CellStore.note_ne hfull)
  · simp only [hintern] at hstore hpeers
    have hids : t.peerIds = r.store.peerFrontiers.peerIds := by
      rw [← congrArg (·.peerFrontiers.peerIds) hstore, ackCells_peerIds]
    obtain ⟨hfind, rfl⟩ := PeerFrontierTable.internPeer_eq_self hintern hids
    exact ⟨peerSlot, hfind, ackCells_eq_self.1 hstore, cachePeer_eq_self.1 hpeers⟩

/-- The header carries the cluster id of another cluster. -/
def Foreign (r : Runtime w) (bytes : List UInt8) : Prop :=
  ∃ header, Wire.readHeader bytes = .ok header ∧ header.clusterIdHash ≠ r.config.clusterIdHash

/-- **Frames of other clusters.**  Rules are registered, then the loop runs on any arms, with
    or without a key.  An iteration that handles a frame whose header carries another cluster
    id leaves store, peers and aggregates as they were when the frame does not decode or
    brings nothing new, and, as long as no reject counter is at its end, only then: nothing
    else keeps clusters apart. -/
theorem foreign_frame_unaffected_iff (env : Platform) {config : CellStoreConfig} {id : NodeIdentity}
    {s₀ : CellStore w} (hnew : CellStore.new w config id = some s₀) (rules : List RuleDescriptor)
    (gossip : GossipConfig) (arms : List (ℕ × ArmOutcome)) {r : Runtime w}
    (hrun : (fromParts gossip (s₀.internRules rules) .empty).run env arms = some r)
    (hflush : r.wantImmediateFlush = false) (now : ℕ) (datagram : List UInt8) (src : SocketAddr)
    (_hforeign : r.Foreign (datagram.take r.config.wireLimits.maxPayloadBytes)) :
    ∃ r', r.iteration env now (.inbound (some (datagram, src))) = some r' ∧
      (r.Harmless env (datagram.take r.config.wireLimits.maxPayloadBytes) src → Unaffected r r') ∧
      (r.store.Unsaturated → r.store.peerFrontiers.fullRejects < u64Max → Unaffected r r' →
        r.Harmless env (datagram.take r.config.wireLimits.maxPayloadBytes) src) := by
  obtain ⟨pins, hreg⟩ := CellStore.internRules_registering hnew rules
  have hb : Between pins r := (between_fromParts hreg.inv gossip .empty).run hrun
  refine ⟨_, ?_, fun h => handleInbound_unaffected hb h,
    fun hun hfull h => handleInbound_harmless hb hun hfull h⟩
  rw [iteration, hflush, if_neg Bool.false_ne_true]
  rfl

/-! ### Two foreign frames -/

/-- A header of cluster 8 from node 5 with no cells. -/
def foreignHeader : Wire.Header where
  clusterIdHash := 8
  senderNodeId := 5
  senderIncarnation := 1
  countWidth := 4
  cellCount := 0
  bodyLen := 0
  minOriginSequence := 0
  maxOriginSequence := 0
  flags := 0

/-- The arrival of the bare header from an address that is no peer's. -/
def helloArrives : ArmOutcome :=
  .inbound (some (Wire.patchHeader foreignHeader, { ip := 5, port := 7000 }))

/-- Once its sender has a row in the frontier, the bare header brings nothing new. -/
theorem foreign_frame_unaffected_hello : ∃ (s₀ : CellStore .u32) (r r' : Runtime .u32),
    CellStore.new .u32 CellStore.tinyConfig CellStore.tinyNode = some s₀ ∧
      (fromParts tinyGossip (s₀.internRules [tinyRule]) .empty).run tinyPlatform
        [(5000, helloArrives)] = some r ∧
      r.Foreign ((Wire.patchHeader foreignHeader).take r.config.wireLimits.maxPayloadBytes) ∧
      r.iteration tinyPlatform 5001 helloArrives = some r' ∧ Unaffected r r' := by
  have heval : ((tinyRuntime.run tinyPlatform [(5000, helloArrives)]).map fun r =>
          (r.wantImmediateFlush, r.store.peerFrontiers.findPeer 5,
            r.peers.find? fun p => p.addr = { ip := 5, port := 7000 })) =
      some (false, some 0, none) := by
    decide +kernel
  obtain ⟨r, hrun, hvals⟩ := Option.map_eq_some_iff.1 heval
  simp only [Prod.mk.injEq] at hvals
  obtain ⟨hflush, hfind, hpeers⟩ := hvals
  obtain ⟨pins, hreg⟩ := CellStore.internRules_registering tinyStore_new [tinyRule]
  have hconfig : r.config = tinyGossip := (between_fromParts hreg.inv tinyGossip .empty).run_config hrun
  have hbytes : (Wire.patchHeader foreignHeader).take r.config.wireLimits.maxPayloadBytes =
      Wire.patchHeader foreignHeader := by
    rw [hconfig]
    decide +kernel
  have hforeign :
      r.Foreign ((Wire.patchHeader foreignHeader).take r.config.wireLimits.maxPayloadBytes) := by
    have hread := Wire.readHeader_patchHeader foreignHeader []
    rw [List.append_nil] at hread
    rw [hbytes]
    refine ⟨foreignHeader, hread, ?_⟩
    rw [hconfig]
    decide
  obtain ⟨r', hit, hun, -⟩ := foreign_frame_unaffected_iff tinyPlatform tinyStore_new [tinyRule]
    tinyGossip [(5000, helloArrives)] hrun hflush 5001 (Wire.patchHeader foreignHeader)
    { ip := 5, port := 7000 } hforeign
  refine ⟨tinyStore, r, r', tinyStore_new, hrun, hforeign, hit, hun fun cells summary hd => ?_⟩
  have hdecoded : (Wire.decodeInner tinyPlatform.mac .u32 tinyGossip.authKey tinyGossip.wireLimits
      (fun _ => true) (Wire.patchHeader foreignHeader)).1 = [] ∧
      ((Wire.decodeInner tinyPlatform.mac .u32 tinyGossip.authKey tinyGossip.wireLimits (fun _ => true)
        (Wire.patchHeader foreignHeader)).2.toOption.map fun s => s.header.senderNodeId) =
        some 5 := by
    decide +kernel
  rw [hbytes, decodeInbound, hconfig] at hd
  rw [hd] at hdecoded
  obtain ⟨rfl, hsender⟩ := hdecoded
  rw [show summary.header.senderNodeId = 5 from Option.some.inj hsender]
  refine ⟨fun c hc => absurd hc List.not_mem_nil, 0, hfind, fun c hc => absurd hc List.not_mem_nil,
    fun p hp => ?_⟩
  rw [hpeers] at hp
  cases hp

/-- Node 2 of cluster 8. -/
def otherNode : NodeIdentity := { nodeId := 2, incarnation := 1 }

/-- The packet node 2 of cluster 8 sends once it has counted four hits. -/
def foreignPacket : Option (List UInt8) := do
  let s₀ ← CellStore.new .u32 CellStore.tinyConfig otherNode
  let r ← (fromParts { tinyGossip with clusterIdHash := 8 } (s₀.internRules [tinyRule]) .empty).run
    tinyPlatform (tinyArms.take 3)
  r.sent.head?.map Prod.snd

/-- **Counts cross between clusters**: the packet of cluster 8 adds a row at a node of
    cluster 9. -/
theorem foreign_packet_counted : ∃ (s₀ : CellStore .u32) (datagram : List UInt8)
    (r r' : Runtime .u32),
    CellStore.new .u32 CellStore.tinyConfig CellStore.tinyNode = some s₀ ∧
      foreignPacket = some datagram ∧
      (fromParts tinyGossip (s₀.internRules [tinyRule]) .empty).run tinyPlatform [] = some r ∧
      r.Foreign (datagram.take r.config.wireLimits.maxPayloadBytes) ∧
      r.iteration tinyPlatform 5000 (.inbound (some (datagram, { ip := 2, port := 7000 }))) =
        some r' ∧
      r.aggregates.cells ⟨7, 3, 5⟩ = none ∧ r'.aggregates.cells ⟨7, 3, 5⟩ = some 4 ∧
      ¬ Unaffected r r' := by
  have heval : (foreignPacket.bind fun datagram =>
        (tinyRuntime.run tinyPlatform []).bind fun r =>
          (Wire.readHeader (datagram.take r.config.wireLimits.maxPayloadBytes)).toOption.bind
            fun header =>
            (r.iteration tinyPlatform 5000
              (.inbound (some (datagram, { ip := 2, port := 7000 })))).map fun r' =>
              (header.clusterIdHash, r.config.clusterIdHash, r.aggregates.cells ⟨7, 3, 5⟩,
                r'.aggregates.cells ⟨7, 3, 5⟩)) = some (8, 9, none, some 4) := by
    decide +kernel
  obtain ⟨datagram, hpacket, hrest⟩ := Option.bind_eq_some_iff.1 heval
  obtain ⟨r, hrun, hrest⟩ := Option.bind_eq_some_iff.1 hrest
  obtain ⟨header, hheader, hrest⟩ := Option.bind_eq_some_iff.1 hrest
  obtain ⟨r', hit, hvals⟩ := Option.map_eq_some_iff.1 hrest
  simp only [Prod.mk.injEq] at hvals
  obtain ⟨hforeign, hcluster, hbefore, hafter⟩ := hvals
  refine ⟨tinyStore, datagram, r, r', tinyStore_new, hpacket, hrun,
    ⟨header, eq_ok_of_toOption hheader, ?_⟩, hit, hbefore, hafter, fun h => ?_⟩
  · rw [hforeign, hcluster]
    decide
  · rw [h.aggregates, hbefore] at hafter
    cases hafter

end Runtime

end Gabion
