/-
  Keyed slots: the storage pattern the cell store and both dictionaries share.

  A slot is either live, and then indexed under the hash of its key, or on the free list.
  `Slab` says so for given index, links and keys, and is kept when a slot is taken from
  the list and indexed (`Slab.insert`) or unindexed and put back (`Slab.remove`).
-/
import Gabion.Index
import Gabion.Lib.Slots

namespace Gabion

open Slots Function

variable {κ : Type} (hashKey : κ → BitVec 64)

/-- **The shape of a slab**: `n` slots, those that satisfy `live` are indexed under their
    keys, the others are on the free list. -/
structure Slab (t : CellIndex) (next : ℕ → Option ℕ) (head : Option ℕ) (n : ℕ)
    (live : ℕ → Prop) (key : ℕ → κ) : Prop where
  wf : t.Wf
  room : n < t.capacity
  contains : ∀ h s, t.Contains h s ↔ live s ∧ h = hashKey (key s)
  inj : ∀ s s', live s → live s' → key s = key s' → s = s'
  lt : ∀ s, live s → s < n
  free : ∃ k, Free next head k (fun s => s < n ∧ ¬ live s) ∧ k + t.len = n

namespace Slab

variable {hashKey} {t : CellIndex} {next next' : ℕ → Option ℕ} {head : Option ℕ} {n : ℕ}
  {live live' : ℕ → Prop} {key key' : ℕ → κ}

theorem init {c : ℕ} (hn : 0 < n) (hc : n < c) (ht : CellIndex.withCapacity c = some t)
    (hl : ∀ s, ¬ live s) : Slab hashKey t (initNext n) (some 0) n live key := by
  obtain ⟨hw, hcap, hlen, he⟩ := CellIndex.withCapacity_spec ht
  refine ⟨hw, hcap ▸ hc, fun h s => iff_of_false (he h s) fun h => hl s h.1,
    fun s _ h => absurd h (hl s), fun s h => absurd h (hl s), n, ?_, by omega⟩
  exact (free_init hn).iff fun s => by simp [hl s]

theorem congr (h : Slab hashKey t next head n live key) (hl : ∀ s, live s ↔ live' s)
    (hk : ∀ s, live s → key s = key' s) : Slab hashKey t next head n live' key' := by
  refine ⟨h.wf, h.room, fun x s => ?_, fun s s' h1 h2 e => ?_, fun s hs => h.lt s ((hl s).2 hs), ?_⟩
  · rw [h.contains, hl]
    exact and_congr_right fun hs => by rw [hk s ((hl s).2 hs)]
  · have h1 := (hl s).2 h1
    have h2 := (hl s').2 h2
    exact h.inj s s' h1 h2 (by rw [hk s h1, hk s' h2, e])
  · obtain ⟨k, hf, hlen⟩ := h.free
    exact ⟨k, hf.iff fun s => by rw [hl], hlen⟩

theorem len_le (h : Slab hashKey t next head n live key) : t.len ≤ n := by
  obtain ⟨k, -, hk⟩ := h.free
  omega

variable [DecidableEq κ]

/-- Looking up a key finds the live slot that carries it. -/
theorem find_iff (h : Slab hashKey t next head n live key) {k : κ} {s : ℕ} :
    t.find (hashKey k) (fun x => key x == k) = some s ↔ live s ∧ key s = k := by
  constructor
  · intro hs
    obtain ⟨hc, he⟩ := CellIndex.find_some h.wf hs
    exact ⟨((h.contains _ _).1 hc).1, by simpa using he⟩
  · rintro ⟨hs, rfl⟩
    have hc := (h.contains (hashKey (key s)) s).2 ⟨hs, rfl⟩
    obtain ⟨s', hs'⟩ := CellIndex.find_of_contains (p := fun x => key x == key s) h.wf hc (by simp)
    obtain ⟨hc', he⟩ := CellIndex.find_some h.wf hs'
    rw [hs', h.inj s' s ((h.contains _ _).1 hc').1 hs (by simpa using he)]

theorem find_none_iff (h : Slab hashKey t next head n live key) {k : κ} :
    t.find (hashKey k) (fun x => key x == k) = none ↔ ∀ s, live s → key s ≠ k := by
  rw [Option.eq_none_iff_forall_ne_some]
  simp only [ne_eq, h.find_iff, not_and]

omit [DecidableEq κ]

theorem head_spec {s : ℕ} (h : Slab hashKey t next (some s) n live key) : s < n ∧ ¬ live s := by
  obtain ⟨k, hf, -⟩ := h.free
  exact (hf.pop fun _ _ => rfl).1

/-- Taking slot `s` off the free list and indexing it under a key that is not in use. -/
theorem insert {s : ℕ} {k : κ} (h : Slab hashKey t next (some s) n live key)
    (hn : ∀ y, y ≠ s → next y = next' y) (hk : ∀ x, live x → key x ≠ k)
    (hl : ∀ x, live' x ↔ live x ∨ x = s) (hkey : ∀ x, x ≠ s → key' x = key x) (hs : key' s = k) :
    Slab hashKey (t.insertUnchecked (hashKey k) s) next' (next s) n live' key' := by
  obtain ⟨j, hf, hlen⟩ := h.free
  obtain ⟨⟨hsn, hsl⟩, m, rfl, hf'⟩ := hf.pop hn
  have hroom := h.room
  have hnew : ¬ t.Contains (hashKey k) s := fun hc => hsl ((h.contains _ _).1 hc).1
  obtain ⟨hw, hc⟩ := CellIndex.insertUnchecked_spec h.wf (by omega) hnew
  have hne : ∀ {x}, live x → x ≠ s := fun hx e => hsl (e ▸ hx)
  refine ⟨hw, hroom, fun x y => ?_, fun x y hx hy e => ?_, fun x hx => ?_, m, ?_, ?_⟩
  · rw [hc, h.contains, hl]
    constructor
    · rintro (⟨hy, rfl⟩ | ⟨rfl, rfl⟩)
      · exact ⟨.inl hy, by rw [hkey y (hne hy)]⟩
      · exact ⟨.inr rfl, by rw [hs]⟩
    · rintro ⟨hy | rfl, rfl⟩
      · exact .inl ⟨hy, by rw [hkey y (hne hy)]⟩
      · exact .inr ⟨by rw [hs], rfl⟩
  · rw [hl] at hx hy
    rcases hx with hx | rfl <;> rcases hy with hy | rfl
    · exact h.inj x y hx hy (by rwa [hkey x (hne hx), hkey y (hne hy)] at e)
    · exact absurd (by rw [← hkey x (hne hx), e, hs]) (hk x hx)
    · exact absurd (by rw [← hkey y (hne hy), ← e, hs]) (hk y hy)
    · rfl
  · rcases (hl x).1 hx with hx | rfl
    · exact h.lt x hx
    · exact hsn
  · exact hf'.iff fun x => by rw [hl]; tauto
  · simp only [CellIndex.insertUnchecked]; omega

/-- Unindexing a live slot and putting it back on the free list. -/
theorem remove {s : ℕ} (h : Slab hashKey t next head n live key) (hs : live s)
    (hl : ∀ x, live' x ↔ live x ∧ x ≠ s) (hkey : ∀ x, x ≠ s → key' x = key x) :
    Slab hashKey (t.remove (hashKey (key s)) s) (update next s head) (some s) n live' key' := by
  obtain ⟨j, hf, hlen⟩ := h.free
  have hroom := h.room
  obtain ⟨hw, hlen', hcap, hc⟩ := CellIndex.remove_spec h.wf (by omega)
    ((h.contains (hashKey (key s)) s).2 ⟨hs, rfl⟩)
  refine ⟨hw, hcap ▸ hroom, fun x y => ?_, fun x y hx hy e => ?_,
    fun x hx => h.lt x ((hl x).1 hx).1, j + 1, ?_, by omega⟩
  · rw [hc, h.contains, hl]
    constructor
    · rintro ⟨⟨hy, rfl⟩, hne⟩
      have hys : y ≠ s := fun e => hne ⟨by rw [e], e⟩
      exact ⟨⟨hy, hys⟩, by rw [hkey y hys]⟩
    · rintro ⟨⟨hy, hys⟩, rfl⟩
      exact ⟨⟨hy, by rw [hkey y hys]⟩, fun e => hys e.2⟩
  · obtain ⟨hx, hxs⟩ := (hl x).1 hx
    obtain ⟨hy, hys⟩ := (hl y).1 hy
    exact h.inj x y hx hy (by rwa [hkey x hxs, hkey y hys] at e)
  · have hsn := h.lt s hs
    refine (hf.push fun hp => hp.2 hs).iff fun x => ?_
    rw [hl]
    constructor
    · rintro (⟨h1, h2⟩ | rfl)
      · exact ⟨h1, fun h => h2 h.1⟩
      · exact ⟨hsn, fun h => h.2 rfl⟩
    · rintro ⟨h1, h2⟩
      by_cases hxs : x = s
      · exact .inr hxs
      · exact .inl ⟨h1, fun h => h2 ⟨h, hxs⟩⟩

end Slab

end Gabion
