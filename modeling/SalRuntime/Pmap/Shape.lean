import SalRuntime.Foundations.TrieShape
import SalRuntime.Pmap.Versions

/-!
# The shape of a map

Every persistent map that a program makes is stored in a canonical trie. If its keys have different
hashes, then the branches of the trie depend on the keys alone: a map with the same keys that
another program has built in another order, with other values, with deletions on the way or with
transients, has the same branches, and the scan in hash order meets the keys in the same order.

## Main definitions

* `shape` — the branches and the keys below a root.

## Main results

* `Represents.shape` — the shape of what represents a finite map is that of a canonical trie.
* `run_canonical` — maps with the same keys have the same shape.
-/

namespace SalRuntime

namespace PMap

variable {κ α β : Type}

/-- The branches and the keys of the trie at a root. -/
def shape (H : Heap κ α) : ℕ → Option ℕ → Except Fault (TrieShape κ UInt32)
  | 0, _ => throw .depth
  | _ + 1, none => return .nil
  | fuel + 1, some node => do
    match ← load H node with
    | .leaf _ _ k _ => return .leaf k
    | .cnode _ h keys _ => return .bucket h keys
    | .bnode _ bitmap arr =>
      return .branch (bits bitmap) (← arr.mapM fun kid => shape H fuel (some kid))

/-- The keys in ascending order. -/
def keys (H : Heap Key α) (m : PMap) : Except Fault (List Key) := do
  return (← m.entries H).map Prod.fst

open HashTrie in
theorem slots_eq_bits {hash : κ → UInt32} {bitmap : UInt32} {kids : ℕ → Trie κ α}
    (hbits : ∀ i, bitmap.toNat.testBit i = true ↔ kids i ≠ .nil) :
    slots (chunks hash) kids = bits bitmap := by
  rw [slots, bits, show (chunks hash).width = 32 from rfl]
  refine List.filter_congr fun i _ => ?_
  rw [Bool.eq_iff_iff, Bool.not_eq_true', isNil_eq_false_iff, hbits]

/-- **The shape** is read off the nodes. -/
theorem shape_eq {hash : κ → UInt32} {H : Heap κ α} {P : Option ℕ → Prop} {t : Trie κ α} {a : ℕ}
    {fp : Set ℕ} (hst : Stored hash H P t a fp) (n l : ℕ) (hn : n + l = 7)
    (hc : t.Canonical (chunks hash) l) :
    shape H (n + 1) (some a) = .ok (t.shape (chunks hash)) := by
  induction hst generalizing n l with
  | leaf hnode he =>
    rw [shape, load_bind hnode]
    rfl
  | bucket hnode he hlen =>
    rw [shape, load_bind hnode, HashTrie.shape, List.map_fst_zip hlen.le]
    rfl
  | @branch a e bitmap kids kid fps hnode he hbits hkids hself hdisj ih =>
    have hl : l < 7 := hc.1
    obtain ⟨n, rfl⟩ : ∃ m, n = m + 1 := ⟨n - 1, by omega⟩
    rw [shape, load_bind hnode, HashTrie.shape, slots_eq_bits hbits]
    show ((packed bitmap kid).mapM (fun kid => shape H (n + 1) (some kid)) >>= fun shapes =>
      pure (TrieShape.branch (bits bitmap) shapes)) = _
    rw [mapM_packed (g := fun i => (kids i).shape (chunks hash)) fun i hi =>
      ih i ((hbits i).mp hi) n (l + 1) (by omega) (hc.2.2 i).1]
    rfl

/-- The trie of a finite map, with its shape and its entries in hash order. -/
theorem Represents.shape {H : Heap Key α} {P : Option ℕ → Prop} {root : Option ℕ} {size : ℕ}
    {M : SortedMap Key α} (h : Represents H P root size M) :
    ∃ t : Trie Key α, t.Canonical (chunks hashKey) 0 ∧
      PMap.shape H LEVELS root = .ok (t.shape (chunks hashKey)) ∧
      PMap.forEachNode H LEVELS root = .ok (t.toList (chunks hashKey)) ∧
      ∀ k, k ∈ t.keys (chunks hashKey) ↔ k ∈ M.keys := by
  obtain ⟨t, hr, hc, hl, -⟩ := h
  have hkeys : ∀ k, k ∈ t.keys (chunks hashKey) ↔ k ∈ M.keys := fun k => by
    rw [SortedMap.mem_keys_iff, ← hl, HashTrie.keys, List.mem_map]
    constructor
    · rintro ⟨e, he, rfl⟩
      exact ⟨e.2, hc.mem_toList_iff.mp he⟩
    · rintro ⟨v, hv⟩
      exact ⟨(k, v), hc.mem_toList_iff.mpr hv, rfl⟩
  cases root with
  | none =>
    rw [show t = .nil from hr] at hkeys
    exact ⟨.nil, trivial, rfl, rfl, hkeys⟩
  | some a =>
    obtain ⟨fp, hst⟩ := hr
    exact ⟨t, hc, shape_eq hst 7 0 rfl hc, forEachNode_eq hst 7 0 rfl hc, hkeys⟩

/-- The finite map of a persistent map. -/
theorem Refines.represents {w : World α} {r : Ledger α} (h : Refines w r) {m : PMap}
    (hm : m ∈ w.maps) :
    ∃ M, Represents w.heap (Foreign w.edits none) m.root m.size M := by
  obtain ⟨i, hi⟩ := List.mem_iff_getElem?.mp hm
  rcases forall₂_getElem? h.maps i with ⟨hw, -⟩ | ⟨m', M, hw, -, hrep⟩
  · rw [hi] at hw
    cases hw
  · rw [hi] at hw
    cases hw
    exact ⟨M, hrep⟩

theorem Represents.keys {H : Heap Key α} {P : Option ℕ → Prop} {m : PMap} {M : SortedMap Key α}
    (h : Represents H P m.root m.size M) : m.keys H = .ok M.keys := by
  rw [PMap.keys, h.entries]
  rfl

/-- **Maps with the same keys have the same shape**, in whatever programs they are made, if the keys
have different hashes, and the scans in hash order meet the keys in the same order. -/
theorem run_canonical [DecidableEq α] [DecidableEq β] (cs : List (Command α))
    (cs' : List (Command β)) (m m' : PMap) (hm : m ∈ ((World.start : World α).run cs).1.maps)
    (hm' : m' ∈ ((World.start : World β).run cs').1.maps) (ks : List Key)
    (hkeys : m.keys (World.start.run cs).1.heap = .ok ks)
    (hkeys' : m'.keys (World.start.run cs').1.heap = .ok ks) (hdistinct : (ks.map hashKey).Nodup) :
    ∃ s es es', shape (World.start.run cs).1.heap LEVELS m.root = .ok s ∧
      shape (World.start.run cs').1.heap LEVELS m'.root = .ok s ∧
      m.forEachRaw (World.start.run cs).1.heap = .ok es ∧
      m'.forEachRaw (World.start.run cs').1.heap = .ok es' ∧
      es.map Prod.fst = es'.map Prod.fst := by
  obtain ⟨M, hM⟩ := (Refines.start.run cs).2.represents hm
  obtain ⟨M', hM'⟩ := (Refines.start.run cs').2.represents hm'
  obtain ⟨t, hc, hshape, hraw, hmem⟩ := hM.shape
  obtain ⟨t', hc', hshape', hraw', hmem'⟩ := hM'.shape
  have hks : M.keys = ks := Except.ok.inj (hM.keys.symm.trans hkeys)
  have hks' : M'.keys = ks := Except.ok.inj (hM'.keys.symm.trans hkeys')
  rw [hks] at hmem
  rw [hks'] at hmem'
  have hstrip : t.strip = t'.strip := hc.strip_eq hc' (fun k => (hmem k).trans (hmem' k).symm)
    fun k hk k' hk' heq =>
      List.inj_on_of_nodup_map hdistinct ((hmem k).mp hk) ((hmem k').mp hk') heq
  refine ⟨_, _, _, hshape, ?_, hraw, hraw', ?_⟩
  · rw [hshape', ← HashTrie.shape_strip, ← hstrip, HashTrie.shape_strip]
  · show t.keys (chunks hashKey) = t'.keys (chunks hashKey)
    rw [← HashTrie.keys_strip, hstrip, HashTrie.keys_strip]

/-- Two keys that are set one after the other, and the same keys in a transient, in the other order
and with a third key that is deleted again. -/
theorem run_canonical_two : ∃ s es es',
    shape ((World.start : World ℕ).run [.set 0 (.num 1) 10, .set 1 (.num 2) 20]).1.heap LEVELS
      (some 2) = .ok s ∧
    shape ((World.start : World ℕ).run [.begin 0, .transientSet 0 (.num 2) 7,
      .transientSet 0 (.num 3) 8, .transientSet 0 (.num 1) 9, .transientDelete 0 (.num 3),
      .freeze 0]).1.heap LEVELS (some 2) = .ok s ∧
    PMap.forEachRaw ((World.start : World ℕ).run [.set 0 (.num 1) 10, .set 1 (.num 2) 20]).1.heap
      ⟨some 2, 2⟩ = .ok es ∧
    PMap.forEachRaw ((World.start : World ℕ).run [.begin 0, .transientSet 0 (.num 2) 7,
      .transientSet 0 (.num 3) 8, .transientSet 0 (.num 1) 9, .transientDelete 0 (.num 3),
      .freeze 0]).1.heap ⟨some 2, 2⟩ = .ok es' ∧ es.map Prod.fst = es'.map Prod.fst :=
  run_canonical [.set 0 (.num 1) 10, .set 1 (.num 2) 20]
    [.begin 0, .transientSet 0 (.num 2) 7, .transientSet 0 (.num 3) 8, .transientSet 0 (.num 1) 9,
      .transientDelete 0 (.num 3), .freeze 0] ⟨some 2, 2⟩ ⟨some 2, 2⟩
    (List.mem_of_getElem? (i := 2) rfl) (List.mem_of_getElem? (i := 1) rfl) [.num 1, .num 2] rfl rfl
    (by decide)

end PMap

end SalRuntime
