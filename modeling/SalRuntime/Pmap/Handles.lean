import Mathlib.Data.List.Lex
import Mathlib.Data.List.Sort
import Mathlib.Data.Sum.Order
import SalRuntime.Datatypes.SidedOp
import SalRuntime.Foundations.SortedMap
import SalRuntime.Pmap.Removal

/-!
# Persistent maps and transients

A persistent map is a root and a size, and so is a transient, which also has an ownership token until
it is frozen. Both keep their entries in the trie below the root.

## Main definitions

* `Key`, `hashKey`, `cmpKeys` — the keys, their hashes, and the order of the entries.
* `PMap`, `PMap.get`, `PMap.entries`, `PMap.set`, `PMap.delete`, `PMap.begin` — the persistent maps.
* `TransientPMap`, `TransientPMap.set`, `TransientPMap.delete`, `TransientPMap.freeze` — the
  transients.
* `Represents` — a root and a size represent a finite map.

## Main results

* `Represents.nodeGet`, `Represents.entries` — what is read is read off the finite map.
* `Represents.exec_assoc`, `Represents.exec_dissoc` — what is written is written into it.
-/

namespace SalRuntime

/-! ### Keys -/

/-- A key: an integer, or a string as the list of its code units. -/
inductive Key
  /-- An integer. -/
  | num (n : ℤ)
  /-- A string. -/
  | str (units : List ℕ)
  deriving Repr

namespace Key

/-- Numbers come before strings. -/
def toSum : Key → ℤ ⊕ₗ List ℕ
  | num n => toLex (.inl n)
  | str units => toLex (.inr units)

theorem toSum_injective : Function.Injective toSum := by
  rintro (n | s) (n' | s') h
  · rw [Sum.inl.inj (toLex.injective h)]
  · exact nomatch toLex.injective h
  · exact nomatch toLex.injective h
  · rw [Sum.inr.inj (toLex.injective h)]

instance : LinearOrder Key := LinearOrder.lift' toSum toSum_injective

end Key

namespace PMap

/-- The hash of a string. -/
def hashString (units : List ℕ) : UInt32 :=
  mix (units.foldl (fun h c => (h ^^^ UInt32.ofNat c) * 0x01000193) 0x811c9dc5)

/-- The hash of a key. -/
def hashKey : Key → UInt32
  | .num k => mix (UInt32.ofInt k ^^^ (UInt32.ofInt (k / 0x100000000) * 0x9e3779b9))
  | .str units => hashString units

/-- The order of the entries: numbers ascending, then strings ascending. -/
def cmpKeys : Key → Key → ℤ
  | .num a, .num b => a - b
  | .num _, .str _ => -1
  | .str _, .num _ => 1
  | .str a, .str b => if a < b then -1 else if b < a then 1 else 0

theorem cmpKeys_le_zero_iff {a b : Key} : cmpKeys a b ≤ 0 ↔ a ≤ b := by
  show _ ↔ a.toSum ≤ b.toSum
  cases a with
  | num a =>
    cases b with
    | num b =>
      rw [cmpKeys, Key.toSum, Key.toSum, Sum.Lex.toLex_le_toLex, Sum.lex_inl_inl]
      omega
    | str b =>
      rw [cmpKeys, Key.toSum, Key.toSum, Sum.Lex.toLex_le_toLex]
      simp
  | str a =>
    cases b with
    | num b =>
      rw [cmpKeys, Key.toSum, Key.toSum, Sum.Lex.toLex_le_toLex]
      simp
    | str b =>
      rw [cmpKeys, Key.toSum, Key.toSum, Sum.Lex.toLex_le_toLex, Sum.lex_inr_inr]
      rcases lt_trichotomy a b with h | h | h
      · simp [h, h.le]
      · simp [h]
      · simp [h, h.not_gt, h.not_ge]

/-! ### Persistent maps -/

variable {α : Type}

/-- The number of nodes on the longest path: seven branches and a leaf or a bucket. -/
def LEVELS : ℕ := 8

end PMap

/-- A persistent map. -/
structure PMap where
  /-- The root of the trie. -/
  root : Option ℕ
  /-- The number of entries. -/
  size : ℕ

/-- A transient. -/
structure TransientPMap where
  /-- The ownership token, until the transient is frozen. -/
  edit : Option ℕ
  /-- The root of the trie. -/
  root : Option ℕ
  /-- The number of entries. -/
  size : ℕ

variable {α : Type}

namespace PMap

/-- The empty map. -/
def empty : PMap := ⟨none, 0⟩

/-- The value of a key. -/
def get (H : Heap Key α) (m : PMap) (k : Key) : Except Fault (Option α) :=
  nodeGet H LEVELS m.root 0 (hashKey k) k

/-- The map has the key. -/
def has (H : Heap Key α) (m : PMap) (k : Key) : Except Fault Bool := do
  return (← nodeGet H LEVELS m.root 0 (hashKey k) k).isSome

/-- The entries in hash order. -/
def forEachRaw (H : Heap Key α) (m : PMap) : Except Fault (List (Key × α)) :=
  forEachNode H LEVELS m.root

/-- The entries in the order of their keys. -/
def entries (H : Heap Key α) (m : PMap) : Except Fault (List (Key × α)) := do
  return (← m.forEachRaw H).insertionSort fun a b => cmpKeys a.1 b.1 ≤ 0

/-- The map with the value `v` at `k`, or the same map if nothing changes. -/
def set [DecidableEq α] (m : PMap) (k : Key) (v : α) : Calls Key α PMap := do
  let (r, added) ← assoc LEVELS m.root 0 (hashKey k) k v none
  if some r = m.root then
    return m
  return ⟨some r, m.size + if added then 1 else 0⟩

/-- The map without the key `k`, or the same map if the key is not there. -/
def delete (m : PMap) (k : Key) : Calls Key α PMap := do
  let (r, removed) ← dissoc LEVELS m.root 0 (hashKey k) k none
  if !removed then
    return m
  return ⟨r, m.size - 1⟩

/-- A transient with a new token. -/
def begin (m : PMap) (token : ℕ) : TransientPMap := ⟨some token, m.root, m.size⟩

end PMap

namespace TransientPMap

open PMap

/-- The transient has not been frozen. -/
def alive (t : TransientPMap) : Except Fault Unit :=
  if t.edit = none then throw .frozen else return ()

theorem alive_eq {t : TransientPMap} (h : t.edit ≠ none) : t.alive = .ok () := by
  rw [alive, if_neg h]
  rfl

theorem alive_frozen {t : TransientPMap} (h : t.edit = none) : t.alive = .error .frozen := by
  rw [alive, if_pos h]
  rfl

theorem exec_alive {t : TransientPMap} (h : t.edit ≠ none) (H : Heap Key α) :
    Effect.exec (liftM t.alive : Calls Key α Unit) H = (.ok (), H) := by
  rw [Effect.exec_lift, alive_eq h]

theorem exec_frozen {t : TransientPMap} (h : t.edit = none) (H : Heap Key α) :
    Effect.exec (liftM t.alive : Calls Key α Unit) H = (.error .frozen, H) := by
  rw [Effect.exec_lift, alive_frozen h]

/-- The number of entries. -/
def getSize (t : TransientPMap) : Except Fault ℕ := do
  t.alive
  return t.size

/-- The value of a key. -/
def get (H : Heap Key α) (t : TransientPMap) (k : Key) : Except Fault (Option α) := do
  t.alive
  nodeGet H LEVELS t.root 0 (PMap.hashKey k) k

/-- The transient has the key. -/
def has (H : Heap Key α) (t : TransientPMap) (k : Key) : Except Fault Bool := do
  t.alive
  return (← nodeGet H LEVELS t.root 0 (PMap.hashKey k) k).isSome

/-- The transient after the value `v` has been set at `k`. -/
def set [DecidableEq α] (t : TransientPMap) (k : Key) (v : α) : Calls Key α TransientPMap := do
  t.alive
  let (r, added) ← assoc LEVELS t.root 0 (PMap.hashKey k) k v t.edit
  return ⟨t.edit, some r, t.size + if added then 1 else 0⟩

/-- The transient after the key `k` has been deleted. -/
def delete (t : TransientPMap) (k : Key) : Calls Key α TransientPMap := do
  t.alive
  let (r, removed) ← dissoc LEVELS t.root 0 (PMap.hashKey k) k t.edit
  return ⟨t.edit, r, t.size - if removed then 1 else 0⟩

/-- The frozen transient, and the persistent map that it has become. -/
def freeze (t : TransientPMap) : Except Fault (TransientPMap × PMap) := do
  t.alive
  return (⟨none, t.root, t.size⟩, if t.size = 0 then PMap.empty else ⟨t.root, t.size⟩)

end TransientPMap

namespace PMap

/-! ### The finite map that is represented -/

/-- The trie at a root, which is null if the trie is empty. -/
def Rooted (H : Heap Key α) (P : Option ℕ → Prop) (t : Trie Key α) : Option ℕ → Prop
  | none => t = .nil
  | some a => ∃ fp, Stored hashKey H P t a fp

/-- A root and a size represent the finite map `M`, in nodes whose tokens satisfy `P`. -/
def Represents (H : Heap Key α) (P : Option ℕ → Prop) (root : Option ℕ) (size : ℕ)
    (M : SortedMap Key α) : Prop :=
  ∃ t : Trie Key α, Rooted H P t root ∧ t.Canonical (chunks hashKey) 0 ∧
    (∀ k, t.lookup (chunks hashKey) 0 k = M.get? k) ∧ size = M.size

open Effect

namespace Represents

variable {H H' : Heap Key α} {P P' : Option ℕ → Prop} {root edit : Option ℕ} {size size' : ℕ}
  {M M' : SortedMap Key α}

theorem empty (H : Heap Key α) (P : Option ℕ → Prop) :
    Represents H P none 0 (SortedMap.empty : SortedMap Key α) :=
  ⟨.nil, rfl, trivial, fun _ => rfl, rfl⟩

theorem nodeGet (h : Represents H P root size M) (k : Key) :
    PMap.nodeGet H LEVELS root 0 (hashKey k) k = .ok (M.get? k) := by
  obtain ⟨t, hr, hc, hl, -⟩ := h
  rw [← hl]
  cases root with
  | none =>
    rw [show t = .nil from hr]
    rfl
  | some a =>
    obtain ⟨fp, hst⟩ := hr
    exact nodeGet_eq hst k 7 0 rfl hc

theorem size_eq (h : Represents H P root size M) : size = M.size := by
  obtain ⟨t, -, -, -, hs⟩ := h
  exact hs

theorem frame (h : Represents H P root size M) (hk : Keeps edit Set.univ H H')
    (hP : ∀ e, P e → owns edit e = false) : Represents H' P root size M := by
  obtain ⟨t, hr, hc, hl, hs⟩ := h
  refine ⟨t, ?_, hc, hl, hs⟩
  cases root with
  | none => exact hr
  | some a =>
    obtain ⟨fp, hst⟩ := hr
    refine ⟨fp, hst.keeps hk fun x hx _ n hn => ?_⟩
    obtain ⟨n', hn', he⟩ := hst.alive x hx
    rw [hn] at hn'
    cases hn'
    exact hP _ he

theorem mono (h : Represents H P root size M)
    (himp : ∀ x n, H.node x = some n → P n.edit → P' n.edit) : Represents H P' root size M := by
  obtain ⟨t, hr, hc, hl, hs⟩ := h
  refine ⟨t, ?_, hc, hl, hs⟩
  cases root with
  | none => exact hr
  | some a =>
    obtain ⟨fp, hst⟩ := hr
    exact ⟨fp, hst.mono himp⟩

/-- The entries, in some order, are those of the finite map. -/
theorem forEachNode (h : Represents H P root size M) : ∃ es, PMap.forEachNode H LEVELS root = .ok es ∧
    (es.map Prod.fst).Nodup ∧ ∀ e, e ∈ es ↔ e ∈ M.entries := by
  obtain ⟨t, hr, hc, hl, -⟩ := h
  refine ⟨t.toList (chunks hashKey), ?_, hc.nodup_keys, fun e => ?_⟩
  · cases root with
    | none =>
      rw [show t = .nil from hr]
      rfl
    | some a =>
      obtain ⟨fp, hst⟩ := hr
      exact forEachNode_eq hst 7 0 rfl hc
  · rw [hc.mem_toList_iff (k := e.1) (v := e.2), hl, SortedMap.mem_entries_iff]

/-- **The entries** in the order of their keys are those of the finite map. -/
theorem entries {m : PMap} (h : Represents H P m.root m.size M) : m.entries H = .ok M.entries := by
  obtain ⟨es, hes, hnodup, hmem⟩ := h.forEachNode
  have hle : (fun a b : Key × α => cmpKeys a.1 b.1 ≤ 0) = fun a b => a.1 ≤ b.1 := by
    funext a b
    exact propext cmpKeys_le_zero_iff
  have htotal : Std.Total fun a b : Key × α => cmpKeys a.1 b.1 ≤ 0 :=
    hle ▸ ⟨fun a b => le_total a.1 b.1⟩
  have htrans : IsTrans (Key × α) fun a b => cmpKeys a.1 b.1 ≤ 0 :=
    hle ▸ ⟨fun a b c => le_trans⟩
  have hperm : (es.insertionSort fun a b => cmpKeys a.1 b.1 ≤ 0).Perm M.entries :=
    (List.perm_insertionSort _ _).trans ((List.perm_ext_iff_of_nodup (List.Nodup.of_map _ hnodup)
      (List.Nodup.of_map _ M.nodup_keys)).mpr hmem)
  have hsort : es.insertionSort (fun a b => cmpKeys a.1 b.1 ≤ 0) = M.entries := by
    refine hperm.eq_of_pairwise (fun a b ha hb hab hba => ?_) (List.pairwise_insertionSort _ _)
      (M.sorted.imp fun hlt => cmpKeys_le_zero_iff.mpr hlt.le)
    have hkey : a.1 = b.1 := le_antisymm (cmpKeys_le_zero_iff.mp hab) (cmpKeys_le_zero_iff.mp hba)
    exact List.inj_on_of_nodup_map M.nodup_keys (hperm.mem_iff.mp ha) hb hkey
  rw [PMap.entries, PMap.forEachRaw, hes]
  exact congrArg Except.ok hsort

/-- Only one finite map is represented by a root. -/
theorem unique (h : Represents H P root size M) (h' : Represents H P' root size' M') : M = M' := by
  obtain ⟨t, hr, -, hl, -⟩ := h
  obtain ⟨t', hr', -, hl', -⟩ := h'
  have ht : t = t' := by
    cases root with
    | none => exact (show t = .nil from hr).trans (show t' = .nil from hr').symm
    | some a =>
      obtain ⟨fp, hst⟩ := hr
      obtain ⟨fp', hst'⟩ := hr'
      exact hst.unique hst'
  exact SortedMap.ext_get? fun k => by rw [← hl, ← hl', ht]

/-- **Insertion** into what a root represents. -/
theorem exec_assoc [DecidableEq α] (h : Represents H P root size M) (hP : P edit)
    (hb : H.Bounded) (k : Key) (v : α) :
    ∃ a H', exec (assoc LEVELS root 0 (hashKey k) k v edit) H = (.ok (a, !M.has k), H') ∧
      Represents H' P (some a) (size + if M.has k then 0 else 1) (M.insert k v) ∧
      Keeps edit Set.univ H H' := by
  obtain ⟨t, hr, hc, hl, hs⟩ := h
  have hagree := HashTrie.agrees_zero (S := chunks hashKey) (hashKey k) t
  have hlookup : ∀ k', (t.assoc (chunks hashKey) 0 k v).lookup (chunks hashKey) 0 k' =
      (M.insert k v).get? k' := fun k' => by
    rw [HashTrie.lookup_assoc hc hagree (Nat.zero_le _), SortedMap.get?_insert, hl]
  have hhas : (t.lookup (chunks hashKey) 0 k).isNone = !M.has k := by
    rw [hl, SortedMap.has]
    cases M.get? k <;> rfl
  have hsize : (size + if M.has k then 0 else 1) = (M.insert k v).size := by
    rw [SortedMap.size_insert, hs]
  cases root with
  | none =>
    subst hr
    have hk : Keeps edit Set.univ H (H.push (.leaf edit (hashKey k) k v)) := Keeps.push hb rfl
    refine ⟨H.next, _, ?_, ⟨.leaf k v, ⟨{H.next}, .leaf (H.node_push_self _) hP⟩, trivial, hlookup,
      hsize⟩, hk⟩
    rw [← hhas]
    rfl
  | some a =>
    obtain ⟨fp, hst⟩ := hr
    obtain ⟨a', H', hexec, hk, fp', hst', -⟩ := PMap.exec_assoc (k := k) (v := v) hst hP hb 7 0 rfl hc
      hagree
    refine ⟨a', H', hhas ▸ hexec, ⟨_, ⟨fp', hst'⟩, hc.assoc hagree (Nat.zero_le _), hlookup, hsize⟩,
      hk.mono (fun x _ => Or.inl (Set.mem_univ x)) hb⟩

/-- **Removal** from what a root represents. -/
theorem exec_dissoc (h : Represents H P root size M) (hP : P edit) (hb : H.Bounded) (k : Key) :
    ∃ o H', exec (dissoc LEVELS root 0 (hashKey k) k edit) H = (.ok (o, M.has k), H') ∧
      Represents H' P o (size - if M.has k then 1 else 0) (M.erase k) ∧
      Keeps edit Set.univ H H' := by
  obtain ⟨t, hr, hc, hl, hs⟩ := h
  have hlookup : ∀ k', (t.dissoc (chunks hashKey) 0 k).lookup (chunks hashKey) 0 k' =
      (M.erase k).get? k' := fun k' => by
    rw [HashTrie.lookup_dissoc hc, SortedMap.get?_erase, hl]
  have hhas : (t.lookup (chunks hashKey) 0 k).isSome = M.has k := by
    rw [hl, SortedMap.has]
  have hsize : (size - if M.has k then 1 else 0) = (M.erase k).size := by
    rw [SortedMap.size_erase, hs]
  cases root with
  | none =>
    subst hr
    refine ⟨none, H, ?_, ⟨.nil, rfl, trivial, hlookup, hsize⟩, Keeps.refl hb⟩
    rw [← hhas]
    rfl
  | some a =>
    obtain ⟨fp, hst⟩ := hr
    obtain ⟨o, H', hexec, hleft⟩ := PMap.exec_dissoc (k := k) hst hP hb 7 0 rfl hc
    refine ⟨o, H', hhas ▸ hexec, ?_⟩
    cases o with
    | none =>
      obtain ⟨hk, hnil⟩ := hleft
      exact ⟨⟨_, hnil, hc.dissoc, hlookup, hsize⟩,
        hk.mono (fun x _ => Or.inl (Set.mem_univ x)) hb⟩
    | some a' =>
      obtain ⟨hk, fp', hst', -⟩ := hleft
      exact ⟨⟨_, ⟨fp', hst'⟩, hc.dissoc, hlookup, hsize⟩,
        hk.mono (fun x _ => Or.inl (Set.mem_univ x)) hb⟩

theorem set [DecidableEq α] {m : PMap} (h : Represents H P m.root m.size M) (hP : P none)
    (hb : H.Bounded) (k : Key) (v : α) :
    ∃ m' H', exec (m.set k v) H = (.ok m', H') ∧ Represents H' P m'.root m'.size (M.insert k v) ∧
      Keeps none Set.univ H H' := by
  obtain ⟨a, H', hexec, hrep, hk⟩ := h.exec_assoc hP hb k v
  have hold : Represents H' P m.root m.size M := h.frame hk fun _ _ => rfl
  rw [PMap.set, exec_bind_ok hexec]
  by_cases hr : some a = m.root
  · have hM : M = M.insert k v := hold.unique (hr ▸ hrep)
    exact ⟨m, H', by simp only [if_pos hr]; rfl, hM ▸ hold, hk⟩
  · refine ⟨⟨some a, m.size + if !M.has k then 1 else 0⟩, H', by simp only [if_neg hr]; rfl, ?_, hk⟩
    cases hhas : M.has k with
    | true => simpa [hhas] using hrep
    | false => simpa [hhas] using hrep

theorem delete {m : PMap} (h : Represents H P m.root m.size M) (hP : P none) (hb : H.Bounded)
    (k : Key) :
    ∃ m' H', exec (m.delete k) H = (.ok m', H') ∧ Represents H' P m'.root m'.size (M.erase k) ∧
      Keeps none Set.univ H H' := by
  obtain ⟨o, H', hexec, hrep, hk⟩ := h.exec_dissoc hP hb k
  have hold : Represents H' P m.root m.size M := h.frame hk fun _ _ => rfl
  rw [PMap.delete, exec_bind_ok hexec]
  cases hhas : M.has k with
  | true => exact ⟨⟨o, m.size - 1⟩, H', rfl, by simpa [hhas] using hrep, hk⟩
  | false =>
    have hM : M = M.erase k := SortedMap.ext_get? fun k' => by
      rw [SortedMap.get?_erase]
      split_ifs with hk'
      · rw [hk', SortedMap.has_eq_false_iff.mp hhas]
      · rfl
    exact ⟨m, H', rfl, hM ▸ hold, hk⟩

theorem transientSet [DecidableEq α] {t : TransientPMap} (h : Represents H P t.root t.size M)
    (hP : P t.edit) (hb : H.Bounded) (halive : t.edit ≠ none) (k : Key) (v : α) :
    ∃ t' H', exec (t.set k v) H = (.ok t', H') ∧ t'.edit = t.edit ∧
      Represents H' P t'.root t'.size (M.insert k v) ∧ Keeps t.edit Set.univ H H' := by
  obtain ⟨a, H', hexec, hrep, hk⟩ := h.exec_assoc hP hb k v
  refine ⟨⟨t.edit, some a, t.size + if !M.has k then 1 else 0⟩, H', ?_, rfl, ?_, hk⟩
  · rw [TransientPMap.set, exec_bind_ok (TransientPMap.exec_alive halive H),
      exec_bind_ok hexec]
    rfl
  · cases hhas : M.has k with
    | true => simpa [hhas] using hrep
    | false => simpa [hhas] using hrep

theorem transientDelete {t : TransientPMap} (h : Represents H P t.root t.size M) (hP : P t.edit)
    (hb : H.Bounded) (halive : t.edit ≠ none) (k : Key) :
    ∃ t' H', exec (t.delete k) H = (.ok t', H') ∧ t'.edit = t.edit ∧
      Represents H' P t'.root t'.size (M.erase k) ∧ Keeps t.edit Set.univ H H' := by
  obtain ⟨o, H', hexec, hrep, hk⟩ := h.exec_dissoc hP hb k
  refine ⟨⟨t.edit, o, t.size - if M.has k then 1 else 0⟩, H', ?_, rfl, hrep, hk⟩
  rw [TransientPMap.delete, exec_bind_ok (TransientPMap.exec_alive halive H),
    exec_bind_ok hexec]
  rfl

end Represents

end PMap

end SalRuntime
