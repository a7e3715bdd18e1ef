import Mathlib.Data.List.Sort
import Mathlib.Order.Defs.LinearOrder

/-!
# Finite maps as sorted association lists

A finite map over a linearly ordered key type is a list of entries with strictly increasing
keys. The representation is canonical: two maps with the same lookups are equal
(`SortedMap.ext_get?`), whatever sequence of insertions and erasures produced them, and listing
the entries lists the keys in ascending order.

## Main definitions

* `SortedMap` — the entries together with the proof that the keys increase.
* `SortedMap.get?`, `SortedMap.has`, `SortedMap.insert`, `SortedMap.erase`, `SortedMap.mapVal`,
  `SortedMap.filter`, `SortedMap.ofList` — lookup, update and bulk construction.

## Main results

* `SortedMap.mem_entries_iff` — the entries are the graph of the lookup function.
* `SortedMap.ext_get?` — extensionality.
* `SortedMap.get?_insert`, `SortedMap.get?_erase`, `SortedMap.get?_filter`,
  `SortedMap.get?_mapVal` — the lookup of an updated map.
-/

namespace SalRuntime

universe u v w

/-- A finite map: entries with strictly increasing keys. -/
structure SortedMap (K : Type u) (V : Type v) [LinearOrder K] where
  /-- The entries, in ascending order of their keys. -/
  entries : List (K × V)
  /-- The keys strictly increase along the entries. -/
  sorted : entries.Pairwise fun a b => a.1 < b.1

namespace SortedMap

variable {K : Type u} {V : Type v} {W : Type w} [LinearOrder K]

/-- The empty map. -/
def empty : SortedMap K V := ⟨[], List.Pairwise.nil⟩

instance : Inhabited (SortedMap K V) := ⟨empty⟩

instance : EmptyCollection (SortedMap K V) := ⟨empty⟩

/-- The value at a key, if there is one. -/
def get? (m : SortedMap K V) (k : K) : Option V :=
  (m.entries.find? fun e => e.1 = k).map Prod.snd

/-- Is there a value at this key? -/
def has (m : SortedMap K V) (k : K) : Bool := (m.get? k).isSome

/-- The keys, ascending. -/
def keys (m : SortedMap K V) : List K := m.entries.map Prod.fst

/-- The values, in ascending order of their keys. -/
def values (m : SortedMap K V) : List V := m.entries.map Prod.snd

/-- The number of entries. -/
def size (m : SortedMap K V) : ℕ := m.entries.length

/-- Insertion of an entry into a list of entries, replacing the entry of the same key. -/
def insertEntry (k : K) (v : V) : List (K × V) → List (K × V)
  | [] => [(k, v)]
  | e :: es =>
    if k < e.1 then (k, v) :: e :: es
    else if k = e.1 then (k, v) :: es
    else e :: insertEntry k v es

theorem mem_insertEntry {k : K} {v : V} {e : K × V} {es : List (K × V)}
    (h : e ∈ insertEntry k v es) : e = (k, v) ∨ e ∈ es := by
  induction es with
  | nil => simpa [insertEntry] using h
  | cons a es ih =>
    rw [insertEntry] at h
    split_ifs at h
    · simpa using h
    · rcases List.mem_cons.mp h with h | h
      · exact Or.inl h
      · exact Or.inr (List.mem_cons_of_mem _ h)
    · rcases List.mem_cons.mp h with h | h
      · exact Or.inr (h ▸ List.mem_cons_self)
      · exact (ih h).imp_right (List.mem_cons_of_mem _)

theorem sorted_insertEntry (k : K) (v : V) {es : List (K × V)}
    (h : es.Pairwise fun a b => a.1 < b.1) :
    (insertEntry k v es).Pairwise fun a b => a.1 < b.1 := by
  induction es with
  | nil => exact List.pairwise_singleton _ _
  | cons a es ih =>
    obtain ⟨ha, hes⟩ := List.pairwise_cons.mp h
    rw [insertEntry]
    split_ifs with hlt heq
    · refine List.Pairwise.cons (fun b hb => ?_) h
      rcases List.mem_cons.mp hb with rfl | hb
      · exact hlt
      · exact hlt.trans (ha b hb)
    · exact List.Pairwise.cons (fun b hb => by simpa [heq] using ha b hb) hes
    · refine List.Pairwise.cons (fun b hb => ?_) (ih hes)
      rcases mem_insertEntry hb with rfl | hb
      · exact lt_of_le_of_ne (not_lt.mp hlt) (Ne.symm heq)
      · exact ha b hb

/-- An insertion adds an entry or replaces one. -/
theorem length_insertEntry_le (k : K) (v : V) (es : List (K × V)) :
    (insertEntry k v es).length ≤ es.length + 1 := by
  induction es with
  | nil => exact le_rfl
  | cons e es ih =>
    rw [insertEntry]
    split_ifs
    · exact le_rfl
    · exact Nat.le_succ _
    · exact Nat.succ_le_succ ih

/-- An insertion that replaces no entry adds one. -/
theorem perm_insertEntry {k : K} {v : V} {es : List (K × V)}
    (h : (insertEntry k v es).length = es.length + 1) : (insertEntry k v es).Perm ((k, v) :: es) := by
  induction es with
  | nil => exact .refl _
  | cons e es ih =>
    rw [insertEntry] at h ⊢
    split_ifs at h ⊢
    · exact .refl _
    · simp at h
    · exact ((ih (Nat.succ.inj h)).cons e).trans (.swap _ _ _)

/-- The map with the value `v` at `k`. -/
def insert (m : SortedMap K V) (k : K) (v : V) : SortedMap K V :=
  ⟨insertEntry k v m.entries, sorted_insertEntry k v m.sorted⟩

/-- The map without the key `k`. -/
def erase (m : SortedMap K V) (k : K) : SortedMap K V :=
  ⟨m.entries.filter fun e => e.1 ≠ k, m.sorted.filter _⟩

/-- The map with every value replaced by its image. -/
def mapVal (f : K → V → W) (m : SortedMap K V) : SortedMap K W :=
  ⟨m.entries.map fun e => (e.1, f e.1 e.2), m.sorted.map _ fun _ _ h => h⟩

/-- The entries that satisfy a predicate. -/
def filter (p : K → V → Bool) (m : SortedMap K V) : SortedMap K V :=
  ⟨m.entries.filter fun e => p e.1 e.2, m.sorted.filter _⟩

/-- The map built by inserting the entries of a list from left to right. -/
def ofList (l : List (K × V)) : SortedMap K V :=
  l.foldl (fun m e => m.insert e.1 e.2) empty

/-! ### Lookups and entries -/

theorem find?_eq_some_iff {es : List (K × V)} (h : es.Pairwise fun a b => a.1 < b.1) {k : K}
    {e : K × V} : es.find? (fun e => e.1 = k) = some e ↔ e ∈ es ∧ e.1 = k := by
  induction es with
  | nil => simp
  | cons a es ih =>
    obtain ⟨ha, hes⟩ := List.pairwise_cons.mp h
    rw [List.find?_cons]
    by_cases hk : a.1 = k
    · simp only [hk, decide_true, Option.some.injEq, List.mem_cons]
      constructor
      · rintro rfl
        exact ⟨Or.inl rfl, hk⟩
      · rintro ⟨rfl | he, hek⟩
        · rfl
        · exact absurd (ha e he) (by rw [hk, hek]; exact lt_irrefl _)
    · simp only [hk, decide_false, ih hes, List.mem_cons]
      constructor
      · exact fun ⟨he, hek⟩ => ⟨Or.inr he, hek⟩
      · rintro ⟨rfl | he, hek⟩
        · exact absurd hek hk
        · exact ⟨he, hek⟩

/-- **The entries are the graph of the lookup function.** -/
theorem mem_entries_iff {m : SortedMap K V} {k : K} {v : V} :
    (k, v) ∈ m.entries ↔ m.get? k = some v := by
  simp only [get?, Option.map_eq_some_iff, find?_eq_some_iff m.sorted]
  constructor
  · exact fun h => ⟨(k, v), ⟨h, rfl⟩, rfl⟩
  · rintro ⟨⟨k', v'⟩, ⟨h, rfl⟩, rfl⟩
    exact h

theorem mem_keys_iff {m : SortedMap K V} {k : K} : k ∈ m.keys ↔ ∃ v, m.get? k = some v := by
  simp only [keys, List.mem_map, Prod.exists, exists_and_right, exists_eq_right, mem_entries_iff]

theorem has_iff {m : SortedMap K V} {k : K} : m.has k = true ↔ ∃ v, m.get? k = some v := by
  rw [has, Option.isSome_iff_exists]

theorem has_eq_false_iff {m : SortedMap K V} {k : K} : m.has k = false ↔ m.get? k = none := by
  rw [has, Option.isSome_eq_false_iff, Option.isNone_iff_eq_none]

theorem nodup_keys (m : SortedMap K V) : m.keys.Nodup := by
  rw [keys, List.Nodup, List.pairwise_map]
  exact m.sorted.imp fun h => h.ne

/-- **Extensionality.** Maps with the same lookups are equal. -/
theorem ext_get? {m m' : SortedMap K V} (h : ∀ k, m.get? k = m'.get? k) : m = m' := by
  have hmem : ∀ e, e ∈ m.entries ↔ e ∈ m'.entries := fun ⟨k, v⟩ => by
    rw [mem_entries_iff, mem_entries_iff, h]
  have hnodup (n : SortedMap K V) : n.entries.Nodup := by
    refine List.Pairwise.imp (fun {a b} hlt heq => ?_) n.sorted
    exact absurd hlt (by rw [heq]; exact lt_irrefl _)
  have hperm : m.entries.Perm m'.entries :=
    (List.perm_ext_iff_of_nodup (hnodup m) (hnodup m')).mpr hmem
  have heq : m.entries = m'.entries := hperm.eq_of_pairwise
    (fun a b _ _ hab hba => absurd hab (lt_asymm hba)) m.sorted m'.sorted
  cases m
  cases m'
  congr

instance [DecidableEq V] : DecidableEq (SortedMap K V) := fun m m' =>
  decidable_of_iff (m.entries = m'.entries) ⟨fun h => by cases m; cases m'; congr,
    fun h => h ▸ rfl⟩

/-! ### Lookups in updated maps -/

@[simp] theorem get?_empty (k : K) : (empty : SortedMap K V).get? k = none := rfl

@[simp] theorem has_empty (k : K) : (empty : SortedMap K V).has k = false := rfl

theorem find?_insertEntry (k : K) (v : V) (k' : K) (es : List (K × V)) :
    (insertEntry k v es).find? (fun e => e.1 = k') =
      if k' = k then some (k, v) else es.find? fun e => e.1 = k' := by
  by_cases hk : k' = k
  · subst hk
    simp only [↓reduceIte]
    induction es with
    | nil => simp [insertEntry]
    | cons a es ih =>
      rw [insertEntry]
      split_ifs with hlt heq
      · simp
      · simp
      · rw [List.find?_cons_of_neg (by simpa using Ne.symm heq), ih]
  · simp only [if_neg hk]
    induction es with
    | nil => simp [insertEntry, Ne.symm hk]
    | cons a es ih =>
      rw [insertEntry]
      split_ifs with hlt heq
      · rw [List.find?_cons_of_neg (by simpa using Ne.symm hk)]
      · rw [List.find?_cons_of_neg (by simpa using Ne.symm hk),
          List.find?_cons_of_neg (by simpa [← heq] using Ne.symm hk)]
      · rw [List.find?_cons, List.find?_cons, ih]

theorem get?_insert (m : SortedMap K V) (k : K) (v : V) (k' : K) :
    (m.insert k v).get? k' = if k' = k then some v else m.get? k' := by
  rw [get?, insert, find?_insertEntry]
  split_ifs with h
  · rfl
  · rfl

@[simp] theorem get?_insert_self (m : SortedMap K V) (k : K) (v : V) :
    (m.insert k v).get? k = some v := by simp [get?_insert]

theorem get?_insert_of_ne (m : SortedMap K V) {k k' : K} (v : V) (h : k' ≠ k) :
    (m.insert k v).get? k' = m.get? k' := by simp [get?_insert, h]

theorem has_insert (m : SortedMap K V) (k : K) (v : V) (k' : K) :
    (m.insert k v).has k' = (decide (k' = k) || m.has k') := by
  by_cases h : k' = k <;> simp [has, get?_insert, h]

theorem mem_keys_iff_has {m : SortedMap K V} {k : K} : k ∈ m.keys ↔ m.has k = true := by
  rw [mem_keys_iff, has_iff]

theorem mem_keys_insert {m : SortedMap K V} {k k' : K} {v : V} (h : k' ∈ (m.insert k v).keys) :
    k' = k ∨ k' ∈ m.keys := by
  simpa [mem_keys_iff_has, has_insert] using h

theorem get?_erase (m : SortedMap K V) (k k' : K) :
    (m.erase k).get? k' = if k' = k then none else m.get? k' := by
  rw [get?, get?, erase, List.find?_filter]
  split_ifs with h
  · simp [h]
  · congr 2
    funext e
    by_cases he : e.1 = k'
    · simp [he, h]
    · simp [he]

theorem has_erase (m : SortedMap K V) (k k' : K) :
    (m.erase k).has k' = (decide (k' ≠ k) && m.has k') := by
  by_cases h : k' = k <;> simp [has, get?_erase, h]

theorem mem_keys_of_erase {m : SortedMap K V} {k k' : K} (h : k' ∈ (m.erase k).keys) :
    k' ∈ m.keys := by
  rw [mem_keys_iff_has, has_erase, Bool.and_eq_true] at h
  exact mem_keys_iff_has.mpr h.2

theorem get?_foldl_erase (ks : List K) (m : SortedMap K V) (k : K) :
    (ks.foldl erase m).get? k = if k ∈ ks then none else m.get? k := by
  induction ks generalizing m with
  | nil => simp
  | cons k' ks ih =>
    rw [List.foldl_cons, ih, get?_erase]
    by_cases hk : k = k'
    · simp [hk]
    · simp [hk]

theorem get?_filter (p : K → V → Bool) (m : SortedMap K V) (k : K) :
    (m.filter p).get? k = (m.get? k).filter (p k) := by
  ext v
  rw [← mem_entries_iff, filter, List.mem_filter, mem_entries_iff, Option.filter_eq_some_iff]

theorem get?_mapVal (f : K → V → W) (m : SortedMap K V) (k : K) :
    (m.mapVal f).get? k = (m.get? k).map (f k) := by
  rw [get?, get?, mapVal, List.find?_map, Option.map_map, Option.map_map]
  have hcomp : ((fun e : K × W => decide (e.1 = k)) ∘ fun e : K × V => (e.1, f e.1 e.2)) =
      fun e => decide (e.1 = k) := rfl
  rw [hcomp]
  cases h : m.entries.find? fun e => e.1 = k with
  | none => rfl
  | some e =>
    have he : e.1 = k := ((find?_eq_some_iff m.sorted).mp h).2
    simp [he]

@[simp] theorem has_mapVal (f : K → V → W) (m : SortedMap K V) (k : K) :
    (m.mapVal f).has k = m.has k := by
  simp [has, get?_mapVal]

@[simp] theorem keys_mapVal (f : K → V → W) (m : SortedMap K V) : (m.mapVal f).keys = m.keys := by
  simp [keys, mapVal, List.map_map, Function.comp_def]

/-- The map with a value at `k`, if one is given. -/
def insertSome (m : SortedMap K V) (k : K) : Option V → SortedMap K V
  | some v => m.insert k v
  | none => m

theorem get?_insertSome (m : SortedMap K V) (k : K) (v : Option V) (k' : K) :
    (m.insertSome k v).get? k' = if k' = k then v.or (m.get? k') else m.get? k' := by
  cases v with
  | some v => rw [insertSome, get?_insert, Option.some_or]
  | none => rw [insertSome, Option.none_or, ite_self]

theorem get?_foldl_insertSome (f : K → Option V) (ks : List K) (m : SortedMap K V) (k : K) :
    (ks.foldl (fun m k => m.insertSome k (f k)) m).get? k =
      if k ∈ ks then (f k).or (m.get? k) else m.get? k := by
  induction ks generalizing m with
  | nil => simp
  | cons k' ks ih =>
    rw [List.foldl_cons, ih, get?_insertSome]
    by_cases hk : k = k'
    · subst hk
      cases f k <;> simp
    · simp [hk]

/-- The map with the value at a key replaced by its image, if there is a key and a value. -/
def modifyAt (m : SortedMap K V) (k : Option K) (f : V → V) : SortedMap K V :=
  match k.bind fun k => (m.get? k).map (k, ·) with
  | some (k, v) => m.insert k (f v)
  | none => m

theorem get?_modifyAt (m : SortedMap K V) (k : Option K) (f : V → V) (k' : K) :
    (m.modifyAt k f).get? k' = if k = some k' then (m.get? k').map f else m.get? k' := by
  cases k with
  | none => rfl
  | some k =>
    rw [modifyAt, Option.bind_some]
    by_cases hk : k = k'
    · subst hk
      cases hv : m.get? k <;> simp [hv]
    · have hne : ¬ some k = some k' := fun heq => hk (Option.some.inj heq)
      rw [if_neg hne]
      cases hv : m.get? k with
      | none => rfl
      | some v => exact get?_insert_of_ne _ _ (Ne.symm hk)

/-- Insertions of values under different keys. -/
theorem get?_foldl_insert {W : Type*} (f : K × V → W) {es : List (K × V)}
    (hnodup : (es.map Prod.fst).Nodup) (m : SortedMap K W) :
    (∀ e ∈ es, (es.foldl (fun m e => m.insert e.1 (f e)) m).get? e.1 = some (f e)) ∧
      ∀ k, k ∉ es.map Prod.fst →
        (es.foldl (fun m e => m.insert e.1 (f e)) m).get? k = m.get? k := by
  induction es generalizing m with
  | nil => exact ⟨fun _ he => absurd he List.not_mem_nil, fun _ _ => rfl⟩
  | cons e es ih =>
    rw [List.map_cons, List.nodup_cons] at hnodup
    obtain ⟨hin, hout⟩ := ih hnodup.2 (m.insert e.1 (f e))
    refine ⟨fun e' he' => ?_, fun k hk => ?_⟩
    · rcases List.mem_cons.mp he' with rfl | he'
      · rw [List.foldl_cons, hout _ hnodup.1, get?_insert_self]
      · exact hin e' he'
    · rw [List.map_cons, List.mem_cons, not_or] at hk
      rw [List.foldl_cons, hout k hk.2, get?_insert_of_ne _ _ hk.1]

/-- Insertions of computed values under different keys. -/
theorem foldlM_insert_eq_ok {K V W ε : Type} [LinearOrder K] {f : K × V → Except ε W}
    {es : List (K × V)} (hnodup : (es.map Prod.fst).Nodup) (hf : ∀ e ∈ es, ∃ w, f e = .ok w)
    (m : SortedMap K W) :
    ∃ m', es.foldlM (fun m e => do return m.insert e.1 (← f e)) m = .ok m' ∧
      (∀ e ∈ es, ∀ w, f e = .ok w → m'.get? e.1 = some w) ∧
      ∀ k, k ∉ es.map Prod.fst → m'.get? k = m.get? k := by
  induction es generalizing m with
  | nil => exact ⟨m, rfl, fun _ he => absurd he List.not_mem_nil, fun _ _ => rfl⟩
  | cons e es ih =>
    rw [List.map_cons, List.nodup_cons] at hnodup
    obtain ⟨w, hw⟩ := hf e List.mem_cons_self
    obtain ⟨m', hm', hin, hout⟩ :=
      ih hnodup.2 (fun e he => hf e (List.mem_cons_of_mem _ he)) (m.insert e.1 w)
    refine ⟨m', ?_, fun e' he' w' hw' => ?_, fun k hk => ?_⟩
    · rw [List.foldlM_cons, hw]
      exact hm'
    · rcases List.mem_cons.mp he' with rfl | he'
      · rw [hw] at hw'
        cases hw'
        rw [hout _ hnodup.1, get?_insert_self]
      · exact hin e' he' w' hw'
    · rw [List.map_cons, List.mem_cons, not_or] at hk
      rw [hout k hk.2, get?_insert_of_ne _ _ hk.1]

/-! ### The number of entries -/

theorem length_insertEntry (k : K) (v : V) {es : List (K × V)}
    (h : es.Pairwise fun a b => a.1 < b.1) :
    (insertEntry k v es).length = es.length + if k ∈ es.map Prod.fst then 0 else 1 := by
  induction es with
  | nil => rfl
  | cons e es ih =>
    obtain ⟨he, hes⟩ := List.pairwise_cons.mp h
    rw [insertEntry]
    by_cases hlt : k < e.1
    · have hnot : k ∉ (e :: es).map Prod.fst := by
        rintro hmem
        obtain ⟨x, hx, rfl⟩ := List.mem_map.mp hmem
        rcases List.mem_cons.mp hx with rfl | hx
        · exact lt_irrefl _ hlt
        · exact lt_asymm hlt (he x hx)
      rw [if_pos hlt, if_neg hnot]
      rfl
    · rw [if_neg hlt]
      by_cases heq : k = e.1
      · have hmem : k ∈ (e :: es).map Prod.fst := heq ▸ List.mem_cons_self
        rw [if_pos heq, if_pos hmem]
        rfl
      · have hiff : k ∈ (e :: es).map Prod.fst ↔ k ∈ es.map Prod.fst := by
          rw [List.map_cons, List.mem_cons]
          exact or_iff_right heq
        simp only [if_neg heq, hiff, List.length_cons, ih hes]
        omega

theorem size_insert (m : SortedMap K V) (k : K) (v : V) :
    (m.insert k v).size = m.size + if m.has k then 0 else 1 := by
  rw [size, insert, length_insertEntry k v m.sorted]
  simp only [← mem_keys_iff_has, keys, size]

theorem length_filter_ne {es : List (K × V)} (h : (es.map Prod.fst).Nodup) (k : K) :
    (es.filter fun e => e.1 ≠ k).length + (if k ∈ es.map Prod.fst then 1 else 0) = es.length := by
  induction es with
  | nil => rfl
  | cons e es ih =>
    rw [List.map_cons, List.nodup_cons] at h
    by_cases hk : e.1 = k
    · have hnot : k ∉ es.map Prod.fst := hk ▸ h.1
      have hself : (es.filter fun e => e.1 ≠ k).length = es.length := by simpa [hnot] using ih h.2
      have hmem : k ∈ (e :: es).map Prod.fst := hk ▸ List.mem_cons_self
      rw [List.filter_cons_of_neg (by simp [hk]), hself, if_pos hmem, List.length_cons]
    · have hiff : k ∈ (e :: es).map Prod.fst ↔ k ∈ es.map Prod.fst := by
        rw [List.map_cons, List.mem_cons]
        exact or_iff_right fun heq => hk heq.symm
      rw [List.filter_cons_of_pos (by simp [hk]), List.length_cons, List.length_cons, ← ih h.2]
      simp only [hiff]
      omega

theorem size_erase (m : SortedMap K V) (k : K) :
    (m.erase k).size = m.size - if m.has k then 1 else 0 := by
  have h := length_filter_ne m.nodup_keys k
  simp only [← mem_keys_iff_has]
  rw [size, size, erase, ← h]
  exact (Nat.add_sub_cancel _ _).symm

/-! ### Maps from sorted lists -/

theorem insertEntry_of_lt {k : K} {v : V} {es : List (K × V)} (h : ∀ e ∈ es, e.1 < k) :
    insertEntry k v es = es ++ [(k, v)] := by
  induction es with
  | nil => rfl
  | cons e es ih =>
    have he := h e List.mem_cons_self
    rw [insertEntry, if_neg he.not_gt, if_neg he.ne', ih fun x hx => h x (List.mem_cons_of_mem _ hx)]
    rfl

theorem entries_foldl_insert (m : SortedMap K V) {l : List (K × V)}
    (h : (m.entries ++ l).Pairwise fun a b => a.1 < b.1) :
    (l.foldl (fun m e => m.insert e.1 e.2) m).entries = m.entries ++ l := by
  induction l generalizing m with
  | nil => simp
  | cons e l ih =>
    have hlt : ∀ x ∈ m.entries, x.1 < e.1 := fun x hx =>
      (List.pairwise_append.mp h).2.2 x hx e List.mem_cons_self
    have hentries : (m.insert e.1 e.2).entries = m.entries ++ [e] := insertEntry_of_lt hlt
    rw [List.foldl_cons, ih, hentries, List.append_assoc]
    · rfl
    · rw [hentries, List.append_assoc]
      exact h

/-- **A sorted list** is the list of entries of its map. -/
theorem entries_ofList {l : List (K × V)} (h : l.Pairwise fun a b => a.1 < b.1) :
    (ofList l).entries = l :=
  entries_foldl_insert empty h

theorem ofList_entries (m : SortedMap K V) : ofList m.entries = m :=
  ext_get? fun k => by rw [get?, get?, entries_ofList m.sorted]

end SortedMap

end SalRuntime
