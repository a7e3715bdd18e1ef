import SalRuntime.Foundations.HashTrie

/-!
# The shape of a hash trie

The shape of a trie is what is left of it without the values: its branches, the digits at which they
have kids, and the keys. A canonical trie branches only where the hashes of its keys force it to, so
its shape depends on nothing but the keys, as long as no two of them have the same hash. The keys of
a bucket, in contrast, stand in the order in which they came.

## Main definitions

* `strip` — a trie without its values.
* `TrieShape`, `shape` — the branches and the keys of a trie.
* `keys` — the keys in the order of the digits.

## Main results

* `Canonical.strip_eq` — canonical tries with the same keys differ in their values only.
* `shape_strip`, `keys_strip` — the shape and the order of the keys do not depend on the values.
-/

namespace SalRuntime

variable {κ η α β : Type}

/-- The branches and the keys of a trie. A branch lists its digits and the shapes of its kids. -/
inductive TrieShape (κ η : Type)
  | nil
  | leaf (k : κ)
  | bucket (h : η) (ks : List κ)
  | branch (digits : List ℕ) (kids : List (TrieShape κ η))

namespace HashTrie

/-- The trie without its values. -/
def strip : HashTrie κ η α → HashTrie κ η Unit
  | nil => nil
  | leaf k _ => leaf k ()
  | bucket h es => bucket h (es.map fun e => (e.1, ()))
  | branch kids => branch fun i => (kids i).strip

@[simp] theorem isNil_strip (t : HashTrie κ η α) : t.strip.isNil = t.isNil := by
  cases t <;> rfl

variable (S : Hashing κ η)

/-- The shape of a trie. -/
def shape : HashTrie κ η α → TrieShape κ η
  | nil => .nil
  | leaf k _ => .leaf k
  | bucket h es => .bucket h (es.map Prod.fst)
  | branch kids => .branch (slots S kids) ((slots S kids).map fun i => (kids i).shape)

/-- The keys in the order of the digits. -/
def keys (t : HashTrie κ η α) : List κ := (t.toList S).map Prod.fst

theorem slots_strip (kids : ℕ → HashTrie κ η α) :
    slots S (fun i => (kids i).strip) = slots S kids := by
  simp only [slots, isNil_strip]

theorem shape_strip (t : HashTrie κ η α) : t.strip.shape S = t.shape S := by
  induction t with
  | nil => rfl
  | leaf k v => rfl
  | bucket h es =>
    rw [strip, shape, shape, List.map_map]
    rfl
  | branch kids ih =>
    rw [strip, shape, shape, slots_strip]
    simp only [ih]

theorem keys_strip (t : HashTrie κ η α) : t.strip.keys S = t.keys S := by
  induction t with
  | nil => rfl
  | leaf k v => rfl
  | bucket h es =>
    rw [strip, keys, keys, toList, toList, List.map_map]
    rfl
  | branch kids ih =>
    simp only [keys] at ih
    rw [strip, keys, keys, toList, toList, List.map_flatMap, List.map_flatMap]
    simp only [ih]

variable {S}

theorem mem_keys_branch {kids : ℕ → HashTrie κ η α} {k : κ} :
    k ∈ (branch kids).keys S ↔ ∃ i < S.width, k ∈ (kids i).keys S := by
  rw [keys, toList, List.map_flatMap, List.mem_flatMap]
  simp only [List.mem_range, keys]

section Keys

variable {t : HashTrie κ η α} {l : ℕ}

theorem AllKeys.of_mem_keys {p : κ → Prop} (h : t.AllKeys p) {k : κ} (hk : k ∈ t.keys S) : p k := by
  obtain ⟨e, he, rfl⟩ := List.mem_map.mp hk
  exact h.of_mem he

/-- The keys of the kid at a digit. -/
theorem mem_keys_kid {kids : ℕ → HashTrie κ η α} (hc : (branch kids).Canonical S l) {i : ℕ}
    (hi : i < S.width) {k : κ} :
    k ∈ (kids i).keys S ↔ k ∈ (branch kids).keys S ∧ S.digit l (S.hash k) = i := by
  constructor
  · exact fun hk => ⟨mem_keys_branch.mpr ⟨i, hi, hk⟩, (hc.2.2 i).2.1.of_mem_keys hk⟩
  · rintro ⟨hk, hd⟩
    obtain ⟨j, -, hj⟩ := mem_keys_branch.mp hk
    have hij : j = i := ((hc.2.2 j).2.1.of_mem_keys hj).symm.trans hd
    exact hij ▸ hj

/-- A canonical trie that is not empty has a key. -/
theorem Canonical.exists_key (hc : t.Canonical S l) (hne : t ≠ nil) : ∃ k, k ∈ t.keys S := by
  induction t generalizing l with
  | nil => exact absurd rfl hne
  | leaf k v => exact ⟨k, List.mem_cons_self⟩
  | bucket h es =>
    obtain ⟨e, he⟩ : ∃ e, e ∈ es := List.exists_mem_of_length_pos (by have := hc.1; omega)
    exact ⟨e.1, List.mem_map_of_mem he⟩
  | branch kids ih =>
    obtain ⟨-, hs, hkids⟩ := hc
    rcases hs with ⟨i, hi, hb⟩ | ⟨i, -, -, hi, -, hnil, -⟩
    · obtain ⟨k, hk⟩ := ih i (hkids i).1 (fun h => by simp [h, isBranch] at hb)
      exact ⟨k, mem_keys_branch.mpr ⟨i, hi, hk⟩⟩
    · obtain ⟨k, hk⟩ := ih i (hkids i).1 hnil
      exact ⟨k, mem_keys_branch.mpr ⟨i, hi, hk⟩⟩

/-- A canonical branch has two keys. -/
theorem Canonical.exists_two_keys (hc : t.Canonical S l) (hb : t.isBranch) :
    ∃ k k', k ≠ k' ∧ k ∈ t.keys S ∧ k' ∈ t.keys S := by
  induction t generalizing l with
  | nil => cases hb
  | leaf k v => cases hb
  | bucket h es => cases hb
  | branch kids ih =>
    obtain ⟨-, hs, hkids⟩ := hc
    rcases hs with ⟨i, hi, hbi⟩ | ⟨i, j, hij, hi, hj, hni, hnj⟩
    · obtain ⟨k, k', hne, hk, hk'⟩ := ih i (hkids i).1 hbi
      exact ⟨k, k', hne, mem_keys_branch.mpr ⟨i, hi, hk⟩, mem_keys_branch.mpr ⟨i, hi, hk'⟩⟩
    · obtain ⟨k, hk⟩ := (hkids i).1.exists_key hni
      obtain ⟨k', hk'⟩ := (hkids j).1.exists_key hnj
      refine ⟨k, k', ?_, mem_keys_branch.mpr ⟨i, hi, hk⟩, mem_keys_branch.mpr ⟨j, hj, hk'⟩⟩
      rintro rfl
      exact hij (((hkids i).2.1.of_mem_keys hk).symm.trans ((hkids j).2.1.of_mem_keys hk'))

/-- A canonical trie has no bucket if its keys have different hashes. -/
theorem Canonical.not_bucket {h : η} {es : List (κ × α)} (hc : (bucket h es).Canonical S l)
    (hinj : ∀ k ∈ (bucket h es).keys S, ∀ k' ∈ (bucket h es).keys S, S.hash k = S.hash k' →
      k = k') : False := by
  obtain ⟨hlen, hnodup, hhash⟩ := hc
  rcases es with _ | ⟨e, _ | ⟨e', es⟩⟩
  · simp at hlen
  · simp at hlen
  · have heq : e.1 = e'.1 := hinj e.1 List.mem_cons_self e'.1
      (List.mem_cons_of_mem _ List.mem_cons_self) ((hhash e List.mem_cons_self).trans
        (hhash e' (List.mem_cons_of_mem _ List.mem_cons_self)).symm)
    exact (List.nodup_cons.mp hnodup).1 (heq ▸ List.mem_cons_self)

end Keys

/-- **The keys determine a canonical trie**, apart from the values, if they have different
hashes. -/
theorem Canonical.strip_eq {t : HashTrie κ η α} {t' : HashTrie κ η β} {l : ℕ}
    (hc : t.Canonical S l) (hc' : t'.Canonical S l) (hkeys : ∀ k, k ∈ t.keys S ↔ k ∈ t'.keys S)
    (hinj : ∀ k ∈ t.keys S, ∀ k' ∈ t.keys S, S.hash k = S.hash k' → k = k') :
    t.strip = t'.strip := by
  have hinj' : ∀ k ∈ t'.keys S, ∀ k' ∈ t'.keys S, S.hash k = S.hash k' → k = k' :=
    fun k hk k' hk' => hinj k ((hkeys k).mpr hk) k' ((hkeys k').mpr hk')
  induction t generalizing t' l with
  | nil =>
    have hnil : t' = nil := by
      by_contra hne
      obtain ⟨k, hk⟩ := hc'.exists_key hne
      exact List.not_mem_nil ((hkeys k).mpr hk)
    rw [hnil, strip, strip]
  | leaf k v =>
    have hsingle : ∀ k' ∈ t'.keys S, k' = k := fun k' hk' =>
      List.mem_singleton.mp ((hkeys k').mpr hk')
    have hk : k ∈ t'.keys S := (hkeys k).mp List.mem_cons_self
    cases t' with
    | nil => exact absurd hk List.not_mem_nil
    | leaf k' v' => rw [hsingle k' List.mem_cons_self, strip, strip]
    | bucket h es => exact (hc'.not_bucket hinj').elim
    | branch kids =>
      obtain ⟨k₁, k₂, hne, hk₁, hk₂⟩ := hc'.exists_two_keys rfl
      exact absurd ((hsingle k₁ hk₁).trans (hsingle k₂ hk₂).symm) hne
  | bucket h es => exact (hc.not_bucket hinj).elim
  | branch kids ih =>
    cases t' with
    | nil =>
      obtain ⟨k, hk⟩ := hc.exists_key nofun
      exact absurd ((hkeys k).mp hk) List.not_mem_nil
    | leaf k' v' =>
      obtain ⟨k₁, k₂, hne, hk₁, hk₂⟩ := hc.exists_two_keys rfl
      exact absurd ((List.mem_singleton.mp ((hkeys k₁).mp hk₁)).trans
        (List.mem_singleton.mp ((hkeys k₂).mp hk₂)).symm) hne
    | bucket h es => exact (hc'.not_bucket hinj').elim
    | branch kids' =>
      rw [strip, strip]
      refine congrArg branch (funext fun i => ?_)
      by_cases hi : i < S.width
      · have hsub : ∀ k, k ∈ (kids i).keys S → k ∈ (branch kids).keys S := fun k hk =>
          ((mem_keys_kid hc hi).mp hk).1
        have hkids : ∀ k, k ∈ (kids i).keys S ↔ k ∈ (kids' i).keys S := fun k => by
          rw [mem_keys_kid hc hi, mem_keys_kid hc' hi, hkeys]
        exact ih i (hc.2.2 i).1 (hc'.2.2 i).1 hkids
          (fun k hk k' hk' => hinj k (hsub k hk) k' (hsub k' hk'))
          fun k hk k' hk' => hinj k (hsub k ((hkids k).mpr hk)) k' (hsub k' ((hkids k').mpr hk'))
      · -- there are no kids beyond the digits
        rw [(hc.2.2 i).2.2 (Nat.le_of_not_lt hi), (hc'.2.2 i).2.2 (Nat.le_of_not_lt hi)]
        rfl

end HashTrie

end SalRuntime
