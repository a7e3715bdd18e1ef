import Mathlib.Data.List.Nodup
import Mathlib.Data.List.Flatten
import Mathlib.Logic.Function.Basic

/-!
# Hash tries

A hash trie stores the entries of a map by the digits of the hashes of their keys: a branch has one
kid for each digit, and the kid is reached by the keys whose hash has that digit at the level of the
branch. Keys with equal hashes share a bucket. A trie is canonical if no branch could be replaced
by its only kid, so that the branches are those that the hashes of the keys force.

## Main definitions

* `Hashing` — hashes and their digits.
* `HashTrie`, `lookup`, `toList` — the tries, the value of a key, and the entries in the order of
  the digits.
* `fork`, `assoc`, `prune`, `dissoc` — the insertion and the removal of a key.
* `Canonical` — every key sits where its hash leads, and no branch is superfluous.

## Main results

* `lookup_assoc`, `lookup_dissoc` — the insertion and the removal change the value of one key.
* `Canonical.assoc`, `Canonical.dissoc` — they keep a trie canonical.
* `Canonical.mem_toList_iff`, `Canonical.nodup_keys` — the entries are the graph of the lookup.
-/

namespace SalRuntime

variable {κ η α : Type}

/-- Hashes, each of which is determined by its digits at the levels below `depth`. -/
structure Hashing (κ η : Type) where
  /-- The number of levels. -/
  depth : ℕ
  /-- The number of digits. -/
  width : ℕ
  /-- The hash of a key. -/
  hash : κ → η
  /-- The digit of a hash at a level. -/
  digit : ℕ → η → ℕ
  digit_lt : ∀ l h, digit l h < width
  ext : ∀ {h h'}, (∀ l < depth, digit l h = digit l h') → h = h'

/-- The tries. A branch has the kid `nil` at a digit that no key has. -/
inductive HashTrie (κ η α : Type)
  | nil
  | leaf (k : κ) (v : α)
  | bucket (h : η) (es : List (κ × α))
  | branch (kids : ℕ → HashTrie κ η α)

namespace HashTrie

/-- The trie has no entries. -/
def isNil : HashTrie κ η α → Bool
  | nil => true
  | _ => false

/-- The trie is a branch. -/
def isBranch : HashTrie κ η α → Bool
  | branch _ => true
  | _ => false

theorem isNil_eq_false_iff {t : HashTrie κ η α} : t.isNil = false ↔ t ≠ nil := by
  cases t <;> simp [isNil]

/-- All keys of the trie have the property `p`. -/
def AllKeys (p : κ → Prop) : HashTrie κ η α → Prop
  | nil => True
  | leaf k _ => p k
  | bucket _ es => ∀ e ∈ es, p e.1
  | branch kids => ∀ i, (kids i).AllKeys p

theorem AllKeys.imp {p q : κ → Prop} (h : ∀ k, p k → q k) :
    ∀ {t : HashTrie κ η α}, t.AllKeys p → t.AllKeys q
  | nil, _ => trivial
  | leaf k _, hk => h k hk
  | bucket _ _, hes => fun e he => h e.1 (hes e he)
  | branch _, hkids => fun i => (hkids i).imp h

theorem AllKeys.of_forall {p : κ → Prop} (h : ∀ k, p k) : ∀ t : HashTrie κ η α, t.AllKeys p
  | nil => trivial
  | leaf k _ => h k
  | bucket _ _ => fun e _ => h e.1
  | branch kids => fun i => of_forall h (kids i)

theorem AllKeys.and {p q : κ → Prop} : ∀ {t : HashTrie κ η α}, t.AllKeys p → t.AllKeys q →
    t.AllKeys fun k => p k ∧ q k
  | nil, _, _ => trivial
  | leaf _ _, hp, hq => ⟨hp, hq⟩
  | bucket _ _, hp, hq => fun e he => ⟨hp e he, hq e he⟩
  | branch _, hp, hq => fun i => (hp i).and (hq i)

variable (S : Hashing κ η)

/-- The entries in the order of the digits. -/
def toList : HashTrie κ η α → List (κ × α)
  | nil => []
  | leaf k v => [(k, v)]
  | bucket _ es => es
  | branch kids => (List.range S.width).flatMap fun i => (kids i).toList

variable {S} in
theorem AllKeys.of_mem {p : κ → Prop} {e : κ × α} : ∀ {t : HashTrie κ η α}, t.AllKeys p →
    e ∈ t.toList S → p e.1
  | nil, _, h => absurd h List.not_mem_nil
  | leaf _ _, hp, h => List.mem_singleton.mp h ▸ hp
  | bucket _ _, hp, h => hp e h
  | branch _, hp, h => by
    obtain ⟨i, -, hi⟩ := List.mem_flatMap.mp h
    exact (hp i).of_mem hi

/-! ### Forks -/

/-- The trie at level `l` that separates the tries `a` and `b` of two hashes, with at most `n`
branches. -/
def fork : ℕ → ℕ → η → HashTrie κ η α → η → HashTrie κ η α → HashTrie κ η α
  | 0, _, _, _, _, _ => nil
  | n + 1, l, ha, a, hb, b =>
    if S.digit l ha = S.digit l hb then
      branch (Function.update (fun _ => nil) (S.digit l ha) (fork n (l + 1) ha a hb b))
    else branch (Function.update (Function.update (fun _ => nil) (S.digit l ha) a) (S.digit l hb) b)

variable {S}

/-- A trie without branches: its keys have the hash `h`. -/
def Flat (S : Hashing κ η) (h : η) : HashTrie κ η α → Prop
  | nil => False
  | leaf k _ => S.hash k = h
  | bucket hb _ => hb = h
  | branch _ => False

theorem Flat.ne_nil {h : η} {t : HashTrie κ η α} (ht : Flat S h t) : t ≠ nil := by
  rintro rfl
  exact ht

section Fork

variable {ha hb : η} {a b : HashTrie κ η α}

/-- Hashes that agree below a level differ at a level from there on. -/
theorem lt_depth_of_agree {l : ℕ} (hne : ha ≠ hb) (hagree : ∀ j < l, S.digit j ha = S.digit j hb) :
    l < S.depth := by
  by_contra hl
  exact hne (S.ext fun j hj => hagree j (by omega))

theorem fork_agree_succ {l : ℕ} (hagree : ∀ j < l, S.digit j ha = S.digit j hb)
    (heq : S.digit l ha = S.digit l hb) : ∀ j < l + 1, S.digit j ha = S.digit j hb := by
  intro j hj
  rcases Nat.lt_succ_iff_lt_or_eq.mp hj with hj | rfl
  · exact hagree j hj
  · exact heq

theorem allKeys_fork {p : κ → Prop} (hpa : a.AllKeys p) (hpb : b.AllKeys p) (n l : ℕ) :
    (fork S n l ha a hb b).AllKeys p := by
  induction n generalizing l with
  | zero => trivial
  | succ n ih =>
    rw [fork]
    split_ifs with heq
    · intro i
      by_cases hi : i = S.digit l ha
      · rw [hi, Function.update_self]
        exact ih (l + 1)
      · rw [Function.update_of_ne hi]
        trivial
    · intro i
      by_cases hib : i = S.digit l hb
      · rw [hib, Function.update_self]
        exact hpb
      · rw [Function.update_of_ne hib]
        by_cases hia : i = S.digit l ha
        · rw [hia, Function.update_self]
          exact hpa
        · rw [Function.update_of_ne hia]
          trivial

theorem isBranch_fork {n : ℕ} (hn : 0 < n) (l : ℕ) : (fork S n l ha a hb b).isBranch := by
  obtain ⟨n, rfl⟩ := Nat.exists_eq_add_of_lt hn
  rw [show 0 + n + 1 = n + 1 by omega, fork]
  split_ifs
  · rfl
  · rfl

end Fork

/-! ### Branches that are not superfluous -/

variable (S)

/-- The bucket of the given entries, or a leaf if there is one entry only. -/
def shrink (h : η) : List (κ × α) → HashTrie κ η α
  | [e] => leaf e.1 e.2
  | es => bucket h es

theorem shrink_of_le (h : η) {es : List (κ × α)} (hlen : 2 ≤ es.length) :
    shrink h es = bucket h es := by
  rcases es with _ | ⟨e, _ | ⟨e', es⟩⟩
  · rfl
  · simp at hlen
  · rfl

/-- The digits at which a branch has a kid. -/
def slots (kids : ℕ → HashTrie κ η α) : List ℕ :=
  (List.range S.width).filter fun i => !(kids i).isNil

/-- The branch with the given kids, unless its only kid can take its place. -/
def prune (kids : ℕ → HashTrie κ η α) : HashTrie κ η α :=
  match slots S kids with
  | [] => nil
  | [i] => if (kids i).isBranch then branch kids else kids i
  | _ => branch kids

/-- The branch cannot be replaced by one of its kids. -/
def Solid (kids : ℕ → HashTrie κ η α) : Prop :=
  (∃ i < S.width, (kids i).isBranch) ∨
    ∃ i j, i ≠ j ∧ i < S.width ∧ j < S.width ∧ kids i ≠ nil ∧ kids j ≠ nil

/-- Every key of the trie, with its root at level `l`, sits where its hash leads, and no branch is
superfluous. -/
def Canonical : ℕ → HashTrie κ η α → Prop
  | _, nil => True
  | _, leaf _ _ => True
  | _, bucket h es => 2 ≤ es.length ∧ (es.map Prod.fst).Nodup ∧ ∀ e ∈ es, S.hash e.1 = h
  | l, branch kids => l < S.depth ∧ Solid S kids ∧ ∀ i, (kids i).Canonical (l + 1) ∧
      (kids i).AllKeys (fun k => S.digit l (S.hash k) = i) ∧ (S.width ≤ i → kids i = nil)

variable {S}

theorem mem_slots {kids : ℕ → HashTrie κ η α} {i : ℕ} :
    i ∈ slots S kids ↔ i < S.width ∧ kids i ≠ nil := by
  rw [slots, List.mem_filter, List.mem_range, Bool.not_eq_true', isNil_eq_false_iff]

theorem prune_of_solid {kids : ℕ → HashTrie κ η α} (h : Solid S kids) :
    prune S kids = branch kids := by
  have hmem : ∀ i, i ∈ slots S kids ↔ i < S.width ∧ kids i ≠ nil := fun i => mem_slots
  rw [prune]
  rcases hs : slots S kids with _ | ⟨i, _ | ⟨j, is⟩⟩
  · exfalso
    rw [hs] at hmem
    rcases h with ⟨i, hi, hb⟩ | ⟨i, _, -, hi, -, hnil, -⟩
    · exact List.not_mem_nil ((hmem i).mpr ⟨hi, fun h => by simp [h, isBranch] at hb⟩)
    · exact List.not_mem_nil ((hmem i).mpr ⟨hi, hnil⟩)
  · refine if_pos ?_
    rw [hs] at hmem
    rcases h with ⟨i', hi, hb⟩ | ⟨i', j', hne, hi, hj, hni, hnj⟩
    · have heq : i' = i := List.mem_singleton.mp
        ((hmem i').mpr ⟨hi, fun h => by simp [h, isBranch] at hb⟩)
      exact heq ▸ hb
    · have heqi : i' = i := List.mem_singleton.mp ((hmem i').mpr ⟨hi, hni⟩)
      have heqj : j' = i := List.mem_singleton.mp ((hmem j').mpr ⟨hj, hnj⟩)
      exact absurd (heqi.trans heqj.symm) hne
  · rfl

/-- The three ways in which a branch is pruned. -/
theorem prune_cases (kids : ℕ → HashTrie κ η α) :
    (prune S kids = nil ∧ ∀ i < S.width, kids i = nil) ∨
      (∃ i < S.width, prune S kids = kids i ∧ kids i ≠ nil ∧ (kids i).isBranch = false ∧
        ∀ j < S.width, j ≠ i → kids j = nil) ∨
      (Solid S kids ∧ prune S kids = branch kids) := by
  have hmem : ∀ i, i ∈ slots S kids ↔ i < S.width ∧ kids i ≠ nil := fun i => mem_slots
  have hnodup : (slots S kids).Nodup := List.nodup_range.filter _
  rcases hs : slots S kids with _ | ⟨i, _ | ⟨j, is⟩⟩
  · rw [hs] at hmem
    refine Or.inl ⟨by rw [prune, hs], fun i hi => ?_⟩
    by_contra hnil
    exact List.not_mem_nil ((hmem i).mpr ⟨hi, hnil⟩)
  · rw [hs] at hmem
    obtain ⟨hi, hnil⟩ := (hmem i).mp List.mem_cons_self
    cases hb : (kids i).isBranch with
    | true =>
      have hsolid : Solid S kids := Or.inl ⟨i, hi, hb⟩
      exact Or.inr (Or.inr ⟨hsolid, prune_of_solid hsolid⟩)
    | false =>
      refine Or.inr (Or.inl ⟨i, hi, by simp [prune, hs, hb], hnil, hb, fun j hj hne => ?_⟩)
      by_contra hnilj
      exact hne (List.mem_singleton.mp ((hmem j).mpr ⟨hj, hnilj⟩))
  · rw [hs] at hmem hnodup
    obtain ⟨hi, hni⟩ := (hmem i).mp List.mem_cons_self
    obtain ⟨hj, hnj⟩ := (hmem j).mp (List.mem_cons_of_mem _ List.mem_cons_self)
    have hne : i ≠ j := fun h => (List.nodup_cons.mp hnodup).1 (h ▸ List.mem_cons_self)
    have hsolid : Solid S kids := Or.inr ⟨i, j, hne, hi, hj, hni, hnj⟩
    exact Or.inr (Or.inr ⟨hsolid, prune_of_solid hsolid⟩)

theorem Flat.canonical {h : η} {t : HashTrie κ η α} (ht : Flat S h t) {l : ℕ}
    (hc : t.Canonical S l) (l' : ℕ) : t.Canonical S l' := by
  cases t with
  | nil => trivial
  | leaf k v => trivial
  | bucket hb es => exact hc
  | branch kids => exact ht.elim

theorem Flat.allKeys {h : η} {t : HashTrie κ η α} (ht : Flat S h t) {l : ℕ}
    (hc : t.Canonical S l) : t.AllKeys fun k => S.hash k = h := by
  cases t with
  | nil => trivial
  | leaf k v => exact ht
  | bucket hb es => exact fun e he => (hc.2.2 e he).trans ht
  | branch kids => exact ht.elim

theorem canonical_fork {ha hb : η} {a b : HashTrie κ η α} (hfa : Flat S ha a) (hfb : Flat S hb b)
    {i j : ℕ} (hca : a.Canonical S i) (hcb : b.Canonical S j) (hne : ha ≠ hb) (n l : ℕ)
    (hn : n + l = S.depth) (hagree : ∀ j < l, S.digit j ha = S.digit j hb) :
    (fork S n l ha a hb b).Canonical S l := by
  have hdigit {h : η} {t : HashTrie κ η α} {l' : ℕ} (hf : Flat S h t) (hc : t.Canonical S l') :
      t.AllKeys fun k => S.digit l (S.hash k) = S.digit l h :=
    (hf.allKeys hc).imp fun k hk => by rw [hk]
  induction n generalizing l with
  | zero => exact absurd (lt_depth_of_agree hne hagree) (by omega)
  | succ n ih =>
    have hl : l < S.depth := by omega
    rw [fork]
    split_ifs with heq
    · have hagree' := fork_agree_succ hagree heq
      have hpos : 0 < n := by
        have := lt_depth_of_agree hne hagree'
        omega
      refine ⟨hl, Or.inl ⟨S.digit l ha, S.digit_lt l ha, ?_⟩, fun i => ?_⟩
      · rw [Function.update_self]
        exact isBranch_fork hpos (l + 1)
      · by_cases hi : i = S.digit l ha
        · subst hi
          rw [Function.update_self]
          refine ⟨ih (l + 1) (by omega) hagree' fun hf hc => (hf.allKeys hc).imp fun k hk => by
            rw [hk], allKeys_fork (hdigit hfa hca) (heq ▸ hdigit hfb hcb) n (l + 1), fun h => ?_⟩
          have := S.digit_lt l ha
          omega
        · rw [Function.update_of_ne hi]
          exact ⟨trivial, trivial, fun _ => rfl⟩
    · have hlt := S.digit_lt l
      refine ⟨hl, Or.inr ⟨S.digit l ha, S.digit l hb, heq, hlt ha, hlt hb, ?_, ?_⟩, fun i => ?_⟩
      · rw [Function.update_of_ne heq, Function.update_self]
        exact hfa.ne_nil
      · rw [Function.update_self]
        exact hfb.ne_nil
      · by_cases hib : i = S.digit l hb
        · subst hib
          rw [Function.update_self]
          exact ⟨hfb.canonical hcb _, hdigit hfb hcb, fun h => absurd (hlt hb) (by omega)⟩
        · rw [Function.update_of_ne hib]
          by_cases hia : i = S.digit l ha
          · subst hia
            rw [Function.update_self]
            exact ⟨hfa.canonical hca _, hdigit hfa hca, fun h => absurd (hlt ha) (by omega)⟩
          · rw [Function.update_of_ne hia]
            exact ⟨trivial, trivial, fun _ => rfl⟩

theorem Solid.update {kids : ℕ → HashTrie κ η α} (h : Solid S kids) {d : ℕ} {t : HashTrie κ η α}
    (hnil : t ≠ nil) (hbranch : (kids d).isBranch → t.isBranch) :
    Solid S (Function.update kids d t) := by
  rcases h with ⟨i, hi, hb⟩ | ⟨i, j, hne, hi, hj, hni, hnj⟩
  · refine Or.inl ⟨i, hi, ?_⟩
    by_cases hd : i = d
    · subst hd
      rw [Function.update_self]
      exact hbranch hb
    · rw [Function.update_of_ne hd]
      exact hb
  · have hkeep : ∀ x, kids x ≠ nil → Function.update kids d t x ≠ nil := by
      intro x hx
      by_cases hd : x = d
      · subst hd
        rw [Function.update_self]
        exact hnil
      · rw [Function.update_of_ne hd]
        exact hx
    exact Or.inr ⟨i, j, hne, hi, hj, hkeep i hni, hkeep j hnj⟩

theorem allKeys_prune {p : κ → Prop} {kids : ℕ → HashTrie κ η α} (h : ∀ i, (kids i).AllKeys p) :
    (prune S kids).AllKeys p := by
  rcases prune_cases (S := S) kids with ⟨hp, -⟩ | ⟨i, -, hp, -⟩ | ⟨-, hp⟩
  · rw [hp]
    trivial
  · rw [hp]
    exact h i
  · rw [hp]
    exact h

theorem allKeys_shrink {p : κ → Prop} {es : List (κ × α)} (h : ∀ e ∈ es, p e.1) (hb : η) :
    (shrink hb es).AllKeys p := by
  rcases es with _ | ⟨e, _ | ⟨e', es⟩⟩
  · exact h
  · exact h e List.mem_cons_self
  · exact h

/-- The keys of the trie have the digits of the hash `h` below level `l`. -/
def Agrees (S : Hashing κ η) (l : ℕ) (h : η) (t : HashTrie κ η α) : Prop :=
  t.AllKeys fun k => ∀ j < l, S.digit j (S.hash k) = S.digit j h

theorem agrees_zero (h : η) (t : HashTrie κ η α) : Agrees S 0 h t :=
  AllKeys.of_forall (fun _ j hj => absurd hj (Nat.not_lt_zero j)) t

theorem Agrees.kid {l : ℕ} {h : η} {kids : ℕ → HashTrie κ η α}
    (hb : (branch kids).Canonical S l) (ha : Agrees S l h (branch kids)) :
    Agrees S (l + 1) h (kids (S.digit l h)) := by
  refine ((ha (S.digit l h)).and (hb.2.2 _).2.1).imp fun k hk j hj => ?_
  rcases Nat.lt_succ_iff_lt_or_eq.mp hj with hj | rfl
  · exact hk.1 j hj
  · exact hk.2

theorem Agrees.of_bucket {l : ℕ} {h hb : η} {es : List (κ × α)}
    (hc : (bucket hb es).Canonical S l) (ha : Agrees S l h (bucket hb es)) :
    ∀ j < l, S.digit j hb = S.digit j h := by
  intro j hj
  have hpos : 0 < es.length := by
    have := hc.1
    omega
  obtain ⟨e, he⟩ := List.exists_mem_of_length_pos hpos
  rw [← hc.2.2 e he]
  exact ha e he j hj

/-- The kid of a canonical branch at level `l` for the digit `i`. -/
def Kid (S : Hashing κ η) (l i : ℕ) (t : HashTrie κ η α) : Prop :=
  t.Canonical S (l + 1) ∧ t.AllKeys (fun k => S.digit l (S.hash k) = i) ∧ (S.width ≤ i → t = nil)

theorem Canonical.prune {kids : ℕ → HashTrie κ η α} {l : ℕ} (hl : l < S.depth)
    (h : ∀ i, Kid S l i (kids i)) : (HashTrie.prune S kids).Canonical S l := by
  rcases prune_cases (S := S) kids with ⟨hp, -⟩ | ⟨i, -, hp, -, hb, -⟩ | ⟨hs, hp⟩
  · rw [hp]
    trivial
  · rw [hp]
    have hc := (h i).1
    cases ht : kids i with
    | branch kids' => simp [ht, isBranch] at hb
    | nil => trivial
    | leaf k v => trivial
    | bucket hb es =>
      rw [ht] at hc
      exact hc
  · rw [hp]
    exact ⟨hl, hs, h⟩

theorem Canonical.nodup_keys : ∀ {t : HashTrie κ η α} {l : ℕ}, t.Canonical S l →
    ((t.toList S).map Prod.fst).Nodup
  | nil, _, _ => List.nodup_nil
  | leaf k _, _, _ => List.nodup_singleton k
  | bucket _ _, _, hc => hc.2.1
  | branch kids, l, hc => by
    rw [toList, List.map_flatMap, List.nodup_flatMap]
    refine ⟨fun i _ => (hc.2.2 i).1.nodup_keys, List.nodup_range.imp fun {i j} hij => ?_⟩
    intro k hki hkj
    obtain ⟨ei, hei, rfl⟩ := List.mem_map.mp hki
    obtain ⟨ej, hej, heq⟩ := List.mem_map.mp hkj
    have hi : S.digit l (S.hash ei.1) = i := (hc.2.2 i).2.1.of_mem hei
    have hj : S.digit l (S.hash ej.1) = j := (hc.2.2 j).2.1.of_mem hej
    exact hij (hi.symm.trans (heq ▸ hj))

/-! ### The value of a key -/

variable (S)

variable [DecidableEq κ] [DecidableEq η]

/-- The value of a key in a trie whose root is at level `l`. -/
def lookup : HashTrie κ η α → ℕ → κ → Option α
  | nil, _, _ => none
  | leaf k' v, _, k => if k' = k then some v else none
  | bucket h es, _, k => if h = S.hash k then (es.find? fun e => e.1 = k).map Prod.snd else none
  | branch kids, l, k => (kids (S.digit l (S.hash k))).lookup (l + 1) k

/-- The bucket with the value `v` at `k`; a new key comes last. -/
def setEntry (k : κ) (v : α) (es : List (κ × α)) : List (κ × α) :=
  if k ∈ es.map Prod.fst then es.map fun e => if e.1 = k then (e.1, v) else e else es ++ [(k, v)]

/-- The trie with the value `v` at `k`. -/
def assoc : HashTrie κ η α → ℕ → κ → α → HashTrie κ η α
  | nil, _, k, v => leaf k v
  | leaf k' v', l, k, v =>
    if k' = k then leaf k v
    else if S.hash k' = S.hash k then bucket (S.hash k) [(k', v'), (k, v)]
    else fork S (S.depth - l) l (S.hash k') (leaf k' v') (S.hash k) (leaf k v)
  | bucket h es, l, k, v =>
    if h = S.hash k then bucket h (setEntry k v es)
    else fork S (S.depth - l) l h (bucket h es) (S.hash k) (leaf k v)
  | branch kids, l, k, v =>
    branch (Function.update kids (S.digit l (S.hash k))
      ((kids (S.digit l (S.hash k))).assoc (l + 1) k v))

/-- The trie without the key `k`. -/
def dissoc : HashTrie κ η α → ℕ → κ → HashTrie κ η α
  | nil, _, _ => nil
  | leaf k' v, _, k => if k' = k then nil else leaf k' v
  | bucket h es, _, k =>
    if h = S.hash k then shrink h (es.filter fun e => e.1 ≠ k) else bucket h es
  | branch kids, l, k =>
    prune S (Function.update kids (S.digit l (S.hash k))
      ((kids (S.digit l (S.hash k))).dissoc (l + 1) k))

variable {S}

theorem lookup_eq_none {k : κ} : ∀ {t : HashTrie κ η α} (l : ℕ), t.AllKeys (· ≠ k) →
    t.lookup S l k = none
  | nil, _, _ => rfl
  | leaf _ _, _, h => if_neg h
  | bucket hb es, _, h => by
    have hnone : es.find? (fun e => e.1 = k) = none :=
      List.find?_eq_none.mpr fun e he => by simpa using h e he
    rw [lookup, hnone, Option.map_none, ite_self]
  | branch kids, l, h => lookup_eq_none (l + 1) (h _)

theorem find?_setEntry (k : κ) (v : α) (es : List (κ × α)) (k' : κ) :
    ((setEntry k v es).find? fun e => e.1 = k').map Prod.snd =
      if k' = k then some v else (es.find? fun e => e.1 = k').map Prod.snd := by
  rw [setEntry]
  split_ifs with hmem hk hk
  · subst hk
    induction es with
    | nil => simp at hmem
    | cons e es ih =>
      rw [List.map_cons, List.find?_cons]
      by_cases he : e.1 = k'
      · simp [he]
      · rw [List.map_cons, List.mem_cons] at hmem
        simpa [he] using ih (hmem.resolve_left fun h => he h.symm)
  · clear hmem
    induction es with
    | nil => rfl
    | cons e es ih =>
      rw [List.map_cons, List.find?_cons, List.find?_cons]
      by_cases he : e.1 = k
      · have hne : e.1 ≠ k' := fun h => hk (h.symm.trans he)
        simpa [he, hne, show k ≠ k' from fun h => hk h.symm] using ih
      · by_cases he' : e.1 = k'
        · simp [he', hk]
        · simpa [he, he'] using ih
  · subst hk
    have hnone : es.find? (fun e => e.1 = k') = none :=
      List.find?_eq_none.mpr fun e he heq => hmem (List.mem_map.mpr ⟨e, he, by simpa using heq⟩)
    simp [List.find?_append, hnone]
  · rw [List.find?_append]
    simp [show k ≠ k' from fun h => hk h.symm]

theorem setEntry_of_find? {k : κ} {v : α} {es : List (κ × α)} (hnodup : (es.map Prod.fst).Nodup)
    (h : (k, v) ∈ es) : setEntry k v es = es := by
  rw [setEntry, if_pos (List.mem_map_of_mem (f := Prod.fst) h)]
  refine (List.map_congr_left fun e he => ?_).trans (List.map_id es)
  split_ifs with hk
  · have heq : e = (k, v) := List.inj_on_of_nodup_map hnodup he h hk
    rw [heq]
    rfl
  · rfl

omit [DecidableEq η] in
theorem find?_eq_some {k : κ} {v : α} {es : List (κ × α)} (hnodup : (es.map Prod.fst).Nodup)
    (h : (k, v) ∈ es) : es.find? (fun e => e.1 = k) = some (k, v) := by
  rcases hf : es.find? fun e => e.1 = k with _ | e
  · simpa using List.find?_eq_none.mp hf (k, v) h
  · have hk : e.1 = k := by simpa using List.find?_some hf
    have heq : e = (k, v) := List.inj_on_of_nodup_map hnodup (List.mem_of_find?_eq_some hf) h hk
    exact congrArg some heq ▸ hf

theorem keys_setEntry (k : κ) (v : α) (es : List (κ × α)) : (setEntry k v es).map Prod.fst =
    if k ∈ es.map Prod.fst then es.map Prod.fst else es.map Prod.fst ++ [k] := by
  rw [setEntry]
  split_ifs with hmem
  · rw [List.map_map]
    refine List.map_congr_left fun e _ => ?_
    by_cases he : e.1 = k
    · simp [he]
    · simp [he]
  · simp

theorem Flat.lookup_eq {h : η} {t : HashTrie κ η α} (ht : Flat S h t) (l l' : ℕ) (k : κ) :
    t.lookup S l k = t.lookup S l' k := by
  cases t with
  | nil => rfl
  | leaf k' v => rfl
  | bucket hb es => rfl
  | branch kids => exact ht.elim

theorem Flat.lookup_of_ne {h : η} {t : HashTrie κ η α} (ht : Flat S h t) {k : κ}
    (hk : S.hash k ≠ h) (l : ℕ) : t.lookup S l k = none := by
  cases t with
  | nil => rfl
  | leaf k' v => exact if_neg fun heq => hk ((congrArg S.hash heq).symm.trans ht)
  | bucket hb es => exact if_neg fun heq => hk (heq.symm.trans ht)
  | branch kids => exact ht.elim

section Fork

variable {ha hb : η} {a b : HashTrie κ η α}

theorem lookup_fork (hfa : Flat S ha a) (hfb : Flat S hb b) (hne : ha ≠ hb) (n l : ℕ)
    (hn : n + l = S.depth) (hagree : ∀ j < l, S.digit j ha = S.digit j hb) (k : κ) :
    (fork S n l ha a hb b).lookup S l k = (b.lookup S l k).or (a.lookup S l k) := by
  induction n generalizing l with
  | zero => exact absurd (lt_depth_of_agree hne hagree) (by omega)
  | succ n ih =>
    rw [fork]
    split_ifs with heq
    · rw [lookup]
      by_cases hk : S.digit l (S.hash k) = S.digit l ha
      · rw [hk, Function.update_self, ih (l + 1) (by omega) (fork_agree_succ hagree heq),
          hfa.lookup_eq (l + 1) l, hfb.lookup_eq (l + 1) l]
      · have hka : S.hash k ≠ ha := fun h => hk (by rw [h])
        have hkb : S.hash k ≠ hb := fun h => hk (by rw [h, heq])
        rw [Function.update_of_ne hk, hfa.lookup_of_ne hka, hfb.lookup_of_ne hkb]
        rfl
    · rw [lookup]
      by_cases hkb : S.digit l (S.hash k) = S.digit l hb
      · have hka : S.hash k ≠ ha := fun h => heq (by rw [← h, hkb])
        rw [hkb, Function.update_self, hfa.lookup_of_ne hka, hfb.lookup_eq (l + 1) l,
          Option.or_none]
      · have hne' : S.hash k ≠ hb := fun h => hkb (by rw [h])
        rw [Function.update_of_ne hkb, hfb.lookup_of_ne hne', Option.none_or]
        by_cases hka : S.digit l (S.hash k) = S.digit l ha
        · rw [hka, Function.update_self, hfa.lookup_eq (l + 1) l]
        · have hne'' : S.hash k ≠ ha := fun h => hka (by rw [h])
          rw [Function.update_of_ne hka, hfa.lookup_of_ne hne'']
          rfl

end Fork

/-! ### Insertion -/

theorem allKeys_setEntry {p : κ → Prop} {k : κ} {v : α} {es : List (κ × α)}
    (hes : ∀ e ∈ es, p e.1) (hk : p k) : ∀ e ∈ setEntry k v es, p e.1 := by
  intro e he
  have hmem : e.1 ∈ (setEntry k v es).map Prod.fst := List.mem_map_of_mem he
  rw [keys_setEntry] at hmem
  have hold : e.1 ∈ es.map Prod.fst ∨ e.1 = k := by
    split_ifs at hmem
    · exact Or.inl hmem
    · simpa using hmem
  rcases hold with hold | rfl
  · obtain ⟨e', he', heq⟩ := List.mem_map.mp hold
    exact heq ▸ hes e' he'
  · exact hk

theorem allKeys_assoc {p : κ → Prop} {k : κ} {v : α} (hk : p k) :
    ∀ {t : HashTrie κ η α} (l : ℕ), t.AllKeys p → (t.assoc S l k v).AllKeys p
  | nil, _, _ => hk
  | leaf k' v', l, h => by
    rw [assoc]
    split_ifs
    · exact hk
    · intro e he
      rcases List.mem_pair.mp he with rfl | rfl
      · exact h
      · exact hk
    · exact allKeys_fork (b := leaf k v) h hk _ l
  | bucket hb es, l, h => by
    rw [assoc]
    split_ifs
    · exact allKeys_setEntry h hk
    · exact allKeys_fork (b := leaf k v) h hk _ l
  | branch kids, l, h => by
    intro i
    by_cases hi : i = S.digit l (S.hash k)
    · subst hi
      rw [Function.update_self]
      exact allKeys_assoc hk (l + 1) (h _)
    · rw [Function.update_of_ne hi]
      exact h i

theorem lookup_leaf (k : κ) (v : α) (l : ℕ) (k' : κ) :
    (leaf k v : HashTrie κ η α).lookup S l k' = if k' = k then some v else none := by
  rw [lookup]
  by_cases h : k' = k
  · rw [if_pos h, if_pos h.symm]
  · rw [if_neg h, if_neg fun h' => h h'.symm]

/-- A fork with the leaf of a new key. -/
theorem lookup_fork_leaf {h : η} {t : HashTrie κ η α} (hf : Flat S h t) {k : κ} (v : α)
    (hne : h ≠ S.hash k) {l : ℕ} (hl : l ≤ S.depth)
    (hagree : ∀ j < l, S.digit j h = S.digit j (S.hash k)) (k' : κ) :
    (fork S (S.depth - l) l h t (S.hash k) (leaf k v)).lookup S l k' =
      if k' = k then some v else t.lookup S l k' := by
  rw [lookup_fork hf (b := leaf k v) rfl hne (S.depth - l) l (by omega) hagree, lookup_leaf]
  split_ifs
  · rfl
  · rfl

/-- **Insertion** changes the value of the inserted key only. -/
theorem lookup_assoc {k : κ} {v : α} : ∀ {t : HashTrie κ η α} {l : ℕ}, t.Canonical S l →
    Agrees S l (S.hash k) t → l ≤ S.depth → ∀ k',
    (t.assoc S l k v).lookup S l k' = if k' = k then some v else t.lookup S l k'
  | nil, l, _, _, _, k' => lookup_leaf k v l k'
  | leaf k₀ v₀, l, _, ha, hl, k' => by
    rw [assoc, lookup_leaf k₀]
    by_cases hk : k₀ = k
    · rw [if_pos hk, lookup_leaf, hk]
      split_ifs
      · rfl
      · rfl
    · rw [if_neg hk]
      by_cases hh : S.hash k₀ = S.hash k
      · rw [if_pos hh, lookup]
        by_cases hk' : k' = k
        · subst hk'
          simp [hk]
        · by_cases h₀ : k' = k₀
          · subst h₀
            simp [hh, hk]
          · simp [hk', h₀, eq_comm]
      · rw [if_neg hh]
        rw [lookup_fork_leaf (t := leaf k₀ v₀) rfl v hh hl (fun j hj => ha j hj), lookup_leaf]
  | bucket hb es, l, hc, ha, hl, k' => by
    rw [assoc]
    by_cases hh : hb = S.hash k
    · rw [if_pos hh, lookup, lookup, find?_setEntry]
      by_cases hk' : k' = k
      · rw [if_pos hk', if_pos hk', if_pos (hk' ▸ hh)]
      · rw [if_neg hk', if_neg hk']
    · rw [if_neg hh]
      exact lookup_fork_leaf (t := bucket hb es) rfl v hh hl (ha.of_bucket hc) k'
  | branch kids, l, hc, ha, hl, k' => by
    rw [assoc, lookup, lookup]
    by_cases hd : S.digit l (S.hash k') = S.digit l (S.hash k)
    · rw [hd, Function.update_self]
      exact lookup_assoc (hc.2.2 _).1 (ha.kid hc) hc.1 k'
    · have hne : k' ≠ k := fun h => hd (by rw [h])
      rw [Function.update_of_ne hd, if_neg hne]

theorem isBranch_assoc {t : HashTrie κ η α} (h : t.isBranch) (l : ℕ) (k : κ) (v : α) :
    (t.assoc S l k v).isBranch := by
  cases t with
  | branch kids => rfl
  | _ => simp [isBranch] at h

theorem assoc_ne_nil {k : κ} {v : α} {t : HashTrie κ η α} {l : ℕ} (hc : t.Canonical S l)
    (ha : Agrees S l (S.hash k) t) (hl : l ≤ S.depth) : t.assoc S l k v ≠ nil := by
  intro hnil
  have hlookup := lookup_assoc (v := v) hc ha hl k
  rw [hnil, if_pos rfl] at hlookup
  exact absurd hlookup (by rw [lookup]; exact Option.some_ne_none v |>.symm)

/-- **Insertion keeps a trie canonical.** -/
theorem Canonical.assoc {k : κ} {v : α} : ∀ {t : HashTrie κ η α} {l : ℕ}, t.Canonical S l →
    Agrees S l (S.hash k) t → l ≤ S.depth → (t.assoc S l k v).Canonical S l
  | nil, _, _, _, _ => trivial
  | leaf k₀ v₀, l, _, ha, hl => by
    rw [HashTrie.assoc]
    by_cases hk : k₀ = k
    · rw [if_pos hk]
      trivial
    · rw [if_neg hk]
      by_cases hh : S.hash k₀ = S.hash k
      · rw [if_pos hh]
        refine ⟨Nat.le_refl 2, by simpa using hk, fun e he => ?_⟩
        rcases List.mem_pair.mp he with rfl | rfl
        · exact hh
        · rfl
      · rw [if_neg hh]
        exact canonical_fork (a := leaf k₀ v₀) (b := leaf k v) (i := l) (j := l) rfl rfl trivial
          trivial hh _ l (by omega) fun j hj => ha j hj
  | bucket hb es, l, hc, ha, hl => by
    rw [HashTrie.assoc]
    by_cases hh : hb = S.hash k
    · rw [if_pos hh]
      obtain ⟨hlen, hnodup, hhash⟩ := hc
      refine ⟨?_, ?_, allKeys_setEntry (p := fun k => S.hash k = hb) hhash hh.symm⟩
      · have hkeys := congrArg List.length (keys_setEntry k v es)
        rw [List.length_map] at hkeys
        rw [hkeys]
        split_ifs
        · simpa using hlen
        · simp
          omega
      · rw [keys_setEntry]
        split_ifs with hmem
        · exact hnodup
        · exact List.nodup_append.mpr ⟨hnodup, List.nodup_singleton k, fun x hx y hy hxy =>
            hmem (List.mem_singleton.mp hy ▸ hxy ▸ hx)⟩
    · rw [if_neg hh]
      exact canonical_fork (a := bucket hb es) (b := leaf k v) (i := l) (j := l) rfl rfl hc
        trivial hh _ l (by omega) (ha.of_bucket hc)
  | branch kids, l, hc, ha, hl => by
    have hkid := hc.2.2 (S.digit l (S.hash k))
    have hagree := ha.kid hc
    refine ⟨hc.1, hc.2.1.update (assoc_ne_nil hkid.1 hagree hc.1)
      fun hb => isBranch_assoc hb _ k v, fun i => ?_⟩
    by_cases hi : i = S.digit l (S.hash k)
    · subst hi
      rw [Function.update_self]
      exact ⟨hkid.1.assoc hagree hc.1,
        allKeys_assoc (p := fun k' => S.digit l (S.hash k') = S.digit l (S.hash k)) rfl _ hkid.2.1,
        fun h => absurd (S.digit_lt l (S.hash k)) (by omega)⟩
    · rw [Function.update_of_ne hi]
      exact hc.2.2 i

/-! ### Removal -/

theorem lookup_shrink {h : η} {es : List (κ × α)} (hes : ∀ e ∈ es, S.hash e.1 = h) (l : ℕ) (k : κ) :
    (shrink h es).lookup S l k = (bucket h es).lookup S l k := by
  rcases es with _ | ⟨e, _ | ⟨e', es⟩⟩
  · rfl
  · rw [shrink, lookup, lookup]
    by_cases hk : e.1 = k
    · have hh : h = S.hash k := (hes e List.mem_cons_self).symm.trans (congrArg S.hash hk)
      simp [hk, hh]
    · simp [hk]
  · rfl

/-- Pruning does not change a lookup. -/
theorem lookup_prune {kids : ℕ → HashTrie κ η α} {l : ℕ} (h : ∀ i, Kid S l i (kids i)) (k : κ) :
    (prune S kids).lookup S l k = (branch kids).lookup S l k := by
  have hlt := S.digit_lt l (S.hash k)
  rcases prune_cases (S := S) kids with ⟨hp, hnil⟩ | ⟨i, hi, hp, hnil, hb, hother⟩ | ⟨_, hp⟩
  · rw [hp, lookup, lookup, hnil _ hlt]
    rfl
  · rw [hp, lookup]
    by_cases hd : S.digit l (S.hash k) = i
    · rw [hd]
      cases ht : kids i with
      | branch kids' => simp [ht, isBranch] at hb
      | nil => rfl
      | leaf k' v => rfl
      | bucket hb es => rfl
    · rw [hother _ hlt hd]
      have hne : ∀ k', S.digit l (S.hash k') = i → k' ≠ k := fun k' hk' heq => hd (heq ▸ hk')
      exact lookup_eq_none l ((h i).2.1.imp hne)
  · rw [hp]

theorem allKeys_dissoc {p : κ → Prop} {k : κ} : ∀ {t : HashTrie κ η α} (l : ℕ), t.AllKeys p →
    (t.dissoc S l k).AllKeys p
  | nil, _, _ => trivial
  | leaf k' v', l, h => by
    rw [dissoc]
    split_ifs
    · trivial
    · exact h
  | bucket hb es, l, h => by
    rw [dissoc]
    split_ifs
    · exact allKeys_shrink (fun e he => h e (List.mem_filter.mp he).1) hb
    · exact h
  | branch kids, l, h =>
    allKeys_prune ((Function.forall_update_iff kids fun _ t => t.AllKeys p).mpr
      ⟨allKeys_dissoc (l + 1) (h _), fun i _ => h i⟩)

omit [DecidableEq η] in
theorem exists_mem_filter_ne {es : List (κ × α)} (hlen : 2 ≤ es.length)
    (hnodup : (es.map Prod.fst).Nodup) (k : κ) : (es.filter fun e => e.1 ≠ k) ≠ [] := by
  intro hnil
  have hall : ∀ e ∈ es, e.1 = k := fun e he => by
    simpa using List.filter_eq_nil_iff.mp hnil e he
  rcases es with _ | ⟨e, _ | ⟨e', es⟩⟩
  · simp at hlen
  · simp at hlen
  · have heq : e.1 = e'.1 := (hall e List.mem_cons_self).trans
      (hall e' (List.mem_cons_of_mem _ List.mem_cons_self)).symm
    simp [heq] at hnodup

omit [DecidableEq η] in
theorem canonical_shrink {hb : η} {es : List (κ × α)} {l : ℕ} (hc : (bucket hb es).Canonical S l)
    (k : κ) : (shrink hb (es.filter fun e => e.1 ≠ k)).Canonical S l := by
  obtain ⟨hlen, hnodup, hhash⟩ := hc
  have hne := exists_mem_filter_ne hlen hnodup k
  have hsub : (es.filter fun e => e.1 ≠ k).Sublist es := List.filter_sublist
  have hnodup' := (hsub.map Prod.fst).nodup hnodup
  have hhash' : ∀ e ∈ es.filter fun e => e.1 ≠ k, S.hash e.1 = hb :=
    fun e he => hhash e (hsub.mem he)
  generalize es.filter (fun e => e.1 ≠ k) = es' at hne hnodup' hhash'
  rcases es' with _ | ⟨e, _ | ⟨e', es'⟩⟩
  · exact absurd rfl hne
  · trivial
  · exact ⟨by simp, hnodup', hhash'⟩

theorem Kid.dissoc {kids : ℕ → HashTrie κ η α} {l : ℕ} (h : ∀ i, Kid S l i (kids i)) {d : ℕ} {k : κ}
    (hd : ((kids d).dissoc S (l + 1) k).Canonical S (l + 1)) :
    ∀ i, Kid S l i (Function.update kids d ((kids d).dissoc S (l + 1) k) i) := by
  refine (Function.forall_update_iff kids (Kid S l)).mpr
    ⟨⟨hd, allKeys_dissoc (l + 1) (h d).2.1, fun hw => ?_⟩, fun i _ => h i⟩
  rw [(h d).2.2 hw]
  rfl

/-- **Removal keeps a trie canonical.** -/
theorem Canonical.dissoc {k : κ} : ∀ {t : HashTrie κ η α} {l : ℕ}, t.Canonical S l →
    (t.dissoc S l k).Canonical S l
  | nil, _, _ => trivial
  | leaf k₀ v₀, l, _ => by
    rw [HashTrie.dissoc]
    split_ifs
    · trivial
    · trivial
  | bucket hb es, l, hc => by
    rw [HashTrie.dissoc]
    split_ifs
    · exact canonical_shrink hc k
    · exact hc
  | branch kids, l, hc =>
    Canonical.prune hc.1 (Kid.dissoc hc.2.2 (hc.2.2 (S.digit l (S.hash k))).1.dissoc)

/-- **Removal** changes the value of the removed key only. -/
theorem lookup_dissoc {k : κ} : ∀ {t : HashTrie κ η α} {l : ℕ}, t.Canonical S l → ∀ k',
    (t.dissoc S l k).lookup S l k' = if k' = k then none else t.lookup S l k'
  | nil, _, _, k' => by
    rw [dissoc, lookup, ite_self]
  | leaf k₀ v₀, l, _, k' => by
    rw [dissoc, lookup_leaf]
    by_cases hk : k₀ = k
    · rw [if_pos hk, hk, lookup]
      split_ifs
      · rfl
      · rfl
    · rw [if_neg hk, lookup_leaf]
      by_cases hk' : k' = k
      · rw [if_pos hk', if_neg fun h => hk (h.symm.trans hk')]
      · rw [if_neg hk']
  | bucket hb es, l, hc, k' => by
    rw [dissoc]
    by_cases hh : hb = S.hash k
    · rw [if_pos hh, lookup_shrink fun e he => hc.2.2 e (List.mem_filter.mp he).1, lookup, lookup]
      have hfind : ((es.filter fun e => e.1 ≠ k).find? fun e => e.1 = k') =
          if k' = k then none else es.find? fun e => e.1 = k' := by
        rw [List.find?_filter]
        by_cases hk' : k' = k
        · rw [if_pos hk']
          exact List.find?_eq_none.mpr fun e _ => by simp [hk']
        · rw [if_neg hk']
          congr 1
          funext e
          by_cases he : e.1 = k'
          · simp [he, hk']
          · simp [he]
      rw [hfind]
      by_cases hk' : k' = k
      · simp [hk']
      · simp [hk']
    · rw [if_neg hh, lookup]
      by_cases hk' : k' = k
      · rw [if_neg (hk' ▸ hh), ite_self]
      · rw [if_neg hk']
  | branch kids, l, hc, k' => by
    have hkid := hc.2.2 (S.digit l (S.hash k))
    have hkids := Kid.dissoc (k := k) hc.2.2 hkid.1.dissoc
    rw [dissoc, lookup_prune hkids, lookup, lookup]
    by_cases hd : S.digit l (S.hash k') = S.digit l (S.hash k)
    · rw [hd, Function.update_self]
      exact lookup_dissoc hkid.1 k'
    · rw [Function.update_of_ne hd, if_neg fun h => hd (by rw [h])]

/-- A key that is not there is removed without a trace. -/
theorem dissoc_of_lookup {k : κ} : ∀ {t : HashTrie κ η α} {l : ℕ}, t.Canonical S l →
    t.lookup S l k = none → t.dissoc S l k = t
  | nil, _, _, _ => rfl
  | leaf k₀ v₀, l, _, h => by
    rw [dissoc, if_neg]
    rintro rfl
    simp [lookup] at h
  | bucket hb es, l, hc, h => by
    rw [dissoc]
    by_cases hh : hb = S.hash k
    · rw [lookup, if_pos hh, Option.map_eq_none_iff, List.find?_eq_none] at h
      have hes : (es.filter fun e => e.1 ≠ k) = es :=
        List.filter_eq_self.mpr fun e he => by simpa using h e he
      rw [if_pos hh, hes]
      obtain ⟨hlen, -⟩ := hc
      rcases es with _ | ⟨e, _ | ⟨e', es⟩⟩
      · rfl
      · simp at hlen
      · rfl
    · rw [if_neg hh]
  | branch kids, l, hc, h => by
    rw [dissoc, dissoc_of_lookup (hc.2.2 _).1 h, Function.update_eq_self, prune_of_solid hc.2.1]

/-! ### Entries -/

/-- **The entries are the graph of the lookup.** -/
theorem Canonical.mem_toList_iff {k : κ} {v : α} : ∀ {t : HashTrie κ η α} {l : ℕ},
    t.Canonical S l → ((k, v) ∈ t.toList S ↔ t.lookup S l k = some v)
  | nil, _, _ => by simp [toList, lookup]
  | leaf k₀ v₀, l, _ => by
    rw [toList, lookup_leaf, List.mem_singleton, Prod.mk.injEq]
    by_cases hk : k = k₀
    · simp [hk, eq_comm]
    · simp [hk]
  | bucket hb es, l, hc => by
    obtain ⟨-, hnodup, hhash⟩ := hc
    rw [toList, lookup]
    constructor
    · intro he
      rw [if_pos (hhash _ he).symm, find?_eq_some hnodup he]
      rfl
    · intro h
      split_ifs at h with hh
      · obtain ⟨e, hfind, hv⟩ := Option.map_eq_some_iff.mp h
        have hk : e.1 = k := by simpa using List.find?_some hfind
        have he := List.mem_of_find?_eq_some hfind
        rwa [show e = (k, v) from Prod.ext hk hv] at he
  | branch kids, l, hc => by
    rw [toList, lookup, List.mem_flatMap]
    constructor
    · rintro ⟨i, -, hi⟩
      have hd : S.digit l (S.hash k) = i := (hc.2.2 i).2.1.of_mem hi
      rw [hd]
      exact (hc.2.2 i).1.mem_toList_iff.mp hi
    · intro h
      exact ⟨S.digit l (S.hash k), List.mem_range.mpr (S.digit_lt l _),
        (hc.2.2 _).1.mem_toList_iff.mpr h⟩

end HashTrie

end SalRuntime
