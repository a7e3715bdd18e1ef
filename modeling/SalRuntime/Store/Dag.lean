import SalRuntime.Foundations.Ancestry
import SalRuntime.Foundations.SortedMap
import SalRuntime.Foundations.Worklist
import SalRuntime.Store.Failure

/-!
# The commit store

The commit DAG of `src/dag.js`: immutable commits under numbered ids, each with its parents, the
operation it carries (none for the root, merges and compactions) and the materialized state. A
commit may name parents that garbage collection has removed; every traversal skips them.

## Main definitions

* `Op`, `Commit`, `Dag` — the data model.
* `Dag.add`, `Dag.get`, `Dag.sever`, `Dag.remove`, `Dag.restrictParents` — the store.
* `Dag.ancestorSet`, `Dag.isAncestor`, `Dag.events`, `Dag.childrenIndex` — the traversals.
* `Dag.Par`, `Dag.Reaches` — the parent relation of the stored commits and its closure.
* `Dag.Wf` — commits are filed under their own ids, and parents are older than children.

## Main results

* `Dag.mem_ancestors_iff` — `ancestorSet` lists the reflexive ancestors, each once.
* `Dag.isAncestor_eq` — `isAncestor` decides ancestry.
* `Dag.add_eq_ok_iff` — what adding a commit does.
* `Dag.Wf.reaches_push_self`, `Dag.Wf.reaches_push_of_ne` — ancestry in the extended store.
-/

namespace SalRuntime

/-- An authored operation: the author, its sequence number there, and the payload. -/
@[ext]
structure Op (π : Type) where
  /-- The name of the authoring replica. -/
  replica : String
  /-- The author's sequence number. -/
  seq : ℕ
  /-- What the author did. -/
  payload : π
  deriving DecidableEq, Repr

/-- A commit. -/
structure Commit (σ π : Type) where
  /-- The number `n` of the id `cn`. -/
  id : ℕ
  /-- The ids of the parents. -/
  parents : List ℕ
  /-- The operation, or none for a root, merge or compaction commit. -/
  op : Option (Op π)
  /-- The datatype state at this commit. -/
  state : σ

/-- The commit store. -/
structure Dag (σ π : Type) where
  /-- The commits, by id. Ids are handed out in ascending order, so this is insertion order. -/
  commits : SortedMap ℕ (Commit σ π)
  /-- The next id. -/
  nextId : ℕ

namespace Dag

variable {σ π : Type}

/-- The store with no commit. -/
def empty : Dag σ π := ⟨SortedMap.empty, 0⟩

/-- Is a commit in the store? -/
def has (d : Dag σ π) (id : ℕ) : Bool := d.commits.has id

/-- The number of commits. -/
def size (d : Dag σ π) : ℕ := d.commits.size

/-- The ids of the commits. -/
def ids (d : Dag σ π) : List ℕ := d.commits.keys

/-- The commits. -/
def values (d : Dag σ π) : List (Commit σ π) := d.commits.values

/-- The commit of an id. -/
def get (d : Dag σ π) (id : ℕ) : Except Failure (Commit σ π) :=
  match d.commits.get? id with
  | some c => .ok c
  | none => .error (.error s!"no such commit: {commitName id} (pruned by gc, or never added)")

/-- Append a commit under the next id. Its parents must be in the store. -/
def add (d : Dag σ π) (parents : List ℕ) (op : Option (Op π)) (state : σ) :
    Except Failure (Dag σ π × Commit σ π) :=
  match parents.find? fun p => !d.has p with
  | some p => .error (.error s!"unknown parent commit: {commitName p}")
  | none =>
    let commit : Commit σ π := { id := d.nextId, parents, op, state }
    .ok ({ commits := d.commits.insert d.nextId commit, nextId := d.nextId + 1 }, commit)

/-- Replace a commit by a parentless clone with the same id. -/
def sever (d : Dag σ π) (id : ℕ) : Except Failure (Dag σ π) :=
  match d.commits.get? id with
  | some c => .ok { d with commits := d.commits.insert id { c with parents := [] } }
  | none => .error (.error s!"sever: unknown commit {commitName id}")

/-- Remove a commit. -/
def remove (d : Dag σ π) (id : ℕ) : Dag σ π := { d with commits := d.commits.erase id }

/-- Drop the parent links of the kept commits that leave `keep`. -/
def restrictParents (d : Dag σ π) (keep : List ℕ) : Dag σ π :=
  { d with commits := d.commits.mapVal fun id c =>
      if id ∈ keep then { c with parents := c.parents.filter (· ∈ keep) } else c }

/-- The parents of a commit that are in the store; none for an absent commit. -/
def storedParents (d : Dag σ π) (id : ℕ) : List ℕ :=
  match d.commits.get? id with
  | some c => c.parents.filter d.has
  | none => []

/-- The ids pushed by the traversal that starts at `id`. Every commit is pushed at most once, so
the size of the store bounds the number of rounds. -/
def ancestors (d : Dag σ π) (id : ℕ) : List ℕ :=
  Worklist.explore d.storedParents d.size [id] [id]

/-- The reflexive ancestor closure of a commit of the store. -/
def ancestorSet (d : Dag σ π) (id : ℕ) : Except Failure (List ℕ) := do
  let _ ← d.get id
  return d.ancestors id

/-- The search of `isAncestor`: the worklist traversal, left when a commit names `anc` as a
parent. -/
def isAncestorLoop (d : Dag σ π) (anc : ℕ) : ℕ → List ℕ → List ℕ → Bool
  | 0, _, _ => false
  | _ + 1, [], _ => false
  | n + 1, x :: stack, seen =>
    match d.commits.get? x with
    | none => isAncestorLoop d anc n stack seen
    | some c =>
      if anc ∈ c.parents then true
      else
        let acc := (c.parents.filter d.has).foldl Worklist.visit (stack, seen)
        isAncestorLoop d anc n acc.1 acc.2

/-- Is `anc` a reflexive ancestor of `desc`? Both must be in the store. -/
def isAncestor (d : Dag σ π) (anc desc : ℕ) : Except Failure Bool := do
  let _ ← d.get anc
  let _ ← d.get desc
  return if anc = desc then true else isAncestorLoop d anc d.size [desc] [desc]

/-- The operations along the reflexive ancestor closure of a commit. -/
def events (d : Dag σ π) (id : ℕ) : Except Failure (List (Op π)) := do
  let closure ← d.ancestorSet id
  return closure.filterMap fun a => (d.commits.get? a).bind Commit.op

/-- The children of a commit: the stored commits that name it as a parent, in the order of the
store. -/
def childrenIndex (d : Dag σ π) (p : ℕ) : List ℕ :=
  if d.has p then d.values.flatMap fun c => (c.parents.filter (· = p)).map fun _ => c.id else []

/-! ### The parent relation -/

/-- `p` is a parent of `x`, both in the store. -/
def Par (d : Dag σ π) (x p : ℕ) : Prop := p ∈ d.storedParents x

/-- `y` is a reflexive ancestor of `x` along stored parents. -/
abbrev Reaches (d : Dag σ π) : ℕ → ℕ → Prop := Ancestry.Reaches d.Par

/-- Commits are filed under their own ids, ids in use are below the next one, and parents are
older than their children. -/
structure Wf (d : Dag σ π) : Prop where
  /-- A commit carries the id it is filed under. -/
  id_eq : ∀ x c, d.commits.get? x = some c → c.id = x
  /-- Ids in use are below the next id. -/
  id_lt : ∀ x c, d.commits.get? x = some c → x < d.nextId
  /-- Parents are older than their children. -/
  parent_lt : ∀ x c, d.commits.get? x = some c → ∀ p ∈ c.parents, p < x

theorem has_iff {d : Dag σ π} {x : ℕ} : d.has x = true ↔ ∃ c, d.commits.get? x = some c :=
  SortedMap.has_iff

theorem mem_ids_iff {d : Dag σ π} {x : ℕ} : x ∈ d.ids ↔ d.has x = true := by
  rw [ids, SortedMap.mem_keys_iff, has_iff]

theorem get_eq_ok {d : Dag σ π} {x : ℕ} {c : Commit σ π} :
    d.get x = .ok c ↔ d.commits.get? x = some c := by
  rw [get]
  cases d.commits.get? x <;> simp

theorem par_iff {d : Dag σ π} {x p : ℕ} :
    d.Par x p ↔ ∃ c, d.commits.get? x = some c ∧ p ∈ c.parents ∧ d.has p = true := by
  rw [Par, storedParents]
  cases d.commits.get? x <;> simp

theorem has_of_par_left {d : Dag σ π} {x p : ℕ} (h : d.Par x p) : d.has x = true := by
  obtain ⟨c, hc, -⟩ := par_iff.mp h
  exact has_iff.mpr ⟨c, hc⟩

theorem has_of_par {d : Dag σ π} {x p : ℕ} (h : d.Par x p) : d.has p = true := by
  obtain ⟨c, -, -, hp⟩ := par_iff.mp h
  exact hp

theorem has_of_reaches {d : Dag σ π} {x y : ℕ} (h : d.Reaches x y) (hx : d.has x = true) :
    d.has y = true := by
  rcases Relation.ReflTransGen.cases_tail h with h | ⟨z, -, hz⟩
  · exact h ▸ hx
  · exact has_of_par hz

theorem has_of_reaches_right {d : Dag σ π} {x y : ℕ} (h : d.Reaches x y) (hy : d.has y = true) :
    d.has x = true := by
  rcases Relation.ReflTransGen.cases_head h with h | ⟨z, hz, -⟩
  · exact h ▸ hy
  · exact has_of_par_left hz

/-- Parents are older, so the id is a rank of the parent relation. -/
theorem Wf.par_lt {d : Dag σ π} (hd : d.Wf) (x p : ℕ) (h : d.Par x p) : p < x := by
  obtain ⟨c, hc, hp, -⟩ := par_iff.mp h
  exact hd.parent_lt x c hc p hp

/-! ### The traversals compute ancestry -/

theorem storedParents_subset (d : Dag σ π) (x : ℕ) : d.storedParents x ⊆ d.ids := fun p hp => by
  exact mem_ids_iff.mpr (has_of_par (d := d) (x := x) hp)

theorem length_ids (d : Dag σ π) : d.ids.length = d.size := List.length_map ..

section Start

variable {d : Dag σ π} {x : ℕ} (hx : d.has x = true)

include hx

/-- **The traversal lists the reflexive ancestors.** -/
theorem mem_ancestors_iff {y : ℕ} : y ∈ d.ancestors x ↔ d.Reaches x y := by
  rw [ancestors, Worklist.mem_explore_iff (U := d.ids) (fun z _ => d.storedParents_subset z)
    (List.nodup_singleton x) (by simpa using mem_ids_iff.mpr hx) (List.Perm.refl _)
    d.length_ids.le]
  simp only [List.mem_singleton, exists_eq_left]
  exact Iff.rfl

theorem nodup_ancestors : (d.ancestors x).Nodup :=
  Worklist.nodup_explore (U := d.ids) (fun z _ => d.storedParents_subset z)
    (List.nodup_singleton x) (by simpa using mem_ids_iff.mpr hx) (List.Perm.refl _)
    d.length_ids.le

theorem ancestorSet_eq : d.ancestorSet x = .ok (d.ancestors x) := by
  obtain ⟨c, hc⟩ := has_iff.mp hx
  rw [ancestorSet, get_eq_ok.mpr hc]
  rfl

theorem self_mem_ancestors : x ∈ d.ancestors x := (mem_ancestors_iff hx).mpr .refl

theorem has_of_mem_ancestors {y : ℕ} (hy : y ∈ d.ancestors x) : d.has y = true :=
  has_of_reaches ((mem_ancestors_iff hx).mp hy) hx

end Start

/-- The early exit of `isAncestorLoop` fires exactly when the full traversal would push `anc`. -/
theorem isAncestorLoop_iff {d : Dag σ π} {anc : ℕ} (hanc : d.has anc = true) (n : ℕ)
    (stack seen : List ℕ) (hseen : anc ∉ seen) :
    d.isAncestorLoop anc n stack seen = true ↔
      anc ∈ Worklist.explore d.storedParents n stack seen := by
  induction n generalizing stack seen with
  | zero => simpa [isAncestorLoop, Worklist.explore] using hseen
  | succ n ih =>
    cases stack with
    | nil => simpa [isAncestorLoop, Worklist.explore] using hseen
    | cons x stack =>
      rw [isAncestorLoop, Worklist.explore, storedParents]
      cases hx : d.commits.get? x with
      | none => simpa using ih stack seen hseen
      | some c =>
        obtain ⟨new, heq, hsub, -, hall⟩ :=
          Worklist.foldl_visit (c.parents.filter d.has) stack seen
        simp only [heq]
        by_cases hp : anc ∈ c.parents
        · simp only [if_pos hp, true_iff]
          exact Worklist.subset_explore _ _ _ _ (hall (List.mem_filter.mpr ⟨hp, hanc⟩))
        · rw [if_neg hp, ih]
          intro hmem
          rcases List.mem_append.mp hmem with h | h
          · exact hseen h
          · exact hp (List.mem_of_mem_filter (hsub h))

/-- **`isAncestor` decides ancestry.** -/
theorem isAncestor_eq {d : Dag σ π} {anc desc : ℕ} (hanc : d.has anc = true)
    (hdesc : d.has desc = true) :
    ∃ b, d.isAncestor anc desc = .ok b ∧ (b = true ↔ d.Reaches desc anc) := by
  obtain ⟨a, ha⟩ := has_iff.mp hanc
  obtain ⟨c, hc⟩ := has_iff.mp hdesc
  refine ⟨_, by rw [isAncestor, get_eq_ok.mpr ha, get_eq_ok.mpr hc]; rfl, ?_⟩
  by_cases h : anc = desc
  · simpa [h] using Relation.ReflTransGen.refl
  · rw [if_neg h, isAncestorLoop_iff hanc _ _ _ (by simpa using h), ← mem_ancestors_iff hdesc]
    rfl

/-! ### Adding a commit -/

/-- The store with a commit appended. -/
def push (d : Dag σ π) (parents : List ℕ) (op : Option (Op π)) (state : σ) : Dag σ π :=
  { commits := d.commits.insert d.nextId { id := d.nextId, parents, op, state },
    nextId := d.nextId + 1 }

/-- **Adding a commit** succeeds exactly when its parents are in the store, and appends it under
the next id. -/
theorem add_eq_ok_iff {d d' : Dag σ π} {parents : List ℕ} {op : Option (Op π)} {state : σ}
    {c : Commit σ π} : d.add parents op state = .ok (d', c) ↔
      (∀ p ∈ parents, d.has p = true) ∧ d' = d.push parents op state ∧
        c = { id := d.nextId, parents, op, state } := by
  rw [add]
  cases h : parents.find? fun p => !d.has p with
  | some p =>
    have hp := List.find?_some h
    simp only [reduceCtorEq, false_iff, not_and]
    intro hall
    simp [hall p (List.mem_of_find?_eq_some h)] at hp
  | none =>
    have hall : ∀ p ∈ parents, d.has p = true := by simpa using h
    simp only [Except.ok.injEq, Prod.mk.injEq, push]
    exact ⟨fun ⟨h1, h2⟩ => ⟨hall, h1.symm, h2.symm⟩, fun ⟨_, h1, h2⟩ => ⟨h1.symm, h2.symm⟩⟩

theorem add_eq_ok {d : Dag σ π} {parents : List ℕ} (hp : ∀ p ∈ parents, d.has p = true)
    (op : Option (Op π)) (state : σ) : d.add parents op state =
      .ok (d.push parents op state, { id := d.nextId, parents, op, state }) :=
  add_eq_ok_iff.mpr ⟨hp, rfl, rfl⟩

section Push

variable {d : Dag σ π} (parents : List ℕ) (op : Option (Op π)) (state : σ)

@[simp] theorem push_nextId : (d.push parents op state).nextId = d.nextId + 1 := rfl

theorem get?_push (x : ℕ) : (d.push parents op state).commits.get? x =
    if x = d.nextId then some { id := d.nextId, parents, op, state } else d.commits.get? x :=
  SortedMap.get?_insert ..

@[simp] theorem get?_push_self : (d.push parents op state).commits.get? d.nextId =
    some { id := d.nextId, parents, op, state } := by simp [get?_push]

theorem has_push (x : ℕ) :
    (d.push parents op state).has x = (decide (x = d.nextId) || d.has x) :=
  SortedMap.has_insert ..

variable {parents op state} (hd : d.Wf)

include hd

theorem Wf.lt_of_has {x : ℕ} (h : d.has x = true) : x < d.nextId := by
  obtain ⟨c, hc⟩ := has_iff.mp h
  exact hd.id_lt x c hc

theorem Wf.not_has_nextId : d.has d.nextId = false := by
  rw [← Bool.not_eq_true]
  exact fun h => lt_irrefl _ (hd.lt_of_has h)

theorem Wf.get?_push_of_has {x : ℕ} (h : d.has x = true) :
    (d.push parents op state).commits.get? x = d.commits.get? x := by
  rw [get?_push, if_neg (hd.lt_of_has h).ne]

theorem Wf.push (hp : ∀ p ∈ parents, d.has p = true) : (d.push parents op state).Wf where
  id_eq x c h := by
    rw [get?_push] at h
    split_ifs at h with hx
    · cases h
      exact hx.symm
    · exact hd.id_eq x c h
  id_lt x c h := by
    rw [get?_push] at h
    split_ifs at h with hx
    · exact hx ▸ Nat.lt_succ_self _
    · exact (hd.id_lt x c h).trans (Nat.lt_succ_self _)
  parent_lt x c h p hmem := by
    rw [get?_push] at h
    split_ifs at h with hx
    · cases h
      exact hx ▸ hd.lt_of_has (hp p hmem)
    · exact hd.parent_lt x c h p hmem

/-- The parents of the commits that were there before do not change. -/
theorem Wf.par_push_of_ne {x p : ℕ} (hx : x ≠ d.nextId) :
    (d.push parents op state).Par x p ↔ d.Par x p := by
  rw [par_iff, par_iff]
  simp only [get?_push, if_neg hx, has_push, Bool.or_eq_true, decide_eq_true_eq]
  constructor
  · rintro ⟨c, hc, hp, rfl | h⟩
    · exact absurd ((hd.parent_lt x c hc _ hp).trans (hd.id_lt x c hc)) (lt_irrefl _)
    · exact ⟨c, hc, hp, h⟩
  · rintro ⟨c, hc, hp, h⟩
    exact ⟨c, hc, hp, Or.inr h⟩

omit hd in
theorem par_push_self (hp : ∀ p ∈ parents, d.has p = true) {p : ℕ} :
    (d.push parents op state).Par d.nextId p ↔ p ∈ parents := by
  rw [par_iff]
  simp only [get?_push_self, Option.some.injEq, exists_eq_left', has_push, Bool.or_eq_true]
  exact ⟨fun h => h.1, fun h => ⟨h, Or.inr (hp p h)⟩⟩

/-- Ancestry among the commits that were there before does not change. -/
theorem Wf.reaches_push_of_ne {x y : ℕ} (hx : x ≠ d.nextId) :
    (d.push parents op state).Reaches x y ↔ d.Reaches x y := by
  constructor
  · intro h
    suffices d.Reaches x y ∧ y ≠ d.nextId from this.1
    induction h with
    | refl => exact ⟨.refl, hx⟩
    | tail _ hp ih =>
      have hp' := (hd.par_push_of_ne ih.2).mp hp
      exact ⟨ih.1.tail hp', (hd.lt_of_has (has_of_par hp')).ne⟩
  · intro h
    suffices (d.push parents op state).Reaches x y ∧ y ≠ d.nextId from this.1
    induction h with
    | refl => exact ⟨.refl, hx⟩
    | tail _ hp ih =>
      exact ⟨ih.1.tail ((hd.par_push_of_ne ih.2).mpr hp), (hd.lt_of_has (has_of_par hp)).ne⟩

/-- The ancestors of the new commit: itself and those of its parents. -/
theorem Wf.reaches_push_self (hp : ∀ p ∈ parents, d.has p = true) {y : ℕ} :
    (d.push parents op state).Reaches d.nextId y ↔
      y = d.nextId ∨ ∃ p ∈ parents, d.Reaches p y := by
  constructor
  · intro h
    rcases Relation.ReflTransGen.cases_head h with h | ⟨p, hpar, hpy⟩
    · exact Or.inl h.symm
    · have hmem := (par_push_self hp).mp hpar
      exact Or.inr ⟨p, hmem, (hd.reaches_push_of_ne (hd.lt_of_has (hp p hmem)).ne).mp hpy⟩
  · rintro (rfl | ⟨p, hmem, hpy⟩)
    · exact .refl
    · exact .head ((par_push_self hp).mpr hmem)
        ((hd.reaches_push_of_ne (hd.lt_of_has (hp p hmem)).ne).mpr hpy)

/-- No commit that was there before has the new one as an ancestor. -/
theorem Wf.not_reaches_nextId {x : ℕ} (hx : d.has x = true) :
    ¬ (d.push parents op state).Reaches x d.nextId := fun h => by
  have := (hd.reaches_push_of_ne (hd.lt_of_has hx).ne).mp h
  exact Bool.false_ne_true (hd.not_has_nextId.symm.trans (has_of_reaches this hx))

/-- Maximal common ancestors of commits that were there before do not change. -/
theorem Wf.isMca_push_iff {a b m : ℕ} (ha : d.has a = true) (hb : d.has b = true) :
    Ancestry.IsMca (d.push parents op state).Par {a} b m ↔ Ancestry.IsMca d.Par {a} b m := by
  refine (Ancestry.isMca_congr (fun z hz y => ?_) (fun z => ?_) fun z => ?_).symm
  · exact (hd.reaches_push_of_ne (hd.lt_of_has (has_of_reaches hz ha)).ne).symm
  · exact hd.reaches_push_of_ne (hd.lt_of_has ha).ne
  · exact hd.reaches_push_of_ne (hd.lt_of_has hb).ne

end Push

/-! ### Removing commits -/

theorem sever_eq_ok {d d' : Dag σ π} {x : ℕ} (h : d.sever x = .ok d') :
    ∃ c, d.commits.get? x = some c ∧
      d' = { d with commits := d.commits.insert x { c with parents := [] } } := by
  rw [sever] at h
  cases hc : d.commits.get? x with
  | none => simp [hc] at h
  | some c =>
    rw [hc, Except.ok.injEq] at h
    exact ⟨c, rfl, h.symm⟩

theorem foldl_remove (d : Dag σ π) (xs : List ℕ) :
    xs.foldl remove d = { d with commits := xs.foldl SortedMap.erase d.commits } := by
  induction xs generalizing d with
  | nil => rfl
  | cons x xs ih => rw [List.foldl_cons, ih, remove, List.foldl_cons]

/-- A store whose commits are commits of a well-formed store with fewer parents. -/
theorem Wf.of_shrunk {d d' : Dag σ π} (hd : d.Wf) (hnext : d'.nextId = d.nextId)
    (hget : ∀ x c', d'.commits.get? x = some c' → ∃ c, d.commits.get? x = some c ∧ c'.id = c.id ∧
      c'.parents ⊆ c.parents) : d'.Wf where
  id_eq x c' h := by
    obtain ⟨c, hc, hid, -⟩ := hget x c' h
    exact hid.trans (hd.id_eq x c hc)
  id_lt x c' h := by
    obtain ⟨c, hc, -⟩ := hget x c' h
    exact hnext ▸ hd.id_lt x c hc
  parent_lt x c' h p hp := by
    obtain ⟨c, hc, -, hsub⟩ := hget x c' h
    exact hd.parent_lt x c hc p (hsub hp)

theorem Wf.sever {d d' : Dag σ π} (hd : d.Wf) {x : ℕ} (h : d.sever x = .ok d') : d'.Wf := by
  obtain ⟨c, hc, rfl⟩ := sever_eq_ok h
  refine hd.of_shrunk rfl fun y c' hy => ?_
  rw [SortedMap.get?_insert] at hy
  split_ifs at hy with heq
  · cases hy
    exact ⟨c, heq ▸ hc, rfl, List.nil_subset _⟩
  · exact ⟨c', hy, rfl, List.Subset.refl _⟩

theorem Wf.foldl_remove {d : Dag σ π} (hd : d.Wf) (xs : List ℕ) : (xs.foldl remove d).Wf := by
  refine hd.of_shrunk (by rw [Dag.foldl_remove]) fun y c' hy => ?_
  rw [Dag.foldl_remove, SortedMap.get?_foldl_erase] at hy
  split_ifs at hy
  exact ⟨c', hy, rfl, List.Subset.refl _⟩

theorem has_foldl_remove (d : Dag σ π) (xs : List ℕ) (x : ℕ) :
    (xs.foldl remove d).has x = (decide (x ∉ xs) && d.has x) := by
  rw [foldl_remove, has, SortedMap.has, SortedMap.get?_foldl_erase]
  by_cases hx : x ∈ xs <;> simp [hx, has, SortedMap.has]

end Dag

end SalRuntime
