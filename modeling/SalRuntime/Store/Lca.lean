import SalRuntime.Store.Dag

/-!
# Maximal common ancestors and the merge gate

The search for maximal common ancestors of `src/lca.js`, and the gate `lca` of the shared-store
runtime, which accepts a merge only when there is exactly one.

## Main definitions

* `Dag.maximalOf` — the members of a set of commits that no member names as a parent.
* `Dag.mcas`, `Dag.lca` — the search and the gate.

## Main results

* `Dag.mcas_spec` — the search returns the maximal common ancestors, each once.
* `Dag.lca_eq_ok_iff` — the gate returns `l` exactly when `l` is the only one.
* `Dag.lca_eq_error` — the gate refuses when there are several, or none.
-/

namespace SalRuntime.Dag

open Ancestry

variable {σ π : Type}

/-- The parents a stored commit names; none for an absent commit. -/
def parentsOf (d : Dag σ π) (id : ℕ) : List ℕ := ((d.commits.get? id).map Commit.parents).getD []

/-- The members of `ca` that are not a parent of a member of `ca`. -/
def maximalOf (d : Dag σ π) (ca : List ℕ) : List ℕ :=
  let nonMax := (ca.flatMap d.parentsOf).filter (· ∈ ca)
  ca.filter (· ∉ nonMax)

/-- All maximal common ancestors of two commits. -/
def mcas (d : Dag σ π) (aId bId : ℕ) : Except Failure (List ℕ) := do
  let A ← d.ancestorSet aId
  let B ← d.ancestorSet bId
  return d.maximalOf (A.filter (· ∈ B))

/-- The unique maximal common ancestor, or a failure. -/
def lca (d : Dag σ π) (aId bId : ℕ) : Except Failure ℕ := do
  match ← d.mcas aId bId with
  | [m] => return m
  | [] => throw (.error s!"no common ancestor of {commitName aId} and {commitName bId}")
  | m => throw (.crissCross m)

theorem mem_parentsOf_iff {d : Dag σ π} {x p : ℕ} :
    p ∈ d.parentsOf x ↔ ∃ c, d.commits.get? x = some c ∧ p ∈ c.parents := by
  rw [parentsOf]
  cases d.commits.get? x <;> simp

/-- If `ca` lists the common ancestors of `S` and `w`, then `maximalOf ca` lists the maximal ones, in
every history whose parents have a smaller rank than their children. -/
theorem mem_maximalOf_iff_of_rank {d : Dag σ π} {rank : ℕ → ℕ}
    (hrank : ∀ x p, d.Par x p → rank p < rank x) {S : Set ℕ} {w : ℕ} (hw : d.has w = true)
    {ca : List ℕ} (hca : ∀ z, z ∈ ca ↔ CommonAncestor d.Par S w z) {m : ℕ} :
    m ∈ d.maximalOf ca ↔ IsMca d.Par S w m := by
  rw [isMca_iff_forall_not_par hrank, maximalOf, List.mem_filter, hca]
  refine and_congr_right fun hm => ?_
  simp only [List.mem_filter, List.mem_flatMap, decide_eq_true_eq, not_and]
  constructor
  · intro h c hc hpar
    obtain ⟨k, hk, hp, -⟩ := par_iff.mp hpar
    exact h ⟨c, (hca c).mpr hc, mem_parentsOf_iff.mpr ⟨k, hk, hp⟩⟩ ((hca m).mpr hm)
  · rintro h ⟨c, hc, hp⟩ -
    obtain ⟨k, hk, hmem⟩ := mem_parentsOf_iff.mp hp
    exact h c ((hca c).mp hc) (par_iff.mpr ⟨k, hk, hmem, has_of_reaches hm.2 hw⟩)

/-- If `ca` lists the common ancestors of `S` and `w`, then `maximalOf ca` lists the maximal
ones. -/
theorem mem_maximalOf_iff {d : Dag σ π} (hd : d.Wf) {S : Set ℕ} {w : ℕ} (hw : d.has w = true)
    {ca : List ℕ} (hca : ∀ z, z ∈ ca ↔ CommonAncestor d.Par S w z) {m : ℕ} :
    m ∈ d.maximalOf ca ↔ IsMca d.Par S w m :=
  mem_maximalOf_iff_of_rank (show ∀ x p, d.Par x p → id p < id x from hd.par_lt) hw hca

section Pair

variable {d : Dag σ π} {a b : ℕ} (ha : d.has a = true) (hb : d.has b = true)

include ha hb

theorem mem_commonAncestors_iff {z : ℕ} : z ∈ (d.ancestors a).filter (· ∈ d.ancestors b) ↔
    CommonAncestor d.Par {a} b z := by
  simp only [List.mem_filter, decide_eq_true_eq, mem_ancestors_iff ha, mem_ancestors_iff hb,
    CommonAncestor, Set.mem_singleton_iff, exists_eq_left]

theorem mcas_eq : d.mcas a b = .ok (d.maximalOf ((d.ancestors a).filter (· ∈ d.ancestors b))) := by
  rw [mcas, ancestorSet_eq ha, ancestorSet_eq hb]
  rfl

/-- **The search returns the maximal common ancestors.** -/
theorem mcas_spec (hd : d.Wf) : ∃ m, d.mcas a b = .ok m ∧ m.Nodup ∧
    ∀ x, x ∈ m ↔ IsMca d.Par {a} b x :=
  ⟨_, mcas_eq ha hb, ((nodup_ancestors ha).filter _).filter _,
    fun _ => mem_maximalOf_iff hd hb fun _ => mem_commonAncestors_iff ha hb⟩

/-- **The gate accepts a pair exactly when it has one maximal common ancestor.** -/
theorem lca_eq_ok_iff (hd : d.Wf) {l : ℕ} :
    d.lca a b = .ok l ↔ ∀ x, IsMca d.Par {a} b x ↔ x = l := by
  obtain ⟨m, hm, hnodup, hmem⟩ := mcas_spec ha hb hd
  rw [lca, hm]
  have hsingle : m = [l] ↔ ∀ x, x ∈ m ↔ x = l := by
    constructor
    · rintro rfl
      simp
    · intro h
      refine (List.perm_singleton.mp ?_)
      exact (List.perm_ext_iff_of_nodup hnodup (List.nodup_singleton l)).mpr (by simpa using h)
  simp only [← hmem, ← hsingle]
  match m with
  | [] => simp [bind, Except.bind, throw, throwThe, MonadExceptOf.throw]
  | [x] => simp [bind, Except.bind, pure, Except.pure]
  | x :: y :: m => simp [bind, Except.bind, throw, throwThe, MonadExceptOf.throw]

/-- **A refusal of the gate** comes from several maximal common ancestors, or from none. -/
theorem lca_eq_error (hd : d.Wf) {e : Failure} (h : d.lca a b = .error e) :
    (∃ m, e = .crissCross m ∧ ∃ x ∈ m, ∃ y ∈ m, x ≠ y ∧ IsMca d.Par {a} b x ∧
      IsMca d.Par {a} b y) ∨ (∃ msg, e = .error msg) ∧ ∀ x, ¬ IsMca d.Par {a} b x := by
  obtain ⟨m, hm, hnodup, hmem⟩ := mcas_spec ha hb hd
  rw [lca, hm] at h
  match m with
  | [] =>
    cases h
    exact Or.inr ⟨⟨_, rfl⟩, fun x hx => by simpa using (hmem x).mpr hx⟩
  | [x] => simp [bind, Except.bind, pure, Except.pure] at h
  | x :: y :: m =>
    cases h
    have hne : x ≠ y := by
      rintro rfl
      simp at hnodup
    exact Or.inl ⟨_, rfl, x, by simp, y, by simp, hne, (hmem x).mp (by simp),
      (hmem y).mp (by simp)⟩

end Pair

end SalRuntime.Dag
