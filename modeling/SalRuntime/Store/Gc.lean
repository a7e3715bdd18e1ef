import SalRuntime.Store.Lca

/-!
# Commit garbage collection

The keep-set collector of `src/gc.js`. The seeds are the given heads, closed under maximal common
ancestors of pairs; a commit is kept when it is a reflexive descendant of a seed, and the parent
links of kept commits that leave the kept set are cut.

## Main definitions

* `Dag.closeSeeds` — the loop that closes the heads under maximal common ancestors.
* `Dag.keepSet`, `Dag.runGc` — the kept commits and the collection.

## Main results

* `Dag.keepSet_spec` — a commit is kept exactly when it reaches a member of the closure of the
  heads under maximal common ancestors.
* `Dag.runGc_spec` — the commits of the collected store.
-/

namespace SalRuntime.Dag

open Ancestry

variable {σ π : Type}

/-- Add a seed to a set of seeds. -/
def addSeed (seeds : List ℕ) (m : ℕ) : List ℕ := if m ∈ seeds then seeds else seeds ++ [m]

/-- The pairs `(arr[i], arr[j])` with `i ≤ j`. -/
def pairsUpward : List ℕ → List (ℕ × ℕ)
  | [] => []
  | x :: xs => (x :: xs).map (fun y => (x, y)) ++ pairsUpward xs

/-- Add the maximal common ancestors of some pairs to the seeds. -/
def addMcas (d : Dag σ π) : List (ℕ × ℕ) → List ℕ → Except Failure (List ℕ)
  | [], seeds => return seeds
  | (x, y) :: pairs, seeds => do
    let m ← d.mcas x y
    addMcas d pairs (m.foldl addSeed seeds)

/-- Repeat passes over all pairs of seeds until a pass adds nothing. Every other pass adds a
commit of the store, so its size bounds the number of passes. -/
def closeSeeds (d : Dag σ π) : ℕ → List ℕ → Except Failure (List ℕ)
  | 0, seeds => return seeds
  | n + 1, seeds => do
    let grown ← d.addMcas (pairsUpward seeds) seeds
    if grown.length = seeds.length then return grown else closeSeeds d n grown

/-- The commits to keep for the given heads: the reflexive descendants of the seeds. -/
def keepSet (d : Dag σ π) (headIds : List ℕ) : Except Failure (List ℕ) := do
  let seeds ← d.closeSeeds (d.size + 1) (headIds.foldl addSeed [])
  return Worklist.explore d.childrenIndex d.size seeds.reverse seeds

/-- What a collection reports. -/
structure GcStats where
  /-- The number of kept commits. -/
  kept : ℕ
  /-- The number of removed commits. -/
  dropped : ℕ
  deriving DecidableEq, Repr

/-- Remove the commits outside `keep`, counting them. -/
def dropOutside (keep : List ℕ) (ids : List ℕ) (acc : Dag σ π × ℕ) : Dag σ π × ℕ :=
  ids.foldl (fun acc id => if id ∈ keep then acc else (acc.1.remove id, acc.2 + 1)) acc

/-- Drop every commit outside the keep-set and cut the links that leave it. -/
def runGc (d : Dag σ π) (headIds : List ℕ) : Except Failure (Dag σ π × GcStats) := do
  let keep ← d.keepSet headIds
  let (d', dropped) := dropOutside keep d.ids (d, 0)
  return (d'.restrictParents keep, { kept := keep.length, dropped })

/-! ### The seeds -/

theorem foldl_addSeed (ms seeds : List ℕ) : ∃ new : List ℕ,
    ms.foldl addSeed seeds = seeds ++ new ∧ new ⊆ ms ∧ ms ⊆ seeds ++ new ∧
      (seeds.Nodup → (seeds ++ new).Nodup) := by
  induction ms generalizing seeds with
  | nil => exact ⟨[], by simp⟩
  | cons m ms ih =>
    rw [List.foldl_cons, addSeed]
    split_ifs with hm
    · obtain ⟨new, heq, hsub, hall, hnodup⟩ := ih seeds
      exact ⟨new, heq, fun x hx => List.mem_cons_of_mem _ (hsub hx),
        List.cons_subset.mpr ⟨List.mem_append_left _ hm, hall⟩, hnodup⟩
    · obtain ⟨new, heq, hsub, hall, hnodup⟩ := ih (seeds ++ [m])
      refine ⟨m :: new, by rw [heq]; simp, ?_, ?_, fun h => ?_⟩
      · exact List.cons_subset.mpr ⟨List.mem_cons_self, fun x hx =>
          List.mem_cons_of_mem _ (hsub hx)⟩
      · exact List.cons_subset.mpr ⟨by simp, fun x hx => by simpa using hall hx⟩
      · have : (seeds ++ [m]).Nodup := List.nodup_append.mpr ⟨h, List.nodup_singleton m, by
          rintro a ha b hb rfl
          exact hm (List.mem_singleton.mp hb ▸ ha)⟩
        simpa using hnodup this

theorem mem_pairsUpward {x y : ℕ} {arr : List ℕ} (h : (x, y) ∈ pairsUpward arr) :
    x ∈ arr ∧ y ∈ arr := by
  induction arr with
  | nil => simp [pairsUpward] at h
  | cons a arr ih =>
    rcases List.mem_append.mp h with h | h
    · obtain ⟨b, hb, heq⟩ := List.mem_map.mp h
      cases heq
      exact ⟨List.mem_cons_self, hb⟩
    · exact ⟨List.mem_cons_of_mem _ (ih h).1, List.mem_cons_of_mem _ (ih h).2⟩

theorem pairsUpward_complete {x y : ℕ} {arr : List ℕ} (hx : x ∈ arr) (hy : y ∈ arr) :
    (x, y) ∈ pairsUpward arr ∨ (y, x) ∈ pairsUpward arr := by
  induction arr with
  | nil => simp at hx
  | cons a arr ih =>
    simp only [pairsUpward, List.mem_append, List.mem_map, Prod.mk.injEq]
    rcases List.mem_cons.mp hx with rfl | hx'
    · exact Or.inl (Or.inl ⟨y, hy, rfl, rfl⟩)
    · rcases List.mem_cons.mp hy with rfl | hy'
      · exact Or.inr (Or.inl ⟨x, hx, rfl, rfl⟩)
      · exact (ih hx' hy').imp Or.inr Or.inr

section Closure

variable {d : Dag σ π} (hd : d.Wf)

include hd

/-- **One pass** keeps the seeds, adds the maximal common ancestors of the pairs and nothing
else. -/
theorem addMcas_spec (pairs : List (ℕ × ℕ)) (seeds : List ℕ)
    (hpairs : ∀ p ∈ pairs, d.has p.1 = true ∧ d.has p.2 = true) :
    ∃ new : List ℕ, d.addMcas pairs seeds = .ok (seeds ++ new) ∧
      (∀ m ∈ new, ∃ p ∈ pairs, IsMca d.Par {p.1} p.2 m) ∧
      (∀ p ∈ pairs, ∀ m, IsMca d.Par {p.1} p.2 m → m ∈ seeds ++ new) ∧
      (seeds.Nodup → (seeds ++ new).Nodup) := by
  induction pairs generalizing seeds with
  | nil => exact ⟨[], by simp [addMcas, pure, Except.pure]⟩
  | cons p pairs ih =>
    obtain ⟨x, y⟩ := p
    have hxy := hpairs (x, y) List.mem_cons_self
    obtain ⟨m, hm, -, hmem⟩ := mcas_spec hxy.1 hxy.2 hd
    obtain ⟨new, heq, hsub, hall, hnodup⟩ := foldl_addSeed m seeds
    obtain ⟨new', heq', hsub', hall', hnodup'⟩ :=
      ih (seeds ++ new) fun p hp => hpairs p (List.mem_cons_of_mem _ hp)
    refine ⟨new ++ new', ?_, fun z hz => ?_, fun p hp z hz => ?_, fun h => ?_⟩
    · simp only [addMcas, hm, bind, Except.bind, heq, heq', List.append_assoc]
    · rcases List.mem_append.mp hz with hz | hz
      · exact ⟨(x, y), List.mem_cons_self, (hmem z).mp (hsub hz)⟩
      · obtain ⟨p, hp, hpz⟩ := hsub' z hz
        exact ⟨p, List.mem_cons_of_mem _ hp, hpz⟩
    · rw [← List.append_assoc]
      rcases List.mem_cons.mp hp with rfl | hp
      · exact List.mem_append_left _ (hall ((hmem z).mpr hz))
      · exact hall' p hp z hz
    · rw [← List.append_assoc]
      exact hnodup' (hnodup h)

/-- **The loop closes the seeds** under maximal common ancestors. -/
theorem closeSeeds_spec {H : Set ℕ} (n : ℕ) (seeds : List ℕ) (hnodup : seeds.Nodup)
    (hseeds : ∀ s ∈ seeds, d.has s = true ∧ McaClosure d.Par H s)
    (hfuel : d.size < n + seeds.length) :
    ∃ result : List ℕ, d.closeSeeds n seeds = .ok result ∧ seeds ⊆ result ∧ result.Nodup ∧
      (∀ s ∈ result, d.has s = true ∧ McaClosure d.Par H s) ∧
      ∀ a ∈ result, ∀ b ∈ result, ∀ m, IsMca d.Par {a} b m → m ∈ result := by
  induction n generalizing seeds with
  | zero =>
    have hsub : seeds ⊆ d.ids := fun s hs => mem_ids_iff.mpr (hseeds s hs).1
    have := (hnodup.subperm hsub).length_le
    rw [length_ids] at this
    omega
  | succ n ih =>
    obtain ⟨new, heq, hsub, hall, hnd⟩ := addMcas_spec hd (pairsUpward seeds) seeds
      fun p hp => ⟨(hseeds _ (mem_pairsUpward hp).1).1, (hseeds _ (mem_pairsUpward hp).2).1⟩
    have hgrown : ∀ s ∈ seeds ++ new, d.has s = true ∧ McaClosure d.Par H s := by
      intro s hs
      rcases List.mem_append.mp hs with hs | hs
      · exact hseeds s hs
      · obtain ⟨p, hp, hm⟩ := hsub s hs
        have ha := hseeds _ (mem_pairsUpward hp).1
        have hb := hseeds _ (mem_pairsUpward hp).2
        exact ⟨has_of_reaches hm.common.2 hb.1, .mca ha.2 hb.2 hm⟩
    simp only [closeSeeds, heq, bind, Except.bind]
    split_ifs with hlen
    · -- Nothing was added, so every pair is closed already.
      have hnil : new = [] := by simpa using hlen
      subst hnil
      simp only [List.append_nil] at hall ⊢
      refine ⟨seeds, rfl, List.Subset.refl _, hnodup, hseeds, fun a ha b hb m hm => ?_⟩
      rcases pairsUpward_complete ha hb with hp | hp
      · exact hall _ hp m hm
      · exact hall _ hp m (isMca_singleton_comm.mp hm)
    · have hne : new ≠ [] := fun h => hlen (by simp [h])
      have hpos := List.length_pos_iff.mpr hne
      obtain ⟨result, hres, hsubset, hrest⟩ := ih (seeds ++ new) (hnd hnodup) hgrown
        (by rw [List.length_append]; omega)
      exact ⟨result, hres, fun s hs => hsubset (List.mem_append_left _ hs), hrest⟩

omit hd in
theorem mem_childrenIndex_iff (hd : d.Wf) {p x : ℕ} : x ∈ d.childrenIndex p ↔ d.Par x p := by
  rw [childrenIndex, par_iff]
  split_ifs with hp
  · simp only [values, SortedMap.values, List.mem_flatMap, List.mem_map, List.mem_filter,
      decide_eq_true_eq, Prod.exists]
    constructor
    · rintro ⟨c, ⟨k, c', hmem, rfl⟩, q, ⟨hq, rfl⟩, rfl⟩
      have hk := SortedMap.mem_entries_iff.mp hmem
      exact ⟨c', by rwa [hd.id_eq k c' hk], hq, hp⟩
    · rintro ⟨c, hc, hmem, -⟩
      exact ⟨c, ⟨x, c, SortedMap.mem_entries_iff.mpr hc, rfl⟩, p, ⟨hmem, rfl⟩, hd.id_eq x c hc⟩
  · simp only [List.not_mem_nil, false_iff, not_exists, not_and]
    exact fun c _ _ => hp

omit hd in
theorem childrenIndex_subset (hd : d.Wf) (p : ℕ) : d.childrenIndex p ⊆ d.ids := fun _ hx =>
  mem_ids_iff.mpr (has_of_par_left ((mem_childrenIndex_iff hd).mp hx))

omit hd in
theorem reflTransGen_children_iff (hd : d.Wf) {s x : ℕ} :
    Relation.ReflTransGen (Worklist.Edge d.childrenIndex) s x ↔ d.Reaches x s := by
  have hswap : Worklist.Edge d.childrenIndex = Function.swap d.Par := by
    funext a b
    exact propext (mem_childrenIndex_iff hd)
  rw [hswap, Relation.reflTransGen_swap]

/-- **The keep-set** consists of the commits that reach a member of the closure of the heads under
maximal common ancestors. -/
theorem keepSet_spec {headIds : List ℕ} (hheads : ∀ h ∈ headIds, d.has h = true) :
    ∃ keep : List ℕ, d.keepSet headIds = .ok keep ∧ keep.Nodup ∧ ∀ x, x ∈ keep ↔
      ∃ s, McaClosure d.Par {h | h ∈ headIds} s ∧ d.Reaches x s := by
  obtain ⟨start, hstart, hsub, hall, hnodup⟩ := foldl_addSeed headIds []
  simp only [List.nil_append] at hstart hall hnodup
  obtain ⟨seeds, hseeds, hsup, hnd, hmem, hclosed⟩ :=
    closeSeeds_spec hd (H := {h | h ∈ headIds}) (d.size + 1) start (hnodup List.nodup_nil)
      (fun s hs => ⟨hheads s (hsub hs), .head (hsub hs)⟩) (by omega)
  have hsubset : seeds ⊆ d.ids := fun s hs => mem_ids_iff.mpr (hmem s hs).1
  refine ⟨_, by rw [keepSet, hstart, hseeds]; rfl, ?_, fun x => ?_⟩
  · exact Worklist.nodup_explore (U := d.ids) (fun x _ => childrenIndex_subset hd x) hnd
      hsubset (List.reverse_perm _) d.length_ids.le
  · rw [Worklist.mem_explore_iff (U := d.ids) (fun x _ => childrenIndex_subset hd x) hnd
      hsubset (List.reverse_perm _) d.length_ids.le]
    constructor
    · rintro ⟨s, hs, hx⟩
      exact ⟨s, (hmem s hs).2, (reflTransGen_children_iff hd).mp hx⟩
    · rintro ⟨s, hs, hx⟩
      refine ⟨s, ?_, (reflTransGen_children_iff hd).mpr hx⟩
      clear hx
      induction hs with
      | head hh => exact hsup (hall hh)
      | mca _ _ hm iha ihb => exact hclosed _ iha _ ihb _ hm

end Closure

/-! ### Given heads are kept -/

section Heads

variable {d : Dag σ π}

theorem subset_addMcas {pairs : List (ℕ × ℕ)} {seeds result : List ℕ}
    (h : d.addMcas pairs seeds = .ok result) : seeds ⊆ result := by
  induction pairs generalizing seeds with
  | nil =>
    rw [addMcas, pure, Except.instMonad] at h
    cases h
    exact List.Subset.refl _
  | cons p pairs ih =>
    obtain ⟨x, y⟩ := p
    cases hm : d.mcas x y with
    | error e => simp [addMcas, hm, bind, Except.bind] at h
    | ok m =>
      simp only [addMcas, hm, bind, Except.bind] at h
      obtain ⟨new, heq, -⟩ := foldl_addSeed m seeds
      rw [heq] at h
      exact List.Subset.trans (List.subset_append_left seeds new) (ih h)

theorem subset_closeSeeds {n : ℕ} {seeds result : List ℕ}
    (h : d.closeSeeds n seeds = .ok result) : seeds ⊆ result := by
  induction n generalizing seeds with
  | zero =>
    cases h
    exact List.Subset.refl _
  | succ n ih =>
    cases hgrown : d.addMcas (pairsUpward seeds) seeds with
    | error e => simp [closeSeeds, hgrown, bind, Except.bind] at h
    | ok grown =>
      simp only [closeSeeds, hgrown, bind, Except.bind] at h
      split_ifs at h
      · cases h
        exact subset_addMcas hgrown
      · exact List.Subset.trans (subset_addMcas hgrown) (ih h)

/-- The heads that a collection is given are kept. -/
theorem subset_keepSet {headIds keep : List ℕ} (h : d.keepSet headIds = .ok keep) :
    headIds ⊆ keep := by
  cases hseeds : d.closeSeeds (d.size + 1) (headIds.foldl addSeed []) with
  | error e => simp [keepSet, hseeds, bind, Except.bind] at h
  | ok seeds =>
    simp only [keepSet, hseeds, bind, Except.bind] at h
    cases h
    obtain ⟨new, heq, -, hall, -⟩ := foldl_addSeed headIds []
    rw [heq] at hseeds
    exact List.Subset.trans hall
      (List.Subset.trans (subset_closeSeeds hseeds) (Worklist.subset_explore _ _ _ _))

end Heads

/-! ### The collected store -/

theorem dropOutside_spec (keep ids : List ℕ) (acc : Dag σ π × ℕ) :
    (dropOutside keep ids acc).1.nextId = acc.1.nextId ∧
      ∀ x, (dropOutside keep ids acc).1.commits.get? x =
        if x ∈ ids ∧ x ∉ keep then none else acc.1.commits.get? x := by
  induction ids generalizing acc with
  | nil => exact ⟨rfl, fun x => by simp [dropOutside]⟩
  | cons id ids ih =>
    rw [dropOutside, List.foldl_cons]
    split_ifs with hk
    · refine ⟨(ih acc).1, fun x => ?_⟩
      rw [← dropOutside, (ih acc).2 x]
      by_cases hx : x = id
      · simp [hx, hk]
      · simp [hx]
    · refine ⟨(ih (acc.1.remove id, acc.2 + 1)).1, fun x => ?_⟩
      rw [← dropOutside, (ih (acc.1.remove id, acc.2 + 1)).2 x, remove, SortedMap.get?_erase]
      by_cases hx : x = id
      · simp [hx, hk]
      · simp [hx]

/-- **The collected store**: the kept commits, with the parent links to kept commits. -/
theorem runGc_spec {d : Dag σ π} {headIds keep : List ℕ} (hkeep : d.keepSet headIds = .ok keep) :
    ∃ d' stats, d.runGc headIds = .ok (d', stats) ∧ d'.nextId = d.nextId ∧
      ∀ x, d'.commits.get? x = if x ∈ keep then (d.commits.get? x).map fun c =>
        { c with parents := c.parents.filter (· ∈ keep) } else none := by
  obtain ⟨hnext, hget⟩ := dropOutside_spec keep d.ids (d, 0)
  refine ⟨(dropOutside keep d.ids (d, 0)).1.restrictParents keep, _,
    by rw [runGc, hkeep]; rfl, hnext, fun x => ?_⟩
  rw [restrictParents, SortedMap.get?_mapVal, hget x]
  by_cases hx : x ∈ keep
  · simp [hx]
  · simp only [hx, not_false_eq_true, and_true, if_false]
    split_ifs with hid
    · rfl
    · have : d.commits.get? x = none :=
        SortedMap.has_eq_false_iff.mp (by simpa [mem_ids_iff, Dag.has] using hid)
      rw [this]
      rfl

/-- The commits of a collected store are those of the store with fewer parents. -/
theorem exists_of_runGc {d d' : Dag σ π} {headIds : List ℕ} {stats : GcStats}
    (h : d.runGc headIds = .ok (d', stats)) {x : ℕ} {c' : Commit σ π}
    (hc' : d'.commits.get? x = some c') : ∃ c, d.commits.get? x = some c ∧ c'.op = c.op ∧
      c'.state = c.state ∧ c'.parents.Sublist c.parents := by
  cases hkeep : d.keepSet headIds with
  | error e => simp [Dag.runGc, hkeep, bind, Except.bind] at h
  | ok keep =>
    obtain ⟨d₁, stats₁, heq, -, hget⟩ := runGc_spec hkeep
    rw [h, Except.ok.injEq, Prod.mk.injEq] at heq
    obtain ⟨rfl, -⟩ := heq
    rw [hget] at hc'
    split_ifs at hc'
    obtain ⟨c, hc, rfl⟩ := Option.map_eq_some_iff.mp hc'
    exact ⟨c, hc, rfl, rfl, List.filter_sublist⟩

theorem nextId_of_runGc {d d' : Dag σ π} {headIds : List ℕ} {stats : GcStats}
    (h : d.runGc headIds = .ok (d', stats)) : d'.nextId = d.nextId := by
  cases hkeep : d.keepSet headIds with
  | error e => simp [Dag.runGc, hkeep, bind, Except.bind] at h
  | ok keep =>
    obtain ⟨d₁, stats₁, heq, hnext, -⟩ := runGc_spec hkeep
    rw [h, Except.ok.injEq, Prod.mk.injEq] at heq
    obtain ⟨rfl, -⟩ := heq
    exact hnext

/-- A collection shrinks a well-formed store and keeps the given heads. -/
theorem Wf.runGc {d d' : Dag σ π} (hd : d.Wf) {headIds : List ℕ} {stats : GcStats}
    (h : d.runGc headIds = .ok (d', stats)) :
    d'.Wf ∧ ∀ x ∈ headIds, d.has x = true → d'.has x = true := by
  cases hkeep : d.keepSet headIds with
  | error e => simp [Dag.runGc, hkeep, bind, Except.bind] at h
  | ok keep =>
    obtain ⟨d₁, stats₁, heq, hnext, hget⟩ := runGc_spec hkeep
    rw [h, Except.ok.injEq, Prod.mk.injEq] at heq
    obtain ⟨rfl, -⟩ := heq
    refine ⟨hd.of_shrunk hnext fun x c' hc' => ?_, fun x hx hhas => ?_⟩
    · rw [hget] at hc'
      split_ifs at hc'
      obtain ⟨c, hc, rfl⟩ := Option.map_eq_some_iff.mp hc'
      exact ⟨c, hc, rfl, List.filter_subset_self _⟩
    · obtain ⟨c, hc⟩ := has_iff.mp hhas
      rw [has_iff, hget, if_pos (subset_keepSet hkeep hx), hc]
      exact ⟨_, rfl⟩

end SalRuntime.Dag
