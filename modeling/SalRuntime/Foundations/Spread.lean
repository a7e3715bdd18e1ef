import Mathlib.Combinatorics.SimpleGraph.Acyclic

/-!
# What spreads along an acyclic graph

The sites of a graph hold sets of versions. A site may create a version, and two neighbours may meet,
after which both hold what either of them held. If the graph has no cycle, then two neighbours have in
common exactly what they had when they last met: removing their edge separates the graph, and nothing
crosses the cut except when they meet.

## Main definitions

* `BridgeSide` — the sites on one side of an edge.
* `Spread` — what any two sites on different sides of an edge have in common was there at its last
  meeting.

## Main results

* `Spread.create`, `Spread.meet` — creating a version, and meeting, preserve the invariant.
* `Spread.inter_eq` — what two neighbours have in common.
* `Spread.not_both` — no site holds news of both sides of an edge.
-/

namespace SalRuntime

variable {V ν : Type*} {G : SimpleGraph V}

/-- The site `p` is on the side of `i` when the edge between `i` and `j` is removed. -/
def BridgeSide (G : SimpleGraph V) (i j p : V) : Prop := (G.deleteEdges {s(i, j)}).Reachable i p

theorem BridgeSide.refl (i j : V) : BridgeSide G i j i := SimpleGraph.Reachable.refl i

/-- Neighbours across another edge are on the same side. -/
theorem BridgeSide.of_adj {k l p q : V} (h : BridgeSide G k l p) (hadj : G.Adj p q)
    (hne : s(p, q) ≠ s(k, l)) :
    BridgeSide G k l q :=
  h.trans (SimpleGraph.Adj.reachable (by simpa [SimpleGraph.deleteEdges_adj, hadj] using hne))

/-- The two sides of an edge of an acyclic graph have no site in common. -/
theorem BridgeSide.disjoint (hG : G.IsAcyclic) {k l p : V} (hadj : G.Adj k l) (h : BridgeSide G k l p) :
    ¬ BridgeSide G l k p := by
  intro h'
  rw [BridgeSide, Sym2.eq_swap] at h'
  have hbridge := SimpleGraph.isAcyclic_iff_forall_adj_isBridge.mp hG hadj
  exact SimpleGraph.isBridge_iff.mp hbridge (h.trans h'.symm)

/-- A site that is connected to an edge is on one of its sides. -/
theorem side_of_reachable {i j q : V} (h : G.Reachable i q) :
    BridgeSide G i j q ∨ BridgeSide G j i q := by
  obtain ⟨walk⟩ := h
  -- Along the walk: as long as it does not use the edge, it stays on its side.
  suffices ∀ {a b : V}, G.Walk a b → (BridgeSide G i j a ∨ BridgeSide G j i a) →
      BridgeSide G i j b ∨ BridgeSide G j i b from
    this walk (Or.inl (BridgeSide.refl i j))
  intro a b walk
  induction walk with
  | nil => exact id
  | @cons a b c hab _ ih =>
    intro ha
    refine ih ?_
    by_cases hedge : s(a, b) = s(i, j)
    · rcases Sym2.eq_iff.mp hedge with ⟨-, rfl⟩ | ⟨-, rfl⟩
      · exact Or.inr (BridgeSide.refl _ _)
      · exact Or.inl (BridgeSide.refl _ _)
    · rcases ha with ha | ha
      · exact Or.inl (ha.of_adj hab hedge)
      · exact Or.inr (ha.of_adj hab (by rwa [Sym2.eq_swap (a := j)]))

/-- The sites hold the sets `S`, all of them the set `R` from the start, and neighbours have last met at
`L`. -/
structure Spread (G : SimpleGraph V) (R : Set ν) (S : V → Set ν) (L : V → V → Set ν) : Prop where
  /-- What was there at the start is everywhere. -/
  base : ∀ k, R ⊆ S k
  /-- What two neighbours had when they last met is still there. -/
  kept : ∀ {i j}, G.Adj i j → L i j ⊆ S i ∩ S j
  /-- What is on both sides of an edge was there at its last meeting. -/
  cut : ∀ {i j p q}, G.Adj i j → BridgeSide G i j p → BridgeSide G j i q → S p ∩ S q ⊆ L i j
  /-- Unconnected sites have only the start in common. -/
  apart : ∀ {p q}, ¬ G.Reachable p q → S p ∩ S q ⊆ R

namespace Spread

variable {R : Set ν} {S : V → Set ν} {L : V → V → Set ν}

theorem start (G : SimpleGraph V) (R : Set ν) : Spread G R (fun _ => R) fun _ _ => R where
  base _ := subset_rfl
  kept _ := (Set.inter_self R).symm.subset
  cut _ _ _ := (Set.inter_self R).subset
  apart _ := (Set.inter_self R).subset

/-- **What two neighbours have in common** is what they had when they last met. -/
theorem inter_eq (h : Spread G R S L) {i j : V} (hadj : G.Adj i j) : S i ∩ S j = L i j :=
  (h.cut hadj (BridgeSide.refl i j) (BridgeSide.refl j i)).antisymm (h.kept hadj)

/-- **No site holds news of both sides** of an edge. -/
theorem not_both (h : Spread G R S L) {i j : V} (hadj : G.Adj i j) {x y : ν} (hx : x ∈ S i)
    (hxj : x ∉ S j) (hy : y ∈ S j) (hyi : y ∉ S i) (q : V) : ¬ (x ∈ S q ∧ y ∈ S q) := by
  rintro ⟨hxq, hyq⟩
  by_cases hq : G.Reachable i q
  · rcases side_of_reachable hq with hside | hside
    · exact hyi (h.kept hadj (h.cut hadj hside (BridgeSide.refl j i) ⟨hyq, hy⟩)).1
    · exact hxj (h.kept hadj (h.cut hadj (BridgeSide.refl i j) hside ⟨hx, hxq⟩)).2
  · exact hxj (h.base j (h.apart hq ⟨hx, hxq⟩))

variable [DecidableEq V]

/-- **Creating a version** at a site. -/
theorem create (h : Spread G R S L) (hG : G.IsAcyclic) (i : V) {v : ν} (hv : ∀ k, v ∉ S k) :
    Spread G R (Function.update S i (insert v (S i))) L := by
  have hsub (k : V) : S k ⊆ Function.update S i (insert v (S i)) k := by
    by_cases hk : k = i
    · subst hk
      rw [Function.update_self]
      exact Set.subset_insert _ _
    · rw [Function.update_of_ne hk]
  have hinter {p q : V} (hne : p ≠ q) : Function.update S i (insert v (S i)) p ∩
      Function.update S i (insert v (S i)) q = S p ∩ S q := by
    -- At most one of the two sites has the new version.
    by_cases hp : p = i
    · subst hp
      rw [Function.update_self, Function.update_of_ne hne.symm, Set.insert_inter_of_notMem (hv q)]
    · by_cases hq : q = i
      · subst hq
        rw [Function.update_self, Function.update_of_ne hp, Set.inter_insert_of_notMem (hv p)]
      · rw [Function.update_of_ne hp, Function.update_of_ne hq]
  refine ⟨fun k => (h.base k).trans (hsub k), fun hadj => (h.kept hadj).trans
    (Set.inter_subset_inter (hsub _) (hsub _)), fun {a b p q} hadj hp hq => ?_,
    fun {p q} hpq => ?_⟩
  · have hne : p ≠ q := by
      rintro rfl
      exact BridgeSide.disjoint hG hadj hp hq
    rw [hinter hne]
    exact h.cut hadj hp hq
  · have hne : p ≠ q := by
      rintro rfl
      exact hpq (.refl p)
    rw [hinter hne]
    exact h.apart hpq

/-- The last meetings after `i` and `j` have met at `T`. -/
def met (L : V → V → Set ν) (i j : V) (T : Set ν) (a b : V) : Set ν :=
  if s(a, b) = s(i, j) then T else L a b

/-- **Meeting**: two neighbours hold afterwards what either of them held, and perhaps new versions. -/
theorem meet (h : Spread G R S L) (hG : G.IsAcyclic) {i j : V} (hadj : G.Adj i j) {Z : Set ν}
    (hZ : ∀ k, ∀ z ∈ Z, z ∉ S k) :
    Spread G R (Function.update (Function.update S i (S i ∪ S j ∪ Z)) j (S i ∪ S j ∪ Z))
      (met L i j (S i ∪ S j ∪ Z)) := by
  set T := S i ∪ S j ∪ Z with hT
  set S' := Function.update (Function.update S i T) j T with hS'
  have hval (k : V) : S' k = if k = i ∨ k = j then T else S k := by
    simp only [hS', Function.update_apply]
    split_ifs <;> simp_all
  have hsub (k : V) : S k ⊆ S' k := by
    rw [hval]
    split_ifs with hk
    · rcases hk with rfl | rfl
      · exact fun x hx => Or.inl (Or.inl hx)
      · exact fun x hx => Or.inl (Or.inr hx)
    · exact subset_rfl
  -- What a site that has not met has in common with one that has.
  have hmeet {q : V} (hq : ¬ (q = i ∨ q = j)) : T ∩ S q ⊆ (S i ∩ S q) ∪ (S j ∩ S q) := by
    rintro x ⟨(hx | hx) | hx, hxq⟩
    · exact Or.inl ⟨hx, hxq⟩
    · exact Or.inr ⟨hx, hxq⟩
    · exact absurd hxq (hZ q x hx)
  have hpair {p q : V} {U : Set ν} (hold : ∀ p' q', (p' = p ∨ p' = i ∨ p' = j) →
      (q' = q ∨ q' = i ∨ q' = j) → (p' = p ∨ p = i ∨ p = j) → (q' = q ∨ q = i ∨ q = j) →
      S p' ∩ S q' ⊆ U) (hnot : ¬ ((p = i ∨ p = j) ∧ (q = i ∨ q = j))) : S' p ∩ S' q ⊆ U := by
    rw [hval, hval]
    split_ifs with hp hq hq
    · exact absurd ⟨hp, hq⟩ hnot
    · refine (hmeet hq).trans (Set.union_subset ?_ ?_)
      · exact hold i q (by simp) (by simp) (Or.inr hp) (Or.inl rfl)
      · exact hold j q (by simp) (by simp) (Or.inr hp) (Or.inl rfl)
    · rw [Set.inter_comm]
      refine (hmeet hp).trans (Set.union_subset ?_ ?_)
      · rw [Set.inter_comm]
        exact hold p i (by simp) (by simp) (Or.inl rfl) (Or.inr hq)
      · rw [Set.inter_comm]
        exact hold p j (by simp) (by simp) (Or.inl rfl) (Or.inr hq)
    · exact hold p q (by simp) (by simp) (Or.inl rfl) (Or.inl rfl)
  refine ⟨fun k => (h.base k).trans (hsub k), fun {a b} hab => ?_, fun {a b p q} hab hp hq => ?_,
    fun {p q} hpq => ?_⟩
  · rw [met]
    split_ifs with hedge
    · have hends : (a = i ∨ a = j) ∧ (b = i ∨ b = j) := by
        rcases Sym2.eq_iff.mp hedge with ⟨rfl, rfl⟩ | ⟨rfl, rfl⟩ <;> simp
      rw [hval, hval, if_pos hends.1, if_pos hends.2, Set.inter_self]
    · exact (h.kept hab).trans (Set.inter_subset_inter (hsub _) (hsub _))
  · rw [met]
    split_ifs with hedge
    · -- Across the edge itself.
      have hL : L a b ⊆ T := by
        refine (h.kept hab).trans fun x hx => ?_
        rcases Sym2.eq_iff.mp hedge with ⟨rfl, rfl⟩ | ⟨rfl, rfl⟩
        · exact Or.inl (Or.inl hx.1)
        · exact Or.inl (Or.inr hx.1)
      rw [hval, hval]
      split_ifs
      · exact Set.inter_subset_left
      · exact Set.inter_subset_left
      · exact Set.inter_subset_right
      · exact (h.cut hab hp hq).trans hL
    · -- Across another edge, both neighbours are on one side.
      have hmove {k l x : V} (hadj' : G.Adj k l) (hside : BridgeSide G k l x) (hne : s(i, j) ≠ s(k, l))
          (hx : x = i ∨ x = j) {y : V} (hy : y = i ∨ y = j) : BridgeSide G k l y := by
        rcases hx with rfl | rfl <;> rcases hy with rfl | rfl
        · exact hside
        · exact hside.of_adj hadj hne
        · exact hside.of_adj hadj.symm (by rwa [Sym2.eq_swap])
        · exact hside
      have hne : s(i, j) ≠ s(a, b) := fun heq => hedge heq.symm
      have hne' : s(i, j) ≠ s(b, a) := by rwa [Sym2.eq_swap (a := b)]
      refine hpair (fun p' q' hp' hq' hpc hqc => ?_) ?_
      · have hside : BridgeSide G a b p' := by
          rcases hpc with rfl | hpc
          · exact hp
          · rcases hp' with rfl | hp'
            · exact hp
            · exact hmove hab hp hne hpc hp'
        have hside' : BridgeSide G b a q' := by
          rcases hqc with rfl | hqc
          · exact hq
          · rcases hq' with rfl | hq'
            · exact hq
            · exact hmove hab.symm hq hne' hqc hq'
        exact h.cut hab hside hside'
      · rintro ⟨hpi, hqi⟩
        exact BridgeSide.disjoint hG hab (hmove hab hp hne hpi hqi) hq
  · have hconn {x y : V} (hx : x = i ∨ x = j) (hy : y = i ∨ y = j) : G.Reachable x y := by
      rcases hx with rfl | rfl <;> rcases hy with rfl | rfl
      · exact .refl _
      · exact hadj.reachable
      · exact hadj.symm.reachable
      · exact .refl _
    refine hpair (fun p' q' hp' hq' hpc hqc => h.apart fun hr => hpq ?_) ?_
    · have hp'' : G.Reachable p p' := by
        rcases hpc with rfl | hpc
        · exact .refl _
        · rcases hp' with rfl | hp'
          · exact .refl _
          · exact hconn hpc hp'
      have hq'' : G.Reachable q' q := by
        rcases hqc with rfl | hqc
        · exact .refl _
        · rcases hq' with rfl | hq'
          · exact .refl _
          · exact hconn hq' hqc
      exact (hp''.trans hr).trans hq''
    · rintro ⟨hpi, hqi⟩
      exact hpq (hconn hpi hqi)

end Spread

end SalRuntime
