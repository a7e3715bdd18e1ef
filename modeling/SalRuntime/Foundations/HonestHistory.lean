import SalRuntime.Foundations.EventSets

/-!
# Honest histories

The versions of a history carry lists of operations. The history is honest if every author could make
its operations, one after the other, on what it had seen, and if no two versions create the same id. An
honest history may grow by a version whose operations are applicable and create new ids, and by versions
without operations, which only join others.

## Main definitions

* `Replicated.Meaning.Admits` — an author may make operations one after the other.
* `Replicated.Meaning.Fresh` — operations create new ids only.
* `Replicated.Meaning.History` — an honest history.

## Main results

* `Replicated.Meaning.Admits.foldlM` — applying admitted operations one after the other adds them.
* `Replicated.Meaning.History.insert` — an honest history grows by an honest version.
-/

namespace SalRuntime

open Ancestry

namespace Replicated

variable {σ ω ε κ ι ν : Type} {O : Replicated σ ω ε} {M : O.Meaning κ ι}

/-- An author that has seen a set of operations may make the given ones, one after the other. -/
def Meaning.Admits (M : O.Meaning κ ι) : Set ω → List ω → Prop
  | _, [] => True
  | E, op :: ops => M.Applicable E op ∧ M.Admits (insert op E) ops

/-- The operations create ids that neither a given operation nor an earlier one creates. -/
def Meaning.Fresh (M : O.Meaning κ ι) : Set ω → List ω → Prop
  | _, [] => True
  | U, op :: ops => (∀ i ∈ M.creates op, ∀ o ∈ U, i ∉ M.creates o) ∧ M.Fresh (insert op U) ops

/-- The operations of a list per version, as sets. -/
abbrev opSet (ops : ν → List ω) (v : ν) : Set ω := {o | o ∈ ops v}

theorem union_cons (U : Set ω) (op : ω) (ops : List ω) :
    U ∪ {o | o ∈ op :: ops} = insert op U ∪ {o | o ∈ ops} := by
  ext o
  simp only [Set.mem_union, Set.mem_ofPred_eq, List.mem_cons, Set.mem_insert_iff]
  exact or_left_comm.trans or_assoc.symm

/-- **Applying admitted operations** one after the other adds them. -/
theorem Meaning.Admits.foldlM {c : κ} {U E : Set ω} {ops : List ω} (hfits : M.Fits c U) (hE : E ⊆ U)
    (hops : ∀ o ∈ ops, o ∈ U) (hadm : M.Admits E ops) {s : σ} (hs : M.Rep c E s) :
    ∃ s', ops.foldlM O.apply s = .ok s' ∧ M.Rep c (E ∪ {o | o ∈ ops}) s' := by
  induction ops generalizing E s with
  | nil => exact ⟨s, rfl, by simpa using hs⟩
  | cons op ops ih =>
    rw [List.forall_mem_cons] at hops
    obtain ⟨s₁, hs₁, hrep⟩ := M.apply hfits hE hops.1 hadm.1 hs
    obtain ⟨s', hs', hrep'⟩ := ih (Set.insert_subset hops.1 hE) hops.2 hadm.2 hrep
    refine ⟨s', ?_, union_cons E op ops ▸ hrep'⟩
    rw [List.foldlM_cons, hs₁]
    exact hs'

/-- New operations extend the context. -/
theorem Meaning.extend_all {c : κ} {U E : Set ω} {ops : List ω} (hfits : M.Fits c U) (hE : E ⊆ U)
    (hadm : M.Admits E ops) (hfresh : M.Fresh U ops) : ∃ c', M.Fits c' (U ∪ {o | o ∈ ops}) ∧
      ∀ {A s}, A ⊆ U → M.Rep c A s → M.Rep c' A s := by
  induction ops generalizing c U E with
  | nil => exact ⟨c, by simpa using hfits, fun _ => id⟩
  | cons op ops ih =>
    obtain ⟨c₁, hfits₁, hkeep₁⟩ := M.extend hfits hE hadm.1 hfresh.1
    obtain ⟨c', hfits', hkeep'⟩ := ih hfits₁ (Set.insert_subset_insert hE) hadm.2 hfresh.2
    refine ⟨c', union_cons U op ops ▸ hfits', fun hA hrep => ?_⟩
    exact hkeep' (hA.trans (Set.subset_insert op U)) (hkeep₁ hA hrep)

/-- The ids that fresh operations create are new. -/
theorem Meaning.Fresh.not_mem {U : Set ω} {ops : List ω} (h : M.Fresh U ops) {o o' : ω}
    (ho : o ∈ ops) (ho' : o' ∈ U) {i : ι} (hi : i ∈ M.creates o) : i ∉ M.creates o' := by
  induction ops generalizing U with
  | nil => cases ho
  | cons op ops ih =>
    rcases List.mem_cons.mp ho with rfl | ho
    · exact h.1 i hi o' ho'
    · exact ih h.2 ho (Set.mem_insert_of_mem op ho')

/-- **An honest history**: the versions `K` carry operations that fit the context, that their authors
could make on what they had seen, and that create different ids. -/
structure Meaning.History (M : O.Meaning κ ι) (c : κ) (par : ν → ν → Prop) (ops : ν → List ω)
    (K : Set ν) : Prop where
  /-- The operations fit the context. -/
  fits : M.Fits c (carried (opSet ops) K)
  /-- Every id is created by one version. -/
  once : ∀ v ∈ K, ∀ w ∈ K, ∀ o ∈ ops v, ∀ o' ∈ ops w, ∀ i ∈ M.creates o, i ∈ M.creates o' → v = w
  /-- The author of a version could make its operations. -/
  admits : ∀ v ∈ K, ∀ p, par v p → M.Admits (past par (opSet ops) p) (ops v)
  /-- The parents of a version are in the history. -/
  closed : ∀ v ∈ K, ∀ p, par v p → p ∈ K

namespace Meaning.History

variable {par : ν → ν → Prop} {ops : ν → List ω} {c : κ} {K : Set ν}

theorem mem_of_reaches (h : M.History c par ops K) {v w : ν} (hv : v ∈ K) (hr : Reaches par v w) :
    w ∈ K := by
  induction hr with
  | refl => exact hv
  | tail _ hpar ih => exact h.closed _ ih _ hpar

/-- What a version has in its ancestry is in the history. -/
theorem past_subset (h : M.History c par ops K) {v : ν} (hv : v ∈ K) :
    past par (opSet ops) v ⊆ carried (opSet ops) K :=
  fun _ ⟨w, hr, ho⟩ => ⟨w, h.mem_of_reaches hv hr, ho⟩

theorem carried_insert (v : ν) :
    carried (opSet ops) (insert v K) = carried (opSet ops) K ∪ {o | o ∈ ops v} := by
  ext o
  simp only [carried, opSet, Set.exists_mem_insert, Set.mem_ofPred_eq, Set.mem_union]
  exact or_comm

/-- A history that starts with a version without operations and parents. -/
theorem start {v : ν} (hops : ops v = []) (hpar : ∀ p, ¬ par v p) :
    ∃ c, M.History c par ops {v} := by
  obtain ⟨c, hc⟩ := M.start
  have hempty : carried (opSet ops) {v} = ∅ := by
    ext o
    simp [carried, hops]
  refine ⟨c, hempty ▸ hc, ?_, ?_, ?_⟩
  · rintro w rfl w' rfl _ _ _ _ _ _ _
    rfl
  · rintro w rfl p hp
    exact absurd hp (hpar p)
  · rintro w rfl p hp
    exact absurd hp (hpar p)

/-- **An honest history grows** by a version whose author could make its operations, which create new
ids. -/
theorem insert (h : M.History c par ops K) {v q : ν} (hclosed : ∀ p, par v p → p ∈ K) (hq : par v q)
    (hadm : ∀ p, par v p → M.Admits (past par (opSet ops) p) (ops v))
    (hfresh : M.Fresh (carried (opSet ops) K) (ops v)) :
    ∃ c', M.History c' par ops (insert v K) ∧
      ∀ {A s}, A ⊆ carried (opSet ops) K → M.Rep c A s → M.Rep c' A s := by
  obtain ⟨c', hfits, hkeep⟩ := M.extend_all h.fits (h.past_subset (hclosed q hq)) (hadm q hq) hfresh
  refine ⟨c', ⟨by rwa [carried_insert], ?_, ?_, ?_⟩, hkeep⟩
  · rintro w (rfl | hw) w' (rfl | hw') o ho o' ho' i hi hi'
    · rfl
    · exact absurd hi' (hfresh.not_mem ho ⟨w', hw', ho'⟩ hi)
    · exact absurd hi (hfresh.not_mem ho' ⟨w, hw, ho⟩ hi')
    · exact h.once w hw w' hw' o ho o' ho' i hi hi'
  · rintro w (rfl | hw) p hp
    · exact hadm p hp
    · exact h.admits w hw p hp
  · rintro w (rfl | hw) p hp
    · exact Or.inr (hclosed p hp)
    · exact Or.inr (h.closed w hw p hp)

/-- It grows by any version without operations. -/
theorem insert_join (h : M.History c par ops K) {v : ν} (hclosed : ∀ p, par v p → p ∈ K)
    (hops : ops v = []) : M.History c par ops (Insert.insert v K) := by
  refine ⟨?_, ?_, ?_, ?_⟩
  · rw [carried_insert, hops]
    simpa using h.fits
  · rintro w (rfl | hw) w' (rfl | hw') o ho o' ho' i hi hi'
    · rfl
    · simp [hops] at ho
    · simp [hops] at ho'
    · exact h.once w hw w' hw' o ho o' ho' i hi hi'
  · rintro w (rfl | hw) p hp
    · rw [hops]
      trivial
    · exact h.admits w hw p hp
  · rintro w (rfl | hw) p hp
    · exact Or.inr (hclosed p hp)
    · exact Or.inr (h.closed w hw p hp)

end Meaning.History

end Replicated

end SalRuntime
