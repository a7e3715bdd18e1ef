import SalRuntime.Datatypes.EmbedRGA
import SalRuntime.Replica.Replica
import SalRuntime.Store.Lca

/-!
# The search for merge bases

The replica looks for the maximal common ancestors of two commits, or of the union of the ancestries
of several commits and one commit. Both searches drop the common ancestors that some common ancestor
names as a parent. Since the common ancestors are downward closed, what remains are those without a
proper descendant among them, whatever the shape of the history: parents only have to be older than
their children, and parents that are no longer in the store are skipped.

## Main results

* `Replica.mcasOfSet_spec` — the search for several commits.
* `Replica.mergeBases_exact` — both searches and the test of ancestry are exact.
-/

namespace SalRuntime

namespace Replica

open Ancestry

variable {D : Datatype} {γ : Type} [LinearOrder γ] (r : Replica D γ)

/-- The union of the ancestries of several commits lists each ancestor once. -/
theorem foldlM_ancestorSet {S : List ℕ} (hS : ∀ s ∈ S, r.dag.has s = true) {A : List ℕ}
    (hA : A.Nodup) :
    ∃ B, S.foldlM (fun A s => do return A ++ (← r.dag.ancestorSet s).filter (· ∉ A)) A = .ok B ∧
      B.Nodup ∧ ∀ z, z ∈ B ↔ z ∈ A ∨ ∃ s ∈ S, r.dag.Reaches s z := by
  induction S generalizing A with
  | nil => exact ⟨A, rfl, hA, fun z => by simp⟩
  | cons s S ih =>
    have hs := hS s List.mem_cons_self
    have hnodup : (A ++ (r.dag.ancestors s).filter (· ∉ A)).Nodup := by
      refine List.nodup_append.mpr ⟨hA, (Dag.nodup_ancestors hs).filter _, fun x hx y hy hxy => ?_⟩
      have hy' : y ∉ A := by simpa using (List.mem_filter.mp hy).2
      exact hy' (hxy ▸ hx)
    obtain ⟨B, hB, hBnodup, hmem⟩ := ih (fun t ht => hS t (List.mem_cons_of_mem _ ht)) hnodup
    refine ⟨B, ?_, hBnodup, fun z => ?_⟩
    · rw [List.foldlM_cons, Dag.ancestorSet_eq hs]
      exact hB
    · rw [hmem, List.mem_append, List.mem_filter, Dag.mem_ancestors_iff hs]
      simp only [List.mem_cons, exists_eq_or_imp, decide_eq_true_eq]
      tauto

section Rank

variable {r} {rank : ℕ → ℕ} (hrank : ∀ x p, r.dag.Par x p → rank p < rank x) {w : ℕ}
  (hw : r.dag.has w = true)

include hrank hw

theorem mcas_spec_of_rank {a : ℕ} (ha : r.dag.has a = true) :
    ∃ m, r.dag.mcas a w = .ok m ∧ m.Nodup ∧ ∀ x, x ∈ m ↔ IsMca r.dag.Par {a} w x :=
  ⟨_, Dag.mcas_eq ha hw, ((Dag.nodup_ancestors ha).filter _).filter _,
    fun _ => Dag.mem_maximalOf_iff_of_rank hrank hw fun _ => Dag.mem_commonAncestors_iff ha hw⟩

/-- **The search for several commits** returns the maximal common ancestors. -/
theorem mcasOfSet_spec {S : List ℕ} (hS : ∀ s ∈ S, r.dag.has s = true) :
    ∃ m, r.mcasOfSet S w = .ok m ∧ m.Nodup ∧ ∀ x, x ∈ m ↔ IsMca r.dag.Par {s | s ∈ S} w x := by
  obtain ⟨A, hA, hnodup, hmem⟩ := foldlM_ancestorSet r hS List.nodup_nil
  refine ⟨r.dag.maximalOf (A.filter (· ∈ r.dag.ancestors w)), ?_, (hnodup.filter _).filter _,
    fun x => Dag.mem_maximalOf_iff_of_rank hrank hw fun z => ?_⟩
  · rw [mcasOfSet, hA, Dag.ancestorSet_eq hw]
    rfl
  · rw [List.mem_filter, hmem, decide_eq_true_iff, Dag.mem_ancestors_iff hw, CommonAncestor]
    simp only [List.not_mem_nil, false_or, Set.mem_ofPred_eq]

/-- **The search for merge bases is exact** if parents are older than their children: both searches
return the maximal common ancestors, each once, and the test of ancestry agrees with the set of
ancestors. -/
theorem mergeBases_exact :
    (∀ a, r.dag.has a = true →
      ∃ m, r.dag.mcas a w = .ok m ∧ m.Nodup ∧ ∀ x, x ∈ m ↔ IsMca r.dag.Par {a} w x) ∧
    (∀ S : List ℕ, (∀ s ∈ S, r.dag.has s = true) →
      ∃ m, r.mcasOfSet S w = .ok m ∧ m.Nodup ∧ ∀ x, x ∈ m ↔ IsMca r.dag.Par {s | s ∈ S} w x) ∧
    ∃ A, r.dag.ancestorSet w = .ok A ∧ A.Nodup ∧ (∀ x, x ∈ A ↔ r.dag.Reaches w x) ∧
      ∀ x, r.dag.has x = true → ∃ b, r.dag.isAncestor x w = .ok b ∧ (b = true ↔ x ∈ A) := by
  refine ⟨fun a ha => mcas_spec_of_rank hrank hw ha, fun S hS => mcasOfSet_spec hrank hw hS,
    r.dag.ancestors w, Dag.ancestorSet_eq hw, Dag.nodup_ancestors hw,
    fun x => Dag.mem_ancestors_iff hw, fun x hx => ?_⟩
  obtain ⟨b, hb, hiff⟩ := Dag.isAncestor_eq hx hw
  exact ⟨b, hb, hiff.trans (Dag.mem_ancestors_iff hw).symm⟩

end Rank

section CrissCross

/-- Two children `1` and `2` of the root, merged in both orders into `3` and `4`; the root has been
collected. -/
def crissCross : Dag (embedRGA Char).State (Payload (embedRGA Char).Op) :=
  (((((Dag.empty.push [] none (embedRGA Char).init).push [0] none (embedRGA Char).init).push [0] none
    (embedRGA Char).init).push [1, 2] none (embedRGA Char).init).push [2, 1] none
    (embedRGA Char).init).remove 0

theorem wf_crissCross : crissCross.Wf := by
  have hempty : (Dag.empty : Dag (embedRGA Char).State (Payload (embedRGA Char).Op)).Wf :=
    ⟨nofun, nofun, nofun⟩
  refine Dag.Wf.foldl_remove ?_ [0]
  exact Dag.Wf.push (Dag.Wf.push (Dag.Wf.push (Dag.Wf.push (hempty.push nofun) (by decide))
    (by decide)) (by decide)) (by decide)

/-- A replica with this store. -/
noncomputable def merged : Replica (embedRGA Char) ℕ :=
  { create (embedRGA Char) (.ofTable [.root]) "a" with dag := crissCross, headId := 4 }

/-- The merge bases of `3` and `4`, and of `1`, `3` and `4`. -/
theorem mergeBases_exact_crissCross :
    (∃ m, merged.dag.mcas 3 4 = .ok m ∧ m.Nodup ∧ ∀ x, x ∈ m ↔ IsMca merged.dag.Par {3} 4 x) ∧
      (∃ m, merged.mcasOfSet [1, 3] 4 = .ok m ∧ m.Nodup ∧
        ∀ x, x ∈ m ↔ IsMca merged.dag.Par {s | s ∈ [1, 3]} 4 x) ∧
      ∃ A, merged.dag.ancestorSet 4 = .ok A ∧ A.Nodup ∧ (∀ x, x ∈ A ↔ merged.dag.Reaches 4 x) ∧
        ∃ b, merged.dag.isAncestor 3 4 = .ok b ∧ (b = true ↔ 3 ∈ A) := by
  have hrank : ∀ x p, merged.dag.Par x p → id p < id x := wf_crissCross.par_lt
  have hw : merged.dag.has 4 = true := by decide
  obtain ⟨hpair, hset, A, hA, hnodup, hmem, hanc⟩ := mergeBases_exact hrank hw
  exact ⟨hpair 3 (by decide), hset [1, 3] (by decide), A, hA, hnodup, hmem, hanc 3 (by decide)⟩

end CrissCross

end Replica

end SalRuntime
