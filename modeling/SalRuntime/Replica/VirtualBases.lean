import SalRuntime.Replica.Histories

/-!
# Virtual bases

The base of a merge of two commits is the state of their only maximal common ancestor. If there are
several, they are folded into one state, and the base of every merge of this fold is computed in the same
way. Every merge on the way is over the operations of the common ancestors of its sides, so the result
stands for the operations of the common ancestors of the two commits, and a merge over it stands for the
union of their pasts. The recursion ends, since a maximal common ancestor that is not the only one has
fewer ancestors.

## Main results

* `Replica.Stands.baseState_spec` — a virtual base stands for the operations of the common ancestors.
* `Replica.Stands.joinState_spec` — a merge of two commits stands for the union of their pasts.
-/

namespace SalRuntime

open Ancestry Replicated

/-- A proper ancestor has fewer ancestors. -/
theorem Dag.Wf.length_ancestors_lt {σ π : Type} {d : Dag σ π} (hd : d.Wf) {x y : ℕ}
    (hx : d.has x = true) (hr : d.Reaches x y) (hne : y ≠ x) :
    (d.ancestors y).length < (d.ancestors x).length := by
  have hy : d.has y = true := has_of_reaches hr hx
  have hnot : x ∉ d.ancestors y := fun hmem =>
    hne (reaches_antisymm hd.par_lt ((mem_ancestors_iff hy).mp hmem) hr)
  have hsub : x :: d.ancestors y ⊆ d.ancestors x := by
    intro z hz
    rcases List.mem_cons.mp hz with rfl | hz
    · exact self_mem_ancestors hx
    · exact (mem_ancestors_iff hx).mpr (hr.trans ((mem_ancestors_iff hy).mp hz))
  have hnodup : (x :: d.ancestors y).Nodup := List.nodup_cons.mpr ⟨hnot, nodup_ancestors hy⟩
  exact Nat.lt_of_succ_le (by simpa using (hnodup.subperm hsub).length_le)

theorem Dag.length_ancestors_le {σ π : Type} {d : Dag σ π} {x : ℕ} (hx : d.has x = true) :
    (d.ancestors x).length ≤ d.size := by
  have hsub : d.ancestors x ⊆ d.ids := fun y hy => mem_ids_iff.mpr (has_of_mem_ancestors hx hy)
  simpa [length_ids] using ((nodup_ancestors hx).subperm hsub).length_le

namespace Replica

variable {D : Datatype} {γ κ ι : Type} [LinearOrder γ] {H : ContentHash D.Op D.Print γ}
  {M : D.replicated.Meaning κ ι} {c : κ} {K : Set γ} {r : Replica D γ}

theorem mem_singleton_set (x : ℕ) : {y | y ∈ [x]} = ({x} : Set ℕ) := by simp

theorem Indexed.mcasFor_spec (h : Indexed H r) {S : List ℕ} (hS : ∀ s ∈ S, r.dag.has s = true)
    {w : ℕ} (hw : r.dag.has w = true) : ∃ m, r.mcasFor S w = .ok m ∧ m.Nodup ∧
      ∀ x, x ∈ m ↔ IsMca r.dag.Par {s | s ∈ S} w x := by
  match S, hS with
  | [], hS => exact mcasOfSet_spec h.wf.par_lt hw hS
  | [s], hS =>
    rw [mem_singleton_set]
    exact mcas_spec_of_rank h.wf.par_lt hw (hS s List.mem_cons_self)
  | s :: t :: S, hS => exact mcasOfSet_spec h.wf.par_lt hw hS

theorem perm_sortByGid (r : Replica D γ) (ids : List ℕ) : (r.sortByGid ids).Perm ids :=
  List.perm_insertionSort _ ids

namespace Stands

variable (h : r.Stands H M c K) (hK : KnownHistory H M c K)

include h

theorem liftDown_eq {x : ℕ} {cm : Commit D.State (Payload D.Op)}
    (hcm : r.dag.commits.get? x = some cm) (antichain : List ℕ) :
    r.liftDown x EPOCH0 antichain = .ok cm.state := by
  have hget : r.dag.get x = .ok cm := Dag.get_eq_ok.mpr hcm
  rw [liftDown, hget]
  exact if_pos (h.epoch x)

theorem rep_pasts {x : ℕ} {cm : Commit D.State (Payload D.Op)}
    (hcm : r.dag.commits.get? x = some cm) :
    M.Rep c (pasts r.dag.Par (opSet r.opsAt) {x}) cm.state := by
  rw [pasts_singleton]
  exact h.rep_opsUnder hcm

include hK

/-- **Folding an antichain** whose bases stand for the operations of common ancestors. -/
theorem foldBase_spec {base : List ℕ → ℕ → Except Failure D.State} {antichain support rest : List ℕ}
    (hsupport : ∀ x ∈ support, r.dag.has x = true) (hne : support ≠ [])
    (hrest : ∀ x ∈ rest, r.dag.has x = true)
    (hbase : ∀ S, S ≠ [] → (∀ s ∈ S, r.dag.has s = true) → ∀ w ∈ rest, ∃ l, base S w = .ok l ∧
      M.Rep c (commonPast r.dag.Par (opSet r.opsAt) {s | s ∈ S} w) l)
    {acc : D.State} (hacc : M.Rep c (pasts r.dag.Par (opSet r.opsAt) {s | s ∈ support}) acc) :
    ∃ s, r.foldBase base EPOCH0 antichain support acc rest = .ok s ∧
      M.Rep c (pasts r.dag.Par (opSet r.opsAt) {x | x ∈ support ++ rest}) s := by
  induction rest generalizing support acc with
  | nil => exact ⟨acc, rfl, by simpa using hacc⟩
  | cons x rest ih =>
    rw [List.forall_mem_cons] at hrest
    obtain ⟨l, hl, hrepl⟩ := hbase support hne hsupport x List.mem_cons_self
    obtain ⟨cm, hcm⟩ := Dag.has_iff.mp hrest.1
    obtain ⟨acc', hacc', hrep'⟩ := M.merge_pasts (h.unique hK) hK.history.fits h.opsAt_subset hrepl
      hacc (h.rep_opsUnder hcm)
    rw [← pasts_singleton, ← pasts_union] at hrep'
    have hsupport' : ∀ y ∈ support ++ [x], r.dag.has y = true := by
      simpa [or_imp, forall_and] using ⟨hsupport, hrest.1⟩
    have hrep'' : M.Rep c (pasts r.dag.Par (opSet r.opsAt) {y | y ∈ support ++ [x]}) acc' := by
      have hset : {y | y ∈ support} ∪ {x} = {y | y ∈ support ++ [x]} := by
        ext y
        simp [or_comm]
      exact hset ▸ hrep'
    obtain ⟨s, hs, hrep⟩ := ih hsupport' (by simp) hrest.2
      (fun S hS hstored w hw => hbase S hS hstored w (List.mem_cons_of_mem _ hw)) hrep''
    refine ⟨s, ?_, by simpa using hrep⟩
    rw [foldBase, hl, h.liftDown_eq hcm]
    have hmerge : D.merge3 l acc cm.state = .ok acc' := hacc'
    simp only [bind, Except.bind, hmerge]
    exact hs

/-- **A virtual base** stands for the operations of the common ancestors. -/
theorem baseState_spec {fuel : ℕ} {S : List ℕ} {w : ℕ} (hne : S ≠ [])
    (hS : ∀ s ∈ S, r.dag.has s = true) (hw : r.dag.has w = true)
    (hfuel : (r.dag.ancestors w).length < fuel) : ∃ s, r.baseState fuel S w EPOCH0 = .ok s ∧
      M.Rep c (commonPast r.dag.Par (opSet r.opsAt) {s | s ∈ S} w) s := by
  induction fuel generalizing S w with
  | zero => omega
  | succ fuel ih =>
    have hrank := h.indexed.wf.par_lt
    obtain ⟨m, hm, hnodup, hmem⟩ := h.indexed.mcasFor_spec hS hw
    have hstored : ∀ x ∈ m, r.dag.has x = true := fun x hx =>
      Dag.has_of_reaches ((hmem x).mp hx).common.2 hw
    have hmca : {x | IsMca r.dag.Par {s | s ∈ S} w x} = {x | x ∈ m} := Set.ext fun x => (hmem x).symm
    rw [commonPast_eq hrank, hmca]
    match m, hm, hnodup, hmem, hstored with
    | [], _, _, hmem, _ =>
      -- The root is a common ancestor.
      obtain ⟨s, hs⟩ := List.exists_mem_of_ne_nil S hne
      have hroot : CommonAncestor r.dag.Par {s | s ∈ S} w 0 :=
        ⟨⟨s, hs, h.reaches_zero (hS s hs)⟩, h.reaches_zero hw⟩
      obtain ⟨x, hx, -⟩ := exists_isMca hrank hroot
      exact absurd ((hmem x).mpr hx) List.not_mem_nil
    | [x], hm, _, _, hstored =>
      obtain ⟨cm, hcm⟩ := Dag.has_iff.mp (hstored x List.mem_cons_self)
      refine ⟨cm.state, ?_, mem_singleton_set x ▸ h.rep_pasts hcm⟩
      rw [baseState, hm]
      exact h.liftDown_eq hcm _
    | x :: y :: m, hm, hnodup, hmem, hstored =>
      have hperm := r.perm_sortByGid (x :: y :: m)
      obtain ⟨z, zs, hsort⟩ : ∃ z zs, r.sortByGid (x :: y :: m) = z :: zs :=
        List.exists_cons_of_ne_nil fun hnil => by simpa [hnil] using hperm.length_eq
      rw [hsort] at hperm
      have hnodup' : (z :: zs).Nodup := hperm.nodup_iff.mpr hnodup
      have hstored' : ∀ t ∈ z :: zs, r.dag.has t = true := fun t ht => hstored t (hperm.mem_iff.mp ht)
      have hismca (t : ℕ) (ht : t ∈ z :: zs) : IsMca r.dag.Par {s | s ∈ S} w t :=
        (hmem t).mp (hperm.mem_iff.mp ht)
      obtain ⟨cm, hcm⟩ := Dag.has_iff.mp (hstored' z List.mem_cons_self)
      have hbase : ∀ S', S' ≠ [] → (∀ s ∈ S', r.dag.has s = true) → ∀ t ∈ zs,
          ∃ l, r.baseState fuel S' t EPOCH0 = .ok l ∧
            M.Rep c (commonPast r.dag.Par (opSet r.opsAt) {s | s ∈ S'} t) l := by
        intro S' hne' hS' t ht
        have hmcat := hismca t (List.mem_cons_of_mem z ht)
        have hmcaz := hismca z List.mem_cons_self
        have hzt : z ≠ t := fun heq => (List.nodup_cons.mp hnodup').1 (heq ▸ ht)
        -- If `w` were one of several, it would not be above the others.
        have hlt : (r.dag.ancestors t).length < (r.dag.ancestors w).length := by
          refine h.indexed.wf.length_ancestors_lt hw hmcat.common.2 fun heq => hzt ?_
          exact (hmcaz.maximal t hmcat.common (heq ▸ hmcaz.common.2)).symm
        exact ih hne' hS' (hstored' t (List.mem_cons_of_mem z ht)) (by omega)
      have hz : ∀ t ∈ [z], r.dag.has t = true := by simpa using hstored' z List.mem_cons_self
      obtain ⟨s, hs, hrep⟩ := h.foldBase_spec hK hz (List.cons_ne_nil z [])
        (fun t ht => hstored' t (List.mem_cons_of_mem z ht)) hbase
        (mem_singleton_set z ▸ h.rep_pasts hcm)
      refine ⟨s, ?_, ?_⟩
      · rw [baseState, hm]
        simp only [bind, Except.bind, hsort, h.liftDown_eq hcm]
        exact hs
      · have hset : {t | t ∈ [z] ++ zs} = {t | t ∈ x :: y :: m} := by
          ext t
          exact hperm.mem_iff
        exact hset ▸ hrep

theorem baseFor_spec {a b : ℕ} (ha : r.dag.has a = true) (hb : r.dag.has b = true) :
    ∃ s, r.baseFor [a] b = .ok (s, EPOCH0) ∧
      M.Rep c (commonPast r.dag.Par (opSet r.opsAt) {a} b) s := by
  have hsingle : ∀ s ∈ [a], r.dag.has s = true := by simpa using ha
  obtain ⟨s, hs, hrep⟩ := h.baseState_spec hK (List.cons_ne_nil a []) hsingle hb
    (Nat.lt_succ_of_le (Dag.length_ancestors_le hb))
  obtain ⟨m, hm, -, hmem⟩ := h.indexed.mcasFor_spec hsingle hb
  rw [mem_singleton_set] at hrep
  refine ⟨s, ?_, hrep⟩
  cases m with
  | nil =>
    have hroot : CommonAncestor r.dag.Par {s | s ∈ [a]} b 0 :=
      ⟨⟨a, List.mem_cons_self, h.reaches_zero ha⟩, h.reaches_zero hb⟩
    obtain ⟨x, hx, -⟩ := exists_isMca h.indexed.wf.par_lt hroot
    exact absurd ((hmem x).mpr hx) List.not_mem_nil
  | cons x m =>
    have htarget : (if m.all fun y => r.epochAt y = r.epochAt x then r.epochAt x else EPOCH0) =
        EPOCH0 := by
      split_ifs
      · exact h.epoch x
      · rfl
    rw [baseFor, hm]
    simp only [bind, Except.bind, htarget, hs]
    rfl

/-- **A merge of two commits** stands for the union of their pasts. -/
theorem joinState_spec (hD : D.Regular M) {a b : ℕ} (ha : r.dag.has a = true)
    (hb : r.dag.has b = true) : ∃ m, Effect.exec (joinState a b) r = (.ok (m, EPOCH0), r) ∧
      M.Rep c (r.opsUnder a ∪ r.opsUnder b) m := by
  obtain ⟨ca, hca⟩ := Dag.has_iff.mp ha
  obtain ⟨cb, hcb⟩ := Dag.has_iff.mp hb
  obtain ⟨l, hl, hrepl⟩ := h.baseFor_spec hK ha hb
  have hrepa := h.rep_opsUnder hca
  have hrepb := h.rep_opsUnder hcb
  obtain ⟨m, hm, hrep⟩ := M.merge_pasts (h.unique hK) hK.history.fits h.opsAt_subset hrepl
    (h.rep_pasts hca) hrepb
  rw [pasts_singleton] at hrep
  have hcommon : commonPast r.dag.Par (opSet r.opsAt) {a} b ⊆ r.opsUnder a ∩ r.opsUnder b := by
    have hboth : commonPast r.dag.Par (opSet r.opsAt) {a} b ⊆
        pasts r.dag.Par (opSet r.opsAt) {a} ∩ r.opsUnder b := commonPast_subset {a} b
    rwa [pasts_singleton] at hboth
  have hframe := hD.audit hK.history.fits (h.opsUnder_subset a) (h.opsUnder_subset b) hcommon hrepl
    hrepa hrepb hrep hm
  refine ⟨m, ?_, hrep⟩
  rw [joinState, Effect.exec_bind_ok (Effect.exec_get r)]
  dsimp only
  rw [Effect.exec_bind_ok (s := r) (a := ca) (by rw [Dag.get_eq_ok.mpr hca]; rfl),
    Effect.exec_bind_ok (s := r) (a := cb) (by rw [Dag.get_eq_ok.mpr hcb]; rfl)]
  simp only [hl, h.epoch a, h.epoch b]
  rw [if_pos (by simp), hframe]
  rfl

end Stands

end Replica

end SalRuntime
