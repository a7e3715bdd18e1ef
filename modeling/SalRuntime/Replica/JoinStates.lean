import SalRuntime.Replica.Replica

/-!
# The states of merges

A merge of two commits lifts states between epochs and merges them over a virtual base. A property
of states that the merge of the datatype and its translations keep therefore passes from the commits
of a store to what a merge of two of them returns.

## Main definitions

* `Datatype.Closed` — merging, translating and compacting keep a property of states.
* `Replica.Holds` — every state of the store has a property.

## Main results

* `Replica.yields_baseFor` — virtual bases have the property.
* `Replica.returns_joinState` — joins have the property.
-/

namespace SalRuntime

variable {D : Datatype} {γ : Type} [LinearOrder γ]

/-- Merging, translating and compacting keep the property, and the initial state has it. -/
structure Datatype.Closed (D : Datatype) (P : D.State → Prop) : Prop where
  /-- The initial state. -/
  init : P D.init
  /-- Merging. -/
  merge3 : ∀ {l a b}, P l → P a → P b → Yields P (D.merge3 l a b)
  /-- Translating. -/
  remap : ∀ {s} m, P s → Yields P (D.remap s m)
  /-- Compacting. -/
  compact : ∀ {compact}, D.compact = some compact → ∀ {s} cut opts, P s →
    Yields (fun res => P res.state) (compact s cut opts)

/-- The trivial property. -/
theorem Datatype.closed_true : D.Closed fun _ => True where
  init := trivial
  merge3 _ _ _ _ _ := trivial
  remap _ _ _ _ := trivial
  compact _ _ _ _ _ _ _ := trivial

namespace Replica

variable {P : D.State → Prop} {r : Replica D γ}

/-- Every state of the store has the property. -/
def Holds (P : D.State → Prop) (r : Replica D γ) : Prop :=
  ∀ x c, r.dag.commits.get? x = some c → P c.state

variable (hP : D.Closed P)

include hP

/-! ### Translation between epochs -/

theorem yields_remaps {s : D.State} (hs : P s) (ms : List D.Translate) :
    Yields P (D.remaps s ms) := by
  induction ms generalizing s with
  | nil => exact .ok hs
  | cons m ms ih => exact .bind fun s' hs' => ih (hP.remap m hs s' hs')

theorem yields_toEpochLoop {E : EpochDag D γ} {toKey : EpochKey γ} {s : D.State} (hs : P s)
    (fuel : ℕ) (k : EpochKey γ) :
    Yields (fun res => ∀ s' ∈ res, P s') (toEpochLoop E toKey fuel s k) := by
  induction fuel generalizing s k with
  | zero => exact .ok (by simp)
  | succ fuel ih =>
    rw [toEpochLoop]
    split_ifs
    · exact .ok (by simpa using hs)
    · split
      · exact .bind fun s' hs' => ih (hP.remap _ hs s' hs') _
      · exact .ok (by simp)

theorem yields_toEpoch {s : D.State} (hs : P s) (fromKey toKey : EpochKey γ) :
    Yields (fun res => ∀ s' ∈ res, P s') (r.toEpoch s fromKey toKey) :=
  yields_toEpochLoop hP hs _ _

theorem yields_liftState {s : D.State} (hs : P s) (fromKey toKey : EpochKey γ) :
    Yields (fun res => ∀ s' ∈ res, P s') (r.liftState s fromKey toKey) := by
  rw [liftState]
  split
  · exact .ok (by simp)
  · exact .bind fun s' hs' => .ok (by simpa using yields_remaps hP hs _ s' hs')

theorem yields_mergeInFrame {l a b : D.State} (hl : P l) (ha : P a) (hb : P b) :
    Yields P (mergeInFrame D l a b) := by
  refine .bind fun s hs => ?_
  have hmerged : P s := hP.merge3 hl ha hb s hs
  split
  · exact .ok hmerged
  · split
    · exact .ok hmerged
    · exact .error _

variable (hr : r.Holds P)

include hr

/-! ### Virtual merge bases -/

omit hP in
theorem Holds.of_get {x : ℕ} {c : Commit D.State (Payload D.Op)} (hc : r.dag.get x = .ok c) :
    P c.state := hr x c (Dag.get_eq_ok.mp hc)

theorem yields_liftDown (id : ℕ) (target : EpochKey γ) (antichain : List ℕ) :
    Yields P (r.liftDown id target antichain) := by
  refine .bind fun c hc => ?_
  have hstate : P c.state := hr.of_get hc
  split_ifs
  · exact .ok hstate
  · refine .bind fun res hres => ?_
    split
    · exact .ok (yields_toEpoch hP hstate _ _ _ hres _ rfl)
    · exact .error _

theorem yields_foldBase {base : List ℕ → ℕ → Except Failure D.State}
    (hbase : ∀ support mi, Yields P (base support mi)) (target : EpochKey γ)
    (antichain support : List ℕ) {acc : D.State} (hacc : P acc) (rest : List ℕ) :
    Yields P (r.foldBase base target antichain support acc rest) := by
  induction rest generalizing support acc with
  | nil => exact .ok hacc
  | cons mi rest ih =>
    refine .bind fun l hl => .bind fun lifted hlifted => .bind fun acc' hacc' => ih _ ?_
    exact hP.merge3 (hbase _ _ l hl) hacc (yields_liftDown hP hr _ _ _ _ hlifted) _ hacc'

theorem yields_baseState (fuel : ℕ) (S : List ℕ) (w : ℕ) (target : EpochKey γ) :
    Yields P (r.baseState fuel S w target) := by
  induction fuel generalizing S w with
  | zero => exact .error _
  | succ fuel ih =>
    refine .bind fun m _ => ?_
    split
    · exact .error _
    · exact yields_liftDown hP hr _ _ _
    · split
      · exact .error _
      · refine .bind fun acc hacc => yields_foldBase hP hr (fun _ _ => ih _ _) _ _ _ ?_ _
        exact yields_liftDown hP hr _ _ _ _ hacc

/-- **Virtual bases** have the property. -/
theorem yields_baseFor (S : List ℕ) (w : ℕ) : Yields (fun base => P base.1) (r.baseFor S w) := by
  refine .bind fun m _ => ?_
  split
  · exact .error _
  · exact .bind fun s hs => .ok (yields_baseState hP hr _ _ _ _ _ hs)

/-! ### Joins -/

theorem returns_joinHeadOnly (a b : ℕ) :
    Effect.Returns (fun s => P s.1) (joinHeadOnly a b : Call D γ (D.State × EpochKey γ)) r := by
  refine .bind_get (.bind_lift fun ca ha => .bind_lift fun cb hb => ?_)
  have hpa : P ca.state := hr.of_get ha
  have hpb : P cb.state := hr.of_get hb
  split_ifs
  · exact .bind_lift fun m hm => .pure (yields_mergeInFrame hP hP.init hpa hpb m hm)
  · refine .bind_lift fun a0 ha0 => .bind_lift fun b0 hb0 => ?_
    split
    · refine .bind fun _ r' _ => .bind_lift fun m hm => .pure ?_
      exact yields_mergeInFrame hP hP.init (yields_toEpoch hP hpa _ _ _ ha0 _ rfl)
        (yields_toEpoch hP hpb _ _ _ hb0 _ rfl) m hm
    · exact .throw _

omit hr in
theorem returns_joinAtRoot (ea eb el : EpochKey γ) {aState bState lState : D.State}
    (ha : P aState) (hb : P bState) (hl : P lState) :
    Effect.Returns (fun s => P s.1)
      (joinAtRoot ea eb el aState bState lState : Call D γ (D.State × EpochKey γ)) r := by
  refine .bind_get (.bind_lift fun a0 ha0 => .bind_lift fun b0 hb0 => .bind_lift fun l0 hl0 => ?_)
  split
  · have hmerged := yields_mergeInFrame hP (yields_toEpoch hP hl _ _ _ hl0 _ rfl)
      (yields_toEpoch hP ha _ _ _ ha0 _ rfl) (yields_toEpoch hP hb _ _ _ hb0 _ rfl)
    split_ifs
    · exact .bind fun _ _ _ => .bind_lift fun m hm => .pure (hmerged m hm)
    · exact .bind_lift fun m hm => .pure (hmerged m hm)
  · exact .throw _

omit hr in
theorem yields_lifted {s : D.State} (hs : P s) (e el : EpochKey γ) :
    Yields (fun res => ∀ s' ∈ res, P s')
      (if e = el then .ok (some s) else r.toEpoch s e el : Except Failure (Option D.State)) := by
  split_ifs
  · exact .ok (by simpa using hs)
  · exact yields_toEpoch hP hs e el

omit hr in
theorem returns_joinBelow (ea eb el : EpochKey γ) {aState bState lState : D.State}
    (ha : P aState) (hb : P bState) (hl : P lState) :
    Effect.Returns (fun s => P s.1)
      (joinBelow ea eb el aState bState lState : Call D γ (D.State × EpochKey γ)) r := by
  refine .bind_get (.bind_lift fun aE haE => .bind_lift fun bE hbE => ?_)
  split
  · have hmerged := yields_mergeInFrame hP hl (yields_lifted hP ha ea el _ haE _ rfl)
      (yields_lifted hP hb eb el _ hbE _ rfl)
    split_ifs
    · exact .bind fun _ _ _ => .bind_lift fun m hm => .pure (hmerged m hm)
    · exact .bind_lift fun m hm => .pure (hmerged m hm)
  · exact returns_joinAtRoot hP ea eb el ha hb hl

/-- **Joins** have the property. -/
theorem returns_joinState (a b : ℕ) :
    Effect.Returns (fun s => P s.1) (joinState a b : Call D γ (D.State × EpochKey γ)) r := by
  refine .bind_get (.bind_lift fun ca ha => .bind_lift fun cb hb => ?_)
  have hpa : P ca.state := hr.of_get ha
  have hpb : P cb.state := hr.of_get hb
  split
  · split_ifs
    · exact returns_joinHeadOnly hP hr a b
    · exact .throw _
  · exact .throw _
  · rename_i l el hbase
    have hpl : P l := yields_baseFor hP hr _ _ _ hbase
    split_ifs
    · exact .bind_lift fun m hm => .pure (yields_mergeInFrame hP hpl hpa hpb m hm)
    · refine .bind_lift fun up hup => ?_
      split
      · have hpu := yields_liftState hP hpl _ _ _ hup _ rfl
        exact .bind_lift fun m hm => .pure (yields_mergeInFrame hP hpu hpa hpb m hm)
      · exact returns_joinBelow hP _ _ _ hpa hpb hpl
    · exact returns_joinBelow hP _ _ _ hpa hpb hpl

end Replica

end SalRuntime
