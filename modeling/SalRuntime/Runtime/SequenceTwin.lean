import Mathlib.Data.Fin.VecNotation
import SalRuntime.Runtime.EventStore

/-!
# The tombstone-free sequence agrees with the tombstone RGA

The same run of the shared-store runtime is executed with the embedded-chain RGA and with the
tombstone RGA. Both datatypes implement event sets, so the two stores have the same shape, and the
states of a commit stand for the same operations; both display the live ids in the display order
of their chains.

## Main definitions

* `Runtime.HonestOp` — the author inserts under a globally fresh Lamport id after a live anchor,
  or deletes a live id.
* `Runtime.HonestRun` — every commit of a run is honest.
* `Runtime.SameShape` — two stores with the same ids, parents, operations and heads.

## Main results

* `Runtime.readIds_embedRGA_eq_rga` — both executions show the same ids at every replica.
-/

namespace SalRuntime.Runtime

open Ancestry

variable {D D' : Datatype} {N : ℕ} {α : Type}

/-! ### Honest operations -/

/-- The insert id a commit carries. -/
def insIdAt (toSeq : D.Op → SeqOp α) (d : Dag D.State D.Op) (x : ℕ) : Option ℕ :=
  (d.opOf x).bind fun op => (toSeq op.payload).insId

/-- The operation is honest at replica `i`: an insertion is under a positive id that no commit of
the store inserts and that is greater than all ids in the ancestry of the head, and its anchor is
live at the head; a deletion is of an id that is live at the head. -/
def HonestOp (toSeq : D.Op → SeqOp α) (isLive : D.State → ℕ → Bool) (rt : Runtime D N) (i : Fin N)
    (payload : D.Op) : Prop :=
  match toSeq payload with
  | .ins id _ anchorId =>
    0 < id ∧ id ∉ rt.dag.ids.filterMap (insIdAt toSeq rt.dag) ∧
      (∀ j ∈ (rt.dag.ancestors (rt.headId i)).filterMap (insIdAt toSeq rt.dag), j < id) ∧
      ∀ a ∈ anchorId, isLive (rt.replicas i).head.state a = true
  | .del id => isLive (rt.replicas i).head.state id = true

instance decidableHonestOp (toSeq : D.Op → SeqOp α) (isLive : D.State → ℕ → Bool)
    (rt : Runtime D N) (i : Fin N) (payload : D.Op) : Decidable (HonestOp toSeq isLive rt i payload) :=
  match h : toSeq payload with
  | .ins id _ anchorId =>
    decidable_of_iff (0 < id ∧ id ∉ rt.dag.ids.filterMap (insIdAt toSeq rt.dag) ∧
      (∀ j ∈ (rt.dag.ancestors (rt.headId i)).filterMap (insIdAt toSeq rt.dag), j < id) ∧
      ∀ a ∈ anchorId, isLive (rt.replicas i).head.state a = true) (by rw [HonestOp, h])
  | .del id =>
    decidable_of_iff (isLive (rt.replicas i).head.state id = true) (by rw [HonestOp, h])

/-- The calls of a run are honest commits and synchronizations. -/
def HonestRun (toSeq : D.Op → SeqOp α) (isLive : D.State → ℕ → Bool) (rt : Runtime D N) :
    List (Act D.Op N) → Prop
  | [] => True
  | .commit i payload :: acts => HonestOp toSeq isLive rt i payload ∧
      HonestRun toSeq isLive (rt.step (.commit i payload)) acts
  | .sync i j :: acts => HonestRun toSeq isLive (rt.step (.sync i j)) acts
  | .gc :: _ => False
  | .compactStable _ :: _ => False

/-- Honesty of a run is decided call by call. -/
instance decidableHonestRun (toSeq : D.Op → SeqOp α) (isLive : D.State → ℕ → Bool) :
    (rt : Runtime D N) → (acts : List (Act D.Op N)) → Decidable (HonestRun toSeq isLive rt acts)
  | _, [] => .isTrue trivial
  | rt, .commit i payload :: acts =>
    have := decidableHonestRun toSeq isLive (rt.step (.commit i payload)) acts
    inferInstanceAs (Decidable (_ ∧ _))
  | rt, .sync i j :: acts => decidableHonestRun toSeq isLive (rt.step (.sync i j)) acts
  | _, .gc :: _ => .isFalse id
  | _, .compactStable _ :: _ => .isFalse id

theorem HonestRun.take {toSeq : D.Op → SeqOp α} {isLive : D.State → ℕ → Bool} {rt : Runtime D N}
    {acts : List (Act D.Op N)} (h : HonestRun toSeq isLive rt acts) (k : ℕ) :
    HonestRun toSeq isLive rt (acts.take k) := by
  induction acts generalizing rt k with
  | nil => simpa using h
  | cons act acts ih =>
    cases k with
    | zero => trivial
    | succ k =>
      cases act with
      | commit i payload => exact ⟨h.1, ih h.2 k⟩
      | sync i j => exact ih h k
      | gc => exact h.elim
      | compactStable i => exact h.elim

/-- The operations of an honest run are honest when they are committed. -/
theorem HonestRun.honestOp {toSeq : D.Op → SeqOp α} {isLive : D.State → ℕ → Bool}
    {rt : Runtime D N} {acts : List (Act D.Op N)} (h : HonestRun toSeq isLive rt acts) {k : ℕ}
    {i : Fin N} {payload : D.Op} (hk : acts[k]? = some (.commit i payload)) :
    HonestOp toSeq isLive (rt.run (acts.take k)) i payload := by
  induction acts generalizing rt k with
  | nil => simp at hk
  | cons act acts ih =>
    cases k with
    | zero =>
      rw [List.getElem?_cons_zero, Option.some.injEq] at hk
      subst hk
      exact h.1
    | succ k =>
      rw [List.getElem?_cons_succ] at hk
      cases act with
      | commit j op => exact ih h.2 hk
      | sync j l => exact ih h hk
      | gc => exact h.elim
      | compactStable j => exact h.elim

section Honest

variable {toSeq : D.Op → SeqOp α} {isLive : D.State → ℕ → Bool} {rt : Runtime D N}

theorem mem_insIds_iff {ids : List ℕ} {id : ℕ} :
    id ∈ ids.filterMap (insIdAt toSeq rt.dag) ↔ ∃ x ∈ ids, id ∈ inserted (opsAt toSeq rt.dag x) := by
  rw [List.mem_filterMap]
  refine exists_congr fun x => and_congr_right fun _ => ?_
  rw [insIdAt, Option.bind_eq_some_iff]
  constructor
  · rintro ⟨op, hop, hid⟩
    cases hseq : toSeq op.payload with
    | ins j el a =>
      rw [hseq] at hid
      cases hid
      exact ⟨el, a, op, hop, hseq⟩
    | del j =>
      rw [hseq] at hid
      cases hid
  · rintro ⟨el, a, op, hop, hseq⟩
    exact ⟨op, hop, by rw [hseq]; rfl⟩

/-- An honest insertion is under a fresh id, greater than all ids of the events of the head. -/
theorem HonestOp.ins_spec (h : rt.Sound) {i : Fin N} {payload : D.Op}
    (hop : HonestOp toSeq isLive rt i payload) {id : ℕ} {el : α} {anchorId : Option ℕ}
    (hseq : toSeq payload = .ins id el anchorId) :
    0 < id ∧ id ∉ inserted (allOps toSeq rt.dag) ∧
      (∀ j ∈ inserted (eventsAt toSeq rt.dag (rt.headId i)), j < id) ∧
      ∀ a ∈ anchorId, isLive (rt.replicas i).head.state a = true := by
  rw [HonestOp, hseq] at hop
  obtain ⟨hpos, hfresh, hseen, hanchor⟩ := hop
  refine ⟨hpos, fun hid => ?_, fun j hj => ?_, hanchor⟩
  · obtain ⟨x, -, hx⟩ := mem_inserted_opsOn.mp hid
    refine hfresh (mem_insIds_iff.mpr ⟨x, ?_, hx⟩)
    obtain ⟨_, _, op, hxop, -⟩ := hx
    obtain ⟨c, hc, -⟩ := Dag.opOf_eq_some_iff.mp hxop
    exact Dag.mem_ids_iff.mpr (Dag.has_iff.mpr ⟨c, hc⟩)
  · obtain ⟨x, hx, hjx⟩ := mem_inserted_opsOn.mp hj
    exact hseen j (mem_insIds_iff.mpr ⟨x, (Dag.mem_ancestors_iff (h.has_head i)).mpr hx, hjx⟩)

/-- An honest operation is applicable to the events of the head, and fresh in the store. -/
theorem HonestOp.applicable {Rep : (ℕ → List ℕ) → (ℕ → α) → Set (SeqOp α) → D.State → Prop}
    {χ : ℕ → List ℕ} {ε : ℕ → α} (h : EventStore toSeq Rep χ ε rt)
    (hlive : ∀ {χ ε E s}, Rep χ ε E s → ∀ id, isLive s id = true ↔ id ∈ live E) {i : Fin N}
    {payload : D.Op} (hop : HonestOp toSeq isLive rt i payload) :
    Applicable (eventsAt toSeq rt.dag (rt.headId i)) (toSeq payload) ∧
      ∀ id ∈ inserted {toSeq payload}, id ∉ inserted (allOps toSeq rt.dag) := by
  have hhead := hlive (h.rep_head i)
  cases hseq : toSeq payload with
  | del id =>
    rw [HonestOp, hseq] at hop
    refine ⟨(hhead id).mp hop, ?_⟩
    rintro j ⟨el, a, hmem⟩
    cases hmem
  | ins id el anchorId =>
    obtain ⟨hpos, hnot, hseen, hanchor⟩ := hop.ins_spec h.sound hseq
    refine ⟨⟨fun hid => hnot (inserted_mono (EventStore.eventsAt_subset _ _) hid), hpos,
      fun a ha => ?_⟩, ?_⟩
    · have hlive := (hhead a).mp (hanchor a ha)
      exact ⟨hlive, hseen a hlive.1⟩
    · rintro j ⟨el', a', hmem⟩
      cases hmem
      exact hnot

end Honest

/-! ### Stores of the same shape -/

/-- Two runtimes with the same ids, parents, operations and heads. -/
structure SameShape (toSeq : D.Op → SeqOp α) (toSeq' : D'.Op → SeqOp α) (R : Runtime D N)
    (S : Runtime D' N) : Prop where
  /-- Ids are handed out alike. -/
  nextId : R.dag.nextId = S.dag.nextId
  /-- Commits have the same parents and operations. -/
  commits : ∀ x, (R.dag.commits.get? x).map (fun c => (c.parents, c.op.map fun o => toSeq o.payload)) =
    (S.dag.commits.get? x).map fun c => (c.parents, c.op.map fun o => toSeq' o.payload)
  /-- Heads agree. -/
  headId : ∀ i, R.headId i = S.headId i

namespace SameShape

variable {toSeq : D.Op → SeqOp α} {toSeq' : D'.Op → SeqOp α} {R : Runtime D N} {S : Runtime D' N}

section Transfer

variable (h : SameShape toSeq toSeq' R S)

include h

theorem has_eq (x : ℕ) : R.dag.has x = S.dag.has x := by
  have := congrArg Option.isSome (h.commits x)
  simpa [Dag.has, SortedMap.has] using this

theorem par_eq : R.dag.Par = S.dag.Par := by
  funext x p
  have hx := h.commits x
  rw [Dag.Par, Dag.Par, Dag.storedParents, Dag.storedParents,
    show R.dag.has = S.dag.has from funext h.has_eq]
  cases hR : R.dag.commits.get? x <;> cases hS : S.dag.commits.get? x <;> simp_all

theorem opsAt_eq : opsAt toSeq R.dag = opsAt toSeq' S.dag := by
  funext x
  have hx := h.commits x
  ext o
  simp only [opsAt, Dag.opOf, Set.mem_ofPred_eq]
  cases hR : R.dag.commits.get? x with
  | none =>
    cases hS : S.dag.commits.get? x with
    | none => simp
    | some c' => simp [hR, hS] at hx
  | some c =>
    cases hS : S.dag.commits.get? x with
    | none => simp [hR, hS] at hx
    | some c' =>
      simp only [hR, hS, Option.map_some, Option.some.injEq, Prod.mk.injEq] at hx
      have hop := congrArg (fun m => m = some o) hx.2
      simpa [Option.map_eq_some_iff] using hop

theorem eventsAt_eq (x : ℕ) : eventsAt toSeq R.dag x = eventsAt toSeq' S.dag x := by
  rw [eventsAt, eventsAt, h.opsAt_eq, Dag.Reaches, Dag.Reaches, h.par_eq]

theorem allOps_eq : allOps toSeq R.dag = allOps toSeq' S.dag := by
  rw [allOps, allOps, h.opsAt_eq]

/-- Pushing the same commit keeps the shape. -/
theorem push {R' : Runtime D N} {S' : Runtime D' N} {parents : List ℕ} {op : Option (Op D.Op)}
    {op' : Option (Op D'.Op)} {s : D.State} {s' : D'.State}
    (hop : op.map (fun o => toSeq o.payload) = op'.map fun o => toSeq' o.payload)
    (hR : R'.dag = R.dag.push parents op s) (hS : S'.dag = S.dag.push parents op' s')
    (hhead : ∀ i, R'.headId i = S'.headId i) : SameShape toSeq toSeq' R' S' := by
  refine ⟨by rw [hR, hS, Dag.push_nextId, Dag.push_nextId, h.nextId], fun x => ?_, hhead⟩
  rw [hR, hS, Dag.get?_push, Dag.get?_push, h.nextId]
  split_ifs
  · simp [hop]
  · exact h.commits x

/-- Moving the same heads keeps the shape. -/
theorem moveHead (k l : Fin N) (fr fr' : Frontier) : SameShape toSeq toSeq'
    (R.moveHead k (R.replicas l).head fr) (S.moveHead k (S.replicas l).head fr') := by
  refine ⟨h.nextId, h.commits, fun m => ?_⟩
  have hl := h.headId l
  have hm := h.headId m
  simp only [Runtime.headId, head_moveHead] at hl hm ⊢
  split_ifs
  · exact hl
  · exact hm

/-- Committing the same operation keeps the shape. -/
theorem committed (i : Fin N) {op : D.Op} {op' : D'.Op} (hop : toSeq op = toSeq' op') (s : D.State)
    (s' : D'.State) (fr fr' : Frontier) :
    SameShape toSeq toSeq' (R.committed i op s fr) (S.committed i op' s' fr') := by
  have hdag : (S.committed i op' s' fr').dag = S.dag.push [R.headId i]
      (some ⟨(S.replicas i).name, (S.replicas i).seq, op'⟩) s' := by
    rw [h.headId]
    rfl
  refine h.push ?_ rfl hdag fun k => ?_
  · simp [hop]
  · have hk := h.headId k
    simp only [Runtime.headId, Runtime.committed, nextCommit, Function.update_apply] at hk ⊢
    split_ifs
    · exact h.nextId
    · exact hk

/-- Merging the same heads keeps the shape. -/
theorem merged (i j : Fin N) (m : D.State) (m' : D'.State) (e e' : ℕ) (fr fr' : Frontier) :
    SameShape toSeq toSeq' (R.merged i j m e fr) (S.merged i j m' e' fr') := by
  have hdag : (R.merged i j m e fr).dag = R.dag.push [R.headId i, R.headId j] none m := rfl
  have hdag' : (S.merged i j m' e' fr').dag = S.dag.push [R.headId i, R.headId j] none m' := by
    rw [h.headId, h.headId]
    rfl
  refine h.push rfl hdag hdag' fun k => ?_
  have hk := h.headId k
  simp only [Runtime.headId] at hk
  simp only [Runtime.headId, Runtime.merged, head_moveHead]
  split_ifs
  · exact h.nextId
  · exact h.nextId
  · exact hk

/-- **Synchronizations** of stores of the same shape: both change nothing, both move the same head,
or both merge over the same base, the unique maximal common ancestor. -/
theorem step_sync (hR : R.Sound) (hS : S.Sound) (i j : Fin N) :
    (R.step (.sync i j) = R ∧ S.step (.sync i j) = S) ∨
    (∃ k l fr fr', R.step (.sync i j) = R.moveHead k (R.replicas l).head fr ∧
      S.step (.sync i j) = S.moveHead k (S.replicas l).head fr') ∨
    ∃ l, (∀ x, IsMca R.dag.Par {R.headId i} (R.headId j) x ↔ x = l) ∧
      (∀ x, IsMca S.dag.Par {S.headId i} (S.headId j) x ↔ x = l) ∧
      (∀ m e, R.mergeOver l (R.replicas i).head (R.replicas j).head = .ok (m, e) →
        ∃ fr, R.step (.sync i j) = R.merged i j m e fr) ∧
      ∀ m e, S.mergeOver l (S.replicas i).head (S.replicas j).head = .ok (m, e) →
        ∃ fr, S.step (.sync i j) = S.merged i j m e fr := by
  have hreach (a b : ℕ) : S.dag.Reaches a b ↔ R.dag.Reaches a b := by
    rw [Dag.Reaches, Dag.Reaches, h.par_eq]
  by_cases hid : R.headId i = R.headId j
  · have hid' : S.headId i = S.headId j := by rwa [← h.headId, ← h.headId]
    simp only [step, call, sync_of_eq hid, sync_of_eq hid']
    exact Or.inl ⟨trivial, trivial⟩
  have hid' : S.headId i ≠ S.headId j := by rwa [← h.headId, ← h.headId]
  by_cases hl : R.dag.Reaches (R.headId j) (R.headId i)
  · obtain ⟨fr, hsR⟩ := sync_of_reaches_left hR hid hl
    rw [← hreach, h.headId, h.headId] at hl
    obtain ⟨fr', hsS⟩ := sync_of_reaches_left hS hid' hl
    simp only [step, call, hsR, hsS]
    exact Or.inr (Or.inl ⟨i, j, fr, fr', rfl, rfl⟩)
  by_cases hr : R.dag.Reaches (R.headId i) (R.headId j)
  · obtain ⟨fr, hsR⟩ := sync_of_reaches_right hR hid hr
    rw [← hreach, h.headId, h.headId] at hr
    obtain ⟨fr', hsS⟩ := sync_of_reaches_right hS hid' hr
    simp only [step, call, hsR, hsS]
    exact Or.inr (Or.inl ⟨j, i, fr, fr', rfl, rfl⟩)
  obtain ⟨fr, hsR⟩ := sync_of_mergeOver hR hid hl hr
  rw [← hreach, h.headId, h.headId] at hl hr
  obtain ⟨fr', hsS⟩ := sync_of_mergeOver hS hid' hl hr
  have huniq (l : ℕ) : R.dag.lca (R.headId i) (R.headId j) = .ok l ↔
      ∀ x, IsMca R.dag.Par {R.headId i} (R.headId j) x ↔ x = l :=
    Dag.lca_eq_ok_iff (hR.has_head i) (hR.has_head j) hR.wf
  have huniq' (l : ℕ) : S.dag.lca (S.headId i) (S.headId j) = .ok l ↔
      ∀ x, IsMca S.dag.Par {S.headId i} (S.headId j) x ↔ x = l :=
    Dag.lca_eq_ok_iff (hS.has_head i) (hS.has_head j) hS.wf
  have hlca (l : ℕ) : R.dag.lca (R.headId i) (R.headId j) = .ok l ↔
      S.dag.lca (S.headId i) (S.headId j) = .ok l := by
    rw [huniq, huniq', h.par_eq, h.headId, h.headId]
  cases hcase : R.dag.lca (R.headId i) (R.headId j) with
  | error e =>
    have hcase' : ∃ e', S.dag.lca (S.headId i) (S.headId j) = .error e' := by
      cases hS' : S.dag.lca (S.headId i) (S.headId j) with
      | error e' => exact ⟨e', rfl⟩
      | ok l => simp [(hlca l).mpr hS'] at hcase
    obtain ⟨e', hcase'⟩ := hcase'
    rw [hcase] at hsR
    rw [hcase'] at hsS
    simp only [step, call, hsR, hsS, bind, Except.bind]
    exact Or.inl ⟨trivial, trivial⟩
  | ok l =>
    have hcase' := (hlca l).mp hcase
    rw [hcase] at hsR
    rw [hcase'] at hsS
    refine Or.inr (Or.inr ⟨l, (huniq l).mp hcase, (huniq' l).mp hcase', fun m e hm => ?_,
      fun m e hm => ?_⟩)
    · simp only [bind, Except.bind, hm, pure, Except.pure] at hsR
      exact ⟨fr m e, by simp only [step, call, hsR]⟩
    · simp only [bind, Except.bind, hm, pure, Except.pure] at hsS
      exact ⟨fr' m e, by simp only [step, call, hsS]⟩

end Transfer

/-- New runtimes have the same shape. -/
theorem start (names : Fin N → String) :
    SameShape toSeq toSeq' (Runtime.start D names) (Runtime.start D' names) := by
  refine ⟨rfl, fun x => ?_, fun i => rfl⟩
  rw [get?_start, get?_start]
  split_ifs
  · rfl
  · rfl

end SameShape

/-! ### The two executions -/

section Executions

variable {toSeq : D.Op → SeqOp α} {toSeq' : D'.Op → SeqOp α}
  {Rep : (ℕ → List ℕ) → (ℕ → α) → Set (SeqOp α) → D.State → Prop}
  {Rep' : (ℕ → List ℕ) → (ℕ → α) → Set (SeqOp α) → D'.State → Prop}

/-- Two executions of the same run, over stores of the same shape in which every commit stands for
its events. -/
structure Executions (toSeq : D.Op → SeqOp α) (toSeq' : D'.Op → SeqOp α)
    (Rep : (ℕ → List ℕ) → (ℕ → α) → Set (SeqOp α) → D.State → Prop)
    (Rep' : (ℕ → List ℕ) → (ℕ → α) → Set (SeqOp α) → D'.State → Prop) (R : Runtime D N)
    (S : Runtime D' N) : Prop where
  /-- The stores have the same shape. -/
  shape : SameShape toSeq toSeq' R S
  /-- Commits of the first store stand for their events. -/
  left : ∃ χ ε, EventStore toSeq Rep χ ε R
  /-- Commits of the second store stand for their events. -/
  right : ∃ χ ε, EventStore toSeq' Rep' χ ε S

variable {R : Runtime D N} {S : Runtime D' N} (himpl : ImplementsSeq D toSeq Rep)
  (himpl' : ImplementsSeq D' toSeq' Rep')

include himpl himpl'

/-- **Commits** of the same honest operation. -/
theorem Executions.commit (h : Executions toSeq toSeq' Rep Rep' R S) (i : Fin N) {op : D.Op}
    {op' : D'.Op} (hop : toSeq op = toSeq' op')
    (happ : Applicable (eventsAt toSeq R.dag (R.headId i)) (toSeq op))
    (hfresh : ∀ id ∈ inserted {toSeq op}, id ∉ inserted (allOps toSeq R.dag)) :
    Executions toSeq toSeq' Rep Rep' (R.step (.commit i op)) (S.step (.commit i op')) := by
  obtain ⟨χ, ε, hR⟩ := h.left
  obtain ⟨χ', ε', hS⟩ := h.right
  obtain ⟨s, fr, _, _, hcR, hR'⟩ := hR.commit himpl i op happ hfresh
  have happ' : Applicable (eventsAt toSeq' S.dag (S.headId i)) (toSeq' op') := by
    rwa [← h.shape.headId, ← h.shape.eventsAt_eq, ← hop]
  have hfresh' : ∀ id ∈ inserted {toSeq' op'}, id ∉ inserted (allOps toSeq' S.dag) := by
    rwa [← h.shape.allOps_eq, ← hop]
  obtain ⟨s', fr', _, _, hcS, hS'⟩ := hS.commit himpl' i op' happ' hfresh'
  simp only [step, call, hcR, hcS]
  exact ⟨h.shape.committed i hop s s' fr fr', ⟨_, _, hR'⟩, ⟨_, _, hS'⟩⟩

/-- **Synchronizations.** -/
theorem Executions.sync (h : Executions toSeq toSeq' Rep Rep' R S) (i j : Fin N) :
    Executions toSeq toSeq' Rep Rep' (R.step (.sync i j)) (S.step (.sync i j)) := by
  obtain ⟨χ, ε, hR⟩ := h.left
  obtain ⟨χ', ε', hS⟩ := h.right
  rcases h.shape.step_sync hR.sound hS.sound i j with ⟨hr, hs⟩ | ⟨k, l, fr, fr', hr, hs⟩ |
    ⟨l, huniq, huniq', hr, hs⟩
  · rw [hr, hs]
    exact h
  · rw [hr, hs]
    exact ⟨h.shape.moveHead k l fr fr', ⟨_, _, hR.moveHead k l fr⟩, ⟨_, _, hS.moveHead k l fr'⟩⟩
  · obtain ⟨m, e, hmR, hrep⟩ := hR.mergeOver himpl i j huniq
    obtain ⟨m', e', hmS, hrep'⟩ := hS.mergeOver himpl' i j huniq'
    obtain ⟨fr, hr⟩ := hr m e hmR
    obtain ⟨fr', hs⟩ := hs m' e' hmS
    rw [hr, hs]
    exact ⟨h.shape.merged i j m m' e e' fr fr', ⟨_, _, hR.merged i j e fr hrep⟩,
      ⟨_, _, hS.merged i j e' fr' hrep'⟩⟩

end Executions

/-! ### The display -/

section Display

variable [DecidableEq α]

/-- The two executions, with the embedded-chain RGA and with the tombstone RGA. -/
abbrev RgaExecutions (R : Runtime (embedRGA α) N) (S : Runtime (rga α) N) : Prop :=
  Executions (fun op => op) (fun op => op)
    (fun χ ε E s => EmbedRGA.Represents mintLabel χ ε (live E) s)
    (fun χ ε E s => Rga.Represents χ ε (inserted E) (deleted E) s) R S

/-- An id is live at a head of the embedded-chain RGA when the state has a record of it. -/
abbrev HonestSeqRun (R : Runtime (embedRGA α) N) (acts : List (Act (SeqOp α) N)) : Prop :=
  HonestRun (D := embedRGA α) (fun op => op) (fun s id => SortedMap.has s id) R acts

variable {R : Runtime (embedRGA α) N} {S : Runtime (rga α) N}

/-- **Honest runs** keep the two executions alike. -/
theorem RgaExecutions.run (h : RgaExecutions R S) {acts : List (Act (SeqOp α) N)}
    (hacts : HonestSeqRun R acts) : RgaExecutions (R.run acts) (S.run acts) := by
  induction acts generalizing R S with
  | nil => exact h
  | cons act acts ih =>
    cases act with
    | commit i op =>
      obtain ⟨hop, hrest⟩ := hacts
      obtain ⟨χ, ε, hR⟩ := h.left
      obtain ⟨happ, hfresh⟩ := hop.applicable hR fun hrep id => hrep.has_iff
      exact ih (h.commit implementsSeq_embedRGA implementsSeq_rga i rfl happ hfresh) hrest
    | sync i j => exact ih (h.sync implementsSeq_embedRGA implementsSeq_rga i j) hacts
    | gc => exact hacts.elim
    | compactStable i => exact hacts.elim

/-- New runtimes are alike. -/
theorem RgaExecutions.start [Nonempty α] (names : Fin N → String) :
    RgaExecutions (Runtime.start (embedRGA α) names) (Runtime.start (rga α) names) := by
  have ε : ℕ → α := fun _ => Classical.arbitrary α
  exact ⟨SameShape.start names, ⟨_, ε, EventStore.start implementsSeq_embedRGA names⟩,
    ⟨_, ε, EventStore.start implementsSeq_rga names⟩⟩

/-- Heads of executions that are alike show the same ids. -/
theorem RgaExecutions.readIds_eq (h : RgaExecutions R S) (i : Fin N) :
    Rga.readIds (S.replicas i).head.state =
      .ok (EmbedRGA.readIds (R.replicas i).head.state) := by
  obtain ⟨χ, ε, hR⟩ := h.left
  obtain ⟨χ', ε', hS⟩ := h.right
  have hhas := hS.sound.has_head i
  have hall : inserted (eventsAt (fun op => op) S.dag (S.headId i)) ⊆
      inserted (allOps (fun op => op) S.dag) := inserted_mono (EventStore.eventsAt_subset _ _)
  have hevents := h.shape.eventsAt_eq (R.headId i)
  rw [h.shape.headId] at hevents
  -- The chains of the two executions agree.
  have hχ (id : ℕ) (hid : id ∈ inserted (eventsAt (fun op => op) S.dag (S.headId i))) :
      χ' id = χ id := by
    have hbirths := hR.births
    rw [h.shape.allOps_eq] at hbirths
    exact (hS.births.unique hbirths (hall hid)).1
  have hrepR := hR.rep_head i
  rw [h.shape.headId, hevents] at hrepR
  obtain ⟨hpair, hmem⟩ := hrepR.pairwise_readIds siblingMono_mintLabel
    (fun id hid => by
      rw [← hχ id hid.1]
      exact hS.births.mem_increasingChains (hall hid.1))
    fun id hid id' hid' heq => hS.births.injOn (hall hid.1) (hall hid'.1)
      (by rw [hχ id hid.1, hχ id' hid'.1, heq])
  obtain ⟨ids, hids, hpair', hmem', -⟩ := 
    (hS.rep_head i).readIds_spec hS.births hall fun id hid p a => hS.mem_of_prefix hhas hid
  have hlist : ids = EmbedRGA.readIds (R.replicas i).head.state := by
    refine eq_of_pairwise_above (χ := χ) (hpair'.imp_of_mem fun hid hid' hab => ?_) hpair
      fun id => (hmem' id).trans (hmem id).symm
    rwa [← hχ _ ((hmem' _).mp hid).1, ← hχ _ ((hmem' _).mp hid').1]
  rw [hids, hlist]

/-- A run in which an anchor is deleted between concurrent insertions after it. -/
def siblingActs (a b : Fin N) : List (Act (SeqOp Char) N) :=
  [.commit a (.ins 1 'x' none), .sync a b, .commit a (.ins 2 'y' (some 1)),
    .commit b (.ins 3 'z' (some 1)), .commit b (.del 1), .sync a b]

end Display

end SalRuntime.Runtime
