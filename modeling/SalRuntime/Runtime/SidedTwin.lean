import SalRuntime.Datatypes.SidedPolicy
import SalRuntime.Runtime.SequenceTwin

/-!
# The production sided kernel agrees with the full policy kernel

The same run of the shared-store runtime is executed with the production kernel and with the full
policy kernel. The two stores have the same shape, the nodes of a commit are those of the
insertions in its ancestry, and the state of the production kernel summarizes that of the full
kernel. So both choose the same places and show the same ids.

## Main definitions

* `Runtime.Act.map` — the calls of a run, with other operations.
* `Runtime.SidedTwin` — the two executions of a run.

## Main results

* `Runtime.SidedTwin.commit`, `Runtime.SidedTwin.sync` — the steps keep the executions alike.
* `Runtime.liveGap_agrees_unified` — both kernels choose the same places in every preparation and
  show the same ids at every replica after every step.
-/

namespace SalRuntime.Runtime

open Ancestry

variable {N : ℕ} {α : Type}

/-- The call with its operation replaced by the image. -/
def Act.map {ω ω' : Type} (f : ω → ω') : Act ω N → Act ω' N
  | .commit i payload => .commit i (f payload)
  | .sync i j => .sync i j
  | .gc => .gc
  | .compactStable i => .compactStable i

/-- An id is live at a head of the production kernel when the state has a record of it. -/
abbrev HonestSidedRun (R : Runtime (liveGapSided α) N) (acts : List (Act (SeqOp α) N)) : Prop :=
  HonestRun (D := liveGapSided α) SidedOp.toSeq (fun s id => s.records.has id) R
    (acts.map (Act.map SidedOp.ofSeq))

/-- The ids that are inserted in the ancestry of a commit. -/
def insertedAt {D : Datatype} (toSeq : D.Op → SeqOp α) (d : Dag D.State D.Op) (x : ℕ) : Set ℕ :=
  inserted (eventsAt toSeq d x)

/-- Two executions of a run, with the production kernel and with the full kernel, in which the ids
have the chains `χ`. -/
structure SidedTwin (χ : ℕ → Chain) (R : Runtime (liveGapSided α) N)
    (S : Runtime (unifiedSided α) N) : Prop where
  /-- The stores have the same shape. -/
  shape : SameShape SidedOp.toSeq SidedOp.toSeq R S
  /-- The first runtime is sound. -/
  left : R.Sound
  /-- The second runtime is sound. -/
  right : S.Sound
  /-- Nothing was compacted in the first execution. -/
  epochs : R.epochs = []
  /-- Nothing was compacted in the second execution. -/
  epochs' : S.epochs = []
  /-- The inserted ids of a commit have chains. -/
  tree : ∀ x, S.dag.has x = true → SidedTree χ (insertedAt SidedOp.toSeq S.dag x)
  /-- The nodes of a commit are those of its inserted ids. -/
  policy : ∀ x c', S.dag.commits.get? x = some c' →
    PolicyState χ (insertedAt SidedOp.toSeq S.dag x) c'.state
  /-- The states of the first execution summarize those of the second. -/
  summary : ∀ x c c', R.dag.commits.get? x = some c → S.dag.commits.get? x = some c' →
    Summarizes χ c'.state c.state

namespace SidedTwin

variable {χ : ℕ → Chain} {R : Runtime (liveGapSided α) N} {S : Runtime (unifiedSided α) N}

section Heads

variable (h : SidedTwin χ R S) (i : Fin N)

include h

/-- The ids inserted in the ancestry of a head. -/
theorem tree_head : SidedTree χ (insertedAt SidedOp.toSeq S.dag (S.headId i)) :=
  h.tree _ (h.right.has_head i)

theorem policy_head :
    PolicyState χ (insertedAt SidedOp.toSeq S.dag (S.headId i)) (S.replicas i).head.state := by
  obtain ⟨c', hc', hstate⟩ := h.right.head i
  exact hstate ▸ h.policy _ c' hc'

theorem summary_head : Summarizes χ (S.replicas i).head.state (R.replicas i).head.state := by
  obtain ⟨c, hc, hstate⟩ := h.left.head i
  obtain ⟨c', hc', hstate'⟩ := h.right.head i
  rw [h.shape.headId] at hc
  exact hstate ▸ hstate' ▸ h.summary _ c c' hc hc'

/-- Heads show the same ids. -/
theorem readIds_eq : LiveGap.readIds (R.replicas i).head.state =
    UnifiedSided.readIds (S.replicas i).head.state :=
  (h.summary_head i).readIds_eq (h.tree_head i) (h.policy_head i)

end Heads

/-! ### Commits -/

section Commit

variable {i : Fin N} {op : SeqOp α}

/-- **Honest operations** are placed alike. -/
theorem exists_placed (h : SidedTwin χ R S)
    (hop : HonestOp SidedOp.toSeq (fun (s : LiveGap.State α) id => s.records.has id) R i
      (SidedOp.ofSeq op)) : ∃ placed,
      LiveGap.prepare (R.replicas i).head.state (SidedOp.ofSeq op) = .ok placed ∧
      UnifiedSided.prepare (S.replicas i).head.state (SidedOp.ofSeq op) = .ok placed := by
  cases op with
  | del id => exact ⟨.del id, rfl, rfl⟩
  | ins id el anchorId =>
    obtain ⟨hpos, hfresh, hseen, hanchor⟩ := hop.ins_spec h.left (SidedOp.toSeq_ofSeq _)
    rw [h.shape.allOps_eq] at hfresh
    rw [h.shape.eventsAt_eq, h.shape.headId] at hseen
    obtain ⟨p, hp, hp', -⟩ := (h.summary_head i).prepare (h.policy_head i) el
      (fun hid => hfresh (inserted_mono (EventStore.eventsAt_subset _ _) hid)) hpos hseen hanchor
    exact ⟨_, hp, hp'⟩

/-- **Honest operations** have the same effect on both heads. -/
theorem exists_applied (h : SidedTwin χ R S)
    (hop : HonestOp SidedOp.toSeq (fun (s : LiveGap.State α) id => s.records.has id) R i
      (SidedOp.ofSeq op)) : ∃ placed s u χ',
      LiveGap.prepare (R.replicas i).head.state (SidedOp.ofSeq op) = .ok placed ∧
      UnifiedSided.prepare (S.replicas i).head.state (SidedOp.ofSeq op) = .ok placed ∧
      placed.toSeq = op ∧ LiveGap.apply (R.replicas i).head.state placed = .ok s ∧
      UnifiedSided.apply (S.replicas i).head.state placed = .ok u ∧
      (∀ id ∈ inserted (allOps SidedOp.toSeq S.dag), χ' id = χ id) ∧
      SidedTree χ' (inserted (insert op (eventsAt SidedOp.toSeq S.dag (S.headId i)))) ∧
      PolicyState χ' (inserted (insert op (eventsAt SidedOp.toSeq S.dag (S.headId i)))) u ∧
      Summarizes χ' u s := by
  set E := eventsAt SidedOp.toSeq S.dag (S.headId i) with hE
  have htree : SidedTree χ (inserted E) := h.tree_head i
  have hpolicy : PolicyState χ (inserted E) (S.replicas i).head.state := h.policy_head i
  have hsummary := h.summary_head i
  cases op with
  | del id =>
    obtain ⟨u, s, hu, hs, hpolicy', hsummary'⟩ := hsummary.apply_del hpolicy id
    rw [inserted_insert_del]
    exact ⟨.del id, s, u, χ, rfl, rfl, rfl, hs, hu, fun _ _ => rfl, htree, hpolicy', hsummary'⟩
  | ins id el anchorId =>
    obtain ⟨hpos, hfresh, hseen, hanchor⟩ := hop.ins_spec h.left (SidedOp.toSeq_ofSeq _)
    rw [h.shape.allOps_eq] at hfresh
    rw [h.shape.eventsAt_eq, h.shape.headId, ← hE] at hseen
    have hsub : inserted E ⊆ inserted (allOps SidedOp.toSeq S.dag) :=
      inserted_mono (EventStore.eventsAt_subset _ _)
    have hid : id ∉ inserted E := fun hid => hfresh (hsub hid)
    obtain ⟨p, hp, hp', hparent, hplace⟩ :=
      hsummary.prepare hpolicy el hid hpos hseen hanchor
    -- The new id gets the chain of its place.
    set χ' := Function.update χ id
      (chainAt χ p.parentId ++ [⟨p.side, id - p.parentId.getD 0, id⟩]) with hχ'
    have hkeep (j : ℕ) (hj : j ≠ id) : χ' j = χ j := Function.update_of_ne hj _ _
    have hkeepE : ∀ j ∈ inserted E, χ' j = χ j := fun j hj => hkeep j fun heq => hid (heq ▸ hj)
    have hchain (r : Option ℕ) (hr : ∀ q, r = some q → q ∈ inserted E) :
        chainAt χ' r = chainAt χ r := by
      cases r with
      | none => rfl
      | some q => exact hkeepE q (hr q rfl)
    have hself : χ' id = chainAt χ' p.parentId ++ [⟨p.side, id - p.parentId.getD 0, id⟩] := by
      rw [hchain _ hparent]
      exact Function.update_self ..
    obtain ⟨u, s, hu, hs, hpolicy', hsummary'⟩ :=
      (hsummary.congr hpolicy hkeepE).insertAt (hpolicy.congr hkeepE) el hanchor hparent hplace hself
    rw [inserted_insert_ins]
    exact ⟨_, s, u, χ', hp, hp', rfl, hs, hu, fun j hj => hkeep j fun heq => hfresh (heq ▸ hj),
      htree.insert hid hparent p.lt, hpolicy', hsummary'⟩

/-- The store invariants after a step that adds one commit. -/
theorem of_push (h : SidedTwin χ R S) {χ' : ℕ → Chain} {R' : Runtime (liveGapSided α) N}
    {S' : Runtime (unifiedSided α) N} {parents : List ℕ} {opR opS : Option (Op (SidedOp α))}
    {s : LiveGap.State α} {u : UnifiedSided.State α}
    (hshape : SameShape SidedOp.toSeq SidedOp.toSeq R' S') (hleft : R'.Sound) (hright : S'.Sound)
    (hepochs : R'.epochs = []) (hepochs' : S'.epochs = [])
    (hR : R'.dag = R.dag.push parents opR s) (hS : S'.dag = S.dag.push parents opS u)
    (hkeep : ∀ id ∈ inserted (allOps SidedOp.toSeq S.dag), χ' id = χ id)
    (htree : SidedTree χ' (insertedAt SidedOp.toSeq S'.dag S.dag.nextId))
    (hpolicy : PolicyState χ' (insertedAt SidedOp.toSeq S'.dag S.dag.nextId) u)
    (hsummary : Summarizes χ' u s) : SidedTwin χ' R' S' := by
  have hsub (x : ℕ) : insertedAt SidedOp.toSeq S.dag x ⊆ inserted (allOps SidedOp.toSeq S.dag) :=
    inserted_mono (EventStore.eventsAt_subset _ _)
  have hold (x : ℕ) (hx : S.dag.has x = true) :
      insertedAt SidedOp.toSeq S'.dag x = insertedAt SidedOp.toSeq S.dag x := by
    rw [insertedAt, hS]
    exact congrArg inserted (eventsAt_push_of_has h.right.wf hx)
  refine ⟨hshape, hleft, hright, hepochs, hepochs', fun x hx => ?_, fun x c' hc' => ?_,
    fun x c c' hc hc' => ?_⟩
  · by_cases hxn : x = S.dag.nextId
    · rw [hxn]
      exact htree
    · have hx' : S.dag.has x = true := by
        rw [hS, Dag.has_push] at hx
        simpa [hxn] using hx
      rw [hold x hx']
      exact (h.tree x hx').congr fun id hid => hkeep id (hsub x hid)
  · rw [hS, Dag.get?_push] at hc'
    split_ifs at hc' with hxn
    · cases hc'
      rw [hxn]
      exact hpolicy
    · rw [hold x (Dag.has_iff.mpr ⟨c', hc'⟩)]
      exact (h.policy x c' hc').congr fun id hid => hkeep id (hsub x hid)
  · rw [hS, Dag.get?_push] at hc'
    rw [hR, Dag.get?_push, h.shape.nextId] at hc
    split_ifs at hc hc' with hxn
    · cases hc
      cases hc'
      exact hsummary
    · exact (h.summary x c c' hc hc').congr (h.policy x c' hc') fun id hid => hkeep id (hsub x hid)

/-- **Commits** of an honest operation keep the executions alike. -/
theorem commit (h : SidedTwin χ R S)
    (hop : HonestOp SidedOp.toSeq (fun (s : LiveGap.State α) id => s.records.has id) R i
      (SidedOp.ofSeq op)) :
    ∃ χ', SidedTwin χ' (R.step (.commit i (SidedOp.ofSeq op)))
      (S.step (.commit i (SidedOp.ofSeq op))) := by
  obtain ⟨placed, s, u, χ', hp, hp', hseq, hs, hu, hkeep, htree, hpolicy, hsummary⟩ :=
    h.exists_applied hop
  obtain ⟨fr, hcR⟩ := commit_eq h.left i (SidedOp.ofSeq op)
  obtain ⟨fr', hcS⟩ := commit_eq h.right i (SidedOp.ofSeq op)
  have hprepR : (liveGapSided α).prepared (R.replicas i).head.state (SidedOp.ofSeq op) =
      .ok placed := hp
  have hprepS : (unifiedSided α).prepared (S.replicas i).head.state (SidedOp.ofSeq op) =
      .ok placed := hp'
  rw [hprepR] at hcR
  rw [hprepS] at hcS
  simp only [bind, Except.bind, hs, hu, pure, Except.pure] at hcR hcS
  simp only [step, call, hcR, hcS]
  have hself : insertedAt SidedOp.toSeq (S.committed i placed u (fr' placed u)).dag S.dag.nextId =
      inserted (insert op (eventsAt SidedOp.toSeq S.dag (S.headId i))) := by
    rw [insertedAt, eventsAt_committed_self h.right, hseq]
  have hdag : (R.committed i placed s (fr placed s)).dag = R.dag.push [S.headId i]
      (some ⟨(R.replicas i).name, (R.replicas i).seq, placed⟩) s := by
    rw [← h.shape.headId]
    rfl
  exact ⟨χ', h.of_push (h.shape.committed i rfl s u _ _) (h.left.committed ..)
    (h.right.committed ..) h.epochs h.epochs' hdag rfl hkeep (hself ▸ htree) (hself ▸ hpolicy)
    hsummary⟩

end Commit

/-- **Synchronizations** keep the executions alike. -/
theorem sync (h : SidedTwin χ R S) (i j : Fin N) :
    SidedTwin χ (R.step (.sync i j)) (S.step (.sync i j)) := by
  rcases h.shape.step_sync h.left h.right i j with ⟨hr, hs⟩ | ⟨k, l, fr, fr', hr, hs⟩ |
    ⟨l, huniq, huniq', hr, hs⟩
  · rw [hr, hs]
    exact h
  · rw [hr, hs]
    exact ⟨h.shape.moveHead k l fr fr', h.left.moveHead k l fr, h.right.moveHead k l fr', h.epochs,
      h.epochs', h.tree, h.policy, h.summary⟩
  · have hreach := (huniq' l).mpr rfl
    have hal : S.dag.Reaches (S.headId i) l := (isMca_singleton_comm.mp hreach).common.2
    obtain ⟨c', hc'⟩ := Dag.has_iff.mp (Dag.has_of_reaches hal (h.right.has_head i))
    obtain ⟨c, hc⟩ := Dag.has_iff.mp ((h.shape.has_eq l).trans (Dag.has_iff.mpr ⟨c', hc'⟩))
    have hsub : insertedAt SidedOp.toSeq S.dag l ⊆ insertedAt SidedOp.toSeq S.dag (S.headId i) :=
      inserted_mono (opsOn_mono fun y hy => hal.trans hy)
    obtain ⟨m', hmerge, hpolicy, hsummary⟩ := Summarizes.merge3 hsub (h.policy l c' hc')
      (h.policy_head i) (h.policy_head j) (h.summary l c c' hc hc') (h.summary_head i)
      (h.summary_head j)
    have hm' : (unifiedSided α).merge3 c'.state (S.replicas i).head.state
        (S.replicas j).head.state = .ok m' := hmerge
    obtain ⟨fr, hr⟩ := hr _ _ (by rw [mergeOver_eq h.epochs hc]; rfl)
    obtain ⟨fr', hs⟩ := hs m' _ (by rw [mergeOver_eq h.epochs' hc', hm']; rfl)
    rw [hr, hs]
    have hself (e : ℕ) : insertedAt SidedOp.toSeq (S.merged i j m' e fr').dag S.dag.nextId =
        insertedAt SidedOp.toSeq S.dag (S.headId i) ∪
          insertedAt SidedOp.toSeq S.dag (S.headId j) := by
      rw [insertedAt, eventsAt_merged_self h.right, inserted_union]
      rfl
    have htree := (h.tree_head i).union (h.tree_head j)
    have hpush (e : ℕ) : (S.merged i j m' e fr').dag =
        S.dag.push [S.headId i, S.headId j] none m' := rfl
    have hpushR (m e) : (R.merged i j m e fr).dag =
        R.dag.push [S.headId i, S.headId j] none m := by
      rw [← h.shape.headId, ← h.shape.headId]
      rfl
    refine h.of_push (h.shape.merged i j _ m' _ _ fr fr') (h.left.merged ..) (h.right.merged ..)
      h.epochs h.epochs' (hpushR ..) (hpush _)
      (fun _ _ => rfl) ?_ ?_ hsummary
    · rw [hself]
      exact htree
    · rw [hself]
      exact hpolicy

/-- **Honest runs** keep the executions alike. -/
theorem run (h : SidedTwin χ R S) {acts : List (Act (SeqOp α) N)} (hacts : HonestSidedRun R acts) :
    ∃ χ', SidedTwin χ' (R.run (acts.map (Act.map SidedOp.ofSeq)))
      (S.run (acts.map (Act.map SidedOp.ofSeq))) := by
  induction acts generalizing χ R S with
  | nil => exact ⟨χ, h⟩
  | cons act acts ih =>
    cases act with
    | commit i op =>
      obtain ⟨hop, hrest⟩ := hacts
      obtain ⟨χ', h'⟩ := h.commit hop
      exact ih h' hrest
    | sync i j => exact ih (h.sync i j) hacts
    | gc => exact hacts.elim
    | compactStable i => exact hacts.elim

/-- New runtimes are alike. -/
theorem start (names : Fin N → String) : SidedTwin (fun _ => [])
    (Runtime.start (liveGapSided α) names) (Runtime.start (unifiedSided α) names) := by
  have hempty (x : ℕ) :
      insertedAt SidedOp.toSeq (Runtime.start (unifiedSided α) names).dag x = ∅ := by
    rw [insertedAt, eventsAt, opsOn_start]
    simp [inserted]
  refine ⟨SameShape.start names, Sound.start names, Sound.start names, rfl, rfl, fun x _ => ?_,
    fun x c' hc' => ?_, fun x c c' hc hc' => ?_⟩
  · rw [hempty]
    exact fun id hid => hid.elim
  · rw [get?_start] at hc'
    split_ifs at hc'
    cases hc'
    rw [hempty]
    exact PolicyState.init
  · rw [get?_start] at hc hc'
    split_ifs at hc hc'
    cases hc
    cases hc'
    exact Summarizes.init

end SidedTwin

/-- A run in which the successor in a gap is deleted on one side and another one is inserted into
the same gap on the other. -/
def deadSuccessorActs (a b : Fin N) : List (Act (SeqOp Char) N) :=
  [.commit a (.ins 1 'x' none), .commit a (.ins 2 'y' (some 1)), .sync a b, .commit b (.del 2),
    .commit b (.ins 3 'z' (some 1)), .commit a (.ins 4 'w' (some 1)), .sync a b,
    .commit a (.ins 5 'v' (some 1))]

end SalRuntime.Runtime
