import SalRuntime.Datatypes.SeqSpec
import SalRuntime.Runtime.Spec

/-!
# Every commit of the shared store stands for its events

For a datatype that implements event sets, the state of every commit of a runtime stands for the
operations in the ancestry of the commit: a commit applies an applicable operation to the events
of the head, and the unique maximal common ancestor of two heads has exactly the common commits in
its ancestry.

## Main definitions

* `Runtime.eventsAt` — the operations in the ancestry of a commit.
* `Runtime.EventStore` — the state of every commit stands for its events.

## Main results

* `Runtime.EventStore.commit`, `Runtime.EventStore.sync` — commits and synchronizations preserve
  the invariant, and an accepted merge never throws.
-/

namespace SalRuntime.Runtime

open Ancestry

variable {D : Datatype} {N : ℕ} {α : Type}

/-- The sequence operation a commit carries, as a set. -/
def opsAt (toSeq : D.Op → SeqOp α) (d : Dag D.State D.Op) (x : ℕ) : Set (SeqOp α) :=
  {o | ∃ op, d.opOf x = some op ∧ toSeq op.payload = o}

/-- The sequence operations in the ancestry of a commit. -/
def eventsAt (toSeq : D.Op → SeqOp α) (d : Dag D.State D.Op) (x : ℕ) : Set (SeqOp α) :=
  opsOn (opsAt toSeq d) {y | d.Reaches x y}

/-- All sequence operations of a store. -/
def allOps (toSeq : D.Op → SeqOp α) (d : Dag D.State D.Op) : Set (SeqOp α) :=
  opsOn (opsAt toSeq d) Set.univ

section Push

variable {toSeq : D.Op → SeqOp α} {d : Dag D.State D.Op} {parents : List ℕ}
  {op : Option (Op D.Op)} {state : D.State}

theorem opsAt_push (x : ℕ) : opsAt toSeq (d.push parents op state) x =
    if x = d.nextId then {o | ∃ p, op = some p ∧ toSeq p.payload = o} else opsAt toSeq d x := by
  simp only [opsAt, Dag.opOf, Dag.get?_push]
  split_ifs
  · rfl
  · rfl

theorem opsAt_eq_empty (hd : d.Wf) {x : ℕ} (hx : d.nextId ≤ x) : opsAt toSeq d x = ∅ := by
  ext o
  simp only [opsAt, Dag.opOf_eq_some_iff, Set.mem_ofPred_eq, Set.mem_empty_iff_false, iff_false]
  rintro ⟨_, ⟨c, hc, -⟩, -⟩
  exact absurd (hd.id_lt x c hc) (not_lt.mpr hx)

theorem eventsAt_push_of_has (hd : d.Wf) {x : ℕ} (hx : d.has x = true) :
    eventsAt toSeq (d.push parents op state) x = eventsAt toSeq d x := by
  ext o
  simp only [eventsAt, opsOn, Set.mem_ofPred_eq, hd.reaches_push_of_ne (hd.lt_of_has hx).ne]
  refine exists_congr fun y => and_congr_right fun hy => ?_
  rw [opsAt_push, if_neg (hd.lt_of_has (Dag.has_of_reaches hy hx)).ne]

theorem eventsAt_push_self (hd : d.Wf) (hp : ∀ p ∈ parents, d.has p = true) :
    eventsAt toSeq (d.push parents op state) d.nextId =
      {o | ∃ p, op = some p ∧ toSeq p.payload = o} ∪ {o | ∃ p ∈ parents, o ∈ eventsAt toSeq d p} := by
  ext o
  simp only [eventsAt, opsOn, Set.mem_ofPred_eq, hd.reaches_push_self hp, Set.mem_union]
  constructor
  · rintro ⟨y, rfl | ⟨p, hmem, hy⟩, ho⟩
    · rw [opsAt_push, if_pos rfl] at ho
      exact Or.inl ho
    · rw [opsAt_push, if_neg (hd.lt_of_has (Dag.has_of_reaches hy (hp p hmem))).ne] at ho
      exact Or.inr ⟨p, hmem, y, hy, ho⟩
  · rintro (ho | ⟨p, hmem, y, hy, ho⟩)
    · exact ⟨d.nextId, Or.inl rfl, by rwa [opsAt_push, if_pos rfl]⟩
    · refine ⟨y, Or.inr ⟨p, hmem, hy⟩, ?_⟩
      rwa [opsAt_push, if_neg (hd.lt_of_has (Dag.has_of_reaches hy (hp p hmem))).ne]

theorem allOps_push (hd : d.Wf) : allOps toSeq (d.push parents op state) =
    {o | ∃ p, op = some p ∧ toSeq p.payload = o} ∪ allOps toSeq d := by
  ext o
  simp only [allOps, opsOn, Set.mem_univ, true_and, Set.mem_ofPred_eq, Set.mem_union, opsAt_push]
  constructor
  · rintro ⟨y, ho⟩
    split_ifs at ho
    · exact Or.inl ho
    · exact Or.inr ⟨y, ho⟩
  · rintro (ho | ⟨y, ho⟩)
    · exact ⟨d.nextId, by rwa [if_pos rfl]⟩
    · have hne : y ≠ d.nextId := by
        rintro rfl
        rw [opsAt_eq_empty hd le_rfl] at ho
        exact ho
      exact ⟨y, by rwa [if_neg hne]⟩

end Push

theorem opsAt_start {toSeq : D.Op → SeqOp α} (names : Fin N → String) (x : ℕ) :
    opsAt toSeq (Runtime.start D names).dag x = ∅ := by
  ext o
  simp only [opsAt, Dag.opOf, get?_start, Set.mem_ofPred_eq, Set.mem_empty_iff_false, iff_false]
  rintro ⟨op, hop, -⟩
  split_ifs at hop
  · cases hop
  · cases hop

/-- A new runtime has no operations. -/
theorem opsOn_start {toSeq : D.Op → SeqOp α} (names : Fin N → String) (Z : Set ℕ) :
    opsOn (opsAt toSeq (Runtime.start D names).dag) Z = ∅ := by
  ext o
  simp [opsOn, opsAt_start]

section Steps

variable {toSeq : D.Op → SeqOp α} {rt : Runtime D N} (h : rt.Sound) (i j : Fin N) (op : D.Op)
  (state : D.State) (e : ℕ) (fr : Frontier)

include h

theorem eventsAt_committed_self : eventsAt toSeq (rt.committed i op state fr).dag rt.dag.nextId =
    insert (toSeq op) (eventsAt toSeq rt.dag (rt.headId i)) := by
  rw [committed, eventsAt_push_self h.wf (by simpa using h.has_head i)]
  ext o
  simp [eq_comm]

theorem eventsAt_committed_of_has {x : ℕ} (hx : rt.dag.has x = true) :
    eventsAt toSeq (rt.committed i op state fr).dag x = eventsAt toSeq rt.dag x :=
  eventsAt_push_of_has h.wf hx

theorem allOps_committed : allOps toSeq (rt.committed i op state fr).dag =
    insert (toSeq op) (allOps toSeq rt.dag) := by
  rw [committed, allOps_push h.wf]
  ext o
  simp [eq_comm]

omit h in
theorem has_committed {x : ℕ} : (rt.committed i op state fr).dag.has x = true ↔
    x = rt.dag.nextId ∨ rt.dag.has x = true := by
  simp [committed, Dag.has_push]

theorem eventsAt_merged_self : eventsAt toSeq (rt.merged i j state e fr).dag rt.dag.nextId =
    eventsAt toSeq rt.dag (rt.headId i) ∪ eventsAt toSeq rt.dag (rt.headId j) := by
  rw [Runtime.merged, moveHead_dag, moveHead_dag,
    eventsAt_push_self h.wf (by simpa using ⟨h.has_head i, h.has_head j⟩)]
  ext o
  simp

theorem eventsAt_merged_of_has {x : ℕ} (hx : rt.dag.has x = true) :
    eventsAt toSeq (rt.merged i j state e fr).dag x = eventsAt toSeq rt.dag x :=
  eventsAt_push_of_has h.wf hx

theorem opsAt_merged : opsAt toSeq (rt.merged i j state e fr).dag = opsAt toSeq rt.dag := by
  funext x
  rw [Runtime.merged, moveHead_dag, moveHead_dag, opsAt_push]
  split_ifs with hx
  · rw [hx, opsAt_eq_empty h.wf le_rfl]
    ext o
    simp
  · rfl

omit h in
theorem has_merged {x : ℕ} : (rt.merged i j state e fr).dag.has x = true ↔
    x = rt.dag.nextId ∨ rt.dag.has x = true := by
  simp [Runtime.merged, Dag.has_push]

end Steps

/-- Every commit of the store stands for its events. -/
structure EventStore (toSeq : D.Op → SeqOp α)
    (Rep : (ℕ → List ℕ) → (ℕ → α) → Set (SeqOp α) → D.State → Prop) (χ : ℕ → List ℕ) (ε : ℕ → α)
    (rt : Runtime D N) : Prop where
  /-- The runtime is sound. -/
  sound : rt.Sound
  /-- Nothing was compacted. -/
  epochs : rt.epochs = []
  /-- Chains and elements agree with the insertions of the store. -/
  births : Births χ ε (allOps toSeq rt.dag)
  /-- Every id is inserted by one commit. -/
  unique : UniqueInserts (opsAt toSeq rt.dag)
  /-- Deletions come after insertions. -/
  causal : ∀ x, rt.dag.has x = true →
    deleted (eventsAt toSeq rt.dag x) ⊆ inserted (eventsAt toSeq rt.dag x)
  /-- Insertions come after those of their anchors. -/
  anchored : ∀ x, rt.dag.has x = true → ∀ id el a, SeqOp.ins id el (some a) ∈
    eventsAt toSeq rt.dag x → a ∈ inserted (eventsAt toSeq rt.dag x)
  /-- The state of a commit stands for its events. -/
  rep : ∀ x c, rt.dag.commits.get? x = some c → Rep χ ε (eventsAt toSeq rt.dag x) c.state

namespace EventStore

variable {toSeq : D.Op → SeqOp α}
  {Rep : (ℕ → List ℕ) → (ℕ → α) → Set (SeqOp α) → D.State → Prop} {χ : ℕ → List ℕ} {ε : ℕ → α}
  {rt : Runtime D N}

theorem eventsAt_subset (d : Dag D.State D.Op) (x : ℕ) : eventsAt toSeq d x ⊆ allOps toSeq d :=
  opsOn_mono (Set.subset_univ _)

/-- The events of a head, and what its state stands for. -/
theorem rep_head (h : EventStore toSeq Rep χ ε rt) (i : Fin N) :
    Rep χ ε (eventsAt toSeq rt.dag (rt.headId i)) (rt.replicas i).head.state := by
  obtain ⟨c, hc, hstate⟩ := h.sound.head i
  exact hstate ▸ h.rep _ c hc

/-- The chain of an inserted id is inserted with it. -/
theorem mem_of_prefix (h : EventStore toSeq Rep χ ε rt) {x : ℕ} (hx : rt.dag.has x = true) {id : ℕ}
    (hid : id ∈ inserted (eventsAt toSeq rt.dag x)) {p : List ℕ} {a : ℕ}
    (hp : p ++ [a] <+: χ id) : a ∈ inserted (eventsAt toSeq rt.dag x) := by
  -- Induction on the id: the anchor of an id is smaller.
  induction id using Nat.strong_induction_on with
  | _ id ih =>
    obtain ⟨el, b, hmem⟩ := hid
    have hmemU := eventsAt_subset _ _ hmem
    rw [h.births.chain id el b hmemU] at hp
    rcases List.prefix_concat_iff.mp hp with heq | hpre
    · obtain ⟨-, rfl⟩ := List.append_inj' heq rfl |>.imp_right List.singleton_inj.mp
      exact ⟨el, b, hmem⟩
    · cases b with
      | none => simp [anchorChain] at hpre
      | some b => exact ih b (h.births.anchor_lt hmemU) (h.anchored x hx id el b hmem) hpre

/-- A new runtime, at the root, stands for no operation. -/
theorem start (himpl : ImplementsSeq D toSeq Rep) (names : Fin N → String) :
    EventStore toSeq Rep (fun _ => []) ε (Runtime.start D names) := by
  refine ⟨Sound.start names, rfl, ?_, ?_, ?_, ?_, ?_⟩
  · rw [allOps, opsOn_start]
    exact Births.empty
  · intro x y id hx
    rw [opsAt_start] at hx
    simp [inserted] at hx
  · intro x _
    rw [eventsAt, opsOn_start]
    simp [deleted]
  · intro x _ id el a hmem
    rw [eventsAt, opsOn_start] at hmem
    exact hmem.elim
  · intro x c hc
    rw [eventsAt, opsOn_start]
    rw [get?_start] at hc
    split_ifs at hc
    cases hc
    exact himpl.init

/-- **A commit** of an applicable operation, whose insertion is fresh in the store, succeeds and
preserves the invariant. -/
theorem commit (himpl : ImplementsSeq D toSeq Rep) (h : EventStore toSeq Rep χ ε rt) (i : Fin N)
    (op : D.Op) (happ : Applicable (eventsAt toSeq rt.dag (rt.headId i)) (toSeq op))
    (hfresh : ∀ id ∈ inserted {toSeq op}, id ∉ inserted (allOps toSeq rt.dag)) :
    ∃ state fr χ' ε', rt.commit i op = .ok (rt.committed i op state fr) ∧
      EventStore toSeq Rep χ' ε' (rt.committed i op state fr) := by
  set E := eventsAt toSeq rt.dag (rt.headId i) with hE
  set U := allOps toSeq rt.dag with hU
  have hhas := h.sound.has_head i
  -- The chains and elements, extended by the new insertion if there is one.
  obtain ⟨χ', ε', hbirths, hkeep⟩ : ∃ χ' ε', Births χ' ε' (insert (toSeq op) U) ∧
      ∀ id ∈ inserted U, χ id = χ' id ∧ ε id = ε' id := by
    cases hop : toSeq op with
    | ins id el anchorId =>
      rw [hop] at happ hfresh
      have hid : id ∉ inserted U := hfresh id ⟨el, anchorId, rfl⟩
      refine ⟨_, _, h.births.insert_ins hid happ.2.1 fun a ha => ?_, fun j hj => ?_⟩
      · exact ⟨inserted_mono (eventsAt_subset _ _) (happ.2.2 a ha).1.1, (happ.2.2 a ha).2⟩
      · have hne : j ≠ id := fun heq => hid (heq ▸ hj)
        rw [Function.update_of_ne hne, Function.update_of_ne hne]
        exact ⟨rfl, rfl⟩
    | del id => exact ⟨χ, ε, h.births.insert_del id, fun _ _ => ⟨rfl, rfl⟩⟩
  have hrep (x : ℕ) (c : Commit D.State D.Op) (hc : rt.dag.commits.get? x = some c) :
      Rep χ' ε' (eventsAt toSeq rt.dag x) c.state :=
    himpl.congr (fun id hid => hkeep id (inserted_mono (eventsAt_subset _ _) hid)) (h.rep x c hc)
  have hrepHead : Rep χ' ε' E (rt.replicas i).head.state := by
    obtain ⟨c, hc, hstate⟩ := h.sound.head i
    exact hstate ▸ hrep _ c hc
  obtain ⟨state, hprep, happly, hrep'⟩ := himpl.apply hbirths
    ((eventsAt_subset _ _).trans (Set.subset_insert _ _)) (h.causal _ hhas)
    (Set.mem_insert _ _) happ hrepHead
  obtain ⟨fr, hcommit⟩ := commit_eq h.sound i op
  have hself : eventsAt toSeq (rt.committed i op state (fr op state)).dag rt.dag.nextId =
      insert (toSeq op) E := eventsAt_committed_self h.sound ..
  have hold (x : ℕ) (hx : rt.dag.has x = true) :
      eventsAt toSeq (rt.committed i op state (fr op state)).dag x = eventsAt toSeq rt.dag x :=
    eventsAt_committed_of_has h.sound _ _ _ _ hx
  have hcases (x : ℕ) (hx : (rt.committed i op state (fr op state)).dag.has x = true) :
      x = rt.dag.nextId ∨ rt.dag.has x = true := (has_committed ..).mp hx
  refine ⟨state, fr op state, χ', ε', ?_, h.sound.committed i op state _, h.epochs, ?_, ?_, ?_, ?_,
    ?_⟩
  · rw [hcommit, hprep]
    simp only [bind, Except.bind, happly]
    rfl
  · rwa [allOps_committed h.sound]
  · -- The new commit is the only one that inserts its id.
    intro x y id hx hy
    have hnew : id ∈ inserted {toSeq op} → id ∉ inserted U := hfresh id
    have hsingle : ({o | ∃ p : Op D.Op, some ⟨(rt.replicas i).name, (rt.replicas i).seq, op⟩ =
        some p ∧ toSeq p.payload = o} : Set (SeqOp α)) = {toSeq op} := by
      ext o
      simp [eq_comm]
    have hall {z : ℕ} (hz : id ∈ inserted (opsAt toSeq rt.dag z)) : id ∈ inserted U :=
      mem_inserted_opsOn.mpr ⟨z, trivial, hz⟩
    simp only [committed, opsAt_push] at hx hy
    split_ifs at hx hy with hxn hyn hyn
    · rw [hxn, hyn]
    · exact absurd (hall hy) (hnew (hsingle ▸ hx))
    · exact absurd (hall hx) (hnew (hsingle ▸ hy))
    · exact h.unique x y id hx hy
  · intro x hx
    rcases hcases x hx with rfl | hx
    · rw [hself]
      cases hop : toSeq op with
      | ins id el anchorId =>
        rw [inserted_insert_ins, deleted_insert_ins]
        exact (h.causal _ hhas).trans (Set.subset_insert _ _)
      | del id =>
        rw [hop] at happ
        rw [inserted_insert_del, deleted_insert_del]
        exact Set.insert_subset happ.1 (h.causal _ hhas)
    · rw [hold x hx]
      exact h.causal x hx
  · intro x hx id el a hmem
    rcases hcases x hx with rfl | hx
    · rw [hself] at hmem ⊢
      rcases hmem with hmem | hmem
      · rw [← hmem] at happ ⊢
        rw [inserted_insert_ins]
        exact Or.inr (happ.2.2 a rfl).1.1
      · exact inserted_mono (Set.subset_insert _ _) (h.anchored _ hhas id el a hmem)
    · rw [hold x hx] at hmem ⊢
      exact h.anchored x hx id el a hmem
  · intro x c hc
    rw [committed, Dag.get?_push] at hc
    split_ifs at hc with hx
    · cases hc
      rw [hx, hself]
      exact hrep'
    · rw [hold x (Dag.has_iff.mpr ⟨c, hc⟩)]
      exact hrep x c hc

/-- Heads that move to heads preserve the invariant. -/
theorem moveHead (h : EventStore toSeq Rep χ ε rt) (i j : Fin N) (fr : Frontier) :
    EventStore toSeq Rep χ ε (rt.moveHead i (rt.replicas j).head fr) :=
  ⟨h.sound.moveHead i j fr, h.epochs, h.births, h.unique, h.causal, h.anchored, h.rep⟩

/-- The unique maximal common ancestor has exactly the common ancestors in its ancestry. -/
theorem reaches_lca_iff (h : rt.Sound) {a b l : ℕ}
    (hl : ∀ x, IsMca rt.dag.Par {a} b x ↔ x = l) (y : ℕ) :
    rt.dag.Reaches l y ↔ rt.dag.Reaches a y ∧ rt.dag.Reaches b y := by
  have hmca := (hl l).mpr rfl
  have hal : rt.dag.Reaches a l := (isMca_singleton_comm.mp hmca).common.2
  constructor
  · exact fun hy => ⟨hal.trans hy, hmca.common.2.trans hy⟩
  · rintro ⟨hay, hby⟩
    have hcom : CommonAncestor rt.dag.Par {a} b y := ⟨⟨a, rfl, hay⟩, hby⟩
    obtain ⟨m, hm, hmy⟩ := exists_isMca h.wf.par_lt hcom
    exact (hl m).mp hm ▸ hmy

/-- **A merge** over the unique maximal common ancestor succeeds, and stands for the union of the
events of the two heads. -/
theorem mergeOver (himpl : ImplementsSeq D toSeq Rep) (h : EventStore toSeq Rep χ ε rt)
    (i j : Fin N) {l : ℕ} (hl : ∀ x, IsMca rt.dag.Par {rt.headId i} (rt.headId j) x ↔ x = l) :
    ∃ m e, rt.mergeOver l (rt.replicas i).head (rt.replicas j).head = .ok (m, e) ∧
      Rep χ ε (eventsAt toSeq rt.dag (rt.headId i) ∪ eventsAt toSeq rt.dag (rt.headId j)) m := by
  obtain ⟨c, hc⟩ := Dag.has_iff.mp
    (Dag.has_of_reaches ((hl l).mpr rfl).common.2 (h.sound.has_head j))
  have hbase : eventsAt toSeq rt.dag l = opsOn (opsAt toSeq rt.dag)
      ({y | rt.dag.Reaches (rt.headId i) y} ∩ {y | rt.dag.Reaches (rt.headId j) y}) := by
    rw [eventsAt]
    congr 1
    ext y
    exact reaches_lca_iff h.sound hl y
  have hrepl := h.rep l c hc
  rw [hbase] at hrepl
  obtain ⟨m, hm, hrep⟩ := himpl.merge
    (mergeable_opsOn h.unique (h.causal _ (h.sound.has_head i)) (h.causal _ (h.sound.has_head j)))
    hrepl (h.rep_head i) (h.rep_head j)
  refine ⟨m, max (rt.epochAt (rt.headId i)) (rt.epochAt (rt.headId j)), ?_, hrep⟩
  rw [mergeOver_eq h.epochs hc, hm]
  rfl

/-- The runtime after a merge keeps the invariant. -/
theorem merged (h : EventStore toSeq Rep χ ε rt) (i j : Fin N) {m : D.State} (e : ℕ)
    (fr : Frontier) (hrep : Rep χ ε
      (eventsAt toSeq rt.dag (rt.headId i) ∪ eventsAt toSeq rt.dag (rt.headId j)) m) :
    EventStore toSeq Rep χ ε (rt.merged i j m e fr) := by
  have hself : eventsAt toSeq (rt.merged i j m e fr).dag rt.dag.nextId =
      eventsAt toSeq rt.dag (rt.headId i) ∪ eventsAt toSeq rt.dag (rt.headId j) :=
    eventsAt_merged_self h.sound ..
  have hold (x : ℕ) (hx : rt.dag.has x = true) :
      eventsAt toSeq (rt.merged i j m e fr).dag x = eventsAt toSeq rt.dag x :=
    eventsAt_merged_of_has h.sound _ _ _ _ _ hx
  have hcases (x : ℕ) (hx : (rt.merged i j m e fr).dag.has x = true) :
      x = rt.dag.nextId ∨ rt.dag.has x = true := (has_merged ..).mp hx
  have hopsAt : opsAt toSeq (rt.merged i j m e fr).dag = opsAt toSeq rt.dag :=
    opsAt_merged h.sound ..
  refine ⟨h.sound.merged i j m e fr, h.epochs, ?_, ?_, ?_, ?_, ?_⟩
  · rw [allOps, hopsAt]
    exact h.births
  · rw [hopsAt]
    exact h.unique
  · intro x hx
    rcases hcases x hx with rfl | hx
    · rw [hself, deleted_union, inserted_union]
      exact Set.union_subset_union (h.causal _ (h.sound.has_head i))
        (h.causal _ (h.sound.has_head j))
    · rw [hold x hx]
      exact h.causal x hx
  · intro x hx id el a hmem
    rcases hcases x hx with rfl | hx
    · rw [hself] at hmem ⊢
      rw [inserted_union]
      exact hmem.imp (h.anchored _ (h.sound.has_head i) id el a)
        (h.anchored _ (h.sound.has_head j) id el a)
    · rw [hold x hx] at hmem ⊢
      exact h.anchored x hx id el a hmem
  · intro x c hc
    rw [Runtime.merged, moveHead_dag, moveHead_dag, Dag.get?_push] at hc
    split_ifs at hc with hx
    · cases hc
      rw [hx, hself]
      exact hrep
    · rw [hold x (Dag.has_iff.mpr ⟨c, hc⟩)]
      exact h.rep x c hc

end EventStore

end SalRuntime.Runtime
