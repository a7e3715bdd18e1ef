import SalRuntime.Runtime.Runtime

/-!
# What the calls of the shared-store runtime do

One specification lemma for every call. They hold of every runtime whose store is well formed and
holds the heads; the recomputed frontiers are left unspecified, since no call reads them back.

## Main definitions

* `Runtime.Sound` — the store is well formed and holds every head with its state.
* `Runtime.moveHead`, `Runtime.committed`, `Runtime.merged` — the runtimes the calls return.

## Main results

* `Runtime.commit_eq` — a commit applies the operation and appends a commit.
* `Runtime.sync_of_reaches_left`, `Runtime.sync_of_reaches_right`, `Runtime.sync_of_mergeOver` —
  the branches of a synchronization.
-/

namespace SalRuntime.Runtime

variable {D : Datatype} {N : ℕ} {rt : Runtime D N}

/-- The id of the head of a replica. -/
def headId (rt : Runtime D N) (i : Fin N) : ℕ := (rt.replicas i).head.id

/-- The store is well formed and holds every head, with the state the replica sees. -/
structure Sound (rt : Runtime D N) : Prop where
  /-- The store is well formed. -/
  wf : rt.dag.Wf
  /-- Every head is in the store. -/
  head : ∀ i, ∃ c, rt.dag.commits.get? (rt.headId i) = some c ∧
    c.state = (rt.replicas i).head.state

theorem Sound.has_head (h : rt.Sound) (i : Fin N) : rt.dag.has (rt.headId i) = true := by
  obtain ⟨c, hc, -⟩ := h.head i
  exact Dag.has_iff.mpr ⟨c, hc⟩

/-! ### Moving a head -/

/-- A replica moved to a head. -/
def moveHead (rt : Runtime D N) (i : Fin N) (head : Commit D.State D.Op) (frontier : Frontier) :
    Runtime D N :=
  { rt with replicas := Function.update rt.replicas i { rt.replicas i with head, frontier } }

theorem setHead_eq {i : Fin N} {head : Commit D.State D.Op} (h : rt.dag.has head.id = true) :
    ∃ fr, rt.setHead i head = .ok (rt.moveHead i head fr) := by
  obtain ⟨fr, hfr, -⟩ := Dag.frontierOf_spec h
  exact ⟨fr, by rw [setHead, hfr]; rfl⟩

@[simp] theorem moveHead_dag (i : Fin N) (head : Commit D.State D.Op) (fr : Frontier) :
    (rt.moveHead i head fr).dag = rt.dag := rfl

@[simp] theorem moveHead_epochs (i : Fin N) (head : Commit D.State D.Op) (fr : Frontier) :
    (rt.moveHead i head fr).epochs = rt.epochs := rfl

@[simp] theorem moveHead_epochOf (i : Fin N) (head : Commit D.State D.Op) (fr : Frontier) :
    (rt.moveHead i head fr).epochOf = rt.epochOf := rfl

theorem head_moveHead (i : Fin N) (head : Commit D.State D.Op) (fr : Frontier) (k : Fin N) :
    ((rt.moveHead i head fr).replicas k).head =
      if k = i then head else (rt.replicas k).head := by
  simp only [moveHead, Function.update_apply]
  split_ifs <;> rfl

theorem seq_moveHead (i : Fin N) (head : Commit D.State D.Op) (fr : Frontier) (k : Fin N) :
    ((rt.moveHead i head fr).replicas k).seq = (rt.replicas k).seq := by
  simp only [moveHead, Function.update_apply]
  split_ifs with h
  · rw [h]
  · rfl

theorem name_moveHead (i : Fin N) (head : Commit D.State D.Op) (fr : Frontier) (k : Fin N) :
    ((rt.moveHead i head fr).replicas k).name = (rt.replicas k).name := by
  simp only [moveHead, Function.update_apply]
  split_ifs with h
  · rw [h]
  · rfl

/-! ### Commits -/

/-- The commit that the next operation of a replica creates. -/
def nextCommit (rt : Runtime D N) (i : Fin N) (op : D.Op) (state : D.State) :
    Commit D.State D.Op :=
  { id := rt.dag.nextId
    parents := [rt.headId i]
    op := some { replica := (rt.replicas i).name, seq := (rt.replicas i).seq, payload := op }
    state }

/-- The runtime after a replica has committed an operation. -/
def committed (rt : Runtime D N) (i : Fin N) (op : D.Op) (state : D.State) (fr : Frontier) :
    Runtime D N :=
  { rt with
    dag := rt.dag.push [rt.headId i]
      (some { replica := (rt.replicas i).name, seq := (rt.replicas i).seq, payload := op }) state
    epochOf := rt.epochOf.insert rt.dag.nextId (rt.epochAt (rt.headId i))
    replicas := Function.update rt.replicas i
      { rt.replicas i with
        head := rt.nextCommit i op state, seq := (rt.replicas i).seq + 1, frontier := fr } }

/-- **A commit** prepares and applies the operation, and appends a commit to the head. -/
theorem commit_eq (h : rt.Sound) (i : Fin N) (payload : D.Op) : ∃ fr : D.Op → D.State → Frontier,
    rt.commit i payload = do
      let op ← D.prepared (rt.replicas i).head.state payload
      let state ← D.apply (rt.replicas i).head.state op
      return rt.committed i op state (fr op state) := by
  have hpar : ∀ p ∈ [rt.headId i], rt.dag.has p = true := by simpa using h.has_head i
  have hfr (op : D.Op) (state : D.State) := Dag.frontierOf_spec (x := rt.dag.nextId)
    (d := (rt.committed i op state SortedMap.empty).dag) (by simp [committed, Dag.has_push])
  choose fr hfr _ using hfr
  refine ⟨fr, ?_⟩
  rw [commit]
  congr 1
  funext op
  congr 1
  funext state
  have hadd := Dag.add_eq_ok hpar (some ⟨(rt.replicas i).name, (rt.replicas i).seq, op⟩) state
  have hfront := hfr op state
  simp only [committed, headId] at hadd hfront
  simp only [hadd, hfront, bind, Except.bind, setHead, pure, Except.pure, committed, headId,
    nextCommit, Function.update_self, Function.update_idem]

/-! ### Synchronizations -/

/-- The runtime after a merge of two heads. -/
def merged (rt : Runtime D N) (i j : Fin N) (state : D.State) (epoch : ℕ) (fr : Frontier) :
    Runtime D N :=
  let c : Commit D.State D.Op :=
    { id := rt.dag.nextId, parents := [rt.headId i, rt.headId j], op := none, state }
  let rt' : Runtime D N := { rt with
    dag := rt.dag.push [rt.headId i, rt.headId j] none state
    epochOf := rt.epochOf.insert rt.dag.nextId epoch }
  (rt'.moveHead i c fr).moveHead j c fr

theorem sync_of_eq {i j : Fin N} (hij : rt.headId i = rt.headId j) : rt.sync i j = .ok rt := by
  simp only [headId] at hij
  simp only [sync, hij, if_true]
  rfl

section Sync

variable (h : rt.Sound) {i j : Fin N} (hne : rt.headId i ≠ rt.headId j)

include h hne

/-- The second head subsumes the first. -/
theorem sync_of_reaches_left (hr : rt.dag.Reaches (rt.headId j) (rt.headId i)) :
    ∃ fr, rt.sync i j = .ok (rt.moveHead i (rt.replicas j).head fr) := by
  obtain ⟨b, hb, hiff⟩ := Dag.isAncestor_eq (h.has_head i) (h.has_head j)
  rw [hiff.mpr hr] at hb
  obtain ⟨fr, hfr⟩ := setHead_eq (i := i) (h.has_head j)
  simp only [headId] at hne hb
  exact ⟨fr, by simp only [sync, if_neg hne, hb, hfr, bind, Except.bind, if_true, pure,
    Except.pure]⟩

/-- The first head subsumes the second. -/
theorem sync_of_reaches_right (hr : rt.dag.Reaches (rt.headId i) (rt.headId j)) :
    ∃ fr, rt.sync i j = .ok (rt.moveHead j (rt.replicas i).head fr) := by
  obtain ⟨b, hb, hiff⟩ := Dag.isAncestor_eq (h.has_head i) (h.has_head j)
  obtain ⟨b', hb', hiff'⟩ := Dag.isAncestor_eq (h.has_head j) (h.has_head i)
  have hfalse : b = false := by
    rw [← Bool.not_eq_true, hiff]
    exact fun hr' => hne (Ancestry.reaches_antisymm h.wf.par_lt hr hr')
  rw [hfalse] at hb
  rw [hiff'.mpr hr] at hb'
  obtain ⟨fr, hfr⟩ := setHead_eq (i := j) (h.has_head i)
  simp only [headId] at hne hb hb'
  exact ⟨fr, by simp only [sync, if_neg hne, hb, hb', hfr, bind, Except.bind, if_true, pure,
    Except.pure, Bool.false_eq_true, if_false]⟩

variable (hl : ¬ rt.dag.Reaches (rt.headId j) (rt.headId i))
  (hr : ¬ rt.dag.Reaches (rt.headId i) (rt.headId j))

include hl hr

/-- Neither head subsumes the other: the gate is asked for the base, and the heads are merged over
it. -/
theorem sync_of_mergeOver : ∃ fr : D.State → ℕ → Frontier, rt.sync i j = do
    let l ← rt.dag.lca (rt.headId i) (rt.headId j)
    let m ← rt.mergeOver l (rt.replicas i).head (rt.replicas j).head
    return rt.merged i j m.1 m.2 (fr m.1 m.2) := by
  obtain ⟨b, hb, hiff⟩ := Dag.isAncestor_eq (h.has_head i) (h.has_head j)
  obtain ⟨b', hb', hiff'⟩ := Dag.isAncestor_eq (h.has_head j) (h.has_head i)
  have hfalse : b = false := by rwa [← Bool.not_eq_true, hiff]
  have hfalse' : b' = false := by rwa [← Bool.not_eq_true, hiff']
  rw [hfalse] at hb
  rw [hfalse'] at hb'
  have hpar : ∀ p ∈ [rt.headId i, rt.headId j], rt.dag.has p = true := by
    simpa using ⟨h.has_head i, h.has_head j⟩
  have hfr (state : D.State) := Dag.frontierOf_spec (x := rt.dag.nextId)
    (d := rt.dag.push [rt.headId i, rt.headId j] none state) (by simp [Dag.has_push])
  choose fr hfr _ using hfr
  refine ⟨fun state _ => fr state, ?_⟩
  simp only [headId] at hne hb hb'
  simp only [sync, if_neg hne, hb, hb', bind, Except.bind, pure, Except.pure, Bool.false_eq_true,
    if_false]
  rw [headId, headId]
  cases rt.dag.lca (rt.replicas i).head.id (rt.replicas j).head.id with
  | error e => rfl
  | ok l =>
    simp only
    cases rt.mergeOver l (rt.replicas i).head (rt.replicas j).head with
    | error e => rfl
    | ok m =>
      have hadd := Dag.add_eq_ok hpar none m.1
      have hm := hfr m.1
      simp only [headId] at hadd hm
      simp only [hadd, setHead, hm, bind, Except.bind, pure, Except.pure]
      rfl

end Sync

/-- A new runtime holds the root only. -/
theorem get?_start (names : Fin N → String) (x : ℕ) : (start D names).dag.commits.get? x =
    if x = 0 then some (rootCommit D) else none :=
  Dag.get?_push ..

theorem Sound.start (names : Fin N → String) : (Runtime.start D names).Sound where
  wf := by
    refine Dag.Wf.push ⟨?_, ?_, ?_⟩ (by simp) <;> intro x c h <;> simp [Dag.empty] at h
  head _ := ⟨_, Dag.get?_push_self .., rfl⟩

/-- Without compactions a merge applies the datatype's merge to the states. -/
theorem mergeOver_eq (hepochs : rt.epochs = []) {l : ℕ} {c : Commit D.State D.Op}
    (hc : rt.dag.commits.get? l = some c) (a b : Commit D.State D.Op) :
    rt.mergeOver l a b = do
      let m ← D.merge3 c.state a.state b.state
      return (m, max (rt.epochAt a.id) (rt.epochAt b.id)) := by
  simp only [mergeOver, Dag.get_eq_ok.mpr hc, liftState, hepochs, List.drop_nil, List.take_nil,
    Datatype.remaps, bind, Except.bind]

/-! ### Soundness is preserved -/

namespace Sound

variable (h : rt.Sound)

include h

theorem committed (i : Fin N) (op : D.Op) (state : D.State) (fr : Frontier) :
    (rt.committed i op state fr).Sound := by
  have hpar : ∀ p ∈ [rt.headId i], rt.dag.has p = true := by simpa using h.has_head i
  refine ⟨h.wf.push hpar, fun j => ?_⟩
  rw [headId, Runtime.committed]
  simp only [Function.update_apply]
  split_ifs with hj
  · exact ⟨_, Dag.get?_push_self .., rfl⟩
  · obtain ⟨c, hc, hstate⟩ := h.head j
    exact ⟨c, (h.wf.get?_push_of_has (h.has_head j)).trans hc, hstate⟩

theorem moveHead (i j : Fin N) (fr : Frontier) :
    (rt.moveHead i (rt.replicas j).head fr).Sound := by
  refine ⟨h.wf, fun k => ?_⟩
  rw [headId, head_moveHead]
  split_ifs
  · exact h.head j
  · exact h.head k

theorem merged (i j : Fin N) (state : D.State) (e : ℕ) (fr : Frontier) :
    (rt.merged i j state e fr).Sound := by
  have hpar : ∀ p ∈ [rt.headId i, rt.headId j], rt.dag.has p = true := by
    simpa using ⟨h.has_head i, h.has_head j⟩
  have hold (k : Fin N) : ∃ c, (rt.dag.push [rt.headId i, rt.headId j] none state).commits.get?
      (rt.replicas k).head.id = some c ∧ c.state = (rt.replicas k).head.state := by
    obtain ⟨c, hc, hstate⟩ := h.head k
    exact ⟨c, (h.wf.get?_push_of_has (h.has_head k)).trans hc, hstate⟩
  refine ⟨h.wf.push hpar, fun k => ?_⟩
  rw [headId, Runtime.merged, head_moveHead, head_moveHead]
  split_ifs
  · exact ⟨_, Dag.get?_push_self .., rfl⟩
  · exact ⟨_, Dag.get?_push_self .., rfl⟩
  · exact hold k

end Sound

end SalRuntime.Runtime
