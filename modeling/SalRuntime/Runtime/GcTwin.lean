import Mathlib.Data.Fin.VecNotation
import Mathlib.Data.List.Induction
import SalRuntime.Datatypes.EmbedRGA
import SalRuntime.Runtime.Spec

/-!
# Commit collection is invisible

A run of the shared-store runtime is compared with the run that makes the same commits and
synchronizations but never collects. The collected store is the full one restricted to an upward
closed set of commits that holds the heads and the maximal common ancestors of every two heads.
Such a set is kept up by every later commit and merge, because the maximal common ancestors of a
new head are those of its parents.

## Main definitions

* `Runtime.Twin` — the collected runtime is a restriction of the full one.
* `Runtime.Verdict` — accepted, refused as a criss-cross, or failed.

## Main results

* `Runtime.Twin.commit`, `Runtime.Twin.sync` — commits and synchronizations preserve the
  restriction.
* `Runtime.Twin.gc` — so does a collection.
* `Runtime.gc_invisible` — heads, reads and verdicts do not depend on collections.
-/

namespace SalRuntime.Runtime

open Ancestry

variable {D : Datatype} {N : ℕ} {G F : Runtime D N} {K : Set ℕ}

/-- A commit with the parent links that leave `K` cut. -/
noncomputable def cut {σ π : Type} (K : Set ℕ) (c : Commit σ π) : Commit σ π :=
  { c with parents := open Classical in c.parents.filter (· ∈ K) }

theorem cut_eq_self {σ π : Type} {K : Set ℕ} {c : Commit σ π} (h : ∀ p ∈ c.parents, p ∈ K) :
    cut K c = c := by
  have hall : c.parents.filter (open Classical in (· ∈ K)) = c.parents :=
    List.filter_eq_self.mpr fun p hp => by simp [h p hp]
  rw [cut, hall]

theorem cut_congr {σ π : Type} {K K' : Set ℕ} {c : Commit σ π}
    (h : ∀ p ∈ c.parents, p ∈ K ↔ p ∈ K') : cut K c = cut K' c := by
  have hfilter : c.parents.filter (open Classical in (· ∈ K)) =
      c.parents.filter (open Classical in (· ∈ K')) :=
    List.filter_congr fun p hp => by simp [h p hp]
  rw [cut, cut, hfilter]

/-- The collected runtime `G` is the full runtime `F` restricted to `K`. -/
structure Twin (K : Set ℕ) (G F : Runtime D N) : Prop where
  /-- The full runtime is sound. -/
  sound : F.Sound
  /-- Ids are handed out alike. -/
  nextId : G.dag.nextId = F.dag.nextId
  /-- The collected store holds the commits of `K`, with the links inside `K`. -/
  commits : ∀ x c, G.dag.commits.get? x = some c ↔
    x ∈ K ∧ ∃ c', F.dag.commits.get? x = some c' ∧ c = cut K c'
  /-- `K` is upward closed. -/
  upward : ∀ x p, F.dag.Par x p → p ∈ K → x ∈ K
  /-- `K` holds the heads. -/
  head_mem : ∀ i, F.headId i ∈ K
  /-- `K` holds the maximal common ancestors of every two heads. -/
  mca_mem : ∀ i j m, IsMca F.dag.Par {F.headId i} (F.headId j) m → m ∈ K
  /-- Names, heads and sequence numbers agree. -/
  replicas : ∀ i, (G.replicas i).name = (F.replicas i).name ∧
    (G.replicas i).head = (F.replicas i).head ∧ (G.replicas i).seq = (F.replicas i).seq
  /-- Epochs agree. -/
  epochs : G.epochs = F.epochs
  /-- The epochs of the commits agree. -/
  epochOf : G.epochOf = F.epochOf

namespace Twin

section Transfer

variable (t : Twin K G F)

include t

theorem headId_eq (i : Fin N) : G.headId i = F.headId i := by
  rw [headId, headId, (t.replicas i).2.1]

theorem has_iff {x : ℕ} : G.dag.has x = true ↔ x ∈ K ∧ F.dag.has x = true := by
  simp only [Dag.has_iff, t.commits]
  exact ⟨fun ⟨_, hx, c, hc, _⟩ => ⟨hx, c, hc⟩, fun ⟨hx, c, hc⟩ => ⟨_, hx, c, hc, rfl⟩⟩

theorem has_head (i : Fin N) : G.dag.has (F.headId i) = true :=
  t.has_iff.mpr ⟨t.head_mem i, t.sound.has_head i⟩

/-- The parent relation of the collected store is that of the full one, restricted. -/
theorem par_eq : G.dag.Par = restrict F.dag.Par K := by
  funext x p
  refine propext ?_
  simp only [restrict, Dag.par_iff, t.commits, t.has_iff]
  constructor
  · rintro ⟨_, ⟨hx, c, hc, rfl⟩, hp, hpK, hhas⟩
    exact ⟨⟨c, hc, List.mem_of_mem_filter hp, hhas⟩, hpK⟩
  · rintro ⟨⟨c, hc, hp, hhas⟩, hpK⟩
    have hx : x ∈ K := t.upward x p (Dag.par_iff.mpr ⟨c, hc, hp, hhas⟩) hpK
    exact ⟨_, ⟨hx, c, hc, rfl⟩, by simpa [cut] using ⟨hp, hpK⟩, hpK, hhas⟩

theorem wf : G.dag.Wf where
  id_eq x c h := by
    obtain ⟨-, c', hc', rfl⟩ := (t.commits x c).mp h
    exact t.sound.wf.id_eq x c' hc'
  id_lt x c h := by
    obtain ⟨-, c', hc', rfl⟩ := (t.commits x c).mp h
    exact t.nextId ▸ t.sound.wf.id_lt x c' hc'
  parent_lt x c h p hp := by
    obtain ⟨-, c', hc', rfl⟩ := (t.commits x c).mp h
    exact t.sound.wf.parent_lt x c' hc' p (List.mem_of_mem_filter hp)

/-- Ancestry between heads is the same in both stores. -/
theorem reaches_iff (i j : Fin N) :
    G.dag.Reaches (F.headId i) (F.headId j) ↔ F.dag.Reaches (F.headId i) (F.headId j) := by
  rw [Dag.Reaches, t.par_eq]
  exact reaches_restrict_iff t.upward (t.head_mem j)

/-- Maximal common ancestors of heads are the same in both stores. -/
theorem isMca_iff (i j : Fin N) {m : ℕ} : IsMca G.dag.Par {F.headId i} (F.headId j) m ↔
    IsMca F.dag.Par {F.headId i} (F.headId j) m := by
  rw [t.par_eq]
  exact isMca_restrict_iff t.upward t.sound.wf.par_lt (t.head_mem j) (t.mca_mem i j)

theorem sound_left : G.Sound where
  wf := t.wf
  head i := by
    obtain ⟨c, hc, hstate⟩ := t.sound.head i
    rw [t.headId_eq i, (t.replicas i).2.1]
    exact ⟨_, (t.commits _ _).mpr ⟨t.head_mem i, c, hc, rfl⟩, hstate⟩

/-- The gate accepts the same base in both stores. -/
theorem lca_eq_ok_iff (i j : Fin N) {l : ℕ} : G.dag.lca (F.headId i) (F.headId j) = .ok l ↔
    F.dag.lca (F.headId i) (F.headId j) = .ok l := by
  rw [Dag.lca_eq_ok_iff (t.has_head i) (t.has_head j) t.wf,
    Dag.lca_eq_ok_iff (t.sound.has_head i) (t.sound.has_head j) t.sound.wf]
  simp only [t.isMca_iff]

/-- Merges over a commit of `K` are the same in both runtimes. -/
theorem mergeOver_eq {l : ℕ} (hl : l ∈ K) (hhas : F.dag.has l = true)
    (a b : Commit D.State D.Op) : G.mergeOver l a b = F.mergeOver l a b := by
  obtain ⟨c, hc⟩ := Dag.has_iff.mp hhas
  have hG := Dag.get_eq_ok.mpr ((t.commits l _).mpr ⟨hl, c, hc, rfl⟩)
  have hF := Dag.get_eq_ok.mpr hc
  simp only [mergeOver, hG, hF, epochAt, liftState, t.epochs, t.epochOf, bind, Except.bind, cut]

/-- Heads move to heads: the restriction stays. -/
theorem rehead {G' F' : Runtime D N} (hG : G'.dag = G.dag) (hF : F'.dag = F.dag)
    (hhead : ∀ i, ∃ j, (F'.replicas i).head = (F.replicas j).head)
    (hreplicas : ∀ i, (G'.replicas i).name = (F'.replicas i).name ∧
      (G'.replicas i).head = (F'.replicas i).head ∧ (G'.replicas i).seq = (F'.replicas i).seq)
    (hepochs : G'.epochs = F'.epochs) (hepochOf : G'.epochOf = F'.epochOf) : Twin K G' F' := by
  have hid (i : Fin N) : ∃ j, F'.headId i = F.headId j := by
    obtain ⟨j, hj⟩ := hhead i
    exact ⟨j, by rw [headId, hj]; rfl⟩
  refine ⟨⟨hF ▸ t.sound.wf, fun i => ?_⟩, by rw [hG, hF, t.nextId], by rw [hG, hF]; exact t.commits,
    by rw [hF]; exact t.upward, fun i => ?_, fun i j m hm => ?_, hreplicas, hepochs, hepochOf⟩
  · obtain ⟨j, hj⟩ := hhead i
    rw [headId, hF, hj]
    exact t.sound.head j
  · obtain ⟨j, hj⟩ := hid i
    exact hj ▸ t.head_mem j
  · obtain ⟨i', hi⟩ := hid i
    obtain ⟨j', hj⟩ := hid j
    rw [hF, hi, hj] at hm
    exact t.mca_mem i' j' m hm

/-- A new commit on some of the heads becomes a head: the restriction extends by it. -/
theorem push {G' F' : Runtime D N} {parents : List ℕ} {op : Option (Op D.Op)} {state : D.State}
    (hparents : ∀ p ∈ parents, ∃ i, p = F.headId i)
    (hG : G'.dag = G.dag.push parents op state) (hF : F'.dag = F.dag.push parents op state)
    (hhead : ∀ i, (F'.replicas i).head = (F.replicas i).head ∨
      (F'.replicas i).head = { id := F.dag.nextId, parents, op, state })
    (hreplicas : ∀ i, (G'.replicas i).name = (F'.replicas i).name ∧
      (G'.replicas i).head = (F'.replicas i).head ∧ (G'.replicas i).seq = (F'.replicas i).seq)
    (hepochs : G'.epochs = F'.epochs) (hepochOf : G'.epochOf = F'.epochOf) :
    Twin (Insert.insert F.dag.nextId K) G' F' := by
  have hwf := t.sound.wf
  have hhas : ∀ p ∈ parents, F.dag.has p = true := fun p hp => by
    obtain ⟨i, rfl⟩ := hparents p hp
    exact t.sound.has_head i
  have hid (i : Fin N) : F'.headId i = F.headId i ∨ F'.headId i = F.dag.nextId := by
    rcases hhead i with h | h
    · exact Or.inl (by rw [headId, h]; rfl)
    · exact Or.inr (by rw [headId, h])
  -- The maximal common ancestors of the new commit and an old head.
  have hfresh (j : Fin N) (m : ℕ)
      (hm : IsMca (F.dag.push parents op state).Par {F.dag.nextId} (F.headId j) m) : m ∈ K := by
    obtain ⟨p, hp, hpm⟩ := exists_isMca_parent_of_fresh
      (hwf.not_reaches_nextId (t.sound.has_head j)) hm
    obtain ⟨i, rfl⟩ := hparents p ((Dag.par_push_self hhas).mp hp)
    exact t.mca_mem i j m
      ((hwf.isMca_push_iff (t.sound.has_head i) (t.sound.has_head j)).mp hpm)
  refine ⟨⟨hF ▸ hwf.push hhas, fun i => ?_⟩, by simp [hG, hF, t.nextId], fun x c => ?_,
    fun x p hpar hp => ?_, fun i => ?_, fun i j m hm => ?_, hreplicas, hepochs, hepochOf⟩
  · rcases hhead i with h | h
    · obtain ⟨c, hc, hstate⟩ := t.sound.head i
      rw [headId, h, hF]
      exact ⟨c, (hwf.get?_push_of_has (t.sound.has_head i)).trans hc, hstate⟩
    · rw [headId, h, hF]
      exact ⟨_, Dag.get?_push_self .., rfl⟩
  · rw [hG, hF, Dag.get?_push, Dag.get?_push, t.nextId]
    by_cases hx : x = F.dag.nextId
    · have hcut : cut (Insert.insert F.dag.nextId K)
          ({ id := F.dag.nextId, parents, op, state } : Commit D.State D.Op) =
          { id := F.dag.nextId, parents, op, state } := cut_eq_self fun p hp => by
        obtain ⟨i, rfl⟩ := hparents p hp
        exact Or.inr (t.head_mem i)
      simp only [hx, if_true, Set.mem_insert_iff, true_or, true_and, Option.some.injEq,
        exists_eq_left', hcut]
      exact eq_comm
    · simp only [hx, if_false, Set.mem_insert_iff, false_or, t.commits]
      refine and_congr_right fun _ => exists_congr fun c' => and_congr_right fun hc' => ?_
      -- An old commit has no link to the new one.
      have hcut : cut (Insert.insert F.dag.nextId K) c' = cut K c' := cut_congr fun p hp => by
        have : p ≠ F.dag.nextId := ((hwf.parent_lt x c' hc' p hp).trans (hwf.id_lt x c' hc')).ne
        simp [this]
      rw [hcut]
  · by_cases hx : x = F.dag.nextId
    · exact Or.inl hx
    · rw [hF, hwf.par_push_of_ne hx] at hpar
      rcases hp with rfl | hp
      · exact absurd (hwf.lt_of_has (Dag.has_of_par hpar)) (lt_irrefl _)
      · exact Or.inr (t.upward x p hpar hp)
  · rcases hid i with h | h
    · exact h ▸ Or.inr (t.head_mem i)
    · exact Or.inl h
  · rw [hF] at hm
    rcases hid i with hi | hi <;> rcases hid j with hj | hj <;> rw [hi, hj] at hm
    · exact Or.inr (t.mca_mem i j m
        ((hwf.isMca_push_iff (t.sound.has_head i) (t.sound.has_head j)).mp hm))
    · exact Or.inr (hfresh i m (isMca_singleton_comm.mp hm))
    · exact Or.inr (hfresh j m hm)
    · exact Or.inl hm.eq_self

/-- **A collection** restricts further, and keeps what the restriction is about. -/
theorem gc : ∃ G' stats K', G.gc = .ok (G', stats) ∧ Twin K' G' F := by
  have hheads : ∀ h ∈ List.ofFn fun i => (G.replicas i).head.id, G.dag.has h = true := by
    intro h hh
    obtain ⟨i, rfl⟩ := (List.mem_ofFn' _ _).mp hh
    exact t.sound_left.has_head i
  obtain ⟨keep, hkeep, -, hmem⟩ := Dag.keepSet_spec t.wf hheads
  obtain ⟨d', stats, hrun, hnext, hget⟩ := Dag.runGc_spec hkeep
  have hseed (i : Fin N) : McaClosure G.dag.Par
      {h | h ∈ List.ofFn fun i => (G.replicas i).head.id} (F.headId i) :=
    .head (by rw [← t.headId_eq i]; exact (List.mem_ofFn' _ _).mpr ⟨i, rfl⟩)
  have hclosure {s : ℕ} (hs : McaClosure G.dag.Par
      {h | h ∈ List.ofFn fun i => (G.replicas i).head.id} s) : G.dag.has s = true := by
    induction hs with
    | head hh => exact hheads _ hh
    | mca _ _ hm _ hb => exact Dag.has_of_reaches hm.common.2 hb
  have hstored (x : ℕ) (hx : x ∈ keep) : G.dag.has x = true := by
    obtain ⟨s, hs, hxs⟩ := (hmem x).mp hx
    exact Dag.has_of_reaches_right hxs (hclosure hs)
  refine ⟨{ G with dag := d' }, stats, {x | x ∈ keep}, by rw [Runtime.gc, hrun]; rfl,
    t.sound, hnext.trans t.nextId, fun x c => ?_, fun x p hpar hp => ?_, fun i => ?_,
    fun i j m hm => ?_, t.replicas, t.epochs, t.epochOf⟩
  · rw [hget]
    split_ifs with hx
    · obtain ⟨hK, hF⟩ := t.has_iff.mp (hstored x hx)
      obtain ⟨c', hc'⟩ := Dag.has_iff.mp hF
      have hG := (t.commits x _).mpr ⟨hK, c', hc', rfl⟩
      have hcut : { cut K c' with parents := (cut K c').parents.filter (· ∈ keep) } =
          cut {x | x ∈ keep} c' := by
        simp only [cut, List.filter_filter]
        congr 1
        refine List.filter_congr fun p hp => ?_
        by_cases hk : p ∈ keep
        · simp [hk, (t.has_iff.mp (hstored p hk)).1]
        · simp [hk]
      simp only [hG, Option.map_some, Option.some.injEq, hcut, Set.mem_ofPred_eq, hx, true_and, hc',
        exists_eq_left']
      exact eq_comm
    · simp [hx]
  · obtain ⟨s, hs, hps⟩ := (hmem p).mp hp
    have hpK := (t.has_iff.mp (hstored p hp)).1
    have hG : G.dag.Par x p := by rw [t.par_eq]; exact ⟨hpar, hpK⟩
    exact (hmem x).mpr ⟨s, hs, .head hG hps⟩
  · exact (hmem _).mpr ⟨_, hseed i, .refl⟩
  · have hG := (t.isMca_iff i j).mpr hm
    exact (hmem m).mpr ⟨m, .mca (hseed i) (hseed j) hG, .refl⟩

end Transfer

end Twin

/-! ### Runs -/

/-- How a call ended: accepted, refused as a criss-cross, or failed for another reason. -/
inductive Verdict
  /-- The call returned. -/
  | accepted
  /-- The merge gate refused several maximal common ancestors. -/
  | crissCross
  /-- The call threw another error. -/
  | failed
  deriving DecidableEq, Repr

/-- The verdict of a call that threw. -/
def refusal : Failure → Verdict
  | .crissCross _ => .crissCross
  | _ => .failed

/-- The verdict of a call. -/
def verdict {α : Type} : Except Failure α → Verdict
  | .ok _ => .accepted
  | .error e => refusal e

/-- The two runtimes return runtimes in the restriction relation, or fail alike. -/
inductive TwinResult : Except Failure (Runtime D N) → Except Failure (Runtime D N) → Prop
  | ok {K : Set ℕ} {G' F' : Runtime D N} (h : Twin K G' F') : TwinResult (.ok G') (.ok F')
  | error {e e' : Failure} (h : refusal e = refusal e') : TwinResult (.error e) (.error e')

namespace Twin

variable (t : Twin K G F)

include t

theorem update_replicas {a b : Replica D} (hab : a.name = b.name ∧ a.head = b.head ∧ a.seq = b.seq)
    (i k : Fin N) : (Function.update G.replicas i a k).name = (Function.update F.replicas i b k).name ∧
      (Function.update G.replicas i a k).head = (Function.update F.replicas i b k).head ∧
      (Function.update G.replicas i a k).seq = (Function.update F.replicas i b k).seq := by
  simp only [Function.update_apply]
  split_ifs
  · exact hab
  · exact t.replicas k

/-- **Commits** preserve the restriction. -/
theorem commit (i : Fin N) (payload : D.Op) :
    TwinResult (G.commit i payload) (F.commit i payload) := by
  obtain ⟨frG, hG⟩ := commit_eq t.sound_left i payload
  obtain ⟨frF, hF⟩ := commit_eq t.sound i payload
  have hrep := t.replicas i
  rw [hG, hF, hrep.2.1]
  cases hop : D.prepared (F.replicas i).head.state payload with
  | error e => exact .error rfl
  | ok op =>
    cases hstate : D.apply (F.replicas i).head.state op with
    | error e =>
      simp only [bind, Except.bind, hstate]
      exact .error rfl
    | ok state =>
      simp only [bind, Except.bind, hstate]
      have hnext : G.nextCommit i op state = F.nextCommit i op state := by
        simp only [nextCommit, t.nextId, t.headId_eq, hrep.1, hrep.2.2]
      refine .ok (t.push ?_ ?_ rfl (fun k => ?_) (t.update_replicas ?_ i) t.epochs ?_)
      · simp
      · simp only [committed, t.headId_eq, hrep.1, hrep.2.2]
      · simp only [committed, Function.update_apply]
        split_ifs
        · exact Or.inr rfl
        · exact Or.inl rfl
      · exact ⟨hrep.1, hnext, by simp [hrep.2.2]⟩
      · simp only [committed, t.nextId, t.headId_eq, epochAt, t.epochOf]

theorem moveHead (i j : Fin N) (fr fr' : Frontier) :
    Twin K (G.moveHead i (G.replicas j).head fr) (F.moveHead i (F.replicas j).head fr') := by
  refine t.rehead rfl rfl (fun k => ?_) (t.update_replicas ?_ i) t.epochs t.epochOf
  · rw [head_moveHead]
    split_ifs
    · exact ⟨j, rfl⟩
    · exact ⟨k, rfl⟩
  · exact ⟨(t.replicas i).1, (t.replicas j).2.1, (t.replicas i).2.2⟩

theorem merged (i j : Fin N) (state : D.State) (epoch : ℕ) (fr fr' : Frontier) :
    Twin (Insert.insert F.dag.nextId K) (G.merged i j state epoch fr)
      (F.merged i j state epoch fr') := by
  refine t.push ?_ ?_ rfl (fun k => ?_) (fun k => ?_) t.epochs ?_
  · simp only [List.mem_cons, List.not_mem_nil, or_false]
    rintro p (rfl | rfl)
    · exact ⟨i, rfl⟩
    · exact ⟨j, rfl⟩
  · simp only [Runtime.merged, moveHead_dag, t.headId_eq]
  · simp only [Runtime.merged, head_moveHead]
    split_ifs
    · exact Or.inr rfl
    · exact Or.inr rfl
    · exact Or.inl rfl
  · simp only [Runtime.merged, head_moveHead, name_moveHead, seq_moveHead, t.headId_eq, t.nextId]
    refine ⟨(t.replicas k).1, ?_, (t.replicas k).2.2⟩
    split_ifs
    · rfl
    · rfl
    · exact (t.replicas k).2.1
  · simp only [Runtime.merged, moveHead_epochOf, t.nextId, t.epochOf]

/-- A refusal of the gate has the same kind in both stores. -/
theorem lca_error (i j : Fin N) {e e' : Failure}
    (h : G.dag.lca (F.headId i) (F.headId j) = .error e)
    (h' : F.dag.lca (F.headId i) (F.headId j) = .error e') :
    refusal e = refusal e' := by
  have hG := Dag.lca_eq_error (t.has_head i) (t.has_head j) t.wf h
  have hF := Dag.lca_eq_error (t.sound.has_head i) (t.sound.has_head j) t.sound.wf h'
  simp only [t.isMca_iff] at hG
  rcases hG with ⟨_, rfl, x, -, y, -, -, hx, -⟩ | ⟨⟨_, rfl⟩, hnone⟩
  · rcases hF with ⟨_, rfl, -⟩ | ⟨-, hnone⟩
    · rfl
    · exact absurd hx (hnone x)
  · rcases hF with ⟨_, rfl, x, -, y, -, -, hx, -⟩ | ⟨⟨_, rfl⟩, -⟩
    · exact absurd hx (hnone x)
    · rfl

/-- **Synchronizations** preserve the restriction. -/
theorem sync (i j : Fin N) : TwinResult (G.sync i j) (F.sync i j) := by
  by_cases hid : F.headId i = F.headId j
  · rw [sync_of_eq hid, sync_of_eq (by rwa [t.headId_eq, t.headId_eq])]
    exact .ok t
  have hidG : G.headId i ≠ G.headId j := by rwa [t.headId_eq, t.headId_eq]
  have hreach (k l : Fin N) : G.dag.Reaches (G.headId k) (G.headId l) ↔
      F.dag.Reaches (F.headId k) (F.headId l) := by
    rw [t.headId_eq, t.headId_eq]
    exact t.reaches_iff k l
  by_cases hl : F.dag.Reaches (F.headId j) (F.headId i)
  · obtain ⟨fr, hF⟩ := sync_of_reaches_left t.sound hid hl
    obtain ⟨fr', hG⟩ := sync_of_reaches_left t.sound_left hidG ((hreach j i).mpr hl)
    rw [hF, hG]
    exact .ok (t.moveHead i j _ _)
  by_cases hr : F.dag.Reaches (F.headId i) (F.headId j)
  · obtain ⟨fr, hF⟩ := sync_of_reaches_right t.sound hid hr
    obtain ⟨fr', hG⟩ := sync_of_reaches_right t.sound_left hidG ((hreach i j).mpr hr)
    rw [hF, hG]
    exact .ok (t.moveHead j i _ _)
  obtain ⟨frF, hF⟩ := sync_of_mergeOver t.sound hid hl hr
  obtain ⟨frG, hG⟩ := sync_of_mergeOver t.sound_left hidG (mt (hreach j i).mp hl)
    (mt (hreach i j).mp hr)
  rw [hF, hG, t.headId_eq, t.headId_eq]
  cases hlca : F.dag.lca (F.headId i) (F.headId j) with
  | error e' =>
    cases hlcaG : G.dag.lca (F.headId i) (F.headId j) with
    | error e => exact .error (t.lca_error i j hlcaG hlca)
    | ok l => simp [(t.lca_eq_ok_iff i j).mp hlcaG] at hlca
  | ok l =>
    rw [(t.lca_eq_ok_iff i j).mpr hlca]
    have hmca := ((Dag.lca_eq_ok_iff (t.sound.has_head i) (t.sound.has_head j)
      t.sound.wf).mp hlca l).mpr rfl
    have hhas := Dag.has_of_reaches hmca.common.2 (t.sound.has_head j)
    simp only [bind, Except.bind, t.mergeOver_eq (t.mca_mem i j l hmca) hhas, (t.replicas i).2.1,
      (t.replicas j).2.1]
    cases F.mergeOver l (F.replicas i).head (F.replicas j).head with
    | error e => exact .error rfl
    | ok m => exact .ok (t.merged i j m.1 m.2 _ _)

end Twin

theorem Twin.step (t : Twin K G F) (act : Act D.Op N) (h : TwinResult (G.call act) (F.call act)) :
    ∃ K', Twin K' (G.step act) (F.step act) := by
  simp only [Runtime.step]
  generalize G.call act = x at h ⊢
  generalize F.call act = y at h ⊢
  cases h with
  | ok h => exact ⟨_, h⟩
  | error h => exact ⟨K, t⟩

/-- A new runtime restricts to itself. -/
theorem twin_start (D : Datatype) (names : Fin N → String) :
    Twin Set.univ (start D names) (start D names) := by
  have hwf : (start D names).dag.Wf := by
    refine Dag.Wf.push ⟨?_, ?_, ?_⟩ (by simp) <;> intro x c h <;> simp [Dag.empty] at h
  refine ⟨⟨hwf, fun i => ⟨_, Dag.get?_push_self .., rfl⟩⟩, rfl, fun x c => ?_, fun _ _ _ _ => trivial,
    fun _ => trivial, fun _ _ _ _ => trivial, fun _ => ⟨rfl, rfl, rfl⟩, rfl, rfl⟩
  simp only [Set.mem_univ, true_and]
  constructor
  · exact fun h => ⟨c, h, (cut_eq_self fun _ _ => trivial).symm⟩
  · rintro ⟨c', h, rfl⟩
    rwa [cut_eq_self fun p _ => Set.mem_univ p]

/-- Is a call a collection? -/
def Act.isGc {ω : Type} : Act ω N → Bool
  | .gc => true
  | _ => false

/-- Is a call a compaction? -/
def Act.isCompaction {ω : Type} : Act ω N → Bool
  | .compactStable _ => true
  | _ => false

/-- **Every run** is a restriction of the run without its collections. -/
theorem twin_run (names : Fin N → String) (acts : List (Act D.Op N))
    (hacts : ∀ act ∈ acts, act.isCompaction = false) :
    ∃ K, Twin K ((start D names).run acts) ((start D names).run (acts.filter (!·.isGc))) := by
  induction acts using List.reverseRecOn with
  | nil => exact ⟨_, twin_start D names⟩
  | append_singleton acts act ih =>
    obtain ⟨K, t⟩ := ih fun a ha => hacts a (List.mem_append_left _ ha)
    have hact := hacts act (by simp)
    rw [List.filter_append, run, List.foldl_append, run, List.foldl_append]
    cases act with
    | commit i payload => exact t.step (.commit i payload) (t.commit i payload)
    | sync i j => exact t.step (.sync i j) (t.sync i j)
    | gc =>
      obtain ⟨G', stats, K', hgc, t'⟩ := t.gc
      refine ⟨K', ?_⟩
      have : ((start D names).run acts).step .gc = G' := by
        simp only [step, call, hgc, bind, Except.bind, pure, Except.pure]
      change Twin K' (((start D names).run acts).step .gc) _
      rw [this]
      exact t'
    | compactStable i => simp [Act.isCompaction] at hact

theorem TwinResult.verdict_eq {x y : Except Failure (Runtime D N)} (h : TwinResult x y) :
    verdict x = verdict y := by
  cases h with
  | ok => rfl
  | error h => exact h

/-- **Commit collection is invisible.** After any sequence of commits, synchronizations and
collections, every head and every read is that of the run without the collections, every next
commit or synchronization ends with the same verdict, and every maximal common ancestor of two
heads is still in the collected store, with its state. -/
theorem gc_invisible (D : Datatype) (names : Fin N → String) (acts : List (Act D.Op N))
    (hacts : ∀ act ∈ acts, act.isCompaction = false) :
    let G := (start D names).run acts
    let F := (start D names).run (acts.filter (!·.isGc))
    (∀ i, (G.replicas i).head = (F.replicas i).head ∧ G.read i = F.read i) ∧
      (∀ i j, verdict (G.sync i j) = verdict (F.sync i j)) ∧
      (∀ i payload, verdict (G.commit i payload) = verdict (F.commit i payload)) ∧
      verdict G.gc = .accepted ∧
      ∀ i j m, IsMca F.dag.Par {F.headId i} (F.headId j) m →
        ∃ c c', G.dag.commits.get? m = some c ∧ F.dag.commits.get? m = some c' ∧
          c.state = c'.state := by
  intro G F
  obtain ⟨K, t⟩ := twin_run names acts hacts
  refine ⟨fun i => ⟨(t.replicas i).2.1, ?_⟩, fun i j => (t.sync i j).verdict_eq,
    fun i payload => (t.commit i payload).verdict_eq, ?_, fun i j m hm => ?_⟩
  · rw [read, read, (t.replicas i).2.1]
  · obtain ⟨G', stats, K', hgc, -⟩ := t.gc
    rw [hgc]
    rfl
  · obtain ⟨c, hc⟩ := Dag.has_iff.mp (Dag.has_of_reaches hm.common.2 (t.sound.has_head j))
    exact ⟨_, c, (t.commits m _).mpr ⟨t.mca_mem i j m hm, c, hc, rfl⟩, hc, rfl⟩

/-- A run with a collection before a merge over a common ancestor. -/
def collectingActs (a b : Fin N) : List (Act (SeqOp Char) N) :=
  [.commit a (.ins 1 'x' none), .sync a b, .commit a (.ins 2 'y' (some 1)),
    .commit b (.ins 3 'z' (some 1)), .gc, .sync a b]

/-- The merge after the collection reads as without it. -/
theorem gc_invisible_collecting :
    ((start (embedRGA Char) !["a", "b"]).run (collectingActs 0 1)).read 0 =
      ((start (embedRGA Char) !["a", "b"]).run ((collectingActs 0 1).filter (!·.isGc))).read 0 :=
  ((gc_invisible (embedRGA Char) !["a", "b"] (collectingActs 0 1) (by decide)).1 0).2

end SalRuntime.Runtime
