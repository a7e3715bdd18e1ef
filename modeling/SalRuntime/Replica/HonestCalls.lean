import SalRuntime.Replica.Adoption
import SalRuntime.Replica.Authored
import SalRuntime.Replica.BatchCommits
import SalRuntime.Replica.VirtualBases

/-!
# Honest calls of a replica

A replica whose states stand for the operations in the ancestry of their commits commits an honest
operation, or merges with a commit that it holds. The states stand for the operations afterwards, and
the head has seen what it should: the operation besides, or the operations of both sides. A merge never
fails, whatever the two commits have in common.

## Main definitions

* `Replica.held`, `Replica.Distinct` — the content ids that a replica holds, each by one commit.
* `Replica.Moved` — a call has added content ids and moved the head.
* `Replica.preparedOps` — the operations that a batch commit makes.
* `Replica.MergedWith` — the head was merged with a content id.

## Main results

* `Replica.Stands.filed` — filing a commit whose state stands for its operations.
* `Replica.Stands.exec_author` — an operation of the replica's own.
* `Replica.Stands.exec_mergeWithGid` — a merge with a held commit.
-/

namespace SalRuntime

open Ancestry Replicated

variable {D : Datatype} {γ κ ι : Type} [LinearOrder γ] {H : ContentHash D.Op D.Print γ}
  {M : D.replicated.Meaning κ ι} {c : κ} {K : Set γ} {r : Replica D γ}

namespace Replica

/-- The content ids that a replica holds. -/
def held (r : Replica D γ) : Set γ := {g | ∃ x, r.gid.get? x = some g}

/-- Every content id is held by one commit. -/
def Distinct (r : Replica D γ) : Prop :=
  ∀ x y g, r.gid.get? x = some g → r.gid.get? y = some g → x = y

/-- The call has added the content ids `G` and `n` operations of the replica's own, and the head is `g`. -/
structure Moved (G : Set γ) (g : γ) (n : ℕ) (r r' : Replica D γ) : Prop where
  /-- The held content ids. -/
  held : r'.held = r.held ∪ G
  /-- The head. -/
  headGid : r'.headGid = g
  /-- The name. -/
  name : r'.name = r.name
  /-- The next sequence number. -/
  seq : r'.seq = r.seq + n

/-! ### Stores -/

theorem Indexed.held_filed (h : Indexed H r) (parents : List ℕ) (op : Option (Op (Payload D.Op)))
    (state : D.State) (key : EpochKey γ) (g : γ) :
    (r.filed parents op state key g).held = r.held ∪ {g} := by
  ext k
  simp only [held, get?_gid_filed, Set.mem_ofPred_eq, Set.mem_union, Set.mem_singleton_iff]
  constructor
  · rintro ⟨x, hx⟩
    split_ifs at hx with heq
    · exact Or.inr (Option.some.inj hx).symm
    · exact Or.inl ⟨x, hx⟩
  · rintro (⟨x, hx⟩ | rfl)
    · exact ⟨x, by rw [if_neg (h.wf.lt_of_has (h.stored x k hx)).ne, hx]⟩
    · exact ⟨r.dag.nextId, if_pos rfl⟩

@[simp] theorem headGid_filed {parents : List ℕ} {op : Option (Op (Payload D.Op))} {state : D.State}
    {key : EpochKey γ} {g : γ} {frontier : Frontier} :
    ((r.filed parents op state key g).headedAt r.dag.nextId frontier).headGid = g := by
  show ((r.gid.insert r.dag.nextId g).get? r.dag.nextId).getD r.rootGid = g
  rw [SortedMap.get?_insert_self]
  rfl

theorem Distinct.filed (h : r.Distinct) {parents : List ℕ} {op : Option (Op (Payload D.Op))}
    {state : D.State} {key : EpochKey γ} {g : γ} (hnew : g ∉ r.held) :
    (r.filed parents op state key g).Distinct := by
  intro x y k hx hy
  rw [get?_gid_filed] at hx hy
  split_ifs at hx hy with hx' hy' hy'
  · rw [hx', hy']
  · cases hx
    exact absurd ⟨y, hy⟩ hnew
  · cases hy
    exact absurd ⟨x, hx⟩ hnew
  · exact h x y k hx hy

theorem Indexed.mem_held (h : Indexed H r) {g : γ} : g ∈ r.held ↔ r.byGid.has g = true := by
  rw [SortedMap.has_iff]
  constructor
  · rintro ⟨x, hx⟩
    exact SortedMap.has_iff.mp (h.listed x g hx)
  · rintro ⟨x, hx⟩
    exact ⟨x, h.found g x hx⟩

theorem Indexed.headGid_mem (h : Indexed H r) : r.headGid ∈ r.held := ⟨_, h.gid_head⟩

namespace Stands

/-- What is known may grow. -/
theorem mono (h : r.Stands H M c K) (hK : KnownHistory H M c K) {c' : κ} {K' : Set γ} (hsub : K ⊆ K')
    (hkeep : ∀ {A s}, A ⊆ carried (opSet H.opsOf) K → M.Rep c A s → M.Rep c' A s) :
    r.Stands H M c' K' where
  indexed := h.indexed
  known x g hg := hsub (h.known x g hg)
  rep x cm g hcm hg := hkeep (hK.opsBelow_subset (h.known x g hg)) (h.rep x cm g hcm hg)
  single := h.single
  root := h.root
  epoch := h.epoch
  first := h.first
  acks := h.acks

/-- What is not part of the store does not matter. -/
theorem congr (h : r.Stands H M c K) {r' : Replica D γ} (hindexed : Indexed H r')
    (hdag : r'.dag = r.dag) (hgid : r'.gid = r.gid) (hepochOf : r'.epochOf = r.epochOf)
    (hepochs : r'.epochDag = r.epochDag) (hacks : r'.fetchAcks = r.fetchAcks) :
    r'.Stands H M c K where
  indexed := hindexed
  known := by
    rw [hgid]
    exact h.known
  rep := by
    rw [hdag, hgid]
    exact h.rep
  single := by
    rw [hgid]
    exact h.single
  root := by
    rw [hgid]
    exact h.root
  epoch x := by
    rw [epochAt, hepochOf]
    exact h.epoch x
  first := by
    rw [hepochs]
    exact h.first
  acks := by
    rw [hacks]
    exact h.acks

variable (h : r.Stands H M c K)

include h

theorem headedAt {id : ℕ} (hid : r.dag.has id = true) (frontier : Frontier) :
    (r.headedAt id frontier).Stands H M c K :=
  h.congr (h.indexed.headedAt hid frontier) rfl rfl rfl rfl rfl

theorem mem_known {g : γ} (hg : g ∈ r.held) : g ∈ K :=
  let ⟨x, hx⟩ := hg
  h.known x g hx

/-- A held content id is that of a commit. -/
theorem exists_commit {g : γ} (hg : g ∈ r.held) : ∃ x cm, r.byGid.get? g = some x ∧
    r.gid.get? x = some g ∧ r.dag.commits.get? x = some cm ∧ M.Rep c (H.opsBelow g) cm.state := by
  obtain ⟨x, hx⟩ := SortedMap.has_iff.mp (h.indexed.mem_held.mp hg)
  have hgid := h.indexed.found g x hx
  obtain ⟨cm, hcm⟩ := Dag.has_iff.mp (h.indexed.stored x g hgid)
  exact ⟨x, cm, hx, hgid, hcm, h.rep x cm g hcm hgid⟩

theorem exists_headState :
    ∃ s, r.headState = .ok s ∧ M.Rep c (H.opsBelow r.headGid) s := by
  obtain ⟨cm, hcm⟩ := Dag.has_iff.mp h.indexed.head
  refine ⟨cm.state, ?_, h.rep _ cm _ hcm h.indexed.gid_head⟩
  rw [headState, Dag.get_eq_ok.mpr hcm]
  rfl

theorem root_mem_held : H.digest .root ∈ r.held :=
  h.indexed.mem_held.mpr (h.indexed.rootGid ▸ h.indexed.root)

/-- Everything held has the root in its ancestry. -/
theorem reaches_root {g : γ} (hg : g ∈ r.held) : H.Reaches g (H.digest .root) := by
  obtain ⟨x, hx⟩ := hg
  obtain ⟨y, hxy, hy⟩ := h.indexed.reaches_root (h.indexed.stored x g hx)
  obtain ⟨k, hk, hr⟩ := h.indexed.reaches_gid hxy hx
  rw [hy, Option.some.injEq] at hk
  exact h.indexed.rootGid ▸ hk ▸ hr

/-- **Filing a commit** whose state stands for its operations. -/
theorem filed {parents : List ℕ} {op : Option (Op (Payload D.Op))} {state : D.State}
    {pre : Preimage D.Op D.Print γ} (hp : ∀ p ∈ parents, r.dag.has p = true)
    (hpre : r.Hashes { id := r.dag.nextId, parents, op, state } pre) (hK : H.digest pre ∈ K)
    (hroot : pre ≠ .root) (hsingle : pre.ops ≠ [] → H.digest pre ∉ r.held)
    (hrep : M.Rep c (H.opsBelow (H.digest pre)) state) :
    (r.filed parents op state EPOCH0 (H.digest pre)).Stands H M c K where
  indexed := h.indexed.filed hp hpre
  known x g hg := by
    rw [get?_gid_filed] at hg
    split_ifs at hg
    · exact Option.some.inj hg ▸ hK
    · exact h.known x g hg
  rep x cm g hcm hg := by
    simp only [Replica.filed, Dag.get?_push] at hcm
    rw [get?_gid_filed] at hg
    split_ifs at hcm hg
    · cases hcm
      cases hg
      exact hrep
    · exact h.rep x cm g hcm hg
  single x y g hx hy hops := by
    rw [get?_gid_filed] at hx hy
    split_ifs at hx hy with hx' hy' hy'
    · rw [hx', hy']
    · cases hx
      exact absurd ⟨y, hy⟩ (hsingle (ContentHash.opsOf_digest H pre ▸ hops))
    · cases hy
      exact absurd ⟨x, hx⟩ (hsingle (ContentHash.opsOf_digest H pre ▸ hops))
    · exact h.single x y g hx hy hops
  root x hx := by
    rw [get?_gid_filed] at hx
    split_ifs at hx
    · exact absurd (H.injective (Option.some.inj hx)) hroot
    · exact h.root x hx
  epoch x := by
    rw [epochAt, Replica.filed, SortedMap.get?_insert]
    split_ifs
    · rfl
    · exact h.epoch x
  first := h.first
  acks := h.acks

end Stands

/-- **A new replica**, with any roster. -/
theorem stands_create (hroot : H.digest .root ∈ K) (name : String) (names : List String) :
    ({ create D H name with registered := names } : Replica D γ).Stands H M c K := by
  have hindexed : Indexed H ({ create D H name with registered := names } : Replica D γ) :=
    (indexed_create name).congr rfl rfl rfl rfl rfl rfl rfl (indexed_create (H := H) name).head
  have hgid (x : ℕ) (g : γ) : (create D H name).gid.get? x = some g ↔ x = 0 ∧ g = H.digest .root := by
    simp only [create, SortedMap.get?_insert]
    split_ifs with hx
    · simp [hx, eq_comm]
    · simp [hx]
  refine ⟨hindexed, fun x g hg => ?_, fun x cm g hcm hg => ?_, fun x y g hx hy _ => ?_,
    fun x hx => ((hgid x _).mp hx).1, fun x => ?_, rfl, fun peer key hkey => ?_⟩
  · rw [((hgid x g).mp hg).2]
    exact hroot
  · obtain ⟨rfl, rfl⟩ := (hgid x g).mp hg
    rw [ContentHash.opsBelow_root]
    cases hcm
    exact M.init
  · rw [((hgid x g).mp hx).1, ((hgid y g).mp hy).1]
  · simp only [epochAt, create, SortedMap.get?_insert]
    split_ifs
    · rfl
    · rfl
  · cases hkey

/-! ### Local operations -/

/-- The content id of the next operation of a replica's own. -/
def ownId (H : ContentHash D.Op D.Print γ) (r : Replica D γ) (payload : Payload D.Op) : γ :=
  opId H r.headGid ⟨r.name, r.seq, payload⟩

/-- **An operation of its own**, if it is known: the head has it besides. -/
theorem Stands.exec_author (h : r.Stands H M c K) {payload : Payload D.Op} {state : D.State}
    (hK : r.ownId H payload ∈ K) (hnew : r.ownId H payload ∉ r.held)
    (hrep : M.Rep c (H.opsBelow (r.ownId H payload)) state) :
    ∃ r', Effect.exec (author H payload state) r = (.ok (r.ownId H payload), r') ∧
      r'.Stands H M c K ∧ Moved {r.ownId H payload} (r.ownId H payload) 1 r r' ∧
      (r.Distinct → r'.Distinct) := by
  set r₁ : Replica D γ := { r with seq := r.seq + 1 }
  set op : Op (Payload D.Op) := ⟨r.name, r.seq, payload⟩
  have h₁ : r₁.Stands H M c K :=
    h.congr (h.indexed.congr rfl rfl rfl rfl rfl rfl rfl h.indexed.head) rfl rfl rfl rfl rfl
  obtain ⟨frontier, hexec⟩ := h.indexed.sound.exec_author h.indexed.gid_head payload state
  have hkey : r.epochKey = EPOCH0 := h.epoch _
  rw [hkey] at hexec
  have hp : ∀ p ∈ [r.headId], r₁.dag.has p = true := by simpa using h.indexed.head
  have hpg : r₁.gid.get? r.headId = some r.headGid := h.indexed.gid_head
  have hpre : r₁.Hashes ⟨r₁.dag.nextId, [r.headId], some op, state⟩
      (.authored [r.headGid] op.replica op.seq op.payload) := .authored rfl hpg rfl
  have hfiled := h₁.filed hp hpre hK (by simp) (fun _ => hnew) hrep
  have hheld := h₁.indexed.held_filed [r.headId] (some op) state EPOCH0 (r.ownId H payload)
  have hdist (hr : r.Distinct) :
      (r₁.filed [r.headId] (some op) state EPOCH0 (r.ownId H payload)).Distinct := by
    have hr₁ : r₁.Distinct := hr
    exact hr₁.filed hnew
  exact ⟨_, hexec, hfiled.headedAt has_filed_self frontier, ⟨hheld, headGid_filed, rfl, rfl⟩, hdist⟩

/-- The operations that a batch commit makes of a list. -/
def preparedOps (D : Datatype) (s : D.State) : List D.Op → Except Failure (List D.Op)
  | [] => .ok []
  | [op] => (D.prepared s op).map fun p => [p]
  | ops => if D.needsPrepare then (prepareEach D s ops).map Prod.fst else .ok ops

theorem preparedOps_cons_cons (s : D.State) (op op' : D.Op) (ops : List D.Op) :
    preparedOps D s (op :: op' :: ops) =
      if D.needsPrepare then (prepareEach D s (op :: op' :: ops)).map Prod.fst
      else .ok (op :: op' :: ops) := rfl

theorem exec_commitBatch_singleton (op : D.Op) (r : Replica D γ) :
    Effect.exec (commitBatch H [op]) r = Effect.exec (commit H op) r := by
  rw [commitBatch, Effect.exec_bind_ok (Effect.exec_get r)]

/-- **A batch** whose operations cannot be prepared changes nothing. -/
theorem exec_commitBatch_error {s : D.State} (hs : r.headState = .ok s) {ops : List D.Op} {e : Failure}
    (he : preparedOps D s ops = .error e) :
    Effect.exec (commitBatch H ops) r = (.error e, r) := by
  match ops, he with
  | [op], he =>
    have hcommit := exec_commit (H := H) hs op
    rw [preparedOps] at he
    cases hp : D.prepared s op with
    | error e' =>
      rw [hp] at he hcommit
      cases he
      rw [exec_commitBatch_singleton, hcommit]
    | ok p =>
      rw [hp] at he
      cases he
  | op :: op' :: ops, he =>
    rw [preparedOps_cons_cons] at he
    split_ifs at he with hprepare
    cases heach : prepareEach D s (op :: op' :: ops) with
    | error e' =>
      rw [heach] at he
      cases he
      rw [commitBatch, Effect.exec_bind_ok (Effect.exec_get r)]
      dsimp only
      rw [Effect.exec_bind_ok (exec_liftM_ok hs), if_pos hprepare, heach]
      exact Effect.exec_bind_error (Effect.exec_lift (.error e) r) _
    | ok x =>
      rw [heach] at he
      cases he

/-- **A batch** becomes an operation of the replica's own, if its payload is applied to the head as
its operations are, one after the other. -/
theorem exists_exec_commitBatch {s : D.State} (hs : r.headState = .ok s) {ops ps : List D.Op}
    (hne : ops ≠ []) (hps : preparedOps D s ops = .ok ps) : ∃ payload : Payload D.Op,
      payload.ops = ps ∧ ∀ t, ps.foldlM D.apply s = .ok t → applyOps D s payload = .ok t →
        Effect.exec (commitBatch H ops) r = Effect.exec (author H payload t) r := by
  match ops, hne, hps with
  | [op], _, hps =>
    have hcommit := exec_commit (H := H) hs op
    rw [preparedOps] at hps
    cases hp : D.prepared s op with
    | error e =>
      rw [hp] at hps
      cases hps
    | ok p =>
      rw [hp] at hps hcommit
      cases hps
      refine ⟨.one p, rfl, fun t _ happly => ?_⟩
      have happly' : D.apply s p = .ok t := happly
      rw [exec_commitBatch_singleton, hcommit]
      simp only [happly']
  | op :: op' :: ops, _, hps =>
    have hbatch : Effect.exec (commitBatch H (op :: op' :: ops)) r = Effect.exec (if D.needsPrepare then
        (do
          let x ← prepareEach D s (op :: op' :: ops)
          author H (.many x.1) x.2 : Call D γ γ)
        else do
          let state ← applyOps D s (.many (op :: op' :: ops))
          author H (.many (op :: op' :: ops)) state) r := by
      rw [commitBatch, Effect.exec_bind_ok (Effect.exec_get r)]
      exact Effect.exec_bind_ok (exec_liftM_ok hs) _
    rw [preparedOps_cons_cons] at hps
    split_ifs at hps with hprepare
    · cases heach : prepareEach D s (op :: op' :: ops) with
      | error e =>
        rw [heach] at hps
        cases hps
      | ok x =>
        rw [heach] at hps
        cases hps
        refine ⟨.many x.1, rfl, fun t hfold _ => ?_⟩
        rw [foldlM_prepareEach heach, Except.ok.injEq] at hfold
        rw [hbatch, if_pos hprepare, heach, Effect.exec_bind_ok (Effect.exec_lift (.ok x) r), hfold]
    · cases hps
      refine ⟨.many _, rfl, fun t _ happly => ?_⟩
      rw [hbatch, if_neg hprepare, Effect.exec_bind_ok (exec_liftM_ok happly)]

/-! ### Merges -/

/-- The head of the replica was merged with `g`. -/
structure MergedWith (H : ContentHash D.Op D.Print γ) (g : γ) (r r' : Replica D γ) : Prop where
  /-- The head joins both sides. -/
  join : H.IsJoin r.headGid g r'.headGid
  /-- Only the head may be new. -/
  moved : Moved {r'.headGid} r'.headGid 0 r r'
  /-- If every content id is held once, then the head is the join. -/
  head : r.Distinct → r'.headGid = H.joinId r.headGid g
  /-- Then every content id is held once afterwards, unless the merge was held already. -/
  distinct : r.Distinct → (¬ H.Reaches r.headGid g → ¬ H.Reaches g r.headGid →
    mergeId H r.headGid g ∉ r.held) → r'.Distinct

theorem headGid_headedAt {x : ℕ} {g : γ} (hx : r.gid.get? x = some g) (frontier : Frontier) :
    (r.headedAt x frontier).headGid = g := by
  show (r.gid.get? x).getD _ = g
  rw [hx]
  rfl

namespace Stands

variable (h : r.Stands H M c K)

include h

/-- A replica that looks as if it held the shared root only has the root as its head. -/
theorem headGid_of_pristine (hp : r.Pristine) : r.headGid = H.digest .root := by
  obtain ⟨-, -, cm, hcm, hparents, -⟩ := hp
  obtain ⟨pre, hpre, hg⟩ := h.indexed.content _ cm hcm
  rw [h.indexed.gid_head, Option.some.injEq] at hg
  cases hpre with
  | root => exact hg
  | authored hp => simp [hparents] at hp
  | compact hp => simp [hparents] at hp
  | merge hp => simp [hparents] at hp

theorem reaches_of_gid {x y : ℕ} {g k : γ} (hx : r.gid.get? x = some g) (hy : r.gid.get? y = some k)
    (hr : r.dag.Reaches x y) : H.Reaches g k := by
  obtain ⟨k', hk', hr'⟩ := h.indexed.reaches_gid hr hx
  rw [hy, Option.some.injEq] at hk'
  exact hk' ▸ hr'

/-- If every content id is held by one commit, then the store reaches what the content ids do. -/
theorem reaches_iff (hdist : r.Distinct) {x y : ℕ} {g k : γ} (hx : r.gid.get? x = some g)
    (hy : r.gid.get? y = some k) : r.dag.Reaches x y ↔ H.Reaches g k := by
  refine ⟨h.reaches_of_gid hx hy, fun hr => ?_⟩
  obtain ⟨y', hxy, hy'⟩ := h.indexed.exists_reaches hx hr
  exact hdist y' y k hy' hy ▸ hxy

/-- Content ids that reach each other are the same. -/
theorem reaches_antisymm (hdist : r.Distinct) {g k : γ} (hg : g ∈ r.held) (hgk : H.Reaches g k)
    (hkg : H.Reaches k g) : g = k := by
  obtain ⟨x, hx⟩ := hg
  obtain ⟨y, hxy, hy⟩ := h.indexed.exists_reaches hx hgk
  have hyx := (h.reaches_iff hdist hy hx).mpr hkg
  obtain rfl := Ancestry.reaches_antisymm h.indexed.wf.par_lt hxy hyx
  exact Option.some.inj (hx.symm.trans hy)

theorem joinId_of_reaches_right (hdist : r.Distinct) {x y : γ} (hx : x ∈ r.held)
    (hyx : H.Reaches y x) : H.joinId x y = y := by
  rw [ContentHash.joinId]
  split_ifs with hxy
  · exact h.reaches_antisymm hdist hx hxy hyx
  · rfl

/-- A head that has the commit in its ancestry stays. -/
theorem mergedWith_of_reaches {g : γ} (hr : H.Reaches r.headGid g) : MergedWith H g r r where
  join := Or.inl ⟨rfl, hr⟩
  moved := ⟨(Set.union_eq_self_of_subset_right
    (Set.singleton_subset_iff.mpr h.indexed.headGid_mem)).symm, rfl, rfl, rfl⟩
  head _ := (ContentHash.joinId_of_reaches hr).symm
  distinct hdist _ := hdist

/-- A head in the ancestry of the commit moves to it. -/
theorem mergedWith_headedAt {b : ℕ} {g : γ} (hb : r.gid.get? b = some g)
    (hr : H.Reaches g r.headGid) (frontier : Frontier) :
    (r.headedAt b frontier).Stands H M c K ∧ MergedWith H g r (r.headedAt b frontier) := by
  have hhead := headGid_headedAt hb frontier
  refine ⟨h.headedAt (h.indexed.stored b g hb) frontier, ?_, ⟨?_, rfl, rfl, rfl⟩, fun hdist => ?_,
    fun hdist _ => hdist⟩
  · exact Or.inr (Or.inl ⟨hhead, hr⟩)
  · rw [hhead]
    have hg : g ∈ r.held := ⟨b, hb⟩
    exact (Set.union_eq_self_of_subset_right (Set.singleton_subset_iff.mpr hg)).symm
  · rw [hhead, h.joinId_of_reaches_right hdist h.indexed.headGid_mem hr]

/-- Two heads, neither of which is in the ancestry of the other, are joined. -/
theorem mergedWith_filed {b : ℕ} {g : γ} (hb : r.gid.get? b = some g)
    (hfwd : ¬ r.dag.Reaches b r.headId) (hback : ¬ r.dag.Reaches r.headId b)
    (hmerge : mergeId H r.headGid g ∈ K) {state : D.State}
    (hrep : M.Rep c (r.opsUnder r.headId ∪ r.opsUnder b) state) {r₁ : Replica D γ}
    (hr₁ : r₁ = r.filed [r.headId, b] none state EPOCH0 (mergeId H r.headGid g)) (frontier : Frontier) :
    r.Hashes ⟨r.dag.nextId, [r.headId, b], none, state⟩
        (.merge ([r.headGid, g].insertionSort (· ≤ ·))) ∧
      (r₁.headedAt r.dag.nextId frontier).Stands H M c K ∧
      MergedWith H g r (r₁.headedAt r.dag.nextId frontier) := by
  have hgid := h.indexed.gid_head
  have hp : ∀ p ∈ [r.headId, b], r.dag.has p = true := by
    simpa using ⟨h.indexed.head, h.indexed.stored b g hb⟩
  have hpre : r.Hashes ⟨r.dag.nextId, [r.headId, b], none, state⟩
      (.merge ([r.headGid, g].insertionSort (· ≤ ·))) := .merge rfl hgid hb rfl
  rw [h.indexed.opsUnder_eq hgid, h.indexed.opsUnder_eq hb, ← ContentHash.opsBelow_mergeId] at hrep
  have hstands := h.filed hp hpre hmerge (by simp) (by simp [Preimage.ops]) hrep
  have hheld := h.indexed.held_filed [r.headId, b] none state EPOCH0 (mergeId H r.headGid g)
  have hhead : (r₁.headedAt r.dag.nextId frontier).headGid = mergeId H r.headGid g :=
    hr₁ ▸ headGid_filed
  have hfwd' (hdist : r.Distinct) := mt (h.reaches_iff hdist hb hgid).mpr hfwd
  have hback' (hdist : r.Distinct) := mt (h.reaches_iff hdist hgid hb).mpr hback
  refine ⟨hpre, hr₁ ▸ hstands.headedAt has_filed_self frontier, Or.inr (Or.inr hhead),
    ⟨?_, rfl, hr₁ ▸ rfl, hr₁ ▸ rfl⟩, fun hdist => ?_, fun hdist hnew => ?_⟩
  · rw [hhead, hr₁]
    exact hheld
  · rw [hhead, ContentHash.joinId, if_neg (hback' hdist), if_neg (hfwd' hdist)]
  · have hdist₁ : r₁.Distinct := hr₁ ▸ hdist.filed (hnew (hback' hdist) (hfwd' hdist))
    exact hdist₁

/-- A merge with a commit that is not held is refused. -/
theorem exec_mergeWithGid_missing {g : γ} (hg : g ∉ r.held) :
    ∃ e, Effect.exec (mergeWithGid H g) r = (.error e, r) := by
  rw [h.indexed.mem_held] at hg
  have hnone : r.byGid.get? g = none := by simpa [SortedMap.has] using hg
  rw [mergeWithGid, Effect.exec_bind_ok (Effect.exec_get r)]
  simp only [hnone]
  exact ⟨_, rfl⟩

/-- **A merge with a held commit** returns, and the head joins both sides. -/
theorem exec_mergeWithGid (hK : KnownHistory H M c K) (hD : D.Regular M) {g : γ} (hg : g ∈ r.held)
    (hmerge : mergeId H r.headGid g ∈ K) :
    ∃ r', Effect.exec (mergeWithGid H g) r = (.ok r'.headGid, r') ∧ r'.Stands H M c K ∧
      MergedWith H g r r' := by
  obtain ⟨b, -, hb, hgb, -⟩ := h.exists_commit hg
  have hhas : r.dag.has b = true := h.indexed.stored b g hgb
  have hgid := h.indexed.gid_head
  obtain ⟨cm, hcm⟩ := Dag.has_iff.mp h.indexed.head
  rw [mergeWithGid, Effect.exec_bind_ok (Effect.exec_get r)]
  simp only [hb]
  split_ifs with hsame
  · refine ⟨r, rfl, h, h.mergedWith_of_reaches ?_⟩
    rw [hsame, hgb, Option.some.injEq] at hgid
    exact hgid ▸ .refl
  · rw [Effect.exec_bind_ok (s := r) (a := cm) (by rw [Dag.get_eq_ok.mpr hcm]; rfl)]
    split_ifs with hprist
    · obtain ⟨frontier, hset⟩ := exec_setHead_headGid hhas
      have hroot := h.headGid_of_pristine ((pristine_iff hcm).mpr hprist)
      exact ⟨_, hset, h.mergedWith_headedAt hgb (hroot ▸ h.reaches_root hg) frontier⟩
    · obtain ⟨fwd, hfwd, hfwdIff⟩ := Dag.isAncestor_eq h.indexed.head hhas
      obtain ⟨back, hback, hbackIff⟩ := Dag.isAncestor_eq hhas h.indexed.head
      rw [Effect.exec_bind_ok (s := r) (a := fwd) (by rw [hfwd]; rfl)]
      split_ifs with hf
      · obtain ⟨frontier, hset⟩ := exec_setHead_headGid hhas
        have hr := h.reaches_of_gid hgb hgid (hfwdIff.mp hf)
        exact ⟨_, hset, h.mergedWith_headedAt hgb hr frontier⟩
      · rw [Effect.exec_bind_ok (s := r) (a := back) (by rw [hback]; rfl)]
        split_ifs with hbk
        · obtain ⟨state, hjoin, hrep⟩ := h.joinState_spec hK hD h.indexed.head hhas
          have hp : ∀ p ∈ [r.headId, b], r.dag.has p = true := by simp [h.indexed.head, hhas]
          obtain ⟨frontier, hset⟩ := exec_setHead_headGid (r := r.filed [r.headId, b] none state
            EPOCH0 (mergeId H r.headGid g)) has_filed_self
          obtain ⟨hpre, hstands, hmerged⟩ := h.mergedWith_filed hgb (fun hr => hf (hfwdIff.mpr hr))
            (fun hr => by simp [hbackIff.mpr hr] at hbk) hmerge hrep rfl frontier
          rw [Effect.exec_bind_ok hjoin, Effect.exec_bind_ok (exec_file EPOCH0 hp hpre)]
          exact ⟨_, hset, hstands, hmerged⟩
        · refine ⟨r, rfl, h, h.mergedWith_of_reaches ?_⟩
          exact h.reaches_of_gid hgid hgb (hbackIff.mp (by simpa using hbk))

end Stands

end Replica

end SalRuntime
