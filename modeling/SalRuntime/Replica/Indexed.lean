import SalRuntime.Replica.Replica

/-!
# Content-addressed stores

While no history is collected, the store of a replica is a faithful part of the Merkle graph of
content ids: every commit is filed under the id of its content, and the ancestry of a commit is
what its content id reaches.

## Main definitions

* `Replica.Hashes` — what the content id of a commit hashes.
* `Replica.Indexed` — every commit is filed under the id of its content.
* `Replica.filed`, `Replica.headedAt` — the replicas after filing a commit and after moving the head.

## Main results

* `Replica.Indexed.exists_reaches`, `Replica.Indexed.reaches_gid` — local ancestry is reachability
  between content ids.
* `Replica.Indexed.filed`, `Replica.Indexed.headedAt` — filing a commit and moving the head keep
  the store indexed.
* `Replica.exec_file`, `Replica.exec_setHead` — what the calls do.
-/

namespace SalRuntime

variable {D : Datatype} {γ : Type} [LinearOrder γ]

/-- The state survives encoding and decoding. -/
def Recoverable (D : Datatype) (state : D.State) : Prop :=
  ∀ encodeState decodeState, D.encodeState = some encodeState → D.decodeState = some decodeState →
    decodeState (encodeState state) = .ok state

/-- The content id of a merge of two commits. -/
def mergeId (H : ContentHash D.Op D.Print γ) (x y : γ) : γ :=
  H.digest (.merge ([x, y].insertionSort (· ≤ ·)))

namespace Replica

/-- What the content id of a commit hashes: a commit is the root, an operation or a compaction on
one parent, or a merge of two. -/
inductive Hashes (r : Replica D γ) (c : Commit D.State (Payload D.Op)) :
    Preimage D.Op D.Print γ → Prop
  | root (hp : c.parents = []) (hop : c.op = none) (hstate : c.state = D.init) : Hashes r c .root
  | authored {p : ℕ} {pg : γ} {op : Op (Payload D.Op)} (hp : c.parents = [p])
      (hpg : r.gid.get? p = some pg) (hop : c.op = some op) :
      Hashes r c (.authored [pg] op.replica op.seq op.payload)
  | compact {p : ℕ} {pg : γ} {fingerprint : D.State → D.Print} (hp : c.parents = [p])
      (hpg : r.gid.get? p = some pg) (hop : c.op = none) (hfp : D.fingerprint = some fingerprint)
      (hcodec : Recoverable D c.state) : Hashes r c (.compact [pg] (fingerprint c.state))
  | merge {p q : ℕ} {x y : γ} (hp : c.parents = [p, q]) (hx : r.gid.get? p = some x)
      (hy : r.gid.get? q = some y) (hop : c.op = none) :
      Hashes r c (.merge ([x, y].insertionSort (· ≤ ·)))

/-- Every commit of the store is filed under the id of its content, with its parents, and nothing
was collected. -/
structure Indexed (H : ContentHash D.Op D.Print γ) (r : Replica D γ) : Prop where
  /-- The store is well formed. -/
  wf : r.dag.Wf
  /-- A commit has the id of its content. -/
  content : ∀ x c, r.dag.commits.get? x = some c → ∃ pre, r.Hashes c pre ∧
    r.gid.get? x = some (H.digest pre)
  /-- Content ids belong to stored commits. -/
  stored : ∀ x g, r.gid.get? x = some g → r.dag.has x = true
  /-- The index finds a commit with the content id. -/
  found : ∀ g x, r.byGid.get? g = some x → r.gid.get? x = some g
  /-- The index finds every content id. -/
  listed : ∀ x g, r.gid.get? x = some g → r.byGid.has g = true
  /-- The head is in the store. -/
  head : r.dag.has r.headId = true
  /-- The root has its content id. -/
  rootGid : r.rootGid = H.digest .root
  /-- The root is in the store. -/
  root : r.byGid.has r.rootGid = true
  /-- The roster is open. -/
  opened : r.gcClosed = false
  /-- No compaction has lost its parent. -/
  epochBase : r.epochBase = SortedMap.empty
  /-- No history was collected. -/
  gcBoundary : r.gcBoundary = []

variable {H : ContentHash D.Op D.Print γ} {r : Replica D γ}

/-! ### The content id of a commit -/

/-- The parents that the content id of a commit hashes are those of its parents. -/
theorem Hashes.mem_parents_iff {c : Commit D.State (Payload D.Op)} {pre : Preimage D.Op D.Print γ}
    (h : r.Hashes c pre) {pg : γ} :
    pg ∈ pre.parents ↔ ∃ p ∈ c.parents, r.gid.get? p = some pg := by
  cases h with
  | root hp hop => simp [Preimage.parents, hp]
  | authored hp hpg hop => simp [Preimage.parents, hp, hpg, eq_comm]
  | compact hp hpg hop hfp hcodec => simp [Preimage.parents, hp, hpg, eq_comm]
  | @merge p q x y hp hx hy hop =>
    have hmem : pg ∈ [x, y].insertionSort (· ≤ ·) ↔ pg ∈ [x, y] :=
      (List.perm_insertionSort (· ≤ ·) _).mem_iff
    simp only [Preimage.parents, hp, hmem]
    simp [hx, hy, eq_comm]

/-- The parents of a commit have content ids. -/
theorem Hashes.exists_gid {c : Commit D.State (Payload D.Op)} {pre : Preimage D.Op D.Print γ}
    (h : r.Hashes c pre) {p : ℕ} (hp : p ∈ c.parents) : ∃ pg, r.gid.get? p = some pg := by
  cases h with
  | root hpar hop => simp [hpar] at hp
  | authored hpar hpg hop =>
    rw [hpar, List.mem_singleton] at hp
    exact ⟨_, hp ▸ hpg⟩
  | compact hpar hpg hop hfp hcodec =>
    rw [hpar, List.mem_singleton] at hp
    exact ⟨_, hp ▸ hpg⟩
  | merge hpar hx hy hop =>
    rw [hpar] at hp
    rcases List.mem_pair.mp hp with rfl | rfl
    · exact ⟨_, hx⟩
    · exact ⟨_, hy⟩

/-- **The content id of a commit** is computed from what it hashes. -/
theorem Hashes.commitContentId_eq {c : Commit D.State (Payload D.Op)}
    {pre : Preimage D.Op D.Print γ} (h : r.Hashes c pre) :
    commitContentId H c (r.parentGids c) = .ok (H.digest pre) := by
  cases h with
  | root hp hop => simp [commitContentId, hp]
  | authored hp hpg hop => simp [commitContentId, parentGids, hp, hpg, hop]
  | compact hp hpg hop hfp hcodec => simp [commitContentId, parentGids, hp, hpg, hop, hfp]
  | merge hp hx hy hop => simp [commitContentId, parentGids, hp, hx, hy, hop]

/-- What is hashed depends on the content ids of the parents only. -/
theorem Hashes.congr {r' : Replica D γ} {c : Commit D.State (Payload D.Op)}
    {pre : Preimage D.Op D.Print γ} (h : r.Hashes c pre)
    (hgid : ∀ p ∈ c.parents, r'.gid.get? p = r.gid.get? p) : r'.Hashes c pre := by
  cases h with
  | root hp hop hstate => exact .root hp hop hstate
  | authored hp hpg hop => exact .authored hp (by rw [hgid _ (by simp [hp]), hpg]) hop
  | compact hp hpg hop hfp hcodec =>
    exact .compact hp (by rw [hgid _ (by simp [hp]), hpg]) hop hfp hcodec
  | merge hp hx hy hop =>
    exact .merge hp (by rw [hgid _ (by simp [hp]), hx]) (by rw [hgid _ (by simp [hp]), hy]) hop

/-! ### Ancestry and content ids -/

namespace Indexed

variable (h : Indexed H r)

include h

theorem exists_gid {x : ℕ} (hx : r.dag.has x = true) : ∃ g, r.gid.get? x = some g := by
  obtain ⟨c, hc⟩ := Dag.has_iff.mp hx
  obtain ⟨pre, -, hg⟩ := h.content x c hc
  exact ⟨_, hg⟩

/-- Parents are in the store. -/
theorem has_parent {x p : ℕ} {c : Commit D.State (Payload D.Op)}
    (hc : r.dag.commits.get? x = some c) (hp : p ∈ c.parents) : r.dag.has p = true := by
  obtain ⟨pre, hpre, -⟩ := h.content x c hc
  obtain ⟨pg, hpg⟩ := hpre.exists_gid hp
  exact h.stored p pg hpg

theorem par_iff {x p : ℕ} : r.dag.Par x p ↔ ∃ c, r.dag.commits.get? x = some c ∧ p ∈ c.parents := by
  rw [Dag.par_iff]
  constructor
  · rintro ⟨c, hc, hp, -⟩
    exact ⟨c, hc, hp⟩
  · rintro ⟨c, hc, hp⟩
    exact ⟨c, hc, hp, h.has_parent hc hp⟩

/-- Every parent of a content id is the content id of a parent. -/
theorem exists_par {x : ℕ} {g pg : γ} (hg : r.gid.get? x = some g) (hpar : H.Par g pg) :
    ∃ p, r.dag.Par x p ∧ r.gid.get? p = some pg := by
  obtain ⟨c, hc⟩ := Dag.has_iff.mp (h.stored x g hg)
  obtain ⟨pre, hpre, hg'⟩ := h.content x c hc
  rw [hg, Option.some.injEq] at hg'
  rw [hg', ContentHash.par_digest_iff] at hpar
  obtain ⟨p, hp, hpg⟩ := hpre.mem_parents_iff.mp hpar
  exact ⟨p, h.par_iff.mpr ⟨c, hc, hp⟩, hpg⟩

/-- The content id of a parent is a parent of the content id. -/
theorem par_gid {x p : ℕ} (hpar : r.dag.Par x p) :
    ∃ g pg, r.gid.get? x = some g ∧ r.gid.get? p = some pg ∧ H.Par g pg := by
  obtain ⟨c, hc, hp⟩ := h.par_iff.mp hpar
  obtain ⟨pre, hpre, hg⟩ := h.content x c hc
  obtain ⟨pg, hpg⟩ := hpre.exists_gid hp
  exact ⟨_, pg, hg, hpg, (H.par_digest_iff).mpr (hpre.mem_parents_iff.mpr ⟨p, hp, hpg⟩)⟩

/-- **Local ancestry is reachability between content ids.** -/
theorem reaches_gid {x y : ℕ} (hr : r.dag.Reaches x y) {g : γ} (hg : r.gid.get? x = some g) :
    ∃ k, r.gid.get? y = some k ∧ H.Reaches g k := by
  induction hr with
  | refl => exact ⟨g, hg, .refl⟩
  | tail _ hpar ih =>
    obtain ⟨k, hk, hgk⟩ := ih
    obtain ⟨k', pg, hk', hpg, hp⟩ := h.par_gid hpar
    rw [hk, Option.some.injEq] at hk'
    exact ⟨pg, hpg, hgk.tail (hk' ▸ hp)⟩

/-- **What a content id reaches is held**, in the ancestry of the commit. -/
theorem exists_reaches {x : ℕ} {g k : γ} (hg : r.gid.get? x = some g) (hr : H.Reaches g k) :
    ∃ y, r.dag.Reaches x y ∧ r.gid.get? y = some k := by
  induction hr with
  | refl => exact ⟨x, .refl, hg⟩
  | tail _ hpar ih =>
    obtain ⟨y, hxy, hy⟩ := ih
    obtain ⟨p, hyp, hp⟩ := h.exists_par hy hpar
    exact ⟨p, hxy.tail hyp, hp⟩

/-- The content id of a stored operation. -/
theorem gid_of_opOf {x : ℕ} {op : Op (Payload D.Op)} (hop : r.dag.opOf x = some op) :
    ∃ pg, r.gid.get? x = some (H.digest (.authored [pg] op.replica op.seq op.payload)) := by
  obtain ⟨c, hc, hcop⟩ := Dag.opOf_eq_some_iff.mp hop
  obtain ⟨pre, hpre, hg⟩ := h.content x c hc
  cases hpre with
  | root hp hnone hstate => simp [hnone] at hcop
  | authored hp hpg hsome =>
    rw [hsome, Option.some.injEq] at hcop
    exact ⟨_, hcop ▸ hg⟩
  | compact hp hpg hnone hfp hcodec => simp [hnone] at hcop
  | merge hp hx hy hnone => simp [hnone] at hcop

/-- The operation of a content id. -/
theorem opOf_of_gid {x : ℕ} {parents : List γ} {replica : String} {seq : ℕ}
    {payload : Payload D.Op}
    (hg : r.gid.get? x = some (H.digest (.authored parents replica seq payload))) :
    r.dag.opOf x = some { replica, seq, payload } := by
  obtain ⟨c, hc⟩ := Dag.has_iff.mp (h.stored x _ hg)
  obtain ⟨pre, hpre, hg'⟩ := h.content x c hc
  rw [hg, Option.some.injEq] at hg'
  obtain rfl := H.injective hg'
  rw [Dag.opOf_eq_some_iff]
  refine ⟨c, hc, ?_⟩
  cases hpre with
  | authored hp hpg hop => exact hop

/-- The content id of the head. -/
theorem gid_head : r.gid.get? r.headId = some r.headGid := by
  obtain ⟨g, hg⟩ := h.exists_gid h.head
  rw [headGid, hg]
  rfl

/-- Every commit reaches the root. -/
theorem reaches_root {x : ℕ} (hx : r.dag.has x = true) :
    ∃ y, r.dag.Reaches x y ∧ r.gid.get? y = some r.rootGid := by
  induction x using Nat.strong_induction_on with
  | _ x ih =>
    obtain ⟨c, hc⟩ := Dag.has_iff.mp hx
    obtain ⟨pre, hpre, hg⟩ := h.content x c hc
    have hclimb : ∀ p ∈ c.parents, ∃ y, r.dag.Reaches x y ∧ r.gid.get? y = some r.rootGid := by
      intro p hp
      obtain ⟨y, hy, hroot⟩ := ih p (h.wf.parent_lt x c hc p hp) (h.has_parent hc hp)
      exact ⟨y, .head (h.par_iff.mpr ⟨c, hc, hp⟩) hy, hroot⟩
    cases hpre with
    | root hp hop hstate => exact ⟨x, .refl, by rw [hg, h.rootGid]⟩
    | @authored p pg op hp hpg hop => exact hclimb p (by simp [hp])
    | @compact p pg fingerprint hp hpg hop hfp hcodec => exact hclimb p (by simp [hp])
    | @merge p q x y hp hx hy hop => exact hclimb p (by simp [hp])

end Indexed

/-! ### Filing a commit -/

/-- The replica with a commit filed under the next id. -/
def filed (r : Replica D γ) (parents : List ℕ) (op : Option (Op (Payload D.Op)))
    (state : D.State) (key : EpochKey γ) (g : γ) : Replica D γ :=
  { r with
    dag := r.dag.push parents op state
    epochOf := r.epochOf.insert r.dag.nextId key
    gid := r.gid.insert r.dag.nextId g
    byGid := r.byGid.insert g r.dag.nextId }

/-- The replica with its head moved. -/
def headedAt (r : Replica D γ) (id : ℕ) (frontier : Frontier) : Replica D γ :=
  { r with headId := id, frontier }

/-- **Filing a commit.** -/
theorem exec_file {parents : List ℕ} {op : Option (Op (Payload D.Op))} {state : D.State}
    {pre : Preimage D.Op D.Print γ} (key : EpochKey γ) (hp : ∀ p ∈ parents, r.dag.has p = true)
    (hpre : r.Hashes { id := r.dag.nextId, parents, op, state } pre) :
    Effect.exec (file H parents op state key) r =
      (.ok (r.dag.nextId, H.digest pre), r.filed parents op state key (H.digest pre)) := by
  have hid := hpre.commitContentId_eq (H := H)
  simp only [parentGids] at hid
  simp [file, add, setEpoch, index, Effect.exec_bind, Dag.add_eq_ok hp, parentGids, hid, filed,
    Except.map]

/-- **Moving the head.** -/
theorem exec_setHead {id : ℕ} (hid : r.dag.has id = true) : ∃ frontier,
    Effect.exec (setHead id) r = (.ok ⟨⟩, r.headedAt id frontier) := by
  obtain ⟨frontier, hfr, -⟩ := Dag.frontierOf_spec hid
  exact ⟨frontier, by simp [setHead, refresh, Effect.exec_bind, hfr, headedAt]⟩

theorem get?_gid_filed {parents : List ℕ} {op : Option (Op (Payload D.Op))} {state : D.State}
    {key : EpochKey γ} {g : γ} (x : ℕ) : (r.filed parents op state key g).gid.get? x =
      if x = r.dag.nextId then some g else r.gid.get? x :=
  SortedMap.get?_insert ..

theorem has_filed {parents : List ℕ} {op : Option (Op (Payload D.Op))} {state : D.State}
    {key : EpochKey γ} {g : γ} (x : ℕ) : (r.filed parents op state key g).dag.has x =
      (decide (x = r.dag.nextId) || r.dag.has x) :=
  Dag.has_push ..

@[simp] theorem has_filed_self {parents : List ℕ} {op : Option (Op (Payload D.Op))}
    {state : D.State} {key : EpochKey γ} {g : γ} :
    (r.filed parents op state key g).dag.has r.dag.nextId = true := by simp [has_filed]

namespace Indexed

variable (h : Indexed H r) {parents : List ℕ} {op : Option (Op (Payload D.Op))} {state : D.State}
  {key : EpochKey γ} {pre : Preimage D.Op D.Print γ}

include h

/-- Commits that were there before keep their content ids. -/
theorem get?_gid_filed_of_has {g : γ} {x : ℕ} (hx : r.dag.has x = true) :
    (r.filed parents op state key g).gid.get? x = r.gid.get? x := by
  rw [get?_gid_filed, if_neg (h.wf.lt_of_has hx).ne]

/-- **Filing a commit** keeps the store indexed. -/
theorem filed (hp : ∀ p ∈ parents, r.dag.has p = true)
    (hpre : r.Hashes { id := r.dag.nextId, parents, op, state } pre) :
    Indexed H (r.filed parents op state key (H.digest pre)) where
  wf := h.wf.push hp
  content x c hc := by
    have hkeep {c : Commit D.State (Payload D.Op)} {pre : Preimage D.Op D.Print γ}
        (hpre : r.Hashes c pre) (hpar : ∀ p ∈ c.parents, r.dag.has p = true) :
        (r.filed parents op state key (H.digest pre)).Hashes c pre :=
      hpre.congr fun p hp => h.get?_gid_filed_of_has (hpar p hp)
    simp only [Replica.filed, Dag.get?_push] at hc
    rw [get?_gid_filed]
    split_ifs at hc ⊢ with hx
    · cases hc
      exact ⟨pre, hpre.congr fun p hmem => h.get?_gid_filed_of_has (hp p hmem), rfl⟩
    · obtain ⟨pre', hpre', hg⟩ := h.content x c hc
      exact ⟨pre', hpre'.congr fun p hmem => h.get?_gid_filed_of_has (h.has_parent hc hmem), hg⟩
  stored x g hg := by
    rw [get?_gid_filed] at hg
    simp only [Replica.filed, Dag.has_push, Bool.or_eq_true, decide_eq_true_eq]
    split_ifs at hg with hx
    · exact Or.inl hx
    · exact Or.inr (h.stored x g hg)
  found g x hg := by
    simp only [Replica.filed, SortedMap.get?_insert] at hg
    rw [get?_gid_filed]
    split_ifs at hg with heq
    · rw [if_pos (Option.some.inj hg).symm, heq]
    · have hx := h.found g x hg
      rw [if_neg (h.wf.lt_of_has (h.stored x g hx)).ne, hx]
  listed x g hg := by
    rw [get?_gid_filed] at hg
    simp only [Replica.filed, SortedMap.has_insert, Bool.or_eq_true, decide_eq_true_eq]
    split_ifs at hg with hx
    · exact Or.inl (Option.some.inj hg).symm
    · exact Or.inr (h.listed x g hg)
  head := by simp [Replica.filed, Dag.has_push, h.head]
  rootGid := h.rootGid
  root := by simp [Replica.filed, SortedMap.has_insert, h.root]
  opened := h.opened
  epochBase := h.epochBase
  gcBoundary := h.gcBoundary

/-- What is not part of the store does not matter. -/
theorem congr {r' : Replica D γ} (hdag : r'.dag = r.dag) (hgid : r'.gid = r.gid)
    (hbyGid : r'.byGid = r.byGid) (hroot : r'.rootGid = r.rootGid)
    (hopened : r'.gcClosed = r.gcClosed) (hbase : r'.epochBase = r.epochBase)
    (hboundary : r'.gcBoundary = r.gcBoundary) (hhead : r.dag.has r'.headId = true) :
    Indexed H r' where
  wf := hdag ▸ h.wf
  content x c hc := by
    rw [hdag] at hc
    obtain ⟨pre, hpre, hg⟩ := h.content x c hc
    exact ⟨pre, hpre.congr fun p _ => by rw [hgid], by rw [hgid, hg]⟩
  stored x g hg := by
    rw [hgid] at hg
    rw [hdag]
    exact h.stored x g hg
  found g x hg := by
    rw [hbyGid] at hg
    rw [hgid]
    exact h.found g x hg
  listed x g hg := by
    rw [hgid] at hg
    rw [hbyGid]
    exact h.listed x g hg
  head := hdag ▸ hhead
  rootGid := hroot.trans h.rootGid
  root := by rw [hbyGid, hroot, h.root]
  opened := hopened.trans h.opened
  epochBase := hbase.trans h.epochBase
  gcBoundary := hboundary.trans h.gcBoundary

/-- **Moving the head** keeps the store indexed. -/
theorem headedAt {id : ℕ} (hid : r.dag.has id = true) (frontier : Frontier) :
    Indexed H (r.headedAt id frontier) :=
  h.congr rfl rfl rfl rfl rfl rfl rfl hid

end Indexed

/-- A new replica is indexed. -/
theorem indexed_create (name : String) : Indexed H (create D H name) where
  wf := by
    have hempty : (Dag.empty : Dag D.State (Payload D.Op)).Wf :=
      ⟨by simp [Dag.empty], by simp [Dag.empty], by simp [Dag.empty]⟩
    exact hempty.push (by simp)
  content x c hc := by
    simp only [create, Dag.get?_push] at hc
    split_ifs at hc with hx
    · cases hc
      refine ⟨.root, .root rfl rfl rfl, ?_⟩
      rw [hx]
      rfl
    · simp [Dag.empty] at hc
  stored x g hg := by
    simp only [create, SortedMap.get?_insert] at hg
    split_ifs at hg with hx
    · rw [hx]
      rfl
    · simp at hg
  found g x hg := by
    simp only [create, SortedMap.get?_insert] at hg ⊢
    split_ifs at hg with heq
    · simp at hg
      simp [← hg, heq]
    · simp at hg
  listed x g hg := by
    simp only [create, SortedMap.get?_insert] at hg
    split_ifs at hg with hx
    · simpa [create, SortedMap.has_insert] using hg.symm
    · simp at hg
  head := rfl
  rootGid := rfl
  root := by simp [create, SortedMap.has_insert]
  opened := rfl
  epochBase := rfl
  gcBoundary := rfl

end Replica

end SalRuntime
