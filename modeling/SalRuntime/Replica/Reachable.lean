import Mathlib.Order.Lattice
import SalRuntime.Replica.Indexed
import SalRuntime.Replica.JoinStates

/-!
# Reachable replicas

The replicas that any sequence of calls leads to, with any wire commits, forged ones included. Their
stores are well formed, and their indexes agree with the stores, whatever was ingested, collected or
pruned.

## Main definitions

* `Replica.Request`, `Replica.perform`, `Replica.after`, `Replica.Reachable` — the calls and what
  they lead to.
* `Replica.Sound` — the indexes agree with the store.
* `Replica.Joins` — registering joins of epochs.
* `Replica.Stable` — a property survives ingesting, merging and compacting.

## Main results

* `Replica.exec_file_of_ok`, `Replica.exec_file_of_error` — filing a commit.
* `Replica.leads_joinState` — a join of two commits changes nothing but the graph of epochs.
* `Replica.Reachable.sound` — reachable replicas are sound.
-/

namespace SalRuntime

variable {D : Datatype} {γ : Type} [LinearOrder γ] {H : ContentHash D.Op D.Print γ}

namespace Replica

variable {r : Replica D γ}

/-- The calls of a replica. -/
inductive Request (D : Datatype) (γ : Type)
  /-- Add a member to the roster. -/
  | register (name : String)
  /-- Apply one operation on the head. -/
  | commit (payload : D.Op)
  /-- Apply a list of operations on the head. -/
  | commitBatch (ops : List D.Op)
  /-- Ingest wire commits. -/
  | ingest (wireCommits : List (WireCommit D γ))
  /-- Merge the head with a commit of the store. -/
  | mergeWithGid (g : γ)
  /-- Record that a peer has fetched a head. -/
  | acknowledgeFetch (peer : String) (headGid : γ) (epochKey : EpochKey γ)
  /-- Compact the head. -/
  | compactStable (opts : CompactOpts)
  /-- Collect the history. -/
  | gc
  /-- Prune the history. -/
  | pruneToEpochBase

/-- Perform a call. -/
def perform (H : ContentHash D.Op D.Print γ) : Request D γ → Call D γ Unit
  | .register name => register name
  | .commit payload => do let _ ← commit H payload
  | .commitBatch ops => do let _ ← commitBatch H ops
  | .ingest wireCommits => do let _ ← ingest H wireCommits
  | .mergeWithGid g => do let _ ← mergeWithGid H g
  | .acknowledgeFetch peer headGid epochKey => do let _ ← acknowledgeFetch peer headGid epochKey
  | .compactStable opts => do let _ ← compactStable H opts
  | .gc => do let _ ← gc
  | .pruneToEpochBase => do let _ ← pruneToEpochBase

/-- The replicas that sequences of calls lead to. What a call that throws has changed stays
changed. -/
inductive Reachable (H : ContentHash D.Op D.Print γ) : Replica D γ → Prop
  | create (name : String) : Reachable H (create D H name)
  | perform {r : Replica D γ} (h : Reachable H r) (request : Request D γ) :
      Reachable H (Effect.exec (perform H request) r).2

/-- The replica after a sequence of calls. -/
def after (H : ContentHash D.Op D.Print γ) (r : Replica D γ) (requests : List (Request D γ)) :
    Replica D γ :=
  requests.foldl (fun r request => (Effect.exec (perform H request) r).2) r

theorem Reachable.after {r : Replica D γ} (h : Reachable H r) (requests : List (Request D γ)) :
    Reachable H (r.after H requests) := by
  induction requests generalizing r with
  | nil => exact h
  | cons request requests ih => exact ih (h.perform request)

/-- The indexes agree with the store. -/
structure Sound (H : ContentHash D.Op D.Print γ) (r : Replica D γ) : Prop where
  /-- The store is well formed. -/
  wf : r.dag.Wf
  /-- The head is in the store. -/
  head : r.dag.has r.headId = true
  /-- Content ids belong to stored commits. -/
  stored : ∀ x g, r.gid.get? x = some g → r.dag.has x = true
  /-- The index finds a commit with the content id. -/
  found : ∀ g x, r.byGid.get? g = some x → r.gid.get? x = some g
  /-- The root has its content id. -/
  rootGid : r.rootGid = H.digest .root

/-! ### Filing commits -/

/-- The replica with a commit appended, before its content id is recorded. -/
def appended (r : Replica D γ) (parents : List ℕ) (op : Option (Op (Payload D.Op)))
    (state : D.State) (key : EpochKey γ) : Replica D γ :=
  { r with
    dag := r.dag.push parents op state
    epochOf := r.epochOf.insert r.dag.nextId key }

/-- The next commit of a replica. -/
def nextCommit (r : Replica D γ) (parents : List ℕ) (op : Option (Op (Payload D.Op)))
    (state : D.State) : Commit D.State (Payload D.Op) := { id := r.dag.nextId, parents, op, state }

/-- **Recording a content id.** -/
theorem exec_index_of_ok {c : Commit D.State (Payload D.Op)} {g : γ}
    (hid : commitContentId H c (r.parentGids c) = .ok g) : Effect.exec (index H c) r =
      (.ok g, { r with gid := r.gid.insert c.id g, byGid := r.byGid.insert g c.id }) := by
  simp [index, Effect.exec_bind, hid, Except.map]

theorem exec_index_of_error {c : Commit D.State (Payload D.Op)} {e : Failure}
    (hid : commitContentId H c (r.parentGids c) = .error e) :
    Effect.exec (index H c) r = (.error e, r) := by
  simp [index, Effect.exec_bind, hid]

section File

variable {parents : List ℕ} (hp : ∀ p ∈ parents, r.dag.has p = true)
  {op : Option (Op (Payload D.Op))} {state : D.State} (key : EpochKey γ)

include hp

theorem exec_add : Effect.exec (add parents op state : Call D γ _) r =
    (.ok (r.nextCommit parents op state), { r with dag := r.dag.push parents op state }) := by
  simp [add, Effect.exec_bind, Dag.add_eq_ok hp, nextCommit, Except.map]

theorem exec_file_eq : Effect.exec (file H parents op state key) r =
    Effect.exec (do
      let g ← index H (r.nextCommit parents op state)
      return (r.dag.nextId, g)) (r.appended parents op state key) := by
  rw [file, Effect.exec_bind_ok (exec_add hp)]
  exact Effect.exec_bind_ok (Effect.exec_modify _ _) _

/-- **Filing a commit** whose content id can be computed. -/
theorem exec_file_of_ok {g : γ} (hid : commitContentId H (r.nextCommit parents op state)
      (r.parentGids (r.nextCommit parents op state)) = .ok g) :
    Effect.exec (file H parents op state key) r =
      (.ok (r.dag.nextId, g), r.filed parents op state key g) := by
  rw [exec_file_eq hp]
  exact Effect.exec_bind_ok (exec_index_of_ok (r := r.appended parents op state key) hid) _

/-- **Filing a commit** whose content id cannot be computed. -/
theorem exec_file_of_error {e : Failure} (hid : commitContentId H (r.nextCommit parents op state)
      (r.parentGids (r.nextCommit parents op state)) = .error e) :
    Effect.exec (file H parents op state key) r =
      (.error e, r.appended parents op state key) := by
  rw [exec_file_eq hp]
  exact Effect.exec_bind_error
    (exec_index_of_error (r := r.appended parents op state key) hid) _

/-- A commit that was filed. -/
theorem eq_filed_of_exec_file {id : ℕ} {g : γ} {r' : Replica D γ}
    (h : Effect.exec (file H parents op state key) r = (.ok (id, g), r')) :
    id = r.dag.nextId ∧ r' = r.filed parents op state key g ∧
      commitContentId H (r.nextCommit parents op state)
        (r.parentGids (r.nextCommit parents op state)) = .ok g := by
  cases hid : commitContentId H (r.nextCommit parents op state)
      (r.parentGids (r.nextCommit parents op state)) with
  | error e =>
    rw [exec_file_of_error hp key hid] at h
    cases h
  | ok g' =>
    rw [exec_file_of_ok hp key hid] at h
    cases h
    exact ⟨rfl, rfl, rfl⟩

end File

namespace Sound

variable (h : Sound H r)

include h

/-- What is not part of the store does not matter. -/
theorem congr {r' : Replica D γ} (hdag : r'.dag = r.dag) (hgid : r'.gid = r.gid)
    (hbyGid : r'.byGid = r.byGid) (hroot : r'.rootGid = r.rootGid)
    (hhead : r.dag.has r'.headId = true) : Sound H r' where
  wf := hdag ▸ h.wf
  head := hdag ▸ hhead
  stored x g hg := by
    rw [hgid] at hg
    rw [hdag]
    exact h.stored x g hg
  found g x hg := by
    rw [hbyGid] at hg
    rw [hgid]
    exact h.found g x hg
  rootGid := hroot.trans h.rootGid

theorem has_of_byGid {g : γ} {x : ℕ} (hg : r.byGid.get? g = some x) : r.dag.has x = true :=
  h.stored x g (h.found g x hg)

theorem gid_nextId : r.gid.get? r.dag.nextId = none := by
  by_contra hne
  obtain ⟨g, hg⟩ := Option.ne_none_iff_exists'.mp hne
  exact absurd (h.stored _ g hg) (by simp [h.wf.not_has_nextId])

variable {parents : List ℕ} {op : Option (Op (Payload D.Op))} {state : D.State} {key : EpochKey γ}

/-- Appending a commit without an id. -/
theorem pushed (hp : ∀ p ∈ parents, r.dag.has p = true) {r' : Replica D γ}
    (hdag : r'.dag = r.dag.push parents op state) (hgid : r'.gid = r.gid)
    (hbyGid : r'.byGid = r.byGid) (hroot : r'.rootGid = r.rootGid) (hhead : r'.headId = r.headId) :
    Sound H r' where
  wf := hdag ▸ h.wf.push hp
  head := by simp [hdag, hhead, Dag.has_push, h.head]
  stored x g hg := by
    rw [hgid] at hg
    simp [hdag, Dag.has_push, h.stored x g hg]
  found g x hg := by
    rw [hbyGid] at hg
    rw [hgid]
    exact h.found g x hg
  rootGid := hroot.trans h.rootGid

/-- Recording the content id of a stored commit that has none. -/
theorem named {x : ℕ} {g : γ} (hx : r.dag.has x = true) (hnone : r.gid.get? x = none)
    {r' : Replica D γ} (hdag : r'.dag = r.dag) (hgid : r'.gid = r.gid.insert x g)
    (hbyGid : r'.byGid = r.byGid.insert g x) (hroot : r'.rootGid = r.rootGid)
    (hhead : r.dag.has r'.headId = true) : Sound H r' where
  wf := hdag ▸ h.wf
  head := hdag ▸ hhead
  stored y k hk := by
    rw [hgid, SortedMap.get?_insert] at hk
    rw [hdag]
    split_ifs at hk with heq
    · exact heq ▸ hx
    · exact h.stored y k hk
  found k y hy := by
    rw [hbyGid, SortedMap.get?_insert] at hy
    rw [hgid, SortedMap.get?_insert]
    split_ifs at hy with heq
    · rw [if_pos (Option.some.inj hy).symm, heq]
    · have hk := h.found k y hy
      have hne : y ≠ x := by
        rintro rfl
        rw [hnone] at hk
        cases hk
      rw [if_neg hne, hk]
  rootGid := hroot.trans h.rootGid

theorem appended (hp : ∀ p ∈ parents, r.dag.has p = true) :
    Sound H (r.appended parents op state key) :=
  h.pushed hp rfl rfl rfl rfl rfl

theorem filed (hp : ∀ p ∈ parents, r.dag.has p = true) (g : γ) :
    Sound H (r.filed parents op state key g) :=
  have happended : Sound H (r.appended parents op state key) := h.appended hp
  happended.named (x := r.dag.nextId) (g := g) (by simp [Replica.appended, Dag.has_push])
    h.gid_nextId rfl rfl rfl rfl (by simp [Replica.appended, Replica.filed, Dag.has_push, h.head])

theorem headedAt {id : ℕ} (hid : r.dag.has id = true) (frontier : Frontier) :
    Sound H (r.headedAt id frontier) :=
  h.congr rfl rfl rfl rfl hid

theorem ends_file (hp : ∀ p ∈ parents, r.dag.has p = true) :
    Effect.Ends (Sound H) (file H parents op state key) r := by
  cases hid : commitContentId H (r.nextCommit parents op state)
      (r.parentGids (r.nextCommit parents op state)) with
  | error e => exact .of_exec_eq (exec_file_of_error hp key hid) (h.appended hp)
  | ok g => exact .of_exec_eq (exec_file_of_ok hp key hid) (h.filed hp g)

theorem ends_setHead {id : ℕ} (hid : r.dag.has id = true) :
    Effect.Ends (Sound H) (setHead id : Call D γ Unit) r := by
  obtain ⟨frontier, hset⟩ := exec_setHead hid
  exact .of_exec_eq hset (h.headedAt hid frontier)

end Sound

/-! ### Joins -/

/-- Registering the joins of some epochs. -/
abbrev Joins : Replica D γ → Replica D γ → Prop :=
  Relation.ReflTransGen fun r r' => ∃ ea eb E, r.epochDag.join ea eb = .ok E ∧
    r' = { r with epochDag := E }

theorem Joins.exists_eq {r' : Replica D γ} (h : Joins r r') :
    ∃ E, r' = { r with epochDag := E } := by
  induction h with
  | refl => exact ⟨r.epochDag, rfl⟩
  | tail _ hstep ih =>
    obtain ⟨E, rfl⟩ := ih
    obtain ⟨_, _, E', -, rfl⟩ := hstep
    exact ⟨E', rfl⟩

theorem leads_joinEpochs (ea eb : EpochKey γ) :
    Effect.Leads Joins (joinEpochs ea eb : Call D γ Unit) r := by
  refine .bind_get (.bind_lift fun E hE => ?_)
  exact .of_exec_eq (Effect.exec_set _ r) (.single ⟨ea, eb, E, hE, rfl⟩)

theorem leads_joinAtRoot (ea eb el : EpochKey γ) (aState bState lState : D.State) :
    Effect.Leads Joins
      (joinAtRoot ea eb el aState bState lState : Call D γ (D.State × EpochKey γ)) r := by
  refine .bind_get (.bind_lift fun a0 _ => .bind_lift fun b0 _ => .bind_lift fun l0 _ => ?_)
  split
  · split_ifs
    · exact .bind (leads_joinEpochs ea eb) fun _ _ _ => .bind_lift fun m _ => .pure _
    · exact .bind_lift fun m _ => .pure _
  · exact .throw _

theorem leads_joinBelow (ea eb el : EpochKey γ) (aState bState lState : D.State) :
    Effect.Leads Joins
      (joinBelow ea eb el aState bState lState : Call D γ (D.State × EpochKey γ)) r := by
  refine .bind_get (.bind_lift fun aE _ => .bind_lift fun bE _ => ?_)
  split
  · split_ifs
    · exact .bind (leads_joinEpochs ea eb) fun _ _ _ => .bind_lift fun m _ => .pure _
    · exact .bind_lift fun m _ => .pure _
  · exact leads_joinAtRoot ..

theorem leads_joinHeadOnly (a b : ℕ) :
    Effect.Leads Joins (joinHeadOnly a b : Call D γ (D.State × EpochKey γ)) r := by
  refine .bind_get (.bind_lift fun aCommit _ => .bind_lift fun bCommit _ => ?_)
  split_ifs
  · exact .bind_lift fun m _ => .pure _
  · refine .bind_lift fun a0 _ => .bind_lift fun b0 _ => ?_
    split
    · exact .bind (leads_joinEpochs ..) fun _ _ _ => .bind_lift fun m _ => .pure _
    · exact .throw _

/-- **A join** registers at most some joins of epochs. -/
theorem leads_joinState (a b : ℕ) :
    Effect.Leads Joins (joinState a b : Call D γ (D.State × EpochKey γ)) r := by
  refine .bind_get (.bind_lift fun aCommit _ => .bind_lift fun bCommit _ => ?_)
  split
  · split_ifs
    · exact leads_joinHeadOnly a b
    · exact .throw _
  · exact .throw _
  · split_ifs
    · exact .bind_lift fun m _ => .pure _
    · refine .bind_lift fun up _ => ?_
      split
      · exact .bind_lift fun m _ => .pure _
      · exact leads_joinBelow ..
    · exact leads_joinBelow ..

/-- A join changes nothing but the graph of epochs. -/
theorem exists_eq_of_exec_joinState {a b : ℕ} {x : Except Failure (D.State × EpochKey γ)}
    {r' : Replica D γ} (h : Effect.exec (joinState a b) r = (x, r')) :
    ∃ E, r' = { r with epochDag := E } := by
  have hleads := leads_joinState (r := r) a b
  rw [Effect.Leads, h] at hleads
  exact hleads.exists_eq

/-! ### The calls -/

/-- Recording a fetch changes nothing else. -/
theorem exec_acknowledgeFetch (r : Replica D γ) (peer : String) (headGid : γ)
    (epochKey : EpochKey γ) : ∃ x acks, Effect.exec (acknowledgeFetch peer headGid epochKey) r =
      (x, { r with fetchAcks := acks }) := by
  have hanswer (behind : Bool) : ∃ x acks, Effect.exec (if behind = true then do
      set ({ r with fetchAcks := r.fetchAcks.insert peer epochKey } : Replica D γ)
      return true
    else return false : Call D γ Bool) r = (x, { r with fetchAcks := acks }) := by
    cases behind with
    | true => exact ⟨_, _, rfl⟩
    | false => exact ⟨_, _, rfl⟩
  rw [acknowledgeFetch, Effect.exec_bind_ok (Effect.exec_get r)]
  split_ifs
  · split
    · exact ⟨_, _, rfl⟩
    · split_ifs
      · exact ⟨_, _, rfl⟩
      · dsimp only
        split
        · exact hanswer true
        · rename_i old _
          cases hsub : r.epochDag.subcut old epochKey with
          | error e => exact ⟨_, _, rfl⟩
          | ok behind => exact hanswer behind
  · exact ⟨_, _, rfl⟩

/-! ### Stable properties -/

/-- The replicas differ in the head, the roster, the epochs, the boundaries and what they know of
their peers at most. -/
structure Alike (r r' : Replica D γ) : Prop where
  /-- The stores are the same. -/
  dag : r'.dag = r.dag
  /-- The commits have the same content ids. -/
  gid : r'.gid = r.gid
  /-- The content ids have the same commits. -/
  byGid : r'.byGid = r.byGid
  /-- The roots have the same content id. -/
  rootGid : r'.rootGid = r.rootGid
  /-- The names are the same. -/
  name : r'.name = r.name
  /-- The next sequence numbers are the same. -/
  seq : r'.seq = r.seq
  /-- Boundaries stay boundaries. -/
  boundary : r.gcBoundary ⊆ r'.gcBoundary
  /-- New epoch bases are stored and carry no operation. -/
  bases : ∀ x, r'.epochBase.has x = true →
    r.epochBase.has x = true ∨ r'.dag.has x = true ∧ r'.dag.opOf x = none

theorem Alike.of_eq {r r' : Replica D γ} (hdag : r'.dag = r.dag) (hgid : r'.gid = r.gid)
    (hbyGid : r'.byGid = r.byGid) (hroot : r'.rootGid = r.rootGid) (hname : r'.name = r.name)
    (hseq : r'.seq = r.seq) (hboundary : r'.gcBoundary = r.gcBoundary)
    (hbase : r'.epochBase = r.epochBase) : Alike r r' :=
  ⟨hdag, hgid, hbyGid, hroot, hname, hseq, by rw [hboundary]; exact List.Subset.refl _,
    fun x hx => .inl (hbase ▸ hx)⟩

/-- A property of sound replicas that survives what ingesting, merging and compacting do: they file
commits, record content ids, and move the head to commits with a content id. An operation is filed
under its content id if `W` allows it. The states of the store have the property `P`. -/
structure Stable (H : ContentHash D.Op D.Print γ) (P : D.State → Prop)
    (W : γ → Op (Payload D.Op) → Prop) (Q : Replica D γ → Prop) : Prop where
  /-- The datatype keeps `P`. -/
  closed : D.Closed P
  /-- Operations that `W` allows keep `P`. -/
  applied : ∀ {g op s}, W g op → P s → Yields P (applyOps D s op.payload)
  /-- The indexes agree with the store. -/
  sound : ∀ {r}, Q r → Sound H r
  /-- The states of the store have the property. -/
  holds : ∀ {r}, Q r → r.Holds P
  /-- Only the store matters, and that the head has a content id. -/
  kept : ∀ {r r'}, Q r → Alike r r' →
    (r'.headId = r.headId ∨ ∃ g, r.gid.get? r'.headId = some g) → Q r'
  /-- A commit without an operation is appended. -/
  pushed : ∀ {r r' parents state}, Q r → (∀ p ∈ parents, r.dag.has p = true) → P state →
    Alike { r with dag := r.dag.push parents none state } r' → r'.headId = r.headId → Q r'
  /-- The content id of a commit without one is recorded. -/
  named : ∀ {r r' x g}, Q r → r.dag.has x = true → r.gid.get? x = none →
    Alike { r with gid := r.gid.insert x g, byGid := r.byGid.insert g x } r' →
    r'.headId = r.headId → Q r'
  /-- An operation is filed. -/
  operation : ∀ {r parents op state key pgs}, Q r → parents ≠ [] →
    parents.map r.gid.get? = pgs.map some →
    W (H.digest (.authored pgs op.replica op.seq op.payload)) op → P state →
    Q (r.filed parents (some op) state key
      (H.digest (.authored pgs op.replica op.seq op.payload)))

/-- If a wire commit is an operation, `W` allows it under the content id of the operation. -/
def AcceptsOp (H : ContentHash D.Op D.Print γ) (W : γ → Op (Payload D.Op) → Prop)
    (wc : WireCommit D γ) (parentGids : List (Option γ)) : Prop :=
  ∀ op, wc.body = .op op.replica op.seq op.payload → ∀ pgs, parentGids = pgs.map some →
    W (H.digest (.authored pgs op.replica op.seq op.payload)) op

/-- What is decoded of the state that a wire commit carries has the property. -/
def Inline (P : D.State → Prop) (wc : WireCommit D γ) : Prop :=
  ∀ decodeState, D.decodeState = some decodeState → ∀ state ∈ wc.body.state,
    Yields P (decodeState state)

/-- The operation of a wire commit is allowed, and the state that it carries has the property. -/
structure Accepts (H : ContentHash D.Op D.Print γ) (P : D.State → Prop)
    (W : γ → Op (Payload D.Op) → Prop) (wc : WireCommit D γ) (parentGids : List (Option γ)) :
    Prop where
  /-- The operation. -/
  op : AcceptsOp H W wc parentGids
  /-- The state. -/
  inline : Inline P wc

omit [LinearOrder γ] in
theorem inline_true (wc : WireCommit D γ) : Inline (fun _ => True) wc :=
  fun _ _ _ _ _ _ => trivial

omit [LinearOrder γ] in
theorem accepts_true (wc : WireCommit D γ) (parentGids : List (Option γ)) :
    Accepts H (fun _ => True) (fun _ _ => True) wc parentGids :=
  ⟨fun _ _ _ _ => trivial, inline_true wc⟩

theorem filterMap_eq_of_map_eq {α β : Type} {f : α → Option β} {l : List α} {l' : List β}
    (h : l.map f = l'.map some) : l.filterMap f = l' := by
  rw [← Function.id_comp f, ← List.filterMap_map, h, List.filterMap_map]
  exact List.filterMap_some

namespace Stable

variable {P : D.State → Prop} {W : γ → Op (Payload D.Op) → Prop} {Q : Replica D γ → Prop}
  (hQ : Stable H P W Q) (h : Q r)

include hQ h

/-- Filing a commit without an operation. -/
theorem ends_file {parents : List ℕ} (hp : ∀ p ∈ parents, r.dag.has p = true) {state : D.State}
    (hstate : P state) {key : EpochKey γ} :
    Effect.Ends Q (file H parents none state key) r := by
  have happended : Q (r.appended parents none state key) :=
    hQ.pushed h hp hstate (.of_eq rfl rfl rfl rfl rfl rfl rfl rfl) rfl
  cases hid : commitContentId H (r.nextCommit parents none state)
      (r.parentGids (r.nextCommit parents none state)) with
  | error e => exact .of_exec_eq (exec_file_of_error hp key hid) happended
  | ok g =>
    refine .of_exec_eq (exec_file_of_ok hp key hid) ?_
    exact hQ.named happended (by simp [Replica.appended, Dag.has_push]) (hQ.sound h).gid_nextId
      (.of_eq rfl rfl rfl rfl rfl rfl rfl rfl) rfl

theorem ends_refresh : Effect.Ends Q (refresh : Call D γ Unit) r :=
  .bind_get (.bind_lift h fun _ _ => .of_exec_eq (Effect.exec_set _ r)
    (hQ.kept h (.of_eq rfl rfl rfl rfl rfl rfl rfl rfl) (.inl rfl)))

theorem ends_setHead {id : ℕ} {g : γ} (hid : r.gid.get? id = some g) :
    Effect.Ends Q (setHead id : Call D γ Unit) r := by
  obtain ⟨frontier, hset⟩ := exec_setHead ((hQ.sound h).stored id g hid)
  exact .of_exec_eq hset (hQ.kept h (.of_eq rfl rfl rfl rfl rfl rfl rfl rfl) (.inr ⟨g, hid⟩))

theorem ends_register (name : String) : Effect.Ends Q (register name : Call D γ Unit) r := by
  refine .bind_get ?_
  have hset : Effect.Ends Q
      (set { r with registered := addMember r.registered name } : Call D γ Unit) r :=
    .of_exec_eq (Effect.exec_set _ r) (hQ.kept h (.of_eq rfl rfl rfl rfl rfl rfl rfl rfl) (.inl rfl))
  split_ifs
  · exact .bind_throw h _
  · exact hset

omit hQ in
theorem ends_checkGid (g : γ) (wireGid : Option γ) :
    Effect.Ends Q (checkGid g wireGid : Call D γ Unit) r := by
  rw [checkGid]
  split_ifs
  · exact .throw h _
  · exact .pure h _

theorem ends_reconstructRoot (parentGids : List (Option γ)) :
    Effect.Ends Q (reconstructRoot H parentGids) r := by
  refine .bind_get ?_
  split_ifs
  · refine .bind (hQ.ends_file h (by simp) hQ.closed.init) fun c r' _ h' => ?_
    split
    split_ifs
    · exact .throw h' _
    · exact .pure h' _
  · exact .pure h _

theorem ends_joinState (a b : ℕ) : Effect.Ends Q (joinState a b) r := by
  obtain ⟨E, hE⟩ := exists_eq_of_exec_joinState
    (Prod.mk.eta (p := Effect.exec (joinState a b) r)).symm
  rw [Effect.Ends, hE]
  exact hQ.kept h (.of_eq rfl rfl rfl rfl rfl rfl rfl rfl) (.inl rfl)

section Ingest

variable {localParents : List ℕ} (hp : ∀ p ∈ localParents, r.dag.has p = true)

include hp

theorem ends_ingestBase (gid : γ) (epoch : EpochKey γ) (fp : D.Print) (roster : List String)
    (proof : γ) {wireState : D.Wire}
    (hinline : ∀ decodeState, D.decodeState = some decodeState →
      Yields P (decodeState wireState)) : Effect.Ends Q (ingestBase H gid localParents epoch fp roster proof wireState) r := by
  rw [ingestBase]
  split
  · rename_i decodeState _ hdecode _
    refine .bind_get (.bind_lift h fun state hstate => ?_)
    have hP : P state := hinline decodeState hdecode state hstate
    dsimp only
    split_ifs
    -- The checks come before the first write.
    any_goals exact .bind_throw h _
    refine .bind_ok (Effect.exec_set _ r) (.bind_ok (exec_add (r := { r with
      registered := (roster.insertionSort (· ≤ ·)).foldl addMember r.registered }) hp) ?_)
    refine .bind_ok (Effect.exec_modify _ _) (.pure ?_ _)
    have happended : Q (r.appended localParents none state epoch) :=
      hQ.pushed h hp hP (.of_eq rfl rfl rfl rfl rfl rfl rfl rfl) rfl
    exact hQ.named happended (by simp [Replica.appended, Dag.has_push])
      (hQ.sound h).gid_nextId ⟨rfl, rfl, rfl, rfl, rfl, rfl, List.subset_append_left _ _,
        fun _ => .inl⟩ rfl
  · exact .throw h _

omit hp in
theorem ends_ingestOp (wireGid : Option γ) {op : Op (Payload D.Op)} {pgs : List γ}
    (hgids : localParents.map r.gid.get? = pgs.map some)
    (hW : W (H.digest (.authored pgs op.replica op.seq op.payload)) op) :
    Effect.Ends Q (ingestOp H wireGid localParents op) r := by
  refine .bind_get ?_
  split_ifs
  · exact .bind_throw h _
  · split
    · exact .throw h _
    · rename_i p ps
      refine .bind_lift h fun parent hparent => .bind_lift h fun state hstate => ?_
      have hP : P state := hQ.applied hW ((hQ.holds h).of_get hparent) state hstate
      refine .bind_ok (Effect.exec_set _ r) ?_
      set r₁ : Replica D γ := { r with
        registered := addMember r.registered op.replica
        everAuthored := addMember r.everAuthored op.replica }
      have h₁ : Q r₁ := hQ.kept h (.of_eq rfl rfl rfl rfl rfl rfl rfl rfl) (.inl rfl)
      have hp : ∀ q ∈ p :: ps, r₁.dag.has q = true := by
        intro q hq
        have hmem := List.mem_map_of_mem (f := r.gid.get?) hq
        rw [hgids, List.mem_map] at hmem
        obtain ⟨pg, -, hpg⟩ := hmem
        exact (hQ.sound h).stored q pg hpg.symm
      have hid : commitContentId H (r₁.nextCommit (p :: ps) (some op) state)
          (r₁.parentGids (r₁.nextCommit (p :: ps) (some op) state)) =
          .ok (H.digest (.authored pgs op.replica op.seq op.payload)) := by
        have hparents : r₁.parentGids (r₁.nextCommit (p :: ps) (some op) state) = pgs :=
          filterMap_eq_of_map_eq hgids
        rw [hparents]
        rfl
      refine .bind_ok (exec_file_of_ok hp _ hid) ?_
      have hfiled : Q (r₁.filed (p :: ps) (some op) state (r.epochAt p)
          (H.digest (.authored pgs op.replica op.seq op.payload))) :=
        hQ.operation h₁ (List.cons_ne_nil p ps) hgids hW hP
      exact .bind (ends_checkGid hfiled _ _) fun _ r' _ h' => .pure h' _

omit hp in
theorem ends_ingestEpochBase (wireGid : Option γ) (parentGids : List (Option γ)) (cut : D.Cut)
    {wireState : D.Wire}
    (hinline : ∀ decodeState, D.decodeState = some decodeState →
      Yields P (decodeState wireState)) :
    Effect.Ends Q (ingestEpochBase H wireGid parentGids cut wireState) r := by
  rw [ingestEpochBase]
  split
  · exact .throw h _
  · rename_i decodeState hdecode
    refine .bind_lift h fun state hstate => .bind_ok (exec_add (by simp)) ?_
    have hP : P state := hinline decodeState hdecode state hstate
    refine .bind_ok (Effect.exec_modify _ _) ?_
    have h₁ : Q ({ r with
        dag := r.dag.push [] none state
        epochBase := r.epochBase.insert r.dag.nextId parentGids.head?.join } : Replica D γ) :=
      hQ.pushed h (List.forall_mem_nil _) hP ⟨rfl, rfl, rfl, rfl, rfl, rfl,
        List.Subset.refl _, fun x hx => by
          rw [SortedMap.has_insert] at hx
          by_cases hid : x = r.dag.nextId
          · exact Or.inr (by simp [hid, Dag.opOf, Dag.has_push])
          · exact Or.inl (by simpa [hid] using hx)⟩ rfl
    refine .bind_lift h₁ fun g _ => .bind (ends_checkGid h₁ g wireGid) fun _ r' hcheck _ => ?_
    have hr' : r' = { r with
        dag := r.dag.push [] none state
        epochBase := r.epochBase.insert r.dag.nextId parentGids.head?.join } := by
      rw [checkGid] at hcheck
      split_ifs at hcheck
      · cases hcheck
      · cases hcheck
        rfl
    subst hr'
    refine .bind_ok (Effect.exec_modify _ _) (.pure ?_ _)
    exact hQ.named h₁ (by simp [Dag.has_push]) (hQ.sound h).gid_nextId
      (.of_eq rfl rfl rfl rfl rfl rfl rfl rfl) rfl

theorem ends_ingestCompact (wireGid : Option γ) (p : ℕ) (cut : D.Cut) {wireState : D.Wire}
    (hinline : ∀ decodeState, D.decodeState = some decodeState →
      Yields P (decodeState wireState)) :
    Effect.Ends Q (ingestCompact H wireGid localParents p cut wireState) r := by
  rw [ingestCompact]
  split
  · exact .throw h _
  · rename_i decodeState hdecode
    refine .bind_get (.bind_lift h fun state hstate => .bind_lift h fun parent _ =>
      .bind_lift h fun inv _ => .bind_ok (Effect.exec_set _ r) ?_)
    have h₁ (E : EpochDag D γ) : Q ({ r with epochDag := E } : Replica D γ) :=
      hQ.kept h (.of_eq rfl rfl rfl rfl rfl rfl rfl rfl) (.inl rfl)
    refine .bind (hQ.ends_file ?_ ?_ ?_) fun c r' _ h' => ?_
    · exact h₁ _
    · exact hp
    · exact hinline decodeState hdecode state hstate
    · exact .bind (ends_checkGid h' _ _) fun _ r' _ h' => .pure h' _

theorem ends_ingestMerge (wireGid : Option γ) :
    Effect.Ends Q (ingestMerge H wireGid localParents) r := by
  unfold ingestMerge
  split
  · refine .bind (hQ.ends_joinState h _ _) fun s r' hjoin h' => ?_
    have hP : P s.1 := returns_joinState hQ.closed (hQ.holds h) _ _ s r' hjoin
    obtain ⟨E, rfl⟩ := exists_eq_of_exec_joinState hjoin
    refine .bind (hQ.ends_file h' hp hP) fun c r' _ h' => ?_
    exact .bind (ends_checkGid h' _ _) fun _ r' _ h' => .pure h' _
  · exact .throw h _

end Ingest

/-- The content ids of the parents that a commit names, if the replica has them all. -/
theorem exists_localGids {parentGids : List (Option γ)}
    (hclosed : (parentGids.filterMap fun g => g.bind r.byGid.get?).length = parentGids.length) :
    ∃ pgs : List γ, parentGids = pgs.map some ∧
      (parentGids.filterMap fun g => g.bind r.byGid.get?).map r.gid.get? = pgs.map some := by
  induction parentGids with
  | nil => exact ⟨[], rfl, rfl⟩
  | cons g gs ih =>
    cases hx : g.bind r.byGid.get? with
    | none =>
      simp only [List.filterMap_cons, hx, List.length_cons] at hclosed
      have := List.length_filterMap_le (fun g : Option γ => g.bind r.byGid.get?) gs
      omega
    | some x =>
      simp only [List.filterMap_cons, hx, List.length_cons, Nat.add_right_cancel_iff] at hclosed
      obtain ⟨pgs, rfl, hgids⟩ := ih hclosed
      obtain ⟨pg, rfl, hpg⟩ := Option.bind_eq_some_iff.mp hx
      refine ⟨pg :: pgs, rfl, ?_⟩
      simp only [List.filterMap_cons, hx, List.map_cons, hgids, (hQ.sound h).found pg x hpg]

theorem ends_ingestNew {wc : WireCommit D γ} {parentGids : List (Option γ)}
    (hW : Accepts H P W wc parentGids) : Effect.Ends Q (ingestNew H wc parentGids) r := by
  refine .bind (hQ.ends_reconstructRoot h parentGids) fun _ r' _ h' => .bind_get ?_
  have hp : ∀ p ∈ parentGids.filterMap fun g => g.bind r'.byGid.get?, r'.dag.has p = true := by
    intro p hp
    obtain ⟨g, -, hg⟩ := List.mem_filterMap.mp hp
    obtain ⟨k, -, hk⟩ := Option.bind_eq_some_iff.mp hg
    exact (hQ.sound h').has_of_byGid hk
  dsimp only
  split_ifs with hclosed
  · exact .bind_throw h' _
  · split
    · rename_i hbody
      split
      · refine hQ.ends_ingestBase h' hp _ _ _ _ _ fun decodeState hdecode => ?_
        exact hW.inline decodeState hdecode _ (by simp [hbody, WireBody.state])
      · exact .throw h' _
    · rename_i replica seq payload hbody
      have hlength : (parentGids.filterMap fun g => g.bind r'.byGid.get?).length =
          parentGids.length := by
        simpa only [hbody, WireBody.isCompact, Bool.false_and, Bool.not_false, Bool.and_true,
          Bool.not_eq_true', decide_eq_false_iff_not, not_not] using hclosed
      obtain ⟨pgs, hpgs, hgids⟩ := hQ.exists_localGids h' hlength
      exact hQ.ends_ingestOp h' _ hgids (hW.op { replica, seq, payload } hbody pgs hpgs)
    · rename_i hbody
      have hinline (decodeState) (hdecode : D.decodeState = some decodeState) :=
        hW.inline decodeState hdecode _ (by rw [hbody]; rfl)
      split
      · exact hQ.ends_ingestCompact h' hp _ _ _ hinline
      · exact hQ.ends_ingestEpochBase h' _ _ _ hinline
    · exact hQ.ends_ingestMerge h' hp ..

theorem ends_ingestFrom {prior : Option γ} {wireCommits : List (WireCommit D γ)}
    (hW : ∀ wc ∈ wireCommits, ∀ prior, Accepts H P W wc (wc.parents.map fun p => p.or prior)) :
    Effect.Ends Q (ingestFrom H prior wireCommits) r := by
  induction wireCommits generalizing prior r with
  | nil => exact .pure h _
  | cons wc rest ih =>
    rw [List.forall_mem_cons] at hW
    refine .bind_get ?_
    split_ifs
    · exact ih h hW.2
    · refine .bind (hQ.ends_ingestNew h (hW.1 prior)) fun g r' _ h' => ?_
      exact .bind (ih h' hW.2) fun n r' _ h' => .pure h' _

omit h in
/-- The frontier is recomputed after the loop. -/
theorem ends_ingest_of_ingestFrom {wireCommits : List (WireCommit D γ)}
    (hfrom : Effect.Ends Q (ingestFrom H none wireCommits) r) :
    Effect.Ends Q (ingest H wireCommits) r := by
  refine .bind hfrom fun n r' _ h' => ?_
  split_ifs
  · exact .bind (hQ.ends_refresh h') fun _ r' _ h' => .pure h' _
  · exact .pure h' _

theorem ends_ingest {wireCommits : List (WireCommit D γ)}
    (hW : ∀ wc ∈ wireCommits, ∀ prior, Accepts H P W wc (wc.parents.map fun p => p.or prior)) :
    Effect.Ends Q (ingest H wireCommits) r :=
  hQ.ends_ingest_of_ingestFrom (hQ.ends_ingestFrom h hW)

theorem ends_mergeWithGid (g : γ) : Effect.Ends Q (mergeWithGid H g) r := by
  refine .bind_get ?_
  split
  · exact .throw h _
  · rename_i b hb
    have hgid := (hQ.sound h).found g b hb
    have hhas := (hQ.sound h).has_of_byGid hb
    dsimp only
    split_ifs
    · exact .pure h _
    · refine .bind_lift h fun headC _ => ?_
      split_ifs
      · exact .bind (hQ.ends_setHead h hgid) fun _ r' _ h' => .bind_get (.pure h' _)
      · refine .bind_lift h fun fwd _ => ?_
        split_ifs
        · exact .bind (hQ.ends_setHead h hgid) fun _ r' _ h' => .bind_get (.pure h' _)
        · refine .bind_lift h fun back _ => ?_
          split_ifs
          · refine .bind (hQ.ends_joinState h _ b) fun s r' hjoin h' => ?_
            have hP : P s.1 := returns_joinState hQ.closed (hQ.holds h) _ _ s r' hjoin
            obtain ⟨E, rfl⟩ := exists_eq_of_exec_joinState hjoin
            have hp : ∀ p ∈ [r.headId, b], r.dag.has p = true := by
              simp [(hQ.sound h).head, hhas]
            refine .bind (hQ.ends_file h' hp hP) fun c r' hfile h'' => ?_
            obtain ⟨hid, rfl, -⟩ := eq_filed_of_exec_file (g := c.2)
              (r := { r with epochDag := E }) hp _ hfile
            refine .bind (hQ.ends_setHead h'' (g := c.2) ?_) fun _ r' _ h' => .bind_get (.pure h' _)
            rw [hid]
            exact SortedMap.get?_insert_self ..
          · exact .bind_get (.pure h _)

theorem ends_acknowledgeFetch (peer : String) (headGid : γ) (epochKey : EpochKey γ) :
    Effect.Ends Q (acknowledgeFetch peer headGid epochKey : Call D γ Bool) r := by
  obtain ⟨x, acks, heq⟩ := exec_acknowledgeFetch r peer headGid epochKey
  exact .of_exec_eq heq (hQ.kept h (.of_eq rfl rfl rfl rfl rfl rfl rfl rfl) (.inl rfl))

theorem yields_headState : Yields P r.headState :=
  .bind fun _ hc => .ok ((hQ.holds h).of_get hc)

theorem ends_compactStable (opts : CompactOpts) : Effect.Ends Q (compactStable H opts) r := by
  rw [compactStable]
  split
  · rename_i compact _ hcompact _
    refine .bind_get (.bind_lift h fun sc _ => ?_)
    dsimp only
    split_ifs
    · exact .pure h _
    · exact .pure h _
    · refine .bind_lift h fun head hhead => .bind_lift h fun result hresult => ?_
      have hP : P result.state := hQ.closed.compact hcompact _ _
        (hQ.yields_headState h head hhead) result hresult
      split_ifs
      · exact .pure h _
      · have hp : ∀ p ∈ [r.headId], r.dag.has p = true := by simpa using (hQ.sound h).head
        refine .bind_lift h fun inv _ => .bind_ok (exec_add hp) ?_
        set r₁ : Replica D γ := { r with dag := r.dag.push [r.headId] none result.state }
        have h₁ : Q r₁ := hQ.pushed h hp hP (.of_eq rfl rfl rfl rfl rfl rfl rfl rfl) rfl
        have hhas : r₁.dag.has r.dag.nextId = true := by simp [r₁, Dag.has_push]
        cases hid : commitContentId H (r.nextCommit [r.headId] none result.state)
            (r₁.parentGids (r.nextCommit [r.headId] none result.state)) with
        | error e =>
          exact .bind (.of_exec_eq (exec_index_of_error hid) h₁) fun g r' hindex _ => by
            rw [exec_index_of_error hid] at hindex
            cases hindex
        | ok g =>
          refine .bind_ok (exec_index_of_ok hid) (.bind_ok (Effect.exec_modify _ _)
            (.bind_ok (Effect.exec_modify _ _) ?_))
          refine .bind (hQ.ends_setHead (g := g) ?_ ?_) fun _ r' _ h' => .pure h' _
          · exact hQ.named (g := g) h₁ hhas (hQ.sound h).gid_nextId
              (.of_eq rfl rfl rfl rfl rfl rfl rfl rfl) rfl
          · exact SortedMap.get?_insert_self ..
  · exact .pure h _

end Stable

/-! ### Collection -/

/-- The replica with a collected store, whose commits that lost parents are boundaries. -/
def collected (r : Replica D γ) (dag : Dag D.State (Payload D.Op)) (stats : Dag.GcStats) :
    Replica D γ :=
  ({ r with
    dag
    gcBoundary := r.gcBoundary ++ dag.ids.filter fun id =>
      (dag.parentsOf id).length < (r.dag.parentsOf id).length && !r.epochBase.has id &&
        decide (id ∉ r.gcBoundary)
    gcClosed := r.gcClosed || decide (stats.dropped > 0) } : Replica D γ).dropIndexes

/-- **What a collection leaves**: nothing has changed, or the store was collected. -/
theorem ends_gc_of {Q : Replica D γ → Prop} (h : Q r)
    (hcollected : ∀ dag stats, r.dag.runGc (r.headId :: r.frontier.values.map Evidence.id) =
      .ok (dag, stats) → Q (r.collected dag stats)) :
    Effect.Ends Q (gc : Call D γ GcOutcome) r := by
  refine .bind_get ?_
  dsimp only
  split_ifs
  · exact .pure h _
  · refine .bind_lift h fun res hres => ?_
    exact .bind_ok (Effect.exec_set _ r) (.pure (hcollected res.1 res.2 hres) _)

/-- A candidate is in the closure, and carries no operation. -/
theorem of_foldl_betterCandidate {ids : List ℕ} {best : Option Candidate} {k : Candidate}
    (hk : ids.foldl r.betterCandidate best = some k) :
    (k.id ∈ ids ∧ r.dag.opOf k.id = none) ∨ best = some k := by
  induction ids generalizing best with
  | nil => exact Or.inr hk
  | cons id ids ih =>
    rcases ih hk with ⟨hmem, hnone⟩ | hbest
    · exact Or.inl ⟨List.mem_cons_of_mem _ hmem, hnone⟩
    · rw [betterCandidate] at hbest
      split at hbest
      · split_ifs at hbest with hcompact
        · cases hbest
          simp only [Bool.and_eq_true, Option.isNone_iff_eq_none] at hcompact
          exact Or.inl ⟨List.mem_cons_self, hcompact.1.1⟩
        · exact Or.inr hbest
      · exact Or.inr hbest

/-- The replica with the history `below` cut off from the commit `k`. -/
def pruned (r : Replica D γ) (k : ℕ) (dag : Dag D.State (Payload D.Op)) (parentGid : Option γ)
    (below : List ℕ) : Replica D γ :=
  ({ r with dag, epochBase := r.epochBase.insert k parentGid } : Replica D γ).removeCommits below

/-- **What pruning leaves**: nothing has changed, or the history below a compaction was cut off. -/
theorem ends_pruneToEpochBase_of {Q : Replica D γ → Prop} (h : Q r)
    (hfrontier : ∀ {r'}, Q r' → ∀ frontier, Q { r' with frontier })
    (hpruned : ∀ {closure k p ps below dag}, r.dag.ancestorSet r.headId = .ok closure →
      closure.foldl r.betterCandidate none = some k → r.dag.parentsOf k.id = p :: ps →
      r.dag.ancestorSet p = .ok below → r.dag.sever k.id = .ok dag →
      Q (r.pruned k.id dag (r.gid.get? p) below)) :
    Effect.Ends Q (pruneToEpochBase : Call D γ PruneOutcome) r := by
  refine .bind_get (.bind_lift h fun closure hclosure => ?_)
  split
  · exact .pure h _
  · rename_i k hk
    split
    · exact .pure h _
    · rename_i p ps hp
      refine .bind_lift h fun sc _ => ?_
      split_ifs
      · exact .pure h _
      · refine .bind_lift h fun late _ => ?_
        split
        · exact .pure h _
        · refine .bind_lift h fun below hbelow => .bind_lift h fun dag hdag => ?_
          refine .bind_ok (Effect.exec_set _ r) ?_
          have h' := hpruned hclosure hk hp hbelow hdag
          refine .bind (m := refresh) ?_ fun _ r' _ h' => .pure h' _
          exact .bind_get (.bind_lift h' fun frontier _ => .of_exec_eq (Effect.exec_set _ _)
            (hfrontier h' frontier))

namespace Sound

/-- Soundness is stable, whatever is ingested. -/
theorem stable : Stable H (fun _ => True) (fun _ _ => True) (Sound H : Replica D γ → Prop) where
  closed := D.closed_true
  applied _ _ _ _ := trivial
  sound h := h
  holds _ _ _ _ := trivial
  kept h halike hhead := h.congr halike.dag halike.gid halike.byGid halike.rootGid (by
    rcases hhead with heq | ⟨g, hg⟩
    · exact heq ▸ h.head
    · exact h.stored _ g hg)
  pushed h hp _ halike hhead :=
    h.pushed hp halike.dag halike.gid halike.byGid halike.rootGid hhead
  named h hx hnone halike hhead :=
    h.named hx hnone halike.dag halike.gid halike.byGid halike.rootGid (hhead ▸ h.head)
  operation {r parents _ _ _ pgs} h _ hgids _ _ := h.filed (fun p hp => by
    have hmem := List.mem_map_of_mem (f := r.gid.get?) hp
    rw [hgids, List.mem_map] at hmem
    obtain ⟨pg, -, hpg⟩ := hmem
    exact h.stored p pg hpg.symm) _

variable (h : Sound H r)

include h

theorem ends_author (payload : Payload D.Op) (state : D.State) :
    Effect.Ends (Sound H) (author H payload state) r := by
  refine .bind_get (.bind_ok (Effect.exec_set _ r) ?_)
  set r₁ : Replica D γ := { r with seq := r.seq + 1 }
  have h₁ : Sound H r₁ := h.congr rfl rfl rfl rfl h.head
  have hp : ∀ p ∈ [r.headId], r₁.dag.has p = true := by simpa using h.head
  refine .bind (h₁.ends_file hp) fun c r' hfile h' => ?_
  obtain ⟨hid, rfl, -⟩ := eq_filed_of_exec_file (g := c.2) hp _ hfile
  refine .bind (h'.ends_setHead ?_) fun _ r' _ h' => .pure h' _
  exact hid ▸ has_filed_self

theorem ends_commit (payload : D.Op) : Effect.Ends (Sound H) (commit H payload) r :=
  .bind_get (.bind_lift h fun _ _ => .bind_lift h fun _ _ => .bind_lift h fun state _ =>
    h.ends_author _ state)

theorem ends_commitBatch (ops : List D.Op) :
    Effect.Ends (Sound H) (commitBatch H ops) r := by
  refine .bind_get ?_
  split
  · exact .pure h _
  · exact h.ends_commit _
  · refine .bind_lift h fun head _ => ?_
    split_ifs
    · exact .bind_lift h fun ps _ => h.ends_author _ _
    · exact .bind_lift h fun state _ => h.ends_author _ state

theorem ends_ingestNew (wc : WireCommit D γ) (parentGids : List (Option γ)) :
    Effect.Ends (Sound H) (ingestNew H wc parentGids) r :=
  stable.ends_ingestNew h (accepts_true wc parentGids)

theorem ends_ingest (wireCommits : List (WireCommit D γ)) :
    Effect.Ends (Sound H) (ingest H wireCommits) r :=
  stable.ends_ingest h fun wc _ _ => accepts_true wc _

theorem ends_mergeWithGid (g : γ) : Effect.Ends (Sound H) (mergeWithGid H g) r :=
  stable.ends_mergeWithGid h g

theorem ends_acknowledgeFetch (peer : String) (headGid : γ) (epochKey : EpochKey γ) :
    Effect.Ends (Sound H) (acknowledgeFetch peer headGid epochKey : Call D γ Bool) r :=
  stable.ends_acknowledgeFetch h peer headGid epochKey

theorem ends_compactStable (opts : CompactOpts) :
    Effect.Ends (Sound H) (compactStable H opts) r :=
  stable.ends_compactStable h opts

/-- Forgetting the indexes of commits that were removed. -/
theorem dropIndexes {r' : Replica D γ} (hwf : r'.dag.Wf) (hhead : r'.dag.has r'.headId = true)
    (hgid : r'.gid = r.gid) (hbyGid : r'.byGid = r.byGid) (hroot : r'.rootGid = r.rootGid) :
    Sound H r'.dropIndexes where
  wf := hwf
  head := hhead
  stored x g hg := by
    simp only [Replica.dropIndexes, SortedMap.get?_foldl_erase, List.mem_filter, hgid] at hg ⊢
    split_ifs at hg with hgone
    by_contra hhas
    exact hgone ⟨SortedMap.mem_keys_iff.mpr ⟨g, hg⟩, by simpa using hhas⟩
  found g x hg := by
    simp only [Replica.dropIndexes, SortedMap.get?_foldl_erase, List.mem_filterMap, hgid,
      hbyGid] at hg ⊢
    split_ifs at hg with hgone
    have hx := h.found g x hg
    rw [if_neg, hx]
    exact fun hmem => hgone ⟨x, hmem, hx⟩
  rootGid := hroot.trans h.rootGid

/-- Collecting the history below some commits, the head among them. -/
theorem collected {heads : List ℕ} {dag : Dag D.State (Payload D.Op)} {stats : Dag.GcStats}
    (hcollected : r.dag.runGc (r.headId :: heads) = .ok (dag, stats)) :
    Sound H (r.collected dag stats) := by
  obtain ⟨hwf, hkept⟩ := h.wf.runGc hcollected
  exact h.dropIndexes hwf (hkept _ List.mem_cons_self h.head) rfl rfl rfl

theorem ends_gc : Effect.Ends (Sound H) (gc : Call D γ GcOutcome) r :=
  ends_gc_of h fun _ _ => h.collected

/-- Removing commits other than the head. -/
theorem removeCommits {r' : Replica D γ} {below : List ℕ} (hwf : r'.dag.Wf)
    (hhas : ∀ x, r'.dag.has x = r.dag.has x) (hhead : r'.headId = r.headId)
    (hgid : r'.gid = r.gid) (hbyGid : r'.byGid = r.byGid) (hroot : r'.rootGid = r.rootGid)
    (hbelow : r.headId ∉ below) : Sound H (r'.removeCommits below) where
  wf := hwf.foldl_remove below
  head := by
    rw [Replica.removeCommits, Dag.has_foldl_remove, hhead, hhas, h.head]
    simpa using hbelow
  stored x g hg := by
    simp only [Replica.removeCommits, SortedMap.get?_foldl_erase, hgid] at hg
    split_ifs at hg with hx
    rw [Replica.removeCommits, Dag.has_foldl_remove, hhas, h.stored x g hg]
    simpa using hx
  found g x hg := by
    simp only [Replica.removeCommits, SortedMap.get?_foldl_erase, List.mem_filterMap, hgid,
      hbyGid] at hg ⊢
    split_ifs at hg with hgone
    have hx := h.found g x hg
    rw [if_neg, hx]
    exact fun hmem => hgone ⟨x, hmem, hx⟩
  rootGid := hroot.trans h.rootGid

/-- What is pruned is older than the base, and the head is not. -/
theorem headId_not_mem_below {closure below : List ℕ} {k : Candidate} {p : ℕ} {ps : List ℕ}
    (hclosure : r.dag.ancestorSet r.headId = .ok closure)
    (hk : closure.foldl r.betterCandidate none = some k) (hp : r.dag.parentsOf k.id = p :: ps)
    (hbelow : r.dag.ancestorSet p = .ok below) : r.headId ∉ below := by
  intro hmem
  rw [Dag.ancestorSet_eq h.head, Except.ok.injEq] at hclosure
  have hkmem : k.id ∈ closure := ((of_foldl_betterCandidate hk).resolve_right (by simp)).1
  have hhead := (Dag.mem_ancestors_iff h.head).mp (hclosure ▸ hkmem)
  obtain ⟨c, hc, hpc⟩ := Dag.mem_parentsOf_iff.mp (hp ▸ List.mem_cons_self)
  have hlt : p < k.id := h.wf.parent_lt k.id c hc p hpc
  have hhasp : r.dag.has p = true := by
    by_contra hnone
    rw [Bool.not_eq_true, Dag.has, SortedMap.has_eq_false_iff] at hnone
    simp [Dag.ancestorSet, Dag.get, hnone, bind, Except.bind] at hbelow
  rw [Dag.ancestorSet_eq hhasp, Except.ok.injEq] at hbelow
  have hle : k.id ≤ r.headId := Ancestry.rank_le_of_reaches h.wf.par_lt hhead
  have hle' : r.headId ≤ p := Ancestry.rank_le_of_reaches h.wf.par_lt
    ((Dag.mem_ancestors_iff hhasp).mp (hbelow ▸ hmem))
  omega

/-- Cutting the history of the head off below a compaction. -/
theorem pruned {closure below : List ℕ} {k : Candidate} {p : ℕ} {ps : List ℕ}
    {dag : Dag D.State (Payload D.Op)} (hclosure : r.dag.ancestorSet r.headId = .ok closure)
    (hk : closure.foldl r.betterCandidate none = some k) (hp : r.dag.parentsOf k.id = p :: ps)
    (hbelow : r.dag.ancestorSet p = .ok below) (hdag : r.dag.sever k.id = .ok dag)
    (parentGid : Option γ) : Sound H (r.pruned k.id dag parentGid below) := by
  have hhead : r.headId ∉ below := h.headId_not_mem_below hclosure hk hp hbelow
  refine h.removeCommits (h.wf.sever hdag) (fun x => ?_) rfl rfl rfl rfl hhead
  obtain ⟨c, hc, rfl⟩ := Dag.sever_eq_ok hdag
  by_cases hx : x = k.id
  · simp [Dag.has, SortedMap.has_insert, hx, SortedMap.has_iff.mpr ⟨c, hc⟩]
  · simp [Dag.has, SortedMap.has_insert, hx]

theorem ends_pruneToEpochBase :
    Effect.Ends (Sound H) (pruneToEpochBase : Call D γ PruneOutcome) r :=
  ends_pruneToEpochBase_of h (fun h' _ => h'.congr rfl rfl rfl rfl h'.head)
    fun hclosure hk hp hbelow hdag => h.pruned hclosure hk hp hbelow hdag _

/-- **Calls keep the indexes sound.** -/
theorem ends_perform (request : Request D γ) :
    Effect.Ends (Sound H) (Replica.perform H request) r := by
  cases request with
  | register name => exact stable.ends_register h name
  | commit payload => exact .bind (h.ends_commit payload) fun _ r' _ h' => .pure h' _
  | commitBatch ops => exact .bind (h.ends_commitBatch ops) fun _ r' _ h' => .pure h' _
  | ingest wireCommits => exact .bind (h.ends_ingest wireCommits) fun _ r' _ h' => .pure h' _
  | mergeWithGid g => exact .bind (h.ends_mergeWithGid g) fun _ r' _ h' => .pure h' _
  | acknowledgeFetch peer headGid epochKey =>
    exact .bind (h.ends_acknowledgeFetch peer headGid epochKey) fun _ r' _ h' => .pure h' _
  | compactStable opts => exact .bind (h.ends_compactStable opts) fun _ r' _ h' => .pure h' _
  | gc => exact .bind h.ends_gc fun _ r' _ h' => .pure h' _
  | pruneToEpochBase => exact .bind h.ends_pruneToEpochBase fun _ r' _ h' => .pure h' _

end Sound

theorem Indexed.sound (h : Indexed H r) : Sound H r :=
  ⟨h.wf, h.head, h.stored, h.found, h.rootGid⟩

/-- **Reachable replicas are sound.** -/
theorem Reachable.sound (h : Reachable H r) : Sound H r := by
  induction h with
  | create name => exact (indexed_create name).sound
  | perform _ request ih => exact ih.ends_perform request

end Replica

end SalRuntime
