import SalRuntime.Replica.Histories
import SalRuntime.Sync.Peer

/-!
# What a peer holds

The store of a peer is a part of the common history of content ids: every commit is filed under the id
of its content, once, and its ancestry is held with it.

## Main definitions

* `Peer.Hashes`, `Peer.Indexed` — every commit is filed under the id of its content.
* `Peer.held` — the content ids that a peer holds.
* `ContentHash.made`, `ContentHash.pastOf` — the operation of a content id, and those in its ancestry.
* `Peer.opsAt`, `Peer.events` — the operation of a commit, and those that the head has seen.

## Main results

* `Peer.Indexed.labelled` — the store is a part of the history of content ids.
* `Peer.Indexed.filed` — filing a commit that is not held keeps the store indexed.
-/

namespace SalRuntime

variable {D : Datatype} {γ : Type} [LinearOrder γ]

/-- The operation of a content id, as a set. -/
def ContentHash.made {ω φ γ : Type} (H : ContentHash ω φ γ) (g : γ) : Set ω :=
  {op | ∃ parents replica seq, H.digest (.authored parents replica seq (.one op)) = g}

/-- The operations in the ancestry of a content id. -/
abbrev ContentHash.pastOf {ω φ γ : Type} (H : ContentHash ω φ γ) (g : γ) : Set ω :=
  past H.Par H.made g

theorem ContentHash.made_authored {ω φ γ : Type} (H : ContentHash ω φ γ) (parents : List γ)
    (replica : String) (seq : ℕ) (op : ω) :
    H.made (H.digest (.authored parents replica seq (.one op))) = {op} := by
  ext o
  constructor
  · rintro ⟨parents', replica', seq', h⟩
    injection H.injective h with _ _ _ hop
    injection hop
  · rintro rfl
    exact ⟨parents, replica, seq, rfl⟩

theorem ContentHash.made_merge {ω φ γ : Type} (H : ContentHash ω φ γ) (parents : List γ) :
    H.made (H.digest (.merge parents)) = ∅ := by
  ext o
  simp only [made, Set.mem_ofPred_eq, Set.mem_empty_iff_false, iff_false]
  rintro ⟨_, _, _, h⟩
  cases H.injective h

theorem ContentHash.made_root {ω φ γ : Type} (H : ContentHash ω φ γ) :
    H.made (H.digest .root) = ∅ := by
  ext o
  simp only [made, Set.mem_ofPred_eq, Set.mem_empty_iff_false, iff_false]
  rintro ⟨_, _, _, h⟩
  cases H.injective h

namespace Peer

/-- What the content id of a commit hashes: a commit is the root, an operation on one parent, or a merge
of two. -/
inductive Hashes (p : Peer D γ) (c : Commit D.State (Payload D.Op)) :
    Preimage D.Op D.Print γ → Prop
  | root (hp : c.parents = []) (hop : c.op = none) : Hashes p c .root
  | authored {q : ℕ} {pg : γ} {replica : String} {seq : ℕ} {payload : D.Op} (hp : c.parents = [q])
      (hpg : p.gid.get? q = some pg) (hop : c.op = some ⟨replica, seq, .one payload⟩) :
      Hashes p c (.authored [pg] replica seq (.one payload))
  | merge {q r : ℕ} {x y : γ} (hp : c.parents = [q, r]) (hx : p.gid.get? q = some x)
      (hy : p.gid.get? r = some y) (hop : c.op = none) :
      Hashes p c (.merge ([x, y].insertionSort (· ≤ ·)))

/-- Every commit of the store is filed under the id of its content, and no content id twice. -/
structure Indexed (H : ContentHash D.Op D.Print γ) (p : Peer D γ) : Prop where
  /-- The store is well formed. -/
  wf : p.dag.Wf
  /-- A commit has the id of its content. -/
  content : ∀ x c, p.dag.commits.get? x = some c → ∃ pre, p.Hashes c pre ∧
    p.gid.get? x = some (H.digest pre)
  /-- Content ids belong to stored commits. -/
  stored : ∀ x g, p.gid.get? x = some g → p.dag.has x = true
  /-- The two indexes are inverse. -/
  byGid : ∀ x g, p.byGid.get? g = some x ↔ p.gid.get? x = some g
  /-- The head is in the store. -/
  head : p.dag.has p.headId = true

/-- The content ids that a peer holds. -/
def held (p : Peer D γ) : Set γ := {g | ∃ x, p.gid.get? x = some g}

/-- The operation of a commit, as a set. -/
def opsAt (p : Peer D γ) (x : ℕ) : Set D.Op :=
  {op | ∃ replica seq, p.dag.opOf x = some ⟨replica, seq, .one op⟩}

/-- The operations that the head has seen. -/
def events (p : Peer D γ) : Set D.Op := past p.dag.Par p.opsAt p.headId

variable {H : ContentHash D.Op D.Print γ} {p : Peer D γ}

/-! ### Content ids of commits -/

/-- The parents that the content id of a commit hashes are those of its parents. -/
theorem Hashes.mem_parents_iff {c : Commit D.State (Payload D.Op)} {pre : Preimage D.Op D.Print γ}
    (h : p.Hashes c pre) {pg : γ} :
    pg ∈ pre.parents ↔ ∃ q ∈ c.parents, p.gid.get? q = some pg := by
  cases h with
  | root hp hop => simp [Preimage.parents, hp]
  | authored hp hpg hop => simp [Preimage.parents, hp, hpg, eq_comm]
  | @merge q r x y hp hx hy hop =>
    have hmem : pg ∈ [x, y].insertionSort (· ≤ ·) ↔ pg ∈ [x, y] :=
      (List.perm_insertionSort (· ≤ ·) _).mem_iff
    simp only [Preimage.parents, hp, hmem]
    simp [hx, hy, eq_comm]

theorem Hashes.exists_gid {c : Commit D.State (Payload D.Op)} {pre : Preimage D.Op D.Print γ}
    (h : p.Hashes c pre) {q : ℕ} (hq : q ∈ c.parents) : ∃ pg, p.gid.get? q = some pg := by
  cases h with
  | root hp hop => simp [hp] at hq
  | authored hp hpg hop =>
    rw [hp, List.mem_singleton] at hq
    exact ⟨_, hq ▸ hpg⟩
  | merge hp hx hy hop =>
    rw [hp] at hq
    rcases List.mem_pair.mp hq with rfl | rfl
    · exact ⟨_, hx⟩
    · exact ⟨_, hy⟩

/-- **The content id of a commit** is computed from what it hashes. -/
theorem Hashes.commitContentId_eq {c : Commit D.State (Payload D.Op)}
    {pre : Preimage D.Op D.Print γ} (h : p.Hashes c pre) :
    commitContentId H c (c.parents.filterMap p.gid.get?) = .ok (H.digest pre) := by
  cases h with
  | root hp hop => simp [commitContentId, hp]
  | authored hp hpg hop => simp [commitContentId, hp, hpg, hop]
  | merge hp hx hy hop => simp [commitContentId, hp, hx, hy, hop]

/-- What is hashed depends on the content ids of the parents only. -/
theorem Hashes.congr {p' : Peer D γ} {c : Commit D.State (Payload D.Op)}
    {pre : Preimage D.Op D.Print γ} (h : p.Hashes c pre)
    (hgid : ∀ q ∈ c.parents, p'.gid.get? q = p.gid.get? q) : p'.Hashes c pre := by
  cases h with
  | root hp hop => exact .root hp hop
  | authored hp hpg hop => exact .authored hp (by rw [hgid _ (by simp [hp]), hpg]) hop
  | merge hp hx hy hop =>
    exact .merge hp (by rw [hgid _ (by simp [hp]), hx]) (by rw [hgid _ (by simp [hp]), hy]) hop

/-- The operation of a commit is that of its content id. -/
theorem Hashes.mem_made_iff {c : Commit D.State (Payload D.Op)} {pre : Preimage D.Op D.Print γ}
    (h : p.Hashes c pre) {op : D.Op} :
    op ∈ H.made (H.digest pre) ↔ ∃ replica seq, c.op = some ⟨replica, seq, .one op⟩ := by
  cases h with
  | root hp hop => simp [ContentHash.made_root, hop]
  | authored hp hpg hop =>
    rw [ContentHash.made_authored, hop]
    simp [eq_comm]
  | merge hp hx hy hop => simp [ContentHash.made_merge, hop]

/-! ### The store as a part of the history -/

namespace Indexed

variable (h : Indexed H p)

include h

theorem exists_gid {x : ℕ} (hx : p.dag.has x = true) : ∃ g, p.gid.get? x = some g := by
  obtain ⟨c, hc⟩ := Dag.has_iff.mp hx
  obtain ⟨pre, -, hg⟩ := h.content x c hc
  exact ⟨_, hg⟩

theorem has_parent {x q : ℕ} {c : Commit D.State (Payload D.Op)}
    (hc : p.dag.commits.get? x = some c) (hq : q ∈ c.parents) : p.dag.has q = true := by
  obtain ⟨pre, hpre, -⟩ := h.content x c hc
  obtain ⟨pg, hpg⟩ := hpre.exists_gid hq
  exact h.stored q pg hpg

theorem par_iff {x q : ℕ} :
    p.dag.Par x q ↔ ∃ c, p.dag.commits.get? x = some c ∧ q ∈ c.parents := by
  rw [Dag.par_iff]
  constructor
  · rintro ⟨c, hc, hq, -⟩
    exact ⟨c, hc, hq⟩
  · rintro ⟨c, hc, hq⟩
    exact ⟨c, hc, hq, h.has_parent hc hq⟩

theorem gid_injective {x y : ℕ} {g : γ} (hx : p.gid.get? x = some g) (hy : p.gid.get? y = some g) :
    x = y := by
  rw [← h.byGid] at hx hy
  exact Option.some.inj (hx.symm.trans hy)

/-- **The store is a part of the history of content ids.** -/
theorem labelled : LabelledBy p.dag.Par H.Par p.gid.get? where
  forth := by
    intro x q hpar
    obtain ⟨c, hc, hq⟩ := h.par_iff.mp hpar
    obtain ⟨pre, hpre, hg⟩ := h.content x c hc
    obtain ⟨pg, hpg⟩ := hpre.exists_gid hq
    exact ⟨_, pg, hg, hpg, (H.par_digest_iff).mpr (hpre.mem_parents_iff.mpr ⟨q, hq, hpg⟩)⟩
  back := by
    intro x g pg hg hpar
    obtain ⟨c, hc⟩ := Dag.has_iff.mp (h.stored x g hg)
    obtain ⟨pre, hpre, hg'⟩ := h.content x c hc
    rw [hg, Option.some.injEq] at hg'
    rw [hg', ContentHash.par_digest_iff] at hpar
    obtain ⟨q, hq, hpg⟩ := hpre.mem_parents_iff.mp hpar
    exact ⟨q, h.par_iff.mpr ⟨c, hc, hq⟩, hpg⟩
  injective := h.gid_injective

/-- What a held content id reaches is held. -/
theorem held_of_reaches {g k : γ} (hg : g ∈ p.held) (hr : H.Reaches g k) : k ∈ p.held := by
  obtain ⟨x, hx⟩ := hg
  obtain ⟨y, -, hy⟩ := h.labelled.exists_reaches hx hr
  exact ⟨y, hy⟩

/-- The operation of a commit is that of its content id. -/
theorem opsAt_eq {x : ℕ} {g : γ} (hg : p.gid.get? x = some g) : p.opsAt x = H.made g := by
  obtain ⟨c, hc⟩ := Dag.has_iff.mp (h.stored x g hg)
  obtain ⟨pre, hpre, hg'⟩ := h.content x c hc
  rw [hg, Option.some.injEq] at hg'
  ext op
  rw [hg', hpre.mem_made_iff]
  simp [opsAt, Dag.opOf, hc]

theorem past_eq {x : ℕ} {g : γ} (hg : p.gid.get? x = some g) :
    past p.dag.Par p.opsAt x = H.pastOf g :=
  h.labelled.past_eq h.opsAt_eq hg

/-- The content id of the head. -/
theorem exists_headGid : ∃ g, p.headGid = some g := h.exists_gid h.head

theorem events_eq {g : γ} (hg : p.headGid = some g) : p.events = H.pastOf g :=
  h.past_eq hg

/-- Held content ids are ranked by the numbers of their commits. -/
theorem reaches_antisymm {g k : γ} (hg : g ∈ p.held) (hgk : H.Reaches g k) (hkg : H.Reaches k g) :
    g = k := by
  obtain ⟨x, hx⟩ := hg
  obtain ⟨y, hxy, hy⟩ := h.labelled.exists_reaches hx hgk
  have hyx := (h.labelled.reaches_iff hy hx).mpr hkg
  obtain rfl := Ancestry.reaches_antisymm h.wf.par_lt hxy hyx
  exact Option.some.inj (hx.symm.trans hy)

end Indexed

/-! ### Filing a commit -/

/-- The peer with a commit filed under the next id. -/
def filed (p : Peer D γ) (parents : List ℕ) (op : Option (Op (Payload D.Op))) (state : D.State)
    (g : γ) : Peer D γ :=
  { p with
    dag := p.dag.push parents op state
    gid := p.gid.insert p.dag.nextId g
    byGid := p.byGid.insert g p.dag.nextId }

/-- The peer with its head moved. -/
def headedAt (p : Peer D γ) (id : ℕ) (frontier : Frontier) : Peer D γ :=
  { p with headId := id, frontier }

/-- **Filing a commit.** -/
theorem exec_file {parents : List ℕ} {op : Option (Op (Payload D.Op))} {state : D.State}
    {pre : Preimage D.Op D.Print γ} (hp : ∀ q ∈ parents, p.dag.has q = true)
    (hpre : p.Hashes { id := p.dag.nextId, parents, op, state } pre) :
    Effect.exec (file H parents op state) p =
      (.ok (p.dag.nextId, H.digest pre), p.filed parents op state (H.digest pre)) := by
  have hid := hpre.commitContentId_eq (H := H)
  simp only at hid
  simp [file, add, index, Effect.exec_bind, Dag.add_eq_ok hp, hid, filed, Except.map]

/-- **Moving the head.** -/
theorem exec_setHead {id : ℕ} (hid : p.dag.has id = true) : ∃ frontier,
    Effect.exec (setHead id) p = (.ok ⟨⟩, p.headedAt id frontier) := by
  obtain ⟨frontier, hfr, -⟩ := Dag.frontierOf_spec hid
  exact ⟨frontier, by simp [setHead, refresh, Effect.exec_bind, hfr, headedAt]⟩

section Filed

variable {parents : List ℕ} {op : Option (Op (Payload D.Op))} {state : D.State} {g : γ}

theorem get?_gid_filed (x : ℕ) : (p.filed parents op state g).gid.get? x =
    if x = p.dag.nextId then some g else p.gid.get? x :=
  SortedMap.get?_insert ..

theorem get?_filed (x : ℕ) : (p.filed parents op state g).dag.commits.get? x =
    if x = p.dag.nextId then some { id := p.dag.nextId, parents, op, state }
    else p.dag.commits.get? x :=
  Dag.get?_push ..

@[simp] theorem has_filed_self : (p.filed parents op state g).dag.has p.dag.nextId = true := by
  simp [filed, Dag.has_push]

namespace Indexed

variable (h : Indexed H p)

include h

/-- Commits that were there before keep their content ids. -/
theorem get?_gid_filed_of_has {x : ℕ} (hx : p.dag.has x = true) :
    (p.filed parents op state g).gid.get? x = p.gid.get? x := by
  rw [get?_gid_filed, if_neg (h.wf.lt_of_has hx).ne]

theorem get?_gid_filed_of_gid {x : ℕ} {k : γ} (hx : p.gid.get? x = some k) :
    (p.filed parents op state g).gid.get? x = some k := by
  rw [h.get?_gid_filed_of_has (h.stored x k hx), hx]

theorem held_filed (parents : List ℕ) (op : Option (Op (Payload D.Op))) (state : D.State) :
    (p.filed parents op state g).held = insert g p.held := by
  ext k
  simp only [held, Set.mem_insert_iff, Set.mem_ofPred_eq, get?_gid_filed]
  constructor
  · rintro ⟨x, hx⟩
    split_ifs at hx with hnext
    · exact Or.inl (Option.some.inj hx).symm
    · exact Or.inr ⟨x, hx⟩
  · rintro (rfl | ⟨x, hx⟩)
    · exact ⟨p.dag.nextId, if_pos rfl⟩
    · exact ⟨x, by rw [if_neg (h.wf.lt_of_has (h.stored x k hx)).ne, hx]⟩

variable {pre : Preimage D.Op D.Print γ}

/-- **Filing a commit that is not held** keeps the store indexed. -/
theorem filed (hp : ∀ q ∈ parents, p.dag.has q = true)
    (hpre : p.Hashes { id := p.dag.nextId, parents, op, state } pre) (hnew : H.digest pre ∉ p.held) :
    Indexed H (p.filed parents op state (H.digest pre)) where
  wf := h.wf.push hp
  content x c hc := by
    have hkeep {c : Commit D.State (Payload D.Op)} {pre' : Preimage D.Op D.Print γ}
        (hpre' : p.Hashes c pre') (hpar : ∀ q ∈ c.parents, p.dag.has q = true) :
        (p.filed parents op state (H.digest pre)).Hashes c pre' :=
      hpre'.congr fun q hq => h.get?_gid_filed_of_has (hpar q hq)
    rw [get?_filed] at hc
    rw [get?_gid_filed]
    split_ifs at hc ⊢ with hx
    · cases hc
      exact ⟨pre, hkeep hpre hp, rfl⟩
    · obtain ⟨pre', hpre', hg⟩ := h.content x c hc
      exact ⟨pre', hkeep hpre' fun q hq => h.has_parent hc hq, hg⟩
  stored x k hk := by
    rw [get?_gid_filed] at hk
    simp only [Peer.filed, Dag.has_push, Bool.or_eq_true, decide_eq_true_eq]
    split_ifs at hk with hx
    · exact Or.inl hx
    · exact Or.inr (h.stored x k hk)
  byGid x k := by
    have hbyGid : (p.filed parents op state (H.digest pre)).byGid.get? k =
        if k = H.digest pre then some p.dag.nextId else p.byGid.get? k := SortedMap.get?_insert ..
    rw [hbyGid, get?_gid_filed]
    split_ifs with hk hx hx
    · simp [hk, hx]
    · -- The new content id is held by no other commit.
      rw [Option.some.injEq, eq_comm]
      exact ⟨fun heq => absurd heq hx, fun heq => absurd ⟨x, hk ▸ heq⟩ hnew⟩
    · rw [Option.some.injEq]
      refine ⟨fun heq => ?_, fun heq => absurd heq.symm hk⟩
      have hlt := h.wf.lt_of_has (h.stored x k ((h.byGid x k).mp heq))
      omega
    · exact h.byGid x k
  head := by simp [Peer.filed, Dag.has_push, h.head]

omit h in
/-- What is not part of the store does not matter. -/
theorem congr {p' : Peer D γ} (h : Indexed H p) (hdag : p'.dag = p.dag) (hgid : p'.gid = p.gid)
    (hbyGid : p'.byGid = p.byGid) (hhead : p.dag.has p'.headId = true) : Indexed H p' where
  wf := hdag ▸ h.wf
  content x c hc := by
    rw [hdag] at hc
    obtain ⟨pre, hpre, hg⟩ := h.content x c hc
    exact ⟨pre, hpre.congr fun q _ => by rw [hgid], by rw [hgid, hg]⟩
  stored x g hg := by
    rw [hgid] at hg
    rw [hdag]
    exact h.stored x g hg
  byGid x g := by
    rw [hbyGid, hgid]
    exact h.byGid x g
  head := hdag ▸ hhead

/-- **Moving the head** keeps the store indexed. -/
theorem headedAt {id : ℕ} (hid : p.dag.has id = true) (frontier : Frontier) :
    Indexed H (p.headedAt id frontier) :=
  h.congr rfl rfl rfl hid

end Indexed

end Filed

theorem get?_create (name : String) (x : ℕ) : (create D H name).dag.commits.get? x =
    if x = 0 then some { id := 0, parents := [], op := none, state := D.init } else none :=
  Dag.get?_push ..

theorem get?_gid_create (name : String) (x : ℕ) : (create D H name).gid.get? x =
    if x = 0 then some (H.digest .root) else none := by
  rw [create, SortedMap.get?_insert]
  rfl

/-- A new peer is indexed. -/
theorem Indexed.create (name : String) : Indexed H (create D H name) where
  wf := by
    have hempty : (Dag.empty : Dag D.State (Payload D.Op)).Wf :=
      ⟨by simp [Dag.empty], by simp [Dag.empty], by simp [Dag.empty]⟩
    exact hempty.push (by simp)
  content x c hc := by
    rw [get?_create] at hc
    rw [get?_gid_create]
    split_ifs at hc ⊢ with hx
    cases hc
    exact ⟨.root, .root rfl rfl, rfl⟩
  stored x g hg := by
    rw [get?_gid_create] at hg
    split_ifs at hg with hx
    rw [hx]
    rfl
  byGid x g := by
    have hbyGid : (Peer.create D H name).byGid.get? g =
        if g = H.digest .root then some 0 else none := by
      rw [Peer.create, SortedMap.get?_insert]
      rfl
    rw [hbyGid, get?_gid_create]
    split_ifs with hg hx hx
    · simp [hg, hx]
    · simpa [eq_comm] using hx
    · simpa [eq_comm] using hg
    · simp
  head := rfl

end Peer

end SalRuntime
