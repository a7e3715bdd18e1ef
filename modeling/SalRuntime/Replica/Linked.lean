import SalRuntime.Replica.Authored

/-!
# Operations of a store that collects its history

A collected store has boundaries, which have lost parents, and a pruned store has commits whose
parents are gone. Every other operation has one parent and is filed under the id of its content. So
the operations of a delta that can be encoded carry the ids of their contents, whatever the sender
has collected.

## Main definitions

* `Replica.Linked` — every operation is allowed, and is a boundary, or has lost its parent, or is
  filed under the id of its content.
* `Replica.Shrinks` — the commits are among those of the store, with their operations and states.

## Main results

* `Replica.Linked.stable`, `Replica.Linked.ends_author`, `Replica.Linked.ends_gc`,
  `Replica.Linked.ends_pruneToEpochBase` — every call keeps a replica linked.
* `Replica.Linked.faithful_of_mem_delta` — deltas are faithful.
* `Replica.Holds.stable` — a property of states survives ingesting, merging and compacting.
-/

namespace SalRuntime

variable {D : Datatype} {γ : Type} [LinearOrder γ] {H : ContentHash D.Op D.Print γ}

namespace Replica

/-- The operation is allowed, under the id of its content. -/
def Allowed (H : ContentHash D.Op D.Print γ) (O : Payload D.Op → Prop) (g : γ)
    (op : Op (Payload D.Op)) : Prop :=
  O op.payload ∧ ∃ pg, g = opId H pg op

/-- The parents are one commit, and if it is stored, then `x` is filed under the content id of the
operation on it. -/
def Anchored (H : ContentHash D.Op D.Print γ) (r : Replica D γ) (x : ℕ) (parents : List ℕ)
    (op : Op (Payload D.Op)) : Prop :=
  ∃ p, parents = [p] ∧ (r.dag.has p = true →
    ∃ pg, r.gid.get? p = some pg ∧ r.gid.get? x = some (opId H pg op))

/-- Every operation of the store is allowed, and it is a boundary or anchored. Epoch bases carry no
operation. The head has a content id. -/
structure Linked (H : ContentHash D.Op D.Print γ) (O : Payload D.Op → Prop) (r : Replica D γ) :
    Prop where
  /-- The indexes agree with the store. -/
  sound : Sound H r
  /-- The head has a content id. -/
  headed : ∃ g, r.gid.get? r.headId = some g
  /-- The operations are allowed. -/
  allowed : ∀ x op, r.dag.opOf x = some op → O op.payload
  /-- The operations are boundaries or anchored. -/
  ops : ∀ x c op, r.dag.commits.get? x = some c → c.op = some op →
    x ∈ r.gcBoundary ∨ Anchored H r x c.parents op
  /-- The epoch bases. -/
  bases : ∀ x, r.epochBase.has x = true → x < r.dag.nextId ∧ r.dag.opOf x = none

namespace Linked

variable {O : Payload D.Op → Prop} {r : Replica D γ}

theorem create (name : String) : Linked H O (create D H name) where
  sound := (indexed_create name).sound
  headed := ⟨_, SortedMap.get?_insert_self ..⟩
  allowed x op hop := by
    obtain ⟨c, hc, hop⟩ := Dag.opOf_eq_some_iff.mp hop
    simp only [Replica.create, Dag.get?_push] at hc
    split_ifs at hc
    · cases hc
      cases hop
    · cases hc
  ops x c op hc hop := by
    simp only [Replica.create, Dag.get?_push] at hc
    split_ifs at hc
    · cases hc
      cases hop
    · cases hc
  bases x hx := by simp [Replica.create, SortedMap.has] at hx

end Linked

/-- An anchored operation stays anchored when no commit comes back and no content id changes. -/
theorem Anchored.mono {r r' : Replica D γ} {x : ℕ} {parents : List ℕ} {op : Op (Payload D.Op)}
    (h : Anchored H r x parents op) (hhas : ∀ p ∈ parents, r'.dag.has p = true → r.dag.has p = true)
    (hgid : ∀ y g, (y = x ∨ r'.dag.has y = true) → r.gid.get? y = some g →
      r'.gid.get? y = some g) : Anchored H r' x parents op := by
  obtain ⟨p, rfl, hp⟩ := h
  refine ⟨p, rfl, fun hstored => ?_⟩
  obtain ⟨pg, hpg, hx⟩ := hp (hhas p (List.mem_singleton_self p) hstored)
  exact ⟨pg, hgid p pg (Or.inr hstored) hpg, hgid x _ (Or.inl rfl) hx⟩

theorem opOf_push (d : Dag D.State (Payload D.Op)) (parents : List ℕ)
    (op : Option (Op (Payload D.Op))) (state : D.State) (x : ℕ) :
    (d.push parents op state).opOf x = if x = d.nextId then op else d.opOf x := by
  rw [Dag.opOf, Dag.get?_push]
  split_ifs
  · rfl
  · rfl

theorem Holds.push {P : D.State → Prop} {r : Replica D γ} (h : r.Holds P) {parents : List ℕ}
    {op : Option (Op (Payload D.Op))} {state : D.State} (hstate : P state) :
    ∀ x c, (r.dag.push parents op state).commits.get? x = some c → P c.state := by
  intro x c hc
  rw [Dag.get?_push] at hc
  split_ifs at hc
  · cases hc
    exact hstate
  · exact h x c hc

/-- What is appended to a store leaves its operations anchored. -/
theorem Sound.anchored_of_push {r r' : Replica D γ} (h : Sound H r) {parents : List ℕ}
    {op : Option (Op (Payload D.Op))} {state : D.State} (hdag : r'.dag = r.dag.push parents op state)
    (hgid : ∀ y g, r.gid.get? y = some g → r'.gid.get? y = some g) {x : ℕ}
    {c : Commit D.State (Payload D.Op)} (hc : r.dag.commits.get? x = some c)
    {o : Op (Payload D.Op)} (ho : Anchored H r x c.parents o) : Anchored H r' x c.parents o := by
  refine ho.mono (fun p hp hstored => ?_) fun y g _ => hgid y g
  have hlt := h.wf.parent_lt x c hc p hp
  have hlt' := h.wf.id_lt x c hc
  rw [hdag, Dag.has_push] at hstored
  simpa [show p ≠ r.dag.nextId by omega] using hstored

namespace Linked

variable {O : Payload D.Op → Prop} {r : Replica D γ}

/-- An operation is filed on a commit with a content id. -/
theorem filed (h : Linked H O r) {p : ℕ} {pg : γ} (hp : r.gid.get? p = some pg)
    {op : Op (Payload D.Op)} (hop : O op.payload) (state : D.State) (key : EpochKey γ) :
    Linked H O (r.filed [p] (some op) state key (opId H pg op)) := by
  have hkept (y : ℕ) (k : γ) (hy : r.gid.get? y = some k) :
      (r.filed [p] (some op) state key (opId H pg op)).gid.get? y = some k := by
    rw [get?_gid_filed, if_neg, hy]
    exact (h.sound.wf.lt_of_has (h.sound.stored y k hy)).ne
  have hopOf (x : ℕ) : (r.filed [p] (some op) state key (opId H pg op)).dag.opOf x =
      if x = r.dag.nextId then some op else r.dag.opOf x := opOf_push ..
  refine ⟨h.sound.filed (by simpa using h.sound.stored p pg hp) _, ?_, fun x op' hop' => ?_,
    fun x c op' hx hop' => ?_, fun x hx => ?_⟩
  · obtain ⟨g, hg⟩ := h.headed
    exact ⟨g, hkept _ g hg⟩
  · rw [hopOf] at hop'
    split_ifs at hop'
    · cases hop'
      exact hop
    · exact h.allowed x op' hop'
  · change (r.dag.push [p] (some op) state).commits.get? x = some c at hx
    rw [Dag.get?_push] at hx
    split_ifs at hx with heq
    · cases hx
      cases hop'
      refine Or.inr ⟨p, rfl, fun _ => ⟨pg, hkept p pg hp, ?_⟩⟩
      rw [get?_gid_filed, if_pos heq]
    · exact (h.ops x c op' hx hop').imp id (h.sound.anchored_of_push rfl hkept hx)
  · obtain ⟨hlt, hnone⟩ := h.bases x hx
    rw [hopOf, if_neg hlt.ne]
    exact ⟨hlt.trans (Nat.lt_succ_self _), hnone⟩

/-- **Ingesting, merging and compacting** keep the replica linked. -/
theorem stable : Stable H (fun _ => True) (Allowed H O) (Linked H O : Replica D γ → Prop) where
  closed := D.closed_true
  applied _ _ _ _ := trivial
  sound h := h.sound
  holds _ _ _ _ := trivial
  kept {r r'} h halike hhead := by
    have hheaded : ∃ g, r.gid.get? r'.headId = some g := by
      rcases hhead with heq | hg
      · exact heq ▸ h.headed
      · exact hg
    refine ⟨Sound.stable.kept h.sound halike hhead, halike.gid ▸ hheaded, halike.dag ▸ h.allowed,
      fun x c op hx hop => ?_, fun x hx => ?_⟩
    · rw [halike.dag] at hx
      refine (h.ops x c op hx hop).imp (fun hb => halike.boundary hb) fun ho => ho.mono ?_ ?_
      · rw [halike.dag]
        exact fun _ _ => id
      · rw [halike.gid]
        exact fun _ _ _ => id
    · rw [halike.dag]
      rcases halike.bases x hx with hx | ⟨hhas, hnone⟩
      · exact h.bases x hx
      · rw [halike.dag] at hhas hnone
        exact ⟨h.sound.wf.lt_of_has hhas, hnone⟩
  pushed {r r' parents state} h hp _ halike hhead := by
    have hopOf (x : ℕ) : r'.dag.opOf x = if x = r.dag.nextId then none else r.dag.opOf x := by
      rw [halike.dag]
      exact opOf_push ..
    refine ⟨Sound.stable.pushed h.sound hp trivial halike hhead, ?_, fun x op hop => ?_,
      fun x c op hx hop => ?_, fun x hx => ?_⟩
    · rw [halike.gid, hhead]
      exact h.headed
    · rw [hopOf] at hop
      split_ifs at hop
      exact h.allowed x op hop
    · rw [halike.dag, Dag.get?_push] at hx
      split_ifs at hx
      · cases hx
        cases hop
      · refine (h.ops x c op hx hop).imp (fun hb => halike.boundary hb) ?_
        exact h.sound.anchored_of_push halike.dag (by rw [halike.gid]; exact fun _ _ => id) hx
    · rcases halike.bases x hx with hx | ⟨hhas, hnone⟩
      · obtain ⟨hlt, hnone⟩ := h.bases x hx
        rw [hopOf, if_neg hlt.ne, halike.dag]
        exact ⟨hlt.trans (Nat.lt_succ_self _), hnone⟩
      · refine ⟨?_, hnone⟩
        exact (Sound.stable.pushed h.sound hp trivial halike hhead).wf.lt_of_has hhas
  named {r r' x g} h hx hnone halike hhead := by
    have hkept (y : ℕ) (k : γ) (hy : r.gid.get? y = some k) : r'.gid.get? y = some k := by
      rw [halike.gid]
      exact (SortedMap.get?_insert_of_ne _ _ (fun heq => by simp [heq, hnone] at hy)).trans hy
    refine ⟨Sound.stable.named h.sound hx hnone halike hhead, ?_, halike.dag ▸ h.allowed,
      fun y c op hy hop => ?_, fun y hy => ?_⟩
    · obtain ⟨k, hk⟩ := h.headed
      exact ⟨k, hhead ▸ hkept _ k hk⟩
    · rw [halike.dag] at hy
      refine (h.ops y c op hy hop).imp (fun hb => halike.boundary hb) fun ho => ho.mono ?_ ?_
      · rw [halike.dag]
        exact fun _ _ => id
      · exact fun z k _ => hkept z k
    · rw [halike.dag]
      rcases halike.bases y hy with hy | ⟨hhas, hnone⟩
      · exact h.bases y hy
      · rw [halike.dag] at hhas hnone
        exact ⟨h.sound.wf.lt_of_has hhas, hnone⟩
  operation {r parents op state key pgs} h _ hgids hW _ := by
    obtain ⟨hop, pg, hpg⟩ := hW
    have hpre := H.injective hpg
    simp only [Preimage.authored.injEq, and_true] at hpre
    subst hpre
    obtain ⟨p, rfl, hp⟩ := List.map_eq_singleton_iff.mp hgids
    exact h.filed hp hop state key

/-! ### Local operations -/

/-- **An operation of its own** is linked. -/
theorem ends_author (h : Linked H O r) {payload : Payload D.Op} (hpayload : O payload)
    (state : D.State) : Effect.Ends (Linked H O) (author H payload state) r := by
  obtain ⟨pg, hpg⟩ := h.headed
  obtain ⟨frontier, hexec⟩ := h.sound.exec_author hpg payload state
  refine .of_exec_eq hexec ?_
  have h₁ : Linked H O ({ r with seq := r.seq + 1 } : Replica D γ) :=
    ⟨h.sound.congr rfl rfl rfl rfl h.sound.head, h.headed, h.allowed, h.ops, h.bases⟩
  set op : Op (Payload D.Op) := ⟨r.name, r.seq, payload⟩
  have hop : O op.payload := hpayload
  have hfiled := h₁.filed hpg hop state r.epochKey
  exact ⟨hfiled.sound.headedAt has_filed_self frontier, ⟨_, SortedMap.get?_insert_self ..⟩,
    hfiled.allowed, hfiled.ops, hfiled.bases⟩

/-! ### Deltas -/

/-- **Deltas** whose parents all have content ids are faithful. -/
theorem faithful_of_mem_delta (h : Linked H O r) {theirGids : List γ}
    {delta : List (WireCommit D γ)} (hdelta : r.delta H theirGids = .ok delta) {wc : WireCommit D γ}
    (hwc : wc ∈ delta) (hparents : none ∉ wc.parents) : Faithful H (Allowed H O) wc := by
  rw [Replica.delta, Dag.ancestorSet_eq h.sound.head] at hdelta
  obtain ⟨id, -, hid⟩ := exists_of_mem_mapM hdelta hwc
  intro op hbody
  obtain ⟨c, hc, hop, hboundary, hgid, hpar⟩ := op_of_wireOf hid hbody
  obtain ⟨p, hp, hanchored⟩ := (h.ops id c op hc hop).resolve_left hboundary
  rw [hp, List.map_singleton] at hpar
  obtain ⟨pg, hpg⟩ : ∃ pg, r.gid.get? p = some pg := by
    rw [← Option.isSome_iff_exists, ← Option.ne_none_iff_isSome]
    intro hnone
    exact hparents (by simp [hpar, hnone])
  obtain ⟨pg', hpg', hid⟩ := hanchored (h.sound.stored p pg hpg)
  refine ⟨pg', by rw [hpar, hpg'], hgid.trans hid, ?_, pg', rfl⟩
  exact h.allowed id op (Dag.opOf_eq_some_iff.mpr ⟨c, hc, hop⟩)

end Linked

/-! ### States -/

/-- **A property of states** survives ingesting, merging and compacting, if the datatype keeps it and
the allowed operations do. -/
theorem Holds.stable {P : D.State → Prop} {W : γ → Op (Payload D.Op) → Prop} (hP : D.Closed P)
    (hW : ∀ {g op s}, W g op → P s → Yields P (applyOps D s op.payload)) :
    Stable H P W fun r : Replica D γ => Sound H r ∧ r.Holds P where
  closed := hP
  applied := hW
  sound h := h.1
  holds h := h.2
  kept h halike hhead := ⟨Sound.stable.kept h.1 halike hhead, by
    rw [Holds, halike.dag]
    exact h.2⟩
  pushed h hp hstate halike hhead := ⟨Sound.stable.pushed h.1 hp trivial halike hhead, by
    rw [Holds, halike.dag]
    exact h.2.push hstate⟩
  named h hx hnone halike hhead := ⟨Sound.stable.named h.1 hx hnone halike hhead, by
    rw [Holds, halike.dag]
    exact h.2⟩
  operation h hne hgids _ hstate :=
    ⟨Sound.stable.operation h.1 hne hgids trivial trivial, h.2.push hstate⟩

/-! ### Collection -/

/-- The commits are among those of the store, with their operations and states. -/
def Shrinks (r r' : Replica D γ) : Prop :=
  ∀ x c', r'.dag.commits.get? x = some c' →
    ∃ c, r.dag.commits.get? x = some c ∧ c'.op = c.op ∧ c'.state = c.state

theorem Shrinks.refl (r : Replica D γ) : Shrinks r r := fun _ c hc => ⟨c, hc, rfl, rfl⟩

theorem Shrinks.holds {r r' : Replica D γ} (h : Shrinks r r') {P : D.State → Prop}
    (hr : r.Holds P) : r'.Holds P := by
  intro x c' hc'
  obtain ⟨c, hc, -, hstate⟩ := h x c' hc'
  exact hstate ▸ hr x c hc

theorem Shrinks.opOf_eq {r r' : Replica D γ} (h : Shrinks r r') {x : ℕ} {op : Op (Payload D.Op)}
    (hop : r'.dag.opOf x = some op) : r.dag.opOf x = some op := by
  obtain ⟨c', hc', hop⟩ := Dag.opOf_eq_some_iff.mp hop
  obtain ⟨c, hc, heq, -⟩ := h x c' hc'
  exact Dag.opOf_eq_some_iff.mpr ⟨c, hc, heq.symm.trans hop⟩

theorem shrinks_collected {r : Replica D γ} {heads : List ℕ}
    {dag : Dag D.State (Payload D.Op)} {stats : Dag.GcStats}
    (hcollected : r.dag.runGc heads = .ok (dag, stats)) : Shrinks r (r.collected dag stats) := by
  intro x c' hc'
  obtain ⟨c, hc, hop, hstate, -⟩ := Dag.exists_of_runGc hcollected hc'
  exact ⟨c, hc, hop, hstate⟩

theorem shrinks_pruned {r : Replica D γ} {k : ℕ} {dag : Dag D.State (Payload D.Op)}
    (hdag : r.dag.sever k = .ok dag) (parentGid : Option γ) (below : List ℕ) :
    Shrinks r (r.pruned k dag parentGid below) := by
  intro x c' hc'
  obtain ⟨c, hc, rfl⟩ := Dag.sever_eq_ok hdag
  simp only [pruned, removeCommits, Dag.foldl_remove, SortedMap.get?_foldl_erase,
    SortedMap.get?_insert] at hc'
  split_ifs at hc' with hbelow heq
  · cases hc'
    exact ⟨c, heq ▸ hc, rfl, rfl⟩
  · exact ⟨c', hc', rfl, rfl⟩

namespace Linked

variable {O : Payload D.Op → Prop} {r : Replica D γ}

/-- **Collecting** keeps the replica linked: an operation that loses its parent is a boundary. -/
theorem ends_gc (h : Linked H O r) : Effect.Ends (Linked H O) (gc : Call D γ GcOutcome) r := by
  refine ends_gc_of h fun dag stats hcollected => ?_
  have hshrinks : Shrinks r (r.collected dag stats) := shrinks_collected hcollected
  obtain ⟨hwf, hkept⟩ := h.sound.wf.runGc hcollected
  have hhead : dag.has r.headId = true := hkept _ List.mem_cons_self h.sound.head
  have hgid (y : ℕ) (k : γ) (hy : dag.has y = true) (hk : r.gid.get? y = some k) :
      (r.collected dag stats).gid.get? y = some k := by
    simp only [collected, dropIndexes, SortedMap.get?_foldl_erase, List.mem_filter]
    rw [if_neg (by simp [hy]), hk]
  refine ⟨h.sound.dropIndexes hwf hhead rfl rfl rfl, ?_,
    fun x op hop => h.allowed x op (hshrinks.opOf_eq hop), fun x c' op hc' hop => ?_,
    fun x hx => ?_⟩
  · obtain ⟨g, hg⟩ := h.headed
    exact ⟨g, hgid _ g hhead hg⟩
  · obtain ⟨c, hc, hopeq, -, hsub⟩ := Dag.exists_of_runGc hcollected hc'
    have hget : dag.commits.get? x = some c' := hc'
    have hstored : dag.has x = true := Dag.has_iff.mpr ⟨c', hget⟩
    have hboundary (hb : x ∈ r.gcBoundary ++ dag.ids.filter fun id =>
        (dag.parentsOf id).length < (r.dag.parentsOf id).length && !r.epochBase.has id &&
          decide (id ∉ r.gcBoundary)) : x ∈ (r.collected dag stats).gcBoundary := by
      simp only [collected, dropIndexes, List.mem_filter, decide_eq_true_eq]
      exact ⟨hb, fun hgone => by simp [hstored] at hgone⟩
    have hbase : r.epochBase.has x = false := by
      by_contra hb
      have hnone := (h.bases x (by simpa using hb)).2
      rw [Dag.opOf_eq_some_iff.mpr ⟨c, hc, hopeq.symm.trans hop⟩] at hnone
      cases hnone
    rcases h.ops x c op hc (hopeq.symm.trans hop) with hb | hanchored
    · exact Or.inl (hboundary (List.mem_append_left _ hb))
    · obtain ⟨p, hp, hfiled⟩ := hanchored
      rw [hp] at hsub
      rcases List.sublist_singleton.mp hsub with hnil | hsame
      · -- The parent link was cut.
        by_cases hb : x ∈ r.gcBoundary
        · exact Or.inl (hboundary (List.mem_append_left _ hb))
        · refine Or.inl (hboundary (List.mem_append_right _ (List.mem_filter.mpr ?_)))
          exact ⟨Dag.mem_ids_iff.mpr hstored, by simp [Dag.parentsOf, hget, hc, hnil, hp, hbase, hb]⟩
      · refine Or.inr (hsame ▸ Anchored.mono ⟨p, rfl, hfiled⟩ (fun q _ hq => ?_) fun y k hy => ?_)
        · obtain ⟨d, hd⟩ := Dag.has_iff.mp hq
          obtain ⟨e, he, -⟩ := hshrinks q d hd
          exact Dag.has_iff.mpr ⟨e, he⟩
        · exact hgid y k (hy.elim (fun heq => heq ▸ hstored) id)
  · have hold : r.epochBase.has x = true := by
      simp only [collected, dropIndexes, SortedMap.has, SortedMap.get?_foldl_erase] at hx
      split_ifs at hx
      · cases hx
      · exact hx
    refine ⟨(Dag.nextId_of_runGc hcollected).symm ▸ (h.bases x hold).1, ?_⟩
    cases hop : (r.collected dag stats).dag.opOf x with
    | none => rfl
    | some op =>
      have hnone := (h.bases x hold).2
      rw [hshrinks.opOf_eq hop] at hnone
      cases hnone

/-- **Pruning** keeps the replica linked: the new base carries no operation. -/
theorem ends_pruneToEpochBase (h : Linked H O r) :
    Effect.Ends (Linked H O) (pruneToEpochBase : Call D γ PruneOutcome) r := by
  refine ends_pruneToEpochBase_of h (fun h' frontier =>
    ⟨h'.sound.congr rfl rfl rfl rfl h'.sound.head, h'.headed, h'.allowed, h'.ops, h'.bases⟩)
    fun hclosure hk hp hbelow hdag => ?_
  rename_i closure k p ps below dag
  have hshrinks : Shrinks r (r.pruned k.id dag (r.gid.get? p) below) := shrinks_pruned hdag _ _
  have hknone : r.dag.opOf k.id = none := ((of_foldl_betterCandidate hk).resolve_right (by simp)).2
  have hhead : r.headId ∉ below := h.sound.headId_not_mem_below hclosure hk hp hbelow
  have hgid (y : ℕ) (g : γ) (hy : y ∉ below) (hg : r.gid.get? y = some g) :
      (r.pruned k.id dag (r.gid.get? p) below).gid.get? y = some g := by
    simp only [pruned, removeCommits, SortedMap.get?_foldl_erase]
    rw [if_neg hy, hg]
  have hkept {y : ℕ} (hy : (r.pruned k.id dag (r.gid.get? p) below).dag.has y = true) :
      y ∉ below ∧ r.dag.has y = true := by
    constructor
    · intro hmem
      simp [pruned, removeCommits, Dag.has_foldl_remove, hmem] at hy
    · obtain ⟨c', hc'⟩ := Dag.has_iff.mp hy
      obtain ⟨c, hc, -⟩ := hshrinks y c' hc'
      exact Dag.has_iff.mpr ⟨c, hc⟩
  have hnone {x : ℕ} (hx : r.dag.opOf x = none) :
      (r.pruned k.id dag (r.gid.get? p) below).dag.opOf x = none := by
    cases hop : (r.pruned k.id dag (r.gid.get? p) below).dag.opOf x with
    | none => rfl
    | some op =>
      rw [hshrinks.opOf_eq hop] at hx
      cases hx
  refine ⟨h.sound.pruned hclosure hk hp hbelow hdag _, ?_,
    fun x op hop => h.allowed x op (hshrinks.opOf_eq hop), fun x c' op hc' hop => ?_,
    fun x hx => ?_⟩
  · obtain ⟨g, hg⟩ := h.headed
    exact ⟨g, hgid _ g hhead hg⟩
  · obtain ⟨hx, -⟩ := hkept (Dag.has_iff.mpr ⟨c', hc'⟩)
    have hxk : x ≠ k.id := by
      rintro rfl
      have hop' := hshrinks.opOf_eq (Dag.opOf_eq_some_iff.mpr ⟨c', hc', hop⟩)
      rw [hknone] at hop'
      cases hop'
    have hc : r.dag.commits.get? x = some c' := by
      obtain ⟨c, -, rfl⟩ := Dag.sever_eq_ok hdag
      simpa [pruned, removeCommits, Dag.foldl_remove, SortedMap.get?_foldl_erase,
        SortedMap.get?_insert, hx, hxk] using hc'
    refine (h.ops x c' op hc hop).imp id fun ho => ho.mono (fun q _ hq => (hkept hq).2) ?_
    rintro y g (rfl | hy)
    · exact hgid y g hx
    · exact hgid y g (hkept hy).1
  · have hnext : (r.pruned k.id dag (r.gid.get? p) below).dag.nextId = r.dag.nextId := by
      obtain ⟨c, -, rfl⟩ := Dag.sever_eq_ok hdag
      rw [pruned, removeCommits, Dag.foldl_remove]
    have hold : x = k.id ∨ r.epochBase.has x = true := by
      simp only [pruned, removeCommits, SortedMap.has, SortedMap.get?_foldl_erase,
        SortedMap.get?_insert] at hx
      split_ifs at hx with hbelow heq
      · cases hx
      · exact Or.inl heq
      · exact Or.inr hx
    rw [hnext]
    rcases hold with rfl | hold
    · obtain ⟨c, hc, -⟩ := Dag.sever_eq_ok hdag
      exact ⟨h.sound.wf.id_lt _ c hc, hnone hknone⟩
    · exact ⟨(h.bases x hold).1, hnone (h.bases x hold).2⟩

end Linked

end Replica

end SalRuntime
