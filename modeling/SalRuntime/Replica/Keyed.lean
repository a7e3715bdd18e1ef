import SalRuntime.Replica.Authored

/-!
# Keyed operations

While no history is collected, every operation of a store has one parent and is filed under the id of
its content. A replica adds operations of its own under its next sequence number, and otherwise only
those that it receives.

## Main definitions

* `Replica.Keyed` — every operation is filed under the id of its content, and is allowed.

## Main results

* `Replica.Keyed.stable` — ingesting, merging and compacting keep a replica keyed.
* `Replica.Keyed.ends_commit`, `Replica.Keyed.ends_commitBatch` — a local call adds at most one
  operation.
* `Replica.Keyed.faithful_of_mem_delta` — deltas are faithful.
-/

namespace SalRuntime

variable {D : Datatype} {γ : Type} [LinearOrder γ] {H : ContentHash D.Op D.Print γ}

namespace Replica

/-- Every operation of the store has a parent with a content id and is filed under the id of its
content, and `W` allows it. The head has a content id. -/
structure Keyed (H : ContentHash D.Op D.Print γ) (W : γ → Op (Payload D.Op) → Prop)
    (name : String) (seq : ℕ) (r : Replica D γ) : Prop where
  /-- The indexes agree with the store. -/
  sound : Sound H r
  /-- The head has a content id. -/
  headed : ∃ g, r.gid.get? r.headId = some g
  /-- The operations. -/
  ops : ∀ x c op, r.dag.commits.get? x = some c → c.op = some op →
    ∃ p pg, c.parents = [p] ∧ r.gid.get? p = some pg ∧ r.gid.get? x = some (opId H pg op) ∧
      W (opId H pg op) op
  /-- The name. -/
  name : r.name = name
  /-- The next sequence number. -/
  seq : r.seq = seq

/-- `W` allows operations only under the ids of their contents. -/
def Sealed (H : ContentHash D.Op D.Print γ) (W : γ → Op (Payload D.Op) → Prop) : Prop :=
  ∀ g op, W g op → ∃ pg, g = opId H pg op

namespace Keyed

variable {W : γ → Op (Payload D.Op) → Prop} {name : String} {seq : ℕ} {r : Replica D γ}

theorem create (name : String) : Keyed H W name 0 (create D H name) where
  sound := (indexed_create name).sound
  headed := ⟨_, SortedMap.get?_insert_self ..⟩
  ops x c op hx hop := by
    simp only [Replica.create, Dag.get?_push] at hx
    split_ifs at hx
    · cases hx
      cases hop
    · cases hx
  name := rfl
  seq := rfl

/-- More may be allowed. -/
theorem mono {W' : γ → Op (Payload D.Op) → Prop} (h : Keyed H W name seq r)
    (hW : ∀ g op, W g op → W' g op) : Keyed H W' name seq r :=
  { h with
    ops := fun x c op hx hop =>
      let ⟨p, pg, hp, hpg, hid, hallowed⟩ := h.ops x c op hx hop
      ⟨p, pg, hp, hpg, hid, hW _ _ hallowed⟩ }

/-- An operation is filed on a commit with a content id. -/
theorem filed (h : Keyed H W name seq r) {p : ℕ} {pg : γ} (hp : r.gid.get? p = some pg)
    {op : Op (Payload D.Op)} (hop : W (opId H pg op) op) (state : D.State) (key : EpochKey γ) :
    Keyed H W name seq (r.filed [p] (some op) state key (opId H pg op)) where
  sound := h.sound.filed (by simpa using h.sound.stored p pg hp) _
  headed := by
    obtain ⟨g, hg⟩ := h.headed
    refine ⟨g, ?_⟩
    rw [get?_gid_filed, if_neg]
    · exact hg
    · exact (h.sound.wf.lt_of_has h.sound.head).ne
  ops x c op' hx hop' := by
    have hkept (y : ℕ) (k : γ) (hy : r.gid.get? y = some k) :
        (r.filed [p] (some op) state key (opId H pg op)).gid.get? y = some k := by
      rw [get?_gid_filed, if_neg, hy]
      exact (h.sound.wf.lt_of_has (h.sound.stored y k hy)).ne
    change (r.dag.push [p] (some op) state).commits.get? x = some c at hx
    rw [Dag.get?_push] at hx
    split_ifs at hx with heq
    · cases hx
      cases hop'
      refine ⟨p, pg, rfl, hkept p pg hp, ?_, hop⟩
      rw [get?_gid_filed, if_pos heq]
    · obtain ⟨q, qg, hq, hqg, hid, hallowed⟩ := h.ops x c op' hx hop'
      exact ⟨q, qg, hq, hkept q qg hqg, hkept x _ hid, hallowed⟩
  name := h.name
  seq := h.seq

/-- **Ingesting, merging and compacting** keep the replica keyed. -/
theorem stable (hsealed : Sealed H W) : Stable H (fun _ => True) W (Keyed H W name seq) where
  closed := D.closed_true
  applied _ _ _ _ := trivial
  holds _ _ _ _ := trivial
  sound h := h.sound
  kept {r r'} h halike hhead := by
    have hheaded : ∃ g, r.gid.get? r'.headId = some g := by
      rcases hhead with heq | hg
      · exact heq ▸ h.headed
      · exact hg
    exact
      { sound := Sound.stable.kept h.sound halike hhead
        headed := halike.gid ▸ hheaded
        ops := by
          rw [halike.dag, halike.gid]
          exact h.ops
        name := halike.name.trans h.name
        seq := halike.seq.trans h.seq }
  pushed {r r' parents state} h hp _ halike hhead :=
    { sound := Sound.stable.pushed h.sound hp trivial halike hhead
      headed := by
        rw [halike.gid, hhead]
        exact h.headed
      ops := by
        rw [halike.dag, halike.gid]
        intro x c op hx hop
        rw [Dag.get?_push] at hx
        split_ifs at hx
        · cases hx
          cases hop
        · exact h.ops x c op hx hop
      name := halike.name.trans h.name
      seq := halike.seq.trans h.seq }
  named {r r' x g} h hx hnone halike hhead := by
    have hkept (y : ℕ) (k : γ) (hy : r.gid.get? y = some k) :
        (r.gid.insert x g).get? y = some k := by
      rw [SortedMap.get?_insert_of_ne _ _ (fun heq => by simp [heq, hnone] at hy), hy]
    exact
      { sound := Sound.stable.named h.sound hx hnone halike hhead
        headed := by
          obtain ⟨k, hk⟩ := h.headed
          rw [halike.gid, hhead]
          exact ⟨k, hkept _ k hk⟩
        ops := by
          rw [halike.dag, halike.gid]
          intro y c op hy hop
          obtain ⟨q, qg, hq, hqg, hid, hallowed⟩ := h.ops y c op hy hop
          exact ⟨q, qg, hq, hkept q qg hqg, hkept y _ hid, hallowed⟩
        name := halike.name.trans h.name
        seq := halike.seq.trans h.seq }
  operation {r parents op state key pgs} h _ hgids hW _ := by
    obtain ⟨pg, hpg⟩ := hsealed _ _ hW
    have hpre := H.injective hpg
    simp only [Preimage.authored.injEq, and_true] at hpre
    subst hpre
    obtain ⟨p, rfl, hp⟩ := List.map_eq_singleton_iff.mp hgids
    exact h.filed hp hW state key

/-! ### Local operations -/

/-- The operation `op` is allowed as well, under the content id `g`. -/
def allowing (W : γ → Op (Payload D.Op) → Prop) (g : γ) (op : Op (Payload D.Op)) :
    γ → Op (Payload D.Op) → Prop := fun g' op' => W g' op' ∨ (g' = g ∧ op' = op)

/-- The replica is as before, or it has one more operation of its own. -/
def Authors (H : ContentHash D.Op D.Print γ) (W : γ → Op (Payload D.Op) → Prop) (name : String)
    (seq : ℕ) (r : Replica D γ) : Prop :=
  Keyed H W name seq r ∨ ∃ pg payload,
    Keyed H (allowing W (opId H pg ⟨name, seq, payload⟩) ⟨name, seq, payload⟩) name (seq + 1) r

theorem ends_author (h : Keyed H W name seq r) (payload : Payload D.Op) (state : D.State) :
    Effect.Ends (Authors H W name seq) (author H payload state) r := by
  obtain ⟨pg, hpg⟩ := h.headed
  obtain ⟨frontier, hexec⟩ := h.sound.exec_author hpg payload state
  obtain rfl := h.name
  obtain rfl := h.seq
  refine .of_exec_eq hexec (Or.inr ⟨pg, payload, ?_⟩)
  set op : Op (Payload D.Op) := ⟨r.name, r.seq, payload⟩
  set W' := allowing W (opId H pg op) op
  have hmore : Keyed H W' r.name r.seq r := h.mono fun g op' hW => Or.inl hW
  have h₁ : Keyed H W' r.name (r.seq + 1) ({ r with seq := r.seq + 1 } : Replica D γ) :=
    ⟨h.sound.congr rfl rfl rfl rfl h.sound.head, h.headed, hmore.ops, rfl, rfl⟩
  have hop : W' (opId H pg op) op := Or.inr ⟨rfl, rfl⟩
  have hfiled := h₁.filed hpg hop state r.epochKey
  exact ⟨hfiled.sound.headedAt has_filed_self frontier, ⟨_, SortedMap.get?_insert_self ..⟩,
    hfiled.ops, hfiled.name, hfiled.seq⟩

theorem ends_commit (h : Keyed H W name seq r) (payload : D.Op) :
    Effect.Ends (Authors H W name seq) (commit H payload) r :=
  .bind_get (.bind_lift (.inl h) fun _ _ => .bind_lift (.inl h) fun _ _ =>
    .bind_lift (.inl h) fun state _ => h.ends_author _ state)

theorem ends_commitBatch (h : Keyed H W name seq r) (ops : List D.Op) :
    Effect.Ends (Authors H W name seq) (commitBatch H ops) r := by
  refine .bind_get ?_
  split
  · exact .pure (.inl h) _
  · exact h.ends_commit _
  · refine .bind_lift (.inl h) fun head _ => ?_
    split_ifs
    · exact .bind_lift (.inl h) fun ps _ => h.ends_author _ _
    · exact .bind_lift (.inl h) fun state _ => h.ends_author _ state

/-! ### Deltas -/

/-- **Deltas** are faithful. -/
theorem faithful_of_mem_delta (h : Keyed H W name seq r) {theirGids : List γ}
    {delta : List (WireCommit D γ)} (hdelta : r.delta H theirGids = .ok delta) {wc : WireCommit D γ}
    (hwc : wc ∈ delta) : Faithful H W wc := by
  rw [Replica.delta, Dag.ancestorSet_eq h.sound.head] at hdelta
  obtain ⟨id, -, hid⟩ := exists_of_mem_mapM hdelta hwc
  intro op hbody
  obtain ⟨c, hc, hop, -, hgid, hparents⟩ := op_of_wireOf hid hbody
  obtain ⟨p, pg, hp, hpg, hopId, hW⟩ := h.ops id c op hc hop
  refine ⟨pg, ?_, hgid.trans hopId, hW⟩
  rw [hparents, hp, List.map_singleton, hpg]

end Keyed

end Replica

end SalRuntime
