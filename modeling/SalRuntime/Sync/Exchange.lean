import SalRuntime.Sync.Standing

/-!
# Commits, deltas and merges of a peer

What the calls of a peer do to a store whose states stand for their operations. A delta ships the
commits of the head's ancestry, parents first; a receiver that holds everything below them recomputes
every state and every content id, also the ids that the framing leaves out.

## Main definitions

* `Peer.Grown` — a peer has received some content ids, and is otherwise as before.
* `Peer.Whole` — everything that is held is in the ancestry of the head.

## Main results

* `Peer.Stands.exec_commit` — a local operation.
* `Peer.Stands.exec_delta`, `Peer.Stands.exec_ingest` — a delta, and its ingestion by a peer.
* `Peer.Stands.exec_mergeWithGid_of_reaches` and its companions — the branches of a merge.
-/

namespace SalRuntime

variable {D : Datatype} {γ κ ι : Type} [LinearOrder γ]

namespace Peer

/-- The peer has received the content ids `G`. -/
structure Grown (G : Set γ) (p p' : Peer D γ) : Prop where
  /-- It holds them besides what it held. -/
  held : p'.held = p.held ∪ G
  /-- Commits keep their content ids. -/
  gid : ∀ x g, p.gid.get? x = some g → p'.gid.get? x = some g
  /-- The head has not moved. -/
  headId : p'.headId = p.headId
  /-- The name is the same. -/
  name : p'.name = p.name
  /-- The next sequence number is the same. -/
  seq : p'.seq = p.seq

theorem Grown.refl (p : Peer D γ) : Grown ∅ p p :=
  ⟨(Set.union_empty _).symm, fun _ _ hg => hg, rfl, rfl, rfl⟩

theorem Grown.trans {G G' : Set γ} {p p' p'' : Peer D γ} (h : Grown G p p') (h' : Grown G' p' p'') :
    Grown (G ∪ G') p p'' where
  held := by rw [h'.held, h.held, Set.union_assoc]
  gid x g hg := h'.gid x g (h.gid x g hg)
  headId := h'.headId.trans h.headId
  name := h'.name.trans h.name
  seq := h'.seq.trans h.seq

theorem Grown.headGid {G : Set γ} {p p' : Peer D γ} (h : Grown G p p') {g : γ}
    (hg : p.headGid = some g) : p'.headGid = some g := by
  rw [Peer.headGid, h.headId]
  exact h.gid _ g hg

/-- Everything that is held is in the ancestry of the head. -/
def Whole (p : Peer D γ) : Prop := ∀ x, p.dag.has x = true → p.dag.Reaches p.headId x

variable {H : ContentHash D.Op D.Print γ} {M : D.replicated.Meaning κ ι} {c : κ} {K : Set γ}
  {p : Peer D γ}

theorem Indexed.grown_filed (h : Indexed H p) (parents : List ℕ) (op : Option (Op (Payload D.Op)))
    (state : D.State) (g : γ) : Grown {g} p (p.filed parents op state g) where
  held := by rw [h.held_filed, Set.insert_eq, Set.union_comm]
  gid _ _ hg := h.get?_gid_filed_of_gid hg
  headId := rfl
  name := rfl
  seq := rfl

/-- The head of a whole peer reaches everything that is held. -/
theorem Indexed.reaches_of_held (h : Indexed H p) (hwhole : p.Whole) {hg g : γ}
    (hhg : p.headGid = some hg) (hheld : g ∈ p.held) : H.Reaches hg g := by
  obtain ⟨x, hx⟩ := hheld
  exact (h.labelled.reaches_iff hhg hx).mp (hwhole x (h.stored x g hx))

namespace Stands

/-! ### Local operations -/

/-- **A local operation** that is known is filed on the head. -/
theorem exec_commit (h : Stands H M c K p) (hK : KnownIds H M c K) {pg : γ} (hpg : p.headGid = some pg)
    {op : D.Op} (hg : H.opGid pg p.name p.seq op ∈ K) (hnew : H.opGid pg p.name p.seq op ∉ p.held) :
    ∃ p', Effect.exec (commit H op) p = (.ok (H.opGid pg p.name p.seq op), p') ∧
      Stands H M c K p' ∧ p'.held = insert (H.opGid pg p.name p.seq op) p.held ∧
      p'.headGid = some (H.opGid pg p.name p.seq op) ∧ p'.name = p.name ∧ p'.seq = p.seq + 1 := by
  obtain ⟨parent, state, hparent, hstate, hpre, hstands⟩ := h.filed_op hK hpg hg hnew
  set g := H.opGid pg p.name p.seq op
  set p₁ : Peer D γ := { p with seq := p.seq + 1 }
  set p₂ := p₁.filed [p.headId] (some ⟨p.name, p.seq, .one op⟩) state g
  have hparents : ∀ q ∈ [p.headId], p₁.dag.has q = true := by simpa using h.indexed.head
  have hfile : Effect.exec (file H [p.headId] (some ⟨p.name, p.seq, .one op⟩) state) p₁ =
      (.ok (p.dag.nextId, g), p₂) :=
    exec_file hparents (show p₁.Hashes _ _ from hpre.congr fun _ _ => rfl)
  have hhas : p₂.dag.has p.dag.nextId = true := has_filed_self (p := p₁)
  obtain ⟨frontier, hhead⟩ := exec_setHead hhas
  refine ⟨p₂.headedAt p.dag.nextId frontier, ?_, hstands.congr rfl rfl rfl hhas,
    h.indexed.held_filed [p.headId] (some ⟨p.name, p.seq, .one op⟩) state, ?_, rfl, rfl⟩
  · have hcommit : Effect.exec (commit H op) p = Effect.exec (do
        let f ← file H [p.headId] (some ⟨p.name, p.seq, .one op⟩) state
        setHead f.1
        return f.2) p₁ := by
      simp only [commit, Effect.exec_bind, Effect.exec_get, Effect.exec_lift, hparent, hstate,
        Effect.exec_set]
      rfl
    rw [hcommit, Effect.exec_bind_ok hfile, Effect.exec_bind_ok hhead]
    rfl
  · exact SortedMap.get?_insert_self ..

/-! ### Ingesting one commit -/

/-- The checks that ingestion makes before it recomputes a commit. -/
theorem exec_ingestNew_of_receive (h : Stands H M c K p) {wc : WireCommit D γ} (gs : List γ)
    {parents : List ℕ} (hparents : parents.map p.gid.get? = gs.map some)
    {op : Option (Op (Payload D.Op))} {state : D.State} {p₁ : Peer D γ}
    (hreceive : Effect.exec (receive wc parents) p = (.ok (op, state), p₁)) {g : γ} {id : ℕ}
    {p₂ : Peer D γ} (hfile : Effect.exec (file H parents op state) p₁ = (.ok (id, g), p₂))
    (hgid : ∀ g', wc.gid = some g' → g' = g) :
    Effect.exec (ingestNew H wc (gs.map some)) p = (.ok g, p₂) := by
  have hlocal : (gs.map some).filterMap (fun g => g.bind p.byGid.get?) = parents := by
    rw [← hparents]
    clear hreceive hfile
    induction parents generalizing gs with
    | nil => rfl
    | cons q parents ih =>
      cases gs with
      | nil => simp at hparents
      | cons g gs =>
        rw [List.map_cons, List.map_cons, List.cons.injEq] at hparents
        rw [List.map_cons, List.filterMap_cons, hparents.1, Option.bind_some,
          (h.indexed.byGid q g).mpr hparents.1, ih gs hparents.2]
  have hlength : parents.length = (gs.map some).length := by
    rw [← hparents, List.length_map]
  have hcheck : wc.gid.any (· ≠ g) = false := by
    cases hwc : wc.gid with
    | none => rfl
    | some g' => simp [hgid g' hwc]
  rw [ingestNew, Effect.exec_bind_ok (Effect.exec_get p)]
  dsimp only
  rw [hlocal, if_neg (by simpa using hlength), Effect.exec_bind_ok hreceive,
    Effect.exec_bind_ok hfile]
  simp only [hcheck, Bool.false_eq_true, if_false, Effect.exec_pure]

/-- **A received operation** that is known. -/
theorem exec_ingestNew_op (h : Stands H M c K p) (hK : KnownIds H M c K) {wc : WireCommit D γ} {q : ℕ}
    {pg : γ} (hpg : p.gid.get? q = some pg) {replica : String} {seq : ℕ} {op : D.Op}
    (hbody : wc.body = .op replica seq (.one op)) (hg : H.opGid pg replica seq op ∈ K)
    (hnew : H.opGid pg replica seq op ∉ p.held)
    (hgid : ∀ g, wc.gid = some g → g = H.opGid pg replica seq op) :
    ∃ p', Effect.exec (ingestNew H wc [some pg]) p = (.ok (H.opGid pg replica seq op), p') ∧
      Stands H M c K p' ∧ Grown {H.opGid pg replica seq op} p p' := by
  obtain ⟨parent, state, hparent, hstate, hpre, hstands⟩ := h.filed_op hK hpg hg hnew
  set g := H.opGid pg replica seq op
  set p₁ : Peer D γ := { p with registered := addMember p.registered replica }
  have hreceive : Effect.exec (receive wc [q]) p =
      (.ok (some ⟨replica, seq, .one op⟩, state), p₁) := by
    rw [receive, Effect.exec_bind_ok (Effect.exec_get p), hbody]
    simp [Effect.exec_bind, hparent, hstate, p₁, Except.map]
  have hfile : Effect.exec (file H [q] (some ⟨replica, seq, .one op⟩) state) p₁ =
      (.ok (p.dag.nextId, g), p₁.filed [q] (some ⟨replica, seq, .one op⟩) state g) :=
    exec_file (by simpa using h.indexed.stored q pg hpg)
      (show p₁.Hashes _ _ from hpre.congr fun _ _ => rfl)
  refine ⟨_, h.exec_ingestNew_of_receive [pg] (by simp [hpg]) hreceive hfile hgid,
    hstands.congr rfl rfl rfl hstands.indexed.head, ?_⟩
  have hgrown := h.indexed.grown_filed [q] (some ⟨replica, seq, .one op⟩) state g
  exact ⟨hgrown.held, hgrown.gid, rfl, rfl, rfl⟩

/-- **A received merge** that is known. -/
theorem exec_ingestNew_merge (h : Stands H M c K p) (hK : KnownIds H M c K) {wc : WireCommit D γ}
    {a b : ℕ} {x y : γ} (ha : p.gid.get? a = some x) (hb : p.gid.get? b = some y)
    (hbody : wc.body = .merge) (hg : mergeId H x y ∈ K) (hnew : mergeId H x y ∉ p.held)
    (hgid : ∀ g, wc.gid = some g → g = mergeId H x y) :
    ∃ p', Effect.exec (ingestNew H wc [some x, some y]) p = (.ok (mergeId H x y), p') ∧
      Stands H M c K p' ∧ Grown {mergeId H x y} p p' := by
  obtain ⟨l, hl⟩ := (hK.valid _ hg).base x y rfl
  obtain ⟨lId, base, aC, bC, state, hlca, hbase, haC, hbC, hstate, hrep⟩ := h.merge hK ha hb hl
  obtain ⟨hpre, hstands⟩ := h.filed_merge ha hb hg hnew hrep
  have hreceive : Effect.exec (receive wc [a, b]) p = (.ok (none, state), p) := by
    rw [receive, Effect.exec_bind_ok (Effect.exec_get p), hbody]
    simp [Effect.exec_bind, hlca, hbase, haC, hbC, hstate, Except.map]
  have hfile : Effect.exec (file H [a, b] none state) p =
      (.ok (p.dag.nextId, mergeId H x y), p.filed [a, b] none state (mergeId H x y)) :=
    exec_file (by simpa using ⟨h.indexed.stored a x ha, h.indexed.stored b y hb⟩) hpre
  exact ⟨_, h.exec_ingestNew_of_receive [x, y] (by simp [ha, hb]) hreceive hfile hgid,
    hstands, h.indexed.grown_filed ..⟩

end Stands

/-! ### Deltas -/

/-- The wire commit of a commit of the store. -/
def wire (p : Peer D γ) (x : ℕ) (cm : Commit D.State (Payload D.Op)) : WireCommit D γ where
  gid := p.gid.get? x
  parents := cm.parents.map p.gid.get?
  body := match cm.op with
    | some op => .op op.replica op.seq op.payload
    | none => .merge

/-- The wire commit `wc` is that of the commit `x`. -/
def Ships (p : Peer D γ) (x : ℕ) (wc : WireCommit D γ) : Prop :=
  ∃ cm, p.dag.commits.get? x = some cm ∧ wc = p.wire x cm

/-- **A delta** ships the commits of the head's ancestry that the other side lacks, the root excepted,
parents first. -/
theorem Indexed.exec_delta (h : Indexed H p) (theirGids : List γ) : ∃ ids commits,
    p.delta theirGids = .ok commits ∧ List.Forall₂ p.Ships ids commits ∧ ids.Pairwise (· < ·) ∧
    ∀ x, x ∈ ids ↔ p.dag.Reaches p.headId x ∧ p.missing theirGids x = true := by
  set ids := ((p.dag.ancestors p.headId).filter (p.missing theirGids)).insertionSort (· ≤ ·)
  have hperm : ids.Perm ((p.dag.ancestors p.headId).filter (p.missing theirGids)) :=
    List.perm_insertionSort _ _
  have hmem (x : ℕ) : x ∈ ids ↔ p.dag.Reaches p.headId x ∧ p.missing theirGids x = true := by
    rw [hperm.mem_iff, List.mem_filter, Dag.mem_ancestors_iff h.head]
  have hsorted : ids.Pairwise (· < ·) := by
    have hnodup : ids.Nodup := hperm.nodup_iff.mpr ((Dag.nodup_ancestors h.head).filter _)
    have hle : ids.Pairwise (· ≤ ·) := List.pairwise_insertionSort (· ≤ ·) _
    exact (hle.and hnodup).imp fun ⟨hxy, hne⟩ => lt_of_le_of_ne hxy hne
  have hstored : ∀ x ∈ ids, p.dag.has x = true := fun x hx =>
    Dag.has_of_reaches ((hmem x).mp hx).1 h.head
  have hships : ∀ l : List ℕ, (∀ x ∈ l, p.dag.has x = true) →
      ∃ commits, l.mapM p.wireOf = .ok commits ∧ List.Forall₂ p.Ships l commits := by
    intro l hl
    induction l with
    | nil => exact ⟨[], rfl, .nil⟩
    | cons x l ih =>
      rw [List.forall_mem_cons] at hl
      obtain ⟨cm, hcm⟩ := Dag.has_iff.mp hl.1
      obtain ⟨commits, hcommits, hall⟩ := ih hl.2
      have hwire : p.wireOf x = .ok (p.wire x cm) := by
        rw [wireOf, Dag.get_eq_ok.mpr hcm]
        rfl
      exact ⟨p.wire x cm :: commits, by rw [List.mapM_cons, hwire, hcommits]; rfl,
        .cons ⟨cm, hcm, rfl⟩ hall⟩
  obtain ⟨commits, hcommits, hall⟩ := hships ids hstored
  refine ⟨ids, commits, ?_, hall, hsorted, hmem⟩
  rw [delta, Dag.ancestorSet_eq h.head]
  exact hcommits

/-- A receiver resolves the parents that the framing has left out. -/
theorem resolve_parents {parents : List (Option γ)} (hparents : ∀ q ∈ parents, q.isSome)
    {prior decoded : Option γ} (hdecoded : decoded = prior ∨ decoded = none) :
    (parents.map fun q => if q = prior then decoded else q).map (fun q => q.or prior) = parents := by
  rw [List.map_map]
  refine (List.map_congr_left fun q hq => ?_).trans (List.map_id parents)
  obtain ⟨g, rfl⟩ := Option.isSome_iff_exists.mp (hparents q hq)
  dsimp only [Function.comp_apply, id_eq]
  split_ifs with heq
  · rcases hdecoded with rfl | rfl
    · rw [← heq, Option.some_or]
    · rw [← heq, Option.none_or]
  · rw [Option.some_or]

namespace Stands

variable {a : Peer D γ}

/-- **A commit of another peer** whose parents are held is recomputed with its content id. -/
theorem exec_ingestNew_wire (h : Stands H M c K p) (hK : KnownIds H M c K) (ha : Indexed H a)
    (hak : a.held ⊆ K) {x : ℕ} {cm : Commit D.State (Payload D.Op)}
    (hcm : a.dag.commits.get? x = some cm) (hne : cm.parents ≠ [])
    (hparents : ∀ q ∈ cm.parents, ∀ k, a.gid.get? q = some k → k ∈ p.held) {g : γ}
    (hg : a.gid.get? x = some g) (hnew : g ∉ p.held) {wc : WireCommit D γ}
    (hbody : wc.body = (a.wire x cm).body) (hgid : ∀ k, wc.gid = some k → k = g) :
    ∃ p', Effect.exec (ingestNew H wc (a.wire x cm).parents) p = (.ok g, p') ∧
      Stands H M c K p' ∧ Grown {g} p p' := by
  obtain ⟨pre, hpre, hg'⟩ := ha.content x cm hcm
  rw [hg, Option.some.injEq] at hg'
  subst hg'
  have hknown : H.digest pre ∈ K := hak ⟨x, hg⟩
  cases hpre with
  | root hp hop => exact absurd hp hne
  | @authored q pg replica seq op hp hpg hop =>
    obtain ⟨q', hq'⟩ := hparents q (by simp [hp]) pg hpg
    have hwire : (a.wire x cm).parents = [some pg] := by simp [wire, hp, hpg]
    rw [hwire]
    refine h.exec_ingestNew_op hK hq' (hbody.trans ?_) hknown hnew hgid
    simp [wire, hop]
  | @merge q r y z hp hy hz hop =>
    obtain ⟨q', hq'⟩ := hparents q (by simp [hp]) y hy
    obtain ⟨r', hr'⟩ := hparents r (by simp [hp]) z hz
    have hwire : (a.wire x cm).parents = [some y, some z] := by simp [wire, hp, hy, hz]
    rw [hwire]
    refine h.exec_ingestNew_merge hK hq' hr' (hbody.trans ?_) hknown hnew hgid
    simp [wire, hop]

/-- **Ingesting the commits of a delta** that the receiver lacks: it holds them afterwards. -/
theorem exec_ingestFrom (hK : KnownIds H M c K) (ha : Indexed H a) (hak : a.held ⊆ K) {ids : List ℕ}
    {commits : List (WireCommit D γ)} (hships : List.Forall₂ a.Ships ids commits)
    (hsorted : ids.Pairwise (· < ·)) (hne : ∀ x ∈ ids, ∃ q, a.dag.Par x q) {prior decoded : Option γ}
    (hdecoded : decoded = prior ∨ decoded = none) (h : Stands H M c K p)
    (hparents : ∀ x ∈ ids, ∀ q, a.dag.Par x q → q ∈ ids ∨ ∀ k, a.gid.get? q = some k → k ∈ p.held)
    (hnew : ∀ x ∈ ids, ∀ g, a.gid.get? x = some g → g ∉ p.held) :
    ∃ p', Effect.exec (ingestFrom H prior (overWireFrom prior decoded commits)) p =
        (.ok ids.length, p') ∧ Stands H M c K p' ∧
      Grown {g | ∃ x ∈ ids, a.gid.get? x = some g} p p' := by
  induction hships generalizing p prior decoded with
  | nil => exact ⟨p, rfl, h, by simpa using Grown.refl p⟩
  | @cons x wc ids commits hwc hall ih =>
    obtain ⟨cm, hcm, rfl⟩ := hwc
    obtain ⟨g, hg⟩ := ha.exists_gid (Dag.has_iff.mpr ⟨cm, hcm⟩)
    rw [List.pairwise_cons] at hsorted
    rw [List.forall_mem_cons] at hne hparents hnew
    -- The parents of the first commit are older than all that is still to come.
    have hheld : ∀ q ∈ cm.parents, ∀ k, a.gid.get? q = some k → k ∈ p.held := by
      intro q hq
      have hpar := ha.par_iff.mpr ⟨cm, hcm, hq⟩
      refine (hparents.1 q hpar).resolve_left fun hmem => ?_
      have hlt := ha.wf.par_lt x q hpar
      rcases List.mem_cons.mp hmem with rfl | hmem
      · exact lt_irrefl _ hlt
      · exact lt_asymm hlt (hsorted.1 q hmem)
    have hnil : cm.parents ≠ [] := by
      obtain ⟨q, hq⟩ := hne.1
      obtain ⟨cm', hcm', hmem⟩ := ha.par_iff.mp hq
      rw [hcm, Option.some.injEq] at hcm'
      exact List.ne_nil_of_mem (hcm' ▸ hmem)
    have hsome : ∀ q ∈ (a.wire x cm).parents, q.isSome := by
      intro q hq
      obtain ⟨y, hy, rfl⟩ := List.mem_map.mp hq
      obtain ⟨k, hk⟩ := ha.exists_gid (ha.has_parent hcm hy)
      rw [hk]
      rfl
    set gid := if omitGid (a.wire x cm) commits then none else (a.wire x cm).gid with hgid
    have hgidEq : ∀ k, gid = some k → k = g := by
      intro k hk
      rw [hgid] at hk
      split_ifs at hk
      exact (Option.some.inj (hg.symm.trans hk)).symm
    have hfresh : gid.any p.byGid.has = false := by
      cases hcase : gid with
      | none => rfl
      | some k =>
        rw [hgidEq k hcase, Option.any_some, ← Bool.not_eq_true, SortedMap.has_iff]
        rintro ⟨y, hy⟩
        exact hnew.1 g hg ⟨y, (h.indexed.byGid y g).mp hy⟩
    set wc : WireCommit D γ :=
      { a.wire x cm with
        gid, parents := (a.wire x cm).parents.map fun q => if q = prior then decoded else q }
    have hbody : wc.body = (a.wire x cm).body := rfl
    obtain ⟨p₁, hexec, hstands, hgrown⟩ := h.exec_ingestNew_wire hK ha hak hcm hnil hheld hg
      (hnew.1 g hg) hbody hgidEq
    have hrest : (a.wire x cm).gid = some g := hg
    have hdecoded' : gid = some g ∨ gid = none := by
      rw [hgid, hrest]
      split_ifs
      · exact Or.inr rfl
      · exact Or.inl rfl
    obtain ⟨p₂, hexec', hstands', hgrown'⟩ := ih hsorted.2 hne.2 hdecoded' hstands
      (fun y hy q hq => by
        rcases hparents.2 y hy q hq with hmem | hmem
        · rcases List.mem_cons.mp hmem with rfl | hmem
          · refine Or.inr fun k hk => ?_
            rw [hg, Option.some.injEq] at hk
            rw [hgrown.held]
            exact Or.inr hk.symm
          · exact Or.inl hmem
        · refine Or.inr fun k hk => ?_
          rw [hgrown.held]
          exact Or.inl (hmem k hk))
      (fun y hy k hk hmem => by
        rw [hgrown.held] at hmem
        rcases hmem with hmem | rfl
        · exact hnew.2 y hy k hk hmem
        · exact (hsorted.1 y hy).ne (ha.gid_injective hg hk))
    refine ⟨p₂, ?_, hstands', ?_⟩
    · have hcons : overWireFrom prior decoded (a.wire x cm :: commits) =
          wc :: overWireFrom (some g) gid commits := by
        rw [← hrest]
        rfl
      rw [hcons, ingestFrom, Effect.exec_bind_ok (Effect.exec_get p)]
      dsimp only [wc]
      rw [if_neg (by rw [hfresh]; simp), resolve_parents hsome hdecoded, Effect.exec_bind_ok hexec,
        Effect.exec_bind_ok hexec']
      rfl
    · have hset : ({k | ∃ y ∈ x :: ids, a.gid.get? y = some k} : Set γ) =
          {g} ∪ {k | ∃ y ∈ ids, a.gid.get? y = some k} := by
        ext k
        simp [hg, eq_comm]
      rw [hset]
      exact hgrown.trans hgrown'

end Stands

/-! ### Whole deltas -/

/-- Every commit of the store reaches the root. -/
theorem Indexed.exists_root (h : Indexed H p) {x : ℕ} (hx : p.dag.has x = true) :
    ∃ y, p.dag.Reaches x y ∧ p.gid.get? y = some (H.digest .root) := by
  induction x using Nat.strong_induction_on with
  | _ x ih =>
    obtain ⟨cm, hcm⟩ := Dag.has_iff.mp hx
    obtain ⟨pre, hpre, hg⟩ := h.content x cm hcm
    have hclimb : ∀ q ∈ cm.parents, ∃ y, p.dag.Reaches x y ∧
        p.gid.get? y = some (H.digest .root) := by
      intro q hq
      obtain ⟨y, hqy, hy⟩ := ih q (h.wf.parent_lt x cm hcm q hq) (h.has_parent hcm hq)
      exact ⟨y, .head (h.par_iff.mpr ⟨cm, hcm, hq⟩) hqy, hy⟩
    cases hpre with
    | root hp hop => exact ⟨x, .refl, hg⟩
    | @authored q pg replica seq op hp hpg hop => exact hclimb q (by simp [hp])
    | @merge q r y z hp hy hz hop => exact hclimb q (by simp [hp])

theorem Indexed.root_mem_held (h : Indexed H p) : H.digest .root ∈ p.held := by
  obtain ⟨y, -, hy⟩ := h.exists_root h.head
  exact ⟨y, hy⟩

/-- The root is in the ancestry of every commit. -/
theorem Indexed.reaches_root (h : Indexed H p) {x y : ℕ} (hx : p.dag.has x = true)
    (hy : p.gid.get? y = some (H.digest .root)) : p.dag.Reaches x y := by
  obtain ⟨y', hxy, hy'⟩ := h.exists_root hx
  exact h.gid_injective hy' hy ▸ hxy

/-- The have-summary of a whole peer lists what it holds. -/
theorem Indexed.exec_ancestryGids (h : Indexed H p) (hwhole : p.Whole) :
    ∃ gids, p.ancestryGids = .ok gids ∧ ∀ g, g ∈ gids ↔ g ∈ p.held := by
  refine ⟨_, by rw [ancestryGids, Dag.ancestorSet_eq h.head]; rfl, fun g => ?_⟩
  simp only [List.mem_filterMap, Dag.mem_ancestors_iff h.head]
  constructor
  · rintro ⟨x, -, hx⟩
    exact ⟨x, hx⟩
  · rintro ⟨x, hx⟩
    exact ⟨x, hwhole x (h.stored x g hx), hx⟩

namespace Stands

variable {a : Peer D γ}

/-- **Ingesting the delta of a whole peer**: the receiver holds what both held. -/
theorem exec_ingest (h : Stands H M c K p) (hK : KnownIds H M c K) (ha : Indexed H a)
    (hwhole : a.Whole) (hak : a.held ⊆ K) {theirGids : List γ}
    (htheirs : ∀ g, g ∈ theirGids ↔ g ∈ p.held) : ∃ commits n p', a.delta theirGids = .ok commits ∧
      Effect.exec (ingest H (overWire commits)) p = (.ok n, p') ∧ Stands H M c K p' ∧
      Grown a.held p p' := by
  obtain ⟨ids, commits, hdelta, hships, hsorted, hmem⟩ := ha.exec_delta theirGids
  have hmissing {x : ℕ} {g : γ} (hg : a.gid.get? x = some g) :
      a.missing theirGids x = true ↔ g ∉ p.held ∧ a.dag.parentsOf x ≠ [] := by
    simp [missing, hg, htheirs]
  have hpar {x q : ℕ} (hq : a.dag.Par x q) : a.dag.parentsOf x ≠ [] := by
    obtain ⟨cm, hcm, hmem⟩ := ha.par_iff.mp hq
    exact List.ne_nil_of_mem (Dag.mem_parentsOf_iff.mpr ⟨cm, hcm, hmem⟩)
  have hids {x : ℕ} (hx : x ∈ ids) : ∃ g, a.gid.get? x = some g ∧ g ∉ p.held ∧
      a.dag.parentsOf x ≠ [] := by
    obtain ⟨hr, hm⟩ := (hmem x).mp hx
    obtain ⟨g, hg⟩ := ha.exists_gid (Dag.has_of_reaches hr ha.head)
    exact ⟨g, hg, (hmissing hg).mp hm⟩
  -- What is held by neither list is the root, which everyone holds.
  have hrest {x : ℕ} (hx : a.dag.has x = true) (hnot : x ∉ ids) {g : γ}
      (hg : a.gid.get? x = some g) : g ∈ p.held := by
    by_contra hnew
    rw [hmem, hmissing hg, not_and, not_and, not_not] at hnot
    have hroot := hnot (hwhole x hx) hnew
    obtain ⟨cm, hcm⟩ := Dag.has_iff.mp hx
    obtain ⟨pre, hpre, hg'⟩ := ha.content x cm hcm
    have hnil : cm.parents = [] := by simpa [Dag.parentsOf, hcm] using hroot
    rw [hg, Option.some.injEq] at hg'
    cases hpre with
    | root hp hop => exact hnew (hg' ▸ h.indexed.root_mem_held)
    | authored hp hpg hop => simp [hnil] at hp
    | merge hp hy hz hop => simp [hnil] at hp
  obtain ⟨p₁, hexec, hstands, hgrown⟩ := exec_ingestFrom hK ha hak hships hsorted
    (fun x hx => by
      obtain ⟨g, hg, -, hne⟩ := hids hx
      obtain ⟨q, hq⟩ := List.exists_mem_of_ne_nil _ hne
      obtain ⟨cm, hcm, hq⟩ := Dag.mem_parentsOf_iff.mp hq
      exact ⟨q, ha.par_iff.mpr ⟨cm, hcm, hq⟩⟩)
    (Or.inl (rfl : (none : Option γ) = none)) h
    (fun x hx q hq => by
      by_cases hmem : q ∈ ids
      · exact Or.inl hmem
      · exact Or.inr fun k hk => hrest (Dag.has_of_par hq) hmem hk)
    (fun x hx g hg => by
      obtain ⟨g', hg', hnew, -⟩ := hids hx
      rw [hg, Option.some.injEq] at hg'
      exact hg' ▸ hnew)
  have hheld : p₁.held = p.held ∪ a.held := by
    rw [hgrown.held]
    ext g
    constructor
    · rintro (hg | ⟨x, -, hx⟩)
      · exact Or.inl hg
      · exact Or.inr ⟨x, hx⟩
    · rintro (hg | ⟨x, hx⟩)
      · exact Or.inl hg
      · by_cases hmem : x ∈ ids
        · exact Or.inr ⟨x, hmem, hx⟩
        · exact Or.inl (hrest (ha.stored x g hx) hmem hx)
  have hg₁ : Grown a.held p p₁ :=
    ⟨hheld, hgrown.gid, hgrown.headId, hgrown.name, hgrown.seq⟩
  have hexec' : Effect.exec (ingestFrom H none (overWire commits)) p = (.ok ids.length, p₁) := hexec
  rcases Nat.eq_zero_or_pos ids.length with hzero | hpos
  · refine ⟨commits, ids.length, p₁, hdelta, ?_, hstands, hg₁⟩
    rw [ingest, Effect.exec_bind_ok hexec', if_neg (by omega)]
    rfl
  · obtain ⟨fr, hfr, -⟩ := Dag.frontierOf_spec hstands.indexed.head
    refine ⟨commits, ids.length, { p₁ with frontier := fr }, hdelta, ?_,
      hstands.congr rfl rfl rfl hstands.indexed.head,
      ⟨hg₁.held, hg₁.gid, hg₁.headId, hg₁.name, hg₁.seq⟩⟩
    rw [ingest, Effect.exec_bind_ok hexec', if_pos hpos]
    simp [refresh, Effect.exec_bind, hfr, Except.map]

/-! ### Merges -/

section Merge

variable (h : Stands H M c K p) {hg g : γ} (hhg : p.headGid = some hg)

include h hhg

/-- The head subsumes the other commit. -/
theorem exec_mergeWithGid_of_reaches (hheld : g ∈ p.held) (hr : H.Reaches hg g) :
    Effect.exec (mergeWithGid H (some g)) p = (.ok (some hg), p) := by
  obtain ⟨b, hb⟩ := hheld
  have hhead : p.dag.Reaches p.headId b := (h.indexed.labelled.reaches_iff hhg hb).mpr hr
  rw [mergeWithGid, Effect.exec_bind_ok (Effect.exec_get p), Option.bind_some,
    (h.indexed.byGid b g).mpr hb]
  dsimp only
  split_ifs with heq
  · rw [Effect.exec_pure, hhg]
  · obtain ⟨r, hr₁, hiff⟩ := Dag.isAncestor_eq h.indexed.head (h.indexed.stored b g hb)
    obtain ⟨r', hr₂, hiff'⟩ := Dag.isAncestor_eq (h.indexed.stored b g hb) h.indexed.head
    have hfalse : r = false := by
      rw [← Bool.not_eq_true, hiff]
      exact fun hback => heq (Ancestry.reaches_antisymm h.indexed.wf.par_lt hhead hback)
    rw [hfalse] at hr₁
    rw [hiff'.mpr hhead] at hr₂
    simp [Effect.exec_bind, hr₁, hr₂, hhg, Except.map]

/-- The other commit subsumes the head. -/
theorem exec_mergeWithGid_of_reached (hheld : g ∈ p.held) (hr : H.Reaches g hg) (hne : hg ≠ g) :
    ∃ p', Effect.exec (mergeWithGid H (some g)) p = (.ok (some g), p') ∧ Stands H M c K p' ∧
      p'.held = p.held ∧ p'.headGid = some g ∧ p'.name = p.name ∧ p'.seq = p.seq := by
  obtain ⟨b, hb⟩ := hheld
  have hhas := h.indexed.stored b g hb
  have hhead : p.dag.Reaches b p.headId := (h.indexed.labelled.reaches_iff hb hhg).mpr hr
  have hne' : p.headId ≠ b := by
    rintro rfl
    exact hne (Option.some.inj (hhg.symm.trans hb))
  obtain ⟨r, hr₁, hiff⟩ := Dag.isAncestor_eq h.indexed.head hhas
  rw [hiff.mpr hhead] at hr₁
  obtain ⟨frontier, hset⟩ := exec_setHead hhas
  refine ⟨p.headedAt b frontier, ?_, h.congr rfl rfl rfl hhas, rfl, hb, rfl, rfl⟩
  rw [mergeWithGid, Effect.exec_bind_ok (Effect.exec_get p), Option.bind_some,
    (h.indexed.byGid b g).mpr hb]
  have hgid : (p.headedAt b frontier).headGid = some g := hb
  simp [hne', Effect.exec_bind, hr₁, hset, hgid, Except.map]

variable (hheld : g ∈ p.held) (hl : ¬ H.Reaches hg g) (hr : ¬ H.Reaches g hg)

include hheld hl hr

/-- Neither commit subsumes the other: the gate is asked for the base. -/
theorem exec_mergeWithGid_of_not_reaches : ∃ b, p.gid.get? b = some g ∧
    Effect.exec (mergeWithGid H (some g)) p = Effect.exec (do
      let l ← p.dag.lca p.headId b
      let base ← p.dag.get l
      let aC ← p.dag.get p.headId
      let bC ← p.dag.get b
      let merged ← D.merge3 base.state aC.state bC.state
      let f ← file H [p.headId, b] none merged
      setHead f.1
      return (← get).headGid : Call D γ (Option γ)) p := by
  obtain ⟨b, hb⟩ := hheld
  have hhas := h.indexed.stored b g hb
  have hne : p.headId ≠ b := by
    rintro rfl
    rw [headGid] at hhg
    rw [hhg, Option.some.injEq] at hb
    exact hl (hb ▸ .refl)
  obtain ⟨r, hr₁, hiff⟩ := Dag.isAncestor_eq h.indexed.head hhas
  obtain ⟨r', hr₂, hiff'⟩ := Dag.isAncestor_eq hhas h.indexed.head
  have hfalse : r = false := by
    rw [← Bool.not_eq_true, hiff]
    exact fun hback => hr ((h.indexed.labelled.reaches_iff hb hhg).mp hback)
  have hfalse' : r' = false := by
    rw [← Bool.not_eq_true, hiff']
    exact fun hforth => hl ((h.indexed.labelled.reaches_iff hhg hb).mp hforth)
  rw [hfalse] at hr₁
  rw [hfalse'] at hr₂
  refine ⟨b, hb, ?_⟩
  rw [mergeWithGid, Effect.exec_bind_ok (Effect.exec_get p), Option.bind_some,
    (h.indexed.byGid b g).mpr hb]
  simp [hne, Effect.exec_bind, hr₁, hr₂]

/-- **A merge over one base** is filed, and the head moves to it. -/
theorem exec_mergeWithGid_of_onlyMca (hK : KnownIds H M c K) {l : γ} (hmca : OnlyMca H.Par hg g l)
    (hmem : mergeId H hg g ∈ K) (hnew : mergeId H hg g ∉ p.held) :
    ∃ p', Effect.exec (mergeWithGid H (some g)) p = (.ok (some (mergeId H hg g)), p') ∧
      Stands H M c K p' ∧ p'.held = insert (mergeId H hg g) p.held ∧
      p'.headGid = some (mergeId H hg g) ∧ p'.name = p.name ∧ p'.seq = p.seq := by
  obtain ⟨b, hb, hexec⟩ := h.exec_mergeWithGid_of_not_reaches hhg hheld hl hr
  obtain ⟨lId, base, aC, bC, state, hlca, hbase, haC, hbC, hstate, hrep⟩ := h.merge hK hhg hb hmca
  obtain ⟨hpre, hstands⟩ := h.filed_merge hhg hb hmem hnew hrep
  set p₁ := p.filed [p.headId, b] none state (mergeId H hg g)
  have hfile : Effect.exec (file H [p.headId, b] none state) p =
      (.ok (p.dag.nextId, mergeId H hg g), p₁) :=
    exec_file (by simpa using ⟨h.indexed.head, h.indexed.stored b g hb⟩) hpre
  have hhas : p₁.dag.has p.dag.nextId = true := has_filed_self
  obtain ⟨frontier, hset⟩ := exec_setHead hhas
  have hgid : (p₁.headedAt p.dag.nextId frontier).headGid = some (mergeId H hg g) :=
    SortedMap.get?_insert_self ..
  refine ⟨p₁.headedAt p.dag.nextId frontier, ?_, hstands.congr rfl rfl rfl hhas,
    h.indexed.held_filed [p.headId, b] none state, hgid, rfl, rfl⟩
  rw [hexec]
  simp only [Effect.exec_bind, Effect.exec_lift, hlca, hbase, haC, hbC, hstate, hfile, hset,
    Effect.exec_get, Effect.exec_pure, hgid]

/-- **Several bases**: the gate reports a criss-cross, and nothing changes. -/
theorem exec_mergeWithGid_of_not_onlyMca (hmca : ¬ ∃ l, OnlyMca H.Par hg g l) :
    ∃ mcas, Effect.exec (mergeWithGid H (some g)) p = (.error (.crissCross mcas), p) := by
  obtain ⟨b, hb, hexec⟩ := h.exec_mergeWithGid_of_not_reaches hhg hheld hl hr
  have hhas := h.indexed.stored b g hb
  rw [← h.indexed.labelled.exists_onlyMca_iff hhg hb] at hmca
  rcases hlca : p.dag.lca p.headId b with e | l
  · rcases Dag.lca_eq_error h.indexed.head hhas h.indexed.wf hlca with ⟨m, rfl, -⟩ | ⟨-, hnone⟩
    · refine ⟨m, ?_⟩
      rw [hexec]
      simp only [Effect.exec_bind, Effect.exec_lift, hlca]
    · -- The root is a common ancestor.
      obtain ⟨x, hx⟩ := h.indexed.root_mem_held
      obtain ⟨m, hm, -⟩ := Ancestry.exists_isMca h.indexed.wf.par_lt
        (⟨⟨p.headId, rfl, h.indexed.reaches_root h.indexed.head hx⟩,
          h.indexed.reaches_root hhas hx⟩ : Ancestry.CommonAncestor p.dag.Par {p.headId} b x)
      exact absurd hm (hnone m)
  · exact absurd ⟨l, (Dag.lca_eq_ok_iff h.indexed.head hhas h.indexed.wf).mp hlca⟩ hmca

end Merge

end Stands

end Peer

end SalRuntime
