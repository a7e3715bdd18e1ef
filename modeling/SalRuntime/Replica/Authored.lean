import SalRuntime.Replica.Ingestion

/-!
# Operations and the ids of their contents

An operation commit is filed under the hash of its parent, its author, its sequence number and its
payload. A delta carries this id, or leaves it out where the next commit names it as its parent; in
either case a receiver resolves the parent to the same id.

## Main definitions

* `opId` — the content id of an operation on a parent.
* `Replica.Faithful` — a wire commit that is an operation carries the id of its content, and is
  allowed.
* `Replica.Resolved` — in the course of a delta, every operation names its parent and an id that is
  that of its content, and is allowed.

## Main results

* `Replica.Sound.exec_author` — an operation of a replica's own.
* `Replica.resolved_of_faithful`, `Replica.resolved_overWire` — faithful deltas, as they are or over
  the wire.
* `Replica.Stable.ends_ingest_resolved` — ingesting a delta whose operations are resolved.
-/

namespace SalRuntime

variable {D : Datatype} {γ : Type} [LinearOrder γ] {H : ContentHash D.Op D.Print γ}

/-- The content id of an operation on a parent. -/
def opId (H : ContentHash D.Op D.Print γ) (pg : γ) (op : Op (Payload D.Op)) : γ :=
  H.digest (.authored [pg] op.replica op.seq op.payload)

omit [LinearOrder γ] in
theorem opId_injective {pg pg' : γ} {op op' : Op (Payload D.Op)}
    (h : opId H pg op = opId H pg' op') : pg = pg' ∧ op = op' := by
  have hpre := H.injective h
  simp only [Preimage.authored.injEq, List.cons.injEq, and_true] at hpre
  obtain ⟨hpg, hreplica, hseq, hpayload⟩ := hpre
  exact ⟨hpg, Op.ext hreplica hseq hpayload⟩

namespace Replica

/-! ### Local operations -/

/-- **An operation of its own** is filed on the head under the next sequence number. -/
theorem Sound.exec_author {r : Replica D γ} (h : Sound H r) {pg : γ}
    (hpg : r.gid.get? r.headId = some pg) (payload : Payload D.Op) (state : D.State) :
    ∃ frontier, Effect.exec (author H payload state) r =
      (.ok (opId H pg ⟨r.name, r.seq, payload⟩),
        (({ r with seq := r.seq + 1 } : Replica D γ).filed [r.headId]
          (some ⟨r.name, r.seq, payload⟩) state r.epochKey
          (opId H pg ⟨r.name, r.seq, payload⟩)).headedAt r.dag.nextId frontier) := by
  set r₁ : Replica D γ := { r with seq := r.seq + 1 }
  set op : Op (Payload D.Op) := ⟨r.name, r.seq, payload⟩
  have hhas : ∀ p ∈ [r.headId], r₁.dag.has p = true := by simpa using h.head
  have hid : commitContentId H (r₁.nextCommit [r.headId] (some op) state)
      (r₁.parentGids (r₁.nextCommit [r.headId] (some op) state)) = .ok (opId H pg op) := by
    have hparents : r₁.parentGids (r₁.nextCommit [r.headId] (some op) state) = [pg] := by
      simp [parentGids, nextCommit, r₁, hpg]
    rw [hparents]
    rfl
  obtain ⟨frontier, hset⟩ := exec_setHead
    (r := r₁.filed [r.headId] (some op) state r.epochKey (opId H pg op)) has_filed_self
  refine ⟨frontier, ?_⟩
  rw [author, Effect.exec_bind_ok (Effect.exec_get r), Effect.exec_bind_ok (Effect.exec_set r₁ r),
    Effect.exec_bind_ok (exec_file_of_ok hhas r.epochKey hid)]
  exact Effect.exec_bind_ok hset _

/-! ### Wire commits -/

/-- The wire commit of an operation. -/
theorem op_of_wireOf {r : Replica D γ} {id : ℕ} {wc : WireCommit D γ}
    (hwire : r.wireOf H id = .ok wc) {op : Op (Payload D.Op)}
    (hbody : wc.body = .op op.replica op.seq op.payload) :
    ∃ c, r.dag.commits.get? id = some c ∧ c.op = some op ∧ id ∉ r.gcBoundary ∧
      wc.gid = r.gid.get? id ∧ wc.parents = c.parents.map r.gid.get? := by
  rw [wireOf] at hwire
  cases hc : r.dag.get id with
  | error e =>
    rw [hc] at hwire
    cases hwire
  | ok c =>
    rw [hc] at hwire
    refine ⟨c, Dag.get_eq_ok.mp hc, ?_⟩
    change (if id ∈ r.gcBoundary then _ else _) = _ at hwire
    split_ifs at hwire with hboundary
    · split at hwire
      · cases hwire
        cases hbody
      · cases hwire
    · split at hwire
      · rename_i op' hop
        cases hwire
        simp only [WireBody.op.injEq] at hbody
        obtain ⟨hreplica, hseq, hpayload⟩ := hbody
        exact ⟨hop.trans (congrArg some (Op.ext hreplica hseq hpayload)), hboundary, rfl, rfl⟩
      · dsimp only at hwire
        split_ifs at hwire
        · split at hwire
          · cases hwire
            cases hbody
          · cases hwire
        · split at hwire
          · cases hwire
            cases hbody
          · cases hwire
        · cases hwire
          cases hbody

/-- The wire commit, if it is an operation, carries the id of its content, and `W` allows it. -/
def Faithful (H : ContentHash D.Op D.Print γ) (W : γ → Op (Payload D.Op) → Prop)
    (wc : WireCommit D γ) : Prop :=
  ∀ op, wc.body = .op op.replica op.seq op.payload →
    ∃ pg, wc.parents = [some pg] ∧ wc.gid = some (opId H pg op) ∧ W (opId H pg op) op

omit [LinearOrder γ] in
theorem Faithful.mono {W W' : γ → Op (Payload D.Op) → Prop} {wc : WireCommit D γ}
    (h : Faithful H W wc) (hW : ∀ g op, W g op → W' g op) : Faithful H W' wc := fun op hbody =>
  let ⟨pg, hparents, hgid, hallowed⟩ := h op hbody
  ⟨pg, hparents, hgid, hW _ _ hallowed⟩

/-! ### Resolved deltas -/

/-- The wire commit, if it is an operation, has one known parent and no id but that of its content,
and `W` allows it. -/
def Resolves (H : ContentHash D.Op D.Print γ) (W : γ → Op (Payload D.Op) → Prop)
    (wc : WireCommit D γ) (parentGids : List (Option γ)) : Prop :=
  ∀ op, wc.body = .op op.replica op.seq op.payload → ∃ pg, parentGids = [some pg] ∧
    (∀ g ∈ wc.gid, g = opId H pg op) ∧ W (opId H pg op) op

/-- The receiver may know the wire commit under the id: it is the one on the wire, and that of the
content of an operation. -/
structure Names (H : ContentHash D.Op D.Print γ) (wc : WireCommit D γ)
    (parentGids : List (Option γ)) (id : Option γ) : Prop where
  /-- The id on the wire. -/
  wire : ∀ g ∈ wc.gid, id = some g
  /-- The id of the content. -/
  content : ∀ op pg, wc.body = .op op.replica op.seq op.payload → parentGids = [some pg] →
    id = some (opId H pg op)

/-- Every commit of a delta resolves, given the id of the preceding commit. -/
def Resolved (H : ContentHash D.Op D.Print γ) (W : γ → Op (Payload D.Op) → Prop) :
    Option γ → List (WireCommit D γ) → Prop
  | _, [] => True
  | prior, wc :: rest =>
    Resolves H W wc (wc.parents.map fun p => p.or prior) ∧
      ∀ id, Names H wc (wc.parents.map fun p => p.or prior) id → Resolved H W id rest

omit [LinearOrder γ] in
/-- **Faithful deltas** are resolved as they are. -/
theorem resolved_of_faithful {W : γ → Op (Payload D.Op) → Prop} {commits : List (WireCommit D γ)}
    (h : ∀ wc ∈ commits, Faithful H W wc) (prior : Option γ) : Resolved H W prior commits := by
  induction commits generalizing prior with
  | nil => trivial
  | cons wc rest ih =>
    rw [List.forall_mem_cons] at h
    refine ⟨fun op hbody => ?_, fun id _ => ih h.2 id⟩
    obtain ⟨pg, hparents, hgid, hW⟩ := h.1 op hbody
    refine ⟨pg, by rw [hparents]; rfl, fun g hg => ?_, hW⟩
    rw [hgid] at hg
    exact (Option.some.inj hg).symm

/-- A missing id was left out of an operation, and the operation on top of it has it as its
parent. -/
theorem resolved_overWireFrom {W : γ → Op (Payload D.Op) → Prop}
    {commits : List (WireCommit D γ)} (h : ∀ wc ∈ commits, Faithful H W wc)
    {prior previous decoded : Option γ}
    (hprior : decoded = previous ∨ decoded = none ∧ prior = previous) :
    Resolved H W prior (overWireFrom previous decoded commits) := by
  induction commits generalizing prior previous decoded with
  | nil => trivial
  | cons wc rest ih =>
    rw [List.forall_mem_cons] at h
    have hresolved {op : Op (Payload D.Op)} (hbody : wc.body = .op op.replica op.seq op.payload) :
        ∃ pg, ((wc.parents.map fun p => if p = previous then decoded else p).map fun p =>
          p.or prior) = [some pg] ∧ wc.gid = some (opId H pg op) ∧ W (opId H pg op) op := by
      obtain ⟨pg, hpg, hid, hW⟩ := h.1 op hbody
      refine ⟨pg, ?_, hid, hW⟩
      rw [hpg, List.map_singleton, List.map_singleton]
      split_ifs with heq
      · rcases hprior with rfl | ⟨rfl, rfl⟩
        · rw [← heq, Option.some_or]
        · rw [← heq, Option.none_or]
      · rw [Option.some_or]
    refine ⟨fun op hbody => ?_, fun id hid => ih h.2 ?_⟩
    · obtain ⟨pg, hpg, hgid, hW⟩ := hresolved hbody
      refine ⟨pg, hpg, fun g hg => ?_, hW⟩
      dsimp only at hg
      split_ifs at hg
      · cases hg
      · rw [hgid] at hg
        exact (Option.some.inj hg).symm
    · split_ifs with homit
      · -- The id is left out of operations only.
        obtain ⟨op, hbody⟩ : ∃ op : Op (Payload D.Op),
            wc.body = .op op.replica op.seq op.payload := by
          cases hbody : wc.body with
          | op replica seq payload => exact ⟨⟨replica, seq, payload⟩, rfl⟩
          | merge => cases rest <;> simp [omitGid, hbody, WireBody.isOp] at homit
          | compact cut state => cases rest <;> simp [omitGid, hbody, WireBody.isOp] at homit
          | base epoch fp roster proof state =>
            cases rest <;> simp [omitGid, hbody, WireBody.isOp] at homit
        obtain ⟨pg, hpg, hgid, -⟩ := hresolved hbody
        exact Or.inr ⟨rfl, (hid.content op pg hbody hpg).trans hgid.symm⟩
      · exact Or.inl rfl

/-- **Faithful deltas** are resolved over the wire. -/
theorem resolved_overWire {W : γ → Op (Payload D.Op) → Prop} {commits : List (WireCommit D γ)}
    (h : ∀ wc ∈ commits, Faithful H W wc) : Resolved H W none (overWire commits) :=
  resolved_overWireFrom h (Or.inl rfl)

/-- Framing leaves the bodies as they are. -/
theorem exists_body_of_mem_overWireFrom {previous decoded : Option γ}
    {commits : List (WireCommit D γ)} {wc : WireCommit D γ}
    (h : wc ∈ overWireFrom previous decoded commits) : ∃ wc' ∈ commits, wc.body = wc'.body := by
  induction commits generalizing previous decoded with
  | nil => cases h
  | cons wc' rest ih =>
    rcases List.mem_cons.mp h with rfl | hmem
    · exact ⟨wc', List.mem_cons_self, rfl⟩
    · obtain ⟨wc'', hwc'', heq⟩ := ih hmem
      exact ⟨wc'', List.mem_cons_of_mem _ hwc'', heq⟩

/-! ### Ingesting resolved deltas -/

section Ingest

variable {r : Replica D γ} (h : Sound H r) {wc : WireCommit D γ}

include h

theorem Sound.admitted_op {op : Op (Payload D.Op)}
    (hbody : wc.body = .op op.replica op.seq op.payload) {pg : γ} {id : Except Failure γ}
    (hadm : Admitted H r wc [some pg] id) : id = .ok (opId H pg op) := by
  cases hadm with
  | @op replica seq payload p ps c state hbody' hlocal hclosed hroster hc hstate =>
    obtain ⟨rfl, rfl, rfl⟩ : op.replica = replica ∧ op.seq = seq ∧ op.payload = payload := by
      simpa using hbody.symm.trans hbody'
    obtain rfl : ps = [] := by simpa using hclosed
    have hpg : r.gid.get? p = some pg := by
      refine h.found pg p ?_
      have hmem : p ∈ r.localParents [some pg] := hlocal ▸ List.mem_singleton_self p
      simpa [localParents] using hmem
    have hparents : r.parentGids (r.nextCommit [p]
        (some ⟨op.replica, op.seq, op.payload⟩) state) = [pg] := by
      simp [parentGids, nextCommit, hpg]
    rw [nextId, hparents]
    rfl
  | compact hbody' => simp [hbody] at hbody'
  | epochBase hbody' => simp [hbody] at hbody'
  | merge hbody' => simp [hbody] at hbody'
  | base hbody' => simp [hbody] at hbody'

/-- **Ingesting an operation** with the id of its content returns this id, or adds no commit but the
root. -/
theorem Sound.exec_ingestNew_op {op : Op (Payload D.Op)}
    (hbody : wc.body = .op op.replica op.seq op.payload) {pg : γ}
    (hgid : ∀ g ∈ wc.gid, g = opId H pg op) :
    (∃ r', Effect.exec (ingestNew H wc [some pg]) r = (.ok (opId H pg op), r')) ∨
      ∃ e, Effect.exec (ingestNew H wc [some pg]) r = (.error e, r.rooted [some pg]) := by
  rw [exec_ingestNew_rooted h]
  rcases exec_ingestNew wc (h.rooted [some pg]) (needsRoot_rooted [some pg]) with
    ⟨id, hadm, hwritten⟩ | ⟨-, e, herror⟩
  · have hid := (h.rooted [some pg]).admitted_op hbody hadm
    have hall : wc.gid.all (· = opId H pg op) = true := by
      cases hwc : wc.gid with
      | none => rfl
      | some g => simpa using hgid g hwc
    exact Or.inl ⟨_, Prod.ext ((hwritten.returns _).mpr ⟨hid, hall⟩) rfl⟩
  · refine Or.inr ⟨e, ?_⟩
    rw [herror, refused, if_neg (by simp [hbody, WireBody.isMerge])]

/-- The id that ingesting a wire commit returns is the one on the wire. -/
theorem Sound.gid_of_ingestNew {parentGids : List (Option γ)} {g : γ} {r' : Replica D γ}
    (hok : Effect.exec (ingestNew H wc parentGids) r = (.ok g, r')) : ∀ k ∈ wc.gid, k = g := by
  rw [exec_ingestNew_rooted h] at hok
  rcases exec_ingestNew wc (h.rooted parentGids) (needsRoot_rooted parentGids) with
    ⟨id, -, hwritten⟩ | ⟨-, e, herror⟩
  · have hall := ((hwritten.returns g).mp (by rw [hok])).2
    intro k hk
    rw [Option.mem_def.mp hk] at hall
    simpa using hall
  · rw [herror] at hok
    cases hok

/-- **The receiver knows what it has ingested** under its name. -/
theorem Sound.names_of_ingestNew {W : γ → Op (Payload D.Op) → Prop}
    {parentGids : List (Option γ)} (hwc : Resolves H W wc parentGids) {g : γ} {r' : Replica D γ}
    (hok : Effect.exec (ingestNew H wc parentGids) r = (.ok g, r')) :
    Names H wc parentGids (some g) where
  wire k hk := by rw [h.gid_of_ingestNew hok k hk]
  content op pg hbody hpg := by
    obtain ⟨pg', hpg', hgid, -⟩ := hwc op hbody
    rw [hpg] at hpg' hok
    cases hpg'
    rcases h.exec_ingestNew_op hbody hgid with ⟨r'', heq⟩ | ⟨e, heq⟩
    · rw [hok] at heq
      cases heq
      rfl
    · rw [hok] at heq
      cases heq

end Ingest

omit [LinearOrder γ] in
/-- A held commit is known under the id on the wire. -/
theorem names_of_held {W : γ → Op (Payload D.Op) → Prop} {wc : WireCommit D γ}
    {parentGids : List (Option γ)} (hwc : Resolves H W wc parentGids) {p : γ → Bool}
    (hheld : wc.gid.any p = true) : Names H wc parentGids wc.gid where
  wire g hg := hg
  content op pg hbody hpg := by
    obtain ⟨pg', hpg', hgid, -⟩ := hwc op hbody
    rw [hpg] at hpg'
    cases hpg'
    cases hg : wc.gid with
    | none => simp [hg] at hheld
    | some g => rw [hgid g hg]

omit [LinearOrder γ] in
theorem Resolves.accepts {W : γ → Op (Payload D.Op) → Prop} {wc : WireCommit D γ}
    {parentGids : List (Option γ)} (h : Resolves H W wc parentGids) :
    AcceptsOp H W wc parentGids := by
  intro op hbody pgs hpgs
  obtain ⟨pg, hpg, -, hW⟩ := h op hbody
  rw [hpg] at hpgs
  obtain ⟨pg', rfl, heq⟩ := List.map_eq_singleton_iff.mp hpgs.symm
  cases heq
  exact hW

namespace Stable

variable {P : D.State → Prop} {W : γ → Op (Payload D.Op) → Prop} {Q : Replica D γ → Prop}
  (hQ : Stable H P W Q) {commits : List (WireCommit D γ)} (hinline : ∀ wc ∈ commits, Inline P wc)

include hQ hinline

theorem ends_ingestFrom_resolved {prior : Option γ} (hres : Resolved H W prior commits)
    {r : Replica D γ} (h : Q r) : Effect.Ends Q (ingestFrom H prior commits) r := by
  induction commits generalizing prior r with
  | nil => exact .pure h _
  | cons wc rest ih =>
    rw [List.forall_mem_cons] at hinline
    refine .bind_get ?_
    split_ifs with hheld
    · exact ih hinline.2 (hres.2 _ (names_of_held hres.1 hheld)) h
    · refine .bind (hQ.ends_ingestNew h ⟨hres.1.accepts, hinline.1⟩) fun g r' hok h' => ?_
      refine .bind (ih hinline.2 (hres.2 _ ?_) h') fun n r' _ h' => .pure h' _
      exact (hQ.sound h).names_of_ingestNew hres.1 hok

/-- **Ingesting a resolved delta** keeps the property. -/
theorem ends_ingest_resolved (hres : Resolved H W none commits) {r : Replica D γ} (h : Q r) :
    Effect.Ends Q (ingest H commits) r :=
  hQ.ends_ingest_of_ingestFrom (hQ.ends_ingestFrom_resolved hinline hres h)

end Stable

end Replica

end SalRuntime
