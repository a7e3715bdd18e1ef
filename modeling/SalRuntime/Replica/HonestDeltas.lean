import SalRuntime.Replica.HonestCalls
import SalRuntime.Replica.Ingestion

/-!
# Honest deltas

A replica ships commits of the known history. Whoever ingests them, in any order and any number of
times, recomputes states that stand for their operations, or refuses a commit whose parents it lacks and
stays as it was. A delta that carries its content ids may be delivered to anyone. The framing of a round
leaves ids out, so there the receiver must hold what its have-summary lists and nothing else.

## Main definitions

* `Denotes` — a wire commit denotes a content id.
* `Genuine` — a wire commit denotes the known content id that it carries.
* `Lists` — in the course of a delta, the wire commits denote the given content ids.
* `ContentHash.Extension` — content ids that a replica lacks, parents first.
* `Replica.Received` — a replica has received content ids.
* `Replica.Settled` — what a replica holds is in the ancestry of its head.

## Main results

* `Replica.Stands.ends_ingest` — ingesting genuine wire commits.
* `Replica.Stands.genuine_of_mem_delta` — what a replica ships is genuine.
* `Replica.Stands.exec_exchange` — the delta of a round between settled replicas.
-/

namespace SalRuntime

open Ancestry Replicated

variable {D : Datatype} {γ κ ι : Type} [LinearOrder γ] {H : ContentHash D.Op D.Print γ}
  {M : D.replicated.Meaning κ ι} {c : κ} {K : Set γ} {r : Replica D γ}

/-- An epoch that is known is below itself. -/
theorem EpochDag.subcut_self {E : EpochDag D γ} {key : EpochKey γ} (h : E.has key = true) :
    E.subcut key key = .ok true := by
  obtain ⟨n, hn⟩ := Option.isSome_iff_exists.mp h
  have hget : E.get key = .ok n := by rw [EpochDag.get, hn]
  rw [subcut, hget]
  simp [bind, Except.bind, pure, Except.pure]

/-! ### Wire commits -/

/-- The body of a wire commit and the content ids of its parents denote a content id. -/
inductive Denotes (H : ContentHash D.Op D.Print γ) : γ → WireBody D γ → List (Option γ) → Prop
  | op (pg : γ) (replica : String) (seq : ℕ) (payload : Payload D.Op) :
      Denotes H (H.digest (.authored [pg] replica seq payload)) (.op replica seq payload) [some pg]
  | merge (x y : γ) : Denotes H (mergeId H x y) .merge [some x, some y]

/-- The wire commit denotes the content id that it carries. -/
structure Carries (H : ContentHash D.Op D.Print γ) (wc : WireCommit D γ) (g : γ) : Prop where
  /-- The content id. -/
  gid : wc.gid = some g
  /-- The rest denotes it. -/
  denotes : Denotes H g wc.body wc.parents

/-- The wire commit denotes the known content id that it carries. -/
def Genuine (H : ContentHash D.Op D.Print γ) (K : Set γ) (wc : WireCommit D γ) : Prop :=
  ∃ g ∈ K, Carries H wc g

theorem Genuine.mono {K' : Set γ} (hsub : K ⊆ K') {wc : WireCommit D γ} (h : Genuine H K wc) :
    Genuine H K' wc :=
  let ⟨g, hg, hcarries⟩ := h
  ⟨g, hsub hg, hcarries⟩

/-- The parents on the wire are those of the content id. -/
theorem Denotes.par_iff {g : γ} {body : WireBody D γ} {parents : List (Option γ)}
    (h : Denotes H g body parents) {p : γ} : H.Par g p ↔ some p ∈ parents := by
  cases h with
  | op pg => simp [ContentHash.par_digest_iff, Preimage.parents]
  | merge x y => simp [ContentHash.par_mergeId_iff]

/-- No parent is left out. -/
theorem Denotes.exists_parent {g : γ} {body : WireBody D γ} {parents : List (Option γ)}
    (h : Denotes H g body parents) {p : Option γ} (hp : p ∈ parents) : ∃ k, p = some k := by
  cases h with
  | op pg => exact ⟨pg, List.mem_singleton.mp hp⟩
  | merge x y =>
    rcases List.mem_pair.mp hp with rfl | rfl
    · exact ⟨x, rfl⟩
    · exact ⟨y, rfl⟩

theorem Denotes.parents_or {g : γ} {body : WireBody D γ} {parents : List (Option γ)}
    (h : Denotes H g body parents) (prior : Option γ) :
    (parents.map fun p => p.or prior) = parents := by
  cases h with
  | op => rfl
  | merge => rfl

/-- In the course of a delta, the wire commits denote the given content ids. -/
inductive Lists (H : ContentHash D.Op D.Print γ) : Option γ → List (WireCommit D γ) → List γ → Prop
  | nil (prior : Option γ) : Lists H prior [] []
  | cons {prior : Option γ} {wc : WireCommit D γ} {rest : List (WireCommit D γ)} {g : γ} {gs : List γ}
      (hden : Denotes H g wc.body (wc.parents.map fun p => p.or prior)) (hgid : ∀ k ∈ wc.gid, k = g)
      (hrest : Lists H (some g) rest gs) : Lists H prior (wc :: rest) (g :: gs)

/-- **Framing** leaves out what the receiver knows. -/
theorem lists_overWireFrom {commits : List (WireCommit D γ)} {gs : List γ}
    (h : List.Forall₂ (Carries H) commits gs) {previous decoded : Option γ}
    (hdecoded : decoded = previous ∨ decoded = none) :
    Lists H previous (overWireFrom previous decoded commits) gs := by
  induction h generalizing previous decoded with
  | nil => exact .nil _
  | @cons wc g commits gs hwc hall ih =>
    have hparents : ((wc.parents.map fun p => if p = previous then decoded else p).map fun p =>
        p.or previous) = wc.parents := by
      rw [List.map_map]
      refine (List.map_congr_left fun p hp => ?_).trans (List.map_id wc.parents)
      obtain ⟨k, rfl⟩ := hwc.denotes.exists_parent hp
      dsimp only [Function.comp_apply, id_eq]
      split_ifs with heq
      · rcases hdecoded with rfl | rfl
        · rw [← heq, Option.some_or]
        · rw [← heq, Option.none_or]
      · rw [Option.some_or]
    refine .cons ?_ (fun k hk => ?_) (hwc.gid ▸ ih ?_)
    · rw [hparents]
      exact hwc.denotes
    · dsimp only at hk
      split_ifs at hk
      · cases hk
      · rw [hwc.gid] at hk
        exact (Option.some.inj hk).symm
    · split_ifs
      · exact Or.inr rfl
      · exact Or.inl rfl

/-- Content ids that a holder of `S` lacks, parents first. -/
def ContentHash.Extension (H : ContentHash D.Op D.Print γ) : Set γ → List γ → Prop
  | _, [] => True
  | S, g :: gs => (g ∉ S ∧ ∀ p, H.Par g p → p ∈ S) ∧ H.Extension (S ∪ {g}) gs

namespace Replica

/-! ### Ingesting one commit -/

/-- The replica has received the content ids `G`, and its head is as it was. -/
structure Received (G : Set γ) (r r' : Replica D γ) : Prop where
  /-- Only the store has grown. -/
  moved : Moved G r.headGid 0 r r'
  /-- If every content id was held once, so it is now. -/
  distinct : r.Distinct → r'.Distinct

theorem Received.refl (r : Replica D γ) : Received ∅ r r :=
  ⟨⟨(Set.union_empty _).symm, rfl, rfl, rfl⟩, id⟩

theorem Received.trans {G G' : Set γ} {r' r'' : Replica D γ} (h : Received G r r')
    (h' : Received G' r' r'') : Received (G ∪ G') r r'' := by
  refine ⟨⟨?_, ?_, ?_, ?_⟩, h'.distinct ∘ h.distinct⟩
  · rw [h'.moved.held, h.moved.held, Set.union_assoc]
  · rw [h'.moved.headGid, h.moved.headGid]
  · rw [h'.moved.name, h.moved.name]
  · rw [h'.moved.seq, h.moved.seq]

/-- The states still stand for the operations, and the replica has received some content ids. -/
def Receives (H : ContentHash D.Op D.Print γ) (M : D.replicated.Meaning κ ι) (c : κ) (K : Set γ)
    (r r' : Replica D γ) : Prop := r'.Stands H M c K ∧ ∃ G, Received G r r'

theorem Stands.receives (h : r.Stands H M c K) : Receives H M c K r r := ⟨h, ∅, .refl r⟩

theorem Received.receives {G : Set γ} {r' r'' : Replica D γ} (h : Received G r r')
    (h' : Receives H M c K r' r'') : Receives H M c K r r'' :=
  let ⟨hstands, _, hreceived⟩ := h'
  ⟨hstands, _, h.trans hreceived⟩

theorem exec_checkGid_ok {g : γ} {wireGid : Option γ} (hgid : ∀ k ∈ wireGid, k = g)
    (r : Replica D γ) : Effect.exec (checkGid g wireGid) r = (.ok ⟨⟩, r) := by
  obtain ⟨x, hx, hiff⟩ := exec_checkGid g wireGid r
  have hall : wireGid.all (· = g) = true := by
    cases wireGid with
    | none => rfl
    | some k => simpa using hgid k rfl
  rw [hx, hiff.mpr hall]

/-- Filing a commit leaves the head where it is. -/
theorem Indexed.received_filed (h : Indexed H r) (parents : List ℕ) (op : Option (Op (Payload D.Op)))
    (state : D.State) (key : EpochKey γ) {g : γ} (hnew : g ∉ r.held) :
    Received {g} r (r.filed parents op state key g) := by
  refine ⟨⟨h.held_filed parents op state key g, ?_, rfl, rfl⟩, fun hdist => hdist.filed hnew⟩
  show ((r.filed parents op state key g).gid.get? r.headId).getD r.rootGid = _
  rw [h.get?_gid_filed_of_has h.head, h.gid_head]
  rfl

namespace Stands

variable (h : r.Stands H M c K) (hK : KnownHistory H M c K) (hD : D.Regular M)

include h hK hD

/-- **An operation** of the known history is applied to the state of its parent. -/
theorem exec_ingestOp {p : ℕ} {pg : γ} (hpg : r.gid.get? p = some pg) {op : Op (Payload D.Op)}
    (hg : opId H pg op ∈ K) (hnew : opId H pg op ∉ r.held) {wireGid : Option γ}
    (hgid : ∀ k ∈ wireGid, k = opId H pg op) :
    ∃ r', Effect.exec (ingestOp H wireGid [p] op) r = (.ok (opId H pg op), r') ∧
      r'.Stands H M c K ∧ Received {opId H pg op} r r' := by
  obtain ⟨cm, hcm⟩ := Dag.has_iff.mp (h.indexed.stored p pg hpg)
  obtain ⟨state, -, hstate, hrep⟩ := hK.exists_applyOps hD hg (h.rep p cm pg hcm hpg)
  set r₁ : Replica D γ := { r with
    registered := addMember r.registered op.replica
    everAuthored := addMember r.everAuthored op.replica }
  have h₁ : r₁.Stands H M c K :=
    h.congr (h.indexed.congr rfl rfl rfl rfl rfl rfl rfl h.indexed.head) rfl rfl rfl rfl rfl
  have hp : ∀ q ∈ [p], r₁.dag.has q = true := by simpa using h.indexed.stored p pg hpg
  have hpg₁ : r₁.gid.get? p = some pg := hpg
  have hpre : r₁.Hashes ⟨r₁.dag.nextId, [p], some op, state⟩
      (.authored [pg] op.replica op.seq op.payload) := .authored rfl hpg₁ rfl
  have hfiled := h₁.filed hp hpre hg (by simp) (fun _ => hnew) hrep
  have hreceived := h₁.indexed.received_filed [p] (some op) state EPOCH0 (g := opId H pg op) hnew
  refine ⟨_, ?_, hfiled, ⟨hreceived.moved.held, hreceived.moved.headGid, rfl, rfl⟩,
    hreceived.distinct⟩
  have hopen : ¬ (r.gcClosed && decide (op.replica ∉ r.registered)) = true := by
    simp [h.indexed.opened]
  rw [ingestOp, Effect.exec_bind_ok (Effect.exec_get r), if_neg hopen]
  dsimp only
  rw [Effect.exec_bind_ok (exec_liftM_ok (Dag.get_eq_ok.mpr hcm)),
    Effect.exec_bind_ok (exec_liftM_ok hstate), Effect.exec_bind_ok (Effect.exec_set _ r), h.epoch p,
    Effect.exec_bind_ok (exec_file EPOCH0 hp hpre)]
  exact Effect.exec_bind_ok (exec_checkGid_ok hgid _) _

/-- **A merge** of the known history is computed again, over a virtual base. -/
theorem exec_ingestMerge {a b : ℕ} {x y : γ} (ha : r.gid.get? a = some x) (hb : r.gid.get? b = some y)
    (hg : mergeId H x y ∈ K) (hnew : mergeId H x y ∉ r.held) {wireGid : Option γ}
    (hgid : ∀ k ∈ wireGid, k = mergeId H x y) :
    ∃ r', Effect.exec (ingestMerge H wireGid [a, b]) r = (.ok (mergeId H x y), r') ∧
      r'.Stands H M c K ∧ Received {mergeId H x y} r r' := by
  have hhas := h.indexed.stored a x ha
  have hhas' := h.indexed.stored b y hb
  obtain ⟨state, hjoin, hrep⟩ := h.joinState_spec hK hD hhas hhas'
  rw [h.indexed.opsUnder_eq ha, h.indexed.opsUnder_eq hb, ← ContentHash.opsBelow_mergeId] at hrep
  have hp : ∀ q ∈ [a, b], r.dag.has q = true := by simpa using ⟨hhas, hhas'⟩
  have hpre : r.Hashes ⟨r.dag.nextId, [a, b], none, state⟩
      (.merge ([x, y].insertionSort (· ≤ ·))) := .merge rfl ha hb rfl
  refine ⟨_, ?_, h.filed hp hpre hg (by simp) (fun _ => hnew) hrep,
    h.indexed.received_filed [a, b] none state EPOCH0 hnew⟩
  rw [ingestMerge]
  dsimp only
  rw [Effect.exec_bind_ok hjoin, Effect.exec_bind_ok (exec_file EPOCH0 hp hpre)]
  exact Effect.exec_bind_ok (exec_checkGid_ok hgid _) _

omit hK hD in
/-- The root is held, so ingesting a commit starts with looking up its parents. -/
theorem exec_ingestNew_eq {wc : WireCommit D γ} {parentGids : List (Option γ)} {g : γ}
    (hden : Denotes H g wc.body parentGids) : Effect.exec (ingestNew H wc parentGids) r =
      Effect.exec (if (r.localParents parentGids).length ≠ parentGids.length then
          throw (.error "ingest: unknown parent (delta not ancestor-closed)")
        else match wc.body with
          | .op replica seq payload =>
            ingestOp H wc.gid (r.localParents parentGids) { replica, seq, payload }
          | _ => ingestMerge H wc.gid (r.localParents parentGids)) r := by
  have hroot : r.rooted parentGids = r := by
    rw [rooted, if_neg]
    simp [needsRoot, h.indexed.root]
  have hlocal : (parentGids.filterMap fun g => g.bind r.byGid.get?) = r.localParents parentGids := rfl
  rw [ingestNew, Effect.exec_bind_ok (exec_reconstructRoot h.indexed.sound parentGids), hroot,
    Effect.exec_bind_ok (Effect.exec_get r)]
  dsimp only
  rw [hlocal]
  generalize wc.body = body at hden ⊢
  cases hden with
  | op => simp [WireBody.isCompact]
  | merge => simp [WireBody.isCompact]

/-- **A known commit** whose parents are held is computed again. -/
theorem exec_ingestNew {wc : WireCommit D γ} {parentGids : List (Option γ)} {g : γ}
    (hden : Denotes H g wc.body parentGids) (hgid : ∀ k ∈ wc.gid, k = g) (hg : g ∈ K)
    (hnew : g ∉ r.held) (hparents : ∀ p, H.Par g p → p ∈ r.held) :
    ∃ r', Effect.exec (ingestNew H wc parentGids) r = (.ok g, r') ∧ r'.Stands H M c K ∧
      Received {g} r r' := by
  rw [h.exec_ingestNew_eq hden]
  have hpar {p : γ} := hden.par_iff (p := p)
  generalize wc.body = body at hden ⊢
  cases hden with
  | op pg replica seq payload =>
    obtain ⟨p, -, hp, hpg, -⟩ := h.exists_commit (hparents pg (hpar.mpr (by simp)))
    have hlocal : r.localParents [some pg] = [p] := by simp [localParents, hp]
    rw [hlocal, if_neg (by simp)]
    have hop : opId H pg ⟨replica, seq, payload⟩ ∈ K := hg
    exact h.exec_ingestOp hK hD hpg hop hnew hgid
  | merge x y =>
    obtain ⟨a, -, ha, hax, -⟩ := h.exists_commit (hparents x (hpar.mpr (by simp)))
    obtain ⟨b, -, hb, hby, -⟩ := h.exists_commit (hparents y (hpar.mpr (by simp)))
    have hlocal : r.localParents [some x, some y] = [a, b] := by simp [localParents, ha, hb]
    rw [hlocal, if_neg (by simp)]
    exact h.exec_ingestMerge hK hD hax hby hg hnew hgid

omit hK hD in
/-- **A commit with a parent that is not held** is refused. -/
theorem exec_ingestNew_missing {wc : WireCommit D γ} {parentGids : List (Option γ)} {g : γ}
    (hden : Denotes H g wc.body parentGids) {p : γ} (hp : H.Par g p) (hmissing : p ∉ r.held) :
    ∃ e, Effect.exec (ingestNew H wc parentGids) r = (.error e, r) := by
  have hnone : r.byGid.get? p = none := by
    rw [h.indexed.mem_held] at hmissing
    simpa [SortedMap.has] using hmissing
  have hlt : (r.localParents parentGids).length < parentGids.length := by
    rw [localParents]
    refine lt_of_le_of_ne (List.length_filterMap_le _ _) fun heq => ?_
    have hall := List.filterMap_length_eq_length.mp heq
    simpa [hnone] using hall _ (hden.par_iff.mp hp)
  rw [h.exec_ingestNew_eq hden, if_pos hlt.ne]
  exact ⟨_, rfl⟩

/-! ### Ingesting deltas -/

omit hK hD in
/-- Recomputing the frontier. -/
theorem exec_refresh : ∃ r', Effect.exec (refresh : Call D γ Unit) r = (.ok ⟨⟩, r') ∧
    r'.Stands H M c K ∧ Received ∅ r r' := by
  obtain ⟨frontier, hfr, -⟩ := Dag.frontierOf_spec h.indexed.head
  refine ⟨r.headedAt r.headId frontier, ?_, h.headedAt h.indexed.head frontier,
    ⟨(Set.union_empty _).symm, rfl, rfl, rfl⟩, id⟩
  simp [refresh, Effect.exec_bind, hfr, Replica.headedAt]

/-- **Genuine commits** are taken or refused. -/
theorem ends_ingestFrom {commits : List (WireCommit D γ)}
    (hgen : ∀ wc ∈ commits, Genuine H K wc) (prior : Option γ) :
    Effect.Ends (Receives H M c K r) (ingestFrom H prior commits) r := by
  induction commits generalizing r prior with
  | nil => exact .pure h.receives _
  | cons wc rest ih =>
    rw [List.forall_mem_cons] at hgen
    obtain ⟨g, hg, hwc⟩ := hgen.1
    refine .bind_get ?_
    split_ifs with hheld
    · exact ih h hgen.2 _
    · have hnew : g ∉ r.held := by
        rw [h.indexed.mem_held]
        simpa [hwc.gid] using hheld
      have hgid : ∀ k ∈ wc.gid, k = g := fun k hk => Option.some.inj (hk.symm.trans hwc.gid)
      rw [hwc.denotes.parents_or]
      by_cases hparents : ∀ p, H.Par g p → p ∈ r.held
      · obtain ⟨r₁, hexec, h₁, hr₁⟩ := h.exec_ingestNew hK hD hwc.denotes hgid hg hnew hparents
        have hrest := hr₁.receives (ih h₁ hgen.2 (some g))
        exact .bind_ok hexec (.bind hrest fun _ _ _ hr => .pure hr _)
      · simp only [not_forall] at hparents
        obtain ⟨p, hp, hmissing⟩ := hparents
        obtain ⟨e, hexec⟩ := h.exec_ingestNew_missing hwc.denotes hp hmissing
        rw [Effect.Ends, Effect.exec_bind_error hexec]
        exact h.receives

/-- **Ingesting genuine commits**, in any order and any number of times. -/
theorem ends_ingest {commits : List (WireCommit D γ)} (hgen : ∀ wc ∈ commits, Genuine H K wc) :
    Effect.Ends (Receives H M c K r) (ingest H commits) r := by
  refine .bind (h.ends_ingestFrom hK hD hgen none) fun n r₁ _ hr => ?_
  obtain ⟨h₁, G, hr₁⟩ := hr
  split_ifs
  · obtain ⟨r₂, hexec, h₂, hr₂⟩ := h₁.exec_refresh
    exact .bind_ok hexec (.pure ⟨h₂, _, hr₁.trans hr₂⟩ _)
  · exact .pure ⟨h₁, G, hr₁⟩ _

/-- **A framed delta** of what the receiver lacks, parents first, is taken. -/
theorem exec_ingestFrom {prior : Option γ} {commits : List (WireCommit D γ)} {gs : List γ}
    (hlist : Lists H prior commits gs) (hgs : ∀ g ∈ gs, g ∈ K) (hext : H.Extension r.held gs) :
    ∃ r', Effect.exec (ingestFrom H prior commits) r = (.ok gs.length, r') ∧ r'.Stands H M c K ∧
      Received {g | g ∈ gs} r r' := by
  induction hlist generalizing r with
  | nil prior => exact ⟨r, rfl, h, by simpa using Received.refl r⟩
  | @cons prior wc rest g gs hden hgid hrest ih =>
    rw [List.forall_mem_cons] at hgs
    obtain ⟨⟨hnew, hparents⟩, hext⟩ := hext
    obtain ⟨r₁, hexec, h₁, hr₁⟩ := h.exec_ingestNew hK hD hden hgid hgs.1 hnew hparents
    rw [← hr₁.moved.held] at hext
    obtain ⟨r₂, hexec', h₂, hr₂⟩ := ih h₁ hgs.2 hext
    have hfresh : ¬ wc.gid.any r.byGid.has = true := by
      rw [Option.any_eq_true_iff_get]
      rintro ⟨hsome, hhas⟩
      exact hnew (h.indexed.mem_held.mpr (hgid _ (Option.get_mem hsome) ▸ hhas))
    refine ⟨r₂, ?_, h₂, ?_⟩
    · rw [ingestFrom, Effect.exec_bind_ok (Effect.exec_get r), if_neg hfresh,
        Effect.exec_bind_ok hexec, Effect.exec_bind_ok hexec']
      rfl
    · have hset : ({k | k ∈ g :: gs} : Set γ) = {g} ∪ {k | k ∈ gs} := by
        ext k
        simp
      exact hset ▸ hr₁.trans hr₂

theorem exec_ingest {commits : List (WireCommit D γ)} {gs : List γ} (hlist : Lists H none commits gs)
    (hgs : ∀ g ∈ gs, g ∈ K) (hext : H.Extension r.held gs) :
    ∃ r', Effect.exec (ingest H commits) r = (.ok gs.length, r') ∧ r'.Stands H M c K ∧
      Received {g | g ∈ gs} r r' := by
  obtain ⟨r₁, hexec, h₁, hr₁⟩ := h.exec_ingestFrom hK hD hlist hgs hext
  rw [ingest, Effect.exec_bind_ok hexec]
  split_ifs
  · obtain ⟨r₂, hrefresh, h₂, hr₂⟩ := h₁.exec_refresh
    refine ⟨r₂, ?_, h₂, ?_⟩
    · rw [Effect.exec_bind_ok hrefresh]
      rfl
    · simpa using hr₁.trans hr₂
  · exact ⟨r₁, rfl, h₁, hr₁⟩

end Stands

/-! ### Deltas -/

/-- The content id of a commit. -/
def gidAt (r : Replica D γ) (x : ℕ) : γ := (r.gid.get? x).getD r.rootGid

/-- The wire commit of an operation or a merge. -/
def wire (r : Replica D γ) (x : ℕ) : WireCommit D γ where
  gid := r.gid.get? x
  parents := (r.dag.parentsOf x).map r.gid.get?
  body := match r.dag.opOf x with
    | some op => .op op.replica op.seq op.payload
    | none => .merge

theorem gidAt_of_get? {x : ℕ} {g : γ} (hx : r.gid.get? x = some g) : r.gidAt x = g := by
  rw [gidAt, hx]
  rfl

/-- What a replica ships: the operations and merges in the ancestry of its head that the peer lacks. -/
theorem Indexed.missing_iff (h : Indexed H r) (theirGids : List γ) {x : ℕ} (hx : r.dag.has x = true) :
    r.missing theirGids x = true ↔ r.gidAt x ∉ theirGids ∧ r.dag.parentsOf x ≠ [] := by
  obtain ⟨g, hg⟩ := h.exists_gid hx
  simp [missing, hg, gidAt, h.epochBase, h.gcBoundary, SortedMap.has]

/-- The parents of a content id come before it. -/
theorem Indexed.extension (h : Indexed H r) (hdist : r.Distinct) {S : Set γ} {ids : List ℕ}
    (hsorted : ids.Pairwise (· < ·)) (hstored : ∀ x ∈ ids, r.dag.has x = true)
    (hnew : ∀ x ∈ ids, r.gidAt x ∉ S)
    (hparents : ∀ x ∈ ids, ∀ q, r.dag.Par x q → q ∈ ids ∨ r.gidAt q ∈ S) :
    H.Extension S (ids.map r.gidAt) := by
  induction ids generalizing S with
  | nil => trivial
  | cons x ids ih =>
    rw [List.pairwise_cons] at hsorted
    rw [List.forall_mem_cons] at hstored hnew hparents
    obtain ⟨g, hg⟩ := h.exists_gid hstored.1
    refine ⟨⟨hnew.1, fun p hp => ?_⟩, ih hsorted.2 hstored.2 (fun y hy hmem => ?_) fun y hy q hq => ?_⟩
    · -- The parents of the first commit are older than all that is still to come.
      rw [gidAt_of_get? hg] at hp
      obtain ⟨q, hq, hqp⟩ := h.exists_par hg hp
      have hlt := h.wf.par_lt x q hq
      rcases hparents.1 q hq with hmem | hmem
      · rcases List.mem_cons.mp hmem with rfl | hmem
        · exact absurd hlt (lt_irrefl _)
        · exact absurd hlt (lt_asymm (hsorted.1 q hmem))
      · exact gidAt_of_get? hqp ▸ hmem
    · obtain ⟨k, hk⟩ := h.exists_gid (hstored.2 y hy)
      rcases hmem with hmem | heq
      · exact hnew.2 y hy hmem
      · rw [Set.mem_singleton_iff, gidAt_of_get? hg, gidAt_of_get? hk] at heq
        exact (hsorted.1 y hy).ne (hdist x y g hg (heq ▸ hk))
    · rcases hparents.2 y hy q hq with hmem | hmem
      · rcases List.mem_cons.mp hmem with rfl | hmem
        · exact Or.inr (Or.inr rfl)
        · exact Or.inl hmem
      · exact Or.inr (Or.inl hmem)

namespace Stands

variable (h : r.Stands H M c K) (hK : KnownHistory H M c K)

include h

theorem gidAt_mem_held {x : ℕ} (hx : r.dag.has x = true) : r.gidAt x ∈ r.held := by
  obtain ⟨g, hg⟩ := h.indexed.exists_gid hx
  exact ⟨x, gidAt_of_get? hg ▸ hg⟩

include hK

/-- **A stored commit** that is not the root is an operation or a merge of the known history. -/
theorem carries_wire {x : ℕ} (hx : r.dag.has x = true) (hne : r.dag.parentsOf x ≠ []) :
    r.wireOf H x = .ok (r.wire x) ∧ Carries H (r.wire x) (r.gidAt x) := by
  obtain ⟨cm, hcm⟩ := Dag.has_iff.mp hx
  obtain ⟨pre, hpre, hg⟩ := h.indexed.content x cm hcm
  have hparents : r.dag.parentsOf x = cm.parents := by simp [Dag.parentsOf, hcm]
  have hop : r.dag.opOf x = cm.op := by simp [Dag.opOf, hcm]
  rw [hparents] at hne
  rw [gidAt_of_get? hg]
  have hget : r.dag.get x = .ok cm := Dag.get_eq_ok.mpr hcm
  cases hpre with
  | root hp => exact absurd hp hne
  | @authored p pg op hp hpg hcop =>
    refine ⟨?_, hg, ?_⟩
    · rw [wireOf, hget]
      simp [bind, Except.bind, h.indexed.gcBoundary, hcop, wire, hop, hparents]
      rfl
    · simp only [wire, hop, hcop, hparents, hp, List.map_singleton, hpg]
      exact .op pg op.replica op.seq op.payload
  | compact hp hpg hcop hfp =>
    rcases hK.plain _ (h.known x _ hg) with heq | ⟨_, _, _, _, heq⟩ | ⟨_, _, heq⟩
    · cases H.injective heq
    · cases H.injective heq
    · cases H.injective heq
  | @merge p q y z hp hy hz hcop =>
    refine ⟨?_, hg, ?_⟩
    · rw [wireOf, hget]
      simp [bind, Except.bind, h.indexed.gcBoundary, h.indexed.epochBase, hcop, hp, wire, hop, hparents]
      rfl
    · simp only [wire, hop, hcop, hparents, hp, List.map_cons, List.map_nil, hy, hz]
      exact .merge y z

omit hK in
/-- A commit without parents is the root. -/
theorem parentsOf_ne_nil_iff {x : ℕ} (hx : r.dag.has x = true) :
    r.dag.parentsOf x ≠ [] ↔ r.gidAt x ≠ H.digest .root := by
  obtain ⟨cm, hcm⟩ := Dag.has_iff.mp hx
  obtain ⟨pre, hpre, hg⟩ := h.indexed.content x cm hcm
  have hparents : r.dag.parentsOf x = cm.parents := by simp [Dag.parentsOf, hcm]
  rw [hparents, gidAt_of_get? hg, Ne, Ne, H.injective.eq_iff]
  cases hpre with
  | root hp => simp [hp]
  | authored hp => simp [hp]
  | compact hp => simp [hp]
  | merge hp => simp [hp]

/-- **A delta** ships the commits of the head's ancestry that the peer lacks, the root excepted,
parents first. -/
theorem exec_delta (theirGids : List γ) : ∃ ids : List ℕ, r.delta H theirGids = .ok (ids.map r.wire) ∧
    ids.Pairwise (· < ·) ∧ List.Forall₂ (Carries H) (ids.map r.wire) (ids.map r.gidAt) ∧
    ∀ x, x ∈ ids ↔ r.dag.Reaches r.headId x ∧ r.gidAt x ∉ theirGids ∧ r.gidAt x ≠ H.digest .root := by
  set ids := ((r.dag.ancestors r.headId).filter (r.missing theirGids)).insertionSort (· ≤ ·)
  have hperm : ids.Perm ((r.dag.ancestors r.headId).filter (r.missing theirGids)) :=
    List.perm_insertionSort _ _
  have hsorted : ids.Pairwise (· < ·) := by
    have hnodup : ids.Nodup := hperm.nodup_iff.mpr ((Dag.nodup_ancestors h.indexed.head).filter _)
    have hle : ids.Pairwise (· ≤ ·) := List.pairwise_insertionSort (· ≤ ·) _
    exact (hle.and hnodup).imp fun ⟨hxy, hne⟩ => lt_of_le_of_ne hxy hne
  have hmem (x : ℕ) : x ∈ ids ↔ r.dag.Reaches r.headId x ∧ r.gidAt x ∉ theirGids ∧
      r.dag.parentsOf x ≠ [] := by
    rw [hperm.mem_iff, List.mem_filter, Dag.mem_ancestors_iff h.indexed.head]
    exact and_congr_right fun hr =>
      h.indexed.missing_iff theirGids (Dag.has_of_reaches hr h.indexed.head)
  have hwire : ∀ x ∈ ids, r.wireOf H x = .ok (r.wire x) ∧ Carries H (r.wire x) (r.gidAt x) := by
    intro x hx
    obtain ⟨hr, -, hne⟩ := (hmem x).mp hx
    exact h.carries_wire hK (Dag.has_of_reaches hr h.indexed.head) hne
  refine ⟨ids, ?_, hsorted, ?_, fun x => ?_⟩
  · rw [delta, Dag.ancestorSet_eq h.indexed.head]
    exact mapM_eq_ok fun x hx => (hwire x hx).1
  · rw [List.forall₂_map_left_iff, List.forall₂_map_right_iff, List.forall₂_same]
    exact fun x hx => (hwire x hx).2
  · rw [hmem]
    exact and_congr_right fun hr => and_congr_right fun _ =>
      h.parentsOf_ne_nil_iff (Dag.has_of_reaches hr h.indexed.head)

/-- **What a replica ships** is genuine. -/
theorem genuine_of_mem_delta {theirGids : List γ} {commits : List (WireCommit D γ)}
    (hdelta : r.delta H theirGids = .ok commits) {wc : WireCommit D γ} (hwc : wc ∈ commits) :
    Genuine H K wc := by
  obtain ⟨ids, hids, -, -, hmem⟩ := h.exec_delta hK theirGids
  rw [hdelta, Except.ok.injEq] at hids
  rw [hids] at hwc
  obtain ⟨x, hx, rfl⟩ := List.mem_map.mp hwc
  obtain ⟨hr, -, hne⟩ := (hmem x).mp hx
  have hhas := Dag.has_of_reaches hr h.indexed.head
  exact ⟨r.gidAt x, h.mem_known (h.gidAt_mem_held hhas),
    (h.carries_wire hK hhas ((h.parentsOf_ne_nil_iff hhas).mpr hne)).2⟩

end Stands

/-! ### Rounds -/

/-- What a replica holds is in the ancestry of its head, and is held once. -/
structure Settled (H : ContentHash D.Op D.Print γ) (r : Replica D γ) : Prop where
  /-- Every content id is held by one commit. -/
  distinct : r.Distinct
  /-- The head has it in its ancestry. -/
  reached : ∀ g ∈ r.held, H.Reaches r.headGid g

namespace Stands

/-- The have-summary of a settled replica lists what it holds. -/
theorem exec_ancestryGids (h : r.Stands H M c K) (hsettled : r.Settled H) :
    ∃ gids, r.ancestryGids = .ok gids ∧ ∀ g, g ∈ gids ↔ g ∈ r.held := by
  refine ⟨_, by rw [ancestryGids, Dag.ancestorSet_eq h.indexed.head]; rfl, fun g => ?_⟩
  simp only [List.mem_filterMap, Dag.mem_ancestors_iff h.indexed.head]
  constructor
  · rintro ⟨x, -, hx⟩
    exact ⟨x, hx⟩
  · intro hg
    obtain ⟨x, hr, hx⟩ := h.indexed.exists_reaches h.indexed.gid_head (hsettled.reached g hg)
    exact ⟨x, hr, hx⟩

/-- **The delta of a round** between settled replicas: the receiver holds what both held. -/
theorem exec_exchange (h : r.Stands H M c K) (hK : KnownHistory H M c K) (hD : D.Regular M)
    {a : Replica D γ} (ha : a.Stands H M c K) (hsettled : a.Settled H) {gids : List γ}
    (hgids : ∀ g, g ∈ gids ↔ g ∈ r.held) : ∃ commits n r', a.delta H gids = .ok commits ∧
      Effect.exec (ingest H (overWire commits)) r = (.ok n, r') ∧ r'.Stands H M c K ∧
      Received a.held r r' := by
  obtain ⟨ids, hdelta, hsorted, hall, hmem⟩ := ha.exec_delta hK gids
  have hstored : ∀ x ∈ ids, a.dag.has x = true := fun x hx =>
    Dag.has_of_reaches ((hmem x).mp hx).1 ha.indexed.head
  have hnew : ∀ x ∈ ids, a.gidAt x ∉ r.held := fun x hx => by
    rw [← hgids]
    exact ((hmem x).mp hx).2.1
  -- What is not shipped is held by the receiver already.
  have hrest {g : γ} (hg : g ∈ a.held) : g ∈ r.held ∨ ∃ x ∈ ids, a.gidAt x = g := by
    by_cases hheld : g ∈ r.held
    · exact Or.inl hheld
    · obtain ⟨x, hr, hx⟩ := ha.indexed.exists_reaches ha.indexed.gid_head (hsettled.reached g hg)
      have hgid := gidAt_of_get? hx
      refine Or.inr ⟨x, (hmem x).mpr ⟨hr, ?_, ?_⟩, hgid⟩
      · rw [hgid, hgids]
        exact hheld
      · rw [hgid]
        rintro rfl
        exact hheld h.root_mem_held
  have hext : H.Extension r.held (ids.map a.gidAt) := by
    refine ha.indexed.extension hsettled.distinct hsorted hstored hnew fun x hx q hq => ?_
    have hr := ((hmem x).mp hx).1.tail hq
    have hhas := Dag.has_of_reaches hr ha.indexed.head
    rcases hrest (ha.gidAt_mem_held hhas) with hheld | ⟨y, hy, hyq⟩
    · exact Or.inr hheld
    · obtain ⟨k, hk⟩ := ha.indexed.exists_gid hhas
      obtain ⟨k', hk'⟩ := ha.indexed.exists_gid (hstored y hy)
      rw [gidAt_of_get? hk, gidAt_of_get? hk'] at hyq
      exact Or.inl (hsettled.distinct y q k (hyq ▸ hk') hk ▸ hy)
  have hgs : ∀ g ∈ ids.map a.gidAt, g ∈ K := by
    intro g hg
    obtain ⟨x, hx, rfl⟩ := List.mem_map.mp hg
    exact ha.mem_known (ha.gidAt_mem_held (hstored x hx))
  obtain ⟨r', hexec, hr', hreceived⟩ := h.exec_ingest hK hD (lists_overWireFrom hall (Or.inl rfl)) hgs
    hext
  refine ⟨_, _, r', hdelta, hexec, hr', ⟨⟨?_, hreceived.moved.headGid, hreceived.moved.name,
    hreceived.moved.seq⟩, hreceived.distinct⟩⟩
  rw [hreceived.moved.held]
  ext g
  simp only [Set.mem_union, Set.mem_ofPred_eq, List.mem_map]
  constructor
  · rintro (hg | ⟨x, hx, rfl⟩)
    · exact Or.inl hg
    · exact Or.inr (ha.gidAt_mem_held (hstored x hx))
  · rintro (hg | hg)
    · exact Or.inl hg
    · exact hrest hg

/-- **Pulling from a settled replica**: the head joins both heads, and the replica is settled. -/
theorem exec_pull (h : r.Stands H M c K) (hK : KnownHistory H M c K) (hD : D.Regular M)
    (hr : r.Settled H) {a : Replica D γ} (ha : a.Stands H M c K) (hsettled : a.Settled H)
    {gids : List γ} (hgids : ∀ g, g ∈ gids ↔ g ∈ r.held) : ∃ commits n r₁ r₂,
      a.delta H gids = .ok commits ∧ Effect.exec (ingest H (overWire commits)) r = (.ok n, r₁) ∧
      Effect.exec (mergeWithGid H a.headGid) r₁ = (.ok r₂.headGid, r₂) ∧
      r₂.Stands H M c (insert (mergeId H r.headGid a.headGid) K) ∧
      r₂.headGid = H.joinId r.headGid a.headGid ∧ r₂.Settled H ∧ r₂.name = r.name ∧
      r₂.seq = r.seq := by
  obtain ⟨commits, n, r₁, hdelta, hexec, h₁, hreceived⟩ := h.exec_exchange hK hD ha hsettled hgids
  have hx := h.mem_known h.indexed.headGid_mem
  have hy := ha.mem_known ha.indexed.headGid_mem
  have hheld : a.headGid ∈ r₁.held := by
    rw [hreceived.moved.held]
    exact Or.inr ha.indexed.headGid_mem
  have hhead := hreceived.moved.headGid
  obtain ⟨r₂, hmerge, h₂, hmerged⟩ := (h₁.mono hK (Set.subset_insert _ _)
    fun _ hrep => hrep).exec_mergeWithGid (hK.insert_merge hx hy) hD hheld
      (hhead.symm ▸ Set.mem_insert _ _)
  have hdist := hreceived.distinct hr.distinct
  have hreach := hmerged.join.reaches
  rw [hhead] at hreach
  refine ⟨commits, n, r₁, r₂, hdelta, hexec, hmerge, h₂, ?_, ⟨hmerged.distinct hdist ?_, ?_⟩,
    hmerged.moved.name.trans hreceived.moved.name, hmerged.moved.seq.trans hreceived.moved.seq⟩
  · rw [hmerged.head hdist, hhead]
  · -- A merge that was held would have been in the ancestry of one of the heads.
    rw [hhead, hreceived.moved.held]
    rintro hnot hnot' (hmem | hmem)
    · exact hnot ((hr.reached _ hmem).tail (H.par_mergeId_iff.mpr (Or.inr rfl)))
    · exact hnot' ((hsettled.reached _ hmem).tail (H.par_mergeId_iff.mpr (Or.inl rfl)))
  · intro g hg
    rw [hmerged.moved.held, hreceived.moved.held] at hg
    rcases hg with (hg | hg) | rfl
    · exact hreach.1.trans (hr.reached g hg)
    · exact hreach.2.trans (hsettled.reached g hg)
    · exact .refl

/-- **An acknowledgement** of a head of the first epoch. -/
theorem exec_acknowledgeFetch (h : r.Stands H M c K) (peer : String) (g : γ) : ∃ b acks,
    Effect.exec (acknowledgeFetch peer g EPOCH0) r = (.ok b, { r with fetchAcks := acks }) ∧
      ({ r with fetchAcks := acks } : Replica D γ).Stands H M c K := by
  have hkeep : ({ r with fetchAcks := r.fetchAcks } : Replica D γ).Stands H M c K := h
  have hindexed (acks : SortedMap String (EpochKey γ)) :
      Indexed H ({ r with fetchAcks := acks } : Replica D γ) :=
    h.indexed.congr rfl rfl rfl rfl rfl rfl rfl h.indexed.head
  have hanswer : ∃ b acks, Effect.exec (do
        set ({ r with fetchAcks := r.fetchAcks.insert peer EPOCH0 } : Replica D γ)
        return true : Call D γ Bool) r = (.ok b, { r with fetchAcks := acks }) ∧
      ({ r with fetchAcks := acks } : Replica D γ).Stands H M c K := by
    refine ⟨_, _, rfl, hindexed _, h.known, h.rep, h.single, h.root, h.epoch, h.first, ?_⟩
    intro name key hkey
    rw [SortedMap.get?_insert] at hkey
    split_ifs at hkey
    · exact (Option.some.inj hkey).symm
    · exact h.acks name key hkey
  rw [acknowledgeFetch, Effect.exec_bind_ok (Effect.exec_get r)]
  split_ifs
  · split
    · exact ⟨_, _, rfl, hkeep⟩
    · split_ifs
      · exact ⟨_, _, rfl, hkeep⟩
      · dsimp only
        split
        · exact hanswer
        · rename_i old hold
          obtain rfl := h.acks peer old hold
          rw [EpochDag.subcut_self h.first]
          exact hanswer
  · exact ⟨_, _, rfl, hkeep⟩

end Stands

end Replica

end SalRuntime
