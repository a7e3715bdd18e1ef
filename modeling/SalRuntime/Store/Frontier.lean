import Mathlib.Data.Prod.Lex
import Mathlib.Data.String.Basic
import SalRuntime.Store.Lca

/-!
# The frontier and the certified stable cut

The evidence computations of `src/frontier.js`. The frontier of a head lists, for every author,
the latest commit of that author in the ancestry of the head. The stable cut is the intersection
of the event sets of the frontier commits of all other registered replicas.

## Main definitions

* `Dag.frontierOf`, `Dag.eventOps` — the frontier and the event set of a commit.
* `Dag.stableCut` — the cut a head can certify.
* `insertIds` — the insert ids of a cut.

## Main results

* `Dag.frontierOf_spec`, `Dag.eventOps_spec` — what the two scans return.
* `Dag.stableCut_spec` — what a complete certificate says about the ancestry of the head.
-/

namespace SalRuntime

/-- The name `replica:seq` of an authored operation, as a pair. -/
abbrev EventKey := String ×ₗ ℕ

/-- The key of an operation. -/
def Op.key {π : Type} (op : Op π) : EventKey := toLex (op.replica, op.seq)

/-- An evidence commit of a frontier. -/
structure Evidence where
  /-- The commit. -/
  id : ℕ
  /-- The sequence number it carries. -/
  seq : ℕ
  deriving DecidableEq, Repr

/-- The evidence commit of every author heard from. -/
abbrev Frontier := SortedMap String Evidence

/-- A certified stable cut. -/
structure StableCut (π : Type) where
  /-- Has every other registered replica been heard from? -/
  complete : Bool
  /-- The operations of the cut, by their keys. -/
  meet : SortedMap EventKey (Op π)
  /-- The registered replicas not heard from. -/
  missing : List String
  /-- The frontier the cut was read from. -/
  frontier : Frontier

/-- The insert ids of the operations of a cut; `insIds` lists the insert ids of a payload. -/
def insertIds {π : Type} (insIds : π → List ℕ) (meet : SortedMap EventKey (Op π)) : List ℕ :=
  (meet.values.flatMap fun op => insIds op.payload).dedup

namespace Dag

variable {σ π : Type}

/-- The operation of a stored commit. -/
def opOf (d : Dag σ π) (id : ℕ) : Option (Op π) := (d.commits.get? id).bind Commit.op

/-- Record the operation of a commit in a frontier, if it is later than the one recorded. -/
def noteEvidence (d : Dag σ π) (fr : Frontier) (cid : ℕ) : Frontier :=
  match d.opOf cid with
  | none => fr
  | some op =>
    match fr.get? op.replica with
    | none => fr.insert op.replica ⟨cid, op.seq⟩
    | some cur => if cur.seq < op.seq then fr.insert op.replica ⟨cid, op.seq⟩ else fr

/-- The latest authored commit of every replica in the ancestry of a head. -/
def frontierOf (d : Dag σ π) (headId : ℕ) : Except Failure Frontier := do
  let closure ← d.ancestorSet headId
  return closure.foldl d.noteEvidence SortedMap.empty

/-- Record the operation of a commit in an event set. -/
def noteEvent (d : Dag σ π) (m : SortedMap EventKey (Op π)) (cid : ℕ) :
    SortedMap EventKey (Op π) :=
  match d.opOf cid with
  | none => m
  | some op => m.insert op.key op

/-- The operations in the ancestry of a commit, by their keys. -/
def eventOps (d : Dag σ π) (id : ℕ) : Except Failure (SortedMap EventKey (Op π)) := do
  let closure ← d.ancestorSet id
  return closure.foldl d.noteEvent SortedMap.empty

/-- The event sets of a list of evidence commits. -/
def eventSets (d : Dag σ π) : List Evidence → Except Failure (List (SortedMap EventKey (Op π)))
  | [] => return []
  | e :: es => do
    let s ← d.eventOps e.id
    return s :: (← eventSets d es)

/-- The cut that a head certifies to `self` over the registered names: the intersection of the
event sets of the evidence commits of the others, starting from a smallest one. -/
def stableCut (d : Dag σ π) (headId : ℕ) (registeredNames : List String) (self : String) :
    Except Failure (StableCut π) := do
  let frontier ← d.frontierOf headId
  let others := registeredNames.filter (· ≠ self)
  let missing := others.filter fun name => !frontier.has name
  let sets ← d.eventSets (others.filterMap frontier.get?)
  let complete := missing.isEmpty
  let meet ← if !complete then pure SortedMap.empty else
    match sets.insertionSort (fun a b => a.size ≤ b.size) with
    | [] => d.eventOps headId
    | s :: rest => pure (s.filter fun k _ => rest.all fun t => t.has k)
  return { complete, meet, missing, frontier }

theorem opOf_eq_some_iff {d : Dag σ π} {x : ℕ} {op : Op π} :
    d.opOf x = some op ↔ ∃ c, d.commits.get? x = some c ∧ c.op = some op := by
  rw [opOf, Option.bind_eq_some_iff]

/-- The evidence of a frontier over a list of scanned commits. -/
structure IsFrontier (d : Dag σ π) (scanned : ℕ → Prop) (fr : Frontier) : Prop where
  /-- Evidence is a scanned commit of the author. -/
  evidence : ∀ j e, fr.get? j = some e →
    scanned e.id ∧ ∃ op, d.opOf e.id = some op ∧ op.replica = j ∧ op.seq = e.seq
  /-- Every scanned operation is covered by evidence at least as late. -/
  latest : ∀ x op, scanned x → d.opOf x = some op →
    ∃ e, fr.get? op.replica = some e ∧ op.seq ≤ e.seq

theorem isFrontier_noteEvidence {d : Dag σ π} {scanned : ℕ → Prop} {fr : Frontier}
    (h : d.IsFrontier scanned fr) (cid : ℕ) :
    d.IsFrontier (fun x => scanned x ∨ x = cid) (d.noteEvidence fr cid) := by
  rw [noteEvidence]
  cases hop : d.opOf cid with
  | none =>
    refine ⟨fun j e he => (h.evidence j e he).imp_left Or.inl, fun x op hx hxop => ?_⟩
    rcases hx with hx | rfl
    · exact h.latest x op hx hxop
    · rw [hop] at hxop
      cases hxop
  | some op =>
    -- Either the operation is recorded, or later evidence of its author stays.
    have hkeep (cur : Evidence) (hcur : fr.get? op.replica = some cur) (hle : op.seq ≤ cur.seq) :
        d.IsFrontier (fun x => scanned x ∨ x = cid) fr := by
      refine ⟨fun j e he => (h.evidence j e he).imp_left Or.inl, fun x o hx hxo => ?_⟩
      rcases hx with hx | rfl
      · exact h.latest x o hx hxo
      · rw [hop] at hxo
        cases hxo
        exact ⟨cur, hcur, hle⟩
    have hset (hold : ∀ cur, fr.get? op.replica = some cur → cur.seq < op.seq) :
        d.IsFrontier (fun x => scanned x ∨ x = cid) (fr.insert op.replica ⟨cid, op.seq⟩) := by
      refine ⟨fun j e he => ?_, fun x o hx hxo => ?_⟩
      · rw [SortedMap.get?_insert] at he
        split_ifs at he with hj
        · cases he
          exact ⟨Or.inr rfl, op, hop, hj.symm, rfl⟩
        · exact (h.evidence j e he).imp_left Or.inl
      · rw [SortedMap.get?_insert]
        rcases hx with hx | rfl
        · obtain ⟨e, he, hle⟩ := h.latest x o hx hxo
          split_ifs with hj
          · exact ⟨_, rfl, hle.trans (hold e (hj ▸ he)).le⟩
          · exact ⟨e, he, hle⟩
        · rw [hop] at hxo
          cases hxo
          exact ⟨_, if_pos rfl, le_rfl⟩
    cases hcur : fr.get? op.replica with
    | none =>
      simp only [hcur]
      exact hset fun cur hc => by simp [hcur] at hc
    | some cur =>
      simp only [hcur]
      split_ifs with hlt
      · refine hset fun cur' hc => ?_
        rw [hcur] at hc
        cases hc
        exact hlt
      · exact hkeep cur hcur (not_lt.mp hlt)

theorem isFrontier_foldl {d : Dag σ π} (ids : List ℕ) {scanned : ℕ → Prop} {fr : Frontier}
    (h : d.IsFrontier scanned fr) :
    d.IsFrontier (fun x => scanned x ∨ x ∈ ids) (ids.foldl d.noteEvidence fr) := by
  induction ids generalizing scanned fr with
  | nil => simpa using h
  | cons x ids ih =>
    simpa [or_assoc] using ih (isFrontier_noteEvidence h x)

/-- **The frontier** holds a latest operation of every author in the ancestry of the head. -/
theorem frontierOf_spec {d : Dag σ π} {x : ℕ} (hx : d.has x = true) :
    ∃ fr, d.frontierOf x = .ok fr ∧ d.IsFrontier (d.Reaches x) fr := by
  refine ⟨_, by rw [frontierOf, ancestorSet_eq hx]; rfl, ?_⟩
  have hempty : d.IsFrontier (fun _ => False) SortedMap.empty :=
    ⟨fun j e he => by simp at he, fun x op h => h.elim⟩
  have := isFrontier_foldl (d.ancestors x) hempty
  simpa only [false_or, mem_ancestors_iff hx] using this

/-- The entries of an event set over a list of scanned commits. -/
structure IsEventSet (d : Dag σ π) (scanned : ℕ → Prop) (m : SortedMap EventKey (Op π)) :
    Prop where
  /-- Every entry is the operation of a scanned commit, filed under its key. -/
  event : ∀ k op, m.get? k = some op → op.key = k ∧ ∃ x, scanned x ∧ d.opOf x = some op
  /-- The operation of every scanned commit has an entry under its key. -/
  covered : ∀ x op, scanned x → d.opOf x = some op → m.has op.key = true

theorem isEventSet_noteEvent {d : Dag σ π} {scanned : ℕ → Prop} {m : SortedMap EventKey (Op π)}
    (h : d.IsEventSet scanned m) (cid : ℕ) :
    d.IsEventSet (fun x => scanned x ∨ x = cid) (d.noteEvent m cid) := by
  rw [noteEvent]
  cases hop : d.opOf cid with
  | none =>
    refine ⟨fun k op hk => ?_, fun x op hx hxop => ?_⟩
    · obtain ⟨hkey, x, hx, hxop⟩ := h.event k op hk
      exact ⟨hkey, x, Or.inl hx, hxop⟩
    · rcases hx with hx | rfl
      · exact h.covered x op hx hxop
      · rw [hop] at hxop
        cases hxop
  | some op =>
    refine ⟨fun k o hk => ?_, fun x o hx hxo => ?_⟩
    · rw [SortedMap.get?_insert] at hk
      split_ifs at hk with hkey
      · cases hk
        exact ⟨hkey.symm, cid, Or.inr rfl, hop⟩
      · obtain ⟨hkey, x, hx, hxo⟩ := h.event k o hk
        exact ⟨hkey, x, Or.inl hx, hxo⟩
    · rw [SortedMap.has_insert, Bool.or_eq_true, decide_eq_true_eq]
      rcases hx with hx | rfl
      · exact Or.inr (h.covered x o hx hxo)
      · rw [hop] at hxo
        cases hxo
        exact Or.inl rfl

theorem isEventSet_foldl {d : Dag σ π} (ids : List ℕ) {scanned : ℕ → Prop}
    {m : SortedMap EventKey (Op π)} (h : d.IsEventSet scanned m) :
    d.IsEventSet (fun x => scanned x ∨ x ∈ ids) (ids.foldl d.noteEvent m) := by
  induction ids generalizing scanned m with
  | nil => simpa using h
  | cons x ids ih =>
    simpa [or_assoc] using ih (isEventSet_noteEvent h x)

/-- **The event set** of a commit holds the operations of its ancestry. -/
theorem eventOps_spec {d : Dag σ π} {x : ℕ} (hx : d.has x = true) :
    ∃ m, d.eventOps x = .ok m ∧ d.IsEventSet (d.Reaches x) m := by
  refine ⟨_, by rw [eventOps, ancestorSet_eq hx]; rfl, ?_⟩
  have hempty : d.IsEventSet (fun _ => False) SortedMap.empty :=
    ⟨fun k op hk => by simp at hk, fun x op h => h.elim⟩
  have := isEventSet_foldl (d.ancestors x) hempty
  simpa only [false_or, mem_ancestors_iff hx] using this

theorem eventSets_spec {d : Dag σ π} (es : List Evidence) (hes : ∀ e ∈ es, d.has e.id = true) :
    ∃ sets, d.eventSets es = .ok sets ∧ (sets = [] → es = []) ∧
      (∀ s ∈ sets, ∃ e ∈ es, d.IsEventSet (d.Reaches e.id) s) ∧
      ∀ e ∈ es, ∃ s ∈ sets, d.IsEventSet (d.Reaches e.id) s := by
  induction es with
  | nil => exact ⟨[], rfl, by simp⟩
  | cons e es ih =>
    obtain ⟨sets, hsets, -, hof, hall⟩ := ih fun e he => hes e (List.mem_cons_of_mem _ he)
    obtain ⟨s, hs, hspec⟩ := eventOps_spec (hes e List.mem_cons_self)
    refine ⟨s :: sets, by simp only [eventSets, hs, hsets, bind, Except.bind, pure, Except.pure],
      by simp, fun t ht => ?_, fun e' he' => ?_⟩
    · rcases List.mem_cons.mp ht with rfl | ht
      · exact ⟨e, List.mem_cons_self, hspec⟩
      · obtain ⟨e', he', h⟩ := hof t ht
        exact ⟨e', List.mem_cons_of_mem _ he', h⟩
    · rcases List.mem_cons.mp he' with rfl | he'
      · exact ⟨s, List.mem_cons_self, hspec⟩
      · obtain ⟨t, ht, h⟩ := hall e' he'
        exact ⟨t, List.mem_cons_of_mem _ ht, h⟩

/-- What a complete certificate says: every other registered replica has evidence in the ancestry
of the head, and every operation of the meet lies in that ancestry and, under its key, below the
evidence of every other registered replica. -/
structure Certified (d : Dag σ π) (headId : ℕ) (names : List String) (self : String)
    (meet : SortedMap EventKey (Op π)) : Prop where
  /-- Every other registered replica has evidence: a latest operation in the ancestry. -/
  heard : ∀ name ∈ names, name ≠ self → ∃ x op, d.Reaches headId x ∧ d.opOf x = some op ∧
    op.replica = name ∧ (∀ y o, d.Reaches headId y → d.opOf y = some o → o.replica = name →
      o.seq ≤ op.seq) ∧
    ∀ k, meet.has k = true → ∃ y o, d.Reaches x y ∧ d.opOf y = some o ∧ o.key = k
  /-- The meet is part of the event set of the head. -/
  below : ∀ k op, meet.get? k = some op → op.key = k ∧ ∃ x, d.Reaches headId x ∧
    d.opOf x = some op

/-- **The stable cut.** The computation succeeds, and a complete cut is certified. -/
theorem stableCut_spec {d : Dag σ π} {x : ℕ} (hx : d.has x = true) (names : List String)
    (self : String) : ∃ cut, d.stableCut x names self = .ok cut ∧
      (cut.complete = true → d.Certified x names self cut.meet) := by
  obtain ⟨fr, hfr, hfrontier⟩ := frontierOf_spec hx
  set others := names.filter (· ≠ self) with hothers
  have hstored (e : Evidence) (he : e ∈ others.filterMap fr.get?) :
      d.Reaches x e.id ∧ d.has e.id = true := by
    obtain ⟨j, -, hj⟩ := List.mem_filterMap.mp he
    obtain ⟨hr, -⟩ := hfrontier.evidence j e hj
    exact ⟨hr, has_of_reaches hr hx⟩
  obtain ⟨sets, hsets, hnil, hof, hall⟩ :=
    eventSets_spec (d := d) (others.filterMap fr.get?) fun e he => (hstored e he).2
  obtain ⟨whole, hwhole, hevents⟩ := eventOps_spec hx
  have hperm := List.perm_insertionSort (fun a b : SortedMap EventKey (Op π) =>
    a.size ≤ b.size) sets
  -- The evidence of a heard replica, once the meet is known to lie in its event set.
  have hheard (meet : SortedMap EventKey (Op π))
      (hcomplete : (others.filter fun name => !fr.has name) = [])
      (hmeet : ∀ s ∈ sets, ∀ k, meet.has k = true → s.has k = true) :
      ∀ name ∈ names, name ≠ self → ∃ x' op, d.Reaches x x' ∧ d.opOf x' = some op ∧
        op.replica = name ∧ (∀ y o, d.Reaches x y → d.opOf y = some o → o.replica = name →
          o.seq ≤ op.seq) ∧
        ∀ k, meet.has k = true → ∃ y o, d.Reaches x' y ∧ d.opOf y = some o ∧ o.key = k := by
    intro name hname hne
    have hmem : name ∈ others := by simp [hothers, hname, hne]
    have hhas : fr.has name = true := by
      simpa using (List.filter_eq_nil_iff.mp hcomplete) name hmem
    obtain ⟨e, he⟩ := SortedMap.has_iff.mp hhas
    have hein : e ∈ others.filterMap fr.get? := List.mem_filterMap.mpr ⟨name, hmem, he⟩
    obtain ⟨hr, op, hop, hrep, hseq⟩ := hfrontier.evidence name e he
    obtain ⟨s, hs, hspec⟩ := hall e hein
    refine ⟨e.id, op, hr, hop, hrep, fun y o hy ho hoj => ?_, fun k hk => ?_⟩
    · obtain ⟨e', he', hle⟩ := hfrontier.latest y o hy ho
      rw [hoj, he] at he'
      cases he'
      exact hle.trans hseq.ge
    · obtain ⟨o, ho⟩ := SortedMap.has_iff.mp (hmeet s hs k hk)
      obtain ⟨hkey, y, hy, hyo⟩ := hspec.event k o ho
      exact ⟨y, o, hy, hyo, hkey⟩
  rw [stableCut, hfr]
  simp only [bind, Except.bind, ← hothers, hsets]
  cases hcomp : (others.filter fun name => !fr.has name) with
  | cons a as => exact ⟨_, rfl, by simp⟩
  | nil =>
    simp only [List.isEmpty_nil, Bool.not_true, Bool.false_eq_true, if_false, hwhole]
    cases hsort : sets.insertionSort fun a b => a.size ≤ b.size with
    | nil =>
      rw [hsort] at hperm
      refine ⟨_, rfl, fun _ => ⟨hheard whole hcomp fun s hs => ?_, hevents.event⟩⟩
      simp [hperm.nil_eq.symm] at hs
    | cons s rest =>
      rw [hsort] at hperm
      refine ⟨_, rfl, fun _ => ⟨hheard _ hcomp fun t ht k hk => ?_, fun k op hk => ?_⟩⟩
      · obtain ⟨o, ho⟩ := SortedMap.has_iff.mp hk
        rw [SortedMap.get?_filter, Option.filter_eq_some_iff] at ho
        rcases List.mem_cons.mp (hperm.symm.subset ht) with rfl | ht
        · exact SortedMap.has_iff.mpr ⟨o, ho.1⟩
        · exact List.all_eq_true.mp ho.2 t ht
      · rw [SortedMap.get?_filter, Option.filter_eq_some_iff] at hk
        obtain ⟨e, he, hspec⟩ := hof s (hperm.subset List.mem_cons_self)
        obtain ⟨hkey, y, hy, hyo⟩ := hspec.event k op hk.1
        exact ⟨hkey, y, (hstored e he).1.trans hy, hyo⟩

end Dag

end SalRuntime
