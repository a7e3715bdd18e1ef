import SalRuntime.Datatypes.CoordinateTree

/-!
# The records in the coordinate tree

What the nodes of the coordinate tree carry: the records of the state, and what the coordinates in
flight leave. Every record of the state has a node, so a compaction rewrites its coordinate along the
tree.

## Main definitions

* `CoordTree.recordAt` — the record at a node.
* `CoordTree.Quiet` — the tree knows of no coordinate in flight.
* `CoordTree.Walked` — the walk along a coordinate in flight passes through a node.
* `Rewritten` — a record with its coordinate rewritten along the tree.

## Main results

* `CoordTree.stable_iff` — a node is stable when it is known to be settled.
* `CoordTree.recordAt_build` — the records in the tree are those of the state.
* `CoordTree.node?_build` — where the nodes of a tree come from.
* `compactEliasDelta_rewrites` — a compaction rewrites the coordinates along the tree.
* `exists_compactEliasDelta` — a state whose coordinates decode can be compacted.
-/

namespace SalRuntime

variable {α : Type}

namespace CoordTree

variable {t t' : CoordTree} {settled : List ℕ} {opts : CompactOpts}

/-! ### What the nodes carry -/

theorem node?_eq_some_iff (h : IsTree t) {p : List ℕ} {n : CoordNode} :
    t.node? p = some n ↔ (p, n) ∈ t := by
  rw [node?, Option.map_eq_some_iff]
  constructor
  · rintro ⟨e, he, rfl⟩
    have hkey : e.1 = p := by simpa using List.find?_some he
    exact hkey ▸ List.mem_of_find?_eq_some he
  · intro hmem
    obtain ⟨e, he⟩ := Option.isSome_iff_exists.mp
      (List.find?_isSome.mpr ⟨(p, n), hmem, by simp⟩ : (t.find? fun e => e.1 = p).isSome = true)
    have hkey : e.1 = p := by simpa using List.find?_some he
    refine ⟨e, he, ?_⟩
    rw [List.inj_on_of_nodup_map h.nodup (List.mem_of_find?_eq_some he) hmem hkey]

/-- A node is known to be settled by its own record or by a walk along a coordinate in flight. -/
def CoordNode.settledBy (settled : List ℕ) (n : CoordNode) : Prop :=
  n.seedSettled = true ∨ ∃ id ∈ n.recordId, id ∈ settled

/-- **Evidence** comes from the node and its descendants. -/
theorem evidence_iff (h : IsTree t) {p : List ℕ} : t.evidence settled p = true ↔
    ∃ q n, p <+: q ∧ t.node? q = some n ∧ CoordNode.settledBy settled n := by
  simp only [evidence, List.any_eq_true, Bool.and_eq_true, List.isPrefixOf_iff_prefix,
    Bool.or_eq_true, Option.any_eq_true, decide_eq_true_iff, CoordNode.settledBy]
  constructor
  · rintro ⟨e, he, hp, hset⟩
    exact ⟨e.1, e.2, hp, (node?_eq_some_iff h).mpr he, hset⟩
  · rintro ⟨q, n, hp, hn, hset⟩
    exact ⟨(q, n), (node?_eq_some_iff h).mp hn, hp, hset⟩

theorem evidence_above (h : IsTree t) {p q : List ℕ} (hpq : p <+: q)
    (hq : t.evidence settled q = true) : t.evidence settled p = true := by
  obtain ⟨r, n, hr, hn⟩ := (evidence_iff h).mp hq
  exact (evidence_iff h).mpr ⟨r, n, hpq.trans hr, hn⟩

/-- A node is stable when there is evidence for it: then there is evidence for its ancestors. -/
theorem stable_iff (h : IsTree t) {p : List ℕ} :
    t.stable settled p = true ↔ p = [] ∨ t.evidence settled p = true := by
  have hfrom (p ds : List ℕ) : t.stableFrom settled p ds = true ↔
      ds = [] ∨ t.evidence settled (p ++ ds) = true := by
    induction ds generalizing p with
    | nil => simp [stableFrom]
    | cons d ds ih =>
      rw [stableFrom, Bool.and_eq_true, ih]
      have happ : p ++ [d] ++ ds = p ++ d :: ds := by simp
      rw [happ]
      constructor
      · rintro ⟨hd, rfl | hds⟩
        · exact Or.inr hd
        · exact Or.inr hds
      · rintro (hnil | hds)
        · cases hnil
        · exact ⟨evidence_above h ⟨ds, by simp⟩ hds, Or.inr hds⟩
  rw [stable, hfrom, List.nil_append]

theorem node?_childOf (t : CoordTree) (p : List ℕ) (d : ℕ) (q : List ℕ) :
    (t.childOf p d).node? q =
      if q = p ++ [d] then some ((t.node? q).getD mkNode) else t.node? q := by
  unfold childOf
  by_cases hhas : t.has (p ++ [d]) = true
  · rw [if_pos hhas]
    by_cases hq : q = p ++ [d]
    · obtain ⟨n, hn⟩ := Option.isSome_iff_exists.mp hhas
      rw [if_pos hq, hq, hn, Option.getD_some]
    · rw [if_neg hq]
  · have hnone : t.node? (p ++ [d]) = none := by simpa [has] using hhas
    rw [if_neg hhas]
    by_cases hq : q = p ++ [d]
    · rw [if_pos hq, hq, hnone, Option.getD_none, node?, List.find?_append]
      rw [node?, Option.map_eq_none_iff] at hnone
      simp [hnone]
    · have hne : p ++ [d] ≠ q := Ne.symm hq
      rw [if_neg hq, node?, node?, List.find?_append]
      simp [hne]

/-- **Walking down a chain** changes the nodes on the way, each once. -/
theorem node?_descend (f : CoordNode → CoordNode) (t : CoordTree) (p ds q : List ℕ) :
    (descend f t p ds).node? q =
      if p <+: q ∧ q <+: p ++ ds ∧ q ≠ p then some (f ((t.node? q).getD mkNode))
      else t.node? q := by
  induction ds generalizing t p with
  | nil =>
    rw [descend, if_neg]
    rintro ⟨hpq, hq, hne⟩
    rw [List.append_nil] at hq
    exact hne (hq.eq_of_length (le_antisymm hq.length_le hpq.length_le))
  | cons d ds ih =>
    rw [descend, ih, node?_update, node?_childOf]
    have hassoc : p ++ [d] ++ ds = p ++ d :: ds := by simp
    rw [hassoc]
    by_cases hq : q = p ++ [d]
    · have hcond : p <+: q ∧ q <+: p ++ d :: ds ∧ q ≠ p := by
        rw [hq]
        exact ⟨⟨[d], rfl⟩, ⟨ds, hassoc⟩, by simp⟩
      rw [if_neg fun hcon => hcon.2.2 hq, if_pos hq, if_pos hq, if_pos hcond, Option.map_some]
    · have hiff : (p ++ [d] <+: q ∧ q <+: p ++ d :: ds ∧ q ≠ p ++ [d]) ↔
          p <+: q ∧ q <+: p ++ d :: ds ∧ q ≠ p := by
        constructor
        · rintro ⟨hpq, hqs, -⟩
          refine ⟨(List.prefix_append p [d]).trans hpq, hqs, ?_⟩
          rintro rfl
          have := hpq.length_le
          simp at this
        · rintro ⟨⟨r, rfl⟩, hqs, hne⟩
          rw [List.prefix_append_right_inj] at hqs
          obtain ⟨e, r, rfl⟩ := List.exists_cons_of_ne_nil (fun hr : r = [] => hne (by simp [hr]))
          obtain ⟨rfl, -⟩ := List.cons_prefix_cons.mp hqs
          exact ⟨⟨r, by simp⟩, by simpa using hqs, hq⟩
      simp only [hiff, if_neg hq]

/-! ### The records in the tree -/

/-- The chain of a record, if its coordinate decodes. -/
def chainOf (e : ℕ × Record α) : Option (List ℕ) := (decodeChain e.2.coord).toOption

theorem chainOf_eq_some_iff {e : ℕ × Record α} {c : List ℕ} :
    chainOf e = some c ↔ decodeChain e.2.coord = .ok c := by
  unfold chainOf
  cases decodeChain e.2.coord with
  | error err => simp [Except.toOption]
  | ok d => simp [Except.toOption]

/-- The record at a node. -/
def recordAt (t : CoordTree) (p : List ℕ) : Option ℕ := (t.node? p).bind CoordNode.recordId

/-- The last record of a list with this chain. -/
def lastId : List (ℕ × Record α) → List ℕ → Option ℕ
  | [], _ => none
  | e :: es, p => (lastId es p).or (if chainOf e = some p then some e.1 else none)

theorem node?_addRecord {id : ℕ} {coord : List Bool} {c : List ℕ}
    (hadd : t.addRecord id coord = .ok t') (hc : decodeChain coord = .ok c) (q : List ℕ) :
    t'.node? q =
      (if q <+: c ∧ q ≠ [] then some ((t.node? q).getD mkNode) else t.node? q).map fun n =>
        if q = c then { n with recordId := some id } else n := by
  unfold addRecord at hadd
  rw [hc] at hadd
  cases hadd
  rw [node?_update, node?_descend]
  simp only [List.nil_prefix, List.nil_append, true_and]
  by_cases hq : q = c
  · simp [hq]
  · simp [hq]

theorem has_addRecord {id : ℕ} {coord : List Bool} {c : List ℕ}
    (hadd : t.addRecord id coord = .ok t') (hc : decodeChain coord = .ok c) (q : List ℕ) :
    t'.has q = true ↔ t.has q = true ∨ q <+: c ∧ q ≠ [] := by
  rw [has, node?_addRecord hadd hc, Option.isSome_map]
  by_cases hq : q <+: c ∧ q ≠ []
  · simp [hq]
  · simp [hq, has]

theorem recordAt_addRecord {id : ℕ} {coord : List Bool} {c : List ℕ} (h : IsTree t)
    (hadd : t.addRecord id coord = .ok t') (hc : decodeChain coord = .ok c) (q : List ℕ) :
    t'.recordAt q = if q = c then some id else t.recordAt q := by
  rw [recordAt, node?_addRecord hadd hc]
  by_cases hq : q = c
  · obtain ⟨n, hn⟩ : ∃ n, (if q <+: c ∧ q ≠ [] then some ((t.node? q).getD mkNode)
        else t.node? q) = some n := by
      by_cases hnil : q = []
      · obtain ⟨n, hn⟩ := Option.isSome_iff_exists.mp h.hasRoot
        exact ⟨n, by rw [if_neg fun hcon => hcon.2 hnil, hnil, hn]⟩
      · exact ⟨_, if_pos ⟨hq ▸ List.prefix_rfl, hnil⟩⟩
    rw [hn, if_pos hq]
    simp [hq]
  · rw [if_neg hq]
    simp only [hq, if_false, Option.map_id', recordAt]
    by_cases hpre : q <+: c ∧ q ≠ []
    · rw [if_pos hpre]
      cases t.node? q with
      | none => rfl
      | some n => rfl
    · rw [if_neg hpre]

/-- **The nodes of the records** are the prefixes of their chains. -/
theorem has_addRecords {es : List (ℕ × Record α)} (hadd : t.addRecords es = .ok t') (q : List ℕ) :
    t'.has q = true ↔
      t.has q = true ∨ ∃ e ∈ es, ∃ c, chainOf e = some c ∧ q <+: c ∧ q ≠ [] := by
  induction es generalizing t with
  | nil =>
    cases hadd
    simp
  | cons e es ih =>
    rw [addRecords] at hadd
    cases hone : t.addRecord e.1 e.2.coord with
    | error err =>
      rw [hone] at hadd
      cases hadd
    | ok t₁ =>
      rw [hone] at hadd
      obtain ⟨c, hc, -, -⟩ := addRecord_eq_ok hone
      have hchain : chainOf e = some c := chainOf_eq_some_iff.mpr hc
      rw [ih hadd, has_addRecord hone hc, or_assoc, List.exists_mem_cons_iff]
      simp [hchain]

/-- **The records in the tree**: at each node the last one with its chain. -/
theorem recordAt_addRecords {es : List (ℕ × Record α)} (h : IsTree t)
    (hadd : t.addRecords es = .ok t') (q : List ℕ) :
    t'.recordAt q = (lastId es q).or (t.recordAt q) := by
  induction es generalizing t with
  | nil =>
    cases hadd
    rfl
  | cons e es ih =>
    rw [addRecords] at hadd
    cases hone : t.addRecord e.1 e.2.coord with
    | error err =>
      rw [hone] at hadd
      cases hadd
    | ok t₁ =>
      rw [hone] at hadd
      obtain ⟨c, hc, -, -⟩ := addRecord_eq_ok hone
      have hchain : chainOf e = some c := chainOf_eq_some_iff.mpr hc
      rw [ih (h.addRecord hone) hadd, recordAt_addRecord h hone hc, lastId, hchain, Option.or_assoc]
      congr 1
      by_cases hq : q = c
      · simp [hq]
      · have hne : c ≠ q := Ne.symm hq
        simp [hq, hne]

theorem recordAt_update (t : CoordTree) (p q : List ℕ) {f : CoordNode → CoordNode}
    (hf : ∀ n, (f n).recordId = n.recordId) : (t.update p f).recordAt q = t.recordAt q := by
  rw [recordAt, node?_update]
  split_ifs
  · cases hn : t.node? q with
    | none => simp [recordAt, hn]
    | some n => simp [recordAt, hn, hf]
  · rfl

theorem recordAt_childOf (t : CoordTree) (p : List ℕ) (d : ℕ) (q : List ℕ) :
    (t.childOf p d).recordAt q = t.recordAt q := by
  rw [recordAt, node?_childOf]
  split_ifs
  · cases hn : t.node? q with
    | none => simp [recordAt, hn, mkNode]
    | some n => simp [recordAt, hn]
  · rfl

theorem recordAt_seedInflight {settled : List ℕ} {total n : ℕ} {p : List ℕ} {bits : List Bool}
    (h : seedInflight settled total n t p bits = .ok t') (q : List ℕ) :
    t'.recordAt q = t.recordAt q := by
  induction n generalizing t p bits with
  | zero =>
    cases bits with
    | nil =>
      cases h
      split_ifs
      · rfl
      · exact recordAt_update t p q fun _ => rfl
    | cons b bits =>
      cases h
      rfl
  | succ n ih =>
    cases bits with
    | nil =>
      cases h
      split_ifs
      · rfl
      · exact recordAt_update t p q fun _ => rfl
    | cons b bits =>
      rw [seedInflight] at h
      cases hone : decodeOne (total - (b :: bits).length) (b :: bits) with
      | error e =>
        rw [hone] at h
        cases h
      | ok d =>
        rw [hone] at h
        simp only [bind, Except.bind] at h
        split_ifs at h
        · rw [ih h, recordAt_update, recordAt_childOf]
          exact fun _ => rfl
        · cases h
          exact recordAt_update t p q fun _ => rfl

theorem recordAt_addInflight {settled : List ℕ} {cs : List (List Bool)}
    (h : addInflight settled t cs = .ok t') (q : List ℕ) : t'.recordAt q = t.recordAt q := by
  induction cs generalizing t with
  | nil =>
    cases h
    rfl
  | cons c cs ih =>
    rw [addInflight] at h
    cases hseed : seedInflight settled c.length c.length t [] c with
    | error e =>
      rw [hseed] at h
      cases h
    | ok t₁ =>
      rw [hseed] at h
      rw [ih h, recordAt_seedInflight hseed]

theorem recordAt_descend (t : CoordTree) (p ds q : List ℕ) {f : CoordNode → CoordNode}
    (hf : ∀ n, (f n).recordId = n.recordId) : (descend f t p ds).recordAt q = t.recordAt q := by
  induction ds generalizing t p with
  | nil => rfl
  | cons d ds ih => rw [descend, ih, recordAt_update _ _ _ hf, recordAt_childOf]

theorem recordAt_addFrozen {cs : List (List Bool)} (h : t.addFrozen cs = .ok t') (q : List ℕ) :
    t'.recordAt q = t.recordAt q := by
  induction cs generalizing t with
  | nil =>
    cases h
    rfl
  | cons c cs ih =>
    rw [addFrozen, freeze] at h
    cases hc : decodeChain c with
    | error e =>
      rw [hc] at h
      cases h
    | ok chain =>
      rw [hc] at h
      rw [ih h, recordAt_update, recordAt_descend]
      · exact fun _ => rfl
      · exact fun _ => rfl

/-- **The records in the tree of a state.** -/
theorem recordAt_build {s : EmbedRGA.State α} {cut : CoordCut} (h : build s cut = .ok t)
    (q : List ℕ) : t.recordAt q = lastId s.entries q := by
  obtain ⟨t₁, t₂, hrecords, hinflight, hfrozen⟩ := build_steps h
  rw [recordAt_addFrozen hfrozen, recordAt_addInflight hinflight,
    recordAt_addRecords IsTree.of_root hrecords]
  cases hroot : root.recordAt q with
  | none => rw [Option.or_none]
  | some id =>
    unfold recordAt node? root at hroot
    by_cases hq : q = []
    · simp [hq, mkNode] at hroot
    · simp [Ne.symm hq] at hroot

theorem lastId_isSome_of_mem {es : List (ℕ × Record α)} {e : ℕ × Record α} (he : e ∈ es)
    {c : List ℕ} (hc : chainOf e = some c) : (lastId es c).isSome = true := by
  induction es with
  | nil => cases he
  | cons f es ih =>
    rw [lastId, Option.isSome_or]
    rcases List.mem_cons.mp he with rfl | hmem
    · simp [hc]
    · rw [ih hmem, Bool.true_or]

theorem exists_of_lastId {es : List (ℕ × Record α)} {p : List ℕ} {id : ℕ}
    (h : lastId es p = some id) : ∃ e ∈ es, e.1 = id ∧ chainOf e = some p := by
  induction es with
  | nil => cases h
  | cons f es ih =>
    rw [lastId] at h
    rcases Option.or_eq_some_iff.mp h with hrest | ⟨-, hfirst⟩
    · obtain ⟨e, he, hid⟩ := ih hrest
      exact ⟨e, List.mem_cons_of_mem _ he, hid⟩
    · split_ifs at hfirst with hf
      exact ⟨f, List.mem_cons_self, Option.some.inj hfirst, hf⟩

/-- Without coordinates in flight only the records are entered. -/
theorem addRecords_of_build {s : EmbedRGA.State α} {settledIds : Option (List ℕ)}
    (h : build s { settledIds, inflight := [], frozenAnchorCoords := [] } = .ok t) :
    root.addRecords s.entries = .ok t := by
  obtain ⟨t₁, t₂, hadd, hinflight, hfrozen⟩ := build_steps h
  cases hinflight
  cases hfrozen
  exact hadd

theorem has_root {p : List ℕ} : root.has p = true ↔ p = [] := by
  rw [has_iff_mem]
  simp [root]

/-- The tree knows of no coordinate in flight. -/
def Quiet (t : CoordTree) : Prop :=
  ∀ p n, t.node? p = some n →
    n.inflightChild = false ∧ n.inflightHere = false ∧ n.seedSettled = false

theorem quiet_root : Quiet root := fun p n hn => by
  unfold node? root at hn
  by_cases hp : p = []
  · obtain rfl : mkNode = n := by simpa [hp] using hn
    exact ⟨rfl, rfl, rfl⟩
  · simp [Ne.symm hp] at hn

theorem Quiet.addRecords {es : List (ℕ × Record α)} (h : Quiet t) (hadd : t.addRecords es = .ok t') :
    Quiet t' := by
  induction es generalizing t with
  | nil =>
    cases hadd
    exact h
  | cons e es ih =>
    rw [CoordTree.addRecords] at hadd
    cases hone : t.addRecord e.1 e.2.coord with
    | error err =>
      rw [hone] at hadd
      cases hadd
    | ok t₁ =>
      rw [hone] at hadd
      obtain ⟨c, hc, -, -⟩ := addRecord_eq_ok hone
      refine ih (fun p n hn => ?_) hadd
      rw [node?_addRecord hone hc, Option.map_eq_some_iff] at hn
      obtain ⟨m, hm, rfl⟩ := hn
      have hflags : m.inflightChild = false ∧ m.inflightHere = false ∧ m.seedSettled = false := by
        by_cases hp : p <+: c ∧ p ≠ []
        · rw [if_pos hp, Option.some.injEq] at hm
          subst hm
          cases hnode : t.node? p with
          | none => exact ⟨rfl, rfl, rfl⟩
          | some n => exact h p n hnode
        · rw [if_neg hp] at hm
          exact h p m hm
      split_ifs <;> exact hflags

/-! ### The coordinates in flight in the tree -/

/-- The walk along a coordinate in flight, from the node `p` on, passes through the node `q`: all ids
on the way are settled. -/
def Walked (settled : List ℕ) (p : List ℕ) (bits : List Bool) (q : List ℕ) : Prop :=
  p <+: q ∧ q ≠ p ∧ q.flatMap dEnc <+: p.flatMap dEnc ++ bits ∧
    ∀ r, p <+: r → r <+: q → r ≠ p → r.sum ∈ settled

theorem walked_step {p : List ℕ} {d : ℕ} {rest : List Bool} (hd : (p ++ [d]).sum ∈ settled) :
    Walked settled p (dEnc d ++ rest) (p ++ [d]) := by
  refine ⟨List.prefix_append _ _, by simp, ⟨rest, by simp⟩, fun r hp hr hne => ?_⟩
  rcases List.prefix_concat_iff.mp hr with heq | hr
  · rwa [heq]
  · exact absurd (hr.eq_of_length (le_antisymm hr.length_le hp.length_le)) hne

theorem Walked.of_step {p q : List ℕ} {d : ℕ} {rest : List Bool}
    (h : Walked settled (p ++ [d]) rest q) (hd : (p ++ [d]).sum ∈ settled) :
    Walked settled p (dEnc d ++ rest) q := by
  obtain ⟨hpq, hne, hbits, hall⟩ := h
  refine ⟨(List.prefix_append p [d]).trans hpq, ?_, by simpa using hbits, fun r hp hr hne => ?_⟩
  · rintro rfl
    have := hpq.length_le
    simp at this
  · -- A node on the way is the first one or below it.
    rcases List.prefix_or_prefix_of_prefix hr hpq with hle | hle
    · rcases List.prefix_concat_iff.mp hle with heq | hle
      · rwa [heq]
      · exact absurd (hle.eq_of_length (le_antisymm hle.length_le hp.length_le)) hne
    · by_cases heq : r = p ++ [d]
      · rwa [heq]
      · exact hall r hle hr heq

/-- **A walk** creates and seeds only nodes that it passes through. -/
theorem node?_seedInflight {total n : ℕ} {p : List ℕ} {bits : List Bool}
    (h : seedInflight settled total n t p bits = .ok t') {q : List ℕ} {m : CoordNode}
    (hm : t'.node? q = some m) :
    Walked settled p bits q ∨ ∃ m₀, t.node? q = some m₀ ∧ m.seedSettled = m₀.seedSettled := by
  have hupdate {t : CoordTree} {p : List ℕ} {f : CoordNode → CoordNode}
      {q : List ℕ} {m : CoordNode} (hm : (t.update p f).node? q = some m)
      (hf : ∀ n, (f n).seedSettled = n.seedSettled) :
      ∃ m₀, t.node? q = some m₀ ∧ m.seedSettled = m₀.seedSettled := by
    rw [node?_update] at hm
    split_ifs at hm
    · obtain ⟨m₀, hm₀, rfl⟩ := Option.map_eq_some_iff.mp hm
      exact ⟨m₀, hm₀, hf m₀⟩
    · exact ⟨m, hm, rfl⟩
  induction n generalizing t p bits with
  | zero =>
    cases bits with
    | nil =>
      cases h
      split_ifs at hm
      · exact Or.inr ⟨m, hm, rfl⟩
      · exact Or.inr (hupdate hm fun _ => rfl)
    | cons b bits =>
      cases h
      exact Or.inr ⟨m, hm, rfl⟩
  | succ n ih =>
    cases bits with
    | nil =>
      cases h
      split_ifs at hm
      · exact Or.inr ⟨m, hm, rfl⟩
      · exact Or.inr (hupdate hm fun _ => rfl)
    | cons b bits =>
      rw [seedInflight] at h
      cases hone : decodeOne (total - (b :: bits).length) (b :: bits) with
      | error e =>
        rw [hone] at h
        cases h
      | ok d =>
        obtain ⟨d, rest⟩ := d
        rw [hone] at h
        simp only [bind, Except.bind] at h
        obtain ⟨-, hbits⟩ := decodeOne_eq_ok_iff.mp hone
        split_ifs at h with hset
        · have hsum : (p ++ [d]).sum ∈ settled := by simpa using hset
          rcases ih h with hwalk | ⟨m₁, hm₁, hseed⟩
          · exact Or.inl (hbits ▸ hwalk.of_step hsum)
          · rw [node?_update, node?_childOf] at hm₁
            by_cases hq : q = p ++ [d]
            · exact Or.inl (hq ▸ hbits ▸ walked_step hsum)
            · rw [if_neg hq, if_neg hq] at hm₁
              exact Or.inr ⟨m₁, hm₁, hseed⟩
        · cases h
          exact Or.inr (hupdate hm fun _ => rfl)

theorem node?_addInflight {cs : List (List Bool)} (h : addInflight settled t cs = .ok t')
    {q : List ℕ} {m : CoordNode} (hm : t'.node? q = some m) :
    (∃ c ∈ cs, Walked settled [] c q) ∨
      ∃ m₀, t.node? q = some m₀ ∧ m.seedSettled = m₀.seedSettled := by
  induction cs generalizing t with
  | nil =>
    cases h
    exact Or.inr ⟨m, hm, rfl⟩
  | cons c cs ih =>
    rw [addInflight] at h
    cases hseed : seedInflight settled c.length c.length t [] c with
    | error e =>
      rw [hseed] at h
      cases h
    | ok t₁ =>
      rw [hseed] at h
      rcases ih h with ⟨c', hc', hwalk⟩ | ⟨m₁, hm₁, heq⟩
      · exact Or.inl ⟨c', List.mem_cons_of_mem _ hc', hwalk⟩
      · rcases node?_seedInflight hseed hm₁ with hwalk | ⟨m₀, hm₀, heq₀⟩
        · exact Or.inl ⟨c, List.mem_cons_self, hwalk⟩
        · exact Or.inr ⟨m₀, hm₀, heq.trans heq₀⟩

theorem node?_addFrozen {cs : List (List Bool)} (h : t.addFrozen cs = .ok t') {q : List ℕ}
    {m : CoordNode} (hm : t'.node? q = some m) :
    (∃ c ∈ cs, ∃ ds, decodeChain c = .ok ds ∧ q <+: ds ∧ q ≠ []) ∨
      ∃ m₀, t.node? q = some m₀ ∧ m.seedSettled = m₀.seedSettled := by
  induction cs generalizing t with
  | nil =>
    cases h
    exact Or.inr ⟨m, hm, rfl⟩
  | cons c cs ih =>
    rw [addFrozen, freeze] at h
    cases hc : decodeChain c with
    | error e =>
      rw [hc] at h
      cases h
    | ok ds =>
      rw [hc] at h
      rcases ih h with ⟨c', hc', hds⟩ | ⟨m₁, hm₁, heq⟩
      · exact Or.inl ⟨c', List.mem_cons_of_mem _ hc', hds⟩
      · by_cases hq : q <+: ds ∧ q ≠ []
        · exact Or.inl ⟨c, List.mem_cons_self, ds, hc, hq⟩
        · have hdescend (f : CoordNode → CoordNode) :
              (t.descend f [] ds).node? q = t.node? q := by
            rw [node?_descend, if_neg]
            rintro ⟨-, hds, hne⟩
            exact hq ⟨by simpa using hds, hne⟩
          rw [node?_update, hdescend] at hm₁
          obtain ⟨m₀, hm₀, hseed⟩ : ∃ m₀, t.node? q = some m₀ ∧
              m₁.seedSettled = m₀.seedSettled := by
            split_ifs at hm₁
            · obtain ⟨m₀, hm₀, rfl⟩ := Option.map_eq_some_iff.mp hm₁
              exact ⟨m₀, hm₀, rfl⟩
            · exact ⟨m₁, hm₁, rfl⟩
          exact Or.inr ⟨m₀, hm₀, heq.trans hseed⟩

/-- **The nodes of a tree**: those that a walk passes through, those on the way to a frozen anchor,
and those on the way to a record. The last are not seeded. -/
theorem node?_build {s : EmbedRGA.State α} {cut : CoordCut} (h : build s cut = .ok t) {q : List ℕ}
    {m : CoordNode} (hm : t.node? q = some m) :
    (∃ c ∈ cut.inflight, Walked (cut.settledIds.getD []) [] c q) ∨
      (∃ c ∈ cut.frozenAnchorCoords, ∃ ds, decodeChain c = .ok ds ∧ q <+: ds ∧ q ≠ []) ∨
      m.seedSettled = false ∧ (q = [] ∨ ∃ e ∈ s.entries, ∃ c, chainOf e = some c ∧ q <+: c) := by
  obtain ⟨t₁, t₂, hrecords, hinflight, hfrozen⟩ := build_steps h
  rcases node?_addFrozen hfrozen hm with hq | ⟨m₂, hm₂, heq⟩
  · exact Or.inr (Or.inl hq)
  · rcases node?_addInflight hinflight hm₂ with hq | ⟨m₁, hm₁, heq₁⟩
    · exact Or.inl hq
    · refine Or.inr (Or.inr ⟨?_, ?_⟩)
      · rw [heq, heq₁, ((quiet_root.addRecords hrecords) q m₁ hm₁).2.2]
      · have hhas : t₁.has q = true := by rw [has, hm₁, Option.isSome_some]
        rcases (has_addRecords hrecords q).mp hhas with hroot | ⟨e, he, c, hc, hqc, -⟩
        · exact Or.inl (has_root.mp hroot)
        · exact Or.inr ⟨e, he, c, hc, hqc⟩

theorem visited_of_recordAt {p : List ℕ} (h : (t.recordAt p).isSome = true) :
    t.visited settled opts p = true := by
  unfold recordAt at h
  cases hn : t.node? p with
  | none => simp [hn] at h
  | some n => exact visited_of_record hn (by simpa [hn] using h)

theorem has_of_recordAt {p : List ℕ} (h : (t.recordAt p).isSome = true) : t.has p = true := by
  unfold recordAt at h
  unfold has
  cases hn : t.node? p with
  | none => simp [hn] at h
  | some n => rfl

end CoordTree

/-! ### Lists related entry by entry -/

section Related

variable {β δ : Type} {R : β → δ → Prop} {l : List β} {l' : List δ}

theorem exists_right_of_forall₂ (h : List.Forall₂ R l l') {a : β} (ha : a ∈ l) :
    ∃ b ∈ l', R a b := by
  induction h with
  | nil => cases ha
  | cons hab _ ih =>
    rcases List.mem_cons.mp ha with rfl | hmem
    · exact ⟨_, List.mem_cons_self, hab⟩
    · obtain ⟨b, hb, hr⟩ := ih hmem
      exact ⟨b, List.mem_cons_of_mem _ hb, hr⟩

theorem exists_left_of_forall₂ (h : List.Forall₂ R l l') {b : δ} (hb : b ∈ l') :
    ∃ a ∈ l, R a b :=
  exists_right_of_forall₂ h.flip hb

end Related

/-! ### The compaction -/

section Compaction

open CoordTree

variable {s : EmbedRGA.State α} {cut : CoordCut} {opts : CompactOpts}
  {res : Compacted (EmbedRGA.State α) (List Bool → Except Failure (List Bool))}

/-- The record `e'` is the record `e`, the record of a node, with its coordinate rewritten along
the tree. -/
def Rewritten (t : CoordTree) (settled : List ℕ) (opts : CompactOpts) (e e' : ℕ × Record α) : Prop :=
  e'.1 = e.1 ∧ e'.2.el = e.2.el ∧ ∃ c, (t.recordAt c).isSome = true ∧ e.2.coord = c.flatMap dEnc ∧
    e'.2.coord = t.newCoord settled opts c

/-- **A compaction** rewrites the coordinates of all records along the tree. -/
theorem compactEliasDelta_rewrites (h : compactEliasDelta s cut opts = .ok res) :
    ∃ t, CoordTree.build s cut = .ok t ∧
      res.translate = t.translate (cut.settledIds.getD []) opts ∧
      res.stats = compactStats t (cut.settledIds.getD []) opts s res.state ∧
      List.Forall₂ (Rewritten t (cut.settledIds.getD []) opts) s.entries res.state.entries := by
  rw [compactEliasDelta] at h
  cases hbuild : CoordTree.build s cut with
  | error e =>
    rw [hbuild] at h
    cases h
  | ok t =>
    rw [hbuild] at h
    simp only [bind, Except.bind] at h
    cases hmap : EmbedRGA.mapRecords s (t.recode (cut.settledIds.getD []) opts) with
    | error e =>
      rw [hmap] at h
      cases h
    | ok s' =>
      rw [hmap] at h
      cases h
      refine ⟨t, rfl, rfl, rfl, ?_⟩
      have hpoint := EmbedRGA.mapRecords_eq_ok_iff.mp hmap
      rw [List.forall₂_iff_get] at hpoint ⊢
      refine ⟨hpoint.1, fun i hi hi' => ?_⟩
      obtain ⟨hid, hrec⟩ := hpoint.2 i hi hi'
      have hmem := List.get_mem s.entries ⟨i, hi⟩
      obtain ⟨c, hc, -⟩ := build_eq_ok hbuild _ hmem
      have hchain := chainOf_eq_some_iff.mpr hc
      rw [recode, hc] at hrec
      have hrec := Except.ok.inj hrec
      refine ⟨hid, by rw [← hrec], c, ?_, (decodeChain_eq_ok_iff.mp hc).2, by rw [← hrec]⟩
      rw [recordAt_build hbuild]
      exact lastId_isSome_of_mem hmem hchain

/-- Records are entered when their coordinates decode. -/
theorem exists_addRecords {es : List (ℕ × Record α)}
    (hes : ∀ e ∈ es, ∃ c, decodeChain e.2.coord = .ok c) (t : CoordTree) :
    ∃ t', t.addRecords es = .ok t' := by
  induction es generalizing t with
  | nil => exact ⟨t, rfl⟩
  | cons e es ih =>
    obtain ⟨c, hc⟩ := hes e List.mem_cons_self
    obtain ⟨t', ht'⟩ := ih (fun f hf => hes f (List.mem_cons_of_mem _ hf))
      ((t.descend (fun n => n) [] c).update c fun n => { n with recordId := some e.1 })
    refine ⟨t', ?_⟩
    rw [addRecords, addRecord, hc]
    exact ht'

theorem exists_seedInflight (settled : List ℕ) (total : ℕ) {ds : List ℕ} (hds : ∀ d ∈ ds, 1 ≤ d)
    {n : ℕ} (hn : (ds.flatMap dEnc).length ≤ n) (t : CoordTree) (p : List ℕ) :
    ∃ t', seedInflight settled total n t p (ds.flatMap dEnc) = .ok t' := by
  induction ds generalizing n t p with
  | nil =>
    rw [List.flatMap_nil]
    cases n <;> exact ⟨_, rfl⟩
  | cons d ds ih =>
    have hd := hds d List.mem_cons_self
    obtain ⟨b, bits, hbits⟩ : ∃ b bits, (d :: ds).flatMap dEnc = b :: bits :=
      List.exists_cons_of_ne_nil fun hnil =>
        orderedPrefixCode_dEnc.ne_nil hd (List.append_eq_nil_iff.mp hnil).1
    have hone : decodeOne (total - (b :: bits).length) (b :: bits) = .ok (d, ds.flatMap dEnc) := by
      rw [← hbits, List.flatMap_cons, decodeOne_append _ hd]
    have hlt := decodeOne_length_lt hone
    rw [hbits] at hn ⊢
    cases n with
    | zero => simp at hn
    | succ n =>
      rw [seedInflight, hone]
      simp only [bind, Except.bind]
      split_ifs
      · exact ih (fun e he => hds e (List.mem_cons_of_mem _ he))
          (by simp only [List.length_cons] at hn hlt; omega) _ _
      · exact ⟨_, rfl⟩

theorem exists_addInflight (settled : List ℕ) {cs : List (List Bool)}
    (hcs : ∀ c ∈ cs, ∃ ds, decodeChain c = .ok ds) (t : CoordTree) :
    ∃ t', addInflight settled t cs = .ok t' := by
  induction cs generalizing t with
  | nil => exact ⟨t, rfl⟩
  | cons c cs ih =>
    obtain ⟨ds, hds⟩ := hcs c List.mem_cons_self
    obtain ⟨hpos, rfl⟩ := decodeChain_eq_ok_iff.mp hds
    obtain ⟨t₁, ht₁⟩ := exists_seedInflight settled (ds.flatMap dEnc).length hpos le_rfl t []
    obtain ⟨t', ht'⟩ := ih (fun c hc => hcs c (List.mem_cons_of_mem _ hc)) t₁
    refine ⟨t', ?_⟩
    rw [addInflight, ht₁]
    exact ht'

theorem exists_addFrozen {cs : List (List Bool)} (hcs : ∀ c ∈ cs, ∃ ds, decodeChain c = .ok ds)
    (t : CoordTree) : ∃ t', t.addFrozen cs = .ok t' := by
  induction cs generalizing t with
  | nil => exact ⟨t, rfl⟩
  | cons c cs ih =>
    obtain ⟨ds, hds⟩ := hcs c List.mem_cons_self
    obtain ⟨t', ht'⟩ := ih (fun c hc => hcs c (List.mem_cons_of_mem _ hc))
      ((t.descend (fun n => { n with seedSettled := true }) [] ds).update ds
        fun n => { n with inflightChild := true })
    refine ⟨t', ?_⟩
    rw [addFrozen, freeze, hds]
    exact ht'

/-- **A compaction succeeds** when all coordinates decode. -/
theorem exists_compacted (hs : ∀ e ∈ s.entries, ∃ c, decodeChain e.2.coord = .ok c)
    (hinflight : ∀ c ∈ cut.inflight, ∃ ds, decodeChain c = .ok ds)
    (hfrozen : ∀ c ∈ cut.frozenAnchorCoords, ∃ ds, decodeChain c = .ok ds) (opts : CompactOpts) :
    ∃ res, compactEliasDelta s cut opts = .ok res := by
  obtain ⟨t₁, ht₁⟩ := exists_addRecords hs CoordTree.root
  obtain ⟨t₂, ht₂⟩ := exists_addInflight (cut.settledIds.getD []) hinflight t₁
  obtain ⟨t, ht⟩ := exists_addFrozen hfrozen t₂
  have hbuild : CoordTree.build s cut = .ok t := by
    rw [CoordTree.build, ht₁]
    simp only [bind, Except.bind]
    rw [ht₂]
    exact ht
  have hmap {es : List (ℕ × Record α)} (hes : ∀ e ∈ es, ∃ c, decodeChain e.2.coord = .ok c) :
      ∃ es', (es.mapM fun e => do return (e.1, ← t.recode (cut.settledIds.getD []) opts e.2) :
        Except Failure (List (ℕ × Record α))) = .ok es' := by
    induction es with
    | nil => exact ⟨[], rfl⟩
    | cons e es ih =>
      obtain ⟨c, hc⟩ := hes e List.mem_cons_self
      obtain ⟨es', hes'⟩ := ih fun f hf => hes f (List.mem_cons_of_mem _ hf)
      refine ⟨(e.1, { coord := t.newCoord (cut.settledIds.getD []) opts c, el := e.2.el }) :: es',
        ?_⟩
      rw [List.mapM_cons, hes', recode, hc]
      rfl
  obtain ⟨es', hes'⟩ := hmap hs
  refine ⟨{ state := SortedMap.ofList es', translate := t.translate (cut.settledIds.getD []) opts,
            stats := compactStats t (cut.settledIds.getD []) opts s (SortedMap.ofList es') }, ?_⟩
  rw [compactEliasDelta, hbuild]
  simp only [bind, Except.bind]
  rw [EmbedRGA.mapRecords, hes']
  rfl

/-- A state can be compacted when its coordinates decode and the cut declares nothing in flight. -/
theorem exists_compactEliasDelta (hs : ∀ e ∈ s.entries, ∃ c, decodeChain e.2.coord = .ok c)
    (settledIds : Option (List ℕ)) (opts : CompactOpts) :
    ∃ res, compactEliasDelta s
      { settledIds, inflight := [], frozenAnchorCoords := [] } opts = .ok res :=
  exists_compacted hs (by simp) (by simp) opts

end Compaction

end SalRuntime
