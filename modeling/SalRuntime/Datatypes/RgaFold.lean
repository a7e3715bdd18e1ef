import SalRuntime.Datatypes.HonestStates

/-!
# The display order of the tombstone RGA as a fold over timestamps

The specification of the display order processes the insertions by ascending ids, and puts every id
right after its anchor, or at the front for the root. The walk of the tree of anchors computes the
same list.

## Main definitions

* `Rga.insertAfter`, `Rga.timestampFold` — the specification.
* `Rga.AnchorClosed` — every anchor is a smaller inserted id.
* `Rga.unionAdds` — the union of two relations of insertions.

## Main results

* `Rga.orderedIds_eq_timestampFold` — the walk computes the fold.
* `Rga.readIds_eq_timestampFold` — the read of a merge is the fold over the union of the insertions,
  without the union of the graves.
-/

namespace SalRuntime.Rga

variable {α : Type}

/-- Put an id right after its anchor, or at the front. -/
def insertAfter (id : ℕ) : Option ℕ → List ℕ → List ℕ
  | none, ids => id :: ids
  | some _, [] => []
  | some a, x :: ids => if x = a then x :: id :: ids else x :: insertAfter id (some a) ids

/-- The display order of the insertions: ids are put in place from the smallest to the largest. -/
def timestampFold (adds : SortedMap ℕ (Added α)) : List ℕ :=
  adds.entries.foldl (fun ids e => insertAfter e.1 e.2.anchorId ids) []

/-- Every anchor is a smaller inserted id. -/
def AnchorClosed (adds : SortedMap ℕ (Added α)) : Prop :=
  ∀ id r a, adds.get? id = some r → r.anchorId = some a → a ∈ adds.keys ∧ a < id

/-- The insertions of both sides. -/
def unionAdds (a b : SortedMap ℕ (Added α)) : SortedMap ℕ (Added α) :=
  b.entries.foldl (fun t e => t.insert e.1 e.2) a

/-! ### One insertion -/

theorem mem_insertAfter {id : ℕ} {anchorId : Option ℕ} {ids : List ℕ}
    (h : ∀ a, anchorId = some a → a ∈ ids) {i : ℕ} :
    i ∈ insertAfter id anchorId ids ↔ i = id ∨ i ∈ ids := by
  cases anchorId with
  | none => rw [insertAfter, List.mem_cons]
  | some a =>
    have ha := h a rfl
    clear h
    induction ids with
    | nil => cases ha
    | cons x ids ih =>
      rw [insertAfter]
      split_ifs with heq
      · simp only [List.mem_cons]
        tauto
      · have := ih ((List.mem_cons.mp ha).resolve_left (Ne.symm heq))
        simp only [List.mem_cons, this]
        tauto

/-- A new child with an id above those of a chain is displayed above everything that its parent is
displayed above. -/
theorem above_concat_left {c d : List ℕ} {id : ℕ} (h : Above c d) (hd : ∀ i ∈ d, i < id) :
    Above (c ++ [id]) d := by
  induction h with
  | nil => exact List.Lex.rel (hd _ List.mem_cons_self)
  | rel hlt => exact List.Lex.rel hlt
  | cons _ ih => exact List.Lex.cons (ih fun i hi => hd i (List.mem_cons_of_mem _ hi))

/-- **Inserting an id** right after its anchor keeps an order of the ids, if the id comes after its
anchor and before everything that its anchor comes before. -/
theorem pairwise_insertAfter {R : ℕ → ℕ → Prop} (htrans : ∀ i j k, R i j → R j k → R i k) {id : ℕ}
    {anchorId : Option ℕ} {ids : List ℕ} (hpair : ids.Pairwise R)
    (hanchor : ∀ a, anchorId = some a → a ∈ ids) (hbelow : ∀ a, anchorId = some a → R a id)
    (habove : ∀ j ∈ ids, (∀ a, anchorId = some a → R a j) → R id j) :
    (insertAfter id anchorId ids).Pairwise R := by
  cases anchorId with
  | none =>
    rw [insertAfter]
    exact List.pairwise_cons.mpr ⟨fun j hj => habove j hj fun _ => nofun, hpair⟩
  | some a =>
    have hbelow := hbelow a rfl
    have ha := hanchor a rfl
    clear hanchor
    induction ids with
    | nil => cases ha
    | cons x ids ih =>
      obtain ⟨hx, hpair⟩ := List.pairwise_cons.mp hpair
      rw [insertAfter]
      split_ifs with heq
      · subst heq
        -- The id comes right after its anchor, and before everything that came after it.
        refine List.pairwise_cons.mpr ⟨fun j hj => ?_, List.pairwise_cons.mpr
          ⟨fun j hj => ?_, hpair⟩⟩
        · rcases List.mem_cons.mp hj with rfl | hj
          · exact hbelow
          · exact hx j hj
        · exact habove j (List.mem_cons_of_mem _ hj) fun b hb => Option.some.inj hb ▸ hx j hj
      · have ha' := (List.mem_cons.mp ha).resolve_left (Ne.symm heq)
        refine List.pairwise_cons.mpr ⟨fun j hj => ?_,
          ih hpair (fun j hj => habove j (List.mem_cons_of_mem _ hj)) ha'⟩
        rcases (mem_insertAfter fun b hb => Option.some.inj hb ▸ ha').mp hj with rfl | hj
        · exact htrans _ _ _ (hx a ha') hbelow
        · exact hx j hj

/-- **Inserting the largest id** after its anchor keeps the display order of the chains. -/
theorem pairwise_above_insertAfter {χ : ℕ → List ℕ} {id : ℕ} {anchorId : Option ℕ} {ids : List ℕ}
    (hpair : ids.Pairwise fun i j => Above (χ i) (χ j))
    (hχ : χ id = anchorChain χ anchorId ++ [id]) (hanchor : ∀ a, anchorId = some a → a ∈ ids)
    (hlt : ∀ j ∈ ids, ∀ i ∈ χ j, i < id) (hne : ∀ j ∈ ids, χ j ≠ []) :
    (insertAfter id anchorId ids).Pairwise fun i j => Above (χ i) (χ j) := by
  refine pairwise_insertAfter (fun i j k hij hjk => hij.trans hjk) hpair hanchor (fun a ha => ?_)
    fun j hj habove => ?_
  · rw [hχ, ha, anchorChain]
    exact above_append_of_ne_nil (χ a) (by simp)
  · rw [hχ]
    cases anchorId with
    | none =>
      obtain ⟨i, c, hc⟩ := List.exists_cons_of_ne_nil (hne j hj)
      exact above_concat_left (hc ▸ List.Lex.nil) (hlt j hj)
    | some a => exact above_concat_left (habove a rfl) (hlt j hj)

/-! ### The fold -/

section Fold

variable {adds : SortedMap ℕ (Added α)} (h : AnchorClosed adds)

/-- The anchor of an id. -/
def anchorIn (adds : SortedMap ℕ (Added α)) (id : ℕ) : Option ℕ :=
  (adds.get? id).bind Added.anchorId

theorem exists_add_iff {id : ℕ} {a : Option ℕ} :
    (∃ r, adds.get? id = some r ∧ r.anchorId = a) ↔ id ∈ adds.keys ∧ anchorIn adds id = a := by
  rw [SortedMap.mem_keys_iff]
  constructor
  · rintro ⟨r, hr, rfl⟩
    exact ⟨⟨r, hr⟩, by rw [anchorIn, hr, Option.bind_some]⟩
  · rintro ⟨⟨r, hr⟩, rfl⟩
    exact ⟨r, hr, by rw [anchorIn, hr, Option.bind_some]⟩

include h

/-- Closed insertions form a forest. -/
theorem forest_of_anchorClosed :
    Forest (chainOf (anchorIn adds)) (anchorIn adds) {id | id ∈ adds.keys} := by
  have hanchor (id a : ℕ) (ha : anchorIn adds id = some a) : a ∈ adds.keys ∧ a < id := by
    obtain ⟨r, hr, hra⟩ := Option.bind_eq_some_iff.mp ha
    exact h id r a hr hra
  refine ⟨fun id _ => ?_, fun id _ a ha => hanchor id a ha⟩
  rw [chainOf]
  cases ha : anchorIn adds id with
  | none => rfl
  | some a =>
    show (if a < id then chainOf (anchorIn adds) a else []) ++ [id] = _
    rw [if_pos (hanchor id a ha).2, anchorChain]

/-- **The fold** puts the ids in the display order of their chains. -/
theorem timestampFold_spec : (timestampFold adds).Pairwise (fun i j =>
      Above (chainOf (anchorIn adds) i) (chainOf (anchorIn adds) j)) ∧
    ∀ id, id ∈ timestampFold adds ↔ id ∈ adds.keys := by
  have hforest := forest_of_anchorClosed h
  set χ := chainOf (anchorIn adds)
  -- Induction on the insertions that were processed: all of them are smaller than the next.
  have hrun (done todo : List (ℕ × Added α)) (heq : adds.entries = done ++ todo) (ids : List ℕ)
      (hpair : ids.Pairwise fun i j => Above (χ i) (χ j))
      (hmem : ∀ id, id ∈ ids ↔ id ∈ done.map Prod.fst) :
      (todo.foldl (fun ids e => insertAfter e.1 e.2.anchorId ids) ids).Pairwise
          (fun i j => Above (χ i) (χ j)) ∧
        ∀ id, id ∈ todo.foldl (fun ids e => insertAfter e.1 e.2.anchorId ids) ids ↔
          id ∈ adds.keys := by
    induction todo generalizing done ids with
    | nil => exact ⟨hpair, fun id => by rw [List.foldl_nil, hmem, SortedMap.keys, heq,
        List.append_nil]⟩
    | cons e todo ih =>
      obtain ⟨id, r⟩ := e
      have hsorted := adds.sorted
      rw [heq, List.pairwise_append, List.pairwise_cons] at hsorted
      obtain ⟨-, ⟨htodo, -⟩, hdone⟩ := hsorted
      have hget : adds.get? id = some r := SortedMap.mem_entries_iff.mp (by rw [heq]; simp)
      have hid : id ∈ adds.keys := SortedMap.mem_keys_iff.mpr ⟨r, hget⟩
      have hanchorIn : anchorIn adds id = r.anchorId := by rw [anchorIn, hget, Option.bind_some]
      have hkeys (j : ℕ) (hj : j ∈ ids) : j ∈ adds.keys ∧ j < id := by
        obtain ⟨f, hf, rfl⟩ := List.mem_map.mp ((hmem j).mp hj)
        refine ⟨?_, hdone f hf (id, r) List.mem_cons_self⟩
        rw [SortedMap.keys, heq, List.map_append]
        exact List.mem_append_left _ (List.mem_map_of_mem hf)
      have hanchor (a : ℕ) (ha : r.anchorId = some a) : a ∈ ids := by
        obtain ⟨hak, hlt⟩ := h id r a hget ha
        rw [SortedMap.keys, heq, List.map_append, List.mem_append, List.map_cons, List.mem_cons]
          at hak
        rw [hmem]
        refine hak.resolve_right fun hcon => ?_
        rcases hcon with hcon | hcon
        · exact hlt.ne hcon
        · obtain ⟨f, hf, rfl⟩ := List.mem_map.mp hcon
          exact lt_asymm hlt (htodo f hf)
      refine ih (done ++ [(id, r)]) (by rw [heq, List.append_assoc]; rfl) _ ?_ fun j => ?_
      · refine pairwise_above_insertAfter hpair ?_ hanchor (fun j hj i hi => ?_) fun j hj => ?_
        · rw [hforest.chain id hid, hanchorIn]
        · exact (hforest.le_of_mem_chain (hkeys j hj).1 hi).trans_lt (hkeys j hj).2
        · rw [hforest.chain j (hkeys j hj).1]
          simp
      · rw [mem_insertAfter hanchor, hmem, List.map_append, List.mem_append, List.map_singleton,
          List.mem_singleton]
        exact or_comm
  exact hrun [] adds.entries rfl [] List.Pairwise.nil fun id => by simp

/-- **The walk computes the fold.** -/
theorem orderedIds_of_anchorClosed : orderedIds adds = .ok (timestampFold adds) := by
  obtain ⟨out, hout, hpair, hmem⟩ := orderedIds_spec (forest_of_anchorClosed h)
    fun id a => exists_add_iff
  obtain ⟨hpair', hmem'⟩ := timestampFold_spec h
  rw [hout, eq_of_pairwise_above hpair hpair' fun id => (hmem id).trans (hmem' id).symm]

end Fold

/-- **The read** is the fold without the graves. -/
theorem readIds_of_anchorClosed {s : State α} (h : AnchorClosed s.adds) (horder : s.order = none) :
    readIds s = .ok ((timestampFold s.adds).filter fun id => !s.grave.has id) := by
  have hentries : readEntries s = .ok ((timestampFold s.adds).filterMap fun id =>
      if s.grave.has id then none else (s.adds.get? id).map (id, ·)) := by
    rw [readEntries, horder]
    simp only [orderedIds_of_anchorClosed h, bind, Except.bind, pure, Except.pure]
  have hfst (ids : List ℕ) (hids : ∀ id ∈ ids, id ∈ s.adds.keys) : (ids.filterMap fun id =>
      if s.grave.has id then none else (s.adds.get? id).map (id, ·)).map Prod.fst =
        ids.filter fun id => !s.grave.has id := by
    induction ids with
    | nil => rfl
    | cons id ids ih =>
      obtain ⟨r, hr⟩ := SortedMap.mem_keys_iff.mp (hids id List.mem_cons_self)
      have ih := ih fun i hi => hids i (List.mem_cons_of_mem _ hi)
      rw [List.filterMap_cons, List.filter_cons, ← ih, hr]
      cases s.grave.has id <;> rfl
  rw [readIds, hentries, ← hfst _ fun id hid => ((timestampFold_spec h).2 id).mp hid]
  rfl

/-! ### Merges of honest states -/

theorem get?_unionAdds (a b : SortedMap ℕ (Added α)) (id : ℕ) :
    (unionAdds a b).get? id = (b.get? id).or (a.get? id) := by
  obtain ⟨hin, hout⟩ := SortedMap.get?_foldl_insert Prod.snd b.nodup_keys a
  rw [unionAdds]
  cases hb : b.get? id with
  | none =>
    refine (hout id fun hid => ?_).trans (Option.none_or ..).symm
    obtain ⟨r, hr⟩ := SortedMap.mem_keys_iff.mp hid
    rw [hb] at hr
    cases hr
  | some r => exact hin (id, r) (SortedMap.mem_entries_iff.mpr hb)

theorem Represents.anchorClosed {χ : ℕ → List ℕ} {ε : ℕ → α} {U E : Set (SeqOp α)} {D : Set ℕ}
    {s : State α} (h : Represents χ ε (inserted E) D s) (hU : Births χ ε U) (hE : E ⊆ U)
    (hclosed : Closed E) : AnchorClosed s.adds := by
  have hforest := h.forest hU (inserted_mono hE) fun id hid p a hp =>
    hclosed.mem_of_prefix hU hE hid hp
  intro id r a hr ha
  obtain ⟨hid, rfl⟩ := (h.adds id r).mp hr
  obtain ⟨haI, hlt⟩ := hforest.anchored id hid a ha
  exact ⟨by rwa [SortedMap.mem_keys_iff_has, h.has_adds_iff], hlt⟩

section Honest

variable [DecidableEq α] {U A B : Set (SeqOp α)} {a b : State α}

/-- The insertions of honest states are merged to their union. -/
theorem exists_mergeAdds (hU : HonestInserts U) (ha : HonestState (rga α) (fun op => op) U A a)
    (hb : HonestState (rga α) (fun op => op) U B b) :
    ∃ adds, mergeAdds a.adds b.adds.entries a.adds = .ok adds ∧
      adds = unionAdds a.adds b.adds ∧ AnchorClosed adds := by
  rcases isEmpty_or_nonempty α with hα | hα
  · -- Without elements there is no insertion.
    have hnil (s : State α) : s.adds.entries = [] :=
      List.eq_nil_iff_forall_not_mem.mpr fun e _ => isEmptyElim e.2.el
    refine ⟨a.adds, ?_, ?_, fun _ r => isEmptyElim r.el⟩
    · rw [hnil b, mergeAdds]
    · rw [unionAdds, hnil b, List.foldl_nil]
  · have : Inhabited α := Classical.inhabited_of_nonempty hα
    obtain ⟨χ, ε, hbirths⟩ := hU.exists_births
    have hra := ha.rep implementsSeq_rga hbirths
    have hrb := hb.rep implementsSeq_rga hbirths
    obtain ⟨adds, hadds, hget⟩ := Represents.mergeAdds_spec hra.adds b.adds.entries
      (fun e he => (hrb.adds e.1 e.2).mp (SortedMap.mem_entries_iff.mp he)) hra.adds subset_rfl
    have hget (id : ℕ) (r : Added α) : adds.get? id = some r ↔
        id ∈ inserted (A ∪ B) ∧ r = ⟨anchorOf χ id, ε id⟩ := by
      have hkeys : id ∈ b.adds.entries.map Prod.fst ↔ id ∈ inserted B := by
        rw [← hrb.has_adds_iff, ← SortedMap.mem_keys_iff_has, SortedMap.keys]
      rw [hget, hkeys, inserted_union, Set.mem_union]
    have hrep : Represents χ ε (inserted (A ∪ B)) ∅ ⟨adds, SortedMap.empty, none⟩ :=
      ⟨hget, fun id => by simp [SortedMap.has], rfl⟩
    refine ⟨adds, hadds, SortedMap.ext_get? fun id => Option.ext fun r => ?_,
      hrep.anchorClosed hbirths (Set.union_subset ha.subset hb.subset) (ha.closed.union hb.closed)⟩
    rw [hget, get?_unionAdds, Option.or_eq_some_iff, hra.adds, hrb.adds, inserted_union,
      Set.mem_union, ← SortedMap.has_eq_false_iff, ← Bool.not_eq_true, hrb.has_adds_iff]
    tauto

/-- **The read of a merge** is the fold over the union of the insertions, without the union of the
graves. -/
theorem readIds_merge3 (hU : HonestInserts U) (ha : HonestState (rga α) (fun op => op) U A a)
    (hb : HonestState (rga α) (fun op => op) U B b) (l : State α) :
    ∃ m, merge3 l a b = .ok m ∧ readIds m = .ok ((timestampFold (unionAdds a.adds b.adds)).filter
      fun id => !(a.grave.has id || b.grave.has id)) := by
  obtain ⟨adds, hadds, rfl, hclosed⟩ := exists_mergeAdds hU ha hb
  refine ⟨⟨_, mergeGrave a.grave b.grave, none⟩, by rw [merge3, hadds]; rfl, ?_⟩
  rw [readIds_of_anchorClosed hclosed rfl]
  congr
  funext id
  rw [Bool.eq_iff_iff, Bool.not_eq_true', Bool.not_eq_true', ← Bool.not_eq_true,
    ← Bool.not_eq_true, Represents.has_mergeGrave, Bool.or_eq_true]

end Honest

/-- **The walk is the timestamp fold**, on all closed insertions; and the read of a merge of honest
states is the fold over the union of the insertions without the union of the graves. -/
theorem walk_eq_timestampFold [DecidableEq α] :
    (∀ adds : SortedMap ℕ (Added α), AnchorClosed adds →
      orderedIds adds = .ok (timestampFold adds)) ∧
    ∀ (U A B : Set (SeqOp α)) (l a b : State α), HonestInserts U →
      HonestState (rga α) (fun op => op) U A a → HonestState (rga α) (fun op => op) U B b →
      ∃ m, merge3 l a b = .ok m ∧ readIds m = .ok ((timestampFold (unionAdds a.adds b.adds)).filter
        fun id => !(a.grave.has id || b.grave.has id)) :=
  ⟨fun _ h => orderedIds_of_anchorClosed h, fun _ _ _ l _ _ hU ha hb => readIds_merge3 hU ha hb l⟩

/-- Two replies to one character and a deletion, merged. -/
theorem walk_eq_timestampFold_replies : ∃ m,
    merge3 init ⟨.ofList [(1, ⟨none, 'a'⟩), (2, ⟨some 1, 'b'⟩)], .ofList [(1, ())], none⟩
      ⟨.ofList [(1, ⟨none, 'a'⟩), (3, ⟨some 1, 'c'⟩)], .empty, none⟩ = .ok m ∧
    readIds m = .ok [3, 2] := by
  have hU : HonestInserts ({.ins 1 'a' none, .ins 2 'b' (some 1), .ins 3 'c' (some 1), .del 1} :
      Set (SeqOp Char)) := by
    refine ⟨?_, ?_, ?_⟩
    · rintro id el a el' a' h h'
      simp only [Set.mem_insert_iff, SeqOp.ins.injEq, Set.mem_singleton_iff, reduceCtorEq,
        or_false] at h h'
      grind
    · rintro id el a h
      simp only [Set.mem_insert_iff, SeqOp.ins.injEq, Set.mem_singleton_iff, reduceCtorEq,
        or_false] at h
      refine ⟨⟨'a', none, ?_⟩, by grind⟩
      simp only [Set.mem_insert_iff, SeqOp.ins.injEq]
      grind
    · rintro id ⟨el, a, h⟩
      simp only [Set.mem_insert_iff, SeqOp.ins.injEq, Set.mem_singleton_iff, reduceCtorEq,
        or_false] at h
      grind
  have h1 := (HonestState.init : HonestState (rga Char) (fun op => op)
    {.ins 1 'a' none, .ins 2 'b' (some 1), .ins 3 'c' (some 1), .del 1} ∅ _).apply
    (show SeqOp.ins 1 'a' none ∈ _ by simp) (by simp [Applicable, inserted]) rfl
  have h2 := h1.apply (show SeqOp.ins 2 'b' (some 1) ∈ _ by simp)
    (by simp [Applicable, inserted, live, deleted]) rfl
  have h3 := h2.apply (show SeqOp.del 1 ∈ _ by simp)
    (by simp [Applicable, inserted, live, deleted]) rfl
  have h2' := h1.apply (show SeqOp.ins 3 'c' (some 1) ∈ _ by simp)
    (by simp [Applicable, inserted, live, deleted]) rfl
  exact walk_eq_timestampFold.2 _ _ _ init _ _ hU h3 h2'

end SalRuntime.Rga
