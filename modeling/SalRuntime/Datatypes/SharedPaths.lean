import SalRuntime.Datatypes.Meanings
import SalRuntime.Datatypes.SharedEmbedRGA

/-!
# The prefix-sharing kernel implements event sets

Without compaction, the node of a record spells the chain of anchors of its id. So the states of the
prefix-sharing kernel stand for sets of operations, as those of the embedded-chain RGA do, and have the
absolute coordinates of the embedded-chain RGA.

## Main definitions

* `SharedEmbedRGA.pathOf` — the node of a chain.
* `SharedEmbedRGA.Represents` — a state holds exactly the given live ids, on the nodes of their chains.
* `sharedMeaning` — the meaning of the kernel.

## Main results

* `SharedEmbedRGA.Represents.woven`, `SharedEmbedRGA.Represents.absolute` — represented states read what
  the states with absolute coordinates read.
* `implementsSeq_sharedEmbedRGA` — the kernel implements event sets.
-/

namespace SalRuntime

variable {α : Type}

/-! ### Births among the operations of a state -/

namespace Births

variable {χ χ' : ℕ → List ℕ} {ε ε' : ℕ → α} {E U : Set (SeqOp α)}

/-- Only the chains and elements of inserted ids matter. -/
theorem congr (h : Births χ ε E) (heq : ∀ id ∈ inserted E, χ id = χ' id ∧ ε id = ε' id) :
    Births χ' ε' E where
  el id el a hmem := (heq id ⟨el, a, hmem⟩).2.symm.trans (h.el id el a hmem)
  chain id el a hmem := by
    rw [← (heq id ⟨el, a, hmem⟩).1, h.chain id el a hmem]
    cases a with
    | none => rfl
    | some a => rw [anchorChain, anchorChain, (heq a (h.anchored id el a hmem)).1]
  anchored := h.anchored
  increasing id hid := (heq id hid).1 ▸ h.increasing id hid

theorem union (h : Births χ ε E) (h' : Births χ ε U) : Births χ ε (E ∪ U) where
  el id el a hmem := hmem.elim (h.el id el a) (h'.el id el a)
  chain id el a hmem := hmem.elim (h.chain id el a) (h'.chain id el a)
  anchored id el a hmem := by
    rw [inserted_union]
    exact hmem.imp (h.anchored id el a) (h'.anchored id el a)
  increasing id hid := by
    rw [inserted_union] at hid
    exact hid.elim (h.increasing id) (h'.increasing id)

/-- An operation applied to what its author has seen. -/
theorem applied (h : Births χ ε E) (hU : Births χ ε U) {op : SeqOp α} (hop : op ∈ U)
    (happ : Applicable E op) : Births χ ε (insert op E) := by
  cases op with
  | del id => exact h.insert_del id
  | ins id el anchorId =>
    refine ⟨fun i el' a hmem => ?_, fun i el' a hmem => ?_, fun i el' a hmem => ?_, fun i hi => ?_⟩
    · rcases hmem with hmem | hmem
      · cases hmem
        exact hU.el id el anchorId hop
      · exact h.el i el' a hmem
    · rcases hmem with hmem | hmem
      · cases hmem
        exact hU.chain id el anchorId hop
      · exact h.chain i el' a hmem
    · rw [inserted_insert_ins]
      rcases hmem with hmem | hmem
      · cases hmem
        exact Or.inr (happ.2.2 a rfl).1.1
      · exact Or.inr (h.anchored i el' a hmem)
    · rw [inserted_insert_ins] at hi
      rcases hi with rfl | hi
      · exact hU.increasing i ⟨el, anchorId, hop⟩
      · exact h.increasing i hi

end Births

namespace SharedEmbedRGA

/-! ### The node of a chain -/

/-- The node of an insertion below a node. -/
def child (parent : PathNode) (id : ℕ) : PathNode :=
  .node parent (id - parent.birthId.getD 0) id (some id) (some (parent.birthId.getD 0))

/-- The node of a chain. -/
def pathOf (c : List ℕ) : PathNode := c.foldl child .null

theorem pathOf_concat (c : List ℕ) (id : ℕ) : pathOf (c ++ [id]) = child (pathOf c) id := by
  rw [pathOf, List.foldl_append]
  rfl

theorem birthId_pathOf (c : List ℕ) : (pathOf c).birthId.getD 0 = c.getLastD 0 := by
  rcases List.eq_nil_or_concat c with rfl | ⟨d, id, rfl⟩
  · rfl
  · rw [List.concat_eq_append, pathOf_concat, List.getLastD_concat]
    rfl

/-- The node of a chain with its last id. -/
theorem pathOf_eq (c : List ℕ) (id : ℕ) : pathOf (c ++ [id]) =
    .node (pathOf c) (mintLabel (c ++ [id])) id (some id) (some (c.getLastD 0)) := by
  rw [pathOf_concat, child, birthId_pathOf, mintLabel_concat]

/-- The coordinate of a node spells the chain. -/
theorem coordOf_pathOf (c : List ℕ) : coordOf (pathOf c) = spell dEnc mintLabel c := by
  induction c using List.reverseRecOn with
  | nil => rfl
  | append_singleton c id ih =>
    rw [spell_concat, ← ih, pathOf_eq, coordOf, coordOf, PathNode.deltas, List.flatMap_append,
      List.flatMap_singleton]

theorem mem_ancestors_pathOf {c : List ℕ} {n : PathNode} (h : n ∈ (pathOf c).ancestors) :
    ∃ d id, d ++ [id] <+: c ∧ n = pathOf (d ++ [id]) := by
  induction c using List.reverseRecOn with
  | nil => cases h
  | append_singleton c id ih =>
    rw [pathOf_eq] at h
    rcases List.mem_cons.mp h with rfl | h
    · exact ⟨c, id, List.prefix_refl _, (pathOf_eq c id).symm⟩
    · obtain ⟨d, i, hd, rfl⟩ := ih h
      exact ⟨d, i, hd.trans (List.prefix_append _ _), rfl⟩

/-! ### States that represent a set of live ids -/

/-- The record of an id with the given chain and element. -/
def recordOf (χ : ℕ → List ℕ) (ε : ℕ → α) (id : ℕ) : Rec α := { path := pathOf (χ id), el := ε id }

/-- The state holds exactly the ids of `L`, each on the node of its chain, with its element. -/
def Represents (χ : ℕ → List ℕ) (ε : ℕ → α) (L : Set ℕ) (s : State α) : Prop :=
  ∀ id r, s.get? id = some r ↔ id ∈ L ∧ r = recordOf χ ε id

namespace Represents

variable {χ : ℕ → List ℕ} {ε : ℕ → α} {L : Set ℕ} {s : State α}

theorem has_iff (h : Represents χ ε L s) {id : ℕ} : s.has id = true ↔ id ∈ L := by
  simp only [SortedMap.has_iff, h id]
  exact ⟨fun ⟨_, hid, _⟩ => hid, fun hid => ⟨_, hid, rfl⟩⟩

theorem get?_eq (h : Represents χ ε L s) {id : ℕ} (hid : id ∈ L) :
    s.get? id = some (recordOf χ ε id) := (h id _).mpr ⟨hid, rfl⟩

theorem get?_eq_none (h : Represents χ ε L s) {id : ℕ} (hid : id ∉ L) : s.get? id = none := by
  rw [← SortedMap.has_eq_false_iff, ← Bool.not_eq_true, h.has_iff]
  exact hid

theorem of_get? (hmem : ∀ id ∈ L, s.get? id = some (recordOf χ ε id))
    (hnot : ∀ id ∉ L, s.get? id = none) : Represents χ ε L s := by
  intro id r
  by_cases hid : id ∈ L
  · simp [hmem id hid, hid, eq_comm]
  · simp [hnot id hid, hid]

/-- The state is determined by what it represents. -/
theorem eq {s' : State α} (h : Represents χ ε L s) (h' : Represents χ ε L s') : s = s' :=
  SortedMap.ext_get? fun id => by
    ext r
    rw [h, h']

/-- **The absolute coordinates** are those of the embedded-chain RGA. -/
theorem absolute (h : Represents χ ε L s) :
    EmbedRGA.Represents mintLabel χ ε L (sharedToAbsolute s) := by
  have habsolute (id : ℕ) :
      (recordOf χ ε id).absolute = EmbedRGA.recordOf mintLabel χ ε id := by
    rw [Rec.absolute, recordOf, coordOf_pathOf, EmbedRGA.recordOf]
  refine EmbedRGA.Represents.of_get? (fun id hid => ?_) fun id hid => ?_
  · rw [sharedToAbsolute, SortedMap.get?_mapVal, h.get?_eq hid, Option.map_some, habsolute]
  · rw [sharedToAbsolute, SortedMap.get?_mapVal, h.get?_eq_none hid]
    rfl

/-- **Inserting** a fresh id after a live anchor. -/
theorem apply_ins (h : Represents χ ε L s) {id : ℕ} {el : α} {anchorId : Option ℕ}
    (hid : id ∉ L) (hanchor : ∀ a, anchorId = some a → a ∈ L ∧ a < id) (hpos : 0 < id)
    (hχ : χ id = anchorChain χ anchorId ++ [id])
    (hlast : (anchorChain χ anchorId).getLastD 0 = anchorId.getD 0) (hε : ε id = el) :
    ∃ s', apply s (.ins id el anchorId) = .ok s' ∧ Represents χ ε (insert id L) s' := by
  have hhas : s.has id = false := by
    rw [← Bool.not_eq_true, h.has_iff]
    exact hid
  have hrec : insRecord s id el anchorId = .ok (recordOf χ ε id) := by
    have hrecord : recordOf χ ε id = ⟨.node (pathOf (anchorChain χ anchorId))
        (id - anchorId.getD 0) id (some id) (some (anchorId.getD 0)), el⟩ := by
      rw [recordOf, hχ, pathOf_eq, mintLabel_concat, hlast, hε]
    rw [hrecord]
    cases anchorId with
    | none =>
      have hge : ¬ (id : ℤ) < 1 := by omega
      simp [insRecord, hhas, hge, anchorChain, pathOf, bind, Except.bind, pure, Except.pure]
    | some a =>
      obtain ⟨ha, hlt⟩ := hanchor a rfl
      have hge : ¬ (id : ℤ) - a < 1 := by omega
      simp [insRecord, hhas, hge, h.get?_eq ha, anchorChain, recordOf, bind, Except.bind, pure,
        Except.pure]
  refine ⟨s.insert id (recordOf χ ε id), by rw [apply, hrec]; rfl,
    of_get? (fun i hi => ?_) fun i hi => ?_⟩
  · rw [SortedMap.get?_insert]
    split_ifs with heq
    · rw [heq]
    · exact h.get?_eq (hi.resolve_left heq)
  · rw [Set.mem_insert_iff, not_or] at hi
    rw [SortedMap.get?_insert_of_ne _ _ hi.1, h.get?_eq_none hi.2]

/-- **Deleting** an id. -/
theorem apply_del (h : Represents χ ε L s) (id : ℕ) :
    ∃ s', apply s (.del id) = .ok s' ∧ Represents χ ε (L \ {id}) s' := by
  refine ⟨s.erase id, rfl, of_get? (fun i hi => ?_) fun i hi => ?_⟩
  · rw [SortedMap.get?_erase, if_neg (by simpa using hi.2), h.get?_eq hi.1]
  · rw [SortedMap.get?_erase]
    split_ifs with heq
    · rfl
    · exact h.get?_eq_none fun hL => hi ⟨hL, heq⟩

section Births

variable {E : Set (SeqOp α)} (hE : Births χ ε E) (hL : L ⊆ inserted E)

include hE hL

/-- The retained nodes are the nodes of chains of inserted ids. -/
theorem exists_of_retained (h : Represents χ ε L s) {n : PathNode} (hn : Retained s n) :
    ∃ a ∈ inserted E, n = pathOf (χ a) := by
  obtain ⟨id, r, hr, hnr⟩ := hn
  obtain ⟨hid, rfl⟩ := (h id r).mp hr
  obtain ⟨d, a, hd, rfl⟩ := mem_ancestors_pathOf hnr
  obtain ⟨ha, hχ⟩ := hE.prefix_eq (hL hid) hd
  exact ⟨a, ha, by rw [hχ]⟩

omit hL in
theorem pathOf_chain {a : ℕ} (ha : a ∈ inserted E) : ∃ d, χ a = d ++ [a] ∧
    pathOf (χ a) = .node (pathOf d) (mintLabel (χ a)) a (some a) (some (d.getLastD 0)) := by
  obtain ⟨d, hd⟩ := hE.chain_eq ha
  exact ⟨d, hd, by rw [hd, pathOf_eq]⟩

/-- **Represented states are woven.** -/
theorem woven (h : Represents χ ε L s) : Woven s := by
  have hnode (id : ℕ) (r : Rec α) (hr : s.get? id = some r) : r.path ≠ .null ∧ r.path.id = id := by
    obtain ⟨hid, rfl⟩ := (h id r).mp hr
    obtain ⟨d, -, hd⟩ := pathOf_chain hE (hL hid)
    rw [recordOf, hd]
    exact ⟨PathNode.noConfusion, rfl⟩
  refine ⟨fun id r hr => (hnode id r hr).1, fun id r hr => (hnode id r hr).2,
    fun m n hm hn heq => ?_, fun m n hm hn heq => ?_, fun n hn => ?_⟩
  · obtain ⟨a, ha, rfl⟩ := h.exists_of_retained hE hL hm
    obtain ⟨b, hb, rfl⟩ := h.exists_of_retained hE hL hn
    obtain ⟨_, _, ha'⟩ := pathOf_chain hE ha
    obtain ⟨_, _, hb'⟩ := pathOf_chain hE hb
    rw [ha', hb'] at heq
    rw [Nat.cast_injective (R := ℤ) heq]
  · obtain ⟨a, ha, rfl⟩ := h.exists_of_retained hE hL hm
    obtain ⟨b, hb, rfl⟩ := h.exists_of_retained hE hL hn
    -- Equal distances spell equal coordinates, and these tell chains apart.
    have hcoord : coordOf (pathOf (χ a)) = coordOf (pathOf (χ b)) := by
      rw [coordOf, coordOf, heq]
    rw [coordOf_pathOf, coordOf_pathOf] at hcoord
    rw [spell_injective orderedPrefixCode_dEnc siblingMono_mintLabel (hE.mem_increasingChains ha)
      (hE.mem_increasingChains hb) hcoord]
  · obtain ⟨a, ha, rfl⟩ := h.exists_of_retained hE hL hn
    obtain ⟨d, hd, ha'⟩ := pathOf_chain hE ha
    rw [ha']
    exact siblingMono_mintLabel.pos (χ a) (hE.mem_increasingChains ha) (by rw [hd]; simp)

end Births

/-- **Merging.** Of the base only the ids matter. -/
theorem merge3 {l a b : State α} {A B : Set ℕ} {E : Set (SeqOp α)} (hE : Births χ ε E)
    (hA : A ⊆ inserted E) (hB : B ⊆ inserted E) (hl : ∀ id, l.has id = true ↔ id ∈ L)
    (ha : Represents χ ε A a) (hb : Represents χ ε B b) :
    ∃ m, SharedEmbedRGA.merge3 l a b = .ok m ∧ Represents χ ε (mergeLive L A B) m := by
  obtain ⟨m, hm, hget⟩ := merge3_eq_ok (l := l) (K := {n | ∃ i ∈ inserted E, n = pathOf (χ i)})
    (fun m hm n hn heq _ => by
      obtain ⟨i, hi, rfl⟩ := hm
      obtain ⟨j, hj, rfl⟩ := hn
      obtain ⟨_, _, hi'⟩ := pathOf_chain hE hi
      obtain ⟨_, _, hj'⟩ := pathOf_chain hE hj
      rw [hi', hj'] at heq
      rw [Option.some.inj heq])
    (fun n hn => ha.exists_of_retained hE hA hn) (fun n hn => hb.exists_of_retained hE hB hn)
    fun id ra rb hra hrb => by
      rw [((ha id ra).mp hra).2, ((hb id rb).mp hrb).2]
      exact ⟨rfl, rfl⟩
  have hbf {id : ℕ} : b.has id = false ↔ id ∉ B := by
    rw [← Bool.not_eq_true, hb.has_iff]
  refine ⟨m, hm, of_get? (fun id hid => ?_) fun id hid => ?_⟩
  · simp only [mergeLive, Set.mem_union, Set.mem_inter_iff, Set.mem_sdiff] at hid
    rw [hget]
    by_cases hA : id ∈ A
    · rw [if_pos (ha.has_iff.mpr hA), if_neg (by rw [hl, hbf]; tauto), ha.get?_eq hA]
    · rw [if_neg (by rwa [ha.has_iff]), if_neg (by rw [hl]; tauto), hb.get?_eq (by tauto)]
  · simp only [mergeLive, Set.mem_union, Set.mem_inter_iff, Set.mem_sdiff] at hid
    rw [hget]
    by_cases hA : id ∈ A
    · rw [if_pos (ha.has_iff.mpr hA), if_pos (by rw [hl, hbf]; tauto)]
    · rw [if_neg (by rwa [ha.has_iff])]
      by_cases hL : id ∈ L
      · rw [if_pos ((hl id).mpr hL)]
      · rw [if_neg (by rwa [hl]), hb.get?_eq_none (by tauto)]

end Represents

end SharedEmbedRGA

/-- What a state of the prefix-sharing kernel stands for: the operations have chains and elements, and the
state holds the live ids. -/
def SharedRep (χ : ℕ → List ℕ) (ε : ℕ → α) (E : Set (SeqOp α)) (s : SharedEmbedRGA.State α) : Prop :=
  Births χ ε E ∧ SharedEmbedRGA.Represents χ ε (live E) s

/-- **The prefix-sharing kernel implements event sets.** -/
theorem implementsSeq_sharedEmbedRGA [DecidableEq α] :
    ImplementsSeq (sharedEmbedRGA α) (fun op => op) SharedRep where
  congr := by
    rintro χ ε χ' ε' E s heq ⟨hE, hrep⟩
    refine ⟨hE.congr heq, SharedEmbedRGA.Represents.of_get? (fun id hid => ?_)
      fun id hid => hrep.get?_eq_none hid⟩
    rw [hrep.get?_eq hid, SharedEmbedRGA.recordOf, SharedEmbedRGA.recordOf, (heq id hid.1).1,
      (heq id hid.1).2]
  init := by
    refine fun {χ ε} => ⟨⟨by simp, by simp, by simp, by simp [inserted]⟩, ?_⟩
    exact SharedEmbedRGA.Represents.of_get? (fun id hid => by simp [live, inserted] at hid)
      fun _ _ => SortedMap.get?_empty _
  apply := by
    rintro χ ε U E s op hU hE hdel hop happ ⟨hbirths, hrep⟩
    have hbirths' := hbirths.applied hU hop happ
    cases op with
    | ins id el anchorId =>
      obtain ⟨hid, hpos, hanchor⟩ := happ
      have hlast : (anchorChain χ anchorId).getLastD 0 = anchorId.getD 0 := by
        cases anchorId with
        | none => rfl
        | some a =>
          obtain ⟨d, hd⟩ := hbirths.chain_eq (hanchor a rfl).1.1
          rw [anchorChain, hd, List.getLastD_concat, Option.getD_some]
      obtain ⟨s', hs', hrep'⟩ := hrep.apply_ins (fun h => hid h.1) hanchor hpos
        (hU.chain id el anchorId hop) hlast (hU.el id el anchorId hop)
      exact ⟨s', rfl, hs', hbirths', (live_insert_ins hdel hid).symm ▸ hrep'⟩
    | del id =>
      obtain ⟨s', hs', hrep'⟩ := hrep.apply_del id
      exact ⟨s', rfl, hs', hbirths', live_insert_del.symm ▸ hrep'⟩
  merge := by
    rintro χ ε L A B l a b hm ⟨-, hl⟩ ⟨hbirths, ha⟩ ⟨hbirths', hb⟩
    have hunion := hbirths.union hbirths'
    have hsub : live A ⊆ inserted (A ∪ B) := fun id hid => by
      rw [inserted_union]
      exact Or.inl hid.1
    have hsub' : live B ⊆ inserted (A ∪ B) := fun id hid => by
      rw [inserted_union]
      exact Or.inr hid.1
    obtain ⟨m, hmerge, hrep⟩ := ha.merge3 hunion hsub hsub' (fun id => hl.has_iff) hb
    refine ⟨m, hmerge, hunion, ?_⟩
    rwa [live_eq_mergeLive hm.inserted_eq hm.deleted_subset hm.left hm.right] at hrep

theorem SharedRep.eq {χ : ℕ → List ℕ} {ε : ℕ → α} {E : Set (SeqOp α)} {s s' : SharedEmbedRGA.State α}
    (h : SharedRep χ ε E s) (h' : SharedRep χ ε E s') : s = s' := h.2.eq h'.2

/-- The meaning of the prefix-sharing kernel. -/
def sharedMeaning (α : Type) [DecidableEq α] [Inhabited α] :
    (sharedEmbedRGA α).replicated.Meaning ((ℕ → List ℕ) × (ℕ → α)) ℕ :=
  implementsSeq_sharedEmbedRGA.meaning SharedRep.eq

end SalRuntime
