import Mathlib.Data.Set.Insert
import Mathlib.Data.List.Pairwise
import Mathlib.Logic.Equiv.List
import Mathlib.Order.Basic
import Mathlib.Tactic.DeriveCountable
import SalRuntime.Foundations.PrefixCode

/-!
# Sequence operations and their meaning as event sets

The operations of the sequence datatypes insert an element under a fresh id after an anchor, or
delete an id. A set of operations determines which ids are live, and every inserted id has a
chain: the anchors from the root to the id.

## Main definitions

* `SeqOp` — the operations.
* `inserted`, `deleted`, `live` — the ids a set of operations inserts, deletes and leaves.
* `Births` — chains and elements that agree with the insertions of a set of operations.
* `mergeLive` — the live ids of a three-way merge.

## Main results

* `live_eq_mergeLive` — the three-way merge of the live ids of two event sets over the live ids of
  their intersection is the set of live ids of their union.
* `Births.insert` — chains extend to a fresh insertion.
-/

namespace SalRuntime

variable {α : Type}

/-- An operation of a sequence datatype. -/
inductive SeqOp (α : Type)
  /-- Insert an element under an id, after an anchor or at the root. -/
  | ins (id : ℕ) (el : α) (anchorId : Option ℕ)
  /-- Delete an id. -/
  | del (id : ℕ)
  deriving DecidableEq, Repr, Countable

/-- The id of an insertion. -/
def SeqOp.insId : SeqOp α → Option ℕ
  | .ins id _ _ => some id
  | .del _ => none

/-- The ids that a set of operations inserts. -/
def inserted (E : Set (SeqOp α)) : Set ℕ := {id | ∃ el a, SeqOp.ins id el a ∈ E}

/-- The ids that a set of operations deletes. -/
def deleted (E : Set (SeqOp α)) : Set ℕ := {id | SeqOp.del id ∈ E}

/-- The ids that a set of operations inserts and does not delete. -/
def live (E : Set (SeqOp α)) : Set ℕ := inserted E \ deleted E

/-- The live ids of a three-way merge: those on both sides, and those that a side has and the base
does not. -/
def mergeLive (L A B : Set ℕ) : Set ℕ := A ∩ B ∪ A \ L ∪ B \ L

/-- A merge over the empty base keeps all ids. -/
theorem mergeLive_empty (A B : Set ℕ) : mergeLive ∅ A B = A ∪ B := by
  rw [mergeLive, Set.sdiff_empty, Set.sdiff_empty,
    Set.union_eq_self_of_subset_left Set.inter_subset_left]

theorem inserted_mono {E E' : Set (SeqOp α)} (h : E ⊆ E') : inserted E ⊆ inserted E' :=
  fun _ ⟨el, a, hmem⟩ => ⟨el, a, h hmem⟩

theorem deleted_mono {E E' : Set (SeqOp α)} (h : E ⊆ E') : deleted E ⊆ deleted E' :=
  fun _ hmem => h hmem

theorem inserted_union (E E' : Set (SeqOp α)) : inserted (E ∪ E') = inserted E ∪ inserted E' := by
  ext id
  simp only [inserted, Set.mem_union, Set.mem_ofPred_eq]
  constructor
  · rintro ⟨el, a, h | h⟩
    · exact Or.inl ⟨el, a, h⟩
    · exact Or.inr ⟨el, a, h⟩
  · rintro (⟨el, a, h⟩ | ⟨el, a, h⟩)
    · exact ⟨el, a, Or.inl h⟩
    · exact ⟨el, a, Or.inr h⟩

theorem deleted_union (E E' : Set (SeqOp α)) : deleted (E ∪ E') = deleted E ∪ deleted E' := rfl

theorem inserted_insert_ins (E : Set (SeqOp α)) (id : ℕ) (el : α) (a : Option ℕ) :
    inserted (insert (.ins id el a) E) = insert id (inserted E) := by
  ext i
  simp only [inserted, Set.mem_insert_iff, Set.mem_ofPred_eq, SeqOp.ins.injEq]
  constructor
  · rintro ⟨el', a', ⟨rfl, -, -⟩ | h⟩
    · exact Or.inl rfl
    · exact Or.inr ⟨el', a', h⟩
  · rintro (rfl | ⟨el', a', h⟩)
    · exact ⟨el, a, Or.inl ⟨rfl, rfl, rfl⟩⟩
    · exact ⟨el', a', Or.inr h⟩

theorem inserted_insert_del (E : Set (SeqOp α)) (id : ℕ) :
    inserted (insert (.del id) E) = inserted E := by
  ext i
  simp [inserted]

theorem deleted_insert_ins (E : Set (SeqOp α)) (id : ℕ) (el : α) (a : Option ℕ) :
    deleted (insert (.ins id el a) E) = deleted E := by
  ext i
  simp [deleted]

theorem deleted_insert_del (E : Set (SeqOp α)) (id : ℕ) :
    deleted (insert (.del id) E) = insert id (deleted E) := by
  ext i
  simp [deleted]

/-- **Three-way merge of live ids.** Let the base have exactly the insertions common to both
sides, and no deletion that one of them lacks. Then the merge of the live ids is the set of live
ids of the union. -/
theorem live_eq_mergeLive {L A B : Set (SeqOp α)} (hins : inserted L = inserted A ∩ inserted B)
    (hdel : deleted L ⊆ deleted A ∩ deleted B) (hA : deleted A ⊆ inserted A)
    (hB : deleted B ⊆ inserted B) : mergeLive (live L) (live A) (live B) = live (A ∪ B) := by
  ext id
  simp only [mergeLive, live, Set.mem_union, Set.mem_inter_iff, Set.mem_sdiff, inserted_union,
    deleted_union, hins]
  have hdA : id ∈ deleted L → id ∈ deleted A := fun h => (hdel h).1
  have hdB : id ∈ deleted L → id ∈ deleted B := fun h => (hdel h).2
  have hiA : id ∈ deleted A → id ∈ inserted A := fun h => hA h
  have hiB : id ∈ deleted B → id ∈ inserted B := fun h => hB h
  grind

/-! ### Chains -/

/-- The chain below which an insertion after an anchor is made. -/
def anchorChain (χ : ℕ → List ℕ) : Option ℕ → List ℕ
  | none => []
  | some a => χ a

/-- Chains of increasing ids extend by a larger id. -/
theorem increasing_concat {p : List ℕ} {a id : ℕ} (h : (0 :: (p ++ [a])).Pairwise (· < ·))
    (hlt : a < id) : (0 :: (p ++ [a] ++ [id])).Pairwise (· < ·) := by
  rw [← List.cons_append, List.pairwise_append]
  refine ⟨h, List.pairwise_singleton _ _, fun x hx y hy => ?_⟩
  rw [List.mem_singleton.mp hy]
  rw [← List.cons_append, List.pairwise_append] at h
  rw [← List.cons_append, List.mem_append] at hx
  rcases hx with hx | hx
  · exact (h.2.2 x hx a (by simp)).trans hlt
  · exact List.mem_singleton.mp hx ▸ hlt

/-- The chains `χ` and elements `ε` agree with the insertions of `U`: the chain of an id is that of
its anchor, extended by the id, and ids increase along chains. -/
structure Births (χ : ℕ → List ℕ) (ε : ℕ → α) (U : Set (SeqOp α)) : Prop where
  /-- The element of an inserted id. -/
  el : ∀ id el a, SeqOp.ins id el a ∈ U → ε id = el
  /-- The chain of an inserted id. -/
  chain : ∀ id el a, SeqOp.ins id el a ∈ U → χ id = anchorChain χ a ++ [id]
  /-- Anchors are inserted ids. -/
  anchored : ∀ id el a, SeqOp.ins id el (some a) ∈ U → a ∈ inserted U
  /-- Ids are positive and increase along chains. -/
  increasing : ∀ id ∈ inserted U, (0 :: χ id).Pairwise (· < ·)

namespace Births

variable {χ : ℕ → List ℕ} {ε : ℕ → α} {U : Set (SeqOp α)}

theorem empty : Births (fun _ => []) ε (∅ : Set (SeqOp α)) :=
  ⟨by simp, by simp, by simp, by simp [inserted]⟩

theorem chain_eq (h : Births χ ε U) {id : ℕ} (hid : id ∈ inserted U) : ∃ p, χ id = p ++ [id] := by
  obtain ⟨el, a, hmem⟩ := hid
  exact ⟨_, h.chain id el a hmem⟩

theorem injOn (h : Births χ ε U) : Set.InjOn χ (inserted U) := by
  intro i hi j hj hij
  obtain ⟨p, hp⟩ := h.chain_eq hi
  obtain ⟨q, hq⟩ := h.chain_eq hj
  rw [hp, hq] at hij
  exact (List.append_inj' hij rfl).2 |> List.singleton_inj.mp

theorem pos (h : Births χ ε U) {id : ℕ} (hid : id ∈ inserted U) : 0 < id := by
  obtain ⟨p, hp⟩ := h.chain_eq hid
  have := h.increasing id hid
  rw [hp] at this
  exact List.rel_of_pairwise_cons this (by simp)

/-- Anchors are smaller than the ids inserted after them. -/
theorem anchor_lt (h : Births χ ε U) {id a : ℕ} {el : α} (hmem : SeqOp.ins id el (some a) ∈ U) :
    a < id := by
  obtain ⟨q, hq⟩ := h.chain_eq (h.anchored id el a hmem)
  have hinc := h.increasing id ⟨el, some a, hmem⟩
  rw [h.chain id el _ hmem, anchorChain, hq] at hinc
  have := (List.pairwise_append.mp (List.pairwise_cons.mp hinc).2).2.2
  exact this a (by simp) id (by simp)

/-- The ids of a chain are inserted, and every prefix of a chain is the chain of its last id. -/
theorem prefix_eq (h : Births χ ε U) {id : ℕ} (hid : id ∈ inserted U) {p : List ℕ} {a : ℕ}
    (hp : p ++ [a] <+: χ id) : a ∈ inserted U ∧ χ a = p ++ [a] := by
  -- Induction on the id: the anchor of an id is smaller.
  induction id using Nat.strong_induction_on with
  | _ id ih =>
    obtain ⟨el, b, hmem⟩ := hid
    have hchain := h.chain id el b hmem
    rw [hchain] at hp
    rcases List.prefix_concat_iff.mp hp with heq | hpre
    · obtain ⟨hpa, rfl⟩ := List.append_inj' heq rfl |>.imp_right List.singleton_inj.mp
      exact ⟨⟨el, b, hmem⟩, by rw [hchain, hpa]⟩
    · cases b with
      | none => simp [anchorChain] at hpre
      | some b =>
        have hb := h.anchored id el b hmem
        exact ih b (h.anchor_lt hmem) hb hpre

/-- Chains and elements are determined by the insertions. -/
theorem unique (h : Births χ ε U) {χ' : ℕ → List ℕ} {ε' : ℕ → α} (h' : Births χ' ε' U) {id : ℕ}
    (hid : id ∈ inserted U) : χ id = χ' id ∧ ε id = ε' id := by
  induction id using Nat.strong_induction_on with
  | _ id ih =>
    obtain ⟨el, a, hmem⟩ := hid
    refine ⟨?_, (h.el id el a hmem).trans (h'.el id el a hmem).symm⟩
    rw [h.chain id el a hmem, h'.chain id el a hmem]
    cases a with
    | none => rfl
    | some a => rw [anchorChain, anchorChain,
        (ih a (h.anchor_lt hmem) (h.anchored id el a hmem)).1]

/-- A deletion brings no chain. -/
theorem insert_del (h : Births χ ε U) (id : ℕ) : Births χ ε (insert (.del id) U) where
  el i el a hmem := h.el i el a (by simpa using hmem)
  chain i el a hmem := h.chain i el a (by simpa using hmem)
  anchored i el a hmem := by
    rw [inserted_insert_del]
    exact h.anchored i el a (by simpa using hmem)
  increasing i hi := h.increasing i (by rwa [inserted_insert_del] at hi)

/-- **A fresh insertion** extends the chains, and changes them at the new id only. -/
theorem insert_ins (h : Births χ ε U) {id : ℕ} {el : α} {anchorId : Option ℕ}
    (hfresh : id ∉ inserted U) (hpos : 0 < id)
    (hanchor : ∀ a, anchorId = some a → a ∈ inserted U ∧ a < id) :
    Births (Function.update χ id (anchorChain χ anchorId ++ [id])) (Function.update ε id el)
      (insert (.ins id el anchorId) U) := by
  have hne {i : ℕ} (hi : i ∈ inserted U) : i ≠ id := fun heq => hfresh (heq ▸ hi)
  have hkeep {i : ℕ} (hi : i ∈ inserted U) :
      Function.update χ id (anchorChain χ anchorId ++ [id]) i = χ i :=
    Function.update_of_ne (hne hi) _ _
  -- The new chain is looked up in the old one.
  have hanchorChain : anchorChain (Function.update χ id (anchorChain χ anchorId ++ [id])) anchorId =
      anchorChain χ anchorId := by
    cases anchorId with
    | none => rfl
    | some a => exact hkeep (hanchor a rfl).1
  refine ⟨fun i e a hmem => ?_, fun i e a hmem => ?_, fun i e a hmem => ?_, fun i hi => ?_⟩
  · rcases hmem with hmem | hmem
    · cases hmem
      exact Function.update_self ..
    · rw [Function.update_of_ne (hne ⟨e, a, hmem⟩)]
      exact h.el i e a hmem
  · rcases hmem with hmem | hmem
    · cases hmem
      rw [Function.update_self, hanchorChain]
    · rw [hkeep ⟨e, a, hmem⟩, h.chain i e a hmem]
      cases a with
      | none => rfl
      | some a => rw [anchorChain, anchorChain, hkeep (h.anchored i e a hmem)]
  · rw [inserted_insert_ins]
    rcases hmem with hmem | hmem
    · cases hmem
      exact Or.inr (hanchor a rfl).1
    · exact Or.inr (h.anchored i e a hmem)
  · rw [inserted_insert_ins] at hi
    rcases hi with rfl | hi
    · rw [Function.update_self]
      cases anchorId with
      | none => simpa [anchorChain] using hpos
      | some a =>
        obtain ⟨ha, hlt⟩ := hanchor a rfl
        have hinc := h.increasing a ha
        obtain ⟨p, hp⟩ := h.chain_eq ha
        rw [anchorChain]
        rw [hp] at hinc ⊢
        exact increasing_concat hinc hlt
    · rw [hkeep hi]
      exact h.increasing i hi

end Births

/-- Insertions that a set of authors may make: every id is inserted once, under a positive number,
after the root or a smaller inserted id. -/
structure HonestInserts (U : Set (SeqOp α)) : Prop where
  /-- Every id is inserted once. -/
  unique : ∀ id el a el' a', SeqOp.ins id el a ∈ U → SeqOp.ins id el' a' ∈ U → el = el' ∧ a = a'
  /-- Anchors are smaller inserted ids. -/
  anchored : ∀ id el a, SeqOp.ins id el (some a) ∈ U → a ∈ inserted U ∧ a < id
  /-- Ids are positive. -/
  pos : ∀ id ∈ inserted U, 0 < id

/-- The chain of an id, given the anchors. -/
def chainOf (anchor : ℕ → Option ℕ) (id : ℕ) : List ℕ :=
  (match anchor id with
    | some a => if a < id then chainOf anchor a else []
    | none => []) ++ [id]

/-- **Honest insertions have chains and elements.** -/
theorem HonestInserts.exists_births [Inhabited α] {U : Set (SeqOp α)} (hU : HonestInserts U) :
    ∃ χ ε, Births χ ε U := by
  classical
  -- The anchor and the element of an inserted id are determined by its insertion.
  have hchoice : ∀ id, ∃ p : α × Option ℕ, ∀ el a, SeqOp.ins id el a ∈ U → p = (el, a) := by
    intro id
    by_cases hid : id ∈ inserted U
    · obtain ⟨el, a, hmem⟩ := hid
      refine ⟨(el, a), fun el' a' hmem' => ?_⟩
      obtain ⟨rfl, rfl⟩ := hU.unique id el a el' a' hmem hmem'
      rfl
    · exact ⟨(default, none), fun el a hmem => absurd ⟨el, a, hmem⟩ hid⟩
  choose p hp using hchoice
  have hchain (id : ℕ) (el : α) (a : Option ℕ) (hmem : SeqOp.ins id el a ∈ U) :
      chainOf (fun i => (p i).2) id = anchorChain (chainOf fun i => (p i).2) a ++ [id] := by
    rw [chainOf, hp id el a hmem]
    cases a with
    | none => rfl
    | some a => simp only [if_pos (hU.anchored id el a hmem).2, anchorChain]
  refine ⟨chainOf fun i => (p i).2, fun i => (p i).1, fun id el a hmem => ?_, hchain,
    fun id el a hmem => (hU.anchored id el a hmem).1, fun id hid => ?_⟩
  · rw [hp id el a hmem]
  · induction id using Nat.strong_induction_on with
    | _ id ih =>
      obtain ⟨el, a, hmem⟩ := hid
      rw [hchain id el a hmem]
      cases a with
      | none => simpa [anchorChain] using hU.pos id ⟨el, none, hmem⟩
      | some a =>
        obtain ⟨ha, hlt⟩ := hU.anchored id el a hmem
        obtain ⟨el', a', hmem'⟩ := ha
        have hinc := ih a hlt ⟨el', a', hmem'⟩
        rw [anchorChain]
        rw [hchain a el' a' hmem'] at hinc ⊢
        exact increasing_concat hinc hlt

/-! ### The labels of the mint code -/

/-- The label of a chain in the mint code: the distance of its last id from the one before. -/
def mintLabel (c : List ℕ) : ℕ := c.getLastD 0 - c.dropLast.getLastD 0

theorem mintLabel_concat (c : List ℕ) (a : ℕ) : mintLabel (c ++ [a]) = a - c.getLastD 0 := by
  simp [mintLabel]

theorem getLastD_lt_of_pairwise {c : List ℕ} {a : ℕ} (h : (0 :: (c ++ [a])).Pairwise (· < ·)) :
    c.getLastD 0 < a := by
  rw [← List.cons_append, List.pairwise_append] at h
  rcases List.eq_nil_or_concat c with rfl | ⟨d, b, rfl⟩
  · exact h.2.2 0 (by simp) a (by simp)
  · simpa using h.2.2 b (by simp) a (by simp)

/-- The chains of positive increasing ids. -/
def increasingChains : Set (List ℕ) := {c | (0 :: c).Pairwise (· < ·)}

/-- The labels of the mint code are ordered like the ids. -/
theorem siblingMono_mintLabel : SiblingMono increasingChains mintLabel where
  closed c d h _ := by
    have h' : (0 :: (c ++ d)).Pairwise (· < ·) := h
    rw [← List.cons_append, List.pairwise_append] at h'
    exact h'.1
  pos c hc hne := by
    obtain ⟨d, a, rfl⟩ := (List.eq_nil_or_concat c).resolve_left hne
    rw [List.concat_eq_append] at hc ⊢
    rw [mintLabel_concat]
    have := getLastD_lt_of_pairwise hc
    omega
  mono c a b ha hb hlt := by
    rw [mintLabel_concat, mintLabel_concat]
    have := getLastD_lt_of_pairwise ha
    omega

theorem Births.mem_increasingChains {χ : ℕ → List ℕ} {ε : ℕ → α} {U : Set (SeqOp α)}
    (h : Births χ ε U) {id : ℕ} (hid : id ∈ inserted U) : χ id ∈ increasingChains :=
  h.increasing id hid

end SalRuntime
