import SalRuntime.Foundations.EventSets

/-!
# Histories with labelled nodes

Several stores hold parts of one history under names of their own. Every name carries a label, the name
of the node in the common history, and the store holds the ancestry of what it holds. Then the
operations in the past of a node are those of its label, also if several nodes carry one label. If every
label belongs to one node, then ancestry and maximal common ancestors can be computed in the store as
well, and two stores agree on them.

## Main definitions

* `CopyOf` — the nodes of a history carry labels, and are linked as their labels are.
* `LabelledBy` — and every label belongs to one node.

## Main results

* `CopyOf.past_eq` — the operations in the past are those of the label.
* `LabelledBy.reaches_iff`, `LabelledBy.onlyMca_iff` — ancestry, and the only maximal common ancestor
  of a pair, are those of the labels.
-/

namespace SalRuntime

open Ancestry

variable {ι κ ω : Type} {par : ι → ι → Prop} {Par : κ → κ → Prop} {label : ι → Option κ}

/-- The nodes of the history `par` carry labels, and the labels of the parents are the parents of the
label. -/
structure CopyOf (par : ι → ι → Prop) (Par : κ → κ → Prop) (label : ι → Option κ) : Prop where
  /-- The label of a parent is a parent of the label. -/
  forth : ∀ {x p}, par x p → ∃ g pg, label x = some g ∧ label p = some pg ∧ Par g pg
  /-- Every parent of a label is the label of a parent. -/
  back : ∀ {x g pg}, label x = some g → Par g pg → ∃ p, par x p ∧ label p = some pg

namespace CopyOf

variable (h : CopyOf par Par label)

include h

theorem reaches_label {x y : ι} {g : κ} (hx : label x = some g) (hr : Reaches par x y) :
    ∃ k, label y = some k ∧ Reaches Par g k := by
  induction hr with
  | refl => exact ⟨g, hx, .refl⟩
  | tail _ hp ih =>
    obtain ⟨k, hk, hgk⟩ := ih
    obtain ⟨k', pg, hk', hpg, hpar⟩ := h.forth hp
    rw [hk, Option.some.injEq] at hk'
    exact ⟨pg, hpg, hgk.tail (hk' ▸ hpar)⟩

theorem exists_reaches {x : ι} {g k : κ} (hx : label x = some g) (hr : Reaches Par g k) :
    ∃ y, Reaches par x y ∧ label y = some k := by
  induction hr with
  | refl => exact ⟨x, .refl, hx⟩
  | tail _ hp ih =>
    obtain ⟨y, hxy, hy⟩ := ih
    obtain ⟨p, hyp, hp⟩ := h.back hy hp
    exact ⟨p, hxy.tail hyp, hp⟩

/-- **The past is that of the label**, if the operations of a node are those of its label. -/
theorem past_eq {ops : ι → Set ω} {Ops : κ → Set ω} (hops : ∀ {y k}, label y = some k → ops y = Ops k)
    {x : ι} {g : κ} (hx : label x = some g) : past par ops x = past Par Ops g := by
  ext o
  constructor
  · rintro ⟨y, hy, ho⟩
    obtain ⟨k, hk, hgk⟩ := h.reaches_label hx hy
    exact ⟨k, hgk, hops hk ▸ ho⟩
  · rintro ⟨k, hgk, ho⟩
    obtain ⟨y, hy, hk⟩ := h.exists_reaches hx hgk
    exact ⟨y, hy, (hops hk).symm ▸ ho⟩

end CopyOf

/-- The nodes of the history `par` carry labels, each label one node, and the labels of the parents are
the parents of the label. -/
structure LabelledBy (par : ι → ι → Prop) (Par : κ → κ → Prop) (label : ι → Option κ) : Prop extends
    CopyOf par Par label where
  /-- A label belongs to one node. -/
  injective : ∀ {x y g}, label x = some g → label y = some g → x = y

namespace LabelledBy

variable (h : LabelledBy par Par label)

include h

/-- **Ancestry is that of the labels.** -/
theorem reaches_iff {x y : ι} {g k : κ} (hx : label x = some g) (hy : label y = some k) :
    Reaches par x y ↔ Reaches Par g k := by
  constructor
  · intro hr
    obtain ⟨k', hk', hgk⟩ := h.toCopyOf.reaches_label hx hr
    rw [hy, Option.some.injEq] at hk'
    exact hk' ▸ hgk
  · intro hr
    obtain ⟨z, hxz, hz⟩ := h.exists_reaches hx hr
    exact h.injective hz hy ▸ hxz

section Pair

variable {a b : ι} {ga gb : κ} (ha : label a = some ga) (hb : label b = some gb)

include ha hb

theorem commonAncestor_iff {z : ι} {k : κ} (hz : label z = some k) :
    CommonAncestor par {a} b z ↔ CommonAncestor Par {ga} gb k := by
  simp only [CommonAncestor, Set.mem_singleton_iff, exists_eq_left, h.reaches_iff ha hz,
    h.reaches_iff hb hz]

omit hb in
theorem exists_label_of_common {z : ι} (hz : CommonAncestor par {a} b z) :
    ∃ k, label z = some k := by
  obtain ⟨⟨s, rfl, hs⟩, -⟩ := hz
  obtain ⟨k, hk, -⟩ := h.reaches_label ha hs
  exact ⟨k, hk⟩

omit hb in
theorem exists_node_of_common {k : κ} (hk : CommonAncestor Par {ga} gb k) :
    ∃ z, label z = some k := by
  obtain ⟨⟨s, rfl, hs⟩, -⟩ := hk
  obtain ⟨z, -, hz⟩ := h.exists_reaches ha hs
  exact ⟨z, hz⟩

theorem isMca_iff {m : ι} {k : κ} (hm : label m = some k) :
    IsMca par {a} b m ↔ IsMca Par {ga} gb k := by
  constructor
  · intro hmca
    refine ⟨(h.commonAncestor_iff ha hb hm).mp hmca.common, fun c hc hcm => ?_⟩
    obtain ⟨z, hz⟩ := h.exists_node_of_common ha hc
    have hzm := hmca.maximal z ((h.commonAncestor_iff ha hb hz).mpr hc)
      ((h.reaches_iff hz hm).mpr hcm)
    rw [hzm, hm, Option.some.injEq] at hz
    exact hz.symm
  · intro hmca
    refine ⟨(h.commonAncestor_iff ha hb hm).mpr hmca.common, fun z hz hzm => ?_⟩
    obtain ⟨c, hc⟩ := h.exists_label_of_common ha hz
    have hck := hmca.maximal c ((h.commonAncestor_iff ha hb hc).mp hz)
      ((h.reaches_iff hc hm).mp hzm)
    exact h.injective (hck ▸ hc) hm

/-- **The only maximal common ancestor is that of the labels.** -/
theorem onlyMca_iff {l : ι} {k : κ} (hl : label l = some k) :
    OnlyMca par a b l ↔ OnlyMca Par ga gb k := by
  constructor
  · intro hall c
    constructor
    · intro hc
      obtain ⟨z, hz⟩ := h.exists_node_of_common ha hc.common
      have hzl := (hall z).mp ((h.isMca_iff ha hb hz).mpr hc)
      rw [hzl, hl, Option.some.injEq] at hz
      exact hz.symm
    · rintro rfl
      exact (h.isMca_iff ha hb hl).mp ((hall l).mpr rfl)
  · intro hall z
    constructor
    · intro hz
      obtain ⟨c, hc⟩ := h.exists_label_of_common ha hz.common
      have hck := (hall c).mp ((h.isMca_iff ha hb hc).mp hz)
      exact h.injective (hck ▸ hc) hl
    · rintro rfl
      exact (h.isMca_iff ha hb hl).mpr ((hall k).mpr rfl)

theorem exists_onlyMca_iff : (∃ l, OnlyMca par a b l) ↔ ∃ k, OnlyMca Par ga gb k := by
  constructor
  · rintro ⟨l, hl⟩
    obtain ⟨k, hk⟩ := h.exists_label_of_common ha ((hl l).mpr rfl).common
    exact ⟨k, (h.onlyMca_iff ha hb hk).mp hl⟩
  · rintro ⟨k, hk⟩
    obtain ⟨l, hl⟩ := h.exists_node_of_common ha ((hk k).mpr rfl).common
    exact ⟨l, (h.onlyMca_iff ha hb hl).mpr hk⟩

end Pair

end LabelledBy

end SalRuntime
