import Mathlib.Data.Set.Insert
import Mathlib.Logic.Relation

/-!
# Ancestry in a ranked parent relation

A history is a parent relation `par`, `par x p` meaning that `p` is a parent of `x`, in which
parents have a smaller rank than their children. This file collects what holds of reachability
and of maximal common ancestors in every such history, for histories over arbitrary types.

## Main definitions

* `Ancestry.Reaches par x y` — `y` is a reflexive ancestor of `x`.
* `Ancestry.CommonAncestor par S w z` — `z` is an ancestor of `w` and of some member of `S`.
* `Ancestry.IsMca par S w m` — `m` is a maximal common ancestor.
* `Ancestry.McaClosure par H` — the closure of `H` under maximal common ancestors of pairs.
* `Ancestry.restrict par K` — the history with the parent links that leave `K` removed.

## Main results

* `Ancestry.exists_isMca` — every common ancestor lies below a maximal one.
* `Ancestry.isMca_iff_forall_not_par` — maximality can be read off the parent links of the
  common ancestors.
* `Ancestry.isMca_restrict_iff` — restricting a history to an upward closed set that holds the
  maximal common ancestors of a pair does not change them.
* `Ancestry.exists_isMca_parent_of_fresh` — the maximal common ancestors of a new node are among
  those of its parents.
-/

namespace SalRuntime.Ancestry

variable {ι : Type*} {par : ι → ι → Prop}

/-- `y` is a reflexive ancestor of `x`. -/
abbrev Reaches (par : ι → ι → Prop) : ι → ι → Prop := Relation.ReflTransGen par

/-- `z` is a reflexive ancestor of `w` and of some member of `S`. -/
def CommonAncestor (par : ι → ι → Prop) (S : Set ι) (w z : ι) : Prop :=
  (∃ s ∈ S, Reaches par s z) ∧ Reaches par w z

/-- `m` is a common ancestor of which no other common ancestor is a descendant. -/
structure IsMca (par : ι → ι → Prop) (S : Set ι) (w m : ι) : Prop where
  /-- `m` is a common ancestor. -/
  common : CommonAncestor par S w m
  /-- No other common ancestor reaches `m`. -/
  maximal : ∀ c, CommonAncestor par S w c → Reaches par c m → c = m

/-- The least superset of `H` that is closed under maximal common ancestors of pairs. -/
inductive McaClosure (par : ι → ι → Prop) (H : Set ι) : ι → Prop
  | head {h : ι} (hh : h ∈ H) : McaClosure par H h
  | mca {a b m : ι} (ha : McaClosure par H a) (hb : McaClosure par H b)
      (hm : IsMca par {a} b m) : McaClosure par H m

/-- The history with the parent links that leave `K` removed. -/
def restrict (par : ι → ι → Prop) (K : Set ι) (x p : ι) : Prop := par x p ∧ p ∈ K

theorem CommonAncestor.of_reaches {S : Set ι} {w c z : ι} (h : CommonAncestor par S w c)
    (hz : Reaches par c z) : CommonAncestor par S w z := by
  obtain ⟨⟨s, hs, hsc⟩, hwc⟩ := h
  exact ⟨⟨s, hs, hsc.trans hz⟩, hwc.trans hz⟩

theorem commonAncestor_singleton_comm {a b z : ι} :
    CommonAncestor par {a} b z ↔ CommonAncestor par {b} a z := by
  simp only [CommonAncestor, Set.mem_singleton_iff, exists_eq_left, and_comm]

theorem isMca_singleton_comm {a b m : ι} : IsMca par {a} b m ↔ IsMca par {b} a m := by
  constructor <;> intro h
  · exact ⟨commonAncestor_singleton_comm.mp h.common,
      fun c hc => h.maximal c (commonAncestor_singleton_comm.mp hc)⟩
  · exact ⟨commonAncestor_singleton_comm.mp h.common,
      fun c hc => h.maximal c (commonAncestor_singleton_comm.mp hc)⟩

theorem IsMca.eq_self {a m : ι} (h : IsMca par {a} a m) : m = a :=
  (h.maximal a ⟨⟨a, rfl, .refl⟩, .refl⟩ h.common.2).symm

/-- Maximal common ancestors depend only on what the two nodes reach. -/
theorem isMca_congr {par' : ι → ι → Prop} {a b m : ι}
    (ha : ∀ z, Reaches par a z → ∀ y, Reaches par z y ↔ Reaches par' z y)
    (ha' : ∀ z, Reaches par' a z ↔ Reaches par a z)
    (hb : ∀ z, Reaches par' b z ↔ Reaches par b z) :
    IsMca par {a} b m ↔ IsMca par' {a} b m := by
  have hcom (z : ι) : CommonAncestor par {a} b z ↔ CommonAncestor par' {a} b z := by
    simp only [CommonAncestor, Set.mem_singleton_iff, exists_eq_left, ha', hb]
  have hreach (c : ι) (hc : CommonAncestor par {a} b c) (y : ι) :
      Reaches par c y ↔ Reaches par' c y := by
    obtain ⟨⟨s, rfl, hs⟩, -⟩ := hc
    exact ha c hs y
  constructor <;> intro h
  · exact ⟨(hcom m).mp h.common, fun c hc hcm =>
      h.maximal c ((hcom c).mpr hc) ((hreach c ((hcom c).mpr hc) m).mpr hcm)⟩
  · exact ⟨(hcom m).mpr h.common, fun c hc hcm =>
      h.maximal c ((hcom c).mp hc) ((hreach c hc m).mp hcm)⟩

/-- A set reaches what its members reach, so a maximal common ancestor with the set is one with
some member. -/
theorem IsMca.exists_singleton {S : Set ι} {w m : ι} (h : IsMca par S w m) :
    ∃ s ∈ S, IsMca par {s} w m := by
  obtain ⟨⟨s, hs, hsm⟩, hwm⟩ := h.common
  refine ⟨s, hs, ⟨⟨s, rfl, hsm⟩, hwm⟩, fun c hc hcm => h.maximal c ?_ hcm⟩
  obtain ⟨⟨t, rfl, htc⟩, hwc⟩ := hc
  exact ⟨⟨t, hs, htc⟩, hwc⟩

/-! ### Ranked histories -/

section Ranked

variable {rank : ι → ℕ} (hrank : ∀ x p, par x p → rank p < rank x)

include hrank

theorem rank_le_of_reaches {x y : ι} (h : Reaches par x y) : rank y ≤ rank x := by
  induction h with
  | refl => exact le_rfl
  | tail _ hp ih => exact (hrank _ _ hp).le.trans ih

theorem eq_or_rank_lt_of_reaches {x y : ι} (h : Reaches par x y) : x = y ∨ rank y < rank x := by
  rcases Relation.ReflTransGen.cases_tail h with h | ⟨z, hxz, hzy⟩
  · exact Or.inl h.symm
  · exact Or.inr ((hrank _ _ hzy).trans_le (rank_le_of_reaches hrank hxz))

theorem reaches_antisymm {x y : ι} (hxy : Reaches par x y) (hyx : Reaches par y x) : x = y := by
  rcases eq_or_rank_lt_of_reaches hrank hxy with h | h
  · exact h
  · exact absurd (rank_le_of_reaches hrank hyx) (not_le.mpr h)

/-- **Every common ancestor lies below a maximal one.** -/
theorem exists_isMca {S : Set ι} {w z : ι} (hz : CommonAncestor par S w z) :
    ∃ m, IsMca par S w m ∧ Reaches par m z := by
  -- The ranks of common ancestors are bounded by that of `w`; climb while a larger one exists.
  induction hn : rank w - rank z using Nat.strong_induction_on generalizing z with
  | _ n ih =>
    by_cases hmax : ∀ c, CommonAncestor par S w c → Reaches par c z → c = z
    · exact ⟨z, ⟨hz, hmax⟩, .refl⟩
    · push Not at hmax
      obtain ⟨c, hc, hcz, hne⟩ := hmax
      have hlt : rank z < rank c := (eq_or_rank_lt_of_reaches hrank hcz).resolve_left hne
      have hle : rank c ≤ rank w := rank_le_of_reaches hrank hc.2
      obtain ⟨m, hm, hmc⟩ := ih (rank w - rank c) (by omega) hc rfl
      exact ⟨m, hm, hmc.trans hcz⟩

/-- **Maximality read off the parent links.** The common ancestors are downward closed, so a
common ancestor is maximal exactly when no common ancestor has it as a parent. -/
theorem isMca_iff_forall_not_par {S : Set ι} {w m : ι} :
    IsMca par S w m ↔
      CommonAncestor par S w m ∧ ∀ c, CommonAncestor par S w c → ¬ par c m := by
  constructor
  · refine fun h => ⟨h.common, fun c hc hp => ?_⟩
    have : c = m := h.maximal c hc (.single hp)
    exact lt_irrefl _ (hrank _ _ (this ▸ hp))
  · rintro ⟨hm, hpar⟩
    refine ⟨hm, fun c hc hcm => ?_⟩
    rcases Relation.ReflTransGen.cases_tail hcm with h | ⟨b, hcb, hbm⟩
    · exact h.symm
    · exact absurd hbm (hpar b (hc.of_reaches hcb))

omit hrank in
theorem IsMca.eq_of_reaches {S : Set ι} {w m m' : ι} (h : IsMca par S w m)
    (h' : IsMca par S w m') (hr : Reaches par m m') : m = m' :=
  h'.maximal m h.common hr

end Ranked

/-! ### Restriction to an upward closed set -/

section Restrict

variable {K : Set ι} (hK : ∀ x p, par x p → p ∈ K → x ∈ K)

theorem reaches_of_restrict {x y : ι} (h : Reaches (restrict par K) x y) : Reaches par x y := by
  induction h with
  | refl => exact .refl
  | tail _ hp ih => exact ih.tail hp.1

include hK

theorem mem_of_reaches {x y : ι} (h : Reaches par x y) (hy : y ∈ K) : x ∈ K := by
  induction h with
  | refl => exact hy
  | tail _ hp ih => exact ih (hK _ _ hp hy)

/-- A path that ends in an upward closed set never leaves it. -/
theorem reaches_restrict_iff {x y : ι} (hy : y ∈ K) :
    Reaches (restrict par K) x y ↔ Reaches par x y := by
  refine ⟨reaches_of_restrict, fun h => ?_⟩
  induction h with
  | refl => exact .refl
  | tail _ hp ih => exact (ih (hK _ _ hp hy)).tail ⟨hp, hy⟩

theorem commonAncestor_restrict_iff {S : Set ι} {w z : ι} (hz : z ∈ K) :
    CommonAncestor (restrict par K) S w z ↔ CommonAncestor par S w z := by
  simp only [CommonAncestor, reaches_restrict_iff hK hz]

omit hK in
theorem mem_of_reaches_restrict {x y : ι} (hx : x ∈ K) (h : Reaches (restrict par K) x y) :
    y ∈ K := by
  rcases Relation.ReflTransGen.cases_tail h with h | ⟨z, -, hz⟩
  · exact h ▸ hx
  · exact hz.2

/-- **Restriction keeps the maximal common ancestors.** If an upward closed set holds `w` and
every maximal common ancestor of `S` and `w`, then these are also the maximal common ancestors
of the restricted history. -/
theorem isMca_restrict_iff {rank : ι → ℕ} (hrank : ∀ x p, par x p → rank p < rank x)
    {S : Set ι} {w m : ι} (hw : w ∈ K) (hmem : ∀ m, IsMca par S w m → m ∈ K) :
    IsMca (restrict par K) S w m ↔ IsMca par S w m := by
  constructor
  · intro h
    have hm : m ∈ K := mem_of_reaches_restrict hw h.common.2
    have hcom := (commonAncestor_restrict_iff hK hm).mp h.common
    obtain ⟨m', hm', hr⟩ := exists_isMca hrank hcom
    have hm'K := hmem m' hm'
    have : m' = m := h.maximal m' ((commonAncestor_restrict_iff hK hm'K).mpr hm'.common)
      ((reaches_restrict_iff hK hm).mpr hr)
    exact this ▸ hm'
  · intro h
    have hm := hmem m h
    refine ⟨(commonAncestor_restrict_iff hK hm).mpr h.common, fun c hc hcm => ?_⟩
    have hcK := mem_of_reaches_restrict hw hc.2
    exact h.maximal c ((commonAncestor_restrict_iff hK hcK).mp hc) (reaches_of_restrict hcm)

end Restrict

/-! ### New nodes -/

/-- **New nodes add no maximal common ancestor.** A maximal common ancestor of a node `h` and a
node `y` that does not reach `h` is a maximal common ancestor of a parent of `h` and `y`. -/
theorem exists_isMca_parent_of_fresh {h y m : ι} (hy : ¬ Reaches par y h)
    (hm : IsMca par {h} y m) : ∃ p, par h p ∧ IsMca par {p} y m := by
  obtain ⟨⟨s, rfl, hsm⟩, hym⟩ := hm.common
  rcases Relation.ReflTransGen.cases_head hsm with rfl | ⟨p, hp, hpm⟩
  · exact absurd hym hy
  · refine ⟨p, hp, ⟨⟨p, rfl, hpm⟩, hym⟩, fun c hc hcm => hm.maximal c ?_ hcm⟩
    obtain ⟨⟨t, rfl, htc⟩, hyc⟩ := hc
    exact ⟨⟨s, rfl, (Relation.ReflTransGen.single hp).trans htc⟩, hyc⟩

end SalRuntime.Ancestry
