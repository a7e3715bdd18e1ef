import SalRuntime.Foundations.Ancestry

/-!
# Replicated objects and sets of operations

A replicated object is changed by operations, and two of its versions are joined by a three-way merge
over a common ancestor. Its states have a meaning as sets of operations if applying an operation adds it
to the set, and a merge stands for the union. Then the state of every version of a history stands for
the operations in its ancestry, however the history branches and joins, as long as the base of every
merge stands for the operations of the common ancestors of its sides.

## Main definitions

* `Replicated` — an object with operations and three-way merges.
* `Replicated.Meaning` — what its states stand for, and the laws of the operations.
* `carried`, `past` — the operations of a set of versions, and those in the ancestry of a version.
* `pasts`, `commonPast` — the operations in the ancestry of some version of a set, and those in the
  ancestry of another version as well.
* `OnlyMca` — a version is the only maximal common ancestor of two versions.

## Main results

* `commonPast_eq` — the operations of the common ancestors are those in the ancestry of some maximal one.
* `OnlyMca.reaches_iff` — the only maximal common ancestor reaches exactly the common ancestors.
* `Replicated.Meaning.merge_pasts` — a merge over the operations of the common ancestors stands for the
  union of the pasts.
* `Replicated.Meaning.merge_past` — in particular a merge over the only maximal common ancestor.
-/

namespace SalRuntime

open Ancestry

/-- An object with states `σ`, operations `ω` and failures `ε`. -/
structure Replicated (σ ω ε : Type) where
  /-- The initial state. -/
  init : σ
  /-- Apply an operation. -/
  apply : σ → ω → Except ε σ
  /-- Three-way merge: the base, then the two sides. -/
  merge3 : σ → σ → σ → Except ε σ

/-! ### Operations of versions -/

section Versions

variable {ν ω : Type} {par : ν → ν → Prop} {ops : ν → Set ω}

/-- The operations that a set of versions carries. -/
def carried (ops : ν → Set ω) (Z : Set ν) : Set ω := {o | ∃ v ∈ Z, o ∈ ops v}

/-- The operations in the ancestry of a version. -/
def past (par : ν → ν → Prop) (ops : ν → Set ω) (v : ν) : Set ω := carried ops {w | Reaches par v w}

theorem carried_mono {Z Z' : Set ν} (h : Z ⊆ Z') : carried ops Z ⊆ carried ops Z' :=
  fun _ ⟨v, hv, ho⟩ => ⟨v, h hv, ho⟩

theorem past_subset_of_reaches {v w : ν} (h : Reaches par v w) : past par ops w ⊆ past par ops v :=
  carried_mono fun _ hz => h.trans hz

theorem ops_subset_past (v : ν) : ops v ⊆ past par ops v := fun _ ho => ⟨v, .refl, ho⟩

/-- What a version has in its ancestry: its own operations, and those of its parents. -/
theorem past_eq (v : ν) : past par ops v = ops v ∪ {o | ∃ p, par v p ∧ o ∈ past par ops p} := by
  ext o
  constructor
  · rintro ⟨w, hw, ho⟩
    rcases Relation.ReflTransGen.cases_head hw with rfl | ⟨p, hp, hpw⟩
    · exact Or.inl ho
    · exact Or.inr ⟨p, hp, w, hpw, ho⟩
  · rintro (ho | ⟨p, hp, w, hw, ho⟩)
    · exact ops_subset_past v ho
    · exact ⟨w, hw.head hp, ho⟩

/-- The operations in the ancestry of some version of a set. -/
def pasts (par : ν → ν → Prop) (ops : ν → Set ω) (S : Set ν) : Set ω :=
  carried ops {z | ∃ s ∈ S, Reaches par s z}

/-- The operations in the ancestry of `w` and of some version of a set. -/
def commonPast (par : ν → ν → Prop) (ops : ν → Set ω) (S : Set ν) (w : ν) : Set ω :=
  carried ops {z | CommonAncestor par S w z}

@[simp] theorem pasts_singleton (v : ν) : pasts par ops {v} = past par ops v := by
  simp [pasts, past]

theorem pasts_union (S T : Set ν) : pasts par ops (S ∪ T) = pasts par ops S ∪ pasts par ops T := by
  ext o
  constructor
  · rintro ⟨z, ⟨s, hs | hs, hz⟩, ho⟩
    · exact Or.inl ⟨z, ⟨s, hs, hz⟩, ho⟩
    · exact Or.inr ⟨z, ⟨s, hs, hz⟩, ho⟩
  · rintro (⟨z, ⟨s, hs, hz⟩, ho⟩ | ⟨z, ⟨s, hs, hz⟩, ho⟩)
    · exact ⟨z, ⟨s, Or.inl hs, hz⟩, ho⟩
    · exact ⟨z, ⟨s, Or.inr hs, hz⟩, ho⟩

theorem commonPast_subset (S : Set ν) (w : ν) :
    commonPast par ops S w ⊆ pasts par ops S ∩ past par ops w :=
  fun _ ⟨z, hz, ho⟩ => ⟨⟨z, hz.1, ho⟩, z, hz.2, ho⟩

/-- **The operations of the common ancestors** are those in the ancestry of some maximal one. -/
theorem commonPast_eq {rank : ν → ℕ} (hrank : ∀ x p, par x p → rank p < rank x) (S : Set ν) (w : ν) :
    commonPast par ops S w = pasts par ops {m | IsMca par S w m} := by
  ext o
  constructor
  · rintro ⟨z, hz, ho⟩
    obtain ⟨m, hm, hmz⟩ := exists_isMca hrank hz
    exact ⟨z, ⟨m, hm, hmz⟩, ho⟩
  · rintro ⟨z, ⟨m, hm, hmz⟩, ho⟩
    exact ⟨z, hm.common.of_reaches hmz, ho⟩

/-- The version `l` is the only maximal common ancestor of `a` and `b`. -/
def OnlyMca (par : ν → ν → Prop) (a b l : ν) : Prop := ∀ x, IsMca par {a} b x ↔ x = l

theorem OnlyMca.symm {a b l : ν} (h : OnlyMca par a b l) : OnlyMca par b a l := fun x =>
  isMca_singleton_comm.trans (h x)

/-- A common ancestor that reaches all common ancestors is the only maximal one. -/
theorem OnlyMca.of_forall {a b l : ν} (h : ∀ z, Reaches par a z ∧ Reaches par b z ↔ Reaches par l z)
    (hanti : ∀ z, Reaches par l z → Reaches par z l → z = l) : OnlyMca par a b l := by
  have hcommon (z : ν) : CommonAncestor par {a} b z ↔ Reaches par l z := by
    simp only [CommonAncestor, Set.mem_singleton_iff, exists_eq_left, h]
  intro x
  constructor
  · intro hx
    exact (hx.maximal l ((hcommon l).mpr .refl) ((hcommon x).mp hx.common)).symm
  · rintro rfl
    exact ⟨(hcommon x).mpr .refl, fun c hc hcx => hanti c ((hcommon c).mp hc) hcx⟩

/-- The only maximal common ancestor reaches exactly the common ancestors. -/
theorem OnlyMca.reaches_iff {rank : ν → ℕ} (hrank : ∀ x p, par x p → rank p < rank x) {a b l : ν}
    (hl : OnlyMca par a b l) (w : ν) : Reaches par l w ↔ Reaches par a w ∧ Reaches par b w := by
  have hmca := (hl l).mpr rfl
  have hal : Reaches par a l := (isMca_singleton_comm.mp hmca).common.2
  constructor
  · exact fun hw => ⟨hal.trans hw, hmca.common.2.trans hw⟩
  · rintro ⟨haw, hbw⟩
    obtain ⟨m, hm, hmw⟩ := exists_isMca hrank (⟨⟨a, rfl, haw⟩, hbw⟩ : CommonAncestor par {a} b w)
    exact (hl m).mp hm ▸ hmw

end Versions

namespace Replicated

variable {σ ω ε : Type}

/-- **The meaning of states.** A state stands for a set of operations, in a context that fixes what is
common to all states, as the places of ids. Operations create ids, which are never created twice. -/
structure Meaning (O : Replicated σ ω ε) (κ ι : Type) where
  /-- The ids that an operation creates. -/
  creates : ω → Set ι
  /-- The context fits the operations of all authors. -/
  Fits : κ → Set ω → Prop
  /-- A state stands for a set of operations. -/
  Rep : κ → Set ω → σ → Prop
  /-- An author that has seen a set of operations may make an operation. -/
  Applicable : Set ω → ω → Prop
  /-- At the start there are no operations. -/
  start : ∃ c, Fits c ∅
  /-- The initial state stands for no operation. -/
  init : ∀ {c}, Rep c ∅ O.init
  /-- A new operation extends the context. -/
  extend : ∀ {c U E op}, Fits c U → E ⊆ U → Applicable E op →
    (∀ i ∈ creates op, ∀ o ∈ U, i ∉ creates o) →
    ∃ c', Fits c' (insert op U) ∧ ∀ {A s}, A ⊆ U → Rep c A s → Rep c' A s
  /-- Applying an operation adds it. -/
  apply : ∀ {c U E op s}, Fits c U → E ⊆ U → op ∈ U → Applicable E op → Rep c E s →
    ∃ s', O.apply s op = .ok s' ∧ Rep c (insert op E) s'
  /-- Merging stands for the union. The base has the operations that both sides have seen: operations
  of the two sides that create the same id belong to it. -/
  merge : ∀ {c U L A B l a b}, Fits c U → A ⊆ U → B ⊆ U → L ⊆ A ∩ B →
    (∀ o ∈ A, ∀ o' ∈ B, ∀ i ∈ creates o, i ∈ creates o' → o ∈ L) → Rep c L l → Rep c A a →
    Rep c B b → ∃ m, O.merge3 l a b = .ok m ∧ Rep c (A ∪ B) m
  /-- A set of operations has one state. -/
  unique : ∀ {c E s s'}, Rep c E s → Rep c E s' → s = s'

variable {O : Replicated σ ω ε} {κ ι ν : Type} {M : O.Meaning κ ι}

/-- The meaning of states that stand for sets of operations with a further property, which authors
keep. -/
def Meaning.restrict (M : O.Meaning κ ι) (P : Set ω → Prop) (Keeps : Set ω → ω → Prop) (hempty : P ∅)
    (hinsert : ∀ {E op}, P E → Keeps E op → P (insert op E))
    (hunion : ∀ {A B}, P A → P B → P (A ∪ B)) : O.Meaning κ ι where
  creates := M.creates
  Fits := M.Fits
  Rep c E s := M.Rep c E s ∧ P E
  Applicable E op := M.Applicable E op ∧ Keeps E op
  start := M.start
  init := ⟨M.init, hempty⟩
  extend hfits hE happ hfresh := by
    obtain ⟨c', hc', hkeep⟩ := M.extend hfits hE happ.1 hfresh
    exact ⟨c', hc', fun hA hrep => ⟨hkeep hA hrep.1, hrep.2⟩⟩
  apply hfits hE hop happ hrep := by
    obtain ⟨s', hs', hrep'⟩ := M.apply hfits hE hop happ.1 hrep.1
    exact ⟨s', hs', hrep', hinsert hrep.2 happ.2⟩
  merge hfits hA hB hL hcommon hl ha hb := by
    obtain ⟨m, hm, hrep⟩ := M.merge hfits hA hB hL hcommon hl.1 ha.1 hb.1
    exact ⟨m, hm, hrep, hunion ha.2 hb.2⟩
  unique h h' := M.unique h.1 h'.1

/-- Every id is created by one version only. -/
def Meaning.Unique (M : O.Meaning κ ι) (ops : ν → Set ω) : Prop :=
  ∀ x y, ∀ o ∈ ops x, ∀ o' ∈ ops y, ∀ i ∈ M.creates o, i ∈ M.creates o' → x = y

section Merges

variable {par : ν → ν → Prop} {ops : ν → Set ω} (hunique : M.Unique ops) {c : κ} {U : Set ω}
  (hfits : M.Fits c U) (hU : ∀ v, ops v ⊆ U)

include hunique hfits hU

/-- **A merge over the operations of the common ancestors** stands for the union of the pasts. -/
theorem Meaning.merge_pasts {S : Set ν} {w : ν} {l a b : σ}
    (hl : M.Rep c (commonPast par ops S w) l) (ha : M.Rep c (pasts par ops S) a)
    (hb : M.Rep c (past par ops w) b) :
    ∃ m, O.merge3 l a b = .ok m ∧ M.Rep c (pasts par ops S ∪ past par ops w) m := by
  have hsub (Z : Set ν) : carried ops Z ⊆ U := fun _ ⟨y, _, ho⟩ => hU y ho
  refine M.merge hfits (hsub _) (hsub _) (commonPast_subset S w) ?_ hl ha hb
  rintro o ⟨y, hy, ho⟩ o' ⟨y', hy', ho'⟩ i hi hi'
  obtain rfl := hunique y y' o ho o' ho' i hi hi'
  exact ⟨y, ⟨hy, hy'⟩, ho⟩

/-- **A merge over the only maximal common ancestor** stands for the union of the pasts. -/
theorem Meaning.merge_past {rank : ν → ℕ} (hrank : ∀ x p, par x p → rank p < rank x) {v w x : ν}
    {l a b : σ} (hx : OnlyMca par v w x) (hl : M.Rep c (past par ops x) l)
    (ha : M.Rep c (past par ops v) a) (hb : M.Rep c (past par ops w) b) :
    ∃ m, O.merge3 l a b = .ok m ∧ M.Rep c (past par ops v ∪ past par ops w) m := by
  have hbase : commonPast par ops {v} w = past par ops x := by
    rw [commonPast_eq hrank, show {m | IsMca par {v} w m} = {x} from Set.ext hx, pasts_singleton]
  rw [← hbase] at hl
  rw [← pasts_singleton] at ha
  simpa using M.merge_pasts hunique hfits hU hl ha hb

end Merges

end Replicated

end SalRuntime
