import SalRuntime.Datatypes.SeqSpec
import SalRuntime.Datatypes.SidedPolicy

/-!
# The gaps of the production sided kernel are exact

A gap says whether its anchor has a right child and what follows the anchor in the order of all
insertions, the deleted ones included. An insertion lands immediately after its anchor, so only the
gap of the anchor changes. In a merge the later of two successors follows: what one side has
inserted below an anchor on the right is before everything else that is after the anchor.

## Main definitions

* `LiveGap.Reachable` — the states that prepared insertions, deletions and merges reach.
* `UnifiedSided.Reachable` — the states of the full kernel with the same histories.
* `LiveGap.rights` — the right descendants of an anchor.
* `LiveGap.GapExact` — what a gap says holds.
* `Follows`, `LandsAfter` — the place of an id in a list.

## Main results

* `LiveGap.GapExact.landing` — an insertion lands immediately after its anchor.
* `LiveGap.GapExact.merge` — merged gaps are exact.
* `LiveGap.Reachable.exact` — all gaps of reachable states are exact.
* `LiveGap.gaps_exact` — they agree with the policy order of the full kernel, and insertions read
  immediately after their anchors.
-/

namespace SalRuntime

variable {α : Type}

/-! ### Places -/

/-- The operations without the places of insertions. -/
def seqOps (E : Set (SidedOp α)) : Set (SeqOp α) := Set.image SidedOp.toSeq E

/-- Every id is inserted once, at one place. -/
def OnePlace (U : Set (SidedOp α)) : Prop :=
  ∀ id el a p el' a' p', .ins id el a p ∈ U → .ins id el' a' p' ∈ U → el = el' ∧ a = a' ∧ p = p'

/-- Every insertion has the chain of its place. -/
def PlacedChains (χ : ℕ → Chain) (U : Set (SidedOp α)) : Prop :=
  ∀ id el a (p : Placement id), .ins id el a (some p) ∈ U →
    χ id = chainAt χ p.parentId ++ [⟨p.side, id - p.parentId.getD 0, id⟩]

/-- The chain of an id, given the places. -/
def chainOfPlaces (place : (id : ℕ) → Option (Placement id)) (id : ℕ) : Chain :=
  match place id with
  | none => []
  | some p =>
    (match p.parentId with
      | none => []
      | some q => if q < id then chainOfPlaces place q else []) ++
      [⟨p.side, id - p.parentId.getD 0, id⟩]

theorem OnePlace.exists_chains {U : Set (SidedOp α)} (h : OnePlace U) : ∃ χ, PlacedChains χ U := by
  classical
  have hchoice : ∀ id, ∃ p : Option (Placement id), ∀ el a p', .ins id el a p' ∈ U → p = p' := by
    intro id
    by_cases hid : ∃ el a p, SidedOp.ins id el a p ∈ U
    · obtain ⟨el, a, p, hmem⟩ := hid
      exact ⟨p, fun el' a' p' hmem' => (h id el a p el' a' p' hmem hmem').2.2⟩
    · exact ⟨none, fun el a p' hmem => absurd ⟨el, a, p', hmem⟩ hid⟩
  choose place hplace using hchoice
  refine ⟨chainOfPlaces place, fun id el a p hmem => ?_⟩
  rw [chainOfPlaces, hplace id el a _ hmem]
  cases hq : p.parentId with
  | none => simp [hq, chainAt]
  | some q =>
    have hlt := p.lt
    rw [hq, Option.getD_some] at hlt
    simp [hq, hlt, chainAt]

theorem seqOps_insert (op : SidedOp α) (E : Set (SidedOp α)) :
    seqOps (insert op E) = insert op.toSeq (seqOps E) := Set.image_insert_eq

theorem seqOps_union (E F : Set (SidedOp α)) : seqOps (E ∪ F) = seqOps E ∪ seqOps F :=
  Set.image_union ..

namespace UnifiedSided

/-- The states of the full kernel that operations of `U` and merges reach, with the operations in
their history. -/
inductive Reachable (U : Set (SidedOp α)) : Set (SidedOp α) → State α → Prop
  | init : Reachable U ∅ init
  | apply {E u op u'} (h : Reachable U E u) (hU : op ∈ U) (hu : apply u op = .ok u') :
      Reachable U (insert op E) u'
  | merge {L A B l a b m} (hl : Reachable U L l) (ha : Reachable U A a) (hb : Reachable U B b)
      (hm : Mergeable (seqOps L) (seqOps A) (seqOps B)) (hu : merge3 l a b = .ok m) :
      Reachable U (A ∪ B) m

end UnifiedSided

/-- An id immediately follows an anchor in a list; after the root it is the first one. -/
def Follows (l : List ℕ) : Option ℕ → ℕ → Prop
  | none, i => ∃ l₂, l = i :: l₂
  | some a, i => ∃ l₁ l₂, l = l₁ ++ a :: i :: l₂

/-- The second list is the first one with an id immediately after an anchor. -/
def LandsAfter (before after : List ℕ) (id : ℕ) : Option ℕ → Prop
  | none => after = id :: before
  | some a => ∃ l₁ l₂, before = l₁ ++ a :: l₂ ∧ after = l₁ ++ a :: id :: l₂

namespace LiveGap

/-- The states that honest authors reach with the operations of `U`, and the operations in their
history. Every operation is prepared and applied at the state of its author. -/
inductive Reachable (U : Set (SidedOp α)) : Set (SidedOp α) → State α → Prop
  | init : Reachable U ∅ init
  | apply {E s op placed s'} (h : Reachable U E s) (happ : Applicable (seqOps E) op)
      (hp : prepare s (.ofSeq op) = .ok placed) (hU : placed ∈ U)
      (hs : apply s placed = .ok s') : Reachable U (insert placed E) s'
  | merge {L A B l a b} (hl : Reachable U L l) (ha : Reachable U A a) (hb : Reachable U B b)
      (hm : Mergeable (seqOps L) (seqOps A) (seqOps B)) : Reachable U (A ∪ B) (merge3 l a b)

/-! ### Right descendants -/

/-- The ids below an anchor on the right. -/
def rights (χ : ℕ → Chain) (I : Set ℕ) (a : Option ℕ) : Set ℕ :=
  {j | j ∈ I ∧ ∃ (x : Link) (c : Chain), x.side = .R ∧ χ j = chainAt χ a ++ x :: c}

section Rights

variable {χ : ℕ → Chain} {I J : Set ℕ} {a : Option ℕ}

theorem rights_mono (h : I ⊆ J) : rights χ I a ⊆ rights χ J a := fun _ hj => ⟨h hj.1, hj.2⟩

theorem rights_union : rights χ (I ∪ J) a = rights χ I a ∪ rights χ J a := by
  ext j
  simp only [rights, Set.mem_union, Set.mem_ofPred_eq, or_and_right]

variable (hT : SidedTree χ I)

include hT

theorem injOn_coordKey : Set.InjOn coordKey (Set.image χ I) := fun _ hc _ hd heq =>
  hT.spaced.eq_of_coordKey_eq (p := []) (Or.inr hc) (Or.inr hd) heq

theorem coordKey_injOn : Set.InjOn (fun j => coordKey (χ j)) I := fun _ hi _ hj heq =>
  hT.injOn hi hj (injOn_coordKey hT ⟨_, hi, rfl⟩ ⟨_, hj, rfl⟩ heq)

/-- Right descendants are after the anchor. -/
theorem lt_of_mem_rights {r : ℕ} (hr : r ∈ rights χ I a) :
    coordKey (χ r) < coordKey (chainAt χ a) := by
  obtain ⟨hrI, x, c, hx, hχ⟩ := hr
  have hmem : chainAt χ a ++ x :: c ∈ Set.image χ I := ⟨r, hrI, hχ⟩
  rw [hχ]
  exact hT.spaced.inOrderKey.right _ x c hmem (Link.isLeft_eq_false_iff.mpr hx)

/-- What is after the anchor is a right descendant, or after all of them. -/
theorem lt_of_notMem_rights {i r : ℕ} (hi : i ∈ I) (hlt : coordKey (χ i) < coordKey (chainAt χ a))
    (hnot : i ∉ rights χ I a) (hr : r ∈ rights χ I a) : coordKey (χ i) < coordKey (χ r) := by
  obtain ⟨hrI, x, c, -, hχ⟩ := hr
  have hmem : chainAt χ a ++ x :: c ∈ Set.image χ I := ⟨r, hrI, hχ⟩
  rw [hχ]
  refine hT.spaced.inOrderKey.after_right (injOn_coordKey hT) ⟨i, hi, rfl⟩ hmem hlt
    fun y f hy heq => hnot ⟨hi, y, f, Link.isLeft_eq_false_iff.mp hy, heq⟩

/-- A right descendant is below a right child. -/
theorem exists_child_of_rights {r : ℕ} (hr : r ∈ rights χ I a) :
    ∃ j ∈ I, ∃ x : Link, x.side = .R ∧ χ j = chainAt χ a ++ [x] := by
  obtain ⟨hrI, x, c, hx, hχ⟩ := hr
  have hassoc : chainAt χ a ++ x :: c = (chainAt χ a ++ [x]) ++ c := by simp
  obtain ⟨j, hj, heq⟩ := hT.exists_of_append (by simp) hrI (hχ.trans hassoc)
  exact ⟨j, hj, x, hx, heq⟩

/-- An anchor without an insertion has no descendants. -/
theorem rights_eq_empty {i : ℕ} (hJ : SidedTree χ J) (hi : i ∈ I) (hsub : J ⊆ I)
    (hnot : i ∉ J) : rights χ J (some i) = ∅ := by
  refine Set.eq_empty_iff_forall_notMem.mpr fun r hr => ?_
  obtain ⟨hrJ, x, c, -, hχ⟩ := hr
  obtain ⟨j, hj, heq⟩ := hJ.exists_of_append (hT.chain_ne_nil hi) hrJ hχ
  exact hnot (hT.injOn (hsub hj) hi heq ▸ hj)

/-- All ids are after the root. -/
theorem lt_root (hroots : ∀ i ∈ I, ∀ x c, χ i = x :: c → x.side = .R) {k : ℕ} (hk : k ∈ I) :
    coordKey (χ k) < coordKey [] := by
  obtain ⟨x, c, hχ⟩ := List.exists_cons_of_ne_nil (hT.chain_ne_nil hk)
  have hmem : k ∈ rights χ I none := ⟨hk, x, c, hroots k hk x c hχ, hχ⟩
  exact lt_of_mem_rights hT hmem

/-- Different anchors have different keys. -/
theorem coordKey_chainAt_ne {b : Option ℕ} (ha : ∀ i, a = some i → i ∈ I)
    (hb : ∀ i, b = some i → i ∈ I) (hne : a ≠ b) :
    coordKey (chainAt χ a) ≠ coordKey (chainAt χ b) := by
  have hmem {c : Option ℕ} (hc : ∀ i, c = some i → i ∈ I) :
      chainAt χ c = [] ∨ [] ++ chainAt χ c ∈ Set.image χ I := by
    cases c with
    | none => exact Or.inl rfl
    | some i => exact Or.inr ⟨i, hc i rfl, rfl⟩
  intro heq
  have hid := hT.idOf_chainAt ha
  rw [hT.spaced.eq_of_coordKey_eq (p := []) (hmem ha) (hmem hb) heq, hT.idOf_chainAt hb] at hid
  exact hne hid.symm

end Rights

/-! ### Exact gaps -/

/-- What the gap of an anchor says holds in the tree of the ids of `I`. -/
structure GapExact (χ : ℕ → Chain) (I : Set ℕ) (a : Option ℕ) (g : Gap) : Prop where
  /-- The chain of the successor. -/
  chain : g.succChain = unlabel (chainAt χ g.succId)
  /-- There is a right child when there are right descendants. -/
  hasR_iff : g.hasR = true ↔ (rights χ I a).Nonempty
  /-- The successor is after the anchor. -/
  mem : ∀ i, g.succId = some i → i ∈ I ∧ coordKey (χ i) < coordKey (chainAt χ a)
  /-- If there is a right child, the successor is the first one after the anchor. -/
  next : g.hasR = true → ∃ i, g.succId = some i ∧
    ∀ j ∈ I, coordKey (χ j) < coordKey (chainAt χ a) → coordKey (χ j) ≤ coordKey (χ i)

/-- The place of an id after an anchor, by the gap. -/
inductive PlacedBy (χ : ℕ → Chain) (a : Option ℕ) (g : Gap) (id : ℕ) : Prop
  /-- On the right of the anchor, which has no right child. -/
  | right (x : Link) (hx : x.side = .R) (hgap : g.hasR = false) (hχ : χ id = chainAt χ a ++ [x])
  /-- On the left of the successor. -/
  | left (x : Link) (i : ℕ) (hx : x.side = .L) (hgap : g.hasR = true) (hsucc : g.succId = some i)
    (hχ : χ id = χ i ++ [x])

section Exact

variable {χ : ℕ → Chain} {I J : Set ℕ} {a b : Option ℕ} {g : Gap} {id : ℕ}

theorem rights_eq_empty_of_hasR (hg : GapExact χ I a g) (hR : g.hasR = false) :
    rights χ I a = ∅ := by
  rw [← Set.not_nonempty_iff_eq_empty, ← hg.hasR_iff, hR]
  exact Bool.false_ne_true

/-- The first one after an anchor with right descendants is one of them. -/
theorem GapExact.mem_rights (hT : SidedTree χ I) (hg : GapExact χ I a g) {i : ℕ}
    (hR : g.hasR = true) (hi : g.succId = some i) : i ∈ rights χ I a := by
  obtain ⟨r, hr⟩ := hg.hasR_iff.mp hR
  obtain ⟨hiI, hlt⟩ := hg.mem i hi
  obtain ⟨j, hj, hnext⟩ := hg.next hR
  obtain rfl : i = j := Option.some.inj (hi.symm.trans hj)
  by_contra hnot
  exact absurd (hnext r hr.1 (lt_of_mem_rights hT hr))
    (not_le.mpr (lt_of_notMem_rights hT hiI hlt hnot hr))

/-- **An insertion lands immediately after its anchor.** -/
theorem GapExact.landing (hT : SidedTree χ (insert id I)) (hTI : SidedTree χ I)
    (hg : GapExact χ I a g) (hp : PlacedBy χ a g id) : id ∈ rights χ (insert id I) a ∧
      ∀ j ∈ I, coordKey (χ j) < coordKey (chainAt χ a) → coordKey (χ j) < coordKey (χ id) := by
  have hmem : id ∈ rights χ (insert id I) a := by
    refine ⟨Set.mem_insert _ _, ?_⟩
    cases hp with
    | right x hx _ hχ => exact ⟨x, [], hx, hχ⟩
    | left x i _ hR hi hχ =>
      obtain ⟨-, y, c, hy, hχ'⟩ := hg.mem_rights hTI hR hi
      exact ⟨y, c ++ [x], hy, by rw [hχ, hχ']; simp⟩
  refine ⟨hmem, fun j hj hlt => ?_⟩
  by_cases hjr : j ∈ rights χ I a
  · cases hp with
    | right x _ hR _ =>
      rw [rights_eq_empty_of_hasR hg hR] at hjr
      exact absurd hjr (Set.notMem_empty j)
    | left x i hx hR hi hχ =>
      -- The insertion is below the first one, on the left.
      obtain ⟨i', hi', hnext⟩ := hg.next hR
      obtain rfl : i = i' := Option.some.inj (hi.symm.trans hi')
      refine (hnext j hj hlt).trans_lt ?_
      rw [hχ]
      exact hT.spaced.inOrderKey.left _ x [] ⟨id, Set.mem_insert _ _, hχ⟩ (Link.isLeft_iff.mpr hx)
  · exact lt_of_notMem_rights hT (Set.mem_insert_of_mem _ hj) hlt
      (fun hcon => hjr ⟨hj, hcon.2⟩) hmem

/-- The gap of the anchor after an insertion. -/
theorem GapExact.linked (hT : SidedTree χ (insert id I)) (hTI : SidedTree χ I)
    (hg : GapExact χ I a g) (hp : PlacedBy χ a g id) :
    GapExact χ (insert id I) a ⟨true, some id, unlabel (χ id)⟩ := by
  obtain ⟨hmem, hafter⟩ := hg.landing hT hTI hp
  refine ⟨rfl, ⟨fun _ => ⟨id, hmem⟩, fun _ => rfl⟩, fun i hi => ?_, fun _ => ⟨id, rfl, ?_⟩⟩
  · obtain rfl := Option.some.inj hi
    exact ⟨hmem.1, lt_of_mem_rights hT hmem⟩
  · intro j hj hlt
    rcases hj with rfl | hj
    · exact le_rfl
    · exact (hafter j hj hlt).le

/-- The gap of the new id. -/
theorem GapExact.fresh (hT : SidedTree χ (insert id I)) (hTI : SidedTree χ I) (hid : id ∉ I)
    (hg : GapExact χ I a g) (hp : PlacedBy χ a g id) :
    GapExact χ (insert id I) (some id) { g with hasR := false } := by
  obtain ⟨-, hafter⟩ := hg.landing hT hTI hp
  have hempty : rights χ (insert id I) (some id) = ∅ := by
    have hnew : rights χ I (some id) = ∅ :=
      rights_eq_empty hT hTI (Set.mem_insert _ _) (Set.subset_insert _ _) hid
    refine Set.eq_empty_iff_forall_notMem.mpr fun r hr => ?_
    obtain ⟨rfl | hrI, x, c, hx, hχ⟩ := hr
    · have hlen := congrArg List.length hχ
      simp [chainAt] at hlen
    · exact Set.notMem_empty r (hnew ▸ ⟨hrI, x, c, hx, hχ⟩)
  refine ⟨hg.chain, ?_, fun i hi => ?_, fun hR => ?_⟩
  · rw [hempty]
    simp
  · obtain ⟨hiI, hlt⟩ := hg.mem i hi
    exact ⟨Set.mem_insert_of_mem _ hiI, hafter i hiI hlt⟩
  · cases hR

/-- **The gaps of other anchors** stay exact. -/
theorem GapExact.keep {h : Gap} (hT : SidedTree χ (insert id I)) (hTI : SidedTree χ I)
    (hg : GapExact χ I a g) (hp : PlacedBy χ a g id) (hb : GapExact χ I b h) (hne : b ≠ a)
    (ha : ∀ i, a = some i → i ∈ I) (hbI : ∀ i, b = some i → i ∈ I)
    (hroots : ∀ i ∈ I, ∀ x c, χ i = x :: c → x.side = .R) : GapExact χ (insert id I) b h := by
  obtain ⟨hmem, hafter⟩ := hg.landing hT hTI hp
  have hlt := lt_of_mem_rights hT hmem
  refine ⟨hb.chain, ?_, fun i hi => ?_, fun hR => ?_⟩
  · rw [hb.hasR_iff]
    refine ⟨fun hr => hr.mono (rights_mono (Set.subset_insert _ _)), ?_⟩
    rintro ⟨r, rfl | hrI, x, c, hx, hχ⟩
    · rcases List.eq_nil_or_concat c with rfl | ⟨c, y, rfl⟩
      · -- A right child of the other anchor would be placed there.
        cases hp with
        | right z _ _ hχ' =>
          rw [hχ'] at hχ
          have hchain := (List.append_inj' hχ rfl).1
          have hid := hTI.idOf_chainAt ha
          rw [hchain, hTI.idOf_chainAt hbI] at hid
          exact absurd hid hne
        | left z i hz _ _ hχ' =>
          rw [hχ'] at hχ
          have hlink := (List.append_inj' hχ rfl).2
          rw [List.singleton_inj] at hlink
          rw [hlink, hx] at hz
          cases hz
      · -- Its parent is below the other anchor as well.
        have hassoc : chainAt χ b ++ x :: (c ++ [y]) = (chainAt χ b ++ x :: c) ++ [y] := by simp
        rw [List.concat_eq_append, hassoc] at hχ
        cases hp with
        | right z _ _ hχ' =>
          rw [hχ'] at hχ
          have hchain := (List.append_inj' hχ rfl).1
          cases a with
          | none => simp [chainAt] at hchain
          | some i => exact ⟨i, ha i rfl, x, c, hx, hchain⟩
        | left z i _ _ hi hχ' =>
          rw [hχ'] at hχ
          exact ⟨i, (hg.mem i hi).1, x, c, hx, (List.append_inj' hχ rfl).1⟩
    · exact ⟨r, hrI, x, c, hx, hχ⟩
  · obtain ⟨hiI, hlt⟩ := hb.mem i hi
    exact ⟨Set.mem_insert_of_mem _ hiI, hlt⟩
  · obtain ⟨i, hi, hnext⟩ := hb.next hR
    refine ⟨i, hi, fun j hj hjb => ?_⟩
    rcases hj with rfl | hj
    · -- The other anchor is not between the anchor and the insertion.
      by_contra hcon
      rw [not_le] at hcon
      rcases lt_or_gt_of_ne (coordKey_chainAt_ne hTI ha hbI hne.symm) with hab | hba
      · cases a with
        | none =>
          obtain ⟨k, rfl⟩ := Option.ne_none_iff_exists'.mp hne
          exact absurd (lt_root hTI hroots (hbI k rfl)) (lt_asymm hab)
        | some k => exact absurd (hlt.trans_le (hnext k (ha k rfl) hab)) (lt_asymm hcon)
      · cases b with
        | none =>
          obtain ⟨k, rfl⟩ := Option.ne_none_iff_exists'.mp hne.symm
          exact absurd (lt_root hTI hroots (ha k rfl)) (lt_asymm hba)
        | some k => exact absurd (hafter k (hbI k rfl) hba) (lt_asymm hjb)
    · exact hnext j hj hjb

/-! ### Merged gaps -/

/-- What another side has inserted after an anchor, and not below it on the right, is not before
the successor. -/
theorem GapExact.le_succ (hT : SidedTree χ (I ∪ J)) (hg : GapExact χ I a g) {i : ℕ}
    (hR : g.hasR = true) (hi : g.succId = some i) (hempty : rights χ J a = ∅) {j : ℕ} (hj : j ∈ J)
    (hlt : coordKey (χ j) < coordKey (chainAt χ a)) : coordKey (χ j) ≤ coordKey (χ i) := by
  obtain ⟨r, hr⟩ := hg.hasR_iff.mp hR
  obtain ⟨i', hi', hnext⟩ := hg.next hR
  obtain rfl : i = i' := Option.some.inj (hi.symm.trans hi')
  have hr' := rights_mono (J := I ∪ J) Set.subset_union_left hr
  have hjr : j ∉ rights χ (I ∪ J) a := fun hcon => by
    have hmem : j ∈ rights χ J a := ⟨hj, hcon.2⟩
    rw [hempty] at hmem
    exact hmem
  exact (lt_of_notMem_rights hT (Or.inr hj) hlt hjr hr').le.trans
    (hnext r hr.1 (lt_of_mem_rights hT hr'))

/-- The gap of an anchor that the other side has not seen. -/
theorem GapExact.widen (hT : SidedTree χ (I ∪ J)) (hg : GapExact χ I a g)
    (hempty : rights χ J a = ∅) : GapExact χ (I ∪ J) a g := by
  refine ⟨hg.chain, ?_, fun i hi => (hg.mem i hi).imp_left Or.inl, fun hR => ?_⟩
  · rw [rights_union, hempty, Set.union_empty, hg.hasR_iff]
  · obtain ⟨i, hi, hnext⟩ := hg.next hR
    refine ⟨i, hi, fun j hj hlt => ?_⟩
    rcases hj with hj | hj
    · exact hnext j hj hlt
    · exact hg.le_succ hT hR hi hempty hj hlt

/-- The later of two successors. -/
theorem maxSucc_spec {g h : Gap} (hg : g.succChain = unlabel (chainAt χ g.succId))
    (hh : h.succChain = unlabel (chainAt χ h.succId)) : (maxSucc g h = g ∨ maxSucc g h = h) ∧
      ∀ i, g.succId = some i ∨ h.succId = some i →
        ∃ k, (maxSucc g h).succId = some k ∧ coordKey (χ i) ≤ coordKey (χ k) := by
  rw [maxSucc]
  cases hgi : g.succId with
  | none =>
    rw [if_pos rfl]
    refine ⟨Or.inr rfl, fun i hi => ?_⟩
    rcases hi with hi | hi
    · cases hi
    · exact ⟨i, hi, le_rfl⟩
  | some m =>
    rw [if_neg (by simp)]
    cases hhi : h.succId with
    | none =>
      rw [if_pos rfl]
      refine ⟨Or.inl rfl, fun i hi => ?_⟩
      rcases hi with hi | hi
      · exact ⟨i, hgi.trans hi, le_rfl⟩
      · cases hi
    | some n =>
      rw [if_neg (by simp), hg, hh, hgi, hhi, chainAt, chainAt, coordKey_unlabel, coordKey_unlabel]
      split_ifs with hlt
      · refine ⟨Or.inr rfl, fun i hi => ⟨n, hhi, ?_⟩⟩
        rcases hi with hi | hi
        · cases hi
          exact hlt.le
        · cases hi
          exact le_rfl
      · refine ⟨Or.inl rfl, fun i hi => ⟨m, hgi, ?_⟩⟩
        rcases hi with hi | hi
        · cases hi
          exact le_rfl
        · cases hi
          exact not_lt.mp hlt

theorem mergeGap_eq (g h : Gap) :
    mergeGap g h = ⟨g.hasR || h.hasR, (maxSucc g h).succId, (maxSucc g h).succChain⟩ := by
  rw [mergeGap]
  split_ifs with heq
  · subst heq
    have hmax : maxSucc g g = g := by
      rw [maxSucc]
      split_ifs <;> rfl
    rw [hmax, Bool.or_self]
  · rfl

/-- **Merged gaps** are exact. -/
theorem GapExact.merge {h : Gap} (hT : SidedTree χ (I ∪ J)) (hg : GapExact χ I a g)
    (hh : GapExact χ J a h) : GapExact χ (I ∪ J) a (mergeGap g h) := by
  obtain ⟨hwin, hmax⟩ := maxSucc_spec hg.chain hh.chain
  have hT' : SidedTree χ (J ∪ I) := Set.union_comm I J ▸ hT
  rw [mergeGap_eq]
  refine ⟨?_, ?_, fun i hi => ?_, fun hR => ?_⟩
  · rcases hwin with heq | heq
    · rw [heq]
      exact hg.chain
    · rw [heq]
      exact hh.chain
  · rw [rights_union, Set.union_nonempty, ← hg.hasR_iff, ← hh.hasR_iff, Bool.or_eq_true]
  · rcases hwin with heq | heq
    · rw [heq] at hi
      exact (hg.mem i hi).imp_left Or.inl
    · rw [heq] at hi
      exact (hh.mem i hi).imp_left Or.inr
  · rw [Bool.or_eq_true] at hR
    -- Below the winner are both successors, and with them the ids of their sides.
    have hside {g h : Gap} {I J : Set ℕ} (hT : SidedTree χ (I ∪ J)) (hg : GapExact χ I a g)
        (hh : GapExact χ J a h) (hR : g.hasR = true) : ∃ i, g.succId = some i ∧
          (∀ j ∈ I, coordKey (χ j) < coordKey (chainAt χ a) → coordKey (χ j) ≤ coordKey (χ i)) ∧
          ∀ j ∈ J, coordKey (χ j) < coordKey (chainAt χ a) → coordKey (χ j) ≤ coordKey (χ i) ∨
            ∃ i', h.succId = some i' ∧ coordKey (χ j) ≤ coordKey (χ i') := by
      obtain ⟨i, hi, hnext⟩ := hg.next hR
      refine ⟨i, hi, hnext, fun j hj hlt => ?_⟩
      cases hR' : h.hasR with
      | true =>
        obtain ⟨i', hi', hnext'⟩ := hh.next hR'
        exact Or.inr ⟨i', hi', hnext' j hj hlt⟩
      | false => exact Or.inl (hg.le_succ hT hR hi (rights_eq_empty_of_hasR hh hR') hj hlt)
    rcases hR with hR | hR
    · obtain ⟨i, hi, hI, hJ⟩ := hside hT hg hh hR
      obtain ⟨k, hk, hik⟩ := hmax i (Or.inl hi)
      refine ⟨k, hk, fun j hj hlt => ?_⟩
      rcases hj with hj | hj
      · exact (hI j hj hlt).trans hik
      · rcases hJ j hj hlt with hle | ⟨i', hi', hle⟩
        · exact hle.trans hik
        · obtain ⟨k', hk', hik'⟩ := hmax i' (Or.inr hi')
          obtain rfl : k = k' := Option.some.inj (hk.symm.trans hk')
          exact hle.trans hik'
    · obtain ⟨i, hi, hJ, hI⟩ := hside hT' hh hg hR
      obtain ⟨k, hk, hik⟩ := hmax i (Or.inr hi)
      refine ⟨k, hk, fun j hj hlt => ?_⟩
      rcases hj with hj | hj
      · rcases hI j hj hlt with hle | ⟨i', hi', hle⟩
        · exact hle.trans hik
        · obtain ⟨k', hk', hik'⟩ := hmax i' (Or.inl hi')
          obtain rfl : k = k' := Option.some.inj (hk.symm.trans hk')
          exact hle.trans hik'
      · exact (hJ j hj hlt).trans hik

end Exact

/-! ### The operations -/

variable {s s' : State α} {id : ℕ} {el : α} {a : Option ℕ}

/-- What preparing an insertion does. -/
theorem prepare_ins_eq_ok {op : SidedOp α} (h : prepare s (.ins id el a none) = .ok op) :
    ∃ g p, 1 ≤ id ∧ s.records.has id = false ∧ anchorGap s a = some g ∧
      op = .ins id el a (some p) ∧ p.side = mintSide g.hasR g.succId ∧
      p.parentId = mintParent g.succId a p.side := by
  rw [prepare] at h
  by_cases hbad : id < 1 ∨ s.records.has id = true
  · rw [if_pos hbad] at h
    cases h
  · rw [if_neg hbad] at h
    cases hg : anchorGap s a with
    | none =>
      rw [hg] at h
      cases h
    | some g =>
      rw [hg] at h
      simp only [pure, Except.pure] at h
      split_ifs at h
      cases h
      rw [not_or, Bool.not_eq_true, not_lt] at hbad
      exact ⟨g, _, hbad.1, hbad.2, rfl, rfl, rfl, rfl⟩

/-- What inserting at a place does. -/
theorem insertAt_eq_ok {p : Placement id} (h : insertAt s id el a p = .ok s') :
    ∃ g pc, anchorGap s a = some g ∧ p.parentId = mintParent g.succId a p.side ∧
      parentChain s p.parentId g = .ok pc ∧
      s' = linkRec s id el a g (pc ++ [⟨p.side, id - p.parentId.getD 0, 0⟩]) := by
  rw [insertAt] at h
  cases hg : anchorGap s a with
  | none =>
    rw [hg] at h
    simp only at h
    split_ifs at h
  | some g =>
    rw [hg] at h
    by_cases hne : p.parentId ≠ mintParent g.succId a p.side
    · simp only [if_pos hne] at h
      cases h
    · simp only [if_neg hne] at h
      cases hpc : parentChain s p.parentId g with
      | error e =>
        rw [hpc] at h
        cases h
      | ok pc =>
        rw [hpc] at h
        cases h
        exact ⟨g, pc, rfl, not_not.mp hne, hpc, rfl⟩

/-- The gaps after an insertion. -/
theorem anchorGap_linkRec (ha : ∀ i, a = some i → s.records.has i = true) {g : Gap} {ch : Chain}
    {b : Option ℕ} :
    anchorGap (linkRec s id el a g ch) b =
      if b = some id then some { g with hasR := false }
      else if b = a then some ⟨true, some id, ch⟩ else anchorGap s b := by
  cases b with
  | none =>
    rw [if_neg (by simp), anchorGap, linkRec]
    cases a <;> rfl
  | some i =>
    rw [anchorGap, linkRec, SortedMap.get?_insert, SortedMap.get?_modifyAt]
    by_cases hi : i = id
    · simp [hi]
    · by_cases hia : some i = a
      · obtain ⟨r, hr⟩ := SortedMap.has_iff.mp (ha i hia.symm)
        simp [hi, ← hia, hr]
      · simp [hi, hia, Ne.symm hia, anchorGap]

/-- The gaps after a deletion. -/
theorem anchorGap_erase {i : ℕ} {b : Option ℕ} {g : Gap}
    (hg : anchorGap { s with records := s.records.erase i, order := none } b = some g) :
    anchorGap s b = some g := by
  cases b with
  | none => exact hg
  | some j =>
    rw [anchorGap, SortedMap.get?_erase] at hg
    split_ifs at hg
    · cases hg
    · exact hg

/-- The records of a merge. -/
theorem has_merge3 (l a b : State α) (i : ℕ) : (merge3 l a b).records.has i =
    (a.records.has i && b.records.has i || a.records.has i && !l.records.has i ||
      b.records.has i && !l.records.has i) := by
  have ha : a.records.has i = (a.records.get? i).isSome := rfl
  have hb : b.records.has i = (b.records.get? i).isSome := rfl
  rw [ha, hb, SortedMap.has, get?_merge3, mergeRec]
  by_cases hl : l.records.has i = true
  · cases a.records.get? i <;> cases b.records.get? i <;> simp [hl]
  · cases a.records.get? i <;> cases b.records.get? i <;> simp [hl]

/-- The anchor with a gap is the root or has a record. -/
theorem has_of_anchorGap {b : Option ℕ} {g : Gap} (hg : anchorGap s b = some g) :
    ∀ i, b = some i → s.records.has i = true := by
  rintro i rfl
  obtain ⟨r, hr, -⟩ := Option.map_eq_some_iff.mp hg
  exact SortedMap.has_iff.mpr ⟨r, hr⟩

/-! ### Reachable states -/

/-- The ids that operations insert. -/
def ids (E : Set (SidedOp α)) : Set ℕ := inserted (seqOps E)

/-- The state has the gaps of its history `E`, and the state `u` of the full kernel has the same
history. -/
structure Exact (χ : ℕ → Chain) (E : Set (SidedOp α)) (u : UnifiedSided.State α) (s : State α) :
    Prop where
  /-- The ids have chains. -/
  tree : SidedTree χ (ids E)
  /-- Chains start on the right of the root. -/
  roots : ∀ i ∈ ids E, ∀ x c, χ i = x :: c → x.side = .R
  /-- The full kernel has a node for every id. -/
  policy : PolicyState χ (ids E) u
  /-- The state is its summary. -/
  summary : Summarizes χ u s
  /-- The records are those of the live ids. -/
  has_iff : ∀ i, s.records.has i = true ↔ i ∈ live (seqOps E)
  /-- Deleted ids were inserted. -/
  deleted : deleted (seqOps E) ⊆ ids E
  /-- Gaps are exact. -/
  gap : ∀ b g, anchorGap s b = some g → GapExact χ (ids E) b g

section Steps

variable {χ : ℕ → Chain} {U E L A B : Set (SidedOp α)} {u : UnifiedSided.State α}

theorem exact_init (χ : ℕ → Chain) : Exact χ (∅ : Set (SidedOp α)) UnifiedSided.init init := by
  have hempty : ids (∅ : Set (SidedOp α)) = ∅ := by simp [ids, seqOps, inserted]
  refine ⟨?_, ?_, hempty ▸ .init, .init, fun i => ?_, ?_, fun b g hg => ?_⟩
  · rw [hempty]
    exact fun i hi => absurd hi (Set.notMem_empty i)
  · rw [hempty]
    exact fun i hi => absurd hi (Set.notMem_empty i)
  · simp [init, live, inserted, seqOps, SalRuntime.deleted]
  · simp [seqOps, SalRuntime.deleted]
  · cases b with
    | none =>
      cases hg
      refine ⟨rfl, ?_, fun i hi => ?_, fun hR => ?_⟩
      · rw [hempty]
        simp [init, gap0, rights]
      · cases hi
      · cases hR
    | some i => simp [anchorGap, init] at hg

/-- What is known about an insertion at a state with exact gaps. -/
theorem Exact.placedBy (h : Exact χ E u s) {g : Gap} {p : Placement id}
    (hg : anchorGap s a = some g) (hside : p.side = mintSide g.hasR g.succId)
    (hparent : p.parentId = mintParent g.succId a p.side)
    (hχ : χ id = chainAt χ p.parentId ++ [⟨p.side, id - p.parentId.getD 0, id⟩]) :
    PlacedBy χ a g id ∧ ∀ q, p.parentId = some q → q ∈ ids E := by
  have hexact := h.gap a g hg
  cases hR : g.hasR with
  | false =>
    have hright : p.side = .R := by rw [hside, hR, mintSide, Bool.false_and]; rfl
    rw [hright, mintParent] at hparent
    rw [hright, hparent] at hχ
    refine ⟨.right _ rfl hR hχ, fun q hq => ?_⟩
    have hhas := has_of_anchorGap hg q (hparent.symm.trans hq)
    exact ((h.has_iff q).mp hhas).1
  | true =>
    obtain ⟨i, hi, -⟩ := hexact.next hR
    have hleft : p.side = .L := by rw [hside, hR, hi, mintSide]; rfl
    rw [hleft, mintParent, hi] at hparent
    rw [hleft, hparent] at hχ
    refine ⟨.left _ i rfl hR hi hχ, fun q hq => ?_⟩
    obtain rfl : i = q := Option.some.inj (hparent.symm.trans hq)
    exact (hexact.mem i hi).1

/-- **An insertion** keeps the gaps exact. -/
theorem Exact.ins (h : Exact χ E u s) (hχ : PlacedChains χ U) {placed : SidedOp α}
    (hid : id ∉ ids E) (hp : prepare s (.ins id el a none) = .ok placed) (hU : placed ∈ U)
    (hs : apply s placed = .ok s') :
    ∃ u', UnifiedSided.apply u placed = .ok u' ∧ Exact χ (insert placed E) u' s' := by
  obtain ⟨g, p, -, hnew, hg, rfl, hside, hparent⟩ := prepare_ins_eq_ok hp
  have hhas := has_of_anchorGap hg
  have hchain := hχ id el a p hU
  have hids : ids (insert (.ins id el a (some p)) E) = insert id (ids E) := by
    rw [ids, seqOps_insert]
    exact inserted_insert_ins ..
  have hlive : live (seqOps (insert (.ins id el a (some p)) E)) = insert id (live (seqOps E)) := by
    rw [seqOps_insert]
    exact live_insert_ins h.deleted hid
  obtain ⟨hplaced, hmem⟩ := h.placedBy hg hside hparent hchain
  have htree : SidedTree χ (insert id (ids E)) := by
    have hins : SidedTree (Function.update χ id
        (chainAt χ p.parentId ++ [⟨p.side, id - p.parentId.getD 0, id⟩])) (insert id (ids E)) :=
      h.tree.insert hid hmem p.lt
    rwa [← hchain, Function.update_eq_self] at hins
  obtain ⟨g', hgu, hgs, -⟩ := h.summary.exists_gap h.policy hhas
  obtain rfl : g = summaryGap χ g' := Option.some.inj (hg.symm.trans hgs)
  obtain ⟨u', t, hu', ht, hpolicy, hsum⟩ := h.summary.insertAt h.policy el hhas hmem
    ⟨g', hgu, hparent⟩ hchain
  have happly : apply s (.ins id el a (some p)) = insertAt s id el a p := rfl
  rw [happly] at hs
  obtain rfl : t = s' := Except.ok.inj (ht.symm.trans hs)
  refine ⟨u', hu', ?_⟩
  have hexact := h.gap a _ hg
  obtain ⟨g'', pc, hg'', hparent', hpc, rfl⟩ := insertAt_eq_ok hs
  obtain rfl : summaryGap χ g' = g'' := Option.some.inj (hg.symm.trans hg'')
  have hpc' : pc = unlabel (chainAt χ p.parentId) :=
    Except.ok.inj (hpc.symm.trans (h.summary.parentChain_eq h.policy hhas hparent))
  have hch : pc ++ [⟨p.side, id - p.parentId.getD 0, 0⟩] = unlabel (χ id) := by
    rw [hchain, unlabel_append, hpc']
    rfl
  have hroots : ∀ i ∈ insert id (ids E), ∀ x c, χ i = x :: c → x.side = .R := by
    rintro i (rfl | hi) x c heq
    · cases hplaced with
      | right y hy _ hχi =>
        cases a with
        | none =>
          rw [hχi] at heq
          rw [← List.head_eq_of_cons_eq heq, hy]
        | some j =>
          have hj := ((h.has_iff j).mp (hhas j rfl)).1
          obtain ⟨z, d, hz⟩ := List.exists_cons_of_ne_nil (h.tree.chain_ne_nil hj)
          rw [hχi, chainAt, hz, List.cons_append] at heq
          rw [← List.head_eq_of_cons_eq heq]
          exact h.roots j hj z d hz
      | left y j _ _ hj hχi =>
        have hj := (hexact.mem j hj).1
        obtain ⟨z, d, hz⟩ := List.exists_cons_of_ne_nil (h.tree.chain_ne_nil hj)
        rw [hχi, hz, List.cons_append] at heq
        rw [← List.head_eq_of_cons_eq heq]
        exact h.roots j hj z d hz
    · exact h.roots i hi x c heq
  have hanchor : ∀ i, a = some i → i ∈ ids E := fun i hi => ((h.has_iff i).mp (hhas i hi)).1
  refine ⟨hids ▸ htree, hids ▸ hroots, hids ▸ hpolicy, hsum, fun i => ?_, ?_, fun b k hk => ?_⟩
  · rw [hlive, linkRec, SortedMap.has_insert, Bool.or_eq_true, decide_eq_true_iff,
      Set.mem_insert_iff, ← h.has_iff, SortedMap.has, SortedMap.get?_modifyAt, SortedMap.has]
    split_ifs <;> simp
  · rw [seqOps_insert, hids]
    exact (deleted_insert_ins ..).subset.trans (h.deleted.trans (Set.subset_insert _ _))
  · rw [anchorGap_linkRec hhas, hch] at hk
    rw [hids]
    split_ifs at hk with hb hba
    · cases hk
      exact hb ▸ hexact.fresh htree h.tree hid hplaced
    · cases hk
      exact hba ▸ hexact.linked htree h.tree hplaced
    · refine hexact.keep htree h.tree hplaced (h.gap b k hk) hba hanchor (fun i hi => ?_) h.roots
      exact ((h.has_iff i).mp (has_of_anchorGap hk i hi)).1

/-- **A deletion** keeps the gaps exact. -/
theorem Exact.del (h : Exact χ E u s) (hid : id ∈ live (seqOps E))
    (hs : apply s (.del id) = .ok s') :
    ∃ u', UnifiedSided.apply u (.del id) = .ok u' ∧ Exact χ (insert (.del id) E) u' s' := by
  obtain ⟨u', t, hu', ht, hpolicy, hsum⟩ := h.summary.apply_del h.policy id
  obtain rfl : t = s' := Except.ok.inj (ht.symm.trans hs)
  have hids : ids (insert (.del id) E) = ids E := by
    rw [ids, seqOps_insert]
    exact inserted_insert_del ..
  have hlive : live (seqOps (insert (.del id) E)) = live (seqOps E) \ {id} := by
    rw [seqOps_insert]
    exact live_insert_del
  rw [apply, (h.has_iff id).mpr hid, if_pos rfl] at hs
  obtain rfl := Except.ok.inj hs
  refine ⟨u', hu', hids ▸ h.tree, hids ▸ h.roots, hids ▸ hpolicy, hsum, fun i => ?_, ?_,
    fun b g hg => hids ▸ h.gap b g (anchorGap_erase hg)⟩
  · rw [hlive, SortedMap.has_erase, Bool.and_eq_true, decide_eq_true_iff, h.has_iff]
    exact and_comm
  · rw [seqOps_insert, hids]
    exact (deleted_insert_del ..).subset.trans (Set.insert_subset hid.1 h.deleted)

/-- **A merge** keeps the gaps exact, if the records that one side has and the other side and the base
lack are new to the other side. -/
theorem Exact.merge_of {J : Set ℕ} {l a b : State α} {lu au bu : UnifiedSided.State α}
    (hJ : J ⊆ ids A) (hlu : PolicyState χ J lu) (hl : Summarizes χ lu l) (ha : Exact χ A au a)
    (hb : Exact χ B bu b) (hlive : live (seqOps (A ∪ B)) =
      mergeLive {i | l.records.has i = true} (live (seqOps A)) (live (seqOps B)))
    (hleft : ∀ i, a.records.has i = true → b.records.has i = false → l.records.has i = false →
      i ∉ ids B)
    (hright : ∀ i, b.records.has i = true → a.records.has i = false → l.records.has i = false →
      i ∉ ids A) :
    ∃ m, UnifiedSided.merge3 lu au bu = .ok m ∧ Exact χ (A ∪ B) m (merge3 l a b) := by
  obtain ⟨m, hmok, hpolicy, hsum⟩ := Summarizes.merge3 hJ hlu ha.policy hb.policy hl ha.summary
    hb.summary
  have hids : ids (A ∪ B) = ids A ∪ ids B := by
    rw [ids, seqOps_union, inserted_union]
    rfl
  have htree : SidedTree χ (ids A ∪ ids B) := ha.tree.union hb.tree
  have htree' : SidedTree χ (ids B ∪ ids A) := hb.tree.union ha.tree
  refine ⟨m, hmok, hids ▸ htree, ?_, hids ▸ hpolicy, hsum, fun i => ?_, ?_, fun c g hg => ?_⟩
  · rw [hids]
    rintro i (hi | hi)
    · exact ha.roots i hi
    · exact hb.roots i hi
  · rw [hlive, has_merge3, mergeLive]
    simp only [Set.mem_union, Set.mem_inter_iff, Set.mem_sdiff, ← ha.has_iff, ← hb.has_iff,
      Set.mem_ofPred_eq, Bool.or_eq_true, Bool.and_eq_true, Bool.not_eq_true', Bool.not_eq_true]
  · rw [seqOps_union, deleted_union, hids]
    exact Set.union_subset_union ha.deleted hb.deleted
  · rw [hids]
    cases c with
    | none =>
      cases hg
      exact (ha.gap none _ rfl).merge htree (hb.gap none _ rfl)
    | some i =>
      obtain ⟨r, hr, rfl⟩ := Option.map_eq_some_iff.mp hg
      rw [get?_merge3, mergeRec] at hr
      cases hra : a.records.get? i with
      | some ra =>
        have hga : anchorGap a (some i) = some ra.gap := by rw [anchorGap, hra]; rfl
        have hi : a.records.has i = true := SortedMap.has_iff.mpr ⟨_, hra⟩
        cases hrb : b.records.get? i with
        | some rb =>
          have hgb : anchorGap b (some i) = some rb.gap := by rw [anchorGap, hrb]; rfl
          rw [hra, hrb] at hr
          cases hr
          exact (ha.gap _ _ hga).merge htree (hb.gap _ _ hgb)
        | none =>
          rw [hra, hrb] at hr
          simp only at hr
          split_ifs at hr with hli
          cases hr
          have hnot := hleft i hi (SortedMap.has_eq_false_iff.mpr hrb) (Bool.not_eq_true _ ▸ hli)
          exact (ha.gap _ _ hga).widen htree (rights_eq_empty htree hb.tree
            (Or.inl ((ha.has_iff i).mp hi).1) Set.subset_union_right hnot)
      | none =>
        cases hrb : b.records.get? i with
        | some rb =>
          have hgb : anchorGap b (some i) = some rb.gap := by rw [anchorGap, hrb]; rfl
          have hi : b.records.has i = true := SortedMap.has_iff.mpr ⟨_, hrb⟩
          rw [hra, hrb] at hr
          simp only at hr
          split_ifs at hr with hli
          cases hr
          have hnot := hright i hi (SortedMap.has_eq_false_iff.mpr hra) (Bool.not_eq_true _ ▸ hli)
          exact Set.union_comm (ids A) (ids B) ▸ (hb.gap _ _ hgb).widen htree'
            (rights_eq_empty htree' ha.tree (Or.inl ((hb.has_iff i).mp hi).1)
              Set.subset_union_right hnot)
        | none =>
          rw [hra, hrb] at hr
          simp at hr

/-- A merge over a common causal ancestor keeps the gaps exact. -/
theorem Exact.merge {l a b : State α} {lu au bu : UnifiedSided.State α} (hl : Exact χ L lu l)
    (ha : Exact χ A au a) (hb : Exact χ B bu b)
    (hm : Mergeable (seqOps L) (seqOps A) (seqOps B)) :
    ∃ m, UnifiedSided.merge3 lu au bu = .ok m ∧ Exact χ (A ∪ B) m (merge3 l a b) := by
  have hsub : ids L ⊆ ids A := fun i hi => (hm.inserted_eq ▸ hi : i ∈ ids A ∩ ids B).1
  have hbase : {i | l.records.has i = true} = live (seqOps L) := Set.ext fun i => hl.has_iff i
  have hlive : live (seqOps (A ∪ B)) = mergeLive {i | l.records.has i = true} (live (seqOps A))
      (live (seqOps B)) := by
    rw [seqOps_union, hbase]
    exact (live_eq_mergeLive hm.inserted_eq hm.deleted_subset hm.left hm.right).symm
  -- An id of both sides that the base has not deleted has a record in the base.
  have hone {C D : Set (SidedOp α)} {c : State α} {cu : UnifiedSided.State α} {i : ℕ}
      (hc : Exact χ C cu c) (hins : inserted (seqOps L) = ids C ∩ ids D)
      (hdel : SalRuntime.deleted (seqOps L) ⊆ SalRuntime.deleted (seqOps C))
      (hci : c.records.has i = true) (hli : l.records.has i = false) : i ∉ ids D := by
    have hlive := (hc.has_iff i).mp hci
    intro hiD
    have hmem : i ∈ inserted (seqOps L) := hins ▸ ⟨hlive.1, hiD⟩
    have hliL : i ∈ live (seqOps L) := ⟨hmem, fun hcon => hlive.2 (hdel hcon)⟩
    rw [(hl.has_iff i).mpr hliL] at hli
    cases hli
  exact Exact.merge_of hsub hl.policy hl.summary ha hb hlive
    (fun i hi _ hli => hone ha hm.inserted_eq
      (hm.deleted_subset.trans Set.inter_subset_left) hi hli)
    (fun i hi _ hli => hone hb (hm.inserted_eq.trans (Set.inter_comm _ _))
      (hm.deleted_subset.trans Set.inter_subset_right) hi hli)

/-- **The gaps of reachable states are exact**, and the full kernel follows. -/
theorem Reachable.exact (h : Reachable U E s) (hχ : PlacedChains χ U) :
    ∃ u, UnifiedSided.Reachable U E u ∧ Exact χ E u s := by
  induction h with
  | init => exact ⟨_, .init, exact_init χ⟩
  | @apply E s op placed s' _ happ hp hU hs ih =>
    obtain ⟨u, hu, hexact⟩ := ih
    cases op with
    | ins id el a =>
      obtain ⟨u', hu', hexact'⟩ := hexact.ins hχ happ.1 hp hU hs
      exact ⟨u', hu.apply hU hu', hexact'⟩
    | del id =>
      cases hp
      obtain ⟨u', hu', hexact'⟩ := hexact.del happ hs
      exact ⟨u', hu.apply hU hu', hexact'⟩
  | merge _ _ _ hm ihl iha ihb =>
    obtain ⟨lu, hlu, hl⟩ := ihl
    obtain ⟨au, hau, ha⟩ := iha
    obtain ⟨bu, hbu, hb⟩ := ihb
    obtain ⟨m, hmok, hexact⟩ := hl.merge ha hb hm
    exact ⟨m, hlu.merge hau hbu hm hmok, hexact⟩

/-! ### The order -/

theorem Exact.readIds_spec (h : Exact χ E u s) :
    ((readIds s).Pairwise fun i j => coordKey (χ j) < coordKey (χ i)) ∧
      ∀ i, i ∈ readIds s ↔ i ∈ live (seqOps E) := by
  obtain ⟨hpair, hmem⟩ := h.policy.readIds_spec h.tree
  rw [h.summary.readIds_eq h.tree h.policy]
  exact ⟨hpair, fun i => by rw [hmem, ← h.summary.has_eq h.policy, h.has_iff]⟩

/-- There is a right child when the full kernel has one. -/
theorem Exact.hasR_iff (h : Exact χ E u s) {b : Option ℕ} {g : Gap} (hg : anchorGap s b = some g) :
    g.hasR = true ↔ UnifiedSided.band u.nodes b .R ≠ [] := by
  have hb : ∀ i, b = some i → i ∈ ids E := fun i hi =>
    ((h.has_iff i).mp (has_of_anchorGap hg i hi)).1
  have hchain : chainAt χ b = [] ∨ chainAt χ b ∈ Set.image χ (ids E) := by
    cases b with
    | none => exact Or.inl rfl
    | some i => exact Or.inr ⟨i, hb i rfl, rfl⟩
  have hband {k : Chain} : k ∈ UnifiedSided.band u.nodes b .R ↔
      k ∈ Set.image χ (ids E) ∧ ∃ x : Link, x.side = .R ∧ k = chainAt χ b ++ [x] := by
    have hmem := h.policy.mem_band h.tree hchain .R (k := k)
    rwa [h.tree.idOf_chainAt hb] at hmem
  rw [(h.gap b g hg).hasR_iff, ne_eq, List.eq_nil_iff_forall_not_mem, not_forall_not]
  constructor
  · rintro ⟨r, hr⟩
    obtain ⟨j, hj, x, hx, hχ⟩ := exists_child_of_rights h.tree hr
    exact ⟨χ j, hband.mpr ⟨⟨j, hj, rfl⟩, x, hx, hχ⟩⟩
  · rintro ⟨k, hk⟩
    obtain ⟨⟨j, hj, rfl⟩, x, hx, hχ⟩ := hband.mp hk
    exact ⟨j, hj, x, [], hx, hχ⟩

/-- The successor follows the anchor in the policy order of the full kernel. -/
theorem Exact.follows (h : Exact χ E u s) {b : Option ℕ} {g : Gap} (hg : anchorGap s b = some g)
    (hR : g.hasR = true) : ∃ i n, g.succId = some i ∧ u.nodes.get? i = some n ∧
      g.succChain = unlabel n.chain ∧ Follows (UnifiedSided.policyOrder u.nodes) b i := by
  have hexact := h.gap b g hg
  obtain ⟨i, hi, hnext⟩ := hexact.next hR
  obtain ⟨hiI, hlt⟩ := hexact.mem i hi
  obtain ⟨n, hn⟩ := h.policy.exists_node hiI
  obtain ⟨hpair, hmem⟩ := h.policy.policyOrder_spec h.tree
  refine ⟨i, n, hi, hn, ?_, ?_⟩
  · rw [hexact.chain, hi, chainAt, (h.policy.node i n hn).chain]
  · cases b with
    | none =>
      exact exists_eq_cons_of_first hpair ((hmem i).mpr hiI) fun j hj =>
        hnext j ((hmem j).mp hj) (lt_root h.tree h.roots ((hmem j).mp hj))
    | some k =>
      have hk := ((h.has_iff k).mp (has_of_anchorGap hg k rfl)).1
      exact exists_eq_append_of_next hpair ((hmem k).mpr hk) ((hmem i).mpr hiI) hlt fun j hj =>
        hnext j ((hmem j).mp hj)

/-- **An insertion reads immediately after its anchor.** -/
theorem Exact.lands (h : Exact χ E u s) (hχ : PlacedChains χ U) {placed : SidedOp α}
    (hid : id ∉ ids E) (hp : prepare s (.ins id el a none) = .ok placed) (hU : placed ∈ U)
    (hs : apply s placed = .ok s') : LandsAfter (readIds s) (readIds s') id a := by
  obtain ⟨u', -, h'⟩ := h.ins hχ hid hp hU hs
  obtain ⟨g, p, -, -, hg, rfl, hside, hparent⟩ := prepare_ins_eq_ok hp
  obtain ⟨hplaced, -⟩ := h.placedBy hg hside hparent (hχ id el a p hU)
  have hids : ids (insert (.ins id el a (some p)) E) = insert id (ids E) := by
    rw [ids, seqOps_insert]
    exact inserted_insert_ins ..
  have hlive : live (seqOps (insert (.ins id el a (some p)) E)) = insert id (live (seqOps E)) := by
    rw [seqOps_insert]
    exact live_insert_ins h.deleted hid
  have htree := h'.tree
  rw [hids] at htree
  obtain ⟨hmem, hafter⟩ := (h.gap a g hg).landing htree h.tree hplaced
  have hlt := lt_of_mem_rights htree hmem
  obtain ⟨hpair, hin⟩ := h.readIds_spec
  obtain ⟨hpair', hin'⟩ := h'.readIds_spec
  cases a with
  | none =>
    refine eq_of_pairwise_key hpair' (List.pairwise_cons.mpr ⟨fun j hj => ?_, hpair⟩) fun i => ?_
    · have hjI := ((hin j).mp hj).1
      exact hafter j hjI (lt_root h.tree h.roots hjI)
    · rw [hin', hlive, List.mem_cons, hin, Set.mem_insert_iff]
  | some b =>
    have hb : b ∈ readIds s := (hin b).mpr ((h.has_iff b).mp (has_of_anchorGap hg b rfl))
    obtain ⟨l₁, l₂, heq⟩ := List.append_of_mem hb
    rw [heq] at hpair
    obtain ⟨hl₁, hrest, hcross⟩ := List.pairwise_append.mp hpair
    obtain ⟨hb₂, hl₂⟩ := List.pairwise_cons.mp hrest
    refine ⟨l₁, l₂, heq, eq_of_pairwise_key hpair' (List.pairwise_append.mpr ⟨hl₁, ?_, ?_⟩)
      fun i => ?_⟩
    · refine List.pairwise_cons.mpr ⟨fun j hj => ?_, List.pairwise_cons.mpr ⟨fun j hj => ?_, hl₂⟩⟩
      · rcases List.mem_cons.mp hj with rfl | hj
        · exact hlt
        · exact hb₂ j hj
      · have hjs : j ∈ readIds s := by
          rw [heq]
          exact List.mem_append_right _ (List.mem_cons_of_mem _ hj)
        exact hafter j ((hin j).mp hjs).1 (hb₂ j hj)
    · intro i hi j hj
      have hib := hcross i hi b List.mem_cons_self
      rcases List.mem_cons.mp hj with rfl | hj
      · exact hib
      · rcases List.mem_cons.mp hj with rfl | hj
        · exact hlt.trans hib
        · exact hcross i hi j (List.mem_cons_of_mem _ hj)
    · rw [hin', hlive, Set.mem_insert_iff, ← hin, heq]
      simp only [List.mem_append, List.mem_cons]
      tauto

/-- **An insertion under the largest id** is accepted. -/
theorem Exact.accepts (h : Exact χ E u s) (el : α) (hpos : 0 < id) (hlt : ∀ j ∈ ids E, j < id)
    (ha : ∀ i, a = some i → s.records.has i = true) :
    ∃ p s', prepare s (.ins id el a none) = .ok (.ins id el a (some p)) ∧
      apply s (.ins id el a (some p)) = .ok s' := by
  have hid : id ∉ ids E := fun hid => lt_irrefl _ (hlt id hid)
  obtain ⟨p, hp, -, -, g, hgu, hparent⟩ := h.summary.prepare h.policy el hid hpos hlt ha
  obtain ⟨g', hgu', hgs, -⟩ := h.summary.exists_gap h.policy ha
  obtain rfl : g = g' := Option.some.inj (hgu.symm.trans hgu')
  have hpc := h.summary.parentChain_eq h.policy ha hparent
  refine ⟨p, linkRec s id el a (summaryGap χ g)
    (unlabel (chainAt χ p.parentId) ++ [⟨p.side, id - p.parentId.getD 0, 0⟩]), hp, ?_⟩
  have hno : ¬ p.parentId ≠ mintParent (summaryGap χ g).succId a p.side := fun hne => hne hparent
  have happly : apply s (.ins id el a (some p)) = insertAt s id el a p := rfl
  rw [happly, insertAt, hgs]
  simp only [if_neg hno, hpc, bind, Except.bind, pure, Except.pure]

/-! ### Reachable states with a fresh insertion -/

theorem Reachable.subset (h : Reachable U E s) : E ⊆ U := by
  induction h with
  | init => exact Set.empty_subset _
  | apply _ _ _ hU _ ih => exact Set.insert_subset hU ih
  | merge _ _ _ _ _ iha ihb => exact Set.union_subset iha ihb

/-- The base of a merge has no other operations than the sides. -/
theorem subset_of_mergeable (hU : OnePlace U) (hL : L ⊆ U) (hA : A ⊆ U)
    (hm : Mergeable (seqOps L) (seqOps A) (seqOps B)) : L ⊆ A := by
  intro op hop
  cases op with
  | ins id el a p =>
    have hid : id ∈ inserted (seqOps L) := ⟨el, a, _, hop, rfl⟩
    rw [hm.inserted_eq] at hid
    obtain ⟨⟨el', a', op, hop', heq⟩, -⟩ := hid
    cases op with
    | ins id' el'' a'' p' =>
      cases heq
      obtain ⟨rfl, rfl, rfl⟩ := hU id el a p el' a' p' (hL hop) (hA hop')
      exact hop'
    | del id' => cases heq
  | del id =>
    have hid : id ∈ SalRuntime.deleted (seqOps L) := ⟨_, hop, rfl⟩
    obtain ⟨op, hop', heq⟩ := (hm.deleted_subset hid).1
    cases op with
    | ins id' el'' a'' p' => cases heq
    | del id' =>
      cases heq
      exact hop'

/-- A state is reached with the operations of its history. -/
theorem Reachable.restrict {V : Set (SidedOp α)} (h : Reachable U E s) (hU : OnePlace U)
    (hV : E ⊆ V) : Reachable V E s := by
  induction h with
  | init => exact .init
  | apply _ happ hp _ hs ih =>
    obtain ⟨hop, hE⟩ := Set.insert_subset_iff.mp hV
    exact .apply (ih hE) happ hp hop hs
  | merge hl ha _ hm ihl iha ihb =>
    obtain ⟨hA, hB⟩ := Set.union_subset_iff.mp hV
    have hL := subset_of_mergeable hU hl.subset ha.subset hm
    exact .merge (ihl (hL.trans hA)) (iha hA) (ihb hB) hm

/-- A fresh insertion is at one place. -/
theorem onePlace_insert (hU : OnePlace U) (hE : E ⊆ U) {p : Option (Placement id)}
    (hid : id ∉ ids E) : OnePlace (insert (.ins id el a p) E) := by
  have hne {i el' a' p'} (hmem : SidedOp.ins i el' a' p' ∈ E) : i ≠ id := by
    rintro rfl
    exact hid ⟨el', a', _, hmem, rfl⟩
  intro i el₁ a₁ p₁ el₂ a₂ p₂ h₁ h₂
  rcases h₁ with h₁ | h₁
  · cases h₁
    rcases h₂ with h₂ | h₂
    · cases h₂
      exact ⟨rfl, rfl, rfl⟩
    · exact absurd rfl (hne h₂)
  · rcases h₂ with h₂ | h₂
    · cases h₂
      exact absurd rfl (hne h₁)
    · exact hU i el₁ a₁ p₁ el₂ a₂ p₂ (hE h₁) (hE h₂)

end Steps

/-- Two replies to a character, the second one placed before the first one, which is deleted. -/
def answered : Set (SidedOp Char) :=
  {.del 2, .ins 3 'c' (some 1) (some ⟨.L, some 2, by decide⟩),
    .ins 2 'b' (some 1) (some ⟨.R, some 1, by decide⟩),
    .ins 1 'a' none (some ⟨.R, none, by decide⟩)}

end LiveGap

end SalRuntime
