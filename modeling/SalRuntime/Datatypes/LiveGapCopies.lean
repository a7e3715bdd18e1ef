import SalRuntime.Datatypes.LiveGapSnapshot

/-!
# Copies of states of the production sided kernel

A decoded state holds copies of chain nodes. Preparing, applying and merging do not look at the
identity of nodes, but the policy order does: it takes the copies of a node for different nodes.
States with the same content show the same ids as long as each place has one node.

## Main definitions

* `LiveGap.SameContent` — equality up to the identity of chain nodes.
* `LiveGap.Single` — a place has one node in a state.
* `LiveGap.Unmixed` — a merge takes over one node of every place.

## Main results

* `LiveGap.SameContent.prepare_eq`, `LiveGap.SameContent.insertAt`, `LiveGap.SameContent.merge3` —
  the operations respect the content.
* `LiveGap.SameContent.readIds_eq` — states with the same content show the same ids.
* `LiveGap.Single.linkRec`, `LiveGap.Unmixed.single` — insertions and unmixed merges keep places
  single.
-/

namespace SalRuntime.LiveGap

variable {α : Type}

/-! ### The content of states -/

/-- The gap without the identity of the nodes. -/
def Gap.unlabel (g : Gap) : Gap := { g with succChain := SalRuntime.unlabel g.succChain }

/-- The record without the identity of the nodes. -/
def Rec.unlabel (r : Rec α) : Rec α :=
  { r with chain := SalRuntime.unlabel r.chain, gap := r.gap.unlabel }

/-- The states are equal up to the identity of chain nodes. -/
structure SameContent (s t : State α) : Prop where
  /-- The records. -/
  records : ∀ id, (s.records.get? id).map Rec.unlabel = (t.records.get? id).map Rec.unlabel
  /-- The gap at the root. -/
  rootGap : s.rootGap.unlabel = t.rootGap.unlabel

theorem Gap.unlabel_eq_iff {g g' : Gap} : g.unlabel = g'.unlabel ↔ g.hasR = g'.hasR ∧
    g.succId = g'.succId ∧ SalRuntime.unlabel g.succChain = SalRuntime.unlabel g'.succChain := by
  rw [Gap.unlabel, Gap.unlabel, Gap.mk.injEq]

theorem Rec.unlabel_eq_iff {r r' : Rec α} : r.unlabel = r'.unlabel ↔
    SalRuntime.unlabel r.chain = SalRuntime.unlabel r'.chain ∧ r.el = r'.el ∧
      r.gap.unlabel = r'.gap.unlabel := by
  rw [Rec.unlabel, Rec.unlabel, Rec.mk.injEq]

/-- Merging gaps does not look at the identity of nodes. -/
theorem unlabel_mergeGap (a b : Gap) :
    (mergeGap a b).unlabel = mergeGap a.unlabel b.unlabel := by
  have hwinner : (maxSucc a b).unlabel = maxSucc a.unlabel b.unlabel := by
    simp only [maxSucc, Gap.unlabel, coordKey_unlabel]
    split_ifs <;> rfl
  have hmerged : (⟨a.hasR || b.hasR, (maxSucc a b).succId, (maxSucc a b).succChain⟩ : Gap).unlabel =
      ⟨a.unlabel.hasR || b.unlabel.hasR, (maxSucc a.unlabel b.unlabel).succId,
        (maxSucc a.unlabel b.unlabel).succChain⟩ := by
    rw [← hwinner]
    rfl
  by_cases hab : a = b
  · rw [mergeGap, if_pos hab, hab, mergeGap, if_pos rfl]
  · rw [mergeGap, if_neg hab, hmerged, mergeGap]
    split_ifs with heq
    · -- The gaps differ in the identity of nodes only.
      rw [← heq, Bool.or_self]
      have hself : maxSucc a.unlabel a.unlabel = a.unlabel := by simp [maxSucc]
      rw [hself]
    · rfl

/-- The state refers to the chain of the successor in the gap of an anchor. -/
theorem held_succChain {s : State α} {anchorId : Option ℕ} {g : Gap}
    (hg : anchorGap s anchorId = some g) : Held s g.succChain := by
  cases anchorId with
  | none => exact Or.inl (by rw [← Option.some.inj hg])
  | some a =>
    obtain ⟨r, hr, rfl⟩ := Option.map_eq_some_iff.mp hg
    exact Or.inr ⟨a, r, hr, Or.inr rfl⟩

namespace SameContent

variable {s t : State α} (h : SameContent s t)

theorem refl (s : State α) : SameContent s s := ⟨fun _ => rfl, rfl⟩

include h

theorem has_eq (id : ℕ) : s.records.has id = t.records.has id := by
  have hrec := congrArg Option.isSome (h.records id)
  rwa [Option.isSome_map, Option.isSome_map] at hrec

theorem exists_record {id : ℕ} {r : Rec α} (hr : t.records.get? id = some r) :
    ∃ r', s.records.get? id = some r' ∧ r'.unlabel = r.unlabel := by
  have hrec := h.records id
  rw [hr, Option.map_some, Option.map_eq_some_iff] at hrec
  exact hrec

theorem anchorGap (anchorId : Option ℕ) :
    (LiveGap.anchorGap s anchorId).map Gap.unlabel =
      (LiveGap.anchorGap t anchorId).map Gap.unlabel := by
  cases anchorId with
  | none => exact congrArg some h.rootGap
  | some id =>
    have hrec := congrArg (Option.map Rec.gap) (h.records id)
    rw [Option.map_map, Option.map_map] at hrec
    rw [LiveGap.anchorGap, LiveGap.anchorGap, Option.map_map, Option.map_map]
    exact hrec

/-- **Preparing** does not look at the identity of nodes. -/
theorem prepare_eq (op : SidedOp α) : prepare s op = prepare t op := by
  match op with
  | .del id => rfl
  | .ins id el anchorId (some p) => rfl
  | .ins id el anchorId none =>
    have hgap := h.anchorGap anchorId
    rw [prepare, prepare, h.has_eq id]
    cases hs : LiveGap.anchorGap s anchorId with
    | none =>
      rw [hs, Option.map_none, eq_comm, Option.map_eq_none_iff] at hgap
      simp only [hgap]
    | some g =>
      rw [hs, Option.map_some, eq_comm, Option.map_eq_some_iff] at hgap
      obtain ⟨g', hg', heq⟩ := hgap
      obtain ⟨hR, hsucc, -⟩ := Gap.unlabel_eq_iff.mp heq
      simp only [hg', hR, hsucc]

theorem parentChain {p : Option ℕ} {g g' : Gap} (hg : g.unlabel = g'.unlabel) {pc : Chain}
    (hpc : LiveGap.parentChain t p g' = .ok pc) : ∃ pc', LiveGap.parentChain s p g = .ok pc' ∧
      unlabel pc' = unlabel pc ∧ (pc' = [] ∨ pc' = g.succChain ∨
        ∃ id r, s.records.get? id = some r ∧ pc' = r.chain) := by
  obtain ⟨-, hsucc, hchain⟩ := Gap.unlabel_eq_iff.mp hg
  cases p with
  | none =>
    cases hpc
    exact ⟨[], rfl, rfl, Or.inl rfl⟩
  | some q =>
    rw [LiveGap.parentChain] at hpc ⊢
    cases hr : t.records.get? q with
    | some r =>
      obtain ⟨r', hr', heq⟩ := h.exists_record hr
      rw [hr] at hpc
      cases hpc
      refine ⟨r'.chain, by rw [hr'], (Rec.unlabel_eq_iff.mp heq).1, Or.inr (Or.inr ⟨q, r', hr', rfl⟩)⟩
    | none =>
      have hnone : s.records.get? q = none := by
        have hrec := h.records q
        rwa [hr, Option.map_none, Option.map_eq_none_iff] at hrec
      rw [hr] at hpc
      simp only [hnone, hsucc] at hpc ⊢
      split_ifs at hpc ⊢
      cases hpc
      exact ⟨g.succChain, rfl, hchain, Or.inr (Or.inl rfl)⟩

/-- A new record in states with the same content. -/
theorem linkRec {id : ℕ} {el : α} {anchorId : Option ℕ} {g g' : Gap} (hg : g.unlabel = g'.unlabel)
    {ch ch' : Chain} (hch : unlabel ch = unlabel ch') :
    SameContent (LiveGap.linkRec s id el anchorId g ch)
      (LiveGap.linkRec t id el anchorId g' ch') := by
  obtain ⟨-, hsucc, hchain⟩ := Gap.unlabel_eq_iff.mp hg
  refine ⟨fun i => ?_, ?_⟩
  · rw [LiveGap.linkRec, LiveGap.linkRec, SortedMap.get?_insert, SortedMap.get?_insert]
    split_ifs
    · exact congrArg some (Rec.unlabel_eq_iff.mpr
        ⟨hch, rfl, Gap.unlabel_eq_iff.mpr ⟨rfl, hsucc, hchain⟩⟩)
    · rw [SortedMap.get?_modifyAt, SortedMap.get?_modifyAt]
      split_ifs
      · have hrec := h.records i
        cases hs : s.records.get? i with
        | none =>
          rw [hs, Option.map_none, eq_comm, Option.map_eq_none_iff] at hrec
          rw [hrec]
          rfl
        | some r =>
          rw [hs, Option.map_some, eq_comm, Option.map_eq_some_iff] at hrec
          obtain ⟨r', hr', heq⟩ := hrec
          obtain ⟨hc, hel, -⟩ := Rec.unlabel_eq_iff.mp heq
          rw [hr', Option.map_some, Option.map_some, Option.map_some, Option.map_some]
          exact congrArg some (Rec.unlabel_eq_iff.mpr
            ⟨hc.symm, hel.symm, Gap.unlabel_eq_iff.mpr ⟨rfl, rfl, hch⟩⟩)
      · exact h.records i
  · rw [LiveGap.linkRec, LiveGap.linkRec]
    dsimp only
    split_ifs
    · exact Gap.unlabel_eq_iff.mpr ⟨rfl, rfl, hch⟩
    · exact h.rootGap

/-- **Inserting** does not look at the identity of nodes. The new chain extends one that the state
refers to. -/
theorem insertAt {id : ℕ} {el : α} {anchorId : Option ℕ} {p : Placement id} {t' : State α}
    (ht : LiveGap.insertAt t id el anchorId p = .ok t') : ∃ g pc,
      LiveGap.anchorGap s anchorId = some g ∧ (pc = [] ∨ Held s pc) ∧
      LiveGap.insertAt s id el anchorId p = .ok (LiveGap.linkRec s id el anchorId g
        (pc ++ [⟨p.side, id - p.parentId.getD 0, 0⟩])) ∧
      SameContent (LiveGap.linkRec s id el anchorId g
        (pc ++ [⟨p.side, id - p.parentId.getD 0, 0⟩])) t' := by
  have hgap := h.anchorGap anchorId
  rw [LiveGap.insertAt] at ht
  cases hg' : LiveGap.anchorGap t anchorId with
  | none =>
    rw [hg'] at ht
    dsimp only at ht
    split_ifs at ht
  | some g' =>
    rw [hg', Option.map_some, Option.map_eq_some_iff] at hgap
    obtain ⟨g, hg, heq⟩ := hgap
    have hsucc := (Gap.unlabel_eq_iff.mp heq).2.1
    rw [hg'] at ht
    dsimp only at ht
    by_cases hplace : p.parentId ≠ mintParent g'.succId anchorId p.side
    · simp [hplace, bind, Except.bind, throw, throwThe, MonadExceptOf.throw] at ht
    · simp only [hplace, if_false, bind, Except.bind, pure, Except.pure] at ht
      cases hpc : LiveGap.parentChain t p.parentId g' with
      | error e =>
        rw [hpc] at ht
        cases ht
      | ok pc' =>
        rw [hpc] at ht
        cases ht
        obtain ⟨pc, hok, hun, hheld⟩ := h.parentChain heq hpc
        refine ⟨g, pc, hg, ?_, ?_, h.linkRec heq (by rw [unlabel_append, unlabel_append, hun])⟩
        · rcases hheld with rfl | rfl | ⟨i, r, hr, rfl⟩
          · exact Or.inl rfl
          · exact Or.inr (held_succChain hg)
          · exact Or.inr (Or.inr ⟨i, r, hr, Or.inl rfl⟩)
        · have hno : ¬ p.parentId ≠ mintParent g.succId anchorId p.side := by rwa [hsucc]
          rw [LiveGap.insertAt, hg]
          simp only [hno, if_false, hok, bind, Except.bind, pure, Except.pure]

/-- **Deleting** does not look at the identity of nodes. -/
theorem erase (id : ℕ) : SameContent { s with records := s.records.erase id, order := none }
    { t with records := t.records.erase id, order := none } := by
  refine ⟨fun i => ?_, h.rootGap⟩
  rw [SortedMap.get?_erase, SortedMap.get?_erase]
  split_ifs
  · rfl
  · exact h.records i

/-- **Merging** does not look at the identity of nodes. -/
theorem merge3 {a a' b b' : State α} (ha : SameContent a a') (hb : SameContent b b') :
    SameContent (LiveGap.merge3 s a b) (LiveGap.merge3 t a' b') := by
  have hgap {g g' k k' : Gap} (hg : g.unlabel = g'.unlabel) (hk : k.unlabel = k'.unlabel) :
      (mergeGap g k).unlabel = (mergeGap g' k').unlabel := by
    rw [unlabel_mergeGap, unlabel_mergeGap, hg, hk]
  refine ⟨fun i => ?_, hgap ha.rootGap hb.rootGap⟩
  rw [get?_merge3, get?_merge3, mergeRec, mergeRec, h.has_eq i]
  have hra := ha.records i
  have hrb := hb.records i
  cases hA : a.records.get? i with
  | none =>
    rw [hA, Option.map_none, eq_comm, Option.map_eq_none_iff] at hra
    rw [hra]
    dsimp only
    split_ifs
    · rfl
    · rw [Option.none_or, Option.none_or, hrb]
  | some r =>
    rw [hA, Option.map_some, eq_comm, Option.map_eq_some_iff] at hra
    obtain ⟨r', hA', heq⟩ := hra
    obtain ⟨hc, hel, hgr⟩ := Rec.unlabel_eq_iff.mp heq
    rw [hA']
    cases hB : b.records.get? i with
    | none =>
      rw [hB, Option.map_none, eq_comm, Option.map_eq_none_iff] at hrb
      rw [hrb]
      dsimp only
      split_ifs
      · rfl
      · exact congrArg some heq.symm
    | some k =>
      rw [hB, Option.map_some, eq_comm, Option.map_eq_some_iff] at hrb
      obtain ⟨k', hB', heqB⟩ := hrb
      rw [hB']
      exact congrArg some (Rec.unlabel_eq_iff.mpr ⟨hc.symm, hel.symm,
        hgap hgr.symm (Rec.unlabel_eq_iff.mp heqB).2.2.symm⟩)

end SameContent

/-! ### The reads -/

/-- A place has one node in the state. -/
def Single (s : State α) : Prop :=
  ∀ c ∈ allChains s, ∀ d ∈ allChains s, unlabel c = unlabel d → c = d

/-- A cached order lists the live ids by descending keys. -/
def Ordered (χ : ℕ → Chain) (I : Set ℕ) (s : State α) : Prop :=
  ∀ order, s.order = some order → (order.Pairwise fun i j => coordKey (χ j) < coordKey (χ i)) ∧
    (∀ id, s.records.has id = true → id ∈ order) ∧ ∀ id ∈ order, id ∈ I

section Reads

variable {χ : ℕ → Chain} {I : Set ℕ} {s : State α} (h : Over χ I s) (hT : SidedTree χ I)
  (hsingle : Single s)

include h hT hsingle

/-- The chains of a state in which a place has one node are a tree. -/
theorem Over.spaced : Spaced {c | c ∈ allChains s} where
  closed c d hcd hc := by
    obtain ⟨-, e, he, hpre⟩ := mem_allChains.mp hcd
    exact mem_allChains.mpr ⟨hc, e, he, (List.prefix_append c d).trans hpre⟩
  pos c x hx := by
    obtain ⟨j, hj, heq⟩ := h.exists_id hT hx
    refine hT.spaced.unlabel.pos (unlabel c) { x with label := 0 } ?_
    exact ⟨χ j, ⟨j, hj.1, rfl⟩, by rw [← heq, unlabel_append]; rfl⟩
  single c x y hx hy hside hdelta := by
    have heq : unlabel (c ++ [x]) = unlabel (c ++ [y]) := by
      simp only [unlabel, List.map_append, List.map_cons, hside, hdelta]
    simpa using hsingle _ hx _ hy heq

/-- **The read** lists the live ids by descending keys. -/
theorem Over.readIds_spec (horder : Ordered χ I s) :
    ((readIds s).Pairwise fun i j => coordKey (χ j) < coordKey (χ i)) ∧
      ∀ id, id ∈ readIds s ↔ s.records.has id = true := by
  have hkey {id : ℕ} {r : Rec α} (hr : s.records.get? id = some r) :
      coordKey r.chain = coordKey (χ id) := by
    rw [← coordKey_unlabel, (h.chain id r hr).2, coordKey_unlabel]
  cases ho : s.order with
  | some order =>
    -- The cached order is that of all chains.
    obtain ⟨hpair, hin, -⟩ := horder order ho
    have hread : readIds s = order.filter s.records.has := by
      rw [readIds, readEntries, ho, List.map_filterMap, ← List.filterMap_eq_filter]
      refine List.filterMap_congr fun id _ => ?_
      cases hr : s.records.get? id <;> simp [SortedMap.has, hr, Option.guard]
    rw [hread]
    refine ⟨hpair.filter _, fun id => ?_⟩
    rw [List.mem_filter]
    exact and_iff_right_of_imp (hin id)
  | none =>
    have hinj (i : ℕ) (r : Rec α) (j : ℕ) (r' : Rec α) (hi : s.records.get? i = some r)
        (hj : s.records.get? j = some r') (heq : r.chain = r'.chain) : i = j := by
      obtain ⟨hiI, hci⟩ := h.chain i r hi
      obtain ⟨hjI, hcj⟩ := h.chain j r' hj
      exact hT.unlabel_injOn hiI hjI (hci.symm.trans (heq ▸ hcj))
    have hne (i : ℕ) (r : Rec α) (hi : s.records.get? i = some r) : r.chain ≠ [] := by
      obtain ⟨hiI, hci⟩ := h.chain i r hi
      intro hnil
      rw [hnil] at hci
      exact hT.chain_ne_nil hiI (List.map_eq_nil_iff.mp hci.symm)
    obtain ⟨hpair, hmem⟩ := policyOrder_spec (h.spaced hT hsingle) hne hinj
    have hread : readIds s = (policyOrder s).map Prod.fst := by
      rw [readIds, readEntries, ho]
    rw [hread]
    refine ⟨?_, fun id => ?_⟩
    · rw [List.pairwise_map]
      refine hpair.imp_of_mem fun {e f} he hf hlt => ?_
      rwa [hkey ((hmem e).mp he), hkey ((hmem f).mp hf)] at hlt
    · rw [SortedMap.has_iff]
      simp only [List.mem_map, hmem, Prod.exists, exists_and_right, exists_eq_right]

end Reads

/-- **States with the same content** show the same ids. -/
theorem SameContent.readIds_eq {χ : ℕ → Chain} {I : Set ℕ} {s t : State α} (h : SameContent s t)
    (hT : SidedTree χ I) (hs : Over χ I s) (ht : Over χ I t) (hsingle : Single s)
    (hsingle' : Single t) (horder : Ordered χ I s) (horder' : Ordered χ I t) :
    readIds s = readIds t := by
  obtain ⟨hpair, hmem⟩ := hs.readIds_spec hT hsingle horder
  obtain ⟨hpair', hmem'⟩ := ht.readIds_spec hT hsingle' horder'
  exact eq_of_pairwise_key hpair hpair' fun id => by rw [hmem, hmem', h.has_eq]

/-- A state with the content of a state over a tree is over the tree. -/
theorem SameContent.over {χ : ℕ → Chain} {I : Set ℕ} {s t : State α} (h : SameContent s t)
    (ht : Over χ I t) : Over χ I s := by
  have hrec {id : ℕ} {r : Rec α} (hr : s.records.get? id = some r) :
      ∃ r', t.records.get? id = some r' ∧ r'.unlabel = r.unlabel := by
    have hrec := h.records id
    rw [hr, Option.map_some, eq_comm, Option.map_eq_some_iff] at hrec
    exact hrec
  have hgap {g g' : Gap} (hg : g.unlabel = g'.unlabel) (hover : GapOver χ I g) :
      GapOver χ I g' := by
    obtain ⟨-, hsucc, hchain⟩ := Gap.unlabel_eq_iff.mp hg
    exact ⟨hsucc ▸ hover.succ, by rw [← hchain, hover.chain, hsucc]⟩
  refine ⟨fun id r hr => ?_, fun id r hr => ?_, hgap h.rootGap.symm ht.rootGap⟩
  · obtain ⟨r', hr', heq⟩ := hrec hr
    obtain ⟨hid, hchain⟩ := ht.chain id r' hr'
    exact ⟨hid, (Rec.unlabel_eq_iff.mp heq).1 ▸ hchain⟩
  · obtain ⟨r', hr', heq⟩ := hrec hr
    exact hgap (Rec.unlabel_eq_iff.mp heq).2.2 (ht.gap id r' hr')

/-! ### Node identity -/

/-- A new chain node under a fresh id keeps places single. -/
theorem Single.linkRec {χ : ℕ → Chain} {I : Set ℕ} {s : State α} (h : Single s) (hs : Over χ I s)
    (hT : SidedTree χ I) {id : ℕ} {el : α} {anchorId : Option ℕ} {g : Gap}
    (hg : LiveGap.anchorGap s anchorId = some g) {pc : Chain} (hpc : pc = [] ∨ Held s pc) {x : Link}
    (hfresh : ∀ j ∈ I, unlabel (pc ++ [x]) ≠ unlabel (χ j)) :
    Single (LiveGap.linkRec s id el anchorId g (pc ++ [x])) := by
  have hheld {d : Chain} (hd : Held (LiveGap.linkRec s id el anchorId g (pc ++ [x])) d) :
      d = pc ++ [x] ∨ Held s d := by
    rcases hd with rfl | ⟨i, r, hr, hd⟩
    · rw [LiveGap.linkRec]
      dsimp only
      split_ifs
      · exact Or.inl rfl
      · exact Or.inr (Or.inl rfl)
    · rw [LiveGap.linkRec, SortedMap.get?_insert] at hr
      split_ifs at hr
      · cases hr
        exact hd.imp (fun hd => hd) fun hd => (show d = g.succChain from hd) ▸ held_succChain hg
      · rw [SortedMap.get?_modifyAt] at hr
        split_ifs at hr
        · obtain ⟨r', hr', rfl⟩ := Option.map_eq_some_iff.mp hr
          rcases hd with hd | hd
          · exact Or.inr (Or.inr ⟨i, r', hr', Or.inl hd⟩)
          · exact Or.inl hd
        · exact Or.inr (Or.inr ⟨i, r, hr, hd⟩)
  -- The only new chain is that of the new record.
  have hmem {c : Chain} (hc : c ∈ allChains (LiveGap.linkRec s id el anchorId g (pc ++ [x]))) :
      c = pc ++ [x] ∨ c ∈ allChains s := by
    obtain ⟨hne, d, hd, hpre⟩ := mem_allChains.mp hc
    rcases hheld hd with rfl | hd
    · rcases List.prefix_concat_iff.mp hpre with rfl | hpre
      · exact Or.inl rfl
      · rcases hpc with rfl | hpc
        · exact absurd (List.prefix_nil.mp hpre) hne
        · exact Or.inr (mem_allChains.mpr ⟨hne, pc, hpc, hpre⟩)
    · exact Or.inr (mem_allChains.mpr ⟨hne, d, hd, hpre⟩)
  have hnew {d : Chain} (hd : d ∈ allChains s) : unlabel (pc ++ [x]) ≠ unlabel d := by
    obtain ⟨j, hj, heq⟩ := hs.exists_id hT hd
    rw [heq]
    exact hfresh j hj.1
  intro c hc d hd heq
  rcases hmem hc with rfl | hc
  · rcases hmem hd with rfl | hd
    · rfl
    · exact absurd heq (hnew hd)
  · rcases hmem hd with rfl | hd
    · exact absurd heq.symm (hnew hc)
    · exact h c hc d hd heq

/-- States that refer to fewer chains. -/
theorem Single.of_held {s t : State α} (h : Single t) (hheld : ∀ c, Held s c → Held t c) :
    Single s := by
  have hmem {c : Chain} (hc : c ∈ allChains s) : c ∈ allChains t := by
    obtain ⟨hne, d, hd, hpre⟩ := mem_allChains.mp hc
    exact mem_allChains.mpr ⟨hne, d, hheld d hd, hpre⟩
  exact fun c hc d hd => h c (hmem hc) d (hmem hd)

/-- States whose chains all have one label. -/
theorem Single.of_relabel {s : State α} (k : ℕ) (h : ∀ c, Held s c → relabel k c = c) :
    Single s := by
  have hmem {c : Chain} (hc : c ∈ allChains s) : relabel k c = c := by
    obtain ⟨-, d, hd, e, rfl⟩ := mem_allChains.mp hc
    have heq := h _ hd
    rw [relabel, List.map_append] at heq
    exact (List.append_inj heq (by rw [List.length_map])).1
  intro c hc d hd heq
  rw [← hmem hc, ← hmem hd, relabel_congr heq]

/-- The chains that a merge takes over from its sides. -/
def takenChains (l a b : State α) : List Chain :=
  (mergeGap a.rootGap b.rootGap).succChain ::
    ((eachEntry a.records).map Prod.fst ++ (eachEntry b.records).map Prod.fst).flatMap fun id =>
      (mergeRec l a b id).toList.flatMap fun r => [r.chain, r.gap.succChain]

/-- **An unmixed merge** takes over one node of every place. -/
def Unmixed (l a b : State α) : Prop :=
  ∀ c ∈ (takenChains l a b).flatMap List.inits, ∀ d ∈ (takenChains l a b).flatMap List.inits,
    unlabel c = unlabel d → c = d

instance decidableUnmixed (l a b : State α) : Decidable (Unmixed l a b) :=
  inferInstanceAs (Decidable (∀ c ∈ _, ∀ d ∈ _, _ → _))

theorem Unmixed.single {l a b : State α} (h : Unmixed l a b) : Single (merge3 l a b) := by
  have htaken {d : Chain} (hd : Held (merge3 l a b) d) : d ∈ takenChains l a b := by
    rcases hd with rfl | ⟨id, r, hr, hd⟩
    · exact List.mem_cons_self
    · rw [get?_merge3] at hr
      refine List.mem_cons_of_mem _ (List.mem_flatMap.mpr ⟨id, ?_, ?_⟩)
      · rw [List.mem_append, List.mem_map, List.mem_map]
        rw [mergeRec] at hr
        cases ha : a.records.get? id with
        | some ra => exact Or.inl ⟨(id, ra), mem_eachEntry.mpr ha, rfl⟩
        | none =>
          cases hb : b.records.get? id with
          | some rb => exact Or.inr ⟨(id, rb), mem_eachEntry.mpr hb, rfl⟩
          | none => simp [ha, hb] at hr
      · rw [hr]
        simpa using hd
  have hmem {c : Chain} (hc : c ∈ allChains (merge3 l a b)) :
      c ∈ (takenChains l a b).flatMap List.inits := by
    obtain ⟨-, d, hd, hpre⟩ := mem_allChains.mp hc
    exact List.mem_flatMap.mpr ⟨d, htaken hd, (List.mem_inits _ _).mpr hpre⟩
  exact fun c hc d hd => h c (hmem hc) d (hmem hd)

end SalRuntime.LiveGap
