import SalRuntime.Datatypes.CompactEliasDelta

/-!
# A compaction and its maps

Without spine fusion a compaction gives every node of the coordinate tree a positive label, ascending
among siblings. So the compacted coordinates spell the same chains, the order of the records stays,
and the forward and the inverse map of the compaction take the two states to each other.

## Main definitions

* `CoordTree.Covers` — the nodes of a chain are in the tree.
* `CoordTree.chains` — the chains in the tree.

## Main results

* `compactEliasDelta_spec` — a compaction rewrites the coordinates of all records.
* `read_compactEliasDelta` — a compaction keeps the read.
* `remapState_translate`, `remapState_inverse` — its maps relate the two states.
-/

namespace SalRuntime

variable {α : Type}

namespace CoordTree

/-! ### The nodes of the tree -/

variable {t t' : CoordTree}

theorem node?_update (t : CoordTree) (p : List ℕ) (f : CoordNode → CoordNode) (q : List ℕ) :
    (t.update p f).node? q = if q = p then (t.node? q).map f else t.node? q := by
  unfold node? update
  induction t with
  | nil => simp
  | cons e t ih =>
    rw [List.map_cons, List.find?_cons, List.find?_cons]
    by_cases he : e.1 = q
    · by_cases hp : q = p
      · simp [he, hp]
      · simp [he, hp]
    · by_cases hp : e.1 = p
      · have hq : p ≠ q := hp ▸ he
        simpa [he, hp, hq] using ih
      · simpa [he, hp] using ih

@[simp] theorem has_update (t : CoordTree) (p : List ℕ) (f : CoordNode → CoordNode) (q : List ℕ) :
    (t.update p f).has q = t.has q := by
  rw [has, node?_update]
  split_ifs <;> simp [has]

theorem has_childOf (t : CoordTree) (p : List ℕ) (d : ℕ) (q : List ℕ) :
    (t.childOf p d).has q = (t.has q || decide (q = p ++ [d])) := by
  unfold childOf
  split_ifs with hhas
  · by_cases hq : q = p ++ [d]
    · simp [hq, hhas]
    · simp [hq]
  · unfold has node?
    rw [List.find?_append]
    by_cases hq : p ++ [d] = q
    · simp [hq]
    · simp [hq, Ne.symm hq]

/-- The second tree has the nodes of the first. -/
def Within (t t' : CoordTree) : Prop := ∀ q, t.has q = true → t'.has q = true

theorem Within.trans {t'' : CoordTree} (h : Within t t') (h' : Within t' t'') : Within t t'' :=
  fun q hq => h' q (h q hq)

theorem within_update (p : List ℕ) (f : CoordNode → CoordNode) : Within t (t.update p f) :=
  fun q hq => by rwa [has_update]

theorem within_childOf (p : List ℕ) (d : ℕ) : Within t (t.childOf p d) := fun q hq => by
  rw [has_childOf, hq, Bool.true_or]

/-- The nodes of a chain other than the root are in the tree. -/
def Covers (t : CoordTree) (c : List ℕ) : Prop := ∀ q, q <+: c → q ≠ [] → t.has q = true

theorem Covers.within {c : List ℕ} (h : Covers t c) (hw : Within t t') : Covers t' c :=
  fun q hq hne => hw q (h q hq hne)

theorem within_descend (f : CoordNode → CoordNode) (p ds : List ℕ) : Within t (descend f t p ds) := by
  induction ds generalizing t p with
  | nil => exact fun q hq => hq
  | cons d ds ih => exact ((within_childOf p d).trans (within_update _ f)).trans (ih _)

theorem has_descend (f : CoordNode → CoordNode) (p ds q : List ℕ) (hq : q <+: ds) (hne : q ≠ []) :
    (descend f t p ds).has (p ++ q) = true := by
  induction ds generalizing t p q with
  | nil => exact absurd (List.prefix_nil.mp hq) hne
  | cons d ds ih =>
    obtain ⟨e, q, rfl⟩ := List.exists_cons_of_ne_nil hne
    obtain ⟨rfl, htail⟩ := List.cons_prefix_cons.mp hq
    rw [descend]
    by_cases hnil : q = []
    · refine within_descend f _ ds _ ?_
      simp [has_childOf, hnil]
    · simpa using ih (t := (t.childOf p e).update (p ++ [e]) f) (p ++ [e]) q htail hnil

theorem covers_descend (f : CoordNode → CoordNode) (c : List ℕ) : Covers (descend f t [] c) c :=
  fun q hq hne => by simpa using has_descend (t := t) f [] c q hq hne

theorem addRecord_eq_ok {id : ℕ} {coord : List Bool} (h : t.addRecord id coord = .ok t') :
    ∃ c, decodeChain coord = .ok c ∧ Within t t' ∧ Covers t' c := by
  unfold addRecord at h
  cases hc : decodeChain coord with
  | error e =>
    rw [hc] at h
    cases h
  | ok c =>
    rw [hc] at h
    cases h
    exact ⟨c, rfl, (within_descend _ [] c).trans (within_update _ _),
      (covers_descend _ c).within (within_update _ _)⟩

theorem addRecords_eq_ok {es : List (ℕ × Record α)} (h : t.addRecords es = .ok t') :
    Within t t' ∧ ∀ e ∈ es, ∃ c, decodeChain e.2.coord = .ok c ∧ Covers t' c := by
  induction es generalizing t with
  | nil =>
    cases h
    exact ⟨fun q hq => hq, by simp⟩
  | cons e es ih =>
    rw [addRecords] at h
    cases hadd : t.addRecord e.1 e.2.coord with
    | error err =>
      rw [hadd] at h
      cases h
    | ok t₁ =>
      rw [hadd] at h
      obtain ⟨hw, hes⟩ := ih h
      obtain ⟨c, hc, hw₁, hcov⟩ := addRecord_eq_ok hadd
      exact ⟨hw₁.trans hw, List.forall_mem_cons.mpr ⟨⟨c, hc, hcov.within hw⟩, hes⟩⟩

theorem within_of_seedInflight {settled : List ℕ} {total n : ℕ} {p : List ℕ} {bits : List Bool}
    (h : seedInflight settled total n t p bits = .ok t') : Within t t' := by
  induction n generalizing t p bits with
  | zero =>
    cases bits with
    | nil =>
      cases h
      split_ifs
      · exact fun q hq => hq
      · exact within_update _ _
    | cons b bits =>
      cases h
      exact fun q hq => hq
  | succ n ih =>
    cases bits with
    | nil =>
      cases h
      split_ifs
      · exact fun q hq => hq
      · exact within_update _ _
    | cons b bits =>
      rw [seedInflight] at h
      cases hone : decodeOne (total - (b :: bits).length) (b :: bits) with
      | error e =>
        rw [hone] at h
        cases h
      | ok d =>
        rw [hone] at h
        simp only [bind, Except.bind] at h
        split_ifs at h
        · exact ((within_childOf p d.1).trans (within_update _ _)).trans (ih h)
        · cases h
          exact within_update _ _

theorem within_of_addInflight {settled : List ℕ} {cs : List (List Bool)}
    (h : addInflight settled t cs = .ok t') : Within t t' := by
  induction cs generalizing t with
  | nil =>
    cases h
    exact fun q hq => hq
  | cons c cs ih =>
    rw [addInflight] at h
    cases hseed : seedInflight settled c.length c.length t [] c with
    | error e =>
      rw [hseed] at h
      cases h
    | ok t₁ =>
      rw [hseed] at h
      exact (within_of_seedInflight hseed).trans (ih h)

theorem within_of_addFrozen {cs : List (List Bool)} (h : t.addFrozen cs = .ok t') :
    Within t t' := by
  induction cs generalizing t with
  | nil =>
    cases h
    exact fun q hq => hq
  | cons c cs ih =>
    rw [addFrozen, freeze] at h
    cases hc : decodeChain c with
    | error e =>
      rw [hc] at h
      cases h
    | ok chain =>
      rw [hc] at h
      exact ((within_descend _ [] chain).trans (within_update _ _)).trans (ih h)

/-- **The tree of a state** has the nodes of the chains of all records. -/
theorem build_eq_ok {s : EmbedRGA.State α} {cut : CoordCut} (h : build s cut = .ok t) :
    ∀ e ∈ s.entries, ∃ c, decodeChain e.2.coord = .ok c ∧ Covers t c := by
  rw [build] at h
  cases hrecords : root.addRecords s.entries with
  | error e =>
    rw [hrecords] at h
    cases h
  | ok t₁ =>
    rw [hrecords] at h
    simp only [bind, Except.bind] at h
    cases hinflight : addInflight (cut.settledIds.getD []) t₁ cut.inflight with
    | error e =>
      rw [hinflight] at h
      cases h
    | ok t₂ =>
      rw [hinflight] at h
      intro e he
      obtain ⟨c, hc, hcov⟩ := (addRecords_eq_ok hrecords).2 e he
      exact ⟨c, hc, hcov.within
        ((within_of_addInflight hinflight).trans (within_of_addFrozen h))⟩

/-! ### Labels -/

theorem mem_kids {p : List ℕ} {d : ℕ} (h : t.has (p ++ [d]) = true) : d ∈ t.kids p := by
  obtain ⟨n, hn⟩ := Option.isSome_iff_exists.mp h
  obtain ⟨e, he, rfl⟩ := Option.map_eq_some_iff.mp hn
  have hkey : e.1 = p ++ [d] := by simpa using List.find?_some he
  rw [kids, List.mem_insertionSort, List.mem_filterMap]
  exact ⟨e, List.mem_of_find?_eq_some he, by simp [hkey]⟩

theorem idxOf_lt_idxOf {l : List ℕ} (hl : l.Pairwise (· ≤ ·)) {a b : ℕ} (ha : a ∈ l)
    (hlt : a < b) : l.idxOf a < l.idxOf b := by
  induction l with
  | nil => cases ha
  | cons x l ih =>
    obtain ⟨hx, hl⟩ := List.pairwise_cons.mp hl
    rcases List.mem_cons.mp ha with rfl | hmem
    · rw [List.idxOf_cons_self, List.idxOf_cons_ne _ hlt.ne]
      exact Nat.succ_pos _
    · have hxa := hx a hmem
      rw [List.idxOf_cons_ne l (by omega : x ≠ b)]
      by_cases hxa' : x = a
      · rw [hxa', List.idxOf_cons_self]
        exact Nat.succ_pos _
      · rw [List.idxOf_cons_ne l hxa']
        exact Nat.succ_lt_succ (ih hl hmem)

theorem pairwise_kids (p : List ℕ) : (t.kids p).Pairwise (· ≤ ·) := List.pairwise_insertionSort _ _

/-- The chains of positive deltas whose nodes are in the tree. -/
def chains (t : CoordTree) : Set (List ℕ) := {c | t.Covers c ∧ ∀ d ∈ c, 1 ≤ d}

theorem has_of_mem_chains {c : List ℕ} {d : ℕ} (h : c ++ [d] ∈ t.chains) :
    t.has (c ++ [d]) = true := h.1 _ List.prefix_rfl (by simp)

theorem mem_chains_left {c d : List ℕ} (h : c ++ d ∈ t.chains) : c ∈ t.chains :=
  ⟨fun q hq => h.1 q (hq.trans (List.prefix_append c d)), fun x hx => h.2 x (by simp [hx])⟩

/-- The old deltas as labels. -/
theorem siblingMono_getLast :
    SiblingMono t.chains fun p => p.getLast?.getD 0 where
  closed c d h _ := mem_chains_left h
  pos c h hne := by
    rw [List.getLast?_eq_some_getLast hne, Option.getD_some]
    exact h.2 _ (List.getLast_mem hne)
  mono c a b _ _ hlt := by simpa using hlt

variable (settled : List ℕ)

/-- Without spine fusion no node is collapsed. -/
theorem label_eq (p : List ℕ) : t.label settled {} p =
    if t.renumber settled {} p.dropLast then (t.kids p.dropLast).idxOf (p.getLast?.getD 0) + 1
    else p.getLast?.getD 0 := by
  simp [label, fusedAway]

/-- **The new deltas** are positive, and ascend among siblings. -/
theorem siblingMono_label : SiblingMono t.chains (t.label settled {}) where
  closed c d h _ := mem_chains_left h
  pos c h hne := by
    rw [label_eq]
    split_ifs
    · exact Nat.succ_pos _
    · exact siblingMono_getLast.pos c h hne
  mono c a b ha hb hlt := by
    rw [label_eq, label_eq]
    simp only [List.dropLast_concat, List.getLast?_concat, Option.getD_some]
    split_ifs
    · exact Nat.succ_lt_succ
        (idxOf_lt_idxOf (pairwise_kids c) (mem_kids (has_of_mem_chains ha)) hlt)
    · exact hlt

theorem labelsFrom_getLast (p c : List ℕ) : labelsFrom (fun q => q.getLast?.getD 0) p c = c := by
  induction c generalizing p with
  | nil => rfl
  | cons d c ih => simp [labelsFrom, ih]

/-- The old coordinate of a chain. -/
theorem spell_getLast (c : List ℕ) :
    spell dEnc (fun q => q.getLast?.getD 0) c = c.flatMap dEnc := by
  rw [spell, spellFrom_eq_flatMap, labelsFrom_getLast]

/-- **The new coordinate of a chain** spells its new deltas. -/
theorem newCoord_eq {c : List ℕ} (hc : c ∈ t.chains) : t.newCoord settled {} c =
    (labelsFrom (t.label settled {}) [] c).flatMap dEnc := by
  rw [newCoord, spell, spellFrom_eq_flatMap]
  refine List.flatMap_congr fun d hd => ?_
  have hpos := (siblingMono_label settled).pos_of_mem_labelsFrom (p := []) hc d hd
  rw [codeword, if_neg (by omega)]

theorem newCoord_eq_spell {c : List ℕ} (hc : c ∈ t.chains) : t.newCoord settled {} c =
    spell dEnc (t.label settled {}) c := by
  rw [newCoord_eq settled hc, spell, spellFrom_eq_flatMap]

/-! ### The forward map -/

theorem translateFrom_covered {total n : ℕ} {p c : List ℕ}
    (hcov : ∀ q, q <+: c → q ≠ [] → t.has (p ++ q) = true) (hpos : ∀ d ∈ c, 1 ≤ d)
    (hn : (c.flatMap dEnc).length ≤ n) :
    t.translateFrom settled {} total n p (c.flatMap dEnc) = .ok (t.newCoord settled {} (p ++ c)) := by
  induction c generalizing p n with
  | nil => cases n <;> simp [translateFrom]
  | cons d c ih =>
    have hd := hpos d List.mem_cons_self
    obtain ⟨b, bits, hcode⟩ := List.exists_cons_of_ne_nil (orderedPrefixCode_dEnc.ne_nil hd)
    rw [List.flatMap_cons] at hn ⊢
    cases n with
    | zero => simp [hcode] at hn
    | succ n =>
      have hstep : t.translateFrom settled {} total (n + 1) p (dEnc d ++ c.flatMap dEnc) =
          t.translateFrom settled {} total n (p ++ [d]) (c.flatMap dEnc) := by
        have hcons : dEnc d ++ c.flatMap dEnc = b :: (bits ++ c.flatMap dEnc) := by
          rw [hcode]
          rfl
        have hhas : t.has (p ++ [d]) = true := hcov [d] (by simp) (by simp)
        rw [hcons, translateFrom, ← hcons, decodeOne_append _ hd]
        simp [hhas, bind, Except.bind]
      rw [hstep, ih (p := p ++ [d]) (n := n) ?_ (fun x hx => hpos x (List.mem_cons_of_mem _ hx)) ?_]
      · simp
      · intro q hq hne
        have := hcov (d :: q) (List.cons_prefix_cons.mpr ⟨rfl, hq⟩) (by simp)
        simpa using this
      · rw [List.length_append, hcode, List.length_cons] at hn
        omega

/-- **The forward map** takes the old coordinate of a chain in the tree to the new one. -/
theorem translate_flatMap {c : List ℕ} (hc : c ∈ t.chains) :
    t.translate settled {} (c.flatMap dEnc) = .ok (t.newCoord settled {} c) := by
  exact translateFrom_covered settled (p := []) (fun q hq hne => hc.1 q hq hne) hc.2 le_rfl

end CoordTree

namespace EmbedRGA

/-! ### Changing all records -/

theorem mapM_eq_ok_iff {ε β δ : Type} {f : β → Except ε δ} {l : List β} {l' : List δ} :
    l.mapM f = .ok l' ↔ List.Forall₂ (fun a b => f a = .ok b) l l' := by
  induction l generalizing l' with
  | nil => cases l' <;> simp [pure, Except.pure]
  | cons a l ih =>
    rw [List.mapM_cons]
    cases ha : f a with
    | error e => cases l' <;> simp [bind, Except.bind, ha]
    | ok b =>
      cases hl : l.mapM f with
      | error e => cases l' <;> simp [bind, Except.bind, ← ih, ha, hl]
      | ok bs => cases l' <;> simp [bind, Except.bind, pure, Except.pure, ← ih, ha, hl]

theorem map_fst_of_forall₂ {es es' : List (ℕ × Record α)}
    (h : List.Forall₂ (fun e e' => e'.1 = e.1) es es') : es'.map Prod.fst = es.map Prod.fst := by
  induction h with
  | nil => rfl
  | cons he _ ih => rw [List.map_cons, List.map_cons, he, ih]

/-- **Changing all records** keeps the ids and changes record by record. -/
theorem mapRecords_eq_ok_iff {s s' : State α} {f : Record α → Except Failure (Record α)} :
    mapRecords s f = .ok s' ↔
      List.Forall₂ (fun e e' => e'.1 = e.1 ∧ f e.2 = .ok e'.2) s.entries s'.entries := by
  have hentry (e e' : ℕ × Record α) :
      (do return (e.1, ← f e.2) : Except Failure (ℕ × Record α)) = .ok e' ↔
        e'.1 = e.1 ∧ f e.2 = .ok e'.2 := by
    cases f e.2 with
    | error err => simp [bind, Except.bind]
    | ok rec => simp [bind, Except.bind, pure, Except.pure, Prod.ext_iff, eq_comm]
  have hmap {es' : List (ℕ × Record α)} :
      s.entries.mapM (fun e => do return (e.1, ← f e.2)) = .ok es' ↔
        List.Forall₂ (fun e e' => e'.1 = e.1 ∧ f e.2 = .ok e'.2) s.entries es' := by
    rw [mapM_eq_ok_iff]
    simp only [hentry]
  have hsorted {es' : List (ℕ × Record α)}
      (h : List.Forall₂ (fun e e' => e'.1 = e.1 ∧ f e.2 = .ok e'.2) s.entries es') :
      es'.Pairwise fun a b => a.1 < b.1 := by
    have hkeys := map_fst_of_forall₂ (h.imp fun _ _ he => he.1)
    rw [← List.pairwise_map (f := Prod.fst) (R := (· < ·)), hkeys, List.pairwise_map]
    exact s.sorted
  rw [mapRecords]
  cases hes : s.entries.mapM (fun e => do return (e.1, ← f e.2)) with
  | error e =>
    constructor
    · intro h
      cases h
    · intro h
      rw [hmap.mpr h] at hes
      cases hes
  | ok es' =>
    have hes' := hmap.mp hes
    constructor
    · intro h
      cases h
      rwa [SortedMap.entries_ofList (hsorted hes')]
    · intro h
      have heq : es' = s'.entries := Except.ok.inj (hes.symm.trans (hmap.mpr h))
      subst heq
      simp [bind, Except.bind, pure, Except.pure, SortedMap.ofList_entries]

end EmbedRGA

open CoordTree EmbedRGA

/-! ### The compaction -/

section Compaction

variable {s : EmbedRGA.State α} {cut : CoordCut}
  {res : Compacted (EmbedRGA.State α) (List Bool → Except Failure (List Bool))}

/-- The record `e'` is the record `e` with the coordinate of its chain rewritten. -/
def Recoded (t : CoordTree) (settled : List ℕ) (e e' : ℕ × Record α) : Prop :=
  e'.1 = e.1 ∧ ∃ c ∈ t.chains, e.2.coord = c.flatMap dEnc ∧
    e'.2 = { coord := t.newCoord settled {} c, el := e.2.el }

/-- **A compaction** rewrites the coordinates of all records along the tree. -/
theorem compactEliasDelta_spec (h : compactEliasDelta s cut {} = .ok res) :
    ∃ t, CoordTree.build s cut = .ok t ∧
      res.translate = t.translate (cut.settledIds.getD []) {} ∧
      List.Forall₂ (Recoded t (cut.settledIds.getD [])) s.entries res.state.entries := by
  rw [compactEliasDelta] at h
  cases hbuild : CoordTree.build s cut with
  | error e =>
    rw [hbuild] at h
    cases h
  | ok t =>
    rw [hbuild] at h
    simp only [bind, Except.bind] at h
    cases hmap : mapRecords s (t.recode (cut.settledIds.getD []) {}) with
    | error e =>
      rw [hmap] at h
      cases h
    | ok s' =>
      rw [hmap] at h
      cases h
      refine ⟨t, rfl, rfl, ?_⟩
      have hpoint := mapRecords_eq_ok_iff.mp hmap
      rw [List.forall₂_iff_get] at hpoint ⊢
      refine ⟨hpoint.1, fun i hi hi' => ?_⟩
      obtain ⟨hid, hrec⟩ := hpoint.2 i hi hi'
      obtain ⟨c, hc, hcov⟩ := build_eq_ok hbuild _ (List.get_mem s.entries ⟨i, hi⟩)
      obtain ⟨hpos, hcoord⟩ := decodeChain_eq_ok_iff.mp hc
      rw [recode, hc] at hrec
      exact ⟨hid, c, ⟨hcov, hpos⟩, hcoord, (Except.ok.inj hrec).symm⟩

theorem precedes_iff_of_recoded {t : CoordTree} {settled : List ℕ} {e e' f f' : ℕ × Record α}
    (he : Recoded t settled e e') (hf : Recoded t settled f f') :
    EmbedRGA.precedes e f ↔ EmbedRGA.precedes e' f' := by
  obtain ⟨hid, c, hc, hcoord, hrec⟩ := he
  obtain ⟨hid', d, hd, hcoord', hrec'⟩ := hf
  have hlt : sortKey f.2.coord < sortKey e.2.coord ↔ sortKey f'.2.coord < sortKey e'.2.coord := by
    rw [hcoord, hcoord', hrec, hrec', newCoord_eq_spell settled hc, newCoord_eq_spell settled hd,
      ← spell_getLast, ← spell_getLast,
      spell_key_lt_iff orderedPrefixCode_dEnc siblingMono_getLast hc hd,
      spell_key_lt_iff orderedPrefixCode_dEnc (siblingMono_label settled) hc hd]
  have heq : sortKey f.2.coord = sortKey e.2.coord ↔ sortKey f'.2.coord = sortKey e'.2.coord := by
    rw [sortKey_injective.eq_iff, sortKey_injective.eq_iff, hcoord, hcoord', hrec, hrec',
      newCoord_eq_spell settled hc, newCoord_eq_spell settled hd, ← spell_getLast, ← spell_getLast]
    constructor
    · intro h
      rw [spell_injective orderedPrefixCode_dEnc siblingMono_getLast hd hc h]
    · intro h
      rw [spell_injective orderedPrefixCode_dEnc (siblingMono_label settled) hd hc h]
  rw [EmbedRGA.precedes, EmbedRGA.precedes, hlt, heq, hid, hid']

/-- Sorting lists that are related entry by entry, by relations that agree. -/
theorem forall₂_insertionSort {β δ : Type} {R : β → δ → Prop} {r : β → β → Prop}
    {r' : δ → δ → Prop} [DecidableRel r] [DecidableRel r']
    (hr : ∀ a a' b b', R a a' → R b b' → (r a b ↔ r' a' b')) {l : List β} {l' : List δ}
    (h : List.Forall₂ R l l') : List.Forall₂ R (l.insertionSort r) (l'.insertionSort r') := by
  have hinsert {a : β} {a' : δ} (ha : R a a') {l : List β} {l' : List δ}
      (h : List.Forall₂ R l l') :
      List.Forall₂ R (l.orderedInsert r a) (l'.orderedInsert r' a') := by
    induction h with
    | nil => exact .cons ha .nil
    | @cons b b' l l' hb hl ih =>
      rw [List.orderedInsert_cons, List.orderedInsert_cons]
      by_cases hab : r a b
      · rw [if_pos hab, if_pos ((hr a a' b b' ha hb).mp hab)]
        exact .cons ha (.cons hb hl)
      · rw [if_neg hab, if_neg (mt (hr a a' b b' ha hb).mpr hab)]
        exact .cons hb ih
  induction h with
  | nil => exact .nil
  | cons ha _ ih => exact hinsert ha ih

/-- **A compaction keeps the read.** -/
theorem read_compactEliasDelta (h : compactEliasDelta s cut {} = .ok res) :
    EmbedRGA.read res.state = EmbedRGA.read s := by
  obtain ⟨t, -, -, hrec⟩ := compactEliasDelta_spec h
  have hsorted := forall₂_insertionSort
    (fun _ _ _ _ he hf => precedes_iff_of_recoded he hf) hrec
  have hels {l l' : List (ℕ × Record α)}
      (h : List.Forall₂ (Recoded t (cut.settledIds.getD [])) l l') :
      l'.map (fun e => e.2.el) = l.map fun e => e.2.el := by
    induction h with
    | nil => rfl
    | cons he _ ih =>
      obtain ⟨-, c, -, -, hrec⟩ := he
      rw [List.map_cons, List.map_cons, ih, hrec]
  exact hels hsorted

/-- **The forward map** of a compaction takes the state to the compacted one. -/
theorem remapState_translate (h : compactEliasDelta s cut {} = .ok res) :
    remapState s res.translate = .ok res.state := by
  obtain ⟨t, -, htranslate, hrec⟩ := compactEliasDelta_spec h
  rw [remapState, mapRecords_eq_ok_iff, htranslate]
  refine hrec.imp fun e e' he => ?_
  obtain ⟨hid, c, hc, hcoord, hrec⟩ := he
  rw [hcoord, translate_flatMap _ hc, hrec]
  exact ⟨hid, rfl⟩

/-! ### The inverse map -/

section Inverse

variable {t : CoordTree} {settled : List ℕ}

/-- The nodes of the inverse tree stand for chains: under the new deltas the old coordinate. -/
def Inverts (t : CoordTree) (settled : List ℕ) (T : InverseTree) : Prop :=
  ∀ q pre, T.pre? q = some pre →
    ∃ c ∈ t.chains, q = labelsFrom (t.label settled {}) [] c ∧ pre = c.flatMap dEnc

theorem labelsFrom_injective {c d : List ℕ} (hc : c ∈ t.chains) (hd : d ∈ t.chains)
    (h : labelsFrom (t.label settled {}) [] c = labelsFrom (t.label settled {}) [] d) : c = d := by
  refine spell_injective orderedPrefixCode_dEnc (siblingMono_label settled) hc hd ?_
  rw [spell, spell, spellFrom_eq_flatMap, spellFrom_eq_flatMap, h]

theorem pre?_append (T : InverseTree) (p : List ℕ) (pre : List Bool) (q : List ℕ) :
    InverseTree.pre? (T ++ [(p, pre)]) q =
      (T.pre? q).or (if p = q then some pre else none) := by
  unfold InverseTree.pre?
  rw [List.find?_append]
  cases List.find? (fun e => decide (e.1 = q)) T with
  | some e => rfl
  | none =>
    by_cases hpq : p = q
    · simp [hpq]
    · simp [hpq]

/-- **Entering a chain** keeps the nodes and adds those of the chain. -/
theorem descend_spec {T : InverseTree} {p ds : List ℕ} (hT : Inverts t settled T)
    (hp : p ++ ds ∈ t.chains) :
    let T' := T.descend (labelsFrom (t.label settled {}) [] p) (p.flatMap dEnc) (ds.map dEnc)
      (labelsFrom (t.label settled {}) p ds)
    Inverts t settled T' ∧ (∀ q, (T.pre? q).isSome = true → (T'.pre? q).isSome = true) ∧
      ∀ q, q <+: ds → q ≠ [] →
        (T'.pre? (labelsFrom (t.label settled {}) [] (p ++ q))).isSome = true := by
  induction ds generalizing T p with
  | nil => exact ⟨hT, fun _ hq => hq, fun q hq hne => absurd (List.prefix_nil.mp hq) hne⟩
  | cons d ds ih =>
    have hpd : p ++ [d] ++ ds ∈ t.chains := by simpa using hp
    have hmem : p ++ [d] ∈ t.chains := mem_chains_left hpd
    have hlabels : labelsFrom (t.label settled {}) [] (p ++ [d]) =
        labelsFrom (t.label settled {}) [] p ++ [t.label settled {} (p ++ [d])] := by
      rw [labelsFrom_append]
      rfl
    have hflat : (p ++ [d]).flatMap dEnc = p.flatMap dEnc ++ dEnc d := by simp
    -- From the node of `d` on, the chain is entered by the induction hypothesis.
    have hnext {T₁ : InverseTree} (hT₁ : Inverts t settled T₁)
        (hd : (T₁.pre? (labelsFrom (t.label settled {}) [] (p ++ [d]))).isSome = true) :
        let T' := T₁.descend (labelsFrom (t.label settled {}) [] (p ++ [d]))
          ((p ++ [d]).flatMap dEnc) (ds.map dEnc) (labelsFrom (t.label settled {}) (p ++ [d]) ds)
        Inverts t settled T' ∧ (∀ q, (T₁.pre? q).isSome = true → (T'.pre? q).isSome = true) ∧
          ∀ q, q <+: d :: ds → q ≠ [] →
            (T'.pre? (labelsFrom (t.label settled {}) [] (p ++ q))).isSome = true := by
      obtain ⟨hinv, hmono, hall⟩ := ih hT₁ hpd
      refine ⟨hinv, hmono, fun q hq hne => ?_⟩
      obtain ⟨e, q, rfl⟩ := List.exists_cons_of_ne_nil hne
      obtain ⟨rfl, htail⟩ := List.cons_prefix_cons.mp hq
      by_cases hnil : q = []
      · rw [hnil]
        exact hmono _ hd
      · have := hall q htail hnil
        simpa using this
    intro T'
    cases hpre : T.pre? (labelsFrom (t.label settled {}) [] p ++ [t.label settled {} (p ++ [d])]) with
    | some pre' =>
      obtain ⟨c, hc, hcq, hcpre⟩ := hT _ _ hpre
      have hcd : c = p ++ [d] := labelsFrom_injective hc hmem (by rw [hlabels, hcq])
      have hT' : T' = T.descend (labelsFrom (t.label settled {}) [] (p ++ [d]))
          ((p ++ [d]).flatMap dEnc) (ds.map dEnc)
          (labelsFrom (t.label settled {}) (p ++ [d]) ds) := by
        simp only [T', labelsFrom, InverseTree.descend, hpre]
        rw [hlabels, hcpre, hcd]
        rfl
      rw [hT']
      exact hnext hT (by rw [hlabels, hpre]; rfl)
    | none =>
      set T₁ : InverseTree := T ++ [(labelsFrom (t.label settled {}) [] (p ++ [d]),
        (p ++ [d]).flatMap dEnc)]
      have hT' : T' = T₁.descend (labelsFrom (t.label settled {}) [] (p ++ [d]))
          ((p ++ [d]).flatMap dEnc) (ds.map dEnc)
          (labelsFrom (t.label settled {}) (p ++ [d]) ds) := by
        simp only [T', T₁, labelsFrom, InverseTree.descend, hpre]
        rw [hlabels, hflat]
        rfl
      have hT₁ : Inverts t settled T₁ := by
        intro q pre hq
        rw [pre?_append] at hq
        rcases Option.or_eq_some_iff.mp hq with hq | ⟨-, hq⟩
        · exact hT q pre hq
        · split_ifs at hq with heq
          exact ⟨p ++ [d], hmem, heq.symm, (Option.some.inj hq).symm⟩
      rw [hT']
      obtain ⟨hinv, hmono, hall⟩ := hnext hT₁ (by simp [T₁, pre?_append])
      refine ⟨hinv, fun q hq => hmono q ?_, hall⟩
      rw [pre?_append, Option.isSome_or, hq, Bool.true_or]

/-- **Entering the records** of the compacted state. -/
theorem addRecords_inverts {s : EmbedRGA.State α} {es es' : List (ℕ × Record α)}
    (h : List.Forall₂ (Recoded t settled) es es') (hes : ∀ e ∈ es, s.get? e.1 = some e.2)
    {T : InverseTree} (hT : Inverts t settled T) :
    ∃ T', InverseTree.addRecords s T es' = .ok T' ∧ Inverts t settled T' ∧
      (∀ q, (T.pre? q).isSome = true → (T'.pre? q).isSome = true) ∧
      ∀ e ∈ es, ∀ c ∈ t.chains, e.2.coord = c.flatMap dEnc → ∀ q, q <+: c → q ≠ [] →
        (T'.pre? (labelsFrom (t.label settled {}) [] q)).isSome = true := by
  induction h generalizing T with
  | nil => exact ⟨T, rfl, hT, fun _ hq => hq, by simp⟩
  | @cons e e' es es' he _ ih =>
    obtain ⟨hid, c, hc, hcoord, hrec⟩ := he
    have hget := hes e List.mem_cons_self
    have hsegs : InverseTree.codewordSegs e.2.coord = .ok (c.map dEnc) := by
      rw [InverseTree.codewordSegs, hcoord, decodeChain_flatMap hc.2]
      rfl
    have hchain : decodeChain e'.2.coord = .ok (labelsFrom (t.label settled {}) [] c) := by
      rw [hrec, newCoord_eq settled hc]
      exact decodeChain_flatMap ((siblingMono_label settled).pos_of_mem_labelsFrom hc)
    obtain ⟨hinv, hmono, hall⟩ := descend_spec (p := []) hT hc
    obtain ⟨T', hT', hinv', hmono', hall'⟩ :=
      ih (fun x hx => hes x (List.mem_cons_of_mem _ hx)) hinv
    refine ⟨T', ?_, hinv', fun q hq => hmono' q (hmono q hq), List.forall_mem_cons.mpr ⟨?_, hall'⟩⟩
    · rw [InverseTree.addRecords, hid, hget]
      simp only [hsegs, hchain, bind, Except.bind]
      exact hT'
    · intro d hd hcoord' q hq hne
      have hcd : c = d := by
        refine spell_injective orderedPrefixCode_dEnc siblingMono_getLast hc hd ?_
        rw [spell_getLast, spell_getLast, ← hcoord, hcoord']
      exact hmono' _ (hall q (hcd ▸ hq) hne)

/-- **The walk of the inverse map** along a chain that was entered, in front of any rest. -/
theorem applyFrom_append {T : InverseTree} (hT : Inverts t settled T) {k n : ℕ}
    {p ds : List ℕ} (rest : List Bool) (hp : p ++ ds ∈ t.chains)
    (hent : ∀ q, q <+: ds → q ≠ [] →
      (T.pre? (labelsFrom (t.label settled {}) [] (p ++ q))).isSome = true)
    (hn : ((labelsFrom (t.label settled {}) p ds).flatMap dEnc ++ rest).length ≤ n) :
    ∃ m, rest.length ≤ m ∧
      T.applyFrom k n (labelsFrom (t.label settled {}) [] p) (p.flatMap dEnc)
        ((labelsFrom (t.label settled {}) p ds).flatMap dEnc ++ rest) =
      T.applyFrom k m (labelsFrom (t.label settled {}) [] (p ++ ds)) ((p ++ ds).flatMap dEnc)
        rest := by
  induction ds generalizing p n with
  | nil => exact ⟨n, by simpa [labelsFrom] using hn, by simp [labelsFrom]⟩
  | cons d ds ih =>
    have hpd : p ++ [d] ++ ds ∈ t.chains := by simpa using hp
    have hmem : p ++ [d] ∈ t.chains := mem_chains_left hpd
    have hlabels : labelsFrom (t.label settled {}) [] (p ++ [d]) =
        labelsFrom (t.label settled {}) [] p ++ [t.label settled {} (p ++ [d])] := by
      rw [labelsFrom_append]
      rfl
    have hpos := (siblingMono_label settled).pos _ hmem (by simp)
    obtain ⟨b, bits, hcode⟩ := List.exists_cons_of_ne_nil (orderedPrefixCode_dEnc.ne_nil hpos)
    rw [labelsFrom, List.flatMap_cons, List.append_assoc] at hn ⊢
    cases n with
    | zero => simp [hcode] at hn
    | succ n =>
      obtain ⟨pre, hpre⟩ := Option.isSome_iff_exists.mp (hent [d] (by simp) (by simp))
      obtain ⟨c, hc, hcq, rfl⟩ := hT _ _ hpre
      have hcd : c = p ++ [d] := labelsFrom_injective hc hmem hcq.symm
      set tail := (labelsFrom (t.label settled {}) (p ++ [d]) ds).flatMap dEnc ++ rest
      have hcons : dEnc (t.label settled {} (p ++ [d])) ++ tail = b :: (bits ++ tail) := by
        rw [hcode]
        rfl
      rw [hcons, InverseTree.applyFrom, ← hcons, decodeOne_append _ hpos]
      simp only [bind, Except.bind]
      rw [← hlabels, hpre, hcd]
      have hent' : ∀ q, q <+: ds → q ≠ [] →
          (T.pre? (labelsFrom (t.label settled {}) [] (p ++ [d] ++ q))).isSome = true := by
        intro q hq hne
        have := hent (d :: q) (List.cons_prefix_cons.mpr ⟨rfl, hq⟩) (by simp)
        simpa using this
      have hlen : tail.length ≤ n := by
        rw [List.length_append, hcode, List.length_cons] at hn
        omega
      obtain ⟨m, hm, hrest⟩ := ih (p := p ++ [d]) hpd hent' hlen
      exact ⟨m, hm, by simpa using hrest⟩

theorem applyFrom_entered {T : InverseTree} (hT : Inverts t settled T) {k n : ℕ}
    {p ds : List ℕ} (hp : p ++ ds ∈ t.chains)
    (hent : ∀ q, q <+: ds → q ≠ [] →
      (T.pre? (labelsFrom (t.label settled {}) [] (p ++ q))).isSome = true)
    (hn : ((labelsFrom (t.label settled {}) p ds).flatMap dEnc).length ≤ n) :
    T.applyFrom k n (labelsFrom (t.label settled {}) [] p) (p.flatMap dEnc)
      ((labelsFrom (t.label settled {}) p ds).flatMap dEnc) = .ok ((p ++ ds).flatMap dEnc) := by
  obtain ⟨m, -, happly⟩ := applyFrom_append (k := k) hT [] hp hent (by simpa using hn)
  rw [List.append_nil] at happly
  rw [happly]
  cases m <;> rfl

end Inverse

/-- **The inverse map** of a compaction can be built, and takes the compacted state back. -/
theorem remapState_inverse (h : compactEliasDelta s cut {} = .ok res) :
    ∃ m, buildInverseTranslate s res.state = .ok m ∧ remapState res.state m = .ok s := by
  obtain ⟨t, -, -, hrec⟩ := compactEliasDelta_spec h
  set settled := cut.settledIds.getD []
  have hnone : Inverts t settled [] := fun q pre hq => by simp [InverseTree.pre?] at hq
  obtain ⟨T, hT, hinv, -, hall⟩ := addRecords_inverts hrec
    (fun e he => SortedMap.mem_entries_iff.mp he) hnone
  refine ⟨_, by rw [buildInverseTranslate, hT]; rfl, ?_⟩
  rw [remapState, mapRecords_eq_ok_iff]
  have hflip {es es' : List (ℕ × Record α)} (hes : ∀ e ∈ es, e ∈ s.entries)
      (h : List.Forall₂ (Recoded t settled) es es') :
      List.Forall₂ (fun e' e => e.1 = e'.1 ∧ (do return ({
        coord := ← T.applyFrom e'.2.coord.length e'.2.coord.length [] [] e'.2.coord
        el := e'.2.el } : Record α)) = (.ok e.2 : Except Failure (Record α))) es' es := by
    induction h with
    | nil => exact .nil
    | @cons e e' _ _ he _ ih =>
      refine .cons ?_ (ih fun x hx => hes x (List.mem_cons_of_mem _ hx))
      obtain ⟨hid, c, hc, hcoord, hnew⟩ := he
      have happly := applyFrom_entered hinv (p := []) (k := e'.2.coord.length) hc
        (hall e (hes e List.mem_cons_self) c hc hcoord) le_rfl
      have hcode : e'.2.coord = (labelsFrom (t.label settled {}) [] c).flatMap dEnc := by
        rw [hnew, newCoord_eq settled hc]
      refine ⟨hid.symm, ?_⟩
      rw [← hcode] at happly
      rw [show T.applyFrom e'.2.coord.length e'.2.coord.length [] [] e'.2.coord =
        .ok (c.flatMap dEnc) from happly, ← hcoord, hnew]
      rfl
  exact hflip (fun e he => he) hrec

end Compaction

end SalRuntime
