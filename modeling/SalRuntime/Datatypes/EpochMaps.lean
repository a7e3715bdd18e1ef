import SalRuntime.Datatypes.Respelling

/-!
# The maps of an epoch on later insertions

The forward map of a compaction and the inverse map that is built from the states before and after
it are built from different trees. On the coordinates of the records, and on those of insertions
below them that the compaction has not seen, they are inverse to each other: both keep the steps
below a record that are fresh. The forward map keeps the display order of these coordinates.

## Main definitions

* `EmbedRGA.Extended` — the coordinates of the records and of fresh insertions below them.
* `EmbedRGA.FreshBelow` — chains that leave the tree at an anchor by a fresh step.

## Main results

* `EmbedRGA.Extended.freshBelow` — the chains of extended coordinates.
* `EmbedRGA.separates_freshBelow` — the forward map separates these chains.
* `EmbedRGA.inverse_translate` — the inverse map takes the translated coordinate back.
-/

namespace SalRuntime

variable {α : Type}

namespace EmbedRGA

open CoordTree

/-- The coordinates of the anchors of a state and of fresh insertions below them, each with the id of
its record: a fresh id exceeds those of the history and that of its anchor, and no coordinate that
the cut declares passes through its own. -/
inductive Extended (s : State α) (I : Set ℕ) (cut : CoordCut) : ℕ → List Bool → Prop
  | anchor {a bits} (h : anchorCoord s a = some bits) : Extended s I cut (a.getD 0) bits
  | insert {a id bits} (h : Extended s I cut a bits) (hfresh : ∀ i ∈ I, i < id) (hlt : a < id)
      (hundeclared : ∀ c ∈ cut.inflight ++ cut.frozenAnchorCoords, ¬ bits ++ dEnc (id - a) <+: c) :
      Extended s I cut id (bits ++ dEnc (id - a))

/-- The chain goes from an anchor on by positive deltas, the first of which is fresh: it exceeds the
distances to the ids of the history, and leaves the tree. -/
def FreshBelow (t : CoordTree) (I : Set ℕ) (s : State α) (c : List ℕ) : Prop :=
  ∃ a ca f, AnchorChain s a ca ∧ c = ca ++ f ∧ (∀ d ∈ f, 1 ≤ d) ∧
    ∀ d f', f = d :: f' → t.has (ca ++ [d]) = false ∧ ∀ i ∈ I, i < a + d

variable {I : Set ℕ} {s : State α} {cut : CoordCut} {t : CoordTree} {settled : List ℕ}

/-- A fresh step leaves the tree. -/
theorem has_eq_false_of_fresh (h : Grounded I s) (hbuild : CoordTree.build s cut = .ok t) {a d : ℕ}
    {ca : List ℕ} (ha : AnchorChain s a ca) (hfresh : ∀ i ∈ I, i < a + d)
    (hundeclared : ∀ c ∈ cut.inflight ++ cut.frozenAnchorCoords,
      ¬ (ca ++ [d]).flatMap dEnc <+: c) : t.has (ca ++ [d]) = false := by
  refine Bool.eq_false_iff.mpr fun hhas => ?_
  obtain ⟨m, hm⟩ := Option.isSome_iff_exists.mp hhas
  rcases node?_build hbuild hm with
    ⟨c, hc, -, -, hpre, -⟩ | ⟨c, hc, ds, hds, ⟨r, rfl⟩, -⟩ | ⟨-, hnil | ⟨e, he, c, hc, ⟨r, rfl⟩⟩⟩
  · exact hundeclared c (List.mem_append_left _ hc) (by simpa using hpre)
  · refine hundeclared c (List.mem_append_right _ hc) ?_
    rw [(decodeChain_eq_ok_iff.mp hds).2]
    exact ⟨r.flatMap dEnc, by simp⟩
  · simp at hnil
  · obtain ⟨i, hi, hle⟩ := h.below a ca e.1 d r ha
      ⟨e.2, SortedMap.mem_entries_iff.mp he, chainOf_eq_some_iff.mp (by simpa using hc)⟩
    have := hfresh i hi
    omega

/-- **The chains of extended coordinates** leave the tree at an anchor by a fresh step. -/
theorem Extended.freshBelow (h : Grounded I s) (hbuild : CoordTree.build s cut = .ok t) {i : ℕ}
    {bits : List Bool} (hext : Extended s I cut i bits) :
    ∃ c, FreshBelow t I s c ∧ bits = c.flatMap dEnc := by
  suffices hchain : ∃ a ca f, AnchorChain s a ca ∧ bits = (ca ++ f).flatMap dEnc ∧
      (∀ d ∈ f, 1 ≤ d) ∧ (f = [] → a = i) ∧
      ∀ d f', f = d :: f' → t.has (ca ++ [d]) = false ∧ ∀ i ∈ I, i < a + d by
    obtain ⟨a, ca, f, ha, hbits, hpos, -, hfresh⟩ := hchain
    exact ⟨ca ++ f, ⟨a, ca, f, ha, rfl, hpos, hfresh⟩, hbits⟩
  induction hext with
  | @anchor a bits ha =>
    obtain ⟨ca, hca, -, hbits⟩ := h.exists_anchor ha
    exact ⟨a.getD 0, ca, [], hca, by simpa using hbits, by simp, fun _ => rfl, by simp⟩
  | @insert b id bits _ hfresh hlt hundeclared ih =>
    obtain ⟨a, ca, f, ha, rfl, hpos, heq, hf⟩ := ih
    refine ⟨a, ca, f ++ [id - b], ha, by simp, fun d hd => ?_, by simp, fun d f' hd => ?_⟩
    · rcases List.mem_append.mp hd with hd | hd
      · exact hpos d hd
      · have := List.mem_singleton.mp hd
        omega
    · cases f with
      | nil =>
        obtain rfl := heq rfl
        obtain ⟨rfl, -⟩ := List.cons_eq_cons.mp hd
        have hbound : ∀ i ∈ I, i < a + (id - a) := fun i hi => by
          have := hfresh i hi
          omega
        refine ⟨has_eq_false_of_fresh h hbuild ha hbound fun c hc => ?_, hbound⟩
        simpa using hundeclared c hc
      | cons e f =>
        obtain ⟨rfl, -⟩ := List.cons_eq_cons.mp hd
        exact hf e f rfl

/-! ### The forward map -/

/-- A step of such a chain is a step in the tree on the way to an anchor, or a step outside of it;
where such a chain leaves the tree it does so at an anchor, by a fresh step. -/
theorem FreshBelow.step (htree : IsTree t) (hanchor : ∀ a ca, AnchorChain s a ca → t.has ca = true)
    {p x : List ℕ} {d : ℕ} (h : FreshBelow t I s (p ++ d :: x)) :
    (t.has (p ++ [d]) = true ∧ ∃ a y, AnchorChain s a (p ++ d :: y)) ∨
      t.has (p ++ [d]) = false ∧
        (t.has p = true → ∃ a, AnchorChain s a p ∧ ∀ i ∈ I, i < a + d) := by
  obtain ⟨a, ca, f, ha, heq, -, hf⟩ := h
  rcases List.append_eq_append_iff.mp heq with ⟨y, rfl, hy⟩ | ⟨f₀, rfl, hf₀⟩
  · cases y with
    | nil =>
      obtain ⟨hhas, hfresh⟩ := hf d x (by simpa using hy.symm)
      rw [List.append_nil] at ha hhas
      exact Or.inr ⟨hhas, fun _ => ⟨a, ha, hfresh⟩⟩
    | cons e y =>
      obtain ⟨rfl, -⟩ := List.cons_eq_cons.mp hy
      exact Or.inl ⟨htree.has_above ⟨y, by simp⟩ (hanchor a _ ha), a, y, ha⟩
  · cases f₀ with
    | nil =>
      obtain ⟨hhas, hfresh⟩ := hf d x (by simpa using hf₀)
      rw [List.append_nil]
      exact Or.inr ⟨hhas, fun _ => ⟨a, ha, hfresh⟩⟩
    | cons e f₀ =>
      have hout : t.has (ca ++ [e]) = false := (hf e _ hf₀).1
      have hnot {q : List ℕ} (hq : ca ++ [e] <+: q) : t.has q = false :=
        Bool.eq_false_iff.mpr fun hhas => by
          rw [htree.has_above hq hhas] at hout
          cases hout
      refine Or.inr ⟨hnot ⟨f₀ ++ [d], by simp⟩, fun hhas => ?_⟩
      rw [hnot ⟨f₀, by simp⟩] at hhas
      cases hhas

/-- Without spine fusion the forward map keeps every step. -/
theorem mapLabel_pos (htree : IsTree t) {p : List ℕ} {d : ℕ} (hd : 1 ≤ d) :
    1 ≤ t.mapLabel settled {} (p ++ [d]) := by
  by_cases hhas : t.has (p ++ [d]) = true
  · rw [mapLabel_of_has hhas]
    exact label_pos htree hhas rfl
  · rwa [mapLabel_of_not_has (Bool.eq_false_iff.mpr hhas)]

variable (settled) in
/-- **The forward map separates** the chains of the records and of fresh insertions below them. -/
theorem separates_freshBelow (htree : IsTree t) (h : Grounded I s)
    (hanchor : ∀ a ca, AnchorChain s a ca → t.has ca = true) :
    Separates {c | FreshBelow t I s c} (t.mapLabel settled {}) := by
  have hpos {p x : List ℕ} {d : ℕ} (hd : FreshBelow t I s (p ++ d :: x)) : 1 ≤ d := by
    obtain ⟨a, ca, f, ha, heq, hf, -⟩ := hd
    have hmem : d ∈ ca ++ f := heq ▸ by simp
    rcases List.mem_append.mp hmem with hmem | hmem
    · exact htree.pos_of_mem (hanchor a ca ha) d hmem
    · exact hf d hmem
  refine ⟨fun p d e x y hd he hlt => ?_,
    fun p d x _ hd => mapLabel_pos htree (hpos hd)⟩
  refine ⟨mapLabel_pos htree (hpos hd), ?_⟩
  rcases FreshBelow.step htree hanchor hd with ⟨hhas, -⟩ | ⟨hout, hfresh⟩
  · rcases FreshBelow.step htree hanchor he with ⟨hhas', -⟩ | ⟨hout', -⟩
    · rw [mapLabel_of_has hhas, mapLabel_of_has hhas']
      exact (label_lt htree hhas hhas' hlt).2
    · have hle := label_le settled {} htree hhas
      rw [mapLabel_of_has hhas, mapLabel_of_not_has hout']
      omega
  · rcases FreshBelow.step htree hanchor he with ⟨hhas', b, z, hb⟩ | ⟨hout', -⟩
    · -- A fresh step is larger than the steps in the tree.
      obtain ⟨a, ha, hbound⟩ := hfresh (htree.closed p e hhas')
      rcases hb with ⟨-, hnil⟩ | hb
      · simp at hnil
      · obtain ⟨i, hi, hle⟩ := h.below a p b e z ha hb
        have := hbound i hi
        omega
    · rwa [mapLabel_of_not_has hout, mapLabel_of_not_has hout']

/-! ### The inverse map -/

/-- The nodes of the inverse tree are on the way to the new chains that were entered. -/
theorem pre?_descend {T : InverseTree} {p ds q : List ℕ} {pre : List Bool}
    {segs : List (List Bool)} (h : ((T.descend p pre segs ds).pre? q).isSome = true) :
    (T.pre? q).isSome = true ∨ q <+: p ++ ds := by
  induction ds generalizing T p pre segs with
  | nil => exact Or.inl h
  | cons d ds ih =>
    have happ : p ++ [d] ++ ds = p ++ d :: ds := by simp
    rw [InverseTree.descend] at h
    cases hpre : T.pre? (p ++ [d]) with
    | some pre' =>
      rw [hpre] at h
      exact (ih h).imp_right fun hq => happ ▸ hq
    | none =>
      rw [hpre] at h
      rcases ih h with hq | hq
      · rw [pre?_append, Option.isSome_or, Bool.or_eq_true] at hq
        refine hq.imp_right fun hq => ?_
        split_ifs at hq with heq
        · exact heq ▸ ⟨ds, happ⟩
        · cases hq
      · exact Or.inr (happ ▸ hq)

theorem pre?_addRecords {s : State α} {T T' : InverseTree} {es : List (ℕ × Record α)}
    (hadd : InverseTree.addRecords s T es = .ok T') {q : List ℕ}
    (hq : (T'.pre? q).isSome = true) :
    (T.pre? q).isSome = true ∨ ∃ e ∈ es, ∃ c, CoordTree.chainOf e = some c ∧ q <+: c := by
  induction es generalizing T with
  | nil =>
    cases hadd
    exact Or.inl hq
  | cons e es ih =>
    have hrest {T₁ : InverseTree} (h : InverseTree.addRecords s T₁ es = .ok T') :
        (T₁.pre? q).isSome = true ∨ ∃ e' ∈ e :: es, ∃ c, CoordTree.chainOf e' = some c ∧ q <+: c := by
      rcases ih h with hq | ⟨e', he', hc⟩
      · exact Or.inl hq
      · exact Or.inr ⟨e', List.mem_cons_of_mem _ he', hc⟩
    rw [InverseTree.addRecords] at hadd
    cases hold : s.get? e.1 with
    | none =>
      rw [hold] at hadd
      exact hrest hadd
    | some old =>
      rw [hold] at hadd
      simp only [bind, Except.bind] at hadd
      cases hsegs : InverseTree.codewordSegs old.coord with
      | error err =>
        rw [hsegs] at hadd
        cases hadd
      | ok segs =>
        rw [hsegs] at hadd
        cases hc : decodeChain e.2.coord with
        | error err =>
          rw [hc] at hadd
          cases hadd
        | ok c =>
          rw [hc] at hadd
          rcases hrest hadd with hq | hq
          · exact (pre?_descend hq).imp_right fun hq =>
              ⟨e, List.mem_cons_self, c, chainOf_eq_some_iff.mpr hc, hq⟩
          · exact Or.inr hq

/-- Without spine fusion the new chain of a node has all its new deltas. -/
theorem image_eq_labelsFrom {c : List ℕ} (hc : c ∈ t.chains) :
    t.image settled {} c = labelsFrom (t.label settled {}) [] c := by
  rw [image, List.filter_eq_self]
  intro d hd
  have := (siblingMono_label settled).pos_of_mem_labelsFrom (p := []) hc d hd
  simp only [ne_eq, decide_not, Bool.not_eq_true', decide_eq_false_iff_not]
  omega

/-- Anchors of the state are anchors of the compacted one, under their new deltas. -/
theorem anchorChain_compact (hbuild : CoordTree.build s cut = .ok t) {s' : State α}
    (hes : List.Forall₂ (Rewritten t settled {}) s.entries s'.entries) {a : ℕ} {ca : List ℕ}
    (ha : AnchorChain s a ca) (hca : ca ∈ t.chains) :
    AnchorChain s' a (labelsFrom (t.label settled {}) [] ca) := by
  rcases ha with ⟨rfl, rfl⟩ | ⟨rec, hrec, hdecode⟩
  · exact Or.inl ⟨rfl, rfl⟩
  · obtain ⟨e', he', hid, -, c, hc, hcoord, hcoord'⟩ :=
      exists_right_of_forall₂ hes (SortedMap.mem_entries_iff.mpr hrec)
    have hpos := (isTree_build hbuild).pos_of_mem (has_of_recordAt hc)
    obtain rfl : c = ca := by
      rw [show rec.coord = _ from hcoord, decodeChain_flatMap hpos] at hdecode
      exact Except.ok.inj hdecode
    rw [newCoord_eq_image] at hcoord'
    refine Or.inr ⟨e'.2, ?_, ?_⟩
    · rw [← SortedMap.mem_entries_iff, ← show e'.1 = a from hid]
      exact he'
    · rw [hcoord', decodeChain_flatMap (image_pos c), image_eq_labelsFrom hca]

/-- Below an anchor the inverse tree has no step that is fresh. -/
theorem pre?_eq_none {s' : State α} (h : Grounded I s') {a d : ℕ} {ca : List ℕ}
    (ha : AnchorChain s' a ca) (hfresh : ∀ i ∈ I, i < a + d) {T : InverseTree}
    (hT : InverseTree.addRecords s [] s'.entries = .ok T) : T.pre? (ca ++ [d]) = none := by
  by_contra hcon
  rcases pre?_addRecords hT (Option.isSome_iff_ne_none.mpr hcon) with
    hnil | ⟨e, he, c, hc, ⟨r, rfl⟩⟩
  · simp [InverseTree.pre?] at hnil
  · obtain ⟨i, hi, hle⟩ := h.below a ca e.1 d r ha
      ⟨e.2, SortedMap.mem_entries_iff.mp he, chainOf_eq_some_iff.mp (by simpa using hc)⟩
    have := hfresh i hi
    omega

/-- **The maps of a compaction agree** on the coordinates of the records and of fresh insertions below
them, at any depth: the inverse map takes the translated coordinate back, and translation keeps the
display order. -/
theorem inverse_translate (h : EpochReachable I s)
    {res : Compacted (State α) (List Bool → Except Failure (List Bool))}
    (hres : compactEliasDelta s cut {} = .ok res) :
    ∃ inverse, buildInverseTranslate s res.state = .ok inverse ∧
      (∀ i c, Extended s I cut i c →
        ∃ c', res.translate c = .ok c' ∧ inverse c' = .ok c) ∧
      ∀ i j c d c' d', Extended s I cut i c → Extended s I cut j d →
        res.translate c = .ok c' → res.translate d = .ok d' →
        (sortKey d < sortKey c ↔ sortKey d' < sortKey c') := by
  have hground := h.grounded
  have hground' := hground.compact hres
  obtain ⟨t, hbuild, htranslate, hrec⟩ := compactEliasDelta_spec hres
  obtain ⟨t', hbuild', -, -, hes⟩ := compactEliasDelta_rewrites hres
  obtain rfl : t' = t := Except.ok.inj (hbuild'.symm.trans hbuild)
  set settled := cut.settledIds.getD []
  have htree := isTree_build hbuild
  have hnode {a : ℕ} {ca : List ℕ} (ha : HasChain s a ca) : (t'.recordAt ca).isSome = true := by
    obtain ⟨rec, hrec, hca⟩ := ha
    rw [recordAt_build hbuild]
    exact lastId_isSome_of_mem (SortedMap.mem_entries_iff.mpr hrec) (chainOf_eq_some_iff.mpr hca)
  have hanchor (a : ℕ) (ca : List ℕ) (ha : AnchorChain s a ca) : t'.has ca = true := by
    rcases ha with ⟨-, rfl⟩ | ha
    · exact htree.hasRoot
    · exact has_of_recordAt (hnode ha)
  have hnone : Inverts t' settled [] := fun q pre hq => by simp [InverseTree.pre?] at hq
  obtain ⟨T, hT, hinv, -, hall⟩ := addRecords_inverts hrec
    (fun e he => SortedMap.mem_entries_iff.mp he) hnone
  have hsep := separates_freshBelow settled htree hground hanchor
  have hforward {i : ℕ} {bits : List Bool} (hext : Extended s I cut i bits) : ∃ c,
      FreshBelow t' I s c ∧ bits = c.flatMap dEnc ∧ (∀ d ∈ c, 1 ≤ d) ∧
      res.translate bits = .ok (spell codeword (t'.mapLabel settled {}) c) := by
    obtain ⟨c, hc, rfl⟩ := hext.freshBelow hground hbuild
    have hpos : ∀ d ∈ c, 1 ≤ d := by
      obtain ⟨a, ca, f, ha, rfl, hf, -⟩ := hc
      intro d hd
      rcases List.mem_append.mp hd with hd | hd
      · exact htree.pos_of_mem (hanchor a ca ha) d hd
      · exact hf d hd
    exact ⟨c, hc, rfl, hpos, by rw [htranslate, translate_eq htree hpos]⟩
  refine ⟨_, by rw [buildInverseTranslate, hT]; rfl, fun i bits hext => ?_,
    fun i j bits bits' c' d' hc hd hc' hd' => ?_⟩
  · obtain ⟨c, ⟨a, ca, f, ha, rfl, hf, hfresh⟩, rfl, hpos, hmap⟩ := hforward hext
    refine ⟨_, hmap, ?_⟩
    have hca : ca ∈ t'.chains := htree.mem_chains (hanchor a ca ha)
    -- The translated coordinate spells the new deltas of the anchor, then the fresh ones.
    have hcode : spell codeword (t'.mapLabel settled {}) (ca ++ f) =
        (labelsFrom (t'.label settled {}) [] ca).flatMap dEnc ++ f.flatMap dEnc := by
      rw [spell_append, ← newCoord_eq_mapLabel htree (hanchor a ca ha), newCoord_eq settled hca]
      congr 1
      cases f with
      | nil => rfl
      | cons d f => exact spellFrom_of_not_has htree (hfresh d f rfl).1 hf
    have hent : ∀ q, q <+: ca → q ≠ [] →
        (T.pre? (labelsFrom (t'.label settled {}) [] ([] ++ q))).isSome = true := by
      intro q hq hne
      rcases ha with ⟨-, rfl⟩ | ⟨rec, hrec, hdecode⟩
      · exact absurd (List.prefix_nil.mp hq) hne
      · exact hall (a, rec) (SortedMap.mem_entries_iff.mpr hrec) ca hca
          (decodeChain_eq_ok_iff.mp hdecode).2 q hq hne
    obtain ⟨m, hm, happly⟩ := applyFrom_append (p := [])
      (k := (spell codeword (t'.mapLabel settled {}) (ca ++ f)).length) hinv (f.flatMap dEnc) hca
      hent (le_of_eq (congrArg List.length hcode.symm))
    rw [← hcode] at happly
    refine happly.trans ?_
    cases f with
    | nil => cases m <;> simp [InverseTree.applyFrom]
    | cons d f =>
      have hd := hf d List.mem_cons_self
      have hstep : T.pre? (labelsFrom (t'.label settled {}) [] ca ++ [d]) = none :=
        pre?_eq_none hground' (anchorChain_compact hbuild hes ha hca) (hfresh d f rfl).2 hT
      obtain ⟨b, bits, hbits⟩ := List.exists_cons_of_ne_nil (orderedPrefixCode_dEnc.ne_nil hd)
      have hcons : (d :: f).flatMap dEnc = b :: (bits ++ f.flatMap dEnc) := by
        rw [List.flatMap_cons, hbits]
        rfl
      obtain ⟨m, rfl⟩ : ∃ k, m = k + 1 := by
        rw [hcons, List.length_cons] at hm
        exact ⟨m - 1, by omega⟩
      rw [hcons, InverseTree.applyFrom, ← hcons, List.flatMap_cons, decodeOne_append _ hd]
      simp only [bind, Except.bind, List.nil_append]
      rw [hstep, List.flatMap_append, List.flatMap_cons]
      rfl
  · obtain ⟨c, hcf, rfl, hpos, hmap⟩ := hforward hc
    obtain ⟨d, hdf, rfl, hpos', hmap'⟩ := hforward hd
    obtain rfl := Except.ok.inj (hmap.symm.trans hc')
    obtain rfl := Except.ok.inj (hmap'.symm.trans hd')
    rw [hsep.key_lt_iff orderedPrefixCode_codeword hcf hdf, ← spell_getLast, ← spell_getLast,
      separates_getLast.key_lt_iff orderedPrefixCode_dEnc hpos hpos']

/-- The maps of a compaction that renumbers the last of three replies, while a reply to the first is
in flight. -/
theorem inverse_translate_reply :
    let cut : CoordCut := { settledIds := some [1, 2], inflight := [[1, 4].flatMap dEnc],
                            frozenAnchorCoords := [] }
    ∃ res, compactEliasDelta lastReply cut {} = .ok res ∧
      ∃ inverse, buildInverseTranslate lastReply res.state = .ok inverse ∧
        (∀ i c, Extended lastReply ({3, 2, 1} ∪ {2, 1}) cut i c →
          ∃ c', res.translate c = .ok c' ∧ inverse c' = .ok c) ∧
        ∀ i j c d c' d', Extended lastReply ({3, 2, 1} ∪ {2, 1}) cut i c →
          Extended lastReply ({3, 2, 1} ∪ {2, 1}) cut j d →
          res.translate c = .ok c' → res.translate d = .ok d' →
          (sortKey d < sortKey c ↔ sortKey d' < sortKey c') := by
  intro cut
  have hok : (compactEliasDelta lastReply cut {}).toOption.isSome = true := rfl
  cases hres : compactEliasDelta lastReply cut {} with
  | error e => simp [hres, Except.toOption] at hok
  | ok res => exact ⟨res, rfl, inverse_translate epochReachable_lastReply hres⟩

end EmbedRGA

end SalRuntime
