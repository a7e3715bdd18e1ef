import SalRuntime.Datatypes.CompactionMaps

/-!
# The coordinate tree of a compaction

The coordinate tree has a node for every prefix of its chains. The new deltas of a compaction, with
spine fusion or without, are at most the old ones; they ascend among siblings, and a step without a
new delta has no sibling and leaves a dead node. So the new deltas separate the nodes that the
traversal visits, among them those of the records.

## Main definitions

* `CoordTree.IsTree` — a set of chains with their prefixes.
* `CoordTree.mapLabel` — the deltas that the forward map writes.
* `CoordTree.image` — the chain of the new coordinate of a node.

## Main results

* `CoordTree.isTree_build` — the tree of a state is one.
* `CoordTree.label_le` — new deltas are at most the old ones.
* `CoordTree.separates_visited` — new deltas separate the visited nodes.
* `CoordTree.prefix_of_image` — new chains of visited nodes extend each other as the old ones do.
* `CoordTree.translate_eq` — the forward map rewrites the steps in the tree and keeps the others.
-/

namespace SalRuntime

variable {α : Type}

namespace CoordTree

variable {t t' : CoordTree}

/-! ### The nodes of the tree -/

/-- The nodes of the tree are chains of positive deltas, each with its prefixes. -/
structure IsTree (t : CoordTree) : Prop where
  /-- No chain has two nodes. -/
  nodup : (t.map Prod.fst).Nodup
  /-- The root is a node. -/
  hasRoot : t.has [] = true
  /-- Parents are nodes. -/
  closed : ∀ p d, t.has (p ++ [d]) = true → t.has p = true
  /-- Deltas are positive. -/
  pos : ∀ p d, t.has (p ++ [d]) = true → 1 ≤ d

theorem has_iff_mem {p : List ℕ} : t.has p = true ↔ p ∈ t.map Prod.fst := by
  rw [has, node?, Option.isSome_map, List.find?_isSome, List.mem_map]
  simp

theorem keys_update (p : List ℕ) (f : CoordNode → CoordNode) :
    (t.update p f).map Prod.fst = t.map Prod.fst := by
  rw [update, List.map_map]
  refine List.map_congr_left fun e _ => ?_
  rw [Function.comp_apply]
  split_ifs <;> rfl

namespace IsTree

theorem of_root : IsTree root where
  nodup := by simp [CoordTree.root]
  hasRoot := rfl
  closed p d h := by simp [CoordTree.root, has, node?] at h
  pos p d h := by simp [CoordTree.root, has, node?] at h

theorem update (h : IsTree t) (p : List ℕ) (f : CoordNode → CoordNode) : IsTree (t.update p f) where
  nodup := by
    rw [keys_update]
    exact h.nodup
  hasRoot := by
    rw [has_update]
    exact h.hasRoot
  closed q d hq := by
    rw [has_update] at hq ⊢
    exact h.closed q d hq
  pos q d hq := by
    rw [has_update] at hq
    exact h.pos q d hq

theorem childOf (h : IsTree t) {p : List ℕ} {d : ℕ} (hp : t.has p = true) (hd : 1 ≤ d) :
    IsTree (t.childOf p d) where
  nodup := by
    unfold CoordTree.childOf
    split_ifs with hhas
    · exact h.nodup
    · rw [List.map_append, List.nodup_append]
      refine ⟨h.nodup, by simp, fun a ha b hb => ?_⟩
      rintro rfl
      obtain rfl : a = p ++ [d] := by simpa using hb
      exact hhas (has_iff_mem.mpr ha)
  hasRoot := within_childOf p d _ h.hasRoot
  closed q e hq := by
    rw [has_childOf, Bool.or_eq_true, decide_eq_true_iff] at hq
    refine within_childOf p d _ ?_
    rcases hq with hq | hq
    · exact h.closed q e hq
    · obtain ⟨rfl, -⟩ := List.append_inj' hq rfl
      exact hp
  pos q e hq := by
    rw [has_childOf, Bool.or_eq_true, decide_eq_true_iff] at hq
    rcases hq with hq | hq
    · exact h.pos q e hq
    · obtain ⟨-, heq⟩ := List.append_inj' hq rfl
      exact List.head_eq_of_cons_eq heq ▸ hd

theorem descend (h : IsTree t) (f : CoordNode → CoordNode) {p ds : List ℕ} (hp : t.has p = true)
    (hds : ∀ d ∈ ds, 1 ≤ d) : IsTree (t.descend f p ds) := by
  induction ds generalizing t p with
  | nil => exact h
  | cons d ds ih =>
    have hd := hds d List.mem_cons_self
    refine ih ((h.childOf hp hd).update _ _) ?_ fun e he => hds e (List.mem_cons_of_mem _ he)
    rw [has_update, has_childOf]
    simp

theorem has_above (h : IsTree t) {p q : List ℕ} (hp : p <+: q) (hq : t.has q = true) :
    t.has p = true := by
  obtain ⟨r, rfl⟩ := hp
  induction r using List.reverseRecOn with
  | nil => simpa using hq
  | append_singleton r d ih => exact ih (h.closed (p ++ r) d (by simpa using hq))

theorem pos_of_mem (h : IsTree t) {p : List ℕ} (hp : t.has p = true) : ∀ d ∈ p, 1 ≤ d := by
  intro d hd
  obtain ⟨l, r, rfl⟩ := List.append_of_mem hd
  exact h.pos l d (h.has_above ⟨r, by simp⟩ hp)

theorem mem_chains (h : IsTree t) {p : List ℕ} (hp : t.has p = true) : p ∈ t.chains :=
  ⟨fun _ hq _ => h.has_above hq hp, h.pos_of_mem hp⟩

theorem addRecord (h : IsTree t) {id : ℕ} {coord : List Bool} (hadd : t.addRecord id coord = .ok t') :
    IsTree t' := by
  unfold CoordTree.addRecord at hadd
  cases hc : decodeChain coord with
  | error e =>
    rw [hc] at hadd
    cases hadd
  | ok c =>
    rw [hc] at hadd
    cases hadd
    exact (h.descend _ h.hasRoot (decodeChain_eq_ok_iff.mp hc).1).update _ _

theorem addRecords (h : IsTree t) {es : List (ℕ × Record α)} (hadd : t.addRecords es = .ok t') :
    IsTree t' := by
  induction es generalizing t with
  | nil =>
    cases hadd
    exact h
  | cons e es ih =>
    rw [CoordTree.addRecords] at hadd
    cases hone : t.addRecord e.1 e.2.coord with
    | error err =>
      rw [hone] at hadd
      cases hadd
    | ok t₁ =>
      rw [hone] at hadd
      exact ih (h.addRecord hone) hadd

theorem seedInflight (h : IsTree t) {settled : List ℕ} {total n : ℕ} {p : List ℕ} {bits : List Bool}
    (hp : t.has p = true) (hseed : seedInflight settled total n t p bits = .ok t') : IsTree t' := by
  induction n generalizing t p bits with
  | zero =>
    cases bits with
    | nil =>
      cases hseed
      split_ifs
      · exact h
      · exact h.update _ _
    | cons b bits =>
      cases hseed
      exact h
  | succ n ih =>
    cases bits with
    | nil =>
      cases hseed
      split_ifs
      · exact h
      · exact h.update _ _
    | cons b bits =>
      rw [CoordTree.seedInflight] at hseed
      cases hone : decodeOne (total - (b :: bits).length) (b :: bits) with
      | error e =>
        rw [hone] at hseed
        cases hseed
      | ok d =>
        rw [hone] at hseed
        simp only [bind, Except.bind] at hseed
        have hd : 1 ≤ d.1 := (decodeOne_eq_ok_iff.mp (hone.trans rfl)).1
        split_ifs at hseed
        · refine ih ((h.childOf hp hd).update _ _) ?_ hseed
          rw [has_update, has_childOf]
          simp
        · cases hseed
          exact h.update _ _

theorem addInflight (h : IsTree t) {settled : List ℕ} {cs : List (List Bool)}
    (hadd : addInflight settled t cs = .ok t') : IsTree t' := by
  induction cs generalizing t with
  | nil =>
    cases hadd
    exact h
  | cons c cs ih =>
    rw [CoordTree.addInflight] at hadd
    cases hseed : CoordTree.seedInflight settled c.length c.length t [] c with
    | error e =>
      rw [hseed] at hadd
      cases hadd
    | ok t₁ =>
      rw [hseed] at hadd
      exact ih (h.seedInflight h.hasRoot hseed) hadd

theorem addFrozen (h : IsTree t) {cs : List (List Bool)} (hadd : t.addFrozen cs = .ok t') :
    IsTree t' := by
  induction cs generalizing t with
  | nil =>
    cases hadd
    exact h
  | cons c cs ih =>
    rw [CoordTree.addFrozen, freeze] at hadd
    cases hc : decodeChain c with
    | error e =>
      rw [hc] at hadd
      cases hadd
    | ok chain =>
      rw [hc] at hadd
      exact ih ((h.descend _ h.hasRoot (decodeChain_eq_ok_iff.mp hc).1).update _ _) hadd

end IsTree

/-- Building a tree enters the records, then the coordinates in flight, then the frozen anchors. -/
theorem build_steps {s : EmbedRGA.State α} {cut : CoordCut} (h : build s cut = .ok t) :
    ∃ t₁ t₂, root.addRecords s.entries = .ok t₁ ∧
      addInflight (cut.settledIds.getD []) t₁ cut.inflight = .ok t₂ ∧
      t₂.addFrozen cut.frozenAnchorCoords = .ok t := by
  rw [build] at h
  cases hrecords : root.addRecords s.entries with
  | error e =>
    rw [hrecords] at h
    cases h
  | ok t₁ =>
    rw [hrecords] at h
    simp only [bind, Except.bind] at h
    cases hinflight : addInflight (cut.settledIds.getD []) t₁ cut.inflight with
    | error e =>
      rw [hinflight] at h
      cases h
    | ok t₂ =>
      rw [hinflight] at h
      exact ⟨t₁, t₂, rfl, hinflight, h⟩

/-- **The tree of a state** is one. -/
theorem isTree_build {s : EmbedRGA.State α} {cut : CoordCut} (h : build s cut = .ok t) :
    IsTree t := by
  obtain ⟨t₁, t₂, hrecords, hinflight, hfrozen⟩ := build_steps h
  exact ((IsTree.of_root.addRecords hrecords).addInflight hinflight).addFrozen hfrozen

/-! ### Siblings -/

theorem mem_kids_iff {p : List ℕ} {d : ℕ} : d ∈ t.kids p ↔ t.has (p ++ [d]) = true := by
  refine ⟨fun hd => ?_, mem_kids⟩
  rw [kids, List.mem_insertionSort, List.mem_filterMap] at hd
  obtain ⟨e, he, hed⟩ := hd
  split_ifs at hed with hdrop
  rw [has_iff_mem, List.mem_map]
  exact ⟨e, he, by rw [← hdrop, List.dropLast_append_getLast? d hed]⟩

theorem IsTree.nodup_kids (h : IsTree t) (p : List ℕ) : (t.kids p).Nodup := by
  rw [kids, (List.perm_insertionSort _ _).nodup_iff, List.Nodup, List.pairwise_filterMap]
  have hkeys : t.Pairwise fun a b => a.1 ≠ b.1 := List.pairwise_map.mp h.nodup
  refine hkeys.imp fun {a b} hab d hd e he hde => hab ?_
  split_ifs at hd with ha
  split_ifs at he with hb
  rw [← List.dropLast_append_getLast? d hd, ← List.dropLast_append_getLast? e he, ha, hb, hde]

theorem IsTree.pairwise_lt_kids (h : IsTree t) (p : List ℕ) : (t.kids p).Pairwise (· < ·) :=
  ((pairwise_kids p).and (h.nodup_kids p)).imp fun hle => lt_of_le_of_ne hle.1 hle.2

/-! ### New deltas -/

variable {settled : List ℕ} {opts : CompactOpts}

theorem label_concat (p : List ℕ) (d : ℕ) : t.label settled opts (p ++ [d]) =
    if t.fusedAway settled opts (p ++ [d]) then 0
    else if t.renumber settled opts p then (t.kids p).idxOf d + 1 else d := by
  simp [label]

/-- A step is collapsed between two members of a spine. -/
theorem fusedAway_concat {p : List ℕ} {d : ℕ} : t.fusedAway settled opts (p ++ [d]) = true ↔
    opts.fuseSpines = true ∧ p ≠ [] ∧
      (t.spineMember settled p = true ∧ t.inflightFree p = true) ∧
      t.spineMember settled (p ++ [d]) = true ∧ t.inflightFree (p ++ [d]) = true := by
  rw [fusedAway, List.dropLast_concat]
  simp [and_assoc]

/-- The only child of a member of a spine. -/
theorem kids_eq_of_spineMember {p : List ℕ} {d : ℕ} (hp : t.spineMember settled p = true)
    (hd : t.has (p ++ [d]) = true) : t.kids p = [d] := by
  rw [spineMember, Bool.and_eq_true, decide_eq_true_iff] at hp
  obtain ⟨e, he⟩ := List.length_eq_one_iff.mp hp.2
  have hmem : d ∈ t.kids p := mem_kids hd
  rw [he, List.mem_singleton] at hmem
  rw [he, hmem]

theorem idxOf_add_le {l : List ℕ} {k d : ℕ} (hl : l.Pairwise (· < ·)) (hk : ∀ e ∈ l, k ≤ e)
    (hd : d ∈ l) : l.idxOf d + k ≤ d := by
  induction l generalizing k with
  | nil => cases hd
  | cons x l ih =>
    obtain ⟨hx, hl⟩ := List.pairwise_cons.mp hl
    have hkx := hk x List.mem_cons_self
    by_cases hxd : x = d
    · rw [hxd, List.idxOf_cons_self]
      omega
    · rw [List.idxOf_cons_ne l hxd]
      have hrest := ih (k := k + 1) hl (fun e he => ?_)
        (List.mem_of_ne_of_mem (Ne.symm hxd) hd)
      · omega
      · have := hx e he
        omega

section Labels

variable (h : IsTree t)

include h

variable (settled opts) in
/-- **New deltas are at most the old ones.** -/
theorem label_le {p : List ℕ} {d : ℕ} (hd : t.has (p ++ [d]) = true) :
    t.label settled opts (p ++ [d]) ≤ d := by
  rw [label_concat]
  split_ifs
  · exact Nat.zero_le d
  · exact idxOf_add_le (h.pairwise_lt_kids p) (fun e he => h.pos p e (mem_kids_iff.mp he))
      (mem_kids hd)
  · exact le_rfl

theorem label_pos {p : List ℕ} {d : ℕ} (hd : t.has (p ++ [d]) = true)
    (hfused : t.fusedAway settled opts (p ++ [d]) = false) :
    1 ≤ t.label settled opts (p ++ [d]) := by
  rw [label_concat, hfused, if_neg Bool.false_ne_true]
  split_ifs
  · exact Nat.succ_pos _
  · exact h.pos p d hd

/-- **Siblings** have positive new deltas in the order of the old ones. -/
theorem label_lt {p : List ℕ} {a b : ℕ} (ha : t.has (p ++ [a]) = true)
    (hb : t.has (p ++ [b]) = true) (hlt : a < b) :
    1 ≤ t.label settled opts (p ++ [a]) ∧
      t.label settled opts (p ++ [a]) < t.label settled opts (p ++ [b]) := by
  have hfused {d : ℕ} : t.fusedAway settled opts (p ++ [d]) = false := by
    by_contra hcon
    obtain ⟨-, -, ⟨hp, -⟩, -⟩ := fusedAway_concat.mp (Bool.not_eq_false _ ▸ hcon)
    have heq := (kids_eq_of_spineMember hp ha).symm.trans (kids_eq_of_spineMember hp hb)
    rw [List.cons.injEq] at heq
    omega
  refine ⟨label_pos h ha hfused, ?_⟩
  rw [label_concat, label_concat, hfused, hfused, if_neg Bool.false_ne_true,
    if_neg Bool.false_ne_true]
  split_ifs
  · exact Nat.succ_lt_succ (idxOf_lt_idxOf (pairwise_kids p) (mem_kids ha) hlt)
  · exact hlt

variable (settled opts) in
/-- **New deltas separate the visited nodes.** -/
theorem separates_visited : Separates
    {p | t.has p = true ∧ t.visited settled opts p = true} (t.label settled opts) where
  part p a b x y ha hb hlt :=
    label_lt h (h.has_above ⟨x, by simp⟩ ha.1) (h.has_above ⟨y, by simp⟩ hb.1) hlt
  leave p a x hp ha := by
    have hhas : t.has (p ++ [a]) = true := h.has_above ⟨x, by simp⟩ ha.1
    have hall := List.all_eq_true.mp hp.2 a (mem_kids hhas)
    exact label_pos h hhas (by simpa using hall)

end Labels

/-- No step is collapsed below a live record. -/
theorem visited_of_record {p : List ℕ} {n : CoordNode} (hn : t.node? p = some n)
    (hrec : n.recordId.isSome = true) : t.visited settled opts p = true := by
  rw [visited, List.all_eq_true]
  intro d _
  rw [Bool.not_eq_true', Bool.eq_false_iff, ne_eq, fusedAway_concat]
  rintro ⟨-, -, ⟨hp, -⟩, -⟩
  have hnone : n.recordId.isNone = true := by
    simp only [spineMember, hn, Option.any_some, Bool.and_eq_true] at hp
    exact hp.1.1
  cases hid : n.recordId with
  | none => simp [hid] at hrec
  | some id => simp [hid] at hnone

/-! ### The forward map -/

/-- The delta that the forward map writes for a step: the new delta of a node, else the old one. -/
def mapLabel (t : CoordTree) (settled : List ℕ) (opts : CompactOpts) (p : List ℕ) : ℕ :=
  if t.has p then t.label settled opts p else p.getLast?.getD 0

theorem mapLabel_of_has {p : List ℕ} (hp : t.has p = true) :
    t.mapLabel settled opts p = t.label settled opts p := if_pos hp

theorem mapLabel_of_not_has {p : List ℕ} {d : ℕ} (hp : t.has (p ++ [d]) = false) :
    t.mapLabel settled opts (p ++ [d]) = d := by
  rw [mapLabel, if_neg (by rw [hp]; exact Bool.false_ne_true), List.getLast?_concat,
    Option.getD_some]

variable (settled opts) in
/-- **The deltas of the forward map** separate the visited nodes. -/
theorem separates_mapLabel (h : IsTree t) : Separates
    {p | t.has p = true ∧ t.visited settled opts p = true} (t.mapLabel settled opts) := by
  have hsep := separates_visited settled opts h
  have hhas {p : List ℕ} {a : ℕ} {x : List ℕ} (ha : t.has (p ++ a :: x) = true) :
      t.mapLabel settled opts (p ++ [a]) = t.label settled opts (p ++ [a]) :=
    mapLabel_of_has (h.has_above ⟨x, by simp⟩ ha)
  refine ⟨fun p a b x y ha hb hlt => ?_, fun p a x hp ha => ?_⟩
  · rw [hhas ha.1, hhas hb.1]
    exact hsep.part p a b x y ha hb hlt
  · rw [hhas ha.1]
    exact hsep.leave p a x hp ha

theorem newCoord_concat (p : List ℕ) (d : ℕ) : t.newCoord settled opts (p ++ [d]) =
    t.newCoord settled opts p ++ codeword (t.label settled opts (p ++ [d])) :=
  spell_concat p d

theorem newCoord_eq_mapLabel (h : IsTree t) {c : List ℕ} (hc : t.has c = true) :
    t.newCoord settled opts c = spell codeword (t.mapLabel settled opts) c :=
  spell_congr c fun _ hp _ => (mapLabel_of_has (h.has_above hp hc)).symm

theorem orderedPrefixCode_codeword : OrderedPrefixCode codeword where
  firstDiff d e hd hlt := by
    rw [codeword, codeword, if_neg (by omega), if_neg (by omega)]
    exact orderedPrefixCode_dEnc.firstDiff d e hd hlt

/-- Outside the tree coordinates are kept. -/
theorem spellFrom_of_not_has (h : IsTree t) {p c : List ℕ} {d : ℕ}
    (hp : t.has (p ++ [d]) = false) (hc : ∀ e ∈ d :: c, 1 ≤ e) :
    spellFrom codeword (t.mapLabel settled opts) p (d :: c) = (d :: c).flatMap dEnc := by
  have hd : codeword d = dEnc d := by
    have := hc d List.mem_cons_self
    rw [codeword, if_neg (by omega)]
  rw [spellFrom, mapLabel_of_not_has hp, hd, List.flatMap_cons]
  congr 1
  induction c generalizing p d with
  | nil => rfl
  | cons e c ih =>
    have hrest := fun x hx => hc x (List.mem_cons_of_mem _ hx)
    have hpe : t.has (p ++ [d] ++ [e]) = false := by
      by_contra hcon
      have := h.closed _ _ (Bool.not_eq_false _ ▸ hcon)
      rw [hp] at this
      contradiction
    have he : codeword e = dEnc e := by
      have := hrest e List.mem_cons_self
      rw [codeword, if_neg (by omega)]
    rw [spellFrom, mapLabel_of_not_has hpe, he, List.flatMap_cons, ih hpe hrest he]

theorem translateFrom_flatMap (h : IsTree t) {total n : ℕ} {p c : List ℕ} (hp : t.has p = true)
    (hpos : ∀ d ∈ c, 1 ≤ d) (hn : (c.flatMap dEnc).length ≤ n) :
    t.translateFrom settled opts total n p (c.flatMap dEnc) =
      .ok (t.newCoord settled opts p ++ spellFrom codeword (t.mapLabel settled opts) p c) := by
  induction c generalizing p n with
  | nil => cases n <;> simp [translateFrom, spellFrom]
  | cons d c ih =>
    have hd := hpos d List.mem_cons_self
    obtain ⟨b, bits, hcode⟩ := List.exists_cons_of_ne_nil (orderedPrefixCode_dEnc.ne_nil hd)
    have hcons : dEnc d ++ c.flatMap dEnc = b :: (bits ++ c.flatMap dEnc) := by
      rw [hcode]
      rfl
    rw [List.flatMap_cons] at hn
    cases n with
    | zero => simp [hcode] at hn
    | succ n =>
      have hone : t.translateFrom settled opts total (n + 1) p ((d :: c).flatMap dEnc) =
          if t.has (p ++ [d]) then
            t.translateFrom settled opts total n (p ++ [d]) (c.flatMap dEnc)
          else .ok (t.newCoord settled opts p ++ (d :: c).flatMap dEnc) := by
        rw [List.flatMap_cons, hcons, translateFrom, ← hcons, decodeOne_append _ hd]
        rfl
      rw [hone]
      by_cases hhas : t.has (p ++ [d]) = true
      · have hlen : (c.flatMap dEnc).length ≤ n := by
          rw [List.length_append, hcode, List.length_cons] at hn
          omega
        rw [if_pos hhas, ih hhas (fun x hx => hpos x (List.mem_cons_of_mem _ hx)) hlen,
          newCoord_concat, spellFrom, mapLabel_of_has hhas, List.append_assoc]
      · rw [if_neg hhas, spellFrom_of_not_has h (Bool.eq_false_iff.mpr hhas) hpos]

/-- **The forward map** rewrites the steps in the tree and keeps the others. -/
theorem translate_eq (h : IsTree t) {c : List ℕ} (hc : ∀ d ∈ c, 1 ≤ d) :
    t.translate settled opts (c.flatMap dEnc) =
      .ok (spell codeword (t.mapLabel settled opts) c) :=
  translateFrom_flatMap h h.hasRoot hc le_rfl

/-! ### The chain of a new coordinate -/

/-- The chain of the new coordinate of a node: the new deltas, without those of collapsed steps. -/
def image (t : CoordTree) (settled : List ℕ) (opts : CompactOpts) (p : List ℕ) : List ℕ :=
  (labelsFrom (t.label settled opts) [] p).filter fun d => decide (d ≠ 0)

theorem image_nil : t.image settled opts [] = [] := rfl

theorem image_concat (p : List ℕ) (d : ℕ) : t.image settled opts (p ++ [d]) =
    t.image settled opts p ++
      if t.label settled opts (p ++ [d]) = 0 then [] else [t.label settled opts (p ++ [d])] := by
  unfold image
  rw [labelsFrom_append, List.filter_append]
  congr 1
  by_cases hzero : t.label settled opts (p ++ [d]) = 0
  · simp [labelsFrom, hzero]
  · simp [labelsFrom, hzero]

variable (settled opts) in
theorem image_front (t : CoordTree) {p q : List ℕ} (h : p <+: q) :
    t.image settled opts p <+: t.image settled opts q := by
  obtain ⟨r, rfl⟩ := h
  unfold image
  rw [labelsFrom_append, List.filter_append]
  exact List.prefix_append _ _

/-- **The new coordinate** spells the chain. -/
theorem newCoord_eq_image (p : List ℕ) :
    t.newCoord settled opts p = (t.image settled opts p).flatMap dEnc := by
  rw [newCoord, spell, spellFrom_eq_flatMap, image]
  induction labelsFrom (t.label settled opts) [] p with
  | nil => rfl
  | cons d l ih =>
    rw [List.flatMap_cons, ih, codeword]
    by_cases hd : d = 0
    · simp [hd]
    · simp [hd]

theorem image_pos (p : List ℕ) : ∀ d ∈ t.image settled opts p, 1 ≤ d := by
  intro d hd
  have := (List.mem_filter.mp hd).2
  rw [decide_eq_true_iff] at this
  omega

theorem image_injective (h : IsTree t) {p q : List ℕ}
    (hp : t.has p = true ∧ t.visited settled opts p = true)
    (hq : t.has q = true ∧ t.visited settled opts q = true)
    (heq : t.image settled opts p = t.image settled opts q) : p = q := by
  refine (separates_visited settled opts h).spell_injective orderedPrefixCode_codeword hp hq ?_
  have hcoord := congrArg (List.flatMap dEnc) heq
  rwa [← newCoord_eq_image, ← newCoord_eq_image] at hcoord

theorem visited_nil : t.visited settled opts [] = true := by
  rw [visited, List.all_eq_true]
  intro d _
  rw [Bool.not_eq_true', Bool.eq_false_iff, ne_eq, fusedAway_concat]
  exact fun hcon => hcon.2.1 rfl

theorem image_concat_of_visited (h : IsTree t) {p : List ℕ} {d : ℕ}
    (hp : t.visited settled opts p = true) (hd : t.has (p ++ [d]) = true) :
    t.image settled opts (p ++ [d]) =
      t.image settled opts p ++ [t.label settled opts (p ++ [d])] := by
  have hpos := label_pos h hd (by simpa using List.all_eq_true.mp hp d (mem_kids hd))
  rw [image_concat, if_neg (by omega)]

/-- The next visited node on the way to a visited one has the same new chain: it is the node itself,
or the tail of its spine. -/
theorem exists_visited (h : IsTree t) {q x : List ℕ} (hqx : q <+: x) (hx : t.has x = true)
    (hvisited : t.visited settled opts x = true) :
    ∃ w, q <+: w ∧ w <+: x ∧ t.visited settled opts w = true ∧
      t.image settled opts w = t.image settled opts q ∧
      (w = q ∨ t.spineMember settled q = true ∧ t.spineMember settled w = true) := by
  obtain ⟨r, rfl⟩ := hqx
  induction r generalizing q with
  | nil =>
    rw [List.append_nil] at hvisited
    exact ⟨q, List.prefix_rfl, by simp, hvisited, rfl, Or.inl rfl⟩
  | cons d r ih =>
    by_cases hq : t.visited settled opts q = true
    · exact ⟨q, List.prefix_rfl, List.prefix_append _ _, hq, rfl, Or.inl rfl⟩
    · have hhas : t.has (q ++ [d]) = true := h.has_above ⟨r, by simp⟩ hx
      -- A collapsed step below `q` is the step to its only child.
      have hfused : t.fusedAway settled opts (q ++ [d]) = true := by
        rw [visited, List.all_eq_true] at hq
        push Not at hq
        obtain ⟨e, he, hfused⟩ := hq
        have hfused : t.fusedAway settled opts (q ++ [e]) = true := by simpa using hfused
        obtain ⟨-, -, ⟨hmember, -⟩, -⟩ := fusedAway_concat.mp hfused
        rw [kids_eq_of_spineMember hmember hhas, List.mem_singleton] at he
        exact he ▸ hfused
      obtain ⟨-, -, ⟨hmember, -⟩, hmember', -⟩ := fusedAway_concat.mp hfused
      have himage : t.image settled opts (q ++ [d]) = t.image settled opts q := by
        rw [image_concat, label_concat, if_pos hfused, if_pos rfl, List.append_nil]
      have happ : q ++ [d] ++ r = q ++ d :: r := by simp
      obtain ⟨w, hqw, hwx, hw, heq, hspine⟩ := ih (q := q ++ [d]) (happ ▸ hx) (happ ▸ hvisited)
      refine ⟨w, (List.prefix_append q [d]).trans hqw, happ ▸ hwx, hw, heq.trans himage, Or.inr ?_⟩
      refine ⟨hmember, ?_⟩
      rcases hspine with rfl | hspine
      · exact hmember'
      · exact hspine.2

/-- The prefixes of a new chain are the new chains of visited nodes on the way. -/
theorem exists_of_prefix_image (h : IsTree t) {x r : List ℕ} (hx : t.has x = true)
    (hvisited : t.visited settled opts x = true) (hr : r <+: t.image settled opts x) :
    ∃ w, w <+: x ∧ t.visited settled opts w = true ∧ t.image settled opts w = r := by
  have hprefix (x : List ℕ) (hr : r <+: t.image settled opts x) :
      ∃ q, q <+: x ∧ t.image settled opts q = r := by
    induction x using List.reverseRecOn with
    | nil => exact ⟨[], List.prefix_rfl, (List.prefix_nil.mp hr).symm⟩
    | append_singleton p d ih =>
      by_cases hp : r <+: t.image settled opts p
      · obtain ⟨q, hq, heq⟩ := ih hp
        exact ⟨q, hq.trans (List.prefix_append p [d]), heq⟩
      · refine ⟨p ++ [d], List.prefix_rfl, ?_⟩
        rw [image_concat] at hr ⊢
        split_ifs at hr ⊢ with hzero
        · exact absurd (by simpa using hr) hp
        · rcases List.prefix_concat_iff.mp hr with heq | hr
          · exact heq.symm
          · exact absurd hr hp
  obtain ⟨q, hq, heq⟩ := hprefix x hr
  obtain ⟨w, -, hwx, hw, himage, -⟩ := exists_visited h hq hx hvisited
  exact ⟨w, hwx, hw, himage.trans heq⟩

/-- A visited node whose new chain is at the front of another's is on the way to it. -/
theorem prefix_of_image (h : IsTree t) {w x : List ℕ}
    (hw : t.has w = true ∧ t.visited settled opts w = true)
    (hx : t.has x = true ∧ t.visited settled opts x = true)
    (hpre : t.image settled opts w <+: t.image settled opts x) : w <+: x := by
  obtain ⟨w', hw'x, hvw', heq⟩ := exists_of_prefix_image h hx.1 hx.2 hpre
  exact image_injective h ⟨h.has_above hw'x hx.1, hvw'⟩ hw heq ▸ hw'x

end CoordTree

end SalRuntime
