import SalRuntime.Datatypes.TreeRecords

/-!
# Compacting twice

A second compaction at the same cut finds the tree of the first one with its collapsed steps left
out: the visited nodes under their new deltas, with the same records. There the new deltas are the
old ones, so the second compaction changes nothing. No compaction lengthens a coordinate.

## Main definitions

* `CoordTree.Shrunk` — the tree of the visited nodes under their new chains.

## Main results

* `CoordTree.Shrunk.label_eq` — in that tree the new deltas are the old ones.
* `compactEliasDelta_idempotent` — the second compaction changes nothing, and coordinates do not
  grow.
-/

namespace SalRuntime

variable {α : Type}

namespace CoordTree

variable {t t' : CoordTree} {settled : List ℕ} {opts : CompactOpts}

/-! ### The tree of the compacted state -/

/-- The tree `t'` has the visited nodes of the tree `t` under their new chains, and no coordinate is
in flight. -/
structure Shrunk (settled : List ℕ) (opts : CompactOpts) (t t' : CoordTree) : Prop where
  /-- The first tree. -/
  isTree : IsTree t
  /-- The second tree. -/
  isTree' : IsTree t'
  /-- Nothing is in flight. -/
  quiet : Quiet t
  /-- Nothing is in flight in the second tree. -/
  quiet' : Quiet t'
  /-- Every node is on the way to a visited one. -/
  reach : ∀ p, t.has p = true →
    ∃ x, p <+: x ∧ t.has x = true ∧ t.visited settled opts x = true
  /-- The nodes of the second tree. -/
  has_iff : ∀ r, t'.has r = true ↔
    ∃ w, t.has w = true ∧ t.visited settled opts w = true ∧ t.image settled opts w = r
  /-- Visited nodes keep their records. -/
  recordAt_eq : ∀ w, t.has w = true → t.visited settled opts w = true →
    t'.recordAt (t.image settled opts w) = t.recordAt w

/-- Without coordinates in flight evidence comes from the records. -/
theorem Quiet.evidence_iff (hquiet : Quiet t) (h : IsTree t) {p : List ℕ} :
    t.evidence settled p = true ↔ ∃ q id, p <+: q ∧ t.recordAt q = some id ∧ id ∈ settled := by
  rw [CoordTree.evidence_iff h]
  constructor
  · rintro ⟨q, n, hpq, hn, hseed | ⟨id, hid, hset⟩⟩
    · rw [(hquiet q n hn).2.2] at hseed
      cases hseed
    · exact ⟨q, id, hpq, by rw [recordAt, hn]; exact hid, hset⟩
  · rintro ⟨q, id, hpq, hid, hset⟩
    unfold recordAt at hid
    obtain ⟨n, hn, hrec⟩ := Option.bind_eq_some_iff.mp hid
    exact ⟨q, n, hpq, hn, Or.inr ⟨id, hrec, hset⟩⟩

theorem Quiet.inflightFree (h : Quiet t) {p : List ℕ} (hp : t.has p = true) :
    t.inflightFree p = true := by
  obtain ⟨n, hn⟩ := Option.isSome_iff_exists.mp hp
  obtain ⟨hchild, hhere, -⟩ := h p n hn
  simp [CoordTree.inflightFree, hn, hchild, hhere]

theorem Quiet.renumber_eq (h : Quiet t) (p : List ℕ) :
    t.renumber settled opts p = t.allStable settled p := by
  have hflag : (t.node? p).any CoordNode.inflightChild = false := by
    cases hn : t.node? p with
    | none => rfl
    | some n => exact (h p n hn).1
  rw [renumber, hflag, Bool.not_false, Bool.true_or, Bool.and_true]

theorem spineMember_iff {p : List ℕ} : t.spineMember settled p = true ↔
    t.has p = true ∧ t.recordAt p = none ∧ t.stable settled p = true ∧
      (t.kids p).length = 1 := by
  unfold spineMember recordAt has
  cases t.node? p with
  | none => simp
  | some n => simp [and_assoc]

namespace Shrunk

variable (h : Shrunk settled opts t t') {w : List ℕ}

include h

/-- **Children** of a visited node under their new deltas. -/
theorem has_concat_iff (hw : t.has w = true) (hvw : t.visited settled opts w = true) {d' : ℕ} :
    t'.has (t.image settled opts w ++ [d']) = true ↔
      ∃ d, t.has (w ++ [d]) = true ∧ d' = t.label settled opts (w ++ [d]) := by
  rw [h.has_iff]
  constructor
  · rintro ⟨z, hz, hvz, himage⟩
    obtain ⟨r, rfl⟩ := prefix_of_image h.isTree ⟨hw, hvw⟩ ⟨hz, hvz⟩ (himage ▸ List.prefix_append _ _)
    cases r with
    | nil =>
      have hlen := congrArg List.length himage
      simp at hlen
    | cons d r =>
      have hd : t.has (w ++ [d]) = true := h.isTree.has_above ⟨r, by simp⟩ hz
      have hpre := image_front settled opts t (⟨r, by simp⟩ : w ++ [d] <+: w ++ d :: r)
      rw [himage, image_concat_of_visited h.isTree hvw hd, List.prefix_append_right_inj] at hpre
      obtain ⟨rfl, -⟩ := List.cons_prefix_cons.mp hpre
      exact ⟨d, hd, rfl⟩
  · rintro ⟨d, hd, rfl⟩
    obtain ⟨x, hwx, hx, hvx⟩ := h.reach _ hd
    obtain ⟨z, -, hzx, hvz, himage, -⟩ := exists_visited h.isTree hwx hx hvx
    exact ⟨z, h.isTree.has_above hzx hx, hvz,
      himage.trans (image_concat_of_visited h.isTree hvw hd)⟩

theorem kids_eq (hw : t.has w = true) (hvw : t.visited settled opts w = true) :
    t'.kids (t.image settled opts w) = (t.kids w).map fun d => t.label settled opts (w ++ [d]) := by
  have hsorted : ((t.kids w).map fun d => t.label settled opts (w ++ [d])).Pairwise (· < ·) := by
    rw [List.pairwise_map]
    refine (h.isTree.pairwise_lt_kids w).imp_of_mem fun ha hb hlt => ?_
    exact (label_lt h.isTree (mem_kids_iff.mp ha) (mem_kids_iff.mp hb) hlt).2
  have hsorted' := h.isTree'.pairwise_lt_kids (t.image settled opts w)
  refine List.Perm.eq_of_pairwise (fun a b _ _ hab hba => absurd hab (lt_asymm hba)) hsorted' hsorted
    ((List.perm_ext_iff_of_nodup (hsorted'.imp ne_of_lt) (hsorted.imp ne_of_lt)).mpr fun d' => ?_)
  rw [mem_kids_iff, h.has_concat_iff hw hvw, List.mem_map]
  constructor
  · rintro ⟨d, hd, rfl⟩
    exact ⟨d, mem_kids_iff.mpr hd, rfl⟩
  · rintro ⟨d, hd, rfl⟩
    exact ⟨d, mem_kids_iff.mp hd, rfl⟩

theorem evidence_iff (hw : t.has w = true) (hvw : t.visited settled opts w = true) :
    t'.evidence settled (t.image settled opts w) = true ↔ t.evidence settled w = true := by
  rw [h.quiet'.evidence_iff h.isTree', h.quiet.evidence_iff h.isTree]
  constructor
  · rintro ⟨r, id, hr, hid, hset⟩
    obtain ⟨x, hx, hvx, rfl⟩ := (h.has_iff r).mp (has_of_recordAt (by simp [hid]))
    rw [h.recordAt_eq x hx hvx] at hid
    exact ⟨x, id, prefix_of_image h.isTree ⟨hw, hvw⟩ ⟨hx, hvx⟩ hr, hid, hset⟩
  · rintro ⟨x, id, hwx, hid, hset⟩
    have hsome : (t.recordAt x).isSome = true := by simp [hid]
    refine ⟨_, id, image_front _ _ _ hwx, ?_, hset⟩
    rw [h.recordAt_eq x (has_of_recordAt hsome) (visited_of_recordAt hsome), hid]

theorem image_eq_nil_iff (hw : t.has w = true) (hvw : t.visited settled opts w = true) :
    t.image settled opts w = [] ↔ w = [] := by
  refine ⟨fun hnil => ?_, fun hnil => by rw [hnil, image_nil]⟩
  exact image_injective h.isTree ⟨hw, hvw⟩ ⟨h.isTree.hasRoot, visited_nil⟩ (hnil.trans image_nil.symm)

theorem stable_iff (hw : t.has w = true) (hvw : t.visited settled opts w = true) :
    t'.stable settled (t.image settled opts w) = true ↔ t.stable settled w = true := by
  rw [CoordTree.stable_iff h.isTree', CoordTree.stable_iff h.isTree, h.image_eq_nil_iff hw hvw,
    h.evidence_iff hw hvw]

theorem spineMember_iff (hw : t.has w = true) (hvw : t.visited settled opts w = true) :
    t'.spineMember settled (t.image settled opts w) = true ↔ t.spineMember settled w = true := by
  rw [CoordTree.spineMember_iff, CoordTree.spineMember_iff, h.recordAt_eq w hw hvw,
    h.stable_iff hw hvw, h.kids_eq hw hvw, List.length_map]
  have hhas : t'.has (t.image settled opts w) = true := (h.has_iff _).mpr ⟨w, hw, hvw, rfl⟩
  simp only [hw, hhas]

/-- The visited node that a child leads to. -/
theorem exists_child (hvw : t.visited settled opts w = true) {d : ℕ}
    (hd : t.has (w ++ [d]) = true) : ∃ z, t.has z = true ∧ t.visited settled opts z = true ∧
      t.image settled opts z = t.image settled opts w ++ [t.label settled opts (w ++ [d])] ∧
      (t.stable settled z = true ↔ t.stable settled (w ++ [d]) = true) ∧
      (t.spineMember settled z = true → t.spineMember settled (w ++ [d]) = true) := by
  obtain ⟨x, hwx, hx, hvx⟩ := h.reach _ hd
  obtain ⟨z, hz, hzx, hvz, himage, hspine⟩ := exists_visited h.isTree hwx hx hvx
  refine ⟨z, h.isTree.has_above hzx hx, hvz,
    himage.trans (image_concat_of_visited h.isTree hvw hd), ?_, fun hmember => ?_⟩
  · rcases hspine with rfl | ⟨hq, hz'⟩
    · rfl
    · have hstable := (CoordTree.spineMember_iff.mp hq).2.2.1
      have hstable' := (CoordTree.spineMember_iff.mp hz').2.2.1
      exact iff_of_true hstable' hstable
  · rcases hspine with rfl | ⟨hq, -⟩
    · exact hmember
    · exact hq

theorem renumber_eq (hw : t.has w = true) (hvw : t.visited settled opts w = true) :
    t'.renumber settled opts (t.image settled opts w) = t.renumber settled opts w := by
  have hchild (d : ℕ) (hd : d ∈ t.kids w) :
      t'.stable settled (t.image settled opts w ++ [t.label settled opts (w ++ [d])]) = true ↔
        t.stable settled (w ++ [d]) = true := by
    obtain ⟨z, hz, hvz, himage, hstable, -⟩ := h.exists_child hvw (mem_kids_iff.mp hd)
    rw [← himage, h.stable_iff hz hvz, hstable]
  rw [h.quiet'.renumber_eq, h.quiet.renumber_eq, allStable, allStable, h.kids_eq hw hvw,
    List.all_map, Bool.eq_iff_iff, List.all_eq_true, List.all_eq_true]
  exact forall₂_congr hchild

/-- **In the tree of the compacted state** the new deltas are the old ones. -/
theorem label_eq {r : List ℕ} {d' : ℕ} (hr : t'.has (r ++ [d']) = true) :
    t'.label settled opts (r ++ [d']) = d' := by
  obtain ⟨w, hw, hvw, rfl⟩ := (h.has_iff r).mp (h.isTree'.closed r d' hr)
  obtain ⟨d, hd, rfl⟩ := (h.has_concat_iff hw hvw).mp hr
  obtain ⟨z, hz, hvz, himage, -, hspine⟩ := h.exists_child hvw hd
  have hfused : t.fusedAway settled opts (w ++ [d]) = false := by
    simpa using List.all_eq_true.mp hvw d (mem_kids hd)
  have hfused' : t'.fusedAway settled opts
      (t.image settled opts w ++ [t.label settled opts (w ++ [d])]) = false := by
    by_contra hcon
    obtain ⟨hopt, hne, ⟨hp, -⟩, hc, -⟩ := fusedAway_concat.mp (Bool.not_eq_false _ ▸ hcon)
    rw [← himage, h.spineMember_iff hz hvz] at hc
    have hfused := fusedAway_concat.mpr ⟨hopt, fun hnil => hne (by rw [hnil, image_nil]),
      ⟨(h.spineMember_iff hw hvw).mp hp, h.quiet.inflightFree hw⟩, hspine hc,
      h.quiet.inflightFree hd⟩
    simp_all
  rw [label_concat, hfused', if_neg Bool.false_ne_true, h.renumber_eq hw hvw, h.kids_eq hw hvw]
  split_ifs with hrenumber
  · -- The new deltas of a renumbered group are its ranks.
    have hlabel {e : ℕ} (he : e ∈ t.kids w) :
        t.label settled opts (w ++ [e]) = (t.kids w).idxOf e + 1 := by
      have hfused : t.fusedAway settled opts (w ++ [e]) = false := by
        simpa using List.all_eq_true.mp hvw e he
      rw [label_concat, hfused, if_neg Bool.false_ne_true, if_pos hrenumber]
    set ranks := (t.kids w).map fun e => t.label settled opts (w ++ [e]) with hranks
    have hnodup : ranks.Nodup := by
      rw [hranks, ← h.kids_eq hw hvw]
      exact h.isTree'.nodup_kids _
    have hidx : (t.kids w).idxOf d < ranks.length := by
      rw [hranks, List.length_map]
      exact List.idxOf_lt_length_of_mem (mem_kids hd)
    have hget : ranks[(t.kids w).idxOf d] = t.label settled opts (w ++ [d]) := by
      simp [hranks]
    rw [← hget, hnodup.idxOf_getElem _ hidx, hget, hlabel (mem_kids hd)]
  · rfl

theorem newCoord_eq {r : List ℕ} (hr : t'.has r = true) :
    t'.newCoord settled opts r = r.flatMap dEnc := by
  induction r using List.reverseRecOn with
  | nil => rfl
  | append_singleton r d ih =>
    have hd := h.isTree'.pos r d hr
    rw [newCoord_concat, ih (h.isTree'.closed r d hr), h.label_eq hr, codeword, if_neg (by omega),
      List.flatMap_append]
    simp

end Shrunk

/-! ### The trees of the two compactions -/

theorem chainOf_of_flatMap {e : ℕ × Record α} {c : List ℕ} (hc : ∀ d ∈ c, 1 ≤ d)
    (he : e.2.coord = c.flatMap dEnc) : chainOf e = some c := by
  rw [chainOf_eq_some_iff, he, decodeChain_flatMap hc]

theorem chainOf_of_rewritten (h : IsTree t) {e e' : ℕ × Record α}
    (he : Rewritten t settled opts e e') : ∃ c, (t.recordAt c).isSome = true ∧
      chainOf e = some c ∧ chainOf e' = some (t.image settled opts c) := by
  obtain ⟨-, -, c, hc, hcoord, hcoord'⟩ := he
  rw [newCoord_eq_image] at hcoord'
  exact ⟨c, hc, chainOf_of_flatMap (h.pos_of_mem (has_of_recordAt hc)) hcoord,
    chainOf_of_flatMap (image_pos c) hcoord'⟩

theorem lastId_image (h : IsTree t) {es es' : List (ℕ × Record α)}
    (hes : List.Forall₂ (Rewritten t settled opts) es es') {w : List ℕ} (hw : t.has w = true)
    (hvw : t.visited settled opts w = true) :
    lastId es' (t.image settled opts w) = lastId es w := by
  induction hes with
  | nil => rfl
  | @cons e e' es es' he _ ih =>
    obtain ⟨c, hc, hchain, hchain'⟩ := chainOf_of_rewritten h he
    have hiff : t.image settled opts c = t.image settled opts w ↔ c = w := by
      refine ⟨fun heq => ?_, fun heq => by rw [heq]⟩
      exact image_injective h ⟨has_of_recordAt hc, visited_of_recordAt hc⟩ ⟨hw, hvw⟩ heq
    rw [lastId, lastId, ih, hchain, hchain', he.1]
    simp only [Option.some.injEq, hiff]

/-- **The tree of a compacted state** has the visited nodes under their new chains. -/
theorem shrunk_build {s s' : EmbedRGA.State α} {settledIds : Option (List ℕ)}
    (hs : build s { settledIds, inflight := [], frozenAnchorCoords := [] } = .ok t)
    (hs' : build s' { settledIds, inflight := [], frozenAnchorCoords := [] } = .ok t')
    (hes : List.Forall₂ (Rewritten t settled opts) s.entries s'.entries) :
    Shrunk settled opts t t' := by
  have htree := isTree_build hs
  have hhas := has_addRecords (addRecords_of_build hs)
  have hhas' := has_addRecords (addRecords_of_build hs')
  have hmem {e : ℕ × Record α} {c : List ℕ} (he : e ∈ s.entries) (hc : chainOf e = some c) :
      t.has c = true ∧ t.visited settled opts c = true := by
    have hsome : (t.recordAt c).isSome = true := by
      rw [recordAt_build hs]
      exact lastId_isSome_of_mem he hc
    exact ⟨has_of_recordAt hsome, visited_of_recordAt hsome⟩
  refine ⟨htree, isTree_build hs', quiet_root.addRecords (addRecords_of_build hs),
    quiet_root.addRecords (addRecords_of_build hs'), fun p hp => ?_, fun r => ?_, fun w hw hvw => ?_⟩
  · rcases (hhas p).mp hp with hroot | ⟨e, he, c, hc, hpc, -⟩
    · exact ⟨[], by rw [has_root.mp hroot], htree.hasRoot, visited_nil⟩
    · exact ⟨c, hpc, hmem he hc⟩
  · rw [hhas']
    constructor
    · rintro (hroot | ⟨e', he', c', hc', hr, -⟩)
      · exact ⟨[], htree.hasRoot, visited_nil, (has_root.mp hroot).symm⟩
      · obtain ⟨e, he, hrew⟩ := exists_left_of_forall₂ hes he'
        obtain ⟨c, hc, -, hchain'⟩ := chainOf_of_rewritten htree hrew
        rw [hchain', Option.some.injEq] at hc'
        have hhasc := has_of_recordAt hc
        obtain ⟨w, hwc, hvw, himage⟩ :=
          exists_of_prefix_image htree hhasc (visited_of_recordAt hc) (hc' ▸ hr)
        exact ⟨w, htree.has_above hwc hhasc, hvw, himage⟩
    · rintro ⟨w, hw, hvw, rfl⟩
      by_cases hnil : t.image settled opts w = []
      · exact Or.inl (has_root.mpr hnil)
      · rcases (hhas w).mp hw with hroot | ⟨e, he, c, hc, hwc, -⟩
        · exact absurd (by rw [has_root.mp hroot, image_nil]) hnil
        · obtain ⟨e', he', hrew⟩ := exists_right_of_forall₂ hes he
          obtain ⟨c₁, -, hchain, hchain'⟩ := chainOf_of_rewritten htree hrew
          obtain rfl : c = c₁ := Option.some.inj (hc.symm.trans hchain)
          exact Or.inr ⟨e', he', _, hchain', image_front _ _ _ hwc, hnil⟩
  · rw [recordAt_build hs, recordAt_build hs', lastId_image htree hes hw hvw]

/-! ### Lengths -/

theorem length_codeword_le {d e : ℕ} (hde : d ≤ e) :
    (codeword d).length ≤ (dEnc e).length := by
  by_cases hd : d = 0
  · simp [codeword, hd]
  · rw [codeword, if_neg hd]
    exact length_dEnc_le (by omega) hde

/-- **Coordinates do not grow.** -/
theorem length_newCoord_le (h : IsTree t) {p : List ℕ} (hp : t.has p = true) :
    (t.newCoord settled opts p).length ≤ (p.flatMap dEnc).length := by
  induction p using List.reverseRecOn with
  | nil => rfl
  | append_singleton p d ih =>
    have hlabel := label_le settled opts h hp
    have hcode := length_codeword_le hlabel
    have hrest := ih (h.closed p d hp)
    rw [newCoord_concat, List.flatMap_append, List.length_append, List.length_append]
    simp only [List.flatMap_cons, List.flatMap_nil, List.append_nil]
    omega

end CoordTree

open CoordTree

/-- Sums that are bounded entry by entry agree only when the entries do. -/
theorem forall₂_eq_of_sum_eq {β δ : Type} {R : β → δ → Prop} {f : β → ℕ} {g : δ → ℕ}
    (hle : ∀ a b, R a b → g b ≤ f a) {l : List β} {l' : List δ} (h : List.Forall₂ R l l')
    (hsum : (l'.map g).sum = (l.map f).sum) :
    List.Forall₂ (fun a b => R a b ∧ g b = f a) l l' := by
  have hsum_le {l : List β} {l' : List δ} (h : List.Forall₂ R l l') :
      (l'.map g).sum ≤ (l.map f).sum := by
    induction h with
    | nil => exact le_rfl
    | cons hab _ ih =>
      have := hle _ _ hab
      rw [List.map_cons, List.map_cons, List.sum_cons, List.sum_cons]
      omega
  induction h with
  | nil => exact .nil
  | cons hab hrest ih =>
    have hhead := hle _ _ hab
    have htail := hsum_le hrest
    rw [List.map_cons, List.map_cons, List.sum_cons, List.sum_cons] at hsum
    exact .cons ⟨hab, by omega⟩ (ih (by omega))

/-- **A compaction at a cut without coordinates in flight**, with spine fusion or without, exists for
every state whose coordinates decode. Compacting its result again at the same cut changes nothing, it
lengthens no coordinate, and it keeps the number of symbols only if it keeps all lengths. -/
theorem compactEliasDelta_idempotent (s : EmbedRGA.State α) (settledIds : Option (List ℕ))
    (opts : CompactOpts) :
    let cut : CoordCut := { settledIds, inflight := [], frozenAnchorCoords := [] }
    ((∀ e ∈ s.entries, ∃ c, decodeChain e.2.coord = .ok c) →
        ∃ res, compactEliasDelta s cut opts = .ok res) ∧
      ∀ res, compactEliasDelta s cut opts = .ok res →
        (∃ res', compactEliasDelta res.state cut opts = .ok res' ∧ res'.state = res.state) ∧
        ∀ id rec, s.get? id = some rec → ∃ rec', res.state.get? id = some rec' ∧
          rec'.coord.length ≤ rec.coord.length ∧
          (res.stats.symbolsAfter = res.stats.symbolsBefore →
            rec'.coord.length = rec.coord.length) := by
  refine ⟨fun hs => exists_compactEliasDelta hs settledIds opts, fun res hres => ?_⟩
  obtain ⟨t, hbuild, -, hstats, hes⟩ := compactEliasDelta_rewrites hres
  have htree := isTree_build hbuild
  have hlength {e e' : ℕ × Record α} (he : Rewritten t (settledIds.getD []) opts e e') :
      e'.2.coord.length ≤ e.2.coord.length := by
    obtain ⟨-, -, c, hc, hcoord, hcoord'⟩ := he
    rw [hcoord, hcoord']
    exact length_newCoord_le htree (has_of_recordAt hc)
  refine ⟨?_, fun id rec hid => ?_⟩
  · have hdecodes : ∀ e' ∈ res.state.entries, ∃ c, decodeChain e'.2.coord = .ok c := by
      intro e' he'
      obtain ⟨e, -, he⟩ := exists_left_of_forall₂ hes he'
      obtain ⟨c, -, -, hc⟩ := chainOf_of_rewritten htree he
      exact ⟨_, chainOf_eq_some_iff.mp hc⟩
    obtain ⟨res', hres'⟩ := exists_compactEliasDelta hdecodes settledIds opts
    obtain ⟨t', hbuild', -, -, hes'⟩ := compactEliasDelta_rewrites hres'
    have hshrunk := shrunk_build hbuild hbuild' hes
    have hsame {e e' : ℕ × Record α} (he : Rewritten t' (settledIds.getD []) opts e e') :
        e = e' := by
      obtain ⟨hid, hel, c, hc, hcoord, hcoord'⟩ := he
      rw [hshrunk.newCoord_eq (has_of_recordAt hc), ← hcoord] at hcoord'
      obtain ⟨id, coord, el⟩ := e
      obtain ⟨id', coord', el'⟩ := e'
      simp_all
    have hentries : res.state.entries = res'.state.entries :=
      List.forall₂_eq_eq_eq ▸ hes'.imp fun _ _ he => hsame he
    refine ⟨res', hres', ?_⟩
    rw [← SortedMap.ofList_entries res'.state, ← hentries, SortedMap.ofList_entries]
  · have hmem := SortedMap.mem_entries_iff.mpr hid
    have hget {e' : ℕ × Record α} (he' : e' ∈ res.state.entries) (hkey : e'.1 = id) :
        res.state.get? id = some e'.2 := by
      rw [← SortedMap.mem_entries_iff, ← hkey]
      exact he'
    obtain ⟨e', he', hrew⟩ := exists_right_of_forall₂ hes hmem
    refine ⟨e'.2, hget he' hrew.1, hlength hrew, fun hsum => ?_⟩
    rw [hstats] at hsum
    simp only [compactStats, EmbedRGA.symbols, SortedMap.values, List.map_map] at hsum
    obtain ⟨e₁, he₁, hrew₁, hlen⟩ := exists_right_of_forall₂
      (forall₂_eq_of_sum_eq (fun _ _ he => hlength he) hes hsum) hmem
    rw [← Option.some.inj ((hget he₁ hrew₁.1).symm.trans (hget he' hrew.1))]
    exact hlen

end SalRuntime
