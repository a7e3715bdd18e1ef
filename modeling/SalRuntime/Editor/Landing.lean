import SalRuntime.Datatypes.CoordinateOrder
import SalRuntime.Datatypes.TextKernels
import SalRuntime.Editor.TextDiff

/-!
# Where an insertion lands

An insertion under an id above all others lands right after its anchor, or at the front. This is so in
the reading order of every kernel of rich text, and in the live elements of the embedded-chain RGA.

## Main definitions

* `EmbedRGA.document` — the live elements of the embedded-chain RGA, with their ids.

## Main results

* `EmbedRGA.Represents.lands` — an insertion into the embedded-chain RGA.
* `TextRGA.lands` — an insertion into a kernel of rich text.
-/

namespace SalRuntime

variable {α : Type}

namespace Doc

/-! ### Documents by their ids -/

theorem ids_place (e : ℕ × α) (anchorId : Option ℕ) (es : Doc α) :
    ids (place e anchorId es) = Rga.insertAfter e.1 anchorId es.ids := by
  cases anchorId with
  | none => rw [place, Rga.insertAfter, ids, ids, List.map_cons]
  | some a =>
    induction es with
    | nil => rfl
    | cons f es ih =>
      rw [place, ids, ids, List.map_cons, Rga.insertAfter]
      split_ifs with ha
      · rfl
      · rw [List.map_cons]
        exact congrArg _ ih

theorem place_subset (e : ℕ × α) (anchorId : Option ℕ) (es : Doc α) :
    place e anchorId es ⊆ e :: es := by
  cases anchorId with
  | none =>
    rw [place]
    exact List.Subset.refl _
  | some a =>
    induction es with
    | nil => exact List.nil_subset _
    | cons f es ih =>
      rw [place]
      split_ifs
      · intro x hx
        simp only [List.mem_cons] at hx ⊢
        tauto
      · intro x hx
        rcases List.mem_cons.mp hx with rfl | hx
        · exact List.mem_cons_of_mem _ List.mem_cons_self
        · have := ih hx
          simp only [List.mem_cons] at this ⊢
          tauto

/-- Documents with the same ids, both part of a third one, are equal. -/
theorem eq_of_ids {A B C : Doc α} (hC : C.ids.Nodup) (hA : A ⊆ C) (hB : B ⊆ C)
    (h : A.ids = B.ids) : A = B := by
  induction A generalizing B with
  | nil => exact (List.map_eq_nil_iff.mp h.symm).symm
  | cons e A ih =>
    cases B with
    | nil => cases h
    | cons f B =>
      obtain ⟨hid, hrest⟩ := List.cons.inj h
      obtain rfl : e = f := List.inj_on_of_nodup_map hC (hA List.mem_cons_self)
        (hB List.mem_cons_self) hid
      rw [ih (fun x hx => hA (List.mem_cons_of_mem _ hx))
        (fun x hx => hB (List.mem_cons_of_mem _ hx)) hrest]

/-- **A document with one more element** at the place of its id. -/
theorem eq_place {es es' : Doc α} {e : ℕ × α} {anchorId : Option ℕ} (hnodup : es.ids.Nodup)
    (hid : e.1 ∉ es.ids) (hids : es'.ids = Rga.insertAfter e.1 anchorId es.ids)
    (hmem : es' ⊆ e :: es) : es' = place e anchorId es :=
  have hcons : (ids (e :: es)).Nodup := List.nodup_cons.mpr ⟨hid, hnodup⟩
  eq_of_ids hcons hmem (place_subset e anchorId es) (hids.trans (ids_place e anchorId es).symm)

end Doc

/-- An id that lands after its anchor is inserted after it. -/
theorem LandsAfter.eq_insertAfter {before after : List ℕ} {id : ℕ} {a : Option ℕ}
    (h : LandsAfter before after id a) (hnodup : before.Nodup) :
    after = Rga.insertAfter id a before := by
  cases a with
  | none => rw [Rga.insertAfter, h]
  | some a =>
    obtain ⟨l₁, l₂, rfl, rfl⟩ := h
    induction l₁ with
    | nil => exact (if_pos rfl).symm
    | cons i l₁ ih =>
      obtain ⟨hi, hrest⟩ := List.nodup_cons.mp hnodup
      have hne : i ≠ a := fun heq => hi (heq ▸ List.mem_append_right _ List.mem_cons_self)
      rw [List.cons_append, List.cons_append, Rga.insertAfter, if_neg hne, ← ih hrest]

/-! ### The embedded-chain RGA -/

namespace EmbedRGA

/-- The live elements with their ids. -/
def document (s : State α) : Doc α := (readEntries s).map fun e => (e.1, e.2.el)

theorem ids_document (s : State α) : (document s).ids = readIds s := by
  rw [Doc.ids, document, List.map_map]
  rfl

theorem mem_document {s : State α} {e : ℕ × α} :
    e ∈ document s ↔ ∃ r, s.get? e.1 = some r ∧ r.el = e.2 := by
  rw [document, List.mem_map]
  constructor
  · rintro ⟨f, hf, rfl⟩
    exact ⟨f.2, SortedMap.mem_entries_iff.mp ((perm_readEntries s).subset hf), rfl⟩
  · rintro ⟨r, hr, hel⟩
    exact ⟨(e.1, r), (perm_readEntries s).symm.subset (SortedMap.mem_entries_iff.mpr hr),
      Prod.ext rfl hel⟩

variable {s : State α}

/-- The coordinate of an id. -/
def coordAt (s : State α) (id : ℕ) : List Bool := ((s.get? id).map Record.coord).getD []

/-- The read lists the ids by descending keys. -/
theorem Minted.readIds_spec (h : Minted s) :
    ((readIds s).Pairwise fun i j => sortKey (coordAt s j) < sortKey (coordAt s i)) ∧
      ∀ id, id ∈ readIds s ↔ s.has id = true := by
  obtain ⟨hpair, hperm⟩ := h.treeOrdered.sorted
  have hcoord {e : ℕ × Record α} (he : e ∈ readEntries s) : coordAt s e.1 = e.2.coord := by
    rw [coordAt, SortedMap.mem_entries_iff.mp (hperm.subset he)]
    rfl
  refine ⟨?_, fun id => ?_⟩
  · rw [readIds, List.pairwise_map]
    refine hpair.imp_of_mem fun {e f} he hf hlt => ?_
    rwa [hcoord he, hcoord hf]
  · rw [readIds, (hperm.map Prod.fst).mem_iff]
    exact SortedMap.mem_keys_iff_has

theorem Minted.nodup_ids_document (h : Minted s) : (document s).ids.Nodup := by
  rw [ids_document]
  refine h.readIds_spec.1.imp fun {i j} hij heq => ?_
  subst heq
  exact lt_irrefl _ hij

/-- A chain of distances with a longer last step is above what its front is above. -/
theorem above_concat_of_sum_lt {c d : List ℕ} {x : ℕ} (h : Above c d) (hlt : d.sum < c.sum + x) :
    Above (c ++ [x]) d := by
  induction h with
  | @nil e d =>
    rw [List.sum_cons, List.sum_nil] at hlt
    exact List.Lex.rel (by omega)
  | rel hgt => exact List.Lex.rel hgt
  | cons _ ih =>
    rw [List.sum_cons, List.sum_cons] at hlt
    exact List.Lex.cons (ih (by omega))

/-- A step to the largest id sorts right below its anchor: above everything that its anchor is
above. -/
theorem Minted.step_above (h : Minted s) {id : ℕ} {anchorId : Option ℕ} {ds : List ℕ}
    (hds : ∀ d ∈ ds, 1 ≤ d) (hsum : ds.sum = anchorId.getD 0)
    (hcoord : anchorCoord s anchorId = some (ds.flatMap dEnc)) (hdist : anchorId.getD 0 < id) {j : ℕ}
    (hj : s.has j = true) (hpos : 0 < j) (hlt : j < id)
    (habove : ∀ a, anchorId = some a → sortKey (coordAt s j) < sortKey (coordAt s a)) :
    sortKey (coordAt s j) < sortKey ((ds ++ [id - anchorId.getD 0]).flatMap dEnc) := by
  obtain ⟨r, hr⟩ := SortedMap.has_iff.mp hj
  obtain ⟨es, hes, hjsum, hjcoord⟩ := h j r hr
  have hj' : coordAt s j = es.flatMap dEnc := by
    rw [coordAt, hr]
    exact hjcoord
  have hab : Above ds es := by
    cases anchorId with
    | none =>
      have hnil : ds = [] := by
        cases ds with
        | nil => rfl
        | cons d ds =>
          have := hds d List.mem_cons_self
          rw [List.sum_cons, Option.getD_none] at hsum
          omega
      cases es with
      | nil =>
        rw [List.sum_nil] at hjsum
        omega
      | cons e es => exact hnil ▸ List.Lex.nil
    | some a =>
      have ha : coordAt s a = ds.flatMap dEnc := by
        rw [coordAt, show (s.get? a).map Record.coord = some (ds.flatMap dEnc) from hcoord]
        rfl
      exact above_of_sortKey_lt hds hes (hj' ▸ ha ▸ habove a rfl)
  rw [hj']
  exact sortKey_flatMap_lt (List.forall_mem_append.mpr ⟨hds, List.forall_mem_singleton.mpr (by omega)⟩)
    hes (above_concat_of_sum_lt hab (by omega))

/-- **An insertion** under the largest id lands after its anchor. -/
theorem Minted.lands (h : Minted s) {id : ℕ} (el : α) {anchorId : Option ℕ} (hpos : 0 < id)
    (hlt : ∀ i, s.has i = true → 0 < i ∧ i < id)
    (hanchor : ∀ a, anchorId = some a → s.has a = true) :
    ∃ s', EmbedRGA.apply s (.ins id el anchorId) = .ok s' ∧
      document s' = (document s).place (id, el) anchorId := by
  have hnew : s.has id = false := by
    rw [← Bool.not_eq_true]
    exact fun hid => lt_irrefl _ (hlt id hid).2
  have hdist : anchorId.getD 0 < id := by
    cases anchorId with
    | none => exact hpos
    | some a => exact (hlt a (hanchor a rfl)).2
  obtain ⟨bits, hbits⟩ : ∃ bits, anchorCoord s anchorId = some bits := by
    cases anchorId with
    | none => exact ⟨[], rfl⟩
    | some a =>
      obtain ⟨ra, hra⟩ := SortedMap.has_iff.mp (hanchor a rfl)
      exact ⟨ra.coord, by rw [anchorCoord, hra, Option.map_some]⟩
  obtain ⟨ds, hds, hsum, rfl⟩ := h.anchor hbits
  set r : Record α := { coord := ds.flatMap dEnc ++ dEnc (id - anchorId.getD 0), el } with hr
  have hs' : EmbedRGA.apply s (.ins id el anchorId) = .ok (s.insert id r) :=
    apply_ins_eq_ok_iff.mpr ⟨r, insRecord_eq_ok_iff.mpr ⟨hnew, hdist, _, hbits, rfl⟩, rfl⟩
  obtain ⟨hpair, hmem⟩ := h.readIds_spec
  obtain ⟨hpair', hmem'⟩ := (h.apply hs').readIds_spec
  have hkeep {i : ℕ} (hi : i ∈ readIds s) : coordAt (s.insert id r) i = coordAt s i := by
    have hne : i ≠ id := (hlt i ((hmem i).mp hi)).2.ne
    rw [coordAt, coordAt, SortedMap.get?_insert_of_ne _ _ hne]
  have hself : coordAt (s.insert id r) id = (ds ++ [id - anchorId.getD 0]).flatMap dEnc := by
    rw [coordAt, SortedMap.get?_insert_self]
    simp [hr]
  have hanchor' : ∀ a, anchorId = some a → a ∈ readIds s := fun a ha =>
    (hmem a).mpr (hanchor a ha)
  refine ⟨_, hs', Doc.eq_place h.nodup_ids_document ?_ ?_ fun e he => ?_⟩
  · rw [ids_document, hmem, hnew]
    exact Bool.false_ne_true
  · rw [ids_document, ids_document]
    refine eq_of_pairwise_key hpair' (Rga.pairwise_insertAfter (fun i j k hij hjk => hjk.trans hij)
      (hpair.imp_of_mem fun {i j} hi hj hij => ?_) hanchor' (fun a ha => ?_)
      fun j hj habove => ?_) fun i => ?_
    · rwa [hkeep hi, hkeep hj]
    · obtain ⟨ra, hra, hcoord⟩ := Option.map_eq_some_iff.mp (ha ▸ hbits)
      rw [hkeep (hanchor' a ha), hself, coordAt, hra, Option.map_some, Option.getD_some, hcoord,
        List.flatMap_append]
      conv_rhs => rw [← List.append_nil (ds.flatMap dEnc)]
      refine sortKey_append_lt _ (sortKey_lt_nil ?_)
      rw [List.flatMap_singleton]
      exact orderedPrefixCode_dEnc.ne_nil (by omega)
    · have hj' := (hmem j).mp hj
      rw [hkeep hj, hself]
      refine h.step_above hds hsum hbits hdist hj' (hlt j hj').1 (hlt j hj').2 fun a ha => ?_
      have := habove a ha
      rwa [hkeep hj, hkeep (hanchor' a ha)] at this
    · rw [hmem', Rga.mem_insertAfter hanchor', hmem, SortedMap.has_insert]
      simp
  · obtain ⟨re, hre, hel⟩ := mem_document.mp he
    rw [SortedMap.get?_insert] at hre
    split_ifs at hre with heq
    · cases hre
      exact List.mem_cons.mpr (Or.inl (Prod.ext heq hel.symm))
    · exact List.mem_cons_of_mem _ (mem_document.mpr ⟨re, hre, hel⟩)

/-- **A deletion** takes an element out. -/
theorem Minted.document_erase (h : Minted s) (id : ℕ) :
    document (s.erase id) = (document s).remove id := by
  have h' : Minted (s.erase id) := h.apply (show EmbedRGA.apply s (.del id) = _ from rfl)
  obtain ⟨hpair, hmem⟩ := h.readIds_spec
  obtain ⟨hpair', hmem'⟩ := h'.readIds_spec
  have hkeep {i : ℕ} (hi : i ≠ id) : coordAt (s.erase id) i = coordAt s i := by
    rw [coordAt, coordAt, SortedMap.get?_erase, if_neg hi]
  have hids : ((document s).remove id).ids = (readIds s).filter fun i => i ≠ id := by
    rw [← ids_document, Doc.ids, Doc.ids, List.filter_map]
    rfl
  refine Doc.eq_of_ids h.nodup_ids_document (fun e he => ?_) (List.filter_subset_self _) ?_
  · obtain ⟨r, hr, hel⟩ := mem_document.mp he
    rw [SortedMap.get?_erase] at hr
    split_ifs at hr
    exact mem_document.mpr ⟨r, hr, hel⟩
  · rw [hids, ids_document]
    refine eq_of_pairwise_key hpair' ((hpair.filter _).imp_of_mem fun {i j} hi hj hij => ?_) fun i => ?_
    · rw [List.mem_filter, decide_eq_true_iff] at hi hj
      rwa [hkeep hi.2, hkeep hj.2]
    · rw [hmem', List.mem_filter, hmem, SortedMap.has_erase, decide_eq_true_iff]
      simp [and_comm]

/-- The versions of the kernel are minted. -/
theorem minted_of_version [DecidableEq α] {U E : Set (embedKernel α).Ins}
    (h : (embedKernel α).Version TextRGA.embedRGA.insertion U E s) : Minted s := by
  refine Reachable.minted ?_
  induction h with
  | init => exact .init
  | @apply _ _ i _ _ _ hs ih => exact ih.apply (show EmbedRGA.apply _ i.op = _ from hs)
  | merge _ _ hm iha ihb => exact .merge .init iha ihb hm

end EmbedRGA

/-! ### The tombstone RGA -/

namespace Rga

variable {s : State α}

/-- The read of an insertion-only state lists its insertions in the order of the fold. -/
theorem Births.readEntries_spec (h : Births s) : ∃ es, readEntries s = .ok es ∧
    es.map Prod.fst = timestampFold s.adds ∧ ∀ e, e ∈ es ↔ s.adds.get? e.1 = some e.2 := by
  have hread := readIds_of_anchorClosed h.closed h.order
  have hnone : (fun id => !s.grave.has id) = fun _ => true := by
    funext id
    rw [h.grave]
    simp
  rw [hnone, List.filter_true] at hread
  have hentries : readEntries s = .ok ((timestampFold s.adds).filterMap fun id =>
      if s.grave.has id then none else (s.adds.get? id).map (id, ·)) := by
    rw [readEntries, h.order]
    simp only [orderedIds_of_anchorClosed h.closed, bind, Except.bind, pure, Except.pure]
  rw [readIds, hentries] at hread
  refine ⟨_, hentries, Except.ok.inj hread, fun e => ?_⟩
  simp only [List.mem_filterMap, h.grave, SortedMap.has_empty, Bool.false_eq_true, if_false]
  constructor
  · rintro ⟨id, -, hid⟩
    obtain ⟨r, hr, rfl⟩ := Option.map_eq_some_iff.mp hid
    exact hr
  · intro hr
    refine ⟨e.1, ((timestampFold_spec h.closed).2 e.1).mpr (SortedMap.mem_keys_iff.mpr ⟨_, hr⟩), ?_⟩
    rw [hr]
    rfl

/-- The fold after an insertion of the largest id. -/
theorem timestampFold_insert {adds : SortedMap ℕ (Added α)} {id : ℕ} (r : Added α)
    (hlt : ∀ i, adds.has i = true → i < id) :
    timestampFold (adds.insert id r) = insertAfter id r.anchorId (timestampFold adds) := by
  have hentries : (adds.insert id r).entries = adds.entries ++ [(id, r)] :=
    SortedMap.insertEntry_of_lt fun e he => hlt e.1 (SortedMap.has_iff.mpr
      ⟨e.2, SortedMap.mem_entries_iff.mp he⟩)
  rw [timestampFold, hentries, List.foldl_append]
  rfl

/-- **An insertion** under the largest id lands after its anchor. -/
theorem Births.lands [DecidableEq α] (h : Births s) {i : Insertion α} (hpos : 0 < i.id)
    (hlt : ∀ id, s.adds.has id = true → id < i.id)
    (hanchor : ∀ a, i.anchorId = some a → s.adds.has a = true) {es : Doc α}
    (hes : (rgaKernel α).readEntries s = .ok es) :
    prepareIns s i = .ok i ∧ ∃ s', apply s i.op = .ok s' ∧
      (rgaKernel α).readEntries s' = .ok (es.place (i.id, i.el) i.anchorId) := by
  have hnew : s.adds.has i.id = false := by
    rw [← Bool.not_eq_true]
    exact fun hid => lt_irrefl _ (hlt i.id hid)
  have hgrave (id : ℕ) : s.grave.has id = false := by
    rw [h.grave]
    exact SortedMap.has_empty _
  have hcheck : checkInsert s i.id i.anchorId = .ok i.anchorId := by
    unfold checkInsert
    cases ha : i.anchorId with
    | none => simp [hnew, hgrave, Nat.not_lt.mpr hpos, pure, Except.pure]
    | some a =>
      have hhas := hanchor a ha
      simp [hnew, hgrave, hhas, Nat.not_lt.mpr hpos, hlt a hhas, pure, Except.pure, bind,
        Except.bind]
  set s' : State α := { adds := s.adds.insert i.id ⟨i.anchorId, i.el⟩, grave := s.grave, order := none }
  have hs' : apply s i.op = .ok s' := by
    rw [apply, Insertion.op, prepare, hcheck]
    rfl
  refine ⟨by rw [prepareIns, hcheck]; rfl, s', hs', ?_⟩
  obtain ⟨fs, hfs, hids, hmem⟩ := h.readEntries_spec
  obtain ⟨fs', hfs', hids', hmem'⟩ := (h.ins hs').readEntries_spec
  obtain rfl : (fs.map fun e => (e.1, e.2.el)) = es := by
    rw [show (rgaKernel α).readEntries s = (readEntries s).map _ from rfl, hfs] at hes
    exact Except.ok.inj hes
  have hdoc (gs : List (ℕ × Added α)) :
      Doc.ids (gs.map fun e => (e.1, e.2.el)) = gs.map Prod.fst := by
    rw [Doc.ids, List.map_map]
    rfl
  obtain ⟨hpair, hkeys⟩ := timestampFold_spec h.closed
  rw [show (rgaKernel α).readEntries s' = (readEntries s').map _ from rfl, hfs']
  refine congrArg Except.ok (Doc.eq_place ?_ ?_ ?_ fun e he => ?_)
  · rw [hdoc, hids]
    refine hpair.imp fun {i j} hij heq => ?_
    subst heq
    exact above_irrefl _ hij
  · rw [hdoc, hids, hkeys, SortedMap.mem_keys_iff_has, hnew]
    exact Bool.false_ne_true
  · rw [hdoc, hdoc, hids, hids']
    exact timestampFold_insert _ hlt
  · obtain ⟨f, hf, rfl⟩ := List.mem_map.mp he
    have hget := (hmem' f).mp hf
    rw [SortedMap.get?_insert] at hget
    split_ifs at hget with heq
    · refine List.mem_cons.mpr (Or.inl (Prod.ext heq ?_))
      rw [← Option.some.inj hget]
    · exact List.mem_cons_of_mem _ (List.mem_map_of_mem ((hmem f).mpr hget))

end Rga

/-! ### The production sided kernel -/

namespace LiveGap

/-- The read lists records. -/
theorem get?_of_mem_readEntries {s : State α} {e : ℕ × Rec α} (he : e ∈ readEntries s) :
    s.records.get? e.1 = some e.2 := by
  rw [readEntries] at he
  split at he
  · obtain ⟨id, -, hid⟩ := List.mem_filterMap.mp he
    obtain ⟨r, hr, rfl⟩ := Option.map_eq_some_iff.mp hid
    exact hr
  · rw [policyOrder] at he
    obtain ⟨c, -, hc⟩ := List.mem_filterMap.mp he
    exact get?_of_entryAt hc

/-- An insertion changes no element. -/
theorem el_of_linkRec {s : State α} {id : ℕ} {el : α} {a : Option ℕ} {g : Gap} {ch : Chain} {i : ℕ}
    {r : Rec α} (hr : (linkRec s id el a g ch).records.get? i = some r) :
    i = id ∧ r.el = el ∨ ∃ r', s.records.get? i = some r' ∧ r'.el = r.el := by
  rw [linkRec, SortedMap.get?_insert] at hr
  split_ifs at hr with hi
  · exact Or.inl ⟨hi, by rw [← Option.some.inj hr]⟩
  · rw [SortedMap.get?_modifyAt] at hr
    split_ifs at hr
    · obtain ⟨r', hr', rfl⟩ := Option.map_eq_some_iff.mp hr
      exact Or.inr ⟨r', hr', rfl⟩
    · exact Or.inr ⟨r, hr, rfl⟩

variable [DecidableEq α] {k : ℕ} {U E : Set (liveGapKernel α k).Ins} {s : (liveGapKernel α k).State}

/-- **An insertion** under the largest id lands after its anchor. -/
theorem lands_of_version (hU : Set.InjOn SidedInsertion.id U)
    (h : (liveGapKernel α k).Version (TextRGA.insertion (.liveGapSidedEmbedRGA k)) U E s)
    {j : Insertion α} (hpos : 0 < j.id) (hlt : ∀ i ∈ E, i.id < j.id)
    (hanchor : ∀ a, j.anchorId = some a → s.records.has a = true) :
    ∃ i s', prepareIns s (TextRGA.insertion (.liveGapSidedEmbedRGA k) j) = .ok i ∧ i.id = j.id ∧
      apply s i.op = .ok s' ∧ (readEntries s').map (fun e => (e.1, e.2.el)) =
        Doc.place (j.id, j.el) j.anchorId ((readEntries s).map fun e => (e.1, e.2.el)) := by
  obtain ⟨χ, hχ⟩ := (onePlace_sidedOps (hU.mono h.subset)).exists_chains
  obtain ⟨u, hu⟩ := exact_of_version hχ (h.restrict (Set.Subset.refl E))
  have hlt' : ∀ i ∈ ids (sidedOps E), i < j.id := by
    intro i hi
    obtain ⟨i', hi', rfl⟩ := mem_ids_sidedOps.mp hi
    exact hlt i' hi'
  obtain ⟨p, s', hp, hs'⟩ := hu.accepts j.el hpos hlt' hanchor
  set i : SidedInsertion α := { id := j.id, el := j.el, anchorId := j.anchorId, placed := some p }
  have hprep : prepareIns s (TextRGA.insertion (.liveGapSidedEmbedRGA k) j) = .ok i := by
    show prepareIns s { id := j.id, el := j.el, anchorId := j.anchorId, placed := none } = _
    rw [prepareIns, SidedInsertion.op, hp]
    rfl
  refine ⟨i, s', hprep, rfl, hs', ?_⟩
  -- The chains of the history and of the new insertion.
  have hfresh : j.id ∉ ids (sidedOps E) := fun hid => lt_irrefl _ (hlt' _ hid)
  have hinj : Set.InjOn SidedInsertion.id (insert i E) := by
    have hnew : SidedInsertion.id i ∉ Set.image SidedInsertion.id E := by
      rintro ⟨i', hi', hid⟩
      exact (hlt i' hi').ne hid
    exact (Set.injOn_insert fun hi => hnew ⟨i, hi, rfl⟩).mpr ⟨hU.mono h.subset, hnew⟩
  obtain ⟨χ', hχ'⟩ := (onePlace_sidedOps hinj).exists_chains
  obtain ⟨u', hu'⟩ := exact_of_version hχ' (h.restrict (Set.subset_insert i E))
  have hlands := hu'.lands hχ' hfresh hp ⟨i, Set.mem_insert i E, rfl⟩ hs'
  obtain ⟨hpair, hmem⟩ := hu'.readIds_spec
  have hnodup : (readIds s).Nodup := hpair.imp fun {i j} hij heq => by
    subst heq
    exact lt_irrefl _ hij
  have hdoc (t : State α) : Doc.ids ((readEntries t).map fun e => (e.1, e.2.el)) = readIds t := by
    rw [Doc.ids, List.map_map]
    rfl
  refine Doc.eq_place ?_ ?_ ?_ fun e he => ?_
  · rwa [hdoc]
  · rw [hdoc, hmem, live_sidedOps]
    exact hfresh
  · rw [hdoc, hdoc]
    exact hlands.eq_insertAfter hnodup
  · obtain ⟨f, hf, rfl⟩ := List.mem_map.mp he
    obtain ⟨g, pc, -, -, -, rfl⟩ := insertAt_eq_ok (p := p) hs'
    rcases el_of_linkRec (get?_of_mem_readEntries hf) with ⟨hid, hel⟩ | ⟨r, hr, hel⟩
    · exact List.mem_cons.mpr (Or.inl (Prod.ext hid hel))
    · have hread : f.1 ∈ readIds s := by
        rw [hmem, ← hu'.has_iff]
        exact SortedMap.has_iff.mpr ⟨r, hr⟩
      obtain ⟨f', hf', hid⟩ := List.mem_map.mp hread
      have hr' := get?_of_mem_readEntries hf'
      rw [hid, hr] at hr'
      refine List.mem_cons_of_mem _ (List.mem_map.mpr ⟨f', hf', Prod.ext hid ?_⟩)
      rw [← hel, Option.some.inj hr']

end LiveGap

/-! ### The three kernels -/

/-- **An insertion** under the largest id lands after its anchor, whichever the kernel. -/
theorem TextRGA.lands [DecidableEq α] (k : TextRGA) {U E : Set (k.kernel α).Ins}
    {s : (k.kernel α).State} (hU : Set.InjOn (k.kernel α).insId U)
    (h : (k.kernel α).Version k.insertion U E s) {es : Doc α}
    (hes : (k.kernel α).readEntries s = .ok es) {j : Insertion α} (hpos : 0 < j.id)
    (hE : ∀ i ∈ E, (k.kernel α).insId i < j.id) (hlt : ∀ id ∈ es.ids, 0 < id ∧ id < j.id)
    (hanchor : ∀ a, j.anchorId = some a → a ∈ es.ids) :
    ∃ i s', (k.kernel α).prepared s (k.insertion j) = .ok i ∧ (k.kernel α).insId i = j.id ∧
      (k.kernel α).apply s i = .ok s' ∧
      (k.kernel α).readEntries s' = .ok (es.place (j.id, j.el) j.anchorId) := by
  obtain ⟨es', hes', -, hhas⟩ := k.lists hU h
  obtain rfl : es' = es := Except.ok.inj (hes'.symm.trans hes)
  have hanchor' : ∀ a, j.anchorId = some a → (k.kernel α).has s a = true := fun a ha =>
    (hhas a).mpr (hanchor a ha)
  cases k with
  | embedRGA =>
    obtain ⟨s', hs', hdoc⟩ := (EmbedRGA.minted_of_version h).lands j.el hpos
      (fun i hi => hlt i ((hhas i).mp hi)) hanchor'
    rw [← Except.ok.inj hes]
    exact ⟨j, s', rfl, rfl, hs', congrArg Except.ok hdoc⟩
  | rga =>
    have hbirths := Rga.births_of_version h
    have hadds (id : ℕ) : s.adds.has id = true ↔ id ∈ Doc.ids es' := by
      have hid : (s.adds.has id && !s.grave.has id) = true ↔ id ∈ Doc.ids es' := hhas id
      rwa [hbirths.grave, SortedMap.has_empty, Bool.not_false, Bool.and_true] at hid
    obtain ⟨hprep, s', hs', hread⟩ := hbirths.lands hpos (fun id hid => (hlt id ((hadds id).mp hid)).2)
      (fun a ha => (hadds a).mpr (hanchor a ha)) hes
    exact ⟨j, s', hprep, rfl, hs', hread⟩
  | liveGapSidedEmbedRGA k =>
    obtain ⟨i, s', hprep, hid, hs', hread⟩ := LiveGap.lands_of_version hU h hpos hE hanchor'
    rw [← Except.ok.inj hes]
    exact ⟨i, s', hprep, hid, hs', congrArg Except.ok hread⟩

end SalRuntime
