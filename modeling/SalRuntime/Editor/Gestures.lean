import SalRuntime.Editor.RichEditor

/-!
# What a gesture restyles

A gesture on a selection of the document asks for marks on ranges of the document. When their ids are
above all ids of characters and marks, each mark restyles its range, one after the other.

## Main definitions

* `FormatRequest.Valid` — the range of a mark lies in the document.
* `RestyledAll` — the marks of a gesture restyle their ranges one after the other.
* `Known` — an id of a character, deleted or not, or of a mark.

## Main results

* `Gesture.exists_requests` — gestures ask for marks on ranges of the document.
* `exists_restyledAll` — the operations of a gesture restyle the ranges.
-/

namespace SalRuntime

open Peritext

variable {doc : RichDoc} {start stop : ℕ}

/-! ### Ranges -/

/-- The range of the mark lies in the document. -/
structure FormatRequest.Valid (doc : RichDoc) (q : FormatRequest) : Prop where
  /-- The range is not empty. -/
  lt : q.start < q.stop
  /-- It ends in the document. -/
  le : q.stop ≤ doc.length
  /-- It starts before the first character. -/
  startSide : q.opts.startSide = .before

theorem entryAt_eq {i : ℕ} (hi : i < doc.length) : entryAt doc i = .ok doc[i] := by
  rw [entryAt, List.getElem?_eq_getElem hi]

/-- **The test of a selection** in the document. -/
theorem selectionHas_eq (hlt : start < stop) (hle : stop ≤ doc.length) (mtype : String) :
    selectionHas doc start stop mtype =
      .ok ((List.range' start (stop - start)).all fun i => doc[i]?.any (carries mtype)) := by
  rw [selectionHas, if_neg (not_le.mpr hlt)]
  refine allM_eq_ok fun i hi => ?_
  have hlen : i < doc.length := by
    have := List.mem_range'_1.mp hi
    omega
  rw [entryAt_eq hlen, List.getElem?_eq_getElem hlen]
  rfl

/-- **The extent of a mark type** that a character carries is a range of the document. -/
theorem exists_markSpan {mtype : String} {i : ℕ} (hi : doc[i]?.any (carries mtype) = true) :
    ∃ lo hi, markSpan doc mtype = some (lo, hi) ∧ lo < hi ∧ hi ≤ doc.length := by
  -- The span after the first `n` positions.
  have hspan (n : ℕ) : match (List.range n).foldl (fun span i =>
      if doc[i]?.any (carries mtype) then some ((span.map Prod.fst).getD i, i + 1) else span) none with
      | none => ∀ j < n, doc[j]?.any (carries mtype) = false
      | some (lo, hi) => lo < hi ∧ hi ≤ n := by
    induction n with
    | zero => exact fun j hj => absurd hj (Nat.not_lt_zero j)
    | succ n ih =>
      rw [List.range_succ, List.foldl_append, List.foldl_cons, List.foldl_nil]
      cases hprev : (List.range n).foldl (fun span i =>
          if doc[i]?.any (carries mtype) then some ((span.map Prod.fst).getD i, i + 1) else span)
          none with
      | none =>
        rw [hprev] at ih
        by_cases hn : doc[n]?.any (carries mtype) = true
        · rw [if_pos hn]
          exact ⟨Nat.lt_succ_self n, le_rfl⟩
        · rw [if_neg hn]
          intro j hj
          rcases Nat.lt_succ_iff_lt_or_eq.mp hj with hj | rfl
          · exact ih j hj
          · simpa using hn
      | some span =>
        rw [hprev] at ih
        obtain ⟨lo, hi⟩ := span
        obtain ⟨hlt, hle⟩ : lo < hi ∧ hi ≤ n := ih
        by_cases hn : doc[n]?.any (carries mtype) = true
        · rw [if_pos hn]
          exact ⟨show lo < n + 1 by omega, le_rfl⟩
        · rw [if_neg hn]
          exact ⟨hlt, hle.trans (Nat.le_succ n)⟩
  have hlen : i < doc.length := by
    by_contra hge
    rw [List.getElem?_eq_none (not_lt.mp hge)] at hi
    cases hi
  have h := hspan doc.length
  rw [← markSpan] at h
  cases hmark : markSpan doc mtype with
  | none =>
    rw [hmark] at h
    have hnone := h i hlen
    rw [hi] at hnone
    cases hnone
  | some span =>
    rw [hmark] at h
    exact ⟨span.1, span.2, rfl, h⟩

/-- **The mark types that cover a selection** are carried by its first character. -/
theorem exists_coveringMarkTypes (hlt : start < stop) (hle : stop ≤ doc.length) (pre : String) :
    ∃ covering, coveringMarkTypes doc start stop pre = .ok covering ∧
      ∀ t ∈ covering, doc[start]?.any (carries t) = true := by
  have hlen : start < doc.length := by omega
  rw [coveringMarkTypes, if_neg (by omega), entryAt_eq hlen]
  refine ⟨_, filterM_eq_ok fun t _ => selectionHas_eq hlt hle t, fun t ht => ?_⟩
  have hall := (List.mem_filter.mp ht).2
  rw [List.all_eq_true] at hall
  exact hall start (List.mem_range'_1.mpr ⟨le_rfl, by omega⟩)

/-- **Gestures** on a selection of the document ask for marks on ranges of the document. -/
theorem Gesture.exists_requests (gesture : Gesture) (id : ℕ) (hlt : start < stop)
    (hle : stop ≤ doc.length) :
    ∃ qs, gesture.requests doc id start stop = .ok qs ∧ ∀ q ∈ qs, q.Valid doc := by
  have hone {mtype : String} {opts : FormatOpts String} (hside : opts.startSide = .before) :
      ∀ q ∈ [({ start, stop, mtype, opts } : FormatRequest)], q.Valid doc := by
    intro q hq
    rw [List.mem_singleton.mp hq]
    exact ⟨hlt, hle, hside⟩
  have hnone : ∀ q ∈ ([] : List FormatRequest), q.Valid doc := fun q hq => absurd hq List.not_mem_nil
  cases gesture with
  | mark mtype =>
    rw [requests, selectionHas_eq hlt hle]
    exact ⟨_, rfl, hone rfl⟩
  | link =>
    rw [requests, selectionHas_eq hlt hle]
    cases (List.range' start (stop - start)).all fun i => doc[i]?.any (carries "link") with
    | true => exact ⟨_, rfl, hone rfl⟩
    | false => exact ⟨_, rfl, hnone⟩
  | comment =>
    obtain ⟨covering, hcovering, hcarried⟩ := exists_coveringMarkTypes hlt hle "comment:"
    have hspan (t : String) (ht : t ∈ covering) : ∃ lo hi, markSpan doc t = some (lo, hi) ∧ lo < hi ∧
        hi ≤ doc.length := exists_markSpan (hcarried t ht)
    rw [requests, hcovering]
    refine ⟨covering.map fun mtype =>
      { start := ((markSpan doc mtype).map Prod.fst).getD 0
        stop := ((markSpan doc mtype).map Prod.snd).getD 0, mtype, opts := { remove := true } },
      mapM_eq_ok fun t ht => ?_, fun q hq => ?_⟩
    · obtain ⟨lo, hi, hmark, -⟩ := hspan t ht
      rw [hmark]
      rfl
    · obtain ⟨t, ht, rfl⟩ := List.mem_map.mp hq
      obtain ⟨lo, hi, hmark, hrange⟩ := hspan t ht
      rw [hmark]
      exact ⟨hrange.1, hrange.2, rfl⟩
  | linkTo text =>
    rw [requests]
    split_ifs
    · exact ⟨_, rfl, hnone⟩
    · exact ⟨_, rfl, hone rfl⟩
    · exact ⟨_, rfl, hone rfl⟩
  | commentOn text =>
    rw [requests]
    split_ifs
    · exact ⟨_, rfl, hnone⟩
    · exact ⟨_, rfl, hone rfl⟩

/-! ### The marks of a gesture -/

/-- A character of the state, deleted or not, or a mark of it has the id. -/
def Known (s : RichText.State) (id : ℕ) : Prop :=
  (TextRGA.embedRGA.kernel JsString).has s.shadow id = true ∨ s.marks.has id = true

/-- The marks restyle their ranges, one after the other. -/
def RestyledAll : List FormatRequest → RichDoc → RichDoc → Prop
  | [], doc, doc' => doc' = doc
  | q :: qs, doc, doc' =>
    ∃ next, Restyled q.start q.stop q.mtype q.opts doc next ∧ RestyledAll qs next doc'

/-- A restyled document shows the same characters. -/
theorem Restyled.ids {mtype : String} {opts : FormatOpts String} {doc' : RichDoc}
    (h : Restyled start stop mtype opts doc doc') :
    doc'.map RenderedChar.id = doc.map RenderedChar.id := by
  refine List.ext_getElem? fun i => ?_
  rw [List.getElem?_map, List.getElem?_map]
  by_cases hi : start ≤ i ∧ i < stop
  · cases he : doc[i]? with
    | none =>
      have hlen := List.getElem?_eq_none_iff.mp he
      rw [List.getElem?_eq_none (h.length.trans_le hlen)]
    | some e =>
      obtain ⟨e', he', hid, -⟩ := h.inside i e hi.1 hi.2 he
      rw [he', Option.map_some, Option.map_some, hid]
  · rw [h.outside i (by omega)]

/-- Every operation of a gesture is a mark with a minted id. -/
theorem exists_of_mem_formatAll {ids : List ℕ} {mint : ℕ → ℕ} {qs : List FormatRequest} {i : ℕ}
    {op : RichText.Op} (hop : op ∈ formatAll ids mint i qs) :
    ∃ m j, op = .mark m ∧ m.mid = mint j ∧ i ≤ j ∧ j < i + (formatAll ids mint i qs).length := by
  induction qs generalizing i with
  | nil => cases hop
  | cons q qs ih =>
    rw [formatAll] at hop ⊢
    rw [List.length_append]
    rcases List.mem_append.mp hop with hop | hop
    · have hlen := List.length_pos_of_mem hop
      rw [formatOps] at hop
      split_ifs at hop
      · cases hop
      · exact ⟨_, i, List.mem_singleton.mp hop, rfl, le_rfl, by omega⟩
    · obtain ⟨m, j, hm, hmid, hle, hlt⟩ := ih hop
      exact ⟨m, j, hm, hmid, by omega, by omega⟩

/-- Marks are accepted in every state, and change nothing but the marks. -/
theorem exists_foldlM_marks {ops : List RichText.Op} (hops : ∀ op ∈ ops, ∃ m, op = .mark m)
    (s : RichText.State) : ∃ t : RichText.State, ops.foldlM Peritext.apply s = .ok t ∧
      t.shadow = s.shadow ∧ t.deleted = s.deleted ∧ ∀ id, t.marks.has id = true →
        s.marks.has id = true ∨ ∃ m, RichOp.mark m ∈ ops ∧ m.mid = id := by
  induction ops generalizing s with
  | nil => exact ⟨s, rfl, rfl, rfl, fun id => Or.inl⟩
  | cons op ops ih =>
    rw [List.forall_mem_cons] at hops
    obtain ⟨⟨m, rfl⟩, hops⟩ := hops
    obtain ⟨t, ht, hshadow, hdeleted, hmarks⟩ :=
      ih hops { s with marks := s.marks.insert m.mid (frozenMark m) }
    refine ⟨t, ht, hshadow, hdeleted, fun id hid => ?_⟩
    rcases hmarks id hid with hid | ⟨m', hm', hid⟩
    · rw [SortedMap.has_insert, Bool.or_eq_true, decide_eq_true_iff] at hid
      rcases hid with rfl | hid
      · exact Or.inr ⟨m, List.mem_cons_self, rfl⟩
      · exact Or.inl hid
    · exact Or.inr ⟨m', List.mem_cons_of_mem _ hm', hid⟩

/-- **The operations of a gesture** restyle the ranges of its marks, if the minted ids are above all ids
of the state. -/
theorem exists_restyledAll {s : RichText.State} (hfiled : Filed s) (hdoc : renderDoc s = .ok doc)
    {mint : ℕ → ℕ} (hmint : StrictMono mint) {i : ℕ} (hnew : ∀ id, Known s id → id < mint i)
    {qs : List FormatRequest} (hqs : ∀ q ∈ qs, q.Valid doc) :
    ∃ t doc', (formatAll (doc.map RenderedChar.id) mint i qs).foldlM Peritext.apply s = .ok t ∧
      renderDoc t = .ok doc' ∧ RestyledAll qs doc doc' := by
  induction qs generalizing s doc i with
  | nil => exact ⟨s, doc, rfl, hdoc, rfl⟩
  | cons q qs ih =>
    rw [List.forall_mem_cons] at hqs
    obtain ⟨hq, hqs⟩ := hqs
    obtain ⟨op, next, hops, hmid, hnext, hrestyled⟩ : ∃ (op : MarkOp String String) (next : RichDoc),
        formatOps (doc.map RenderedChar.id) q.start q.stop q.mtype (mint i) q.opts =
          [(.mark op : RichText.Op)] ∧ op.mid = mint i ∧
        renderDoc { s with marks := s.marks.insert (mint i) (frozenMark op) } = .ok next ∧
        Restyled q.start q.stop q.mtype q.opts doc next :=
      restyled_of_formatOps (lists_embedKernel s.shadow) hfiled hdoc hq.lt hq.le
        (fun id hid => hnew id (Or.inl hid))
        (fun id hid => hnew id (Or.inr (SortedMap.mem_keys_iff_has.mp hid))) hq.startSide
    have hids := hrestyled.ids
    have hnew' (id : ℕ) (hid : Known { s with marks := s.marks.insert (mint i) (frozenMark op) } id) :
        id < mint (i + 1) := by
      have hlt : mint i < mint (i + 1) := hmint (Nat.lt_succ_self i)
      rcases hid with hid | hid
      · exact (hnew id (Or.inl hid)).trans hlt
      · rw [SortedMap.has_insert, Bool.or_eq_true, decide_eq_true_iff] at hid
        rcases hid with rfl | hid
        · exact hlt
        · exact (hnew id (Or.inr hid)).trans hlt
    have happly : Peritext.apply s (.mark op) =
        .ok { s with marks := s.marks.insert (mint i) (frozenMark op) } := by rw [← hmid]; rfl
    obtain ⟨t, doc', ht, hdoc', hall⟩ := ih (hfiled.apply happly) hnext hnew' fun r hr =>
      ⟨(hqs r hr).lt, (hqs r hr).le.trans_eq hrestyled.length.symm, (hqs r hr).startSide⟩
    refine ⟨t, doc', ?_, hdoc', next, hrestyled, hall⟩
    rw [formatAll, hops]
    rw [hids] at ht
    show (do formatAll _ mint (i + 1) qs |>.foldlM Peritext.apply (← Peritext.apply s (.mark op))) = _
    rw [happly]
    exact ht

end SalRuntime
