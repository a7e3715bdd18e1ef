import SalRuntime.Datatypes.MarkCover

/-!
# Formatting a selection

The format gesture of `src/peritextbind.js`: one mark over the selected characters, whose id is fresh. An
end before the first character that is not selected does not grow; an end after the last selected
character grows over newer text only, and no character is newer than the mark. The mark is the newest
of its type, so it wins on what it covers.

## Main definitions

* `formatOps` — the operations of the gesture.
* `Restyled` — one mark type is set or cleared on a selection, and nothing else changes.

## Main results

* `Peritext.coveredIds_formatted` — the mark covers the selection.
* `Peritext.restyled_of_formatOps` — the mark restyles the selection.
* `formatOps_exact` — the gesture restyles the selection.
-/

namespace SalRuntime

open Peritext

variable {α β μ : Type}

/-- The options of a format gesture. -/
structure FormatOpts (β : Type) where
  /-- Retract the mark type? -/
  remove : Bool := false
  /-- The value. -/
  value : Option β := none
  /-- The side of the start. -/
  startSide : Side := .before
  /-- The side of the end. -/
  endSide : Side := .after
  deriving DecidableEq, Repr

/-- Format the characters at the reading positions from `start` to `stop`, which is not included. The
id `mid` is minted. An id beyond the document is `0`, which no character has. -/
def formatOps {ι : Type} (ids : List ℕ) (start stop : ℕ) (mtype : μ) (mid : ℕ)
    (opts : FormatOpts β) : List (RichOp ι μ β) :=
  if stop ≤ start then []
  else
    -- At the end of the document there is no character to end before.
    let exclusive := opts.endSide = .before ∧ stop < ids.length
    [.mark {
      removed := opts.remove
      mid
      mtype
      value := opts.value
      startId := ids.getD start 0
      endId := if exclusive then ids.getD stop 0 else ids.getD (stop - 1) 0
      startSide := some opts.startSide
      endSide := some (if exclusive then .before else .after)
      ts := some mid }]

/-- The mark type is set or cleared on the characters from `start` to `stop`, and nothing else
changes. -/
structure Restyled (start stop : ℕ) (mtype : μ) (opts : FormatOpts β)
    (doc doc' : List (RenderedChar α μ β)) : Prop where
  /-- The document has the same length. -/
  length : doc'.length = doc.length
  /-- The other characters are unchanged. -/
  outside : ∀ i : ℕ, i < start ∨ stop ≤ i → doc'[i]? = doc[i]?
  /-- The selected characters carry the mark type as asked, and the other types as before. -/
  inside : ∀ (i : ℕ) (e : RenderedChar α μ β), start ≤ i → i < stop → doc[i]? = some e →
    ∃ e', doc'[i]? = some e' ∧ e'.id = e.id ∧ e'.char = e.char ∧ ∀ t v, (t, v) ∈ e'.marks ↔
      t = mtype ∧ opts.remove = false ∧ v = opts.value ∨ t ≠ mtype ∧ (t, v) ∈ e.marks

namespace Peritext

section Cover

variable {ctx : Ctx α} {start stop mid : ℕ} {m : Mark μ β}

/-- No run of newer characters is skipped when no character is newer. -/
theorem takeWhile_newer (hnew : ∀ c ∈ ctx.live, c < mid) {cs : List ℕ} (hcs : cs ⊆ ctx.live) :
    cs.takeWhile (fun c => mid < c) = [] := by
  cases cs with
  | nil => rfl
  | cons c cs =>
    have hc := hnew c (hcs List.mem_cons_self)
    rw [List.takeWhile_cons_of_neg]
    simpa using hc.le

/-- **The mark of a gesture covers the selection.** -/
theorem coveredIds_formatted (h : ctx.Sound) (hnew : ∀ c ∈ ctx.live, c < m.ts) (hlt : start < stop)
    (hle : stop ≤ ctx.live.length) (hstart : m.startId = ctx.live.getD start 0)
    (hstartSide : m.startSide = .before)
    (hend : stop < ctx.live.length ∧ m.endId = ctx.live.getD stop 0 ∧ m.endSide = .before ∨
      m.endId = ctx.live.getD (stop - 1) 0 ∧ m.endSide = .after) :
    coveredIds m ctx = (ctx.live.take stop).drop start := by
  have hfirst : startIndex m ctx = some start := by
    have hlen : start < ctx.live.length := by omega
    rw [List.getD_eq_getElem _ _ hlen] at hstart
    simp only [startIndex, hstart, h.isLive_getElem hlen, if_true, hstartSide, h.idxOf_live hlen]
  have hlast : endIndex m ctx = some ((stop : ℤ) - 1) := by
    rcases hend with ⟨hlen, hend, hside⟩ | ⟨hend, hside⟩
    · rw [List.getD_eq_getElem _ _ hlen] at hend
      have hrun : (ctx.live.take stop).reverse.takeWhile (fun c => m.ts < c) = [] :=
        takeWhile_newer hnew fun c hc => List.mem_of_mem_take (List.mem_reverse.mp hc)
      simp only [endIndex, hend, h.isLive_getElem hlen, if_true, hside, h.idxOf_live hlen, hrun,
        List.length_nil, Nat.cast_zero, sub_zero]
    · have hlen : stop - 1 < ctx.live.length := by omega
      rw [List.getD_eq_getElem _ _ hlen] at hend
      have hrun : (ctx.live.drop (stop - 1 + 1)).takeWhile (fun c => m.ts < c) = [] :=
        takeWhile_newer hnew fun c hc => List.mem_of_mem_drop hc
      simp only [endIndex, hend, h.isLive_getElem hlen, if_true, hside, h.idxOf_live hlen, hrun,
        List.length_nil, Nat.cast_zero, add_zero]
      congr 1
      omega
  rw [coveredIds, hfirst, hlast]
  simp only
  rw [if_neg (by omega), show ((stop : ℤ) - 1).toNat + 1 = stop by omega]

/-- A character is covered when its index is selected. -/
theorem mem_selection_iff (h : ctx.Sound) {i : ℕ} (hi : i < ctx.live.length) :
    ctx.live[i] ∈ (ctx.live.take stop).drop start ↔ start ≤ i ∧ i < stop := by
  rw [List.mem_drop_iff_getElem]
  constructor
  · rintro ⟨j, hj, heq⟩
    rw [List.length_take] at hj
    rw [List.getElem_take] at heq
    have hij := (h.nodup_live.getElem_inj_iff).mp heq
    omega
  · rintro ⟨hstart, hstop⟩
    refine ⟨i - start, by rw [List.length_take]; omega, ?_⟩
    rw [List.getElem_take]
    congr 1
    omega

end Cover

/-! ### The read after a gesture -/

section Render

variable [LinearOrder μ] {K : TextKernel α} {s : State K μ β}

/-- What the read shows of the winners on a character. -/
def shown (winners : SortedMap μ (Winner β)) : List (μ × Option β) :=
  (winners.entries.filter fun e => !e.2.removed).map fun e => (e.1, e.2.value)

theorem mem_shown_iff {winners : SortedMap μ (Winner β)} {t : μ} {v : Option β} :
    (t, v) ∈ shown winners ↔
      ∃ w, winners.get? t = some w ∧ w.removed = false ∧ w.value = v := by
  simp only [shown, List.mem_map, List.mem_filter, Bool.not_eq_true', Prod.mk.injEq, Prod.exists,
    SortedMap.mem_entries_iff]
  constructor
  · rintro ⟨t', w, ⟨hw, hremoved⟩, rfl, hv⟩
    exact ⟨w, hw, hremoved, hv⟩
  · rintro ⟨w, hw, hremoved, hv⟩
    exact ⟨t, w, ⟨hw, hremoved⟩, rfl, hv⟩

/-- The winners on a character, given the marks. -/
def winnersOf (ctx : Ctx α) (ms : List (Mark μ β)) (c : ℕ) : SortedMap μ (Winner β) :=
  (ms.filter fun m => c ∈ coveredIds m ctx).foldl noteMark SortedMap.empty

/-- What the read shows of a live character, given the marks. -/
def rendered (ctx : Ctx α) (ms : List (Mark μ β)) (c : ℕ) : RenderedChar α μ β where
  id := c
  char := ctx.cp.get? c
  marks := shown (winnersOf ctx ms c)

/-- **The read** shows the winners on every live character. -/
theorem renderDoc_eq {ctx : Ctx α} (hctx : buildCtx s = .ok ctx) (h : ctx.Sound) :
    renderDoc s = .ok (ctx.live.map (rendered ctx s.marks.values)) := by
  rw [renderDoc, hctx]
  refine congrArg Except.ok (List.map_congr_left fun c hc => ?_)
  rw [get?_bestMarks h.nodup_live _ hc]
  rfl

omit [LinearOrder μ] in
/-- The marks after a new one. -/
theorem values_insert {m : Mark μ β} (hnew : ∀ mid ∈ s.marks.keys, mid < m.mid) :
    (s.marks.insert m.mid m).values = s.marks.values ++ [m] := by
  have hlt : ∀ e ∈ s.marks.entries, e.1 < m.mid := fun e he =>
    hnew e.1 (List.mem_map_of_mem he)
  rw [SortedMap.values, SortedMap.insert]
  show (SortedMap.insertEntry m.mid m s.marks.entries).map Prod.snd = _
  rw [SortedMap.insertEntry_of_lt hlt, List.map_append]
  rfl

/-- The winners after a new mark. -/
theorem winnersOf_concat {ctx : Ctx α} {ms : List (Mark μ β)} {m : Mark μ β}
    (hnew : ∀ m' ∈ ms, m'.mid < m.mid) (c : ℕ) :
    winnersOf ctx (ms ++ [m]) c = if c ∈ coveredIds m ctx then
      (winnersOf ctx ms c).insert m.mtype { mid := m.mid, removed := m.removed, value := m.value }
      else winnersOf ctx ms c := by
  rw [winnersOf, List.filter_append, List.foldl_append]
  split_ifs with hc
  · rw [List.filter_cons, if_pos (decide_eq_true hc), List.filter_nil]
    refine noteMark_of_newest fun w hw => ?_
    rcases exists_of_winner hw with hempty | ⟨m', hm', hmid⟩
    · cases hempty
    · rw [← hmid]
      exact hnew m' (List.mem_of_mem_filter hm')
  · rw [List.filter_cons, if_neg (by simpa using hc), List.filter_nil]
    rfl

/-- **The newest mark** restyles what it covers. -/
theorem restyled_of_newest {ctx : Ctx α} (h : ctx.Sound) {start stop : ℕ} {m : Mark μ β}
    {opts : FormatOpts β} {ms : List (Mark μ β)} (hnew : ∀ m' ∈ ms, m'.mid < m.mid)
    (hcovered : coveredIds m ctx = (ctx.live.take stop).drop start)
    (hremoved : m.removed = opts.remove) (hvalue : m.value = opts.value) :
    Restyled start stop m.mtype opts (ctx.live.map (rendered ctx ms))
      (ctx.live.map (rendered ctx (ms ++ [m]))) where
  length := by rw [List.length_map, List.length_map]
  outside i hi := by
    rw [List.getElem?_map, List.getElem?_map]
    by_cases hlen : i < ctx.live.length
    · have hnot : ctx.live[i] ∉ coveredIds m ctx := by
        rw [hcovered, mem_selection_iff h hlen]
        omega
      rw [List.getElem?_eq_getElem hlen, Option.map_some, Option.map_some, rendered, rendered,
        winnersOf_concat hnew, if_neg hnot]
    · rw [List.getElem?_eq_none (not_lt.mp hlen)]
      rfl
  inside i e hstart hstop he := by
    rw [List.getElem?_map] at he
    obtain ⟨c, hc, rfl⟩ := Option.map_eq_some_iff.mp he
    obtain ⟨hlen, rfl⟩ := List.getElem?_eq_some_iff.mp hc
    refine ⟨rendered ctx (ms ++ [m]) ctx.live[i], by rw [List.getElem?_map, hc]; rfl, rfl, rfl,
      fun t v => ?_⟩
    have hmem : ctx.live[i] ∈ coveredIds m ctx := by
      rw [hcovered, mem_selection_iff h hlen]
      exact ⟨hstart, hstop⟩
    simp only [rendered, mem_shown_iff]
    rw [winnersOf_concat hnew, if_pos hmem]
    simp only [SortedMap.get?_insert]
    by_cases ht : t = m.mtype
    · subst ht
      simp only [if_true, Option.some.injEq, exists_eq_left', hremoved, hvalue, true_and, ne_eq,
        not_true_eq_false, false_and, or_false]
      exact and_congr_right fun _ => eq_comm
    · simp only [ht, if_false, false_and, false_or, ne_eq, not_false_eq_true, true_and]

/-- **A gesture** with a mint above all ids files one mark, which restyles the selection. -/
theorem restyled_of_formatOps (hlists : K.Lists s.shadow) (hfiled : Filed s)
    {doc : List (RenderedChar α μ β)} (hdoc : renderDoc s = .ok doc) {start stop mid : ℕ} {mtype : μ}
    {opts : FormatOpts β} (hlt : start < stop) (hle : stop ≤ doc.length)
    (hchars : ∀ id, K.has s.shadow id = true → id < mid) (hmarks : ∀ id ∈ s.marks.keys, id < mid)
    (hside : opts.startSide = .before) : ∃ (op : MarkOp μ β) (doc' : List (RenderedChar α μ β)),
      formatOps (doc.map RenderedChar.id) start stop mtype mid opts =
        [(.mark op : RichOp K.Ins μ β)] ∧ op.mid = mid ∧
      renderDoc { s with marks := s.marks.insert mid (frozenMark op) } = .ok doc' ∧
      Restyled start stop mtype opts doc doc' := by
  obtain ⟨ctx, hctx, hsound, hhas, -⟩ := buildCtx_of_lists hlists
  have hread := renderDoc_eq hctx hsound
  rw [hdoc, Except.ok.injEq] at hread
  subst hread
  rw [List.length_map] at hle
  have hids : (ctx.live.map (rendered ctx s.marks.values)).map RenderedChar.id = ctx.live := by
    rw [List.map_map]
    exact List.map_id _
  rw [hids, formatOps, if_neg (not_le.mpr hlt)]
  set op : MarkOp μ β := {
    removed := opts.remove, mid, mtype, value := opts.value, startId := ctx.live.getD start 0
    endId := if opts.endSide = .before ∧ stop < ctx.live.length then ctx.live.getD stop 0
      else ctx.live.getD (stop - 1) 0
    startSide := some opts.startSide
    endSide := some (if opts.endSide = .before ∧ stop < ctx.live.length then .before else .after)
    ts := some mid } with hop
  set m : Mark μ β := frozenMark op with hm
  set s' : State K μ β := { s with marks := s.marks.insert mid m } with hs'
  have hnewest : ∀ c ∈ ctx.live, c < m.ts := fun c hc =>
    hchars c (by rw [← hhas, hsound.hasBirth]; exact (hsound.mem_live_iff.mp hc).1)
  have hcovered : coveredIds m ctx = (ctx.live.take stop).drop start := by
    refine coveredIds_formatted hsound hnewest hlt hle rfl hside ?_
    by_cases hex : opts.endSide = .before ∧ stop < ctx.live.length
    · exact Or.inl ⟨hex.2, if_pos hex, if_pos hex⟩
    · exact Or.inr ⟨if_neg hex, if_neg hex⟩
  have hmids : ∀ m' ∈ s.marks.values, m'.mid < m.mid := by
    intro m' hm'
    obtain ⟨e, he, rfl⟩ := List.mem_map.mp hm'
    rw [hfiled e.1 e.2 (SortedMap.mem_entries_iff.mp he)]
    exact hmarks e.1 (List.mem_map_of_mem he)
  have hvalues : s'.marks.values = s.marks.values ++ [m] := values_insert (m := m) hmarks
  have hread' := renderDoc_eq (s := s') hctx hsound
  rw [hvalues] at hread'
  exact ⟨op, _, rfl, rfl, hread', restyled_of_newest hsound hmids hcovered rfl rfl⟩

end Render

end Peritext

/-- **A format gesture affects exactly the selection**: in every reachable state of a rich text over
any of the kernels, with a mint above all ids of characters and marks. -/
theorem formatOps_exact [DecidableEq α] [LinearOrder μ] (k : TextRGA) {U E : Set (k.kernel α).Ins}
    {s : State (k.kernel α) μ β} (hU : Set.InjOn (k.kernel α).insId U)
    (h : Reachable k.insertion U E s) :
    ∃ doc, renderDoc s = .ok doc ∧ ∀ (start stop mid : ℕ) (mtype : μ) (opts : FormatOpts β),
      start < stop → stop ≤ doc.length →
      (∀ id, (k.kernel α).has s.shadow id = true → id < mid) →
      (∀ id ∈ s.marks.keys, id < mid) → opts.startSide = .before →
      ∃ s' doc', (formatOps (doc.map RenderedChar.id) start stop mtype mid opts).foldlM apply s =
          .ok s' ∧ renderDoc s' = .ok doc' ∧ Restyled start stop mtype opts doc doc' := by
  have hlists := h.lists hU
  obtain ⟨ctx, hctx, hsound, -, -⟩ := buildCtx_of_lists hlists
  have hread := renderDoc_eq hctx hsound
  refine ⟨_, hread, fun start stop mid mtype opts hlt hle hchars hmarks hside => ?_⟩
  obtain ⟨op, doc', hops, rfl, hread', hrestyled⟩ :=
    restyled_of_formatOps hlists h.filed hread hlt hle hchars hmarks hside
  rw [hops]
  exact ⟨_, doc', rfl, hread', hrestyled⟩

/-- A first letter. -/
def letterA : Insertion Char := { id := 1, el := 'a', anchorId := none }

/-- A letter after it. -/
def letterB : Insertion Char := { id := 2, el := 'b', anchorId := some 1 }

/-- The text of the two letters. -/
def letters : State (TextRGA.embedRGA.kernel Char) String String where
  shadow := SortedMap.ofList [(1, { coord := dEnc 1, el := 'a' }),
    (2, { coord := dEnc 1 ++ dEnc 1, el := 'b' })]
  deleted := SortedMap.empty
  marks := SortedMap.empty

theorem reachable_letters :
    ∃ E, Reachable TextRGA.embedRGA.insertion {letterA, letterB} E letters := by
  have hinit : Reachable TextRGA.embedRGA.insertion {letterA, letterB} ∅
      (init : State (TextRGA.embedRGA.kernel Char) String String) := .init
  have hA := hinit.ins (i := letterA) ⟨Or.inl rfl, fun j hj => absurd hj (Set.notMem_empty j),
    letterA, rfl⟩ rfl
  refine ⟨_, hA.ins (i := letterB) ⟨Or.inr rfl, ?_, letterB, rfl⟩ rfl⟩
  rintro j (rfl | hj)
  · decide
  · exact absurd hj (Set.notMem_empty j)

theorem formatOps_exact_letters : ∃ doc, renderDoc letters = .ok doc ∧ ∃ s' doc',
    (formatOps (doc.map RenderedChar.id) 0 1 "bold" 3 {}).foldlM apply letters = .ok s' ∧
      renderDoc s' = .ok doc' ∧ Restyled 0 1 "bold" {} doc doc' := by
  have hinj : Set.InjOn (TextRGA.embedRGA.kernel Char).insId {letterA, letterB} := by
    rintro i (rfl | rfl) j (rfl | rfl) hij
    · rfl
    · cases hij
    · cases hij
    · rfl
  obtain ⟨E, hreach⟩ := reachable_letters
  obtain ⟨doc, hdoc, hformat⟩ := formatOps_exact .embedRGA hinj hreach
  have hlength : doc.length = 2 := by
    have hread : (renderDoc letters).map List.length = .ok 2 := rfl
    rw [hdoc] at hread
    exact Except.ok.inj hread
  refine ⟨doc, hdoc, hformat 0 1 3 "bold" {} (by omega) (by omega) (fun id hid => ?_) (by decide)
    rfl⟩
  have hkeys : ∀ id ∈ letters.shadow.keys, id < 3 := by decide
  exact hkeys id (SortedMap.mem_keys_iff_has.mpr hid)

end SalRuntime
