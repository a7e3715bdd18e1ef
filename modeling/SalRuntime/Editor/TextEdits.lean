import SalRuntime.Datatypes.MarkCover
import SalRuntime.Editor.Landing
import SalRuntime.Replica.BatchCommits

/-!
# Text edits on replicas

The gestures of `src/peritextbind.js` and `src/editbind.js` that reconcile a replica with a string. An
edit is always accepted. What is read afterwards is the new string if the edit is aligned with the
elements; otherwise code units were taken for characters.

## Main definitions

* `docSnapshot`, `textEditOps`, `typeEdit` — the gesture on rich text.
* `applyTextEdit` — the gesture on the embedded-chain RGA.
* `Written`, `Holds` — rich-text documents, and replicas that show them.
* `HoldsSeq` — replicas of the embedded-chain RGA.

## Main results

* `Holds.typeEdit`, `HoldsSeq.applyTextEdit` — what the gestures do.
* `textEdit_spells_iff` — when the new string is read.
-/

namespace SalRuntime

open Replica

variable {α β μ γ : Type}

/-! ### The gestures -/

/-- The ids and the text of a document. -/
def docSnapshot (doc : List (RenderedChar JsString μ β)) : List ℕ × JsString :=
  (doc.map RenderedChar.id, doc.flatMap fun e => e.char.getD [])

/-- The operations that edit a rich text. -/
def textEditOps (k : TextRGA) (ids : List ℕ) (oldText newText : JsString) (mint : ℕ → ℕ) :
    List (RichOp (k.kernel JsString).Ins μ β) :=
  editOps .del (fun i => .ins (k.insertion i)) ids oldText newText mint

section Gestures

variable [LinearOrder γ] [LinearOrder μ] [DecidableEq β]

/-- Commit the operations of a gesture as one batch. -/
def commitOps {D : Datatype} (H : ContentHash D.Op D.Print γ) (ops : List D.Op) :
    Call D γ (List D.Op) := do
  match ops with
  | [] => return []
  | _ =>
    let _ ← commitBatch H ops
    return ops

/-- Reconcile a rich text with a string. -/
def typeEdit (k : TextRGA) (H : ContentHash (makePeritext (k.kernel JsString) μ β).Op
      (makePeritext (k.kernel JsString) μ β).Print γ) (newText : JsString) (mint : ℕ → ℕ) :
    Call (makePeritext (k.kernel JsString) μ β) γ (List (RichOp (k.kernel JsString).Ins μ β)) := do
  let r ← get
  let view ← r.read
  let doc ← view
  let (ids, text) := docSnapshot doc
  commitOps H (textEditOps k ids text newText mint)

/-- Reconcile a replica of the embedded-chain RGA, which shows `oldText` under the ids, with a string.
Returned are the numbers of deletions and of inserted code units. -/
def applyTextEdit (H : ContentHash (embedRGA JsString).Op (embedRGA JsString).Print γ) (ids : List ℕ)
    (oldText newText : JsString) (mint : ℕ → ℕ) : Call (embedRGA JsString) γ (ℕ × ℕ) := do
  commitEach H (editOps .del Insertion.op ids oldText newText mint)
  let p := commonPrefix oldText newText
  let s := commonPrefix (oldText.drop p).reverse (newText.drop p).reverse
  return (oldText.length - p - s, newText.length - s - p)

end Gestures

/-! ### Rich-text documents -/

namespace Doc

/-- A restriction to some ids keeps the place of an element. -/
theorem filter_place {p : ℕ → Bool} {e : ℕ × α} (he : p e.1 = true) {anchorId : Option ℕ}
    (ha : ∀ a, anchorId = some a → p a = true) (es : Doc α) :
    (place e anchorId es).filter (fun f => p f.1) = place e anchorId (es.filter fun f => p f.1) := by
  cases anchorId with
  | none => rw [place, place, List.filter_cons, if_pos he]
  | some a =>
    induction es with
    | nil => rfl
    | cons f es ih =>
      rw [place]
      by_cases hf : f.1 = a
      · have hpf : p f.1 = true := hf ▸ ha a rfl
        rw [if_pos hf, List.filter_cons, if_pos hpf, List.filter_cons, if_pos he, List.filter_cons,
          if_pos hpf, place, if_pos hf]
      · rw [if_neg hf, List.filter_cons, List.filter_cons]
        split_ifs
        · rw [place, if_neg hf, ih]
        · exact ih

end Doc

namespace TextRGA

/-- An operation of a document as an operation of rich text. -/
def rich (k : TextRGA) : SeqOp JsString → RichOp (k.kernel JsString).Ins μ β
  | .ins id el anchorId => .ins (k.insertion { id, el, anchorId })
  | .del id => .del id

end TextRGA

/-- The operations of a gesture on rich text. -/
theorem textEditOps_eq (k : TextRGA) (ids : List ℕ) (oldText newText : JsString) (mint : ℕ → ℕ) :
    (textEditOps k ids oldText newText mint : List (RichOp (k.kernel JsString).Ins μ β)) =
      (editOps .del Insertion.op ids oldText newText mint).map k.rich := by
  rw [textEditOps, editOps, editOps, List.map_append, List.map_map, List.map_map]
  rfl

/-- A rich text with the elements `doc`. Its characters are not empty, and `n` is above all ids. -/
structure Written (k : TextRGA) (s : Peritext.State (k.kernel JsString) μ β) (n : ℕ)
    (doc : Doc JsString) : Prop where
  /-- Honest insertions and merges reach the kernel state. -/
  version : ∃ E, Set.InjOn (k.kernel JsString).insId E ∧
    (k.kernel JsString).Version k.insertion E E s.shadow ∧ ∀ i ∈ E, (k.kernel JsString).insId i < n
  /-- The elements are the births that are not deleted. -/
  births : ∃ es : Doc JsString, (k.kernel JsString).readEntries s.shadow = .ok es ∧
    (∀ e ∈ es, 0 < e.1 ∧ e.1 < n ∧ e.2 ≠ []) ∧ doc = es.filter fun e => !s.deleted.has e.1
  /-- Deleted ids are smaller. -/
  deleted : ∀ id, s.deleted.has id = true → id < n
  /-- The bound is positive. -/
  pos : 0 < n

namespace Written

variable {k : TextRGA} {s s' : Peritext.State (k.kernel JsString) μ β} {n m : ℕ} {doc : Doc JsString}

theorem mono (h : Written k s n doc) (hnm : n ≤ m) : Written k s m doc := by
  obtain ⟨E, hU, hversion, hE⟩ := h.version
  obtain ⟨es, hes, hlt, hdoc⟩ := h.births
  exact ⟨⟨E, hU, hversion, fun i hi => (hE i hi).trans_le hnm⟩,
    ⟨es, hes, fun e he => ⟨(hlt e he).1, (hlt e he).2.1.trans_le hnm, (hlt e he).2.2⟩, hdoc⟩,
    fun id hid => (h.deleted id hid).trans_le hnm, h.pos.trans_le hnm⟩

theorem init : Written k (Peritext.init : Peritext.State (k.kernel JsString) μ β) 1 [] := by
  refine ⟨⟨∅, Set.injOn_empty _, .init, fun i hi => absurd hi (Set.notMem_empty i)⟩, ⟨[], ?_, ?_, rfl⟩,
    fun id hid => ?_, Nat.one_pos⟩
  · cases k <;> rfl
  · exact fun e he => absurd he List.not_mem_nil
  · rw [Peritext.init, SortedMap.has_empty] at hid
    cases hid

/-- The births are listed once. -/
theorem nodup_births (h : Written k s n doc) {es : Doc JsString}
    (hes : (k.kernel JsString).readEntries s.shadow = .ok es) : es.ids.Nodup := by
  obtain ⟨E, hU, hversion, -⟩ := h.version
  obtain ⟨es', hes', hnodup, -⟩ := k.lists hU hversion
  rwa [Except.ok.inj (hes.symm.trans hes')]

theorem bounded (h : Written k s n doc) : doc.Bounded n := by
  obtain ⟨es, hes, hlt, rfl⟩ := h.births
  exact ⟨(List.Sublist.map Prod.fst List.filter_sublist).nodup (h.nodup_births hes),
    fun e he => (hlt e (List.mem_of_mem_filter he)).1,
    fun e he => (hlt e (List.mem_of_mem_filter he)).2.1,
    fun e he => (hlt e (List.mem_of_mem_filter he)).2.2⟩

/-- **The read** shows the elements. -/
theorem renderDoc [LinearOrder μ] (h : Written k s n doc) : ∃ rs, Peritext.renderDoc s = .ok rs ∧
    docSnapshot rs = (doc.ids, doc.joined) := by
  obtain ⟨es, hes, -, hdoc⟩ := h.births
  have hnodup := h.nodup_births hes
  have hctx : Peritext.buildCtx s = .ok {
      birth := es.map Prod.fst, live := (es.map Prod.fst).filter fun c => !s.deleted.has c
      cp := SortedMap.ofList es, deleted := s.deleted, hasBirth := (k.kernel JsString).has s.shadow } := by
    rw [Peritext.buildCtx, hes]
    rfl
  have hlive : ((es.map Prod.fst).filter fun c => !s.deleted.has c) = doc.ids := by
    rw [List.filter_map, hdoc]
    rfl
  rw [Peritext.renderDoc, hctx]
  refine ⟨_, rfl, Prod.ext ?_ ?_⟩
  · rw [docSnapshot, List.map_map]
    exact (List.map_id _).trans hlive
  · rw [docSnapshot, List.flatMap_map]
    show (((es.map Prod.fst).filter fun c => !s.deleted.has c).flatMap fun c =>
      ((SortedMap.ofList es).get? c).getD []) = doc.joined
    rw [hlive, Doc.ids, List.flatMap_map]
    refine List.flatMap_congr fun e he => ?_
    have hmem : e ∈ es := List.mem_of_mem_filter (hdoc ▸ he)
    rw [show (SortedMap.ofList es).get? e.1 = some e.2 from
      (SortedMap.get?_foldl_insert Prod.snd hnodup SortedMap.empty).1 e hmem]
    rfl

variable [LinearOrder μ] [DecidableEq β]

/-- **An insertion** lands after its anchor. -/
theorem ins (h : Written k s n doc) {j : Insertion JsString} (hn : n ≤ j.id)
    (hanchor : ∀ a, j.anchorId = some a → a ∈ doc.ids) (hel : j.el ≠ []) :
    ∃ s', prepareApply (makePeritext (k.kernel JsString) μ β) s (.ins (k.insertion j)) = .ok s' ∧
      Written k s' (j.id + 1) (doc.place (j.id, j.el) j.anchorId) := by
  obtain ⟨E, hU, hversion, hE⟩ := h.version
  obtain ⟨es, hes, hlt, rfl⟩ := h.births
  have hnotDeleted : s.deleted.has j.id = false := by
    rw [← Bool.not_eq_true]
    exact fun hdel => absurd (h.deleted j.id hdel) (not_lt.mpr hn)
  have hanchor' (a : ℕ) (ha : j.anchorId = some a) : a ∈ es.ids ∧ s.deleted.has a = false := by
    obtain ⟨e, he, rfl⟩ := List.mem_map.mp (hanchor a ha)
    obtain ⟨hmem, hdel⟩ := List.mem_filter.mp he
    exact ⟨Doc.mem_ids hmem, by simpa using hdel⟩
  have hlt' : ∀ id ∈ es.ids, 0 < id ∧ id < j.id := by
    intro id hid
    obtain ⟨e, he, rfl⟩ := List.mem_map.mp hid
    exact ⟨(hlt e he).1, (hlt e he).2.1.trans_le hn⟩
  obtain ⟨i, t, hprep, hid, happly, hread⟩ := k.lands hU hversion hes (h.pos.trans_le hn)
    (fun i hi => (hE i hi).trans_le hn) hlt' fun a ha => (hanchor' a ha).1
  have hfresh : (k.kernel JsString).insId i ∉ Set.image (k.kernel JsString).insId E := by
    rintro ⟨i', hi', heq⟩
    have := hE i' hi'
    omega
  have hnew : i ∉ E := fun hi => hfresh ⟨i, hi, rfl⟩
  refine ⟨{ s with shadow := t }, ?_, ⟨insert i E, (Set.injOn_insert hnew).mpr ⟨hU, hfresh⟩,
    .apply (hversion.restrict (Set.subset_insert i E)) ⟨Set.mem_insert i E, fun i' hi' heq => ?_,
      j, hprep⟩ happly, ?_⟩, ⟨_, hread, fun e he => ?_, ?_⟩, fun id hdel => ?_, Nat.succ_pos _⟩
  · have hprep' : Peritext.prepare s (.ins (k.insertion j) : RichOp _ μ β) = .ok (.ins i) := by
      rw [Peritext.prepare_ins, hprep]
      rfl
    have happly' : Peritext.apply s (.ins i : RichOp _ μ β) = .ok { s with shadow := t } := by
      rw [Peritext.apply, happly]
      rfl
    show (do Peritext.apply s (← Peritext.prepare s (.ins (k.insertion j))) : Except Failure _) = _
    rw [hprep']
    exact happly'
  · exact hfresh ⟨i', hi', heq⟩
  · rintro i' (rfl | hi')
    · omega
    · have := hE i' hi'
      omega
  · rcases List.mem_cons.mp (Doc.place_subset _ _ _ he) with rfl | he
    · exact ⟨h.pos.trans_le hn, Nat.lt_succ_self _, hel⟩
    · obtain ⟨hpos, hle, hne⟩ := hlt e he
      exact ⟨hpos, by omega, hne⟩
  · refine (Doc.filter_place (p := fun id => !s.deleted.has id) ?_ (fun a ha => ?_) es).symm
    · rw [hnotDeleted]
      rfl
    · rw [(hanchor' a ha).2]
      rfl
  · have := h.deleted id hdel
    omega

/-- **A deletion** takes an element out. -/
theorem del (h : Written k s n doc) {id : ℕ} (hn : id < n) :
    ∃ s', prepareApply (makePeritext (k.kernel JsString) μ β) s (.del id) = .ok s' ∧
      Written k s' n (doc.remove id) := by
  obtain ⟨es, hes, hlt, rfl⟩ := h.births
  refine ⟨{ s with deleted := s.deleted.insert id () }, rfl, h.version, ⟨es, hes, hlt, ?_⟩,
    fun i hi => ?_, h.pos⟩
  · rw [Doc.remove, List.filter_filter]
    refine List.filter_congr fun e _ => ?_
    rw [SortedMap.has_insert]
    by_cases he : e.1 = id <;> simp [he]
  · rw [SortedMap.has_insert, Bool.or_eq_true, decide_eq_true_iff] at hi
    rcases hi with rfl | hi
    · exact hn
    · exact h.deleted i hi

/-- **The operations of an edit** change the elements as they should. -/
theorem run (h : Written k s n doc) {ops : List (SeqOp JsString)} (hadmits : Doc.Admits n doc ops)
    (hdel : ∀ id, SeqOp.del id ∈ ops → id < n)
    (hel : ∀ id el a, SeqOp.ins id el a ∈ ops → el ≠ [] ∧ id < m) (hnm : n ≤ m) :
    ∃ s', (ops.map k.rich).foldlM (prepareApply (makePeritext (k.kernel JsString) μ β)) s = .ok s' ∧
      Written k s' m (ops.foldl Doc.edit doc) := by
  induction ops generalizing s n doc with
  | nil => exact ⟨s, rfl, h.mono hnm⟩
  | cons op ops ih =>
    rw [List.map_cons, List.foldlM_cons, List.foldl_cons]
    have hel' := fun id el a hmem => hel id el a (List.mem_cons_of_mem _ hmem)
    cases op with
    | ins id el anchorId =>
      obtain ⟨hn, hanchor, hadmits⟩ := hadmits
      obtain ⟨hne, hlt⟩ := hel id el anchorId List.mem_cons_self
      obtain ⟨s', hs', h'⟩ := h.ins (j := ⟨id, el, anchorId⟩) hn hanchor hne
      obtain ⟨s'', hs'', h''⟩ := ih h' hadmits
        (fun i hi => (hdel i (List.mem_cons_of_mem _ hi)).trans_le (hn.trans (Nat.le_succ id))) hel' hlt
      refine ⟨s'', ?_, h''⟩
      rw [show prepareApply (makePeritext (k.kernel JsString) μ β) s (k.rich (.ins id el anchorId)) =
        .ok s' from hs']
      exact hs''
    | del id =>
      obtain ⟨s', hs', h'⟩ := h.del (hdel id List.mem_cons_self)
      obtain ⟨s'', hs'', h''⟩ := ih h' hadmits (fun i hi => hdel i (List.mem_cons_of_mem _ hi)) hel' hnm
      refine ⟨s'', ?_, h''⟩
      rw [show prepareApply (makePeritext (k.kernel JsString) μ β) s (k.rich (.del id)) =
        .ok s' from hs']
      exact hs''

end Written

/-! ### Edits of rich text -/

section RichText

variable [LinearOrder γ] [LinearOrder μ] [DecidableEq β] {k : TextRGA}
  {H : ContentHash (makePeritext (k.kernel JsString) μ β).Op
    (makePeritext (k.kernel JsString) μ β).Print γ}
  {r : Replica (makePeritext (k.kernel JsString) μ β) γ} {n : ℕ} {doc : Doc JsString}

/-- Rich text over the three kernels folds its batches. -/
theorem TextRGA.batched (k : TextRGA) : (makePeritext (k.kernel JsString) μ β).Batched := by
  cases k with
  | embedRGA =>
    exact batched_makePeritext (fun t is _ => Peritext.applyBatch_embedKernel t is) fun _ => rfl
  | rga => exact batched_makePeritext Rga.applyBatch_rgaKernel fun h => absurd h (by simp [kernel])
  | liveGapSidedEmbedRGA k =>
    refine batched_makePeritext (fun t is _ => ?_) fun h => absurd h (by simp [kernel])
    exact List.foldlM_map

/-- Operations that are prepared and applied keep to the states that are reached. -/
theorem Datatype.Reaches.run {D : Datatype} {s s' : D.State} (h : D.Reaches s) {ops : List D.Op}
    (hs : ops.foldlM (prepareApply D) s = .ok s') : D.Reaches s' :=
  Yields.foldlM (p := fun _ => True) (fun _ _ ht => .bind fun _ _ _ hs => .apply ht hs)
    (fun _ _ => trivial) h s' hs

/-- A replica that shows a rich-text document, whose ids are below `n`. -/
structure Holds (k : TextRGA) (H : ContentHash (makePeritext (k.kernel JsString) μ β).Op
      (makePeritext (k.kernel JsString) μ β).Print γ)
    (r : Replica (makePeritext (k.kernel JsString) μ β) γ) (n : ℕ) (doc : Doc JsString) : Prop where
  /-- The indexes agree with the store. -/
  sound : Sound H r
  /-- The head has the document. -/
  head : ∃ s, r.headState = .ok s ∧ (makePeritext (k.kernel JsString) μ β).Reaches s ∧
    Written k s n doc

/-- The text that a replica shows. -/
def readText (r : Replica (makePeritext (k.kernel JsString) μ β) γ) : Except Failure JsString := do
  let view ← r.read
  let doc ← view
  return (docSnapshot doc).2

/-- A new replica shows the empty document. -/
theorem Holds.create (k : TextRGA) (H : ContentHash (makePeritext (k.kernel JsString) μ β).Op
    (makePeritext (k.kernel JsString) μ β).Print γ) (name : String) :
    Holds k H (Replica.create _ H name) 1 [] :=
  ⟨(Reachable.create name).sound, Peritext.init, rfl, .init, .init⟩

theorem Holds.readText_eq (h : Holds k H r n doc) : readText r = .ok doc.joined := by
  obtain ⟨s, hs, -, hw⟩ := h.head
  obtain ⟨rs, hrs, hsnap⟩ := hw.renderDoc
  have hread : r.read = .ok (.ok rs) := by
    rw [Replica.read, hs]
    exact congrArg Except.ok hrs
  rw [readText, hread]
  exact congrArg Except.ok (congrArg Prod.snd hsnap)

theorem Holds.bounded (h : Holds k H r n doc) : doc.Bounded n := by
  obtain ⟨s, -, -, hw⟩ := h.head
  exact hw.bounded

/-- **A batch commit** of an edit changes the document as it should. -/
theorem Holds.commitOps (h : Holds k H r n doc) {ops : List (SeqOp JsString)} {m : ℕ}
    (hadmits : Doc.Admits n doc ops) (hdel : ∀ id, SeqOp.del id ∈ ops → id < n)
    (hel : ∀ id el a, SeqOp.ins id el a ∈ ops → el ≠ [] ∧ id < m) (hnm : n ≤ m) :
    ∃ r', Effect.exec (commitOps H (ops.map k.rich)) r = (.ok (ops.map k.rich), r') ∧
      Holds k H r' m (ops.foldl Doc.edit doc) := by
  obtain ⟨s, hs, hreach, hw⟩ := h.head
  obtain ⟨s', hs', hw'⟩ := hw.run (μ := μ) (β := β) hadmits hdel hel hnm
  cases ops with
  | nil => exact ⟨r, rfl, h.sound, s, hs, hreach, hw.mono hnm⟩
  | cons op ops =>
    have hbatch := h.sound.exec_commitBatch k.batched hs hreach
      (List.cons_ne_nil (k.rich op) (ops.map k.rich))
    rw [← List.map_cons, hs'] at hbatch
    obtain ⟨g, r', payload, hexec, hheaded, -⟩ := hbatch
    refine ⟨r', ?_, hheaded.sound, s', hheaded.state, hreach.run hs', hw'⟩
    exact Effect.exec_bind_ok hexec _

/-- **Typing** is accepted, and edits the document. The ids are then below every bound of the inserted
ones. -/
theorem Holds.typeEdit (h : Holds k H r n doc) {mint : ℕ → ℕ} (hmint : StrictMono mint)
    (hn : n ≤ mint 0) (newText : JsString) {m : ℕ} (hnm : n ≤ m) (hm : ∀ id el a, SeqOp.ins id el a ∈
      editOps .del Insertion.op doc.ids doc.joined newText mint → id < m) :
    ∃ ops r', Effect.exec (typeEdit k H newText mint) r = (.ok ops, r') ∧ Holds k H r' m
      ((editOps .del Insertion.op doc.ids doc.joined newText mint).foldl Doc.edit doc) := by
  obtain ⟨s, hs, -, hw⟩ := h.head
  obtain ⟨rs, hrs, hsnap⟩ := hw.renderDoc
  have hread : r.read = .ok (.ok rs) := by
    rw [Replica.read, hs]
    exact congrArg Except.ok hrs
  obtain ⟨hadmits, hdel, c, hel⟩ := hw.bounded.editOps hmint hn hw.pos newText
  obtain ⟨r', hcommit, h'⟩ := h.commitOps hadmits hdel
    (fun id el a hop => ⟨(hel id el a hop).1, hm id el a hop⟩) hnm
  rw [← textEditOps_eq] at hcommit
  refine ⟨textEditOps k doc.ids doc.joined newText mint, r', ?_, h'⟩
  rw [SalRuntime.typeEdit, Effect.exec_bind_ok (Effect.exec_get r),
    Effect.exec_bind_ok (exec_liftM_ok hread), Effect.exec_bind_ok (exec_liftM_ok rfl), hsnap]
  exact hcommit

end RichText

/-! ### Edits of the embedded-chain RGA -/

section Sequence

variable [LinearOrder γ] {H : ContentHash (embedRGA JsString).Op (embedRGA JsString).Print γ}
  {r : Replica (embedRGA JsString) γ} {n m : ℕ} {doc : Doc JsString}

/-- A state of the embedded-chain RGA with the elements `doc`, which are not empty; `n` is above all
ids. -/
structure WrittenSeq (s : EmbedRGA.State JsString) (n : ℕ) (doc : Doc JsString) : Prop where
  /-- Operations and merges reach the state. -/
  reachable : EmbedRGA.Reachable s
  /-- The elements. -/
  document : EmbedRGA.document s = doc
  /-- The ids are below the bound. -/
  bounded : doc.Bounded n
  /-- The bound is positive. -/
  pos : 0 < n

theorem Doc.Bounded.mono (h : doc.Bounded n) (hnm : n ≤ m) : doc.Bounded m :=
  ⟨h.nodup, h.pos, fun e he => (h.lt e he).trans_le hnm, h.ne_nil⟩

theorem WrittenSeq.ins {s : EmbedRGA.State JsString} (h : WrittenSeq s n doc) {id : ℕ} {el : JsString}
    {anchorId : Option ℕ} (hn : n ≤ id) (hanchor : ∀ a, anchorId = some a → a ∈ doc.ids)
    (hel : el ≠ []) : ∃ s', EmbedRGA.apply s (.ins id el anchorId) = .ok s' ∧
      WrittenSeq s' (id + 1) (doc.place (id, el) anchorId) := by
  obtain ⟨hreach, rfl, hbounded, hpos⟩ := h
  have hids (i : ℕ) : s.has i = true ↔ i ∈ (EmbedRGA.document s).ids := by
    rw [EmbedRGA.ids_document, hreach.minted.readIds_spec.2]
  have hlt : ∀ i, s.has i = true → 0 < i ∧ i < id := by
    intro i hi
    obtain ⟨e, he, rfl⟩ := List.mem_map.mp ((hids i).mp hi)
    exact ⟨hbounded.pos e he, (hbounded.lt e he).trans_le hn⟩
  obtain ⟨s', hs', hdoc⟩ := hreach.minted.lands el (hpos.trans_le hn) hlt
    fun a ha => (hids a).mpr (hanchor a ha)
  have hreach' := hreach.apply hs'
  refine ⟨s', hs', hreach', hdoc, ⟨hdoc ▸ hreach'.minted.nodup_ids_document, fun e he => ?_,
    fun e he => ?_, fun e he => ?_⟩, Nat.succ_pos id⟩
  all_goals rcases List.mem_cons.mp (Doc.place_subset _ _ _ he) with rfl | he
  · exact hpos.trans_le hn
  · exact hbounded.pos e he
  · exact Nat.lt_succ_self id
  · exact (hbounded.lt e he).trans_le (hn.trans (Nat.le_succ id))
  · exact hel
  · exact hbounded.ne_nil e he

theorem WrittenSeq.del {s : EmbedRGA.State JsString} (h : WrittenSeq s n doc) (id : ℕ) :
    WrittenSeq (s.erase id) n (doc.remove id) := by
  obtain ⟨hreach, rfl, hbounded, hpos⟩ := h
  have hsub : (EmbedRGA.document s).remove id ⊆ EmbedRGA.document s := List.filter_subset_self _
  exact ⟨hreach.apply (show EmbedRGA.apply s (.del id) = _ from rfl), hreach.minted.document_erase id,
    ⟨(List.filter_sublist.map Prod.fst).nodup hbounded.nodup, fun e he => hbounded.pos e (hsub he),
      fun e he => hbounded.lt e (hsub he), fun e he => hbounded.ne_nil e (hsub he)⟩, hpos⟩

/-- **The operations of an edit** change the elements as they should. -/
theorem WrittenSeq.run {s : EmbedRGA.State JsString} (h : WrittenSeq s n doc)
    {ops : List (SeqOp JsString)} (hadmits : Doc.Admits n doc ops)
    (hel : ∀ id el a, SeqOp.ins id el a ∈ ops → el ≠ [] ∧ id < m) (hnm : n ≤ m) :
    ∃ s', ops.foldlM (prepareApply (embedRGA JsString)) s = .ok s' ∧
      WrittenSeq s' m (ops.foldl Doc.edit doc) := by
  induction ops generalizing s n doc with
  | nil => exact ⟨s, rfl, h.reachable, h.document, h.bounded.mono hnm, h.pos.trans_le hnm⟩
  | cons op ops ih =>
    rw [List.foldlM_cons, List.foldl_cons]
    have hel' := fun id el a hmem => hel id el a (List.mem_cons_of_mem _ hmem)
    cases op with
    | ins id el anchorId =>
      obtain ⟨hn, hanchor, hadmits⟩ := hadmits
      obtain ⟨hne, hlt⟩ := hel id el anchorId List.mem_cons_self
      obtain ⟨s', hs', h'⟩ := h.ins hn hanchor hne
      obtain ⟨s'', hs'', h''⟩ := ih h' hadmits hel' hlt
      refine ⟨s'', ?_, h''⟩
      rw [show prepareApply (embedRGA JsString) s (.ins id el anchorId) = .ok s' from hs']
      exact hs''
    | del id =>
      obtain ⟨s'', hs'', h''⟩ := ih (h.del id) hadmits hel' hnm
      exact ⟨s'', hs'', h''⟩

/-- A replica of the embedded-chain RGA that shows a document, whose ids are below `n`. -/
structure HoldsSeq (H : ContentHash (embedRGA JsString).Op (embedRGA JsString).Print γ)
    (r : Replica (embedRGA JsString) γ) (n : ℕ) (doc : Doc JsString) : Prop where
  /-- The indexes agree with the store. -/
  sound : Sound H r
  /-- The head has the document. -/
  head : ∃ s, r.headState = .ok s ∧ WrittenSeq s n doc

/-- A new replica shows the empty document. -/
theorem HoldsSeq.create (H : ContentHash (embedRGA JsString).Op (embedRGA JsString).Print γ)
    (name : String) : HoldsSeq H (Replica.create _ H name) 1 [] :=
  ⟨(Reachable.create name).sound, EmbedRGA.init, rfl, .init, rfl, ⟨List.nodup_nil, by simp, by simp,
    by simp⟩, Nat.one_pos⟩

/-- The joined read. -/
def joinedRead (r : Replica (embedRGA JsString) γ) : Except Failure JsString := do
  return (← r.read).flatten

theorem HoldsSeq.joinedRead_eq (h : HoldsSeq H r n doc) : joinedRead r = .ok doc.joined := by
  obtain ⟨s, hs, -, rfl, -, -⟩ := h.head
  have hread : r.read = .ok (EmbedRGA.read s) := by
    rw [Replica.read, hs]
    rfl
  rw [joinedRead, hread]
  refine congrArg Except.ok ?_
  rw [EmbedRGA.read, Doc.joined, EmbedRGA.document, List.flatMap_map, List.flatMap_def]

theorem HoldsSeq.bounded (h : HoldsSeq H r n doc) : doc.Bounded n := by
  obtain ⟨s, -, hw⟩ := h.head
  exact hw.bounded

/-- **An edit** is accepted, and edits the document. The ids are then below every bound of the inserted
ones. -/
theorem HoldsSeq.applyTextEdit (h : HoldsSeq H r n doc) {mint : ℕ → ℕ} (hmint : StrictMono mint)
    (hn : n ≤ mint 0) (newText : JsString) {m : ℕ} (hnm : n ≤ m) (hm : ∀ id el a, SeqOp.ins id el a ∈
      editOps .del Insertion.op doc.ids doc.joined newText mint → id < m) :
    ∃ counts r', Effect.exec (applyTextEdit H doc.ids doc.joined newText mint) r =
      (.ok counts, r') ∧ HoldsSeq H r' m
        ((editOps .del Insertion.op doc.ids doc.joined newText mint).foldl Doc.edit doc) := by
  obtain ⟨s, hs, hw⟩ := h.head
  obtain ⟨hadmits, -, c, hel⟩ := hw.bounded.editOps hmint hn hw.pos newText
  obtain ⟨s', hs', hw'⟩ := hw.run hadmits
    (fun id el a hop => ⟨(hel id el a hop).1, hm id el a hop⟩) hnm
  have heach := h.sound.exec_commitEach hs (editOps .del Insertion.op doc.ids doc.joined newText mint)
  rw [hs'] at heach
  obtain ⟨r', hexec, hsound, hstate⟩ := heach
  exact ⟨_, r', Effect.exec_bind_ok hexec _, hsound, s', hstate, hw'⟩

end Sequence

/-! ### When the new text is read -/

section Spelled

variable [LinearOrder μ] [DecidableEq β]

/-- **Text edits are accepted, and the new text is read exactly if the edit is aligned** with the
elements: on rich text over any of the kernels, and on the embedded-chain RGA. The replica shows a
document again, whose ids are below the next id of the mint. -/
theorem textEdit_spells_iff [LinearOrder γ] :
    (∀ (k : TextRGA) (H : ContentHash (makePeritext (k.kernel JsString) μ β).Op
        (makePeritext (k.kernel JsString) μ β).Print γ)
      (r : Replica (makePeritext (k.kernel JsString) μ β) γ) (n : ℕ) (doc : Doc JsString)
      (newText : JsString) (mint : ℕ → ℕ),
      Holds k H r n doc → StrictMono mint → n ≤ mint 0 → ∃ ops r' doc' c,
        Effect.exec (typeEdit k H newText mint) r = (.ok ops, r') ∧ Holds k H r' (mint c) doc' ∧
        ∀ P X I S, Change doc.joined newText P X I S →
          (readText r' = .ok newText ↔ Aligned (doc.map Prod.snd) P X I S)) ∧
    ∀ (H : ContentHash (embedRGA JsString).Op (embedRGA JsString).Print γ)
      (r : Replica (embedRGA JsString) γ) (n : ℕ) (doc : Doc JsString) (newText : JsString)
      (mint : ℕ → ℕ), HoldsSeq H r n doc → StrictMono mint → n ≤ mint 0 → ∃ counts r' doc' c,
        Effect.exec (applyTextEdit H doc.ids doc.joined newText mint) r = (.ok counts, r') ∧
        HoldsSeq H r' (mint c) doc' ∧ ∀ P X I S, Change doc.joined newText P X I S →
          (joinedRead r' = .ok newText ↔ Aligned (doc.map Prod.snd) P X I S) := by
  constructor
  · intro k H r n doc newText mint h hmint hn
    obtain ⟨s, -, -, hw⟩ := h.head
    obtain ⟨-, -, c, hel⟩ := h.bounded.editOps hmint hn hw.pos newText
    obtain ⟨ops, r', hexec, h'⟩ := h.typeEdit hmint hn newText (hn.trans (hmint.monotone (Nat.zero_le c)))
      fun id el a hop => (hel id el a hop).2
    refine ⟨ops, r', _, c, hexec, h', fun P X I S hchange => ?_⟩
    rw [h'.readText_eq, Except.ok.injEq]
    exact h.bounded.joined_edit_iff hmint hn hchange
  · intro H r n doc newText mint h hmint hn
    obtain ⟨s, -, hw⟩ := h.head
    obtain ⟨-, -, c, hel⟩ := h.bounded.editOps hmint hn hw.pos newText
    obtain ⟨counts, r', hexec, h'⟩ := h.applyTextEdit hmint hn newText
      (hn.trans (hmint.monotone (Nat.zero_le c))) fun id el a hop => (hel id el a hop).2
    refine ⟨counts, r', _, c, hexec, h', fun P X I S hchange => ?_⟩
    rw [h'.joinedRead_eq, Except.ok.injEq]
    exact h.bounded.joined_edit_iff hmint hn hchange

end Spelled

/-! ### A smiley in front of a letter -/

instance instCountableUInt16 : Countable UInt16 :=
  Function.Injective.countable (f := UInt16.toNat) fun _ _ h => UInt16.toNat_inj.mp h

deriving instance Countable for Insertion, Side, MarkOp, RichOp, Mark

open Classical in
/-- A hash for rich text. -/
noncomputable def smileyHash :
    ContentHash (makePeritext (TextRGA.embedRGA.kernel JsString) String String).Op
      (makePeritext (TextRGA.embedRGA.kernel JsString) String String).Print ℕ :=
  (.ofTable [] : ContentHash (RichOp (Insertion JsString) String String)
    (List (ℕ × List Bool × JsString) × List ℕ × List (Mark String String)) ℕ)

/-- A hash for the embedded-chain RGA. -/
noncomputable def smileySeqHash :
    ContentHash (embedRGA JsString).Op (embedRGA JsString).Print ℕ := .ofTable []

/-- The smiley U+1F600. -/
def smiley : JsString := [0xD83D, 0xDE00]

/-- The smiley and a letter. -/
def smileyX : Doc JsString := [(1, smiley), (2, [0x78])]

/-- The operations that type the text, and the document that they reach. -/
theorem editOps_smileyX :
    editOps .del Insertion.op [] [] smileyX.joined (· + 1) =
      [.ins 1 smiley none, .ins 2 [0x78] (some 1)] ∧
    (editOps .del Insertion.op [] [] smileyX.joined (· + 1)).foldl Doc.edit [] = smileyX := by
  decide

/-- The letter is not deleted: the position behind the two code units of the smiley has no id. -/
theorem editOps_smiley :
    editOps .del Insertion.op smileyX.ids smileyX.joined smiley (· + 3) = [.del 0] ∧
    (editOps .del Insertion.op smileyX.ids smileyX.joined smiley (· + 3)).foldl Doc.edit smileyX =
      smileyX := by
  decide

theorem strictMono_add (n : ℕ) : StrictMono (· + n) := fun _ _ hij => Nat.add_lt_add_right hij n

/-- A replica on which the smiley and the letter were typed. -/
theorem exists_holds_smileyX : ∃ r, Holds .embedRGA smileyHash r 3 smileyX := by
  obtain ⟨hops, hdoc⟩ := editOps_smileyX
  have hcreate := Holds.create .embedRGA smileyHash "a"
  obtain ⟨ops, r, -, h⟩ := hcreate.typeEdit (strictMono_add 1) (Nat.le_refl 1)
    smileyX.joined (m := 3) (by omega) fun id el a hop => by
      rw [show Doc.joined [] = [] from rfl, show Doc.ids ([] : Doc JsString) = [] from rfl, hops] at hop
      simp only [List.mem_cons, SeqOp.ins.injEq, List.not_mem_nil, or_false] at hop
      omega
  rw [show Doc.joined [] = [] from rfl, show Doc.ids ([] : Doc JsString) = [] from rfl, hdoc] at h
  exact ⟨r, h⟩

/-- **Deleting the letter behind the smiley** leaves the text as it is. -/
theorem typeEdit_smiley : ∃ r, Holds .embedRGA smileyHash r 3 smileyX ∧ ∃ ops r',
    Effect.exec (typeEdit .embedRGA smileyHash smiley (· + 3)) r = (.ok ops, r') ∧
      readText r' = .ok smileyX.joined ∧ readText r' ≠ .ok smiley := by
  obtain ⟨r, h⟩ := exists_holds_smileyX
  obtain ⟨hops, hdoc⟩ := editOps_smiley
  obtain ⟨ops, r', hexec, h'⟩ := h.typeEdit (strictMono_add 3) (Nat.le_refl 3) smiley
    (m := 3) (Nat.le_refl 3) fun id el a hop => by
      rw [hops, List.mem_singleton] at hop
      cases hop
  rw [hdoc] at h'
  refine ⟨r, h, ops, r', hexec, h'.readText_eq, ?_⟩
  rw [h'.readText_eq]
  exact fun heq => absurd (Except.ok.inj heq) (by decide)

/-- On a new replica the typed text is read. -/
theorem textEdit_spells_iff_smileyX :
    (∃ ops r', Effect.exec (typeEdit .embedRGA smileyHash smileyX.joined (· + 1))
        (create _ smileyHash "a") = (.ok ops, r') ∧ readText r' = .ok smileyX.joined) ∧
      ∃ counts r', Effect.exec (applyTextEdit smileySeqHash [] [] smileyX.joined (· + 1))
        (create _ smileySeqHash "a") = (.ok counts, r') ∧ joinedRead r' = .ok smileyX.joined := by
  have hchange : Change [] smileyX.joined [] [] smileyX.joined [] :=
    ⟨rfl, rfl, fun _ _ _ _ => nofun, fun _ _ t _ h =>
      absurd h.symm (List.append_ne_nil_of_right_ne_nil t (List.cons_ne_nil _ _))⟩
  have haligned : Aligned [] [] [] smileyX.joined [] := Or.inl ⟨Nat.le_refl 0, by simp⟩
  obtain ⟨hrich, hseq⟩ := textEdit_spells_iff (μ := String) (β := String) (γ := ℕ)
  obtain ⟨ops, r', -, -, hexec, -, hiff⟩ := hrich .embedRGA smileyHash _ 1 [] smileyX.joined (· + 1)
    (Holds.create .embedRGA smileyHash "a") (strictMono_add 1) (Nat.le_refl 1)
  obtain ⟨counts, r'', -, -, hexec', -, hiff'⟩ := hseq smileySeqHash _ 1 [] smileyX.joined (· + 1)
    (HoldsSeq.create smileySeqHash "a") (strictMono_add 1) (Nat.le_refl 1)
  exact ⟨⟨ops, r', hexec, (hiff _ _ _ _ hchange).mpr haligned⟩,
    counts, r'', hexec', (hiff' _ _ _ _ hchange).mpr haligned⟩

end SalRuntime
