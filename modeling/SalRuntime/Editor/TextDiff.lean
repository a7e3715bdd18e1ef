import SalRuntime.Datatypes.Peritext

/-!
# Text edits as insertions and deletions

The difference of `src/editbind.js` and `src/peritextbind.js`: what lies between the longest common
prefix and the longest common suffix of two strings is deleted, and what the new string has there is
inserted. The strings are compared by code units, but the ids of a document belong to characters, and
a character may have two code units.

## Main definitions

* `JsString`, `characters` — strings of code units, and their characters.
* `editOps` — the operations of a text edit.
* `Doc.edit` — what an operation does to the elements in reading order.
* `Change` — two strings with their longest common prefix and suffix.
* `Aligned` — the units that are kept and deleted are whole elements.

## Main results

* `Doc.run_editOps` — the elements after an edit.
* `Doc.Bounded.joined_edit_iff` — the elements spell the new string exactly if the edit is aligned.
-/

namespace SalRuntime

variable {α : Type}

/-! ### Strings -/

/-- A string: its UTF-16 code units. -/
abbrev JsString := List UInt16

/-- Is a code unit a high surrogate? -/
def isHigh (u : UInt16) : Bool := 0xD800 ≤ u && u ≤ 0xDBFF

/-- Is a code unit a low surrogate? -/
def isLow (u : UInt16) : Bool := 0xDC00 ≤ u && u ≤ 0xDFFF

/-- The characters that a loop over a string goes through: surrogate pairs, and single units. -/
def characters : JsString → List JsString
  | hi :: lo :: t =>
    if isHigh hi && isLow lo then [hi, lo] :: characters t else [hi] :: characters (lo :: t)
  | [u] => [[u]]
  | [] => []

/-- The number of leading units that two strings share. -/
def commonPrefix : JsString → JsString → ℕ
  | u :: t, v :: t' => if u = v then commonPrefix t t' + 1 else 0
  | _, _ => 0

/-- Insertions of characters, each after the one before. -/
def insertions (mint : ℕ → ℕ) : ℕ → Option ℕ → List JsString → List (Insertion JsString)
  | _, _, [] => []
  | i, anchor, ch :: chs =>
    { id := mint i, el := ch, anchorId := anchor } :: insertions mint (i + 1) (some (mint i)) chs

/-- The operations that edit `oldText`, shown under the ids, to `newText`. The id of a deletion
beyond the ids is `0`, which no element has; an anchor beyond them is the root. -/
def editOps {ω : Type} (del : ℕ → ω) (ins : Insertion JsString → ω) (ids : List ℕ)
    (oldText newText : JsString) (mint : ℕ → ℕ) : List ω :=
  let p := commonPrefix oldText newText
  let s := commonPrefix (oldText.drop p).reverse (newText.drop p).reverse
  let delCount := oldText.length - p - s
  let insStr := (newText.take (newText.length - s)).drop p
  -- The character to the left of the change.
  let anchor := if 0 < p then ids[p - 1]? else none
  (List.range delCount).map (fun i => del (ids.getD (p + i) 0)) ++
    (insertions mint 0 anchor (characters insStr)).map ins

/-! ### Documents -/

/-- Elements with their ids, in reading order. -/
abbrev Doc (α : Type) := List (ℕ × α)

namespace Doc

/-- The ids. -/
def ids (es : Doc α) : List ℕ := es.map Prod.fst

/-- Put an element right after an anchor, or at the front. -/
def place (e : ℕ × α) : Option ℕ → Doc α → Doc α
  | none, es => e :: es
  | some _, [] => []
  | some a, f :: es => if f.1 = a then f :: e :: es else f :: place e (some a) es

/-- Take an element out. -/
def remove (id : ℕ) (es : Doc α) : Doc α := es.filter fun e => e.1 ≠ id

/-- What an operation does to the elements. -/
def edit (es : Doc α) : SeqOp α → Doc α
  | .ins id el anchorId => place (id, el) anchorId es
  | .del id => remove id es

/-- The text of a document. -/
def joined (es : Doc JsString) : JsString := es.flatMap Prod.snd

/-- The mint counts upward from an id above those of the document. -/
structure Fresh (es : Doc α) (mint : ℕ → ℕ) : Prop where
  /-- The mint counts upward. -/
  mono : StrictMono mint
  /-- The ids of the document are smaller. -/
  lt : ∀ id ∈ es.ids, ∀ i, id < mint i

end Doc

/-! ### The change between two strings -/

/-- The old string is `P ++ X ++ S` and the new one is `P ++ I ++ S`, where `P` is the longest common
prefix, and `S` the longest common suffix of the rest. -/
structure Change (oldText newText P X I S : JsString) : Prop where
  /-- The old string. -/
  old_eq : oldText = P ++ (X ++ S)
  /-- The new string. -/
  new_eq : newText = P ++ (I ++ S)
  /-- The prefix ends where the strings differ. -/
  prefix_max : ∀ u v t t', X ++ S = u :: t → I ++ S = v :: t' → u ≠ v
  /-- The suffix starts where the strings differ. -/
  suffix_max : ∀ u v t t', X = t ++ [u] → I = t' ++ [v] → u ≠ v

/-- The edit is aligned with the elements: those in front of the change are single units, and so are
those that are deleted, unless nothing follows them. Where the common prefix has more units than there
are elements, the ids have run out: then the insertion lands at the front, and it only comes out right
if nothing is deleted and the insertion commutes with the prefix. -/
def Aligned (els : List JsString) (P X I S : JsString) : Prop :=
  P.length ≤ els.length ∧
      (∀ el ∈ els.take (if S = [] then P.length else P.length + X.length), el.length = 1) ∨
    els.length < P.length ∧ X = [] ∧ I ++ P = P ++ I

theorem commonPrefix_append (P : JsString) {A B : JsString}
    (h : ∀ u v t t', A = u :: t → B = v :: t' → u ≠ v) :
    commonPrefix (P ++ A) (P ++ B) = P.length := by
  induction P with
  | nil =>
    cases A with
    | nil => rfl
    | cons u t =>
      cases B with
      | nil => rfl
      | cons v t' => exact if_neg (h u v t t' rfl rfl)
  | cons u P ih =>
    rw [List.cons_append, List.cons_append, commonPrefix, if_pos rfl, ih, List.length_cons]

theorem exists_commonPrefix (A B : JsString) : ∃ P A' B', A = P ++ A' ∧ B = P ++ B' ∧
    ∀ u v t t', A' = u :: t → B' = v :: t' → u ≠ v := by
  induction A generalizing B with
  | nil => exact ⟨[], [], B, rfl, rfl, fun u v t t' h => by cases h⟩
  | cons a A ih =>
    cases B with
    | nil => exact ⟨[], a :: A, [], rfl, rfl, fun u v t t' _ h => by cases h⟩
    | cons b B =>
      by_cases hab : a = b
      · obtain ⟨P, A', B', rfl, rfl, hmax⟩ := ih B
        exact ⟨a :: P, A', B', rfl, by rw [hab]; rfl, hmax⟩
      · refine ⟨[], a :: A, b :: B, rfl, rfl, fun u v t t' hu hv => ?_⟩
        cases hu
        cases hv
        exact hab

/-- **Any two strings** have a change. -/
theorem exists_change (oldText newText : JsString) :
    ∃ P X I S, Change oldText newText P X I S := by
  obtain ⟨P, A, B, rfl, rfl, hmax⟩ := exists_commonPrefix oldText newText
  obtain ⟨S, X, I, hX, hI, hsuffix⟩ := exists_commonPrefix A.reverse B.reverse
  have hA : A = X.reverse ++ S.reverse := by rw [← List.reverse_append, ← hX, List.reverse_reverse]
  have hB : B = I.reverse ++ S.reverse := by rw [← List.reverse_append, ← hI, List.reverse_reverse]
  refine ⟨P, X.reverse, I.reverse, S.reverse, by rw [hA], by rw [hB], hA ▸ hB ▸ hmax,
    fun u v t t' hu hv => hsuffix u v t.reverse t'.reverse ?_ ?_⟩
  · rw [← List.reverse_reverse X, hu, List.reverse_append, List.reverse_singleton]
    rfl
  · rw [← List.reverse_reverse I, hv, List.reverse_append, List.reverse_singleton]
    rfl

section Change

variable {oldText newText P X I S : JsString} (h : Change oldText newText P X I S)

include h

theorem Change.commonPrefix_eq : commonPrefix oldText newText = P.length := by
  rw [h.old_eq, h.new_eq]
  exact commonPrefix_append P h.prefix_max

theorem Change.commonSuffix_eq :
    commonPrefix (oldText.drop P.length).reverse (newText.drop P.length).reverse = S.length := by
  rw [h.old_eq, h.new_eq, List.drop_left, List.drop_left, List.reverse_append, List.reverse_append,
    commonPrefix_append, List.length_reverse]
  intro u v t t' hu hv
  refine h.suffix_max u v t.reverse t'.reverse ?_ ?_
  · rw [← List.reverse_reverse X, hu, List.reverse_cons]
  · rw [← List.reverse_reverse I, hv, List.reverse_cons]

/-- The operations of an edit, by the change of the text. -/
theorem Change.editOps_eq {ω : Type} (del : ℕ → ω) (ins : Insertion JsString → ω) (ids : List ℕ)
    (mint : ℕ → ℕ) : editOps del ins ids oldText newText mint =
      (List.range X.length).map (fun i => del (ids.getD (P.length + i) 0)) ++
        (insertions mint 0 (if 0 < P.length then ids[P.length - 1]? else none)
          (characters I)).map ins := by
  have hdel : oldText.length - P.length - S.length = X.length := by
    rw [h.old_eq, List.length_append, List.length_append]
    omega
  have hins : (newText.take (newText.length - S.length)).drop P.length = I := by
    rw [h.new_eq, ← List.append_assoc, List.length_append, Nat.add_sub_cancel, List.take_left,
      List.drop_left]
  rw [editOps, h.commonPrefix_eq]
  simp only [h.commonSuffix_eq, hdel, hins]

end Change

theorem flatten_characters (t : JsString) : (characters t).flatten = t := by
  induction t using characters.induct with
  | case1 hi lo t hpair ih => rw [characters, if_pos hpair, List.flatten_cons, ih]; rfl
  | case2 hi lo t hpair ih => rw [characters, if_neg hpair, List.flatten_cons, ih]; rfl
  | case3 u => rfl
  | case4 => rfl

theorem ne_nil_of_mem_characters {t el : JsString} (h : el ∈ characters t) : el ≠ [] := by
  induction t using characters.induct with
  | case1 hi lo t hpair ih =>
    rw [characters, if_pos hpair] at h
    rcases List.mem_cons.mp h with rfl | h
    · exact List.cons_ne_nil _ _
    · exact ih h
  | case2 hi lo t hpair ih =>
    rw [characters, if_neg hpair] at h
    rcases List.mem_cons.mp h with rfl | h
    · exact List.cons_ne_nil _ _
    · exact ih h
  | case3 u =>
    rw [characters, List.mem_singleton] at h
    exact h ▸ List.cons_ne_nil _ _
  | case4 => cases h

/-! ### The elements after an edit -/

namespace Doc

/-- Operations that make sense one after the other: deletions always do, and an insertion has a new
largest id, which is at least `n`, and an anchor that is shown. -/
def Admits : ℕ → Doc α → List (SeqOp α) → Prop
  | _, _, [] => True
  | n, es, .del id :: ops => Admits n (es.remove id) ops
  | n, es, .ins id el anchorId :: ops =>
    n ≤ id ∧ (∀ a, anchorId = some a → a ∈ es.ids) ∧ Admits (id + 1) (es.place (id, el) anchorId) ops

/-- Characters with minted ids. -/
def minted (mint : ℕ → ℕ) : ℕ → List JsString → Doc JsString
  | _, [] => []
  | i, ch :: chs => (mint i, ch) :: minted mint (i + 1) chs

@[simp] theorem ids_append (A C : Doc α) : ids (A ++ C) = A.ids ++ C.ids := List.map_append

theorem mem_ids {es : Doc α} {e : ℕ × α} (he : e ∈ es) : e.1 ∈ es.ids := List.mem_map_of_mem he

theorem ids_minted (mint : ℕ → ℕ) (i : ℕ) (chs : List JsString) :
    ∀ id ∈ (minted mint i chs).ids, ∃ j, i ≤ j ∧ id = mint j := by
  induction chs generalizing i with
  | nil => exact fun id hid => by cases hid
  | cons ch chs ih =>
    intro id hid
    rcases List.mem_cons.mp hid with rfl | hid
    · exact ⟨i, Nat.le_refl i, rfl⟩
    · obtain ⟨j, hj, hid⟩ := ih (i + 1) id hid
      exact ⟨j, by omega, hid⟩

theorem map_snd_minted (mint : ℕ → ℕ) (i : ℕ) (chs : List JsString) :
    (minted mint i chs).map Prod.snd = chs := by
  induction chs generalizing i with
  | nil => rfl
  | cons ch chs ih => rw [minted, List.map_cons, ih]

theorem mem_insertions {mint : ℕ → ℕ} {i : ℕ} {anchor : Option ℕ} {chs : List JsString}
    {ins : Insertion JsString} (h : ins ∈ insertions mint i anchor chs) :
    ins.el ∈ chs ∧ ∃ j, i ≤ j ∧ j < i + chs.length ∧ ins.id = mint j := by
  induction chs generalizing i anchor with
  | nil => cases h
  | cons ch chs ih =>
    rcases List.mem_cons.mp h with rfl | h
    · exact ⟨List.mem_cons_self, i, Nat.le_refl i, by simp, rfl⟩
    · obtain ⟨hel, j, hij, hj, hid⟩ := ih h
      refine ⟨List.mem_cons_of_mem _ hel, j, by omega, ?_, hid⟩
      rw [List.length_cons]
      omega

/-- An element that is placed after another one. -/
theorem place_append (e : ℕ × α) {A : Doc α} {f : ℕ × α} (hf : f.1 ∉ A.ids) (C : Doc α) :
    place e (some f.1) (A ++ f :: C) = A ++ f :: e :: C := by
  induction A with
  | nil => exact if_pos rfl
  | cons a A ih =>
    rw [ids, List.map_cons, List.mem_cons, not_or] at hf
    rw [List.cons_append, place, if_neg (Ne.symm hf.1), ih hf.2]
    rfl

theorem place_concat (e : ℕ × α) {A C : Doc α} (hnodup : A.ids.Nodup) :
    place e (A.getLast?.map Prod.fst) (A ++ C) = A ++ e :: C := by
  rcases List.eq_nil_or_concat' A with rfl | ⟨A', f, rfl⟩
  · exact place.eq_1 e C
  · rw [List.getLast?_concat, Option.map_some, List.append_assoc, List.append_assoc]
    refine place_append e ?_ C
    rw [ids_append, ids, ids, List.map_singleton] at hnodup
    exact fun hmem => (List.nodup_append.mp hnodup).2.2 _ hmem _ (List.mem_singleton_self _) rfl

/-- **Insertions of characters** after the last element in front of them. -/
theorem run_insertions {mint : ℕ → ℕ} (hmint : StrictMono mint) {A C : Doc JsString} {i n : ℕ}
    (hn : n ≤ mint i) (hnodup : A.ids.Nodup) (hlt : ∀ id ∈ A.ids, id < mint i)
    (chs : List JsString) {anchor : Option ℕ} (hanchor : anchor = A.getLast?.map Prod.fst) :
    Admits n (A ++ C) ((insertions mint i anchor chs).map Insertion.op) ∧
      ((insertions mint i anchor chs).map Insertion.op).foldl edit (A ++ C) =
        A ++ minted mint i chs ++ C := by
  induction chs generalizing A i n anchor with
  | nil => exact ⟨trivial, by rw [minted, List.append_nil]; rfl⟩
  | cons ch chs ih =>
    have hplace : (A ++ C).place (mint i, ch) anchor = A ++ [(mint i, ch)] ++ C := by
      rw [hanchor, place_concat _ hnodup, List.append_assoc]
      rfl
    have hids : (A ++ [(mint i, ch)]).ids = A.ids ++ [mint i] := ids_append ..
    have hnext : mint i < mint (i + 1) := hmint (Nat.lt_succ_self i)
    have hnodup' : (A ++ [(mint i, ch)]).ids.Nodup := by
      rw [hids]
      refine List.nodup_append.mpr ⟨hnodup, List.nodup_singleton _, fun a ha b hb => ?_⟩
      rw [List.mem_singleton.mp hb]
      exact (hlt a ha).ne
    have hlt' : ∀ id ∈ (A ++ [(mint i, ch)]).ids, id < mint (i + 1) := by
      rw [hids]
      intro id hid
      rcases List.mem_append.mp hid with hid | hid
      · exact (hlt id hid).trans hnext
      · rw [List.mem_singleton.mp hid]
        exact hnext
    have hanchor' : some (mint i) = (A ++ [(mint i, ch)]).getLast?.map Prod.fst := by
      rw [List.getLast?_concat]
      rfl
    obtain ⟨hadmits, hfold⟩ := ih hnext hnodup' hlt' hanchor'
    refine ⟨⟨hn, fun a ha => ?_, hplace ▸ hadmits⟩, ?_⟩
    · rw [hanchor] at ha
      obtain ⟨e, he, rfl⟩ := Option.map_eq_some_iff.mp ha
      exact mem_ids (List.mem_append_left _ (List.mem_of_getLast? he))
    · rw [insertions, List.map_cons, List.foldl_cons, show edit (A ++ C) (Insertion.op
        { id := mint i, el := ch, anchorId := anchor }) = _ from hplace, hfold, minted]
      simp

theorem run_deletions (n : ℕ) (es : Doc α) (ids : List ℕ) (ops : List (SeqOp α)) :
    (Admits n es (ids.map SeqOp.del ++ ops) ↔
      Admits n (es.filter fun e => e.1 ∉ ids) ops) ∧
    (ids.map SeqOp.del ++ ops).foldl edit es = ops.foldl edit (es.filter fun e => e.1 ∉ ids) := by
  induction ids generalizing es with
  | nil => simp
  | cons id ids ih =>
    have hfilter : (es.remove id).filter (fun e => e.1 ∉ ids) = es.filter fun e => e.1 ∉ id :: ids := by
      rw [remove, List.filter_filter]
      refine List.filter_congr fun e _ => ?_
      simp only [List.mem_cons, not_or, Bool.decide_and]
      exact Bool.and_comm ..
    obtain ⟨hadmits, hfold⟩ := ih (es.remove id)
    rw [hfilter] at hadmits hfold
    exact ⟨hadmits, hfold⟩

/-- The ids at the positions of a range. -/
theorem mem_idsAt {ids : List ℕ} {p d id : ℕ} (hid : id ≠ 0) :
    id ∈ (List.range d).map (fun i => ids.getD (p + i) 0) ↔ id ∈ (ids.drop p).take d := by
  rw [List.mem_map, List.mem_take_iff_getElem]
  constructor
  · rintro ⟨i, hi, rfl⟩
    have hlen : p + i < ids.length := by
      by_contra hge
      exact hid (List.getD_eq_default _ _ (not_lt.mp hge))
    refine ⟨i, ?_, ?_⟩
    · rw [List.length_drop]
      have := List.mem_range.mp hi
      omega
    · rw [List.getElem_drop, List.getD_eq_getElem _ _ hlen]
  · rintro ⟨i, hi, rfl⟩
    rw [List.length_drop] at hi
    refine ⟨i, List.mem_range.mpr (by omega), ?_⟩
    rw [List.getElem_drop, List.getD_eq_getElem]

/-- What is left without the elements at the positions of a range. -/
theorem filter_idsAt {es : Doc α} (hnodup : es.ids.Nodup) (hpos : 0 ∉ es.ids) (p d : ℕ) :
    (es.filter fun e => e.1 ∉ (List.range d).map fun i => es.ids.getD (p + i) 0) =
      es.take p ++ es.drop (p + d) := by
  have hsplit : es = es.take p ++ ((es.drop p).take d ++ es.drop (p + d)) := by
    rw [← List.drop_drop, List.take_append_drop, List.take_append_drop]
  have hmid : (es.ids.drop p).take d = ids ((es.drop p).take d) := by
    rw [ids, ids, List.map_take, List.map_drop]
  have hfilter : (es.filter fun e => e.1 ∉ (List.range d).map fun i => es.ids.getD (p + i) 0) =
      es.filter fun e => e.1 ∉ ids ((es.drop p).take d) := by
    refine List.filter_congr fun e he => ?_
    rw [decide_eq_decide, not_iff_not, ← hmid]
    exact mem_idsAt fun hzero => hpos (hzero ▸ mem_ids he)
  rw [hfilter]
  generalize (es.drop p).take d = M at hsplit
  have hparts := hnodup
  rw [hsplit, ids_append, ids_append, List.nodup_append, List.nodup_append] at hparts
  obtain ⟨-, ⟨-, -, hrest⟩, hfront⟩ := hparts
  conv_lhs => rw [hsplit]
  rw [List.filter_append, List.filter_append, List.filter_eq_self.mpr, List.filter_eq_nil_iff.mpr,
    List.filter_eq_self.mpr, List.nil_append]
  · intro e he
    rw [decide_eq_true_eq]
    exact fun hin => hrest _ hin _ (mem_ids he) rfl
  · intro e he
    rw [decide_eq_true_eq, not_not]
    exact mem_ids he
  · intro e he
    rw [decide_eq_true_eq]
    exact fun hin => hfront _ (mem_ids he) _ (List.mem_append_left _ hin) rfl

/-- **The elements after an edit.** -/
theorem run_editOps {es : Doc JsString} {mint : ℕ → ℕ} {newText P X I S : JsString}
    (h : Change es.joined newText P X I S) (hnodup : es.ids.Nodup) (hpos : 0 ∉ es.ids)
    (hfresh : es.Fresh mint) {n : ℕ} (hn : n ≤ mint 0) :
    Admits n es (editOps .del Insertion.op es.ids es.joined newText mint) ∧
      (editOps .del Insertion.op es.ids es.joined newText mint).foldl edit es =
        if P.length ≤ es.length then
          es.take P.length ++ minted mint 0 (characters I) ++ es.drop (P.length + X.length)
        else minted mint 0 (characters I) ++ es := by
  have hdels : (List.range X.length).map (fun i => SeqOp.del (es.ids.getD (P.length + i) 0)) =
      ((List.range X.length).map fun i => es.ids.getD (P.length + i) 0).map
        (SeqOp.del : ℕ → SeqOp JsString) := by
    rw [List.map_map]
    rfl
  rw [h.editOps_eq, hdels]
  obtain ⟨hadmits, hfold⟩ := run_deletions n es
    ((List.range X.length).map fun i => es.ids.getD (P.length + i) 0)
    ((insertions mint 0 (if 0 < P.length then es.ids[P.length - 1]? else none)
      (characters I)).map Insertion.op)
  rw [hadmits, hfold, filter_idsAt hnodup hpos]
  have hlength : es.ids.length = es.length := List.length_map ..
  by_cases hle : P.length ≤ es.length
  · rw [if_pos hle]
    have hsub : (ids (es.take P.length)).Sublist es.ids := (List.take_sublist ..).map _
    refine run_insertions hfresh.mono hn (hsub.nodup hnodup)
      (fun id hid => hfresh.lt id (hsub.subset hid) 0) _ ?_
    split_ifs with hpos
    · rw [List.getLast?_take, if_neg (by omega), ids, List.getElem?_map,
        List.getElem?_eq_getElem (by omega)]
      rfl
    · rw [show P.length = 0 by omega]
      rfl
  · -- The ids have run out: nothing is deleted, and the anchor is the root.
    rw [if_neg hle, List.take_of_length_le (by omega), List.drop_eq_nil_of_le (by omega),
      List.append_nil, List.getElem?_eq_none (by omega), ite_self]
    exact run_insertions (A := []) (C := es) hfresh.mono hn List.nodup_nil
      (fun id hid => by cases hid) _ rfl

/-! ### The text after an edit -/

/-- Elements that are not empty have at least as many units as there are elements. -/
theorem length_le_length_flatten {els : List JsString} (h : ∀ el ∈ els, el ≠ []) :
    els.length ≤ els.flatten.length ∧
      (els.flatten.length = els.length ↔ ∀ el ∈ els, el.length = 1) := by
  induction els with
  | nil => simp
  | cons el els ih =>
    obtain ⟨hle, hiff⟩ := ih fun e he => h e (List.mem_cons_of_mem _ he)
    have hpos := List.length_pos_iff.mpr (h el List.mem_cons_self)
    rw [List.flatten_cons, List.length_append, List.length_cons, List.forall_mem_cons, ← hiff]
    omega

/-- **Single units** in front of a text are its first units. -/
theorem flatten_take_eq {els : List JsString} {A B : JsString} (h : els.flatten = A ++ B)
    (hle : A.length ≤ els.length) (hsingle : ∀ el ∈ els.take A.length, el.length = 1) :
    (els.take A.length).flatten = A ∧ (els.drop A.length).flatten = B := by
  rw [← List.take_append_drop A.length els, List.flatten_append] at h
  refine List.append_inj h ?_
  have hne : ∀ el ∈ els.take A.length, el ≠ [] := fun el hel hnil => by
    have := hsingle el hel
    rw [hnil] at this
    cases this
  rw [(length_le_length_flatten hne).2.mpr hsingle, List.length_take, Nat.min_eq_left hle]

/-- **The text after an edit** is the new one exactly if the edit is aligned. -/
theorem flatten_edit_iff {els : List JsString} {newText P X I S : JsString}
    (h : Change els.flatten newText P X I S) (hne : ∀ el ∈ els, el ≠ []) :
    (if P.length ≤ els.length then
        (els.take P.length).flatten ++ I ++ (els.drop (P.length + X.length)).flatten
      else I ++ els.flatten) = newText ↔ Aligned els P X I S := by
  have hlen : els.length ≤ P.length + (X.length + S.length) := by
    have := (length_le_length_flatten hne).1
    rwa [h.old_eq, List.length_append, List.length_append] at this
  rw [h.new_eq, Aligned]
  by_cases hle : P.length ≤ els.length
  · rw [if_pos hle, or_iff_left (fun hcon => absurd hcon.1 (by omega)), and_iff_right hle]
    constructor
    · intro heq
      have htake : ∀ el ∈ els.take P.length, el ≠ [] := fun el hel => hne el (List.mem_of_mem_take hel)
      have hsplit : (els.take P.length).flatten ++ (els.drop P.length).flatten = P ++ (X ++ S) := by
        rw [← List.flatten_append, List.take_append_drop, h.old_eq]
      have hplen : P.length ≤ (els.take P.length).flatten.length := by
        have := (length_le_length_flatten htake).1
        rwa [List.length_take, Nat.min_eq_left hle] at this
      -- The first elements start with the prefix; a rest of them would prolong it.
      obtain ⟨W, hW, hrest⟩ : ∃ W, (els.take P.length).flatten = P ++ W ∧
          X ++ S = W ++ (els.drop P.length).flatten := by
        rcases List.append_eq_append_iff.mp hsplit with ⟨W, hP, hW⟩ | ⟨W, hP, hW⟩
        · have hnil : W = [] := by
            have := congrArg List.length hP
            rw [List.length_append] at this
            exact List.length_eq_zero_iff.mp (by omega)
          subst hnil
          rw [List.append_nil] at hP
          exact ⟨[], by rw [List.append_nil]; exact hP.symm, hW.symm⟩
        · exact ⟨W, hP, hW⟩
      rw [hW, List.append_assoc, List.append_assoc] at heq
      have heq := List.append_cancel_left heq
      have hWnil : W = [] := by
        cases W with
        | nil => rfl
        | cons u W => exact absurd rfl (h.prefix_max u u _ _ hrest heq.symm)
      subst hWnil
      rw [List.append_nil] at hW
      rw [List.nil_append] at heq hrest
      have hS := List.append_cancel_left heq
      have hfirst : ∀ el ∈ els.take P.length, el.length = 1 := by
        rw [← (length_le_length_flatten htake).2, hW, List.length_take, Nat.min_eq_left hle]
      split_ifs with hnil
      · exact hfirst
      · have hmid : ((els.drop P.length).take X.length).flatten = X := by
          have hdrop : (els.drop P.length).flatten = ((els.drop P.length).take X.length).flatten ++
              (els.drop (P.length + X.length)).flatten := by
            rw [← List.drop_drop, ← List.flatten_append, List.take_append_drop]
          rw [hdrop, hS] at hrest
          exact (List.append_cancel_right hrest).symm
        have hlong : P.length + X.length < els.length := by
          by_contra hge
          rw [List.drop_eq_nil_of_le (not_lt.mp hge)] at hS
          exact hnil hS.symm
        have hmidne : ∀ el ∈ (els.drop P.length).take X.length, el ≠ [] := fun el hel =>
          hne el (List.mem_of_mem_drop (List.mem_of_mem_take hel))
        have hsecond : ∀ el ∈ (els.drop P.length).take X.length, el.length = 1 := by
          rw [← (length_le_length_flatten hmidne).2, hmid, List.length_take, List.length_drop]
          omega
        intro el hel
        rw [List.take_add, List.mem_append] at hel
        exact hel.elim (hfirst el) (hsecond el)
    · intro hsingle
      split_ifs at hsingle with hnil
      · obtain ⟨hP, -⟩ := flatten_take_eq h.old_eq hle hsingle
        rw [hnil, List.length_nil] at hlen
        rw [hP, hnil, List.drop_eq_nil_of_le (by omega), List.append_assoc]
        rfl
      · have hlong : P.length + X.length ≤ els.length := by
          by_contra hlt
          rw [List.take_of_length_le (by omega)] at hsingle
          have := (length_le_length_flatten hne).2.mpr hsingle
          rw [h.old_eq, List.length_append, List.length_append] at this
          omega
        have hfirst : ∀ el ∈ els.take P.length, el.length = 1 := fun el hel =>
          hsingle el (by rw [List.take_add]; exact List.mem_append_left _ hel)
        obtain ⟨hP, -⟩ := flatten_take_eq h.old_eq hle hfirst
        have hold : els.flatten = (P ++ X) ++ S := by rw [h.old_eq, List.append_assoc]
        rw [← List.length_append] at hlong hsingle
        obtain ⟨-, hS⟩ := flatten_take_eq hold hlong hsingle
        rw [hP, ← List.length_append, hS, List.append_assoc]
  · rw [if_neg hle, or_iff_right (fun hcon => hle hcon.1), and_iff_right (by omega), h.old_eq]
    constructor
    · intro heq
      have hX : X = [] := by
        have := congrArg List.length heq
        simp only [List.length_append] at this
        exact List.length_eq_zero_iff.mp (by omega)
      subst hX
      rw [List.nil_append, ← List.append_assoc, ← List.append_assoc] at heq
      exact ⟨rfl, List.append_cancel_right heq⟩
    · rintro ⟨rfl, hcomm⟩
      rw [List.nil_append, ← List.append_assoc, ← List.append_assoc, hcomm]

/-- The ids are positive, listed once and below `n`, and the elements are not empty. -/
structure Bounded (n : ℕ) (es : Doc JsString) : Prop where
  /-- The ids are listed once. -/
  nodup : es.ids.Nodup
  /-- The ids are positive. -/
  pos : ∀ e ∈ es, 0 < e.1
  /-- The ids are below the bound. -/
  lt : ∀ e ∈ es, e.1 < n
  /-- The elements are not empty. -/
  ne_nil : ∀ e ∈ es, e.2 ≠ []

section Bounded

variable {es : Doc JsString} {n : ℕ} (h : es.Bounded n) {mint : ℕ → ℕ} (hmint : StrictMono mint)
  (hn : n ≤ mint 0)

include h

theorem Bounded.zero_notMem : 0 ∉ es.ids := by
  intro hid
  obtain ⟨e, he, heq⟩ := List.mem_map.mp hid
  exact (h.pos e he).ne' heq

include hmint hn

theorem Bounded.fresh : es.Fresh mint where
  mono := hmint
  lt id hid i := by
    obtain ⟨e, he, rfl⟩ := List.mem_map.mp hid
    exact (h.lt e he).trans_le (hn.trans (hmint.monotone (Nat.zero_le i)))

/-- **The operations of an edit** make sense: the deleted ids are below the bound, and the inserted
elements are not empty, under minted ids. -/
theorem Bounded.editOps (hpos : 0 < n) (newText : JsString) :
    Admits n es (editOps .del Insertion.op es.ids es.joined newText mint) ∧
      (∀ id, SeqOp.del id ∈ SalRuntime.editOps .del Insertion.op es.ids es.joined newText mint →
        id < n) ∧
      ∃ c, ∀ id el a, SeqOp.ins id el a ∈
        SalRuntime.editOps .del Insertion.op es.ids es.joined newText mint → el ≠ [] ∧ id < mint c := by
  obtain ⟨P, X, I, S, hchange⟩ := exists_change es.joined newText
  refine ⟨(run_editOps hchange h.nodup h.zero_notMem (h.fresh hmint hn) hn).1, fun id hid => ?_,
    (characters I).length, fun id el a hop => ?_⟩
  · rw [hchange.editOps_eq, List.mem_append] at hid
    rcases hid with hid | hid
    · obtain ⟨i, -, heq⟩ := List.mem_map.mp hid
      cases heq
      by_cases hlen : P.length + i < es.ids.length
      · rw [List.getD_eq_getElem _ _ hlen]
        obtain ⟨e, he, heq⟩ := List.mem_map.mp (List.getElem_mem hlen)
        exact heq ▸ h.lt e he
      · rw [List.getD_eq_default _ _ (not_lt.mp hlen)]
        exact hpos
    · obtain ⟨i, -, heq⟩ := List.mem_map.mp hid
      cases heq
  · rw [hchange.editOps_eq, List.mem_append] at hop
    rcases hop with hop | hop
    · obtain ⟨i, -, heq⟩ := List.mem_map.mp hop
      cases heq
    · obtain ⟨i, hi, heq⟩ := List.mem_map.mp hop
      cases heq
      obtain ⟨hel, j, -, hj, hid⟩ := mem_insertions hi
      exact ⟨ne_nil_of_mem_characters hel, hid ▸ hmint (by omega)⟩

/-- **The document after an edit** spells the new text exactly if the edit is aligned. -/
theorem Bounded.joined_edit_iff {newText P X I S : JsString} (hchange : Change es.joined newText P X I S) :
    joined ((SalRuntime.editOps .del Insertion.op es.ids es.joined newText mint).foldl edit es) =
      newText ↔ Aligned (es.map Prod.snd) P X I S := by
  have hflatten : Change (es.map Prod.snd).flatten newText P X I S := by
    rwa [← List.flatMap_def]
  have hels : ∀ el ∈ es.map Prod.snd, el ≠ [] := List.forall_mem_map.mpr h.ne_nil
  have hjoined (A : Doc JsString) : joined A = (A.map Prod.snd).flatten := List.flatMap_def ..
  have hminted : joined (minted mint 0 (characters I)) = I := by
    rw [hjoined, map_snd_minted, flatten_characters]
  rw [(run_editOps hchange h.nodup h.zero_notMem (h.fresh hmint hn) hn).2,
    ← flatten_edit_iff hflatten hels, List.length_map]
  have happend (A C : Doc JsString) : joined (A ++ C) = joined A ++ joined C := List.flatMap_append
  split_ifs
  · rw [happend, happend, hminted, hjoined, hjoined, List.map_take, List.map_drop]
  · rw [happend, hminted, hjoined]

end Bounded

end Doc

end SalRuntime
