import SalRuntime.Editor.Gestures

/-!
# Does the mint outrank the document?

The mint of the editor is meant to give ids above all others, so that a new mark wins over the marks it
is put on. But it only looks at its own clock and at the characters that are shown. An id that is not
shown, of a deleted character or of a mark, escapes it: after a merge with another replica, after the
newest characters were deleted, and after a reload, which sets the clock back.

## Main definitions

* `RichEditor.Outranks` — the ids of the mint are above all ids of the document.
* `RichEditor.Effective` — gestures restyle what is selected.
* `RichEditor.Covered` — the clock or a character that is shown keeps the mint above an id.
* `RichEditor.Safe`, `RichEditor.SafeRun` — a step leaves no id uncovered.

## Main results

* `RichEditor.mint_outranks_iff` — the mint outranks the document all along a run exactly if the steps
  are safe, and then gestures take effect.
* `RichEditor.mint_outranks_fails` — after a reload, taking off bold has no effect.
-/

namespace SalRuntime

open Peritext

/-- A character is shown. -/
def Visible (s : RichText.State) (id : ℕ) : Prop :=
  (TextRGA.embedRGA.kernel JsString).has s.shadow id = true ∧ s.deleted.has id = false

/-- The id is one of a deleted character or of a mark. -/
def Hidden (s : RichText.State) (id : ℕ) : Prop := Known s id ∧ ¬ Visible s id

/-- Every state is shown, with the visible characters. -/
theorem exists_renderDoc (s : RichText.State) :
    ∃ doc, renderDoc s = .ok doc ∧ ∀ id, Visible s id ↔ ∃ c ∈ doc, c.id = id := by
  obtain ⟨ctx, hctx, hsound, hhas, hdeleted⟩ := buildCtx_of_lists (lists_embedKernel s.shadow)
  refine ⟨_, renderDoc_eq hctx hsound, fun id => ?_⟩
  have hlive : Visible s id ↔ id ∈ ctx.live := by
    rw [hsound.mem_live_iff, ← hsound.hasBirth, hhas, hdeleted]
    rfl
  rw [hlive]
  simp only [List.mem_map, exists_exists_and_eq_and]
  exact ⟨fun h => ⟨id, h, rfl⟩, fun ⟨c, hc, heq⟩ => heq ▸ hc⟩

namespace RichEditor

variable {γ : Type} [LinearOrder γ] {H : ContentHash RichText.Op RichText.Print γ}
  {e e' : RichEditor γ} {doc : RichDoc} {s t : RichText.State}

/-- **The mint outranks the document**: what successive calls return is above the ids of all characters,
deleted or not, and of all marks. -/
def Outranks (e : RichEditor γ) : Prop :=
  ∀ s doc, e.specState = .ok s → e.curDoc = .ok doc → ∀ i id, Known s id → id < e.mints doc i

/-- **Gestures take effect**: the marks of a gesture restyle their ranges. -/
def Effective (H : ContentHash RichText.Op RichText.Print γ) (e : RichEditor γ) : Prop :=
  ∀ doc gesture start stop, e.curDoc = .ok doc → start < stop → stop ≤ doc.length →
    ∃ qs doc', Gesture.requests doc (e.mints doc 0) start stop gesture = .ok qs ∧
      (step H e (.format gesture start stop)).curDoc = .ok doc' ∧ RestyledAll qs doc doc'

/-! ### What the mint looks at -/

/-- The mint looks at a block of a thousand ids: that of the clock, or that of a visible character. -/
def Block (e : RichEditor γ) (s : RichText.State) (b : ℕ) : Prop :=
  b = e.lamport ∨ ∃ c, Visible s c ∧ b = c / 1000

/-- The id is below the id with the salt in the block after one that the mint looks at. -/
def Covered (e : RichEditor γ) (s : RichText.State) (id : ℕ) : Prop :=
  ∃ b, Block e s b ∧ id < (b + 1) * 1000 + e.salt

/-- A later block covers more. -/
theorem lt_of_block_le {a b id salt : ℕ} (hle : a ≤ b) (hlt : id < (a + 1) * 1000 + salt) :
    id < (b + 1) * 1000 + salt :=
  hlt.trans_le (Nat.add_le_add_right (Nat.mul_le_mul_right 1000 (Nat.succ_le_succ hle)) salt)

theorem curDoc_eq (hs : e.specState = .ok s) : e.curDoc = renderDoc s := by rw [curDoc, hs]; rfl

/-- **The covered ids** are those below the next id. -/
theorem covered_iff (hdoc : renderDoc s = .ok doc) {id : ℕ} :
    Covered e s id ↔ id < e.mints doc 0 := by
  obtain ⟨doc', hdoc', hvisible⟩ := exists_renderDoc s
  obtain rfl : doc' = doc := Except.ok.inj (hdoc'.symm.trans hdoc)
  have hmint : e.mints doc' 0 = (max e.lamport (newest doc' / 1000) + 1) * 1000 + e.salt := rfl
  rw [hmint]
  constructor
  · rintro ⟨b, rfl | ⟨c, hc, rfl⟩, hlt⟩
    · exact lt_of_block_le (le_max_left _ _) hlt
    · obtain ⟨c', hc', rfl⟩ := (hvisible c).mp hc
      exact lt_of_block_le ((Nat.div_le_div_right (le_newest hc')).trans (le_max_right _ _)) hlt
  · intro hlt
    rcases le_total (newest doc' / 1000) e.lamport with hle | hle
    · rw [max_eq_left hle] at hlt
      exact ⟨e.lamport, Or.inl rfl, hlt⟩
    · rw [max_eq_right hle] at hlt
      rcases newest_mem doc' with hzero | ⟨c, hc, heq⟩
      · rw [hzero, Nat.zero_div] at hle hlt
        exact ⟨e.lamport, Or.inl rfl, lt_of_block_le (Nat.zero_le _) hlt⟩
      · refine ⟨newest doc' / 1000, Or.inr ⟨c.id, (hvisible c.id).mpr ⟨c, hc, rfl⟩, ?_⟩, hlt⟩
        rw [heq]

/-- Visible characters are covered. -/
theorem covered_of_visible {id : ℕ} (h : Visible s id) : Covered e s id := by
  refine ⟨id / 1000, Or.inr ⟨id, h, rfl⟩, ?_⟩
  exact (Nat.lt_mul_of_div_lt (Nat.lt_succ_self _) (by decide)).trans_le (Nat.le_add_right _ _)

theorem outranks_iff : e.Outranks ↔ ∀ s, e.specState = .ok s → ∀ id, Hidden s id → Covered e s id := by
  constructor
  · intro h s hs id hid
    obtain ⟨doc, hdoc, -⟩ := exists_renderDoc s
    exact (covered_iff hdoc).mpr (h s doc hs ((curDoc_eq hs).trans hdoc) 0 id hid.1)
  · intro h s doc hs hdoc i id hid
    rw [curDoc_eq hs] at hdoc
    have hcovered : Covered e s id := by
      by_cases hvisible : Visible s id
      · exact covered_of_visible hvisible
      · exact h s hs id ⟨hid, hvisible⟩
    exact ((covered_iff hdoc).mp hcovered).trans_le ((e.mints_mono doc).monotone (Nat.zero_le i))

/-! ### Safe steps -/

/-- The page hides the id. -/
def Hides (e : RichEditor γ) (id : ℕ) : Prop := ∃ s, e.specState = .ok s ∧ Hidden s id

/-- The latest block that the mint looked at is gone. -/
def Falls (e e' : RichEditor γ) (s' : RichText.State) : Prop :=
  ∃ s b, e.specState = .ok s ∧ Block e s b ∧ ∀ b', Block e' s' b' → b' < b

/-- What the step hides is covered; and everything that is hidden, if the step takes away the latest
block. -/
def Steady (e e' : RichEditor γ) : Prop :=
  ∀ s', e'.specState = .ok s' → ∀ id, Hidden s' id → ¬ e.Hides id ∨ Falls e e' s' → Covered e' s' id

/-- Typing `newText` inserts characters. -/
def Inserts (e : RichEditor γ) (newText : JsString) : Prop :=
  ∃ doc, e.curDoc = .ok doc ∧ insertedIds (e.typed doc newText) ≠ []

/-- The step leaves no id uncovered. A step that mints is safe; a reload has to cover everything that is
hidden. -/
def Safe (H : ContentHash RichText.Op RichText.Print γ) (e : RichEditor γ) : Act γ → Prop
  | .edit newText => e.Inserts newText ∨ Steady e (step H e (.edit newText))
  | .format _ _ _ => True
  | .flush => Steady e (step H e .flush)
  | .node request => Steady e (step H e (.node request))
  | .reload salt name stored => ∀ s', (load H salt name stored).specState = .ok s' →
      ∀ id, Hidden s' id → Covered (load H salt name stored) s' id

/-- The steps are safe. -/
def SafeRun (H : ContentHash RichText.Op RichText.Print γ) : RichEditor γ → List (Act γ) → Prop
  | _, [] => True
  | e, act :: acts => Safe H e act ∧ SafeRun H (step H e act) acts

/-- **A steady step** keeps the mint above the document. -/
theorem Outranks.steady (h : e.Outranks) (hsalt : e'.salt = e.salt) (hsteady : Steady e e') :
    e'.Outranks := by
  rw [outranks_iff] at h ⊢
  intro s' hs' id hid
  by_cases hhides : e.Hides id
  · by_cases hfalls : Falls e e' s'
    · exact hsteady s' hs' id hid (Or.inr hfalls)
    · obtain ⟨s, hs, hhidden⟩ := hhides
      obtain ⟨b, hb, hlt⟩ := h s hs id hhidden
      -- A block that is as late is still there.
      obtain ⟨b', hb', hle⟩ : ∃ b', Block e' s' b' ∧ b ≤ b' := by
        by_contra hnone
        exact hfalls ⟨s, b, hs, hb, fun b' hb' => not_le.mp fun hle => hnone ⟨b', hb', hle⟩⟩
      refine ⟨b', hb', ?_⟩
      rw [hsalt]
      exact lt_of_block_le hle hlt
  · exact hsteady s' hs' id hid (Or.inl hhides)

/-- **A step that mints** puts the clock above everything: what is new has the minted ids. -/
theorem Outranks.minted (h : e.Outranks) (hs : e.specState = .ok s) (hdoc : e.curDoc = .ok doc) {n : ℕ}
    (hsalt : e'.salt = e.salt) (hclock : e'.lamport = e.clock doc (n + 1))
    (hknown : ∀ s', e'.specState = .ok s' → ∀ id, Known s' id →
      Known s id ∨ ∃ j < n + 1, id = e.mints doc j) : e'.Outranks := by
  rw [outranks_iff]
  intro s' hs' id hid
  have hle : id ≤ e.mints doc n := by
    rcases hknown s' hs' id hid.1 with hold | ⟨j, hj, rfl⟩
    · exact (h s doc hs hdoc n id hold).le
    · exact (e.mints_mono doc).monotone (Nat.lt_succ_iff.mp hj)
  refine ⟨e'.lamport, Or.inl rfl, ?_⟩
  rw [hclock, hsalt, Nat.add_mul]
  rw [mints] at hle
  omega

/-! ### Typing -/

omit [LinearOrder γ] in
/-- The characters after an insertion. -/
theorem has_of_apply {shadow shadow' : EmbedRGA.State JsString} {i : Insertion JsString}
    (h : EmbedRGA.apply shadow i.op = .ok shadow') {id : ℕ} (hid : shadow'.has id = true) :
    shadow.has id = true ∨ i.id = id := by
  obtain ⟨r, -, rfl⟩ := EmbedRGA.apply_ins_eq_ok_iff.mp h
  rw [SortedMap.has_insert, Bool.or_eq_true, decide_eq_true_iff] at hid
  rcases hid with rfl | hid
  · exact Or.inr rfl
  · exact Or.inl hid

/-- The ids of a state after an operation. -/
theorem known_of_apply {op : RichText.Op} (ht : Peritext.apply s op = .ok t) {id : ℕ}
    (hid : Known t id) : Known s id ∨ (∃ i, op = .ins i ∧ Insertion.id i = id) ∨
      ∃ m, op = .mark m ∧ m.mid = id := by
  cases op with
  | ins i =>
    obtain ⟨shadow, hshadow, rfl⟩ := apply_ins_eq_ok ht
    rcases hid with hid | hid
    · rcases has_of_apply hshadow hid with hhas | heq
      · exact Or.inl (Or.inl hhas)
      · exact Or.inr (Or.inl ⟨i, rfl, heq⟩)
    · exact Or.inl (Or.inr hid)
  | del id =>
    cases ht
    exact Or.inl hid
  | mark m =>
    cases ht
    rcases hid with hid | hid
    · exact Or.inl (Or.inl hid)
    · rw [SortedMap.has_insert, Bool.or_eq_true, decide_eq_true_iff] at hid
      rcases hid with rfl | hid
      · exact Or.inr (Or.inr ⟨m, rfl, rfl⟩)
      · exact Or.inl (Or.inr hid)

/-- **The operations of typing** delete, or insert with the minted ids. -/
theorem exists_of_mem_typed {newText : JsString} {op : RichText.Op} (hop : op ∈ e.typed doc newText) :
    (∃ id, op = .del id) ∨ ∃ i j, op = .ins i ∧ Insertion.id i = e.mints doc j ∧
      j < (insertedIds (e.typed doc newText)).length := by
  obtain ⟨dels, anchor, chs, heq⟩ : ∃ (dels : List ℕ) (anchor : Option ℕ) (chs : List JsString),
      e.typed doc newText =
        dels.map .del ++ (insertions (e.mints doc) 0 anchor chs).map .ins :=
    ⟨_, _, _, congrArg₂ (· ++ ·) (List.map_map ..).symm rfl⟩
  have hlength (i : ℕ) (anchor : Option ℕ) (chs : List JsString) :
      (insertions (e.mints doc) i anchor chs).length = chs.length := by
    induction chs generalizing i anchor with
    | nil => rfl
    | cons ch chs ih => rw [insertions, List.length_cons, List.length_cons, ih]
  have hids : insertedIds (e.typed doc newText) =
      (insertions (e.mints doc) 0 anchor chs).map Insertion.id := by
    have hdels : dels.filterMap (RichText.insId ∘ .del) = [] :=
      List.filterMap_eq_nil_iff.mpr fun _ _ => rfl
    have hins (is : List (Insertion JsString)) :
        (is.map (.ins : _ → RichText.Op)).filterMap RichText.insId = is.map Insertion.id := by
      induction is with
      | nil => rfl
      | cons i is ih => exact congrArg (i.id :: ·) ih
    rw [heq, insertedIds, List.filterMap_append, List.filterMap_map, hdels, List.nil_append]
    exact hins _
  rw [hids, List.length_map, hlength]
  rw [heq] at hop
  rcases List.mem_append.mp hop with hop | hop
  · obtain ⟨id, -, rfl⟩ := List.mem_map.mp hop
    exact Or.inl ⟨id, rfl⟩
  · obtain ⟨i, hi, rfl⟩ := List.mem_map.mp hop
    obtain ⟨-, j, -, hj, hid⟩ := Doc.mem_insertions hi
    exact Or.inr ⟨i, j, rfl, hid, by omega⟩

/-- The ids of a state after operations. -/
theorem known_of_foldlM {ops : List RichText.Op} (ht : ops.foldlM Peritext.apply s = .ok t) {id : ℕ}
    (hid : Known t id) : Known s id ∨ ∃ op ∈ ops,
      (∃ i, op = .ins i ∧ Insertion.id i = id) ∨ ∃ m, op = .mark m ∧ m.mid = id := by
  induction ops generalizing s with
  | nil =>
    cases ht
    exact Or.inl hid
  | cons op ops ih =>
    rw [List.foldlM_cons] at ht
    cases hnext : Peritext.apply s op with
    | error err =>
      rw [hnext] at ht
      cases ht
    | ok next =>
      rw [hnext] at ht
      rcases ih ht with hold | ⟨op', hop', hnew⟩
      · rcases known_of_apply hnext hold with hold | hnew
        · exact Or.inl hold
        · exact Or.inr ⟨op, List.mem_cons_self, hnew⟩
      · exact Or.inr ⟨op', List.mem_cons_of_mem _ hop', hnew⟩

/-- What is shown has a state. -/
theorem exists_specState (hdoc : e.curDoc = .ok doc) :
    ∃ s, e.specState = .ok s ∧ renderDoc s = .ok doc := by
  cases hs : e.specState with
  | error err =>
    rw [curDoc, hs] at hdoc
    cases hdoc
  | ok s => exact ⟨s, rfl, (curDoc_eq hs).symm.trans hdoc⟩

/-- **Typing that inserts** keeps the mint above the document. -/
theorem Outranks.edit (h : e.Outranks) {newText : JsString} (hinserts : e.Inserts newText) :
    (step H e (.edit newText)).Outranks := by
  obtain ⟨doc, hdoc, hne⟩ := hinserts
  obtain ⟨s, hs, -⟩ := exists_specState hdoc
  obtain ⟨n, hn⟩ := Nat.exists_eq_succ_of_ne_zero fun h => hne (List.length_eq_zero_iff.mp h)
  have hstep : step H e (.edit newText) = { e with
      lamport := e.clock doc (insertedIds (e.typed doc newText)).length
      pending := e.pending ++ e.typed doc newText } := by
    rw [step, RichEditor.edit, Effect.exec_bind_ok (Effect.exec_get e),
      Effect.exec_bind_ok (show Effect.exec (liftM e.curDoc) e = (.ok doc, e) by
        rw [Effect.exec_lift, hdoc])]
    rfl
  rw [hstep]
  refine h.minted hs hdoc rfl (congrArg (e.clock doc) hn) fun s' hs' id hid => ?_
  have hfold : (e.typed doc newText).foldlM Peritext.apply s = .ok s' := by
    rw [specState_eq] at hs hs'
    simp only [List.foldlM_append] at hs'
    cases hhead : e.node.headState with
    | error err =>
      rw [hhead] at hs
      cases hs
    | ok head =>
      rw [hhead] at hs hs'
      have hpending : e.pending.foldlM Peritext.apply head = .ok s := hs
      change (e.pending.foldlM Peritext.apply head >>= fun s => _) = _ at hs'
      rw [hpending] at hs'
      exact hs'
  rcases known_of_foldlM hfold hid with hold | ⟨op, hop, hnew⟩
  · exact Or.inl hold
  · rcases exists_of_mem_typed hop with ⟨del, rfl⟩ | ⟨i, j, rfl, hmint, hj⟩
    · rcases hnew with ⟨i, hi, -⟩ | ⟨m, hm, -⟩
      · cases hi
      · cases hm
    · rcases hnew with ⟨i', hi, rfl⟩ | ⟨m, hm, -⟩
      · cases hi
        exact Or.inr ⟨j, hj.trans_eq hn, hmint⟩
      · cases hm

/-! ### Gestures -/

/-- A gesture on a selection of what is shown, whose marks are known. -/
theorem exists_exec_format (hk : Kept H e) (hs : e.specState = .ok s) (hdoc : e.curDoc = .ok doc)
    {gesture : Gesture} {start stop : ℕ} (hlt : start < stop) {qs : List FormatRequest}
    (hqs : gesture.requests doc (e.mints doc 0) start stop = .ok qs) :
    ∃ n t, (formatAll (doc.map RenderedChar.id) (e.mints doc) gesture.minted qs).foldlM
        Peritext.apply s = .ok t ∧ (step H e (.format gesture start stop)).specState = .ok t ∧
      (step H e (.format gesture start stop)).salt = e.salt ∧
      (step H e (.format gesture start stop)).lamport = e.clock doc n ∧ (n = 0 → t = s) ∧
      ∀ id, Known t id → Known s id ∨ ∃ j < n, id = e.mints doc j := by
  set ops := formatAll (doc.map RenderedChar.id) (e.mints doc) gesture.minted qs with hops
  obtain ⟨t, ht, hshadow, -, hmarks⟩ := exists_foldlM_marks (fun op hop => by
    obtain ⟨m, -, hm, -⟩ := exists_of_mem_formatAll hop
    exact ⟨m, hm⟩) s
  obtain ⟨e', hexec, hspec, hsalt, hclock⟩ := exec_format hk.1 hs hdoc hlt hqs ht
  have hstep : step H e (.format gesture start stop) = e' := by rw [step, hexec]
  rw [hstep]
  refine ⟨gesture.minted + ops.length, t, ht, hspec, hsalt, hclock, fun hzero => ?_,
    fun id hid => ?_⟩
  · have hnil : ops = [] := List.length_eq_zero_iff.mp (by omega)
    rw [← hops, hnil] at ht
    exact (Except.ok.inj ht).symm
  · rcases hid with hid | hid
    · exact Or.inl (Or.inl (hshadow ▸ hid))
    · rcases hmarks id hid with hold | ⟨m, hm, rfl⟩
      · exact Or.inl (Or.inr hold)
      · obtain ⟨m', j, heq, hmid, -, hj⟩ := exists_of_mem_formatAll hm
        cases heq
        exact Or.inr ⟨j, hj, hmid⟩

/-- **Gestures** keep the mint above the document. -/
theorem Outranks.format (h : e.Outranks) (hk : Kept H e) (gesture : Gesture) (start stop : ℕ) :
    (step H e (.format gesture start stop)).Outranks := by
  by_cases hlt : start < stop
  · cases hdoc : e.curDoc with
    | error err =>
      have hsame : step H e (.format gesture start stop) = e := by
        rw [step, RichEditor.format, Effect.exec_bind_ok (Effect.exec_get e), if_pos hlt,
          Effect.exec_bind_error (show Effect.exec (liftM e.curDoc) e = (.error err, e) by
            rw [Effect.exec_lift, hdoc])]
      rwa [hsame]
    | ok doc =>
      obtain ⟨s, hs, -⟩ := exists_specState hdoc
      cases hqs : gesture.requests doc (e.mints doc 0) start stop with
      | error err =>
        have hsame : step H e (.format gesture start stop) = e := by
          rw [step, RichEditor.format, Effect.exec_bind_ok (Effect.exec_get e), if_pos hlt,
            Effect.exec_bind_ok (show Effect.exec (liftM e.curDoc) e = (.ok doc, e) by
              rw [Effect.exec_lift, hdoc]),
            Effect.exec_bind_error (show Effect.exec (liftM (gesture.requests doc (e.mints doc 0)
              start stop)) e = (.error err, e) by rw [Effect.exec_lift, hqs])]
        rwa [hsame]
      | ok qs =>
        obtain ⟨n, t, -, hspec, hsalt, hclock, hzero, hknown⟩ :=
          exists_exec_format hk hs hdoc hlt hqs
        cases n with
        | zero =>
          rw [outranks_iff] at h ⊢
          intro s' hs' id hid
          obtain rfl : t = s' := Except.ok.inj (hspec.symm.trans hs')
          obtain rfl := hzero rfl
          obtain ⟨b, hb, hlt⟩ := h t hs id hid
          refine ⟨b, ?_, hsalt ▸ hlt⟩
          rw [Block, hclock]
          exact hb
        | succ n =>
          refine h.minted hs hdoc hsalt hclock fun s' hs' id hid => ?_
          obtain rfl : t = s' := Except.ok.inj (hspec.symm.trans hs')
          exact hknown id hid
  · have hsame : step H e (.format gesture start stop) = e := by
      rw [step, RichEditor.format, Effect.exec_bind_ok (Effect.exec_get e), if_neg hlt]
      rfl
    rwa [hsame]

/-- **Gestures take effect** when the mint outranks the document. -/
theorem Outranks.effective (h : e.Outranks) (hk : Kept H e) : Effective H e := by
  intro doc gesture start stop hdoc hlt hle
  obtain ⟨s, hs, hread⟩ := exists_specState hdoc
  obtain ⟨qs, hqs, hvalid⟩ := gesture.exists_requests (e.mints doc 0) hlt hle
  obtain ⟨n, t, ht, hspec, -⟩ := exists_exec_format hk hs hdoc hlt hqs
  obtain ⟨t', doc', ht', hdoc', hall⟩ := exists_restyledAll (hk.filed hs) hread (e.mints_mono doc)
    (h s doc hs hdoc gesture.minted) hvalid
  obtain rfl : t = t' := Except.ok.inj (ht.symm.trans ht')
  exact ⟨qs, doc', hqs, (curDoc_eq hspec).trans hdoc', hall⟩

/-! ### Runs -/

/-- **A safe step** keeps the mint above the document. -/
theorem Outranks.step (h : e.Outranks) (hk : Kept H e) {act : Act γ} (hsafe : Safe H e act) :
    (step H e act).Outranks := by
  cases act with
  | edit newText =>
    rcases hsafe with hinserts | hsteady
    · exact h.edit hinserts
    · exact h.steady (salt_step _ nofun) hsteady
  | format gesture start stop => exact h.format hk gesture start stop
  | flush => exact h.steady (salt_step _ nofun) hsafe
  | node request => exact h.steady (salt_step _ nofun) hsafe
  | reload salt name stored => exact outranks_iff.mpr hsafe

/-- A step after which the mint outranks the document is safe. -/
theorem safe_of_outranks {act : Act γ} (h : (step H e act).Outranks) : Safe H e act := by
  rw [outranks_iff] at h
  cases act with
  | edit newText => exact Or.inr fun s' hs' id hid _ => h s' hs' id hid
  | format gesture start stop => trivial
  | flush => exact fun s' hs' id hid _ => h s' hs' id hid
  | node request => exact fun s' hs' id hid _ => h s' hs' id hid
  | reload salt name stored => exact h

/-- **A safe run** keeps the mint above the document. -/
theorem Outranks.run (h : e.Outranks) (hk : Kept H e) {acts : List (Act γ)}
    (hsafe : SafeRun H e acts) (k : ℕ) : (run H e (acts.take k)).Outranks := by
  induction acts generalizing e k with
  | nil => rwa [List.take_nil]
  | cons act acts ih =>
    cases k with
    | zero => exact h
    | succ k => exact ih (h.step hk hsafe.1) (hk.step act) hsafe.2 k

theorem safeRun_of_outranks {acts : List (Act γ)}
    (h : ∀ k, (run H e (acts.take k)).Outranks) : SafeRun H e acts := by
  induction acts generalizing e with
  | nil => trivial
  | cons act acts ih => exact ⟨safe_of_outranks (h 1), ih fun k => h (k + 1)⟩

/-- A new document has no ids. -/
theorem outranks_load (salt : Fin 1000) (name : String) : (load H salt name none).Outranks := by
  rw [outranks_iff]
  intro s hs id hid
  have hinit : (load H salt name none).specState = .ok Peritext.init := rfl
  obtain rfl := Except.ok.inj (hinit.symm.trans hs)
  rcases hid.1 with hhas | hhas
  · cases hhas
  · cases hhas

/-- **The mint outranks the document** in every state of a run exactly if the steps are safe: no merge,
reload or deletion leaves the id of a mark or of a deleted character in a block beyond those that the
mint looks at. Then every gesture takes effect. -/
theorem mint_outranks_iff (H : ContentHash RichText.Op RichText.Print γ) (salt : Fin 1000)
    (name : String) (acts : List (Act γ)) :
    (SafeRun H (load H salt name none) acts ↔
      ∀ k, (run H (load H salt name none) (acts.take k)).Outranks) ∧
    (SafeRun H (load H salt name none) acts →
      ∀ k, Effective H (run H (load H salt name none) (acts.take k))) := by
  have hk := kept_load (H := H) salt name none
  have hrun (hsafe : SafeRun H (load H salt name none) acts) (k : ℕ) :
      (run H (load H salt name none) (acts.take k)).Outranks :=
    (outranks_load salt name).run hk hsafe k
  exact ⟨⟨hrun, safeRun_of_outranks⟩, fun hsafe k => (hrun hsafe k).effective (hk.run _)⟩

section Reload

/-- Bold on the first letter, or off. -/
def boldOp (mid : ℕ) (removed : Bool) : RichText.Op :=
  .mark {
    removed, mid, mtype := "bold", value := none, startId := 1000, endId := 1000
    startSide := some .before, endSide := some .after, ts := some mid }

instance instCountableRichOp : Countable (RichOp (Insertion JsString) String String) := inferInstance

instance instCountableRichPrint :
    Countable (List (ℕ × List Bool × JsString) × List ℕ × List (Mark String String)) :=
  inferInstance

set_option synthInstance.maxSize 1000 in
/-- A hash for a letter that becomes bold, plain and bold again, and plain after a reload. -/
noncomputable def boldHash : ContentHash RichText.Op RichText.Print ℕ :=
  (.ofTable [.root, .authored [0] "a" 0 (.one (.ins ⟨1000, [0x61], none⟩)),
    .authored [1] "a" 1 (.one (boldOp 2000 false)), .authored [2] "a" 2 (.one (boldOp 3000 true)),
    .authored [3] "a" 3 (.one (boldOp 4000 false)),
    .authored [4] "a" 4 (.one (boldOp 2001 true))] :
    ContentHash (RichOp (Insertion JsString) String String)
      (List (ℕ × List Bool × JsString) × List ℕ × List (Mark String String)) ℕ)

/-- A letter is typed, and becomes bold, plain and bold again. -/
def boldActs : List (Act ℕ) :=
  [.edit [0x61], .format (.mark "bold") 0 1, .format (.mark "bold") 0 1, .format (.mark "bold") 0 1]

/-- The page with the bold letter, reloaded from its own records. -/
noncomputable def boldReload : Act ℕ :=
  .reload 1 "a" (run boldHash (load boldHash 0 "a" none) boldActs).node.nodeRecords.toOption

/-- The page after the reload. -/
noncomputable def reloaded : RichEditor ℕ :=
  run boldHash (load boldHash 0 "a" none) (boldActs ++ [boldReload])

/-- What the page shows: the letter, in bold. -/
def boldDoc : RichDoc := [{ id := 1000, char := some [0x61], marks := [("bold", none)] }]

/-- **Taking off bold has no effect** after the reload: the mark that takes it off has a smaller id than
the one that put it on. -/
theorem unbolded_eq :
    (reloaded.curDoc = .ok boldDoc ∧ reloaded.mints boldDoc 0 = 2001) ∧
    (reloaded.specState.toOption.any fun s => s.marks.has 4000) = true ∧
    Gesture.requests boldDoc 2001 0 1 (.mark "bold") =
      .ok [{ start := 0, stop := 1, mtype := "bold", opts := { remove := true } }] ∧
    (step boldHash reloaded (.format (.mark "bold") 0 1)).curDoc = .ok boldDoc := by
  decide +kernel

/-- **The mint does not outrank the document** after a reload, and a gesture has no effect. -/
theorem mint_outranks_fails :
    ¬ (run boldHash (load boldHash 0 "a" none) (boldActs ++ [boldReload])).Outranks ∧
    ¬ Effective boldHash (run boldHash (load boldHash 0 "a" none) (boldActs ++ [boldReload])) := by
  obtain ⟨⟨hdoc, hmint⟩, hmark, hrequests, hunbolded⟩ := unbolded_eq
  constructor
  · intro h
    obtain ⟨s, hs, hknown⟩ : ∃ s, reloaded.specState = .ok s ∧ Known s 4000 := by
      cases hs : reloaded.specState with
      | error err =>
        rw [hs] at hmark
        cases hmark
      | ok s =>
        rw [hs] at hmark
        exact ⟨s, rfl, Or.inr hmark⟩
    have hlt : 4000 < reloaded.mints boldDoc 0 := h s boldDoc hs hdoc 0 4000 hknown
    omega
  · intro h
    obtain ⟨qs, doc', hqs, hdoc', hall⟩ :=
      h boldDoc (.mark "bold") 0 1 hdoc Nat.zero_lt_one le_rfl
    rw [show Gesture.requests boldDoc _ 0 1 (.mark "bold") = _ from hmint ▸ hrequests] at hqs
    obtain rfl := Except.ok.inj hqs
    obtain rfl : boldDoc = doc' := Except.ok.inj (hunbolded.symm.trans hdoc')
    obtain ⟨next, hrestyled, rfl⟩ := hall
    obtain ⟨c, hc, -, -, hmarks⟩ := hrestyled.inside 0 _ le_rfl Nat.zero_lt_one rfl
    obtain rfl := Option.some.inj hc
    rcases (hmarks "bold" none).mp List.mem_cons_self with ⟨-, hadd, -⟩ | ⟨hne, -⟩
    · cases hadd
    · exact hne rfl

end Reload

end RichEditor

end SalRuntime
