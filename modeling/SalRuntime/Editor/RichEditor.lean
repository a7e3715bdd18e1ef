import SalRuntime.Editor.FormatOps
import SalRuntime.Editor.TextEdits
import SalRuntime.Persistence.StateInvariant

/-!
# The rich-text editor

The page of `web/richtext.js` around a replica of rich text. Typed operations wait in a buffer and are
shown before they are committed. A format gesture seals the buffer first and is committed at once. The
ids of characters and marks are minted from a clock, which looks at the characters that are shown.

## Main definitions

* `RichEditor`, `RichEditor.specState`, `RichEditor.curDoc` — the page, and what it shows.
* `RichEditor.mint`, `RichEditor.mints` — the next id, and the ids of successive calls.
* `Gesture`, `Gesture.requests`, `formatAll` — the gestures on a selection.
* `RichEditor.Act`, `RichEditor.step`, `RichEditor.run` — what happens to the page, and runs.

## Main results

* `RichEditor.exec_mint`, `RichEditor.mints_succ` — successive calls of the mint.
* `RichEditor.exec_flush`, `RichEditor.exec_format` — what sealing the buffer and a gesture commit.
* `RichEditor.Kept.run` — marks are filed under their ids, in every run.
-/

namespace SalRuntime

open Peritext

/-- The rich text of the editor. -/
@[reducible] def RichText : Datatype := makePeritext (TextRGA.embedRGA.kernel JsString) String String

/-- What the page shows. -/
abbrev RichDoc := List (RenderedChar JsString String String)

/-! ### Selections -/

/-- The entry at a reading position. -/
def entryAt (doc : RichDoc) (i : ℕ) : Except Failure (RenderedChar JsString String String) :=
  match doc[i]? with
  | some e => .ok e
  | none => .error (.error "Cannot read properties of undefined (reading 'marks')")

/-- Does a character carry a mark type? -/
def carries (mtype : String) (e : RenderedChar JsString String String) : Bool :=
  e.marks.any fun m => m.1 = mtype

/-- Does every character from `start` to `stop`, which is not included, carry a mark type? -/
def selectionHas (doc : RichDoc) (start stop : ℕ) (mtype : String) : Except Failure Bool :=
  if stop ≤ start then .ok false
  else (List.range' start (stop - start)).allM fun i => do return carries mtype (← entryAt doc i)

/-- The mark types with a prefix that every selected character carries. -/
def coveringMarkTypes (doc : RichDoc) (start stop : ℕ) (pre : String) :
    Except Failure (List String) :=
  if stop ≤ start ∨ doc.length < stop then .ok []
  else do
    let e ← entryAt doc start
    let cand := ((e.marks.map Prod.fst).eraseDups).filter fun t => t.startsWith pre
    cand.filterM fun t => selectionHas doc start stop t

/-- The extent of a mark type: its first position, and the one after its last. -/
def markSpan (doc : RichDoc) (mtype : String) : Option (ℕ × ℕ) :=
  (List.range doc.length).foldl (fun span i =>
    if doc[i]?.any (carries mtype) then some ((span.map Prod.fst).getD i, i + 1) else span) none

/-! ### Gestures -/

/-- A mark that a gesture puts on a selection. -/
structure FormatRequest where
  /-- The first selected position. -/
  start : ℕ
  /-- The position after the last selected one. -/
  stop : ℕ
  /-- The mark type. -/
  mtype : String
  /-- The options. -/
  opts : FormatOpts String
  deriving DecidableEq, Repr

/-- The gestures on a selection. -/
inductive Gesture
  /-- Toggle bold, italic or underline. -/
  | mark (mtype : String)
  /-- Take a link off. -/
  | link
  /-- Take the comments off that cover the selection. -/
  | comment
  /-- Link to the text of the argument bar. -/
  | linkTo (text : String)
  /-- Comment with the text of the argument bar. -/
  | commentOn (text : String)
  deriving DecidableEq, Repr

namespace Gesture

/-- Does a text start with the scheme of a URL? -/
def hasScheme (text : String) : Bool :=
  match text.toList with
  | c :: cs => c.isAlpha && (cs.dropWhile fun d => d.isAlphanum || [ '+', '.', '-'].contains d).head? = some ':'
  | [] => false

/-- The number of ids that a gesture mints before those of its marks: a comment has one in its mark
type. -/
def minted : Gesture → ℕ
  | .commentOn text => if text = "" then 0 else 1
  | _ => 0

/-- The marks of a gesture on a selection. The first minted id is given. -/
def requests (doc : RichDoc) (id start stop : ℕ) : Gesture → Except Failure (List FormatRequest)
  | .mark mtype => do
    let remove ← selectionHas doc start stop mtype
    return [{ start, stop, mtype, opts := { remove } }]
  | .link => do
    if ← selectionHas doc start stop "link" then
      return [{ start, stop, mtype := "link", opts := { remove := true } }]
    return []
  | .comment => do
    let covering ← coveringMarkTypes doc start stop "comment:"
    covering.mapM fun mtype =>
      match markSpan doc mtype with
      | some (lo, hi) => .ok { start := lo, stop := hi, mtype, opts := { remove := true } }
      | none => .error (.error "markSpan is not a function or its return value is not iterable")
  | .linkTo text =>
    if text = "" then .ok []
    else
      let url := if hasScheme text then text else "https://" ++ text
      .ok [{ start, stop, mtype := "link", opts := { value := some url, endSide := .before } }]
  | .commentOn text =>
    if text = "" then .ok []
    else .ok [{
      start, stop, mtype := s!"comment:{id}", opts := { value := some text, endSide := .before } }]

end Gesture

/-- The operations of the marks, with the minted ids from the `i`-th on. -/
def formatAll (ids : List ℕ) (mint : ℕ → ℕ) : ℕ → List FormatRequest → List RichText.Op
  | _, [] => []
  | i, q :: qs =>
    let ops := formatOps ids q.start q.stop q.mtype (mint i) q.opts
    ops ++ formatAll ids mint (i + ops.length) qs

/-! ### The page -/

/-- The page. -/
structure RichEditor (γ : Type) [LinearOrder γ] where
  /-- The replica. -/
  node : Replica RichText γ
  /-- The typed operations that are not committed yet. -/
  pending : List RichText.Op
  /-- The clock of the mint. -/
  lamport : ℕ
  /-- The salt `SALT` of this load of the page. -/
  salt : Fin 1000

/-- The largest id that is shown. -/
def newest (doc : RichDoc) : ℕ := doc.foldl (fun mx e => if e.id > mx then e.id else mx) 0

/-- The clock after a call of the mint. -/
def tick (doc : RichDoc) (lamport : ℕ) : ℕ := max lamport (newest doc / 1000) + 1

/-- The ids that operations insert. -/
def insertedIds (ops : List RichText.Op) : List ℕ := ops.filterMap RichText.insId

namespace RichEditor

variable {γ : Type} [LinearOrder γ]

/-- The state of the head with the pending operations. -/
def specState (e : RichEditor γ) : Except Failure RichText.State :=
  match e.pending with
  | [] => e.node.headState
  | ops => do applyBatch (← e.node.headState) ops

/-- What the page shows. -/
def curDoc (e : RichEditor γ) : Except Failure RichDoc := do renderDoc (← e.specState)

/-- The next id of a character or a mark. -/
def mint : Effect (RichEditor γ) Failure ℕ := do
  let e ← get
  let doc ← e.curDoc
  let lamport := tick doc e.lamport
  set { e with lamport }
  return lamport * 1000 + e.salt

/-- The clock after some calls of the mint. -/
def clock (e : RichEditor γ) (doc : RichDoc) (n : ℕ) : ℕ := (tick doc)^[n] e.lamport

/-- The ids that successive calls of the mint return while `doc` is shown. -/
def mints (e : RichEditor γ) (doc : RichDoc) (i : ℕ) : ℕ := e.clock doc (i + 1) * 1000 + e.salt

/-- A call of the replica. -/
def onNode {α : Type} (call : Call RichText γ α) : Effect (RichEditor γ) Failure α := do
  let e ← get
  let (x, node) := Effect.exec call e.node
  set { e with node }
  liftM x

variable (H : ContentHash RichText.Op RichText.Print γ)

/-- Seal the buffer as one commit. -/
def flush : Effect (RichEditor γ) Failure Unit := do
  let e ← get
  if e.pending ≠ [] then
    set { e with pending := [] }
    let _ ← onNode (commitOps H e.pending)

/-- The operations that edit what is shown to `newText`. The page caches the ids and the text that it
shows, and refreshes the cache after every change. -/
def typed (e : RichEditor γ) (doc : RichDoc) (newText : JsString) : List RichText.Op :=
  let (ids, text) := docSnapshot doc
  textEditOps .embedRGA ids text newText (e.mints doc)

/-- The text becomes `newText`. -/
def edit (newText : JsString) : Effect (RichEditor γ) Failure Unit := do
  let e ← get
  let doc ← e.curDoc
  let ops := e.typed doc newText
  set { e with
    lamport := e.clock doc (insertedIds ops).length
    pending := e.pending ++ ops }

/-- A gesture on the selection from `start` to `stop`. -/
def format (gesture : Gesture) (start stop : ℕ) : Effect (RichEditor γ) Failure Unit := do
  let e ← get
  if start < stop then
    let doc ← e.curDoc
    let requests ← gesture.requests doc (e.mints doc 0) start stop
    let ops := formatAll (doc.map RenderedChar.id) (e.mints doc) gesture.minted requests
    set { e with lamport := e.clock doc (gesture.minted + ops.length) }
    if ops ≠ [] then
      flush H
      let _ ← onNode (commitOps H ops)

/-- The page after a load, with what was stored of the document. -/
def load (salt : Fin 1000) (name : String)
    (stored : Option (List (CommitRecord RichText γ) × Heads γ)) : RichEditor γ where
  node := match stored with
    | none => Replica.create RichText H name
    | some (records, heads) =>
      match rebuildNode H records heads (some name) with
      | .ok r => r
      | .error _ => Replica.create RichText H name
  pending := []
  lamport := 0
  salt

/-- What happens to the page. -/
inductive Act (γ : Type)
  /-- The text becomes another one. -/
  | edit (newText : JsString)
  /-- A gesture on a selection. -/
  | format (gesture : Gesture) (start stop : ℕ)
  /-- The buffer is sealed. -/
  | flush
  /-- The replica performs a call: it ingests commits of peers, or merges with one of them. -/
  | node (request : Replica.Request RichText γ)
  /-- The page is loaded again. -/
  | reload (salt : Fin 1000) (name : String)
      (stored : Option (List (CommitRecord RichText γ) × Heads γ))

/-- A step. -/
def step (e : RichEditor γ) : Act γ → RichEditor γ
  | .edit newText => (Effect.exec (edit newText) e).2
  | .format gesture start stop => (Effect.exec (format H gesture start stop) e).2
  | .flush => (Effect.exec (flush H) e).2
  | .node request => (Effect.exec (onNode (Replica.perform H request)) e).2
  | .reload salt name stored => load H salt name stored

/-- A run. -/
def run (e : RichEditor γ) (acts : List (Act γ)) : RichEditor γ := acts.foldl (step H) e

variable {H} {e : RichEditor γ} {doc : RichDoc} {s t : RichText.State}

/-! ### The mint -/

theorem exec_mint (hdoc : e.curDoc = .ok doc) :
    Effect.exec mint e = (.ok (e.mints doc 0), { e with lamport := e.clock doc 1 }) := by
  rw [mint, Effect.exec_bind_ok (Effect.exec_get e),
    Effect.exec_bind_ok (show Effect.exec (liftM e.curDoc) e = (.ok doc, e) by
      rw [Effect.exec_lift, hdoc])]
  rfl

/-- **Successive calls** of the mint. -/
theorem mints_succ (e : RichEditor γ) (doc : RichDoc) (i : ℕ) :
    e.mints doc (i + 1) = ({ e with lamport := e.clock doc 1 } : RichEditor γ).mints doc i := by
  rw [mints, mints, clock, clock, clock, ← Function.iterate_add_apply]

theorem clock_succ (e : RichEditor γ) (doc : RichDoc) (n : ℕ) :
    e.clock doc (n + 1) = tick doc (e.clock doc n) := Function.iterate_succ_apply' ..

theorem clock_mono (e : RichEditor γ) (doc : RichDoc) : StrictMono (e.clock doc) :=
  strictMono_nat_of_lt_succ fun n => by
    rw [clock_succ, tick]
    exact Nat.lt_succ_of_le (le_max_left ..)

/-- The ids grow. -/
theorem mints_mono (e : RichEditor γ) (doc : RichDoc) : StrictMono (e.mints doc) := by
  intro i j hij
  have hlt : e.clock doc (i + 1) < e.clock doc (j + 1) := e.clock_mono doc (by omega)
  rw [mints, mints]
  omega

end RichEditor

/-- What is shown is not newer than the newest. -/
theorem le_newest {doc : RichDoc} {c : RenderedChar JsString String String} (hc : c ∈ doc) :
    c.id ≤ newest doc := by
  have hfold (mx : ℕ) : mx ≤ doc.foldl (fun mx e => if e.id > mx then e.id else mx) mx ∧
      ∀ c ∈ doc, c.id ≤ doc.foldl (fun mx e => if e.id > mx then e.id else mx) mx := by
    clear hc
    induction doc generalizing mx with
    | nil => exact ⟨le_rfl, fun c hc => absurd hc List.not_mem_nil⟩
    | cons e doc ih =>
      obtain ⟨hle, hmem⟩ := ih (if e.id > mx then e.id else mx)
      rw [List.foldl_cons, List.forall_mem_cons]
      refine ⟨?_, ?_, hmem⟩
      · split_ifs at hle ⊢ <;> omega
      · split_ifs at hle ⊢ <;> omega
  exact (hfold 0).2 c hc

/-- The newest id is shown, unless nothing is. -/
theorem newest_mem (doc : RichDoc) : newest doc = 0 ∨ ∃ c ∈ doc, c.id = newest doc := by
  have hfold (mx : ℕ) : doc.foldl (fun mx e => if e.id > mx then e.id else mx) mx = mx ∨
      ∃ c ∈ doc, c.id = doc.foldl (fun mx e => if e.id > mx then e.id else mx) mx := by
    induction doc generalizing mx with
    | nil => exact Or.inl rfl
    | cons e doc ih =>
      rw [List.foldl_cons]
      rcases ih (if e.id > mx then e.id else mx) with heq | ⟨c, hc, heq⟩
      · rw [heq]
        split_ifs
        · exact Or.inr ⟨e, List.mem_cons_self, rfl⟩
        · exact Or.inl rfl
      · exact Or.inr ⟨c, List.mem_cons_of_mem _ hc, heq⟩
  exact hfold 0

/-! ### Commits of the page -/

/-- Batches of the editor's text are folds. -/
theorem applyBatch_richText (s : RichText.State) (ops : List RichText.Op) :
    applyBatch s ops = ops.foldlM Peritext.apply s :=
  applyBatch_eq_foldlM (fun t is _ => applyBatch_embedKernel t is) s ops

/-- **Every operation, merge and decoder** files marks under their ids. -/
theorem keeps_filed : RichText.Keeps Filed where
  closed := {
    init := filed_init
    merge3 := fun hl ha hb _ hm => hl.merge3 ha hb hm
    remap := fun _ _ => .error _
    compact := nofun }
  apply _ hs _ ht := hs.apply ht
  applyBatch {_} hbatch {s} ops hs := by
    cases hbatch
    rw [applyBatch_richText]
    exact Yields.foldlM (p := fun _ => True) (fun _ _ hs _ ht => hs.apply ht) (fun _ _ => trivial) hs
  decode {_} hdecode w := by
    cases hdecode
    refine .bind fun shadow _ => .ok ?_
    have hfold (ms : List (Mark String String)) (t : SortedMap ℕ (Mark String String))
        (ht : ∀ mid m, t.get? mid = some m → m.mid = mid) (mid : ℕ) (m : Mark String String) :
        ((ms.map fun m => (m.mid, m)).foldl (fun t e => t.insert e.1 e.2) t).get? mid = some m →
          m.mid = mid := by
      induction ms generalizing t with
      | nil => exact ht mid m
      | cons m' ms ih =>
        refine ih _ fun mid m hm => ?_
        rw [SortedMap.get?_insert] at hm
        split_ifs at hm with heq
        · cases hm
          exact heq.symm
        · exact ht mid m hm
    exact hfold w.2.2 SortedMap.empty (fun _ _ => nofun)

namespace RichEditor

variable {γ : Type} [LinearOrder γ] {H : ContentHash RichText.Op RichText.Print γ}
  {e : RichEditor γ} {doc : RichDoc} {s t : RichText.State}

theorem specState_eq (e : RichEditor γ) :
    e.specState = e.node.headState >>= fun s => e.pending.foldlM Peritext.apply s := by
  rw [specState]
  cases e.pending with
  | nil => exact (bind_pure _).symm
  | cons op ops => simp only [applyBatch_richText]

/-- **A commit** that the head accepts becomes the head. -/
theorem exec_commitOps {r : Replica RichText γ} (h : Replica.Sound H r) (hs : r.headState = .ok s)
    {ops : List RichText.Op} (ht : ops.foldlM Peritext.apply s = .ok t) :
    ∃ r', Effect.exec (commitOps H ops) r = (.ok ops, r') ∧ Replica.Sound H r' ∧
      r'.headState = .ok t := by
  cases ops with
  | nil =>
    cases ht
    exact ⟨r, rfl, h, hs⟩
  | cons op ops =>
    have hbatch := h.exec_commitBatch_of_fold (fun ops => by
        rw [show Replica.applyOps RichText s (.many ops) = ops.foldlM Peritext.apply s from
          applyBatch_richText s ops]
        exact .refl _)
      (TextRGA.embedRGA.batched (μ := String) (β := String)).plain hs (List.cons_ne_nil op ops)
    have hprepared : Replica.prepareApply RichText = Peritext.apply := by
      funext s op
      cases op <;> rfl
    rw [hprepared, ht] at hbatch
    obtain ⟨g, r', payload, hexec, hheaded, -⟩ := hbatch
    exact ⟨r', Effect.exec_bind_ok hexec _, hheaded.sound, hheaded.state⟩

theorem exec_onNode {α : Type} (call : Call RichText γ α) (e : RichEditor γ) :
    Effect.exec (onNode call) e =
      ((Effect.exec call e.node).1, { e with node := (Effect.exec call e.node).2 }) := by
  rw [onNode, Effect.exec_bind_ok (Effect.exec_get e)]
  exact (Effect.exec_bind_ok (Effect.exec_set _ e) _).trans (Effect.exec_lift _ _)

/-- **Sealing the buffer** commits what is shown. -/
theorem exec_flush (h : Replica.Sound H e.node) (hs : e.specState = .ok s) :
    ∃ node, Effect.exec (flush H) e = (.ok (), { e with node, pending := [] }) ∧
      Replica.Sound H node ∧ node.headState = .ok s := by
  rw [specState_eq] at hs
  cases hhead : e.node.headState with
  | error err =>
    rw [hhead] at hs
    cases hs
  | ok head =>
    rw [hhead] at hs
    obtain ⟨node, hexec, hsound, hstate⟩ := exec_commitOps h hhead hs
    refine ⟨node, ?_, hsound, hstate⟩
    rw [flush, Effect.exec_bind_ok (Effect.exec_get e)]
    by_cases hnil : e.pending = []
    · rw [hnil] at hexec
      cases hexec
      rw [if_neg (not_not.mpr hnil)]
      cases e
      cases hnil
      rfl
    · have hcall : Effect.exec (onNode (commitOps H e.pending)) { e with pending := [] } =
          (.ok e.pending, { e with node, pending := [] }) := by rw [exec_onNode, hexec]
      rw [if_pos hnil, Effect.exec_bind_ok (Effect.exec_set _ e)]
      exact Effect.exec_bind_ok hcall _

/-- **A gesture** commits its marks on what is shown. -/
theorem exec_format (h : Replica.Sound H e.node) (hs : e.specState = .ok s)
    (hdoc : e.curDoc = .ok doc) {gesture : Gesture} {start stop : ℕ} (hlt : start < stop)
    {qs : List FormatRequest} (hqs : gesture.requests doc (e.mints doc 0) start stop = .ok qs)
    (ht : (formatAll (doc.map RenderedChar.id) (e.mints doc) gesture.minted qs).foldlM Peritext.apply s =
      .ok t) : ∃ e', Effect.exec (format H gesture start stop) e = (.ok (), e') ∧
      e'.specState = .ok t ∧ e'.salt = e.salt ∧ e'.lamport = e.clock doc (gesture.minted +
        (formatAll (doc.map RenderedChar.id) (e.mints doc) gesture.minted qs).length) := by
  set ops := formatAll (doc.map RenderedChar.id) (e.mints doc) gesture.minted qs with hops
  set e₁ : RichEditor γ := { e with lamport := e.clock doc (gesture.minted + ops.length) } with he₁
  have hstart : Effect.exec (format H gesture start stop) e = Effect.exec (if ops ≠ [] then (do
      flush H
      let _ ← onNode (commitOps H ops)) else pure () : Effect (RichEditor γ) Failure Unit) e₁ := by
    rw [format, Effect.exec_bind_ok (Effect.exec_get e), if_pos hlt,
      Effect.exec_bind_ok (show Effect.exec (liftM e.curDoc) e = (.ok doc, e) by
        rw [Effect.exec_lift, hdoc]),
      Effect.exec_bind_ok (show Effect.exec (liftM (gesture.requests doc (e.mints doc 0) start stop))
        e = (.ok qs, e) by rw [Effect.exec_lift, hqs])]
    exact Effect.exec_bind_ok (Effect.exec_set _ e) _
  have hs₁ : e₁.specState = .ok s := hs
  rw [hstart]
  by_cases hnil : ops = []
  · rw [hnil] at ht
    cases ht
    rw [if_neg (not_not.mpr hnil)]
    exact ⟨e₁, rfl, hs₁, rfl, rfl⟩
  · rw [if_pos hnil]
    obtain ⟨node, hflush, hsound, hstate⟩ := exec_flush (e := e₁) h hs₁
    obtain ⟨node', hcommit, -, hstate'⟩ := exec_commitOps hsound hstate ht
    have hcall : Effect.exec (onNode (commitOps H ops)) { e₁ with node, pending := [] } =
        (.ok ops, { e₁ with node := node', pending := [] }) := by rw [exec_onNode, hcommit]
    refine ⟨{ e₁ with node := node', pending := [] }, ?_, hstate', rfl, rfl⟩
    rw [Effect.exec_bind_ok hflush]
    exact Effect.exec_bind_ok hcall _

/-! ### What every step keeps -/

/-- A property of pages that commits keep, and that the buffer and the clock do not matter for. -/
structure Lasting (H : ContentHash RichText.Op RichText.Print γ) (Q : RichEditor γ → Prop) : Prop where
  /-- The buffer and the clock. -/
  page : ∀ {e : RichEditor γ} pending lamport, Q e → Q { e with pending, lamport }
  /-- Commits. -/
  commit : ∀ {e} ops, Q e → Effect.Ends Q (onNode (commitOps H ops)) e

namespace Lasting

variable {Q : RichEditor γ → Prop} (hQ : Lasting H Q) (h : Q e)

include hQ h

theorem ends_flush : Effect.Ends Q (flush H) e := by
  refine .bind_get ?_
  split_ifs
  · refine .bind_ok (Effect.exec_set _ e) ?_
    exact .bind (hQ.commit _ (hQ.page [] e.lamport h)) fun _ _ _ h' => .pure h' _
  · exact .pure h _

theorem ends_edit (newText : JsString) : Effect.Ends Q (edit newText) e :=
  .bind_get (.bind_lift h fun _ _ => .of_exec_eq (Effect.exec_set _ e) (hQ.page _ _ h))

theorem ends_format (gesture : Gesture) (start stop : ℕ) :
    Effect.Ends Q (format H gesture start stop) e := by
  refine .bind_get ?_
  split_ifs
  · refine .bind_lift h fun doc _ => .bind_lift h fun qs _ => .bind_ok (Effect.exec_set _ e) ?_
    split_ifs
    · exact .bind (hQ.ends_flush (hQ.page e.pending _ h)) fun _ _ _ h' =>
        .bind (hQ.commit _ h') fun _ _ _ h'' => .pure h'' _
    · exact .pure (hQ.page e.pending _ h) _
  · exact .pure h _

end Lasting

/-- The page has a salt. -/
def Salted (salt : Fin 1000) (e : RichEditor γ) : Prop := e.salt = salt

theorem Salted.ends_onNode {salt : Fin 1000} (h : Salted salt e) {α : Type}
    (call : Call RichText γ α) : Effect.Ends (Salted salt) (onNode call) e :=
  .of_exec_eq (exec_onNode call e) h

theorem lasting_salted (salt : Fin 1000) : Lasting H (Salted salt) where
  page _ _ h := h
  commit _ h := h.ends_onNode _

/-- **Only a reload** changes the salt. -/
theorem salt_step (act : Act γ) (hact : ∀ salt name stored, act ≠ .reload salt name stored) :
    (step H e act).salt = e.salt := by
  have h : Salted e.salt e := rfl
  have hQ := lasting_salted (H := H) e.salt
  cases act with
  | edit newText => exact hQ.ends_edit h newText
  | format gesture start stop => exact hQ.ends_format h gesture start stop
  | flush => exact hQ.ends_flush h
  | node request => exact h.ends_onNode _
  | reload salt name stored => exact absurd rfl (hact salt name stored)

/-- The replica of the page is sound, and marks are filed under their ids. -/
def Kept (H : ContentHash RichText.Op RichText.Print γ) (e : RichEditor γ) : Prop :=
  Replica.Keeping H Filed e.node

theorem Kept.ends_onNode (h : Kept H e) {α : Type} {call : Call RichText γ α}
    (hcall : ∀ {r}, Replica.Keeping H Filed r → Effect.Ends (Replica.Keeping H Filed) call r) :
    Effect.Ends (Kept H) (onNode call) e :=
  .of_exec_eq (exec_onNode call e) (hcall h)

theorem lasting_kept : Lasting H (Kept H : RichEditor γ → Prop) where
  page _ _ h := h
  commit ops h := h.ends_onNode fun h => by
    cases ops with
    | nil => exact .pure h _
    | cons op ops => exact .bind (h.ends_commitBatch keeps_filed _) fun _ _ _ h' => .pure h' _

theorem kept_load (salt : Fin 1000) (name : String)
    (stored : Option (List (CommitRecord RichText γ) × Heads γ)) :
    Kept H (load H salt name stored) := by
  rcases stored with _ | ⟨records, heads⟩
  · exact Replica.Keeping.create keeps_filed name
  · show Replica.Keeping H Filed (match rebuildNode H records heads (some name) with
      | .ok r => r
      | .error _ => Replica.create RichText H name)
    cases hr : rebuildNode H records heads (some name) with
    | ok r => exact Replica.Keeping.rebuildNode keeps_filed hr
    | error _ => exact Replica.Keeping.create keeps_filed name

/-- **Every step** keeps the marks under their ids. -/
theorem Kept.step (h : Kept H e) (act : Act γ) : Kept H (step H e act) := by
  cases act with
  | edit newText => exact lasting_kept.ends_edit h newText
  | format gesture start stop => exact lasting_kept.ends_format h gesture start stop
  | flush => exact lasting_kept.ends_flush h
  | node request => exact h.ends_onNode fun h => h.ends_perform keeps_filed request
  | reload salt name stored => exact kept_load salt name stored

/-- **Every run** keeps the marks under their ids. -/
theorem Kept.run (h : Kept H e) (acts : List (Act γ)) : Kept H (run H e acts) := by
  induction acts generalizing e with
  | nil => exact h
  | cons act acts ih => exact ih (h.step act)

/-- The states of the page file marks under their ids. -/
theorem Kept.filed (h : Kept H e) (hs : e.specState = .ok s) : Filed s := by
  rw [specState_eq] at hs
  have hfiled : Yields Filed (e.node.headState >>= fun s => e.pending.foldlM Peritext.apply s) :=
    .bind fun head hhead => Yields.foldlM (p := fun _ => True) (fun _ _ hs _ ht => hs.apply ht)
      (fun _ _ => trivial) (h.headState head hhead)
  exact hfiled s hs

end RichEditor

end SalRuntime
