import SalRuntime.Datatypes.Respelling

/-!
# Editing a compacted state

A replica goes on editing after a compaction: it inserts at live records under ids above all earlier
ones, and deletes. The new insertions take deltas above all those that the tree of the compaction has
below their anchors, so they are in no group that was renumbered. So the compacted state remains the
respelled one, and it reads alike after every step.

## Main definitions

* `EmbedRGA.Continuation` — the edits of a replica on its own.
* `EmbedRGA.Beyond` — the tree of a compaction does not reach below the records of a state further
  than the ids of its history.

## Main results

* `EmbedRGA.Grounded.ins` — an insertion keeps a state grounded.
* `EmbedRGA.separates_ins` — deltas that separate the chains separate them after an insertion.
* `EmbedRGA.continuation_respell` — a respelled state follows every continuation.
* `EmbedRGA.compact_continues` — a compacted state reads alike along every continuation.
-/

namespace SalRuntime

variable {α : Type}

namespace EmbedRGA

open CoordTree

/-- A replica goes on from a state, with the ids of its history, by insertions under larger ids at
live records, and by deletions. -/
inductive Continuation : Set ℕ → State α → List (SeqOp α) → State α → Prop
  | nil {I s} : Continuation I s [] s
  | ins {I s id el a s' ops u} (hfresh : ∀ i ∈ I, i < id)
      (hs : apply s (.ins id el a) = .ok s') (h : Continuation (insert id I) s' ops u) :
      Continuation I s (.ins id el a :: ops) u
  | del {I s id s' ops u} (hs : apply s (.del id) = .ok s') (h : Continuation I s' ops u) :
      Continuation I s (.del id :: ops) u

/-! ### Grounded states -/

variable {I : Set ℕ} {s : State α}

/-- No record is below a fresh one. -/
theorem Grounded.not_below (h : Grounded I s) {a id i : ℕ} {ca c : List ℕ}
    (ha : AnchorChain s a ca) (hfresh : ∀ i ∈ I, i < id) (hlt : a < id)
    (hi : HasChain s i (ca ++ (id - a) :: c)) : False := by
  obtain ⟨j, hj, hle⟩ := h.below a ca i (id - a) c ha hi
  have := hfresh j hj
  omega

/-- **An insertion** keeps a state grounded. -/
theorem Grounded.ins (h : Grounded I s) {id a : ℕ} {ca : List ℕ} {rec : Record α}
    (ha : AnchorChain s a ca) (hca : ∀ d ∈ ca, 1 ≤ d) (hfresh : ∀ i ∈ I, i < id) (hlt : a < id)
    (hrec : rec.coord = (ca ++ [id - a]).flatMap dEnc) :
    Grounded (insert id I) (s.insert id rec) := by
  have hpos : ∀ d ∈ ca ++ [id - a], 1 ≤ d := fun d hd => by
    rcases List.mem_append.mp hd with hd | hd
    · exact hca d hd
    · have := List.mem_singleton.mp hd
      omega
  have hchain {i : ℕ} {c : List ℕ} : HasChain (s.insert id rec) i c ↔
      i = id ∧ c = ca ++ [id - a] ∨ i ≠ id ∧ HasChain s i c :=
    hasChain_insert (by rw [hrec, decodeChain_flatMap hpos])
  have hnew {i : ℕ} {r : List ℕ} (hi : HasChain s i ((ca ++ [id - a]) ++ r)) : False :=
    h.not_below ha hfresh hlt (c := r) (by simpa using hi)
  refine ⟨fun i hi => ?_, fun i hi => ?_, fun i c hi => ?_, fun i j c hi hj => ?_,
    fun b cb i d c hb hi => ?_⟩
  · rw [SortedMap.has_insert, Bool.or_eq_true, decide_eq_true_iff] at hi
    exact hi.imp_right (h.mem i)
  · by_cases hid : i = id
    · exact ⟨_, hchain.mpr (Or.inl ⟨hid, rfl⟩)⟩
    · rw [SortedMap.has_insert, Bool.or_eq_true, decide_eq_true_iff] at hi
      obtain ⟨c, hc⟩ := h.decodes i (hi.resolve_left hid)
      exact ⟨c, hchain.mpr (Or.inr ⟨hid, hc⟩)⟩
  · rcases hchain.mp hi with ⟨-, rfl⟩ | ⟨-, hi⟩
    · simp
    · exact h.ne_nil i c hi
  · rcases hchain.mp hi with ⟨rfl, rfl⟩ | ⟨hne, hi⟩
    · rcases hchain.mp hj with ⟨rfl, -⟩ | ⟨-, hj⟩
      · rfl
      · exact (hnew (r := []) (by simpa using hj)).elim
    · rcases hchain.mp hj with ⟨-, rfl⟩ | ⟨-, hj⟩
      · exact (hnew (r := []) (by simpa using hi)).elim
      · exact h.injective i j c hi hj
  · have hb' : b = id ∧ cb = ca ++ [id - a] ∨ AnchorChain s b cb := by
      rcases hb with hb | hb
      · exact Or.inr (Or.inl hb)
      · exact (hchain.mp hb).imp_right fun hb => Or.inr hb.2
    rcases hchain.mp hi with ⟨rfl, heq⟩ | ⟨-, hi⟩
    · rcases hb' with ⟨-, rfl⟩ | hb'
      · have hlen := congrArg List.length heq
        simp at hlen
      · rcases List.eq_nil_or_concat c with rfl | ⟨c, x, rfl⟩
        · -- The anchor itself: chains of anchors are distinct.
          obtain ⟨rfl, hlast⟩ := List.append_inj' heq rfl
          have hd : d = i - a := List.head_eq_of_cons_eq hlast
          have hba : b = a := by
            rcases ha with ⟨rfl, hnil⟩ | ha
            · rcases hb' with ⟨rfl, -⟩ | hb'
              · rfl
              · exact absurd hnil (h.ne_nil b _ hb')
            · rcases hb' with ⟨-, hnil⟩ | hb'
              · exact absurd hnil (h.ne_nil a _ ha)
              · exact h.injective b a _ hb' ha
          exact ⟨i, Or.inl rfl, by omega⟩
        · have hassoc : cb ++ d :: (c ++ [x]) = (cb ++ d :: c) ++ [x] := by simp
          rw [List.concat_eq_append, hassoc] at heq
          obtain ⟨rfl, -⟩ := List.append_inj' heq rfl
          rcases ha with ⟨-, hnil⟩ | ha
          · simp at hnil
          · obtain ⟨j, hj, hle⟩ := h.below b cb a d c hb' ha
            exact ⟨j, Or.inr hj, hle⟩
    · rcases hb' with ⟨-, rfl⟩ | hb'
      · exact (hnew hi).elim
      · obtain ⟨j, hj, hle⟩ := h.below b cb i d c hb' hi
        exact ⟨j, Or.inr hj, hle⟩

/-- **A deletion** keeps a state grounded. -/
theorem Grounded.del (h : Grounded I s) (id : ℕ) : Grounded I (s.erase id) := by
  refine ⟨fun i hi => ?_, fun i hi => ?_, fun i c hi => h.ne_nil i c (hasChain_erase.mp hi).2,
    fun i j c hi hj => h.injective i j c (hasChain_erase.mp hi).2 (hasChain_erase.mp hj).2,
    fun b cb i d c hb hi => ?_⟩
  · rw [SortedMap.has_erase, Bool.and_eq_true] at hi
    exact h.mem i hi.2
  · rw [SortedMap.has_erase, Bool.and_eq_true, decide_eq_true_iff] at hi
    obtain ⟨c, hc⟩ := h.decodes i hi.2
    exact ⟨c, hasChain_erase.mpr ⟨hi.1, hc⟩⟩
  · exact h.below b cb i d c (hb.imp_right fun hb => (hasChain_erase.mp hb).2)
      (hasChain_erase.mp hi).2

/-! ### The tree of the compaction -/

/-- The chains at which insertions are anchored: those of the records, and that of the root. -/
def anchorsOf (s : State α) : Set (List ℕ) := {c | ∃ a, AnchorChain s a c}

/-- The tree of a compaction reaches below the anchors of a state only by deltas that are bounded by
the ids of the history. -/
def Beyond (t : CoordTree) (I : Set ℕ) (s : State α) : Prop :=
  ∀ a ca d, AnchorChain s a ca → t.has (ca ++ [d]) = true → ∃ i ∈ I, a + d ≤ i

variable {t : CoordTree} {settled : List ℕ} {opts : CompactOpts}

variable (settled opts) in
theorem mapLabel_le (htree : IsTree t) (p : List ℕ) (d : ℕ) :
    t.mapLabel settled opts (p ++ [d]) ≤ d := by
  by_cases hhas : t.has (p ++ [d]) = true
  · rw [mapLabel_of_has hhas]
    exact label_le settled opts htree hhas
  · rw [mapLabel_of_not_has (Bool.eq_false_iff.mpr hhas)]

variable (settled opts) in
/-- A fresh insertion is outside the tree. -/
theorem Beyond.mapLabel_eq (hb : Beyond t I s) {a id : ℕ} {ca : List ℕ} (ha : AnchorChain s a ca)
    (hfresh : ∀ i ∈ I, i < id) (hlt : a < id) :
    t.mapLabel settled opts (ca ++ [id - a]) = id - a := by
  refine mapLabel_of_not_has (Bool.eq_false_iff.mpr fun hhas => ?_)
  obtain ⟨i, hi, hle⟩ := hb a ca (id - a) ha hhas
  have := hfresh i hi
  omega

/-- **After an insertion** the deltas of the forward map separate the chains as before. -/
theorem separates_ins (htree : IsTree t) (h : Grounded I s) (hb : Beyond t I s)
    (hlab : Separates (anchorsOf s) (t.mapLabel settled opts)) {id a : ℕ} {ca : List ℕ}
    (ha : AnchorChain s a ca) (hfresh : ∀ i ∈ I, i < id) (hlt : a < id) :
    Separates (insert (ca ++ [id - a]) (anchorsOf s)) (t.mapLabel settled opts) := by
  have hnew := hb.mapLabel_eq settled opts ha hfresh hlt
  have hmem : ca ∈ anchorsOf s := ⟨a, ha⟩
  have hbelow {d : ℕ} {x : List ℕ} (hx : ca ++ d :: x ∈ anchorsOf s) : d < id - a := by
    obtain ⟨i, ⟨-, hnil⟩ | hi⟩ := hx
    · simp at hnil
    · obtain ⟨j, hj, hle⟩ := h.below a ca i d x ha hi
      have := hfresh j hj
      omega
  -- A step on the way to the new chain is its last one, or on the way to the anchor.
  have hstep {p x : List ℕ} {d : ℕ} (heq : p ++ d :: x = ca ++ [id - a]) :
      p = ca ∧ d = id - a ∨ ∃ y, ca = p ++ d :: y := by
    rcases List.eq_nil_or_concat x with rfl | ⟨y, z, rfl⟩
    · obtain ⟨rfl, hlast⟩ := List.append_inj' heq rfl
      exact Or.inl ⟨rfl, List.head_eq_of_cons_eq hlast⟩
    · have hassoc : p ++ d :: (y ++ [z]) = (p ++ d :: y) ++ [z] := by simp
      rw [List.concat_eq_append, hassoc] at heq
      exact Or.inr ⟨y, (List.append_inj' heq rfl).1.symm⟩
  constructor
  · intro p d e x y hd he hde
    rcases hd with hd | hd
    · rcases he with he | he
      · have heq := List.append_cancel_left (hd.trans he.symm)
        have := List.head_eq_of_cons_eq heq
        omega
      · rcases hstep hd with ⟨rfl, rfl⟩ | ⟨z, hz⟩
        · have := hbelow he
          omega
        · exact hlab.part p d e z y (hz ▸ hmem) he hde
    · rcases he with he | he
      · rcases hstep he with ⟨rfl, rfl⟩ | ⟨z, hz⟩
        · have hle := mapLabel_le settled opts htree p d
          exact ⟨hlab.leave p d x hmem hd, by omega⟩
        · exact hlab.part p d e x z hd (hz ▸ hmem) hde
      · exact hlab.part p d e x y hd he hde
  · intro p d x hp hd
    rcases hd with hd | hd
    · rcases hp with rfl | hp
      · have hlen := congrArg List.length hd
        simp at hlen
      · rcases hstep hd with ⟨rfl, rfl⟩ | ⟨z, hz⟩
        · omega
        · exact hlab.leave p d z hp (hz ▸ hmem)
    · rcases hp with rfl | hp
      · have := hbelow (d := id - a) (x := d :: x) (by simpa using hd)
        omega
      · exact hlab.leave p d x hp hd

/-- **A respelled state follows every continuation**, and reads alike. -/
theorem continuation_respell (htree : IsTree t) (h : Grounded I s) (hb : Beyond t I s)
    (hlab : Separates (anchorsOf s) (t.mapLabel settled opts)) {ops : List (SeqOp α)} {u : State α}
    (hc : Continuation I s ops u) :
    ops.foldlM apply (respell (t.mapLabel settled opts) s) =
        .ok (respell (t.mapLabel settled opts) u) ∧
      readIds (respell (t.mapLabel settled opts) u) = readIds u := by
  induction hc with
  | nil =>
    refine ⟨rfl, readIds_respell h.decodes (hlab.subset ?_)⟩
    rintro c ⟨id, hid⟩
    exact ⟨id, Or.inr hid⟩
  | @ins I s id el a s' ops u hfresh hs _ ih =>
    obtain ⟨r, hr, rfl⟩ := apply_ins_eq_ok_iff.mp hs
    obtain ⟨hhas, hlt, bits, hbits, rfl⟩ := insRecord_eq_ok_iff.mp hr
    obtain ⟨ca, ha, hca, rfl⟩ := h.exists_anchor hbits
    have hcoord : ca.flatMap dEnc ++ dEnc (id - a.getD 0) =
        (ca ++ [id - a.getD 0]).flatMap dEnc := by simp
    have hpos : ∀ d ∈ ca ++ [id - a.getD 0], 1 ≤ d := fun d hd => by
      rcases List.mem_append.mp hd with hd | hd
      · exact hca d hd
      · have := List.mem_singleton.mp hd
        omega
    have hnew := hb.mapLabel_eq settled opts ha hfresh hlt
    -- The new record of the respelled state is the respelled one.
    have hanchor : anchorCoord (respell (t.mapLabel settled opts) s) a =
        some (spell codeword (t.mapLabel settled opts) ca) := by
      cases a with
      | none =>
        rcases ha with ⟨-, rfl⟩ | ha
        · rfl
        · have hnil : ca.flatMap dEnc = [] := (Option.some.inj hbits).symm
          rcases ca with _ | ⟨d, ca⟩
          · rfl
          · rw [List.flatMap_cons, List.append_eq_nil_iff] at hnil
            exact absurd hnil.1 (orderedPrefixCode_dEnc.ne_nil (hca d List.mem_cons_self))
      | some a =>
        obtain ⟨ra, hra, hcoord⟩ := Option.map_eq_some_iff.mp hbits
        have hdecode : decodeChain ra.coord = .ok ca := by rw [hcoord, decodeChain_flatMap hca]
        rw [anchorCoord, get?_respell, hra, Option.map_some, Option.map_some,
          respellRecord_eq hdecode]
    have hrec : respellRecord (t.mapLabel settled opts)
        { coord := ca.flatMap dEnc ++ dEnc (id - a.getD 0), el } =
        { coord := spell codeword (t.mapLabel settled opts) ca ++ dEnc (id - a.getD 0), el } := by
      have hdecode := decodeChain_flatMap hpos
      rw [← hcoord] at hdecode
      rw [respellRecord_eq hdecode, spell_concat, hnew, codeword, if_neg (by omega)]
    have happly : apply (respell (t.mapLabel settled opts) s) (.ins id el a) =
        .ok (respell (t.mapLabel settled opts)
          (s.insert id { coord := ca.flatMap dEnc ++ dEnc (id - a.getD 0), el })) := by
      rw [apply_ins_eq_ok_iff]
      refine ⟨_, insRecord_eq_ok_iff.mpr ⟨?_, hlt, _, hanchor, rfl⟩, ?_⟩
      · rw [has_respell, hhas]
      · rw [respell_insert, hrec]
    set rec : Record α := { coord := ca.flatMap dEnc ++ dEnc (id - a.getD 0), el }
    have hground : Grounded (insert id I) (s.insert id rec) := h.ins ha hca hfresh hlt hcoord
    have hchain {i : ℕ} {c : List ℕ} : HasChain (s.insert id rec) i c ↔
        i = id ∧ c = ca ++ [id - a.getD 0] ∨ i ≠ id ∧ HasChain s i c :=
      hasChain_insert (by rw [← decodeChain_flatMap hpos, ← hcoord])
    -- The tree does not reach below the new record.
    have hbeyond : Beyond t (insert id I) (s.insert id rec) := by
      intro b cb d hcb hhas
      have hold : AnchorChain s b cb → ∃ i ∈ insert id I, b + d ≤ i := fun hcb => by
        obtain ⟨i, hi, hle⟩ := hb b cb d hcb hhas
        exact ⟨i, Or.inr hi, hle⟩
      rcases hcb with hcb | hcb
      · exact hold (Or.inl hcb)
      · rcases hchain.mp hcb with ⟨-, rfl⟩ | ⟨-, hcb⟩
        · obtain ⟨i, hi, hle⟩ := hb _ ca _ ha (htree.closed _ d hhas)
          have := hfresh i hi
          omega
        · exact hold (Or.inr hcb)
    have hsub : anchorsOf (s.insert id rec) ⊆
        insert (ca ++ [id - a.getD 0]) (anchorsOf s) := by
      rintro c ⟨b, hcb | hcb⟩
      · exact Or.inr ⟨b, Or.inl hcb⟩
      · rcases hchain.mp hcb with ⟨-, rfl⟩ | ⟨-, hcb⟩
        · exact Or.inl rfl
        · exact Or.inr ⟨b, Or.inr hcb⟩
    obtain ⟨hfold, hread⟩ := ih hground hbeyond
      ((separates_ins htree h hb hlab ha hfresh hlt).subset hsub)
    rw [List.foldlM_cons, happly]
    exact ⟨hfold, hread⟩
  | @del I s id s' ops u hs _ ih =>
    cases hs
    have hsub {b : ℕ} {cb : List ℕ} (hcb : AnchorChain (s.erase id) b cb) : AnchorChain s b cb :=
      hcb.imp_right fun hcb => (hasChain_erase.mp hcb).2
    have hanchors : anchorsOf (s.erase id) ⊆ anchorsOf s := by
      rintro c ⟨b, hcb⟩
      exact ⟨b, hsub hcb⟩
    obtain ⟨hfold, hread⟩ := ih (h.del id) (fun b cb d hcb hhas => hb b cb d (hsub hcb) hhas)
      (hlab.subset hanchors)
    refine ⟨?_, hread⟩
    rw [List.foldlM_cons]
    exact (congrArg (fun s => ops.foldlM apply s) (respell_erase _ s id).symm).trans hfold

end EmbedRGA

end SalRuntime
