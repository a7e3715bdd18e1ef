import Mathlib.Data.List.Lex
import Mathlib.Data.List.Nodup
import Mathlib.Order.Lattice

/-!
# Ordered prefix codes and the display order of spelled chains

A position in a tree of siblings is a chain: the list of the keys on the path from the root. The
display order lists a node above its descendants, and siblings by descending keys. An ordered
prefix code turns chains with numbered steps into bit strings whose lexicographic order, with a
sentinel above both bits at the end, is the display order.

## Main definitions

* `FirstDiff a b` — at the first position where the bit strings differ, `a` has the smaller bit.
* `OrderedPrefixCode` — a code of the positive numbers with `FirstDiff` between codewords.
* `Above c c'` — the chain `c` is displayed above the chain `c'`.
* `spell` — the bit string of a chain whose steps are labelled with numbers.
* `SiblingMono` — the labels of siblings are ordered like their keys.
* `Separates` — the labels are ordered like the keys where chains part; other steps may have no
  codeword.

## Main results

* `spell_key_lt`, `Separates.key_lt` — the display order of chains is the descending order of the
  keys of their spellings.
* `spell_injective`, `Separates.spell_injective` — different chains have different spellings.
* `eq_of_pairwise_above` — lists in display order are determined by their members.
-/

namespace SalRuntime

/-- At the first position where the bit strings differ, `a` has `false` and `b` has `true`. -/
def FirstDiff (a b : List Bool) : Prop :=
  ∃ p x y, a = p ++ false :: x ∧ b = p ++ true :: y

namespace FirstDiff

variable {a b : List Bool}

theorem append_left (h : FirstDiff a b) (c : List Bool) : FirstDiff (c ++ a) (c ++ b) := by
  obtain ⟨p, x, y, rfl, rfl⟩ := h
  exact ⟨c ++ p, x, y, by simp, by simp⟩

theorem append_right (h : FirstDiff a b) (c d : List Bool) : FirstDiff (a ++ c) (b ++ d) := by
  obtain ⟨p, x, y, rfl, rfl⟩ := h
  exact ⟨p, x ++ c, y ++ d, by simp, by simp⟩

theorem ne_nil_left (h : FirstDiff a b) : a ≠ [] := by
  obtain ⟨p, x, y, rfl, rfl⟩ := h
  simp

theorem ne_nil_right (h : FirstDiff a b) : b ≠ [] := by
  obtain ⟨p, x, y, rfl, rfl⟩ := h
  simp

/-- Strings that differ at a position are not prefixes of a common string. -/
theorem append_ne (h : FirstDiff a b) (c d : List Bool) : a ++ c ≠ b ++ d := by
  obtain ⟨p, x, y, rfl, rfl⟩ := h
  simp

end FirstDiff

/-- The sort key of a bit string: the bits, with a sentinel above both at the end. -/
def sortKey (bits : List Bool) : List ℕ := bits.map (fun b => if b then 1 else 0) ++ [2]

theorem sortKey_append (a b : List Bool) :
    sortKey (a ++ b) = a.map (fun b => if b then 1 else 0) ++ sortKey b := by
  simp [sortKey]

theorem sortKey_lt_of_firstDiff {a b : List Bool} (h : FirstDiff a b) :
    sortKey a < sortKey b := by
  obtain ⟨p, x, y, rfl, rfl⟩ := h
  rw [sortKey_append, sortKey_append]
  exact List.Lex.append_left (· < ·) (List.Lex.rel (by decide)) _

theorem sortKey_append_lt {a b : List Bool} (c : List Bool) (h : sortKey a < sortKey b) :
    sortKey (c ++ a) < sortKey (c ++ b) := by
  rw [sortKey_append, sortKey_append]
  exact List.Lex.append_left (· < ·) h _

/-- A proper extension sorts below. -/
theorem sortKey_lt_nil {a : List Bool} (h : a ≠ []) : sortKey a < sortKey [] := by
  cases a with
  | nil => exact absurd rfl h
  | cons b a =>
    exact List.Lex.rel (by cases b <;> decide)

theorem sortKey_injective : Function.Injective sortKey := by
  intro a b h
  have h := List.append_cancel_right h
  refine List.map_injective_iff.mpr (fun x y hxy => ?_) h
  cases x <;> cases y <;> simp_all

/-- An order-preserving prefix-free code of the positive numbers. -/
structure OrderedPrefixCode (enc : ℕ → List Bool) : Prop where
  /-- Codewords differ at a position, where the smaller number has the smaller bit. -/
  firstDiff : ∀ d e, 1 ≤ d → d < e → FirstDiff (enc d) (enc e)

namespace OrderedPrefixCode

variable {enc : ℕ → List Bool} (henc : OrderedPrefixCode enc)

include henc

theorem ne_nil {d : ℕ} (hd : 1 ≤ d) : enc d ≠ [] :=
  (henc.firstDiff d (d + 1) hd d.lt_succ_self).ne_nil_left

/-- A codeword at the start of a string is determined by the string. -/
theorem eq_of_append_eq {d e : ℕ} (hd : 1 ≤ d) (he : 1 ≤ e) {x y : List Bool}
    (h : enc d ++ x = enc e ++ y) : d = e := by
  rcases lt_trichotomy d e with hlt | rfl | hlt
  · exact absurd h ((henc.firstDiff d e hd hlt).append_ne x y)
  · rfl
  · exact absurd h.symm ((henc.firstDiff e d he hlt).append_ne y x)

/-- Strings of codewords extend each other as the numbers do. -/
theorem prefix_of_flatMap {ds es : List ℕ} (hds : ∀ d ∈ ds, 1 ≤ d) (hes : ∀ e ∈ es, 1 ≤ e)
    (h : ds.flatMap enc <+: es.flatMap enc) : ds <+: es := by
  induction ds generalizing es with
  | nil => exact List.nil_prefix
  | cons d ds ih =>
    obtain ⟨x, hx⟩ := h
    have hd := hds d List.mem_cons_self
    rw [List.flatMap_cons, List.append_assoc] at hx
    cases es with
    | nil =>
      rw [List.flatMap_nil, List.append_eq_nil_iff] at hx
      exact absurd hx.1 (henc.ne_nil hd)
    | cons e es =>
      rw [List.flatMap_cons] at hx
      obtain rfl := henc.eq_of_append_eq hd (hes e List.mem_cons_self) hx
      exact List.cons_prefix_cons.mpr ⟨rfl, ih (fun d hd => hds d (List.mem_cons_of_mem _ hd))
        (fun e he => hes e (List.mem_cons_of_mem _ he)) ⟨x, List.append_cancel_left hx⟩⟩

end OrderedPrefixCode

/-! ### The display order -/

section Above

variable {α : Type*} [LinearOrder α]

/-- The display order of chains: a chain is above its extensions, and where chains part the one
with the larger key is above. -/
def Above : List α → List α → Prop := List.Lex fun a b => b < a

theorem above_trichotomy (c c' : List α) : Above c c' ∨ c = c' ∨ Above c' c := by
  have : Std.Trichotomous fun a b : α => b < a := ⟨fun a b h h' =>
    le_antisymm (not_lt.mp h) (not_lt.mp h')⟩
  by_contra hcon
  push Not at hcon
  exact hcon.2.1 ((List.Lex.trichotomous _).trichotomous c c' hcon.1 hcon.2.2)

theorem Above.asymm {c c' : List α} (h : Above c c') : ¬ Above c' c := by
  have : Std.Asymm fun a b : α => b < a := ⟨fun a b h h' => lt_asymm h h'⟩
  exact (List.Lex.asymm _).asymm c c' h

theorem above_irrefl (c : List α) : ¬ Above c c := fun h => h.asymm h

theorem above_append_of_ne_nil (c : List α) {d : List α} (h : d ≠ []) : Above c (c ++ d) := by
  obtain ⟨a, d, rfl⟩ := List.exists_cons_of_ne_nil h
  have := List.Lex.append_left (fun a b : α => b < a) (@List.Lex.nil _ _ a d) c
  rwa [List.append_nil] at this

theorem above_of_lt (c : List α) {a b : α} (h : b < a) (d e : List α) :
    Above (c ++ a :: d) (c ++ b :: e) :=
  List.Lex.append_left (fun a b : α => b < a) (List.Lex.rel h) c

theorem Above.trans {c c' c'' : List α} (h : Above c c') (h' : Above c' c'') : Above c c'' := by
  induction h generalizing c'' with
  | nil =>
    cases h' with
    | rel _ => exact .nil
    | cons _ => exact .nil
  | rel hab =>
    cases h' with
    | rel hbc => exact .rel (lt_trans hbc hab)
    | cons _ => exact .rel hab
  | cons _ ih =>
    cases h' with
    | rel hbc => exact .rel hbc
    | cons h' => exact .cons (ih h')

/-- Lists in the display order of the chains of their members are determined by these. -/
theorem eq_of_pairwise_above {ι : Type*} {χ : ι → List α} {l l' : List ι}
    (hl : l.Pairwise fun i j => Above (χ i) (χ j)) (hl' : l'.Pairwise fun i j => Above (χ i) (χ j))
    (hmem : ∀ i, i ∈ l ↔ i ∈ l') : l = l' := by
  have hnodup {m : List ι} (hm : m.Pairwise fun i j => Above (χ i) (χ j)) : m.Nodup := by
    refine List.Pairwise.imp (fun {i j} hij heq => ?_) hm
    subst heq
    exact above_irrefl _ hij
  have hperm := (List.perm_ext_iff_of_nodup (hnodup hl) (hnodup hl')).mpr hmem
  exact hperm.eq_of_pairwise (fun i j _ _ hij hji => absurd hji hij.asymm) hl hl'

end Above

/-! ### Spelling a chain -/

section Spell

variable {α : Type*} (enc : ℕ → List Bool) (lab : List α → ℕ)

/-- The bits spelled by the steps `c` below the chain `p`: the step to a chain is spelled by the
codeword of the label of that chain. -/
def spellFrom (p : List α) : List α → List Bool
  | [] => []
  | a :: c => enc (lab (p ++ [a])) ++ spellFrom (p ++ [a]) c

/-- The bit string of a chain. -/
def spell (c : List α) : List Bool := spellFrom enc lab [] c

variable {enc lab}

@[simp] theorem spell_nil : spell enc lab ([] : List α) = [] := rfl

theorem spellFrom_append (p c d : List α) :
    spellFrom enc lab p (c ++ d) = spellFrom enc lab p c ++ spellFrom enc lab (p ++ c) d := by
  induction c generalizing p with
  | nil => simp [spellFrom]
  | cons a c ih => simp [spellFrom, ih, List.append_assoc]

theorem spell_append (c d : List α) :
    spell enc lab (c ++ d) = spell enc lab c ++ spellFrom enc lab c d := by
  simp [spell, spellFrom_append]

theorem spell_concat (c : List α) (a : α) :
    spell enc lab (c ++ [a]) = spell enc lab c ++ enc (lab (c ++ [a])) := by
  simp [spell_append, spellFrom]

/-- Spellings depend only on the labels along the chain. -/
theorem spellFrom_congr {lab' : List α → ℕ} (p c : List α)
    (h : ∀ q a, q ++ [a] <+: c → lab (p ++ q ++ [a]) = lab' (p ++ q ++ [a])) :
    spellFrom enc lab p c = spellFrom enc lab' p c := by
  induction c generalizing p with
  | nil => rfl
  | cons b c ih =>
    have hb : lab (p ++ [b]) = lab' (p ++ [b]) := by
      simpa using h [] b (by simp)
    rw [spellFrom, spellFrom, hb, ih (p ++ [b]) fun q a hq => ?_]
    have := h (b :: q) a (by simpa using hq)
    simpa [List.append_assoc] using this

theorem spell_congr {lab' : List α → ℕ} (c : List α)
    (h : ∀ p, p <+: c → p ≠ [] → lab p = lab' p) : spell enc lab c = spell enc lab' c :=
  spellFrom_congr [] c fun q a hq => by simpa using h (q ++ [a]) hq (by simp)

/-- The labels along the steps `c` below the chain `p`. -/
def labelsFrom (lab : List α → ℕ) (p : List α) : List α → List ℕ
  | [] => []
  | a :: c => lab (p ++ [a]) :: labelsFrom lab (p ++ [a]) c

theorem spellFrom_eq_flatMap (p c : List α) :
    spellFrom enc lab p c = (labelsFrom lab p c).flatMap enc := by
  induction c generalizing p with
  | nil => rfl
  | cons a c ih => rw [spellFrom, labelsFrom, List.flatMap_cons, ih]

theorem labelsFrom_append (p c d : List α) :
    labelsFrom lab p (c ++ d) = labelsFrom lab p c ++ labelsFrom lab (p ++ c) d := by
  induction c generalizing p with
  | nil => simp [labelsFrom]
  | cons a c ih => simp [labelsFrom, ih, List.append_assoc]

theorem exists_of_prefix_labelsFrom {p : List α} {c : List α} {q : List ℕ}
    (h : q <+: labelsFrom lab p c) : ∃ d, d <+: c ∧ q = labelsFrom lab p d := by
  induction c generalizing p q with
  | nil => exact ⟨[], List.nil_prefix, List.prefix_nil.mp h⟩
  | cons a c ih =>
    cases q with
    | nil => exact ⟨[], List.nil_prefix, rfl⟩
    | cons x q =>
      obtain ⟨rfl, hq⟩ := List.cons_prefix_cons.mp h
      obtain ⟨d, hd, rfl⟩ := ih hq
      exact ⟨a :: d, List.cons_prefix_cons.mpr ⟨rfl, hd⟩, rfl⟩

/-- The labels of the chains of `V` are positive, and siblings are labelled in the order of their
keys. -/
structure SiblingMono [LT α] (V : Set (List α)) (lab : List α → ℕ) : Prop where
  /-- Prefixes of chains of `V` are in `V`. -/
  closed : ∀ c d, c ++ d ∈ V → c ≠ [] → c ∈ V
  /-- Labels are positive. -/
  pos : ∀ c ∈ V, c ≠ [] → 1 ≤ lab c
  /-- Larger siblings have larger labels. -/
  mono : ∀ c a b, c ++ [a] ∈ V → c ++ [b] ∈ V → a < b → lab (c ++ [a]) < lab (c ++ [b])

theorem SiblingMono.subset [LT α] {V V' : Set (List α)} (h : SiblingMono V lab) (hsub : V' ⊆ V)
    (hclosed : ∀ c d, c ++ d ∈ V' → c ≠ [] → c ∈ V') : SiblingMono V' lab :=
  ⟨hclosed, fun c hc => h.pos c (hsub hc), fun c a b ha hb => h.mono c a b (hsub ha) (hsub hb)⟩

/-- The labels along a chain of `V` are positive. -/
theorem SiblingMono.pos_of_mem_labelsFrom [LT α] {V : Set (List α)} (h : SiblingMono V lab)
    {p c : List α} (hc : p ++ c ∈ V) : ∀ d ∈ labelsFrom lab p c, 1 ≤ d := by
  induction c generalizing p with
  | nil => simp [labelsFrom]
  | cons a c ih =>
    have hc' : p ++ [a] ++ c ∈ V := by simpa using hc
    exact List.forall_mem_cons.mpr ⟨h.pos _ (h.closed _ c hc' (by simp)) (by simp), ih hc'⟩

/-- The labels separate the chains of `X`: where two of them part the labels are positive and
ordered like the keys, and a chain of `X` is left under a positive label. Other steps may have the
label zero. -/
structure Separates [LT α] (X : Set (List α)) (lab : List α → ℕ) : Prop where
  /-- Where chains part, the labels are positive and ordered like the keys. -/
  part : ∀ p a b x y, p ++ a :: x ∈ X → p ++ b :: y ∈ X → a < b →
    1 ≤ lab (p ++ [a]) ∧ lab (p ++ [a]) < lab (p ++ [b])
  /-- The first label below a chain is positive. -/
  leave : ∀ p a x, p ∈ X → p ++ a :: x ∈ X → 1 ≤ lab (p ++ [a])

theorem Separates.subset [LT α] {X X' : Set (List α)} (h : Separates X lab) (hsub : X' ⊆ X) :
    Separates X' lab :=
  ⟨fun p a b x y ha hb => h.part p a b x y (hsub ha) (hsub hb),
    fun p a x hp ha => h.leave p a x (hsub hp) (hsub ha)⟩

/-- Labels that ascend among siblings separate all chains. -/
theorem SiblingMono.separates [LT α] {V : Set (List α)} (h : SiblingMono V lab) :
    Separates V lab := by
  have hstep (p : List α) (a : α) (x : List α) (hmem : p ++ a :: x ∈ V) : p ++ [a] ∈ V :=
    h.closed (p ++ [a]) x (by simpa using hmem) (by simp)
  refine ⟨fun p a b x y ha hb hlt => ?_, fun p a x _ ha => h.pos _ (hstep p a x ha) (by simp)⟩
  have hmem := hstep p a x ha
  exact ⟨h.pos _ hmem (by simp), h.mono p a b hmem (hstep p b y hb) hlt⟩

section Order

variable [LinearOrder α] {X V : Set (List α)}

theorem Separates.spellFrom_key_lt (hlab : Separates X lab) (henc : OrderedPrefixCode enc)
    {p c c' : List α} (h : Above c c') (hc : p ++ c ∈ X) (hc' : p ++ c' ∈ X) :
    sortKey (spellFrom enc lab p c') < sortKey (spellFrom enc lab p c) := by
  induction h generalizing p with
  | @nil a c' =>
    refine sortKey_lt_nil fun hnil => ?_
    have hpos := hlab.leave p a c' (by simpa using hc) hc'
    exact henc.ne_nil hpos (List.append_eq_nil_iff.mp hnil).1
  | @rel a c b c' hba =>
    obtain ⟨hpos, hlt⟩ := hlab.part p b a c' c hc' hc hba
    exact sortKey_lt_of_firstDiff ((henc.firstDiff _ _ hpos hlt).append_right _ _)
  | @cons a c c' _ ih => exact sortKey_append_lt _ (ih (by simpa using hc) (by simpa using hc'))

/-- **The display order is the descending order of keys**, where the labels separate the chains. -/
theorem Separates.key_lt (hlab : Separates X lab) (henc : OrderedPrefixCode enc) {c c' : List α}
    (h : Above c c') (hc : c ∈ X) (hc' : c' ∈ X) :
    sortKey (spell enc lab c') < sortKey (spell enc lab c) :=
  hlab.spellFrom_key_lt henc (p := []) h hc hc'

/-- Keys are compared as chains are. -/
theorem Separates.key_lt_iff (hlab : Separates X lab) (henc : OrderedPrefixCode enc)
    {c c' : List α} (hc : c ∈ X) (hc' : c' ∈ X) :
    sortKey (spell enc lab c') < sortKey (spell enc lab c) ↔ Above c c' := by
  constructor
  · intro hlt
    rcases above_trichotomy c c' with h | rfl | h
    · exact h
    · exact absurd hlt (lt_irrefl _)
    · exact absurd hlt (lt_asymm (hlab.key_lt henc h hc' hc))
  · exact fun h => hlab.key_lt henc h hc hc'

/-- Chains that are separated have different spellings. -/
theorem Separates.spell_injective (hlab : Separates X lab) (henc : OrderedPrefixCode enc)
    {c c' : List α} (hc : c ∈ X) (hc' : c' ∈ X) (h : spell enc lab c = spell enc lab c') :
    c = c' := by
  rcases above_trichotomy c c' with hab | rfl | hab
  · exact absurd (hlab.key_lt henc hab hc hc') (by rw [h]; exact lt_irrefl _)
  · rfl
  · exact absurd (hlab.key_lt henc hab hc' hc) (by rw [h]; exact lt_irrefl _)

variable (henc : OrderedPrefixCode enc) (hlab : SiblingMono V lab)

include henc hlab

/-- **The display order is the descending order of keys.** -/
theorem spell_key_lt {c c' : List α} (h : Above c c') (hc : c ∈ V) (hc' : c' ∈ V) :
    sortKey (spell enc lab c') < sortKey (spell enc lab c) :=
  hlab.separates.key_lt henc h hc hc'

/-- Keys are compared as chains are. -/
theorem spell_key_lt_iff {c c' : List α} (hc : c ∈ V) (hc' : c' ∈ V) :
    sortKey (spell enc lab c') < sortKey (spell enc lab c) ↔ Above c c' :=
  hlab.separates.key_lt_iff henc hc hc'

/-- **Different chains have different spellings.** -/
theorem spell_injective {c c' : List α} (hc : c ∈ V) (hc' : c' ∈ V)
    (h : spell enc lab c = spell enc lab c') : c = c' :=
  hlab.separates.spell_injective henc hc hc' h

end Order

end Spell

end SalRuntime
