import SalRuntime.Foundations.Utf8
import SalRuntime.Wire.Octets

/-!
# Texts in snapshots

What snapshots do to texts: strings are joined, and their bytes are decoded with replacement, without
the byte order mark.

## Main definitions

* `WellFormed` — a text without lone surrogates.
* `joinTexts` — the texts of a list, joined.
* `decodeLossy` — the decoder.

## Main results

* `decodeLossy_utf8` — a well-formed text is decoded, without a byte order mark.
-/

namespace SalRuntime

/-- A text without lone surrogates. -/
def WellFormed (t : Text) : Prop := ∀ c ∈ t, c.isValidChar

instance decidableWellFormed (t : Text) : Decidable (WellFormed t) :=
  inferInstanceAs (Decidable (∀ c ∈ t, c.isValidChar))

/-- A text does not start with the byte order mark. -/
def NoMark (t : Text) : Prop := t.head? ≠ some BOM

instance decidableNoMark (t : Text) : Decidable (NoMark t) :=
  inferInstanceAs (Decidable (t.head? ≠ some BOM))

/-- Pair the surrogates that have come to stand next to each other. -/
def pairSurrogates : Text → Text
  | hi :: lo :: t =>
    if 0xD800 ≤ hi ∧ hi ≤ 0xDBFF ∧ 0xDC00 ≤ lo ∧ lo ≤ 0xDFFF then
      (0x10000 + (hi - 0xD800) * 0x400 + (lo - 0xDC00)) :: pairSurrogates t
    else hi :: pairSurrogates (lo :: t)
  | [c] => [c]
  | [] => []

/-- Join texts. -/
def joinTexts (ts : List Text) : Text := pairSurrogates ts.flatten

/-- Decode bytes. -/
def decodeLossy (bs : List UInt8) : Text := stripBom (Utf8.decode bs)

theorem pairSurrogates_eq_self {t : Text} (h : WellFormed t) : pairSurrogates t = t := by
  induction t using pairSurrogates.induct with
  | case1 hi lo t hpair _ =>
    have hhi : hi < 0xD800 ∨ 0xDFFF < hi ∧ hi < 0x110000 := h hi List.mem_cons_self
    omega
  | case2 hi lo t hpair ih =>
    rw [pairSurrogates, if_neg hpair, ih fun c hc => h c (List.mem_cons_of_mem _ hc)]
  | case3 c => rfl
  | case4 => rfl

theorem joinTexts_eq {ts : List Text} (h : ∀ t ∈ ts, WellFormed t) : joinTexts ts = ts.flatten :=
  pairSurrogates_eq_self fun c hc => by
    obtain ⟨t, ht, hct⟩ := List.mem_flatten.mp hc
    exact h t ht c hct

theorem utf8_eq (t : Text) : utf8 t = (t.map scalar).flatMap String.utf8EncodeChar := by
  rw [utf8, String.toByteArray_ofList, List.utf8Encode, List.toList_data_toByteArray]

theorem scalar_toNat {c : ℕ} (h : c.isValidChar) : (scalar c).toNat = c := by
  rw [scalar, dif_pos h]
  rfl

/-- **Well-formed texts** are decoded, without a byte order mark. -/
theorem decodeLossy_utf8 {t : Text} (h : WellFormed t) : decodeLossy (utf8 t) = stripBom t := by
  have hmap : (t.map scalar).map Char.toNat = t := by
    rw [List.map_map]
    exact (List.map_congr_left fun c hc => scalar_toNat (h c hc)).trans (List.map_id t)
  rw [decodeLossy, utf8_eq, Utf8.decode_flatMap_encodeChar, hmap]

theorem stripBom_eq_self_iff {t : Text} : stripBom t = t ↔ NoMark t := by
  cases t with
  | nil => exact iff_of_true rfl (by simp [NoMark])
  | cons c t =>
    rw [stripBom, NoMark, List.head?_cons, ne_eq, Option.some.injEq]
    by_cases hc : c = BOM
    · rw [if_pos hc]
      exact iff_of_false (fun h => by simpa using congrArg List.length h) (by simpa using hc)
    · rw [if_neg hc]
      exact iff_of_true rfl hc

theorem WellFormed.stripBom {t : Text} (h : WellFormed t) : WellFormed (stripBom t) := by
  cases t with
  | nil => exact h
  | cons c t =>
    rw [SalRuntime.stripBom]
    split_ifs
    · exact fun d hd => h d (List.mem_cons_of_mem _ hd)
    · exact h

end SalRuntime
