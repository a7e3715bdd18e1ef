import Mathlib.Data.Nat.Notation
import Mathlib.Tactic.SplitIfs

/-!
# Decoding UTF-8 with replacement

The decoder of UTF-8 that never fails: it goes through the bytes one at a time and replaces what is
not the encoding of a character. The encodings of characters are decoded to their code points.

## Main definitions

* `Utf8.Pending` — what the decoder expects after the first bytes of a character.
* `Utf8.decode` — the decoder.

## Main results

* `Utf8.decode_flatMap_encodeChar` — encoded characters are decoded to their code points.
-/

namespace SalRuntime.Utf8

/-- The replacement character. -/
def replacement : ℕ := 0xFFFD

/-- The first bytes of a character: how many are missing, the bits so far, and the bounds of the next
byte. -/
structure Pending where
  /-- The number of missing bytes. -/
  needed : ℕ
  /-- The bits so far. -/
  code : ℕ
  /-- The lower bound of the next byte. -/
  lower : ℕ
  /-- The upper bound of the next byte. -/
  upper : ℕ
  deriving DecidableEq, Repr

/-- The decoder at the first byte of a character. -/
def first (b : ℕ) : List ℕ × Option Pending :=
  if b ≤ 0x7F then ([b], none)
  else if 0xC2 ≤ b ∧ b ≤ 0xDF then ([], some ⟨1, b - 0xC0, 0x80, 0xBF⟩)
  else if 0xE0 ≤ b ∧ b ≤ 0xEF then
    ([], some ⟨2, b - 0xE0, if b = 0xE0 then 0xA0 else 0x80, if b = 0xED then 0x9F else 0xBF⟩)
  else if 0xF0 ≤ b ∧ b ≤ 0xF4 then
    ([], some ⟨3, b - 0xF0, if b = 0xF0 then 0x90 else 0x80, if b = 0xF4 then 0x8F else 0xBF⟩)
  else ([replacement], none)

/-- The decoder at a byte. A byte that does not continue the character starts a new one. -/
def feed : Option Pending → ℕ → List ℕ × Option Pending
  | none, b => first b
  | some p, b =>
    if p.lower ≤ b ∧ b ≤ p.upper then
      let code := p.code * 64 + (b - 0x80)
      if p.needed = 1 then ([code], none) else ([], some ⟨p.needed - 1, code, 0x80, 0xBF⟩)
    else (replacement :: (first b).1, (first b).2)

/-- The decoder on bytes. An unfinished character at the end is replaced. -/
def decodeFrom : Option Pending → List UInt8 → List ℕ
  | none, [] => []
  | some _, [] => [replacement]
  | p, b :: bs => (feed p b.toNat).1 ++ decodeFrom (feed p b.toNat).2 bs

/-- Decode bytes. -/
def decode (bs : List UInt8) : List ℕ := decodeFrom none bs

theorem decodeFrom_cons (p : Option Pending) {n : ℕ} (hn : n < 256) (bs : List UInt8) :
    decodeFrom p (UInt8.ofNat n :: bs) = (feed p n).1 ++ decodeFrom (feed p n).2 bs := by
  have htoNat : (UInt8.ofNat n).toNat = n := UInt8.toNat_ofNat_of_lt' hn
  rw [decodeFrom, htoNat]

theorem first_two {x : ℕ} (hlo : 2 ≤ x) (hhi : x < 32) :
    first (x + 0xC0) = ([], some ⟨1, x, 0x80, 0xBF⟩) := by
  rw [first, if_neg (by omega), if_pos (by omega), Nat.add_sub_cancel]

theorem first_three {x : ℕ} (hx : x < 16) : first (x + 0xE0) =
    ([], some ⟨2, x, if x = 0 then 0xA0 else 0x80, if x = 13 then 0x9F else 0xBF⟩) := by
  rw [first, if_neg (by omega), if_neg (by omega), if_pos (by omega), Nat.add_sub_cancel]
  simp only [show (x + 0xE0 = 0xE0) = (x = 0) by simp, show (x + 0xE0 = 0xED) = (x = 13) by simp]

theorem first_four {x : ℕ} (hx : x < 5) : first (x + 0xF0) =
    ([], some ⟨3, x, if x = 0 then 0x90 else 0x80, if x = 4 then 0x8F else 0xBF⟩) := by
  rw [first, if_neg (by omega), if_neg (by omega), if_neg (by omega), if_pos (by omega),
    Nat.add_sub_cancel]
  simp only [show (x + 0xF0 = 0xF0) = (x = 0) by simp, show (x + 0xF0 = 0xF4) = (x = 4) by simp]

/-- A byte within the bounds continues the character. -/
theorem feed_next {n c lo hi y : ℕ} (hlo : lo ≤ y + 0x80) (hhi : y + 0x80 ≤ hi) :
    feed (some ⟨n + 2, c, lo, hi⟩) (y + 0x80) = ([], some ⟨n + 1, c * 64 + y, 0x80, 0xBF⟩) := by
  simp [feed, hlo, hhi]

/-- The last byte completes the character. -/
theorem feed_last {c lo hi y : ℕ} (hlo : lo ≤ y + 0x80) (hhi : y + 0x80 ≤ hi) :
    feed (some ⟨1, c, lo, hi⟩) (y + 0x80) = ([c * 64 + y], none) := by
  simp [feed, hlo, hhi]

/-- **A character** is decoded to its code point. -/
theorem decodeFrom_encodeChar (c : Char) (bs : List UInt8) :
    decodeFrom none (String.utf8EncodeChar c ++ bs) = c.toNat :: decodeFrom none bs := by
  have hvalid : c.toNat < 0xD800 ∨ 0xDFFF < c.toNat ∧ c.toNat < 0x110000 := c.valid
  rw [String.utf8EncodeChar, show c.val.toNat = c.toNat from rfl]
  generalize c.toNat = v at hvalid
  by_cases h1 : v ≤ 0x7F
  · have hfirst : first v = ([v], none) := if_pos h1
    simp only [h1, if_true, List.cons_append, List.nil_append]
    rw [decodeFrom_cons none (by omega), feed, hfirst]
    rfl
  by_cases h2 : v ≤ 0x7FF
  · simp only [h1, h2, if_true, if_false, List.cons_append, List.nil_append]
    rw [decodeFrom_cons none (by omega), feed, first_two (by omega) (by omega),
      decodeFrom_cons _ (by omega), feed_last (by omega) (by omega),
      show v / 64 % 32 * 64 + v % 64 = v by omega]
    rfl
  by_cases h3 : v ≤ 0xFFFF
  · simp only [h1, h2, h3, if_true, if_false, List.cons_append, List.nil_append]
    rw [decodeFrom_cons none (by omega), feed, first_three (by omega),
      decodeFrom_cons _ (by omega), feed_next (by split_ifs <;> omega) (by split_ifs <;> omega),
      Nat.zero_add, decodeFrom_cons _ (by omega), feed_last (by omega) (by omega),
      show (v / 4096 % 16 * 64 + v / 64 % 64) * 64 + v % 64 = v by omega]
    rfl
  · simp only [h1, h2, h3, if_false, List.cons_append, List.nil_append]
    rw [decodeFrom_cons none (by omega), feed, first_four (by omega),
      decodeFrom_cons _ (by omega), feed_next (by split_ifs <;> omega) (by split_ifs <;> omega),
      decodeFrom_cons _ (by omega), feed_next (by omega) (by omega),
      Nat.zero_add, decodeFrom_cons _ (by omega), feed_last (by omega) (by omega),
      show ((v / 262144 % 8 * 64 + v / 4096 % 64) * 64 + v / 64 % 64) * 64 + v % 64 = v by omega]
    rfl

/-- **Encoded characters** are decoded to their code points. -/
theorem decode_flatMap_encodeChar (cs : List Char) :
    decode (cs.flatMap String.utf8EncodeChar) = cs.map Char.toNat := by
  induction cs with
  | nil => rfl
  | cons c cs ih =>
    rw [List.flatMap_cons, decode, decodeFrom_encodeChar, List.map_cons, ← ih]
    rfl

end SalRuntime.Utf8
