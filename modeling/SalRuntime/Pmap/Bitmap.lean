import Mathlib.Data.Nat.Bitwise
import Mathlib.Data.List.Range
import SalRuntime.Foundations.HashTrie

/-!
# Bitmaps

A branch of the trie keeps its kids in an array without gaps, in the order of their digits, and a
bitmap of 32 bits that says which digits have a kid. The place of a kid in the array is the number of
bits below its digit, which `popcount` finds by adding up the bits pairwise in a word.

## Main definitions

* `chunk` — the five bits of a hash at a shift.
* `popcount` — the number of bits of a word.
* `bits`, `bitsBelow`, `bitsAbove` — the bits of a bitmap, and those on either side of a digit.

## Main results

* `popcount_below` — the place of a digit is the number of bits below it.
* `bits_eq_of_bit`, `bits_setBit`, `bits_clearBit` — how the bits lie around a digit, and what the
  updates of a bitmap do to them.
* `chunks` — a hash of 32 bits is determined by its seven chunks.
-/

namespace SalRuntime

namespace PMap

/-- The bits consumed by a level of the trie. -/
def BITS : ℕ := 5

/-- The greatest digit. -/
def MASK : UInt32 := 31

/-- The digit of a hash at a shift. Shifts wrap at 32, as they do in the source. -/
def chunk (h : UInt32) (shift : ℕ) : UInt32 := (h >>> UInt32.ofNat shift) &&& MASK

/-- The number of bits of a word. -/
def popcount (x : UInt32) : UInt32 :=
  let x := x - ((x >>> 1) &&& (0x55555555 : UInt32))
  let x := (x &&& (0x33333333 : UInt32)) + ((x >>> 2) &&& (0x33333333 : UInt32))
  let x := (x + (x >>> 4)) &&& (0x0f0f0f0f : UInt32)
  (x * 0x01010101) >>> 24

/-! ### Counting the bits of a word byte by byte -/

/-- The number of bits of a byte. -/
def byteBits (b : ℕ) : ℕ := ((List.range 8).filter fun i => b.testBit i).length

theorem land_add_mul {a m : ℕ} (ha : a < 256) (hm : m < 256) (x y : ℕ) :
    (a + 256 * x) &&& (m + 256 * y) = (a &&& m) + 256 * (x &&& y) := by
  have ham : a &&& m < 256 := lt_of_le_of_lt Nat.and_le_left ha
  refine Nat.eq_of_testBit_eq fun i => ?_
  rw [Nat.testBit_and, Nat.add_comm a, Nat.add_comm m, Nat.add_comm (a &&& m),
    show (256 : ℕ) = 2 ^ 8 by rfl, Nat.testBit_two_pow_mul_add _ ha, Nat.testBit_two_pow_mul_add _ hm,
    Nat.testBit_two_pow_mul_add _ ham]
  split_ifs
  · rw [Nat.testBit_and]
  · rw [Nat.testBit_and]

/-- Four bytes, the lowest first. -/
def word (b₀ b₁ b₂ b₃ : ℕ) : ℕ := b₀ + 256 * (b₁ + 256 * (b₂ + 256 * b₃))

theorem land_word {a₀ a₁ a₂ m : ℕ} (h₀ : a₀ < 256) (h₁ : a₁ < 256) (h₂ : a₂ < 256) (hm : m < 256)
    (a₃ : ℕ) : word a₀ a₁ a₂ a₃ &&& word m m m m =
      word (a₀ &&& m) (a₁ &&& m) (a₂ &&& m) (a₃ &&& m) := by
  rw [word, word, land_add_mul h₀ hm, land_add_mul h₁ hm, land_add_mul h₂ hm, word]

theorem exists_word (x : UInt32) : ∃ b₀ b₁ b₂ b₃, b₀ < 256 ∧ b₁ < 256 ∧ b₂ < 256 ∧ b₃ < 256 ∧
    x.toNat = word b₀ b₁ b₂ b₃ := by
  have hx := x.toNat_lt
  refine ⟨x.toNat % 256, x.toNat / 256 % 256, x.toNat / 65536 % 256, x.toNat / 16777216,
    by omega, by omega, by omega, by omega, ?_⟩
  rw [word]
  omega

theorem and_pairs : ∀ b < 256, ∀ c < 2, (b / 2 + 128 * c) &&& 0x55 = b / 2 &&& 0x55 := by
  decide +kernel

theorem and_nibbles : ∀ b < 256, ∀ c < 4, (b / 4 + 64 * c) &&& 0x33 = b / 4 &&& 0x33 := by
  decide +kernel

/-- The bits of a byte, added up in pairs and then in nibbles. -/
def pairSums (b : ℕ) : ℕ := b - (b / 2 &&& 0x55)

/-- The bits of a byte, added up in nibbles. -/
def nibbleSums (b : ℕ) : ℕ := (pairSums b &&& 0x33) + (pairSums b / 4 &&& 0x33)

theorem byteBits_eq : ∀ b < 256, pairSums b < 256 ∧ nibbleSums b ≤ 68 ∧ nibbleSums b % 16 ≤ 4 ∧
    (nibbleSums b + nibbleSums b / 16) % 16 = byteBits b ∧ byteBits b ≤ 8 := by
  decide +kernel

section Word

variable {x : UInt32} {b₀ b₁ b₂ b₃ : ℕ} (h₀ : b₀ < 256) (h₁ : b₁ < 256) (h₂ : b₂ < 256)
  (h₃ : b₃ < 256)

include h₀ h₁ h₂ h₃

theorem toNat_pairSums (hx : x.toNat = word b₀ b₁ b₂ b₃) :
    (x - ((x >>> 1) &&& (0x55555555 : UInt32))).toNat =
      word (pairSums b₀) (pairSums b₁) (pairSums b₂) (pairSums b₃) := by
  have hshift : x.toNat / 2 = word (b₀ / 2 + 128 * (b₁ % 2)) (b₁ / 2 + 128 * (b₂ % 2))
      (b₂ / 2 + 128 * (b₃ % 2)) (b₃ / 2 + 128 * 0) := by
    rw [hx, word, word]
    omega
  have hand : ((x >>> 1) &&& (0x55555555 : UInt32)).toNat =
      word (b₀ / 2 &&& 0x55) (b₁ / 2 &&& 0x55) (b₂ / 2 &&& 0x55) (b₃ / 2 &&& 0x55) := by
    rw [UInt32.toNat_and, UInt32.toNat_shiftRight, Nat.shiftRight_eq_div_pow,
      show (0x55555555 : UInt32).toNat = word 0x55 0x55 0x55 0x55 by rfl,
      show x.toNat / 2 ^ ((1 : UInt32).toNat % 32) = x.toNat / 2 by rfl, hshift,
      land_word (by omega) (by omega) (by omega) (by omega), and_pairs b₀ h₀ _ (by omega),
      and_pairs b₁ h₁ _ (by omega), and_pairs b₂ h₂ _ (by omega), and_pairs b₃ h₃ _ (by omega)]
  have hle : ∀ b, b / 2 &&& 0x55 ≤ b := fun b => Nat.and_le_left.trans (Nat.div_le_self b 2)
  have := hle b₀
  have := hle b₁
  have := hle b₂
  have := hle b₃
  rw [UInt32.toNat_sub_of_le _ _ (by rw [UInt32.le_iff_toNat_le, hand, hx, word, word]; omega), hand,
    hx]
  simp only [word, pairSums]
  omega

theorem toNat_nibbleSums (hx : x.toNat = word (pairSums b₀) (pairSums b₁) (pairSums b₂) (pairSums b₃)) :
    ((x &&& (0x33333333 : UInt32)) + ((x >>> 2) &&& (0x33333333 : UInt32))).toNat =
      word (nibbleSums b₀) (nibbleSums b₁) (nibbleSums b₂) (nibbleSums b₃) := by
  obtain ⟨p₀, n₀, -⟩ := byteBits_eq b₀ h₀
  obtain ⟨p₁, n₁, -⟩ := byteBits_eq b₁ h₁
  obtain ⟨p₂, n₂, -⟩ := byteBits_eq b₂ h₂
  obtain ⟨p₃, n₃, -⟩ := byteBits_eq b₃ h₃
  have hmask : (0x33333333 : UInt32).toNat = word 0x33 0x33 0x33 0x33 := rfl
  have hshift : x.toNat / 4 = word (pairSums b₀ / 4 + 64 * (pairSums b₁ % 4))
      (pairSums b₁ / 4 + 64 * (pairSums b₂ % 4)) (pairSums b₂ / 4 + 64 * (pairSums b₃ % 4))
      (pairSums b₃ / 4 + 64 * 0) := by
    rw [hx, word, word]
    omega
  have hand : ((x >>> 2) &&& (0x33333333 : UInt32)).toNat = word (pairSums b₀ / 4 &&& 0x33)
      (pairSums b₁ / 4 &&& 0x33) (pairSums b₂ / 4 &&& 0x33) (pairSums b₃ / 4 &&& 0x33) := by
    rw [UInt32.toNat_and, UInt32.toNat_shiftRight, Nat.shiftRight_eq_div_pow, hmask,
      show x.toNat / 2 ^ ((2 : UInt32).toNat % 32) = x.toNat / 4 by rfl, hshift,
      land_word (by omega) (by omega) (by omega) (by omega), and_nibbles _ p₀ _ (by omega),
      and_nibbles _ p₁ _ (by omega), and_nibbles _ p₂ _ (by omega), and_nibbles _ p₃ _ (by omega)]
  rw [UInt32.toNat_add, hand, UInt32.toNat_and, hmask, hx, land_word p₀ p₁ p₂ (by omega)]
  simp only [word, nibbleSums] at n₀ n₁ n₂ n₃ ⊢
  omega

theorem toNat_byteSums
    (hx : x.toNat = word (nibbleSums b₀) (nibbleSums b₁) (nibbleSums b₂) (nibbleSums b₃)) :
    ((x + (x >>> 4)) &&& (0x0f0f0f0f : UInt32)).toNat =
      word (byteBits b₀) (byteBits b₁) (byteBits b₂) (byteBits b₃) := by
  obtain ⟨-, n₀, m₀, r₀, -⟩ := byteBits_eq b₀ h₀
  obtain ⟨-, n₁, m₁, r₁, -⟩ := byteBits_eq b₁ h₁
  obtain ⟨-, n₂, m₂, r₂, -⟩ := byteBits_eq b₂ h₂
  obtain ⟨-, n₃, m₃, r₃, -⟩ := byteBits_eq b₃ h₃
  have hshift : x.toNat + x.toNat / 16 =
      word (nibbleSums b₀ + nibbleSums b₀ / 16 + 16 * (nibbleSums b₁ % 16))
        (nibbleSums b₁ + nibbleSums b₁ / 16 + 16 * (nibbleSums b₂ % 16))
        (nibbleSums b₂ + nibbleSums b₂ / 16 + 16 * (nibbleSums b₃ % 16))
        (nibbleSums b₃ + nibbleSums b₃ / 16) := by
    rw [hx, word, word]
    omega
  have hsum : (x + (x >>> 4)).toNat = x.toNat + x.toNat / 16 := by
    rw [UInt32.toNat_add, UInt32.toNat_shiftRight, Nat.shiftRight_eq_div_pow,
      show x.toNat / 2 ^ ((4 : UInt32).toNat % 32) = x.toNat / 16 by rfl, Nat.mod_eq_of_lt]
    rw [hshift, word]
    omega
  have hmod : ∀ n, n &&& 0x0f = n % 16 := fun n => Nat.and_two_pow_sub_one_eq_mod n 4
  rw [UInt32.toNat_and, show (0x0f0f0f0f : UInt32).toNat = word 0x0f 0x0f 0x0f 0x0f by rfl, hsum,
    hshift, land_word (by omega) (by omega) (by omega) (by omega), hmod, hmod, hmod, hmod, ← r₀, ← r₁,
    ← r₂, ← r₃, word, word]
  omega

/-- The number of bits of a word, byte by byte. -/
theorem toNat_popcount_word (hx : x.toNat = word b₀ b₁ b₂ b₃) :
    (popcount x).toNat = byteBits b₀ + byteBits b₁ + byteBits b₂ + byteBits b₃ := by
  obtain ⟨-, -, -, -, l₀⟩ := byteBits_eq b₀ h₀
  obtain ⟨-, -, -, -, l₁⟩ := byteBits_eq b₁ h₁
  obtain ⟨-, -, -, -, l₂⟩ := byteBits_eq b₂ h₂
  obtain ⟨-, -, -, -, l₃⟩ := byteBits_eq b₃ h₃
  rw [popcount, UInt32.toNat_shiftRight, UInt32.toNat_mul, toNat_byteSums h₀ h₁ h₂ h₃
      (toNat_nibbleSums h₀ h₁ h₂ h₃ (toNat_pairSums h₀ h₁ h₂ h₃ hx)),
    show (0x01010101 : UInt32).toNat = word 1 1 1 1 by rfl, Nat.shiftRight_eq_div_pow,
    show (2 : ℕ) ^ ((24 : UInt32).toNat % 32) = 16777216 by rfl]
  generalize byteBits b₀ = f, byteBits b₁ = g, byteBits b₂ = h, byteBits b₃ = i at l₀ l₁ l₂ l₃
  have hmul : word f g h i * word 1 1 1 1 = word f (f + g) (f + g + h) (f + g + h + i) +
      2 ^ 32 * word (g + h + i) (h + i) i 0 := by
    simp only [word]
    omega
  rw [hmul, Nat.add_mul_mod_self_left, Nat.mod_eq_of_lt (by simp only [word]; omega), word]
  omega

end Word

theorem byteBits_of_word {n b : ℕ} (hb : n % 256 = b) :
    byteBits b = ((List.range 8).filter fun i => n.testBit i).length := by
  rw [byteBits]
  congr 1
  refine List.filter_congr fun i hi => ?_
  rw [← hb, show (256 : ℕ) = 2 ^ 8 by rfl, Nat.testBit_mod_two_pow,
    decide_eq_true (List.mem_range.mp hi), Bool.true_and]

/-- **The number of bits of a word.** -/
theorem toNat_popcount (x : UInt32) :
    (popcount x).toNat = ((List.range 32).filter fun i => x.toNat.testBit i).length := by
  obtain ⟨b₀, b₁, b₂, b₃, h₀, h₁, h₂, h₃, hx⟩ := exists_word x
  have hbyte : ∀ j b, x.toNat / 2 ^ (8 * j) % 256 = b →
      byteBits b = (((List.range 8).map (8 * j + ·)).filter fun i => x.toNat.testBit i).length := by
    intro j b hb
    rw [byteBits_of_word hb, List.filter_map, List.length_map]
    congr 1
    refine List.filter_congr fun i _ => ?_
    rw [Nat.testBit_div_two_pow, Nat.add_comm]
    rfl
  have hrange : List.range 32 = (List.range 8).map (8 * 0 + ·) ++ (List.range 8).map (8 * 1 + ·) ++
      (List.range 8).map (8 * 2 + ·) ++ (List.range 8).map (8 * 3 + ·) := rfl
  rw [toNat_popcount_word h₀ h₁ h₂ h₃ hx, hrange, List.filter_append, List.filter_append,
    List.filter_append, List.length_append, List.length_append, List.length_append,
    ← hbyte 0 b₀ (by rw [hx, word]; omega), ← hbyte 1 b₁ (by rw [hx, word]; omega),
    ← hbyte 2 b₂ (by rw [hx, word]; omega), ← hbyte 3 b₃ (by rw [hx, word]; omega)]

/-! ### The bits of a bitmap -/

/-- The bitmap with one bit. -/
def bitOf (c : UInt32) : UInt32 := 1 <<< c

/-- The digits whose bit is set. -/
def bits (b : UInt32) : List ℕ := (List.range 32).filter fun i => b.toNat.testBit i

/-- The place of a digit among the kids of a branch. -/
def place (b c : UInt32) : ℕ := (popcount (b &&& (bitOf c - 1))).toNat

/-- The set digits below `i`. -/
def bitsBelow (b : UInt32) (i : ℕ) : List ℕ := (List.range i).filter fun j => b.toNat.testBit j

/-- The set digits above `i`. -/
def bitsAbove (b : UInt32) (i : ℕ) : List ℕ :=
  (List.range' (i + 1) (31 - i)).filter fun j => b.toNat.testBit j

theorem mem_bits {b : UInt32} {i : ℕ} : i ∈ bits b ↔ i < 32 ∧ b.toNat.testBit i := by
  rw [bits, List.mem_filter, List.mem_range]

theorem lt_of_testBit {b : UInt32} {i : ℕ} (h : b.toNat.testBit i = true) : i < 32 := by
  by_contra hi
  have hle : 2 ^ 32 ≤ 2 ^ i := Nat.pow_le_pow_right (by decide) (by omega)
  have hlt := b.toNat_lt
  rw [Nat.testBit_lt_two_pow (by omega)] at h
  exact Bool.false_ne_true h

theorem lt_of_mem_bitsBelow {b : UInt32} {i j : ℕ} (h : j ∈ bitsBelow b i) : j < i :=
  List.mem_range.mp (List.mem_filter.mp h).1

theorem lt_of_mem_bitsAbove {b : UInt32} {i j : ℕ} (h : j ∈ bitsAbove b i) : i < j := by
  have hj := List.mem_range'_1.mp (List.mem_filter.mp h).1
  omega

theorem range_split {i : ℕ} (hi : i < 32) :
    List.range 32 = List.range i ++ i :: List.range' (i + 1) (31 - i) := by
  rw [List.range_eq_range', List.range_eq_range', show i :: List.range' (i + 1) (31 - i) =
      List.range' (0 + i) (31 - i + 1) by rw [Nat.zero_add, List.range'_succ], List.range'_append_1,
    show i + (31 - i + 1) = 32 by omega]

theorem bits_of_bit {b : UInt32} {i : ℕ} (hi : i < 32) (h : b.toNat.testBit i = true) :
    bits b = bitsBelow b i ++ i :: bitsAbove b i := by
  rw [bits, range_split hi, List.filter_append, List.filter_cons_of_pos h]
  rfl

theorem bits_of_not_bit {b : UInt32} {i : ℕ} (hi : i < 32) (h : b.toNat.testBit i = false) :
    bits b = bitsBelow b i ++ bitsAbove b i := by
  rw [bits, range_split hi, List.filter_append, List.filter_cons_of_neg (by simp [h])]
  rfl

theorem toNat_bitOf {c : UInt32} (hc : c < 32) : (bitOf c).toNat = 2 ^ c.toNat := by
  have hlt : c.toNat < 32 := UInt32.lt_iff_toNat_lt.mp hc
  rw [bitOf, UInt32.toNat_shiftLeft, Nat.mod_eq_of_lt hlt, Nat.shiftLeft_eq, UInt32.toNat_one,
    Nat.one_mul, Nat.mod_eq_of_lt (Nat.pow_lt_pow_right (by decide) hlt)]

theorem toNat_land_bitOf_sub {b c : UInt32} (hc : c < 32) :
    (b &&& (bitOf c - 1)).toNat = b.toNat % 2 ^ c.toNat := by
  have hpos : 1 ≤ 2 ^ c.toNat := Nat.one_le_two_pow
  have hle : (1 : UInt32) ≤ bitOf c := by
    rw [UInt32.le_iff_toNat_le, toNat_bitOf hc]
    exact hpos
  rw [UInt32.toNat_and, UInt32.toNat_sub_of_le _ _ hle, toNat_bitOf hc, UInt32.toNat_one,
    Nat.and_two_pow_sub_one_eq_mod]

/-- **The place of a digit** is the number of bits below it. -/
theorem place_eq {b c : UInt32} (hc : c < 32) : place b c = (bitsBelow b c.toNat).length := by
  have hlt : c.toNat < 32 := UInt32.lt_iff_toNat_lt.mp hc
  rw [place, toNat_popcount, toNat_land_bitOf_sub hc, range_split hlt, List.filter_append,
    List.filter_cons_of_neg (by simp [Nat.testBit_mod_two_pow])]
  have hbelow : (List.range c.toNat).filter (fun i => (b.toNat % 2 ^ c.toNat).testBit i) =
      bitsBelow b c.toNat := List.filter_congr fun i hi => by
    rw [Nat.testBit_mod_two_pow, decide_eq_true (List.mem_range.mp hi), Bool.true_and]
  have habove : (List.range' (c.toNat + 1) (31 - c.toNat)).filter
      (fun i => (b.toNat % 2 ^ c.toNat).testBit i) = [] := List.filter_eq_nil_iff.mpr fun i hi => by
    have hi := List.mem_range'_1.mp hi
    rw [Nat.testBit_mod_two_pow, decide_eq_false (by omega), Bool.false_and]
    exact Bool.false_ne_true
  rw [hbelow, habove, List.append_nil]

theorem land_bitOf_ne_zero {b c : UInt32} (hc : c < 32) :
    b &&& bitOf c ≠ 0 ↔ b.toNat.testBit c.toNat = true := by
  have hzero : b &&& bitOf c = 0 ↔ b.toNat &&& 2 ^ c.toNat = 0 := by
    rw [← UInt32.toNat_inj, UInt32.toNat_and, toNat_bitOf hc]
    rfl
  rw [Ne, hzero, Nat.and_two_pow]
  cases b.toNat.testBit c.toNat with
  | true => simp
  | false => simp

theorem testBit_setBit (b : UInt32) {c : UInt32} (hc : c < 32) (i : ℕ) :
    (b ||| bitOf c).toNat.testBit i = (b.toNat.testBit i || decide (c.toNat = i)) := by
  rw [UInt32.toNat_or, toNat_bitOf hc, Nat.testBit_or, Nat.testBit_two_pow]

theorem testBit_bitOf {c : UInt32} (hc : c < 32) (i : ℕ) :
    (bitOf c).toNat.testBit i = decide (c.toNat = i) := by
  rw [toNat_bitOf hc, Nat.testBit_two_pow]

theorem testBit_clearBit (b : UInt32) {c : UInt32} (hc : c < 32) (i : ℕ) :
    (b &&& ~~~bitOf c).toNat.testBit i = (b.toNat.testBit i && !decide (c.toNat = i)) := by
  have hpow : 2 ^ c.toNat < 2 ^ 32 :=
    Nat.pow_lt_pow_right (by decide) (UInt32.lt_iff_toNat_lt.mp hc)
  rw [UInt32.toNat_and, Nat.testBit_and, UInt32.toNat_not, toNat_bitOf hc,
    show UInt32.size - 1 - 2 ^ c.toNat = 2 ^ 32 - (2 ^ c.toNat + 1) by rw [UInt32.size]; omega,
    Nat.testBit_two_pow_sub_succ hpow, Nat.testBit_two_pow]
  cases hbit : b.toNat.testBit i with
  | true => rw [decide_eq_true (lt_of_testBit hbit), Bool.true_and]
  | false => rw [Bool.false_and, Bool.false_and]

theorem bitsBelow_congr {b b' : UInt32} {i : ℕ}
    (h : ∀ j < i, b.toNat.testBit j = b'.toNat.testBit j) : bitsBelow b i = bitsBelow b' i :=
  List.filter_congr fun j hj => h j (List.mem_range.mp hj)

theorem bitsAbove_congr {b b' : UInt32} {i : ℕ}
    (h : ∀ j, i < j → j < 32 → b.toNat.testBit j = b'.toNat.testBit j) :
    bitsAbove b i = bitsAbove b' i :=
  List.filter_congr fun j hj => by
    have hj := List.mem_range'_1.mp hj
    exact h j (by omega) (by omega)

/-! ### Arrays without gaps -/

section Packed

variable {β : Type} {b c : UInt32} (hc : c < 32) (f : ℕ → β)

/-- The array without gaps of the values at the set digits of a bitmap. -/
def packed (b : UInt32) (f : ℕ → β) : List β := (bits b).map f

theorem map_update_below (y : β) :
    (bitsBelow b c.toNat).map (Function.update f c.toNat y) = (bitsBelow b c.toNat).map f :=
  List.map_congr_left fun _ hj => Function.update_of_ne (lt_of_mem_bitsBelow hj).ne y f

theorem map_update_above (y : β) :
    (bitsAbove b c.toNat).map (Function.update f c.toNat y) = (bitsAbove b c.toNat).map f :=
  List.map_congr_left fun _ hj => Function.update_of_ne (lt_of_mem_bitsAbove hj).ne' y f

include hc

theorem packed_of_bit (h : b.toNat.testBit c.toNat = true) :
    packed b f = (bitsBelow b c.toNat).map f ++ f c.toNat :: (bitsAbove b c.toNat).map f := by
  rw [packed, bits_of_bit (UInt32.lt_iff_toNat_lt.mp hc) h, List.map_append, List.map_cons]

theorem packed_of_not_bit (h : b.toNat.testBit c.toNat = false) :
    packed b f = (bitsBelow b c.toNat).map f ++ (bitsAbove b c.toNat).map f := by
  rw [packed, bits_of_not_bit (UInt32.lt_iff_toNat_lt.mp hc) h, List.map_append]

theorem packed_setBit (y : β) : packed (b ||| bitOf c) (Function.update f c.toNat y) =
    (bitsBelow b c.toNat).map f ++ y :: (bitsAbove b c.toNat).map f := by
  have hbit : (b ||| bitOf c).toNat.testBit c.toNat = true := by
    rw [testBit_setBit b hc, decide_eq_true rfl, Bool.or_true]
  have hother : ∀ j, j ≠ c.toNat → (b ||| bitOf c).toNat.testBit j = b.toNat.testBit j :=
    fun j hj => by rw [testBit_setBit b hc, decide_eq_false hj.symm, Bool.or_false]
  rw [packed_of_bit hc _ hbit, map_update_below, map_update_above, Function.update_self,
    bitsBelow_congr fun j hj => hother j hj.ne, bitsAbove_congr fun j hj _ => hother j hj.ne']

theorem packed_clearBit : packed (b &&& ~~~bitOf c) f =
    (bitsBelow b c.toNat).map f ++ (bitsAbove b c.toNat).map f := by
  have hbit : (b &&& ~~~bitOf c).toNat.testBit c.toNat = false := by
    rw [testBit_clearBit b hc, decide_eq_true rfl, Bool.not_true, Bool.and_false]
  have hother : ∀ j, j ≠ c.toNat →
      (b &&& ~~~bitOf c).toNat.testBit j = b.toNat.testBit j := fun j hne => by
    rw [testBit_clearBit b hc, decide_eq_false hne.symm, Bool.not_false, Bool.and_true]
  rw [packed_of_not_bit hc _ hbit, bitsBelow_congr fun j hj => hother j hj.ne,
    bitsAbove_congr fun j hj _ => hother j hj.ne']

theorem length_below : ((bitsBelow b c.toNat).map f).length = place b c := by
  rw [List.length_map, place_eq hc]

theorem getElem?_packed (h : b.toNat.testBit c.toNat = true) :
    (packed b f)[place b c]? = some (f c.toNat) := by
  rw [packed_of_bit hc f h, ← length_below hc f, List.getElem?_append_right (Nat.le_refl _),
    Nat.sub_self]
  rfl

theorem set_packed (h : b.toNat.testBit c.toNat = true) (y : β) :
    (packed b f).set (place b c) y = packed b (Function.update f c.toNat y) := by
  rw [packed_of_bit hc f h, packed_of_bit hc _ h, map_update_below, map_update_above,
    Function.update_self, ← length_below hc f, List.set_append_right _ _ (Nat.le_refl _), Nat.sub_self]
  rfl

theorem insert_packed (h : b.toNat.testBit c.toNat = false) (y : β) :
    (packed b f).take (place b c) ++ y :: (packed b f).drop (place b c) =
      packed (b ||| bitOf c) (Function.update f c.toNat y) := by
  rw [packed_of_not_bit hc f h, packed_setBit hc f, ← length_below hc f, List.take_left,
    List.drop_left]

theorem eraseIdx_packed (h : b.toNat.testBit c.toNat = true) :
    (packed b f).eraseIdx (place b c) = packed (b &&& ~~~bitOf c) f := by
  rw [packed_of_bit hc f h, packed_clearBit hc f, ← length_below hc f,
    List.eraseIdx_append_of_length_le (Nat.le_refl _), Nat.sub_self]
  rfl

/-- The other set digits. -/
def bitsBut (b : UInt32) (i : ℕ) : List ℕ := bitsBelow b i ++ bitsAbove b i

theorem length_packed (h : b.toNat.testBit c.toNat = true) :
    (packed b f).length = (bitsBut b c.toNat).length + 1 := by
  rw [packed_of_bit hc f h, bitsBut, List.length_append, List.length_append, List.length_cons,
    List.length_map, List.length_map]
  omega

theorem bits_clearBit : bits (b &&& ~~~bitOf c) = bitsBut b c.toNat := by
  have h := packed_clearBit (b := b) hc id
  rwa [packed, List.map_id, List.map_id, List.map_id] at h

theorem mem_bitsBut {i : ℕ} (h : i ∈ bitsBut b c.toNat) :
    i ≠ c.toNat ∧ b.toNat.testBit i = true := by
  rw [← bits_clearBit hc, mem_bits, testBit_clearBit b hc, Bool.and_eq_true] at h
  exact ⟨fun heq => by simp [heq] at h, h.2.1⟩

/-- The other one of two kids. -/
theorem getElem?_packed_other (h : b.toNat.testBit c.toNat = true) {i : ℕ}
    (hi : bitsBut b c.toNat = [i]) : (packed b f)[1 - place b c]? = some (f i) := by
  rw [packed_of_bit hc f h, ← length_below hc f, List.length_map]
  rcases List.append_eq_singleton_iff.mp hi with ⟨hbelow, habove⟩ | ⟨hbelow, habove⟩
  · rw [hbelow, habove]
    rfl
  · rw [hbelow, habove]
    rfl

end Packed

section Few

variable {β : Type} {c d : UInt32}

theorem filter_bitOf (hc : c < 32) {is : List ℕ} (hnodup : is.Nodup) :
    (is.filter fun i => (bitOf c).toNat.testBit i) = if c.toNat ∈ is then [c.toNat] else [] := by
  have hfilter : (is.filter fun i => (bitOf c).toNat.testBit i) = is.filter fun i => i = c.toNat :=
    List.filter_congr fun i _ => by
      rw [testBit_bitOf hc]
      exact decide_eq_decide.mpr eq_comm
  rw [hfilter, List.filter_eq]
  split_ifs with h
  · rw [List.count_eq_one_of_mem hnodup h]
    rfl
  · rw [List.count_eq_zero_of_not_mem h]
    rfl

theorem packed_bitOf (hc : c < 32) (f : ℕ → β) : packed (bitOf c) f = [f c.toNat] := by
  have hmem : c.toNat ∈ List.range 32 := List.mem_range.mpr (UInt32.lt_iff_toNat_lt.mp hc)
  rw [packed, bits, filter_bitOf hc List.nodup_range, if_pos hmem]
  rfl

/-- The array of two kids. -/
theorem packed_pair (hc : c < 32) (hd : d < 32) (hne : c ≠ d) (f : ℕ → β) (y : β) :
    packed (bitOf c ||| bitOf d) (Function.update f d.toNat y) =
      if c < d then [f c.toNat, y] else [y, f c.toNat] := by
  have hlt : c.toNat < 32 := UInt32.lt_iff_toNat_lt.mp hc
  have hne' : c.toNat ≠ d.toNat := fun h => hne (UInt32.toNat_inj.mp h)
  rw [packed_setBit hd, bitsBelow, bitsAbove, filter_bitOf hc List.nodup_range,
    filter_bitOf hc List.nodup_range']
  by_cases h : c < d
  · have hcd := UInt32.lt_iff_toNat_lt.mp h
    have hnot : c.toNat ∉ List.range' (d.toNat + 1) (31 - d.toNat) := fun hm => by
      have := List.mem_range'_1.mp hm
      omega
    rw [if_pos h, if_pos (List.mem_range.mpr hcd), if_neg hnot]
    rfl
  · have hdc : ¬ c.toNat < d.toNat := fun hcd => h (UInt32.lt_iff_toNat_lt.mpr hcd)
    have hmem : c.toNat ∈ List.range' (d.toNat + 1) (31 - d.toNat) :=
      List.mem_range'_1.mpr ⟨by omega, by omega⟩
    rw [if_neg h, if_neg fun hm => hdc (List.mem_range.mp hm), if_pos hmem]
    rfl

end Few

/-! ### The chunks of a hash -/

theorem toNat_chunk (h : UInt32) {l : ℕ} (hl : l < 7) :
    (chunk h (BITS * l)).toNat = h.toNat / 32 ^ l % 32 := by
  have hshift : (UInt32.ofNat (BITS * l)).toNat % 32 = 5 * l := by
    rw [UInt32.toNat_ofNat', BITS]
    omega
  rw [chunk, UInt32.toNat_and, UInt32.toNat_shiftRight, hshift, Nat.shiftRight_eq_div_pow, Nat.pow_mul,
    show MASK.toNat = 2 ^ 5 - 1 by rfl, Nat.and_two_pow_sub_one_eq_mod]

theorem chunk_lt (h : UInt32) (shift : ℕ) : chunk h shift < 32 := by
  rw [UInt32.lt_iff_toNat_lt, chunk, UInt32.toNat_and]
  exact Nat.lt_succ_of_le Nat.and_le_right

/-- The seven chunks of five bits as the digits of a hash of 32 bits. -/
def chunks {κ : Type} (hash : κ → UInt32) : Hashing κ UInt32 where
  depth := 7
  width := 32
  hash := hash
  digit l h := (chunk h (BITS * l)).toNat
  digit_lt l h := UInt32.lt_iff_toNat_lt.mp (chunk_lt h _)
  ext := by
    intro h h' heq
    have hdigit : ∀ l < 7, h.toNat / 32 ^ l % 32 = h'.toNat / 32 ^ l % 32 := fun l hl => by
      rw [← toNat_chunk h hl, ← toNat_chunk h' hl]
      exact heq l hl
    have h₀ := hdigit 0 (by decide)
    have h₁ := hdigit 1 (by decide)
    have h₂ := hdigit 2 (by decide)
    have h₃ := hdigit 3 (by decide)
    have h₄ := hdigit 4 (by decide)
    have h₅ := hdigit 5 (by decide)
    have h₆ := hdigit 6 (by decide)
    have hlt := h.toNat_lt
    have hlt' := h'.toNat_lt
    exact UInt32.toNat_inj.mp (by omega)

end PMap

end SalRuntime
