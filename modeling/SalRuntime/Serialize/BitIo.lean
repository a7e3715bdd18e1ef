import SalRuntime.Datatypes.EliasDelta

/-!
# Bits, bytes and variable-length numbers

The bit writer, the bit reader and the variable-length numbers of `src/serialize.js`. Bits fill the
bytes from the most significant one on. Reading never fails: past the end there are zeros.

## Main definitions

* `BitWriter` — the writer.
* `readUint`, `readElias` — the reader, on the bits that are left.
* `writeVarint`, `readVarint` — numbers in groups of seven bits.

## Main results

* `bits_pack` — the bits of packed bytes are the bits written, and padding.
* `readElias_append`, `readUint_append`, `readVarint_append` — what is written is read back.
-/

namespace SalRuntime

/-! ### Packing bits -/

/-- The bits of a byte, the most significant one first. -/
def byteBits (b : UInt8) : List Bool := bitsW 8 b.toNat

/-- The bits of bytes. -/
def bitsOf (bs : List UInt8) : List Bool := bs.flatMap byteBits

/-- A writer of bits: the complete bytes, and the bits of the next one. -/
structure BitWriter where
  /-- The complete bytes. -/
  bytes : List UInt8
  /-- The bits of the next byte, as a number. -/
  cur : ℕ
  /-- The number of bits of the next byte. -/
  nbits : ℕ

namespace BitWriter

/-- A new writer. -/
def new : BitWriter := ⟨[], 0, 0⟩

/-- Write a bit. -/
def bit (w : BitWriter) (b : Bool) : BitWriter :=
  let cur := 2 * w.cur + b.toNat
  if w.nbits + 1 = 8 then ⟨w.bytes ++ [UInt8.ofNat cur], 0, 0⟩ else ⟨w.bytes, cur, w.nbits + 1⟩

/-- Pad the last byte with zeros. -/
def finish (w : BitWriter) : List UInt8 :=
  if w.nbits ≠ 0 then w.bytes ++ [UInt8.ofNat (w.cur * 2 ^ (8 - w.nbits))] else w.bytes

end BitWriter

/-- The bytes of bits that are written one after the other. -/
def packBits (bits : List Bool) : List UInt8 := (bits.foldl BitWriter.bit BitWriter.new).finish

@[simp] theorem length_byteBits (b : UInt8) : (byteBits b).length = 8 := length_bitsW ..

@[simp] theorem length_bitsOf (bs : List UInt8) : (bitsOf bs).length = 8 * bs.length := by
  induction bs with
  | nil => rfl
  | cons b bs ih =>
    rw [bitsOf, List.flatMap_cons, List.length_append, length_byteBits, List.length_cons]
    rw [bitsOf] at ih
    omega

theorem bitsOf_append (bs cs : List UInt8) : bitsOf (bs ++ cs) = bitsOf bs ++ bitsOf cs :=
  List.flatMap_append

/-- Appending a bit to a number. -/
theorem bitsW_concat (w d : ℕ) (b : Bool) : bitsW (w + 1) (2 * d + b.toNat) = bitsW w d ++ [b] := by
  induction w with
  | zero =>
    rw [bitsW, bitsW, bitsW, Nat.testBit_zero]
    cases b <;> simp
  | succ w ih =>
    rw [bitsW, ih, bitsW, List.cons_append, Nat.testBit_succ]
    congr 2
    have := b.toNat_lt
    omega

theorem bitsW_mul_two_pow (w d k : ℕ) :
    bitsW (w + k) (d * 2 ^ k) = bitsW w d ++ List.replicate k false := by
  induction k with
  | zero => simp
  | succ k ih =>
    have hmul : d * 2 ^ (k + 1) = 2 * (d * 2 ^ k) + false.toNat := by
      rw [pow_succ, Bool.toNat_false]
      ring
    rw [hmul, ← Nat.add_assoc, bitsW_concat, ih, List.append_assoc, ← List.replicate_succ']

theorem byteBits_ofNat {d : ℕ} (hd : d < 256) : byteBits (UInt8.ofNat d) = bitsW 8 d := by
  rw [byteBits, UInt8.toNat_ofNat_of_lt' hd]

namespace BitWriter

/-- The writer has written the bits. -/
structure Wrote (w : BitWriter) (bits : List Bool) : Prop where
  /-- The next byte is not complete. -/
  lt : w.nbits < 8
  /-- The bits of the next byte. -/
  cur_lt : w.cur < 2 ^ w.nbits
  /-- The bits so far. -/
  bits_eq : bitsOf w.bytes ++ bitsW w.nbits w.cur = bits

theorem wrote_new : new.Wrote [] := ⟨by decide, by decide, rfl⟩

theorem Wrote.bit {w : BitWriter} {bits : List Bool} (h : w.Wrote bits) (b : Bool) :
    (w.bit b).Wrote (bits ++ [b]) := by
  have hb : b.toNat < 2 := b.toNat_lt
  have hcur : 2 * w.cur + b.toNat < 2 ^ (w.nbits + 1) := by
    have := h.cur_lt
    rw [pow_succ]
    omega
  have hbits : bits ++ [b] = bitsOf w.bytes ++ bitsW (w.nbits + 1) (2 * w.cur + b.toNat) := by
    rw [bitsW_concat, ← List.append_assoc, h.bits_eq]
  by_cases hfull : w.nbits + 1 = 8
  · rw [hfull] at hcur hbits
    rw [BitWriter.bit, if_pos hfull]
    refine ⟨Nat.zero_lt_succ 7, Nat.zero_lt_one, ?_⟩
    rw [hbits, bitsOf_append, bitsOf, bitsOf, List.flatMap_singleton, byteBits_ofNat hcur]
    exact List.append_nil _
  · rw [BitWriter.bit, if_neg hfull]
    have hlt := h.lt
    exact ⟨show w.nbits + 1 < 8 by omega, hcur, hbits.symm⟩

theorem Wrote.foldl {w : BitWriter} {bits : List Bool} (h : w.Wrote bits) (more : List Bool) :
    (more.foldl BitWriter.bit w).Wrote (bits ++ more) := by
  induction more generalizing w bits with
  | nil => rwa [List.append_nil]
  | cons b more ih =>
    have := ih (h.bit b)
    rwa [List.append_assoc] at this

theorem Wrote.finish {w : BitWriter} {bits : List Bool} (h : w.Wrote bits) :
    ∃ pad, pad < 8 ∧ bitsOf w.finish = bits ++ List.replicate pad false := by
  by_cases hzero : w.nbits = 0
  · refine ⟨0, by omega, ?_⟩
    rw [BitWriter.finish, if_neg (by omega), ← h.bits_eq, hzero]
    simp [bitsW]
  · have hlt := h.lt
    refine ⟨8 - w.nbits, by omega, ?_⟩
    have hmul := bitsW_mul_two_pow w.nbits w.cur (8 - w.nbits)
    rw [show w.nbits + (8 - w.nbits) = 8 by omega] at hmul
    have hcur : w.cur * 2 ^ (8 - w.nbits) < 256 := by
      have h256 : 2 ^ w.nbits * 2 ^ (8 - w.nbits) = 256 := by
        rw [← pow_add, show w.nbits + (8 - w.nbits) = 8 by omega]
        rfl
      rw [← h256]
      exact Nat.mul_lt_mul_of_pos_right h.cur_lt (Nat.two_pow_pos _)
    rw [BitWriter.finish, if_pos hzero, bitsOf_append, ← h.bits_eq, List.append_assoc, ← hmul]
    congr 1
    rw [bitsOf, List.flatMap_singleton, byteBits_ofNat hcur]

end BitWriter

/-- **The bits of packed bytes** are the bits written and less than a byte of padding. -/
theorem bits_pack (bits : List Bool) :
    ∃ pad, pad < 8 ∧ bitsOf (packBits bits) = bits ++ List.replicate pad false := by
  have h := (BitWriter.wrote_new.foldl bits).finish
  rwa [List.nil_append] at h

/-! ### Reading bits -/

/-- The next bit, or a zero past the end. -/
def readBit : List Bool → Bool × List Bool
  | [] => (false, [])
  | b :: r => (b, r)

/-- Read `k` digits onto a number. -/
def readDigits : ℕ → ℕ → List Bool → ℕ × List Bool
  | 0, acc, r => (acc, r)
  | k + 1, acc, r => readDigits k (2 * acc + (readBit r).1.toNat) (readBit r).2

/-- Read a number of `w` bits. -/
def readUint (w : ℕ) (r : List Bool) : ℕ × List Bool := readDigits w 0 r

/-- Read ones and the zero after them. -/
def readOnes : List Bool → ℕ × List Bool
  | [] => (0, [])
  | false :: r => (0, r)
  | true :: r => ((readOnes r).1 + 1, (readOnes r).2)

/-- Read a codeword. -/
def readElias (r : List Bool) : ℕ × List Bool :=
  let (c, r) := readOnes r
  let (L, r) := readDigits c 1 r
  readDigits (L - 1) 1 r

theorem readDigits_append (w acc d : ℕ) (r : List Bool) :
    readDigits w acc (bitsW w d ++ r) = (acc * 2 ^ w + d % 2 ^ w, r) := by
  have hread : ∀ w acc (bits : List Bool) p, readBits w acc bits = some p →
      readDigits w acc bits = p := by
    intro w
    induction w with
    | zero => exact fun acc bits p h => Option.some.inj h
    | succ w ih =>
      intro acc bits p h
      cases bits with
      | nil => cases h
      | cons b bits => cases b <;> exact ih _ _ _ h
  exact hread _ _ _ _ (readBits_append w acc d r)

/-- **Numbers of fixed width** are read back. -/
theorem readUint_append {w d : ℕ} (hd : d < 2 ^ w) (r : List Bool) :
    readUint w (bitsW w d ++ r) = (d, r) := by
  rw [readUint, readDigits_append, Nat.zero_mul, Nat.zero_add, Nat.mod_eq_of_lt hd]

theorem readOnes_append (k : ℕ) (r : List Bool) :
    readOnes (List.replicate k true ++ false :: r) = (k, r) := by
  induction k with
  | zero => rfl
  | succ k ih => rw [List.replicate_succ, List.cons_append, readOnes, ih]

/-- **Codewords** are read back. -/
theorem readElias_append {d : ℕ} (hd : 1 ≤ d) (r : List Bool) :
    readElias (dEnc d ++ r) = (d, r) := by
  rw [dEnc_eq, binEnc_eq]
  simp only [List.append_assoc, List.cons_append, readElias, readOnes_append, readDigits_append,
    mod_add_two_pow_log2 (Nat.succ_pos d.log2), Nat.succ_sub_one, mod_add_two_pow_log2 hd]

/-! ### Variable-length numbers -/

/-- A number in groups of seven bits, the lowest first. -/
def writeVarint (n : ℕ) : List UInt8 :=
  if n < 128 then [UInt8.ofNat n] else UInt8.ofNat (n % 128 + 128) :: writeVarint (n / 128)
termination_by n

/-- Read groups of seven bits, the first one at a scale, as long as there are more. -/
def readVarintAt : ℕ → List UInt8 → ℕ × List UInt8
  | _, [] => (0, [])
  | scale, b :: bs =>
    let n := b.toNat % 128 * scale
    if b.toNat < 128 then (n, bs)
    else (n + (readVarintAt (scale * 128) bs).1, (readVarintAt (scale * 128) bs).2)

/-- Read a number. -/
def readVarint (bs : List UInt8) : ℕ × List UInt8 := readVarintAt 1 bs

theorem readVarintAt_append (n scale : ℕ) (bs : List UInt8) :
    readVarintAt scale (writeVarint n ++ bs) = (n * scale, bs) := by
  induction n using Nat.strong_induction_on generalizing scale with
  | h n ih =>
    rw [writeVarint]
    by_cases hlt : n < 128
    · have hlow : (UInt8.ofNat n).toNat = n := UInt8.toNat_ofNat_of_lt' (show n < 256 by omega)
      rw [if_pos hlt, List.cons_append, List.nil_append, readVarintAt, hlow, if_pos hlt,
        Nat.mod_eq_of_lt hlt]
    · have hlow : (UInt8.ofNat (n % 128 + 128)).toNat = n % 128 + 128 :=
        UInt8.toNat_ofNat_of_lt' (show n % 128 + 128 < 256 by omega)
      rw [if_neg hlt, List.cons_append, readVarintAt, hlow, if_neg (by omega),
        ih (n / 128) (by omega)]
      have hsplit : n * scale = n % 128 * scale + n / 128 * (scale * 128) := by
        conv_lhs => rw [← Nat.mod_add_div n 128]
        ring
      rw [hsplit, show (n % 128 + 128) % 128 = n % 128 by omega]

/-- **Variable-length numbers** are read back. -/
theorem readVarint_append (n : ℕ) (bs : List UInt8) : readVarint (writeVarint n ++ bs) = (n, bs) := by
  rw [readVarint, readVarintAt_append, Nat.mul_one]

end SalRuntime
