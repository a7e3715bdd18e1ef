import Mathlib.Data.Nat.Bitwise
import Mathlib.Tactic.Ring
import SalRuntime.Foundations.PrefixCode
import SalRuntime.Store.Failure

/-!
# The flipped Elias-delta code

The delta code of `src/datatypes/embedRGA.js` and its decoder of `src/compact.js`. A bit string
over `0` and `1` is a list of Booleans.

## Main definitions

* `toBinary`, `binEnc`, `dEnc` — the code.
* `decodeOne`, `decodeChain` — the decoder.

## Main results

* `orderedPrefixCode_dEnc` — the code is order preserving and prefix free.
* `decodeOne_eq_ok_iff` — the decoder accepts exactly the strings that start with a codeword.
* `decodeChain_eq_ok_iff` — the coordinates that decode are the chains of codewords.
-/

namespace SalRuntime

/-- The low `w` bits of a number, most significant first. -/
def bitsW : ℕ → ℕ → List Bool
  | 0, _ => []
  | w + 1, d => d.testBit w :: bitsW w d

/-- The binary digits of a number, most significant first. -/
def toBinary (d : ℕ) : List Bool := bitsW (d.log2 + 1) d

/-- The flipped-gamma code of a number: its length in unary, then the digits after the leading
one. -/
def binEnc (d : ℕ) : List Bool :=
  let b := toBinary d
  List.replicate (b.length - 1) true ++ false :: b.tail

/-- The flipped Elias-delta code: the code of the length, then the digits after the leading
one. -/
def dEnc (d : ℕ) : List Bool :=
  let b := toBinary d
  binEnc b.length ++ b.tail

/-- Read a run of ones and the zero that ends it. -/
def readUnary : List Bool → Option (ℕ × List Bool)
  | [] => none
  | false :: r => some (0, r)
  | true :: r => (readUnary r).map fun p => (p.1 + 1, p.2)

/-- Read `k` digits onto a number. -/
def readBits : ℕ → ℕ → List Bool → Option (ℕ × List Bool)
  | 0, acc, r => some (acc, r)
  | _ + 1, _, [] => none
  | k + 1, acc, b :: r => readBits k (2 * acc + if b then 1 else 0) r

/-- Decode one codeword at the start of a string, which is read at position `i0` of a
coordinate. Returns the number and the rest of the string. -/
def decodeOne (i0 : ℕ) (bits : List Bool) : Except Failure (ℕ × List Bool) :=
  match readUnary bits with
  | none => .error (.error s!"bad eliasDelta codeword at {i0}: missing header terminator")
  | some (c, r) =>
    match readBits c 1 r with
    | none => .error (.error s!"truncated eliasDelta codeword at {i0}")
    | some (L, r) =>
      match readBits (L - 1) 1 r with
      | none => .error (.error s!"truncated eliasDelta codeword at {i0}")
      | some (d, r) => .ok (d, r)

theorem length_bitsW (w d : ℕ) : (bitsW w d).length = w := by
  induction w with
  | zero => rfl
  | succ w ih => simp [bitsW, ih]

theorem length_toBinary (d : ℕ) : (toBinary d).length = d.log2 + 1 := length_bitsW ..

theorem tail_toBinary (d : ℕ) : (toBinary d).tail = bitsW d.log2 d := rfl

theorem binEnc_eq (d : ℕ) :
    binEnc d = List.replicate d.log2 true ++ false :: bitsW d.log2 d := by
  simp [binEnc, length_toBinary, tail_toBinary]

theorem dEnc_eq (d : ℕ) : dEnc d = binEnc (d.log2 + 1) ++ bitsW d.log2 d := by
  simp [dEnc, length_toBinary, tail_toBinary]

theorem length_dEnc (d : ℕ) : (dEnc d).length = 2 * (d.log2 + 1).log2 + 1 + d.log2 := by
  rw [dEnc_eq, binEnc_eq]
  simp only [List.length_append, List.length_replicate, List.length_cons, length_bitsW]
  omega

/-! ### The code is ordered and prefix free -/

theorem firstDiff_bitsW {w m n : ℕ} (hdiv : m / 2 ^ w = n / 2 ^ w) (hlt : m < n) :
    FirstDiff (bitsW w m) (bitsW w n) := by
  induction w with
  | zero => simp at hdiv; omega
  | succ w ih =>
    rw [bitsW, bitsW, Nat.testBit_eq_decide_div_mod_eq, Nat.testBit_eq_decide_div_mod_eq]
    have hm : m / 2 ^ (w + 1) = m / 2 ^ w / 2 := by rw [pow_succ, Nat.div_div_eq_div_mul]
    have hn : n / 2 ^ (w + 1) = n / 2 ^ w / 2 := by rw [pow_succ, Nat.div_div_eq_div_mul]
    have hle : m / 2 ^ w ≤ n / 2 ^ w := Nat.div_le_div_right hlt.le
    by_cases heq : m / 2 ^ w = n / 2 ^ w
    · rw [heq]
      exact (ih heq).append_left [_]
    · have hm0 : m / 2 ^ w % 2 = 0 := by omega
      have hn1 : n / 2 ^ w % 2 = 1 := by omega
      exact ⟨[], bitsW w m, bitsW w n, by simp [hm0], by simp [hn1]⟩

theorem firstDiff_replicate {k l : ℕ} (h : k < l) (x y : List Bool) :
    FirstDiff (List.replicate k true ++ false :: x) (List.replicate l true ++ y) := by
  obtain ⟨j, rfl⟩ := Nat.exists_eq_add_of_lt h
  refine ⟨List.replicate k true, x, List.replicate j true ++ y, rfl, ?_⟩
  rw [show k + j + 1 = k + (j + 1) by omega, List.replicate_add, List.replicate_succ]
  simp

theorem div_two_pow_log2 {m : ℕ} (hm : 1 ≤ m) : m / 2 ^ m.log2 = 1 := by
  have hle := Nat.log2_self_le (by omega : m ≠ 0)
  have hlt := Nat.lt_log2_self (n := m)
  rw [Nat.div_eq_iff (Nat.two_pow_pos _)]
  rw [pow_succ] at hlt
  omega

theorem log2_mono {m n : ℕ} (hm : 1 ≤ m) (hlt : m < n) : m.log2 ≤ n.log2 := by
  rw [Nat.le_log2 (by omega)]
  exact (Nat.log2_self_le (by omega)).trans hlt.le

/-- Codewords of larger numbers are not shorter. -/
theorem length_dEnc_le {m n : ℕ} (hm : 1 ≤ m) (hmn : m ≤ n) :
    (dEnc m).length ≤ (dEnc n).length := by
  have hmono {a b : ℕ} (ha : 1 ≤ a) (hab : a ≤ b) : a.log2 ≤ b.log2 := by
    rcases hab.lt_or_eq with hlt | rfl
    · exact log2_mono ha hlt
    · exact le_rfl
  have hlog := hmono hm hmn
  have hloglog := hmono (by omega : 1 ≤ m.log2 + 1) (by omega : m.log2 + 1 ≤ n.log2 + 1)
  rw [length_dEnc, length_dEnc]
  omega

theorem firstDiff_binEnc {m n : ℕ} (hm : 1 ≤ m) (hlt : m < n) :
    FirstDiff (binEnc m) (binEnc n) := by
  rw [binEnc_eq, binEnc_eq]
  rcases (log2_mono hm hlt).lt_or_eq with h | h
  · exact firstDiff_replicate h _ _
  · have hdiv : m / 2 ^ m.log2 = n / 2 ^ m.log2 := by
      rw [div_two_pow_log2 hm, h, div_two_pow_log2 (by omega)]
    rw [← h]
    exact ((firstDiff_bitsW hdiv hlt).append_left [false]).append_left _

/-- **The flipped Elias-delta code is order preserving and prefix free.** -/
theorem orderedPrefixCode_dEnc : OrderedPrefixCode dEnc where
  firstDiff d e hd hlt := by
    rw [dEnc_eq, dEnc_eq]
    rcases (log2_mono hd hlt).lt_or_eq with h | h
    · exact (firstDiff_binEnc (by omega) (by omega)).append_right _ _
    · have hdiv : d / 2 ^ d.log2 = e / 2 ^ d.log2 := by
        rw [div_two_pow_log2 hd, h, div_two_pow_log2 (by omega)]
      rw [← h]
      exact (firstDiff_bitsW hdiv hlt).append_left _

/-! ### The decoder -/

theorem readUnary_append (k : ℕ) (r : List Bool) :
    readUnary (List.replicate k true ++ false :: r) = some (k, r) := by
  induction k with
  | zero => rfl
  | succ k ih => simp [List.replicate_succ, readUnary, ih]

theorem readUnary_eq_some {bits r : List Bool} {k : ℕ} (h : readUnary bits = some (k, r)) :
    bits = List.replicate k true ++ false :: r := by
  induction bits generalizing k with
  | nil => simp [readUnary] at h
  | cons b bits ih =>
    cases b with
    | false =>
      simp only [readUnary, Option.some.injEq, Prod.mk.injEq] at h
      simp [← h.1, ← h.2]
    | true =>
      simp only [readUnary, Option.map_eq_some_iff, Prod.exists, Prod.mk.injEq] at h
      obtain ⟨j, s, hj, rfl, rfl⟩ := h
      rw [ih hj, List.replicate_succ]
      rfl

theorem readBits_append (w acc d : ℕ) (r : List Bool) :
    readBits w acc (bitsW w d ++ r) = some (acc * 2 ^ w + d % 2 ^ w, r) := by
  induction w generalizing acc with
  | zero => simp [readBits, bitsW, Nat.mod_one]
  | succ w ih =>
    rw [bitsW, List.cons_append, readBits, ih, Nat.testBit_eq_decide_div_mod_eq]
    have hmod : d % 2 ^ (w + 1) = d % 2 ^ w + 2 ^ w * (d / 2 ^ w % 2) := by
      rw [pow_succ, Nat.mod_mul]
    rcases Nat.mod_two_eq_zero_or_one (d / 2 ^ w) with h | h
    · simp only [h, hmod, Option.some.injEq, Prod.mk.injEq, and_true]
      simp [pow_succ]
      ring
    · simp only [h, hmod, Option.some.injEq, Prod.mk.injEq, and_true]
      simp [pow_succ]
      ring

theorem readBits_eq_some {w acc d : ℕ} {bits r : List Bool}
    (h : readBits w acc bits = some (d, r)) : bits = bitsW w d ++ r ∧ d / 2 ^ w = acc := by
  induction w generalizing acc bits with
  | zero =>
    simp only [readBits, Option.some.injEq, Prod.mk.injEq] at h
    simp [bitsW, h.1, h.2]
  | succ w ih =>
    cases bits with
    | nil => simp [readBits] at h
    | cons b bits =>
      obtain ⟨hbits, hdiv⟩ := ih h
      refine ⟨?_, ?_⟩
      · rw [bitsW, Nat.testBit_eq_decide_div_mod_eq, hdiv, hbits]
        cases b <;> simp [Nat.add_mod]
      · rw [pow_succ, ← Nat.div_div_eq_div_mul, hdiv]
        cases b
        · simp
        · simp only [if_true]
          omega

theorem log2_eq_of_div {w d : ℕ} (h : d / 2 ^ w = 1) : d.log2 = w ∧ 1 ≤ d := by
  rw [Nat.div_eq_iff (Nat.two_pow_pos _)] at h
  have hpos : 0 < 2 ^ w := Nat.two_pow_pos w
  have hd : d ≠ 0 := by omega
  refine ⟨le_antisymm ?_ ((Nat.le_log2 hd).mpr (by omega)), by omega⟩
  have : d.log2 < w + 1 := (Nat.log2_lt hd).mpr (by rw [pow_succ]; omega)
  omega

theorem mod_add_two_pow_log2 {d : ℕ} (hd : 1 ≤ d) : 1 * 2 ^ d.log2 + d % 2 ^ d.log2 = d := by
  have := Nat.div_add_mod d (2 ^ d.log2)
  rw [div_two_pow_log2 hd] at this
  omega

theorem decodeOne_append (i0 : ℕ) {d : ℕ} (hd : 1 ≤ d) (r : List Bool) :
    decodeOne i0 (dEnc d ++ r) = .ok (d, r) := by
  rw [dEnc_eq, binEnc_eq]
  simp only [List.append_assoc, List.cons_append, decodeOne, readUnary_append, readBits_append,
    mod_add_two_pow_log2 (Nat.succ_pos d.log2), Nat.succ_sub_one, mod_add_two_pow_log2 hd]

/-- **The decoder accepts exactly the strings that start with a codeword**, and returns the number
and the rest. -/
theorem decodeOne_eq_ok_iff {i0 : ℕ} {bits r : List Bool} {d : ℕ} :
    decodeOne i0 bits = .ok (d, r) ↔ 1 ≤ d ∧ bits = dEnc d ++ r := by
  constructor
  · intro h
    rw [decodeOne] at h
    cases hu : readUnary bits with
    | none => simp [hu] at h
    | some p =>
      obtain ⟨c, r₁⟩ := p
      simp only [hu] at h
      cases hL : readBits c 1 r₁ with
      | none => simp [hL] at h
      | some p =>
        obtain ⟨L, r₂⟩ := p
        simp only [hL] at h
        cases hd : readBits (L - 1) 1 r₂ with
        | none => simp [hd] at h
        | some p =>
          obtain ⟨d', r'⟩ := p
          simp only [hd, Except.ok.injEq, Prod.mk.injEq] at h
          obtain ⟨rfl, rfl⟩ := h
          obtain ⟨hr₁, hdiv₁⟩ := readBits_eq_some hL
          obtain ⟨hr₂, hdiv₂⟩ := readBits_eq_some hd
          obtain ⟨hc, hLpos⟩ := log2_eq_of_div hdiv₁
          obtain ⟨hw, hdpos⟩ := log2_eq_of_div hdiv₂
          refine ⟨hdpos, ?_⟩
          rw [readUnary_eq_some hu, hr₁, hr₂, dEnc_eq, binEnc_eq, hw,
            Nat.sub_add_cancel hLpos, hc]
          simp
  · rintro ⟨hd, rfl⟩
    exact decodeOne_append i0 hd r

theorem decodeOne_length_lt {i0 : ℕ} {bits r : List Bool} {d : ℕ}
    (h : decodeOne i0 bits = .ok (d, r)) : r.length < bits.length := by
  obtain ⟨hd, rfl⟩ := decodeOne_eq_ok_iff.mp h
  have := List.length_pos_iff.mpr (orderedPrefixCode_dEnc.ne_nil hd)
  rw [List.length_append]
  omega

/-- The rounds of `decodeChain`: every codeword has a bit, so the length of the string bounds
their number. -/
def decodeChainFrom (total : ℕ) : ℕ → List Bool → Except Failure (List ℕ)
  | _, [] => .ok []
  | 0, _ :: _ => .ok []
  | n + 1, b :: bits => do
    let (d, rest) ← decodeOne (total - (b :: bits).length) (b :: bits)
    return d :: (← decodeChainFrom total n rest)

/-- Decode a whole coordinate into its chain of deltas. -/
def decodeChain (coord : List Bool) : Except Failure (List ℕ) :=
  decodeChainFrom coord.length coord.length coord

theorem decodeChainFrom_flatMap {ds : List ℕ} (hds : ∀ d ∈ ds, 1 ≤ d) (total n : ℕ)
    (hn : (ds.flatMap dEnc).length ≤ n) :
    decodeChainFrom total n (ds.flatMap dEnc) = .ok ds := by
  induction ds generalizing n with
  | nil => cases n <;> rfl
  | cons d ds ih =>
    have hd := hds d List.mem_cons_self
    have hne := orderedPrefixCode_dEnc.ne_nil hd
    obtain ⟨b, bits, hcode⟩ := List.exists_cons_of_ne_nil hne
    rw [List.flatMap_cons] at hn ⊢
    cases n with
    | zero => simp [hcode] at hn
    | succ n =>
      have hstep : ∀ m s, dEnc d ++ s = b :: (bits ++ s) → decodeChainFrom total (m + 1)
          (dEnc d ++ s) = do return d :: (← decodeChainFrom total m s) := by
        intro m s hs
        rw [hs, decodeChainFrom, ← hs, decodeOne_append _ hd]
        rfl
      rw [hstep n _ (by rw [hcode]; rfl), ih (fun x hx => hds x (List.mem_cons_of_mem _ hx)) n
        (by rw [List.length_append, hcode, List.length_cons] at hn; omega)]
      rfl

/-- **Decoding a chain of codewords** returns the numbers. -/
theorem decodeChain_flatMap {ds : List ℕ} (hds : ∀ d ∈ ds, 1 ≤ d) :
    decodeChain (ds.flatMap dEnc) = .ok ds :=
  decodeChainFrom_flatMap hds _ _ le_rfl

theorem decodeChainFrom_eq_ok {total n : ℕ} {bits : List Bool} {ds : List ℕ}
    (h : decodeChainFrom total n bits = .ok ds) (hn : bits.length ≤ n) :
    (∀ d ∈ ds, 1 ≤ d) ∧ bits = ds.flatMap dEnc := by
  induction n generalizing bits ds with
  | zero =>
    obtain rfl := List.length_eq_zero_iff.mp (Nat.le_zero.mp hn)
    cases h
    simp
  | succ n ih =>
    cases bits with
    | nil =>
      cases h
      simp
    | cons b bits =>
      rw [decodeChainFrom] at h
      cases hone : decodeOne (total - (b :: bits).length) (b :: bits) with
      | error e =>
        rw [hone] at h
        cases h
      | ok p =>
        obtain ⟨d, rest⟩ := p
        have hlt := decodeOne_length_lt hone
        obtain ⟨hd, hbits⟩ := decodeOne_eq_ok_iff.mp hone
        rw [hone] at h
        simp only [bind, Except.bind] at h
        cases hrest : decodeChainFrom total n rest with
        | error e =>
          rw [hrest] at h
          cases h
        | ok ds' =>
          rw [List.length_cons] at hlt hn
          obtain ⟨hpos, heq⟩ := ih hrest (by omega)
          rw [hrest] at h
          simp only [pure, Except.pure, Except.ok.injEq] at h
          subst h
          exact ⟨List.forall_mem_cons.mpr ⟨hd, hpos⟩, by rw [hbits, List.flatMap_cons, heq]⟩

/-- **The coordinates that decode** are the chains of codewords. -/
theorem decodeChain_eq_ok_iff {coord : List Bool} {ds : List ℕ} :
    decodeChain coord = .ok ds ↔ (∀ d ∈ ds, 1 ≤ d) ∧ coord = ds.flatMap dEnc := by
  constructor
  · exact fun h => decodeChainFrom_eq_ok h le_rfl
  · rintro ⟨hds, rfl⟩
    exact decodeChain_flatMap hds

example : dEnc 5 = [true, false, true, false, true] := by decide

end SalRuntime
