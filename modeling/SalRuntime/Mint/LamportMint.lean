import Mathlib.Data.Nat.Basic
import Mathlib.Order.Lattice
import SalRuntime.Foundations.Number
import SalRuntime.Store.Failure

/-!
# The mint

The Lamport clock of `src/mint.js`, which allocates the ids of operations. A mint has a slot, and a
counter that follows the times it observes; the time it gives next is the next multiple of the
stride, plus the slot. Mints with different slots and one stride never give the same time.

## Main definitions

* `LamportMint`, `LamportMint.create` — a mint.
* `LamportMint.observe`, `LamportMint.next` — observing a time and giving the next one.

## Main results

* `LamportMint.lt_nextTime_observe` — the next time is later than an observed one.
* `LamportMint.nextTime_mod` — a time tells the slot of its mint.
-/

namespace SalRuntime

/-- `DEFAULT_MINT_STRIDE`. -/
def DEFAULT_MINT_STRIDE : ℕ := 1000000

/-- A mint. -/
structure LamportMint where
  /-- The slot, which no other replica has. -/
  slot : ℕ
  /-- The number of the last round. -/
  counter : ℕ
  /-- The distance of two rounds. -/
  stride : ℕ
  /-- The slot is not zero. -/
  slot_pos : 0 < slot
  /-- The slot fits into a round. -/
  slot_lt : slot < stride
  /-- The stride is a safe integer. -/
  stride_safe : stride ≤ MAX_SAFE_INTEGER
  /-- The counter is a safe integer. -/
  counter_safe : counter ≤ MAX_SAFE_INTEGER

namespace LamportMint

/-- The error of a number that is not a safe integer. -/
def notNatural (label : String) : Failure :=
  .error s!"{label} must be a non-negative safe integer"

/-- `new LamportMint(..)`. -/
def create (slot : ℕ) (counter : ℕ := 0) (stride : ℕ := DEFAULT_MINT_STRIDE) :
    Except Failure LamportMint :=
  if hstride : MAX_SAFE_INTEGER < stride then .error (notNatural "mint stride")
  else if stride < 2 then .error (.error "mint stride must be at least 2")
  else if MAX_SAFE_INTEGER < slot then .error (notNatural "mint slot")
  else if hslot : slot = 0 ∨ stride ≤ slot then
    .error (.error s!"mint slot must be in [1, {stride})")
  else if hcounter : MAX_SAFE_INTEGER < counter then .error (notNatural "mint counter")
  else .ok {
    slot, counter, stride
    slot_pos := by omega
    slot_lt := by omega
    stride_safe := by omega
    counter_safe := by omega }

/-- Follow an observed time. A time that is missing or not a safe integer is ignored. -/
def observe (m : LamportMint) (time : Option ℕ) : LamportMint :=
  match time with
  | none => m
  | some t =>
    if h : t ≤ MAX_SAFE_INTEGER then
      { m with
        counter := max m.counter (t / m.stride)
        counter_safe := max_le m.counter_safe ((Nat.div_le_self t m.stride).trans h) }
    else m

/-- The time of the next round. -/
def nextTime (m : LamportMint) : ℕ := (m.counter + 1) * m.stride + m.slot

theorem counter_succ_le_nextTime (m : LamportMint) : m.counter + 1 ≤ m.nextTime := by
  have hpos : 1 ≤ m.stride := m.slot_pos.trans m.slot_lt
  have hle := Nat.le_mul_of_pos_right (m.counter + 1) hpos
  rw [nextTime]
  omega

/-- Give the next time, and the mint after it. -/
def next (m : LamportMint) : Except Failure (ℕ × LamportMint) :=
  if h : m.nextTime ≤ MAX_SAFE_INTEGER then
    .ok (m.nextTime, { m with
      counter := m.counter + 1
      counter_safe := m.counter_succ_le_nextTime.trans h })
  else .error (.error "Lamport mint exhausted JavaScript safe integers")

variable (m : LamportMint)

@[simp] theorem observe_slot (time : Option ℕ) : (m.observe time).slot = m.slot := by
  unfold observe
  split
  · rfl
  · split_ifs <;> rfl

@[simp] theorem observe_stride (time : Option ℕ) : (m.observe time).stride = m.stride := by
  unfold observe
  split
  · rfl
  · split_ifs <;> rfl

theorem counter_le_observe (time : Option ℕ) : m.counter ≤ (m.observe time).counter := by
  unfold observe
  split
  · exact le_rfl
  · split_ifs
    · exact le_max_left _ _
    · exact le_rfl

theorem nextTime_mono {m m' : LamportMint} (hcounter : m.counter ≤ m'.counter)
    (hslot : m'.slot = m.slot) (hstride : m'.stride = m.stride) : m.nextTime ≤ m'.nextTime := by
  rw [nextTime, nextTime, hslot, hstride]
  exact Nat.add_le_add_right (Nat.mul_le_mul_right _ (Nat.succ_le_succ hcounter)) _

/-- The clock is not set back. -/
theorem nextTime_le_observe (time : Option ℕ) : m.nextTime ≤ (m.observe time).nextTime :=
  nextTime_mono (m.counter_le_observe time) (m.observe_slot time) (m.observe_stride time)

/-- **The next time is later than an observed one.** -/
theorem lt_nextTime_observe {t : ℕ} (ht : t ≤ MAX_SAFE_INTEGER) :
    t < (m.observe (some t)).nextTime := by
  have hpos : 0 < m.stride := m.slot_pos.trans m.slot_lt
  have hcounter : t / m.stride ≤ (m.observe (some t)).counter := by
    rw [observe]
    simp only [dif_pos ht]
    exact le_max_right _ _
  have hlt : t < m.stride * (t / m.stride + 1) := Nat.lt_mul_div_succ t hpos
  have hle : m.stride * (t / m.stride + 1) ≤
      m.stride * ((m.observe (some t)).counter + 1) :=
    Nat.mul_le_mul_left _ (Nat.succ_le_succ hcounter)
  rw [nextTime, observe_stride, observe_slot, Nat.mul_comm]
  omega

/-- **A time tells the slot of its mint.** -/
theorem nextTime_mod : m.nextTime % m.stride = m.slot := by
  rw [nextTime, Nat.add_comm, Nat.add_mul_mod_self_right, Nat.mod_eq_of_lt m.slot_lt]

variable {m} {m' : LamportMint} {t : ℕ}

/-- What a mint gives, and what it is afterwards. -/
theorem next_eq_ok (h : m.next = .ok (t, m')) : t = m.nextTime ∧ t ≤ MAX_SAFE_INTEGER ∧
    m'.slot = m.slot ∧ m'.stride = m.stride ∧ m'.counter = m.counter + 1 := by
  rw [next] at h
  split_ifs at h with hsafe
  cases h
  exact ⟨rfl, hsafe, rfl, rfl, rfl⟩

/-- A mint gives later and later times. -/
theorem nextTime_lt_of_next (h : m.next = .ok (t, m')) : m.nextTime < m'.nextTime := by
  obtain ⟨-, -, hslot, hstride, hcounter⟩ := next_eq_ok h
  have hpos : 0 < m.stride := m.slot_pos.trans m.slot_lt
  have hlt : (m.counter + 1) * m.stride < (m.counter + 1 + 1) * m.stride :=
    Nat.mul_lt_mul_of_pos_right (Nat.lt_succ_self _) hpos
  rw [nextTime, nextTime, hslot, hstride, hcounter]
  omega

end LamportMint

end SalRuntime
