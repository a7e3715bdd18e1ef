/-!
# Readers of streams

A reader consumes symbols from the front of a stream and may fail. It reads a value back from a piece
of output if, on any stream that starts with the piece, it returns the value and consumes the piece.
Readers are composed as monadic actions, and what they read back composes with them.

## Main definitions

* `Reader` — the readers.
* `Reader.Reads` — a reader reads a value back from a piece of output.
* `Reader.many` — a reader repeated a number of times.

## Main results

* `Reader.Reads.bind`, `Reader.Reads.many_cons` — the rules of composition.
* `Reader.Reads.unique` — what is read back is determined.
* `Reader.run_bind_eq_ok`, `Reader.run_lift_eq_ok` — what a run that succeeds has done.
-/

namespace SalRuntime

variable {σ ε α β : Type}

/-- A reader of symbols `σ` that may fail with an `ε`. -/
abbrev Reader (σ ε α : Type) := StateT (List σ) (Except ε) α

namespace Reader

/-- On any stream that starts with the output, the reader returns the value and leaves the rest. -/
def Reads (m : Reader σ ε α) (out : List σ) (a : α) : Prop :=
  ∀ rest, StateT.run m (out ++ rest) = .ok (a, rest)

/-- Read the next symbol, or fail. -/
def next (e : ε) : Reader σ ε σ := fun
  | [] => .error e
  | x :: rest => .ok (x, rest)

/-- Repeat a reader. -/
def many (m : Reader σ ε α) : Nat → Reader σ ε (List α)
  | 0 => return []
  | n + 1 => do
    let a ← m
    return a :: (← many m n)

/-! ### Runs that succeed -/

theorem run_bind_eq_ok {m : Reader σ ε α} {f : α → Reader σ ε β} {s s' : List σ} {b : β} :
    StateT.run (m >>= f) s = .ok (b, s') ↔
      ∃ a r, StateT.run m s = .ok (a, r) ∧ StateT.run (f a) r = .ok (b, s') := by
  rw [StateT.run_bind]
  cases StateT.run m s with
  | error e =>
    constructor
    · intro h
      cases h
    · rintro ⟨a, r, h, -⟩
      cases h
  | ok p =>
    constructor
    · exact fun h => ⟨p.1, p.2, rfl, h⟩
    · rintro ⟨a, r, h, h'⟩
      cases h
      exact h'

theorem run_pure_eq_ok {a b : α} {s s' : List σ} :
    StateT.run (pure a : Reader σ ε α) s = .ok (b, s') ↔ a = b ∧ s = s' := by
  show Except.ok (a, s) = .ok (b, s') ↔ _
  rw [Except.ok.injEq, Prod.mk.injEq]

theorem run_lift_eq_ok {x : Except ε α} {s s' : List σ} {a : α} :
    StateT.run (liftM x : Reader σ ε α) s = .ok (a, s') ↔ x = .ok a ∧ s = s' := by
  cases x with
  | error e =>
    constructor
    · intro h
      cases h
    · rintro ⟨h, -⟩
      cases h
  | ok b =>
    show Except.ok (b, s) = .ok (a, s') ↔ _
    rw [Except.ok.injEq, Except.ok.injEq, Prod.mk.injEq]

/-! ### Reading back -/

namespace Reads

variable {m : Reader σ ε α} {f : α → Reader σ ε β} {out out' : List σ} {a a' : α} {b : β}

theorem pure (a : α) : Reads (Pure.pure a : Reader σ ε α) [] a := fun _ => rfl

/-- **Composition.** What two readers read back one after the other. -/
theorem bind (h : Reads m out a) (hf : Reads (f a) out' b) : Reads (m >>= f) (out ++ out') b := by
  intro rest
  rw [StateT.run_bind, List.append_assoc, h (out' ++ rest)]
  exact hf rest

/-- What follows consumes nothing. -/
theorem bind_pure (h : Reads m out a) (hf : Reads (f a) [] b) : Reads (m >>= f) out b := by
  have hbind := h.bind hf
  rwa [List.append_nil] at hbind

theorem map (h : Reads m out a) (g : α → β) : Reads (m >>= fun a => Pure.pure (g a)) out (g a) :=
  h.bind_pure (pure (g a))

theorem lift {x : Except ε α} (h : x = .ok a) : Reads (liftM x : Reader σ ε α) [] a := by
  rw [h]
  exact fun _ => rfl

theorem next (e : ε) (x : σ) : Reads (next e) [x] x := fun _ => rfl

/-- What is read back is determined by the output. -/
theorem unique (h : Reads m out a) (h' : Reads m out a') : a = a' := by
  have heq := (h []).symm.trans (h' [])
  cases heq
  rfl

theorem run_self (h : Reads m out a) : StateT.run m out = .ok (a, []) := by
  simpa using h []

theorem many_nil : Reads (Reader.many m 0) [] [] := pure []

/-- **Repetition.** What a repeated reader reads back, one piece of output after the other. -/
theorem many_cons {n : Nat} {as : List α} (h : Reads m out a) (hrest : Reads (Reader.many m n) out' as) :
    Reads (Reader.many m (n + 1)) (out ++ out') (a :: as) :=
  h.bind (hrest.map (a :: ·))

end Reads

end Reader

end SalRuntime
