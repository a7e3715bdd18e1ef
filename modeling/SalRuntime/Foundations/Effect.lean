import Mathlib.Order.Defs.Unbundled

/-!
# Calls that change a state and may throw

A call of an object with mutable fields reads and writes the state of the object and may throw.
What it wrote before it threw stays written. Such calls form the monad `ExceptT ε (StateM ρ)`;
`Effect.exec` runs a call on a state and returns the outcome together with the new state.

## Main definitions

* `Effect` — the calls.
* `Effect.exec` — the outcome and the new state of a call.
* `Effect.Leads` — a call moves a state along a relation, whether it returns or throws.
* `Effect.Ends` — a call ends in a state with a property, whether it returns or throws.
* `Effect.Returns`, `Yields` — what a call, or a computation that may fail, returns has a property.

## Main results

* `Effect.exec_bind` and its companions — the outcome of a composed call.
* `Effect.Leads.bind`, `Effect.Ends.bind`, `Effect.Returns.bind`, `Yields.bind` — the rules of
  composition.
-/

namespace SalRuntime

variable {ρ ε α β : Type}

/-- A call on states `ρ` that may throw an `ε`. -/
abbrev Effect (ρ ε α : Type) := ExceptT ε (StateM ρ) α

namespace Effect

/-- The outcome of a call, and the state it leaves. -/
def exec (m : Effect ρ ε α) (r : ρ) : Except ε α × ρ := Id.run (StateT.run (ExceptT.run m) r)

@[simp] theorem exec_pure (a : α) (r : ρ) : exec (pure a : Effect ρ ε α) r = (.ok a, r) := rfl

@[simp] theorem exec_get (r : ρ) : exec (get : Effect ρ ε ρ) r = (.ok r, r) := rfl

@[simp] theorem exec_set (r' r : ρ) : exec (set r' : Effect ρ ε PUnit) r = (.ok ⟨⟩, r') := rfl

@[simp] theorem exec_modify (f : ρ → ρ) (r : ρ) :
    exec (modify f : Effect ρ ε PUnit) r = (.ok ⟨⟩, f r) := rfl

@[simp] theorem exec_throw (e : ε) (r : ρ) : exec (throw e : Effect ρ ε α) r = (.error e, r) := rfl

@[simp] theorem exec_lift (x : Except ε α) (r : ρ) : exec (liftM x : Effect ρ ε α) r = (x, r) := by
  cases x with
  | ok a => rfl
  | error e => rfl

@[simp] theorem exec_monadLift (x : Except ε α) (r : ρ) :
    exec (MonadLift.monadLift x : Effect ρ ε α) r = (x, r) := exec_lift x r

theorem exec_bind (m : Effect ρ ε α) (f : α → Effect ρ ε β) (r : ρ) : exec (m >>= f) r =
    match exec m r with
    | (.ok a, r') => exec (f a) r'
    | (.error e, r') => (.error e, r') := by
  simp only [exec, Bind.bind, ExceptT.bind, ExceptT.mk, StateT.bind, StateT.run, ExceptT.run,
    Id.run, ExceptT.bindCont]
  rcases m r with ⟨_ | a, r'⟩
  · rfl
  · rfl

@[simp] theorem exec_map (f : α → β) (m : Effect ρ ε α) (r : ρ) :
    exec (f <$> m) r = ((exec m r).1.map f, (exec m r).2) := by
  rw [map_eq_pure_bind, exec_bind]
  rcases exec m r with ⟨_ | a, r'⟩
  · rfl
  · rfl

theorem exec_bind_ok {m : Effect ρ ε α} {r s : ρ} {a : α} (h : exec m r = (.ok a, s))
    (f : α → Effect ρ ε β) : exec (m >>= f) r = exec (f a) s := by rw [exec_bind, h]

theorem exec_bind_error {m : Effect ρ ε α} {r r' : ρ} {e : ε} (h : exec m r = (.error e, r'))
    (f : α → Effect ρ ε β) : exec (m >>= f) r = (.error e, r') := by rw [exec_bind, h]

/-- What a call wrote before it threw is there when the failure is caught. -/
theorem exec_tryCatch (m : Effect ρ ε α) (f : ε → Effect ρ ε α) (r : ρ) :
    exec (tryCatch m f) r =
      match exec m r with
      | (.ok a, r') => (.ok a, r')
      | (.error e, r') => exec (f e) r' := by
  simp only [exec, tryCatch, tryCatchThe, MonadExceptOf.tryCatch, ExceptT.tryCatch, ExceptT.mk,
    ExceptT.run, StateT.run, Bind.bind, StateT.bind, Id.run]
  rcases m r with ⟨_ | a, r'⟩
  · rfl
  · rfl

theorem exec_eq_ok {m : Effect ρ ε α} {r : ρ} {a : α} (h : (exec m r).1.toOption = some a) :
    exec m r = (.ok a, (exec m r).2) := by
  rcases hm : exec m r with ⟨_ | a', r'⟩
  · simp [hm, Except.toOption] at h
  · simpa [hm, Except.toOption] using h

/-- A composed call that returns passed through a state in between. -/
theorem exec_bind_eq_ok {m : Effect ρ ε α} {f : α → Effect ρ ε β} {r r' : ρ} {b : β}
    (h : exec (m >>= f) r = (.ok b, r')) :
    ∃ a s, exec m r = (.ok a, s) ∧ exec (f a) s = (.ok b, r') := by
  rw [exec_bind] at h
  rcases hm : exec m r with ⟨_ | a, s⟩
  · rw [hm] at h
    cases h
  · rw [hm] at h
    exact ⟨a, s, rfl, h⟩

/-- The call moves the state along `R`, whether it returns or throws. -/
def Leads (R : ρ → ρ → Prop) (m : Effect ρ ε α) (r : ρ) : Prop := R r (exec m r).2

namespace Leads

variable {R : ρ → ρ → Prop} {m : Effect ρ ε α} {r : ρ}

theorem of_exec_eq {r' : ρ} {x : Except ε α} (h : exec m r = (x, r')) (hR : R r r') :
    Leads R m r := by
  rw [Leads, h]
  exact hR

theorem pure [Std.Refl R] (a : α) : Leads R (Pure.pure a : Effect ρ ε α) r :=
  Std.Refl.refl (r := R) r

theorem throw [Std.Refl R] (e : ε) : Leads R (MonadExcept.throw e : Effect ρ ε α) r :=
  Std.Refl.refl (r := R) r

theorem lift [Std.Refl R] (x : Except ε α) : Leads R (liftM x : Effect ρ ε α) r := by
  rw [Leads, exec_lift]
  exact Std.Refl.refl (r := R) r

/-- **Composition.** If a call moves along `R`, and the rest moves along `R` from wherever the call
returns, then so does the composed call. -/
theorem bind [IsTrans ρ R] {f : α → Effect ρ ε β} (h : Leads R m r)
    (hf : ∀ a r', exec m r = (.ok a, r') → Leads R (f a) r') : Leads R (m >>= f) r := by
  rcases hm : exec m r with ⟨e | a, r'⟩
  · rw [Leads, exec_bind_error hm]
    simpa [Leads, hm] using h
  · have hr : R r r' := by simpa [Leads, hm] using h
    rw [Leads, exec_bind_ok hm]
    exact IsTrans.trans (r := R) r r' _ hr (hf a r' hm)

theorem bind_get [IsTrans ρ R] {f : ρ → Effect ρ ε β} (h : Leads R (f r) r) :
    Leads R (get >>= f) r := by
  rw [Leads, exec_bind_ok (exec_get r)]
  exact h

theorem bind_lift [Std.Refl R] {x : Except ε α} {f : α → Effect ρ ε β}
    (h : ∀ a, x = .ok a → Leads R (f a) r) : Leads R (liftM x >>= f) r := by
  cases x with
  | error e =>
    rw [Leads, exec_bind_error (exec_lift (.error e) r)]
    exact Std.Refl.refl (r := R) r
  | ok a =>
    rw [Leads, exec_bind_ok (exec_lift (.ok a) r)]
    exact h a rfl

end Leads

/-- The call ends in a state of `P`, whether it returns or throws. -/
def Ends (P : ρ → Prop) (m : Effect ρ ε α) (r : ρ) : Prop := P (exec m r).2

namespace Ends

variable {P : ρ → Prop} {m : Effect ρ ε α} {f : α → Effect ρ ε β} {r : ρ}

theorem of_exec_eq {r' : ρ} {x : Except ε α} (h : exec m r = (x, r')) (hr : P r') : Ends P m r := by
  rw [Ends, h]
  exact hr

theorem pure (h : P r) (a : α) : Ends P (Pure.pure a : Effect ρ ε α) r := h

theorem throw (h : P r) (e : ε) : Ends P (MonadExcept.throw e : Effect ρ ε α) r := h

/-- **Composition.** If a call ends in `P`, and the rest ends in `P` from wherever the call
returns, then so does the composed call. -/
theorem bind (h : Ends P m r) (hf : ∀ a r', exec m r = (.ok a, r') → P r' → Ends P (f a) r') :
    Ends P (m >>= f) r := by
  rcases hm : exec m r with ⟨e | a, r'⟩
  · rw [Ends, exec_bind_error hm]
    simpa [Ends, hm] using h
  · have hr : P r' := by simpa [Ends, hm] using h
    rw [Ends, exec_bind_ok hm]
    exact hf a r' hm hr

theorem bind_ok {r' : ρ} {a : α} (h : exec m r = (.ok a, r')) (hf : Ends P (f a) r') :
    Ends P (m >>= f) r := by
  rw [Ends, exec_bind_ok h]
  exact hf

theorem bind_get {f : ρ → Effect ρ ε β} (h : Ends P (f r) r) : Ends P (get >>= f) r :=
  bind_ok (exec_get r) h

theorem bind_throw (h : P r) (e : ε) : Ends P ((MonadExcept.throw e : Effect ρ ε α) >>= f) r := h

theorem bind_lift {x : Except ε α} (h : P r) (hf : ∀ a, x = .ok a → Ends P (f a) r) :
    Ends P (liftM x >>= f) r :=
  bind (m := liftM x) (by rw [Ends, exec_lift]; exact h) fun a r' ha _ => by
    rw [exec_lift, Prod.mk.injEq] at ha
    exact ha.2 ▸ hf a ha.1

end Ends

/-- What the call returns, if it returns, has the property `P`. -/
def Returns (P : α → Prop) (m : Effect ρ ε α) (r : ρ) : Prop :=
  ∀ a r', exec m r = (.ok a, r') → P a

namespace Returns

variable {P : α → Prop} {Q : β → Prop} {m : Effect ρ ε α} {f : α → Effect ρ ε β} {r : ρ}

theorem pure {a : α} (h : P a) : Returns P (Pure.pure a : Effect ρ ε α) r := by
  intro b r' hb
  cases hb
  exact h

theorem throw (e : ε) : Returns P (MonadExcept.throw e : Effect ρ ε α) r := by
  intro b r' hb
  cases hb

/-- **Composition.** If the rest returns with `Q` from wherever a call returns, then so does the
composed call. -/
theorem bind (hf : ∀ a r', exec m r = (.ok a, r') → Returns Q (f a) r') :
    Returns Q (m >>= f) r := by
  intro b r' hb
  obtain ⟨a, s, hm, hrest⟩ := exec_bind_eq_ok hb
  exact hf a s hm b r' hrest

theorem bind_get {f : ρ → Effect ρ ε β} (h : Returns Q (f r) r) : Returns Q (get >>= f) r :=
  bind fun a r' ha => by
    cases ha
    exact h

theorem bind_lift {x : Except ε α} (hf : ∀ a, x = .ok a → Returns Q (f a) r) :
    Returns Q (liftM x >>= f) r :=
  bind (m := liftM x) fun a r' ha => by
    rw [exec_lift, Prod.mk.injEq] at ha
    exact ha.2 ▸ hf a ha.1

end Returns

end Effect

/-- What the computation returns, if it does not fail, has the property `P`. -/
def Yields (P : α → Prop) (x : Except ε α) : Prop := ∀ a, x = .ok a → P a

namespace Yields

variable {P : α → Prop} {Q : β → Prop} {x : Except ε α} {f : α → Except ε β}

theorem ok {a : α} (h : P a) : Yields P (.ok a : Except ε α) := by
  intro b hb
  cases hb
  exact h

theorem error (e : ε) : Yields P (.error e : Except ε α) := by
  intro b hb
  cases hb

/-- **Composition.** If the rest yields `Q` from whatever a computation returns, then so does the
composed computation. -/
theorem bind (hf : ∀ a, x = .ok a → Yields Q (f a)) : Yields Q (x >>= f) := by
  cases x with
  | error e => exact error e
  | ok a => exact hf a rfl

end Yields

/-- Folding keeps a property that every step keeps. -/
theorem Yields.foldlM {P : β → Prop} {p : α → Prop} {f : β → α → Except ε β}
    (hf : ∀ {a}, p a → ∀ {b}, P b → Yields P (f b a)) {l : List α} (hl : ∀ a ∈ l, p a) {b : β}
    (hb : P b) : Yields P (l.foldlM f b) := by
  induction l generalizing b with
  | nil => exact .ok hb
  | cons a l ih =>
    rw [List.forall_mem_cons] at hl
    rw [List.foldlM_cons]
    exact .bind fun b' hb' => ih hl.2 (hf hl.1 hb b' hb')

section Traversal

variable {l : List α}

/-- A traversal whose steps return. -/
theorem mapM_eq_ok {f : α → Except ε β} {g : α → β} (h : ∀ a ∈ l, f a = .ok (g a)) :
    l.mapM f = .ok (l.map g) := by
  induction l with
  | nil => rfl
  | cons a l ih =>
    rw [List.forall_mem_cons] at h
    rw [List.mapM_cons, h.1, ih h.2]
    rfl

/-- A conjunction whose tests return. -/
theorem allM_eq_ok {f : α → Except ε Bool} {p : α → Bool} (h : ∀ a ∈ l, f a = .ok (p a)) :
    l.allM f = .ok (l.all p) := by
  induction l with
  | nil => rfl
  | cons a l ih =>
    rw [List.forall_mem_cons] at h
    rw [List.allM, h.1, List.all_cons]
    cases p a with
    | true => exact ih h.2
    | false => rfl

/-- A filter whose tests return. -/
theorem filterM_eq_ok {f : α → Except ε Bool} {p : α → Bool} (h : ∀ a ∈ l, f a = .ok (p a)) :
    l.filterM f = .ok (l.filter p) := by
  have haux (acc : List α) : l.filterAuxM f acc = .ok ((l.filter p).reverse ++ acc) := by
    induction l generalizing acc with
    | nil => rfl
    | cons a l ih =>
      rw [List.forall_mem_cons] at h
      rw [List.filterAuxM, h.1, List.filter_cons]
      refine (ih h.2 _).trans ?_
      cases p a <;> simp
  rw [List.filterM, haux]
  exact congrArg Except.ok (by rw [List.append_nil, List.reverse_reverse])

end Traversal

/-- What a traversal returns comes from its steps. -/
theorem exists_of_mem_mapM {f : α → Except ε β} {l : List α} {l' : List β} (h : l.mapM f = .ok l')
    {b : β} (hb : b ∈ l') : ∃ a ∈ l, f a = .ok b := by
  induction l generalizing l' with
  | nil =>
    rw [List.mapM_nil] at h
    cases h
    cases hb
  | cons a l ih =>
    rw [List.mapM_cons] at h
    cases ha : f a with
    | error e =>
      rw [ha] at h
      cases h
    | ok b' =>
      cases hl : l.mapM f with
      | error e =>
        rw [ha, hl] at h
        cases h
      | ok bs =>
        rw [ha, hl] at h
        cases h
        rcases List.mem_cons.mp hb with rfl | hmem
        · exact ⟨a, List.mem_cons_self, ha⟩
        · obtain ⟨a', ha', hfa'⟩ := ih hl hmem
          exact ⟨a', List.mem_cons_of_mem _ ha', hfa'⟩

end SalRuntime
