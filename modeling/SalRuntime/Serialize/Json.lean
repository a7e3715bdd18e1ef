import SalRuntime.Foundations.Reader
import SalRuntime.Serialize.Texts
import SalRuntime.Wire.Value

/-!
# JSON texts

`JSON.stringify` on strings and `JSON.parse`. A string is quoted with escapes for control characters,
quotes and lone surrogates, so its JSON text is well formed. Parsed numbers are kept exact.

## Main definitions

* `IsString` — a text that is a string: its surrogates are paired as far as possible.
* `Json.stringify` — the JSON text of a string.
* `Json.parse` — the parser.

## Main results

* `Json.parse_stringify` — strings come back from their JSON texts.
* `Json.decodeText_stringify` — JSON texts of strings come back from their bytes.
-/

namespace SalRuntime

/-- A text is a string: its members are code points, and no lone surrogates form a pair. -/
structure IsString (t : Text) : Prop where
  /-- The members are code points. -/
  lt : ∀ c ∈ t, c < 0x110000
  /-- No lone surrogates form a pair. -/
  paired : pairSurrogates t = t

/-- A decimal number. -/
structure Decimal where
  /-- Is there a minus sign? -/
  negative : Bool
  /-- The digits as an integer. -/
  digits : ℕ
  /-- The power of ten. -/
  exponent : ℤ
  deriving DecidableEq, Repr

/-- A JSON value. -/
inductive Json
  /-- `null`. -/
  | null
  /-- A Boolean. -/
  | bool (b : Bool)
  /-- A number. -/
  | num (x : Decimal)
  /-- A string. -/
  | str (t : Text)
  /-- An array. -/
  | arr (items : List Json)
  /-- An object with its fields as they are listed. -/
  | obj (fields : List (Text × Json))

namespace Json

/-! ### Writing strings -/

/-- The escape of a code unit by its hexadecimal digits. -/
def escapeUnit (c : ℕ) : Text :=
  [92, 117, hexDigit (c / 4096 % 16), hexDigit (c / 256 % 16), hexDigit (c / 16 % 16),
    hexDigit (c % 16)]

/-- A code point in a quoted string. -/
def quoteChar (c : ℕ) : Text :=
  if c = 34 ∨ c = 92 then [92, c]
  else if c = 8 then [92, 98]
  else if c = 9 then [92, 116]
  else if c = 10 then [92, 110]
  else if c = 12 then [92, 102]
  else if c = 13 then [92, 114]
  else if c < 32 ∨ ¬ c.isValidChar then escapeUnit c
  else [c]

/-- The JSON text of a string. -/
def stringify (t : Text) : Text := 34 :: (t.flatMap quoteChar ++ [34])

/-! ### Parsing -/

/-- A syntax error. -/
inductive SyntaxError
  /-- The text is not what the grammar expects. -/
  | unexpected
  deriving DecidableEq, Repr

/-- A parser consumes code points. -/
abbrev Parser := Reader ℕ SyntaxError

/-- Skip blanks. -/
def skipBlanks : Parser Unit := fun t =>
  .ok ((), t.dropWhile fun c => c = 32 ∨ c = 9 ∨ c = 10 ∨ c = 13)

/-- Consume a code point if it comes next. -/
def accept (c : ℕ) : Parser Bool := fun
  | [] => .ok (false, [])
  | d :: t => if d = c then .ok (true, t) else .ok (false, d :: t)

/-- Consume a code point that must come next. -/
def expect (c : ℕ) : Parser Unit := do
  if !(← accept c) then throw .unexpected

/-- Consume the rest of a word. -/
def word (w : Text) (v : Json) : Parser Json := do
  for c in w do expect c
  return v

/-- The value of a hexadecimal digit. -/
def hexDigitValue (c : ℕ) : Option ℕ :=
  if 48 ≤ c ∧ c ≤ 57 then some (c - 48)
  else if 97 ≤ c ∧ c ≤ 102 then some (c - 87)
  else if 65 ≤ c ∧ c ≤ 70 then some (c - 55)
  else none

/-- The code unit of four hexadecimal digits. -/
def unitValue (a b c d : ℕ) : Option ℕ := do
  return 4096 * (← hexDigitValue a) + 256 * (← hexDigitValue b) + 16 * (← hexDigitValue c) +
    (← hexDigitValue d)

/-- The character of a short escape. -/
def unescape (c : ℕ) : Option ℕ :=
  if c = 34 ∨ c = 92 ∨ c = 47 then some c
  else if c = 98 then some 8
  else if c = 116 then some 9
  else if c = 110 then some 10
  else if c = 102 then some 12
  else if c = 114 then some 13
  else none

/-- Put a code unit in front of what is parsed next. -/
def withUnit (u : Option ℕ) (p : Except SyntaxError (Text × Text)) :
    Except SyntaxError (Text × Text) := do
  match u with
  | none => throw .unexpected
  | some u => return (u :: (← p).1, (← p).2)

/-- The rest of a string after its first quote, as code units and code points. -/
def stringBody : Parser Text
  | [] => .error .unexpected
  | c :: t =>
    if c = 34 then .ok ([], t)
    else if c = 92 then
      match t with
      | [] => .error .unexpected
      | e :: t =>
        if e = 117 then
          match t with
          | h₃ :: h₂ :: h₁ :: h₀ :: t => withUnit (unitValue h₃ h₂ h₁ h₀) (stringBody t)
          | _ => .error .unexpected
        else withUnit (unescape e) (stringBody t)
    else withUnit (if c < 32 then none else some c) (stringBody t)

/-- Digits. -/
def digits : Parser Text := fun t => .ok (t.span isDigit)

/-- Digits, at least one. -/
def someDigits : Parser Text := do
  let ds ← digits
  if ds = [] then throw .unexpected
  return ds

/-- The number of decimal digits. -/
def ofDigits (ds : Text) : ℕ := ds.foldl (fun n c => 10 * n + (c - 48)) 0

/-- The digits after a decimal point, if there is one. -/
def fraction : Parser Text := do
  if ← accept 46 then someDigits else return []

/-- The exponent after an `e`, if there is one. -/
def exponent : Parser ℤ := do
  if !((← accept 101) || (← accept 69)) then return 0
  let minus ← accept 45
  if !minus then
    let _ ← accept 43
  let ds ← someDigits
  return if minus then -(ofDigits ds : ℤ) else ofDigits ds

/-- A number. Its integral part has no leading zero. -/
def number : Parser Json := do
  let minus ← accept 45
  let int ← someDigits
  if 1 < int.length ∧ int.head? = some 48 then throw .unexpected
  let frac ← fraction
  let e ← exponent
  return .num ⟨minus, ofDigits (int ++ frac), e - frac.length⟩

/-- The rest of a string after its first quote. -/
def string : Parser Text := do
  return pairSurrogates (← stringBody)

/-- Items up to a closing bracket, separated by commas. -/
def sequence {α : Type} (item : Parser α) (close : ℕ) : ℕ → Parser (List α)
  | 0 => throw .unexpected
  | n + 1 => do
    let a ← item
    skipBlanks
    if ← accept 44 then return a :: (← sequence item close n)
    expect close
    return [a]

/-- Items between brackets, after the opening one. -/
def bracketed {α : Type} (item : Parser α) (close n : ℕ) : Parser (List α) := do
  skipBlanks
  if ← accept close then return [] else sequence item close n

/-- A field of an object. -/
def field (value : Parser Json) : Parser (Text × Json) := do
  skipBlanks
  expect 34
  let key ← string
  skipBlanks
  expect 58
  return (key, ← value)

/-- A value. The first argument bounds the depth and the number of items of a sequence. -/
def value : ℕ → Parser Json
  | 0 => throw .unexpected
  | n + 1 => do
    skipBlanks
    if ← accept 34 then return .str (← string)
    if ← accept 91 then return .arr (← bracketed (value n) 93 n)
    if ← accept 123 then return .obj (← bracketed (field (value n)) 125 n)
    if ← accept 110 then return ← word [117, 108, 108] .null
    if ← accept 116 then return ← word [114, 117, 101] (.bool true)
    if ← accept 102 then return ← word [97, 108, 115, 101] (.bool false)
    number

/-- The value of a JSON text. Every level and every item takes a character. -/
def parse (t : Text) : Except SyntaxError Json := do
  let (v, rest) ← StateT.run (do let v ← value (t.length + 1); skipBlanks; return v) t
  if rest = [] then return v else throw .unexpected

/-! ### Strings come back -/

theorem hexDigitValue_hexDigit {n : ℕ} (h : n < 16) : hexDigitValue (hexDigit n) = some n := by
  rw [hexDigit]
  by_cases hn : n < 10
  · rw [if_pos hn, hexDigitValue, if_pos (by omega), Nat.add_sub_cancel]
  · rw [if_neg hn, hexDigitValue, if_neg (by omega), if_pos (by omega), Nat.add_sub_cancel]

theorem unitValue_escape {c : ℕ} (h : c < 0x10000) :
    unitValue (hexDigit (c / 4096 % 16)) (hexDigit (c / 256 % 16)) (hexDigit (c / 16 % 16))
      (hexDigit (c % 16)) = some c := by
  have hdigit (n : ℕ) := hexDigitValue_hexDigit (Nat.mod_lt n (show 16 > 0 by omega))
  rw [unitValue, hdigit, hdigit, hdigit, hdigit]
  show some (4096 * (c / 4096 % 16) + 256 * (c / 256 % 16) + 16 * (c / 16 % 16) + c % 16) = some c
  congr 1
  omega

theorem stringBody_quote (t : Text) : stringBody (34 :: t) = .ok ([], t) := by
  rw [stringBody.eq_def]
  exact if_pos rfl

/-- A code point that is not escaped. -/
theorem stringBody_plain {c : ℕ} (hquote : c ≠ 34) (hback : c ≠ 92) (hlow : 32 ≤ c) (t : Text) :
    stringBody (c :: t) = withUnit (some c) (stringBody t) := by
  rw [stringBody.eq_def]
  simp only [if_neg hquote, if_neg hback, if_neg (show ¬ c < 32 by omega)]

/-- A short escape. -/
theorem stringBody_escape {c e : ℕ} (h : unescape e = some c) (hne : e ≠ 117) (t : Text) :
    stringBody (92 :: e :: t) = withUnit (some c) (stringBody t) := by
  rw [stringBody.eq_def]
  simp only [if_neg (show 92 ≠ 34 by decide), if_true, if_neg hne, h]

theorem stringBody_escapeUnit {c : ℕ} (h : c < 0x10000) (t : Text) :
    stringBody (escapeUnit c ++ t) = withUnit (some c) (stringBody t) := by
  rw [escapeUnit]
  rw [List.cons_append, List.cons_append, stringBody.eq_def]
  simp only [if_neg (show 92 ≠ 34 by decide), if_true, List.cons_append, List.nil_append,
    unitValue_escape h]

/-- **A quoted code point** is read back. -/
theorem stringBody_quoteChar {c : ℕ} (hlt : c < 0x110000) (t : Text) :
    stringBody (quoteChar c ++ t) = withUnit (some c) (stringBody t) := by
  rw [quoteChar]
  split_ifs with hquote h8 h9 h10 h12 h13 hescape
  · rcases hquote with rfl | rfl <;> exact stringBody_escape rfl (by decide) t
  · exact h8 ▸ stringBody_escape rfl (by decide) t
  · exact h9 ▸ stringBody_escape rfl (by decide) t
  · exact h10 ▸ stringBody_escape rfl (by decide) t
  · exact h12 ▸ stringBody_escape rfl (by decide) t
  · exact h13 ▸ stringBody_escape rfl (by decide) t
  · refine stringBody_escapeUnit ?_ t
    rcases hescape with hlow | hlone
    · omega
    · by_contra hge
      exact hlone (Or.inr ⟨by omega, hlt⟩)
  · push Not at hquote hescape
    exact stringBody_plain hquote.1 hquote.2 hescape.1 t

theorem stringBody_quoted {t : Text} (h : ∀ c ∈ t, c < 0x110000) (rest : Text) :
    stringBody (t.flatMap quoteChar ++ 34 :: rest) = .ok (t, rest) := by
  induction t with
  | nil => exact stringBody_quote rest
  | cons c t ih =>
    rw [List.flatMap_cons, List.append_assoc, stringBody_quoteChar (h c List.mem_cons_self),
      ih fun d hd => h d (List.mem_cons_of_mem _ hd)]
    rfl

/-- **Strings come back** from their JSON texts. -/
theorem parse_stringify {t : Text} (h : IsString t) : parse (stringify t) = .ok (.str t) := by
  have hstring : StateT.run string (t.flatMap quoteChar ++ [34]) = .ok (t, []) := by
    rw [string, StateT.run_bind, show StateT.run stringBody _ = _ from stringBody_quoted h.lt []]
    show Except.ok (pairSurrogates t, []) = _
    rw [h.paired]
  have hvalue (n : ℕ) : StateT.run (value (n + 1)) (stringify t) = .ok (.str t, []) := by
    rw [value, StateT.run_bind]
    show StateT.run (do return Json.str (← string)) (t.flatMap quoteChar ++ [34]) = _
    rw [StateT.run_bind, hstring]
    rfl
  rw [parse, StateT.run_bind, hvalue]
  rfl

theorem isValidChar_hexDigit {n : ℕ} (h : n < 16) : (hexDigit n).isValidChar := by
  rw [hexDigit]
  refine Or.inl ?_
  split_ifs <;> omega

theorem isValidChar_quoteChar {c : ℕ} : ∀ d ∈ quoteChar c, d.isValidChar := by
  have hsmall {d : ℕ} (h : d < 256) : d.isValidChar := Or.inl (by omega)
  have hpair {a b : ℕ} (ha : a < 256) (hb : b < 256) : ∀ d ∈ [a, b], d.isValidChar := by
    intro d hd
    rcases List.mem_pair.mp hd with rfl | rfl
    · exact hsmall ha
    · exact hsmall hb
  have hdigit (n : ℕ) := isValidChar_hexDigit (Nat.mod_lt n (show 16 > 0 by omega))
  rw [quoteChar]
  split_ifs with hquote h8 h9 h10 h12 h13 hescape
  · exact hpair (by omega) (by omega)
  · exact hpair (by omega) (by omega)
  · exact hpair (by omega) (by omega)
  · exact hpair (by omega) (by omega)
  · exact hpair (by omega) (by omega)
  · exact hpair (by omega) (by omega)
  · intro d hd
    simp only [escapeUnit, List.mem_cons, List.not_mem_nil, or_false] at hd
    rcases hd with rfl | rfl | rfl | rfl | rfl | rfl
    · exact hsmall (by omega)
    · exact hsmall (by omega)
    all_goals exact hdigit _
  · intro d hd
    push Not at hescape
    rw [List.mem_singleton.mp hd]
    exact hescape.2

/-- JSON texts of strings have no lone surrogates. -/
theorem wellFormed_stringify (t : Text) : WellFormed (stringify t) := by
  intro c hc
  rw [stringify, List.mem_cons, List.mem_append, List.mem_singleton, List.mem_flatMap] at hc
  rcases hc with rfl | ⟨d, -, hd⟩ | rfl
  · exact Or.inl (by omega)
  · exact isValidChar_quoteChar c hd
  · exact Or.inl (by omega)

/-- **JSON texts of strings** come back from their bytes. -/
theorem decodeText_stringify (t : Text) : decodeText (utf8 (stringify t)) = .ok (stringify t) := by
  have hmap : (stringify t).map (fun c => (scalar c).toNat) = stringify t :=
    (List.map_congr_left fun c hc => scalar_toNat (wellFormed_stringify t c hc)).trans
      (List.map_id _)
  rw [decodeText_utf8, decodedText, hmap]
  rfl

end Json

end SalRuntime
