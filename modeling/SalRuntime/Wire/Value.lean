import Mathlib.Data.List.Dedup
import Mathlib.Data.List.Lex
import SalRuntime.Foundations.SortedMap
import SalRuntime.Wire.Octets

/-!
# Values on the wire

The codec of values of `src/wire.js`. Texts that occur more than once are sent once, in a dictionary.
Texts that look like a hash are sent as bytes, and texts that look like the name of a local commit as
a number.

## Main definitions

* `Value` — the values that messages are made of.
* `putValue`, `getValue` — the codec.
* `decoded` — what is decoded of an encoded value.

## Main results

* `reads_value`, `sends_value` — what is read back.
-/

namespace SalRuntime

variable {γ : Type}

/-- A value. An object lists its fields in ascending order of their keys. A text that is a content id
is a value of its own. -/
inductive Value (γ : Type)
  /-- `null`. -/
  | null
  /-- `undefined`, or another value that the codec does not support. -/
  | undefined
  /-- A boolean. -/
  | bool (b : Bool)
  /-- A number. -/
  | num (x : Number)
  /-- A text. -/
  | str (t : Text)
  /-- A content id. -/
  | hash (g : γ)
  /-- An array. -/
  | arr (items : List (Value γ))
  /-- An object. -/
  | obj (fields : List (Text × Value γ))

/-- Induction over the items of arrays and the fields of objects. -/
theorem Value.ind {P : Value γ → Prop} (null : P .null) (undefined : P .undefined)
    (bool : ∀ b, P (.bool b)) (num : ∀ x, P (.num x)) (str : ∀ s, P (.str s))
    (hash : ∀ g, P (.hash g)) (arr : ∀ items, (∀ v ∈ items, P v) → P (.arr items))
    (obj : ∀ fields, (∀ e ∈ fields, P e.2) → P (.obj fields)) (v : Value γ) : P v := by
  refine @Value.rec γ P (fun items => ∀ v ∈ items, P v) (fun fields => ∀ e ∈ fields, P e.2)
    (fun e => P e.2) null undefined bool num str hash arr obj ?_ ?_ ?_ ?_ ?_ v
  · exact List.forall_mem_nil _
  · exact fun v vs hv hvs => List.forall_mem_cons.mpr ⟨hv, hvs⟩
  · exact List.forall_mem_nil _
  · exact fun e es he hes => List.forall_mem_cons.mpr ⟨he, hes⟩
  · exact fun _ _ h => h

/-! ### Texts -/

/-- A lower-case hexadecimal digit. -/
def isHexDigit (c : ℕ) : Bool := (48 ≤ c && c ≤ 57) || (97 ≤ c && c ≤ 102)

/-- A decimal digit. -/
def isDigit (c : ℕ) : Bool := 48 ≤ c && c ≤ 57

/-- `HASH_HEX`. -/
def isHash (t : Text) : Bool := (t.length = 40 || t.length = 64) && t.all isHexDigit

/-- `LOCAL_COMMIT`: the letter `c` and digits. -/
def isLocal : Text → Bool
  | [] => false
  | c :: digits => c = 99 && !digits.isEmpty && digits.all isDigit

/-- The number in the name of a local commit. -/
def localNumber (t : Text) : ℕ := t.tail.foldl (fun n c => 10 * n + (c - 48)) 0

/-- The canonical name of a local commit. -/
def localName (n : ℕ) : Text := text (commitName n)

/-- The value of a hexadecimal digit. -/
def hexValue (c : ℕ) : ℕ := if c ≤ 57 then c - 48 else c - 87

/-- The hexadecimal digit of a number below sixteen. -/
def hexDigit (n : ℕ) : ℕ := if n < 10 then n + 48 else n + 87

/-- The bytes of pairs of hexadecimal digits. -/
def hexBytes : Text → List UInt8
  | a :: b :: cs => UInt8.ofNat (16 * hexValue a + hexValue b) :: hexBytes cs
  | _ => []

/-- The hexadecimal digits of bytes. -/
def hexText (bs : List UInt8) : Text :=
  bs.flatMap fun b => [hexDigit (b.toNat / 16), hexDigit (b.toNat % 16)]

theorem hexDigit_hexValue {c : ℕ} (h : isHexDigit c = true) :
    hexValue c < 16 ∧ hexDigit (hexValue c) = c := by
  simp only [isHexDigit, Bool.or_eq_true, Bool.and_eq_true, decide_eq_true_eq] at h
  rw [hexDigit, hexValue]
  split_ifs <;> omega

/-- **Hexadecimal digits** come back. -/
theorem hexText_hexBytes {cs : Text} (hhex : ∀ c ∈ cs, isHexDigit c = true)
    (heven : cs.length % 2 = 0) :
    hexText (hexBytes cs) = cs ∧ (hexBytes cs).length = cs.length / 2 := by
  induction cs using hexBytes.induct with
  | case1 a b cs ih =>
    simp only [List.forall_mem_cons] at hhex
    obtain ⟨ha, hb, hcs⟩ := hhex
    obtain ⟨hlta, hdiga⟩ := hexDigit_hexValue ha
    obtain ⟨hltb, hdigb⟩ := hexDigit_hexValue hb
    obtain ⟨htext, hlen⟩ := ih hcs (by simp at heven; omega)
    have hbyte : (UInt8.ofNat (16 * hexValue a + hexValue b)).toNat =
        16 * hexValue a + hexValue b :=
      UInt8.toNat_ofNat_of_lt (show 16 * hexValue a + hexValue b < 256 by omega)
    have hhigh : (16 * hexValue a + hexValue b) / 16 = hexValue a := by omega
    have hlow : (16 * hexValue a + hexValue b) % 16 = hexValue b := by omega
    rw [hexBytes]
    constructor
    · rw [hexText, List.flatMap_cons, hbyte, hhigh, hlow, hdiga, hdigb]
      exact congrArg (a :: b :: ·) htext
    · simp only [List.length_cons, hlen]
      omega
  | case2 cs hne =>
    cases cs with
    | nil => exact ⟨rfl, rfl⟩
    | cons a cs =>
      cases cs with
      | nil => simp at heven
      | cons b cs => exact absurd rfl (hne a b cs)

/-- What comes back of a text in a value. -/
def decodedString (t : Text) : Text :=
  if isHash t then t else if isLocal t then localName (localNumber t) else decodedText t

/-- A dictionary can be sent if it is short and has no hash and no name of a local commit. -/
structure Usable (dict : List Text) : Prop where
  /-- The dictionary is short. -/
  length : dict.length ≤ MAX_SAFE_INTEGER
  /-- No hash. -/
  hash : ∀ t ∈ dict, isHash t = false
  /-- No name of a local commit. -/
  name : ∀ t ∈ dict, isLocal t = false
  /-- The texts are short. -/
  text : ∀ t ∈ dict, (utf8 t).length ≤ MAX_SAFE_INTEGER

/-! ### The encoder -/

/-- Encode a text. -/
def putString (dict : List Text) (t : Text) : Except Failure (List (Octet γ)) :=
  match dict.idxOf? t with
  | some i => tagged (.byte 5) (putUint i)
  | none =>
    if isHash t then
      .ok (.byte 6 :: .byte (UInt8.ofNat (t.length / 2)) :: (hexBytes t).map .byte)
    else if isLocal t then tagged (.byte 10) (putUint (localNumber t))
    else tagged (.byte 7) (putText t)

/-- The natural number that stands for an integer. -/
def zigzag (v : ℤ) : ℕ := if 0 ≤ v then (2 * v).toNat else (-2 * v - 1).toNat

/-- Encode a number. -/
def putNumber : Number → Except Failure (List (Octet γ))
  | .int v =>
    if v.natAbs ≤ MAX_SAFE_INTEGER then tagged (.byte 3) (putUint (zigzag v))
    else .ok [.byte 4, .double (.int v)]
  | .fractional bits => .ok [.byte 4, .double (.fractional bits)]

mutual

/-- Encode a value. -/
def putValue (dict : List Text) : Value γ → Except Failure (List (Octet γ))
  | .null => .ok [.byte 0]
  | .undefined => .error (.error "wire: unsupported value undefined")
  | .bool false => .ok [.byte 1]
  | .bool true => .ok [.byte 2]
  | .num x => putNumber x
  | .str t => putString dict t
  | .hash g => .ok [.byte 6, .byte 32, .digest g]
  | .arr items => tagged (.byte 8) (andThen (putUint items.length) (putItems dict items))
  | .obj fields => tagged (.byte 9) (andThen (putUint fields.length) (putFields dict fields))

/-- Encode the items of an array. -/
def putItems (dict : List Text) : List (Value γ) → Except Failure (List (Octet γ))
  | [] => .ok []
  | v :: vs => andThen (putValue dict v) (putItems dict vs)

/-- Encode the fields of an object. -/
def putFields (dict : List Text) : List (Text × Value γ) → Except Failure (List (Octet γ))
  | [] => .ok []
  | (k, v) :: rest =>
    andThen (andThen (putString dict k) (putValue dict v)) (putFields dict rest)

end

/-! ### The decoder -/

/-- The name `__proto__`. -/
def PROTO : Text := text "__proto__"

/-- Assign fields to a new object, one after the other. Assigning to `__proto__` adds no field. -/
def assign (fields : List (Text × Value γ)) : List (Text × Value γ) :=
  fields.foldl (fun o e => if e.1 = PROTO then o else SortedMap.insertEntry e.1 e.2 o) []

/-- Decode the bytes of a text that looks like a hash. -/
def getHex (n : ℕ) : WireReader γ (Value γ) := do
  return .str (hexText (← Reader.many getByte n))

/-- Decode a content id, or a text of `n` bytes that looks like a hash. -/
def getDigest (n : ℕ) : WireReader γ (Value γ) := fun stream =>
  match stream with
  | .digest g :: rest => .ok (.hash g, rest)
  | _ => StateT.run (getHex n : WireReader γ (Value γ)) stream

/-- Decode what looks like a hash. -/
def getHash : WireReader γ (Value γ) := do
  let n ← getByte
  getDigest n.toNat

/-- The integer that a natural number stands for. -/
def unzigzag (n : ℕ) : ℤ := if n % 2 = 0 then n / 2 else -(n + 1) / 2

/-- Decode a double. -/
def getDouble : WireReader γ (Value γ) := do
  match ← Reader.next truncated with
  | .double x => return .num x
  | _ => throw truncated

/-- Decode a field. -/
def getField (get : WireReader γ (Value γ)) : WireReader γ (Text × Value γ) := do
  match ← get with
  | .str k => return (k, ← get)
  | _ => throw (.error "wire: non-string object key")

/-- Decode a value with the given tag, whose parts are decoded by `get`. -/
def getTagged (dict : List Text) (get : WireReader γ (Value γ)) : ℕ → WireReader γ (Value γ)
  | 0 => return .null
  | 1 => return .bool false
  | 2 => return .bool true
  | 3 => return .num (.int (unzigzag (← getUint)))
  | 4 => getDouble
  | 5 => do
    match dict[← getUint]? with
    | some t => return .str t
    | none => throw (.error "wire: bad dictionary reference")
  | 6 => getHash
  | 7 => return .str (← getText)
  | 8 => return .arr (← Reader.many get (← getUint))
  | 9 => return .obj (assign (← Reader.many (getField get) (← getUint)))
  | 10 => return .str (localName (← getUint))
  | _ => throw (.error "wire: unknown value tag")

/-- Decode a value that is at most `depth` deep. -/
def getValue (dict : List Text) : ℕ → WireReader γ (Value γ)
  | 0 => throw (.error "Maximum call stack size exceeded")
  | depth + 1 => do
    let tag ← getByte
    getTagged dict (getValue dict depth) tag.toNat

/-! ### What comes back -/

mutual

/-- What is decoded of an encoded value. -/
def decoded : Value γ → Value γ
  | .null => .null
  | .undefined => .undefined
  | .bool b => .bool b
  | .num x => .num x
  | .str t => .str (decodedString t)
  | .hash g => .hash g
  | .arr items => .arr (decodedItems items)
  | .obj fields => .obj (assign (decodedFields fields))

/-- What is decoded of encoded items. -/
def decodedItems : List (Value γ) → List (Value γ)
  | [] => []
  | v :: vs => decoded v :: decodedItems vs

/-- What is decoded of encoded fields. -/
def decodedFields : List (Text × Value γ) → List (Text × Value γ)
  | [] => []
  | (k, v) :: rest => (decodedString k, decoded v) :: decodedFields rest

end

mutual

/-- The depth of a value. -/
def depth : Value γ → ℕ
  | .arr items => depthItems items + 1
  | .obj fields => depthFields fields + 1
  | .null => 1
  | .undefined => 1
  | .bool _ => 1
  | .num _ => 1
  | .str _ => 1
  | .hash _ => 1

/-- The depth of items. -/
def depthItems : List (Value γ) → ℕ
  | [] => 0
  | v :: vs => max (depth v) (depthItems vs)

/-- The depth of fields. -/
def depthFields : List (Text × Value γ) → ℕ
  | [] => 1
  | (_, v) :: rest => max (depth v) (depthFields rest)

end

theorem one_le_depthFields (fields : List (Text × Value γ)) : 1 ≤ depthFields fields := by
  induction fields with
  | nil => exact le_rfl
  | cons e fields ih => exact ih.trans (le_max_right _ _)

section Reads

open Reader (Reads)

variable {dict : List Text}

theorem reads_tag {get : WireReader γ (Value γ)} (tag : UInt8) {n : ℕ} (htag : tag.toNat = n)
    {out : List (Octet γ)} {v : Value γ} (h : Reads (getTagged dict get n) out v) :
    Reads (do
      let tag ← getByte
      getTagged dict get tag.toNat) (.byte tag :: out) v :=
  reads_byte_bind (htag ▸ h)

theorem reads_hex {bs : List UInt8} (hne : bs ≠ []) :
    Reads (getDigest bs.length : WireReader γ (Value γ)) (bs.map .byte)
      (.str (hexText bs)) := by
  intro rest
  cases bs with
  | nil => exact absurd rfl hne
  | cons b bs =>
    have hreads := (reads_bytes (γ := γ) (b :: bs)).map fun bs =>
      (.str (hexText bs) : Value γ)
    exact hreads rest

theorem reads_hash {s : Text} (h : isHash s = true) :
    Reads (getHash : WireReader γ (Value γ))
      (.byte (UInt8.ofNat (s.length / 2)) :: (hexBytes s).map .byte) (.str s) := by
  rw [isHash, Bool.and_eq_true, Bool.or_eq_true, decide_eq_true_eq, decide_eq_true_eq,
    List.all_eq_true] at h
  obtain ⟨hlen, hhex⟩ := h
  obtain ⟨htext, hbytes⟩ := hexText_hexBytes hhex (by omega)
  have hnat : (UInt8.ofNat (s.length / 2)).toNat = (hexBytes s).length := by
    rw [hbytes]
    exact UInt8.toNat_ofNat_of_lt (show s.length / 2 < 256 by omega)
  have hne : hexBytes s ≠ [] := by
    rw [ne_eq, ← List.length_eq_zero_iff, hbytes]
    omega
  refine reads_byte_bind ?_
  have hreads := reads_hex (γ := γ) hne
  rwa [htext, ← hnat] at hreads

/-- **Texts** come back with a canonical number and without a byte order mark. -/
theorem reads_string (hdict : Usable dict) {s : Text} {out : List (Octet γ)}
    (h : putString dict s = .ok out) (n : ℕ) :
    Reads (getValue (dict.map decodedText) (n + 1)) out (.str (decodedString s)) := by
  rw [putString] at h
  cases hindex : dict.idxOf? s with
  | some i =>
    rw [hindex] at h
    obtain ⟨rest, hrest, rfl⟩ := tagged_eq_ok h
    obtain ⟨hlt, hget, -⟩ := List.idxOf?_eq_some_iff.mp hindex
    have hmem : s ∈ dict := hget ▸ List.getElem_mem hlt
    have hsent : (dict.map decodedText)[i]? = some (decodedText s) := by
      rw [List.getElem?_map, List.getElem?_eq_getElem hlt, hget]
      rfl
    refine reads_tag 5 rfl ((reads_uint hrest).bind_pure ?_)
    rw [hsent, decodedString, hdict.hash s hmem, hdict.name s hmem]
    exact .pure _
  | none =>
    rw [hindex] at h
    dsimp only at h
    rw [decodedString]
    split_ifs at h ⊢ with hhash hname
    · cases h
      exact reads_tag 6 rfl (reads_hash hhash)
    · obtain ⟨rest, hrest, rfl⟩ := tagged_eq_ok h
      exact reads_tag 10 rfl ((reads_uint hrest).map _)
    · obtain ⟨rest, hrest, rfl⟩ := tagged_eq_ok h
      exact reads_tag 7 rfl ((reads_text hrest).map _)

theorem unzigzag_zigzag (v : ℤ) : unzigzag (zigzag v) = v := by
  rw [unzigzag, zigzag]
  split_ifs <;> omega

/-- **Numbers** come back. -/
theorem reads_number {x : Number} {out : List (Octet γ)} (h : putNumber x = .ok out) (n : ℕ) :
    Reads (getValue dict (n + 1)) out (.num x) := by
  cases x with
  | int v =>
    rw [putNumber] at h
    split_ifs at h
    · obtain ⟨rest, hrest, rfl⟩ := tagged_eq_ok h
      have hreads := (reads_uint hrest).map fun n => (.num (.int (unzigzag n)) : Value γ)
      rw [unzigzag_zigzag] at hreads
      exact reads_tag 3 rfl hreads
    · cases h
      exact reads_tag 4 rfl fun _ => rfl
  | fractional bits =>
    cases h
    exact reads_tag 4 rfl fun _ => rfl

/-- The value comes back decoded. -/
def Returns (dict : List Text) (v : Value γ) : Prop :=
  ∀ out, putValue dict v = .ok out → ∀ n, depth v ≤ n →
    Reads (getValue (dict.map decodedText) n) out (decoded v)

theorem reads_items {items : List (Value γ)} {n : ℕ}
    (ih : ∀ v ∈ items, Returns dict v) {out : List (Octet γ)}
    (h : putItems dict items = .ok out) (hdepth : depthItems items ≤ n) :
    Reads (Reader.many (getValue (dict.map decodedText) n) items.length) out
      (decodedItems items) := by
  induction items generalizing out with
  | nil =>
    cases h
    exact .many_nil
  | cons v items ih' =>
    rw [List.forall_mem_cons] at ih
    rw [depthItems, max_le_iff] at hdepth
    obtain ⟨a, b, ha, hb, rfl⟩ := andThen_eq_ok h
    exact .many_cons (ih.1 a ha n hdepth.1) (ih' ih.2 hb hdepth.2)

theorem reads_field {get : WireReader γ (Value γ)} {key out : List (Octet γ)} {k : Text}
    {v : Value γ} (hkey : Reads get key (.str k)) (hvalue : Reads get out v) :
    Reads (getField get) (key ++ out) (k, v) :=
  hkey.bind (hvalue.map (k, ·))

theorem reads_fields (hdict : Usable dict) {fields : List (Text × Value γ)} {n : ℕ}
    (ih : ∀ e ∈ fields, Returns dict e.2) {out : List (Octet γ)}
    (h : putFields dict fields = .ok out) (hdepth : depthFields fields ≤ n) :
    Reads (Reader.many (getField (getValue (dict.map decodedText) n)) fields.length) out
      (decodedFields fields) := by
  induction fields generalizing out with
  | nil =>
    cases h
    exact .many_nil
  | cons e fields ih' =>
    obtain ⟨k, v⟩ := e
    rw [List.forall_mem_cons] at ih
    rw [depthFields, max_le_iff] at hdepth
    obtain ⟨n, rfl⟩ : ∃ m, n = m + 1 :=
      Nat.exists_eq_add_of_le' ((one_le_depthFields fields).trans hdepth.2)
    obtain ⟨a, b, ha, hb, rfl⟩ := andThen_eq_ok h
    obtain ⟨key, c, hkey, hc, rfl⟩ := andThen_eq_ok ha
    exact .many_cons (reads_field (reads_string hdict hkey n) (ih.1 c hc _ hdepth.1)) (ih' ih.2 hb hdepth.2)

/-- **Values** come back decoded. -/
theorem reads_value (hdict : Usable dict) (v : Value γ) : Returns dict v := by
  induction v using Value.ind with
  | undefined =>
    intro out h
    cases h
  | null =>
    intro out h n hdepth
    obtain ⟨n, rfl⟩ := Nat.exists_eq_add_of_le' hdepth
    cases h
    exact reads_tag 0 rfl (.pure _)
  | bool b =>
    intro out h n hdepth
    obtain ⟨n, rfl⟩ := Nat.exists_eq_add_of_le' hdepth
    cases b with
    | false =>
      cases h
      exact reads_tag 1 rfl (.pure _)
    | true =>
      cases h
      exact reads_tag 2 rfl (.pure _)
  | num x =>
    intro out h n hdepth
    obtain ⟨n, rfl⟩ := Nat.exists_eq_add_of_le' hdepth
    exact reads_number h n
  | str s =>
    intro out h n hdepth
    obtain ⟨n, rfl⟩ := Nat.exists_eq_add_of_le' hdepth
    exact reads_string hdict h n
  | hash g =>
    intro out h n hdepth
    obtain ⟨n, rfl⟩ := Nat.exists_eq_add_of_le' hdepth
    cases h
    exact reads_tag 6 rfl (reads_byte_bind fun _ => rfl)
  | arr items ih =>
    intro out h n hdepth
    obtain ⟨n, rfl⟩ := Nat.exists_eq_add_of_le' ((Nat.le_add_left 1 _).trans hdepth)
    obtain ⟨body, hbody, rfl⟩ := tagged_eq_ok h
    obtain ⟨size, rest, hsize, hrest, rfl⟩ := andThen_eq_ok hbody
    have hitems := reads_items ih hrest (Nat.le_of_succ_le_succ hdepth)
    exact reads_tag 8 rfl ((reads_uint hsize).bind (hitems.map Value.arr))
  | obj fields ih =>
    intro out h n hdepth
    obtain ⟨n, rfl⟩ := Nat.exists_eq_add_of_le' ((Nat.le_add_left 1 _).trans hdepth)
    obtain ⟨body, hbody, rfl⟩ := tagged_eq_ok h
    obtain ⟨size, rest, hsize, hrest, rfl⟩ := andThen_eq_ok hbody
    have hfields := reads_fields hdict ih hrest (Nat.le_of_succ_le_succ hdepth)
    exact reads_tag 9 rfl ((reads_uint hsize).bind (hfields.map fun fields => Value.obj (assign fields)))

/-! ### The length of what is written -/

omit dict in
theorem one_le_length_putUint {n : ℕ} {out : List (Octet γ)} (h : putUint n = .ok out) : 1 ≤ out.length := by
  rw [putUint] at h
  split_ifs at h
  cases h
  rw [varint]
  split_ifs
  · exact le_rfl
  · exact Nat.le_add_left _ _

theorem one_le_length_putString {s : Text} {out : List (Octet γ)}
    (h : putString dict s = .ok out) : 1 ≤ out.length := by
  rw [putString] at h
  cases hindex : dict.idxOf? s with
  | some i =>
    rw [hindex] at h
    obtain ⟨rest, -, rfl⟩ := tagged_eq_ok h
    exact Nat.le_add_left _ _
  | none =>
    rw [hindex] at h
    dsimp only at h
    split_ifs at h
    · cases h
      exact Nat.le_add_left _ _
    · obtain ⟨rest, -, rfl⟩ := tagged_eq_ok h
      exact Nat.le_add_left _ _
    · obtain ⟨rest, -, rfl⟩ := tagged_eq_ok h
      exact Nat.le_add_left _ _

theorem depthItems_le {items : List (Value γ)}
    (ih : ∀ v ∈ items, ∀ out, putValue dict v = .ok out → depth v ≤ out.length)
    {out : List (Octet γ)} (h : putItems dict items = .ok out) : depthItems items ≤ out.length := by
  induction items generalizing out with
  | nil => exact Nat.zero_le _
  | cons v items ih' =>
    rw [List.forall_mem_cons] at ih
    obtain ⟨a, b, ha, hb, rfl⟩ := andThen_eq_ok h
    have hv := ih.1 a ha
    have hitems := ih' ih.2 hb
    rw [depthItems, List.length_append]
    omega

theorem depthFields_le {fields : List (Text × Value γ)}
    (ih : ∀ e ∈ fields, ∀ out, putValue dict e.2 = .ok out → depth e.2 ≤ out.length)
    {out : List (Octet γ)} (h : putFields dict fields = .ok out) :
    depthFields fields ≤ out.length + 1 := by
  induction fields generalizing out with
  | nil => exact Nat.le_add_left _ _
  | cons e fields ih' =>
    obtain ⟨k, v⟩ := e
    rw [List.forall_mem_cons] at ih
    obtain ⟨a, b, ha, hb, rfl⟩ := andThen_eq_ok h
    obtain ⟨key, c, -, hc, rfl⟩ := andThen_eq_ok ha
    have hv := ih.1 c hc
    have hfields := ih' ih.2 hb
    rw [depthFields, List.length_append, List.length_append]
    dsimp only at hv
    omega

/-- The encoding of a value is longer than the value is deep. -/
theorem depth_le_length (v : Value γ) : ∀ out, putValue dict v = .ok out → depth v ≤ out.length := by
  induction v using Value.ind with
  | undefined =>
    intro out h
    cases h
  | null =>
    intro out h
    cases h
    exact le_rfl
  | bool b =>
    intro out h
    cases b with
    | false =>
      cases h
      exact le_rfl
    | true =>
      cases h
      exact le_rfl
  | num x =>
    intro out h
    cases x with
    | int v =>
      rw [putValue, putNumber] at h
      split_ifs at h
      · obtain ⟨rest, -, rfl⟩ := tagged_eq_ok h
        exact Nat.le_add_left _ _
      · cases h
        exact Nat.le_add_left _ _
    | fractional bits =>
      cases h
      exact Nat.le_add_left _ _
  | str s => exact fun out h => one_le_length_putString h
  | hash g =>
    intro out h
    cases h
    exact Nat.le_add_left _ _
  | arr items ih =>
    intro out h
    obtain ⟨body, hbody, rfl⟩ := tagged_eq_ok h
    obtain ⟨size, rest, -, hrest, rfl⟩ := andThen_eq_ok hbody
    have hitems := depthItems_le ih hrest
    rw [depth, List.length_cons, List.length_append]
    omega
  | obj fields ih =>
    intro out h
    obtain ⟨body, hbody, rfl⟩ := tagged_eq_ok h
    obtain ⟨size, rest, hsize, hrest, rfl⟩ := andThen_eq_ok hbody
    have hfields := depthFields_le ih hrest
    have hone := one_le_length_putUint hsize
    rw [depth, List.length_cons, List.length_append]
    omega

/-- **Values** come back decoded, given enough depth for their encoding. -/
theorem sends_value (hdict : Usable dict) (v : Value γ) (n : ℕ) :
    Sends n (putValue dict v) (getValue (dict.map decodedText) n) (decoded v) :=
  fun out h hn => reads_value hdict v out h n ((depth_le_length v out h).trans hn)

end Reads

end SalRuntime
