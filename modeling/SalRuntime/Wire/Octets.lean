import Mathlib.Tactic.Ring
import SalRuntime.Foundations.Number
import SalRuntime.Foundations.Reader
import SalRuntime.Store.Failure

/-!
# Bytes on the wire

The writer and the reader of `src/wire.js`: numbers in groups of seven bits, and texts in UTF-8 with
their length in front. The encoder of texts replaces lone surrogates, and the decoder drops a byte order
mark. The 32 bytes of a content id and the eight bytes of a double are symbols of their own.

## Main definitions

* `Octet` — the symbols of a message.
* `putUint`, `getUint` — natural numbers.
* `putText`, `getText` — texts.
* `Sends` — what is written is read back.

## Main results

* `reads_uint`, `reads_text` — what is read back.
-/

namespace SalRuntime

/-- A byte, the bytes of a content id, or the bytes of a double. -/
inductive Octet (γ : Type)
  /-- A byte. -/
  | byte (b : UInt8)
  /-- The 32 bytes of a content id. -/
  | digest (g : γ)
  /-- The eight bytes of a double. -/
  | double (x : Number)
  deriving DecidableEq

variable {γ : Type}

/-- A reader of a message. -/
abbrev WireReader (γ α : Type) := Reader (Octet γ) Failure α

open Reader (Reads many)

/-! ### Output -/

/-- Write a symbol in front of the rest. -/
def tagged (tag : Octet γ) (put : Except Failure (List (Octet γ))) :
    Except Failure (List (Octet γ)) := do
  return tag :: (← put)

/-- Write one thing after another. -/
def andThen (put put' : Except Failure (List (Octet γ))) : Except Failure (List (Octet γ)) := do
  let out ← put
  return out ++ (← put')

variable {tag : Octet γ} {put put' : Except Failure (List (Octet γ))} {out : List (Octet γ)}

theorem tagged_eq_ok (h : tagged tag put = .ok out) : ∃ rest, put = .ok rest ∧ out = tag :: rest := by
  cases put with
  | error e => cases h
  | ok rest =>
    cases h
    exact ⟨rest, rfl, rfl⟩

theorem andThen_eq_ok (h : andThen put put' = .ok out) :
    ∃ a b, put = .ok a ∧ put' = .ok b ∧ out = a ++ b := by
  cases put with
  | error e => cases h
  | ok a =>
    cases put' with
    | error e => cases h
    | ok b =>
      cases h
      exact ⟨a, b, rfl, rfl, rfl⟩

/-- Writing succeeds. -/
def Writes (put : Except Failure (List (Octet γ))) : Prop := ∃ out, put = .ok out

theorem writes_tagged_iff : Writes (tagged tag put) ↔ Writes put := by
  constructor
  · rintro ⟨out, h⟩
    obtain ⟨rest, hrest, -⟩ := tagged_eq_ok h
    exact ⟨rest, hrest⟩
  · rintro ⟨rest, rfl⟩
    exact ⟨_, rfl⟩

theorem writes_andThen_iff : Writes (andThen put put') ↔ Writes put ∧ Writes put' := by
  constructor
  · rintro ⟨out, h⟩
    obtain ⟨a, b, ha, hb, -⟩ := andThen_eq_ok h
    exact ⟨⟨a, ha⟩, ⟨b, hb⟩⟩
  · rintro ⟨⟨a, rfl⟩, ⟨b, rfl⟩⟩
    exact ⟨_, rfl⟩

/-- Write the items of a list one after the other. -/
def putAll {α : Type} (put : α → Except Failure (List (Octet γ))) :
    List α → Except Failure (List (Octet γ))
  | [] => .ok []
  | x :: xs => andThen (put x) (putAll put xs)

theorem writes_putAll_iff {α : Type} {put : α → Except Failure (List (Octet γ))} {xs : List α} :
    Writes (putAll put xs) ↔ ∀ x ∈ xs, Writes (put x) := by
  induction xs with
  | nil => exact iff_of_true ⟨_, rfl⟩ (List.forall_mem_nil _)
  | cons x xs ih => rw [putAll, writes_andThen_iff, ih, List.forall_mem_cons]

/-- **Lists** are read back if their items are. -/
theorem reads_putAll {α β : Type} {put : α → Except Failure (List (Octet γ))}
    {get : WireReader γ β} {f : α → β} {n : ℕ} {xs : List α}
    (h : ∀ x ∈ xs, ∀ out, put x = .ok out → out.length ≤ n → Reads get out (f x))
    {out : List (Octet γ)} (hput : putAll put xs = .ok out) (hn : out.length ≤ n) :
    Reads (many get xs.length) out (xs.map f) := by
  induction xs generalizing out with
  | nil =>
    cases hput
    exact .many_nil
  | cons x xs ih =>
    rw [List.forall_mem_cons] at h
    obtain ⟨a, b, ha, hb, rfl⟩ := andThen_eq_ok hput
    rw [List.length_append] at hn
    exact .many_cons (h.1 a ha (by omega)) (ih h.2 hb (by omega))

/-! ### Bytes -/

/-- The error of a message that ends early. -/
def truncated : Failure := .error "wire: truncated input"

/-- Read a byte. -/
def getByte : WireReader γ UInt8 := do
  match ← Reader.next truncated with
  | .byte b => return b
  | _ => throw truncated

theorem reads_byte (b : UInt8) : Reads (getByte : WireReader γ UInt8) [.byte b] b := fun _ => rfl

/-- What is read back after a byte. -/
theorem reads_byte_bind {α : Type} {b : UInt8} {f : UInt8 → WireReader γ α} {a : α}
    (h : Reads (f b) out a) : Reads (getByte >>= f) (.byte b :: out) a := (reads_byte b).bind h

/-- Read bytes that were written one after the other. -/
theorem reads_bytes (bs : List UInt8) :
    Reads (many (getByte : WireReader γ UInt8) bs.length) (bs.map .byte) bs := by
  induction bs with
  | nil => exact .many_nil
  | cons b bs ih => exact .many_cons (reads_byte b) ih

/-! ### What is written and what is read back -/

/-- What is written, if it has at most `n` symbols, is read back as the value. -/
def Sends {α : Type} (n : ℕ) (put : Except Failure (List (Octet γ))) (get : WireReader γ α) (a : α) :
    Prop := ∀ out, put = .ok out → out.length ≤ n → Reads get out a

namespace Sends

variable {α β : Type} {n : ℕ} {get : WireReader γ α} {f : α → WireReader γ β} {a : α} {b : β}

/-- **Composition.** -/
theorem bind (h : Sends n put get a) (hf : Sends n put' (f a) b) :
    Sends n (andThen put put') (get >>= f) b := by
  intro out hput hn
  obtain ⟨x, y, hx, hy, rfl⟩ := andThen_eq_ok hput
  rw [List.length_append] at hn
  exact (h x hx (by omega)).bind (hf y hy (by omega))

theorem map (h : Sends n put get a) (g : α → β) :
    Sends n put (get >>= fun a => Pure.pure (g a)) (g a) :=
  fun out hput hn => (h out hput hn).map g

/-- A byte in front. -/
theorem tagged {b : UInt8} {f : UInt8 → WireReader γ α} (hf : Sends n put (f b) a) :
    Sends n (tagged (.byte b) put) (getByte >>= f) a := by
  intro out hput hn
  obtain ⟨rest, hrest, rfl⟩ := tagged_eq_ok hput
  rw [List.length_cons] at hn
  exact reads_byte_bind (hf rest hrest (by omega))

/-- Nothing is written. -/
theorem byte {b : UInt8} {f : UInt8 → WireReader γ α} (hf : Reads (f b) [] a) :
    Sends n (.ok [.byte b]) (getByte >>= f) a := by
  intro out hput _
  cases hput
  exact reads_byte_bind hf

/-- **Lists** are read back if their items are. -/
theorem all {put : β → Except Failure (List (Octet γ))} {f : β → α} {xs : List β}
    (h : ∀ x ∈ xs, Sends n (put x) get (f x)) :
    Sends n (putAll put xs) (many get xs.length) (xs.map f) :=
  fun _ hput hn => reads_putAll h hput hn

end Sends

/-! ### Natural numbers -/

/-- The first `k` groups of seven bits of a number, the lowest first. -/
def varint : ℕ → ℕ → List (Octet γ)
  | 0, _ => []
  | k + 1, n =>
    if n / 128 = 0 then [.byte (UInt8.ofNat (n % 128))]
    else .byte (UInt8.ofNat (n % 128 + 128)) :: varint k (n / 128)

/-- Write a natural number. -/
def putUint (n : ℕ) : Except Failure (List (Octet γ)) :=
  if n ≤ MAX_SAFE_INTEGER then .ok (varint 8 n) else .error (.error s!"wire uint: {n}")

/-- Read at most `k` groups of seven bits. -/
def getGroups : ℕ → ℕ → ℕ → WireReader γ ℕ
  | 0, _, _ => throw (.error "wire: invalid varint")
  | k + 1, n, scale => do
    let b ← getByte
    let n := n + b.toNat % 128 * scale
    if b.toNat < 128 then
      if n ≤ MAX_SAFE_INTEGER then return n else throw (.error "wire: integer overflow")
    else getGroups k n (scale * 128)

/-- Read a natural number. -/
def getUint : WireReader γ ℕ := getGroups 8 0 1

/-- A group without a continuation. -/
theorem reads_lastGroup {k n m scale : ℕ} (hn : n < 128)
    (hsafe : m + n * scale ≤ MAX_SAFE_INTEGER) :
    Reads (getGroups (k + 1) m scale : WireReader γ ℕ) [.byte (UInt8.ofNat (n % 128))]
      (m + n * scale) := by
  have hlow : (UInt8.ofNat n).toNat = n := UInt8.toNat_ofNat_of_lt (show n < 256 by omega)
  rw [Nat.mod_eq_of_lt hn]
  refine reads_byte_bind ?_
  simp only [hlow, Nat.mod_eq_of_lt hn, hn, if_true, hsafe]
  exact .pure _

/-- Groups with a continuation. -/
theorem reads_groups {k n m scale : ℕ} (hn : n < 128 ^ (k + 1))
    (hsafe : m + n * scale ≤ MAX_SAFE_INTEGER) :
    Reads (getGroups (k + 1) m scale : WireReader γ ℕ) (varint (k + 1) n) (m + n * scale) := by
  induction k generalizing n m scale with
  | zero =>
    have hlast : n / 128 = 0 := by omega
    rw [varint, if_pos hlast]
    exact reads_lastGroup (by omega) hsafe
  | succ k ih =>
    by_cases hlast : n / 128 = 0
    · rw [varint, if_pos hlast]
      exact reads_lastGroup (k := k + 1) (by omega) hsafe
    · have hsplit : n * scale = n % 128 * scale + n / 128 * (scale * 128) := by
        conv_lhs => rw [← Nat.mod_add_div n 128]
        ring
      have hlow : (UInt8.ofNat (n % 128 + 128)).toNat = n % 128 + 128 :=
        UInt8.toNat_ofNat_of_lt (show n % 128 + 128 < 256 by omega)
      have hmod : (n % 128 + 128) % 128 = n % 128 := by omega
      have hrest : Reads (getGroups (k + 1) (m + n % 128 * scale) (scale * 128) : WireReader γ ℕ)
          (varint (k + 1) (n / 128)) (m + n % 128 * scale + n / 128 * (scale * 128)) :=
        ih (by rw [Nat.pow_succ] at hn; omega) (by omega)
      rw [varint, if_neg hlast]
      refine reads_byte_bind ?_
      simp only [hlow, hmod, show ¬ n % 128 + 128 < 128 by omega, if_false]
      rwa [Nat.add_assoc, ← hsplit] at hrest

/-- **Natural numbers** are read back. -/
theorem reads_uint {n : ℕ} {out : List (Octet γ)} (h : putUint n = .ok out) :
    Reads getUint out n := by
  rw [putUint] at h
  split_ifs at h with hsafe
  cases h
  have hreads : Reads (getUint : WireReader γ ℕ) (varint 8 n) (0 + n * 1) :=
    reads_groups (by rw [MAX_SAFE_INTEGER] at hsafe; omega) (by omega)
  rwa [Nat.zero_add, Nat.mul_one] at hreads

theorem sends_uint {n : ℕ} (m : ℕ) : Sends n (putUint m : Except Failure (List (Octet γ))) getUint m :=
  fun _ h _ => reads_uint h

theorem writes_uint_iff {n : ℕ} :
    Writes (putUint n : Except Failure (List (Octet γ))) ↔ n ≤ MAX_SAFE_INTEGER := by
  rw [Writes, putUint]
  split_ifs with hsafe
  · simp [hsafe]
  · simp [hsafe]

/-! ### Texts -/

/-- A text: its code points. A surrogate among them is a lone one. -/
abbrev Text := List ℕ

/-- The text of a string. -/
def text (s : String) : Text := s.toList.map Char.toNat

/-- The byte order mark, which decoding drops. -/
def BOM : ℕ := 0xFEFF

/-- A text without a byte order mark in front. -/
def stripBom : Text → Text
  | [] => []
  | c :: cs => if c = BOM then cs else c :: cs

/-- The character that is encoded for a code point. A lone surrogate is replaced. -/
def scalar (c : ℕ) : Char := if h : c.isValidChar then Char.ofNatAux c h else Char.ofNat 0xFFFD

/-- The bytes of a text. -/
def utf8 (t : Text) : List UInt8 := (String.ofList (t.map scalar)).toByteArray.data.toList

/-- Decode the bytes of a text. -/
def decodeText (bs : List UInt8) : Except Failure Text :=
  match String.fromUTF8? ⟨bs.toArray⟩ with
  | some s => .ok (stripBom (text s))
  | none => .error (.error "The encoded data was not valid for encoding utf-8")

/-- What comes back of the bytes of a text. -/
def decodedText (t : Text) : Text := stripBom (t.map fun c => (scalar c).toNat)

theorem decodeText_utf8 (t : Text) : decodeText (utf8 t) = .ok (decodedText t) := by
  have hbytes : (⟨(utf8 t).toArray⟩ : ByteArray) = (String.ofList (t.map scalar)).toByteArray := by
    simp [utf8]
  rw [decodeText, hbytes, String.fromUTF8?, dif_pos (String.ofList (t.map scalar)).isValidUTF8]
  show Except.ok (stripBom (text (String.ofList (t.map scalar)))) = _
  rw [text, String.toList_ofList, List.map_map]
  rfl

/-- Write a text. -/
def putText (t : Text) : Except Failure (List (Octet γ)) :=
  andThen (putUint (utf8 t).length) (.ok ((utf8 t).map .byte))

/-- Read a text. -/
def getText : WireReader γ Text := do
  let bs ← many getByte (← getUint)
  liftM (decodeText bs)

/-- **Texts** are read back without a byte order mark, and with lone surrogates replaced. -/
theorem reads_text {t : Text} {out : List (Octet γ)} (h : putText t = .ok out) :
    Reads getText out (decodedText t) := by
  obtain ⟨size, bytes, hsize, hbytes, rfl⟩ := andThen_eq_ok h
  cases hbytes
  refine .bind (reads_uint hsize) ((reads_bytes _).bind_pure ?_)
  rw [decodeText_utf8]
  exact .pure _

theorem sends_text {n : ℕ} (t : Text) :
    Sends n (putText t : Except Failure (List (Octet γ))) getText (decodedText t) :=
  fun _ h _ => reads_text h

theorem writes_text_iff {t : Text} :
    Writes (putText t : Except Failure (List (Octet γ))) ↔ (utf8 t).length ≤ MAX_SAFE_INTEGER := by
  rw [putText, writes_andThen_iff, writes_uint_iff]
  exact and_iff_left ⟨_, rfl⟩

end SalRuntime
