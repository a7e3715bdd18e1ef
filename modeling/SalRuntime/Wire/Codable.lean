import Mathlib.Algebra.Order.BigOperators.Group.List
import SalRuntime.Wire.Value

/-!
# What survives the wire

A value comes back from the wire as it was unless it has a part that cannot be encoded or that comes
back changed: an integer whose double is not a safe integer, a text that looks like the name of a local
commit but is not written canonically, a text that starts with a byte order mark, or a field named
`__proto__`.

## Main definitions

* `codable` — the values without such parts.

## Main results

* `codable_iff` — they are the ones that are encoded and come back as they were.
-/

namespace SalRuntime

variable {γ : Type} {dict : List Text}

/-- The text has no lone surrogate. -/
def wellFormed (t : Text) : Bool := t.all fun c => decide c.isValidChar

/-- The text survives the wire. -/
def codableString (t : Text) : Bool :=
  if isHash t then true
  else if isLocal t then
    decide (localNumber t ≤ MAX_SAFE_INTEGER) && decide (localName (localNumber t) = t)
  else decide ((utf8 t).length ≤ MAX_SAFE_INTEGER) && (wellFormed t && decide (t.head? ≠ some BOM))

/-- The number survives the wire. -/
def codableNumber : Number → Bool
  | .int v => decide (v.natAbs ≤ MAX_SAFE_INTEGER → zigzag v ≤ MAX_SAFE_INTEGER)
  | .fractional _ => true

mutual

/-- The value survives the wire. -/
def codable : Value γ → Bool
  | .null => true
  | .undefined => false
  | .bool _ => true
  | .num x => codableNumber x
  | .str t => codableString t
  | .hash _ => true
  | .arr items => decide (items.length ≤ MAX_SAFE_INTEGER) && codableItems items
  | .obj fields =>
    decide (fields.length ≤ MAX_SAFE_INTEGER) &&
      (decide (fields.Pairwise fun a b => a.1 < b.1) && codableFields fields)

/-- The items survive the wire. -/
def codableItems : List (Value γ) → Bool
  | [] => true
  | v :: vs => codable v && codableItems vs

/-- The fields survive the wire. -/
def codableFields : List (Text × Value γ) → Bool
  | [] => true
  | (k, v) :: rest =>
    decide (k ≠ PROTO) && codableString k && (codable v && codableFields rest)

end

/-! ### Texts -/

/-- The name of a local commit is canonical. -/
theorem localNumber_localName (n : ℕ) :
    isLocal (localName n) = true ∧ localNumber (localName n) = n := by
  have hname : localName n = 99 :: (Nat.toDigits 10 n).map Char.toNat := by
    rw [localName, text, commitName]
    simp [toString, ← Nat.toList_repr]
  constructor
  · have hdigits : ((Nat.toDigits 10 n).map Char.toNat).all isDigit = true := by
      rw [List.all_map, List.all_eq_true]
      intro c hc
      have hdigit := Nat.isDigit_of_mem_toDigits (by omega) (by omega) hc
      simpa [isDigit, Char.isDigit, UInt32.le_iff_toNat_le] using hdigit
    simp [isLocal, hname, hdigits, Nat.toDigits_ne_nil]
  · have hdigits : Nat.ofDigitChars 10 (Nat.toDigits 10 n) 0 = n := Nat.ofDigitChars_ten_toDigits
    rw [Nat.ofDigitChars_eq_foldl] at hdigits
    rw [localNumber, hname, List.tail_cons, List.foldl_map]
    exact hdigits

theorem toNat_scalar {c : ℕ} (h : c.isValidChar) : (scalar c).toNat = c := by
  rw [scalar, dif_pos h]
  rfl

theorem toNat_scalar_of_not {c : ℕ} (h : ¬ c.isValidChar) : (scalar c).toNat = 0xFFFD := by
  rw [scalar, dif_neg h]
  rfl

theorem scalar_eq_iff {c : ℕ} : (scalar c).toNat = c ↔ c.isValidChar := by
  constructor
  · intro h
    exact h ▸ (scalar c).valid
  · exact toNat_scalar

/-- Replacing lone surrogates. -/
theorem map_scalar_eq_iff {t : Text} :
    (t.map fun c => (scalar c).toNat) = t ↔ wellFormed t = true := by
  rw [wellFormed, List.all_eq_true]
  induction t with
  | nil => simp
  | cons c t ih => simp [scalar_eq_iff, ih]

theorem wellFormed_map_scalar (t : Text) : wellFormed (t.map fun c => (scalar c).toNat) = true := by
  rw [wellFormed, List.all_map, List.all_eq_true]
  exact fun c _ => decide_eq_true (scalar c).valid

/-- A byte order mark in front is dropped, and lone surrogates are replaced. -/
theorem decodedText_eq_iff {t : Text} :
    decodedText t = t ↔ wellFormed t = true ∧ t.head? ≠ some BOM := by
  rw [decodedText, ← map_scalar_eq_iff]
  cases t with
  | nil => simp [stripBom]
  | cons c t =>
    rw [List.map_cons, stripBom, List.head?_cons, ne_eq, Option.some.injEq, List.cons.injEq]
    split_ifs with hbom
    · refine iff_of_false (fun heq => ?_) fun h => h.2 (h.1.1.symm.trans hbom)
      have hlen := congrArg List.length heq
      simp at hlen
    · rw [List.cons.injEq]
      exact ⟨fun h => ⟨h, fun hc => hbom (h.1.trans hc)⟩, fun h => h.1⟩

/-- How far a text is from what comes back. -/
def distance (t : Text) : ℕ :=
  if isHash t then 0
  else if isLocal t then if localName (localNumber t) = t then 0 else 1
  else 2 * t.length + if wellFormed t then 2 else 3

/-- **Texts that change** get closer to what comes back. -/
theorem distance_decodedString_lt {t : Text} (h : decodedString t ≠ t) :
    distance (decodedString t) < distance t := by
  rw [decodedString] at h ⊢
  split_ifs at h ⊢ with hhash hname
  · exact absurd rfl h
  · obtain ⟨hlocal, hnumber⟩ := localNumber_localName (localNumber t)
    have hzero : distance (localName (localNumber t)) = 0 := by
      rw [distance, hnumber, if_pos hlocal, if_pos rfl, ite_self]
    have hone : distance t = 1 := by rw [distance, if_neg hhash, if_pos hname, if_neg h]
    omega
  · have hlong : distance t = 2 * t.length + if wellFormed t then 2 else 3 := by
      rw [distance, if_neg hhash, if_neg hname]
    have hwf : wellFormed (decodedText t) = true := by
      have hall := wellFormed_map_scalar t
      rw [decodedText]
      cases t with
      | nil => rfl
      | cons c t =>
        rw [List.map_cons, stripBom]
        split_ifs
        · rw [List.map_cons, wellFormed, List.all_cons, Bool.and_eq_true] at hall
          exact hall.2
        · exact hall
    have hle : distance (decodedText t) ≤ 2 * (decodedText t).length + 2 := by
      rw [distance, if_pos hwf]
      split_ifs <;> omega
    -- A byte order mark is dropped, or a lone surrogate is replaced.
    have hshort : (decodedText t).length + 1 ≤ t.length ∨
        (decodedText t).length = t.length ∧ wellFormed t = false := by
      rw [ne_eq, decodedText_eq_iff, not_and_or, not_not] at h
      rw [decodedText]
      cases t with
      | nil => simp [wellFormed] at h
      | cons c t =>
        rw [List.map_cons, stripBom]
        split_ifs with hbom
        · simp
        · refine Or.inr ⟨by simp, ?_⟩
          rcases h with h | h
          · simpa using h
          · have hc : c = BOM := by simpa using h
            subst hc
            exact absurd (toNat_scalar (by decide)) hbom
    rcases hshort with hshort | ⟨hshort, hill⟩
    · split_ifs at hlong <;> omega
    · rw [hill] at hlong
      simp only [Bool.false_eq_true, if_false] at hlong
      omega

theorem codableString_iff (hdict : Usable dict) {t : Text} :
    (Writes (putString dict t : Except Failure (List (Octet γ))) ∧ decodedString t = t) ↔
      codableString t = true := by
  rw [putString, codableString, decodedString]
  cases hindex : dict.idxOf? t with
  | some i =>
    obtain ⟨hlt, hget, -⟩ := List.idxOf?_eq_some_iff.mp hindex
    have hmem : t ∈ dict := hget ▸ List.getElem_mem hlt
    rw [writes_tagged_iff, writes_uint_iff, hdict.hash t hmem, hdict.name t hmem]
    simp [hlt.le.trans hdict.length, decodedText_eq_iff, hdict.text t hmem]
  | none =>
    dsimp only
    split_ifs with hhash hname
    · exact iff_of_true ⟨⟨_, rfl⟩, rfl⟩ rfl
    · rw [writes_tagged_iff, writes_uint_iff]
      simp
    · rw [writes_tagged_iff, writes_text_iff, decodedText_eq_iff]
      simp

theorem codableNumber_iff {x : Number} :
    Writes (putNumber x : Except Failure (List (Octet γ))) ↔ codableNumber x = true := by
  cases x with
  | int v =>
    rw [putNumber, codableNumber]
    split_ifs with hsafe
    · rw [writes_tagged_iff, writes_uint_iff]
      simp [hsafe]
    · exact iff_of_true ⟨_, rfl⟩ (by simp [hsafe])
  | fractional bits => exact iff_of_true ⟨_, rfl⟩ rfl

/-! ### Objects -/

/-- Assigning to a field. -/
def assignField (o : List (Text × Value γ)) (e : Text × Value γ) : List (Text × Value γ) :=
  if e.1 = PROTO then o else SortedMap.insertEntry e.1 e.2 o

theorem assign_eq (fields : List (Text × Value γ)) :
    assign fields = fields.foldl assignField [] := rfl

/-- The fields of an assigned object are in order, and none is named `__proto__`. -/
theorem assigned {o : List (Text × Value γ)} (fields : List (Text × Value γ))
    (ho : (o.Pairwise fun a b => a.1 < b.1) ∧ ∀ e ∈ o, e.1 ≠ PROTO) :
    ((fields.foldl assignField o).Pairwise fun a b => a.1 < b.1) ∧
      ∀ e ∈ fields.foldl assignField o, e.1 ≠ PROTO := by
  induction fields generalizing o with
  | nil => exact ho
  | cons e fields ih =>
    refine ih ?_
    rw [assignField]
    split_ifs with hproto
    · exact ho
    · refine ⟨SortedMap.sorted_insertEntry e.1 e.2 ho.1, fun x hx => ?_⟩
      rcases SortedMap.mem_insertEntry hx with rfl | hx
      · exact hproto
      · exact ho.2 x hx

/-- Assigning fields in order keeps them. -/
theorem foldl_assignField {o fields : List (Text × Value γ)}
    (h : (o ++ fields).Pairwise fun a b => a.1 < b.1) (hproto : ∀ e ∈ fields, e.1 ≠ PROTO) :
    fields.foldl assignField o = o ++ fields := by
  induction fields generalizing o with
  | nil => simp
  | cons e fields ih =>
    rw [List.forall_mem_cons] at hproto
    have hlt : ∀ x ∈ o, x.1 < e.1 := fun x hx =>
      (List.pairwise_append.mp h).2.2 x hx e List.mem_cons_self
    rw [List.foldl_cons, assignField, if_neg hproto.1, SortedMap.insertEntry_of_lt hlt,
      ih (by rwa [List.append_assoc]) hproto.2, List.append_assoc]
    rfl

/-- Assigning adds at most one field each time, and if it always adds one then it keeps the fields. -/
theorem perm_foldl_assignField (o fields : List (Text × Value γ)) :
    (fields.foldl assignField o).length ≤ o.length + fields.length ∧
      ((fields.foldl assignField o).length = o.length + fields.length →
        (fields.foldl assignField o).Perm (o ++ fields)) := by
  induction fields generalizing o with
  | nil => simp
  | cons e fields ih =>
    obtain ⟨hle, hperm⟩ := ih (assignField o e)
    have hone : (assignField o e).length ≤ o.length + 1 := by
      rw [assignField]
      split_ifs
      · exact Nat.le_succ _
      · exact SortedMap.length_insertEntry_le ..
    rw [List.foldl_cons, List.length_cons]
    refine ⟨by omega, fun heq => ?_⟩
    have hlen : (assignField o e).length = o.length + 1 := by omega
    refine (hperm (by omega)).trans ?_
    have hadded : (assignField o e).Perm (e :: o) := by
      rw [assignField] at hlen ⊢
      split_ifs at hlen ⊢
      · omega
      · exact SortedMap.perm_insertEntry hlen
    exact (hadded.append_right fields).trans (List.perm_middle.symm)

theorem decodedFields_eq (fields : List (Text × Value γ)) :
    decodedFields fields = fields.map fun e => (decodedString e.1, decoded e.2) := by
  induction fields with
  | nil => rfl
  | cons e fields ih =>
    rw [decodedFields, ih]
    rfl

/-- **An object comes back** if its fields do, are in order, and none is named `__proto__`. -/
theorem assign_decodedFields_iff {fields : List (Text × Value γ)} :
    assign (decodedFields fields) = fields ↔ (fields.Pairwise fun a b => a.1 < b.1) ∧
      (∀ e ∈ fields, e.1 ≠ PROTO) ∧ decodedFields fields = fields := by
  constructor
  · intro h
    obtain ⟨hsorted, hproto⟩ := assigned (o := []) (decodedFields fields) (by simp)
    rw [← assign_eq, h] at hsorted hproto
    have hlen : (decodedFields fields).length = fields.length := by
      rw [decodedFields_eq, List.length_map]
    have hperm : fields.Perm (decodedFields fields) := by
      have := (perm_foldl_assignField [] (decodedFields fields)).2
      rw [← assign_eq, h] at this
      simpa using this (by simp [hlen])
    -- The keys are permuted, and those that change get closer to what comes back.
    have hkeys : ∀ e ∈ fields, decodedString e.1 = e.1 := by
      by_contra! hchanged
      obtain ⟨e, he, hne⟩ := hchanged
      have hsum := (hperm.map fun e => distance e.1).sum_eq
      rw [decodedFields_eq, List.map_map] at hsum
      refine absurd hsum (List.sum_lt_sum _ _ (fun x _ => ?_) ⟨e, he, ?_⟩).ne'
      · by_cases hx : decodedString x.1 = x.1
        · exact (congrArg distance hx).le
        · exact (distance_decodedString_lt hx).le
      · exact distance_decodedString_lt hne
    refine ⟨hsorted, hproto, ?_⟩
    have hback : assign (decodedFields fields) = decodedFields fields := by
      rw [assign_eq]
      refine foldl_assignField ?_ ?_
      · rw [List.nil_append, decodedFields_eq, List.pairwise_map]
        exact hsorted.imp_of_mem fun ha hb hlt => by rwa [hkeys _ ha, hkeys _ hb]
      · intro e he
        rw [decodedFields_eq] at he
        obtain ⟨x, hx, rfl⟩ := List.mem_map.mp he
        exact (hkeys x hx).symm ▸ hproto x hx
    rw [← hback, h]
  · rintro ⟨hsorted, hproto, heq⟩
    rw [heq, assign_eq]
    exact foldl_assignField hsorted hproto

/-! ### Values -/

/-- The value is encoded, and comes back as it was. -/
def Survives (dict : List Text) (v : Value γ) : Prop :=
  Writes (putValue dict v) ∧ decoded v = v

theorem survives_items_iff {items : List (Value γ)}
    (ih : ∀ v ∈ items, Survives dict v ↔ codable v = true) :
    (Writes (putItems dict items) ∧ decodedItems items = items) ↔ codableItems items = true := by
  induction items with
  | nil => exact iff_of_true ⟨⟨_, rfl⟩, rfl⟩ rfl
  | cons v items ih' =>
    rw [List.forall_mem_cons] at ih
    rw [putItems, writes_andThen_iff, decodedItems, List.cons.injEq, codableItems, Bool.and_eq_true,
      ← ih.1, ← ih' ih.2, Survives]
    exact and_and_and_comm

theorem survives_fields_iff (hdict : Usable dict) {fields : List (Text × Value γ)}
    (ih : ∀ e ∈ fields, Survives dict e.2 ↔ codable e.2 = true) :
    (Writes (putFields dict fields) ∧ (∀ e ∈ fields, e.1 ≠ PROTO) ∧
      decodedFields fields = fields) ↔ codableFields fields = true := by
  induction fields with
  | nil => exact iff_of_true ⟨⟨_, rfl⟩, by simp, rfl⟩ rfl
  | cons e fields ih' =>
    obtain ⟨k, v⟩ := e
    rw [List.forall_mem_cons] at ih
    rw [putFields, writes_andThen_iff, writes_andThen_iff, decodedFields, List.cons.injEq,
      Prod.mk.injEq, List.forall_mem_cons, codableFields, Bool.and_eq_true, Bool.and_eq_true,
      Bool.and_eq_true, ← ih.1, ← ih' ih.2, ← codableString_iff (γ := γ) hdict, Survives,
      decide_eq_true_eq]
    constructor
    · rintro ⟨⟨⟨hk, hv⟩, hrest⟩, ⟨hproto, hprotos⟩, ⟨hkey, hvalue⟩, hfields⟩
      exact ⟨⟨hproto, hk, hkey⟩, ⟨hv, hvalue⟩, hrest, hprotos, hfields⟩
    · rintro ⟨⟨hproto, hk, hkey⟩, ⟨hv, hvalue⟩, hrest, hprotos, hfields⟩
      exact ⟨⟨⟨hk, hv⟩, hrest⟩, ⟨hproto, hprotos⟩, ⟨hkey, hvalue⟩, hfields⟩

/-- **What survives the wire.** -/
theorem survives_iff (hdict : Usable dict) (v : Value γ) :
    Survives dict v ↔ codable v = true := by
  induction v using Value.ind with
  | null => exact iff_of_true ⟨⟨_, rfl⟩, rfl⟩ rfl
  | undefined =>
    refine iff_of_false ?_ Bool.false_ne_true
    rintro ⟨⟨_, h⟩, -⟩
    cases h
  | bool b =>
    refine iff_of_true ⟨?_, rfl⟩ rfl
    cases b with
    | false => exact ⟨_, rfl⟩
    | true => exact ⟨_, rfl⟩
  | num x =>
    rw [codable, ← codableNumber_iff (γ := γ)]
    exact and_iff_left rfl
  | str s =>
    rw [codable, ← codableString_iff (γ := γ) hdict, Survives, decoded, Value.str.injEq]
    exact Iff.rfl
  | hash g => exact iff_of_true ⟨⟨_, rfl⟩, rfl⟩ rfl
  | arr items ih =>
    rw [codable, Bool.and_eq_true, decide_eq_true_eq, ← survives_items_iff ih, Survives, putValue,
      writes_tagged_iff, writes_andThen_iff, writes_uint_iff, decoded, Value.arr.injEq]
    exact and_assoc
  | obj fields ih =>
    rw [codable, Bool.and_eq_true, Bool.and_eq_true, decide_eq_true_eq, decide_eq_true_eq,
      ← survives_fields_iff hdict ih, Survives, putValue, writes_tagged_iff, writes_andThen_iff,
      writes_uint_iff, decoded, Value.obj.injEq, assign_decodedFields_iff]
    constructor
    · rintro ⟨⟨hlen, hput⟩, hsorted, hproto, hfields⟩
      exact ⟨hlen, hsorted, hput, hproto, hfields⟩
    · rintro ⟨hlen, hsorted, hput, hproto, hfields⟩
      exact ⟨⟨hlen, hput⟩, hsorted, hproto, hfields⟩

end SalRuntime
