import SalRuntime.Wire.Messages

/-!
# What survives the wire in a message

A message comes back as the framing intends if its parts survive the wire. A value comes back as it was
if, besides, no id is left out of it. The values that do not are those with a part that does not
survive, and the deltas that the framing shortens.

## Main definitions

* `Message.framed` — a message without the ids that the framing leaves out.
* `codableMessage` — the messages that come back so.
* `ComesBack`, `codableWire` — the values that come back as they were.

## Main results

* `framed_iff` — the codable messages come back as framed.
* `comesBack_iff` — the codable values come back as they were.
-/

namespace SalRuntime

variable {γ : Type}

/-! ### Objects -/

namespace Value

theorem field_eq_of_mem {fields : List (Text × Value γ)} (hnodup : (fields.map Prod.fst).Nodup)
    {k : String} {v : Value γ} (h : (text k, v) ∈ fields) : (Value.obj fields).field k = v := by
  have hfind : fields.find? (fun e => e.1 = text k) = some (text k, v) := by
    induction fields with
    | nil => cases h
    | cons e fields ih =>
      rw [List.map_cons, List.nodup_cons] at hnodup
      rcases List.mem_cons.mp h with rfl | h
      · simp
      · have hne : e.1 ≠ text k := fun heq =>
          hnodup.1 (heq ▸ List.mem_map_of_mem (f := Prod.fst) h)
        rw [List.find?_cons_of_neg (by simpa using hne)]
        exact ih hnodup.2 h
  rw [field, hfind]
  rfl

theorem keys_object (fields : List (String × Value γ)) :
    (object fields).keys = (fields.map Prod.fst).map text := by
  simp [object, keys]

/-- An object is determined by its keys and its fields. -/
theorem eq_object {v : Value γ} {names : List String} (hne : names ≠ [])
    (hnodup : (names.map text).Nodup) (hkeys : v.keys = names.map text) :
    v = .object (names.map fun k => (k, v.field k)) := by
  cases v with
  | obj fields =>
    have hkeys : fields.map Prod.fst = names.map text := hkeys
    rw [object, List.map_map, Value.obj.injEq]
    refine List.ext_getElem ?_ fun i hi hi' => ?_
    · have hlen := congrArg List.length hkeys
      simpa using hlen
    · have hi₂ : i < names.length := by simpa using hi'
      have hkey : fields[i].1 = text names[i] := by
        have hget : (fields.map Prod.fst)[i]? = (names.map text)[i]? := by rw [hkeys]
        have hi₁ : i < fields.length := by simpa using hi
        simpa [List.getElem?_map, List.getElem?_eq_getElem hi₁, List.getElem?_eq_getElem hi₂]
          using hget
      have hmem : (text names[i], fields[i].2) ∈ fields := hkey ▸ List.getElem_mem hi
      rw [List.getElem_map, Function.comp_apply, field_eq_of_mem (hkeys ▸ hnodup) hmem, ← hkey]
  | null => exact absurd (List.map_eq_nil_iff.mp hkeys.symm) hne
  | undefined => exact absurd (List.map_eq_nil_iff.mp hkeys.symm) hne
  | bool b => exact absurd (List.map_eq_nil_iff.mp hkeys.symm) hne
  | num x => exact absurd (List.map_eq_nil_iff.mp hkeys.symm) hne
  | str t => exact absurd (List.map_eq_nil_iff.mp hkeys.symm) hne
  | hash g => exact absurd (List.map_eq_nil_iff.mp hkeys.symm) hne
  | arr items => exact absurd (List.map_eq_nil_iff.mp hkeys.symm) hne

theorem isText_iff {v : Value γ} {s : String} : v.isText s = true ↔ v = .str (text s) := by
  cases v <;> simp [isText]

end Value

/-! ### Payloads and bodies -/

/-- The payload survives the wire. -/
def codablePayload (p : Value γ) : Bool :=
  if p.hasShape "ins" ["type", "id", "el", "anchorId"] then
    decide (p.keys = ["anchorId", "el", "id", "type"].map text) &&
      (codable (p.field "id") && (codable (p.field "el") && codable (p.field "anchorId")))
  else if p.hasShape "del" ["type", "id"] then
    decide (p.keys = ["id", "type"].map text) && codable (p.field "id")
  else codable p

/-- What a commit carries survives the wire. -/
def codableBody : RawBody γ → Bool
  | .op _ replica seq payload =>
    codable replica && (decide (seq ≤ MAX_SAFE_INTEGER) && codablePayload payload)
  | .bare => true
  | .merge => true
  | .compact cut state => codable cut && codable state
  | .base epoch fp roster proof state =>
    codable epoch && (codable fp && (codable roster && (codable proof && codable state)))

section Codable

variable {dict : List Text} (hdict : Usable dict)

include hdict

theorem codablePayload_iff {p : Value γ} :
    (Writes (putPayload dict p) ∧ decodedPayload p = p) ↔ codablePayload p = true := by
  rw [putPayload, decodedPayload, codablePayload]
  split_ifs with hins hdel
  · rw [Value.hasShape, Bool.and_eq_true, Value.isText_iff] at hins
    rw [writes_tagged_iff, writes_andThen_iff, writes_andThen_iff, Bool.and_eq_true, Bool.and_eq_true,
      Bool.and_eq_true, decide_eq_true_eq, ← survives_iff hdict, ← survives_iff hdict,
      ← survives_iff hdict, Survives, Survives, Survives]
    constructor
    · rintro ⟨⟨hid, hel, hanchor⟩, heq⟩
      have hfield (k : String) := congrArg (Value.field k) heq
      refine ⟨?_, ⟨hid, ?_⟩, ⟨hel, ?_⟩, hanchor, ?_⟩
      · rw [← heq, Value.keys_object]
        rfl
      · simpa [Value.object, Value.field, text] using hfield "id"
      · simpa [Value.object, Value.field, text] using hfield "el"
      · simpa [Value.object, Value.field, text] using hfield "anchorId"
    · rintro ⟨hkeys, ⟨hid, hid'⟩, ⟨hel, hel'⟩, hanchor, hanchor'⟩
      refine ⟨⟨hid, hel, hanchor⟩, ?_⟩
      rw [hid', hel', hanchor']
      have hobject := Value.eq_object (by decide) (by decide) hkeys
      rw [List.map_cons, List.map_cons, List.map_cons, List.map_cons, List.map_nil, hins.1] at hobject
      exact hobject.symm
  · rw [Value.hasShape, Bool.and_eq_true, Value.isText_iff] at hdel
    rw [writes_tagged_iff, Bool.and_eq_true, decide_eq_true_eq, ← survives_iff hdict, Survives]
    constructor
    · rintro ⟨hid, heq⟩
      have hfield := congrArg (Value.field "id") heq
      refine ⟨?_, hid, ?_⟩
      · rw [← heq, Value.keys_object]
        rfl
      · simpa [Value.object, Value.field, text] using hfield
    · rintro ⟨hkeys, hid, hid'⟩
      refine ⟨hid, ?_⟩
      rw [hid']
      have hobject := Value.eq_object (by decide) (by decide) hkeys
      rw [List.map_cons, List.map_cons, List.map_nil, hdel.1] at hobject
      exact hobject.symm
  · rw [writes_tagged_iff]
    exact survives_iff hdict p

theorem codableBody_iff {b : RawBody γ} :
    (Writes (putBody dict b) ∧ b.decoded = b) ↔ codableBody b = true := by
  cases b with
  | op legacy replica seq payload =>
    rw [putBody, writes_tagged_iff, writes_andThen_iff, writes_andThen_iff, writes_uint_iff,
      RawBody.decoded, RawBody.op.injEq, codableBody, Bool.and_eq_true, Bool.and_eq_true,
      decide_eq_true_eq, ← survives_iff hdict, ← codablePayload_iff hdict, Survives]
    constructor
    · rintro ⟨⟨hr, hseq, hp⟩, -, hr', -, hp'⟩
      exact ⟨⟨hr, hr'⟩, hseq, hp, hp'⟩
    · rintro ⟨⟨hr, hr'⟩, hseq, hp, hp'⟩
      exact ⟨⟨hr, hseq, hp⟩, rfl, hr', rfl, hp'⟩
  | bare => exact iff_of_true ⟨⟨_, rfl⟩, rfl⟩ rfl
  | merge => exact iff_of_true ⟨⟨_, rfl⟩, rfl⟩ rfl
  | compact cut state =>
    rw [putBody, writes_tagged_iff, writes_andThen_iff, RawBody.decoded, RawBody.compact.injEq,
      codableBody, Bool.and_eq_true, ← survives_iff hdict, ← survives_iff hdict, Survives, Survives]
    exact and_and_and_comm
  | base epoch fp roster proof state =>
    rw [putBody, writes_tagged_iff, writes_andThen_iff, writes_andThen_iff, writes_andThen_iff,
      writes_andThen_iff, RawBody.decoded, RawBody.base.injEq, codableBody, Bool.and_eq_true,
      Bool.and_eq_true, Bool.and_eq_true, Bool.and_eq_true, ← survives_iff hdict,
      ← survives_iff hdict, ← survives_iff hdict, ← survives_iff hdict, ← survives_iff hdict]
    constructor
    · rintro ⟨⟨h₁, h₂, h₃, h₄, h₅⟩, h₁', h₂', h₃', h₄', h₅'⟩
      exact ⟨⟨h₁, h₁'⟩, ⟨h₂, h₂'⟩, ⟨h₃, h₃'⟩, ⟨h₄, h₄'⟩, h₅, h₅'⟩
    · rintro ⟨⟨h₁, h₁'⟩, ⟨h₂, h₂'⟩, ⟨h₃, h₃'⟩, ⟨h₄, h₄'⟩, h₅, h₅'⟩
      exact ⟨⟨h₁, h₂, h₃, h₄, h₅⟩, h₁', h₂', h₃', h₄', h₅'⟩

end Codable

/-! ### Messages -/

section Message

variable [DecidableEq γ]

/-- Commits without the ids that the framing leaves out. `previous` is the id of the preceding commit,
and `previous'` what is left of it. -/
def framedFrom (previous previous' : Value γ) : List (RawCommit γ) → List (RawCommit γ)
  | [] => []
  | c :: rest =>
    let gid := if c.omitGid rest then .null else c.gid
    let parents := c.parents.map fun p => if p.identical previous then previous' else p
    ⟨gid, parents, c.body⟩ :: framedFrom c.gid gid rest

/-- A message without the ids that the framing leaves out. -/
def Message.framed : Message γ → Message γ
  | .delta commits => .delta (framedFrom .null .null commits)
  | .other v => .other v

/-- The commits survive the wire. `previous` is the id of the preceding commit. -/
def codableCommits (previous : Value γ) : List (RawCommit γ) → Bool
  | [] => true
  | c :: rest =>
    (c.omitGid rest || codable c.gid) && (decide (c.parents.length ≤ MAX_SAFE_INTEGER) &&
      (c.parents.all (fun p => p.identical previous || codable p) &&
        (codableBody c.body && codableCommits c.gid rest)))

/-- The message survives the wire. -/
def codableMessage (localeCompare : Text → Text → Bool) (m : Message γ) : Bool :=
  let dict := dictionary localeCompare m.value
  decide (dict.length ≤ MAX_SAFE_INTEGER) &&
    (dict.all (fun t => decide ((utf8 t).length ≤ MAX_SAFE_INTEGER)) &&
      (match m with
        | .delta commits =>
          decide (commits.length ≤ MAX_SAFE_INTEGER) && codableCommits .null commits
        | .other v => codable v))

section Commits

variable {dict : List Text} (hdict : Usable dict)

include hdict

omit [DecidableEq γ] in
theorem codable_unless_iff (omitted : Bool) (v w : Value γ) :
    (Writes (putUnless dict omitted v) ∧
      (if omitted then w else decoded v) = (if omitted then w else v)) ↔
      (omitted || codable v) = true := by
  cases omitted with
  | true => exact iff_of_true ⟨⟨_, rfl⟩, rfl⟩ rfl
  | false =>
    rw [Bool.false_or, ← survives_iff hdict, Survives, putUnless, if_neg Bool.false_ne_true,
      writes_tagged_iff, if_neg Bool.false_ne_true, if_neg Bool.false_ne_true]

theorem codable_parents_iff (previous previous' : Value γ) (parents : List (Value γ)) :
    (Writes (putAll (fun p => putUnless dict (p.identical previous) p) parents) ∧
      (parents.map fun p => if p.identical previous then previous' else decoded p) =
        parents.map fun p => if p.identical previous then previous' else p) ↔
      parents.all (fun p => p.identical previous || codable p) = true := by
  rw [writes_putAll_iff, List.map_inj_left, List.all_eq_true, ← forall₂_and]
  exact forall₂_congr fun p _ => codable_unless_iff hdict (p.identical previous) p previous'

theorem codableCommits_iff (previous previous' : Value γ) (commits : List (RawCommit γ)) :
    (Writes (putCommits dict previous commits) ∧
      decodedFrom previous previous' commits = framedFrom previous previous' commits) ↔
      codableCommits previous commits = true := by
  induction commits generalizing previous previous' with
  | nil => exact iff_of_true ⟨⟨_, rfl⟩, rfl⟩ rfl
  | cons c rest ih =>
    rw [putCommits, writes_andThen_iff, putCommit, writes_andThen_iff, writes_andThen_iff,
      writes_andThen_iff, writes_uint_iff, decodedFrom, framedFrom, List.cons.injEq,
      RawCommit.mk.injEq, codableCommits, Bool.and_eq_true, Bool.and_eq_true, Bool.and_eq_true,
      Bool.and_eq_true, decide_eq_true_eq, ← codable_unless_iff hdict _ c.gid .null,
      ← codable_parents_iff hdict previous previous', ← codableBody_iff hdict]
    constructor
    · rintro ⟨⟨⟨hgid, hlen, hparents, hbody⟩, hrest⟩, ⟨hgid', hparents', hbody'⟩, hrest'⟩
      rw [hgid'] at hrest'
      exact ⟨⟨hgid, hgid'⟩, hlen, ⟨hparents, hparents'⟩, ⟨hbody, hbody'⟩, (ih _ _).mp ⟨hrest, hrest'⟩⟩
    · rintro ⟨⟨hgid, hgid'⟩, hlen, ⟨hparents, hparents'⟩, ⟨hbody, hbody'⟩, hcodable⟩
      obtain ⟨hrest, hrest'⟩ := (ih c.gid (if c.omitGid rest then .null else c.gid)).mpr hcodable
      refine ⟨⟨⟨hgid, hlen, hparents, hbody⟩, hrest⟩, ⟨hgid', hparents', hbody'⟩, ?_⟩
      rw [hgid']
      exact hrest'

end Commits

variable {localeCompare : Text → Text → Bool} {m : Message γ}

/-- The messages that are encoded. -/
theorem writes_encodeMessage_iff : Writes (encodeMessage localeCompare m) ↔
    Usable (dictionary localeCompare m.value) ∧
      Writes (putMessage (dictionary localeCompare m.value) m) := by
  constructor
  · rintro ⟨out, h⟩
    obtain ⟨hdict, -, -, body, -, -, hbody, -⟩ := encodeMessage_eq_ok h
    exact ⟨hdict, body, hbody⟩
  · rintro ⟨hdict, hbody⟩
    rw [encodeMessage, writes_andThen_iff, writes_andThen_iff, writes_andThen_iff, writes_uint_iff,
      writes_putAll_iff]
    exact ⟨⟨_, rfl⟩, ⟨hdict.length, fun t ht => writes_text_iff.mpr (hdict.text t ht)⟩, hbody⟩

omit [DecidableEq γ] in
theorem usable_iff {v : Value γ} : Usable (dictionary localeCompare v) ↔
    (dictionary localeCompare v).length ≤ MAX_SAFE_INTEGER ∧
      ∀ t ∈ dictionary localeCompare v, (utf8 t).length ≤ MAX_SAFE_INTEGER :=
  ⟨fun h => ⟨h.length, h.text⟩, fun h => ⟨h.1, fun _ ht => (of_mem_dictionary ht).1,
    fun _ ht => (of_mem_dictionary ht).2, h.2⟩⟩

/-- **What comes back of a message** is the message as framed exactly when its parts survive. -/
theorem framed_iff : (∃ out, encodeMessage localeCompare m = .ok out ∧
    decodeMessage out = .ok m.framed) ↔ codableMessage localeCompare m = true := by
  have hback : (∃ out, encodeMessage localeCompare m = .ok out ∧ decodeMessage out = .ok m.framed) ↔
      Writes (encodeMessage localeCompare m) ∧ m.decoded = m.framed := by
    constructor
    · rintro ⟨out, hout, hback⟩
      rw [decodeMessage_of_encodeMessage hout, Except.ok.injEq] at hback
      exact ⟨⟨out, hout⟩, hback⟩
    · rintro ⟨⟨out, hout⟩, hback⟩
      exact ⟨out, hout, by rw [decodeMessage_of_encodeMessage hout, hback]⟩
  rw [hback, writes_encodeMessage_iff]
  unfold codableMessage
  simp only [Bool.and_eq_true, decide_eq_true_eq, List.all_eq_true]
  rw [← and_assoc (a := _ ≤ _), ← usable_iff, and_assoc]
  refine and_congr_right fun hdict => ?_
  cases m with
  | delta commits =>
    dsimp only
    rw [putMessage, writes_andThen_iff, writes_uint_iff, Message.decoded, Message.framed,
      Message.delta.injEq, Bool.and_eq_true, decide_eq_true_eq, ← codableCommits_iff hdict .null .null]
    exact and_assoc
  | other v =>
    rw [putMessage, Message.decoded, Message.framed, Message.other.injEq]
    exact survives_iff hdict v

/-! ### Values -/

omit [DecidableEq γ] in
theorem ofValue?_value (c : RawCommit γ) : RawCommit.ofValue? c.value = some c := by
  obtain ⟨gid, parents, body⟩ := c
  cases body with
  | op legacy replica seq payload =>
    cases legacy <;> simp [RawCommit.value, Value.object, RawCommit.ofValue?, RawBody.ofOp?,
      Value.isText, text]
  | bare => simp [RawCommit.value, Value.object, RawCommit.ofValue?, RawBody.ofOp?]
  | merge => simp [RawCommit.value, Value.object, RawCommit.ofValue?, Value.isText]
  | compact cut state => simp [RawCommit.value, Value.object, RawCommit.ofValue?, Value.isText]
  | base epoch fp roster proof state =>
    simp [RawCommit.value, Value.object, RawCommit.ofValue?, Value.isText]

omit [DecidableEq γ] in
theorem value_injective : Function.Injective (RawCommit.value : RawCommit γ → Value γ) := fun c c' h =>
  Option.some.inj ((ofValue?_value c).symm.trans ((congrArg RawCommit.ofValue? h).trans
    (ofValue?_value c')))

omit [DecidableEq γ] in
theorem of_ofOp? {legacy : Bool} {op payload : Value γ} {b : RawBody γ}
    (h : RawBody.ofOp? legacy op payload = some b) :
    b = .bare ∧ legacy = true ∧ op = .null ∧ payload = .null ∨
      ∃ replica seq, b = .op legacy replica seq payload ∧
        op = .object [("replica", replica), ("seq", .num (.int seq))] := by
  unfold RawBody.ofOp? at h
  split at h
  · split_ifs at h with hlegacy
    cases h
    exact Or.inl ⟨rfl, hlegacy, rfl, rfl⟩
  · rename_i k replica k' seq
    split_ifs at h with hkeys
    cases h
    obtain ⟨hkeys, hseq⟩ := hkeys
    simp only [List.map_cons, List.map_nil, List.cons.injEq, and_true] at hkeys
    refine Or.inr ⟨replica, seq.toNat, rfl, ?_⟩
    simp [Value.object, hkeys.1, hkeys.2, hseq]
  · cases h

omit [DecidableEq γ] in
theorem value_of_ofValue? {v : Value γ} {c : RawCommit γ} (h : RawCommit.ofValue? v = some c) :
    c.value = v := by
  unfold RawCommit.ofValue? at h
  split at h
  · split_ifs at h with hkeys
    cases h
    obtain ⟨hkeys, hkind⟩ := hkeys
    simp only [List.map_cons, List.map_nil, List.cons.injEq, and_true] at hkeys
    simp [RawCommit.value, Value.object, hkeys, Value.isText_iff.mp hkind]
  · split_ifs at h with hkeys
    simp only [List.map_cons, List.map_nil, List.cons.injEq, and_true] at hkeys
    obtain ⟨b, hb, rfl⟩ := Option.map_eq_some_iff.mp h
    rcases of_ofOp? hb with ⟨rfl, -, rfl, rfl⟩ | ⟨replica, seq, rfl, rfl⟩
    · simp [RawCommit.value, Value.object, hkeys]
    · simp [RawCommit.value, Value.object, hkeys]
  · split_ifs at h with hkeys hkeys'
    · cases h
      obtain ⟨hkeys, hkind⟩ := hkeys
      simp only [List.map_cons, List.map_nil, List.cons.injEq, and_true] at hkeys
      simp [RawCommit.value, Value.object, hkeys, Value.isText_iff.mp hkind]
    · obtain ⟨hnames, hkind⟩ := hkeys'
      simp only [List.map_cons, List.map_nil, List.cons.injEq, and_true] at hnames
      obtain ⟨b, hb, rfl⟩ := Option.map_eq_some_iff.mp h
      rcases of_ofOp? hb with ⟨-, hlegacy, -⟩ | ⟨replica, seq, rfl, rfl⟩
      · cases hlegacy
      · simp [RawCommit.value, Value.object, hnames, Value.isText_iff.mp hkind]
  · split_ifs at h with hkeys
    cases h
    obtain ⟨hkeys, hkind⟩ := hkeys
    simp only [List.map_cons, List.map_nil, List.cons.injEq, and_true] at hkeys
    simp [RawCommit.value, Value.object, hkeys, Value.isText_iff.mp hkind]
  · cases h

omit [DecidableEq γ] in
theorem map_value_of_mapM {items : List (Value γ)} {commits : List (RawCommit γ)}
    (h : items.mapM RawCommit.ofValue? = some commits) : commits.map RawCommit.value = items := by
  induction items generalizing commits with
  | nil =>
    cases h
    rfl
  | cons v items ih =>
    rw [List.mapM_cons] at h
    obtain ⟨c, hc, h⟩ := Option.bind_eq_some_iff.mp h
    obtain ⟨rest, hrest, h⟩ := Option.bind_eq_some_iff.mp h
    cases h
    rw [List.map_cons, value_of_ofValue? hc, ih hrest]

omit [DecidableEq γ] in
theorem value_of_toDelta? {v : Value γ} {commits : List (RawCommit γ)}
    (h : toDelta? v = some commits) : (Message.delta commits).value = v := by
  unfold toDelta? at h
  split at h
  · split_ifs at h with hkeys
    obtain ⟨hkeys, htype⟩ := hkeys
    simp only [List.map_cons, List.map_nil, List.cons.injEq, and_true] at hkeys
    simp [Message.value, Value.object, hkeys, Value.isText_iff.mp htype, map_value_of_mapM h]
  · cases h

omit [DecidableEq γ] in
theorem value_of_toMessage {v : Value γ} (h : toMessage v = .ok m) : m.value = v := by
  rw [toMessage] at h
  split_ifs at h with hdelta
  · split at h
    · rename_i commits hcommits
      cases h
      exact value_of_toDelta? hcommits
    · cases h
  · cases h
    rfl

/-- The ids that are left out of the commits are `null` in any case. -/
def spelled : List (RawCommit γ) → Bool
  | [] => true
  | c :: rest => (!c.omitGid rest || c.gid.identical .null) && spelled rest

theorem framedFrom_eq_iff {previous : Value γ} {commits : List (RawCommit γ)} :
    framedFrom previous previous commits = commits ↔ spelled commits = true := by
  induction commits generalizing previous with
  | nil => exact iff_of_true rfl rfl
  | cons c rest ih =>
    obtain ⟨gid, parents, body⟩ := c
    have hparents : (parents.map fun p => if p.identical previous then previous else p) = parents := by
      refine List.map_id'' (fun p => ?_) parents
      split_ifs with heq
      · exact (Value.eq_of_identical heq).symm
      · rfl
    rw [framedFrom, spelled, Bool.and_eq_true, ← @ih gid]
    dsimp only
    rw [hparents]
    cases homit : RawCommit.omitGid ⟨gid, parents, body⟩ rest with
    | false => simp
    | true =>
      simp only [if_true, Bool.not_true, Bool.false_or, List.cons.injEq, RawCommit.mk.injEq, and_true]
      constructor
      · rintro ⟨rfl, hrest⟩
        exact ⟨rfl, hrest⟩
      · rintro ⟨hnull, hrest⟩
        obtain rfl := Value.eq_of_identical hnull
        exact ⟨rfl, hrest⟩

/-- Nothing is left out of the message. -/
def Message.spelled : Message γ → Bool
  | .delta commits => SalRuntime.spelled commits
  | .other _ => true

theorem Message.framed_eq_iff : m.framed = m ↔ m.spelled = true := by
  cases m with
  | delta commits => rw [Message.framed, Message.delta.injEq, framedFrom_eq_iff, Message.spelled]
  | other v => exact iff_of_true rfl rfl

theorem spelled_of_decodedFrom {previous : Value γ} {commits : List (RawCommit γ)}
    (h : decodedFrom previous previous commits = commits) : spelled commits = true := by
  induction commits generalizing previous with
  | nil => rfl
  | cons c rest ih =>
    obtain ⟨gid, parents, body⟩ := c
    rw [decodedFrom] at h
    simp only [List.cons.injEq, RawCommit.mk.injEq] at h
    obtain ⟨⟨hgid, -⟩, hrest⟩ := h
    rw [hgid] at hrest
    rw [spelled, Bool.and_eq_true]
    refine ⟨?_, ih hrest⟩
    cases homit : RawCommit.omitGid ⟨gid, parents, body⟩ rest with
    | false => rfl
    | true =>
      rw [homit, if_pos rfl] at hgid
      subst hgid
      rfl

/-- **What comes back of a message** is the message exactly when its parts survive and nothing is left
out. -/
theorem decodeMessage_eq_iff : (∃ out, encodeMessage localeCompare m = .ok out ∧
    decodeMessage out = .ok m) ↔ codableMessage localeCompare m = true ∧ m.spelled = true := by
  rw [← framed_iff]
  constructor
  · rintro ⟨out, hout, hback⟩
    have hspelled : m.spelled = true := by
      rw [decodeMessage_of_encodeMessage hout, Except.ok.injEq] at hback
      cases m with
      | delta commits => exact spelled_of_decodedFrom (Message.delta.inj hback)
      | other v => rfl
    exact ⟨⟨out, hout, by rwa [Message.framed_eq_iff.mpr hspelled]⟩, hspelled⟩
  · rintro ⟨⟨out, hout, hback⟩, hspelled⟩
    exact ⟨out, hout, by rwa [Message.framed_eq_iff.mpr hspelled] at hback⟩

/-- The value is encoded, and comes back as it was. -/
def ComesBack (localeCompare : Text → Text → Bool) (v : Value γ) : Prop :=
  ∃ out, encodeWire localeCompare v = .ok out ∧ decodeWire out = .ok v

/-- The value survives the wire: it is no delta and its parts survive, or it is a delta of the form that
is read back, its parts survive, and the framing leaves nothing out of it. -/
def codableWire (localeCompare : Text → Text → Bool) (v : Value γ) : Bool :=
  match toMessage v with
  | .ok m => codableMessage localeCompare m && m.spelled
  | .error _ => false

theorem Message.value_decoded_eq_iff : m.decoded.value = m.value ↔ m.decoded = m := by
  refine ⟨fun h => ?_, fun h => congrArg Message.value h⟩
  cases m with
  | delta commits =>
    simp only [Message.decoded, Message.value, Value.object, List.map_cons, List.map_nil,
      Value.obj.injEq, List.cons.injEq, Prod.mk.injEq, Value.arr.injEq, true_and, and_true] at h
    rw [Message.decoded, List.map_injective_iff.mpr value_injective h]
  | other v => exact congrArg Message.other h

/-- What comes back of a value that is no delta. -/
theorem ComesBack.decoded_eq {v : Value γ} (h : ComesBack localeCompare v) (hdelta : isDelta v = false) :
    SalRuntime.decoded v = v := by
  obtain ⟨out, hout, hback⟩ := h
  have hm : toMessage v = .ok (.other v) := by
    rw [toMessage, hdelta, if_neg Bool.false_ne_true]
  rw [encodeWire, hm] at hout
  have hout : encodeMessage localeCompare (.other v) = .ok out := hout
  rw [decodeWire, decodeMessage_of_encodeMessage hout] at hback
  exact Except.ok.inj hback

end Message

end SalRuntime
