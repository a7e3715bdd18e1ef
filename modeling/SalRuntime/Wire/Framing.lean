import SalRuntime.Wire.Value

/-!
# Messages on the wire

The encoding of messages of `src/wire.js`: a header, a dictionary of the texts that occur more than
once, and a value or a delta. The framing of a delta leaves out the id of an operation commit whose id
its only child determines, and replaces the id of the preceding commit in a list of parents by a
back-reference.

## Main definitions

* `RawBody`, `RawCommit`, `Message` — messages as the codec sees them.
* `dictionary` — the texts that are sent once.
* `encodeMessage`, `decodeMessage` — the codec of messages.
* `encodeWire`, `decodeWire` — the codec, on values.
-/

namespace SalRuntime

variable {γ : Type}

/-! ### Messages -/

/-- What a commit carries besides its id and its parents, by its `kind`. -/
inductive RawBody (γ : Type)
  /-- An operation, also one of the older form that has no `kind`. -/
  | op (legacy : Bool) (replica : Value γ) (seq : ℕ) (payload : Value γ)
  /-- A commit of the older form without an operation. -/
  | bare
  /-- A merge. -/
  | merge
  /-- A compaction. -/
  | compact (cut state : Value γ)
  /-- A boundary of a collected history. -/
  | base (epoch fp roster proof state : Value γ)

/-- A commit of a delta. -/
structure RawCommit (γ : Type) where
  /-- The content id. -/
  gid : Value γ
  /-- The content ids of the parents. -/
  parents : List (Value γ)
  /-- The rest. -/
  body : RawBody γ

/-- A message. -/
inductive Message (γ : Type)
  /-- A delta. -/
  | delta (commits : List (RawCommit γ))
  /-- Any other message. -/
  | other (v : Value γ)

namespace Value

/-- The comparison `===`. Arrays and objects are compared by reference, so never equal here. -/
def identical [DecidableEq γ] : Value γ → Value γ → Bool
  | .null, .null => true
  | .undefined, .undefined => true
  | .bool b, .bool c => b = c
  | .num x, .num y => x = y
  | .str t, .str u => t = u
  | .hash g, .hash h => g = h
  | _, _ => false

theorem eq_of_identical [DecidableEq γ] {v w : Value γ} (h : v.identical w = true) : v = w := by
  cases v <;> cases w <;> simp_all [identical]

/-- The object with the given fields. -/
def object (fields : List (String × Value γ)) : Value γ :=
  .obj (fields.map fun e => (text e.1, e.2))

/-- The names of the fields. -/
def keys : Value γ → List Text
  | .obj fields => fields.map Prod.fst
  | _ => []

/-- A field. -/
def field (k : String) : Value γ → Value γ
  | .obj fields => ((fields.find? fun e => e.1 = text k).map Prod.snd).getD .undefined
  | _ => .undefined

/-- Is this the given text? -/
def isText (s : String) : Value γ → Bool
  | .str t => decide (t = text s)
  | _ => false

/-- Is this an object of the given type, without fields of other names? -/
def hasShape (type : String) (names : List String) (v : Value γ) : Bool :=
  (v.field "type").isText type && v.keys.all (· ∈ names.map text)

end Value

/-! ### Messages as values -/

/-- The commit as an object. -/
def RawCommit.value (c : RawCommit γ) : Value γ :=
  match c.body with
  | .op legacy replica seq payload =>
    let op : Value γ := .object [("replica", replica), ("seq", .num (.int seq))]
    if legacy then
      .object [("gid", c.gid), ("op", op), ("parents", .arr c.parents), ("payload", payload)]
    else
      .object [("gid", c.gid), ("kind", .str (text "op")), ("op", op), ("parents", .arr c.parents),
        ("payload", payload)]
  | .bare =>
    .object [("gid", c.gid), ("op", .null), ("parents", .arr c.parents), ("payload", .null)]
  | .merge =>
    .object [("gid", c.gid), ("kind", .str (text "merge")), ("parents", .arr c.parents)]
  | .compact cut state =>
    .object [("cut", cut), ("gid", c.gid), ("kind", .str (text "compact")),
      ("parents", .arr c.parents), ("state", state)]
  | .base epoch fp roster proof state =>
    .object [("epoch", epoch), ("fp", fp), ("gid", c.gid), ("kind", .str (text "base")),
      ("parents", .arr c.parents), ("proof", proof), ("roster", roster), ("state", state)]

/-- The message as a value. -/
def Message.value : Message γ → Value γ
  | .delta commits => .object [("c", .arr (commits.map RawCommit.value)), ("t", .str (text "delta"))]
  | .other v => v

/-- The operation and the payload of a commit, of the given age. -/
def RawBody.ofOp? (legacy : Bool) : Value γ → Value γ → Option (RawBody γ)
  | .null, .null => if legacy then some .bare else none
  | .obj [(k, replica), (k', .num (.int seq))], payload =>
    if [k, k'] = ["replica", "seq"].map text ∧ 0 ≤ seq then
      some (.op legacy replica seq.toNat payload)
    else none
  | _, _ => none

/-- The commit that a value is. -/
def RawCommit.ofValue? : Value γ → Option (RawCommit γ)
  | .obj [(k₁, gid), (k₂, kind), (k₃, .arr parents)] =>
    if [k₁, k₂, k₃] = ["gid", "kind", "parents"].map text ∧ kind.isText "merge" = true then
      some ⟨gid, parents, .merge⟩
    else none
  | .obj [(k₁, gid), (k₂, op), (k₃, .arr parents), (k₄, payload)] =>
    if [k₁, k₂, k₃, k₄] = ["gid", "op", "parents", "payload"].map text then
      (RawBody.ofOp? true op payload).map (⟨gid, parents, ·⟩)
    else none
  | .obj [(k₁, v₁), (k₂, v₂), (k₃, v₃), (k₄, .arr parents), (k₅, v₅)] =>
    if [k₁, k₂, k₃, k₄, k₅] = ["cut", "gid", "kind", "parents", "state"].map text ∧
        v₃.isText "compact" = true then some ⟨v₂, parents, .compact v₁ v₅⟩
    else if [k₁, k₂, k₃, k₄, k₅] = ["gid", "kind", "op", "parents", "payload"].map text ∧
        v₂.isText "op" = true then (RawBody.ofOp? false v₃ v₅).map (⟨v₁, parents, ·⟩)
    else none
  | .obj [(k₁, epoch), (k₂, fp), (k₃, gid), (k₄, kind), (k₅, .arr parents), (k₆, proof),
      (k₇, roster), (k₈, state)] =>
    if [k₁, k₂, k₃, k₄, k₅, k₆, k₇, k₈] =
        ["epoch", "fp", "gid", "kind", "parents", "proof", "roster", "state"].map text ∧
        kind.isText "base" = true then some ⟨gid, parents, .base epoch fp roster proof state⟩
    else none
  | _ => none

/-- Is the value a delta? -/
def isDelta (v : Value γ) : Bool :=
  (v.field "t").isText "delta" &&
    (match v.field "c" with
      | .arr _ => true
      | _ => false)

/-- The commits of a delta, if the value has no other parts. -/
def toDelta? : Value γ → Option (List (RawCommit γ))
  | .obj [(k, .arr items), (k', t)] =>
    if [k, k'] = ["c", "t"].map text ∧ t.isText "delta" = true then items.mapM RawCommit.ofValue?
    else none
  | _ => none

/-- The message that a value is. A delta with missing or other parts is refused. The code may write
one, but what it reads back has exactly the parts of a message. -/
def toMessage (v : Value γ) : Except Failure (Message γ) :=
  if isDelta v then
    match toDelta? v with
    | some commits => .ok (.delta commits)
    | none => .error (.error "malformed delta")
  else .ok (.other v)

/-! ### The dictionary -/

mutual

/-- The texts that occur in a value, field names included. Content ids are left out, since the
dictionary has none. -/
def stringsIn : Value γ → List Text
  | .str t => [t]
  | .arr items => stringsInItems items
  | .obj fields => stringsInFields fields
  | .null => []
  | .undefined => []
  | .bool _ => []
  | .num _ => []
  | .hash _ => []

/-- The texts that occur in items. -/
def stringsInItems : List (Value γ) → List Text
  | [] => []
  | v :: vs => stringsIn v ++ stringsInItems vs

/-- The texts that occur in fields. -/
def stringsInFields : List (Text × Value γ) → List Text
  | [] => []
  | (k, v) :: rest => k :: (stringsIn v ++ stringsInFields rest)

end

/-- The order of the dictionary: the texts that occur most often first, then by `localeCompare`. -/
def dictionaryOrder (localeCompare : Text → Text → Bool) (a b : Text × ℕ) : Prop :=
  b.2 < a.2 ∨ b.2 = a.2 ∧ localeCompare a.1 b.1 = true

instance instDecidableRelDictionaryOrder (localeCompare : Text → Text → Bool) :
    DecidableRel (dictionaryOrder localeCompare) :=
  fun _ _ => inferInstanceAs (Decidable (_ ∨ _))

/-- The texts that occur more than once. Those that look like a hash or like the name of a local
commit are left out. -/
def dictionary (localeCompare : Text → Text → Bool) (v : Value γ) : List Text :=
  let occurring := stringsIn v
  let counts := occurring.eraseDups.map fun t => (t, occurring.count t)
  let repeated := counts.filter fun e => decide (1 < e.2) && !isHash e.1 && !isLocal e.1
  (repeated.insertionSort (dictionaryOrder localeCompare)).map Prod.fst

theorem of_mem_dictionary {localeCompare : Text → Text → Bool} {v : Value γ} {t : Text}
    (h : t ∈ dictionary localeCompare v) : isHash t = false ∧ isLocal t = false := by
  obtain ⟨e, he, rfl⟩ := List.mem_map.mp h
  rw [List.mem_insertionSort, List.mem_filter] at he
  simp only [Bool.and_eq_true, Bool.not_eq_true'] at he
  exact ⟨he.2.1.2, he.2.2⟩

/-! ### The encoder -/

section Encoder

variable (dict : List Text)

/-- Encode a payload: insertions and deletions field by field, without the field names. -/
def putPayload (p : Value γ) : Except Failure (List (Octet γ)) :=
  if p.hasShape "ins" ["type", "id", "el", "anchorId"] then
    tagged (.byte 1) (andThen (putValue dict (p.field "id"))
      (andThen (putValue dict (p.field "el")) (putValue dict (p.field "anchorId"))))
  else if p.hasShape "del" ["type", "id"] then tagged (.byte 2) (putValue dict (p.field "id"))
  else tagged (.byte 0) (putValue dict p)

/-- Encode what a commit carries. -/
def putBody : RawBody γ → Except Failure (List (Octet γ))
  | .op legacy replica seq payload =>
    tagged (.byte (if legacy then 1 else 2))
      (andThen (putValue dict replica) (andThen (putUint seq) (putPayload dict payload)))
  | .bare => .ok [.byte 0]
  | .merge => .ok [.byte 3]
  | .compact cut state => tagged (.byte 4) (andThen (putValue dict cut) (putValue dict state))
  | .base epoch fp roster proof state =>
    tagged (.byte 5) (andThen (putValue dict epoch) (andThen (putValue dict fp)
      (andThen (putValue dict roster) (andThen (putValue dict proof) (putValue dict state)))))

/-- Encode a value, or mark it as left out. -/
def putUnless (omitted : Bool) (v : Value γ) : Except Failure (List (Octet γ)) :=
  if omitted then .ok [.byte 0] else tagged (.byte 1) (putValue dict v)

variable [DecidableEq γ]

/-- Is the id of a commit left out, given the next one? -/
def RawCommit.omitGid (c : RawCommit γ) : List (RawCommit γ) → Bool
  | [] => false
  | next :: _ =>
    (match c.body with
      | .op .. => true
      | _ => false) &&
    (match next.parents with
      | [p] => p.identical c.gid
      | _ => false)

/-- Encode a commit, given the id of the preceding one. -/
def putCommit (previous : Value γ) (c : RawCommit γ) (omitted : Bool) :
    Except Failure (List (Octet γ)) :=
  andThen (putUnless dict omitted c.gid) (andThen (putUint c.parents.length)
    (andThen (putAll (fun p => putUnless dict (p.identical previous) p) c.parents)
      (putBody dict c.body)))

/-- Encode commits. -/
def putCommits (previous : Value γ) : List (RawCommit γ) → Except Failure (List (Octet γ))
  | [] => .ok []
  | c :: rest =>
    andThen (putCommit dict previous c (c.omitGid rest)) (putCommits c.gid rest)

/-- Encode what follows the dictionary. -/
def putMessage : Message γ → Except Failure (List (Octet γ))
  | .delta commits => andThen (putUint commits.length) (putCommits dict .null commits)
  | .other v => putValue dict v

end Encoder

/-- The first bytes of a message, with the version. -/
def MAGIC : List UInt8 := [0x53, 0x41, 0x4c, 0x01]

/-- The byte that tells deltas from other messages. -/
def Message.mode : Message γ → UInt8
  | .delta _ => 1
  | .other _ => 0

/-- Encode a message. -/
def encodeMessage [DecidableEq γ] (localeCompare : Text → Text → Bool) (m : Message γ) :
    Except Failure (List (Octet γ)) :=
  let dict := dictionary localeCompare m.value
  andThen (.ok ((MAGIC ++ [m.mode]).map .byte))
    (andThen (andThen (putUint dict.length) (putAll putText dict)) (putMessage dict m))

/-- **Encode a value.** -/
def encodeWire [DecidableEq γ] (localeCompare : Text → Text → Bool) (v : Value γ) :
    Except Failure (List (Octet γ)) := do encodeMessage localeCompare (← toMessage v)

/-! ### The decoder -/

/-- Decode a payload with the given tag. -/
def getTaggedPayload (get : WireReader γ (Value γ)) : ℕ → WireReader γ (Value γ)
  | 0 => get
  | 1 => do
    let id ← get
    let el ← get
    let anchorId ← get
    return .object [("anchorId", anchorId), ("el", el), ("id", id), ("type", .str (text "ins"))]
  | 2 => do
    let id ← get
    return .object [("id", id), ("type", .str (text "del"))]
  | _ => throw (.error "wire: unknown payload tag")

/-- Decode a payload. -/
def getPayload (get : WireReader γ (Value γ)) : WireReader γ (Value γ) := do
  let tag ← getByte
  getTaggedPayload get tag.toNat

/-- Decode an operation. -/
def getOp (get : WireReader γ (Value γ)) (legacy : Bool) : WireReader γ (RawBody γ) := do
  let replica ← get
  let seq ← getUint
  let payload ← getPayload get
  return .op legacy replica seq payload

/-- Decode what a commit of the given shape carries. -/
def getTaggedBody (get : WireReader γ (Value γ)) : ℕ → WireReader γ (RawBody γ)
  | 0 => return .bare
  | 1 => getOp get true
  | 2 => getOp get false
  | 3 => return .merge
  | 4 => do
    let cut ← get
    let state ← get
    return .compact cut state
  | 5 => do
    let epoch ← get
    let fp ← get
    let roster ← get
    let proof ← get
    let state ← get
    return .base epoch fp roster proof state
  | _ => throw (.error "wire: unknown delta commit tag")

/-- Decode what a commit carries. -/
def getBody (get : WireReader γ (Value γ)) : WireReader γ (RawBody γ) := do
  let shape ← getByte
  getTaggedBody get shape.toNat

/-- Decode a value, or put the given one where it was left out. -/
def getUnless (get : WireReader γ (Value γ)) (v : Value γ) : WireReader γ (Value γ) := do
  let explicit ← getByte
  if explicit = 0 then return v else get

/-- Decode a commit, given the decoded id of the preceding one. -/
def getCommit (get : WireReader γ (Value γ)) (previous : Value γ) :
    WireReader γ (RawCommit γ) := do
  let gid ← getUnless get .null
  let size ← getUint
  let parents ← Reader.many (getUnless get previous) size
  let body ← getBody get
  return { gid, parents, body }

/-- Decode commits. -/
def getCommits (get : WireReader γ (Value γ)) (previous : Value γ) :
    ℕ → WireReader γ (List (RawCommit γ))
  | 0 => return []
  | n + 1 => do
    let c ← getCommit get previous
    return c :: (← getCommits get c.gid n)

/-- Skip the first bytes of a message. -/
def getMagic : List UInt8 → WireReader γ Unit
  | [] => return ()
  | x :: xs => do
    let b ← getByte
    if b = x then getMagic xs else throw (.error "wire: bad magic or version")

/-- Decode what follows the dictionary, in the given mode. -/
def getMessage (get : WireReader γ (Value γ)) : ℕ → WireReader γ (Message γ)
  | 0 => return .other (← get)
  | _ => do
    let size ← getUint
    return .delta (← getCommits get .null size)

/-- Decode a message whose values are at most `depth` deep. -/
def getWire (depth : ℕ) : WireReader γ (Message γ) := do
  getMagic MAGIC
  let mode ← getByte
  if mode = 0 ∨ mode = 1 then
    let size ← getUint
    let dict ← Reader.many getText size
    getMessage (getValue dict depth) mode.toNat
  else throw (.error "wire: unknown message mode")

/-- Decode a message. Each level of a value takes a byte, so the length of the message bounds the
depth. -/
def decodeMessage (bytes : List (Octet γ)) : Except Failure (Message γ) :=
  match StateT.run (getWire bytes.length) bytes with
  | .ok (m, []) => .ok m
  | .ok _ => .error (.error "wire: trailing bytes")
  | .error e => .error e

/-- **Decode a value.** -/
def decodeWire (bytes : List (Octet γ)) : Except Failure (Value γ) := do
  return (← decodeMessage bytes).value

end SalRuntime
