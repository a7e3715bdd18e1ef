import SalRuntime.Replica.Keyed

/-!
# Commit records

The durable form of a replica, of `src/records.js`: its commits as records, and the heads. A node is
rebuilt by ingesting the records into a new replica and merging with the stored head.

The epochs of the records, and in the heads the epoch, the label of the datatype and the state of the
mint, are left out.

## Main definitions

* `CommitRecord`, `Heads` — the records.
* `Replica.commitRecord`, `Replica.nodeRecords` — what is stored.
* `topoOrder`, `wireFromRecords` — the records as a delta.
* `rebuildNode` — the node rebuilt from records.

## Main results

* `Replica.Keyed.faithful_of_mem_nodeRecords` — the records of a keyed replica are faithful.
* `Replica.Keyed.rebuildNode` — a node rebuilt from faithful records is keyed.
-/

namespace SalRuntime

/-- What a record tells of its commit. -/
inductive RecordBody (D : Datatype)
  /-- The root. -/
  | root
  /-- An operation commit. -/
  | op (replica : String) (seq : ℕ) (payload : Payload D.Op)
  /-- A merge. -/
  | merge
  /-- A compaction. -/
  | compact (cut : D.Cut) (state : D.Wire)

/-- The record of a commit. -/
structure CommitRecord (D : Datatype) (γ : Type) where
  /-- The content id. -/
  sha : Option γ
  /-- The content ids of the parents. -/
  parents : List (Option γ)
  /-- The rest. -/
  body : RecordBody D

/-- The heads. -/
structure Heads (γ : Type) where
  /-- The content id of the head. -/
  head : γ
  /-- The name of the replica. -/
  replica : String
  /-- Its next sequence number. -/
  seq : ℕ
  /-- Its roster. -/
  roster : List String
  deriving DecidableEq, Repr

variable {D : Datatype} {γ : Type}

section Order

variable [DecidableEq γ]

/-- Visit a record: its parents come before it. Every level of the recursion marks another record as
seen, so the number of records bounds the depth. -/
def visit (byId : Option γ → Option (CommitRecord D γ)) : ℕ →
    List (Option γ) × List (CommitRecord D γ) → Option γ →
    List (Option γ) × List (CommitRecord D γ)
  | 0, acc, _ => acc
  | fuel + 1, (seen, out), sha =>
    if sha ∈ seen then (seen, out)
    else
      match byId sha with
      | none => (seen, out)
      | some rec =>
        let acc := rec.parents.foldl (visit byId fuel) (sha :: seen, out)
        (acc.1, acc.2 ++ [rec])

/-- The records, parents first. Of two records of one content id the later counts. -/
def topoOrder (records : List (CommitRecord D γ)) : List (CommitRecord D γ) :=
  let byId sha := records.reverse.find? (·.sha = sha)
  ((records.map CommitRecord.sha).foldl (visit byId (records.length + 1)) ([], [])).2

/-- The wire commit of a record. The root is not shipped. -/
def CommitRecord.wire (rec : CommitRecord D γ) : Option (WireCommit D γ) :=
  match rec.body with
  | .root => none
  | .op replica seq payload =>
    some { gid := rec.sha, parents := rec.parents, body := .op replica seq payload }
  | .merge => some { gid := rec.sha, parents := rec.parents, body := .merge }
  | .compact cut state =>
    some { gid := rec.sha, parents := rec.parents, body := .compact cut state }

/-- The records as a delta. -/
def wireFromRecords (records : List (CommitRecord D γ)) : List (WireCommit D γ) :=
  (topoOrder records).filterMap CommitRecord.wire

/-- The order has no other records. -/
theorem mem_of_mem_visit {byId : Option γ → Option (CommitRecord D γ)}
    {P : CommitRecord D γ → Prop} (hbyId : ∀ sha rec, byId sha = some rec → P rec) (fuel : ℕ)
    {acc : List (Option γ) × List (CommitRecord D γ)} (hacc : ∀ rec ∈ acc.2, P rec)
    (sha : Option γ) : ∀ rec ∈ (visit byId fuel acc sha).2, P rec := by
  induction fuel generalizing acc sha with
  | zero => exact hacc
  | succ fuel ih =>
    obtain ⟨seen, out⟩ := acc
    rw [visit]
    split_ifs
    · exact hacc
    · cases hrec : byId sha with
      | none => exact hacc
      | some rec =>
        have hparents (parents : List (Option γ)) (acc : List (Option γ) × List (CommitRecord D γ))
            (hacc : ∀ rec ∈ acc.2, P rec) :
            ∀ rec ∈ (parents.foldl (visit byId fuel) acc).2, P rec := by
          induction parents generalizing acc with
          | nil => exact hacc
          | cons p parents ihparents => exact ihparents _ (ih hacc p)
        intro rec' hrec'
        rcases List.mem_append.mp hrec' with hmem | hmem
        · exact hparents _ (sha :: seen, out) hacc rec' hmem
        · rw [List.mem_singleton.mp hmem]
          exact hbyId sha rec hrec

theorem mem_of_mem_topoOrder {records : List (CommitRecord D γ)} {rec : CommitRecord D γ}
    (h : rec ∈ topoOrder records) : rec ∈ records := by
  have hall (shas : List (Option γ)) (acc : List (Option γ) × List (CommitRecord D γ))
      (hacc : ∀ rec ∈ acc.2, rec ∈ records) : ∀ rec ∈ (shas.foldl (visit
        (fun sha => records.reverse.find? (·.sha = sha)) (records.length + 1)) acc).2,
        rec ∈ records := by
    induction shas generalizing acc with
    | nil => exact hacc
    | cons sha shas ih =>
      refine ih _ (mem_of_mem_visit (fun sha rec hrec => ?_) _ hacc sha)
      exact List.mem_reverse.mp (List.mem_of_find?_eq_some hrec)
  exact hall (records.map CommitRecord.sha) ([], []) (by simp) rec h

end Order

variable [LinearOrder γ]

namespace Replica

/-- Encode a state with the encoder of the datatype. -/
def encoded (D : Datatype) (state : D.State) : Except Failure D.Wire :=
  match D.encodeState with
  | some encodeState => .ok (encodeState state)
  | none => .error (.error "node.datatype.encodeState is not a function")

/-- The record of a commit. A commit without parents is an epoch base or a root. -/
def commitRecord (r : Replica D γ) (id : ℕ) : Except Failure (CommitRecord D γ) := do
  let c ← r.dag.get id
  let sha := r.gid.get? id
  let parents := c.parents.map r.gid.get?
  let cut := ((r.epochDag.get? (r.epochAt id)).bind EpochNode.cut).getD D.emptyCut
  if c.parents.length = 0 then
    match (r.epochBase.get? id).join with
    | some eb =>
      let state ← encoded D c.state
      return { sha, parents := [some eb], body := .compact cut state }
    | none => return { sha, parents, body := .root }
  else
    match c.op with
    | some op => return { sha, parents, body := .op op.replica op.seq op.payload }
    | none =>
      if c.parents.length = 1 then
        let state ← encoded D c.state
        return { sha, parents, body := .compact cut state }
      else return { sha, parents, body := .merge }

/-- The records of a node, and its heads. -/
def nodeRecords (r : Replica D γ) : Except Failure (List (CommitRecord D γ) × Heads γ) := do
  let records ← r.dag.ids.mapM r.commitRecord
  return (records, { head := r.headGid, replica := r.name, seq := r.seq, roster := r.registered })

end Replica

variable (H : ContentHash D.Op D.Print γ)

/-- Register the stored roster, ingest the records and merge with the stored head. -/
def restore (records : List (CommitRecord D γ)) (heads : Heads γ) : Call D γ Unit := do
  heads.roster.forM Replica.register
  let _ ← Replica.ingest H (wireFromRecords records)
  let _ ← Replica.mergeWithGid H heads.head

/-- The sequence number with which a node rebuilt under a name goes on. -/
def restoredSeq (heads : Heads γ) (asName : String) : ℕ :=
  if asName = heads.replica then heads.seq else 0

/-- Rebuild a node, under its own name or another one. The sequence number is the stored one if the
name is that of the stored node. -/
def rebuildNode (records : List (CommitRecord D γ)) (heads : Heads γ) (name : Option String) :
    Except Failure (Replica D γ) :=
  let asName := name.getD heads.replica
  match Effect.exec (restore H records heads) (Replica.create D H asName) with
  | (.ok _, r) => .ok (if asName = heads.replica then { r with seq := heads.seq } else r)
  | (.error e, _) => .error e

/-! ### Faithful records -/

variable {H}

/-- The record, if it is one of an operation, carries the id of its content, and `W` allows it. -/
def CommitRecord.Faithful (H : ContentHash D.Op D.Print γ)
    (W : γ → Op (Payload D.Op) → Prop) (rec : CommitRecord D γ) : Prop :=
  ∀ wc, rec.wire = some wc → Replica.Faithful H W wc

namespace Replica

variable {W : γ → Op (Payload D.Op) → Prop} {name : String} {seq : ℕ} {r : Replica D γ}

/-- The record of an operation. -/
theorem op_of_commitRecord {id : ℕ} {rec : CommitRecord D γ} (hrec : r.commitRecord id = .ok rec)
    {wc : WireCommit D γ} (hwc : rec.wire = some wc) {op : Op (Payload D.Op)}
    (hbody : wc.body = .op op.replica op.seq op.payload) :
    ∃ c, r.dag.commits.get? id = some c ∧ c.op = some op ∧ wc.gid = r.gid.get? id ∧
      wc.parents = c.parents.map r.gid.get? := by
  rw [commitRecord] at hrec
  cases hc : r.dag.get id with
  | error e =>
    rw [hc] at hrec
    cases hrec
  | ok c =>
    rw [hc] at hrec
    refine ⟨c, Dag.get_eq_ok.mp hc, ?_⟩
    have hcompact {parents : List (Option γ)} {cut : D.Cut} (heq : (do
        let state ← encoded D c.state
        return ({ sha := r.gid.get? id, parents, body := .compact cut state } : CommitRecord D γ)) =
          .ok rec) : False := by
      cases hstate : encoded D c.state with
      | error e =>
        rw [hstate] at heq
        cases heq
      | ok state =>
        rw [hstate] at heq
        cases heq
        cases hwc
        cases hbody
    change (if c.parents.length = 0 then _ else _) = _ at hrec
    by_cases hroot : c.parents.length = 0
    · rw [if_pos hroot] at hrec
      split at hrec
      · exact (hcompact hrec).elim
      · cases hrec
        cases hwc
    · rw [if_neg hroot] at hrec
      split at hrec
      · rename_i op' hop
        cases hrec
        cases hwc
        simp only [WireBody.op.injEq] at hbody
        obtain ⟨hreplica, hseq, hpayload⟩ := hbody
        exact ⟨hop.trans (congrArg some (Op.ext hreplica hseq hpayload)), rfl, rfl⟩
      · split_ifs at hrec
        · exact (hcompact hrec).elim
        · cases hrec
          cases hwc
          cases hbody

/-- **The records of a keyed replica** are faithful. -/
theorem Keyed.faithful_of_mem_nodeRecords (h : Keyed H W name seq r)
    {records : List (CommitRecord D γ)} {heads : Heads γ}
    (hrecords : r.nodeRecords = .ok (records, heads)) {rec : CommitRecord D γ}
    (hrec : rec ∈ records) : rec.Faithful H W := by
  rw [nodeRecords] at hrecords
  cases hm : r.dag.ids.mapM r.commitRecord with
  | error e =>
    rw [hm] at hrecords
    cases hrecords
  | ok records' =>
    rw [hm] at hrecords
    cases hrecords
    obtain ⟨id, -, hid⟩ := exists_of_mem_mapM hm hrec
    intro wc hwc op hbody
    obtain ⟨c, hc, hop, hgid, hparents⟩ := op_of_commitRecord hid hwc hbody
    obtain ⟨p, pg, hp, hpg, hopId, hW⟩ := h.ops id c op hc hop
    refine ⟨pg, ?_, hgid.trans hopId, hW⟩
    rw [hparents, hp, List.map_singleton, hpg]

/-- Restoring keeps a stable property that the ingestion of the records keeps. -/
theorem Stable.ends_restore_of {P : D.State → Prop} {Q : Replica D γ → Prop} (hQ : Stable H P W Q)
    {records : List (CommitRecord D γ)}
    (hingest : ∀ {r}, Q r → Effect.Ends Q (ingest H (wireFromRecords records)) r) (h : Q r)
    (heads : Heads γ) : Effect.Ends Q (restore H records heads) r := by
  have hroster (names : List String) {r : Replica D γ} (h : Q r) :
      Effect.Ends Q (names.forM register : Call D γ PUnit) r := by
    induction names generalizing r with
    | nil => exact .pure h _
    | cons name names ih =>
      rw [List.forM_eq_forM, List.forM_cons]
      exact .bind (hQ.ends_register h name) fun _ r' _ h' => ih h'
  refine .bind (hroster heads.roster h) fun _ r' _ h' => .bind (hingest h') fun _ r' _ h' => ?_
  exact .bind (hQ.ends_mergeWithGid h' _) fun _ r' _ h' => .pure h' _

theorem Stable.ends_restore {Q : Replica D γ → Prop} (hQ : Stable H (fun _ => True) W Q) (h : Q r)
    {records : List (CommitRecord D γ)} (hrecords : ∀ rec ∈ records, rec.Faithful H W)
    (heads : Heads γ) : Effect.Ends Q (restore H records heads) r := by
  have hwire : ∀ wc ∈ wireFromRecords records, Faithful H W wc := by
    intro wc hwc
    obtain ⟨rec, hrec, hwire⟩ := List.mem_filterMap.mp hwc
    exact hrecords rec (mem_of_mem_topoOrder hrec) wc hwire
  exact hQ.ends_restore_of (fun h => hQ.ends_ingest_resolved (fun wc _ => inline_true wc)
    (resolved_of_faithful hwire none) h) h heads

/-- **A rebuilt node** is keyed. -/
theorem Keyed.rebuildNode (hsealed : Sealed H W) {records : List (CommitRecord D γ)}
    (hrecords : ∀ rec ∈ records, rec.Faithful H W) {heads : Heads γ} {asName : Option String}
    (hr : SalRuntime.rebuildNode H records heads asName = .ok r) :
    Keyed H W (asName.getD heads.replica) (restoredSeq heads (asName.getD heads.replica)) r := by
  have hends := (stable hsealed).ends_restore (Keyed.create (asName.getD heads.replica)) hrecords
    heads
  rw [Effect.Ends] at hends
  rw [SalRuntime.rebuildNode] at hr
  rcases hexec : Effect.exec (restore H records heads)
      (Replica.create D H (asName.getD heads.replica)) with ⟨e | u, r'⟩
  · rw [hexec] at hr
    cases hr
  · rw [hexec] at hr hends
    dsimp only at hr hends
    rw [restoredSeq]
    split_ifs at hr ⊢
    · cases hr
      exact ⟨hends.sound.congr rfl rfl rfl rfl hends.sound.head, hends.headed, hends.ops,
        hends.name, rfl⟩
    · cases hr
      exact hends

end Replica

end SalRuntime
