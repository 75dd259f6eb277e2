import ObjectCatalog.Proofs.CopyReads
import ObjectCatalog.Proofs.Effects

/-!
# The life of an object row

A row appears pending when an upload starts, or committed when a copy is finished. A pending row
becomes committed once and stays as it is otherwise; a committed row keeps all its columns but the
metadata. Either can be removed at any time.

* `CommitObject.Completes`: what a completed upload keeps of its row, and what it replaces.
* `Call.Turns`, `Event.Turns`: what can become of the row under one key and version.
* `Call.Effect.turns`: **no call does anything else to a row.**
* `Site.Reachable.row_lifecycle`: **the same for the events of any run,** in which no upload is
  finished twice.
-/

namespace ObjectCatalog

/-! ## What becomes of a row -/

/-- What the completion of an upload makes of its row. -/
structure CommitObject.Completes (r : CommitObject) (o o' : ObjectRow) : Prop where
  named : o.isOf r.stream = true
  pending : o.hasStatus .pending = true
  committed : o'.hasStatus .committed = true
  id : o'.id = o.id
  stream : o'.stream = o.stream
  createdAt : o'.createdAt = o.createdAt
  expiresAt : o'.expiresAt = o.expiresAt
  encryption : o'.encryption = if r.encryption.isZero then o.encryption else r.encryption.pack
  metadata : o'.metadata = if r.overrideMetadata then r.metadata else o.metadata

/-- What a call can make of the row under one key and version, which may be absent before or
afterwards. -/
inductive Call.Turns : Call → Option ObjectRow → Option ObjectRow → Prop
  | same {call : Call} {row : Option ObjectRow} : Turns call row row
  /-- A row appears pending when an upload of it starts. -/
  | started {call : Call} {r : BeginObject} {o : ObjectRow} (hcall : call.upload? = some r)
      (hlocation : o.location = r.stream.location) (hstream : o.stream = r.stream.stream)
      (hpending : o.hasStatus .pending = true) : Turns call none (some o)
  /-- A row appears committed when a copy is finished. -/
  | copied {r : FinishCopy} {o : ObjectRow} (hlocation : o.location = r.location)
      (hstream : o.stream = r.newStream) (hcommitted : o.hasStatus .committed = true) :
      Turns (.finishCopy r) none (some o)
  /-- A pending row becomes committed when the upload is completed. -/
  | completed {call : Call} {r : CommitObject} {o o' : ObjectRow}
      (hcall : call.completion? = some r) (hcompletes : r.Completes o o') :
      Turns call (some o) (some o')
  /-- A committed row gets new metadata. -/
  | described {r : UpdateMetadata} {o : ObjectRow} (hnamed : o.isOf r.stream = true)
      (hcommitted : o.hasStatus .committed = true) :
      Turns (.updateMetadata r) (some o) (some { o with metadata := r.metadata })
  /-- A row is removed. -/
  | removed {call : DeleteCall} {o : ObjectRow} : Turns (.delete call) (some o) none

/-- What an event can make of the row under one key and version. -/
inductive Event.Turns : Event → Option ObjectRow → Option ObjectRow → Prop
  | same {e : Event} {row : Option ObjectRow} : Turns e row row
  | call {i : Nat} {now : Instant} {call : Call} {row row' : Option ObjectRow}
      (hturns : call.Turns row row') : Turns (.call i now call) row row'

/-- The call of an upload's start. -/
def Event.IsStart (e : Event) : Prop :=
  ∃ i now call r, e = .call i now call ∧ call.upload? = some r

/-! ## What the requests say -/

/-- Metadata that a request gives is stored as it was given. -/
theorem MetadataParts.ofMetadata_of_check {p : MetadataParts} {m : Option Metadata}
    (h : p.check = .ok m) : ofMetadata m = p := by
  obtain ⟨data, nonce, key⟩ := p
  cases data <;> cases nonce <;> cases key <;> cases h <;> rfl

/-- Only the zero encryption is stored as zero. -/
theorem Encryption.pack_eq_zero_iff {e : Encryption} : e.pack = 0 ↔ e.isZero = true := by
  constructor
  · intro hpack
    have hunpack := unpack_pack e
    rw [hpack] at hunpack
    rw [← hunpack]
    rfl
  · intro hzero
    obtain ⟨hsuite, hblock⟩ := of_decide_eq_true hzero
    unfold pack
    rw [hsuite, hblock]
    rfl

variable {s s' : Store} {k : ObjectId} {o o' : ObjectRow}

/-- The row of a stream identity is named by it. -/
theorem Store.isOf_of_objectOf? {stream : ObjectStream} {status : Status}
    (h : s.objectOf? stream status = some o) : o.isOf stream = true := by
  unfold objectOf? at h
  obtain ⟨-, hcond⟩ := Option.filter_eq_some_iff.1 h
  exact (Bool.and_eq_true _ _ ▸ hcond).1

theorem CommitObject.completes_row {r : CommitObject} {metadata : Option Metadata}
    {rows : List SegmentRow} (hcheck : r.check = .ok metadata)
    (hpending : s.objectOf? r.stream .pending = some o) : r.Completes o (r.row metadata o rows) where
  named := Store.isOf_of_objectOf? hpending
  pending := (Store.objectOf?_eq_some hpending).2.2.2
  committed := ObjectRow.hasStatus_iff.2 rfl
  id := rfl
  stream := rfl
  createdAt := rfl
  expiresAt := rfl
  encryption := if_congr Encryption.pack_eq_zero_iff rfl rfl
  metadata := by
    unfold CommitObject.row
    cases hoverride : r.overrideMetadata with
    | false => rfl
    | true =>
      -- the metadata of the request is checked only when it counts
      unfold check at hcheck
      obtain ⟨_, -, hcheck⟩ := Except.bind_eq_ok.1 hcheck
      rw [hoverride, if_pos rfl] at hcheck
      exact MetadataParts.ofMetadata_of_check hcheck

/-! ## What the effects do to a row -/

/-- A row put in its place is found there, and other places keep their rows. -/
theorem Call.Turns.of_insert {call : Call} {row : Option ObjectRow}
    (hrow : s.objects.find? o.id = row) (h : call.Turns row (some o)) :
    call.Turns (s.objects.find? k) ((s.objects.insert o).find? k) := by
  rw [Table.find?_insert]
  by_cases hk : o.id = k
  · subst hk
    rw [if_pos rfl, hrow]
    exact h
  · rw [if_neg hk]
    exact .same

/-- **What a call can do to the row under any key and version.** -/
theorem Call.Effect.turns {now : Instant} {call : Call} (h : call.Effect now s s') (k : ObjectId) :
    call.Turns (s.objects.find? k) (s'.objects.find? k) := by
  cases h with
  | rows hsame =>
    rw [hsame.objects]
    exact .same
  | started hcall _ hfree =>
    exact .of_insert hfree (.started hcall rfl rfl (ObjectRow.hasStatus_iff.2 rfl))
  | stored _ _ hsame =>
    have hobjects := hsame.objects
    dsimp only
    rw [hobjects]
    exact .same
  | completed hcall hcheck hpending hkept hcomplete =>
    have hrow := Table.mem_rows_iff.1 (Store.objectOf?_eq_some hpending).1
    rw [Catalog.objects_of_complete hkept hcomplete]
    exact .of_insert hrow (.completed hcall (CommitObject.completes_row hcheck hpending))
  | @described _ r metadata o hcheck hcommitted =>
    obtain ⟨hmem, -, -, hstatus⟩ := Store.objectOf?_eq_some hcommitted
    have hrow := Table.mem_rows_iff.1 hmem
    dsimp only
    rw [MetadataParts.ofMetadata_of_check hcheck]
    exact .of_insert hrow (.described (Store.isOf_of_objectOf? hcommitted) hstatus)
  | copied hcopy =>
    obtain ⟨_, _, _, _, hcopied⟩ := Store.copied_of_ok hcopy
    have hfree := Store.nextVersion_free (Store.ObjectRow.version_of_view hcopied.object_view)
    rw [hcopied.objects]
    exact .of_insert hfree (.copied rfl rfl (ObjectRow.hasStatus_iff.2 rfl))
  | deleted hdeletes =>
    rcases hdeletes.find?_eq k with hsame | hnone
    · rw [hsame]
      exact .same
    · rw [hnone]
      cases s.objects.find? k with
      | none => exact .same
      | some o => exact .removed

/-! ## What a row that turns is and was -/

namespace Event.Turns

variable {e : Event} {row row' : Option ObjectRow}

/-- A row is pending afterwards because it was, or because its upload has started. -/
theorem pending_before (h : e.Turns row row') (hpending : row'.any (·.hasStatus .pending) = true) :
    row' = row ∨ row = none ∧ e.IsStart := by
  cases h with
  | same => exact .inl rfl
  | call hturns =>
    cases hturns with
    | same => exact .inl rfl
    | started hcall => exact .inr ⟨rfl, _, _, _, _, rfl, hcall⟩
    | copied _ _ hcommitted => exact absurd hcommitted (ObjectRow.not_committed_of_pending hpending)
    | completed _ hcompletes =>
      exact absurd hcompletes.committed (ObjectRow.not_committed_of_pending hpending)
    | described _ hcommitted =>
      exact absurd hcommitted (ObjectRow.not_committed_of_pending hpending)
    | removed => cases hpending

/-- A committed row that stays keeps all columns but the metadata. -/
theorem committed_after (h : e.Turns (some o) row') (hcommitted : o.hasStatus .committed = true)
    (hstays : row'.isSome = true) : ∃ parts, row' = some { o with metadata := parts } := by
  cases h with
  | same => exact ⟨o.metadata, rfl⟩
  | call hturns =>
    cases hturns with
    | same => exact ⟨o.metadata, rfl⟩
    | completed _ hcompletes =>
      exact absurd hcommitted (ObjectRow.not_committed_of_pending hcompletes.pending)
    | @described r => exact ⟨r.metadata, rfl⟩
    | removed => cases hstays

end Event.Turns

/-! ## Runs -/

namespace Site

variable {σ : Site} {allow : Store → StreamId → Prop} {e : Event} {events : List Event}

/-- The object row of a site under a key and version. -/
def object? (σ : Site) (k : ObjectId) : Option ObjectRow := σ.store.bind (·.objects.find? k)

/-- Whether the row under a key and version is pending. -/
def IsPending (σ : Site) (k : ObjectId) : Prop :=
  (σ.object? k).any (·.hasStatus .pending) = true

instance (σ : Site) (k : ObjectId) : Decidable (σ.IsPending k) := by
  unfold IsPending; infer_instance

/-- An event after which an upload is pending no more: it is committed or removed. -/
def Finishes (σ : Site) (e : Event) (k : ObjectId) : Prop :=
  σ.IsPending k ∧ ¬ (σ.step e).IsPending k

instance (σ : Site) (e : Event) (k : ObjectId) : Decidable (σ.Finishes e k) := by
  unfold Finishes; infer_instance

theorem Stands.object?_eq (hσ : σ.Stands s) (k : ObjectId) : σ.object? k = s.objects.find? k := by
  unfold object?
  rw [hσ.store, Option.bind_some]

/-- **One event.** -/
theorem Stands.turns (hσ : σ.Stands s) (e : Event) (k : ObjectId) :
    e.Turns (σ.object? k) ((σ.step e).object? k) := by
  obtain ⟨s', hσ', haffects⟩ := hσ.affects e
  rw [hσ.object?_eq, hσ'.object?_eq]
  cases haffects with
  | idle => exact .same
  | call heffect => exact .call (heffect.turns k)

/-- A row that is pending after events, and was not before, has been started by one of them. -/
theorem Stands.exists_start (hσ : σ.Stands s) (hbefore : ¬ σ.IsPending k)
    (hafter : (σ.run events).IsPending k) :
    ∃ before e after, events = before ++ e :: after ∧ e.IsStart ∧
      (σ.run before).object? k = none := by
  induction events generalizing σ s with
  | nil => exact absurd hafter hbefore
  | cons e rest ih =>
    by_cases hnext : (σ.step e).IsPending k
    · -- this event makes the row pending
      rcases (hσ.turns e k).pending_before hnext with hsame | ⟨habsent, hstart⟩
      · unfold IsPending at hbefore hnext
        rw [hsame] at hnext
        exact absurd hnext hbefore
      · exact ⟨[], e, rest, rfl, hstart, habsent⟩
    · obtain ⟨s', hσ', -⟩ := hσ.affects e
      obtain ⟨before, e', after, hsplit, hstart, habsent⟩ := ih hσ' hnext hafter
      exact ⟨e :: before, e', after, by rw [hsplit, List.cons_append], hstart, habsent⟩

/-- A committed row keeps all columns but the metadata for as long as it is there. -/
theorem Stands.committed_stays (hσ : σ.Stands s) (hrow : σ.object? k = some o)
    (hcommitted : o.hasStatus .committed = true)
    (hstays : ∀ before, before <+: events → ((σ.run before).object? k).isSome = true) :
    ∃ parts, (σ.run events).object? k = some { o with metadata := parts } := by
  induction events generalizing σ s o with
  | nil => exact ⟨o.metadata, hrow⟩
  | cons e rest ih =>
    have hturns := hσ.turns e k
    rw [hrow] at hturns
    have hnext : ((σ.step e).object? k).isSome = true :=
      hstays [e] (List.cons_prefix_cons.2 ⟨rfl, List.nil_prefix⟩)
    obtain ⟨parts, hparts⟩ := hturns.committed_after hcommitted hnext
    obtain ⟨s', hσ', -⟩ := hσ.affects e
    -- from here on the row is the one with the metadata that this event has left
    obtain ⟨parts', hlast⟩ := ih hσ' hparts hcommitted fun before hprefix =>
      hstays (e :: before) (List.cons_prefix_cons.2 ⟨rfl, hprefix⟩)
    exact ⟨parts', hlast⟩

/-- **What any event does to the object row under any key and version of a reachable site,** and what
follows for runs: a committed row that stays keeps all columns but the metadata, and an upload is
finished once, since between two events that finish an upload of a key and version another one
starts. -/
theorem Reachable.row_lifecycle (hσ : σ.Reachable allow) (k : ObjectId) :
    (∀ e : Event, e.Turns (σ.object? k) ((σ.step e).object? k)) ∧
    (∀ (o : ObjectRow) (events : List Event), σ.object? k = some o →
      o.hasStatus .committed = true →
      (∀ before, before <+: events → ((σ.run before).object? k).isSome = true) →
        ∃ parts, (σ.run events).object? k = some { o with metadata := parts }) ∧
    ∀ (e e' : Event) (between : List Event), σ.Finishes e k →
      ((σ.step e).run between).Finishes e' k →
        ∃ before start after, between = before ++ start :: after ∧ start.IsStart ∧
          ((σ.step e).run before).object? k = none := by
  obtain ⟨s, hstands⟩ := hσ.stands
  refine ⟨fun e => hstands.turns e k, fun o events hrow hcommitted hstays => ?_,
    fun e e' between hfirst hsecond => ?_⟩
  · exact hstands.committed_stays hrow hcommitted hstays
  · obtain ⟨s', hstands', -⟩ := hstands.affects e
    exact hstands'.exists_start hfirst.2 hsecond.1

end Site

/-! ### An upload that is completed -/

/-- Once the upload at the greatest version is committed, no event finishes it again unless an upload
starts at the place of its row. -/
theorem Sample.row_lifecycle_exhausted :
    let k : ObjectId := ⟨greatest.location, greatest.version.toInt⟩
    let e : Event := .call 0 moment (commit greatest)
    exhausted.Finishes e k ∧ e.Turns (exhausted.object? k) ((exhausted.step e).object? k) ∧
      ∀ (e' : Event) (between : List Event), ((exhausted.step e).run between).Finishes e' k →
        ∃ before start after, between = before ++ start :: after ∧ start.IsStart ∧
          ((exhausted.step e).run before).object? k = none := by
  intro k e
  have hfinishes : exhausted.Finishes e k := by decide +kernel
  have hlife := Site.Reachable.row_lifecycle reachable_exhausted k
  exact ⟨hfinishes, hlife.1 e, fun e' between => hlife.2.2 e e' between hfinishes⟩

end ObjectCatalog
