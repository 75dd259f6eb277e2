import ObjectCatalog.Proofs.CopyKeys

/-!
# Well-formed object rows

Rows are written by the start of an upload, by its completion, by new metadata and by a copy, each
with checks of its own. All of them leave rows of one kind, whose metadata is there as a whole or not
at all, so that nothing of it is lost when a row is read. The encryption of a row is read as it was
given last.

* `MetadataParts.Whole`, `ObjectRow.WellFormed`: rows as calls leave them.
* `Call.Effect.wellFormed`: **every effect leaves rows of this kind.**
* `Call.encryption?`, `Site.lastEncryption?`: the encryption that the events of a run write.
* `Site.Reachable.run_encryption`: **a row has the encryption that was written last.**
* `ObjectRow.ReadsAs`, `Site.rows_well_formed`: what is read of the rows of any run.
-/

namespace ObjectCatalog

open Store

/-! ## Metadata -/

namespace MetadataParts

variable {p : MetadataParts}

/-- All three parts are there, or none. -/
def Whole (p : MetadataParts) : Prop := p.data.isSome = p.nonce.isSome ∧ p.nonce.isSome = p.key.isSome

theorem whole_ofMetadata (m : Option Metadata) : (ofMetadata m).Whole := by
  cases m with
  | none => exact ⟨rfl, rfl⟩
  | some m => exact ⟨rfl, rfl⟩

theorem stored?_ofMetadata (m : Option Metadata) : (ofMetadata m).stored? = m := by
  cases m with
  | none => rfl
  | some m => rfl

/-- **Parts that are there as a whole are read as a whole.** -/
theorem Whole.ofMetadata_stored? (h : p.Whole) : ofMetadata p.stored? = p := by
  obtain ⟨data, nonce, key⟩ := p
  obtain ⟨hnonce, hkey⟩ := h
  cases data with
  | none =>
    obtain rfl : nonce = none := by simpa using hnonce.symm
    obtain rfl : key = none := by simpa using hkey.symm
    rfl
  | some data =>
    obtain ⟨nonce, rfl⟩ := Option.isSome_iff_exists.1 hnonce.symm
    obtain ⟨key, rfl⟩ := Option.isSome_iff_exists.1 hkey.symm
    rfl

end MetadataParts

/-! ## Rows -/

/-- An object row as the calls leave it. -/
structure ObjectRow.WellFormed (o : ObjectRow) : Prop where
  project : o.location.project.isZero = false
  bucket : o.location.bucket.isEmpty = false
  key : o.location.key ≠ []
  stream : o.stream.isZero = false
  version : 1 ≤ o.version
  status : o.hasStatus .pending = true ∨ o.hasStatus .committed = true
  encryption : ∃ e : Encryption, e.isZero = false ∧ o.encryption = e.pack
  metadata : o.metadata.Whole
  deadline : o.zombieDeadline.isSome = true ↔ o.hasStatus .pending = true
  unfinished : o.hasStatus .pending = true →
    o.segmentCount = 0 ∧ o.totalPlainSize = 0 ∧ o.totalEncryptedSize = 0 ∧ o.fixedSegmentSize = 0

/-- What is read of a row has the whole of its metadata, and an encryption. A line of a listing has
them if they are asked for. -/
def ObjectRow.ReadsAs (o : ObjectRow) (e : Encryption) : Prop :=
  (∃ object, o.view? = some object ∧ .ofMetadata object.metadata = o.metadata ∧
    object.encryption = e) ∧
  ∀ custom system, ∃ entry, o.listed? custom system = some entry ∧
    (custom = true → .ofMetadata entry.metadata = o.metadata) ∧
    (system = true → entry.encryption = e)

variable {s s' : Store} {o : ObjectRow} {now : Instant} {call : Call} {k : ObjectId}

/-! ## What the requests say -/

theorem Location.check_eq_ok {l : Location} : l.check = .ok () ↔
    l.project.isZero = false ∧ l.bucket.isEmpty = false ∧ l.key ≠ [] := by
  have hkey : l.key.isEmpty = false ↔ l.key ≠ [] := List.isEmpty_eq_false_iff
  unfold check
  rw [Except.bind_eq_ok]
  constructor
  · rintro ⟨_, hproject, h⟩
    obtain ⟨_, hbucket, hempty⟩ := Except.bind_eq_ok.1 h
    exact ⟨reject_eq_ok.1 hproject, reject_eq_ok.1 hbucket, hkey.1 (reject_eq_ok.1 hempty)⟩
  · rintro ⟨hproject, hbucket, hempty⟩
    refine ⟨(), reject_eq_ok.2 hproject, ?_⟩
    rw [Except.bind_eq_ok]
    exact ⟨(), reject_eq_ok.2 hbucket, reject_eq_ok.2 (hkey.2 hempty)⟩

theorem ObjectStream.of_check {x : ObjectStream} (h : x.check = .ok ()) :
    x.location.check = .ok () ∧ x.stream.isZero = false := by
  unfold check at h
  obtain ⟨_, hlocation, h⟩ := Except.bind_eq_ok.1 h
  obtain ⟨_, -, hstream⟩ := Except.bind_eq_ok.1 h
  exact ⟨hlocation, reject_eq_ok.1 hstream⟩

theorem BeginObject.of_check {r : BeginObject} {metadata : Option Metadata}
    (h : r.check = .ok metadata) : r.stream.check = .ok () ∧ r.encryption.isZero = false := by
  unfold check at h
  obtain ⟨_, hstream, h⟩ := Except.bind_eq_ok.1 h
  obtain ⟨_, hencryption, -⟩ := Except.bind_eq_ok.1 h
  exact ⟨hstream, reject_eq_ok.1 hencryption⟩

/-- The location of a copy is in order when its identities are: its project is that of the source. -/
theorem FinishCopy.of_check {f : FinishCopy} (h : f.check = .ok ()) :
    f.location.check = .ok () ∧ f.newStream.isZero = false := by
  unfold check at h
  obtain ⟨_, hsource, h⟩ := Except.bind_eq_ok.1 h
  obtain ⟨_, hbucket, h⟩ := Except.bind_eq_ok.1 h
  obtain ⟨_, hkey, h⟩ := Except.bind_eq_ok.1 h
  obtain ⟨_, hstream, -⟩ := Except.bind_eq_ok.1 h
  obtain ⟨hproject, -, -⟩ := Location.check_eq_ok.1 (ObjectStream.of_check hsource).1
  have hempty : f.newKey ≠ [] := List.isEmpty_eq_false_iff.1 (reject_eq_ok.1 hkey)
  exact ⟨Location.check_eq_ok.2 ⟨hproject, reject_eq_ok.1 hbucket, hempty⟩, reject_eq_ok.1 hstream⟩

/-! ## The rows that calls write -/

/-- The row of a start. -/
theorem BeginObject.wellFormed_row {r : BeginObject} {metadata : Option Metadata}
    (hcheck : r.check = .ok metadata) {version : Int} (hversion : 0 < version)
    (settings : Settings) (now : Instant) : (r.row settings now metadata version).WellFormed := by
  obtain ⟨hx, hnonzero⟩ := BeginObject.of_check hcheck
  obtain ⟨hlocation, hstream⟩ := ObjectStream.of_check hx
  obtain ⟨hproject, hbucket, hkey⟩ := Location.check_eq_ok.1 hlocation
  have hpending : (r.row settings now metadata version).hasStatus .pending = true :=
    ObjectRow.hasStatus_iff.2 rfl
  exact {
    project := hproject
    bucket := hbucket
    key := hkey
    stream := hstream
    version := hversion
    status := .inl hpending
    encryption := ⟨r.encryption, hnonzero, rfl⟩
    metadata := MetadataParts.whole_ofMetadata metadata
    deadline := iff_of_true rfl hpending
    unfinished := fun _ => ⟨rfl, rfl, rfl, rfl⟩ }

/-- The row of a completed upload keeps the metadata and the encryption of the start, or takes those of
the completion. -/
theorem CommitObject.wellFormed_row {r : CommitObject} (ho : o.WellFormed)
    (metadata : Option Metadata) (rows : List SegmentRow) : (r.row metadata o rows).WellFormed := by
  have hcommitted : (r.row metadata o rows).hasStatus .committed = true :=
    ObjectRow.hasStatus_iff.2 rfl
  have hnot : ¬ (r.row metadata o rows).hasStatus .pending = true := fun hpending =>
    ObjectRow.not_committed_of_pending hpending hcommitted
  have hencryption : ∃ e : Encryption, e.isZero = false ∧
      (r.row metadata o rows).encryption = e.pack := by
    unfold row
    dsimp only
    by_cases hpack : r.encryption.pack = 0
    · rw [if_pos hpack]
      exact ho.encryption
    · rw [if_neg hpack]
      rw [Encryption.pack_eq_zero_iff, Bool.not_eq_true] at hpack
      exact ⟨r.encryption, hpack, rfl⟩
  have hmetadata : (r.row metadata o rows).metadata.Whole := by
    unfold row
    dsimp only
    by_cases hoverride : r.overrideMetadata = true
    · rw [if_pos hoverride]
      exact MetadataParts.whole_ofMetadata metadata
    · rw [if_neg hoverride]
      exact ho.metadata
  exact {
    project := ho.project
    bucket := ho.bucket
    key := ho.key
    stream := ho.stream
    version := ho.version
    status := .inr hcommitted
    encryption := hencryption
    metadata := hmetadata
    deadline := iff_of_false Bool.false_ne_true hnot
    unfinished := fun hpending => absurd hpending hnot }

/-- New metadata is there as a whole, and all other columns stay. -/
theorem ObjectRow.WellFormed.describe (ho : o.WellFormed) (metadata : Option Metadata) :
    ({ o with metadata := .ofMetadata metadata } : ObjectRow).WellFormed :=
  { ho with metadata := MetadataParts.whole_ofMetadata metadata }

/-- The number of a row is no part of what it says. -/
theorem ObjectRow.WellFormed.number (ho : o.WellFormed) (n : Nat) :
    ({ o with serial := n } : ObjectRow).WellFormed := { ho with }

/-- The encryption of a row is read as it was written. -/
theorem ObjectRow.WellFormed.pack_unpack (ho : o.WellFormed) :
    (Encryption.unpack o.encryption).isZero = false ∧
      (Encryption.unpack o.encryption).pack = o.encryption := by
  obtain ⟨e, hnonzero, he⟩ := ho.encryption
  rw [he, Encryption.unpack_pack]
  exact ⟨hnonzero, rfl⟩

/-- What an object says of the metadata and the encryption of its row. -/
theorem ObjectRow.columns_of_view {object : Object} (h : o.view? = some object) :
    object.metadata = o.metadata.stored? ∧ object.encryption = .unpack o.encryption := by
  obtain ⟨_, _, _, _, -, -, -, -, rfl⟩ := ObjectRow.view?_eq_some_iff.1 h
  exact ⟨rfl, rfl⟩

/-- The row of a copy has the encryption of its source. -/
theorem FinishCopy.wellFormed_objectRow {f : FinishCopy} (hcheck : f.check = .ok ())
    (ho : o.WellFormed) {source : Object} (hview : o.view? = some source) {version : Int}
    (hversion : 0 < version) (now : Instant) (metadata : Option Metadata) :
    (f.objectRow now source metadata version).WellFormed := by
  obtain ⟨hlocation, hstream⟩ := FinishCopy.of_check hcheck
  obtain ⟨hproject, hbucket, hkey⟩ := Location.check_eq_ok.1 hlocation
  have hcommitted : (f.objectRow now source metadata version).hasStatus .committed = true :=
    ObjectRow.hasStatus_iff.2 rfl
  have hnot : ¬ (f.objectRow now source metadata version).hasStatus .pending = true :=
    fun hpending => ObjectRow.not_committed_of_pending hpending hcommitted
  have hsource := (ObjectRow.columns_of_view hview).2
  exact {
    project := hproject
    bucket := hbucket
    key := hkey
    stream := hstream
    version := hversion
    status := .inr hcommitted
    encryption := ⟨source.encryption, hsource ▸ ho.pack_unpack.1, rfl⟩
    metadata := MetadataParts.whole_ofMetadata metadata
    deadline := iff_of_false Bool.false_ne_true hnot
    unfinished := fun hpending => absurd hpending hnot }

/-! ## Effects -/

/-- Tables with well-formed object rows. -/
def Store.WellFormed (s : Store) : Prop := ∀ o ∈ s.objects.rows, o.WellFormed

namespace Store.WellFormed

theorem empty : Store.empty.WellFormed := fun _ ho => absurd ho List.not_mem_nil

/-- Another such row is put in its place. -/
theorem insert (hs : s.WellFormed) (ho : o.WellFormed) (hobjects : s'.objects = s.objects.insert o) :
    s'.WellFormed := by
  intro o' ho'
  rw [hobjects, Table.mem_insert] at ho'
  rcases ho' with rfl | ⟨hold, -⟩
  · exact ho
  · exact hs o' hold

theorem of_objects (hs : s.WellFormed) (hobjects : s'.objects = s.objects) : s'.WellFormed :=
  fun o ho => hs o (hobjects ▸ ho)

end Store.WellFormed

/-- **Each effect leaves well-formed rows.** -/
theorem Call.Effect.wellFormed (h : call.Effect now s s') (hs : s.WellFormed) (hl : s.Legible) :
    s'.WellFormed := by
  cases h with
  | rows hsame => exact hs.of_objects hsame.objects
  | started _ hcheck _ =>
    obtain ⟨hversion, -⟩ := hl.versionFor hcheck
    exact hs.insert ((BeginObject.wellFormed_row hcheck hversion _ _).number _) rfl
  | stored _ _ hsame => exact hs.of_objects hsame.objects
  | completed _ _ hpending hkept hcomplete =>
    have ho := hs _ (Store.objectOf?_eq_some hpending).1
    exact hs.insert (CommitObject.wellFormed_row ho _ _) (Catalog.objects_of_complete hkept hcomplete)
  | described _ hcommitted =>
    have ho := hs _ (Store.objectOf?_eq_some hcommitted).1
    exact hs.insert (ho.describe _) rfl
  | @copied _ _ r _ hcopy hcheck =>
    obtain ⟨o, source, metadata, _, hcopied⟩ := Store.copied_of_ok hcopy
    have ho := hs o (Store.objectOf?_eq_some hcopied.found).1
    have hview := ObjectRow.view_eq_ok_iff.1 hcopied.source_view
    have hversion := (Catalog.nextVersion_bounds hl.positive r.location).1
    have hrow := FinishCopy.wellFormed_objectRow hcheck ho hview hversion now metadata
    exact hs.insert (hrow.number _) hcopied.objects
  | deleted hdeletes =>
    intro o ho
    rw [Table.mem_rows_iff] at ho
    rcases hdeletes.find?_eq o.id with hsame | hnone
    · rw [hsame] at ho
      exact hs o (Table.mem_rows_iff.2 ho)
    · rw [hnone] at ho
      cases ho

/-! ## The encryption that is written -/

/-- The encryption that a call gives to the row that it writes, if it gives one. A completion with the
zero encryption gives none, and a copy gets that of its source. -/
def Call.encryption? (s : Store) : Call → Option Encryption
  | beginNextVersion r | beginExactVersion r => some r.encryption
  | commitObject r => if r.encryption.isZero then none else some r.encryption
  | commitObjectWithSegments r => if r.commit.encryption.isZero then none else some r.commit.encryption
  | finishCopy r => (s.objectOf? r.source .committed).map fun o => .unpack o.encryption
  | _ => none

namespace Call

theorem encryption?_upload {r : BeginObject} (h : call.upload? = some r) (s : Store) :
    call.encryption? s = some r.encryption := by
  cases call <;> cases h <;> rfl

theorem encryption?_completion {r : CommitObject} (h : call.completion? = some r) (s : Store) :
    call.encryption? s = if r.encryption.isZero then none else some r.encryption := by
  cases call <;> cases h <;> rfl

/-- The encryption column of a row that a call writes: what the call gives, or else what the column
was before. -/
def encryptionColumn? (call : Call) (s : Store) (k : ObjectId) : Option Int :=
  ((call.encryption? s).map (·.pack)).or ((s.objects.find? k).map (·.encryption))

/-- A row with this column is put in its place. -/
theorem encryption_insert (h : call.encryptionColumn? s o.id = some o.encryption) :
    (s.objects.insert o).find? k = s.objects.find? k ∨
      ∀ o', (s.objects.insert o).find? k = some o' →
        call.encryptionColumn? s k = some o'.encryption := by
  rw [Table.find?_insert]
  by_cases hk : o.id = k
  · right
    intro o' ho'
    rw [if_pos hk, Option.some.injEq] at ho'
    rw [← hk, ← ho']
    exact h
  · left
    exact if_neg hk

/-- **A call leaves a row as it is, or with the encryption that it gives.** -/
theorem Effect.encryption (h : call.Effect now s s') (hs : s.WellFormed) (k : ObjectId) :
    s'.objects.find? k = s.objects.find? k ∨
      ∀ o, s'.objects.find? k = some o → call.encryptionColumn? s k = some o.encryption := by
  cases h with
  | rows hsame => exact .inl (by rw [hsame.objects])
  | started hcall _ _ =>
    refine encryption_insert ?_
    rw [encryptionColumn?, encryption?_upload hcall]
    rfl
  | stored _ _ hsame => exact .inl (by rw [hsame.objects])
  | @completed _ _ s₁ _ r _ metadata o _ hcall hcheck hpending hkept hcomplete =>
    have hrow := Table.mem_rows_iff.1 (Store.objectOf?_eq_some hpending).1
    have hcompletes : r.Completes o (r.row metadata o (s₁.segmentsOf r.stream.stream)) :=
      CommitObject.completes_row hcheck hpending
    rw [Catalog.objects_of_complete hkept hcomplete]
    refine encryption_insert ?_
    rw [hcompletes.id, hcompletes.encryption, encryptionColumn?, encryption?_completion hcall, hrow]
    by_cases hzero : r.encryption.isZero = true
    · rw [if_pos hzero, if_pos hzero]
      rfl
    · rw [if_neg hzero, if_neg hzero]
      rfl
  | @described _ r metadata o _ hcommitted =>
    have hrow := Table.mem_rows_iff.1 (Store.objectOf?_eq_some hcommitted).1
    refine encryption_insert ?_
    show ((s.objects.find? o.id).map (·.encryption)) = some o.encryption
    rw [hrow]
    rfl
  | @copied _ _ r _ hcopy _ =>
    obtain ⟨o, source, metadata, _, hcopied⟩ := Store.copied_of_ok hcopy
    have ho := hs o (Store.objectOf?_eq_some hcopied.found).1
    obtain ⟨-, hencryption⟩ :=
      ObjectRow.columns_of_view (ObjectRow.view_eq_ok_iff.1 hcopied.source_view)
    rw [hcopied.objects]
    refine encryption_insert ?_
    rw [encryptionColumn?, encryption?, hcopied.found]
    show some (Encryption.unpack o.encryption).pack = some source.encryption.pack
    rw [hencryption]
  | deleted hdeletes =>
    refine (hdeletes.find?_eq k).imp_right fun hnone o ho => ?_
    rw [hnone] at ho
    cases ho

end Call

/-! ## Runs -/

namespace Site

variable {σ : Site} {allow : Store → StreamId → Prop} {events : List Event}

/-- The encryption that an event writes into the row under a key and version, if it writes one: that
of its call, if the call changes the row. -/
def encryptionBy? (σ : Site) (k : ObjectId) (e : Event) : Option Encryption :=
  match e with
  | .call _ _ call =>
    if (σ.step e).object? k = σ.object? k then none else σ.store.bind call.encryption?
  | _ => none

/-- The encryption that events write last into the row under a key and version. -/
def lastEncryption? (k : ObjectId) : Site → List Event → Option Encryption
  | _, [] => none
  | σ, e :: events => (lastEncryption? k (σ.step e) events).or (σ.encryptionBy? k e)

/-- **The object rows of a reachable site are well formed.** -/
theorem Reachable.wellFormed (hσ : σ.Reachable allow) (hs : σ.store = some s) : s.WellFormed := by
  have hboth : s.WellFormed ∧ s.Legible :=
    hσ.of_effects (P := fun s => s.WellFormed ∧ s.Legible) ⟨.empty, .empty⟩
      (fun _ _ _ _ heffect ⟨hwell, hlegible⟩ =>
        ⟨heffect.wellFormed hwell hlegible, heffect.legible hlegible⟩) hs
  exact hboth.1

/-- The encryption column of a row after an event. -/
theorem Reachable.step_encryption (hσ : σ.Reachable allow) (e : Event)
    (ho : (σ.step e).object? k = some o) :
    ((σ.encryptionBy? k e).map (·.pack)).or ((σ.object? k).map (·.encryption)) =
      some o.encryption := by
  obtain ⟨s, hstands⟩ := hσ.stands
  obtain ⟨s', hstands', haffects⟩ := hstands.affects e
  by_cases hsame : (σ.step e).object? k = σ.object? k
  · have hnone : σ.encryptionBy? k e = none := by
      cases e with
      | call => exact if_pos hsame
      | _ => rfl
    rw [hnone, ← hsame, ho]
    rfl
  · cases haffects with
    | idle =>
      rw [hstands'.object?_eq, hstands.object?_eq] at hsame
      exact absurd rfl hsame
    | @call i now call _ _ heffect =>
      have hby : σ.encryptionBy? k (.call i now call) = call.encryption? s := by
        rw [encryptionBy?, if_neg hsame, hstands.store]
        rfl
      rw [hstands'.object?_eq, hstands.object?_eq] at hsame
      rw [hby, hstands.object?_eq]
      rw [hstands'.object?_eq] at ho
      exact (heffect.encryption (hσ.wellFormed hstands.store) k).resolve_left hsame o ho

/-- **A row has the encryption that events wrote last,** or the one from before if they wrote none. -/
theorem Reachable.run_encryption (hσ : σ.Reachable fun _ _ => True) (events : List Event)
    (ho : (σ.run events).object? k = some o) :
    ((σ.lastEncryption? k events).map (·.pack)).or ((σ.object? k).map (·.encryption)) =
      some o.encryption := by
  induction events generalizing σ with
  | nil =>
    have hrow : σ.object? k = some o := ho
    rw [hrow]
    rfl
  | cons e rest ih =>
    have hnext := ih (hσ.step fun _ _ _ _ => trivial) ho
    rw [lastEncryption?]
    cases hlast : lastEncryption? k (σ.step e) rest with
    | some written =>
      rw [hlast] at hnext
      exact hnext
    | none =>
      -- the rest writes nothing, so the row is there after this event
      rw [hlast] at hnext
      obtain ⟨o₁, ho₁, hencryption⟩ := Option.map_eq_some_iff.1 hnext
      rw [← hencryption]
      exact hσ.step_encryption e ho₁

theorem Reachable.run_any (hσ : σ.Reachable fun _ _ => True) (events : List Event) :
    (σ.run events).Reachable fun _ _ => True := by
  induction events generalizing σ with
  | nil => exact hσ
  | cons e rest ih => exact ih (hσ.step fun _ _ _ _ => trivial)

end Site

/-- **A well-formed row that can be read is read with the whole of its metadata,** and with the
encryption that its column holds. -/
theorem ObjectRow.WellFormed.readsAs {e : Encryption} (ho : o.WellFormed)
    (hencryption : o.encryption = e.pack) (hread : o.view?.isSome = true) : o.ReadsAs e := by
  obtain ⟨object, hview⟩ := Option.isSome_iff_exists.1 hread
  obtain ⟨hmetadata, hunpacked⟩ := ObjectRow.columns_of_view hview
  have hwhole : MetadataParts.ofMetadata object.metadata = o.metadata := by
    rw [hmetadata]
    exact ho.metadata.ofMetadata_stored?
  have he : object.encryption = e := by
    rw [hunpacked, hencryption, Encryption.unpack_pack]
  refine ⟨⟨object, hview, hwhole, he⟩, fun custom system => ?_⟩
  refine ⟨_, ObjectRow.listed?_of_view? hview custom system, fun hcustom => ?_, fun hsystem => ?_⟩
  · subst hcustom
    cases system <;> exact hwhole
  · subst hsystem
    cases custom <;> exact he

namespace Site

/-- **The object rows of any run from fresh tables are well formed.** A row has the encryption that was
written last, and is read with it and with the whole of its metadata, unless it is one of a start at
the version after the greatest one, which cannot be read. A client that prepares a copy is told both
of a committed row. -/
theorem rows_well_formed (events : List Event) :
    (∀ o ∈ (fresh.run events).objects, o.WellFormed ∧
      ∃ e, fresh.lastEncryption? o.id events = some e ∧ o.encryption = e.pack ∧
        (o.Overrun ∨ o.ReadsAs e)) ∧
    ∀ (h : Handle) (b : BeginCopy) (source : CopySource),
      (((fresh.run events).catalog h).run (Catalog.beginCopy b)).1 = .ok source →
        ∃ o, (fresh.run events).object? ⟨b.location, source.version.toInt⟩ = some o ∧
          o.stream = source.stream ∧ .ofMetadata source.metadata = o.metadata ∧
          fresh.lastEncryption? o.id events = some source.encryption := by
  have hσ : (fresh.run events).Reachable fun _ _ => True := Reachable.fresh.run_any events
  obtain ⟨s, hstands⟩ := hσ.stands
  have hwell := hσ.wellFormed hstands.store
  have hlegible := hσ.legible hstands.store
  have hlast : ∀ o ∈ s.objects.rows, ∃ e, fresh.lastEncryption? o.id events = some e ∧
      o.encryption = e.pack := by
    intro o ho
    have hrow : (fresh.run events).object? o.id = some o := by
      rw [hstands.object?_eq]
      exact Table.mem_rows_iff.1 ho
    have hwritten := Reachable.run_encryption .fresh events hrow
    -- there were no rows before the first event
    have hnone : fresh.object? o.id = none := rfl
    rw [hnone, Option.map_none, Option.or_none] at hwritten
    obtain ⟨e, he, hpack⟩ := Option.map_eq_some_iff.1 hwritten
    exact ⟨e, he, hpack.symm⟩
  constructor
  · intro o ho
    rw [hstands.mem_objects] at ho
    obtain ⟨e, he, hpack⟩ := hlast o ho
    refine ⟨hwell o ho, e, he, hpack, ?_⟩
    rcases hlegible.readable o ho with hread | hover
    · exact .inr ((hwell o ho).readsAs hpack hread)
    · exact .inl hover
  · intro h b source hok
    obtain ⟨o, object, hfind, -, hview, hsource⟩ := Catalog.beginCopy_reads hstands.store hok
    have ho : o ∈ s.objects.rows := (Table.find?_eq_some_iff.1 hfind).1
    obtain ⟨e, he, hpack⟩ := hlast o ho
    have hread : o.view .fetchObject = .ok object := ObjectRow.view_eq_ok_iff.2 hview
    obtain ⟨-, -, hstream, -⟩ := ObjectRow.of_view hread
    obtain ⟨hmetadata, hencryption⟩ := ObjectRow.columns_of_view hview
    refine ⟨o, ?_, ?_, ?_, ?_⟩
    · rw [hstands.object?_eq]
      exact hfind
    · rw [hsource, hstream]
    · rw [hsource, hmetadata]
      exact (hwell o ho).metadata.ofMetadata_stored?
    · rw [hsource, he, hencryption, hpack, Encryption.unpack_pack]

end Site

/-! ### An upload whose completion overrides what its start gave -/

namespace Sample

/-- The completion of an upload with other metadata, another cipher suite and a negative block size. -/
def rewrap : CommitObject where
  stream := identity 1 1
  encryption := ⟨200, -7⟩
  overrideMetadata := true
  metadata := ⟨some [1], some [2], some [3]⟩

/-- The upload. -/
def rewrapped : List Event :=
  .opening {} :: [begin (identity 1 1), .commitObject rewrap].map (.call 0 moment)

end Sample

theorem Sample.rows_well_formed_rewrapped :
    ∃ h ∈ (Site.fresh.run rewrapped).handles, ∃ source,
      (((Site.fresh.run rewrapped).catalog h).run
        (Catalog.beginCopy ⟨(identity 1 1).location, none⟩)).1 = .ok source ∧
      source.encryption = ⟨200, -7⟩ ∧ source.metadata = some ⟨[1], [2], [3]⟩ := by
  have hget := getElem?_handles (σ := Site.fresh.run rewrapped) (by decide +kernel)
  obtain ⟨source, hok⟩ : ∃ source, (((Site.fresh.run rewrapped).catalog
      (handleOf (Site.fresh.run rewrapped))).run
        (Catalog.beginCopy ⟨(identity 1 1).location, none⟩)).1 = .ok source :=
    Except.exists_eq_ok (by decide +kernel)
  have hrows : ∀ o ∈ (Site.fresh.run rewrapped).objects,
      o.metadata = rewrap.metadata ∧
        Site.fresh.lastEncryption? o.id rewrapped = some rewrap.encryption := by decide +kernel
  obtain ⟨s, hstands⟩ := Site.stands_fresh.run rewrapped
  obtain ⟨o, ho, -, hmetadata, hlast⟩ := (Site.rows_well_formed rewrapped).2 _ _ source hok
  rw [hstands.object?_eq, Table.find?_eq_some_iff] at ho
  obtain ⟨hgiven, hwritten⟩ := hrows o (hstands.mem_objects.2 ho.1)
  refine ⟨_, List.mem_of_getElem? hget, source, hok, ?_, ?_⟩
  · exact Option.some.inj (hlast.symm.trans hwritten)
  · rw [← MetadataParts.stored?_ofMetadata source.metadata, hmetadata, hgiven]
    rfl

end ObjectCatalog
