import ObjectCatalog.Proofs.Effects

/-!
# Rows that can be read

Columns hold integers of any size, and readers want them to fit. Every object row that a run leaves
can be read, but for the pending row of a start at the version after the greatest one, which stays
although it cannot be read back.

* `Object.entry`, `Entry.narrow`: how a listing shows an object, with all its columns or without some.
* `ObjectRow.Overrun`: the rows that cannot be read.
* `Call.Effect.legible`: each effect leaves rows of these two kinds.
* `Site.Reachable.legible`: **so do the calls of any run.**
-/

namespace ObjectCatalog

/-! ## Objects as listings show them -/

/-- The line of an object under its full key, with all columns. -/
def Object.entry (o : Object) : Entry where
  key := o.stream.location.key
  version := o.stream.version
  stream := o.stream.stream
  status := o.status
  createdAt := some o.createdAt
  expiresAt := o.expiresAt
  segmentCount := o.segmentCount
  totalPlainSize := o.totalPlainSize
  totalEncryptedSize := o.totalEncryptedSize
  fixedSegmentSize := o.fixedSegmentSize
  encryption := o.encryption
  metadata := o.metadata

/-- A line without its metadata or without its system columns: absent or zero. -/
def Entry.narrow (custom system : Bool) (e : Entry) : Entry :=
  let e := if custom then e else { e with metadata := none }
  if system then e
  else { e with
    createdAt := none, expiresAt := none, segmentCount := 0, totalPlainSize := 0
    totalEncryptedSize := 0, fixedSegmentSize := 0, encryption := {} }

/-- The row of a start at the version after the greatest one. -/
structure ObjectRow.Overrun (o : ObjectRow) : Prop where
  pending : o.hasStatus .pending = true
  version : o.version = Store.versionBound

/-- Tables with rows that can be read, and rows of starts at the version after the greatest one. -/
structure Store.Legible (s : Store) : Prop where
  positive : ∀ o ∈ s.objects.rows, 0 < o.version
  readable : ∀ o ∈ s.objects.rows, o.view?.isSome = true ∨ o.Overrun

variable {s s' : Store} {o : ObjectRow} {object : Object}

namespace ObjectRow

/-- A row that can be read is listed as its object. -/
theorem listed?_of_view? (h : o.view? = some object) (custom system : Bool) :
    o.listed? custom system = some (object.entry.narrow custom system) := by
  unfold view? at h
  simp only [Option.bind_eq_bind, Option.bind_eq_some_iff] at h
  obtain ⟨version, hversion, status, hstatus, count, hcount, fixed, hfixed, hobject⟩ := h
  cases hobject
  unfold listed?
  rw [hversion, hstatus, hcount, hfixed]
  cases custom <;> cases system <;> rfl

theorem Overrun.int64?_eq (h : o.Overrun) : int64? o.version = none := by
  rw [h.version]
  decide

/-- The row of a start at the version after the greatest one is not listed, whichever columns are
asked for. -/
theorem Overrun.listed?_eq (h : o.Overrun) (custom system : Bool) :
    o.listed? custom system = none := by
  unfold listed?
  rw [h.int64?_eq]
  rfl

theorem Overrun.view?_eq (h : o.Overrun) : o.view? = none := by
  unfold view?
  rw [h.int64?_eq]
  rfl

theorem isSome_view?_of_view {statement : Statement} (h : o.view statement = .ok object) :
    o.view?.isSome = true := by
  unfold view at h
  cases hview : o.view? with
  | none => rw [hview] at h; cases h
  | some object => rfl

/-- Whether a row can be read is a matter of four of its columns. -/
theorem isSome_view?_congr {o' : ObjectRow} (hversion : o'.version = o.version)
    (hstatus : o'.status = o.status) (hcount : o'.segmentCount = o.segmentCount)
    (hfixed : o'.fixedSegmentSize = o.fixedSegmentSize) :
    o'.view?.isSome = o.view?.isSome := by
  unfold view?
  rw [hversion, hstatus, hcount, hfixed]
  cases int64? o.version with
  | none => rfl
  | some version =>
    cases Status.ofCode? o.status with
    | none => rfl
    | some status =>
      cases int32? o.segmentCount with
      | none => rfl
      | some count => cases int32? o.fixedSegmentSize <;> rfl

end ObjectRow

/-! ## Effects -/

namespace Store.Legible

theorem empty : Store.empty.Legible where
  positive _ ho := absurd ho List.not_mem_nil
  readable _ ho := absurd ho List.not_mem_nil

/-- Another row of such a kind is put in its place. -/
theorem insert (hs : s.Legible) (hpos : 0 < o.version) (hread : o.view?.isSome = true ∨ o.Overrun)
    (hobjects : s'.objects = s.objects.insert o) : s'.Legible := by
  have hrows : ∀ o' ∈ s'.objects.rows, o' = o ∨ o' ∈ s.objects.rows := by
    intro o' ho'
    rw [hobjects, Table.mem_insert] at ho'
    exact ho'.imp_right And.left
  refine ⟨fun o' ho' => ?_, fun o' ho' => ?_⟩
  · rcases hrows o' ho' with rfl | hold
    · exact hpos
    · exact hs.positive o' hold
  · rcases hrows o' ho' with rfl | hold
    · exact hread
    · exact hs.readable o' hold

theorem of_subset (hs : s.Legible) (hsub : ∀ o ∈ s'.objects.rows, o ∈ s.objects.rows) :
    s'.Legible :=
  ⟨fun o ho => hs.positive o (hsub o ho), fun o ho => hs.readable o (hsub o ho)⟩

end Store.Legible

/-- The version of a new upload is positive, and it can be read back or is the one after the greatest
one. -/
theorem Store.Legible.versionFor (hs : s.Legible) {r : BeginObject} {metadata : Option Metadata}
    (hcheck : r.check = .ok metadata) :
    0 < s.versionFor r.stream ∧
      ((int64? (s.versionFor r.stream)).isSome = true ∨
        s.versionFor r.stream = Store.versionBound) := by
  by_cases hnext : r.stream.version = 0
  · have hversion : s.versionFor r.stream = s.nextVersion r.stream.location := if_pos hnext
    obtain ⟨hpos, hle⟩ := Catalog.nextVersion_bounds hs.positive r.stream.location
    rw [hversion]
    refine ⟨hpos, ?_⟩
    unfold int64?
    unfold Store.versionBound at hle ⊢
    split
    · exact .inl rfl
    · right
      omega
  · have hversion : s.versionFor r.stream = r.stream.version.toInt := if_neg hnext
    rw [hversion, int64?_toInt]
    exact ⟨BeginObject.version_pos hcheck hnext, .inl rfl⟩

/-- **Each effect leaves rows that can be read,** or those of starts at the version after the greatest
one. -/
theorem Call.Effect.legible {now : Instant} {call : Call} (h : call.Effect now s s')
    (hs : s.Legible) : s'.Legible := by
  cases h with
  | rows hsame => exact hs.of_subset fun o ho => hsame.objects ▸ ho
  | @started _ _ r settings metadata _ hcheck _ =>
    obtain ⟨hpos, hread⟩ := hs.versionFor hcheck
    refine hs.insert hpos ?_ rfl
    rcases hread with hfits | hbound
    · left
      obtain ⟨version, hversion⟩ := Option.isSome_iff_exists.1 hfits
      simp [ObjectRow.view?, BeginObject.row, hversion, int32?]
    · exact .inr ⟨ObjectRow.hasStatus_iff.2 rfl, hbound⟩
  | stored _ _ hsame => exact hs.of_subset fun o ho => hsame.objects ▸ ho
  | @completed _ _ s₁ _ r settings metadata o object _ _ hpending hkept hcomplete =>
    have hpos : 0 < (r.row metadata o (s₁.segmentsOf r.stream.stream)).version :=
      hs.positive o (Store.objectOf?_eq_some hpending).1
    have hread : (r.row metadata o (s₁.segmentsOf r.stream.stream)).view?.isSome = true := by
      unfold Store.complete at hcomplete
      obtain ⟨_, -, hcomplete⟩ := Except.bind_eq_ok.1 hcomplete
      obtain ⟨_, hview, -⟩ := Except.bind_eq_ok.1 hcomplete
      exact ObjectRow.isSome_view?_of_view hview
    exact hs.insert hpos (.inl hread) (Catalog.objects_of_complete hkept hcomplete)
  | @described _ r metadata o _ hcommitted =>
    obtain ⟨hmem, -, -, hstatus⟩ := Store.objectOf?_eq_some hcommitted
    -- a committed row is none of a start
    have hread : o.view?.isSome = true := (hs.readable o hmem).resolve_right fun hover =>
      ObjectRow.not_committed_of_pending hover.pending hstatus
    have hpos : 0 < ({ o with metadata := .ofMetadata metadata } : ObjectRow).version :=
      hs.positive o hmem
    refine hs.insert hpos (.inl ?_) rfl
    rw [← hread]
    exact ObjectRow.isSome_view?_congr rfl rfl rfl rfl
  | @copied _ _ r _ hcopy _ =>
    obtain ⟨_, _, _, _, hcopied⟩ := Store.copied_of_ok hcopy
    have hread := ObjectRow.isSome_view?_of_view hcopied.object_view
    have hpos := (Catalog.nextVersion_bounds hs.positive r.location).1
    refine hs.insert ?_ (.inl ?_) hcopied.objects
    · exact hpos
    · rw [← hread]
      exact ObjectRow.isSome_view?_congr rfl rfl rfl rfl
  | deleted hdeletes =>
    refine hs.of_subset fun o ho => ?_
    rw [Table.mem_rows_iff] at ho ⊢
    rcases hdeletes.find?_eq o.id with hsame | hnone
    · rw [← hsame]
      exact ho
    · rw [hnone] at ho
      cases ho

/-- **Every object row of a reachable site can be read,** but for those of starts at the version after
the greatest one. -/
theorem Site.Reachable.legible {σ : Site} {allow : Store → StreamId → Prop}
    (hσ : σ.Reachable allow) (hs : σ.store = some s) : s.Legible :=
  hσ.of_effects Store.Legible.empty (fun _ _ _ _ heffect hbefore => heffect.legible hbefore) hs

end ObjectCatalog
