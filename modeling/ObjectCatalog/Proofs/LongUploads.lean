import ObjectCatalog.Proofs.Completions
import ObjectCatalog.Proofs.Storing
import ObjectCatalog.Proofs.Versions

/-!
# Uploads of many segments

An upload takes as many segments as there are positions, and is completed with all of them. The number
of segments that the object says it has is a 32-bit one all the same.

* `Site.run_inlined`: **inline segments in order are all stored,** one call after the other.
* `Store.Uploads`: tables in which one upload was completed, and nothing else happened.
* `Site.Reachable.long_upload`: **an upload can be completed with any number of segments** that the
  indexes of a part are enough for.
-/

namespace ObjectCatalog

open Store

variable {s : Store} {o : ObjectRow} {stream : ObjectStream} {allow : Store → StreamId → Prop}

/-! ## Segments along a part -/

/-- A place in part 0. -/
def Position.along (i : Nat) : Position := ⟨0, .ofNat i⟩

theorem Position.column_along {i : Nat} (hi : i < 4294967296) : (along i).column = i := by
  have hpart : (along i).part ≤ maxPart := UInt32.le_iff_toNat_le.2 (Nat.zero_le _)
  have hindex : (along i).index.toNat = i := UInt32.toNat_ofNat_of_lt' hi
  have hencode : (along i).encode = 0 * 4294967296 + (along i).index.toNat := rfl
  rw [column_of_le hpart, hencode, hindex, Nat.zero_mul, Nat.zero_add]

namespace CommitInlineSegment

/-- An inline segment without data, at an index of part 0. -/
def blank (stream : ObjectStream) (i : Nat) : CommitInlineSegment where
  stream := stream
  position := .along i
  keyNonce := [0]
  key := [0]
  plainOffset := 0
  plainSize := 0
  inlineData := []

theorem check_blank (hcheck : stream.check = .ok ()) (i : Nat) : (blank stream i).check = .ok () := by
  have hstream : (blank stream i).stream.check = .ok () := hcheck
  unfold check
  rw [hstream]
  rfl

/-- The rows of such segments at the first indexes. -/
def blankRows (stream : ObjectStream) (now : Instant) (o : ObjectRow) (n : Nat) : List SegmentRow :=
  (List.range n).map fun i => (blank stream i).row now o

variable (stream : ObjectStream) (now : Instant) (o : ObjectRow) (n : Nat)

theorem id_blank (i : Nat) : ((blank stream i).row now o).id =
    ⟨stream.stream, (Position.along i).column⟩ := by
  simp only [id_row, blank]

theorem places_blankRows :
    (blankRows stream now o n).map (·.place) = (List.range n).map Position.along := by
  rw [blankRows, List.map_map]
  refine List.map_congr_left fun i _ => ?_
  simp only [Function.comp_apply, SegmentRow.place, row, blank, Position.ofColumn_column]

theorem of_mem_blankRows (r : SegmentRow) (hr : r ∈ blankRows stream now o n) :
    r.stream = stream.stream ∧ r.place.part = 0 := by
  have hplace := List.mem_map_of_mem (f := (·.place)) hr
  rw [places_blankRows] at hplace
  obtain ⟨i, -, hplace⟩ := List.mem_map.1 hplace
  obtain ⟨j, -, rfl⟩ := List.mem_map.1 hr
  have hid := id_blank stream now o j
  exact ⟨congrArg SegmentId.stream hid, (congrArg Position.part hplace).symm⟩

/-- Segments at ascending indexes are in order. -/
theorem ascending_blankRows {n : Nat} (hn : n ≤ 4294967296) :
    Ascending SegmentRow.id (blankRows stream now o n) := by
  refine List.pairwise_map.2 (List.pairwise_lt_range.imp_of_mem fun {i j} _ hj hlt => ?_)
  have hj := List.mem_range.1 hj
  -- within one stream segments are in the order of their columns
  have horder : ∀ p q : Int, compare p q = .lt →
      compare (⟨stream.stream, p⟩ : SegmentId) ⟨stream.stream, q⟩ = .lt := by
    intro p q hpq
    have hthen : compare (⟨stream.stream, p⟩ : SegmentId) ⟨stream.stream, q⟩ =
        (compare stream.stream stream.stream).then (compare p q) := rfl
    have hself : compare stream.stream stream.stream = .eq := Std.ReflCmp.compare_self
    rw [hthen, hself, hpq]
    rfl
  rw [id_blank, id_blank, Position.column_along (by omega), Position.column_along (by omega)]
  exact horder _ _ (Std.compare_eq_lt.2 (Int.ofNat_lt.2 hlt))

end CommitInlineSegment

/-! ## Storing one after the other -/

/-- A pending object is looked for among the object rows only. -/
theorem Store.pending_putSegments (s : Store) (rows : List SegmentRow) (stream : ObjectStream) :
    (s.putSegments rows).pending stream = s.pending stream := by
  unfold pending objectOf?
  rfl

theorem Store.pending_of_pendingForCommit (h : s.pendingForCommit stream = .ok o) :
    s.pending stream = .ok o := by
  unfold pendingForCommit at h
  unfold pending
  cases hfound : s.objectOf? stream .pending with
  | none =>
    rw [hfound] at h
    cases h
  | some row =>
    rw [hfound] at h
    exact h

namespace Site

variable {σ : Site} {i : Nat} {h : Handle}

/-- A handle that leaves only tables is put back as it was. -/
theorem put_store (hget : σ.handles[i]? = some h) (store : Option Store) :
    σ.put i h { σ.catalog h with store } h.scans = { σ with store } := by
  obtain ⟨hi, rfl⟩ := List.getElem?_eq_some_iff.1 hget
  unfold put
  dsimp only [catalog]
  rw [List.set_getElem_self hi]

/-- **An inline segment in order is stored for a pending object,** and nothing else changes. -/
theorem step_inlined (hstore : σ.store = some s) (hget : σ.handles[i]? = some h)
    {r : CommitInlineSegment} (hcheck : r.check = .ok ()) (hpending : s.pending r.stream = .ok o)
    (now : Instant) : σ.step (.call i now (.commitInlineSegment r)) =
      { σ with store := some (s.putSegments [r.row now o]) } := by
  have hself : (σ.catalog h).on s = σ.catalog h := by
    unfold catalog Catalog.on
    rw [hstore]
  have hacts : Catalog.Acts (σ.catalog h) s (Catalog.commitInlineSegment now r) (.ok ()) s.nodes
      h.cache (·.insert (r.row now o)) := by
    rw [Catalog.commitInlineSegment_eq]
    exact (Catalog.acts_lift hcheck).bind (Catalog.acts_putRow hpending _)
  have hrun := hacts s.segments
  change ((σ.catalog h).on s).run _ = _ at hrun
  rw [hself] at hrun
  have hleave : (Call.commitInlineSegment r).leave now (σ.catalog h) =
      { σ.catalog h with store := some (s.putSegments [r.row now o]) } := congrArg Prod.snd hrun
  rw [step_call hget, hleave, put_store hget]

/-- **Inline segments in order are all stored,** one call after the other. -/
theorem run_inlined (hstore : σ.store = some s) (hget : σ.handles[i]? = some h)
    (hpending : s.pending stream = .ok o) {requests : List CommitInlineSegment}
    (hrequests : ∀ r ∈ requests, r.stream = stream ∧ r.check = .ok ()) (now : Instant) :
    σ.run (requests.map fun r => .call i now (.commitInlineSegment r)) =
      { σ with store := some (s.putSegments (requests.map (·.row now o))) } := by
  induction requests generalizing σ s with
  | nil =>
    cases σ
    cases hstore
    rfl
  | cons r rest ih =>
    obtain ⟨hstream, hcheck⟩ := hrequests r List.mem_cons_self
    have hrest := fun r hr => hrequests r (List.mem_cons_of_mem _ hr)
    have hnext : (s.putSegments [r.row now o]).pending stream = .ok o := by
      rw [Store.pending_putSegments]
      exact hpending
    rw [List.map_cons, run, List.foldl_cons, step_inlined hstore hget hcheck (hstream ▸ hpending)]
    exact ih (s := s.putSegments [r.row now o]) rfl hget hnext hrest

/-- Calls that give no stream id to a new object are admitted under any condition. -/
theorem admitsAll_of_none {events : List Event} (h : ∀ e ∈ events, e.newStream? = none) :
    AdmitsAll allow σ events := by
  induction events generalizing σ with
  | nil => trivial
  | cons e rest ih =>
    refine ⟨fun x hx => ?_, ih fun e he => h e (List.mem_cons_of_mem _ he)⟩
    rw [h e List.mem_cons_self] at hx
    cases hx

end Site

/-! ## Completing a long upload -/

/-- An upload is completed, and besides its row and its segments nothing is new. -/
structure Store.Uploads (stream : ObjectStream) (s s' : Store) : Prop where
  row : ∃ row, s'.objects = s.objects.insert row ∧ row.isOf stream = true ∧
    row.hasStatus .committed = true
  segments : ∀ y ≠ stream.stream, s'.segmentsOf y = s.segmentsOf y
  copies : s'.copies = s.copies

namespace Store.Uploads

variable {s' : Store} (h : Uploads stream s s')

include h

/-- The object can be found. -/
theorem exists_committed : ∃ row, s'.objectOf? stream .committed = some row := by
  obtain ⟨row, hobjects, hof, hcommitted⟩ := h.row
  have hidentity := hof
  rw [ObjectRow.isOf, decide_eq_true_eq] at hidentity
  obtain ⟨hlocation, hversion, -⟩ := hidentity
  have hid : row.id = ⟨stream.location, stream.version.toInt⟩ := by
    rw [ObjectRow.id, hlocation, hversion]
  refine ⟨row, ?_⟩
  rw [objectOf?, ← hid, hobjects, Table.find?_insert, if_pos rfl, Option.filter_some_pos]
  rw [hof, hcommitted]
  rfl

/-- A row of objects is the one of the upload, or was there before. -/
theorem of_mem_objects {o : ObjectRow} (ho : o ∈ s'.objects.rows) :
    o.location = stream.location ∧ o.stream = stream.stream ∨ o ∈ s.objects.rows := by
  obtain ⟨row, hobjects, hof, -⟩ := h.row
  rw [ObjectRow.isOf, decide_eq_true_eq] at hof
  rw [hobjects] at ho
  rcases Table.mem_insert.1 ho with rfl | ⟨ho, -⟩
  · exact .inl ⟨hof.1, hof.2.2⟩
  · exact .inr ho

/-- Other stream ids are as fresh as they were. -/
theorem lacks {y : StreamId} (hy : y ≠ stream.stream) (hlacks : s.Lacks y) : s'.Lacks y := by
  obtain ⟨hobjects, hsegments, hcopies⟩ := hlacks
  refine ⟨fun o ho => ?_, fun r hr heq => ?_, h.copies ▸ hcopies⟩
  · rcases h.of_mem_objects ho with ⟨-, hstream⟩ | ho
    · exact hstream.trans_ne hy.symm
    · exact hobjects o ho
  · have hmem := mem_segmentsOf.2 ⟨hr, heq⟩
    rw [h.segments y hy] at hmem
    exact hsegments r (mem_segmentsOf.1 hmem).1 heq

/-- Other keys have as much room as they had. -/
theorem hasRoom {l : Location} (hl : l ≠ stream.location) (hroom : s.HasRoom l) : s'.HasRoom l := by
  intro o ho
  obtain ⟨ho, heq⟩ := mem_versionsOf.1 ho
  rcases h.of_mem_objects ho with ⟨hlocation, -⟩ | ho
  · exact absurd (heq.symm.trans hlocation) hl
  · exact hroom o (mem_versionsOf.2 ⟨ho, heq⟩)

end Store.Uploads

/-- Rows that are stored, and stored again with their offsets, leave those of other streams. -/
theorem Store.row?_putSegments_withOffsets {rows : List SegmentRow} {y : StreamId}
    (hasc : Ascending SegmentRow.id rows) (hothers : ∀ r ∈ rows, r.stream ≠ y) (p : Int) :
    ((s.putSegments rows).putSegments (withOffsets 0 rows)).row? y p = s.row? y p := by
  have hnodup : (rows.map (·.id)).Nodup :=
    hasc.nodup.map_on fun _ hr _ hk heq => hasc.eq_of_key_eq hr hk heq
  have hlaid : ((withOffsets 0 rows).map (·.id)).Nodup := by rwa [map_withOffsets fun _ _ => rfl]
  have hlaidOthers : ∀ r ∈ withOffsets 0 rows, r.stream ≠ y := by
    intro r hr
    obtain ⟨k, hk, _, rfl⟩ := mem_withOffsets hr
    exact hothers k hk
  rw [row?_putSegments_of_ne hlaid hlaidOthers, row?_putSegments_of_ne hnodup hothers]

/-- Segments of one part keep the part rule. -/
theorem Parts.allowed_of_one {rows : List SegmentRow} {part : UInt32}
    (hrows : ∀ r ∈ rows, r.place.part = part) (least : Int) {limit : Nat} (hlimit : 0 < limit) :
    Parts.Allowed rows least limit := by
  have hnumbers : ∀ p ∈ numbers rows, p = part := by
    intro p hp
    obtain ⟨r, hr, rfl⟩ := mem_numbers.1 hp
    exact hrows r hr
  constructor
  case few =>
    have hone : (numbers rows).length ≤ [part].length :=
      ((List.nodup_dedup _).subperm fun p hp => List.mem_singleton.2 (hnumbers p hp)).length_le
    exact hone.trans hlimit
  case large =>
    rintro p hp ⟨higher, hhigher, hlt⟩
    rw [hnumbers p hp, hnumbers higher hhigher] at hlt
    exact absurd hlt (UInt32.lt_irrefl _)

namespace Site

variable {σ : Site} {i : Nat} {h : Handle}

/-- **A pending object whose parts keep the rule is completed,** and nothing else changes. -/
theorem Reachable.step_completed (hσ : σ.Reachable allow) (hs : σ.store = some s)
    (hget : σ.handles[i]? = some h) (hcheck : stream.check = .ok ()) (ho : o ∈ s.objects.rows)
    (hof : o.isOf stream = true) (hpending : o.hasStatus .pending = true)
    (hallowed : Parts.Allowed (s.segmentsOf stream.stream) h.settings.minPartSize
      h.settings.maxParts) (now : Instant) :
    σ.step (.call i now (.commitObject { stream })) =
      { σ with store := some { s.putSegments (withOffsets 0 (s.segmentsOf stream.stream)) with
        objects := s.objects.insert
          (CommitObject.row { stream } none o (s.segmentsOf stream.stream)) } } := by
  have hall := hσ.sane hs
  have hsizes : ∀ k ∈ s.segmentsOf stream.stream, k.hasReadableSizes = true := fun k hk =>
    (SegmentRow.isReadable_iff.1 (hall k (mem_segmentsOf.1 hk).1).readable).2
  have hrequest : ({ stream } : CommitObject).check = .ok none := by
    unfold CommitObject.check
    dsimp only
    rw [hcheck]
    rfl
  obtain ⟨hfound, hversion⟩ := (hσ.legible hs).pendingForCommit ho hof hpending
  obtain ⟨object, hcomplete⟩ := complete_eq s h.settings { stream } none
    (Option.isSome_of_eq_some hversion) hsizes
  have hparts : Parts.check (s.segmentsOf stream.stream) h.settings.minPartSize
      h.settings.maxParts = .ok () := by
    rcases Parts.check_cases (hall.sorted stream.stream) h.settings.minPartSize
        h.settings.maxParts with ⟨hok, -⟩ | ⟨why, -, hrefused⟩
    · exact hok
    · exact absurd hallowed hrefused.not_allowed
  have hrun := Catalog.run_commitObject (c := σ.catalog h) hs hall { stream }
  have hsettings : (σ.catalog h).settings = h.settings := rfl
  rw [hsettings, Store.commitObject_of_pending hrequest hfound, hcomplete, hparts] at hrun
  have hleave : (Call.commitObject { stream }).leave now (σ.catalog h) = _ := congrArg Prod.snd hrun
  rw [step_call hget, hleave]
  exact put_store hget _

/-- Segments along a part can be stored for a pending object. -/
theorem Reachable.store_blankRows (hσ : σ.Reachable allow) (hs : σ.store = some s)
    (hget : σ.handles[i]? = some h) (hcheck : stream.check = .ok ())
    (hpending : s.pending stream = .ok o) (n : Nat) (now : Instant) :
    Reachable allow
      { σ with store := some (s.putSegments (CommitInlineSegment.blankRows stream now o n)) } := by
  have hchecked : ∀ r ∈ (List.range n).map (CommitInlineSegment.blank stream),
      r.stream = stream ∧ r.check = .ok () := by
    intro r hr
    obtain ⟨i, -, rfl⟩ := List.mem_map.1 hr
    exact ⟨rfl, CommitInlineSegment.check_blank hcheck i⟩
  have hrows : ((List.range n).map (CommitInlineSegment.blank stream)).map (·.row now o) =
      CommitInlineSegment.blankRows stream now o n := List.map_map
  rw [← hrows, ← run_inlined hs hget hpending hchecked now]
  refine hσ.run (admitsAll_of_none fun e he => ?_)
  obtain ⟨r, -, rfl⟩ := List.mem_map.1 he
  rfl

/-- **An upload can be completed with any number of segments** that the indexes of a part are enough
for. -/
theorem Reachable.long_upload (hσ : σ.Reachable allow) (hs : σ.store = some s)
    (hget : σ.handles[i]? = some h) (hlimit : 0 < h.settings.maxParts)
    (hcheck : stream.check = .ok ()) (ho : o ∈ s.objects.rows) (hof : o.isOf stream = true)
    (hpending : o.hasStatus .pending = true) (hnone : s.segmentsOf stream.stream = []) {n : Nat}
    (hn : n ≤ 4294967296) (now : Instant) :
    ∃ σ' : Site, σ'.Reachable allow ∧ σ'.handles = σ.handles ∧ ∃ s', σ'.store = some s' ∧
      (s'.segmentsOf stream.stream).map (·.place) = (List.range n).map Position.along ∧
      Store.Uploads stream s s' := by
  obtain ⟨hfound, -⟩ := (hσ.legible hs).pendingForCommit ho hof hpending
  have hσ₁ := hσ.store_blankRows hs hget hcheck (Store.pending_of_pendingForCommit hfound) n now
  have hasc := CommitInlineSegment.ascending_blankRows stream now o hn
  have hplaces := CommitInlineSegment.places_blankRows stream now o n
  have hrow := CommitInlineSegment.of_mem_blankRows stream now o n
  generalize CommitInlineSegment.blankRows stream now o n = rows at hσ₁ hasc hplaces hrow
  have hstored : (s.putSegments rows).segmentsOf stream.stream = rows :=
    segmentsOf_putSegments hasc (fun r hr => (hrow r hr).1) fun r hr =>
      absurd (hnone ▸ hr) List.not_mem_nil
  have hallowed : Parts.Allowed ((s.putSegments rows).segmentsOf stream.stream)
      h.settings.minPartSize h.settings.maxParts :=
    hstored.symm ▸ Parts.allowed_of_one (fun r hr => (hrow r hr).2) _ hlimit
  have hσ₂ := hσ₁.step (e := .call i now (.commitObject { stream })) nofun
  rw [hσ₁.step_completed rfl hget hcheck ho hof hpending hallowed now, hstored] at hσ₂
  refine ⟨_, hσ₂, rfl, _, rfl, ?_, ⟨_, rfl, hof, ObjectRow.hasStatus_iff.2 rfl⟩,
    fun y hy => segmentsOf_congr fun p => ?_, rfl⟩
  · have hlaid := segmentsOf_layOut (s.putSegments rows) stream.stream
    rw [hstored] at hlaid
    rw [← hplaces, ← map_withOffsets (fun _ _ => rfl) 0 rows]
    exact congrArg (List.map SegmentRow.place) hlaid
  · exact row?_putSegments_withOffsets hasc (fun r hr => (hrow r hr).1.trans_ne hy.symm) p

end Site

end ObjectCatalog
