import ObjectCatalog.Proofs.Legible
import ObjectCatalog.Proofs.Parts
import ObjectCatalog.Proofs.ReadPaths
import ObjectCatalog.Proofs.Sizes

/-!
# Completing an upload

An upload is completed with the segments that its stream has by then. Only the part rule stands in
the way: a pending object that can be named can be read, and so can every number that is computed
from rows of segments.

* `Store.commitObject`: a completion, as the tables say.
* `Store.complete_eq`: only the parts decide.
* `Catalog.run_commitObject`: the call does what the tables say, and nothing when it fails.
* `Site.Reachable.parts_decide`: **a pending object is completed just when its parts keep the rule.**
-/

namespace ObjectCatalog

open Store

variable {s s₀ : Store} {c : Catalog} {o : ObjectRow} {x : StreamId}

/-! ## Segments in order -/

/-- A place before another one is of no higher part. -/
theorem Position.part_le_of_lt {p q : Position} (h : compare p q = .lt) : p.part ≤ q.part := by
  have horder : compare p q = (compare p.part q.part).then (compare p.index q.index) := rfl
  rw [horder, Ordering.then_eq_lt] at h
  rcases h with hlt | ⟨heq, -⟩
  · exact UInt32.le_of_lt (Std.compare_eq_lt.1 hlt)
  · rw [Std.LawfulEqCmp.eq_of_compare heq]
    exact UInt32.le_refl _

theorem Store.AllRows.ascending_places (hall : s.AllRows SegmentRow.Sane) (x : StreamId) :
    Ascending SegmentRow.place (s.segmentsOf x) :=
  ascending_places_of fun r hr => (hall r (mem_segmentsOf.1 hr).1).position

theorem Store.AllRows.sorted (hall : s.AllRows SegmentRow.Sane) (x : StreamId) :
    Parts.Sorted (s.segmentsOf x) :=
  (hall.ascending_places x).imp Position.part_le_of_lt

/-! ## The completed row -/

theorem isSome_int32? {v : Int} (h : -2147483648 ≤ v ∧ v ≤ 2147483647) :
    (int32? v).isSome = true := by
  rw [int32?, if_pos h]
  rfl

/-- The plain size that segments share can be read, if their sizes can. -/
theorem isSome_int32?_fixedSegmentSize {rows : List SegmentRow}
    (h : ∀ r ∈ rows, r.hasReadableSizes = true) : (int32? (fixedSegmentSize rows)).isSome = true := by
  cases rows with
  | nil => rfl
  | cons first rest =>
    have hsizes := h first List.mem_cons_self
    rw [SegmentRow.hasReadableSizes, Bool.and_eq_true] at hsizes
    unfold fixedSegmentSize
    dsimp only
    split
    · exact hsizes.2
    · rfl

/-- **The row of a completed upload can be read,** whatever its segments are. -/
theorem CommitObject.exists_view_row {r : CommitObject} {metadata : Option Metadata}
    {rows : List SegmentRow} (hversion : (int64? o.version).isSome = true)
    (hrows : ∀ r ∈ rows, r.hasReadableSizes = true) (statement : Statement) :
    ∃ object, (r.row metadata o rows).view statement = .ok object := by
  obtain ⟨version, hversion⟩ := Option.isSome_iff_exists.1 hversion
  obtain ⟨fixed, hfixed⟩ := Option.isSome_iff_exists.1 (isSome_int32?_fixedSegmentSize hrows)
  have hcount : (int32? (r.row metadata o rows).segmentCount).isSome = true := by
    refine isSome_int32? ?_
    unfold CommitObject.row
    dsimp only
    rw [Int.bmod_def]
    omega
  obtain ⟨count, hcount⟩ := Option.isSome_iff_exists.1 hcount
  have hstatus : Status.ofCode? (r.row metadata o rows).status = some .committed :=
    Status.ofCode?_code .committed
  exact ⟨_, ObjectRow.view_eq_ok.2 ⟨version, _, count, fixed, hversion, hstatus, hcount, hfixed, rfl⟩⟩

/-! ## A completion, as the tables say -/

namespace Store

/-- The completion of an upload with all its segments. -/
def commitObject (s : Store) (settings : Settings) (r : CommitObject) :
    Except Error (Object × Store) := do
  let metadata ← r.check
  let pending ← s.pendingForCommit r.stream
  s.complete settings r metadata pending (s.segmentsOf r.stream.stream)

theorem commitObject_of_check {r : CommitObject} {metadata : Option Metadata}
    (hcheck : r.check = .ok metadata) (settings : Settings) : s.commitObject settings r =
      (s.pendingForCommit r.stream >>= fun pending =>
        s.complete settings r metadata pending (s.segmentsOf r.stream.stream)) := by
  rw [commitObject, hcheck]
  rfl

theorem commitObject_of_pending {r : CommitObject} {metadata : Option Metadata}
    (hcheck : r.check = .ok metadata) (hpending : s.pendingForCommit r.stream = .ok o)
    (settings : Settings) : s.commitObject settings r =
      s.complete settings r metadata o (s.segmentsOf r.stream.stream) := by
  rw [commitObject_of_check hcheck, hpending]
  rfl

/-- The pending object of a stream identity can be read: its version is a 64-bit integer. -/
theorem Legible.pendingForCommit (hs : s.Legible) {stream : ObjectStream} (ho : o ∈ s.objects.rows)
    (hof : o.isOf stream = true) (hpending : o.hasStatus .pending = true) :
    s.pendingForCommit stream = .ok o ∧ int64? o.version = some stream.version := by
  have hidentity := hof
  rw [ObjectRow.isOf, decide_eq_true_eq] at hidentity
  obtain ⟨hlocation, hversion, -⟩ := hidentity
  have hread : int64? o.version = some stream.version := by rw [hversion, int64?_toInt]
  have hid : o.id = ⟨stream.location, stream.version.toInt⟩ := by
    rw [ObjectRow.id, hlocation, hversion]
  have hfound : s.objectOf? stream .pending = some o := by
    rw [objectOf?, ← hid, Table.mem_rows_iff.1 ho, Option.filter_some_pos]
    rw [hof, hpending]
    rfl
  have hview : o.view?.isSome = true := by
    refine (hs.readable o ho).resolve_right fun hover => ?_
    rw [hover.int64?_eq] at hread
    cases hread
  obtain ⟨object, hobject⟩ := Option.isSome_iff_exists.1 hview
  refine ⟨?_, hread⟩
  unfold Store.pendingForCommit
  rw [hfound]
  dsimp only
  unfold ObjectRow.view
  rw [hobject]
  rfl

/-- **Only the parts decide whether an upload is completed,** if its rows can be read. -/
theorem complete_eq (s : Store) (settings : Settings) (r : CommitObject) (metadata : Option Metadata)
    {rows : List SegmentRow} (hversion : (int64? o.version).isSome = true)
    (hrows : ∀ r ∈ rows, r.hasReadableSizes = true) :
    ∃ object, s.complete settings r metadata o rows =
      (Parts.check rows settings.minPartSize settings.maxParts).map fun _ =>
        (object, { s.putSegments (withOffsets 0 rows) with
          objects := s.objects.insert (r.row metadata o rows) }) := by
  obtain ⟨object, hobject⟩ : ∃ object, (r.row metadata o rows).view .commitObject = .ok object :=
    CommitObject.exists_view_row hversion hrows .commitObject
  refine ⟨object, ?_⟩
  unfold complete
  dsimp only
  rw [hobject]
  cases Parts.check rows settings.minPartSize settings.maxParts <;> rfl

end Store

namespace Catalog

/-- **A completion does what the tables say,** and nothing when it fails. -/
theorem run_commitObject (hstore : c.store = some s) (hall : s.AllRows SegmentRow.Sane)
    (r : CommitObject) : c.run (commitObject r) =
      match s.commitObject c.settings r with
      | .ok (object, s') => (.ok object, { c with store := some s' })
      | .error e => (.error e, c) := by
  have hsizes : ∀ k ∈ s.segmentsOf r.stream.stream, k.hasReadableSizes = true := fun k hk =>
    (SegmentRow.isReadable_iff.1 (hall k (mem_segmentsOf.1 hk).1).readable).2
  unfold commitObject
  rw [run_lift_bind]
  cases hcheck : r.check with
  | error e =>
    have hfails : s.commitObject c.settings r = .error e := by
      rw [Store.commitObject, hcheck]
      rfl
    rw [hfails]
  | ok metadata =>
    dsimp only
    rw [run_tables_bind hstore, run_lift_bind]
    cases hpending : s.pendingForCommit r.stream with
    | error e => rw [Store.commitObject_of_check hcheck, hpending]; rfl
    | ok pending =>
      dsimp only
      rw [Store.commitObject_of_pending hcheck hpending, run_lift_bind,
        SegmentRow.require_of_forall hsizes]
      dsimp only
      rw [run_get_bind, run_lift_bind]
      cases s.complete c.settings r metadata pending (s.segmentsOf r.stream.stream) <;> rfl

theorem run_commitObject_eq_ok (hstore : c.store = some s) (hall : s.AllRows SegmentRow.Sane)
    {r : CommitObject} {object : Object} : (c.run (commitObject r)).1 = .ok object ↔
      ∃ s', s.commitObject c.settings r = .ok (object, s') ∧
        (c.run (commitObject r)).2.store = some s' := by
  rw [run_commitObject hstore hall]
  cases s.commitObject c.settings r with
  | error e => exact iff_of_false (by nofun) (by rintro ⟨_, h, -⟩; cases h)
  | ok out =>
    constructor
    · intro h
      cases h
      exact ⟨out.2, rfl, rfl⟩
    · rintro ⟨s', h, -⟩
      cases h
      rfl

end Catalog

namespace Site

variable {σ : Site} {allow : Store → StreamId → Prop}

/-- The segments of a stream in position order. -/
def segmentsOf (σ : Site) (x : StreamId) : List SegmentRow := σ.store.elim [] (·.segmentsOf x)

theorem Stands.segmentsOf_eq (hσ : σ.Stands s) (x : StreamId) : σ.segmentsOf x = s.segmentsOf x := by
  unfold segmentsOf
  rw [hσ.store]
  rfl

/-- **A pending object is completed just when its parts keep the rule,** under the limits of the
handle, whatever these are. Otherwise the request is refused for the reason that the parts give, and
nothing has happened. -/
theorem Reachable.parts_decide (hσ : σ.Reachable allow) (h : Handle) {r : CommitObject}
    {metadata : Option Metadata} (hcheck : r.check = .ok metadata) (ho : o ∈ σ.objects)
    (hof : o.isOf r.stream = true) (hpending : o.hasStatus .pending = true) :
    let rows := σ.segmentsOf r.stream.stream
    let least := h.settings.minPartSize
    let limit := h.settings.maxParts
    ((∃ object, ((σ.catalog h).run (Catalog.commitObject r)).1 = .ok object) ↔
        Parts.Allowed rows least limit) ∧
      (¬ Parts.Allowed rows least limit → ∃ why, Parts.Refused rows least limit why ∧
        (σ.catalog h).run (Catalog.commitObject r) = (.error (.rejected why), σ.catalog h)) := by
  obtain ⟨s, hstands⟩ := hσ.stands
  have hall := hσ.sane hstands.store
  have hsizes : ∀ k ∈ s.segmentsOf r.stream.stream, k.hasReadableSizes = true := fun k hk =>
    (SegmentRow.isReadable_iff.1 (hall k (mem_segmentsOf.1 hk).1).readable).2
  obtain ⟨hfound, hversion⟩ :=
    (hσ.legible hstands.store).pendingForCommit (hstands.mem_objects.1 ho) hof hpending
  obtain ⟨object, hcomplete⟩ :=
    complete_eq s (σ.catalog h).settings r metadata (Option.isSome_of_eq_some hversion) hsizes
  have hrun := Catalog.run_commitObject (c := σ.catalog h) hstands.store hall r
  rw [Store.commitObject_of_pending hcheck hfound, hcomplete] at hrun
  dsimp only
  rw [hstands.segmentsOf_eq, hrun]
  rcases Parts.check_cases (hall.sorted r.stream.stream) (σ.catalog h).settings.minPartSize
      (σ.catalog h).settings.maxParts with ⟨hok, hallowed⟩ | ⟨why, herror, hrefused⟩
  · rw [hok]
    exact ⟨iff_of_true ⟨object, rfl⟩ hallowed, fun hnot => absurd hallowed hnot⟩
  · rw [herror]
    refine ⟨iff_of_false (fun hok => ?_) hrefused.not_allowed, fun _ => ⟨why, hrefused, rfl⟩⟩
    obtain ⟨_, hok⟩ := hok
    cases hok

end Site

/-! ### An upload of two parts -/

namespace Sample

/-- A remote segment of one piece at a position. -/
def cut (o : ObjectStream) (position : Position) (plainSize : Int32) : Call :=
  .commitSegment {
    stream := o, position, rootPiece := .ofNat 3, keyNonce := [1], key := [2], plainOffset := 0
    plainSize, encryptedSize := 7, redundancy := { algorithm := 1 }, pieces := [⟨0, .ofNat 9⟩] }

/-- An upload with two segments in part 0 and one in part 7, and two handles. On the first a part must
have ten bytes, on the second eleven. -/
def parted : Site :=
  Site.fresh.run ([.opening { minPartSize := 10, maxParts := 2 }, .opening { minPartSize := 11 }] ++
    [begin (identity 1 1), cut (identity 1 1) ⟨7, 3⟩ 1, cut (identity 1 1) ⟨0, 1⟩ 5,
      cut (identity 1 1) ⟨0, 0⟩ 5].map (.call 0 moment))

theorem reachable_parted : parted.Reachable Lacks := Site.Reachable.fresh.run (by decide +kernel)

/-- The completion of that upload. -/
def closing : CommitObject := { stream := identity 1 1 }

end Sample

/-- One handle completes the upload, the other refuses to. -/
theorem Sample.parts_decide_parted : ∃ h ∈ parted.handles, ∃ h' ∈ parted.handles,
    (∃ object, ((parted.catalog h).run (Catalog.commitObject closing)).1 = .ok object) ∧
      ∃ why, (parted.catalog h').run (Catalog.commitObject closing) =
        (.error (.rejected why), parted.catalog h') := by
  obtain ⟨metadata, hcheck⟩ : ∃ metadata, closing.check = .ok metadata :=
    Except.exists_eq_ok (by decide +kernel)
  obtain ⟨o, ho, hof, hpending⟩ : ∃ o ∈ parted.objects, o.isOf closing.stream = true ∧
      o.hasStatus .pending = true := by decide +kernel
  have hhandles : (∃ h ∈ parted.handles, Parts.Allowed (parted.segmentsOf closing.stream.stream)
        h.settings.minPartSize h.settings.maxParts) ∧
      ∃ h ∈ parted.handles, ¬ Parts.Allowed (parted.segmentsOf closing.stream.stream)
        h.settings.minPartSize h.settings.maxParts := by decide +kernel
  obtain ⟨⟨h, hh, hallowed⟩, h', hh', hnot⟩ := hhandles
  have hdecide := fun h => Site.Reachable.parts_decide reachable_parted h hcheck ho hof hpending
  obtain ⟨why, -, hrun⟩ := (hdecide h').2 hnot
  exact ⟨h, hh, h', hh', (hdecide h).1.2 hallowed, why, hrun⟩

end ObjectCatalog
