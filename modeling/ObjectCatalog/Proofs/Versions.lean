import ObjectCatalog.Proofs.CopyReads
import ObjectCatalog.Proofs.Effects
import ObjectCatalog.Proofs.Listings

/-!
# Versions that are handed out

Uploads and copies can be given the next version of their key. It is one more than the highest version
of all rows of the key, pending ones too, so it is new as long as no row is removed. Versions are
64-bit integers: a key with a row at the greatest one has no room left.

* `Store.IsNext`, `Store.HasRoom`: the version that comes next, and whether it can be read.
* `Store.isNext_nextVersion`, `Store.nextVersion_of_full`: **what a statement computes.**
* `Catalog.run_start`: a start at the next version, step by step.
* `Site.handedOut`, `Site.Retains`: the versions that a run hands out, and runs that remove no row.
* `Site.Stands.handedOut_above`: **every version is above all rows that are there before.**
* `Site.Reachable.next_version_new`: starts, copies and runs at a reachable site.
-/

namespace ObjectCatalog

open Store

variable {s s' : Store} {l : Location} {o : ObjectRow} {object : Object}

/-! ## The next version -/

namespace Store

/-- The version that comes next for a key: one more than the highest of its rows in any status, or 1
when it has none. -/
structure IsNext (s : Store) (l : Location) (v : Int) : Prop where
  above : ∀ o ∈ s.versionsOf l, o.version < v
  least : s.versionsOf l = [] ∧ v = 1 ∨ ∃ o ∈ s.versionsOf l, v = o.version + 1

/-- Whether the rows of a key are all below the greatest version. -/
def HasRoom (s : Store) (l : Location) : Prop :=
  ∀ o ∈ s.versionsOf l, o.version < Int64.maxValue.toInt

instance (s : Store) (l : Location) : Decidable (s.HasRoom l) := by
  unfold HasRoom; infer_instance

theorem foldl_max_mem (v : Int) (vs : List Int) : vs.foldl max v ∈ v :: vs := by
  induction vs generalizing v with
  | nil => exact List.mem_cons_self
  | cons u vs ih =>
    rw [List.foldl_cons]
    rcases List.mem_cons.1 (ih (max v u)) with hmax | hmem
    · rw [hmax]
      rcases max_choice v u with hv | hu
      · rw [hv]
        exact List.mem_cons_self
      · rw [hu]
        exact List.mem_cons_of_mem _ List.mem_cons_self
    · exact List.mem_cons_of_mem _ (List.mem_cons_of_mem _ hmem)

/-- A statement adds one to the highest version, up to a bound. -/
theorem nextVersion_eq (s : Store) (l : Location) :
    (s.versionsOf l = [] ∧ s.nextVersion l = 1) ∨
      ∃ o ∈ s.versionsOf l, (∀ o' ∈ s.versionsOf l, o'.version ≤ o.version) ∧
        s.nextVersion l = min (o.version + 1) versionBound := by
  unfold nextVersion
  cases hversions : (s.versionsOf l).map (·.version) with
  | nil => exact .inl ⟨List.map_eq_nil_iff.1 hversions, rfl⟩
  | cons v vs =>
    have hmax := foldl_max_mem v vs
    rw [← hversions] at hmax
    obtain ⟨o, ho, hversion⟩ := List.mem_map.1 hmax
    refine .inr ⟨o, ho, fun o' ho' => ?_, ?_⟩
    · have hmem : o'.version ∈ v :: vs := by
        rw [← hversions]
        exact List.mem_map_of_mem ho'
      rw [hversion]
      exact le_foldl_max o'.version hmem
    · rw [hversion]

/-- **What a statement computes comes next,** if the key has room. -/
theorem isNext_nextVersion (hroom : s.HasRoom l) : s.IsNext l (s.nextVersion l) := by
  rcases s.nextVersion_eq l with ⟨hnone, hone⟩ | ⟨o, ho, hhighest, hnext⟩
  · refine ⟨fun o ho => ?_, .inl ⟨hnone, hone⟩⟩
    rw [hnone] at ho
    exact absurd ho List.not_mem_nil
  · have hbelow : o.version < 9223372036854775807 := hroom o ho
    have heq : s.nextVersion l = o.version + 1 := by
      rw [hnext]
      unfold versionBound
      omega
    refine ⟨fun o' ho' => ?_, .inr ⟨o, ho, heq⟩⟩
    have hle := hhighest o' ho'
    omega

/-- **Otherwise it is the bound, which is no 64-bit integer.** -/
theorem nextVersion_of_full (hfull : ¬ s.HasRoom l) : s.nextVersion l = versionBound := by
  obtain ⟨o, ho, hgreat⟩ : ∃ o ∈ s.versionsOf l, ¬ o.version < Int64.maxValue.toInt := by
    simpa only [HasRoom, not_forall, exists_prop] using hfull
  have hgreat : 9223372036854775807 ≤ o.version := not_lt.1 hgreat
  rcases s.nextVersion_eq l with ⟨hnone, -⟩ | ⟨o', ho', hhighest, hnext⟩
  · rw [hnone] at ho
    exact absurd ho List.not_mem_nil
  · have hle := hhighest o ho
    rw [hnext]
    unfold versionBound
    omega

theorem hasRoom_of_int64? {w : Int64} (h : int64? (s.nextVersion l) = some w) : s.HasRoom l := by
  by_contra hfull
  have hnone : int64? versionBound = none := by decide
  rw [nextVersion_of_full hfull, hnone] at h
  cases h

/-- Versions are positive, so the next one can be read if the key has room. -/
theorem exists_int64_nextVersion (hpos : ∀ o ∈ s.objects.rows, 0 < o.version)
    (hroom : s.HasRoom l) : ∃ w : Int64, int64? (s.nextVersion l) = some w := by
  have hlower := (Catalog.nextVersion_bounds hpos l).1
  have hupper : s.nextVersion l ≤ 9223372036854775807 := by
    rcases (isNext_nextVersion hroom).least with ⟨-, hone⟩ | ⟨o, ho, hnext⟩
    · omega
    · have hbelow : o.version < 9223372036854775807 := hroom o ho
      omega
  exact ⟨_, if_pos ⟨by omega, hupper⟩⟩

theorem mem_versionsOf : o ∈ s.versionsOf l ↔ o ∈ s.objects.rows ∧ o.location = l := by
  unfold versionsOf
  rw [List.mem_filter, decide_eq_true_eq]

/-- A row that is added is there. -/
theorem addObject_self (s : Store) (o : ObjectRow) :
    { o with serial := s.nextSerial } ∈ (s.addObject o).objects.rows :=
  Table.mem_insert.2 (.inl rfl)

end Store

/-- What a row and the object that it is read as have in common. -/
theorem ObjectRow.of_view {statement : Statement} (h : o.view statement = .ok object) :
    object.stream.location = o.location ∧ object.stream.version.toInt = o.version ∧
      object.stream.stream = o.stream ∧ Status.ofCode? o.status = some object.status := by
  obtain ⟨version, status, count, fixed, hversion, hstatus, -, -, rfl⟩ :=
    ObjectRow.view_eq_ok.1 h
  exact ⟨rfl, int64?_eq_some hversion, rfl, hstatus⟩

/-! ## Calls -/

namespace Catalog

variable {c : Catalog} {now : Instant} {r : BeginObject} {metadata : Option Metadata}

/-- A start at the next version of a key, step by step. -/
theorem run_start (hstore : c.store = some s) (hcheck : r.check = .ok metadata)
    (hzero : r.stream.version = 0) : c.run (beginNextVersion now r) =
      if s.objects.contains ⟨r.stream.location, s.nextVersion r.stream.location⟩ then
        (.error (.objectExists (.next r.stream.location.key)), c)
      else
        ((r.row c.settings now metadata (s.nextVersion r.stream.location)).view .beginNextVersion,
          { c with store := some (s.addObject
            (r.row c.settings now metadata (s.nextVersion r.stream.location))) }) := by
  unfold beginNextVersion
  rw [run_lift_bind, hcheck]
  dsimp only
  rw [run_reject_bind, if_neg (by simpa using hzero), run_tables_bind hstore, run_get_bind]
  split
  · next htaken => exact (if_pos htaken).symm
  · next hfree => exact (if_neg hfree).symm

/-- **With room in its key a start succeeds,** and its row is new. -/
theorem run_start_of_room (hstore : c.store = some s) (hpos : ∀ o ∈ s.objects.rows, 0 < o.version)
    (hcheck : r.check = .ok metadata) (hzero : r.stream.version = 0)
    (hroom : s.HasRoom r.stream.location) : ∃ object,
      c.run (beginNextVersion now r) = (.ok object, { c with store := some (s.addObject
        (r.row c.settings now metadata object.stream.version.toInt)) }) ∧
      object.stream.location = r.stream.location ∧ object.stream.stream = r.stream.stream ∧
      object.status = .pending ∧
      s.IsNext r.stream.location object.stream.version.toInt := by
  obtain ⟨w, hw⟩ := exists_int64_nextVersion hpos hroom
  have hfree : s.objects.contains ⟨r.stream.location, s.nextVersion r.stream.location⟩ = false := by
    rw [Table.contains, nextVersion_free hw]
    rfl
  rw [run_start hstore hcheck hzero, hfree, if_neg Bool.false_ne_true]
  cases hview : (r.row c.settings now metadata (s.nextVersion r.stream.location)).view
      .beginNextVersion with
  | error e =>
    obtain ⟨hnone, -⟩ := view_start hview
    rw [hw] at hnone
    cases hnone
  | ok object =>
    obtain ⟨hlocation, hversion, hstream, hstatus⟩ := ObjectRow.of_view hview
    have hversion : object.stream.version.toInt = s.nextVersion r.stream.location := hversion
    refine ⟨object, ?_, hlocation, hstream, (Option.some.inj hstatus).symm, ?_⟩
    · rw [hversion]
    · rw [hversion]
      exact isNext_nextVersion hroom

/-- **Without room it fails.** The first time its row stays, at a version that cannot be read. -/
theorem run_start_of_full (hstore : c.store = some s) (hcheck : r.check = .ok metadata)
    (hzero : r.stream.version = 0) (hfull : ¬ s.HasRoom r.stream.location) :
    c.run (beginNextVersion now r) =
      if s.objects.contains ⟨r.stream.location, versionBound⟩ then
        (.error (.objectExists (.next r.stream.location.key)), c)
      else
        (.error (.storage .beginNextVersion), { c with store := some (s.addObject
          (r.row c.settings now metadata versionBound)) }) := by
  have hview : (r.row c.settings now metadata versionBound).view .beginNextVersion =
    .error (.storage .beginNextVersion) := rfl
  rw [run_start hstore hcheck hzero, nextVersion_of_full hfull, hview]

/-- **A start that succeeds gets the version that comes next,** and its row is added. -/
theorem next_of_start (hstore : c.store = some s)
    (hok : (c.run (beginNextVersion now r)).1 = .ok object) :
    object.stream.location = r.stream.location ∧
      s.IsNext r.stream.location object.stream.version.toInt ∧
      ∃ s', (c.run (beginNextVersion now r)).2.store = some s' ∧ ∃ o ∈ s'.objects.rows,
        o.location = r.stream.location ∧ o.version = object.stream.version.toInt := by
  obtain ⟨metadata, hcheck, hzero⟩ : ∃ metadata, r.check = .ok metadata ∧ r.stream.version = 0 := by
    unfold beginNextVersion at hok
    obtain ⟨metadata, hcheck, hok⟩ := run_lift_bind_eq_ok.1 hok
    obtain ⟨hzero, -⟩ := run_reject_bind_eq_ok.1 hok
    exact ⟨metadata, hcheck, by simpa using hzero⟩
  rw [run_start hstore hcheck hzero] at hok ⊢
  split at hok
  · cases hok
  · next hfree =>
    rw [if_neg hfree]
    obtain ⟨hlocation, hversion, -, -⟩ := ObjectRow.of_view hok
    have hversion : object.stream.version.toInt = s.nextVersion r.stream.location := hversion
    refine ⟨hlocation, ?_, _, rfl, _, addObject_self _ _, rfl, hversion.symm⟩
    rw [hversion]
    exact isNext_nextVersion (hasRoom_of_int64? (ObjectRow.version_of_view hok))

/-- **A copy that succeeds gets the version that comes next,** and its row is added. -/
theorem next_of_finishCopy (hstore : c.store = some s) {f : FinishCopy}
    (hok : (c.run (finishCopy now f)).1 = .ok object) :
    object.stream.location = f.location ∧ s.IsNext f.location object.stream.version.toInt ∧
      ∃ s', (c.run (finishCopy now f)).2.store = some s' ∧ ∃ o ∈ s'.objects.rows,
        o.location = f.location ∧ o.version = object.stream.version.toInt := by
  obtain ⟨-, s', hcopy, hleft⟩ := finishCopy_of_ok hstore hok
  obtain ⟨o, source, metadata, pairs, hcopied⟩ := copied_of_ok hcopy
  obtain ⟨hlocation, hversion, -, -⟩ := ObjectRow.of_view hcopied.object_view
  have hversion : object.stream.version.toInt = s.nextVersion f.location := hversion
  refine ⟨hlocation, ?_, s', hleft, _, hcopied.mem_objects.2 (.inl rfl), rfl, hversion.symm⟩
  rw [hversion]
  exact isNext_nextVersion (hasRoom_of_int64? (ObjectRow.version_of_view hcopied.object_view))

end Catalog

/-! ## Runs -/

/-- The object of a call that chooses the version itself and succeeds. -/
def Call.picks (now : Instant) (c : Catalog) : Call → Option Object
  | beginNextVersion r => (c.run (Catalog.beginNextVersion now r)).1.toOption
  | finishCopy r => (c.run (Catalog.finishCopy now r)).1.toOption
  | _ => none

/-- **The version that a call chooses comes next,** and a row has it afterwards. -/
theorem Call.next_of_picks {c : Catalog} {now : Instant} {call : Call} (hstore : c.store = some s)
    (hpicks : call.picks now c = some object) :
    s.IsNext object.stream.location object.stream.version.toInt ∧
      ∃ s', (call.leave now c).store = some s' ∧ ∃ o ∈ s'.objects.rows,
        o.location = object.stream.location ∧ o.version = object.stream.version.toInt := by
  cases call with
  | beginNextVersion r =>
    obtain ⟨hlocation, hnext⟩ := Catalog.next_of_start hstore (Except.eq_ok_of_toOption hpicks)
    rw [hlocation]
    exact hnext
  | finishCopy f =>
    obtain ⟨hlocation, hnext⟩ := Catalog.next_of_finishCopy hstore (Except.eq_ok_of_toOption hpicks)
    rw [hlocation]
    exact hnext
  | _ => cases hpicks

namespace Site

/-- The object to which an event gives a version. -/
def picks (σ : Site) : Event → Option Object
  | .call i now call => σ.handles[i]?.bind fun h => call.picks now (σ.catalog h)
  | _ => none

/-- The versions of a key that are handed out in a run, in turn. -/
def handedOut (l : Location) : Site → List Event → List Int64
  | _, [] => []
  | σ, e :: events =>
    (((σ.picks e).filter fun o => o.stream.location = l).map (·.stream.version)).toList ++
      handedOut l (σ.step e) events

/-- Whether no row of a key is removed in a run. -/
def Retains (l : Location) : Site → List Event → Prop
  | _, [] => True
  | σ, e :: events =>
    (∀ o ∈ σ.objects, o.location = l → ∃ o' ∈ (σ.step e).objects, o'.id = o.id) ∧
      Retains l (σ.step e) events

instance decidableRetains (l : Location) :
    (σ : Site) → (events : List Event) → Decidable (Retains l σ events)
  | _, [] => isTrue trivial
  | σ, e :: events =>
    have : Decidable (Retains l (σ.step e) events) := decidableRetains l (σ.step e) events
    inferInstanceAs (Decidable (_ ∧ _))

variable {σ : Site} {h : Handle} {allow : Store → StreamId → Prop}

/-- **A version that an event hands out is above all rows of its key,** and a row has it afterwards. -/
theorem Stands.of_picks (hσ : σ.Stands s) {e : Event} (hpicks : σ.picks e = some object) :
    (∀ o ∈ σ.objects, o.location = object.stream.location →
      o.version < object.stream.version.toInt) ∧
    ∃ o ∈ (σ.step e).objects, o.location = object.stream.location ∧
      o.version = object.stream.version.toInt := by
  cases e with
  | call i now call =>
    obtain ⟨h, hget, hpicks⟩ := Option.bind_eq_some_iff.1 hpicks
    obtain ⟨hnext, s', hleft, hrow⟩ :=
      Call.next_of_picks (hσ.open (List.mem_of_getElem? hget)).store hpicks
    have hafter : (σ.step (.call i now call)).objects = s'.objects.rows := by
      rw [step_call hget]
      show (call.leave now (σ.catalog h)).store.elim [] (·.objects.rows) = _
      rw [hleft]
      rfl
    rw [hafter]
    exact ⟨fun o ho hl => hnext.above o (mem_versionsOf.2 ⟨hσ.mem_objects.1 ho, hl⟩), hrow⟩
  | _ => cases hpicks

/-- A version that is handed out first, or later. -/
theorem mem_handedOut_cons {e : Event} {events : List Event} {v : Int64} :
    v ∈ handedOut l σ (e :: events) ↔
      (∃ object, σ.picks e = some object ∧ object.stream.location = l ∧ object.stream.version = v) ∨
        v ∈ handedOut l (σ.step e) events := by
  rw [handedOut, List.mem_append, Option.mem_toList, Option.map_eq_some_iff]
  simp only [Option.filter_eq_some_iff, decide_eq_true_eq, and_assoc]

/-- **In a run that removes no row of a key every version is above all rows that are there before.** -/
theorem Stands.handedOut_above (hσ : σ.Stands s) {events : List Event}
    (hkeeps : Retains l σ events) {v : Int64} (hv : v ∈ handedOut l σ events) :
    ∀ o ∈ σ.objects, o.location = l → o.version < v.toInt := by
  induction events generalizing σ s with
  | nil => exact absurd hv List.not_mem_nil
  | cons e events ih =>
    obtain ⟨hstays, hkeeps⟩ := hkeeps
    intro o ho hl
    rcases mem_handedOut_cons.1 hv with ⟨object, hpicks, rfl, rfl⟩ | hlater
    · exact (hσ.of_picks hpicks).1 o ho hl
    · -- the row is still there when the version is handed out
      obtain ⟨s', hσ', -⟩ := hσ.affects e
      obtain ⟨o', ho', hid⟩ := hstays o ho hl
      have hlocation : o'.location = o.location := congrArg ObjectId.location hid
      have hversion : o'.version = o.version := congrArg ObjectId.version hid
      rw [← hversion]
      exact ih hσ' hkeeps hlater o' ho' (hlocation.trans hl)

/-- **The versions that such a run hands out increase.** -/
theorem Stands.pairwise_handedOut (hσ : σ.Stands s) {events : List Event}
    (hkeeps : Retains l σ events) : (handedOut l σ events).Pairwise (· < ·) := by
  induction events generalizing σ s with
  | nil => exact .nil
  | cons e events ih =>
    obtain ⟨-, hkeeps⟩ := hkeeps
    obtain ⟨s', hσ', -⟩ := hσ.affects e
    rw [handedOut]
    refine List.pairwise_append.2 ⟨?_, ih hσ' hkeeps, fun v hv w hw => ?_⟩
    · cases ((σ.picks e).filter fun o => o.stream.location = l).map (·.stream.version) with
      | none => exact .nil
      | some v => exact List.pairwise_singleton _ v
    · obtain ⟨object, hobject, rfl⟩ := Option.map_eq_some_iff.1 (Option.mem_toList.1 hv)
      obtain ⟨hpicks, hl⟩ := Option.filter_eq_some_iff.1 hobject
      obtain ⟨-, o, ho, hlocation, hversion⟩ := hσ.of_picks hpicks
      have habove := hσ'.handedOut_above hkeeps hw o ho (hlocation.trans (of_decide_eq_true hl))
      rw [hversion] at habove
      exact Int64.lt_iff_toInt_lt.2 habove

/-- **The next version of a key at a reachable site.** A start that asks for it, with a request in
order, succeeds just when the key has room: its pending row is added at one more than the highest
version of the key. Without room it fails; the first time its row stays, at the version after the
greatest one. A copy into the key that succeeds gets the same version. The versions that a run hands
out increase, as long as no row of the key is removed, and are above all rows that were there before
the run. -/
theorem Reachable.next_version_new (hσ : σ.Reachable allow) (hs : σ.store = some s)
    (hh : h ∈ σ.handles) (l : Location) :
    (∀ now r metadata, r.check = .ok metadata → r.stream.version = 0 → r.stream.location = l →
      (s.HasRoom l → ∃ object, (σ.catalog h).run (Catalog.beginNextVersion now r) =
          (.ok object, { σ.catalog h with store := some (s.addObject
            (r.row h.settings now metadata object.stream.version.toInt)) }) ∧
        object.stream.location = l ∧ object.stream.stream = r.stream.stream ∧
        object.status = .pending ∧ s.IsNext l object.stream.version.toInt) ∧
      (¬ s.HasRoom l → (σ.catalog h).run (Catalog.beginNextVersion now r) =
        if s.objects.contains ⟨l, versionBound⟩ then
          (.error (.objectExists (.next l.key)), σ.catalog h)
        else
          (.error (.storage .beginNextVersion), { σ.catalog h with store := some (s.addObject
            (r.row h.settings now metadata versionBound)) }))) ∧
    (∀ now f object, f.location = l →
      ((σ.catalog h).run (Catalog.finishCopy now f)).1 = .ok object →
        object.stream.location = l ∧ s.IsNext l object.stream.version.toInt) ∧
    ∀ events, Retains l σ events → (handedOut l σ events).Pairwise (· < ·) ∧
      ∀ v ∈ handedOut l σ events, ∀ o ∈ s.versionsOf l, o.version < v.toInt := by
  have hstands := hσ.stands_of_store hs
  have hstore := (hstands.open hh).store
  have hpos := hσ.version_pos hs
  refine ⟨?_, ?_, ?_⟩
  · rintro now r metadata hcheck hzero rfl
    constructor
    · intro hroom
      exact Catalog.run_start_of_room hstore hpos hcheck hzero hroom
    · intro hfull
      exact Catalog.run_start_of_full hstore hcheck hzero hfull
  · rintro now f object rfl hok
    obtain ⟨hlocation, hnext, -⟩ := Catalog.next_of_finishCopy hstore hok
    exact ⟨hlocation, hnext⟩
  · intro events hkeeps
    refine ⟨hstands.pairwise_handedOut hkeeps, fun v hv o ho => ?_⟩
    obtain ⟨ho, hl⟩ := mem_versionsOf.1 ho
    exact hstands.handedOut_above hkeeps hv o (hstands.mem_objects.2 ho) hl

end Site

/-! ### A key with room, and one without -/

namespace Sample

/-- A start at the next version of a key. -/
def startNext (key : UInt8) (stream : Nat) : BeginObject where
  stream := { identity key stream with version := 0 }
  encryption := ⟨1, 256⟩

/-- A start at the next version, one at version 7, and a copy into the key. -/
def handing : List Event :=
  [.beginNextVersion (startNext 1 5), begin { identity 1 6 with version := 7 },
    .finishCopy (copyOf (identity 2 2) (identity 1 8))].map (.call 0 moment)

end Sample

/-- The start gets version 2 and the copy version 8. -/
theorem Sample.next_version_new_site : ∃ h ∈ site.handles,
    (∃ object, ((site.catalog h).run (Catalog.beginNextVersion moment (startNext 1 5))).1 =
      .ok object ∧ object.stream.version = 2 ∧ object.status = .pending) ∧
    Site.Retains (identity 1 1).location site handing ∧
      Site.handedOut (identity 1 1).location site handing = [2, 8] ∧
      (Site.handedOut (identity 1 1).location site handing).Pairwise (· < ·) := by
  obtain ⟨s, hstands⟩ := reachable_site.stands
  obtain ⟨metadata, hcheck⟩ : ∃ metadata, (startNext 1 5).check = .ok metadata :=
    Except.exists_eq_ok (by decide +kernel)
  have hget := getElem?_handles (σ := site) (by decide +kernel)
  have hh := List.mem_of_getElem? hget
  have hrow : site.store.map (fun s => (s.versionsOf (identity 1 1).location).map (·.version)) =
    some [1] := by decide +kernel
  rw [hstands.store, Option.map_some, Option.some.injEq] at hrow
  have hversion : ∀ o ∈ s.versionsOf (identity 1 1).location, o.version = 1 := by
    intro o ho
    have hmem := List.mem_map_of_mem (f := fun o : ObjectRow => o.version) ho
    rw [hrow] at hmem
    exact List.mem_singleton.1 hmem
  obtain ⟨hstart, -, hruns⟩ := Site.Reachable.next_version_new reachable_site hstands.store hh
    (identity 1 1).location
  have hkeeps : Site.Retains (identity 1 1).location site handing := by decide +kernel
  have hroom : s.HasRoom (identity 1 1).location := fun o ho => by
    rw [hversion o ho]
    decide
  obtain ⟨object, hrun, -, -, hpending, hnext⟩ :=
    (hstart moment (startNext 1 5) metadata hcheck rfl rfl).1 hroom
  refine ⟨_, hh, ⟨object, by rw [hrun], ?_, hpending⟩, hkeeps, by decide +kernel, (hruns _ hkeeps).1⟩
  rcases hnext.least with ⟨hnone, -⟩ | ⟨o, ho, hone⟩
  · rw [hnone] at hrow
    cases hrow
  · rw [hversion o ho] at hone
    exact Int64.toInt_inj.1 hone

/-- With a row at the greatest version a start in order fails. -/
theorem Sample.next_version_refused : exhausted.Reachable Lacks ∧ ∃ h ∈ exhausted.handles,
    (∃ metadata, (startNext 1 2).check = .ok metadata) ∧ (startNext 1 2).stream.version = 0 ∧
      ((exhausted.catalog h).run (Catalog.beginNextVersion moment (startNext 1 2))).1 =
        .error (.storage .beginNextVersion) := by
  have hhandles : ∃ h ∈ exhausted.handles,
      (exhausted.catalog h).failure? (Catalog.beginNextVersion moment (startNext 1 2)) =
        some (.storage .beginNextVersion) := by decide +kernel
  obtain ⟨h, hh, hfail⟩ := hhandles
  exact ⟨reachable_exhausted, h, hh, Except.exists_eq_ok (by decide +kernel), rfl,
    Catalog.failure?_eq_some.1 hfail⟩

end ObjectCatalog
