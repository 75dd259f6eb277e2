import ObjectCatalog.Proofs.ReadBack
import ObjectCatalog.Proofs.Shapes

/-!
# Segments stored over others

The segments of an upload are stored again and again, remote ones over inline ones and the other way,
with calls in between that fail. What is in a place in the end is the work of one call.

* `Store.SameBut`: tables that differ in the segments of one stream only.
* `Site.Spares`: events of which none writes at a place.
* `Site.Stands.step_storing`, `Site.Stands.run_storing`: one call that stores a segment, and any
  number of them.
* `Site.Stands.step_again`, `Site.Stands.row_again`: a call that is repeated.
* `Site.Reachable.last_write_wins`: **at each position is the row that the last call that succeeded
  there would have stored in an empty place.**
-/

namespace ObjectCatalog

open Store

variable {s s' : Store} {now now' : Instant} {call : Call} {row : SegmentRow} {k : SegmentId}

/-! ## Events -/

namespace Event

/-- A call that is to store a segment of a stream. -/
def StoresIn (x : StreamId) : Event → Prop
  | .call _ _ call => ∃ p, call.target? = some ⟨x, p⟩
  | _ => False

/-- What an event leaves of the other kind of segment. -/
def Clears : Event → SegmentRow → Prop
  | .call _ _ call => call.Clears
  | _ => fun _ => False

end Event

/-- Tables with the same rows, but for aliases and the segments of one stream. -/
structure Store.SameBut (x : StreamId) (s s' : Store) : Prop where
  objects : s'.objects = s.objects
  copies : s'.copies = s.copies
  segments : ∀ y ≠ x, s'.segmentsOf y = s.segmentsOf y

namespace Store.SameBut

variable {x : StreamId} {s₁ : Store}

theorem refl (x : StreamId) (s : Store) : s.SameBut x s := ⟨rfl, rfl, fun _ _ => rfl⟩

theorem trans (h : s.SameBut x s₁) (h' : s₁.SameBut x s') : s.SameBut x s' :=
  ⟨h'.objects.trans h.objects, h'.copies.trans h.copies, fun y hy =>
    (h'.segments y hy).trans (h.segments y hy)⟩

theorem insert (hrow : row.stream = x) (nodes : NodeTable) :
    s.SameBut x { s with nodes, segments := s.segments.insert row } := by
  refine ⟨rfl, rfl, fun y hy => segmentsOf_congr fun p => ?_⟩
  have hne : row.id ≠ ⟨y, p⟩ := fun heq => hy ((congrArg SegmentId.stream heq).symm.trans hrow)
  unfold row?
  rw [Table.find?_insert, if_neg hne]

end Store.SameBut

namespace Site

variable {σ : Site} {e : Event} {i : Nat} {h : Handle} {x : StreamId} {p : Int}
  {allow : Store → StreamId → Prop}

/-- Events of which none writes under a key. -/
def Spares (k : SegmentId) : Site → List Event → Prop
  | _, [] => True
  | σ, e :: events => σ.writes k e = false ∧ Spares k (σ.step e) events

/-! ## Runs -/

/-- What an event makes of the row under a key, if it does not write there, and if it does: then the row
does not depend on the one from before. -/
theorem Stands.step_storing (hσ : σ.Stands s) (he : e.StoresIn x) :
    ∃ s', (σ.step e).Stands s' ∧ s.SameBut x s' ∧ ∀ p,
      (σ.writes ⟨x, p⟩ e = false → s'.row? x p = s.row? x p) ∧
      (σ.writes ⟨x, p⟩ e = true → ∃ row, s'.row? x p = some row ∧
        ((σ.vacate ⟨x, p⟩).step e).segmentRow? x p = some row ∧ e.Clears row) := by
  obtain ⟨s', hσ', -⟩ := hσ.affects e
  refine ⟨s', hσ', ?_⟩
  cases e with
  | call i now call =>
    obtain ⟨q, htarget⟩ := he
    rcases hσ.storing_cases now i htarget with
      ⟨nodes, hstore, hnone⟩ | ⟨row, nodes, hrow, hid, hstore, hwrites, hvacated⟩
    · obtain rfl := Option.some.inj (hσ'.store.symm.trans hstore)
      refine ⟨⟨rfl, rfl, fun _ _ => rfl⟩, fun p => ⟨fun _ => rfl, fun hw => ?_⟩⟩
      rw [hnone] at hw
      cases hw
    · obtain rfl := Option.some.inj (hσ'.store.symm.trans hstore)
      refine ⟨.insert (congrArg SegmentId.stream hid) nodes, fun p => ⟨fun hw => ?_, fun hw => ?_⟩⟩
      · rw [hwrites, decide_eq_false_iff_not] at hw
        unfold row?
        rw [Table.find?_insert, hid, if_neg (Ne.symm hw)]
      · rw [hwrites, decide_eq_true_eq] at hw
        cases hw
        exact ⟨row, row?_put hid nodes, hvacated _, hrow.clears⟩
  | opening => cases he
  | startScan => cases he
  | nextBatch => cases he

/-- **Any number of such calls.** Under each key nothing was written and the row is the one from before,
or there is a last call that wrote there, and the row is its. -/
theorem Stands.run_storing (hσ : σ.Stands s) {events : List Event}
    (hevents : ∀ e ∈ events, e.StoresIn x) :
    ∃ s', (σ.run events).Stands s' ∧ s.SameBut x s' ∧ ∀ p,
      (Spares ⟨x, p⟩ σ events ∧ s'.row? x p = s.row? x p) ∨
      ∃ before e after row, events = before ++ e :: after ∧ (σ.run before).writes ⟨x, p⟩ e = true ∧
        Spares ⟨x, p⟩ ((σ.run before).step e) after ∧ s'.row? x p = some row ∧
        (((σ.run before).vacate ⟨x, p⟩).step e).segmentRow? x p = some row ∧ e.Clears row := by
  induction events generalizing σ s with
  | nil => exact ⟨s, hσ, .refl x s, fun p => .inl ⟨trivial, rfl⟩⟩
  | cons e events ih =>
    obtain ⟨s₁, hσ₁, hsame₁, hstep⟩ := hσ.step_storing (hevents e List.mem_cons_self)
    obtain ⟨s', hσ', hsame', hrun⟩ := ih hσ₁ fun e' he' => hevents e' (List.mem_cons_of_mem _ he')
    refine ⟨s', hσ', hsame₁.trans hsame', fun p => ?_⟩
    rcases hrun p with ⟨hspares, hrow⟩ | ⟨before, e', after, row, hsplit, hlast⟩
    · cases hwrites : σ.writes ⟨x, p⟩ e with
      | false => exact .inl ⟨⟨hwrites, hspares⟩, hrow.trans ((hstep p).1 hwrites)⟩
      | true =>
        obtain ⟨row, hrow₁, hvacated, hclears⟩ := (hstep p).2 hwrites
        exact .inr ⟨[], e, events, row, rfl, hwrites, hspares, hrow.trans hrow₁, hvacated, hclears⟩
    · exact .inr ⟨e :: before, e', after, row, by rw [hsplit]; rfl, hlast⟩

/-! ## Repetitions -/

/-- **A call that stored a segment can be repeated by its handle,** and then nothing but the time of the
row is new. -/
theorem Stands.step_again (hσ : σ.Stands s) (hwrites : σ.writes k (.call i now call) = true) :
    let σ₁ := σ.step (.call i now call)
    ∃ s₁ row, σ₁.store = some s₁ ∧ s₁.row? k.stream k.position = some row ∧
      ∀ now', σ₁.writes k (.call i now' call) = true ∧ σ₁.step (.call i now' call) =
        { σ₁ with store := some { s₁ with
            segments := s₁.segments.insert { row with createdAt := now' } } } := by
  intro σ₁
  obtain ⟨h, hget, htarget, hnone⟩ := of_writes hwrites
  have hopen := hσ.open (List.mem_of_getElem? hget)
  have hstep : σ₁ = σ.put i h (call.leave now (σ.catalog h)) h.scans := step_call hget now call
  cases Call.ends hopen now htarget with
  | refused hacts =>
    rw [(hacts.here hopen).1] at hnone
    cases hnone
  | @stored row nodes cache hrow hacts hagain =>
    rw [(hacts.here hopen).2] at hstep
    have hid := Option.some.inj (hrow.id.symm.trans htarget)
    clear_value σ₁
    -- the handle by then, and what the repeated call does on it
    have hget₁ : σ₁.handles[i]? = some { h with cache } := by
      rw [hstep]
      exact List.getElem?_set_self (List.getElem?_eq_some_iff.1 hget).1
    have hcatalog : σ₁.catalog { h with cache } = Catalog.on { σ.catalog h with cache }
        { s with nodes, segments := s.segments.insert row } := by
      rw [hstep]
      rfl
    refine ⟨{ s with nodes, segments := s.segments.insert row }, row, by rw [hstep]; rfl,
      row?_put hid nodes, fun now' => ?_⟩
    obtain ⟨hfailure, hleave⟩ := hagain now' (s.segments.insert row)
    constructor
    · exact (writes_eq_true_iff hget₁).2 ⟨htarget, hcatalog ▸ hfailure⟩
    · rw [step_call hget₁, hcatalog, hleave, hstep]
      unfold Site.put
      dsimp only
      rw [List.set_set]
      rfl

/-- A call that is repeated by any handle, and succeeds, stores the same row but for its time. -/
theorem Stands.row_again (hσ : σ.Stands s) {j : Nat}
    (hwrites : σ.writes k (.call i now call) = true)
    (hrow : (σ.step (.call i now call)).segmentRow? k.stream k.position = some row)
    (hwrites' : (σ.step (.call i now call)).writes k (.call j now' call) = true) :
    ((σ.step (.call i now call)).step (.call j now' call)).segmentRow? k.stream k.position =
      some { row with createdAt := now' } := by
  obtain ⟨row₁, nodes, hstores, hid, hstore⟩ := hσ.exists_stores hwrites
  obtain ⟨s₁, hσ₁, -⟩ := hσ.affects (.call i now call)
  generalize σ.step (.call i now call) = σ₁ at hrow hwrites' hstore hσ₁ ⊢
  obtain rfl := Option.some.inj (hσ₁.store.symm.trans hstore)
  obtain ⟨row', nodes', hstores', hid', hstore'⟩ := hσ₁.exists_stores hwrites'
  obtain ⟨s₂, hσ₂, hext⟩ := hσ₁.extends_run [.call j now' call]
  obtain rfl := Option.some.inj (hσ₂.store.symm.trans hstore')
  rw [hσ₁.segmentRow?_eq, row?_put hid nodes, Option.some.injEq] at hrow
  subst hrow
  rw [← hstores.again hstores' rfl hext hσ₂.aliases]
  exact (hσ₂.segmentRow?_eq ..).trans (row?_put hid' nodes')

/-- **The last write wins at each position, with nothing left over.** After calls that store segments of
one stream, or try to, each position has the row from before if none of them wrote there; otherwise it
has the row that the last one which did would have put there at that moment if the place had been
empty, and this row has nothing of the other kind of segment. All other rows but aliases are as they
were. A call that succeeded succeeds again on its handle, where nothing but the time of the row is new
then; and it stores the same row but for its time on any handle where it succeeds. -/
theorem Reachable.last_write_wins (hσ : σ.Reachable allow) (hs : σ.store = some s)
    {events : List Event} (hevents : ∀ e ∈ events, e.StoresIn x) :
    (∃ s', (σ.run events).store = some s' ∧ s.SameBut x s' ∧ ∀ p,
      (Spares ⟨x, p⟩ σ events ∧ s'.row? x p = s.row? x p) ∨
      ∃ before e after row, events = before ++ e :: after ∧ (σ.run before).writes ⟨x, p⟩ e = true ∧
        Spares ⟨x, p⟩ ((σ.run before).step e) after ∧ s'.row? x p = some row ∧
        (((σ.run before).vacate ⟨x, p⟩).step e).segmentRow? x p = some row ∧ e.Clears row) ∧
    ∀ (i : Nat) (now : Instant) (call : Call) (p : Int),
      σ.writes ⟨x, p⟩ (.call i now call) = true →
      let σ₁ := σ.step (.call i now call)
      ∃ s₁ row, σ₁.store = some s₁ ∧ s₁.row? x p = some row ∧ ∀ now',
        (σ₁.writes ⟨x, p⟩ (.call i now' call) = true ∧ σ₁.step (.call i now' call) =
          { σ₁ with store := some { s₁ with
              segments := s₁.segments.insert { row with createdAt := now' } } }) ∧
        ∀ j, σ₁.writes ⟨x, p⟩ (.call j now' call) = true →
          (σ₁.step (.call j now' call)).segmentRow? x p = some { row with createdAt := now' } := by
  obtain ⟨s₀, hstands⟩ := hσ.stands
  obtain rfl : s₀ = s := Option.some.inj (hstands.store.symm.trans hs)
  obtain ⟨s', hstands', hrun⟩ := hstands.run_storing hevents
  refine ⟨⟨s', hstands'.store, hrun⟩, fun i now call p hwrites => ?_⟩
  dsimp only
  obtain ⟨s₁, row, hstore₁, hrow, hagain⟩ := hstands.step_again hwrites
  obtain ⟨s₁', hstands₁, -⟩ := hstands.affects (.call i now call)
  obtain rfl : s₁' = s₁ := Option.some.inj (hstands₁.store.symm.trans hstore₁)
  refine ⟨s₁', row, hstore₁, hrow, fun now' => ⟨hagain now', fun j hwrites' => ?_⟩⟩
  refine hstands.row_again hwrites ?_ hwrites'
  rw [hstands₁.segmentRow?_eq]
  exact hrow

end Site

/-! ### An inline segment over a remote one -/

namespace Sample

/-- An inline segment for the upload that was started, at the position of the remote one. -/
def inlining : Event := .call 0 moment (inlined (identity 1 1))

end Sample

/-- The inline segment is stored as in an empty place, and it can be stored again. -/
theorem Sample.last_write_wins_inlined :
    let k : SegmentId := ⟨(identity 1 1).stream, 0⟩
    let remoted := started.step (storing { algorithm := 1 })
    ∃ s' row, (remoted.step inlining).store = some s' ∧ s'.row? k.stream k.position = some row ∧
      ((remoted.vacate k).step inlining).segmentRow? k.stream k.position = some row ∧
      row.blob = none ∧ row.redundancy = 0 ∧ (remoted.step inlining).writes k inlining = true := by
  intro k remoted
  have hevents : ∀ e ∈ [storing { algorithm := 1 }, inlining], e.StoresIn k.stream := by
    intro e he
    simp only [List.mem_cons, List.not_mem_nil, or_false] at he
    rcases he with rfl | rfl
    · exact ⟨0, by decide⟩
    · exact ⟨0, by decide⟩
  have hwrites : remoted.writes k inlining = true := by decide +kernel
  obtain ⟨s, hstands⟩ := reachable_started.stands
  obtain ⟨⟨s', hstore, -, hrows⟩, -⟩ :=
    Site.Reachable.last_write_wins reachable_started hstands.store hevents
  -- a call that succeeded succeeds again
  have hremoted : remoted.Reachable Store.Lacks := reachable_started.step nofun
  obtain ⟨s₁, hstands₁⟩ := hremoted.stands
  have hnothing : ∀ e ∈ ([] : List Event), e.StoresIn k.stream :=
    fun _ he => absurd he List.not_mem_nil
  obtain ⟨-, hrepeats⟩ :=
    Site.Reachable.last_write_wins hremoted hstands₁.store hnothing
  obtain ⟨_, _, -, -, hagain⟩ := hrepeats 0 moment (inlined (identity 1 1)) 0 hwrites
  have hwrites' : (remoted.step inlining).writes k inlining = true := (hagain moment).1.1
  rcases hrows 0 with ⟨⟨-, hnot, -⟩, -⟩ | ⟨before, e, after, row, hsplit, -, hspares, hlast⟩
  · exact absurd hwrites (Bool.eq_false_iff.1 hnot)
  cases before with
  | nil =>
    cases hsplit
    exact absurd hwrites (Bool.eq_false_iff.1 hspares.1)
  | cons first before =>
    obtain ⟨rfl, hsplit⟩ := List.cons.inj hsplit
    cases before with
    | nil =>
      cases hsplit
      obtain ⟨hrow, hvacated, hblob, hscheme, -⟩ := hlast
      exact ⟨s', row, hstore, hrow, hvacated, hblob, hscheme, hwrites'⟩
    | cons _ before => cases before <;> cases hsplit

end ObjectCatalog
