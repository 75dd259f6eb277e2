import ObjectCatalog.Deletion.Streams
import ObjectCatalog.Proofs.Families
import ObjectCatalog.Proofs.Outcomes
import ObjectCatalog.Proofs.Rows

/-!
# What removing streams does

Streams are removed one after the other, and each may promote a copy. The outcome is said here at
once, by lookups in the tables that were there before: the copies of a removed ancestor settle on
its heir, the lowest copy that stays, and the heir takes the ancestor's pieces.

* `Store.heir?`: the copy that takes the place of a removed stream.
* `Store.bequeathed`, `Store.resettled`: the row and the ancestor that a stream has afterwards.
* `Store.Removal`: what a removal does to every row and to every relation.
* `Store.removal_of_ok`: **a removal that succeeds does that.**
-/

namespace ObjectCatalog

/-- A row with the pieces of the first row of a list that holds pieces at its position. -/
def SegmentRow.inherit (rows : List SegmentRow) (r : SegmentRow) : SegmentRow :=
  match rows.find? fun k => k.holdsPieces && decide (k.position = r.position) with
  | some k => r.withPiecesOf k
  | none => r

@[simp]
theorem SegmentRow.id_inherit (rows : List SegmentRow) (r : SegmentRow) :
    (r.inherit rows).id = r.id := by
  unfold inherit
  split <;> rfl

namespace Store

variable {s s' : Store} {x a h : StreamId} {p : Int} {gone : List StreamId}

/-! ## Taking segments -/

theorem segmentsOf_filter_ne (hxa : x ≠ a) :
    segmentsOf { s with segments := s.segments.filter (·.stream ≠ a) } x = s.segmentsOf x := by
  refine segmentsOf_congr fun p => ?_
  rw [row?, Table.find?_filter]
  cases hr : s.segments.find? ⟨x, p⟩ with
  | none => rw [row?, hr]; rfl
  | some r =>
    obtain ⟨-, hstream, -⟩ := row?_eq_some_iff.1 hr
    rw [row?, hr, Option.filter_some_pos (by simpa [hstream] using hxa)]

/-- The rows taken of distinct streams are the rows that the streams had. -/
theorem takeSegments_eq (hgone : gone.Nodup) :
    s.takeSegments gone = (gone.map fun a => (a, s.segmentsOf a),
      { s with segments := s.segments.filter fun r => decide (r.stream ∉ gone) }) := by
  induction gone generalizing s with
  | nil =>
    have hall : s.segments.filter (fun r => decide (r.stream ∉ ([] : List StreamId))) = s.segments :=
      Table.ext (List.filter_eq_self.2 fun r _ => by simp)
    rw [takeSegments, hall]
    rfl
  | cons a rest ih =>
    obtain ⟨ha, hrest⟩ := List.nodup_cons.1 hgone
    have hne : ∀ b ∈ rest, b ≠ a := fun b hb heq => ha (heq ▸ hb)
    rw [takeSegments, ih hrest]
    have htaken : (rest.map fun b =>
        (b, segmentsOf { s with segments := s.segments.filter (·.stream ≠ a) } b)) =
          rest.map fun b => (b, s.segmentsOf b) :=
      List.map_congr_left fun b hb => by rw [segmentsOf_filter_ne (hne b hb)]
    have hleft : (s.segments.filter (·.stream ≠ a)).filter (fun r => decide (r.stream ∉ rest)) =
        s.segments.filter fun r => decide (r.stream ∉ a :: rest) :=
      Table.ext <| by
        simp only [Table.rows_filter, List.filter_filter, List.mem_cons, not_or]
        exact List.filter_congr fun r _ => by simp [Bool.and_comm]
    rw [htaken, hleft]
    rfl

/-! ## Promoting a copy -/

section Promote

variable {rows : List SegmentRow}

/-- The row handed over at a position that the copy has is the first one with pieces there. -/
theorem find?_handedOver (hp : s.segments.contains ⟨h, p⟩ = true) :
    ((rows.filter (·.holdsPieces)).filter fun r => s.segments.contains ⟨h, r.position⟩).find?
        (fun r => decide (r.position = p)) =
      rows.find? fun r => r.holdsPieces && decide (r.position = p) := by
  rw [List.find?_filter, List.find?_filter]
  congr 1
  funext r
  by_cases hr : r.position = p
  · simp [hr, hp]
  · simp [hr]

/-- Only rows of the promoted copy change: they inherit. -/
theorem row?_promote :
    (s.promote a h rows).2.row? x p =
      if x = h then (s.row? x p).map (.inherit rows) else s.row? x p := by
  unfold promote handOver repoint row?
  simp only [Table.find?_updateIf, List.partition_eq_filter_filter]
  cases hr : s.segments.find? ⟨x, p⟩ with
  | none => simp
  | some r =>
    obtain ⟨-, rfl, rfl⟩ := row?_eq_some_iff.1 hr
    by_cases hx : r.stream = h
    · subst hx
      have hcontains : s.segments.contains ⟨r.stream, r.position⟩ = true := by
        rw [Table.contains, hr]; rfl
      simp only [Option.map_some, decide_true, if_true, find?_handedOver hcontains]
      rfl
    · simp [hx]

/-- The relation of the promoted copy goes, and the other copies follow it. -/
theorem ancestorOf?_promote :
    (s.promote a h rows).2.ancestorOf? x =
      if x = h then none else (s.ancestorOf? x).map fun b => if b = a then h else b := by
  unfold promote handOver repoint ancestorOf?
  simp only [Table.find?_updateIf, Table.find?_filter]
  cases hc : s.copies.find? x with
  | none => simp
  | some c =>
    obtain rfl := Table.key_of_find? hc
    by_cases hx : c.stream = h
    · simp [hx]
    · by_cases hca : c.ancestor = a <;> simp [hx, hca]

theorem promote_objects : (s.promote a h rows).2.objects = s.objects := rfl

theorem promote_nodes : (s.promote a h rows).2.nodes = s.nodes := rfl

theorem promote_orphaned :
    (s.promote a h rows).1 =
      (rows.filter (·.holdsPieces)).filter fun r => !s.segments.contains ⟨h, r.position⟩ := by
  unfold promote
  simp only [List.partition_eq_filter_filter]
  rfl

/-- A promotion leaves the copies of other ancestors alone. -/
theorem copiesOf_promote {b : StreamId} (hh : s.ancestorOf? h = some a) (hba : b ≠ a)
    (hbh : b ≠ h) : (s.promote a h rows).2.copiesOf b = s.copiesOf b := by
  refine copiesOf_congr fun c => ?_
  rw [ancestorOf?_promote]
  by_cases hc : c = h
  · subst hc
    rw [if_pos rfl, hh]
    exact iff_of_false (by simp) fun heq => hba (Option.some.inj heq).symm
  · rw [if_neg hc]
    cases s.ancestorOf? c with
    | none => simp
    | some d =>
      by_cases hd : d = a
      · simp [hd, hbh.symm, hba.symm]
      · simp [hd]

end Promote

/-! ## Settling families -/

/-- The copy that takes the place of a removed stream: the lowest one that stays. -/
def heir? (s : Store) (gone : List StreamId) (a : StreamId) : Option StreamId :=
  (s.copiesOf a).find? fun c => decide (c ∉ gone)

/-- A row of a stream once the families of removed streams are settled, by what these held. -/
def bequeathed (s : Store) (gone : List StreamId) (held : StreamId → List SegmentRow) (x : StreamId)
    (r : SegmentRow) : SegmentRow :=
  match s.ancestorOf? x with
  | some a => if a ∈ gone ∧ s.heir? gone a = some x then r.inherit (held a) else r
  | none => r

/-- The ancestor of a stream once the families of removed streams are settled. -/
def resettled (s : Store) (gone : List StreamId) (x : StreamId) : Option StreamId :=
  match s.ancestorOf? x with
  | some a =>
    if a ∈ gone then
      if s.heir? gone a = some x then none else s.heir? gone a
    else some a
  | none => none

/-- The rows of removed streams that no heir takes: all of them without an heir, and otherwise those
with pieces at positions that the heir lacks. -/
def unclaimed (s : Store) (gone : List StreamId) (held : StreamId → List SegmentRow)
    (a : StreamId) : List SegmentRow :=
  match s.heir? gone a with
  | none => held a
  | some h => ((held a).filter (·.holdsPieces)).filter fun r => !s.segments.contains ⟨h, r.position⟩

theorem id_bequeathed {held : StreamId → List SegmentRow} {r : SegmentRow} :
    (s.bequeathed gone held x r).id = r.id := by
  unfold bequeathed
  split
  · split
    · exact SegmentRow.id_inherit _ r
    · rfl
  · rfl

theorem ancestorOf?_of_heir? (hh : s.heir? gone a = some h) : s.ancestorOf? h = some a :=
  mem_copiesOf.1 (List.mem_of_find?_eq_some hh)

theorem heir?_notMem (hh : s.heir? gone a = some h) : h ∉ gone := by
  simpa using List.find?_some hh

section Settle

variable {held : StreamId → List SegmentRow} {rest : List StreamId}

/-- If no removed stream is a copy the lowest copy is the heir. -/
theorem heir?_eq_head? (hfree : ∀ b ∈ gone, s.ancestorOf? b = none) :
    s.heir? gone a = (s.copiesOf a).head? := by
  have hstay : ∀ c ∈ s.copiesOf a, decide (c ∉ gone) = true := by
    intro c hc
    rw [decide_eq_true_eq]
    intro hmem
    have hnone := hfree c hmem
    rw [mem_copiesOf.1 hc] at hnone
    cases hnone
  unfold heir?
  cases hcopies : s.copiesOf a with
  | nil => rfl
  | cons c cs =>
    rw [hcopies] at hstay
    exact List.find?_cons_of_pos (hstay c List.mem_cons_self)

theorem settle_of_no_copies {rows : List SegmentRow} {more : List (StreamId × List SegmentRow)}
    (hcopies : s.copiesOf a = []) :
    s.settle ((a, rows) :: more) = (rows ++ (s.settle more).1, (s.settle more).2) := by
  rw [settle, hcopies]

theorem settle_of_copies {rows : List SegmentRow} {more : List (StreamId × List SegmentRow)}
    {cs : List StreamId} (hcopies : s.copiesOf a = h :: cs) :
    s.settle ((a, rows) :: more) =
      ((s.promote a h rows).1 ++ ((s.promote a h rows).2.settle more).1,
        ((s.promote a h rows).2.settle more).2) := by
  rw [settle, hcopies]

/-- A stream without copies leaves nothing to settle. -/
theorem settled_of_no_copies (held : StreamId → List SegmentRow)
    (hfree : ∀ b ∈ a :: rest, s.ancestorOf? b = none)
    (hcopies : s.copiesOf a = []) :
    s.bequeathed (a :: rest) held = s.bequeathed rest held ∧
      s.resettled (a :: rest) = s.resettled rest ∧
      s.unclaimed (a :: rest) held = s.unclaimed rest held := by
  have hheir : s.heir? (a :: rest) = s.heir? rest := funext fun b => by
    rw [heir?_eq_head? hfree, heir?_eq_head? fun c hc => hfree c (List.mem_cons_of_mem _ hc)]
  have hne : ∀ x b, s.ancestorOf? x = some b → (b ∈ a :: rest ↔ b ∈ rest) := by
    intro x b hx
    refine ⟨fun hb => ?_, List.mem_cons_of_mem _⟩
    rcases List.mem_cons.1 hb with rfl | hb
    · rw [← mem_copiesOf, hcopies] at hx
      exact absurd hx List.not_mem_nil
    · exact hb
  refine ⟨?_, ?_, ?_⟩
  · funext x r
    unfold bequeathed
    cases hx : s.ancestorOf? x with
    | none => rfl
    | some b => simp only [hne x b hx, hheir]
  · funext x
    unfold resettled
    cases hx : s.ancestorOf? x with
    | none => rfl
    | some b => simp only [hne x b hx, hheir]
  · funext b
    unfold unclaimed
    rw [hheir]

section Copies

variable {cs : List StreamId} (ha : a ∉ rest) (hfree : ∀ b ∈ a :: rest, s.ancestorOf? b = none)
  (hcopies : s.copiesOf a = h :: cs)

include hcopies in
theorem ancestorOf?_head : s.ancestorOf? h = some a :=
  mem_copiesOf.1 (by rw [hcopies]; exact List.mem_cons_self)

include hfree hcopies in
theorem head_notMem : h ∉ a :: rest := by
  intro hmem
  have hnone := hfree h hmem
  rw [ancestorOf?_head hcopies] at hnone
  cases hnone

include hfree in
/-- After a promotion the streams that are still to be settled are no copies. -/
theorem promote_free {rows : List SegmentRow} :
    ∀ b ∈ rest, (s.promote a h rows).2.ancestorOf? b = none := by
  intro b hb
  rw [ancestorOf?_promote]
  split
  · rfl
  · rw [hfree b (List.mem_cons_of_mem _ hb)]
    rfl

include ha hfree hcopies in
/-- After a promotion the streams that are still to be settled have the heirs they had. -/
theorem heir?_promote {rows : List SegmentRow} {b : StreamId} (hb : b ∈ rest) :
    (s.promote a h rows).2.heir? rest b = s.heir? (a :: rest) b := by
  have hba : b ≠ a := fun heq => ha (heq ▸ hb)
  have hbh : b ≠ h := fun heq =>
    head_notMem hfree hcopies (heq ▸ List.mem_cons_of_mem _ hb)
  rw [heir?_eq_head? (promote_free hfree), heir?_eq_head? hfree,
    copiesOf_promote (ancestorOf?_head hcopies) hba hbh]

include hfree hcopies in
theorem heir?_head : s.heir? (a :: rest) a = some h := by
  rw [heir?_eq_head? hfree, hcopies]
  rfl

include ha hfree hcopies in
/-- A promotion and the settlement of the rest settle all. -/
theorem bequeathed_promote (r : Option SegmentRow) :
    (if x = h then r.map (.inherit (held a)) else r).map
        ((s.promote a h (held a)).2.bequeathed rest held x) =
      r.map (s.bequeathed (a :: rest) held x) := by
  have hheir := heir?_head hfree hcopies
  have hrest : h ∉ rest := fun hmem => head_notMem hfree hcopies (List.mem_cons_of_mem _ hmem)
  cases r with
  | none => simp
  | some r =>
    unfold bequeathed
    rw [ancestorOf?_promote]
    by_cases hx : x = h
    · subst hx
      -- the heir has no relation any more, and inherited at once
      rw [if_pos rfl, if_pos rfl, ancestorOf?_head hcopies]
      simp [hheir]
    · rw [if_neg hx, if_neg hx]
      cases hanc : s.ancestorOf? x with
      | none => rfl
      | some b =>
        by_cases hba : b = a
        · subst hba
          -- another copy of the same ancestor follows the heir, which no removal takes away
          have hxh : h ≠ x := fun heq => hx heq.symm
          simp [hheir, hrest, hxh]
        · by_cases hb : b ∈ rest
          · simp [hba, hb, heir?_promote ha hfree hcopies hb]
          · simp [hba, hb]

include ha hfree hcopies in
theorem resettled_promote :
    (s.promote a h (held a)).2.resettled rest x = s.resettled (a :: rest) x := by
  have hheir := heir?_head hfree hcopies
  have hrest : h ∉ rest := fun hmem => head_notMem hfree hcopies (List.mem_cons_of_mem _ hmem)
  unfold resettled
  rw [ancestorOf?_promote]
  by_cases hx : x = h
  · subst hx
    rw [if_pos rfl, ancestorOf?_head hcopies]
    simp [hheir]
  · rw [if_neg hx]
    cases hanc : s.ancestorOf? x with
    | none => rfl
    | some b =>
      by_cases hba : b = a
      · subst hba
        have hxh : h ≠ x := fun heq => hx heq.symm
        simp [hheir, hrest, hxh]
      · by_cases hb : b ∈ rest
        · simp [hba, hb, heir?_promote ha hfree hcopies hb]
        · simp [hba, hb]

theorem contains_promote {rows : List SegmentRow} (k : SegmentId) :
    (s.promote a h rows).2.segments.contains k = s.segments.contains k := by
  unfold Table.contains
  rw [find?_segments, find?_segments, row?_promote]
  split
  · rw [Option.isSome_map]
  · rfl

include ha hfree hcopies in
theorem unclaimed_promote {b : StreamId} (hb : b ∈ rest) :
    (s.promote a h (held a)).2.unclaimed rest held b = s.unclaimed (a :: rest) held b := by
  unfold unclaimed
  rw [heir?_promote ha hfree hcopies hb]
  simp only [contains_promote]

end Copies

/-- What settling families does, when no removed stream is a copy any more. -/
theorem settle_spec (held : StreamId → List SegmentRow) (hgone : gone.Nodup)
    (hfree : ∀ b ∈ gone, s.ancestorOf? b = none) :
    let out := s.settle (gone.map fun a => (a, held a))
    out.2.objects = s.objects ∧ out.2.nodes = s.nodes ∧
      (∀ x p, out.2.row? x p = (s.row? x p).map (s.bequeathed gone held x)) ∧
      (∀ x, out.2.ancestorOf? x = s.resettled gone x) ∧
      out.1 = gone.flatMap (s.unclaimed gone held) := by
  -- the streams behind the first are no copies after it is settled, so each has its heir then as now
  induction gone generalizing s with
  | nil =>
    refine ⟨rfl, rfl, fun x p => ?_, fun x => ?_, rfl⟩
    · have hsame : s.bequeathed [] held x = id := funext fun r => by
        unfold bequeathed
        cases s.ancestorOf? x <;> simp
      rw [hsame, Option.map_id]
      rfl
    · show s.ancestorOf? x = s.resettled [] x
      unfold resettled
      cases s.ancestorOf? x <;> simp
  | cons a rest ih =>
    obtain ⟨ha, hrest⟩ := List.nodup_cons.1 hgone
    rw [List.map_cons]
    cases hcopies : s.copiesOf a with
    | nil =>
      -- no relation names the stream: its rows are orphaned and nothing else changes
      obtain ⟨hobjects, hnodes, hrow, hanc, hout⟩ :=
        ih (s := s) hrest fun b hb => hfree b (List.mem_cons_of_mem _ hb)
      obtain ⟨hbeq, hres, hunc⟩ := settled_of_no_copies held hfree hcopies
      rw [settle_of_no_copies hcopies, hbeq, hres, hunc]
      refine ⟨hobjects, hnodes, hrow, hanc, ?_⟩
      have hleft : s.unclaimed rest held a = held a := by
        unfold unclaimed
        rw [heir?_eq_head? fun b hb => hfree b (List.mem_cons_of_mem _ hb), hcopies]
        rfl
      rw [List.flatMap_cons, hleft, ← hout]
    | cons h cs =>
      obtain ⟨hobjects, hnodes, hrow, hanc, hout⟩ :=
        ih (s := (s.promote a h (held a)).2) hrest (promote_free hfree)
      rw [settle_of_copies hcopies]
      refine ⟨hobjects.trans promote_objects, hnodes.trans promote_nodes, fun x p => ?_,
        fun x => ?_, ?_⟩
      · rw [hrow, row?_promote, bequeathed_promote ha hfree hcopies]
      · rw [hanc, resettled_promote ha hfree hcopies]
      · have hleft : s.unclaimed (a :: rest) held a = (s.promote a h (held a)).1 := by
          unfold unclaimed
          rw [heir?_head hfree hcopies, promote_orphaned]
        have hmore : rest.flatMap ((s.promote a h (held a)).2.unclaimed rest held) =
            rest.flatMap (s.unclaimed (a :: rest) held) :=
          List.flatMap_congr fun b hb => unclaimed_promote ha hfree hcopies hb
        rw [List.flatMap_cons, hleft, ← hmore, ← hout]

end Settle

/-! ## Removing streams -/

/-- What removing streams does to the tables: rows and relations of the streams go, and the families
of removed ancestors are settled. -/
structure Removal (s : Store) (gone : List StreamId) (orphaned : List SegmentRow) (s' : Store) :
    Prop where
  objects_eq : s'.objects = s.objects
  nodes_eq : s'.nodes = s.nodes
  row?_eq : ∀ x p, s'.row? x p =
    if x ∈ gone then none else (s.row? x p).map (s.bequeathed gone s.segmentsOf x)
  ancestorOf?_eq : ∀ x, s'.ancestorOf? x = if x ∈ gone then none else s.resettled gone x
  orphaned_eq : orphaned = gone.flatMap (s.unclaimed gone s.segmentsOf)

/-- The tables without the rows and the relations of streams. -/
def without (s : Store) (gone : List StreamId) : Store :=
  dropRelations { s with segments := s.segments.filter fun r => decide (r.stream ∉ gone) } gone

theorem row?_without : (s.without gone).row? x p = if x ∈ gone then none else s.row? x p := by
  unfold without dropRelations row?
  rw [Table.find?_filter]
  cases hr : s.segments.find? ⟨x, p⟩ with
  | none => simp
  | some r =>
    obtain ⟨-, rfl, -⟩ := row?_eq_some_iff.1 hr
    by_cases hx : r.stream ∈ gone <;> simp [hx]

theorem ancestorOf?_without :
    (s.without gone).ancestorOf? x = if x ∈ gone then none else s.ancestorOf? x := by
  unfold without dropRelations ancestorOf?
  rw [Table.find?_filter]
  cases hc : s.copies.find? x with
  | none => simp
  | some c =>
    obtain rfl := Table.key_of_find? hc
    by_cases hx : c.stream ∈ gone <;> simp [hx]

theorem heir?_without : (s.without gone).heir? gone a = s.heir? gone a := by
  have hcopies : (s.without gone).copiesOf a = (s.copiesOf a).filter fun c => decide (c ∉ gone) := by
    refine copiesOf_eq ((ascending_copiesOf s a).sublist List.filter_sublist) fun c => ?_
    rw [List.mem_filter, mem_copiesOf, ancestorOf?_without, decide_eq_true_eq]
    by_cases hc : c ∈ gone <;> simp [hc]
  unfold heir?
  rw [hcopies, List.find?_filter]
  congr 1
  funext c
  simp

/-- No removal changes objects or aliases, whatever streams it is of. -/
theorem keeps_of_removeStreams {orphaned : List SegmentRow}
    (hok : s.removeStreams gone = .ok (orphaned, s')) :
    s'.objects = s.objects ∧ s'.nodes = s.nodes := by
  have htake : ∀ (l : List StreamId) (s : Store),
      (s.takeSegments l).2.objects = s.objects ∧ (s.takeSegments l).2.nodes = s.nodes := by
    intro l
    induction l with
    | nil => exact fun s => ⟨rfl, rfl⟩
    | cons b rest ih => exact fun s => ih { s with segments := s.segments.filter (·.stream ≠ b) }
  have hsettle : ∀ (l : List (StreamId × List SegmentRow)) (s : Store),
      (s.settle l).2.objects = s.objects ∧ (s.settle l).2.nodes = s.nodes := by
    intro l
    induction l with
    | nil => exact fun s => ⟨rfl, rfl⟩
    | cons b rest ih =>
      intro s
      cases hcopies : s.copiesOf b.1 with
      | nil => rw [settle_of_no_copies hcopies]; exact ih s
      | cons c cs => rw [settle_of_copies hcopies]; exact ih (s.promote b.1 c b.2).2
  unfold removeStreams at hok
  obtain ⟨-, -, hout⟩ := Except.bind_eq_ok.1 hok
  have hs' : ((s.takeSegments gone).2.dropRelations gone).settle (s.takeSegments gone).1 =
      (orphaned, s') := Except.ok.inj hout
  obtain ⟨hobjects, hnodes⟩ :=
    hsettle (s.takeSegments gone).1 ((s.takeSegments gone).2.dropRelations gone)
  rw [hs'] at hobjects hnodes
  exact ⟨hobjects.trans (htake gone s).1, hnodes.trans (htake gone s).2⟩

/-- **A removal that succeeds does what `Removal` says.** -/
theorem removal_of_ok {orphaned : List SegmentRow} (hgone : gone.Nodup)
    (hok : s.removeStreams gone = .ok (orphaned, s')) : s.Removal gone orphaned s' := by
  unfold removeStreams at hok
  rw [takeSegments_eq hgone] at hok
  obtain ⟨-, -, hsettle⟩ := Except.bind_eq_ok.1 hok
  obtain ⟨hobjects, hnodes, hrow, hanc, hout⟩ :=
    settle_spec (s := s.without gone) s.segmentsOf hgone fun b hb => by
      rw [ancestorOf?_without, if_pos hb]
  have hpair : (s.without gone).settle (gone.map fun a => (a, s.segmentsOf a)) = (orphaned, s') :=
    Except.ok.inj hsettle
  rw [hpair] at hobjects hnodes hrow hanc hout
  refine ⟨hobjects, hnodes, fun x p => ?_, fun x => ?_, ?_⟩
  · rw [hrow, row?_without]
    by_cases hx : x ∈ gone
    · rw [if_pos hx, if_pos hx]; rfl
    · rw [if_neg hx, if_neg hx]
      congr 1
      funext r
      unfold bequeathed
      rw [ancestorOf?_without, if_neg hx]
      simp only [heir?_without]
  · rw [hanc]
    unfold resettled
    rw [ancestorOf?_without]
    by_cases hx : x ∈ gone
    · rw [if_pos hx, if_pos hx]
    · rw [if_neg hx, if_neg hx]
      simp only [heir?_without]
  · refine hout.trans (List.flatMap_congr fun a _ => ?_)
    unfold unclaimed
    rw [heir?_without]
    cases hh : s.heir? gone a with
    | none => rfl
    | some h =>
      have hcontains : ∀ q, (s.without gone).segments.contains ⟨h, q⟩ =
          s.segments.contains ⟨h, q⟩ := by
        intro q
        unfold Table.contains
        rw [find?_segments, find?_segments, row?_without, if_neg (heir?_notMem hh)]
      simp only [hcontains]

end Store

end ObjectCatalog
