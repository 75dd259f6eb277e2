import ObjectCatalog.Proofs.Relations

/-!
# Pieces are conserved

A deletion takes rows with pieces away. The pieces of such a row go to the heir of its stream if
there is one, and are reported otherwise.

* `Store.held`: the pieces that rows hold of their own.
* `Store.giver`: the row that a row that stays has its pieces from.
* `DeletionStep.givers_perm`: **every row with pieces gives them to one row that stays, or is orphaned.**
* `Deletes.held_perm`, `Site.Reachable.pieces_conserved`: **what was held is held still or reported.**
-/

namespace ObjectCatalog

open Store

/-! ## What rows hold -/

section Released

variable {t : NodeTable} {r k : SegmentRow}

theorem SegmentRow.released_withPiecesOf : (r.withPiecesOf k).released t = k.released t := rfl

/-- What a shaped row holds can be told. -/
theorem SegmentRow.Shaped.exists_released (hr : r.Shaped t) : ∃ v, r.released t = .ok v := by
  obtain ⟨l, hl, hcovers⟩ := hr.stored
  obtain ⟨pieces, hpieces⟩ := hcovers.piecesOf_ok
  exact ⟨_, Except.bind_eq_ok.2 ⟨l, hl, Except.bind_eq_ok.2 ⟨pieces, hpieces, rfl⟩⟩⟩

/-- Rows that hold the same in some order release the same in that order. -/
theorem perm_of_map_released {rows rows₁ rows₂ : List SegmentRow} {t₁ t₂ : NodeTable}
    {l l₁ l₂ : List ReleasedPieces} (hl : rows.mapM (SegmentRow.released t) = .ok l)
    (hl₁ : rows₁.mapM (SegmentRow.released t₁) = .ok l₁)
    (hl₂ : rows₂.mapM (SegmentRow.released t₂) = .ok l₂)
    (hperm : (rows.map (SegmentRow.released t)).Perm
      (rows₁.map (SegmentRow.released t₁) ++ rows₂.map (SegmentRow.released t₂))) :
    l.Perm (l₁ ++ l₂) := by
  rw [Except.map_eq_of_mapM_eq_ok hl, Except.map_eq_of_mapM_eq_ok hl₁,
    Except.map_eq_of_mapM_eq_ok hl₂, ← List.map_append] at hperm
  exact (List.map_perm_map_iff fun _ _ heq => Except.ok.inj heq).1 hperm

end Released

namespace Store

variable {s s' : Store} {gone : List StreamId} {r k : SegmentRow}

/-- The pieces that rows hold of their own, by root piece and nodes. -/
def held (s : Store) : Except Error (List ReleasedPieces) :=
  (s.segments.rows.filter (·.holdsPieces)).mapM (SegmentRow.released s.nodes)

theorem Coherent.exists_held (hs : s.Coherent) : ∃ l, s.held = .ok l :=
  Except.exists_mapM_eq_ok fun r hr => (hs.shaped r (List.mem_filter.1 hr).1).exists_released

/-! ## Givers -/

/-- The row that a row that stays has its pieces from once streams are removed: the row of the
ancestor for an heir, and otherwise the row itself. -/
def giver (s : Store) (gone : List StreamId) (r : SegmentRow) : SegmentRow :=
  match s.ancestorOf? r.stream with
  | some a => if a ∈ gone ∧ s.heir? gone a = some r.stream then (s.row? a r.position).getD r else r
  | none => r

theorem giver_of_heir {a : StreamId} (ha : a ∈ gone) (hheir : s.heir? gone a = some r.stream)
    (hk : s.row? a r.position = some k) : s.giver gone r = k := by
  unfold giver
  rw [ancestorOf?_of_heir? hheir]
  dsimp only
  rw [if_pos ⟨ha, hheir⟩, hk, Option.getD_some]

theorem giver_of_not_isHeir (hnot : ¬ s.IsHeir gone r.stream) : s.giver gone r = r := by
  unfold giver
  cases hanc : s.ancestorOf? r.stream with
  | none => rfl
  | some a => exact if_neg fun hcond => hnot ⟨a, hcond⟩

/-- **The pieces that a row that stays has are its own, or are those of a removed row whose heir it
is.** -/
theorem Coherent.giver_cases (hs : s.Coherent) (hr : r ∈ s.segments.rows)
    (hholds : (s.bequeathed gone s.segmentsOf r.stream r).holdsPieces = true) :
    s.giver gone r = r ∧ s.bequeathed gone s.segmentsOf r.stream r = r ∨
      s.row? (s.giver gone r).stream r.position = some (s.giver gone r) ∧
        (s.giver gone r).stream ∈ gone ∧
        s.heir? gone (s.giver gone r).stream = some r.stream ∧
        s.bequeathed gone s.segmentsOf r.stream r = r.withPiecesOf (s.giver gone r) := by
  rcases hs.bequeathed_cases gone hr with
    ⟨hnot, hkeep⟩ | ⟨a, ha, k, hheir, hk, hm, ⟨-, htake⟩ | ⟨-, hkeep⟩⟩
  · exact .inl ⟨giver_of_not_isHeir hnot, hkeep⟩
  · right
    rw [giver_of_heir ha hheir hk, (row?_eq_some_iff.1 hk).2.1]
    exact ⟨hk, ha, hheir, htake⟩
  · -- the row of an heir that takes nothing has no pieces
    rw [hkeep, hm.no_pieces] at hholds
    exact absurd hholds (by decide)

/-- The rows that stay and have pieces afterwards. -/
def keepers (s : Store) (gone : List StreamId) : List SegmentRow :=
  (s.segments.rows.filter fun r => decide (r.stream ∉ gone)).filter fun r =>
    (s.bequeathed gone s.segmentsOf r.stream r).holdsPieces

theorem mem_keepers : r ∈ s.keepers gone ↔ r ∈ s.segments.rows ∧ r.stream ∉ gone ∧
    (s.bequeathed gone s.segmentsOf r.stream r).holdsPieces = true := by
  unfold keepers
  rw [List.mem_filter, List.mem_filter, decide_eq_true_eq, and_assoc]

/-- A giver is a row with pieces. -/
theorem Coherent.giver_holds (hs : s.Coherent) (hr : r ∈ s.keepers gone) :
    s.giver gone r ∈ s.segments.rows ∧ (s.giver gone r).holdsPieces = true := by
  obtain ⟨hmem, -, hholds⟩ := mem_keepers.1 hr
  rcases hs.giver_cases hmem hholds with ⟨hown, hkeep⟩ | ⟨hrow, -, -, htake⟩
  · rw [hkeep] at hholds
    rw [hown]
    exact ⟨hmem, hholds⟩
  · rw [htake] at hholds
    exact ⟨(row?_eq_some_iff.1 hrow).1, hholds⟩

/-- **No two rows that stay have their pieces from one row.** -/
theorem Coherent.giver_injOn (hs : s.Coherent) {r₁ r₂ : SegmentRow} (h₁ : r₁ ∈ s.keepers gone)
    (h₂ : r₂ ∈ s.keepers gone) (heq : s.giver gone r₁ = s.giver gone r₂) : r₁ = r₂ := by
  obtain ⟨hr₁, hstays₁, hholds₁⟩ := mem_keepers.1 h₁
  obtain ⟨hr₂, hstays₂, hholds₂⟩ := mem_keepers.1 h₂
  rcases hs.giver_cases hr₁ hholds₁ with ⟨hown₁, -⟩ | ⟨hrow₁, hgone₁, hheir₁, -⟩ <;>
    rcases hs.giver_cases hr₂ hholds₂ with ⟨hown₂, -⟩ | ⟨hrow₂, hgone₂, hheir₂, -⟩
  · rw [← hown₁, heq, hown₂]
  · rw [← heq, hown₁] at hgone₂
    exact absurd hgone₂ hstays₁
  · rw [heq, hown₂] at hgone₁
    exact absurd hgone₁ hstays₂
  · have hpos : r₁.position = r₂.position := by
      rw [← (row?_eq_some_iff.1 hrow₁).2.2, heq, (row?_eq_some_iff.1 hrow₂).2.2]
    rw [heq, hheir₂, Option.some.injEq] at hheir₁
    have hid : r₁.id = r₂.id := by
      unfold SegmentRow.id
      rw [hheir₁, hpos]
    exact s.segments.eq_of_key_eq hr₁ hr₂ hid

/-! ## Orphans -/

/-- An heir takes all that a removed stream has. -/
theorem Coherent.unclaimed_of_heir (hs : s.Coherent) {a h : StreamId} (hheir : s.heir? gone a = some h) :
    s.unclaimed gone s.segmentsOf a = [] := by
  unfold unclaimed
  rw [hheir]
  dsimp only
  rw [List.filter_eq_nil_iff]
  intro k hk hlacks
  have hkRow := mem_segmentsOf_iff_row?.1 (List.mem_filter.1 hk).1
  obtain ⟨c, hc, -⟩ :=
    ((hs.families _ _ (ancestorOf?_of_heir? hheir)).rows k.position).exists_left hkRow
  rw [Table.contains, find?_segments, hc] at hlacks
  exact Bool.false_ne_true hlacks

end Store

namespace DeletionStep

variable {s s' : Store} {rows : List ObjectRow} {orphaned : List SegmentRow}
  (hs : s.Coherent) (h : DeletionStep s rows orphaned s')

include hs h

/-- **Only streams without an heir have orphaned rows:** an heir lacks no segment of its ancestor. -/
theorem orphaned_cases {k : SegmentRow} (hk : k ∈ orphaned) :
    k ∈ s.segments.rows ∧ k.stream ∈ goneStreams rows ∧
      s.heir? (goneStreams rows) k.stream = none := by
  rw [(h.removal hs).orphaned_eq] at hk
  obtain ⟨a, ha, hk⟩ := List.mem_flatMap.1 hk
  have hunclaimed : k ∈ s.unclaimed (goneStreams rows) s.segmentsOf a := hk
  cases hheir : s.heir? (goneStreams rows) a with
  | some b =>
    rw [hs.unclaimed_of_heir hheir] at hunclaimed
    exact absurd hunclaimed List.not_mem_nil
  | none =>
    unfold unclaimed at hunclaimed
    rw [hheir] at hunclaimed
    obtain ⟨hmem, rfl⟩ := mem_segmentsOf.1 hunclaimed
    exact ⟨hmem, ha, hheir⟩

/-- The orphaned rows with pieces are those of removed streams without an heir. -/
theorem mem_orphaned {k : SegmentRow} : k ∈ orphaned.filter (·.holdsPieces) ↔
    k ∈ s.segments.rows ∧ k.holdsPieces = true ∧ k.stream ∈ goneStreams rows ∧
      s.heir? (goneStreams rows) k.stream = none := by
  rw [List.mem_filter]
  constructor
  · rintro ⟨hk, hholds⟩
    obtain ⟨hmem, hgone, hheir⟩ := h.orphaned_cases hs hk
    exact ⟨hmem, hholds, hgone, hheir⟩
  · rintro ⟨hmem, hholds, ha, hheir⟩
    rw [(h.removal hs).orphaned_eq, List.mem_flatMap]
    refine ⟨⟨k.stream, ha, ?_⟩, hholds⟩
    have hunclaimed : k ∈ s.unclaimed (goneStreams rows) s.segmentsOf k.stream := by
      unfold unclaimed
      rw [hheir]
      exact mem_segmentsOf.2 ⟨hmem, rfl⟩
    exact hunclaimed

theorem nodup_orphaned : (orphaned.filter (·.holdsPieces)).Nodup := by
  have hsub : ∀ a, (s.unclaimed (goneStreams rows) s.segmentsOf a).Sublist (s.segmentsOf a) := by
    intro a
    unfold unclaimed
    split
    · exact .refl _
    · exact List.filter_sublist.trans List.filter_sublist
  refine List.Nodup.filter _ ?_
  rw [(h.removal hs).orphaned_eq, List.nodup_flatMap]
  refine ⟨fun a _ => (nodup_segmentsOf s a).sublist (hsub a), ?_⟩
  refine (h.nodup_gone hs).imp fun {a b} hne => ?_
  intro k hka hkb
  exact hne ((mem_segmentsOf.1 ((hsub a).subset hka)).2.symm.trans
    (mem_segmentsOf.1 ((hsub b).subset hkb)).2)

/-! ## Every piece list goes to one place -/

/-- A row with pieces gives them to a row that stays, or is orphaned. -/
theorem given_or_orphaned {k : SegmentRow} (hk : k ∈ s.segments.rows) (hholds : k.holdsPieces = true) :
    (∃ r ∈ s.keepers (goneStreams rows), s.giver (goneStreams rows) r = k) ∨
      k ∈ orphaned.filter (·.holdsPieces) := by
  by_cases hgone : k.stream ∈ goneStreams rows
  · cases hheir : s.heir? (goneStreams rows) k.stream with
    | none => exact .inr ((h.mem_orphaned hs).2 ⟨hk, hholds, hgone, hheir⟩)
    | some b =>
      -- the heir has a row beside this one, which takes its pieces
      obtain ⟨c, hc, -⟩ := ((hs.families _ _ (ancestorOf?_of_heir? hheir)).rows
        k.position).exists_left (row?_self hk)
      obtain ⟨hcMem, rfl, hpos⟩ := row?_eq_some_iff.1 hc
      have hkRow : s.row? k.stream c.position = some k := hpos.symm ▸ row?_self hk
      refine .inl ⟨c, mem_keepers.2 ⟨hcMem, heir?_notMem hheir, ?_⟩, giver_of_heir hgone hheir hkRow⟩
      rw [bequeathed_of_heir hheir hgone hkRow, hholds, if_pos rfl]
      exact hholds
  · have hnot : ¬ s.IsHeir (goneStreams rows) k.stream :=
      not_isHeir_of_root (hs.ancestorOf?_of_holdsPieces hk hholds)
    refine .inl ⟨k, mem_keepers.2 ⟨hk, hgone, ?_⟩, giver_of_not_isHeir hnot⟩
    rw [bequeathed_of_not_isHeir hnot]
    exact hholds

/-- **Every row with pieces gives them to one row that stays, or is orphaned.** -/
theorem givers_perm : (s.segments.rows.filter (·.holdsPieces)).Perm
    ((s.keepers (goneStreams rows)).map (s.giver (goneStreams rows)) ++
      orphaned.filter (·.holdsPieces)) := by
  have hkeepers : (s.keepers (goneStreams rows)).Nodup := (s.segments.nodup.filter _).filter _
  have hgivers : ((s.keepers (goneStreams rows)).map (s.giver (goneStreams rows))).Nodup :=
    hkeepers.map_on fun _ h₁ _ h₂ heq => hs.giver_injOn h₁ h₂ heq
  have hdisjoint : List.Disjoint ((s.keepers (goneStreams rows)).map (s.giver (goneStreams rows)))
      (orphaned.filter (·.holdsPieces)) := by
    intro k hk horphan
    obtain ⟨-, -, hgone, hheir⟩ := (h.mem_orphaned hs).1 horphan
    obtain ⟨r, hr, rfl⟩ := List.mem_map.1 hk
    obtain ⟨hmem, hstays, hholds⟩ := mem_keepers.1 hr
    rcases hs.giver_cases hmem hholds with ⟨hown, -⟩ | ⟨-, -, hheir', -⟩
    · rw [hown] at hgone
      exact hstays hgone
    · rw [hheir] at hheir'
      cases hheir'
  rw [List.perm_ext_iff_of_nodup (s.segments.nodup.filter _)
    (hgivers.append (h.nodup_orphaned hs) hdisjoint)]
  intro k
  rw [List.mem_filter, List.mem_append, List.mem_map]
  constructor
  · rintro ⟨hk, hholds⟩
    exact h.given_or_orphaned hs hk hholds
  · rintro (⟨r, hr, rfl⟩ | horphan)
    · exact hs.giver_holds hr
    · obtain ⟨hk, hholds, -⟩ := (h.mem_orphaned hs).1 horphan
      exact ⟨hk, hholds⟩

/-- The rows after a deletion are the rows that stay, with what they get. -/
theorem segments_rows : s'.segments.rows =
    (s.segments.rows.filter fun r => decide (r.stream ∉ goneStreams rows)).map fun r =>
      s.bequeathed (goneStreams rows) s.segmentsOf r.stream r := by
  have htable : s'.segments = (s.segments.filter fun r => decide (r.stream ∉ goneStreams rows)).update
      (fun r => s.bequeathed (goneStreams rows) s.segmentsOf r.stream r)
      fun _ => id_bequeathed := by
    refine Table.ext_find? fun q => ?_
    rw [find?_segments, h.row?_eq hs, Table.find?_update, Table.find?_filter, find?_segments]
    cases hr : s.row? q.stream q.position with
    | none => split <;> rfl
    | some r =>
      obtain ⟨-, hstream, -⟩ := row?_eq_some_iff.1 hr
      by_cases hgone : q.stream ∈ goneStreams rows
      · rw [if_pos hgone, Option.filter_some_neg (by simp [hstream, hgone])]
        rfl
      · rw [if_neg hgone, Option.filter_some_pos (by simp [hstream, hgone]), Option.map_some,
          Option.map_some, hstream]
  rw [htable]
  rfl

/-- **What rows held before a deletion is what they hold afterwards and what the orphaned rows
held.** -/
theorem released_perm :
    ((s.segments.rows.filter (·.holdsPieces)).map (SegmentRow.released s.nodes)).Perm
      ((s'.segments.rows.filter (·.holdsPieces)).map (SegmentRow.released s'.nodes) ++
        (orphaned.filter (·.holdsPieces)).map (SegmentRow.released s'.nodes)) := by
  have hkept : (s'.segments.rows.filter (·.holdsPieces)).map (SegmentRow.released s.nodes) =
      ((s.keepers (goneStreams rows)).map (s.giver (goneStreams rows))).map
        (SegmentRow.released s.nodes) := by
    rw [h.segments_rows hs, List.filter_map, List.map_map, List.map_map]
    refine List.map_congr_left fun r hr => ?_
    obtain ⟨hmem, -, hholds⟩ := mem_keepers.1 hr
    rcases hs.giver_cases hmem hholds with ⟨hown, hkeep⟩ | ⟨-, -, -, htake⟩
    · rw [Function.comp_apply, Function.comp_apply, hkeep, hown]
    · rw [Function.comp_apply, Function.comp_apply, htake, SegmentRow.released_withPiecesOf]
  rw [h.nodes_eq hs, hkept, ← List.map_append]
  exact (h.givers_perm hs).map _

end DeletionStep

/-! ## Deletions of coherent tables -/

namespace Catalog

variable {s s' : Store} {statement : Statement} {rows : List ObjectRow}

/-- Streams of coherent tables can be removed: every segment can be read. -/
theorem exists_removeStreams (hs : s.Coherent) (rows : List ObjectRow)
    {gone : List StreamId} (hgone : gone.Nodup) :
    ∃ out, (s.dropObjects rows).removeStreams gone = .ok out := by
  have htaken : ∀ r ∈ (gone.map fun a => (a, s.segmentsOf a)).flatMap (·.2),
      r.rootPiece?.isSome = true := by
    intro r hr
    obtain ⟨q, hq, hmem⟩ := List.mem_flatMap.1 hr
    obtain ⟨a, -, rfl⟩ := List.mem_map.1 hq
    exact (hs.shaped r (mem_segmentsOf.1 hmem).1).rootPiece_isSome
  unfold Store.removeStreams
  rw [takeSegments_eq hgone]
  exact ⟨_, Except.bind_eq_ok.2 ⟨(), SegmentRow.require_of_forall htaken _, rfl⟩⟩

/-- **A deletion of coherent tables fails only at an object row that cannot be read.** -/
theorem EndsDeletion.unread_of_error {e : Error}
    (h : EndsDeletion statement s rows (.error e) s') (hs : s.Coherent)
    (hstored : ∀ o ∈ rows, o ∈ s.objects.rows) (hnodup : rows.Nodup) :
    (ObjectRow.byAge rows).mapM (·.view statement) = .error e := by
  cases h with
  | unread hobjects => exact hobjects
  | unremoved hremoved =>
    obtain ⟨out, hok⟩ :=
      exists_removeStreams hs rows (hs.nodup_goneStreams hstored hnodup)
    have herror : (s.dropObjects rows).removeStreams (goneStreams rows) = .error e := hremoved
    rw [herror] at hok
    cases hok
  | untold hstep hsegments =>
    obtain ⟨segments, hok⟩ := Except.exists_mapM_eq_ok fun k hk =>
      (hs.shaped k ((hstep.mem_orphaned hs).1 hk).1).exists_released
    rw [← hstep.nodes_eq hs, hsegments] at hok
    cases hok

end Catalog

/-! ## Calls that delete -/

variable {s s' : Store} {d : Deletion}

/-- **Deletions conserve pieces.** -/
theorem Deletes.held_perm {statement : Statement} (h : Deletes statement s d s') (hs : s.Coherent) :
    ∃ before after, s.held = .ok before ∧ s'.held = .ok after ∧
      before.Perm (after ++ d.segments) := by
  induction h with
  | none =>
    obtain ⟨l, hl⟩ := hs.exists_held
    exact ⟨l, l, hl, hl, by rw [List.append_nil]⟩
  | @rows s s₁ s' rows orphaned objects segments d hstep _ hsegments _ ih =>
    obtain ⟨before, hbefore⟩ := hs.exists_held
    obtain ⟨between, after, hbetween, hafter, hrest⟩ := ih (hstep.coherent hs)
    refine ⟨before, after, hbefore, hafter, ?_⟩
    calc List.Perm before (between ++ segments) :=
          perm_of_map_released hbefore hbetween hsegments (hstep.released_perm hs)
      List.Perm _ ((after ++ d.segments) ++ segments) := hrest.append_right segments
      List.Perm _ (after ++ (segments ++ d.segments)) := by
        rw [List.append_assoc]
        exact List.perm_append_comm.append_left after

/-- **In runs with fresh stream ids every call that deletes, whichever it is, reports the pieces that
are held no more and no others.** -/
theorem Site.Reachable.pieces_conserved {σ : Site} (hσ : σ.Reachable Lacks) {i : Nat} {h : Handle}
    (hget : σ.handles[i]? = some h) (now : Instant) (call : DeleteCall)
    (hok : ((σ.catalog h).run call.action).1 = .ok d) :
    ∃ before after, σ.store.map held = some (.ok before) ∧
      (σ.step (.call i now (.delete call))).store.map held = some (.ok after) ∧
      (before : Multiset ReleasedPieces) = after + d.segments := by
  obtain ⟨s, hstands⟩ := hσ.stands
  obtain ⟨s', hopen, -, hdeletes⟩ :=
    Catalog.sheds_delete call _ (hstands.open (List.mem_of_getElem? hget))
  obtain ⟨before, after, hbefore, hafter, hperm⟩ :=
    (hdeletes d hok).held_perm (hσ.coherent hstands.store)
  have hstep : (σ.step (.call i now (.delete call))).store = some s' := by
    rw [Site.step_call hget]
    exact hopen.store
  refine ⟨before, after, ?_, ?_, ?_⟩
  · rw [hstands.store, Option.map_some, hbefore]
  · rw [hstep, Option.map_some, hafter]
  · rw [Multiset.coe_add]
    exact Multiset.coe_eq_coe.2 hperm

/-- The deletion of a bucket one object after the other, in which the pieces go from the ancestor to
one copy and then to the next. -/
def Sample.emptying : DeleteCall := .bucket (.ofNat 1) "bucket" 1

theorem Sample.pieces_conserved_site : ∃ d before after,
    ((site.catalog (handleOf site)).run emptying.action).1 = .ok d ∧ d.segments.length = 1 ∧
      site.store.map held = some (.ok before) ∧
      (site.step (.call 0 moment (.delete emptying))).store.map held = some (.ok after) ∧
      (before : Multiset ReleasedPieces) = after + d.segments := by
  have hget : site.handles[0]? = some (handleOf site) := getElem?_handles (by decide +kernel)
  have hreport : (((site.catalog (handleOf site)).run emptying.action).1.toOption.map
      (·.segments.length)) = some 1 := by decide +kernel
  obtain ⟨d, hok⟩ : ∃ d, ((site.catalog (handleOf site)).run emptying.action).1 = .ok d :=
    Except.exists_eq_ok (by decide +kernel)
  rw [hok] at hreport
  obtain ⟨before, after, hbefore, hafter, hsum⟩ :=
    Site.Reachable.pieces_conserved reachable_site hget moment emptying hok
  exact ⟨d, before, after, hok, Option.some.inj hreport, hbefore, hafter, hsum⟩

end ObjectCatalog
