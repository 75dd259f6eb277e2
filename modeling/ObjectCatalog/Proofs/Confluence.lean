import ObjectCatalog.Proofs.Conservation

/-!
# Deletions are confluent

A stream that goes may hand its pieces to a copy that goes later, which hands them on. In the end they
are with the lowest copy that stays, as if all had gone at once.

* `Store.Cleared`: the tables that the deletion of streams leaves, said by lookups in the tables
  before. It depends on which streams go, and not on their order.
* `Store.Cleared.trans`: **streams that go in two steps leave what they leave in one.**
* `Store.Erased`: tables and reports together.
* `Site.Erases`, `Site.Reachable.deletion_confluent`: **ways to delete the same objects agree.**
-/

namespace ObjectCatalog

open Store

namespace Store

variable {s s₁ s₂ s' : Store} {gone gone' : List StreamId} {x a b h : StreamId} {p : Int}
  {r k : SegmentRow}

/-! ## Heirs by comparison -/

/-- The heir of a stream is the lowest of its copies that stay. -/
theorem heir?_eq_some_iff : s.heir? gone a = some h ↔
    (s.ancestorOf? h = some a ∧ h ∉ gone) ∧
      ∀ c, s.ancestorOf? c = some a ∧ c ∉ gone → c = h ∨ compare h c = .lt := by
  have hlowest : ∀ {y}, s.heir? gone a = some y →
      ∀ c, s.ancestorOf? c = some a ∧ c ∉ gone → c = y ∨ compare y c = .lt := by
    intro y hy c hc
    obtain ⟨-, before, after, hcopies, hbefore⟩ := List.find?_eq_some_iff_append.1 hy
    have hmem := mem_copiesOf.2 hc.1
    rw [hcopies, List.mem_append, List.mem_cons] at hmem
    rcases hmem with hmem | rfl | hmem
    · have hgone := hbefore c hmem
      simp [hc.2] at hgone
    · exact .inl rfl
    · have hasc := ascending_copiesOf s a
      rw [hcopies] at hasc
      exact .inr ((List.pairwise_cons.1 (List.pairwise_append.1 hasc).2.1).1 c hmem)
  constructor
  · intro hheir
    exact ⟨⟨ancestorOf?_of_heir? hheir, heir?_notMem hheir⟩, hlowest hheir⟩
  · rintro ⟨⟨hanc, hstays⟩, hleast⟩
    obtain ⟨y, hy⟩ := exists_heir? hanc hstays
    rw [hy]
    have hyStays : s.ancestorOf? y = some a ∧ y ∉ gone :=
      ⟨ancestorOf?_of_heir? hy, heir?_notMem hy⟩
    rcases hlowest hy h ⟨hanc, hstays⟩ with rfl | hlt
    · rfl
    · rcases hleast y hyStays with rfl | hgt
      · rfl
      · -- each would be lower than the other
        rw [Std.OrientedCmp.gt_of_lt hlt] at hgt
        cases hgt

/-- Two streams have the same heir if the same of their copies stay. -/
theorem heir?_congr (hsame : ∀ c, s.ancestorOf? c = some a ∧ c ∉ gone ↔
    s'.ancestorOf? c = some b ∧ c ∉ gone') : s.heir? gone a = s'.heir? gone' b := by
  refine Option.ext fun y => ?_
  rw [heir?_eq_some_iff, heir?_eq_some_iff, hsame y]
  simp only [hsame]

/-- Who is the heir stays it when others go. -/
theorem heir?_append (hheir : s.heir? gone a = some b) (hb : b ∉ gone') :
    s.heir? (gone ++ gone') a = some b := by
  obtain ⟨⟨hanc, hstays⟩, hleast⟩ := heir?_eq_some_iff.1 hheir
  refine heir?_eq_some_iff.2 ⟨⟨hanc, fun hmem => ?_⟩, fun c hc => hleast c ⟨hc.1, fun hmem => ?_⟩⟩
  · exact (List.mem_append.1 hmem).elim hstays hb
  · exact hc.2 (List.mem_append_left _ hmem)

/-- A copy of a removed stream is its heir or follows the heir. -/
theorem resettled_gone (hanc : s.ancestorOf? x = some a) (ha : a ∈ gone) :
    s.resettled gone x = if s.heir? gone a = some x then none else s.heir? gone a := by
  unfold resettled
  rw [hanc]
  exact if_pos ha

/-! ## The tables that are left -/

/-- The tables that the deletion of streams leaves: their objects go, and rows and relations that stay
are settled. -/
structure Cleared (s : Store) (gone : List StreamId) (s' : Store) : Prop where
  stored : ∀ x ∈ gone, ∃ o ∈ s.objects.rows, o.stream = x
  mem_objects : ∀ o, o ∈ s'.objects.rows ↔ o ∈ s.objects.rows ∧ o.stream ∉ gone
  nodes_eq : s'.nodes = s.nodes
  row?_eq : ∀ x p, s'.row? x p =
    if x ∈ gone then none else (s.row? x p).map (s.bequeathed gone s.segmentsOf x)
  ancestorOf?_eq : ∀ x, s'.ancestorOf? x = if x ∈ gone then none else s.resettled gone x

theorem cleared_nil (s : Store) : s.Cleared [] s where
  stored _ hx := absurd hx List.not_mem_nil
  mem_objects o := (and_iff_left List.not_mem_nil).symm
  nodes_eq := rfl
  row?_eq x p := by
    have hnot : ¬ s.IsHeir [] x := fun ⟨_, ha, _⟩ => absurd ha List.not_mem_nil
    rw [if_neg List.not_mem_nil]
    cases s.row? x p with
    | none => rfl
    | some r => rw [Option.map_some, bequeathed_of_not_isHeir hnot]
  ancestorOf?_eq x := by
    rw [if_neg List.not_mem_nil]
    cases hanc : s.ancestorOf? x with
    | none => rw [resettled_root hanc]
    | some a => rw [resettled_kept hanc List.not_mem_nil]

namespace Cleared

/-- The streams that have gone are those of objects that have gone. -/
theorem mem_gone_iff (h : s.Cleared gone s') :
    x ∈ gone ↔ (∃ o ∈ s.objects.rows, o.stream = x) ∧ ∀ o ∈ s'.objects.rows, o.stream ≠ x := by
  constructor
  · intro hx
    refine ⟨h.stored x hx, fun o ho heq => ?_⟩
    exact ((h.mem_objects o).1 ho).2 (heq ▸ hx)
  · rintro ⟨⟨o, ho, rfl⟩, hnone⟩
    by_contra hstays
    exact hnone o ((h.mem_objects o).2 ⟨ho, hstays⟩) rfl

/-- **The tables that are left depend only on the objects that are left.** -/
theorem unique (h : s.Cleared gone s₁) (h' : s.Cleared gone' s₂) (hsame : s₁.objects = s₂.objects) :
    s₁ = s₂ := by
  have hgone : ∀ y, y ∈ gone ↔ y ∈ gone' := fun y => by
    rw [h.mem_gone_iff, h'.mem_gone_iff, hsame]
  have hheir : s.heir? gone = s.heir? gone' := funext fun c =>
    heir?_congr fun y => and_congr_right fun _ => not_congr (hgone y)
  have hsegments : s₁.segments = s₂.segments := by
    refine Table.ext_find? fun q => ?_
    have hrow : s₁.row? q.stream q.position = s₂.row? q.stream q.position := by
      rw [h.row?_eq, h'.row?_eq]
      unfold bequeathed
      simp only [hgone, hheir]
    exact hrow
  have hcopies : s₁.copies = s₂.copies := by
    refine Table.ext (s₁.copies.ascending.eq_of_mem_iff s₂.copies.ascending fun c => ?_)
    rw [← ancestorOf?_eq_some_iff, ← ancestorOf?_eq_some_iff, h.ancestorOf?_eq, h'.ancestorOf?_eq]
    unfold resettled
    simp only [hgone, hheir]
  have hnodes : s₁.nodes = s₂.nodes := h.nodes_eq.trans h'.nodes_eq.symm
  cases s₁
  cases s₂
  cases hsame
  cases hsegments
  cases hcopies
  cases hnodes
  rfl

section Twice

variable (hs : s.Coherent) (h₁ : s.Cleared gone s₁)

include hs h₁

omit hs in
/-- A root that stays keeps its copies, so its heir is the same as if all went at once. -/
theorem heir?_of_root (hroot : s.ancestorOf? a = none) (ha : a ∉ gone) :
    s₁.heir? gone' a = s.heir? (gone ++ gone') a := by
  refine heir?_congr fun c => ?_
  rw [h₁.ancestorOf?_eq, List.mem_append, not_or]
  by_cases hc : c ∈ gone
  · rw [if_pos hc]
    exact iff_of_false (fun hno => by cases hno.1) fun hno => hno.2.1 hc
  · rw [if_neg hc]
    -- no stream follows an heir to this root, for an heir was a copy
    have hsettled : s.resettled gone c = some a ↔ s.ancestorOf? c = some a := by
      cases s.fate hc with
      | root hanc => rw [resettled_root hanc, hanc]
      | kept hanc hb => rw [resettled_kept hanc hb, hanc]
      | @heir b hheir hb =>
        rw [resettled_heir hheir hb, ancestorOf?_of_heir? hheir]
        exact iff_of_false (fun hno => by cases hno) fun heq => ha (Option.some.inj heq ▸ hb)
      | @follower b d hanc hb hheir hne =>
        rw [resettled_follower hanc hb hheir hne, hanc]
        refine iff_of_false (fun heq => ?_) fun heq => ha (Option.some.inj heq ▸ hb)
        rw [Option.some.inj heq] at hheir
        rw [ancestorOf?_of_heir? hheir] at hroot
        cases hroot
    rw [hsettled]
    exact and_congr_right fun _ => (and_iff_right hc).symm

/-- An heir that goes leaves to the one who would have been heir if both had gone at once. -/
theorem heir?_of_heir (ha : a ∈ gone) (hheir : s.heir? gone a = some b) (hb : b ∈ gone') :
    s₁.heir? gone' b = s.heir? (gone ++ gone') a := by
  have hbanc := ancestorOf?_of_heir? hheir
  refine heir?_congr fun c => ?_
  rw [h₁.ancestorOf?_eq, List.mem_append, not_or]
  by_cases hc : c ∈ gone
  · rw [if_pos hc]
    exact iff_of_false (fun hno => by cases hno.1) fun hno => hno.2.1 hc
  · rw [if_neg hc]
    by_cases hcb : c = b
    · subst hcb
      exact iff_of_false (fun hno => hno.2 hb) fun hno => hno.2.2 hb
    · -- who follows the heir are the other copies of its ancestor
      have hsettled : s.resettled gone c = some b ↔ s.ancestorOf? c = some a := by
        constructor
        · intro hcanc
          cases s.fate hc with
          | root hanc =>
            rw [resettled_root hanc] at hcanc
            cases hcanc
          | kept hanc hd =>
            -- a copy is no ancestor
            rw [resettled_kept hanc hd, Option.some.injEq] at hcanc
            subst hcanc
            rw [(hs.families _ _ hanc).root] at hbanc
            cases hbanc
          | heir hheir' hd =>
            rw [resettled_heir hheir' hd] at hcanc
            cases hcanc
          | follower hanc hd hheir' hne =>
            rw [resettled_follower hanc hd hheir' hne, Option.some.injEq] at hcanc
            subst hcanc
            rw [ancestorOf?_of_heir? hheir'] at hbanc
            rw [hanc, hbanc]
        · intro hcanc
          exact resettled_follower hcanc ha hheir (Ne.symm hcb)
      rw [hsettled]
      exact and_congr_right fun _ => (and_iff_right hc).symm

/-- A copy that is heir to the first heir gets the pieces of the ancestor by way of it. -/
theorem bequeathed_by_way (hr : r ∈ s.segments.rows) (hanc : s.ancestorOf? r.stream = some a)
    (ha : a ∈ gone) (hheir : s.heir? gone a = some b) (hb : b ∈ gone')
    (hheir₁ : s₁.heir? gone' b = some r.stream) :
    s₁.bequeathed gone' s₁.segmentsOf r.stream r =
      s.bequeathed (gone ++ gone') s.segmentsOf r.stream r := by
  have hheir' : s.heir? (gone ++ gone') a = some r.stream :=
    (h₁.heir?_of_heir hs ha hheir hb).symm.trans hheir₁
  obtain ⟨k, hk, -⟩ := ((hs.families _ _ hanc).rows r.position).exists_right (row?_self hr)
  obtain ⟨kb, hkb, hmb⟩ :=
    ((hs.families _ _ (ancestorOf?_of_heir? hheir)).rows r.position).exists_left hk
  have hpos : kb.position = r.position := (row?_eq_some_iff.1 hkb).2.2
  have hkb₁ : s₁.row? b r.position = some (if k.holdsPieces then kb.withPiecesOf k else kb) := by
    rw [h₁.row?_eq, if_neg (heir?_notMem hheir), hkb, Option.map_some,
      bequeathed_of_heir hheir ha (hpos.symm ▸ hk)]
  rw [bequeathed_of_heir hheir₁ hb hkb₁,
    bequeathed_of_heir hheir' (List.mem_append_left _ ha) hk]
  cases hholds : k.holdsPieces with
  | true =>
    rw [if_pos rfl, if_pos rfl]
    exact if_pos hholds
  | false =>
    rw [if_neg Bool.false_ne_true, if_neg Bool.false_ne_true]
    exact if_neg (by rw [hmb.no_pieces]; decide)

/-- **The rows of a stream that stays are the same whether others go in two steps or in one.** -/
theorem bequeathed_twice (hx : x ∉ gone) (hx' : x ∉ gone') (hr : s.row? x p = some r) :
    s₁.bequeathed gone' s₁.segmentsOf x (s.bequeathed gone s.segmentsOf x r) =
      s.bequeathed (gone ++ gone') s.segmentsOf x r := by
  obtain ⟨hmem, rfl, rfl⟩ := row?_eq_some_iff.1 hr
  have hanc₁ : s₁.ancestorOf? r.stream = s.resettled gone r.stream := by
    rw [h₁.ancestorOf?_eq, if_neg hx]
  cases s.fate hx with
  | root hanc =>
    rw [resettled_root hanc] at hanc₁
    rw [bequeathed_of_not_isHeir (not_isHeir_of_root hanc),
      bequeathed_of_not_isHeir (not_isHeir_of_root hanc₁),
      bequeathed_of_not_isHeir (not_isHeir_of_root hanc)]
  | @kept a hanc ha =>
    rw [resettled_kept hanc ha] at hanc₁
    rw [bequeathed_of_not_isHeir (not_isHeir_of_kept hanc ha)]
    have hrel := hs.families _ _ hanc
    have hheirs : s₁.heir? gone' a = s.heir? (gone ++ gone') a := h₁.heir?_of_root hrel.root ha
    by_cases hheir : a ∈ gone' ∧ s₁.heir? gone' a = some r.stream
    · -- the ancestor goes in the second step, with the rows it had
      obtain ⟨k, hk, -⟩ := (hrel.rows r.position).exists_right (row?_self hmem)
      have hk₁ : s₁.row? a r.position = some k := by
        rw [h₁.row?_eq, if_neg ha, hk, Option.map_some,
          bequeathed_of_not_isHeir (not_isHeir_of_root hrel.root)]
      rw [bequeathed_of_heir hheir.2 hheir.1 hk₁,
        bequeathed_of_heir (hheirs ▸ hheir.2) (List.mem_append_right _ hheir.1) hk]
    · have hnot : ¬ s.IsHeir (gone ++ gone') r.stream := fun hh => by
        obtain ⟨hmem', hheir'⟩ := (isHeir_iff hanc).1 hh
        rw [← hheirs] at hheir'
        exact hheir ⟨(List.mem_append.1 hmem').resolve_left ha, hheir'⟩
      rw [bequeathed_of_not_isHeir fun hh => hheir ((isHeir_iff hanc₁).1 hh),
        bequeathed_of_not_isHeir hnot]
  | @heir a hheir ha =>
    -- the first step gives it what it gets
    rw [resettled_heir hheir ha] at hanc₁
    obtain ⟨k, hk, -⟩ := ((hs.families _ _ (ancestorOf?_of_heir? hheir)).rows
      r.position).exists_right (row?_self hmem)
    rw [bequeathed_of_not_isHeir (not_isHeir_of_root hanc₁), bequeathed_of_heir hheir ha hk,
      bequeathed_of_heir (heir?_append hheir hx') (List.mem_append_left _ ha) hk]
  | @follower a b hanc ha hheir hne =>
    rw [resettled_follower hanc ha hheir hne] at hanc₁
    rw [bequeathed_of_not_isHeir (not_isHeir_of_follower hanc hheir hne)]
    by_cases hb : b ∈ gone'
    · have hheirs := h₁.heir?_of_heir hs ha hheir hb
      by_cases hheir₁ : s₁.heir? gone' b = some r.stream
      · exact h₁.bequeathed_by_way hs hmem hanc ha hheir hb hheir₁
      · have hnot : ¬ s.IsHeir (gone ++ gone') r.stream := fun hh => by
          have hheir' := ((isHeir_iff hanc).1 hh).2
          rw [← hheirs] at hheir'
          exact hheir₁ hheir'
        rw [bequeathed_of_not_isHeir fun hh => hheir₁ ((isHeir_iff hanc₁).1 hh).2,
          bequeathed_of_not_isHeir hnot]
    · rw [bequeathed_of_not_isHeir (not_isHeir_of_kept hanc₁ hb),
        bequeathed_of_not_isHeir (not_isHeir_of_follower hanc (heir?_append hheir hb) hne)]

/-- **So are the relations.** -/
theorem resettled_twice (hx : x ∉ gone) (hx' : x ∉ gone') :
    s₁.resettled gone' x = s.resettled (gone ++ gone') x := by
  have hanc₁ : s₁.ancestorOf? x = s.resettled gone x := by
    rw [h₁.ancestorOf?_eq, if_neg hx]
  cases s.fate hx with
  | root hanc =>
    rw [resettled_root hanc] at hanc₁
    rw [resettled_root hanc₁, resettled_root hanc]
  | @kept a hanc ha =>
    rw [resettled_kept hanc ha] at hanc₁
    by_cases ha' : a ∈ gone'
    · rw [resettled_gone hanc₁ ha', resettled_gone hanc (List.mem_append_right _ ha'),
        h₁.heir?_of_root (hs.families _ _ hanc).root ha]
    · have hstays : a ∉ gone ++ gone' := fun hmem => (List.mem_append.1 hmem).elim ha ha'
      rw [resettled_kept hanc₁ ha', resettled_kept hanc hstays]
  | @heir a hheir ha =>
    rw [resettled_heir hheir ha] at hanc₁
    rw [resettled_root hanc₁,
      resettled_heir (heir?_append hheir hx') (List.mem_append_left _ ha)]
  | @follower a b hanc ha hheir hne =>
    rw [resettled_follower hanc ha hheir hne] at hanc₁
    by_cases hb : b ∈ gone'
    · rw [resettled_gone hanc₁ hb, resettled_gone hanc (List.mem_append_left _ ha),
        h₁.heir?_of_heir hs ha hheir hb]
    · rw [resettled_kept hanc₁ hb,
        resettled_follower hanc (List.mem_append_left _ ha) (heir?_append hheir hb) hne]

/-- **Streams that go in two steps leave what they leave in one.** -/
theorem trans (h₂ : s₁.Cleared gone' s') : s.Cleared (gone ++ gone') s' where
  stored y hy := by
    rcases List.mem_append.1 hy with hy | hy
    · exact h₁.stored y hy
    · obtain ⟨o, ho, hstream⟩ := h₂.stored y hy
      exact ⟨o, ((h₁.mem_objects o).1 ho).1, hstream⟩
  mem_objects o := by
    rw [h₂.mem_objects, h₁.mem_objects, List.mem_append, not_or, and_assoc]
  nodes_eq := h₂.nodes_eq.trans h₁.nodes_eq
  row?_eq y q := by
    rw [h₂.row?_eq, h₁.row?_eq]
    by_cases hy : y ∈ gone
    · rw [if_pos hy, if_pos (List.mem_append_left _ hy)]
      split <;> rfl
    · rw [if_neg hy]
      by_cases hy' : y ∈ gone'
      · rw [if_pos hy', if_pos (List.mem_append_right _ hy')]
      · have hstays : y ∉ gone ++ gone' := fun hmem => (List.mem_append.1 hmem).elim hy hy'
        rw [if_neg hy', if_neg hstays, Option.map_map]
        cases hrow : s.row? y q with
        | none => rfl
        | some r =>
          rw [Option.map_some, Option.map_some, Function.comp_apply,
            h₁.bequeathed_twice hs hy hy' hrow]
  ancestorOf?_eq y := by
    rw [h₂.ancestorOf?_eq]
    by_cases hy' : y ∈ gone'
    · rw [if_pos hy', if_pos (List.mem_append_right _ hy')]
    · rw [if_neg hy']
      by_cases hy : y ∈ gone
      · have hnone : s₁.ancestorOf? y = none := by rw [h₁.ancestorOf?_eq, if_pos hy]
        rw [resettled_root hnone, if_pos (List.mem_append_left _ hy)]
      · have hstays : y ∉ gone ++ gone' := fun hmem => (List.mem_append.1 hmem).elim hy hy'
        rw [if_neg hstays, h₁.resettled_twice hs hy hy']

end Twice

end Cleared

end Store

/-- A deletion of object rows clears their streams. -/
theorem DeletionStep.cleared {s s' : Store} {rows : List ObjectRow} {orphaned : List SegmentRow}
    (hs : s.Coherent) (h : DeletionStep s rows orphaned s') : s.Cleared (goneStreams rows) s' where
  stored x hx := by
    obtain ⟨o, ho, hstream⟩ := mem_goneStreams.1 hx
    exact ⟨o, h.stored o ho, hstream⟩
  mem_objects _ := h.mem_objects hs
  nodes_eq := h.nodes_eq hs
  row?_eq := h.row?_eq hs
  ancestorOf?_eq := h.ancestorOf?_eq hs

/-! ## Tables and reports -/

/-- What deletions leave and report: coherent tables without some streams, the objects that are gone,
and the pieces that are held no more. -/
structure Store.Erased (s : Store) (d : Deletion) (s' : Store) : Prop where
  coherent : s'.Coherent
  cleared : ∃ gone, s.Cleared gone s'
  objects : ∃ removed, s.objects.rows.Perm (removed ++ s'.objects.rows) ∧
    removed.map (·.view?) = d.objects.map some
  pieces : ∃ before after, s.held = .ok before ∧ s'.held = .ok after ∧
    before.Perm (after ++ d.segments)

namespace Store.Erased

variable {s s₁ s₂ s' : Store} {d d' d₁ d₂ : Deletion}

theorem none (hs : s.Coherent) : s.Erased {} s where
  coherent := hs
  cleared := ⟨[], cleared_nil s⟩
  objects := ⟨[], .refl _, rfl⟩
  pieces := by
    obtain ⟨l, hl⟩ := hs.exists_held
    exact ⟨l, l, hl, hl, by rw [List.append_nil]⟩

theorem trans (hs : s.Coherent) (h : s.Erased d s₁) (h' : s₁.Erased d' s') :
    s.Erased (d.append d') s' where
  coherent := h'.coherent
  cleared := by
    obtain ⟨gone, hgone⟩ := h.cleared
    obtain ⟨gone', hgone'⟩ := h'.cleared
    exact ⟨gone ++ gone', hgone.trans hs hgone'⟩
  objects := by
    obtain ⟨removed, hperm, hviews⟩ := h.objects
    obtain ⟨removed', hperm', hviews'⟩ := h'.objects
    refine ⟨removed ++ removed', ?_, ?_⟩
    · rw [List.append_assoc]
      exact hperm.trans (hperm'.append_left removed)
    · rw [List.map_append, hviews, hviews', ← List.map_append]
      rfl
  pieces := by
    obtain ⟨before, between, hbefore, hbetween, hperm⟩ := h.pieces
    obtain ⟨between', after, hbetween', hafter, hperm'⟩ := h'.pieces
    rw [hbetween, Except.ok.injEq] at hbetween'
    subst hbetween'
    refine ⟨before, after, hbefore, hafter, ?_⟩
    calc List.Perm before (between ++ d.segments) := hperm
      List.Perm _ ((after ++ d'.segments) ++ d.segments) := hperm'.append_right d.segments
      List.Perm _ (after ++ (d.segments ++ d'.segments)) := by
        rw [List.append_assoc]
        exact List.perm_append_comm.append_left after

/-- **What is left and reported depends only on the objects that are left.** -/
theorem unique (h₁ : s.Erased d₁ s₁) (h₂ : s.Erased d₂ s₂) (hsame : s₁.objects = s₂.objects) :
    s₁ = s₂ ∧ d₁.objects.Perm d₂.objects ∧ d₁.segments.Perm d₂.segments := by
  obtain ⟨gone₁, hgone₁⟩ := h₁.cleared
  obtain ⟨gone₂, hgone₂⟩ := h₂.cleared
  have hstore : s₁ = s₂ := hgone₁.unique hgone₂ hsame
  subst hstore
  refine ⟨rfl, ?_, ?_⟩
  · obtain ⟨removed₁, hperm₁, hviews₁⟩ := h₁.objects
    obtain ⟨removed₂, hperm₂, hviews₂⟩ := h₂.objects
    have hremoved : removed₁.Perm removed₂ :=
      (List.perm_append_right_iff _).1 (hperm₁.symm.trans hperm₂)
    have hviews : (d₁.objects.map some).Perm (d₂.objects.map some) := by
      rw [← hviews₁, ← hviews₂]
      exact hremoved.map _
    exact (List.map_perm_map_iff (Option.some_injective _)).1 hviews
  · obtain ⟨before₁, after₁, hbefore₁, hafter₁, hperm₁⟩ := h₁.pieces
    obtain ⟨before₂, after₂, hbefore₂, hafter₂, hperm₂⟩ := h₂.pieces
    rw [hbefore₁, Except.ok.injEq] at hbefore₂
    rw [hafter₁, Except.ok.injEq] at hafter₂
    subst hbefore₂ hafter₂
    exact (List.perm_append_left_iff _).1 (hperm₁.symm.trans hperm₂)

end Store.Erased

/-- The objects that rows are read as, whatever the order of either. -/
theorem ObjectRow.exists_map_view? {statement : Statement} {rows : List ObjectRow}
    {objects objects' : List Object} (h : (byAge rows).mapM (·.view statement) = .ok objects)
    (hperm : objects'.Perm objects) :
    ∃ removed : List ObjectRow, removed.Perm rows ∧
      removed.map (·.view?) = objects'.map some := by
  have hviews : List.Forall₂ (fun object o => o.view? = some object) objects (byAge rows) :=
    ((Except.mapM_eq_ok_iff.1 h).imp fun _ _ hview => ObjectRow.view_eq_ok_iff.1 hview).flip
  obtain ⟨removed, hremoved, hsame⟩ := List.perm_comp_forall₂ hperm hviews
  refine ⟨removed, hsame.trans (perm_byAge rows), ?_⟩
  rw [← List.forall₂_eq_eq_eq, List.forall₂_map_left_iff, List.forall₂_map_right_iff]
  exact hremoved.flip

/-- The rows before a deletion are those that it removes and those that stay. -/
theorem DeletionStep.objects_perm {s s' : Store} {rows : List ObjectRow}
    {orphaned : List SegmentRow} (hs : s.Coherent) (h : DeletionStep s rows orphaned s') :
    s.objects.rows.Perm (rows ++ s'.objects.rows) := by
  have hdisjoint : List.Disjoint rows s'.objects.rows := by
    intro o ho ho'
    exact ((h.mem_objects hs).1 ho').2 (mem_goneStreams.2 ⟨o, ho, rfl⟩)
  rw [List.perm_ext_iff_of_nodup s.objects.nodup (h.nodup.append s'.objects.nodup hdisjoint)]
  intro o
  rw [List.mem_append, h.mem_objects hs]
  constructor
  · intro ho
    by_cases hgone : o.stream ∈ goneStreams rows
    · obtain ⟨o', ho', hstream⟩ := mem_goneStreams.1 hgone
      have hsame : o' = o := hs.distinct o' (h.stored o' ho') o ho hstream
      exact .inl (hsame ▸ ho')
    · exact .inr ⟨ho, hgone⟩
  · rintro (ho | ⟨ho, -⟩)
    · exact h.stored o ho
    · exact ho

/-- **Deletions one after the other erase what they report.** -/
theorem Deletes.erased {statement : Statement} {s s' : Store} {d : Deletion}
    (h : Deletes statement s d s') (hs : s.Coherent) : s.Erased d s' := by
  induction h with
  | none => exact .none hs
  | @rows s s₁ s' rows orphaned objects segments d hstep hobjects hsegments _ ih =>
    have hs₁ := hstep.coherent hs
    obtain ⟨before, hbefore⟩ := hs.exists_held
    obtain ⟨between, hbetween⟩ := hs₁.exists_held
    refine Store.Erased.trans hs ⟨hs₁, ⟨_, hstep.cleared hs⟩, ?_, ?_⟩ (ih hs₁)
    · obtain ⟨removed, hsame, hviews⟩ :=
        ObjectRow.exists_map_view? hobjects (Object.perm_byKey objects)
      exact ⟨removed, (hstep.objects_perm hs).trans (hsame.symm.append_right _), hviews⟩
    · exact ⟨before, between, hbefore, hbetween,
        perm_of_map_released hbefore hbetween hsegments (hstep.released_perm hs)⟩

/-! ## Sweeps come to their end -/

/-- The rows that stay are those that were not chosen. -/
theorem DeletionStep.mem_objects_iff {s s' : Store} {rows : List ObjectRow}
    {orphaned : List SegmentRow} (hs : s.Coherent) (h : DeletionStep s rows orphaned s')
    {o : ObjectRow} : o ∈ s'.objects.rows ↔ o ∈ s.objects.rows ∧ o ∉ rows := by
  rw [h.mem_objects hs, mem_goneStreams]
  refine and_congr_right fun ho => not_congr ⟨?_, fun hmem => ⟨o, hmem, rfl⟩⟩
  rintro ⟨o', ho', hstream⟩
  rw [← hs.distinct o' (h.stored o' ho') o ho hstream]
  exact ho'

namespace Catalog

variable {c : Catalog} {s s' : Store} {statement : Statement} {rows : List ObjectRow}
  {due : Store → List ObjectRow} {p : ObjectRow → Bool} {kind : Store → Prop}
  {outcome : Except Error Deletion}

/-- **Rows of coherent tables that can be read can be deleted.** -/
theorem EndsDeletion.exists_ok (hs : s.Coherent) (hstored : ∀ o ∈ rows, o ∈ s.objects.rows)
    (hnodup : rows.Nodup) (hviews : ∀ o ∈ rows, ∃ v, o.view? = some v)
    (h : EndsDeletion statement s rows outcome s') : ∃ d, outcome = .ok d := by
  cases outcome with
  | ok d => exact ⟨d, rfl⟩
  | error e =>
    have hviewed : ∀ o ∈ ObjectRow.byAge rows, ∃ v, o.view statement = .ok v := by
      intro o ho
      obtain ⟨v, hv⟩ := hviews o ((ObjectRow.perm_byAge rows).mem_iff.1 ho)
      exact ⟨v, ObjectRow.view_eq_ok_iff.2 hv⟩
    obtain ⟨objects, hok⟩ := Except.exists_mapM_eq_ok hviewed
    rw [h.unread_of_error hs hstored hnodup] at hok
    cases hok

/-- A choice of the rows that meet a condition, in some order, from tables of a kind that deletions
keep. -/
structure Selects (due : Store → List ObjectRow) (p : ObjectRow → Bool) (kind : Store → Prop) :
    Prop where
  chooses : Chooses due
  perm : ∀ {s : Store}, kind s → (due s).Perm (s.objects.rows.filter p)
  kept : ∀ {s s' : Store} {rows : List ObjectRow} {orphaned : List SegmentRow}, s.Coherent →
    kind s → DeletionStep s rows orphaned s' → kind s'

/-- A choice by a condition on rows alone, from any tables. -/
theorem selects_filter (p : ObjectRow → Bool) :
    Selects (fun s => s.objects.rows.filter p) p fun _ => True where
  chooses := chooses_filter fun _ => p
  perm _ := .refl _
  kept _ _ _ := trivial

/-- The order in which rows are chosen does not matter. -/
theorem Selects.byTime (h : Selects due p kind) (time : ObjectRow → Option Instant) :
    Selects (fun s => byTime time (due s)) p kind where
  chooses := h.chooses.byTime time
  perm hkind := ((List.mergeSort_perm _ _).trans (List.mergeSort_perm _ _)).trans (h.perm hkind)
  kept := h.kept

/-- How a sweep of rows ends: it succeeds if all of them can be read, and then no row is left that
meets the condition. In any case it leaves the rows alone that do not. -/
structure Swept (p : ObjectRow → Bool) (s : Store) (outcome : Except Error Deletion) (s' : Store) :
    Prop where
  ok_iff : (∃ d, outcome = .ok d) ↔ ∀ o ∈ s.objects.rows, p o = true → ∃ v, o.view? = some v
  mem_objects : (∃ d, outcome = .ok d) →
    ∀ o, o ∈ s'.objects.rows ↔ o ∈ s.objects.rows ∧ p o = false
  adds_none : ∀ o ∈ s'.objects.rows, o ∈ s.objects.rows
  spares : ∀ o ∈ s.objects.rows, p o = false → o ∈ s'.objects.rows

/-- A deletion that fails leaves the tables. -/
theorem EndsDeletion.eq_of_error {e : Error} (h : EndsDeletion statement s rows (.error e) s') :
    s' = s := by
  cases h <;> rfl

/-- A deletion that succeeds has read the rows that it deletes. -/
theorem EndsDeletion.deleted_of_ok {d : Deletion} (h : EndsDeletion statement s rows (.ok d) s') :
    (∃ orphaned, DeletionStep s rows orphaned s') ∧ ∀ o ∈ rows, ∃ v, o.view? = some v := by
  cases h with
  | @deleted orphaned _ objects _ hstep hobjects _ =>
    obtain ⟨removed, hsame, hviews⟩ := ObjectRow.exists_map_view? hobjects (.refl objects)
    refine ⟨⟨orphaned, hstep⟩, fun o ho => ?_⟩
    have hview : o.view? ∈ objects.map some :=
      hviews ▸ List.mem_map_of_mem (hsame.mem_iff.2 ho)
    obtain ⟨v, -, hv⟩ := List.mem_map.1 hview
    exact ⟨v, hv.symm⟩

section Batches

variable {s₁ : Store} {size : Nat} {orphaned : List SegmentRow} (hdue : Selects due p kind)
  (hkind : kind s)
include hdue hkind

theorem Selects.mem_iff {o : ObjectRow} : o ∈ due s ↔ o ∈ s.objects.rows ∧ p o = true := by
  rw [(hdue.perm hkind).mem_iff, List.mem_filter]

theorem Selects.of_mem_batch {o : ObjectRow} (ho : o ∈ (due s).take size) :
    o ∈ s.objects.rows ∧ p o = true := (hdue.mem_iff hkind).1 (List.mem_of_mem_take ho)

variable (hs : s.Coherent) (hstep : DeletionStep s ((due s).take size) orphaned s₁)
include hs hstep

/-- A batch leaves those rows due that it does not delete. -/
theorem Selects.length_rest : ((due s).take size).length + (due s₁).length = (due s).length := by
  have hbatch : ((due s).take size).filter p = (due s).take size :=
    List.filter_eq_self.2 fun o ho => (hdue.of_mem_batch hkind ho).2
  have hlen := ((hstep.objects_perm hs).filter p).length_eq
  rw [List.filter_append, List.length_append, hbatch, ← (hdue.perm hkind).length_eq,
    ← (hdue.perm (hdue.kept hs hkind hstep)).length_eq] at hlen
  exact hlen.symm

/-- A batch leaves the rows that are not due. -/
theorem Selects.spares {o : ObjectRow} (ho : o ∈ s.objects.rows) (hp : p o = false) :
    o ∈ s₁.objects.rows := by
  refine (hstep.mem_objects_iff hs).2 ⟨ho, fun hin => ?_⟩
  rw [(hdue.of_mem_batch hkind hin).2] at hp
  cases hp

variable (hviewed : ∀ o ∈ (due s).take size, ∃ v, o.view? = some v)
include hviewed

/-- A batch of all rows that are due is the last one. -/
theorem swept_last (hlast : (due s).length ≤ size) (d : Deletion) : Swept p s (.ok d) s₁ where
  ok_iff := by
    rw [List.take_of_length_le hlast] at hviewed
    exact ⟨fun _ o ho hp => hviewed o ((hdue.mem_iff hkind).2 ⟨ho, hp⟩), fun _ => ⟨d, rfl⟩⟩
  mem_objects _ o := by
    rw [List.take_of_length_le hlast] at hstep
    rw [hstep.mem_objects_iff hs, hdue.mem_iff hkind]
    refine and_congr_right fun ho => ?_
    simp [ho]
  adds_none _ ho := ((hstep.mem_objects_iff hs).1 ho).1
  spares _ ho hp := hdue.spares hkind hs hstep ho hp

/-- A batch and the rest of a sweep, which succeeds if the rest does. -/
theorem Swept.batch {outcome' : Except Error Deletion} (h : Swept p s₁ outcome s')
    (hok : (∃ d, outcome' = .ok d) ↔ ∃ d, outcome = .ok d) : Swept p s outcome' s' where
  ok_iff := by
    rw [hok, h.ok_iff]
    constructor
    · intro hviews o ho hp
      by_cases hin : o ∈ (due s).take size
      · exact hviewed o hin
      · exact hviews o ((hstep.mem_objects_iff hs).2 ⟨ho, hin⟩) hp
    · exact fun hviews o ho hp => hviews o ((hstep.mem_objects_iff hs).1 ho).1 hp
  mem_objects hd o := by
    rw [h.mem_objects (hok.1 hd), hstep.mem_objects_iff hs, and_assoc]
    refine and_congr_right fun ho => and_iff_right_of_imp fun hp hin => ?_
    rw [(hdue.of_mem_batch hkind hin).2] at hp
    cases hp
  adds_none o ho := ((hstep.mem_objects_iff hs).1 (h.adds_none o ho)).1
  spares o ho hp := h.spares o (hdue.spares hkind hs hstep ho hp) hp

end Batches

/-- **A sweep with enough rounds comes to its end,** whatever the size of its batches and the order
in which they are picked. -/
theorem swept_sweepRounds (hdue : Selects due p kind) {size : Nat} (hsize : 0 < size) {rounds : Nat}
    (hc : c.Open s) (hs : s.Coherent) (hkind : kind s) (hrounds : (due s).length < rounds) :
    ∃ s', (c.run (sweepRounds statement due size rounds)).2.Open s' ∧
      Swept p s (c.run (sweepRounds statement due size rounds)).1 s' := by
  induction rounds generalizing c s with
  | zero => exact absurd hrounds (by omega)
  | succ rounds ih =>
    obtain ⟨hstored, hnodup⟩ := hdue.chooses.batch (s := s) size
    obtain ⟨s₁, hopen, hends⟩ := run_deleteRows statement hc hstored hnodup
    unfold sweepRounds
    rw [run_tables_bind hc.store]
    dsimp only
    rcases hrun : c.run (deleteRows statement s ((due s).take size)) with ⟨e | d, c'⟩
    · -- the batch fails, so some row of it cannot be read
      rw [hrun] at hopen hends
      rw [run_bind_error hrun]
      have hnone : ¬ ∃ d : Deletion, (Except.error e : Except Error Deletion) = .ok d := by
        rintro ⟨d, hd⟩
        cases hd
      have hunread : ¬ ∀ o ∈ s.objects.rows, p o = true → ∃ v, o.view? = some v := fun hviews =>
        hnone (hends.exists_ok hs hstored hnodup fun o ho =>
          hviews o (hstored o ho) (hdue.of_mem_batch hkind ho).2)
      obtain rfl := hends.eq_of_error
      exact ⟨s₁, hopen, ⟨iff_of_false hnone hunread, fun h => absurd h hnone, fun _ ho => ho,
        fun _ ho _ => ho⟩⟩
    · rw [hrun] at hopen hends
      rw [run_bind_ok hrun]
      obtain ⟨⟨orphaned, hstep⟩, hviewed⟩ := hends.deleted_of_ok
      split
      · next hlast =>
        rw [List.length_take] at hlast
        exact ⟨s₁, hopen, swept_last hdue hkind hs hstep hviewed (by omega) d⟩
      · next hfull =>
        -- fewer rows are due after a full batch
        have hrest := hdue.length_rest hkind hs hstep
        obtain ⟨s', hopen', hswept⟩ :=
          ih hopen (hstep.coherent hs) (hdue.kept hs hkind hstep) (by omega)
        rcases hrun' : c'.run (sweepRounds statement due size rounds) with ⟨e | d', c''⟩
        · rw [hrun'] at hopen' hswept
          rw [run_bind_error hrun']
          refine ⟨s', hopen', hswept.batch hdue hkind hs hstep hviewed (iff_of_false ?_ ?_)⟩
          · exact fun ⟨_, h⟩ => by cases h
          · exact fun ⟨_, h⟩ => by cases h
        · rw [hrun'] at hopen' hswept
          rw [run_bind_ok hrun']
          exact ⟨s', hopen', hswept.batch hdue hkind hs hstep hviewed (iff_of_true ⟨_, rfl⟩ ⟨_, rfl⟩)⟩

theorem sweepBatch_pos (size : Nat) : 0 < sweepBatch size := by
  unfold sweepBatch
  split
  · decide
  · omega

/-- No more rows are due than there are. -/
theorem Selects.length_le (hdue : Selects due p kind) (hkind : kind s) :
    (due s).length ≤ s.objects.rows.length := by
  rw [(hdue.perm hkind).length_eq]
  exact List.length_filter_le p s.objects.rows

/-- **A sweep comes to its end,** whatever size of its batches is asked for. -/
theorem swept_sweep (statement : Statement) (hdue : Selects due p kind) (hc : c.Open s)
    (hs : s.Coherent) (hkind : kind s) (size : Nat) :
    ∃ s', (c.run (sweep statement due size)).2.Open s' ∧
      Swept p s (c.run (sweep statement due size)).1 s' := by
  have hfew := hdue.length_le hkind
  unfold sweep
  rw [run_tables_bind hc.store]
  exact swept_sweepRounds hdue (sweepBatch_pos size) hc hs hkind (by omega)

/-- **The deletion of a bucket comes to its end,** whatever the size of its batches. -/
theorem swept_deleteBucket (hc : c.Open s) (hs : s.Coherent) {project : ProjectId} {bucket : String}
    (hproject : project.isZero = false) (hbucket : bucket.isEmpty = false) (size : Nat) :
    ∃ s', (c.run (deleteBucket project bucket size)).2.Open s' ∧
      Swept (fun o => o.location.project = project && o.location.bucket = bucket) s
        (c.run (deleteBucket project bucket size)).1 s' := by
  unfold deleteBucket
  rw [run_reject_bind, hproject, if_neg Bool.false_ne_true, run_reject_bind, hbucket,
    if_neg Bool.false_ne_true]
  exact swept_sweep _ (selects_filter _) hc hs trivial size

/-- A deletion of a bucket that succeeds names a project and a bucket. -/
theorem checked_of_deleteBucket {project : ProjectId} {bucket : String} {size : Nat} {d : Deletion}
    (hok : (c.run (deleteBucket project bucket size)).1 = .ok d) :
    project.isZero = false ∧ bucket.isEmpty = false := by
  unfold deleteBucket at hok
  obtain ⟨hproject, hok⟩ := run_reject_bind_eq_ok.1 hok
  obtain ⟨hbucket, -⟩ := run_reject_bind_eq_ok.1 hok
  exact ⟨hproject, hbucket⟩

end Catalog

/-! ## Ways to delete -/

/-- An action that deletes: a call, or a sweep that picks the rows of its batches in any order. -/
inductive Erasing : Catalog.Action Deletion → Prop
  | call (call : DeleteCall) : Erasing call.action
  | sweep (statement : Statement) {pick : Store → List ObjectRow} (hpick : Catalog.Chooses pick)
      (size : Nat) : Erasing (Catalog.sweep statement pick size)

namespace Site

/-- A way to delete objects: actions that delete and succeed, one after the other, each on some
handle. -/
inductive Erases : Site → Deletion → Site → Prop
  | none {σ : Site} : Erases σ {} σ
  | action {σ σ' : Site} {i : Nat} {h : Handle} {a : Catalog.Action Deletion} {d d' : Deletion}
      (hget : σ.handles[i]? = some h) (ha : Erasing a) (hok : ((σ.catalog h).run a).1 = .ok d)
      (hrest : Erases (σ.put i h ((σ.catalog h).run a).2 h.scans) d' σ') :
      Erases σ (d.append d') σ'

variable {σ σ' σ₁ σ₂ : Site} {s : Store} {d d₁ d₂ : Deletion}

/-- An action that deletes and succeeds erases what it reports. -/
theorem Stands.erased (hσ : σ.Stands s) (hs : s.Coherent) {i : Nat} {h : Handle}
    (hget : σ.handles[i]? = some h) {a : Catalog.Action Deletion} (ha : Erasing a)
    (hok : ((σ.catalog h).run a).1 = .ok d) :
    ∃ s', (σ.put i h ((σ.catalog h).run a).2 h.scans).Stands s' ∧ s.Erased d s' := by
  have hh := List.mem_of_getElem? hget
  have hdeletes : ∃ statement s', ((σ.catalog h).run a).2.Open s' ∧ Deletes statement s d s' := by
    cases ha with
    | call call =>
      obtain ⟨s', hopen, -, hdeletes⟩ := Catalog.sheds_delete call _ (hσ.open hh)
      exact ⟨_, s', hopen, hdeletes d hok⟩
    | sweep statement hpick size =>
      obtain ⟨s', hopen, -, hdeletes⟩ :=
        Catalog.sheds_sweep statement hpick size _ (hσ.open hh)
      exact ⟨_, s', hopen, hdeletes d hok⟩
  obtain ⟨statement, s', hopen, hdeletes⟩ := hdeletes
  have herased := hdeletes.erased hs
  have hext : s.nodes.Extends s'.nodes := by
    obtain ⟨gone, hgone⟩ := herased.cleared
    rw [hgone.nodes_eq]
    exact .refl _
  exact ⟨s', hσ.put hopen hext fun scan hscan => ((hσ.handles h hh).scans scan hscan).mono hext,
    herased⟩

/-- **A way to delete objects erases what its actions report.** -/
theorem Erases.erased (h : σ.Erases d σ') (hσ : σ.Stands s) (hs : s.Coherent) :
    ∃ s', σ'.store = some s' ∧ s.Erased d s' := by
  induction h generalizing s with
  | none => exact ⟨s, hσ.store, .none hs⟩
  | action hget ha hok _ ih =>
    obtain ⟨s₁, hstands, herased⟩ := hσ.erased hs hget ha hok
    obtain ⟨s', hstore, herased'⟩ := ih hstands herased.coherent
    exact ⟨s', hstore, herased.trans hs herased'⟩

/-- **Deletions are confluent.** In runs with fresh stream ids all ways to delete the same objects
leave the same tables, and report the same objects and the same pieces. The deletion of a bucket in
batches of one size succeeds if it does in batches of another, with the same effect. -/
theorem Reachable.deletion_confluent (hσ : σ.Reachable Lacks) :
    (∀ (gone : List ObjectRow) (d₁ d₂ : Deletion) (σ₁ σ₂ : Site), σ.Erases d₁ σ₁ → σ.Erases d₂ σ₂ →
      (σ₁.objects = σ.objects.filter fun o => decide (o ∉ gone)) →
      (σ₂.objects = σ.objects.filter fun o => decide (o ∉ gone)) →
        σ₁.store = σ₂.store ∧ (d₁.objects : Multiset Object) = d₂.objects ∧
          (d₁.segments : Multiset ReleasedPieces) = d₂.segments) ∧
    ∀ (i : Nat) (h : Handle) (project : ProjectId) (bucket : String) (n m : Nat) (d₁ : Deletion),
      σ.handles[i]? = some h →
      ((σ.catalog h).run (Catalog.deleteBucket project bucket n)).1 = .ok d₁ →
        ∃ d₂, ((σ.catalog h).run (Catalog.deleteBucket project bucket m)).1 = .ok d₂ ∧
          ((σ.catalog h).run (Catalog.deleteBucket project bucket n)).2.store =
            ((σ.catalog h).run (Catalog.deleteBucket project bucket m)).2.store ∧
          (d₁.objects : Multiset Object) = d₂.objects ∧
          (d₁.segments : Multiset ReleasedPieces) = d₂.segments := by
  obtain ⟨s, hstands⟩ := hσ.stands
  have hs := hσ.coherent hstands.store
  have hagree : ∀ (d₁ d₂ : Deletion) (s₁ s₂ : Store), s.Erased d₁ s₁ → s.Erased d₂ s₂ →
      s₁.objects = s₂.objects → s₁ = s₂ ∧ (d₁.objects : Multiset Object) = d₂.objects ∧
        (d₁.segments : Multiset ReleasedPieces) = d₂.segments := by
    intro d₁ d₂ s₁ s₂ h₁ h₂ hsame
    obtain ⟨hstore, hobjects, hsegments⟩ := h₁.unique h₂ hsame
    exact ⟨hstore, Multiset.coe_eq_coe.2 hobjects, Multiset.coe_eq_coe.2 hsegments⟩
  refine ⟨?_, ?_⟩
  · intro gone d₁ d₂ σ₁ σ₂ h₁ h₂ hgone₁ hgone₂
    obtain ⟨s₁, hstore₁, herased₁⟩ := h₁.erased hstands hs
    obtain ⟨s₂, hstore₂, herased₂⟩ := h₂.erased hstands hs
    have hobjects : s₁.objects = s₂.objects := by
      refine Table.ext ?_
      have hrows : σ₁.objects = σ₂.objects := hgone₁.trans hgone₂.symm
      unfold Site.objects at hrows
      rw [hstore₁, hstore₂] at hrows
      exact hrows
    obtain ⟨hstore, hreports⟩ := hagree d₁ d₂ s₁ s₂ herased₁ herased₂ hobjects
    exact ⟨by rw [hstore₁, hstore₂, hstore], hreports⟩
  · intro i h project bucket n m d₁ hget hok₁
    have hopen := hstands.open (List.mem_of_getElem? hget)
    obtain ⟨hproject, hbucket⟩ := Catalog.checked_of_deleteBucket hok₁
    obtain ⟨s₁, hopen₁, hswept₁⟩ := Catalog.swept_deleteBucket hopen hs hproject hbucket n
    obtain ⟨s₂, hopen₂, hswept₂⟩ := Catalog.swept_deleteBucket hopen hs hproject hbucket m
    -- both succeed just when every object of the bucket can be read
    obtain ⟨d₂, hok₂⟩ := hswept₂.ok_iff.2 (hswept₁.ok_iff.1 ⟨d₁, hok₁⟩)
    have hobjects : s₁.objects = s₂.objects := by
      refine Table.ext (s₁.objects.ascending.eq_of_mem_iff s₂.objects.ascending fun o => ?_)
      rw [hswept₁.mem_objects ⟨d₁, hok₁⟩, hswept₂.mem_objects ⟨d₂, hok₂⟩]
    have herased : ∀ (size : Nat) (d : Deletion) (s' : Store),
        ((σ.catalog h).run (Catalog.deleteBucket project bucket size)).1 = .ok d →
        ((σ.catalog h).run (Catalog.deleteBucket project bucket size)).2.store = some s' →
          s.Erased d s' := by
      intro size d s' hok hstore
      obtain ⟨s'', hstands', herased⟩ :=
        hstands.erased hs hget (.call (.bucket project bucket size)) hok
      have hsame : s' = s'' := Option.some.inj (hstore.symm.trans hstands'.store)
      rw [hsame]
      exact herased
    obtain ⟨hstore, hreports⟩ := hagree d₁ d₂ s₁ s₂ (herased n d₁ s₁ hok₁ hopen₁.store)
      (herased m d₂ s₂ hok₂ hopen₂.store) hobjects
    exact ⟨d₂, hok₂, by rw [hopen₁.store, hopen₂.store, hstore], hreports⟩

end Site

/-! ### An ancestor and a copy, deleted in either order -/

namespace Sample

/-- The deletion of one object of the sample. -/
def deletionOf (key : UInt8) : DeleteCall := .exactVersion (identity key key.toNat).location 1

/-- The site that a deletion leaves. -/
def without (σ : Site) (call : DeleteCall) : Site :=
  σ.put 0 (handleOf σ) ((σ.catalog (handleOf σ)).run call.action).2 (handleOf σ).scans

/-- Two deletions that succeed are a way to delete. -/
theorem erases_two {σ : Site} {a b : DeleteCall} {d d' : Deletion}
    (hopen : σ.handles[0]?.isSome = true) (hopen' : (without σ a).handles[0]?.isSome = true)
    (hok : ((σ.catalog (handleOf σ)).run a.action).1 = .ok d)
    (hok' : (((without σ a).catalog (handleOf (without σ a))).run b.action).1 = .ok d') :
    σ.Erases (d.append (d'.append {})) (without (without σ a) b) :=
  .action (getElem?_handles hopen) (.call a) hok
    (.action (getElem?_handles hopen') (.call b) hok' .none)

end Sample

/-- When the ancestor goes first its pieces go by way of the first copy, and when the copy goes first
they do not. The bucket is emptied in three batches or in one. -/
theorem Sample.deletion_confluent_site :
    (∃ d₁ d₂ σ₁ σ₂, site.Erases d₁ σ₁ ∧ site.Erases d₂ σ₂ ∧ σ₁.objects.length = 1 ∧
      σ₁.store = σ₂.store ∧ (d₁.objects : Multiset Object) = d₂.objects ∧
        (d₁.segments : Multiset ReleasedPieces) = d₂.segments) ∧
    ∃ d₁ d₂, ((site.catalog (handleOf site)).run
        (Catalog.deleteBucket (.ofNat 1) "bucket" 1)).1 = .ok d₁ ∧
      ((site.catalog (handleOf site)).run
        (Catalog.deleteBucket (.ofNat 1) "bucket" 100)).1 = .ok d₂ ∧
      (d₁.segments : Multiset ReleasedPieces) = d₂.segments := by
  obtain ⟨hways, hbuckets⟩ := Site.Reachable.deletion_confluent reachable_site
  refine ⟨?_, ?_⟩
  · obtain ⟨a, ha⟩ : ∃ d, ((site.catalog (handleOf site)).run (deletionOf 1).action).1 = .ok d :=
      Except.exists_eq_ok (by decide +kernel)
    obtain ⟨b, hb⟩ : ∃ d, (((without site (deletionOf 1)).catalog
        (handleOf (without site (deletionOf 1)))).run (deletionOf 2).action).1 = .ok d :=
      Except.exists_eq_ok (by decide +kernel)
    obtain ⟨b', hb'⟩ : ∃ d, ((site.catalog (handleOf site)).run (deletionOf 2).action).1 = .ok d :=
      Except.exists_eq_ok (by decide +kernel)
    obtain ⟨a', ha'⟩ : ∃ d, (((without site (deletionOf 2)).catalog
        (handleOf (without site (deletionOf 2)))).run (deletionOf 1).action).1 = .ok d :=
      Except.exists_eq_ok (by decide +kernel)
    have hfirst := erases_two (by decide +kernel) (by decide +kernel) ha hb
    have hsecond := erases_two (by decide +kernel) (by decide +kernel) hb' ha'
    obtain ⟨hstore, hobjects, hsegments⟩ := hways
      (site.objects.filter fun o => decide (o.stream ≠ .ofNat 3)) _ _ _ _ hfirst hsecond
      (by decide +kernel) (by decide +kernel)
    exact ⟨_, _, _, _, hfirst, hsecond, by decide +kernel, hstore, hobjects, hsegments⟩
  · obtain ⟨d₁, hok₁⟩ : ∃ d, ((site.catalog (handleOf site)).run
        (Catalog.deleteBucket (.ofNat 1) "bucket" 1)).1 = .ok d :=
      Except.exists_eq_ok (by decide +kernel)
    have hget : site.handles[0]? = some (handleOf site) := getElem?_handles (by decide +kernel)
    obtain ⟨d₂, hok₂, -, -, hsegments⟩ :=
      hbuckets 0 (handleOf site) (.ofNat 1) "bucket" 1 100 d₁ hget hok₁
    exact ⟨d₁, d₂, hok₁, hok₂, hsegments⟩

end ObjectCatalog
