import ObjectCatalog.Proofs.ListCalls

/-!
# Listings that go on after an entry

A client that has got an entry can go on with another listing whose cursor is that entry. The cursor
of an entry for a group is a key that no row needs to have, with the version of one row of the group;
it lies in the group, so the rest of the group is passed over.

* `ListObjects.resumed`: the request that goes on after an entry.
* `ListObjects.rows_onward`: **behind the entry of a row lie the others of the rows behind it.**
* `ListObjects.entries?_resumed`: a resumed listing has the rest of the entries to show.
* `ListObjects.entries?_show`, `ListObjects.pairwise_entries`: every row is shown, and no group and no
  version of a key twice.
* `Site.Pages`, `Site.Pages.entries?_eq`: a client that lists page by page.
* `Site.Reachable.listing_resumes`: **nothing is lost or shown twice.**
-/

namespace ObjectCatalog

namespace ListObjects

variable {r : ListObjects} {s : Store} {o : ObjectRow} {rows rest : List ObjectRow} {c : ListCursor}
  {e : Entry} {es : List Entry}

/-- The request for what lies after a place, with batches of a size. -/
def onward (r : ListObjects) (c : ListCursor) (n : Nat) : ListObjects :=
  { r with cursor := c, batchSize := n }

/-- The request that goes on after an entry. -/
def resumed (r : ListObjects) (e : Entry) (n : Nat) : ListObjects :=
  r.onward ⟨r.lead ++ e.key, e.version.toInt⟩ n

/-- The cursor after the entry of a row: the name of its group, or its key. -/
def mark (r : ListObjects) (o : ObjectRow) : ListCursor :=
  match r.group? o.location.key with
  | some g => ⟨r.lead ++ g, o.version⟩
  | none => o.place

theorem mark_of_group {g : Bytes} (h : r.group? o.location.key = some g) :
    r.mark o = ⟨r.lead ++ g, o.version⟩ := by
  rw [mark, h]

theorem mark_of_no_group (h : r.group? o.location.key = none) : r.mark o = o.place := by
  rw [mark, h]

/-- What an entry shows of its row. -/
theorem of_shown? (h : r.shown? o = some e) :
    e.version.toInt = o.version ∧ e.isGroup = (r.group? o.location.key).isSome ∧
      e.key = (r.group? o.location.key).getD (o.location.key.drop r.lead.length) := by
  unfold shown? at h
  obtain ⟨object, hobject, rfl⟩ := Option.map_eq_some_iff.1 h
  obtain ⟨-, hversion, hplain, -⟩ := ObjectRow.of_listed?
    (ObjectRow.listed?_of_view? hobject r.includeCustomMetadata r.includeSystemMetadata)
  unfold shown
  cases r.group? o.location.key with
  | none => exact ⟨hversion, hplain, rfl⟩
  | some g => exact ⟨hversion, rfl, rfl⟩

/-- A client that goes on after an entry goes on after the entry of its row. -/
theorem resumed_eq (hcovers : r.Covers o) (h : r.shown? o = some e) (n : Nat) :
    r.resumed e n = r.onward (r.mark o) n := by
  obtain ⟨hversion, -, hkey⟩ := of_shown? h
  unfold resumed mark
  rw [hversion, hkey]
  cases r.group? o.location.key with
  | some g => rfl
  | none =>
    obtain ⟨more, hmore⟩ := hcovers.lead
    show r.onward ⟨r.lead ++ o.location.key.drop r.lead.length, o.version⟩ n = _
    rw [← hmore, List.drop_left, hmore]
    rfl

/-- **Behind the entry of a row lie the others of the rows behind it.** -/
theorem rows_onward (hpos : ∀ o ∈ s.objects.rows, 0 < o.version)
    (hrows : r.rowsAfter s c = o :: rest) (n : Nat) :
    (r.onward (r.mark o) n).rows s = r.others o rest := by
  have hsplit : r.rowsAfter s c = [] ++ o :: rest := hrows
  have hbehind : r.rowsAfter s o.place = rest := rowsAfter_of_append hsplit
  have hsame : ∀ c', (r.onward (r.mark o) n).rowsAfter s c' = r.rowsAfter s c' := fun _ =>
    rowsAfter_congr rfl rfl rfl rfl
  unfold others
  cases hgroup : r.group? o.location.key with
  | none =>
    have hno : (r.onward (r.mark o) n).group? (r.onward (r.mark o) n).cursor.key = none := by
      show r.group? (r.mark o).key = none
      rw [mark_of_no_group hgroup]
      exact hgroup
    have hcursor : (r.onward (r.mark o) n).cursor = o.place := mark_of_no_group hgroup
    rw [rows_of_no_group hno, hsame, hcursor, hbehind]
  | some g =>
    obtain ⟨limit, hlimit⟩ := exists_limit hgroup
    have hcursor : (r.onward (r.mark o) n).cursor = ⟨r.lead ++ g, o.version⟩ := mark_of_group hgroup
    have hmark : r.group? (r.lead ++ g) = some g :=
      (group?_iff_begins (c := o.place) hgroup).2 (List.prefix_refl _)
    have hin : (r.onward (r.mark o) n).group? (r.onward (r.mark o) n).cursor.key = some g := by
      rw [hcursor]
      exact hmark
    -- the cursor and the row stand in the same group, which both listings leave at its limit
    rw [rows_of_group hin, hsame, hcursor]
    have hleft := rowsAfter_limit (c := ⟨r.lead ++ g, o.version⟩) hpos hmark hlimit
    have hleft' := rowsAfter_limit (c := o.place) hpos hgroup hlimit
    rw [hbehind] at hleft'
    exact hleft.trans hleft'.symm

/-- Behind any entry lie the rows of the entries after it. -/
theorem heads_onward (hpos : ∀ o ∈ s.objects.rows, 0 < o.version) (hrows : rows = r.rowsAfter s c)
    {k : Nat} (hk : (r.heads rows)[k]? = some o) (n : Nat) :
    r.heads ((r.onward (r.mark o) n).rows s) = (r.heads rows).drop (k + 1) := by
  induction k generalizing rows c with
  | zero =>
    cases rows with
    | nil => cases hk
    | cons o' rest =>
      rw [heads_cons] at hk ⊢
      cases hk
      rw [rows_onward hpos hrows.symm]
      rfl
  | succ k ih =>
    cases rows with
    | nil => cases hk
    | cons o' rest =>
      rw [heads_cons] at hk ⊢
      obtain ⟨c', hc'⟩ := exists_rows_eq hpos (r.onward (r.mark o') n)
      have hothers : r.others o' rest = r.rowsAfter s c' := by
        rw [← rows_onward hpos hrows.symm n, hc']
        exact rowsAfter_congr rfl rfl rfl rfl
      exact ih hothers hk

/-- **A resumed listing has the rest of the entries to show.** -/
theorem entries?_resumed (hpos : ∀ o ∈ s.objects.rows, 0 < o.version) {k : Nat}
    (hk : (r.heads (r.rows s))[k]? = some o) (he : r.shown? o = some e) (n : Nat) :
    (r.resumed e n).entries? s = ((r.heads (r.rows s)).drop (k + 1)).mapM r.shown? := by
  obtain ⟨c, hc⟩ := exists_rows_eq hpos r
  have hcovers : r.Covers o := covers_of_mem_heads (List.mem_of_getElem? hk)
  rw [entries?, resumed_eq hcovers he]
  exact congrArg (List.mapM r.shown?) (heads_onward hpos hc hk n)

end ListObjects

/-! ## What entries show -/

/-- Whether two entries show the same group, or the same version of a key. -/
def Entry.SameLine (e e' : Entry) : Prop :=
  e.isGroup = e'.isGroup ∧ e.key = e'.key ∧ (e.isGroup = true ∨ e.version = e'.version)

namespace ListObjects

variable {r : ListObjects} {s : Store} {o : ObjectRow} {rows : List ObjectRow} {es : List Entry}

/-- Whether an entry shows a row: as one of its group, or as a version of a key. -/
def Shows (r : ListObjects) (e : Entry) (o : ObjectRow) : Prop :=
  match r.group? o.location.key with
  | some g => e.isGroup = true ∧ e.key = g
  | none => e.isGroup = false ∧ r.lead ++ e.key = o.location.key ∧ e.version.toInt = o.version

/-- The entry of a row shows it, and with it the other rows of its group. -/
theorem shows_of_head {o' : ObjectRow} {e : Entry} (hcovers : r.Covers o')
    (he : r.shown? o' = some e)
    (h : o' = o ∨ ∃ g, r.group? o'.location.key = some g ∧ r.group? o.location.key = some g) :
    r.Shows e o := by
  obtain ⟨hversion, hisGroup, hkey⟩ := of_shown? he
  unfold Shows
  rcases h with rfl | ⟨g, hgroup', hgroup⟩
  · cases hgroup : r.group? o'.location.key with
    | some g =>
      rw [hgroup] at hisGroup hkey
      exact ⟨hisGroup, hkey⟩
    | none =>
      rw [hgroup] at hisGroup hkey
      obtain ⟨more, hmore⟩ := hcovers.lead
      rw [← hmore, Option.getD_none, List.drop_left] at hkey
      exact ⟨hisGroup, by rw [hkey, hmore], hversion⟩
  · rw [hgroup'] at hisGroup hkey
    rw [hgroup]
    exact ⟨hisGroup, hkey⟩

/-- **Every row that is asked for is shown by an entry,** and every entry shows such a row. -/
theorem entries?_show (hes : r.entries? s = some es) :
    (∀ o ∈ r.rows s, ∃ e ∈ es, r.Shows e o) ∧ ∀ e ∈ es, ∃ o ∈ r.rows s, r.Shows e o := by
  have hrel := Option.mapM_eq_some_iff.1 hes
  constructor
  · intro o ho
    obtain ⟨o', ho', hshows⟩ := exists_head r ho
    obtain ⟨e, he, hshown⟩ := Except.exists_of_forall₂ hrel.flip ho'
    exact ⟨e, he, shows_of_head (covers_of_mem_heads ho') hshown hshows⟩
  · intro e he
    obtain ⟨o, ho, hshown⟩ := Except.exists_of_forall₂ hrel he
    have hshows := shows_of_head (covers_of_mem_heads ho) hshown (.inl rfl)
    exact ⟨o, (heads_sublist r _).subset ho, hshows⟩

/-- No two heads are of the same group. -/
theorem pairwise_heads (r : ListObjects) (rows : List ObjectRow) :
    (r.heads rows).Pairwise fun o o' =>
      ∀ g, r.group? o.location.key = some g → r.group? o'.location.key ≠ some g := by
  induction rows using others_induction r with
  | nil => exact .nil
  | cons o rest ih =>
    rw [heads_cons]
    refine List.pairwise_cons.2 ⟨fun o' ho' g hgroup => ?_, ih⟩
    have hothers : o' ∈ r.others o rest := (heads_sublist r _).subset ho'
    unfold others at hothers
    rw [hgroup] at hothers
    exact of_decide_eq_true (List.mem_filter.1 hothers).2

/-- Rows of different groups at different places are not shown alike. -/
theorem not_sameLine {o o' : ObjectRow} {e e' : Entry} (hcovers : r.Covers o)
    (hcovers' : r.Covers o') (he : r.shown? o = some e) (he' : r.shown? o' = some e')
    (hgroups : ∀ g, r.group? o.location.key = some g → r.group? o'.location.key ≠ some g)
    (hplace : compare o.place o'.place = .lt) : ¬ e.SameLine e' := by
  rintro ⟨hkind, hname, hsame⟩
  obtain ⟨hversion, hisGroup, hkey⟩ := of_shown? he
  obtain ⟨hversion', hisGroup', hkey'⟩ := of_shown? he'
  rw [hisGroup, hisGroup'] at hkind
  rw [hkey, hkey'] at hname
  rw [hisGroup] at hsame
  cases hgroup : r.group? o.location.key with
  | some g =>
    rw [hgroup] at hkind hname
    obtain ⟨g', hgroup'⟩ := Option.isSome_iff_exists.1 hkind.symm
    rw [hgroup'] at hname
    exact hgroups g hgroup (hgroup'.trans (congrArg some hname.symm))
  | none =>
    rw [hgroup] at hkind hname hsame
    have hgroup' : r.group? o'.location.key = none :=
      Option.not_isSome_iff_eq_none.1 fun hsome => absurd (hkind.trans hsome) (by decide)
    rw [hgroup'] at hname
    have hversions : o.version = o'.version := by
      rw [← hversion, ← hversion', hsame.resolve_left (by decide)]
    have hkeys : o.location.key = o'.location.key := by
      obtain ⟨more, hmore⟩ := hcovers.lead
      obtain ⟨more', hmore'⟩ := hcovers'.lead
      rw [← hmore, ← hmore'] at hname ⊢
      simp only [Option.getD_none, List.drop_left] at hname
      rw [hname]
    have hsame : o.place = o'.place := by
      unfold ObjectRow.place
      rw [hkeys, hversions]
    have hself : compare o'.place o'.place = .eq := Std.ReflCmp.compare_self
    rw [hsame, hself] at hplace
    cases hplace

/-- **No group and no version of a key is shown twice.** -/
theorem pairwise_entries (hes : r.entries? s = some es) :
    es.Pairwise fun e e' => ¬ e.SameLine e' := by
  have hcovers : ∀ o ∈ r.heads (r.rows s), r.Covers o := fun _ => covers_of_mem_heads
  have hdistinct := (pairwise_heads r (r.rows s)).and
    ((ascending_rows r s).sublist (heads_sublist r (r.rows s)))
  have hrel := (List.forall₂_and_left _ _).2 ⟨hcovers, Option.mapM_eq_some_iff.1 hes⟩
  exact pairwise_of_forall₂ (fun _ _ _ _ ⟨hcovers, he⟩ ⟨hcovers', he'⟩ ⟨hgroups, hplace⟩ =>
    not_sameLine hcovers hcovers' he he' hgroups hplace) hrel hdistinct

end ListObjects

/-! ## Clients -/

variable {σ : Site} {s : Store} {h : Handle} {r : ListObjects} {allow : Store → StreamId → Prop}

/-- What a client sees that lists page by page: it takes up to some number of entries of a listing
and, until a listing has ended, goes on with another one after the last entry that it has got. -/
inductive Site.Pages (σ : Site) : ListObjects → List Entry → Prop
  | last {r : ListObjects} {l : Listing} {n : Nat} {es : List Entry}
      (hstart : Listing.start r = .ok l) (hpage : l.drain σ.store n = .ok es)
      (hend : es.length < n) : σ.Pages r es
  | more {r : ListObjects} {l : Listing} {n size : Nat} {e : Entry} {es rest : List Entry}
      (hstart : Listing.start r = .ok l) (hpage : l.drain σ.store n = .ok (es ++ [e]))
      (hrest : σ.Pages (r.resumed e size) rest) : σ.Pages r (es ++ e :: rest)

/-- A page that a client gets holds the first of the entries that a listing has to show. -/
theorem Store.Legible.page (hread : s.Legible) (hs : σ.store = some s) {l : Listing} {n : Nat}
    {es : List Entry} (hstart : Listing.start r = .ok l) (hpage : l.drain σ.store n = .ok es) :
    ((r.heads (r.rows s)).take n).mapM r.shown? = some es := by
  obtain ⟨-, -, rfl⟩ := Listing.start_eq_ok_iff.1 hstart
  have hahead := Listing.ahead_started hread.positive r
  rw [Listing.request_started, ListObjects.rows_batch] at hahead
  rcases Listing.drain_of_ahead hread hahead n with ⟨es', hdrain, hes⟩ | ⟨hfails, -⟩
  · rw [hs, hdrain] at hpage
    cases hpage
    rw [Listing.request_started] at hes
    exact hes
  · rw [hs, hfails] at hpage
    cases hpage

/-- **A client that lists page by page sees what a listing has to show.** -/
theorem Site.Pages.entries?_eq (hread : s.Legible) (hs : σ.store = some s) {seen : List Entry}
    (hpages : σ.Pages r seen) : r.entries? s = some seen := by
  induction hpages with
  | @last r l n es hstart hpage hend =>
    have hes := hread.page hs hstart hpage
    have hlength := (Option.mapM_eq_some_iff.1 hes).length_eq
    rw [List.length_take] at hlength
    rw [List.take_of_length_le (by omega)] at hes
    exact hes
  | @more r l n size e es rest hstart hpage _ ih =>
    have hpage := Option.mapM_eq_some_iff.1 (hread.page hs hstart hpage)
    have hlast : (es ++ [e])[es.length]? = some e := List.getElem?_concat_length
    obtain ⟨o, hk, he⟩ := exists_of_forall₂_getElem? hpage hlast
    have hlength := hpage.length_eq
    rw [List.length_take, List.length_append, List.length_singleton] at hlength
    have htake : (r.heads (r.rows s)).take n = (r.heads (r.rows s)).take (es.length + 1) := by
      rw [List.take_eq_take_iff]
      omega
    rw [htake, List.getElem?_take_of_lt (Nat.lt_succ_self _)] at hk
    rw [ListObjects.entries?_resumed hread.positive hk he] at ih
    -- the entries of this page, then those of the pages behind it
    have hall := List.rel_append hpage (Option.mapM_eq_some_iff.1 ih)
    dsimp only at hall
    rw [htake, List.take_append_drop, List.append_assoc] at hall
    exact Option.mapM_eq_some_iff.2 hall

/-- **A listing at a reachable site goes on from any entry.** A listing of the same request that goes
on after an entry, with batches of any size, gives out the entries behind it, unless it fails because
of the row of a start at the version after the greatest one. So a client that lists page by page sees
every group and every other row that is asked for, and none of them twice. -/
theorem Site.Reachable.listing_resumes (hσ : σ.Reachable allow) (hs : σ.store = some s) (h : Handle)
    (hproject : r.project.isZero = false) (hbucket : r.bucket.isEmpty = false) :
    (∀ es k e n, σ.listing h r = .ok es → es[k]? = some e →
      σ.listing h (r.resumed e n) = .ok (es.drop (k + 1)) ∨
      σ.listing h (r.resumed e n) = .error (.storage .listObjects) ∧
        ∃ o ∈ (r.resumed e n).rows s, o.Overrun) ∧
    ∀ seen, σ.Pages r seen → r.entries? s = some seen ∧
      ((∀ o ∈ r.rows s, ∃ e ∈ seen, r.Shows e o) ∧ ∀ e ∈ seen, ∃ o ∈ r.rows s, r.Shows e o) ∧
      seen.Pairwise fun e e' => ¬ e.SameLine e' := by
  have hread := hσ.legible hs
  refine ⟨fun es k e n hlisting hk => ?_, fun seen hpages => ?_⟩
  case refine_1 =>
    have hes : r.entries? s = some es := by
      rcases hread.listing (h := h) hs hproject hbucket with ⟨es', hes, hok⟩ | ⟨hfails, -⟩
      · rw [hlisting] at hok
        cases hok
        exact hes
      · rw [hlisting] at hfails
        cases hfails
    have hrel := Option.mapM_eq_some_iff.1 hes
    obtain ⟨o, ho, he⟩ := exists_of_forall₂_getElem? hrel hk
    have hrest : (r.resumed e n).entries? s = some (es.drop (k + 1)) := by
      rw [ListObjects.entries?_resumed hread.positive ho he]
      exact Option.mapM_eq_some_iff.2 (List.forall₂_drop (k + 1) hrel)
    rcases hread.listing (h := h) (r := r.resumed e n) hs hproject hbucket with
      ⟨es', hes', hok⟩ | hfails
    · rw [hrest] at hes'
      cases hes'
      exact .inl hok
    · exact .inr hfails
  case refine_2 =>
    have hseen := hpages.entries?_eq hread hs
    exact ⟨hseen, ListObjects.entries?_show hseen, ListObjects.pairwise_entries hseen⟩

/-! ### A row that cannot be read, behind an entry -/

namespace Sample

/-- Behind `a` there is the group with the row that cannot be read, which only a listing in greater
batches comes upon. -/
theorem listing_clogged :
    ∃ h ∈ clogged.handles, ∃ e e', clogged.listing h (uploads 1) = .ok [e, e'] ∧
      clogged.listing h ((uploads 1).resumed e 0) = .error (.storage .listObjects) ∧
      ∃ es, clogged.listing h ((uploads 1).resumed e 1) = .ok es := by
  have hlists : ∃ h ∈ clogged.handles,
      (clogged.listing h (uploads 1)).map (List.map fun e => (e.key, e.version)) =
        .ok [([0x61], 1), ([0x67, 0x2f], Int64.maxValue)] ∧
      (clogged.listing h ((uploads 1).onward ⟨[0x61], 1⟩ 0)).map (List.map shownKey) =
        .error (.storage .listObjects) ∧
      (clogged.listing h ((uploads 1).onward ⟨[0x61], 1⟩ 1)).toOption.isSome = true := by
    decide +kernel
  obtain ⟨h, hh, hlisted, hfails, hgoes⟩ := hlists
  cases hlisting : clogged.listing h (uploads 1) with
  | error err =>
    rw [hlisting] at hlisted
    cases hlisted
  | ok es =>
    rw [hlisting] at hlisted
    obtain ⟨e, rest, rfl, hfirst, hrest⟩ := List.map_eq_cons_iff.1 (Except.ok.inj hlisted)
    obtain ⟨e', rest, rfl, -, hrest⟩ := List.map_eq_cons_iff.1 hrest
    obtain rfl := List.map_eq_nil_iff.1 hrest
    obtain ⟨hkey, hversion⟩ := Prod.mk.inj hfirst
    have hresumed : ∀ n, (uploads 1).resumed e n = (uploads 1).onward ⟨[0x61], 1⟩ n := fun n => by
      unfold ListObjects.resumed
      rw [hkey, hversion]
      rfl
    refine ⟨h, hh, e, e', hlisting, ?_, ?_⟩
    · rw [hresumed]
      cases hlast : clogged.listing h ((uploads 1).onward ⟨[0x61], 1⟩ 0) with
      | error err =>
        rw [hlast] at hfails
        exact congrArg Except.error (Except.error.inj hfails)
      | ok es =>
        rw [hlast] at hfails
        cases hfails
    · rw [hresumed]
      exact Except.exists_eq_ok hgoes

end Sample

/-- What is listed one by one cannot be gone on with in batches of the greatest size. -/
theorem Sample.resumed_by_batch :
    clogged.Reachable Store.Lacks ∧ ∃ h ∈ clogged.handles, ∃ e e',
      clogged.listing h (uploads 1) = .ok [e, e'] ∧
      clogged.listing h ((uploads 1).resumed e 0) = .error (.storage .listObjects) := by
  obtain ⟨h, hh, e, e', hlisting, hfails, -⟩ := listing_clogged
  exact ⟨reachable_clogged, h, hh, e, e', hlisting, hfails⟩

/-- What is listed one by one can be gone on with one by one. -/
theorem Sample.listing_resumes_clogged :
    ∃ h ∈ clogged.handles, ∃ e e', clogged.listing h (uploads 1) = .ok [e, e'] ∧
      clogged.listing h ((uploads 1).resumed e 1) = .ok [e'] := by
  obtain ⟨h, hh, e, e', hlisting, -, es, hgoes⟩ := listing_clogged
  have htables : clogged.store.isSome = true := by decide +kernel
  obtain ⟨s, hs⟩ := Option.isSome_iff_exists.1 htables
  obtain ⟨hresumes, -⟩ :=
    Site.Reachable.listing_resumes reachable_clogged hs h (r := uploads 1) (by decide) (by decide)
  rcases hresumes [e, e'] 0 e 1 hlisting rfl with hrest | ⟨hfails, -⟩
  · exact ⟨h, hh, e, e', hlisting, hrest⟩
  · rw [hgoes] at hfails
    cases hfails

end ObjectCatalog
