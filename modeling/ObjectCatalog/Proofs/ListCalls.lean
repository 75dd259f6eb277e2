import ObjectCatalog.Proofs.Listings

/-!
# Calls that list a bucket

* `Listing.drain_narrow`: columns that are not asked for are absent or zero, and nothing else changes.
* `Listing.Under`: a listing under way, whatever has happened to the tables between its steps. Its
  fetched keys have its lead, so what it shows relative to the lead is what follows it.
* `Site.Reachable.listing_exact`: **at every reachable site a listing gives out what its request asks
  for,** whatever the size of a batch, or fails because of the row of a start at the version after the
  greatest one.
-/

namespace ObjectCatalog

/-! ## Columns that are not asked for -/

/-- A request for some of the columns. -/
def ListObjects.narrow (custom system : Bool) (r : ListObjects) : ListObjects :=
  { r with includeCustomMetadata := custom, includeSystemMetadata := system }

/-- A listing that has fetched some of the columns. -/
def Listing.narrow (custom system : Bool) (l : Listing) : Listing :=
  { l with
    request := l.request.narrow custom system
    buffer := l.buffer.map (Entry.narrow custom system) }

@[simp]
theorem Entry.key_narrow (custom system : Bool) (e : Entry) :
    (e.narrow custom system).key = e.key := by
  cases custom <;> cases system <;> rfl

@[simp]
theorem Entry.version_narrow (custom system : Bool) (e : Entry) :
    (e.narrow custom system).version = e.version := by
  cases custom <;> cases system <;> rfl

namespace Listing

variable {l l' : Listing} {s : Store} {r : ListObjects} {e : Entry} {g : Bytes}

theorem skipGroup_narrow (custom system : Bool) (l : Listing) (g : Bytes) :
    (l.narrow custom system).skipGroup g = (l.skipGroup g).narrow custom system := by
  have hdropped : (l.narrow custom system).buffer.dropWhile
        (fun e => (l.request.lead ++ g).isPrefixOf e.key) =
      (l.buffer.dropWhile fun e => (l.request.lead ++ g).isPrefixOf e.key).map
        (Entry.narrow custom system) := by
    show (l.buffer.map _).dropWhile _ = _
    rw [List.dropWhile_map]
    congr 2
    funext e
    exact congrArg (List.isPrefixOf _) (e.key_narrow custom system)
  have hlead : (l.narrow custom system).request.lead = l.request.lead := rfl
  unfold skipGroup
  dsimp only
  rw [hlead, hdropped, List.isEmpty_map]
  split
  · cases (l.request.lead ++ g).above? <;> rfl
  · rfl

theorem take_narrow (custom system : Bool) (l : Listing) :
    (l.narrow custom system).take =
      (l.take.1.map (Entry.narrow custom system), l.take.2.narrow custom system) := by
  unfold take
  cases hbuffer : l.buffer with
  | nil =>
    have hnil : (l.narrow custom system).buffer = [] := by
      show l.buffer.map _ = []
      rw [hbuffer, List.map_nil]
    rw [hnil]
    rfl
  | cons e buffer =>
    have hcons : (l.narrow custom system).buffer =
        e.narrow custom system :: buffer.map (Entry.narrow custom system) := by
      show l.buffer.map _ = _
      rw [hbuffer, List.map_cons]
    rw [hcons]
    dsimp only
    rw [Entry.key_narrow, Entry.version_narrow]
    have hrequest : (l.narrow custom system).request.recursive = l.request.recursive := rfl
    have hlead : (l.narrow custom system).request.lead = l.request.lead := rfl
    rw [hrequest, hlead]
    cases (if l.request.recursive = true then none
      else groupOf? (e.key.drop l.request.lead.length)) with
    | some g =>
      let l₁ : Listing := { l with buffer, cursor := ⟨e.key, e.version.toInt⟩ }
      refine Prod.ext ?_ (skipGroup_narrow custom system l₁ g)
      cases custom <;> cases system <;> rfl
    | none => cases custom <;> cases system <;> rfl

theorem line?_narrow (hs : s.Legible) (hall : l.request.narrow true true = l.request)
    (custom system : Bool) {o : ObjectRow} (ho : o ∈ s.objects.rows) :
    (l.narrow custom system).line? o = (l.line? o).map (Entry.narrow custom system) := by
  have hline : l.line? o = o.listed? true true := by
    unfold line?
    rw [← hall]
    rfl
  show o.listed? custom system = _
  rw [hline, hs.listed?_eq ho, hs.listed?_eq ho, Option.map_map]
  rfl

theorem fetch_narrow (hs : s.Legible) (hall : l.request.narrow true true = l.request)
    (custom system : Bool) :
    (l.narrow custom system).fetch s = (l.fetch s).map (Listing.narrow custom system) := by
  have hlines : ((l.request.rowsAfter s l.cursor).take l.request.batchSize).mapM
        (l.narrow custom system).line? =
      (((l.request.rowsAfter s l.cursor).take l.request.batchSize).mapM l.line?).map
        (List.map (Entry.narrow custom system)) :=
    Option.mapM_map fun o ho => line?_narrow hs hall custom system
      (ListObjects.mem_rowsAfter.1 (List.mem_of_mem_take ho)).1
  have hrows : (l.narrow custom system).request.rowsAfter s (l.narrow custom system).cursor =
      l.request.rowsAfter s l.cursor := ListObjects.rowsAfter_congr rfl rfl rfl rfl
  have hbatch : (l.narrow custom system).request.batchSize = l.request.batchSize := rfl
  rw [fetch_eq, fetch_eq, hrows, hbatch, hlines]
  cases ((l.request.rowsAfter s l.cursor).take l.request.batchSize).mapM l.line? with
  | none => rfl
  | some buffer =>
    show Except.ok _ = Except.ok _
    rw [List.length_map]
    rfl

theorem next_narrow (hs : s.Legible) (hall : l.request.narrow true true = l.request)
    (custom system : Bool) :
    (l.narrow custom system).next (some s) =
      ((l.next (some s)).1.map (Option.map (Entry.narrow custom system)),
        (l.next (some s)).2.narrow custom system) := by
  have hneeds : ((l.narrow custom system).buffer.isEmpty && !(l.narrow custom system).exhausted) =
      (l.buffer.isEmpty && !l.exhausted) := by
    show ((l.buffer.map _).isEmpty && !l.exhausted) = _
    rw [List.isEmpty_map]
  unfold next
  rw [hneeds]
  split
  · dsimp only
    rw [fetch_narrow hs hall]
    cases l.fetch s with
    | error e => rfl
    | ok l' =>
      show (Except.ok (l'.narrow custom system).take.1, (l'.narrow custom system).take.2) = _
      rw [take_narrow]
      rfl
  · dsimp only
    rw [take_narrow]
    rfl

theorem request_take (l : Listing) : l.take.2.request = l.request := by
  unfold take
  cases l.buffer with
  | nil => rfl
  | cons e buffer =>
    dsimp only
    split
    · exact request_skipGroup _ _
    · rfl

theorem request_fetch (h : l.fetch s = .ok l') : l'.request = l.request := by
  rw [fetch_eq] at h
  split at h
  · cases h
  · cases h
    rfl

/-- A listing keeps its request. -/
theorem request_next (l : Listing) (s : Option Store) : (l.next s).2.request = l.request := by
  unfold next
  split
  · cases s with
    | none => rfl
    | some s =>
      dsimp only
      cases hfetch : l.fetch s with
      | error e => rfl
      | ok l' => exact (request_take l').trans (request_fetch hfetch)
  · exact request_take l

/-- **Columns that are not asked for are absent or zero, and nothing else changes.** -/
theorem drain_narrow (hs : s.Legible) (hall : l.request.narrow true true = l.request)
    (custom system : Bool) (limit : Nat) :
    (l.narrow custom system).drain (some s) limit =
      (l.drain (some s) limit).map (List.map (Entry.narrow custom system)) := by
  induction limit generalizing l with
  | zero => rfl
  | succ limit ih =>
    have hkept := request_next l (some s)
    unfold drain
    rw [next_narrow hs hall]
    cases hnext : l.next (some s) with
    | mk outcome l' =>
      rw [hnext] at hkept
      have hall' : l'.request.narrow true true = l'.request := by
        rw [show l'.request = l.request from hkept, hall]
      cases outcome with
      | error e => rfl
      | ok entry =>
        cases entry with
        | none => rfl
        | some e =>
          show (Listing.drain (some s) limit (l'.narrow custom system) >>= _) =
            Except.map _ (Listing.drain (some s) limit l' >>= fun es => pure (e :: es))
          rw [ih hall']
          cases Listing.drain (some s) limit l' <;> rfl

theorem started_narrow (custom system : Bool) (r : ListObjects) :
    started (r.narrow custom system) = (started (r.narrow true true)).narrow custom system := by
  have hgroup : (r.narrow custom system).group? (r.narrow custom system).cursor.key =
      (r.narrow true true).group? (r.narrow true true).cursor.key := rfl
  unfold started
  rw [hgroup]
  split
  · exact skipGroup_narrow custom system (opened (r.narrow true true)) _
  · rfl

/-! ## Listings under way -/

/-- The listings of a request, whatever tables each of their steps finds. -/
inductive Under (r : ListObjects) : Listing → Prop
  | start {l : Listing} (h : start r = .ok l) : Under r l
  | next {l : Listing} (h : Under r l) (s : Option Store) : Under r (l.next s).2

theorem mem_buffer_skipGroup (h : e ∈ (l.skipGroup g).buffer) : e ∈ l.buffer := by
  have hsub : (l.skipGroup g).buffer.Sublist l.buffer := by
    unfold skipGroup
    dsimp only
    split
    · split <;> exact List.dropWhile_sublist _
    · exact List.dropWhile_sublist _
  exact hsub.subset h

theorem mem_buffer_take (h : e ∈ l.take.2.buffer) : e ∈ l.buffer := by
  unfold take at h
  split at h
  · exact h
  · next e' buffer hbuffer =>
    rw [hbuffer]
    dsimp only at h
    split at h
    · exact List.mem_cons_of_mem _ (mem_buffer_skipGroup h)
    · exact List.mem_cons_of_mem _ h

/-- What is fetched has the lead of the request. -/
theorem lead_of_fetch (h : l.fetch s = .ok l') (he : e ∈ l'.buffer) : l.request.lead <+: e.key := by
  rw [fetch_eq] at h
  split at h
  · cases h
  · next buffer hlines =>
    cases h
    obtain ⟨o, ho, hline⟩ := Except.exists_of_forall₂ (Option.mapM_eq_some_iff.1 hlines) he
    rw [(ObjectRow.of_listed? hline).1]
    exact (ListObjects.mem_rowsAfter.1 (List.mem_of_mem_take ho)).2.1.lead

theorem lead_next (h : ∀ e ∈ l.buffer, l.request.lead <+: e.key) (s : Option Store) :
    ∀ e ∈ (l.next s).2.buffer, l.request.lead <+: e.key := by
  intro e he
  unfold next at he
  split at he
  · cases s with
    | none => exact h e he
    | some s =>
      dsimp only at he
      cases hfetch : l.fetch s with
      | error err =>
        rw [hfetch] at he
        exact h e he
      | ok l' =>
        rw [hfetch] at he
        exact lead_of_fetch hfetch (mem_buffer_take he)
  · exact h e (mem_buffer_take he)

/-- A listing starts with nothing fetched. -/
theorem buffer_started (r : ListObjects) : (started r).buffer = [] := by
  refine List.eq_nil_iff_forall_not_mem.2 fun e he => ?_
  unfold started at he
  split at he
  · exact absurd (mem_buffer_skipGroup he) List.not_mem_nil
  · exact absurd he List.not_mem_nil

/-- **The keys that a listing has fetched have its lead,** so what follows the lead is a part of
them. -/
theorem Under.lead_isPrefix (h : Under r l) :
    l.request.lead = r.lead ∧ ∀ e ∈ l.buffer, l.request.lead <+: e.key := by
  induction h with
  | start hstart =>
    obtain ⟨-, -, rfl⟩ := start_eq_ok_iff.1 hstart
    rw [request_started, buffer_started]
    exact ⟨rfl, fun e he => absurd he List.not_mem_nil⟩
  | @next l h s ih =>
    rw [request_next]
    exact ⟨ih.1, lead_next ih.2 s⟩

end Listing

/-! ## Calls -/

/-- What a handle gets when it lists a bucket. -/
def Site.listing (σ : Site) (h : Handle) (r : ListObjects) : Except Error (List Entry) :=
  ((σ.catalog h).run (Catalog.listObjects r)).1

variable {σ : Site} {s : Store} {h : Handle} {r : ListObjects} {allow : Store → StreamId → Prop}

theorem Site.listing_eq (hs : σ.store = some s) (hproject : r.project.isZero = false)
    (hbucket : r.bucket.isEmpty = false) :
    σ.listing h r = (Listing.started r).drain (some s) (s.objects.rows.length + 1) := by
  have hstart : Listing.start r = .ok (Listing.started r) :=
    Listing.start_eq_ok_iff.2 ⟨hproject, hbucket, rfl⟩
  have hcount : (σ.catalog h).rowCount = s.objects.rows.length := by
    show σ.store.elim 0 _ = _
    rw [hs]
    rfl
  have hstore : (σ.catalog h).store = some s := hs
  unfold listing Catalog.listObjects
  rw [Catalog.run_lift_bind, hstart]
  dsimp only
  rw [Catalog.run_get_bind, hstore, hcount]
  rfl

/-- A request asks for the same rows, whatever the size of a batch. -/
theorem ListObjects.rows_batch (r : ListObjects) (n : Nat) :
    ({ r with batchSize := n } : ListObjects).rows s = r.rows s := by
  have hafter : ({ r with batchSize := n } : ListObjects).rowsAfter s r.cursor =
      r.rowsAfter s r.cursor := rowsAfter_congr rfl rfl rfl rfl
  cases hgroup : r.group? r.cursor.key with
  | none =>
    rw [rows_of_no_group hgroup, rows_of_no_group (r := { r with batchSize := n }) hgroup]
    exact hafter
  | some g =>
    rw [rows_of_group hgroup, rows_of_group (r := { r with batchSize := n }) hgroup]
    exact congrArg (List.filter _) hafter

/-- **What a listing of tables gives out:** what its request asks for, or a failure because of the row
of a start at the version after the greatest one. -/
theorem Store.Legible.listing (hread : s.Legible) (hs : σ.store = some s)
    (hproject : r.project.isZero = false) (hbucket : r.bucket.isEmpty = false) :
    (∃ es, r.entries? s = some es ∧ σ.listing h r = .ok es) ∨
      σ.listing h r = .error (.storage .listObjects) ∧ ∃ o ∈ r.rows s, o.Overrun := by
  have hahead := Listing.ahead_started hread.positive r
  rw [Listing.request_started, ListObjects.rows_batch] at hahead
  rw [Site.listing_eq hs hproject hbucket]
  rcases Listing.drain_of_ahead hread hahead (s.objects.rows.length + 1) with
    ⟨es, hdrain, hes⟩ | hfails
  · refine .inl ⟨es, ?_, hdrain⟩
    have hlength : (r.heads (r.rows s)).length ≤ s.objects.rows.length + 1 :=
      Nat.le_succ_of_le ((r.heads_sublist _).trans List.filter_sublist).length_le
    rw [Listing.request_started] at hes
    rw [← hes]
    show _ = ((r.heads (r.rows s)).take _).mapM r.shown?
    rw [List.take_of_length_le hlength]
    rfl
  · exact .inr hfails

/-- **What a listing at a reachable site gives out.** The rows of its request, in order of key and
version, are those of its bucket and status with its lead that lie after its cursor and not in the
group of its cursor. A listing shows them, with one entry for each group, whatever the size of a
batch; only the row of a start at the version after the greatest one can make it fail. Columns that
are not asked for are absent or zero and nothing else changes. A listing ends, and every key that it
has fetched is at least as long as its lead. -/
theorem Site.Reachable.listing_exact (hσ : σ.Reachable allow) (hs : σ.store = some s) (h : Handle)
    (hproject : r.project.isZero = false) (hbucket : r.bucket.isEmpty = false) :
    (Ascending ObjectRow.place (r.rows s) ∧
      ∀ o, o ∈ r.rows s ↔ o ∈ s.objects.rows ∧ r.Lists o) ∧
    ((∃ es, r.entries? s = some es ∧ σ.listing h r = .ok es) ∨
      σ.listing h r = .error (.storage .listObjects) ∧ ∃ o ∈ r.rows s, o.Overrun) ∧
    (∀ custom system, σ.listing h (r.narrow custom system) =
      (σ.listing h (r.narrow true true)).map (List.map (Entry.narrow custom system))) ∧
    (∀ l limit, Listing.start r = .ok l → s.objects.rows.length < limit →
      l.drain σ.store limit = σ.listing h r) ∧
    ∀ l, Listing.Under r l → ∀ e ∈ l.buffer, r.lead.length ≤ e.key.length := by
  have hread := hσ.legible hs
  refine ⟨⟨ListObjects.ascending_rows r s, fun o => ?_⟩, hread.listing hs hproject hbucket,
    fun custom system => ?_, fun l limit hstart hlimit => ?_, fun l hunder e he => ?_⟩
  case refine_1 => rw [ListObjects.rows, List.mem_filter, decide_eq_true_eq]
  case refine_2 =>
    have hall : (Listing.started (r.narrow true true)).request.narrow true true =
        (Listing.started (r.narrow true true)).request := by
      rw [Listing.request_started]
      rfl
    have heq : ∀ custom system, σ.listing h (r.narrow custom system) =
        (Listing.started (r.narrow custom system)).drain (some s) (s.objects.rows.length + 1) :=
      fun _ _ => Site.listing_eq hs hproject hbucket
    rw [heq, heq, Listing.started_narrow]
    exact Listing.drain_narrow hread hall custom system _
  case refine_3 =>
    obtain ⟨-, -, rfl⟩ := Listing.start_eq_ok_iff.1 hstart
    have hahead := Listing.ahead_started hread.positive r
    have hle : ((Listing.started r).request.rows s).length ≤ s.objects.rows.length :=
      List.length_filter_le _ _
    rw [Site.listing_eq hs hproject hbucket, hs]
    exact Listing.drain_congr hread.positive hahead (Nat.lt_of_le_of_lt hle hlimit)
      (Nat.lt_succ_of_le hle)
  case refine_4 =>
    obtain ⟨hlead, hkeys⟩ := hunder.lead_isPrefix
    rw [← hlead]
    exact (hkeys e he).length_le

/-! ### A row that cannot be read, in a group -/

namespace Sample

/-- An upload of a key. -/
def uploadOf (key : Bytes) (version : Int64) (stream : Nat) : ObjectStream where
  location := ⟨.ofNat 1, "bucket", key⟩
  version := version
  stream := .ofNat stream

/-- A site with an upload of `a` and two uploads of `g/x`, the second of them at the version after the
greatest one. -/
def clogged : Site := Site.fresh.run
  [.opening {}, .call 0 moment (begin (uploadOf [0x61] 1 4)),
    .call 0 moment (begin (uploadOf [0x67, 0x2f, 0x78] Int64.maxValue 5)),
    .call 0 moment (.beginNextVersion
      { stream := uploadOf [0x67, 0x2f, 0x78] 0 6, encryption := ⟨1, 256⟩ })]

theorem reachable_clogged : clogged.Reachable Store.Lacks :=
  Site.Reachable.fresh.run (by decide +kernel)

/-- The pending uploads of the bucket, in groups. -/
def uploads (batchSize : Nat) : ListObjects :=
  { project := .ofNat 1, bucket := "bucket", status := .pending, recursive := false, batchSize }

/-- What an entry shows of its key. -/
def shownKey (e : Entry) : Bool × Bytes := (e.isGroup, e.key)

end Sample

/-- Fetched one by one, the uploads are listed: the row that cannot be read is passed over with its
group. Fetched together, they cannot be listed. -/
theorem Sample.listing_by_batch :
    clogged.Reachable Store.Lacks ∧ ∃ h ∈ clogged.handles,
      (clogged.listing h (uploads 1)).map (List.map shownKey) =
        .ok [(false, [0x61]), (true, [0x67, 0x2f])] ∧
      (clogged.listing h (uploads 0)).map (List.map shownKey) = .error (.storage .listObjects) := by
  refine ⟨reachable_clogged, ?_⟩
  decide +kernel

/-- What is listed one by one is what there is to show, and what is shown without metadata and system
columns is the same but for these. -/
theorem Sample.listing_exact_clogged :
    ∃ h ∈ clogged.handles, ∃ s es, clogged.store = some s ∧
      (uploads 1).entries? s = some es ∧ clogged.listing h (uploads 1) = .ok es ∧
      clogged.listing h ((uploads 1).narrow false false) =
        .ok (es.map (Entry.narrow false false)) := by
  have hlists : ∃ h ∈ clogged.handles,
      (clogged.listing h (uploads 1)).toOption.isSome = true := by decide +kernel
  obtain ⟨h, hh, hlisted⟩ := hlists
  obtain ⟨es, hlisting⟩ := Except.exists_eq_ok hlisted
  have htables : clogged.store.isSome = true := by decide +kernel
  obtain ⟨s, hs⟩ := Option.isSome_iff_exists.1 htables
  obtain ⟨-, hshown, hnarrow, -, -⟩ :=
    Site.Reachable.listing_exact reachable_clogged hs h (r := uploads 1) (by decide) (by decide)
  rcases hshown with ⟨es', hentries, hok⟩ | ⟨hfails, -⟩
  · rw [hlisting] at hok
    cases hok
    have hall : (uploads 1).narrow true true = uploads 1 := rfl
    have hless := hnarrow false false
    rw [hall, hlisting] at hless
    exact ⟨h, hh, s, es, hs, hentries, hlisting, hless⟩
  · rw [hlisting] at hfails
    cases hfails

end ObjectCatalog
