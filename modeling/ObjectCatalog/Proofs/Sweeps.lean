import ObjectCatalog.Proofs.Confluence
import ObjectCatalog.Proofs.Instants

/-!
# What sweeps remove

A sweep works batch by batch, and a batch may hand pieces to streams that stay. That changes neither
the instants of object rows nor those of segments, so whether a row is due is the same before every
batch. Instants are compared by their texts: an instant counts as before another if it is filed before
it.

* `ObjectRow.Expired`, `Store.Abandoned`: the rows that are due.
* `DeletionStep.isActiveSince_eq`: **a deletion leaves the activity of the streams that stay.**
* `Store.Sweeps`: what a sweep does with the rows that are due.
* `Catalog.sweeps_sweep`: **it removes and reports these, each once.**
* `Catalog.sweepRounds_enough`: it has rounds enough to come to its end.
* `Site.Reachable.sweeps_exact`: the sweeps of a reachable site.
-/

namespace ObjectCatalog

open Store

variable {s s' : Store} {o : ObjectRow} {t before : Instant} {inactiveSince : Option Instant}
  {x : StreamId}

/-! ## Rows that are due -/

/-- Whether the expiration of a row is filed before an instant. -/
def ObjectRow.Expired (o : ObjectRow) (t : Instant) : Prop :=
  ∃ expiry, o.expiresAt = some expiry ∧ expiry.FiledBefore t

theorem ObjectRow.expiresBefore_iff : o.expiresBefore t = true ↔ o.Expired t := by
  rw [expiresBefore, Option.any_eq_true]
  simp only [Instant.before_iff]
  rfl

namespace Store

/-- An upload whose deadline is filed before an instant and, if another instant is given, whose
segments are all filed before that one. -/
structure Abandoned (s : Store) (before : Instant) (inactiveSince : Option Instant)
    (o : ObjectRow) : Prop where
  pending : o.hasStatus .pending = true
  deadline : ∃ deadline, o.zombieDeadline = some deadline ∧ deadline.FiledBefore before
  inactive : ∀ t, inactiveSince = some t → ∀ r ∈ s.segmentsOf o.stream, r.createdAt.FiledBefore t

/-- Whether the sweep of uploads would pick a row. -/
def isAbandoned (s : Store) (before : Instant) (inactiveSince : Option Instant)
    (o : ObjectRow) : Bool :=
  o.isZombieBefore before && !inactiveSince.any (s.isActiveSince · o.stream)

/-- A stream is inactive if its segments are all filed before the instant. -/
theorem isActiveSince_eq_false : s.isActiveSince t x = false ↔
    ∀ r ∈ s.segmentsOf x, r.createdAt.FiledBefore t := by
  rw [isActiveSince, List.any_eq_false]
  refine forall₂_congr fun r _ => ?_
  rw [Instant.notAfter, Bool.not_eq_true', Bool.not_eq_false, Instant.before_iff]

theorem isAbandoned_iff :
    s.isAbandoned before inactiveSince o = true ↔ s.Abandoned before inactiveSince o := by
  have hdeadline : o.zombieDeadline.any (·.before before) = true ↔
      ∃ deadline, o.zombieDeadline = some deadline ∧ deadline.FiledBefore before := by
    rw [Option.any_eq_true]
    simp only [Instant.before_iff]
  have hinactive : (!inactiveSince.any (s.isActiveSince · o.stream)) = true ↔
      ∀ t, inactiveSince = some t → ∀ r ∈ s.segmentsOf o.stream, r.createdAt.FiledBefore t := by
    rw [Bool.not_eq_true', Option.any_eq_false]
    simp only [isActiveSince_eq_false]
  rw [isAbandoned, ObjectRow.isZombieBefore, Bool.and_eq_true, Bool.and_eq_true, hdeadline,
    hinactive]
  constructor
  · rintro ⟨⟨hpending, hdeadline⟩, hinactive⟩
    exact ⟨hpending, hdeadline, hinactive⟩
  · rintro ⟨hpending, hdeadline, hinactive⟩
    exact ⟨⟨hpending, hdeadline⟩, hinactive⟩

end Store

/-! ## Activity -/

/-- **A deletion leaves the activity of the streams that stay.** -/
theorem DeletionStep.isActiveSince_eq {rows : List ObjectRow} {orphaned : List SegmentRow}
    (h : DeletionStep s rows orphaned s') (hs : s.Coherent) (hx : x ∉ goneStreams rows)
    (t : Instant) : s'.isActiveSince t x = s.isActiveSince t x := by
  have hcreated : ∀ p, Option.Rel (fun r k => r.createdAt = k.createdAt) (s'.row? x p)
      (s.row? x p) := fun p => (h.row?_rel hs hx p).imp fun r k _ _ hrk => by
    rcases hrk with rfl | ⟨heir, rfl⟩
    · rfl
    · rfl
  rw [Bool.eq_iff_iff, isActiveSince, isActiveSince, List.any_eq_true, List.any_eq_true]
  constructor
  · rintro ⟨r, hr, hactive⟩
    obtain ⟨k, hk, heq⟩ := (hcreated r.position).exists_right (mem_segmentsOf_iff_row?.1 hr)
    rw [heq] at hactive
    obtain ⟨hmem, hstream, -⟩ := row?_eq_some_iff.1 hk
    exact ⟨k, mem_segmentsOf.2 ⟨hmem, hstream⟩, hactive⟩
  · rintro ⟨k, hk, hactive⟩
    obtain ⟨r, hr, heq⟩ := (hcreated k.position).exists_left (mem_segmentsOf_iff_row?.1 hk)
    rw [← heq] at hactive
    obtain ⟨hmem, hstream, -⟩ := row?_eq_some_iff.1 hr
    exact ⟨r, mem_segmentsOf.2 ⟨hmem, hstream⟩, hactive⟩

/-- Tables whose streams are as active as they were at a moment. -/
def Store.ActiveAs (s₀ s : Store) : Prop :=
  ∀ o ∈ s.objects.rows, ∀ t, s.isActiveSince t o.stream = s₀.isActiveSince t o.stream

namespace Catalog

variable {c : Catalog} {statement : Statement} {due : Store → List ObjectRow}
  {p : ObjectRow → Bool} {kind : Store → Prop}

/-- The rows that the sweep of expired objects picks, in their order. -/
def expired (before : Instant) (s : Store) : List ObjectRow :=
  byTime (·.expiresAt) (s.objects.rows.filter (·.expiresBefore before))

/-- The rows that the sweep of uploads picks, in their order. -/
def abandoned (before : Instant) (inactiveSince : Option Instant) (s : Store) : List ObjectRow :=
  byTime (·.zombieDeadline) (s.objects.rows.filter (s.isAbandoned before inactiveSince))

theorem deleteExpired_eq (before : Instant) (size : Nat) :
    deleteExpired before size = sweep .deleteExpired (expired before) size := rfl

theorem deleteZombies_eq (before : Instant) (inactiveSince : Option Instant) (size : Nat) :
    deleteZombies before inactiveSince size =
      sweep .deleteZombies (abandoned before inactiveSince) size := rfl

theorem selects_expired (before : Instant) :
    Selects (expired before) (·.expiresBefore before) fun _ => True :=
  (selects_filter _).byTime _

/-- **The sweep of uploads picks those that were abandoned when it began.** -/
theorem selects_abandoned (s₀ : Store) (before : Instant) (inactiveSince : Option Instant) :
    Selects (abandoned before inactiveSince) (s₀.isAbandoned before inactiveSince)
      s₀.ActiveAs := by
  have hpicks : Selects (fun s => s.objects.rows.filter (s.isAbandoned before inactiveSince))
      (s₀.isAbandoned before inactiveSince) s₀.ActiveAs := by
    refine ⟨chooses_filter _, fun {s} hkind => ?_, fun {s s' rows orphaned} hs hkind hstep => ?_⟩
    · refine .of_eq (List.filter_congr fun o ho => ?_)
      unfold isAbandoned
      simp only [hkind o ho]
    · intro o ho t
      obtain ⟨ho, hstays⟩ := (hstep.mem_objects hs).1 ho
      rw [hstep.isActiveSince_eq hs hstays, hkind o ho]
  exact hpicks.byTime _

end Catalog

/-! ## Sweeps -/

/-- What a sweep does with the rows that are due, and what tables it leaves. It succeeds if all of them
can be read; then they are the rows that are gone, and the report has the object of each of them once.
Whether it succeeds or not, it adds no row and leaves the rows that are not due. -/
structure Store.Sweeps (s : Store) (due : ObjectRow → Prop) (outcome : Except Error Deletion)
    (left : Option Store) : Prop where
  ok_iff : (∃ d, outcome = .ok d) ↔ ∀ o ∈ s.objects.rows, due o → ∃ object, o.view? = some object
  spares : ∃ s', left = some s' ∧ (∀ o ∈ s'.objects.rows, o ∈ s.objects.rows) ∧
    ∀ o ∈ s.objects.rows, ¬ due o → o ∈ s'.objects.rows
  rows : ∀ d, outcome = .ok d → ∃ s', left = some s' ∧
    ∀ o, o ∈ s'.objects.rows ↔ o ∈ s.objects.rows ∧ ¬ due o
  report : ∀ d, outcome = .ok d → ∃ removed : List ObjectRow, removed.Nodup ∧
    (∀ o, o ∈ removed ↔ o ∈ s.objects.rows ∧ due o) ∧ removed.map (·.view?) = d.objects.map some

namespace Catalog

variable {c : Catalog} {statement : Statement} {due : Store → List ObjectRow}
  {p : ObjectRow → Bool} {Due : ObjectRow → Prop} {kind : Store → Prop}

/-- **A sweep removes and reports the rows that are due, each once.** -/
theorem sweeps_sweep (hdue : Selects due p kind) (hp : ∀ o, p o = true ↔ Due o) (hc : c.Open s)
    (hs : s.Coherent) (hkind : kind s) (size : Nat) :
    s.Sweeps Due (c.run (sweep statement due size)).1 (c.run (sweep statement due size)).2.store := by
  obtain ⟨s', hopen, hswept⟩ := swept_sweep statement hdue hc hs hkind size
  obtain ⟨s'', hopen', -, hdeletes⟩ := sheds_sweep statement hdue.chooses size c hc
  obtain rfl : s'' = s' := Option.some.inj (hopen'.store.symm.trans hopen.store)
  have hnot : ∀ o, p o = false ↔ ¬ Due o := fun o => by rw [← hp, Bool.not_eq_true]
  refine ⟨?_, ⟨s'', hopen.store, hswept.adds_none, fun o ho hno => ?_⟩, fun d hd => ?_, fun d hd => ?_⟩
  · simp only [hswept.ok_iff, hp]
  · exact hswept.spares o ho ((hnot o).2 hno)
  · refine ⟨s'', hopen.store, fun o => ?_⟩
    rw [hswept.mem_objects ⟨d, hd⟩, hnot]
  · obtain ⟨removed, hperm, hviews⟩ := ((hdeletes d hd).erased hs).objects
    have hnodup : (removed ++ s''.objects.rows).Nodup := hperm.nodup_iff.1 s.objects.nodup
    obtain ⟨hremoved, -, hapart⟩ := List.nodup_append'.1 hnodup
    refine ⟨removed, hremoved, fun o => ?_, hviews⟩
    -- a row is either reported or left
    have hleft := hswept.mem_objects ⟨d, hd⟩ o
    have hsplit : o ∈ s.objects.rows ↔ o ∈ removed ∨ o ∈ s''.objects.rows := by
      rw [hperm.mem_iff, List.mem_append]
    rw [← hp]
    constructor
    · intro ho
      have hmem := hsplit.2 (.inl ho)
      refine ⟨hmem, ?_⟩
      by_contra hno
      exact hapart ho (hleft.2 ⟨hmem, Bool.not_eq_true _ ▸ hno⟩)
    · rintro ⟨ho, hdueO⟩
      refine (hsplit.1 ho).resolve_right fun hstays => ?_
      rw [(hleft.1 hstays).2] at hdueO
      cases hdueO

/-- **A sweep has rounds enough.** With any number of rounds above that of the rows that are due it
runs in the same way. -/
theorem sweepRounds_enough (hdue : Selects due p kind) {size : Nat} {m n : Nat} (hc : c.Open s)
    (hs : s.Coherent) (hkind : kind s) (hsize : 0 < size) (hm : (due s).length < m)
    (hn : (due s).length < n) :
    c.run (sweepRounds statement due size m) = c.run (sweepRounds statement due size n) := by
  induction m generalizing n c s with
  | zero => omega
  | succ m ih =>
    obtain ⟨n, rfl⟩ : ∃ k, n = k + 1 := ⟨n - 1, by omega⟩
    obtain ⟨hstored, hnodup⟩ := hdue.chooses.batch (s := s) size
    obtain ⟨s₁, hopen, hends⟩ := run_deleteRows statement hc hstored hnodup
    unfold sweepRounds
    rw [run_tables_bind hc.store, run_tables_bind hc.store]
    dsimp only
    rcases hrun : c.run (deleteRows statement s ((due s).take size)) with ⟨e | d, c'⟩
    · rw [run_bind_error hrun, run_bind_error hrun]
    · rw [hrun] at hopen hends
      rw [run_bind_ok hrun, run_bind_ok hrun]
      obtain ⟨⟨orphaned, hstep⟩, -⟩ := hends.deleted_of_ok
      split
      · rfl
      · next hfull =>
        -- fewer rows are due after a full batch
        have hrest := hdue.length_rest hkind hs hstep
        have hnext := ih (n := n) hopen (hstep.coherent hs) (hdue.kept hs hkind hstep) (by omega)
          (by omega)
        rw [run_bind, run_bind, hnext]

theorem run_sweepRounds (hdue : Selects due p kind) (hc : c.Open s) (hs : s.Coherent)
    (hkind : kind s) (size : Nat) {rounds : Nat} (hrounds : s.objects.rows.length < rounds) :
    c.run (sweepRounds statement due (sweepBatch size) rounds) = c.run (sweep statement due size) := by
  have hfew := hdue.length_le hkind
  unfold sweep
  rw [run_tables_bind hc.store]
  exact sweepRounds_enough hdue hc hs hkind (sweepBatch_pos size) (by omega) (by omega)

end Catalog

/-! ## Reachable sites -/

namespace Site

variable {σ : Site} {h : Handle}

/-- **What the sweeps of a reachable site do.** That of expired objects removes and reports those
whose expiration is filed before the instant, and that of uploads those that are abandoned, which no
committed object is. Both come to an end within one round more than there are rows, and more rounds
would change nothing. To be filed before is to be before for instants of years up to 9999 that are not
both below 0. An instant of a year above 9999 is filed before all of those. -/
theorem Reachable.sweeps_exact (hσ : σ.Reachable Lacks) (hs : σ.store = some s)
    (hh : h ∈ σ.handles) (before : Instant) (size : Nat) :
    (s.Sweeps (·.Expired before) ((σ.catalog h).run (Catalog.deleteExpired before size)).1
      ((σ.catalog h).run (Catalog.deleteExpired before size)).2.store) ∧
    (∀ inactiveSince,
      s.Sweeps (s.Abandoned before inactiveSince)
        ((σ.catalog h).run (Catalog.deleteZombies before inactiveSince size)).1
        ((σ.catalog h).run (Catalog.deleteZombies before inactiveSince size)).2.store ∧
      ∀ o, o.hasStatus .committed = true → ¬ s.Abandoned before inactiveSince o) ∧
    (∀ rounds, s.objects.rows.length < rounds →
      (σ.catalog h).run (Catalog.sweepRounds .deleteExpired (Catalog.expired before)
          (sweepBatch size) rounds) =
        (σ.catalog h).run (Catalog.deleteExpired before size) ∧
      ∀ inactiveSince, (σ.catalog h).run (Catalog.sweepRounds .deleteZombies
          (Catalog.abandoned before inactiveSince) (sweepBatch size) rounds) =
        (σ.catalog h).run (Catalog.deleteZombies before inactiveSince size)) ∧
    ∀ t : Instant, before.date.year ≤ 9999 →
      (t.date.year ≤ 9999 → 0 ≤ t.date.year ∨ 0 ≤ before.date.year →
        (t.FiledBefore before ↔ t.order before = .lt)) ∧
      (9999 < t.date.year → t.FiledBefore before ∧ ¬ before.FiledBefore t) := by
  have hstands := hσ.stands_of_store hs
  have hopen := hstands.open hh
  have hcoherent := hσ.coherent hs
  -- nothing was deleted yet
  have hstart : s.ActiveAs s := fun _ _ _ => rfl
  refine ⟨?_, fun inactiveSince => ⟨?_, ?_⟩, fun rounds hrounds => ⟨?_, fun inactiveSince => ?_⟩,
    fun t hyear => ⟨fun ht hone => ?_, fun hfar => ?_⟩⟩
  · rw [Catalog.deleteExpired_eq]
    exact Catalog.sweeps_sweep (Catalog.selects_expired before) (fun _ => ObjectRow.expiresBefore_iff)
      hopen hcoherent trivial size
  · rw [Catalog.deleteZombies_eq]
    exact Catalog.sweeps_sweep (Catalog.selects_abandoned s before inactiveSince)
      (fun _ => isAbandoned_iff) hopen hcoherent hstart size
  · intro o hcommitted habandoned
    have hpending := habandoned.pending
    rw [ObjectRow.hasStatus, decide_eq_true_eq] at hcommitted hpending
    rw [hcommitted] at hpending
    cases hpending
  · rw [Catalog.deleteExpired_eq]
    exact Catalog.run_sweepRounds (Catalog.selects_expired before) hopen hcoherent trivial size hrounds
  · rw [Catalog.deleteZombies_eq]
    exact Catalog.run_sweepRounds (Catalog.selects_abandoned s before inactiveSince) hopen hcoherent
      hstart size hrounds
  · exact Instant.filedBefore_iff ht hyear hone
  · exact Instant.filedBefore_of_far hfar hyear

end Site

/-! ### Uploads that expire -/

namespace Sample

/-- The first moment of a year. -/
def newYear (year : Int) : Instant := { moment with date := { moment.date with year } }

/-- The start of an upload that expires with a year. -/
def expiring (key : UInt8) (year : Int) : Call :=
  .beginExactVersion {
    stream := identity key key.toNat, encryption := ⟨1, 256⟩, expiresAt := some (newYear year) }

/-- A site with two uploads that expire, the second of which has a segment. -/
def dated (year : Int) : Site :=
  Site.fresh.run (.opening {} :: [expiring 1 year, expiring 2 2002,
    segment (identity 2 2) { algorithm := 1 }].map (.call 0 moment))

end Sample

/-- The sweep of expired objects reports the first upload. So does the sweep of uploads, which leaves
the one that got its segment at the given instant. -/
theorem Sample.sweeps_exact_dated : ∃ s, (dated 1999).store = some s ∧ ∃ h ∈ (dated 1999).handles,
    (∃ d s', ((dated 1999).catalog h).run (Catalog.deleteExpired (newYear 2000) 0) = (.ok d, s') ∧
      d.objects.map (·.stream.stream) = [.ofNat 1] ∧ ∃ left, s'.store = some left ∧
        ∀ o, o ∈ left.objects.rows ↔ o ∈ s.objects.rows ∧ ¬ o.Expired (newYear 2000)) ∧
    ∃ d s', ((dated 1999).catalog h).run (Catalog.deleteZombies (newYear 2002) (some moment) 1) =
        (.ok d, s') ∧ d.objects.map (·.stream.stream) = [.ofNat 1] ∧ ∃ left, s'.store = some left ∧
        ∀ o, o ∈ left.objects.rows ↔
          o ∈ s.objects.rows ∧ ¬ s.Abandoned (newYear 2002) (some moment) o := by
  have hreachable : (dated 1999).Reachable Lacks := Site.Reachable.fresh.run (by decide +kernel)
  obtain ⟨s, hstands⟩ := hreachable.stands
  have hh := List.mem_of_getElem? (getElem?_handles (σ := dated 1999) (by decide +kernel))
  have hexpired : (((dated 1999).catalog (handleOf (dated 1999))).run
      (Catalog.deleteExpired (newYear 2000) 0)).1.toOption.map
        (·.objects.map (·.stream.stream)) = some [.ofNat 1] := by decide +kernel
  have hzombies : (((dated 1999).catalog (handleOf (dated 1999))).run
      (Catalog.deleteZombies (newYear 2002) (some moment) 1)).1.toOption.map
        (·.objects.map (·.stream.stream)) = some [.ofNat 1] := by decide +kernel
  obtain ⟨hsweep, -⟩ := Site.Reachable.sweeps_exact hreachable hstands.store hh (newYear 2000) 0
  obtain ⟨-, hsweeps, -⟩ := Site.Reachable.sweeps_exact hreachable hstands.store hh (newYear 2002) 1
  obtain ⟨d, hd, hobjects⟩ := Except.exists_of_map_toOption hexpired
  obtain ⟨d', hd', hobjects'⟩ := Except.exists_of_map_toOption hzombies
  exact ⟨s, hstands.store, _, hh, ⟨d, _, Prod.ext hd rfl, hobjects, hsweep.rows d hd⟩,
    d', _, Prod.ext hd' rfl, hobjects', (hsweeps (some moment)).1.rows d' hd'⟩

/-- An upload that expires in the year 10000 is removed by the sweep of those that expire before 2000. -/
theorem Sample.sweep_takes_live : (dated 10000).Reachable Lacks ∧
    (newYear 2000).order (newYear 10000) = .lt ∧ ∃ h ∈ (dated 10000).handles, ∃ d,
      (((dated 10000).catalog h).run (Catalog.deleteExpired (newYear 2000) 0)).1 = .ok d ∧
        d.objects.map (·.expiresAt) = [some (newYear 10000)] ∧
        (((dated 10000).catalog h).run (Catalog.deleteExpired (newYear 2000) 0)).2.store.map
          (·.objects.rows.map (·.stream)) = some [.ofNat 2] := by
  have hsweep : ∃ h ∈ (dated 10000).handles, (((dated 10000).catalog h).run
      (Catalog.deleteExpired (newYear 2000) 0)).1.toOption.map (·.objects.map (·.expiresAt)) =
        some [some (newYear 10000)] ∧
      (((dated 10000).catalog h).run (Catalog.deleteExpired (newYear 2000) 0)).2.store.map
        (·.objects.rows.map (·.stream)) = some [.ofNat 2] := by decide +kernel
  obtain ⟨h, hh, hsweep, hleft⟩ := hsweep
  obtain ⟨d, hd, hobjects⟩ := Except.exists_of_map_toOption hsweep
  exact ⟨Site.Reachable.fresh.run (by decide +kernel), by decide +kernel, h, hh, d, hd, hobjects, hleft⟩

end ObjectCatalog
