import ObjectCatalog.Proofs.DeleteCalls
import ObjectCatalog.Proofs.UploadCalls

/-!
# Runs

A site is the tables and the handles that are open on them, each with a cache and with scans of its
own. Handles call one after the other, in any order, and a call that fails is part of the run like
any other.

* `Call`, `Event`, `Site.step`: what can happen at a site. `Site.Steps` says what an event can do.
* `Site.Reachable`: the sites of runs that start with freshly created tables, in which the stream ids
  of new objects meet a condition when they are given. `Store.Lacks` says that they are fresh.
* `Call.does`: what any call does to the tables.
* `Site.Stands`, `Site.Reachable.stands`: **every handle of a reachable site holds rows of the alias
  table only.**
* `Site.Reachable.invariant`: what every change keeps holds at every reachable site.
-/

namespace ObjectCatalog

/-! ## Calls -/

/-- A call of a handle. -/
inductive Call : Type 1
  | createTables
  | beginNextVersion (r : BeginObject)
  | beginExactVersion (r : BeginObject)
  | beginSegment (r : BeginSegment)
  | commitSegment (r : CommitSegment)
  | commitInlineSegment (r : CommitInlineSegment)
  | commitObject (r : CommitObject)
  | commitObjectWithSegments (r : CommitObjectWithSegments)
  | updateMetadata (r : UpdateMetadata)
  | beginCopy (r : BeginCopy)
  | finishCopy (r : FinishCopy)
  | delete (call : DeleteCall)
  | getExactVersion (l : Location) (version : Int64)
  | getLatestVersion (l : Location)
  | getSegment (x : StreamId) (p : Position)
  | getLastSegment (l : Location)
  | listSegments (x : StreamId) (cursor : Option Position) (limit : Nat)
  | listObjects (r : ListObjects)
  | listPending (r : ListPending)
  | scanObjects (batchSize : Nat) (asOf : Option Instant)
  | scanSegments (batchSize : Nat) (asOf : Option Instant)
  | runLoop {σ : Type} (batchSize : Nat) (asOf : Option Instant)
      (observers : List (Observer σ × σ)) (registry : Registry)
  | ensureNodes (nodes : List NodeId)
  | aliasesOf (pieces : List Piece)
  | piecesOf (aliases : List AliasPiece)

namespace Call

/-- The catalogue that a call leaves, whether it succeeds or fails. -/
def leave (now : Instant) (c : Catalog) : Call → Catalog
  | createTables => (c.run Catalog.createTables).2
  | beginNextVersion r => (c.run (Catalog.beginNextVersion now r)).2
  | beginExactVersion r => (c.run (Catalog.beginExactVersion now r)).2
  | beginSegment r => (c.run (Catalog.beginSegment r)).2
  | commitSegment r => (c.run (Catalog.commitSegment now r)).2
  | commitInlineSegment r => (c.run (Catalog.commitInlineSegment now r)).2
  | commitObject r => (c.run (Catalog.commitObject r)).2
  | commitObjectWithSegments r => (c.run (Catalog.commitObjectWithSegments r)).2
  | updateMetadata r => (c.run (Catalog.updateMetadata r)).2
  | beginCopy r => (c.run (Catalog.beginCopy r)).2
  | finishCopy r => (c.run (Catalog.finishCopy now r)).2
  | delete call => (c.run call.action).2
  | getExactVersion l version => (c.run (Catalog.getExactVersion l version)).2
  | getLatestVersion l => (c.run (Catalog.getLatestVersion l)).2
  | getSegment x p => (c.run (Catalog.getSegment x p)).2
  | getLastSegment l => (c.run (Catalog.getLastSegment l)).2
  | listSegments x cursor limit => (c.run (Catalog.listSegments x cursor limit)).2
  | listObjects r => (c.run (Catalog.listObjects r)).2
  | listPending r => (c.run (Catalog.listPending r)).2
  | scanObjects batchSize asOf => (c.run (Catalog.scanObjects now batchSize asOf)).2
  | scanSegments batchSize asOf => (c.run (Catalog.scanSegments now batchSize asOf)).2
  | runLoop batchSize asOf observers registry =>
    (c.run (Catalog.runLoop now batchSize asOf observers registry)).2
  | ensureNodes nodes => (c.run (Catalog.ensureNodes nodes)).2
  | aliasesOf pieces => (c.run (Catalog.aliasesOf pieces)).2
  | piecesOf aliases => (c.run (Catalog.piecesOf aliases)).2

/-- The segment rows that a call may store for an upload. -/
def MayStore (now : Instant) : Call → SegmentRow → Prop
  | commitSegment r => fun row =>
    r.redundancy.isZero = false ∧ ∃ o aliases, row = r.row now o aliases
  | commitInlineSegment r => fun row => ∃ o, row = r.row now o
  | _ => fun _ => False

/-- The stream id that a call gives to a new object. -/
def newStream? : Call → Option StreamId
  | beginNextVersion r | beginExactVersion r => some r.stream.stream
  | finishCopy r => some r.newStream
  | _ => none

end Call

/-! ## Sites -/

/-- A handle that is open on the tables, with its scans of segments under way. -/
structure Handle where
  settings : Settings
  cache : AliasCache := .empty
  scans : List SegmentScan := []

/-- The tables and the handles that are open on them. -/
structure Site where
  store : Option Store
  handles : List Handle := []

/-- What can happen at a site. -/
inductive Event : Type 1
  | opening (settings : Settings)
  | call (handle : Nat) (now : Instant) (call : Call)
  | startScan (handle : Nat) (now : Instant) (batchSize : Nat) (asOf : Option Instant)
  | nextBatch (handle scan : Nat)

/-- The stream id that an event gives to a new object. -/
def Event.newStream? : Event → Option StreamId
  | call _ _ c => c.newStream?
  | _ => none

/-- The segment rows that an event may store for an upload. -/
def Event.MayStore : Event → SegmentRow → Prop
  | call _ now c => c.MayStore now
  | _ => fun _ => False

namespace Site

/-- Freshly created tables on which no handle is open. -/
def fresh : Site := { store := some .empty }

/-- The object rows of a site. -/
def objects (σ : Site) : List ObjectRow := σ.store.elim [] (·.objects.rows)

/-- The catalogue that a handle works on. -/
def catalog (σ : Site) (h : Handle) : Catalog := ⟨h.settings, σ.store, h.cache⟩

/-- The site after a handle has done its work on a catalogue. -/
def put (σ : Site) (i : Nat) (h : Handle) (c : Catalog) (scans : List SegmentScan) : Site where
  store := c.store
  handles := σ.handles.set i { h with cache := c.cache, scans }

/-- The site after an event. A handle or a scan that does not exist does nothing. -/
def step (σ : Site) : Event → Site
  | .opening settings => { σ with handles := σ.handles ++ [{ settings }] }
  | .call i now call =>
    match σ.handles[i]? with
    | none => σ
    | some h => σ.put i h (call.leave now (σ.catalog h)) h.scans
  | .startScan i now batchSize asOf =>
    match σ.handles[i]? with
    | none => σ
    | some h => σ.put i h (σ.catalog h) (h.scans ++ [.start now batchSize asOf])
  | .nextBatch i j =>
    match σ.handles[i]? with
    | none => σ
    | some h =>
      match h.scans[j]? with
      | none => σ
      | some scan =>
        let ((_, scan), c) := StateT.run (Catalog.nextSegments scan) (σ.catalog h)
        σ.put i h c (h.scans.set j scan)

theorem step_call {σ : Site} {i : Nat} {h : Handle} (hget : σ.handles[i]? = some h) (now : Instant)
    (call : Call) :
    σ.step (.call i now call) = σ.put i h (call.leave now (σ.catalog h)) h.scans := by
  unfold step
  dsimp only
  rw [hget]

/-- What an event can do to a site. -/
inductive Steps (σ : Site) : Event → Site → Prop
  | idle {e : Event} : σ.Steps e σ
  | opening {settings : Settings} :
      σ.Steps (.opening settings) { σ with handles := σ.handles ++ [{ settings }] }
  | call {i : Nat} {h : Handle} {now : Instant} {call : Call} (hget : σ.handles[i]? = some h) :
      σ.Steps (.call i now call) (σ.put i h (call.leave now (σ.catalog h)) h.scans)
  | startScan {i : Nat} {h : Handle} {now : Instant} {batchSize : Nat} {asOf : Option Instant}
      (hget : σ.handles[i]? = some h) :
      σ.Steps (.startScan i now batchSize asOf)
        (σ.put i h (σ.catalog h) (h.scans ++ [.start now batchSize asOf]))
  | nextBatch {i j : Nat} {h : Handle} {scan : SegmentScan} (hget : σ.handles[i]? = some h)
      (hscan : h.scans[j]? = some scan) :
      σ.Steps (.nextBatch i j)
        (σ.put i h (StateT.run (Catalog.nextSegments scan) (σ.catalog h)).2
          (h.scans.set j (StateT.run (Catalog.nextSegments scan) (σ.catalog h)).1.2))

theorem steps_step (σ : Site) (e : Event) : σ.Steps e (σ.step e) := by
  cases e with
  | opening settings => exact .opening
  | call i now call =>
    cases hget : σ.handles[i]? with
    | none =>
      unfold step
      dsimp only
      rw [hget]
      exact .idle
    | some h =>
      rw [step_call hget]
      exact .call hget
  | startScan i now batchSize asOf =>
    unfold step
    dsimp only
    cases hget : σ.handles[i]? with
    | none => exact .idle
    | some h => exact .startScan hget
  | nextBatch i j =>
    unfold step
    dsimp only
    cases hget : σ.handles[i]? with
    | none => exact .idle
    | some h =>
      dsimp only
      cases hscan : h.scans[j]? with
      | none => exact .idle
      | some scan => exact .nextBatch hget hscan

/-- An event whose new stream id, if it gives one, meets a condition on the tables at that moment. -/
def Admits (allow : Store → StreamId → Prop) (σ : Site) (e : Event) : Prop :=
  ∀ x, e.newStream? = some x → ∀ s, σ.store = some s → allow s x

/-- The sites of runs from freshly created tables. -/
inductive Reachable (allow : Store → StreamId → Prop) : Site → Prop
  | fresh : Reachable allow fresh
  | step {σ : Site} {e : Event} (hσ : Reachable allow σ) (he : σ.Admits allow e) :
      Reachable allow (σ.step e)

/-- The site after events. -/
def run (σ : Site) (events : List Event) : Site := events.foldl step σ

/-- Events each of which is admitted when it happens. -/
def AdmitsAll (allow : Store → StreamId → Prop) : Site → List Event → Prop
  | _, [] => True
  | σ, e :: events => σ.Admits allow e ∧ AdmitsAll allow (σ.step e) events

/-- Admitted events lead from a reachable site to a reachable one. -/
theorem Reachable.run {allow : Store → StreamId → Prop} {σ : Site} (hσ : σ.Reachable allow)
    {events : List Event} (h : AdmitsAll allow σ events) : (σ.run events).Reachable allow := by
  induction events generalizing σ with
  | nil => exact hσ
  | cons e events ih => exact ih (hσ.step h.1) h.2

instance decidableAdmits {allow : Store → StreamId → Prop} [∀ s x, Decidable (allow s x)] (σ : Site)
    (e : Event) : Decidable (σ.Admits allow e) :=
  decidable_of_iff ((e.newStream?.all fun x => σ.store.all fun s => decide (allow s x)) = true) <| by
    simp only [Option.all_eq_true, decide_eq_true_eq]
    rfl

instance decidableAdmitsAll {allow : Store → StreamId → Prop} [∀ s x, Decidable (allow s x)] :
    (σ : Site) → (events : List Event) → Decidable (AdmitsAll allow σ events)
  | _, [] => isTrue trivial
  | σ, e :: events =>
    have : Decidable (AdmitsAll allow (σ.step e) events) := decidableAdmitsAll (σ.step e) events
    inferInstanceAs (Decidable (_ ∧ _))

end Site

/-! ## What calls do -/

variable {allow : Store → StreamId → Prop} {t : Terms} {s s' : Store}

/-- **What any call does to the tables.** -/
theorem Call.does {c : Catalog} (hc : c.Open s) (now : Instant) (call : Call)
    (hallow : ∀ x, call.newStream? = some x → t.stream s x)
    (hrow : ∀ r, call.MayStore now r → t.row r) :
    ∃ s', (call.leave now c).Open s' ∧ Move t s s' := by
  have hquiet : ∀ {α : Type} {a : Catalog.Action α}, Catalog.Quiet s a →
      ∃ s', (c.run a).2.Open s' ∧ Move t s s' := fun ha => ⟨s, ha c hc, .refl _ _⟩
  cases call with
  | createTables => exact hquiet Catalog.quiet_createTables
  | beginNextVersion r => exact Catalog.does_beginNextVersion now (hallow _ rfl) c hc
  | beginExactVersion r => exact Catalog.does_beginExactVersion now (hallow _ rfl) c hc
  | beginSegment r => exact hquiet (Catalog.quiet_beginSegment r)
  | commitSegment r =>
    exact Catalog.does_commitSegment now r
      (fun hscheme o aliases => hrow _ ⟨hscheme, o, aliases, rfl⟩) c hc
  | commitInlineSegment r =>
    exact Catalog.does_commitInlineSegment now r (fun o => hrow _ ⟨o, rfl⟩) c hc
  | commitObject r => exact Catalog.does_commitObject r c hc
  | commitObjectWithSegments r => exact Catalog.does_commitObjectWithSegments r c hc
  | updateMetadata r => exact Catalog.does_updateMetadata r c hc
  | beginCopy r => exact hquiet (Catalog.quiet_beginCopy r)
  | finishCopy r => exact Catalog.does_finishCopy now (hallow _ rfl) c hc
  | delete call =>
    obtain ⟨s', hopen, hchanges, -⟩ := Catalog.sheds_delete call c hc
    exact ⟨s', hopen, .ofNone hchanges⟩
  | getExactVersion l version => exact hquiet (Catalog.quiet_getExactVersion l version)
  | getLatestVersion l => exact hquiet (Catalog.quiet_getLatestVersion l)
  | getSegment x p => exact hquiet (Catalog.quiet_getSegment x p)
  | getLastSegment l => exact hquiet (Catalog.quiet_getLastSegment l)
  | listSegments x cursor limit => exact hquiet (Catalog.quiet_listSegments x cursor limit)
  | listObjects r => exact hquiet (Catalog.quiet_listObjects r)
  | listPending r => exact hquiet (Catalog.quiet_listPending r)
  | scanObjects batchSize asOf => exact hquiet (Catalog.quiet_scanObjects now batchSize asOf)
  | scanSegments batchSize asOf => exact hquiet (Catalog.quiet_scanSegments now batchSize asOf)
  | runLoop batchSize asOf observers registry =>
    exact hquiet (Catalog.quiet_runLoop now batchSize asOf observers registry)
  | ensureNodes nodes =>
    obtain ⟨s', hopen, hchanges⟩ := Catalog.changes_ensureNodes nodes c hc
    exact ⟨s', hopen, .ofNone hchanges⟩
  | aliasesOf pieces =>
    obtain ⟨s', hopen, hchanges, -⟩ := Catalog.run_aliasesOf hc pieces
    exact ⟨s', hopen, .ofNone hchanges⟩
  | piecesOf aliases => exact hquiet (Catalog.quiet_piecesOf aliases)

/-! ## What holds at every reachable site -/

/-- The alias table only grows. -/
theorem Change.nodes_extends (h : Change t s s') (hsound : s.nodes.Sound) :
    s.nodes.Extends s'.nodes ∧ s'.nodes.Sound := by
  have hsame : ∀ {t : NodeTable}, t = s.nodes → s.nodes.Extends t ∧ t.Sound := by
    intro t ht
    rw [ht]
    exact ⟨.refl _, hsound⟩
  cases h with
  | upload h =>
    cases h with
    | nodes hknown hadd =>
      obtain ⟨hsound', hext, -⟩ := hsound.addAll hknown hadd
      exact ⟨hext, hsound'⟩
    | start => exact hsame rfl
    | segment => exact hsame rfl
    | drop => exact hsame rfl
    | complete => exact hsame rfl
    | metadata => exact hsame rfl
  | copy _ hcopy =>
    obtain ⟨_, _, _, _, hcopied⟩ := Store.copied_of_ok hcopy
    exact hsame hcopied.nodes
  | delete hdelete => exact hsame (Store.keeps_of_removeStreams hdelete.removed).2

theorem Move.nodes_extends (h : Move t s s') (hsound : s.nodes.Sound) :
    s.nodes.Extends s'.nodes := by
  have hchanges := h.toChanges
  clear h
  have hboth : s.nodes.Extends s'.nodes ∧ s'.nodes.Sound := by
    induction hchanges with
    | refl => exact ⟨.refl _, hsound⟩
    | tail _ hc ih =>
      obtain ⟨hext, hsound'⟩ := hc.nodes_extends ih.2
      exact ⟨ih.1.trans hext, hsound'⟩
  exact hboth.1

/-- A handle whose cache and whose scans know rows of an alias table only. -/
structure Handle.Fits (h : Handle) (t : NodeTable) : Prop where
  cache : h.cache.Within t
  scans : ∀ scan ∈ h.scans, scan.Of t

theorem Handle.Fits.mono {h : Handle} {t t' : NodeTable} (hh : h.Fits t) (hext : t.Extends t') :
    h.Fits t' :=
  ⟨hh.cache.mono hext, fun scan hscan => (hh.scans scan hscan).mono hext⟩

namespace Site

/-- A site with tables and handles that fit them. -/
structure Stands (σ : Site) (s : Store) : Prop where
  store : σ.store = some s
  aliases : s.nodes.Sound
  handles : ∀ h ∈ σ.handles, h.Fits s.nodes

variable {σ : Site} {h : Handle}

theorem Stands.open (hσ : σ.Stands s) (hh : h ∈ σ.handles) : (σ.catalog h).Open s :=
  ⟨hσ.store, (hσ.handles h hh).cache, hσ.aliases⟩

/-- The handles fit the tables that one of them leaves. -/
theorem Stands.put (hσ : σ.Stands s) {i : Nat} {c : Catalog} (hc : c.Open s')
    (hext : s.nodes.Extends s'.nodes) {scans : List SegmentScan}
    (hscans : ∀ scan ∈ scans, scan.Of s'.nodes) : (σ.put i h c scans).Stands s' where
  store := hc.store
  aliases := hc.aliases
  handles h' hh' := by
    rcases List.mem_or_eq_of_mem_set hh' with hh' | rfl
    · exact (hσ.handles h' hh').mono hext
    · exact ⟨hc.cache, hscans⟩

/-- **One event,** under the terms that it meets. -/
theorem Stands.step_under (hσ : σ.Stands s) {e : Event} (he : σ.Admits t.stream e)
    (hrow : ∀ r, e.MayStore r → t.row r) : ∃ s', (σ.step e).Stands s' ∧ Move t s s' := by
  have hsteps := steps_step σ e
  generalize σ.step e = σ' at hsteps ⊢
  cases hsteps with
  | idle => exact ⟨s, hσ, .refl _ _⟩
  | opening =>
    refine ⟨s, ⟨hσ.store, hσ.aliases, fun h hh => ?_⟩, .refl _ _⟩
    rcases List.mem_append.1 hh with hh | hh
    · exact hσ.handles h hh
    · rw [List.mem_singleton.1 hh]
      exact ⟨AliasCache.within_empty _, fun _ hscan => absurd hscan List.not_mem_nil⟩
  | @call i h now call hget =>
    -- the alias table only grows, so what the other handles know stays true
    have hh := List.mem_of_getElem? hget
    obtain ⟨s', hopen, hmove⟩ := Call.does (hσ.open hh) now call
      (fun x hx => he x hx s hσ.store) hrow
    have hext := hmove.nodes_extends hσ.aliases
    exact ⟨s', hσ.put hopen hext fun scan hscan => ((hσ.handles h hh).scans scan hscan).mono hext,
      hmove⟩
  | @startScan i h now batchSize asOf hget =>
    have hh := List.mem_of_getElem? hget
    refine ⟨s, hσ.put (hσ.open hh) (.refl _) fun scan hscan => ?_, .refl _ _⟩
    rcases List.mem_append.1 hscan with hscan | hscan
    · exact (hσ.handles h hh).scans scan hscan
    · rw [List.mem_singleton.1 hscan]
      exact .start _ now batchSize asOf
  | @nextBatch i j h scan hget hscan =>
    have hh := List.mem_of_getElem? hget
    have hof := (hσ.handles h hh).scans scan (List.mem_of_getElem? hscan)
    obtain ⟨hopen, hof'⟩ := Catalog.open_nextSegments (hσ.open hh) hof
    refine ⟨s, hσ.put hopen (.refl _) fun scan' hscan' => ?_, .refl _ _⟩
    rcases List.mem_or_eq_of_mem_set hscan' with hscan' | rfl
    · exact (hσ.handles h hh).scans scan' hscan'
    · exact hof'

/-- One event, in which any rows may be stored. -/
theorem Stands.step (hσ : σ.Stands s) {e : Event} (he : σ.Admits allow e) :
    ∃ s', (σ.step e).Stands s' ∧ Move allow s s' :=
  hσ.step_under he fun _ _ => trivial

/-- **Every handle of a reachable site holds rows of the alias table only.** -/
theorem Reachable.stands (hσ : σ.Reachable allow) : ∃ s, σ.Stands s := by
  induction hσ with
  | fresh =>
    exact ⟨.empty, rfl, NodeTable.sound_empty, fun h hh => absurd hh List.not_mem_nil⟩
  | step _ he ih =>
    obtain ⟨s, hs⟩ := ih
    obtain ⟨s', hs', -⟩ := hs.step he
    exact ⟨s', hs'⟩

theorem Reachable.stands_of_store (hσ : σ.Reachable allow) (hs : σ.store = some s) : σ.Stands s := by
  obtain ⟨s', hstands⟩ := hσ.stands
  rw [hstands.store, Option.some.injEq] at hs
  rwa [← hs]

/-- The alias table only grows, whatever happens. -/
theorem Stands.extends_run (hσ : σ.Stands s) (events : List Event) :
    ∃ s', (σ.run events).Stands s' ∧ s.nodes.Extends s'.nodes := by
  induction events generalizing σ s with
  | nil => exact ⟨s, hσ, .refl _⟩
  | cons e rest ih =>
    have hany : σ.Admits (fun _ _ => True) e := fun _ _ _ _ => trivial
    obtain ⟨s₁, hσ₁, hmove⟩ := hσ.step hany
    obtain ⟨s', hσ', hext⟩ := ih hσ₁
    exact ⟨s', hσ', (hmove.nodes_extends hσ.aliases).trans hext⟩

/-- **What holds of empty tables and is kept by every change holds at every reachable site.** -/
theorem Reachable.invariant {P : Store → Prop} (hempty : P .empty)
    (hchange : ∀ s s', Change allow s s' → P s → P s') (hσ : σ.Reachable allow)
    (hs : σ.store = some s) : P s := by
  induction hσ generalizing s with
  | fresh =>
    cases hs
    exact hempty
  | step hσ he ih =>
    obtain ⟨s₀, hstands⟩ := hσ.stands
    obtain ⟨s₁, hstands₁, hmove⟩ := hstands.step he
    rw [hstands₁.store, Option.some.injEq] at hs
    subst hs
    have hbefore : P s₀ := ih hstands.store
    -- a call may make several changes
    have hchanges := hmove.toChanges
    clear hmove hstands₁
    induction hchanges with
    | refl => exact hbefore
    | tail _ hc hmiddle => exact hchange _ _ hc hmiddle

end Site

end ObjectCatalog
