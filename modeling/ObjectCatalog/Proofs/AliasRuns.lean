import ObjectCatalog.Proofs.Caches
import ObjectCatalog.Proofs.Soundness

/-!
# Aliases in runs

A node gets its alias in one call, and handles that were open before or are opened later learn of it
one by one. Whatever they have learned by then, pieces come back as they were stored.

* `NodeTable.full_of_addAll`: nodes are turned away only when there are too many of them, or when the
  numbers for aliases have run out.
* `Catalog.run_ensureNodes_zero`: the zero node gets no alias, and nothing happens.
* `Catalog.ends_aliasesOf`: pieces are put into stored form unless the numbers have run out.
* `Catalog.run_piecesOf`: what a handle makes of stored pieces is what the alias table says.
* `Site.Reachable.aliases_bijective`: **at every reachable site aliases are a bijection that every
  cache agrees with, and pieces survive the way to stored form and back.**
-/

namespace ObjectCatalog

/-! ## Rows of the table -/

namespace NodeTable

variable {t t' : NodeTable} {node : NodeId} {short : NodeAlias}

/-- Rows of a sound table agree in both halves or in none. -/
theorem Sound.short_eq_iff (h : t.Sound) {r r' : NodeRow} (hr : r ∈ t.rows.rows)
    (hr' : r' ∈ t.rows.rows) : r'.short = r.short ↔ r'.node = r.node := by
  constructor
  · exact fun hshort => congrArg NodeRow.node (t.rows.eq_of_key_eq hr' hr hshort)
  · exact fun hnode => congrArg NodeRow.short (h.distinct r' hr' r hr hnode)

/-- An attempt to add a node uses up one number. -/
theorem highest_of_add (hadd : t.add node = some t') : t'.highest = t.highest + 1 := by
  unfold add at hadd
  dsimp only at hadd
  split at hadd
  · cases hadd
  · split at hadd <;> cases hadd <;> rfl

/-- **Nodes that are few enough are added while there are numbers for them.** -/
theorem full_of_addAll {nodes : List NodeId} (hfew : nodes.length ≤ addLimit)
    (hadd : t.addAll nodes = none) : maxAlias < t.highest + nodes.length := by
  -- the numbers that were tried are those above the highest one, one for each node
  have hfold : nodes.foldlM add t = none := by
    rwa [addAll, if_neg (by omega)] at hadd
  clear hadd hfew
  induction nodes generalizing t with
  | nil => cases hfold
  | cons n rest ih =>
    rw [List.foldlM_cons] at hfold
    rw [List.length_cons]
    cases hn : t.add n with
    | none =>
      have hmax : maxAlias < t.highest + 1 := by
        unfold add at hn
        dsimp only at hn
        split at hn
        · assumption
        · split at hn <;> cases hn
      omega
    | some t₁ =>
      rw [hn] at hfold
      have hrest : maxAlias < t₁.highest + rest.length := ih hfold
      rw [highest_of_add hn] at hrest
      omega

/-- Aliases that name the nodes of pieces are read back as the pieces. -/
theorem piecesOf_of_forall₂ {pieces : List Piece} {aliases : List AliasPiece}
    (h : List.Forall₂ (fun p a => a.number = p.number ∧ t.node? a.short = some p.node)
      pieces aliases) : t.piecesOf aliases = .ok pieces := by
  refine Except.mapM_eq_ok_iff.2 (h.flip.imp fun a p hpa => ?_)
  obtain ⟨hnumber, hnode⟩ := hpa
  rw [hnode, hnumber]
  rfl

end NodeTable

namespace AliasCache

variable {c : AliasCache} {t : NodeTable}

/-- The nodes of a list that a cache does not know. -/
def unknown (c : AliasCache) (nodes : List NodeId) : List NodeId :=
  nodes.filter fun n => (c.aliasOf? n).isNone

/-- No cache of a sound table knows the zero node. -/
theorem Within.aliasOf?_zero (h : c.Within t) (ht : t.Sound) : c.aliasOf? .zero = none := by
  cases hzero : c.aliasOf? .zero with
  | none => rfl
  | some short =>
    have hknown : Id.isZero (Id.zero : NodeId) = false := ht.known _ (h.aliasOf?_eq hzero)
    exact absurd hknown (by decide)

theorem missing_zero (hunknown : c.aliasOf? .zero = none) {nodes : List NodeId}
    (hzero : Id.zero ∈ nodes) : c.missing nodes = .error (.rejected (.zeroNode .zero)) := by
  have hmem : Id.zero ∈ c.unknown nodes := List.mem_filter.2 ⟨hzero, by rw [hunknown]; rfl⟩
  have hfound : (c.unknown nodes).find? (·.isZero) = some .zero := by
    cases hfind : (c.unknown nodes).find? (·.isZero) with
    | none => exact absurd (List.find?_eq_none.1 hfind _ hmem) (by decide)
    | some found =>
      have hzero' : found = .zero := by simpa [Id.isZero] using List.find?_some hfind
      rw [hzero']
  unfold unknown at hfound
  unfold missing
  dsimp only
  rw [hfound]
  rfl

theorem missing_eq {nodes : List NodeId} (hnodes : ∀ n ∈ nodes, n ≠ .zero) :
    c.missing nodes = .ok (c.unknown nodes) := by
  have hnone : (c.unknown nodes).find? (·.isZero) = none := by
    refine List.find?_eq_none.2 fun n hn hzero => ?_
    exact hnodes n (List.mem_filter.1 hn).1 (of_decide_eq_true hzero)
  unfold unknown at hnone ⊢
  unfold missing
  dsimp only
  rw [hnone]
  rfl

end AliasCache

/-! ## Calls -/

namespace Catalog

variable {c : Catalog} {s : Store}

/-- A list with the zero node is refused, and nothing happens. -/
theorem run_ensureNodes_zero (hc : c.Open s) {nodes : List NodeId} (hzero : Id.zero ∈ nodes) :
    c.run (ensureNodes nodes) = (.error (.rejected (.zeroNode .zero)), c) := by
  have hunknown := hc.cache.aliasOf?_zero hc.aliases
  unfold ensureNodes
  rw [run_get_bind, run_lift_bind, AliasCache.missing_zero hunknown hzero]

theorem run_aliasesOf_zero (hc : c.Open s) {pieces : List Piece}
    (hzero : Id.zero ∈ pieces.map (·.node)) :
    c.run (aliasesOf pieces) = (.error (.rejected (.zeroNode .zero)), c) := by
  unfold aliasesOf
  rw [run_bind_error (run_ensureNodes_zero hc hzero)]

/-- Nodes have aliases afterwards, unless the numbers have run out and nothing happens. -/
theorem ends_ensureNodes (hc : c.Open s) {nodes : List NodeId} (hnodes : ∀ n ∈ nodes, n ≠ .zero)
    (hfew : (c.cache.unknown nodes).length ≤ NodeTable.addLimit) :
    (∃ c', c.run (ensureNodes nodes) = (.ok (), c')) ∨
      c.run (ensureNodes nodes) = (.error (.storage .ensureNodes), c) ∧
        NodeTable.maxAlias < s.nodes.highest + (c.cache.unknown nodes).length := by
  unfold ensureNodes
  rw [run_get_bind, run_lift_bind, AliasCache.missing_eq hnodes]
  dsimp only
  split
  · exact .inl ⟨c, rfl⟩
  · rw [run_tables_bind hc.store]
    cases hadd : s.nodes.addAll (c.cache.unknown nodes) with
    | none => exact .inr ⟨rfl, NodeTable.full_of_addAll hfew hadd⟩
    | some table => exact .inl ⟨_, rfl⟩

/-- **Pieces are put into stored form,** unless the numbers have run out and nothing happens. -/
theorem ends_aliasesOf (hc : c.Open s) {pieces : List Piece}
    (hnodes : ∀ n ∈ pieces.map (·.node), n ≠ .zero)
    (hfew : (c.cache.unknown (pieces.map (·.node))).length ≤ NodeTable.addLimit) :
    (∃ aliases, (c.run (aliasesOf pieces)).1 = .ok aliases) ∨
      c.run (aliasesOf pieces) = (.error (.storage .ensureNodes), c) ∧
        NodeTable.maxAlias <
          s.nodes.highest + (c.cache.unknown (pieces.map (·.node))).length := by
  unfold aliasesOf
  rcases ends_ensureNodes hc hnodes hfew with ⟨c', hrun⟩ | ⟨hrun, hfull⟩
  · rw [run_bind_ok hrun, run_get_bind]
    -- every node is known by now
    have hknown := known_of_ensureNodes hc hrun
    obtain ⟨aliases, haliases⟩ : ∃ aliases, c'.cache.aliasesOf pieces = .ok aliases := by
      refine Except.exists_mapM_eq_ok fun p hp => ?_
      obtain ⟨short, hshort⟩ :=
        Option.isSome_iff_exists.1 (hknown p.node (List.mem_map_of_mem hp))
      rw [hshort]
      exact ⟨_, rfl⟩
    exact .inl ⟨aliases, haliases⟩
  · rw [run_bind_error hrun]
    exact .inr ⟨rfl, hfull⟩

/-- **What a handle makes of stored pieces is what the alias table says,** whatever its cache has
learned. -/
theorem run_piecesOf (hc : c.Open s) (aliases : List AliasPiece) :
    (c.run (piecesOf aliases)).1 = s.nodes.piecesOf aliases := by
  unfold piecesOf
  rw [run_get_bind]
  cases hknows : c.cache.knows aliases with
  | true => exact hc.cache.piecesOf_eq hknows
  | false =>
    simp only [Bool.false_eq_true, if_false]
    rw [run_tables_bind hc.store, run_reading]
    exact (Lookup.run_pieces hc.cache aliases).1

end Catalog

/-! ## Runs -/

namespace Site

variable {σ : Site} {s : Store} {h : Handle} {allow : Store → StreamId → Prop}

/-- Pieces that a handle put into stored form are what any handle reads back, whatever happened
since. -/
theorem Stands.piecesOf_run (hσ : σ.Stands s) {i : Nat} (hget : σ.handles[i]? = some h)
    {now : Instant} {pieces : List Piece} {aliases : List AliasPiece}
    (hok : ((σ.catalog h).run (Catalog.aliasesOf pieces)).1 = .ok aliases) (events : List Event)
    {h' : Handle}
    (hh' : h' ∈ ((σ.step (.call i now (.aliasesOf pieces))).run events).handles) :
    ((((σ.step (.call i now (.aliasesOf pieces))).run events).catalog h').run
      (Catalog.piecesOf aliases)).1 = .ok pieces := by
  have hopen := hσ.open (List.mem_of_getElem? hget)
  obtain ⟨s₁, hopen₁, -, hstored⟩ := Catalog.run_aliasesOf hopen pieces
  have hany : σ.Admits (fun _ _ => True) (.call i now (.aliasesOf pieces)) := fun _ _ _ _ => trivial
  obtain ⟨s₁', hσ₁, -⟩ := hσ.step hany
  have hsame : s₁' = s₁ := by
    have hstore := hσ₁.store
    rw [step_call hget] at hstore
    exact Option.some.inj (hstore.symm.trans hopen₁.store)
  subst hsame
  -- the rows of the aliases stay in the table
  obtain ⟨s', hσ', hext⟩ := hσ₁.extends_run events
  rw [Catalog.run_piecesOf (hσ'.open hh')]
  exact NodeTable.piecesOf_of_forall₂ <|
    (hstored aliases hok).imp fun _ _ hpa => ⟨hpa.1, hext.node?_eq hpa.2⟩

/-- **Aliases at a reachable site.** A row of the alias table stays, and at no later time does another
node have its alias, or its node another alias. What a cache knows is of the table, and its two maps
are inverse to each other. A list with the zero node is refused, and nothing happens. Pieces on other
nodes are put into stored form, by whichever handle, and whichever handle reads the stored form at
whatever later time gets the pieces; they are turned away only when the cache does not know more nodes
than there are numbers left, and then nothing happens. -/
theorem Reachable.aliases_bijective (hσ : σ.Reachable allow) (hs : σ.store = some s) :
    (∀ events, ∃ s', (σ.run events).store = some s' ∧ ∀ r ∈ s.nodes.rows.rows,
      r ∈ s'.nodes.rows.rows ∧
        ∀ r' ∈ s'.nodes.rows.rows, r'.short = r.short ↔ r'.node = r.node) ∧
    (∀ h ∈ σ.handles, ∀ node short,
      (h.cache.aliasOf? node = some short ↔ h.cache.node? short = some node) ∧
        (h.cache.aliasOf? node = some short → ⟨short, node⟩ ∈ s.nodes.rows.rows)) ∧
    (∀ h ∈ σ.handles,
      (∀ nodes, Id.zero ∈ nodes → (σ.catalog h).run (Catalog.ensureNodes nodes) =
        (.error (.rejected (.zeroNode .zero)), σ.catalog h)) ∧
      ∀ pieces : List Piece, Id.zero ∈ pieces.map (·.node) →
        (σ.catalog h).run (Catalog.aliasesOf pieces) =
          (.error (.rejected (.zeroNode .zero)), σ.catalog h)) ∧
    ∀ i h, σ.handles[i]? = some h → ∀ now (pieces : List Piece), (∀ p ∈ pieces, p.node ≠ .zero) →
      (h.cache.unknown (pieces.map (·.node))).length ≤ NodeTable.addLimit →
        (∃ aliases, ((σ.catalog h).run (Catalog.aliasesOf pieces)).1 = .ok aliases ∧ ∀ events,
          ∀ h' ∈ ((σ.step (.call i now (.aliasesOf pieces))).run events).handles,
            ((((σ.step (.call i now (.aliasesOf pieces))).run events).catalog h').run
              (Catalog.piecesOf aliases)).1 = .ok pieces) ∨
        (σ.catalog h).run (Catalog.aliasesOf pieces) =
            (.error (.storage .ensureNodes), σ.catalog h) ∧
          NodeTable.maxAlias <
            s.nodes.highest + (h.cache.unknown (pieces.map (·.node))).length := by
  obtain ⟨s₀, hstands⟩ := hσ.stands
  have hsame : s₀ = s := Option.some.inj (hstands.store.symm.trans hs)
  subst hsame
  refine ⟨fun events => ?_, fun h hh node short => ⟨?_, fun hshort => ?_⟩, fun h hh => ⟨?_, ?_⟩, ?_⟩
  · obtain ⟨s', hσ', hext⟩ := hstands.extends_run events
    exact ⟨s', hσ'.store, fun r hr =>
      ⟨hext r hr, fun r' hr' => hσ'.aliases.short_eq_iff (hext r hr) hr'⟩⟩
  · have hcache := (hstands.handles h hh).cache
    exact hcache.aliasOf?_iff_node? hstands.aliases (hσ.paired h hh)
  · exact (hstands.handles h hh).cache.aliasOf?_eq hshort
  · exact fun nodes hzero => Catalog.run_ensureNodes_zero (hstands.open hh) hzero
  · exact fun pieces hzero => Catalog.run_aliasesOf_zero (hstands.open hh) hzero
  · intro i h hget now pieces hnodes hfew
    have hopen := hstands.open (List.mem_of_getElem? hget)
    have hnonzero : ∀ n ∈ pieces.map (·.node), n ≠ .zero := by
      intro n hn
      obtain ⟨p, hp, rfl⟩ := List.mem_map.1 hn
      exact hnodes p hp
    refine (Catalog.ends_aliasesOf hopen hnonzero hfew).imp_left fun ⟨aliases, hok⟩ => ?_
    exact ⟨aliases, hok, fun events h' hh' => hstands.piecesOf_run hget hok events hh'⟩

end Site

/-- Pieces on a node that has an alias and on one that has none, with a node twice. -/
def Sample.pieces : List Piece := [⟨0, .ofNat 9⟩, ⟨1, .ofNat 7⟩, ⟨2, .ofNat 7⟩]

/-- Pieces are stored by the handle of an upload, and read back by any other one. -/
theorem Sample.aliases_bijective_site : ∃ aliases,
    ((site.catalog (handleOf site)).run (Catalog.aliasesOf pieces)).1 = .ok aliases ∧
      ∀ events, ∀ h ∈ ((site.step (.call 0 moment (.aliasesOf pieces))).run events).handles,
        ((((site.step (.call 0 moment (.aliasesOf pieces))).run events).catalog h).run
          (Catalog.piecesOf aliases)).1 = .ok pieces := by
  obtain ⟨s, hstands⟩ := reachable_site.stands
  have hget : site.handles[0]? = some (handleOf site) := getElem?_handles (by decide +kernel)
  have hhighest : site.store.map (·.nodes.highest) = some 1 := by decide +kernel
  rw [hstands.store, Option.map_some, Option.some.injEq] at hhighest
  have hfew : ((handleOf site).cache.unknown (pieces.map (·.node))).length = 2 := by decide +kernel
  obtain ⟨-, -, -, hround⟩ := Site.Reachable.aliases_bijective reachable_site hstands.store
  rcases hround 0 (handleOf site) hget moment pieces (by decide)
    (by rw [hfew]; decide) with hback | ⟨-, hfull⟩
  · exact hback
  · rw [hhighest, hfew] at hfull
    exact absurd hfull (by decide)

end ObjectCatalog
