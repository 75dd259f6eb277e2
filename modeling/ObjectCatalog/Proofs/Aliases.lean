import ObjectCatalog.Proofs.Outcomes
import ObjectCatalog.Proofs.Tables

/-!
# Aliases of nodes

The alias table only grows, and a handle's cache holds rows of it only. So what a cache says about a
piece list is what the table says, whatever the cache has learned by then.

* `NodeTable.Sound`: aliases are in use up to the highest one, one for each node.
* `NodeTable.Sound.addAll`: adding nodes keeps every row.
* `AliasCache.Within`: a cache that holds rows of a table only.
* `Lookup.run_pieces`: **a lookup through such a cache answers as the table does.**
-/

namespace ObjectCatalog

/-! ## The table -/

namespace NodeTable

/-- Aliases are positive and not above the highest one, and nodes have one alias each. -/
structure Sound (t : NodeTable) : Prop where
  highest_nonneg : 0 ≤ t.highest
  in_use : ∀ r ∈ t.rows.rows, 0 < r.short.toInt ∧ r.short.toInt ≤ t.highest
  distinct : ∀ r ∈ t.rows.rows, ∀ r' ∈ t.rows.rows, r.node = r'.node → r = r'
  known : ∀ r ∈ t.rows.rows, r.node.isZero = false

/-- Every row of `t` is a row of `t'`. -/
def Extends (t t' : NodeTable) : Prop := ∀ r ∈ t.rows.rows, r ∈ t'.rows.rows

theorem Extends.refl (t : NodeTable) : t.Extends t := fun _ h => h

theorem Extends.trans {t t' t'' : NodeTable} (h : t.Extends t') (h' : t'.Extends t'') :
    t.Extends t'' := fun r hr => h' r (h r hr)

theorem sound_empty : NodeTable.empty.Sound where
  highest_nonneg := le_rfl
  in_use _ hr := absurd hr List.not_mem_nil
  distinct _ hr := absurd hr List.not_mem_nil
  known _ hr := absurd hr List.not_mem_nil

theorem aliasOf?_eq_none_iff {t : NodeTable} {node : NodeId} :
    t.aliasOf? node = none ↔ ∀ r ∈ t.rows.rows, r.node ≠ node := by
  simp [aliasOf?]

variable {t t' : NodeTable}

/-- Adding a node keeps every row, and the node has a row then. -/
theorem Sound.add (h : t.Sound) {node : NodeId} (hnode : node.isZero = false)
    (hadd : t.add node = some t') :
    t'.Sound ∧ t.Extends t' ∧ ∃ r ∈ t'.rows.rows, r.node = node := by
  have hpos := h.highest_nonneg
  simp only [NodeTable.add] at hadd
  split at hadd
  · cases hadd
  · next hmax =>
    simp only [maxAlias, not_lt] at hmax
    split at hadd
    · next hknown =>
      -- a node that has an alias already uses up a number all the same
      cases hadd
      refine ⟨⟨by simp only; omega, fun r hr => ?_, h.distinct, h.known⟩, fun r hr => hr, ?_⟩
      · have := h.in_use r hr
        simp only; omega
      · by_contra hnone
        push Not at hnone
        have hnone' : t.aliasOf? node = none := aliasOf?_eq_none_iff.2 hnone
        rw [hnone'] at hknown
        exact absurd hknown (by decide)
    · next hnew =>
      cases hadd
      have hnew' : ∀ r ∈ t.rows.rows, r.node ≠ node :=
        aliasOf?_eq_none_iff.1 (Option.not_isSome_iff_eq_none.1 hnew)
      have hshort : (Int64.ofInt (t.highest + 1)).toInt = t.highest + 1 :=
        Int64.toInt_ofInt_of_le (by omega) (by omega)
      -- the new alias is above all others, so its row takes nobody's place
      have hne : ∀ r ∈ t.rows.rows, r.short ≠ Int64.ofInt (t.highest + 1) := by
        intro r hr heq
        have := (h.in_use r hr).2
        rw [heq, hshort] at this
        omega
      have hmem : ∀ r, r ∈ (t.rows.insert ⟨.ofInt (t.highest + 1), node⟩).rows ↔
          r = ⟨.ofInt (t.highest + 1), node⟩ ∨ r ∈ t.rows.rows := by
        intro r
        rw [Table.mem_insert]
        exact or_congr_right (and_iff_left_of_imp (hne r))
      refine ⟨⟨by simp only; omega, fun r hr => ?_, fun r hr r' hr' heq => ?_, fun r hr => ?_⟩,
        fun r hr => (hmem r).2 (.inr hr), _, (hmem _).2 (.inl rfl), rfl⟩
      · rcases (hmem r).1 hr with rfl | hr
        · simp only [hshort]; omega
        · have := h.in_use r hr
          simp only; omega
      · rcases (hmem r).1 hr with rfl | hr <;> rcases (hmem r').1 hr' with rfl | hr'
        · rfl
        · exact absurd heq.symm (hnew' r' hr')
        · exact absurd heq (hnew' r hr)
        · exact h.distinct r hr r' hr' heq
      · rcases (hmem r).1 hr with rfl | hr
        · exact hnode
        · exact h.known r hr

/-- **Adding nodes keeps every row,** and all of the nodes have rows then. -/
theorem Sound.addAll (h : t.Sound) {nodes : List NodeId} (hnodes : ∀ n ∈ nodes, n.isZero = false)
    (hadd : t.addAll nodes = some t') :
    t'.Sound ∧ t.Extends t' ∧ ∀ n ∈ nodes, ∃ r ∈ t'.rows.rows, r.node = n := by
  have hfold : nodes.foldlM NodeTable.add t = some t' := by
    rw [NodeTable.addAll] at hadd
    split at hadd
    · cases hadd
    · exact hadd
  clear hadd
  induction nodes generalizing t with
  | nil =>
    cases hfold
    exact ⟨h, .refl _, fun n hn => absurd hn List.not_mem_nil⟩
  | cons n rest ih =>
    rw [List.foldlM_cons] at hfold
    obtain ⟨t₁, hadd, hrest⟩ := Option.bind_eq_some_iff.1 hfold
    obtain ⟨h₁, hext, r, hr, hrn⟩ := h.add (hnodes n List.mem_cons_self) hadd
    obtain ⟨h', hext', hall⟩ := ih h₁ (fun m hm => hnodes m (List.mem_cons_of_mem _ hm)) hrest
    refine ⟨h', hext.trans hext', fun m hm => ?_⟩
    rcases List.mem_cons.1 hm with rfl | hm
    · exact ⟨r, hext' r hr, hrn⟩
    · exact hall m hm

/-- The node of an alias. -/
def node? (t : NodeTable) (short : NodeAlias) : Option NodeId := (t.rows.find? short).map (·.node)

/-- Pieces of stored form, as the table has them. -/
def piecesOf (t : NodeTable) (aliases : List AliasPiece) : Except Error (List Piece) :=
  aliases.mapM fun p =>
    match t.node? p.short with
    | some node => pure ⟨p.number, node⟩
    | none => throw (.corrupted (.unknownAlias p.short))

/-- Every alias of a list is in use. -/
def Covers (t : NodeTable) (aliases : List AliasPiece) : Prop :=
  ∀ p ∈ aliases, (t.node? p.short).isSome

theorem node?_eq_some_iff {node : NodeId} {short : NodeAlias} :
    t.node? short = some node ↔ ⟨short, node⟩ ∈ t.rows.rows := by
  constructor
  · intro hnode
    obtain ⟨r, hr, rfl⟩ := Option.map_eq_some_iff.1 hnode
    obtain ⟨hmem, rfl⟩ := Table.find?_eq_some_iff.1 hr
    exact hmem
  · intro hmem
    exact Option.map_eq_some_iff.2 ⟨_, Table.find?_eq_some_iff.2 ⟨hmem, rfl⟩, rfl⟩

theorem Extends.node?_eq (h : t.Extends t') {short : NodeAlias} {node : NodeId}
    (hnode : t.node? short = some node) : t'.node? short = some node :=
  node?_eq_some_iff.2 (h _ (node?_eq_some_iff.1 hnode))

theorem Extends.covers (h : t.Extends t') {aliases : List AliasPiece} (hc : t.Covers aliases) :
    t'.Covers aliases := by
  intro p hp
  obtain ⟨node, hnode⟩ := Option.isSome_iff_exists.1 (hc p hp)
  rw [h.node?_eq hnode]
  rfl

/-- A table that grows reads the aliases in use as before. -/
theorem Extends.piecesOf_eq (h : t.Extends t') {aliases : List AliasPiece}
    (hc : t.Covers aliases) : t'.piecesOf aliases = t.piecesOf aliases := by
  refine Except.mapM_congr fun p hp => ?_
  obtain ⟨node, hnode⟩ := Option.isSome_iff_exists.1 (hc p hp)
  rw [hnode, h.node?_eq hnode]

/-- Aliases in use have nodes. -/
theorem Covers.piecesOf_ok {aliases : List AliasPiece} (hc : t.Covers aliases) :
    ∃ pieces, t.piecesOf aliases = .ok pieces :=
  Except.exists_mapM_eq_ok fun p hp => by
    obtain ⟨node, hnode⟩ := Option.isSome_iff_exists.1 (hc p hp)
    rw [hnode]
    exact ⟨_, rfl⟩

end NodeTable

/-! ## Caches of the table -/

namespace AliasCache

/-- A cache that holds rows of a table only. -/
structure Within (c : AliasCache) (t : NodeTable) : Prop where
  byNode : ∀ r ∈ c.byNode.rows, r ∈ t.rows.rows
  byAlias : ∀ r ∈ c.byAlias.rows, r ∈ t.rows.rows

variable {c : AliasCache} {t t' : NodeTable}

theorem node?_eq_some_iff {short : NodeAlias} {node : NodeId} :
    c.node? short = some node ↔ ⟨short, node⟩ ∈ c.byAlias.rows := by
  constructor
  · intro hnode
    obtain ⟨r, hr, rfl⟩ := Option.map_eq_some_iff.1 hnode
    obtain ⟨hmem, rfl⟩ := Table.find?_eq_some_iff.1 hr
    exact hmem
  · intro hmem
    exact Option.map_eq_some_iff.2 ⟨_, Table.find?_eq_some_iff.2 ⟨hmem, rfl⟩, rfl⟩

theorem aliasOf?_eq_some_iff {short : NodeAlias} {node : NodeId} :
    c.aliasOf? node = some short ↔ ⟨short, node⟩ ∈ c.byNode.rows := by
  constructor
  · intro hshort
    obtain ⟨r, hr, rfl⟩ := Option.map_eq_some_iff.1 hshort
    obtain ⟨hmem, rfl⟩ := Table.find?_eq_some_iff.1 hr
    exact hmem
  · intro hmem
    exact Option.map_eq_some_iff.2 ⟨_, Table.find?_eq_some_iff.2 ⟨hmem, rfl⟩, rfl⟩

theorem within_empty (t : NodeTable) : AliasCache.empty.Within t :=
  ⟨fun _ hr => absurd hr List.not_mem_nil, fun _ hr => absurd hr List.not_mem_nil⟩

theorem Within.mono (h : c.Within t) (hext : t.Extends t') : c.Within t' :=
  ⟨fun r hr => hext r (h.byNode r hr), fun r hr => hext r (h.byAlias r hr)⟩

theorem Within.insert (h : c.Within t) {r : NodeRow} (hr : r ∈ t.rows.rows) :
    (c.insert r).Within t := by
  constructor <;> intro x hx
  · rcases Table.mem_insert.1 hx with rfl | ⟨hx, -⟩
    · exact hr
    · exact h.byNode x hx
  · rcases Table.mem_insert.1 hx with rfl | ⟨hx, -⟩
    · exact hr
    · exact h.byAlias x hx

theorem Within.remember (h : c.Within t) {rows : List NodeRow}
    (hrows : ∀ r ∈ rows, r ∈ t.rows.rows) : (c.remember rows).Within t := by
  induction rows generalizing c with
  | nil => exact h
  | cons r rest ih =>
    exact ih (h.insert (hrows r List.mem_cons_self)) fun x hx => hrows x (List.mem_cons_of_mem _ hx)

theorem Within.node?_eq (h : c.Within t) {short : NodeAlias} {node : NodeId}
    (hnode : c.node? short = some node) : t.node? short = some node :=
  NodeTable.node?_eq_some_iff.2 (h.byAlias _ (node?_eq_some_iff.1 hnode))

theorem byAlias_remember (rows : List NodeRow) :
    (c.remember rows).byAlias = rows.foldl .insert c.byAlias := by
  induction rows generalizing c with
  | nil => rfl
  | cons r rest ih => exact ih (c := c.insert r)

/-- A cache that has loaded the whole table knows what the table knows, and what it knew besides. -/
theorem node?_remember (c : AliasCache) (t : NodeTable) (short : NodeAlias) :
    (c.remember t.rows.rows).node? short = (t.node? short).or (c.node? short) := by
  have hnodup : (t.rows.rows.map NodeRow.short).Nodup :=
    List.Pairwise.map _ (fun _ _ hlt => ne_of_compare_lt hlt) t.rows.ascending
  have hfind : (c.remember t.rows.rows).byAlias.find? short =
      (t.rows.find? short).or (c.byAlias.find? short) := by
    rw [byAlias_remember, Table.find?_foldl_insert hnodup]
    rfl
  rw [node?, NodeTable.node?, node?, hfind]
  cases t.rows.find? short <;> rfl

/-- A cache of rows of the table knows nothing besides. -/
theorem Within.node?_remember (h : c.Within t) (short : NodeAlias) :
    (c.remember t.rows.rows).node? short = t.node? short := by
  rw [AliasCache.node?_remember]
  cases hnode : c.node? short with
  | none => rw [Option.or_none]
  | some node => rw [h.node?_eq hnode, Option.some_or]

theorem piecesOf_congr {aliases : List AliasPiece}
    (h : ∀ p ∈ aliases, c.node? p.short = t.node? p.short) : c.piecesOf aliases = t.piecesOf aliases :=
  Except.mapM_congr fun p hp => by
    have hnode := h p hp
    generalize c.node? p.short = known at hnode ⊢
    subst hnode
    cases t.node? p.short <;> rfl

/-- What a cache knows of a list is what the table says. -/
theorem Within.piecesOf_eq (h : c.Within t) {aliases : List AliasPiece}
    (hknows : c.knows aliases = true) : c.piecesOf aliases = t.piecesOf aliases :=
  piecesOf_congr fun p hp => by
    obtain ⟨node, hnode⟩ := Option.isSome_iff_exists.1 (List.all_eq_true.1 hknows p hp)
    rw [hnode, h.node?_eq hnode]

theorem Within.aliasOf?_eq (h : c.Within t) {node : NodeId} {short : NodeAlias}
    (hshort : c.aliasOf? node = some short) : ⟨short, node⟩ ∈ t.rows.rows :=
  h.byNode _ (aliasOf?_eq_some_iff.1 hshort)

end AliasCache

/-! ## Lookups -/

namespace Lookup

/-- The outcome of a lookup and the cache it leaves. -/
def run {α : Type} (lookup : Lookup α) (c : AliasCache) : Except Error α × AliasCache :=
  (ExceptT.run lookup).run c

variable {c : AliasCache} {t t' : NodeTable}

/-- **A lookup through the cache answers as the table does,** and the cache learns rows of the table
only. -/
theorem run_pieces (h : c.Within t) (aliases : List AliasPiece) :
    ((Lookup.pieces t aliases).run c).1 = t.piecesOf aliases ∧
      ((Lookup.pieces t aliases).run c).2.Within t := by
  have hrun : (Lookup.pieces t aliases).run c =
      ((if c.knows aliases then c else c.remember t.rows.rows).piecesOf aliases,
        if c.knows aliases then c else c.remember t.rows.rows) := rfl
  rw [hrun]
  cases hk : c.knows aliases with
  | true => exact ⟨h.piecesOf_eq hk, h⟩
  | false =>
    exact ⟨AliasCache.piecesOf_congr fun p _ => h.node?_remember p.short,
      h.remember fun r hr => hr⟩

end Lookup

end ObjectCatalog
