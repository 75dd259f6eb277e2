import ObjectCatalog.Proofs.Tables

/-!
# Streams and families

The rows of a stream and the copies of an ancestor are lists of rows in the tables; here they are
said by lookups. An ancestor and its copies form a family.

* `Store.row?`: the row of a stream at a stored position.
* `Store.mem_segmentsOf`, `Store.mem_copiesOf`: rows of a stream and copies of an ancestor.
* `Store.Lacks`: a stream id that occurs in no row.
-/

namespace Option

variable {α β γ : Type} {R S : α → β → Prop} {a : Option α} {b : Option β}

theorem Rel.imp (h : Option.Rel R a b) (hRS : ∀ x y, a = .some x → b = .some y → R x y → S x y) :
    Option.Rel S a b := by
  cases h with
  | some h => exact .some (hRS _ _ rfl rfl h)
  | none => exact .none

theorem Rel.comp {Q : β → γ → Prop} {T : α → γ → Prop} {c : Option γ} (h : Option.Rel R a b)
    (h' : Option.Rel Q b c) (hT : ∀ x y z, b = .some y → R x y → Q y z → T x z) :
    Option.Rel T a c := by
  cases h with
  | some h =>
    cases h' with
    | some h' => exact .some (hT _ _ _ rfl h h')
  | none =>
    cases h' with
    | none => exact .none

theorem Rel.exists_right (h : Option.Rel R a b) {x : α} (hx : a = .some x) : ∃ y, b = .some y ∧ R x y := by
  cases h with
  | some h => cases hx; exact ⟨_, rfl, h⟩
  | none => cases hx

theorem Rel.exists_left (h : Option.Rel R a b) {y : β} (hy : b = .some y) : ∃ x, a = .some x ∧ R x y := by
  cases h with
  | some h => cases hy; exact ⟨_, rfl, h⟩
  | none => cases hy

end Option

namespace ObjectCatalog

/-- Whether a stream is one of several. -/
instance decidableMemStreams (x : StreamId) (streams : List StreamId) : Decidable (x ∈ streams) :=
  decidable_of_iff (streams.contains x = true) List.contains_iff_mem

namespace Store

variable {s s' : Store} {x a : StreamId} {p : Int} {r : SegmentRow}

/-- The row of a stream at a stored position. -/
def row? (s : Store) (x : StreamId) (p : Int) : Option SegmentRow := s.segments.find? ⟨x, p⟩

theorem segment?_eq (s : Store) (x : StreamId) (p : Position) : s.segment? x p = s.row? x p.column :=
  rfl

theorem row?_eq_some_iff :
    s.row? x p = some r ↔ r ∈ s.segments.rows ∧ r.stream = x ∧ r.position = p := by
  rw [row?, Table.find?_eq_some_iff, SegmentRow.id, SegmentId.mk.injEq]

theorem row?_self (hr : r ∈ s.segments.rows) : s.row? r.stream r.position = some r :=
  row?_eq_some_iff.2 ⟨hr, rfl, rfl⟩

theorem find?_segments (s : Store) (k : SegmentId) : s.segments.find? k = s.row? k.stream k.position :=
  rfl

theorem mem_segmentsOf : r ∈ s.segmentsOf x ↔ r ∈ s.segments.rows ∧ r.stream = x := by
  rw [segmentsOf, List.mem_filter, decide_eq_true_eq]

theorem mem_segmentsOf_iff_row? :
    r ∈ s.segmentsOf x ↔ s.row? x r.position = some r := by
  rw [mem_segmentsOf, row?_eq_some_iff, and_iff_left rfl]

theorem nodup_segmentsOf (s : Store) (x : StreamId) : (s.segmentsOf x).Nodup :=
  s.segments.nodup.filter _

/-- The positions of the rows of a stream are distinct. -/
theorem nodup_positions (s : Store) (x : StreamId) : ((s.segmentsOf x).map (·.position)).Nodup := by
  refine (nodup_segmentsOf s x).map_on fun r hr r' hr' heq => ?_
  rw [mem_segmentsOf_iff_row?] at hr hr'
  rw [heq, hr'] at hr
  exact (Option.some.inj hr).symm

/-- Stores with the same row of a stream at every position have the same rows of the stream. -/
theorem segmentsOf_congr (h : ∀ p, s.row? x p = s'.row? x p) : s.segmentsOf x = s'.segmentsOf x := by
  refine Table.filter_rows_congr fun r hr => ?_
  rw [decide_eq_true_eq] at hr
  subst hr
  exact h r.position

theorem ancestorOf?_eq_some_iff :
    s.ancestorOf? x = some a ↔ ⟨x, a⟩ ∈ s.copies.rows := by
  unfold ancestorOf?
  rw [Option.map_eq_some_iff]
  constructor
  · rintro ⟨⟨c, b⟩, hc, rfl⟩
    obtain ⟨hmem, rfl⟩ := Table.find?_eq_some_iff.1 hc
    exact hmem
  · intro hmem
    exact ⟨⟨x, a⟩, Table.find?_eq_some_iff.2 ⟨hmem, rfl⟩, rfl⟩

theorem ancestorOf?_self {c : CopyRow} (hc : c ∈ s.copies.rows) :
    s.ancestorOf? c.stream = some c.ancestor :=
  ancestorOf?_eq_some_iff.2 hc

theorem mem_copiesOf : x ∈ s.copiesOf a ↔ s.ancestorOf? x = some a := by
  rw [ancestorOf?_eq_some_iff, copiesOf, List.mem_map]
  constructor
  · rintro ⟨⟨c, b⟩, hc, rfl⟩
    obtain ⟨hmem, hb⟩ := List.mem_filter.1 hc
    rw [decide_eq_true_eq] at hb
    subst hb
    exact hmem
  · intro hmem
    exact ⟨⟨x, a⟩, List.mem_filter.2 ⟨hmem, decide_eq_true rfl⟩, rfl⟩

theorem ascending_copiesOf (s : Store) (a : StreamId) : Ascending id (s.copiesOf a) :=
  List.pairwise_map.2 (s.copies.ascending.sublist List.filter_sublist)

/-- The copies of an ancestor are determined by which streams they are. -/
theorem copiesOf_eq {l : List StreamId} (hl : Ascending id l)
    (h : ∀ c, c ∈ l ↔ s.ancestorOf? c = some a) : s.copiesOf a = l :=
  (ascending_copiesOf s a).eq_of_mem_iff hl fun c => by rw [mem_copiesOf, h]

theorem copiesOf_congr (h : ∀ c, s.ancestorOf? c = some a ↔ s'.ancestorOf? c = some a) :
    s.copiesOf a = s'.copiesOf a :=
  copiesOf_eq (ascending_copiesOf s' a) fun c => by rw [mem_copiesOf, h]

/-- The object that a stream identity names. -/
theorem objectOf?_eq_some {stream : ObjectStream} {status : Status} {o : ObjectRow}
    (h : s.objectOf? stream status = some o) :
    o ∈ s.objects.rows ∧ o.id = ⟨stream.location, stream.version.toInt⟩ ∧
      o.stream = stream.stream ∧ o.hasStatus status = true := by
  unfold objectOf? at h
  obtain ⟨hfind, hcond⟩ := Option.filter_eq_some_iff.1 h
  obtain ⟨hmem, hid⟩ := Table.find?_eq_some_iff.1 hfind
  rw [Bool.and_eq_true, ObjectRow.isOf, decide_eq_true_eq] at hcond
  exact ⟨hmem, hid, hcond.1.2.2, hcond.2⟩

/-! ## Fresh stream ids -/

/-- A stream id that occurs in no row of objects, segments or copy relations. -/
def Lacks (s : Store) (x : StreamId) : Prop :=
  (∀ o ∈ s.objects.rows, o.stream ≠ x) ∧ (∀ r ∈ s.segments.rows, r.stream ≠ x) ∧
    ∀ c ∈ s.copies.rows, c.stream ≠ x ∧ c.ancestor ≠ x

instance (s : Store) (x : StreamId) : Decidable (s.Lacks x) := by
  unfold Lacks; infer_instance

theorem Lacks.row?_eq_none (h : s.Lacks x) (p : Int) : s.row? x p = none := by
  rw [Option.eq_none_iff_forall_ne_some]
  intro r hr
  obtain ⟨hmem, hstream, -⟩ := row?_eq_some_iff.1 hr
  exact h.2.1 r hmem hstream

theorem Lacks.ancestorOf?_eq_none (h : s.Lacks x) : s.ancestorOf? x = none := by
  rw [Option.eq_none_iff_forall_ne_some]
  intro a ha
  exact (h.2.2 _ (ancestorOf?_eq_some_iff.1 ha)).1 rfl

end Store

end ObjectCatalog
