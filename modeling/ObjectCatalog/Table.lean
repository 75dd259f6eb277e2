/-!
# Tables

A table is the list of its rows in ascending order of their keys, so two tables with the same rows
are equal. The key of a row is a function of the row.

* `Table.insert`: puts a row in its place, over the row that had its key. `Table.upsert` changes that
  row instead.
* `Table.filter`, `Table.update`: keep some rows, change rows without changing their keys.
* `Table.find?`: the row of a key.
-/

namespace ObjectCatalog

variable {ρ κ : Type} [Ord κ] {key : ρ → κ}

/-- Rows in strictly ascending order of their keys. -/
def Ascending (key : ρ → κ) (rows : List ρ) : Prop :=
  rows.Pairwise fun a b => compare (key a) (key b) = .lt

/-- Rows with a row put in its place. -/
def insertRow (key : ρ → κ) (r : ρ) : List ρ → List ρ
  | [] => [r]
  | a :: rest =>
    match compare (key r) (key a) with
    | .lt => r :: a :: rest
    | .eq => r :: rest
    | .gt => a :: insertRow key r rest

theorem mem_of_mem_insertRow {r x : ρ} {rows : List ρ} (h : x ∈ insertRow key r rows) :
    x = r ∨ x ∈ rows := by
  induction rows with
  | nil => simpa [insertRow] using h
  | cons a rest ih =>
    simp only [insertRow] at h
    split at h <;> simp only [List.mem_cons] at h ⊢ <;> grind

theorem ascending_insertRow [Std.TransOrd κ] (r : ρ) {rows : List ρ} (h : Ascending key rows) :
    Ascending key (insertRow key r rows) := by
  induction rows with
  | nil => simp [insertRow, Ascending]
  | cons a rest ih =>
    obtain ⟨ha, hrest⟩ := List.pairwise_cons.1 h
    simp only [insertRow]
    split
    · next hlt =>
      refine List.pairwise_cons.2 ⟨fun x hx => ?_, h⟩
      rcases List.mem_cons.1 hx with rfl | hx
      · exact hlt
      · exact Std.TransCmp.lt_trans hlt (ha x hx)
    · next heq =>
      exact List.pairwise_cons.2 ⟨fun x hx => Std.TransCmp.lt_of_eq_of_lt heq (ha x hx), hrest⟩
    · next hgt =>
      refine List.pairwise_cons.2 ⟨fun x hx => ?_, ih hrest⟩
      rcases mem_of_mem_insertRow hx with rfl | hx
      · exact Std.OrientedCmp.lt_of_gt hgt
      · exact ha x hx

/-- A table of rows under their keys. -/
structure Table (key : ρ → κ) where
  rows : List ρ
  ascending : Ascending key rows

namespace Table

@[ext]
theorem ext {s t : Table key} (h : s.rows = t.rows) : s = t := by
  cases s; cases t; cases h; rfl

/-- The table without rows. -/
def empty : Table key := ⟨[], .nil⟩

instance : Inhabited (Table key) := ⟨empty⟩

/-- The row of a key. -/
def find? [DecidableEq κ] (t : Table key) (k : κ) : Option ρ := t.rows.find? fun r => key r = k

/-- Whether some row has a key. -/
def contains [DecidableEq κ] (t : Table key) (k : κ) : Bool := (t.find? k).isSome

/-- Puts a row in its place, over the row that had its key. -/
def insert [Std.TransOrd κ] (t : Table key) (r : ρ) : Table key :=
  ⟨insertRow key r t.rows, ascending_insertRow r t.ascending⟩

/-- Puts a row in its place, or changes the row that has its key. -/
def upsert [Std.TransOrd κ] [DecidableEq κ] (t : Table key) (r : ρ) (change : ρ → ρ) : Table key :=
  match t.find? (key r) with
  | some old => t.insert (change old)
  | none => t.insert r

/-- The rows that meet a condition. -/
def filter (t : Table key) (keep : ρ → Bool) : Table key :=
  ⟨t.rows.filter keep, t.ascending.sublist List.filter_sublist⟩

/-- Changes rows in place. -/
def update (t : Table key) (change : ρ → ρ) (hkey : ∀ r, key (change r) = key r) : Table key :=
  ⟨t.rows.map change, List.pairwise_map.2 (by simpa only [hkey] using t.ascending.imp id)⟩

/-- Changes the rows that meet a condition. -/
def updateIf (t : Table key) (cond : ρ → Bool) (change : ρ → ρ)
    (hkey : ∀ r, key (change r) = key r) : Table key :=
  t.update (fun r => if cond r then change r else r) fun r => by
    split
    · exact hkey r
    · rfl

@[simp]
theorem rows_empty : (empty : Table key).rows = [] := rfl

@[simp]
theorem rows_filter (t : Table key) (keep : ρ → Bool) :
    (t.filter keep).rows = t.rows.filter keep := rfl

@[simp]
theorem rows_insert [Std.TransOrd κ] (t : Table key) (r : ρ) :
    (t.insert r).rows = insertRow key r t.rows := rfl

@[simp]
theorem rows_updateIf (t : Table key) (cond : ρ → Bool) (change : ρ → ρ)
    (hkey : ∀ r, key (change r) = key r) :
    (t.updateIf cond change hkey).rows = t.rows.map fun r => if cond r then change r else r := rfl

end Table

end ObjectCatalog
