import Mathlib.Tactic
import ObjectCatalog.Catalog

/-!
# Outcomes of calls

A step that fails ends a call; a step that succeeds hands its value to the next. These lemmas take
checks, lists of checks and calls apart into their steps.

* `Except.bind_eq_ok`, `Except.mapM_eq_ok_iff`: when a sequence of checks succeeds.
* `Catalog.run_bind`: a call runs step by step; the lemmas after it are for the steps that calls are
  made of.
-/

namespace ObjectCatalog

/-! ## Checks -/

namespace Except

variable {ε α β : Type}

theorem bind_eq_ok {x : Except ε α} {f : α → Except ε β} {b : β} :
    x >>= f = .ok b ↔ ∃ a, x = .ok a ∧ f a = .ok b := by
  cases x <;> simp [bind, Except.bind]

theorem ok_bind (a : α) (f : α → Except ε β) : (.ok a : Except ε α) >>= f = f a := rfl

theorem error_bind (e : ε) (f : α → Except ε β) : (.error e : Except ε α) >>= f = .error e := rfl

/-- Wrapping errors keeps outcomes apart. -/
theorem mapError_inj {f : ε → β} (hf : f.Injective) {x y : Except ε α} :
    x.mapError f = y.mapError f ↔ x = y := by
  cases x <;> cases y <;> simp [Except.mapError, hf.eq_iff]

theorem exists_eq_ok {x : Except ε α} (h : x.toOption.isSome = true) : ∃ a, x = .ok a := by
  cases x with
  | error e => cases h
  | ok a => exact ⟨a, rfl⟩

theorem eq_ok_of_toOption {x : Except ε α} {a : α} (h : x.toOption = some a) : x = .ok a := by
  cases x with
  | error e => cases h
  | ok a' => rw [Option.some.inj h]

/-- A check of whose outcome something is seen has succeeded. -/
theorem exists_of_map_toOption {x : Except ε α} {f : α → β} {b : β}
    (h : x.toOption.map f = some b) : ∃ a, x = .ok a ∧ f a = b := by
  obtain ⟨a, ha, hb⟩ := Option.map_eq_some_iff.1 h
  exact ⟨a, eq_ok_of_toOption ha, hb⟩

theorem mapM_congr {f g : α → Except ε β} {l : List α} (h : ∀ x ∈ l, f x = g x) :
    l.mapM f = l.mapM g := by
  induction l with
  | nil => rfl
  | cons x rest ih =>
    rw [List.mapM_cons, List.mapM_cons, h x List.mem_cons_self,
      ih fun y hy => h y (List.mem_cons_of_mem _ hy)]

theorem mapM_eq_ok_iff {f : α → Except ε β} {l : List α} {r : List β} :
    l.mapM f = .ok r ↔ List.Forall₂ (fun a b => f a = .ok b) l r := by
  induction l generalizing r with
  | nil =>
    rw [List.mapM_nil, List.forall₂_nil_left_iff]
    exact ⟨fun h => by cases h; rfl, fun h => by rw [h]; rfl⟩
  | cons x rest ih =>
    rw [List.mapM_cons, bind_eq_ok, List.forall₂_cons_left_iff]
    constructor
    · rintro ⟨b, hb, h⟩
      obtain ⟨bs, hbs, h⟩ := bind_eq_ok.1 h
      cases h
      exact ⟨b, bs, hb, ih.1 hbs, rfl⟩
    · rintro ⟨b, bs, hb, hbs, rfl⟩
      exact ⟨b, hb, bind_eq_ok.2 ⟨bs, ih.2 hbs, rfl⟩⟩

theorem map_eq_of_mapM_eq_ok {f : α → Except ε β} {l : List α} {r : List β}
    (h : l.mapM f = .ok r) : l.map f = r.map .ok := by
  have hrel := mapM_eq_ok_iff.1 h
  clear h
  induction hrel with
  | nil => rfl
  | cons hab _ ih => rw [List.map_cons, List.map_cons, hab, ih]

/-- What comes out of a list of checks comes out of one of them. -/
theorem exists_of_forall₂ {R : α → β → Prop} {l : List α} {r : List β} (h : List.Forall₂ R l r)
    {b : β} (hb : b ∈ r) : ∃ a ∈ l, R a b := by
  induction h with
  | nil => exact absurd hb List.not_mem_nil
  | @cons a _ _ _ hab _ ih =>
    rcases List.mem_cons.1 hb with rfl | hb
    · exact ⟨a, List.mem_cons_self, hab⟩
    · obtain ⟨a', ha', hR⟩ := ih hb
      exact ⟨a', List.mem_cons_of_mem _ ha', hR⟩

/-- Checks that all succeed give a list. -/
theorem exists_mapM_eq_ok {f : α → Except ε β} {l : List α} (h : ∀ x ∈ l, ∃ y, f x = .ok y) :
    ∃ r, l.mapM f = .ok r := by
  induction l with
  | nil => exact ⟨[], rfl⟩
  | cons x rest ih =>
    obtain ⟨y, hy⟩ := h x List.mem_cons_self
    obtain ⟨r, hr⟩ := ih fun z hz => h z (List.mem_cons_of_mem _ hz)
    exact ⟨y :: r, mapM_eq_ok_iff.2 (.cons hy (mapM_eq_ok_iff.1 hr))⟩

end Except

/-- What is asked of one of two lists is given by the other. -/
theorem exists_of_forall₂_left {α β : Type} {R : α → β → Prop} {l : List α} {r : List β}
    (h : List.Forall₂ R l r) {a : α} (ha : a ∈ l) : ∃ b ∈ r, R a b := by
  obtain ⟨b, hb, hab⟩ := Except.exists_of_forall₂ h.flip ha
  exact ⟨b, hb, hab⟩

theorem reject_eq_ok {bad : Bool} {why : Rejection} {u : Unit} :
    (reject bad why : Except Error Unit) = .ok u ↔ bad = false := by
  cases bad
  · exact iff_of_true rfl rfl
  · exact iff_of_false (fun h => by cases h) (by decide)

theorem reject_of_bad {bad : Bool} (why : Rejection) (h : bad = true) :
    (reject bad why : Except Error Unit) = .error (.rejected why) := by
  rw [h]
  rfl

/-! ## Calls -/

namespace Catalog

variable {α β : Type} (c : Catalog)

theorem run_bind (a : Action α) (f : α → Action β) :
    c.run (a >>= f) =
      match c.run a with
      | (.ok v, c') => c'.run (f v)
      | (.error e, c') => (.error e, c') := by
  simp only [run, ExceptT.run_bind, StateT.run_bind]
  show _ = match (ExceptT.run a).run c with
      | (.ok v, c') => (ExceptT.run (f v)).run c'
      | (.error e, c') => (.error e, c')
  rcases (ExceptT.run a).run c with ⟨_ | _, _⟩ <;> rfl

theorem run_pure (v : α) : c.run (pure v : Action α) = (.ok v, c) := rfl

/-! One step of a call, by what the step is. -/

variable {c}

theorem run_bind_ok {a : Action α} {f : α → Action β} {v : α} {c' : Catalog}
    (h : c.run a = (.ok v, c')) : c.run (a >>= f) = c'.run (f v) := by
  rw [run_bind, h]

theorem run_bind_error {a : Action α} {f : α → Action β} {e : Error} {c' : Catalog}
    (h : c.run a = (.error e, c')) : c.run (a >>= f) = (.error e, c') := by
  rw [run_bind, h]

theorem run_get_bind (f : Catalog → Action β) : c.run (get >>= f) = c.run (f c) := run_bind_ok rfl

theorem run_commit_bind (s : Store) (f : Unit → Action β) :
    c.run (commit s >>= f) = Catalog.run { c with store := some s } (f ()) := run_bind_ok rfl

theorem run_lift_bind (x : Except Error α) (f : α → Action β) :
    c.run (liftM x >>= f) =
      match x with
      | .ok v => c.run (f v)
      | .error e => (.error e, c) := by
  cases x
  · exact run_bind_error rfl
  · exact run_bind_ok rfl

/-- A step that cannot fail hands its value to the next. -/
theorem run_state_bind (m : StateM Catalog α) (f : α → Action β) :
    c.run (liftM m >>= f) = (StateT.run m c).2.run (f (StateT.run m c).1) := rfl

theorem run_reject_bind (bad : Bool) (why : Rejection) (f : Unit → Action β) :
    c.run (reject bad why >>= f) = if bad then (.error (.rejected why), c) else c.run (f ()) := by
  cases bad
  · exact run_bind_ok rfl
  · exact run_bind_error rfl

/-! When steps that check something are passed. -/

theorem run_lift_bind_eq_ok {x : Except Error α} {f : α → Action β} {v : β} :
    (c.run (liftM x >>= f)).1 = .ok v ↔ ∃ a, x = .ok a ∧ (c.run (f a)).1 = .ok v := by
  rw [run_lift_bind]
  cases x with
  | error e => exact iff_of_false (fun h => by cases h) (by rintro ⟨a, ha, -⟩; cases ha)
  | ok a => exact ⟨fun h => ⟨a, rfl, h⟩, by rintro ⟨_, ha, h⟩; cases ha; exact h⟩

theorem run_reject_bind_eq_ok {bad : Bool} {why : Rejection} {f : Unit → Action β} {v : β} :
    (c.run (reject bad why >>= f)).1 = .ok v ↔ bad = false ∧ (c.run (f ())).1 = .ok v := by
  rw [run_reject_bind]
  cases bad with
  | false => exact (and_iff_right rfl).symm
  | true => exact iff_of_false (fun h => by cases h) fun h => by cases h.1

theorem run_tables {s : Store} (hs : c.store = some s) (statement : Statement) :
    c.run (tables statement) = (.ok s, c) := by
  rw [tables, run_get_bind, hs, run_pure]

theorem run_tables_bind {s : Store} (hs : c.store = some s) (statement : Statement)
    (f : Store → Action β) : c.run (tables statement >>= f) = c.run (f s) :=
  run_bind_ok (run_tables hs statement)

theorem run_mapM_lift (f : α → Except Error β) (l : List α) :
    c.run (l.mapM fun x => liftM (f x)) = (l.mapM f, c) := by
  induction l with
  | nil => rfl
  | cons x rest ih =>
    rw [List.mapM_cons, List.mapM_cons, run_lift_bind]
    cases f x with
    | error e => rfl
    | ok y =>
      show c.run (List.mapM _ rest >>= _) = (rest.mapM f >>= _, c)
      rw [run_bind, ih]
      cases rest.mapM f <;> rfl

theorem run_reading (lookup : Lookup α) :
    c.run (reading lookup) =
      (((ExceptT.run lookup).run c.cache).1,
        { c with cache := ((ExceptT.run lookup).run c.cache).2 }) := by
  rw [reading, run_get_bind]
  rfl

end Catalog

end ObjectCatalog
