import Mathlib.Data.Int.Notation
import Mathlib.Data.List.Forall2

/-!
# Trees of settings

A configuration file is a tree of named settings: integers, floats, arrays, lists and groups. `Reread` is
what writing such a tree to a file and reading it back does to it, with integers, arrays, lists and groups
reproduced and floats read back as some float.
-/

inductive Setting (D : Type)
  | int (n : ℤ)
  | float (x : D)
  | array (es : List (Setting D))
  | list (es : List (Setting D))
  | group (fields : List (String × Setting D))

namespace Setting

variable {D : Type}

/-- The setting of a name in a group. -/
def get? (s : Setting D) (name : String) : Option (Setting D) :=
  match s with
  | .group fields => fields.lookup name
  | _ => none

def toInt? : Setting D → Option ℤ
  | .int n => some n
  | _ => none

def toFloat? : Setting D → Option D
  | .float x => some x
  | _ => none

/-- The elements of an array or a list. -/
def elems? : Setting D → Option (List (Setting D))
  | .array es => some es
  | .list es => some es
  | _ => none

/-- An integer in a group. -/
def int? (s : Setting D) (name : String) : Option ℤ := (s.get? name).bind toInt?

/-- A float in a group. -/
def float? (s : Setting D) (name : String) : Option D := (s.get? name).bind toFloat?

/-- An array of integers in a group. -/
def ints? (s : Setting D) (name : String) : Option (List ℤ) :=
  ((s.get? name).bind elems?).bind (List.mapM toInt?)

/-- Writing a tree and reading it back. -/
structure Reread (D : Type) where
  apply : Setting D → Setting D
  float : D → D
  apply_int : ∀ n, apply (.int n) = .int n
  apply_float : ∀ x, apply (.float x) = .float (float x)
  apply_array : ∀ es, apply (.array es) = .array (es.map apply)
  apply_list : ∀ es, apply (.list es) = .list (es.map apply)
  apply_group : ∀ fields, apply (.group fields) = .group (fields.map fun f => (f.1, apply f.2))

/-- A file that loses nothing. -/
def Reread.exact (D : Type) : Reread D where
  apply s := s
  float x := x
  apply_int _ := rfl
  apply_float _ := rfl
  apply_array es := by rw [List.map_id']
  apply_list es := by rw [List.map_id']
  apply_group fields := by rw [List.map_id']

variable (L : Reread D)

theorem Reread.get?_group (fields : List (String × Setting D)) (name : String) :
    (L.apply (.group fields)).get? name = (fields.lookup name).map L.apply := by
  rw [L.apply_group, get?]
  induction fields with
  | nil => rfl
  | cons f fields ih =>
    rw [List.map_cons, List.lookup_cons, List.lookup_cons]
    cases name == f.1
    · exact ih
    · rfl

theorem Reread.int?_group {fields : List (String × Setting D)} {name : String} {n : ℤ}
    (h : fields.lookup name = some (.int n)) : (L.apply (.group fields)).int? name = some n := by
  rw [int?, L.get?_group, h, Option.map_some, L.apply_int]
  rfl

theorem Reread.float?_group {fields : List (String × Setting D)} {name : String} {x : D}
    (h : fields.lookup name = some (.float x)) :
    (L.apply (.group fields)).float? name = some (L.float x) := by
  rw [float?, L.get?_group, h, Option.map_some, L.apply_float]
  rfl

theorem mapM_toInt? (f : Setting D → Setting D) (hf : ∀ n, f (.int n) = .int n) (ns : List ℤ) :
    ((ns.map Setting.int).map f).mapM toInt? = some ns := by
  induction ns with
  | nil => rfl
  | cons n ns ih =>
    rw [List.map_cons, List.map_cons, List.mapM_cons, ih, hf]
    rfl

theorem Reread.ints?_group {fields : List (String × Setting D)} {name : String} {ns : List ℤ}
    (h : fields.lookup name = some (.array (ns.map .int))) :
    (L.apply (.group fields)).ints? name = some ns := by
  rw [ints?, L.get?_group, h, Option.map_some, L.apply_array]
  exact mapM_toInt? L.apply L.apply_int ns

theorem Reread.elems?_group {fields : List (String × Setting D)} {name : String} {es : List (Setting D)}
    (h : fields.lookup name = some (.list es)) :
    ((L.apply (.group fields)).get? name).bind elems? = some (es.map L.apply) := by
  rw [L.get?_group, h, Option.map_some, L.apply_list]
  rfl

/-- A reader that accepts every element of a list. -/
theorem exists_mapM {α β : Type} {read : α → Option β} {R : α → β → Prop} (xs : List α)
    (h : ∀ x ∈ xs, ∃ y, read x = some y ∧ R x y) :
    ∃ ys, xs.mapM read = some ys ∧ List.Forall₂ R xs ys := by
  induction xs with
  | nil => exact ⟨[], rfl, .nil⟩
  | cons x xs ih =>
    obtain ⟨⟨y, hy, hR⟩, hxs⟩ := List.forall_mem_cons.mp h
    obtain ⟨ys, hys, hRs⟩ := ih hxs
    refine ⟨y :: ys, ?_, .cons hR hRs⟩
    rw [List.mapM_cons, hy, hys]
    rfl

/-- Reading every element of a list of written ones. -/
theorem mapM_reread {α β : Type} {write : α → Setting D} {read : Setting D → Option β} {R : α → β → Prop}
    (xs : List α) (h : ∀ x ∈ xs, ∃ y, read (L.apply (write x)) = some y ∧ R x y) :
    ∃ ys, ((xs.map write).map L.apply).mapM read = some ys ∧ List.Forall₂ R xs ys := by
  rw [List.map_map, List.mapM_map]
  exact exists_mapM xs h

end Setting
