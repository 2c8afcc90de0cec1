import Inconcretes.Lib.Versions
import Std.Data.TreeMap.Lemmas

/-!
# Ordered maps filled by loops

A loop over a list that inserts leaves the last value of each key (`getElem?_foldl_insert`). A loop that
appends to lists leaves under each key the entries of the list that belong to it, in order, and nothing
where there are none (`getElem?_foldl_pushBack`), also when the keys are looked up and each must be there
(`getD_foldlM_pushBack`). A loop that erases leaves the other keys (`mem_foldl_erase`).
-/

namespace OrderedMap

open Std

variable {κ α β : Type} [Ord κ]

/-- `m[k].push_back(x)`, with an empty list where `k` is absent. -/
def pushBack (m : TreeMap κ (List β)) (k : κ) (x : β) : TreeMap κ (List β) :=
  m.alter k fun xs => some (xs.getD [] ++ [x])

/-- A loop that looks the keys up has a result when it finds all of them. -/
theorem exists_foldlM_pushBack (key : α → Option κ) (val : α → β) (xs : List α) :
    (∃ m, xs.foldlM (fun m x => do return pushBack m (← key x) (val x)) ∅ = some m)
      ↔ ∀ x ∈ xs, (key x).isSome := by
  suffices h : ∀ m : TreeMap κ (List β),
      (∃ m', xs.foldlM (fun m x => do return pushBack m (← key x) (val x)) m = some m')
        ↔ ∀ x ∈ xs, (key x).isSome from h ∅
  induction xs with
  | nil => exact fun m => iff_of_true ⟨m, rfl⟩ nofun
  | cons x xs ih =>
    intro m
    rw [List.foldlM_cons, List.forall_mem_cons]
    cases hkey : key x with
    | none => exact iff_of_false (fun ⟨_, h⟩ => Option.some_ne_none _ h.symm) fun h => Bool.false_ne_true h.1
    | some k => exact (ih (pushBack m k (val x))).trans (and_iff_right rfl).symm

variable [TransOrd κ] [LawfulEqOrd κ] [DecidableEq κ]

theorem getElem?_pushBack (m : TreeMap κ (List β)) (k : κ) (x : β) (k' : κ) :
    (pushBack m k x)[k']? = if k = k' then some (m[k]?.getD [] ++ [x]) else m[k']? := by
  rw [pushBack, TreeMap.getElem?_alter]
  simp only [LawfulEqOrd.compare_eq_iff_eq]

/-- The values of each key, in order. -/
theorem getElem?_foldl_pushBack (key : α → κ) (val : α → β) (xs : List α) (k : κ) :
    (xs.foldl (fun m x => pushBack m (key x) (val x)) (∅ : TreeMap κ (List β)))[k]?
      = if xs.filter (key · = k) = [] then none else some ((xs.filter (key · = k)).map val) := by
  induction xs using List.reverseRecOn with
  | nil => simp
  | append_singleton xs x ih =>
    rw [List.foldl_append, List.foldl_cons, List.foldl_nil, getElem?_pushBack, List.filter_append]
    by_cases hkey : key x = k
    · have hvalues : (if xs.filter (key · = k) = [] then none
          else some ((xs.filter (key · = k)).map val)).getD [] = (xs.filter (key · = k)).map val := by
        split_ifs with hnil
        · rw [hnil]
          rfl
        · rfl
      rw [if_pos hkey, hkey, ih, hvalues, List.filter_cons_of_pos (by simpa using hkey), List.filter_nil,
        if_neg (by simp), List.map_append, List.map_singleton]
    · rw [if_neg hkey, ih, List.filter_cons_of_neg (by simpa using hkey), List.filter_nil,
        List.append_nil]

theorem getD_pushBack (m : TreeMap κ (List β)) (k : κ) (x : β) (k' : κ) :
    (pushBack m k x).getD k' [] = if k = k' then m.getD k' [] ++ [x] else m.getD k' [] := by
  rw [TreeMap.getD_eq_getD_getElem?, TreeMap.getD_eq_getD_getElem?, getElem?_pushBack]
  split_ifs with hkey
  · rw [hkey, Option.getD_some]
  · rfl

/-- The values of each key, in order. -/
theorem getD_foldlM_pushBack {key : α → Option κ} {val : α → β} {xs : List α} {m : TreeMap κ (List β)}
    (h : xs.foldlM (fun m x => do return pushBack m (← key x) (val x)) ∅ = some m) (k : κ) :
    m.getD k [] = (xs.filter (key · = some k)).map val := by
  suffices hsuff : ∀ m₀ : TreeMap κ (List β),
      xs.foldlM (fun m x => do return pushBack m (← key x) (val x)) m₀ = some m →
        m.getD k [] = m₀.getD k [] ++ (xs.filter (key · = some k)).map val by
    rw [hsuff ∅ h, TreeMap.getD_emptyc, List.nil_append]
  clear h
  induction xs with
  | nil =>
    intro m₀ h
    rw [Option.some.inj h, List.filter_nil, List.map_nil, List.append_nil]
  | cons x xs ih =>
    intro m₀ h
    rw [List.foldlM_cons] at h
    obtain ⟨m₁, hm₁, hrest⟩ := Option.bind_eq_some_iff.mp h
    obtain ⟨k', hkey, hm₁⟩ := Option.bind_eq_some_iff.mp hm₁
    obtain rfl := Option.some.inj hm₁
    rw [ih _ hrest, getD_pushBack]
    by_cases hk : k' = k
    · rw [if_pos hk, List.filter_cons_of_pos (by simp [hkey, hk]), List.map_cons, List.append_assoc]
      rfl
    · rw [if_neg hk, List.filter_cons_of_neg (by simp [hkey, hk])]

omit [DecidableEq κ] in
theorem mem_map_insert {m : TreeMap κ β} {k k' : κ} {x : β} : k' ∈ m.insert k x ↔ k = k' ∨ k' ∈ m := by
  rw [TreeMap.mem_insert, LawfulEqOrd.compare_eq_iff_eq]

omit [DecidableEq κ] in
theorem mem_set_insert {s : TreeSet κ} {k k' : κ} : k' ∈ s.insert k ↔ k = k' ∨ k' ∈ s := by
  rw [TreeSet.mem_insert, LawfulEqOrd.compare_eq_iff_eq]

theorem getElem?_insert (m : TreeMap κ β) (k : κ) (x : β) (k' : κ) :
    (m.insert k x)[k']? = if k = k' then some x else m[k']? := by
  rw [TreeMap.getElem?_insert]
  simp only [LawfulEqOrd.compare_eq_iff_eq]

theorem getElem?_foldl_insert (key : α → κ) (val : α → β) (xs : List α) (k : κ) :
    (xs.foldl (fun m x => m.insert (key x) (val x)) (∅ : TreeMap κ β))[k]?
      = ((xs.filter (key · = k)).getLast?).map val :=
  Versions.get_foldl_put (fun m k => m[k]?) (fun m x => m.insert (key x) (val x)) key val
    (fun _ => TreeMap.getElem?_emptyc) (fun x _ m k => getElem?_insert m (key x) (val x) k) k

theorem mem_foldl_insert {key : α → κ} {val : α → β} {xs : List α} {k : κ} :
    k ∈ xs.foldl (fun m x => m.insert (key x) (val x)) (∅ : TreeMap κ β) ↔ ∃ x ∈ xs, key x = k := by
  rw [TreeMap.mem_iff_isSome_getElem?, getElem?_foldl_insert, Option.isSome_map, List.getLast?_isSome]
  rw [Ne, List.filter_eq_nil_iff]
  simp

omit [DecidableEq κ] in
theorem mem_foldl_erase {m : TreeMap κ β} {ks : List κ} {k : κ} :
    k ∈ ks.foldl (fun m k => m.erase k) m ↔ k ∈ m ∧ k ∉ ks := by
  induction ks generalizing m with
  | nil => simp
  | cons k' ks ih =>
    rw [List.foldl_cons, ih, TreeMap.mem_erase, Ne, LawfulEqOrd.compare_eq_iff_eq, List.mem_cons, not_or,
      eq_comm]
    tauto

end OrderedMap
