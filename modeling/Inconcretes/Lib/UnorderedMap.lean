import Mathlib.Data.List.AList

/-!
# Hash maps with an unspecified iteration order

A hash map is an association list with pairwise distinct keys. The order in which a loop visits its
entries is not specified, so a program that iterates over one is modelled with an `IterOrder`: any
function that lists the entries of a map, each once. A result that holds for every `IterOrder` holds
for every layout of the buckets.
-/

/-- A hash map from `κ` to `α`. -/
abbrev UMap (κ α : Type*) := AList (fun _ : κ => α)

/-- One way of walking over the entries of hash maps. -/
structure IterOrder (κ α : Type*) where
  visit : UMap κ α → List (Σ _ : κ, α)
  perm : ∀ m, (visit m).Perm m.entries

namespace UMap

variable {κ α ι : Type*} [DecidableEq κ]

/-- Update the entry of `k` from its old value, `none` when there is none. -/
def upsert (m : UMap κ α) (k : κ) (f : Option α → α) : UMap κ α :=
  m.insert k (f (m.lookup k))

theorem lookup_upsert (m : UMap κ α) (k k' : κ) (f : Option α → α) :
    (m.upsert k f).lookup k' = if k = k' then some (f (m.lookup k')) else m.lookup k' := by
  unfold upsert
  by_cases h : k = k'
  · subst h
    rw [if_pos rfl, AList.lookup_insert]
  · rw [if_neg h, AList.lookup_insert_ne (Ne.symm h)]

/-- A loop of updates changes the entry of `k` by the elements that have this key, and by no others. -/
theorem lookup_foldl_upsert (key : ι → κ) (f : ι → Option α → α) (xs : List ι) (m : UMap κ α)
    (k : κ) :
    (xs.foldl (fun m x => m.upsert (key x) (f x)) m).lookup k
      = (xs.filter (key · = k)).foldl (fun o x => some (f x o)) (m.lookup k) := by
  induction xs generalizing m with
  | nil => rfl
  | cons x xs ih =>
    rw [List.foldl_cons, ih, lookup_upsert]
    by_cases h : key x = k
    · rw [if_pos h, List.filter_cons_of_pos (by simpa using h), List.foldl_cons]
    · rw [if_neg h, List.filter_cons_of_neg (by simpa using h)]

/-- Counting updates leave the number of elements of each key that occurs. -/
theorem lookup_foldl_count (key : ι → κ) (xs : List ι) (k : κ) :
    (xs.foldl (fun (m : UMap κ ℕ) x => m.upsert (key x) (fun o => o.getD 0 + 1)) ∅).lookup k
      = if xs.countP (key · = k) = 0 then none else some (xs.countP (key · = k)) := by
  have hcount : ∀ (ys : List ι) (o : Option ℕ),
      ys.foldl (fun o _ => some (o.getD 0 + 1)) o
        = if ys.length = 0 then o else some (o.getD 0 + ys.length) := by
    intro ys
    induction ys with
    | nil => intro o; rfl
    | cons y ys ih =>
      intro o
      rw [List.foldl_cons, ih, List.length_cons]
      rcases Nat.eq_zero_or_pos ys.length with h0 | hpos
      · rw [if_pos h0, if_neg (by omega), h0]
      · rw [if_neg (by omega), if_neg (by omega), Option.getD_some]
        congr 1
        omega
  rw [lookup_foldl_upsert key (fun _ o => o.getD 0 + 1), hcount, AList.lookup_empty,
    List.countP_eq_length_filter, Option.getD_none, Nat.zero_add]

/-- Overwriting updates leave the value of the last element of each key. -/
theorem lookup_foldl_last (key : ι → κ) (val : ι → α) (xs : List ι) (m : UMap κ α) (k : κ) :
    (xs.foldl (fun m x => m.upsert (key x) (fun _ => val x)) m).lookup k
      = (((xs.filter (key · = k)).getLast?).map val).or (m.lookup k) := by
  have hlast : ∀ (ys : List ι) (o : Option α),
      ys.foldl (fun _ x => some (val x)) o = (ys.getLast?.map val).or o := by
    intro ys
    induction ys with
    | nil => intro o; rfl
    | cons y ys ih =>
      intro o
      rw [List.foldl_cons, ih]
      cases ys with
      | nil => rfl
      | cons z zs => rw [List.getLast?_cons_cons, List.getLast?_eq_some_getLast (by simp)]; rfl
  rw [lookup_foldl_upsert key (fun x _ => val x), hlast]

end UMap

namespace IterOrder

variable {κ α : Type*} (o : IterOrder κ α)

/-- The order in which the entries were inserted, newest first: one admissible order. -/
def newestFirst (κ α : Type*) : IterOrder κ α := ⟨AList.entries, fun _ => List.Perm.refl _⟩

/-- The entry of `k` first, when there is one. -/
def keyFirst [DecidableEq κ] (α : Type*) (k : κ) : IterOrder κ α where
  visit m := m.entries.filter (·.1 = k) ++ m.entries.filter (¬ ·.1 = k)
  perm m := by
    simp only [decide_not]
    exact List.filter_append_perm _ _

theorem mem_visit [DecidableEq κ] {m : UMap κ α} {e : Σ _ : κ, α} :
    e ∈ o.visit m ↔ m.lookup e.1 = some e.2 := by
  rw [(o.perm m).mem_iff]
  exact AList.mem_lookup_iff.symm

theorem mem_visit_keys [DecidableEq κ] {m : UMap κ α} {k : κ} :
    k ∈ (o.visit m).map Sigma.fst ↔ (m.lookup k).isSome := by
  rw [((o.perm m).map Sigma.fst).mem_iff, Option.isSome_iff_ne_none, ne_eq, AList.lookup_eq_none,
    not_not]
  rfl

/-- No key is visited twice. -/
theorem visit_keys_nodup (m : UMap κ α) : ((o.visit m).map Sigma.fst).Nodup :=
  ((o.perm m).map Sigma.fst).nodup_iff.mpr m.keys_nodup

theorem keyFirst_visit [DecidableEq κ] {m : UMap κ α} {k : κ} {a : α} (h : m.lookup k = some a) :
    ∃ es, (keyFirst α k).visit m = ⟨k, a⟩ :: es := by
  have hmem : (⟨k, a⟩ : Σ _ : κ, α) ∈ m.entries.filter (·.1 = k) :=
    List.mem_filter.mpr ⟨AList.mem_lookup_iff.mp h, by simp⟩
  obtain ⟨e, es, hes⟩ := List.exists_cons_of_ne_nil (List.ne_nil_of_mem hmem)
  have he := List.mem_filter.mp (hes ▸ List.mem_cons_self : e ∈ m.entries.filter (·.1 = k))
  have hlookup : m.lookup k = some e.2 := by
    have hkey : e.1 = k := by simpa using he.2
    rw [← hkey]
    exact AList.mem_lookup_iff.mpr he.1
  rw [h, Option.some.injEq] at hlookup
  refine ⟨es ++ m.entries.filter (¬ ·.1 = k), ?_⟩
  show m.entries.filter (·.1 = k) ++ _ = _
  rw [hes, List.cons_append, hlookup, ← (by simpa using he.2 : e.1 = k)]

/-- The values of a map that has what `f` makes of the `i`-th element under `i`. -/
theorem visit_perm_filterMap {γ : Type*} (o : IterOrder ℕ α) {m : UMap ℕ α} {xs : List γ} {f : γ → Option α}
    (h : ∀ i, m.lookup i = (xs[i]?).bind f) : ((o.visit m).map Sigma.snd).Perm (xs.filterMap f) := by
  have hnodup : (xs.zipIdx.filterMap fun x => (f x.1).map fun a => (⟨x.2, a⟩ : Σ _ : ℕ, α)).Nodup := by
    have hidx : (xs.zipIdx.map Prod.snd).Nodup := by
      rw [List.zipIdx_map_snd]
      exact List.nodup_range'
    refine (List.pairwise_map.mp hidx).filterMap _ fun x x' hne e he e' he' heq => hne ?_
    obtain ⟨a, -, rfl⟩ := Option.map_eq_some_iff.mp he
    obtain ⟨a', -, rfl⟩ := Option.map_eq_some_iff.mp he'
    exact (Sigma.mk.inj heq).1
  have hperm : (o.visit m).Perm (xs.zipIdx.filterMap fun x => (f x.1).map fun a => (⟨x.2, a⟩ : Σ _ : ℕ, α)) := by
    refine (List.perm_ext_iff_of_nodup ((o.visit_keys_nodup m).of_map) hnodup).mpr fun e => ?_
    rw [o.mem_visit, h, Option.bind_eq_some_iff, List.mem_filterMap]
    constructor
    · rintro ⟨x, hx, ha⟩
      exact ⟨(x, e.1), List.mk_mem_zipIdx_iff_getElem?.mpr hx, by rw [ha]; rfl⟩
    · rintro ⟨x, hx, he⟩
      obtain ⟨a, ha, rfl⟩ := Option.map_eq_some_iff.mp he
      exact ⟨x.1, List.mk_mem_zipIdx_iff_getElem?.mp hx, ha⟩
  refine (hperm.map Sigma.snd).trans (List.Perm.of_eq ?_)
  have hvalue : (fun x : γ × ℕ => ((f x.1).map fun a => (⟨x.2, a⟩ : Σ _ : ℕ, α)).map Sigma.snd) = f ∘ Prod.fst := by
    funext x
    rw [Option.map_map, Function.comp_apply]
    exact Option.map_id'
  rw [List.map_filterMap, hvalue, ← List.filterMap_map, List.zipIdx_map_fst]

end IterOrder
