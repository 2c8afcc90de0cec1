import Mathlib.Data.Finset.Card
import Mathlib.Data.List.Perm.Basic
import Mathlib.Order.Basic

/-!
# Ordered maps that keep their greatest keys

A map is a list of entries with strictly decreasing keys. `TopMap cap` is such a map with at most `cap`
entries: after an insertion that makes it longer, its last entry, the one with the least key, is
dropped. The point of the module is that dropping early loses nothing: any sequence of insertions
leaves the `cap` greatest keys of the unbounded map (`TopMap.entries_putAll`), hence the last value put
under a key for as long as fewer than `cap` greater keys were ever put (`TopMap.get?_putAll_empty`).
-/

namespace Desc

variable {κ α : Type*} [LinearOrder κ]

/-- The entries are listed by strictly decreasing key. -/
abbrev Sorted (es : List (κ × α)) : Prop := es.Pairwise (fun e e' => e'.1 < e.1)

/-- Insert an entry at its place, over the old entry of the same key. -/
def insertEntry (t : κ) (v : α) : List (κ × α) → List (κ × α)
  | [] => [(t, v)]
  | e :: es =>
    if e.1 < t then (t, v) :: e :: es
    else if e.1 = t then (t, v) :: es
    else e :: insertEntry t v es

/-- The value under the key `t`. -/
def get? (t : κ) (es : List (κ × α)) : Option α := (es.find? (·.1 = t)).map Prod.snd

theorem mem_insertEntry {t : κ} {v : α} {es : List (κ × α)} (hs : Sorted es) {e : κ × α} :
    e ∈ insertEntry t v es ↔ e = (t, v) ∨ e ∈ es ∧ e.1 ≠ t := by
  induction es with
  | nil => simp [insertEntry]
  | cons a es ih =>
    obtain ⟨ha, hs⟩ := List.pairwise_cons.mp hs
    unfold insertEntry
    by_cases hlt : a.1 < t
    · -- every key of the list is below `t`
      have hne : ∀ b ∈ a :: es, b.1 ≠ t := by
        intro b hb
        rcases List.mem_cons.mp hb with rfl | hb
        · exact ne_of_lt hlt
        · exact ne_of_lt ((ha b hb).trans hlt)
      rw [if_pos hlt, List.mem_cons]
      exact or_congr_right ⟨fun h => ⟨h, hne e h⟩, And.left⟩
    · rw [if_neg hlt]
      by_cases heq : a.1 = t
      · rw [if_pos heq, List.mem_cons, List.mem_cons]
        refine or_congr_right ⟨fun h => ⟨Or.inr h, heq ▸ ne_of_lt (ha e h)⟩, ?_⟩
        rintro ⟨rfl | h, hne⟩
        · exact absurd heq hne
        · exact h
      · rw [if_neg heq, List.mem_cons, ih hs, List.mem_cons]
        constructor
        · rintro (rfl | h | ⟨h, hne⟩)
          · exact Or.inr ⟨Or.inl rfl, heq⟩
          · exact Or.inl h
          · exact Or.inr ⟨Or.inr h, hne⟩
        · rintro (h | ⟨h | h, hne⟩)
          · exact Or.inr (Or.inl h)
          · exact Or.inl h
          · exact Or.inr (Or.inr ⟨h, hne⟩)

theorem sorted_insertEntry {t : κ} {v : α} {es : List (κ × α)} (hs : Sorted es) :
    Sorted (insertEntry t v es) := by
  induction es with
  | nil => simp [insertEntry, Sorted]
  | cons a es ih =>
    obtain ⟨ha, hs'⟩ := List.pairwise_cons.mp hs
    unfold insertEntry
    by_cases hlt : a.1 < t
    · rw [if_pos hlt]
      refine List.pairwise_cons.mpr ⟨fun b hb => ?_, hs⟩
      rcases List.mem_cons.mp hb with rfl | hb
      · exact hlt
      · exact (ha b hb).trans hlt
    · rw [if_neg hlt]
      by_cases heq : a.1 = t
      · rw [if_pos heq]
        exact List.pairwise_cons.mpr ⟨fun b hb => heq ▸ ha b hb, hs'⟩
      · rw [if_neg heq]
        refine List.pairwise_cons.mpr ⟨fun b hb => ?_, ih hs'⟩
        rcases (mem_insertEntry hs').mp hb with rfl | ⟨hb, -⟩
        · exact lt_of_le_of_ne (not_lt.mp hlt) (Ne.symm heq)
        · exact ha b hb

/-- Only the `n` greatest entries matter for the `n` greatest entries after an insertion. -/
theorem take_insertEntry (t : κ) (v : α) (es : List (κ × α)) (n : ℕ) :
    (insertEntry t v (es.take n)).take n = (insertEntry t v es).take n := by
  induction es generalizing n with
  | nil => rw [List.take_nil]
  | cons a es ih =>
    cases n with
    | zero => rw [List.take_zero, List.take_zero]
    | succ n =>
      rw [List.take_succ_cons]
      unfold insertEntry
      by_cases hlt : a.1 < t
      · rw [if_pos hlt, if_pos hlt, List.take_succ_cons, List.take_succ_cons]
        cases n with
        | zero => rfl
        | succ n => rw [List.take_succ_cons, List.take_succ_cons, List.take_take, min_eq_left (by omega)]
      · rw [if_neg hlt, if_neg hlt]
        by_cases heq : a.1 = t
        · rw [if_pos heq, if_pos heq, List.take_succ_cons, List.take_succ_cons, List.take_take, min_self]
        · rw [if_neg heq, if_neg heq, List.take_succ_cons, List.take_succ_cons, ih]

theorem length_insertEntry_le (t : κ) (v : α) (es : List (κ × α)) :
    (insertEntry t v es).length ≤ es.length + 1 := by
  induction es with
  | nil => simp [insertEntry]
  | cons a es ih =>
    unfold insertEntry
    split
    · simp
    · split
      · simp
      · simpa using ih

theorem key_unique {es : List (κ × α)} (hs : Sorted es) {e e' : κ × α} (he : e ∈ es) (he' : e' ∈ es)
    (h : e.1 = e'.1) : e = e' := by
  induction es with
  | nil => exact absurd he List.not_mem_nil
  | cons a es ih =>
    obtain ⟨ha, hs⟩ := List.pairwise_cons.mp hs
    rcases List.mem_cons.mp he with hea | hmem <;> rcases List.mem_cons.mp he' with hea' | hmem'
    · rw [hea, hea']
    · exact absurd (hea ▸ h) (ne_of_gt (ha _ hmem'))
    · exact absurd (hea' ▸ h) (ne_of_lt (ha _ hmem))
    · exact ih hs hmem hmem'

theorem get?_eq_some {es : List (κ × α)} (hs : Sorted es) {t : κ} {v : α} :
    get? t es = some v ↔ (t, v) ∈ es := by
  unfold get?
  rw [Option.map_eq_some_iff]
  constructor
  · rintro ⟨e, he, rfl⟩
    have hkey : e.1 = t := by simpa using List.find?_some he
    rw [← hkey]
    exact List.mem_of_find?_eq_some he
  · intro hmem
    have hsome : (es.find? (·.1 = t)).isSome := by
      rw [List.find?_isSome]
      exact ⟨(t, v), hmem, by simp⟩
    obtain ⟨e, he⟩ := Option.isSome_iff_exists.mp hsome
    have hkey : e.1 = t := by simpa using List.find?_some he
    have : e = (t, v) := key_unique hs (List.mem_of_find?_eq_some he) hmem hkey
    exact ⟨e, he, by rw [this]⟩

/-- Sorted lists with the same values are equal. -/
theorem eq_of_get? {es es' : List (κ × α)} (hs : Sorted es) (hs' : Sorted es')
    (h : ∀ t, get? t es = get? t es') : es = es' := by
  have hanti : ∀ {l : List (κ × α)}, Sorted l → l.Nodup := fun hl =>
    hl.imp fun hlt heq => absurd (heq ▸ hlt) (lt_irrefl _)
  have hmem : ∀ e, e ∈ es ↔ e ∈ es' := by
    rintro ⟨t, v⟩
    rw [← get?_eq_some hs, ← get?_eq_some hs', h t]
  have hperm : es.Perm es' := (List.perm_ext_iff_of_nodup (hanti hs) (hanti hs')).mpr hmem
  refine hperm.eq_of_pairwise ?_ hs hs'
  intro a b _ _ hab hba
  exact absurd (hab.trans hba) (lt_irrefl _)

theorem get?_insertEntry {t t' : κ} {v : α} {es : List (κ × α)} (hs : Sorted es) :
    get? t' (insertEntry t v es) = if t = t' then some v else get? t' es := by
  by_cases h : t = t'
  · subst h
    rw [if_pos rfl, get?_eq_some (sorted_insertEntry hs), mem_insertEntry hs]
    exact Or.inl rfl
  · rw [if_neg h]
    apply Option.ext
    intro w
    rw [get?_eq_some (sorted_insertEntry hs), get?_eq_some hs, mem_insertEntry hs]
    constructor
    · rintro (heq | ⟨hw, -⟩)
      · exact absurd (Prod.ext_iff.mp heq).1.symm h
      · exact hw
    · exact fun hw => Or.inr ⟨hw, Ne.symm h⟩

/-- The rank of a key decides whether it is among the `n` greatest. -/
theorem get?_take {es : List (κ × α)} (hs : Sorted es) (t : κ) (n : ℕ) :
    get? t (es.take n) = if es.countP (t < ·.1) < n then get? t es else none := by
  induction es generalizing n with
  | nil => rw [List.take_nil, get?, List.find?_nil, Option.map_none, ite_self]
  | cons a es ih =>
    obtain ⟨ha, hs⟩ := List.pairwise_cons.mp hs
    cases n with
    | zero => simp [get?]
    | succ n =>
      rw [List.take_succ_cons, List.countP_cons]
      by_cases heq : a.1 = t
      · have hzero : es.countP (t < ·.1) = 0 := by
          rw [List.countP_eq_zero]
          intro b hb
          simpa [← heq] using (ha b hb).le
        simp [get?, heq, hzero]
      · have hstep : ∀ l : List (κ × α), get? t (a :: l) = get? t l := by
          intro l
          simp [get?, heq]
        rw [hstep, hstep, ih hs]
        by_cases hlt : t < a.1
        · simp [hlt]
        · -- `t` is above every key that is left, so it is not there
          have hnone : get? t es = none := by
            rw [← Option.not_isSome_iff_eq_none]
            intro hsome
            obtain ⟨v, hv⟩ := Option.isSome_iff_exists.mp hsome
            exact hlt (ha _ ((get?_eq_some hs).mp hv))
          simp [hnone]

/-- If `n` keys lie above `t`, the `n` greatest entries do. -/
theorem le_countP_take {es : List (κ × α)} (hs : Sorted es) {t : κ} {n : ℕ}
    (h : n ≤ es.countP (t < ·.1)) : n ≤ (es.take n).countP (t < ·.1) := by
  induction es generalizing n with
  | nil => rwa [List.take_nil]
  | cons a es ih =>
    obtain ⟨ha, hs⟩ := List.pairwise_cons.mp hs
    cases n with
    | zero => exact Nat.zero_le _
    | succ n =>
      rw [List.countP_cons] at h
      by_cases hlt : t < a.1
      · rw [if_pos (by simpa using hlt)] at h
        rw [List.take_succ_cons, List.countP_cons, if_pos (by simpa using hlt)]
        exact Nat.succ_le_succ (ih hs (by omega))
      · -- nothing behind `a` lies above `t` either
        have hzero : es.countP (t < ·.1) = 0 := by
          rw [List.countP_eq_zero]
          intro b hb
          simpa using (ha b hb).le.trans (not_lt.mp hlt)
        rw [hzero, if_neg (by simpa using hlt)] at h
        omega

end Desc

/-- At most `cap` entries, listed by strictly decreasing key. -/
structure TopMap (cap : ℕ) (κ α : Type*) [LinearOrder κ] where
  entries : List (κ × α)
  sorted : Desc.Sorted entries
  length_le : entries.length ≤ cap

namespace TopMap

variable {cap : ℕ} {κ α : Type*} [LinearOrder κ]

@[ext] theorem ext {m m' : TopMap cap κ α} (h : m.entries = m'.entries) : m = m' := by
  cases m
  cases m'
  cases h
  rfl

def empty : TopMap cap κ α := ⟨[], List.Pairwise.nil, Nat.zero_le _⟩

def get? (m : TopMap cap κ α) (t : κ) : Option α := Desc.get? t m.entries

/-- Insert, then drop the last entry if there are too many. -/
def putEntries (cap : ℕ) (t : κ) (v : α) (es : List (κ × α)) : List (κ × α) :=
  if cap < (Desc.insertEntry t v es).length then (Desc.insertEntry t v es).dropLast
  else Desc.insertEntry t v es

theorem putEntries_eq_take {t : κ} {v : α} {es : List (κ × α)} (h : es.length ≤ cap) :
    putEntries cap t v es = (Desc.insertEntry t v es).take cap := by
  have hlen := Desc.length_insertEntry_le t v es
  unfold putEntries
  by_cases hcap : cap < (Desc.insertEntry t v es).length
  · rw [if_pos hcap, List.dropLast_eq_take]
    congr 1
    omega
  · rw [if_neg hcap, List.take_of_length_le (by omega)]

def put (m : TopMap cap κ α) (t : κ) (v : α) : TopMap cap κ α where
  entries := putEntries cap t v m.entries
  sorted := by
    rw [putEntries_eq_take m.length_le]
    exact (Desc.sorted_insertEntry m.sorted).sublist (List.take_sublist _ _)
  length_le := by
    rw [putEntries_eq_take m.length_le, List.length_take]
    exact min_le_left _ _

def putAll (m : TopMap cap κ α) (cs : List (κ × α)) : TopMap cap κ α :=
  cs.foldl (fun m c => m.put c.1 c.2) m

theorem putAll_append (m : TopMap cap κ α) (cs cs' : List (κ × α)) :
    m.putAll (cs ++ cs') = (m.putAll cs).putAll cs' := List.foldl_append

/-- The unbounded map that the same insertions build. -/
def unbounded (es cs : List (κ × α)) : List (κ × α) :=
  cs.foldl (fun es c => Desc.insertEntry c.1 c.2 es) es

theorem sorted_unbounded {es : List (κ × α)} (hs : Desc.Sorted es) (cs : List (κ × α)) :
    Desc.Sorted (unbounded es cs) := by
  induction cs generalizing es with
  | nil => exact hs
  | cons c cs ih => exact ih (Desc.sorted_insertEntry hs)

theorem take_unbounded (es cs : List (κ × α)) (n : ℕ) :
    (unbounded (es.take n) cs).take n = (unbounded es cs).take n := by
  induction cs generalizing es with
  | nil => rw [unbounded, unbounded, List.foldl_nil, List.foldl_nil, List.take_take, min_self]
  | cons c cs ih =>
    have hhead := ih (Desc.insertEntry c.1 c.2 (es.take n))
    rw [Desc.take_insertEntry, ih] at hhead
    exact hhead.symm

/-- **Eviction loses nothing**: the bounded map is the top of the unbounded one. -/
theorem entries_putAll (m : TopMap cap κ α) (cs : List (κ × α)) :
    (m.putAll cs).entries = (unbounded m.entries cs).take cap := by
  induction cs generalizing m with
  | nil => exact (List.take_of_length_le m.length_le).symm
  | cons c cs ih =>
    have hput : (m.put c.1 c.2).entries = (Desc.insertEntry c.1 c.2 m.entries).take cap :=
      putEntries_eq_take m.length_le
    rw [putAll, List.foldl_cons, ← putAll, ih, hput, take_unbounded]
    rfl

/-- The value under a key of the unbounded map is the one put last. -/
theorem get?_unbounded {es : List (κ × α)} (hs : Desc.Sorted es) (cs : List (κ × α)) (t : κ) :
    Desc.get? t (unbounded es cs)
      = (((cs.filter (·.1 = t)).getLast?).map Prod.snd).or (Desc.get? t es) := by
  induction cs generalizing es with
  | nil => rfl
  | cons c cs ih =>
    rw [unbounded, List.foldl_cons, ← unbounded, ih (Desc.sorted_insertEntry hs),
      Desc.get?_insertEntry hs]
    by_cases h : c.1 = t
    · rw [if_pos h, List.filter_cons_of_pos (by simpa using h)]
      cases hlast : (cs.filter (·.1 = t)).getLast? with
      | none => simp [List.getLast?_eq_none_iff.mp hlast]
      | some e => simp [List.getLast?_cons, hlast]
    · rw [if_neg h, List.filter_cons_of_neg (by simpa using h)]

/-- Insertions under pairwise distinct keys commute. -/
theorem putAll_perm (m : TopMap cap κ α) {cs cs' : List (κ × α)} (hperm : cs.Perm cs')
    (hnodup : (cs.map Prod.fst).Nodup) : m.putAll cs = m.putAll cs' := by
  apply ext
  rw [entries_putAll, entries_putAll]
  congr 1
  refine Desc.eq_of_get? (sorted_unbounded m.sorted _) (sorted_unbounded m.sorted _) fun t => ?_
  rw [get?_unbounded m.sorted, get?_unbounded m.sorted]
  congr 2
  -- at most one insertion has the key `t`
  have hfilter := hperm.filter (fun c : κ × α => decide (c.1 = t))
  have hshort : (cs.filter (fun c : κ × α => decide (c.1 = t))).length ≤ 1 := by
    rw [← List.countP_eq_length_filter]
    have := List.nodup_iff_count_le_one.mp hnodup t
    rw [List.count, List.countP_map] at this
    refine le_trans (le_of_eq (List.countP_congr fun c _ => ?_)) this
    simp
  match hcs : cs.filter (fun c : κ × α => decide (c.1 = t)), hshort with
  | [], _ => rw [hcs] at hfilter; rw [List.nil_perm.mp hfilter]
  | [c], _ => rw [hcs] at hfilter; rw [List.singleton_perm.mp hfilter]

/-- An insertion under a key of its own survives the others, unless `cap` greater keys push it out. -/
theorem get?_putAll_of_mem (m : TopMap cap κ α) {cs : List (κ × α)} (hnodup : (cs.map Prod.fst).Nodup)
    {t : κ} {v : α} (hmem : (t, v) ∈ cs) :
    (m.putAll cs).get? t = some v ∨ cap ≤ (m.putAll cs).entries.countP (t < ·.1) := by
  have hs := sorted_unbounded m.sorted cs
  rw [get?, entries_putAll, Desc.get?_take hs]
  by_cases hroom : (unbounded m.entries cs).countP (t < ·.1) < cap
  · left
    have hlast : (cs.filter (·.1 = t)).getLast? = some (t, v) := by
      have hin : (t, v) ∈ cs.filter (·.1 = t) := List.mem_filter.mpr ⟨hmem, by simp⟩
      have hall : ∀ e ∈ cs.filter (·.1 = t), e = (t, v) := by
        intro e he
        obtain ⟨he, hkey⟩ := List.mem_filter.mp he
        exact List.inj_on_of_nodup_map hnodup he hmem (by simpa using hkey)
      rw [List.getLast?_eq_some_getLast (List.ne_nil_of_mem hin), hall _ (List.getLast_mem _)]
    rw [if_pos hroom, get?_unbounded m.sorted, hlast, Option.map_some, Option.some_or]
  · right
    exact Desc.le_countP_take hs (not_lt.mp hroom)

/-- Only the last value put under each key counts. -/
theorem putAll_congr (m : TopMap cap κ α) {cs cs' : List (κ × α)}
    (h : ∀ t, ((cs.filter (·.1 = t)).getLast?).map Prod.snd = ((cs'.filter (·.1 = t)).getLast?).map Prod.snd) :
    m.putAll cs = m.putAll cs' := by
  apply ext
  rw [entries_putAll, entries_putAll]
  congr 1
  refine Desc.eq_of_get? (sorted_unbounded m.sorted _) (sorted_unbounded m.sorted _) fun t => ?_
  rw [get?_unbounded m.sorted, get?_unbounded m.sorted, h t]

/-- Among distinct keys the last value is the only one. -/
theorem getLast?_filter_eq_some {cs : List (κ × α)} (hnodup : (cs.map Prod.fst).Nodup) {t : κ} {v : α} :
    ((cs.filter (·.1 = t)).getLast?).map Prod.snd = some v ↔ (t, v) ∈ cs := by
  rw [Option.map_eq_some_iff]
  constructor
  · rintro ⟨⟨t', v⟩, hlast, rfl⟩
    obtain ⟨hmem, hkey⟩ := List.mem_filter.mp (List.mem_of_getLast? hlast)
    obtain rfl : t' = t := by simpa using hkey
    exact hmem
  · intro hmem
    have hin : (t, v) ∈ cs.filter (·.1 = t) := List.mem_filter.mpr ⟨hmem, by simp⟩
    have hall : ∀ e ∈ cs.filter (·.1 = t), e = (t, v) := by
      intro e he
      obtain ⟨he, hkey⟩ := List.mem_filter.mp he
      exact List.inj_on_of_nodup_map hnodup he hmem (by simpa using hkey)
    exact ⟨(t, v), by rw [List.getLast?_eq_some_getLast (List.ne_nil_of_mem hin), hall _ (List.getLast_mem _)],
      rfl⟩

/-- The keys of the unbounded map that lie above `t`, counted. -/
theorem countP_unbounded (cs : List (κ × α)) (t : κ) :
    (unbounded [] cs).countP (t < ·.1) = ((cs.map Prod.fst).toFinset.filter (t < ·)).card := by
  have hs : Desc.Sorted (unbounded ([] : List (κ × α)) cs) := sorted_unbounded List.Pairwise.nil cs
  have hkeys : ∀ k, k ∈ (unbounded ([] : List (κ × α)) cs).map Prod.fst ↔ k ∈ cs.map Prod.fst := by
    intro k
    have hget := get?_unbounded (List.Pairwise.nil : Desc.Sorted ([] : List (κ × α))) cs k
    constructor
    · intro hk
      obtain ⟨⟨k', v⟩, he, rfl⟩ := List.mem_map.mp hk
      rw [(Desc.get?_eq_some hs).mpr he] at hget
      by_contra hno
      have hnil : cs.filter (·.1 = k') = [] := by
        refine List.filter_eq_nil_iff.mpr fun c hc heq => hno ?_
        exact List.mem_map.mpr ⟨c, hc, by simpa using heq⟩
      rw [hnil] at hget
      exact absurd hget (by simp [Desc.get?])
    · intro hk
      obtain ⟨c, hc, rfl⟩ := List.mem_map.mp hk
      have hmem : c ∈ cs.filter (·.1 = c.1) := List.mem_filter.mpr ⟨hc, by simp⟩
      rw [List.getLast?_eq_some_getLast (List.ne_nil_of_mem hmem), Option.map_some,
        Option.some_or] at hget
      exact List.mem_map.mpr ⟨_, (Desc.get?_eq_some hs).mp hget, rfl⟩
  have hnodup : ((unbounded ([] : List (κ × α)) cs).map Prod.fst).Nodup := by
    rw [List.Nodup, List.pairwise_map]
    exact hs.imp fun h => ne_of_gt h
  have hsets : (cs.map Prod.fst).toFinset
      = ((unbounded ([] : List (κ × α)) cs).map Prod.fst).toFinset := by
    ext k
    rw [List.mem_toFinset, List.mem_toFinset, hkeys k]
  have hfilter : (((unbounded ([] : List (κ × α)) cs).map Prod.fst).toFinset.filter (t < ·))
      = (((unbounded ([] : List (κ × α)) cs).map Prod.fst).filter (t < ·)).toFinset := by
    ext k
    simp
  rw [hsets, hfilter, List.toFinset_card_of_nodup (hnodup.filter _), List.filter_map,
    List.length_map, List.countP_eq_length_filter]
  rfl

/-- **The top view of a history of insertions.** From the empty map, a key has the value put last under
it as long as fewer than `cap` distinct greater keys were put, and none afterwards. -/
theorem get?_putAll_empty (cs : List (κ × α)) (t : κ) :
    ((empty : TopMap cap κ α).putAll cs).get? t
      = if ((cs.map Prod.fst).toFinset.filter (t < ·)).card < cap
        then ((cs.filter (·.1 = t)).getLast?).map Prod.snd else none := by
  have hnil : Desc.Sorted ([] : List (κ × α)) := List.Pairwise.nil
  rw [get?, entries_putAll, empty, Desc.get?_take (sorted_unbounded hnil cs), countP_unbounded,
    get?_unbounded hnil]
  simp [Desc.get?]

end TopMap
