import Inconcretes.BftKvs.Node
import Inconcretes.Lib.UnorderedMap
import Inconcretes.Lib.Versions
import Mathlib.Data.List.Nodup
import Mathlib.Data.List.Sort
import Mathlib.Data.Set.Finite.List

/-!
# The key-value store over Redis

`RedisKVS1` keeps the versions of a key in a sorted set whose members are the values and whose scores are
the publish times. A sorted set holds a member once, so writing a value again moves its only entry to the
new publish time and the earlier version is gone. Reads agree with a register of timestamped versions
exactly when no such version could still be asked for (`isRegister_iff`).

The server is a parameter: `Redis` has the two commands in use, with what their documentation says. Here
the scores are the publish times themselves.
-/

namespace Achal

/-- Sorted sets under keys. -/
structure Redis (Score : Type) [LinearOrder Score] where
  Db : Type
  empty : Db
  /-- The score of a member of a key. -/
  score : Db → Str → Str → Option Score
  zadd : Db → Str → Str → Score → Db
  /-- `ZRANGEBYSCORE key lo hi`, both ends included. -/
  zrangebyscore : Db → Str → Score → Score → List Str
  score_empty : ∀ key member, score empty key member = none
  score_zadd : ∀ db key member time key' member', score (zadd db key member time) key' member'
    = if key = key' ∧ member = member' then some time else score db key' member'
  mem_zrangebyscore : ∀ {db key lo hi member}, member ∈ zrangebyscore db key lo hi
    ↔ ∃ time, score db key member = some time ∧ lo ≤ time ∧ time ≤ hi
  zrangebyscore_ascending : ∀ db key lo hi, (zrangebyscore db key lo hi).Pairwise fun m m' =>
    ∀ time time', score db key m = some time → score db key m' = some time' → time ≤ time'

/-- A server whose sorted sets are one map from keys and members to scores. -/
def Redis.inMemory {Score : Type} [LinearOrder Score] : Redis Score where
  Db := UMap (Str × Str) Score
  empty := ∅
  score db key member := db.lookup (key, member)
  zadd db key member time := db.insert (key, member) time
  zrangebyscore db key lo hi :=
    ((db.entries.filter fun e => e.1.1 = key ∧ lo ≤ e.2 ∧ e.2 ≤ hi).insertionSort (·.2 ≤ ·.2)).map (·.1.2)
  score_empty _ _ := AList.lookup_empty _
  score_zadd db key member time key' member' := by
    by_cases h : (key, member) = (key', member')
    · rw [if_pos (Prod.mk.inj h), ← h, AList.lookup_insert]
    · rw [if_neg (fun h' => h (Prod.ext h'.1 h'.2)), AList.lookup_insert_ne (Ne.symm h)]
  mem_zrangebyscore {db key lo hi member} := by
    simp only [List.mem_map, List.mem_insertionSort, List.mem_filter, decide_eq_true_eq]
    constructor
    · rintro ⟨e, ⟨he, rfl, hlo, hhi⟩, rfl⟩
      exact ⟨e.2, AList.mem_lookup_iff.mpr he, hlo, hhi⟩
    · rintro ⟨time, hscore, hlo, hhi⟩
      exact ⟨⟨(key, member), time⟩, ⟨AList.mem_lookup_iff.mp hscore, rfl, hlo, hhi⟩, rfl⟩
  zrangebyscore_ascending db key lo hi := by
    rw [List.pairwise_map]
    have htotal : Std.Total fun e e' : Σ _ : Str × Str, Score => e.2 ≤ e'.2 :=
      ⟨fun e e' => le_total e.2 e'.2⟩
    have htrans : IsTrans (Σ _ : Str × Str, Score) fun e e' => e.2 ≤ e'.2 :=
      ⟨fun _ _ _ => le_trans⟩
    refine List.Pairwise.imp_of_mem ?_ (List.pairwise_insertionSort
      (fun e e' : Σ _ : Str × Str, Score => e.2 ≤ e'.2) _)
    intro e e' he he' hle time time' hscore hscore'
    simp only [List.mem_insertionSort, List.mem_filter, decide_eq_true_eq] at he he'
    obtain ⟨he, rfl, -⟩ := he
    obtain ⟨he', hkey, -⟩ := he'
    have hlookup := AList.mem_lookup_iff.mpr he
    have hlookup' := AList.mem_lookup_iff.mpr he'
    rw [← hkey] at hscore'
    rw [hscore] at hlookup
    rw [hscore'] at hlookup'
    rwa [Option.some.inj hlookup, Option.some.inj hlookup']

namespace RedisKVS1

open Versions

variable (R : Redis Uint64)

/-- `try_read(key, no_earlier_than, value)` when the clock shows `now`: what it returns, and `value`
afterwards. -/
def tryRead (db : R.Db) (key : Str) (noEarlierThan : Uint64) (value : Str) (now : Uint64) : Bool × Str :=
  if noEarlierThan > now then (false, value)
  else match (R.zrangebyscore db key noEarlierThan now).getLast? with
    | none => (false, value)
    | some last => (true, last)

/-- `try_write(key, publish_time, value)`. -/
def tryWrite (db : R.Db) (key : Str) (publishTime : Uint64) (value : Str) (now : Uint64) : Bool × R.Db :=
  if publishTime ≤ now then (false, db) else (true, R.zadd db key value publishTime)

/-- A call of `try_write` when the clock shows `now`. -/
structure Write where
  now : Uint64
  key : Str
  publishTime : Uint64
  value : Str
  deriving DecidableEq

/-- The sorted sets after a sequence of calls. -/
def writes (ws : List Write) : R.Db :=
  ws.foldl (fun db w => (tryWrite R db w.key w.publishTime w.value w.now).2) R.empty

/-- All calls returned true. -/
def Accepted (ws : List Write) : Prop := ∀ w ∈ ws, w.now < w.publishTime

/-- No key is written twice for the same time. -/
def DistinctTimes (ws : List Write) : Prop :=
  ws.Pairwise fun w w' => w.key = w'.key → w.publishTime ≠ w'.publishTime

variable {R} {ws : List Write}

/-- A member has the time of the last call that wrote it. -/
theorem score_writes (h : Accepted ws) (key value : Str) :
    R.score (writes R ws) key value
      = ((ws.filter fun w => w.key = key ∧ w.value = value).getLast?).map Write.publishTime := by
  have hlast := get_foldl_put (fun db (km : Str × Str) => R.score db km.1 km.2)
    (fun db w => (tryWrite R db w.key w.publishTime w.value w.now).2) (fun w => (w.key, w.value))
    Write.publishTime (fun km => R.score_empty km.1 km.2) (fun w hw db km => by
      rw [tryWrite, if_neg (not_le.mpr (h w hw)), R.score_zadd]
      exact if_congr (Prod.ext_iff (x := (w.key, w.value))).symm rfl rfl) (key, value)
  simp only [Prod.mk.injEq] at hlast
  exact hlast

/-- The entries of a sorted set are versions that were written. -/
theorem exists_of_score (h : Accepted ws) {key value : Str} {time : Uint64}
    (hscore : R.score (writes R ws) key value = some time) :
    ∃ w ∈ ws, w.key = key ∧ w.value = value ∧ w.publishTime = time := by
  rw [score_writes h] at hscore
  obtain ⟨w, hlast, htime⟩ := Option.map_eq_some_iff.mp hscore
  obtain ⟨hw, hmatch⟩ := List.mem_filter.mp (List.mem_of_getLast? hlast)
  obtain ⟨hkey, hvalue⟩ : w.key = key ∧ w.value = value := by simpa using hmatch
  exact ⟨w, hw, hkey, hvalue, htime⟩

theorem DistinctTimes.eq (h : DistinctTimes ws) {w w' : Write} (hw : w ∈ ws) (hw' : w' ∈ ws)
    (hkey : w.key = w'.key) (htime : w.publishTime = w'.publishTime) : w = w' := by
  by_contra hne
  have hsymm : Std.Symm fun w w' : Write => w.key = w'.key → w.publishTime ≠ w'.publishTime :=
    ⟨fun _ _ h hkey htime => h hkey.symm htime.symm⟩
  exact List.Pairwise.forall h hw hw' hne hkey htime

theorem DistinctTimes.nodup (h : DistinctTimes ws) : ws.Nodup :=
  h.imp fun hne heq => hne (congrArg _ heq) (congrArg _ heq)

/-- The entry of a value belongs to the last call that wrote the value. -/
theorem score_eq_of_last (h : Accepted ws) (hdistinct : DistinctTimes ws) {w : Write} (hw : w ∈ ws) :
    R.score (writes R ws) w.key w.value = some w.publishTime
      ↔ ∀ w', [w, w'].Sublist ws → w.key = w'.key → w.value ≠ w'.value := by
  have hmem : w ∈ ws.filter fun v => v.key = w.key ∧ v.value = w.value :=
    List.mem_filter.mpr ⟨hw, by simp⟩
  obtain ⟨init, last, hsplit⟩ : ∃ init last,
      ws.filter (fun v => v.key = w.key ∧ v.value = w.value) = init ++ [last] :=
    ⟨_, _, (List.dropLast_append_getLast (List.ne_nil_of_mem hmem)).symm⟩
  have hlast : last ∈ ws ∧ last.key = w.key ∧ last.value = w.value := by
    have hmatch : last ∈ ws.filter fun v => v.key = w.key ∧ v.value = w.value := by
      rw [hsplit]
      simp
    exact ⟨(List.mem_filter.mp hmatch).1, by simpa using (List.mem_filter.mp hmatch).2⟩
  rw [score_writes h, hsplit, List.getLast?_concat, Option.map_some, Option.some.injEq]
  have hsub : (init ++ [last]).Sublist ws := hsplit ▸ List.filter_sublist
  constructor
  · intro htime w' hpair hkey hvalue
    obtain rfl : last = w := hdistinct.eq hlast.1 hw hlast.2.1 htime
    -- `w'` comes after the last call
    have hpair' := hpair.filter fun v : Write => decide (v.key = last.key ∧ v.value = last.value)
    rw [List.filter_eq_self.mpr (by simp [hkey, hvalue]), hsplit] at hpair'
    have hnodup : (init ++ [last]).Nodup := hdistinct.nodup.sublist hsub
    have hinit : last ∉ init.reverse := by
      rw [List.mem_reverse]
      exact fun hmem => List.disjoint_of_nodup_append hnodup hmem List.mem_cons_self
    rw [← List.reverse_sublist, List.reverse_concat, List.sublist_cons_iff] at hpair'
    rcases hpair' with hrest | ⟨r, heq, hrest⟩
    · exact hinit (hrest.subset (by simp))
    · obtain ⟨-, rfl⟩ : w' = last ∧ [last] = r := by simpa using heq
      exact hinit (hrest.subset List.mem_cons_self)
  · intro hlater
    by_contra hne
    have hinit : w ∈ init := by
      rw [hsplit, List.mem_append, List.mem_singleton] at hmem
      exact hmem.resolve_right fun heq => hne (congrArg _ heq.symm)
    have hpair : [w, last].Sublist ws :=
      ((List.singleton_sublist.mpr hinit).append (List.Sublist.refl [last])).trans hsub
    exact hlater last hpair hlast.2.1.symm hlast.2.2.symm

/-! ## Reading -/

/-- A read finds a member with the greatest score in its window, if there is one. -/
theorem tryRead_spec (db : R.Db) (key : Str) (noEarlierThan : Uint64) (value : Str) (now : Uint64) :
    (∃ member time, tryRead R db key noEarlierThan value now = (true, member)
        ∧ R.score db key member = some time ∧ noEarlierThan ≤ time ∧ time ≤ now
        ∧ ∀ m t, R.score db key m = some t → noEarlierThan ≤ t → t ≤ now → t ≤ time)
      ∨ tryRead R db key noEarlierThan value now = (false, value)
        ∧ ∀ m t, R.score db key m = some t → noEarlierThan ≤ t → ¬t ≤ now := by
  unfold tryRead
  by_cases hwindow : noEarlierThan > now
  · rw [if_pos hwindow]
    exact Or.inr ⟨rfl, fun m t _ hfrom hto => absurd (hfrom.trans hto) (not_le.mpr hwindow)⟩
  · rw [if_neg hwindow]
    cases hlast : (R.zrangebyscore db key noEarlierThan now).getLast? with
    | none =>
      refine Or.inr ⟨rfl, fun m t hscore hfrom hto => ?_⟩
      have hmem := R.mem_zrangebyscore.mpr ⟨t, hscore, hfrom, hto⟩
      rw [List.getLast?_eq_none_iff.mp hlast] at hmem
      exact absurd hmem List.not_mem_nil
    | some last =>
      obtain ⟨time, hscore, hfrom, hto⟩ := R.mem_zrangebyscore.mp (List.mem_of_getLast? hlast)
      refine Or.inl ⟨last, time, rfl, hscore, hfrom, hto, fun m t hm hmfrom hmto => ?_⟩
      have hmem := R.mem_zrangebyscore.mpr ⟨t, hm, hmfrom, hmto⟩
      obtain ⟨init, hsplit⟩ := List.getLast?_eq_some_iff.mp hlast
      have hascending := R.zrangebyscore_ascending db key noEarlierThan now
      rw [hsplit] at hmem hascending
      rcases List.mem_append.mp hmem with hinit | hsame
      · exact (List.pairwise_append.mp hascending).2.2 m hinit last List.mem_cons_self t time hm hscore
      · rw [List.mem_singleton.mp hsame, hscore] at hm
        exact (Option.some.inj hm).ge

/-- The publish times of a key. -/
def times (ws : List Write) (key : Str) : Set Uint64 := {t | ∃ w ∈ ws, w.key = key ∧ w.publishTime = t}

/-- The readings of the clock. -/
def clocks (ws : List Write) : Set Uint64 := {c | ∃ w ∈ ws, w.now = c}

theorem finite_clocks (ws : List Write) : (clocks ws).Finite :=
  (ws.toFinset.image Write.now).finite_toSet.subset fun c ⟨w, hw, hc⟩ => by
    rw [Finset.mem_coe, Finset.mem_image]
    exact ⟨w, List.mem_toFinset.mpr hw, hc⟩

/-- Every later read returns the value of the accepted write with the greatest publish time in its window,
and fails exactly when there is none. -/
def IsRegister (R : Redis Uint64) (ws : List Write) : Prop :=
  ∀ (key : Str) (noEarlierThan : Uint64) (value : Str) (now : Uint64), (∀ w ∈ ws, w.now ≤ now) →
    let r := tryRead R (writes R ws) key noEarlierThan value now
    (r.1 = true ↔ ∃ t ∈ times ws key, noEarlierThan ≤ t ∧ t ≤ now)
      ∧ ∀ w ∈ ws, w.key = key →
        IsGreatest {t | t ∈ times ws key ∧ noEarlierThan ≤ t ∧ t ≤ now} w.publishTime → r.2 = w.value

theorem isRegister_of_superseded (h : Accepted ws) (hdistinct : DistinctTimes ws)
    (hrewritten : ws.Pairwise fun w w' => w.key = w'.key → w.value = w'.value →
      Superseded (times ws w.key) (clocks ws) w.publishTime) : IsRegister R ws := by
  intro key noEarlierThan value now hnow
  -- the greatest version of the window still has its entry
  have hkept : ∀ w ∈ ws, w.key = key →
      IsGreatest {t | t ∈ times ws key ∧ noEarlierThan ≤ t ∧ t ≤ now} w.publishTime →
        R.score (writes R ws) key w.value = some w.publishTime := by
    intro w hw hkey hgreatest
    subst hkey
    rw [score_eq_of_last h hdistinct hw]
    intro w' hpair hkey hvalue
    refine not_superseded_of_isGreatest hgreatest ?_
      (List.pairwise_iff_forall_sublist.mp hrewritten hpair hkey hvalue)
    rintro c ⟨v, hv, rfl⟩
    exact hnow v hv
  have hentry : ∀ m t, R.score (writes R ws) key m = some t → t ∈ times ws key := by
    intro m t hscore
    obtain ⟨w, hw, hkey, -, htime⟩ := exists_of_score h hscore
    exact ⟨w, hw, hkey, htime⟩
  rcases tryRead_spec (writes R ws) key noEarlierThan value now with
    ⟨member, time, hread, hscore, hfrom, hto, hmax⟩ | ⟨hread, hnone⟩
  · rw [hread]
    refine ⟨⟨fun _ => ⟨time, hentry _ _ hscore, hfrom, hto⟩, fun _ => rfl⟩, ?_⟩
    intro w hw hkey hgreatest
    have hle := hgreatest.2 ⟨hentry _ _ hscore, hfrom, hto⟩
    have hge := hmax _ _ (hkept w hw hkey hgreatest) hgreatest.1.2.1 hgreatest.1.2.2
    obtain ⟨u, hu, hukey, huvalue, hutime⟩ := exists_of_score h hscore
    have huw : u = w := hdistinct.eq hu hw (hukey.trans hkey.symm) (hutime.trans (le_antisymm hle hge))
    rw [← huvalue, huw]
  · rw [hread]
    have hempty : ¬∃ t ∈ times ws key, noEarlierThan ≤ t ∧ t ≤ now := by
      rintro ⟨t, ht, hfrom, hto⟩
      obtain ⟨g, ⟨⟨w, hw, hkey, rfl⟩, hg⟩, hgmax⟩ := Set.exists_max_image
        {t | t ∈ times ws key ∧ noEarlierThan ≤ t ∧ t ≤ now} id (Set.toFinite _) ⟨t, ht, hfrom, hto⟩
      exact hnone _ _ (hkept w hw hkey ⟨⟨⟨w, hw, hkey, rfl⟩, hg⟩, hgmax⟩) hg.1 hg.2
    refine ⟨⟨nofun, fun hex => absurd hex hempty⟩, fun w hw hkey hgreatest => ?_⟩
    exact absurd ⟨_, hgreatest.1⟩ hempty

/-- **When RedisKVS1 is a register of timestamped versions.** For accepted writes with distinct times for
each key: exactly when every version whose value was written again later has been superseded, by a version
that was visible before the last write. -/
theorem isRegister_iff (h : Accepted ws) (hdistinct : DistinctTimes ws) :
    IsRegister R ws ↔ ws.Pairwise fun w w' => w.key = w'.key → w.value = w'.value →
      Superseded (times ws w.key) (clocks ws) w.publishTime := by
  refine ⟨fun hregister => ?_, isRegister_of_superseded h hdistinct⟩
  rw [List.pairwise_iff_forall_sublist]
  intro w w' hpair hkey hvalue
  by_contra hvisible
  have hw : w ∈ ws := hpair.subset List.mem_cons_self
  have htime : w.publishTime ∈ times ws w.key := ⟨w, hw, rfl, rfl⟩
  obtain ⟨now, hnewest, hnow⟩ := exists_newest (finite_clocks ws) htime hvisible
  -- a read of just this version
  have hread := (hregister w.key w.publishTime [] now (fun v hv => hnow _ ⟨v, hv, rfl⟩)).1.mpr
    ⟨_, htime, le_rfl, hnewest.le_now⟩
  rcases tryRead_spec (writes R ws) w.key w.publishTime [] now with
    ⟨member, time, -, hscore, hfrom, hto, -⟩ | ⟨hfail, -⟩
  · obtain ⟨u, hu, hukey, huvalue, hutime⟩ := exists_of_score h hscore
    have hle := hnewest.le ⟨u, hu, hukey, hutime⟩ hto
    have huw : u = w := hdistinct.eq hu hw hukey (hutime.trans (le_antisymm hle hfrom))
    rw [← huvalue, ← hutime, huw] at hscore
    exact (score_eq_of_last h hdistinct hw).mp hscore w' hpair hkey hvalue
  · rw [hfail] at hread
    exact absurd hread nofun

/-- The value of time 5 is written again for time 20, after the version of time 10 has become visible. -/
theorem isRegister_iff_rewritten :
    IsRegister Redis.inMemory [⟨0, [107], 5, [97]⟩, ⟨0, [107], 10, [98]⟩, ⟨12, [107], 20, [97]⟩] := by
  refine (isRegister_iff (by simp [Accepted]) (by simp [DistinctTimes])).mpr ?_
  have hsuperseded : Superseded
      (times [⟨0, [107], 5, [97]⟩, ⟨0, [107], 10, [98]⟩, ⟨12, [107], 20, [97]⟩] [107])
      (clocks [⟨0, [107], 5, [97]⟩, ⟨0, [107], 10, [98]⟩, ⟨12, [107], 20, [97]⟩]) 5 :=
    ⟨10, ⟨⟨0, [107], 10, [98]⟩, by simp⟩, by decide, 12, ⟨⟨12, [107], 20, [97]⟩, by simp⟩, by decide⟩
  refine List.pairwise_cons.mpr ⟨fun _ _ _ _ => hsuperseded, ?_⟩
  simp

/-- The same value for the times 10 and 20: at 15 the read finds nothing. -/
theorem not_isRegister_sameValue :
    Accepted [⟨0, [107], 10, [97]⟩, ⟨0, [107], 20, [97]⟩]
      ∧ DistinctTimes [⟨0, [107], 10, [97]⟩, ⟨0, [107], 20, [97]⟩]
      ∧ ¬IsRegister Redis.inMemory [⟨0, [107], 10, [97]⟩, ⟨0, [107], 20, [97]⟩] := by
  refine ⟨by simp [Accepted], by simp [DistinctTimes], fun h => ?_⟩
  have hread := (h [107] 0 [] 15 (by simp)).1.mpr
    ⟨10, ⟨⟨0, [107], 10, [97]⟩, by simp⟩, by decide, by decide⟩
  exact absurd hread (by decide +kernel)

end RedisKVS1

end Achal
