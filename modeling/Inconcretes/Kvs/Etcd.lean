import Inconcretes.Kvs.Interface
import Inconcretes.Lib.UnorderedMap
import Inconcretes.Lib.Versions
import Mathlib.Data.List.Infix
import Mathlib.Data.List.Sort
import Mathlib.Data.Set.Finite.List

/-!
# The key-value store over etcd

`EtcdKVS` puts a version of a key under the path `/port:key/time`, the time in decimal, and reads the
entries below `/port:key/` back with `std::stoull`. Two things can go wrong. A key that contains the
requested one as a directory lists its versions there too, and what is read as their time is the rest of
their path. And `max_published_time` is never raised, so that of all listed entries in the window the last
one is taken, the greatest as text. `readsNewest_iff` says exactly for which paths neither matters.

The server is a parameter: `Etcd` has the two calls in use, with what their documentation says. Entries
have not expired.
-/

namespace Achal

/-- A store of paths. -/
structure Etcd where
  Db : Type
  empty : Db
  get? : Db → Str → Option Str
  set : Db → Str → Str → Db
  /-- The entries whose path starts with a prefix. -/
  ls : Db → Str → List (Str × Str)
  get?_empty : ∀ path, get? empty path = none
  get?_set : ∀ db path value path', get? (set db path value) path'
    = if path = path' then some value else get? db path'
  mem_ls : ∀ {db dir e}, e ∈ ls db dir ↔ dir.IsPrefix e.1 ∧ get? db e.1 = some e.2
  ls_ascending : ∀ db dir, (ls db dir).Pairwise fun e e' => e.1 < e'.1

/-- A server whose paths are one map. -/
def Etcd.inMemory : Etcd where
  Db := UMap Str Str
  empty := ∅
  get? db path := db.lookup path
  set db path value := db.insert path value
  ls db dir := ((db.entries.filter fun e => dir.isPrefixOf e.1).insertionSort (·.1 ≤ ·.1)).map
    fun e => (e.1, e.2)
  get?_empty _ := AList.lookup_empty _
  get?_set db path value path' := by
    by_cases h : path = path'
    · rw [if_pos h, ← h, AList.lookup_insert]
    · rw [if_neg h, AList.lookup_insert_ne (Ne.symm h)]
  mem_ls {db dir e} := by
    simp only [List.mem_map, List.mem_insertionSort, List.mem_filter, List.isPrefixOf_iff_prefix]
    constructor
    · rintro ⟨e, ⟨he, hdir⟩, rfl⟩
      exact ⟨hdir, AList.mem_lookup_iff.mpr he⟩
    · rintro ⟨hdir, hget⟩
      exact ⟨⟨e.1, e.2⟩, ⟨AList.mem_lookup_iff.mp hget, hdir⟩, rfl⟩
  ls_ascending db dir := by
    rw [List.pairwise_map]
    have htotal : Std.Total fun e e' : Σ _ : Str, Str => e.1 ≤ e'.1 :=
      ⟨fun e e' => List.le_total e.1 e'.1⟩
    have htrans : IsTrans (Σ _ : Str, Str) fun e e' => e.1 ≤ e'.1 := ⟨fun _ _ _ => List.le_trans⟩
    have hsorted := List.pairwise_insertionSort (fun e e' : Σ _ : Str, Str => e.1 ≤ e'.1)
      (db.entries.filter fun e => dir.isPrefixOf e.1)
    have hnodup : ((db.entries.filter fun e => dir.isPrefixOf e.1).insertionSort
        (·.1 ≤ ·.1)).Pairwise fun e e' => e.1 ≠ e'.1 :=
      ((List.perm_insertionSort _ _).pairwise_iff fun h => h.symm).mpr
        ((List.nodupKeys_iff_pairwise.mp db.nodupKeys).sublist List.filter_sublist)
    exact hsorted.imp₂ (fun e e' hle hne => (List.le_iff_lt_or_eq.mp hle).resolve_right hne) hnodup

/-- `std::stoull(s)`. A minus sign negates modulo `2 ^ 64`. -/
def stoull (s : Str) : Except StodError Uint64 :=
  let s := s.dropWhile isSpace
  let ds := (if s.head? = some 45 ∨ s.head? = some 43 then s.tail else s).takeWhile Decimal.isDigit
  if ds = [] then .error .invalidArgument
  else if h : Decimal.value ds < 2 ^ 64 then
    .ok (if s.head? = some 45 then -⟨Decimal.value ds, h⟩ else ⟨Decimal.value ds, h⟩)
  else .error .outOfRange

/-- `s.substr(pos)`. -/
def substr (s : Str) (pos : ℕ) : Except StodError Str :=
  if pos ≤ s.length then .ok (s.drop pos) else .error .outOfRange

namespace EtcdKVS

open Versions

variable (E : Etcd)

/-- `"/" + port + ":" + key + "/"`. -/
def directory (port : Uint32) (key : Str) : Str := 47 :: (Decimal.render port ++ 58 :: (key ++ [47]))

/-- `"/" + port + ":" + key + "/" + std::to_string(publish_time)`. -/
def path (port : Uint32) (key : Str) (publishTime : Uint64) : Str :=
  directory port key ++ Decimal.render publishTime

/-- `try_write(key, publish_time, value)` of the replica with this port, when the clock shows `now`. The
server is up, so `set` is ok. -/
def tryWrite (db : E.Db) (localPort : Uint32) (key : Str) (publishTime : Uint64) (value : Str)
    (now : Uint64) : Bool × E.Db :=
  if publishTime ≤ now then (false, db) else (true, E.set db (path localPort key publishTime) value)

/-- What `try_read` takes for the time of an entry. -/
def timeOf (port : Uint32) (key : Str) (v : Str × Str) : Except StodError Uint64 :=
  (substr v.1 (key.length + (Decimal.render port).length + 3)).bind stoull

/-- The loop over the entries of one port, with `found` and `max_published_value`. -/
def scanPort (port : Uint32) (key : Str) (noEarlierThan now : Uint64) (entries : List (Str × Str)) :
    Except StodError (Bool × Str) :=
  let maxPublishedTime := noEarlierThan
  entries.foldlM
    (fun acc v => do
      let time ← timeOf port key v
      return if noEarlierThan ≤ time ∧ time ≤ now then
        (true, if time ≥ maxPublishedTime then v.2 else acc.2)
      else acc) (false, [])

/-- The loop over the ports. -/
def candidateValues (db : E.Db) (allPorts : List Uint32) (key : Str) (noEarlierThan now : Uint64) :
    Except StodError (List Str) :=
  allPorts.foldlM
    (fun candidateValues port => do
      let foundValue ← scanPort port key noEarlierThan now (E.ls db (directory port key))
      return if foundValue.1 then candidateValues ++ [foundValue.2] else candidateValues) []

/-- `try_read(key, no_earlier_than, value)` when the clock shows `now`. -/
def tryRead (F : Doubles) (db : E.Db) (allPorts : List Uint32) (useSimpleMedian : Bool) (key : Str)
    (noEarlierThan : Uint64) (value : Str) (now : Uint64) : Except FuseError (Bool × Str) :=
  if noEarlierThan > now then .ok (false, value)
  else match candidateValues E db allPorts key noEarlierThan now with
    | .ok candidates => fuseRedundantValues F candidates useSimpleMedian value
    | .error e => .error (.stod e)

/-! ## Histories -/

/-- A call of `try_write`, but for the value. -/
structure Slot where
  now : Uint64
  port : Uint32
  key : Str
  publishTime : Uint64
  deriving DecidableEq

/-- A call of `try_write`. -/
structure Write extends Slot where
  value : Str

/-- The entry that a call writes. -/
def Slot.path (c : Slot) : Str := EtcdKVS.path c.port c.key c.publishTime

/-- The entries after the calls of all replicas. -/
def writes (ws : List Write) : E.Db :=
  ws.foldl (fun db w => (tryWrite E db w.port w.key w.publishTime w.value w.now).2) E.empty

/-- All calls returned true. -/
def Accepted (cs : List Slot) : Prop := ∀ c ∈ cs, c.now < c.publishTime

/-- The value written last with the greatest publish time of the window, for exactly this port and key. -/
def newestValue (ws : List Write) (key : Str) (noEarlierThan now : Uint64) (port : Uint32) : Option Str := do
  let time ← ((ws.filter fun w => w.port = port ∧ w.key = key ∧ noEarlierThan ≤ w.publishTime
    ∧ w.publishTime ≤ now).map fun w => w.publishTime).max?
  let w ← (ws.filter fun w => w.path = path port key time).getLast?
  return w.value

/-- Whatever the values are, every later read takes the newest value of each port, and no candidate from a
port without one, and hands them to `fuse_redundant_values`. -/
def ReadsNewest (cs : List Slot) (allPorts : List Uint32) (key : Str) : Prop :=
  ∀ ws : List Write, ws.map Write.toSlot = cs → ∀ noEarlierThan now : Uint64, (∀ c ∈ cs, c.now ≤ now) →
    let newest := allPorts.filterMap (newestValue ws key noEarlierThan now)
    (noEarlierThan ≤ now → candidateValues E (writes E ws) allPorts key noEarlierThan now = .ok newest)
      ∧ ∀ F useSimpleMedian value,
        tryRead E F (writes E ws) allPorts useSimpleMedian key noEarlierThan value now
          = fuseRedundantValues F newest useSimpleMedian value

/-! ## Paths -/

theorem colon_not_digit : Decimal.isDigit 58 = false := by decide

/-- What the directory of a key lists: its own versions, and those of keys below it. -/
theorem directory_prefix_path {port port' : Uint32} {key key' : Str} {time : Uint64} :
    (directory port key).IsPrefix (path port' key' time)
      ↔ port = port' ∧ (key ++ [47]).IsPrefix (key' ++ 47 :: Decimal.render time) := by
  have hpath : path port' key' time
      = 47 :: (Decimal.render port' ++ 58 :: (key' ++ 47 :: Decimal.render time)) := by
    simp [path, directory]
  rw [hpath, directory, List.cons_prefix_cons]
  constructor
  · rintro ⟨-, rest, hrest⟩
    -- the digits of the port end at the colon
    have hdigits := congrArg (List.takeWhile Decimal.isDigit) hrest
    rw [List.append_assoc, List.cons_append, Decimal.takeWhile_render_append _ colon_not_digit,
      Decimal.takeWhile_render_append _ colon_not_digit] at hdigits
    obtain rfl : port = port' := Fin.ext (Decimal.render_injective hdigits)
    rw [List.append_assoc, List.append_cancel_left_eq, List.cons_append, List.cons.injEq] at hrest
    exact ⟨rfl, rest, hrest.2⟩
  · rintro ⟨rfl, rest, hrest⟩
    exact ⟨rfl, rest, by rw [List.append_assoc, List.cons_append, hrest]⟩

/-- The text behind the directory of `key`, where `try_read` looks for the time. -/
def Slot.text (key : Str) (c : Slot) : Str := (c.key ++ 47 :: Decimal.render c.publishTime).drop (key.length + 1)

/-- The call writes below the directory of `key`. -/
def Slot.Below (port : Uint32) (key : Str) (c : Slot) : Prop :=
  c.port = port ∧ (key ++ [47]).IsPrefix (c.key ++ 47 :: Decimal.render c.publishTime)

/-- The call writes a version of `key` itself. -/
def Slot.Of (port : Uint32) (key : Str) (c : Slot) : Prop := c.port = port ∧ c.key = key

theorem path_of_below {port : Uint32} {key : Str} {c : Slot} (h : c.Below port key) :
    c.path = directory port key ++ c.text key := by
  obtain ⟨rfl, rest, hrest⟩ := h
  have htext : c.text key = rest := by
    have hlen : key.length + 1 = (key ++ [47]).length := by simp
    rw [Slot.text, ← hrest, hlen, List.drop_left]
  rw [htext, Slot.path, path, directory, directory]
  simp only [List.cons_append, List.append_assoc, List.nil_append] at hrest ⊢
  rw [← hrest]

theorem Slot.Of.below {port : Uint32} {key : Str} {c : Slot} (h : c.Of port key) : c.Below port key :=
  ⟨h.1, by rw [h.2]; exact ⟨Decimal.render c.publishTime, by simp⟩⟩

theorem Slot.Of.text_eq {port : Uint32} {key : Str} {c : Slot} (h : c.Of port key) :
    c.text key = Decimal.render c.publishTime := by
  rw [Slot.text, h.2]
  simp

theorem Slot.Of.path_eq {port : Uint32} {key : Str} {c : Slot} (h : c.Of port key) :
    EtcdKVS.path port key c.publishTime = c.path := by
  rw [Slot.path, h.1, h.2]

/-- The time of a version reads back. -/
theorem stoull_render (time : Uint64) : stoull (Decimal.render time) = .ok time := by
  obtain ⟨c, cs, hcs⟩ := List.exists_cons_of_ne_nil (Decimal.render_ne_nil time)
  have hdigit : Decimal.isDigit c = true := Decimal.isDigit_of_mem_render (hcs ▸ List.mem_cons_self)
  have hplain := isSpace_of_isDigit hdigit
  have hspace : (Decimal.render time).dropWhile isSpace = Decimal.render time := by
    rw [hcs, List.dropWhile_cons_of_neg (by simp [hplain.1])]
  have hhead : (Decimal.render time).head? = some c := by rw [hcs, List.head?_cons]
  have hvalue := Decimal.value_render time
  simp only [stoull, hspace, hhead, Option.some.injEq, hplain.2.1, hplain.2.2, or_self, if_false,
    Decimal.takeWhile_render, Decimal.render_ne_nil, hvalue]
  rw [dif_pos time.isLt]

/-! ## Loops that may throw -/

section Loops

variable {ε α β γ : Type} {step : β → α → γ → β} {decode : α → Except ε γ}

theorem foldlM_ok {f : β → α → β} {xs : List α}
    (h : ∀ x ∈ xs, ∃ y, decode x = .ok y ∧ ∀ acc, step acc x y = f acc x) (acc : β) :
    xs.foldlM (fun acc x => do return step acc x (← decode x)) acc = .ok (xs.foldl f acc) := by
  induction xs generalizing acc with
  | nil => rfl
  | cons x xs ih =>
    obtain ⟨⟨y, hy, hstep⟩, hxs⟩ := List.forall_mem_cons.mp h
    rw [List.foldlM_cons, hy, List.foldl_cons, ← hstep]
    exact ih hxs _

theorem forall_ok_of_foldlM {xs : List α} {acc result : β}
    (h : xs.foldlM (fun acc x => do return step acc x (← decode x)) acc = .ok result) :
    ∀ x ∈ xs, ∃ y, decode x = .ok y := by
  induction xs generalizing acc with
  | nil => simp
  | cons x xs ih =>
    rw [List.foldlM_cons] at h
    cases hx : decode x with
    | error e =>
      rw [hx] at h
      exact absurd h nofun
    | ok y =>
      rw [hx] at h
      exact List.forall_mem_cons.mpr ⟨⟨y, hx⟩, ih h⟩

end Loops

/-! ## One port -/

/-- The entry is read as a version of the window. -/
def inWindow (port : Uint32) (key : Str) (noEarlierThan now : Uint64) (v : Str × Str) : Bool :=
  match timeOf port key v with
  | .ok time => noEarlierThan ≤ time && time ≤ now
  | .error _ => false

/-- The last entry that is read as a version of the window. -/
def lastInWindow (port : Uint32) (key : Str) (noEarlierThan now : Uint64) (entries : List (Str × Str)) :
    Option (Str × Str) :=
  (entries.filter (inWindow port key noEarlierThan now)).getLast?

variable {port : Uint32} {key : Str} {noEarlierThan now : Uint64}

theorem foldl_inWindow (entries : List (Str × Str)) (acc : Bool × Str) :
    entries.foldl (fun acc v => if inWindow port key noEarlierThan now v then (true, v.2) else acc) acc
      = (lastInWindow port key noEarlierThan now entries).elim acc fun v => (true, v.2) := by
  unfold lastInWindow
  induction entries using List.reverseRecOn with
  | nil => rfl
  | append_singleton entries v ih =>
    rw [List.foldl_append, List.foldl_cons, List.foldl_nil, List.filter_append]
    by_cases hin : inWindow port key noEarlierThan now v
    · rw [if_pos hin, List.filter_cons_of_pos hin, List.filter_nil, List.getLast?_concat]
      rfl
    · rw [if_neg hin, List.filter_cons_of_neg hin, List.filter_nil, List.append_nil, ih]

/-- The maximum that is never raised leaves the last entry. -/
theorem scanPort_eq {entries : List (Str × Str)} (h : ∀ v ∈ entries, ∃ time, timeOf port key v = .ok time) :
    scanPort port key noEarlierThan now entries
      = .ok ((lastInWindow port key noEarlierThan now entries).elim (false, []) fun v => (true, v.2)) := by
  rw [← foldl_inWindow]
  refine foldlM_ok (fun v hv => ?_) _
  obtain ⟨time, htime⟩ := h v hv
  refine ⟨time, htime, fun acc => ?_⟩
  rw [inWindow, htime]
  by_cases hwindow : noEarlierThan ≤ time ∧ time ≤ now
  · simp [hwindow]
  · rw [if_neg hwindow, if_neg (by simpa using hwindow)]

/-- What the loop over the ports takes from one of them. -/
def taken (E : Etcd) (db : E.Db) (key : Str) (noEarlierThan now : Uint64) (port : Uint32) : Option Str :=
  (lastInWindow port key noEarlierThan now (E.ls db (directory port key))).map Prod.snd

variable {E}

theorem candidateValues_eq {db : E.Db} {allPorts : List Uint32}
    (h : ∀ port ∈ allPorts, ∀ v ∈ E.ls db (directory port key), ∃ time, timeOf port key v = .ok time) :
    candidateValues E db allPorts key noEarlierThan now
      = .ok (allPorts.filterMap (taken E db key noEarlierThan now)) := by
  have hpush : ∀ cs : List Str, allPorts.foldl
      (fun cs port => cs ++ (taken E db key noEarlierThan now port).toList) cs
        = cs ++ allPorts.filterMap (taken E db key noEarlierThan now) := by
    clear h
    induction allPorts with
    | nil => simp
    | cons port ports ih =>
      intro cs
      rw [List.foldl_cons, ih, List.filterMap_cons]
      cases taken E db key noEarlierThan now port <;> simp
  refine (foldlM_ok (fun port hport => ⟨_, scanPort_eq (h port hport), fun acc => ?_⟩) []).trans
    (congrArg _ (hpush []))
  rw [taken]
  cases lastInWindow port key noEarlierThan now (E.ls db (directory port key)) <;> simp

theorem times_of_candidateValues {db : E.Db} {allPorts : List Uint32} {candidates : List Str}
    (h : candidateValues E db allPorts key noEarlierThan now = .ok candidates) :
    ∀ port ∈ allPorts, ∀ v ∈ E.ls db (directory port key), ∃ time, timeOf port key v = .ok time := by
  intro port hport
  obtain ⟨foundValue, hscan⟩ := forall_ok_of_foldlM h port hport
  exact forall_ok_of_foldlM hscan

/-! ## The entries of a history -/

/-- The publish times of a key at a port. -/
def times (cs : List Slot) (port : Uint32) (key : Str) : Set Uint64 :=
  {t | ∃ c ∈ cs, c.Of port key ∧ c.publishTime = t}

/-- The readings of the clock. -/
def clocks (cs : List Slot) : Set Uint64 := {t | ∃ c ∈ cs, c.now = t}

variable {ws : List Write}

theorem get?_writes (h : Accepted (ws.map Write.toSlot)) (p : Str) :
    E.get? (writes E ws) p = ((ws.filter fun w => w.path = p).getLast?).map Write.value :=
  get_foldl_put E.get? (fun db (w : Write) => (tryWrite E db w.port w.key w.publishTime w.value w.now).2)
    (fun w => w.path) Write.value E.get?_empty (fun w hw db p => by
      rw [tryWrite, if_neg (not_le.mpr (h w.toSlot (List.mem_map_of_mem hw))), E.get?_set]
      rfl) p

theorem timeOf_below {c : Slot} (h : c.Below port key) (value : Str) :
    timeOf port key (c.path, value) = stoull (c.text key) := by
  have hlen : (directory port key).length = key.length + (Decimal.render port).length + 3 := by
    simp [directory]
    omega
  rw [timeOf, path_of_below h, ← hlen, substr, if_pos (by simp), List.drop_left]
  rfl

/-- Every entry that is listed was written below the directory. -/
theorem exists_of_mem_ls (h : Accepted (ws.map Write.toSlot)) {v : Str × Str}
    (hv : v ∈ E.ls (writes E ws) (directory port key)) :
    ∃ w ∈ ws, w.Below port key ∧ v = (w.path, w.value) := by
  obtain ⟨hdir, hget⟩ := E.mem_ls.mp hv
  rw [get?_writes h] at hget
  obtain ⟨w, hlast, hvalue⟩ := Option.map_eq_some_iff.mp hget
  obtain ⟨hw, hpath⟩ := List.mem_filter.mp (List.mem_of_getLast? hlast)
  have hpath : w.path = v.1 := by simpa using hpath
  rw [← hpath] at hdir
  obtain ⟨hport, hbelow⟩ := directory_prefix_path.mp hdir
  exact ⟨w, hw, ⟨hport.symm, hbelow⟩, Prod.ext hpath.symm hvalue.symm⟩

/-- Every call below the directory has its entry listed. -/
theorem mem_ls_of_below (h : Accepted (ws.map Write.toSlot)) {w : Write} (hw : w ∈ ws)
    (hbelow : w.Below port key) :
    ∃ value, (w.path, value) ∈ E.ls (writes E ws) (directory port key) := by
  have hmem : w ∈ ws.filter fun v => v.path = w.path := List.mem_filter.mpr ⟨hw, by simp⟩
  have hget := get?_writes (E := E) h w.path
  rw [List.getLast?_eq_some_getLast (List.ne_nil_of_mem hmem)] at hget
  have hbegins : (directory port key).IsPrefix w.path :=
    directory_prefix_path.mpr ⟨hbelow.1.symm, hbelow.2⟩
  exact ⟨_, E.mem_ls.mpr ⟨hbegins, hget⟩⟩

theorem append_lt_append_left {dir s s' : Str} : dir ++ s < dir ++ s' ↔ s < s' := by
  induction dir with
  | nil => rfl
  | cons x dir ih => simpa only [List.cons_append, List.cons_lt_cons_self] using ih

theorem path_le_path {c d : Slot} (hc : c.Below port key) (hd : d.Of port key) :
    c.path ≤ d.path ↔ c.text key ≤ Decimal.render d.publishTime := by
  rw [path_of_below hc, path_of_below hd.below, hd.text_eq, ← List.not_lt, ← List.not_lt,
    append_lt_append_left]

/-- The last entry of the window has the greatest path. -/
theorem lastInWindow_ls {db : E.Db} {v : Str × Str} :
    lastInWindow port key noEarlierThan now (E.ls db (directory port key)) = some v
      ↔ v ∈ E.ls db (directory port key) ∧ inWindow port key noEarlierThan now v
        ∧ ∀ v' ∈ E.ls db (directory port key), inWindow port key noEarlierThan now v' → v'.1 ≤ v.1 := by
  have hasymm : Std.Asymm fun v v' : Str × Str => v.1 < v'.1 := ⟨fun _ _ => List.lt_asymm⟩
  rw [lastInWindow, getLast?_eq_some_iff ((E.ls_ascending db _).filter _), List.mem_filter, and_assoc]
  refine and_congr_right' (and_congr_right' ⟨fun h v' hv' hin => ?_, fun h v' hv' => ?_⟩)
  · exact List.not_lt.mp (h v' (List.mem_filter.mpr ⟨hv', hin⟩))
  · exact List.not_lt.mpr (h v' (List.mem_filter.mp hv').1 (List.mem_filter.mp hv').2)

theorem inWindow_below {c : Slot} (h : c.Below port key) {time : Uint64}
    (htime : stoull (c.text key) = .ok time) (value : Str) :
    inWindow port key noEarlierThan now (c.path, value) ↔ noEarlierThan ≤ time ∧ time ≤ now := by
  rw [inWindow, timeOf_below h, htime, Bool.and_eq_true, decide_eq_true_iff, decide_eq_true_iff]

theorem inWindow_of {d : Slot} (h : d.Of port key) (value : Str) :
    inWindow port key noEarlierThan now (d.path, value)
      ↔ noEarlierThan ≤ d.publishTime ∧ d.publishTime ≤ now :=
  inWindow_below h.below (by rw [h.text_eq, stoull_render]) value

/-- The greatest publish time of the window. -/
def Greatest (cs : List Slot) (port : Uint32) (key : Str) (noEarlierThan now t : Uint64) : Prop :=
  IsGreatest {u | u ∈ times cs port key ∧ noEarlierThan ≤ u ∧ u ≤ now} t

/-- The newest value is what the entry with the greatest publish time of the window holds. -/
theorem newestValue_eq_some (h : Accepted (ws.map Write.toSlot)) {value : Str} :
    newestValue ws key noEarlierThan now port = some value
      ↔ ∃ t, Greatest (ws.map Write.toSlot) port key noEarlierThan now t
        ∧ E.get? (writes E ws) (path port key t) = some value := by
  rw [newestValue, Option.bind_eq_bind, Option.bind_eq_some_iff]
  refine exists_congr fun t => and_congr ?_ ?_
  · have hmem : ∀ u, u ∈ ((ws.filter fun w => w.port = port ∧ w.key = key ∧ noEarlierThan ≤ w.publishTime
        ∧ w.publishTime ≤ now).map fun w => w.publishTime)
        ↔ u ∈ {u | u ∈ times (ws.map Write.toSlot) port key ∧ noEarlierThan ≤ u ∧ u ≤ now} := by
      intro u
      simp only [List.mem_map, List.mem_filter, decide_eq_true_eq, times, Slot.Of, Set.mem_ofPred_eq]
      constructor
      · rintro ⟨w, ⟨hw, hport, hkey, hfrom, hto⟩, rfl⟩
        exact ⟨⟨w.toSlot, ⟨w, hw, rfl⟩, ⟨hport, hkey⟩, rfl⟩, hfrom, hto⟩
      · rintro ⟨⟨_, ⟨w, hw, rfl⟩, ⟨hport, hkey⟩, rfl⟩, hfrom, hto⟩
        exact ⟨w, ⟨hw, hport, hkey, hfrom, hto⟩, rfl⟩
    rw [List.max?_eq_some_iff, Greatest, IsGreatest, mem_upperBounds, hmem]
    exact and_congr_right' (forall_congr' fun u => by rw [hmem])
  · rw [get?_writes h]
    cases (ws.filter fun w => w.path = path port key t).getLast? <;> simp

/-! ## When the newest versions are read -/

/-- The path of a call is read in the order of the versions of `key`: it holds a time, a version of `key`
with at least this time is visible as soon as this time is, and every such version that can be the newest
one has a path that is not smaller. -/
def Slot.ReadsInOrder (cs : List Slot) (port : Uint32) (key : Str) (c : Slot) : Prop :=
  ∃ time, stoull (c.text key) = .ok time
    ∧ (∃ d ∈ cs, d.Of port key ∧ time ≤ d.publishTime
      ∧ (d.publishTime ≤ time ∨ ∃ y ∈ cs, d.publishTime ≤ y.now))
    ∧ ∀ d ∈ cs, d.Of port key → time ≤ d.publishTime →
      ¬Superseded (times cs port key) (clocks cs) d.publishTime →
        c.text key ≤ Decimal.render d.publishTime

theorem Greatest.not_superseded {cs : List Slot} {t : Uint64} (h : Greatest cs port key noEarlierThan now t)
    (hnow : ∀ c ∈ cs, c.now ≤ now) : ¬Superseded (times cs port key) (clocks cs) t := by
  refine not_superseded_of_isGreatest h ?_
  rintro _ ⟨c, hc, rfl⟩
  exact hnow c hc

/-- An entry of the window is followed by the newest version of the window. -/
theorem exists_greatest (h : Accepted (ws.map Write.toSlot))
    (hnow : ∀ c ∈ ws.map Write.toSlot, c.now ≤ now)
    (horder : ∀ c ∈ ws.map Write.toSlot, c.Below port key →
      c.ReadsInOrder (ws.map Write.toSlot) port key)
    {v : Str × Str} (hv : v ∈ E.ls (writes E ws) (directory port key))
    (hin : inWindow port key noEarlierThan now v) :
    ∃ t, Greatest (ws.map Write.toSlot) port key noEarlierThan now t ∧ v.1 ≤ path port key t := by
  obtain ⟨w, hw, hbelow, rfl⟩ := exists_of_mem_ls h hv
  obtain ⟨time, htime, ⟨d, hd, hof, hle, hvisible⟩, hafter⟩ := horder _ (List.mem_map_of_mem hw) hbelow
  obtain ⟨hfrom, hto⟩ := (inWindow_below hbelow htime _).mp hin
  have hdnow : d.publishTime ≤ now := by
    rcases hvisible with hsame | ⟨y, hy, hclock⟩
    · exact hsame.trans hto
    · exact hclock.trans (hnow y hy)
  have hdmem : d.publishTime ∈
      {u | u ∈ times (ws.map Write.toSlot) port key ∧ noEarlierThan ≤ u ∧ u ≤ now} :=
    ⟨⟨d, hd, hof, rfl⟩, hfrom.trans hle, hdnow⟩
  obtain ⟨t, ht, hmax⟩ := Set.exists_max_image _ id (Set.toFinite _) ⟨_, hdmem⟩
  have hgreatest : Greatest (ws.map Write.toSlot) port key noEarlierThan now t := ⟨ht, hmax⟩
  obtain ⟨⟨g, hg, hgof, rfl⟩, -⟩ := ht
  refine ⟨_, hgreatest, ?_⟩
  rw [hgof.path_eq, path_le_path hbelow hgof]
  exact hafter g hg hgof (hle.trans (hgreatest.2 hdmem)) (hgreatest.not_superseded hnow)

theorem taken_eq_newestValue (h : Accepted (ws.map Write.toSlot))
    (hnow : ∀ c ∈ ws.map Write.toSlot, c.now ≤ now)
    (horder : ∀ c ∈ ws.map Write.toSlot, c.Below port key →
      c.ReadsInOrder (ws.map Write.toSlot) port key) :
    taken E (writes E ws) key noEarlierThan now port = newestValue ws key noEarlierThan now port := by
  have hentry : ∀ {t value}, Greatest (ws.map Write.toSlot) port key noEarlierThan now t →
      E.get? (writes E ws) (path port key t) = some value →
        (path port key t, value) ∈ E.ls (writes E ws) (directory port key)
          ∧ inWindow port key noEarlierThan now (path port key t, value) := by
    rintro _ value ⟨⟨⟨d, -, hof, rfl⟩, hwindow⟩, -⟩ hget
    rw [hof.path_eq] at hget ⊢
    exact ⟨E.mem_ls.mpr ⟨directory_prefix_path.mpr ⟨hof.1.symm, hof.below.2⟩, hget⟩,
      (inWindow_of hof value).mpr hwindow⟩
  refine Option.ext fun value => ?_
  rw [newestValue_eq_some (E := E) h, taken, Option.map_eq_some_iff]
  simp only [lastInWindow_ls]
  constructor
  · rintro ⟨v, ⟨hv, hin, hlast⟩, rfl⟩
    obtain ⟨t, ht, hle⟩ := exists_greatest h hnow horder hv hin
    obtain ⟨⟨d, hd, hof, rfl⟩, -⟩ := ht.1
    obtain ⟨w, hw, rfl⟩ := List.mem_map.mp hd
    obtain ⟨value, hmem⟩ := mem_ls_of_below (E := E) h hw hof.below
    have hget := (E.mem_ls.mp hmem).2
    rw [← hof.path_eq] at hget
    obtain ⟨hlisted, hwindow⟩ := hentry ht hget
    have heq : v.1 = path port key w.publishTime := List.le_antisymm hle (hlast _ hlisted hwindow)
    exact ⟨_, ht, heq ▸ (E.mem_ls.mp hv).2⟩
  · rintro ⟨t, ht, hget⟩
    obtain ⟨hlisted, hwindow⟩ := hentry ht hget
    refine ⟨_, ⟨hlisted, hwindow, fun v' hv' hin' => ?_⟩, rfl⟩
    obtain ⟨t', ht', hle⟩ := exists_greatest h hnow horder hv' hin'
    rwa [IsGreatest.unique ht ht']

theorem finite_clocks (cs : List Slot) : (clocks cs).Finite :=
  (cs.toFinset.image Slot.now).finite_toSet.subset fun t ⟨c, hc, ht⟩ => by
    rw [Finset.mem_coe, Finset.mem_image]
    exact ⟨c, List.mem_toFinset.mpr hc, ht⟩

/-- The calls when every value is its own path. -/
def labelled (cs : List Slot) : List Write := cs.map fun c => ⟨c, c.path⟩

theorem map_toSlot_labelled (cs : List Slot) : (labelled cs).map Write.toSlot = cs := by
  rw [labelled, List.map_map]
  exact List.map_id cs

theorem get?_labelled {cs : List Slot} (h : Accepted cs) {p value : Str}
    (hget : E.get? (writes E (labelled cs)) p = some value) : value = p := by
  rw [get?_writes ((map_toSlot_labelled cs).symm ▸ h)] at hget
  obtain ⟨w, hlast, rfl⟩ := Option.map_eq_some_iff.mp hget
  obtain ⟨hw, hpath⟩ := List.mem_filter.mp (List.mem_of_getLast? hlast)
  obtain ⟨c, -, rfl⟩ := List.mem_map.mp hw
  exact of_decide_eq_true hpath

section Labelled

variable {cs : List Slot} (h : Accepted cs)

include h

theorem accepted_labelled : Accepted ((labelled cs).map Write.toSlot) := (map_toSlot_labelled cs).symm ▸ h

/-- A value that is taken from a port is a path below its directory. -/
theorem exists_below_of_taken {value : Str}
    (htaken : taken E (writes E (labelled cs)) key noEarlierThan now port = some value) :
    ∃ c : Slot, c.Below port key ∧ value = c.path := by
  obtain ⟨e, hlast, rfl⟩ := Option.map_eq_some_iff.mp htaken
  have hlisted := (lastInWindow_ls.mp hlast).1
  obtain ⟨w, -, hbelow, he⟩ := exists_of_mem_ls (accepted_labelled h) hlisted
  refine ⟨w.toSlot, hbelow, ?_⟩
  rw [get?_labelled h (E.mem_ls.mp hlisted).2, he]

/-- A newest value is the path of its version. -/
theorem eq_path_of_newestValue {value : Str}
    (hnewest : newestValue (labelled cs) key noEarlierThan now port = some value) :
    ∃ t, Greatest cs port key noEarlierThan now t ∧ value = path port key t := by
  obtain ⟨t, ht, hget⟩ := (newestValue_eq_some (E := Etcd.inMemory) (accepted_labelled h)).mp hnewest
  rw [map_toSlot_labelled] at ht
  exact ⟨t, ht, get?_labelled h hget⟩

/-- Values that tell the ports apart: what is taken from a port is its own newest value. -/
theorem taken_labelled {allPorts : List Uint32} (hreads : ReadsNewest E cs allPorts key)
    (hport : port ∈ allPorts) (hnow : ∀ c ∈ cs, c.now ≤ now) (hwindow : noEarlierThan ≤ now) {value : Str}
    (htaken : taken E (writes E (labelled cs)) key noEarlierThan now port = some value) :
    newestValue (labelled cs) key noEarlierThan now port = some value := by
  have hcandidates := (hreads _ (map_toSlot_labelled cs) noEarlierThan now hnow).1 hwindow
  have heq := Except.ok.inj ((candidateValues_eq (times_of_candidateValues hcandidates)).symm.trans
    hcandidates)
  have hmem : value ∈ allPorts.filterMap (newestValue (labelled cs) key noEarlierThan now) :=
    heq ▸ List.mem_filterMap.mpr ⟨port, hport, htaken⟩
  obtain ⟨port', -, hnewest⟩ := List.mem_filterMap.mp hmem
  obtain ⟨c, hbelow, rfl⟩ := exists_below_of_taken h htaken
  obtain ⟨t, -, hpath⟩ := eq_path_of_newestValue h hnewest
  have hbegins : (directory port key).IsPrefix (path port' key t) := by
    rw [← hpath]
    exact directory_prefix_path.mpr ⟨hbelow.1.symm, hbelow.2⟩
  rwa [(directory_prefix_path.mp hbegins).1]

/-- When an entry is in the window, the newest version of the window has a path that is not smaller. -/
theorem exists_greatest_of_reads {allPorts : List Uint32} (hreads : ReadsNewest E cs allPorts key)
    (hport : port ∈ allPorts) (hnow : ∀ c ∈ cs, c.now ≤ now) (hwindow : noEarlierThan ≤ now)
    {v : Str × Str} (hv : v ∈ E.ls (writes E (labelled cs)) (directory port key))
    (hin : inWindow port key noEarlierThan now v) :
    ∃ t, Greatest cs port key noEarlierThan now t ∧ v.1 ≤ path port key t := by
  cases hlast : lastInWindow port key noEarlierThan now
      (E.ls (writes E (labelled cs)) (directory port key)) with
  | none =>
    rw [lastInWindow, List.getLast?_eq_none_iff, List.filter_eq_nil_iff] at hlast
    exact absurd hin (hlast _ hv)
  | some last =>
    have htaken : taken E (writes E (labelled cs)) key noEarlierThan now port = some last.2 := by
      rw [taken, hlast, Option.map_some]
    obtain ⟨t, ht, hpath⟩ :=
      eq_path_of_newestValue h (taken_labelled h hreads hport hnow hwindow htaken)
    obtain ⟨hlisted, -, hmax⟩ := lastInWindow_ls.mp hlast
    refine ⟨t, ht, ?_⟩
    rw [← hpath, get?_labelled h (E.mem_ls.mp hlisted).2]
    exact hmax _ hv hin

theorem readsInOrder_of_readsNewest {allPorts : List Uint32} (hreads : ReadsNewest E cs allPorts key)
    (hport : port ∈ allPorts) {c : Slot} (hc : c ∈ cs) (hbelow : c.Below port key) :
    c.ReadsInOrder cs port key := by
  have hfinite := finite_clocks cs
  have hclocks : ∀ {now : Uint64}, (∀ t ∈ clocks cs, t ≤ now) → ∀ c ∈ cs, c.now ≤ now :=
    fun hnow c hc => hnow _ ⟨c, hc, rfl⟩
  obtain ⟨value, hentry⟩ : ∃ value,
      (c.path, value) ∈ E.ls (writes E (labelled cs)) (directory port key) :=
    mem_ls_of_below (accepted_labelled h) (w := ⟨c, c.path⟩) (List.mem_map_of_mem hc) hbelow
  -- the first read decodes every path
  obtain ⟨later, hpos, hlater, -⟩ := exists_read hfinite 0
  have hcandidates := (hreads _ (map_toSlot_labelled cs) 0 later (hclocks hlater)).1 hpos
  obtain ⟨time, htime⟩ := times_of_candidateValues hcandidates port hport _ hentry
  rw [timeOf_below hbelow] at htime
  have hread : ∀ now, (∀ t ∈ clocks cs, t ≤ now) → time ≤ now →
      ∃ t, Greatest cs port key time now t ∧ c.path ≤ path port key t := fun now hnow htimenow =>
    exists_greatest_of_reads h hreads hport (hclocks hnow) htimenow hentry
      ((inWindow_below hbelow htime _).mpr ⟨le_rfl, htimenow⟩)
  refine ⟨time, htime, ?_, fun d hd hof hle hvisible => ?_⟩
  · obtain ⟨now, htimenow, hnow, hcases⟩ := exists_read hfinite time
    obtain ⟨t, ⟨⟨⟨d, hd, hof, rfl⟩, hfrom, hto⟩, -⟩, -⟩ := hread now hnow htimenow
    refine ⟨d, hd, hof, hfrom, ?_⟩
    rcases hcases with rfl | ⟨y, hy, rfl⟩
    · exact Or.inl hto
    · exact Or.inr ⟨y, hy, hto⟩
  · have hdtime : d.publishTime ∈ times cs port key := ⟨d, hd, hof, rfl⟩
    obtain ⟨now, hnewest, hnow⟩ := exists_newest hfinite hdtime hvisible
    obtain ⟨t, ht, hpath⟩ := hread now hnow (hle.trans hnewest.le_now)
    have hsame : t = d.publishTime :=
      le_antisymm (hnewest.le ht.1.1 ht.1.2.2) (ht.2 ⟨hnewest.mem, hle, hnewest.le_now⟩)
    rwa [hsame, hof.path_eq, path_le_path hbelow hof] at hpath

end Labelled

/-- **When EtcdKVS reads the newest versions.** For accepted calls: exactly when every path below the
directory of the key, of each port that is read, is read in the order of the versions of the key. -/
theorem readsNewest_iff {cs : List Slot} (h : Accepted cs) (allPorts : List Uint32) (key : Str) :
    ReadsNewest E cs allPorts key
      ↔ ∀ port ∈ allPorts, ∀ c ∈ cs, c.Below port key → c.ReadsInOrder cs port key := by
  refine ⟨fun hreads port hport c hc hbelow =>
    readsInOrder_of_readsNewest h hreads hport hc hbelow, fun horder => ?_⟩
  rintro ws rfl noEarlierThan now hnow newest
  have htimes : ∀ port ∈ allPorts, ∀ v ∈ E.ls (writes E ws) (directory port key),
      ∃ time, timeOf port key v = .ok time := by
    intro port hport v hv
    obtain ⟨w, hw, hbelow, rfl⟩ := exists_of_mem_ls h hv
    obtain ⟨time, htime, -⟩ := horder port hport _ (List.mem_map_of_mem hw) hbelow
    exact ⟨time, (timeOf_below hbelow _).trans htime⟩
  have hcandidates : candidateValues E (writes E ws) allPorts key noEarlierThan now = .ok newest := by
    rw [candidateValues_eq htimes]
    exact congrArg _ (List.filterMap_congr fun port hport =>
      taken_eq_newestValue h hnow (horder port hport))
  refine ⟨fun _ => hcandidates, fun F useSimpleMedian value => ?_⟩
  rw [tryRead, hcandidates]
  by_cases hwindow : noEarlierThan > now
  · -- an empty window has no newest value
    have hnewest : newest = [] := by
      refine List.filterMap_eq_nil_iff.mpr fun port _ => Option.eq_none_iff_forall_ne_some.mpr
        fun value hvalue => ?_
      obtain ⟨t, ht, -⟩ := (newestValue_eq_some (E := E) h).mp hvalue
      exact absurd (ht.1.2.1.trans ht.1.2.2) (not_le.mpr hwindow)
    rw [if_pos hwindow, hnewest]
    cases useSimpleMedian <;> rfl
  · rw [if_neg hwindow]

/-- Two versions whose times have the same number of digits. -/
theorem readsNewest_iff_sameDigits :
    ReadsNewest Etcd.inMemory [⟨0, 8000, [107], 10⟩, ⟨0, 8000, [107], 20⟩] [8000, 8001] [107] := by
  refine (readsNewest_iff (by simp [Accepted]) _ _).mpr fun port _ c hc hbelow => ?_
  have hof : c.Of port [107] := by
    refine ⟨hbelow.1, ?_⟩
    simp only [List.mem_cons, List.not_mem_nil, or_false] at hc
    rcases hc with rfl | rfl <;> rfl
  refine ⟨c.publishTime, by rw [hof.text_eq, stoull_render], ⟨c, hc, hof, le_rfl, Or.inl le_rfl⟩, ?_⟩
  intro d hd _ hle _
  rw [hof.text_eq]
  simp only [List.mem_cons, List.not_mem_nil, or_false] at hc hd
  rcases hc with rfl | rfl <;> rcases hd with rfl | rfl <;> revert hle <;> decide +kernel

/-- Of the times 9 and 10 the loop takes 9, and what is below `a/b/` throws when `a` is read. -/
theorem not_readsNewest_digits :
    ¬ReadsNewest Etcd.inMemory [⟨0, 8000, [107], 9⟩, ⟨0, 8000, [107], 10⟩] [8000] [107]
      ∧ ¬ReadsNewest Etcd.inMemory [⟨0, 8000, [97], 9⟩, ⟨0, 8000, [97, 47, 98], 10⟩] [8000] [97] := by
  constructor
  · intro h
    have hread := (h [⟨⟨0, 8000, [107], 9⟩, [120]⟩, ⟨⟨0, 8000, [107], 10⟩, [121]⟩] rfl 0 10 (by simp)).1
      (by decide)
    exact absurd hread (by decide +kernel)
  · intro h
    have hread := (h [⟨⟨0, 8000, [97], 9⟩, [120]⟩, ⟨⟨0, 8000, [97, 47, 98], 10⟩, [121]⟩] rfl 0 10
      (by simp)).1 (by decide)
    exact absurd hread (by decide +kernel)

end EtcdKVS

end Achal
