import Inconcretes.EigTree.Buffers
import Inconcretes.Lib.UnorderedMap
import Inconcretes.Lib.Voting
import Mathlib.Tactic.Linarith

/-!
# Reduction of an EIG tree

`reduce()` resolves the levels from the leaves to the root. At each valid node it groups the children by
the CRC-32 of their bytes, takes a largest group in the iteration order of a hash map, and adopts the
last child of that group when the group has more than `degree - height - l` members, computed in
`uint32_t`.

`reduce_eq_resolve` reads the loops back as one equation for each node. When no more than twice the
threshold plus one children vote, at most one group wins, the iteration order plays no part, and the node
is the `voteBy` of its children under the checksum (`resolve_eq_voteBy`).

The checksum is a parameter: `crc bs` stands for what `boost::crc_32_type` returns after `process_bytes`.
-/

namespace Achal

open Voting

/-- `freq` and `index` of `reduce()`. -/
structure Tally where
  freq : UMap UInt32 ℕ
  index : UMap UInt32 ℕ

namespace Shape

variable (S : Shape) (crc : List UInt8 → UInt32) {T : Type*} [Pod T]

/-- The CRC-32 of the bytes of a node. -/
def checksum (v : T) : UInt32 := crc (Pod.bytes v)

/-- One child: `freq[hash]++` and `index[hash] = child`. -/
def countChild (val : ℕ → T) (t : Tally) (child : ℕ) : Tally :=
  let hash := checksum crc (val child)
  { freq := t.freq.upsert hash fun o => o.getD 0 + 1
    index := t.index.upsert hash fun _ => child }

/-- The loop over the children of a node. -/
def tally (val : ℕ → T) (children : List ℕ) : Tally := children.foldl (countChild crc val) ⟨∅, ∅⟩

/-- One entry of `freq`, with `max_frequency` and `maj` so far. -/
def compareEntry (index : UMap UInt32 ℕ) (acc : ℤ × ℤ) (p : Σ _ : UInt32, ℕ) : ℤ × ℤ :=
  if (p.2 : ℤ) > acc.1 then ((p.2 : ℤ), (((index.lookup p.1).getD 0 : ℕ) : ℤ)) else acc

/-- The loop over `freq`, from `max_frequency = -1` and `maj = -1`. -/
def plurality (index : UMap UInt32 ℕ) (entries : List (Σ _ : UInt32, ℕ)) : ℤ × ℤ :=
  entries.foldl (compareEntry index) (-1, -1)

/-- Conversion of an `int` to `uint32_t`. -/
def toUint32 (i : ℤ) : ℕ := (i % 2 ^ 32).toNat

/-- `degree - height - l`. -/
def threshold (l : ℕ) : ℕ := toUint32 (S.degree - S.height - l)

/-- The value that a node of level `l` gets from its children. -/
def resolve (order : IterOrder UInt32 ℕ) (l : ℕ) (children : List ℕ) (val : ℕ → T) : T :=
  let t := tally crc val children
  let m := plurality t.index (order.visit t.freq)
  if toUint32 m.1 > S.threshold l then val m.2.toNat else Pod.zero

variable (order : ℕ → ℕ → IterOrder UInt32 ℕ)

/-- One iteration of the loop over the nodes of level `l`. -/
def reduceNode (l n : ℕ) (lv : Levels T) : Levels T :=
  if S.valid l n then lv.set l n (S.resolve crc (order l n) l (S.children l n) (lv (l + 1))) else lv

/-- One iteration of the loop over the levels. -/
def reduceLevel (l : ℕ) (lv : Levels T) : Levels T :=
  (List.range (S.numNodes l)).foldl (fun lv n => S.reduceNode crc order l n lv) lv

/-- `reduce()`: the levels `height - 1` to `0`. -/
def reduce (lv : Levels T) : Levels T :=
  (List.range S.height).reverse.foldl (fun lv l => S.reduceLevel crc order l lv) lv

/-! ## One equation for each node -/

theorem foldl_reduceNode (l : ℕ) (ns : List ℕ) (hns : ns.Nodup) (lv : Levels T) (l' n : ℕ) :
    ns.foldl (fun lv n => S.reduceNode crc order l n lv) lv l' n
      = if l' = l ∧ n ∈ ns ∧ S.valid l n = true then
          S.resolve crc (order l n) l (S.children l n) (lv (l + 1))
        else lv l' n := by
  induction ns generalizing lv with
  | nil => simp
  | cons m ns ih =>
    obtain ⟨hm, hns⟩ := List.nodup_cons.mp hns
    have hlevel : S.reduceNode crc order l m lv (l + 1) = lv (l + 1) := by
      unfold reduceNode
      split
      · funext k
        exact Levels.set_of_ne _ _ fun h => Nat.succ_ne_self l h.1
      · rfl
    rw [List.foldl_cons, ih hns, hlevel]
    by_cases hl : l' = l
    · subst hl
      by_cases hn : n = m
      · subst hn
        by_cases hv : S.valid l' n = true
        · rw [if_neg (fun h => hm h.2.1), if_pos ⟨rfl, List.mem_cons_self, hv⟩, reduceNode, if_pos hv,
            Levels.set_same]
        · rw [if_neg (fun h => hv h.2.2), if_neg (fun h => hv h.2.2), reduceNode, if_neg hv]
      · have hkeep : S.reduceNode crc order l' m lv l' n = lv l' n := by
          unfold reduceNode
          split
          · exact Levels.set_of_ne _ _ fun h => hn h.2
          · rfl
        rw [hkeep]
        simp [hn]
    · rw [if_neg (fun h => hl h.1), if_neg (fun h => hl h.1), reduceNode]
      split
      · exact Levels.set_of_ne _ _ fun h => hl h.1
      · rfl

theorem reduceLevel_apply (l : ℕ) (lv : Levels T) (l' n : ℕ) :
    S.reduceLevel crc order l lv l' n
      = if l' = l ∧ n < S.numNodes l ∧ S.valid l n = true then
          S.resolve crc (order l n) l (S.children l n) (lv (l + 1))
        else lv l' n := by
  rw [reduceLevel, S.foldl_reduceNode crc order l _ List.nodup_range]
  simp [List.mem_range]

/-- The levels `m - 1` to `0`: every node below `m` is resolved from the resolved level above it. -/
theorem foldl_reduceLevel (m : ℕ) (lv : Levels T) (l n : ℕ) :
    (List.range m).reverse.foldl (fun lv l => S.reduceLevel crc order l lv) lv l n
      = if l < m ∧ n < S.numNodes l ∧ S.valid l n = true then
          S.resolve crc (order l n) l (S.children l n)
            ((List.range m).reverse.foldl (fun lv l => S.reduceLevel crc order l lv) lv (l + 1))
        else lv l n := by
  induction m generalizing lv l n with
  | zero => simp
  | succ m ih =>
    have habove : ∀ (lv : Levels T) (l : ℕ), m ≤ l →
        (List.range m).reverse.foldl (fun lv l => S.reduceLevel crc order l lv) lv l = lv l := by
      intro lv l hl
      funext k
      rw [ih, if_neg (fun h => absurd h.1 (Nat.not_lt.mpr hl))]
    rw [List.range_succ, List.reverse_append, List.reverse_singleton, List.singleton_append,
      List.foldl_cons]
    rcases Nat.lt_trichotomy l m with hlt | rfl | hgt
    · rw [ih]
      by_cases h : n < S.numNodes l ∧ S.valid l n = true
      · rw [if_pos ⟨hlt, h⟩, if_pos ⟨by omega, h⟩]
      · rw [if_neg (fun h' => h h'.2), if_neg (fun h' => h h'.2), reduceLevel_apply,
          if_neg (fun h' => by omega)]
    · rw [habove _ l le_rfl, habove _ (l + 1) (by omega), reduceLevel_apply]
      have hnext : S.reduceLevel crc order l lv (l + 1) = lv (l + 1) := by
        funext k
        rw [reduceLevel_apply, if_neg (fun h => Nat.succ_ne_self l h.1)]
      rw [hnext]
      by_cases h : n < S.numNodes l ∧ S.valid l n = true
      · rw [if_pos ⟨rfl, h⟩, if_pos ⟨by omega, h⟩]
      · rw [if_neg (fun h' => h h'.2), if_neg (fun h' => h h'.2)]
    · rw [habove _ l hgt.le, reduceLevel_apply, if_neg (fun h => by omega), if_neg (fun h => by omega)]

/-- **Reduction, node by node.** A valid inner node is resolved from its reduced children. -/
theorem reduce_eq_resolve (lv : Levels T) {l n : ℕ} (hl : l < S.height) (hn : n < S.numNodes l)
    (hv : S.valid l n = true) :
    S.reduce crc order lv l n
      = S.resolve crc (order l n) l (S.children l n) (S.reduce crc order lv (l + 1)) := by
  rw [reduce, foldl_reduceLevel, if_pos ⟨hl, hn, hv⟩]

/-- Reduction leaves the leaves as they are. -/
theorem reduce_leaf (lv : Levels T) {l : ℕ} (hl : S.height ≤ l) (n : ℕ) :
    S.reduce crc order lv l n = lv l n := by
  rw [reduce, foldl_reduceLevel, if_neg (fun h => absurd h.1 (Nat.not_lt.mpr hl))]

/-! ## Grouping children by checksum -/

theorem foldl_countChild (val : ℕ → T) (children : List ℕ) (t : Tally) :
    children.foldl (countChild crc val) t
      = { freq := children.foldl
            (fun m c => m.upsert (checksum crc (val c)) fun o => o.getD 0 + 1) t.freq
          index := children.foldl (fun m c => m.upsert (checksum crc (val c)) fun _ => c) t.index } := by
  induction children generalizing t with
  | nil => rfl
  | cons c cs ih => rw [List.foldl_cons, ih]; rfl

/-- `freq` counts the children of each checksum. -/
theorem tally_freq (val : ℕ → T) (children : List ℕ) (g : UInt32) :
    (tally crc val children).freq.lookup g
      = if children.countP (fun c => checksum crc (val c) = g) = 0 then none
        else some (children.countP fun c => checksum crc (val c) = g) := by
  rw [tally, foldl_countChild]
  exact UMap.lookup_foldl_count _ children g

/-- `index` holds the last child of each checksum. -/
theorem tally_index (val : ℕ → T) (children : List ℕ) (g : UInt32) :
    (tally crc val children).index.lookup g
      = (children.filter fun c => checksum crc (val c) = g).getLast? := by
  have hlast := UMap.lookup_foldl_last (fun c => checksum crc (val c)) id children ∅ g
  rw [AList.lookup_empty, Option.or_none, Option.map_id] at hlast
  rw [tally, foldl_countChild]
  exact hlast

theorem foldl_compareEntry (index : UMap UInt32 ℕ) (es : List (Σ _ : UInt32, ℕ))
    (a : Σ _ : UInt32, ℕ) :
    ∃ e ∈ a :: es, es.foldl (compareEntry index) ((a.2 : ℤ), (((index.lookup a.1).getD 0 : ℕ) : ℤ))
        = ((e.2 : ℤ), (((index.lookup e.1).getD 0 : ℕ) : ℤ))
      ∧ ∀ e' ∈ a :: es, e'.2 ≤ e.2 := by
  induction es generalizing a with
  | nil => exact ⟨a, List.mem_cons_self, rfl, by simp⟩
  | cons b es ih =>
    rw [List.foldl_cons, compareEntry]
    by_cases hgt : (b.2 : ℤ) > a.2
    · rw [if_pos hgt]
      obtain ⟨e, he, heq, hmax⟩ := ih b
      have hb := hmax b List.mem_cons_self
      refine ⟨e, List.mem_cons_of_mem _ he, heq, List.forall_mem_cons.mpr ⟨by omega, hmax⟩⟩
    · rw [if_neg hgt]
      obtain ⟨e, he, heq, hmax⟩ := ih a
      obtain ⟨ha, hes⟩ := List.forall_mem_cons.mp hmax
      refine ⟨e, ?_, heq, List.forall_mem_cons.mpr ⟨ha, List.forall_mem_cons.mpr ⟨by omega, hes⟩⟩⟩
      rcases List.mem_cons.mp he with rfl | he
      · exact List.mem_cons_self
      · exact List.mem_cons_of_mem _ (List.mem_cons_of_mem _ he)

/-- The loop over `freq` ends at an entry with the greatest count. -/
theorem plurality_spec (index : UMap UInt32 ℕ) {entries : List (Σ _ : UInt32, ℕ)} (hne : entries ≠ []) :
    ∃ e ∈ entries, plurality index entries = ((e.2 : ℤ), (((index.lookup e.1).getD 0 : ℕ) : ℤ))
      ∧ ∀ e' ∈ entries, e'.2 ≤ e.2 := by
  obtain ⟨a, es, rfl⟩ := List.exists_cons_of_ne_nil hne
  rw [plurality, List.foldl_cons, compareEntry, if_pos (by show (-1 : ℤ) < a.2; omega)]
  exact foldl_compareEntry index es a

theorem toUint32_natCast {n : ℕ} (h : n < 2 ^ 32) : toUint32 n = n := by
  unfold toUint32
  omega

/-- Without wrap-around the threshold is the one the formula shows. -/
theorem threshold_eq {l : ℕ} (h : S.height + l ≤ S.degree) :
    S.threshold l = S.degree - S.height - l := by
  have := S.degree_lt
  unfold threshold toUint32
  omega

/-- The entries of `freq`: every checksum that occurs, with the size of its group. -/
theorem mem_visit_freq (o : IterOrder UInt32 ℕ) (val : ℕ → T) (children : List ℕ)
    {e : Σ _ : UInt32, ℕ} :
    e ∈ o.visit (tally crc val children).freq
      ↔ e.2 = groupSize (checksum crc) e.1 (children.map val) ∧ 0 < e.2 := by
  have hsize : groupSize (checksum crc) e.1 (children.map val)
      = children.countP fun c => checksum crc (val c) = e.1 := List.countP_map
  rw [o.mem_visit, tally_freq, hsize]
  split
  · rename_i h0
    simp only [reduceCtorEq, false_iff, not_and]
    omega
  · rename_i h0
    rw [Option.some.injEq]
    exact ⟨fun h => ⟨h.symm, by omega⟩, fun h => h.1.symm⟩

/-- The node that `index` leads to is the last child of the group. -/
theorem val_index (val : ℕ → T) {children : List ℕ} {g : UInt32} (dflt : T)
    (hg : 0 < groupSize (checksum crc) g (children.map val)) :
    val (((tally crc val children).index.lookup g).getD 0)
      = (((children.map val).filter (checksum crc · = g)).getLast?).getD dflt := by
  obtain ⟨v, hv, hvg⟩ := groupSize_pos_iff.mp hg
  obtain ⟨c, hc, rfl⟩ := List.mem_map.mp hv
  have hmem : c ∈ children.filter fun c => checksum crc (val c) = g :=
    List.mem_filter.mpr ⟨hc, by simpa using hvg⟩
  rw [tally_index, List.filter_map, List.getLast?_map]
  show val (((children.filter fun c => checksum crc (val c) = g).getLast?).getD 0)
    = (((children.filter fun c => checksum crc (val c) = g).getLast?).map val).getD dflt
  rw [List.getLast?_eq_some_getLast (List.ne_nil_of_mem hmem)]
  rfl

/-- The outcome of a vote that the group `g` has won or lost. -/
def groupValue (l : ℕ) (children : List ℕ) (val : ℕ → T) (g : UInt32) : T :=
  if S.threshold l < groupSize (checksum crc) g (children.map val) then
    (((children.map val).filter (checksum crc · = g)).getLast?).getD Pod.zero
  else Pod.zero

/-- A node depends on the group with which the loop over `freq` ends, and on nothing else. -/
theorem resolve_of_plurality (o : IterOrder UInt32 ℕ) {l : ℕ} {children : List ℕ} (val : ℕ → T)
    (hlen : children.length < 2 ^ 32) {e : Σ _ : UInt32, ℕ}
    (he : e ∈ o.visit (tally crc val children).freq)
    (heq : plurality (tally crc val children).index (o.visit (tally crc val children).freq)
      = ((e.2 : ℤ), ((((tally crc val children).index.lookup e.1).getD 0 : ℕ) : ℤ))) :
    S.resolve crc o l children val = S.groupValue crc l children val e.1 := by
  obtain ⟨hsize, hpos⟩ := (mem_visit_freq crc o val children).mp he
  have hcount : e.2 < 2 ^ 32 := by
    rw [hsize]
    exact lt_of_le_of_lt (List.countP_le_length.trans_eq (List.length_map _)) hlen
  rw [resolve, heq]
  simp only [toUint32_natCast hcount, Int.toNat_natCast]
  rw [val_index crc val Pod.zero (hsize ▸ hpos), hsize]
  rfl

/-- A node gets the last child of a largest group, if that is over the threshold. -/
theorem resolve_spec (o : IterOrder UInt32 ℕ) {l : ℕ} {children : List ℕ} (val : ℕ → T)
    (hne : children ≠ []) (hlen : children.length < 2 ^ 32) :
    ∃ g, 0 < groupSize (checksum crc) g (children.map val)
      ∧ (∀ g', groupSize (checksum crc) g' (children.map val)
        ≤ groupSize (checksum crc) g (children.map val))
      ∧ S.resolve crc o l children val = S.groupValue crc l children val g := by
  -- every child that occurs has its group among the entries
  have hvisit : ∀ g, 0 < groupSize (checksum crc) g (children.map val) →
      ⟨g, groupSize (checksum crc) g (children.map val)⟩ ∈ o.visit (tally crc val children).freq :=
    fun g hg => (mem_visit_freq crc o val children).mpr ⟨rfl, hg⟩
  have hentries : o.visit (tally crc val children).freq ≠ [] := by
    obtain ⟨c, hc⟩ := List.exists_mem_of_ne_nil children hne
    exact List.ne_nil_of_mem (hvisit _ (groupSize_pos_iff.mpr ⟨val c, List.mem_map_of_mem hc, rfl⟩))
  obtain ⟨e, he, heq, hmax⟩ := plurality_spec (tally crc val children).index hentries
  obtain ⟨hsize, hpos⟩ := (mem_visit_freq crc o val children).mp he
  refine ⟨e.1, hsize ▸ hpos, fun g' => ?_, S.resolve_of_plurality crc o val hlen he heq⟩
  rcases Nat.eq_zero_or_pos (groupSize (checksum crc) g' (children.map val)) with hzero | hg'
  · omega
  · exact hsize ▸ hmax _ (hvisit g' hg')

/-- **The vote of a node.** If more than half of the children are needed to exceed the threshold, the
node gets the last child of the one group that exceeds it, whatever the iteration order. -/
theorem resolve_eq_voteBy (o : IterOrder UInt32 ℕ) {l : ℕ} {children : List ℕ} (val : ℕ → T)
    (hne : children ≠ []) (hlen : children.length < 2 ^ 32)
    (hs : children.length < 2 * (S.threshold l + 1)) :
    S.resolve crc o l children val
      = voteBy (checksum crc) (S.threshold l) Pod.zero (children.map val) := by
  have hs' : (children.map val).length < 2 * (S.threshold l + 1) := by rwa [List.length_map]
  obtain ⟨g, -, hmax, heq⟩ := S.resolve_spec crc o val hne hlen
  rw [heq, groupValue]
  by_cases hbig : S.threshold l < groupSize (checksum crc) g (children.map val)
  · rw [if_pos hbig, voteBy_of_group hs' hbig]
  · rw [if_neg hbig, voteBy_default fun v _ => (hmax _).trans (not_lt.mp hbig)]

/-- Only the values of the children enter a vote. -/
theorem resolve_congr (o : IterOrder UInt32 ℕ) (l : ℕ) {children : List ℕ} {val val' : ℕ → T}
    (hne : children ≠ []) (h : ∀ c ∈ children, val c = val' c) :
    S.resolve crc o l children val = S.resolve crc o l children val' := by
  have htally : tally crc val children = tally crc val' children := by
    unfold tally
    refine List.foldl_ext _ _ _ fun t c hc => ?_
    rw [countChild, countChild, h c hc]
  have hmap : children.map val = children.map val' := List.map_congr_left h
  have hentries : o.visit (tally crc val children).freq ≠ [] := by
    obtain ⟨c, hc⟩ := List.exists_mem_of_ne_nil children hne
    exact List.ne_nil_of_mem ((mem_visit_freq crc o val children
      (e := ⟨checksum crc (val c), groupSize (checksum crc) (checksum crc (val c)) (children.map val)⟩)).mpr
        ⟨rfl, groupSize_pos_iff.mpr ⟨val c, List.mem_map_of_mem hc, rfl⟩⟩)
  obtain ⟨e, he, heq, -⟩ := plurality_spec (tally crc val children).index hentries
  obtain ⟨hsize, hpos⟩ := (mem_visit_freq crc o val children).mp he
  have hval := val_index crc val Pod.zero (hsize ▸ hpos)
  have hpos' : 0 < groupSize (checksum crc) e.1 (children.map val') := hmap ▸ hsize ▸ hpos
  have hval' := val_index crc val' Pod.zero hpos'
  rw [← htally, ← hmap, ← hval] at hval'
  rw [resolve, resolve, ← htally, heq]
  simp only [Int.toNat_natCast, hval']

/-! ## Reduction over labels -/

theorem children_node_ne_nil {σ : List (Fin S.degree)} (hσ : σ.Nodup) (hl : σ.length < S.height) :
    S.children σ.length (S.node σ) ≠ [] := by
  have hlen := S.length_children_node hσ
  have := S.height_le
  apply List.ne_nil_of_length_pos
  omega

theorem reduce_node (lv : Levels T) {σ : List (Fin S.degree)} (hσ : σ.Nodup)
    (hl : σ.length < S.height) :
    S.reduce crc order lv σ.length (S.node σ)
      = S.resolve crc (order σ.length (S.node σ)) σ.length (S.children σ.length (S.node σ))
          (S.reduce crc order lv (σ.length + 1)) :=
  S.reduce_eq_resolve crc order lv hl (S.node_lt σ) ((S.valid_node σ).mpr hσ)

/-- Reduction reads the valid leaves only. -/
theorem reduce_congr {lv lv' : Levels T}
    (h : ∀ σ : List (Fin S.degree), σ.Nodup → σ.length = S.height →
      lv S.height (S.node σ) = lv' S.height (S.node σ))
    {σ : List (Fin S.degree)} (hσ : σ.Nodup) (hl : σ.length ≤ S.height) :
    S.reduce crc order lv σ.length (S.node σ) = S.reduce crc order lv' σ.length (S.node σ) := by
  refine S.label_induction (fun σ hσ hlen => ?_) (fun σ hσ hlt ih => ?_) hσ hl
  · rw [hlen, S.reduce_leaf crc order lv le_rfl, S.reduce_leaf crc order lv' le_rfl, h σ hσ hlen]
  · rw [S.reduce_node crc order lv hσ hlt, S.reduce_node crc order lv' hσ hlt]
    refine S.resolve_congr crc _ _ (S.children_node_ne_nil hσ hlt) fun c hc => ?_
    obtain ⟨x, hx, rfl⟩ := (S.mem_children_node hσ).mp hc
    exact ih x hx

/-- `d >= 3(h-1)+1` and `h >= 1`: the sizes for which `h - 1` faults are tolerated. -/
def Tolerates : Prop := 1 ≤ S.height ∧ 3 * (S.height - 1) + 1 ≤ S.degree

variable {S}

theorem Tolerates.threshold_eq (hS : S.Tolerates) {l : ℕ} (hl : l < S.height) :
    S.threshold l = S.degree - S.height - l := by
  obtain ⟨hh, hd⟩ := hS
  exact S.threshold_eq (by omega)

/-- More than half of the children are needed to exceed the threshold. -/
theorem Tolerates.strict (hS : S.Tolerates) {l : ℕ} (hl : l < S.height) :
    S.degree - l < 2 * (S.degree - S.height - l + 1) := by
  obtain ⟨hh, hd⟩ := hS
  omega

/-- The votes that the children of a label cast, relayer by relayer. -/
def votes (lv : Levels T) (σ : List (Fin S.degree)) : List T :=
  ((List.finRange S.degree).filter (· ∉ σ)).map fun x => lv (σ.length + 1) (S.node (x :: σ))

omit [Pod T] in
theorem map_children_eq_votes (lv : Levels T) {σ : List (Fin S.degree)} (hσ : σ.Nodup) :
    (S.children σ.length (S.node σ)).map (lv (σ.length + 1)) = votes lv σ := by
  rw [S.children_node hσ, List.map_map]
  rfl

omit [Pod T] in
theorem length_votes (lv : Levels T) {σ : List (Fin S.degree)} (hσ : σ.Nodup) :
    (votes lv σ).length = S.degree - σ.length := by
  rw [← map_children_eq_votes lv hσ, List.length_map, S.length_children_node hσ]

/-- **Reduction at the tolerated sizes.** Every valid inner node is the vote of its children under the
checksum. -/
theorem Tolerates.reduce_eq_voteBy (hS : S.Tolerates) (lv : Levels T) {σ : List (Fin S.degree)}
    (hσ : σ.Nodup) (hl : σ.length < S.height) :
    S.reduce crc order lv σ.length (S.node σ)
      = voteBy (checksum crc) (S.degree - S.height - σ.length) Pod.zero
          (votes (S.reduce crc order lv) σ) := by
  have hlen := S.length_children_node hσ
  have hdeg := S.degree_lt
  rw [S.reduce_node crc order lv hσ hl,
    S.resolve_eq_voteBy crc _ _ (S.children_node_ne_nil hσ hl) (by omega)
      (by rw [hlen, hS.threshold_eq hl]; exact hS.strict hl),
    hS.threshold_eq hl, map_children_eq_votes _ hσ]

end Shape

end Achal
