import Inconcretes.EigTree.Crc32
import Inconcretes.EigTree.Reduce

/-!
# Unanimity and ties

The constructor accepts every `height <= degree`. Below `2 * height <= degree + 1` the threshold of level
`height - 1` is a negative number taken modulo `2 ^ 32`: no group exceeds it, and every inner node is
cleared whatever the leaves hold (`keepsUnanimity_iff`). Above it, but below `3 * height <= degree + 2`,
two groups of equal size can both exceed the threshold, and the node takes the one that the hash map
happens to list first (`orderIndependent_iff`).
-/

namespace Achal

open Voting

namespace Shape

variable (S : Shape) (crc : List UInt8 → UInt32) {T : Type*} [Pod T]

/-! ## The threshold as a machine integer -/

theorem threshold_eq_iff {l : ℕ} (hl : l < S.height) :
    (S.threshold l : ℤ) = S.degree - S.height - l ↔ S.height + l ≤ S.degree := by
  have := S.degree_lt
  have := S.height_le
  unfold threshold toUint32
  omega

/-- A threshold that wraps is out of reach for the children of the level. -/
theorem le_threshold_of_wrap {l : ℕ} (hl : l < S.height) (hwrap : S.degree < S.height + l) :
    S.degree - l ≤ S.threshold l := by
  have := S.degree_lt
  have := S.height_le
  unfold threshold toUint32
  omega

theorem threshold_lt {l : ℕ} (hl : l < S.height) (h : S.height + l ≤ S.degree) :
    S.threshold l < S.degree - l := by
  rw [S.threshold_eq h]
  omega

/-! ## One vote -/

theorem resolve_of_le_threshold (o : IterOrder UInt32 ℕ) {l : ℕ} {children : List ℕ} (val : ℕ → T)
    (hne : children ≠ []) (hlen : children.length < 2 ^ 32) (h : children.length ≤ S.threshold l) :
    S.resolve crc o l children val = Pod.zero := by
  obtain ⟨g, -, -, heq⟩ := S.resolve_spec crc o val hne hlen
  have hsize : groupSize (checksum crc) g (children.map val) ≤ children.length :=
    List.countP_le_length.trans_eq (List.length_map _)
  rw [heq, groupValue, if_neg (not_lt.mpr (hsize.trans h))]

/-- Children that all hold `v` lead to `v`, unless there are too few of them. -/
theorem resolve_of_forall_eq (o : IterOrder UInt32 ℕ) {l : ℕ} {children : List ℕ} {val : ℕ → T} {v : T}
    (hne : children ≠ []) (hlen : children.length < 2 ^ 32) (hall : ∀ c ∈ children, val c = v)
    (h : S.threshold l < children.length ∨ v = Pod.zero) :
    S.resolve crc o l children val = v := by
  obtain ⟨g, hpos, -, heq⟩ := S.resolve_spec crc o val hne hlen
  have hmap : children.map val = List.replicate children.length v :=
    List.eq_replicate_iff.mpr ⟨List.length_map _, fun w hw => by
      obtain ⟨c, hc, rfl⟩ := List.mem_map.mp hw
      exact hall c hc⟩
  obtain ⟨w, hw, hkey⟩ := groupSize_pos_iff.mp hpos
  rw [hmap] at hw
  rw [List.eq_of_mem_replicate hw] at hkey
  have hsize : groupSize (checksum crc) g (children.map val) = children.length := by
    rw [hmap, groupSize, List.countP_replicate, if_pos (by simpa using hkey)]
  rw [heq, groupValue, hsize]
  by_cases hbig : S.threshold l < children.length
  · rw [if_pos hbig, hmap, List.filter_replicate, if_pos (by simpa using hkey), List.getLast?_replicate,
      if_neg (by omega), Option.getD_some]
  · rw [if_neg hbig, h.resolve_left hbig]

/-! ## Whole levels -/

variable (order : ℕ → ℕ → IterOrder UInt32 ℕ)

theorem length_children_lt {σ : List (Fin S.degree)} (hσ : σ.Nodup) :
    (S.children σ.length (S.node σ)).length < 2 ^ 32 := by
  have := S.degree_lt
  rw [S.length_children_node hσ]
  omega

/-- What all nodes of a level hold goes down to the root. -/
theorem reduce_eq_of_level {m : ℕ} (hm : m ≤ S.height) (lv : Levels T) {v : T}
    (hlevel : ∀ σ : List (Fin S.degree), σ.Nodup → σ.length = m →
      S.reduce crc order lv m (S.node σ) = v)
    (hthr : ∀ l < m, S.threshold l < S.degree - l ∨ v = Pod.zero)
    {σ : List (Fin S.degree)} (hσ : σ.Nodup) (hl : σ.length ≤ m) :
    S.reduce crc order lv σ.length (S.node σ) = v := by
  refine S.label_induction (fun σ hσ hlen => ?_) (fun σ hσ hlt ih => ?_) hσ hl
  · rw [hlen]
    exact hlevel σ hσ hlen
  · have hheight := hlt.trans_le hm
    rw [S.reduce_node crc order lv hσ hheight]
    refine S.resolve_of_forall_eq crc _ (S.children_node_ne_nil hσ hheight) (S.length_children_lt hσ)
      (fun c hc => ?_) (by rw [S.length_children_node hσ]; exact hthr _ hlt)
    obtain ⟨x, hx, rfl⟩ := (S.mem_children_node hσ).mp hc
    exact ih x hx

/-- A wrapped threshold clears its level, and then every level below. -/
theorem reduce_eq_zero_of_wrap (hwrap : S.degree + 1 < 2 * S.height) (lv : Levels T)
    {σ : List (Fin S.degree)} (hσ : σ.Nodup) (hl : σ.length < S.height) :
    S.reduce crc order lv σ.length (S.node σ) = Pod.zero := by
  refine S.reduce_eq_of_level crc order (Nat.sub_le S.height 1) lv (fun τ hτ hlen => ?_)
    (fun _ _ => Or.inr rfl) hσ (by omega)
  rw [← hlen, S.reduce_node crc order lv hτ (by omega)]
  refine S.resolve_of_le_threshold crc _ _ (S.children_node_ne_nil hτ (by omega))
    (S.length_children_lt hτ) ?_
  rw [S.length_children_node hτ]
  exact S.le_threshold_of_wrap (by omega) (by omega)

/-! ## Unanimity -/

/-- Whatever value all valid leaves hold, all valid nodes hold after `reduce()`. -/
def KeepsUnanimity (T : Type*) [Pod T] : Prop :=
  ∀ (order : ℕ → ℕ → IterOrder UInt32 ℕ) (lv : Levels T) (v : T),
    (∀ n < S.numNodes S.height, S.valid S.height n = true → lv S.height n = v) →
      ∀ l ≤ S.height, ∀ n < S.numNodes l, S.valid l n = true → S.reduce crc order lv l n = v

/-- A label of every length up to the number of processes. -/
theorem exists_label {l : ℕ} (hl : l ≤ S.degree) : ∃ σ : List (Fin S.degree), σ.Nodup ∧ σ.length = l :=
  ⟨(List.finRange S.degree).take l, (List.nodup_finRange _).sublist (List.take_sublist _ _), by
    rw [List.length_take, List.length_finRange, min_eq_left hl]⟩

/-- **When unanimity is kept.** Exactly for the shapes in which no threshold wraps. -/
theorem keepsUnanimity_iff (hh : 1 ≤ S.height) {w : T} (hw : w ≠ Pod.zero) :
    (S.KeepsUnanimity crc T ↔ 2 * S.height ≤ S.degree + 1)
      ∧ ((∀ l < S.height, (S.threshold l : ℤ) = S.degree - S.height - l)
        ↔ 2 * S.height ≤ S.degree + 1) := by
  constructor
  · constructor
    · intro hkeeps
      by_contra hwrap
      obtain ⟨σ, hσ, hlen⟩ := S.exists_label (l := S.height - 1) ((Nat.sub_le _ _).trans S.height_le)
      have hkept := hkeeps (fun _ _ => IterOrder.newestFirst _ _) (fun _ _ => w) w (fun _ _ _ => rfl)
        σ.length (by omega) (S.node σ) (S.node_lt σ) ((S.valid_node σ).mpr hσ)
      rw [S.reduce_eq_zero_of_wrap crc _ (by omega) _ hσ (by omega)] at hkept
      exact hw hkept.symm
    · intro hshape order lv v hleaves l hl n hn hv
      obtain ⟨σ, rfl, rfl⟩ := S.exists_node hn
      refine S.reduce_eq_of_level crc order le_rfl lv (fun τ hτ hlen => ?_)
        (fun l hl => Or.inl (S.threshold_lt hl (by omega))) ((S.valid_node σ).mp hv) hl
      rw [S.reduce_leaf crc order lv le_rfl]
      exact hleaves _ (hlen ▸ S.node_lt τ) (hlen ▸ (S.valid_node τ).mpr hτ)
  · constructor
    · intro hexact
      have hlast := (S.threshold_eq_iff (l := S.height - 1) (by omega)).mp (hexact _ (by omega))
      omega
    · intro hshape l hl
      exact (S.threshold_eq_iff hl).mpr (by omega)

theorem keepsUnanimity_iff_four : four.KeepsUnanimity crc32 UInt8
    ∧ ∀ l < four.height, (four.threshold l : ℤ) = four.degree - four.height - l :=
  have hiff := four.keepsUnanimity_iff crc32 (by decide) (w := (1 : UInt8)) (by decide)
  ⟨hiff.1.mpr (by decide), hiff.2.mpr (by decide)⟩

/-- Two processes and two rounds. -/
abbrev two : Shape := ⟨2, 2, by decide, by decide⟩

/-- All four leaves hold 1, and the root is cleared. -/
theorem not_keepsUnanimity_two : 1 ≤ two.height ∧ ¬two.KeepsUnanimity crc32 UInt8 := by
  refine ⟨by decide, fun h => ?_⟩
  have hroot := h (fun _ _ => IterOrder.newestFirst _ _) (fun _ _ => 1) 1 (fun _ _ _ => rfl) 0 (by decide) 0
    (by decide) (by decide)
  exact absurd hroot (by decide +kernel)

/-! ## Ties -/

/-- Two iteration orders lead to the same root and the same `interactive_consistency_vector()`, for all
leaves whose values the checksum tells apart from each other and from a cleared node. -/
def OrderIndependent (T : Type*) [Pod T] : Prop :=
  ∀ (lv : Levels T) (order order' : ℕ → ℕ → IterOrder UInt32 ℕ),
    Set.InjOn (checksum crc) {v | v = Pod.zero
      ∨ ∃ n < S.numNodes S.height, S.valid S.height n = true ∧ lv S.height n = v} →
    (S.reduce crc order lv).root = (S.reduce crc order' lv).root
      ∧ S.interactiveConsistencyVector (S.reduce crc order lv)
        = S.interactiveConsistencyVector (S.reduce crc order' lv)

variable {S} in
theorem Tolerates.reduce_order_irrelevant (hS : S.Tolerates) (order' : ℕ → ℕ → IterOrder UInt32 ℕ)
    (lv : Levels T) {σ : List (Fin S.degree)} (hσ : σ.Nodup) (hl : σ.length ≤ S.height) :
    S.reduce crc order lv σ.length (S.node σ) = S.reduce crc order' lv σ.length (S.node σ) := by
  refine S.label_induction (fun σ hσ hlen => ?_) (fun σ hσ hlt ih => ?_) hσ hl
  · rw [S.reduce_leaf crc order lv hlen.ge, S.reduce_leaf crc order' lv hlen.ge]
  · rw [hS.reduce_eq_voteBy crc order lv hσ hlt, hS.reduce_eq_voteBy crc order' lv hσ hlt]
    congr 1
    refine List.map_congr_left fun x hx => ?_
    exact ih x (List.nodup_cons.mpr ⟨by simpa using (List.mem_filter.mp hx).2, hσ⟩)

/-- The order does not matter either when a threshold wraps. -/
theorem reduce_order_irrelevant_of_wrap (hwrap : S.degree + 1 < 2 * S.height)
    (order' : ℕ → ℕ → IterOrder UInt32 ℕ) (lv : Levels T) {σ : List (Fin S.degree)} (hσ : σ.Nodup)
    (hl : σ.length ≤ S.height) :
    S.reduce crc order lv σ.length (S.node σ) = S.reduce crc order' lv σ.length (S.node σ) := by
  rcases hl.lt_or_eq with hlt | heq
  · rw [S.reduce_eq_zero_of_wrap crc order hwrap lv hσ hlt, S.reduce_eq_zero_of_wrap crc order' hwrap lv hσ hlt]
  · rw [S.reduce_leaf crc order lv heq.ge, S.reduce_leaf crc order' lv heq.ge]

theorem foldl_compareEntry_of_le (index : UMap UInt32 ℕ) {es : List (Σ _ : UInt32, ℕ)} {acc : ℤ × ℤ}
    (h : ∀ e ∈ es, (e.2 : ℤ) ≤ acc.1) : es.foldl (compareEntry index) acc = acc := by
  induction es with
  | nil => rfl
  | cons e es ih =>
    obtain ⟨he, hes⟩ := List.forall_mem_cons.mp h
    rw [List.foldl_cons, compareEntry, if_neg (not_lt.mpr he), ih hes]

/-- Of several largest groups the one that is listed first wins. -/
theorem resolve_keyFirst {l : ℕ} {children : List ℕ} (val : ℕ → T) (hlen : children.length < 2 ^ 32)
    {g : UInt32} (hpos : 0 < groupSize (checksum crc) g (children.map val))
    (hmax : ∀ g', groupSize (checksum crc) g' (children.map val)
      ≤ groupSize (checksum crc) g (children.map val)) :
    S.resolve crc (IterOrder.keyFirst ℕ g) l children val = S.groupValue crc l children val g := by
  have hmem := (mem_visit_freq crc (IterOrder.keyFirst ℕ g) val children
    (e := ⟨g, groupSize (checksum crc) g (children.map val)⟩)).mpr ⟨rfl, hpos⟩
  obtain ⟨es, hes⟩ := IterOrder.keyFirst_visit ((IterOrder.mem_visit _).mp hmem)
  refine S.resolve_of_plurality crc _ val hlen hmem ?_
  have hbelow : ∀ e ∈ es, e.2 ≤ groupSize (checksum crc) g (children.map val) := by
    intro e he
    have he' : e ∈ (IterOrder.keyFirst ℕ g).visit (tally crc val children).freq := by
      rw [hes]
      exact List.mem_cons_of_mem _ he
    rw [((mem_visit_freq crc _ val children).mp he').1]
    exact hmax e.1
  rw [hes, plurality, List.foldl_cons, compareEntry,
    if_pos (by show (-1 : ℤ) < (groupSize (checksum crc) g (children.map val) : ℤ); omega)]
  exact foldl_compareEntry_of_le _ fun e he => Int.ofNat_le.mpr (hbelow e he)

/-- Half of the children of a node of level `height - 1`. -/
def tieSize : ℕ := (S.degree - (S.height - 1)) / 2

/-- Among the children of every node of level `height - 1`, as many hold `a` as hold `b`; one that is left
over is cleared. -/
def tieLeaves (a b : T) : Levels T := fun _ n =>
  let siblings := S.children (S.height - 1) (n % S.numNodes (S.height - 1))
  if siblings.idxOf n < S.tieSize then a
  else if siblings.idxOf n < 2 * S.tieSize then b
  else Pod.zero

theorem nodup_children_node {σ : List (Fin S.degree)} (hσ : σ.Nodup) :
    (S.children σ.length (S.node σ)).Nodup := by
  rw [S.children_node hσ]
  refine ((List.nodup_finRange _).filter _).map fun x y hxy => ?_
  have hcons : x :: σ = y :: σ := S.node_injective rfl hxy
  exact (List.cons.inj hcons).1

theorem map_tieLeaves (a b : T) {σ : List (Fin S.degree)} (hσ : σ.Nodup)
    (hlen : σ.length = S.height - 1) :
    (S.children σ.length (S.node σ)).map (S.tieLeaves a b S.height)
      = List.replicate S.tieSize a ++ List.replicate S.tieSize b
        ++ List.replicate (S.degree - σ.length - 2 * S.tieSize) Pod.zero := by
  have hchildren := S.length_children_node hσ
  have hhalf : 2 * S.tieSize ≤ S.degree - σ.length := by
    rw [hlen, tieSize]
    omega
  have hparent : ∀ c ∈ S.children σ.length (S.node σ), c % S.numNodes σ.length = S.node σ := by
    intro c hc
    obtain ⟨x, -, rfl⟩ := (S.mem_children_node hσ).mp hc
    exact S.node_cons_mod x σ
  refine List.ext_getElem (by simp [hchildren]; omega) fun i hi hi' => ?_
  have hi : i < (S.children σ.length (S.node σ)).length := by rwa [List.length_map] at hi
  rw [List.getElem_map, tieLeaves]
  simp only [← hlen, hparent _ (List.getElem_mem hi), (S.nodup_children_node hσ).idxOf_getElem]
  grind

omit [Pod T] in
theorem root_eq (lv : Levels T) : lv.root = lv 0 (S.node []) := rfl

variable {a b : T}

section TieLeaves

variable (hab : checksum crc a ≠ checksum crc b) (ha : checksum crc a ≠ checksum crc (Pod.zero : T))
  (hb : checksum crc b ≠ checksum crc (Pod.zero : T))

include hab ha hb

/-- The checksum tells the leaves apart. -/
theorem injOn_tieLeaves : Set.InjOn (checksum crc) {v : T | v = Pod.zero
    ∨ ∃ n < S.numNodes S.height, S.valid S.height n = true ∧ S.tieLeaves a b S.height n = v} := by
  have hvalues : ∀ v ∈ {v : T | v = Pod.zero ∨ ∃ n < S.numNodes S.height,
      S.valid S.height n = true ∧ S.tieLeaves a b S.height n = v}, v = a ∨ v = b ∨ v = Pod.zero := by
    rintro v (rfl | ⟨n, -, -, rfl⟩)
    · exact Or.inr (Or.inr rfl)
    · unfold tieLeaves
      simp only
      split_ifs <;> simp
  intro v hv w hw hvw
  have hv' := hvalues v hv
  have hw' := hvalues w hw
  grind

/-- The two halves are the largest groups. -/
theorem groupSize_tieLeaves {w : T} (hw : w = a ∨ w = b) {σ : List (Fin S.degree)} (hσ : σ.Nodup)
    (hlen : σ.length = S.height - 1) (hrest : S.degree - σ.length - 2 * S.tieSize ≤ S.tieSize) :
    groupSize (checksum crc) (checksum crc w)
        ((S.children σ.length (S.node σ)).map (S.tieLeaves a b S.height)) = S.tieSize
      ∧ ∀ g, groupSize (checksum crc) g
        ((S.children σ.length (S.node σ)).map (S.tieLeaves a b S.height)) ≤ S.tieSize := by
  have hsize : ∀ g, groupSize (checksum crc) g
      ((S.children σ.length (S.node σ)).map (S.tieLeaves a b S.height))
      = (if checksum crc a = g then S.tieSize else 0) + (if checksum crc b = g then S.tieSize else 0)
        + if checksum crc (Pod.zero : T) = g then S.degree - σ.length - 2 * S.tieSize else 0 := by
    intro g
    rw [S.map_tieLeaves a b hσ hlen]
    simp [groupSize, List.countP_append, List.countP_replicate, Nat.add_assoc]
  constructor
  · rw [hsize]
    rcases hw with rfl | rfl
    · simp [hab.symm, ha.symm]
    · simp [hab, hb.symm]
  · intro g
    rw [hsize]
    grind

/-- Whichever of the two halves is listed first wins everywhere. -/
theorem reduce_tieLeaves (hlow : 2 * S.height ≤ S.degree + 1) (hhigh : S.degree + 2 < 3 * S.height)
    {w : T} (hw : w = a ∨ w = b) {σ : List (Fin S.degree)} (hσ : σ.Nodup) (hl : σ.length < S.height) :
    S.reduce crc (fun _ _ => IterOrder.keyFirst ℕ (checksum crc w)) (S.tieLeaves a b) σ.length (S.node σ)
      = w := by
  refine S.reduce_eq_of_level crc _ (Nat.sub_le S.height 1) _ (fun τ hτ hlen => ?_)
    (fun l hl => Or.inl (S.threshold_lt (by omega) (by omega))) hσ (by omega)
  have hlt : τ.length < S.height := by omega
  have hleaves : S.reduce crc (fun _ _ => IterOrder.keyFirst ℕ (checksum crc w)) (S.tieLeaves a b)
      (τ.length + 1) = S.tieLeaves a b S.height := by
    funext n
    rw [show τ.length + 1 = S.height by omega, S.reduce_leaf crc _ _ le_rfl]
  -- both halves exceed the threshold
  have hhalf : S.threshold τ.length < S.tieSize := by
    rw [S.threshold_eq (l := τ.length) (by omega), tieSize]
    omega
  have hrest : S.degree - τ.length - 2 * S.tieSize ≤ S.tieSize := by
    rw [tieSize, hlen] at *
    omega
  obtain ⟨hwin, hmax⟩ := S.groupSize_tieLeaves crc hab ha hb hw hτ hlen hrest
  rw [← hlen, S.reduce_node crc _ _ hτ hlt, hleaves,
    S.resolve_keyFirst crc _ (S.length_children_lt hτ) (by omega) (fun g => by rw [hwin]; exact hmax g),
    groupValue, if_pos (by rw [hwin]; exact hhalf), S.map_tieLeaves a b hτ hlen]
  have hne : S.tieSize ≠ 0 := by omega
  rcases hw with rfl | rfl
  · simp [List.filter_append, hab.symm, ha.symm, List.getLast?_replicate, hne]
  · simp [List.filter_append, hab, hb.symm, List.getLast?_replicate, hne]

end TieLeaves

/-- **When the iteration order plays no part.** Exactly for the shapes in which more than half of the
children are needed at every level, or in which a wrapped threshold clears every inner node. -/
theorem orderIndependent_iff (hh : 1 ≤ S.height) (hab : checksum crc a ≠ checksum crc b)
    (ha : checksum crc a ≠ checksum crc (Pod.zero : T))
    (hb : checksum crc b ≠ checksum crc (Pod.zero : T)) :
    S.OrderIndependent crc T ↔ 3 * S.height ≤ S.degree + 2 ∨ S.degree + 1 < 2 * S.height := by
  have hhd := S.height_le
  constructor
  · intro hindep
    by_contra hshape
    obtain ⟨hhigh, hlow⟩ := not_or.mp hshape
    have hroots := (hindep (S.tieLeaves a b) (fun _ _ => IterOrder.keyFirst ℕ (checksum crc a))
      (fun _ _ => IterOrder.keyFirst ℕ (checksum crc b)) (S.injOn_tieLeaves crc hab ha hb)).1
    have hwins := fun w hw => S.reduce_tieLeaves crc hab ha hb (w := w) (by omega) (by omega) hw
      List.nodup_nil (by rw [List.length_nil]; omega)
    rw [S.root_eq, S.root_eq] at hroots
    exact hab (congrArg _ ((hwins a (Or.inl rfl)).symm.trans (hroots.trans (hwins b (Or.inr rfl)))))
  · intro hshape lv order order' _
    have hsame : ∀ σ : List (Fin S.degree), σ.Nodup → σ.length ≤ S.height →
        S.reduce crc order lv σ.length (S.node σ) = S.reduce crc order' lv σ.length (S.node σ) := by
      intro σ hσ hl
      rcases hshape with hstrict | hwrap
      · have hS : S.Tolerates := ⟨hh, by omega⟩
        exact hS.reduce_order_irrelevant crc order order' lv hσ hl
      · exact S.reduce_order_irrelevant_of_wrap crc order hwrap order' lv hσ hl
    refine ⟨hsame [] List.nodup_nil (Nat.zero_le _), ?_⟩
    rw [interactiveConsistencyVector_eq, interactiveConsistencyVector_eq]
    exact List.map_congr_left fun p _ => hsame [p] (List.nodup_singleton p) hh

theorem orderIndependent_iff_four : four.OrderIndependent crc32 UInt8 :=
  (four.orderIndependent_iff crc32 (a := (1 : UInt8)) (b := 2) (by decide) (by decide +kernel)
    (by decide +kernel) (by decide +kernel)).mpr (by decide)

/-- Three processes and two rounds. -/
abbrev three : Shape := ⟨3, 2, by decide, by decide⟩

/-- The two relays about each process disagree, and the root is 1 or 2 as the map has it. -/
theorem not_orderIndependent_three : 1 ≤ three.height ∧ ¬three.OrderIndependent crc32 UInt8 := by
  refine ⟨by decide, fun h => ?_⟩
  have hroots := (h (three.tieLeaves 1 2) (fun _ _ => IterOrder.keyFirst ℕ (checksum crc32 (1 : UInt8)))
    (fun _ _ => IterOrder.keyFirst ℕ (checksum crc32 (2 : UInt8))) (crc32_byte_injective.injOn)).1
  exact absurd hroots (by decide +kernel)

end Shape

end Achal
