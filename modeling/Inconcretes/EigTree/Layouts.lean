import Inconcretes.EigTree.Protocol

/-!
# The optimized exchange and the plain one

The tests of the tree exchange whole levels; `BFTKVS::job` exchanges valid nodes only. A layout covers the
valid nodes when every process sends the nodes whose label does not name it yet. Two runs under covering
layouts, with the same roots and the same bytes from the faulty processes, keep the same values in all
valid nodes after every round (`trees_eq_of_covers`), and reduction reads no others.
-/

namespace Achal

namespace Shape.Layout

variable {S : Shape}

/-- Every process sends at least the nodes that it may relay. -/
def Covers (L : S.Layout) : Prop :=
  ∀ (p : Fin S.degree) (σ : List (Fin S.degree)), (p :: σ).Nodup → S.node σ ∈ L.send σ.length p

theorem optimized_covers : S.optimized.Covers := fun _ _ h => S.mem_sendBufferOptimized.mpr h

theorem plain_covers : S.plain.Covers := fun _ σ _ => List.mem_range.mpr (S.node_lt σ)

end Shape.Layout

namespace Lockstep

variable {S : Shape} {T : Type*}

/-- The run of a layout in which faulty processes send complete frames: `bytes l p q i` is what `p` puts
in place of node `i` of level `l` for the receiver `q`. -/
def ofBytes (L : S.Layout) (root : Fin S.degree → T) (faulty : Finset (Fin S.degree))
    (bytes : ℕ → Fin S.degree → Fin S.degree → ℕ → T) (arrival : Arrival S) : Lockstep S T where
  root := root
  faulty := faulty
  forged l p q := (L.send l p).map (bytes l p q)
  arrival := arrival

variable [Pod T] {root : Fin S.degree → T} {faulty : Finset (Fin S.degree)}
  {bytes : ℕ → Fin S.degree → Fin S.degree → ℕ → T}
  {arrival arrival' : Arrival S}

/-- What a valid slot holds after its round, in terms of the round before: the recursion does not mention
the layout. -/
theorem trees_ofBytes_cons {L : S.Layout} (hL : L.Covers) (q p : Fin S.degree)
    {σ : List (Fin S.degree)} (hσ : (p :: σ).Nodup) :
    (ofBytes L root faulty bytes arrival).trees L (σ.length + 1) q (σ.length + 1) (S.node (p :: σ))
      = if p ≠ q ∧ p ∈ faulty then bytes σ.length p q (S.node σ)
        else (ofBytes L root faulty bytes arrival).trees L σ.length p σ.length (S.node σ) := by
  by_cases hpq : p = q
  · subst hpq
    rw [if_neg (fun h => h.1 rfl), trees_own]
  · by_cases hp : p ∈ faulty
    · rw [if_pos ⟨hpq, hp⟩]
      exact trees_forged L _ hpq hp rfl (hL p σ hσ)
    · rw [if_neg (fun h => hp h.2)]
      exact trees_peer L _ hpq hp (hL p σ hσ)

/-- The simulation: covering layouts agree on the valid nodes of every level. -/
theorem trees_eq_of_covers {L L' : S.Layout} (hL : L.Covers) (hL' : L'.Covers) {m : ℕ} (q : Fin S.degree)
    {σ : List (Fin S.degree)} (hσ : σ.Nodup) :
    (ofBytes L root faulty bytes arrival).trees L m q σ.length (S.node σ)
      = (ofBytes L' root faulty bytes arrival').trees L' m q σ.length (S.node σ) := by
  rcases Nat.lt_or_ge m σ.length with hlt | hge
  · rw [trees_clear L _ q hlt, trees_clear L' _ q hlt]
  · rw [trees_stable L _ q hge, trees_stable L' _ q hge]
    clear hge
    induction σ generalizing q with
    | nil => rfl
    | cons p σ ih =>
      rw [List.length_cons, trees_ofBytes_cons hL q p hσ,
        trees_ofBytes_cons hL' q p hσ, ih p (List.nodup_cons.mp hσ).2]

/-- **The optimized exchange is the plain one.** Whatever the faulty processes put into their slots and
whatever the orders of arrival, after the rounds every process holds the same values in all valid nodes
of all levels, and after `reduce()` with the same iteration orders the same root and the same interactive
consistency vector. -/
theorem optimized_eq_plain (S : Shape) (crc : List UInt8 → UInt32) (root : Fin S.degree → T)
    (faulty : Finset (Fin S.degree)) (bytes : ℕ → Fin S.degree → Fin S.degree → ℕ → T)
    (arrival arrival' : Arrival S) (q : Fin S.degree) (order : ℕ → ℕ → IterOrder UInt32 ℕ) :
    let lv := (ofBytes S.optimized root faulty bytes arrival).trees S.optimized S.height q
    let lv' := (ofBytes S.plain root faulty bytes arrival').trees S.plain S.height q
    (∀ l ≤ S.height, ∀ n < S.numNodes l, S.valid l n = true → lv l n = lv' l n)
      ∧ (S.reduce crc order lv).root = (S.reduce crc order lv').root
      ∧ S.interactiveConsistencyVector (S.reduce crc order lv)
        = S.interactiveConsistencyVector (S.reduce crc order lv') := by
  intro lv lv'
  have hsame : ∀ σ : List (Fin S.degree), σ.Nodup → lv σ.length (S.node σ) = lv' σ.length (S.node σ) :=
    fun σ hσ => trees_eq_of_covers Shape.Layout.optimized_covers
      Shape.Layout.plain_covers q hσ
  have hleaf : ∀ σ : List (Fin S.degree), σ.Nodup → σ.length = S.height →
      lv S.height (S.node σ) = lv' S.height (S.node σ) := fun σ hσ hl => hl ▸ hsame σ hσ
  refine ⟨?_, ?_, ?_⟩
  · intro l _ n hn hv
    obtain ⟨σ, rfl, rfl⟩ := S.exists_node hn
    exact hsame σ ((S.valid_node σ).mp hv)
  · exact S.reduce_congr crc order hleaf List.nodup_nil (Nat.zero_le _)
  · rw [S.interactiveConsistencyVector_eq, S.interactiveConsistencyVector_eq]
    apply List.map_congr_left
    intro p _
    rcases Nat.eq_zero_or_pos S.height with hzero | hpos
    · rw [S.reduce_leaf crc order lv (by omega), S.reduce_leaf crc order lv' (by omega)]
      exact hsame [p] (List.nodup_singleton p)
    · exact S.reduce_congr crc order hleaf (List.nodup_singleton p) hpos

end Lockstep

end Achal
