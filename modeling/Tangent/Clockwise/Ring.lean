import Tangent.Clockwise.Arc
import Mathlib.Data.Fintype.Card
import Mathlib.Data.Fintype.EquivFin
import Mathlib.Data.Fintype.Lattice

/-!
# Members placed on a circle

A `Placement M ι` puts the members of `ι` at distinct points of a circle of `M` points.
Every member has at most one successor and one predecessor, the next member clockwise and
counterclockwise, and every point `x` has one owner, the first member met when walking
clockwise from `x`.  The owner of `x` is the member `i` for which `x` lies in the interval
from the predecessor of `i` to `i`.

`rank f i` counts the members whose value of `f` is below that of `i`; a walk along which
`f` decreases takes at most `rank f` steps.
-/

namespace Clockwise

/-- Members of `ι` at distinct points of a circle of `M` points. -/
structure Placement (M : ℕ) (ι : Type*) where
  pos : ι → ℕ
  pos_lt : ∀ i, pos i < M
  pos_injective : Function.Injective pos

namespace Placement

variable {M : ℕ} {ι : Type*} (P : Placement M ι) {i j k o p : ι} {x : ℕ}

/-- The clockwise distance from one member to another, counted `1..M`. -/
def dist (i j : ι) : ℕ :=
  arc M (P.pos i) (P.pos j)

/-- `j` is the next member clockwise after `i`. -/
def IsSucc (i j : ι) : Prop :=
  j ≠ i ∧ ∀ k, k ≠ i → P.dist i j ≤ P.dist i k

/-- `j` is the next member counterclockwise after `i`. -/
def IsPred (i j : ι) : Prop :=
  j ≠ i ∧ ∀ k, k ≠ i → P.dist j i ≤ P.dist k i

/-- `i` is the first member at or clockwise after `x`. -/
def IsOwner (x : ℕ) (i : ι) : Prop :=
  ∀ k, gap M x (P.pos i) ≤ gap M x (P.pos k)

instance [Fintype ι] [DecidableEq ι] (i j : ι) : Decidable (P.IsSucc i j) :=
  inferInstanceAs (Decidable (_ ∧ _))

instance [Fintype ι] [DecidableEq ι] (i j : ι) : Decidable (P.IsPred i j) :=
  inferInstanceAs (Decidable (_ ∧ _))

/-- A member that is not alone has a successor. -/
theorem exists_isSucc [Finite ι] (h : k ≠ i) :
  ∃ j, P.IsSucc i j
  := by
  have : Nonempty {k // k ≠ i} := ⟨k, h⟩
  obtain ⟨⟨j, hj⟩, hmin⟩ := Finite.exists_min fun k : {k // k ≠ i} => P.dist i k
  use j, hj
  intro k hk
  apply hmin ⟨k, hk⟩

/-- A member that is not alone has a predecessor. -/
theorem exists_isPred [Finite ι] (h : k ≠ i) :
  ∃ j, P.IsPred i j
  := by
  have : Nonempty {k // k ≠ i} := ⟨k, h⟩
  obtain ⟨⟨j, hj⟩, hmin⟩ := Finite.exists_min fun k : {k // k ≠ i} => P.dist k i
  use j, hj
  intro k hk
  apply hmin ⟨k, hk⟩

/-- No member is farther away, walking clockwise, than the predecessor. -/
theorem IsPred.dist_le {P : Placement M ι} (hp : P.IsPred i p) (hk : k ≠ i) :
  P.dist i k ≤ P.dist i p
  := by
  have hle := hp.2 k hk
  have hsum := arc_add_arc (P.pos_lt i) (P.pos_lt k) (P.pos_injective.ne hk.symm)
  have hsum' := arc_add_arc (P.pos_lt i) (P.pos_lt p) (P.pos_injective.ne hp.1.symm)
  unfold dist at *
  omega

theorem IsSucc.unique {P : Placement M ι} (hj : P.IsSucc i j) (hk : P.IsSucc i k) :
  j = k
  := by
  apply P.pos_injective
  apply arc_inj (P.pos_lt i) (P.pos_lt j) (P.pos_lt k)
  apply le_antisymm (hj.2 k hk.1) (hk.2 j hj.1)

theorem IsPred.unique {P : Placement M ι} (hj : P.IsPred i j) (hk : P.IsPred i k) :
  j = k
  := by
  apply P.pos_injective
  apply arc_inj (P.pos_lt i) (P.pos_lt j) (P.pos_lt k)
  apply le_antisymm (hk.dist_le hj.1) (hj.dist_le hk.1)

/-- Every point has an owner. -/
theorem exists_isOwner [Finite ι] [Nonempty ι] (x : ℕ) :
  ∃ i, P.IsOwner x i
  := by
  apply Finite.exists_min

/-- A point has at most one owner. -/
theorem IsOwner.unique {P : Placement M ι} (hx : x < M) (hi : P.IsOwner x i) (hj : P.IsOwner x j) :
  i = j
  := by
  apply P.pos_injective
  apply gap_inj hx (P.pos_lt i) (P.pos_lt j)
  apply le_antisymm (hi j) (hj i)

/-- No member is farther from a point than its owner, walking clockwise to the point. -/
theorem IsOwner.arc_lt {P : Placement M ι} (hx : x < M) (ho : P.IsOwner x o) (hi : i ≠ o) :
  arc M (P.pos i) x < arc M (P.pos o) x
  := by
  have hsumi := arc_add_gap (P.pos_lt i) hx
  have hsumo := arc_add_gap (P.pos_lt o) hx
  have hle := ho i
  have hne : gap M x (P.pos o) ≠ gap M x (P.pos i) := by
    intro heq
    exact hi (P.pos_injective (gap_inj hx (P.pos_lt o) (P.pos_lt i) heq)).symm
  omega

/-- With `p` the predecessor of `i`, the member `i` owns the points of the interval from
`p` to `i`. -/
theorem IsPred.owner_iff {P : Placement M ι} (hx : x < M) (hp : P.IsPred i p) :
  arc M (P.pos p) x ≤ P.dist p i ↔ P.IsOwner x i
  := by
  obtain ⟨hne, hmin⟩ := hp
  constructor
  · intro h k
    by_cases hk : k = i
    · rw [hk]
    · have hpi := P.pos_injective.ne hne
      have hki := P.pos_injective.ne hk
      have hk' := hmin k hk
      have := P.pos_lt i
      have := P.pos_lt p
      have := P.pos_lt k
      unfold dist arc at *
      unfold gap
      split_ifs at * <;> omega
  · intro h
    by_contra hlt
    have := gap_lt_of_not_arc_le (P.pos_lt p) hx hlt
    have := h p
    omega

/-- With `j` the successor of `i`, the member `j` owns the points of the interval from `i`
to `j`. -/
theorem IsSucc.isOwner {P : Placement M ι} (hx : x < M) (hj : P.IsSucc i j)
    (h : arc M (P.pos i) x ≤ P.dist i j) :
  P.IsOwner x j
  := by
  obtain ⟨hne, hmin⟩ := hj
  intro k
  by_cases hk : k = i
  · subst hk
    have hji := P.pos_injective.ne hne
    have := P.pos_lt j
    have := P.pos_lt k
    unfold dist arc at *
    unfold gap
    split_ifs at * <;> omega
  · have hk' := hmin k hk
    have hji := P.pos_injective.ne hne
    have := P.pos_lt i
    have := P.pos_lt j
    have := P.pos_lt k
    unfold dist arc at *
    unfold gap
    split_ifs at * <;> omega

end Placement

/-! ### Ranks -/

section Rank

variable {ι : Type*} [Fintype ι] {f : ι → ℕ} {i j : ι}

/-- The number of members whose value of `f` is below that of `i`. -/
def rank (f : ι → ℕ) (i : ι) : ℕ :=
  (Finset.univ.filter (fun k => f k < f i)).card

theorem rank_lt_rank (h : f j < f i) :
  rank f j < rank f i
  := by
  apply Finset.card_lt_card
  rw [Finset.ssubset_iff_of_subset]
  · use j
    simp [h]
  · intro k hk
    simp only [Finset.mem_filter, Finset.mem_univ, true_and] at hk ⊢
    omega

/-- A member ranks below the number of members whose value is at most its own. -/
theorem rank_lt_card (f : ι → ℕ) (i : ι) :
  rank f i < Fintype.card ι
  := by
  apply Finset.card_lt_univ_of_notMem (x := i)
  simp

end Rank

end Clockwise
