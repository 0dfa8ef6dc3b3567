import Mathlib.Data.Nat.Cast.Defs
import Mathlib.Tactic.Common
import Mathlib.Tactic.SplitIfs

/-!
# Distances on a circle

A circle of `M` points is the set of numbers below `M`, walked clockwise from `0` to
`M - 1` and on to `0`.  `arc M a b` is the number of steps from `a` to the next visit of
`b`: it ranges over `1..M`, and the way from a point to itself is the whole circle.
`gap M a b` is the number of steps from `a` to the first visit of `b`, which ranges over
`0..M-1`.  The open interval from `a` to `b` consists of the `x` with
`arc M a x < arc M a b`, the interval with its right end of the `x` with
`arc M a x ≤ arc M a b`.
-/

namespace Clockwise

variable {M a b c x : ℕ}

/-- The clockwise distance from `a` to `b`, counted `1..M`. -/
def arc (M a b : ℕ) : ℕ :=
  if a < b then b - a else M + b - a

/-- The clockwise distance from `a` to `b`, counted `0..M-1`. -/
def gap (M a b : ℕ) : ℕ :=
  if a ≤ b then b - a else M + b - a

theorem arc_pos (ha : a < M) :
  0 < arc M a b
  := by
  unfold arc
  split_ifs <;> omega

theorem arc_le (ha : a < M) (hb : b < M) :
  arc M a b ≤ M
  := by
  unfold arc
  split_ifs <;> omega

@[simp]
theorem arc_self :
  arc M a a = M
  := by
  simp [arc]

theorem arc_lt_iff_ne (ha : a < M) (hb : b < M) :
  arc M a b < M ↔ a ≠ b
  := by
  unfold arc
  split_ifs <;> omega

/-- Points at equal distance from `a` are equal. -/
theorem arc_inj (ha : a < M) (hb : b < M) (hc : c < M) (h : arc M a b = arc M a c) :
  b = c
  := by
  unfold arc at h
  split_ifs at h <;> omega

/-- The point `d` steps away is at the distance `d`. -/
theorem arc_add_mod {d : ℕ} (ha : a < M) (hd : 0 < d) (hd' : d ≤ M) :
  arc M a ((a + d) % M) = d
  := by
  have hmod : (a + d) % M = if a + d < M then a + d else a + d - M := by
    split
    · rename_i hlt
      rw [Nat.mod_eq_of_lt hlt]
    · rename_i hge
      rw [Nat.mod_eq_sub_mod (by omega), Nat.mod_eq_of_lt (by omega)]
  rw [hmod]
  unfold arc
  split_ifs <;> omega

/-- The distance from `x` to `b`, in terms of the distances from a third point. -/
theorem arc_eq (ha : a < M) (hb : b < M) (hx : x < M) :
  arc M x b
    = if arc M a x < arc M a b then arc M a b - arc M a x else M + arc M a b - arc M a x
  := by
  unfold arc
  split_ifs <;> omega

/-- The way from `a` to `b` passes through every point of the open interval. -/
theorem arc_add_of_lt (ha : a < M) (hb : b < M) (hx : x < M) (h : arc M a x < arc M a b) :
  arc M a x + arc M x b = arc M a b
  := by
  rw [arc_eq ha hb hx, if_pos h]
  omega

/-- Let `x` lie strictly between `a` and `b`.  What lies between `x` and `b` lies behind `x` and
before `b`, clockwise from `a`. -/
theorem arc_lt_iff_of_lt {y : ℕ} (ha : a < M) (hb : b < M) (hx : x < M) (hy : y < M)
    (h : arc M a x < arc M a b) :
  arc M x y < arc M x b ↔ arc M a x < arc M a y ∧ arc M a y < arc M a b
  := by
  have hby := arc_pos (b := y) ha
  have hbM := arc_le ha hb
  rw [arc_eq ha hb hx, if_pos h, arc_eq ha hy hx]
  split <;> omega

/-- A point strictly between `a` and `b` is nearer to `b` than `a` is. -/
theorem arc_lt_of_lt (ha : a < M) (hb : b < M) (hx : x < M) (h : arc M a x < arc M a b) :
  arc M x b < arc M a b
  := by
  have hsum := arc_add_of_lt ha hb hx h
  have hpos := arc_pos (b := x) ha
  omega

/-- Moving the left end of an interval clockwise, up to but not onto its right end, makes
the interval smaller. -/
theorem arc_le_of_le
    (ha : a < M) (hb : b < M) (hc : c < M) (hx : x < M)
    (hne : c ≠ a) (hbc : arc M a b ≤ arc M a c) (h : arc M c x ≤ arc M c a) :
  arc M b x ≤ arc M b a
  := by
  have hxM := arc_le ha hx
  have hcM := (arc_lt_iff_ne ha hc).mpr hne.symm
  have hpos := arc_pos (b := x) ha
  rw [arc_eq ha hx hc, arc_eq ha ha hc, arc_self, if_pos hcM] at h
  have hcx : arc M a c < arc M a x := by
    split_ifs at h with hlt
    · exact hlt
    · omega
  rw [arc_eq ha hx hb, arc_eq ha ha hb, arc_self, if_pos (by omega), if_pos (by omega)]
  omega

/-- The interval from `a` to `b` and the interval from `b` to `a`, each with its right
end, are disjoint. -/
theorem not_arc_le_of_arc_le
    (ha : a < M) (hb : b < M) (hab : a ≠ b) (h : arc M a x ≤ arc M a b) :
  ¬ arc M b x ≤ arc M b a
  := by
  unfold arc at *
  split_ifs at * <;> omega

/-- Clockwise from `a`, a point comes at or after `b` if and only if it is `b` or lies between
`b` and `a`. -/
theorem arc_lt_or_eq_iff_le (ha : a < M) (hb : b < M) (hx : x < M) (hba : b ≠ a) (hxa : x ≠ a) :
  arc M b x < arc M b a ∨ x = b ↔ arc M a b ≤ arc M a x
  := by
  unfold arc
  split_ifs <;> omega

/-- Let `b` come before `c`, clockwise from `a`.  Then `b` is `x` or lies between `x` and `c` if
and only if `x` comes at or before `b`, or at or after `c`. -/
theorem arc_lt_or_eq_iff_of_lt (ha : a < M) (hb : b < M) (hc : c < M) (hx : x < M)
    (h : arc M a b < arc M a c) :
  arc M x b < arc M x c ∨ b = x ↔ arc M a x ≤ arc M a b ∨ arc M a c ≤ arc M a x
  := by
  have hbx : b = x ↔ arc M a b = arc M a x := by
    constructor
    · rintro rfl
      rfl
    · intro heq
      apply arc_inj ha hb hx heq
  have hxM := arc_le ha hx
  have hcM := arc_le ha hc
  rw [hbx, arc_eq ha hb hx, arc_eq ha hc hx]
  split_ifs <;> omega

/-- A point of the circle at or after `x`, seen from `a`, is reached from `x` without passing
`a`. -/
theorem gap_of_arc_le (ha : a < M) (hb : b < M) (hx : x < M) (h : arc M a x ≤ arc M a b) :
  gap M x b = arc M a b - arc M a x
  := by
  unfold arc at *
  unfold gap
  split_ifs at * <;> omega

/-- A point of the circle before `x`, seen from `a`, is reached from `x` by passing `a`. -/
theorem gap_of_arc_lt (ha : a < M) (hx : x < M) (h : arc M a b < arc M a x) :
  gap M x b = M + arc M a b - arc M a x
  := by
  unfold arc at *
  unfold gap
  split_ifs at * <;> omega

theorem gap_lt (ha : a < M) (hb : b < M) :
  gap M a b < M
  := by
  unfold gap
  split_ifs <;> omega

/-- The distance counted from `0` is the difference modulo the size of the circle. -/
theorem gap_eq_emod (ha : a < M) (hb : b < M) :
  (gap M a b : ℤ) = ((b : ℤ) - a) % M
  := by
  unfold gap
  split
  · rw [Int.emod_eq_of_lt (by omega) (by omega)]
    omega
  · rw [← Int.add_emod_right, Int.emod_eq_of_lt (by omega) (by omega)]
    omega

/-- The two distances differ from a point to itself only. -/
theorem arc_eq_ite_gap (ha : a < M) (hb : b < M) :
  arc M a b = if gap M a b = 0 then M else gap M a b
  := by
  unfold arc gap
  split_ifs <;> omega

theorem gap_eq_zero_iff (ha : a < M) :
  gap M a b = 0 ↔ a = b
  := by
  unfold gap
  split_ifs <;> omega

/-- The way from `a` to `b` and the way back make up the circle. -/
theorem arc_add_gap (ha : a < M) (hb : b < M) :
  arc M a b + gap M b a = M
  := by
  unfold arc gap
  split_ifs <;> omega

/-- The way from `a` to another point `b` and the way back make up the circle. -/
theorem arc_add_arc (ha : a < M) (hb : b < M) (hab : a ≠ b) :
  arc M a b + arc M b a = M
  := by
  unfold arc
  split_ifs <;> omega

/-- If `x` lies outside the interval from `a` to `b`, the walk from `x` meets `a` before
it meets `b`. -/
theorem gap_lt_of_not_arc_le
    (ha : a < M) (hx : x < M) (h : ¬ arc M a x ≤ arc M a b) :
  gap M x a < gap M x b
  := by
  unfold arc at *
  unfold gap
  split_ifs at * <;> omega

theorem gap_inj (hx : x < M) (ha : a < M) (hb : b < M) (h : gap M x a = gap M x b) :
  a = b
  := by
  unfold gap at h
  split_ifs at h <;> omega

end Clockwise
