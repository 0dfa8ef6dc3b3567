import Mathlib.Algebra.Order.Ring.Nat
import Mathlib.Tactic.Common
import Tangent.Ascending

/-!
# Thinning an ascending list by powers of two

Let `s :: l` be a list in ascending order of a key.  An element represents the power `2 ^ j` in
the list if it is the first one whose key is at least `2 ^ j`.  A pass over the powers below
`2 ^ k`, from the greatest to the least, that walks down `l` along with them drops the elements
that represent no power and stops at the first power below the key of `s`; when it meets an
element whose key is a power, it drops that element and all that come before it.  `thinned`
states which elements such a pass leaves, and the lemmas about it what one power does.
-/

namespace Thinning

section Elements

variable {α : Type*} (key : α → ℕ)

/-- `a` is the first element of `l` with a key of at least `2 ^ j`, for some `j` below `k`. -/
def Represents (k : ℕ) (l : List α) (a : α) : Prop :=
  ∃ j < k, 2 ^ j ≤ key a ∧ ∀ b ∈ l, 2 ^ j ≤ key b → key a ≤ key b

/-- A power of two below `2 ^ k` lies between `s` and `a`. -/
def Reached (k : ℕ) (s a : α) : Prop :=
  ∃ j < k, key s ≤ 2 ^ j ∧ 2 ^ j ≤ key a

/-- The key of `a` is a power of two below `2 ^ k`. -/
def OnPower (k : ℕ) (a : α) : Prop :=
  ∃ j < k, key a = 2 ^ j

/-- The pass over the powers below `2 ^ k` drops the element `a` of `l`. -/
def Dropped (k : ℕ) (s : α) (l : List α) (a : α) : Prop :=
  (∃ h ∈ l, OnPower key k h ∧ key a ≤ key h) ∨
    Reached key k s a ∧ ¬ Represents key k (s :: l) a

instance (k : ℕ) (l : List α) (a : α) : Decidable (Represents key k l a) :=
  inferInstanceAs (Decidable (∃ _ < k, _ ∧ ∀ _ ∈ l, _ → _))

instance (k : ℕ) (s a : α) : Decidable (Reached key k s a) :=
  inferInstanceAs (Decidable (∃ _ < k, _ ∧ _))

instance (k : ℕ) (a : α) : Decidable (OnPower key k a) :=
  inferInstanceAs (Decidable (∃ _ < k, _ = _))

instance (k : ℕ) (s : α) (l : List α) (a : α) : Decidable (Dropped key k s l a) :=
  inferInstanceAs (Decidable (_ ∨ _))

/-- The elements of `l` the pass over the powers below `2 ^ k` leaves. -/
def thinned (k : ℕ) (s : α) (l : List α) : List α :=
  l.filter fun a => ¬ Dropped key k s l a

end Elements

variable {α : Type*} {key : α → ℕ} {k : ℕ} {s a g : α} {l lo hi : List α}

@[simp]
theorem thinned_nil :
  thinned key k s [] = []
  := rfl

/-- Without powers nothing is dropped. -/
@[simp]
theorem thinned_zero :
  thinned key 0 s l = l
  := by
  apply List.filter_eq_self.mpr
  intro a ha
  simp [Dropped, OnPower, Reached]

theorem pow_two_le {j k : ℕ} (h : j < k + 1) :
  2 ^ j ≤ 2 ^ k
  := Nat.pow_le_pow_right (by decide) (Nat.le_of_lt_succ h)

/-- An exponent of a power at or below a number below `2 ^ k`. -/
theorem exponent_lt {j k n : ℕ} (hj : 2 ^ j ≤ n) (hn : n < 2 ^ k) :
  j < k
  := (Nat.pow_lt_pow_iff_right (by decide)).mp (lt_of_le_of_lt hj hn)

/-! ### Powers above an element -/

theorem reached_succ_iff (ha : key a < 2 ^ k) :
  Reached key (k + 1) s a ↔ Reached key k s a
  := by
  constructor
  · rintro ⟨j, -, hs, hj⟩
    exact ⟨j, exponent_lt hj ha, hs, hj⟩
  · rintro ⟨j, hlt, hs, hj⟩
    exact ⟨j, by omega, hs, hj⟩

theorem onPower_succ_iff (ha : key a < 2 ^ k) :
  OnPower key (k + 1) a ↔ OnPower key k a
  := by
  constructor
  · rintro ⟨j, -, hj⟩
    exact ⟨j, exponent_lt (le_of_eq hj.symm) ha, hj⟩
  · rintro ⟨j, hlt, hj⟩
    exact ⟨j, by omega, hj⟩

/-- Elements with greater keys do not matter for what represents a power. -/
theorem represents_succ_append_iff (ha : key a < 2 ^ k) (hhi : ∀ b ∈ hi, 2 ^ k ≤ key b) :
  Represents key (k + 1) (l ++ hi) a ↔ Represents key k l a
  := by
  constructor
  · rintro ⟨j, -, hj, hmin⟩
    refine ⟨j, exponent_lt hj ha, hj, ?_⟩
    intro b hb
    apply hmin b (List.mem_append_left hi hb)
  · rintro ⟨j, hlt, hj, hmin⟩
    refine ⟨j, by omega, hj, ?_⟩
    intro b hb hjb
    rcases List.mem_append.mp hb with hb | hb
    · apply hmin b hb hjb
    · have := hhi b hb
      omega

/-- What happens to an element is decided by the powers at or below it. -/
theorem dropped_succ_append_iff (ha : key a < 2 ^ k) (hlo : ∀ b ∈ lo, key b < 2 ^ k)
    (hhi : ∀ b ∈ hi, 2 ^ k < key b) :
  Dropped key (k + 1) s (lo ++ hi) a ↔ Dropped key k s lo a
  := by
  have hhit : (∃ h ∈ lo ++ hi, OnPower key (k + 1) h ∧ key a ≤ key h) ↔
      ∃ h ∈ lo, OnPower key k h ∧ key a ≤ key h := by
    constructor
    · rintro ⟨h, hmem, hpow, hle⟩
      rcases List.mem_append.mp hmem with hmem | hmem
      · exact ⟨h, hmem, (onPower_succ_iff (hlo h hmem)).mp hpow, hle⟩
      · obtain ⟨j, hlt, hj⟩ := hpow
        have := hhi h hmem
        have := pow_two_le hlt
        omega
    · rintro ⟨h, hmem, hpow, hle⟩
      exact ⟨h, List.mem_append_left hi hmem, (onPower_succ_iff (hlo h hmem)).mpr hpow, hle⟩
  rw [Dropped, Dropped, hhit, reached_succ_iff ha, ← List.cons_append,
    represents_succ_append_iff ha fun b hb => le_of_lt (hhi b hb)]

/-! ### One power -/

/-- A power above all elements changes nothing. -/
theorem thinned_succ_of_lt (hl : ∀ a ∈ l, key a < 2 ^ k) :
  thinned key (k + 1) s l = thinned key k s l
  := by
  apply List.filter_congr
  intro a ha
  have hiff : Dropped key (k + 1) s (l ++ []) a ↔ Dropped key k s l a :=
    dropped_succ_append_iff (hl a ha) hl (by simp)
  simpa using hiff

/-- A power below `s` ends the pass. -/
theorem thinned_of_lt (hasc : AscendingBy key (s :: l)) (hs : 2 ^ k < key s) :
  thinned key (k + 1) s l = l
  := by
  apply List.filter_eq_self.mpr
  intro a ha
  rw [decide_eq_true_iff]
  have hlt := (List.pairwise_cons.mp hasc).1
  rintro (⟨h, hmem, ⟨j, hj, hpow⟩, -⟩ | ⟨⟨j, hj, hsj, -⟩, -⟩)
  · have := hlt h hmem
    have := pow_two_le hj
    omega
  · have := pow_two_le hj
    omega

/-- A power that is a key takes everything away. -/
theorem thinned_of_hit (hasc : AscendingBy key (s :: l)) (hs : key s ≤ 2 ^ k)
    (hg : g ∈ s :: l) (hpow : key g = 2 ^ k) :
  thinned key (k + 1) s l = []
  := by
  apply List.filter_eq_nil_iff.mpr
  intro a ha
  rw [decide_eq_true_iff, not_not]
  have hsa := (List.pairwise_cons.mp hasc).1 a ha
  by_cases hle : key a ≤ key g
  · rcases List.mem_cons.mp hg with rfl | hg
    · omega
    · exact .inl ⟨g, hg, ⟨k, by omega, hpow⟩, hle⟩
  · right
    refine ⟨⟨k, by omega, hs, by omega⟩, ?_⟩
    rintro ⟨j, hj, -, hmin⟩
    have hjk := pow_two_le hj
    have := hmin g hg (by omega)
    omega

/-- A power between two neighbours keeps the second of them and takes away what comes behind
it. -/
theorem thinned_append (hasc : AscendingBy key (s :: (lo ++ g :: hi))) (hs : key s < 2 ^ k)
    (hlo : ∀ a ∈ lo, key a < 2 ^ k) (hg : 2 ^ k < key g) :
  thinned key (k + 1) s (lo ++ g :: hi) = thinned key k s lo ++ [g]
  := by
  obtain ⟨hs', hasc'⟩ := List.pairwise_cons.mp hasc
  obtain ⟨-, hghi, hlohi⟩ := List.pairwise_append.mp hasc'
  have hghi' := (List.pairwise_cons.mp hghi).1
  have habove : ∀ b ∈ g :: hi, 2 ^ k < key b := by
    intro b hb
    rcases List.mem_cons.mp hb with rfl | hb
    · exact hg
    · exact lt_trans hg (hghi' b hb)
  have hkeep : ¬ Dropped key (k + 1) s (lo ++ g :: hi) g := by
    rintro (⟨h, hmem, ⟨j, hj, hpow⟩, hle⟩ | ⟨-, hnot⟩)
    · have := pow_two_le hj
      omega
    · apply hnot
      refine ⟨k, by omega, le_of_lt hg, ?_⟩
      intro b hb hkb
      rcases List.mem_cons.mp hb with rfl | hb
      · omega
      · rcases List.mem_append.mp hb with hb | hb
        · have := hlo b hb
          omega
        · rcases List.mem_cons.mp hb with rfl | hb
          · apply le_refl
          · apply le_of_lt (hghi' b hb)
  have hdrop : ∀ b ∈ hi, Dropped key (k + 1) s (lo ++ g :: hi) b := by
    intro b hb
    right
    have hgb := hghi' b hb
    refine ⟨⟨k, by omega, by omega, by omega⟩, ?_⟩
    rintro ⟨j, hj, -, hmin⟩
    have := pow_two_le hj
    have := hmin g (by simp) (by omega)
    omega
  rw [thinned, List.filter_append, List.filter_cons_of_pos (by simpa using hkeep)]
  congr 1
  · apply List.filter_congr
    intro a ha
    have hiff := dropped_succ_append_iff (s := s) (hlo a ha) hlo habove
    simpa using hiff
  · congr 1
    apply List.filter_eq_nil_iff.mpr
    intro b hb
    simpa using hdrop b hb

end Thinning
