import Mathlib.Tactic.LinearCombination
import Tangent.Model.Arithmetic

/-!
# Identifiers modulo the size of the circle

The byte loops of `util.c` compute sums and differences modulo `2 ^ 160`, and `id_is_between`
compares differences modulo `2 ^ 160`.  Each loop is described by an equation between the numbers
its arguments and its result denote, in which the carry or borrow that leaves the first byte
appears as a multiple of the circle.
-/

namespace Tangent

open Clockwise

/-- A number below the size of the circle is the remainder of all numbers that differ from it by
a multiple of the size. -/
theorem ChordID.toNat_eq_emod {r : ChordID} {z k : ℤ} (h : r.toNat = z + k * 2 ^ chordIdBits) :
  r.toNat = z % 2 ^ chordIdBits
  := by
  have hlt : (r.toNat : ℤ) < 2 ^ chordIdBits := by
    exact_mod_cast r.toNat_lt
  rw [eq_sub_of_add_eq h.symm, Int.sub_mul_emod_self_right]
  rw [Int.emod_eq_of_lt (by omega) hlt]

/-! ### Subtracting a power of two -/

/-- A byte that is decremented, and whether it wraps. -/
theorem toNat_sub_one (b : UInt8) :
  (b ≠ 0 ∧ (b - 1).toNat + 1 = b.toNat) ∨ (b = 0 ∧ (b - 1).toNat + 1 = 256)
  := by
  by_cases hb : b = 0
  · subst hb
    exact .inr ⟨rfl, rfl⟩
  · left
    use hb
    have hpos : b.toNat ≠ 0 := fun h0 => hb (UInt8.toNat_inj.mp h0)
    have hlt := b.toNat_lt
    rw [UInt8.toNat_sub]
    simp only [UInt8.toNat_one, Nat.reducePow]
    omega

/-- The borrow loop subtracts one from the number the bytes before `s` denote. -/
theorem decrementFrom_append (p s : Bytes) :
  ∃ q k, decrementFrom p.length (p ++ s) = q ++ s ∧ q.length = p.length ∧
    Bytes.beNat q + 1 = Bytes.beNat p + k * 256 ^ p.length
  := by
  induction p using List.reverseRecOn generalizing s with
  | nil => exact ⟨[], 1, rfl, rfl, rfl⟩
  | append_singleton p b ih =>
      rw [List.length_append, List.length_singleton, decrementFrom, List.append_assoc,
        List.singleton_append, modify_length_append, getD_length_append]
      obtain ⟨hne, hsub⟩ | ⟨hzero, hsub⟩ := toNat_sub_one b
      · rw [if_pos hne]
        refine ⟨p ++ [b - 1], 0, by simp, by simp, ?_⟩
        simp only [Bytes.beNat_append, Bytes.beNat, List.length_singleton, List.length_nil]
        omega
      · obtain ⟨q, k, hq, hlen, hval⟩ := ih ((b - 1) :: s)
        rw [if_neg (not_not.mpr hzero)]
        refine ⟨q ++ [b - 1], k, by simp [hq], by simp [hlen], ?_⟩
        have hb : b.toNat = 0 := by
          rw [hzero]
          rfl
        simp only [Bytes.beNat_append, Bytes.beNat, List.length_singleton, List.length_nil, hb,
          pow_succ]
        linear_combination 256 * hval + hsub

/-- A byte from which a smaller number is subtracted, and whether the difference wraps. -/
theorem toNat_sub_ofNat (b : UInt8) {v : ℕ} (hv : 0 < v) (hv' : v < 256) :
  (b < b - UInt8.ofNat v ∧ (b - UInt8.ofNat v).toNat + v = b.toNat + 256) ∨
    (¬ b < b - UInt8.ofNat v ∧ (b - UInt8.ofNat v).toNat + v = b.toNat)
  := by
  have hb := b.toNat_lt
  have hdiff : (b - UInt8.ofNat v).toNat = (256 - v + b.toNat) % 256 := by
    rw [UInt8.toNat_sub, UInt8.toNat_ofNat_of_lt' hv']
  rw [UInt8.lt_iff_toNat_lt, hdiff]
  omega

/-- `chord_id_predecessor` subtracts a power of two, modulo the size of the circle. -/
theorem toNat_chordIdPredecessor (id : ChordID) {n : ℕ} (hn : n < chordIdBits) :
  (chordIdPredecessor id n).toNat = ((id.toNat : ℤ) - 2 ^ n) % 2 ^ chordIdBits
  := by
  obtain ⟨p, b, s, hx, hp, hs⟩ := id.exists_split hn
  obtain ⟨hcirc, hpow⟩ := two_pow_eq hn hp hs
  have hval : id.toNat
      = Bytes.beNat p * (256 * 256 ^ s.length) + b.toNat * 256 ^ s.length + Bytes.beNat s := by
    rw [ChordID.toNat, hx, Bytes.beNat_append, List.length_cons, Bytes.beNat, pow_succ]
    ring
  suffices h : ∃ k, (chordIdPredecessor id n).toNat + 2 ^ n = id.toNat + k * 2 ^ chordIdBits by
    obtain ⟨k, hk⟩ := h
    apply ChordID.toNat_eq_emod (k := k)
    have hk' : ((chordIdPredecessor id n).toNat : ℤ) + 2 ^ n = id.toNat + k * 2 ^ chordIdBits := by
      exact_mod_cast hk
    omega
  rw [chordIdPredecessor]
  simp only [hx, ← hp, modify_length_append, getD_length_append, Nat.one_shiftLeft]
  obtain ⟨hwrap, hdiff⟩ | ⟨hwrap, hdiff⟩ :=
    toNat_sub_ofNat b (Nat.two_pow_pos (n % 8)) (two_pow_mod_lt n)
  · obtain ⟨q, k, hq, hqlen, hqval⟩ :=
      decrementFrom_append p ((b - UInt8.ofNat (2 ^ (n % 8))) :: s)
    use k
    simp only [hwrap, if_true, hq]
    rw [hval, hcirc, hpow, ChordID.toNat, Bytes.beNat_append, List.length_cons, pow_succ',
      Bytes.beNat]
    linear_combination 256 * 256 ^ s.length * hqval + 256 ^ s.length * hdiff
  · use 0
    simp only [hwrap, if_false]
    rw [hval, hpow, ChordID.toNat, Bytes.beNat_append, List.length_cons, pow_succ', Bytes.beNat]
    linear_combination 256 ^ s.length * hdiff

/-! ### Sums and differences -/

/-- The loop of `id_add` adds the numbers, up to the carry. -/
theorem beNat_addLoop :
    ∀ {a b : Bytes}, a.length = b.length →
      Bytes.beNat (addLoop a b).1 + (addLoop a b).2 * 256 ^ a.length
        = Bytes.beNat a + Bytes.beNat b
  | [], [], _ => rfl
  | a :: as, b :: bs, h => by
      have hrest : as.length = bs.length := by simpa using h
      have ih := beNat_addLoop hrest
      have hlen := length_addLoop hrest
      rw [addLoop]
      generalize addLoop as bs = r at ih hlen ⊢
      obtain ⟨res, carry⟩ := r
      have hbyte : (UInt8.ofNat ((a.toNat + b.toNat + carry) &&& 0xff)).toNat
          = (a.toNat + b.toNat + carry) % 256 := by
        rw [UInt8.toNat_ofNat', show (0xff : ℕ) = 2 ^ 8 - 1 from rfl,
          Nat.and_two_pow_sub_one_eq_mod]
        omega
      have hsplit := Nat.mod_add_div (a.toNat + b.toNat + carry) 256
      simp only [Bytes.beNat, hbyte, Nat.shiftRight_eq_div_pow, List.length_cons, ← hrest, hlen,
        Nat.reducePow, pow_succ'] at ih ⊢
      linear_combination ih + 256 ^ as.length * hsplit

/-- `id_add` adds modulo the size of the circle. -/
theorem toNat_idAdd (a b : ChordID) :
  (idAdd a b).toNat = ((a.toNat : ℤ) + b.toNat) % 2 ^ chordIdBits
  := by
  have hsum := beNat_addLoop (a.length_x.trans b.length_x.symm)
  rw [a.length_x] at hsum
  apply ChordID.toNat_eq_emod (k := -(addLoop a.x b.x).2)
  simp only [ChordID.toNat, idAdd]
  push_cast [← @Nat.cast_inj ℤ] at hsum
  linear_combination hsum

/-- A number of one byte. -/
theorem toNat_ofInt {z : ℤ} (h : 0 ≤ z) (h' : z < 256) :
  ((UInt8.ofInt z).toNat : ℤ) = z
  := by
  rw [UInt8.ofInt, UInt8.toNat_ofNat']
  omega

/-- The loop of `id_subtract` subtracts the numbers, up to the borrow. -/
theorem beNat_subtractLoop :
    ∀ {a b : Bytes}, a.length = b.length →
      ((subtractLoop a b).2 = 0 ∨ (subtractLoop a b).2 = 1) ∧
        (Bytes.beNat (subtractLoop a b).1 : ℤ)
          = Bytes.beNat a - Bytes.beNat b + (subtractLoop a b).2 * 256 ^ a.length
  | [], [], _ => ⟨.inl rfl, rfl⟩
  | a :: as, b :: bs, h => by
      have hrest : as.length = bs.length := by simpa using h
      obtain ⟨hborrow, ih⟩ := beNat_subtractLoop hrest
      have hlen := length_subtractLoop hrest
      have ha := a.toNat_lt
      have hb := b.toNat_lt
      simp only [subtractLoop]
      generalize subtractLoop as bs = r at hborrow ih hlen ⊢
      obtain ⟨res, borrow⟩ := r
      simp only at hborrow ih hlen ⊢
      split
      · rename_i hlt
        refine ⟨.inr rfl, ?_⟩
        simp only [Bytes.beNat, List.length_cons, ← hrest, hlen, Nat.cast_add, Nat.cast_mul,
          Nat.cast_pow, Nat.cast_ofNat, pow_succ']
        rw [toNat_ofInt (by omega) (by omega)]
        linear_combination ih
      · rename_i hge
        refine ⟨.inl rfl, ?_⟩
        simp only [Bytes.beNat, List.length_cons, ← hrest, hlen, Nat.cast_add, Nat.cast_mul,
          Nat.cast_pow, Nat.cast_ofNat]
        rw [toNat_ofInt (by omega) (by omega)]
        linear_combination ih

/-- `id_subtract` subtracts modulo the size of the circle. -/
theorem toNat_idSubtract (a b : ChordID) :
  (idSubtract a b).toNat = ((a.toNat : ℤ) - b.toNat) % 2 ^ chordIdBits
  := by
  obtain ⟨-, hdiff⟩ := beNat_subtractLoop (a.length_x.trans b.length_x.symm)
  rw [a.length_x] at hdiff
  apply ChordID.toNat_eq_emod (k := (subtractLoop a.x b.x).2)
  simp only [ChordID.toNat, idSubtract]
  linear_combination hdiff

/-- The sums and differences of `util.c` are those of the numbers modulo `2 ^ 160`, so that
successor and predecessor undo each other, and so do sum and difference. -/
theorem id_arithmetic (a b : ChordID) {n : ℕ} (hn : n < chordIdBits) :
  (chordIdSuccessor a n).toNat = ((a.toNat : ℤ) + 2 ^ n) % 2 ^ chordIdBits ∧
    (chordIdPredecessor a n).toNat = ((a.toNat : ℤ) - 2 ^ n) % 2 ^ chordIdBits ∧
    (idAdd a b).toNat = ((a.toNat : ℤ) + b.toNat) % 2 ^ chordIdBits ∧
    (idSubtract a b).toNat = ((a.toNat : ℤ) - b.toNat) % 2 ^ chordIdBits ∧
    chordIdPredecessor (chordIdSuccessor a n) n = a ∧
    chordIdSuccessor (chordIdPredecessor a n) n = a ∧
    idAdd (idSubtract a b) b = a ∧ idSubtract (idAdd a b) b = a
  := by
  have hsucc : ∀ c : ChordID,
      (chordIdSuccessor c n).toNat = ((c.toNat : ℤ) + 2 ^ n) % 2 ^ chordIdBits := by
    intro c
    rw [toNat_chordIdSuccessor c hn]
    push_cast
    rfl
  have hpred := fun c => toNat_chordIdPredecessor c hn
  have hmod : ((a.toNat : ℤ)) % 2 ^ chordIdBits = a.toNat :=
    (ChordID.toNat_eq_emod (k := 0) (by ring)).symm
  refine ⟨hsucc a, hpred a, toNat_idAdd a b, toNat_idSubtract a b, ?_, ?_, ?_, ?_⟩
  · apply ChordID.toNat_injective
    rw [← Nat.cast_inj (R := ℤ), hpred, hsucc, Int.emod_sub_emod, add_sub_cancel_right, hmod]
  · apply ChordID.toNat_injective
    rw [← Nat.cast_inj (R := ℤ), hsucc, hpred, Int.emod_add_emod, sub_add_cancel, hmod]
  · apply ChordID.toNat_injective
    rw [← Nat.cast_inj (R := ℤ), toNat_idAdd, toNat_idSubtract, Int.emod_add_emod,
      sub_add_cancel, hmod]
  · apply ChordID.toNat_injective
    rw [← Nat.cast_inj (R := ℤ), toNat_idSubtract, toNat_idAdd, Int.emod_sub_emod,
      add_sub_cancel_right, hmod]

/-- The identifier whose last byte is `c` and whose other bytes are `b`. -/
def sampleId (b c : UInt8) : ChordID :=
  ⟨List.replicate 19 b ++ [c], by simp⟩

/-- A carry through all bytes, and a borrow through all of them. -/
theorem id_arithmetic_sample :
  (chordIdSuccessor (sampleId 0xff 0xff) 0).toNat = 0 ∧
    (idSubtract (sampleId 0 0) (sampleId 0 1)).toNat = 2 ^ 160 - 1 ∧
    idAdd (idSubtract (sampleId 0 0) (sampleId 0 1)) (sampleId 0 1) = sampleId 0 0
  := by
  have hall := id_arithmetic (sampleId 0 0) (sampleId 0 1) (by decide : 0 < chordIdBits)
  exact ⟨by decide, by decide, hall.2.2.2.2.2.2.1⟩

/-! ### Intervals -/

/-- The distance between two identifiers is their difference modulo `2 ^ 160`. -/
theorem gap_eq_emod (a b : ChordID) :
  (ChordID.gap a b : ℤ) = ((b.toNat : ℤ) - a.toNat) % 2 ^ chordIdBits
  := by
  have hgap := Clockwise.gap_eq_emod a.toNat_lt b.toNat_lt
  push_cast at hgap
  exact hgap

theorem ChordID.gap_eq_zero_iff {a b : ChordID} :
  gap a b = 0 ↔ a = b
  := by
  rw [gap, Clockwise.gap_eq_zero_iff a.toNat_lt, toNat_injective.eq_iff]

theorem ChordID.arc_eq_ite_gap (a b : ChordID) :
  arc a b = if gap a b = 0 then 2 ^ chordIdBits else gap a b
  := Clockwise.arc_eq_ite_gap a.toNat_lt b.toNat_lt

/-- Turning the circle keeps the distances. -/
theorem gap_idAdd (a b c : ChordID) :
  ChordID.gap (idAdd a c) (idAdd b c) = ChordID.gap a b
  := by
  rw [← Nat.cast_inj (R := ℤ), gap_eq_emod, gap_eq_emod, toNat_idAdd, toNat_idAdd,
    ← Int.sub_emod, add_sub_add_right_eq_sub]

/-- A point of the open interval from `a` to `b` is another point than `a`, and nearer to it than
`b` is. -/
theorem idIsBetween_iff_gap {x a b : ChordID} :
  idIsBetween x a b = true ↔
    (a = b ∧ x ≠ a) ∨
      (a ≠ b ∧ 0 < ChordID.gap a x ∧ ChordID.gap a x < ChordID.gap a b)
  := by
  have hx := ChordID.gap_lt a x
  have hb := ChordID.gap_lt a b
  rw [idIsBetween_iff, ChordID.arc_eq_ite_gap, ChordID.arc_eq_ite_gap, ne_comm, ne_eq, ne_eq,
    ← ChordID.gap_eq_zero_iff, ← ChordID.gap_eq_zero_iff]
  split_ifs <;> omega

/-- A point other than `a` and `b` lies between them on one side and not on the other. -/
theorem idIsBetween_swap {x a b : ChordID} (hab : a ≠ b) (hxa : x ≠ a) (hxb : x ≠ b) :
  idIsBetween x b a = !idIsBetween x a b
  := by
  have hside := between_or_equals_left_iff hab.symm hxa
  have heq : idEquals x b = false := by
    rw [← Bool.not_eq_true, idEquals_iff]
    exact hxb
  rw [heq, Bool.or_false, ← not_lt, ← idIsBetween_iff] at hside
  rw [Bool.eq_iff_iff, hside, Bool.not_eq_true', Bool.not_eq_true]

/-- `id_is_between` is the test for an open interval of the circle of `2 ^ 160` points, whose
origin does not matter. -/
theorem between_is_circular (x a b : ChordID) :
  (idIsBetween x a b = true ↔
      (a = b ∧ x ≠ a) ∨
      (a ≠ b ∧ 0 < ((x.toNat : ℤ) - a.toNat) % 2 ^ chordIdBits ∧
        ((x.toNat : ℤ) - a.toNat) % 2 ^ chordIdBits
          < ((b.toNat : ℤ) - a.toNat) % 2 ^ chordIdBits)) ∧
    (∀ c, idIsBetween (idAdd x c) (idAdd a c) (idAdd b c) = idIsBetween x a b) ∧
    (a ≠ b →
      [decide (x = a), decide (x = b), idIsBetween x a b, idIsBetween x b a].count true = 1)
  := by
  refine ⟨?_, ?_, ?_⟩
  · rw [← gap_eq_emod, ← gap_eq_emod, idIsBetween_iff_gap]
    norm_cast
  · intro c
    rw [Bool.eq_iff_iff, idIsBetween_iff, idIsBetween_iff]
    simp only [ChordID.arc_eq_ite_gap, gap_idAdd]
  · intro hab
    have hleft : idIsBetween a a b = false := by
      rw [← Bool.not_eq_true, idIsBetween_iff, ChordID.arc_self, not_lt]
      apply ChordID.arc_le
    have hright : ∀ c d : ChordID, idIsBetween d c d = false := by
      intro c d
      rw [← Bool.not_eq_true, idIsBetween_iff]
      apply lt_irrefl
    have hback : idIsBetween b b a = false := by
      rw [← Bool.not_eq_true, idIsBetween_iff, ChordID.arc_self, not_lt]
      apply ChordID.arc_le
    by_cases hxa : x = a
    · subst hxa
      simp [hleft, hright, hab]
    by_cases hxb : x = b
    · subst hxb
      simp [hback, hright, hxa]
    rw [idIsBetween_swap hab hxa hxb]
    cases idIsBetween x a b <;> simp [hxa, hxb]

/-! ### Random identifiers -/

/-- Making all bytes but zero smaller makes every number but zero smaller. -/
theorem beNat_map_lt {g : UInt8 → UInt8} (hzero : g 0 = 0)
    (hlt : ∀ b, b ≠ 0 → (g b).toNat < b.toNat) {l : Bytes} (hl : Bytes.beNat l ≠ 0) :
  Bytes.beNat (l.map g) < Bytes.beNat l
  := by
  induction l with
  | nil => exact absurd rfl hl
  | cons b l ih =>
      by_cases hb : b = 0
      · subst hb
        simp only [List.map_cons, hzero, Bytes.beNat, UInt8.toNat_zero, zero_mul, zero_add]
          at hl ⊢
        apply ih hl
      · apply Bytes.beNat_lt_of_head_lt (by simp) (hlt b hb)

/-- `random_from` stays below its argument. -/
theorem toNat_randomFrom_lt (random : ℕ) {a : ChordID} (ha : a.toNat ≠ 0) :
  (randomFrom random a).toNat < a.toNat
  := by
  have hm : random % 10 < 10 := Nat.mod_lt _ (by decide)
  apply beNat_map_lt (by simp) _ ha
  intro b hb
  have hpos : b.toNat ≠ 0 := fun h0 => hb (UInt8.toNat_inj.mp h0)
  have hlt : b.toNat * (random % 10 + 1) / 11 < b.toNat := by
    rw [Nat.div_lt_iff_lt_mul (by decide)]
    apply Nat.mul_lt_mul_of_pos_left (by omega) (by omega)
  rw [UInt8.toNat_ofNat_of_lt' (hlt.trans b.toNat_lt)]
  exact hlt

theorem gap_idAdd_left (a d : ChordID) :
  ChordID.gap a (idAdd a d) = d.toNat
  := by
  rw [← Nat.cast_inj (R := ℤ), gap_eq_emod, toNat_idAdd, Int.emod_sub_emod, add_sub_cancel_left]
  exact (ChordID.toNat_eq_emod (k := 0) (by ring)).symm

theorem toNat_idSubtract_eq_gap (a b : ChordID) :
  (idSubtract b a).toNat = ChordID.gap a b
  := by
  rw [← Nat.cast_inj (R := ℤ), gap_eq_emod, toNat_idSubtract]

/-- `id_random_between` draws the left end of the interval or a point inside it. -/
theorem random_between_in_interval {a b : ChordID} (hab : a ≠ b) (random : ℕ) :
  (((idRandomBetween random a b).toNat : ℤ) - a.toNat) % 2 ^ chordIdBits
      < ((b.toNat : ℤ) - a.toNat) % 2 ^ chordIdBits ∧
    (idRandomBetween random a b = a ∨ idIsBetween (idRandomBetween random a b) a b = true)
  := by
  have hgap : ChordID.gap a (idRandomBetween random a b) < ChordID.gap a b := by
    rw [idRandomBetween, gap_idAdd_left, ← toNat_idSubtract_eq_gap a b]
    apply toNat_randomFrom_lt
    rw [toNat_idSubtract_eq_gap, ne_eq, ChordID.gap_eq_zero_iff]
    exact hab
  constructor
  · rw [← gap_eq_emod, ← gap_eq_emod]
    exact_mod_cast hgap
  · by_cases heq : ChordID.gap a (idRandomBetween random a b) = 0
    · left
      exact (ChordID.gap_eq_zero_iff.mp heq).symm
    · right
      rw [idIsBetween_iff_gap]
      exact .inr ⟨hab, Nat.pos_of_ne_zero heq, hgap⟩

/-- An interval that wraps past zero. -/
theorem random_between_in_interval_sample :
  (idRandomBetween 9 (sampleId 0xff 0xff) (sampleId 0 21)).toNat = 19 ∧
    idIsBetween (idRandomBetween 9 (sampleId 0xff 0xff) (sampleId 0 21)) (sampleId 0xff 0xff)
      (sampleId 0 21) = true
  := by
  have hin := (random_between_in_interval (by decide : sampleId 0xff 0xff ≠ sampleId 0 21) 9).2
  exact ⟨by decide, hin.resolve_left (by decide)⟩

end Tangent
