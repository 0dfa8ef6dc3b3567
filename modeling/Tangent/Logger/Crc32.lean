import Mathlib.Algebra.CharP.Two
import Mathlib.Algebra.Field.ZMod
import Mathlib.Algebra.Polynomial.Div
import Mathlib.Data.ZMod.Basic
import Mathlib.RingTheory.Coprime.Basic
import Mathlib.RingTheory.Polynomial.DegreeLT
import Mathlib.Tactic.ComputeDegree
import Tangent.Model.Logger

/-!
# The checksum is a remainder

The polynomial of `crc32` is X^32+X^26+X^23+X^22+X^16+X^12+X^11+X^10+X^8+X^7+X^5+X^4+X^2+X^1+X^0.
A string is a polynomial over the field with two elements, the lowest bit of its first byte
first.  The table holds the remainders of the bytes, and `crc32` the remainder of the string
behind which 32 zero bits are put.  So two strings have the same checksum if and only if the
polynomial divides their difference.
-/

namespace Tangent.Logger

open Polynomial

/-! ### The shift register -/

/-- What is fed back when a bit is shifted out. -/
def feedback (b : Bool) : BitVec 64 :=
  if b then 0xedb88320 else 0

theorem feedback_xor (a b : Bool) :
  feedback (a ^^ b) = feedback a ^^^ feedback b
  := by
  cases a <;> cases b <;> decide

/-- One shift of the register. -/
def crcShift (c : BitVec 64) : BitVec 64 :=
  (c >>> 1) ^^^ feedback (c.getLsbD 0)

theorem crcShift_xor (a b : BitVec 64) :
  crcShift (a ^^^ b) = crcShift a ^^^ crcShift b
  := by
  rw [crcShift, crcShift, crcShift, BitVec.getLsbD_xor, BitVec.ushiftRight_xor_distrib,
    feedback_xor]
  ac_rfl

/-- Eight shifts of the register. -/
def crcShifts (c : BitVec 64) : BitVec 64 :=
  crcShift^[8] c

theorem crcShifts_xor (a b : BitVec 64) :
  crcShifts (a ^^^ b) = crcShifts a ^^^ crcShifts b
  := by
  have hiter : ∀ n, crcShift^[n] (a ^^^ b) = crcShift^[n] a ^^^ crcShift^[n] b := by
    intro n
    induction n with
    | zero => rfl
    | succ n ih => rw [Function.iterate_succ_apply', Function.iterate_succ_apply',
        Function.iterate_succ_apply', ih, crcShift_xor]
  exact hiter 8

/-- The high bits are shifted without feedback. -/
theorem crcShifts_high (c : BitVec 64) :
  crcShifts ((c >>> 8) <<< 8) = c >>> 8
  := by
  have hshift : ∀ n, n < 8 → crcShift ((c >>> 8) <<< (n + 1)) = (c >>> 8) <<< n := by
    intro n hn
    have hlow : ((c >>> 8) <<< (n + 1)).getLsbD 0 = false := by
      simp
    rw [crcShift, hlow]
    apply BitVec.eq_of_getLsbD_eq
    intro i hi
    simp only [feedback, Bool.false_eq_true, if_false, BitVec.getLsbD_xor,
      BitVec.getLsbD_ushiftRight, BitVec.getLsbD_shiftLeft]
    by_cases hin : i < n
    · have hlt : 1 + i < n + 1 := by omega
      simp [hin, hlt]
    · have hidx : 8 + (1 + i - (n + 1)) = 8 + (i - n) := by omega
      rw [hidx]
      by_cases hlast : 1 + i < 64
      · have hlt : ¬ 1 + i < n + 1 := by omega
        simp [hin, hi, hlast, hlt]
      · rw [BitVec.getLsbD_of_ge c (8 + (i - n)) (by omega)]
        simp
  rw [crcShifts]
  simp only [Function.iterate_succ_apply', Function.iterate_zero, id_eq]
  rw [hshift 7 (by omega), hshift 6 (by omega), hshift 5 (by omega), hshift 4 (by omega),
    hshift 3 (by omega), hshift 2 (by omega), hshift 1 (by omega), hshift 0 (by omega)]
  simp

/-- The table holds what eight shifts make of each byte. -/
theorem crc32Tab_eq :
  ∀ i < 256, (crc32Tab.getD i 0).toBitVec = crcShifts (BitVec.ofNat 64 i)
  := by
  decide +kernel

/-- One step of `crc32` shifts the register, with the byte added, eight times. -/
theorem crc32_step (c : UInt64) (b : UInt8) :
  (crc32Tab.getD ((c ^^^ b.toUInt64) &&& 0xff).toNat 0 ^^^ (c >>> 8)).toBitVec
    = crcShifts (c.toBitVec ^^^ b.toBitVec.setWidth 64)
  := by
  have hshift : (c >>> 8).toBitVec = (c.toBitVec ^^^ b.toBitVec.setWidth 64) >>> 8 := by
    have hbyte : b.toBitVec.setWidth 64 >>> 8 = 0 := by
      apply BitVec.eq_of_getLsbD_eq
      intro i hi
      simp
    rw [BitVec.ushiftRight_xor_distrib, hbyte, UInt64.toBitVec_shiftRight]
    simp
  have hindex : ((c ^^^ b.toUInt64) &&& 0xff).toNat
      = ((c.toBitVec ^^^ b.toBitVec.setWidth 64) &&& 0xff).toNat := by
    rw [← UInt64.toNat_toBitVec, UInt64.toBitVec_and, UInt64.toBitVec_xor]
    rfl
  generalize c.toBitVec ^^^ b.toBitVec.setWidth 64 = x at hshift hindex
  have hlt : (x &&& 0xff).toNat < 256 := by
    rw [BitVec.toNat_and]
    exact Nat.lt_of_le_of_lt Nat.and_le_right (by decide)
  have hsplit : (x &&& (0xff : BitVec 64)) ^^^ ((x >>> 8) <<< 8) = x := by
    apply BitVec.eq_of_getLsbD_eq
    intro i hi
    have hmask : (0xff : BitVec 64).getLsbD i = decide (i < 8) := by
      have hbits : ∀ i < 64, (0xff : BitVec 64).getLsbD i = decide (i < 8) := by decide
      exact hbits i hi
    rw [BitVec.getLsbD_xor, BitVec.getLsbD_and, hmask, BitVec.getLsbD_shiftLeft,
      BitVec.getLsbD_ushiftRight]
    by_cases hlow : i < 8
    · simp [hlow]
    · have hidx : 8 + (i - 8) = i := by omega
      simp [hlow, hi, hidx]
  have hentry := crc32Tab_eq _ hlt
  rw [BitVec.ofNat_toNat, BitVec.setWidth_eq] at hentry
  rw [UInt64.toBitVec_xor, hindex, hentry, hshift, ← crcShifts_high x, ← crcShifts_xor, hsplit]

/-! ### Polynomials -/

/-- The polynomial of the checksum. -/
noncomputable def crcPolynomial : (ZMod 2)[X] :=
  X ^ 32 + X ^ 26 + X ^ 23 + X ^ 22 + X ^ 16 + X ^ 12 + X ^ 11 + X ^ 10 + X ^ 8 + X ^ 7 + X ^ 5
    + X ^ 4 + X ^ 2 + X ^ 1 + X ^ 0

/-- The polynomial in the register: the lowest of the 32 bits belongs to the highest power. -/
noncomputable def register (c : BitVec 64) : (ZMod 2)[X] :=
  ∑ i ∈ Finset.range 32, if c.getLsbD i then X ^ (31 - i) else 0

/-- The polynomial of a byte. -/
noncomputable def bytePolynomial (b : UInt8) : (ZMod 2)[X] :=
  ∑ i ∈ Finset.range 8, if b.toBitVec.getLsbD i then X ^ (7 - i) else 0

/-- The polynomial of a string. -/
noncomputable def message (s : Bytes) : (ZMod 2)[X] :=
  s.foldl (fun m b => m * X ^ 8 + bytePolynomial b) 0

theorem register_xor (a b : BitVec 64) :
  register (a ^^^ b) = register a + register b
  := by
  rw [register, register, register, ← Finset.sum_add_distrib]
  apply Finset.sum_congr rfl
  intro i _
  rw [BitVec.getLsbD_xor]
  cases a.getLsbD i <;> cases b.getLsbD i <;> simp [CharTwo.add_self_eq_zero]

theorem register_feedback :
  register (feedback true) + X ^ 32 = crcPolynomial
  := by
  have hbits : ∀ i < 32, (feedback true).getLsbD i
      = decide (i ∈ [5, 8, 9, 15, 19, 20, 21, 23, 24, 26, 27, 29, 30, 31]) := by decide
  have hsum : register (feedback true) = ∑ i ∈ Finset.range 32,
      if i ∈ [5, 8, 9, 15, 19, 20, 21, 23, 24, 26, 27, 29, 30, 31] then X ^ (31 - i) else 0 := by
    apply Finset.sum_congr rfl
    intro i hi
    rw [hbits i (Finset.mem_range.mp hi)]
    simp
  rw [hsum, crcPolynomial]
  simp [Finset.sum_range_succ]
  ring

/-- Multiplying by X moves the coefficients. -/
theorem mul_sum_pow {R : Type*} [CommSemiring R] (x : R) (f : ℕ → Bool) {m : ℕ}
    (hf : f (1 + m) = false) :
  x * (∑ i ∈ Finset.range (m + 1), if f i then x ^ (m - i) else 0)
    = (∑ i ∈ Finset.range (m + 1), if f (1 + i) then x ^ (m - i) else 0)
      + if f 0 then x ^ (m + 1) else 0
  := by
  rw [Finset.sum_range_succ', Finset.sum_range_succ _ m, hf, mul_add, Finset.mul_sum]
  simp only [Bool.false_eq_true, if_false, add_zero, Nat.sub_zero, mul_ite, mul_zero]
  rw [← pow_succ']
  congr 1
  apply Finset.sum_congr rfl
  intro i hi
  rw [Finset.mem_range] at hi
  rw [← pow_succ', Nat.add_comm i 1, show m - (1 + i) + 1 = m - i by omega]

/-- A shift multiplies by X, and subtracts the polynomial if a bit is shifted out. -/
theorem register_shift {c : BitVec 64} (hc : ∀ i, 32 ≤ i → c.getLsbD i = false) :
  register (crcShift c) = X * register c + if c.getLsbD 0 then crcPolynomial else 0
  := by
  have hmul : X * register c = register (c >>> 1) + if c.getLsbD 0 then X ^ 32 else 0 := by
    have hsum := mul_sum_pow (X : (ZMod 2)[X]) c.getLsbD (hc (1 + 31) (by omega))
    simp only [← BitVec.getLsbD_ushiftRight] at hsum
    exact hsum
  rw [crcShift, register_xor, hmul]
  cases c.getLsbD 0 with
  | false =>
      have hzero : register (feedback false) = 0 := by
        simp [register, feedback]
      rw [hzero]
      simp
  | true =>
      rw [if_pos rfl, if_pos rfl, ← register_feedback, add_assoc (register (c >>> 1)),
        add_left_comm (X ^ 32), CharTwo.add_self_eq_zero, add_zero]

/-- The register has 32 bits. -/
def Fits (c : BitVec 64) : Prop :=
  ∀ i, 32 ≤ i → c.getLsbD i = false

theorem Fits.shift {c : BitVec 64} (h : Fits c) :
  Fits (crcShift c)
  := by
  intro i hi
  have hfeed : ∀ b, ∀ i < 64, 32 ≤ i → (feedback b).getLsbD i = false := by decide
  rw [crcShift, BitVec.getLsbD_xor, BitVec.getLsbD_ushiftRight, h (1 + i) (by omega),
    Bool.false_xor]
  by_cases hlt : i < 64
  · exact hfeed _ i hlt hi
  · exact BitVec.getLsbD_of_ge _ i (by omega)

theorem Fits.xor {c c' : BitVec 64} (h : Fits c) (h' : Fits c') :
  Fits (c ^^^ c')
  := by
  intro i hi
  rw [BitVec.getLsbD_xor, h i hi, h' i hi]
  rfl

theorem register_shifts {c : BitVec 64} (hc : Fits c) :
  Fits (crcShifts c) ∧ crcPolynomial ∣ register (crcShifts c) - X ^ 8 * register c
  := by
  have hiter : ∀ n, Fits (crcShift^[n] c) ∧
      crcPolynomial ∣ register (crcShift^[n] c) - X ^ n * register c := by
    intro n
    induction n with
    | zero => simpa using hc
    | succ n ih =>
        obtain ⟨hfits, hdvd⟩ := ih
        rw [Function.iterate_succ_apply']
        refine ⟨hfits.shift, ?_⟩
        have hstep : crcPolynomial ∣ register (crcShift (crcShift^[n] c))
            - X * register (crcShift^[n] c) := by
          rw [register_shift hfits, add_sub_cancel_left]
          split
          · exact dvd_refl _
          · exact dvd_zero _
        have hsum := dvd_add hstep (hdvd.mul_left X)
        rw [show register (crcShift (crcShift^[n] c)) - X ^ (n + 1) * register c
          = register (crcShift (crcShift^[n] c)) - X * register (crcShift^[n] c)
            + X * (register (crcShift^[n] c) - X ^ n * register c) by ring]
        exact hsum
  exact hiter 8

theorem byte_fits (b : UInt8) :
  Fits (b.toBitVec.setWidth 64)
  := by
  intro i hi
  rw [BitVec.getLsbD_setWidth, BitVec.getLsbD_of_ge b.toBitVec i (by omega), Bool.and_false]

theorem register_byte (b : UInt8) :
  register (b.toBitVec.setWidth 64) = X ^ 24 * bytePolynomial b
  := by
  have hsub : Finset.range 8 ⊆ Finset.range 32 := Finset.range_subset_range.mpr (by omega)
  rw [register, bytePolynomial, Finset.mul_sum, ← Finset.sum_subset hsub]
  · apply Finset.sum_congr rfl
    intro i hi
    rw [Finset.mem_range] at hi
    have hlt : i < 64 := by omega
    rw [BitVec.getLsbD_setWidth, mul_ite, mul_zero, ← pow_add,
      show 24 + (7 - i) = 31 - i by omega]
    simp [hlt]
  · intro i _ hi
    rw [Finset.mem_range] at hi
    rw [BitVec.getLsbD_setWidth, BitVec.getLsbD_of_ge b.toBitVec i (by omega)]
    simp

/-- The register holds the remainder of what has been read, with 32 zero bits behind. -/
theorem crc32_dvd (s : Bytes) :
  Fits (crc32 s).toBitVec ∧
    crcPolynomial ∣ register (crc32 s).toBitVec - X ^ 32 * message s
  := by
  induction s using List.reverseRecOn with
  | nil =>
      constructor
      · intro i _
        simp [crc32]
      · simp [crc32, register, message]
  | append_singleton s b ih =>
      obtain ⟨hfits, hdvd⟩ := ih
      have hstep : (crc32 (s ++ [b])).toBitVec
          = crcShifts ((crc32 s).toBitVec ^^^ b.toBitVec.setWidth 64) := by
        rw [crc32, List.foldl_concat]
        exact crc32_step _ b
      have hmessage : message (s ++ [b]) = message s * X ^ 8 + bytePolynomial b := by
        rw [message, List.foldl_concat]
        rfl
      obtain ⟨hfits', hshift⟩ := register_shifts (hfits.xor (byte_fits b))
      rw [hstep, hmessage]
      refine ⟨hfits', ?_⟩
      rw [register_xor, register_byte] at hshift
      have hsum := dvd_add hshift (hdvd.mul_left (X ^ 8))
      rw [show ∀ r c m p : (ZMod 2)[X], r - X ^ 32 * (m * X ^ 8 + p)
        = r - X ^ 8 * (c + X ^ 24 * p) + X ^ 8 * (c - X ^ 32 * m) by intros; ring]
      exact hsum

/-! ### The remainder -/

theorem crcPolynomial_monic :
  crcPolynomial.Monic
  := by
  rw [crcPolynomial]
  monicity!

theorem crcPolynomial_degree :
  crcPolynomial.degree = 32
  := by
  rw [crcPolynomial]
  compute_degree!

theorem register_degree (c : BitVec 64) :
  (register c).degree < 32
  := by
  apply Polynomial.mem_degreeLT.mp
  apply Submodule.sum_mem
  intro i _
  split
  · apply Polynomial.mem_degreeLT.mpr
    rw [degree_X_pow]
    exact_mod_cast (by omega : 31 - i < 32)
  · exact Submodule.zero_mem _

theorem register_coeff (c : BitVec 64) {i : ℕ} (hi : i < 32) :
  (register c).coeff (31 - i) = if c.getLsbD i then 1 else 0
  := by
  rw [register, finsetSum_coeff, Finset.sum_eq_single i]
  · split <;> simp
  · intro j hj hne
    rw [Finset.mem_range] at hj
    have hpow : 31 - i ≠ 31 - j := by omega
    split
    · simp [coeff_X_pow, hpow]
    · simp
  · intro hnot
    exact absurd (Finset.mem_range.mpr hi) hnot

/-- The bits of the register are the coefficients of its polynomial. -/
theorem register_inj {c c' : BitVec 64} (h : Fits c) (h' : Fits c')
    (heq : register c = register c') :
  c = c'
  := by
  apply BitVec.eq_of_getLsbD_eq
  intro i _
  by_cases hi : i < 32
  · have hcoeff := congrArg (fun p => p.coeff (31 - i)) heq
    simp only [register_coeff _ hi] at hcoeff
    cases hc : c.getLsbD i <;> cases hc' : c'.getLsbD i <;> simp_all
  · rw [h i (by omega), h' i (by omega)]

theorem crcPolynomial_coprime :
  IsCoprime crcPolynomial (X ^ 32)
  := by
  apply IsCoprime.pow_right
  refine ⟨1, -(X ^ 31 + X ^ 25 + X ^ 22 + X ^ 21 + X ^ 15 + X ^ 11 + X ^ 10 + X ^ 9 + X ^ 7
    + X ^ 6 + X ^ 4 + X ^ 3 + X + 1), ?_⟩
  rw [crcPolynomial]
  ring

/-- The checksum of a string is the remainder of its polynomial times the 32nd power of X, and
two strings have the same checksum if and only if the polynomial of the checksum divides the
difference of theirs. -/
theorem crc32_is_remainder (s : Bytes) :
  (crc32 s).toNat < 2 ^ 32 ∧
    register (crc32 s).toBitVec = (X ^ 32 * message s) %ₘ crcPolynomial ∧
    ∀ s', crc32 s = crc32 s' ↔ crcPolynomial ∣ message s - message s'
  := by
  obtain ⟨hfits, hdvd⟩ := crc32_dvd s
  refine ⟨?_, ?_, ?_⟩
  · apply Nat.lt_pow_two_of_testBit
    intro i hi
    exact hfits i hi
  · obtain ⟨q, hq⟩ := hdvd
    symm
    apply (div_modByMonic_unique (-q) _ crcPolynomial_monic ⟨_, _⟩).2
    · rw [mul_neg, ← hq]
      ring
    · rw [crcPolynomial_degree]
      exact register_degree _
  · intro s'
    obtain ⟨hfits', hdvd'⟩ := crc32_dvd s'
    constructor
    · intro heq
      rw [← heq] at hdvd'
      apply crcPolynomial_coprime.dvd_of_dvd_mul_left
      have hsub := dvd_sub hdvd' hdvd
      rw [show ∀ r m m' : (ZMod 2)[X], X ^ 32 * (m - m') = r - X ^ 32 * m' - (r - X ^ 32 * m) by
        intros; ring]
      exact hsub
    · intro hm
      have hregister : crcPolynomial
          ∣ register (crc32 s).toBitVec - register (crc32 s').toBitVec := by
        have hsum := dvd_add (dvd_sub hdvd hdvd') (hm.mul_left (X ^ 32))
        rw [show ∀ r r' m m' : (ZMod 2)[X], r - r'
          = r - X ^ 32 * m - (r' - X ^ 32 * m') + X ^ 32 * (m - m') by intros; ring]
        exact hsum
      have hdegree : (register (crc32 s).toBitVec - register (crc32 s').toBitVec).degree
          < crcPolynomial.degree := by
        rw [crcPolynomial_degree]
        exact (degree_sub_le _ _).trans_lt (max_lt (register_degree _) (register_degree _))
      have hzero := eq_zero_of_dvd_of_degree_lt hregister hdegree
      exact UInt64.toBitVec_inj.mp (register_inj hfits hfits' (sub_eq_zero.mp hzero))

end Tangent.Logger
