import Mathlib.Algebra.Order.Group.Abs
import Mathlib.Tactic.Linarith
import Tangent.Model.Process

/-!
# Round-trip times

`update_rtt` once more, on the type the code has for its times: a `long` of 64 bits, whose right
shift copies the sign.  A sum, a difference or a negation that no `long` holds is an overflow,
after which the function has no result.  While there is none, it computes what `updateRtt`
computes on integers, and there is none while the samples stay within a range that is not too
large: the average moves a part of the way to the next sample, and the deviation a part of the way
to the error.
-/

namespace Tangent

/-! ### The estimates of a `long` -/

/-- The `long` that holds a value. -/
def longOfInt (z : ℤ) : Option Int64 :=
  if -2 ^ 63 ≤ z ∧ z < 2 ^ 63 then some (Int64.ofInt z) else none

/-- `a + b`. -/
def addLong (a b : Int64) : Option Int64 :=
  longOfInt (a.toInt + b.toInt)

/-- `a - b`. -/
def subLong (a b : Int64) : Option Int64 :=
  longOfInt (a.toInt - b.toInt)

/-- `-a`. -/
def negLong (a : Int64) : Option Int64 :=
  longOfInt (-a.toInt)

/-- `if (a < 0) a = -a`. -/
def absLong (a : Int64) : Option Int64 :=
  if a < 0 then negLong a else some a

/-- `update_rtt`: the new average and mean deviation, unless a value overflows. -/
def updateRttLong (rttAvg rttDev newRtt : Int64) : Option (Int64 × Int64) :=
  if rttAvg = 0 then
    some (newRtt, 0)
  else do
    let err ← subLong newRtt rttAvg
    let rttAvg ← addLong rttAvg (err >>> 3)
    let err ← absLong err
    let diff ← subLong err rttDev
    let rttDev ← addLong rttDev (diff >>> 2)
    return (rttAvg, rttDev)

/-- The average and the mean deviation after a call of `update_rtt` for each of the samples. -/
def updateRtts (rtt : Int64 × Int64) (samples : List Int64) : Option (Int64 × Int64) :=
  samples.foldlM (fun rtt newRtt => updateRttLong rtt.1 rtt.2 newRtt) rtt

/-! ### The operations, as operations on integers -/

variable {a b : Int64} {z : ℤ}

theorem longOfInt_eq_some :
  longOfInt z = some a ↔ a.toInt = z
  := by
  have hlo := a.le_toInt
  have hhi := a.toInt_lt
  rw [longOfInt]
  split
  · rename_i hz
    rw [Option.some.injEq]
    constructor
    · rintro rfl
      apply Int64.toInt_ofInt_of_le hz.1 hz.2
    · rintro rfl
      apply Int64.ofInt_toInt
  · rename_i hz
    simp only [reduceCtorEq, false_iff]
    rintro rfl
    exact hz ⟨hlo, hhi⟩

/-- A value in the range of a `long` is the value of one. -/
theorem exists_longOfInt (hlo : -2 ^ 63 ≤ z) (hhi : z < 2 ^ 63) :
  ∃ a, longOfInt z = some a ∧ a.toInt = z
  := by
  use Int64.ofInt z
  have hz := Int64.toInt_ofInt_of_le hlo hhi
  exact ⟨longOfInt_eq_some.mpr hz, hz⟩

/-- A shift to the right rounds down. -/
theorem toInt_shiftRight (a : Int64) (n : Fin 64) :
  (a >>> Int64.ofNat n).toInt = a.toInt / 2 ^ n.val
  := by
  have hn : ∀ n : Fin 64, ((Int64.ofNat n).toBitVec.smod 64).toNat = n := by
    decide
  rw [← Int64.toInt_toBitVec, Int64.toBitVec_shiftRight, BitVec.sshiftRight', hn,
    BitVec.toInt_sshiftRight, Int.shiftRight_eq_div_pow]
  norm_cast

theorem absLong_eq_some :
  absLong a = some b ↔ b.toInt = |a.toInt|
  := by
  have hlt : a < 0 ↔ a.toInt < 0 := by
    rw [Int64.lt_iff_toInt_lt]
    rfl
  rw [absLong]
  split
  · rename_i hneg
    rw [negLong, longOfInt_eq_some, abs_of_neg (hlt.mp hneg)]
  · rename_i hneg
    rw [abs_of_nonneg (not_lt.mp (hneg ∘ hlt.mpr)), Option.some.injEq, eq_comm, Int64.toInt_inj]

/-! ### The estimates, as estimates of integers -/

variable {avg dev new : Int64} {lo hi x y : ℤ}

/-- Without an overflow, `update_rtt` computes the estimates of integers. -/
theorem updateRttLong_toInt {r : Int64 × Int64} (h : updateRttLong avg dev new = some r) :
  (r.1.toInt, r.2.toInt) = updateRtt avg.toInt dev.toInt new.toInt
  := by
  have hzero : avg = 0 ↔ avg.toInt = 0 := by
    rw [← Int64.toInt_inj]
    rfl
  rw [updateRttLong] at h
  rw [updateRtt]
  split at h
  · rename_i h0
    cases h
    rw [if_pos (hzero.mp h0)]
    rfl
  · rename_i h0
    rw [if_neg (h0 ∘ hzero.mpr)]
    simp only [Option.bind_eq_bind, Option.bind_eq_some_iff, Option.pure_def] at h
    obtain ⟨err, herr, avg', havg, abs, habs, diff, hdiff, dev', hdev, hr⟩ := h
    cases hr
    rw [subLong, longOfInt_eq_some] at herr hdiff
    rw [addLong, longOfInt_eq_some] at havg hdev
    rw [absLong_eq_some] at habs
    have hshift : (err >>> 3).toInt = err.toInt / 8 := toInt_shiftRight err 3
    have hshift' : (diff >>> 2).toInt = diff.toInt / 4 := toInt_shiftRight diff 2
    simp only [havg, hdev, hshift, hshift', hdiff, habs, herr]

/-- Nothing overflows while the estimates and the sample are below `2 ^ 62`. -/
theorem exists_updateRttLong (havg : 0 ≤ avg.toInt) (havg' : avg.toInt < 2 ^ 62)
    (hdev : 0 ≤ dev.toInt) (hdev' : dev.toInt < 2 ^ 62)
    (hnew : 0 ≤ new.toInt) (hnew' : new.toInt < 2 ^ 62) :
  ∃ r, updateRttLong avg dev new = some r
  := by
  rw [updateRttLong]
  split
  · exact ⟨_, rfl⟩
  · obtain ⟨err, herr, herr'⟩ :=
      exists_longOfInt (z := new.toInt - avg.toInt) (by omega) (by omega)
    have hshift : (err >>> 3).toInt = err.toInt / 8 := toInt_shiftRight err 3
    obtain ⟨avg', havg, -⟩ :=
      exists_longOfInt (z := avg.toInt + (err >>> 3).toInt) (by omega) (by omega)
    have hnonneg := abs_nonneg err.toInt
    have hlt : |err.toInt| < 2 ^ 62 := abs_lt.mpr ⟨by omega, by omega⟩
    obtain ⟨abs, -, habs⟩ := exists_longOfInt (z := |err.toInt|) (by omega) (by omega)
    obtain ⟨diff, hdiff, hdiff'⟩ :=
      exists_longOfInt (z := abs.toInt - dev.toInt) (by omega) (by omega)
    have hshift' : (diff >>> 2).toInt = diff.toInt / 4 := toInt_shiftRight diff 2
    obtain ⟨dev', hdev, -⟩ :=
      exists_longOfInt (z := dev.toInt + (diff >>> 2).toInt) (by omega) (by omega)
    use (avg', dev')
    rw [← absLong_eq_some] at habs
    simp only [subLong, herr, addLong, havg, habs, hdiff, hdev, Option.bind_eq_bind,
      Option.bind_some, Option.pure_def]

/-! ### The range of the estimates -/

/-- A value that moves a part of the way to another stays in the range of the two. -/
theorem between_of_add_div {n : ℤ} (hn : 0 < n) (hx : lo ≤ x ∧ x ≤ hi) (hy : lo ≤ y ∧ y ≤ hi) :
  lo ≤ x + (y - x) / n ∧ x + (y - x) / n ≤ hi
  := by
  obtain ⟨hx₁, hx₂⟩ := hx
  obtain ⟨hy₁, hy₂⟩ := hy
  rcases le_total x y with hle | hle
  · have h₁ : 0 ≤ (y - x) / n := Int.ediv_nonneg (by omega) hn.le
    have h₂ : (y - x) / n ≤ y - x := Int.ediv_le_self n (by omega)
    constructor <;> omega
  · have h₁ : (y - x) / n ≤ 0 := Int.ediv_nonpos_of_nonpos_of_neg (by omega) hn
    have h₂ : y - x ≤ (y - x) / n := by
      rw [Int.le_ediv_iff_mul_le hn]
      nlinarith
    constructor <;> omega

/-- The estimates are those of samples between `lo` and `hi`. -/
structure RttWithin (lo hi : ℤ) (rtt : ℤ × ℤ) : Prop where
  avg : lo ≤ rtt.1 ∧ rtt.1 ≤ hi
  dev : 0 ≤ rtt.2 ∧ rtt.2 ≤ hi - lo

/-- The first sample is the average, and there is no deviation from it. -/
theorem RttWithin.first (hx : lo ≤ x ∧ x ≤ hi) :
  RttWithin lo hi (updateRtt 0 0 x)
  := by
  obtain ⟨h₁, h₂⟩ := hx
  constructor
  · exact ⟨h₁, h₂⟩
  · constructor
    · exact le_refl 0
    · change 0 ≤ hi - lo
      omega

/-- Every further sample leaves the estimates in their range. -/
theorem RttWithin.update {rtt : ℤ × ℤ} (hlo : 0 < lo) (h : RttWithin lo hi rtt)
    (hx : lo ≤ x ∧ x ≤ hi) :
  RttWithin lo hi (updateRtt rtt.1 rtt.2 x)
  := by
  obtain ⟨havg, hdev⟩ := h
  have hpos : rtt.1 ≠ 0 := by
    have hle := havg.1
    omega
  have herr : 0 ≤ |x - rtt.1| ∧ |x - rtt.1| ≤ hi - lo := by
    obtain ⟨h₁, h₂⟩ := havg
    obtain ⟨h₃, h₄⟩ := hx
    constructor
    · apply abs_nonneg
    · rw [abs_le]
      constructor <;> omega
  rw [updateRtt, if_neg hpos]
  constructor
  · apply between_of_add_div (by decide) havg hx
  · apply between_of_add_div (by decide) hdev herr

/-- The values of a pair of `long`s. -/
def rttValues (rtt : Int64 × Int64) : ℤ × ℤ :=
  (rtt.1.toInt, rtt.2.toInt)

/-- A further sample does not overflow, and leaves the estimates in their range. -/
theorem RttWithin.exists_updateRttLong {rtt : Int64 × Int64} (hlo : 0 < lo) (hhi : hi < 2 ^ 62)
    (h : RttWithin lo hi (rttValues rtt)) (hnew : lo ≤ new.toInt ∧ new.toInt ≤ hi) :
  ∃ rtt', updateRttLong rtt.1 rtt.2 new = some rtt' ∧ RttWithin lo hi (rttValues rtt')
  := by
  obtain ⟨havg, havg'⟩ := h.avg
  obtain ⟨hdev, hdev'⟩ := h.dev
  have hnew₁ := hnew.1
  have hnew₂ := hnew.2
  simp only [rttValues] at havg havg' hdev hdev'
  obtain ⟨rtt', hrtt'⟩ : ∃ rtt', updateRttLong rtt.1 rtt.2 new = some rtt' := by
    apply Tangent.exists_updateRttLong <;> omega
  use rtt', hrtt'
  rw [rttValues, updateRttLong_toInt hrtt']
  apply h.update hlo hnew

/-- No number of further samples overflows or takes the estimates out of their range. -/
theorem RttWithin.exists_updateRtts {rtt : Int64 × Int64} {samples : List Int64} (hlo : 0 < lo)
    (hhi : hi < 2 ^ 62) (h : RttWithin lo hi (rttValues rtt))
    (hsamples : ∀ new ∈ samples, lo ≤ new.toInt ∧ new.toInt ≤ hi) :
  ∃ rtt', updateRtts rtt samples = some rtt' ∧ RttWithin lo hi (rttValues rtt')
  := by
  induction samples generalizing rtt with
  | nil => exact ⟨rtt, rfl, h⟩
  | cons new samples ih =>
      obtain ⟨hnew, hsamples⟩ := List.forall_mem_cons.mp hsamples
      obtain ⟨rtt₁, hrtt₁, h₁⟩ := h.exists_updateRttLong hlo hhi hnew
      obtain ⟨rtt', hrtt', h'⟩ := ih h₁ hsamples
      refine ⟨rtt', ?_, h'⟩
      rw [updateRtts, List.foldlM_cons, hrtt₁]
      exact hrtt'

/-- However many samples between `lo` and `hi` are taken, no value overflows, and from the first
sample on the average lies between `lo` and `hi` and the deviation between `0` and
`hi - lo`. -/
theorem updateRtts_within_samples (hlo : 0 < lo) (hhi : hi < 2 ^ 62) (samples : List Int64)
    (hsamples : ∀ new ∈ samples, lo ≤ new.toInt ∧ new.toInt ≤ hi) :
  ∃ avg dev, updateRtts (0, 0) samples = some (avg, dev) ∧
    (samples ≠ [] →
      (lo ≤ avg.toInt ∧ avg.toInt ≤ hi) ∧ (0 ≤ dev.toInt ∧ dev.toInt ≤ hi - lo))
  := by
  cases samples with
  | nil => exact ⟨0, 0, rfl, fun hnil => absurd rfl hnil⟩
  | cons new samples =>
      obtain ⟨hnew, hsamples⟩ := List.forall_mem_cons.mp hsamples
      have hfirst : RttWithin lo hi (rttValues (new, 0)) := RttWithin.first hnew
      obtain ⟨rtt, hrtt, h⟩ := hfirst.exists_updateRtts hlo hhi hsamples
      exact ⟨rtt.1, rtt.2, hrtt, fun _ => ⟨h.avg, h.dev⟩⟩

/-- Two samples that are far apart: the average moves an eighth of the way. -/
theorem updateRtts_within_samples_two :
  (∃ avg dev, updateRtts (0, 0) [4000, 800] = some (avg, dev) ∧
    (([4000, 800] : List Int64) ≠ [] →
      (800 ≤ avg.toInt ∧ avg.toInt ≤ 4000) ∧ (0 ≤ dev.toInt ∧ dev.toInt ≤ 4000 - 800))) ∧
    updateRtts (0, 0) [4000, 800] = some (3600, 800)
  := by
  constructor
  · apply updateRtts_within_samples (by decide) (by decide)
    intro new hnew
    simp only [List.mem_cons, List.not_mem_nil, or_false] at hnew
    rcases hnew with rfl | rfl
    · decide
    · decide
  · decide

end Tangent
