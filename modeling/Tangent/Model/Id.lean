import Mathlib.Data.List.Induction
import Tangent.Bytes
import Tangent.Clockwise.Arc

/-!
# Chord identifiers

The identifiers of `chord_api.h` and the operations of `util.c` on them that the finger
table and the maintenance code use.  An identifier is an array of `chordIdBytes` bytes,
most significant byte first; the comparisons are comparisons of byte strings.

`ChordID.arc a b` is the clockwise distance from `a` to `b` on the circle of `2 ^ 160`
identifiers, counted `1..2^160`, and `ChordID.gap a b` the one counted `0..2^160-1`.
`idIsBetween_iff` states that `idIsBetween x a b` compares the former.
-/

namespace Tangent

open Clockwise

/-- `CHORD_ID_BITS`. -/
abbrev chordIdBits : ℕ := 160

/-- `CHORD_ID_BYTES`. -/
abbrev chordIdBytes : ℕ := 20

/-- A `chordID`: an array of `chordIdBytes` bytes. -/
@[ext]
structure ChordID where
  x : Bytes
  length_x : x.length = chordIdBytes
  deriving DecidableEq

/-- The identifier all of whose bytes are zero. -/
instance : Zero ChordID :=
  ⟨⟨List.replicate chordIdBytes 0, by simp⟩⟩

/-- `id_equals`. -/
def idEquals (a b : ChordID) : Bool :=
  Bytes.memcmp a.x b.x = 0

/-- `is_less`. -/
def isLess (a b : ChordID) : Bool :=
  Bytes.memcmp a.x b.x < 0

/-- `id_is_between`: whether `x` lies in the open interval from `a` to `b`, where the
interval from `a` to itself is everything but `a`. -/
def idIsBetween (x a b : ChordID) : Bool :=
  if idEquals a b then
    !idEquals x a
  else if isLess a b then
    isLess a x && isLess x b
  else
    isLess a x || isLess x b

/-- The carry loop of `chord_id_successor`: increment the bytes at `i - 1`, `i - 2`, ...
until one of them does not wrap to zero. -/
def incrementFrom : ℕ → Bytes → Bytes
  | 0, l => l
  | i + 1, l =>
      let l := l.modify i (· + 1)
      if l.getD i 0 ≠ 0 then l else incrementFrom i l

@[simp]
theorem length_incrementFrom (i : ℕ) (l : Bytes) :
  (incrementFrom i l).length = l.length
  := by
  induction i generalizing l with
  | zero => rfl
  | succ i ih =>
      simp only [incrementFrom]
      split
      · simp
      · simp [ih]

/-- `chord_id_successor`: `id + 2 ^ n`.  The source asserts `n < CHORD_ID_BITS`. -/
def chordIdSuccessor (id : ChordID) (n : ℕ) : ChordID :=
  let start := chordIdBytes - 1 - n / 8
  let old := id.x.getD start 0
  let l := id.x.modify start (· + UInt8.ofNat (1 <<< (n % 8)))
  if l.getD start 0 < old then
    ⟨incrementFrom start l, by simp [l, id.length_x]⟩
  else
    ⟨l, by simp [l, id.length_x]⟩

/-! ### Identifiers as points of a circle -/

namespace ChordID

/-- The number an identifier denotes. -/
def toNat (a : ChordID) : ℕ :=
  Bytes.beNat a.x

theorem toNat_lt (a : ChordID) :
  a.toNat < 2 ^ chordIdBits
  := by
  have h := Bytes.beNat_lt a.x
  rw [a.length_x] at h
  apply lt_of_lt_of_eq h
  norm_num

theorem toNat_injective :
  Function.Injective toNat
  := by
  intro a b h
  apply ChordID.ext
  apply Bytes.beNat_inj (a.length_x.trans b.length_x.symm) h

/-- The clockwise distance from `a` to `b`, counted `1..2^160`. -/
def arc (a b : ChordID) : ℕ :=
  Clockwise.arc (2 ^ chordIdBits) a.toNat b.toNat

/-- The clockwise distance from `a` to `b`, counted `0..2^160-1`. -/
def gap (a b : ChordID) : ℕ :=
  Clockwise.gap (2 ^ chordIdBits) a.toNat b.toNat

variable {a b c x : ChordID}

theorem arc_pos (a b : ChordID) :
  0 < arc a b
  := Clockwise.arc_pos a.toNat_lt

theorem arc_le (a b : ChordID) :
  arc a b ≤ 2 ^ chordIdBits
  := Clockwise.arc_le a.toNat_lt b.toNat_lt

theorem arc_self (a : ChordID) :
  arc a a = 2 ^ chordIdBits
  := Clockwise.arc_self

theorem arc_inj :
  arc a b = arc a c ↔ b = c
  := by
  constructor
  · intro h
    apply toNat_injective
    apply Clockwise.arc_inj a.toNat_lt b.toNat_lt c.toNat_lt h
  · rintro rfl
    rfl

theorem arc_lt_iff_ne :
  arc a b < 2 ^ chordIdBits ↔ a ≠ b
  := by
  rw [arc, Clockwise.arc_lt_iff_ne a.toNat_lt b.toNat_lt]
  apply toNat_injective.ne_iff

theorem arc_lt_iff_of_lt {y : ChordID} (h : arc a x < arc a b) :
  arc x y < arc x b ↔ arc a x < arc a y ∧ arc a y < arc a b
  := Clockwise.arc_lt_iff_of_lt a.toNat_lt b.toNat_lt x.toNat_lt y.toNat_lt h

theorem arc_lt_of_lt (h : arc a x < arc a b) :
  arc x b < arc a b
  := Clockwise.arc_lt_of_lt a.toNat_lt b.toNat_lt x.toNat_lt h

theorem arc_le_of_le (hne : c ≠ a) (hbc : arc a b ≤ arc a c) (h : arc c x ≤ arc c a) :
  arc b x ≤ arc b a
  := Clockwise.arc_le_of_le a.toNat_lt b.toNat_lt c.toNat_lt x.toNat_lt
      (toNat_injective.ne hne) hbc h

theorem not_arc_le_of_arc_le (hab : a ≠ b) (h : arc a x ≤ arc a b) :
  ¬ arc b x ≤ arc b a
  := Clockwise.not_arc_le_of_arc_le a.toNat_lt b.toNat_lt (toNat_injective.ne hab) h

theorem gap_of_arc_le (h : arc a x ≤ arc a b) :
  gap x b = arc a b - arc a x
  := Clockwise.gap_of_arc_le a.toNat_lt b.toNat_lt x.toNat_lt h

theorem gap_of_arc_lt (h : arc a b < arc a x) :
  gap x b = 2 ^ chordIdBits + arc a b - arc a x
  := Clockwise.gap_of_arc_lt a.toNat_lt x.toNat_lt h

theorem gap_lt (a b : ChordID) :
  gap a b < 2 ^ chordIdBits
  := Clockwise.gap_lt a.toNat_lt b.toNat_lt

theorem gap_lt_of_not_arc_le (h : ¬ arc a x ≤ arc a b) :
  gap x a < gap x b
  := Clockwise.gap_lt_of_not_arc_le a.toNat_lt x.toNat_lt h

end ChordID

/-! ### The comparisons as comparisons of distances -/

@[simp]
theorem idEquals_iff {a b : ChordID} :
  idEquals a b = true ↔ a = b
  := by
  rw [idEquals, decide_eq_true_iff,
    Bytes.memcmp_eq_zero_iff (a.length_x.trans b.length_x.symm), ChordID.ext_iff]

theorem isLess_iff {a b : ChordID} :
  isLess a b = true ↔ a.toNat < b.toNat
  := by
  rw [isLess, decide_eq_true_iff, Bytes.memcmp_neg_iff (a.length_x.trans b.length_x.symm)]
  rfl

/-- `idIsBetween x a b` holds when, clockwise from `a`, the point `x` comes before `b`. -/
theorem idIsBetween_iff {x a b : ChordID} :
  idIsBetween x a b = true ↔ ChordID.arc a x < ChordID.arc a b
  := by
  have ha := a.toNat_lt
  have hx := x.toNat_lt
  have hb := b.toNat_lt
  by_cases hab : a = b
  · subst hab
    rw [ChordID.arc_self, ChordID.arc_lt_iff_ne, idIsBetween, if_pos (by simp),
      Bool.not_eq_true', Bool.eq_false_iff, ne_eq, idEquals_iff]
    apply ne_comm
  · have hne : a.toNat ≠ b.toNat := ChordID.toNat_injective.ne hab
    rw [idIsBetween, if_neg (by simpa using hab)]
    simp only [isLess_iff]
    unfold ChordID.arc arc
    split_ifs <;> simp [isLess_iff] <;> omega

/-- Clockwise from `a`, the point `x` comes at or after `b`. -/
theorem between_or_equals_left_iff {x a b : ChordID} (hba : b ≠ a) (hxa : x ≠ a) :
  (idIsBetween x b a || idEquals x b) = true ↔ ChordID.arc a b ≤ ChordID.arc a x
  := by
  rw [Bool.or_eq_true, idIsBetween_iff, idEquals_iff, ← ChordID.toNat_injective.eq_iff]
  apply arc_lt_or_eq_iff_le a.toNat_lt b.toNat_lt x.toNat_lt
  · exact ChordID.toNat_injective.ne hba
  · exact ChordID.toNat_injective.ne hxa

/-- For `b` before `c`, clockwise from `a`: `b` is `x` or lies between `x` and `c` if and only
if `x` comes at or before `b`, or at or after `c`. -/
theorem between_or_equals_iff_of_lt {x a b c : ChordID}
    (h : ChordID.arc a b < ChordID.arc a c) :
  (idIsBetween b x c || idEquals b x) = true ↔
    ChordID.arc a x ≤ ChordID.arc a b ∨ ChordID.arc a c ≤ ChordID.arc a x
  := by
  rw [Bool.or_eq_true, idIsBetween_iff, idEquals_iff, ← ChordID.toNat_injective.eq_iff]
  apply arc_lt_or_eq_iff_of_lt a.toNat_lt b.toNat_lt c.toNat_lt x.toNat_lt h

/-! ### Adding a power of two -/

/-- Changing the byte behind `p` leaves the others as they are. -/
theorem modify_length_append (p s : Bytes) (b : UInt8) (g : UInt8 → UInt8) :
  (p ++ b :: s).modify p.length g = p ++ g b :: s
  := by
  rw [List.modify_eq_take_cons_drop (by simp)]
  simp

theorem getD_length_append (p s : Bytes) (b : UInt8) :
  (p ++ b :: s).getD p.length 0 = b
  := by
  simp [List.getD]

/-- A byte that does not wrap to zero when it is incremented. -/
theorem toNat_add_one_of_ne {b : UInt8} (h : b + 1 ≠ 0) :
  (b + 1).toNat = b.toNat + 1
  := by
  have hb := b.toNat_lt
  have hne : (b + 1).toNat ≠ 0 := by
    intro h0
    exact h (UInt8.toNat_inj.mp (by simpa using h0))
  rw [UInt8.toNat_add] at *
  simp only [UInt8.toNat_one, Nat.reducePow] at *
  omega

/-- The carry loop adds one to the number the bytes before `s` denote. -/
theorem incrementFrom_append (p s : Bytes) :
  ∃ q, incrementFrom p.length (p ++ s) = q ++ s ∧ q.length = p.length ∧
    Bytes.beNat q = (Bytes.beNat p + 1) % 256 ^ p.length
  := by
  induction p using List.reverseRecOn generalizing s with
  | nil => exact ⟨[], rfl, rfl, by simp [Bytes.beNat]⟩
  | append_singleton p b ih =>
      rw [List.length_append, List.length_singleton, incrementFrom, List.append_assoc,
        List.singleton_append]
      simp only [modify_length_append, getD_length_append]
      split
      · rename_i hne
        refine ⟨p ++ [b + 1], by simp, by simp, ?_⟩
        have hlt := Bytes.beNat_lt (p ++ [b + 1])
        have hval : Bytes.beNat (p ++ [b + 1]) = Bytes.beNat (p ++ [b]) + 1 := by
          rw [Bytes.beNat_append, Bytes.beNat_append]
          simp [Bytes.beNat, toNat_add_one_of_ne hne, add_assoc]
        rw [hval] at hlt ⊢
        rw [Nat.mod_eq_of_lt]
        simpa using hlt
      · rename_i hzero
        rw [not_not] at hzero
        obtain ⟨q, hq, hlen, hval⟩ := ih ((b + 1) :: s)
        refine ⟨q ++ [b + 1], by simp [hq], by simp [hlen], ?_⟩
        have hb : b.toNat + 1 = 256 := by
          have hlt := b.toNat_lt
          have h0 := congrArg UInt8.toNat hzero
          rw [UInt8.toNat_add] at h0
          simp only [UInt8.toNat_one, Nat.reducePow, UInt8.toNat_zero] at h0
          omega
        rw [Bytes.beNat_append, Bytes.beNat_append, hval, hzero, pow_succ]
        simp only [Bytes.beNat, List.length_singleton, List.length_nil, pow_one, pow_zero,
          mul_one, add_zero, UInt8.toNat_zero]
        rw [add_assoc, hb, ← Nat.mul_mod_mul_right]
        ring_nf

/-- A byte to which a smaller number is added, and whether the sum wraps. -/
theorem toNat_add_ofNat (b : UInt8) {v : ℕ} (hv : 0 < v) (hv' : v < 256) :
  (b + UInt8.ofNat v < b ∧ (b + UInt8.ofNat v).toNat + 256 = b.toNat + v) ∨
    (¬ b + UInt8.ofNat v < b ∧ (b + UInt8.ofNat v).toNat = b.toNat + v)
  := by
  have hb := b.toNat_lt
  have hsum : (b + UInt8.ofNat v).toNat = (b.toNat + v) % 256 := by
    rw [UInt8.toNat_add, UInt8.toNat_ofNat_of_lt' hv']
  rw [UInt8.lt_iff_toNat_lt, hsum]
  omega

/-- The byte `chord_id_successor` starts with, and the bytes left and right of it. -/
theorem ChordID.exists_split (id : ChordID) {n : ℕ} (hn : n < chordIdBits) :
  ∃ p b s, id.x = p ++ b :: s ∧ p.length = chordIdBytes - 1 - n / 8 ∧ s.length = n / 8
  := by
  have hn' : n < 160 := hn
  have hlen : id.x.length = 20 := id.length_x
  have hlt : 19 - n / 8 < id.x.length := by
    omega
  refine ⟨id.x.take (19 - n / 8), id.x[19 - n / 8], id.x.drop (19 - n / 8 + 1), ?_, ?_, ?_⟩
  · rw [← List.drop_eq_getElem_cons hlt, List.take_append_drop]
  · rw [List.length_take, hlen]
    show min (19 - n / 8) 20 = 19 - n / 8
    omega
  · rw [List.length_drop, hlen]
    omega

theorem mul_add_mod_mul {A C x y : ℕ} (hy : y < C) :
  (x * C + y) % (A * C) = x % A * C + y
  := by
  rw [mul_comm A, Nat.mod_mul, Nat.mul_add_mod_of_lt hy, mul_comm x, Nat.mul_add_div (by omega),
    Nat.div_eq_of_lt hy, add_zero]
  ring

/-- The size of the circle, and the power of two that is added or subtracted, in terms of the
bytes left and right of the one the loops start with. -/
theorem two_pow_eq {p s : Bytes} {n : ℕ} (hn : n < chordIdBits)
    (hp : p.length = chordIdBytes - 1 - n / 8) (hs : s.length = n / 8) :
  2 ^ chordIdBits = 256 ^ p.length * (256 * 256 ^ s.length) ∧
    2 ^ n = 2 ^ (n % 8) * 256 ^ s.length
  := by
  have hn' : n < 160 := hn
  constructor
  · have hlen : p.length + (s.length + 1) = 20 := by
      rw [hp, hs]
      show 19 - n / 8 + (n / 8 + 1) = 20
      omega
    rw [← pow_succ', ← pow_add, hlen]
    norm_num
  · rw [hs, show (256 : ℕ) = 2 ^ 8 from rfl, ← pow_mul, ← pow_add, Nat.mod_add_div]

/-- The bit that is added or subtracted lies in one byte. -/
theorem two_pow_mod_lt (n : ℕ) :
  2 ^ (n % 8) < 256
  := by
  calc 2 ^ (n % 8) < 2 ^ 8 := Nat.pow_lt_pow_right (by decide) (Nat.mod_lt _ (by decide))
    _ = 256 := rfl

/-- `chord_id_successor` adds a power of two, modulo the size of the circle. -/
theorem toNat_chordIdSuccessor (id : ChordID) {n : ℕ} (hn : n < chordIdBits) :
  (chordIdSuccessor id n).toNat = (id.toNat + 2 ^ n) % 2 ^ chordIdBits
  := by
  obtain ⟨p, b, s, hx, hp, hs⟩ := id.exists_split hn
  obtain ⟨hcirc, hpow⟩ := two_pow_eq hn hp hs
  have hval : id.toNat + 2 ^ n
      = Bytes.beNat p * (256 * 256 ^ s.length) + (b.toNat + 2 ^ (n % 8)) * 256 ^ s.length
        + Bytes.beNat s := by
    rw [ChordID.toNat, hx, Bytes.beNat_append, List.length_cons, Bytes.beNat, hpow, pow_succ]
    ring
  rw [chordIdSuccessor]
  simp only [hx, ← hp, modify_length_append, getD_length_append, Nat.one_shiftLeft]
  obtain ⟨hwrap, hsum⟩ | ⟨hwrap, hsum⟩ :=
    toNat_add_ofNat b (Nat.two_pow_pos (n % 8)) (two_pow_mod_lt n)
  · obtain ⟨q, hq, hqlen, hqval⟩ := incrementFrom_append p ((b + UInt8.ofNat (2 ^ (n % 8))) :: s)
    have hrest := Bytes.beNat_lt ((b + UInt8.ofNat (2 ^ (n % 8))) :: s)
    rw [List.length_cons, pow_succ'] at hrest
    simp only [hwrap, if_true, hq]
    rw [hval, hcirc, ChordID.toNat, Bytes.beNat_append, hqval, List.length_cons, pow_succ',
      ← mul_add_mod_mul hrest, Bytes.beNat, ← hsum]
    ring_nf
  · have hrest := Bytes.beNat_lt ((b + UInt8.ofNat (2 ^ (n % 8))) :: s)
    rw [List.length_cons, pow_succ'] at hrest
    have hpre := Bytes.beNat_lt p
    simp only [hwrap, if_false]
    rw [hval, hcirc, ChordID.toNat, Bytes.beNat_append, List.length_cons, pow_succ',
      ← Nat.mod_eq_of_lt hpre, ← mul_add_mod_mul hrest, Bytes.beNat, hsum, Nat.mod_eq_of_lt hpre]
    ring_nf

/-- `chord_id_successor` goes a power of two clockwise. -/
theorem arc_chordIdSuccessor (id : ChordID) {n : ℕ} (hn : n < chordIdBits) :
  ChordID.arc id (chordIdSuccessor id n) = 2 ^ n
  := by
  rw [ChordID.arc, toNat_chordIdSuccessor id hn]
  apply arc_add_mod id.toNat_lt (Nat.two_pow_pos n)
  apply Nat.pow_le_pow_right (by decide) (le_of_lt hn)

theorem chordIdSuccessor_ne (id : ChordID) {n : ℕ} (hn : n < chordIdBits) :
  chordIdSuccessor id n ≠ id
  := by
  intro heq
  have harc := arc_chordIdSuccessor id hn
  rw [heq, ChordID.arc_self] at harc
  exact absurd harc (ne_of_gt (Nat.pow_lt_pow_right (by decide) hn))

end Tangent
