import Mathlib.Tactic.Common
import Mathlib.Tactic.Ring

/-!
# Byte strings

`beNat l` reads a byte string as a number, most significant byte first.  `memcmp l l'`
compares two strings byte by byte; on strings of one length its sign is the order of the
numbers they denote.
-/

/-- A string of bytes. -/
abbrev Bytes := List UInt8

namespace Bytes

/-- The number a byte string denotes, most significant byte first. -/
def beNat : Bytes → ℕ
  | [] => 0
  | b :: l => b.toNat * 256 ^ l.length + beNat l

/-- The difference of the first bytes at which two strings differ, and `0` if there are
none. -/
def memcmp : Bytes → Bytes → ℤ
  | b :: l, b' :: l' => if b = b' then memcmp l l' else (b.toNat : ℤ) - b'.toNat
  | _, _ => 0

theorem beNat_lt (l : Bytes) :
  beNat l < 256 ^ l.length
  := by
  induction l with
  | nil => simp [beNat]
  | cons b l ih =>
      have hb : b.toNat ≤ 255 := by
        have := b.toNat_lt
        omega
      calc beNat (b :: l) < b.toNat * 256 ^ l.length + 256 ^ l.length := by
            simpa only [beNat] using Nat.add_lt_add_left ih _
        _ = (b.toNat + 1) * 256 ^ l.length := by ring
        _ ≤ 256 * 256 ^ l.length := Nat.mul_le_mul_right _ (by omega)
        _ = 256 ^ (b :: l).length := by rw [List.length_cons, pow_succ, mul_comm]

theorem beNat_append (l l' : Bytes) :
  beNat (l ++ l') = beNat l * 256 ^ l'.length + beNat l'
  := by
  induction l with
  | nil => simp [beNat]
  | cons b l ih =>
      simp only [List.cons_append, beNat, ih, List.length_append, pow_add]
      ring

/-- A string whose first byte is smaller denotes a smaller number than any string of the
same length. -/
theorem beNat_lt_of_head_lt {b b' : UInt8} {l l' : Bytes}
    (hlen : l.length = l'.length) (h : b.toNat < b'.toNat) :
  beNat (b :: l) < beNat (b' :: l')
  := by
  have hl := beNat_lt l
  have hb : (b.toNat + 1) * 256 ^ l.length ≤ b'.toNat * 256 ^ l.length :=
    Nat.mul_le_mul_right _ h
  rw [Nat.add_mul, one_mul] at hb
  simp only [beNat, ← hlen]
  omega

/-- On strings of one length, `memcmp` is negative when the first denotes the smaller
number. -/
theorem memcmp_neg_iff :
    ∀ {l l' : Bytes}, l.length = l'.length → (memcmp l l' < 0 ↔ beNat l < beNat l')
  | [], [], _ => by simp [memcmp]
  | b :: l, b' :: l', hlen => by
      have hlen' : l.length = l'.length := by simpa using hlen
      rcases lt_trichotomy b.toNat b'.toNat with h | h | h
      · have hne : b ≠ b' := by
          rintro rfl
          omega
        simp only [memcmp, hne, if_false, beNat_lt_of_head_lt hlen' h, iff_true]
        omega
      · obtain rfl := UInt8.toNat_inj.mp h
        simp only [memcmp, if_true, memcmp_neg_iff hlen', beNat, hlen']
        omega
      · have hne : b ≠ b' := by
          rintro rfl
          omega
        have := beNat_lt_of_head_lt hlen'.symm h
        simp only [memcmp, hne, if_false]
        omega

/-- On strings of one length, `memcmp` is zero when they are equal. -/
theorem memcmp_eq_zero_iff :
    ∀ {l l' : Bytes}, l.length = l'.length → (memcmp l l' = 0 ↔ l = l')
  | [], [], _ => by simp [memcmp]
  | b :: l, b' :: l', hlen => by
      by_cases h : b = b'
      · subst h
        simpa [memcmp] using memcmp_eq_zero_iff (by simpa using hlen)
      · have hne : b.toNat ≠ b'.toNat := fun h' => h (UInt8.toNat_inj.mp h')
        simp only [memcmp, h, if_false, List.cons.injEq, false_and, iff_false]
        omega

/-- Strings of one length that denote one number are equal. -/
theorem beNat_inj :
    ∀ {l l' : Bytes}, l.length = l'.length → beNat l = beNat l' → l = l'
  | [], [], _, _ => rfl
  | b :: l, b' :: l', hlen, h => by
      have hlen' : l.length = l'.length := by simpa using hlen
      rcases lt_trichotomy b.toNat b'.toNat with hb | hb | hb
      · have := beNat_lt_of_head_lt hlen' hb
        omega
      · obtain rfl := UInt8.toNat_inj.mp hb
        simp only [beNat, hlen', Nat.add_left_cancel_iff] at h
        rw [beNat_inj hlen' h]
      · have := beNat_lt_of_head_lt hlen'.symm hb
        omega

end Bytes
