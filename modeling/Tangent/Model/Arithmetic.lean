import Tangent.Model.Id

/-!
# Arithmetic on identifiers

The rest of the arithmetic of `util.c`: `chord_id_predecessor`, `id_add`, `id_subtract` and
`id_random_between`.  The loops of `id_add` and `id_subtract` go from the last byte to the
first; their result is a location of its own, which neither argument shares.
-/

namespace Tangent

/-! ### Subtracting a power of two -/

/-- The borrow loop of `chord_id_predecessor`: decrement the bytes at `i - 1`, `i - 2`, ...
up to the first one that is not zero before it is decremented. -/
def decrementFrom : ℕ → Bytes → Bytes
  | 0, l => l
  | i + 1, l =>
      if l.getD i 0 ≠ 0 then l.modify i (· - 1) else decrementFrom i (l.modify i (· - 1))

@[simp]
theorem length_decrementFrom (i : ℕ) (l : Bytes) :
  (decrementFrom i l).length = l.length
  := by
  induction i generalizing l with
  | zero => rfl
  | succ i ih =>
      rw [decrementFrom]
      split
      · simp
      · simp [ih]

/-- `chord_id_predecessor`: `id - 2 ^ n`.  The source asserts `n < CHORD_ID_BITS`. -/
def chordIdPredecessor (id : ChordID) (n : ℕ) : ChordID :=
  let start := chordIdBytes - 1 - n / 8
  let old := id.x.getD start 0
  let l := id.x.modify start (· - UInt8.ofNat (1 <<< (n % 8)))
  if old < l.getD start 0 then
    ⟨decrementFrom start l, by simp [l, id.length_x]⟩
  else
    ⟨l, by simp [l, id.length_x]⟩

/-! ### Sums and differences -/

/-- The loop of `id_add`: the bytes of the sum, and the carry. -/
def addLoop : Bytes → Bytes → Bytes × ℕ
  | a :: as, b :: bs =>
      let (res, carry) := addLoop as bs
      (UInt8.ofNat ((a.toNat + b.toNat + carry) &&& 0xff) :: res,
        (a.toNat + b.toNat + carry) >>> 8)
  | _, _ => ([], 0)

/-- The loop of `id_subtract`: the bytes of the difference, and the borrow.  The comparison is
one of `int`s, so a byte less the borrow may be negative. -/
def subtractLoop : Bytes → Bytes → Bytes × ℤ
  | a :: as, b :: bs =>
      let (res, borrow) := subtractLoop as bs
      if a.toNat - borrow < b.toNat then
        (UInt8.ofInt (256 + a.toNat - borrow - b.toNat) :: res, 1)
      else
        (UInt8.ofInt (a.toNat - borrow - b.toNat) :: res, 0)
  | _, _ => ([], 0)

theorem length_addLoop :
    ∀ {a b : Bytes}, a.length = b.length → (addLoop a b).1.length = a.length
  | [], [], _ => rfl
  | _ :: as, _ :: bs, h => by
      have hrest : as.length = bs.length := by simpa using h
      simp [addLoop, length_addLoop hrest]

theorem length_subtractLoop :
    ∀ {a b : Bytes}, a.length = b.length → (subtractLoop a b).1.length = a.length
  | [], [], _ => rfl
  | _ :: as, _ :: bs, h => by
      have hrest : as.length = bs.length := by simpa using h
      simp only [subtractLoop]
      split
      · simp [length_subtractLoop hrest]
      · simp [length_subtractLoop hrest]

/-- `id_add`. -/
def idAdd (a b : ChordID) : ChordID :=
  ⟨(addLoop a.x b.x).1, by rw [length_addLoop (a.length_x.trans b.length_x.symm), a.length_x]⟩

/-- `id_subtract`. -/
def idSubtract (a b : ChordID) : ChordID :=
  ⟨(subtractLoop a.x b.x).1,
    by rw [length_subtractLoop (a.length_x.trans b.length_x.symm), a.length_x]⟩

/-! ### Random identifiers -/

/-- `random_from`, with the value `random` draws. -/
def randomFrom (random : ℕ) (a : ChordID) : ChordID :=
  let m := random % 10 + 1
  ⟨a.x.map fun b => UInt8.ofNat (b.toNat * m / 11), by simp [a.length_x]⟩

/-- `id_random_between`, with the value `random` draws. -/
def idRandomBetween (random : ℕ) (a b : ChordID) : ChordID :=
  idAdd a (randomFrom random (idSubtract b a))

end Tangent
