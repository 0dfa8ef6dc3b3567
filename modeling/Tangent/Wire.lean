import Mathlib.Algebra.Order.Ring.Nat
import Tangent.Bytes

/-!
# The wire format of protocol buffers

A message is a sequence of fields.  A field begins with a tag, which holds its number and the kind
of its value: a number of variable length, eight or four bytes, or a string of bytes with its
length.  Numbers are written in groups of seven bits, the lowest first, with the highest bit of
each byte but the last set.  `encode` writes the shortest form, and `decode` reads it back.
-/

namespace Wire

/-! ### Numbers -/

/-- A number in groups of seven bits. -/
def varint (n : ℕ) : Bytes :=
  if n < 128 then [UInt8.ofNat n] else UInt8.ofNat (n % 128 + 128) :: varint (n / 128)
termination_by n

/-- Read a number of at most `k` bytes, and what follows it. -/
def readVarint : ℕ → Bytes → Option (ℕ × Bytes)
  | _, [] => none
  | 0, _ => none
  | k + 1, b :: bs =>
      if b.toNat < 128 then some (b.toNat, bs)
      else (readVarint k bs).map fun r => (b.toNat - 128 + 128 * r.1, r.2)

theorem varint_of_lt {n : ℕ} (h : n < 128) :
  varint n = [UInt8.ofNat n]
  := by
  rw [varint, if_pos h]

theorem varint_of_le {n : ℕ} (h : 128 ≤ n) :
  varint n = UInt8.ofNat (n % 128 + 128) :: varint (n / 128)
  := by
  rw [varint, if_neg (not_lt.mpr h)]

/-- A number takes at most `k` bytes if and only if it has at most `k` groups of seven bits. -/
theorem length_varint_le_iff {n k : ℕ} (hk : 0 < k) :
  (varint n).length ≤ k ↔ n < 128 ^ k
  := by
  induction k, hk using Nat.le_induction generalizing n with
  | base =>
      rcases lt_or_ge n 128 with hn | hn
      · simp [varint_of_lt hn, hn]
      · have hpos : 0 < (varint (n / 128)).length := by
          rw [varint]
          split <;> simp
        rw [varint_of_le hn, List.length_cons]
        simp only [pow_one]
        omega
  | succ k hk ih =>
      rcases lt_or_ge n 128 with hn | hn
      · have hpow : 128 ^ 1 ≤ 128 ^ (k + 1) := Nat.pow_le_pow_right (by decide) (by omega)
        rw [varint_of_lt hn, List.length_singleton]
        exact iff_of_true (by omega) (by omega)
      · rw [varint_of_le hn, List.length_cons, Nat.add_le_add_iff_right, ih,
          Nat.div_lt_iff_lt_mul (by decide), ← pow_succ]

theorem length_varint_pos (n : ℕ) :
  0 < (varint n).length
  := by
  rw [varint]
  split <;> simp

/-- With a length of three bytes, a string of `n` bytes and its length fit into `N` bytes if and
only if there is room for three more bytes than the string has. -/
theorem length_varint_add_le_iff {n N : ℕ} (hN : 16386 ≤ N) (hN' : N < 2097152) :
  (varint n).length + n ≤ N ↔ n + 3 ≤ N
  := by
  have h₂ : (varint n).length ≤ 2 ↔ n < 16384 := length_varint_le_iff (by decide)
  have h₃ : (varint n).length ≤ 3 ↔ n < 2097152 := length_varint_le_iff (by decide)
  omega

/-- A number below 128 is written as one byte. -/
theorem readVarint_of_lt {n k : ℕ} (hn : n < 128) (rest : Bytes) :
  readVarint (k + 1) (varint n ++ rest) = some (n, rest)
  := by
  have hb : (UInt8.ofNat n).toNat = n := by
    rw [UInt8.toNat_ofNat']
    omega
  rw [varint_of_lt hn, List.singleton_append, readVarint, hb, if_pos hn]

/-- What is written is read back. -/
theorem readVarint_varint {n k : ℕ} (hn : n < 128 ^ (k + 1)) (rest : Bytes) :
  readVarint (k + 1) (varint n ++ rest) = some (n, rest)
  := by
  induction k generalizing n with
  | zero => exact readVarint_of_lt (by simpa using hn) rest
  | succ k ih =>
      rcases lt_or_ge n 128 with hlt | hge
      · exact readVarint_of_lt hlt rest
      · have hb : (UInt8.ofNat (n % 128 + 128)).toNat = n % 128 + 128 := by
          rw [UInt8.toNat_ofNat']
          omega
        have hdiv : n / 128 < 128 ^ (k + 1) := by
          rw [Nat.div_lt_iff_lt_mul (by decide), ← pow_succ]
          exact hn
        rw [varint_of_le hge, List.cons_append, readVarint, hb, if_neg (by omega), ih hdiv]
        simp only [Option.map_some, Option.some.injEq, Prod.mk.injEq, and_true]
        omega

/-! ### Fields -/

/-- The value of a field. -/
inductive Value where
  | varint (n : ℕ)
  | fixed64 (b : Bytes)
  | bytes (b : Bytes)
  | fixed32 (b : Bytes)
  deriving DecidableEq

/-- The number of the kind of a value. -/
def Value.kind : Value → ℕ
  | .varint _ => 0
  | .fixed64 _ => 1
  | .bytes _ => 2
  | .fixed32 _ => 5

/-- A value as it is written behind its tag. -/
def Value.encode : Value → Bytes
  | .varint n => Wire.varint n
  | .fixed64 b => b
  | .bytes b => Wire.varint b.length ++ b
  | .fixed32 b => b

/-- The value can be written: numbers have at most ten groups of seven bits, lengths at most five,
and the others have the number of bytes their kind says. -/
def Value.Valid : Value → Prop
  | .varint n => n < 128 ^ 10
  | .fixed64 b => b.length = 8
  | .bytes b => b.length < 128 ^ 5
  | .fixed32 b => b.length = 4

/-- A field: its number and its value. -/
abbrev Field := ℕ × Value

/-- A field with its tag. -/
def encodeField (f : Field) : Bytes :=
  varint (8 * f.1 + f.2.kind) ++ f.2.encode

/-- The fields of a message, one after the other. -/
def encode (fs : List Field) : Bytes :=
  fs.flatMap encodeField

/-- Read `n` bytes, and what follows them. -/
def readBytes (n : ℕ) (b : Bytes) : Option (Bytes × Bytes) :=
  if b.length < n then none else some (b.take n, b.drop n)

/-- Read a value of the given kind, and what follows it. -/
def readValue (kind : ℕ) (b : Bytes) : Option (Value × Bytes) :=
  match kind with
  | 0 => (readVarint 10 b).map fun r => (.varint r.1, r.2)
  | 1 => (readBytes 8 b).map fun r => (.fixed64 r.1, r.2)
  | 2 => (readVarint 5 b).bind fun r => (readBytes r.1 r.2).map fun r => (.bytes r.1, r.2)
  | 5 => (readBytes 4 b).map fun r => (.fixed32 r.1, r.2)
  | _ => none

/-- Read at most `k` fields, until the bytes end. -/
def decodeFields : ℕ → Bytes → Option (List Field)
  | _, [] => some []
  | 0, _ => none
  | k + 1, b => do
      let (tag, b) ← readVarint 5 b
      let (value, b) ← readValue (tag % 8) b
      let fs ← decodeFields k b
      return (tag / 8, value) :: fs

/-- The fields of a message. -/
def decode (b : Bytes) : Option (List Field) :=
  decodeFields b.length b

/-- The field can be written: its number has at most 29 bits. -/
def ValidField (f : Field) : Prop :=
  f.1 < 2 ^ 29 ∧ f.2.Valid

theorem Value.kind_lt (v : Value) :
  v.kind < 8
  := by
  cases v <;> simp [kind]

theorem readBytes_append {n : ℕ} {b : Bytes} (h : b.length = n) (rest : Bytes) :
  readBytes n (b ++ rest) = some (b, rest)
  := by
  subst h
  simp [readBytes]

/-- The tag of a field with a small number is one byte. -/
theorem length_encode {fs : List Field} (h : ∀ f ∈ fs, f.1 < 16) :
  (encode fs).length = (fs.map fun f => f.2.encode.length + 1).sum
  := by
  have hfield : ∀ f ∈ fs, (encodeField f).length = f.2.encode.length + 1 := by
    intro f hf
    have hnum := h f hf
    have hkind := f.2.kind_lt
    rw [encodeField, varint_of_lt (by omega)]
    rfl
  rw [encode, List.length_flatMap, List.map_congr_left hfield]

/-- A value that was written is read back. -/
theorem readValue_encode {v : Value} (h : v.Valid) (rest : Bytes) :
  readValue v.kind (v.encode ++ rest) = some (v, rest)
  := by
  cases v with
  | varint n =>
      simp only [Value.kind, Value.encode, readValue, readVarint_varint h, Option.map_some]
  | fixed64 b =>
      simp only [Value.kind, Value.encode, readValue, readBytes_append h, Option.map_some]
  | bytes b =>
      simp only [Value.kind, Value.encode, readValue, List.append_assoc, readVarint_varint h,
        Option.bind_some, readBytes_append rfl, Option.map_some]
  | fixed32 b =>
      simp only [Value.kind, Value.encode, readValue, readBytes_append h, Option.map_some]

theorem encodeField_ne_nil (f : Field) :
  encodeField f ≠ []
  := by
  have hpos := length_varint_pos (8 * f.1 + f.2.kind)
  intro hnil
  rw [encodeField, List.append_eq_nil_iff] at hnil
  rw [hnil.1] at hpos
  simp at hpos

/-- Reading begins with the field that was written first. -/
theorem decodeFields_encode_cons {f : Field} {k : ℕ} (h : ValidField f) (b : Bytes) :
  decodeFields (k + 1) (encodeField f ++ b) = (decodeFields k b).map (f :: ·)
  := by
  obtain ⟨hnum, hvalid⟩ := h
  have hkind := f.2.kind_lt
  have htag : 8 * f.1 + f.2.kind < 128 ^ (4 + 1) := by
    norm_num at hnum ⊢
    omega
  have hmod : (8 * f.1 + f.2.kind) % 8 = f.2.kind := by
    omega
  have hdiv : (8 * f.1 + f.2.kind) / 8 = f.1 := by
    omega
  obtain ⟨c, cs, hc⟩ : ∃ c cs, encodeField f ++ b = c :: cs :=
    List.exists_cons_of_ne_nil (by simp [encodeField_ne_nil])
  have hstep : decodeFields (k + 1) (encodeField f ++ b) = do
      let (tag, b) ← readVarint 5 (encodeField f ++ b)
      let (value, b) ← readValue (tag % 8) b
      let fs ← decodeFields k b
      return (tag / 8, value) :: fs := by
    rw [hc, decodeFields]
    simp
  rw [hstep, encodeField, List.append_assoc, readVarint_varint htag]
  simp only [Option.bind_eq_bind, Option.bind_some, hmod, hdiv, readValue_encode hvalid]
  cases decodeFields k b <;> rfl

/-- A message that was written is read back. -/
theorem decodeFields_encode {fs : List Field} (h : ∀ f ∈ fs, ValidField f) {k : ℕ}
    (hk : fs.length ≤ k) :
  decodeFields k (encode fs) = some fs
  := by
  induction fs generalizing k with
  | nil => cases k <;> rfl
  | cons f fs ih =>
      obtain ⟨k, rfl⟩ : ∃ k', k = k' + 1 := Nat.exists_eq_add_of_le' (by simp at hk; omega)
      obtain ⟨hf, hfs⟩ := List.forall_mem_cons.mp h
      rw [encode, List.flatMap_cons, decodeFields_encode_cons hf]
      have hrest := ih hfs (k := k) (by simpa using hk)
      rw [encode] at hrest
      rw [hrest]
      rfl

theorem length_le_length_encode (fs : List Field) :
  fs.length ≤ (encode fs).length
  := by
  induction fs with
  | nil => simp
  | cons f fs ih =>
      have hpos := List.length_pos_iff.mpr (encodeField_ne_nil f)
      rw [encode] at ih ⊢
      rw [List.flatMap_cons, List.length_append, List.length_cons]
      omega

theorem decode_encode {fs : List Field} (h : ∀ f ∈ fs, ValidField f) :
  decode (encode fs) = some fs
  := decodeFields_encode h (length_le_length_encode fs)

/-! ### Messages -/

/-- The number of a value. -/
def Value.toNat : Value → Option ℕ
  | .varint n => some n
  | _ => none

/-- The eight bytes of a value. -/
def Value.toFixed64 : Value → Option Bytes
  | .fixed64 b => some b
  | _ => none

/-- The string of bytes of a value. -/
def Value.toBytes : Value → Option Bytes
  | .bytes b => some b
  | _ => none

@[simp]
theorem Value.toBytes_bytes (b : Bytes) :
  (Value.bytes b).toBytes = some b
  := rfl

section Message

variable {α : Type} (read : Value → Option α) (num : ℕ)

/-- The field `num` of a message: the last one if there are several, and none of them may be of
another kind. -/
def optional (fs : List Field) : Option (Option α) :=
  (fs.filter (·.1 = num)).foldlM (fun _ f => (read f.2).map some) none

/-- The field `num` of a message that must have it. -/
def required (fs : List Field) : Option α :=
  (optional read num fs).bind id

end Message

end Wire
