import Mathlib.Data.List.Basic
import Mathlib.Data.Nat.ModEq
import Mathlib.Logic.Function.Basic

/-!
# Open addressing with short chains

A table of slots, each of them free or with a key and a value.  The chain of a key are the `c`
slots from its home on, around the end of the table.  If no key is in two slots, and every key is
in its chain, the table stands for a map: a key is found by a scan of its chain, a scan for the
key or a free slot tells where to put it, and a slot is cleared to remove its key.
-/

namespace Probing

variable {K V : Type*} [DecidableEq K]

/-- A slot is free, or it holds a key and a value. -/
abbrev Slot (K V : Type*) := Option (K × V)

/-- Whether the slot holds the key. -/
def holds (k : K) (e : Slot K V) : Bool :=
  e.any fun p => p.1 = k

theorem holds_iff {k : K} {e : Slot K V} :
  holds k e = true ↔ ∃ v, e = some (k, v)
  := by
  cases e with
  | none => simp [holds]
  | some p =>
      obtain ⟨k', v⟩ := p
      simp [holds]

/-! ### The map of a table -/

/-- The value in the first slot that holds the key. -/
def content : List (Slot K V) → K → Option V
  | [], _ => none
  | none :: t, k => content t k
  | some (k', v) :: t, k => if k' = k then some v else content t k

/-- No key is in two slots. -/
def Unique (t : List (Slot K V)) : Prop :=
  ∀ (i j : ℕ) (k : K) (v w : V), t[i]? = some (some (k, v)) → t[j]? = some (some (k, w)) → i = j

section Content

variable {t : List (Slot K V)} {e : Slot K V} {k k' : K} {v w : V} {idx : ℕ}

omit [DecidableEq K] in
theorem Unique.of_cons (h : Unique (e :: t)) :
  Unique t
  := by
  intro i j k v w hi hj
  have heq := h (i + 1) (j + 1) k v w (by simpa using hi) (by simpa using hj)
  omega

omit [DecidableEq K] in
/-- The key of the first slot is in no other. -/
theorem Unique.not_mem (h : Unique (some (k, v) :: t)) :
  some (k, w) ∉ t
  := by
  intro hw
  obtain ⟨j, hj⟩ := List.mem_iff_getElem?.mp hw
  have heq := h 0 (j + 1) k v w rfl (by simpa using hj)
  omega

theorem content_eq_none_iff :
  content t k = none ↔ ∀ v, some (k, v) ∉ t
  := by
  induction t with
  | nil => simp [content]
  | cons e t ih =>
      match e with
      | none => simpa [content] using ih
      | some (k', w) =>
          rw [content]
          split
          · rename_i heq
            subst heq
            simp only [reduceCtorEq, List.mem_cons, false_iff, not_forall, not_not]
            exact ⟨w, .inl rfl⟩
          · rename_i hne
            rw [ih]
            simp [Ne.symm hne]

theorem Unique.content_eq_some_iff (h : Unique t) :
  content t k = some v ↔ some (k, v) ∈ t
  := by
  induction t with
  | nil => simp [content]
  | cons e t ih =>
      match e with
      | none => simpa [content] using ih h.of_cons
      | some (k', w) =>
          rw [content]
          split
          · rename_i heq
            subst heq
            have hnot := h.not_mem (w := v)
            simp [hnot, eq_comm]
          · rename_i hne
            rw [ih h.of_cons]
            simp [Ne.symm hne]

omit [DecidableEq K] in
/-- What the slots hold after one of them has been written. -/
theorem mem_set_iff (hidx : idx < t.length) :
  some (k, v) ∈ t.set idx e ↔
    e = some (k, v) ∨ ∃ j, j ≠ idx ∧ t[j]? = some (some (k, v))
  := by
  rw [List.mem_iff_getElem?]
  constructor
  · rintro ⟨j, hj⟩
    by_cases heq : j = idx
    · subst heq
      rw [List.getElem?_set_self hidx, Option.some.injEq] at hj
      exact .inl hj
    · rw [List.getElem?_set_ne (Ne.symm heq)] at hj
      exact .inr ⟨j, heq, hj⟩
  · rintro (rfl | ⟨j, hne, hj⟩)
    · exact ⟨idx, List.getElem?_set_self hidx⟩
    · exact ⟨j, by rw [List.getElem?_set_ne (Ne.symm hne), hj]⟩

omit [DecidableEq K] in
/-- A slot may get a key that no other slot holds. -/
theorem Unique.set (h : Unique t) (hidx : idx < t.length)
    (hother : ∀ k v, e = some (k, v) → ∀ j w, t[j]? = some (some (k, w)) → j = idx) :
  Unique (t.set idx e)
  := by
  intro i j k v w hi hj
  by_cases hii : i = idx
  · subst hii
    rw [List.getElem?_set_self hidx, Option.some.injEq] at hi
    by_cases hjj : j = i
    · exact hjj.symm
    · rw [List.getElem?_set_ne (Ne.symm hjj)] at hj
      exact (hother k v hi j w hj).symm
  · rw [List.getElem?_set_ne (Ne.symm hii)] at hi
    by_cases hjj : j = idx
    · subst hjj
      rw [List.getElem?_set_self hidx, Option.some.injEq] at hj
      exact hother k w hj i v hi
    · rw [List.getElem?_set_ne (Ne.symm hjj)] at hj
      exact h i j k v w hi hj

/-- A slot that holds no other key gets the key. -/
theorem Unique.content_set (h : Unique t) (hidx : idx < t.length)
    (hown : ∀ p, t[idx]? = some (some p) → p.1 = k)
    (hother : ∀ j w, t[j]? = some (some (k, w)) → j = idx) :
  content (t.set idx (some (k, v))) = Function.update (content t) k (some v)
  := by
  have h' : Unique (t.set idx (some (k, v))) := by
    apply h.set hidx
    rintro k' v' heq
    cases heq
    exact hother
  funext k'
  apply Option.ext
  intro w
  rw [h'.content_eq_some_iff, mem_set_iff hidx]
  by_cases hk : k' = k
  · subst hk
    rw [Function.update_self]
    constructor
    · rintro (heq | ⟨j, hne, hj⟩)
      · cases heq
        rfl
      · exact absurd (hother j w hj) hne
    · intro heq
      cases heq
      exact .inl rfl
  · rw [Function.update_of_ne hk, h.content_eq_some_iff, List.mem_iff_getElem?]
    constructor
    · rintro (heq | ⟨j, -, hj⟩)
      · cases heq
        exact absurd rfl hk
      · exact ⟨j, hj⟩
    · rintro ⟨j, hj⟩
      refine .inr ⟨j, ?_, hj⟩
      rintro rfl
      exact hk (hown _ hj)

/-- A slot that holds the key is cleared. -/
theorem Unique.content_clear (h : Unique t) (hidx : t[idx]? = some (some (k, v))) :
  content (t.set idx none) = Function.update (content t) k none
  := by
  have hlt : idx < t.length := (List.getElem?_eq_some_iff.mp hidx).1
  have h' : Unique (t.set idx none) := h.set hlt (by simp)
  funext k'
  apply Option.ext
  intro w
  rw [h'.content_eq_some_iff, mem_set_iff hlt]
  by_cases hk : k' = k
  · subst hk
    simp only [Function.update_self, reduceCtorEq, false_or, iff_false]
    rintro ⟨j, hne, hj⟩
    exact hne (h j idx k' w v hj hidx)
  · rw [Function.update_of_ne hk, h.content_eq_some_iff, List.mem_iff_getElem?]
    constructor
    · rintro (heq | ⟨j, -, hj⟩)
      · cases heq
      · exact ⟨j, hj⟩
    · rintro ⟨j, hj⟩
      refine .inr ⟨j, ?_, hj⟩
      rintro rfl
      rw [hidx] at hj
      cases hj
      exact hk rfl

end Content

/-! ### Scanning -/

/-- The first of `c` slots from `curr` on, around the end of the table, that satisfies `p`. -/
def scan (p : Slot K V → Bool) (t : List (Slot K V)) : ℕ → ℕ → Option ℕ
  | 0, _ => none
  | c + 1, curr => if t[curr]?.any p then some curr else scan p t c ((curr + 1) % t.length)

section Scan

variable {t : List (Slot K V)} {p : Slot K V → Bool} {c curr idx : ℕ}

omit [DecidableEq K] in
theorem scan_eq_some (hcurr : curr < t.length) (h : scan p t c curr = some idx) :
  ∃ i < c, idx = (curr + i) % t.length ∧ t[idx]?.any p = true ∧
    ∀ j < i, t[(curr + j) % t.length]?.any p = false
  := by
  induction c generalizing curr with
  | zero => cases h
  | succ c ih =>
      rw [scan] at h
      split at h
      · rename_i hp
        cases h
        exact ⟨0, Nat.succ_pos c, by rw [Nat.add_zero, Nat.mod_eq_of_lt hcurr], hp, by simp⟩
      · rename_i hp
        have hnext : (curr + 1) % t.length < t.length := Nat.mod_lt _ (by omega)
        obtain ⟨i, hi, heq, hidx, hbefore⟩ := ih hnext h
        have hshift : ∀ j, ((curr + 1) % t.length + j) % t.length
            = (curr + (j + 1)) % t.length := by
          intro j
          rw [Nat.mod_add_mod]
          congr 1
          omega
        refine ⟨i + 1, by omega, by rw [heq, hshift], hidx, ?_⟩
        intro j hj
        cases j with
        | zero =>
            rw [Nat.add_zero, Nat.mod_eq_of_lt hcurr]
            simpa using hp
        | succ j =>
            rw [← hshift]
            exact hbefore j (by omega)

omit [DecidableEq K] in
theorem scan_eq_none (hcurr : curr < t.length) (h : scan p t c curr = none) :
  ∀ i < c, t[(curr + i) % t.length]?.any p = false
  := by
  induction c generalizing curr with
  | zero =>
      intro i hi
      omega
  | succ c ih =>
      rw [scan] at h
      split at h
      · cases h
      · rename_i hp
        have hnext : (curr + 1) % t.length < t.length := Nat.mod_lt _ (by omega)
        intro i hi
        cases i with
        | zero =>
            rw [Nat.add_zero, Nat.mod_eq_of_lt hcurr]
            simpa using hp
        | succ i =>
            have hrest := ih hnext h i (by omega)
            rw [Nat.mod_add_mod] at hrest
            rw [show curr + (i + 1) = curr + 1 + i by omega]
            exact hrest

omit [DecidableEq K] in
theorem scan_sat (h : scan p t c curr = some idx) :
  t[idx]?.any p = true
  := by
  induction c generalizing curr with
  | zero => cases h
  | succ c ih =>
      rw [scan] at h
      split at h
      · rename_i hp
        cases h
        exact hp
      · exact ih h

omit [DecidableEq K] in
/-- A scan for less finds what has been written where a scan has ended. -/
theorem scan_set {p' : Slot K V → Bool} {e : Slot K V} (hp : ∀ e, p' e = true → p e = true)
    (he : p' e = true) (h : scan p t c curr = some idx) :
  scan p' (t.set idx e) c curr = some idx
  := by
  induction c generalizing curr with
  | zero => cases h
  | succ c ih =>
      have hsat := scan_sat h
      have hlt : idx < t.length := by
        by_contra hge
        rw [List.getElem?_eq_none (by omega)] at hsat
        cases hsat
      rw [scan] at h ⊢
      split at h
      · cases h
        rw [List.getElem?_set_self hlt, if_pos (by simpa using he)]
      · rename_i hnot
        have hne : idx ≠ curr := by
          rintro rfl
          exact hnot hsat
        have hnot' : ¬ t[curr]?.any p' = true := by
          intro hany
          obtain ⟨e', he', hp'⟩ := (Option.any_eq_true _ _).mp hany
          exact hnot ((Option.any_eq_true _ _).mpr ⟨e', he', hp e' hp'⟩)
        rw [List.getElem?_set_ne hne, if_neg hnot', List.length_set]
        exact ih h

end Scan

/-! ### Chains -/

section Chains

variable (home : K → ℕ) (c : ℕ)

/-- Every key is in one slot of its chain. -/
structure Placed (t : List (Slot K V)) : Prop where
  fits : c ≤ t.length
  home_lt : ∀ k, home k < t.length
  unique : Unique t
  reach : ∀ (idx : ℕ) (k : K) (v : V), t[idx]? = some (some (k, v)) →
    ∃ i < c, idx = (home k + i) % t.length

/-- No slot of the chain of the key before one with the key is free. -/
def Gapless (t : List (Slot K V)) (k : K) : Prop :=
  ∀ i j v, i < j → j < c → t[(home k + i) % t.length]? = some none →
    t[(home k + j) % t.length]? ≠ some (some (k, v))

/-- The first slot of the chain that holds the key. -/
def seek (t : List (Slot K V)) (k : K) : Option ℕ :=
  scan (holds k) t c (home k)

/-- The first slot of the chain that is free or holds the key. -/
def place (t : List (Slot K V)) (k : K) : Option ℕ :=
  scan (fun e => e.isNone || holds k e) t c (home k)

variable {home c} {t : List (Slot K V)} {k k' : K} {v : V} {idx : ℕ}

omit [DecidableEq K] in
theorem Placed.replicate {n : ℕ} (fits : c ≤ n) (home_lt : ∀ k, home k < n) :
  Placed home c (List.replicate n (none : Slot K V))
  := by
  have hfree : ∀ (idx : ℕ) (k : K) (v : V),
      (List.replicate n (none : Slot K V))[idx]? ≠ some (some (k, v)) := by
    intro idx k v h
    have hmem := List.mem_of_getElem? h
    simp at hmem
  constructor
  · simpa using fits
  · simpa using home_lt
  · intro i j k v w hi
    exact absurd hi (hfree i k v)
  · intro idx k v hidx
    exact absurd hidx (hfree idx k v)

omit [DecidableEq K] in
theorem Gapless.replicate (n : ℕ) (k : K) :
  Gapless home c (List.replicate n (none : Slot K V)) k
  := by
  intro i j v _ _ _ h
  have hmem := List.mem_of_getElem? h
  simp at hmem

/-- A scan for a key finds the slot that holds it. -/
theorem Placed.seek_eq_some (h : Placed home c t) (hs : seek home c t k = some idx) :
  ∃ v, t[idx]? = some (some (k, v)) ∧ content t k = some v
  := by
  obtain ⟨i, -, -, hidx, -⟩ := scan_eq_some (h.home_lt k) hs
  obtain ⟨e, he, hholds⟩ := (Option.any_eq_true _ _).mp hidx
  obtain ⟨v, rfl⟩ := holds_iff.mp hholds
  exact ⟨v, he, h.unique.content_eq_some_iff.mpr (List.mem_of_getElem? he)⟩

/-- A scan for a key finds nothing only if the key is not in the table. -/
theorem Placed.seek_eq_none (h : Placed home c t) (hs : seek home c t k = none) :
  content t k = none
  := by
  apply content_eq_none_iff.mpr
  intro v hv
  obtain ⟨idx, hidx⟩ := List.mem_iff_getElem?.mp hv
  obtain ⟨i, hi, rfl⟩ := h.reach idx k v hidx
  have hnot := scan_eq_none (h.home_lt k) hs i hi
  rw [hidx] at hnot
  simp [holds] at hnot

/-- The slot a scan finds for a key is free or holds the key. -/
theorem Placed.place_eq_some (h : Placed home c t) (hs : place home c t k = some idx) :
  ∃ i < c, idx = (home k + i) % t.length ∧
    (t[idx]? = some none ∨ ∃ v, t[idx]? = some (some (k, v))) ∧
    ∀ j < i, t[(home k + j) % t.length]? ≠ some none ∧
      ∀ v, t[(home k + j) % t.length]? ≠ some (some (k, v))
  := by
  obtain ⟨i, hi, heq, hidx, hbefore⟩ := scan_eq_some (h.home_lt k) hs
  obtain ⟨e, he, hp⟩ := (Option.any_eq_true _ _).mp hidx
  refine ⟨i, hi, heq, ?_, ?_⟩
  · rcases Bool.or_eq_true_iff.mp hp with hfree | hholds
    · rw [Option.isNone_iff_eq_none] at hfree
      exact .inl (by rw [he, hfree])
    · obtain ⟨v, rfl⟩ := holds_iff.mp hholds
      exact .inr ⟨v, he⟩
  · intro j hj
    have hnot := hbefore j hj
    constructor
    · intro hfree
      rw [hfree] at hnot
      simp at hnot
    · intro v hv
      rw [hv] at hnot
      simp [holds] at hnot

/-- The key is put where a scan says, if it is not in a slot behind. -/
theorem Placed.put (h : Placed home c t) (hs : place home c t k = some idx)
    (hnew : t[idx]? = some none → content t k = none) (v : V) :
  Placed home c (t.set idx (some (k, v))) ∧
    content (t.set idx (some (k, v))) = Function.update (content t) k (some v)
  := by
  obtain ⟨i, hi, heq, hidx, -⟩ := h.place_eq_some hs
  have hlt : idx < t.length := by
    rw [heq]
    exact Nat.mod_lt _ (Nat.zero_lt_of_lt (h.home_lt k))
  have hown : ∀ p, t[idx]? = some (some p) → p.1 = k := by
    rintro p hp
    rcases hidx with hfree | ⟨w, hw⟩
    · rw [hfree] at hp
      cases hp
    · rw [hw] at hp
      cases hp
      rfl
  have hother : ∀ j w, t[j]? = some (some (k, w)) → j = idx := by
    intro j w hj
    rcases hidx with hfree | ⟨w', hw⟩
    · exact absurd (List.mem_of_getElem? hj) (content_eq_none_iff.mp (hnew hfree) w)
    · exact h.unique j idx k w w' hj hw
  refine ⟨⟨?_, ?_, ?_, ?_⟩, h.unique.content_set hlt hown hother⟩
  · rw [List.length_set]
    exact h.fits
  · rw [List.length_set]
    exact h.home_lt
  · apply h.unique.set hlt
    rintro k' v' heq
    cases heq
    exact hother
  · intro j k' v' hj
    rw [List.length_set]
    by_cases hjj : j = idx
    · subst hjj
      rw [List.getElem?_set_self hlt] at hj
      cases hj
      exact ⟨i, hi, heq⟩
    · rw [List.getElem?_set_ne (Ne.symm hjj)] at hj
      exact h.reach j k' v' hj

/-- A scan finds a key where it has been put. -/
theorem seek_put (hs : place home c t k = some idx) (v : V) :
  seek home c (t.set idx (some (k, v))) k = some idx
  := by
  apply scan_set _ _ hs
  · intro e he
    rw [he, Bool.or_true]
  · exact holds_iff.mpr ⟨v, rfl⟩

/-- A slot is cleared. -/
theorem Placed.clear (h : Placed home c t) (hidx : t[idx]? = some (some (k, v))) :
  Placed home c (t.set idx none) ∧
    content (t.set idx none) = Function.update (content t) k none
  := by
  have hlt : idx < t.length := (List.getElem?_eq_some_iff.mp hidx).1
  refine ⟨⟨?_, ?_, h.unique.set hlt (by simp), ?_⟩, h.unique.content_clear hidx⟩
  · rw [List.length_set]
    exact h.fits
  · rw [List.length_set]
    exact h.home_lt
  · intro j k' v' hj
    rw [List.length_set]
    by_cases hjj : j = idx
    · subst hjj
      rw [List.getElem?_set_self hlt] at hj
      cases hj
    · rw [List.getElem?_set_ne (Ne.symm hjj)] at hj
      exact h.reach j k' v' hj

/-! ### Tables without gaps -/

omit [DecidableEq K] in
/-- The slots of a chain are different. -/
theorem Placed.chain_inj {i j : ℕ} (h : Placed home c t) (hi : i < c) (hj : j < c)
    (heq : (home k + i) % t.length = (home k + j) % t.length) :
  i = j
  := by
  have hfits := h.fits
  have hmod : i % t.length = j % t.length := Nat.ModEq.add_left_cancel' (home k) heq
  rw [Nat.mod_eq_of_lt (by omega), Nat.mod_eq_of_lt (by omega)] at hmod
  exact hmod

/-- If no slot before a key is free, a scan that finds a free slot shows that the key is not in
the table. -/
theorem Placed.content_of_gapless (h : Placed home c t) (hgap : Gapless home c t k)
    (hs : place home c t k = some idx) (hfree : t[idx]? = some none) :
  content t k = none
  := by
  obtain ⟨i, hi, heq, hidx, hbefore⟩ := h.place_eq_some hs
  apply content_eq_none_iff.mpr
  intro v hv
  obtain ⟨idx', hidx'⟩ := List.mem_iff_getElem?.mp hv
  obtain ⟨j, hj, rfl⟩ := h.reach idx' k v hidx'
  subst heq
  rcases lt_trichotomy i j with hlt | rfl | hlt
  · exact hgap i j v hlt hj hfree hidx'
  · rw [hfree] at hidx'
    cases hidx'
  · exact (hbefore j hlt).2 v hidx'

/-- A key that is put makes no gaps. -/
theorem Placed.put_gapless (h : Placed home c t) (hs : place home c t k = some idx)
    (hnew : t[idx]? = some none → content t k = none) (v : V)
    (hgap : ∀ k, Gapless home c t k) (k' : K) :
  Gapless home c (t.set idx (some (k, v))) k'
  := by
  have h' := (h.put hs hnew v).1
  obtain ⟨i₀, hi₀, heq, -, hbefore⟩ := h.place_eq_some hs
  have hlt : idx < t.length := by
    rw [heq]
    exact Nat.mod_lt _ (Nat.zero_lt_of_lt (h.home_lt k))
  intro i j w hij hj hfree hw
  rw [List.length_set] at hfree hw
  -- A slot that is free now was free before.
  have hne : (home k' + i) % t.length ≠ idx := by
    intro hidx
    rw [hidx, List.getElem?_set_self hlt] at hfree
    cases hfree
  rw [List.getElem?_set_ne (Ne.symm hne)] at hfree
  by_cases hidx : (home k' + j) % t.length = idx
  · rw [hidx, List.getElem?_set_self hlt] at hw
    cases hw
    obtain rfl : j = i₀ := h.chain_inj hj hi₀ (hidx.trans heq)
    exact (hbefore i hij).1 hfree
  · rw [List.getElem?_set_ne (Ne.symm hidx)] at hw
    exact hgap k' i j w hij hj hfree hw

end Chains

end Probing
