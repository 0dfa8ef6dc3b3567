import Mathlib.Data.List.Basic
import Mathlib.Data.List.Chain
import Mathlib.Order.Lattice
import Mathlib.Order.Defs.PartialOrder

/-!
# Lists in ascending order of a key

`AscendingBy key l` states that the keys of the elements of `l` strictly increase from the
front to the back.  In such a list the first element with a property is the one with the
least key, the last element with a property the one with the greatest key, and linking an
element behind the last one with a smaller key keeps the list ascending.
-/

/-- The keys of the elements of `l` strictly increase. -/
def AscendingBy {α β : Type*} [LT β] (key : α → β) (l : List α) : Prop :=
  l.Pairwise fun a b => key a < key b

/-- A list whose last element with the property `p` is `a` is a list up to `a`, followed
by elements without the property. -/
theorem List.exists_append_of_find?_reverse {α : Type*} {p : α → Bool} {l : List α} {a : α}
    (h : l.reverse.find? p = some a) :
  p a = true ∧ ∃ l₁ l₂, l = l₁ ++ a :: l₂ ∧ ∀ b ∈ l₂, p b = false
  := by
  obtain ⟨ha, as, bs, hl, hp⟩ := List.find?_eq_some_iff_append.mp h
  use ha, bs.reverse, as.reverse
  constructor
  · have h' := congrArg List.reverse hl
    simpa using h'
  · intro b hb
    simpa using hp b (List.mem_reverse.mp hb)

/-- Filtering a list keeps its first element with a property if and only if it keeps that
element. -/
theorem List.find?_filter_eq_iff {α : Type*} {p q : α → Bool} {l : List α} :
  (l.filter q).find? p = l.find? p ↔ ∀ a, l.find? p = some a → q a = true
  := by
  constructor
  · intro h a ha
    rw [ha] at h
    exact List.of_mem_filter (List.mem_of_find?_eq_some h)
  · intro h
    cases hl : l.find? p with
    | none =>
        rw [List.find?_eq_none] at hl ⊢
        intro a ha
        exact hl a (List.mem_filter.mp ha).1
    | some a =>
        obtain ⟨hp, as, bs, rfl, has⟩ := List.find?_eq_some_iff_append.mp hl
        rw [List.find?_eq_some_iff_append]
        refine ⟨hp, as.filter q, bs.filter q, ?_, ?_⟩
        · rw [List.filter_append, List.filter_cons_of_pos (h a hl)]
        · intro b hb
          exact has b (List.mem_filter.mp hb).1

namespace AscendingBy

variable {α β : Type*} [Preorder β] {key : α → β} {l l₁ l₂ : List α} {a b x : α}

theorem sublist (h : AscendingBy key l) (hs : l₁.Sublist l) :
  AscendingBy key l₁
  := List.Pairwise.sublist hs h

/-- Elements with one key are one element. -/
theorem eq_of_key_eq (h : AscendingBy key l) (ha : a ∈ l) (hb : b ∈ l)
    (hk : key a = key b) :
  a = b
  := by
  induction l with
  | nil => cases ha
  | cons c l ih =>
      obtain ⟨hc, hl⟩ := List.pairwise_cons.mp h
      rcases List.mem_cons.mp ha with rfl | ha'
      · rcases List.mem_cons.mp hb with rfl | hb'
        · rfl
        · exact absurd hk (ne_of_lt (hc b hb'))
      · rcases List.mem_cons.mp hb with rfl | hb'
        · exact absurd hk.symm (ne_of_lt (hc a ha'))
        · apply ih hl ha' hb'

/-- The last element with a property has the greatest key of those with the property. -/
theorem le_of_find?_reverse {p : α → Bool} (h : AscendingBy key l)
    (ha : l.reverse.find? p = some a) (hb : b ∈ l) (hp : p b = true) :
  key b ≤ key a
  := by
  obtain ⟨-, l₁, l₂, rfl, hl₂⟩ := List.exists_append_of_find?_reverse ha
  obtain ⟨-, -, h₁₂⟩ := List.pairwise_append.mp h
  rcases List.mem_append.mp hb with hb | hb
  · apply le_of_lt (h₁₂ b hb a List.mem_cons_self)
  · rcases List.mem_cons.mp hb with rfl | hb
    · apply le_refl
    · have := hl₂ b hb
      simp [hp] at this

/-- The first element with a property has the least key of those with the property. -/
theorem le_of_find? {p : α → Bool} (h : AscendingBy key l) (ha : l.find? p = some a) (hb : b ∈ l)
    (hp : p b = true) :
  key a ≤ key b
  := by
  obtain ⟨-, l₁, l₂, rfl, hl₁⟩ := List.find?_eq_some_iff_append.mp ha
  obtain ⟨-, h₂, -⟩ := List.pairwise_append.mp h
  rcases List.mem_append.mp hb with hb | hb
  · have hnot := hl₁ b hb
    simp [hp] at hnot
  · rcases List.mem_cons.mp hb with rfl | hb
    · apply le_refl
    · apply le_of_lt ((List.pairwise_cons.mp h₂).1 b hb)

/-- The search from the front finds the element with the least key. -/
theorem find?_eq_some_iff {β : Type*} [PartialOrder β] {key : α → β} {p : α → Bool}
    (h : AscendingBy key l) :
  l.find? p = some a ↔ a ∈ l ∧ p a = true ∧ ∀ b ∈ l, p b = true → key a ≤ key b
  := by
  constructor
  · intro ha
    refine ⟨List.mem_of_find?_eq_some ha, List.find?_some ha, ?_⟩
    intro b hb hp
    apply h.le_of_find? ha hb hp
  · rintro ⟨hmem, hpa, hle⟩
    cases hc : l.find? p with
    | none => exact absurd hpa (List.find?_eq_none.mp hc a hmem)
    | some c =>
        have hmemc := List.mem_of_find?_eq_some hc
        have hkey := le_antisymm (h.le_of_find? hc hmem hpa) (hle c hmemc (List.find?_some hc))
        rw [h.eq_of_key_eq hmemc hmem hkey]

/-- The search from the back finds the element with the greatest key. -/
theorem find?_reverse_eq_some_iff {β : Type*} [PartialOrder β] {key : α → β} {p : α → Bool}
    (h : AscendingBy key l) :
  l.reverse.find? p = some a ↔ a ∈ l ∧ p a = true ∧ ∀ b ∈ l, p b = true → key b ≤ key a
  := by
  constructor
  · intro ha
    refine ⟨List.mem_reverse.mp (List.mem_of_find?_eq_some ha), List.find?_some ha, ?_⟩
    intro b hb hp
    apply h.le_of_find?_reverse ha hb hp
  · rintro ⟨hmem, hpa, hle⟩
    cases hc : l.reverse.find? p with
    | none => exact absurd hpa (List.find?_eq_none.mp hc a (List.mem_reverse.mpr hmem))
    | some c =>
        have hmemc := List.mem_reverse.mp (List.mem_of_find?_eq_some hc)
        have hkey :=
          le_antisymm (hle c hmemc (List.find?_some hc)) (h.le_of_find?_reverse hc hmem hpa)
        rw [h.eq_of_key_eq hmemc hmem hkey]

/-- A threshold splits an ascending list in the elements below it and the elements at or above
it. -/
theorem exists_append_of_le {β : Type*} [LinearOrder β] {key : α → β} (h : AscendingBy key l)
    (x : β) :
  ∃ l₁ l₂, l = l₁ ++ l₂ ∧ (∀ a ∈ l₁, key a < x) ∧ ∀ b ∈ l₂, x ≤ key b
  := by
  induction l with
  | nil => exact ⟨[], [], rfl, by simp, by simp⟩
  | cons a l ih =>
      obtain ⟨ha, hl⟩ := List.pairwise_cons.mp h
      rcases lt_or_ge (key a) x with hlt | hge
      · obtain ⟨l₁, l₂, rfl, h₁, h₂⟩ := ih hl
        exact ⟨a :: l₁, l₂, rfl, List.forall_mem_cons.mpr ⟨hlt, h₁⟩, h₂⟩
      · refine ⟨[], a :: l, rfl, by simp, List.forall_mem_cons.mpr ⟨hge, ?_⟩⟩
        intro b hb
        apply le_trans hge (le_of_lt (ha b hb))

/-- The last element has the greatest key. -/
theorem le_of_mem_append_singleton (h : AscendingBy key (l ++ [b])) (ha : a ∈ l ++ [b]) :
  key a ≤ key b
  := by
  obtain ⟨-, -, hl⟩ := List.pairwise_append.mp h
  rcases List.mem_append.mp ha with ha | ha
  · apply le_of_lt (hl a ha b List.mem_cons_self)
  · rw [List.mem_singleton.mp ha]

/-- A threshold between the first key and some other is the key of an element, or lies between
two neighbours. -/
theorem hit_or_between {β : Type*} [LinearOrder β] {key : α → β} (h : AscendingBy key (a :: l))
    {y : β} (ha : key a ≤ y) (hb : b ∈ l) (hy : y ≤ key b) :
  (∃ g ∈ a :: l, key g = y) ∨
    ∃ lo g hi, l = lo ++ g :: hi ∧ key a < y ∧ (∀ c ∈ lo, key c < y) ∧ y < key g
  := by
  by_cases hhit : ∃ g ∈ a :: l, key g = y
  · exact .inl hhit
  have hne : ∀ g ∈ a :: l, key g ≠ y := by
    intro g hg hkey
    exact hhit ⟨g, hg, hkey⟩
  obtain ⟨lo, up, rfl, hlo, hup⟩ := exists_append_of_le (List.pairwise_cons.mp h).2 y
  obtain ⟨g, hi, rfl⟩ : ∃ g hi, up = g :: hi := by
    apply List.exists_cons_of_ne_nil
    rintro rfl
    rw [List.append_nil] at hb
    exact absurd (hlo b hb) (not_lt.mpr hy)
  refine .inr ⟨lo, g, hi, rfl, ?_, hlo, ?_⟩
  · exact lt_of_le_of_ne ha (hne a List.mem_cons_self)
  · exact lt_of_le_of_ne (hup g List.mem_cons_self) (hne g (by simp)).symm

/-- No threshold up to the first key lies between two neighbours. -/
theorem isChain_of_le {y : β} (h : AscendingBy key (a :: l)) (hy : y ≤ key a) :
  (a :: l).IsChain fun b c => y ≤ key b ∨ key c ≤ y
  := by
  rw [List.isChain_iff_forall_rel_of_append_cons_cons]
  intro b c l₁ l₂ heq
  left
  have hb : b ∈ a :: l := by
    simp [heq]
  rcases List.mem_cons.mp hb with rfl | hb
  · exact hy
  · exact le_of_lt (lt_of_le_of_lt hy ((List.pairwise_cons.mp h).1 b hb))

/-- Between two neighbours there is no element: each element is at or before the first of them,
or at or after the second. -/
theorem isChain_of_mem (h : AscendingBy key l) (hx : x ∈ l) :
  l.IsChain fun a b => key x ≤ key a ∨ key b ≤ key x
  := by
  rw [List.isChain_iff_forall_rel_of_append_cons_cons]
  rintro a b l₁ l₂ rfl
  obtain ⟨-, h₂, h₁₂⟩ := List.pairwise_append.mp h
  obtain ⟨-, h₃⟩ := List.pairwise_cons.mp h₂
  rcases List.mem_append.mp hx with hx | hx
  · left
    apply le_of_lt (h₁₂ x hx a List.mem_cons_self)
  · rcases List.mem_cons.mp hx with rfl | hx
    · left
      apply le_refl
    · right
      rcases List.mem_cons.mp hx with rfl | hx
      · apply le_refl
      · apply le_of_lt ((List.pairwise_cons.mp h₃).1 x hx)

/-- An element with a key between those of two parts of an ascending list fits between the
parts. -/
theorem insert (h : AscendingBy key (l₁ ++ l₂)) (h₁ : ∀ a ∈ l₁, key a < key x)
    (h₂ : ∀ b ∈ l₂, key x < key b) :
  AscendingBy key (l₁ ++ x :: l₂)
  := by
  obtain ⟨hl₁, hl₂, hl⟩ := List.pairwise_append.mp h
  apply List.pairwise_append.mpr
  refine ⟨hl₁, List.pairwise_cons.mpr ⟨h₂, hl₂⟩, ?_⟩
  intro a ha b hb
  rcases List.mem_cons.mp hb with rfl | hb
  · apply h₁ a ha
  · apply hl a ha b hb

/-- An element gives way to one with the same key. -/
theorem replace (h : AscendingBy key (l₁ ++ a :: l₂)) (hb : key b = key a) :
  AscendingBy key (l₁ ++ b :: l₂)
  := by
  obtain ⟨-, h₂, h₁₂⟩ := List.pairwise_append.mp h
  apply insert
  · apply h.sublist
    simp
  · intro c hc
    rw [hb]
    apply h₁₂ c hc a List.mem_cons_self
  · rw [hb]
    apply (List.pairwise_cons.mp h₂).1

end AscendingBy
