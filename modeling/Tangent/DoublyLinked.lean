import Mathlib.Data.List.Nodup
import Mathlib.Logic.Function.Basic

/-!
# Doubly linked lists

Memory is a map from addresses to cells, each with a value and the addresses of the cells behind
it and before it.  A list in memory is given by the addresses of its first and its last cell.  It
is a pair of chains, one for each direction, and it represents a list of values, each with its
address, if one chain runs through that list and the other through its reverse
(`Store.Represents`).

Each direction is dealt with alone: `Chain.Holds.follow` replaces what comes behind a part of a
chain, and linking in a cell and taking one out are two instances of it in each direction
(`Store.Represents.link`, `Store.Represents.unlink`).
-/

namespace DoublyLinked

variable {A V : Type*}

/-- The address of the first cell of a list. -/
def first (l : List (A × V)) : Option A :=
  l.head?.map Prod.fst

/-- The address of the last cell of a list. -/
def last (l : List (A × V)) : Option A :=
  l.getLast?.map Prod.fst

@[simp]
theorem first_nil :
  first ([] : List (A × V)) = none
  := rfl

@[simp]
theorem first_cons (x : A × V) (l : List (A × V)) :
  first (x :: l) = some x.1
  := rfl

@[simp]
theorem last_concat (l : List (A × V)) (x : A × V) :
  last (l ++ [x]) = some x.1
  := by
  simp [last]

@[simp]
theorem first_reverse (l : List (A × V)) :
  first l.reverse = last l
  := by
  simp [first, last]

@[simp]
theorem last_reverse (l : List (A × V)) :
  last l.reverse = first l
  := by
  simp [first, last]

theorem exists_mem_of_first_eq {l : List (A × V)} {a : A} (h : first l = some a) :
  ∃ v, (a, v) ∈ l
  := by
  obtain ⟨x, hx, rfl⟩ := Option.map_eq_some_iff.mp h
  exact ⟨x.2, List.mem_of_mem_head? hx⟩

theorem exists_mem_of_last_eq {l : List (A × V)} {a : A} (h : last l = some a) :
  ∃ v, (a, v) ∈ l
  := by
  obtain ⟨x, hx, rfl⟩ := Option.map_eq_some_iff.mp h
  exact ⟨x.2, List.mem_of_getLast? hx⟩

/-! ### Chains -/

/-- What one direction shows of the cell at an address: its value, and where to go next. -/
abbrev Links (A V : Type*) := A → Option (V × Option A)

/-- From `p`, the links lead past the cells of a list to `q`. -/
inductive Path (m : Links A V) : Option A → List (A × V) → Option A → Prop where
  | nil (p : Option A) : Path m p [] p
  | cons {a : A} {v : V} {p q : Option A} {l : List (A × V)}
      (cell : m a = some (v, p)) (rest : Path m p l q) : Path m (some a) ((a, v) :: l) q

variable {m m' : Links A V} {p q : Option A} {l l' l₁ l₂ : List (A × V)} {a x : A} {v : V}

theorem path_append :
  Path m p (l₁ ++ l₂) q ↔ ∃ r, Path m p l₁ r ∧ Path m r l₂ q
  := by
  induction l₁ generalizing p with
  | nil =>
      constructor
      · intro h
        exact ⟨p, .nil p, h⟩
      · rintro ⟨r, ⟨⟩, h⟩
        exact h
  | cons x l₁ ih =>
      constructor
      · intro h
        cases h with
        | cons cell rest =>
            obtain ⟨r, h₁, h₂⟩ := ih.mp rest
            exact ⟨r, .cons cell h₁, h₂⟩
      · rintro ⟨r, h₁, h₂⟩
        cases h₁ with
        | cons cell rest => exact .cons cell (ih.mpr ⟨r, rest, h₂⟩)

/-- A path that ends starts at its first cell. -/
theorem Path.start_eq (h : Path m p l none) :
  p = first l
  := by
  cases h with
  | nil => rfl
  | cons cell rest => rfl

/-- A path that ends passes what its start and the links determine. -/
theorem Path.unique (h : Path m p l none) (h' : Path m p l' none) :
  l = l'
  := by
  induction l generalizing p l' with
  | nil =>
      cases h
      cases h'
      rfl
  | cons x l ih =>
      cases h with
      | cons cell rest =>
          cases h' with
          | cons cell' rest' =>
              rw [cell] at cell'
              cases cell'
              rw [ih rest rest']

/-- A path that ends passes no cell twice. -/
theorem Path.nodup (h : Path m p l none) :
  (l.map Prod.fst).Nodup
  := by
  induction l generalizing p with
  | nil => exact List.nodup_nil
  | cons x l ih =>
      cases h with
      | cons cell rest =>
          rename_i a v r
          refine List.nodup_cons.mpr ⟨?_, ih rest⟩
          -- From a second visit on, the path would have to pass the same cells again.
          intro hmem
          obtain ⟨⟨b, w⟩, hb, rfl⟩ := List.mem_map.mp hmem
          obtain ⟨l₁, l₂, rfl⟩ := List.append_of_mem hb
          obtain ⟨s, -, h₂⟩ := path_append.mp rest
          obtain rfl := h₂.start_eq
          have heq := Path.unique (.cons cell rest) h₂
          have hlen := congrArg List.length heq
          simp only [List.length_cons, List.length_append] at hlen
          omega

/-- A path depends on the cells it passes. -/
theorem Path.congr (h : Path m p l q) (hm : ∀ x ∈ l, m' x.1 = m x.1) :
  Path m' p l q
  := by
  induction h with
  | nil p => exact .nil p
  | cons cell rest ih =>
      apply Path.cons
      · rw [hm _ List.mem_cons_self, cell]
      · apply ih fun x hx => hm x (List.mem_cons_of_mem _ hx)

/-- A change of the value of one cell. -/
theorem Path.change {w : V} (h : Path m p (l₁ ++ (a, v) :: l₂) none)
    (hothers : ∀ b, b ≠ a → m' b = m b) (hm : m' a = (m a).map fun c => (w, c.2)) :
  Path m' p (l₁ ++ (a, w) :: l₂) none
  := by
  have hnodup := h.nodup
  rw [List.map_append, List.map_cons, List.nodup_append, List.nodup_cons] at hnodup
  obtain ⟨-, ⟨ha, -⟩, hdisj⟩ := hnodup
  obtain ⟨r, h₁, h₂⟩ := path_append.mp h
  cases h₂ with
  | cons cell rest =>
      rw [path_append]
      refine ⟨some a, h₁.congr ?_, .cons (by rw [hm, cell]; rfl) (rest.congr ?_)⟩
      · intro y hy
        apply hothers
        apply hdisj y.1 (List.mem_map_of_mem hy) a List.mem_cons_self
      · intro y hy
        apply hothers
        intro hya
        exact ha (List.mem_map.mpr ⟨y, hy, hya⟩)

/-- The links in one direction, and the address at which they start. -/
@[ext]
structure Chain (A V : Type*) where
  start : Option A
  links : Links A V

/-- The chain runs through the cells of a list and ends. -/
def Chain.Holds (c : Chain A V) (l : List (A × V)) : Prop :=
  Path c.links c.start l none

section Follow

variable [DecidableEq A] {c : Chain A V}

/-- Let `q` come behind the cell at an address; without one, let the chain start at `q`. -/
def Chain.follow (c : Chain A V) : Option A → Option A → Chain A V
  | none, q => { c with start := q }
  | some a, q =>
      { c with links := Function.update c.links a ((c.links a).map fun cell => (cell.1, q)) }

/-- What comes behind the first cells of a chain can be replaced by a path that avoids them. -/
theorem Chain.Holds.follow (h : c.Holds (l₁ ++ l₂)) (hq : Path c.links q l' none)
    (hdisj : ∀ x ∈ l₁, ∀ y ∈ l', x.1 ≠ y.1) :
  (c.follow (last l₁) q).Holds (l₁ ++ l')
  := by
  have hnodup := h.nodup
  obtain ⟨r, h₁, -⟩ := path_append.mp h
  rcases List.eq_nil_or_concat' l₁ with rfl | ⟨l₀, ⟨a, v⟩, rfl⟩
  · exact hq
  · obtain ⟨s, h₀, ha⟩ := path_append.mp h₁
    cases ha with
    | cons cell rest =>
        rw [last_concat]
        have hne : ∀ y ∈ l₀, y.1 ≠ a := by
          rintro y hy rfl
          simp only [List.map_append, List.append_assoc, List.nodup_append] at hnodup
          apply hnodup.2.2 y.1 (List.mem_map_of_mem hy) y.1 _ rfl
          simp
        have hcell : (c.follow (some a) q).links a = some (v, q) := by
          simp [Chain.follow, cell]
        have hothers : ∀ b, b ≠ a → (c.follow (some a) q).links b = c.links b := by
          intro b hb
          simp [Chain.follow, hb]
        rw [List.append_assoc, Chain.Holds, path_append]
        refine ⟨some a, h₀.congr fun y hy => hothers y.1 (hne y hy), ?_⟩
        apply Path.cons hcell
        apply hq.congr
        intro y hy
        apply hothers y.1
        apply (hdisj (a, v) (by simp) y hy).symm

end Follow

/-! ### Cells with links both ways -/

/-- A cell of memory: a value, and the addresses of the cells behind it and before it. -/
structure Cell (A V : Type*) where
  val : V
  next : Option A
  prev : Option A
  deriving DecidableEq

/-- Memory, and the addresses of the first and the last cell of a list. -/
structure Store (A V : Type*) where
  head : Option A
  tail : Option A
  heap : A → Option (Cell A V)

namespace Store

/-- The chain from an address along the links of one direction. -/
def chain (s : Store A V) (p : Option A) (link : Cell A V → Option A) : Chain A V :=
  ⟨p, fun a => (s.heap a).map fun c => (c.val, link c)⟩

/-- The chain from the first cell on. -/
def forward (s : Store A V) : Chain A V :=
  ⟨s.head, fun a => (s.heap a).map fun c => (c.val, c.next)⟩

/-- The chain from the last cell back. -/
def backward (s : Store A V) : Chain A V :=
  ⟨s.tail, fun a => (s.heap a).map fun c => (c.val, c.prev)⟩

/-- Both chains run through a list, one of them in reverse. -/
structure Represents (s : Store A V) (l : List (A × V)) : Prop where
  forward : s.forward.Holds l
  backward : s.backward.Holds l.reverse

variable {s : Store A V}

theorem Represents.head_eq (h : s.Represents l) :
  s.head = first l
  := h.forward.start_eq

theorem Represents.tail_eq (h : s.Represents l) :
  s.tail = last l
  := by
  rw [← first_reverse]
  exact h.backward.start_eq

theorem Represents.nodup (h : s.Represents l) :
  (l.map Prod.fst).Nodup
  := h.forward.nodup

/-- A store represents no two lists. -/
theorem Represents.unique (h : s.Represents l) (h' : s.Represents l') :
  l = l'
  := Path.unique h.forward h'.forward

/-- The cell of an entry holds its value and the addresses of its neighbours. -/
theorem Represents.cell_eq (h : s.Represents (l₁ ++ (a, v) :: l₂)) :
  s.heap a = some ⟨v, first l₂, last l₁⟩
  := by
  have hb := h.backward
  rw [List.reverse_append, List.reverse_cons, List.append_assoc, List.singleton_append] at hb
  obtain ⟨r, -, hf⟩ := path_append.mp h.forward
  obtain ⟨r', -, hb⟩ := path_append.mp hb
  cases hf with
  | cons cell rest =>
      cases hb with
      | cons cell' rest' =>
          obtain ⟨⟨w, n, b⟩, hc, heq⟩ := Option.map_eq_some_iff.mp cell
          obtain ⟨c', hc', heq'⟩ := Option.map_eq_some_iff.mp cell'
          rw [hc] at hc'
          cases hc'
          cases heq
          cases heq'
          have hnext := rest.start_eq
          have hprev := rest'.start_eq
          rw [first_reverse] at hprev
          rw [← hnext, ← hprev, hc]

theorem Represents.isSome_of_mem (h : s.Represents l) (ha : (a, v) ∈ l) :
  (s.heap a).isSome
  := by
  obtain ⟨l₁, l₂, rfl⟩ := List.append_of_mem ha
  simp [h.cell_eq]

/-- Of two parts of a list, neither has an address of the other. -/
theorem Represents.disjoint (h : s.Represents (l₁ ++ l₂)) {x y : A × V} (hx : x ∈ l₁)
    (hy : y ∈ l₂) :
  x.1 ≠ y.1
  := by
  have hnodup := h.nodup
  rw [List.map_append, List.nodup_append] at hnodup
  apply hnodup.2.2 x.1 (List.mem_map_of_mem hx) y.1 (List.mem_map_of_mem hy)

/-- No other entry has the address of an entry. -/
theorem Represents.ne_of_mem (h : s.Represents (l₁ ++ (a, v) :: l₂)) {x : A × V}
    (hx : x ∈ l₁ ++ l₂) :
  x.1 ≠ a
  := by
  rcases List.mem_append.mp hx with hx | hx
  · apply h.disjoint hx List.mem_cons_self
  · rw [List.append_cons] at h
    apply (h.disjoint (List.mem_append_right _ List.mem_cons_self) hx).symm

/-- An entry is the first if nothing is before it. -/
theorem Represents.head_eq_iff (h : s.Represents (l₁ ++ (a, v) :: l₂)) :
  s.head = some a ↔ l₁ = []
  := by
  rw [h.head_eq]
  cases l₁ with
  | nil => simp
  | cons x l₁ => simp [h.disjoint (x := x) List.mem_cons_self List.mem_cons_self]

/-- An entry is the last if nothing is behind it. -/
theorem Represents.tail_eq_iff (h : s.Represents (l₁ ++ (a, v) :: l₂)) :
  s.tail = some a ↔ l₂ = []
  := by
  rw [h.tail_eq]
  rcases List.eq_nil_or_concat' l₂ with rfl | ⟨l₀, y, rfl⟩
  · simp
  · rw [← List.cons_append, ← List.append_assoc] at h ⊢
    have hne := h.disjoint (x := (a, v)) (y := y) (by simp) List.mem_cons_self
    rw [last_concat]
    simp [hne.symm]

/-- A list depends on the cells of its entries. -/
theorem Represents.congr {s' : Store A V} (h : s.Represents l) (hhead : s'.head = s.head)
    (htail : s'.tail = s.tail) (hheap : ∀ x ∈ l, s'.heap x.1 = s.heap x.1) :
  s'.Represents l
  := by
  constructor
  · rw [Chain.Holds, Store.forward, hhead]
    apply h.forward.congr
    intro x hx
    simp [Store.forward, hheap x hx]
  · rw [Chain.Holds, Store.backward, htail]
    apply h.backward.congr
    intro x hx
    simp [Store.backward, hheap x (List.mem_reverse.mp hx)]

section Writes

variable [DecidableEq A]

/-- Change the cell at an address. -/
def modify (s : Store A V) (a : A) (u : Cell A V → Cell A V) : Store A V :=
  { s with heap := Function.update s.heap a ((s.heap a).map u) }

/-- Write the address of the cell behind. -/
def setNext (s : Store A V) (a : A) (q : Option A) : Store A V :=
  s.modify a fun c => { c with next := q }

/-- Write the address of the cell before. -/
def setPrev (s : Store A V) (a : A) (q : Option A) : Store A V :=
  s.modify a fun c => { c with prev := q }

/-- Change the value at an address. -/
def setVal (s : Store A V) (a : A) (u : V → V) : Store A V :=
  s.modify a fun c => { c with val := u c.val }

/-- Write the cell at an address, or free it. -/
def put (s : Store A V) (a : A) (c : Option (Cell A V)) : Store A V :=
  { s with heap := Function.update s.heap a c }

/-- Let `q` come behind the cell at an address; without one, let it be the first cell. -/
def linkNext (s : Store A V) : Option A → Option A → Store A V
  | none, q => { s with head := q }
  | some a, q => s.setNext a q

/-- Let `q` come before the cell at an address; without one, let it be the last cell. -/
def linkPrev (s : Store A V) : Option A → Option A → Store A V
  | none, q => { s with tail := q }
  | some a, q => s.setPrev a q

@[simp]
theorem heap_modify_self (s : Store A V) (a : A) (u : Cell A V → Cell A V) :
  (s.modify a u).heap a = (s.heap a).map u
  := by
  simp [modify]

theorem heap_modify_of_ne {b : A} (h : b ≠ a) (s : Store A V) (u : Cell A V → Cell A V) :
  (s.modify a u).heap b = s.heap b
  := by
  simp [modify, h]

/-- No change of a cell allocates or frees one. -/
@[simp]
theorem isSome_heap_modify (s : Store A V) (a b : A) (u : Cell A V → Cell A V) :
  ((s.modify a u).heap b).isSome = (s.heap b).isSome
  := by
  by_cases hb : b = a
  · subst hb
    simp
  · rw [heap_modify_of_ne hb]

@[simp]
theorem isSome_heap_setNext (s : Store A V) (a b : A) (q : Option A) :
  ((s.setNext a q).heap b).isSome = (s.heap b).isSome
  := isSome_heap_modify ..

@[simp]
theorem isSome_heap_setPrev (s : Store A V) (a b : A) (q : Option A) :
  ((s.setPrev a q).heap b).isSome = (s.heap b).isSome
  := isSome_heap_modify ..

@[simp]
theorem isSome_heap_linkPrev (s : Store A V) (p q : Option A) (b : A) :
  ((s.linkPrev p q).heap b).isSome = (s.heap b).isSome
  := by
  cases p with
  | none => rfl
  | some a => apply isSome_heap_setPrev

theorem modify_comm {b : A} (h : a ≠ b) (s : Store A V) (u w : Cell A V → Cell A V) :
  (s.modify a u).modify b w = (s.modify b w).modify a u
  := by
  simp only [modify]
  rw [Function.update_comm h, Function.update_of_ne h, Function.update_of_ne h.symm]

/-- A direction does not see a change of a cell that keeps the value and the link. -/
theorem chain_modify (s : Store A V) (a : A) (p : Option A) (link : Cell A V → Option A)
    (u : Cell A V → Cell A V) (hu : ∀ c, (u c).val = c.val ∧ link (u c) = link c) :
  (s.modify a u).chain p link = s.chain p link
  := by
  apply Chain.ext
  · rfl
  · funext b
    by_cases hb : b = a
    · subst hb
      simp [modify, chain, Function.comp_def, hu]
    · simp [modify, chain, hb]

/-- In the direction of a link, a change of the link is a change of what comes behind the cell. -/
theorem chain_modify_link (s : Store A V) (a : A) (p : Option A) (link : Cell A V → Option A)
    (u : Cell A V → Cell A V) (hu : ∀ c, (u c).val = c.val ∧ link (u c) = q) :
  (s.modify a u).chain p link = (s.chain p link).follow (some a) q
  := by
  apply Chain.ext
  · rfl
  · funext b
    by_cases hb : b = a
    · subst hb
      simp [modify, chain, Chain.follow, Function.comp_def, hu]
    · simp [modify, chain, Chain.follow, hb]

theorem forward_linkNext (p q : Option A) :
  (s.linkNext p q).forward = s.forward.follow p q
  := by
  cases p with
  | none => rfl
  | some a =>
      exact s.chain_modify_link a s.head Cell.next (fun c => { c with next := q })
        fun c => ⟨rfl, rfl⟩

theorem backward_linkNext (p q : Option A) :
  (s.linkNext p q).backward = s.backward
  := by
  cases p with
  | none => rfl
  | some a =>
      exact s.chain_modify a s.tail Cell.prev (fun c => { c with next := q })
        fun c => ⟨rfl, rfl⟩

theorem forward_linkPrev (p q : Option A) :
  (s.linkPrev p q).forward = s.forward
  := by
  cases p with
  | none => rfl
  | some a =>
      exact s.chain_modify a s.head Cell.next (fun c => { c with prev := q })
        fun c => ⟨rfl, rfl⟩

theorem backward_linkPrev (p q : Option A) :
  (s.linkPrev p q).backward = s.backward.follow p q
  := by
  cases p with
  | none => rfl
  | some a =>
      exact s.chain_modify_link a s.tail Cell.prev (fun c => { c with prev := q })
        fun c => ⟨rfl, rfl⟩

/-! ### Linking cells in and out -/

/-- A cell that knows its neighbours is linked in when they are told. -/
theorem Represents.link (h : s.Represents (l₁ ++ l₂))
    (hx : s.heap x = some ⟨v, first l₂, last l₁⟩) (hfresh : ∀ y ∈ l₁ ++ l₂, y.1 ≠ x) :
  ((s.linkNext (last l₁) (some x)).linkPrev (first l₂) (some x)).Represents (l₁ ++ (x, v) :: l₂)
  := by
  have hb := h.backward
  rw [List.reverse_append] at hb
  obtain ⟨r, -, h₂⟩ := path_append.mp h.forward
  obtain ⟨r', -, h₁⟩ := path_append.mp hb
  obtain rfl := h₂.start_eq
  obtain rfl := h₁.start_eq
  constructor
  · rw [forward_linkPrev, forward_linkNext]
    apply Chain.Holds.follow h.forward (.cons _ h₂)
    · intro y hy z hz
      rcases List.mem_cons.mp hz with rfl | hz
      · apply hfresh y (List.mem_append_left _ hy)
      · apply h.disjoint hy hz
    · simp [Store.forward, hx]
  · rw [backward_linkPrev, backward_linkNext, List.reverse_append, List.reverse_cons,
      List.append_assoc, List.singleton_append, ← last_reverse]
    apply Chain.Holds.follow hb (.cons _ h₁)
    · intro y hy z hz
      rw [List.mem_reverse] at hy
      rcases List.mem_cons.mp hz with rfl | hz
      · apply hfresh y (List.mem_append_right _ hy)
      · apply (h.disjoint (List.mem_reverse.mp hz) hy).symm
    · simp [Store.backward, hx]

/-- A cell is taken out when its neighbours are told of each other. -/
theorem Represents.unlink (h : s.Represents (l₁ ++ (x, v) :: l₂)) :
  ((s.linkNext (last l₁) (first l₂)).linkPrev (first l₂) (last l₁)).Represents (l₁ ++ l₂)
  := by
  have hb := h.backward
  rw [List.reverse_append, List.reverse_cons, List.append_assoc, List.singleton_append] at hb
  obtain ⟨r, -, h₂⟩ := path_append.mp h.forward
  obtain ⟨r', -, h₁⟩ := path_append.mp hb
  cases h₂ with
  | cons cell₂ rest₂ =>
      cases h₁ with
      | cons cell₁ rest₁ =>
          obtain rfl := rest₂.start_eq
          obtain rfl := rest₁.start_eq
          constructor
          · rw [forward_linkPrev, forward_linkNext]
            apply Chain.Holds.follow h.forward rest₂
            intro y hy z hz
            apply h.disjoint hy (List.mem_cons_of_mem _ hz)
          · rw [backward_linkPrev, backward_linkNext, List.reverse_append,
              ← last_reverse l₂, ← first_reverse l₁]
            apply Chain.Holds.follow hb rest₁
            intro y hy z hz
            rw [List.mem_reverse] at hy hz
            apply (h.disjoint hz (List.mem_cons_of_mem _ hy)).symm

/-- A cell outside the list can be changed. -/
theorem Represents.modify (h : s.Represents l) (hfresh : ∀ y ∈ l, y.1 ≠ a)
    (u : Cell A V → Cell A V) :
  (s.modify a u).Represents l
  := by
  refine Represents.congr h rfl rfl ?_
  intro y hy
  apply heap_modify_of_ne (hfresh y hy)

/-- A cell outside the list can be written and freed. -/
theorem Represents.put (h : s.Represents l) (hfresh : ∀ y ∈ l, y.1 ≠ a)
    (c : Option (Cell A V)) :
  (s.put a c).Represents l
  := by
  refine Represents.congr h rfl rfl ?_
  intro y hy
  simp [Store.put, hfresh y hy]

/-- A change of the value at the address of an entry is a change of the entry. -/
theorem Represents.setVal (h : s.Represents (l₁ ++ (a, v) :: l₂)) (u : V → V) :
  (s.setVal a u).Represents (l₁ ++ (a, u v) :: l₂)
  := by
  have hcell := h.cell_eq
  have hb := h.backward
  rw [List.reverse_append, List.reverse_cons, List.append_assoc, List.singleton_append] at hb
  constructor
  · apply Path.change h.forward
    · intro b hb
      simp [Store.forward, Store.setVal, heap_modify_of_ne hb]
    · simp [Store.forward, Store.setVal, hcell]
  · rw [List.reverse_append, List.reverse_cons, List.append_assoc, List.singleton_append]
    apply Path.change hb
    · intro b hb
      simp [Store.backward, Store.setVal, heap_modify_of_ne hb]
    · simp [Store.backward, Store.setVal, hcell]

end Writes

end Store

end DoublyLinked
