import Tangent.Machine
import Tangent.Model.Logger

/-!
# The hash map is a map

A map that has been made by `hashmap_new` and by calls of `hashmap_put` and `hashmap_remove` finds
what a map finds, with one reservation: `hashmap_remove` leaves a free slot, and when a key behind
it is put again, it gets there a second time.  If memory runs out while the table is doubled,
entries may get lost.
-/

namespace Tangent.Logger

open Probing

variable {V : Type*} {calloc : ℕ → Bool} {m m' : Hashmap V} {key k : Bytes} {value v : V}
  {idx fuel : ℕ} {status : MapStatus} {es : List (Slot Bytes V)}

/-! ### One call -/

/-- Every key is in one slot of its chain, and no more slots are in use than have been counted. -/
structure Sound (m : Hashmap V) : Prop where
  placed : Placed (hashmapHashInt m.tableSize) maxChainLength m.data
  count : m.data.countP Option.isSome ≤ m.size

/-- No slot of a chain before a key is free. -/
structure Tidy (m : Hashmap V) : Prop extends Sound m where
  gapless : ∀ k, Gapless (hashmapHashInt m.tableSize) maxChainLength m.data k

theorem hashmapHashInt_lt {tableSize : ℕ} (h : 0 < tableSize) (key : Bytes) :
  hashmapHashInt tableSize key < tableSize
  := Nat.mod_lt _ h

theorem Tidy.empty {tableSize : ℕ} (h : maxChainLength ≤ tableSize) :
  Tidy (Hashmap.empty tableSize : Hashmap V)
  := by
  have hpos : 0 < tableSize := Nat.lt_of_lt_of_le (by decide) h
  have hsize : (Hashmap.empty tableSize : Hashmap V).tableSize = tableSize :=
    List.length_replicate
  refine ⟨⟨?_, ?_⟩, ?_⟩
  · rw [hsize]
    exact .replicate h (hashmapHashInt_lt hpos)
  · simp [Hashmap.empty]
  · rw [hsize]
    exact Gapless.replicate tableSize

theorem content_empty (tableSize : ℕ) :
  content (Hashmap.empty tableSize : Hashmap V).data k = none
  := by
  apply content_eq_none_iff.mpr
  intro v hv
  simp [Hashmap.empty] at hv

/-- What `hashmap_get` gives back when the map has a value or none. -/
def found : Option V → MapStatus × Option V
  | some v => (.ok, some v)
  | none => (.missing, none)

theorem found_eq_ok_iff {x : Option V} :
  found x = (.ok, some v) ↔ x = some v
  := by
  cases x <;> simp [found]

theorem Sound.hashmapGet_eq (h : Sound m) (k : Bytes) :
  hashmapGet m k = found (content m.data k)
  := by
  rw [hashmapGet]
  split
  · rename_i curr hseek
    obtain ⟨v, hcurr, hcontent⟩ := h.placed.seek_eq_some hseek
    rw [hcurr, hcontent]
    rfl
  · rename_i hseek
    rw [h.placed.seek_eq_none hseek]
    rfl

/-- A key is removed, or there was none. -/
theorem Sound.remove (h : Sound m) (k : Bytes) :
  Sound (hashmapRemove m k).2 ∧
    content (hashmapRemove m k).2.data = Function.update (content m.data) k none ∧
    ((hashmapRemove m k).1 = .ok ↔ (content m.data k).isSome)
  := by
  rw [hashmapRemove]
  split
  · rename_i curr hseek
    obtain ⟨v, hcurr, hcontent⟩ := h.placed.seek_eq_some hseek
    obtain ⟨hplaced, hmap⟩ := h.placed.clear hcurr
    have hlt : curr < m.data.length := (List.getElem?_eq_some_iff.mp hcurr).1
    refine ⟨⟨?_, ?_⟩, hmap, by simp [hcontent]⟩
    · simpa [Hashmap.tableSize] using hplaced
    · have hcount := h.count
      have hget : m.data[curr] = some (k, v) := (List.getElem?_eq_some_iff.mp hcurr).2
      simp only [List.countP_set, hlt, hget, Option.isSome_some, if_true, Option.isSome_none,
        Bool.false_eq_true, if_false]
      omega
  · rename_i hseek
    have hnone := h.placed.seek_eq_none hseek
    refine ⟨h, ?_, by simp [hnone]⟩
    rw [← hnone, Function.update_eq_self]

/-- The key is in a slot behind the free one it is put in. -/
def Duplicates (m : Hashmap V) (key : Bytes) : Prop :=
  ∃ idx, hashmapHash m key = some idx ∧ m.data[idx]? = some none ∧ (hashmapGet m key).1 = .ok

theorem place_of_hashmapHash (h : hashmapHash m key = some idx) :
  place (hashmapHashInt m.tableSize) maxChainLength m.data key = some idx
  := by
  rw [hashmapHash] at h
  split at h
  · cases h
  · exact h

theorem Sound.content_of_not_duplicates (h : Sound m) (hdup : ¬ Duplicates m key)
    (hidx : hashmapHash m key = some idx) (hfree : m.data[idx]? = some none) :
  content m.data key = none
  := by
  by_contra hne
  obtain ⟨v, hv⟩ := Option.ne_none_iff_exists'.mp hne
  apply hdup
  refine ⟨idx, hidx, hfree, ?_⟩
  rw [h.hashmapGet_eq, hv]
  rfl

/-- A key that is not in the map gets there once. -/
theorem Sound.not_duplicates_of_none (h : Sound m) (hnone : content m.data key = none) :
  ¬ Duplicates m key
  := by
  rintro ⟨idx, -, -, hget⟩
  rw [h.hashmapGet_eq, hnone] at hget
  cases hget

/-- Without free slots before keys, no key gets into a second slot. -/
theorem Tidy.not_duplicates (h : Tidy m) :
  ¬ Duplicates m key
  := by
  rintro ⟨idx, hidx, hfree, hget⟩
  apply h.not_duplicates_of_none _ ⟨idx, hidx, hfree, hget⟩
  exact h.placed.content_of_gapless (h.gapless key) (place_of_hashmapHash hidx) hfree

/-- What `hashmap_put` leaves behind. -/
def PutResult (m : Hashmap V) (key : Bytes) (value : V) : MapStatus → Hashmap V → Prop
  | .ok, m' => Sound m' ∧ (Tidy m → Tidy m') ∧
      content m'.data = Function.update (content m.data) key (some value)
  | .omem, m' => Sound m' ∧ (Tidy m → Tidy m') ∧
      ∀ k v, content m'.data k = some v → content m.data k = some v
  | _, _ => False

theorem Sound.store (h : Sound m) (hidx : hashmapHash m key = some idx)
    (hdup : ¬ Duplicates m key) :
  PutResult m key value .ok (m.store idx key value)
  := by
  have hplace := place_of_hashmapHash hidx
  have hnew := fun hfree => h.content_of_not_duplicates hdup hidx hfree
  obtain ⟨hplaced, hmap⟩ := h.placed.put hplace hnew value
  have hsize : (m.store idx key value).tableSize = m.tableSize := List.length_set
  have hsound : Sound (m.store idx key value) := by
    refine ⟨?_, ?_⟩
    · rw [hsize]
      exact hplaced
    · have hlt : idx < m.data.length := by
        obtain ⟨i, -, heq, -⟩ := h.placed.place_eq_some hplace
        rw [heq]
        exact Nat.mod_lt _ (Nat.zero_lt_of_lt (h.placed.home_lt key))
      have hcount := h.count
      simp only [Hashmap.store, List.countP_set, hlt, Option.isSome_some, if_true]
      omega
  refine ⟨hsound, ?_, hmap⟩
  intro htidy
  refine ⟨hsound, ?_⟩
  rw [hsize]
  exact h.placed.put_gapless hplace hnew value htidy.gapless

/-! ### Rehashing -/

/-- After an entry has been moved, the new map still has none of the keys that remain. -/
theorem content_eq_none_of_update {m₁ : Hashmap V} (hunique : Unique (some (key, value) :: es))
    (hmap : content m₁.data = Function.update (content m.data) key (some value))
    (hnew : ∀ k v, some (k, v) ∈ some (key, value) :: es → content m.data k = none) {k : Bytes}
    {v : V} (hv : some (k, v) ∈ es) :
  content m₁.data k = none
  := by
  have hne : k ≠ key := by
    rintro rfl
    exact hunique.not_mem hv
  rw [hmap, Function.update_of_ne hne]
  exact hnew k v (List.mem_cons_of_mem _ hv)

/-- What is in the new map or remains does not change when an entry is moved. -/
theorem content_or_of_update {m₁ : Hashmap V} (es : List (Slot Bytes V))
    (hmap : content m₁.data = Function.update (content m.data) key (some value))
    (hnone : content m.data key = none) (k : Bytes) :
  (content m₁.data k).or (content es k)
    = (content m.data k).or (content (some (key, value) :: es) k)
  := by
  rw [hmap, content]
  by_cases hk : key = k
  · subst hk
    simp [hnone]
  · simp [hk, Ne.symm hk]

/-- Rehashing moves the entries of the slots to a map that has none of their keys. -/
theorem rehashLoop_result {put : Hashmap V → Bytes → V → Option (MapStatus × Hashmap V)}
    (hput : ∀ m key value status m', Tidy m → content m.data key = none →
      put m key value = some (status, m') → PutResult m key value status m')
    (htidy : Tidy m) (hunique : Unique es)
    (hnew : ∀ k v, some (k, v) ∈ es → content m.data k = none)
    (h : rehashLoop put es m = some (status, m')) :
  Tidy m' ∧ ((status = .ok ∧ ∀ k, content m'.data k = (content m.data k).or (content es k)) ∨
    (status = .omem ∧ ∀ k v, content m'.data k = some v →
      (content m.data k).or (content es k) = some v))
  := by
  induction es generalizing m with
  | nil =>
      cases h
      exact ⟨htidy, .inl ⟨rfl, by simp [content]⟩⟩
  | cons e es ih =>
      cases e with
      | none =>
          apply ih htidy hunique.of_cons _ h
          exact fun k v hv => hnew k v (List.mem_cons_of_mem _ hv)
      | some entry =>
          obtain ⟨key, value⟩ := entry
          have hnone := hnew key value List.mem_cons_self
          rw [rehashLoop] at h
          split at h
          · cases h
          · rename_i m₁ hok
            obtain ⟨-, htidy₁, hmap⟩ := hput m key value .ok m₁ htidy hnone hok
            have hnew₁ : ∀ k v, some (k, v) ∈ es → content m₁.data k = none :=
              fun k v hv => content_eq_none_of_update hunique hmap hnew hv
            have hor := content_or_of_update es hmap hnone
            obtain ⟨htidy', ⟨hst, hall⟩ | ⟨hst, hsub⟩⟩ := ih (htidy₁ htidy) hunique.of_cons hnew₁ h
            · exact ⟨htidy', .inl ⟨hst, fun k => (hall k).trans (hor k)⟩⟩
            · refine ⟨htidy', .inr ⟨hst, ?_⟩⟩
              intro k v hv
              rw [← hor]
              exact hsub k v hv
          · rename_i status₁ m₁ hne hfail
            cases h
            have hresult := hput m key value _ _ htidy hnone hfail
            cases status with
            | ok => exact (hne rfl).elim
            | omem =>
                obtain ⟨-, htidy₁, hsub⟩ := hresult
                refine ⟨htidy₁ htidy, .inr ⟨rfl, ?_⟩⟩
                intro k v hv
                rw [hsub k v hv]
                rfl
            | _ => exact hresult.elim

/-- Rehashing keeps the entries, unless memory runs out. -/
theorem Sound.rehash_result {put : Hashmap V → Bytes → V → Option (MapStatus × Hashmap V)}
    (hput : ∀ m key value status m', Tidy m → content m.data key = none →
      put m key value = some (status, m') → PutResult m key value status m')
    (hsound : Sound m) (h : hashmapRehash calloc put m = some (status, m')) :
  Sound m' ∧ (Tidy m → Tidy m') ∧
    ((status = .ok ∧ Tidy m' ∧ content m'.data = content m.data) ∨
      (status = .omem ∧ ∀ k v, content m'.data k = some v → content m.data k = some v))
  := by
  rw [hashmapRehash] at h
  split at h
  · have hfits : maxChainLength ≤ m.tableSize := hsound.placed.fits
    have hempty : Tidy (Hashmap.empty (2 * m.tableSize) : Hashmap V) := .empty (by omega)
    obtain ⟨htidy, ⟨hst, hall⟩ | ⟨hst, hsub⟩⟩ := rehashLoop_result hput hempty
      hsound.placed.unique (fun k _ _ => content_empty _) h
    · refine ⟨htidy.toSound, fun _ => htidy, .inl ⟨hst, htidy, ?_⟩⟩
      funext k
      rw [hall, content_empty, Option.none_or]
    · refine ⟨htidy.toSound, fun _ => htidy, .inr ⟨hst, ?_⟩⟩
      intro k v hv
      have hsome := hsub k v hv
      rwa [content_empty, Option.none_or] at hsome
  · cases h
    exact ⟨hsound, id, .inr ⟨rfl, fun _ _ hv => hv⟩⟩

/-- `hashmap_put` stores a value in the map, or runs out of memory. -/
theorem Sound.put_result (hsound : Sound m) (hdup : ¬ Duplicates m key)
    (h : hashmapPutWith calloc fuel m key value = some (status, m')) :
  PutResult m key value status m'
  := by
  induction fuel generalizing m key value status m' with
  | zero => cases h
  | succ fuel ih =>
      have hput : ∀ (m : Hashmap V) key value status m', Tidy m → content m.data key = none →
          hashmapPutWith calloc fuel m key value = some (status, m') →
          PutResult m key value status m' := by
        intro m key value status m' htidy _ hrest
        exact ih htidy.toSound htidy.not_duplicates hrest
      rw [hashmapPutWith] at h
      split at h
      · rename_i index hidx
        cases h
        exact hsound.store hidx hdup
      · split at h
        · cases h
        · rename_i m₁ hfail
          cases h
          obtain ⟨hsound₁, htidy₁, ⟨heq, -⟩ | ⟨-, hsub⟩⟩ := hsound.rehash_result hput hfail
          · cases heq
          · exact ⟨hsound₁, htidy₁, hsub⟩
        · rename_i status₁ m₁ hne hok
          obtain ⟨-, -, ⟨-, htidy₁, hmap⟩ | ⟨hst, -⟩⟩ := hsound.rehash_result hput hok
          · have hrest := ih htidy₁.toSound htidy₁.not_duplicates h
            cases status with
            | ok =>
                obtain ⟨hsound', htidy', hupdate⟩ := hrest
                rw [hmap] at hupdate
                exact ⟨hsound', fun _ => htidy' htidy₁, hupdate⟩
            | omem =>
                obtain ⟨hsound', htidy', hsub⟩ := hrest
                rw [hmap] at hsub
                exact ⟨hsound', fun _ => htidy' htidy₁, hsub⟩
            | _ => exact hrest.elim
          · exact (hne hst).elim

/-! ### Memory -/

theorem rehashLoop_tableSize {put : Hashmap V → Bytes → V → Option (MapStatus × Hashmap V)}
    (hput : ∀ m key value status m', put m key value = some (status, m') →
      m.tableSize ≤ m'.tableSize)
    (h : rehashLoop put es m = some (status, m')) :
  m.tableSize ≤ m'.tableSize
  := by
  induction es generalizing m with
  | nil =>
      cases h
      exact le_refl _
  | cons e es ih =>
      match e with
      | none => exact ih h
      | some (key, value) =>
          rw [rehashLoop] at h
          split at h
          · cases h
          · rename_i m₁ hok
            exact (hput m key value .ok m₁ hok).trans (ih h)
          · rename_i status₁ m₁ hne hfail
            cases h
            exact hput m key value status m' hfail

theorem tableSize_empty (tableSize : ℕ) :
  (Hashmap.empty tableSize : Hashmap V).tableSize = tableSize
  := List.length_replicate

theorem tableSize_store (m : Hashmap V) (index : ℕ) (key : Bytes) (value : V) :
  (m.store index key value).tableSize = m.tableSize
  := List.length_set

/-- The table does not get smaller, and if it is rehashed, it gets twice as large. -/
theorem hashmapRehash_tableSize
    {put : Hashmap V → Bytes → V → Option (MapStatus × Hashmap V)}
    (hput : ∀ m key value status m', put m key value = some (status, m') →
      m.tableSize ≤ m'.tableSize)
    (h : hashmapRehash calloc put m = some (status, m')) :
  m.tableSize ≤ m'.tableSize ∧ (status ≠ .omem → 2 * m.tableSize ≤ m'.tableSize)
  := by
  rw [hashmapRehash] at h
  split at h
  · have hle := rehashLoop_tableSize hput h
    rw [tableSize_empty] at hle
    exact ⟨by omega, fun _ => hle⟩
  · cases h
    exact ⟨le_refl _, fun hne => absurd rfl hne⟩

theorem hashmapPutWith_tableSize (h : hashmapPutWith calloc fuel m key value = some (status, m')) :
  m.tableSize ≤ m'.tableSize
  := by
  induction fuel generalizing m key value status m' with
  | zero => cases h
  | succ fuel ih =>
      have hput : ∀ (m : Hashmap V) key value status m',
          hashmapPutWith calloc fuel m key value = some (status, m') →
          m.tableSize ≤ m'.tableSize := fun m key value status m' hrest => ih hrest
      rw [hashmapPutWith] at h
      split at h
      · cases h
        rw [tableSize_store]
      · split at h
        · cases h
        · rename_i m₁ hfail
          cases h
          exact (hashmapRehash_tableSize hput hfail).1
        · rename_i status₁ m₁ hne hok
          exact (hashmapRehash_tableSize hput hok).1.trans (ih h)

theorem exists_rehashLoop {put : Hashmap V → Bytes → V → Option (MapStatus × Hashmap V)} {n : ℕ}
    (hput : ∀ m key value status m', put m key value = some (status, m') →
      m.tableSize ≤ m'.tableSize)
    (hdefined : ∀ m key value, n ≤ m.tableSize → ∃ r, put m key value = some r)
    (hn : n ≤ m.tableSize) :
  ∃ r, rehashLoop put es m = some r
  := by
  induction es generalizing m with
  | nil => exact ⟨_, rfl⟩
  | cons e es ih =>
      match e with
      | none => exact ih hn
      | some (key, value) =>
          obtain ⟨⟨status, m₁⟩, hr⟩ := hdefined m key value hn
          have hle := hput m key value status m₁ hr
          rw [rehashLoop, hr]
          cases status with
          | ok => exact ih (hn.trans hle)
          | _ => exact ⟨_, rfl⟩

/-- A table that is doubled gets too large for `calloc` in the end, so `hashmap_put` ends. -/
theorem exists_hashmapPutWith (h : 2 ^ 30 ≤ m.tableSize * 2 ^ fuel) :
  ∃ r, hashmapPutWith calloc (fuel + 1) m key value = some r
  := by
  induction fuel generalizing m key value with
  | zero =>
      rw [hashmapPutWith]
      split
      · exact ⟨_, rfl⟩
      · rw [hashmapRehash, if_neg (by omega)]
        exact ⟨_, rfl⟩
  | succ fuel ih =>
      have hput : ∀ (m : Hashmap V) key value status m',
          hashmapPutWith calloc (fuel + 1) m key value = some (status, m') →
          m.tableSize ≤ m'.tableSize := fun m key value status m' hrest =>
        hashmapPutWith_tableSize hrest
      have hdefined : ∀ (m₁ : Hashmap V) key value, 2 * m.tableSize ≤ m₁.tableSize →
          ∃ r, hashmapPutWith calloc (fuel + 1) m₁ key value = some r := by
        intro m₁ key value hle
        apply ih
        calc 2 ^ 30 ≤ m.tableSize * 2 ^ (fuel + 1) := h
          _ = 2 * m.tableSize * 2 ^ fuel := by rw [pow_succ']; ring
          _ ≤ m₁.tableSize * 2 ^ fuel := Nat.mul_le_mul_right _ hle
      rw [hashmapPutWith]
      split
      · exact ⟨_, rfl⟩
      · obtain ⟨⟨status, m₁⟩, hr⟩ :
            ∃ r, hashmapRehash calloc (hashmapPutWith calloc (fuel + 1)) m = some r := by
          rw [hashmapRehash]
          split
          · apply exists_rehashLoop hput hdefined
            rw [tableSize_empty]
          · exact ⟨_, rfl⟩
        have hlarge := (hashmapRehash_tableSize hput hr).2
        rw [hr]
        cases status with
        | omem => exact ⟨_, rfl⟩
        | _ => exact hdefined m₁ key value (hlarge (by simp))

/-- `hashmap_put` comes to an end. -/
theorem Sound.exists_put (h : Sound m) (calloc : ℕ → Bool) (key : Bytes) (value : V) :
  ∃ r, hashmapPut calloc m key value = some r
  := by
  have hfits : 8 ≤ m.tableSize := h.placed.fits
  have henough : 2 ^ 30 ≤ m.tableSize * 2 ^ 30 := by omega
  exact exists_hashmapPutWith henough

/-! ### Runs -/

/-- What can be done to a map. -/
inductive HashmapCall (V : Type*) where
  | put (key : Bytes) (value : V)
  | remove (key : Bytes)

/-- The map after a call that succeeds.  `hashmap_remove` succeeds also if there is nothing to
remove. -/
def hashmapStep (calloc : ℕ → Bool) (m : Hashmap V) :
    HashmapCall V → Except MapStatus (Hashmap V)
  | .put key value =>
      match hashmapPut calloc m key value with
      | some (.ok, m) => .ok m
      | some (status, _) => .error status
      | none => .error .full
  | .remove key => .ok (hashmapRemove m key).2

/-- The map after calls that succeed. -/
def hashmapRun (calloc : ℕ → Bool) (m : Hashmap V) (cs : List (HashmapCall V)) :
    Except MapStatus (Hashmap V) :=
  Machine.run (hashmapStep calloc) m cs

/-- What a call makes of a map. -/
def HashmapCall.apply (φ : Bytes → Option V) : HashmapCall V → Bytes → Option V
  | .put key value => Function.update φ key (some value)
  | .remove key => Function.update φ key none

/-- The map after a list of calls. -/
def mapAfter (cs : List (HashmapCall V)) : Bytes → Option V :=
  cs.foldl HashmapCall.apply fun _ => none

variable {cs : List (HashmapCall V)}

/-- One call keeps the map sound and does to it what it does to a map. -/
theorem Sound.step {c : HashmapCall V} (h : Sound m)
    (hdup : ∀ key value, c = .put key value → ¬ Duplicates m key)
    (hs : hashmapStep calloc m c = .ok m') :
  Sound m' ∧ content m'.data = c.apply (content m.data)
  := by
  cases c with
  | put key value =>
      rw [hashmapStep] at hs
      split at hs
      · rename_i m₁ hput
        cases hs
        obtain ⟨hsound, -, hmap⟩ := h.put_result (hdup key value rfl) hput
        exact ⟨hsound, hmap⟩
      · cases hs
      · cases hs
  | remove key =>
      cases hs
      obtain ⟨hsound, hmap, -⟩ := h.remove key
      exact ⟨hsound, hmap⟩

/-- A call fails only if memory runs out. -/
theorem Sound.step_error {c : HashmapCall V} (h : Sound m)
    (hdup : ∀ key value, c = .put key value → ¬ Duplicates m key)
    (hs : hashmapStep calloc m c = .error status) :
  status = .omem
  := by
  cases c with
  | put key value =>
      rw [hashmapStep] at hs
      split at hs
      · cases hs
      · rename_i status₁ m₁ hne hput
        cases hs
        have hresult := h.put_result (hdup key value rfl) hput
        cases status with
        | ok => exact absurd rfl hne
        | omem => rfl
        | _ => exact hresult.elim
      · rename_i hnone
        obtain ⟨r, hr⟩ := h.exists_put calloc key value
        rw [hr] at hnone
        cases hnone
  | remove key => cases hs

/-- The calls of a run put no key into a second slot. -/
def NoDuplicates (calloc : ℕ → Bool) (cs : List (HashmapCall V)) : Prop :=
  ∀ m key value, Machine.Meets (hashmapStep calloc) (.empty initialSize) cs m (.put key value) →
    ¬ Duplicates m key

theorem NoDuplicates.of_prefix {cs₁ : List (HashmapCall V)} (h : NoDuplicates calloc cs)
    (hpre : cs₁ <+: cs) :
  NoDuplicates calloc cs₁
  := by
  rintro m key value ⟨cs₂, hpre₂, hrun⟩
  exact h m key value ⟨cs₂, hpre₂.trans hpre, hrun⟩

theorem NoDuplicates.run (hdup : NoDuplicates calloc cs)
    (h : hashmapRun calloc (.empty initialSize) cs = .ok m) :
  Sound m ∧ content m.data = mapAfter cs
  := by
  apply Machine.run_induction (P := fun cs m => NoDuplicates calloc cs →
    Sound m ∧ content m.data = mapAfter cs) _ _ h hdup
  · intro _
    refine ⟨(Tidy.empty (by decide)).toSound, ?_⟩
    funext k
    exact content_empty initialSize
  · intro cs m c m' hrun ih hs hdup
    obtain ⟨hsound, hmap⟩ := ih (hdup.of_prefix (List.prefix_append cs [c]))
    obtain ⟨hsound', hmap'⟩ := hsound.step (by
      rintro key value rfl
      exact hdup m key value (Machine.meets_concat_iff.mpr (.inr ⟨hrun, rfl⟩))) hs
    rw [hmap] at hmap'
    exact ⟨hsound', by rw [hmap', mapAfter, mapAfter, List.foldl_concat]⟩

/-- Without removals, no key gets into a second slot. -/
theorem noDuplicates_of_puts (hputs : ∀ key, .remove key ∉ cs) :
  NoDuplicates calloc cs
  := by
  rintro m key value hmeets
  have htidy : Tidy m := by
    apply hmeets.visits.induction (P := Tidy) (Tidy.empty (by decide))
    intro m₁ c m₂ hmeets₁ htidy hs
    cases c with
    | put key value =>
        rw [hashmapStep] at hs
        split at hs
        · rename_i m₃ hput
          cases hs
          exact (htidy.put_result htidy.not_duplicates hput).2.1 htidy
        · cases hs
        · cases hs
    | remove key => exact absurd hmeets₁.mem (hputs key)
  exact htidy.not_duplicates

/-- As long as no key is put into a second slot, a map finds what a map finds and removes what it
removes, whatever the hashes are and however often it is rehashed; it counts no less than its
entries, and a call fails only if memory runs out, and then invents no entry. -/
theorem hashmap_is_map (calloc : ℕ → Bool) {cs : List (HashmapCall V)}
    (hdup : NoDuplicates calloc cs) :
  (∀ m, hashmapRun calloc (.empty initialSize) cs = .ok m →
      (∀ k, hashmapGet m k = found (mapAfter cs k)) ∧
      (∀ k, (hashmapRemove m k).1 = .ok ↔ (mapAfter cs k).isSome) ∧
      m.data.countP Option.isSome ≤ m.size) ∧
    ∀ status, hashmapRun calloc (.empty initialSize) cs = .error status → status = .omem ∧
      ∃ m key value m', Machine.Meets (hashmapStep calloc) (.empty initialSize) cs m
          (.put key value) ∧
        hashmapPut calloc m key value = some (.omem, m') ∧
        ∀ k v, hashmapGet m' k = (.ok, some v) → hashmapGet m k = (.ok, some v)
  := by
  constructor
  · intro m hrun
    obtain ⟨hsound, hmap⟩ := hdup.run hrun
    refine ⟨?_, ?_, hsound.count⟩
    · intro k
      rw [hsound.hashmapGet_eq, hmap]
    · intro k
      rw [← hmap]
      exact (hsound.remove k).2.2
  · intro status hrun
    obtain ⟨m, c, hmeets, hs⟩ := Machine.exists_meets_of_run_eq_error hrun
    have hsound : Sound m := by
      obtain ⟨cs₁, hpre, hrun₁⟩ := hmeets.visits
      exact ((hdup.of_prefix hpre).run hrun₁).1
    cases c with
    | remove key => cases hs
    | put key value =>
        obtain rfl := hsound.step_error (by
          rintro key value heq
          cases heq
          exact hdup m _ _ hmeets) hs
        obtain ⟨⟨status, m'⟩, hput⟩ := hsound.exists_put calloc key value
        have hresult := hsound.put_result (hdup m key value hmeets) hput
        cases status with
        | omem =>
            obtain ⟨hsound', -, hsub⟩ := hresult
            refine ⟨rfl, m, key, value, m', hmeets, hput, ?_⟩
            intro k v hget
            rw [hsound'.hashmapGet_eq, found_eq_ok_iff] at hget
            rw [hsound.hashmapGet_eq, found_eq_ok_iff]
            exact hsub k v hget
        | ok =>
            rw [hashmapStep, hput] at hs
            cases hs
        | _ => exact hresult.elim

/-- A key that is put into a second slot and removed at once is as it was before: its old value is
back.  Otherwise it is gone. -/
theorem remove_after_put (hsound : Sound m)
    (hput : hashmapPut calloc m key value = some (.ok, m')) :
  (Duplicates m key → (hashmapRemove m' key).2 = m) ∧
    (¬ Duplicates m key → hashmapGet (hashmapRemove m' key).2 key = (.missing, none))
  := by
  constructor
  · rintro ⟨idx, hidx, hfree, -⟩
    rw [hashmapPut, hashmapPutWith, hidx] at hput
    cases hput
    have hseek : hashmapSeek (m.store idx key value) key = some idx := by
      have hplace := seek_put (place_of_hashmapHash hidx) value
      rwa [← tableSize_store m idx key value] at hplace
    obtain ⟨hlt, hnone⟩ := List.getElem?_eq_some_iff.mp hfree
    rw [hashmapRemove, hseek]
    simp only [Hashmap.store, List.set_set, Nat.add_sub_cancel]
    rw [← hnone, List.set_getElem_self]
  · intro hdup
    obtain ⟨hsound', -, -⟩ := hsound.put_result hdup hput
    obtain ⟨hsound'', hmap, -⟩ := hsound'.remove key
    rw [hsound''.hashmapGet_eq, hmap, Function.update_self]
    rfl

/-! ### A sample -/

/-- Two keys with the same home are put into a map, and the first is removed. -/
def sampleRemoval : List (HashmapCall ℕ) :=
  [.put [99] 1, .put [107] 2] ++ [.remove [99]]

/-- The map that is left. -/
def sampleMap : Hashmap ℕ :=
  (Hashmap.empty initialSize).store 65 [107] 2

theorem sampleRemoval_noDuplicates :
  NoDuplicates (fun _ => true) sampleRemoval
  := by
  have hputs : NoDuplicates (fun _ => true) ([.put [99] 1, .put [107] 2] : List (HashmapCall ℕ)) :=
    noDuplicates_of_puts (by simp)
  intro m key value hmeets
  obtain hmeets | ⟨-, heq⟩ := Machine.meets_concat_iff.mp hmeets
  · exact hputs m key value hmeets
  · cases heq

theorem sampleRemoval_run :
  hashmapRun (fun _ => true) (.empty initialSize) sampleRemoval = .ok sampleMap
  := by
  have hok : (hashmapRun (fun _ => true) (.empty initialSize) sampleRemoval).toOption
      = some sampleMap := by decide +kernel
  cases hrun : hashmapRun (fun _ => true) (.empty initialSize) sampleRemoval with
  | ok m =>
      rw [hrun] at hok
      cases hok
      rfl
  | error status =>
      rw [hrun] at hok
      cases hok

/-- After the removal, the map has the second key and not the first. -/
theorem hashmap_is_map_sample :
  hashmapGet sampleMap [99] = (.missing, none) ∧ hashmapGet sampleMap [107] = (.ok, some 2)
  := by
  have hget := ((hashmap_is_map _ sampleRemoval_noDuplicates).1 _ sampleRemoval_run).1
  constructor
  · rw [hget]
    decide
  · rw [hget]
    decide

/-- If the second key is put again and removed, its first value is back. -/
theorem remove_after_put_sample :
  ∃ m', hashmapPut (fun _ => true) sampleMap [107] 3 = some (.ok, m') ∧
    hashmapGet (hashmapRemove m' [107]).2 [107] = (.ok, some 2)
  := by
  have hput : hashmapPut (fun _ => true) sampleMap [107] 3
      = some (.ok, sampleMap.store 64 [107] 3) := by decide +kernel
  have hdup : Duplicates sampleMap [107] :=
    ⟨64, by decide +kernel, by decide +kernel, by decide +kernel⟩
  have hsound := (sampleRemoval_noDuplicates.run sampleRemoval_run).1
  refine ⟨_, hput, ?_⟩
  rw [(remove_after_put hsound hput).1 hdup]
  decide +kernel

end Tangent.Logger
