import Tangent.Model.Dispatcher
import Tangent.Model.HandlerTable
import Mathlib.Logic.Function.Basic

/-!
# The table of handlers is a map

A dispatcher stands for a map from packet types to handlers.  This holds of the array: for types
below the size every call updates the map at its own value.  The block for a handler at or above
the size is too small, so no such handler can be registered.
-/

namespace Tangent.HandlerTable

variable {A U P : Type*}

/-! ### The map -/

/-- The value a call is about. -/
def Call.value : Call A U P → ℤ
  | .setPacketBody value _ => value
  | .createHandler value _ => value
  | .setPacketHandlers value _ _ => value

/-- The call registers its value. -/
def Call.registers : Call A U P → Bool
  | .setPacketBody .. => true
  | .createHandler .. => true
  | .setPacketHandlers .. => false

/-- What a call makes of the handler for its value. -/
def Call.change : Call A U P → Option (PacketHandler A U P) → Option (PacketHandler A U P)
  | .setPacketBody _ body, _ => some body.handler
  | .createHandler _ body, _ => some body.handler
  | .setPacketHandlers _ unpack process, handler =>
      handler.map fun h => { h with unpack := unpack, process := process }

/-- What a call makes of a map from types to handlers: it changes the handler for its own
value. -/
def Call.apply (m : ℤ → Option (PacketHandler A U P)) (c : Call A U P) :
    ℤ → Option (PacketHandler A U P) :=
  Function.update m c.value (c.change (m c.value))

/-- The map of a new dispatcher, whose array is zero. -/
def newMap (size : ℕ) : ℤ → Option (PacketHandler A U P) :=
  fun value => if value < size then some .zero else none

/-- The map after a list of calls. -/
def mapAfter (size : ℕ) (calls : List (Option ℕ × Call A U P)) :
    ℤ → Option (PacketHandler A U P) :=
  calls.foldl (fun m c => c.2.apply m) (newMap size)

/-! ### The array -/

variable {size : ℕ} {d d' : Dispatcher A U P} {m : ℤ → Option (PacketHandler A U P)}
  {stray : Option ℕ} {c : Call A U P} {value : ℤ} {calls : List (Option ℕ × Call A U P)}

/-- A dispatcher without odd handlers stands for a map. -/
structure Represents (size : ℕ) (d : Dispatcher A U P) (m : ℤ → Option (PacketHandler A U P)) :
    Prop where
  size_eq : d.handlers.length = size
  odd_eq : d.odd = []
  entry : ∀ value, 0 ≤ value → d.handlers[value.toNat]? = m value

theorem Represents.newDispatcher (size : ℕ) :
  Represents size (newDispatcher size : Dispatcher A U P) (newMap size)
  := by
  refine ⟨List.length_replicate, rfl, ?_⟩
  intro value hvalue
  rw [HandlerTable.newDispatcher, newMap, List.getElem?_replicate]
  congr 1
  rw [eq_iff_iff]
  omega

theorem Represents.getHandler_eq (h : Represents size d m) (hvalue : 0 ≤ value) :
  getHandler d value = .ok (if value < size then some (.array value.toNat) else none)
  := by
  rw [getHandler, h.size_eq, h.odd_eq, if_neg (not_lt.mpr hvalue)]
  split
  · rfl
  · rfl

/-- What is found for a value is what the map says. -/
theorem Represents.lookup_eq (h : Represents size d m) (hvalue : 0 ≤ value) :
  lookup d value = .ok (m value)
  := by
  rw [lookup, h.getHandler_eq hvalue, ← h.entry value hvalue]
  split
  · rfl
  · rename_i hge
    have hlen := h.size_eq
    have hnone : d.handlers[value.toNat]? = none := List.getElem?_eq_none (by omega)
    rw [hnone]
    rfl

/-- Writing to an entry of the array changes the map at its value. -/
theorem Represents.write (h : Represents size d m) (hvalue : 0 ≤ value) (hlt : value < size)
    (handler : PacketHandler A U P) :
  ∃ d', d.write handler (.array value.toNat) = .ok d' ∧
    Represents size d' (Function.update m value (some handler))
  := by
  have hlen := h.size_eq
  refine ⟨_, rfl, ⟨by rw [List.length_set, hlen], h.odd_eq, ?_⟩⟩
  intro v hv
  rcases eq_or_ne v value with rfl | hne
  · rw [Function.update_self, List.getElem?_set_self (by omega)]
  · rw [Function.update_of_ne hne, List.getElem?_set_ne (by omega), h.entry v hv]

/-! ### Calls -/

section Functions

variable {body : Body A U P}

theorem Represents.createHandler (h : Represents size d m) (hvalue : 0 ≤ value)
    (hlt : value < size) (stray : Option ℕ) :
  ∃ d', dispatcherCreateHandler stray d value body = .ok d' ∧
    Represents size d' (Function.update m value (some body.handler))
  := by
  obtain ⟨d', hwrite, hrep⟩ := h.write hvalue hlt body.handler
  refine ⟨d', ?_, hrep⟩
  simp only [dispatcherCreateHandler, h.size_eq, if_pos hlt, if_neg (not_lt.mpr hvalue)]
  exact hwrite

/-- The block for a value at or above the size is written to behind its end. -/
theorem Represents.createHandler_overrun (h : Represents size d m) (hge : size ≤ value)
    (stray : Option ℕ) :
  dispatcherCreateHandler stray d value body = .error .overrun
  := by
  simp only [dispatcherCreateHandler, h.size_eq, if_neg (not_lt.mpr hge), h.odd_eq, if_true]
  rfl

theorem Represents.setPacketBody (h : Represents size d m) (hvalue : 0 ≤ value)
    (hlt : value < size) (stray : Option ℕ) :
  ∃ d', dispatcherSetPacketBody stray d value body = .ok d' ∧
    Represents size d' (Function.update m value (some body.handler))
  := by
  obtain ⟨d', hwrite, hrep⟩ := h.write hvalue hlt body.handler
  refine ⟨d', ?_, hrep⟩
  rw [dispatcherSetPacketBody, h.getHandler_eq hvalue, if_pos hlt]
  exact hwrite

theorem Represents.setPacketBody_overrun (h : Represents size d m) (hvalue : 0 ≤ value)
    (hge : size ≤ value) (stray : Option ℕ) :
  dispatcherSetPacketBody stray d value body = .error .overrun
  := by
  rw [dispatcherSetPacketBody, h.getHandler_eq hvalue, if_neg (not_lt.mpr hge)]
  apply h.createHandler_overrun hge stray

theorem Represents.setPacketHandlers (h : Represents size d m) (hvalue : 0 ≤ value)
    (unpack : Option U) (process : Option P) :
  ∃ d' found, dispatcherSetPacketHandlers d value unpack process = .ok (d', found) ∧
    Represents size d' (Function.update m value
      ((m value).map fun handler => { handler with unpack := unpack, process := process }))
  := by
  have hlen := h.size_eq
  rw [dispatcherSetPacketHandlers, h.getHandler_eq hvalue, ← h.entry value hvalue]
  by_cases hin : value < size
  · have hget := List.getElem?_eq_getElem (show value.toNat < d.handlers.length by omega)
    obtain ⟨d', hwrite, hrep⟩ := h.write hvalue hin
      { d.handlers[value.toNat] with unpack := unpack, process := process }
    refine ⟨d', true, ?_, ?_⟩
    · simp only [if_pos hin, Dispatcher.read, hget, hwrite]
      rfl
    · rw [hget]
      exact hrep
  · have hnone : d.handlers[value.toNat]? = none := List.getElem?_eq_none (by omega)
    refine ⟨d, false, ?_, ?_⟩
    · rw [if_neg hin]
    · rw [hnone, Option.map_none, ← hnone, h.entry value hvalue, Function.update_eq_self]
      exact h

end Functions

/-- A call that registers no value at or above the size updates the map. -/
theorem Represents.step (h : Represents size d m) (hvalue : 0 ≤ c.value)
    (hlt : c.registers = true → c.value < size) (stray : Option ℕ) :
  ∃ d', step d (stray, c) = .ok d' ∧ Represents size d' (c.apply m)
  := by
  cases c with
  | setPacketBody value body => apply h.setPacketBody hvalue (hlt rfl) stray
  | createHandler value body => apply h.createHandler hvalue (hlt rfl) stray
  | setPacketHandlers value unpack process =>
      obtain ⟨d', found, hset, hrep⟩ := h.setPacketHandlers hvalue unpack process
      exact ⟨d', Except.map_eq_ok.mpr ⟨(d', found), hset, rfl⟩, hrep⟩

/-- A call that registers a value at or above the size writes behind the end of a block. -/
theorem Represents.step_overrun (h : Represents size d m) (hvalue : 0 ≤ c.value)
    (hreg : c.registers = true) (hge : size ≤ c.value) (stray : Option ℕ) :
  HandlerTable.step d (stray, c) = .error .overrun
  := by
  cases c with
  | setPacketBody value body => apply h.setPacketBody_overrun hvalue hge stray
  | createHandler value body => apply h.createHandler_overrun hge stray
  | setPacketHandlers value unpack process => cases hreg

/-- A list of calls that registers no value at or above the size updates the map call by
call. -/
theorem Represents.run (h : Represents size d m) (hvalue : ∀ c ∈ calls, 0 ≤ c.2.value)
    (hlt : ∀ c ∈ calls, c.2.registers = true → c.2.value < size) :
  ∃ d', Machine.run HandlerTable.step d calls = .ok d' ∧
    Represents size d' (calls.foldl (fun m c => c.2.apply m) m)
  := by
  induction calls generalizing d m with
  | nil => exact ⟨d, rfl, h⟩
  | cons c calls ih =>
      obtain ⟨stray, call⟩ := c
      obtain ⟨d₁, hstep, h₁⟩ :=
        h.step (hvalue _ List.mem_cons_self) (hlt _ List.mem_cons_self) stray
      obtain ⟨d', hrun, h'⟩ := ih h₁ (fun c hc => hvalue c (List.mem_cons_of_mem _ hc))
        (fun c hc => hlt c (List.mem_cons_of_mem _ hc))
      exact ⟨d', Machine.run_cons_eq_ok.mpr ⟨d₁, hstep, hrun⟩, h'⟩

/-- A list of calls that ends well registers no value at or above the size. -/
theorem Represents.lt_of_run (h : Represents size d m) (hvalue : ∀ c ∈ calls, 0 ≤ c.2.value)
    (hrun : Machine.run HandlerTable.step d calls = .ok d') :
  ∀ c ∈ calls, c.2.registers = true → c.2.value < size
  := by
  induction calls generalizing d m with
  | nil => simp
  | cons c calls ih =>
      obtain ⟨stray, call⟩ := c
      obtain ⟨d₁, hstep, hrun₁⟩ := Machine.run_cons_eq_ok.mp hrun
      have hcall := hvalue _ List.mem_cons_self
      have hlt : call.registers = true → call.value < size := by
        intro hreg
        by_contra hge
        rw [h.step_overrun hcall hreg (not_lt.mp hge)] at hstep
        cases hstep
      obtain ⟨d₂, hstep₂, h₂⟩ := h.step hcall hlt stray
      rw [hstep, Except.ok.injEq] at hstep₂
      subst hstep₂
      intro c hc
      rcases List.mem_cons.mp hc with rfl | hc
      · exact hlt
      · apply ih h₂ (fun c hc => hvalue c (List.mem_cons_of_mem _ hc)) hrun₁ c hc

/-- A list of calls with values that are not negative makes the dispatcher the map they describe
if and only if none of them registers a value at or above the size. -/
theorem dispatcher_is_map_iff (size : ℕ) (calls : List (Option ℕ × Call A U P))
    (hvalue : ∀ c ∈ calls, 0 ≤ c.2.value) :
  (∃ d, Machine.run HandlerTable.step (newDispatcher size) calls = .ok d ∧
      ∀ value, 0 ≤ value → lookup d value = .ok (mapAfter size calls value)) ↔
    ∀ c ∈ calls, c.2.registers = true → c.2.value < size
  := by
  constructor
  · rintro ⟨d, hrun, -⟩
    exact (Represents.newDispatcher size).lt_of_run hvalue hrun
  · intro hlt
    obtain ⟨d, hrun, hrep⟩ := (Represents.newDispatcher size).run hvalue hlt
    exact ⟨d, hrun, fun value hv => hrep.lookup_eq hv⟩

/-- The handler of a sample call, with a number for each function. -/
def sampleBody (name : String) (k : ℕ) : Body ℕ ℕ ℕ :=
  ⟨name, k, some k, some k⟩

/-- Calls for types below the size `3`, and one for a type above it that is not registered. -/
def sampleCalls : List (Option ℕ × Call ℕ ℕ ℕ) :=
  [(none, .setPacketBody 2 (sampleBody "PING" 7)), (none, .createHandler 0 (sampleBody "DATA" 8)),
    (none, .setPacketHandlers 2 none (some 9)), (none, .setPacketHandlers 4 none none)]

/-- After these calls the handler for `2` has the name and argument of the first call and the
functions of the third. -/
theorem dispatcher_is_map_iff_sample :
  ∃ d, Machine.run HandlerTable.step (newDispatcher 3) sampleCalls = .ok d ∧
    lookup d 2 = .ok (some ⟨some "PING", [7], none, some 9⟩) ∧ lookup d 4 = .ok none
  := by
  obtain ⟨d, hrun, hlookup⟩ := (dispatcher_is_map_iff 3 sampleCalls (by decide)).mpr (by decide)
  exact ⟨d, hrun, hlookup 2 (by decide), hlookup 4 (by decide)⟩

/-- The first handler at or above the size cannot be registered.  Were there room for it, and did
the walk start at the head of the list, the values `5`, `7` and `6` would be linked in this order,
and `6` would not be found. -/
theorem dispatcher_not_map :
  (¬ ∃ d, Machine.run HandlerTable.step (newDispatcher 1)
        [(none, .setPacketBody 5 (sampleBody "PING" 7))] = .ok d ∧
      ∀ value, 0 ≤ value → lookup d value
        = .ok (mapAfter 1 [(none, .setPacketBody 5 (sampleBody "PING" 7))] value)) ∧
    (linkOdd 6 0 (linkOdd 7 0 [⟨5, (sampleBody "PING" 7).handler⟩]).1).1.map (·.value)
      = [5, 7, 6] ∧
    getOdd 6 (linkOdd 6 0 (linkOdd 7 0 [⟨5, (sampleBody "PING" 7).handler⟩]).1).1 0 = none
  := by
  refine ⟨?_, by decide, by decide⟩
  rintro ⟨d, hrun, -⟩
  have hfault : Machine.run HandlerTable.step (newDispatcher 1)
      [(none, .setPacketBody 5 (sampleBody "PING" 7))] = .error .overrun := by
    decide
  rw [hfault] at hrun
  cases hrun

/-! ### The dispatcher of packets -/

section Forget

variable {R : Type} {handler : Tangent.PacketHandler R}

/-- The dispatcher as far as datagrams are concerned: the names and the arguments are left out. -/
def forget (d : Dispatcher A U (Tangent.PacketHandler R)) : Tangent.Dispatcher R :=
  ⟨d.handlers.map (·.process), []⟩

theorem forget_newDispatcher (size : ℕ) :
  forget (newDispatcher size : Dispatcher A U (Tangent.PacketHandler R))
    = Tangent.newDispatcher size
  := by
  simp [forget, newDispatcher, Tangent.newDispatcher, PacketHandler.zero]

/-- `dispatcher_set_packet_body` does the same to both. -/
theorem Represents.forget_setPacketBody {d : Dispatcher A U (Tangent.PacketHandler R)}
    {m : ℤ → Option (PacketHandler A U (Tangent.PacketHandler R))} (h : Represents size d m)
    (hvalue : 0 ≤ value) (stray : Option ℕ) {body : Body A U (Tangent.PacketHandler R)}
    (hbody : body.process = some handler) {e : Tangent.Dispatcher R} :
  Tangent.dispatcherSetPacketBody (forget d) value handler = .ok e ↔
    ∃ d', dispatcherSetPacketBody stray d value body = .ok d' ∧ forget d' = e
  := by
  have hlen : (forget d).handlers.length = size := by
    simp [forget, h.size_eq]
  by_cases hlt : value < size
  · have hget : (forget d).handlers[value.toNat]? = some (forget d).handlers[value.toNat] :=
      List.getElem?_eq_getElem (by omega)
    have hinit : Tangent.initHandler (forget d) value handler
        = forget { d with handlers := d.handlers.set value.toNat body.handler } := by
      simp [Tangent.initHandler, forget, h.size_eq, hlt, List.map_set, Body.handler, hbody]
    simp only [Tangent.dispatcherSetPacketBody, Tangent.getHandler, hlen, if_pos hlt,
      if_neg (not_lt.mpr hvalue), hget, hinit, dispatcherSetPacketBody, h.getHandler_eq hvalue]
    simp [initHandler, Dispatcher.write]
  · rw [h.setPacketBody_overrun hvalue (not_lt.mp hlt)]
    simp only [Tangent.dispatcherSetPacketBody, Tangent.getHandler, if_neg hlt, forget,
      Tangent.getOddHandler, Option.map_none, Tangent.dispatcherCreateHandler, List.length_map,
      h.size_eq]
    simp

end Forget

end Tangent.HandlerTable
