import Tangent.Machine

/-!
# The table of handlers

The functions of `dispatcher.c` that register handlers, with all they store: the name of a
packet, the arguments and the functions.  An entry of the array is zero until it is set.  The
handlers for types at or above the size are in the linked list `odd`; a pointer to a node of it
is the position of the node.  `free` is left out, and so are failing allocations.
-/

namespace Tangent.HandlerTable

/-- A `packet_handler`.  Pointers that are null are `none`; `nargs` is the length of
`processArgs`. -/
structure PacketHandler (A U P : Type*) where
  name : Option String
  processArgs : List A
  unpack : Option U
  process : Option P
  deriving DecidableEq

/-- An `odd_packet_handler`. -/
structure OddPacketHandler (A U P : Type*) where
  value : ℤ
  handler : PacketHandler A U P
  deriving DecidableEq

/-- A `Dispatcher`; its `size` is the length of the array. -/
structure Dispatcher (A U P : Type*) where
  handlers : List (PacketHandler A U P)
  odd : List (OddPacketHandler A U P)
  deriving DecidableEq

/-- What `init_handler` is given. -/
structure Body (A U P : Type*) where
  name : String
  arg : A
  unpack : Option U
  process : Option P

/-- What goes wrong: the array is used outside its bounds, a block is written to behind its end,
or the walk along the odd handlers starts at a pointer to no node. -/
inductive Fault where
  | handlers
  | overrun
  | uninitialised
  deriving DecidableEq

/-- A pointer to a `packet_handler`. -/
inductive Slot where
  | array (i : ℕ)
  | odd (k : ℕ)
  deriving DecidableEq

variable {A U P : Type*}

/-- The `packet_handler` `calloc` makes. -/
def PacketHandler.zero : PacketHandler A U P :=
  ⟨none, [], none, none⟩

/-- `sizeof(struct packet_handler)`, with pointers of eight bytes. -/
def packetHandlerSize : ℕ := 40

/-- `sizeof(struct odd_packet_handler)`: it holds a `value`, a pointer and a `packet_handler`. -/
def oddPacketHandlerSize : ℕ := 16 + packetHandlerSize

/-- `new_dispatcher`. -/
def newDispatcher (size : ℕ) : Dispatcher A U P :=
  ⟨List.replicate size .zero, []⟩

/-- The loop of `get_handler` over the odd handlers, the first of which is at position `k`. -/
def getOdd (value : ℤ) : List (OddPacketHandler A U P) → ℕ → Option ℕ
  | [], _ => none
  | o :: odd, k =>
      if o.value < value then getOdd value odd (k + 1)
      else if o.value = value then some k
      else none

/-- `get_handler`. -/
def getHandler (d : Dispatcher A U P) (value : ℤ) : Except Fault (Option Slot) :=
  if value < d.handlers.length then
    if value < 0 then .error .handlers else .ok (some (.array value.toNat))
  else
    .ok ((getOdd value d.odd 0).map .odd)

/-- The `packet_handler` a pointer points to. -/
def Dispatcher.read (d : Dispatcher A U P) : Slot → Option (PacketHandler A U P)
  | .array i => d.handlers[i]?
  | .odd k => d.odd[k]?.map (·.handler)

/-- Write to a `packet_handler`.  The blocks of odd handlers have the size of a
`packet_handler`. -/
def Dispatcher.write (d : Dispatcher A U P) (handler : PacketHandler A U P) :
    Slot → Except Fault (Dispatcher A U P)
  | .array i => .ok { d with handlers := d.handlers.set i handler }
  | .odd k =>
      if packetHandlerSize < oddPacketHandlerSize then
        .error .overrun
      else
        .ok { d with odd := d.odd.modify k fun o => { o with handler := handler } }

/-- What is found for a value, by `dispatcher_get_packet_name` and `dispatch_packet`. -/
def lookup (d : Dispatcher A U P) (value : ℤ) : Except Fault (Option (PacketHandler A U P)) :=
  (getHandler d value).map fun slot => slot.bind d.read

/-- The `packet_handler` `init_handler` makes. -/
def Body.handler (body : Body A U P) : PacketHandler A U P :=
  ⟨some body.name, [body.arg], body.unpack, body.process⟩

/-- `init_handler`. -/
def initHandler (d : Dispatcher A U P) (slot : Slot) (body : Body A U P) :
    Except Fault (Dispatcher A U P) :=
  d.write body.handler slot

/-- The `while` loop of `dispatcher_create_handler`: the number of nodes it passes, given the nodes
behind the one it starts at. -/
def oddWalk (value : ℤ) : List (OddPacketHandler A U P) → ℕ
  | [] => 0
  | o :: odd => if value < o.value then oddWalk value odd + 1 else 0

/-- The walk along the odd handlers from the position `start`: the list with a node for the value,
and the position of the node. -/
def linkOdd (value : ℤ) (start : ℕ) (odd : List (OddPacketHandler A U P)) :
    List (OddPacketHandler A U P) × ℕ :=
  let k := start + oddWalk value (odd.drop (start + 1))
  match odd[k + 1]? with
  | none => (odd ++ [⟨value, .zero⟩], k + 1)
  | some next =>
      if next.value = value then (odd, k + 1)
      else (odd.insertIdx (k + 1) ⟨value, .zero⟩, k + 1)

/-- `dispatcher_create_handler`.  If there are odd handlers, the walk starts at a pointer that
has not been set; `stray` is the node it happens to point to. -/
def dispatcherCreateHandler (stray : Option ℕ) (d : Dispatcher A U P) (value : ℤ)
    (body : Body A U P) : Except Fault (Dispatcher A U P) :=
  if value < d.handlers.length then
    if value < 0 then .error .handlers else initHandler d (.array value.toNat) body
  else if d.odd = [] then
    initHandler { d with odd := [⟨value, .zero⟩] } (.odd 0) body
  else
    match stray with
    | none => .error .uninitialised
    | some start =>
        if d.odd.length ≤ start then
          .error .uninitialised
        else
          let linked := linkOdd value start d.odd
          initHandler { d with odd := linked.1 } (.odd linked.2) body

/-- `dispatcher_set_packet_body`. -/
def dispatcherSetPacketBody (stray : Option ℕ) (d : Dispatcher A U P) (value : ℤ)
    (body : Body A U P) : Except Fault (Dispatcher A U P) :=
  match getHandler d value with
  | .error fault => .error fault
  | .ok none => dispatcherCreateHandler stray d value body
  | .ok (some slot) => initHandler d slot body

/-- `dispatcher_set_packet_handlers`, with what it returns. -/
def dispatcherSetPacketHandlers (d : Dispatcher A U P) (value : ℤ) (unpack : Option U)
    (process : Option P) : Except Fault (Dispatcher A U P × Bool) :=
  match getHandler d value with
  | .error fault => .error fault
  | .ok none => .ok (d, false)
  | .ok (some slot) =>
      match d.read slot with
      | none => .error .handlers
      | some handler =>
          (d.write { handler with unpack := unpack, process := process } slot).map (·, true)

/-- A call of one of the three functions. -/
inductive Call (A U P : Type*) where
  | setPacketBody (value : ℤ) (body : Body A U P)
  | createHandler (value : ℤ) (body : Body A U P)
  | setPacketHandlers (value : ℤ) (unpack : Option U) (process : Option P)

/-- A call, and what the pointer that is not set happens to point to. -/
def step (d : Dispatcher A U P) : Option ℕ × Call A U P → Except Fault (Dispatcher A U P)
  | (stray, .setPacketBody value body) => dispatcherSetPacketBody stray d value body
  | (stray, .createHandler value body) => dispatcherCreateHandler stray d value body
  | (_, .setPacketHandlers value unpack process) =>
      (dispatcherSetPacketHandlers d value unpack process).map (·.1)

end Tangent.HandlerTable
