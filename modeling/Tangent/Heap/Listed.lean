import Mathlib.Data.List.DropRight
import Tangent.Model.Heap

/-!
# The finger list as a list of pointers

What the functions of `Model.Heap` are meant to do: the same functions over a list of fingers, each
with its address, in place of links.  Searches go through the list or its reverse, a new finger
goes behind the last of the fingers that precede it, and a removed one is erased.  Two fingers are
the same if they have the same address; nothing is assumed of their identifiers.
-/

namespace Tangent

open DoublyLinked

/-- A server with a list of fingers and their addresses. -/
structure ListedServer (A : Type) where
  members : ChordServer
  fingers : List (A × Finger)

/-- Put `x` right behind the last element that satisfies `P`; without one, in front. -/
def insertBehindLast {α : Type*} (P : α → Bool) (x : α) (l : List α) : List α :=
  l.rdropWhile (fun y => !P y) ++ x :: l.rtakeWhile (fun y => !P y)

namespace ListedServer

variable {A : Type}

/-! ### Searches -/

/-- The last active finger. -/
def predFinger (srv : ListedServer A) : Option (A × Finger) :=
  srv.fingers.reverse.find? fun e => e.2.isActive

/-- The first finger with an identifier. -/
def getFinger (srv : ListedServer A) (id : ChordID) : Option (A × Finger) :=
  srv.fingers.find? fun e => idEquals id e.2.node.id

/-- The passive finger with the most unanswered pings, the first one of several, or the first with
at least `pingThresh - 1`. -/
def worstPassiveLoop : List (A × Finger) → Option (A × Finger) → ℤ → Option (A × Finger)
  | [], worst, _ => worst
  | e :: es, worst, record =>
      if e.2.isPassive ∧ record < e.2.npings then
        if pingThresh - 1 ≤ e.2.npings then some e else worstPassiveLoop es (some e) e.2.npings
      else
        worstPassiveLoop es worst record

/-! ### Changes of the list -/

/-- Count one passive finger more, or with `-1` one less. -/
def countPassive (srv : ListedServer A) (n : ℤ) : ListedServer A :=
  { srv with
    members := { srv.members with numPassiveFingers := srv.members.numPassiveFingers + n } }

/-- Link a finger in right behind the last finger that precedes it. -/
def fingerlistInsert (srv : ListedServer A) (e : A × Finger) : ListedServer A :=
  { srv with
    fingers := insertBehindLast
      (fun g => idIsBetween g.2.node.id srv.members.node.id e.2.node.id) e srv.fingers }

/-- The range from the last active finger to the server, or all of the circle. -/
def updateRange (srv : ListedServer A) : ListedServer A :=
  { srv with
    members := chordUpdateRange srv.members
      ((srv.predFinger.map (·.2.node.id)).getD srv.members.node.id) srv.members.node.id }

variable [DecidableEq A]

/-- Change the finger at an address. -/
def modifyFinger (srv : ListedServer A) (a : A) (u : Finger → Finger) : ListedServer A :=
  { srv with fingers := srv.fingers.map fun e => if e.1 = a then (e.1, u e.2) else e }

/-- Take out the finger at an address. -/
def unlink (srv : ListedServer A) (a : A) : ListedServer A :=
  { srv with fingers := srv.fingers.eraseP fun e => e.1 = a }

/-- Update the range if the last active finger is no longer the one at `pred`. -/
def refreshRange (srv : ListedServer A) (pred : Option A) : ListedServer A :=
  if pred ≠ srv.predFinger.map Prod.fst then srv.updateRange else srv

/-- `remove_finger`. -/
def removeFinger (srv : ListedServer A) (e : A × Finger) : ListedServer A :=
  let srv := if e.2.isPassive then srv.countPassive (-1) else srv
  (srv.unlink e.1).refreshRange (srv.predFinger.map Prod.fst)

/-- The part of `insert_finger` that makes room for one more passive finger. -/
def evictPassive (srv : ListedServer A) : Except HeapFault (ListedServer A) :=
  if maxPassiveFingers ≤ srv.members.numPassiveFingers then
    match worstPassiveLoop srv.fingers none (-1) with
    | none => .error .assertion
    | some worst => .ok (srv.removeFinger worst)
  else
    .ok srv

/-- The branch of `insert_finger` for a finger that is not in the list. -/
def insertNew (srv : ListedServer A) (choice : Option A) (node : Node) :
    Except HeapFault (ListedServer A × Option (A × Finger)) := do
  let srv ← srv.evictPassive
  match choice with
  | none => .error .noMemory
  | some a =>
      let e := (a, newFinger node)
      return ((srv.countPassive 1).fingerlistInsert e, some e)

/-- `insert_finger`: the server, and the finger it returns. -/
def insertFinger (srv : ListedServer A) (choice : Option A) (node : Node) :
    Except HeapFault (ListedServer A × Option (A × Finger)) :=
  if v6AddrEquals srv.members.node.addr node.addr ∧ srv.members.node.port = node.port then
    .ok (srv, none)
  else
    match srv.getFinger node.id with
    | some e =>
        if ¬ v6AddrEquals e.2.node.addr node.addr then
          .ok (srv.modifyFinger e.1 (replacePeer node.addr node.port),
            some (e.1, replacePeer node.addr node.port e.2))
        else
          .ok (srv, some e)
    | none => srv.insertNew choice node

/-- `activate_finger`. -/
def activateFinger (srv : ListedServer A) (e : A × Finger) : ListedServer A :=
  if e.2.isPassive then
    (srv.countPassive (-1)).modifyFinger e.1 fun f => { f with status := .active }
  else
    srv

/-- The part of `process_pong` that deals with a finger. -/
def acceptPong (srv : ListedServer A) (e : A × Finger) (newRtt : ℤ) : ListedServer A :=
  let srv := srv.modifyFinger e.1 (refreshFinger newRtt)
  (srv.activateFinger (e.1, refreshFinger newRtt e.2)).refreshRange
    (srv.predFinger.map Prod.fst)

/-! ### Pinging -/

/-- The variables of the loop of `ping`. -/
structure PingState (A : Type) where
  srv : ListedServer A
  acts : List Action
  pinged : Option A

section Ping

variable (L : Library) (io : Io)

/-- The loop of `ping`, over the fingers from the `i`-th on. -/
def pingLoop : List (A × Finger) → ℕ → PingState A → PingState A
  | [], _, st => st
  | e :: es, i, st =>
      if pingThresh ≤ e.2.npings then
        pingLoop es (i + 1) { st with srv := st.srv.removeFinger e }
      else if e.2.npings ≠ 0 ∨ st.srv.members.toPing = i then
        pingLoop es (i + 1)
          { srv := st.srv.modifyFinger e.1 countPing
            acts := sendPing L io st.srv.members st.acts e.2.node.addr e.2.node.port
            pinged := if st.srv.members.toPing = i then some e.1 else st.pinged }
      else
        pingLoop es (i + 1) st

/-- `ping`. -/
def ping (srv : ListedServer A) : ListedServer A × List Action :=
  let st := pingLoop L io srv.fingers 0 ⟨srv, [], none⟩
  let toPing :=
    if st.pinged = none ∨ st.pinged = last st.srv.fingers then 0
    else st.srv.members.toPing + 1
  ({ st.srv with members := { st.srv.members with toPing := toPing } }, st.acts)

end Ping

/-! ### Cleaning -/

/-- The inner loop of `clean_finger_list`, from the finger `f` back over the fingers `fs`: the
server, and the next `f` and `fs` unless the function returns. -/
def cleanRemove (lastsucc : A) (id : ChordID) :
    A × Finger → List (A × Finger) → ListedServer A →
      ListedServer A × Option ((A × Finger) × List (A × Finger))
  | _, [], srv => (srv, none)
  | f, p :: fs, srv =>
      if f.1 = lastsucc then
        (srv, none)
      else if idIsBetween p.2.node.id id f.2.node.id || idEquals p.2.node.id id then
        cleanRemove lastsucc id p fs (srv.removeFinger f)
      else
        (srv, some (p, fs))

/-- The outer loop of `clean_finger_list`, with `k` powers of two left. -/
def cleanLoop (lastsucc lastpred : A × Finger) :
    ℕ → A × Finger → List (A × Finger) → ListedServer A → ListedServer A
  | 0, _, _, srv => srv
  | k + 1, f, fs, srv =>
      if f.1 = lastsucc.1 then
        srv
      else
        let id := chordIdSuccessor srv.members.node.id k
        if idIsBetween id lastpred.2.node.id srv.members.node.id ||
            idEquals id lastpred.2.node.id then
          cleanLoop lastsucc lastpred k f fs srv
        else if idIsBetween id srv.members.node.id lastsucc.2.node.id ||
            idEquals id srv.members.node.id then
          srv
        else if idIsBetween f.2.node.id srv.members.node.id id then
          cleanLoop lastsucc lastpred k f fs srv
        else
          match cleanRemove lastsucc.1 id f fs srv with
          | (srv, none) => srv
          | (srv, some (f, fs)) => cleanLoop lastsucc lastpred k f fs srv

/-- `clean_finger_list`. -/
def cleanFingerList (srv : ListedServer A) : ListedServer A :=
  match srv.fingers.drop (nsuccessors - 1), srv.fingers.reverse with
  | lastsucc :: _ :: _, p₀ :: p₁ :: lastpred :: f :: fs =>
      if p₀.1 = lastsucc.1 ∨ p₁.1 = lastsucc.1 then srv
      else cleanLoop lastsucc lastpred nfingers f fs srv
  | _, _ => srv

/-! ### Runs -/

/-- The part of `process_pong` behind the check of the ticket. -/
def processPong (srv : ListedServer A) (choice : Option A) (node : Node) (newRtt : ℤ) :
    Except HeapFault (ListedServer A) := do
  match ← srv.insertFinger choice node with
  | (srv, none) => pure srv
  | (srv, some e) => pure (srv.acceptPong e newRtt)

/-- The server after an operation. -/
def step (L : Library) (srv : ListedServer A) : HeapServer.Op A → Except HeapFault (ListedServer A)
  | .insert choice node => (srv.insertFinger choice node).map Prod.fst
  | .pong choice node newRtt => srv.processPong choice node newRtt
  | .ping io => .ok (srv.ping L io).1
  | .clean => .ok srv.cleanFingerList

/-- The server after a list of operations. -/
def run (L : Library) (srv : ListedServer A) (ops : List (HeapServer.Op A)) :
    Except HeapFault (ListedServer A) :=
  Machine.run (step L) srv ops

end ListedServer

end Tangent
