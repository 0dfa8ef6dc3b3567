import Tangent.Model.Message

/-!
# The finger table

`finger.c`.  A walk from `tail_flist` along `prev` is a walk over the reversed list.  A
pointer to a finger of the list is the identifier of its node: it does not change while
the finger is in the list, and `insert_finger` adds no finger under an identifier that is
already there.
-/

namespace Tangent

/-- `new_finger`. -/
def newFinger (node : Node) : Finger :=
  ⟨node, .passive, 0, 0, 0⟩

/-- `succ_finger`. -/
def succFinger (srv : ChordServer) : Option Finger :=
  srv.flist.find? Finger.isActive

/-- `pred_finger`. -/
def predFinger (srv : ChordServer) : Option Finger :=
  srv.flist.reverse.find? Finger.isActive

/-- `closest_preceding_finger`. -/
def closestPrecedingFinger (srv : ChordServer) (id : ChordID) (fall : Bool) :
    Option Finger :=
  srv.flist.reverse.find? fun f =>
    (fall || f.isActive) && idIsBetween f.node.id srv.node.id id

/-- `closest_preceding_node`. -/
def closestPrecedingNode (srv : ChordServer) (id : ChordID) (fall : Bool) : Node :=
  match closestPrecedingFinger srv id fall with
  | none => srv.node
  | some f => f.node

/-- `get_finger`. -/
def getFinger (srv : ChordServer) (id : ChordID) : Option Finger :=
  srv.flist.find? fun f => idEquals id f.node.id

/-- The loop of `get_worst_passive_finger`. -/
def worstPassiveLoop : List Finger → Option Finger → ℤ → Option Finger
  | [], worst, _ => worst
  | f :: fs, worst, record =>
      if f.isPassive ∧ record < f.npings then
        if pingThresh - 1 ≤ f.npings then some f else worstPassiveLoop fs (some f) f.npings
      else
        worstPassiveLoop fs worst record

/-- `get_worst_passive_finger`. -/
def getWorstPassiveFinger (srv : ChordServer) : Option Finger :=
  worstPassiveLoop srv.flist none (-1)

/-- Apply `g` to the finger with identifier `id`. -/
def modifyFinger (srv : ChordServer) (id : ChordID) (g : Finger → Finger) : ChordServer :=
  { srv with flist := srv.flist.map fun f => if f.node.id = id then g f else f }

/-- Link the finger `f` right behind the finger with identifier `id`. -/
def insertAfter (id : ChordID) (f : Finger) : List Finger → List Finger
  | [] => []
  | g :: gs => if g.node.id = id then g :: f :: gs else g :: insertAfter id f gs

/-- `fingerlist_insert`. -/
def fingerlistInsert (srv : ChordServer) (newF : Finger) : ChordServer :=
  if srv.flist = [] then
    { srv with flist := [newF] }
  else
    match closestPrecedingFinger srv newF.node.id true with
    | none => { srv with flist := newF :: srv.flist }
    | some prec => { srv with flist := insertAfter prec.node.id newF srv.flist }

/-- `activate_finger`. -/
def activateFinger (srv : ChordServer) (f : Finger) : ChordServer :=
  if f.isPassive then
    { modifyFinger srv f.node.id (fun f => { f with status := .active }) with
      numPassiveFingers := srv.numPassiveFingers - 1 }
  else
    srv

/-- Take the finger with identifier `id` out of the list. -/
def unlinkFinger (srv : ChordServer) (id : ChordID) : ChordServer :=
  { srv with flist := srv.flist.eraseP fun f => f.node.id = id }

/-- The end of `remove_finger`: update the range if the predecessor is no longer `pred`. -/
def refreshRange (srv : ChordServer) (pred : Option Finger) : ChordServer :=
  let pf := predFinger srv
  if pred.map (·.node.id) ≠ pf.map (·.node.id) then
    match pf with
    | none => chordUpdateRange srv srv.node.id srv.node.id
    | some pf => chordUpdateRange srv pf.node.id srv.node.id
  else
    srv

/-- `remove_finger`. -/
def removeFinger (srv : ChordServer) (f : Finger) : ChordServer :=
  let srv :=
    if f.isPassive then { srv with numPassiveFingers := srv.numPassiveFingers - 1 } else srv
  refreshRange (unlinkFinger srv f.node.id) (predFinger srv)

/-- What `insert_finger` stores in a finger whose peer it replaces. -/
def replacePeer (addr : In6Addr) (port : UInt16) (f : Finger) : Finger :=
  { f with node := { f.node with addr := addr, port := port }
           rttAvg := 0
           rttDev := 0
           npings := 0 }

/-- What `insert_finger` leaves behind: the server, the identifier of the finger it
returns, if any, and what it stored through `fnew`, if anything. -/
structure Inserted where
  srv : ChordServer
  finger : Option ChordID
  fnew : Option Bool
  deriving DecidableEq

/-- The part of `insert_finger` that makes room for one more passive finger. -/
def evictPassive (srv : ChordServer) : Except Fault ChordServer :=
  if maxPassiveFingers ≤ srv.numPassiveFingers then
    match getWorstPassiveFinger srv with
    | none => .error .assertion
    | some worst => .ok (removeFinger srv worst)
  else
    .ok srv

/-- `insert_finger`. -/
def insertFinger (srv : ChordServer) (id : ChordID) (addr : In6Addr) (port : UInt16) :
    Except Fault Inserted :=
  if v6AddrEquals srv.node.addr addr ∧ srv.node.port = port then
    .ok ⟨srv, none, none⟩
  else
    match getFinger srv id with
    | some f =>
        if ¬ v6AddrEquals f.node.addr addr then
          .ok ⟨modifyFinger srv f.node.id (replacePeer addr port), some f.node.id, some false⟩
        else
          .ok ⟨srv, some f.node.id, some false⟩
    | none => do
        let srv ← evictPassive srv
        let srv := { srv with numPassiveFingers := srv.numPassiveFingers + 1 }
        let newF := newFinger ⟨id, addr, port⟩
        pure ⟨fingerlistInsert srv newF, some id, some true⟩

end Tangent
