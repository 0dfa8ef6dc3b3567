import Tangent.DoublyLinked
import Tangent.Machine
import Tangent.Model.Stabilize

/-!
# The finger list in memory

`finger.c`, and of `stabilize.c` and `process.c` what changes the finger list, with the list as it
lies in memory: `flist.head` is `head_flist`, `flist.tail` is `tail_flist`, and `flist.heap` holds
the fingers with their `next` and `prev`.  A pointer is an address, or `none` for `NULL`; the type
of addresses is arbitrary.  The use of a pointer that is `NULL` or has been freed is a fault.

A loop along the links of a heap need not end.  A loop of the source makes at most `fuel` turns
here, and faults if it would make more.
-/

namespace Tangent

open DoublyLinked

/-- What ends the process, and what ends a loop that takes too long. -/
inductive HeapFault where
  | assertion
  | badPointer
  | overrun
  | noMemory
  | noFuel
  deriving DecidableEq

/-- A `ChordServer` whose fingers lie in memory.  The members other than the list are those of
`members`, of which the list is not used. -/
structure HeapServer (A : Type) where
  members : ChordServer
  flist : Store A Finger

namespace HeapServer

variable {A : Type} [DecidableEq A]

/-! ### Pointers -/

/-- The finger a pointer points to. -/
def read (srv : HeapServer A) (p : Option A) : Except HeapFault (Cell A Finger) :=
  match p.bind srv.flist.heap with
  | some c => .ok c
  | none => .error .badPointer

/-- `p->next = q`. -/
def writeNext (srv : HeapServer A) (p q : Option A) : Except HeapFault (HeapServer A) :=
  match p with
  | none => .error .badPointer
  | some a => (srv.read p).map fun _ => { srv with flist := srv.flist.setNext a q }

/-- `p->prev = q`. -/
def writePrev (srv : HeapServer A) (p q : Option A) : Except HeapFault (HeapServer A) :=
  match p with
  | none => .error .badPointer
  | some a => (srv.read p).map fun _ => { srv with flist := srv.flist.setPrev a q }

/-- Change the members of the finger `p` points to that are no links. -/
def writeFinger (srv : HeapServer A) (p : Option A) (u : Finger → Finger) :
    Except HeapFault (HeapServer A) :=
  match p with
  | none => .error .badPointer
  | some a => (srv.read p).map fun _ => { srv with flist := srv.flist.setVal a u }

/-- `emalloc` and `new_finger`.  The address is one the allocator chooses; there is no memory
unless it is free. -/
def newFinger (srv : HeapServer A) (choice : Option A) (node : Node) :
    Except HeapFault (HeapServer A × A) :=
  match choice with
  | none => .error .noMemory
  | some a =>
      match srv.flist.heap a with
      | some _ => .error .noMemory
      | none =>
          .ok ({ srv with flist := srv.flist.put a (some ⟨Tangent.newFinger node, none, none⟩) }, a)

/-- `free`. -/
def free (srv : HeapServer A) (f : A) : HeapServer A :=
  { srv with flist := srv.flist.put f none }

/-! ### Searches -/

/-- The loops that look for a finger along the links of one direction, from the pointer `f` on. -/
def search (srv : HeapServer A) (link : Cell A Finger → Option A) (P : Finger → Bool) :
    ℕ → Option A → Except HeapFault (Option A)
  | _, none => .ok none
  | 0, some _ => .error .noFuel
  | n + 1, some f => do
      let c ← srv.read (some f)
      if P c.val then pure (some f) else search srv link P n (link c)

variable (fuel : ℕ)

/-- `succ_finger`. -/
def succFinger (srv : HeapServer A) : Except HeapFault (Option A) :=
  srv.search Cell.next Finger.isActive fuel srv.flist.head

/-- `pred_finger`. -/
def predFinger (srv : HeapServer A) : Except HeapFault (Option A) :=
  srv.search Cell.prev Finger.isActive fuel srv.flist.tail

/-- `closest_preceding_finger`. -/
def closestPrecedingFinger (srv : HeapServer A) (id : ChordID) (fall : Bool) :
    Except HeapFault (Option A) :=
  srv.search Cell.prev
    (fun f => (fall || f.isActive) && idIsBetween f.node.id srv.members.node.id id)
    fuel srv.flist.tail

/-- `get_finger`. -/
def getFinger (srv : HeapServer A) (id : ChordID) : Except HeapFault (Option A) :=
  srv.search Cell.next (fun f => idEquals id f.node.id) fuel srv.flist.head

/-- The loop of `get_worst_passive_finger`. -/
def worstPassiveLoop (srv : HeapServer A) :
    ℕ → Option A → Option A → ℤ → Except HeapFault (Option A)
  | _, none, worst, _ => .ok worst
  | 0, some _, _, _ => .error .noFuel
  | n + 1, some f, worst, record => do
      let c ← srv.read (some f)
      if c.val.isPassive ∧ record < c.val.npings then
        if pingThresh - 1 ≤ c.val.npings then
          pure (some f)
        else
          worstPassiveLoop srv n c.next (some f) c.val.npings
      else
        worstPassiveLoop srv n c.next worst record

/-- `get_worst_passive_finger`. -/
def getWorstPassiveFinger (srv : HeapServer A) : Except HeapFault (Option A) :=
  srv.worstPassiveLoop fuel srv.flist.head none (-1)

/-! ### Linking a finger in -/

/-- The branch of `fingerlist_insert` without a preceding finger. -/
def insertFront (srv : HeapServer A) (newF : A) : Except HeapFault (HeapServer A) := do
  let srv ← srv.writeNext (some newF) srv.flist.head
  let srv ← srv.writePrev (some newF) none
  let srv ← srv.writePrev srv.flist.head (some newF)
  return { srv with flist := { srv.flist with head := some newF } }

/-- The middle of `insertBehind`: link the finger in before `next`, or at the end. -/
def insertBefore (srv : HeapServer A) (next : Option A) (newF : A) :
    Except HeapFault (HeapServer A) :=
  if next ≠ none then
    srv.writePrev next (some newF)
  else
    .ok { srv with flist := { srv.flist with tail := some newF } }

/-- The branch of `fingerlist_insert` with a preceding finger. -/
def insertBehind (srv : HeapServer A) (prec newF : A) : Except HeapFault (HeapServer A) := do
  let c ← srv.read (some prec)
  let srv ← srv.writeNext (some newF) c.next
  let c ← srv.read (some prec)
  let srv ← srv.insertBefore c.next newF
  let srv ← srv.writePrev (some newF) (some prec)
  srv.writeNext (some prec) (some newF)

/-- `fingerlist_insert`. -/
def fingerlistInsert (srv : HeapServer A) (newF : A) : Except HeapFault (HeapServer A) :=
  if srv.flist.head = none then
    .ok { srv with flist := { srv.flist with head := some newF, tail := some newF } }
  else do
    let c ← srv.read (some newF)
    match ← srv.closestPrecedingFinger fuel c.val.node.id true with
    | none => srv.insertFront newF
    | some prec => srv.insertBehind prec newF

/-- `activate_finger`. -/
def activateFinger (srv : HeapServer A) (f : A) : Except HeapFault (HeapServer A) := do
  let c ← srv.read (some f)
  if c.val.isPassive then
    let members := { srv.members with numPassiveFingers := srv.members.numPassiveFingers - 1 }
    writeFinger { srv with members := members } (some f) fun f => { f with status := .active }
  else
    pure srv

/-! ### Taking a finger out -/

/-- The branch of `remove_finger` for a finger that is neither the first nor the last. -/
def unlinkInner (srv : HeapServer A) (f : A) : Except HeapFault (HeapServer A) := do
  let c ← srv.read (some f)
  let srv ← srv.writeNext c.prev c.next
  let c ← srv.read (some f)
  srv.writePrev c.next c.prev

/-- What `remove_finger` does with the first finger. -/
def unlinkHead (srv : HeapServer A) (f : A) : Except HeapFault (HeapServer A) :=
  if srv.flist.head = some f then do
    let c ← srv.read (some f)
    let srv := { srv with flist := { srv.flist with head := c.next } }
    if c.next ≠ none then srv.writePrev c.next none else pure srv
  else
    .ok srv

/-- What `remove_finger` does with the last finger. -/
def unlinkTail (srv : HeapServer A) (f : A) : Except HeapFault (HeapServer A) :=
  if srv.flist.tail = some f then do
    let c ← srv.read (some f)
    let srv := { srv with flist := { srv.flist with tail := c.prev } }
    if c.prev ≠ none then srv.writeNext c.prev none else pure srv
  else
    .ok srv

/-- The part of `remove_finger` that changes links. -/
def unlink (srv : HeapServer A) (f : A) : Except HeapFault (HeapServer A) :=
  if srv.flist.tail ≠ some f ∧ srv.flist.head ≠ some f then
    srv.unlinkInner f
  else do
    let srv ← srv.unlinkHead f
    srv.unlinkTail f

/-- The end of `remove_finger`: update the range if the predecessor is no longer `pred`. -/
def refreshRange (srv : HeapServer A) (pred : Option A) : Except HeapFault (HeapServer A) := do
  let pf ← srv.predFinger fuel
  if pred ≠ pf then
    match pf with
    | none =>
        pure { srv with
          members := chordUpdateRange srv.members srv.members.node.id srv.members.node.id }
    | some pf =>
        let c ← srv.read (some pf)
        pure { srv with
          members := chordUpdateRange srv.members c.val.node.id srv.members.node.id }
  else
    pure srv

/-- `remove_finger`. -/
def removeFinger (srv : HeapServer A) (f : A) : Except HeapFault (HeapServer A) := do
  let c ← srv.read (some f)
  let members :=
    if c.val.isPassive then
      { srv.members with numPassiveFingers := srv.members.numPassiveFingers - 1 }
    else
      srv.members
  let srv := { srv with members := members }
  let pred ← srv.predFinger fuel
  let srv ← srv.unlink f
  let srv ← srv.refreshRange fuel pred
  return srv.free f

/-! ### Inserting a finger -/

/-- The part of `insert_finger` that makes room for one more passive finger. -/
def evictPassive (srv : HeapServer A) : Except HeapFault (HeapServer A) :=
  if maxPassiveFingers ≤ srv.members.numPassiveFingers then do
    match ← srv.getWorstPassiveFinger fuel with
    | none => .error .assertion
    | some worst => srv.removeFinger fuel worst
  else
    .ok srv

/-- What `insert_finger` leaves behind: the server, the pointer it returns and what it stored
through `fnew`, if anything. -/
structure Inserted (A : Type) where
  srv : HeapServer A
  finger : Option A
  fnew : Option Bool

/-- The branch of `insert_finger` for a finger that is in the list. -/
def insertKnown (srv : HeapServer A) (f : A) (addr : In6Addr) (port : UInt16) :
    Except HeapFault (Inserted A) := do
  let c ← srv.read (some f)
  if ¬ v6AddrEquals c.val.node.addr addr then
    let srv ← srv.writeFinger (some f) (replacePeer addr port)
    return ⟨srv, some f, some false⟩
  return ⟨srv, some f, some false⟩

/-- The branch of `insert_finger` for a finger that is not in the list. -/
def insertNew (srv : HeapServer A) (choice : Option A) (node : Node) :
    Except HeapFault (Inserted A) := do
  let srv ← srv.evictPassive fuel
  let members := { srv.members with numPassiveFingers := srv.members.numPassiveFingers + 1 }
  let (srv, newF) ← newFinger { srv with members := members } choice node
  let srv ← srv.fingerlistInsert fuel newF
  return ⟨srv, some newF, some true⟩

/-- `insert_finger`, with the address the allocator chooses for a new finger. -/
def insertFinger (srv : HeapServer A) (choice : Option A) (id : ChordID) (addr : In6Addr)
    (port : UInt16) : Except HeapFault (Inserted A) :=
  if v6AddrEquals srv.members.node.addr addr ∧ srv.members.node.port = port then
    .ok ⟨srv, none, none⟩
  else do
    match ← srv.getFinger fuel id with
    | some f => srv.insertKnown f addr port
    | none => srv.insertNew fuel choice ⟨id, addr, port⟩

/-- The end of `process_pong`: update the range if the predecessor is no longer `pred`. -/
def refreshPred (srv : HeapServer A) (pred : Option A) : Except HeapFault (HeapServer A) := do
  match ← srv.predFinger fuel with
  | none => if pred = none then pure srv else .error .assertion
  | some newpred =>
      if pred ≠ some newpred then
        let c ← srv.read (some newpred)
        pure { srv with
          members := chordUpdateRange srv.members c.val.node.id srv.members.node.id }
      else
        pure srv

/-- The part of `process_pong` that deals with the finger `f`. -/
def acceptPong (srv : HeapServer A) (f : A) (newRtt : ℤ) : Except HeapFault (HeapServer A) := do
  let srv ← srv.writeFinger (some f) (refreshFinger newRtt)
  let pred ← srv.predFinger fuel
  let srv ← srv.activateFinger f
  srv.refreshPred fuel pred

/-! ### Pinging -/

/-- The variables of the loop of `ping`: the server, the actions so far, and `f_pinged`. -/
structure PingState (A : Type) where
  srv : HeapServer A
  acts : List Action
  pinged : Option A

section Ping

variable (L : Library) (io : Io)

/-- The loop of `ping`, from the pointer `f` on, which is the `i`-th, where the texts of the
addresses fit into its buffers; `servePingLoop` is the loop with the buffers. -/
def pingLoop : ℕ → Option A → ℕ → PingState A → Except HeapFault (PingState A)
  | _, none, _, st => .ok st
  | 0, some _, _, _ => .error .noFuel
  | n + 1, some f, i, st => do
      let c ← st.srv.read (some f)
      if pingThresh ≤ c.val.npings then
        let srv ← st.srv.removeFinger fuel f
        pingLoop n c.next (i + 1) { st with srv := srv }
      else if c.val.npings ≠ 0 ∨ st.srv.members.toPing = i then
        let srv ← st.srv.writeFinger (some f) countPing
        let c ← srv.read (some f)
        pingLoop n c.next (i + 1)
          { srv := srv
            acts := sendPing L io srv.members st.acts c.val.node.addr c.val.node.port
            pinged := if srv.members.toPing = i then some f else st.pinged }
      else
        pingLoop n c.next (i + 1) st

/-- The test of `ping` for a finger behind `f_pinged`. -/
def hasNext (srv : HeapServer A) : Option A → Except HeapFault Bool
  | none => .ok false
  | some f => (srv.read (some f)).map fun c => c.next.isSome

/-- `ping`. -/
def ping (srv : HeapServer A) : Except HeapFault (HeapServer A × List Action) := do
  let st ← pingLoop fuel L io fuel srv.flist.head 0 ⟨srv, [], none⟩
  let more ← st.srv.hasNext st.pinged
  let toPing := if more then st.srv.members.toPing + 1 else 0
  return ({ st.srv with members := { st.srv.members with toPing := toPing } }, st.acts)

end Ping

/-! ### Cleaning -/

/-- The first loop of `clean_finger_list`: skip `k` successors. -/
def skipSuccs (srv : HeapServer A) : ℕ → Option A → Except HeapFault (Option A)
  | k + 1, some f => do
      let c ← srv.read (some f)
      skipSuccs srv k c.next
  | _, f => .ok f

/-- The loop of `clean_finger_list` that skips `k` predecessors: the pointer it ends at, unless the
function returns. -/
def skipPreds (srv : HeapServer A) (lastsucc : A) :
    ℕ → Option A → Except HeapFault (Option (Option A))
  | 0, f => .ok (some f)
  | k + 1, f =>
      if f = some lastsucc then
        .ok none
      else do
        let c ← srv.read f
        skipPreds srv lastsucc k c.prev

/-- The inner loop of `clean_finger_list`, from the pointer `f` on: the server, and the next `f`
unless the function returns. -/
def cleanRemove (lastsucc : A) (id : ChordID) :
    ℕ → Option A → HeapServer A → Except HeapFault (HeapServer A × Option (Option A))
  | 0, _, _ => .error .noFuel
  | _ + 1, none, _ => .error .badPointer
  | n + 1, some f, srv => do
      let c ← srv.read (some f)
      if c.prev = none ∨ f = lastsucc then
        pure (srv, none)
      else
        let p ← srv.read c.prev
        if idIsBetween p.val.node.id id c.val.node.id || idEquals p.val.node.id id then
          let srv ← srv.removeFinger fuel f
          cleanRemove lastsucc id n c.prev srv
        else
          pure (srv, some c.prev)

/-- The outer loop of `clean_finger_list`, with `k` powers of two left. -/
def cleanLoop (lastsucc lastpred : A) :
    ℕ → Option A → HeapServer A → Except HeapFault (HeapServer A)
  | 0, _, srv => .ok srv
  | k + 1, f, srv =>
      if f = some lastsucc then
        .ok srv
      else do
        let id := chordIdSuccessor srv.members.node.id k
        let lp ← srv.read (some lastpred)
        if idIsBetween id lp.val.node.id srv.members.node.id || idEquals id lp.val.node.id then
          cleanLoop lastsucc lastpred k f srv
        else
          let ls ← srv.read (some lastsucc)
          if idIsBetween id srv.members.node.id ls.val.node.id ||
              idEquals id srv.members.node.id then
            pure srv
          else
            let c ← srv.read f
            if idIsBetween c.val.node.id srv.members.node.id id then
              cleanLoop lastsucc lastpred k f srv
            else
              match ← cleanRemove fuel lastsucc id fuel f srv with
              | (srv, none) => pure srv
              | (srv, some f) => cleanLoop lastsucc lastpred k f srv

/-- `clean_finger_list`. -/
def cleanFingerList (srv : HeapServer A) : Except HeapFault (HeapServer A) := do
  match ← srv.skipSuccs (nsuccessors - 1) srv.flist.head with
  | none => pure srv
  | some lastsucc =>
      let c ← srv.read (some lastsucc)
      if c.next = none then
        pure srv
      else
        match ← srv.skipPreds lastsucc (npredecessors - 1) srv.flist.tail with
        | none => pure srv
        | some none => .error .badPointer
        | some (some lastpred) =>
            let c ← srv.read (some lastpred)
            cleanLoop fuel lastsucc lastpred nfingers c.prev srv

/-! ### Runs -/

/-- What changes the finger list: a packet whose sender is inserted, a pong, `ping` and
`clean_finger_list`.  The first two come with the address the allocator chooses. -/
inductive Op (A : Type) where
  | insert (choice : Option A) (node : Node)
  | pong (choice : Option A) (node : Node) (newRtt : ℤ)
  | ping (io : Io)
  | clean

/-- The part of `process_pong` behind the check of the ticket. -/
def processPong (srv : HeapServer A) (choice : Option A) (node : Node) (newRtt : ℤ) :
    Except HeapFault (HeapServer A) := do
  let r ← srv.insertFinger fuel choice node.id node.addr node.port
  match r.finger with
  | none => pure r.srv
  | some f => r.srv.acceptPong fuel f newRtt

/-- The server after an operation. -/
def step (L : Library) (srv : HeapServer A) : Op A → Except HeapFault (HeapServer A)
  | .insert choice node =>
      (srv.insertFinger fuel choice node.id node.addr node.port).map Inserted.srv
  | .pong choice node newRtt => srv.processPong fuel choice node newRtt
  | .ping io => (srv.ping fuel L io).map Prod.fst
  | .clean => srv.cleanFingerList fuel

/-- The server after a list of operations. -/
def run (L : Library) (srv : HeapServer A) (ops : List (Op A)) :
    Except HeapFault (HeapServer A) :=
  Machine.run (step fuel L) srv ops

end HeapServer

end Tangent
