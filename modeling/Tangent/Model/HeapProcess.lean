import Tangent.Model.Heap
import Tangent.Model.Serve

/-!
# A server with its finger list in memory

`process.c`, `stabilize.c` and `discover_addr` of `join.c` once more, with the pointers of the code:
a search returns an address, and a finger is read where the code reads it.  `Model.Process` and
`Model.Stabilize` do the same with a list of fingers.

An event comes with the address the allocator chooses if the event inserts a new finger.  The
static buffers that packets are packed into are those of `Model.Statics` and left out here.
-/

namespace Tangent

open DoublyLinked

/-- What a fault of a function that holds no pointer to a finger is here. -/
def HeapFault.ofFault : Fault → HeapFault
  | .assertion => .assertion
  | .nullPointer => .badPointer
  | .overrun => .overrun

/-- A new server has an empty finger list and no fingers in memory. -/
def newHeapServer (A : Type) (cfg : Config) : HeapServer A :=
  ⟨newServer cfg, ⟨none, none, fun _ => none⟩⟩

/-! ### The packet handlers -/

namespace HeapProcess

/-- What a handler leaves behind. -/
structure Outcome (A : Type) where
  srv : HeapServer A
  acts : List Action
  ret : RetCode

section Process

variable {A : Type} [DecidableEq A] (fuel : ℕ) (L : Library) (io : Io) (srv : HeapServer A)
  (choice : Option A)

/-- `verify_ticket`. -/
def verifyTicket (ticket : Bytes) (args : List HashArg) : Except HeapFault Bool :=
  (Tangent.verifyTicket L srv.members (io.time 0) ticket args).mapError HeapFault.ofFault

/-- `v6_addr_set`. -/
def v6AddrSet (data : Bytes) (behind : ℕ → UInt8) : Except HeapFault In6Addr :=
  (Tangent.v6AddrSet data behind).mapError HeapFault.ofFault

/-- The copy of `process_data`. -/
def chordIdSet (data : Bytes) (behind : ℕ → UInt8) : Except HeapFault ChordID :=
  (Tangent.chordIdSet data behind).mapError HeapFault.ofFault

/-- `process_addr_discover`. -/
def processAddrDiscover (msg : AddrDiscover) (frm : Node) : Except HeapFault (Outcome A) :=
  .ok ⟨srv, sendAddrDiscoverReply [] msg.ticket frm.addr frm.port, .noError⟩

/-- `process_addr_discover_reply`. -/
def processAddrDiscoverReply (msg : AddrDiscoverReply) (frm : Node) :
    Except HeapFault (Outcome A) := do
  let valid ← verifyTicket L io srv msg.ticket (addrDiscoverArgs frm.addr frm.port)
  if ¬ valid then
    return ⟨srv, [], .invalidTicket⟩
  if srv.members.node.addr.isUnspecified then
    let addr ← v6AddrSet msg.addr io.behind
    let members := adoptAddress L srv.members addr
    return ⟨{ srv with members := members }, [], .noError⟩
  return ⟨srv, [], .noError⟩

/-- `closest_preceding_node`. -/
def closestPrecedingNode (id : ChordID) (fall : Bool) : Except HeapFault Node := do
  match ← srv.closestPrecedingFinger fuel id fall with
  | none => return srv.members.node
  | some f =>
      let c ← srv.read (some f)
      return c.val.node

/-- The part of `next_route_node` behind the test of `last`. -/
def nextRouteSucc (id : ChordID) : Except HeapFault (Node × Bool) := do
  match ← srv.succFinger fuel with
  | none =>
      let np ← closestPrecedingNode fuel srv id false
      return (np, false)
  | some sf =>
      let c ← srv.read (some sf)
      if idIsBetween id srv.members.node.id c.val.node.id || idEquals id c.val.node.id then
        return (c.val.node, true)
      else
        let np ← closestPrecedingNode fuel srv id false
        return (np, false)

/-- `next_route_node`: the node, and the value stored through `next_is_last`. -/
def nextRouteNode (id : ChordID) (last : Bool) : Except HeapFault (Node × Bool) :=
  if last then do
    match ← srv.predFinger fuel with
    | some pf =>
        let c ← srv.read (some pf)
        return (c.val.node, true)
    | none => nextRouteSucc fuel srv id
  else
    nextRouteSucc fuel srv id

/-- `process_data`. -/
def processData (msg : Data) (_frm : Node) : Except HeapFault (Outcome A) := do
  let id ← chordIdSet msg.id io.behind
  if srv.members.node.addr.isUnspecified then
    return ⟨srv, [], .addrUndiscovered⟩
  let ttl := msg.ttl - 1
  if ttl = 0 then
    return ⟨srv, [], .ttlExpired⟩
  if chordIdIsLocal srv.members id then
    return ⟨srv, [.upcall id msg.data], .noError⟩
  let (np, nextIsLast) ← nextRouteNode fuel srv id msg.last
  return ⟨srv, sendData [] nextIsLast ttl.toUInt8 np id msg.data, .noError⟩

/-- `process_fs`. -/
def processFs (msg : FindSuccessor) (_frm : Node) : Except HeapFault (Outcome A) := do
  let replyPort := msg.port.toUInt16
  if srv.members.node.addr.isUnspecified then
    return ⟨srv, [], .addrUndiscovered⟩
  let replyAddr ← v6AddrSet msg.addr io.behind
  let replyId := getAddressId L replyAddr replyPort
  let ttl := msg.ttl - 1
  if ttl = 0 then
    return ⟨srv, [], .ttlExpired⟩
  if v6AddrEquals srv.members.node.addr replyAddr ∧ srv.members.node.port = replyPort then
    return ⟨srv, [], .noError⟩
  match ← srv.succFinger fuel with
  | none =>
      return ⟨srv, sendFsReply [] msg.ticket replyAddr replyPort srv.members.node.addr
        srv.members.node.port, .noError⟩
  | some succ =>
      let c ← srv.read (some succ)
      if idIsBetween replyId srv.members.node.id c.val.node.id ||
          idEquals replyId c.val.node.id then
        return ⟨srv, sendFsReply [] msg.ticket replyAddr replyPort c.val.node.addr
          c.val.node.port, .noError⟩
      else
        let np ← closestPrecedingNode fuel srv replyId false
        return ⟨srv, sendFsForward [] msg.ticket ttl.toUInt8 np.addr np.port replyAddr
          replyPort, .noError⟩

/-- `process_fs_reply`. -/
def processFsReply (msg : FindSuccessorReply) (_frm : Node) : Except HeapFault (Outcome A) := do
  if srv.members.node.addr.isUnspecified then
    return ⟨srv, [], .addrUndiscovered⟩
  let addr ← v6AddrSet msg.addr io.behind
  let port := msg.port.toUInt16
  let id := getAddressId L addr port
  let valid ← verifyTicket L io srv msg.ticket fsArgs
  if ¬ valid then
    return ⟨srv, [], .invalidTicket⟩
  if v6AddrEquals srv.members.node.addr addr ∧
      srv.members.node.port.toUInt32 = msg.port then
    return ⟨srv, [], .noError⟩
  let r ← srv.insertFinger fuel choice id addr port
  if r.fnew.getD io.fnew then
    return ⟨r.srv, sendPing L io r.srv.members [] addr port, .noError⟩
  return ⟨r.srv, [], .noError⟩

/-- `process_stab`.  The pointer `pred` is from before the insertion, which may free a finger. -/
def processStab (msg : Stabilize) (_frm : Node) : Except HeapFault (Outcome A) := do
  let pred ← srv.predFinger fuel
  if srv.members.node.addr.isUnspecified then
    return ⟨srv, [], .addrUndiscovered⟩
  let addr ← v6AddrSet msg.addr io.behind
  let port := msg.port.toUInt16
  let id := getAddressId L addr port
  let r ← srv.insertFinger fuel choice id addr port
  match pred with
  | none => return ⟨r.srv, [], .noError⟩
  | some pred =>
      let c ← r.srv.read (some pred)
      return ⟨r.srv, sendStabReply [] addr port c.val.node.addr c.val.node.port, .noError⟩

/-- `process_stab_reply`. -/
def processStabReply (msg : StabilizeReply) (_frm : Node) : Except HeapFault (Outcome A) := do
  if srv.members.node.addr.isUnspecified then
    return ⟨srv, [], .addrUndiscovered⟩
  let addr ← v6AddrSet msg.addr io.behind
  let port := msg.port.toUInt16
  let id := getAddressId L addr port
  if v6AddrEquals srv.members.node.addr addr ∧
      srv.members.node.port.toUInt32 = msg.port then
    return ⟨srv, [], .noError⟩
  let r ← srv.insertFinger fuel choice id addr port
  let succ ← r.srv.succFinger fuel
  let c ← r.srv.read succ
  let acts := sendNotify [] c.val.node.addr c.val.node.port
  if r.fnew.getD io.fnew then
    return ⟨r.srv, sendPing L io r.srv.members acts addr port, .noError⟩
  return ⟨r.srv, acts, .noError⟩

/-- `process_notify`. -/
def processNotify (frm : Node) : Except HeapFault (Outcome A) := do
  if srv.members.node.addr.isUnspecified then
    return ⟨srv, [], .addrUndiscovered⟩
  let r ← srv.insertFinger fuel choice frm.id frm.addr frm.port
  if r.fnew.getD io.fnew then
    return ⟨r.srv, sendPing L io r.srv.members [] frm.addr frm.port, .noError⟩
  return ⟨r.srv, [], .noError⟩

/-- Whether `process_ping` pings the peer back. -/
def pingsBack (fnew : Bool) (pred : Option A) (id : ChordID) : Except HeapFault Bool :=
  if fnew then
    match pred with
    | none => .ok true
    | some pred =>
        (srv.read (some pred)).map fun c => idIsBetween id c.val.node.id srv.members.node.id
  else
    .ok false

/-- `process_ping`. -/
def processPing (msg : Ping) (frm : Node) : Except HeapFault (Outcome A) := do
  if srv.members.node.addr.isUnspecified then
    return ⟨srv, [], .addrUndiscovered⟩
  let r ← srv.insertFinger fuel choice frm.id frm.addr frm.port
  let pred ← r.srv.predFinger fuel
  let back ← pingsBack r.srv (r.fnew.getD io.fnew) pred frm.id
  let acts := if back then sendPing L io r.srv.members [] frm.addr frm.port else []
  return ⟨r.srv, sendPong acts msg.ticket frm.addr frm.port msg.time, .noError⟩

/-- `process_pong`. -/
def processPong (msg : Pong) (frm : Node) : Except HeapFault (Outcome A) := do
  if srv.members.node.addr.isUnspecified then
    return ⟨srv, [], .addrUndiscovered⟩
  let valid ← verifyTicket L io srv msg.ticket (pingArgs frm.addr frm.port msg.time)
  if ¬ valid then
    return ⟨srv, [], .invalidTicket⟩
  let r ← srv.insertFinger fuel choice frm.id frm.addr frm.port
  match r.finger with
  | none => return ⟨r.srv, [], .fingerError⟩
  | some f =>
      let newRtt := io.now 0 - msg.time
      let srv ← r.srv.acceptPong fuel f newRtt.toInt64.toInt
      return ⟨srv, [], .noError⟩

/-- The handler `new_server` registers for the type of the message. -/
def process (msg : Msg) (frm : Node) : Except HeapFault (Outcome A) :=
  match msg with
  | .addrDiscover m => processAddrDiscover srv m frm
  | .addrDiscoverReply m => processAddrDiscoverReply L io srv m frm
  | .data m => processData fuel io srv m frm
  | .fs m => processFs fuel L io srv m frm
  | .fsReply m => processFsReply fuel L io srv choice m frm
  | .stab m => processStab fuel L io srv choice m frm
  | .stabReply m => processStabReply fuel L io srv choice m frm
  | .notify => processNotify fuel L io srv choice frm
  | .ping m => processPing fuel L io srv choice m frm
  | .pong m => processPong fuel L io srv choice m frm

end Process

end HeapProcess

/-! ### The maintenance timer -/

namespace HeapServer

/-- A call of `inet_ntop` in `ping`. -/
def writeText (addr : In6Addr) : Except HeapFault Unit :=
  (Tangent.writeText addr).mapError HeapFault.ofFault

/-- The packets among the actions go out. -/
def sendAll {A : Type} (srv : HeapServer A) (acts : List Action) : Except HeapFault Unit :=
  (Tangent.sendAll srv.members acts).mapError HeapFault.ofFault

variable {A : Type} [DecidableEq A] (fuel : ℕ) (L : Library) (io : Io)

/-- The loop of `ping`, like `pingLoop`, but with the buffers and with the packets it sends. -/
def servePingLoop : ℕ → Option A → ℕ → PingState A → Except HeapFault (PingState A)
  | _, none, _, st => .ok st
  | 0, some _, _, _ => .error .noFuel
  | n + 1, some f, i, st => do
      let c ← st.srv.read (some f)
      if pingThresh ≤ c.val.npings then
        writeText st.srv.members.node.addr
        writeText c.val.node.addr
        let srv ← st.srv.removeFinger fuel f
        servePingLoop n c.next (i + 1) { st with srv := srv }
      else if c.val.npings ≠ 0 ∨ st.srv.members.toPing = i then
        let srv ← st.srv.writeFinger (some f) countPing
        let c ← srv.read (some f)
        srv.sendAll (sendPing L io srv.members [] c.val.node.addr c.val.node.port)
        servePingLoop n c.next (i + 1)
          { srv := srv
            acts := sendPing L io srv.members st.acts c.val.node.addr c.val.node.port
            pinged := if srv.members.toPing = i then some f else st.pinged }
      else
        servePingLoop n c.next (i + 1) st

/-- `ping`. -/
def servePing (srv : HeapServer A) : Except HeapFault (HeapServer A × List Action) := do
  let st ← servePingLoop fuel L io fuel srv.flist.head 0 ⟨srv, [], none⟩
  let more ← st.srv.hasNext st.pinged
  let toPing := if more then st.srv.members.toPing + 1 else 0
  return ({ st.srv with members := { st.srv.members with toPing := toPing } }, st.acts)

/-- The first loop of `fix_succs_preds`: follow `next` from `f` `k` times, or until the last
finger. -/
def walkNext (srv : HeapServer A) : ℕ → A → Except HeapFault A
  | 0, f => .ok f
  | k + 1, f => do
      let c ← srv.read (some f)
      match c.next with
      | none => pure f
      | some g => walkNext srv k g

/-- The loop of `fix_succs_preds` over the predecessors, with `n` turns left and `k` made. -/
def fixPredsLoop (srv : HeapServer A) (succ : A) (acts : List Action) :
    ℕ → ℕ → Option A → Except HeapFault (List Action)
  | 0, _, _ => .ok acts
  | n + 1, k, f => do
      let c ← srv.read f
      if c.prev = none then
        pure acts
      else if c.next = none then
        fixPredsLoop srv succ acts n (k + 1) c.prev
      else if f = some succ then
        pure acts
      else if k = srv.members.toFixBackup then
        -- `id_random_between` reads the identifier of the finger behind `f`.
        let _ ← srv.read c.next
        pure (sendFs L io srv.members acts defTtl c.val.node.addr c.val.node.port
          srv.members.node.addr srv.members.node.port)
      else
        fixPredsLoop srv succ acts n (k + 1) c.prev

/-- `fix_succs_preds`. -/
def fixSuccsPreds (srv : HeapServer A) (acts : List Action) :
    Except HeapFault (HeapServer A × List Action) := do
  match ← srv.succFinger fuel with
  | none => return (srv, acts)
  | some f =>
      let f ← srv.walkNext srv.members.toFixBackup f
      let c ← srv.read (some f)
      if c.next = none then
        return ({ srv with members := { srv.members with toFixBackup := 0 } }, acts)
      let acts := sendFs L io srv.members acts defTtl c.val.node.addr c.val.node.port
        srv.members.node.addr srv.members.node.port
      let pred ← srv.predFinger fuel
      let acts ← srv.fixPredsLoop L io f acts npredecessors 0 pred
      let next := srv.members.toFixBackup + 1
      let toFixBackup := if nsuccessors ≤ next then 0 else next
      return ({ srv with members := { srv.members with toFixBackup := toFixBackup } }, acts)

/-- The part of `fix_fingers` that asks a finger far away, with `succ` to settle for. -/
def askFarFinger (srv : HeapServer A) (succ : Option A) (acts : List Action) :
    Except HeapFault (List Action) := do
  let toId := chordIdSuccessor srv.members.node.id (nfingers - 1)
  let f ← srv.closestPrecedingFinger fuel toId false
  let c ← srv.read (if f = none then succ else f)
  let acts := sendFs L io srv.members acts defTtl c.val.node.addr c.val.node.port
    srv.members.node.addr srv.members.node.port
  if srv.members.toFixFinger = nfingers - 1 ∧ srv.flist.tail ≠ none then
    -- `id_random_between` reads the identifier of the last finger.
    let _ ← srv.read srv.flist.tail
    return sendFs L io srv.members acts defTtl c.val.node.addr c.val.node.port
      srv.members.node.addr srv.members.node.port
  else
    return acts

/-- `fix_fingers`. -/
def fixFingers (srv : HeapServer A) (acts : List Action) :
    Except HeapFault (HeapServer A × List Action) := do
  let succ ← srv.succFinger fuel
  if chordIdBits ≤ srv.members.toFixFinger then
    throw .assertion
  let c ← srv.read succ
  let moved := moveFixFinger L io srv.members c.val acts
  let srv := { srv with members := moved.1 }
  let acts ← srv.askFarFinger fuel L io succ moved.2
  return (srv, acts)

/-- The part of `stabilize` that pings the predecessor in every `periodPingPred`-th tick. -/
def pingPred (srv : HeapServer A) (idx : ℕ) (acts : List Action) :
    Except HeapFault (List Action) :=
  if idx % periodPingPred = 0 then do
    match ← srv.predFinger fuel with
    | none => throw .assertion
    | some pred =>
        let c ← srv.read (some pred)
        return sendPing L io srv.members acts c.val.node.addr c.val.node.port
  else
    .ok acts

/-- What a tick leaves behind: the server, what it did and the counter `idx`. -/
structure Tick (A : Type) where
  srv : HeapServer A
  acts : List Action
  idx : ℕ

/-- `stabilize`. -/
def stabilize (srv : HeapServer A) (idx : ℕ) : Except HeapFault (Tick A) := do
  if srv.flist.head = none then
    return ⟨srv, joinWellKnown L io srv.members srv.members.wellKnown [], idx⟩
  let (srv, acts) ← srv.servePing fuel L io
  match ← srv.succFinger fuel with
  | none => return ⟨srv, acts, idx⟩
  | some succ =>
      let c ← srv.read (some succ)
      let acts := sendStab acts c.val.node.addr c.val.node.port srv.members.node.addr
        srv.members.node.port
      let acts ← srv.pingPred fuel L io idx acts
      let (srv, acts) ← srv.fixSuccsPreds fuel L io acts
      let (srv, acts) ← srv.fixFingers fuel L io acts
      if idx % chordCleanPeriod = 0 then
        let srv ← srv.cleanFingerList fuel
        return ⟨srv, acts, idx + 1⟩
      return ⟨srv, acts, idx + 1⟩

/-! ### Runs -/

/-- The server after an event, and what it did, before the packets go out that `ping` does not
send. -/
def react (srv : HeapServer A) (choice : Option A) :
    Event → Except HeapFault (HeapServer A × List Action)
  | .packet frm msg io =>
      (HeapProcess.process fuel L io srv choice msg (frm.node L)).map fun out =>
        (out.srv, out.acts)
  | .tick idx io => (srv.stabilize fuel L io idx).map fun t => (t.srv, t.acts)
  | .discover io => .ok (srv, discoverAddr L io srv.members)

/-- The server after an event, and all it has done. -/
def serve (st : HeapServer A × List Action) (e : Event × Option A) :
    Except HeapFault (HeapServer A × List Action) := do
  let r ← st.1.react fuel L e.2 e.1
  r.1.sendAll r.2
  return (r.1, st.2 ++ r.2)

end HeapServer

end Tangent
