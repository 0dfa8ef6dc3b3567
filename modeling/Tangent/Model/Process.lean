import Tangent.Model.Finger

/-!
# The packet handlers

`process.c`.  A handler is given what the step reads from outside, the server, the
unpacked message and the node the packet came from; it returns the server, what it did
and its return code, or faults.
-/

namespace Tangent

/-- The return codes of the handlers. -/
inductive RetCode where
  | noError
  | protocolError
  | ttlExpired
  | invalidTicket
  | addrUndiscovered
  | selfOriginator
  | fingerError
  deriving DecidableEq

/-- What a handler leaves behind. -/
structure Outcome where
  srv : ChordServer
  acts : List Action
  ret : RetCode
  deriving DecidableEq

section Process

variable (L : Library) (io : Io) (srv : ChordServer)

/-- `process_addr_discover`. -/
def processAddrDiscover (msg : AddrDiscover) (frm : Node) : Except Fault Outcome :=
  .ok ⟨srv, sendAddrDiscoverReply [] msg.ticket frm.addr frm.port, .noError⟩

/-- The branch of `process_addr_discover_reply` that adopts the address. -/
def adoptAddress (addr : In6Addr) : ChordServer :=
  let srv := { srv with node := { srv.node with addr := addr } }
  let id := getAddressId L srv.node.addr srv.node.port
  let srv := { srv with node := { srv.node with id := id } }
  let srv := chordUpdateRange srv srv.node.id srv.node.id
  { srv with discoverAddrEvent := false, stabEvent := true }

/-- `process_addr_discover_reply`. -/
def processAddrDiscoverReply (msg : AddrDiscoverReply) (frm : Node) :
    Except Fault Outcome := do
  let valid ← verifyTicket L srv (io.time 0) msg.ticket (addrDiscoverArgs frm.addr frm.port)
  if ¬ valid then
    return ⟨srv, [], .invalidTicket⟩
  if srv.node.addr.isUnspecified then
    let addr ← v6AddrSet msg.addr io.behind
    return ⟨adoptAddress L srv addr, [], .noError⟩
  return ⟨srv, [], .noError⟩

/-- `next_route_node`: the node, and the value stored through `next_is_last`. -/
def nextRouteNode (id : ChordID) (last : Bool) : Node × Bool :=
  match (if last then predFinger srv else none) with
  | some pf => (pf.node, true)
  | none =>
      match succFinger srv with
      | some sf =>
          if idIsBetween id srv.node.id sf.node.id || idEquals id sf.node.id then
            (sf.node, true)
          else
            (closestPrecedingNode srv id false, false)
      | none => (closestPrecedingNode srv id false, false)

/-- `process_data`. -/
def processData (msg : Data) (_frm : Node) : Except Fault Outcome := do
  let id ← chordIdSet msg.id io.behind
  if srv.node.addr.isUnspecified then
    .ok ⟨srv, [], .addrUndiscovered⟩
  else
    let ttl := msg.ttl - 1
    if ttl = 0 then
      .ok ⟨srv, [], .ttlExpired⟩
    else if chordIdIsLocal srv id then
      .ok ⟨srv, [.upcall id msg.data], .noError⟩
    else
      let (np, nextIsLast) := nextRouteNode srv id msg.last
      .ok ⟨srv, sendData [] nextIsLast ttl.toUInt8 np id msg.data, .noError⟩

/-- `process_fs`. -/
def processFs (msg : FindSuccessor) (_frm : Node) : Except Fault Outcome :=
  let replyPort := msg.port.toUInt16
  if srv.node.addr.isUnspecified then
    .ok ⟨srv, [], .addrUndiscovered⟩
  else do
    let replyAddr ← v6AddrSet msg.addr io.behind
    let replyId := getAddressId L replyAddr replyPort
    let ttl := msg.ttl - 1
    if ttl = 0 then
      .ok ⟨srv, [], .ttlExpired⟩
    else if v6AddrEquals srv.node.addr replyAddr ∧ srv.node.port = replyPort then
      .ok ⟨srv, [], .noError⟩
    else
      match succFinger srv with
      | none =>
          .ok ⟨srv, sendFsReply [] msg.ticket replyAddr replyPort srv.node.addr
            srv.node.port, .noError⟩
      | some succ =>
          if idIsBetween replyId srv.node.id succ.node.id || idEquals replyId succ.node.id then
            .ok ⟨srv, sendFsReply [] msg.ticket replyAddr replyPort succ.node.addr
              succ.node.port, .noError⟩
          else
            let np := closestPrecedingNode srv replyId false
            .ok ⟨srv, sendFsForward [] msg.ticket ttl.toUInt8 np.addr np.port replyAddr
              replyPort, .noError⟩

/-- `process_fs_reply`. -/
def processFsReply (msg : FindSuccessorReply) (_frm : Node) : Except Fault Outcome := do
  if srv.node.addr.isUnspecified then
    return ⟨srv, [], .addrUndiscovered⟩
  let addr ← v6AddrSet msg.addr io.behind
  let port := msg.port.toUInt16
  let id := getAddressId L addr port
  let valid ← verifyTicket L srv (io.time 0) msg.ticket fsArgs
  if ¬ valid then
    return ⟨srv, [], .invalidTicket⟩
  if v6AddrEquals srv.node.addr addr ∧ srv.node.port.toUInt32 = msg.port then
    return ⟨srv, [], .noError⟩
  let r ← insertFinger srv id addr port
  if r.fnew.getD io.fnew then
    return ⟨r.srv, sendPing L io r.srv [] addr port, .noError⟩
  return ⟨r.srv, [], .noError⟩

/-- `process_stab`.  The predecessor is looked up before the finger is inserted, and read
afterwards. -/
def processStab (msg : Stabilize) (_frm : Node) : Except Fault Outcome := do
  let pred := predFinger srv
  if srv.node.addr.isUnspecified then
    return ⟨srv, [], .addrUndiscovered⟩
  let addr ← v6AddrSet msg.addr io.behind
  let port := msg.port.toUInt16
  let id := getAddressId L addr port
  let r ← insertFinger srv id addr port
  match pred with
  | none => return ⟨r.srv, [], .noError⟩
  | some pred =>
      match getFinger r.srv pred.node.id with
      | none => throw .nullPointer
      | some pred =>
          return ⟨r.srv, sendStabReply [] addr port pred.node.addr pred.node.port, .noError⟩

/-- `process_stab_reply`. -/
def processStabReply (msg : StabilizeReply) (_frm : Node) : Except Fault Outcome := do
  if srv.node.addr.isUnspecified then
    return ⟨srv, [], .addrUndiscovered⟩
  let addr ← v6AddrSet msg.addr io.behind
  let port := msg.port.toUInt16
  let id := getAddressId L addr port
  if v6AddrEquals srv.node.addr addr ∧ srv.node.port.toUInt32 = msg.port then
    return ⟨srv, [], .noError⟩
  let r ← insertFinger srv id addr port
  match succFinger r.srv with
  | none => throw .nullPointer
  | some succ =>
      let acts := sendNotify [] succ.node.addr succ.node.port
      if r.fnew.getD io.fnew then
        return ⟨r.srv, sendPing L io r.srv acts addr port, .noError⟩
      return ⟨r.srv, acts, .noError⟩

/-- `process_notify`. -/
def processNotify (frm : Node) : Except Fault Outcome := do
  if srv.node.addr.isUnspecified then
    return ⟨srv, [], .addrUndiscovered⟩
  let r ← insertFinger srv frm.id frm.addr frm.port
  if r.fnew.getD io.fnew then
    return ⟨r.srv, sendPing L io r.srv [] frm.addr frm.port, .noError⟩
  return ⟨r.srv, [], .noError⟩

/-- Whether `process_ping` pings back a peer it has just inserted: there is no
predecessor, or the peer lies between the predecessor and the server. -/
def betterPred (id : ChordID) : Bool :=
  match predFinger srv with
  | none => true
  | some pred => idIsBetween id pred.node.id srv.node.id

/-- `process_ping`. -/
def processPing (msg : Ping) (frm : Node) : Except Fault Outcome := do
  if srv.node.addr.isUnspecified then
    return ⟨srv, [], .addrUndiscovered⟩
  let r ← insertFinger srv frm.id frm.addr frm.port
  let acts :=
    if r.fnew.getD io.fnew && betterPred r.srv frm.id then
      sendPing L io r.srv [] frm.addr frm.port
    else
      []
  return ⟨r.srv, sendPong acts msg.ticket frm.addr frm.port msg.time, .noError⟩

/-- `update_rtt`: the new average and mean deviation.  They are `long`s in the source, where a sum
may overflow; no other function looks at them, so here they are integers. -/
def updateRtt (rttAvg rttDev newRtt : ℤ) : ℤ × ℤ :=
  if rttAvg = 0 then
    (newRtt, 0)
  else
    let err := newRtt - rttAvg
    (rttAvg + err / 8, rttDev + (|err| - rttDev) / 4)

/-- What `process_pong` stores in the finger before it activates it. -/
def refreshFinger (newRtt : ℤ) (f : Finger) : Finger :=
  let rtt := updateRtt f.rttAvg f.rttDev newRtt
  { f with npings := 0, rttAvg := rtt.1, rttDev := rtt.2 }

/-- The end of `process_pong`: update the range if the predecessor is no longer `pred`. -/
def refreshPred (srv : ChordServer) (pred : Option Finger) : Except Fault ChordServer :=
  match predFinger srv with
  | none => if pred = none then .ok srv else .error .assertion
  | some newpred =>
      if pred.map (·.node.id) ≠ some newpred.node.id then
        .ok (chordUpdateRange srv newpred.node.id srv.node.id)
      else
        .ok srv

/-- The part of `process_pong` that deals with the finger, which has the identifier
`id`. -/
def acceptPong (srv : ChordServer) (id : ChordID) (newRtt : ℤ) :
    Except Fault ChordServer :=
  let srv := modifyFinger srv id (refreshFinger newRtt)
  match getFinger srv id with
  | none => .error .nullPointer
  | some f => refreshPred (activateFinger srv f) (predFinger srv)

/-- `process_pong`. -/
def processPong (msg : Pong) (frm : Node) : Except Fault Outcome := do
  if srv.node.addr.isUnspecified then
    return ⟨srv, [], .addrUndiscovered⟩
  let valid ← verifyTicket L srv (io.time 0) msg.ticket (pingArgs frm.addr frm.port msg.time)
  if ¬ valid then
    return ⟨srv, [], .invalidTicket⟩
  let r ← insertFinger srv frm.id frm.addr frm.port
  match r.finger with
  | none => return ⟨r.srv, [], .fingerError⟩
  | some id =>
      let newRtt := io.now 0 - msg.time
      let srv ← acceptPong r.srv id newRtt.toInt64.toInt
      return ⟨srv, [], .noError⟩

/-- The handler `new_server` registers for the type of the message. -/
def process (msg : Msg) (frm : Node) : Except Fault Outcome :=
  match msg with
  | .addrDiscover m => processAddrDiscover srv m frm
  | .addrDiscoverReply m => processAddrDiscoverReply L io srv m frm
  | .data m => processData io srv m frm
  | .fs m => processFs L io srv m frm
  | .fsReply m => processFsReply L io srv m frm
  | .stab m => processStab L io srv m frm
  | .stabReply m => processStabReply L io srv m frm
  | .notify => processNotify L io srv frm
  | .ping m => processPing L io srv m frm
  | .pong m => processPong L io srv m frm

end Process

end Tangent
