import Tangent.Model.Process

/-!
# The maintenance timer

`stabilize.c` and `discover_addr` of `join.c`.  The counter `idx` of `stabilize` is a
static variable shared by the servers of a process; it is an argument and a result here.
The identifiers `id_random_between` draws are computed and not sent, so neither they nor
their draws appear.  What `ping` writes into local buffers before it drops a finger is in
`Model.Serve`.
-/

namespace Tangent

section Stabilize

variable (L : Library) (io : Io)

/-! ### Pinging -/

/-- Count one more unanswered ping. -/
def countPing (f : Finger) : Finger :=
  { f with npings := f.npings + 1 }

/-- The variables of the loop of `ping`: the server, the actions so far, and the finger
`f_pinged`. -/
structure PingState where
  srv : ChordServer
  acts : List Action
  pinged : Option ChordID

/-- The loop of `ping`, over the fingers from the `i`-th on, where the texts of the addresses fit
into its buffers; `Serve.pingLoop` is the loop with the buffers. -/
def pingLoop : List Finger → ℕ → PingState → PingState
  | [], _, st => st
  | f :: fs, i, st =>
      if pingThresh ≤ f.npings then
        pingLoop fs (i + 1) { st with srv := removeFinger st.srv f }
      else if f.npings ≠ 0 ∨ st.srv.toPing = i then
        pingLoop fs (i + 1)
          { srv := modifyFinger st.srv f.node.id countPing
            acts := sendPing L io st.srv st.acts f.node.addr f.node.port
            pinged := if st.srv.toPing = i then some f.node.id else st.pinged }
      else
        pingLoop fs (i + 1) st

/-- `ping`. -/
def ping (srv : ChordServer) : ChordServer × List Action :=
  let st := pingLoop L io srv.flist 0 ⟨srv, [], none⟩
  if st.pinged = none ∨ st.pinged = st.srv.flist.getLast?.map (·.node.id) then
    ({ st.srv with toPing := 0 }, st.acts)
  else
    ({ st.srv with toPing := st.srv.toPing + 1 }, st.acts)

/-! ### Fixing successors, predecessors and fingers -/

/-- Follow `next` from a finger `k` times, or until the last finger: the finger reached
and the fingers behind it. -/
def walkNext : ℕ → Finger → List Finger → Finger × List Finger
  | k + 1, _, g :: gs => walkNext k g gs
  | _, f, fs => (f, fs)

/-- The loop of `fix_succs_preds` over the predecessors: `k` of them have been passed,
the list leads from the current one back to the head. -/
def fixPredsLoop (srv : ChordServer) (succ : Finger) (acts : List Action) :
    ℕ → List Finger → List Action
  | k, f :: g :: fs =>
      if npredecessors ≤ k then
        acts
      else if srv.flist.getLast?.map (·.node.id) = some f.node.id then
        fixPredsLoop srv succ acts (k + 1) (g :: fs)
      else if f.node.id = succ.node.id then
        acts
      else if k = srv.toFixBackup then
        sendFs L io srv acts defTtl f.node.addr f.node.port srv.node.addr srv.node.port
      else
        fixPredsLoop srv succ acts (k + 1) (g :: fs)
  | _, _ => acts

/-- `fix_succs_preds`. -/
def fixSuccsPreds (srv : ChordServer) (acts : List Action) : ChordServer × List Action :=
  match srv.flist.dropWhile (fun f => !f.isActive) with
  | [] => (srv, acts)
  | f :: fs =>
      match walkNext srv.toFixBackup f fs with
      | (_, []) => ({ srv with toFixBackup := 0 }, acts)
      | (f, _ :: _) =>
          let acts :=
            sendFs L io srv acts defTtl f.node.addr f.node.port srv.node.addr srv.node.port
          let acts := fixPredsLoop L io srv f acts 0
            (srv.flist.reverse.dropWhile (fun f => !f.isActive))
          let next := srv.toFixBackup + 1
          ({ srv with toFixBackup := if nsuccessors ≤ next then 0 else next }, acts)

/-- The loop of `fix_fingers` over the well-known nodes, `i` of which have been passed. -/
def askWellKnown (srv : ChordServer) (rnd : ℕ) : ℕ → List Peer → List Action → List Action
  | _, [], acts => acts
  | i, p :: ps, acts =>
      let i := i + 1
      askWellKnown srv rnd i ps
        (if i = rnd then sendFs L io srv acts defTtl p.addr p.port srv.node.addr srv.node.port
          else acts)

/-- The part of `fix_fingers` that moves its cursor; when the cursor starts anew, a
well-known node is asked. -/
def moveFixFinger (srv : ChordServer) (succ : Finger) (acts : List Action) :
    ChordServer × List Action :=
  let id := chordIdSuccessor srv.node.id srv.toFixFinger
  if idIsBetween id srv.node.id succ.node.id ∨ srv.toFixFinger = 0 then
    ({ srv with toFixFinger := nfingers - 1 },
      if 0 < srv.wellKnown.length then
        askWellKnown L io srv (io.random % srv.wellKnown.length) 0 srv.wellKnown acts
      else acts)
  else
    ({ srv with toFixFinger := srv.toFixFinger - 1 }, acts)

/-- The part of `fix_fingers` that asks a finger far away. -/
def askFarFinger (srv : ChordServer) (succ : Finger) (acts : List Action) : List Action :=
  let toId := chordIdSuccessor srv.node.id (nfingers - 1)
  let f := (closestPrecedingFinger srv toId false).getD succ
  let acts := sendFs L io srv acts defTtl f.node.addr f.node.port srv.node.addr srv.node.port
  if srv.toFixFinger = nfingers - 1 ∧ srv.flist ≠ [] then
    sendFs L io srv acts defTtl f.node.addr f.node.port srv.node.addr srv.node.port
  else
    acts

/-- `fix_fingers`. -/
def fixFingers (srv : ChordServer) (acts : List Action) :
    Except Fault (ChordServer × List Action) :=
  if chordIdBits ≤ srv.toFixFinger then
    .error .assertion
  else
    match succFinger srv with
    | none => .error .nullPointer
    | some succ =>
        let moved := moveFixFinger L io srv succ acts
        .ok (moved.1, askFarFinger L io moved.1 succ moved.2)

/-! ### Cleaning -/

/-- The inner loop of `clean_finger_list`, over the fingers from `f` back to the head: the
server, and the fingers from the next `f` on unless the function returns. -/
def cleanRemove (lastsucc id : ChordID) :
    List Finger → ChordServer → ChordServer × Option (List Finger)
  | f :: p :: fs, srv =>
      if f.node.id = lastsucc then
        (srv, none)
      else if idIsBetween p.node.id id f.node.id || idEquals p.node.id id then
        cleanRemove lastsucc id (p :: fs) (removeFinger srv f)
      else
        (srv, some (p :: fs))
  | _, srv => (srv, none)

/-- The outer loop of `clean_finger_list`, with `k` powers of two left and the fingers
from `f` back to the head. -/
def cleanLoop (lastsucc lastpred : ChordID) :
    ℕ → List Finger → ChordServer → Except Fault ChordServer
  | 0, _, srv => .ok srv
  | k + 1, fs, srv =>
      if fs.head?.map (·.node.id) = some lastsucc then
        .ok srv
      else
        let id := chordIdSuccessor srv.node.id k
        if idIsBetween id lastpred srv.node.id || idEquals id lastpred then
          cleanLoop lastsucc lastpred k fs srv
        else if idIsBetween id srv.node.id lastsucc || idEquals id srv.node.id then
          .ok srv
        else
          match fs with
          | [] => .error .nullPointer
          | f :: _ =>
              if idIsBetween f.node.id srv.node.id id then
                cleanLoop lastsucc lastpred k fs srv
              else
                match cleanRemove lastsucc id fs srv with
                | (srv, none) => .ok srv
                | (srv, some fs) => cleanLoop lastsucc lastpred k fs srv

/-- The loop of `clean_finger_list` that skips the predecessors, with `k` of them left:
the fingers from the one reached back to the head, unless the function returns. -/
def skipPreds (lastsucc : ChordID) : ℕ → List Finger → Except Fault (Option (List Finger))
  | 0, fs => .ok (some fs)
  | _ + 1, [] => .error .nullPointer
  | k + 1, f :: fs => if f.node.id = lastsucc then .ok none else skipPreds lastsucc k fs

/-- `clean_finger_list`. -/
def cleanFingerList (srv : ChordServer) : Except Fault ChordServer :=
  match srv.flist.drop (nsuccessors - 1) with
  | lastsucc :: _ :: _ => do
      match ← skipPreds lastsucc.node.id (npredecessors - 1) srv.flist.reverse with
      | none => pure srv
      | some [] => throw .nullPointer
      | some (lastpred :: fs) =>
          cleanLoop lastsucc.node.id lastpred.node.id nfingers fs srv
  | _ => .ok srv

/-! ### The timer -/

/-- `CHORD_CLEAN_PERIOD`. -/
abbrev chordCleanPeriod : ℕ := 60

/-- `PERIOD_PING_PRED`. -/
abbrev periodPingPred : ℕ := 5

/-- What a tick leaves behind: the server, what it did and the counter `idx`. -/
structure Tick where
  srv : ChordServer
  acts : List Action
  idx : ℕ

/-- The loop of `stabilize` over the well-known nodes while the finger list is empty. -/
def joinWellKnown (srv : ChordServer) : List Peer → List Action → List Action
  | [], acts => acts
  | p :: ps, acts =>
      joinWellKnown srv ps
        (sendPing L io srv
          (sendFs L io srv acts defTtl p.addr p.port srv.node.addr srv.node.port)
          p.addr p.port)

/-- The part of `stabilize` that pings the predecessor in every `periodPingPred`-th
tick. -/
def pingPred (srv : ChordServer) (idx : ℕ) (acts : List Action) :
    Except Fault (List Action) :=
  if idx % periodPingPred = 0 then
    match predFinger srv with
    | none => .error .assertion
    | some pred => .ok (sendPing L io srv acts pred.node.addr pred.node.port)
  else
    .ok acts

/-- `stabilize`. -/
def stabilize (srv : ChordServer) (idx : ℕ) : Except Fault Tick := do
  if srv.flist = [] then
    return ⟨srv, joinWellKnown L io srv srv.wellKnown [], idx⟩
  let (srv, acts) := ping L io srv
  match succFinger srv with
  | none => return ⟨srv, acts, idx⟩
  | some succ =>
      let acts :=
        sendStab acts succ.node.addr succ.node.port srv.node.addr srv.node.port
      let acts ← pingPred L io srv idx acts
      let (srv, acts) := fixSuccsPreds L io srv acts
      let (srv, acts) ← fixFingers L io srv acts
      if idx % chordCleanPeriod = 0 then
        let srv ← cleanFingerList srv
        return ⟨srv, acts, idx + 1⟩
      return ⟨srv, acts, idx + 1⟩

/-- `discover_addr`. -/
def discoverAddr (srv : ChordServer) : List Action :=
  if srv.node.addr.isUnspecified then
    srv.wellKnown.foldl (fun acts p => sendAddrDiscover L io srv acts p.addr p.port) []
  else
    []

end Stabilize

end Tangent
