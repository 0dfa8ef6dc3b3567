import Tangent.Model.Dispatcher
import Tangent.Model.Run

/-!
# A server that sends

What `Model.Run` leaves out of a step because it changes nothing in the server, but may stop the
process: the packets go out through `send_func`, and before `ping` drops a finger, `inet_ntop`
writes the address of the server and that of the finger into local buffers of `INET_ADDRSTRLEN`
bytes.  It is told that they have `INET6_ADDRSTRLEN` bytes, so it does not stop at their end.
-/

namespace Tangent

/-! ### The text of an address -/

/-- The words of an address. -/
def In6Addr.words (addr : In6Addr) : List ℕ :=
  (List.range 8).map fun i =>
    256 * (addr.s6Addr.getD (2 * i) 0).toNat + (addr.s6Addr.getD (2 * i + 1) 0).toNat

/-- A run of words that are zero: where it starts, and how many there are. -/
structure ZeroRun where
  base : ℕ
  len : ℕ
  deriving DecidableEq

/-- The longer of two runs, and the first if they are equally long. -/
def ZeroRun.better : Option ZeroRun → Option ZeroRun → Option ZeroRun
  | best, none => best
  | none, some cur => some cur
  | some best, some cur => if best.len < cur.len then some cur else some best

/-- The first loop of `inet_ntop`, over the words from the `i`-th on: the longest run. -/
def longestRun : ℕ → List ℕ → Option ZeroRun → Option ZeroRun → Option ZeroRun
  | _, [], best, cur => ZeroRun.better best cur
  | i, w :: ws, best, cur =>
      if w = 0 then
        longestRun (i + 1) ws best (some (match cur with
          | none => ⟨i, 1⟩
          | some cur => ⟨cur.base, cur.len + 1⟩))
      else
        longestRun (i + 1) ws (ZeroRun.better best cur) none

/-- The run that is written as two colons: a single zero is not. -/
def compressedRun (words : List ℕ) : Option ZeroRun :=
  (longestRun 0 words none none).filter (2 ≤ ·.len)

/-- The text of an IPv4 address. -/
def inetNtop4 (bytes : Bytes) : List Char :=
  ['.'].intercalate (bytes.map fun b => Nat.toDigits 10 b.toNat)

/-- The address is written with an IPv4 address at its end. -/
def endsInV4 (words : List ℕ) : Bool :=
  match compressedRun words with
  | none => false
  | some run =>
      run.base = 0 ∧ (run.len = 6 ∨ (run.len = 5 ∧ words.getD 5 0 = 0xffff))

/-- The second loop of `inet_ntop`, over the words from the `i`-th on; `v4` is what is written for
the sixth and the seventh word if they are an IPv4 address. -/
def writeWords (run : Option ZeroRun) (v4 : Option (List Char)) : ℕ → List ℕ → List Char
  | _, [] => []
  | i, w :: ws =>
      if run.any fun run => run.base ≤ i ∧ i < run.base + run.len then
        (if run.any (·.base = i) then [':'] else []) ++ writeWords run v4 (i + 1) ws
      else
        (if i ≠ 0 then [':'] else []) ++
          match (if i = 6 then v4 else none) with
          | some text => text
          | none => Nat.toDigits 16 w ++ writeWords run v4 (i + 1) ws

/-- `inet_ntop`, for an address of version 6: the characters before the final zero. -/
def inetNtop (addr : In6Addr) : List Char :=
  let run := compressedRun addr.words
  let v4 := if endsInV4 addr.words then some (inetNtop4 (addr.s6Addr.drop 12)) else none
  writeWords run v4 0 addr.words
    ++ if run.any (fun run => run.base + run.len = 8) then [':'] else []

/-- `INET_ADDRSTRLEN`. -/
abbrev inetAddrstrlen : ℕ := 16

/-- The text of the address and its final zero fit into a buffer of `inetAddrstrlen` bytes. -/
def textFits (addr : In6Addr) : Prop :=
  (inetNtop addr).length < inetAddrstrlen

instance (addr : In6Addr) : Decidable (textFits addr) :=
  inferInstanceAs (Decidable (_ < _))

/-- A call of `inet_ntop` that writes into such a buffer. -/
def writeText (addr : In6Addr) : Except Fault Unit :=
  if textFits addr then .ok () else .error .overrun

/-! ### Sending -/

/-- The packets among the actions go out. -/
def sendAll (srv : ChordServer) : List Action → Except Fault Unit
  | [] => .ok ()
  | .send pkt :: acts => do
      sendFunc srv pkt
      sendAll srv acts
  | .upcall .. :: acts => sendAll srv acts

/-! ### The maintenance timer -/

namespace Serve

variable (L : Library) (io : Io)

/-- The loop of `ping`, over the fingers from the `i`-th on. -/
def pingLoop : List Finger → ℕ → PingState → Except Fault PingState
  | [], _, st => .ok st
  | f :: fs, i, st =>
      if pingThresh ≤ f.npings then do
        writeText st.srv.node.addr
        writeText f.node.addr
        pingLoop fs (i + 1) { st with srv := removeFinger st.srv f }
      else if f.npings ≠ 0 ∨ st.srv.toPing = i then do
        sendAll st.srv (sendPing L io st.srv [] f.node.addr f.node.port)
        pingLoop fs (i + 1)
          { srv := modifyFinger st.srv f.node.id countPing
            acts := sendPing L io st.srv st.acts f.node.addr f.node.port
            pinged := if st.srv.toPing = i then some f.node.id else st.pinged }
      else
        pingLoop fs (i + 1) st

/-- `ping`. -/
def ping (srv : ChordServer) : Except Fault (ChordServer × List Action) := do
  let st ← pingLoop L io srv.flist 0 ⟨srv, [], none⟩
  if st.pinged = none ∨ st.pinged = st.srv.flist.getLast?.map (·.node.id) then
    return ({ st.srv with toPing := 0 }, st.acts)
  else
    return ({ st.srv with toPing := st.srv.toPing + 1 }, st.acts)

/-- `stabilize`, which calls `ping` first unless the finger list is empty.  If this returns, the
rest goes on with what `Tangent.ping` leaves. -/
def stabilize (srv : ChordServer) (idx : ℕ) : Except Fault Tick :=
  if srv.flist = [] then
    Tangent.stabilize L io srv idx
  else do
    let _ ← ping L io srv
    Tangent.stabilize L io srv idx

/-- The server after an event, and what it did, before the packets go out that `ping` does not
send. -/
def react (srv : ChordServer) : Event → Except Fault (ChordServer × List Action)
  | .packet frm msg io => Tangent.react L srv (.packet frm msg io)
  | .tick idx io => (stabilize L io srv idx).map fun t => (t.srv, t.acts)
  | .discover io => Tangent.react L srv (.discover io)

end Serve

/-- The server after an event, and all it has done. -/
def serve (L : Library) (st : ChordServer × List Action) (e : Event) :
    Except Fault (ChordServer × List Action) := do
  let r ← Serve.react L st.1 e
  sendAll r.1 r.2
  return (r.1, st.2 ++ r.2)

end Tangent
