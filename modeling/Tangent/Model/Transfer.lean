import Tangent.Model.Crypt

/-!
# File transfers

`transfer.cpp`, as far as the framing goes.  The side that wants a file, `transfer_receive`, sends
the length of its name and the name; the other side, `transfer_send`, reads them, opens the file
and sends its size.  The contents follow through `UDT::sendfile` and `UDT::recvfile`.

UDT is a library.  A `Udt` says what its calls on a socket return, so it says how the streams are
split.  A loop gets as much fuel as it may need; one that runs out of it, or of bytes to receive,
has not returned.
-/

namespace Tangent

/-- What the calls of `UDT::send` and `UDT::recv` on a socket return: the `k`-th call, which asks
for `n` bytes, transfers some of them or fails. -/
structure Udt where
  send : ℕ → ℕ → Option ℕ
  recv : ℕ → ℕ → Option ℕ

/-- A UDT socket: the bytes put on the one stream, the bytes to come on the other, and the number
of calls made. -/
structure UdtSock where
  outgoing : Bytes
  incoming : Bytes
  sends : ℕ
  recvs : ℕ
  deriving DecidableEq

/-- A `Transfer`.  The strings are without their terminating zero. -/
structure Transfer where
  dir : Bytes
  file : Bytes
  udtSock : UdtSock
  deriving DecidableEq

/-- How far a function gets: it has done its work, it has returned `0`, it has not returned, or
its behaviour is undefined. -/
inductive IoResult (α : Type) where
  | done (a : α)
  | failed
  | waits
  | fault
  deriving DecidableEq

/-- Go on with what a function has done. -/
def IoResult.bind {α β : Type} (x : IoResult α) (k : α → IoResult β) : IoResult β :=
  match x with
  | .done a => k a
  | .failed => .failed
  | .waits => .waits
  | .fault => .fault

/-- The bytes of an integer in memory after `htons` or `htonl`, most significant byte first.
`ntohs` and `ntohl` read them with `Bytes.beNat`. -/
def netBytes (w n : ℕ) : Bytes :=
  (leBytes w n).reverse

section Buffers

variable (u : Udt) (fuel : ℕ)

/-- The loop of `blocking_send_buf`, with `sent` bytes sent so far.  Every call is given the whole
buffer. -/
def sendLoop (buf : Bytes) (size : ℕ) : ℕ → ℕ → UdtSock → IoResult UdtSock
  | 0, sent, s => if sent < size then .waits else .done s
  | fuel + 1, sent, s =>
      if sent < size then
        match u.send s.sends size with
        | none => .failed
        | some n =>
            sendLoop buf size fuel (sent + n)
              { s with outgoing := s.outgoing ++ buf.take n, sends := s.sends + 1 }
      else
        .done s

/-- `blocking_send_buf`. -/
def blockingSendBuf (s : UdtSock) (buf : Bytes) (size : ℤ) : IoResult UdtSock :=
  sendLoop u buf size.toNat fuel 0 s

/-- The loop of `blocking_recv_buf`, with `received` bytes received so far.  Every call stores
what it receives at the start of the buffer. -/
def recvLoop (size : ℕ) : ℕ → ℕ → Bytes → UdtSock → IoResult (Bytes × UdtSock)
  | 0, received, buf, s => if received < size then .waits else .done (buf, s)
  | fuel + 1, received, buf, s =>
      if received < size then
        if s.incoming = [] then
          .waits
        else
          match u.recv s.recvs (size - received) with
          | none => .failed
          | some count =>
              let n := min count s.incoming.length
              recvLoop size fuel (received + n) (s.incoming.take n ++ buf.drop n)
                { s with incoming := s.incoming.drop n, recvs := s.recvs + 1 }
      else
        .done (buf, s)

/-- `blocking_recv_buf`, which gets a buffer with some contents. -/
def blockingRecvBuf (s : UdtSock) (buf : Bytes) (size : ℤ) : IoResult (Bytes × UdtSock) :=
  recvLoop u size.toNat fuel 0 buf s

/-! ### The side that wants the file -/

/-- The part of `transfer_receive` that sends the name. -/
def sendFileName (trans : Transfer) : IoResult Transfer :=
  let nameLen := Int16.ofNat trans.file.length
  (blockingSendBuf u fuel trans.udtSock (netBytes 2 nameLen.toUInt16.toNat) 2).bind fun s =>
    (blockingSendBuf u fuel s trans.file nameLen.toInt).bind fun s =>
      .done { trans with udtSock := s }

/-- The part of `transfer_receive` that receives the size.  `old` is what is in memory. -/
def receiveFileSize (old : ℕ → UInt8) (trans : Transfer) : IoResult (Int32 × Transfer) :=
  (blockingRecvBuf u fuel trans.udtSock ((List.range 4).map old) 4).bind fun (buf, s) =>
    .done (Int32.ofNat (Bytes.beNat buf), { trans with udtSock := s })

/-- The size of the array `path`. -/
abbrev pathSize : ℕ := 1024

/-- The path of a file: the directory, a slash and the name. -/
def Transfer.path (trans : Transfer) : Bytes :=
  trans.dir ++ [47] ++ trans.file

/-! ### The side that has the file -/

/-- The part of `transfer_send` that receives the name.  The array for it has one byte more than
the name; what is stored as the file name ends at the first zero. -/
def receiveFileName (old : ℕ → UInt8) (trans : Transfer) : IoResult Transfer :=
  (blockingRecvBuf u fuel trans.udtSock ((List.range 2).map old) 2).bind fun (buf, s) =>
    let nameLen := (Int16.ofNat (Bytes.beNat buf)).toInt
    if nameLen + 1 ≤ 0 then
      .fault
    else
      (blockingRecvBuf u fuel s ((List.range nameLen.toNat).map old) nameLen).bind
        fun (buf, s) => .done { trans with file := buf.takeWhile (· ≠ 0), udtSock := s }

/-- The part of `transfer_send` that opens the file and sends its size.  `size` tells the size of
the file at a path, if it can be opened. -/
def sendFileSize (size : Bytes → Option Int32) (trans : Transfer) :
    IoResult (Int32 × Transfer) :=
  if pathSize ≤ trans.path.length then
    .fault
  else
    match size trans.path with
    | none => .failed
    | some size =>
        (blockingSendBuf u fuel trans.udtSock (netBytes 4 size.toUInt32.toNat) 4).bind fun s =>
          .done (size, { trans with udtSock := s })

/-- `transfer_send`; `copied` tells whether `UDT::sendfile` succeeds. -/
def transferSend (old : ℕ → UInt8) (size : Bytes → Option Int32) (copied : Bool)
    (trans : Transfer) : IoResult (Int32 × Transfer) :=
  (receiveFileName u fuel old trans).bind fun trans =>
    (sendFileSize u fuel size trans).bind fun (size, trans) =>
      if copied then .done (size, trans) else .failed

end Buffers

end Tangent
