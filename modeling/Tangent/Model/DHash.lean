import Tangent.Model.Wire

/-!
# The file sharing application

The DHash layer of `file_client`, as far as its messages travel over Chord: the messages of
`d_messages.proto`, the send functions of `send.cpp` with the pack functions of `pack.cpp` they
call, the handlers of `process.cpp`, and `dhash_unpack_chord_data`, which `dhash_start` registers
for data packets.

Which files a process has is a predicate on names.  File transfers and packets to the control
socket are recorded as effects.  The send functions pack into local buffers of 1024 bytes, and what
is printed goes through a static buffer of that size.
-/

namespace Tangent

/-! ### Messages -/

/-- The packet types of `dhash.h` that travel in data packets. -/
inductive DHashType where
  | query
  | queryReplySuccess
  | queryReplyFailure
  | push
  | pushReply
  deriving DecidableEq

/-- The number a type stands for. -/
def DHashType.code : DHashType → UInt32
  | .query => 0
  | .queryReplySuccess => 1
  | .queryReplyFailure => 2
  | .push => 3
  | .pushReply => 4

section Process

variable (L : Library) (io : Io) (files : Bytes → Bool) (srv : ChordServer)

end Process

end Tangent
