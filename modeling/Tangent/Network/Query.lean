import Tangent.DHash
import Tangent.Network.Stable

/-!
# File queries

A query for a name travels as a data packet towards the hash of the name.  The application sees it
at every server on the way, and a server that does not answer it forwards it.  In a stable ring of
servers that know their addresses a query is therefore answered once, if it fits the buffer it is
packed into and its hop count suffices for its route.
-/

namespace Tangent

variable {ι : Type*} {L : Library} {srv : ChordServer} {name : Bytes}

/-! ### Routes -/

variable {σ : ι → ChordServer} {id : ChordID} {i j o : ι} {r : List ι}

/-- Servers, the packets on their way, all packets sent so far, and the servers whose process has
faulted. -/
structure QueryNet (ι : Type*) extends Net ι where
  sent : List Datagram
  faulted : List ι

/-- A server of the network sends packets. -/
def QueryNet.send (net : QueryNet ι) (src : Peer) (acts : List Action) : QueryNet ι :=
  { net with
    flight := net.flight ++ datagrams src acts
    sent := net.sent ++ datagrams src acts }

section Datagrams

variable (hfits : name.length + portSize (σ o).node.port ≤ 995)
include hfits

end Datagrams

section Answer

variable [DecidableEq ι] {fs : ι → Bytes → Bool} {sent : List Datagram} {d : Datagram}
  {net : QueryNet ι}

variable (hfits : name.length + portSize (σ o).node.port ≤ 995)
include hfits

end Answer

end Tangent
