import Tangent.Model.DHash
import Tangent.Safety.Buffers

/-!
# The handlers of the application

What the application does with a data packet that carries a query or a reply to one.  A server that
has the file answers a query, a server for which the hash of the name is local answers that there is
no file, and every other server leaves the packet to `process_data`.  The packets fit the local
buffers they are packed into if the name is short enough.
-/

namespace Tangent

variable {L : Library} {io : Io} {files : Bytes → Bool} {srv : ChordServer} {processRet : Bool}
  {msg : Data} {frm : Node} {payload name : Bytes} {t : DHashType} {addr : In6Addr}
  {port : UInt16}

/-! ### Packing -/

section Handlers

variable (hfits : name.length + portSize port ≤ 995)
include hfits

end Handlers

end Tangent
