import Mathlib.Data.Nat.Bitwise
import Tangent.Discovery
import Tangent.Model.Dispatcher
import Tangent.Security.Requests

/-!
# A server behind a network address translation

The packets of a server reach its peers from a public address and port.  A peer that is asked
for the server's address answers with the public address alone, and the server hashes it with the
port it is bound to, while every peer hashes the address and port the packets come from.
-/

namespace Tangent

variable {L : Library} {io : Io} {A A' : ChordServer} {frm : Peer} {p q : UInt16}

/-! ### Positions and ports -/

theorem toNat_htons (v : UInt16) :
  (htons v).toNat = v.toNat % 256 * 256 + v.toNat / 256
  := by
  have hv := v.toNat_lt
  have hlow : v.toNat * 256 % 65536 = 2 ^ 8 * (v.toNat % 256) := by
    omega
  rw [htons, UInt16.toNat_or, UInt16.toNat_shiftLeft, UInt16.toNat_shiftRight]
  simp only [UInt16.reduceToNat, Nat.reduceMod, Nat.shiftLeft_eq, Nat.shiftRight_eq_div_pow,
    Nat.reducePow]
  rw [hlow, ← Nat.two_pow_add_eq_or_of_lt (by omega)]
  omega

theorem htons_injective :
  Function.Injective htons
  := by
  intro p q h
  apply UInt16.toNat_inj.mp
  have hp := p.toNat_lt
  have hq := q.toNat_lt
  have h' := congrArg UInt16.toNat h
  rw [toNat_htons, toNat_htons] at h'
  omega

/-- The byte strings that `get_address_id` hashes for two ports under one address are different
and have one digest. -/
def portsCollide (L : Library) (addr : In6Addr) (p q : UInt16) : Prop :=
  vpackHash [.v6 addr, .s (htons p)] ≠ vpackHash [.v6 addr, .s (htons q)] ∧
    L.sha1 (vpackHash [.v6 addr, .s (htons p)]) = L.sha1 (vpackHash [.v6 addr, .s (htons q)])

/-- Two ports have one position under one address if and only if they are equal or collide. -/
theorem getAddressId_eq_iff {addr : In6Addr} :
  getAddressId L addr p = getAddressId L addr q ↔ p = q ∨ portsCollide L addr p q
  := by
  constructor
  · intro h
    by_cases hpq : p = q
    · exact .inl hpq
    · refine .inr ⟨?_, h⟩
      intro hbytes
      have hargs := vpackHash_inj (by simp [HashArg.letter]) hbytes
      simp only [List.cons.injEq, HashArg.s.injEq, true_and, and_true] at hargs
      exact hpq (htons_injective hargs)
  · rintro (rfl | ⟨-, hdigest⟩)
    · rfl
    · exact hdigest

/-! ### Translations -/

/-- A translation of the address and port of a server: the packets it sends from `priv` come from
`pub`, whoever gets them. -/
structure Translation where
  priv : Peer
  pub : Peer
  specified : pub.addr.isUnspecified = false

/-- The message is what a server answers to an address discovery that the translated server has
sent. -/
def HonestReply (L : Library) (nat : Translation) (m : AddrDiscoverReply) : Prop :=
  ∃ io P request out, process L io P (.addrDiscover request) (nat.pub.node L) = .ok out ∧
    .send ⟨nat.pub.addr, nat.pub.port, .addrDiscoverReply m⟩ ∈ out.acts

variable {nat : Translation} {m : AddrDiscoverReply}

/-- An honest reply carries the public address. -/
theorem HonestReply.addr_eq (h : HonestReply L nat m) :
  m.addr = nat.pub.addr.s6Addr
  := by
  obtain ⟨io, P, request, out, hout, hsend⟩ := h
  cases hout
  simp only [sendAddrDiscoverReply, sendPacket, List.nil_append, List.mem_singleton,
    Action.send.injEq, Packet.mk.injEq, Msg.addrDiscoverReply.injEq] at hsend
  rw [hsend.2.2]
  rfl

/-- A server that accepts an honest reply takes the public address, and the position of that
address and its own port. -/
theorem HonestReply.node_eq {out : Outcome} (h : HonestReply L nat m) (hun : ¬ A.Discovered)
    (hout : process L io A (.addrDiscoverReply m) (frm.node L) = .ok out)
    (hret : out.ret = .noError) :
  out.srv.node = ⟨getAddressId L nat.pub.addr A.node.port, nat.pub.addr, A.node.port⟩
  := by
  obtain ⟨-, rfl⟩ | ⟨-, -, rfl⟩ | ⟨hd, -⟩ := processAddrDiscoverReply_cases hout
  · cases hret
  · simp only [adoptAddress, chordUpdateRange, h.addr_eq, fieldAddr_s6Addr]
  · exact absurd hd hun

/-- Whatever happens after a server has accepted an honest reply, its identifier is the one its
peers compute for the packets it sends, if and only if the translation keeps its port or the two
ports collide. -/
theorem id_agrees_iff {out : Outcome} {es : List Event} (hA : Reachable L A)
    (hport : A.node.port = nat.priv.port) (hun : ¬ A.Discovered) (hreply : HonestReply L nat m)
    (hout : process L io A (.addrDiscoverReply m) (frm.node L) = .ok out)
    (hret : out.ret = .noError) (hrun : run L out.srv es = .ok A') :
  (∀ src : Source, src.peer = nat.pub → A'.node.id = (src.peer.node L).id) ↔
    nat.priv.port = nat.pub.port ∨ portsCollide L nat.pub.addr nat.priv.port nat.pub.port
  := by
  have hnode := hreply.node_eq hun hout hret
  have hstep : step L A (.packet frm (.addrDiscoverReply m) io) = .ok out.srv := by
    rw [step, react, hout]
    rfl
  have hrun₁ : run L A [.packet frm (.addrDiscoverReply m) io] = .ok out.srv :=
    Machine.run_cons_eq_ok.mpr ⟨out.srv, hstep, rfl⟩
  have hreach := hA.run hrun₁
  have hd : out.srv.Discovered := by
    rw [ChordServer.Discovered, hnode]
    exact nat.specified
  rw [hreach.node_eq hd hrun, hnode, hport, ← getAddressId_eq_iff]
  constructor
  · intro hall
    exact hall (.in6 nat.pub.addr nat.pub.port) rfl
  · intro heq src hsrc
    rw [hsrc]
    exact heq

/-! ### Samples -/

/-- The sample library with a hash that keeps the first twenty bytes. -/
def plainLibrary : Library :=
  { sampleLibrary with
    sha1 := fun b => ⟨(b ++ List.replicate 20 0).take 20, by simp⟩ }

/-- The private port is `1`, the public one `port`. -/
def sampleTranslation (port : UInt16) : Translation :=
  ⟨samplePeer 7 0, ⟨(samplePeer 5 0).addr, port⟩,
    (by decide : (samplePeer 5 0).addr.isUnspecified = false)⟩

/-- The reply of a server that has got an address discovery from behind the translation. -/
def sampleReply : AddrDiscoverReply :=
  ⟨sampleTicket, (samplePeer 5 0).addr.s6Addr⟩

theorem sampleReply_honest (port : UInt16) :
  HonestReply plainLibrary (sampleTranslation port) sampleReply
  := by
  refine ⟨sampleIo, newServer (sampleConfig (samplePeer 9 0)), ⟨sampleTicket⟩, _, rfl, ?_⟩
  exact List.mem_singleton.mpr rfl

/-- The server after the reply. -/
def sampleTranslated : Outcome :=
  ⟨adoptAddress plainLibrary (newServer (sampleConfig (samplePeer 7 0))) (samplePeer 5 0).addr, [],
    .noError⟩

theorem sampleTranslated_eq :
  process plainLibrary sampleIo (newServer (sampleConfig (samplePeer 7 0)))
    (.addrDiscoverReply sampleReply) ((samplePeer 9 0).node plainLibrary) = .ok sampleTranslated
  := by
  decide

/-- A translation that keeps the port. -/
theorem id_agrees_iff_sample :
  sampleTranslated.srv.node.id = ((sampleTranslation 1).pub.node plainLibrary).id
  := by
  have hrun : run plainLibrary sampleTranslated.srv [] = .ok sampleTranslated.srv := rfl
  have hagrees := (id_agrees_iff ⟨_, [], rfl⟩ rfl (by decide) (sampleReply_honest 1)
    sampleTranslated_eq rfl hrun).mpr (.inl rfl)
  exact hagrees (.in6 (samplePeer 5 0).addr 1) rfl

/-- A translation that maps the port `1` to the port `2`: the server takes the position of its
address and its own port, its peers compute that of the address and the public port. -/
theorem translated_port_disagrees :
  Reachable plainLibrary (newServer (sampleConfig (samplePeer 7 0))) ∧
    (newServer (sampleConfig (samplePeer 7 0))).node.port = (sampleTranslation 2).priv.port ∧
    ¬ (newServer (sampleConfig (samplePeer 7 0))).Discovered ∧
    HonestReply plainLibrary (sampleTranslation 2) sampleReply ∧
    process plainLibrary sampleIo (newServer (sampleConfig (samplePeer 7 0)))
      (.addrDiscoverReply sampleReply) ((samplePeer 9 0).node plainLibrary)
        = .ok sampleTranslated ∧
    ∃ src : Source, src.peer = (sampleTranslation 2).pub ∧
      sampleTranslated.srv.node.id ≠ (src.peer.node plainLibrary).id
  := by
  refine ⟨⟨_, [], rfl⟩, rfl, by decide, sampleReply_honest 2, sampleTranslated_eq, ?_⟩
  use .in6 (samplePeer 5 0).addr 2, rfl
  decide

end Tangent
