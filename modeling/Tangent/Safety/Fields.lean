import Tangent.Security.Tickets

/-!
# The bytes a handler reads

The addresses and identifiers in a message are byte strings of any length, of which the handlers
copy sixteen, or twenty, bytes.  `ReadsField` lists these copies.  No handler compares the length
of a field with what it copies; what keeps it inside the message, or makes it drop the message,
is another test it happens to make.  A test behind the copy does so only if the field is not empty,
since there is nothing to copy then.
-/

namespace Tangent

variable {L : Library} {io : Io} {srv : ChordServer} {frm : Peer} {msg : Msg}

/-- The handler of the message copies the first `k` bytes of the field.  `process_data` does so
before its tests, `process_fs`, `process_fs_reply`, `process_stab` and `process_stab_reply` when
they have tested that the address of the server is known, and `process_addr_discover_reply` when
it has verified the ticket and the address is not known. -/
inductive ReadsField (L : Library) (io : Io) (srv : ChordServer) (frm : Peer) :
    Msg → Bytes → ℕ → Prop where
  | addrDiscoverReply {m : AddrDiscoverReply}
      (verified : verifyTicket L srv (io.time 0) m.ticket (addrDiscoverArgs frm.addr frm.port)
        = .ok true)
      (undiscovered : ¬ srv.Discovered) :
      ReadsField L io srv frm (.addrDiscoverReply m) m.addr 16
  | data {m : Data} : ReadsField L io srv frm (.data m) m.id chordIdBytes
  | fs {m : FindSuccessor} (discovered : srv.Discovered) :
      ReadsField L io srv frm (.fs m) m.addr 16
  | fsReply {m : FindSuccessorReply} (discovered : srv.Discovered) :
      ReadsField L io srv frm (.fsReply m) m.addr 16
  | stab {m : Stabilize} (discovered : srv.Discovered) :
      ReadsField L io srv frm (.stab m) m.addr 16
  | stabReply {m : StabilizeReply} (discovered : srv.Discovered) :
      ReadsField L io srv frm (.stabReply m) m.addr 16

/-- The handler rejects the message or reads inside its fields. -/
def staysInside (L : Library) (io : Io) (srv : ChordServer) (frm : Peer) (msg : Msg) : Prop :=
  rejected L io srv frm msg ∨
    ∀ field k, ReadsField L io srv frm msg field k → k ≤ field.length

/-- The field of the message is long enough, or a test of the handler ends the matter; a test
that comes behind the copy does so if the field is not empty. -/
def longEnough (L : Library) (io : Io) (srv : ChordServer) (frm : Peer) : Msg → Prop
  | .addrDiscoverReply m =>
      16 ≤ m.addr.length ∨ srv.Discovered ∨
        verifyTicket L srv (io.time 0) m.ticket (addrDiscoverArgs frm.addr frm.port) ≠ .ok true
  | .data m => chordIdBytes ≤ m.id.length ∨ (m.id ≠ [] ∧ (¬ srv.Discovered ∨ m.ttl = 1))
  | .fs m => 16 ≤ m.addr.length ∨ ¬ srv.Discovered ∨ (m.addr ≠ [] ∧ m.ttl = 1)
  | .fsReply m =>
      16 ≤ m.addr.length ∨ ¬ srv.Discovered ∨
        (m.addr ≠ [] ∧ verifyTicket L srv (io.time 0) m.ticket fsArgs = .ok false)
  | .stab m => 16 ≤ m.addr.length ∨ ¬ srv.Discovered
  | .stabReply m => 16 ≤ m.addr.length ∨ ¬ srv.Discovered
  | _ => True

/-! ### Copies inside a field -/

/-- A copy that stays inside the buffer does not depend on what lies behind it. -/
theorem memcpy_congr {k : ℕ} {src : Bytes} (h : k ≤ src.length) (behind behind' : ℕ → UInt8) :
  memcpy k src behind = memcpy k src behind'
  := by
  apply List.map_congr_left
  intro i hi
  have hlt : i < src.length := (List.mem_range.mp hi).trans_le h
  simp [hlt]

theorem v6AddrSet_congr {addr : Bytes} (h : 16 ≤ addr.length) (behind behind' : ℕ → UInt8) :
  v6AddrSet addr behind = v6AddrSet addr behind'
  := by
  have heq : fieldAddr addr behind = fieldAddr addr behind' :=
    In6Addr.ext (memcpy_congr h behind behind')
  rw [v6AddrSet, v6AddrSet, heq]

theorem chordIdSet_congr {id : Bytes} (h : chordIdBytes ≤ id.length)
    (behind behind' : ℕ → UInt8) :
  chordIdSet id behind = chordIdSet id behind'
  := by
  have heq : fieldId id behind = fieldId id behind' := ChordID.ext (memcpy_congr h behind behind')
  rw [chordIdSet, chordIdSet, heq]

/-! ### Messages that are rejected -/

theorem ttl_sub_one_eq_zero_iff {ttl : UInt32} :
  ttl - 1 = 0 ↔ ttl = 1
  := by
  grind

/-- A data packet is rejected while the address is not known and at its last hop, if it has an
identifier. -/
theorem data_rejected_iff {m : Data} :
  rejected L io srv frm (.data m) ↔ m.id ≠ [] ∧ (¬ srv.Discovered ∨ m.ttl = 1)
  := by
  constructor
  · rintro ⟨ret, hret, hproc⟩
    refine ⟨processData_id_ne (n := frm.node L) hproc, ?_⟩
    obtain ⟨ret', -, hreason, -⟩ | ⟨-, -, -, hout⟩ | ⟨-, -, -, hout⟩ :=
      processData_cases (n := frm.node L) hproc
    · rwa [ttl_sub_one_eq_zero_iff] at hreason
    · cases hout
    · cases hout
  · rintro ⟨hne, hreason⟩
    by_cases hd : srv.Discovered
    · have httl := ttl_sub_one_eq_zero_iff.mpr (hreason.resolve_left (not_not.mpr hd))
      use .ttlExpired, by decide
      rw [process, processData, chordIdSet_of_ne hne, Except.ok_bind,
        if_neg (not_unspecified_of_discovered hd), if_pos httl]
    · apply rejected_of_not_discovered hd (by simp) (by simp)
      rintro _ ⟨⟩
      exact hne

/-- A lookup is rejected while the address is not known, and at its last hop if it has an
address. -/
theorem fs_rejected_iff {m : FindSuccessor} :
  rejected L io srv frm (.fs m) ↔ ¬ srv.Discovered ∨ (m.addr ≠ [] ∧ m.ttl = 1)
  := by
  constructor
  · rintro ⟨ret, hret, hproc⟩
    by_cases hd : srv.Discovered
    · right
      refine ⟨processFs_addr_ne (n := frm.node L) hd hproc, ?_⟩
      obtain ⟨ret', -, hreason, -⟩ | ⟨-, -, -, hout⟩ | ⟨-, -, -, -, hout⟩ |
        ⟨-, -, -, s, -, -, hout⟩ | ⟨-, -, -, s, -, -, hout⟩ :=
          processFs_cases (n := frm.node L) hproc
      · exact ttl_sub_one_eq_zero_iff.mp (hreason.resolve_left (not_not.mpr hd))
      · cases hout
        exact absurd rfl hret
      · cases hout
      · cases hout
      · cases hout
    · exact .inl hd
  · intro hreason
    by_cases hd : srv.Discovered
    · obtain ⟨hne, httl⟩ := hreason.resolve_left (not_not.mpr hd)
      use .ttlExpired, by decide
      rw [process, processFs, if_neg (not_unspecified_of_discovered hd), v6AddrSet_of_ne hne,
        Except.ok_bind, if_pos (ttl_sub_one_eq_zero_iff.mpr httl)]
    · exact rejected_of_not_discovered hd (by simp) (by simp) (by simp)

/-- A reply to a lookup is rejected while the address is not known, and when it has an address
and its ticket does not verify. -/
theorem fsReply_rejected_iff {m : FindSuccessorReply} :
  rejected L io srv frm (.fsReply m) ↔
    ¬ srv.Discovered ∨
      (m.addr ≠ [] ∧ verifyTicket L srv (io.time 0) m.ticket fsArgs = .ok false)
  := by
  constructor
  · rintro ⟨ret, hret, hproc⟩
    by_cases hd : srv.Discovered
    · right
      refine ⟨processFsReply_addr_ne (n := frm.node L) hd hproc, ?_⟩
      obtain ⟨ret', -, hreason, -⟩ | ⟨-, -, -, hout⟩ | ⟨-, -, -, r, -, hout⟩ :=
        processFsReply_cases (n := frm.node L) hproc
      · exact hreason.resolve_left (not_not.mpr hd)
      · cases hout
        exact absurd rfl hret
      · simp only [Outcome.mk.injEq] at hout
        exact absurd hout.2.2 hret
    · exact .inl hd
  · intro hreason
    by_cases hd : srv.Discovered
    · obtain ⟨hne, hv⟩ := hreason.resolve_left (not_not.mpr hd)
      use .invalidTicket, by decide
      rw [process, processFsReply, if_neg (not_unspecified_of_discovered hd),
        v6AddrSet_of_ne hne]
      simp only [Except.ok_bind, hv]
      rfl
    · exact rejected_of_not_discovered hd (by simp) (by simp) (by simp)

/-- A stabilize message is rejected while the address is not known. -/
theorem stab_rejected_iff {m : Stabilize} :
  rejected L io srv frm (.stab m) ↔ ¬ srv.Discovered
  := by
  constructor
  · rintro ⟨ret, hret, hproc⟩
    obtain ⟨hun, -⟩ | ⟨-, r, -, hout | ⟨pred, -, hout⟩⟩ := processStab_cases (n := frm.node L) hproc
    · exact hun
    · simp only [Outcome.mk.injEq] at hout
      exact absurd hout.2.2 hret
    · simp only [Outcome.mk.injEq] at hout
      exact absurd hout.2.2 hret
  · intro hun
    exact rejected_of_not_discovered hun (by simp) (by simp) (by simp)

/-- A stabilize reply is rejected while the address is not known. -/
theorem stabReply_rejected_iff {m : StabilizeReply} :
  rejected L io srv frm (.stabReply m) ↔ ¬ srv.Discovered
  := by
  constructor
  · rintro ⟨ret, hret, hproc⟩ hd
    exact hret (processStabReply_ret (n := frm.node L) hd hproc)
  · intro hun
    exact rejected_of_not_discovered hun (by simp) (by simp) (by simp)

/-- A reply to an address discovery is rejected when its ticket does not verify. -/
theorem addrDiscoverReply_verified {m : AddrDiscoverReply}
    (h : rejected L io srv frm (.addrDiscoverReply m)) :
  verifyTicket L srv (io.time 0) m.ticket (addrDiscoverArgs frm.addr frm.port) ≠ .ok true
  := by
  obtain ⟨ret, hret, hproc⟩ := h
  obtain ⟨hv, -⟩ | ⟨-, -, hout⟩ | ⟨-, hout⟩ := processAddrDiscoverReply_cases hproc
  · intro hv'
    have hv : verifyTicket L srv (io.time 0) m.ticket (addrDiscoverArgs frm.addr frm.port)
      = .ok false := hv
    rw [hv] at hv'
    cases hv'
  · simp only [Outcome.mk.injEq] at hout
    exact absurd hout.2.2 hret
  · simp only [Outcome.mk.injEq] at hout
    exact absurd hout.2.2 hret

/-! ### Staying inside -/

/-- A handler that copies `k` bytes of one field, unless a condition on the message and the
server ends the matter, stays inside if and only if the field is long enough or the condition
holds. -/
theorem staysInside_iff_of {field : Bytes} {k : ℕ} {P : Prop}
    (honly : ∀ field' k', ReadsField L io srv frm msg field' k' → field' = field ∧ k' = k)
    (hread : ¬ P → ReadsField L io srv frm msg field k)
    (hrej : rejected L io srv frm msg → P)
    (hends : P → rejected L io srv frm msg ∨ ¬ ReadsField L io srv frm msg field k) :
  staysInside L io srv frm msg ↔ k ≤ field.length ∨ P
  := by
  constructor
  · rintro (hr | hreads)
    · exact .inr (hrej hr)
    · by_cases hP : P
      · exact .inr hP
      · exact .inl (hreads _ _ (hread hP))
  · rintro (hlen | hP)
    · right
      intro field' k' hr
      obtain ⟨rfl, rfl⟩ := honly _ _ hr
      exact hlen
    · rcases hends hP with hr | hnot
      · exact .inl hr
      · right
        intro field' k' hr
        obtain ⟨rfl, rfl⟩ := honly _ _ hr
        exact absurd hr hnot

/-- The same, if the condition is what the handler rejects the message for. -/
theorem staysInside_iff_of_rejected {field : Bytes} {k : ℕ} {P : Prop}
    (hread : ¬ P → ReadsField L io srv frm msg field k) (hrej : rejected L io srv frm msg ↔ P)
    (honly : ∀ field' k', ReadsField L io srv frm msg field' k' → field' = field ∧ k' = k) :
  staysInside L io srv frm msg ↔ k ≤ field.length ∨ P
  := staysInside_iff_of honly hread hrej.mp fun hP => .inl (hrej.mpr hP)

/-- A handler rejects a message or reads inside its fields if and only if the field is long
enough or a test of the handler ends the matter. -/
theorem staysInside_iff :
  staysInside L io srv frm msg ↔ longEnough L io srv frm msg
  := by
  cases msg with
  | addrDiscoverReply m =>
      apply staysInside_iff_of
      · rintro field k ⟨⟩
        exact ⟨rfl, rfl⟩
      · intro hnot
        rw [not_or, not_not] at hnot
        exact .addrDiscoverReply hnot.2 hnot.1
      · intro hrej
        exact .inr (addrDiscoverReply_verified hrej)
      · rintro (hd | hv)
        · right
          rintro ⟨-, undiscovered⟩
          exact undiscovered hd
        · right
          rintro ⟨verified, -⟩
          exact hv verified
  | data m =>
      apply staysInside_iff_of_rejected (fun _ => .data) data_rejected_iff
      rintro field k ⟨⟩
      exact ⟨rfl, rfl⟩
  | fs m =>
      apply staysInside_iff_of_rejected _ fs_rejected_iff
      · rintro field k ⟨⟩
        exact ⟨rfl, rfl⟩
      · intro hnot
        exact .fs (not_not.mp (not_or.mp hnot).1)
  | fsReply m =>
      apply staysInside_iff_of_rejected _ fsReply_rejected_iff
      · rintro field k ⟨⟩
        exact ⟨rfl, rfl⟩
      · intro hnot
        exact .fsReply (not_not.mp (not_or.mp hnot).1)
  | stab m =>
      apply staysInside_iff_of_rejected (fun hd => .stab (not_not.mp hd)) stab_rejected_iff
      rintro field k ⟨⟩
      exact ⟨rfl, rfl⟩
  | stabReply m =>
      apply staysInside_iff_of_rejected (fun hd => .stabReply (not_not.mp hd))
        stabReply_rejected_iff
      rintro field k ⟨⟩
      exact ⟨rfl, rfl⟩
  | _ =>
      apply iff_of_true _ trivial
      right
      rintro field k ⟨⟩

/-! ### What a handler acts on -/

theorem processAddrDiscoverReply_congr {m : AddrDiscoverReply}
    (h : longEnough L io srv frm (.addrDiscoverReply m)) (behind : ℕ → UInt8) :
  processAddrDiscoverReply L { io with behind := behind } srv m (frm.node L)
    = processAddrDiscoverReply L io srv m (frm.node L)
  := by
  rw [processAddrDiscoverReply, processAddrDiscoverReply]
  apply Except.bind_congr
  intro valid hv
  split
  · rfl
  · rename_i hvalid
    rw [not_not.mp hvalid] at hv
    split
    · rename_i hun
      rcases h with hlen | hd | hnot
      · rw [v6AddrSet_congr hlen behind io.behind]
      · exact absurd hd (not_discovered_of_unspecified hun)
      · exact absurd hv hnot
    · rfl

theorem processData_congr {m : Data} (h : longEnough L io srv frm (.data m))
    (behind : ℕ → UInt8) :
  processData { io with behind := behind } srv m (frm.node L)
    = processData io srv m (frm.node L)
  := by
  rw [processData, processData]
  rcases h with hlen | ⟨hne, hun | httl⟩
  · rw [chordIdSet_congr hlen behind io.behind]
  · simp only [chordIdSet_of_ne hne, Except.ok_bind, unspecified_of_not_discovered hun, if_true]
  · simp only [chordIdSet_of_ne hne, Except.ok_bind, ttl_sub_one_eq_zero_iff.mpr httl, if_true]

theorem processFs_congr {m : FindSuccessor} (h : longEnough L io srv frm (.fs m))
    (behind : ℕ → UInt8) :
  processFs L { io with behind := behind } srv m (frm.node L)
    = processFs L io srv m (frm.node L)
  := by
  rw [processFs, processFs]
  rcases h with hlen | hun | ⟨hne, httl⟩
  · rw [v6AddrSet_congr hlen behind io.behind]
  · simp only [unspecified_of_not_discovered hun, if_true]
  · simp only [v6AddrSet_of_ne hne, Except.ok_bind, ttl_sub_one_eq_zero_iff.mpr httl, if_true]

theorem processFsReply_congr_behind {m : FindSuccessorReply}
    (h : longEnough L io srv frm (.fsReply m)) (behind : ℕ → UInt8) :
  processFsReply L { io with behind := behind } srv m (frm.node L)
    = processFsReply L io srv m (frm.node L)
  := by
  rw [processFsReply, processFsReply]
  rcases h with hlen | hun | ⟨hne, hv⟩
  · rw [v6AddrSet_congr hlen behind io.behind]
    rfl
  · simp only [unspecified_of_not_discovered hun, if_true]
  · simp only [v6AddrSet_of_ne hne, Except.ok_bind, hv]
    rfl

theorem processStab_congr {m : Stabilize} (h : longEnough L io srv frm (.stab m))
    (behind : ℕ → UInt8) :
  processStab L { io with behind := behind } srv m (frm.node L)
    = processStab L io srv m (frm.node L)
  := by
  rw [processStab, processStab]
  rcases h with hlen | hun
  · rw [v6AddrSet_congr hlen behind io.behind]
  · simp only [unspecified_of_not_discovered hun, if_true]

theorem processStabReply_congr_behind {m : StabilizeReply}
    (h : longEnough L io srv frm (.stabReply m)) (behind : ℕ → UInt8) :
  processStabReply L { io with behind := behind } srv m (frm.node L)
    = processStabReply L io srv m (frm.node L)
  := by
  rw [processStabReply, processStabReply]
  rcases h with hlen | hun
  · rw [v6AddrSet_congr hlen behind io.behind]
    rfl
  · simp only [unspecified_of_not_discovered hun, if_true]

/-- What a handler that stays inside the message does is the same whatever lies behind the
fields of the message. -/
theorem process_congr_behind (h : longEnough L io srv frm msg) (behind : ℕ → UInt8) :
  process L { io with behind := behind } srv msg (frm.node L)
    = process L io srv msg (frm.node L)
  := by
  cases msg with
  | addrDiscover m => rfl
  | addrDiscoverReply m => exact processAddrDiscoverReply_congr h behind
  | data m => exact processData_congr h behind
  | fs m => exact processFs_congr h behind
  | fsReply m => exact processFsReply_congr_behind h behind
  | stab m => exact processStab_congr h behind
  | stabReply m => exact processStabReply_congr_behind h behind
  | notify => rfl
  | ping m => rfl
  | pong m => rfl

/-- In every state and for every message, the handler rejects the message or reads inside its
fields, if and only if the field it copies is long enough or one of its tests ends the matter;
and then what it does is a function of the message, whatever lies behind the field. -/
theorem fields_inside_iff (L : Library) (io : Io) (srv : ChordServer) (frm : Peer) (msg : Msg) :
  (staysInside L io srv frm msg ↔ longEnough L io srv frm msg) ∧
    (longEnough L io srv frm msg → ∀ behind,
      process L { io with behind := behind } srv msg (frm.node L)
        = process L io srv msg (frm.node L))
  := ⟨staysInside_iff, process_congr_behind⟩

/-- A stabilize message with one byte of an address makes the server insert a finger for whatever
lies behind the message, and one without an address stops the process. -/
theorem stab_reads_behind :
  ∃ srv, Reachable sampleLibrary srv ∧
    ¬ staysInside sampleLibrary sampleIo srv (samplePeer 2 0) (.stab ⟨[1], 1⟩) ∧
    process sampleLibrary { sampleIo with behind := fun _ => 7 } srv (.stab ⟨[1], 1⟩)
        ((samplePeer 2 0).node sampleLibrary)
      ≠ process sampleLibrary { sampleIo with behind := fun _ => 8 } srv (.stab ⟨[1], 1⟩)
        ((samplePeer 2 0).node sampleLibrary) ∧
    ¬ staysInside sampleLibrary sampleIo srv (samplePeer 2 0) (.stab ⟨[], 1⟩) ∧
    process sampleLibrary sampleIo srv (.stab ⟨[], 1⟩) ((samplePeer 2 0).node sampleLibrary)
      = .error .nullPointer
  := by
  refine ⟨sampleServer (samplePeer 1 0) [], sampleServer_reachable _ _, ?_, ?_, ?_, ?_⟩
  · rw [staysInside_iff]
    rintro (hlen | hun)
    · exact absurd hlen (by decide)
    · exact absurd hun (by decide)
  · decide
  · rw [staysInside_iff]
    rintro (hlen | hun)
    · exact absurd hlen (by decide)
    · exact absurd hun (by decide)
  · decide

end Tangent
