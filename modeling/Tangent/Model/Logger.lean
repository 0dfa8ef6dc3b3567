import Mathlib.Data.UInt
import Tangent.Probing
import Tangent.Model.Id

/-!
# Loggers

`hashmap.c`, and the functions of `clog.c` that look loggers up and write messages.  A slot of the
map is free when its `in_use` is zero, and `table_size` is the number of slots.  Keys are strings
without their terminator.  Whether `calloc` can deliver a number of elements is a parameter of each
call: the tables a call asks for have different sizes.
-/

namespace Tangent.Logger

/-! ### Hashing strings -/

/-- `crc32_tab`. -/
def crc32Tab : List UInt64 :=
  [0x00000000, 0x77073096, 0xee0e612c, 0x990951ba, 0x076dc419, 0x706af48f, 0xe963a535, 0x9e6495a3,
   0x0edb8832, 0x79dcb8a4, 0xe0d5e91e, 0x97d2d988, 0x09b64c2b, 0x7eb17cbd, 0xe7b82d07, 0x90bf1d91,
   0x1db71064, 0x6ab020f2, 0xf3b97148, 0x84be41de, 0x1adad47d, 0x6ddde4eb, 0xf4d4b551, 0x83d385c7,
   0x136c9856, 0x646ba8c0, 0xfd62f97a, 0x8a65c9ec, 0x14015c4f, 0x63066cd9, 0xfa0f3d63, 0x8d080df5,
   0x3b6e20c8, 0x4c69105e, 0xd56041e4, 0xa2677172, 0x3c03e4d1, 0x4b04d447, 0xd20d85fd, 0xa50ab56b,
   0x35b5a8fa, 0x42b2986c, 0xdbbbc9d6, 0xacbcf940, 0x32d86ce3, 0x45df5c75, 0xdcd60dcf, 0xabd13d59,
   0x26d930ac, 0x51de003a, 0xc8d75180, 0xbfd06116, 0x21b4f4b5, 0x56b3c423, 0xcfba9599, 0xb8bda50f,
   0x2802b89e, 0x5f058808, 0xc60cd9b2, 0xb10be924, 0x2f6f7c87, 0x58684c11, 0xc1611dab, 0xb6662d3d,
   0x76dc4190, 0x01db7106, 0x98d220bc, 0xefd5102a, 0x71b18589, 0x06b6b51f, 0x9fbfe4a5, 0xe8b8d433,
   0x7807c9a2, 0x0f00f934, 0x9609a88e, 0xe10e9818, 0x7f6a0dbb, 0x086d3d2d, 0x91646c97, 0xe6635c01,
   0x6b6b51f4, 0x1c6c6162, 0x856530d8, 0xf262004e, 0x6c0695ed, 0x1b01a57b, 0x8208f4c1, 0xf50fc457,
   0x65b0d9c6, 0x12b7e950, 0x8bbeb8ea, 0xfcb9887c, 0x62dd1ddf, 0x15da2d49, 0x8cd37cf3, 0xfbd44c65,
   0x4db26158, 0x3ab551ce, 0xa3bc0074, 0xd4bb30e2, 0x4adfa541, 0x3dd895d7, 0xa4d1c46d, 0xd3d6f4fb,
   0x4369e96a, 0x346ed9fc, 0xad678846, 0xda60b8d0, 0x44042d73, 0x33031de5, 0xaa0a4c5f, 0xdd0d7cc9,
   0x5005713c, 0x270241aa, 0xbe0b1010, 0xc90c2086, 0x5768b525, 0x206f85b3, 0xb966d409, 0xce61e49f,
   0x5edef90e, 0x29d9c998, 0xb0d09822, 0xc7d7a8b4, 0x59b33d17, 0x2eb40d81, 0xb7bd5c3b, 0xc0ba6cad,
   0xedb88320, 0x9abfb3b6, 0x03b6e20c, 0x74b1d29a, 0xead54739, 0x9dd277af, 0x04db2615, 0x73dc1683,
   0xe3630b12, 0x94643b84, 0x0d6d6a3e, 0x7a6a5aa8, 0xe40ecf0b, 0x9309ff9d, 0x0a00ae27, 0x7d079eb1,
   0xf00f9344, 0x8708a3d2, 0x1e01f268, 0x6906c2fe, 0xf762575d, 0x806567cb, 0x196c3671, 0x6e6b06e7,
   0xfed41b76, 0x89d32be0, 0x10da7a5a, 0x67dd4acc, 0xf9b9df6f, 0x8ebeeff9, 0x17b7be43, 0x60b08ed5,
   0xd6d6a3e8, 0xa1d1937e, 0x38d8c2c4, 0x4fdff252, 0xd1bb67f1, 0xa6bc5767, 0x3fb506dd, 0x48b2364b,
   0xd80d2bda, 0xaf0a1b4c, 0x36034af6, 0x41047a60, 0xdf60efc3, 0xa867df55, 0x316e8eef, 0x4669be79,
   0xcb61b38c, 0xbc66831a, 0x256fd2a0, 0x5268e236, 0xcc0c7795, 0xbb0b4703, 0x220216b9, 0x5505262f,
   0xc5ba3bbe, 0xb2bd0b28, 0x2bb45a92, 0x5cb36a04, 0xc2d7ffa7, 0xb5d0cf31, 0x2cd99e8b, 0x5bdeae1d,
   0x9b64c2b0, 0xec63f226, 0x756aa39c, 0x026d930a, 0x9c0906a9, 0xeb0e363f, 0x72076785, 0x05005713,
   0x95bf4a82, 0xe2b87a14, 0x7bb12bae, 0x0cb61b38, 0x92d28e9b, 0xe5d5be0d, 0x7cdcefb7, 0x0bdbdf21,
   0x86d3d2d4, 0xf1d4e242, 0x68ddb3f8, 0x1fda836e, 0x81be16cd, 0xf6b9265b, 0x6fb077e1, 0x18b74777,
   0x88085ae6, 0xff0f6a70, 0x66063bca, 0x11010b5c, 0x8f659eff, 0xf862ae69, 0x616bffd3, 0x166ccf45,
   0xa00ae278, 0xd70dd2ee, 0x4e048354, 0x3903b3c2, 0xa7672661, 0xd06016f7, 0x4969474d, 0x3e6e77db,
   0xaed16a4a, 0xd9d65adc, 0x40df0b66, 0x37d83bf0, 0xa9bcae53, 0xdebb9ec5, 0x47b2cf7f, 0x30b5ffe9,
   0xbdbdf21c, 0xcabac28a, 0x53b39330, 0x24b4a3a6, 0xbad03605, 0xcdd70693, 0x54de5729, 0x23d967bf,
   0xb3667a2e, 0xc4614ab8, 0x5d681b02, 0x2a6f2b94, 0xb40bbe37, 0xc30c8ea1, 0x5a05df1b, 0x2d02ef8d
]

/-- `crc32`. -/
def crc32 (s : Bytes) : UInt64 :=
  s.foldl (fun crc32val b =>
    crc32Tab.getD ((crc32val ^^^ b.toUInt64) &&& 0xff).toNat 0 ^^^ (crc32val >>> 8)) 0

/-- `hashmap_hash_int`, in a map of `tableSize` slots. -/
def hashmapHashInt (tableSize : ℕ) (keystring : Bytes) : ℕ :=
  let key := crc32 keystring
  let key := key + (key <<< 12)
  let key := key ^^^ (key >>> 22)
  let key := key + (key <<< 4)
  let key := key ^^^ (key >>> 9)
  let key := key + (key <<< 10)
  let key := key ^^^ (key >>> 2)
  let key := key + (key <<< 7)
  let key := key ^^^ (key >>> 12)
  let key := (key >>> 3) * 2654435761
  key.toNat % tableSize

/-! ### The map -/

/-- `INITIAL_SIZE`. -/
abbrev initialSize : ℕ := 256

/-- `MAX_CHAIN_LENGTH`. -/
abbrev maxChainLength : ℕ := 8

/-- A `hashmap_map`. -/
structure Hashmap (V : Type*) where
  size : ℕ
  data : List (Probing.Slot Bytes V)
  deriving DecidableEq

/-- The return codes of the map. -/
inductive MapStatus where
  | missing
  | full
  | omem
  | ok
  deriving DecidableEq

section Hashmap

variable {V : Type*} (calloc : ℕ → Bool)

/-- The `table_size` of a map. -/
def Hashmap.tableSize (m : Hashmap V) : ℕ :=
  m.data.length

/-- A map whose slots are free. -/
def Hashmap.empty (tableSize : ℕ) : Hashmap V :=
  ⟨0, List.replicate tableSize none⟩

/-- `hashmap_new`; `malloc` tells whether there is memory for the map itself. -/
def hashmapNew (malloc : Bool) : Option (Hashmap V) :=
  if malloc ∧ calloc initialSize then some (.empty initialSize) else none

/-- `hashmap_hash`: the slot to store the key in, unless the map is full. -/
def hashmapHash (m : Hashmap V) (key : Bytes) : Option ℕ :=
  if m.tableSize / 2 ≤ m.size then none
  else
    Probing.scan (fun e => e.isNone || Probing.holds key e) m.data maxChainLength
      (hashmapHashInt m.tableSize key)

/-- The loop of `hashmap_rehash` over the slots of the old table. -/
def rehashLoop (put : Hashmap V → Bytes → V → Option (MapStatus × Hashmap V)) :
    List (Probing.Slot Bytes V) → Hashmap V → Option (MapStatus × Hashmap V)
  | [], m => some (.ok, m)
  | none :: es, m => rehashLoop put es m
  | some (key, data) :: es, m =>
      match put m key data with
      | none => none
      | some (.ok, m) => rehashLoop put es m
      | some (status, m) => some (status, m)

/-- `hashmap_rehash`.  When the doubled size is no `int`, `calloc` is asked for more than there
is. -/
def hashmapRehash (put : Hashmap V → Bytes → V → Option (MapStatus × Hashmap V))
    (m : Hashmap V) : Option (MapStatus × Hashmap V) :=
  if 2 * m.tableSize < 2 ^ 31 ∧ calloc (2 * m.tableSize) then
    rehashLoop put m.data (.empty (2 * m.tableSize))
  else
    some (.omem, m)

/-- The end of `hashmap_put`. -/
def Hashmap.store (m : Hashmap V) (index : ℕ) (key : Bytes) (value : V) : Hashmap V :=
  ⟨m.size + 1, m.data.set index (some (key, value))⟩

/-- `hashmap_put`.  It rehashes until there is a slot for the key, and `hashmap_rehash` calls it
again; the fuel bounds how often the table is doubled. -/
def hashmapPutWith : ℕ → Hashmap V → Bytes → V → Option (MapStatus × Hashmap V)
  | 0, _, _, _ => none
  | fuel + 1, m, key, value =>
      match hashmapHash m key with
      | some index => some (.ok, m.store index key value)
      | none =>
          match hashmapRehash calloc (hashmapPutWith fuel) m with
          | none => none
          | some (.omem, m) => some (.omem, m)
          | some (_, m) => hashmapPutWith fuel m key value

/-- `hashmap_put`. -/
def hashmapPut (m : Hashmap V) (key : Bytes) (value : V) : Option (MapStatus × Hashmap V) :=
  hashmapPutWith calloc 31 m key value

/-- The slot `hashmap_get` and `hashmap_remove` look for. -/
def hashmapSeek (m : Hashmap V) (key : Bytes) : Option ℕ :=
  Probing.scan (Probing.holds key) m.data maxChainLength (hashmapHashInt m.tableSize key)

/-- `hashmap_get`: the return code and the value stored through `arg`. -/
def hashmapGet (m : Hashmap V) (key : Bytes) : MapStatus × Option V :=
  match hashmapSeek m key with
  | some curr => (.ok, m.data[curr]?.join.map Prod.snd)
  | none => (.missing, none)

/-- `hashmap_remove`. -/
def hashmapRemove (m : Hashmap V) (key : Bytes) : MapStatus × Hashmap V :=
  match hashmapSeek m key with
  | some curr => (.ok, ⟨m.size - 1, m.data.set curr none⟩)
  | none => (.missing, m)

end Hashmap

/-! ### The loggers -/

/-- A `logger_ctx_t` that `logger_ctx_new_file` has made.  `fp` is what `stdio` still holds of what
has been printed to `fp`; it writes to `stdout`, and so do the functions of the logger. -/
structure LoggerCtx where
  name : Bytes
  minLevel : ℤ
  fp : Bytes
  logPartial : Bool
  deriving DecidableEq

/-- The static variables of `clog.c`, and the loggers that have been allocated: a pointer to one
is its position.  `loggers` is what `hashmap_new` returned, which may be `NULL`. -/
structure Clog where
  loggers : Option (Hashmap ℕ)
  clogDefaultLogLevel : ℤ
  ctxs : List LoggerCtx

/-- What goes wrong: a pointer that is null is used, or `hashmap_put` does not end. -/
inductive ClogFault where
  | nullPointer
  | endless
  deriving DecidableEq

/-- `clog_init`, with the level it finds in the environment.  It does not test what `hashmap_new`
returns. -/
def clogInit (calloc : ℕ → Bool) (malloc : Bool) (level : ℤ) : Clog :=
  ⟨hashmapNew calloc malloc, level, []⟩

/-- `logger_ctx_new_file`; `opens` tells whether `fopencookie` and `malloc` succeed.  Where `malloc`
fails, the logger is already used here. -/
def loggerCtxNewFile (c : Clog) (opens : Bool) (name : Bytes) (minLevel : ℤ) :
    Option ℕ × Clog :=
  if opens then
    (some c.ctxs.length, { c with ctxs := c.ctxs ++ [⟨name, minLevel, [], false⟩] })
  else
    (none, c)

/-- `clog_add_logger`: whether it fails. -/
def clogAddLogger (calloc : ℕ → Bool) (c : Clog) (l : Option ℕ) :
    Except ClogFault (Bool × Clog) :=
  match c.loggers, l.bind fun l => (c.ctxs[l]?.map fun ctx => (l, ctx.name)) with
  | some m, some (l, name) =>
      match hashmapPut calloc m name l with
      | none => .error .endless
      | some (status, m) => .ok (status ≠ .ok, { c with loggers := some m })
  | _, _ => .error .nullPointer

/-- `clog_get_logger`. -/
def clogGetLogger (calloc : ℕ → Bool) (c : Clog) (opens : Bool) (name : Bytes) :
    Except ClogFault (Option ℕ × Clog) :=
  match c.loggers with
  | none => .error .nullPointer
  | some m =>
      match hashmapGet m name with
      | (.missing, _) => do
          let (l, c) := loggerCtxNewFile c opens name c.clogDefaultLogLevel
          let (failed, c) ← clogAddLogger calloc c l
          return (if failed then none else l, c)
      | (_, l) => .ok (l, c)

/-! ### Messages -/

section Messages

/-- A logger, and what has been written to `stdout`. -/
structure LogState where
  ctx : LoggerCtx
  out : Bytes

/-- `logger_call_write`. -/
def loggerCallWrite (s : LogState) (buf : Bytes) : LogState :=
  if s.ctx.logPartial then { s with out := s.out ++ buf } else s

/-- `fflush(l->fp)`. -/
def fflush (s : LogState) : LogState :=
  loggerCallWrite { s with ctx := { s.ctx with fp := [] } } s.ctx.fp

/-- The `text` is printed to `l->fp`, and `stdio` writes the first `k` bytes it holds. -/
def fprintf (s : LogState) (text : Bytes) (k : ℕ) : LogState :=
  let buf := s.ctx.fp ++ text
  loggerCallWrite { s with ctx := { s.ctx with fp := buf.drop k } } (buf.take k)

/-- `clog_start_log`; `leader` is what `start_file_msg` prints. -/
def clogStartLog (s : LogState) (level : ℤ) (leader : Bytes) : LogState :=
  if s.ctx.minLevel ≤ level then
    { ctx := { s.ctx with logPartial := true }, out := s.out ++ leader }
  else
    s

/-- `clog_partial_log` with the formatted `text`. -/
def clogPartialLog (s : LogState) (text : Bytes) : LogState :=
  if s.ctx.logPartial then
    let s := fflush s
    { s with out := s.out ++ text }
  else
    s

/-- What `end_file_msg` prints: the default color, and the end of the line. -/
def endFileMsg : Bytes :=
  [0x1b, 0x5b, 0x30, 0x6d, 0x0a]

/-- `clog_end_log`. -/
def clogEndLog (s : LogState) : LogState :=
  let s := fflush s
  if s.ctx.logPartial then
    { ctx := { s.ctx with logPartial := false }, out := s.out ++ endFileMsg }
  else
    s

/-- `vlog` with the formatted `text`. -/
def vlog (s : LogState) (level : ℤ) (leader text : Bytes) : LogState :=
  let s := clogStartLog s level leader
  clogEndLog { s with out := s.out ++ text }

/-- `clog_log`. -/
def clogLog (s : LogState) (level : ℤ) (leader text : Bytes) : LogState :=
  if s.ctx.minLevel ≤ level then vlog s level leader text else s

end Messages

end Tangent.Logger
