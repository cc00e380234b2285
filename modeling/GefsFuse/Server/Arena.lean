import GefsFuse.Cache
import GefsFuse.Server.Hash

/-!
# The arenas of the original server

An arena header packs the log head, its hash, the size and the bytes used, in this order. The log
is a chain of blocks of packed operations; `logappend` adds one operation and moves on to a new
block when the room runs short. `loadlog` replays the chain. The test in `readblk` that compares a
block with its hash never runs, as `!flg&GBnochk` is zero for every `flg`.

A computation that the source stops with `broke`, `abort`, an assertion or an error is none.
-/

namespace GefsFuse.Server

open ByteMem

/-! Block types. -/

def tdat : ℕ := 0
def tpivot : ℕ := 1
def tleaf : ℕ := 2
def tlog : ℕ := 3
def tdlist : ℕ := 4
def tarena : ℕ := 5
def tsuper : ℕ := 0x6765

/-! Log operations; those from `logAlloc` on take two words. -/

def logAlloc1 : UInt64 := 1
def logFree1 : UInt64 := 2
def logSync : UInt64 := 3
def logAlloc : UInt64 := 4
def logFree : UInt64 := 5

/-- The fields of an arena that its header holds. -/
structure Arena where
  loghd : Int64
  loghash : UInt64
  size : Int64
  used : Int64
  deriving DecidableEq, Repr

def packarena (a : Arena) : Bytes :=
  pack64 a.loghd.toUInt64 ++ pack64 a.loghash ++ pack64 a.size.toUInt64 ++ pack64 a.used.toUInt64

/-- The header at `o`. -/
def unpackarena (m : Mem) (o : ℕ) : Arena :=
  { loghd := (unpack64 m o).toInt64
    loghash := unpack64 m (o + 8)
    size := (unpack64 m (o + 16)).toInt64
    used := (unpack64 m (o + 24)).toInt64 }

/-- A header block, cleared and finalized. -/
def headerBuf (a : Arena) : Mem :=
  store (store (fun _ => 0) 2 (packarena a)) 0 (pack16 tarena)

/-! The log. -/

/-- A block of the log: its packed operations and the next block. -/
structure LogBlk where
  addr : Int64
  data : Bytes
  logp : GefsBptr

/-- `mklogblk`. -/
def mklogblk (o : Int64) : LogBlk := ⟨o, [], ⟨-1, 0xffffffffffffffff, -1⟩⟩

/-- An operation to log. -/
inductive LogReq
  | alloc (off len : UInt64)
  | free (off len : UInt64)
  | sync (gen : UInt64)
  deriving DecidableEq, Repr

/-- The words of an operation: one for a single block or a barrier, else two. -/
def LogReq.words : LogReq → Bytes
  | .alloc off len =>
    if len = 16384 then pack64 (off ||| logAlloc1) else pack64 (off ||| logAlloc) ++ pack64 len
  | .free off len =>
    if len = 16384 then pack64 (off ||| logFree1) else pack64 (off ||| logFree) ++ pack64 len
  | .sync gen => pack64 (gen <<< 8 ||| logSync)

/-- The assertions of `logappend` on an operation, `[lo, hi)` being the arena. -/
def LogReq.ok (lo hi : Int64) : LogReq → Bool
  | .alloc off _ | .free off _ => off &&& 0xff = 0 ∧ lo ≤ off.toInt64 ∧ off.toInt64 < hi
  | .sync _ => true

def logspc : ℕ := gefsBlksz - gefsLoghdsz
def logslop : ℕ := 16 + 16 + 8

/-- The log, its last block apart. -/
structure Log where
  full : List LogBlk
  logtl : LogBlk

/-- One operation appended. A tail with too little room is chained to the block `o` that
`blkalloc_lk` hands out; none is an arena that is full. -/
def logappend (lo hi : Int64) (o : Option Int64) (l : Log) (r : LogReq) : Option Log :=
  if r.ok lo hi = false then none
  else if l.logtl.data.length < logspc - logslop then
    some { l with logtl := { l.logtl with data := l.logtl.data ++ r.words } }
  else do
    let o ← o
    let lb := { l.logtl with
      data := l.logtl.data ++ pack64 (o.toUInt64 ||| logAlloc1)
      logp := ⟨o, 0xffffffffffffffff, -1⟩ }
    some ⟨l.full ++ [lb], { mklogblk o with data := r.words }⟩

/-- A history of operations, each with the block the allocator would hand out. -/
def logHistory (lo hi : Int64) : Log → List (Option Int64 × LogReq) → Option Log
  | l, [] => some l
  | l, (o, r) :: rs => do
    let l ← logappend lo hi o l r
    logHistory lo hi l rs

/-- A log block finalized over what its buffer held. -/
def logBuf (m : Mem) (b : LogBlk) : Mem :=
  let m := store m gefsLoghdsz b.data
  store m 0 (pack16 tlog ++ pack16 b.data.length ++ pack64 (bufhash m gefsLoghdsz b.data.length)
    ++ gefsPackbp b.logp)

/-! Reading. -/

/-- What `readblk` takes from a block: where its data starts, and the log's size and chain. -/
structure Blk where
  type : ℕ
  data : ℕ
  logsz : ℕ
  logp : GefsBptr

def readblk (m : Mem) : Option Blk :=
  let type := unpack16 m 0
  if type = tdat ∨ type = tsuper then some ⟨type, 0, 0, ⟨0, 0, 0⟩⟩
  else if type = tarena then some ⟨type, 2, 0, ⟨0, 0, 0⟩⟩
  else if type = tdlist ∨ type = tlog then
    some ⟨type, gefsLoghdsz, unpack16 m 2, gefsUnpackbp m 12⟩
  else if type = tpivot then some ⟨type, gefsPivhdsz, 0, ⟨0, 0, 0⟩⟩
  else if type = tleaf then some ⟨type, gefsLeafhdsz, 0, ⟨0, 0, 0⟩⟩
  else none

/-- An operation as a replay meets it. -/
inductive LogEv
  | alloc (off len : Int64)
  | free (off len : Int64)
  | sync (gen : Int64)
  deriving DecidableEq, Repr

/-- The operation at `d`. -/
def logEv (m : Mem) (d : ℕ) : Option LogEv :=
  let ent := unpack64 m d
  let op := ent &&& 0xff
  let off := (ent &&& ~~~0xff).toInt64
  let len := if logAlloc ≤ op then (unpack64 m (d + 8)).toInt64 else 16384
  if op = logSync then some (.sync (ent.toInt64 >>> 8))
  else if op = logAlloc ∨ op = logAlloc1 then some (.alloc off len)
  else if op = logFree ∨ op = logFree1 then some (.free off len)
  else none

/-- The bytes of the operation at `d`. -/
def logWidth (m : Mem) (d : ℕ) : ℕ := if logAlloc ≤ unpack64 m d &&& 0xff then 16 else 8

/-- A barrier of `qgen` or later. -/
def LogEv.stops (qgen : Int64) : LogEv → Bool
  | .sync g => qgen ≤ g
  | _ => false

/-- The operations of a block from `i` on, and whether a barrier of `qgen` or later was met, where
the replay ends. -/
def blkLog (qgen : Int64) (m : Mem) (data logsz i : ℕ) : Option (List LogEv × Bool) :=
  if i < logsz then do
    let e ← logEv m (data + i)
    if e.stops qgen then some ([e], true)
    else do
      let (es, stop) ← blkLog qgen m data logsz (i + logWidth m (data + i))
      some (e :: es, stop)
  else some ([], false)
  termination_by logsz - i
  decreasing_by unfold logWidth; split <;> omega

/-- The operations of the log from `bp` on; `fuel` bounds the blocks followed. -/
def loadlog (get : Int64 → Option Mem) (qgen : Int64) : ℕ → GefsBptr → Option (List LogEv)
  | 0, _ => none
  | fuel + 1, bp => do
    let m ← get bp.addr
    let b ← readblk m
    let (es, stop) ← blkLog qgen m b.data b.logsz 0
    if stop ∨ b.logp.addr = -1 then some es
    else do
      let rest ← loadlog get qgen fuel b.logp
      some (es ++ rest)

/-- `getblk` of a header where an error is caught: `some none` for a block that cannot be read. A
block of no known type stops the server all the same. -/
def tryhdr (get : Int64 → Option Mem) (addr : Int64) : Option (Option (Mem × Blk)) :=
  match get addr with
  | none => some none
  | some m => (readblk m).map fun b => some (m, b)

/-- `getblk` of a header where nothing catches an error. -/
def gethdr (get : Int64 → Option Mem) (addr : Int64) : Option (Mem × Blk) := do
  let m ← get addr
  let b ← readblk m
  some (m, b)

/-- The headers of an arena, and then its log. A header that could not be read is read again. -/
def loadarena (get : Int64 → Option Mem) (qgen : Int64) (fuel : ℕ) (hd : GefsBptr) :
    Option (Arena × List LogEv) := do
  let h0 ← tryhdr get hd.addr
  let h1 ← tryhdr get (hd.addr + 16384)
  let b ← h0.orElse fun _ => h1
  let _ ← h0.orElse fun _ => gethdr get hd.addr
  let _ ← h1.orElse fun _ => gethdr get (hd.addr + 16384)
  let a := unpackarena b.1 b.2.data
  let es ← loadlog get qgen fuel ⟨a.loghd, a.loghash, -1⟩
  some (a, es)

end GefsFuse.Server
