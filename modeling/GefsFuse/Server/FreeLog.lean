import GefsFuse.Server.Arena
import GefsFuse.Lib.Ranges

/-!
# Free space and its log

The blocks of an arena that are free are kept in a tree of ranges, here the sorted list of its
elements. `blkalloc_lk` takes a block off the first range or off the last, `blkdealloc_lk` puts one
back, and each change is appended to the log, which takes blocks of the same arena for itself as it
grows. `compresslog` writes a new log that only has the ranges that are free. `replay` is what
`loadlog` does with the operations of a log.

The cache, and the buffers of the log's last block, are left out.
-/

namespace GefsFuse.Server

open Ranges ByteMem

/-- How a computation ends that does not come to its end: with `broke(Estuffed)`, with an index
outside of a table, with a product too large for its `int`, with `error(Efull)`, or with an
assertion or `abort`. -/
inductive Fault
  | stuffed
  | index
  | overflow
  | full
  | stops
  deriving DecidableEq, Repr

/-- What is there, or the fault. -/
def orFault {α : Type} (x : Option α) (e : Fault) : Except Fault α :=
  match x with
  | some a => .ok a
  | none => .error e

/-! ## Ranges -/

def freerange (t : List Rng) (off len : ℤ) : Option (List Rng) :=
  if len % 16384 ≠ 0 ∨ t.any (·.off = off) then none else some (put ⟨off, len⟩ t)

def grabrange (t : List Rng) (off len : ℤ) : Option (List Rng) :=
  if len % 16384 ≠ 0 then none else grab ⟨off, len⟩ t

/-- The block at `x`. -/
abbrev blkRng (x : ℤ) : Rng := ⟨x, 16384⟩

/-- A range that is left, unless it is empty. -/
def keep (r : Rng) : List Rng := if r.len = 0 then [] else [r]

/-! ## An arena -/

/-- An arena: the address of its first header, its space, the free ranges and the log. -/
structure ArenaSt where
  lo : ℤ
  size : ℤ
  used : ℤ
  reserve : ℤ
  usereserve : Bool
  free : List Rng
  loghd : Int64
  log : Log

namespace Log

/-- The blocks of a log. -/
def blks (l : Log) : List LogBlk := l.full ++ [l.logtl]

/-- The last block has room for one more operation and the block's own successor. -/
def roomy (l : Log) : Bool := l.logtl.data.length < logspc - logslop

end Log

/-- An address or a length as it is packed. -/
def vlong (x : ℤ) : UInt64 := (Int64.ofInt x).toUInt64

namespace ArenaSt

/-- Only the reserve is left. -/
def low (a : ArenaSt) : Bool := !a.usereserve && a.size - a.used ≤ a.reserve

/-- `blkalloc_lk`, none being -1. -/
def blkallocLk (a : ArenaSt) (seq : Bool) : Except Fault (Option ℤ × ArenaSt) :=
  if a.low then .ok (none, a)
  else match if seq then a.free.head? else a.free.getLast? with
  | none => .error .stuffed
  | some r =>
    if seq then .ok (some r.off, { a with
      free := keep ⟨r.off + 16384, r.len - 16384⟩ ++ a.free.tail
      used := a.used + 16384 })
    else .ok (some (r.off + (r.len - 16384)), { a with
      free := a.free.dropLast ++ keep ⟨r.off, r.len - 16384⟩
      used := a.used + 16384 })

/-- `logappend`, false being `error(Efull)`. -/
def logappend (a : ArenaSt) (r : LogReq) : Except Fault (Bool × ArenaSt) :=
  let lo := Int64.ofInt a.lo
  let hi := Int64.ofInt (a.lo + a.size + 32768)
  if r.ok lo hi = false then .error .stops
  else if a.log.roomy then do
    let l ← orFault (Server.logappend lo hi none a.log r) .stops
    pure (true, { a with log := l })
  else do
    let (o, a) ← a.blkallocLk false
    match o with
    | none => pure (false, a)
    | some o =>
      let l ← orFault (Server.logappend lo hi (some (Int64.ofInt o)) a.log r) .stops
      pure (true, { a with log := l })

/-- `blkalloc` in an arena it has picked; what `error(Efull)` leaves in the log's place is taken all
the same. -/
def blkalloc (a : ArenaSt) (seq : Bool) : Except Fault (Option ℤ × ArenaSt) := do
  let (b, a) ← a.blkallocLk seq
  match b with
  | none => pure (none, a)
  | some b => do
    let (ok, a) ← a.logappend (.alloc (vlong b) 16384)
    pure (if ok then some b else none, a)

/-- `blkdealloc_lk`, false being `error(Efull)`. -/
def blkdeallocLk (a : ArenaSt) (b : ℤ) : Except Fault (Bool × ArenaSt) := do
  let (ok, a) ← a.logappend (.free (vlong b) 16384)
  if ok then do
    let t ← orFault (freerange a.free b 16384) .stops
    pure (true, { a with free := t, used := a.used - 16384 })
  else pure (false, a)

def logbarrier (a : ArenaSt) (gen : Int64) : Except Fault (Bool × ArenaSt) :=
  a.logappend (.sync gen.toUInt64)

/-! ## Compression -/

/-- The blocks `compresslog` gets for a log of `nr` ranges; none where `16*nr`, which is an `int`
other than `sz`, overflows. That is a fault here, though other arithmetic of the model wraps: C
leaves it undefined. A product that wraps is negative from `2^27` ranges on, until it comes round to
0 at `2^28`. -/
def nblks (nr : ℕ) : Option ℕ :=
  let sz := 16 * nr
  if 16 * nr < 2 ^ 31 then
    some ((sz + logspc) / (logspc - logslop) + 16 * nr / (logspc - logslop) + 1)
  else none

/-- `n` blocks off the front. -/
def getBlks : ℕ → ArenaSt → Except Fault (List ℤ × ArenaSt)
  | 0, a => .ok ([], a)
  | n + 1, a => do
    let (b, a) ← a.blkallocLk true
    let b ← orFault b .full
    let (bs, a) ← getBlks n a
    pure (b :: bs, a)

/-- The ranges written behind `b`, the next block being the `i`-th of the table. -/
def fillLog (blks : List ℤ) :
    List Rng → List LogBlk → LogBlk → ℕ → Except Fault (Log × ℕ)
  | [], full, b, i => .ok (⟨full, b⟩, i)
  | r :: rs, full, b, i =>
    let ent := pack64 (vlong r.off ||| logFree) ++ pack64 (vlong r.len)
    if logspc - logslop ≤ b.data.length then do
      let o ← orFault blks[i]? .index
      let full := full ++ [{ b with logp := ⟨Int64.ofInt o, 0xffffffffffffffff, -1⟩ }]
      fillLog blks rs full { mklogblk (Int64.ofInt o) with data := ent } (i + 1)
    else fillLog blks rs full { b with data := b.data ++ ent } i

/-- Blocks that are not needed put back. -/
def putBlks : List ℤ → ArenaSt → Except Fault ArenaSt
  | [], a => .ok a
  | b :: bs, a => do
    let (ok, a) ← a.blkdeallocLk b
    if ok then putBlks bs a else .error .full

def compresslog (a : ArenaSt) : Except Fault ArenaSt := do
  let n ← orFault (nblks a.free.length) .overflow
  let (blks, a) ← getBlks n a
  let hd ← orFault blks[0]? .index
  let (l, i) ← fillLog blks a.free [] (mklogblk (Int64.ofInt hd)) 1
  putBlks (blks.drop i) { a with loghd := Int64.ofInt hd, log := l }

end ArenaSt

/-! ## The replay -/

/-- What `loadlog` does with an operation, to the free ranges and to the bytes used. -/
def replayEv (s : List Rng × ℤ) : LogEv → Option (List Rng × ℤ)
  | .sync _ => some s
  | .alloc off len => (grabrange s.1 off.toInt len.toInt).map fun t => (t, s.2 + len.toInt)
  | .free off len => (freerange s.1 off.toInt len.toInt).map fun t => (t, s.2 - len.toInt)

/-- The replay of a log; `loadarena` begins with an arena that is all used. -/
def replay (size : ℤ) (es : List LogEv) : Option (List Rng × ℤ) :=
  es.foldlM replayEv ([], size)

/-- The blocks of the log lie where they belong. -/
def OnDisk (get : Int64 → Option Mem) (l : Log) : Prop :=
  ∀ b ∈ l.blks, ∃ m m', get b.addr = some m ∧ ∀ i < gefsBlksz, m i = logBuf m' b i

/-- The bytes of the arena that the log takes. -/
def Log.span (l : Log) : Set ℤ := cover (l.blks.map (blkRng ·.addr.toInt))

namespace ArenaSt

/-- The log's blocks are different ones, and the replay up to a barrier of `qgen` or later gives the
set `s` and the bytes `used`. -/
def Recovers (a : ArenaSt) (qgen : Int64) (s : Set ℤ) (used : ℤ) : Prop :=
  (a.log.blks.map (·.addr)).Nodup ∧ ∀ (get : Int64 → Option Mem) (fuel : ℕ) (hash : UInt64),
    OnDisk get a.log → a.log.blks.length ≤ fuel →
      ∃ es t, loadlog get qgen fuel ⟨a.loghd, hash, -1⟩ = some es
        ∧ replay a.size es = some (t, used) ∧ cover t = s

/-- The space of an arena: whole blocks inside of it are free, and all others are used. -/
structure Ok (a : ArenaSt) : Prop where
  lo : 0 ≤ a.lo
  hi : a.lo + a.size + 32768 < 2 ^ 63
  free : Blocky 16384 a.free
  inside : ∀ r ∈ a.free, a.lo ≤ r.off ∧ r.stop ≤ a.lo + a.size + 32768
  used : a.used = a.size - total a.free

/-- An arena where every other block is free, `n` of them behind the two headers and the log. -/
def spread (n : ℕ) : ArenaSt where
  lo := 16384
  size := 32768 * (n + 1)
  used := 16384 * (n + 2)
  reserve := 0
  usereserve := false
  free := (List.range n).map fun i : ℕ => blkRng (32768 * ((i : ℤ) + 2))
  loghd := 49152
  log := ⟨[], mklogblk 49152⟩

/-- `compresslog` comes to its end, its log gives the free ranges back, and these are the ones
before without the blocks of the log. -/
def Compresses (a : ArenaSt) : Prop :=
  ∃ a', a.compresslog = .ok a' ∧ (∀ qgen, a'.Recovers qgen (cover a'.free) a'.used)
    ∧ cover a'.free = cover a.free \ a'.log.span ∧ a'.used = a'.size - total a'.free

end ArenaSt

end GefsFuse.Server
