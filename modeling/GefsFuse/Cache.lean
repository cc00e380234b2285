import GefsFuse.Format

/-!
# Disk, blocks and the block cache

A block in memory is 16384 bytes followed by whatever the heap holds past them: `buf` answers for
every offset, and what it answers from `gefsBlksz` on is the heap's. `gefs_getblk` takes the type
of a block it reads, and from it where the block's data starts, from the first two bytes.

The hash chains are kept as one list, the block inserted last first: two blocks of one address lie
in one bucket, so a search of the bucket and of the list find the same block.
-/

namespace GefsFuse

open ByteMem

/-- The image: its size and its bytes. -/
structure Disk where
  size : ℕ
  byte : Mem

/-- The bytes of the image from `a` on. -/
def Disk.window (d : Disk) (a : ℕ) : Mem := fun i => d.byte (a + i)

/-- `pread` of a whole block: none on a short read or at a negative offset. -/
def Disk.pread (d : Disk) (addr : Int64) : Option Mem :=
  if 0 ≤ addr.toInt ∧ addr.toInt.toNat + gefsBlksz ≤ d.size then
    some (d.window addr.toInt.toNat)
  else none

/-- `pwrite` of a whole block: nothing at a negative offset; past the end the file grows. -/
def Disk.pwrite (d : Disk) (addr : Int64) (buf : Mem) : Disk :=
  if 0 ≤ addr.toInt then
    let a := addr.toInt.toNat
    { size := max d.size (a + gefsBlksz)
      byte := fun i => if a ≤ i ∧ i < a + gefsBlksz then buf (i - a) else d.byte i }
  else d

/-- What a block holds, apart from its place in the cache. -/
structure Content where
  type : ℕ
  nval : ℤ
  valsz : ℤ
  nbuf : ℤ
  bufsz : ℤ
  logsz : ℤ
  data : ℕ
  buf : Mem

/-- A block in memory; `id` stands for its address there. -/
structure GefsBlk extends Content where
  id : ℕ
  bp : GefsBptr
  ref : ℕ

/-- The fields `gefs_getblk` sets from the bytes it read. -/
def parseBlk (m : Mem) : Content :=
  let type := unpack16 m 0
  if type = gefsTleaf then
    { type := type, nval := i16 (unpack16 m 2), valsz := i16 (unpack16 m 4), nbuf := 0, bufsz := 0
      logsz := 0, data := gefsLeafhdsz, buf := m }
  else if type = gefsTpivot then
    { type := type, nval := i16 (unpack16 m 2), valsz := i16 (unpack16 m 4)
      nbuf := i16 (unpack16 m 6), bufsz := i16 (unpack16 m 8), logsz := 0
      data := gefsPivhdsz, buf := m }
  else
    { type := type, nval := 0, valsz := 0, nbuf := 0, bufsz := 0, logsz := 0, data := 0
      buf := m }

/-- The first `gefsBlksz` bytes of `m`, and `tail` after them. -/
def withTail (m tail : Mem) : Mem := fun i => if i < gefsBlksz then m i else tail i

/-- `blks` the hash chains, the block inserted last first; `lru` the blocks' ids, the one used last
first. -/
structure GefsCache where
  blks : List GefsBlk
  lru : List ℕ
  max : ℕ

def gefsCacheInit (n : ℕ) : GefsCache := ⟨[], [], if 0 < n then n else 2048⟩

/-- The block a search for `addr` finds. -/
def GefsCache.find (c : GefsCache) (addr : Int64) : Option GefsBlk :=
  c.blks.find? (·.bp.addr = addr)

/-- The block evicted: the one used longest ago that nothing holds. -/
def GefsCache.victim (c : GefsCache) : Option GefsBlk :=
  (c.lru.reverse.filterMap fun i => c.blks.find? (·.id = i)).find? (·.ref = 0)

def GefsCache.evict (c : GefsCache) : GefsCache :=
  if c.max ≤ c.blks.length then
    match c.victim with
    | some v => { c with blks := c.blks.filter (·.id ≠ v.id), lru := c.lru.erase v.id }
    | none => c
  else c

/-- `b` at the head of its chain and of the LRU list. -/
def GefsCache.insert (c : GefsCache) (b : GefsBlk) : GefsCache :=
  { c with blks := b :: c.blks, lru := b.id :: c.lru }

/-- The block `id` with its count set by `f`. -/
def GefsCache.setRef (c : GefsCache) (id : ℕ) (f : ℕ → ℕ) : GefsCache :=
  { c with blks := c.blks.map fun b => if b.id = id then { b with ref := f b.ref } else b }

structure GefsRange where
  off : Int64
  len : Int64
  deriving DecidableEq, Repr

structure GefsArena where
  hdaddr : Int64
  size : Int64
  used : Int64
  loghd : GefsBptr
  freeList : List GefsRange
  deriving DecidableEq, Repr

/-- The mounted file system. `heap i` is what lies past the `i`-th block allocated, and `nblk` how
many have been. -/
structure GefsCtx where
  disk : Disk
  sb : GefsSuper
  cache : GefsCache
  snapTree : GefsTree
  activeTree : GefsTree
  arenas : List GefsArena
  dirty : Bool
  readonly : Bool
  heap : ℕ → Mem
  nblk : ℕ

def gefsGetblk (ctx : GefsCtx) (bp : GefsBptr) : Option GefsBlk × GefsCtx :=
  match ctx.cache.find bp.addr with
  | some b =>
    let c := ctx.cache.setRef b.id (· + 1)
    (some { b with ref := b.ref + 1 },
      { ctx with cache := { c with lru := b.id :: c.lru.erase b.id } })
  | none =>
    let c := ctx.cache.evict
    match ctx.disk.pread bp.addr with
    | none => (none, { ctx with cache := c })
    | some m =>
      let b : GefsBlk :=
        { parseBlk (withTail m (ctx.heap ctx.nblk)) with id := ctx.nblk, bp := bp, ref := 1 }
      (some b, { ctx with cache := c.insert b, nblk := ctx.nblk + 1 })

def gefsHoldblk (ctx : GefsCtx) (b : GefsBlk) : GefsCtx :=
  { ctx with cache := ctx.cache.setRef b.id (· + 1) }

def gefsDropblk (ctx : GefsCtx) (b : GefsBlk) : GefsCtx :=
  { ctx with cache := ctx.cache.setRef b.id (· - 1) }

/-! Values and messages of a block. -/

/-- The `i`-th value of a block. -/
def gefsGetval (b : Content) (i : ℕ) : GefsKvp :=
  let o := b.data + unpack16 b.buf (b.data + 2 * i)
  let nk := unpack16 b.buf o
  let nv := unpack16 b.buf (o + 2 + nk)
  (load b.buf (o + 2) nk, load b.buf (o + 2 + nk + 2) nv)

/-- The most that `statupdate` reads of a message: the flags and every field. -/
def wstatMax : ℕ := 4 + 8 + 4 + 8 + 8 + 4 + 4 + 4

/-- The `i`-th message of a pivot. -/
def gefsGetmsg (b : Content) (i : ℕ) : GefsMsg :=
  let s := b.data + gefsPivspc
  let o := s + unpack16 b.buf (s + 2 * i)
  let nk := unpack16 b.buf (o + 1)
  let nv := unpack16 b.buf (o + 3 + nk)
  ⟨MsgOp.ofByte (b.buf o), load b.buf (o + 3) nk, load b.buf (o + 3 + nk + 2) nv,
    load b.buf (o + 3 + nk + 2 + nv) wstatMax⟩

end GefsFuse
