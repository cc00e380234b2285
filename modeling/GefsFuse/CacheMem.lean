import GefsFuse.Cache
import GefsFuse.Lib.Links
import GefsFuse.Lib.Trans

/-!
# The block cache as it lies in memory

The buckets, the chains of a bucket and the LRU list, with every pointer that the source keeps. A
block is named by a number for its address; `calloc` hands out the numbers in order. `fuel` bounds
how many blocks a loop over a chain or over the list looks at: a loop that needs more has no answer.
-/

namespace GefsFuse

open Links

/-- `GEFS_NBUCKETS` -/
def gefsNbuckets : UInt64 := 1024

/-- `cache_hash`. -/
def cacheHash (addr : Int64) : ℕ :=
  let x := addr.toUInt64
  let x := (x ^^^ (x >>> 30)) * 0xbf58476d1ce4e5b9
  let x := (x ^^^ (x >>> 27)) * 0x94d049bb133111eb
  let x := x ^^^ (x >>> 31)
  (x % gefsNbuckets).toNat

/-- The fields of a block that the cache uses. -/
structure CacheBlk where
  addr : Int64
  ref : ℕ
  hnext : Option ℕ
  cprev : Option ℕ
  cnext : Option ℕ
  deriving DecidableEq, Repr

structure CacheMem where
  blk : ℕ → CacheBlk
  buckets : ℕ → Option ℕ
  chead : Option ℕ
  ctail : Option ℕ
  count : ℕ
  max : ℕ
  /-- The block that `calloc` returns next. -/
  brk : ℕ

namespace CacheMem

/-- Set a field of a block, nothing at a null pointer. -/
def set (c : CacheMem) (p : Option ℕ) (f : CacheBlk → CacheBlk) : CacheMem :=
  p.elim c fun i => { c with blk := Function.update c.blk i (f (c.blk i)) }

def setCprev (c : CacheMem) (p v : Option ℕ) : CacheMem := c.set p ({ · with cprev := v })
def setCnext (c : CacheMem) (p v : Option ℕ) : CacheMem := c.set p ({ · with cnext := v })
def setHnext (c : CacheMem) (p v : Option ℕ) : CacheMem := c.set p ({ · with hnext := v })
def setRef (c : CacheMem) (p : Option ℕ) (f : ℕ → ℕ) : CacheMem :=
  c.set p fun b => { b with ref := f b.ref }

def setChead (c : CacheMem) (v : Option ℕ) : CacheMem := { c with chead := v }
def setCtail (c : CacheMem) (v : Option ℕ) : CacheMem := { c with ctail := v }

/-- `gefs_cache_init`. -/
def init (n : ℕ) : CacheMem :=
  { blk := fun _ => ⟨0, 0, none, none, none⟩
    buckets := fun _ => none
    chead := none
    ctail := none
    count := 0
    max := if 0 < n then n else 2048
    brk := 0 }

/-- `lru_top`. -/
def lruTop (c : CacheMem) (b : ℕ) : CacheMem :=
  if c.chead = some b then c
  else
    let c := c.setCnext (c.blk b).cprev (c.blk b).cnext
    let c := c.setCprev (c.blk b).cnext (c.blk b).cprev
    let c := c.setCtail (if c.ctail = some b then (c.blk b).cprev else c.ctail)
    let c := c.setCprev (some b) none
    let c := c.setCnext (some b) c.chead
    let c := c.setCprev c.chead (some b)
    let c := c.setChead (some b)
    c.setCtail (if c.ctail = none then some b else c.ctail)

/-- `lru_remove`. -/
def lruRemove (c : CacheMem) (b : ℕ) : CacheMem :=
  let c := c.setCnext (c.blk b).cprev (c.blk b).cnext
  let c := c.setCprev (c.blk b).cnext (c.blk b).cprev
  let c := c.setChead (if c.chead = some b then (c.blk b).cnext else c.chead)
  let c := c.setCtail (if c.ctail = some b then (c.blk b).cprev else c.ctail)
  (c.setCprev (some b) none).setCnext (some b) none

/-- A new block for `addr`, held once, at the head of its bucket. -/
def hashInsert (c : CacheMem) (addr : Int64) : CacheMem :=
  let h := cacheHash addr
  { c with
    blk := Function.update c.blk c.brk ⟨addr, 1, c.buckets h, none, none⟩
    buckets := Function.update c.buckets h (some c.brk)
    brk := c.brk + 1 }

/-- A block that is not in the LRU list put at its head. -/
def lruInsert (c : CacheMem) (b : ℕ) : CacheMem :=
  let c := c.setCnext (some b) c.chead
  let c := c.setCprev (some b) none
  let c := c.setCprev c.chead (some b)
  let c := c.setChead (some b)
  c.setCtail (if c.ctail = none then some b else c.ctail)

/-- The end of `gefs_getblk`, and the same lines in `gefs_btupsert` and in `gefs_write_file`. -/
def insert (c : CacheMem) (addr : Int64) : CacheMem :=
  let c := (c.hashInsert addr).lruInsert c.brk
  { c with count := c.count + 1 }

/-- The block for `addr` in its bucket. -/
def lookup (c : CacheMem) (fuel : ℕ) (addr : Int64) : Option (Option ℕ) :=
  findChain (fun i => (c.blk i).addr = addr) (fun i => (c.blk i).hnext) fuel
    (c.buckets (cacheHash addr))

/-- `victim` taken out of its bucket, if it is there. -/
def unchain (c : CacheMem) (fuel : ℕ) (victim : ℕ) : Option CacheMem :=
  let h := cacheHash (c.blk victim).addr
  (findLink victim (fun i => (c.blk i).hnext) fuel none (c.buckets h)).map fun r =>
    match r with
    | (none, true) =>
      { c with buckets := Function.update c.buckets h (c.blk victim).hnext }
    | (some j, true) => c.setHnext (some j) (c.blk victim).hnext
    | (_, false) => c

/-- The block used longest ago that nothing holds is evicted, where the cache is full. -/
def evict (c : CacheMem) (fuel : ℕ) : Option CacheMem :=
  if c.max ≤ c.count then
    (Dll.findBack (fun i => (c.blk i).ref = 0)
        ⟨c.chead, c.ctail, fun i => (c.blk i).cprev, fun i => (c.blk i).cnext⟩ fuel c.ctail).bind
      fun victim? =>
        match victim? with
        | none => some c
        | some victim => (c.unchain fuel victim).map fun c =>
          let c := c.lruRemove victim
          { c with count := c.count - 1 }
  else some c

/-- `gefs_getblk`; `readable` says whether `pread` returns a whole block. -/
def getblk (c : CacheMem) (fuel : ℕ) (addr : Int64) (readable : Bool) :
    Option (Option ℕ × CacheMem) :=
  (c.lookup fuel addr).bind fun found? =>
    match found? with
    | some b => some (some b, (c.setRef (some b) (· + 1)).lruTop b)
    | none => (c.evict fuel).map fun c =>
      if readable then (some c.brk, c.insert addr) else (none, c)

/-- `gefs_holdblk`, nothing for a null pointer. -/
def holdblk (c : CacheMem) (b : Option ℕ) : CacheMem := c.setRef b (· + 1)

/-- `gefs_dropblk`: a count stays at 0. -/
def dropblk (c : CacheMem) (b : Option ℕ) : CacheMem := c.setRef b (· - 1)

end CacheMem

/-- The operations on the cache. -/
inductive CacheOp
  | getblk (addr : Int64) (readable : Bool)
  | holdblk (b : Option ℕ)
  | dropblk (b : Option ℕ)
  /-- A block that `gefs_btupsert` wrote. -/
  | btupsert (addr : Int64)
  /-- A block that `gefs_write_file` wrote. -/
  | writeFile (addr : Int64)
  deriving DecidableEq

def CacheOp.step (fuel : ℕ) (c : CacheMem) : CacheOp → Option CacheMem
  | getblk addr readable => (c.getblk fuel addr readable).map Prod.snd
  | holdblk b => some (c.holdblk b)
  | dropblk b => some (c.dropblk b)
  | btupsert addr => some (c.insert addr)
  | writeFile addr => some (c.insert addr)

/-- A block is inserted by `gefs_btupsert` and by `gefs_write_file` for an address just allocated,
for which there is none. -/
def CacheOp.Fits (c : CacheMem) : CacheOp → Prop
  | btupsert addr => ∀ fuel b, c.lookup fuel addr ≠ some (some b)
  | writeFile addr => ∀ fuel b, c.lookup fuel addr ≠ some (some b)
  | _ => True

/-- An operation with the fuel for its loops. -/
def cacheStep (c : CacheMem) (op : CacheOp × ℕ) : Option CacheMem := op.1.step op.2 c

/-- `c` is reached from an empty cache for `n` blocks. -/
def CacheReached (n : ℕ) (c : CacheMem) : Prop :=
  Trans.Via cacheStep (fun op c => op.1.Fits c) (CacheMem.init n) c

end GefsFuse
