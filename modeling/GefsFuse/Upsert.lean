import GefsFuse.Tree
import GefsFuse.Lib.Sorted

/-!
# Allocation and update

`gefs_alloc_blk` takes a block from the front of the first free range it finds, whatever that range
holds. `gefs_btupsert` rewrites the root as one new leaf: the old entries and the batch, sorted,
merged in one pass, each entry appended with `blk_setval`. There is no check that they fit:
`blkSetval` is none only where the source would write outside the block.
-/

namespace GefsFuse

open ByteMem SortedMap

/-- The errors an operation returns. -/
inductive Errno
  | eperm | enoent | eio | eexist | enotdir | eisdir | einval | enospc | erofs | enotempty
  deriving DecidableEq, Repr

/-- A block off the first arena that has a free range. -/
def allocArenas : List GefsArena → Option (Int64 × List GefsArena)
  | [] => none
  | a :: as =>
    match a.freeList with
    | [] => (allocArenas as).map fun r => (r.1, a :: r.2)
    | r :: rs =>
      let r' : GefsRange := ⟨r.off + 16384, r.len - 16384⟩
      some (r.off, { a with
        used := a.used + 16384
        freeList := if r'.len = 0 then rs else r' :: rs } :: as)

/-- The address, -1 if there is none. -/
def gefsAllocBlk (ctx : GefsCtx) : Int64 × GefsCtx :=
  if ctx.readonly ∨ ctx.sb.narena ≤ 0 then (-1, ctx)
  else match allocArenas ctx.arenas with
    | none => (-1, ctx)
    | some (a, as) => (a, { ctx with arenas := as, dirty := true })

/-- The header fields and the hash of a block about to be written; `finalize_blk` of the formatter
is the same code. -/
def blkFinalize (b : GefsBlk) : GefsBlk :=
  let buf := if b.type ≠ gefsTdat then store b.buf 0 (pack16 b.type) else b.buf
  if b.type = gefsTlog ∨ b.type = gefsTdlist then
    let h := gefsBufhash buf b.data b.logsz.toNat
    let buf := store buf 2 (pack16 b.logsz ++ pack64 h ++ gefsPackbp b.bp)
    { b with buf := buf, bp := { b.bp with hash := gefsBufhash buf b.data b.logsz.toNat } }
  else
    let buf :=
      if b.type = gefsTpivot then
        store buf 2 (pack16 b.nval ++ pack16 b.valsz ++ pack16 b.nbuf ++ pack16 b.bufsz)
      else if b.type = gefsTleaf then store buf 2 (pack16 b.nval ++ pack16 b.valsz)
      else buf
    { b with buf := buf, bp := { b.bp with hash := gefsBufhash buf 0 gefsBlksz } }

/-- `blk_finalize_and_write`. -/
def blkFinalizeAndWrite (ctx : GefsCtx) (b : GefsBlk) : GefsBlk × GefsCtx :=
  let b := blkFinalize b
  (b, { ctx with disk := ctx.disk.pwrite b.bp.addr b.buf })

/-- The bytes of an entry in a block. -/
def packkv (kv : GefsKvp) : Bytes :=
  pack16 kv.1.length ++ kv.1 ++ pack16 kv.2.length ++ kv.2

/-- An entry appended: its offset at the front, its bytes at the back. -/
def blkSetval (b : GefsBlk) (kv : GefsKvp) : Option GefsBlk :=
  let spc : ℕ := if b.type = gefsTleaf then gefsLeafspc else gefsPivspc
  let valsz := i16 (b.valsz + (2 + kv.1.length + 2 + kv.2.length))
  let off := (spc : ℤ) - valsz
  let p := b.data + 2 * b.nval
  let q := b.data + off
  if 0 ≤ p ∧ p + 2 ≤ gefsBlksz ∧ 0 ≤ q ∧ q + (packkv kv).length ≤ gefsBlksz then
    some { b with
      valsz := valsz
      nval := i16 (b.nval + 1)
      buf := store (store b.buf p.toNat (pack16 off)) q.toNat (packkv kv) }
  else none

/-- The entries of a block. -/
def blkVals (b : Content) : List GefsKvp :=
  (List.range b.nval.toNat).map (gefsGetval b)

/-- An insertion where the key has no entry, nothing else. -/
def insertMsg (b : GefsBlk) (m : GefsMsg) : Option GefsBlk :=
  if m.op = .oinsert then blkSetval b (m.k, m.v) else some b

/-- The old entries and the sorted batch merged into `b`. A message that meets an entry of its key
replaces it, repacks it or, being neither an insertion nor a wstat, drops it. -/
def mergeInto : List GefsKvp → List GefsMsg → GefsBlk → Option GefsBlk
  | [], [], b => some b
  | e :: es, [], b => do
    let b ← blkSetval b e
    mergeInto es [] b
  | [], m :: ms, b => do
    let b ← insertMsg b m
    mergeInto [] ms b
  | e :: es, m :: ms, b =>
    let cmp := gefsKeycmp e.1 m.k
    if cmp < 0 then do
      let b ← blkSetval b e
      mergeInto es (m :: ms) b
    else if cmp = 0 then do
      let b ←
        if m.op = .oinsert then blkSetval b (m.k, m.v)
        else if m.op = .owstat then do
          let kv ← gefsCpkvp e gefsInlmax
          let kv ← statupdate kv m
          blkSetval b kv
        else some b
      mergeInto es ms b
    else do
      let b ← insertMsg b m
      mergeInto (e :: es) ms b
  termination_by es ms => es.length + ms.length

/-- The trees of the mounted file system that are updated in place. -/
inductive TreeRef
  | active | snap
  deriving DecidableEq, Repr

def GefsCtx.tree (ctx : GefsCtx) : TreeRef → GefsTree
  | .active => ctx.activeTree
  | .snap => ctx.snapTree

/-- The new root put in place, and in the active tree as well where the generations agree. -/
def setRoot (ctx : GefsCtx) (t : TreeRef) (bp : GefsBptr) : GefsCtx :=
  let ctx' := match t with
    | .active => { ctx with activeTree := { ctx.activeTree with bp := bp, ht := 1 } }
    | .snap => { ctx with snapTree := { ctx.snapTree with bp := bp, ht := 1 } }
  if (ctx.tree t).gen = ctx.activeTree.gen then
    { ctx' with activeTree := { ctx'.activeTree with bp := bp, ht := 1 } }
  else ctx'

/-- An empty leaf at `addr`, from `calloc`. -/
def newLeaf (ctx : GefsCtx) (addr gen : Int64) : GefsBlk :=
  { type := gefsTleaf, nval := 0, valsz := 0, nbuf := 0, bufsz := 0, logsz := 0
    data := gefsLeafhdsz, buf := withTail (fun _ => 0) (ctx.heap ctx.nblk)
    id := ctx.nblk, bp := ⟨addr, 0, gen⟩, ref := 0 }

/-- A finalized block written out and put at the head of the cache, held once. -/
def writeBlk (ctx : GefsCtx) (b : GefsBlk) : GefsCtx :=
  { ctx with
    disk := ctx.disk.pwrite b.bp.addr b.buf
    cache := ctx.cache.insert { b with ref := 1 }
    nblk := ctx.nblk + 1 }

def gefsBtupsert (ctx : GefsCtx) (t : TreeRef) (ms : List GefsMsg) :
    Option (Except Errno Unit × GefsCtx) :=
  if ctx.readonly ∨ ms = [] then some (.error .erofs, ctx)
  else match gefsGetblk ctx (ctx.tree t).bp with
    | (none, ctx) => some (.error .eio, ctx)
    | (some root, ctx) =>
      match gefsAllocBlk ctx with
      | (addr, ctx) =>
        if addr < 0 then some (.error .enospc, gefsDropblk ctx root)
        else do
          let b ← mergeInto (blkVals root.toContent) (bubbleSort GefsMsg.k ms)
            (newLeaf ctx addr (ctx.tree t).gen)
          let b := blkFinalize b
          let ctx := writeBlk (setRoot ctx t b.bp) b
          some (.ok (), { gefsDropblk ctx root with dirty := true })

end GefsFuse
