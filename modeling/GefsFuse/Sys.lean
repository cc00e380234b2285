import GefsFuse.Upsert
import GefsFuse.Lib.Prog

/-!
# The calls operations are made of

The operations of the port are programs over these calls. A call writes at most one block, so the
states between the calls of a run are the states a crash can leave on the disk.
-/

namespace GefsFuse

open ByteMem Calls

inductive Sys : Type → Type
  /-- `gefs_btlookup` into a buffer of `GEFS_KVMAX` bytes. -/
  | btlookup (t : TreeRef) (k : Bytes) : Sys (Option GefsKvp)
  | btupsert (t : TreeRef) (ms : List GefsMsg) : Sys (Except Errno Unit)
  /-- `gefs_btnewscan`, `gefs_btenter`, `gefs_btnext` until the caller stops, and `gefs_btexit`. -/
  | btscan (t : TreeRef) (pfx : Bytes) (stop : List GefsKvp → Bool) : Sys (List GefsKvp)
  /-- `gefs_getblk` and, once read, `gefs_dropblk`. -/
  | getblk (bp : GefsBptr) : Sys (Option Content)
  /-- A data block allocated, written and cached, as `gefs_write_file` does. -/
  | writedat (buf : Mem) : Sys (Option GefsBptr)
  /-- `sb.nextqid++`. -/
  | nextqid : Sys UInt64
  /-- `sb.nextgen++`. -/
  | nextgen : Sys UInt64
  /-- The context's fields. -/
  | readonly : Sys Bool
  | dirty : Sys Bool
  | narena : Sys ℕ
  | tree (t : TreeRef) : Sys GefsTree
  /-- The active tree replaced, as `gefs_fuse` does for `-s`. -/
  | mount (t : GefsTree) : Sys Unit
  /-- The `i`-th arena header written. -/
  | putArena (i : ℕ) : Sys Unit
  /-- The superblock written at 0, with the catalog's root. -/
  | putSuper : Sys Unit
  /-- The same superblock written at the end. -/
  | putBackup : Sys Unit
  /-- `dirty = 0`. -/
  | clean : Sys Unit

/-- A data block from `calloc` with the bytes of `m`. -/
def newDat (ctx : GefsCtx) (addr gen : Int64) (m : Mem) : GefsBlk :=
  { type := gefsTdat, nval := 0, valsz := 0, nbuf := 0, bufsz := 0, logsz := 0
    data := 0, buf := withTail m (ctx.heap ctx.nblk)
    id := ctx.nblk, bp := ⟨addr, 0, gen⟩, ref := 0 }

def writedat (ctx : GefsCtx) (m : Mem) : Option GefsBptr × GefsCtx :=
  match gefsAllocBlk ctx with
  | (addr, ctx) =>
    if addr < 0 then (none, ctx)
    else
      let b := blkFinalize (newDat ctx addr ctx.activeTree.gen m)
      (some b.bp, writeBlk ctx b)

/-- The bytes of an arena header, after its type. -/
def packarena (size used : Int64) (loghd : GefsBptr) : Bytes :=
  pack64 size.toUInt64 ++ pack64 used.toUInt64 ++ pack64 0 ++ pack64 0 ++ gefsPackbp loghd

/-- An arena header block, finalized. -/
def arenaHdr (addr size used : Int64) (loghd : GefsBptr) : GefsBlk :=
  blkFinalize
    { type := gefsTarena, nval := 0, valsz := 0, nbuf := 0, bufsz := 0, logsz := 0
      data := 2, buf := store (fun _ => 0) 2 (packarena size used loghd)
      id := 0, bp := ⟨addr, 0, 0⟩, ref := 0 }

def putArena (ctx : GefsCtx) (i : ℕ) : Option GefsCtx :=
  match ctx.arenas[i]? with
  | none => none
  | some a =>
    let h := arenaHdr a.hdaddr a.size a.used a.loghd
    some { ctx with
      disk := ctx.disk.pwrite h.bp.addr h.buf
      sb := { ctx.sb with arenabp := ctx.sb.arenabp.set i h.bp } }

def putSuper (ctx : GefsCtx) : GefsCtx :=
  let sb := { ctx.sb with snap := ctx.snapTree }
  { ctx with sb := sb, disk := ctx.disk.pwrite 0 (packSbBlock sb) }

def putBackup (ctx : GefsCtx) : GefsCtx :=
  if gefsBlksz < ctx.disk.size then
    { ctx with
      disk := ctx.disk.pwrite (Int64.ofInt (ctx.disk.size - gefsBlksz)) (packSbBlock ctx.sb) }
  else ctx

/-- What the mounted file system answers. -/
def sysStep : Machine Sys GefsCtx
  | _, .btlookup t k, ctx => gefsBtlookup ctx (ctx.tree t) k gefsKvmax
  | _, .btupsert t ms, ctx => gefsBtupsert ctx t ms
  | _, .btscan t pfx stop, ctx => gefsScan ctx (ctx.tree t) pfx stop
  | _, .getblk bp, ctx =>
    match gefsGetblk ctx bp with
    | (none, ctx) => some (none, ctx)
    | (some b, ctx) => some (some b.toContent, gefsDropblk ctx b)
  | _, .writedat m, ctx => some (writedat ctx m)
  | _, .nextqid, ctx =>
    some (ctx.sb.nextqid, { ctx with sb := { ctx.sb with nextqid := ctx.sb.nextqid + 1 } })
  | _, .nextgen, ctx =>
    some (ctx.sb.nextgen, { ctx with sb := { ctx.sb with nextgen := ctx.sb.nextgen + 1 } })
  | _, .readonly, ctx => some (ctx.readonly, ctx)
  | _, .dirty, ctx => some (ctx.dirty, ctx)
  | _, .narena, ctx => some (ctx.sb.narena.toInt.toNat, ctx)
  | _, .tree t, ctx => some (ctx.tree t, ctx)
  | _, .mount t, ctx => some ((), { ctx with activeTree := t })
  | _, .putArena i, ctx => (putArena ctx i).map fun ctx => ((), ctx)
  | _, .putSuper, ctx => some ((), putSuper ctx)
  | _, .putBackup, ctx => some ((), putBackup ctx)
  | _, .clean, ctx => some ((), { ctx with dirty := false })

end GefsFuse
