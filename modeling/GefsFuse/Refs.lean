import GefsFuse.Mount

/-!
# Who holds a block

The operations a caller of the port has, the states they reach, and the calls that put a block of
their own in the cache: `gefs_btupsert` and the data blocks of `gefs_write_file` insert it with a
count of 1.
-/

namespace GefsFuse

open ByteMem Calls

/-- The operations that change nothing, and those of `PortOp`. -/
inductive PublicOp
  | walk (t : TreeRef) (path : CStr) (d : GefsXdir)
  | list (t : TreeRef) (q : UInt64) (callback : List GefsXdir → Bool)
  | read (t : TreeRef) (d : GefsXdir) (size : UInt64) (offset : Int64)
  | opensnap (label : CStr)
  | port (op : PortOp)

def PublicOp.prog : PublicOp → FsProg Unit
  | walk t path d => do
    let _ ← gefsWalkPath t path.bytes d
    .ret ()
  | list t q callback => do
    let _ ← gefsListDir t q callback
    .ret ()
  | read t d size offset => do
    let _ ← gefsReadFile t d size offset
    .ret ()
  | opensnap label => do
    let _ ← gefsOpensnap label.bytes
    .ret ()
  | port op => do
    let _ ← op.prog
    .ret ()

/-- The states of a session: an image opened, and any operations on it. -/
inductive Running : GefsCtx → Prop
  | opened {fuel : ℕ} {d : Disk} {readonly : Bool} {heap : ℕ → Mem} {ctx : GefsCtx}
      (h : gefsFsOpen fuel d readonly heap = some (.ok ctx)) : Running ctx
  | call {ctx ctx' : GefsCtx} {op : PublicOp} (h : Running ctx)
      (hr : run sysStep op.prog ctx = some ((), ctx')) : Running ctx'

/-- Nothing holds a cached block. -/
def Unheld (ctx : GefsCtx) : Prop := ∀ b ∈ ctx.cache.blks, b.ref = 0

/-- The cache's `count`. -/
def GefsCache.count (c : GefsCache) : ℕ := c.blks.length

/-- A block of the address is cached or can be read. -/
def Readable (ctx : GefsCtx) (bp : GefsBptr) : Prop :=
  (ctx.cache.find bp.addr).isSome ∨ (ctx.disk.pread bp.addr).isSome

/-- The allocator has a block to give out. -/
def HasFree (ctx : GefsCtx) : Prop :=
  ctx.readonly = false ∧ 0 < ctx.sb.narena ∧ ∃ r ∈ allocArenas ctx.arenas, 0 ≤ r.1

/-- The call puts a block of its own in the cache. -/
def Sys.Inserts : {β : Type} → Sys β → GefsCtx → Prop
  | _, .btupsert t ms, ctx => ms ≠ [] ∧ Readable ctx (ctx.tree t).bp ∧ HasFree ctx
  | _, .writedat _, ctx => HasFree ctx
  | _, _, _ => False

/-- The tree a call goes through is lower than the cache is large. -/
def Sys.Low : {β : Type} → Sys β → GefsCtx → Prop
  | _, .btlookup t _, ctx => (ctx.tree t).ht.toInt < ctx.cache.max
  | _, .btscan t _ _, ctx => (ctx.tree t).ht.toInt < ctx.cache.max
  | _, _, _ => True

/-- After the operation nothing is held. And where it went through low trees, starting with no more
blocks than the cache is for, the next read leaves it no larger either. -/
structure Released (op : PublicOp) (ctx ctx' : GefsCtx) : Prop where
  unheld : Unheld ctx'
  count : Meets sysStep (fun q s => q.Low s) op.prog ctx → ctx.cache.count ≤ ctx.cache.max →
    ∀ bp, (gefsGetblk ctx' bp).2.cache.count ≤ ctx'.cache.max

end GefsFuse
