import GefsFuse.Files

/-!
# Mounting, syncing, snapshots

`gefs_fs_open` reads the superblock, rebuilds each arena's free list from its log and opens the
label `main`. Nothing bounds the chain of log blocks: `fuel` is how many of them are followed, and
an image on which no fuel is enough is one the source never finishes opening.

`load_arena` reads a header from `h0->data` and a log block from `b->data`, and for these types
`gefs_getblk` sets `data` to the start of the block.
-/

namespace GefsFuse

open ByteMem Calls

/-! The arenas. -/

/-- `[off, off + len)` taken out of the first range that holds it. -/
def allocRange (off len : Int64) : List GefsRange → List GefsRange
  | [] => []
  | cur :: rest =>
    if cur.off ≤ off ∧ off + len ≤ cur.off + cur.len then
      if off = cur.off ∧ len = cur.len then rest
      else if off = cur.off then ⟨cur.off + len, cur.len - len⟩ :: rest
      else if off + len = cur.off + cur.len then ⟨cur.off, cur.len - len⟩ :: rest
      else ⟨cur.off, off - cur.off⟩ :: ⟨off + len, cur.off + cur.len - (off + len)⟩ :: rest
    else cur :: allocRange off len rest

/-- The bytes of a log entry: two words for the operations 0 and 1. -/
def logStep (ent : UInt64) : ℕ := if ent &&& 0xff = 0 ∨ ent &&& 0xff = 1 then 16 else 8

/-- One log entry: operations 0 and 2 free a range, 1 and 3 allocate one. -/
def logEntry (m : Mem) (i : ℕ) (fl : List GefsRange) : List GefsRange :=
  let ent := unpack64 m i
  let op := ent &&& 0xff
  let off := (ent &&& ~~~0xff).toInt64
  let len := if logStep ent = 16 then (unpack64 m (i + 8)).toInt64 else 16384
  if op = 0 ∨ op = 2 then ⟨off, len⟩ :: fl
  else if op = 1 ∨ op = 3 then allocRange off len fl
  else fl

/-- The entries of a log block from `i` on; `m` is the memory from the block's data on. -/
def replayLog (m : Mem) (logsz i : ℕ) (fl : List GefsRange) : List GefsRange :=
  if i < logsz then replayLog m logsz (i + logStep (unpack64 m i)) (logEntry m i fl) else fl
  termination_by logsz - i
  decreasing_by unfold logStep; split <;> omega

/-- The log blocks from `bp` on. -/
def loadChain : ℕ → GefsCtx → GefsBptr → List GefsRange → Option (List GefsRange × GefsCtx)
  | 0, _, _, _ => none
  | fuel + 1, ctx, bp, fl =>
    if bp.addr = -1 then some (fl, ctx)
    else match gefsGetblk ctx bp with
      | (none, ctx) => some (fl, ctx)
      | (some b, ctx) =>
        let fl := replayLog (fun i => b.buf (b.data + i)) (unpack16 b.buf 2) 0 fl
        loadChain fuel (gefsDropblk ctx b) (gefsUnpackbp b.buf 12) fl

/-- An arena, left zero where its header cannot be read. -/
def loadArena (fuel : ℕ) (ctx : GefsCtx) (h0 : GefsBptr) : Option (GefsArena × GefsCtx) :=
  match gefsGetblk ctx h0 with
  | (none, ctx) => some (⟨0, 0, 0, ⟨0, 0, 0⟩, []⟩, ctx)
  | (some b, ctx) => do
    let loghd := gefsUnpackbp b.buf (b.data + 32)
    let (fl, ctx) ← loadChain fuel (gefsDropblk ctx b) loghd []
    some (⟨h0.addr, (unpack64 b.buf b.data).toInt64, (unpack64 b.buf (b.data + 8)).toInt64,
      loghd, fl⟩, ctx)

def loadArenas (fuel : ℕ) : List GefsBptr → GefsCtx → Option (List GefsArena × GefsCtx)
  | [], ctx => some ([], ctx)
  | bp :: bps, ctx => do
    let (a, ctx) ← loadArena fuel ctx bp
    let (as, ctx) ← loadArenas fuel bps ctx
    some (a :: as, ctx)

/-! Labels. -/

/-- `Klabel{name}` names an id, and `Ksnap{id}` its tree. -/
def gefsOpensnap (label : Bytes) : FsProg (Except Errno (GefsTree × UInt32)) :=
  match gefsPacklbl gefsKvmax label with
  | none => .ret (.error .einval)
  | some k => do
    match ← .one (.btlookup .snap k) with
    | none => .ret (.error .enoent)
    | some kv =>
      if kv.2.length < 1 + 8 + 4 then .ret (.error .eio)
      else do
        let gen := (unpack64 (memOf kv.2) 1).toInt64
        let flg := unpack32 (memOf kv.2) 9
        match ← .one (.btlookup .snap (gefsPacksnap gen)) with
        | none => .ret (.error .eio)
        | some kv =>
          match gefsUnpacktree kv.2 with
          | none => .ret (.error .eio)
          | some t => .ret (.ok (t, flg))

def lblMain : Bytes := [0x6d, 0x61, 0x69, 0x6e]
def lblEmpty : Bytes := [0x65, 0x6d, 0x70, 0x74, 0x79]
def lblAdm : Bytes := [0x61, 0x64, 0x6d]

/-- The tree of `main`, or of `empty`, or else the catalog itself. -/
def openDefault : FsProg Unit := do
  match ← gefsOpensnap lblMain with
  | .ok (t, _) => .one (.mount t)
  | .error _ => do
    match ← gefsOpensnap lblEmpty with
    | .ok (t, _) => .one (.mount t)
    | .error _ => do
      let t ← .one (.tree .snap)
      .one (.mount t)

/-- The superblock at 0, or the one at the end. -/
def readSuper (d : Disk) : Except Errno GefsSuper :=
  match d.pread 0 with
  | none => .error .eio
  | some m =>
    match gefsUnpacksb m with
    | some sb => .ok sb
    | none =>
      if gefsBlksz < d.size then
        match (d.pread (Int64.ofInt (d.size - gefsBlksz))).bind gefsUnpacksb with
        | some sb => .ok sb
        | none => .error .einval
      else .error .einval

/-- The context before the arenas are loaded. -/
def freshCtx (d : Disk) (readonly : Bool) (heap : ℕ → Mem) (sb : GefsSuper) : GefsCtx :=
  { disk := d, sb := sb, cache := gefsCacheInit 4096, snapTree := zeroTree, activeTree := zeroTree
    arenas := [], dirty := false, readonly := readonly, heap := heap, nblk := 0 }

def gefsFsOpen (fuel : ℕ) (d : Disk) (readonly : Bool) (heap : ℕ → Mem) :
    Option (Except Errno GefsCtx) :=
  match readSuper d with
  | .error e => some (.error e)
  | .ok sb => do
    let (as, ctx) ← loadArenas fuel sb.arenabp (freshCtx d readonly heap sb)
    let (_, ctx) ← run sysStep openDefault { ctx with arenas := as, snapTree := sb.snap }
    some (.ok ctx)

/-! Sync. -/

/-- The arena headers from the `i`-th on. -/
def putArenas : ℕ → ℕ → FsProg Unit
  | _, 0 => .ret ()
  | i, n + 1 => do
    .one (.putArena i)
    putArenas (i + 1) n

/-- The active tree entered in the catalog under its own generation, then the arena headers and
the two superblocks. The answer of the update is not looked at. -/
def gefsSyncFs : FsProg Unit := do
  let ro ← .one .readonly
  let dirty ← .one .dirty
  if ro ∨ ¬ dirty then .ret ()
  else do
    let t ← .one (.tree .active)
    let _ ← .one (.btupsert .snap [⟨.oinsert, gefsPacksnap t.gen, packtree t, []⟩])
    let n ← .one .narena
    putArenas 0 n
    .one .putSuper
    .one .putBackup
    .one .clean

/-! Snapshots. -/

def gefsCreateSnapshot (name : Bytes) (mutableFlag : Bool) : FsProg (Except Errno Unit) := do
  let ro ← .one .readonly
  if ro then .ret (.error .erofs)
  else do
    let flags := gefsLtsnap ||| (if mutableFlag then gefsLmut else 0)
    let gen ← .one .nextgen
    let act ← .one (.tree .active)
    let t : GefsTree :=
      { zeroTree with
        nlbl := 1
        ht := act.ht
        bp := act.bp
        gen := gen.toInt64
        pred := act.gen
        succ := -1 }
    let k ← Prog.ofOption (gefsPacklbl gefsKeymax name)
    match ← .one (.btupsert .snap
        [⟨.oinsert, k, packlblval gen.toInt64 flags, []⟩,
          ⟨.oinsert, gefsPacksnap gen.toInt64, packtree t, []⟩]) with
    | .error e => .ret (.error e)
    | .ok _ => do
      gefsSyncFs
      .ret (.ok ())

def gefsDeleteSnapshot (name : Bytes) : FsProg (Except Errno Unit) := do
  let ro ← .one .readonly
  if ro then .ret (.error .erofs)
  else if name = lblMain ∨ name = lblAdm ∨ name = lblEmpty then .ret (.error .eperm)
  else do
    let k ← Prog.ofOption (gefsPacklbl gefsKeymax name)
    match ← .one (.btupsert .snap [⟨.odelete, k, [], []⟩]) with
    | .error e => .ret (.error e)
    | .ok _ => do
      gefsSyncFs
      .ret (.ok ())

/-- `gefs_fuse` with `-s`: the active tree replaced if the label opens. -/
def selectSnap (label : Bytes) : FsProg Unit := do
  match ← gefsOpensnap label with
  | .ok (t, _) => .one (.mount t)
  | .error _ => .ret ()

/-! Operations of the port, with their arguments. -/

inductive FileOp
  | createFile (c : Caller) (path : CStr) (mode : UInt32)
  | createDir (c : Caller) (path : CStr) (mode : UInt32)
  | createSymlink (c : Caller) (target linkpath : CStr)
  | writeFile (path : CStr) (buf : Bytes) (offset now : Int64)
  | truncateFile (path : CStr) (size now : Int64)
  | unlinkEntry (path : CStr)
  | rmdirEntry (path : CStr)
  | renameEntry (oldpath newpath : CStr)
  | chmodEntry (path : CStr) (mode : UInt32)
  | chownEntry (path : CStr) (uid gid : UInt32)
  | utimensEntry (path : CStr) (tv : Option (Int64 × Int64)) (now : Int64)

/-- The answer of an operation that returns 0. -/
def zeroRet (p : FsProg (Except Errno Unit)) : FsProg (Except Errno ℕ) := do
  match ← p with
  | .ok _ => .ret (.ok 0)
  | .error e => .ret (.error e)

def FileOp.prog : FileOp → FsProg (Except Errno ℕ)
  | createFile c path mode => zeroRet (gefsCreateFile c path.bytes mode)
  | createDir c path mode => zeroRet (gefsCreateDir c path.bytes mode)
  | createSymlink c target linkpath => zeroRet (gefsCreateSymlink c target.bytes linkpath.bytes)
  | writeFile path buf offset now => gefsWriteFile path.bytes buf offset now
  | truncateFile path size now => zeroRet (gefsTruncateFile path.bytes size now)
  | unlinkEntry path => zeroRet (gefsUnlinkEntry path.bytes)
  | rmdirEntry path => zeroRet (gefsRmdirEntry path.bytes)
  | renameEntry oldpath newpath => zeroRet (gefsRenameEntry oldpath.bytes newpath.bytes)
  | chmodEntry path mode => zeroRet (gefsChmodEntry path.bytes mode)
  | chownEntry path uid gid => zeroRet (gefsChownEntry path.bytes uid gid)
  | utimensEntry path tv now => zeroRet (gefsUtimensEntry path.bytes tv now)

inductive PortOp
  | file (op : FileOp)
  | createSnapshot (name : CStr) (mutableFlag : Bool)
  | deleteSnapshot (name : CStr)
  | sync
  | select (label : CStr)

def PortOp.prog : PortOp → FsProg (Except Errno ℕ)
  | file op => op.prog
  | createSnapshot name flag => zeroRet (gefsCreateSnapshot name.bytes flag)
  | deleteSnapshot name => zeroRet (gefsDeleteSnapshot name.bytes)
  | sync => do
    gefsSyncFs
    .ret (.ok 0)
  | select label => do
    selectSnap label.bytes
    .ret (.ok 0)

/-- One operation after the other. -/
def progs : List PortOp → FsProg Unit
  | [] => .ret ()
  | op :: ops => do
    let _ ← op.prog
    progs ops

/-- The image a session leaves behind: `gefs_fs_close`. -/
def gefsFsClose (ctx : GefsCtx) : Option Disk :=
  if ctx.dirty ∧ ¬ ctx.readonly then (run sysStep gefsSyncFs ctx).map fun r => r.2.disk
  else some ctx.disk

end GefsFuse
