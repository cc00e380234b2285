import GefsFuse.Mount

/-!
# The formatter

`mkfs.gefs`: eight to thirty-two arenas, each two headers and a log block that frees the arena and
takes the log block itself out again; the roots of `main` and `adm`, the users block and the
catalog at fixed addresses in the first arena; and two superblocks. What the image held before is
kept everywhere else.
-/

namespace GefsFuse

open ByteMem

def qmainroot : UInt64 := 0
def qadmroot : UInt64 := 1
def qadmuser : UInt64 := 2
def nreamqid : UInt64 := 3

def fillxdir (qid : UInt64) (name : Bytes) (type : UInt8) (mode : UInt32) : GefsXdir :=
  { zeroXdir with
    qid := ⟨qid, 0, type⟩
    mode := mode
    name := some name
    uid := -1
    gid := -1 }

/-- `setval` of the formatter, the code of `blk_setval`. -/
def setval (b : GefsBlk) (kv : GefsKvp) : Option GefsBlk := blkSetval b kv

/-- A block on the formatter's stack, cleared. -/
def reamBlk (type data : ℕ) (buf : Mem) (logsz : ℤ) (bp : GefsBptr) : GefsBlk :=
  { type := type, nval := 0, valsz := 0, nbuf := 0, bufsz := 0, logsz := logsz
    data := data, buf := buf, id := 0, bp := bp, ref := 0 }

/-- A leaf with the entries `es` in order, finalized. -/
def reamLeaf (addr : Int64) (es : List GefsKvp) : Option GefsBlk :=
  (es.foldlM setval (reamBlk gefsTleaf gefsLeafhdsz (fun _ => 0) 0 ⟨addr, 0, 0⟩)).map blkFinalize

def dir2kv (upqid : Int64) (d : GefsXdir) : Option GefsKvp := do
  let k ← gefsPackdkey gefsKeymax upqid d.name
  let v ← gefsPackdval gefsInlmax d
  some (k, v)

def initroot : Option (List GefsKvp) := do
  let root ← dir2kv (-1) (fillxdir qmainroot [] gefsQtdir (gefsDmdir ||| 0o775))
  let up ← gefsPackdkey gefsInlmax (-1) (some [])
  some [root, (packupkey qmainroot, up)]

/-- The name `users`. -/
def usersName : Bytes := [0x75, 0x73, 0x65, 0x72, 0x73]

def initadm (u : GefsBptr) (nu : ℕ) : Option (List GefsKvp) := do
  let users ← dir2kv qadmroot.toInt64
    { fillxdir qadmuser usersName gefsQtfile 0o664 with length := UInt64.ofNat nu }
  let root ← dir2kv (-1) (fillxdir qadmroot [] gefsQtdir (gefsDmdir ||| 0o775))
  let up ← gefsPackdkey gefsInlmax (-1) (some [])
  some [(packdatkey qadmuser 0, gefsPackbp u), users, root, (packupkey qadmroot, up)]

def lbl2kv (name : Bytes) (id : Int64) (flags : UInt32) : Option GefsKvp := do
  let k ← gefsPacklbl gefsKeymax name
  some (k, packlblval id flags)

/-- A snapshot record of the formatter. -/
def reamTree (nref : Int32) (gen succ : Int64) (bp : GefsBptr) : GefsTree :=
  { zeroTree with nref := nref, nlbl := 1, ht := 1, gen := gen, succ := succ, bp := bp }

/-- The catalog: the ids 0, 1 and 2, with the generations from `nextgen` on. -/
def initsnap (r a : GefsBptr) (nextgen : Int64) : Option (List GefsKvp) := do
  let adm ← lbl2kv lblAdm 1 (gefsLmut ||| gefsLtsnap)
  let empty ← lbl2kv lblEmpty 0 0
  let main ← lbl2kv lblMain 2 (gefsLmut ||| gefsLtsnap)
  some [adm, empty, main,
    (gefsPacksnap 0, packtree (reamTree 2 nextgen 2 r)),
    (gefsPacksnap 1, packtree (reamTree 0 (nextgen + 1) (-1) a)),
    (gefsPacksnap 2, packtree (reamTree 0 (nextgen + 2) (-1) r))]

/-- `write_blk`. -/
def putBlk (d : Disk) (b : GefsBlk) : Disk := d.pwrite b.bp.addr b.buf

/-- Blocks written one after the other. -/
def putBlks (d : Disk) (bs : List GefsBlk) : Disk := bs.foldl putBlk d

/-- The log of an empty arena. -/
def reamLog (logaddr asz : ℕ) : Bytes :=
  be 8 logaddr ++ be 8 (asz - 2 * gefsBlksz) ++ be 8 (logaddr ||| 1) ++ be 8 gefsBlksz ++ be 8 4

def reamLogBlk (logaddr asz : ℕ) : GefsBlk :=
  blkFinalize (reamBlk gefsTlog gefsLoghdsz (store (fun _ => 0) gefsLoghdsz (reamLog logaddr asz))
    40 ⟨Int64.ofNat logaddr, 0, -1⟩)

/-- The log block and the two headers of the arena at `off`. -/
def reamArena (off asz : ℕ) (d : Disk) : Disk × GefsBptr :=
  let log := reamLogBlk (off + 2 * gefsBlksz) asz
  let h0 := arenaHdr (Int64.ofNat off) (Int64.ofNat asz) 16384 log.bp
  let h1 := arenaHdr (Int64.ofNat (off + gefsBlksz)) (Int64.ofNat asz) 16384 log.bp
  (putBlk (putBlk (putBlk d log) h0) h1, h0.bp)

/-- `n` arenas from `off` on. -/
def reamArenas (asz : ℕ) : ℕ → ℕ → Disk → Disk × List GefsBptr
  | 0, _, d => (d, [])
  | n + 1, off, d =>
    let (d, bp) := reamArena off asz d
    let (d, bps) := reamArenas asz n (off + asz + 2 * gefsBlksz) d
    (d, bp :: bps)

/-- The users table, cut to its buffer: `-1:adm::%s\n0:none::\n1:%s:%s:\n`. -/
def usersTab (user : Bytes) : Bytes :=
  ([0x2d, 0x31, 0x3a, 0x61, 0x64, 0x6d, 0x3a, 0x3a] ++ user ++ [0x0a]
    ++ [0x30, 0x3a, 0x6e, 0x6f, 0x6e, 0x65, 0x3a, 0x3a, 0x0a]
    ++ [0x31, 0x3a] ++ user ++ [0x3a] ++ user ++ [0x3a, 0x0a]).take 255

/-- The bytes of the image that are laid out. -/
def reamUsable (size : ℕ) : ℕ := size - size % gefsBlksz - 2 * gefsBlksz

def reamNarena (size : ℕ) : ℕ :=
  let n := (reamUsable size + 4096 * 1024 * 1024 * 1024 - 1) / (4096 * 1024 * 1024 * 1024)
  min (max n 8) 32

def reamAsz (size : ℕ) : ℕ :=
  let a := reamUsable size / reamNarena size
  a - a % gefsBlksz - 2 * gefsBlksz

/-- Addresses of the blocks in the first arena. -/
def mbAddr : ℕ := gefsBlksz + 3 * gefsBlksz
def abAddr : ℕ := gefsBlksz + 4 * gefsBlksz
def ubAddr : ℕ := gefsBlksz + 5 * gefsBlksz
def tbAddr : ℕ := gefsBlksz + 6 * gefsBlksz

def reamSuper (narena : ℕ) (tb : GefsBptr) (arenabp : List GefsBptr) : GefsSuper :=
  { blksz := 16384
    bufspc := Int32.ofNat gefsBufspc
    narena := Int32.ofNat narena
    snap := { zeroTree with ht := 1, bp := tb }
    flag := 0
    nextqid := nreamqid
    nextgen := 4
    qgen := 0
    arenabp := arenabp }

/-- `packsb` of the formatter. -/
def packsb (sb : GefsSuper) : Mem :=
  let p := magic ++ pack32 sb.blksz.toUInt32 ++ pack32 sb.bufspc.toUInt32
    ++ pack32 sb.narena.toUInt32 ++ pack32 sb.snap.ht.toUInt32
    ++ pack64 sb.snap.bp.addr.toUInt64 ++ pack64 sb.snap.bp.hash
    ++ (List.replicate 4 (pack64 (-1))).flatten
    ++ pack64 sb.flag ++ pack64 sb.nextqid ++ pack64 sb.nextgen ++ pack64 sb.qgen
    ++ (List.range sb.narena.toInt.toNat).flatMap fun i =>
      let bp := sb.arenabp.getD i ⟨0, 0, 0⟩
      pack64 bp.addr.toUInt64 ++ pack64 bp.hash
  let m := store (fun _ => 0) 0 p
  store m p.length (pack64 (gefsBufhash m 0 p.length))

/-- A superblock block, finalized. -/
def superBlk (addr : Int64) (sb : GefsSuper) : GefsBlk :=
  blkFinalize (reamBlk gefsTsuper 0 (packSbBlock sb) 0 ⟨addr, 0, 0⟩)

/-- The roots of `main` and `adm`, the users block between them and the catalog, as they are
written. `nextgen` starts at 1. -/
def reamRoots (user : Bytes) : Option (GefsBlk × GefsBlk × GefsBlk × GefsBlk) := do
  let es ← initroot
  let mb ← reamLeaf (Int64.ofNat mbAddr) es
  let utab := usersTab user
  let ub := blkFinalize (reamBlk gefsTdat 0 (store (fun _ => 0) 0 utab) 0
    ⟨Int64.ofNat ubAddr, 0, 0⟩)
  let es ← initadm ub.bp utab.length
  let ab ← reamLeaf (Int64.ofNat abAddr) es
  let es ← initsnap mb.bp ab.bp 1
  let tb ← reamLeaf (Int64.ofNat tbAddr) es
  some (mb, ub, ab, tb)

/-- The arenas, the roots over them and the two superblocks, the second at `last`. -/
def reamImage (asz narena last : ℕ) (roots : GefsBlk × GefsBlk × GefsBlk × GefsBlk) (d : Disk) :
    Disk :=
  let (mb, ub, ab, tb) := roots
  let r := reamArenas asz narena gefsBlksz d
  let sb := reamSuper narena tb.bp r.2
  putBlks r.1 [mb, ub, ab, tb, superBlk 0 sb, superBlk (Int64.ofNat last) sb]

/-- The formatted image, none if it is too small; a size is an `off_t`. -/
def mkfs (user : Bytes) (d : Disk) : Option Disk :=
  if d.size < 128 * 1024 * 1024 + gefsBlksz ∨ 2 ^ 63 ≤ d.size then none
  else (reamRoots user).map fun roots =>
    reamImage (reamAsz d.size) (reamNarena d.size) (reamUsable d.size + gefsBlksz) roots d

end GefsFuse
