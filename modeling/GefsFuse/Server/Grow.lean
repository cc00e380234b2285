import GefsFuse.Geometry
import GefsFuse.Server.FreeLog

/-!
# Ream and grow

What `reamfs` and `growfs` lay out: the arenas, as `initarena` leaves them, and the two
superblocks. `Blksz` and `MiB` are unsigned constants of 64 bits, so what is added to them or
compared with them is unsigned; a division of two `vlong` is signed. Of the contents only the log
of a new arena, which is replayed as soon as it is written, and the superblock matter here. The
hashes of the arena headers and the root of the snapshots are arguments. A run that the source stops
is none.
-/

namespace GefsFuse.Server

open ByteMem Ranges

/-! ## The superblock -/

/-- The fields of `Gefs` that the superblock holds; of the trees only what is packed or set. -/
structure Gefs where
  blksz : Int32
  bufspc : Int32
  narena : Int32
  ht : Int32
  snap : GefsBptr
  dlgen : Int64
  dlhd : GefsBptr
  dltl : GefsBptr
  flag : Int64
  nextqid : Int64
  nextgen : Int64
  qgen : Int64
  arenabp : List GefsBptr

/-- A file system that is not loaded. -/
def zeroGefs : Gefs := ⟨0, 0, 0, 0, ⟨0, 0, 0⟩, 0, ⟨0, 0, 0⟩, ⟨0, 0, 0⟩, 0, 0, 0, 0, []⟩

def bufspc : UInt32 := (16384 - 10) / 2

/-- The bytes of the superblock up to its hash. -/
def sbBytes (fi : Gefs) : Bytes :=
  magic ++ pack32 16384 ++ pack32 bufspc ++ pack32 fi.narena.toUInt32 ++ pack32 fi.ht.toUInt32
    ++ pack64 fi.snap.addr.toUInt64 ++ pack64 fi.snap.hash
    ++ pack64 fi.dlhd.addr.toUInt64 ++ pack64 fi.dlhd.hash
    ++ pack64 fi.dltl.addr.toUInt64 ++ pack64 fi.dltl.hash
    ++ pack64 fi.flag.toUInt64 ++ pack64 fi.nextqid.toUInt64
    ++ pack64 fi.nextgen.toUInt64 ++ pack64 fi.qgen.toUInt64
    ++ (fi.arenabp.take fi.narena.toInt.toNat).flatMap fun bp =>
      pack64 bp.addr.toUInt64 ++ pack64 bp.hash

/-- The superblock packed into `p0`; none where the assertion on the arenas fails. -/
def packsb (p0 : Mem) (fi : Gefs) : Option Mem :=
  if fi.narena < 512 then
    let p := sbBytes fi
    let m := store p0 0 p
    some (store m p.length (pack64 (bufhash m 0 p.length)))
  else none

/-- The superblock read into `fi`. The generation of the deadlist's tail stays what it was. -/
def unpacksb (fi : Gefs) (p0 : Mem) : Option Gefs :=
  let narena := (unpack32 p0 16).toInt32
  let e := 104 + 16 * narena.toInt.toNat
  if load p0 0 8 ≠ magic then none
  else if unpack64 p0 e ≠ bufhash p0 0 e then none
  else if narena < 256 then some
    { blksz := (unpack32 p0 8).toInt32
      bufspc := (unpack32 p0 12).toInt32
      narena := narena
      ht := (unpack32 p0 20).toInt32
      snap := ⟨(unpack64 p0 24).toInt64, unpack64 p0 32, -1⟩
      dlgen := -1
      dlhd := ⟨(unpack64 p0 40).toInt64, unpack64 p0 48, -1⟩
      dltl := ⟨(unpack64 p0 56).toInt64, unpack64 p0 64, fi.dltl.gen⟩
      flag := (unpack64 p0 72).toInt64
      nextqid := (unpack64 p0 80).toInt64
      nextgen := (unpack64 p0 88).toInt64
      qgen := (unpack64 p0 96).toInt64
      arenabp := unpackArenabp p0 104 narena.toInt.toNat }
  else none

/-! ## The arenas -/

/-- An arena as `initarena` leaves it: its headers, its size, and its log, a single block. -/
structure NewArena where
  h0 : Int64
  h1 : Int64
  size : Int64
  loghd : Int64
  logdata : Bytes

def initarena (hdaddr : UInt64) (asz : Int64) : NewArena :=
  let addr := hdaddr + 2 * ublksz
  { h0 := hdaddr.toInt64
    h1 := (hdaddr + ublksz).toInt64
    size := asz
    loghd := addr.toInt64
    logdata := pack64 (addr ||| logFree) ++ pack64 (asz.toUInt64 - 2 * ublksz)
      ++ pack64 (addr ||| logAlloc) ++ pack64 ublksz ++ pack64 logSync }

/-- What `loadlog` replays of the log of a new arena. -/
def NewArena.log (a : NewArena) (qgen : Int64) : Option (List LogEv × Bool) :=
  blkLog qgen (memOf a.logdata) 0 a.logdata.length 0

/-- `loadarena` of a new arena, which reads the header just written and takes the whole space for
used, and `loadlog`: the free ranges and the bytes used. -/
def NewArena.loadlog (a : NewArena) (qgen : Int64) : Option (List Rng × ℤ) := do
  let (es, _) ← a.log qgen
  replay a.size.toInt es

/-- `n` arenas from `off` on, each after the other. -/
def initarenas (asz : Int64) : Int64 → ℕ → List NewArena
  | _, 0 => []
  | off, n + 1 => initarena off.toUInt64 asz
    :: initarenas asz (off.toUInt64 + (asz.toUInt64 + 2 * ublksz)).toInt64 n

/-! ## The device -/

/-- A device that is reamed: its arenas in the order of the superblock, the block at 0 with what
was packed into it, and the address of the backup. -/
structure Dev where
  arenas : List NewArena
  fs : Gefs
  sb0 : Mem
  sb1 : Int64

def mib : UInt64 := 1024 * 1024

/-- The block pointers of the arenas, `hash i` the hash of the `i`-th header. -/
def arenabps (as : List NewArena) (hash : ℕ → UInt64) : List GefsBptr :=
  as.mapIdx fun i a => ⟨a.h0, hash i, -1⟩

/-- The number of arenas for a size. -/
def reamNarena (sz : Int64) : Int32 :=
  let n := ((sz.toUInt64 + arenaMax - 1) / arenaMax).toUInt32.toInt32
  let n := if n < 8 then 8 else n
  if 32 ≤ n then 32 else n

/-- `reamfs` on a device of `length` bytes, `tb` the leaf of the snapshots. -/
def reamfs (length : Int64) (tb : GefsBptr) (hash : ℕ → UInt64) : Option Dev :=
  if length.toUInt64 < 128 * mib + ublksz then none
  else do
    let sz := roundLess2 length
    let narena := reamNarena sz
    let arenas := initarenas (roundLess2 (sz / narena.toInt64)) ublksz.toInt64 narena.toInt.toNat
    let _ ← arenas.mapM (·.loadlog zeroGefs.qgen)
    let fs := { zeroGefs with
      narena := narena
      ht := 1
      snap := tb
      dlhd := ⟨-1, 0xffffffffffffffff, 0⟩
      dltl := ⟨-1, 0xffffffffffffffff, 0⟩
      nextqid := 3
      nextgen := 3
      arenabp := arenabps arenas hash }
    let sb0 ← packsb (fun _ => 0) fs
    some ⟨arenas, fs, sb0, (sz.toUInt64 + ublksz).toInt64⟩

/-- `loadarena` of the headers at `hd` and in the next block, which are those of an arena that
`initarena` wrote. The log is not read. -/
def Dev.loadarena (d : Dev) (hd : Int64) : Option NewArena :=
  d.arenas.find? fun a => a.h0 = hd

/-- `growfs` on a device that is now of `length` bytes. A header that was read has no hash. -/
def growfs (length : Int64) (hash : ℕ → UInt64) (d : Dev) : Option Dev := do
  let fs ← unpacksb zeroGefs d.sb0
  let arenas ← fs.arenabp.mapM fun bp => d.loadarena bp.addr
  let a ← arenas.getLast?
  let oldsz := ((a.h0 + a.size).toUInt64 + 2 * ublksz).toInt64
  let newsz := roundLess2 length
  if (newsz - oldsz).toUInt64 < 64 * mib then none
  else if oldsz.toUInt64 % ublksz ≠ 0 then none
  else
    let as := initarenas (roundLess2 ((newsz - oldsz) / 4)) oldsz 4
    let _ ← as.mapM (·.loadlog fs.qgen)
    let fs := { fs with
      narena := fs.narena + 4
      arenabp := arenabps arenas (fun _ => 0xffffffffffffffff) ++ arenabps as hash }
    let sb0 ← packsb d.sb0 fs
    some ⟨arenas ++ as, fs, sb0, (length.toUInt64 - length.toUInt64 % ublksz - ublksz).toInt64⟩

/-- A growth of the device: its new length, and the hashes of the headers that are written. -/
abbrev Growth := Int64 × (ℕ → UInt64)

/-- The steps of a run of growths: the device before, the growth, and the device after. -/
def growRun : Dev → List Growth → Option (List (Dev × Growth × Dev))
  | _, [] => some []
  | d, g :: gs => do
    let d' ← growfs g.1 g.2 d
    let steps ← growRun d' gs
    some ((d, g, d') :: steps)

end GefsFuse.Server
