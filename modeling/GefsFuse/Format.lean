import GefsFuse.Hash

/-!
# The on-disk format

Sizes, block and key types, and the packers of `gefs_storage.c`. Keys and values are byte strings;
a packer that runs out of room returns none, as the source's returns `NULL`. A reader that runs
past the bytes of its value (`gefs_kv2dir` on a short record) is none as well: what the source
then reads is whatever lies in its buffer.
-/

namespace GefsFuse

open ByteMem

abbrev Bytes := List UInt8

/-- A C string: no byte of it is NUL. -/
structure CStr where
  bytes : Bytes
  nonul : ∀ b ∈ bytes, b ≠ 0

def gefsBlksz : ℕ := 16384
def gefsKeymax : ℕ := 256
def gefsInlmax : ℕ := 512
def gefsPtrsz : ℕ := 24
def gefsTreesz : ℕ := 4 + 4 + 4 + 4 + 8 + 8 + 8 + 8 + gefsPtrsz
def gefsKvmax : ℕ := gefsKeymax + gefsInlmax
def gefsPivhdsz : ℕ := 10
def gefsLeafhdsz : ℕ := 6
def gefsLoghdsz : ℕ := 2 + 2 + 8 + gefsPtrsz
def gefsBufspc : ℕ := (gefsBlksz - gefsPivhdsz) / 2
def gefsPivspc : ℕ := gefsBlksz - gefsPivhdsz - gefsBufspc
def gefsLeafspc : ℕ := gefsBlksz - gefsLeafhdsz

/-! Block types. -/

def gefsTdat : ℕ := 0
def gefsTpivot : ℕ := 1
def gefsTleaf : ℕ := 2
def gefsTlog : ℕ := 4
def gefsTdlist : ℕ := 5
def gefsTarena : ℕ := 6
def gefsTsuper : ℕ := 0x6765

/-! Key types. -/

def gefsKdat : UInt8 := 0
def gefsKent : UInt8 := 1
def gefsKup : UInt8 := 2
def gefsKlabel : UInt8 := 3
def gefsKsnap : UInt8 := 4

/-- Message operations, `other` for a byte that is none of them. -/
inductive MsgOp
  | onop | oinsert | odelete | oclearb | oclobber | owstat | orelink | oreprev
  | other (b : UInt8)
  deriving DecidableEq, Repr

def MsgOp.ofByte (b : UInt8) : MsgOp :=
  if b = 0 then .onop
  else if b = 1 then .oinsert
  else if b = 2 then .odelete
  else if b = 3 then .oclearb
  else if b = 4 then .oclobber
  else if b = 5 then .owstat
  else if b = 6 then .orelink
  else if b = 7 then .oreprev
  else .other b

def gefsQtdir : UInt8 := 0x80
def gefsQtsymlink : UInt8 := 0x02
def gefsQtfile : UInt8 := 0x00
def gefsDmdir : UInt32 := 0x80000000
def gefsLmut : UInt32 := 1
def gefsLtsnap : UInt32 := 4

structure GefsQid where
  path : UInt64
  vers : UInt32
  type : UInt8
  deriving DecidableEq, Repr

structure GefsBptr where
  addr : Int64
  hash : UInt64
  gen : Int64
  deriving DecidableEq, Repr

/-- A key and its value. -/
abbrev GefsKvp := Bytes × Bytes

/-- A message; `past` is what lies behind its value in memory. -/
structure GefsMsg where
  op : MsgOp
  k : Bytes
  v : Bytes
  past : Bytes
  deriving DecidableEq, Repr

structure GefsXdir where
  flag : UInt64
  qid : GefsQid
  mode : UInt32
  atime : Int64
  mtime : Int64
  length : UInt64
  uid : Int32
  gid : Int32
  muid : Int32
  name : Option Bytes
  deriving DecidableEq, Repr

/-- What `memset` leaves. -/
def zeroXdir : GefsXdir := ⟨0, ⟨0, 0, 0⟩, 0, 0, 0, 0, 0, 0, 0, none⟩

structure GefsTree where
  nref : Int32
  nlbl : Int32
  ht : Int32
  flag : UInt32
  bp : GefsBptr
  gen : Int64
  pred : Int64
  succ : Int64
  base : Int64
  deriving DecidableEq, Repr

def zeroTree : GefsTree := ⟨0, 0, 0, 0, ⟨0, 0, 0⟩, 0, 0, 0, 0⟩

structure GefsSuper where
  blksz : Int32
  bufspc : Int32
  narena : Int32
  snap : GefsTree
  flag : UInt64
  nextqid : UInt64
  nextgen : UInt64
  qgen : UInt64
  arenabp : List GefsBptr
  deriving DecidableEq, Repr

/-! `PACK` and `UNPACK`. -/

def pack8 (v : UInt8) : Bytes := [v]
def pack16 (v : ℤ) : Bytes := be 2 (v % 65536).toNat
def pack32 (v : UInt32) : Bytes := be 4 v.toNat
def pack64 (v : UInt64) : Bytes := be 8 v.toNat

def unpack16 (m : Mem) (o : ℕ) : ℕ := unbe (load m o 2)
def unpack32 (m : Mem) (o : ℕ) : UInt32 := UInt32.ofNat (unbe (load m o 4))
def unpack64 (m : Mem) (o : ℕ) : UInt64 := UInt64.ofNat (unbe (load m o 8))

/-- The bytes of a value as a memory; a reader first checks that it stays inside. -/
def memOf (bs : Bytes) : Mem := fun i => bs.getD i 0

/-- A 16-bit field: `int16_t`. -/
def i16 (n : ℤ) : ℤ := Int.bmod n 65536

/-! Strings and keys. -/

/-- The string at the head of `p`, and what follows it. -/
def gefsUnpackstr (p : Bytes) : Option (Bytes × Bytes) :=
  let n := unbe (p.take 2)
  if p.length < 3 then none
  else if p.length < n + 3 ∨ p.getD (n + 2) 0 ≠ 0 then none
  else some ((p.drop 2).takeWhile (· ≠ 0), p.drop (n + 3))

def gefsPackstr (room : ℕ) (s : Bytes) : Option Bytes :=
  if room < s.length + 3 then none else some (pack16 s.length ++ s ++ [0])

def gefsPackdkey (sz : ℕ) (up : Int64) (name : Option Bytes) : Option Bytes :=
  let hd := pack8 gefsKent ++ pack64 up.toUInt64
  match name with
  | none => some hd
  | some s => (gefsPackstr (sz - 9) s).map (hd ++ ·)

def gefsUnpackdkey (k : Bytes) : Option (Int64 × Bytes) :=
  if k.length < 9 ∨ k.getD 0 0 ≠ gefsKent then none
  else (gefsUnpackstr (k.drop 9)).map fun s => ((unpack64 (memOf k) 1).toInt64, s.1)

/-- `Kup{q}`: a directory key without a name, its type overwritten. -/
def packupkey (q : UInt64) : Bytes := pack8 gefsKup ++ pack64 q

/-- `Kdat{q, off}`. -/
def packdatkey (q : UInt64) (off : UInt64) : Bytes := pack8 gefsKdat ++ pack64 q ++ pack64 off

/-- The bytes of a packed entry. -/
def xdirsz : ℕ := 8 + 8 + 4 + 1 + 4 + 8 + 8 + 8 + 4 + 4 + 4

def gefsPackdval (sz : ℕ) (d : GefsXdir) : Option Bytes :=
  let bs := pack64 d.flag ++ pack64 d.qid.path ++ pack32 d.qid.vers ++ pack8 d.qid.type
    ++ pack32 d.mode ++ pack64 d.atime.toUInt64 ++ pack64 d.mtime.toUInt64 ++ pack64 d.length
    ++ pack32 d.uid.toUInt32 ++ pack32 d.gid.toUInt32 ++ pack32 d.muid.toUInt32
  if bs.length > sz then none else some bs

def gefsKv2dir (kv : GefsKvp) : Option GefsXdir :=
  let m := memOf kv.2
  if kv.2.length < xdirsz then none
  else some
    { flag := unpack64 m 0
      qid := ⟨unpack64 m 8, unpack32 m 16, m 20⟩
      mode := unpack32 m 21
      atime := (unpack64 m 25).toInt64
      mtime := (unpack64 m 33).toInt64
      length := unpack64 m 41
      uid := (unpack32 m 49).toInt32
      gid := (unpack32 m 53).toInt32
      muid := (unpack32 m 57).toInt32
      name := (gefsUnpackstr (kv.1.drop 9)).map (·.1) }

def gefsPacklbl (sz : ℕ) (name : Bytes) : Option Bytes :=
  if sz < name.length + 1 then none else some (gefsKlabel :: name)

def gefsPacksnap (id : Int64) : Bytes := gefsKsnap :: pack64 id.toUInt64

def gefsPackbp (bp : GefsBptr) : Bytes :=
  pack64 bp.addr.toUInt64 ++ pack64 bp.hash ++ pack64 bp.gen.toUInt64

/-- The pointer at `o`. -/
def gefsUnpackbp (m : Mem) (o : ℕ) : GefsBptr :=
  ⟨(unpack64 m o).toInt64, unpack64 m (o + 8), (unpack64 m (o + 16)).toInt64⟩

/-- The pointer a value holds. -/
def valBptr (v : Bytes) : Option GefsBptr :=
  if v.length < gefsPtrsz then none else some (gefsUnpackbp (memOf v) 0)

/-- The tree record, written out in `gefs_sync_fs`, `gefs_create_snapshot` and `packtree`. -/
def packtree (t : GefsTree) : Bytes :=
  pack32 t.nref.toUInt32 ++ pack32 t.nlbl.toUInt32 ++ pack32 t.ht.toUInt32 ++ pack32 t.flag
    ++ pack64 t.gen.toUInt64 ++ pack64 t.pred.toUInt64 ++ pack64 t.succ.toUInt64
    ++ pack64 t.base.toUInt64 ++ gefsPackbp t.bp

def gefsUnpacktree (v : Bytes) : Option GefsTree :=
  let m := memOf v
  if v.length < gefsTreesz then none
  else some
    { nref := (unpack32 m 0).toInt32
      nlbl := (unpack32 m 4).toInt32
      ht := (unpack32 m 8).toInt32
      flag := unpack32 m 12
      gen := (unpack64 m 16).toInt64
      pred := (unpack64 m 24).toInt64
      succ := (unpack64 m 32).toInt64
      base := (unpack64 m 40).toInt64
      bp := gefsUnpackbp m 48 }

/-- A label's value: its snapshot id and flags. -/
def packlblval (id : Int64) (flags : UInt32) : Bytes :=
  gefsKsnap :: pack64 id.toUInt64 ++ pack32 flags

/-! The superblock. -/

def magic : Bytes := [0x67, 0x65, 0x66, 0x73, 0x39, 0x2e, 0x30, 0x30]

/-- The superblock's bytes up to its hash. -/
def sbPrefix (sb : GefsSuper) : Bytes :=
  magic ++ pack32 sb.blksz.toUInt32 ++ pack32 sb.bufspc.toUInt32 ++ pack32 sb.narena.toUInt32
    ++ pack32 sb.snap.ht.toUInt32 ++ pack64 sb.snap.bp.addr.toUInt64 ++ pack64 sb.snap.bp.hash
    ++ pack64 (-1) ++ pack64 (-1) ++ pack64 (-1) ++ pack64 (-1)
    ++ pack64 sb.flag ++ pack64 sb.nextqid ++ pack64 sb.nextgen ++ pack64 sb.qgen
    ++ (sb.arenabp.take sb.narena.toInt.toNat).flatMap fun bp =>
      pack64 bp.addr.toUInt64 ++ pack64 bp.hash

/-- `pack_sb_block`; `packsb` of the formatter packs the same bytes. -/
def packSbBlock (sb : GefsSuper) : Mem :=
  let p := sbPrefix sb
  store (store (fun _ => 0) 0 p) p.length (pack64 (gefsBufhash (store (fun _ => 0) 0 p) 0 p.length))

/-- The arena table of `n` entries at `o`. -/
def unpackArenabp (m : Mem) : ℕ → ℕ → List GefsBptr
  | _, 0 => []
  | o, n + 1 => ⟨(unpack64 m o).toInt64, unpack64 m (o + 8), -1⟩ :: unpackArenabp m (o + 16) n

/-- A block that does not pass for a superblock is none, whatever the error. -/
def gefsUnpacksb (m : Mem) : Option GefsSuper :=
  let narena := (unpack32 m 16).toInt32
  if load m 0 8 ≠ magic then none
  else if narena ≤ 0 ∨ 512 < narena then none
  else
    let e := 104 + 16 * narena.toInt.toNat
    if unpack64 m e ≠ gefsBufhash m 0 e then none
    else some
      { blksz := (unpack32 m 8).toInt32
        bufspc := (unpack32 m 12).toInt32
        narena := narena
        snap :=
          { zeroTree with
            ht := (unpack32 m 20).toInt32
            bp := ⟨(unpack64 m 24).toInt64, unpack64 m 32, -1⟩ }
        flag := unpack64 m 72
        nextqid := unpack64 m 80
        nextgen := unpack64 m 88
        qgen := unpack64 m 96
        arenabp := unpackArenabp m 104 narena.toInt.toNat }

/-! Key comparison. -/

/-- The sign of `memcmp` over the first `n` bytes. -/
def memcmp : Bytes → Bytes → ℕ → ℤ
  | a :: as, b :: bs, n + 1 => if a < b then -1 else if b < a then 1 else memcmp as bs n
  | _, _, _ => 0

def gefsKeycmp (a b : Bytes) : ℤ :=
  let c := memcmp a b (min a.length b.length)
  if c ≠ 0 then (if c < 0 then -1 else 1)
  else if a.length < b.length then -1
  else if b.length < a.length then 1
  else 0

end GefsFuse
