import GefsFuse.Ream

/-!
# The layout of an image

The arithmetic of `mkfs.gefs`, as the machine does it: sizes are `int64_t`, `GEFS_BLKSZ` is
unsigned, so what is done with it is unsigned, and the number of arenas is an `int`. `Laid` says
that what comes out fits in the image.
-/

namespace GefsFuse

/-- `GEFS_BLKSZ`. -/
def ublksz : UInt64 := 16384

/-- Four terabytes. -/
def arenaMax : UInt64 := 4096 * 1024 * 1024 * 1024

/-- A size rounded down to a block, less two blocks. -/
def roundLess2 (sz : Int64) : Int64 := (sz.toUInt64 - sz.toUInt64 % ublksz - 2 * ublksz).toInt64

def mkfsNarena (sz : Int64) : Int32 :=
  let n := ((sz.toUInt64 + arenaMax - 1) / arenaMax).toUInt32.toInt32
  let n := if n < 8 then 8 else n
  if 32 < n then 32 else n

def mkfsAsz (sz : Int64) (narena : Int32) : Int64 := roundLess2 (sz / narena.toInt64)

/-- The address of the `i`-th arena. -/
def mkfsOff (asz : Int64) : ℕ → Int64
  | 0 => ublksz.toInt64
  | i + 1 => ((mkfsOff asz i).toUInt64 + (asz.toUInt64 + 2 * ublksz)).toInt64

def mkfsLogaddr (hdaddr : Int64) : Int64 := (hdaddr.toUInt64 + 2 * ublksz).toInt64

/-- The length of the range a log block frees, from the log block on. -/
def mkfsFree (asz : Int64) : Int64 := (asz.toUInt64 - 2 * ublksz).toInt64

/-- The address of the second superblock. -/
def mkfsLast (sz : Int64) : Int64 := (sz.toUInt64 + ublksz).toInt64

/-- The addresses of the four blocks in the first arena. -/
def mkfsBlks : List Int64 := [3, 4, 5, 6].map fun i : UInt64 => (ublksz + i * ublksz).toInt64

/-- The layout of an image of `size` bytes. -/
structure Layout where
  narena : ℕ
  asz : ℤ
  off : ℕ → ℤ
  log : ℕ → ℤ
  free : ℤ
  last : ℤ
  blks : List ℤ

def mkfsLayout (size : Int64) : Layout :=
  let sz := roundLess2 size
  let n := mkfsNarena sz
  let asz := mkfsAsz sz n
  { narena := n.toInt.toNat
    asz := asz.toInt
    off := fun i => (mkfsOff asz i).toInt
    log := fun i => (mkfsLogaddr (mkfsOff asz i)).toInt
    free := (mkfsFree asz).toInt
    last := (mkfsLast sz).toInt
    blks := mkfsBlks.map (·.toInt) }

/-- The arenas fit between the superblocks of an image of `size` bytes, and what is put in an arena
lies past its headers. -/
structure Laid (size : ℤ) (l : Layout) : Prop where
  narena : 8 ≤ l.narena ∧ l.narena ≤ 32
  asz : 0 < l.asz
  aligned : ∀ i < l.narena, l.off i % 16384 = 0 ∧ (l.off i + l.asz + 2 * 16384) % 16384 = 0
  disjoint : ∀ i j, i < j → j < l.narena → l.off i + l.asz + 2 * 16384 ≤ l.off j
  between : ∀ i < l.narena, 16384 ≤ l.off i ∧ l.off i + l.asz + 2 * 16384 ≤ l.last
  last : l.last + 16384 ≤ size
  log : ∀ i < l.narena,
    l.off i + 2 * 16384 ≤ l.log i ∧ l.log i + 16384 ≤ l.off i + l.asz + 2 * 16384
  free : 0 < l.free ∧ ∀ i < l.narena, l.log i + l.free ≤ l.off i + l.asz + 2 * 16384
  blks : l.blks.length = 4 ∧ l.blks.Nodup ∧ ∀ a ∈ l.blks, a % 16384 = 0
    ∧ a ≠ l.off 0 ∧ a ≠ l.off 0 + 16384 ∧ a ≠ l.log 0
    ∧ l.off 0 ≤ a ∧ a + 16384 ≤ l.off 0 + l.asz + 2 * 16384

end GefsFuse
