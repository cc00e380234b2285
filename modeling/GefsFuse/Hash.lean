import GefsFuse.Lib.Mem

/-!
# MetroHash64

The block hash of `gefs_storage.c`: 32 bytes at a time over four lanes, then tails of 16, 8, 4, 2
and 1 bytes. Reads are little-endian.
-/

namespace GefsFuse

open ByteMem

/-- `ROTATE(x, b)`. -/
def rotate (x b : UInt64) : UInt64 :=
  (x <<< b) ||| (x >>> (64 - b))

/-- The `n` bytes from `o` on, least significant first. -/
def readLe (m : Mem) (o : ℕ) : ℕ → UInt64
  | 0 => 0
  | n + 1 => readLe m o n ||| ((m (o + n)).toUInt64 <<< UInt64.ofNat (8 * n))

def metroK0 : UInt64 := 0xC83A91E1
def metroK1 : UInt64 := 0x8648DBDB
def metroK2 : UInt64 := 0x7BDEC03B
def metroK3 : UInt64 := 0x2F5870A5

/-- The lanes `v[0..3]`. -/
structure Lanes where
  v0 : UInt64
  v1 : UInt64
  v2 : UInt64
  v3 : UInt64

/-- One turn of the bulk loop, over the 32 bytes at `p`. -/
def metroTurn (m : Mem) (p : ℕ) (v : Lanes) : Lanes :=
  let v0 := rotate (v.v0 + readLe m p 8 * metroK0) 29 + v.v2
  let v1 := rotate (v.v1 + readLe m (p + 8) 8 * metroK1) 29 + v.v3
  let v2 := rotate (v.v2 + readLe m (p + 16) 8 * metroK2) 29 + v0
  let v3 := rotate (v.v3 + readLe m (p + 24) 8 * metroK3) 29 + v1
  ⟨v0, v1, v2, v3⟩

/-- `n` turns of the bulk loop. -/
def metroBulk (m : Mem) (n : ℕ) (v : Lanes) : Lanes :=
  (List.range n).foldl (fun v i => metroTurn m (32 * i) v) v

/-- The lanes folded into the hash after the bulk loop. -/
def metroFold (hash : UInt64) (v : Lanes) : UInt64 :=
  let v2 := v.v2 ^^^ rotate ((v.v0 + v.v3) * metroK0 + v.v1) 37 * metroK1
  let v3 := v.v3 ^^^ rotate ((v.v1 + v2) * metroK1 + v.v0) 37 * metroK0
  let v0 := v.v0 ^^^ rotate ((v.v0 + v2) * metroK0 + v3) 37 * metroK1
  let v1 := v.v1 ^^^ rotate ((v.v1 + v3) * metroK1 + v2) 37 * metroK0
  hash + (v0 ^^^ v1)

/-- The tail of 16 bytes at `p`. -/
def metroTail16 (m : Mem) (p : ℕ) (hash : UInt64) : UInt64 :=
  let v0 := rotate (hash + readLe m p 8 * metroK2) 29 * metroK3
  let v1 := rotate (hash + readLe m (p + 8) 8 * metroK2) 29 * metroK3
  let v0 := v0 ^^^ rotate (v0 * metroK2) 37 * metroK3
  hash + (v0 ^^^ v1)

/-- The tail of `w` bytes at `p`. -/
def metroTail (m : Mem) (p w : ℕ) (r hash : UInt64) : UInt64 :=
  let hash := hash + readLe m p w * metroK3
  hash ^^^ rotate hash r * metroK1

def metrohash64 (m : Mem) (len : ℕ) (seed : UInt32) : UInt64 :=
  let h0 := (seed.toUInt64 + metroK2) * metroK0 + UInt64.ofNat len
  let h := if 32 ≤ len then metroFold h0 (metroBulk m (len / 32) ⟨h0, h0, h0, h0⟩) else h0
  let p := len / 32 * 32
  let h := if 16 ≤ len - p then metroTail16 m p h else h
  let p := if 16 ≤ len - p then p + 16 else p
  let h := if 8 ≤ len - p then metroTail m p 8 55 h else h
  let p := if 8 ≤ len - p then p + 8 else p
  let h := if 4 ≤ len - p then metroTail m p 4 26 h else h
  let p := if 4 ≤ len - p then p + 4 else p
  let h := if 2 ≤ len - p then metroTail m p 2 48 h else h
  let p := if 2 ≤ len - p then p + 2 else p
  let h := if 1 ≤ len - p then metroTail m p 1 37 h else h
  let h := (h ^^^ rotate h 28) * metroK0
  h ^^^ rotate h 29

/-- The hash of the `len` bytes of `m` from `o` on. -/
def gefsBufhash (m : Mem) (o len : ℕ) : UInt64 :=
  metrohash64 (fun i => m (o + i)) len 0x6765

end GefsFuse
