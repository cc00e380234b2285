import GefsFuse.Hash

/-!
# The hash of the original server

`metrohash64_1` of `hash.c`, with the constants and the reads of the port's hash: it rotates to the
right, by other amounts, and treats a tail of 16 bytes in another way.
-/

namespace GefsFuse.Server

open ByteMem

/-- `rotate_right(v, k)`. -/
def rotateRight (v k : UInt64) : UInt64 :=
  (v >>> k) ||| (v <<< (64 - k))

/-- One turn of the bulk loop, over the 32 bytes at `p`. -/
def metroTurn (m : Mem) (p : ℕ) (v : Lanes) : Lanes :=
  let v0 := rotateRight (v.v0 + readLe m p 8 * metroK0) 29 + v.v2
  let v1 := rotateRight (v.v1 + readLe m (p + 8) 8 * metroK1) 29 + v.v3
  let v2 := rotateRight (v.v2 + readLe m (p + 16) 8 * metroK2) 29 + v0
  let v3 := rotateRight (v.v3 + readLe m (p + 24) 8 * metroK3) 29 + v1
  ⟨v0, v1, v2, v3⟩

/-- `n` turns of the bulk loop. -/
def metroBulk (m : Mem) (n : ℕ) (v : Lanes) : Lanes :=
  (List.range n).foldl (fun v i => metroTurn m (32 * i) v) v

/-- The lanes folded into the hash after the bulk loop. -/
def metroFold (hash : UInt64) (v : Lanes) : UInt64 :=
  let v2 := v.v2 ^^^ rotateRight ((v.v0 + v.v3) * metroK0 + v.v1) 33 * metroK1
  let v3 := v.v3 ^^^ rotateRight ((v.v1 + v2) * metroK1 + v.v0) 33 * metroK0
  let v0 := v.v0 ^^^ rotateRight ((v.v0 + v2) * metroK0 + v3) 33 * metroK1
  let v1 := v.v1 ^^^ rotateRight ((v.v1 + v3) * metroK1 + v2) 33 * metroK0
  hash + (v0 ^^^ v1)

/-- The tail of 16 bytes at `p`. -/
def metroTail16 (m : Mem) (p : ℕ) (hash : UInt64) : UInt64 :=
  let v0 := rotateRight (hash + readLe m p 8 * metroK0) 33 * metroK1
  let v1 := rotateRight (hash + readLe m (p + 8) 8 * metroK1) 33 * metroK2
  let v0 := v0 ^^^ (rotateRight (v0 * metroK0) 35 + v1)
  let v1 := v1 ^^^ (rotateRight (v1 * metroK3) 35 + v0)
  hash + v1

/-- The tail of `w` bytes at `p`. -/
def metroTail (m : Mem) (p w : ℕ) (r hash : UInt64) : UInt64 :=
  let hash := hash + readLe m p w * metroK3
  hash ^^^ rotateRight hash r * metroK1

/-- The last three lines. -/
def metroFinal (hash : UInt64) : UInt64 :=
  let hash := (hash ^^^ rotateRight hash 33) * metroK0
  hash ^^^ rotateRight hash 33

def metrohash64_1 (m : Mem) (len : ℕ) (seed : UInt32) : UInt64 :=
  let h0 := (seed.toUInt64 + metroK2) * metroK0 + UInt64.ofNat len
  let h := if 32 ≤ len then metroFold h0 (metroBulk m (len / 32) ⟨h0, h0, h0, h0⟩) else h0
  let p := len / 32 * 32
  let h := if 16 ≤ len - p then metroTail16 m p h else h
  let p := if 16 ≤ len - p then p + 16 else p
  let h := if 8 ≤ len - p then metroTail m p 8 33 h else h
  let p := if 8 ≤ len - p then p + 8 else p
  let h := if 4 ≤ len - p then metroTail m p 4 15 h else h
  let p := if 4 ≤ len - p then p + 4 else p
  let h := if 2 ≤ len - p then metroTail m p 2 13 h else h
  let p := if 2 ≤ len - p then p + 2 else p
  let h := if 1 ≤ len - p then metroTail m p 1 25 h else h
  metroFinal h

/-- `bufhash`. -/
def bufhash (m : Mem) (o len : ℕ) : UInt64 :=
  metrohash64_1 (fun i => m (o + i)) len 0x6765

end GefsFuse.Server
