import GefsFuse.Server.Grow

/-!
# Blocks by their address

`getarena` and `readblk` of `blk.c`: the arena an address lies in, by a binary search in the table
of arenas, and the block stored there, read in as many pieces as it takes.
-/

namespace GefsFuse.Server

open ByteMem

/-! ## The arena of an address -/

section Getarena

/-- The search of `getarena`, `past` being what lies behind the table, if reading it is not a fault.
The index found; none where the search runs into a fault, and none at all where it goes on. -/
def arenaSearch (as : List NewArena) (past : Option NewArena) (b : Int64) :
    ℕ → ℤ → ℤ → Option (Option ℕ)
  | 0, _, _ => none
  | fuel + 1, lo, hi =>
    let mid := (hi + lo).tdiv 2
    match as[mid.toNat]?.or past with
    | none => some none
    | some a =>
      let alo := a.h0
      let ahi := alo + a.size + 2 * 16384
      if b < alo then arenaSearch as past b fuel lo (mid - 1)
      else if ahi < b then arenaSearch as past b fuel (mid + 1) hi
      else some (some mid.toNat)

/-- `sb0` and `sb1` are the addresses of the superblocks. -/
def getarena (as : List NewArena) (past : Option NewArena) (sb0 sb1 b : Int64) (fuel : ℕ) :
    Option (Option ℕ) :=
  if b = sb0 then some (some 0)
  else if b = sb1 then some (some (as.length - 1))
  else arenaSearch as past b fuel 0 as.length

/-- The end of an arena with its headers. -/
def NewArena.last (a : NewArena) : ℤ := a.h0.toInt + a.size.toInt + 2 * 16384

/-- The address lies in the arena. -/
def NewArena.Spans (a : NewArena) (b : Int64) : Prop := a.h0.toInt ≤ b.toInt ∧ b.toInt < a.last

/-- Each arena ends where the next begins. -/
structure Consecutive (as : List NewArena) : Prop where
  size : ∀ a ∈ as, 0 ≤ a.size.toInt
  fits : ∀ a ∈ as, a.last < 2 ^ 63
  next : ∀ i a a', as[i]? = some a → as[i + 1]? = some a' → a'.h0.toInt = a.last

/-- Whatever lies behind the table, an address in an arena gives that arena, and the search ends. -/
def FindsArena (as : List NewArena) (sb0 sb1 b : Int64) : Prop :=
  ∀ past, (∀ k a, as[k]? = some a → a.Spans b →
      ∃ fuel, getarena as past sb0 sb1 b fuel = some (some k))
    ∧ ∃ fuel r, getarena as past sb0 sb1 b fuel = some r

/-- The halving of `[lo, hi]` meets `k - 1` before `k`. -/
def leftFirst (k : ℕ) : ℕ → ℤ → ℤ → Bool
  | 0, _, _ => false
  | fuel + 1, lo, hi =>
    let mid := (hi + lo).tdiv 2
    if mid = k then false
    else if mid + 1 = k then true
    else if mid < k then leftFirst k fuel (mid + 1) hi
    else leftFirst k fuel lo (mid - 1)

end Getarena

/-! ## The read of a block -/

def gbraw : UInt32 := 1
def gbnochk : UInt32 := 4
def gbsoftchk : UInt32 := 8

section Readblk

variable (disk : ℤ → UInt8) (reads : ℕ → ℤ)

/-- The loop of `readblk`. The `i`-th `pread` gives `reads i` bytes where it is asked for as many,
and each puts what it gives at the start of the buffer. None where one fails or gives nothing. -/
def readLoop : ℕ → ℕ → ℤ → ℕ → Mem → Option Mem
  | 0, _, _, rem, buf => if rem = 0 then some buf else none
  | fuel + 1, i, off, rem, buf =>
    if rem = 0 then some buf
    else
      let n := (min (reads i) rem).toNat
      if n = 0 then none
      else readLoop fuel (i + 1) (off + n) (rem - n)
        (store buf 0 ((List.range n).map fun j : ℕ => disk (off + j)))

/-- How `readblk` ends: with an error of the device, at `broke`, with `Ecorrupt`, or with a block
and what is in its buffer. -/
inductive ReadEnd
  | raised | broke | corrupt
  | read (b : Blk) (buf : Mem)

/-- What `readblk` takes for the type of a block. -/
def decodeblk (flg : UInt32) (m : Mem) : Option Blk :=
  if flg &&& gbraw ≠ 0 then some ⟨tdat, 0, 0, ⟨0, 0, 0⟩⟩ else readblk m

/-- The hash a block should have and the one it has. -/
def hashes (bp : GefsBptr) (b : Blk) (m : Mem) : UInt64 × UInt64 :=
  if b.type = tlog ∨ b.type = tdlist then (unpack64 m 4, bufhash m b.data b.logsz)
  else (bp.hash, bufhash m 0 gefsBlksz)

/-- `buf` is what the buffer holds before, and what lies behind it. -/
def readblkFrom (buf : Mem) (bp : GefsBptr) (flg : UInt32) : ReadEnd :=
  match readLoop disk reads gefsBlksz 0 bp.addr.toInt gefsBlksz buf with
  | none => .raised
  | some m =>
    match decodeblk flg m with
    | none => .broke
    | some b =>
      let (xh, ck) := hashes bp b m
      -- `!flg` is taken before `&`
      if (if flg = 0 then 1 else 0) &&& gbnochk ≠ 0 ∧ ck ≠ xh then
        if flg &&& gbsoftchk = 0 then .broke else .corrupt
      else .read b m

/-- The buffer with the block that is stored at the address. -/
def stored (buf : Mem) (addr : Int64) : Mem :=
  fun i => if i < gefsBlksz then disk (addr.toInt + i) else buf i

/-- A read that checks the hash and ends gives the block stored there, with the hash it should
have. -/
def Detects (buf : Mem) (bp : GefsBptr) (flg : UInt32) : Prop :=
  flg &&& gbnochk = 0 → ∀ b m, readblkFrom disk reads buf bp flg = .read b m →
    m = stored disk buf bp.addr ∧ (hashes bp b m).1 = (hashes bp b m).2

/-- The lengths of the pieces a read of `rem` bytes comes in. -/
def pieces : ℕ → ℕ → ℕ → Option (List ℕ)
  | 0, _, rem => if rem = 0 then some [] else none
  | fuel + 1, i, rem =>
    if rem = 0 then some []
    else
      let n := (min (reads i) rem).toNat
      if n = 0 then none else (pieces fuel (i + 1) (rem - n)).map (n :: ·)

/-- Where in the block the byte at `i` comes from: from the last piece that is longer than `i`. -/
def origin (i : ℕ) : ℕ → List ℕ → Option ℕ
  | _, [] => none
  | start, n :: ns => (origin i (start + n) ns).or (if i < n then some (start + i) else none)

/-- What the pieces leave in the buffer. -/
def assembled (buf : Mem) (addr : ℤ) (ns : List ℕ) : Mem :=
  fun i => (origin i 0 ns).elim (buf i) fun o => disk (addr + o)

end Readblk

end GefsFuse.Server
