import GefsFuse.Lib.Links
import GefsFuse.Lib.Trans

/-!
# The block cache of the original server

The blocks are numbered. Those that nothing holds are kept in a list by when they were used last,
and those that are cached in buckets by their address, here a list for each bucket. `lrulk` makes one
step of every section under it; the counts go up and down one step at a time outside of it. So
`dropblk` is two steps where it takes the count to 0, and `cachepluck` is two steps, the count going
up after the lock was released. A process in between is at a `Pc`.

A process holds or drops only what is held, and names and caches only a block that it holds and that
is not cached. An assertion that fails ends the run.
-/

namespace GefsFuse.Server.Cache

open Links

def ihash (x : UInt64) : UInt32 :=
  let x := (x ^^^ (x >>> 30)) * 0xbf58476d1ce4e5b9
  let x := (x ^^^ (x >>> 27)) * 0x94d049bb133111eb
  let x := x ^^^ (x >>> 31)
  x.toUInt32

/-- What the cache uses of a block. -/
structure Buf where
  addr : Int64
  ref : ℕ
  cached : Bool
  deriving DecidableEq, Repr

/-- The list is `chead`, `ctail`, `cprev` and `cnext`. -/
structure Pool where
  lru : Dll ℕ
  blk : ℕ → Buf
  bcache : ℕ → List ℕ
  cmax : ℕ

def lrudel (L : Dll ℕ) (b : ℕ) : Dll ℕ :=
  let L := { L with head := if L.head = some b then L.next b else L.head }
  let L := { L with tail := if L.tail = some b then L.prev b else L.tail }
  let L := L.setPrev (L.next b) (L.prev b)
  let L := L.setNext (L.prev b) (L.next b)
  (L.setNext (some b) none).setPrev (some b) none

namespace Pool

/-- The bucket of an address. -/
def bkt (s : Pool) (addr : Int64) : ℕ := (ihash addr.toUInt64).toNat % s.cmax

/-- A block with its fields changed. -/
def set (s : Pool) (b : ℕ) (f : Buf → Buf) : Pool :=
  { s with blk := Function.update s.blk b (f (s.blk b)) }

/-- The section of `lrutop`. -/
def lrutop (s : Pool) (b : ℕ) : Pool :=
  if (s.blk b).ref ≠ 0 then s
  else
    let L := lrudel s.lru b
    let L := L.setPrev L.head (some b)
    let L := { L with tail := if L.tail = none then some b else L.tail }
    let L := L.setNext (some b) L.head
    { s with lru := { L with head := some b } }

/-- The section of `lrubot`. -/
def lrubot (s : Pool) (b : ℕ) : Pool :=
  if (s.blk b).ref ≠ 0 then s
  else
    let L := lrudel s.lru b
    let L := L.setNext L.tail (some b)
    let L := { L with head := if L.head = none then some b else L.head }
    let L := L.setPrev (some b) L.tail
    { s with lru := { L with tail := some b } }

/-- The section of `cacheins`. -/
def cacheins (s : Pool) (b : ℕ) : Option Pool :=
  let h := s.bkt (s.blk b).addr
  if (s.blk b).cached ∨ ∃ bb ∈ s.bcache h, b = bb ∨ (s.blk b).addr = (s.blk bb).addr then none
  else some { s.set b ({ · with cached := true }) with
    bcache := Function.update s.bcache h (b :: s.bcache h) }

/-- The block of the address in its bucket. -/
def find (s : Pool) (addr : Int64) : Option ℕ :=
  (s.bcache (s.bkt addr)).find? fun b => (s.blk b).addr = addr

def cachedelLk (s : Pool) (addr : Int64) : Option Pool :=
  if addr = -1 then some s
  else match s.find addr with
  | none => some s
  | some b =>
    if (s.blk b).cached then
      some { s.set b ({ · with cached := false }) with
        bcache := Function.update s.bcache (s.bkt addr) ((s.bcache (s.bkt addr)).erase b) }
    else none

/-- The section of `cacheget`, the block's count going up in it. -/
def cacheget (s : Pool) (addr : Int64) : Option ℕ × Pool :=
  match s.find addr with
  | none => (none, s)
  | some b => (some b, { s.set b (fun x => { x with ref := x.ref + 1 }) with lru := lrudel s.lru b })

/-- The section of `cachepluck`, which waits while the list is empty. -/
def cachepluck (s : Pool) : Option (ℕ × Pool) :=
  match s.lru.tail with
  | none => none
  | some b =>
    if (s.blk b).ref ≠ 0 then none
    else do
      let s ← if (s.blk b).cached then s.cachedelLk (s.blk b).addr else some s
      if (s.blk b).cached then none else some (b, { s with lru := lrudel s.lru b })

/-- All blocks, put in the list one after the other. -/
def init (n : ℕ) : Pool :=
  (List.range n).foldl lrutop
    ⟨⟨none, none, fun _ => none, fun _ => none⟩, fun _ => ⟨-1, 0, false⟩, fun _ => [], n⟩

end Pool

/-- Where a process is: at nothing, between taking a count to 0 and `lrubot` or `lrutop`, or
between the section of `cachepluck` and `holdblk`. -/
inductive Pc
  | idle
  | drop (b : ℕ) (bot : Bool)
  | plucked (b : ℕ)
  deriving DecidableEq, Repr

/-- `out` is kept for the statements: the blocks that `cachepluck` has returned and whose count has
not been 0 since. -/
structure Sys (ι : Type) where
  pool : Pool
  pc : ι → Pc
  out : ℕ → Bool

/-- A step; one that is over at once does not say whose it is. -/
inductive Act (ι : Type)
  | get (addr : Int64)
  | hold (b : ℕ)
  | dec (p : ι) (b : ℕ) (bot : Bool)
  | lru (p : ι)
  | pluck (p : ι)
  | take (p : ι)
  | name (b : ℕ) (addr : Int64)
  | ins (b : ℕ)
  | del (addr : Int64)

namespace Sys

variable {ι : Type} [DecidableEq ι]

def init (ι : Type) (n : ℕ) : Sys ι := ⟨Pool.init n, fun _ => .idle, fun _ => false⟩

/-- `holdblk` of a block that is held. -/
def holdblk (s : Sys ι) (b : ℕ) : Option (Sys ι) :=
  if 0 < (s.pool.blk b).ref then
    some { s with pool := s.pool.set b fun x => { x with ref := x.ref + 1 } }
  else none

/-- `adec` in `dropblk`; `bot` says whether the block was freed. -/
def adec (s : Sys ι) (p : ι) (b : ℕ) (bot : Bool) : Option (Sys ι) :=
  if s.pc p = .idle ∧ 0 < (s.pool.blk b).ref then
    let pool := s.pool.set b fun x => { x with ref := x.ref - 1 }
    if (pool.blk b).ref ≠ 0 then some { s with pool := pool }
    else some ⟨pool, Function.update s.pc p (.drop b bot), Function.update s.out b false⟩
  else none

def step (s : Sys ι) : Act ι → Option (Sys ι)
  | .get addr => some { s with pool := (s.pool.cacheget addr).2 }
  | .hold b => s.holdblk b
  | .dec p b bot => s.adec p b bot
  | .lru p =>
    match s.pc p with
    | .drop b bot => some { s with
        pool := if bot then s.pool.lrubot b else s.pool.lrutop b
        pc := Function.update s.pc p .idle }
    | _ => none
  | .pluck p =>
    if s.pc p = .idle then
      s.pool.cachepluck.map fun r =>
        { s with pool := r.2, pc := Function.update s.pc p (.plucked r.1) }
    else none
  | .take p =>
    match s.pc p with
    | .plucked b => some
        { pool := s.pool.set b fun x => { x with ref := x.ref + 1 }
          pc := Function.update s.pc p .idle
          out := Function.update s.out b true }
    | _ => none
  | .name b addr =>
    if 0 < (s.pool.blk b).ref ∧ (s.pool.blk b).cached = false then
      some { s with pool := s.pool.set b fun x => { x with addr := addr } }
    else none
  | .ins b =>
    if 0 < (s.pool.blk b).ref then (s.pool.cacheins b).map fun pool => { s with pool := pool }
    else none
  | .del addr => (s.pool.cachedelLk addr).map fun pool => { s with pool := pool }

end Sys

end GefsFuse.Server.Cache
