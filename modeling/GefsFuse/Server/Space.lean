import GefsFuse.Server.FreeLog
import GefsFuse.Server.Grow
import GefsFuse.Lib.Trans

/-!
# An arena over time

What is asked of an arena from the ream on: blocks are handed out by `blkalloc` and put back by
`blkdealloc_lk`, `sync` logs barriers, and the console lets the reserve be used or not. Which
blocks are handed out and which barriers were logged is kept beside it and is no part of the
program. `compresslog` has no caller.
-/

namespace GefsFuse.Server

open Ranges ByteMem

/-- An arena, with the blocks that are handed out and the generations of the barriers logged. -/
structure Space where
  arena : ArenaSt
  given : List ℤ
  gens : List Int64

inductive SpaceOp
  | alloc (seq : Bool)
  | dealloc (x : ℤ)
  | barrier (gen : Int64)
  | usereserve (on : Bool)
  deriving DecidableEq

namespace Space

/-- None is `broke`, an assertion, or what no caller does: a block put back that was not handed
out, a barrier of a generation that is not new. A generation is shifted by eight bits. -/
def step (s : Space) : SpaceOp → Option Space
  | .alloc seq => match s.arena.blkalloc seq with
    | .ok (some x, a) => some { s with arena := a, given := x :: s.given }
    | .ok (none, a) => some { s with arena := a }
    | .error _ => none
  | .dealloc x =>
    if x ∈ s.given then match s.arena.blkdeallocLk x with
      | .ok (true, a) => some { s with arena := a, given := s.given.erase x }
      | .ok (false, a) => some { s with arena := a }
      | .error _ => none
    else none
  | .barrier gen =>
    if 0 ≤ gen ∧ gen < 36028797018963968 ∧ s.gens.all (· < gen) then
      match s.arena.logbarrier gen with
      | .ok (true, a) => some { s with arena := a, gens := gen :: s.gens }
      | .ok (false, a) => some { s with arena := a }
      | .error _ => none
    else none
  | .usereserve on => some { s with arena := { s.arena with usereserve := on } }

/-- `blkalloc` fails with a block taken: the log cannot get the one it needs to go on. -/
def leaks (s : Space) : SpaceOp → Bool
  | .alloc seq => !s.arena.low && match s.arena.blkalloc seq with
    | .ok (none, _) => true
    | _ => false
  | _ => false

/-- The blocks between the headers and the end of the space. The two blocks behind it are never
used. -/
def room (a : ArenaSt) : Rng := ⟨a.lo + 32768, a.size - 32768⟩

/-- Each block of the space is free, one of the log, or handed out, and only one of these. -/
structure Accounted (s : Space) : Prop where
  used : s.arena.used = s.arena.size - total s.arena.free
  aligned : ∀ x ∈ s.given, 16384 ∣ x
  apart : s.given.Pairwise fun x y => Disjoint (blkRng x).bytes (blkRng y).bytes
  log : Disjoint (cover s.arena.free) s.arena.log.span
  given : Disjoint (cover s.arena.free ∪ s.arena.log.span) (cover (s.given.map blkRng))
  all : cover s.arena.free ∪ s.arena.log.span ∪ cover (s.given.map blkRng) = (room s.arena).bytes

/-- The log's blocks are on disk, each as it was in some state from `s` on. -/
def LeftOnDisk (get : Int64 → Option Mem) (s : Space) : Prop :=
  ∀ b ∈ s.arena.log.blks, ∃ s', Trans.Via step (fun op s => s.leaks op = false) s s'
    ∧ ∃ c ∈ s'.arena.log.blks, c.addr = b.addr
      ∧ ∃ m m', get b.addr = some m ∧ ∀ i < gefsBlksz, m i = logBuf m' c i

end Space

/-- A new arena when `loadlog` has read its log: up to the barrier, where the tail is cut. -/
def ArenaSt.reamed (hdaddr asz reserve : ℤ) : ArenaSt where
  lo := hdaddr
  size := asz
  used := 49152
  reserve := reserve
  usereserve := false
  free := [⟨hdaddr + 49152, asz - 49152⟩]
  loghd := Int64.ofInt (hdaddr + 32768)
  log := ⟨[], { mklogblk (Int64.ofInt (hdaddr + 32768)) with
    data := pack64 (vlong (hdaddr + 32768) ||| logFree) ++ pack64 (vlong (asz - 32768))
      ++ pack64 (vlong (hdaddr + 32768) ||| logAlloc) ++ pack64 16384 }⟩

def Space.reamed (hdaddr asz reserve : ℤ) : Space := ⟨.reamed hdaddr asz reserve, [], []⟩

end GefsFuse.Server
