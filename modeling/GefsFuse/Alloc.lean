import GefsFuse.FreeLog
import GefsFuse.Upsert

/-!
# Calls of the allocator

A run of calls of `gefs_alloc_blk` with nothing between them (`allocs`), and what it is measured by:
the addresses that are free in all arenas together.
-/

namespace GefsFuse

open Ranges

/-- A range of whole blocks, each with an address. -/
structure GefsRange.Whole (r : GefsRange) : Prop where
  off : 16384 ∣ r.off.toInt
  len : 16384 ∣ r.len.toInt
  pos : 0 < r.len.toInt
  stop : r.rng.stop ≤ 2 ^ 63

/-- The free ranges of the arenas, in the order the allocator takes them. -/
def freeRanges (as : List GefsArena) : List GefsRange := as.flatMap (·.freeList)

/-- The addresses that are free. -/
def freeSet (rs : List GefsRange) : Set ℤ := {y | ∃ r ∈ rs, y ∈ r.rng.bytes}

/-- Ranges of whole blocks that do not overlap, in one arena or in two. -/
structure FreeOk (rs : List GefsRange) : Prop where
  whole : ∀ r ∈ rs, r.Whole
  disjoint : rs.Pairwise fun r r' => Disjoint r.rng.bytes r'.rng.bytes

/-- The block at `x`. -/
def blockAt (x : Int64) : Rng := ⟨x.toInt, 16384⟩

/-- `n` calls: what they return, and the state after them. -/
def allocs : ℕ → GefsCtx → List Int64 × GefsCtx
  | 0, ctx => ([], ctx)
  | n + 1, ctx =>
    let r := gefsAllocBlk ctx
    let q := allocs n r.2
    (r.1 :: q.1, q.2)

/-- The addresses that `n` calls hand out. -/
def taken (n : ℕ) (ctx : GefsCtx) : List Int64 := (allocs n ctx).1.filter (· ≠ -1)

/-- `x` is free in the arena. -/
def GefsArena.Has (a : GefsArena) (x : Int64) : Prop := ∃ r ∈ a.freeList, x.toInt ∈ r.rng.bytes

instance (a : GefsArena) (x : Int64) : Decidable (a.Has x) :=
  decidable_of_iff (∃ r ∈ a.freeList, r.off.toInt ≤ x.toInt ∧ x.toInt < r.off.toInt + r.len.toInt)
    Iff.rfl

/-- The arena after the addresses `xs` were handed out, by it or by the others. -/
structure GefsArena.Gave (a : GefsArena) (xs : List Int64) (a' : GefsArena) : Prop where
  used : a'.used = a.used + Int64.ofNat (16384 * xs.countP (a.Has ·))
  hdaddr : a'.hdaddr = a.hdaddr
  size : a'.size = a.size
  loghd : a'.loghd = a.loghd

/-- Nothing is handed out: the mount is read only or has no arenas, or every list is empty. -/
def Refuses (ctx : GefsCtx) : Prop :=
  ctx.readonly ∨ ctx.sb.narena ≤ 0 ∨ ∀ a ∈ ctx.arenas, a.freeList = []

/-- What `n` calls do to the free lists and to the arenas. -/
structure Allocated (n : ℕ) (ctx : GefsCtx) : Prop where
  nodup : (taken n ctx).Nodup
  aligned : ∀ x ∈ taken n ctx, 16384 ∣ x.toInt
  initial : ∀ x ∈ taken n ctx, (blockAt x).bytes ⊆ freeSet (freeRanges ctx.arenas)
  fails : ∀ i < n, (allocs n ctx).1[i]? = some (-1) ↔ Refuses (allocs i ctx).2
  shape : FreeOk (freeRanges (allocs n ctx).2.arenas)
  left : freeSet (freeRanges (allocs n ctx).2.arenas)
    = freeSet (freeRanges ctx.arenas) \ {y | ∃ x ∈ taken n ctx, y ∈ (blockAt x).bytes}
  used : List.Forall₂ (·.Gave (taken n ctx) ·) ctx.arenas (allocs n ctx).2.arenas

end GefsFuse
