import GefsFuse.Upsert

/-!
# The checker

`check_btree_node` of `fsck.gefs`: a walk over one tree that logs what it finds wrong. `Seen n` is
what the walk saw with `n` levels to go, a block and the walks below it; the source does not return
it, and no result of the walk depends on it.

An entry before the block's first, which a pivot with a negative count has, is not defined.
-/

namespace GefsFuse

open ByteMem

/-- What the checker logs; `emptyBlock` is a warning, the others are errors. -/
inductive CheckMsg
  | depthExceeded (addr : Int64)
  | unbalancedLeaf (addr : Int64) (height : ℕ)
  | emptyBlock (addr : Int64)
  | lowKey (addr : Int64)
  | duplicateKey (addr : Int64) (i : ℕ)
  | misorderedKeys (addr : Int64) (i : ℕ)
  | noChild (addr piv : Int64)
  | noLastChild (addr piv : Int64)
  | noRoot (addr : Int64)
  | misorderedBuffer (addr : Int64) (i : ℕ)
  deriving DecidableEq, Repr

def CheckMsg.isError : CheckMsg → Bool
  | emptyBlock _ => false
  | _ => true

/-- A block seen, and what was seen below it. -/
def Seen : ℕ → Type
  | 0 => GefsBlk
  | n + 1 => GefsBlk × List (Seen n)

/-- A check of a block between two bounds. -/
abbrev Checker (α : Type) :=
  GefsBlk → Option GefsKvp → Option GefsKvp → GefsCtx → Option (α × List CheckMsg × GefsCtx)

section Children

variable {α : Type} (chk : Checker α)

/-- The child under the entry `x`, checked between `x` and `hi`. -/
def checkChild (x : GefsKvp) (hi : Option GefsKvp) (miss : Int64 → CheckMsg) (ctx : GefsCtx) :
    Option (List α × List CheckMsg × GefsCtx) := do
  let bp ← valBptr x.2
  match gefsGetblk ctx bp with
  | (none, ctx) => some ([], [miss bp.addr], ctx)
  | (some c, ctx) => do
    let (s, log, ctx) ← chk c (some x) hi ctx
    some ([s], log, gefsDropblk ctx c)

/-- The child between two neighbouring entries of `b`, if it is a pivot. -/
def checkBetween (b : GefsBlk) (x y : GefsKvp) (ctx : GefsCtx) :
    Option (List α × List CheckMsg × GefsCtx) :=
  if b.type = gefsTpivot then checkChild chk x (some y) (.noChild · b.bp.addr) ctx
  else some ([], [], ctx)

/-- The order of two neighbours, the second at `i`. -/
def checkOrder (addr : Int64) (i : ℕ) (x y : GefsKvp) : List CheckMsg :=
  let r := gefsKeycmp x.1 y.1
  if r = 0 then [.duplicateKey addr i] else if 0 < r then [.misorderedKeys addr i] else []

/-- `n` entries from the `i`-th on, each against the one before, whose child is checked. -/
def checkVals (b : GefsBlk) : ℕ → ℕ → GefsCtx → Option (List α × List CheckMsg × GefsCtx)
  | 0, _, ctx => some ([], [], ctx)
  | n + 1, i, ctx => do
    let x := gefsGetval b.toContent (i - 1)
    let y := gefsGetval b.toContent i
    let (s, log, ctx) ← checkBetween chk b x y ctx
    let (ss, log', ctx) ← checkVals b n (i + 1) ctx
    some (s ++ ss, checkOrder b.bp.addr i x y ++ log ++ log', ctx)

end Children

/-- The order of the messages from the `i`-th on. -/
def checkMsgs (b : GefsBlk) : ℕ → ℕ → List CheckMsg
  | 0, _ => []
  | n + 1, i =>
    (if 0 < gefsKeycmp (gefsGetmsg b.toContent (i - 1)).k (gefsGetmsg b.toContent i).k then
      [.misorderedBuffer b.bp.addr i] else []) ++ checkMsgs b n (i + 1)

/-- The first key against the lower bound. -/
def checkLow (addr : Int64) (lo : Option GefsKvp) (x : GefsKvp) : List CheckMsg :=
  match lo with
  | some l => if 0 < gefsKeycmp l.1 x.1 then [.lowKey addr] else []
  | none => []

/-- A node with `n` levels from it on: `height` is `n - 1`. -/
def checkBtreeNode : (n : ℕ) → Checker (Seen n)
  | 0, b, _, _, ctx => some (b, [.depthExceeded b.bp.addr], ctx)
  | n + 1, b, lo, hi, ctx =>
    let bal := if b.type = gefsTleaf ∧ n ≠ 0 then [.unbalancedLeaf b.bp.addr n] else []
    if b.nval = 0 then some ((b, []), bal ++ [.emptyBlock b.bp.addr], ctx)
    else do
      let low := checkLow b.bp.addr lo (gefsGetval b.toContent 0)
      let (ss, log, ctx) ← checkVals (checkBtreeNode n) b (b.nval - 1).toNat 1 ctx
      if b.type = gefsTpivot then
        if b.nval < 0 then none
        else do
          let y := gefsGetval b.toContent (b.nval - 1).toNat
          let (s, log', ctx) ←
            checkChild (checkBtreeNode n) y hi (.noLastChild · b.bp.addr) ctx
          some ((b, ss ++ s), bal ++ low ++ log ++ log' ++ checkMsgs b (b.nbuf - 1).toNat 1, ctx)
      else some ((b, ss), bal ++ low ++ log, ctx)

/-- A whole tree; none of it where its root cannot be read. -/
def checkSnapshotTree (ctx : GefsCtx) (t : GefsTree) :
    Option (Option (Seen t.ht.toInt.toNat) × List CheckMsg × GefsCtx) :=
  match gefsGetblk ctx t.bp with
  | (none, ctx) => some (none, [.noRoot t.bp.addr], ctx)
  | (some root, ctx) => do
    let (s, log, ctx) ← checkBtreeNode t.ht.toInt.toNat root none none ctx
    some (some s, log, gefsDropblk ctx root)

end GefsFuse
