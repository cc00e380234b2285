import GefsFuse.Cursor
import GefsFuse.Server.Lookup

/-!
# The sweep of a deleted tree

`sweeptree` of `fs.c` frees what a deleted snapshot born after `pred` had for itself: the data
blocks that a scan of its data keys returns, then its nodes. The blocks are those that `freebp` is
called with, in order; the limbo list, the locks and the epochs between them are left out.
-/

namespace GefsFuse.Server

open ByteMem

/-- `apply` on the pair of a scan, which is always there. -/
def scanApply (kv : GefsKvp) (m : GefsMsg) : Option (Bool × GefsKvp) := do
  let r ← apply (some kv) m gefsKvmax
  let kv ← r.2
  some (r.1, kv)

variable (get : GefsBptr → Option Content)

/-- A node is freed after its children. -/
def freetree (pred : Int64) : ℕ → GefsBptr → Option (List GefsBptr)
  | 0, _ => none
  | fuel + 1, rb => do
    let b ← get rb
    let l ← if b.type = gefsTpivot then
        (List.range b.nval.toNat).mapM fun i => do
          let bp ← valBptr (gefsGetval b i).2
          freetree pred fuel bp
      else some []
    some (l.flatten ++ if pred < rb.gen then [rb] else [])

/-- The blocks that the sweep of `t` frees; none where an assertion of it fails. -/
def sweeptree (fuel : ℕ) (t : GefsTree) : Option (List GefsBptr) := do
  let path ← Cursor.enter get t [gefsKdat] true
  let kvs ← Cursor.scan get (fun m => m.op = .oinsert) scanApply [gefsKdat] fuel path
  let bps ← kvs.mapM fun kv => valBptr kv.2
  let nodes ← freetree get t.pred fuel t.bp
  some (bps.filter (t.pred < ·.gen) ++ nodes)

/-- A data block that the lookups find. -/
def Mapped (t : GefsTree) (bp : GefsBptr) : Prop :=
  ∃ k v, [gefsKdat] <+: k ∧ btlookup get t k gefsKvmax = some (some (k, v))
    ∧ valBptr v = some bp

end GefsFuse.Server
