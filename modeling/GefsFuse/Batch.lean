import GefsFuse.Upsert

/-!
# What a batch should do

A batch as a change of a map: each message in turn replaces, removes or repacks the value under its
key. `MapUpdate` is an update of a tree that comes to this and changes nothing else; `Applied` is
what it leaves to be read, in a leaf that is laid out as one.
-/

namespace GefsFuse

open ByteMem SortedMap

/-- What a message makes of the value under its key. -/
def GefsMsg.apply (m : GefsMsg) (v : Option Bytes) : Option (Option Bytes) :=
  if m.op = .oinsert then some (some m.v)
  else if m.op = .owstat then
    match v with
    | none => some none
    | some v => (statupdate (m.k, v) m).map fun kv => some kv.2
  else some none

/-- The messages in their order. -/
def applyMsgs : List GefsMsg → (Bytes → Option Bytes) → Option (Bytes → Option Bytes)
  | [], f => some f
  | m :: ms, f => do
    let v ← m.apply (f m.k)
    applyMsgs ms (Function.update f m.k v)

/-- Insertions, deletions and wstats, no two with one key but a deletion and then an insertion. -/
structure PortBatch (ms : List GefsMsg) : Prop where
  ne : ms ≠ []
  op : ∀ m ∈ ms, m.op = .oinsert ∨ m.op = .odelete ∨ m.op = .owstat
  keys : ms.Pairwise fun a b => a.k = b.k → a.op = .odelete ∧ b.op = .oinsert

/-- `ctx'` is `ctx` with the tree `t` updated to the map `g`: its root is a leaf in order that holds
`g`, look-ups answer from `g`, the one block written is the new root's, off the old leaf, and a tree
of another generation keeps its root. -/
structure MapUpdate (ctx : GefsCtx) (t : TreeRef) (g : Bytes → Option Bytes) (ctx' : GefsCtx) :
    Prop where
  leaf : ∃ b, (gefsGetblk ctx' (ctx'.tree t).bp).1 = some b ∧ Ascending (blkVals b.toContent)
    ∧ ∀ k, look (blkVals b.toContent) k = g k
  lookup : ∀ k nbuf, (gefsBtlookup ctx' (ctx'.tree t) k nbuf).map Prod.fst
    = match g k with
      | none => some none
      | some v => (gefsCpkvp (k, v) nbuf).map some
  written : ∃ buf, ctx'.disk = ctx.disk.pwrite (ctx'.tree t).bp.addr buf
  old : (ctx.tree t).bp.addr.toInt + gefsBlksz ≤ (ctx'.tree t).bp.addr.toInt
    ∨ (ctx'.tree t).bp.addr.toInt + gefsBlksz ≤ (ctx.tree t).bp.addr.toInt
  snap : t ≠ .snap → ctx'.snapTree = ctx.snapTree
  active : t ≠ .active → ctx.activeTree.gen ≠ (ctx.tree t).gen → ctx'.activeTree = ctx.activeTree

/-- The entries that the root of the tree `t` is read with. -/
def GefsCtx.vals (ctx : GefsCtx) (t : TreeRef) : List GefsKvp :=
  match (gefsGetblk ctx (ctx.tree t).bp).1 with
  | none => []
  | some b => blkVals b.toContent

/-- Where the `i`-th entry of a leaf starts, and where it ends. -/
def slotOff (c : Content) (i : ℕ) : ℕ := unpack16 c.buf (c.data + 2 * i)

def slotEnd (c : Content) (i : ℕ) : ℕ :=
  slotOff c i + (4 + (gefsGetval c i).1.length + (gefsGetval c i).2.length)

/-- The entries of a leaf lie past its offsets and inside it, each in bytes of its own. -/
structure LaidOut (c : Content) : Prop where
  table : ∀ i < (blkVals c).length, 2 * (blkVals c).length ≤ slotOff c i
  space : ∀ i < (blkVals c).length, slotEnd c i ≤ gefsLeafspc
  apart : ∀ i < (blkVals c).length, ∀ j < i,
    slotEnd c i ≤ slotOff c j ∨ slotEnd c j ≤ slotOff c i

/-- The batch `ms` is in the tree `t` of `ctx'`: the root is a leaf in order and laid out as one,
its entries are the batch applied to the ones in `ctx`, and look-ups answer from them. -/
structure Applied (ctx : GefsCtx) (t : TreeRef) (ms : List GefsMsg) (ctx' : GefsCtx) : Prop where
  map : applyMsgs ms (look (ctx.vals t)) = some (look (ctx'.vals t))
  asc : Ascending (ctx'.vals t)
  laid : ∃ b, (gefsGetblk ctx' (ctx'.tree t).bp).1 = some b ∧ LaidOut b.toContent
  lookup : ∀ k nbuf, (gefsBtlookup ctx' (ctx'.tree t) k nbuf).map Prod.fst
    = match look (ctx'.vals t) k with
      | none => some none
      | some v => (gefsCpkvp (k, v) nbuf).map some

end GefsFuse
