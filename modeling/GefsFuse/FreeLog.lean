import GefsFuse.Mount
import GefsFuse.Lib.Ranges

/-!
# The log of free space

What the loops of `load_arena` read: the blocks of a chain (`chainBlks`), the words of a block
(`Content.reads`) and the entries in them (`Content.ops`), and what the entries say is free
(`LogOp.after`). An entry of a block is taken from where the loop reads it, the block's data.
-/

namespace GefsFuse

open ByteMem Ranges

/-! ## Entries -/

/-- A range freed, or one allocated. -/
structure LogOp where
  free : Bool
  rng : GefsRange
  deriving DecidableEq, Repr

/-- The entry at `i`, unless its operation is none of the four. -/
def logOp (m : Mem) (i : ℕ) : Option LogOp :=
  let ent := unpack64 m i
  let op := ent &&& 0xff
  let off := (ent &&& ~~~0xff).toInt64
  let len := if logStep ent = 16 then (unpack64 m (i + 8)).toInt64 else 16384
  if op = 0 ∨ op = 2 then some ⟨true, off, len⟩
  else if op = 1 ∨ op = 3 then some ⟨false, off, len⟩
  else none

/-- At most `n` entries from `i` on. -/
def logOps (m : Mem) (logsz : ℕ) : ℕ → ℕ → List LogOp
  | 0, _ => []
  | n + 1, i =>
    if i < logsz then (logOp m i).toList ++ logOps m logsz n (i + logStep (unpack64 m i)) else []

/-- Where the words start that are read for these entries. -/
def logReads (m : Mem) (logsz : ℕ) : ℕ → ℕ → List ℕ
  | 0, _ => []
  | n + 1, i =>
    if i < logsz then
      i :: (if logStep (unpack64 m i) = 16 then [i + 8] else [])
        ++ logReads m logsz n (i + logStep (unpack64 m i))
    else []

/-- Where these entries end. -/
def logEnd (m : Mem) (logsz : ℕ) : ℕ → ℕ → ℕ
  | 0, i => i
  | n + 1, i => if i < logsz then logEnd m logsz n (i + logStep (unpack64 m i)) else i

namespace Content

variable (b : Content)

def logData : Mem := fun i => b.buf (b.data + i)

/-- The log size stored in a block. -/
def logLen : ℕ := unpack16 b.buf 2

/-- The pointer to the next log block. -/
def logNext : GefsBptr := gefsUnpackbp b.buf 12

def ops : List LogOp := logOps b.logData b.logLen b.logLen 0

def reads : List ℕ := logReads b.logData b.logLen b.logLen 0

/-- Where the last entry ends that begins below the log size. -/
def entriesEnd : ℕ := logEnd b.logData b.logLen b.logLen 0

/-- The words read lie in the 16384 bytes of the block. -/
def ReadInside : Prop := ∀ o ∈ b.reads, b.data + o + 8 ≤ gefsBlksz

end Content

/-! ## Chains -/

/-- The blocks the loop over a chain reads. -/
def chainBlks : ℕ → GefsCtx → GefsBptr → Option (List Content × GefsCtx)
  | 0, _, _ => none
  | fuel + 1, ctx, bp =>
    if bp.addr = -1 then some ([], ctx)
    else match gefsGetblk ctx bp with
      | (none, ctx) => some ([], ctx)
      | (some b, ctx) =>
        (chainBlks fuel (gefsDropblk ctx b) b.logNext).map fun (bs, ctx) => (b.toContent :: bs, ctx)

/-- The log blocks read for an arena. -/
def arenaBlks (fuel : ℕ) (ctx : GefsCtx) (h0 : GefsBptr) : Option (List Content × GefsCtx) :=
  match gefsGetblk ctx h0 with
  | (none, ctx) => some ([], ctx)
  | (some b, ctx) => chainBlks fuel (gefsDropblk ctx b) (gefsUnpackbp b.buf (b.data + 32))

/-- The log blocks read for all arenas. -/
def arenasBlks (fuel : ℕ) : List GefsBptr → GefsCtx → Option (List Content × GefsCtx)
  | [], ctx => some ([], ctx)
  | bp :: bps, ctx => do
    let (bs, ctx) ← arenaBlks fuel ctx bp
    let (bs', ctx) ← arenasBlks fuel bps ctx
    some (bs ++ bs', ctx)

/-- Where a log block points to; nowhere for a block that cannot be read. -/
def Disk.logNext (d : Disk) (x : Int64) : Int64 :=
  match d.pread x with
  | some m => (gefsUnpackbp m 12).addr
  | none => -1

/-- The `k`-th block of the chain from `x` on. -/
def Disk.logChain (d : Disk) : ℕ → Int64 → Option Int64
  | 0, x => if (d.pread x).isSome then some x else none
  | k + 1, x => if (d.pread x).isSome then d.logChain k (d.logNext x) else none

/-- The first log block of the arena whose header is at `x`. -/
def Disk.logHead (d : Disk) (x : Int64) : Option Int64 :=
  (d.pread x).map fun m => (gefsUnpackbp m ((parseBlk m).data + 32)).addr

/-- No block comes twice in the chain from `x` on, and the entries of each end in it. -/
structure Disk.ChainOk (d : Disk) (x : Int64) : Prop where
  acyclic : ∀ i j y, i < j → d.logChain i x = some y → d.logChain j x ≠ some y
  fits : ∀ i y m, d.logChain i x = some y → d.pread y = some m →
    (parseBlk m).data + (parseBlk m).entriesEnd ≤ gefsBlksz

/-- The arenas of the image are loaded after some number of log blocks, and nothing is read past the
end of one. -/
structure LoadsInside (d : Disk) (readonly : Bool) (heap : ℕ → Mem) (sb : GefsSuper) : Prop where
  ends : ∃ fuel, (loadArenas fuel sb.arenabp (freshCtx d readonly heap sb)).isSome
  inside : ∀ fuel bs ctx', arenasBlks fuel sb.arenabp (freshCtx d readonly heap sb)
    = some (bs, ctx') → ∀ b ∈ bs, b.ReadInside

/-! ## What the entries say -/

/-- The addresses of a range. -/
def GefsRange.rng (r : GefsRange) : Rng := ⟨r.off.toInt, r.len.toInt⟩

namespace LogOp

/-- What is free after an entry. -/
def after (s : Set ℤ) (op : LogOp) : Set ℤ :=
  if op.free then s ∪ op.rng.rng.bytes else s \ op.rng.rng.bytes

/-- An entry that may follow where `s` is free: a range of blocks with addresses for its ends, freed
where nothing of it is free or allocated where all of it is. -/
structure Legal (s : Set ℤ) (op : LogOp) : Prop where
  pos : 0 < op.rng.len.toInt
  off : op.rng.off.toInt % 16384 = 0
  len : op.rng.len.toInt % 16384 = 0
  stop : op.rng.rng.stop < 2 ^ 63
  ok : if op.free then Disjoint op.rng.rng.bytes s else op.rng.rng.bytes ⊆ s

/-- A range allocated lies in one of the ranges listed. -/
def Found (fl : List GefsRange) (op : LogOp) : Prop :=
  op.free ∨ ∃ r ∈ fl, r.rng.off ≤ op.rng.rng.off ∧ op.rng.rng.stop ≤ r.rng.stop

instance (fl : List GefsRange) (op : LogOp) : Decidable (op.Found fl) := by
  unfold Found
  infer_instance

/-- What the loop makes of the list. -/
def replay (fl : List GefsRange) (op : LogOp) : List GefsRange :=
  if op.free then op.rng :: fl else allocRange op.rng.off op.rng.len fl

end LogOp

/-- Each entry may follow the ones before it. -/
def LegalLog : Set ℤ → List LogOp → Prop
  | _, [] => True
  | s, op :: ops => op.Legal s ∧ LegalLog (op.after s) ops

/-- Each range allocated lies in one of the ranges listed when its entry is replayed. -/
def FoundLog : List GefsRange → List LogOp → Prop
  | _, [] => True
  | fl, op :: ops => op.Found fl ∧ FoundLog (op.replay fl) ops

instance decidableFoundLog : ∀ (fl : List GefsRange) (ops : List LogOp), Decidable (FoundLog fl ops)
  | _, [] => .isTrue trivial
  | fl, op :: ops =>
    have := decidableFoundLog (op.replay fl) ops
    inferInstanceAs (Decidable (_ ∧ _))

end GefsFuse
