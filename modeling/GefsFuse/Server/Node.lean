import GefsFuse.Lib.Slots
import GefsFuse.Server.Lookup
import GefsFuse.Upsert

/-!
# The blocks of a tree that is written

`blk.c` and `tree.c` of the original server, as far as a tree is written with them. A block in
memory is its pointer, its type, and its values and messages in the order of their slots, and its
fields `nval`, `valsz`, `nbuf` and `bufsz` are counted off these lists.

`newblk` and `getblk` raise an error where the environment says so, and so does `killblk`, which
needs a block of its own now and then. An operation that raises one has done what it did before.
-/

namespace GefsFuse.Server.Btree

open ByteMem Slots

def kdat : UInt8 := 0
def pptrsz : ℕ := gefsPtrsz + 2
def kpmax : ℕ := gefsKeymax + gefsPtrsz
def msgmax : ℕ := 1 + max gefsKvmax kpmax

structure Node where
  bp : GefsBptr
  pivot : Bool
  vals : List GefsKvp
  msgs : List GefsMsg
  deriving DecidableEq, Repr

def msgsz (m : GefsMsg) : ℕ := 2 + 1 + 2 + m.k.length + 2 + m.v.length

def valsz (kv : GefsKvp) : ℕ := 2 + 2 + kv.1.length + 2 + kv.2.length

namespace Node

def nval (b : Node) : ℕ := b.vals.length

def nbuf (b : Node) : ℕ := b.msgs.length

def valsz (b : Node) : ℕ := (b.vals.map fun kv => 2 + kv.1.length + 2 + kv.2.length).sum

def bufsz (b : Node) : ℕ := (b.msgs.map fun m => msgsz m - 2).sum

def spc (b : Node) : ℕ := if b.pivot then gefsPivspc else gefsLeafspc

end Node

def blkfill (b : Node) : ℕ :=
  if b.pivot then 2 * b.nbuf + b.bufsz + 2 * b.nval + b.valsz else 2 * b.nval + b.valsz

def buffill (b : Node) : ℕ := 2 * b.nbuf + b.bufsz

def filledbuf (b : Node) (nmsg needed : ℕ) : Bool := gefsBufspc < 2 * (b.nbuf + nmsg) + b.bufsz + needed

def filledleaf (b : Node) (needed : ℕ) : Bool := gefsLeafspc < 2 * (b.nval + 1) + b.valsz + needed

def filledpiv (b : Node) (reserve : ℕ) : Bool :=
  gefsPivspc < 2 * (b.nval + 1) + b.valsz + reserve * kpmax

def opByte : MsgOp → UInt8
  | .onop => 0
  | .oinsert => 1
  | .odelete => 2
  | .oclearb => 3
  | .oclobber => 4
  | .owstat => 5
  | .orelink => 6
  | .oreprev => 7
  | .other b => b

/-- The bytes of a message in a buffer. -/
def packmsg (m : GefsMsg) : Bytes :=
  opByte m.op :: (pack16 m.k.length ++ m.k ++ pack16 m.v.length ++ m.v)

/-- The block as the searches read it: the values packed from the end of their room down, and so
the messages from the end of theirs. -/
def Node.content (b : Node) : Content :=
  let data := if b.pivot then gefsPivhdsz else gefsLeafhdsz
  { type := if b.pivot then gefsTpivot else gefsTleaf
    nval := b.nval, valsz := b.valsz, nbuf := b.nbuf, bufsz := b.bufsz, logsz := 0, data := data
    buf := packSlots (data + gefsPivspc) gefsBufspc (b.msgs.map packmsg)
      (packSlots data b.spc (b.vals.map packkv) fun _ => 0) }

/-- A mounted tree; `snap` says that it is the one of the snapshots. -/
structure Tree extends GefsTree where
  memgen : Int64
  snap : Bool
  deriving DecidableEq, Repr

/-- The blocks written so far, the addresses in use, the tree, and what was handed to `freeblk` and
`freebp`, the last first. `calls` counts the questions to the environment. -/
structure St where
  blks : Int64 → Option Node
  live : Int64 → Bool
  tree : Tree
  freed : List GefsBptr
  calls : ℕ

/-- The block a pointer leads to. -/
def St.get (s : St) (bp : GefsBptr) : Option Content := (s.blks bp.addr).map Node.content

/-- What lies outside: the address each allocation gives, where `ans` is none an error, and the
hashes of the blocks written. -/
structure Env where
  ans : ℕ → Option Int64
  hash : Node → UInt64

/-- How an operation ends early: with an error raised, with more written than a block holds, at
`fatal`, another assertion or a use of freed memory, or not within the passes allowed. -/
inductive Fail
  | raised | capacity | stopped | endless
  deriving DecidableEq, Repr

abbrev Op := ExceptT Fail (StateM St)

def must {α : Type} : Option α → Op α
  | some a => pure a
  | none => throw .stopped

/-- `waserror`: where `x` raises an error, `h` runs and the error goes on. -/
def onError {α : Type} (x : Op α) (h : Op Unit) : Op α :=
  tryCatch x fun e => do
    if e = .raised then h
    throw e

section Blocks

variable (E : Env)

/-- The next answer of the environment. -/
def ask : Op Int64 := do
  let s ← get
  set { s with calls := s.calls + 1 }
  match E.ans s.calls with
  | some a => pure a
  | none => throw .raised

def newblk (pivot : Bool) : Op Node := do
  let a ← ask E
  let s ← get
  if s.live a then throw .stopped
  set { s with live := fun x => x = a || s.live x }
  pure ⟨⟨a, -1, s.tree.memgen⟩, pivot, [], []⟩

def getblk (bp : GefsBptr) : Op Node := do
  let _ ← ask E
  let b ← must ((← get).blks bp.addr)
  pure { b with bp := bp }

/-- The block finalized, in the cache and on its way to the disk. -/
def enqueue (b : Node) : Op Node := do
  let b := { b with bp := { b.bp with hash := E.hash b } }
  modify fun s => { s with blks := fun a => if a = b.bp.addr then some b else s.blks a }
  pure b

/-- What a deadlist takes in is not kept. -/
def killblk (bp : GefsBptr) : Op Unit := do
  let t := (← get).tree
  if t.snap ∨ t.base < bp.gen then
    let _ ← ask E

/-- `freeblk`, and `freebp`, which does the same for a pointer. -/
def freebp (bp : GefsBptr) : Op Unit := do
  modify fun s => { s with freed := bp :: s.freed }
  let t := (← get).tree
  if t.snap ∨ bp.gen < t.memgen then killblk E bp

def freeblk (b : Node) : Op Unit := freebp E b.bp

end Blocks

def getval (b : Node) (i : ℕ) : Op GefsKvp := must b.vals[i]?

def setval (b : Node) (kv : GefsKvp) : Op Node := do
  let sz := b.valsz + (2 + kv.1.length + 2 + kv.2.length)
  if 2 * (b.nval + 1) + sz ≤ b.spc then pure { b with vals := b.vals ++ [kv] }
  else throw .capacity

def setptr (b : Node) (k : Bytes) (bp : GefsBptr) (fill : ℕ) : Op Node :=
  setval b (k, gefsPackbp bp ++ pack16 fill)

/-- The source does not check that there is room. -/
def setmsg (b : Node) (m : GefsMsg) : Op Node := do
  if ¬ b.pivot then throw .stopped
  if 2 * (b.nbuf + 1) + b.bufsz + (msgsz m - 2) ≤ gefsBufspc then
    pure { b with msgs := b.msgs ++ [m] }
  else throw .capacity

/-- A copy under a new address. -/
def dupblk (E : Env) (b : Node) : Op Node := do
  let r ← newblk E b.pivot
  pure { r with vals := b.vals, msgs := b.msgs }

end GefsFuse.Server.Btree
