import GefsFuse.Server.Blk
import GefsFuse.Server.FreeTree
import GefsFuse.Server.Node
import GefsFuse.Server.Sweep

/-!
# The checker of the original server

`check.c`. A check counts what it finds wrong and goes on, so that all it says in the end is whether
the count is 0. What it prints is left out.

Nothing changes while it runs: `get`, `raw` and `logp` are what `getblk` reads of a block of a tree,
of a data block and of the link of a log, none being the error raised where the disk cannot be read.
A lookup or a scan that does not get through is `stopped`. Where it met such an error, the check of
its tree has met it before or will, or has counted something that kept it from going there.
-/

namespace GefsFuse.Server.Check

open ByteMem Ranges
open Btree (Fail)

def kdlist : UInt8 := 5

/-- An arena and its free ranges in the order of their tree. -/
structure Arena extends NewArena where
  free : List Rng

/-- A loaded file system. `past` is what lies behind the table of arenas. -/
structure Fs where
  arenas : List Arena
  past : Option Arena
  sb0 : Int64
  sb1 : Int64
  snap : GefsTree
  snapdl : GefsBptr
  get : GefsBptr → Option Content
  raw : GefsBptr → Bool
  logp : GefsBptr → Option GefsBptr

/-- What is counted where `p` holds. -/
def tally (p : Prop) [Decidable p] : ℕ := if p then 1 else 0

/-- Ends with `e` where there is nothing. -/
def orEnd {α : Type} (e : Fail) : Option α → Except Fail α
  | some a => .ok a
  | none => .error e

/-- `waserror`: goes on with `x` where `r` raises an error. -/
def movingOn {α : Type} (x : α) : Except Fail α → Except Fail α
  | .error .raised => .ok x
  | r => r

/-! ## Blocks -/

/-- Where the `i`-th value starts. -/
def valAt (b : Content) (i : ℕ) : ℕ :=
  let o := b.data + unpack16 b.buf (b.data + 2 * i)
  o + 2 + unpack16 b.buf o + 2

/-- The pointer in the `i`-th value and the fill behind it, which is not in a value of `Ptrsz`
bytes. -/
def getptr (b : Content) (i : ℕ) : Option (GefsBptr × ℕ) :=
  let v := (gefsGetval b i).2
  if v.length = gefsPtrsz ∨ v.length = gefsPtrsz + 2 then
    (valBptr v).map fun bp => (bp, unpack16 b.buf (valAt b i + gefsPtrsz))
  else none

def blkfill (b : Content) : Option ℤ :=
  if b.type = gefsTpivot then some ((2 * b.nbuf + b.bufsz + 2 * b.nval + b.valsz) % 65536)
  else if b.type = gefsTleaf then some ((2 * b.nval + b.valsz) % 65536)
  else none

/-- The operation of a message is none, or a wstat of unknown fields. -/
def badop (m : GefsMsg) : Bool :=
  match m.op with
  | .owstat => 128 ≤ (m.v ++ m.past).headD 0
  | .onop | .other _ => true
  | _ => false

/-- Beyond a bound from the right. -/
def beyond (hi : Option Bytes) (k : Bytes) : Bool := hi.any fun h => 0 ≤ gefsKeycmp k h

namespace Fs

variable (s : Fs) (fuel : ℕ)

/-! ## Trees -/

/-- `getarena`, with the arena found. -/
def getarena (bp : Int64) : Option (Option ℕ) :=
  Server.getarena (s.arenas.map (·.toNewArena)) (s.past.map (·.toNewArena)) s.sb0 s.sb1 bp fuel

def isfree (bp : Int64) : Except Fail Bool := do
  let k ← orEnd .endless (s.getarena fuel bp)
  let k ← orEnd .stopped k
  let a ← orEnd .stopped (s.arenas[k]?.or s.past)
  match FreeTree.avllookup a.free ⟨bp.toInt, 16384⟩ (-1) with
  | none => pure false
  | some n => pure (bp.toInt < n.r.off + n.r.len)

section Block

variable (chk : Content → Option Bytes → Option Bytes → Except Fail ℕ)

/-- The child of a pivot under the entry before the `i`-th. -/
def checkchild (b : Content) (i : ℕ) : Except Fail ℕ :=
  if b.type ≠ gefsTpivot then .ok 0
  else do
    let (bp, fill) ← orEnd .stopped (getptr b (i - 1))
    let free ← s.isfree fuel bp.addr
    let c ← orEnd .raised (s.get bp)
    let f ← orEnd .stopped (blkfill c)
    let sub ← chk c (some (gefsGetval b (i - 1)).1) (some (gefsGetval b i).1)
    pure (tally (free = true) + tally (f ≠ fill) + tally (sub ≠ 0))

/-- `n` entries from the `i`-th on, each with the one before it and the child between them. -/
def checkvals (b : Content) (hi : Option Bytes) : ℕ → ℕ → Except Fail ℕ
  | 0, _ => pure 0
  | n + 1, i => do
    let x := (gefsGetval b (i - 1)).1
    let y := (gefsGetval b i).1
    let f ← s.checkchild fuel chk b i
    let l ← checkvals b hi n (i + 1)
    pure (tally (beyond hi y = true) + f + tally (0 ≤ gefsKeycmp x y) + l)

/-- `n` messages from the `i`-th on, each with the one before it. The key `y` that is held against the
bound is that of the last entry. -/
def checkmsgs (b : Content) (hi : Option Bytes) (y : Bytes) : ℕ → ℕ → ℕ
  | 0, _ => 0
  | n + 1, i =>
    let mx := gefsGetmsg b (i - 1)
    let my := gefsGetmsg b i
    tally (badop my = true) + tally (hi.any (0 < gefsKeycmp y ·) = true)
      + if gefsKeycmp mx.k my.k = 1 then 1 else checkmsgs b hi y n (i + 1)

/-- The last child of a pivot, which is not given the bound of its block, and the messages. -/
def checklast (b : Content) (hi : Option Bytes) : Except Fail ℕ :=
  if b.type ≠ gefsTpivot then .ok 0
  else do
    let last := b.nval.toNat - 1
    let y := (gefsGetval b last).1
    let (bp, _) ← orEnd .stopped (getptr b last)
    let c ← orEnd .raised (s.get bp)
    let sub ← chk c (some y) none
    pure (tally (sub ≠ 0) + tally (0 < b.nbuf ∧ beyond hi (gefsGetmsg b 0).k = true)
      + checkmsgs b hi y (b.nbuf.toNat - 1) 1)

end Block

/-- A block with `n` levels from it on: `h` is `n - 1`. -/
def checktree : ℕ → Content → Option Bytes → Option Bytes → Except Fail ℕ
  | 0, _, _, _ => pure 1
  | n + 1, b, lo, hi =>
    if b.nval ≤ 0 then .error .stopped
    else do
      let bal := if b.type = gefsTleaf ∧ n ≠ 0 then 1 + tally (b.nval < 2) else 0
      let low := tally (lo.any (0 < gefsKeycmp · (gefsGetval b 0).1) = true)
      let vals ← s.checkvals fuel (checktree n) b hi (b.nval.toNat - 1) 1
      let piv ← s.checklast (checktree n) b hi
      pure (bal + low + vals + piv)

/-! ## Logs -/

/-- A chain of blocks to its end, or to one that cannot be read. -/
def checklog : ℕ → GefsBptr → Except Fail Unit
  | 0, _ => .error .endless
  | n + 1, bp =>
    if bp.addr = -1 then pure ()
    else match s.logp bp with
    | none => pure ()
    | some nb => checklog n nb

def checkranges : List Rng → ℕ
  | r :: n :: rs => tally (n.off ≤ r.off) + tally (n.off ≤ r.off + r.len) + checkranges (n :: rs)
  | _ => 0

/-- `checkfree` from an arena on. -/
def checkfree : List Arena → Except Fail ℕ
  | [] => pure 0
  | a :: as => do
    s.checklog fuel ⟨a.loghd, -1, -1⟩
    let f ← checkfree as
    pure (checkranges a.free + f)

/-! ## Scans -/

/-- A loop over the pairs of a scan; it ends where `f` says so. -/
def scanLoop {β : Type} (pfx : Bytes) (f : β → GefsKvp → Except Fail (β × Bool)) :
    ℕ → List Scanp → β → Except Fail β
  | 0, _, _ => .error .endless
  | n + 1, path, x => do
    match ← orEnd .stopped (Cursor.turn s.get (fun m => m.op = .oinsert) scanApply pfx path) with
    | none => pure x
    | some (r, path) =>
      if r.1 then do
        let (x, done) ← f x r.2
        if done then pure x else scanLoop pfx f n path x
      else scanLoop pfx f n path x

/-- A scan of a tree from its start. -/
def scanTree {β : Type} (t : GefsTree) (pfx : Bytes) (f : β → GefsKvp → Except Fail (β × Bool))
    (x : β) : Except Fail β := do
  let path ← orEnd .stopped (Cursor.enter s.get t pfx true)
  s.scanLoop pfx f fuel path x

/-- The head of a deadlist. -/
def kv2dlist (kv : GefsKvp) : Option GefsBptr :=
  if kv.1.length < 17 ∨ kv.2.length < 48 then none else valBptr kv.2

def checkdlist : Except Fail Unit := do
  s.checklog fuel s.snapdl
  s.scanTree fuel s.snap [kdlist] (fun _ kv => do
    let hd ← orEnd .stopped (kv2dlist kv)
    s.checklog fuel hd
    pure ((), false)) ()

/-- The pairs it scans are those of labels. -/
def checkdata (t : GefsTree) : Except Fail Unit :=
  s.scanTree fuel t [gefsKlabel] (fun _ kv => do
    let bp ← orEnd .stopped (valBptr kv.2)
    let free ← s.isfree fuel bp.addr
    if free ∨ !s.raw bp then .error .raised else pure ((), false)) ()

/-! ## Labels -/

/-- The tree of a label; none where there is no such label. -/
def opensnap (label : CStr) : Except Fail (Option GefsTree) :=
  if gefsKvmax < label.bytes.length + 1 then .error .stopped
  else do
    match ← orEnd .stopped (btlookup s.get s.snap (gefsKlabel :: label.bytes) gefsKvmax) with
    | none => pure none
    | some kv =>
      if kv.2.length ≠ 13 then .error .stopped
      else do
        let gen := unpack64 (memOf kv.2) 1
        let r ← orEnd .stopped (btlookup s.get s.snap (gefsKsnap :: pack64 gen) gefsKvmax)
        let kv ← orEnd .stopped r
        let t ← orEnd .stopped (gefsUnpacktree kv.2)
        pure (some t)

/-- The bytes up to the first that is 0. -/
def cstr (bs : Bytes) : CStr :=
  ⟨bs.takeWhile (· ≠ 0), fun b hb => by simpa using List.mem_takeWhile_imp hb⟩

/-- The tree of the label in a pair. Where an error is raised, the loop goes on with what `ok` is. -/
def checklabel (ok : Bool) (kv : GefsKvp) : Except Fail (Bool × Bool) :=
  if gefsKeymax < kv.1.length - 1 then .error .stopped
  else movingOn (ok, false) do
    match ← s.opensnap (cstr (kv.1.drop 1)) with
    | none => pure (false, true)
    | some t =>
      let b ← orEnd .raised (s.get t.bp)
      let f ← s.checktree fuel t.ht.toInt.toNat b none none
      let ok := ok && f = 0
      movingOn (ok, false) do
        s.checkdata fuel t
        pure (ok, false)

/-- Whether nothing was found; an error that is raised outside of the labels is the end of it. -/
def checkfs : Except Fail Bool :=
  movingOn false do
    let f ← s.checkfree fuel s.arenas
    s.checkdlist fuel
    let b ← orEnd .raised (s.get s.snap.bp)
    let g ← s.checktree fuel s.snap.ht.toInt.toNat b none none
    s.scanTree fuel s.snap [gefsKlabel] (s.checklabel fuel) (f = 0 && g = 0)

end Fs

end GefsFuse.Server.Check
