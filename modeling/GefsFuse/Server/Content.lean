import GefsFuse.Server.Dent

/-!
# The content of a file

`readb` and `writeb` of `fs.c` on one file, and the operations that go through them: Twrite, a
Twstat of the length, a Topen that truncates, and Tread. A truncation's `AOclear` runs to its end
within its operation. The content a client expects is a list of bytes (`FileOp.model`).

The blocks `newdblk` gives come with a write; none has the address of a block the file still has.
-/

namespace GefsFuse.Server

open ByteMem

/-- A file. `tree` is its Kdat entries, `blk` the blocks by their addresses, `length` the length of
the open entry in memory and `size` that of the entry in the tree. -/
structure FileSt where
  qpath : UInt64
  tree : Entries
  blk : Int64 → Mem
  length : UInt64
  size : UInt64
  append : Bool
  lmut : Bool
  trunc : Bool

/-- A block written at an offset of the file. -/
structure Put where
  bp : GefsBptr
  off : UInt64
  mem : Mem

/-- Its message. -/
def Put.msg (q : UInt64) (p : Put) : GefsMsg :=
  ⟨.oinsert, packdatkey q p.off, gefsPackbp p.bp, []⟩

/-- What an operation on a file replies. -/
inductive FileReply
  | rerror (e : Err)
  | rread (bs : Bytes)
  | rwrite (n : ℕ)
  | ok
  deriving DecidableEq, Repr

namespace FileSt

/-- The pointer to the block at `fb`; none where the lookup stops. -/
def ptr (s : FileSt) (fb : UInt64) : Option (Option GefsBptr) := do
  match ← s.tree.find (packdatkey s.qpath fb) with
  | none => some none
  | some v => (valBptr v).map some

/-- The addresses of the blocks the entries point to. -/
def addrs (s : FileSt) : List Int64 :=
  s.tree.filterMap fun m => ((s.tree.find m.k).join.bind valBptr).map (·.addr)

/-- What `newdblk` may give. -/
def unused (s : FileSt) (bps : List GefsBptr) : Bool :=
  (bps.map (·.addr)).Nodup ∧ ∀ bp ∈ bps, bp.addr ∉ s.addrs

/-! ## Tread -/

/-- At most `n` bytes at `o`, up to the end of a block. -/
def readb (s : FileSt) (o : UInt64) (n : ℕ) : Option Bytes :=
  if s.length.toInt64 ≤ o.toInt64 then some []
  else do
    let fb := o &&& ~~~(blksz - 1)
    let fo := (o &&& (blksz - 1)).toNat
    let n := min n (16384 - fo)
    match ← s.ptr fb with
    | none => some (List.replicate n 0)
    | some bp => some (load (s.blk bp.addr) fo n)

/-- The loop of `readfile`. A round that does not end it reads a byte at least. -/
def readLoop (s : FileSt) : ℕ → UInt64 → ℕ → Option Bytes
  | 0, _, _ => some []
  | k + 1, o, c =>
    if c = 0 then some []
    else do
      let bs ← s.readb o c
      if bs = [] then some []
      else (s.readLoop k (o + UInt64.ofNat bs.length) (c - bs.length)).map (bs ++ ·)

/-- A count that is negative as the source has it stops the server. -/
def readfile (s : FileSt) (offset : UInt64) (count : UInt32) : Option Bytes :=
  if s.length < offset then some []
  else
    let c := if s.length < offset + count.toUInt64 then (s.length - offset).toNat else count.toNat
    if 2 ^ 63 ≤ c then none else s.readLoop c offset c

/-! ## Twrite -/

/-- What a block is written over: the one the file has at `fb`, unless that lies past the end or all
its bytes are written. -/
def oldBlk (s : FileSt) (fb : UInt64) (fo n : ℕ) (old : Option GefsBptr) : Mem :=
  match old with
  | some bp =>
    if fb.toInt64 < s.length.toInt64 ∧ (fo ≠ 0 ∨ n ≠ 16384) then s.blk bp.addr else fun _ => 0
  | none => fun _ => 0

/-- The block written for the bytes at `o`, as many as fit. -/
def writeb (s : FileSt) (bp : GefsBptr) (o : UInt64) (bs : Bytes) : Option Put := do
  let fb := o &&& ~~~(blksz - 1)
  let fo := (o &&& (blksz - 1)).toNat
  let old ← s.ptr fb
  some ⟨bp, fb, store (s.oldBlk fb fo bs.length old) fo (bs.take (16384 - fo))⟩

/-- The loop of `fswrite`: the blocks written, and where the bytes end. -/
def writeLoop (s : FileSt) : ℕ → UInt64 → Bytes → List GefsBptr → Chk (List Put × UInt64)
  | n, o, bs, bps =>
    if bs = [] then pure ([], o)
    else match n, bps with
      | 0, _ => must none
      | _ + 1, [] => throw .efull
      | n + 1, bp :: bps => do
        let p ← must (s.writeb bp o bs)
        let w := min bs.length (16384 - (o &&& (blksz - 1)).toNat)
        let (ps, e) ← s.writeLoop n (o + UInt64.ofNat w) (bs.drop w) bps
        pure (p :: ps, e)

/-- The blocks of `ps` on disk. -/
def enqueue (blk : Int64 → Mem) (ps : List Put) : Int64 → Mem :=
  ps.foldl (fun blk p => Function.update blk p.bp.addr p.mem) blk

/-- Where a write starts. -/
def start (s : FileSt) (offset : UInt64) : UInt64 := if s.append then s.length else offset

/-- The blocks of a write that is refused are not kept, since nothing points to them. -/
def fswrite (s : FileSt) (offset : UInt64) (bs : Bytes) (bps : List GefsBptr) :
    Option (FileSt × FileReply) :=
  if s.trunc ∨ !s.unused bps then none
  else do
    match ← (s.writeLoop 4 (s.start offset) bs bps).run with
    | .error e => some (s, .rerror e)
    | .ok (ps, e) =>
      let s' := { s with length := if s.length < e then e else s.length }
      if s.lmut then
        some ({ s' with
          tree := s.tree ++ ps.map (Put.msg s.qpath)
          blk := enqueue s.blk ps
          size := if s.length < e then e else s.size }, .rwrite bs.length)
      else some (s', .rerror .erdonly)

/-! ## The length -/

/-- `AOclear` from `off` to `fin`, and the end of the wait for it. -/
def clear (s : FileSt) (off fin : Int64) : Option FileSt :=
  if MountSt.clearEnds off fin then
    some { s with
      tree := s.tree ++ MountSt.clearMsgs ⟨false, none, s.qpath, off, fin⟩
      trunc := false }
  else none

/-- A Twstat of the length alone, `refused` being what the checks after that of the length refuse it
with. The open entry has its new length before these checks. -/
def fswstat (s : FileSt) (n : Int64) (refused : Option Err) : Option (FileSt × FileReply) :=
  if s.trunc then none
  else if n ≠ -1 ∧ n < 0 then some (s, .rerror .ewstatl)
  else if n = -1 ∨ n.toUInt64 = s.length then
    match refused with
    | some e => some (s, .rerror e)
    | none => some (s, if s.lmut then .ok else .rerror .erdonly)
  else
    let s' := { s with length := n.toUInt64, trunc := n.toUInt64 < s.length }
    match refused with
    | some e => some (s', .rerror e)
    | none =>
      if s.lmut then
        let s' := { s' with size := n.toUInt64 }
        if n.toUInt64 < s.length then
          (s'.clear n s.length.toInt64).map fun s => (s, .ok)
        else some (s', .ok)
      else some (s', .rerror .erdonly)

/-- A Topen that truncates and is not refused by its checks. -/
def fsopen (s : FileSt) : Option (FileSt × FileReply) :=
  if s.trunc then none
  else if s.append then some ({ s with length := s.size }, .ok)
  else if s.lmut then
    (({ s with length := 0, size := 0 }).clear 0 s.size.toInt64).map fun s => (s, .ok)
  else some ({ s with length := 0, trunc := true }, .rerror .erdonly)

end FileSt

/-- The operations on a file. -/
inductive FileOp
  | write (offset : UInt64) (bs : Bytes) (bps : List GefsBptr)
  | wstat (n : Int64) (refused : Option Err)
  | topen
  | read (offset : UInt64) (count : UInt32)

/-- An operation and its reply. -/
def FileSt.serve (s : FileSt) : FileOp → Option (FileSt × FileReply)
  | .write offset bs bps => s.fswrite offset bs bps
  | .wstat n refused => s.fswstat n refused
  | .topen => s.fsopen
  | .read offset count => (s.readfile offset count).map fun bs => (s, .rread bs)

/-! ## The content a client expects -/

/-- `bs` written at `o`, a gap before it filled with zeros. -/
def contentWrite (c : Bytes) (o : ℕ) (bs : Bytes) : Bytes :=
  c.take o ++ List.replicate (o - c.length) 0 ++ bs ++ c.drop (o + bs.length)

/-- Cut to `n` bytes, or grown to them with zeros. -/
def contentTrunc (c : Bytes) (n : ℕ) : Bytes := c.take n ++ List.replicate (n - c.length) 0

/-- At most `n` bytes at `o`. -/
def contentRead (c : Bytes) (o n : ℕ) : Bytes := (c.drop o).take n

/-- What an operation that is not refused makes of the content. -/
def FileOp.model (append : Bool) (c : Bytes) : FileOp → Bytes
  | .write offset bs _ => contentWrite c (if append then c.length else offset.toNat) bs
  | .wstat n _ => if n = -1 then c else contentTrunc c n.toUInt64.toNat
  | .topen => if append then c else []
  | .read _ _ => c

/-- The content after a reply, `new` unless it is a refusal. -/
def FileReply.settle (old new : Bytes) : FileReply → Bytes
  | .rerror _ => old
  | _ => new

/-- An operation on a file and on the content expected of it. -/
def fileStep (x : FileSt × Bytes) (op : FileOp) : Option (FileSt × Bytes) :=
  (x.1.serve op).map fun (s, r) => (s, r.settle x.2 (op.model x.1.append x.2))

namespace FileSt

/-- A file just made. -/
structure Created (s : FileSt) : Prop where
  tree : s.tree = []
  length : s.length = 0
  size : s.size = 0

/-- The length is that of the content, every read returns the bytes the content has there, and no
entry lies at or past the end. -/
structure Agrees (s : FileSt) (c : Bytes) : Prop where
  length : s.length.toNat = c.length
  read : ∀ offset count,
    s.readfile offset count = some (contentRead c offset.toNat count.toNat)
  past : ∀ fb bp, s.ptr fb = some (some bp) → fb.toNat < s.length.toNat

/-- No block of the file lies at or past `n`, and the one `n` lies in is zero from there on. -/
def Clean (s : FileSt) (n : ℕ) : Prop :=
  ∀ j < s.length.toNat / 16384 + 1, ∀ bp ∈ (s.ptr (UInt64.ofNat (j * 16384))).join,
    j * 16384 < n ∧ ∀ i < 16384, n ≤ j * 16384 + i → s.blk bp.addr i = 0

instance (s : FileSt) (n : ℕ) : Decidable (s.Clean n) := by
  unfold Clean
  infer_instance

end FileSt

/-- What keeps file and content the same. A write that gets through ends below `2 ^ 63`, and on a
mount that may not be changed does not grow the file. A Twstat that changes the length gets through,
on a mount that may be changed, and one that shrinks the file does so to whole blocks or leaves
nothing to clear. A truncation gets through unless it has nothing to do. -/
def FileOp.Safe : FileOp → FileSt × Bytes → Prop
  | .write offset bs bps, (s, _) => (s.writeLoop 4 (s.start offset) bs bps).Passes fun _ =>
    (s.start offset).toNat + bs.length < 2 ^ 63
      ∧ (s.lmut ∨ (s.start offset).toNat + bs.length ≤ s.length.toNat)
  | .wstat n refused, (s, _) => n < 0 ∨ n.toUInt64 = s.length ∨ refused = none ∧ s.lmut
    ∧ (s.length < n.toUInt64 ∨ n.toInt % 16384 = 0 ∨ s.Clean n.toUInt64.toNat)
  | .topen, (s, _) => s.append ∨ s.lmut ∨ s.size = 0
  | .read _ _, _ => True

instance (op : FileOp) (x : FileSt × Bytes) : Decidable (op.Safe x) := by
  unfold FileOp.Safe
  split <;> infer_instance

end GefsFuse.Server
