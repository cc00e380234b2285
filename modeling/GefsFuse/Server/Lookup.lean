import GefsFuse.Tree

/-!
# The lookup of the original server

`btlookup` of `tree.c`. The searches of a block, `keycmp`, `cpkvp`, `unpackbp`, `unpacktree`,
`packtree` and `packdval` are line for line those of the port and are not repeated. What a message
does is not: the flags of a wstat are one byte, every wstat bumps the version, and the two messages
that rechain snapshots change the tree record under their key.

`get` reads a block. A computation that the source stops with `fatal`, `broke`, an assertion or an
error is none.
-/

namespace GefsFuse.Server

open ByteMem

/-- The entry, where the key ends with its name and the value with its last field. -/
def kv2dir (kv : GefsKvp) : Option GefsXdir := do
  let s ← gefsUnpackstr (kv.1.drop 9)
  if kv.1.length < 9 ∨ s.2 ≠ [] ∨ kv.2.length ≠ xdirsz then none else gefsKv2dir kv

/-- The optional fields of a wstat message, in the order of their flag bits. -/
def statFields (op : UInt8) (m : Mem) (d : GefsXdir) : GefsXdir :=
  let o := 1
  let d := if op &&& 1 ≠ 0 then { d with length := unpack64 m o } else d
  let o := if op &&& 1 ≠ 0 then o + 8 else o
  let d := if op &&& 2 ≠ 0 then
      { d with mode := unpack32 m o, qid := { d.qid with type := (unpack32 m o >>> 24).toUInt8 } }
    else d
  let o := if op &&& 2 ≠ 0 then o + 4 else o
  let d := if op &&& 4 ≠ 0 then { d with mtime := (unpack64 m o).toInt64 } else d
  let o := if op &&& 4 ≠ 0 then o + 8 else o
  let d := if op &&& 8 ≠ 0 then { d with atime := (unpack64 m o).toInt64 } else d
  let o := if op &&& 8 ≠ 0 then o + 8 else o
  let d := if op &&& 16 ≠ 0 then { d with uid := (unpack32 m o).toInt32 } else d
  let o := if op &&& 16 ≠ 0 then o + 4 else o
  let d := if op &&& 32 ≠ 0 then { d with gid := (unpack32 m o).toInt32 } else d
  let o := if op &&& 32 ≠ 0 then o + 4 else o
  if op &&& 64 ≠ 0 then { d with muid := (unpack32 m o).toInt32 } else d

/-- The length a wstat message with the flags `op` has. -/
def statSize (op : UInt8) : ℕ :=
  1 + (if op &&& 1 ≠ 0 then 8 else 0) + (if op &&& 2 ≠ 0 then 4 else 0)
    + (if op &&& 4 ≠ 0 then 8 else 0) + (if op &&& 8 ≠ 0 then 8 else 0)
    + (if op &&& 16 ≠ 0 then 4 else 0) + (if op &&& 32 ≠ 0 then 4 else 0)
    + (if op &&& 64 ≠ 0 then 4 else 0)

/-- The entry repacked over its own value, its version bumped. -/
def statupdate (kv : GefsKvp) (m : GefsMsg) : Option GefsKvp := do
  let op ← m.v.head?
  let d ← kv2dir kv
  let d := { d with qid := { d.qid with vers := d.qid.vers + 1 } }
  if m.v.length ≠ statSize op then none
  else do
    let v ← gefsPackdval kv.2.length (statFields op (memOf m.v) d)
    some (kv.1, v ++ kv.2.drop v.length)

/-- The tree record with a new successor or predecessor and other counts, repacked. The counts in
the message are signed bytes. -/
def relink (kv : GefsKvp) (m : GefsMsg) : Option GefsKvp := do
  let t ← gefsUnpacktree kv.2
  let p := memOf m.v
  let link := (unpack64 p 0).toInt64
  let t := if m.op = .orelink then { t with succ := link } else { t with pred := link }
  let t := { t with
    nlbl := t.nlbl + (p 8).toInt8.toInt32
    nref := t.nref + (p 9).toInt8.toInt32 }
  if t.nlbl < 0 ∨ t.nref < 0 ∨ m.v.length ≠ 10 then none
  else some (kv.1, packtree t ++ kv.2.drop gefsTreesz)

/-- What a message does to the pair found so far, and whether a pair is left. -/
def apply (kv : Option GefsKvp) (m : GefsMsg) (nbuf : ℕ) : Option (Bool × Option GefsKvp) :=
  match m.op with
  | .odelete => do
    let r ← kv
    if gefsKeycmp r.1 m.k = 0 then some (false, some r) else none
  | .oclearb | .oclobber => some (false, kv)
  | .oinsert => (gefsCpkvp (m.k, m.v) nbuf).map fun r => (true, some r)
  | .owstat => do
    let r ← kv
    if gefsKeycmp r.1 m.k = 0 then (statupdate r m).map fun r => (true, some r) else none
  | .orelink | .oreprev => do
    let r ← kv
    (relink r m).map fun r => (true, some r)
  | _ => none

/-- The messages on `k` from the `j`-th on. -/
def applyRun (b : Content) (k : Bytes) (nbuf : ℕ) :
    ℕ → ℕ → Bool × Option GefsKvp → Option (Bool × Option GefsKvp)
  | 0, _, r => some r
  | n + 1, j, r =>
    if (j : ℤ) < b.nbuf ∧ gefsKeycmp k (gefsGetmsg b j).k = 0 then do
      let r ← apply r.2 (gefsGetmsg b j) nbuf
      applyRun b k nbuf n (j + 1) r
    else some r

/-- The first message of a pivot on the key: one that finds nothing may only insert or clear. -/
def applyFirst (r : Bool × Option GefsKvp) (m : GefsMsg) (nbuf : ℕ) :
    Option (Bool × Option GefsKvp) :=
  if r.1 ∨ m.op = .oinsert then apply r.2 m nbuf
  else if m.op = .oclearb ∨ m.op = .oclobber then some r
  else none

/-- A pivot's messages on `k`. -/
def applyPivot (b : Content) (k : Bytes) (nbuf : ℕ) (r : Bool × Option GefsKvp) :
    Option (Bool × Option GefsKvp) :=
  match bufsearch b k with
  | (j, true, some m) => do
    let r ← applyFirst r m nbuf
    applyRun b k nbuf (b.nbuf - j).toNat (j.toNat + 1) r
  | _ => some r

section Blocks

variable (get : GefsBptr → Option Content)

/-- The blocks below `b` on the way to `k`, the deepest first, whether the way ended at the
bottom, and the last pair a search passed. -/
def descend (k : Bytes) :
    ℕ → Content → List Content → Option GefsKvp → Option (List Content × Bool × Option GefsKvp)
  | 0, _, p, r => some (p, true, r)
  | n + 1, b, p, r =>
    match blksearch b k with
    | (_, _, none) => some (p, false, r)
    | (_, _, some kv) => do
      let bp ← valBptr kv.2
      let c ← get bp
      descend k n c (c :: p) (some kv)

/-- The search of the leaf, if the way got there. -/
def leafSearch (p : List Content) (bottom : Bool) (k : Bytes) (r : Option GefsKvp) :
    Bool × Option GefsKvp :=
  match bottom, p with
  | true, b :: _ =>
    let s := blksearch b k
    (s.2.1, s.2.2.orElse fun _ => r)
  | _, _ => (false, r)

/-- The pair under `k`, copied into a buffer of `nbuf` bytes. -/
def btlookup (t : GefsTree) (k : Bytes) (nbuf : ℕ) : Option (Option GefsKvp) := do
  let b ← get t.bp
  if t.ht ≤ 0 then none
  else do
    let (p, bottom, r) ← descend get k (t.ht.toInt.toNat - 1) b [b] none
    let s := leafSearch p bottom k r
    let s ← if s.1 then (s.2.bind (gefsCpkvp · nbuf)).map fun r => (true, some r) else some s
    let piv := if bottom then p.drop 1 else p
    let s ← piv.foldlM (fun s c => applyPivot c k nbuf s) s
    if s.1 then s.2.map some else some none

end Blocks

end GefsFuse.Server
