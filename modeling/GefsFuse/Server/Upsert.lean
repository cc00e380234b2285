import GefsFuse.Server.Flush
import Mathlib.Data.List.DropRight

/-!
# Upsert of the original server

`btupsert` of `tree.c`. A batch goes into the buffer of the root where there is room
(`fastupsert`); otherwise a path is flushed, again and again until the whole batch is in. An error
on the way ends in the handler, which frees the path as far as it got.

The handler of a later pass still has the path of the pass before it, freed by then, until it has
one of its own.
-/

namespace GefsFuse.Server.Btree

/-- The `i`-th message goes before those of the first `i` that are greater, the last of them
first. -/
def stablesort (ms : List GefsMsg) : List GefsMsg :=
  ms.foldl (fun l m =>
    let gt := fun x : GefsMsg => decide (0 < gefsKeycmp x.k m.k)
    l.rdropWhile gt ++ m :: l.rtakeWhile gt) []

/-! ## The fast way -/

/-- The first position past the messages that are not above `k`, of those from `lo` to `hi`. -/
def insertPos (ms : List GefsMsg) (k : Bytes) : ℕ → ℤ → ℤ → ℤ → ℤ
  | 0, _, hi, ri => if ri = -1 then hi + 1 else ri
  | fuel + 1, lo, hi, ri =>
    if lo ≤ hi then
      let mid := (hi + lo) / 2
      let c := gefsKeycmp k ((ms[mid.toNat]?).elim [] GefsMsg.k)
      if c = -1 then insertPos ms k fuel lo (mid - 1) ri
      else if c = 0 then insertPos ms k fuel (mid + 1) hi (mid + 1)
      else insertPos ms k fuel (mid + 1) hi ri
    else if ri = -1 then hi + 1 else ri

/-- The message behind the `n` that are in order moved to its place among them. -/
def place (n : ℕ) (l : List GefsMsg) : List GefsMsg :=
  match l[n]? with
  | none => l
  | some m => (l.eraseIdx n).insertIdx (insertPos l m.k n 0 (n - 1) (-1)).toNat m

section Upsert

variable (E : Env)

def getroot : Op (Node × ℕ) := do
  let t := (← get).tree
  let b ← getblk E t.bp
  pure (b, t.ht.toInt.toNat)

def setroot (b : Node) (dh : Int32) : Op Unit :=
  modify fun s => { s with tree := { s.tree with ht := s.tree.ht + dh, bp := b.bp } }

def fastupsert (b : Node) (ms : List GefsMsg) : Op Unit := do
  let r ← dupblk E b
  let r ← setmsgs r ms
  let msgs := (List.range ms.length).foldl (fun l i => place (b.nbuf + i) l) r.msgs
  let r ← enqueue E { r with msgs := msgs }
  setroot r 0
  freeblk E b

/-- The blocks of the path, from the top on. -/
def freepath : List Path → Op Unit
  | [] => pure ()
  | p :: ps => do
    if let some b := p.b then freeblk E b
    if p.m.isSome then freeblk E (← must p.b)
    freepath ps

/-- The messages below each separator in turn, `i` the child they go to; the largest run so far is
kept. -/
def victimLoop : List (Option Bytes) → ℕ → ℕ → List GefsMsg → Path → Path
  | [], _, _, _, p => p
  | k :: ks, i, j, ms, p =>
    let run := ms.takeWhile fun m => k.all fun k => decide (gefsKeycmp m.k k < 0)
    let cursz := (run.map msgsz).sum
    let p := if p.sz < cursz then
        { p with op := .pomod, lo := j, hi := j + run.length, sz := cursz, idx := i, midx := i,
                 npull := 0, pullsz := 0 }
      else p
    victimLoop ks (i + 1) (j + run.length) (ms.drop run.length) p

/-- The child with the most bytes waiting for it. -/
def victim (b : Node) (p : Path) : Path :=
  if b.nval = 0 then { p with b := some b }
  else victimLoop (b.vals.tail.map (some ·.1) ++ [none]) 0 0 b.msgs { p with b := some b }

/-- The path down from `b`, the lowest first, at most `n` more. The top of it is as wide as the
batch. -/
def descent (nmsg : ℕ) : ℕ → Node → List Path → Op (List Path)
  | 0, _, _ => throw .stopped
  | n + 1, b, path => do
    if b.pivot ∧ filledbuf b nmsg ((path.head?.map Path.sz).getD 0) then
      let p := victim b zeroPath
      let kv ← getval b p.idx.toNat
      let bp ← must (valBptr kv.2)
      let c ← onError (getblk E bp) (freepath E path.reverse)
      descent nmsg n c (p :: path)
    else pure ({ zeroPath with b := some b, idx := -1, midx := -1, lo := -1, hi := -1 } :: path)

/-- How the height changes. -/
def heightChange : List Path → Option Int32
  | p0 :: p1 :: ps =>
    if p0.nl.isSome then some 1
    else if p1.nl.isSome then some 0
    else match ps with
      | p2 :: _ => if p2.nl.isSome then some (-1) else none
      | [] => none
  | _ => none

/-- What follows a `getroot` that did not end in `fastupsert`. How many messages were pulled. -/
def slowupsert (b : Node) (height sz npull : ℕ) (ms : List GefsMsg) : Op ℕ := do
  -- `calloc`
  let _ ← ask E
  let p0 := { zeroPath with ins := some ms, idx := -1, midx := -1, lo := npull, hi := ms.length,
                            sz := sz }
  let path ← descent E ms.length (height + 1) b [p0]
  let (path', rp) ← onError (flush E path) (freepath E path.reverse)
  let rp ← must rp
  let dh ← must (heightChange path')
  let rb ← must rp.nl
  if rb.bp.addr = 0 then throw .stopped
  setroot rb dh
  onError (freepath E path') (freepath E path')
  pure (npull + rp.npull)

/-- From `Again` on; `first` in the first pass, where the handler has no path to free. -/
def upsertLoop (sz : ℕ) (ms : List GefsMsg) : ℕ → Bool → ℕ → Op Unit
  | 0, _, _ => throw .endless
  | fuel + 1, first, npull => do
    let handler : Op Unit := if first then pure () else throw .stopped
    let (b, height) ← onError (getroot E) handler
    if npull = 0 ∧ b.pivot ∧ ¬ filledbuf b ms.length sz then
      onError (fastupsert E b ms) handler
    else
      let npull ← slowupsert E b height sz npull ms
      if npull ≠ ms.length then upsertLoop sz ms fuel false npull

/-- `fuel` bounds the passes. -/
def btupsert (fuel : ℕ) (ms : List GefsMsg) : Op Unit :=
  let ms := stablesort ms
  upsertLoop E (ms.map msgsz).sum ms fuel true 0

end Upsert

end GefsFuse.Server.Btree
