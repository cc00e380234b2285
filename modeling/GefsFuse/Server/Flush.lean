import GefsFuse.Server.Node

/-!
# Flushing a path

`flush` of `tree.c` and what it calls. A path runs from the root down; each of its blocks gets the
messages of the one above that go to it, from the bottom up, rewritten in place or split in two.

A loop over an index into a block is one over the values or messages that are left from it.
-/

namespace GefsFuse.Server.Btree

open ByteMem

inductive PathOp
  | pomod | porot | posplit | pomerge
  deriving DecidableEq, Repr

structure Path where
  ins : Option (List GefsMsg)
  b : Option Node
  idx : ℤ
  lo : ℤ
  hi : ℤ
  sz : ℕ
  op : PathOp
  m : Option Node
  nl : Option Node
  nr : Option Node
  midx : ℤ
  npull : ℕ
  pullsz : ℕ
  deriving DecidableEq, Repr

/-- What `calloc` gives. -/
def zeroPath : Path := ⟨none, none, 0, 0, 0, 0, .pomod, none, none, none, 0, 0, 0⟩

/-- The messages from `lo` up to `hi`. -/
def Path.range (p : Path) : List GefsMsg :=
  ((p.ins.getD ((p.b.map Node.msgs).getD [])).drop p.lo.toNat).take (p.hi - p.lo).toNat

section Copy

variable (n : Node)

/-- The pointer to one of the blocks a child was replaced by, under its least key, and its bytes. -/
def copyup1 : Option Node → Op (Node × ℕ)
  | none => pure (n, 0)
  | some c => do
    let kv ← getval c 0
    let k := match c.msgs with
      | m :: _ => if 0 < gefsKeycmp kv.1 m.k then m.k else kv.1
      | [] => kv.1
    let n ← setptr n k c.bp (blkfill c)
    pure (n, valsz (k, kv.2))

def copyup (pp : Path) : Op (Node × ℕ) := do
  let (n, s1) ← copyup1 n pp.nl
  let (n, s2) ← copyup1 n pp.nr
  pure (n, s1 + s2)

end Copy

/-- The order of the key `k` and the next message, where one is left that fits, and whether none
fits any more. Without a key a message that fits is in order. -/
def pullmsg (k : Option Bytes) (full : Bool) (spc : ℤ) : List GefsMsg → ℤ × Bool
  | [] => (-1, full)
  | m :: _ =>
    if full then (-1, true)
    else if (msgsz m : ℤ) ≤ spc then
      (match k with
        | none => 0
        | some k => gefsKeycmp k m.k, false)
    else (-1, true)

section Merging

variable (E : Env)

def setb (b : Node) : Op (Option Node) :=
  if b.nval = 0 then do
    freeblk E b
    pure none
  else some <$> enqueue E b

/-- The block being filled, the message read last, and how many were pulled. -/
structure Merging where
  n : Node
  m : Option GefsMsg
  full : Bool
  spc : ℤ
  pulled : ℕ
  pullsz : ℕ

/-- The data block `v` points to, if `m` replaces it. -/
def freeold (v : GefsKvp) (m : GefsMsg) : Op Unit :=
  if v.1.head? = some kdat ∧ (m.op = .oclearb ∨ m.op = .oinsert ∨ m.op = .odelete) then do
    let bp ← must (valBptr v.2)
    freebp E bp
  else pure ()

/-- What `m` makes of `v`, and whether anything is left. -/
def applyTo (v : GefsKvp) (m : GefsMsg) : Op (GefsKvp × Bool) := do
  let r ← must (apply (some v) m msgmax)
  pure (r.2.getD v, r.1)

/-- The loop at `Copyloop`, and the value set in the end. -/
def copyloop (v : GefsKvp) (ok : Bool) : List GefsMsg → Merging → Op (List GefsMsg × Merging)
  | [], w => do
    if ok then return ([], { w with n := ← setval w.n v })
    pure ([], w)
  | m :: ms, w => do
    let (c, full) := pullmsg (some v.1) w.full w.spc (m :: ms)
    if c = 0 then
      if ok then freeold E v m
      let (v, ok) ← applyTo v m
      copyloop v ok ms
        { w with m := some m, pulled := w.pulled + 1, pullsz := w.pullsz + msgsz m }
    else
      let w := { w with m := if w.full then w.m else some m, full := full }
      if ok then return (m :: ms, { w with n := ← setval w.n v })
      pure (m :: ms, w)

/-- The value `v` and the messages on it, of which `m` is the first. -/
def mergeval (v : GefsKvp) (m : GefsMsg) (ms : List GefsMsg) (w : Merging) :
    Op (List GefsMsg × Merging) := do
  let v ← must (gefsCpkvp v msgmax)
  freeold E v m
  let (v, ok) ← applyTo v m
  copyloop E v ok ms { w with m := some m, pulled := w.pulled + 1 }

/-- The message `m`, which comes before every value left, and those on its key. -/
def insertval (m : GefsMsg) (ms : List GefsMsg) (w : Merging) : Op (List GefsMsg × Merging) := do
  let v ← must (gefsCpkvp (m.k, m.v) msgmax)
  let w := { w with m := some m, pulled := w.pulled + 1 }
  if m.op = .oclearb ∨ m.op = .oclobber then copyloop E v false ms w
  else
    copyloop E v true ms { w with spc := w.spc - valsz (m.k, m.v), pullsz := w.pullsz + msgsz m }

/-- The values and messages left to merge. The message after the last value is the one read last. -/
def updateleafLoop : ℕ → List GefsKvp → List GefsMsg → Merging → Op Merging
  | _, [], [], w => pure w
  | 0, _, _, _ => throw .endless
  | fuel + 1, [], _ :: ms, w => do
    let m ← must w.m
    let (ms, w) ← insertval E m ms w
    updateleafLoop fuel [] ms w
  | fuel + 1, v :: vs, [], w => do
    updateleafLoop fuel vs [] { w with n := ← setval w.n v }
  | fuel + 1, v :: vs, m :: ms, w => do
    let fits := (msgsz m : ℤ) ≤ w.spc
    let c := if fits then gefsKeycmp v.1 m.k else -1
    let w := { w with m := some m, full := w.full || !fits }
    if c = -1 then
      updateleafLoop fuel vs (m :: ms) { w with n := ← setval w.n v }
    else if c = 0 then
      let (ms, w) ← mergeval E v m ms w
      updateleafLoop fuel vs ms w
    else
      let (ms, w) ← insertval E m ms w
      updateleafLoop fuel (v :: vs) ms w

def updateleaf (up p : Path) : Op Path := do
  let b ← must p.b
  let n ← newblk E b.pivot
  let ms := up.range
  let w ← updateleafLoop E (b.nval + ms.length) b.vals ms
    ⟨n, none, false, gefsLeafspc - blkfill b, 0, p.pullsz⟩
  pure { p with npull := w.pulled, pullsz := w.pullsz, op := .pomod, nl := ← setb E w.n }

/-- The loop of `splitleaf`: `l` is the left block once it is done, and `r` the right one until
then. -/
def splitleafLoop (nval halfsz : ℕ) :
    ℕ → ℕ → List GefsKvp → List GefsMsg → Option Node → Node → ℕ → Merging →
      Op (Option Node × Merging)
  | _, _, [], _, l, _, _, w => pure (l, w)
  | 0, _, _, _, _, _, _, _ => throw .endless
  | fuel + 1, i, v :: vs, ms, l, r, copied, w => do
    let turn := l = none ∧ (i + 2 = nval ∨ (2 ≤ i ∧ halfsz ≤ copied))
    let l' := if turn then some w.n else l
    let w := if turn then { w with n := r, spc := gefsLeafspc - (halfsz + msgmax : ℕ) } else w
    let (c, full) := pullmsg (some v.1) w.full w.spc ms
    match c, ms with
    | 0, m :: ms => do
      let (ms, w) ← mergeval E v m ms w
      splitleafLoop nval halfsz fuel (i + 1) vs ms l' r (copied + valsz v) w
    | 1, m :: ms => do
      let (ms, w) ← insertval E m ms w
      splitleafLoop nval halfsz fuel i (v :: vs) ms l' r (copied + valsz (m.k, m.v)) w
    | _, ms => do
      let w := { w with full := full, n := ← setval w.n v }
      splitleafLoop nval halfsz fuel (i + 1) vs ms l' r (copied + valsz v) w

def splitleaf (up p : Path) : Op Path := do
  let b ← must p.b
  let l ← newblk E b.pivot
  let r ← onError (newblk E b.pivot) (freeblk E l)
  onError (do
    let halfsz := min ((2 * b.nval + b.valsz + up.sz) / 2) (gefsLeafspc / 2)
    if b.nval < 4 then throw .capacity
    let ms := up.range
    let (l', w) ← splitleafLoop E b.nval halfsz (b.nval + ms.length) 0 b.vals ms none r 0
      ⟨l, none, false, gefsLeafspc - (halfsz + msgmax : ℕ), 0, p.pullsz⟩
    let nl ← setb E (l'.getD w.n)
    let nr ← setb E (if l' = none then r else w.n)
    pure { p with npull := w.pulled, pullsz := w.pullsz, op := .posplit, nl := nl, nr := nr })
    (do
      freeblk E l
      freeblk E r)

end Merging

/-! ## Pivots -/

/-- The values of a pivot, the child at `midx` replaced. -/
def updatepivVals (p : Path) (pp : Option Path) : ℕ → List GefsKvp → Node → Op Node
  | _, [], n => pure n
  | i, v :: vs, n => do
    match pp with
    | none => updatepivVals p pp (i + 1) vs (← setval n v)
    | some q =>
      if (i : ℤ) = p.midx then
        let (n, _) ← copyup n q
        if q.op = .porot ∨ q.op = .pomerge then
          match vs with
          | [] => pure n
          | _ :: vs => updatepivVals p pp (i + 2) vs n
        else updatepivVals p pp (i + 1) vs n
      else updatepivVals p pp (i + 1) vs (← setval n v)

/-- The messages of a block without those the child below pulled. -/
def Path.kept (p : Path) (pp : Option Path) (b : Node) : List GefsMsg :=
  match pp with
  | some q =>
    if 0 ≤ p.lo then b.msgs.take p.lo.toNat ++ b.msgs.drop (p.lo.toNat + q.npull) else b.msgs
  | none => b.msgs

structure Pulling where
  n : Node
  full : Bool
  spc : ℤ
  sz : ℕ
  pulled : ℕ
  pullsz : ℕ

/-- The message `u` pulled. -/
def Pulling.pull (w : Pulling) (u : GefsMsg) : Op Pulling := do
  let n ← setmsg w.n u
  pure ⟨n, w.full, w.spc - msgsz u, msgsz u, w.pulled + 1, w.pullsz + msgsz u⟩

/-- The messages on `k`. -/
def pullrun (k : Bytes) : List GefsMsg → Pulling → Op (List GefsMsg × Pulling)
  | [], w => pure ([], w)
  | u :: us, w => do
    let (c, full) := pullmsg (some k) w.full w.spc (u :: us)
    if c = 0 then pullrun k us (← { w with full := full }.pull u)
    else pure (u :: us, { w with full := full })

/-- The messages that are left, as many as fit. -/
def pullrest : List GefsMsg → Pulling → Op Pulling
  | [], w => pure w
  | u :: us, w => do
    let (_, full) := pullmsg none w.full w.spc (u :: us)
    if full then pure { w with full := true }
    else pullrest us (← w.pull u)

/-- The block's own messages merged with those of the block above. -/
def updatepivMsgs : ℕ → List GefsMsg → List GefsMsg → Pulling → Op Pulling
  | _, [], us, w => pullrest us w
  | 0, _, _, _ => throw .endless
  | fuel + 1, m :: ms, us, w => do
    let (c, full) := pullmsg (some m.k) w.full (w.spc - w.sz) us
    match c, us with
    | 1, u :: us => do
      let _ ← must (gefsCpkvp (u.k, u.v) msgmax)
      let (us, w) ← pullrun u.k (u :: us) { w with full := full }
      updatepivMsgs fuel (m :: ms) us w
    | _, us => do
      let n ← setmsg w.n m
      updatepivMsgs fuel ms us { w with n := n, full := full }

def updatepiv (E : Env) (up p : Path) (pp : Option Path) : Op Path := do
  let b ← must p.b
  let n ← newblk E b.pivot
  let n ← updatepivVals p pp 0 b.vals n
  let spc : ℤ := gefsBufspc - buffill b + ((pp.map Path.pullsz).getD 0 : ℕ)
  let ms := up.range
  let w ← updatepivMsgs (b.nbuf + ms.length) (p.kept pp b) ms ⟨n, false, spc, 0, 0, p.pullsz⟩
  pure { p with npull := w.pulled, pullsz := w.pullsz, op := .pomod, nl := ← setb E w.n }

/-- The two halves, which of them is filled, the bytes copied and the key they part at. -/
structure Halves where
  l : Node
  r : Node
  right : Bool
  copied : ℕ
  mid : Bytes

def Halves.put (w : Halves) (f : Node → Op Node) : Op Halves := do
  if w.right then pure { w with r := ← f w.r } else pure { w with l := ← f w.l }

def splitpivVals (p : Path) (pp : Option Path) (nval halfsz : ℕ) :
    ℕ → List GefsKvp → Halves → Op Halves
  | _, [], w => pure w
  | i, v :: vs, w => do
    let turn := w.right = false ∧ (i + 2 = nval ∨ (2 ≤ i ∧ halfsz ≤ w.copied))
    let w := if turn then { w with right := true, mid := v.1 } else w
    if (i : ℤ) = p.idx then
      let pp' ← must pp
      let (n, s) ← copyup (if w.right then w.r else w.l) pp'
      let w ← w.put fun _ => pure n
      splitpivVals p pp nval halfsz (i + 1) vs { w with copied := w.copied + s }
    else
      let w ← w.put fun n => setval n v
      splitpivVals p pp nval halfsz (i + 1) vs { w with copied := w.copied + valsz v }

def splitpivMsgs : List GefsMsg → Halves → Op Halves
  | [], w => pure w
  | m :: ms, w => do
    let w := if w.right = false ∧ 0 ≤ gefsKeycmp m.k w.mid then { w with right := true } else w
    splitpivMsgs ms (← w.put fun n => setmsg n m)

def splitpiv (E : Env) (p : Path) (pp : Option Path) : Op Path := do
  let b ← must p.b
  let l ← newblk E b.pivot
  let r ← onError (newblk E b.pivot) (freeblk E l)
  onError (do
    let halfsz := (2 * b.nval + b.valsz) / 2
    if b.nval < 4 then throw .capacity
    let w ← splitpivVals p pp b.nval halfsz 0 b.vals ⟨l, r, false, 0, []⟩
    let w ← splitpivMsgs (p.kept pp b) { w with right := false }
    let nl ← setb E w.l
    let nr ← setb E w.r
    pure { p with op := .posplit, nl := nl, nr := nr })
    (do
      freeblk E l
      freeblk E r)

/-! ## Siblings -/

section Balance

variable (E : Env)

def setvals (n : Node) (vs : List GefsKvp) : Op Node := vs.foldlM setval n

def setmsgs (n : Node) (ms : List GefsMsg) : Op Node := ms.foldlM setmsg n

def merge (p pp : Path) (idx : ℤ) (a b : Node) : Op (Path × Path) := do
  let d ← newblk E a.pivot
  let d ← setvals d (a.vals ++ b.vals)
  let d ← if a.pivot then setmsgs d (a.msgs ++ b.msgs) else pure d
  let nl ← setb E d
  pure ({ p with midx := idx }, { pp with op := .pomerge, nl := nl })

/-- Whether the messages from `i` on that are below `k` spill, and else the index of the first that
is not. -/
def spillscanLoop (k : Bytes) (nbuf o : ℕ) : ℕ → List GefsMsg → ℕ → Option ℕ
  | _, [], _ => some nbuf
  | i, m :: ms, used =>
    if gefsKeycmp k m.k ≤ 0 then some (i + o)
    else if gefsBufspc < used + msgsz m then none
    else spillscanLoop k nbuf o (i + 1) ms (used + msgsz m)

def spillscan (d b : Node) (k : Bytes) (idx o : ℕ) : Option ℕ :=
  spillscanLoop k b.nbuf o idx (b.msgs.drop idx) (buffill d)

def spillsbuf (d l r : Node) (k : Bytes) (idx : ℕ) : Bool × ℕ :=
  if ¬ l.pivot then (false, idx)
  else match (if idx < l.nbuf then spillscan d l k idx 0 else some idx) with
    | none => (true, idx)
    | some idx =>
      match (if l.nbuf ≤ idx then spillscan d r k idx l.nbuf else some idx) with
      | none => (true, idx)
      | some idx => (false, idx)

/-- The values spread over two blocks, and the message the second one starts with. -/
def rotateVals (a b : Node) (halfpiv : ℕ) :
    List GefsKvp → Halves → ℕ → ℤ → Op (Halves × ℤ)
  | [], w, _, sp => pure (w, sp)
  | v :: vs, w, idx, sp => do
    let (spills, idx) :=
      if w.right ∨ halfpiv ≤ w.copied then (false, idx) else spillsbuf w.l a b v.1 idx
    let turn := w.right = false ∧ (halfpiv ≤ w.copied ∨ spills)
    let w ← { w with right := w.right || turn }.put fun n => setval n v
    rotateVals a b halfpiv vs { w with copied := w.copied + valsz v } idx
      (if turn then (idx : ℤ) else sp)

def rotateMsgs (sp : ℤ) : List GefsMsg → ℕ → Halves → Op Halves
  | [], _, w => pure w
  | m :: ms, o, w => do
    let w' := if (o : ℤ) = sp then { w with right := true } else w
    let o := if (o : ℤ) = sp then 0 else o
    rotateMsgs sp ms (o + 1) (← w'.put fun n => setmsg n m)

def rotate (p pp : Path) (midx : ℤ) (a b : Node) (halfpiv : ℕ) : Op (Path × Path) := do
  let l ← newblk E a.pivot
  let r ← onError (newblk E a.pivot) (freeblk E l)
  onError (do
    let (w, sp) ← rotateVals a b halfpiv (a.vals ++ b.vals) ⟨l, r, false, 0, []⟩ 0 (-1)
    let w ← if a.pivot then rotateMsgs sp (a.msgs ++ b.msgs) 0 { w with right := false } else pure w
    let nl ← setb E w.l
    let nr ← setb E w.r
    pure ({ p with midx := midx }, { pp with op := .porot, nl := nl, nr := nr }))
    (do
      freeblk E l
      freeblk E r)

def rotmerge (p pp : Path) (idx : ℤ) (a b : Node) : Op (Path × Path) := do
  if a.pivot ≠ b.pivot then throw .stopped
  let na := 2 * a.nval + a.valsz
  let nb := 2 * b.nval + b.valsz
  let ma := if a.pivot then buffill a else 0
  let mb := if a.pivot then buffill b else 0
  let imbalance := ((na : ℤ) - nb).natAbs
  if na + nb < gefsPivspc - 4 * msgmax ∧ ma + mb < gefsBufspc then merge E p pp idx a b
  else if 4 * msgmax < imbalance then rotate E p pp idx a b ((na + nb) / 2)
  else pure (p, pp)

/-- A pointer and the fill of the block it points to. -/
def getptr (kv : GefsKvp) : Op (GefsBptr × ℕ) := do
  if kv.2.length ≠ gefsPtrsz ∧ kv.2.length ≠ gefsPtrsz + 2 then throw .stopped
  let bp ← must (valBptr kv.2)
  pure (bp, unpack16 (memOf kv.2) gefsPtrsz)

/-- The block `m` merged with the one at `i` of `b`, or balanced against it, where their sizes allow
it: none where they do not. -/
def balance (p pp : Path) (m b : Node) (i idx : ℤ) (left : Bool) : Op (Option (Path × Path)) := do
  let (bp, fill) ← getptr (← getval b i.toNat)
  if fill + blkfill m < m.spc then
    let s ← getblk E bp
    some <$> if left then rotmerge E p pp idx s m else rotmerge E p pp idx m s
  else pure none

def trybalance (p : Path) (pp : Option Path) (idx : ℤ) : Op (Path × Option Path) := do
  match pp, pp.bind Path.nl with
  | some q, some m => do
    if p.idx = -1 then return (p, pp)
    if q.op ≠ .pomod ∨ q.op ≠ .pomerge then return (p, pp)
    let b ← must p.b
    if 0 ≤ idx - 1 then
      if let some (p', q') ← balance E p q m b (idx - 1) (idx - 1) true then
        return (p', some q')
    if idx + 1 < b.nval then
      if let some (p', q') ← balance E p q m b (idx + 1) idx false then
        return (p', some q')
    pure (p, pp)
  | _, _ => pure (p, pp)

end Balance

/-! ## The whole path -/

/-- The blocks above the bottom of the path and at last the root's, the lowest first: `pp` is the
one rewritten before them. The path from the top on, and the block that becomes the root. -/
def flushUp (E : Env) :
    List Path → Option Path → Option Path → List Path → Op (List Path × Option Path)
  | [], _, _, _ => throw .stopped
  | [p0], pp, rp, done => do
    let q ← must pp
    if q.nl.isSome ∧ q.nr.isSome then
      let n ← newblk E true
      let (n, _) ← copyup n q
      let n ← enqueue E n
      let p0 := { p0 with nl := some n, npull := q.npull, pullsz := q.pullsz }
      pure (p0 :: done, some p0)
    else pure (p0 :: done, rp)
  | p :: up :: rest, pp, rp, done => do
    let b ← must p.b
    if ¬ filledpiv b 1 then
      let (p, pp) ← trybalance E p pp p.idx
      if rest = [] ∧ (∃ q ∈ pp, q.op = .pomerge) ∧ b.nval = 2 then
        pure (up :: p :: (pp.toList ++ done.drop 1), pp)
      else
        let p ← updatepiv E up p pp
        flushUp E (up :: rest) (some p) (some p) (p :: done)
    else
      let p ← splitpiv E p pp
      flushUp E (up :: rest) (some p) rp (p :: done)

/-- `path` from the bottom up. -/
def flush (E : Env) : List Path → Op (List Path × Option Path)
  | p :: up :: rest => do
    let b ← must p.b
    if b.pivot then flushUp E (p :: up :: rest) none none []
    else if ¬ filledleaf b up.sz then
      let p ← updateleaf E up p
      let p := { p with midx := -1 }
      flushUp E (up :: rest) (some p) (some p) [p]
    else
      let p ← splitleaf E up p
      let p := { p with midx := -1 }
      flushUp E (up :: rest) (some p) none [p]
  | _ => throw .stopped

end GefsFuse.Server.Btree
