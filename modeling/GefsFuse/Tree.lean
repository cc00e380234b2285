import GefsFuse.Cache
import GefsFuse.Lib.Search

/-!
# Lookup and scan

`gefs_btlookup` walks from the root to a leaf by predecessor search and then applies the messages
waiting in the pivots above it, from the bottom up. The cursor of `gefs_btnext` holds one position
in each level of the tree.

A computation that the source leaves undefined, or stops by an assertion, is none.
-/

namespace GefsFuse

open ByteMem BinSearch

/-- The index, whether it matches, and the pair there. -/
def blksearch (b : Content) (k : Bytes) : ℤ × Bool × Option GefsKvp :=
  let r := bsearch (fun i => gefsKeycmp k (gefsGetval b i).1) 0 (b.nval - 1) (-1)
  let ri := if r.1 = -1 then r.2 - 1 else r.1
  (ri, r.1 ≠ -1, if 0 ≤ ri then some (gefsGetval b ri.toNat) else none)

/-- The index, whether it matches, and the message there. -/
def bufsearch (b : Content) (k : Bytes) : ℤ × Bool × Option GefsMsg :=
  let r := bsearch (fun i => gefsKeycmp k (gefsGetmsg b i).k) 0 (b.nbuf - 1) (-1)
  let ri := if r.1 = -1 then r.2 - 1 else r.1
  (ri, r.1 ≠ -1, if 0 ≤ ri then some (gefsGetmsg b ri.toNat) else none)

/-- `gefs_cpkvp` into a buffer of `n` bytes: its assertion. -/
def gefsCpkvp (kv : GefsKvp) (n : ℕ) : Option GefsKvp :=
  if kv.1.length + kv.2.length ≤ n then some kv else none

/-- The optional fields of a wstat message, in the order of their flag bits. -/
def statFields (f : UInt32) (m : Mem) (d : GefsXdir) : GefsXdir :=
  let o := 4
  let d := if f &&& 1 ≠ 0 then { d with length := unpack64 m o } else d
  let o := if f &&& 1 ≠ 0 then o + 8 else o
  let d := if f &&& 2 ≠ 0 then { d with mode := unpack32 m o } else d
  let o := if f &&& 2 ≠ 0 then o + 4 else o
  let d := if f &&& 4 ≠ 0 then { d with mtime := (unpack64 m o).toInt64 } else d
  let o := if f &&& 4 ≠ 0 then o + 8 else o
  let d := if f &&& 8 ≠ 0 then { d with atime := (unpack64 m o).toInt64 } else d
  let o := if f &&& 8 ≠ 0 then o + 8 else o
  let d := if f &&& 16 ≠ 0 then { d with uid := (unpack32 m o).toInt32 } else d
  let o := if f &&& 16 ≠ 0 then o + 4 else o
  let d := if f &&& 32 ≠ 0 then { d with gid := (unpack32 m o).toInt32 } else d
  let o := if f &&& 32 ≠ 0 then o + 4 else o
  if f &&& 64 ≠ 0 then { d with muid := (unpack32 m o).toInt32 } else d

/-- The entry repacked over its own value. A message shorter than its flags say is read past its
end. -/
def statupdate (kv : GefsKvp) (m : GefsMsg) : Option GefsKvp := do
  let d ← gefsKv2dir kv
  let p := memOf (m.v ++ m.past)
  let v ← gefsPackdval kv.2.length (statFields (unpack32 p 0) p d)
  some (kv.1, v ++ kv.2.drop v.length)

/-- What a message does to the pair found so far, and whether a pair is left. -/
def applyMsg (kv : Option GefsKvp) (m : GefsMsg) (nbuf : ℕ) : Option (Bool × Option GefsKvp) :=
  match m.op with
  | .odelete | .oclearb | .oclobber => some (false, kv)
  | .oinsert => (gefsCpkvp (m.k, m.v) nbuf).map fun r => (true, some r)
  | .owstat =>
    match kv with
    | none => none
    | some r =>
      if gefsKeycmp r.1 m.k = 0 then (statupdate r m).map fun r => (true, some r)
      else some (true, some r)
  | _ => some (true, kv)

/-- The messages on `k` from the `j`-th on. -/
def applyRun (b : Content) (k : Bytes) (nbuf : ℕ) :
    ℕ → ℕ → Bool × Option GefsKvp → Option (Bool × Option GefsKvp)
  | 0, _, r => some r
  | n + 1, j, r =>
    if (j : ℤ) < b.nbuf ∧ gefsKeycmp k (gefsGetmsg b j).k = 0 then do
      let r ← applyMsg r.2 (gefsGetmsg b j) nbuf
      applyRun b k nbuf n (j + 1) r
    else some r

/-- A pivot's messages on `k`. The first is skipped while there is nothing it could apply to. -/
def applyPivot (b : Content) (k : Bytes) (nbuf : ℕ) (r : Bool × Option GefsKvp) :
    Option (Bool × Option GefsKvp) :=
  match bufsearch b k with
  | (j, true, some m) => do
    let r ← if r.1 ∨ m.op = .oinsert then applyMsg r.2 m nbuf else some r
    applyRun b k nbuf (b.nbuf - j).toNat (j.toNat + 1) r
  | _ => some r

/-- The blocks below `b` on the way to `k`, the deepest first, whether the way ended at the
bottom, and the last pair a search passed. -/
def descend (k : Bytes) :
    ℕ → GefsBlk → List GefsBlk → Option GefsKvp → GefsCtx →
      Option (List GefsBlk × Bool × Option GefsKvp × GefsCtx)
  | 0, _, p, r, ctx => some (p, true, r, ctx)
  | n + 1, b, p, r, ctx =>
    match blksearch b.toContent k with
    | (_, _, none) => some (p, false, r, ctx)
    | (_, _, some kv) => do
      let bp ← valBptr kv.2
      match gefsGetblk ctx bp with
      | (none, ctx) => some (p, false, some kv, ctx)
      | (some c, ctx) => descend k n c (c :: p) (some kv) ctx

/-- The search of the leaf, if the way got there. -/
def leafSearch (p : List GefsBlk) (bottom : Bool) (k : Bytes) (r : Option GefsKvp) :
    Bool × Option GefsKvp :=
  match bottom, p with
  | true, b :: _ =>
    let s := blksearch b.toContent k
    (s.2.1, s.2.2.orElse fun _ => r)
  | _, _ => (false, r)

/-- The pair under `k`, copied into a buffer of `nbuf` bytes. -/
def gefsBtlookup (ctx : GefsCtx) (t : GefsTree) (k : Bytes) (nbuf : ℕ) :
    Option (Option GefsKvp × GefsCtx) :=
  match gefsGetblk ctx t.bp with
  | (none, ctx) => some (none, ctx)
  | (some b, ctx) =>
    if t.ht < 0 then some (none, gefsDropblk ctx b)
    else if t.ht = 0 then none
    else do
      let (p, bottom, r, ctx) ←
        descend k (t.ht.toInt.toNat - 1) b [b] none (gefsHoldblk ctx b)
      let s := leafSearch p bottom k r
      let s ← if s.1 then (s.2.bind (gefsCpkvp · nbuf)).map fun r => (true, some r) else some s
      -- the pivots are all of the path but its leaf
      let piv := if bottom then p.drop 1 else p
      let s ← piv.foldlM (fun s c => applyPivot c.toContent k nbuf s) s
      let ctx := gefsDropblk (p.foldl gefsDropblk ctx) b
      if s.1 then s.2.map fun r => (some r, ctx) else some (none, ctx)

/-! The cursor. -/

structure GefsScanp where
  bi : ℤ
  vi : ℤ
  b : Option GefsBlk

structure GefsScan where
  donescan : Bool
  pfx : Bytes
  path : List GefsScanp

/-- Past the messages that share the key of `m`, from `i` on. -/
def skipMsgs (b : Content) (m : GefsMsg) : ℕ → ℤ → ℤ
  | 0, i => i
  | n + 1, i =>
    if i < b.nbuf ∧ gefsKeycmp m.k (gefsGetmsg b i.toNat).k = 0 then skipMsgs b m n (i + 1) else i

/-- The levels of a fresh cursor at `k`, `b` the block searched next and `pb` the one the level
holds. -/
def enterLevels (k : Bytes) :
    ℕ → GefsBlk → Option GefsBlk → GefsCtx → Option (List GefsScanp × GefsCtx)
  | 0, _, _, ctx => some ([], ctx)
  | n + 1, b, pb, ctx =>
    match blksearch b.toContent k with
    | (vi, same, kv) =>
      if b.type = gefsTpivot then
        if n = 0 ∨ (vi = -1 ∧ b.nval ≤ 0) then none
        else do
          let v := if vi = -1 then gefsGetval b.toContent 0 else kv.getD ([], [])
          let vi := if vi = -1 then 0 else vi
          let bi :=
            match bufsearch b.toContent k with
            | (_, _, none) => 0
            | (bi, true, some _) => bi
            | (bi, false, some m) => skipMsgs b.toContent m (b.nbuf - bi).toNat bi
          let bp ← valBptr v.2
          match gefsGetblk ctx bp with
          | (none, _) => none
          | (some c, ctx) => do
            let (p, ctx) ← enterLevels k n c (some c) ctx
            some (⟨bi, vi, pb⟩ :: p, ctx)
      else do
        let vi := if vi = -1 ∨ ¬ same then vi + 1 else vi
        let (p, ctx) ← enterLevels k n b none ctx
        some (⟨0, vi, pb⟩ :: p, ctx)

/-- `gefs_btnewscan` and `gefs_btenter`. -/
def gefsBtenter (ctx : GefsCtx) (t : GefsTree) (pfx : Bytes) : Option (GefsScan × GefsCtx) :=
  if gefsKeymax < pfx.length then none
  else match gefsGetblk ctx t.bp with
    | (none, ctx) => some (⟨true, pfx, []⟩, ctx)
    | (some b, ctx) =>
      if t.ht < 0 then some (⟨true, pfx, []⟩, gefsDropblk ctx b)
      else if t.ht = 0 then none
      else do
        let (p, ctx) ← enterLevels pfx t.ht.toInt.toNat b (some b) ctx
        some (⟨false, pfx, p⟩, ctx)

/-- A level that still has a value or a message. -/
def GefsScanp.more (p : GefsScanp) : Bool :=
  match p.b with
  | none => false
  | some b => p.vi < b.nval ∨ (b.type = gefsTpivot ∧ p.bi < b.nbuf)

/-- From the level `p` up, `ps` the levels above it: a spent level is dropped and the one above
moves on. `q` are the levels below. The levels, and how many are left standing, none at the end. -/
def ascend : GefsScanp → List GefsScanp → List GefsScanp → GefsCtx →
    List GefsScanp × Option ℕ × GefsCtx
  | p, [], q, ctx => (p :: q, if p.more then some 1 else none, ctx)
  | p, p' :: ps, q, ctx =>
    if p.more then ((p' :: ps).reverse ++ p :: q, some (ps.length + 2), ctx)
    else
      let ctx := match p.b with
        | some b => gefsDropblk ctx b
        | none => ctx
      ascend { p' with vi := p'.vi + 1 } ps (⟨0, 0, none⟩ :: q) ctx

/-- The levels below the value `vi` of `above` filled again, and whether all could be read. -/
def refill : List GefsScanp → GefsBlk → ℤ → GefsCtx → Option (List GefsScanp × Bool × GefsCtx)
  | [], _, _, ctx => some ([], true, ctx)
  | p :: ps, a, vi, ctx =>
    if vi < 0 ∨ a.nval ≤ vi then none
    else do
      let bp ← valBptr (gefsGetval a.toContent vi.toNat).2
      match gefsGetblk ctx bp with
      | (none, ctx) => some ({ p with b := none } :: ps, false, ctx)
      | (some c, ctx) => do
        let (ps, ok, ctx) ← refill ps c p.vi ctx
        some ({ p with b := some c } :: ps, ok, ctx)

/-- The smallest key waiting in the pivots, from the lowest up, and the level it waits in. -/
def leastMsg : List (ℕ × GefsScanp) → GefsMsg × Option ℕ → GefsMsg × Option ℕ
  | [], r => r
  | (i, p) :: ps, r =>
    match p.b with
    | none => leastMsg ps r
    | some b =>
      if p.bi = b.nbuf then leastMsg ps r
      else
        let n := gefsGetmsg b.toContent p.bi.toNat
        leastMsg ps (if gefsKeycmp n.k r.1.k < 0 then (n, some i) else r)

/-- A pivot's messages on the key of `r` applied, and the cursor moved past them. -/
def drainMsgs (b : Content) :
    ℕ → ℤ → Bool × GefsKvp → Option (ℤ × (Bool × GefsKvp))
  | 0, j, r => some (j, r)
  | n + 1, j, r =>
    if j < b.nbuf ∧ gefsKeycmp r.2.1 (gefsGetmsg b j.toNat).k = 0 then do
      let s ← applyMsg (some r.2) (gefsGetmsg b j.toNat) gefsKvmax
      let kv ← s.2
      drainMsgs b n (j + 1) (s.1, kv)
    else some (j, r)

/-- The pivots from the lowest up. -/
def drainLevels : List GefsScanp → Bool × GefsKvp → Option (List GefsScanp × (Bool × GefsKvp))
  | [], r => some ([], r)
  | p :: ps, r =>
    match p.b with
    | none => do
      let (ps, r) ← drainLevels ps r
      some (p :: ps, r)
    | some b => do
      let (j, r) ← drainMsgs b.toContent (b.nbuf - p.bi).toNat p.bi r
      let (ps, r) ← drainLevels ps r
      some ({ p with bi := j } :: ps, r)

/-- The value or message the cursor stands at: a value at the bottom, or, where the lowest level
left standing is out of values, a message of it. None where a block could not be read. -/
def scanSource (path : List GefsScanp) (start : ℕ) (ctx : GefsCtx) :
    Option (List GefsScanp × Option (GefsMsg × Option ℕ) × GefsCtx) := do
  let top ← path[start - 1]?
  let tb ← top.b
  if top.vi < tb.nval then do
    let (low, ok, ctx) ← refill (path.drop start) tb top.vi ctx
    let path := path.take start ++ low
    if ok then do
      let leaf ← path.getLast?
      let b ← leaf.b
      if leaf.vi < 0 ∨ b.nval ≤ leaf.vi then none
      else
        let kv := gefsGetval b.toContent leaf.vi.toNat
        some (path, some (⟨.oinsert, kv.1, kv.2, []⟩, none), ctx)
    else some (path, none, ctx)
  else some (path, some (gefsGetmsg tb.toContent top.bi.toNat, some (start - 1)), ctx)

/-- The cursor moved past what it stood at. -/
def scanAdvance (path : List GefsScanp) : Option ℕ → List GefsScanp
  | none => path.modify (path.length - 1) fun p => { p with vi := p.vi + 1 }
  | some i => path.modify i fun p => { p with bi := p.bi + 1 }

/-- The next pair, none at the end. `fuel` bounds the keys passed over because a message deletes
them. -/
def gefsBtnext : ℕ → GefsCtx → GefsScan → Option (Option GefsKvp × GefsScan × GefsCtx)
  | 0, _, _ => none
  | fuel + 1, ctx, s =>
    if s.donescan then some (none, s, ctx)
    else match s.path.reverse with
      | [] => none
      | p :: ps =>
        match ascend p ps [] ctx with
        | (path, none, ctx) => some (none, { s with donescan := true, path := path }, ctx)
        | (path, some start, ctx) => do
          let (path, src, ctx) ← scanSource path start ctx
          match src with
          | none => some (none, { s with donescan := true, path := path }, ctx)
          | some src => do
            let (m, src) := leastMsg ((path.zipIdx.dropLast.map Prod.swap).reverse) src
            if ¬ s.pfx.isPrefixOf m.k then
              some (none, { s with donescan := true, path := path }, ctx)
            else do
              let r ← gefsCpkvp (m.k, m.v) gefsKvmax
              let path := scanAdvance path src
              let (up, r) ← drainLevels path.dropLast.reverse (true, r)
              let path := up.reverse ++ path.getLast?.toList
              if r.1 then some (some r.2, { s with path := path }, ctx)
              else gefsBtnext fuel ctx { s with path := path }

def gefsBtexit (ctx : GefsCtx) (s : GefsScan) : GefsCtx :=
  s.path.foldl (fun ctx p => match p.b with
    | some b => gefsDropblk ctx b
    | none => ctx) ctx

/-- More turns than a tree of height `ht` has values and messages to pass. -/
def scanFuel (ht : Int32) : ℕ := 131072 ^ ht.toInt.toNat

/-- The pairs `gefs_btnext` returns one after the other, to the end or to the one the caller leaves
its loop at: `stop` is asked of the pairs so far. -/
def scanAll (fuel : ℕ) : ℕ → (List GefsKvp → Bool) → GefsCtx → GefsScan →
    Option (List GefsKvp × GefsScan × GefsCtx)
  | 0, _, _, _ => none
  | n + 1, stop, ctx, s => do
    let (r, s, ctx) ← gefsBtnext fuel ctx s
    match r with
    | none => some ([], s, ctx)
    | some kv =>
      if stop [kv] then some ([kv], s, ctx)
      else do
        let (l, s, ctx) ← scanAll fuel n (fun kvs => stop (kv :: kvs)) ctx s
        some (kv :: l, s, ctx)

/-- A whole scan: enter, the pairs, exit. -/
def gefsScan (ctx : GefsCtx) (t : GefsTree) (pfx : Bytes) (stop : List GefsKvp → Bool) :
    Option (List GefsKvp × GefsCtx) := do
  let (s, ctx) ← gefsBtenter ctx t pfx
  let (l, s, ctx) ← scanAll (scanFuel t.ht) (scanFuel t.ht) stop ctx s
  some (l, gefsBtexit ctx s)

end GefsFuse
