import GefsFuse.Tree

/-!
# The cursor of a tree

`btenter` and `btnext` of the original server move the cursor that the port has taken over. Here it
is apart from the cache: `get` reads a block, `ap` is what a message does to a pair, and `chk` is
asked of the message a pivot has next when nothing is left below it. The levels run from the root to
the leaf.

A computation that the source stops by an assertion or an error is none.
-/

namespace GefsFuse

open ByteMem

/-- A level of the cursor: its next message, its value, and its block if it has one. -/
structure Scanp where
  bi : ℕ
  vi : ℕ
  b : Option Content

namespace Cursor

/-- A level whose block is dropped. -/
def gone : Scanp := ⟨0, 0, none⟩

/-- A level that still has a value or a message. -/
def more (p : Scanp) : Bool :=
  match p.b with
  | none => false
  | some b => (p.vi : ℤ) < b.nval ∨ (b.type = gefsTpivot ∧ (p.bi : ℤ) < b.nbuf)

variable (get : GefsBptr → Option Content)

/-- The levels from `b` down of a cursor that enters at `k`. One that enters again, other than
`first`, goes past `k`. -/
def levels (k : Bytes) (first : Bool) :
    ℕ → Content → Option Content → Option (List Scanp)
  | 0, _, _ => some []
  | n + 1, b, pb =>
    match blksearch b k with
    | (vi, same, kv) =>
      if b.type = gefsTpivot then
        if n = 0 ∨ (vi = -1 ∧ b.nval ≤ 0) then none
        else do
          let v := if vi = -1 then gefsGetval b 0 else kv.getD ([], [])
          let bi :=
            match bufsearch b k with
            | (_, _, none) => 0
            | (bi, same, some m) =>
              if same = false ∨ first = false then skipMsgs b m (b.nbuf - bi).toNat bi else bi
          let bp ← valBptr v.2
          let c ← get bp
          let p ← levels k first n c (some c)
          some (⟨bi.toNat, vi.toNat, pb⟩ :: p)
      else do
        let vi := if vi = -1 ∨ same = false ∨ first = false then vi + 1 else vi
        let p ← levels k first n b none
        some (⟨0, vi.toNat, pb⟩ :: p)

/-- `btenter`. -/
def enter (t : GefsTree) (k : Bytes) (first : Bool) : Option (List Scanp) := do
  let b ← get t.bp
  if t.ht ≤ 0 then none else levels get k first t.ht.toInt.toNat b (some b)

/-- The levels that are spent dropped from the leaf up, and how many are left standing, none at the
end. A value is spent with the levels below it. -/
def climb : List Scanp → List Scanp × Option ℕ
  | [] => ([], none)
  | [p] => ([p], if more p then some 1 else none)
  | p :: q =>
    match climb q with
    | (q, some n) => (p :: q, some (n + 1))
    | (q, none) =>
      let p := { p with vi := p.vi + 1 }
      (p :: q.map fun _ => gone, if more p then some 1 else none)

/-- The levels below the value `vi` of `a` filled again. -/
def reload : Content → ℕ → List Scanp → Option (List Scanp)
  | _, _, [] => some []
  | a, vi, p :: ps =>
    if a.nval ≤ vi then none
    else do
      let bp ← valBptr (gefsGetval a vi).2
      let c ← get bp
      let ps ← reload c p.vi ps
      some ({ p with b := some c } :: ps)

variable (chk : GefsMsg → Bool)

/-- What the cursor stands at, and the level of it where it is a message: the value at the bottom,
or the message of the lowest level standing where that one is out of values. -/
def source : List Scanp → ℕ → Option (List Scanp × GefsMsg × Option ℕ)
  | p :: q, 1 => do
    let b ← p.b
    if (p.vi : ℤ) < b.nval then do
      let q ← reload get b p.vi q
      let leaf ← (p :: q).getLast?
      let c ← leaf.b
      if c.nval ≤ leaf.vi then none
      else
        let kv := gefsGetval c leaf.vi
        some (p :: q, ⟨.oinsert, kv.1, kv.2, []⟩, none)
    else
      let m := gefsGetmsg b p.bi
      if chk m then some (p :: q, m, some 0) else none
  | p :: q, n + 1 => do
    let (q, m, src) ← source q n
    some (p :: q, m, src.map (· + 1))
  | _, _ => none

/-- The message of the pivots with the least key, if that is below the key of `m`. -/
def least : List Scanp → GefsMsg → Option (GefsMsg × ℕ)
  | [], _ | [_], _ => none
  | p :: q, m =>
    let low := (least q m).map fun r => (r.1, r.2 + 1)
    match p.b with
    | none => low
    | some b =>
      if (p.bi : ℤ) = b.nbuf then low
      else
        let n := gefsGetmsg b p.bi
        if gefsKeycmp n.k (low.elim m (·.1)).k < 0 then some (n, 0) else low

/-- The cursor moved past what it stood at. -/
def advance (path : List Scanp) : Option ℕ → List Scanp
  | none => path.modify (path.length - 1) fun p => { p with vi := p.vi + 1 }
  | some i => path.modify i fun p => { p with bi := p.bi + 1 }

variable (ap : GefsKvp → GefsMsg → Option (Bool × GefsKvp))

/-- The messages on the key of `r` applied, and the position behind them. -/
def applyMsgs (b : Content) : ℕ → ℕ → Bool × GefsKvp → Option (ℕ × (Bool × GefsKvp))
  | 0, j, r => some (j, r)
  | n + 1, j, r =>
    if (j : ℤ) < b.nbuf ∧ gefsKeycmp r.2.1 (gefsGetmsg b j).k = 0 then do
      let r ← ap r.2 (gefsGetmsg b j)
      applyMsgs b n (j + 1) r
    else some (j, r)

/-- The pivots from the lowest up. -/
def drain : List Scanp → Bool × GefsKvp → Option (List Scanp × (Bool × GefsKvp))
  | [], r => some ([], r)
  | [p], r => some ([p], r)
  | p :: q, r => do
    let (q, r) ← drain q r
    match p.b with
    | none => some (p :: q, r)
    | some b => do
      let (j, r) ← applyMsgs ap b (b.nbuf - p.bi).toNat p.bi r
      some ({ p with bi := j } :: q, r)

/-- One turn of `btnext`: none at the end, else the pair, whether it is one to return, and the cursor
behind it. -/
def turn (pfx : Bytes) (path : List Scanp) : Option (Option ((Bool × GefsKvp) × List Scanp)) :=
  match climb path with
  | (_, none) => some none
  | (path, some n) => do
    let (path, m, src) ← source get chk path n
    let (m, src) := (least path m).elim (m, src) fun r => (r.1, some r.2)
    if pfx.isPrefixOf m.k then do
      let r ← gefsCpkvp (m.k, m.v) gefsKvmax
      let (path, r) ← drain ap (advance path src) (true, r)
      some (some (r, path))
    else some none

/-- The pairs `btnext` returns until it is at its end. -/
def scan (pfx : Bytes) : ℕ → List Scanp → Option (List GefsKvp)
  | 0, _ => none
  | n + 1, path => do
    match ← turn get chk ap pfx path with
    | none => some []
    | some (r, path) => do
      let l ← scan pfx n path
      some (if r.1 then r.2 :: l else l)

end Cursor

end GefsFuse
