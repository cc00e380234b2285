import GefsFuse.Server.Mount
import GefsFuse.Server.Sweep

/-!
# Reading a directory

`readdir` of `fs.c`, one Tread of a directory. What outlives a read is in the fid: whether the scan
was entered, whether it came to its end, and the pair it came to last, which a read that had no room
for it leaves to the next one. Each read enters the tree that is mounted then, behind that pair.

A reply is the list of the entries in it, each as `dir2statbuf` packs it. An entry with a user that
is not in the table ends the read with an error, but the scan has gone past it. `offset` of the scan
is never set, so the check on it passes. A computation that the source stops by an assertion, or
that `fuel` is not enough for, is none.
-/

namespace GefsFuse.Server

open ByteMem

/-- What PBIT16, PBIT32 and PBIT64 store. -/
def pbit (w n : ℕ) : Bytes := (be w n).reverse

def statfixlen : ℕ := 49

def nsec : Int64 := 1000000000

/-- The entry as a 9P stat, where it fits: a group that is unknown is not replaced, unlike a user. -/
def dir2statbuf (us : Users) (d : GefsXdir) (nbuf : ℤ) : Except Err (Option Bytes) :=
  let u := (uid2user us d.uid).orElse fun _ => uid2user us us.noneid
  let m := (uid2user us d.muid).orElse fun _ => uid2user us us.noneid
  match u, uid2user us d.gid, m with
  | some u, some g, some m =>
    let name := d.name.getD []
    let sz := statfixlen + name.length + u.name.length + g.name.length + m.name.length
    if nbuf < sz then .ok none
    else .ok (some (pbit 2 (sz - 2) ++ pbit 2 0xffff ++ pbit 4 0xffffffff
      ++ pbit 1 d.qid.type.toNat ++ pbit 4 d.qid.vers.toNat ++ pbit 8 d.qid.path.toNat
      ++ pbit 4 d.mode.toNat ++ pbit 4 ((d.atime + nsec / 2) / nsec).toUInt64.toNat
      ++ pbit 4 ((d.mtime + nsec / 2) / nsec).toUInt64.toNat ++ pbit 8 d.length.toNat
      ++ pbit 2 name.length ++ name ++ pbit 2 u.name.length ++ u.name
      ++ pbit 2 g.name.length ++ g.name ++ pbit 2 m.name.length ++ m.name))
  | _, _, _ => .error .eperm

def kv2statbuf (us : Users) (kv : GefsKvp) (nbuf : ℤ) : Option (Except Err (Option Bytes)) :=
  (kv2dir kv).map fun d => dir2statbuf us d nbuf

/-- Of `Scan`, what a read leaves to the next one. -/
structure DirScan where
  first : Bool
  donescan : Bool
  overflow : Bool
  kv : GefsKvp
  deriving DecidableEq, Repr

/-- `btnewscan`: the scan begins at its prefix. -/
def newscan (pfx : Bytes) : DirScan := ⟨true, false, false, (pfx, [])⟩

def dpfxsz : ℕ := 9

/-- The prefix of the keys of a directory's entries. -/
def dirPfx (qpath : UInt64) : Bytes := (gefsPackdkey dpfxsz qpath.toInt64 none).getD []

section Read

variable (us : Users) (get : GefsBptr → Option Content) (pfx : Bytes)

/-- `btnext`: the next pair and the cursor behind it, none at the end. -/
def btnext : ℕ → List Scanp → Option (Option (GefsKvp × List Scanp))
  | 0, _ => none
  | n + 1, path => do
    match ← Cursor.turn get (fun m => m.op = .oinsert) scanApply pfx path with
    | none => some none
    | some (r, path) => if r.1 then some (some (r.2, path)) else btnext n path

/-- The loop over the entries, with `n` bytes of the reply left. -/
def readEntries : ℕ → List Scanp → ℤ → DirScan → Option (Except Err (List Bytes) × DirScan)
  | 0, _, _, _ => none
  | fuel + 1, path, n, s => do
    match ← btnext get pfx (fuel + 1) path with
    | none => some (.ok [], { s with donescan := true })
    | some (kv, path) =>
      let s := { s with kv := kv }
      match ← kv2statbuf us kv n with
      | .error e => some (.error e, s)
      | .ok none => some (.ok [], { s with overflow := true })
      | .ok (some b) => do
        let (r, s) ← readEntries fuel path (n - b.length) s
        some (r.map (b :: ·), s)

/-- The entry the read before had no room for: none in a scan that has none. -/
def pending (s : DirScan) (count : ℕ) : Option (Except Err (List Bytes)) :=
  if s.overflow then
    (kv2statbuf us s.kv count).map fun
      | .error e => .error e
      | .ok none => .error .ebotch
      | .ok (some b) => .ok [b]
  else some (.ok [])

def readdir (t : GefsTree) (fuel : ℕ) (s : Option DirScan) (offset count : ℕ) :
    Option (Except Err (List Bytes) × DirScan) :=
  let s := match s with
    | some s => if offset = 0 then newscan pfx else s
    | none => newscan pfx
  if s.donescan then some (.ok [], s)
  else do
    match ← pending us s count with
    | .error e => some (.error e, s)
    | .ok bs =>
      let path ← Cursor.enter get t s.kv.1 s.first
      let s := { s with first := false, overflow := false }
      let (r, s) ← readEntries us get pfx fuel path (count - (bs.map List.length).sum) s
      some (r.map (bs ++ ·), s)

end Read

/-! ## A client's reads -/

/-- A Tread with what it meets: the tree mounted and the user table. -/
structure DirRead where
  get : GefsBptr → Option Content
  t : GefsTree
  us : Users
  fuel : ℕ
  offset : ℕ
  count : ℕ

/-- The reads of one fid, each answered with a page; `s` is what the fid has before. -/
def readAll (qpath : UInt64) :
    List DirRead → Option DirScan → Option (List (List Bytes) × Option DirScan)
  | [], s => some ([], s)
  | r :: rs, s =>
    match readdir r.us r.get (dirPfx qpath) r.t r.fuel s r.offset r.count with
    | some (.ok page, s) => (readAll qpath rs (some s)).map fun x => (page :: x.1, x.2)
    | _ => none

/-- The directory has the entry at the read. -/
def DirRead.Holds (qpath : UInt64) (r : DirRead) (kv : GefsKvp) : Prop :=
  dirPfx qpath <+: kv.1 ∧ btlookup r.get r.t kv.1 gefsKvmax = some (some kv)

/-- `b` is the entry as a 9P stat. -/
def Packed (us : Users) (kv : GefsKvp) (b : Bytes) : Prop :=
  ∃ n, kv2statbuf us kv n = some (.ok (some b))

/-- Each page fits and has the entries `es`, which the directory held at the read, or at the one
before it, of which `prev` says what it held. -/
def Fetched (qpath : UInt64) :
    (GefsKvp → Prop) → List DirRead → List (List GefsKvp) → List (List Bytes) → Prop
  | _, [], [], [] => True
  | prev, r :: rs, es :: ess, page :: pages =>
    List.Forall₂ (Packed r.us) es page ∧ (∀ e ∈ es, r.Holds qpath e ∨ prev e)
      ∧ (page.map List.length).sum ≤ r.count
      ∧ Fetched qpath (r.Holds qpath) rs ess pages
  | _, _, _, _ => False

end GefsFuse.Server
