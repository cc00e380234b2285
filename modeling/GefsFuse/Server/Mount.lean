import GefsFuse.Server.Entries

/-!
# The fids of a mount

The fids and open entries of one mount, and the operations of `fs.c` that open and close them:
`fsattach`, `fswalk`, `fsstat` and `fsclunk`. The dump directory, which has no entry in a tree, and
the authentication files are left out.

An operation is none where it stops the server or never ends: a failed assertion, `broke`, a wait
for a truncation that nobody ends, a lock taken twice. Its checks run first (`Chk`).
-/

namespace GefsFuse.Server

/-- The errors of `error.h` these operations reply with. -/
inductive Err
  | enofid | efid | eperm | einuse | esrch | eexist | elength | ename | ephase | emode | edir
  | ebotch | enempty | elocked | erdonly | efull | enosnap | enouser | enogrp
  | ewstatp | ewstatv | ewstatl | ewstatd | ewstatb | ewstato | ewstatu | ewstatg
  deriving DecidableEq, Repr

/-- A check: none where the server stops. -/
abbrev Chk := ExceptT Err Option

/-- Refuses with `e` where `c` holds. -/
def refuse (c : Bool) (e : Err) : Chk Unit := if c then throw e else pure ()

/-- A step of a check that may stop the server. -/
def must {α : Type} (x : Option α) : Chk α := ExceptT.lift x

/-- A check made only where `c` holds. -/
def only (c : Bool) (x : Chk Unit) : Chk Unit := if c then x else pure ()

/-- Refuses with `e` where there is nothing. -/
def orElse {α : Type} (x : Option α) (e : Err) : Chk α :=
  match x with
  | some a => pure a
  | none => throw e

/-! ## Users -/

structure User where
  id : Int32
  lead : Int32
  memb : List Int32
  name : Bytes
  deriving DecidableEq, Repr

/-- The user table and its two special ids. -/
structure Users where
  users : List User
  noneid : Int32
  nogroupid : Int32

def name2user (us : Users) (name : Bytes) : Option User := us.users.find? (·.name = name)

def uid2user (us : Users) (id : Int32) : Option User := us.users.find? (·.id = id)

def ingroup (us : Users) (uid gid : Int32) : Bool :=
  match uid2user us uid, uid2user us gid with
  | some u, some g => u.id = g.id || g.memb.contains u.id
  | _, _ => false

def groupleader (us : Users) (uid gid : Int32) : Bool :=
  match uid2user us gid with
  | some g => if g.lead = 0 then g.memb.contains uid else uid = g.lead
  | none => false

def dmread : UInt32 := 4
def dmwrite : UInt32 := 2
def dmexec : UInt32 := 1
def dmappend : UInt32 := 0x40000000
def dmexcl : UInt32 := 0x20000000
def dmmount : UInt32 := 0x10000000
def dmauth : UInt32 := 0x08000000
def dmtmp : UInt32 := 0x04000000

def qtappend : UInt8 := 0x40
def qtexcl : UInt8 := 0x20
def qtauth : UInt8 := 0x08
def qttmp : UInt8 := 0x04

def otrunc : UInt8 := 16
def orclose : UInt8 := 64

def qdump : UInt64 := 0x8000000000000000

def maxname : ℕ := 256 - 1 - 9 - 1

def maxuname : ℕ := 64

def blksz : UInt64 := 16384

/-- The permission bits an open mode asks for. -/
def mode2bits (req : UInt8) : UInt32 :=
  let m := match (req &&& 15).toNat with
    | 0 => dmread
    | 1 => dmwrite
    | 2 => dmread ||| dmwrite
    | 3 => dmread ||| dmexec
    | _ => 0
  if req &&& otrunc ≠ 0 then m ||| dmwrite else m

/-! ## The state -/

/-- An open entry, with its address. A name that is none lies in memory that is no longer its own. -/
structure Dent where
  id : ℕ
  xdir : GefsXdir
  up : Int64
  k : Bytes
  ref : ℕ
  gone : Bool
  trunc : Bool
  deriving DecidableEq, Repr

/-- A fid, with the addresses of its entry and of the entry's directory. -/
structure Fid where
  dent : ℕ
  dir : ℕ
  qpath : UInt64
  pqpath : Int64
  mode : Int32
  rclose : Bool
  uid : Int32
  duid : Int32
  dgid : Int32
  dmode : UInt32
  permit : Bool
  deriving DecidableEq, Repr

/-- A message to the sweeper, `AOrclose` or `AOclear`. -/
structure Amsg where
  rclose : Bool
  dent : Option ℕ
  qpath : UInt64
  off : Int64
  fin : Int64
  deriving DecidableEq, Repr

/-- A fid's number and the connection it is on. -/
abbrev FidKey := ℕ × UInt32

/-- A mount, the fids on it, and what the sweeper still has to do. No two entries get one address. -/
structure MountSt where
  tree : Entries
  lmut : Bool
  dtab : List Dent
  nextdent : ℕ
  fids : FidKey → Option Fid
  adm : List Amsg
  nextqid : UInt64

/-- What an operation replies. -/
inductive Reply
  | rerror (e : Err)
  | rattach (q : GefsQid)
  | rwalk (qs : List GefsQid)
  | rstat (d : GefsXdir)
  | rcreate (q : GefsQid)
  | ropen (q : GefsQid)
  | rwrite (n : ℕ)
  | ok
  deriving DecidableEq, Repr

def fsaccess (us : Users) (f : Fid) (fmode : UInt32) (fuid fgid : Int32) (m : UInt32) : Bool :=
  f.permit
    || (f.uid != us.noneid
      && (f.uid == fuid && m &&& (fmode >>> 6) == m
        || ingroup us f.uid fgid && m &&& (fmode >>> 3) == m))
    || (m &&& fmode == m
      && (fmode &&& gefsDmdir != 0 && m == dmexec || !ingroup us f.uid us.nogroupid))

def okname (name : CStr) : Chk Unit :=
  if name.bytes = [] ∨ name.bytes = [46] ∨ name.bytes = [46, 46] then throw .ename
  else if (name.bytes.take maxname).any fun b => b < 0x20 || b == 47 then throw .ename
  else if maxname ≤ name.bytes.length then throw .elength
  else pure ()

/-- The parent and the name of the directory `up`. -/
def findparent (t : Entries) (up : Int64) : Chk (Int64 × Bytes) := do
  let v ← must (t.find (packupkey up.toUInt64))
  let v ← orElse v .esrch
  must (gefsUnpackdkey v)

namespace MountSt

/-- The open entry at an address. -/
def dent (s : MountSt) (p : ℕ) : Option Dent := s.dtab.find? (·.id = p)

/-- `f` done to the open entry at an address. -/
def setDent (s : MountSt) (p : ℕ) (f : Dent → Dent) : MountSt :=
  { s with dtab := s.dtab.map fun de => if de.id = p then f de else de }

def setFid (s : MountSt) (i : FidKey) (f : Option Fid) : MountSt :=
  { s with fids := Function.update s.fids i f }

/-- One more reference. -/
def ref (s : MountSt) (p : ℕ) : MountSt := s.setDent p fun de => { de with ref := de.ref + 1 }

/-- One more reference to the entry of `d`, which is opened if it is not. -/
def getdent (s : MountSt) (pqid : Int64) (d : GefsXdir) : Option (MountSt × ℕ) :=
  match s.dtab.find? (·.xdir.qid.path = d.qid.path) with
  | some de => some (s.ref de.id, de.id)
  | none => do
    let k ← dkey pqid (← d.name)
    some ({ s with
      dtab := ⟨s.nextdent, d, pqid, k, 1, false, false⟩ :: s.dtab
      nextdent := s.nextdent + 1 }, s.nextdent)

/-- One reference less; an entry that nothing refers to is closed. -/
def clunkdent (s : MountSt) (p : ℕ) : MountSt :=
  let s := s.setDent p fun de => { de with ref := de.ref - 1 }
  { s with dtab := s.dtab.filter fun de => de.ref ≠ 0 }

/-- Messages put into the tree, unless the mount may not be changed. -/
def upsert (s : MountSt) (ms : List GefsMsg) : Option MountSt :=
  if s.lmut then some { s with tree := s.tree ++ ms } else none

/-- A version bumped in memory; the message that bumps it in the tree is `Wstat.bump`'s. -/
def touch (s : MountSt) (p : ℕ) : MountSt :=
  s.setDent p fun de => { de with xdir := bumpVers de.xdir }

/-- The fid taken from its table, and the message that removes the file if it is to be removed on
close. -/
def clunkfid (s : MountSt) (i : FidKey) (f : Fid) : MountSt × Option Amsg :=
  let s := s.setFid i none
  if f.rclose then
    let len := (s.dent f.dent).elim 0 (·.xdir.length)
    (s.setDent f.dent fun de => { de with trunc := true, gone := true, ref := de.ref + 1 },
      some ⟨true, some f.dent, f.qpath, 0, len.toInt64⟩)
  else (s, none)

/-- The references of a fid dropped. -/
def putfid (s : MountSt) (f : Fid) : MountSt := (s.clunkdent f.dent).clunkdent f.dir

/-- A message thrown away. -/
def freeamsg (s : MountSt) (a : Option Amsg) : MountSt :=
  match a.bind (·.dent) with
  | some p => s.clunkdent p
  | none => s

/-- A message sent to the sweeper. -/
def send (s : MountSt) (a : Option Amsg) : MountSt := { s with adm := s.adm ++ a.toList }

/-! ## Attaching and walking -/

/-- The user of an attach and whether it is exempt from permission checks are given. -/
def fsattach (s : MountSt) (i : FidKey) (uid : Int32) (permit : Bool) :
    Option (MountSt × Reply) := do
  let k ← dkey (-1) []
  match ← lookupDir s.tree k with
  | none => some (s, .rerror .enosnap)
  | some d =>
    if (s.fids i).isSome then some (s, .rerror .efid)
    else do
      let (s, p) ← s.getdent (-1) d
      let s := s.ref p
      let f : Fid := ⟨p, p, d.qid.path, d.qid.path.toInt64, -1, false, uid,
        d.uid, d.gid, d.mode, permit⟩
      some (s.setFid i (some f), .rattach d.qid)

/-- The variables of the loop of `fswalk`. -/
structure WalkVars where
  d : GefsXdir
  up : Int64
  prev : UInt64
  duid : Int32
  dgid : Int32
  dmode : UInt32
  wqid : List GefsQid

/-- The directory and the name under which a step of a walk looks. -/
def walkName (t : Entries) (w : WalkVars) (name : CStr) : Chk (Int64 × Bytes) :=
  if name.bytes = [46, 46] then findparent t w.up else pure (w.prev.toInt64, name.bytes)

/-- The loop of `fswalk`, and whether it got through all names. -/
def walkLoop (us : Users) (t : Entries) (o : Fid) :
    List CStr → WalkVars → Chk (WalkVars × Bool)
  | [], w => pure (w, true)
  | name :: names, w => do
    refuse (maxname < name.bytes.length) .elength
    if fsaccess us o w.d.mode w.d.uid w.d.gid dmexec then
      let (prev, name) ← walkName t w name
      let k ← must (dkey prev name)
      match ← must (lookupDir t k) with
      | none => pure (w, false)
      | some d =>
        walkLoop us t o names
          ⟨d, prev, d.qid.path, w.d.uid, w.d.gid, w.d.mode, w.wqid ++ [d.qid]⟩
    else pure (w, false)

/-- The directory of the file a walk ended on, opened. -/
def walkDir (s : MountSt) (w : WalkVars) : Chk (MountSt × ℕ) :=
  if w.up = -1 then must (s.getdent w.up w.d)
  else do
    let (upup, name) ← findparent s.tree w.up
    let k ← must (dkey upup name)
    let d ← must (lookupDir s.tree k)
    let d ← must d
    must (s.getdent upup d)

/-- What a walk that is refused at its end takes back: the fid it made, not the references it
took. -/
def undup (s : MountSt) (i : FidKey) (f : Fid) (duped : Bool) : Option MountSt :=
  if duped then
    match s.clunkfid i f with
    | (s, none) => some s
    | (_, some _) => none
  else some s

/-- The fid a walk ends on, with its entry and its directory opened. -/
def walkEnd (s : MountSt) (i : FidKey) (f : Fid) (w : WalkVars) (duped : Bool) :
    Option (MountSt × Reply) := do
  let (s1, dent) ← s.getdent w.up w.d
  match ← (s1.walkDir w).run with
  | .error e => (s1.undup i f duped).map fun s => (s, .rerror e)
  | .ok (s2, dir) =>
    let s3 := (s2.clunkdent f.dent).clunkdent f.dir
    some (s3.setFid i (some { f with
      qpath := w.d.qid.path, pqpath := w.up, dent := dent, dir := dir
      duid := w.duid, dgid := w.dgid, dmode := w.dmode }), .rwalk w.wqid)

/-- The fid `fswalk` starts from, with the variables its loop starts with. -/
def walkCheck (us : Users) (s : MountSt) (i : FidKey) (names : List CStr) :
    Chk (Fid × WalkVars × Bool) := do
  let o ← orElse (s.fids i) .enofid
  refuse (o.mode ≠ -1) .einuse
  let de ← must (s.dent o.dent)
  let d := de.xdir
  let (w, all) ← walkLoop us s.tree o names ⟨d, o.pqpath, o.qpath, d.uid, d.gid, d.mode, []⟩
  refuse (w.wqid = [] ∧ names ≠ []) .esrch
  pure (o, w, all)

def fswalk (us : Users) (s : MountSt) (i : FidKey) (newfid : UInt32) (names : List CStr) :
    Option (MountSt × Reply) := do
  match ← (walkCheck us s i names).run with
  | .error e => some (s, .rerror e)
  | .ok (o, w, all) =>
    let j : FidKey := (i.1, newfid)
    let r := Reply.rwalk w.wqid
    if all then
      if i = j then
        if names = [] then some (s, r) else s.walkEnd i o w false
      else if (s.fids j).isSome then some (s, .rerror .efid)
      else
        let f := { o with mode := -1 }
        let s := ((s.setFid j (some f)).ref o.dent).ref o.dir
        if names = [] then some (s, r) else s.walkEnd j f w true
    else some (s, r)

/-! ## Tstat and Tclunk -/

def fsstat (s : MountSt) (i : FidKey) : Option (MountSt × Reply) :=
  match s.fids i with
  | none => some (s, .rerror .enofid)
  | some f => (s.dent f.dent).map fun de => (s, .rstat de.xdir)

def fsclunk (s : MountSt) (i : FidKey) : MountSt × Reply :=
  match s.fids i with
  | none => (s, .rerror .enofid)
  | some f =>
    let (s, a) := s.clunkfid i f
    ((s.putfid f).send a, .ok)

end MountSt

end GefsFuse.Server
