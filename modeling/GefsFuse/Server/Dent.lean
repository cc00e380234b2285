import GefsFuse.Server.Mount
import GefsFuse.Lib.Trans

/-!
# Directory entries in memory

The operations of `fs.c` that change entries, in memory by assignments and in the tree by messages:
`fscreate`, `fswrite`, `fswstat`, `fsremove`, `fsopen`, and the sweeper's `AOclear` and `AOrclose`.
Each runs to its end before the next. `Cached` says that memory and tree agree, and `Keeps` when an
operation keeps it so.
-/

namespace GefsFuse.Server

namespace MountSt

/-! ## Tcreate -/

/-- A Tcreate: the name, the permissions, the open mode, the clock, and the flag word of the entry,
which the source leaves as it finds it on its stack. -/
structure CreateReq where
  name : CStr
  perm : UInt32
  mode : UInt8
  now : Int64
  flag : UInt64

def createCheck (us : Users) (s : MountSt) (i : FidKey) (r : CreateReq) : Chk (Fid × Dent) := do
  okname r.name
  refuse (r.perm &&& (dmmount ||| dmauth) ≠ 0) .ebotch
  let f ← orElse (s.fids i) .enofid
  refuse (f.mode ≠ -1) .einuse
  let de ← must (s.dent f.dent)
  let taken ← must (walk1 s.tree f.qpath.toInt64 r.name.bytes)
  refuse taken .eexist
  refuse (!fsaccess us f de.xdir.mode de.xdir.uid de.xdir.gid dmwrite) .eperm
  pure (f, de)

/-- The entry a Tcreate makes in the directory `de`. -/
def newDir (s : MountSt) (f : Fid) (de : Dent) (r : CreateReq) : GefsXdir :=
  { flag := r.flag
    qid :=
      { path := s.nextqid + 1
        vers := 0
        type := (if r.perm &&& gefsDmdir ≠ 0 then gefsQtdir else 0)
          ||| (if r.perm &&& dmappend ≠ 0 then qtappend else 0)
          ||| (if r.perm &&& dmexcl ≠ 0 then qtexcl else 0)
          ||| (if r.perm &&& dmtmp ≠ 0 then qttmp else 0) }
    mode := if r.perm &&& gefsDmdir ≠ 0 then r.perm &&& (~~~0o777 ||| de.xdir.mode &&& 0o777)
      else r.perm &&& (~~~0o666 ||| de.xdir.mode &&& 0o666)
    atime := r.now
    mtime := r.now
    length := 0
    uid := f.uid
    gid := de.xdir.gid
    muid := f.uid
    name := some r.name.bytes }

def fscreate (us : Users) (s : MountSt) (i : FidKey) (r : CreateReq) :
    Option (MountSt × Reply) := do
  match ← (createCheck us s i r).run with
  | .error e => some (s, .rerror e)
  | .ok (f, de) =>
    let d := newDir s f de r
    let s := { s with nextqid := s.nextqid + 1 }
    let m ← insertDir f.qpath.toInt64 d
    let ms := m :: superMsg (r.perm &&& gefsDmdir ≠ 0) d.qid.path m.k ++ [Wstat.bump.msg de.k]
    let s := s.touch f.dent
    match s.upsert ms with
    | none => some (s, .rerror .erdonly)
    | some s =>
      let (s, p) ← s.getdent f.qpath.toInt64 d
      let s := s.clunkdent f.dent
      some (s.setFid i (some { f with
        mode := (mode2bits r.mode).toInt32, pqpath := f.qpath.toInt64, qpath := d.qid.path
        dent := p, duid := de.xdir.uid, dgid := de.xdir.gid, dmode := de.xdir.mode
        rclose := f.rclose || r.mode &&& orclose ≠ 0 }), .rcreate d.qid)

/-! ## Twrite -/

/-- A Twrite: offset, count, the clock, and the pointers of the blocks `writeb` gets, where a write
that gets too few is refused. -/
structure WriteReq where
  offset : UInt64
  count : ℕ
  now : Int64
  bps : List GefsBptr

def writeCheck (s : MountSt) (i : FidKey) : Chk (Fid × Dent) := do
  let f ← orElse (s.fids i) .enofid
  let de ← must (s.dent f.dent)
  must (if de.trunc then none else some ())
  refuse (f.mode.toUInt32 &&& dmwrite = 0) .einuse
  refuse de.gone .ephase
  pure (f, de)

/-- The loop of `fswrite`: the insertions of `c` bytes written at `o`, and where they end. -/
def writeLoop (q : UInt64) : ℕ → UInt64 → ℕ → List GefsBptr → Chk (List GefsMsg × UInt64)
  | n, o, c, bps =>
    if c = 0 then pure ([], o)
    else match n, bps with
      | 0, _ => must none
      | _ + 1, [] => throw .efull
      | n + 1, bp :: bps => do
        let fo := o &&& (blksz - 1)
        let w := min c (blksz - fo).toNat
        let (ms, e) ← writeLoop q n (o + UInt64.ofNat w) (c - w) bps
        pure (⟨.oinsert, packdatkey q (o - fo), gefsPackbp bp, []⟩ :: ms, e)

def fswrite (s : MountSt) (i : FidKey) (r : WriteReq) : Option (MountSt × Reply) := do
  match ← (writeCheck s i).run with
  | .error e => some (s, .rerror e)
  | .ok (f, de) =>
    let o := if de.xdir.mode &&& dmappend ≠ 0 then de.xdir.length else r.offset
    match ← (writeLoop f.qpath 4 o r.count r.bps).run with
    | .error e => some (s, .rerror e)
    | .ok (ms, e) =>
      let w : Wstat := { Wstat.bump with
        size := if de.xdir.length < e then some e else none
        mtime := some r.now
        muid := some f.uid }
      let s := s.setDent f.dent fun de => { de with xdir := { de.xdir with
        length := if de.xdir.length < e then e else de.xdir.length
        mtime := r.now } }
      match s.upsert (ms ++ [w.msg de.k]) with
      | none => some (s, .rerror .erdonly)
      | some s => some (s, .rwrite r.count)

/-! ## Twstat -/

/-- The fields of a Twstat, where the largest number of a type means that a field stays. -/
structure Dir where
  qid : GefsQid
  name : CStr
  length : Int64
  mode : UInt32
  mtime : UInt32
  uid : CStr
  gid : CStr

/-- A Twstat: none where it does not unpack. `stale` is what a name reads that lies in memory that
is no longer the entry's own. -/
structure WstatReq where
  d : Option Dir
  stale : Bytes

/-- The new name of a file is a name, and not taken in its directory. -/
def wstatName (s : MountSt) (de : Dent) (d : Dir) : Chk Unit := do
  okname d.name
  let taken ← must (walk1 s.tree de.up d.name.bytes)
  refuse taken .eexist

/-- The checks up to the one of the length; whether the file is renamed. -/
def wstatCheck (s : MountSt) (i : FidKey) (r : WstatReq) : Chk (Fid × Dent × Dir × Bool) := do
  let f ← orElse (s.fids i) .enofid
  let de ← must (s.dent f.dent)
  must (if de.trunc then none else some ())
  refuse de.gone .ephase
  refuse (de.xdir.qid.type &&& qtauth ≠ 0 ∨ de.xdir.qid.path &&& qdump ≠ 0) .emode
  let d ← orElse r.d .edir
  refuse ((d.qid.path ≠ -1 ∨ d.qid.vers ≠ -1) ∧ d.qid.path ≠ de.xdir.qid.path) .ewstatp
  refuse ((d.qid.path ≠ -1 ∨ d.qid.vers ≠ -1) ∧ d.qid.vers ≠ de.xdir.qid.vers) .ewstatv
  refuse (maxname < d.name.bytes.length) .elength
  let rename : Bool := d.name.bytes ≠ [] ∧ d.name.bytes ≠ de.xdir.name.getD r.stale
  only rename (wstatName s de d)
  refuse (d.length ≠ -1 ∧ d.length < 0) .ewstatl
  pure (f, de, d, rename)

/-- The length a Twstat sets. -/
def wstatLength (de : Dent) (d : Dir) : Option UInt64 :=
  if d.length ≠ -1 ∧ d.length.toUInt64 ≠ de.xdir.length then some d.length.toUInt64 else none

/-- The id of the user named, unless the name is empty. -/
def wstatUser (us : Users) (name : CStr) (e : Err) : Chk (Option Int32) := do
  if name.bytes = [] then pure none
  else do
    refuse (maxuname < name.bytes.length) .elength
    let u ← orElse (name2user us name.bytes) e
    pure (some u.id)

/-- A field that changes. -/
def changed {α : Type} [DecidableEq α] (new : Option α) (old : α) : Option α :=
  new.filter (· ≠ old)

/-- The checks after the length: the fields of the message. -/
def wstatFields (us : Users) (f : Fid) (de : Dent) (d : Dir) (rename : Bool) : Chk Wstat := do
  let size := wstatLength de d
  refuse (d.mode ≠ -1 ∧ (d.mode ^^^ de.xdir.mode) &&& gefsDmdir ≠ 0) .ewstatd
  refuse (d.mode ≠ -1 ∧ d.mode &&& ~~~(gefsDmdir ||| dmappend ||| dmexcl ||| dmtmp ||| 0o777) ≠ 0)
    .ewstatb
  let mode := changed (if d.mode = -1 then none else some d.mode) de.xdir.mode
  let mtime := changed (if d.mtime = -1 then none
    else some (Int64.ofNat d.mtime.toNat * 1000000000)) de.xdir.mtime
  let nuid ← wstatUser us d.uid .enouser
  let uid := changed nuid de.xdir.uid
  let ngid ← wstatUser us d.gid .enogrp
  let gid := changed ngid de.xdir.gid
  refuse (rename && !fsaccess us f f.dmode f.duid f.dgid dmwrite) .eperm
  refuse (size.isSome && !fsaccess us f de.xdir.mode de.xdir.uid de.xdir.gid dmwrite) .eperm
  refuse ((mode.isSome || mtime.isSome) && !(f.permit || f.uid = de.xdir.uid
    || groupleader us f.uid de.xdir.gid)) .ewstato
  refuse (uid.isSome && !f.permit) .ewstatu
  let g := ngid.getD de.xdir.gid
  refuse (gid.isSome && !(f.permit || f.uid = de.xdir.uid && ingroup us f.uid g
    || groupleader us f.uid de.xdir.gid && groupleader us f.uid g)) .ewstatg
  pure ⟨size, mode, mtime, uid, gid, some f.uid⟩

/-- The entry as a Twstat leaves it in memory. -/
def wstatDir (de : Dent) (d : Dir) (w : Wstat) (rename : Bool) : GefsXdir :=
  { de.xdir with
    qid := { de.xdir.qid with
      vers := de.xdir.qid.vers + 1
      type := match w.mode with
        | some m => (m >>> 24).toUInt8
        | none => de.xdir.qid.type }
    name := if rename then some d.name.bytes else de.xdir.name
    length := w.size.getD de.xdir.length
    mode := w.mode.getD de.xdir.mode
    mtime := w.mtime.getD de.xdir.mtime
    uid := w.uid.getD de.xdir.uid
    gid := w.gid.getD de.xdir.gid
    muid := w.muid.getD de.xdir.muid }

/-- What a Twstat has done to the entry before its second half of checks: the length, and the wait
for the truncation when it shrinks. -/
def wstatSize (s : MountSt) (f : Fid) (de : Dent) (d : Dir) : MountSt × Option Amsg :=
  match wstatLength de d with
  | none => (s, none)
  | some n =>
    let s' := s.setDent f.dent fun de => { de with xdir := { de.xdir with length := n } }
    if n < de.xdir.length then
      (s'.setDent f.dent fun de => { de with trunc := true, ref := de.ref + 1 },
        some ⟨false, some f.dent, f.qpath, n.toInt64, de.xdir.length.toInt64⟩)
    else (s', none)

def fswstat (us : Users) (s : MountSt) (i : FidKey) (r : WstatReq) :
    Option (MountSt × Reply) := do
  match ← (wstatCheck s i r).run with
  | .error e => some (s, .rerror e)
  | .ok (f, de, d, rename) =>
    let (s, ao) := wstatSize s f de d
    match ← (wstatFields us f de d rename).run with
    | .error e => some (s.freeamsg ao, .rerror e)
    | .ok w =>
      let n := wstatDir de d w rename
      if rename then
        if f.dir = f.dent then none
        else do
          let m ← insertDir f.pqpath n
          let dir ← s.dent f.dir
          let ms := [⟨.oclobber, de.k, [], []⟩, m]
            ++ superMsg (de.xdir.qid.type &&& gefsQtdir ≠ 0) f.qpath m.k ++ [Wstat.bump.msg dir.k]
          let s := s.touch f.dir
          match s.upsert ms with
          | none => some (s.freeamsg ao, .rerror .erdonly)
          | some s =>
            let s := s.setDent f.dent fun de =>
              { de with xdir := { n with name := none }, k := m.k }
            some (s.send ao, .ok)
      else
        match s.upsert [w.msg de.k] with
        | none => some (s.freeamsg ao, .rerror .erdonly)
        | some s => some ((s.setDent f.dent fun de => { de with xdir := n }).send ao, .ok)

/-! ## Tremove -/

/-- Whether something is left in a directory. -/
def candelete (t : Entries) (de : Dent) (qpath : UInt64) : Chk Unit := do
  if de.xdir.qid.type &&& gefsQtdir ≠ 0 then
    let pfx ← must (gefsPackdkey gefsKeymax qpath.toInt64 none)
    let full ← must (t.scan pfx)
    refuse full .enempty
  else pure ()

/-- The checks of a Tremove, whose fid is gone from its table already. -/
def removeCheck (us : Users) (s : MountSt) (f : Fid) : Chk Dent := do
  let de ← must (s.dent f.dent)
  must (if de.trunc then none else some ())
  refuse de.gone .ephase
  let v ← must (s.tree.find de.k)
  refuse v.isNone .ephase
  candelete s.tree de f.qpath
  refuse (!fsaccess us f f.dmode f.duid f.dgid dmwrite) .eperm
  pure de

def fsremove (us : Users) (s : MountSt) (i : FidKey) : Option (MountSt × Reply) :=
  match s.fids i with
  | none => some (s, .rerror .enofid)
  | some f => do
    let (s, a) := s.clunkfid i f
    match ← (removeCheck us s f).run with
    | .error e => some ((s.freeamsg a).putfid f, .rerror e)
    | .ok de =>
      if f.dir = f.dent then none
      else do
        let s := s.freeamsg a
        let dir ← s.dent f.dir
        let isdir : Bool := de.xdir.qid.type &&& gefsQtdir ≠ 0
        let ms := ⟨.odelete, de.k, [0], []⟩
          :: (if isdir then [⟨.oclobber, packupkey f.qpath, [], []⟩] else [])
          ++ [Wstat.bump.msg dir.k]
        let ao := if isdir then none
          else some ⟨false, none, f.qpath, 0, de.xdir.length.toInt64⟩
        let s := s.touch f.dir
        match s.upsert ms with
        | none => some (s.putfid f, .rerror .erdonly)
        | some s =>
          let s := s.setDent f.dent fun de => { de with gone := true }
          some ((s.putfid f).send ao, .ok)

/-! ## Topen -/

/-- The checks of a Topen up to the one that the fid is not open yet. -/
def openCheck (us : Users) (s : MountSt) (i : FidKey) (mode : UInt8) :
    Chk (Fid × Dent × GefsXdir) := do
  let f ← orElse (s.fids i) .enofid
  let de ← must (s.dent f.dent)
  must (if mode &&& otrunc ≠ 0 ∧ de.trunc then none else some ())
  must (if f.qpath &&& qdump ≠ 0 then none else some ())
  let d ← must (lookupDir s.tree de.k)
  let d ← orElse d .esrch
  refuse de.gone .ephase
  refuse (de.xdir.qid.type &&& qtexcl ≠ 0 ∧ de.ref ≠ 1) .elocked
  only (mode &&& orclose ≠ 0) (candelete s.tree de f.qpath)
  refuse (!fsaccess us f d.mode d.uid d.gid (mode2bits mode)) .eperm
  pure (f, de, d)

/-- Whether a Topen truncates. -/
def truncates (de : Dent) (mode : UInt8) : Bool :=
  mode &&& otrunc ≠ 0 ∧ de.xdir.mode &&& dmappend = 0

def fsopen (us : Users) (s : MountSt) (i : FidKey) (mode : UInt8) :
    Option (MountSt × Reply) := do
  match ← (openCheck us s i mode).run with
  | .error e => some (s, .rerror e)
  | .ok (f, de, d) =>
    let s := s.setDent f.dent fun de => { de with xdir := { de.xdir with length := d.length } }
    if f.mode ≠ -1 then some (s, .rerror .einuse)
    else
      let s' := s.setFid i (some { f with
        mode := (mode2bits mode).toInt32, rclose := f.rclose || mode &&& orclose ≠ 0 })
      if truncates de mode then
        let trunc := fun s : MountSt => s.setDent f.dent fun de => { de with
          trunc := true
          xdir := { bumpVers de.xdir with muid := f.uid, length := 0 } }
        let w : Wstat := { Wstat.bump with size := some 0, muid := some f.uid }
        match ((trunc s').ref f.dent).upsert [w.msg de.k] with
        -- the fid stays locked
        | none => some (trunc s, .rerror .erdonly)
        | some s => some (s.send (some ⟨false, some f.dent, f.qpath, 0, d.length.toInt64⟩),
            .ropen d.qid)
      else some (s', .ropen d.qid)

/-! ## The sweeper -/

/-- The offsets `AOclear` clears. -/
def clearOffs (off fin : Int64) : List UInt64 :=
  (List.range ((fin.toInt - off.toInt + 16383) / 16384).toNat).map fun j =>
    off.toUInt64 + UInt64.ofNat j * blksz

/-- Whether they pass the end before they wrap, as the loop of `AOclear` else never ends. -/
def clearEnds (off fin : Int64) : Bool :=
  off.toInt + 16384 * ((fin.toInt - off.toInt + 16383) / 16384).toNat < 2 ^ 63

/-- The messages of `AOclear`, in batches. -/
def clearMsgs (a : Amsg) : List GefsMsg :=
  (clearOffs a.off a.fin).map fun o => ⟨.oclearb, packdatkey a.qpath o, [], []⟩

/-- The messages of `AOrclose` on the entry, and on the key of a directory. -/
def rcloseMsgs (de : Dent) (a : Amsg) : List GefsMsg :=
  ⟨.odelete, de.k, [], []⟩ :: if de.xdir.qid.type &&& gefsQtdir ≠ 0
    then [⟨.oclobber, packupkey a.qpath, [], []⟩] else []

/-- The end of a message to the sweeper: what waits for it goes on. -/
def endAmsg (s : MountSt) (a : Amsg) : MountSt :=
  match a.dent with
  | some p => (s.setDent p fun de => { de with trunc := false }).clunkdent p
  | none => s

/-- The oldest message to the sweeper, from its start to its end. On a mount that may not be changed
the removal of a file stops the server, and a truncation is given up. -/
def sweep (s : MountSt) : Option MountSt :=
  match s.adm with
  | [] => none
  | a :: adm =>
    let s := { s with adm := adm }
    if !clearEnds a.off a.fin then none
    else if a.rclose then do
      let de ← s.dent (← a.dent)
      let s ← s.upsert (rcloseMsgs de a ++ clearMsgs a)
      some (s.endAmsg a)
    else if clearMsgs a = [] then some (s.endAmsg a)
    else match s.upsert (clearMsgs a) with
      | none => some (s.freeamsg (some a))
      | some s => some (s.endAmsg a)

end MountSt

/-- The operations on a mount. -/
inductive MountOp
  | attach (i : FidKey) (uid : Int32) (permit : Bool)
  | walk (i : FidKey) (newfid : UInt32) (names : List CStr)
  | stat (i : FidKey)
  | clunk (i : FidKey)
  | create (i : FidKey) (r : MountSt.CreateReq)
  | write (i : FidKey) (r : MountSt.WriteReq)
  | wstat (i : FidKey) (r : MountSt.WstatReq)
  | remove (i : FidKey)
  | topen (i : FidKey) (mode : UInt8)
  | sweep

/-- An operation and its reply. -/
def serve (us : Users) (s : MountSt) : MountOp → Option (MountSt × Reply)
  | .attach i uid permit => s.fsattach i uid permit
  | .walk i newfid names => s.fswalk us i newfid names
  | .stat i => s.fsstat i
  | .clunk i => some (s.fsclunk i)
  | .create i r => s.fscreate us i r
  | .write i r => s.fswrite i r
  | .wstat i r => s.fswstat us i r
  | .remove i => s.fsremove us i
  | .topen i mode => s.fsopen us i mode
  | .sweep => s.sweep.map fun s => (s, .ok)

/-- The state an operation leaves. -/
def mountStep (us : Users) (s : MountSt) (op : MountOp) : Option MountSt :=
  (serve us s op).map (·.1)

/-! ## What is cached -/

/-- The fields of two entries that a stat reports, except for the name and the qid path. -/
def SameDir (a b : GefsXdir) : Prop :=
  a.qid.vers = b.qid.vers ∧ a.qid.type = b.qid.type ∧ a.mode = b.mode ∧ a.length = b.length
    ∧ a.uid = b.uid ∧ a.gid = b.gid ∧ a.muid = b.muid ∧ a.mtime = b.mtime

namespace MountSt

/-- Every open entry that is not gone is the one the tree has under its key. -/
def Cached (s : MountSt) : Prop :=
  ∀ de ∈ s.dtab, de.gone = false →
    ∃ d, lookupDir s.tree de.k = some (some d) ∧ SameDir de.xdir d

/-- A Topen replies the version and type of the qid that a Tstat of the fid would reply. -/
def Reports (us : Users) (s : MountSt) : Prop :=
  ∀ i mode s1 s2 q d, s.fsopen us i mode = some (s1, .ropen q) →
    s.fsstat i = some (s2, .rstat d) → d.qid.vers = q.vers ∧ d.qid.type = q.type

/-- Nothing is open, and the tree's entries have qid paths of their own that were given out. -/
structure Mounted (s : MountSt) : Prop where
  dtab : s.dtab = []
  fids : ∀ i, s.fids i = none
  adm : s.adm = []
  own : ∀ k k' d d', lookupDir s.tree k = some (some d) → lookupDir s.tree k' = some (some d') →
    d.qid.path = d'.qid.path → k = k'
  old : ∀ k d, lookupDir s.tree k = some (some d) → d.qid.path.toNat ≤ s.nextqid.toNat

end MountSt

/-- Whether the checks pass. -/
def Chk.passes {α : Type} (c : Chk α) : Bool :=
  match c.run with
  | some (.ok _) => true
  | _ => false

/-- `P` holds of what the checks give if they pass. -/
def Chk.Passes {α : Type} (c : Chk α) (P : α → Prop) : Prop :=
  match c.run with
  | some (.ok a) => P a
  | _ => True

instance {α : Type} (c : Chk α) (P : α → Prop) [∀ a, Decidable (P a)] :
    Decidable (c.Passes P) := by
  unfold Chk.Passes
  split <;> infer_instance

/-- The directory of a fid, whose version the operation bumps, is not gone. -/
def DirKept (s : MountSt) (f : Fid) : Prop := ∀ dir ∈ s.dent f.dir, dir.gone = false

instance (s : MountSt) (f : Fid) : Decidable (DirKept s f) := by
  unfold DirKept
  infer_instance

/-- What keeps memory and tree the same. No Twrite gets through. A Twstat that changes the length
gets through, on a mount that may be changed; so do a rename, a truncation, a create and a remove,
and neither does the directory whose version they bump lie removed. A file removed on close still is
the one under its key. -/
def Keeps (us : Users) : MountOp → MountSt → Prop
  | .create i r, s => (s.createCheck us i r).Passes fun (_, de) =>
    s.lmut ∧ de.gone = false ∧ s.nextqid ≠ -1
  | .write i r, s => (s.writeCheck i).Passes fun (f, de) =>
    (MountSt.writeLoop f.qpath 4
      (if de.xdir.mode &&& dmappend ≠ 0 then de.xdir.length else r.offset) r.count r.bps).Passes
      fun _ => False
  | .wstat i r, s => (s.wstatCheck i r).Passes fun (f, de, d, rename) =>
    (MountSt.wstatLength de d = none
        ∨ (MountSt.wstatFields us f de d rename).passes ∧ s.lmut)
      ∧ (MountSt.wstatFields us f de d rename).Passes fun _ => rename → s.lmut ∧ DirKept s f
  | .remove i, s => ∀ f ∈ s.fids i, ((s.clunkfid i f).1.removeCheck us f).Passes fun _ =>
    s.lmut ∧ DirKept s f
  | .topen i mode, s => (s.openCheck us i mode).Passes fun (f, de, _) =>
    f.mode = -1 → MountSt.truncates de mode → s.lmut
  | .sweep, s => ∀ a ∈ s.adm.head?, a.rclose → ∀ p ∈ a.dent, ∀ de ∈ s.dent p,
    (lookupDir s.tree de.k).join.map (·.qid.path) = some de.xdir.qid.path
  | _, _ => True

instance (us : Users) (op : MountOp) (s : MountSt) : Decidable (Keeps us op s) := by
  unfold Keeps
  split <;> infer_instance

end GefsFuse.Server
