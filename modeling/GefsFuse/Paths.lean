import GefsFuse.Names

/-!
# The two ways a path is read

A walk cuts the path at every slash; the operations that rewrite, remove or rename the entry it
finds cut it at the last one, into buffers of fixed size, and walk to what is before it. Here are
the walk with the directory and the name it found its entry under (`walkFound`), the directory and
the name the operations use (`parentKey`), and what it is for the two to agree.
-/

namespace GefsFuse

open ByteMem Calls

/-- An entry and where it was found: `Kent{pqid, name}`. -/
structure Found where
  pqid : Int64
  name : Bytes
  dir : GefsXdir

def walkElemsFound (t : TreeRef) : List Bytes → Found → FsProg (Except Errno Found)
  | [], r => .ret (.ok r)
  | e :: es, r =>
    if e = [dot] then walkElemsFound t es r
    else do
      match ← gefsWalk1 t r.dir.qid.path.toInt64 e r.dir with
      | (.ok _, d) => walkElemsFound t es ⟨r.dir.qid.path.toInt64, e, d⟩
      | (.error e, _) => .ret (.error e)

/-- `gefs_walk_path`, with where it found its entry. -/
def walkFound (t : TreeRef) (path : Bytes) (d : GefsXdir) : FsProg (Except Errno Found) := do
  match ← gefsWalk1 t (-1) [] d with
  | (.ok _, d) => walkElemsFound t (pathElems path) ⟨-1, [], d⟩
  | (.error e, _) => .ret (.error e)

/-- The directory and the name that the path is split into, as a key is made of them. -/
def parentKey (path : Bytes) : FsProg (Except Errno (Int64 × Bytes)) :=
  match splitPath path with
  | none => .ret (.error .einval)
  | some (parent, name) => do
    match ← gefsWalkPath .active parent zeroXdir with
    | (.error e, _) => .ret (.error e)
    | (.ok _, pdir) => .ret (.ok (pdir.qid.path.toInt64, name))

/-- The operations that change the attributes of an entry, with their arguments. -/
inductive AttrOp
  | chmod (mode : UInt32)
  | chown (uid gid : UInt32)
  | utimens (tv : Option (Int64 × Int64)) (now : Int64)
  | truncate (size now : Int64)

namespace AttrOp

def prog (path : Bytes) : AttrOp → FsProg (Except Errno Unit)
  | chmod mode => gefsChmodEntry path mode
  | chown uid gid => gefsChownEntry path uid gid
  | utimens tv now => gefsUtimensEntry path tv now
  | truncate size now => gefsTruncateFile path size now

/-- The attributes asked for, and the others as they were. -/
def set (d : GefsXdir) : AttrOp → GefsXdir
  | chmod mode => { d with mode := (d.mode &&& ~~~0o777) ||| (mode &&& 0o777) }
  | chown uid gid =>
    { d with
      uid := if uid = -1 then d.uid else uid.toInt32
      gid := if gid = -1 then d.gid else gid.toInt32 }
  | utimens (some (a, m)) _ => { d with atime := a, mtime := m }
  | utimens none now => { d with atime := now, mtime := now }
  | truncate size now => { d with length := size.toUInt64, mtime := now }

/-- The entry once more changed: its version counts the changes. -/
def shown (op : AttrOp) (d : GefsXdir) : GefsXdir :=
  { op.set d with qid := { d.qid with vers := d.qid.vers + 1 } }

end AttrOp

/-- The operations that name the entry at a path by the two parts of it. -/
inductive EntryOp
  | attr (op : AttrOp)
  | unlink
  | rename (newpath : Bytes)

def EntryOp.prog (path : Bytes) : EntryOp → FsProg (Except Errno Unit)
  | attr op => op.prog path
  | unlink => gefsUnlinkEntry path
  | rename newpath => gefsRenameEntry path newpath

/-- A call that updates nothing but `k`, or `k` first. -/
def Sys.Under (k : Bytes) : {β : Type} → Sys β → Prop
  | _, .btupsert _ ms => (ms.head?).map (·.k) = some k
  | _, _ => True

/-- What a lookup in the active tree answers. -/
def lookedUp (ctx : GefsCtx) (k : Bytes) : Option (Option GefsKvp) :=
  (sysStep (.btlookup .active k) ctx).map (·.1)

/-- The path splits into where the walk found `f`: the operations update that key, and once one of
them has returned 0 the walk shows what was asked for, and every other key is as it was. -/
structure PathAgrees (ctx : GefsCtx) (path : Bytes) (f : Found) : Prop where
  pair : ∃ ctx', run sysStep (parentKey path) ctx = some (.ok (f.pqid, f.name), ctx')
  keys : ∃ k, gefsPackdkey gefsKeymax f.pqid (some f.name) = some k
    ∧ (∀ op : EntryOp, Meets sysStep (fun q _ => q.Under k) (op.prog path) ctx)
    ∧ ∀ (op : AttrOp) ctx', run sysStep (op.prog path) ctx = some (.ok (), ctx') →
      ∀ k' ≠ k, lookedUp ctx' k' = lookedUp ctx k'
  shown : ∀ (op : AttrOp) ctx', run sysStep (op.prog path) ctx = some (.ok (), ctx') →
    ∃ ctx'', run sysStep (walkFound .active path zeroXdir) ctx'
      = some (.ok { f with dir := op.shown f.dir }, ctx'')

end GefsFuse
