import GefsFuse.Batch
import GefsFuse.Mount

/-!
# What an operation does with a name

The operations that store a name (`NameOp`), the walks each makes before it stores anything, and
what it is to store a name faithfully (`NameKept`): either the operation ends in an error with the
trees as they were, or it comes to an update after which the tree answers under a key from which
the name can be read again, and this update and those after it all leave their whole batch in the
tree.
-/

namespace GefsFuse

open ByteMem Calls

/-- The operations that store a name, with their other arguments. -/
inductive NameOp
  | createFile (c : Caller) (mode : UInt32)
  | createDir (c : Caller) (mode : UInt32)
  | createSymlink (c : Caller) (target : Bytes)
  | renameEntry (oldpath : Bytes)
  | createSnapshot (mutableFlag : Bool)

/-- The path of the entry `n` of the directory at `dir`, which ends in no slash. -/
def entryPath (dir n : Bytes) : Bytes := dir ++ slash :: n

namespace NameOp

/-- The operation on the entry `n` of `dir`, or on the label `n`. -/
def prog (dir n : Bytes) : NameOp → FsProg (Except Errno Unit)
  | createFile c mode => gefsCreateFile c (entryPath dir n) mode
  | createDir c mode => gefsCreateDir c (entryPath dir n) mode
  | createSymlink c target => gefsCreateSymlink c target (entryPath dir n)
  | renameEntry oldpath => gefsRenameEntry oldpath (entryPath dir n)
  | createSnapshot flag => gefsCreateSnapshot n flag

end NameOp

/-- What the walks find: the qid path of the directory the name goes to, and for a rename the entry
and the qid path of its directory. -/
structure NamePlace where
  dir : UInt64
  olddir : UInt64
  entry : GefsXdir

/-- The directory of the path is found. -/
def walkDir (path : Bytes) : FsProg (Except Errno NamePlace) :=
  match splitPath path with
  | none => .ret (.error .einval)
  | some (parent, _) => do
    match ← gefsWalkPath .active parent zeroXdir with
    | (.error e, _) => .ret (.error e)
    | (.ok _, pdir) => .ret (.ok ⟨pdir.qid.path, 0, zeroXdir⟩)

/-- The directory of the path is found, and the name is not in it. -/
def walkFresh (path : Bytes) : FsProg (Except Errno NamePlace) :=
  match splitPath path with
  | none => .ret (.error .einval)
  | some (parent, name) => do
    match ← gefsWalkPath .active parent zeroXdir with
    | (.error e, _) => .ret (.error e)
    | (.ok _, pdir) => do
      match ← gefsWalk1 .active pdir.qid.path.toInt64 name zeroXdir with
      | (.ok _, _) => .ret (.error .eexist)
      | (.error _, _) => .ret (.ok ⟨pdir.qid.path, 0, zeroXdir⟩)

/-- The entry renamed is found, and the two directories. -/
def walkRename (oldpath newpath : Bytes) : FsProg (Except Errno NamePlace) := do
  match ← gefsWalkPath .active oldpath zeroXdir with
  | (.error e, _) => .ret (.error e)
  | (.ok _, d) =>
    match splitPath oldpath, splitPath newpath with
    | some (oldParent, _), some (newParent, _) => do
      match ← gefsWalkPath .active oldParent zeroXdir with
      | (.error e, _) => .ret (.error e)
      | (.ok _, oldPdir) => do
        match ← gefsWalkPath .active newParent zeroXdir with
        | (.error e, _) => .ret (.error e)
        | (.ok _, newPdir) => .ret (.ok ⟨newPdir.qid.path, oldPdir.qid.path, d⟩)
    | _, _ => .ret (.error .einval)

/-- The system may be written to. -/
def checkWritable : FsProg (Except Errno NamePlace) := do
  let ro ← .one .readonly
  if ro then .ret (.error .erofs) else .ret (.ok ⟨0, 0, zeroXdir⟩)

namespace NameOp

/-- What the operation looks at before it stores anything, and whether it goes on. -/
def walks (dir n : Bytes) : NameOp → FsProg (Except Errno NamePlace)
  | createFile _ _ => walkFresh (entryPath dir n)
  | createDir _ _ => walkFresh (entryPath dir n)
  | createSymlink _ _ => walkDir (entryPath dir n)
  | renameEntry oldpath => walkRename oldpath (entryPath dir n)
  | createSnapshot _ => checkWritable

/-- The update of an operation that makes one, `q` the next qid path. -/
def batch (n : Bytes) (q : UInt64) (p : NamePlace) : NameOp → Option (List GefsMsg)
  | createFile c mode => do
    let k ← gefsPackdkey gefsKeymax p.dir.toInt64 (some n)
    let v ← gefsPackdval gefsInlmax (newEntry c q gefsQtfile (mode &&& 0o777) n)
    some [⟨.oinsert, k, v, []⟩]
  | createDir c mode => do
    let k ← gefsPackdkey gefsKeymax p.dir.toInt64 (some n)
    let v ← gefsPackdval gefsInlmax
      (newEntry c q gefsQtdir (gefsDmdir ||| (mode &&& 0o777)) n)
    let up ← gefsPackdkey gefsInlmax p.dir.toInt64 (some n)
    some [⟨.oinsert, k, v, []⟩, ⟨.oinsert, packupkey q, up, []⟩]
  | renameEntry oldpath => do
    let (_, oldName) ← splitPath oldpath
    let kd ← gefsPackdkey gefsKeymax p.olddir.toInt64 (some oldName)
    let ki ← gefsPackdkey gefsKeymax p.dir.toInt64 (some n)
    let d := p.entry
    let v ← gefsPackdval gefsInlmax
      { d with qid := { d.qid with vers := d.qid.vers + 1 }, name := some n }
    some [⟨.odelete, kd, [], []⟩, ⟨.oinsert, ki, v, []⟩]
  | _ => none

/-- The lengths for which the keys of the operation have room. -/
def Fits (n : Bytes) : NameOp → Prop
  | renameEntry oldpath => n.length ≤ 244 ∧ ∀ p name, splitPath oldpath = some (p, name) →
    name.length ≤ 244
  | createSnapshot _ => n.length ≤ 255
  | _ => n.length ≤ 244

end NameOp

/-! ## Names kept -/

/-- `k` is a key that `n` can be read from. -/
def Names (n k : Bytes) : Prop :=
  (∃ up, gefsUnpackdkey k = some (up, n)) ∨ k = gefsKlabel :: n

/-- Each key inserted has room, and one with a name in it has the name `n`. -/
def KeysNamed (n : Bytes) (ms : List GefsMsg) : Prop :=
  ∀ m ∈ ms, m.op = .oinsert → m.k.length ≤ gefsKeymax
    ∧ (m.k.head? = some gefsKent ∨ m.k.head? = some gefsKlabel → Names n m.k)

/-- A data block goes elsewhere than the root of the active tree, and an update inserts no other
name than `n` and is refused or leaves the whole batch in the tree. -/
def Sys.Kept (n : Bytes) : {β : Type} → Sys β → GefsCtx → Prop
  | _, .btupsert t ms, ctx => KeysNamed n ms
    ∧ ∃ r ctx', gefsBtupsert ctx t ms = some (r, ctx') ∧ (r = .ok () → Applied ctx t ms ctx')
  | _, .writedat m, ctx => ∀ bp ctx', GefsFuse.writedat ctx m = (some bp, ctx') →
    bp.addr ≠ ctx.activeTree.bp.addr
  | _, _, _ => True

/-- An update that only inserts. -/
def Sys.OnlyInserts : {β : Type} → Sys β → Prop
  | _, .btupsert _ ms => ∀ m ∈ ms, m.op = .oinsert
  | _, _ => True

/-- In `ctx'` the tree that was updated answers under a key of the update that `n` can be read
from. -/
def Sys.Stores (n : Bytes) : {β : Type} → Sys β → GefsCtx → Prop
  | _, .btupsert t ms, ctx' => ∃ m ∈ ms, m.op = .oinsert ∧ Names n m.k
    ∧ ∃ v, (gefsBtlookup ctx' (ctx'.tree t) m.k gefsKvmax).map Prod.fst = some (some (m.k, v))
  | _, _, _ => False

/-- The call was an update, and it was made. -/
def Sys.Made : {β : Type} → Sys β → β → Prop
  | _, .btupsert _ _, .ok _ => True
  | _, _, _ => False

/-- The trees are what they were, and so is the image. -/
structure SameTrees (ctx ctx' : GefsCtx) : Prop where
  active : ctx'.activeTree = ctx.activeTree
  snap : ctx'.snapTree = ctx.snapTree
  disk : ctx'.disk = ctx.disk

/-- From `ctx` on the program either ends in an error with the trees as they were in `ctx0`, or
comes to an update after which `n` is in the tree. This update and each one after it leaves its
whole batch in the tree, with no name in it but `n`, those after it only insert, and if the program
then returns 0 the tree it returns with still has `n`. -/
def NameKept (n : Bytes) (ctx0 : GefsCtx) : FsProg (Except Errno Unit) → GefsCtx → Prop
  | .ret r, ctx => (∃ e, r = .error e) ∧ SameTrees ctx0 ctx
  | .fault, _ => False
  | .call p k, ctx => p.Kept n ctx ∧ ∃ b ctx', sysStep p ctx = some (b, ctx')
    ∧ (p.Made b → p.Stores n ctx'
      ∧ Meets sysStep (fun q c => q.Kept n c ∧ q.OnlyInserts) (k b) ctx'
      ∧ ∀ c, run sysStep (k b) ctx' = some (.ok (), c) → p.Stores n c)
    ∧ (¬ p.Made b → NameKept n ctx0 (k b) ctx')

end GefsFuse
