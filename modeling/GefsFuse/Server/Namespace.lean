import GefsFuse.Server.Dent

/-!
# The names of a mount

What the entries of a mount are as a tree of names: each lies in a directory that is there, and
each directory has its key under its qid path (`Namespace`). `Orderly` is when an operation keeps
it so. It asks nothing of most of them: only that a create goes on in a directory that is there,
and that what is removed on close is there still, and empty if it is a directory.
-/

namespace GefsFuse.Server

/-- Whether an entry is a directory by its qid. -/
def isDir (d : GefsXdir) : Bool := d.qid.type &&& gefsQtdir ≠ 0

/-- The qid path of the entry under `k`, and whether it is a directory. -/
def spot (t : Entries) (k : Bytes) : Option (UInt64 × Bool) :=
  (lookupDir t k).join.map fun d => (d.qid.path, isDir d)

/-- An entry is a directory by its mode too. -/
def ModeOk (d : GefsXdir) : Prop := d.mode &&& gefsDmdir ≠ 0 ↔ isDir d = true

instance (d : GefsXdir) : Decidable (ModeOk d) := by
  unfold ModeOk
  infer_instance

/-- Every entry but the root is in a directory that is there and older, no two have one qid path,
and the keys under the qid paths are those of the directories. -/
structure Namespace (t : Entries) : Prop where
  up : ∀ k q dir, spot t k = some (q, dir) → dkey (-1) [] = some k ∨
    ∃ (p : UInt64) (name : CStr) (k' : Bytes), dkey p.toInt64 name.bytes = some k
      ∧ name.bytes ≠ [] ∧ p.toNat < q.toNat ∧ spot t k' = some (p, true)
  own : ∀ k k' q dir dir', spot t k = some (q, dir) → spot t k' = some (q, dir') → k = k'
  kup : ∀ q v, t.find (packupkey q) = some (some v) ↔ spot t v = some (q, true)
  mode : ∀ k d, lookupDir t k = some (some d) → ModeOk d

/-- No lookup stops, and neither does the reading of an entry. -/
def Answers (t : Entries) : Prop :=
  (∀ k, t.find k ≠ none) ∧ ∀ up name k, dkey up name = some k → lookupDir t k ≠ none

namespace MountSt

/-- The entry that is open is in the tree. -/
def there (s : MountSt) (de : Dent) : Bool :=
  (spot s.tree de.k).any fun x => x.1 = de.xdir.qid.path

/-- Nothing is in the directory `q`. -/
def empty (s : MountSt) (q : UInt64) : Bool :=
  (gefsPackdkey gefsKeymax q.toInt64 none).any fun pfx => s.tree.scan pfx = some false

end MountSt

/-- What keeps the names in order. A Tcreate that is not refused has a fid of a directory that is
there, and qid paths are not used up. A file removed on close is still there, and if it is a
directory then nothing is in it. -/
def Orderly (us : Users) : MountOp → MountSt → Prop
  | .create i r, s => (s.createCheck us i r).Passes fun x =>
    s.there x.2 ∧ isDir x.2.xdir ∧ s.nextqid.toNat + 1 < 2 ^ 63
  | .sweep, s => ∀ a ∈ s.adm.head?, a.rclose → ∀ p ∈ a.dent, ∀ de ∈ s.dent p,
    s.there de ∧ (isDir de.xdir → s.empty a.qpath)
  | _, _ => True

instance (us : Users) : ∀ (op : MountOp) (s : MountSt), Decidable (Orderly us op s)
  | .create i r, s => inferInstanceAs (Decidable ((s.createCheck us i r).Passes fun x =>
      s.there x.2 ∧ isDir x.2.xdir ∧ s.nextqid.toNat + 1 < 2 ^ 63))
  | .sweep, s => inferInstanceAs (Decidable (∀ a ∈ s.adm.head?, a.rclose → ∀ p ∈ a.dent,
      ∀ de ∈ s.dent p, s.there de ∧ (isDir de.xdir → s.empty a.qpath)))
  | .attach _ _ _, _ | .walk _ _ _, _ | .stat _, _ | .clunk _, _ | .write _ _, _ | .wstat _ _, _
  | .remove _, _ | .topen _ _, _ => .isTrue trivial

end GefsFuse.Server
