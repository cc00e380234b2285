import GefsFuse.Proofs.ServerLookup

/-!
# The entries of a mount

The tree of a mount as its lookups see it: the messages upserted so far, the oldest first, each
lookup applying those on its key. `Wstat` is the message with which the operations of `fs.c` change
an entry, its fields packed in the order of their flag bits.
-/

namespace GefsFuse.Server

open ByteMem

/-- The messages upserted so far. -/
abbrev Entries := List GefsMsg

namespace Entries

/-- The value under `k`; none where the lookup stops on a message that does not apply. -/
def find (t : Entries) (k : Bytes) : Option (Option Bytes) :=
  (t.filter (·.k = k)).foldlM (serverEff gefsKvmax k) none

/-- Whether a scan of the keys that begin with `pfx` finds one; none where the scan stops. -/
def scan (t : Entries) (pfx : Bytes) : Option Bool :=
  let ks := (t.map (·.k)).filter pfx.isPrefixOf
  if ks.any fun k => t.find k = none then none
  else some (ks.any fun k => (t.find k).join.isSome)

end Entries

/-- The directory entry under `k`; none where the server stops. -/
def lookupDir (t : Entries) (k : Bytes) : Option (Option GefsXdir) := do
  match ← t.find k with
  | none => some none
  | some v => (kv2dir (k, v)).map some

/-- `packdkey` into a key buffer. -/
def dkey (up : Int64) (name : Bytes) : Option Bytes := gefsPackdkey gefsKeymax up (some name)

/-- Whether `name` is taken in the directory `up`. -/
def walk1 (t : Entries) (up : Int64) (name : Bytes) : Option Bool := do
  let k ← dkey up name
  (← lookupDir t k).isSome

/-- `dir2kv` as an insertion. -/
def insertDir (up : Int64) (d : GefsXdir) : Option GefsMsg := do
  let k ← dkey up (← d.name)
  let v ← gefsPackdval (gefsKvmax - k.length) d
  some ⟨.oinsert, k, v, []⟩

/-- The key of a directory, put under its qid path. -/
def superMsg (dir : Bool) (path : UInt64) (k : Bytes) : List GefsMsg :=
  if dir then [⟨.oinsert, packupkey path, k, []⟩] else []

/-- The fields a wstat message sets. -/
structure Wstat where
  size : Option UInt64
  mode : Option UInt32
  mtime : Option Int64
  uid : Option Int32
  gid : Option Int32
  muid : Option Int32
  deriving DecidableEq, Repr

namespace Wstat

/-- Only the version, which every wstat bumps. -/
def bump : Wstat := ⟨none, none, none, none, none, none⟩

/-- The flags `Owsize`, `Owmode`, `Owmtime`, `Owuid`, `Owgid` and `Owmuid`. -/
def op (w : Wstat) : UInt8 :=
  (if w.size.isSome then 1 else 0) ||| (if w.mode.isSome then 2 else 0)
    ||| (if w.mtime.isSome then 4 else 0) ||| (if w.uid.isSome then 16 else 0)
    ||| (if w.gid.isSome then 32 else 0) ||| (if w.muid.isSome then 64 else 0)

/-- The bytes of an optional field. -/
def field {α : Type} (f : α → Bytes) (x : Option α) : Bytes := (x.map f).getD []

def pack (w : Wstat) : Bytes :=
  [w.op] ++ field pack64 w.size ++ field pack32 w.mode ++ field (pack64 ·.toUInt64) w.mtime
    ++ field (pack32 ·.toUInt32) w.uid ++ field (pack32 ·.toUInt32) w.gid
    ++ field (pack32 ·.toUInt32) w.muid

/-- The message on the entry under `k`. -/
def msg (k : Bytes) (w : Wstat) : GefsMsg := ⟨.owstat, k, w.pack, []⟩

/-- The fields set in an entry. The type of a qid is the high byte of the mode. -/
def upd (w : Wstat) (d : GefsXdir) : GefsXdir :=
  { d with
    length := w.size.getD d.length
    mode := w.mode.getD d.mode
    qid := { d.qid with type := (w.mode.map fun m : UInt32 => (m >>> 24).toUInt8).getD d.qid.type }
    mtime := w.mtime.getD d.mtime
    uid := w.uid.getD d.uid
    gid := w.gid.getD d.gid
    muid := w.muid.getD d.muid }

end Wstat

/-- The version of an entry bumped. -/
def bumpVers (d : GefsXdir) : GefsXdir :=
  { d with qid := { d.qid with vers := d.qid.vers + 1 } }

end GefsFuse.Server
