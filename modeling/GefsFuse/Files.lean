import GefsFuse.Sys

/-!
# Files and directories

The path operations of `gefs_storage.c`. Each splits its path at the last slash into buffers of
1024 and 256 bytes and walks the two parts on its own. A key that does not fit its buffer makes
the source subtract from a `NULL` pointer: the program faults there.
-/

namespace GefsFuse

open ByteMem Calls

abbrev FsProg := Prog Sys

def slash : UInt8 := 0x2f
def dot : UInt8 := 0x2e

/-- `(parent_path, name)`, none without a slash. -/
def splitPath (path : Bytes) : Option (Bytes × Bytes) :=
  if slash ∉ path then none
  else
    let n := (path.reverse.takeWhile (· ≠ slash)).length
    let i := path.length - n - 1
    if i = 0 then some ([slash], (path.drop 1).take 255)
    else some ((path.take i).take 1023, (path.drop (i + 1)).take 255)

/-- The pieces `strtok_r` cuts from the copy of the path. -/
def pathElems (path : Bytes) : List Bytes :=
  ((path.take 1023).splitOn slash).filter (· ≠ [])

/-- One step down. On failure the entry is left as it was. -/
def gefsWalk1 (t : TreeRef) (pqid : Int64) (name : Bytes) (d : GefsXdir) :
    FsProg (Except Errno Unit × GefsXdir) :=
  match gefsPackdkey gefsKeymax pqid (some name) with
  | none => .ret (.error .einval, d)
  | some k => do
    match ← .one (.btlookup t k) with
    | none => .ret (.error .enoent, d)
    | some kv => do
      let d ← Prog.ofOption (gefsKv2dir kv)
      .ret (.ok (), d)

def walkElems (t : TreeRef) :
    List Bytes → UInt64 → GefsXdir → FsProg (Except Errno Unit × GefsXdir)
  | [], _, d => .ret (.ok (), d)
  | e :: es, q, d =>
    if e = [dot] then walkElems t es q d
    else do
      match ← gefsWalk1 t q.toInt64 e d with
      | (.ok _, d) => walkElems t es d.qid.path d
      | (.error e, d) => .ret (.error e, d)

/-- From the root; the entry is the last one reached. -/
def gefsWalkPath (t : TreeRef) (path : Bytes) (d : GefsXdir) :
    FsProg (Except Errno Unit × GefsXdir) :=
  if path = [slash] ∨ path = [] then gefsWalk1 t (-1) [] d
  else do
    match ← gefsWalk1 t (-1) [] d with
    | (.ok _, d) => walkElems t (pathElems path) d.qid.path d
    | (.error e, d) => .ret (.error e, d)

/-- The entry of a directory for itself has no name. -/
def GefsXdir.named (d : GefsXdir) : Bool :=
  match d.name with
  | some (_ :: _) => true
  | _ => false

/-- The prefix of the entries of directory `q`. -/
def dirPrefix (q : UInt64) : Bytes := pack8 gefsKent ++ pack64 q

/-- The loop over a directory is left after the pairs `kvs`: the last is a named entry, and the
callback, which has seen those before it, answers non-zero. A pair that is no entry is a fault of
its own, and the loop goes no further. -/
def listStop (callback : List GefsXdir → Bool) (kvs : List GefsKvp) : Bool :=
  match kvs.mapM gefsKv2dir with
  | none => true
  | some ds => ds.getLast?.any GefsXdir.named && callback (ds.filter GefsXdir.named)

/-- The entries handed to the callback. -/
def gefsListDir (t : TreeRef) (q : UInt64) (callback : List GefsXdir → Bool) :
    FsProg (List GefsXdir) := do
  let kvs ← .one (.btscan t (dirPrefix q) (listStop callback))
  let ds ← Prog.ofOption (kvs.mapM gefsKv2dir)
  .ret (ds.filter GefsXdir.named)

/-! Reading and writing. -/

/-- `n` bytes from `inOff` on of the block a lookup found, zeros where there is none to read. -/
def readBlock (got : Option GefsKvp) (inOff n : ℕ) : FsProg Bytes :=
  match got with
  | none => .ret (List.replicate n 0)
  | some kv => do
    let bp ← Prog.ofOption (valBptr kv.2)
    match ← .one (.getblk bp) with
    | some b => .ret (load b.buf (b.data + inOff) n)
    | none => .ret (List.replicate n 0)

/-- The bytes of at most one block at `off`, and from there on. -/
def readLoop (t : TreeRef) (q : UInt64) : ℕ → ℕ → UInt64 → FsProg Bytes
  | 0, _, _ => .ret []
  | fuel + 1, size, off =>
    if size = 0 then .ret []
    else do
      let inOff := (off % 16384).toNat
      let n := min (gefsBlksz - inOff) size
      let got ← .one (.btlookup t (packdatkey q (off / 16384 * 16384)))
      let bs ← readBlock got inOff n
      let rest ← readLoop t q fuel (size - n) (off + UInt64.ofNat n)
      .ret (bs ++ rest)

def gefsReadFile (t : TreeRef) (d : GefsXdir) (size : UInt64) (offset : Int64) : FsProg Bytes :=
  if d.length.toInt64 ≤ offset then .ret []
  else
    let size := if d.length < offset.toUInt64 + size then d.length - offset.toUInt64 else size
    readLoop t d.qid.path size.toNat size.toNat offset.toUInt64

/-- The bytes of the block a write starts from: the old ones, or zeros. -/
def oldBlock (kv : Option GefsKvp) : FsProg Mem :=
  match kv with
  | none => .ret fun _ => 0
  | some kv => do
    let bp ← Prog.ofOption (valBptr kv.2)
    match ← .one (.getblk bp) with
    | some b => .ret b.buf
    | none => .ret fun _ => 0

/-- One block after the other; the offset reached, none out of space. The answers of the updates
are not looked at. -/
def writeLoop (q : UInt64) : ℕ → Bytes → UInt64 → FsProg (Option UInt64)
  | 0, _, off => .ret (some off)
  | fuel + 1, buf, off =>
    if buf = [] then .ret (some off)
    else do
      let inOff := (off % 16384).toNat
      let n := min (gefsBlksz - inOff) buf.length
      let k := packdatkey q (off / 16384 * 16384)
      let old ← .one (.btlookup .active k)
      let m ← oldBlock old
      match ← .one (.writedat (store m inOff (buf.take n))) with
      | none => .ret none
      | some bp => do
        let _ ← .one (.btupsert .active [⟨.oinsert, k, gefsPackbp bp, []⟩])
        writeLoop q fuel (buf.drop n) (off + UInt64.ofNat n)

/-- `Kent{pqid, name}` bound to `d`. -/
def insertEntry (pqid : UInt64) (name : Bytes) (d : GefsXdir) : FsProg (Except Errno Unit) := do
  let k ← Prog.ofOption (gefsPackdkey gefsKeymax pqid.toInt64 (some name))
  let v ← Prog.ofOption (gefsPackdval gefsInlmax d)
  .one (.btupsert .active [⟨.oinsert, k, v, []⟩])

/-- `d.length` after a write that ended at `off`. -/
def grownLength (d : GefsXdir) (off : UInt64) : UInt64 :=
  if d.length.toInt64 < off.toInt64 then off else d.length

def gefsWriteFile (path : Bytes) (buf : Bytes) (offset now : Int64) : FsProg (Except Errno ℕ) := do
  match ← gefsWalkPath .active path zeroXdir with
  | (.error e, _) => .ret (.error e)
  | (.ok _, d) =>
    match splitPath path with
    | none => .ret (.error .einval)
    | some (parent, name) => do
      match ← gefsWalkPath .active parent zeroXdir with
      | (.error e, _) => .ret (.error e)
      | (.ok _, pdir) => do
        match ← writeLoop d.qid.path buf.length buf offset.toUInt64 with
        | none => .ret (.error .enospc)
        | some off => do
          -- the answers of the two walks are not looked at
          let (_, pdir) ← gefsWalkPath .active parent pdir
          let (_, d) ← gefsWalk1 .active pdir.qid.path.toInt64 name d
          let _ ← insertEntry pdir.qid.path name
            { d with
              length := grownLength d off
              mtime := now
              qid := { d.qid with vers := d.qid.vers + 1 } }
          .ret (.ok buf.length)

/-! Operations that rewrite an entry. -/

/-- The entry at `path` found by a walk, and put back under the last component of the path as `f`
leaves it, its version raised. -/
def rewriteEntry (path : Bytes) (f : GefsXdir → GefsXdir) : FsProg (Except Errno Unit) := do
  match ← gefsWalkPath .active path zeroXdir with
  | (.error e, _) => .ret (.error e)
  | (.ok _, d) =>
    match splitPath path with
    | none => .ret (.error .einval)
    | some (parent, name) => do
      match ← gefsWalkPath .active parent zeroXdir with
      | (.error e, _) => .ret (.error e)
      | (.ok _, pdir) =>
        let d := f d
        insertEntry pdir.qid.path name { d with qid := { d.qid with vers := d.qid.vers + 1 } }

def gefsTruncateFile (path : Bytes) (size now : Int64) : FsProg (Except Errno Unit) :=
  rewriteEntry path fun d => { d with length := size.toUInt64, mtime := now }

def gefsChmodEntry (path : Bytes) (mode : UInt32) : FsProg (Except Errno Unit) :=
  rewriteEntry path fun d => { d with mode := (d.mode &&& ~~~0o777) ||| (mode &&& 0o777) }

/-- -1 leaves a field as it is. -/
def gefsChownEntry (path : Bytes) (uid gid : UInt32) : FsProg (Except Errno Unit) :=
  rewriteEntry path fun d =>
    { d with
      uid := if uid ≠ -1 then uid.toInt32 else d.uid
      gid := if gid ≠ -1 then gid.toInt32 else d.gid }

/-- `tv` the two times, none for now. -/
def gefsUtimensEntry (path : Bytes) (tv : Option (Int64 × Int64)) (now : Int64) :
    FsProg (Except Errno Unit) :=
  rewriteEntry path fun d =>
    match tv with
    | some (a, m) => { d with atime := a, mtime := m }
    | none => { d with atime := now, mtime := now }

/-! Creation. -/

/-- Who calls, and when. -/
structure Caller where
  uid : Int32
  gid : Int32
  now : Int64

/-- A new entry. -/
def newEntry (c : Caller) (q : UInt64) (type : UInt8) (mode : UInt32) (name : Bytes) : GefsXdir :=
  { zeroXdir with
    qid := ⟨q, 0, type⟩
    mode := mode
    atime := c.now
    mtime := c.now
    uid := c.uid
    gid := c.gid
    muid := c.uid
    name := some name }

def gefsCreateFile (c : Caller) (path : Bytes) (mode : UInt32) : FsProg (Except Errno Unit) :=
  match splitPath path with
  | none => .ret (.error .einval)
  | some (parent, name) => do
    match ← gefsWalkPath .active parent zeroXdir with
    | (.error e, _) => .ret (.error e)
    | (.ok _, pdir) => do
      match ← gefsWalk1 .active pdir.qid.path.toInt64 name zeroXdir with
      | (.ok _, _) => .ret (.error .eexist)
      | (.error _, _) => do
        let q ← .one .nextqid
        insertEntry pdir.qid.path name (newEntry c q gefsQtfile (mode &&& 0o777) name)

def gefsCreateDir (c : Caller) (path : Bytes) (mode : UInt32) : FsProg (Except Errno Unit) :=
  match splitPath path with
  | none => .ret (.error .einval)
  | some (parent, name) => do
    match ← gefsWalkPath .active parent zeroXdir with
    | (.error e, _) => .ret (.error e)
    | (.ok _, pdir) => do
      match ← gefsWalk1 .active pdir.qid.path.toInt64 name zeroXdir with
      | (.ok _, _) => .ret (.error .eexist)
      | (.error _, _) => do
        let q ← .one .nextqid
        let d := newEntry c q gefsQtdir (gefsDmdir ||| (mode &&& 0o777)) name
        let k ← Prog.ofOption (gefsPackdkey gefsKeymax pdir.qid.path.toInt64 (some name))
        let v ← Prog.ofOption (gefsPackdval gefsInlmax d)
        let up ← Prog.ofOption (gefsPackdkey gefsInlmax pdir.qid.path.toInt64 (some name))
        .one (.btupsert .active [⟨.oinsert, k, v, []⟩, ⟨.oinsert, packupkey q, up, []⟩])

/-- There is no check for an entry of that name. The target is written through
`gefs_write_file`, and the entry then put back with its type. -/
def gefsCreateSymlink (c : Caller) (target linkpath : Bytes) : FsProg (Except Errno Unit) :=
  match splitPath linkpath with
  | none => .ret (.error .einval)
  | some (parent, name) => do
    match ← gefsWalkPath .active parent zeroXdir with
    | (.error e, _) => .ret (.error e)
    | (.ok _, pdir) => do
      let q ← .one .nextqid
      let d := newEntry c q gefsQtsymlink 0o777 name
      match ← insertEntry pdir.qid.path name d with
      | .error e => .ret (.error e)
      | .ok _ => do
        match ← gefsWriteFile linkpath target 0 c.now with
        | .error e => .ret (.error e)
        | .ok _ => do
          -- the answers of the two walks are not looked at
          let (_, pdir) ← gefsWalkPath .active parent pdir
          let (_, d) ← gefsWalk1 .active pdir.qid.path.toInt64 name d
          insertEntry pdir.qid.path name { d with qid := { d.qid with type := gefsQtsymlink } }

/-! Removal and rename. -/

def gefsUnlinkEntry (path : Bytes) : FsProg (Except Errno Unit) := do
  match ← gefsWalkPath .active path zeroXdir with
  | (.error e, _) => .ret (.error e)
  | (.ok _, d) =>
    if d.qid.type &&& gefsQtdir ≠ 0 then .ret (.error .eisdir)
    else match splitPath path with
      | none => .ret (.error .einval)
      | some (parent, name) => do
        match ← gefsWalkPath .active parent zeroXdir with
        | (.error e, _) => .ret (.error e)
        | (.ok _, pdir) => do
          let k ← Prog.ofOption (gefsPackdkey gefsKeymax pdir.qid.path.toInt64 (some name))
          .one (.btupsert .active [⟨.odelete, k, [], []⟩])

/-- The loop that looks for an entry is the one of `gefs_list_dir`, left at the first. -/
def gefsRmdirEntry (path : Bytes) : FsProg (Except Errno Unit) := do
  match ← gefsWalkPath .active path zeroXdir with
  | (.error e, _) => .ret (.error e)
  | (.ok _, d) =>
    if d.qid.type &&& gefsQtdir = 0 ∧ d.mode &&& gefsDmdir = 0 then .ret (.error .enotdir)
    else do
      let ds ← gefsListDir .active d.qid.path fun _ => true
      if ds ≠ [] then .ret (.error .enotempty)
      else match splitPath path with
        | none => .ret (.error .einval)
        | some (parent, name) => do
          match ← gefsWalkPath .active parent zeroXdir with
          | (.error e, _) => .ret (.error e)
          | (.ok _, pdir) => do
            let k ← Prog.ofOption (gefsPackdkey gefsKeymax pdir.qid.path.toInt64 (some name))
            .one (.btupsert .active
              [⟨.odelete, k, [], []⟩, ⟨.odelete, packupkey d.qid.path, [], []⟩])

/-- The old key deleted and the new one inserted, whatever is there. -/
def gefsRenameEntry (oldpath newpath : Bytes) : FsProg (Except Errno Unit) := do
  match ← gefsWalkPath .active oldpath zeroXdir with
  | (.error e, _) => .ret (.error e)
  | (.ok _, d) =>
    match splitPath oldpath, splitPath newpath with
    | some (oldParent, oldName), some (newParent, newName) => do
      match ← gefsWalkPath .active oldParent zeroXdir with
      | (.error e, _) => .ret (.error e)
      | (.ok _, oldPdir) => do
        match ← gefsWalkPath .active newParent zeroXdir with
        | (.error e, _) => .ret (.error e)
        | (.ok _, newPdir) => do
          let kd ← Prog.ofOption (gefsPackdkey gefsKeymax oldPdir.qid.path.toInt64 (some oldName))
          let ki ← Prog.ofOption (gefsPackdkey gefsKeymax newPdir.qid.path.toInt64 (some newName))
          let v ← Prog.ofOption (gefsPackdval gefsInlmax
            { d with qid := { d.qid with vers := d.qid.vers + 1 }, name := some newName })
          .one (.btupsert .active [⟨.odelete, kd, [], []⟩, ⟨.oinsert, ki, v, []⟩])
    | _, _ => .ret (.error .einval)

end GefsFuse
