import GefsFuse.Proofs.ServerDent

/-!
# The messages of a wstat

`fswstat`, `fsopen` and `fswrite` each pack the message that changes an entry on their own: a flag
for each field, and behind the flags the fields, in the order in which `statupdate` takes them.
`StatsDecode` says what comes out. `WstatKept` says that a Twstat that is refused has changed
nothing.
-/

namespace GefsFuse.Server

/-! ## The encoders -/

def owsize : UInt8 := 1
def owmode : UInt8 := 2
def owmtime : UInt8 := 4
def owuid : UInt8 := 16
def owgid : UInt8 := 32
def owmuid : UInt8 := 64

/-- The buffer of a message: its flags, and the bytes packed so far. -/
structure OpBuf where
  op : UInt8
  v : Bytes

namespace OpBuf

def put (b : OpBuf) (flag : UInt8) (v : Bytes) : OpBuf := ⟨b.op ||| flag, b.v ++ v⟩

/-- A field that changes is packed. -/
def putOpt {α : Type} (b : OpBuf) (flag : UInt8) (f : α → Bytes) (x : Option α) : OpBuf :=
  x.elim b fun x => b.put flag (f x)

def msg (b : OpBuf) (k : Bytes) : GefsMsg := ⟨.owstat, k, b.op :: b.v, []⟩

end OpBuf

def pack32i (x : Int32) : Bytes := pack32 x.toUInt32

def pack64i (x : Int64) : Bytes := pack64 x.toUInt64

/-- The buffer of `fswstat`, each field as its check passes. -/
def fswstatBuf (w : Wstat) : OpBuf :=
  (((((OpBuf.mk 0 []).putOpt owsize pack64 w.size).putOpt owmode pack32 w.mode).putOpt
    owmtime pack64i w.mtime).putOpt owuid pack32i w.uid).putOpt owgid pack32i w.gid
    |>.putOpt owmuid pack32i w.muid

/-- The buffer of `fsopen`. -/
def fsopenBuf (uid : Int32) : OpBuf := ⟨owsize ||| owmuid, pack64 0 ++ pack32i uid⟩

/-- The buffer of `fswrite`, whose bytes end at `o`. -/
def fswriteBuf (length o : UInt64) (now : Int64) (uid : Int32) : OpBuf :=
  let b : OpBuf := ⟨0, []⟩
  let b := if length < o then b.put owsize (pack64 o) else b
  (b.put owmtime (pack64i now)).put owmuid (pack32i uid)

/-! ## What comes out -/

/-- The message is on `k`, `statupdate` uses it up, and it takes an entry like `old` to one like
`new`. The name is the key's. -/
def Decodes (m : GefsMsg) (k : Bytes) (old new : GefsXdir) : Prop :=
  m.op = .owstat ∧ m.k = k ∧ ∀ v d, kv2dir (k, v) = some d → unnamed d = unnamed old →
    ∃ v' d', statupdate (k, v) m = some (k, v') ∧ kv2dir (k, v') = some d' ∧ d'.name = d.name
      ∧ unnamed d' = unnamed new

namespace MountSt

/-- The message of an operation that gets through. That of a Twstat that does not rename makes the
entry the one that is left in memory, that of a truncating Topen sets length and `muid`, and that of
a Twrite, whose bytes end at `e`, length, `mtime` and `muid`. -/
def StatsDecode (us : Users) (s : MountSt) : MountOp → Prop
  | .wstat i r => ∀ f de d w s', (s.wstatCheck i r).run = some (.ok (f, de, d, false)) →
      (wstatFields us f de d false).run = some (.ok w) → s.fswstat us i r = some (s', .ok) →
      s'.tree = s.tree ++ [(fswstatBuf w).msg de.k]
        ∧ ∃ de', s'.dent f.dent = some de' ∧ Decodes ((fswstatBuf w).msg de.k) de.k de.xdir de'.xdir
  | .topen i mode => ∀ f de d s' q, (s.openCheck us i mode).run = some (.ok (f, de, d)) →
      truncates de mode → s.fsopen us i mode = some (s', .ropen q) →
      s'.tree = s.tree ++ [(fsopenBuf f.uid).msg de.k]
        ∧ Decodes ((fsopenBuf f.uid).msg de.k) de.k de.xdir
          { bumpVers de.xdir with length := 0, muid := f.uid }
  | .write i r => ∀ f de ms e s' n, (s.writeCheck i).run = some (.ok (f, de)) →
      (writeLoop f.qpath 4 (if de.xdir.mode &&& dmappend ≠ 0 then de.xdir.length else r.offset)
        r.count r.bps).run = some (.ok (ms, e)) → s.fswrite i r = some (s', .rwrite n) →
      s'.tree = s.tree ++ (ms ++ [(fswriteBuf de.xdir.length e r.now f.uid).msg de.k])
        ∧ Decodes ((fswriteBuf de.xdir.length e r.now f.uid).msg de.k) de.k de.xdir
          { bumpVers de.xdir with
            length := if de.xdir.length < e then e else de.xdir.length
            mtime := r.now
            muid := f.uid }
  | _ => True

/-! ## A refusal -/

/-- The references to the mount after a Twstat, where there were `n`. The message to the sweeper
takes one, which `freeamsg` gives back if the Twstat is refused. -/
def wstatMountRefs (us : Users) (s : MountSt) (i : FidKey) (r : WstatReq) (n : ℕ) : ℕ :=
  match (s.wstatCheck i r).run, s.fswstat us i r with
  | some (.ok (f, de, d, _)), some (_, .rerror _) =>
    let taken := (s.wstatSize f de d).2.toList.length
    n + taken - taken
  | some (.ok (f, de, d, _)), some _ => n + (s.wstatSize f de d).2.toList.length
  | _, _ => n

/-- Two entries have the same fields, the same key, as many references, and a truncation is under way
of both or of neither. -/
def SameDent (a b : Dent) : Prop :=
  a.xdir.length = b.xdir.length ∧ a.xdir.mode = b.xdir.mode ∧ a.xdir.uid = b.xdir.uid
    ∧ a.xdir.gid = b.xdir.gid ∧ a.xdir.muid = b.xdir.muid ∧ a.xdir.mtime = b.xdir.mtime
    ∧ a.xdir.atime = b.xdir.atime ∧ a.k = b.k ∧ a.trunc = b.trunc ∧ a.ref = b.ref

/-- A Twstat that left `s'` has changed neither the entry of its fid, nor the references to it and
to the mount, nor the tree, and the sweeper has nothing more to do. -/
def WstatKept (us : Users) (s : MountSt) (i : FidKey) (r : WstatReq) (s' : MountSt) : Prop :=
  (∀ f ∈ s.fids i, ∀ de ∈ s.dent f.dent, ∃ de' ∈ s'.dent f.dent, SameDent de' de)
    ∧ (∀ n, wstatMountRefs us s i r n = n) ∧ s'.tree = s.tree ∧ s'.adm = s.adm

end MountSt

end GefsFuse.Server
