import GefsFuse.Server.Dent

/-!
# The buffers of a walk

`fswalk` once more, with the sizes of the buffers its keys and values go to. `findparent` has the
lookup copy the key of a directory, and behind it the value, which is the directory's own key, to a
buffer that has room for one key only. What a lookup copies depends on which messages have been
flushed: the value in the leaf, and every insertion that still waits. `fl` says of each key how many
of the messages on it are in the leaf.

`WalkRoom` says what names get through.
-/

namespace GefsFuse.Server

open MountSt (WalkVars)

/-- How an operation ends that does not get through: with an error, with one of the assertions of
`packdkey`, `packstr`, `unpackdkey` and `cpkvp`, or with another stop of the server. -/
inductive Halt
  | error (e : Err)
  | asserts
  | stops
  deriving DecidableEq, Repr

namespace Walk

/-- Ends with `h` where there is nothing. -/
def orHalt {α : Type} (x : Option α) (h : Halt) : Except Halt α :=
  match x with
  | some a => .ok a
  | none => .error h

/-! ## Lookups -/

/-- `cpkvp`. -/
def cpkvp (k v : Bytes) (nbuf : ℕ) : Except Halt Unit :=
  if k.length + v.length ≤ nbuf then .ok () else .error .asserts

/-- `apply`, which copies what is inserted. -/
def apply (nbuf : ℕ) (k : Bytes) (v : Option Bytes) (m : GefsMsg) : Except Halt (Option Bytes) :=
  if m.op = .oinsert then (cpkvp k m.v nbuf).map fun _ => some m.v
  else orHalt (serverEff nbuf k v m) .stops

/-- The messages on `k` that are in the leaf. -/
def flushed (t : Entries) (fl : Bytes → ℕ) (k : Bytes) : List GefsMsg :=
  (t.filter (·.k = k)).take (fl k)

/-- The messages on `k` that wait. -/
def pending (t : Entries) (fl : Bytes → ℕ) (k : Bytes) : List GefsMsg :=
  (t.filter (·.k = k)).drop (fl k)

/-- The value in the leaf. -/
def leafValue (t : Entries) (fl : Bytes → ℕ) (k : Bytes) : Option (Option Bytes) :=
  (flushed t fl k).foldlM (serverEff gefsKvmax k) none

/-- `btlookup` with a buffer of `nbuf` bytes. -/
def btlookup (t : Entries) (fl : Bytes → ℕ) (k : Bytes) (nbuf : ℕ) :
    Except Halt (Option Bytes) := do
  let v ← orHalt (leafValue t fl k) .stops
  v.elim (pure ()) fun v => cpkvp k v nbuf
  (pending t fl k).foldlM (apply nbuf k) v

/-- The entry under `k`, looked up with the buffer of `fswalk`. -/
def entry (t : Entries) (fl : Bytes → ℕ) (k : Bytes) : Except Halt (Option GefsXdir) := do
  match ← btlookup t fl k gefsKvmax with
  | none => pure none
  | some v => (orHalt (kv2dir (k, v)) .stops).map some

/-! ## Keys -/

def packdkey (up : Int64) (name : Bytes) : Except Halt Bytes := orHalt (dkey up name) .asserts

def unpackdkey (v : Bytes) : Except Halt (Int64 × Bytes) :=
  if v.length ≤ 9 ∨ v.getD 0 0 ≠ gefsKent then .error .asserts
  else orHalt (gefsUnpackdkey v) .stops

/-- The parent and the name of the directory `up`, looked up with a buffer for one key. -/
def findparent (t : Entries) (fl : Bytes → ℕ) (up : Int64) : Except Halt (Int64 × Bytes) := do
  let v ← btlookup t fl (packupkey up.toUInt64) gefsKeymax
  let v ← orHalt v (.error .esrch)
  unpackdkey v

/-! ## The walk -/

def walkName (t : Entries) (fl : Bytes → ℕ) (w : WalkVars) (name : CStr) :
    Except Halt (Int64 × Bytes) :=
  if name.bytes = [46, 46] then findparent t fl w.up else pure (w.prev.toInt64, name.bytes)

end Walk

/-- The variables of a walk that has found `d` in the directory `prev`. -/
def MountSt.WalkVars.next (w : WalkVars) (prev : Int64) (d : GefsXdir) : WalkVars :=
  ⟨d, prev, d.qid.path, w.d.uid, w.d.gid, w.d.mode, w.wqid ++ [d.qid]⟩

/-- The variables a walk of a fid starts with. -/
def MountSt.WalkVars.first (o : Fid) (d : GefsXdir) : WalkVars :=
  ⟨d, o.pqpath, o.qpath, d.uid, d.gid, d.mode, []⟩

/-- The fid's user may search the directory a walk has come to. -/
def MountSt.WalkVars.searchable (us : Users) (o : Fid) (w : WalkVars) : Bool :=
  fsaccess us o w.d.mode w.d.uid w.d.gid dmexec

namespace Walk

/-- The lookup of one element. -/
def child (t : Entries) (fl : Bytes → ℕ) (w : WalkVars) (name : CStr) :
    Except Halt (Option WalkVars) := do
  let (prev, n) ← walkName t fl w name
  let k ← packdkey prev n
  let d ← entry t fl k
  pure (d.map (w.next prev))

def walkLoop (us : Users) (t : Entries) (fl : Bytes → ℕ) (o : Fid) :
    List CStr → WalkVars → Except Halt (WalkVars × Bool)
  | [], w => pure (w, true)
  | name :: names, w =>
    if maxname < name.bytes.length then .error (.error .elength)
    else if w.searchable us o then do
      match ← child t fl w name with
      | none => pure (w, false)
      | some w => walkLoop us t fl o names w
    else pure (w, false)

def getdent (s : MountSt) (up : Int64) (d : GefsXdir) : Except Halt (MountSt × ℕ) :=
  orHalt (s.getdent up d) .asserts

def walkDir (s : MountSt) (fl : Bytes → ℕ) (w : WalkVars) : Except Halt (MountSt × ℕ) :=
  if w.up = -1 then getdent s w.up w.d
  else do
    let (upup, name) ← findparent s.tree fl w.up
    let k ← packdkey upup name
    let d ← entry s.tree fl k
    let d ← orHalt d .stops
    getdent s upup d

def walkEnd (s : MountSt) (fl : Bytes → ℕ) (i : FidKey) (f : Fid) (w : WalkVars) :
    Except Halt MountSt := do
  let (s1, dent) ← getdent s w.up w.d
  let (s2, dir) ← walkDir s1 fl w
  let s3 := (s2.clunkdent f.dent).clunkdent f.dir
  pure (s3.setFid i (some { f with
    qpath := w.d.qid.path, pqpath := w.up, dent := dent, dir := dir
    duid := w.duid, dgid := w.dgid, dmode := w.dmode }))

/-- What `fswalk` does with the fid where it got through all elements. -/
def walkFid (s : MountSt) (fl : Bytes → ℕ) (i j : FidKey) (names : List CStr) (o : Fid)
    (w : WalkVars) : Except Halt MountSt :=
  if i = j then if names = [] then pure s else walkEnd s fl i o w
  else if (s.fids j).isSome then .error (.error .efid)
  else
    let f := { o with mode := -1 }
    let s := ((s.setFid j (some f)).ref o.dent).ref o.dir
    if names = [] then pure s else walkEnd s fl j f w

/-- `fswalk`, whose error replies are errors here. -/
def fswalk (us : Users) (s : MountSt) (fl : Bytes → ℕ) (i : FidKey) (newfid : UInt32)
    (names : List CStr) : Except Halt (MountSt × Reply) := do
  let o ← orHalt (s.fids i) (.error .enofid)
  if o.mode ≠ -1 then .error (.error .einuse)
  else do
    let de ← orHalt (s.dent o.dent) .stops
    let (w, all) ← walkLoop us s.tree fl o names (.first o de.xdir)
    if w.wqid = [] ∧ names ≠ [] then .error (.error .esrch)
    else if all then
      (walkFid s fl i (i.1, newfid) names o w).map fun s => (s, .rwalk w.wqid)
    else pure (s, .rwalk w.wqid)

/-! ## Names that get through -/

/-- What a lookup of `k` copies: the value in the leaf, and the insertions that wait. -/
def copies (t : Entries) (fl : Bytes → ℕ) (k : Bytes) : List Bytes :=
  (leafValue t fl k).join.toList ++ ((pending t fl k).filter (·.op = .oinsert)).map (·.v)

/-- No name recorded for the directory `up` is longer than 235 bytes. -/
def UpRoom (t : Entries) (fl : Bytes → ℕ) (up : Int64) : Prop :=
  ∀ v ∈ copies t fl (packupkey up.toUInt64), ∀ q name, dkey q name = some v → name.length ≤ 235

/-- The element has not exactly 245 bytes; the directory `..` is looked up in has room. -/
def StepRoom (t : Entries) (fl : Bytes → ℕ) (w : WalkVars) (name : CStr) : Prop :=
  if name.bytes = [46, 46] then UpRoom t fl w.up else name.bytes.length ≠ 245

/-- In the tree the element leads from `w` on to `w'`. -/
def Goes (us : Users) (t : Entries) (o : Fid) (w : WalkVars) (name : CStr) (w' : WalkVars) : Prop :=
  name.bytes.length ≤ maxname ∧ w.searchable us o ∧ ∃ prev n k d,
    (MountSt.walkName t w name).run = some (.ok (prev, n)) ∧ dkey prev n = some k
      ∧ lookupDir t k = some (some d) ∧ w' = w.next prev d

/-- The elements lead from `w` to `w'`. -/
inductive Leads (us : Users) (t : Entries) (o : Fid) : WalkVars → List CStr → WalkVars → Prop
  | nil (w : WalkVars) : Leads us t o w [] w
  | cons {w w1 w' : WalkVars} {name : CStr} {names : List CStr} :
    Goes us t o w name w1 → Leads us t o w1 names w' → Leads us t o w (name :: names) w'

/-- Each element that is looked up has room. -/
def RoomAlong (us : Users) (t : Entries) (fl : Bytes → ℕ) (o : Fid) (w : WalkVars)
    (names : List CStr) : Prop :=
  ∀ pre name post, names = pre ++ name :: post → ∀ w', Leads us t o w pre w' →
    w'.searchable us o → name.bytes.length ≤ maxname → StepRoom t fl w' name

end Walk

/-- Each element that is looked up has room, and if all elements lead somewhere and the new fid is
free, so has the directory the walk ends in. -/
def MountSt.WalkRoom (us : Users) (s : MountSt) (fl : Bytes → ℕ) (i : FidKey) (newfid : UInt32)
    (names : List CStr) : Prop :=
  ∀ o ∈ s.fids i, o.mode = -1 → ∀ de ∈ s.dent o.dent,
    Walk.RoomAlong us s.tree fl o (.first o de.xdir) names
      ∧ ∀ w, Walk.Leads us s.tree o (.first o de.xdir) names w → names ≠ [] →
        i = (i.1, newfid) ∨ s.fids (i.1, newfid) = none → w.up ≠ -1 → Walk.UpRoom s.tree fl w.up

/-- The message is one the operations of a mount put into the tree: an entry inserted has the size
of one, and what is inserted under the key of a directory is a key with a name. -/
def Recorded (m : GefsMsg) : Prop :=
  (m.op = .oinsert → m.k.head? = some gefsKent → m.v.length = xdirsz)
    ∧ (m.k.head? = some gefsKup →
      m.op = .oclobber ∨ m.op = .oinsert ∧ ∃ q name, dkey q name = some m.v)

/-- A mount just made: nothing is open, and its tree has only what the operations put there. -/
structure MountSt.Made (s : MountSt) : Prop where
  dtab : s.dtab = []
  tree : ∀ m ∈ s.tree, Recorded m

end GefsFuse.Server
