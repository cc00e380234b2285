import GefsFuse.Format

/-!
# The user table of the original server

`parseusers` reads the text twice, the users first and then who leads them and who their members
are, and puts the table in place once both passes are done. `readline` cuts a line that does not fit
into its buffer. The text ends at its first NUL; one of less than 2^31 lines, so that no count wraps.

What the source takes from outside is `Env`: whether memory can be had, what `realloc` leaves in
the memory it adds, and what `snprint` stores of a name.
-/

namespace GefsFuse.Server.Users

structure User where
  id : Int32
  lead : Int32
  memb : List Int32
  name : Bytes
  deriving DecidableEq, Repr

inductive Err
  | enomem | esyntax | enouser
  deriving DecidableEq, Repr

/-- `grow n` says whether a table of `n` users can be doubled, `memb i j` whether the list of the
`i`-th user can take its `j`-th member. `junk i` is what the memory holds where the leader of the
`i`-th user goes when `realloc` adds it, and `snprint` gives what `name` has room for: the characters
that fit whole, and of bytes that are no characters whatever the library makes of them. -/
structure Env where
  calloc : Bool
  grow : ℕ → Bool
  memb : ℕ → ℕ → Bool
  junk : ℕ → Int32
  snprint : Bytes → Bytes

/-- The users the table has room for at first. -/
def usersz : ℕ := 8

/-- The leader of the `i`-th user before one is set: `calloc` clears the memory, `realloc` does
not. -/
def Env.lead (e : Env) (i : ℕ) : Int32 := if i < usersz then 0 else e.junk i

/-! ## Reading -/

/-- The bytes before the first NUL. -/
def cstr (s : Bytes) : Bytes := s.takeWhile (· ≠ 0)

/-- The next line, as much of it as goes into `nbuf` bytes, and the text behind it. -/
def readline (nbuf : ℕ) (p : Bytes) : Option (Bytes × Bytes) :=
  match p.dropWhile (· ≠ 10) with
  | [] => none
  | _ :: rest =>
    let n := (p.takeWhile (· ≠ 10)).length + 1
    let n := if nbuf ≤ n then nbuf - 1 else n
    some (p.take (n - 1), rest)

/-- The field up to the next `delim`, and what is left behind it. -/
def getfield (p : Option Bytes) (delim : UInt8) : Option Bytes × Option Bytes :=
  match p with
  | none => (none, none)
  | some s => (some (s.takeWhile (· ≠ delim)),
      match s.dropWhile (· ≠ delim) with
      | [] => none
      | _ :: rest => some rest)

/-- All that `readline` returns; `fuel` bounds the lines. -/
def readlines (nbuf : ℕ) : ℕ → Bytes → List Bytes
  | 0, _ => []
  | fuel + 1, p =>
    match readline nbuf p with
    | none => []
    | some (l, rest) => l :: readlines nbuf fuel rest

/-- All that `getfield` returns; `fuel` bounds the fields. -/
def getfields (delim : UInt8) : ℕ → Option Bytes → List Bytes
  | 0, _ => []
  | fuel + 1, p =>
    match getfield p delim with
    | (none, _) => []
    | (some f, rest) => f :: getfields delim fuel rest

/-- The value of a digit of base `b`. -/
def digit (b : ℕ) (c : UInt8) : Option ℕ :=
  let n := c.toNat
  let d := if 48 ≤ n ∧ n ≤ 57 then some (n - 48)
    else if 97 ≤ n ∧ n ≤ 102 then some (n - 87)
    else if 65 ≤ n ∧ n ≤ 70 then some (n - 55)
    else none
  d.filter (· < b)

def digits (b : ℕ) : Bytes → Int32 → Int32
  | [], n => n
  | c :: cs, n =>
    match digit b c with
    | none => n
    | some d => digits b cs (n * Int32.ofNat b + Int32.ofNat d)

def blank (c : UInt8) : Bool := c = 32 ∨ c = 9

/-- The number behind the sign; base 8 behind a 0, base 16 behind 0x. -/
def unsigned : Bytes → Int32
  | 48 :: 120 :: s => digits 16 s 0
  | 48 :: 88 :: s => digits 16 s 0
  | 48 :: c :: s => digits 8 (c :: s) 0
  | s => digits 10 s 0

def atol (s : Bytes) : Int32 :=
  match s.dropWhile blank with
  | 45 :: s => -unsigned (s.dropWhile blank)
  | 43 :: s => unsigned (s.dropWhile blank)
  | s => unsigned s

/-! ## The two passes -/

/-- A comment, or nothing. -/
def skipped (p : Bytes) : Bool := p.head? = some 35 ∨ p = []

/-- The user of the name `f`, the last one if there are several. -/
def find (us : List User) (f : Bytes) : Option User :=
  us.foldl (fun u x => if x.name = f then some x else u) none

/-- The table filled with the ids and names of the lines, `sz` being what it has room for. -/
def ids (e : Env) : List Bytes → ℕ → List User → Except Err (List User)
  | [], _, us => .ok us
  | p :: ps, sz, us =>
    if skipped p then ids e ps sz us
    else if us.length = sz ∧ e.grow sz = false then .error .enomem
    else
      let sz := if us.length = sz then 2 * sz else sz
      match getfield (some p) 58 with
      | (none, _) => .error Err.esyntax
      | (some id, p) =>
        match getfield p 58 with
        | (none, _) => .error Err.esyntax
        | (some name, _) =>
          ids e ps sz (us ++ [⟨atol id, e.lead us.length, [], e.snprint name⟩])

/-- The ids of the members named, `grp` those of the names before. -/
def members (e : Env) (us : List User) (i : ℕ) : List Bytes → List Int32 → Except Err (List Int32)
  | [], grp => .ok grp
  | m :: ms, grp =>
    if m = [] then members e us i ms grp
    else match find us m with
      | none => .error .enouser
      | some u =>
        if e.memb i grp.length then members e us i ms (grp ++ [u.id]) else .error .enomem

/-- The leaders and members of the lines filled in, the next line being the `i`-th user's. -/
def groups (e : Env) : List Bytes → ℕ → List User → Except Err (List User)
  | [], _, us => .ok us
  | p :: ps, i, us =>
    if skipped p then groups e ps i us
    else
      let (_, p) := getfield (some p) 58
      let (_, p) := getfield p 58
      match getfield p 58 with
      | (none, _) => .error Err.esyntax
      | (some f, p) => do
        let us ←
          if f ≠ [] then
            match find us f with
            | none => .error .enouser
            | some u => .ok (us.modify i fun x => { x with lead := u.id })
          else .ok us
        match getfield p 58 with
        | (none, _) => .error Err.esyntax
        | (some f, _) => do
          let grp ← members e us i (getfields 44 (f.length + 1) (some f)) []
          groups e ps (i + 1) (us.modify i fun x => { x with memb := grp })

/-- What is returned, and the table in place afterwards. -/
def parseusers (e : Env) (users : List User) (udata : Bytes) : Option Err × List User :=
  if e.calloc = false then (some .enomem, users)
  else
    let ls := readlines 8192 (udata.length + 1) (cstr udata)
    match ids e ls usersz [] >>= groups e ls 0 with
    | .ok us => (none, us)
    | .error x => (some x, users)

end GefsFuse.Server.Users
