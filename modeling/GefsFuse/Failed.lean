import GefsFuse.Names

/-!
# What a failed operation leaves behind

A run of operations with the state before and after each (`opSteps`), and what of a state is seen
by its users: the answers to look-ups in the two trees, and to reads of files (`SameAnswers`). For
the two operations that update more than once there is also what they look at before the first
update.
-/

namespace GefsFuse

open ByteMem Calls

/-- An operation of a run: the state before it, the operation, its answer and the state after. -/
structure OpStep where
  before : GefsCtx
  op : PortOp
  answer : Except Errno ℕ
  after : GefsCtx

/-- The steps of a run of operations. -/
def opSteps : GefsCtx → List PortOp → Option (List OpStep)
  | _, [] => some []
  | ctx, op :: ops => do
    let (r, ctx') ← run sysStep op.prog ctx
    let steps ← opSteps ctx' ops
    some (⟨ctx, op, r, ctx'⟩ :: steps)

/-- Look-ups of every key in the active tree and in the catalog answer the same, and so do reads of
every file. -/
structure SameAnswers (ctx ctx' : GefsCtx) : Prop where
  lookup : ∀ t k, (sysStep (.btlookup t k) ctx').map Prod.fst
    = (sysStep (.btlookup t k) ctx).map Prod.fst
  read : ∀ d size offset, (run sysStep (gefsReadFile .active d size offset) ctx').map Prod.fst
    = (run sysStep (gefsReadFile .active d size offset) ctx).map Prod.fst

/-- The directory of the path is found. -/
def walkParent (path : Bytes) : FsProg (Except Errno Unit) :=
  match splitPath path with
  | none => .ret (.error .einval)
  | some (parent, _) => do
    match ← gefsWalkPath .active parent zeroXdir with
    | (.error e, _) => .ret (.error e)
    | (.ok _, _) => .ret (.ok ())

/-- The file of the path is found, and its directory. -/
def walkFile (path : Bytes) : FsProg (Except Errno Unit) := do
  match ← gefsWalkPath .active path zeroXdir with
  | (.error e, _) => .ret (.error e)
  | (.ok _, _) => walkParent path

end GefsFuse
