import GefsFuse.Lib.Trans
import Mathlib.Algebra.Ring.Int.Defs
import Mathlib.Data.Fintype.Basic

/-!
# Epochs of the original server

`limbo`, `epochstart`, `epochend`, `epochwait` and `epochclean` of `blk.c`, run by any number of
workers. Each atomic get, set, swap, count or compare-and-swap is one step, and so is the release
of one item of a list that `epochclean` took off.

An item is put on a limbo list when it has been unlinked; its ticket counts the calls of `limbo`.
What a release does with the item, by its `op`, is not modelled: here it is gone.
-/

namespace GefsFuse.Server

/-- An item on a limbo list: its address, and which call of `limbo` put it there. -/
structure Limbo where
  ptr : ℕ
  ticket : ℕ
  deriving DecidableEq, Repr

/-- An element of `lepoch`: an epoch, and the bit `Eactive`. -/
structure Lepoch where
  ep : ℕ
  active : Bool
  deriving DecidableEq, Repr

/-- The test of a worker's epoch: active in another one than `ge`. -/
def Lepoch.lags (e : Lepoch) (ge : ℕ) : Bool := e.active && e != ⟨ge, true⟩

/-- The variables `c` and `ge` of `epochclean`, and how often `epoch` had been set at the time it
was read. -/
structure CleanVars where
  c : ℕ
  ge : ℕ
  stores : ℕ
  deriving DecidableEq, Repr

/-- Where a call of `epochwait` was made: by itself, in the loop of `epochclean`, or after it. -/
inductive Resume
  | ret
  | scan (v : CleanVars) (i : ℕ)
  | take (v : CleanVars)
  deriving DecidableEq, Repr

/-- Where a worker is in the call it runs: what it does next, and its variables. -/
inductive Pc
  | run
  | start
  | startSet (ge : ℕ)
  | stop
  | stopSet (le : Lepoch)
  | limbo (l : Limbo)
  | limboHead (l : Limbo) (ge : ℕ)
  | limboCas (l : Limbo) (ge : ℕ) (p : Option ℕ)
  | limboInc
  | wait (r : Resume)
  | waitAt (r : Resume) (ge i : ℕ)
  | clean
  | cleanGe (c : ℕ)
  | scan (v : CleanVars) (i : ℕ)
  | take (v : CleanVars)
  | set (v : CleanVars) (p : List Limbo)
  | free (p : List Limbo)
  | dec (p : List Limbo)
  deriving DecidableEq, Repr

/-- The calls of a worker. -/
inductive Call
  | epochstart
  | epochend
  | limbo (ptr : ℕ)
  | epochwait
  | epochclean
  deriving DecidableEq, Repr

/-- A worker makes a call, or takes the next step of the one it runs. -/
inductive Act (n : ℕ)
  | call (w : Fin n) (c : Call)
  | step (w : Fin n)
  deriving DecidableEq, Repr

/-- The shared words and the workers. The last five fields are no part of the program: how often
`epoch` was set, the calls of `limbo` so far, for each of them the workers inside an epoch that they
entered before it and have not ended since, and the items taken off a list and released. -/
structure EpochSt (n : ℕ) where
  epoch : ℕ
  lepoch : Fin n → Lepoch
  limbo : ℕ → List Limbo
  nlimbo : ℤ
  pc : Fin n → Pc
  stores : ℕ
  calls : ℕ
  guards : ℕ → Finset (Fin n)
  taken : List ℕ
  released : List ℕ

namespace EpochSt

variable {n : ℕ}

/-- No worker runs and nothing is in limbo. -/
def init (n : ℕ) : EpochSt n :=
  { epoch := 0, lepoch := fun _ => ⟨0, false⟩, limbo := fun _ => [], nlimbo := 0
    pc := fun _ => .run, stores := 0, calls := 0, guards := fun _ => ∅, taken := []
    released := [] }

def goto (s : EpochSt n) (w : Fin n) (pc : Pc) : EpochSt n :=
  { s with pc := Function.update s.pc w pc }

def setLepoch (s : EpochSt n) (w : Fin n) (e : Lepoch) : EpochSt n :=
  { s with lepoch := Function.update s.lepoch w e }

def setLimbo (s : EpochSt n) (e : ℕ) (l : List Limbo) : EpochSt n :=
  { s with limbo := Function.update s.limbo e l }

/-- A worker is inside an epoch from the end of `epochstart` to the call of `epochend`. -/
def inside (s : EpochSt n) (w : Fin n) : Bool :=
  (s.lepoch w).active && match s.pc w with
    | .stop | .stopSet _ => false
    | _ => true

/-- A worker that runs nothing makes a call; epochs do not nest. -/
def call (s : EpochSt n) (w : Fin n) (c : Call) : Option (EpochSt n) :=
  if s.pc w ≠ .run then none
  else match c with
    | .epochstart => if (s.lepoch w).active then none else some (s.goto w .start)
    | .epochend =>
      if (s.lepoch w).active then
        some ({ s with guards := fun x => (s.guards x).erase w }.goto w .stop)
      else none
    | .limbo ptr =>
      some ({ s with
        calls := s.calls + 1
        guards := Function.update s.guards s.calls (Finset.univ.filter fun w => s.inside w)
        }.goto w (.limbo ⟨ptr, s.calls⟩))
    | .epochwait => some (s.goto w (.wait .ret))
    | .epochclean => some (s.goto w .clean)

/-- Where a call of `epochwait` returns to. -/
def resume : Resume → Pc
  | .ret => .run
  | .scan v i => .scan v i
  | .take v => .take v

/-- The next step of a worker's call. -/
def step (cmax : ℕ) (s : EpochSt n) (w : Fin n) : Option (EpochSt n) :=
  match s.pc w with
  | .run => none
  -- epochstart
  | .start => some (s.goto w (.startSet s.epoch))
  | .startSet ge => some ((s.setLepoch w ⟨ge, true⟩).goto w .run)
  -- epochend
  | .stop => some (s.goto w (.stopSet (s.lepoch w)))
  | .stopSet le => some ((s.setLepoch w ⟨le.ep, false⟩).goto w .run)
  -- limbo
  | .limbo l => some (s.goto w (.limboHead l s.epoch))
  | .limboHead l ge => some (s.goto w (.limboCas l ge ((s.limbo ge).head?.map (·.ptr))))
  | .limboCas l ge p =>
    if (s.limbo ge).head?.map (·.ptr) = p then
      some ((s.setLimbo ge (l :: s.limbo ge)).goto w .limboInc)
    else some (s.goto w (.limbo l))
  | .limboInc => some ({ s with nlimbo := s.nlimbo + 1 }.goto w .run)
  -- epochwait
  | .wait r => some (s.goto w (.waitAt r s.epoch 0))
  | .waitAt r ge i =>
    if h : i < n then
      if (s.lepoch ⟨i, h⟩).lags ge then some (s.goto w (.wait r))
      else some (s.goto w (.waitAt r ge (i + 1)))
    else some (s.goto w (resume r))
  -- epochclean
  | .clean => some (s.goto w (.cleanGe (s.nlimbo % 2 ^ 32).toNat))
  | .cleanGe c => some (s.goto w (.scan ⟨c, s.epoch, s.stores⟩ 0))
  | .scan v i =>
    if h : i < n then
      if (s.lepoch ⟨i, h⟩).lags v.ge then
        if v.c < cmax / 4 then some (s.goto w .run) else some (s.goto w (.wait (.scan v (i + 1))))
      else some (s.goto w (.scan v (i + 1)))
    else some (s.goto w (.wait (.take v)))
  | .take v =>
    let p := s.limbo ((v.ge + 1) % 3)
    let s := s.setLimbo ((v.ge + 1) % 3) []
    some ({ s with taken := p.map Limbo.ticket ++ s.taken }.goto w (.set v p))
  | .set v p =>
    some ({ s with epoch := (v.ge + 1) % 3, stores := s.stores + 1 }.goto w (.free p))
  | .free [] => some (s.goto w .run)
  | .free (l :: p) => some ({ s with released := l.ticket :: s.released }.goto w (.dec p))
  | .dec p => some ({ s with nlimbo := s.nlimbo - 1 }.goto w (.free p))

end EpochSt

/-- One step of the workers; `cmax` is the size of the block cache. -/
def epochStep (cmax : ℕ) {n : ℕ} (s : EpochSt n) : Act n → Option (EpochSt n)
  | .call w c => s.call w c
  | .step w => s.step cmax w

/-- An item taken off its list or released is one that no worker may still use: every worker that
was inside an epoch when the item was unlinked has called `epochend`. -/
def EpochSt.Safe {n : ℕ} (s : EpochSt n) : Prop :=
  ∀ x, x ∈ s.taken ∨ x ∈ s.released → s.guards x = ∅

/-- A step of `epochclean` that takes a list off or sets `epoch` is taken while `epoch` has not been
set since the call read it. -/
def Current {n : ℕ} : Act n → EpochSt n → Prop
  | .call _ _, _ => True
  | .step w, s =>
    match s.pc w with
    | .take v | .set v _ => v.stores = s.stores
    | _ => True

instance {n : ℕ} (a : Act n) (s : EpochSt n) : Decidable (Current a s) := by
  unfold Current
  split
  · exact .isTrue trivial
  · split <;> infer_instance

end GefsFuse.Server
