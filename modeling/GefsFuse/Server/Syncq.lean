import GefsFuse.Format
import GefsFuse.Lib.Heap
import GefsFuse.Lib.Trans

/-!
# The sync queues of the original server

`qput` and `qpop` of `blk.c`, the loop of `runsync`, and `wrbarrier` and `wrwait` of `fs.c`. There
are `n` queues (`nsyncers`), each with one syncer; `arenaq` gives the queue of an address, which is
that of its arena. A step is what runs under the lock of a queue, or one count of `qgen`: a call of
`qput` that finds its queue full has taken its generation already and sleeps until there is room.

What is done with an entry is not modelled, only that it is done.
-/

namespace GefsFuse.Server

open Heap

/-- In priority order. -/
inductive Qop
  | fence
  | write
  | free
  deriving DecidableEq, Repr

def Qop.toNat : Qop → ℕ
  | .fence => 1
  | .write => 2
  | .free => 3

/-- An entry. `call` counts the calls of `qput` and is no part of the program. -/
structure Qent where
  qgen : Int64
  bp : GefsBptr
  b : Option ℕ
  op : Qop
  call : ℕ
  deriving DecidableEq

def qcmp (a b : Qent) : ℤ :=
  if a.qgen ≠ b.qgen then if a.qgen < b.qgen then -1 else 1
  else if a.op ≠ b.op then if a.op.toNat < b.op.toNat then -1 else 1
  else if a.bp.addr ≠ b.bp.addr then if a.bp.addr < b.bp.addr then -1 else 1
  else 0

/-- The test `qcmp(a, b) == 1`. -/
def qgt (a b : Qent) : Bool := qcmp a b = 1

structure Syncq where
  heap : ℕ → Qent
  nheap : ℕ
  heapsz : ℕ

namespace Syncq

def full (q : Syncq) : Bool := q.nheap = q.heapsz

/-- The entries that are queued. -/
def ents (q : Syncq) : Multiset Qent := contents q.nheap q.heap

/-- The part of `qput` after the wait for room. -/
def insert (q : Syncq) (qe : Qent) : Syncq :=
  { q with heap := siftUp qgt qe q.heap q.nheap, nheap := q.nheap + 1 }

end Syncq

/-- None is a call that sleeps. -/
def qpop (q : Syncq) : Option (Qent × Syncq) :=
  if q.nheap = 0 then none
  else
    let n := q.nheap - 1
    let heap := if n = 0 then q.heap
      else siftDown qgt n (Function.update q.heap 0 (q.heap n)) 0
    some (q.heap 0, { q with heap := heap, nheap := n })

/-- The entries of `n` calls of `qpop`. -/
def qpops : ℕ → Syncq → Option (List Qent × Syncq)
  | 0, q => some ([], q)
  | n + 1, q => do
    let (e, q) ← qpop q
    let (es, q) ← qpops n q
    some (e :: es, q)

/-- Where `wrwait` is: not running, in its loop at the queue `i`, asleep in the `qput` there, at the
end of the loop, in the wait for `syncing`. -/
inductive Wr
  | idle
  | fence (i : ℕ)
  | asleep (i : ℕ)
  | wait
  deriving DecidableEq, Repr

/-- A queue with its users. `asleep` are the calls of `qput` that wait for room and `busy` is the
entry its syncer handles. The entries put into the queue and those handled are no part of the
program. -/
structure Syncer where
  q : Syncq
  asleep : List Qent
  busy : Option Qent
  put : List Qent
  done : List Qent

namespace Syncer

/-- An entry goes into the heap. -/
def enter (y : Syncer) (qe : Qent) : Syncer :=
  { y with q := y.q.insert qe, put := y.put ++ [qe] }

/-- `qput` as far as it gets without sleeping. -/
def qput (y : Syncer) (qe : Qent) : Syncer :=
  if y.q.full then { y with asleep := y.asleep ++ [qe] } else y.enter qe

/-- The `k`th sleeping call of `qput` finds room. -/
def wake (y : Syncer) (k : ℕ) : Option (Qent × Syncer) :=
  match y.asleep[k]? with
  | none => none
  | some qe =>
    if y.q.full then none else some (qe, { y with asleep := y.asleep.eraseIdx k }.enter qe)

def pop (y : Syncer) : Option Syncer :=
  match y.busy, qpop y.q with
  | none, some (qe, q) => some { y with q := q, busy := some qe }
  | _, _ => none

/-- The syncer is done with its entry. -/
def handle (y : Syncer) : Option (Qent × Syncer) :=
  match y.busy with
  | none => none
  | some qe => some (qe, { y with busy := none, done := qe :: y.done })

end Syncer

/-- The queues, the generation, and `wrwait`. `calls`, the number of calls of `qput` so far, is no
part of the program. -/
structure SyncSt (n : ℕ) where
  qgen : Int64
  syncer : Fin n → Syncer
  syncing : ℤ
  wr : Wr
  calls : ℕ

inductive SyncAct (n : ℕ)
  /-- `wrbarrier` -/
  | barrier
  /-- `qput` of a write or a free -/
  | put (op : Qop) (bp : GefsBptr) (b : Option ℕ)
  /-- a sleeping call of `qput` goes on -/
  | wake (i : Fin n) (k : ℕ)
  /-- `qpop` by the syncer -/
  | pop (i : Fin n)
  /-- the syncer is done with its entry -/
  | handle (i : Fin n)
  /-- `wrwait`: the call, one turn of its loop, the end of the loop, the return -/
  | wrcall
  | wrput
  | wrend
  | wrret
  deriving DecidableEq

namespace SyncSt

variable {n : ℕ}

/-- Empty queues. -/
def init (n heapsz : ℕ) (qgen : Int64) (heap : ℕ → Qent) : SyncSt n :=
  { qgen := qgen, syncer := fun _ => ⟨⟨heap, 0, heapsz⟩, [], none, [], []⟩, syncing := 0, wr := .idle
    calls := 0 }

/-- `aincv(&fs->qgen, 1)`; none where it would not increase. -/
def ainc (s : SyncSt n) : Option (SyncSt n) :=
  if s.qgen < s.qgen + 1 then some { s with qgen := s.qgen + 1 } else none

def set (s : SyncSt n) (i : Fin n) (y : Syncer) : SyncSt n :=
  { s with syncer := Function.update s.syncer i y }

def qput (s : SyncSt n) (i : Fin n) (op : Qop) (bp : GefsBptr) (b : Option ℕ) : SyncSt n :=
  { s with calls := s.calls + 1 }.set i ((s.syncer i).qput ⟨s.qgen, bp, b, op, s.calls⟩)

/-- `wrwait` goes on when its sleeping call does. -/
def woken (s : SyncSt n) (qe : Qent) : SyncSt n :=
  { s with wr := match qe.op, s.wr with
    | .fence, .asleep i => .fence (i + 1)
    | _, wr => wr }

/-- The fence's block pointer. -/
def fenceBp : GefsBptr := ⟨0, 0xffffffffffffffff, -1⟩

end SyncSt

open SyncSt in
def syncStep {n : ℕ} (arenaq : Int64 → Fin n) (s : SyncSt n) : SyncAct n → Option (SyncSt n)
  | .barrier => s.ainc
  | .put op bp b =>
    -- the assertions of `qput`
    if op = .fence ∨ bp.addr &&& 16383 ≠ 0 then none else some (s.qput (arenaq bp.addr) op bp b)
  | .wake i k =>
    match (s.syncer i).wake k with
    | none => none
    | some (qe, y) => some ((s.set i y).woken qe)
  | .pop i =>
    match (s.syncer i).pop with
    | none => none
    | some y => some (s.set i y)
  | .handle i =>
    match (s.syncer i).handle with
    | none => none
    | some (qe, y) =>
      if qe.op = .fence then
        -- `synclk` is held by the caller of `wrwait` but for its wait
        if s.wr = .wait ∨ s.wr = .idle then
          some { s.set i y with syncing := s.syncing - 1 }
        else none
      else some (s.set i y)
  | .wrcall =>
    if s.wr = .idle then s.ainc.map fun s => { s with syncing := n, wr := .fence 0 } else none
  | .wrput =>
    match s.wr with
    | .fence i =>
      if h : i < n then
        -- the assertion of `qput`
        if 0 < s.syncing then
          let wr := if (s.syncer ⟨i, h⟩).q.full then Wr.asleep i else Wr.fence (i + 1)
          some { s.qput ⟨i, h⟩ .fence fenceBp none with wr := wr }
        else none
      else none
    | _ => none
  | .wrend =>
    match s.wr with
    | .fence i => if i < n then none else s.ainc.map fun s => { s with wr := .wait }
    | _ => none
  | .wrret => if s.wr = .wait ∧ s.syncing = 0 then some { s with wr := .idle } else none

/-- Every step is allowed. -/
def Any {A S : Type*} (_ : A) (_ : S) : Prop := True

/-! ## What the queues promise -/

/-- What was put into a queue, each call's entry once, has been handled, is being handled, or is
queued; and so many pops as there are entries queued give just these. -/
def PutOnce (y : Syncer) : Prop :=
  (y.put : Multiset Qent) = y.done + y.busy.toList + y.q.ents
    ∧ (y.put.map Qent.call).Nodup
    ∧ ∃ es q, qpops y.q.nheap y.q = some (es, q) ∧ q.nheap = 0 ∧ (es : Multiset Qent) = y.q.ents

/-- A pop gives a minimum. -/
def PopsMin (y : Syncer) : Prop :=
  ∀ e q, qpop y.q = some (e, q) → ∀ x ∈ y.q.ents, qcmp e x ≠ 1

/-- When the free of an address is popped, no write of the address put before it is still queued:
it is done. -/
def FreesLast {n : ℕ} (s : SyncSt n) : Prop :=
  ∀ i y', (s.syncer i).pop = some y' → ∀ e ∈ y'.busy, e.op = .free →
    ∀ j, ∀ w ∈ (s.syncer j).put, w.op = .write → w.bp.addr = e.bp.addr → w.call < e.call →
      w ∈ (s.syncer j).done ∧ w ∉ (s.syncer j).q.ents

/-- What was put before a call of `wrwait` is done when the call returns. -/
def WaitsAll {n : ℕ} (arenaq : Int64 → Fin n) (s : SyncSt n) : Prop :=
  ∀ s1 s2 s3, syncStep arenaq s .wrcall = some s1 →
    Trans.Via (syncStep arenaq) (fun a _ => a ≠ .wrret) s1 s2 →
    syncStep arenaq s2 .wrret = some s3 → ∀ i, ∀ e ∈ (s.syncer i).put, e ∈ (s2.syncer i).done

end GefsFuse.Server
