import GefsFuse.Server.FreeLog

/-!
# The tree of free ranges

The tree keeps its nodes in the order of `rangecmp`: it is the list of their ranges in this order,
and a node a place in that list. A node's neighbours, and the node when its key is changed, are found
by the place; what is looked up or inserted is found by the key, so the two agree only as long as the
list is in order.

`Server.FreeLog` has the same operations on the list. Here they are taken apart, round by round and
with the tree as it is after a key was changed and before an empty node is deleted. Where a range
ends is an address as well, so no sum wraps.
-/

namespace GefsFuse.Server.FreeTree

open Ranges

def rangecmp (a b : Rng) : ℤ :=
  if a.off < b.off then -1 else if b.off < a.off then 1 else 0

/-- A node: the ranges before it, the last first, its own, and those behind it. -/
structure Node where
  lo : List Rng
  r : Rng
  hi : List Rng

namespace Node

/-- The tree the node is in. -/
def tree (n : Node) : List Rng := n.lo.reverse ++ n.r :: n.hi

/-- The tree without the node. -/
def avldelete (n : Node) : List Rng := n.lo.reverse ++ n.hi

/-- The node with another range, in the same place. -/
def set (n : Node) (r : Rng) : Node := { n with r := r }

/-- The tree, without the node if it is empty. -/
def trim (n : Node) : List Rng := if n.r.len = 0 then n.avldelete else n.tree

end Node

/-- The node of the key of `q` or, for a negative `d`, else the last before it. -/
def avllookup (t : List Rng) (q : Rng) (d : ℤ) : Option Node :=
  match (t.filter (rangecmp · q ≤ 0)).reverse with
  | [] => none
  | r :: lo =>
    if rangecmp r q = 0 ∨ d < 0 then some ⟨lo, r, t.filter (0 < rangecmp · q)⟩ else none

/-- `r` in its place, instead of a node of its key. -/
def avlinsert (t : List Rng) (r : Rng) : Node :=
  ⟨(t.filter (rangecmp · r < 0)).reverse, r, t.filter (0 < rangecmp · r)⟩

def avlmin : List Rng → Option Node
  | [] => none
  | r :: hi => some ⟨[], r, hi⟩

def avlmax (t : List Rng) : Option Node :=
  match t.reverse with
  | [] => none
  | r :: lo => some ⟨lo, r, []⟩

/-! ## Putting a range in -/

/-- The node before `n` that ends where `n` starts, with the range of `n` added. -/
def joinPrev (n : Node) : Option Node :=
  match n.lo with
  | [] => none
  | s :: lo => if s.off + s.len = n.r.off then some ⟨lo, ⟨s.off, s.len + n.r.len⟩, n.hi⟩ else none

/-- The node behind `n` that starts where `n` ends, moved to the start of `n`. -/
def joinNext (n : Node) : Option Node :=
  match n.hi with
  | [] => none
  | s :: hi => if n.r.off + n.r.len = s.off then some ⟨n.lo, ⟨n.r.off, s.len + n.r.len⟩, hi⟩ else none

/-- What is done from `Again` to the next `goto Again`; none where there is no other. -/
def again (n : Node) : Option Node :=
  match joinPrev n with
  | some n' => some n'
  | none => joinNext n

theorem again_cases {n n' : Node} (h : again n = some n') :
    (∃ s lo, n.lo = s :: lo ∧ s.stop = n.r.off ∧ n' = ⟨lo, ⟨s.off, s.len + n.r.len⟩, n.hi⟩)
      ∨ ∃ s hi, n.hi = s :: hi ∧ n.r.stop = s.off ∧ n' = ⟨n.lo, ⟨n.r.off, s.len + n.r.len⟩, hi⟩ := by
  obtain ⟨lo, r, hi⟩ := n
  unfold again at h
  rcases hp : joinPrev ⟨lo, r, hi⟩ with _ | m <;> simp only [hp] at h
  · rcases hi with _ | ⟨s, hi⟩
    · cases h
    · simp only [joinNext, Option.ite_none_right_eq_some, Option.some.injEq] at h
      exact .inr ⟨s, hi, rfl, h.1, h.2.symm⟩
  · rcases lo with _ | ⟨s, lo⟩
    · cases hp
    · simp only [joinPrev, Option.ite_none_right_eq_some, Option.some.injEq] at hp h
      exact .inl ⟨s, lo, rfl, hp.1, by rw [← h, ← hp.2]⟩

/-- The nodes of the tree. -/
def Node.size (n : Node) : ℕ := n.lo.length + n.hi.length + 1

theorem size_again {n n' : Node} (h : again n = some n') : n'.size + 1 = n.size := by
  rcases again_cases h with ⟨s, lo, hlo, -, rfl⟩ | ⟨s, hi, hhi, -, rfl⟩
  · simp only [Node.size, hlo, List.length_cons]
    omega
  · simp only [Node.size, hhi, List.length_cons]
    omega

/-- The rounds from `n` on. -/
def coalesce (n : Node) : Node :=
  match _ : again n with
  | none => n
  | some n' => coalesce n'
  termination_by n.size
  decreasing_by
    have := size_again ‹again n = some n'›
    omega

/-- `freerange`, none being an assertion that fails. -/
def freerange (t : List Rng) (off len : ℤ) : Option (List Rng) :=
  if len % 16384 ≠ 0 ∨ (avllookup t ⟨off, len⟩ 0).isSome then none
  else some (coalesce (avlinsert t ⟨off, len⟩)).tree

/-! ## Taking a range out -/

/-- What `grabrange` makes of the node it has found; none being an `abort`. What is left behind the
range is a node of its own. -/
def grab (n : Node) (off len : ℤ) : Option Node :=
  let r := n.r
  if r.off + r.len < off + len then none
  else if off = r.off then some (n.set ⟨r.off + len, r.len - len⟩)
  else if off + len = r.off + r.len then some (n.set ⟨r.off, r.len - len⟩)
  else if r.off < off ∧ off + len < r.off + r.len then
    let l := r.len
    let r' : Rng := ⟨r.off, off - r.off⟩
    some ⟨n.lo, r', (avlinsert n.hi ⟨off + len, l - r'.len - len⟩).tree⟩
  else none

/-- The node of `grabrange` before it is deleted where it is empty. -/
def grabNode (t : List Rng) (off len : ℤ) : Option Node :=
  if len % 16384 ≠ 0 then none
  else (avllookup t ⟨off, len⟩ (-1)).bind fun n => grab n off len

def grabrange (t : List Rng) (off len : ℤ) : Option (List Rng) :=
  (grabNode t off len).map Node.trim

/-! ## Taking a block -/

/-- The block `blkalloc_lk` takes and the node it takes it from, before that is deleted where it is
empty. -/
def takeBlk (t : List Rng) (seq : Bool) : Option (ℤ × Node) :=
  if seq then (avlmin t).map fun n => (n.r.off, n.set ⟨n.r.off + 16384, n.r.len - 16384⟩)
  else (avlmax t).map fun n => (n.r.off + (n.r.len - 16384), n.set ⟨n.r.off, n.r.len - 16384⟩)

end GefsFuse.Server.FreeTree
