import GefsFuse.Proofs.ServerFast

/-!
# Siblings

`trybalance` returns before it looks at a neighbour, since no operation is at once not `POmod` and
not `POmerge`. So a pivot is rewritten with as many children as it had.
-/

namespace GefsFuse.Server.Btree

open Effects ByteMem

/-! ## Underfull siblings -/

/-- `x` gives only what `Q` says. -/
abbrev Gives {α : Type} (x : Op α) (Q : α → Prop) : Prop :=
  Ends (fun _ => True) (fun _ => True) x Q

section Gives

variable {α : Type} {E : Env}

theorem gives_any (x : Op α) : Gives x fun _ => True :=
  fun _ _ => ⟨trivial, fun _ _ => trivial, fun _ _ => trivial⟩

theorem gives_must (o : Option α) : Gives (must o) fun a => o = some a := by
  cases o with
  | none => exact .throw trivial
  | some a => exact .pure rfl

theorem gives_newblk (p : Bool) :
    Gives (newblk E p) fun n => n.pivot = p ∧ n.vals = [] ∧ n.msgs = [] := by
  refine (gives_any _).bind fun a _ => Ends.get.bind fun s _ => ?_
  split_ifs
  · exact .throw trivial
  · exact (gives_any _).bind fun _ _ => .pure ⟨rfl, rfl, rfl⟩

theorem gives_setb (b : Node) : Gives (setb E b) fun o => ∀ c ∈ o, c.vals = b.vals
    ∧ c.msgs = b.msgs := by
  unfold setb
  split_ifs
  · exact (gives_any _).bind fun _ _ => .pure (by simp)
  · refine .map ((gives_any _).bind fun _ _ => .pure ?_)
    rintro _ ⟨⟩
    exact ⟨rfl, rfl⟩

theorem gives_setval (b : Node) (kv : GefsKvp) :
    Gives (setval b kv) fun n => n = { b with vals := b.vals ++ [kv] } := by
  unfold setval
  dsimp only
  split_ifs
  · exact .pure rfl
  · exact .throw trivial

theorem gives_setmsg (b : Node) (m : GefsMsg) :
    Gives (setmsg b m) fun n => n = { b with msgs := b.msgs ++ [m] } := by
  have hput : Gives (if 2 * (b.nbuf + 1) + b.bufsz + (msgsz m - 2) ≤ gefsBufspc then
      pure { b with msgs := b.msgs ++ [m] } else throw .capacity)
      fun n => n = { b with msgs := b.msgs ++ [m] } := by
    split_ifs
    · exact .pure rfl
    · exact .throw trivial
  unfold setmsg
  by_cases hp : b.pivot
  · rw [if_neg (not_not.2 hp)]
    exact hput
  · rw [if_pos hp]
    exact Ends.bind (gives_any _) fun _ _ => hput

theorem gives_copyup1 (n : Node) (o : Option Node) :
    Gives (copyup1 n o) fun r => r.1.vals.length = n.vals.length + o.toList.length := by
  cases o with
  | none => exact .pure rfl
  | some c =>
    refine (gives_any _).bind fun kv _ => (gives_setval _ _).bind fun n' hn => .pure ?_
    rw [hn]
    simp

theorem gives_copyup {n : Node} {q : Path} :
    Gives (copyup n q) fun r => r.1.vals.length
      = n.vals.length + q.nl.toList.length + q.nr.toList.length :=
  (gives_copyup1 n q.nl).bind fun r hr => (gives_copyup1 r.1 q.nr).bind fun r' hr' =>
    .pure (by rw [hr', hr])

/-- One block for the child replaced. -/
theorem gives_updatepivVals {p q : Path} (hop : q.op = .pomod)
    (hq : q.nl.toList.length + q.nr.toList.length = 1) : ∀ {vs : List GefsKvp} {i : ℕ} {n : Node},
    Gives (updatepivVals p (some q) i vs n) fun n' =>
      n'.vals.length = n.vals.length + vs.length
  | [], i, n => .pure rfl
  | v :: vs, i, n => by
    unfold updatepivVals
    simp only [hop, reduceCtorEq, or_self, if_false]
    split_ifs
    · refine gives_copyup.bind fun r hr => (gives_updatepivVals hop hq).mono fun n' hn => ?_
      rw [hn, hr, List.length_cons]
      omega
    · refine (gives_setval _ _).bind fun r hr => (gives_updatepivVals hop hq).mono fun n' hn => ?_
      rw [hn, hr, List.length_cons, List.length_append, List.length_singleton]
      omega

theorem gives_pull (w : Pulling) (u : GefsMsg) : Gives (w.pull u) fun w' => w'.n.vals = w.n.vals :=
  (gives_setmsg _ _).bind fun n hn => .pure (by simp [hn])

theorem gives_pullrun (k : Bytes) : ∀ {us : List GefsMsg} {w : Pulling},
    Gives (pullrun k us w) fun r => r.2.n.vals = w.n.vals
  | [], w => .pure rfl
  | u :: us, w => by
    unfold pullrun
    dsimp only
    split_ifs
    · exact (gives_pull _ _).bind fun w' hw => (gives_pullrun k).mono fun r hr => hr.trans hw
    · exact .pure rfl

theorem gives_pullrest : ∀ {us : List GefsMsg} {w : Pulling},
    Gives (pullrest us w) fun w' => w'.n.vals = w.n.vals
  | [], w => .pure rfl
  | u :: us, w => by
    unfold pullrest
    dsimp only
    split_ifs
    · exact .pure rfl
    · exact (gives_pull _ _).bind fun w' hw => gives_pullrest.mono fun r hr => hr.trans hw

theorem gives_updatepivMsgs : ∀ {fuel : ℕ} {ms us : List GefsMsg} {w : Pulling},
    Gives (updatepivMsgs fuel ms us w) fun w' => w'.n.vals = w.n.vals
  | fuel, [], us, w => by
    unfold updatepivMsgs
    exact gives_pullrest
  | 0, m :: ms, us, w => .throw trivial
  | fuel + 1, m :: ms, us, w => by
    unfold updatepivMsgs
    dsimp only
    split
    · refine (gives_any _).bind fun _ _ => (gives_pullrun _).bind fun r hr =>
        gives_updatepivMsgs.mono fun w' hw => ?_
      rw [hw, hr]
    · refine (gives_setmsg _ _).bind fun n hn => gives_updatepivMsgs.mono fun w' hw => ?_
      rw [hw, hn]

/-- A pivot rewritten has as many children as it had. -/
theorem gives_updatepiv {up p q : Path} {b : Node} (hb : p.b = some b) (hop : q.op = .pomod)
    (hq : q.nl.toList.length + q.nr.toList.length = 1) :
    Gives (updatepiv E up p (some q)) fun p' => ∀ n ∈ p'.nl, n.nval = b.nval := by
  unfold updatepiv
  refine (gives_must _).bind fun c hc => ?_
  obtain rfl := Option.some.inj (hb.symm.trans hc)
  refine (gives_newblk _).bind fun n hn => (gives_updatepivVals hop hq).bind fun n' hn' => ?_
  refine gives_updatepivMsgs.bind fun w hw => (gives_setb _).bind fun o ho => .pure fun r hr => ?_
  rw [Node.nval, (ho r hr).1, hw, hn', hn.2.1]
  simp [Node.nval]

end Gives

/-- Nothing is balanced. -/
theorem trybalance_eq (E : Env) (p : Path) (pp : Option Path) (idx : ℤ) :
    trybalance E p pp idx = pure (p, pp) := by
  unfold trybalance
  rcases pp with _ | q
  · rfl
  rcases hl : q.nl with _ | m
  · simp [hl]
  · have hop : q.op ≠ .pomod ∨ q.op ≠ .pomerge := by
      cases q.op <;> simp
    simp only [Option.bind_some, hl, if_pos hop]
    split_ifs <;> rfl

/-- The rewrite of a pivot with room, whose child was rewritten. -/
def updated (E : Env) (up p q : Path) : Op Path := do
  let (p, pp) ← trybalance E p (some q) p.idx
  updatepiv E up p pp

/-- `flush` rewrites such a pivot so. -/
theorem flushUp_updated {E : Env} {p up q : Path} {rest done : List Path} {rp : Option Path}
    {b : Node} (hb : p.b = some b) (hf : filledpiv b 1 = false) (hop : q.op = .pomod) :
    flushUp E (p :: up :: rest) (some q) rp done = (do
      let p' ← updated E up p q
      flushUp E (up :: rest) (some p') (some p') (p' :: done)) := by
  have hno : ¬ (rest = [] ∧ (∃ r ∈ some q, r.op = .pomerge) ∧ b.nval = 2) := by
    rintro ⟨-, ⟨r, ⟨⟩, hr⟩, -⟩
    rw [hop] at hr
    cases hr
  conv_lhs => unfold flushUp
  unfold updated
  rw [hb]
  simp only [must, pure_bind, hf, Bool.false_eq_true, not_false_eq_true, if_true, trybalance_eq,
    if_neg hno]

/-- The child `c` was rewritten, and there is room to merge it with its neighbour `d`. -/
structure Mergeable (s : St) (p q : Path) (b c d : Node) : Prop where
  block : p.b = some b
  pivot : b.pivot = true
  room : filledpiv b 1 = false
  op : q.op = .pomod
  nl : q.nl = some c
  nr : q.nr = none
  child : 0 ≤ p.idx ∧ p.idx < b.nval ∧ p.midx = p.idx
  neighbour : ∃ (j : ℕ) (kv : GefsKvp) (bp : GefsBptr), ((j : ℤ) = p.idx - 1 ∨ (j : ℤ) = p.idx + 1)
    ∧ b.vals[j]? = some kv ∧ kv.2.length = pptrsz ∧ valBptr kv.2 = some bp
    ∧ unpack16 (memOf kv.2) gefsPtrsz + blkfill c < c.spc ∧ s.blks bp.addr = some d
  alike : d.pivot = c.pivot
  small : 2 * c.nval + c.valsz + (2 * d.nval + d.valsz) < gefsPivspc - 4 * msgmax
    ∧ (c.pivot = true → buffill c + buffill d < gefsBufspc)

/-- The rewritten pivot `n` has a child less than `b`, and one that holds what `c` and `d` did. -/
def MergedWith (s : St) (b c d n : Node) : Prop :=
  n.nval + 1 = b.nval ∧ ∃ kv ∈ n.vals, ∃ bp e, valBptr kv.2 = some bp ∧ s.blks bp.addr = some e
    ∧ (e.vals = c.vals ++ d.vals ∧ e.msgs = c.msgs ++ d.msgs
      ∨ e.vals = d.vals ++ c.vals ∧ e.msgs = d.msgs ++ c.msgs)

theorem nval_updated {E : Env} {s : St} {up p p' q : Path} {b c d n : Node}
    (h : Mergeable s p q b c d) (hx : (exec (updated E up p q) s).1 = .ok p')
    (hn : p'.nl = some n) : n.nval = b.nval := by
  unfold updated at hx
  rw [trybalance_eq, pure_bind] at hx
  have hone : q.nl.toList.length + q.nr.toList.length = 1 := by
    rw [h.nl, h.nr]
    rfl
  exact (gives_updatepiv h.block h.op hone s trivial).2.1 p' hx n hn

/-- However small the two are, they are not merged. -/
theorem not_mergedWith {E : Env} {s : St} {up p p' q : Path} {b c d n : Node}
    (h : Mergeable s p q b c d) (hx : (exec (updated E up p q) s).1 = .ok p')
    (hn : p'.nl = some n) : ¬ MergedWith (exec (updated E up p q) s).2 b c d n := by
  rintro ⟨hone, -⟩
  have := nval_updated h hx hn
  omega

section Small

/-- A leaf with one entry, just rewritten. -/
def leftLeaf : Node := ⟨⟨65536, 0, 0⟩, false, [([1], [7])], []⟩

def rightLeaf : Node := ⟨⟨32768, 0, 0⟩, false, [([5], [9])], []⟩

def ptrTo (b : Node) : Bytes := gefsPackbp b.bp ++ pack16 (blkfill b)

/-- The pivot over them, before the first is rewritten. -/
def twoLeaves : Node := ⟨⟨49152, 0, 0⟩, true,
  [([1], ptrTo { leftLeaf with bp := ⟨16384, 0, 0⟩ }), ([5], ptrTo rightLeaf)], []⟩

def pivotPath : Path := { zeroPath with b := some twoLeaves }

def leafPath : Path := { zeroPath with b := some leftLeaf, nl := some leftLeaf, idx := -1, midx := -1 }

def twoLeavesSt : St where
  blks a := if a = 32768 then some rightLeaf else none
  live _ := false
  tree := ⟨{ zeroTree with ht := 2, bp := ⟨49152, 0, 0⟩ }, 0, false⟩
  freed := []
  calls := 0

def plainEnv : Env := ⟨fun _ => some 81920, fun _ => 0⟩

theorem mergeable_twoLeaves : Mergeable twoLeavesSt pivotPath leafPath twoLeaves leftLeaf rightLeaf where
  block := rfl
  pivot := rfl
  room := by decide
  op := rfl
  nl := rfl
  nr := rfl
  child := by decide
  neighbour := ⟨1, _, ⟨32768, 0, 0⟩, .inr rfl, rfl, by decide, by decide +kernel, by decide +kernel, rfl⟩
  alike := rfl
  small := ⟨by decide, by decide⟩

/-- The pivot as it is rewritten. -/
def twoLeavesNew : Path := { pivotPath with
  nl := some { twoLeaves with
    bp := ⟨81920, 0, 0⟩
    vals := [([1], ptrTo leftLeaf), ([5], ptrTo rightLeaf)] } }

theorem exec_updated_twoLeaves :
    (exec (updated plainEnv zeroPath pivotPath leafPath) twoLeavesSt).1 = .ok twoLeavesNew := by
  decide +kernel

theorem not_mergedWith_twoLeaves :
    ¬ MergedWith (exec (updated plainEnv zeroPath pivotPath leafPath) twoLeavesSt).2 twoLeaves
      leftLeaf rightLeaf { twoLeaves with
        bp := ⟨81920, 0, 0⟩
        vals := [([1], ptrTo leftLeaf), ([5], ptrTo rightLeaf)] } :=
  not_mergedWith mergeable_twoLeaves exec_updated_twoLeaves rfl

theorem not_forall_mergedWith : ¬ ∀ (E : Env) (s : St) (up p p' q : Path) (b c d n : Node),
    Mergeable s p q b c d → (exec (updated E up p q) s).1 = .ok p' → p'.nl = some n →
    MergedWith (exec (updated E up p q) s).2 b c d n := by
  intro h
  obtain ⟨hone, -⟩ := h _ _ _ _ _ _ _ _ _ _ mergeable_twoLeaves exec_updated_twoLeaves rfl
  exact absurd hone (by decide)

end Small

end GefsFuse.Server.Btree
