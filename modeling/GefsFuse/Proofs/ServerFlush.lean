import GefsFuse.Proofs.ServerBalance
import GefsFuse.Proofs.ServerRewrite

/-!
# A whole path flushed

`victim` picks a child and the messages waiting for it (`Way`). On the way up from the bottom of
a path (`Above`) each of its blocks is rewritten, and in the end the tree is one that comes to what
it did with the messages pulled from the batch (`Flushed`).
-/

namespace GefsFuse.Server.Btree

open Effects SortedMap Stable

/-! ## The way down -/

/-- `p` leads from `b` to the child `c`, between `l` and `r`, with the messages `P` of the buffer;
those before them, `A`, are not for it. -/
structure Way {n : ℕ} (p : Path) (b : Node) (l : List (GefsKvp × Beps n)) (c : GefsKvp × Beps n)
    (r : List (GefsKvp × Beps n)) (lo hi : Option Bytes) (A P C : List GefsMsg) : Prop where
  block : p.b = some b
  ins : p.ins = none
  fresh : p.nr = none ∧ p.npull = 0
  idx : p.idx = l.length ∧ p.midx = l.length
  msgs : b.msgs = A ++ (P ++ C)
  range : p.lo = A.length ∧ p.hi = A.length + P.length
  size : p.sz = msgSum P
  before : ∀ m ∈ A, ¬ InRange (leftBound l c lo) (rightBound r hi) m.k
  inRange : ∀ m ∈ P, InRange (leftBound l c lo) (rightBound r hi) m.k

section Victim

variable {n : ℕ} {cs l r : List (GefsKvp × Beps n)} {c : GefsKvp × Beps n} {lo hi : Option Bytes}
  {b : Node} {p : Path} {ms A : List GefsMsg}

/-- Some child and its messages. -/
def Picked (p : Path) (b : Node) (cs : List (GefsKvp × Beps n)) (lo hi : Option Bytes) : Prop :=
  ∃ l c r A P C, cs = l ++ c :: r ∧ Way p b l c r lo hi A P C

/-- The messages up to the next separator are for the child before it. -/
theorem run_inRange (hr : ∀ m ∈ ms, InRange lo hi m.k)
    (hlow : l ≠ [] → ∀ m ∈ ms, c.1.1 ≤ m.k) {m : GefsMsg} (hm : m ∈ ms)
    (hk : ∀ d ∈ r.head?, m.k < d.1.1) : InRange (leftBound l c lo) (rightBound r hi) m.k := by
  constructor
  · unfold leftBound
    split_ifs with hl
    · exact (hr m hm).1
    · intro x hx
      exact Option.some.inj hx ▸ hlow hl m hm
  · rcases r with _ | ⟨d, r⟩
    · exact (hr m hm).2
    · intro x hx
      exact Option.some.inj hx ▸ hk d rfl

theorem keycmp_neg {a b : Bytes} : gefsKeycmp a b < 0 ↔ a < b := by
  rw [gefsKeycmp_eq]
  split_ifs with h1 h2
  · simp [h1]
  · simp [h2]
  · simp [h1]

/-- The loop over the children from `l` on, with `A` the messages before theirs. -/
theorem victimLoop_ok : ∀ {rest l : List (GefsKvp × Beps n)} {ms A : List GefsMsg} {p : Path},
    cs = l ++ rest → b.msgs = A ++ ms → Ascending (cs.map (·.1)) → Sorted GefsMsg.k ms →
    (∀ m ∈ ms, InRange lo hi m.k) → (∀ m ∈ A, l ≠ [] ∧ ∀ c ∈ rest.head?, m.k < c.1.1) →
    (l ≠ [] → ∀ m ∈ ms, ∀ c ∈ rest.head?, c.1.1 ≤ m.k) → rest ≠ [] → Picked p b cs lo hi →
    Picked (victimLoop (rest.tail.map (some ·.1.1) ++ [none]) l.length A.length ms p) b cs lo hi
  | [], _, _, _, _, _, _, _, _, _, _, _, hne, _ => absurd rfl hne
  | c :: r, l, ms, A, p, hcs, hms, hasc, hs, hr, hA, hlow, _, hp => by
    -- the separator behind `c`, and the messages below it
    have hsep : ∃ (k : Option Bytes) (ks : List (Option Bytes)),
        (c :: r).tail.map (some ·.1.1) ++ [none] = k :: ks ∧ k = r.head?.map (·.1.1)
          ∧ ks = if r = [] then [] else r.tail.map (some ·.1.1) ++ [none] := by
      rcases r with _ | ⟨d, r⟩
      · exact ⟨_, _, rfl, rfl, rfl⟩
      · exact ⟨_, _, rfl, rfl, rfl⟩
    obtain ⟨k, ks, hkks, hk, hks⟩ := hsep
    rw [hkks]
    unfold victimLoop
    dsimp only
    set f : GefsMsg → Bool := fun m => k.all fun k => decide (gefsKeycmp m.k k < 0) with hf
    have hsplit : ms = ms.takeWhile f ++ ms.drop (ms.takeWhile f).length := by
      rw [drop_takeWhile_length, List.takeWhile_append_dropWhile]
    have hlt : ∀ m ∈ ms.takeWhile f, ∀ d ∈ r.head?, m.k < d.1.1 := by
      intro m hm d hd
      have := List.mem_takeWhile_imp hm
      rw [hf, hk, Option.mem_def.1 hd] at this
      simpa [keycmp_neg] using this
    have hlow' : l ≠ [] → ∀ m ∈ ms, c.1.1 ≤ m.k := fun hl m hm => hlow hl m hm c rfl
    have hc : Ascending ((l ++ c :: r).map (·.1)) := hcs ▸ hasc
    rw [List.map_append, List.map_cons] at hc
    obtain ⟨-, hcr, -⟩ := List.pairwise_append.1 hc
    have hchosen : Picked (if p.sz < ((ms.takeWhile f).map msgsz).sum then
        { p with op := .pomod, lo := A.length, hi := A.length + (ms.takeWhile f).length
                 sz := ((ms.takeWhile f).map msgsz).sum, idx := l.length, midx := l.length
                 npull := 0, pullsz := 0 }
      else p) b cs lo hi := by
      split_ifs
      · obtain ⟨l', c', r', A', P', C', -, hw⟩ := hp
        refine ⟨l, c, r, A, ms.takeWhile f, ms.drop (ms.takeWhile f).length, hcs, hw.block, hw.ins,
          ⟨hw.fresh.1, rfl⟩, ⟨rfl, rfl⟩, by rw [hms, ← hsplit], ⟨rfl, rfl⟩, rfl, fun m hm hin => ?_,
          fun m hm => ?_⟩
        · obtain ⟨hl, hlt⟩ := hA m hm
          exact absurd (hlt c rfl) (not_lt.2 (hin.1 _ (by rw [leftBound, if_neg hl])))
        · exact run_inRange hr hlow' (List.takeWhile_subset _ hm) (hlt m hm)
      · exact hp
    rcases r with _ | ⟨d, r⟩
    · rw [if_pos rfl] at hks
      rw [hks]
      exact hchosen
    rw [if_neg (by simp)] at hks
    rw [hks]
    have hcd : c.1.1 < d.1.1 := (List.pairwise_cons.1 hcr).1 d.1 (by simp)
    have hlen : l.length + 1 = (l ++ [c]).length := by simp
    have hlen' : A.length + (ms.takeWhile f).length = (A ++ ms.takeWhile f).length := by simp
    rw [hlen, hlen']
    refine victimLoop_ok (by rw [hcs]; simp) (by rw [hms, List.append_assoc, ← hsplit]) hasc
      (hs.sublist (List.drop_sublist _ _)) (fun m hm => hr m (List.drop_subset _ _ hm)) ?_ ?_
      (by simp) (by simpa using hchosen)
    · intro m hm
      refine ⟨by simp, fun x hx => ?_⟩
      obtain rfl := Option.some.inj (show some d = some x from hx)
      rcases List.mem_append.1 hm with hm | hm
      · exact ((hA m hm).2 c rfl).trans hcd
      · exact hlt m hm d rfl
    · intro _ m hm x hx
      obtain rfl := Option.some.inj (show some d = some x from hx)
      -- the first message behind the run is not below `d`
      rw [drop_takeWhile_length] at hm
      have hs' : Sorted GefsMsg.k (ms.dropWhile f) := hs.sublist (List.dropWhile_sublist _)
      have hhead := List.head_dropWhile_not f (List.ne_nil_of_mem hm)
      generalize ms.dropWhile f = rest at hm hs' hhead
      obtain ⟨y, rest, rfl⟩ := List.exists_cons_of_ne_nil (List.ne_nil_of_mem hm)
      have hy : d.1.1 ≤ y.k := by
        rw [hf, hk] at hhead
        simpa [keycmp_neg] using hhead
      rcases List.mem_cons.1 hm with rfl | hm
      · exact hy
      · exact hy.trans (List.rel_of_pairwise_cons hs' hm)

/-- A pivot has a child to flush into. -/
theorem victim_ok (hv : b.vals = cs.map (·.1)) (hne : cs ≠ []) (ho : Ordered (n + 1) (cs, b.msgs) lo hi) :
    Picked (victim b zeroPath) b cs lo hi := by
  obtain ⟨hf, hs, hr⟩ := ordered_pivot.1 ho
  obtain ⟨c, cs', rfl⟩ := List.exists_cons_of_ne_nil hne
  have hnv : b.nval ≠ 0 := by
    rw [Node.nval, hv]
    simp
  have hseps : b.vals.tail.map (some ·.1) ++ [none]
      = (c :: cs').tail.map (some ·.1.1) ++ [none] := by
    rw [hv]
    simp
  unfold victim
  rw [if_neg hnv, hseps]
  refine victimLoop_ok (l := []) (A := []) rfl rfl hf.asc hs hr (by simp) (fun h => absurd rfl h)
    (by simp) ⟨[], c, cs', [], [], b.msgs, rfl, rfl, rfl, ⟨rfl, rfl⟩, ⟨rfl, rfl⟩, rfl, ⟨rfl, rfl⟩, rfl,
    by simp, by simp⟩

end Victim

section Way

variable {blks : Int64 → Option Node} {n : ℕ} {cs l r ds : List (GefsKvp × Beps n)}
  {c : GefsKvp × Beps n} {lo hi : Option Bytes} {b : Node} {p q : Path} {ms A P C : List GefsMsg}

theorem Way.feeds (hw : Way p b l c r lo hi A P C) (hs : Sorted GefsMsg.k b.msgs)
    (hp : ∀ m ∈ b.msgs, Plain m) : Feeds p P (leftBound l c lo) (rightBound r hi) where
  range := by
    rw [Path.range, hw.ins, hw.block, hw.range.1, hw.range.2, show
      ((A.length + P.length : ℤ) - A.length).toNat = P.length by omega]
    simp [hw.msgs]
  size := hw.size.ge
  inRange := hw.inRange
  sorted := hs.sublist (by
    rw [hw.msgs]
    exact (List.sublist_append_left _ _).trans (List.sublist_append_right _ _))
  plain m hm := hp m (by rw [hw.msgs]; simp [hm])

/-- The tree below a child. -/
theorem Sub.child {b' : Node} (h : Sub blks (n + 1) (l ++ c :: r, ms) lo hi b)
    (ht : TopOf blks n c.2 b') : Sub blks n c.2 (leftBound l c lo) (rightBound r hi) b' := by
  obtain ⟨hf, -, -⟩ := ordered_pivot.1 h.ordered
  obtain ⟨hc, -, ho, -⟩ := forest_cons.1 (forest_append.1 hf).2.1
  refine ⟨ht, Ordered.mono ho (fun k hk x hx => ?_) (.refl _), h.peopled.2 c (by simp),
    fun m hm => ?_⟩
  · unfold leftBound at hx
    split_ifs at hx
    · exact (hc.1 x hx).trans (hk _ rfl)
    · exact Option.some.inj hx ▸ hk _ rfl
  · refine h.plain m ?_
    rw [allOps_pivot]
    exact List.mem_append_left _ (List.mem_flatMap.2 ⟨c, by simp, hm⟩)

theorem Outcome.entries {U : List GefsMsg} {T : Beps n} (h : Outcome blks q U n T lo hi ds) :
    ds.map (·.1) = q.entries := by
  have hpieces := h.pieces
  unfold Path.entries
  generalize q.nl.toList ++ q.nr.toList = bs at hpieces
  clear h
  induction hpieces with
  | nil => rfl
  | cons hp _ ih => rw [List.map_cons, List.map_cons, hp.entry, ih]

theorem Outcome.nodes {U : List GefsMsg} {T : Beps n} (h : Outcome blks q U n T lo hi ds) :
    ∀ d ∈ ds, ∃ bp, valBptr d.1.2 = some bp ∧ NodeIn blks n d.2 bp := by
  intro d hd
  obtain ⟨b, -, hp⟩ := exists_of_forall₂ h.pieces d hd
  exact ⟨b.bp, by rw [hp.entry, valBptr_entry], hp.nodes⟩

/-- What was pulled below is gone from the buffer, and stands below. -/
theorem Way.refit (hw : Way p b l c r lo hi A P C) (hs : Sub blks (n + 1) (l ++ c :: r, ms) lo hi b)
    (ho : Outcome blks q P n c.2 (leftBound l c lo) (rightBound r hi) ds) :
    Refit blks p (some q) b n (l ++ c :: r) lo hi ds := by
  obtain ⟨hf, -, -⟩ := ordered_pivot.1 hs.ordered
  have hkept : p.kept (some q) b = A ++ (P.drop q.npull ++ C) := by
    unfold Path.kept
    dsimp only
    rw [hw.range.1, if_pos (by omega), hw.msgs, Int.toNat_natCast, List.take_left,
      List.drop_append, List.drop_append, List.drop_eq_nil_of_le (by omega)]
    rw [Nat.add_sub_cancel_left, List.nil_append, Nat.sub_eq_zero_of_le ho.pulled, List.drop_zero]
  refine ⟨hw.block, hw.fresh, hw.idx.2.trans hw.idx.1.symm, fun x hx => ?_, fun h => ?_, .inl ho.ne,
    ho.entries, ho.nodes, ho.peopled, ho.plain, fun l' c' r' hcs hj => ?_, ?_, ?_⟩
  · obtain rfl := Option.some.inj hx
    exact ho.op
  · cases h
  · obtain ⟨rfl, h⟩ := List.append_inj hcs (by
      rw [hw.idx.1] at hj
      omega)
    obtain ⟨rfl, rfl⟩ := List.cons.inj h
    exact ho.forest
  · rw [hkept, hw.msgs]
    exact (List.Sublist.refl A).append ((List.drop_sublist _ _).append (.refl C))
  · have hj : ((0 : ℕ) + l.length : ℤ) = p.idx := by
      rw [hw.idx.1]
      push_cast
      omega
    rw [expand_at hj, hkept, hw.msgs, forestOps_append, forestOps_cons, forestOps_append,
      forestOps_append, ← List.append_assoc (forestOps n l), ← List.append_assoc (forestOps n l)]
    have hP : A ++ (P ++ C) = A ++ P.take q.npull ++ (P.drop q.npull ++ C) := by
      rw [List.append_assoc A, ← List.append_assoc (P.take _), List.take_append_drop]
    rw [hP]
    refine ho.ops.splice ?_
    -- what is in the child's range is in no other one, nor among the messages before
    intro x hx y hy
    have hin : InRange (leftBound l c lo) (rightBound r hi) x.k := by
      rcases List.mem_append.1 hx with hx | hx
      · rcases List.mem_append.1 hx with hx | hx
        · exact hf.child_inRange x hx
        · exact hw.inRange x (List.mem_of_mem_take hx)
      · exact forestOps_inRange ho.forest x hx
    rcases List.mem_append.1 hy with hy | hy
    · exact (hf.beside hin y hy).symm
    · rintro he
      exact hw.before y hy (he ▸ hin)

end Way

/-! ## The path -/

/-- The path elements above a tree, the lowest first, up to the one with the batch `U`. At the top
is the tree `T₀`, and `P` are the messages the lowest one has for what is below it. -/
inductive Above (blks : Int64 → Option Node) {N : ℕ} (T₀ : Beps N) (U : List GefsMsg) :
    List Path → (n : ℕ) → Beps n → Option Bytes → Option Bytes → List GefsMsg → Prop
  | top {p0 : Path} (hf : Feeds p0 U none none) (hn : p0.nl = none) :
      Above blks T₀ U [p0] N T₀ none none U
  | down {p up : Path} {ps : List Path} {n : ℕ} {l r : List (GefsKvp × Beps n)}
      {c : GefsKvp × Beps n} {ms Q A P C : List GefsMsg} {lo hi : Option Bytes} {b : Node}
      (ha : Above blks T₀ U (up :: ps) (n + 1) (l ++ c :: r, ms) lo hi Q)
      (hs : Sub blks (n + 1) (l ++ c :: r, ms) lo hi b) (hw : Way p b l c r lo hi A P C) :
      Above blks T₀ U (p :: up :: ps) n c.2 (leftBound l c lo) (rightBound r hi) P

/-- The path `path'` left the tree `T'` with the root `rb`, and `r` says how many messages of the
batch are in it. -/
structure Flushed (s' : St) {N : ℕ} (T₀ : Beps N) (U : List GefsMsg) (path' : List Path) (r : Path)
    (rb : Node) (N' : ℕ) (T' : Beps N') : Prop where
  change : N' = N ∧ heightChange path' = some 0 ∨ N' = N + 1 ∧ heightChange path' = some 1
  nodes : NodeIn s'.blks N' T' rb.bp
  ordered : Ordered N' T' none none
  peopled : Peopled N' T'
  plain : ∀ m ∈ allOps N' T', Plain m
  pulled : r.npull ≤ U.length
  ops : OpsTo (allOps N T₀ ++ U.take r.npull) (allOps N' T')

section Path

variable {E : Env} {blks : Int64 → Option Node} {s s' : St} {N n : ℕ} {T₀ : Beps N} {T : Beps n}
  {U P : List GefsMsg} {lo hi : Option Bytes} {b rb : Node} {p q r up : Path}
  {ps rest done path' : List Path} {pp rp : Option Path} {ds : List (GefsKvp × Beps n)}

theorem Above.cons (h : Above blks T₀ U ps n T lo hi P) :
    ∃ up rest, ps = up :: rest ∧ Feeds up P lo hi := by
  cases h with
  | top hf hn => exact ⟨_, _, rfl, hf⟩
  | down ha hs hw =>
    obtain ⟨-, -, hm, -⟩ := hs.top
    obtain ⟨-, hsort, -⟩ := ordered_pivot.1 hs.ordered
    refine ⟨_, _, rfl, hw.feeds (hm ▸ hsort) fun m hmem => hs.plain m ?_⟩
    rw [allOps_pivot]
    exact List.mem_append_right _ (hm ▸ hmem)

/-- The messages for a child go through there. -/
theorem Above.goes (h : Above blks T₀ U ps n T lo hi P)
    (hg : ∀ k, ∃ u, opsVal (allOps N T₀ ++ U) k = some u) :
    ∀ k, ∃ u, opsVal (allOps n T ++ P) k = some u := by
  induction h with
  | top => exact hg
  | @down p up ps n l r c ms Q A P C lo hi b ha hs hw ih =>
    intro k
    obtain ⟨-, -, hm, -⟩ := hs.top
    obtain ⟨hf, -, -⟩ := ordered_pivot.1 hs.ordered
    by_cases hk : InRange (leftBound l c lo) (rightBound r hi) k
    · obtain ⟨u, hu⟩ := ih k
      have hl : (forestOps n l).filter (·.k = k) = [] :=
        Keyed.filter_eq_nil fun m hm => hf.beside hk m (List.mem_append_left _ hm)
      have hr : (forestOps n r).filter (·.k = k) = [] :=
        Keyed.filter_eq_nil fun m hm => hf.beside hk m (List.mem_append_right _ hm)
      have hA : A.filter (·.k = k) = [] :=
        Keyed.filter_eq_nil fun m hm he => hw.before m hm (he ▸ hk)
      have hall : opsVal (allOps (n + 1) (l ++ c :: r, ms) ++ Q) k
          = opsVal (allOps n c.2 ++ P ++ (C ++ Q)) k := Keyed.eval_congr (by
        rw [allOps_pivot, ← hm, hw.msgs, forestOps_append, forestOps_cons]
        simp only [List.filter_append, hl, hr, hA, List.nil_append, List.append_assoc])
      exact Keyed.eval_left (hall ▸ hu)
    · refine ⟨none, ?_⟩
      have hc : (allOps n c.2).filter (·.k = k) = [] :=
        Keyed.filter_eq_nil fun m hm he => hk (he ▸ hf.child_inRange m hm)
      have hP : P.filter (·.k = k) = [] :=
        Keyed.filter_eq_nil fun m hm he => hk (he ▸ hw.inRange m hm)
      unfold opsVal Keyed.eval
      rw [List.filter_append, hc, hP]
      rfl

theorem topOf_node {bp : GefsBptr} : ∀ {n : ℕ} {T : Beps n}, NodeIn blks n T bp →
    blks bp.addr = some b → TopOf blks n T { b with bp := bp }
  | 0, es, ⟨b', hb', _, hp, hv⟩, hb => by
    obtain rfl := Option.some.inj (hb'.symm.trans hb)
    exact ⟨hp, hv⟩
  | n + 1, (cs, ms), ⟨⟨b', hb', _, hp, hv, hm⟩, hc⟩, hb => by
    obtain rfl := Option.some.inj (hb'.symm.trans hb)
    exact ⟨hp, hv, hm, hc⟩

/-- The path down ends at the top of a tree. -/
theorem descent_ok {nmsg : ℕ} : ∀ {fuel : ℕ} {b : Node} {ps : List Path} {n : ℕ} {T : Beps n}
    {lo hi : Option Bytes} {P : List GefsMsg} {s : St}, Above s.blks T₀ U ps n T lo hi P →
    Sub s.blks n T lo hi b → exec (descent E nmsg fuel b ps) s = (.ok path', s') →
    Still s s' ∧ ∃ b' ps' n' T' lo' hi' P', path' = rootPath b' :: ps'
      ∧ Above s.blks T₀ U ps' n' T' lo' hi' P' ∧ Sub s.blks n' T' lo' hi' b'
  | 0, _, _, _, _, _, _, _, _, _, _, h => by
    unfold descent at h
    cases h
  | fuel + 1, b, ps, n, T, lo, hi, P, s, ha, hs, h => by
    unfold descent at h
    split_ifs at h with hc
    · rcases n with _ | n
      · rw [hs.top.1] at hc
        cases hc.1
      obtain ⟨cs, ms⟩ := T
      obtain ⟨hp, hv, hm, hnodes⟩ := hs.top
      obtain ⟨l, c, r, A, P', C, rfl, hw⟩ := victim_ok hv hs.peopled.1 (hm ▸ hs.ordered)
      dsimp only at h
      obtain ⟨kv, s₁, h1, h2⟩ := exec_bind_eq_ok h
      obtain ⟨hkv, rfl⟩ := must_ok h1
      obtain ⟨bp, s₂, h3, h4⟩ := exec_bind_eq_ok h2
      obtain ⟨hbp, rfl⟩ := must_ok h3
      obtain ⟨b', s₃, h5, h6⟩ := exec_bind_eq_ok h4
      obtain ⟨hst, b₀, hb₀, rfl⟩ := getblk_ok (onError_ok h5)
      have hkv' : kv = c.1 := by
        rw [hw.idx.1, Int.toNat_natCast, hv, List.map_append, List.getElem?_append_right (by simp)]
          at hkv
        simpa using hkv.symm
      obtain ⟨bp', hbp', hin⟩ := hnodes c (by simp)
      obtain rfl : bp = bp' := Option.some.inj (hbp.symm.trans (hkv' ▸ hbp'))
      obtain ⟨up, rest, rfl, -⟩ := ha.cons
      have hdown := Above.down ha hs hw
      have hchild := hs.child (topOf_node hin hb₀)
      rw [← hst.blks] at hdown hchild
      obtain ⟨hst', hres⟩ := descent_ok hdown hchild h6
      rw [hst.blks] at hres
      exact ⟨hst.trans hst', hres⟩
    · obtain ⟨rfl, rfl⟩ := (Prod.mk.inj h).imp_left Except.ok.inj
      exact ⟨.refl _, b, ps, n, T, lo, hi, P, rfl, ha, hs⟩

/-- One block on the way up. -/
theorem flushUp_cons {x : List Path × Option Path} (hb : p.b = some b)
    (hop : ∀ q ∈ pp, q.op = .pomod ∨ q.op = .posplit)
    (h : exec (flushUp E (p :: up :: rest) pp rp done) s = (.ok x, s')) :
    ∃ p' rp' s₁, (exec (updatepiv E up p pp) s = (.ok p', s₁) ∧ rp' = some p'
        ∨ exec (splitpiv E p pp) s = (.ok p', s₁) ∧ rp' = rp)
      ∧ exec (flushUp E (up :: rest) (some p') rp' (p' :: done)) s₁ = (.ok x, s') := by
  have hno : ¬ (rest = [] ∧ (∃ q ∈ pp, q.op = .pomerge) ∧ b.nval = 2) := by
    rintro ⟨-, ⟨q, hq, hm⟩, -⟩
    rcases hop q hq with ho | ho <;> rw [ho] at hm <;> cases hm
  unfold flushUp at h
  rw [hb] at h
  simp only [must, pure_bind, trybalance_eq, if_neg hno] at h
  split_ifs at h
  · obtain ⟨p', s₁, h1, h2⟩ := exec_bind_eq_ok h
    exact ⟨p', rp, s₁, .inr ⟨h1, rfl⟩, h2⟩
  · obtain ⟨p', s₁, h1, h2⟩ := exec_bind_eq_ok h
    exact ⟨p', some p', s₁, .inl ⟨h1, rfl⟩, h2⟩

theorem Outcome.both (h : Outcome blks q P n T lo hi ds) (hd : ds.length = 2) :
    q.nl.isSome ∧ q.nr.isSome := by
  have hlen := h.pieces.length_eq
  rw [hd, List.length_append] at hlen
  rcases hl : q.nl with _ | _ <;> rcases hr : q.nr with _ | _ <;> simp [hl, hr] at hlen ⊢

/-- Two blocks at the top go under a new root. -/
theorem newRoot_ok {ds : List (GefsKvp × Beps N)} {p0 : Path} {x : List Path × Option Path}
    (hb : Backed s)
    (ho : Outcome s.blks q U N T₀ none none ds) (hx : exec (do
      let n ← newblk E true
      let (n, _) ← copyup n q
      let n ← enqueue E n
      let p0 := { p0 with nl := some n, npull := q.npull, pullsz := q.pullsz }
      pure (p0 :: q :: done, some p0)) s = (.ok x, s')) :
    Grows s s' ∧ ∃ r rb, x.2 = some r ∧ r.nl = some rb
      ∧ Flushed s' T₀ U x.1 r rb (N + 1) (ds, []) := by
  obtain ⟨n, s₁, h1, h2⟩ := exec_bind_eq_ok hx
  obtain ⟨hn, hg, hbl, -⟩ := newblk_ok hb h1
  obtain ⟨⟨n', i⟩, s₂, h3, h4⟩ := exec_bind_eq_ok h2
  obtain ⟨rfl, hn', hroom⟩ := copyup_ok h3
  dsimp only at hn' hroom h4
  have hn'' : n' = ⟨n.bp, true, ds.map (·.1), []⟩ := by
    rw [hn', hn, ho.entries]
    rfl
  have hne : n'.vals ≠ [] := by
    rw [hn'']
    simpa using ho.ne
  obtain ⟨c, s₃, h5, h6⟩ := exec_bind_eq_ok h4
  have hset : exec (setb E n') s₂ = (.ok (some c), s₃) := by
    have hnv : n'.nval ≠ 0 := fun h0 => hne (List.length_eq_zero_iff.1 h0)
    unfold setb
    rw [if_neg hnv, exec_map, h5]
  obtain ⟨c', hc', -, hcp, hcv, hcm, hcb, hg', -⟩ := setb_ok hne (by rw [hn'']; exact hbl) hset
  obtain rfl := Option.some.inj hc'
  rw [exec_pure, Prod.mk.injEq, Except.ok.injEq] at h6
  obtain ⟨rfl, rfl⟩ := h6
  have hcroom : c.Roomy := (hroom (by
    rw [hn]
    exact ⟨Nat.zero_le _, Nat.zero_le _⟩)).of_eq hcp hcv hcm
  rw [hn''] at hcp hcv hcm
  have hpiece : Piece s₃.blks (N + 1) c (c.entry, ((ds, []) : Beps (N + 1))) :=
    piece_pivot hcb hcroom hcp hcv hcm (by simp) fun d hd => by
      obtain ⟨bp, hbp, hin⟩ := ho.nodes d hd
      exact ⟨bp, hbp, (hin.mono hg.blks).mono hg'.blks⟩
  have hops : allOps (N + 1) (ds, []) = forestOps N ds := by rw [allOps_pivot, List.append_nil]
  exact ⟨hg.trans hg', _, c, rfl, rfl, .inr ⟨rfl, rfl⟩, hpiece.nodes,
    ordered_pivot.2 ⟨ho.forest, .nil, by simp⟩, ⟨ho.ne, ho.peopled⟩, hops ▸ ho.plain, ho.pulled,
    hops ▸ ho.ops⟩

/-- From a block rewritten to the root. -/
theorem flushUp_ok (h : Above blks T₀ U ps n T lo hi P) : ∀ {q : Path} {done : List Path}
    {rp : Option Path} {s : St} {ds : List (GefsKvp × Beps n)},
    (∀ a c, blks a = some c → s.blks a = some c) → Backed s →
    Outcome s.blks q P n T lo hi ds → (q.nl.isSome ∧ q.nr.isSome) ∨ rp = some q →
    exec (flushUp E ps (some q) rp (q :: done)) s = (.ok (path', some r), s') → r.nl = some rb →
    Grows s s' ∧ ∃ N' T', Flushed s' T₀ U path' r rb N' T' := by
  induction h with
  | @top p0 hf hn =>
    intro q done rp s ds _ hb ho hrp hx hrb
    unfold flushUp at hx
    simp only [must, pure_bind] at hx
    split_ifs at hx with hboth
    · obtain ⟨hg, r', rb', hr', hrb', hfl⟩ := newRoot_ok hb ho hx
      obtain rfl := Option.some.inj hr'
      obtain rfl : rb = rb' := Option.some.inj (hrb.symm.trans hrb')
      exact ⟨hg, _, _, hfl⟩
    · obtain rfl := hrp.resolve_left hboth
      rw [exec_pure, Prod.mk.injEq, Except.ok.injEq, Prod.mk.injEq, Option.some.injEq] at hx
      obtain ⟨⟨rfl, rfl⟩, rfl⟩ := hx
      have hnr : q.nr = none := by
        rcases hnr : q.nr with _ | _
        · rfl
        · exact absurd ⟨by rw [hrb]; rfl, by rw [hnr]; rfl⟩ hboth
      have hpieces := ho.pieces
      rw [hrb, hnr] at hpieces
      obtain ⟨d, hd⟩ := List.length_eq_one_iff.1 (hpieces.length_eq.symm.trans rfl)
      subst hd
      obtain ⟨hp, -⟩ := List.forall₂_cons.1 hpieces
      obtain ⟨-, -, hord, -⟩ := forest_cons.1 ho.forest
      have hops : forestOps N [d] = allOps N d.2 := by simp
      refine ⟨.refl _, N, d.2, .inl ⟨rfl, ?_⟩, hp.nodes, Ordered.mono hord (fun _ _ x hx => ?_)
        (.refl _), ho.peopled d (by simp), hops ▸ ho.plain, ho.pulled, hops ▸ ho.ops⟩
      · unfold heightChange
        simp [hn, hrb]
      · cases hx
  | @down p up ps n l r' c ms Q A P C lo hi b ha hs hw ih =>
    intro q done rp s ds hblks hb ho hrp hx hrb
    have hs' := hs.mono hblks
    have hrefit := hw.refit hs' ho
    obtain ⟨p', rp', s₁, hcase, h1⟩ := flushUp_cons hw.block hrefit.op hx
    obtain ⟨_, _, hps, hfeeds⟩ := ha.cons
    obtain ⟨rfl, rfl⟩ := List.cons.inj hps
    rcases hcase with ⟨hupd, rfl⟩ | ⟨hsplit, rfl⟩
    · obtain ⟨hg, -, ds', ho'⟩ := updatepiv_ok hs' hrefit hfeeds hb hupd
      obtain ⟨hg', hres⟩ := ih (fun a c hc => hg.blks a c (hblks a c hc)) (hg.backed hb) ho'
        (.inr rfl) h1 hrb
      exact ⟨hg.trans hg', hres⟩
    · obtain ⟨hg, ds', ho', hlen⟩ := splitpiv_ok hs' hrefit hb hsplit
      obtain ⟨hg', hres⟩ := ih (fun a c hc => hg.blks a c (hblks a c hc)) (hg.backed hb) ho'
        (.inl (ho'.both hlen)) h1 hrb
      exact ⟨hg.trans hg', hres⟩

theorem rootPath_idx (b : Node) : (rootPath b).idx < 0 := neg_one_lt_zero

/-- A pivot at the bottom, with nothing rewritten below it. -/
theorem refit_none {cs : List (GefsKvp × Beps n)} : Refit blks (rootPath b) none b n cs lo hi [] where
  block := rfl
  fresh := ⟨rfl, rfl⟩
  midx := rfl
  op := by simp
  off _ := rootPath_idx b
  ne := .inr (rootPath_idx b)
  entries := rfl
  nodes := by simp
  peopled := by simp
  plain := by simp
  replaces l c r _ hj := by
    have := rootPath_idx b
    omega
  kept := .refl _
  ops := by
    rw [expand_off (.inl (rootPath_idx b))]
    exact .refl _

theorem Outcome.setMidx {j : ℤ} (h : Outcome blks q P n T lo hi ds) :
    Outcome blks { q with midx := j } P n T lo hi ds :=
  ⟨h.op, h.pieces, h.ne, h.forest, h.peopled, h.plain, h.pulled, h.ops⟩

/-- A path flushed. -/
theorem flush_ok (ha : Above s.blks T₀ U ps n T lo hi P) (hs : Sub s.blks n T lo hi b)
    (hg : ∀ k, ∃ u, opsVal (allOps N T₀ ++ U) k = some u) (hb : Backed s)
    (hx : exec (flush E (rootPath b :: ps)) s = (.ok (path', some r), s')) (hrb : r.nl = some rb) :
    Grows s s' ∧ ∃ N' T', Flushed s' T₀ U path' r rb N' T' := by
  obtain ⟨up, rest, rfl, hfeeds⟩ := ha.cons
  have hmust : must (rootPath b).b = (pure b : Op Node) := rfl
  unfold flush at hx
  dsimp only at hx
  rw [hmust, pure_bind] at hx
  rcases n with _ | n
  · obtain ⟨hp, hv⟩ := hs.top
    have hjob : LeafJob (rootPath b) up b T P lo hi := ⟨rfl, hp, hv, rfl, hfeeds.range, hfeeds.size,
      hs.ordered, hs.peopled, hfeeds.inRange, hfeeds.sorted, hfeeds.plain, ha.goes hg⟩
    rw [if_neg (by rw [hp]; exact Bool.false_ne_true)] at hx
    split_ifs at hx with hf
    · obtain ⟨p', s₁, h1, h2⟩ := exec_bind_eq_ok hx
      obtain ⟨hg₁, ds, ho, hlen⟩ := splitleaf_ok hjob hb h1
      obtain ⟨hg₂, hres⟩ := flushUp_ok ha hg₁.blks (hg₁.backed hb) (ho.setMidx (j := -1))
        (.inl (ho.both hlen)) h2 hrb
      exact ⟨hg₁.trans hg₂, hres⟩
    · obtain ⟨p', s₁, h1, h2⟩ := exec_bind_eq_ok hx
      obtain ⟨hg₁, ds, ho⟩ := updateleaf_ok hjob hb (by simpa using hf) h1
      obtain ⟨hg₂, hres⟩ := flushUp_ok ha hg₁.blks (hg₁.backed hb) (ho.setMidx (j := -1)) (.inr rfl) h2 hrb
      exact ⟨hg₁.trans hg₂, hres⟩
  · obtain ⟨cs, ms⟩ := T
    rw [if_pos hs.top.1] at hx
    obtain ⟨p', rp', s₁, hcase, h1⟩ := flushUp_cons rfl (by simp) hx
    rcases hcase with ⟨hupd, rfl⟩ | ⟨hsplit, rfl⟩
    · obtain ⟨hg₁, -, ds, ho⟩ := updatepiv_ok hs refit_none hfeeds hb hupd
      obtain ⟨hg₂, hres⟩ := flushUp_ok ha hg₁.blks (hg₁.backed hb) ho (.inr rfl) h1 hrb
      exact ⟨hg₁.trans hg₂, hres⟩
    · obtain ⟨hg₁, ds, ho, hlen⟩ := splitpiv_ok hs refit_none hb hsplit
      obtain ⟨hg₂, hres⟩ := flushUp_ok ha hg₁.blks (hg₁.backed hb) ho (.inl (ho.both hlen)) h1 hrb
      exact ⟨hg₁.trans hg₂, hres⟩

end Path

end GefsFuse.Server.Btree
