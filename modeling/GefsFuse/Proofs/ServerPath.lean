import GefsFuse.Proofs.ServerMerge
import GefsFuse.Proofs.ServerSlow

/-!
# A block of the path rewritten

`flush` goes up a path and rewrites each of its blocks: into one, or into two where it is too full.
What stands for the block then is a forest over its range of keys, and the messages pulled from
above are done there (`Outcome`).
-/

namespace GefsFuse.Server.Btree

open Effects SortedMap Stable

/-! ## What stands for a block -/

/-- The key a block gets in the pivot above: its least one. -/
def Node.least (b : Node) : Bytes :=
  match b.vals, b.msgs with
  | [], _ => []
  | kv :: _, [] => kv.1
  | kv :: _, m :: _ => if 0 < gefsKeycmp kv.1 m.k then m.k else kv.1

/-- The entry of a block in the pivot above. -/
def Node.entry (b : Node) : GefsKvp := (b.least, gefsPackbp b.bp ++ pack16 (blkfill b))

/-- The block `b` is written, and `d` is its entry with the tree below it. -/
structure Piece (blks : Int64 → Option Node) (n : ℕ) (b : Node) (d : GefsKvp × Beps n) : Prop where
  entry : d.1 = b.entry
  nodes : NodeIn blks n d.2 b.bp

/-- `q` has the blocks of the forest `ds` in the place of one with the tree `T`, and as many of the
messages `P` done there as it pulled. -/
structure Outcome (blks : Int64 → Option Node) (q : Path) (P : List GefsMsg) (n : ℕ) (T : Beps n)
    (lo hi : Option Bytes) (ds : List (GefsKvp × Beps n)) : Prop where
  op : q.op = .pomod ∨ q.op = .posplit
  pieces : List.Forall₂ (Piece blks n) (q.nl.toList ++ q.nr.toList) ds
  ne : ds ≠ []
  forest : Forest n ds lo hi
  peopled : ∀ d ∈ ds, Peopled n d.2
  plain : ∀ m ∈ forestOps n ds, Plain m
  pulled : q.npull ≤ P.length
  ops : OpsTo (allOps n T ++ P.take q.npull) (forestOps n ds)

section Pieces

variable {blks blks' : Int64 → Option Node} {b : Node} {lo hi : Option Bytes} {es : List GefsKvp}

theorem valBptr_entry (b : Node) : valBptr b.entry.2 = some b.bp := by
  have hat : ByteMem.At (memOf b.entry.2) 0 (gefsPackbp b.bp) :=
    (ByteMem.at_append.1 (at_memOf (gefsPackbp b.bp ++ pack16 (blkfill b)))).1
  rw [valBptr, if_neg, gefsUnpackbp_at hat]
  simp [Node.entry, gefsPtrsz]

theorem Node.Roomy.fits (h : b.Roomy) (hm : ∀ m ∈ b.msgs, Plain m)
    (hl : b.pivot = false → b.msgs = []) : b.Fits where
  vals := by
    rw [used_eq]
    exact h.1
  msgs := by
    have := buffill_eq b
    unfold buffill at this
    rw [this]
    exact h.2
  ops m hm' := (hm m hm').ofByte
  leaf := hl

/-- A leaf that was written. -/
theorem piece_leaf (hb : blks b.bp.addr = some b) (hr : b.Roomy) (hp : b.pivot = false)
    (hm : b.msgs = []) (hv : b.vals = es) : Piece blks 0 b (b.entry, es) :=
  ⟨rfl, b, hb, hr.fits (by simp [hm]) fun _ => hm, hp, hv⟩

theorem least_leaf {e : GefsKvp} (hv : b.vals = e :: es) (hm : b.msgs = []) : b.least = e.1 := by
  rw [Node.least, hv, hm]

/-- A part of the values of a leaf as a child. -/
theorem forest_leaf (hv : b.vals = es) (hm : b.msgs = []) (hne : es ≠ []) (ha : Ascending es)
    (hr : ∀ e ∈ es, InRange lo hi e.1) : Forest 0 [(b.entry, (es : Beps 0))] lo hi := by
  obtain ⟨e, es, rfl⟩ := List.exists_cons_of_ne_nil hne
  have hk : b.entry.1 = e.1 := least_leaf hv hm
  refine forest_cons.2 ⟨?_, by simp, ⟨ha, fun x hx => ⟨fun y hy => ?_, (hr x hx).2⟩⟩, forest_nil⟩
  · show InRange lo hi b.entry.1
    rw [hk]
    exact hr e List.mem_cons_self
  · obtain rfl := Option.some.inj hy
    rw [hk]
    rcases List.mem_cons.1 hx with rfl | hx
    · exact le_rfl
    · exact ((List.pairwise_cons.1 ha).1 x hx).le

end Pieces

/-! ## Leaves -/

section Leaves

variable {E : Env} {s s' : St} {up p p' : Path} {b : Node} {es : List GefsKvp} {P : List GefsMsg}
  {lo hi : Option Bytes}

/-- What the leaf at the bottom of the path has to be, with the messages above it. -/
structure LeafJob (p up : Path) (b : Node) (es : List GefsKvp) (P : List GefsMsg)
    (lo hi : Option Bytes) : Prop where
  block : p.b = some b
  leaf : b.pivot = false
  vals : b.vals = es
  fresh : p.nr = none
  range : up.range = P
  size : msgSum P ≤ up.sz
  ordered : Ordered 0 es lo hi
  peopled : es ≠ []
  inRange : ∀ m ∈ P, InRange lo hi m.k
  sorted : Sorted GefsMsg.k P
  plain : ∀ m ∈ P, Plain m
  goes : ∀ k, ∃ u, opsVal (allOps 0 es ++ P) k = some u

theorem LeafJob.mergable (h : LeafJob p up b es P lo hi) : Mergable es P :=
  ⟨h.ordered.1, h.sorted, h.plain, h.goes⟩

/-- What is made of the values and a first part of the messages lies in the range. -/
theorem LeafJob.out_inRange (h : LeafJob p up b es P lo hi) {Q rest : List GefsMsg}
    {out : List GefsKvp} (hP : P = Q ++ rest) (ha : Absorbs es Q out) :
    ∀ e ∈ out, InRange lo hi e.1 := by
  intro e he
  rcases (ha.keys e.1).1 ⟨e, he, rfl⟩ with ⟨v, hv, hk⟩ | ⟨m, hm, hk⟩
  · exact hk ▸ h.ordered.2 v hv
  · exact hk ▸ h.inRange m (by rw [hP]; simp [hm])

theorem updateleaf_ok (h : LeafJob p up b es P lo hi) (hs : Backed s)
    (hf : filledleaf b up.sz = false) (hx : exec (updateleaf E up p) s = (.ok p', s')) :
    Grows s s' ∧ ∃ ds, Outcome s'.blks p' P 0 es lo hi ds := by
  obtain ⟨b', s₁, h1, h2⟩ := exec_bind_eq_ok hx
  obtain ⟨hb, rfl⟩ := must_ok h1
  obtain rfl : b = b' := Option.some.inj (h.block.symm.trans hb)
  obtain ⟨n, s₂, h3, h4⟩ := exec_bind_eq_ok h2
  obtain ⟨hn, hg, hbl, -⟩ := newblk_ok hs h3
  obtain ⟨w, s₃, h5, h6⟩ := exec_bind_eq_ok h4
  rw [h.range, h.vals] at h5
  -- all the messages fit
  have hspc : (msgSum P : ℤ) ≤ gefsLeafspc - blkfill b := by
    have hu := used_eq b
    have hsz := h.size
    simp only [filledleaf, decide_eq_false_iff_not, not_lt] at hf
    simp only [blkfill, h.leaf, Bool.false_eq_true, if_false]
    omega
  obtain ⟨hst, out, ha, hwn, hroom, hpull⟩ := updateleafLoop_ok h.mergable rfl hspc
    (fun m _ => .inl rfl) h5
  have hout : out ≠ [] := absorbs_of_ne_nil ha h.peopled
  have hwn' : w.n = ⟨n.bp, false, out, []⟩ := by
    rw [hwn, hn, h.leaf]
    rfl
  have hroomy : w.n.Roomy := hroom (by
    rw [hn]
    exact ⟨Nat.zero_le _, Nat.zero_le _⟩)
  obtain ⟨o, s₄, h7, h8⟩ := exec_bind_eq_ok h6
  obtain ⟨c, rfl, hca, hcp, hcv, hcm, hcb, hg', -⟩ := setb_ok (by rw [hwn']; exact hout)
    (hst.blank (by rw [hwn']; exact hbl)) h7
  rw [exec_pure, Prod.mk.injEq, Except.ok.injEq] at h8
  obtain ⟨rfl, rfl⟩ := h8
  rw [hwn'] at hcp hcv hcm
  have hcroom : c.Roomy := by
    unfold Node.Roomy Node.used Node.spc at hroomy ⊢
    rw [hwn'] at hroomy
    rw [hcv, hcm, hcp]
    exact hroomy
  have hlen : P.take w.pulled = P := by
    rw [hpull]
    simp
  refine ⟨(hg.trans hst.grows).trans hg', [(c.entry, out)], .inl rfl, ?_, by simp,
    forest_leaf hcv hcm hout ha.asc (h.out_inRange (List.append_nil P).symm ha), ?_, ?_, ?_, ?_⟩
  · show List.Forall₂ _ ([c] ++ p.nr.toList) _
    rw [h.fresh]
    exact .cons (piece_leaf hcb hcroom hcp hcm hcv) .nil
  · rw [List.forall_mem_singleton]
    exact hout
  · intro m hm
    obtain ⟨e, -, rfl⟩ := List.mem_map.1 (by simpa [allOps] using hm : m ∈ out.map pairMsg)
    exact plain_pairMsg e
  · show w.pulled ≤ _
    rw [hpull]
    exact (Nat.zero_add _).le
  · show OpsTo (_ ++ P.take w.pulled) _
    rw [hlen]
    simpa [allOps] using ha.ops

theorem forestOps_leaves (a c : GefsKvp) (l r : List GefsKvp) :
    forestOps 0 [(a, (l : Beps 0)), (c, (r : Beps 0))] = (l ++ r).map pairMsg := by
  show l.map pairMsg ++ (r.map pairMsg ++ []) = _
  rw [List.append_nil, List.map_append]

/-- The values of a block written from a new one. -/
theorem roomy_of_new {c w n : Node} {out : List GefsKvp} (hn : n = ⟨n.bp, b.pivot, [], []⟩)
    (hw : w = n.addVals out) (hroom : n.Roomy → w.Roomy) (hcp : c.pivot = w.pivot)
    (hcv : c.vals = w.vals) (hcm : c.msgs = w.msgs) :
    c.Roomy ∧ c.pivot = b.pivot ∧ c.vals = out ∧ c.msgs = [] := by
  have hroomy : w.Roomy := hroom (by
    rw [hn]
    exact ⟨Nat.zero_le _, Nat.zero_le _⟩)
  rw [hn] at hw
  refine ⟨?_, by rw [hcp, hw]; rfl, by rw [hcv, hw]; rfl, by rw [hcm, hw]; rfl⟩
  unfold Node.Roomy Node.used Node.spc at hroomy ⊢
  rwa [hcv, hcm, hcp]

theorem splitleaf_ok (h : LeafJob p up b es P lo hi) (hs : Backed s)
    (hx : exec (splitleaf E up p) s = (.ok p', s')) :
    Grows s s' ∧ ∃ ds, Outcome s'.blks p' P 0 es lo hi ds ∧ ds.length = 2 := by
  obtain ⟨b', s₁, h1, h2⟩ := exec_bind_eq_ok hx
  obtain ⟨hb, rfl⟩ := must_ok h1
  obtain rfl : b = b' := Option.some.inj (h.block.symm.trans hb)
  obtain ⟨l, s₂, h3, h4⟩ := exec_bind_eq_ok h2
  obtain ⟨hln, hgl, hbl, -⟩ := newblk_ok hs h3
  obtain ⟨r, s₃, h5, h6⟩ := exec_bind_eq_ok h4
  obtain ⟨hrn, hgr, hbr, hother⟩ := newblk_ok (hgl.backed hs) (onError_ok h5)
  obtain ⟨hbl', hne⟩ := hother _ hbl
  have h7 := onError_ok h6
  by_cases h4 : b.nval < 4
  · rw [if_pos h4] at h7
    obtain ⟨_, _, h8, -⟩ := exec_bind_eq_ok h7
    cases h8
  rw [if_neg h4] at h7
  obtain ⟨⟨l', w⟩, s₄, h8, h9⟩ := exec_bind_eq_ok h7
  rw [h.range, h.vals] at h8
  have hlen : es.length = b.nval := by rw [← h.vals]; rfl
  obtain ⟨hst, Q, rest, out, hP, ha, hpull, -, -, hhalf⟩ := splitleafLoop_ok (not_lt.1 h4)
    (show Ascending es from h.ordered.1) (fun _ => h.mergable) (by omega)
    (fun _ => ⟨Nat.zero_le _, by omega⟩) h8
  obtain ⟨outl, outr, rfl, hl', hwn, hnel, hner, hrooml, hroomr⟩ := hhalf rfl
  rw [hl'] at h9
  obtain ⟨nl, s₅, h10, h11⟩ := exec_bind_eq_ok h9
  obtain ⟨cl, rfl, hla, hlp, hlv, hlm, hlb, hg₁, hkeep⟩ := setb_ok (b := l.addVals outl)
    (by rw [hln] at hnel ⊢; exact hnel) (hst.blank hbl') h10
  obtain ⟨nr, s₆, h12, h13⟩ := exec_bind_eq_ok h11
  simp only [reduceCtorEq, if_false] at h12
  have hra : w.n.bp.addr = r.bp.addr := by rw [hwn]; rfl
  obtain ⟨cr, rfl, hra', hrp, hrv, hrm, hrb, hg₂, -⟩ := setb_ok (b := w.n)
    (by rw [hwn, hrn]; exact hner)
    (hkeep _ (by rw [hra]; exact hne.symm) (by rw [hra]; exact hst.blank hbr)) h12
  rw [exec_pure, Prod.mk.injEq, Except.ok.injEq] at h13
  obtain ⟨rfl, rfl⟩ := h13
  obtain ⟨hlroom, hlp, hlv, hlm⟩ := roomy_of_new (b := b) hln rfl hrooml hlp hlv hlm
  obtain ⟨hrroom, hrp, hrv, hrm⟩ := roomy_of_new (b := b) hrn hwn hroomr hrp hrv hrm
  have hnel : outl ≠ [] := by
    rw [hln] at hnel
    exact hnel
  have hQ : w.pulled = Q.length := hpull.trans (Nat.zero_add _)
  have hrange := h.out_inRange hP ha
  obtain ⟨hal, har, hcross⟩ := List.pairwise_append.1 ha.asc
  obtain ⟨e, outr', rfl⟩ := List.exists_cons_of_ne_nil hner
  have hre : cr.entry.1 = e.1 := least_leaf hrv hrm
  have hfl := @forest_leaf _ lo (some e.1) _ hlv hlm hnel hal fun x hx =>
    ⟨(hrange x (List.mem_append_left _ hx)).1,
      fun y hy => Option.some.inj hy ▸ hcross x hx e List.mem_cons_self⟩
  have hfr := @forest_leaf _ lo hi _ hrv hrm hner har fun x hx =>
    hrange x (List.mem_append_right _ hx)
  refine ⟨(((hgl.trans hgr).trans hst.grows).trans hg₁).trans hg₂,
    [(cl.entry, outl)] ++ [(cr.entry, e :: outr')],
    ⟨.inr rfl, ?_, List.cons_ne_nil _ _, ?_, ?_, ?_, ?_, ?_⟩, rfl⟩
  · exact .cons (piece_leaf (hg₂.blks _ _ hlb) hlroom (hlp.trans h.leaf) hlm hlv)
      (.cons (piece_leaf hrb hrroom (hrp.trans h.leaf) hrm hrv) .nil)
  · have hfl' : Forest 0 [(cl.entry, (outl : Beps 0))] lo (some cr.entry.1) := by
      rw [hre]
      exact hfl
    refine forest_append.2 ⟨hfl', hfr, fun c hc d hd => ?_⟩
    obtain rfl := List.mem_singleton.1 hc
    obtain rfl := List.mem_singleton.1 hd
    rw [hre]
    exact (hfl.keys _ hc).2 _ rfl
  · intro d hd
    rcases List.mem_cons.1 hd with rfl | hd
    · exact hnel
    · obtain rfl := List.mem_singleton.1 hd
      exact hner
  · intro m hm
    obtain ⟨x, -, rfl⟩ := List.mem_map.1 ((forestOps_leaves _ _ outl (e :: outr')) ▸ hm)
    exact plain_pairMsg x
  · show w.pulled ≤ _
    rw [hQ, hP, List.length_append]
    omega
  · show OpsTo (_ ++ P.take w.pulled) (forestOps 0 [(cl.entry, outl), (cr.entry, e :: outr')])
    rw [hQ, hP, List.take_left, forestOps_leaves]
    exact ha.ops

end Leaves

end GefsFuse.Server.Btree
