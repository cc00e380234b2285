import GefsFuse.Proofs.ServerPivot

/-!
# What a pivot becomes

A pivot of the path, with the tree below it (`Sub`), is rewritten once the child the path goes on to
is (`Refit`). What then stands for it takes in the messages from above (`Feeds`) as far as they were
pulled, and comes to what the pivot and these did (`updatepiv_ok`, `splitpiv_ok`).
-/

namespace GefsFuse.Server.Btree

open Effects SortedMap Stable

/-! ## The pieces -/

section Expand

variable {α : Type} {j : ℤ} {ds l : List α} {i : ℕ} {a : α}

theorem mem_expand : ∀ {l : List α} {i : ℕ}, a ∈ expand j ds i l → a ∈ l ∨ a ∈ ds
  | [], _, h => absurd h (by simp)
  | x :: l, i, h => by
    rw [expand_cons, List.mem_append] at h
    rcases h with h | h
    · split_ifs at h
      · exact .inr h
      · exact .inl (List.mem_singleton.1 h ▸ List.mem_cons_self)
    · exact (mem_expand h).imp_left (List.mem_cons_of_mem _)

theorem expand_ne_nil (hl : l ≠ []) (hd : ds ≠ [] ∨ j < i) : expand j ds i l ≠ [] := by
  obtain ⟨x, l, rfl⟩ := List.exists_cons_of_ne_nil hl
  rw [expand_cons]
  rcases hd with hd | hd
  · split_ifs <;> simp [hd]
  · rw [if_neg (by omega)]
    simp

end Expand

section Pieces

variable {blks : Int64 → Option Node} {n : ℕ} {b : Node} {ds cs : List (GefsKvp × Beps n)}
  {ms : List GefsMsg} {lo hi : Option Bytes}

/-- The least key of a block in order is one of its keys. -/
theorem least_spec {e : GefsKvp} {es : List GefsKvp} (hv : b.vals = e :: es) (ha : Ascending b.vals)
    (hm : Sorted GefsMsg.k b.msgs) : (∀ v ∈ b.vals, b.least ≤ v.1) ∧ (∀ m ∈ b.msgs, b.least ≤ m.k)
      ∧ (b.least = e.1 ∨ ∃ m ∈ b.msgs, b.least = m.k) := by
  have hle : ∀ v ∈ b.vals, e.1 ≤ v.1 := by
    rw [hv] at ha ⊢
    rw [List.forall_mem_cons]
    exact ⟨le_rfl, fun v hv => ((List.pairwise_cons.1 ha).1 v hv).le⟩
  rcases hms : b.msgs with _ | ⟨m, ms⟩
  · have hl : b.least = e.1 := least_leaf hv hms
    rw [hl]
    exact ⟨hle, by simp, .inl rfl⟩
  · have hl : b.least = if 0 < gefsKeycmp e.1 m.k then m.k else e.1 := by
      rw [Node.least, hv, hms]
    have hmin : ∀ x ∈ m :: ms, m.k ≤ x.k := by
      rw [List.forall_mem_cons]
      exact ⟨le_rfl, (List.pairwise_cons.1 (hms ▸ hm : Sorted GefsMsg.k (m :: ms))).1⟩
    rw [hl]
    split_ifs with hc
    · have hlt : m.k < e.1 := keycmp_pos.1 hc
      exact ⟨fun v hv => hlt.le.trans (hle v hv), hmin, .inr ⟨m, List.mem_cons_self, rfl⟩⟩
    · have hge : e.1 ≤ m.k := not_lt.1 fun h => hc (keycmp_pos.2 h)
      exact ⟨hle, fun x hx => hge.trans (hmin x hx), .inl rfl⟩

/-- A pivot that was written. -/
theorem piece_pivot (hb : blks b.bp.addr = some b) (hr : b.Roomy) (hp : b.pivot = true)
    (hv : b.vals = ds.map (·.1)) (hm : b.msgs = ms) (hpl : ∀ m ∈ ms, Plain m)
    (hn : ∀ d ∈ ds, ∃ bp', valBptr d.1.2 = some bp' ∧ NodeIn blks n d.2 bp') :
    Piece blks (n + 1) b (b.entry, (ds, ms)) :=
  ⟨rfl, ⟨b, hb, hr.fits (by rwa [hm]) (by simp [hp]), hp, hv, hm⟩, hn⟩

/-- As a child it is over the keys from its least one on. -/
theorem forest_pivot (hv : b.vals = ds.map (·.1)) (hm : b.msgs = ms) (hne : ds ≠ [])
    (ho : Ordered (n + 1) (ds, ms) lo hi) :
    Forest (n + 1) [(b.entry, ((ds, ms) : Beps (n + 1)))] lo hi := by
  obtain ⟨hf, hs, hr⟩ := ordered_pivot.1 ho
  obtain ⟨d, ds', rfl⟩ := List.exists_cons_of_ne_nil hne
  obtain ⟨hlv, hlm, hmem⟩ := @least_spec _ d.1 (ds'.map (·.1)) hv (hv ▸ hf.asc) (hm ▸ hs)
  have hin : InRange lo hi b.least := by
    rcases hmem with h | ⟨m, h, h'⟩
    · exact h ▸ hf.keys d List.mem_cons_self
    · exact h' ▸ hr m (hm ▸ h)
  refine forest_cons.2 ⟨hin, by simp, ordered_pivot.2 ⟨⟨hf.asc, fun c hc => ⟨fun x hx => ?_, ?_⟩,
    hf.child⟩, hs, fun m hmem => ⟨fun x hx => ?_, (hr m hmem).2⟩⟩, forest_nil⟩
  · obtain rfl := Option.some.inj hx
    exact hlv c.1 (hv ▸ List.mem_map_of_mem hc)
  · exact (hf.keys c hc).2
  · obtain rfl := Option.some.inj hx
    exact hlm m (hm ▸ hmem)

theorem forestOps_single (a : GefsKvp) (cs : List (GefsKvp × Beps n)) (ms : List GefsMsg) :
    forestOps (n + 1) [(a, ((cs, ms) : Beps (n + 1)))] = forestOps n cs ++ ms := by
  rw [forestOps_cons, forestOps_nil, List.append_nil]
  rfl

theorem forestOps_pair (a a' : GefsKvp) (cs cs' : List (GefsKvp × Beps n)) (ms ms' : List GefsMsg) :
    forestOps (n + 1) [(a, ((cs, ms) : Beps (n + 1))), (a', ((cs', ms') : Beps (n + 1)))]
      = (forestOps n cs ++ ms) ++ (forestOps n cs' ++ ms') := by
  rw [forestOps_cons, forestOps_single]
  rfl

end Pieces

/-! ## The job -/

/-- `b` is at the top of the tree, and what is below it is written. -/
def TopOf (blks : Int64 → Option Node) : (n : ℕ) → Beps n → Node → Prop
  | 0, es, b => b.pivot = false ∧ b.vals = es
  | n + 1, (cs, ms), b => b.pivot = true ∧ b.vals = cs.map (·.1) ∧ b.msgs = ms
      ∧ ∀ c ∈ cs, ∃ bp, valBptr c.1.2 = some bp ∧ NodeIn blks n c.2 bp

/-- The tree below a block of the path: over a range, with no empty node, and with no message that
removes anything. -/
structure Sub (blks : Int64 → Option Node) (n : ℕ) (T : Beps n) (lo hi : Option Bytes) (b : Node) :
    Prop where
  top : TopOf blks n T b
  ordered : Ordered n T lo hi
  peopled : Peopled n T
  plain : ∀ m ∈ allOps n T, Plain m

/-- The messages `P` of a path element are for what is below it. -/
structure Feeds (up : Path) (P : List GefsMsg) (lo hi : Option Bytes) : Prop where
  range : up.range = P
  size : msgSum P ≤ up.sz
  inRange : ∀ m ∈ P, InRange lo hi m.k
  sorted : Sorted GefsMsg.k P
  plain : ∀ m ∈ P, Plain m

/-- `ds` is what `pp` left of the child of `b` the path goes on to, if it does. What it pulled is
gone from the messages of `b`, and nothing else has changed. -/
structure Refit (blks : Int64 → Option Node) (p : Path) (pp : Option Path) (b : Node) (n : ℕ)
    (cs : List (GefsKvp × Beps n)) (lo hi : Option Bytes) (ds : List (GefsKvp × Beps n)) : Prop where
  block : p.b = some b
  fresh : p.nr = none ∧ p.npull = 0
  midx : p.midx = p.idx
  op : ∀ q ∈ pp, q.op = .pomod ∨ q.op = .posplit
  off : pp = none → p.idx < 0
  ne : ds ≠ [] ∨ p.idx < 0
  entries : ds.map (·.1) = entriesOf pp
  nodes : ∀ d ∈ ds, ∃ bp, valBptr d.1.2 = some bp ∧ NodeIn blks n d.2 bp
  peopled : ∀ d ∈ ds, Peopled n d.2
  plain : ∀ m ∈ forestOps n ds, Plain m
  replaces : Replaces n p.idx ds 0 cs lo hi
  kept : (p.kept pp b).Sublist b.msgs
  ops : OpsTo (forestOps n cs ++ b.msgs) (forestOps n (expand p.idx ds 0 cs) ++ p.kept pp b)

section Job

variable {E : Env} {blks blks' : Int64 → Option Node} {s s' : St} {n : ℕ}
  {cs ds : List (GefsKvp × Beps n)} {ms U : List GefsMsg} {lo hi : Option Bytes} {b : Node}
  {p p' up : Path} {pp : Option Path}

theorem TopOf.mono (hb : ∀ a c, blks a = some c → blks' a = some c) : ∀ {n : ℕ} {T : Beps n}
    {b : Node}, TopOf blks n T b → TopOf blks' n T b
  | 0, _, _, h => h
  | _ + 1, (_, _), _, ⟨hp, hv, hm, hc⟩ => ⟨hp, hv, hm, fun c hc' => by
    obtain ⟨bp, hv, hin⟩ := hc c hc'
    exact ⟨bp, hv, hin.mono hb⟩⟩

theorem Sub.mono {T : Beps n} (h : Sub blks n T lo hi b)
    (hb : ∀ a c, blks a = some c → blks' a = some c) : Sub blks' n T lo hi b :=
  ⟨h.top.mono hb, h.ordered, h.peopled, h.plain⟩

/-- The children as they are laid out anew. -/
theorem Refit.children (h : Refit blks p pp b n cs lo hi ds)
    (hs : Sub blks (n + 1) (cs, ms) lo hi b) :
    Forest n (expand p.idx ds 0 cs) lo hi
      ∧ (expand p.idx ds 0 cs).map (·.1) = expand p.idx (entriesOf pp) 0 b.vals
      ∧ ∀ d ∈ expand p.idx ds 0 cs, (∃ bp, valBptr d.1.2 = some bp ∧ NodeIn blks n d.2 bp)
        ∧ Peopled n d.2 ∧ ∀ m ∈ allOps n d.2, Plain m := by
  obtain ⟨hp, hv, hm, hc⟩ := hs.top
  refine ⟨(ordered_pivot.1 hs.ordered).1.expand h.replaces, ?_, fun d hd => ?_⟩
  · rw [expand_map, h.entries, hv]
  · rcases mem_expand hd with hd | hd
    · refine ⟨hc d hd, hs.peopled.2 d hd, fun m hm => hs.plain m ?_⟩
      rw [allOps_pivot]
      exact List.mem_append_left _ (List.mem_flatMap.2 ⟨d, hd, hm⟩)
    · exact ⟨h.nodes d hd, h.peopled d hd, fun m hm => h.plain m (List.mem_flatMap.2 ⟨d, hd, hm⟩)⟩

/-- The messages that are kept, as those of the pivot were. -/
theorem Refit.messages (h : Refit blks p pp b n cs lo hi ds)
    (hs : Sub blks (n + 1) (cs, ms) lo hi b) : Sorted GefsMsg.k (p.kept pp b)
      ∧ (∀ m ∈ p.kept pp b, InRange lo hi m.k) ∧ ∀ m ∈ p.kept pp b, Plain m := by
  obtain ⟨hp, hv, hm, hc⟩ := hs.top
  obtain ⟨-, hsort, hr⟩ := ordered_pivot.1 hs.ordered
  have hsub := h.kept
  rw [hm] at hsub
  refine ⟨hsort.sublist hsub, fun m hm => hr m (hsub.subset hm), fun m hm => hs.plain m ?_⟩
  rw [allOps_pivot]
  exact List.mem_append_right _ (hsub.subset hm)

theorem mem_forestOps {m : GefsMsg} (h : m ∈ forestOps n cs) : ∃ c ∈ cs, m ∈ allOps n c.2 :=
  List.mem_flatMap.1 h

theorem Node.Roomy.of_eq {c : Node} (h : b.Roomy) (hp : c.pivot = b.pivot) (hv : c.vals = b.vals)
    (hm : c.msgs = b.msgs) : c.Roomy := by
  unfold Node.Roomy Node.used Node.spc at h ⊢
  rwa [hv, hm, hp]

theorem updatepiv_ok (hs : Sub s.blks (n + 1) (cs, ms) lo hi b)
    (hr : Refit s.blks p pp b n cs lo hi ds) (hu : Feeds up U lo hi) (hb : Backed s)
    (hx : exec (updatepiv E up p pp) s = (.ok p', s')) : Grows s s' ∧ p'.nr = none
      ∧ ∃ ds', Outcome s'.blks p' U (n + 1) (cs, ms) lo hi ds' := by
  obtain ⟨hpiv, hv, hm, -⟩ := hs.top
  obtain ⟨hforest, hkeys, hchild⟩ := hr.children hs
  obtain ⟨hsort, hrange, hplain⟩ := hr.messages hs
  obtain ⟨b', s₁, h1, h2⟩ := exec_bind_eq_ok hx
  obtain ⟨hb', rfl⟩ := must_ok h1
  obtain rfl : b = b' := Option.some.inj (hr.block.symm.trans hb')
  obtain ⟨n₀, s₂, h3, h4⟩ := exec_bind_eq_ok h2
  obtain ⟨hn₀, hg, hbl, -⟩ := newblk_ok hb h3
  obtain ⟨n₁, s₃, h5, h6⟩ := exec_bind_eq_ok h4
  obtain ⟨rfl, hn₁, hroom₁⟩ := updatepivVals_ok hr.op (fun h => hr.midx ▸ hr.off h) h5
  dsimp only at h6
  rw [hu.range] at h6
  obtain ⟨w, s₄, h7, h8⟩ := exec_bind_eq_ok h6
  obtain ⟨rfl, P, rest, hU, hd⟩ := updatepivMsgs_ok hsort hu.sorted h7
  obtain ⟨o, s₅, h9, h10⟩ := exec_bind_eq_ok h8
  rw [hr.midx, ← hkeys] at hn₁
  have hne : expand p.idx ds 0 cs ≠ [] :=
    expand_ne_nil hs.peopled.1 (hr.ne.imp_right fun h => by exact_mod_cast h)
  have hwn : w.n = ⟨n₀.bp, b.pivot, (expand p.idx ds 0 cs).map (·.1),
      Stable.merge GefsMsg.k (p.kept pp b) P⟩ := by
    rw [hd.node]
    show n₁.addMsgs _ = _
    rw [hn₁, hn₀]
    rfl
  have hroom : w.n.Roomy := hd.roomy (hroom₁ (by
    rw [hn₀]
    exact ⟨Nat.zero_le _, Nat.zero_le _⟩))
  obtain ⟨c, rfl, -, hcp, hcv, hcm, hcb, hg', -⟩ := setb_ok (b := w.n)
    (by rw [hwn]; simpa using hne) (by rw [hwn]; exact hbl) h9
  rw [exec_pure, Prod.mk.injEq, Except.ok.injEq] at h10
  obtain ⟨rfl, rfl⟩ := h10
  have hcroom : c.Roomy := hroom.of_eq hcp hcv hcm
  rw [hwn] at hcp hcv hcm
  have hsortP : Sorted GefsMsg.k P := (hU ▸ hu.sorted).sublist (List.sublist_append_left _ _)
  have hfilter := filter_merge hsort hsortP
  have hmem : ∀ m ∈ Stable.merge GefsMsg.k (p.kept pp b) P, m ∈ p.kept pp b ∨ m ∈ P := by
    intro m hm
    exact List.mem_append.1 ((List.merge_perm_append _).mem_iff.1 hm)
  have hPU : ∀ m ∈ P, m ∈ U := fun m hm => by rw [hU]; simp [hm]
  have hpl : ∀ m ∈ Stable.merge GefsMsg.k (p.kept pp b) P, Plain m := fun m hm =>
    (hmem m hm).elim (hplain m) fun h => hu.plain m (hPU m h)
  have hord : Ordered (n + 1) (expand p.idx ds 0 cs, Stable.merge GefsMsg.k (p.kept pp b) P)
      lo hi := ordered_pivot.2 ⟨hforest, sorted_merge hsort hsortP,
    fun m hm => (hmem m hm).elim (hrange m) fun h => hu.inRange m (hPU m h)⟩
  have hpull : w.pulled = P.length := hd.pulled.trans (Nat.zero_add _)
  have hgrow := hg.trans hg'
  refine ⟨hgrow, hr.fresh.1, [(c.entry, (expand p.idx ds 0 cs,
    Stable.merge GefsMsg.k (p.kept pp b) P))], .inl rfl, ?_, by simp,
    forest_pivot hcv hcm hne hord, ?_, ?_, ?_, ?_⟩
  · show List.Forall₂ _ ([c] ++ p.nr.toList) _
    rw [hr.fresh.1]
    refine .cons (piece_pivot hcb hcroom (hcp.trans hpiv) hcv hcm hpl fun d hd => ?_) .nil
    obtain ⟨bp, hbp, hin⟩ := (hchild d hd).1
    exact ⟨bp, hbp, hin.mono hgrow.blks⟩
  · rw [List.forall_mem_singleton]
    exact ⟨hne, fun d hd => (hchild d hd).2.1⟩
  · rw [forestOps_single]
    intro m hm
    rcases List.mem_append.1 hm with hm | hm
    · obtain ⟨d, hd, hm⟩ := mem_forestOps hm
      exact (hchild d hd).2.2 m hm
    · exact hpl m hm
  · show w.pulled ≤ _
    rw [hpull, hU, List.length_append]
    omega
  · show OpsTo (_ ++ U.take w.pulled) _
    rw [forestOps_single, allOps_pivot, hpull, hU, List.take_left, ← hm]
    refine (hr.ops.append_right P).trans (.of_filter fun k => ?_)
    rw [List.append_assoc, List.filter_append, List.filter_append (p.kept pp b), ← hfilter k,
      ← List.filter_append]

/-- One of the two blocks, from a new one. -/
theorem gets_new {n n₁ n₂ : Node} {vs : List GefsKvp} (hn : n = ⟨n.bp, b.pivot, [], []⟩)
    (h : n.Gets n₁ vs []) (h' : n₁.Gets n₂ [] ms) : n₂ = ⟨n.bp, b.pivot, vs, ms⟩ ∧ n₂.Roomy := by
  refine ⟨?_, h'.2 (h.2 ?_)⟩
  · rw [h'.1, h.1, hn]
    simp [Node.addVals, Node.addMsgs]
  · rw [hn]
    exact ⟨Nat.zero_le _, Nat.zero_le _⟩

/-- What is kept of the messages parts as the children do. -/
theorem opsTo_parted {l r : List (GefsKvp × Beps n)} {ml mr : List GefsMsg} {x : Bytes}
    (hr : Forest n r (some x) hi) (hml : ∀ m ∈ ml, m.k < x) : OpsTo (forestOps n (l ++ r) ++ (ml ++ mr))
      ((forestOps n l ++ ml) ++ (forestOps n r ++ mr)) := by
  refine .of_filter fun k => ?_
  rw [forestOps_append]
  simp only [List.filter_append]
  rcases lt_or_ge k x with hk | hk
  · have h1 : (forestOps n r).filter (·.k = k) = [] := Keyed.filter_eq_nil fun m hm =>
      (hk.trans_le ((forestOps_inRange hr m hm).1 x rfl)).ne'
    simp [h1]
  · have h1 : ml.filter (·.k = k) = [] :=
      Keyed.filter_eq_nil fun m hm => ((hml m hm).trans_le hk).ne
    simp [h1]

theorem splitpiv_ok (hs : Sub s.blks (n + 1) (cs, ms) lo hi b)
    (hr : Refit s.blks p pp b n cs lo hi ds) (hb : Backed s)
    (hx : exec (splitpiv E p pp) s = (.ok p', s')) : Grows s s'
      ∧ ∃ ds', Outcome s'.blks p' U (n + 1) (cs, ms) lo hi ds' ∧ ds'.length = 2 := by
  obtain ⟨hpiv, hv, hm, -⟩ := hs.top
  obtain ⟨-, -, hchild⟩ := hr.children hs
  obtain ⟨hsort, hrange, hplain⟩ := hr.messages hs
  obtain ⟨b', s₁, h1, h2⟩ := exec_bind_eq_ok hx
  obtain ⟨hb', rfl⟩ := must_ok h1
  obtain rfl : b = b' := Option.some.inj (hr.block.symm.trans hb')
  obtain ⟨l, s₂, h3, h4⟩ := exec_bind_eq_ok h2
  obtain ⟨hln, hgl, hbl, -⟩ := newblk_ok hb h3
  obtain ⟨r, s₃, h5, h6⟩ := exec_bind_eq_ok h4
  obtain ⟨hrn, hgr, hbr, hother⟩ := newblk_ok (hgl.backed hb) (onError_ok h5)
  obtain ⟨hbl', hne⟩ := hother _ hbl
  have h7 := onError_ok h6
  by_cases h4 : b.nval < 4
  · rw [if_pos h4] at h7
    obtain ⟨_, _, h8, -⟩ := exec_bind_eq_ok h7
    cases h8
  rw [if_neg h4] at h7
  obtain ⟨w, s₄, h8, h9⟩ := exec_bind_eq_ok h7
  have hlen : b.vals.length = b.nval := rfl
  obtain ⟨rfl, vl, v, vr, hparts, h2le, hmid, hlv, hrv⟩ := splitpivVals_ok (not_lt.1 h4) rfl
    (by omega) (by omega) h8
  obtain ⟨w', s₅, h10, h11⟩ := exec_bind_eq_ok h9
  obtain ⟨rfl, ml, mr, hkept, hml, hmr, hlm, hrm⟩ := splitpivMsgs_ok rfl hsort h10
  -- the children part as their entries do
  obtain ⟨csl, cr₀, rfl, rfl, hcr⟩ := List.map_eq_append_iff.1 (hv.symm.trans hparts)
  obtain ⟨c, csr, rfl, rfl, rfl⟩ := List.map_eq_cons_iff.1 hcr
  have hcsl : csl ≠ [] := by
    rintro rfl
    simp at h2le
  obtain ⟨hforest, -, -⟩ := ordered_pivot.1 hs.ordered
  obtain ⟨hfl, hfr⟩ := hforest.split
  have hfl := hfl.expand hr.replaces.left
  have hfr := hfr.expand (hr.replaces.right hcsl)
  have hexp : expand p.idx ds 0 (csl ++ c :: csr)
      = expand p.idx ds 0 csl ++ expand p.idx ds (0 + csl.length) (c :: csr) := expand_append _ _ _
  have hgets : ∀ (cs' : List (GefsKvp × Beps n)) (i : ℕ), expand p.idx (entriesOf pp) i (cs'.map (·.1))
      = (expand p.idx ds i cs').map (·.1) := fun cs' i => by rw [expand_map, hr.entries]
  rw [hgets] at hlv
  rw [List.length_map, ← List.map_cons, hgets] at hrv
  obtain ⟨hwl, hrooml⟩ := gets_new hln hlv hlm
  obtain ⟨hwr, hroomr⟩ := gets_new hrn hrv hrm
  obtain ⟨nl, s₆, h12, h13⟩ := exec_bind_eq_ok h11
  have hnel : expand p.idx ds 0 csl ≠ [] :=
    expand_ne_nil hcsl (hr.ne.imp_right fun h => by exact_mod_cast h)
  have hner : expand p.idx ds (0 + csl.length) (c :: csr) ≠ [] :=
    expand_ne_nil (by simp) (hr.ne.imp_right fun h => by omega)
  obtain ⟨cl, rfl, hla, hlp, hlv', hlm', hlb, hg₁, hkeep⟩ := setb_ok (b := w'.l)
    (by rw [hwl]; simpa using hnel) (by rw [hwl]; exact hbl') h12
  obtain ⟨nr, s₇, h14, h15⟩ := exec_bind_eq_ok h13
  obtain ⟨cr, rfl, -, hrp, hrv', hrm', hrb, hg₂, -⟩ := setb_ok (b := w'.r)
    (by rw [hwr]; simpa using hner) (by
      rw [hwr]
      refine hkeep _ ?_ hbr
      rw [hwl]
      exact hne.symm) h14
  rw [exec_pure, Prod.mk.injEq, Except.ok.injEq] at h15
  obtain ⟨rfl, rfl⟩ := h15
  have hclroom := hrooml.of_eq hlp hlv' hlm'
  have hcrroom := hroomr.of_eq hrp hrv' hrm'
  rw [hwl] at hlp hlv' hlm'
  rw [hwr] at hrp hrv' hrm'
  have hgrow := ((hgl.trans hgr).trans hg₁).trans hg₂
  have hml' : ∀ m ∈ ml, m.k < c.1.1 := fun m hm => hmid ▸ hml m hm
  have hmr' : ∀ m ∈ mr, c.1.1 ≤ m.k := fun m hm => hmid ▸ hmr m hm
  have hinl : ∀ m ∈ ml, m ∈ p.kept pp b := fun m hm => by rw [hkept]; simp [hm]
  have hinr : ∀ m ∈ mr, m ∈ p.kept pp b := fun m hm => by rw [hkept]; simp [hm]
  obtain ⟨hsl, hsr, -⟩ := List.pairwise_append.1 (hkept ▸ hsort)
  have hpl := forest_pivot hlv' hlm' hnel (ordered_pivot.2 ⟨hfl, hsl, fun m hm =>
    ⟨(hrange m (hinl m hm)).1, fun y hy => Option.some.inj hy ▸ hml' m hm⟩⟩)
  have hpr := forest_pivot hrv' hrm' hner (ordered_pivot.2 ⟨hfr, hsr, fun m hm =>
    ⟨fun y hy => Option.some.inj hy ▸ hmr' m hm, (hrange m (hinr m hm)).2⟩⟩)
  have hmem : ∀ d ∈ expand p.idx ds 0 csl ++ expand p.idx ds (0 + csl.length) (c :: csr),
      (∃ bp, valBptr d.1.2 = some bp ∧ NodeIn s₇.blks n d.2 bp) ∧ Peopled n d.2
        ∧ ∀ m ∈ allOps n d.2, Plain m := by
    rw [← hexp]
    intro d hd
    obtain ⟨⟨bp, hbp, hin⟩, h⟩ := hchild d hd
    exact ⟨⟨bp, hbp, hin.mono hgrow.blks⟩, h⟩
  refine ⟨hgrow, [(cl.entry, (expand p.idx ds 0 csl, ml)),
      (cr.entry, (expand p.idx ds (0 + csl.length) (c :: csr), mr))],
    ⟨.inr rfl, ?_, List.cons_ne_nil _ _, hpl.join hpr (hforest.keys c (by simp)), ?_, ?_, ?_, ?_⟩, rfl⟩
  · refine .cons (piece_pivot (hg₂.blks _ _ hlb) hclroom (hlp.trans hpiv) hlv' hlm'
      (fun m hm => hplain m (hinl m hm)) fun d hd => (hmem d (List.mem_append_left _ hd)).1)
      (.cons (piece_pivot hrb hcrroom (hrp.trans hpiv) hrv' hrm' (fun m hm => hplain m (hinr m hm))
        fun d hd => (hmem d (List.mem_append_right _ hd)).1) .nil)
  · rw [List.forall_mem_cons, List.forall_mem_singleton]
    constructor
    · exact ⟨hnel, fun d hd => (hmem d (List.mem_append_left _ hd)).2.1⟩
    · exact ⟨hner, fun d hd => (hmem d (List.mem_append_right _ hd)).2.1⟩
  · rw [forestOps_pair]
    intro m hm
    simp only [List.mem_append] at hm
    rcases hm with (hm | hm) | (hm | hm)
    · obtain ⟨d, hd, hm⟩ := mem_forestOps hm
      exact (hmem d (List.mem_append_left _ hd)).2.2 m hm
    · exact hplain m (hinl m hm)
    · obtain ⟨d, hd, hm⟩ := mem_forestOps hm
      exact (hmem d (List.mem_append_right _ hd)).2.2 m hm
    · exact hplain m (hinr m hm)
  · show p.npull ≤ _
    rw [hr.fresh.2]
    exact Nat.zero_le _
  · show OpsTo (_ ++ U.take p.npull) _
    rw [hr.fresh.2, List.take_zero, List.append_nil, allOps_pivot, forestOps_pair, ← hm]
    refine hr.ops.trans ?_
    rw [hexp, hkept]
    exact opsTo_parted hfr hml'

end Job

end GefsFuse.Server.Btree
