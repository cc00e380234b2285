import GefsFuse.Proofs.Tree

/-!
# Trees of any height

A tree is read off its blocks as a `Beps`: entries and messages without the bytes between them.
`leafVal` and `msgsOn` are what the leaf under a key holds and the messages that wait on the key
above it, the lowest pivot first. A lookup finds the one with the others applied in that order
(`gefsBtlookup_tree`).
-/

namespace GefsFuse

open ByteMem SortedMap

/-- A tree with `n` levels of pivots over its leaves. -/
def Beps : ℕ → Type
  | 0 => List GefsKvp
  | n + 1 => List (GefsKvp × Beps n) × List GefsMsg

/-- A pivot with these entries and messages. -/
structure IsPivot (es : List GefsKvp) (ms : List GefsMsg) (c : Content) : Prop where
  type : c.type = gefsTpivot
  nval : c.nval = es.length
  getval : ∀ i, (h : i < es.length) → gefsGetval c i = es[i]
  nbuf : c.nbuf = ms.length
  getmsg : ∀ i, (h : i < ms.length) → gefsGetmsg c i = ms[i]

/-- The blocks under `bp` are those of the tree. -/
def TreeIn (ctx : GefsCtx) : (n : ℕ) → Beps n → GefsBptr → Prop
  | 0, es, bp => Held ctx bp.addr (IsLeaf es)
  | n + 1, (cs, ms), bp =>
    Held ctx bp.addr (IsPivot (cs.map (·.1)) ms)
      ∧ ∀ c ∈ cs, ∃ bp', valBptr c.1.2 = some bp' ∧ TreeIn ctx n c.2 bp'

section Children

variable {α : Type}

/-- The bound from the right of the `j`-th child. -/
def rightOf (cs : List (GefsKvp × α)) (j : ℕ) (hi : Option Bytes) : Option Bytes :=
  match cs[j + 1]? with
  | some c => some c.1.1
  | none => hi

/-- The last child whose key is not above `k`. -/
def childOf : List (GefsKvp × α) → Bytes → Option (GefsKvp × α)
  | [], _ => none
  | c :: cs, k => if c.1.1 ≤ k then (childOf cs k).or (some c) else none

end Children

/-- Keys ascend in every node, messages do not descend, and both lie in the range of their
node. -/
def Ordered : (n : ℕ) → Beps n → Option Bytes → Option Bytes → Prop
  | 0, es, lo, hi =>
    Ascending (show List GefsKvp from es)
      ∧ ∀ e ∈ (show List GefsKvp from es), InRange lo hi e.1
  | n + 1, (cs, ms), lo, hi =>
    Ascending (cs.map (·.1)) ∧ (∀ c ∈ cs, InRange lo hi c.1.1)
      ∧ ms.Pairwise (fun a b => a.k ≤ b.k) ∧ (∀ m ∈ ms, InRange lo hi m.k)
      ∧ ∀ (j : ℕ) c, cs[j]? = some c → Ordered n c.2 (some c.1.1) (rightOf cs j hi)

/-- What the leaf under `k` holds. -/
def leafVal : (n : ℕ) → Beps n → Bytes → Option Bytes
  | 0, es, k => look (show List GefsKvp from es) k
  | n + 1, (cs, _), k =>
    match childOf cs k with
    | some c => leafVal n c.2 k
    | none => none

/-- The messages waiting on `k`, the lowest pivot first. -/
def msgsOn : (n : ℕ) → Beps n → Bytes → List GefsMsg
  | 0, _, _ => []
  | n + 1, (cs, ms), k =>
    (match childOf cs k with
      | some c => msgsOn n c.2 k
      | none => []) ++ ms.filter (·.k = k)

/-- What a message of the port does to the value under `k`; none where the key is not there to be
deleted or changed, or the bytes do not fit. -/
def msgEff (nbuf : ℕ) (k : Bytes) (v : Option Bytes) (m : GefsMsg) : Option (Option Bytes) :=
  match m.op with
  | .oinsert => if k.length + m.v.length ≤ nbuf then some (some m.v) else none
  | .oclearb | .oclobber => some none
  | .odelete => if v.isSome then some none else none
  | .owstat => v.bind fun v => (statupdate (k, v) m).map fun kv => some kv.2
  | _ => v.map some

/-- The value under `k`. -/
def treeGet (nbuf : ℕ) (n : ℕ) (T : Beps n) (k : Bytes) : Option (Option Bytes) :=
  (msgsOn n T k).foldlM (msgEff nbuf k) (leafVal n T k)

/-- Every pair fits the buffer it is copied to. -/
def Sized : (n : ℕ) → Beps n → Prop
  | 0, es => Small es
  | n + 1, (cs, _) => Small (cs.map (·.1)) ∧ ∀ c ∈ cs, Sized n c.2

/-- The blocks of `t` are those of a well-formed tree: the leaves at depth `ht`, keys and messages
in order and in range, and every message one that applies to what is below it. -/
structure IsTree (ctx : GefsCtx) (t : GefsTree) (n : ℕ) (T : Beps n) : Prop where
  ht : t.ht.toInt = n + 1
  blocks : TreeIn ctx n T t.bp
  ordered : Ordered n T none none
  sized : Sized n T
  applies : ∀ k, ∃ v, treeGet gefsKvmax n T k = some v

/-! ## One block -/

section Block

variable {es : List GefsKvp} {ms : List GefsMsg} {c : Content}

/-- The search of a pivot ends at the last entry not above the key. -/
theorem blksearch_pivot (hp : IsPivot es ms c) (hs : Ascending es) (k : Bytes) :
    (∃ j, ∃ h : j < es.length, es[j].1 ≤ k ∧ (∀ h' : j + 1 < es.length, k < es[j + 1].1)
      ∧ ∃ same, blksearch c k = ((j : ℤ), same, some es[j]))
    ∨ ((∀ e ∈ es, k < e.1) ∧ blksearch c k = (-1, false, none)) := by
  have hle : ∀ i j, i ≤ j → j < es.length → (gefsGetval c i).1 ≤ (gefsGetval c j).1 := by
    intro i j hij hj
    rw [hp.getval i (by omega), hp.getval j hj]
    rcases hij.lt_or_eq with h | rfl
    · exact (ascending_getElem_lt hs h hj).le
    · exact le_rfl
  obtain ⟨p, hpn, hlt, h⟩ := blksearch_spec hp.nval hle k
  rcases h with ⟨hpl, hk, h⟩ | ⟨hne, h⟩
  · rw [hp.getval p hpl] at hk h
    exact .inl ⟨p, hpl, hk.le, fun h' => hk ▸ ascending_getElem_lt hs (Nat.lt_succ_self p) h',
      true, h⟩
  · have hgt : ∀ i, (hi : i < es.length) → p ≤ i → k < es[i].1 := by
      intro i hi hpi
      rw [← hp.getval i hi]
      exact lt_of_le_of_ne (not_lt.1 fun hlt' => absurd ((hlt i hi).2 hlt') (by omega))
        (hne i hi).symm
    rcases Nat.eq_zero_or_pos p with rfl | hp0
    · refine .inr ⟨fun e he => ?_, by simpa using h⟩
      obtain ⟨i, hi, rfl⟩ := List.mem_iff_getElem.1 he
      exact hgt i hi (Nat.zero_le i)
    · have hj : p - 1 < es.length := by omega
      have hlt' := (hlt (p - 1) hj).1 (by omega)
      rw [hp.getval (p - 1) hj] at hlt'
      refine .inl ⟨p - 1, hj, hlt'.le, fun h' => hgt _ h' (by omega), false, ?_⟩
      rw [h, if_pos hp0, hp.getval (p - 1) hj]
      congr 1
      omega

/-- Messages on one key in a list that starts no earlier. -/
theorem filter_eq_takeWhile {k : Bytes} : ∀ {l : List GefsMsg},
    l.Pairwise (fun a b => a.k ≤ b.k) → (∀ m ∈ l, k ≤ m.k) →
    l.filter (·.k = k) = l.takeWhile (·.k = k)
  | [], _, _ => rfl
  | m :: l, hs, hk => by
    obtain ⟨hm, hl⟩ := List.pairwise_cons.1 hs
    rw [List.filter_cons, List.takeWhile_cons]
    by_cases he : m.k = k
    · simp only [he, decide_true, if_true]
      rw [filter_eq_takeWhile hl fun m' h' => hk m' (by simp [h'])]
    · simp only [he, decide_false, Bool.false_eq_true, if_false]
      refine List.filter_eq_nil_iff.2 fun m' h' => ?_
      have h1 : k < m.k := lt_of_le_of_ne (hk m (by simp)) (Ne.symm he)
      have h2 : m'.k ≠ k := (h1.trans_le (hm m' h')).ne'
      simp [h2]

/-- The search of the messages, and the run of messages it starts. -/
theorem bufsearch_pivot (hp : IsPivot es ms c) (hs : ms.Pairwise fun a b => a.k ≤ b.k)
    (k : Bytes) :
    ∃ p ≤ ms.length, (∀ i, (h : i < ms.length) → (i < p ↔ ms[i].k < k))
      ∧ ms.filter (·.k = k) = (ms.drop p).takeWhile (·.k = k)
      ∧ ((∃ h : p < ms.length, ms[p].k = k ∧ bufsearch c k = ((p : ℤ), true, some ms[p]))
        ∨ (ms.filter (·.k = k) = []
          ∧ bufsearch c k = ((p : ℤ) - 1, false, if 0 < p then ms[p - 1]? else none))) := by
  have hle : ∀ i j, i ≤ j → j < ms.length → (gefsGetmsg c i).k ≤ (gefsGetmsg c j).k := by
    intro i j hij hj
    rw [hp.getmsg i (by omega), hp.getmsg j hj]
    rcases hij.lt_or_eq with h | rfl
    · exact List.pairwise_iff_getElem.1 hs i j (by omega) hj h
    · exact le_rfl
  obtain ⟨p, hpn, hlt, h⟩ := bufsearch_spec hp.nbuf hle k
  have hlt' : ∀ i, (h : i < ms.length) → (i < p ↔ ms[i].k < k) := by
    intro i hi
    rw [hlt i hi, hp.getmsg i hi]
  refine ⟨p, hpn, hlt', ?_, ?_⟩
  · have hlo : (ms.take p).filter (·.k = k) = [] := by
      refine List.filter_eq_nil_iff.2 fun m hm => ?_
      obtain ⟨i, hi, rfl⟩ := List.mem_iff_getElem.1 hm
      rw [List.length_take] at hi
      rw [List.getElem_take]
      have := (hlt' i (by omega)).1 (by omega)
      simp [this.ne]
    have hhi : ∀ m ∈ ms.drop p, k ≤ m.k := by
      intro m hm
      obtain ⟨i, hi, rfl⟩ := List.mem_iff_getElem.1 hm
      rw [List.length_drop] at hi
      rw [List.getElem_drop]
      exact not_lt.1 fun hlt'' => absurd ((hlt' (p + i) (by omega)).2 hlt'') (by omega)
    conv_lhs => rw [← List.take_append_drop p ms]
    rw [List.filter_append, hlo, List.nil_append, filter_eq_takeWhile (hs.drop) hhi]
  · rcases h with ⟨hpl, hk, h⟩ | ⟨hne, h⟩
    · rw [hp.getmsg p hpl] at hk h
      exact .inl ⟨hpl, hk, h⟩
    · refine .inr ⟨?_, ?_⟩
      · refine List.filter_eq_nil_iff.2 fun m hm => ?_
        obtain ⟨i, hi, rfl⟩ := List.mem_iff_getElem.1 hm
        have := hne i hi
        rw [hp.getmsg i hi] at this
        simp [this]
      · rw [h]
        rcases Nat.eq_zero_or_pos p with rfl | hp0
        · simp
        · have hj : p - 1 < ms.length := by omega
          rw [if_pos hp0, if_pos hp0, hp.getmsg (p - 1) hj, List.getElem?_eq_getElem hj]

end Block

/-! ## The messages of one level -/

section Level

variable {σ : Type} (A : σ → GefsMsg → Option σ)

/-- The loop over the messages on `k` from the `j`-th on, one after the other through `A`. -/
def runWith (c : Content) (k : Bytes) : ℕ → ℕ → σ → Option σ
  | 0, _, r => some r
  | n + 1, j, r =>
    if (j : ℤ) < c.nbuf ∧ gefsKeycmp k (gefsGetmsg c j).k = 0 then do
      let r ← A r (gefsGetmsg c j)
      runWith c k n (j + 1) r
    else some r

theorem runWith_eq {es : List GefsKvp} {ms : List GefsMsg} {c : Content} (hp : IsPivot es ms c)
    (k : Bytes) : ∀ {n j : ℕ} (r : σ), ms.length ≤ n + j →
    runWith A c k n j r = ((ms.drop j).takeWhile (·.k = k)).foldlM A r
  | 0, j, r, h => by
    rw [List.drop_eq_nil_of_le (by omega)]
    rfl
  | n + 1, j, r, h => by
    unfold runWith
    rcases Nat.lt_or_ge j ms.length with hj | hj
    · rw [List.drop_eq_getElem_cons hj, List.takeWhile_cons, hp.getmsg j hj, hp.nbuf]
      by_cases hk : ms[j].k = k
      · have hc : (j : ℤ) < ms.length ∧ gefsKeycmp k ms[j].k = 0 :=
          ⟨by omega, gefsKeycmp_eq_zero.2 hk.symm⟩
        rw [if_pos hc, if_pos (by simpa using hk), List.foldlM_cons]
        simp only [Option.bind_eq_bind]
        congr 1
        funext r
        exact runWith_eq hp k r (by omega)
      · rw [if_neg fun hc => hk (gefsKeycmp_eq_zero.1 hc.2).symm, if_neg (by simpa using hk)]
        rfl
    · rw [List.drop_eq_nil_of_le hj, if_neg fun hc => ?_]
      · rfl
      · have := hc.1
        rw [hp.nbuf] at this
        omega

end Level

/-- What the code keeps of the value under `k`: with no value, whatever the search left behind. -/
def Rep (k : Bytes) (v : Option Bytes) (s : Bool × Option GefsKvp) : Prop :=
  s.1 = v.isSome ∧ ∀ w, v = some w → s.2 = some (k, w)

section Pivot

variable {k : Bytes} {eff : Option Bytes → GefsMsg → Option (Option Bytes)}
  {F A : Bool × Option GefsKvp → GefsMsg → Option (Bool × Option GefsKvp)}

/-- A message on `k` through `A` does to the pair what `eff` says of the value. -/
def Does (k : Bytes) (eff : Option Bytes → GefsMsg → Option (Option Bytes))
    (A : Bool × Option GefsKvp → GefsMsg → Option (Bool × Option GefsKvp)) : Prop :=
  ∀ v v' s m, Rep k v s → m.k = k → eff v m = some v' → ∃ s', A s m = some s' ∧ Rep k v' s'

theorem Does.foldlM (hA : Does k eff A) : ∀ {l : List GefsMsg} {v v' : Option Bytes}
    {s : Bool × Option GefsKvp}, (∀ m ∈ l, m.k = k) → Rep k v s → l.foldlM eff v = some v' →
    ∃ s', l.foldlM A s = some s' ∧ Rep k v' s'
  | [], v, v', s, _, hr, he => by
    simp only [List.foldlM_nil, Option.pure_def, Option.some.injEq] at he
    subst he
    exact ⟨s, rfl, hr⟩
  | m :: l, v, v', s, hk, hr, he => by
    rw [List.foldlM_cons] at he
    obtain ⟨u, h1, h2⟩ := Option.bind_eq_some_iff.1 he
    obtain ⟨s1, h3, h4⟩ := hA v u s m hr (hk m (by simp)) h1
    obtain ⟨s', h5, h6⟩ := hA.foldlM (fun m' hm' => hk m' (by simp [hm'])) h4 h2
    refine ⟨s', ?_, h6⟩
    rw [List.foldlM_cons, h3]
    exact h5

/-- A pivot's messages on `k`, the first through `F` and the others through `A`. -/
def pivotWith (F A : Bool × Option GefsKvp → GefsMsg → Option (Bool × Option GefsKvp))
    (k : Bytes) (c : Content) (s : Bool × Option GefsKvp) : Option (Bool × Option GefsKvp) :=
  match bufsearch c k with
  | (j, true, some m) => do
    let s ← F s m
    runWith A c k (c.nbuf - j).toNat (j.toNat + 1) s
  | _ => some s

/-- The messages of one pivot applied. -/
theorem pivotWith_rep {es : List GefsKvp} {ms : List GefsMsg} {c : Content}
    (hF : Does k eff F) (hA : Does k eff A) (hp : IsPivot es ms c)
    (hs : ms.Pairwise fun a b => a.k ≤ b.k) {v v' : Option Bytes}
    {s : Bool × Option GefsKvp} (hr : Rep k v s)
    (he : (ms.filter (·.k = k)).foldlM eff v = some v') :
    ∃ s', pivotWith F A k c s = some s' ∧ Rep k v' s' := by
  obtain ⟨p, -, -, hf, h⟩ := bufsearch_pivot hp hs k
  unfold pivotWith
  rcases h with ⟨hpl, hk, h⟩ | ⟨hnil, h⟩
  · have hfold := hf
    rw [List.drop_eq_getElem_cons hpl, List.takeWhile_cons, if_pos (by simpa using hk)] at hfold
    have hall : ∀ m ∈ ms.filter (·.k = k), m.k = k := by
      intro m hm
      simpa using (List.mem_filter.1 hm).2
    rw [hfold, List.foldlM_cons] at he
    obtain ⟨u, h1, h2⟩ := Option.bind_eq_some_iff.1 he
    obtain ⟨s1, h3, h4⟩ := hF v u s ms[p] hr hk h1
    obtain ⟨s', h5, h6⟩ := hA.foldlM
      (fun m hm => hall m (by rw [hfold]; exact List.mem_cons_of_mem _ hm)) h4 h2
    refine ⟨s', ?_, h6⟩
    rw [h]
    simp only [Int.toNat_natCast, h3, Option.bind_eq_bind, Option.bind_some]
    rw [runWith_eq A hp k s1 (by rw [hp.nbuf]; omega)]
    exact h5
  · rw [hnil] at he
    simp only [List.foldlM_nil, Option.pure_def, Option.some.injEq] at he
    subst he
    rw [h]
    exact ⟨s, rfl, hr⟩

/-- A pivot with the messages `ms`, in order. -/
def HasMsgs (c : Content) (ms : List GefsMsg) : Prop :=
  ms.Pairwise (fun a b => a.k ≤ b.k) ∧ ∃ es, IsPivot es ms c

theorem foldlM_pivotWith_rep (hF : Does k eff F) (hA : Does k eff A) : ∀ {pivs : List Content}
    {mss : List (List GefsMsg)} {v v' : Option Bytes} {s : Bool × Option GefsKvp},
    List.Forall₂ HasMsgs pivs mss → Rep k v s →
    (mss.map (·.filter (·.k = k))).flatten.foldlM eff v = some v' →
    ∃ s', pivs.foldlM (fun s c => pivotWith F A k c s) s = some s' ∧ Rep k v' s'
  | [], [], v, v', s, _, hr, he => by
    simp only [List.map_nil, List.flatten_nil, List.foldlM_nil, Option.pure_def,
      Option.some.injEq] at he
    subst he
    exact ⟨s, rfl, hr⟩
  | c :: pivs, ms :: mss, v, v', s, hf, hr, he => by
    obtain ⟨⟨hs, es, hp⟩, hf⟩ := List.forall₂_cons.1 hf
    rw [List.map_cons, List.flatten_cons, List.foldlM_append] at he
    obtain ⟨u, h1, h2⟩ := Option.bind_eq_some_iff.1 he
    obtain ⟨s1, h3, h4⟩ := pivotWith_rep hF hA hp hs hr h1
    obtain ⟨s', h5, h6⟩ := foldlM_pivotWith_rep hF hA hf h4 h2
    refine ⟨s', ?_, h6⟩
    rw [List.foldlM_cons, h3]
    exact h5

end Pivot

/-! ## The port's messages -/

section Port

variable {nbuf : ℕ} {k : Bytes}

theorem statupdate_key {kv kv' : GefsKvp} {m : GefsMsg} (h : statupdate kv m = some kv') :
    kv'.1 = kv.1 := by
  unfold statupdate at h
  obtain ⟨d, -, h⟩ := Option.bind_eq_some_iff.1 h
  obtain ⟨x, -, h⟩ := Option.bind_eq_some_iff.1 h
  rw [← Option.some.inj h]

theorem does_applyMsg : Does k (msgEff nbuf k) fun s m => applyMsg s.2 m nbuf := by
  intro v v' s m hr hk he
  obtain ⟨h1, h2⟩ := hr
  show ∃ s', applyMsg s.2 m nbuf = some s' ∧ Rep k v' s'
  unfold msgEff at he
  unfold applyMsg
  cases hop : m.op <;> rw [hop] at he <;> simp only at he ⊢
  case oinsert =>
    split_ifs at he with hlen
    obtain rfl := Option.some.inj he
    refine ⟨(true, some (m.k, m.v)), ?_, rfl, ?_⟩
    · unfold gefsCpkvp
      rw [hk, if_pos hlen]
      rfl
    · intro w hw
      rw [hk, Option.some.inj hw]
  case odelete =>
    split_ifs at he
    obtain rfl := Option.some.inj he
    exact ⟨_, rfl, rfl, by simp⟩
  case oclearb | oclobber =>
    obtain rfl := Option.some.inj he
    exact ⟨_, rfl, rfl, by simp⟩
  case owstat =>
    obtain ⟨w, rfl, he⟩ := Option.bind_eq_some_iff.1 he
    obtain ⟨kv, hst, rfl⟩ := Option.map_eq_some_iff.1 he
    have hkv : kv.1 = k := statupdate_key hst
    rw [h2 w rfl]
    simp only
    rw [if_pos (gefsKeycmp_eq_zero.2 hk.symm), hst]
    refine ⟨(true, some kv), rfl, rfl, ?_⟩
    rintro u hu
    rw [← Option.some.inj hu, ← hkv]
  all_goals
    obtain ⟨w, rfl, rfl⟩ := Option.map_eq_some_iff.1 he
    exact ⟨_, rfl, rfl, h2⟩

/-- The first message is skipped only where it has no effect. -/
theorem does_first : Does k (msgEff nbuf k)
    fun s m => if s.1 ∨ m.op = .oinsert then applyMsg s.2 m nbuf else some s := by
  intro v v' s m hr hk he
  dsimp only
  split_ifs with hc
  · exact does_applyMsg v v' s m hr hk he
  · refine ⟨s, rfl, ?_⟩
    rw [not_or] at hc
    have hv : v = none := by
      rw [← Option.not_isSome_iff_eq_none, ← hr.1]
      exact hc.1
    subst hv
    have hv' : v' = none := by
      unfold msgEff at he
      cases hop : m.op <;> rw [hop] at he <;> simp_all
    rw [hv']
    exact hr

theorem applyRun_eq_runWith (c : Content) : ∀ (n j : ℕ) (r : Bool × Option GefsKvp),
    applyRun c k nbuf n j r = runWith (fun s m => applyMsg s.2 m nbuf) c k n j r
  | 0, _, _ => rfl
  | n + 1, j, r => by
    unfold applyRun runWith
    split_ifs
    · simp only [Option.bind_eq_bind]
      congr 1
      funext r
      exact applyRun_eq_runWith c n (j + 1) r
    · rfl

theorem applyPivot_eq (c : Content) (s : Bool × Option GefsKvp) :
    applyPivot c k nbuf s
      = pivotWith (fun s m => if s.1 ∨ m.op = .oinsert then applyMsg s.2 m nbuf else some s)
        (fun s m => applyMsg s.2 m nbuf) k c s := by
  unfold applyPivot pivotWith
  rcases bufsearch c k with ⟨j, _ | _, _ | m⟩ <;> try rfl
  simp only [applyRun_eq_runWith]
  split_ifs <;> rfl

end Port

/-! ## The way down -/

section Way

variable {α : Type} {cs : List (GefsKvp × α)} {k : Bytes}

theorem childOf_of_getElem? : ∀ {cs : List (GefsKvp × α)} {j : ℕ} {c : GefsKvp × α},
    Ascending (cs.map (·.1)) → cs[j]? = some c → c.1.1 ≤ k →
    (∀ c', cs[j + 1]? = some c' → k < c'.1.1) → childOf cs k = some c
  | [], j, c, _, hj, _, _ => by simp at hj
  | a :: cs, 0, c, _, hj, h1, h2 => by
    simp only [List.getElem?_cons_zero, Option.some.injEq] at hj
    subst hj
    have hn : childOf cs k = none := by
      rcases cs with _ | ⟨c', cs⟩
      · rfl
      · rw [childOf, if_neg (not_le.2 (h2 c' (by simp)))]
    rw [childOf, if_pos h1, hn]
    rfl
  | a :: cs, j + 1, c, hs, hj, h1, h2 => by
    rw [List.getElem?_cons_succ] at hj
    rw [List.map_cons] at hs
    obtain ⟨ha, hs⟩ := List.pairwise_cons.1 hs
    have hlt : a.1.1 < c.1.1 :=
      ha c.1 (List.mem_map_of_mem (List.mem_of_getElem? hj))
    rw [childOf, if_pos (hlt.le.trans h1), childOf_of_getElem? hs hj h1 h2]
    rfl

theorem childOf_eq_none (h : ∀ c ∈ cs, k < c.1.1) : childOf cs k = none := by
  rcases cs with _ | ⟨c, cs⟩
  · rfl
  · rw [childOf, if_neg (not_le.2 (h c (by simp)))]

/-- The child a search of the pivot finds. -/
theorem blksearch_childOf {ms : List GefsMsg} {c : Content}
    (hp : IsPivot (cs.map (·.1)) ms c) (hs : Ascending (cs.map (·.1))) (k : Bytes) :
    (∃ (j : ℕ) (d : GefsKvp × α) (same : Bool), cs[j]? = some d ∧ d.1.1 ≤ k
      ∧ (∀ d', cs[j + 1]? = some d' → k < d'.1.1) ∧ childOf cs k = some d
      ∧ blksearch c k = ((j : ℤ), same, some d.1))
    ∨ ((∀ d ∈ cs, k < d.1.1) ∧ childOf cs k = none ∧ blksearch c k = (-1, false, none)) := by
  rcases blksearch_pivot hp hs k with ⟨j, hj, h1, h2, same, h⟩ | ⟨hall, h⟩
  · rw [List.length_map] at hj
    have hget : cs[j]? = some cs[j] := List.getElem?_eq_getElem hj
    have hkey : cs[j].1.1 ≤ k := by simpa using h1
    have hnext : ∀ d', cs[j + 1]? = some d' → k < d'.1.1 := by
      intro d' hd'
      obtain ⟨hj', rfl⟩ := List.getElem?_eq_some_iff.1 hd'
      have h3 := h2 (by rw [List.length_map]; exact hj')
      rwa [List.getElem_map] at h3
    refine .inl ⟨j, cs[j], same, hget, hkey, hnext, childOf_of_getElem? hs hget hkey hnext, ?_⟩
    rw [h, List.getElem_map]
  · have hall' : ∀ d ∈ cs, k < d.1.1 := fun d hd => hall d.1 (List.mem_map_of_mem hd)
    exact .inr ⟨hall', childOf_eq_none hall', h⟩

end Way

theorem TreeIn.keeps {ctx ctx' : GefsCtx} (hk : Keeps ctx ctx') : ∀ {n : ℕ} {T : Beps n}
    {bp : GefsBptr}, TreeIn ctx n T bp → TreeIn ctx' n T bp
  | 0, _, _, h => hk.held _ _ h
  | _ + 1, (_, _), _, ⟨h1, h2⟩ => by
    refine ⟨hk.held _ _ h1, fun c hc => ?_⟩
    obtain ⟨bp', h3, h4⟩ := h2 c hc
    exact ⟨bp', h3, h4.keeps hk⟩

/-- The block at the top of the tree. -/
def IsTop : (n : ℕ) → Beps n → Content → Prop
  | 0, es => IsLeaf es
  | _ + 1, (cs, ms) => IsPivot (cs.map (·.1)) ms

theorem TreeIn.top {ctx : GefsCtx} : ∀ {n : ℕ} {T : Beps n} {bp : GefsBptr},
    TreeIn ctx n T bp → Held ctx bp.addr (IsTop n T)
  | 0, _, _, h => h
  | _ + 1, (_, _), _, h => h.1

/-- The blocks on the way to `k`, the deepest first: the leaf, if the way gets there, and the
pivots with the messages on `k`. -/
def IsWay (n : ℕ) (T : Beps n) (k : Bytes) (q : List Content) (bottom : Bool) : Prop :=
  ∃ pivs mss, List.Forall₂ HasMsgs pivs mss
    ∧ (mss.map (·.filter (·.k = k))).flatten = msgsOn n T k
    ∧ ((bottom = true ∧ ∃ lf es, q = lf :: pivs ∧ IsLeaf es lf ∧ Ascending es
        ∧ look es k = leafVal n T k)
      ∨ (bottom = false ∧ q = pivs ∧ leafVal n T k = none))

theorem descend_spec (k : Bytes) : ∀ {n : ℕ} {T : Beps n} {lo hi : Option Bytes} {ctx : GefsCtx}
    {bp : GefsBptr} {b : GefsBlk} (p : List GefsBlk) (r : Option GefsKvp), CtxOk ctx →
    TreeIn ctx n T bp → Ordered n T lo hi → IsTop n T b.toContent →
    ∃ q bottom r' ctx', descend k n b (b :: p) r ctx = some (q ++ p, bottom, r', ctx')
      ∧ IsWay n T k (q.map (·.toContent)) bottom
  | 0, es, _, _, ctx, bp, b, p, r, _, _, ⟨hs, _⟩, hb => by
    refine ⟨[b], true, r, ctx, rfl, [], [], .nil, rfl, .inl ⟨rfl, b.toContent, es, rfl, hb, hs, rfl⟩⟩
  | n + 1, (cs, ms), _, _, ctx, bp, b, p, r, hok, ⟨_, hch⟩, ⟨hs, _, hms, _, hord⟩, hb => by
    have hm : HasMsgs b.toContent ms := ⟨hms, _, hb⟩
    unfold descend
    rcases blksearch_childOf hb hs k with ⟨j, d, same, hj, -, -, hc, h⟩ | ⟨-, hc, h⟩
    · obtain ⟨bp', hbp, hin⟩ := hch d (List.mem_of_getElem? hj)
      obtain ⟨hk, hq⟩ := gefsGetblk_spec hok bp'
      obtain ⟨c, hget, hc'⟩ := hq _ hin.top
      obtain ⟨q, bottom, r', ctx', hd, pivs, mss, hf, hflat, hend⟩ :=
        descend_spec k (b :: p) (some d.1) hk.ok (hin.keeps hk) (hord j d hj) hc'
      refine ⟨q ++ [b], bottom, r', ctx', ?_, pivs ++ [b.toContent], mss ++ [ms], ?_, ?_, ?_⟩
      · rcases hg : gefsGetblk ctx bp' with ⟨o, ctx1⟩
        rw [hg] at hget hd
        simp only at hget
        subst hget
        simp only [h, hbp, Option.bind_eq_bind, Option.bind_some, hg, hd, List.append_assoc,
          List.singleton_append]
      · exact List.rel_append hf (.cons hm .nil)
      · simp only [List.map_append, List.map_cons, List.map_nil, List.flatten_append, hflat, msgsOn,
          hc, List.flatten_cons, List.flatten_nil, List.append_nil]
      · simp only [leafVal, hc, List.map_append, List.map_cons, List.map_nil]
        rcases hend with ⟨hb1, lf, es, hq1, hrest⟩ | ⟨hb1, hq1, hrest⟩
        · exact .inl ⟨hb1, lf, es, by rw [hq1]; rfl, hrest⟩
        · exact .inr ⟨hb1, by rw [hq1], hrest⟩
    · refine ⟨[b], false, r, ctx, ?_, [b.toContent], [ms], .cons hm .nil, ?_, .inr ⟨rfl, rfl, ?_⟩⟩
      · simp only [h]
        rfl
      · simp [msgsOn, hc]
      · simp [leafVal, hc]

/-! ## Lookup -/

section Lookup

variable {nbuf : ℕ} {k : Bytes}

/-- What the search of a leaf leaves. -/
theorem blksearch_rep {es : List GefsKvp} {lf : Content} (hl : IsLeaf es lf) (hs : Ascending es)
    (r : Option GefsKvp) :
    Rep k (look es k) ((blksearch lf k).2.1, (blksearch lf k).2.2.orElse fun _ => r) := by
  obtain ⟨p, -, -, h⟩ := blksearch_leaf hl hs k
  rcases h with ⟨hp, hk, h⟩ | ⟨hn, -, hf⟩
  · rw [h, ← hk, look_getElem hs hp]
    refine ⟨rfl, fun w hw => ?_⟩
    rw [← Option.some.inj hw]
    rfl
  · rw [hn]
    exact ⟨hf, by simp⟩

theorem leafSearch_rep {n : ℕ} {T : Beps n} {q : List GefsBlk} {bottom : Bool}
    {pivs : List Content} (r : Option GefsKvp)
    (h : (bottom = true ∧ ∃ lf es, q.map (·.toContent) = lf :: pivs ∧ IsLeaf es lf ∧ Ascending es
        ∧ look es k = leafVal n T k)
      ∨ (bottom = false ∧ q.map (·.toContent) = pivs ∧ leafVal n T k = none)) :
    Rep k (leafVal n T k) (leafSearch q bottom k r)
      ∧ (if bottom then q.drop 1 else q).map (·.toContent) = pivs := by
  rcases h with ⟨rfl, lf, es, hq, hl, hs, hv⟩ | ⟨rfl, hq, hv⟩
  · obtain ⟨b, q', rfl, rfl, rfl⟩ := List.map_eq_cons_iff.1 hq
    exact ⟨hv ▸ blksearch_rep hl hs r, by simp⟩
  · rw [hv]
    exact ⟨⟨rfl, by simp⟩, by simpa using hq⟩

/-- A pair that stands for a value of the leaf is copied as it is. -/
theorem Rep.copy {v : Option Bytes} {S : Bool × Option GefsKvp} (hr : Rep k v S)
    (hsm : ∀ w, v = some w → k.length + w.length ≤ nbuf) (hs : S.1 = true) :
    (S.2.bind fun x => gefsCpkvp x nbuf).map (fun r => (true, some r)) = some S := by
  obtain ⟨w, hw⟩ := Option.isSome_iff_exists.1 (hr.1 ▸ hs)
  rw [hr.2 w hw, Option.bind_some, gefsCpkvp, if_pos (hsm w hw), Option.map_some,
    ← hr.2 w hw, ← hs]

/-- A lookup finds what the leaf holds with the messages applied. -/
theorem gefsBtlookup_tree {ctx : GefsCtx} {t : GefsTree} {n : ℕ} {T : Beps n}
    {lo hi : Option Bytes} {v : Option Bytes} (hok : CtxOk ctx) (ht : t.ht.toInt = n + 1)
    (hin : TreeIn ctx n T t.bp) (ho : Ordered n T lo hi)
    (hsm : ∀ w, leafVal n T k = some w → k.length + w.length ≤ nbuf)
    (hv : treeGet nbuf n T k = some v) :
    ∃ ctx', gefsBtlookup ctx t k nbuf = some (v.map (k, ·), ctx') := by
  obtain ⟨hk, hq⟩ := gefsGetblk_spec hok t.bp
  obtain ⟨b, hget, hb⟩ := hq _ hin.top
  rcases hg : gefsGetblk ctx t.bp with ⟨o, ctx1⟩
  rw [hg] at hk hget
  simp only at hk hget
  subst hget
  have hk1 := hk.trans (keeps_gefsHoldblk hk.ok b)
  obtain ⟨q, bottom, r, ctx2, hd, pivs, mss, hf, hflat, hend⟩ :=
    descend_spec k [] none hk1.ok (hin.keeps hk1) ho hb
  obtain ⟨hrep, hpiv⟩ := leafSearch_rep r hend
  have h0 : ¬ t.ht < 0 := by
    rw [Int32.lt_iff_toInt_lt, ht]
    show ¬ _ < (0 : ℤ)
    omega
  have h1 : ¬ t.ht = 0 := by
    intro h
    rw [h] at ht
    have : (0 : Int32).toInt = 0 := rfl
    omega
  have hn : t.ht.toInt.toNat - 1 = n := by omega
  unfold gefsBtlookup
  rw [hg]
  simp only [h0, h1, if_false, hn, hd, List.append_nil, Option.bind_eq_bind, Option.bind_some]
  generalize hS : leafSearch q bottom k r = S at hrep
  generalize hpv : (if bottom = true then List.drop 1 q else q) = piv at hpiv
  obtain ⟨S', hfold, hrep'⟩ : ∃ S', piv.foldlM (fun s c => applyPivot c.toContent k nbuf s) S
      = some S' ∧ Rep k v S' := by
    obtain ⟨S', h, hr⟩ :=
      foldlM_pivotWith_rep does_first does_applyMsg hf hrep (by rw [hflat]; exact hv)
    refine ⟨S', ?_, hr⟩
    simp only [applyPivot_eq]
    rw [← h, ← hpiv, List.foldlM_map]
  refine ⟨gefsDropblk (q.foldl gefsDropblk ctx2) b, ?_⟩
  have hend : (if S'.1 = true then
      S'.2.map fun r => (some r, gefsDropblk (q.foldl gefsDropblk ctx2) b)
      else some (none, gefsDropblk (q.foldl gefsDropblk ctx2) b))
      = some (v.map (k, ·), gefsDropblk (q.foldl gefsDropblk ctx2) b) := by
    rw [hrep'.1]
    rcases hv' : v with _ | w
    · rfl
    · rw [hrep'.2 w hv']
      rfl
  split_ifs with hs
  · rw [hrep.copy hsm hs, Option.bind_some, hfold, Option.bind_some, hend]
  · rw [hfold, Option.bind_some, hend]

theorem mem_of_childOf {α : Type} {c : GefsKvp × α} : ∀ {cs : List (GefsKvp × α)},
    childOf cs k = some c → c ∈ cs
  | [], h => by simp [childOf] at h
  | a :: cs, h => by
    rw [childOf] at h
    split_ifs at h
    rcases hc : childOf cs k with _ | c' <;> rw [hc] at h
    · simp only [Option.none_or, Option.some.injEq] at h
      simp [h]
    · simp only [Option.some_or, Option.some.injEq] at h
      exact List.mem_cons_of_mem _ (mem_of_childOf (h ▸ hc))

theorem Sized.leafVal : ∀ {n : ℕ} {T : Beps n}, Sized n T → ∀ {w : Bytes},
    leafVal n T k = some w → k.length + w.length ≤ gefsKvmax
  | 0, _, h, _, hw => h _ (mem_of_look hw)
  | n + 1, (cs, ms), ⟨_, h⟩, w, hw => by
    simp only [GefsFuse.leafVal] at hw
    rcases hc : childOf cs k with _ | c <;> rw [hc] at hw
    · simp at hw
    · exact (h c (mem_of_childOf hc)).leafVal hw

theorem IsTree.gefsBtlookup {ctx : GefsCtx} {t : GefsTree} {n : ℕ} {T : Beps n}
    (h : IsTree ctx t n T) (hok : CtxOk ctx) {v : Option Bytes}
    (hv : treeGet gefsKvmax n T k = some v) :
    ∃ ctx', gefsBtlookup ctx t k gefsKvmax = some (v.map (k, ·), ctx') :=
  gefsBtlookup_tree hok h.ht h.blocks h.ordered (fun _ hw => h.sized.leafVal hw) hv

end Lookup

end GefsFuse
