import GefsFuse.Proofs.ServerFlush
import GefsFuse.Server.Entries

/-!
# Upserts

What `btupsert` does to a tree, pass by pass (`slowupsert_ok`, `fastupsert_ok`, `upsertLoop_ok`),
and what a run of upserts does to the map a tree stores (`upserts_store`). Nothing that is written
is written over, so the tree from before can still be read.

The batches hold no message that removes anything: a child that is left empty takes messages with
it that wait above it.
-/

namespace GefsFuse.Server.Btree

open Effects SortedMap Stable

/-! ## The tree of a state -/

/-- The tree `t` is `T`. -/
structure Rooted (s : St) (t : GefsTree) (n : ℕ) (T : Beps n) : Prop where
  height : t.ht.toInt = n + 1
  nodes : NodeIn s.blks n T t.bp
  ordered : Ordered n T none none
  peopled : Peopled n T
  plain : ∀ m ∈ allOps n T, Plain m

/-- What was written stays as it is. -/
structure Kept (s s' : St) : Prop where
  blks : ∀ a b, s.blks a = some b → s'.blks a = some b
  backed : Backed s → Backed s'

section Kept

variable {E : Env} {s s₁ s' : St} {n : ℕ} {T : Beps n} {t : GefsTree}

theorem Kept.refl (s : St) : Kept s s := ⟨fun _ _ h => h, id⟩

theorem Kept.trans (h : Kept s s₁) (h' : Kept s₁ s') : Kept s s' :=
  ⟨fun a b hb => h'.blks a b (h.blks a b hb), fun hb => h'.backed (h.backed hb)⟩

theorem Grows.kept (h : Grows s s') : Kept s s' := ⟨h.blks, h.backed⟩

theorem Rooted.mono (h : Rooted s t n T) (hk : Kept s s') : Rooted s' t n T :=
  { h with nodes := h.nodes.mono hk.blks }

theorem freepath_ok : ∀ {ps : List Path} {s : St}, exec (freepath E ps) s = (.ok (), s') → Still s s'
  | [], s, h => by
    unfold freepath at h
    rw [(Prod.mk.inj h).2]
    exact .refl _
  | p :: ps, s, h => by
    have hrest : ∀ {s : St}, exec (if p.m.isSome = true then do
        let b ← must p.b
        freeblk E b
        freepath E ps
        else freepath E ps) s = (.ok (), s') → Still s s' := by
      intro s h
      split_ifs at h
      · obtain ⟨b, s₁, h1, h2⟩ := exec_bind_eq_ok h
        obtain ⟨-, rfl⟩ := must_ok h1
        obtain ⟨_, s₂, h3, h4⟩ := exec_bind_eq_ok h2
        exact (freebp_ok h3).trans (freepath_ok h4)
      · exact freepath_ok h
    unfold freepath at h
    rcases hb : p.b with _ | b <;> rw [hb] at h hrest <;> dsimp only at h
    · exact hrest h
    · obtain ⟨_, s₁, h1, h2⟩ := exec_bind_eq_ok h
      exact (freebp_ok h1).trans (hrest h2)

theorem getroot_ok {r : Node × ℕ} (hr : Rooted s s.tree.toGefsTree n T)
    (h : exec (getroot E) s = (.ok r, s')) : Still s s' ∧ TopOf s.blks n T r.1 := by
  unfold getroot at h
  rw [exec_bind_ok exec_get] at h
  obtain ⟨b, s₁, h1, h2⟩ := exec_bind_eq_ok h
  obtain ⟨hst, b₀, hb₀, rfl⟩ := getblk_ok h1
  obtain ⟨rfl, rfl⟩ := (Prod.mk.inj h2).imp_left Except.ok.inj
  exact ⟨hst, topOf_node hr.nodes hb₀⟩

theorem toInt_ht_add {a b : Int32} (hb : 0 ≤ b.toInt) (h : a.toInt + b.toInt < 2 ^ 31)
    (ha : 0 ≤ a.toInt) : (a + b).toInt = a.toInt + b.toInt := by
  rw [Int32.toInt_add]
  exact Int.bmod_eq_of_le (by omega) (by omega)

end Kept

/-- The tree with another root. -/
structure Reset (s s' : St) (b : Node) (dh : Int32) : Prop where
  blks : s'.blks = s.blks
  live : s'.live = s.live
  ht : s'.tree.ht = s.tree.ht + dh
  bp : s'.tree.bp = b.bp

theorem setroot_ok {s s' : St} {b : Node} {dh : Int32} {u : Unit}
    (h : exec (setroot b dh) s = (.ok u, s')) : Reset s s' b dh := by
  obtain ⟨-, rfl⟩ := Prod.mk.inj h
  exact ⟨rfl, rfl, rfl, rfl⟩

theorem Reset.kept {s s' : St} {b : Node} {dh : Int32} (h : Reset s s' b dh) : Kept s s' :=
  ⟨fun a c hc => by rwa [h.blks], fun hb a c hc => by rw [h.live]; exact hb a c (h.blks ▸ hc)⟩

/-! ## One pass -/

/-- After a pass `j'` of the messages are in the tree, where `j` were. -/
structure Passed (s s' : St) {n : ℕ} (T : Beps n) (ms : List GefsMsg) (j j' : ℕ) (n' : ℕ)
    (T' : Beps n') : Prop where
  kept : Kept s s'
  height : n' ≤ n + 1
  rooted : Rooted s' s'.tree.toGefsTree n' T'
  le : j ≤ j' ∧ j' ≤ ms.length
  ops : OpsTo (allOps n T ++ ms.drop j) (allOps n' T' ++ ms.drop j')

section Pass

variable {E : Env} {s s' : St} {n j j' height sz : ℕ} {T : Beps n} {b : Node} {ms : List GefsMsg}

/-- A batch in order that removes nothing. -/
structure Ready (ms : List GefsMsg) (sz : ℕ) : Prop where
  sorted : Sorted GefsMsg.k ms
  plain : ∀ m ∈ ms, Plain m
  size : sz = msgSum ms

theorem slowupsert_ok (hr : Rooted s s.tree.toGefsTree n T) (hbk : Backed s)
    (hb : TopOf s.blks n T b) (hms : Ready ms sz) (hj : j ≤ ms.length)
    (hg : ∀ k, ∃ u, opsVal (allOps n T ++ ms.drop j) k = some u) (hn : (n : ℤ) + 2 < 2 ^ 31)
    (hx : exec (slowupsert E b height sz j ms) s = (.ok j', s')) :
    ∃ n' T', Passed s s' T ms j j' n' T' := by
  obtain ⟨a, s₁, h1, h2⟩ := exec_bind_eq_ok hx
  have hst := still_ask h1
  dsimp only at h2
  obtain ⟨path, s₂, h3, h4⟩ := exec_bind_eq_ok h2
  set p0 : Path := { zeroPath with ins := some ms, idx := -1, midx := -1, lo := j, hi := ms.length
                                   sz := sz } with hp0
  have hfeeds : Feeds p0 (ms.drop j) none none := by
    refine ⟨?_, ?_, by simp [InRange], hms.sorted.sublist (List.drop_sublist _ _),
      fun m hm => hms.plain m (List.drop_subset _ _ hm)⟩
    · show (ms.drop (j : ℤ).toNat).take ((ms.length : ℤ) - j).toNat = ms.drop j
      rw [Int.toNat_natCast, List.take_of_length_le]
      rw [List.length_drop]
      omega
    · show _ ≤ sz
      rw [hms.size]
      exact msgSum_sublist (List.drop_sublist _ _)
  have hsub₀ : Sub s₁.blks n T none none b :=
    ⟨by rw [hst.blks]; exact hb, hr.ordered, hr.peopled, hr.plain⟩
  obtain ⟨hst₂, b', ps, n₁, T₁, lo, hi, P, rfl, hab, hsub⟩ :=
    descent_ok (Above.top hfeeds rfl) hsub₀ h3
  obtain ⟨⟨path', rp⟩, s₃, h5, h6⟩ := exec_bind_eq_ok h4
  obtain ⟨r, s₄, h7, h8⟩ := exec_bind_eq_ok h6
  obtain ⟨hrp, rfl⟩ := must_ok h7
  obtain rfl : rp = some r := hrp
  obtain ⟨dh, s₅, h9, h10⟩ := exec_bind_eq_ok h8
  obtain ⟨hdh, rfl⟩ := must_ok h9
  obtain ⟨rb, s₆, h11, h12⟩ := exec_bind_eq_ok h10
  obtain ⟨hrb, rfl⟩ := must_ok h11
  have hst₃ := hst.trans hst₂
  obtain ⟨hgrow, N', T', hfl⟩ := flush_ok (by rw [hst₂.blks]; exact hab)
    (by rw [hst₂.blks]; exact hsub) hg (hst₃.grows.backed hbk) (onError_ok h5) hrb
  split_ifs at h12
  · obtain ⟨_, _, h13, -⟩ := exec_bind_eq_ok h12
    cases h13
  obtain ⟨_, s₇, h13, h14⟩ := exec_bind_eq_ok h12
  obtain ⟨_, s₈, h15, h16⟩ := exec_bind_eq_ok h14
  obtain ⟨rfl, rfl⟩ := (Prod.mk.inj h16).imp_left Except.ok.inj
  have hst₄ := freepath_ok (onError_ok h15)
  have hset := setroot_ok h13
  have htree : s₆.tree = s.tree := hgrow.tree.trans hst₃.tree
  have hkept : Kept s s₈ := (hst₃.grows.trans hgrow).kept.trans (hset.kept.trans hst₄.grows.kept)
  have hsplit : (ms.drop j).take r.npull ++ ms.drop (j + r.npull) = ms.drop j := by
    rw [← List.drop_drop, List.take_append_drop]
  have hle := hfl.pulled
  rw [List.length_drop] at hle
  have hht := hr.height
  refine ⟨N', T', hkept, ?_, ⟨?_, ?_, hfl.ordered, hfl.peopled, hfl.plain⟩, by omega, ?_⟩
  · rcases hfl.change with ⟨h, -⟩ | ⟨h, -⟩ <;> omega
  · rw [hst₄.tree, hset.ht, htree]
    rcases hfl.change with ⟨rfl, h⟩ | ⟨rfl, h⟩
    · obtain rfl : dh = 0 := Option.some.inj (hdh.symm.trans h)
      rw [Int32.add_zero, hht]
    · obtain rfl : dh = 1 := Option.some.inj (hdh.symm.trans h)
      rw [toInt_ht_add (by decide) (by rw [hht]; exact hn) (by omega), hht]
      push_cast
      rfl
  · rw [hst₄.tree, hset.bp, hst₄.blks, hset.blks]
    exact hfl.nodes
  · have := hfl.ops.append_right (ms.drop (j + r.npull))
    rwa [List.append_assoc, hsplit] at this

/-- The fast way, where all of the batch goes in at once. -/
theorem fastupsert_ok (hr : Rooted s s.tree.toGefsTree n T) (hbk : Backed s)
    (hb : TopOf s.blks n T b) (hms : Ready ms sz) (hp : b.pivot = true)
    (hf : filledbuf b ms.length sz = false) (hx : exec (fastupsert E b ms) s = (.ok (), s')) :
    ∃ T', Passed s s' T ms 0 ms.length n T' := by
  rcases n with _ | n
  · rw [hb.1] at hp
    cases hp
  obtain ⟨cs, ms₀⟩ := T
  obtain ⟨-, hv, hm, hc⟩ := hb
  subst hm
  obtain ⟨hforest, hsort, -⟩ := ordered_pivot.1 hr.ordered
  have hfits : b.Fits := by
    obtain ⟨b₀, -, hf, hp₀, hv₀, hm₀⟩ := hr.nodes.1
    have hb₀ : b = { b₀ with bp := b.bp } := by
      rw [hp₀, hv₀, hm₀, ← hv, ← hp]
    rw [hb₀]
    exact ⟨hf.vals, hf.msgs, hf.ops, hf.leaf⟩
  have hroom : 2 * (b.nbuf + ms.length) + b.bufsz + (ms.map fun m => msgsz m - 2).sum
      ≤ gefsBufspc := by
    have h1 : (ms.map fun m => msgsz m - 2).sum ≤ msgSum ms :=
      List.sum_le_sum fun m _ => Nat.sub_le _ _
    have h2 := hms.size
    simp only [filledbuf, decide_eq_false_iff_not, not_lt] at hf
    omega
  obtain ⟨a, ha, hl⟩ : ∃ a, E.ans s.calls = some a ∧ s.live a = false := by
    obtain ⟨_, _, h1, -⟩ := exec_bind_eq_ok hx
    obtain ⟨_, _, h2, -⟩ := exec_bind_eq_ok h1
    exact exists_of_newblk h2
  rw [exec_fastupsert hp hroom ha hl] at hx
  have hst := freebp_ok hx
  have hnone := hbk.blks_eq_none hl
  obtain ⟨hsorted, hperm, hfilter⟩ := @mergedMsgs_spec b ms hsort
  have hkept : Kept s (fastSt E s b ms a) := by
    constructor
    · intro x c hc
      refine (if_neg ?_).trans hc
      rintro rfl
      rw [hnone] at hc
      cases hc
    · intro hb x c hc
      by_cases hxa : x = a
      · simp [fastSt, hxa]
      · have := hb x c ((if_neg hxa).symm.trans hc)
        simp [fastSt, this]
  have hmem : ∀ m ∈ mergedMsgs b ms, m ∈ b.msgs ∨ m ∈ ms :=
    fun m hm => List.mem_append.1 (hperm.mem_iff.1 hm)
  refine ⟨(cs, mergedMsgs b ms), hkept.trans hst.grows.kept, Nat.le_succ _, ⟨?_, ?_, ?_, hr.peopled,
    fun m hm => ?_⟩, by omega, ?_⟩
  · rw [hst.tree]
    show (s.tree.ht + 0).toInt = _
    rw [Int32.add_zero, hr.height]
  · rw [hst.tree, hst.blks]
    refine ⟨⟨fastRoot E s.tree b ms a, if_pos rfl, fits_fastRoot hfits hp hsort
      (fun m hm => (hms.plain m hm).ofByte) hroom, hp, hv, rfl⟩, fun c hc' => ?_⟩
    obtain ⟨bp, hbp, hin⟩ := hc c hc'
    exact ⟨bp, hbp, hin.mono hkept.blks⟩
  · exact ordered_pivot.2 ⟨hforest, hsorted, by simp [InRange]⟩
  · rw [allOps_pivot] at hm
    rcases List.mem_append.1 hm with hm | hm
    · exact hr.plain m (by rw [allOps_pivot]; exact List.mem_append_left _ hm)
    · rcases hmem m hm with hm | hm
      · exact hr.plain m (by rw [allOps_pivot]; exact List.mem_append_right _ hm)
      · exact hms.plain m hm
  · refine .of_filter fun k => ?_
    rw [allOps_pivot, allOps_pivot, List.drop_zero, List.drop_length, List.append_nil,
      List.append_assoc, List.filter_append, List.filter_append, List.filter_append, hfilter k]

/-- All passes. -/
theorem upsertLoop_ok (hms : Ready ms sz) : ∀ {fuel : ℕ} {first : Bool} {j n : ℕ} {T : Beps n}
    {s : St}, Rooted s s.tree.toGefsTree n T → Backed s → j ≤ ms.length →
    (∀ k, ∃ u, opsVal (allOps n T ++ ms.drop j) k = some u) → (n + fuel : ℤ) + 1 < 2 ^ 31 →
    exec (upsertLoop E sz ms fuel first j) s = (.ok (), s') →
    Kept s s' ∧ ∃ n' T', n' ≤ n + fuel ∧ Rooted s' s'.tree.toGefsTree n' T'
      ∧ OpsTo (allOps n T ++ ms.drop j) (allOps n' T') := by
  intro fuel
  induction fuel with
  | zero =>
    intro first j n T s _ _ _ _ _ h
    unfold upsertLoop at h
    cases h
  | succ fuel ih =>
    intro first j n T s hr hb hj hg hn h
    unfold upsertLoop at h
    dsimp only at h
    obtain ⟨⟨b, height⟩, s₁, h1, h2⟩ := exec_bind_eq_ok h
    obtain ⟨hst, htop⟩ := getroot_ok hr (onError_ok h1)
    dsimp only at htop h2
    have hr₁ : Rooted s₁ s₁.tree.toGefsTree n T := by
      rw [hst.tree]
      exact hr.mono hst.grows.kept
    have hb₁ := hst.grows.backed hb
    rw [← hst.blks] at htop
    push_cast at hn
    -- what is left of the batch goes on from the tree the pass leaves
    have hlast : ∀ {j' n' : ℕ} {T' : Beps n'} {s₂ : St}, Passed s₁ s₂ T ms j j' n' T' →
        j' = ms.length → Kept s s₂ ∧ ∃ n' T', n' ≤ n + (fuel + 1)
          ∧ Rooted s₂ s₂.tree.toGefsTree n' T' ∧ OpsTo (allOps n T ++ ms.drop j) (allOps n' T') := by
      intro j' n' T' s₂ hp he
      have hops := hp.ops
      rw [he, List.drop_length, List.append_nil] at hops
      exact ⟨hst.grows.kept.trans hp.kept, n', T', hp.height.trans (by omega), hp.rooted, hops⟩
    by_cases hfast : j = 0 ∧ b.pivot = true ∧ ¬ filledbuf b ms.length sz = true
    · rw [if_pos hfast] at h2
      obtain ⟨T', hp⟩ := fastupsert_ok hr₁ hb₁ htop hms hfast.2.1 (by simpa using hfast.2.2)
        (onError_ok h2)
      rw [← hfast.1] at hp
      exact hlast hp rfl
    · rw [if_neg hfast] at h2
      obtain ⟨j', s₂, h3, h4⟩ := exec_bind_eq_ok h2
      obtain ⟨n', T', hp⟩ := slowupsert_ok hr₁ hb₁ htop hms hj hg (by omega) h3
      have hht := hp.height
      split_ifs at h4 with hj'
      · have hg' : ∀ k, ∃ u, opsVal (allOps n' T' ++ ms.drop j') k = some u := by
          intro k
          obtain ⟨u, hu⟩ := hg k
          exact ⟨u, hp.ops k u hu⟩
        obtain ⟨hk, n₂, T₂, hle, hr₂, hops⟩ := ih hp.rooted (hp.kept.backed hb₁) hp.le.2 hg'
          (by omega) h4
        exact ⟨(hst.grows.kept.trans hp.kept).trans hk, n₂, T₂, by omega, hr₂, hp.ops.trans hops⟩
      · rw [exec_pure] at h4
        rw [← (Prod.mk.inj h4).2]
        exact hlast hp (not_not.1 hj')

end Pass

/-! ## Runs -/

/-- The tree `t` stores the map `f`. -/
def Stores (s : St) (t : GefsTree) (f : Bytes → Option Bytes) : Prop :=
  ∃ n T, Rooted s t n T ∧ ∀ k, opsVal (allOps n T) k = some (f k)

/-- The messages, in their order on each key, make `g` of `f`. -/
def Yields (f : Bytes → Option Bytes) (ms : List GefsMsg) (g : Bytes → Option Bytes) : Prop :=
  ∀ k, (ms.filter (·.k = k)).foldlM (serverEff gefsKvmax k) (f k) = some (g k)

/-- Upserts one after the other, each with the passes it may take. -/
def upserts (E : Env) : List (ℕ × List GefsMsg) → Op Unit
  | [] => pure ()
  | (fuel, ms) :: us => do
    btupsert E fuel ms
    upserts E us

section Run

variable {E : Env} {s s' : St} {f g : Bytes → Option Bytes} {fuel : ℕ} {ms ls : List GefsMsg}
  {t : GefsTree}

theorem Stores.lookup (h : Stores s t f) (k : Bytes) :
    btlookup s.get t k gefsKvmax = some ((f k).map (k, ·)) := by
  obtain ⟨n, T, hr, hf⟩ := h
  exact btlookup_nodes (s := { s with tree := { s.tree with toGefsTree := t } }) hr.height hr.nodes
    hr.ordered (hf k)

theorem Stores.mono (h : Stores s t f) (hk : Kept s s') : Stores s' t f := by
  obtain ⟨n, T, hr, hf⟩ := h
  exact ⟨n, T, hr.mono hk, hf⟩

theorem Yields.append (h : Yields f (ms ++ ls) g) : ∃ f', Yields f ms f' ∧ Yields f' ls g := by
  have hk : ∀ k, ∃ u, (ms.filter (·.k = k)).foldlM (serverEff gefsKvmax k) (f k) = some u
      ∧ (ls.filter (·.k = k)).foldlM (serverEff gefsKvmax k) u = some (g k) := by
    intro k
    have := h k
    rw [List.filter_append, List.foldlM_append] at this
    exact Option.bind_eq_some_iff.1 this
  choose f' hf using hk
  exact ⟨f', fun k => (hf k).1, fun k => (hf k).2⟩

/-- An upsert that ends well. -/
theorem btupsert_ok (h : Stores s s.tree.toGefsTree f) (hb : Backed s) (hp : ∀ m ∈ ms, Plain m)
    (hy : Yields f ms g) (hh : s.tree.ht.toInt + fuel < 2 ^ 31)
    (hx : exec (btupsert E fuel ms) s = (.ok (), s')) : Kept s s'
      ∧ s'.tree.ht.toInt ≤ s.tree.ht.toInt + fuel ∧ Stores s' s'.tree.toGefsTree g := by
  obtain ⟨n, T, hr, hf⟩ := h
  have hht := hr.height
  have hready : Ready (stablesort ms) ((stablesort ms).map msgsz).sum :=
    ⟨stablesort_sorted ms, fun m hm => hp m ((stablesort_perm ms).mem_iff.1 hm), rfl⟩
  have hval : ∀ k, opsVal (allOps n T ++ (stablesort ms).drop 0) k = some (g k) := by
    intro k
    rw [List.drop_zero, opsVal, Keyed.eval_append, show Keyed.eval _ _ _ _ k = some (f k) from hf k,
      Option.bind_some, filter_stablesort]
    exact hy k
  obtain ⟨hk, n', T', hle, hr', hops⟩ := upsertLoop_ok hready hr hb (Nat.zero_le _)
    (fun k => ⟨_, hval k⟩) (by omega) hx
  refine ⟨hk, ?_, n', T', hr', fun k => hops k _ (hval k)⟩
  rw [hr'.height, hht]
  omega

theorem upserts_ok : ∀ {us : List (ℕ × List GefsMsg)} {s : St} {f : Bytes → Option Bytes},
    Stores s s.tree.toGefsTree f → Backed s → (∀ u ∈ us, ∀ m ∈ u.2, Plain m) →
    Yields f (us.flatMap (·.2)) g → s.tree.ht.toInt + (us.map (·.1)).sum < 2 ^ 31 →
    exec (upserts E us) s = (.ok (), s') → Kept s s' ∧ Stores s' s'.tree.toGefsTree g
  | [], s, f, h, _, _, hy, _, hx => by
    obtain ⟨-, rfl⟩ := Prod.mk.inj hx
    have hfg : f = g := funext fun k => Option.some.inj (hy k)
    exact ⟨.refl _, hfg ▸ h⟩
  | (fuel, ms) :: us, s, f, h, hb, hp, hy, hh, hx => by
    rw [List.flatMap_cons] at hy
    rw [List.map_cons, List.sum_cons] at hh
    rw [List.forall_mem_cons] at hp
    obtain ⟨f', hy₁, hy₂⟩ := hy.append
    obtain ⟨_, s₁, h1, h2⟩ := exec_bind_eq_ok hx
    rw [Nat.cast_add] at hh
    obtain ⟨hk, hle, hs₁⟩ := btupsert_ok h hb hp.1 hy₁ (by omega) h1
    obtain ⟨hk', hs'⟩ := upserts_ok hs₁ (hk.backed hb) hp.2 hy₂ (by omega) h2
    exact ⟨hk.trans hk', hs'⟩

/-- The entries of a mount are what its tree stores, and stay so. -/
theorem upserts_entries {us : List (ℕ × List GefsMsg)} {es : Entries}
    (h : Stores s s.tree.toGefsTree f) (hf : ∀ k, es.find k = some (f k)) (hb : Backed s)
    (hp : ∀ u ∈ us, ∀ m ∈ u.2, Plain m) (hall : ∀ k, ∃ v, Entries.find (es ++ us.flatMap (·.2)) k = some v)
    (hh : s.tree.ht.toInt + (us.map (·.1)).sum < 2 ^ 31)
    (hx : exec (upserts E us) s = (.ok (), s')) {k : Bytes} {v : Option Bytes}
    (hv : Entries.find (es ++ us.flatMap (·.2)) k = some v) :
    btlookup s'.get s'.tree.toGefsTree k gefsKvmax = some (v.map (k, ·)) := by
  choose g hg using hall
  have hy : Yields f (us.flatMap (·.2)) g := by
    intro k
    have := hg k
    unfold Entries.find at this
    rw [List.filter_append, List.foldlM_append] at this
    obtain ⟨u, hu, hres⟩ := Option.bind_eq_some_iff.1 this
    obtain rfl : u = f k := Option.some.inj (hu.symm.trans (hf k))
    exact hres
  obtain ⟨-, hs'⟩ := upserts_ok h hb hp hy hh hx
  rw [hs'.lookup, Option.some.inj ((hg k).symm.trans hv)]

end Run

end GefsFuse.Server.Btree
