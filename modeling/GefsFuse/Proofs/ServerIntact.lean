import GefsFuse.Proofs.ServerFast

/-!
# An upsert that fails

The handler of `btupsert` frees the blocks of the path it has, and the second of them is the root
of the tree, which is still in place. So an error leaves the tree as it was only where there is no
path: a batch that goes into the root's buffer. There an error can come after the new root is in
place as well, from the deadlist that takes in the old one.
-/

namespace GefsFuse.Server.Btree

open Effects SortedMap

/-! ## What an error should leave -/

/-- The block at the second address is the one at the first or lies below it. -/
inductive Below (blks : Int64 → Option Node) : Int64 → Int64 → Prop
  | refl (a : Int64) : Below blks a a
  | child {a c : Int64} {b : Node} {kv : GefsKvp} {bp : GefsBptr} : blks a = some b →
      b.pivot = true → kv ∈ b.vals → valBptr kv.2 = some bp → Below blks bp.addr c →
      Below blks a c

/-- A lookup finds a pointer to the data block at `a`. -/
def Maps (s : St) (a : Int64) : Prop :=
  ∃ k kv bp, btlookup s.get s.tree.toGefsTree k gefsKvmax = some (some kv)
    ∧ kv.1.head? = some kdat ∧ valBptr kv.2 = some bp ∧ bp.addr = a

/-- Every lookup gives what it gave, and no block of the tree was freed. -/
structure Intact (s s' : St) : Prop where
  lookups : ∀ k, btlookup s'.get s'.tree.toGefsTree k gefsKvmax
    = btlookup s.get s.tree.toGefsTree k gefsKvmax
  blocks : ∀ bp ∈ s'.freed, ¬ Below s'.blks s'.tree.bp.addr bp.addr
  data : ∀ bp ∈ s'.freed, ¬ Maps s' bp.addr

/-- So wherever an allocation or a read fails, in whichever pass. -/
def ErrorKept (s : St) (ms : List GefsMsg) : Prop :=
  ∀ E fuel s', exec (btupsert E fuel ms) s = (.error .raised, s') → Intact s s'

/-- Every pivot has a child. -/
def Populated : (n : ℕ) → Beps n → Prop
  | 0, _ => True
  | n + 1, (cs, _) => cs ≠ [] ∧ ∀ c ∈ cs, Populated n c.2

/-- A tree before an upsert: the blocks in memory are those of `T`, they fit, every message applies
to what is below it, and data blocks are none of them. -/
structure WellFormed (s : St) (n : ℕ) (T : Beps n) : Prop where
  ht : s.tree.ht.toInt = n + 1
  blocks : Server.TreeIn s.get n T s.tree.bp
  ordered : Ordered n T none none
  sized : Sized n T
  populated : Populated n T
  applies : ∀ k, ∃ v, serverGet gefsKvmax n T k = some v
  fits : ∀ a b, s.blks a = some b → b.Fits
  live : ∀ a b, s.blks a = some b → s.live a = true
  room : ∃ a, s.live a = false
  data : ∀ a, Maps s a → s.blks a = none
  start : s.freed = []

/-- The root takes in the whole batch. -/
def Fast (s : St) (ms : List GefsMsg) : Prop :=
  ∃ b, s.blks s.tree.bp.addr = some b ∧ b.pivot = true
    ∧ filledbuf b ms.length (ms.map msgsz).sum = false

section Batch

variable (n : ℕ) (T : Beps n) (ms : List GefsMsg)

/-- Each message of the batch applies. -/
def Applies : Prop :=
  ∀ k v, serverGet gefsKvmax n T k = some v →
    ∃ v', (ms.filter (·.k = k)).foldlM (serverEff gefsKvmax k) v = some v'

/-- The batch leaves every value as it is. -/
def Idle : Prop :=
  ∀ k v, serverGet gefsKvmax n T k = some v →
    (ms.filter (·.k = k)).foldlM (serverEff gefsKvmax k) v = some v

end Batch

/-! ## The lookups after the fast way -/

section Messages

variable {nbuf : ℕ} {k : Bytes} {v : Option Bytes}

theorem statupdate_bare (kv : GefsKvp) (m : GefsMsg) :
    statupdate kv (bare m) = statupdate kv m := rfl

theorem relink_bare (kv : GefsKvp) (m : GefsMsg) : relink kv (bare m) = relink kv m := rfl

/-- What lies behind a message does not count. -/
theorem serverEff_bare (m : GefsMsg) : serverEff nbuf k v (bare m) = serverEff nbuf k v m := by
  have hop : (bare m).op = m.op := rfl
  have hv : (bare m).v = m.v := rfl
  unfold serverEff
  simp only [hop, hv, statupdate_bare, relink_bare]

theorem foldlM_congr_bare {l l' : List GefsMsg} (h : l.map bare = l'.map bare) :
    l.foldlM (serverEff nbuf k) v = l'.foldlM (serverEff nbuf k) v := by
  have hbare : ∀ l : List GefsMsg,
      (l.map bare).foldlM (serverEff nbuf k) v = l.foldlM (serverEff nbuf k) v := by
    intro l
    rw [List.foldlM_map]
    simp only [serverEff_bare]
  rw [← hbare l, h, hbare l']

theorem map_bare_filter {l l' : List GefsMsg} (h : l.map bare = l'.map bare) (k : Bytes) :
    (l.filter (·.k = k)).map bare = (l'.filter (·.k = k)).map bare := by
  have hb : ∀ l : List GefsMsg,
      (l.filter (·.k = k)).map bare = (l.map bare).filter (·.k = k) := by
    intro l
    rw [List.filter_map]
    rfl
  rw [hb, h, hb]

/-- A message that applies is of a kind the server knows. -/
theorem ofByte_opByte {m : GefsMsg} {v' : Option Bytes} (h : serverEff nbuf k v m = some v') :
    MsgOp.ofByte (opByte m.op) = m.op := by
  unfold serverEff at h
  cases hop : m.op <;> rw [hop] at h <;> simp only [reduceCtorEq] at h <;> rfl

theorem eff_of_mem {m : GefsMsg} : ∀ {l : List GefsMsg} {v v' : Option Bytes}, m ∈ l →
    l.foldlM (serverEff nbuf k) v = some v' → ∃ u u', serverEff nbuf k u m = some u'
  | a :: l, v, v', hm, h => by
    rw [List.foldlM_cons] at h
    obtain ⟨u, h1, h2⟩ := Option.bind_eq_some_iff.1 h
    rcases List.mem_cons.1 hm with rfl | hm
    · exact ⟨v, u, h1⟩
    · exact eff_of_mem hm h2

theorem ops_of_applies {n : ℕ} {T : Beps n} {ms : List GefsMsg}
    (hT : ∀ k, ∃ v, serverGet gefsKvmax n T k = some v) (h : Applies n T ms) :
    ∀ m ∈ ms, MsgOp.ofByte (opByte m.op) = m.op := by
  intro m hm
  obtain ⟨v, hv⟩ := hT m.k
  obtain ⟨v', hv'⟩ := h m.k v hv
  obtain ⟨u, u', hu⟩ := eff_of_mem (List.mem_filter.2 ⟨hm, by simp⟩) hv'
  exact ofByte_opByte hu

end Messages

section Trees

variable {get get' : GefsBptr → Option Content}

theorem treeIn_mono (hg : ∀ bp c, get bp = some c → get' bp = some c) :
    ∀ {n : ℕ} {T : Beps n} {bp : GefsBptr}, Server.TreeIn get n T bp → Server.TreeIn get' n T bp
  | 0, _, bp, ⟨c, hc, hl⟩ => ⟨c, hg bp c hc, hl⟩
  | _ + 1, (_, _), bp, ⟨⟨c, hc, hp⟩, hch⟩ =>
    ⟨⟨c, hg bp c hc, hp⟩, fun d hd => by
      obtain ⟨bp', hbp, hin⟩ := hch d hd
      exact ⟨bp', hbp, treeIn_mono hg hin⟩⟩

end Trees

section Merged

variable {b : Node} {ms : List GefsMsg}

/-- The buffer of the new root: in order, and on every key the old messages first. -/
theorem mergedMsgs_spec (hs : Stable.Sorted GefsMsg.k b.msgs) :
    Stable.Sorted GefsMsg.k (mergedMsgs b ms) ∧ (mergedMsgs b ms).Perm (b.msgs ++ ms)
      ∧ ∀ k, (mergedMsgs b ms).filter (·.k = k)
        = b.msgs.filter (·.k = k) ++ ms.filter (·.k = k) := by
  have htake : (b.msgs ++ ms).take b.nbuf = b.msgs := by simp [Node.nbuf]
  have hp := foldl_place (l := b.msgs ++ ms) (n := b.nbuf) (i := ms.length) (by rwa [htake])
    (by simp [Node.nbuf])
  have hlen : (mergedMsgs b ms).length = b.nbuf + ms.length := by
    have := hp.perm.length_eq
    rwa [List.length_append] at this
  refine ⟨?_, hp.perm, fun k => ?_⟩
  · have := hp.sorted
    rwa [← hlen, mergedMsgs, List.take_length] at this
  · rw [← List.filter_append]
    exact hp.filter k

theorem fits_fastRoot {E : Env} {t : Tree} {a : Int64} (hf : b.Fits) (hp : b.pivot = true)
    (hs : Stable.Sorted GefsMsg.k b.msgs) (hops : ∀ m ∈ ms, MsgOp.ofByte (opByte m.op) = m.op)
    (hroom : 2 * (b.nbuf + ms.length) + b.bufsz + (ms.map fun m => msgsz m - 2).sum
      ≤ gefsBufspc) : (fastRoot E t b ms a).Fits := by
  obtain ⟨-, hperm, -⟩ := @mergedMsgs_spec b ms hs
  constructor
  · exact hf.vals
  · have h1 : (mergedMsgs b ms).length = b.nbuf + ms.length := by
      simpa [Node.nbuf] using hperm.length_eq
    have h2 : ((mergedMsgs b ms).map fun m => msgsz m - 2).sum
        = b.bufsz + (ms.map fun m => msgsz m - 2).sum := by
      rw [(hperm.map _).sum_eq, List.map_append, List.sum_append]
      rfl
    show 2 * (mergedMsgs b ms).length + ((mergedMsgs b ms).map fun m => msgsz m - 2).sum ≤ _
    omega
  · intro m hm
    rcases List.mem_append.1 (hperm.mem_iff.1 hm) with hm | hm
    · exact hf.ops m hm
    · exact hops m hm
  · intro hnp
    exact absurd (hp.symm.trans hnp) (by decide)

end Merged

theorem sorted_of_bare {l l' : List GefsMsg} (h : l.map bare = l'.map bare)
    (hs : l.Pairwise fun a b => a.k ≤ b.k) : Stable.Sorted GefsMsg.k l' := by
  have hk : ∀ l : List GefsMsg, l.map GefsMsg.k = (l.map bare).map GefsMsg.k := by
    intro l
    rw [List.map_map]
    rfl
  have h1 : (l.map GefsMsg.k).Pairwise (· ≤ ·) := List.pairwise_map.2 hs
  rw [hk, h, ← hk] at h1
  exact List.pairwise_map.1 h1

section Root

variable {E : Env} {s : St} {n : ℕ} {cs : List (GefsKvp × Beps n)} {ms₀ ms : List GefsMsg}
  {b : Node} {a : Int64}

/-- The new root stands over the old tree with the batch behind its messages. -/
theorem lookup_fastSt (h : WellFormed s (n + 1) (cs, ms₀)) (hb : s.blks s.tree.bp.addr = some b)
    (hl : s.live a = false) (hops : ∀ m ∈ ms, MsgOp.ofByte (opByte m.op) = m.op)
    (hroom : 2 * (b.nbuf + ms.length) + b.bufsz + (ms.map fun m => msgsz m - 2).sum
      ≤ gefsBufspc) {k : Bytes} {v v' : Option Bytes}
    (hv : serverGet gefsKvmax (n + 1) (cs, ms₀) k = some v)
    (hv' : (ms.filter (·.k = k)).foldlM (serverEff gefsKvmax k) v = some v') :
    btlookup (fastSt E s b ms a).get (fastSt E s b ms a).tree.toGefsTree k gefsKvmax
      = some (v'.map (k, ·)) := by
  obtain ⟨⟨c, hc, hpiv⟩, hch⟩ := h.blocks
  have hget : s.get s.tree.bp = some b.content := by simp [St.get, hb]
  obtain rfl := Option.some.inj (hget.symm.trans hc)
  obtain ⟨hp, hvals, hbare⟩ := vals_of_isPivot (h.fits _ _ hb) hpiv
  obtain ⟨ho1, ho2, ho3, -, ho5⟩ := h.ordered
  have hs := sorted_of_bare hbare.symm ho3
  obtain ⟨hsort, hperm, hfilter⟩ := @mergedMsgs_spec b ms hs
  set r := fastRoot E s.tree b ms a with hr
  have hfr : r.Fits := fits_fastRoot (h.fits _ _ hb) hp hs hops hroom
  have hrb := map_bare_read hfr
  -- the tree as the searches read it
  have hin : Server.TreeIn (fastSt E s b ms a).get (n + 1) (cs, r.read)
      (fastSt E s b ms a).tree.bp := by
    refine ⟨⟨r.content, ?_, ?_⟩, fun d hd => ?_⟩
    · simp [St.get, fastSt, ← hr, show r.bp.addr = a from rfl]
    · rw [← hvals]
      exact isPivot_content hfr hp
    · obtain ⟨bp', hbp, hin⟩ := hch d hd
      refine ⟨bp', hbp, treeIn_mono (fun bp c hgc => ?_) hin⟩
      obtain ⟨b', hb', rfl⟩ := Option.map_eq_some_iff.1 hgc
      have hne : bp.addr ≠ a := by
        intro he
        have := h.live _ _ hb'
        rw [he, hl] at this
        exact absurd this (by decide)
      simp [St.get, fastSt, hne, hb']
  have hord : Ordered (n + 1) (cs, r.read) none none :=
    ⟨ho1, ho2, sorted_of_bare hrb.symm hsort, fun m _ => by simp [InRange], ho5⟩
  have hfold : serverGet gefsKvmax (n + 1) (cs, r.read) k = some v' := by
    have hk1 : (r.read.filter (·.k = k)).map bare
        = ((ms₀.filter (·.k = k)) ++ ms.filter (·.k = k)).map bare := by
      rw [map_bare_filter hrb k, List.map_append, ← map_bare_filter hbare k, ← List.map_append,
        ← hfilter k]
      rfl
    simp only [serverGet, msgsOn, leafVal, List.foldlM_append] at hv ⊢
    obtain ⟨u, hu, hv⟩ := Option.bind_eq_some_iff.1 hv
    rw [hu, Option.bind_eq_bind, Option.bind_some, foldlM_congr_bare hk1, List.foldlM_append, hv]
    exact hv'
  refine btlookup_tree ?_ hin hord (fun w hw => ?_) hfold
  · show (s.tree.ht + 0).toInt = _
    rw [Int32.add_zero]
    exact h.ht
  · exact h.sized.leafVal hw

/-- What a lookup gave before. -/
theorem WellFormed.btlookup {n : ℕ} {T : Beps n} (h : WellFormed s n T) {k : Bytes}
    {v : Option Bytes} (hv : serverGet gefsKvmax n T k = some v) :
    Server.btlookup s.get s.tree.toGefsTree k gefsKvmax = some (v.map (k, ·)) :=
  btlookup_tree h.ht h.blocks h.ordered (fun _ hw => h.sized.leafVal hw) hv

end Root

/-! ## The handler -/

section Handler

variable {E : Env} {s s₁ : St} {α : Type} {x : Op α} {g : Op Unit}

theorem exec_onError_ok {a : α} (h : exec x s = (.ok a, s₁)) :
    exec (onError x g) s = (.ok a, s₁) := by
  unfold onError
  rw [exec_tryCatch, h]

theorem exec_onError_raised (h : exec x s = (.error .raised, s₁)) :
    exec (onError x g) s = ((exec g s₁).1.bind fun _ => .error .raised, (exec g s₁).2) := by
  unfold onError
  rw [exec_tryCatch, h]
  simp only [if_true, exec_bind]
  rcases exec g s₁ with ⟨_ | _, _⟩ <;> rfl

/-- Freeing a block changes nothing else, and it can only end with an error. -/
structure Frees (s : St) (r : Except Fail Unit × St) : Prop where
  tree : r.2.tree = s.tree
  blks : r.2.blks = s.blks
  freed : s.freed ⊆ r.2.freed
  ends : r.1 = .ok () ∨ r.1 = .error .raised

theorem frees_freebp (bp : GefsBptr) (s : St) :
    Frees s (exec (freebp E bp) s) ∧ bp ∈ (exec (freebp E bp) s).2.freed := by
  by_cases h : Killed s.tree bp
  · rcases ha : E.ans s.calls with _ | a
    · rw [exec_freebp_none h ha]
      exact ⟨⟨rfl, rfl, List.subset_cons_self _ _, .inr rfl⟩, List.mem_cons_self⟩
    · rw [exec_freebp_some h ha]
      exact ⟨⟨rfl, rfl, List.subset_cons_self _ _, .inl rfl⟩, List.mem_cons_self⟩
  · rw [exec_freebp h]
    exact ⟨⟨rfl, rfl, List.subset_cons_self _ _, .inl rfl⟩, List.mem_cons_self⟩

theorem Frees.trans {r r' : Except Fail Unit × St} (h : Frees s r) (h' : Frees r.2 r') :
    Frees s r' :=
  ⟨h'.tree.trans h.tree, h'.blks.trans h.blks, fun _ hb => h'.freed (h.freed hb), h'.ends⟩

theorem Frees.bind {x y : Op Unit} (hx : Frees s (exec x s)) (hy : ∀ s, Frees s (exec y s)) :
    Frees s (exec (x >>= fun _ => y) s) := by
  rw [exec_bind]
  rcases hr : exec x s with ⟨e | _, s'⟩ <;> rw [hr] at hx
  · exact ⟨hx.tree, hx.blks, hx.freed, by simpa using hx.ends⟩
  · exact hx.trans (hy s')

theorem frees_pure (s : St) : Frees s (exec (pure ()) s) :=
  ⟨rfl, rfl, fun _ h => h, .inl rfl⟩

theorem frees_freepath : ∀ {ps : List Path}, (∀ p ∈ ps, p.m = none) → ∀ s,
    Frees s (exec (freepath E ps) s)
  | [], _, s => frees_pure s
  | p :: ps, hm, s => by
    have ih : ∀ s, Frees s (exec (freepath E ps) s) :=
      frees_freepath fun q hq => hm q (List.mem_cons_of_mem _ hq)
    have hp : p.m = none := hm p (by simp)
    unfold freepath
    rcases p.b with _ | b
    · simpa [hp] using ih s
    · simpa [hp, freeblk] using (frees_freebp b.bp s).1.bind ih

/-- The second block of the path is freed first. -/
theorem mem_freed_freepath {p₀ p₁ : Path} {ps : List Path} {b : Node} (h₀ : p₀.b = none)
    (h₁ : p₁.b = some b) (hm : ∀ p ∈ p₀ :: p₁ :: ps, p.m = none) :
    b.bp ∈ (exec (freepath E (p₀ :: p₁ :: ps)) s).2.freed := by
  have hm₀ : p₀.m = none := hm p₀ (by simp)
  have hm₁ : p₁.m = none := hm p₁ (by simp)
  have ih := @frees_freepath E ps fun p hp => hm p (by simp [hp])
  unfold freepath freepath
  simp only [h₀, hm₀, h₁, hm₁, Option.isSome_none, Bool.false_eq_true, if_false]
  obtain ⟨-, hmem⟩ := frees_freebp (E := E) b.bp s
  rw [exec_bind]
  rcases hr : exec (freeblk E b) s with ⟨e | _, s'⟩
  · have hr' : exec (freebp E b.bp) s = _ := hr
    rwa [hr'] at hmem
  · have hr' : exec (freebp E b.bp) s = _ := hr
    rw [hr'] at hmem
    exact (ih s').freed hmem

end Handler

/-! ## An error with the root on the path -/

section Slow

variable {E : Env} {s : St} {b c : Node}

/-- The state after so many questions to the environment. -/
def St.tick (s : St) (k : ℕ) : St := { s with calls := s.calls + k }

/-- The first block a flush allocates can fail. -/
theorem exec_flush_none {p up : Path} {rest : List Path} (hp : p.b = some c)
    (ha : E.ans s.calls = none) :
    exec (flush E (p :: up :: rest)) s = (.error .raised, s.tick 1) := by
  have hnew : exec (newblk E c.pivot) s = (.error .raised, s.tick 1) := exec_newblk_none ha _
  have hup : ∀ q : Path, q.b = some c → ∀ pp, exec (updatepiv E up q pp) s
      = (.error .raised, s.tick 1) := by
    intro q hq pp
    unfold updatepiv
    rw [hq, exec_bind_ok (exec_must_some _), exec_bind_error hnew]
  have hb : exec (must p.b) s = (.ok c, s) := by
    rw [hp]
    rfl
  rw [flush, exec_bind_ok hb]
  split_ifs with h1 h2
  · -- the bottom of the path is a pivot
    rw [flushUp, exec_bind_ok hb]
    split_ifs with h3
    · refine exec_bind_error ?_
      unfold splitpiv
      rw [hp, exec_bind_ok (exec_must_some _), exec_bind_error hnew]
    · have hbal : exec (trybalance E p none p.idx) s = (.ok (p, none), s) := rfl
      rw [exec_bind_ok hbal]
      simp only [Option.mem_def, reduceCtorEq, false_and, exists_false, and_false, if_false]
      exact exec_bind_error (hup p hp none)
  · refine exec_bind_error ?_
    unfold splitleaf
    rw [hp, exec_bind_ok (exec_must_some _), exec_bind_error hnew]
  · refine exec_bind_error ?_
    unfold updateleaf
    rw [hp, exec_bind_ok (exec_must_some _), exec_bind_error hnew]

/-- The child `victim` picks is one of the block's. -/
theorem victimLoop_spec {N : ℕ} : ∀ {ks : List (Option Bytes)} {i j : ℕ} {ms : List GefsMsg}
    {p : Path}, i + ks.length ≤ N → p.idx.toNat < N → p.m = none →
    (victimLoop ks i j ms p).idx.toNat < N ∧ (victimLoop ks i j ms p).b = p.b
      ∧ (victimLoop ks i j ms p).m = none
  | [], _, _, _, _, _, hidx, hm => ⟨hidx, rfl, hm⟩
  | k :: ks, i, j, ms, p, hi, hidx, hm => by
    simp only [List.length_cons] at hi
    unfold victimLoop
    simp only
    split_ifs with h
    · exact victimLoop_spec (by omega) (by simp only [Int.toNat_natCast]; omega) hm
    · exact victimLoop_spec (by omega) hidx hm

theorem victim_spec (hv : b.vals ≠ []) :
    (victim b zeroPath).idx.toNat < b.vals.length ∧ (victim b zeroPath).b = some b
      ∧ (victim b zeroPath).m = none := by
  have hpos := List.length_pos_iff.2 hv
  unfold victim Node.nval
  rw [if_neg (by omega)]
  refine victimLoop_spec (p := { zeroPath with b := some b }) ?_ hpos rfl
  simp only [List.length_append, List.length_map, List.length_tail, List.length_singleton]
  omega

/-- The blocks of a path whose second one is the root. -/
structure RootPath (b : Node) (path : List Path) : Prop where
  top : ∃ p₀ p₁ ps, path.reverse = p₀ :: p₁ :: ps ∧ p₀.b = none ∧ p₁.b = some b
  unmerged : ∀ p ∈ path, p.m = none

/-- Where an error comes with the root on the path, the handler frees the root. -/
theorem RootPath.handler {path : List Path} (h : RootPath b path) {α : Type} {x : Op α} {k : ℕ}
    (hx : exec x s = (.error .raised, s.tick k)) :
    ∃ s', exec (onError x (freepath E path.reverse)) s = (.error .raised, s')
      ∧ s'.tree = s.tree ∧ s'.blks = s.blks ∧ b.bp ∈ s'.freed := by
  obtain ⟨p₀, p₁, ps, hrev, h0, h1⟩ := h.top
  have hm : ∀ p ∈ p₀ :: p₁ :: ps, p.m = none := by
    intro p hp
    rw [← hrev] at hp
    exact h.unmerged p (List.mem_reverse.1 hp)
  have hf := frees_freepath (E := E) hm (s.tick k)
  have hmem := mem_freed_freepath (E := E) (s := s.tick k) h0 h1 hm
  refine ⟨(exec (freepath E path.reverse) (s.tick k)).2, ?_, ?_⟩
  · rw [exec_onError_raised hx, hrev]
    rcases hf.ends with he | he <;> rw [he] <;> rfl
  · rw [hrev]
    exact ⟨hf.tree, hf.blks, hmem⟩

/-- From a block whose allocation or read fails on. -/
theorem descent_fails {nmsg : ℕ} {n : ℕ} {path : List Path} (hr : RootPath b path)
    (hpath : path ≠ []) (hc : c.pivot = true → c.vals ≠ [])
    (hptr : ∀ kv ∈ c.vals, c.pivot = true → ∃ bp, valBptr kv.2 = some bp)
    (ha : E.ans s.calls = none) :
    ∃ s', exec (do
        let path ← descent E nmsg (n + 1) c path
        onError (flush E path) (freepath E path.reverse)) s = (.error .raised, s')
      ∧ s'.tree = s.tree ∧ s'.blks = s.blks ∧ b.bp ∈ s'.freed := by
  unfold descent
  split_ifs with h
  · obtain ⟨hp, -⟩ := h
    obtain ⟨hidx, -, -⟩ := victim_spec (hc hp)
    obtain ⟨bp, hbp⟩ := hptr _ (List.getElem_mem hidx) hp
    have hget : exec (getblk E bp) s = (.error .raised, s.tick 1) := exec_getblk_none ha
    obtain ⟨s', hs', hrest⟩ := hr.handler (E := E) hget
    refine ⟨s', ?_, hrest⟩
    have hval : exec (getval c (victim c zeroPath).idx.toNat) s
        = (.ok c.vals[(victim c zeroPath).idx.toNat], s) := by
      unfold getval
      rw [List.getElem?_eq_getElem hidx]
      rfl
    simp only [bind_assoc]
    rw [exec_bind_ok hval, hbp, exec_bind_ok (exec_must_some _), exec_bind_error hs']
  · obtain ⟨p, ps, rfl⟩ := List.exists_cons_of_ne_nil hpath
    rw [exec_bind_ok (exec_pure _)]
    refine RootPath.handler (k := 1) ⟨?_, ?_⟩ (exec_flush_none rfl ha)
    · obtain ⟨p₀, p₁, ps', hrev, h0, h1⟩ := hr.top
      exact ⟨p₀, p₁, ps' ++ [_], by rw [List.reverse_cons, hrev]; rfl, h0, h1⟩
    · intro q hq
      rcases List.mem_cons.1 hq with rfl | hq
      · rfl
      · exact hr.unmerged q hq

end Slow

section NotFast

variable {s : St}

/-- What a block of a well-formed tree looks like: a pivot has values, and each leads to a block of
a lower tree. -/
theorem node_of_treeIn (hfits : ∀ a b, s.blks a = some b → b.Fits) : ∀ {n : ℕ} {T : Beps n}
    {bp : GefsBptr}, Server.TreeIn s.get n T bp → Populated n T →
    ∃ b, s.blks bp.addr = some b ∧ (b.pivot = true → b.vals ≠ []) ∧ (b.pivot = true ↔ n ≠ 0)
      ∧ ∀ kv ∈ b.vals, b.pivot = true → ∃ bp' m, ∃ T' : Beps m, valBptr kv.2 = some bp' ∧ n = m + 1
        ∧ Server.TreeIn s.get m T' bp' ∧ Populated m T'
  | 0, _, _, ⟨c, hc, hl⟩, _ => by
    obtain ⟨b, hb, rfl⟩ := Option.map_eq_some_iff.1 hc
    obtain ⟨hp, -⟩ := vals_of_isLeaf (hfits _ _ hb) hl
    exact ⟨b, hb, by simp [hp], by simp [hp], by simp [hp]⟩
  | n + 1, (cs, ms), _, ⟨⟨c, hc, hpiv⟩, hch⟩, ⟨hne, hpop⟩ => by
    obtain ⟨b, hb, rfl⟩ := Option.map_eq_some_iff.1 hc
    obtain ⟨hp, hvals, -⟩ := vals_of_isPivot (hfits _ _ hb) hpiv
    refine ⟨b, hb, fun _ => by simpa [hvals] using hne, by simp [hp], fun kv hkv _ => ?_⟩
    rw [hvals] at hkv
    obtain ⟨d, hd, rfl⟩ := List.mem_map.1 hkv
    obtain ⟨bp', hbp, hin⟩ := hch d hd
    exact ⟨bp', n, d.2, hbp, rfl, hin, hpop d hd⟩

variable {ms : List GefsMsg} {b : Node}

theorem filledbuf_stablesort (b : Node) (ms : List GefsMsg) :
    filledbuf b (stablesort ms).length ((stablesort ms).map msgsz).sum
      = filledbuf b ms.length (ms.map msgsz).sum := by
  have h := stablesort_perm ms
  rw [h.length_eq, (h.map _).sum_eq]

/-- The pass that reads the root and cannot take the fast way. -/
theorem exec_btupsert_slow {E : Env} {a : Int64} (ha : E.ans s.calls = some a)
    (hb : s.blks s.tree.bp.addr = some b) (hnf : ¬ Fast s ms) {s' : St}
    (h : exec (slowupsert E { b with bp := s.tree.bp } s.tree.ht.toInt.toNat
      ((stablesort ms).map msgsz).sum 0 (stablesort ms)) (s.tick 1) = (.error .raised, s')) :
    exec (btupsert E 1 ms) s = (.error .raised, s') := by
  have hget : exec (getblk E s.tree.bp) s = (.ok { b with bp := s.tree.bp }, s.tick 1) :=
    exec_getblk ha hb
  have hroot : exec (getroot E) s
      = (.ok ({ b with bp := s.tree.bp }, s.tree.ht.toInt.toNat), s.tick 1) := by
    unfold getroot
    rw [exec_bind_ok exec_get, exec_bind_ok hget]
    rfl
  have hslow : ¬ (True ∧ b.pivot = true ∧ ¬ filledbuf { b with bp := s.tree.bp }
      (stablesort ms).length ((stablesort ms).map msgsz).sum = true) := by
    rintro ⟨-, hp, hf⟩
    rw [filledbuf_stablesort, Bool.not_eq_true] at hf
    exact hnf ⟨b, hb, hp, hf⟩
  unfold btupsert upsertLoop
  rw [exec_bind_ok (exec_onError_ok hroot)]
  simp only
  rw [if_neg hslow]
  exact exec_bind_error h

theorem exec_slowupsert {E : Env} {a : Int64} {ht sz : ℕ} {s' : St} (ha : E.ans s.calls = some a)
    (h : exec (do
        let path ← descent E ms.length (ht + 1) b
          [{ zeroPath with ins := some ms, idx := -1, midx := -1, lo := 0, hi := ms.length, sz := sz }]
        onError (flush E path) (freepath E path.reverse)) (s.tick 1) = (.error .raised, s')) :
    exec (slowupsert E b ht sz 0 ms) s = (.error .raised, s') := by
  unfold slowupsert
  rw [exec_bind_ok (exec_ask_some ha)]
  have hassoc : ∀ {α β γ : Type} (x : Op α) (f : α → Op β) (g : β → Op γ),
      exec (x >>= fun a => f a >>= g) (s.tick 1) = exec ((x >>= f) >>= g) (s.tick 1) := by
    intro α β γ x f g
    rw [bind_assoc]
  simp only [Nat.cast_zero]
  show exec (_ >>= fun path => onError (flush E path) _ >>= _) (s.tick 1) = _
  rw [hassoc]
  exact exec_bind_error h

/-- Without the fast way there is an error that frees the root. -/
theorem exists_frees_root {n : ℕ} {T : Beps n} (h : WellFormed s n T) (hnf : ¬ Fast s ms) :
    ∃ E fuel s', exec (btupsert E fuel ms) s = (.error .raised, s') ∧ s'.tree = s.tree
      ∧ s'.blks = s.blks ∧ s.tree.bp ∈ s'.freed := by
  obtain ⟨b, hb, hne, hpiv, hch⟩ := node_of_treeIn h.fits h.blocks h.populated
  rcases hp : b.pivot with _ | _
  · -- a leaf: the first allocation fails
    let E : Env := ⟨fun i => if i < s.calls + 2 then some 0 else none, fun _ => 0⟩
    have h0 : E.ans s.calls = some 0 := if_pos (by omega)
    have h1 : E.ans (s.tick 1).calls = some 0 := if_pos (by simp [St.tick])
    have h2 : E.ans ((s.tick 1).tick 1).calls = none := if_neg (by simp [St.tick])
    let p₀ : Path := { zeroPath with
      ins := some (stablesort ms), idx := -1, midx := -1, lo := 0, hi := (stablesort ms).length
      sz := ((stablesort ms).map msgsz).sum }
    let p : Path := { zeroPath with
      b := some { b with bp := s.tree.bp }, idx := -1, midx := -1, lo := -1, hi := -1 }
    have hpath : RootPath { b with bp := s.tree.bp } [p, p₀] :=
      ⟨⟨p₀, p, [], rfl, rfl, rfl⟩, by simp [p, p₀, zeroPath]⟩
    obtain ⟨s', hs', ht, hbk, hmem⟩ := hpath.handler (E := E) (k := 1)
      (@exec_flush_none E _ _ p p₀ [] rfl h2)
    refine ⟨E, 1, s', exec_btupsert_slow h0 hb hnf (exec_slowupsert h1 ?_), ht, hbk, hmem⟩
    have hd : exec (descent E (stablesort ms).length (s.tree.ht.toInt.toNat + 1)
        { b with bp := s.tree.bp } [p₀]) ((s.tick 1).tick 1) = (.ok [p, p₀], (s.tick 1).tick 1) := by
      unfold descent
      rw [if_neg (by simp [hp])]
      rfl
    rw [exec_bind_ok hd]
    exact hs'
  · -- a pivot whose buffer is full: what comes after the read of its child fails
    let E : Env := ⟨fun i => if i < s.calls + 3 then some 0 else none, fun _ => 0⟩
    have h0 : E.ans s.calls = some 0 := if_pos (by omega)
    have h1 : E.ans (s.tick 1).calls = some 0 := if_pos (by simp [St.tick])
    have h2 : E.ans ((s.tick 1).tick 1).calls = some 0 := if_pos (by simp [St.tick])
    have h3 : E.ans (((s.tick 1).tick 1).tick 1).calls = none := if_neg (by simp [St.tick])
    let r : Node := { b with bp := s.tree.bp }
    let p₀ : Path := { zeroPath with
      ins := some (stablesort ms), idx := -1, midx := -1, lo := 0, hi := (stablesort ms).length
      sz := ((stablesort ms).map msgsz).sum }
    obtain ⟨hidx, hvb, hvm⟩ := victim_spec (b := r) (hne hp)
    obtain ⟨bp, m, T', hbp, rfl, hin, hpop⟩ := hch _ (List.getElem_mem hidx) hp
    obtain ⟨c, hc, hcne, -, hcch⟩ := node_of_treeIn h.fits hin hpop
    have hpath : RootPath r [victim r zeroPath, p₀] := by
      refine ⟨⟨p₀, victim r zeroPath, [], rfl, rfl, hvb⟩, fun p hp => ?_⟩
      rcases List.mem_cons.1 hp with rfl | hp
      · exact hvm
      · rw [List.mem_singleton.1 hp]
        rfl
    have hht : s.tree.ht.toInt.toNat = m + 1 + 1 := by
      have := h.ht
      omega
    obtain ⟨s', hs', ht, hbk, hmem⟩ := @descent_fails E (((s.tick 1).tick 1).tick 1) _
      { c with bp := bp } (stablesort ms).length (m + 1) _ hpath (by simp) hcne
      (fun kv hkv hcp => by
        obtain ⟨bp', -, -, hbp', -⟩ := hcch kv hkv hcp
        exact ⟨bp', hbp'⟩) h3
    refine ⟨E, 1, s', exec_btupsert_slow h0 hb hnf (exec_slowupsert h1 ?_), ht, hbk, hmem⟩
    have hfull : r.pivot = true ∧ filledbuf r (stablesort ms).length
        (([p₀].head?.map Path.sz).getD 0) = true := by
      refine ⟨hp, ?_⟩
      by_contra hf
      rw [Bool.not_eq_true] at hf
      exact hnf ⟨b, hb, hp, (filledbuf_stablesort b ms).symm.trans hf⟩
    have hval : exec (getval r (victim r zeroPath).idx.toNat) ((s.tick 1).tick 1)
        = (.ok r.vals[(victim r zeroPath).idx.toNat], (s.tick 1).tick 1) := by
      unfold getval
      rw [List.getElem?_eq_getElem hidx]
      rfl
    have hget : exec (getblk E bp) ((s.tick 1).tick 1)
        = (.ok { c with bp := bp }, ((s.tick 1).tick 1).tick 1) := exec_getblk h2 hc
    rw [descent, if_pos hfull]
    simp only [bind_assoc]
    rw [exec_bind_ok hval, hbp, exec_bind_ok (exec_must_some _),
      exec_bind_ok (exec_onError_ok hget), hht]
    exact hs'

end NotFast

/-! ## An error on the fast way -/

section Height

variable {s : St}

/-- The blocks under an address have one height. -/
theorem height_unique (hfits : ∀ a b, s.blks a = some b → b.Fits) : ∀ {m m' : ℕ} {T : Beps m}
    {T' : Beps m'} {bp bp' : GefsBptr}, Server.TreeIn s.get m T bp → Populated m T →
    Server.TreeIn s.get m' T' bp' → Populated m' T' → bp.addr = bp'.addr → m = m'
  | m, m', T, T', bp, bp', h, hp, h', hp', he => by
    obtain ⟨b, hb, hne, hpiv, hch⟩ := node_of_treeIn hfits h hp
    obtain ⟨b', hb', -, hpiv', hch'⟩ := node_of_treeIn hfits h' hp'
    rw [he, hb'] at hb
    obtain rfl := Option.some.inj hb
    rcases hbp : b'.pivot with _ | _
    · have h0 : m = 0 := by
        by_contra hm
        exact absurd (hpiv.2 hm) (by simp [hbp])
      have h0' : m' = 0 := by
        by_contra hm
        exact absurd (hpiv'.2 hm) (by simp [hbp])
      rw [h0, h0']
    · obtain ⟨kv, hkv⟩ := List.exists_mem_of_ne_nil _ (hne hbp)
      obtain ⟨bp₁, k, U, h1, rfl, hU, hpU⟩ := hch kv hkv hbp
      obtain ⟨bp₂, k', U', h2, rfl, hU', hpU'⟩ := hch' kv hkv hbp
      obtain rfl := Option.some.inj (h1.symm.trans h2)
      rw [height_unique hfits hU hpU hU' hpU' rfl]

/-- The root is not below a block of a lower tree, also once a block is added elsewhere. -/
theorem not_below {n : ℕ} {T : Beps n} (h : WellFormed s n T) {r : Node} {a : Int64}
    (hl : s.live a = false) {x y : Int64}
    (hx : Below (fun x => if x = a then some r else s.blks x) x y) (hy : y = s.tree.bp.addr) :
    ∀ {m : ℕ} {T' : Beps m} {bp : GefsBptr}, bp.addr = x → m < n → Server.TreeIn s.get m T' bp →
    Populated m T' → False := by
  induction hx with
  | refl x =>
    intro m T' bp hbp hm hT' hp'
    have := height_unique h.fits hT' hp' h.blocks h.populated (hbp.trans hy)
    omega
  | @child x _ _ _ _ hb hp hkv hptr _ ih =>
    intro m T' bp hbp hm hT' hp'
    obtain ⟨b', hb', -, -, hch⟩ := node_of_treeIn h.fits hT' hp'
    rw [hbp] at hb'
    have hne : x ≠ a := by
      intro he
      have := h.live _ _ hb'
      rw [he, hl] at this
      exact absurd this (by decide)
    simp only [if_neg hne, hb', Option.some.injEq] at hb
    subst hb
    obtain ⟨bp', k, U, h1, rfl, hU, hpU⟩ := hch _ hkv hp
    obtain rfl := Option.some.inj (hptr.symm.trans h1)
    exact ih hy rfl (by omega) hU hpU

end Height

section FastError

variable {E : Env} {s s' : St} {ms : List GefsMsg} {b : Node}

/-- The state in which the fast way fails once the new root, at `a`, is in place. -/
structure KilledAt (E : Env) (s : St) (b : Node) (ms : List GefsMsg) (a : Int64) (s' : St) :
    Prop where
  killed : Killed s.tree s.tree.bp
  free : s.live a = false
  blks : s'.blks = (fastSt E s { b with bp := s.tree.bp } (stablesort ms) a).blks
  tree : s'.tree = (fastSt E s { b with bp := s.tree.bp } (stablesort ms) a).tree
  freed : s'.freed = s.tree.bp :: s.freed

theorem exec_btupsert_fast {a₀ : Int64} (ha : E.ans s.calls = some a₀)
    (hb : s.blks s.tree.bp.addr = some b) (hp : b.pivot = true)
    (hf : filledbuf b ms.length (ms.map msgsz).sum = false) (fuel : ℕ) :
    exec (btupsert E (fuel + 1) ms) s = exec (onError
      (fastupsert E { b with bp := s.tree.bp } (stablesort ms)) (pure ())) (s.tick 1) := by
  have hget : exec (getblk E s.tree.bp) s = (.ok { b with bp := s.tree.bp }, s.tick 1) :=
    exec_getblk ha hb
  have hroot : exec (getroot E) s
      = (.ok ({ b with bp := s.tree.bp }, s.tree.ht.toInt.toNat), s.tick 1) := by
    unfold getroot
    rw [exec_bind_ok exec_get, exec_bind_ok hget]
    rfl
  have hfast : True ∧ b.pivot = true ∧ ¬ filledbuf { b with bp := s.tree.bp }
      (stablesort ms).length ((stablesort ms).map msgsz).sum = true := by
    refine ⟨trivial, hp, ?_⟩
    rw [filledbuf_stablesort]
    exact Bool.eq_false_iff.1 hf
  unfold btupsert upsertLoop
  rw [exec_bind_ok (exec_onError_ok hroot)]
  simp only
  rw [if_pos hfast, if_pos trivial]

theorem room_of_filledbuf (hf : filledbuf b ms.length (ms.map msgsz).sum = false) :
    2 * (b.nbuf + (stablesort ms).length) + b.bufsz
      + ((stablesort ms).map fun m => msgsz m - 2).sum ≤ gefsBufspc := by
  rw [← filledbuf_stablesort] at hf
  have hle : ((stablesort ms).map fun m => msgsz m - 2).sum ≤ ((stablesort ms).map msgsz).sum :=
    List.sum_le_sum fun m _ => Nat.sub_le _ _
  unfold filledbuf at hf
  simp only [decide_eq_false_iff_not, not_lt] at hf
  omega

/-- The places where the fast way can fail: before anything is done, or when the old root is put
on a deadlist. -/
theorem fast_raised (hb : s.blks s.tree.bp.addr = some b) (hp : b.pivot = true)
    (hf : filledbuf b ms.length (ms.map msgsz).sum = false) {fuel : ℕ}
    (h : exec (btupsert E fuel ms) s = (.error .raised, s')) :
    (s'.tree = s.tree ∧ s'.blks = s.blks ∧ s'.freed = s.freed) ∨ ∃ a, KilledAt E s b ms a s' := by
  rcases fuel with _ | fuel
  · cases h
  rcases ha : E.ans s.calls with _ | a₀
  · have hroot : exec (getroot E) s = (.error .raised, s.tick 1) := by
      unfold getroot
      rw [exec_bind_ok exec_get, exec_bind_error (exec_getblk_none ha)]
      rfl
    unfold btupsert upsertLoop at h
    rw [exec_bind_error (exec_onError_raised hroot)] at h
    obtain ⟨-, rfl⟩ := Prod.mk.inj h
    exact .inl ⟨rfl, rfl, rfl⟩
  rw [exec_btupsert_fast ha hb hp hf] at h
  rcases ha1 : E.ans (s.tick 1).calls with _ | a
  · rw [exec_onError_raised (exec_fastupsert_none ha1)] at h
    obtain ⟨-, rfl⟩ := Prod.mk.inj h
    exact .inl ⟨rfl, rfl, rfl⟩
  rcases hl : s.live a with _ | _
  · have hfu := exec_fastupsert (E := E) (s := s.tick 1) (b := { b with bp := s.tree.bp })
      hp (room_of_filledbuf hf) ha1 hl
    rw [freeblk] at hfu
    by_cases hk : Killed s.tree s.tree.bp
    · rcases ha2 : E.ans (s.calls + 1 + 1) with _ | a₂
      · rw [exec_onError_raised (hfu.trans (exec_freebp_none hk ha2))] at h
        obtain ⟨-, rfl⟩ := Prod.mk.inj h
        exact .inr ⟨a, hk, hl, rfl, rfl, rfl⟩
      · rw [exec_onError_ok (hfu.trans (exec_freebp_some hk ha2))] at h
        cases h
    · rw [exec_onError_ok (hfu.trans (exec_freebp hk))] at h
      cases h
  · have hnew : exec (fastupsert E { b with bp := s.tree.bp } (stablesort ms)) (s.tick 1)
        = (.error .stopped, s.tick 2) := by
      unfold fastupsert dupblk newblk
      simp only [bind_assoc]
      rw [exec_bind_ok (exec_ask_some ha1), exec_bind_ok exec_get]
      simp only [St.tick, hl]
      rfl
    unfold onError at h
    rw [exec_tryCatch, hnew] at h
    cases h

/-- And it does fail there where the environment lets it. -/
theorem exists_killedAt (hb : s.blks s.tree.bp.addr = some b) (hp : b.pivot = true)
    (hf : filledbuf b ms.length (ms.map msgsz).sum = false) (hk : Killed s.tree s.tree.bp)
    {a : Int64} (hl : s.live a = false) :
    ∃ E fuel s', exec (btupsert E fuel ms) s = (.error .raised, s')
      ∧ KilledAt E s b ms a s' := by
  let E : Env := ⟨fun i => if i < s.calls + 2 then some a else none, fun _ => 0⟩
  have h0 : E.ans s.calls = some a := if_pos (by omega)
  have h1 : E.ans (s.tick 1).calls = some a := if_pos (by simp [St.tick])
  have h2 : E.ans (s.calls + 1 + 1) = none := if_neg (by omega)
  have hfu := exec_fastupsert (E := E) (s := s.tick 1) (b := { b with bp := s.tree.bp })
    hp (room_of_filledbuf hf) h1 hl
  rw [freeblk] at hfu
  refine ⟨E, 1, { fastSt E (s.tick 1) { b with bp := s.tree.bp } (stablesort ms) a with
    freed := s.tree.bp :: s.freed, calls := s.calls + 3 }, ?_, hk, hl, rfl, rfl, rfl⟩
  rw [exec_btupsert_fast h0 hb hp hf, exec_onError_raised (hfu.trans (exec_freebp_none hk h2))]
  rfl

end FastError

/-! ## When errors leave the tree alone -/

section Kept

variable {s : St} {n : ℕ} {T : Beps n} {ms : List GefsMsg}

theorem St.get_congr {s s' : St} (h : s'.blks = s.blks) : s'.get = s.get := by
  funext bp
  simp [St.get, h]

/-- An error before anything is done. -/
theorem intact_of_same {s' : St} (h : WellFormed s n T) (ht : s'.tree = s.tree)
    (hb : s'.blks = s.blks) (hf : s'.freed = s.freed) : Intact s s' := by
  rw [h.start] at hf
  refine ⟨fun k => ?_, by simp [hf], by simp [hf]⟩
  rw [St.get_congr hb, ht]

/-- A lookup where the new root is in place. -/
theorem KilledAt.btlookup {E : Env} {s' : St} {b : Node} {a : Int64} (hk : KilledAt E s b ms a s')
    (h : WellFormed s n T) (hb : s.blks s.tree.bp.addr = some b) (hp : b.pivot = true)
    (hf : filledbuf b ms.length (ms.map msgsz).sum = false) (ha : Applies n T ms) {k : Bytes}
    {v v' : Option Bytes} (hv : serverGet gefsKvmax n T k = some v)
    (hv' : (ms.filter (·.k = k)).foldlM (serverEff gefsKvmax k) v = some v') :
    Server.btlookup s'.get s'.tree.toGefsTree k gefsKvmax = some (v'.map (k, ·)) := by
  obtain ⟨b', hb', -, hpiv, -⟩ := node_of_treeIn h.fits h.blocks h.populated
  obtain rfl := Option.some.inj (hb'.symm.trans hb)
  rw [St.get_congr hk.blks, hk.tree]
  rcases n with _ | n
  · exact absurd (hpiv.1 hp) (by simp)
  · obtain ⟨cs, ms₀⟩ := T
    refine lookup_fastSt h hb hk.free (fun m hm => ?_) (room_of_filledbuf hf) hv ?_
    · exact ops_of_applies h.applies ha m ((stablesort_perm ms).mem_iff.1 hm)
    · rwa [filter_stablesort]

theorem applies_of_idle (h : Idle n T ms) : Applies n T ms := fun k v hv => ⟨v, h k v hv⟩

/-- An error while the old root is put on a deadlist, of a batch that changes nothing. -/
theorem intact_of_idle {E : Env} {s' : St} {b : Node} {a : Int64} (hk : KilledAt E s b ms a s')
    (h : WellFormed s n T) (hb : s.blks s.tree.bp.addr = some b) (hp : b.pivot = true)
    (hf : filledbuf b ms.length (ms.map msgsz).sum = false) (hi : Idle n T ms) : Intact s s' := by
  have hlook : ∀ k, btlookup s'.get s'.tree.toGefsTree k gefsKvmax
      = btlookup s.get s.tree.toGefsTree k gefsKvmax := by
    intro k
    obtain ⟨v, hv⟩ := h.applies k
    rw [hk.btlookup h hb hp hf (applies_of_idle hi) hv (hi k v hv), h.btlookup hv]
  have hfreed : ∀ bp ∈ s'.freed, bp = s.tree.bp := by
    intro bp hbp
    rw [hk.freed, h.start] at hbp
    exact List.mem_singleton.1 hbp
  have hne : s.tree.bp.addr ≠ a := by
    intro he
    have := h.live _ _ hb
    rw [he, hk.free] at this
    exact absurd this (by decide)
  refine ⟨hlook, fun bp hbp hbelow => ?_, fun bp hbp hmaps => ?_⟩
  · rw [hfreed bp hbp, hk.blks, hk.tree] at hbelow
    obtain ⟨b', hb', -, -, hch⟩ := node_of_treeIn h.fits h.blocks h.populated
    obtain rfl := Option.some.inj (hb'.symm.trans hb)
    rcases hbelow with _ | ⟨hr, -, hkv, hptr, hbelow⟩
    · exact hne rfl
    · simp only [fastSt, fastRoot, if_true, Option.some.injEq] at hr
      subst hr
      obtain ⟨bp', m, U, h1, rfl, hU, hpU⟩ := hch _ hkv hp
      obtain rfl := Option.some.inj (hptr.symm.trans h1)
      exact not_below h hk.free hbelow rfl rfl (Nat.lt_succ_self m) hU hpU
  · obtain ⟨k, kv, bp', hl, hd, hptr, ha⟩ := hmaps
    rw [hfreed bp hbp] at ha
    rw [hlook] at hl
    have := h.data s.tree.bp.addr ⟨k, kv, bp', hl, hd, hptr, ha⟩
    rw [hb] at this
    cases this

/-- Every error leaves the tree as it was where the batch goes into the root's buffer and either the
old root needs no deadlist or the batch changes no value. Nowhere else: any other batch, if its
messages apply, can fail and leave the tree without its root, or changed. -/
theorem errorKept_iff (h : WellFormed s n T) :
    (Fast s ms ∧ (¬ Killed s.tree s.tree.bp ∨ Idle n T ms) → ErrorKept s ms)
      ∧ (Applies n T ms → ErrorKept s ms →
        Fast s ms ∧ (¬ Killed s.tree s.tree.bp ∨ Idle n T ms)) := by
  constructor
  · rintro ⟨⟨b, hb, hp, hf⟩, hki⟩ E fuel s' hs'
    rcases fast_raised hb hp hf hs' with ⟨ht, hbk, hfr⟩ | ⟨a, hk⟩
    · exact intact_of_same h ht hbk hfr
    · rcases hki with hnk | hi
      · exact absurd hk.killed hnk
      · exact intact_of_idle hk h hb hp hf hi
  · intro happ hkept
    have hfast : Fast s ms := by
      by_contra hnf
      obtain ⟨E, fuel, s', hs', ht, hbk, hmem⟩ := exists_frees_root h hnf
      have := (hkept E fuel s' hs').blocks _ hmem
      rw [ht] at this
      exact this (.refl _)
    refine ⟨hfast, or_iff_not_imp_left.2 fun hk k v hv => ?_⟩
    rw [not_not] at hk
    obtain ⟨b, hb, hp, hf⟩ := hfast
    obtain ⟨a, ha⟩ := h.room
    obtain ⟨E, fuel, s', hs', hka⟩ := exists_killedAt hb hp hf hk ha
    obtain ⟨v', hv'⟩ := happ k v hv
    have hl := (hkept E fuel s' hs').lookups k
    rw [hka.btlookup h hb hp hf happ hv hv', h.btlookup hv, Option.some.injEq] at hl
    have hinj : Function.Injective (Option.map fun x : Bytes => (k, x)) :=
      Option.map_injective fun a b hab => (Prod.mk.inj hab).2
    rw [hv', hinj hl]

end Kept

section Small

/-- Where no data key has a value, no data block is mapped. -/
theorem not_maps {s : St} {n : ℕ} {T : Beps n} (ht : s.tree.ht.toInt = n + 1)
    (hin : Server.TreeIn s.get n T s.tree.bp) (ho : Ordered n T none none) (hs : Sized n T)
    (ha : ∀ k, ∃ v, serverGet gefsKvmax n T k = some v)
    (hk : ∀ k v, serverGet gefsKvmax n T k = some (some v) → k.head? ≠ some kdat) (a : Int64) :
    ¬ Maps s a := by
  rintro ⟨k, kv, bp, hl, hd, -, -⟩
  obtain ⟨v, hv⟩ := ha k
  rw [btlookup_tree ht hin ho (fun _ hw => hs.leafVal hw) hv] at hl
  obtain ⟨w, rfl, rfl⟩ := Option.map_eq_some_iff.1 (Option.some.inj hl)
  exact hk k w hv hd

/-- A leaf with one entry. -/
def smallLeaf : Node := ⟨⟨16384, 0, 0⟩, false, [([1], [7])], []⟩

/-- A pivot over it. -/
def smallRoot : Node := ⟨⟨32768, 0, 0⟩, true, [([1], entPtr)], []⟩

def smallBlks (a : Int64) : Option Node :=
  if a = 16384 then some smallLeaf else if a = 32768 then some smallRoot else none

def smallSt (ht : Int32) (root : Int64) : St where
  blks := smallBlks
  live a := (smallBlks a).isSome
  tree := ⟨{ zeroTree with ht := ht, bp := ⟨root, 0, 0⟩ }, 0, false⟩
  freed := []
  calls := 0

theorem fits_smallLeaf : smallLeaf.Fits := by
  constructor <;> decide

theorem fits_smallRoot : smallRoot.Fits := by
  constructor <;> decide

theorem fits_smallBlks {a : Int64} {b : Node} (h : smallBlks a = some b) : b.Fits := by
  unfold smallBlks at h
  split_ifs at h
  · exact Option.some.inj h ▸ fits_smallLeaf
  · exact Option.some.inj h ▸ fits_smallRoot

def smallEs : List GefsKvp := [([1], [7])]

/-- The tree with the pivot at its root. -/
def smallTree : Beps 1 := ([(([1], entPtr), smallEs)], [])

theorem leafIn_small (ht : Int32) (root : Int64) :
    Server.TreeIn (smallSt ht root).get 0 smallEs ⟨16384, 0, 0⟩ :=
  ⟨smallLeaf.content, rfl, isLeaf_content fits_smallLeaf rfl⟩

theorem look_smallEs {k v : Bytes} (h : look smallEs k = some v) : k.head? ≠ some kdat := by
  obtain rfl : k = [1] := by
    have := mem_of_look h
    simp only [smallEs, List.mem_singleton, Prod.mk.injEq] at this
    exact this.1
  decide

theorem ordered_smallEs {lo hi : Option Bytes} (hr : InRange lo hi [1]) :
    Ordered 0 smallEs lo hi :=
  ⟨List.pairwise_singleton _ _, fun e he => by
    obtain rfl := List.mem_singleton.1 he
    exact hr⟩

theorem sized_smallEs : Sized 0 smallEs := by
  intro e he
  obtain rfl := List.mem_singleton.1 he
  decide

theorem wellFormed_leaf : WellFormed (smallSt 1 16384) 0 smallEs := by
  have ho : Ordered 0 smallEs none none := ordered_smallEs (by simp [InRange])
  have ha : ∀ k, ∃ v, serverGet gefsKvmax 0 smallEs k = some v := fun k => ⟨_, rfl⟩
  refine ⟨by decide, leafIn_small _ _, ho, sized_smallEs, trivial, ha,
    fun _ _ => fits_smallBlks, fun a b h => by simp [smallSt, show smallBlks a = some b from h],
    ⟨0, by decide⟩, fun a hm => ?_, rfl⟩
  refine absurd hm (not_maps (n := 0) (T := smallEs) (by decide) (leafIn_small _ _) ho sized_smallEs ha
    (fun k v hv => look_smallEs (v := v) ?_) a)
  exact Option.some.inj hv

theorem wellFormed_pivot : WellFormed (smallSt 2 32768) 1 smallTree := by
  have hin : Server.TreeIn (smallSt 2 32768).get 1 smallTree (smallSt 2 32768).tree.bp := by
    refine ⟨⟨smallRoot.content, rfl, isPivot_content fits_smallRoot rfl⟩, fun c hc => ?_⟩
    obtain rfl := List.mem_singleton.1 hc
    exact ⟨_, valBptr_entPtr, leafIn_small _ _⟩
  have ho : Ordered 1 smallTree none none := by
    refine ⟨List.pairwise_singleton _ _, by simp [InRange], .nil, by simp, fun j c hj => ?_⟩
    obtain ⟨hj', rfl⟩ := List.getElem?_eq_some_iff.1 hj
    obtain rfl : j = 0 := by simpa using hj'
    exact ordered_smallEs (by simp [InRange, rightOf])
  have hs : Sized 1 smallTree := by
    refine ⟨fun e he => ?_, fun c hc => ?_⟩
    · obtain rfl := List.mem_singleton.1 he
      decide
    · obtain rfl := List.mem_singleton.1 hc
      exact sized_smallEs
  have hm : ∀ k, msgsOn 1 smallTree k = [] := by
    intro k
    simp only [smallTree, msgsOn, List.filter_nil, List.append_nil]
    split <;> rfl
  have hget : ∀ k, serverGet gefsKvmax 1 smallTree k = some (leafVal 1 smallTree k) := by
    intro k
    rw [serverGet, hm]
    rfl
  have hk : ∀ k v, serverGet gefsKvmax 1 smallTree k = some (some v) → k.head? ≠ some kdat := by
    intro k v hv
    rw [hget, Option.some.injEq] at hv
    simp only [leafVal, smallTree, childOf] at hv
    split_ifs at hv
    exact look_smallEs hv
  refine ⟨by decide, hin, ho, hs, ⟨by simp, fun c _ => ?_⟩, fun k => ⟨_, hget k⟩,
    fun _ _ => fits_smallBlks, fun a b h => by simp [smallSt, show smallBlks a = some b from h],
    ⟨0, by decide⟩, fun a hm' => ?_, rfl⟩
  · trivial
  · exact absurd hm' (not_maps (by decide) hin ho hs (fun k => ⟨_, hget k⟩) hk a)

/-- An insertion into the pivot's buffer. -/
def smallBatch : List GefsMsg := [⟨.oinsert, [2], [8], []⟩]

theorem errorKept_small : ErrorKept (smallSt 2 32768) smallBatch :=
  (errorKept_iff wellFormed_pivot).1 ⟨⟨smallRoot, rfl, rfl, by decide⟩, .inl (by decide)⟩

/-- The same insertion into a tree of one leaf fails where the new leaf finds no room on the disk,
and frees the old one. -/
theorem not_forall_errorKept : ¬ ∀ (s : St) (n : ℕ) (T : Beps n) (ms : List GefsMsg),
    WellFormed s n T → ErrorKept s ms := by
  intro h
  have hnf : ¬ Fast (smallSt 1 16384) smallBatch := by
    rintro ⟨b, hb, hp, -⟩
    obtain rfl := Option.some.inj (hb.symm.trans (show _ = some smallLeaf from rfl))
    cases hp
  obtain ⟨E, fuel, s', hs', ht, -, hmem⟩ := exists_frees_root wellFormed_leaf hnf
  have := (h _ 0 smallEs smallBatch wellFormed_leaf E fuel s' hs').blocks _ hmem
  rw [ht] at this
  exact this (.refl _)

end Small

end GefsFuse.Server.Btree
