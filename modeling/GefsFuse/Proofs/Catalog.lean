import GefsFuse.Proofs.Mount

/-!
# The snapshot catalog

An update of the catalog rewrites its leaf and holds the new one in the cache, so nothing that is
written to the disk afterwards is seen through it. A call that makes or removes a snapshot updates
the catalog once and then syncs, which enters the mounted tree under its own generation; whether
that second update finds a block is not looked at.
-/

namespace GefsFuse

open ByteMem SortedMap Calls

/-! ## One update -/

/-- The next block can be had. -/
def canAlloc (ctx : GefsCtx) : Bool :=
  match nextAlloc ctx with
  | none => false
  | some (a, _) => 0 ≤ a

theorem canAlloc_iff {ctx : GefsCtx} :
    canAlloc ctx = true ↔ ∃ a as, nextAlloc ctx = some (a, as) ∧ 0 ≤ a := by
  unfold canAlloc
  rcases nextAlloc ctx with _ | ⟨a, as⟩ <;> simp

theorem length_allocArenas : ∀ {as as' : List GefsArena} {a : Int64},
    allocArenas as = some (a, as') → as'.length = as.length
  | [], _, _, h => by simp [allocArenas] at h
  | b :: as, as', a, h => by
    unfold allocArenas at h
    split at h
    · obtain ⟨⟨a1, as1⟩, h1, h2⟩ := Option.map_eq_some_iff.1 h
      simp only [Prod.mk.injEq] at h2
      rw [← h2.2, List.length_cons, length_allocArenas h1, List.length_cons]
    · simp only [Option.some.injEq, Prod.mk.injEq] at h
      rw [← h.2, List.length_cons, List.length_cons]

theorem length_nextAlloc {ctx : GefsCtx} {a : Int64} {as : List GefsArena}
    (h : nextAlloc ctx = some (a, as)) : as.length = ctx.arenas.length := by
  unfold nextAlloc at h
  split_ifs at h
  exact length_allocArenas h

theorem nextAlloc_of_narena {ctx ctx' : GefsCtx} (h1 : ctx'.readonly = ctx.readonly)
    (h2 : ctx'.sb.narena = ctx.sb.narena) (h3 : ctx'.arenas = ctx.arenas) :
    nextAlloc ctx' = nextAlloc ctx := by
  unfold nextAlloc
  rw [h1, h2, h3]

/-- What the updates of the catalog leave as it is. -/
structure CatKeeps (ctx ctx' : GefsCtx) : Prop where
  ok : CtxOk ctx'
  active : ctx'.activeTree = ctx.activeTree
  gen : ctx'.snapTree.gen = ctx.snapTree.gen
  nextgen : ctx'.sb.nextgen = ctx.sb.nextgen
  narena : ctx'.sb.narena = ctx.sb.narena
  readonly : ctx'.readonly = ctx.readonly
  arenas : ctx'.arenas.length = ctx.arenas.length

theorem CatKeeps.trans {ctx ctx' ctx'' : GefsCtx} (h : CatKeeps ctx ctx') (h' : CatKeeps ctx' ctx'') :
    CatKeeps ctx ctx'' :=
  ⟨h'.ok, h'.active.trans h.active, h'.gen.trans h.gen, h'.nextgen.trans h.nextgen,
    h'.narena.trans h.narena, h'.readonly.trans h.readonly, h'.arenas.trans h.arenas⟩

/-- The catalog is a leaf with the entries `es`, held in the cache. -/
structure CatPinned (ctx : GefsCtx) (es : List GefsKvp) : Prop where
  ht : ctx.snapTree.ht = 1
  root : Pinned ctx ctx.snapTree.bp.addr (IsLeaf es)
  asc : Ascending es
  small : Small es

theorem CatPinned.treeHolds {ctx : GefsCtx} {es : List GefsKvp} (h : CatPinned ctx es) :
    TreeHolds ctx ctx.snapTree es :=
  ⟨h.ht, .inl h.root, h.asc, h.small⟩

theorem small_merged {es : List GefsKvp} {ms : List GefsMsg} (hs : Small es)
    (hm : ∀ m ∈ ms, m.op = .oinsert → m.k.length + m.v.length ≤ gefsKvmax) :
    Small (merged es ms) := by
  intro kv hkv
  rcases mem_mergeUpd hkv with h | ⟨m, h, hk, hv⟩
  · exact hs kv h
  · unfold GefsMsg.eff at hv
    split_ifs at hv with hop
    have h1 := hm m (mem_bubbleSort.1 h) hop
    rw [hk] at h1
    rw [Option.some.inj hv] at h1
    exact h1

theorem ascending_merged {es : List GefsKvp} {ms : List GefsMsg} (hs : Ascending es)
    (hm : OneEach GefsMsg.k GefsMsg.eff ms) : Ascending (merged es ms) :=
  ascending_mergeUpd hs (batch_bubbleSort hm)

theorem look_merged {es : List GefsKvp} {ms : List GefsMsg} (hs : Ascending es)
    (hm : OneEach GefsMsg.k GefsMsg.eff ms) (k : Bytes) :
    look (merged es ms) k = applyAll GefsMsg.k GefsMsg.eff (look es) ms k :=
  look_mergeUpd_bubbleSort hs hm k

/-- The room an entry takes in a leaf, its offset with it. -/
def room (es : List GefsKvp) : ℕ := (es.map fun kv => 2 + kvSize kv).sum

theorem fits_iff_room {es : List GefsKvp} : Fits es ↔ room es ≤ gefsLeafspc := by
  have h : ∀ es : List GefsKvp, room es = 2 * es.length + valsSize es := by
    intro es
    induction es with
    | nil => rfl
    | cons e es ih =>
      rw [room, List.map_cons, List.sum_cons, ← room, ih, List.length_cons, valsSize_cons]
      omega
  rw [Fits, h]

theorem room_merged_le (es : List GefsKvp) (ms : List GefsMsg) :
    room (merged es ms) ≤ room es + room (ms.flatMap (putOf GefsMsg.k GefsMsg.eff)) := by
  have h := @sum_mergeUpd_le _ _ _ _ GefsMsg.k GefsMsg.eff (fun kv => 2 + kvSize kv) es
    (bubbleSort GefsMsg.k ms)
  have hp : ((bubbleSort GefsMsg.k ms).flatMap (putOf GefsMsg.k GefsMsg.eff)).Perm
      (ms.flatMap (putOf GefsMsg.k GefsMsg.eff)) := (perm_bubbleSort ms).flatMap_right _
  rw [(hp.map fun kv => 2 + kvSize kv).sum_eq] at h
  exact h

/-- A batch that the catalog can take. -/
structure CatBatch (ms : List GefsMsg) : Prop where
  plain : Plain ms
  ne : ms ≠ []
  one : OneEach GefsMsg.k GefsMsg.eff ms
  small : ∀ m ∈ ms, m.op = .oinsert → m.k.length + m.v.length ≤ gefsKvmax

/-- An update of the catalog: refused without a block, and else the merge. -/
theorem step_btupsert_snap {ctx : GefsCtx} {es : List GefsKvp} {ms : List GefsMsg} (hok : CtxOk ctx)
    (hh : TreeHolds ctx ctx.snapTree es) (hg : ctx.snapTree.gen ≠ ctx.activeTree.gen)
    (hb : CatBatch ms) (hro : ctx.readonly = false) (hf : Fits (merged es ms)) :
    ∃ ctx', CatKeeps ctx ctx'
      ∧ ((canAlloc ctx = false ∧ sysStep (.btupsert .snap ms) ctx = some (.error .enospc, ctx')
          ∧ ctx'.snapTree = ctx.snapTree ∧ (CatPinned ctx es → CatPinned ctx' es)
          ∧ (ctx.dirty = true → ctx'.dirty = true))
        ∨ (canAlloc ctx = true ∧ sysStep (.btupsert .snap ms) ctx = some (.ok (), ctx')
          ∧ (∃ a, nextAlloc ctx = some (a, ctx'.arenas)) ∧ ctx'.dirty = true
          ∧ CatPinned ctx' (merged es ms))) := by
  rcases gefsBtupsert_leaf (t := .snap) hok hh.root hb.plain hb.ne hro hf with
    ⟨hn, ctx', hk, he⟩ | ⟨a, as, ctx', hn, ha, hk, he⟩ | ⟨bp, ctx', hu, he⟩
  · refine ⟨ctx', ⟨hk.ok, hk.activeTree, by rw [hk.snapTree], by rw [hk.sb], by rw [hk.sb],
      hk.readonly, by rw [hk.arenas]⟩, .inl ⟨?_, he, hk.snapTree, fun hp => ?_, fun hd => ?_⟩⟩
    · rw [canAlloc, hn]
    · refine ⟨by rw [hk.snapTree, hp.ht], ?_, hp.asc, hp.small⟩
      rw [hk.snapTree]
      exact hk.pinned _ _ hp.root
    · rw [hk.dirty, hd]
  · refine ⟨{ ctx' with arenas := as, dirty := true }, ⟨hk.ok, hk.activeTree,
      congrArg GefsTree.gen hk.snapTree, congrArg GefsSuper.nextgen hk.sb,
      congrArg GefsSuper.narena hk.sb, hk.readonly, length_nextAlloc hn⟩,
      .inl ⟨?_, he, hk.snapTree, fun hp => ?_, fun _ => rfl⟩⟩
    · rw [canAlloc, hn]
      exact decide_eq_false (Int64.not_le.2 ha)
    · have hp' : Pinned ctx' ctx'.snapTree.bp.addr (IsLeaf es) := by
        rw [hk.snapTree]
        exact hk.pinned _ _ hp.root
      exact ⟨(congrArg GefsTree.ht hk.snapTree).trans hp.ht, hp', hp.asc, hp.small⟩
  · have hset : setRoot ctx .snap bp
        = { ctx with snapTree := { ctx.snapTree with bp := bp, ht := 1 } } := by
      unfold setRoot
      exact if_neg hg
    have hsnap : ctx'.snapTree = { ctx.snapTree with bp := bp, ht := 1 } := by
      rw [hu.snap, hset]
    have hact : ctx'.activeTree = ctx.activeTree := by rw [hu.active, hset]
    refine ⟨ctx', ⟨hu.ok, hact, by rw [hsnap], by rw [hu.sb], by rw [hu.sb], hu.readonly,
      length_nextAlloc hu.alloc⟩, .inr ⟨?_, he, ⟨_, hu.alloc⟩, hu.dirty, ?_⟩⟩
    · rw [canAlloc, hu.alloc]
      refine decide_eq_true (Int64.le_iff_toInt_le.2 ?_)
      exact hu.nonneg
    · refine ⟨by rw [hsnap], ?_, ascending_merged hh.asc hb.one, small_merged hh.small hb.small⟩
      rw [hsnap]
      exact hu.root

/-! ## Sync -/

theorem run_putArenas : ∀ (n i : ℕ) (ctx : GefsCtx), i + n ≤ ctx.arenas.length →
    ∃ d bps, run sysStep (putArenas i n) ctx
      = some ((), { ctx with disk := d, sb := { ctx.sb with arenabp := bps } })
  | 0, _, ctx, _ => ⟨ctx.disk, ctx.sb.arenabp, rfl⟩
  | n + 1, i, ctx, h => by
    have hi : i < ctx.arenas.length := by omega
    have hput : ∃ d bps, sysStep (.putArena i) ctx
        = some ((), { ctx with disk := d, sb := { ctx.sb with arenabp := bps } }) := by
      simp only [sysStep, putArena, List.getElem?_eq_getElem hi, Option.map_some]
      exact ⟨_, _, rfl⟩
    obtain ⟨d, bps, hput⟩ := hput
    obtain ⟨d', bps', hrest⟩ := run_putArenas n (i + 1)
      { ctx with disk := d, sb := { ctx.sb with arenabp := bps } } (by simp only; omega)
    refine ⟨d', bps', ?_⟩
    unfold putArenas
    rw [Prog.one_bind, run_call _ hput, hrest]

/-- The update of a sync. -/
def syncBatch (t : GefsTree) : List GefsMsg := [⟨.oinsert, gefsPacksnap t.gen, packtree t, []⟩]

theorem catBatch_syncBatch (t : GefsTree) : CatBatch (syncBatch t) := by
  refine ⟨?_, by simp [syncBatch], List.pairwise_singleton _ _, ?_⟩
  · intro m hm
    obtain rfl := List.mem_singleton.1 hm
    simp
  · intro m hm _
    obtain rfl := List.mem_singleton.1 hm
    simp [gefsPacksnap, gefsKvmax, gefsKeymax, gefsInlmax]

/-- A sync enters the mounted tree in the catalog if there is a block for it. -/
theorem run_gefsSyncFs {ctx : GefsCtx} {es : List GefsKvp} (hok : CtxOk ctx) (hp : CatPinned ctx es)
    (hg : ctx.snapTree.gen ≠ ctx.activeTree.gen) (hro : ctx.readonly = false)
    (hd : ctx.dirty = true) (hlen : ctx.sb.narena.toInt.toNat ≤ ctx.arenas.length)
    (hf : Fits (merged es (syncBatch ctx.activeTree))) :
    ∃ ctx', run sysStep gefsSyncFs ctx = some ((), ctx') ∧ CatKeeps ctx ctx'
      ∧ CatPinned ctx' (if canAlloc ctx then merged es (syncBatch ctx.activeTree) else es) := by
  obtain ⟨ctx1, hk, h⟩ := step_btupsert_snap hok hp.treeHolds hg
    (catBatch_syncBatch ctx.activeTree) hro hf
  have hup : ∃ ans, sysStep (.btupsert .snap (syncBatch ctx.activeTree)) ctx = some (ans, ctx1)
      ∧ CatPinned ctx1 (if canAlloc ctx then merged es (syncBatch ctx.activeTree) else es) := by
    rcases h with ⟨hc, he, -, hpin, -⟩ | ⟨hc, he, -, -, hpin⟩
    · exact ⟨_, he, by rw [hc]; exact hpin hp⟩
    · exact ⟨_, he, by rw [hc]; exact hpin⟩
  obtain ⟨ans, hup, hpin⟩ := hup
  obtain ⟨d, bps, harenas⟩ := run_putArenas ctx1.sb.narena.toInt.toNat 0 ctx1 (by
    rw [hk.narena, hk.arenas]
    omega)
  have hpre : run sysStep gefsSyncFs ctx
      = run sysStep (do
          let n ← .one .narena
          putArenas 0 n
          .one .putSuper
          .one .putBackup
          .one .clean) ctx1 := by
    have h1 : sysStep .readonly ctx = some (false, ctx) := by simp only [sysStep, hro]
    have h2 : sysStep .dirty ctx = some (true, ctx) := by simp only [sysStep, hd]
    have h3 : sysStep (.tree .active) ctx = some (ctx.activeTree, ctx) := rfl
    unfold gefsSyncFs
    simp only [Prog.one_bind]
    rw [run_call _ h1, run_call _ h2]
    simp only [Bool.false_eq_true, not_true_eq_false, or_self, if_false]
    rw [run_call _ h3]
    exact run_call _ hup
  have hn : sysStep .narena ctx1 = some (ctx1.sb.narena.toInt.toNat, ctx1) := rfl
  have hpost : ∃ ctx', run sysStep gefsSyncFs ctx = some ((), ctx')
      ∧ ctx'.cache = ctx1.cache ∧ ctx'.nblk = ctx1.nblk ∧ ctx'.snapTree = ctx1.snapTree
      ∧ ctx'.activeTree = ctx1.activeTree ∧ ctx'.sb.nextgen = ctx1.sb.nextgen
      ∧ ctx'.sb.narena = ctx1.sb.narena ∧ ctx'.readonly = ctx1.readonly
      ∧ ctx'.arenas = ctx1.arenas := by
    rw [hpre, Prog.one_bind, run_call _ hn, run_bind, harenas]
    simp only [Option.bind_some, Prog.one]
    refine ⟨_, rfl, ?_⟩
    unfold putBackup putSuper
    split_ifs <;> exact ⟨rfl, rfl, rfl, rfl, rfl, rfl, rfl, rfl⟩
  obtain ⟨ctx', hrun, hcache, hnblk, hsnap, hact, hgen, hnar, hro', has⟩ := hpost
  refine ⟨ctx', hrun, hk.trans ⟨?_, hact, by rw [hsnap], hgen, hnar, hro', by rw [has]⟩, ?_⟩
  · show CacheOk ctx'.cache ctx'.nblk
    rw [hcache, hnblk]
    exact hk.ok
  · refine ⟨by rw [hsnap, hpin.ht], ?_, hpin.asc, hpin.small⟩
    obtain ⟨b, hb, hr, hq⟩ := hpin.root
    rw [hsnap]
    exact ⟨b, by rw [hcache, hb], hr, hq⟩

/-! ## Making and removing a snapshot -/

inductive SnapOp
  | create (name : CStr) (mutableFlag : Bool)
  | delete (name : CStr)

def SnapOp.prog : SnapOp → FsProg (Except Errno Unit)
  | create name flag => gefsCreateSnapshot name.bytes flag
  | delete name => gefsDeleteSnapshot name.bytes

def SnapOp.name : SnapOp → CStr
  | create name _ => name
  | delete name => name

/-- The record of a new snapshot of `act`. -/
def newSnap (act : GefsTree) (gen : Int64) : GefsTree :=
  { zeroTree with nlbl := 1, ht := act.ht, bp := act.bp, gen := gen, pred := act.gen, succ := -1 }

/-- The first update of the catalog that a call makes. -/
def SnapOp.batch (ctx : GefsCtx) : SnapOp → List GefsMsg
  | create name flag =>
    let gen := ctx.sb.nextgen.toInt64
    [⟨.oinsert, gefsKlabel :: name.bytes,
        packlblval gen (gefsLtsnap ||| (if flag then gefsLmut else 0)), []⟩,
      ⟨.oinsert, gefsPacksnap gen, packtree (newSnap ctx.activeTree gen), []⟩]
  | delete name => [⟨.odelete, gefsKlabel :: name.bytes, [], []⟩]

/-- The generation the next call draws. -/
def SnapOp.nextgen (ctx : GefsCtx) : SnapOp → UInt64
  | create _ _ => ctx.sb.nextgen + 1
  | delete _ => ctx.sb.nextgen

theorem lbl_ne_snap (name : Bytes) (id : Int64) : gefsKlabel :: name ≠ gefsPacksnap id := by
  intro h
  exact absurd (List.cons.inj h).1 (by decide)

theorem catBatch_batch (ctx : GefsCtx) (op : SnapOp) (hn : op.name.bytes.length < gefsKeymax) :
    CatBatch (op.batch ctx) := by
  have h256 : gefsKeymax = 256 := rfl
  cases op with
  | create name flag =>
    have hlen : name.bytes.length < gefsKeymax := hn
    refine ⟨?_, by simp [SnapOp.batch], ?_, ?_⟩
    · intro m hm
      simp only [SnapOp.batch, List.mem_cons, List.not_mem_nil, or_false] at hm
      rcases hm with rfl | rfl <;> simp
    · simp only [SnapOp.batch, OneEach, List.pairwise_cons, List.mem_singleton, forall_eq]
      exact ⟨fun h => absurd h (lbl_ne_snap _ _), by simp⟩
    · intro m hm _
      simp only [SnapOp.batch, List.mem_cons, List.not_mem_nil, or_false] at hm
      rcases hm with rfl | rfl
      · simp only [List.length_cons, length_packlblval, gefsKvmax, gefsInlmax]
        omega
      · simp [gefsPacksnap, gefsKvmax, gefsKeymax, gefsInlmax]
  | delete name =>
    refine ⟨?_, by simp [SnapOp.batch], List.pairwise_singleton _ _, ?_⟩ <;> intro m hm
    · obtain rfl := List.mem_singleton.1 hm
      simp
    · obtain rfl := List.mem_singleton.1 hm
      simp

/-- The block after the next one can be had as well. -/
def canAllocTwo (ctx : GefsCtx) : Bool :=
  match nextAlloc ctx with
  | none => false
  | some (_, as) => canAlloc { ctx with arenas := as }

/-- The end of a call: the update, and a sync if it was made. -/
def upsertSync (ms : List GefsMsg) : FsProg (Except Errno Unit) := do
  match ← .one (.btupsert .snap ms) with
  | .error e => .ret (.error e)
  | .ok _ => do
    gefsSyncFs
    .ret (.ok ())

theorem run_upsert_sync {ctx ctx' : GefsCtx} {es : List GefsKvp} {ms : List GefsMsg}
    (hok : CtxOk ctx) (hh : TreeHolds ctx ctx.snapTree es)
    (hg : ctx.snapTree.gen ≠ ctx.activeTree.gen) (hb : CatBatch ms) (hro : ctx.readonly = false)
    (hlen : ctx.sb.narena.toInt.toNat ≤ ctx.arenas.length) (hf1 : Fits (merged es ms))
    (hf2 : Fits (merged (merged es ms) (syncBatch ctx.activeTree)))
    (h : run sysStep (upsertSync ms) ctx = some (.ok (), ctx')) :
    canAlloc ctx = true ∧ CatKeeps ctx ctx'
      ∧ CatPinned ctx' (if canAllocTwo ctx then
          merged (merged es ms) (syncBatch ctx.activeTree) else merged es ms) := by
  obtain ⟨ctx1, hk1, h1⟩ := step_btupsert_snap hok hh hg hb hro hf1
  unfold upsertSync at h
  rw [Prog.one_bind] at h
  rcases h1 with ⟨-, he, -⟩ | ⟨hc, he, ⟨a, hn⟩, hd, hp⟩
  · rw [run_call _ he] at h
    simp at h
  · rw [run_call _ he] at h
    have hg1 : ctx1.snapTree.gen ≠ ctx1.activeTree.gen := by
      rw [hk1.gen, hk1.active]
      exact hg
    obtain ⟨ctx2, hr2, hk2, hp2⟩ := run_gefsSyncFs hk1.ok hp hg1 (hk1.readonly.trans hro) hd
      (by rw [hk1.narena, hk1.arenas]; exact hlen) (by rw [hk1.active]; exact hf2)
    simp only at h
    rw [run_bind, hr2] at h
    obtain rfl : ctx2 = ctx' := by simpa using h
    have hcan : canAlloc ctx1 = canAllocTwo ctx := by
      have := @nextAlloc_of_narena { ctx with arenas := ctx1.arenas } ctx1 hk1.readonly hk1.narena rfl
      rw [canAlloc, this, canAllocTwo, hn]
      rfl
    rw [hcan, hk1.active] at hp2
    exact ⟨hc, hk1.trans hk2, hp2⟩

/-- A call that succeeds, on the catalog. -/
theorem run_snapOp {ctx ctx' : GefsCtx} {es : List GefsKvp} {op : SnapOp} (hok : CtxOk ctx)
    (hh : TreeHolds ctx ctx.snapTree es) (hg : ctx.snapTree.gen ≠ ctx.activeTree.gen)
    (hlen : ctx.sb.narena.toInt.toNat ≤ ctx.arenas.length) (hf1 : Fits (merged es (op.batch ctx)))
    (hf2 : Fits (merged (merged es (op.batch ctx)) (syncBatch ctx.activeTree)))
    (h : run sysStep op.prog ctx = some (.ok (), ctx')) :
    op.name.bytes.length < gefsKeymax ∧ canAlloc ctx = true
      ∧ CatKeeps { ctx with sb := { ctx.sb with nextgen := op.nextgen ctx } } ctx'
      ∧ CatPinned ctx' (if canAllocTwo ctx then
          merged (merged es (op.batch ctx)) (syncBatch ctx.activeTree)
        else merged es (op.batch ctx)) := by
  have hstep : sysStep .readonly ctx = some (ctx.readonly, ctx) := rfl
  cases op with
  | create name flag =>
    simp only [SnapOp.prog, gefsCreateSnapshot, Prog.one_bind] at h
    rw [run_call _ hstep] at h
    rcases Bool.eq_false_or_eq_true ctx.readonly with hro | hro
    · simp [hro] at h
    · obtain ⟨ctxg, hctxg⟩ : ∃ c : GefsCtx,
          c = { ctx with sb := { ctx.sb with nextgen := ctx.sb.nextgen + 1 } } := ⟨_, rfl⟩
      have hgen : sysStep .nextgen ctx = some (ctx.sb.nextgen, ctxg) := by rw [hctxg]; rfl
      have htree : sysStep (.tree .active) ctxg = some (ctx.activeTree, ctxg) := by
        rw [hctxg]
        rfl
      simp only [hro, Bool.false_eq_true, if_false] at h
      rw [run_call _ hgen, run_call _ htree] at h
      by_cases hn : gefsKeymax < name.bytes.length + 1
      · simp [gefsPacklbl, hn] at h
      · rw [gefsPacklbl, if_neg hn] at h
        have hlt : name.bytes.length < gefsKeymax := by omega
        simp only [Prog.ofOption_some, Prog.ret_bind] at h
        obtain ⟨hc, hk, hp⟩ := @run_upsert_sync ctxg ctx' es ((SnapOp.create name flag).batch ctx)
          (by rw [hctxg]; exact hok) (by rw [hctxg]; exact ⟨hh.ht, hh.root, hh.asc, hh.small⟩)
          (by rw [hctxg]; exact hg) (catBatch_batch ctx _ hlt) (by rw [hctxg]; exact hro)
          (by rw [hctxg]; exact hlen) hf1 (by rw [hctxg]; exact hf2) h
        subst hctxg
        exact ⟨hlt, hc, hk, hp⟩
  | delete name =>
    simp only [SnapOp.prog, gefsDeleteSnapshot, Prog.one_bind] at h
    rw [run_call _ hstep] at h
    rcases Bool.eq_false_or_eq_true ctx.readonly with hro | hro
    · simp [hro] at h
    · simp only [hro, Bool.false_eq_true, if_false] at h
      split_ifs at h with hprot
      · simp at h
      · by_cases hn : gefsKeymax < name.bytes.length + 1
        · simp [gefsPacklbl, hn] at h
        · rw [gefsPacklbl, if_neg hn] at h
          have hlt : name.bytes.length < gefsKeymax := by omega
          simp only [Prog.ofOption_some, Prog.ret_bind] at h
          obtain ⟨hc, hk, hp⟩ := @run_upsert_sync ctx ctx' es ((SnapOp.delete name).batch ctx)
            hok hh hg (catBatch_batch ctx _ hlt) hro hlen hf1 hf2 h
          exact ⟨hlt, hc, hk, hp⟩

/-- A snapshot is made where there is a block for it. -/
theorem run_create_ok {ctx : GefsCtx} {es : List GefsKvp} {name : CStr} {flag : Bool}
    (hok : CtxOk ctx) (hh : TreeHolds ctx ctx.snapTree es)
    (hg : ctx.snapTree.gen ≠ ctx.activeTree.gen) (hro : ctx.readonly = false)
    (hlen : ctx.sb.narena.toInt.toNat ≤ ctx.arenas.length)
    (hn : name.bytes.length < gefsKeymax)
    (hf1 : Fits (merged es ((SnapOp.create name flag).batch ctx)))
    (hf2 : Fits (merged (merged es ((SnapOp.create name flag).batch ctx))
      (syncBatch ctx.activeTree))) (hc : canAlloc ctx = true) :
    ∃ ctx', run sysStep (SnapOp.create name flag).prog ctx = some (.ok (), ctx') := by
  obtain ⟨ctxg, hctxg⟩ : ∃ c : GefsCtx,
      c = { ctx with sb := { ctx.sb with nextgen := ctx.sb.nextgen + 1 } } := ⟨_, rfl⟩
  have hgen : sysStep .nextgen ctx = some (ctx.sb.nextgen, ctxg) := by rw [hctxg]; rfl
  have htree : sysStep (.tree .active) ctxg = some (ctx.activeTree, ctxg) := by rw [hctxg]; rfl
  have hstep : sysStep .readonly ctx = some (false, ctx) := by simp only [sysStep, hro]
  have hpack : gefsPacklbl gefsKeymax name.bytes = some (gefsKlabel :: name.bytes) := by
    rw [gefsPacklbl, if_neg (by omega)]
  have hcg : canAlloc ctxg = canAlloc ctx := by
    unfold canAlloc
    rw [@nextAlloc_of_narena ctx ctxg (by rw [hctxg]) (by rw [hctxg]) (by rw [hctxg])]
  obtain ⟨ctx1, hk1, h1⟩ := @step_btupsert_snap ctxg es
    ((SnapOp.create name flag).batch ctx) (by rw [hctxg]; exact hok)
    (by rw [hctxg]; exact ⟨hh.ht, hh.root, hh.asc, hh.small⟩) (by rw [hctxg]; exact hg)
    (catBatch_batch ctx _ hn) (by rw [hctxg]; exact hro) hf1
  rcases h1 with ⟨hc', -⟩ | ⟨-, he, -, hd, hp⟩
  · rw [hcg, hc] at hc'
    exact absurd hc' (by decide)
  · have hact1 : ctx1.activeTree = ctx.activeTree := by rw [hk1.active, hctxg]
    obtain ⟨ctx2, hr2, -, -⟩ := run_gefsSyncFs hk1.ok hp
      (by rw [hk1.gen, hact1, hctxg]; exact hg) (by rw [hk1.readonly, hctxg]; exact hro) hd
      (by rw [hk1.narena, hk1.arenas, hctxg]; exact hlen) (by rw [hact1]; exact hf2)
    refine ⟨ctx2, ?_⟩
    simp only [SnapOp.prog, gefsCreateSnapshot, Prog.one_bind]
    rw [run_call _ hstep]
    simp only [Bool.false_eq_true, if_false]
    rw [run_call _ hgen, run_call _ htree]
    simp only [hpack, Prog.ofOption_some, Prog.ret_bind]
    refine (run_call _ he).trans ?_
    simp only
    rw [run_bind, hr2]
    rfl

end GefsFuse
