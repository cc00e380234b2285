import GefsFuse.Proofs.Tree
import GefsFuse.Sys

/-!
# What an update leaves

`gefs_btupsert` on a tree of one leaf builds the merge of the old entries and the batch. As long as
the merge fits a leaf, the new root is held with it, the bytes on the disk are its bytes, and every
block the new one does not overlap reads as before (`Upserted`). A data block written by
`gefs_write_file` is kept in the same way (`Datted`).
-/

namespace GefsFuse

open ByteMem SortedMap

/-! ## Allocation -/

/-- The address the next allocation hands out, and the arenas after it. -/
def nextAlloc (ctx : GefsCtx) : Option (Int64 × List GefsArena) :=
  if ctx.readonly ∨ ctx.sb.narena ≤ 0 then none else allocArenas ctx.arenas

theorem gefsAllocBlk_eq (ctx : GefsCtx) :
    gefsAllocBlk ctx = match nextAlloc ctx with
      | none => (-1, ctx)
      | some (a, as) => (a, { ctx with arenas := as, dirty := true }) := by
  unfold gefsAllocBlk nextAlloc
  split_ifs
  · rfl
  · rcases allocArenas ctx.arenas with _ | ⟨a, as⟩ <;> rfl

theorem nextAlloc_congr {ctx ctx' : GefsCtx} (h1 : ctx'.readonly = ctx.readonly)
    (h2 : ctx'.sb = ctx.sb) (h3 : ctx'.arenas = ctx.arenas) : nextAlloc ctx' = nextAlloc ctx := by
  unfold nextAlloc
  rw [h1, h2, h3]

theorem Keeps.nextAlloc {ctx ctx' : GefsCtx} (h : Keeps ctx ctx') :
    nextAlloc ctx' = nextAlloc ctx :=
  nextAlloc_congr h.readonly h.sb h.arenas

theorem int64_nonneg {a : Int64} (h : ¬ a < 0) : 0 ≤ a.toInt := by
  rw [Int64.lt_iff_toInt_lt] at h
  simpa using h

/-! ## The merge -/

/-- What a message leaves under its key. -/
def GefsMsg.eff (m : GefsMsg) : Option Bytes := if m.op = .oinsert then some m.v else none

/-- The entries after the batch `ms`. -/
def merged (es : List GefsKvp) (ms : List GefsMsg) : List GefsKvp :=
  mergeUpd GefsMsg.k GefsMsg.eff es (bubbleSort GefsMsg.k ms)

/-- No message is a wstat: the port sends none. -/
def Plain (ms : List GefsMsg) : Prop := ∀ m ∈ ms, m.op ≠ .owstat

/-- What a message leaves of the entry it meets. -/
def meetMsg (e : GefsKvp) (m : GefsMsg) : Option (List GefsKvp) :=
  if m.op = .oinsert then some [(m.k, m.v)]
  else if m.op = .owstat then ((gefsCpkvp e gefsInlmax).bind (statupdate · m)).map fun kv => [kv]
  else some []

/-- The entries the merge of old entries and a sorted batch appends, in order. -/
def mergeVals : List GefsKvp → List GefsMsg → Option (List GefsKvp)
  | es, [] => some es
  | [], m :: ms => (mergeVals [] ms).map (putOf GefsMsg.k GefsMsg.eff m ++ ·)
  | e :: es, m :: ms =>
    if e.1 < m.k then (mergeVals es (m :: ms)).map (e :: ·)
    else if e.1 = m.k then do
      let l ← meetMsg e m
      let l' ← mergeVals es ms
      some (l ++ l')
    else (mergeVals (e :: es) ms).map (putOf GefsMsg.k GefsMsg.eff m ++ ·)
  termination_by es ms => es.length + ms.length

theorem putOf_foldlM (m : GefsMsg) (es : List GefsKvp) (b : GefsBlk) :
    (putOf GefsMsg.k GefsMsg.eff m ++ es).foldlM blkSetval b
      = (insertMsg b m).bind fun b => es.foldlM blkSetval b := by
  unfold putOf insertMsg GefsMsg.eff
  split_ifs
  · simp [List.foldlM_cons]
  · simp

/-- Two computations that can both fail, in either order. -/
theorem bind_comm_map {α β γ : Type} (x : Option α) (y : Option β) (f : α → β → Option γ) :
    (x.bind fun a => y.bind fun b => f a b) = y.bind fun b => x.bind fun a => f a b := by
  cases x <;> cases y <;> rfl

theorem mergeInto_eq_mergeVals (es : List GefsKvp) (ms : List GefsMsg) (b : GefsBlk) :
    mergeInto es ms b = (mergeVals es ms).bind fun l => l.foldlM blkSetval b := by
  induction es, ms, b using mergeInto.induct with
  | case1 b => simp [mergeInto, mergeVals]
  | case2 e es b ih =>
    rw [mergeInto, mergeVals, Option.bind_some, List.foldlM_cons]
    congr 1
    funext b'
    rw [ih b']
    simp [mergeVals]
  | case3 m ms b ih =>
    rw [mergeInto, mergeVals, Option.bind_map]
    simp only [Function.comp_def, putOf_foldlM, Option.bind_eq_bind]
    rw [bind_comm_map]
    congr 1
    funext b'
    exact ih b'
  | case4 e es m ms b cmp hc ih =>
    have hlt : e.1 < m.k := gefsKeycmp_neg.1 hc
    rw [mergeInto, mergeVals, if_pos hc, if_pos hlt, Option.bind_map]
    simp only [Function.comp_def, List.foldlM_cons, Option.bind_eq_bind]
    rw [bind_comm_map]
    congr 1
    funext b'
    exact ih b'
  | case5 e es m ms b cmp hc h0 hop ih =>
    have hlt : ¬ e.1 < m.k := fun h => hc (gefsKeycmp_neg.2 h)
    have he : e.1 = m.k := gefsKeycmp_eq_zero.1 h0
    rw [mergeInto, mergeVals, if_neg hc, if_pos h0, if_neg hlt, if_pos he]
    simp only [meetMsg, if_pos hop, Option.bind_eq_bind, Option.bind_some]
    rw [Option.bind_assoc]
    simp only [Option.bind_some, List.cons_append, List.nil_append, List.foldlM_cons,
      Option.bind_eq_bind]
    rw [bind_comm_map]
    congr 1
    funext b'
    exact ih b'
  | case6 e es m ms b cmp hc h0 hop hw ih =>
    have hlt : ¬ e.1 < m.k := fun h => hc (gefsKeycmp_neg.2 h)
    have he : e.1 = m.k := gefsKeycmp_eq_zero.1 h0
    rw [mergeInto, mergeVals, if_neg hc, if_pos h0, if_neg hlt, if_pos he]
    simp only [meetMsg, if_neg hop, if_pos hw, Option.bind_eq_bind]
    rcases hkv : (gefsCpkvp e gefsInlmax).bind (statupdate · m) with _ | kv
    · simp only [Option.map_none, Option.bind_none]
      rcases hc' : gefsCpkvp e gefsInlmax with _ | kv
      · rfl
      · rw [hc', Option.bind_some] at hkv
        simp only [Option.bind_some]
        rw [hkv, Option.bind_none]
    · obtain ⟨kv', h1, h2⟩ := Option.bind_eq_some_iff.1 hkv
      simp only [h1, Option.bind_some, Option.map_some]
      rw [h2, Option.bind_some, Option.bind_assoc]
      simp only [Option.bind_some, List.cons_append, List.nil_append, List.foldlM_cons,
        Option.bind_eq_bind]
      rw [bind_comm_map]
      congr 1
      funext b'
      exact ih b'
  | case7 e es m ms b cmp hc h0 hop hw ih =>
    have hlt : ¬ e.1 < m.k := fun h => hc (gefsKeycmp_neg.2 h)
    have he : e.1 = m.k := gefsKeycmp_eq_zero.1 h0
    rw [mergeInto, mergeVals, if_neg hc, if_pos h0, if_neg hlt, if_pos he]
    simp only [meetMsg, if_neg hop, if_neg hw, Option.bind_eq_bind, Option.bind_some,
      List.nil_append, Option.bind_fun_some]
    exact ih b
  | case8 e es m ms b cmp hc h0 ih =>
    have hlt : ¬ e.1 < m.k := fun h => hc (gefsKeycmp_neg.2 h)
    have he : ¬ e.1 = m.k := fun h => h0 (gefsKeycmp_eq_zero.2 h)
    rw [mergeInto, mergeVals, if_neg hc, if_neg h0, if_neg hlt, if_neg he, Option.bind_map]
    simp only [Function.comp_def, putOf_foldlM, Option.bind_eq_bind]
    rw [bind_comm_map]
    congr 1
    funext b'
    exact ih b'

/-- Without a wstat the merge cannot fail. -/
theorem mergeVals_plain {es : List GefsKvp} {ms : List GefsMsg} (hp : Plain ms) :
    mergeVals es ms = some (mergeUpd GefsMsg.k GefsMsg.eff es ms) := by
  induction es, ms using mergeVals.induct with
  | case1 es => rw [mergeVals]; cases es <;> simp [mergeUpd]
  | case2 m ms ih =>
    rw [mergeVals, ih fun x hx => hp x (List.mem_cons_of_mem _ hx), mergeUpd, Option.map_some]
  | case3 e es m ms h ih => rw [mergeVals, if_pos h, ih hp, mergeUpd, if_pos h, Option.map_some]
  | case4 e es m ms h he ih =>
    have hm : meetMsg e m = some (putOf GefsMsg.k GefsMsg.eff m) := by
      unfold meetMsg putOf GefsMsg.eff
      rw [if_neg (hp m List.mem_cons_self)]
      split_ifs <;> rfl
    rw [mergeVals, if_neg h, if_pos he, hm, ih fun x hx => hp x (List.mem_cons_of_mem _ hx),
      mergeUpd, if_neg h, if_pos he]
    rfl
  | case5 e es m ms h he ih =>
    rw [mergeVals, if_neg h, if_neg he, ih fun x hx => hp x (List.mem_cons_of_mem _ hx), mergeUpd,
      if_neg h, if_neg he, Option.map_some]

theorem plain_bubbleSort {ms : List GefsMsg} (hp : Plain ms) : Plain (bubbleSort GefsMsg.k ms) :=
  fun m hm => hp m (mem_bubbleSort.1 hm)

theorem mergeVals_merged {ms : List GefsMsg} (es : List GefsKvp) (hp : Plain ms) :
    mergeVals es (bubbleSort GefsMsg.k ms) = some (merged es ms) :=
  mergeVals_plain (plain_bubbleSort hp)

/-- A merge that fits is what the new leaf holds. -/
theorem mergeInto_newLeaf {es l : List GefsKvp} {ms : List GefsMsg}
    (hl : mergeVals es ms = some l) (hf : Fits l) (ctx : GefsCtx) (addr gen : Int64) :
    ∃ b, mergeInto es ms (newLeaf ctx addr gen) = some b ∧ Filled l b
      ∧ b.bp = ⟨addr, 0, gen⟩ ∧ b.id = ctx.nblk := by
  have h0 : Filled [] (newLeaf ctx addr gen) := filled_nil rfl rfl rfl rfl
  obtain ⟨b, h1, h2, h3, h4, -⟩ := foldlM_blkSetval_filled l h0 hf
  refine ⟨b, ?_, h2, h3, h4⟩
  rw [mergeInto_eq_mergeVals, hl, Option.bind_some, h1]

/-! ## The update -/

theorem getblk_id_lt {ctx ctx1 : GefsCtx} {bp : GefsBptr} {b : GefsBlk} (hok : CtxOk ctx)
    (h : gefsGetblk ctx bp = (some b, ctx1)) : b.id < ctx1.nblk := by
  unfold gefsGetblk at h
  rcases hf : ctx.cache.find bp.addr with _ | b' <;> rw [hf] at h
  · rcases hp : ctx.disk.pread bp.addr with _ | m <;> rw [hp] at h
    · simp at h
    · simp only [Prod.mk.injEq, Option.some.injEq] at h
      rw [← h.1, ← h.2]
      exact Nat.lt_succ_self _
  · simp only [Prod.mk.injEq, Option.some.injEq] at h
    rw [← h.1, ← h.2]
    exact hok.lt b' (List.mem_of_find?_eq_some hf)

/-- A filling keeps what is not the leaf's contents. -/
theorem blkSetval_frame {b b' : GefsBlk} {kv : GefsKvp} (h : blkSetval b kv = some b') :
    b'.id = b.id ∧ b'.bp = b.bp ∧ b'.type = b.type := by
  unfold blkSetval at h
  simp only [Option.ite_none_right_eq_some, Option.some.injEq] at h
  rw [← h.2]
  exact ⟨rfl, rfl, rfl⟩

theorem foldlM_blkSetval_frame {es : List GefsKvp} {b b' : GefsBlk}
    (h : es.foldlM blkSetval b = some b') : b'.id = b.id ∧ b'.bp = b.bp ∧ b'.type = b.type := by
  induction es generalizing b with
  | nil =>
    obtain rfl : b = b' := by simpa using h
    exact ⟨rfl, rfl, rfl⟩
  | cons kv es ih =>
    rw [List.foldlM_cons] at h
    obtain ⟨b1, h1, h2⟩ := Option.bind_eq_some_iff.1 h
    obtain ⟨e1, e2, e3⟩ := ih h2
    obtain ⟨e4, e5, e6⟩ := blkSetval_frame h1
    exact ⟨e1.trans e4, e2.trans e5, e3.trans e6⟩

/-- The update once the root has been read and dropped. -/
def upsertRead (ctx : GefsCtx) (t : TreeRef) (es : List GefsKvp) (ms : List GefsMsg) :
    Option (Except Errno Unit × GefsCtx) :=
  match gefsAllocBlk ctx with
  | (addr, ctx) =>
    if addr < 0 then some (.error .enospc, ctx)
    else do
      let b ← mergeInto es (bubbleSort GefsMsg.k ms) (newLeaf ctx addr (ctx.tree t).gen)
      let b := blkFinalize b
      some (.ok (), { writeBlk (setRoot ctx t b.bp) b with dirty := true })

theorem setRoot_eq (ctx : GefsCtx) (t : TreeRef) (bp : GefsBptr) :
    setRoot ctx t bp = { ctx with
      activeTree := (setRoot ctx t bp).activeTree
      snapTree := (setRoot ctx t bp).snapTree } := by
  unfold setRoot
  by_cases h : (ctx.tree t).gen = ctx.activeTree.gen
  · rw [if_pos h]
    cases t <;> rfl
  · rw [if_neg h]
    cases t <;> rfl

/-- The new trees come from the old ones. -/
theorem setRoot_congr {ctx ctx' : GefsCtx} (h1 : ctx'.activeTree = ctx.activeTree)
    (h2 : ctx'.snapTree = ctx.snapTree) (t : TreeRef) (bp : GefsBptr) :
    (setRoot ctx' t bp).activeTree = (setRoot ctx t bp).activeTree
      ∧ (setRoot ctx' t bp).snapTree = (setRoot ctx t bp).snapTree := by
  have h3 : ctx'.tree t = ctx.tree t := by
    cases t
    · exact h1
    · exact h2
  unfold setRoot
  rw [h3, h1, h2]
  by_cases h : (ctx.tree t).gen = ctx.activeTree.gen
  · rw [if_pos h, if_pos h]
    cases t <;> exact ⟨rfl, rfl⟩
  · rw [if_neg h, if_neg h]
    cases t <;> exact ⟨rfl, rfl⟩

theorem gefsDropblk_setRoot (ctx : GefsCtx) (t : TreeRef) (bp : GefsBptr) (root : GefsBlk) :
    gefsDropblk (setRoot ctx t bp) root = setRoot (gefsDropblk ctx root) t bp := by
  obtain ⟨h1, h2⟩ := @setRoot_congr ctx (gefsDropblk ctx root) rfl rfl t bp
  rw [setRoot_eq ctx, setRoot_eq (gefsDropblk ctx root), h1, h2]
  rfl

theorem gefsDropblk_writeBlk {ctx : GefsCtx} {b root : GefsBlk} (h : b.id ≠ root.id) :
    gefsDropblk (writeBlk ctx b) root = writeBlk (gefsDropblk ctx root) b := by
  simp only [gefsDropblk, writeBlk, GefsCache.setRef, GefsCache.insert, List.map_cons, if_neg h]

theorem blkFinalize_id (b : GefsBlk) : (blkFinalize b).id = b.id := by
  unfold blkFinalize
  dsimp only
  split_ifs <;> rfl

/-- An update drops the root it read; it might as well have dropped it at once. -/
theorem gefsBtupsert_eq {ctx : GefsCtx} (hok : CtxOk ctx) (t : TreeRef) {ms : List GefsMsg}
    (hro : ctx.readonly = false) (hms : ms ≠ []) :
    gefsBtupsert ctx t ms = match touchBlk ctx (ctx.tree t).bp with
      | (none, ctx) => some (.error .eio, ctx)
      | (some root, ctx) => upsertRead ctx t (blkVals root.toContent) ms := by
  unfold gefsBtupsert
  rw [if_neg (by simp [hro, hms])]
  unfold touchBlk
  rcases hg : gefsGetblk ctx (ctx.tree t).bp with ⟨_ | root, ctx1⟩
  · rfl
  · have hid := getblk_id_lt hok hg
    have ha : gefsAllocBlk (gefsDropblk ctx1 root)
        = ((gefsAllocBlk ctx1).1, gefsDropblk (gefsAllocBlk ctx1).2 root) := by
      rw [gefsAllocBlk_eq, gefsAllocBlk_eq,
        @nextAlloc_congr ctx1 (gefsDropblk ctx1 root) rfl rfl rfl]
      rcases nextAlloc ctx1 with _ | ⟨a, as⟩ <;> rfl
    have hn : (gefsAllocBlk ctx1).2.nblk = ctx1.nblk := by
      rw [gefsAllocBlk_eq]
      rcases nextAlloc ctx1 with _ | ⟨a, as⟩ <;> rfl
    dsimp only
    rw [upsertRead, ha]
    rcases hal : gefsAllocBlk ctx1 with ⟨addr, ctx2⟩
    rw [hal] at hn
    dsimp only
    split_ifs with hneg
    · rfl
    · have hl : newLeaf (gefsDropblk ctx2 root) addr ((gefsDropblk ctx2 root).tree t).gen
          = newLeaf ctx2 addr (ctx2.tree t).gen := by
        cases t <;> rfl
      rw [hl]
      rcases hb : mergeInto (blkVals root.toContent) (bubbleSort GefsMsg.k ms)
        (newLeaf ctx2 addr (ctx2.tree t).gen) with _ | b
      · rfl
      · have hbid : (blkFinalize b).id ≠ root.id := by
          rw [mergeInto_eq_mergeVals] at hb
          obtain ⟨l, -, hb⟩ := Option.bind_eq_some_iff.1 hb
          have h1 : b.id = ctx2.nblk := (foldlM_blkSetval_frame hb).1
          rw [blkFinalize_id, h1, hn]
          omega
        simp only [Option.bind_eq_bind, Option.bind_some, gefsDropblk_writeBlk hbid,
          gefsDropblk_setRoot]

/-- `ctx'` is `ctx` after an update of `t` to the entries `es`, the new root at `bp`. -/
structure Upserted (ctx : GefsCtx) (t : TreeRef) (es : List GefsKvp) (bp : GefsBptr)
    (ctx' : GefsCtx) : Prop where
  ok : CtxOk ctx'
  alloc : nextAlloc ctx = some (bp.addr, ctx'.arenas)
  nonneg : 0 ≤ bp.addr.toInt
  gen : bp.gen = (ctx.tree t).gen
  root : Pinned ctx' bp.addr (IsLeaf es)
  laid : Pinned ctx' bp.addr LaidOut
  disk : ∃ buf, ctx'.disk = ctx.disk.pwrite bp.addr buf ∧ LeafBytes es buf
  held : ∀ x Q, Held ctx x Q → Apart x bp.addr → Held ctx' x Q
  pinned : ∀ x Q, Pinned ctx x Q → x ≠ bp.addr → Pinned ctx' x Q
  active : ctx'.activeTree = (setRoot ctx t bp).activeTree
  snap : ctx'.snapTree = (setRoot ctx t bp).snapTree
  sb : ctx'.sb = ctx.sb
  readonly : ctx'.readonly = ctx.readonly
  heap : ctx'.heap = ctx.heap
  dirty : ctx'.dirty = true

/-- The tree after an update has one leaf. -/
theorem Upserted.tree_eq {ctx ctx' : GefsCtx} {t : TreeRef} {l : List GefsKvp} {bp : GefsBptr}
    (h : Upserted ctx t l bp ctx') : (ctx'.tree t).bp = bp ∧ (ctx'.tree t).ht = 1 := by
  cases t
  · unfold GefsCtx.tree
    rw [h.active]
    unfold setRoot
    split_ifs <;> exact ⟨rfl, rfl⟩
  · unfold GefsCtx.tree
    rw [h.snap]
    unfold setRoot
    split_ifs <;> exact ⟨rfl, rfl⟩

/-- What an update can do to a tree whose root is read with the entries `es`, when the merge fits:
nothing but a change of the arenas without space, and else the merge of the whole batch. -/
theorem gefsBtupsert_read {ctx : GefsCtx} {t : TreeRef} {es l : List GefsKvp} {ms : List GefsMsg}
    {root : GefsBlk} (hok : CtxOk ctx) (hroot : (touchBlk ctx (ctx.tree t).bp).1 = some root)
    (hvals : blkVals root.toContent = es)
    (hl : mergeVals es (bubbleSort GefsMsg.k ms) = some l)
    (hms : ms ≠ []) (hro : ctx.readonly = false) (hf : Fits l) :
    (nextAlloc ctx = none ∧ ∃ ctx', Keeps ctx ctx'
      ∧ gefsBtupsert ctx t ms = some (.error .enospc, ctx'))
    ∨ (∃ a as ctx', nextAlloc ctx = some (a, as) ∧ a < 0 ∧ Keeps ctx ctx'
      ∧ gefsBtupsert ctx t ms = some (.error .enospc, { ctx' with arenas := as, dirty := true }))
    ∨ ∃ bp ctx', Upserted ctx t l bp ctx'
      ∧ gefsBtupsert ctx t ms = some (.ok (), ctx') := by
  rw [gefsBtupsert_eq hok t hro hms]
  have hk := (touchBlk_spec hok (ctx.tree t).bp).1
  rcases htb : touchBlk ctx (ctx.tree t).bp with ⟨r, ctx1⟩
  rw [htb] at hk hroot
  dsimp only at hk hroot
  subst hroot
  dsimp only
  rw [upsertRead, hvals, gefsAllocBlk_eq, hk.nextAlloc]
  rcases hna : nextAlloc ctx with _ | ⟨a, as⟩
  · exact .inl ⟨rfl, ctx1, hk, by simp⟩
  · dsimp only
    split_ifs with ha
    · exact .inr (.inl ⟨a, as, ctx1, rfl, ha, hk, rfl⟩)
    · obtain ⟨b, hb, hfill, hbp, hid⟩ := mergeInto_newLeaf hl hf
        { ctx1 with arenas := as, dirty := true } a
        (({ ctx1 with arenas := as, dirty := true } : GefsCtx).tree t).gen
      obtain ⟨hlb, hil⟩ := leafBytes_blkFinalize hfill hf
      have hlaid : LaidOut (blkFinalize b).toContent := by
        refine hlb.laidOut ?_ hil
        rw [blkFinalize_leaf hfill.type]
        exact hfill.data
      have haddr : (blkFinalize b).bp.addr = a := by rw [blkFinalize_leaf hfill.type, hbp]
      have hgen : (blkFinalize b).bp.gen = (ctx.tree t).gen := by
        rw [blkFinalize_leaf hfill.type, hbp]
        cases t
        · exact congrArg GefsTree.gen hk.activeTree
        · exact congrArg GefsTree.gen hk.snapTree
      have hbid : (blkFinalize b).id = ctx1.nblk := by rw [blkFinalize_id, hid]
      refine .inr (.inr ⟨(blkFinalize b).bp, _, ?_, by rw [hb]; rfl⟩)
      generalize blkFinalize b = fb at haddr hgen hbid hlb hil hlaid
      obtain ⟨hact, hsnap⟩ := @setRoot_congr ctx
        { ctx1 with arenas := as, dirty := true } hk.activeTree hk.snapTree t fb.bp
      rw [setRoot_eq, hact, hsnap]
      subst haddr
      let ctx2 : GefsCtx := { ctx1 with
        arenas := as
        dirty := true
        activeTree := (setRoot ctx t fb.bp).activeTree
        snapTree := (setRoot ctx t fb.bp).snapTree }
      exact {
        ok := @ctxOk_writeBlk ctx2 _ hk.ok hbid
        alloc := hna
        nonneg := int64_nonneg ha
        gen := hgen
        root := @pinned_writeBlk_self ctx2 _ _ hil
        laid := @pinned_writeBlk_self ctx2 _ _ hlaid
        disk := ⟨fb.buf, congrArg (Disk.pwrite · fb.bp.addr fb.buf) hk.disk, hlb⟩
        held := fun x Q hx hap => @Held.writeBlk ctx2 _ _ _ (hk.held x Q hx) hap
        pinned := fun x Q hx hne => @Pinned.writeBlk ctx2 _ _ _ (hk.pinned x Q hx) hne
        active := rfl
        snap := rfl
        sb := hk.sb
        readonly := hk.readonly
        heap := hk.heap
        dirty := rfl }

theorem gefsBtupsert_vals {ctx : GefsCtx} {t : TreeRef} {es l : List GefsKvp} {ms : List GefsMsg}
    (hok : CtxOk ctx) (hh : Held ctx (ctx.tree t).bp.addr fun c => blkVals c = es)
    (hl : mergeVals es (bubbleSort GefsMsg.k ms) = some l)
    (hms : ms ≠ []) (hro : ctx.readonly = false) (hf : Fits l) :
    (nextAlloc ctx = none ∧ ∃ ctx', Keeps ctx ctx'
      ∧ gefsBtupsert ctx t ms = some (.error .enospc, ctx'))
    ∨ (∃ a as ctx', nextAlloc ctx = some (a, as) ∧ a < 0 ∧ Keeps ctx ctx'
      ∧ gefsBtupsert ctx t ms = some (.error .enospc, { ctx' with arenas := as, dirty := true }))
    ∨ ∃ bp ctx', Upserted ctx t l bp ctx'
      ∧ gefsBtupsert ctx t ms = some (.ok (), ctx') := by
  obtain ⟨root, hroot, hvals⟩ := (touchBlk_spec hok (ctx.tree t).bp).2 _ hh
  exact gefsBtupsert_read hok hroot hvals hl hms hro hf

/-- The same for a tree of one leaf and a batch without wstats. -/
theorem gefsBtupsert_leaf {ctx : GefsCtx} {t : TreeRef} {es : List GefsKvp} {ms : List GefsMsg}
    (hok : CtxOk ctx) (hh : Held ctx (ctx.tree t).bp.addr (IsLeaf es)) (hp : Plain ms)
    (hms : ms ≠ []) (hro : ctx.readonly = false) (hf : Fits (merged es ms)) :
    (nextAlloc ctx = none ∧ ∃ ctx', Keeps ctx ctx'
      ∧ gefsBtupsert ctx t ms = some (.error .enospc, ctx'))
    ∨ (∃ a as ctx', nextAlloc ctx = some (a, as) ∧ a < 0 ∧ Keeps ctx ctx'
      ∧ gefsBtupsert ctx t ms = some (.error .enospc, { ctx' with arenas := as, dirty := true }))
    ∨ ∃ bp ctx', Upserted ctx t (merged es ms) bp ctx'
      ∧ gefsBtupsert ctx t ms = some (.ok (), ctx') :=
  gefsBtupsert_vals hok (hh.imp fun _ h => blkVals_of_isLeaf h) (mergeVals_merged es hp) hms hro hf

/-- Without a block an update is refused. -/
theorem gefsBtupsert_refused {ctx : GefsCtx} (hok : CtxOk ctx) (t : TreeRef) (ms : List GefsMsg)
    (hna : ∀ a as, nextAlloc ctx = some (a, as) → a < 0) :
    ∃ e ctx', gefsBtupsert ctx t ms = some (.error e, ctx') := by
  by_cases h0 : ctx.readonly = true ∨ ms = []
  · unfold gefsBtupsert
    rw [if_pos h0]
    exact ⟨_, _, rfl⟩
  · obtain ⟨hro, hms⟩ := not_or.1 h0
    rw [gefsBtupsert_eq hok t (by simpa using hro) hms]
    have hk := (touchBlk_spec hok (ctx.tree t).bp).1
    rcases htb : touchBlk ctx (ctx.tree t).bp with ⟨_ | root, ctx1⟩
    · exact ⟨_, _, rfl⟩
    · rw [htb] at hk
      dsimp only at hk ⊢
      rw [upsertRead, gefsAllocBlk_eq, hk.nextAlloc]
      rcases h : nextAlloc ctx with _ | ⟨a, as⟩
      · exact ⟨_, _, rfl⟩
      · dsimp only
        rw [if_pos (hna a as h)]
        exact ⟨_, _, rfl⟩

/-- With one it is not: it is done, or runs into what is not defined. -/
theorem ok_of_gefsBtupsert {ctx ctx' : GefsCtx} {t : TreeRef} {ms : List GefsMsg} {a : Int64}
    {as : List GefsArena} {r : Except Errno Unit} {root : GefsBlk} (hok : CtxOk ctx) (hms : ms ≠ [])
    (hroot : (touchBlk ctx (ctx.tree t).bp).1 = some root)
    (hal : nextAlloc ctx = some (a, as)) (h0 : 0 ≤ a)
    (h : gefsBtupsert ctx t ms = some (r, ctx')) : r = .ok () := by
  have hro : ctx.readonly = false := by
    by_contra hro
    rw [nextAlloc, if_pos (.inl (by simpa using hro))] at hal
    cases hal
  have hk := (touchBlk_spec hok (ctx.tree t).bp).1
  rw [gefsBtupsert_eq hok t hro hms] at h
  rcases htb : touchBlk ctx (ctx.tree t).bp with ⟨r', ctx1⟩
  rw [htb] at h hk hroot
  obtain rfl : r' = some root := hroot
  dsimp only at h hk
  rw [upsertRead, gefsAllocBlk_eq, hk.nextAlloc, hal] at h
  dsimp only at h
  rw [if_neg (Int64.not_lt.2 h0)] at h
  obtain ⟨b, -, h⟩ := Option.bind_eq_some_iff.1 h
  cases h
  rfl

/-! ## Data blocks -/

/-- A data block with the bytes of `m`. -/
def IsDat (m : Mem) (c : Content) : Prop := c.data = 0 ∧ ∀ i < gefsBlksz, c.buf i = m i

/-- `ctx'` is `ctx` after the data block `m` was written at `bp`. -/
structure Datted (ctx : GefsCtx) (m : Mem) (bp : GefsBptr) (ctx' : GefsCtx) : Prop where
  ok : CtxOk ctx'
  alloc : nextAlloc ctx = some (bp.addr, ctx'.arenas)
  nonneg : 0 ≤ bp.addr.toInt
  block : Pinned ctx' bp.addr (IsDat m)
  disk : ∃ buf, ctx'.disk = ctx.disk.pwrite bp.addr buf ∧ ∀ i < gefsBlksz, buf i = m i
  held : ∀ x Q, Held ctx x Q → Apart x bp.addr → Held ctx' x Q
  pinned : ∀ x Q, Pinned ctx x Q → x ≠ bp.addr → Pinned ctx' x Q
  active : ctx'.activeTree = ctx.activeTree
  snap : ctx'.snapTree = ctx.snapTree
  sb : ctx'.sb = ctx.sb
  readonly : ctx'.readonly = ctx.readonly
  heap : ctx'.heap = ctx.heap
  dirty : ctx'.dirty = true

theorem blkFinalize_dat {b : GefsBlk} (hb : b.type = gefsTdat) :
    blkFinalize b = { b with bp := { b.bp with hash := gefsBufhash b.buf 0 gefsBlksz } } := by
  have h0 : ¬ b.type ≠ gefsTdat := not_not.2 hb
  have h1 : ¬ (b.type = gefsTlog ∨ b.type = gefsTdlist) := by rw [hb]; decide
  have h2 : ¬ b.type = gefsTpivot := by rw [hb]; decide
  have h3 : ¬ b.type = gefsTleaf := by rw [hb]; decide
  unfold blkFinalize
  simp only [if_neg h0, if_neg h1, if_neg h2, if_neg h3]

theorem writedat_spec {ctx : GefsCtx} (hok : CtxOk ctx) (m : Mem) :
    (nextAlloc ctx = none ∧ writedat ctx m = (none, ctx))
    ∨ (∃ a as, nextAlloc ctx = some (a, as) ∧ a < 0
      ∧ writedat ctx m = (none, { ctx with arenas := as, dirty := true }))
    ∨ ∃ bp ctx', Datted ctx m bp ctx' ∧ writedat ctx m = (some bp, ctx') := by
  unfold writedat
  rw [gefsAllocBlk_eq]
  rcases hna : nextAlloc ctx with _ | ⟨a, as⟩
  · exact .inl ⟨rfl, by simp⟩
  · dsimp only
    split_ifs with ha
    · exact .inr (.inl ⟨a, as, rfl, ha, rfl⟩)
    · refine .inr (.inr ⟨_, _, ?_, rfl⟩)
      rw [blkFinalize_dat rfl]
      let ctx2 : GefsCtx := { ctx with arenas := as, dirty := true }
      have hdat : IsDat m (newDat ctx2 a ctx2.activeTree.gen m).toContent :=
        ⟨rfl, fun i hi => if_pos hi⟩
      exact {
        ok := @ctxOk_writeBlk ctx2 _ hok rfl
        alloc := hna
        nonneg := int64_nonneg ha
        block := @pinned_writeBlk_self ctx2 _ _ hdat
        disk := ⟨_, rfl, hdat.2⟩
        held := fun x Q hx hap => @Held.writeBlk ctx2 _ _ _ hx hap
        pinned := fun x Q hx hne => @Pinned.writeBlk ctx2 _ _ _ hx hne
        active := rfl
        snap := rfl
        sb := rfl
        readonly := rfl
        heap := rfl
        dirty := rfl }

end GefsFuse
