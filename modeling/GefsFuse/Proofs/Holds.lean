import GefsFuse.Proofs.Cache
import GefsFuse.Tree

/-!
# Reads that hold blocks

A look-up and a scan hold the blocks of their path while they read on, so what is evicted on the
way differs from what would be without them. `Under hs ctx ctx'` says that `ctx'` is `ctx` after
some reads with the blocks `hs` still held: once they are dropped, everything is kept. Every
look-up and every scan that returns has dropped all it held, whatever the tree holds.
-/

namespace GefsFuse

open ByteMem

/-! ## Dropping -/

/-- `y` after `b` was dropped. -/
def dropRef (b y : GefsBlk) : GefsBlk := if y.id = b.id then { y with ref := y.ref - 1 } else y

section Drop

variable {ctx ctx' : GefsCtx} (b y : GefsBlk)

@[simp] theorem id_dropRef : (dropRef b y).id = y.id := by
  unfold dropRef
  split_ifs <;> rfl

@[simp] theorem bp_dropRef : (dropRef b y).bp = y.bp := by
  unfold dropRef
  split_ifs <;> rfl

@[simp] theorem toContent_dropRef : (dropRef b y).toContent = y.toContent := by
  unfold dropRef
  split_ifs <;> rfl

theorem ref_dropRef : (dropRef b y).ref = if y.id = b.id then y.ref - 1 else y.ref := by
  unfold dropRef
  split_ifs <;> rfl

theorem ref_dropRef_le : (dropRef b y).ref ≤ y.ref := by
  rw [ref_dropRef]
  split_ifs <;> omega

theorem blks_gefsDropblk (ctx : GefsCtx) :
    (gefsDropblk ctx b).cache.blks = ctx.cache.blks.map (dropRef b) := rfl

theorem find_gefsDropblk (ctx : GefsCtx) (x : Int64) :
    (gefsDropblk ctx b).cache.find x = (ctx.cache.find x).map (dropRef b) :=
  find_setRef _ _ _ _

theorem ctxOk_of_gefsDropblk (h : CtxOk (gefsDropblk ctx b)) : CtxOk ctx := by
  refine ⟨?_, fun y hy => ?_, ?_⟩
  · have hn := h.nodup
    rw [blks_gefsDropblk, List.map_map] at hn
    have hmap : ctx.cache.blks.map ((fun y : GefsBlk => y.id) ∘ dropRef b)
        = ctx.cache.blks.map (·.id) := List.map_congr_left fun y _ => id_dropRef b y
    rwa [hmap] at hn
  · have hlt := h.lt _ (by rw [blks_gefsDropblk]; exact List.mem_map_of_mem hy)
    rw [id_dropRef] at hlt
    exact hlt
  · have hp := h.pinned
    rw [blks_gefsDropblk, List.pairwise_map] at hp
    refine hp.imp fun {y z} hyz he => ?_
    rw [bp_dropRef, bp_dropRef] at hyz
    exact (hyz he).trans (ref_dropRef_le b y)

theorem shed_dropRef {bs bs' : List GefsBlk} (h : Shed bs bs') :
    Shed (bs.map (dropRef b)) (bs'.map (dropRef b)) := by
  rcases h with rfl | ⟨v, hv, h0, rfl⟩
  · exact .inl rfl
  · have hle := ref_dropRef_le b v
    refine .inr ⟨dropRef b v, List.mem_map_of_mem hv, by omega, ?_⟩
    rw [List.filter_map]
    congr 1
    refine List.filter_congr fun y _ => ?_
    simp only [Function.comp_apply, id_dropRef]

/-- A read is a read of the context in which less is held. -/
theorem Touched.drop (h : Touched ctx ctx') : Touched (gefsDropblk ctx b) (gefsDropblk ctx' b) := by
  cases h with
  | shed hrest hs =>
    refine .shed ?_ (shed_dropRef b hs)
    rw [hrest]
    rfl
  | @read m y bs hrest hs hbs href hid hfind hm hc =>
    have hle := ref_dropRef_le b y
    refine @Touched.read _ _ m (dropRef b y) (bs.map (dropRef b)) ?_ (shed_dropRef b hs) ?_
      (by omega) ?_ ?_ ?_ ?_
    · rw [hrest]
      rfl
    · rw [blks_gefsDropblk, hbs, List.map_cons]
    · rw [id_dropRef]
      exact hid
    · rw [find_gefsDropblk, bp_dropRef, hfind]
      rfl
    · rw [bp_dropRef]
      exact hm
    · rw [toContent_dropRef]
      exact hc

theorem gefsDropblk_comm (ctx : GefsCtx) (b c : GefsBlk) :
    gefsDropblk (gefsDropblk ctx b) c = gefsDropblk (gefsDropblk ctx c) b := by
  have h : ∀ y : GefsBlk, dropRef c (dropRef b y) = dropRef b (dropRef c y) := by
    intro y
    unfold dropRef
    split_ifs <;> rfl
  have hmap : (ctx.cache.blks.map (dropRef b)).map (dropRef c)
      = (ctx.cache.blks.map (dropRef c)).map (dropRef b) := by
    rw [List.map_map, List.map_map]
    exact List.map_congr_left fun y _ => h y
  show ({ ctx with cache := { ctx.cache with blks := (ctx.cache.blks.map (dropRef b)).map (dropRef c) } }
    : GefsCtx) = { ctx with cache := { ctx.cache with
      blks := (ctx.cache.blks.map (dropRef c)).map (dropRef b) } }
  rw [hmap]

end Drop

/-! ## Reads under holds -/

/-- `hs` dropped, one after the other. -/
def dropAll (hs : List GefsBlk) (ctx : GefsCtx) : GefsCtx := hs.foldl gefsDropblk ctx

@[simp] theorem dropAll_nil (ctx : GefsCtx) : dropAll [] ctx = ctx := rfl

@[simp] theorem dropAll_cons (b : GefsBlk) (hs : List GefsBlk) (ctx : GefsCtx) :
    dropAll (b :: hs) ctx = dropAll hs (gefsDropblk ctx b) := rfl

theorem dropAll_perm {hs hs' : List GefsBlk} (h : hs.Perm hs') (ctx : GefsCtx) :
    dropAll hs ctx = dropAll hs' ctx :=
  h.foldl_eq' (fun b _ c _ x => gefsDropblk_comm x b c) ctx

theorem Touched.dropAll : ∀ (hs : List GefsBlk) {ctx ctx' : GefsCtx}, Touched ctx ctx' →
    Touched (dropAll hs ctx) (dropAll hs ctx')
  | [], _, _, h => h
  | b :: hs, _, _, h => Touched.dropAll hs (h.drop b)

theorem ctxOk_of_dropAll : ∀ (hs : List GefsBlk) {ctx : GefsCtx}, CtxOk (dropAll hs ctx) → CtxOk ctx
  | [], _, h => h
  | b :: hs, _, h => ctxOk_of_gefsDropblk b (ctxOk_of_dropAll hs h)

/-- `ctx'` is `ctx` after some reads, the blocks `hs` still held. -/
def Under (hs : List GefsBlk) (ctx ctx' : GefsCtx) : Prop := Keeps ctx (dropAll hs ctx')

section Under

variable {hs : List GefsBlk} {ctx ctx' : GefsCtx} (h : Under hs ctx ctx')
include h

theorem Under.ok : CtxOk ctx' := ctxOk_of_dropAll hs (Keeps.ok h)

theorem Under.perm {hs' : List GefsBlk} (hp : hs.Perm hs') : Under hs' ctx ctx' := by
  unfold Under
  rw [← dropAll_perm hp]
  exact h

theorem Under.touch (bp : GefsBptr) : Under hs ctx (touchBlk ctx' bp).2 :=
  Keeps.trans h ((Touched.dropAll hs (touched_touchBlk h.ok bp)).keeps (Keeps.ok h))

/-- A block read, or not. -/
theorem Under.getblk (bp : GefsBptr) :
    match gefsGetblk ctx' bp with
    | (none, ctx'') => Under hs ctx ctx''
    | (some b, ctx'') => Under (b :: hs) ctx ctx'' := by
  have ht := h.touch bp
  rw [gefsGetblk_eq ctx' bp h.ok]
  rcases hg : touchBlk ctx' bp with ⟨_ | b, ctx1⟩ <;> rw [hg] at ht
  · exact ht
  · show Keeps ctx (dropAll (b :: hs) (gefsHoldblk ctx1 b))
    rw [dropAll_cons, gefsDropblk_gefsHoldblk]
    exact ht

theorem Under.hold (b : GefsBlk) : Under (b :: hs) ctx (gefsHoldblk ctx' b) := by
  show Keeps ctx (dropAll (b :: hs) (gefsHoldblk ctx' b))
  rw [dropAll_cons, gefsDropblk_gefsHoldblk]
  exact h

end Under

theorem Under.refl {ctx : GefsCtx} (h : CtxOk ctx) : Under [] ctx ctx := Keeps.refl h

theorem Under.keeps {ctx ctx' : GefsCtx} (h : Under [] ctx ctx') : Keeps ctx ctx' := h

/-- The block held last dropped. -/
theorem Under.drop {hs : List GefsBlk} {ctx ctx' : GefsCtx} {b : GefsBlk}
    (h : Under (b :: hs) ctx ctx') : Under hs ctx (gefsDropblk ctx' b) := h

end GefsFuse
