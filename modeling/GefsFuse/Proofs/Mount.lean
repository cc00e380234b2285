import GefsFuse.Proofs.Calls
import GefsFuse.Proofs.Ream

/-!
# Mounting a formatted image

Reading the arenas only fills the cache, so the catalog of the formatter is still there when the
labels are looked up. The tree mounted is the one the formatter made for `main`: its record lies
under the id 2 and its generation is 3.
-/

namespace GefsFuse

open ByteMem SortedMap Calls

/-! ## The arenas -/

section Load

variable {I : GefsCtx → Prop} (hI : ∀ ctx bp, I ctx → I (touchBlk ctx bp).2)
include hI

/-- What each read keeps is kept by the reads of a log. -/
theorem loadChain_inv : ∀ (fuel : ℕ) {ctx ctx' : GefsCtx} {bp : GefsBptr}
    {fl fl' : List GefsRange}, I ctx → loadChain fuel ctx bp fl = some (fl', ctx') → I ctx'
  | 0, _, _, _, _, _, _, h => by simp [loadChain] at h
  | fuel + 1, ctx, ctx', bp, fl, fl', hi, h => by
    have hk := hI ctx bp hi
    unfold loadChain at h
    unfold touchBlk at hk
    split_ifs at h
    · simp only [Option.some.injEq, Prod.mk.injEq] at h
      rw [← h.2]
      exact hi
    · rcases hg : gefsGetblk ctx bp with ⟨_ | b, ctx1⟩ <;> rw [hg] at h hk
      · simp only [Option.some.injEq, Prod.mk.injEq] at h
        rw [← h.2]
        exact hk
      · exact loadChain_inv fuel hk h

theorem loadArena_inv {fuel : ℕ} {ctx ctx' : GefsCtx} {h0 : GefsBptr} {a : GefsArena}
    (hi : I ctx) (h : loadArena fuel ctx h0 = some (a, ctx')) : I ctx' := by
  have hk := hI ctx h0 hi
  unfold loadArena at h
  unfold touchBlk at hk
  rcases hg : gefsGetblk ctx h0 with ⟨_ | b, ctx1⟩ <;> rw [hg] at h hk
  · simp only [Option.some.injEq, Prod.mk.injEq] at h
    rw [← h.2]
    exact hk
  · obtain ⟨⟨fl, ctx2⟩, hl, he⟩ := Option.bind_eq_some_iff.1 h
    simp only [Option.some.injEq, Prod.mk.injEq] at he
    rw [← he.2]
    exact loadChain_inv hI fuel hk hl

theorem loadArenas_inv {fuel : ℕ} : ∀ {bps : List GefsBptr} {ctx ctx' : GefsCtx}
    {as : List GefsArena}, I ctx → loadArenas fuel bps ctx = some (as, ctx') →
    I ctx' ∧ as.length = bps.length
  | [], ctx, ctx', as, hi, h => by
    simp only [loadArenas, Option.some.injEq, Prod.mk.injEq] at h
    rw [← h.1, ← h.2]
    exact ⟨hi, rfl⟩
  | bp :: bps, ctx, ctx', as, hi, h => by
    obtain ⟨⟨a, ctx1⟩, ha, h⟩ := Option.bind_eq_some_iff.1 h
    obtain ⟨⟨as1, ctx2⟩, has, h⟩ := Option.bind_eq_some_iff.1 h
    simp only [Option.some.injEq, Prod.mk.injEq] at h
    obtain ⟨hk, hlen⟩ := loadArenas_inv (loadArena_inv hI hi ha) has
    rw [← h.1, ← h.2]
    exact ⟨hk, by simp [hlen]⟩

end Load

theorem Keeps.touch {ctx ctx' : GefsCtx} (h : Keeps ctx ctx') (bp : GefsBptr) :
    Keeps ctx (touchBlk ctx' bp).2 :=
  h.trans (touchBlk_spec h.ok bp).1

theorem loadArena_keeps {fuel : ℕ} {ctx ctx' : GefsCtx} {h0 : GefsBptr} {a : GefsArena}
    (hok : CtxOk ctx) (h : loadArena fuel ctx h0 = some (a, ctx')) : Keeps ctx ctx' :=
  loadArena_inv (fun _ bp hk => hk.touch bp) (.refl hok) h

theorem loadArenas_keeps {fuel : ℕ} {bps : List GefsBptr} {ctx ctx' : GefsCtx}
    {as : List GefsArena} (hok : CtxOk ctx) (h : loadArenas fuel bps ctx = some (as, ctx')) :
    Keeps ctx ctx' ∧ as.length = bps.length :=
  loadArenas_inv (fun _ bp hk => hk.touch bp) (.refl hok) h

/-! ## Labels -/

/-- What `gefs_opensnap` answers on a catalog with the entries `es`. -/
def openAns (es : List GefsKvp) (label : Bytes) : Except Errno (GefsTree × UInt32) :=
  match gefsPacklbl gefsKvmax label with
  | none => .error .einval
  | some k =>
    match look es k with
    | none => .error .enoent
    | some v =>
      if v.length < 1 + 8 + 4 then .error .eio
      else match look es (gefsPacksnap (unpack64 (memOf v) 1).toInt64) with
        | none => .error .eio
        | some w =>
          match gefsUnpacktree w with
          | none => .error .eio
          | some t => .ok (t, unpack32 (memOf v) 9)

theorem run_gefsOpensnap {ctx : GefsCtx} {es : List GefsKvp} (hok : CtxOk ctx)
    (hh : TreeHolds ctx ctx.snapTree es) (label : Bytes) :
    ∃ ctx', Keeps ctx ctx' ∧ run sysStep (gefsOpensnap label) ctx = some (openAns es label, ctx') := by
  unfold gefsOpensnap openAns
  rcases gefsPacklbl gefsKvmax label with _ | k
  · exact ⟨ctx, .refl hok, rfl⟩
  · obtain ⟨ctx1, hk1, he1⟩ := step_btlookup (t := .snap) hok hh k
    simp only [Prog.one_bind]
    rw [run_call _ he1]
    rcases look es k with _ | v
    · exact ⟨ctx1, hk1, rfl⟩
    · simp only [Option.map_some]
      split_ifs
      · exact ⟨ctx1, hk1, rfl⟩
      · have hh1 : TreeHolds ctx1 (ctx1.tree .snap) es := by
          rw [hk1.tree]
          exact hh.keeps hk1
        obtain ⟨ctx2, hk2, he2⟩ := step_btlookup hk1.ok hh1
          (gefsPacksnap (unpack64 (memOf v) 1).toInt64)
        refine ⟨ctx2, hk1.trans hk2, ?_⟩
        rw [run_call _ he2]
        rcases look es (gefsPacksnap (unpack64 (memOf v) 1).toInt64) with _ | w
        · rfl
        · simp only [Option.map_some]
          rcases gefsUnpacktree w with _ | t <;> rfl

/-- A label that names a record which is there. -/
theorem openAns_eq {es : List GefsKvp} {label : Bytes} {id : Int64} {flags : UInt32} {t : GefsTree}
    (hlen : label.length + 1 ≤ gefsKvmax)
    (hl : look es (gefsKlabel :: label) = some (packlblval id flags))
    (hs : look es (gefsPacksnap id) = some (packtree t)) : openAns es label = .ok (t, flags) := by
  have hk : gefsPacklbl gefsKvmax label = some (gefsKlabel :: label) := by
    rw [gefsPacklbl, if_neg (by omega)]
  obtain ⟨hid, hfl⟩ := unpack_packlblval id flags
  unfold openAns
  simp only [hk, hl, length_packlblval, hid, hfl, hs, gefsUnpacktree_packtree]
  rfl

/-! ## The image -/

/-- The tree the formatter makes for `main`. -/
def mainTree (r : GefsBptr) : GefsTree := reamTree 0 3 (-1) r

theorem openAns_main (r a : GefsBptr) :
    openAns (catEs r a) lblMain = .ok (mainTree r, gefsLmut ||| gefsLtsnap) :=
  openAns_eq (by decide) rfl rfl

theorem run_openDefault {ctx : GefsCtx} {r a : GefsBptr} (hok : CtxOk ctx)
    (hh : TreeHolds ctx ctx.snapTree (catEs r a)) :
    ∃ ctx', Keeps ctx ctx'
      ∧ run sysStep openDefault ctx = some ((), { ctx' with activeTree := mainTree r }) := by
  obtain ⟨ctx', hk, he⟩ := run_gefsOpensnap hok hh lblMain
  rw [openAns_main] at he
  refine ⟨ctx', hk, ?_⟩
  unfold openDefault
  rw [run_bind, he]
  rfl

theorem superOk_ream {n : ℕ} (h1 : 8 ≤ n) (h2 : n ≤ 32) (tb : GefsBptr) {bps : List GefsBptr}
    (hl : bps.length = n) : SuperOk (reamSuper n tb bps) := by
  have hn : (Int32.ofNat n).toInt = n := Int32.toInt_ofNat_of_lt (by omega)
  refine ⟨?_, ?_, ?_⟩
  · rw [Int32.lt_iff_toInt_lt]
    show 0 < (Int32.ofNat n).toInt
    omega
  · rw [Int32.le_iff_toInt_le]
    show (Int32.ofNat n).toInt ≤ 512
    omega
  · show bps.length = (Int32.ofNat n).toInt.toNat
    omega

/-- A formatted image, mounted: nothing is written, the catalog is the formatter's and the tree is
that of `main`. -/
structure Opened (d' : Disk) (readonly : Bool) (heap : ℕ → Mem) (n : ℕ) (r a tb : GefsBptr)
    (bps : List GefsBptr) (ctx : GefsCtx) : Prop where
  ok : CtxOk ctx
  disk : ctx.disk = d'
  ro : ctx.readonly = readonly
  hp : ctx.heap = heap
  sb : ctx.sb = sbRead (reamSuper n tb bps)
  snap : ctx.snapTree = ctx.sb.snap
  active : ctx.activeTree = mainTree r
  catalog : TreeHolds ctx ctx.snapTree (catEs r a)
  main : TreeHolds ctx ctx.activeTree mainEs
  dirty : ctx.dirty = false
  arenas : ctx.arenas.length = n

theorem readSuper_formatted {d d' : Disk} {r a u tb : GefsBptr} {nu : ℕ} {bps : List GefsBptr}
    (hf : Formatted d d' r a u tb nu bps) :
    readSuper d' = .ok (sbRead (reamSuper (reamNarena d.size) tb bps)) := by
  obtain ⟨m, hm, heq⟩ := hf.super
  obtain ⟨h1, h2⟩ := reamNarena_bounds d.size
  have hsb := gefsUnpacksb_packSbBlock (superOk_ream h1 h2 tb hf.length) heq
  have hm0 : d'.pread 0 = some m := hm
  unfold readSuper
  simp only [hm0, hsb]

theorem gefsFsOpen_formatted {d d' : Disk} {r a u tb : GefsBptr} {nu : ℕ} {bps : List GefsBptr}
    (hf : Formatted d d' r a u tb nu bps) {fuel : ℕ} {readonly : Bool} {heap : ℕ → Mem}
    {res : Except Errno GefsCtx} (h : gefsFsOpen fuel d' readonly heap = some res) :
    ∃ ctx, res = .ok ctx ∧ Opened d' readonly heap (reamNarena d.size) r a tb bps ctx := by
  unfold gefsFsOpen at h
  rw [readSuper_formatted hf] at h
  obtain ⟨sb, hsb⟩ : ∃ sb, sb = sbRead (reamSuper (reamNarena d.size) tb bps) := ⟨_, rfl⟩
  have hlen : sb.arenabp.length = reamNarena d.size := by
    rw [hsb, ← hf.length]
    simp [sbRead, reamSuper]
  have hsnap : sb.snap.ht = 1 ∧ sb.snap.bp.addr = Int64.ofNat 114688 := by
    rw [hsb]
    exact ⟨rfl, hf.taddr⟩
  rw [← hsb] at h
  obtain ⟨⟨as, ctx1⟩, has, h⟩ := Option.bind_eq_some_iff.1 h
  obtain ⟨⟨u0, ctx3⟩, hr, h⟩ := Option.bind_eq_some_iff.1 h
  simp only [Option.some.injEq] at h
  have hok0 : CtxOk (freshCtx d' readonly heap sb) :=
    ⟨List.nodup_nil, by simp [freshCtx, gefsCacheInit], List.Pairwise.nil⟩
  obtain ⟨hk1, hl1⟩ := loadArenas_keeps hok0 has
  obtain ⟨bufc, hcat, hcatl⟩ := hf.cat
  obtain ⟨bufm, hmain, hmainl⟩ := hf.main
  have hheld0 : Held (freshCtx d' readonly heap sb) (Int64.ofNat 114688) (IsLeaf (catEs r a)) :=
    held_of_leafBytes rfl hcat hcatl
  have hheldm : Held (freshCtx d' readonly heap sb) (Int64.ofNat 65536) (IsLeaf mainEs) :=
    held_of_leafBytes rfl hmain hmainl
  -- the context the labels are looked up in
  obtain ⟨ctx2, hctx2⟩ : ∃ c : GefsCtx, c = { ctx1 with arenas := as, snapTree := sb.snap } :=
    ⟨_, rfl⟩
  rw [← hctx2] at hr
  have hok2 : CtxOk ctx2 := by rw [hctx2]; exact hk1.ok
  have hcat2 : TreeHolds ctx2 ctx2.snapTree (catEs r a) := by
    rw [hctx2]
    refine ⟨hsnap.1, ?_, ascending_catEs r a, small_catEs r a⟩
    have hb := hk1.held _ _ hheld0
    show Held { ctx1 with arenas := as, snapTree := sb.snap } sb.snap.bp.addr (IsLeaf (catEs r a))
    rw [hsnap.2]
    exact hb
  have hmain2 : Held ctx2 (Int64.ofNat 65536) (IsLeaf mainEs) := by
    rw [hctx2]
    exact hk1.held _ _ hheldm
  obtain ⟨ctx4, hk4, he4⟩ := run_openDefault hok2 hcat2
  have hctx3 : ctx3 = { ctx4 with activeTree := mainTree r } := by
    simpa using hr.symm.trans he4
  have hsnap4 : ctx4.snapTree = sb.snap := by rw [hk4.snapTree, hctx2]
  refine ⟨ctx3, h.symm, ?_⟩
  rw [hctx3]
  exact {
    ok := hk4.ok
    disk := by
      show ctx4.disk = d'
      rw [hk4.disk, hctx2]
      exact hk1.disk
    ro := by
      show ctx4.readonly = readonly
      rw [hk4.readonly, hctx2]
      exact hk1.readonly
    hp := by
      show ctx4.heap = heap
      rw [hk4.heap, hctx2]
      exact hk1.heap
    sb := by
      show ctx4.sb = _
      rw [hk4.sb, hctx2, ← hsb]
      exact hk1.sb
    snap := by
      show ctx4.snapTree = ctx4.sb.snap
      rw [hsnap4, hk4.sb, hctx2]
      exact congrArg GefsSuper.snap hk1.sb.symm
    active := rfl
    catalog := by
      show TreeHolds { ctx4 with activeTree := mainTree r } ctx4.snapTree (catEs r a)
      rw [hk4.snapTree]
      have hh := hcat2.keeps hk4
      exact ⟨hh.ht, hh.root, hh.asc, hh.small⟩
    main := by
      refine ⟨rfl, ?_, ascending_mainEs, small_mainEs⟩
      show Held { ctx4 with activeTree := mainTree r } r.addr (IsLeaf mainEs)
      rw [hf.raddr]
      exact hk4.held _ _ hmain2
    dirty := by
      show ctx4.dirty = false
      rw [hk4.dirty, hctx2]
      exact hk1.dirty
    arenas := by
      show ctx4.arenas.length = reamNarena d.size
      rw [hk4.arenas, hctx2, ← hlen]
      exact hl1 }

end GefsFuse
