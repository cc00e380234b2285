import GefsFuse.Proofs.Calls

/-!
# Data blocks and the cache

The cached block of a write has its data at its start. A block read back from the disk has its data
where its first two bytes say, as if it were a tree block, so a data block reads back right exactly
when it does not start like a pivot or a leaf.
-/

namespace GefsFuse

open ByteMem SortedMap Calls

/-- `ctx` comes some time after `ctx1`, the state in which the block at `bp` was written: the block
is still the one the write put in the cache, or has left it, and the disk holds what it held. -/
structure After (ctx1 : GefsCtx) (bp : GefsBptr) (ctx : GefsCtx) : Prop where
  ok : CtxOk ctx
  cache : ctx.cache.find bp.addr = ctx1.cache.find bp.addr ∨ ctx.cache.find bp.addr = none
  disk : ∃ m m', ctx1.disk.pread bp.addr = some m ∧ ctx.disk.pread bp.addr = some m'
    ∧ ∀ i < gefsBlksz, m' i = m i

/-- Every read of a range of the block `c` at `o` of a file, at any time after it was written,
returns the bytes of `c`. -/
def Transparent (c : Mem) : Prop :=
  ∀ (ctx0 ctx1 ctx : GefsCtx) (bp : GefsBptr), CtxOk ctx0 →
    writedat ctx0 c = (some bp, ctx1) → After ctx1 bp ctx →
    ∀ (t : TreeRef) (es : List GefsKvp) (d : GefsXdir) (o j n : ℕ), TreeHolds ctx (ctx.tree t) es →
      look es (packdatkey d.qid.path (UInt64.ofNat o)) = some (gefsPackbp bp) → o % 16384 = 0 →
      j + n ≤ gefsBlksz → o + j + n ≤ d.length.toNat → d.length.toNat < 2 ^ 63 →
      ∃ ctx', run sysStep (gefsReadFile t d (UInt64.ofNat n) (Int64.ofNat (o + j))) ctx
        = some (load c j n, ctx')

/-- A read of the block at `o` once it is known what it shows. -/
theorem run_gefsReadFile_block {ctx : GefsCtx} (hok : CtxOk ctx) {t : TreeRef}
    {es : List GefsKvp} {d : GefsXdir} {o j n : ℕ} (hh : TreeHolds ctx (ctx.tree t) es) {f : Mem}
    (hb : BlockShows ctx es d.qid.path o f) (ho : o % 16384 = 0) (hj : j + n ≤ gefsBlksz)
    (hl : o + j + n ≤ d.length.toNat) (hd : d.length.toNat < 2 ^ 63) :
    ∃ ctx', run sysStep (gefsReadFile t d (UInt64.ofNat n) (Int64.ofNat (o + j))) ctx
      = some (load f j n, ctx') := by
  have hbs : gefsBlksz = 16384 := rfl
  obtain ⟨ctx', -, hr⟩ := @run_gefsReadFile t es (fun i => f (i - o)) d ctx hok
    hh n (o + j) hd (by omega) fun o' h1 h2 h3 _ => by
      obtain rfl : o' = o := by omega
      simpa using hb
  refine ⟨ctx', ?_⟩
  have hm : min n (d.length.toNat - (o + j)) = n := by omega
  rw [hr, hm]
  congr 2
  exact load_congr fun i _ => congrArg f (by omega)

theorem parseBlk_of_ne {m : Mem} (h1 : unpack16 m 0 ≠ gefsTpivot) (h2 : unpack16 m 0 ≠ gefsTleaf) :
    (parseBlk m).data = 0 ∧ (parseBlk m).buf = m := by
  unfold parseBlk
  simp only [if_neg h1, if_neg h2, and_self]

theorem unpack16_withTail {m c : Mem} (h : ∀ i < gefsBlksz, m i = c i) (tail : Mem) :
    unpack16 (withTail m tail) 0 = unpack16 c 0 := by
  have hbs : gefsBlksz = 16384 := rfl
  apply unpack16_congr
  intro i hi
  rw [Nat.zero_add, withTail, if_pos (by omega), h i (by omega)]

/-- What does not start like a tree block reads back as it was written. -/
theorem held_after {c : Mem} {ctx0 ctx1 ctx : GefsCtx} {bp : GefsBptr} (hok : CtxOk ctx0)
    (hw : writedat ctx0 c = (some bp, ctx1)) (ha : After ctx1 bp ctx)
    (h1 : unpack16 c 0 ≠ gefsTpivot) (h2 : unpack16 c 0 ≠ gefsTleaf) :
    Held ctx bp.addr (Shows c) := by
  rcases writedat_spec hok c with ⟨-, he⟩ | ⟨a, as, -, -, he⟩ | ⟨bp', ctx1', hd, he⟩
  · simp [he] at hw
  · simp [he] at hw
  · obtain ⟨rfl, rfl⟩ : bp' = bp ∧ ctx1' = ctx1 := by simpa [he] using hw
    rcases ha.cache with hc | hc
    · obtain ⟨b, hb, hr, hq⟩ := hd.block
      exact .inl ⟨b, hc.trans hb, hr, hq.shows⟩
    · obtain ⟨m, m', hm, hm', hmm⟩ := ha.disk
      obtain ⟨buf, hbuf, hbc⟩ := hd.disk
      obtain ⟨w, hw1, hw2⟩ := @pread_pwrite_self ctx0.disk _ buf hd.nonneg
      rw [← hbuf, hm] at hw1
      obtain rfl := Option.some.inj hw1
      have hmc : ∀ i < gefsBlksz, m' i = c i := fun i hi => by
        rw [hmm i hi, hw2 i hi, hbc i hi]
      refine .inr ⟨fun b hb => absurd (hc.symm.trans hb) (by simp), m', hm', fun i => ?_⟩
      have hu := unpack16_withTail hmc (ctx.heap i)
      obtain ⟨hd0, hb0⟩ := parseBlk_of_ne (by rw [hu]; exact h1) (by rw [hu]; exact h2)
      intro j hj
      rw [hd0, hb0, Nat.zero_add, withTail, if_pos hj, hmc j hj]

/-! ## A block that starts like a tree block -/

section Reopened

variable (c : Mem)

/-- A file system with one free block, the heap filled with a byte that is not the last of `c`. -/
def oneBlock : GefsCtx :=
  { disk := ⟨0, fun _ => 0⟩
    sb := ⟨16384, 0, 1, zeroTree, 0, 0, 0, 0, []⟩
    cache := gefsCacheInit 1
    snapTree := zeroTree
    activeTree := { zeroTree with ht := 1, bp := ⟨16384, 0, 0⟩ }
    arenas := [⟨0, 0, 0, ⟨0, 0, 0⟩, [⟨0, 16384⟩]⟩]
    dirty := false
    readonly := false
    heap := fun _ _ => c 16383 + 1
    nblk := 0 }

/-- The entries of a tree with one file, whose first block is at `bp`. -/
def oneFile (bp : GefsBptr) : List GefsKvp := [(packdatkey 0 0, gefsPackbp bp)]

theorem fits_oneFile (bp : GefsBptr) : Fits (oneFile bp) := by
  simp [Fits, oneFile, kvSize, packdatkey, gefsLeafspc, gefsBlksz, gefsLeafhdsz]

variable {c}

/-- The last byte of the block comes from past it, where its data does not start at 0. -/
theorem shows_shifted {m : Mem} (hm : ∀ i < gefsBlksz, m i = c i)
    (h : unpack16 c 0 = gefsTpivot ∨ unpack16 c 0 = gefsTleaf) (i : ℕ) :
    Shows (fun j => if j = 16383 then c 16383 + 1
        else withTail m ((oneBlock c).heap i) ((parseBlk c).data + j))
      (parseBlk (withTail m ((oneBlock c).heap i))) := by
  have hbs : gefsBlksz = 16384 := rfl
  have hu := unpack16_withTail hm ((oneBlock c).heap i)
  have hdata : (parseBlk (withTail m ((oneBlock c).heap i))).data = (parseBlk c).data := by
    unfold parseBlk
    rw [hu]
    dsimp only
    split_ifs <;> rfl
  have hbuf : (parseBlk (withTail m ((oneBlock c).heap i))).buf
      = withTail m ((oneBlock c).heap i) := by
    unfold parseBlk
    dsimp only
    split_ifs <;> rfl
  have h6 : 6 ≤ (parseBlk c).data := by
    unfold parseBlk
    rcases h with h | h <;> rw [h]
    · rw [if_neg (by decide), if_pos rfl]
      exact (by decide : 6 ≤ gefsPivhdsz)
    · rw [if_pos rfl]
      exact (by decide : 6 ≤ gefsLeafhdsz)
  intro j hj
  rw [hdata, hbuf]
  dsimp only
  split_ifs with hj0
  · rw [withTail, if_neg (by omega)]
    rfl
  · rfl

theorem not_transparent (h : unpack16 c 0 = gefsTpivot ∨ unpack16 c 0 = gefsTleaf) :
    ¬ Transparent c := by
  have hbs : gefsBlksz = 16384 := rfl
  intro htr
  have hok0 : CtxOk (oneBlock c) := ⟨List.nodup_nil, by simp [oneBlock, gefsCacheInit], by
    simp [oneBlock, gefsCacheInit]⟩
  have halloc : nextAlloc (oneBlock c) = some (0, [⟨0, 0, 0 + 16384, ⟨0, 0, 0⟩, []⟩]) := rfl
  rcases writedat_spec hok0 c with ⟨h0, -⟩ | ⟨a, as, h0, hneg, -⟩ | ⟨bp, ctx1, hd, hw⟩
  · simp [halloc] at h0
  · rw [halloc] at h0
    obtain ⟨rfl, -⟩ : (0 : Int64) = a ∧ _ := by simpa using h0
    exact absurd hneg (by decide)
  · have hbp : bp.addr = 0 := by
      have := halloc.symm.trans hd.alloc
      simp only [Option.some.injEq, Prod.mk.injEq] at this
      exact this.1.symm
    obtain ⟨buf, hbuf, hbc⟩ := hd.disk
    obtain ⟨w, hw1, hw2⟩ := @pread_pwrite_self (oneBlock c).disk _ buf hd.nonneg
    rw [← hbuf] at hw1
    obtain ⟨lf, hlf⟩ := exists_leafBytes (fits_oneFile bp)
    have hap : Apart bp.addr 16384 := by rw [hbp]; decide
    obtain ⟨w', hw1', hw2'⟩ := @pread_pwrite_of_apart _ _ _ lf _ hap hw1
    have hwc : ∀ i < gefsBlksz, w' i = c i := fun i hi => by
      rw [hw2' i hi, hw2 i hi, hbc i hi]
    -- the image opened afresh
    let ctx : GefsCtx :=
      { oneBlock c with disk := ctx1.disk.pwrite 16384 lf }
    have hnone : ∀ x, ctx.cache.find x = none := fun x => rfl
    have hafter : After ctx1 bp ctx := ⟨hok0, .inr (hnone _), w, w', hw1, hw1', hw2'⟩
    have htree : TreeHolds ctx (ctx.tree .active) (oneFile bp) := by
      have hroot : ctx.disk.Has 16384 lf := has_pwrite_self (by decide)
      refine ⟨rfl, held_of_leafBytes (hnone _) hroot hlf, ?_, ?_⟩
      · exact List.pairwise_singleton _ _
      · simp [Small, oneFile, packdatkey, gefsKvmax, gefsKeymax, gefsInlmax]
    have hblk : BlockShows ctx (oneFile bp) 0 0 (fun j => if j = 16383 then c 16383 + 1
        else withTail w' ((oneBlock c).heap 0) ((parseBlk c).data + j)) := by
      have hlook : look (oneFile bp) (packdatkey 0 (UInt64.ofNat 0)) = some (gefsPackbp bp) := by
        simp [oneFile, look]
      unfold BlockShows
      rw [hlook]
      refine ⟨bp, valBptr_gefsPackbp bp, .inr ⟨fun b hb => absurd hb (by simp [hnone]), w', hw1',
        fun i => ?_⟩⟩
      exact shows_shifted hwc h i
    let d : GefsXdir := { zeroXdir with length := 16384 }
    obtain ⟨ctx', hr⟩ := htr (oneBlock c) ctx1 ctx bp hok0 hw hafter .active (oneFile bp) d 0 16383
      1 htree (by simp [oneFile, look, d, zeroXdir]) rfl (by omega) (by decide) (by decide)
    obtain ⟨ctx'', hr'⟩ := run_gefsReadFile_block (d := d) (j := 16383) (n := 1) hafter.ok htree
      hblk rfl (by omega) (by decide) (by decide)
    rw [hr] at hr'
    simp only [load, if_true, Option.some.injEq, Prod.mk.injEq, List.cons.injEq, and_true] at hr'
    have hn := congrArg UInt8.toNat hr'.1
    rw [UInt8.toNat_add] at hn
    have := (c 16383).toNat_lt
    have h1 : (1 : UInt8).toNat = 1 := rfl
    omega

end Reopened

/-- A data block reads the same from the cache and from the disk exactly if its first two bytes are
not the type of a pivot or of a leaf. -/
theorem transparent_iff (c : Mem) :
    Transparent c ↔ unpack16 c 0 ≠ gefsTpivot ∧ unpack16 c 0 ≠ gefsTleaf := by
  constructor
  · intro h
    by_contra hc
    rw [not_and_or, not_not, not_not] at hc
    exact not_transparent hc h
  · rintro ⟨h1, h2⟩ ctx0 ctx1 ctx bp hok hw ha t es d o j n hh hlook ho hj hl hd
    have hb : BlockShows ctx es d.qid.path o c := by
      unfold BlockShows
      rw [hlook]
      exact ⟨bp, valBptr_gefsPackbp bp, held_after hok hw ha h1 h2⟩
    exact run_gefsReadFile_block ha.ok hh hb ho hj hl hd

/-- The two bytes 0, 1 and zeros: such a block is taken for a pivot. -/
theorem not_transparent_pivot : ¬ Transparent (store (fun _ => 0) 0 [0, 1]) :=
  not_transparent (.inl (by decide))

end GefsFuse
