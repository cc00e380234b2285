import GefsFuse.Proofs.Upsert
import GefsFuse.Mount

/-!
# The calls on a tree of one leaf

`TreeHolds ctx t es` says that the tree `t` reads as the entries `es`. Reads keep it, and each call
answers from `es`; an update moves it to the merge, or refuses and keeps it.
-/

namespace GefsFuse

open ByteMem SortedMap Calls

/-- `t` is one leaf with the entries `es`, in order and each short enough for the buffers. -/
structure TreeHolds (ctx : GefsCtx) (t : GefsTree) (es : List GefsKvp) : Prop where
  ht : t.ht = 1
  root : Held ctx t.bp.addr (IsLeaf es)
  asc : Ascending es
  small : Small es

theorem TreeHolds.keeps {ctx ctx' : GefsCtx} {t : GefsTree} {es : List GefsKvp}
    (h : TreeHolds ctx t es) (hk : Keeps ctx ctx') : TreeHolds ctx' t es :=
  ⟨h.ht, hk.held _ _ h.root, h.asc, h.small⟩

theorem Keeps.tree {ctx ctx' : GefsCtx} (h : Keeps ctx ctx') (t : TreeRef) :
    ctx'.tree t = ctx.tree t := by
  cases t
  · exact h.activeTree
  · exact h.snapTree

theorem lookAns_small {es : List GefsKvp} (hs : Small es) (k : Bytes) :
    lookAns es k gefsKvmax = some ((look es k).map (k, ·)) := by
  unfold lookAns
  rcases h : look es k with _ | v
  · rfl
  · have := hs (k, v) (mem_of_look h)
    simp only [gefsCpkvp, if_pos this, Option.map_some]

section Steps

variable {ctx : GefsCtx} {t : TreeRef} {es : List GefsKvp} (hok : CtxOk ctx)
  (hh : TreeHolds ctx (ctx.tree t) es)
include hok hh

theorem step_btlookup (k : Bytes) :
    ∃ ctx', Keeps ctx ctx'
      ∧ sysStep (.btlookup t k) ctx = some ((look es k).map (k, ·), ctx') := by
  obtain ⟨ctx', hk, he⟩ := gefsBtlookup_leaf hok hh.ht hh.root hh.asc k gefsKvmax
  refine ⟨ctx', hk, ?_⟩
  rw [lookAns_small hh.small] at he
  exact he

theorem step_btscan (hn : es.length < 16384) {pfx : Bytes} (hpx : pfx.length ≤ gefsKeymax)
    (stop : List GefsKvp → Bool) :
    ∃ ctx', Keeps ctx ctx'
      ∧ sysStep (.btscan t pfx stop) ctx
        = some (upTo stop (es.filter fun kv => pfx.isPrefixOf kv.1), ctx') :=
  gefsScan_leaf hok hh.ht hh.root hh.asc hh.small hn hpx stop

end Steps

theorem step_getblk {ctx : GefsCtx} (hok : CtxOk ctx) {bp : GefsBptr} {Q : Content → Prop}
    (hh : Held ctx bp.addr Q) :
    ∃ c ctx', Keeps ctx ctx' ∧ Q c ∧ sysStep (.getblk bp) ctx = some (some c, ctx') := by
  obtain ⟨hk, hr⟩ := touchBlk_spec hok bp
  obtain ⟨b, hb, hq⟩ := hr _ hh
  refine ⟨b.toContent, (touchBlk ctx bp).2, hk, hq, ?_⟩
  unfold touchBlk at hb ⊢
  simp only [sysStep]
  rcases hg : gefsGetblk ctx bp with ⟨_ | b', ctx1⟩ <;> rw [hg] at hb
  · simp at hb
  · obtain rfl : b' = b := by simpa using hb
    rfl

/-! ## Reading a file -/

/-- The block reads as `f` from its data on. -/
def Shows (f : Mem) (c : Content) : Prop := ∀ i < gefsBlksz, c.buf (c.data + i) = f i

theorem IsDat.shows {m : Mem} {c : Content} (h : IsDat m c) : Shows m c := by
  intro i hi
  rw [h.1, Nat.zero_add, h.2 i hi]

/-- The block of file `q` at `o` reads as `f`: a hole as zeros. -/
def BlockShows (ctx : GefsCtx) (es : List GefsKvp) (q : UInt64) (o : ℕ) (f : Mem) : Prop :=
  match look es (packdatkey q (UInt64.ofNat o)) with
  | none => ∀ i < gefsBlksz, f i = 0
  | some v => ∃ bp, valBptr v = some bp ∧ Held ctx bp.addr (Shows f)

theorem BlockShows.keeps {ctx ctx' : GefsCtx} {es : List GefsKvp} {q : UInt64} {o : ℕ} {f : Mem}
    (h : BlockShows ctx es q o f) (hk : Keeps ctx ctx') : BlockShows ctx' es q o f := by
  unfold BlockShows at h ⊢
  split
  · rename_i hl
    rw [hl] at h
    exact h
  · rename_i v hl
    rw [hl] at h
    obtain ⟨bp, h1, h2⟩ := h
    exact ⟨bp, h1, hk.held _ _ h2⟩

/-- The bytes of one block that a read asks for. -/
theorem run_readBlock {ctx : GefsCtx} {es : List GefsKvp} {q : UInt64} {o : ℕ} {f : Mem}
    (hok : CtxOk ctx) (hb : BlockShows ctx es q o f) {j n : ℕ} (hj : j + n ≤ gefsBlksz)
    (k : Bytes) :
    ∃ ctx', Keeps ctx ctx' ∧
      run sysStep (readBlock ((look es (packdatkey q (UInt64.ofNat o))).map (k, ·)) j n) ctx
        = some (load f j n, ctx') := by
  unfold BlockShows at hb
  rcases hl : look es (packdatkey q (UInt64.ofNat o)) with _ | v <;> rw [hl] at hb
  · refine ⟨ctx, Keeps.refl hok, ?_⟩
    have hz : List.replicate n (0 : UInt8) = load f j n := by
      apply List.ext_getElem?
      intro i
      rw [getElem?_load, List.getElem?_replicate]
      split_ifs with hi
      · rw [hb (j + i) (by omega)]
      · rfl
    simp [readBlock, hz]
  · obtain ⟨bp, hbp, hh⟩ := hb
    obtain ⟨c, ctx', hk, hq, hs⟩ := step_getblk hok hh
    refine ⟨ctx', hk, ?_⟩
    have hld : load c.buf (c.data + j) n = load f j n :=
      load_congr fun i hi => by rw [Nat.add_assoc, hq (j + i) (by omega)]
    simp only [readBlock, Option.map_some, hbp, Prog.ofOption_some, Prog.ret_bind, Prog.one_bind]
    rw [run_call _ hs]
    simp [hld]

/-- The block an offset lies in, and the place there. -/
theorem ofNat_blk {off : ℕ} (h : off < 2 ^ 64) :
    (UInt64.ofNat off % 16384).toNat = off % 16384
      ∧ UInt64.ofNat off / 16384 * 16384 = UInt64.ofNat (off / 16384 * 16384) := by
  have hsz : UInt64.size = 2 ^ 64 := rfl
  refine ⟨?_, UInt64.toNat_inj.1 ?_⟩
  · rw [UInt64.toNat_mod, UInt64.toNat_ofNat_of_lt' (by omega)]
    rfl
  · rw [UInt64.toNat_mul, UInt64.toNat_div, UInt64.toNat_ofNat_of_lt' (by omega),
      UInt64.toNat_ofNat_of_lt' (by omega)]
    show off / 16384 * 16384 % 2 ^ 64 = _
    omega

/-- A read of the bytes from `off` on, block by block. -/
theorem run_readLoop {t : TreeRef} {es : List GefsKvp} {q : UInt64} {f : Mem} :
    ∀ (fuel size off : ℕ) (ctx : GefsCtx), CtxOk ctx → TreeHolds ctx (ctx.tree t) es →
      size ≤ fuel → off + size ≤ 2 ^ 63 →
      (∀ o, o % 16384 = 0 → o < off + size → off < o + 16384 →
        BlockShows ctx es q o fun i => f (o + i)) →
      ∃ ctx', Keeps ctx ctx'
        ∧ run sysStep (readLoop t q fuel size (UInt64.ofNat off)) ctx
          = some (load f off size, ctx')
  | 0, size, off, ctx, hok, hh, hf, ho, hb => by
    obtain rfl : size = 0 := by omega
    exact ⟨ctx, Keeps.refl hok, rfl⟩
  | fuel + 1, size, off, ctx, hok, hh, hf, ho, hb => by
    have hbs : gefsBlksz = 16384 := rfl
    unfold readLoop
    split_ifs with h0
    · subst h0
      exact ⟨ctx, Keeps.refl hok, rfl⟩
    · obtain ⟨e1, e2⟩ := @ofNat_blk off (by omega)
      simp only [e1, e2, hbs, Prog.one_bind]
      obtain ⟨ctx1, hk1, hs⟩ := step_btlookup hok hh
        (packdatkey q (UInt64.ofNat (off / 16384 * 16384)))
      rw [run_call _ hs]
      have hb1 := (hb (off / 16384 * 16384) (by omega) (by omega) (by omega)).keeps hk1
      set n := min (16384 - off % 16384) size with hn
      obtain ⟨ctx2, hk2, hr⟩ := run_readBlock hk1.ok hb1 (j := off % 16384) (n := n) (by omega)
        (packdatkey q (UInt64.ofNat (off / 16384 * 16384)))
      rw [run_bind, hr, Option.bind_some, ← UInt64.ofNat_add]
      have hk12 := hk1.trans hk2
      obtain ⟨ctx3, hk3, hr3⟩ := run_readLoop fuel (size - n) (off + n) ctx2 hk2.ok
        (by rw [hk12.tree]; exact hh.keeps hk12) (by omega) (by omega)
        (fun o h1 h2 h3 => (hb o h1 (by omega) (by omega)).keeps hk12)
      refine ⟨ctx3, hk12.trans hk3, ?_⟩
      rw [run_bind, hr3]
      have hld : load (fun i => f (off / 16384 * 16384 + i)) (off % 16384) n = load f off n :=
        load_congr fun i _ => congrArg f (by omega)
      simp only [Option.bind_some, run_ret, hld, ← load_add]
      congr 3
      omega

/-- A read of what the blocks of a file show, cut at its length. -/
theorem run_gefsReadFile {t : TreeRef} {es : List GefsKvp} {f : Mem} {d : GefsXdir} {ctx : GefsCtx}
    (hok : CtxOk ctx) (hh : TreeHolds ctx (ctx.tree t) es) {size off : ℕ}
    (hl : d.length.toNat < 2 ^ 63) (ho : off + size < 2 ^ 63)
    (hb : ∀ o, o % 16384 = 0 → o < off + size → off < o + 16384 → o < d.length.toNat →
      BlockShows ctx es d.qid.path o fun i => f (o + i)) :
    ∃ ctx', Keeps ctx ctx'
      ∧ run sysStep (gefsReadFile t d (UInt64.ofNat size) (Int64.ofNat off)) ctx
        = some (load f off (min size (d.length.toNat - off)), ctx') := by
  have hsz : UInt64.size = 2 ^ 64 := rfl
  have hoff : (Int64.ofNat off).toUInt64 = UInt64.ofNat off := rfl
  have e1 : (d.length.toInt64 ≤ Int64.ofNat off) ↔ d.length.toNat ≤ off := by
    rw [Int64.le_iff_toInt_le, Int64.toInt_ofNat_of_lt (by omega)]
    have : d.length.toInt64.toInt = d.length.toNat := by
      rw [← Int64.toInt_ofNat_of_lt (n := d.length.toNat) (by omega)]
      congr 1
      exact (congrArg UInt64.toInt64 (UInt64.ofNat_toNat (x := d.length))).symm
    omega
  have e2 : (d.length < UInt64.ofNat off + UInt64.ofNat size) ↔ d.length.toNat < off + size := by
    rw [← UInt64.ofNat_add, UInt64.lt_iff_toNat_lt, UInt64.toNat_ofNat_of_lt' (by omega)]
  unfold gefsReadFile
  simp only [hoff, e1, e2]
  split_ifs with h1 h2
  · have h0 : min size (d.length.toNat - off) = 0 := by omega
    rw [h0]
    exact ⟨ctx, Keeps.refl hok, rfl⟩
  · have h3 : (d.length - UInt64.ofNat off).toNat = min size (d.length.toNat - off) := by
      have hle : UInt64.ofNat off ≤ d.length := by
        rw [UInt64.le_iff_toNat_le, UInt64.toNat_ofNat_of_lt' (by omega)]
        omega
      rw [UInt64.toNat_sub_of_le _ _ hle, UInt64.toNat_ofNat_of_lt' (by omega)]
      omega
    rw [h3]
    exact run_readLoop _ _ off ctx hok hh le_rfl (by omega) fun o h4 h5 h6 =>
      hb o h4 (by omega) h6 (by omega)
  · have h3 : (UInt64.ofNat size).toNat = min size (d.length.toNat - off) := by
      rw [UInt64.toNat_ofNat_of_lt' (by omega)]
      omega
    rw [h3]
    exact run_readLoop _ _ off ctx hok hh le_rfl (by omega) fun o h4 h5 h6 =>
      hb o h4 (by omega) h6 (by omega)

end GefsFuse
