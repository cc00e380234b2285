import GefsFuse.Proofs.Catalog

/-!
# Mounting a blank image

`load_arena` reads an arena header two bytes off, so the address it takes for the log is the one
written divided by 2^16. On a small image this points into the superblock's own block. With zeros
behind each block in memory, that block replays as releases of nothing at 0, and the allocator then
hands out 0, 16384, 32768 and so on.
-/

namespace GefsFuse

open ByteMem SortedMap Calls

/-! ## Zeros as a log -/

theorem unpack64_zero {m : Mem} {o : ℕ} (h : ∀ i < 8, m (o + i) = 0) : unpack64 m o = 0 := by
  have h1 : unpack64 m o = unpack64 (fun _ => 0) o := unpack64_congr h
  rw [h1]
  have h2 : load (fun _ => 0) o 8 = [0, 0, 0, 0, 0, 0, 0, 0] := rfl
  rw [unpack64, h2]
  rfl

theorem unpack16_zero {m : Mem} {o : ℕ} (h : ∀ i < 2, m (o + i) = 0) : unpack16 m o = 0 := by
  have h1 : unpack16 m o = unpack16 (fun _ => 0) o := unpack16_congr h
  rw [h1]
  have h2 : load (fun _ => 0) o 2 = [0, 0] := rfl
  rw [unpack16, h2]
  rfl

theorem logEntry_zero {m : Mem} {i : ℕ} (h : ∀ j, i ≤ j → m j = 0) (fl : List GefsRange) :
    logEntry m i fl = ⟨0, 0⟩ :: fl ∧ logStep (unpack64 m i) = 16 := by
  have h1 : unpack64 m i = 0 := unpack64_zero fun j _ => h _ (by omega)
  have h2 : unpack64 m (i + 8) = 0 := unpack64_zero fun j _ => h _ (by omega)
  unfold logEntry
  rw [h1, h2]
  exact ⟨rfl, rfl⟩

/-- A log that ends in zeros leaves the empty range at 0 in front. -/
theorem replayLog_zeros {m : Mem} {z logsz : ℕ} (hz : ∀ j, z ≤ j → m j = 0) (hl : z + 16 ≤ logsz)
    (i : ℕ) (fl : List GefsRange) (hi : i < logsz) :
    ∃ rest, replayLog m logsz i fl = ⟨0, 0⟩ :: rest := by
  induction i, fl using replayLog.induct m logsz with
  | case1 i fl _ ih =>
    rw [replayLog, if_pos hi]
    by_cases hzi : z ≤ i
    · obtain ⟨he, hs⟩ := @logEntry_zero m i (fun j hj => hz j (by omega)) fl
      rw [hs, he]
      by_cases hend : i + 16 < logsz
      · have := ih (by rw [hs]; exact hend)
        rw [hs, he] at this
        exact this
      · rw [replayLog, if_neg hend]
        exact ⟨fl, rfl⟩
    · refine ih ?_
      have : logStep (unpack64 m i) ≤ 16 := by
        unfold logStep
        split <;> omega
      omega
  | case2 i fl hn => exact absurd hi hn

/-! ## The chain of log blocks -/

theorem loadChain_succ (fuel : ℕ) (ctx : GefsCtx) (bp : GefsBptr) (fl : List GefsRange) :
    loadChain (fuel + 1) ctx bp fl = if bp.addr = -1 then some (fl, ctx)
      else match touchBlk ctx bp with
        | (none, ctx) => some (fl, ctx)
        | (some b, ctx) => loadChain fuel ctx (gefsUnpackbp b.buf 12)
            (replayLog (fun i => b.buf (b.data + i)) (unpack16 b.buf 2) 0 fl) := by
  unfold touchBlk
  rw [loadChain]
  split_ifs
  · rfl
  · rcases gefsGetblk ctx bp with ⟨_ | b, ctx1⟩ <;> rfl

/-- No block can be had from `x`. -/
structure Absent (ctx : GefsCtx) (x : Int64) : Prop where
  find : ctx.cache.find x = none
  pread : ctx.disk.pread x = none

section Absent

variable {ctx : GefsCtx} {x : Int64} (hok : CtxOk ctx) (h : Absent ctx x) (bp : GefsBptr)
include hok h

theorem Absent.touchBlk : Absent (touchBlk ctx bp).2 x := by
  have hev : ctx.cache.evict.find x = none := by
    rcases find_evict hok x with he | ⟨he, -⟩
    · exact he.trans h.find
    · exact he
  rcases touchBlk_cases ctx bp hok with ⟨b, lru, hf, he⟩ | ⟨hf, hp, he⟩
    | ⟨m, b, c, hf, hp, hc, hid, hbp, hbl, he⟩ <;> rw [he]
  · exact ⟨h.find, h.pread⟩
  · exact ⟨hev, h.pread⟩
  · refine ⟨?_, h.pread⟩
    have hne : b.bp.addr ≠ x := by
      rw [hbp]
      rintro rfl
      rw [h.pread] at hp
      exact absurd hp (by simp)
    have hfind := find_cons hbl x
    dsimp only at hfind
    rw [if_neg hne] at hfind
    exact hfind.trans hev

theorem Absent.touchBlk_eq (hx : bp.addr = x) : (GefsFuse.touchBlk ctx bp).1 = none := by
  subst hx
  rcases touchBlk_cases ctx bp hok with ⟨b, lru, hf, he⟩ | ⟨hf, hp, he⟩
    | ⟨m, b, c, hf, hp, hc, hid, hbp, hbl, he⟩
  · rw [h.find] at hf
    exact absurd hf (by simp)
  · rw [he]
  · rw [h.pread] at hp
    exact absurd hp (by simp)

end Absent

/-- What the chain needs of the superblock's block: a size, a next block that is not to be had, and
zeros behind its first bytes. -/
structure SuperLog (far : Int64) (c : Content) : Prop where
  logsz : 4096 ≤ unpack16 c.buf 2
  next : (gefsUnpackbp c.buf 12).addr = far
  zeros : ∀ j, 1024 ≤ j → c.buf (c.data + j) = 0

/-- A block of zeros as a log block: empty, and the next one is at 0. -/
structure ZeroLog (c : Content) : Prop where
  logsz : unpack16 c.buf 2 = 0
  next : (gefsUnpackbp c.buf 12).addr = 0

section Chain

variable {ctx : GefsCtx} {far : Int64} (hok : CtxOk ctx) (hfar : Absent ctx far) (hne : far ≠ -1)
  (h0 : Held ctx 0 (SuperLog far)) (fl : List GefsRange)
include hok hfar hne h0

theorem loadChain_super {bp : GefsBptr} (hbp : bp.addr = 0) (fuel : ℕ) :
    ∃ rest ctx', Keeps ctx ctx' ∧ Absent ctx' far
      ∧ loadChain (fuel + 2) ctx bp fl = some (⟨0, 0⟩ :: rest, ctx') := by
  obtain ⟨hk, hr⟩ := touchBlk_spec hok bp
  rw [← hbp] at h0
  obtain ⟨b, hb, hq⟩ := hr _ h0
  have hfar1 := hfar.touchBlk hok bp
  rcases ht : touchBlk ctx bp with ⟨r, ctx1⟩
  rw [ht] at hk hb hfar1
  dsimp only at hk hb hfar1
  subst hb
  have hlog := hq.logsz
  obtain ⟨rest, hrest⟩ := replayLog_zeros hq.zeros (by omega : 1024 + 16 ≤ unpack16 b.buf 2) 0 fl
    (by omega)
  have hk2 := (touchBlk_spec hk.ok (gefsUnpackbp b.buf 12)).1
  have hnone := hfar1.touchBlk_eq hk.ok (gefsUnpackbp b.buf 12) hq.next
  have hfar2 := hfar1.touchBlk hk.ok (gefsUnpackbp b.buf 12)
  refine ⟨rest, _, hk.trans hk2, hfar2, ?_⟩
  have h1 : bp.addr ≠ -1 := by rw [hbp]; decide
  have h2 : (gefsUnpackbp b.buf 12).addr ≠ -1 := by rw [hq.next]; exact hne
  rw [loadChain_succ, if_neg h1, ht]
  dsimp only
  rw [hrest, loadChain_succ, if_neg h2]
  rcases ht2 : touchBlk ctx1 (gefsUnpackbp b.buf 12) with ⟨_ | b2, ctx2⟩
  · rfl
  · rw [ht2] at hnone
    exact absurd hnone (by simp)

/-- From a block of zeros, or from the superblock at once. -/
theorem loadChain_blank {bp : GefsBptr} (hx : bp.addr = 0 ∨ Held ctx bp.addr ZeroLog)
    (hm : bp.addr ≠ -1) :
    ∃ rest ctx', Keeps ctx ctx' ∧ Absent ctx' far
      ∧ loadChain 3 ctx bp fl = some (⟨0, 0⟩ :: rest, ctx') := by
  rcases hx with hx | hx
  · exact loadChain_super hok hfar hne h0 fl hx 1
  · obtain ⟨hk, hr⟩ := touchBlk_spec hok bp
    obtain ⟨b, hb, hq⟩ := hr _ hx
    have hfar1 := hfar.touchBlk hok bp
    rcases ht : touchBlk ctx bp with ⟨r, ctx1⟩
    rw [ht] at hk hb hfar1
    dsimp only at hk hb hfar1
    subst hb
    have hnil : replayLog (fun i => b.buf (b.data + i)) 0 0 fl = fl := by
      rw [replayLog, if_neg (by omega)]
    obtain ⟨rest, ctx2, hk2, hfar2, he⟩ := loadChain_super hk.ok hfar1 hne (hk.held _ _ h0) fl
      hq.next 0
    refine ⟨rest, ctx2, hk.trans hk2, hfar2, ?_⟩
    rw [loadChain_succ, if_neg hm, ht]
    dsimp only
    rw [hq.logsz, hnil, he]

end Chain

/-- The log head taken from an arena header is 0 or a block of zeros. -/
def BlankHdr (ctx : GefsCtx) (c : Content) : Prop :=
  (gefsUnpackbp c.buf (c.data + 32)).addr ≠ -1
    ∧ ((gefsUnpackbp c.buf (c.data + 32)).addr = 0
      ∨ Held ctx (gefsUnpackbp c.buf (c.data + 32)).addr ZeroLog)

theorem loadArena_blank {ctx : GefsCtx} {far : Int64} (hok : CtxOk ctx) (hfar : Absent ctx far)
    (hne : far ≠ -1) (h0 : Held ctx 0 (SuperLog far)) {bp : GefsBptr}
    (hh : Held ctx bp.addr (BlankHdr ctx)) :
    ∃ a rest ctx', Keeps ctx ctx' ∧ Absent ctx' far ∧ a.freeList = ⟨0, 0⟩ :: rest
      ∧ loadArena 3 ctx bp = some (a, ctx') := by
  obtain ⟨hk, hr⟩ := touchBlk_spec hok bp
  obtain ⟨b, hb, hm, hq⟩ := hr _ hh
  have hfar1 := hfar.touchBlk hok bp
  unfold loadArena
  unfold touchBlk at hk hb hfar1
  rcases hg : gefsGetblk ctx bp with ⟨_ | b', ctx1⟩ <;> rw [hg] at hk hb hfar1
  · exact absurd hb (by simp)
  · obtain rfl : b' = b := by simpa using hb
    have hq1 := hq.imp_right fun h => hk.held _ _ h
    obtain ⟨rest, ctx2, hk2, hfar2, he⟩ := loadChain_blank hk.ok hfar1 hne (hk.held _ _ h0) [] hq1 hm
    dsimp only at he ⊢
    rw [he]
    exact ⟨_, rest, ctx2, hk.trans hk2, hfar2, rfl, rfl⟩

theorem loadArenas_blank {far : Int64} (hne : far ≠ -1) : ∀ (bps : List GefsBptr) {ctx : GefsCtx},
    CtxOk ctx → Absent ctx far → Held ctx 0 (SuperLog far) →
    (∀ bp ∈ bps, Held ctx bp.addr (BlankHdr ctx)) →
    ∃ as ctx', Keeps ctx ctx' ∧ (∀ a ∈ as, ∃ rest, a.freeList = ⟨0, 0⟩ :: rest)
      ∧ as.length = bps.length ∧ loadArenas 3 bps ctx = some (as, ctx')
  | [], ctx, hok, _, _, _ => ⟨[], ctx, .refl hok, by simp, rfl, rfl⟩
  | bp :: bps, ctx, hok, hfar, h0, hh => by
    obtain ⟨a, rest, ctx1, hk1, hfar1, hfl, he1⟩ := loadArena_blank hok hfar hne h0
      (hh bp (List.mem_cons_self ..))
    have hh1 : ∀ bp ∈ bps, Held ctx1 bp.addr (BlankHdr ctx1) := fun bp hbp =>
      (hk1.held _ _ (hh bp (List.mem_cons_of_mem _ hbp))).imp fun c hc =>
        ⟨hc.1, hc.2.imp_right fun h => hk1.held _ _ h⟩
    obtain ⟨as, ctx2, hk2, has, hlen, he2⟩ := loadArenas_blank hne bps hk1.ok hfar1
      (hk1.held _ _ h0) hh1
    refine ⟨a :: as, ctx2, hk1.trans hk2, ?_, by simp [hlen], ?_⟩
    · intro x hx
      rcases List.mem_cons.1 hx with rfl | hx
      · exact ⟨rest, hfl⟩
      · exact has x hx
    · simp only [loadArenas, he1, he2, Option.bind_eq_bind, Option.bind_some]

/-! ## The formatted image -/

/-- A block that is neither a leaf nor a pivot: its data is the whole of it. -/
theorem parseBlk_raw {w : Mem} {t : ℕ} (h : unpack16 w 0 = t) (h1 : t ≠ 1) (h2 : t ≠ 2) :
    parseBlk w = ⟨t, 0, 0, 0, 0, 0, 0, w⟩ := by
  have hl : ¬ t = gefsTleaf := h2
  have hp : ¬ t = gefsTpivot := h1
  unfold parseBlk
  simp only [h, if_neg hl, if_neg hp]

/-- The head of a superblock, as far as a chain of log blocks reads it. -/
theorem at_packSbBlock_head (n : ℕ) (tb : GefsBptr) (bps : List GefsBptr) :
    At (packSbBlock (reamSuper n tb bps)) 0 magic
      ∧ At (packSbBlock (reamSuper n tb bps)) 12 (pack32 8187 ++ pack32 (Int32.ofNat n).toUInt32) := by
  have h := (@at_packSbBlock (reamSuper n tb bps)).1
  unfold sbPrefix at h
  generalize packSbBlock (reamSuper n tb bps) = m at h
  simp only [at_append, List.length_append, length_pack32] at h
  refine ⟨h.1.1.1.1.1.1.1.1.1.1.1.1.1.1.1, at_append.2 ⟨?_, ?_⟩⟩
  · exact h.1.1.1.1.1.1.1.1.1.1.1.1.1.2
  · exact h.1.1.1.1.1.1.1.1.1.1.1.1.2

/-- Where the chain through the superblock leads. -/
def farAddr : Int64 := Int64.ofNat (8187 * 2 ^ 32 + 8)

section Image

variable {d d' : Disk} {r a u tb : GefsBptr} {nu : ℕ} {bps : List GefsBptr}
  (hf : Formatted d d' r a u tb nu bps) (hn : reamNarena d.size = 8)
include hf hn

/-- The first block of the image, byte by byte. -/
theorem Formatted.byte {i : ℕ} (hi : i < 16384) :
    d'.byte i = packSbBlock (reamSuper 8 tb bps) i := by
  obtain ⟨m, hm, heq⟩ := hf.super
  rw [hn] at heq
  rw [← heq i hi]
  unfold Disk.pread at hm
  split_ifs at hm
  have h0 : (Int64.ofNat 0).toInt.toNat = 0 := rfl
  rw [← Option.some.inj hm, h0, Disk.window, Nat.zero_add]

theorem Formatted.byte_zero {i : ℕ} (h1 : 240 ≤ i) (h2 : i < 16384) : d'.byte i = 0 := by
  obtain ⟨hb1, hb2⟩ := reamNarena_bounds d.size
  have hlen := length_sbPrefix (superOk_ream (by omega) (by omega) tb (hf.length.trans hn))
  have h8 : (reamSuper 8 tb bps).arenabp.length = 8 := hf.length.trans hn
  rw [hf.byte hn h2]
  exact packSbBlock_of_ge (by omega)

theorem superLog_formatted : SuperLog farAddr (parseBlk (withTail (d'.window 0) fun _ => 0)) := by
  obtain ⟨hmag, hnar⟩ := at_packSbBlock_head 8 tb bps
  have hw : ∀ i < 16384, withTail (d'.window 0) (fun _ => 0) i
      = packSbBlock (reamSuper 8 tb bps) i := by
    intro i hi
    rw [withTail, if_pos (show i < gefsBlksz from hi), Disk.window, Nat.zero_add, hf.byte hn hi]
  have hz : ∀ j, 1024 ≤ j → withTail (d'.window 0) (fun _ => 0) j = 0 := by
    intro j hj
    unfold withTail
    split_ifs with hlt
    · rw [Disk.window, Nat.zero_add]
      exact hf.byte_zero hn (by omega) hlt
    · rfl
  generalize packSbBlock (reamSuper 8 tb bps) = sbm at hmag hnar hw
  generalize withTail (d'.window 0) (fun _ => 0) = w at hw hz
  have hmag' : At w 0 magic := hmag.congr fun i hi => hw _ (by
    have : magic.length = 8 := rfl
    omega)
  have hty : unpack16 w 0 = 26469 := by
    have h2 : At w 0 (pack16 (26469 : ℕ)) := (at_append.1 (show At w 0 (pack16 (26469 : ℕ) ++ _)
      from hmag')).1
    exact unpack16_at_nat h2 (by omega)
  have hsz : unpack16 w 2 = 26227 := by
    have h2 : At w 0 ([0x67, 0x65] ++ (pack16 (26227 : ℕ) ++ [0x39, 0x2e, 0x30, 0x30])) := hmag'
    exact unpack16_at_nat (at_append.1 (at_append.1 h2).2).1 (by omega)
  have hnx : unpack64 w 12 = 8187 * 2 ^ 32 + 8 := by
    refine unpack64_at (hnar.congr fun i hi => hw _ ?_)
    rw [List.length_append, length_pack32, length_pack32] at hi
    omega
  rw [parseBlk_raw (t := 26469) hty (by omega) (by omega)]
  refine ⟨?_, ?_, fun j hj => ?_⟩
  · show 4096 ≤ unpack16 w 2
    omega
  · show (unpack64 w 12).toInt64 = farAddr
    rw [hnx]
    rfl
  · show w (0 + j) = 0
    rw [Nat.zero_add]
    exact hz j hj

theorem zeroLog_formatted {y : ℕ} (h1 : 240 ≤ y) (h2 : y + 20 ≤ 16384) :
    ZeroLog (parseBlk (withTail (d'.window y) fun _ => 0)) := by
  have hw : ∀ i < 20, withTail (d'.window y) (fun _ => 0) i = 0 := by
    intro i hi
    have hlt : i < gefsBlksz := by
      have : gefsBlksz = 16384 := rfl
      omega
    rw [withTail, if_pos hlt, Disk.window]
    exact hf.byte_zero hn (by omega) (by omega)
  generalize withTail (d'.window y) (fun _ => 0) = w at hw
  have h16 : ∀ o, o + 2 ≤ 20 → unpack16 w o = 0 := by
    intro o ho
    exact unpack16_zero fun i hi => hw (o + i) (by omega)
  rw [parseBlk_raw (t := 0) (h16 0 (by omega)) (by omega) (by omega)]
  refine ⟨h16 2 (by omega), ?_⟩
  show (unpack64 w 12).toInt64 = 0
  rw [unpack64_zero fun i hi => hw (12 + i) (by omega)]
  rfl

end Image

/-- The address taken for the log head is the one written, divided by 2^16. -/
theorem unpack64_arenaHdr {size used : Int64} {loghd : GefsBptr} {m : Mem} {x : ℕ} (h : Int64)
    (hx : x < 2 ^ 63) (hl : loghd.addr = Int64.ofNat x)
    (hm : ∀ i < gefsBlksz, m i = (arenaHdr h size used loghd).buf i) :
    unpack16 m 0 = 6 ∧ unpack64 m 32 = UInt64.ofNat (x / 65536) := by
  have hbs : gefsBlksz = 16384 := rfl
  have hbuf := (arenaHdr_eq h size used loghd).1
  have h1 : At (arenaHdr h size used loghd).buf 0 (pack16 (6 : ℕ)) := by
    rw [hbuf]
    exact at_store _ _ _
  have h2 : At (arenaHdr h size used loghd).buf 2 (packarena size used loghd) := by
    rw [hbuf]
    exact (at_store _ _ _).store (by simp)
  have haddr : loghd.addr.toUInt64.toNat = x := by
    rw [hl]
    show (UInt64.ofNat x).toNat = x
    exact UInt64.toNat_ofNat_of_lt (by simp only [UInt64.size]; omega)
  simp only [packarena, gefsPackbp, at_append, List.length_append, pack64, haddr] at h2
  generalize (arenaHdr h size used loghd).buf = b at h1 h2 hm
  refine ⟨unpack16_at_nat (h1.congr fun i hi => hm _ (by simp at hi; omega)) (by omega), ?_⟩
  have hflag : At b 26 (be 8 0) := h2.1.2
  have hlog : At b 34 (be 8 x) := h2.2.1.1
  have hbe : be 8 x = be 6 (x / 256 / 256) ++ [UInt8.ofNat (x / 256)] ++ [UInt8.ofNat x] := rfl
  rw [hbe, at_append, at_append] at hlog
  have hpre : At b 26 ([0, 0, 0, 0, 0, 0] ++ [0, 0]) := hflag
  have hword : At m 32 ([0, 0] ++ be 6 (x / 256 / 256)) := by
    have hb : At b 32 ([0, 0] ++ be 6 (x / 256 / 256)) :=
      at_append.2 ⟨(at_append.1 hpre).2, hlog.1.1⟩
    refine hb.congr fun i hi => hm _ ?_
    simp at hi
    omega
  have hload : load m 32 8 = [0, 0] ++ be 6 (x / 256 / 256) := by simpa [At] using hword
  have hval : unbe ([0, 0] ++ be 6 (x / 256 / 256)) = x / 65536 := by
    have h0 : unbe ([0, 0] ++ be 6 (x / 256 / 256)) = unbe (be 6 (x / 256 / 256)) := by
      simp [unbe]
    rw [h0, unbe_be]
    omega
  rw [unpack64, hload, hval]

section Mount

variable {d d' : Disk} {r a u tb : GefsBptr} {nu : ℕ} {bps : List GefsBptr}
  (hf : Formatted d d' r a u tb nu bps) (hn : reamNarena d.size = 8)
  (hst : stride d.size = 16760832) (readonly : Bool) (sb : GefsSuper)
include hf

/-- A block of the image in a fresh context with zeros behind each block. -/
theorem held_fresh {y : ℕ} {Q : Content → Prop} (hy : y + 16384 ≤ d.size)
    (hQ : Q (parseBlk (withTail (d'.window y) fun _ => 0))) :
    Held (freshCtx d' readonly (fun _ _ => 0) sb) (Int64.ofNat y) Q := by
  have hlt := hf.lt
  have hto : (Int64.ofNat y).toInt = y := toInt_ofNat_of_lt (by omega)
  refine .inr ⟨fun b hb => absurd hb (by simp [freshCtx, gefsCacheInit, GefsCache.find]),
    d'.window y, ?_, fun _ => hQ⟩
  show d'.pread (Int64.ofNat y) = _
  unfold Disk.pread
  rw [hto, Int.toNat_natCast, if_pos]
  rw [hf.size]
  exact ⟨by omega, hy⟩

include hn hst

theorem blankHdr_formatted {i : ℕ} (hi : i < 8) :
    Held (freshCtx d' readonly (fun _ _ => 0) sb) (Int64.ofNat (16384 + i * 16760832))
      (BlankHdr (freshCtx d' readonly (fun _ _ => 0) sb)) := by
  have hlo := hf.lo
  have hbs : gefsBlksz = 16384 := rfl
  have hhdr := hf.hdr i (by omega)
  rw [hst] at hhdr
  obtain ⟨m, hm, heq⟩ := hhdr
  obtain ⟨x, hx⟩ : ∃ x, x = 16384 + i * 16760832 + 32768 := ⟨_, rfl⟩
  have hlog := reamLogBlk_addr (16384 + i * 16760832 + 32768) (reamAsz d.size)
  rw [← hx] at hlog
  refine .inr ⟨fun b hb => absurd hb (by simp [freshCtx, gefsCacheInit, GefsCache.find]), m, hm,
    fun _ => ?_⟩
  show BlankHdr _ (parseBlk (withTail m fun _ => 0))
  unfold hdrAt at heq
  rw [← hx] at heq
  generalize (reamLogBlk x (reamAsz d.size)).bp = loghd at hlog heq
  have heq' : ∀ j < gefsBlksz, withTail m (fun _ => 0) j
      = (arenaHdr (Int64.ofNat (16384 + i * 16760832)) (Int64.ofNat (reamAsz d.size)) 16384
        loghd).buf j := by
    intro j hj
    rw [withTail, if_pos hj, heq j hj]
  obtain ⟨hty, hword⟩ := unpack64_arenaHdr _ (by omega) hlog heq'
  generalize withTail m (fun _ => 0) = w at hty hword
  rw [parseBlk_raw (t := 6) hty (by omega) (by omega)]
  have haddr : (gefsUnpackbp w (0 + 32)).addr = Int64.ofNat (x / 65536) := by
    show (unpack64 w 32).toInt64 = _
    rw [hword]
    rfl
  unfold BlankHdr
  rw [haddr]
  constructor
  · intro he
    have := congrArg Int64.toInt he
    rw [toInt_ofNat_of_lt (by omega)] at this
    have h1 : (-1 : Int64).toInt = -1 := rfl
    omega
  · by_cases hi0 : i = 0
    · left
      rw [hx, hi0]
      rfl
    · right
      exact held_fresh hf readonly sb (by omega) (zeroLog_formatted hf hn (by omega) (by omega))

end Mount

/-! ## The allocator -/

/-- The next block to be handed out is the `k`-th of the image. -/
structure Bump (k : ℕ) (ctx : GefsCtx) : Prop where
  ro : ctx.readonly = false
  narena : 0 < ctx.sb.narena
  free : ∃ x as fl, ctx.arenas = x :: as
    ∧ x.freeList = ⟨Int64.ofNat (16384 * k), -Int64.ofNat (16384 * k)⟩ :: fl

theorem Bump.nextAlloc {k : ℕ} {ctx : GefsCtx} (h : Bump k ctx) (hk : k < 2 ^ 40) :
    ∃ as, nextAlloc ctx = some (Int64.ofNat (16384 * k), as)
      ∧ ∀ ctx' : GefsCtx, ctx'.readonly = ctx.readonly → ctx'.sb.narena = ctx.sb.narena →
        ctx'.arenas = as → Bump (k + 1) ctx' := by
  obtain ⟨x, as, fl, has, hfl⟩ := h.free
  have hoff : Int64.ofNat (16384 * k) + 16384 = Int64.ofNat (16384 * (k + 1)) := by
    rw [Nat.mul_add, Int64.ofNat_add]
    rfl
  have hlen : -Int64.ofNat (16384 * k) - 16384 = -Int64.ofNat (16384 * (k + 1)) := by
    rw [← hoff, Int64.neg_add, Int64.sub_eq_add_neg]
  have hne : -Int64.ofNat (16384 * (k + 1)) ≠ 0 := by
    intro he
    have h0 : - -Int64.ofNat (16384 * (k + 1)) = -0 := by rw [he]
    rw [Int64.neg_neg] at h0
    have := congrArg Int64.toInt h0
    rw [toInt_ofNat_of_lt (by omega)] at this
    have hz : (-0 : Int64).toInt = 0 := rfl
    omega
  have hguard : ¬ (ctx.readonly = true ∨ ctx.sb.narena ≤ 0) := by
    rintro (hr | hr)
    · rw [h.ro] at hr
      exact absurd hr (by decide)
    · exact absurd h.narena (Int32.not_lt.2 hr)
  have hal : GefsFuse.nextAlloc ctx = some (Int64.ofNat (16384 * k),
      { x with
        used := x.used + 16384
        freeList := ⟨Int64.ofNat (16384 * (k + 1)), -Int64.ofNat (16384 * (k + 1))⟩ :: fl } :: as) := by
    rw [GefsFuse.nextAlloc, if_neg hguard, has, allocArenas, hfl]
    dsimp only
    rw [hlen, if_neg hne, hoff]
  exact ⟨_, hal, fun ctx' h1 h2 h3 => ⟨h1.trans h.ro, h2 ▸ h.narena, _, as, fl, h3, rfl⟩⟩

theorem Bump.canAlloc {k : ℕ} {ctx : GefsCtx} (h : Bump k ctx) (hk : k < 2 ^ 40) :
    canAlloc ctx = true := by
  obtain ⟨as, he, -⟩ := h.nextAlloc hk
  rw [GefsFuse.canAlloc, he]
  refine decide_eq_true (Int64.le_iff_toInt_le.2 ?_)
  rw [toInt_ofNat_of_lt (by omega)]
  exact Int.natCast_nonneg _

theorem Bump.canAllocTwo {k : ℕ} {ctx : GefsCtx} (h : Bump k ctx) (hk : k + 1 < 2 ^ 40) :
    canAllocTwo ctx = true := by
  obtain ⟨as, he, hb⟩ := h.nextAlloc (by omega)
  rw [GefsFuse.canAllocTwo, he]
  exact (hb { ctx with arenas := as } rfl rfl rfl).canAlloc hk

/-- The blank image, formatted and mounted with zeros behind each block in memory. -/
theorem mount_blank : ∃ d' r a u tb nu bps ctx, mkfs [] blankImage = some d'
    ∧ Formatted blankImage d' r a u tb nu bps
    ∧ gefsFsOpen 3 d' false (fun _ _ => 0) = some (.ok ctx)
    ∧ Opened d' false (fun _ _ => 0) 8 r a tb bps ctx ∧ Bump 0 ctx := by
  obtain ⟨d', hd'⟩ := mkfs_blankImage
  obtain ⟨r, a, u, tb, nu, bps, hf⟩ := mkfs_formatted hd'
  have hsz : blankImage.size = 134234112 := rfl
  have hn : reamNarena blankImage.size = 8 := by
    rw [hsz]
    simp [reamNarena, reamUsable, gefsBlksz]
  have hst : stride blankImage.size = 16760832 := by
    rw [hsz]
    simp [stride, reamAsz, reamNarena, reamUsable, gefsBlksz]
  obtain ⟨sb, hsb⟩ : ∃ sb, sb = sbRead (reamSuper (reamNarena blankImage.size) tb bps) := ⟨_, rfl⟩
  have hsuper := readSuper_formatted hf
  rw [← hsb] at hsuper
  have hok : CtxOk (freshCtx d' false (fun _ _ => 0) sb) :=
    ⟨List.nodup_nil, by simp [freshCtx, gefsCacheInit], List.Pairwise.nil⟩
  have hfar : Absent (freshCtx d' false (fun _ _ => 0) sb) farAddr := by
    refine ⟨rfl, ?_⟩
    show d'.pread farAddr = none
    have hto : farAddr.toInt = 8187 * 2 ^ 32 + 8 := toInt_ofNat_of_lt (by omega)
    unfold Disk.pread
    rw [hto, if_neg]
    rw [hf.size, hsz]
    omega
  have h0 : Held (freshCtx d' false (fun _ _ => 0) sb) 0 (SuperLog farAddr) :=
    held_fresh hf false sb (y := 0) (by omega) (superLog_formatted hf hn)
  have hlen : sb.arenabp.length = 8 := by
    rw [hsb, ← hn, ← hf.length]
    simp [sbRead, reamSuper]
  have hhdr : ∀ bp ∈ sb.arenabp, Held (freshCtx d' false (fun _ _ => 0) sb) bp.addr
      (BlankHdr (freshCtx d' false (fun _ _ => 0) sb)) := by
    intro bp hbp
    obtain ⟨i, hi, rfl⟩ := List.getElem_of_mem hbp
    have hi' : i < bps.length := by
      have := hf.length
      omega
    have haddr : sb.arenabp[i].addr = Int64.ofNat (16384 + i * 16760832) := by
      have h1 := hf.addr i hi'
      rw [hst] at h1
      rw [← h1]
      subst hsb
      simp [sbRead, reamSuper]
    rw [haddr]
    exact blankHdr_formatted hf hn hst false sb (by omega)
  obtain ⟨as, ctx1, hk1, has, haslen, he1⟩ := @loadArenas_blank farAddr (by decide)
    sb.arenabp _ hok hfar h0 hhdr
  obtain ⟨bufc, hcat, hcatl⟩ := hf.cat
  have hcat1 := hk1.held _ _ (@held_of_leafBytes (freshCtx d' false (fun _ _ => 0) sb) _ _ _ rfl
    hcat hcatl)
  obtain ⟨ctx2, hctx2⟩ : ∃ c : GefsCtx, c = { ctx1 with arenas := as, snapTree := sb.snap } :=
    ⟨_, rfl⟩
  have hcat2 : TreeHolds ctx2 ctx2.snapTree (catEs r a) := by
    have htb : sb.snap.ht = 1 ∧ sb.snap.bp.addr = Int64.ofNat 114688 := by
      rw [hsb]
      exact ⟨rfl, hf.taddr⟩
    rw [hctx2]
    refine ⟨htb.1, ?_, ascending_catEs r a, small_catEs r a⟩
    show Held { ctx1 with arenas := as, snapTree := sb.snap } sb.snap.bp.addr (IsLeaf (catEs r a))
    rw [htb.2]
    exact hcat1
  obtain ⟨ctx3, hk3, he3⟩ := run_openDefault (by rw [hctx2]; exact hk1.ok) hcat2
  have hopen : gefsFsOpen 3 d' false (fun _ _ => 0)
      = some (.ok { ctx3 with activeTree := mainTree r }) := by
    unfold gefsFsOpen
    rw [hsuper]
    simp only [he1, Option.bind_eq_bind, Option.bind_some]
    rw [← hctx2, he3]
    rfl
  obtain ⟨ctx, heq, ho⟩ := gefsFsOpen_formatted hf hopen
  obtain rfl : { ctx3 with activeTree := mainTree r } = ctx := by simpa using heq
  rw [hn] at ho
  refine ⟨d', r, a, u, tb, nu, bps, _, hd', hf, hopen, ho, ho.ro, ?_, ?_⟩
  · rw [ho.sb]
    exact (by decide : (0 : Int32) < Int32.ofNat 8)
  · have has3 : ctx3.arenas = as := by
      rw [hk3.arenas, hctx2]
    rcases as with _ | ⟨x, as⟩
    · rw [hlen] at haslen
      exact absurd haslen (by decide)
    · obtain ⟨fl, hfl⟩ := has x (List.mem_cons_self ..)
      exact ⟨x, as, fl, has3, hfl⟩

end GefsFuse
