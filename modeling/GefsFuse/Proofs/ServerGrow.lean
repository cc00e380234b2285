import GefsFuse.Server.Grow
import GefsFuse.Proofs.Super
import GefsFuse.Proofs.Geometry
import GefsFuse.Lib.Effects

/-!
# A device that is grown

The arenas of a device that was reamed lie between its superblocks, and a growth puts four more
behind them. Where the last arena ends past the size that counts, as it can by one block when the
size is a multiple of the arenas, the unsigned comparison in `growfs` takes the missing block for
room; but the log of an arena that ends before it starts cannot be replayed (`loadlog_pos`), so the
growth stops there. What can go wrong is the number of arenas: the assertion in `unpacksb` stops at
256 and the one in `packsb` only at 512 (`growfs_grown_iff`).
-/

namespace GefsFuse.Server

open ByteMem Ranges Effects

/-! ## The superblock -/

section Super

variable {m m' : Mem}

theorem metroTurn_congr {p : ℕ} (h : ∀ o, p ≤ o → o + 8 ≤ p + 32 → readLe m o 8 = readLe m' o 8)
    (v : Lanes) : metroTurn m p v = metroTurn m' p v := by
  have h0 := h p (by omega) (by omega)
  have h1 := h (p + 8) (by omega) (by omega)
  have h2 := h (p + 16) (by omega) (by omega)
  have h3 := h (p + 24) (by omega) (by omega)
  unfold metroTurn
  simp only [h0, h1, h2, h3]

theorem metroBulk_congr {len n : ℕ} (h : ∀ i < len, m i = m' i) (hn : 32 * n ≤ len) (v : Lanes) :
    metroBulk m n v = metroBulk m' n v := by
  unfold metroBulk
  refine List.foldl_ext _ _ _ fun v i hi => ?_
  have hi := List.mem_range.1 hi
  exact metroTurn_congr (fun o h1 h2 => readLe_congr fun j hj => h (o + j) (by omega)) v

theorem metroTail16_congr {len p : ℕ} (h : ∀ i < len, m i = m' i) (x : UInt64) :
    (if 16 ≤ len - p then metroTail16 m p x else x)
      = if 16 ≤ len - p then metroTail16 m' p x else x := by
  split_ifs with hp
  · have h0 : ∀ o, p ≤ o → o + 8 ≤ p + 16 → readLe m o 8 = readLe m' o 8 := fun o h1 h2 =>
      readLe_congr fun i hi => h (o + i) (by omega)
    rw [metroTail16, metroTail16, h0 p (by omega) (by omega), h0 (p + 8) (by omega) (by omega)]
  · rfl

theorem metroTail_congr {len p w : ℕ} (h : ∀ i < len, m i = m' i) (r x : UInt64) :
    (if w ≤ len - p then metroTail m p w r x else x)
      = if w ≤ len - p then metroTail m' p w r x else x := by
  split_ifs with hp
  · rw [metroTail, metroTail, readLe_congr fun i hi => h (p + i) (by omega)]
  · rfl

/-- The hash depends on the bytes it covers only. -/
theorem bufhash_congr {len : ℕ} (h : ∀ i < len, m i = m' i) :
    bufhash m 0 len = bufhash m' 0 len := by
  replace h : ∀ i < len, (fun i => m (0 + i)) i = (fun i => m' (0 + i)) i := fun i hi => by
    simpa using h i hi
  unfold bufhash
  generalize (fun i => m (0 + i)) = n at h ⊢
  generalize (fun i => m' (0 + i)) = n' at h ⊢
  have hb := metroBulk_congr h (show 32 * (len / 32) ≤ len by omega)
  unfold metrohash64_1
  simp only [hb, metroTail16_congr h]
  have h8 := fun p x => metroTail_congr (p := p) (w := 8) h 33 x
  have h4 := fun p x => metroTail_congr (p := p) (w := 4) h 15 x
  have h2 := fun p x => metroTail_congr (p := p) (w := 2) h 13 x
  have h1 := fun p x => metroTail_congr (p := p) (w := 1) h 25 x
  simp only [h8, h4, h2, h1]

/-- What of a superblock is read back into `f0`. -/
def Gefs.read (f0 fi : Gefs) : Gefs :=
  { fi with
    blksz := 16384
    bufspc := 8187
    snap := ⟨fi.snap.addr, fi.snap.hash, -1⟩
    dlgen := -1
    dlhd := ⟨fi.dlhd.addr, fi.dlhd.hash, -1⟩
    dltl := ⟨fi.dltl.addr, fi.dltl.hash, f0.dltl.gen⟩
    arenabp := fi.arenabp.map fun bp => ⟨bp.addr, bp.hash, -1⟩ }

theorem length_sbBytes {fi : Gefs} (h : fi.arenabp.length = fi.narena.toInt.toNat) :
    (sbBytes fi).length = 104 + 16 * fi.arenabp.length := by
  unfold sbBytes
  rw [List.length_append, length_arenaTab, ← h, List.take_length]
  simp [magic]

/-- A superblock that was packed is read back, unless it has too many arenas. -/
theorem unpacksb_packsb {f0 fi : Gefs} {p0 : Mem}
    (hlen : fi.arenabp.length = fi.narena.toInt.toNat) (h : packsb p0 fi = some m) :
    unpacksb f0 m = if fi.narena < 256 then some (f0.read fi) else none := by
  unfold packsb at h
  split_ifs at h
  obtain rfl := Option.some.inj h
  have hl := length_sbBytes hlen
  rw [hlen] at hl
  have hp : At (store (store p0 0 (sbBytes fi)) (sbBytes fi).length
      (pack64 (bufhash (store p0 0 (sbBytes fi)) 0 (sbBytes fi).length))) 0 (sbBytes fi) :=
    At.store (at_store _ _ _) (.inl (by omega))
  have hh := at_store (store p0 0 (sbBytes fi)) (sbBytes fi).length
    (pack64 (bufhash (store p0 0 (sbBytes fi)) 0 (sbBytes fi).length))
  have hhash : bufhash (store p0 0 (sbBytes fi)) 0 (sbBytes fi).length
      = bufhash (store (store p0 0 (sbBytes fi)) (sbBytes fi).length
        (pack64 (bufhash (store p0 0 (sbBytes fi)) 0 (sbBytes fi).length))) 0
        (sbBytes fi).length :=
    bufhash_congr fun i hi => (store_of_lt _ hi).symm
  generalize hm : store (store p0 0 (sbBytes fi)) (sbBytes fi).length
    (pack64 (bufhash (store p0 0 (sbBytes fi)) 0 (sbBytes fi).length)) = m at hp hh hhash ⊢
  rw [hhash, hl] at hh
  have hmg : magic.length = 8 := rfl
  simp only [sbBytes, at_append, List.length_append, length_pack32, length_pack64, hmg,
    Nat.reduceAdd, zero_add] at hp
  obtain ⟨⟨⟨⟨⟨⟨⟨⟨⟨⟨⟨⟨⟨⟨⟨h1, h2⟩, h3⟩, h4⟩, h5⟩, h6⟩, h7⟩, h8⟩, h9⟩, h10⟩, h11⟩, h12⟩, h13⟩, h14⟩,
    h15⟩, h16⟩ := hp
  have hna : (unpack32 m 16).toInt32 = fi.narena := by rw [unpack32_at h4]; simp
  have h17 : unpackArenabp m 104 fi.narena.toInt.toNat
      = fi.arenabp.map fun bp => ⟨bp.addr, bp.hash, -1⟩ := by
    rw [← hlen, List.take_length] at h16
    rw [← hlen]
    exact unpackArenabp_at _ _ h16
  have h18 : load m 0 8 = magic := h1
  unfold unpacksb
  simp only [hna, h18, ne_eq, not_true_eq_false, if_false, unpack64_at hh, h17]
  refine if_congr Iff.rfl ?_ rfl
  rw [unpack32_at h2, unpack32_at h3, unpack32_at h5, unpack64_at h6, unpack64_at h7,
    unpack64_at h8, unpack64_at h9, unpack64_at h10, unpack64_at h11, unpack64_at h12,
    unpack64_at h13, unpack64_at h14, unpack64_at h15]
  simp [Gefs.read]
  rfl

end Super

/-! ## The log of a new arena -/

section Log

theorem and_ff (x : UInt64) : (x &&& 0xff).toNat = x.toNat % 256 := by
  rw [UInt64.toNat_and]
  exact Nat.and_two_pow_sub_one_eq_mod _ 8

theorem and_not_ff (x : UInt64) : x &&& ~~~0xff = x - (x &&& 0xff) := by
  have h : ∀ b m : BitVec 64, b = (b &&& m) + (b &&& ~~~m) := by
    intro b m
    rw [BitVec.add_eq_or_of_and_eq_zero]
    · ext i hi
      simp
      cases b[i] <;> cases m[i] <;> rfl
    · ext i hi
      simp
      cases b[i] <;> cases m[i] <;> simp
  have h1 : x = (x &&& 0xff) + (x &&& ~~~0xff) := UInt64.eq_of_toBitVec_eq (h _ _)
  exact eq_sub_of_add_eq' h1.symm

/-- An operation packed into an address is taken apart again. -/
theorem or_op {w op : UInt64} (hw : w.toNat % 256 = 0) (hop : op.toNat < 256) :
    (w ||| op) &&& 0xff = op ∧ (w ||| op) &&& ~~~0xff = w := by
  have hor : (w ||| op).toNat = w.toNat + op.toNat := by
    rw [UInt64.toNat_or]
    have h := Nat.two_pow_add_eq_or_of_lt (i := 8) (b := op.toNat) (by omega) (w.toNat / 256)
    have he : 2 ^ 8 * (w.toNat / 256) = w.toNat := by omega
    rw [he] at h
    exact h.symm
  have hop : (w ||| op) &&& 0xff = op := by
    apply UInt64.toNat_inj.1
    rw [and_ff, hor]
    omega
  refine ⟨hop, ?_⟩
  rw [and_not_ff, hop]
  apply UInt64.toNat_inj.1
  rw [UInt64.toNat_sub_of_le _ _ (by rw [UInt64.le_iff_toNat_le]; omega)]
  omega

variable {m : Mem} {d : ℕ} {addr : UInt64}

theorem logEv_free (h : unpack64 m d = addr ||| logFree) (ha : addr.toNat % 256 = 0) :
    logEv m d = some (.free addr.toInt64 (unpack64 m (d + 8)).toInt64) ∧ logWidth m d = 16 := by
  obtain ⟨h1, h2⟩ := @or_op addr logFree ha (by decide)
  unfold logEv logWidth
  simp only [h, h1, h2]
  exact ⟨rfl, rfl⟩

theorem logEv_alloc (h : unpack64 m d = addr ||| logAlloc) (ha : addr.toNat % 256 = 0) :
    logEv m d = some (.alloc addr.toInt64 (unpack64 m (d + 8)).toInt64) ∧ logWidth m d = 16 := by
  obtain ⟨h1, h2⟩ := @or_op addr logAlloc ha (by decide)
  unfold logEv logWidth
  simp only [h, h1, h2]
  exact ⟨rfl, rfl⟩

theorem logEv_sync (h : unpack64 m d = logSync) :
    logEv m d = some (.sync 0) ∧ logWidth m d = 8 := by
  unfold logEv logWidth
  simp only [h]
  exact ⟨rfl, rfl⟩

/-- The log of a new arena frees it from the log block on and takes the log block. -/
theorem log_initarena {hdaddr : UInt64} {asz : Int64} (h : hdaddr.toNat % 16384 = 0)
    (qgen : Int64) : ∃ stop, (initarena hdaddr asz).log qgen = some
      ([.free (hdaddr + 2 * ublksz).toInt64 (asz.toUInt64 - 2 * ublksz).toInt64,
        .alloc (hdaddr + 2 * ublksz).toInt64 ublksz.toInt64, .sync 0], stop) := by
  have haddr : (hdaddr + 2 * ublksz).toNat % 256 = 0 := by
    have h2 : (2 * ublksz).toNat = 32768 := rfl
    rw [UInt64.toNat_add, h2]
    omega
  unfold NewArena.log initarena
  dsimp only
  generalize hdaddr + 2 * ublksz = addr at haddr
  generalize asz.toUInt64 - 2 * ublksz = len
  generalize hbs : pack64 (addr ||| logFree) ++ pack64 len ++ pack64 (addr ||| logAlloc)
    ++ pack64 ublksz ++ pack64 logSync = bs
  have hlen : bs.length = 40 := by simp [← hbs]
  have hat := at_memOf bs
  rw [hlen]
  generalize memOf bs = m at hat ⊢
  rw [← hbs] at hat
  simp only [at_append, List.length_append, length_pack64, Nat.reduceAdd, zero_add] at hat
  obtain ⟨⟨⟨⟨h0, h8⟩, h16⟩, h24⟩, h32⟩ := hat
  obtain ⟨e0, w0⟩ := logEv_free (unpack64_at h0) haddr
  obtain ⟨e16, w16⟩ := logEv_alloc (unpack64_at h16) haddr
  obtain ⟨e32, w32⟩ := logEv_sync (unpack64_at h32)
  rw [unpack64_at h8] at e0
  rw [unpack64_at h24] at e16
  have hend : blkLog qgen m 0 40 40 = some ([], false) := by
    unfold blkLog
    rfl
  have hsync : ∃ stop, blkLog qgen m 0 40 32 = some ([.sync 0], stop) := by
    unfold blkLog
    rw [if_pos (by decide)]
    simp only [zero_add, e32, w32, Option.bind_eq_bind, Option.bind_some]
    split_ifs
    · exact ⟨true, rfl⟩
    · rw [hend]
      exact ⟨false, rfl⟩
  obtain ⟨stop, hsync⟩ := hsync
  refine ⟨stop, ?_⟩
  have halloc : blkLog qgen m 0 40 16
      = some ([.alloc addr.toInt64 ublksz.toInt64, .sync 0], stop) := by
    unfold blkLog
    rw [if_pos (by decide)]
    simp only [zero_add, e16, w16, Option.bind_eq_bind, Option.bind_some]
    rw [hsync]
    rfl
  unfold blkLog
  rw [if_pos (by decide)]
  simp only [zero_add, e0, w0, Option.bind_eq_bind, Option.bind_some]
  rw [halloc]
  rfl

/-- The length of the range that a new arena's log frees. -/
theorem toInt_free {asz : Int64} (h : -2 ^ 62 ≤ asz.toInt) :
    (asz.toUInt64 - 2 * ublksz).toInt64.toInt = asz.toInt - 32768 := by
  have he : (asz.toUInt64 - 2 * ublksz).toInt64 = asz - 32768 := rfl
  have hlt := asz.toInt_lt
  rw [he, Int64.toInt_sub]
  change Int.bmod (asz.toInt - 32768) _ = _
  exact Int.bmod_eq_of_le (by omega) (by omega)

/-- What a replay makes of the log of a new arena: one range is freed, and its first block taken. -/
theorem loadlog_initarena {hdaddr : UInt64} {asz : Int64} (h : hdaddr.toNat % 16384 = 0)
    (qgen : Int64) : (initarena hdaddr asz).loadlog qgen
      = (freerange [] (hdaddr + 2 * ublksz).toInt64.toInt
          (asz.toUInt64 - 2 * ublksz).toInt64.toInt).bind fun t =>
        (grabrange t (hdaddr + 2 * ublksz).toInt64.toInt 16384).map fun t =>
          (t, asz.toInt - (asz.toUInt64 - 2 * ublksz).toInt64.toInt + 16384) := by
  obtain ⟨stop, hlog⟩ := @log_initarena hdaddr asz h qgen
  have hb : ublksz.toInt64.toInt = 16384 := rfl
  have hsz : (initarena hdaddr asz).size = asz := rfl
  unfold NewArena.loadlog replay
  rw [hlog, hsz]
  generalize (hdaddr + 2 * ublksz).toInt64 = off
  generalize (asz.toUInt64 - 2 * ublksz).toInt64 = len
  simp only [Option.bind_eq_bind, Option.bind_some, List.foldlM_cons, List.foldlM_nil, replayEv, hb]
  rcases freerange [] off.toInt len.toInt with _ | t
  · rfl
  · simp only [Option.map_some, Option.bind_some]
    rcases grabrange t off.toInt 16384 with _ | t' <;> rfl

theorem freerange_nil {off len : ℤ} (h : len % 16384 = 0) :
    freerange [] off len = some [⟨off, len⟩] := by
  unfold freerange
  rw [if_neg (by simp [h])]
  rfl

theorem grabrange_front (off len : ℤ) : grabrange [⟨off, len⟩] off 16384
    = if len < 16384 then none else some (cut ⟨off, 16384⟩ ⟨off, len⟩) := by
  unfold grabrange grab
  rw [if_neg (by decide)]
  have hlo : [(⟨off, len⟩ : Rng)].filter (·.off ≤ off) = [⟨off, len⟩] := by simp
  have hhi : [(⟨off, len⟩ : Rng)].filter (off < ·.off) = [] := by simp
  simp only [hlo, hhi, List.reverse_singleton, Rng.stop, List.reverse_nil, List.nil_append,
    List.append_nil]
  exact if_congr (by omega) rfl rfl

/-- An arena that is replayed has room for its headers and its log. -/
theorem loadlog_pos {hdaddr : UInt64} {asz : Int64} (h : hdaddr.toNat % 16384 = 0)
    (ha : asz.toInt % 16384 = 0) (hlo : -2 ^ 62 ≤ asz.toInt) {qgen : Int64} {s : List Rng × ℤ}
    (hs : (initarena hdaddr asz).loadlog qgen = some s) : 3 * 16384 ≤ asz.toInt := by
  have hlen := toInt_free hlo
  rw [loadlog_initarena h, freerange_nil (by omega), Option.bind_some, grabrange_front] at hs
  split_ifs at hs with hlt
  · cases hs
  · omega

end Log

/-! ## Where the arenas lie -/

section Arenas

/-- The end of an arena, its headers counted. -/
def NewArena.stop (a : NewArena) : ℤ := a.h0.toInt + a.size.toInt + 2 * 16384

/-- An arena of whole blocks that starts with its two headers, and what its log frees lies between
these and its end; so does what is free once the log is replayed. -/
structure Placed (a : NewArena) : Prop where
  aligned : a.h0.toInt % 16384 = 0 ∧ a.stop % 16384 = 0
  headers : a.h1.toInt = a.h0.toInt + 16384
  loads : ∀ qgen, ∃ t used, a.loadlog qgen = some (t, used)
    ∧ ∀ r ∈ t, a.h0.toInt + 2 * 16384 ≤ r.off ∧ 0 < r.len ∧ r.stop ≤ a.stop
  free : ∀ qgen, ∃ es stop, a.log qgen = some (es, stop) ∧ (∃ off len, .free off len ∈ es)
    ∧ ∀ off len, .free off len ∈ es → a.h0.toInt + 2 * 16384 ≤ off.toInt ∧ 0 < len.toInt
      ∧ off.toInt + len.toInt ≤ a.stop

variable {off asz : Int64}

theorem Placed.pos {a : NewArena} (h : Placed a) : a.h0.toInt + 2 * 16384 < a.stop := by
  obtain ⟨es, -, -, ⟨o, l, hm⟩, h⟩ := h.free 0
  have := h o l hm
  omega

@[simp] theorem initarena_h0 : (initarena off.toUInt64 asz).h0 = off := by
  simp [initarena]

@[simp] theorem stop_initarena :
    (initarena off.toUInt64 asz).stop = off.toInt + asz.toInt + 2 * 16384 := by
  rw [NewArena.stop, initarena_h0]
  rfl

theorem placed_initarena (h0 : 0 ≤ off.toInt) (ho : off.toInt % 16384 = 0)
    (ha : asz.toInt % 16384 = 0) (hpos : 3 * 16384 ≤ asz.toInt)
    (hlt : off.toInt + asz.toInt + 2 * 16384 < 2 ^ 63) : Placed (initarena off.toUInt64 asz) := by
  have hn := toNat_toUInt64 h0
  have h1 : ublksz.toNat = 16384 := rfl
  have h2 : (2 * ublksz).toNat = 32768 := rfl
  have haddr : (off.toUInt64 + 2 * ublksz).toInt64.toInt = off.toInt + 2 * 16384 := by
    have h3 : (off.toUInt64 + 2 * ublksz).toNat = off.toUInt64.toNat + 32768 := by
      rw [UInt64.toNat_add, h2]
      omega
    rw [toInt_toInt64 (by omega), h3]
    omega
  have hfree := @toInt_free asz (by omega)
  refine ⟨by simp only [initarena_h0, stop_initarena]; omega, ?_, fun qgen => ?_, fun qgen => ?_⟩
  · have h3 : (off.toUInt64 + ublksz).toNat = off.toUInt64.toNat + 16384 := by
      rw [UInt64.toNat_add, h1]
      omega
    rw [initarena_h0]
    change (off.toUInt64 + ublksz).toInt64.toInt = _
    rw [toInt_toInt64 (by omega), h3]
    omega
  · rw [loadlog_initarena (by omega), freerange_nil (by omega), Option.bind_some, grabrange_front,
      if_neg (by omega)]
    refine ⟨_, _, rfl, fun r hr => ?_⟩
    rw [initarena_h0, stop_initarena]
    rcases mem_cut.1 hr with ⟨hlt, rfl⟩ | ⟨hlt, rfl⟩ <;> simp only [Rng.stop] at hlt ⊢ <;> omega
  · obtain ⟨stop, hlog⟩ := @log_initarena off.toUInt64 asz (by omega) qgen
    refine ⟨_, stop, hlog, ⟨_, _, List.mem_cons_self⟩, fun o l hm => ?_⟩
    simp only [List.mem_cons, LogEv.free.injEq, reduceCtorEq, List.not_mem_nil, or_false] at hm
    obtain ⟨rfl, rfl⟩ := hm
    rw [initarena_h0, stop_initarena, haddr, hfree]
    omega

theorem toInt_next (h0 : 0 ≤ off.toInt) (hpos : 0 ≤ asz.toInt)
    (hlt : off.toInt + asz.toInt + 2 * 16384 < 2 ^ 63) :
    (off.toUInt64 + (asz.toUInt64 + 2 * ublksz)).toInt64.toInt
      = off.toInt + (asz.toInt + 2 * 16384) := by
  have h1 := toNat_toUInt64 h0
  have h2 := toNat_toUInt64 hpos
  have h3 : (2 * ublksz).toNat = 32768 := rfl
  have h4 : (off.toUInt64 + (asz.toUInt64 + 2 * ublksz)).toNat
      = off.toUInt64.toNat + (asz.toUInt64.toNat + 32768) := by
    rw [UInt64.toNat_add, UInt64.toNat_add, h3]
    omega
  rw [toInt_toInt64 (by omega), h4]
  omega

theorem length_initarenas (asz : Int64) : ∀ (n : ℕ) (off : Int64),
    (initarenas asz off n).length = n
  | 0, _ => rfl
  | n + 1, _ => by rw [initarenas, List.length_cons, length_initarenas asz n]

/-- Arenas that are laid out one after the other do not run into each other. -/
theorem initarenas_placed (ha : asz.toInt % 16384 = 0) (hpos : 3 * 16384 ≤ asz.toInt) :
    ∀ {n : ℕ} {off : Int64}, 0 ≤ off.toInt → off.toInt % 16384 = 0 →
      off.toInt + n * (asz.toInt + 2 * 16384) < 2 ^ 63 →
      (∀ a ∈ initarenas asz off n, Placed a ∧ off.toInt ≤ a.h0.toInt
        ∧ a.stop ≤ off.toInt + n * (asz.toInt + 2 * 16384))
      ∧ (initarenas asz off n).Pairwise fun a b => a.stop ≤ b.h0.toInt
  | 0, _, _, _, _ => by simp [initarenas]
  | n + 1, off, h0, ho, hlt => by
    have he : ((n + 1 : ℕ) : ℤ) * (asz.toInt + 2 * 16384)
        = n * (asz.toInt + 2 * 16384) + (asz.toInt + 2 * 16384) := by
      push_cast
      ring
    have hn : 0 ≤ (n : ℤ) * (asz.toInt + 2 * 16384) := Int.mul_nonneg (by omega) (by omega)
    rw [he] at hlt ⊢
    have hnext := @toInt_next off asz h0 (by omega) (by omega)
    have hp := @placed_initarena off asz h0 ho ha hpos (by omega)
    rw [initarenas]
    generalize (off.toUInt64 + (asz.toUInt64 + 2 * ublksz)).toInt64 = off' at hnext ⊢
    obtain ⟨ih1, ih2⟩ := @initarenas_placed ha hpos n off' (by omega) (by omega) (by omega)
    refine ⟨fun a hm => ?_, List.pairwise_cons.2 ⟨fun a hm => ?_, ih2⟩⟩
    · rcases List.mem_cons.1 hm with rfl | hm
      · refine ⟨hp, ?_⟩
        rw [initarena_h0, stop_initarena]
        omega
      · obtain ⟨hp', h1, h2⟩ := ih1 a hm
        exact ⟨hp', by omega, by omega⟩
    · have := (ih1 a hm).2.1
      rw [stop_initarena]
      omega

end Arenas

/-! ## A device that was reamed -/

section Ream

/-- The arenas of a device of `length` bytes lie between its superblocks, in order and without
overlap, and the superblock is read back. -/
structure Grown (length : ℤ) (d : Dev) : Prop where
  placed : ∀ a ∈ d.arenas, Placed a ∧ 16384 ≤ a.h0.toInt ∧ a.stop ≤ d.sb1.toInt
  ordered : d.arenas.Pairwise fun a b => a.stop ≤ b.h0.toInt
  backup : d.sb1.toInt = length - length % 16384 - 16384
  named : d.fs.narena.toInt = d.arenas.length ∧ d.fs.arenabp.map (·.addr) = d.arenas.map (·.h0)
  super : ∀ f0, unpacksb f0 d.sb0 = some (f0.read d.fs)

theorem reamNarena_eq (sz : Int64) : reamNarena sz = mkfsNarena sz := by
  unfold reamNarena mkfsNarena
  dsimp only
  generalize (if ((sz.toUInt64 + arenaMax - 1) / arenaMax).toUInt32.toInt32 < 8 then 8
    else ((sz.toUInt64 + arenaMax - 1) / arenaMax).toUInt32.toInt32) = n
  split_ifs with h1 h2 h2
  · rfl
  · exact Int32.le_antisymm h1 (Int32.not_lt.1 h2)
  · exact absurd (Int32.le_of_lt h2) h1
  · rfl

theorem arenabps_addr (as : List NewArena) (hash : ℕ → UInt64) :
    (arenabps as hash).map (·.addr) = as.map (·.h0) := by
  apply List.ext_getElem?
  intro i
  simp only [arenabps, List.getElem?_map, List.getElem?_mapIdx, Option.map_map]
  rfl

/-- A superblock that has the arenas under their addresses, and fewer than 256 of them, is read back
as it was packed. -/
theorem unpacksb_named {p0 m : Mem} {fs : Gefs} {as : List NewArena} (hm : packsb p0 fs = some m)
    (hna : fs.narena.toInt = as.length) (hbp : fs.arenabp.map (·.addr) = as.map (·.h0))
    (h256 : as.length < 256) (f0 : Gefs) : unpacksb f0 m = some (f0.read fs) := by
  have hl : fs.arenabp.length = as.length := by simpa using congrArg List.length hbp
  rw [unpacksb_packsb (by omega) hm, if_pos]
  rw [Int32.lt_iff_toInt_lt, hna]
  change _ < (256 : ℤ)
  omega

/-- The logs of arenas in their places can be replayed. -/
theorem loadlogs {as : List NewArena} (h : ∀ a ∈ as, Placed a) (qgen : Int64) :
    ∃ r, as.mapM (·.loadlog qgen) = some r :=
  exists_mapM fun a ha =>
    let ⟨t, used, he, _⟩ := (h a ha).loads qgen
    ⟨(t, used), he⟩

/-- Every device that is not too small is reamed, with 8 to 32 arenas. -/
theorem reamfs_grown (length : Int64) (tb : GefsBptr) (hash : ℕ → UInt64)
    (h : 128 * 1024 * 1024 + 16384 ≤ length.toInt) :
    ∃ d, reamfs length tb hash = some d ∧ Grown length.toInt d ∧ 8 ≤ d.arenas.length := by
  have hlt := length.toInt_lt
  have hmin : ¬ length.toUInt64 < 128 * mib + ublksz := by
    have h1 := toNat_toUInt64 (n := length) (by omega)
    have h2 : (128 * mib + ublksz).toNat = 134234112 := rfl
    rw [UInt64.lt_iff_toNat_lt]
    omega
  unfold reamfs
  rw [if_neg hmin]
  dsimp only
  rw [reamNarena_eq]
  have hsz := @toInt_roundLess2 length (by omega)
  generalize roundLess2 length = sz at hsz
  have hn := @toInt_mkfsNarena sz (by omega)
  have hasz : (roundLess2 (sz / (mkfsNarena sz).toInt64)).toInt = aszOf sz.toInt :=
    toInt_mkfsAsz (by omega)
  have hfill := arenas_le sz.toInt
  have hlarge := @le_div_arenasOf sz.toInt (by omega)
  obtain ⟨h8, h32⟩ := arenasOf_le sz.toInt
  have haligned : aszOf sz.toInt % 16384 = 0 ∧ 4 * 1024 * 1024 ≤ aszOf sz.toInt := by
    unfold aszOf
    omega
  have hlast : (sz.toUInt64 + ublksz).toInt64.toInt = sz.toInt + 16384 :=
    toInt_mkfsLast (by omega) (by omega)
  generalize roundLess2 (sz / (mkfsNarena sz).toInt64) = asz at hasz
  rw [← hasz] at hfill haligned
  clear hasz hlarge
  generalize mkfsNarena sz = narena at hn
  generalize arenasOf sz.toInt = n at hn hfill h8 h32
  have hoff : ublksz.toInt64.toInt = 16384 := rfl
  have hcast : (narena.toInt.toNat : ℤ) = n := by omega
  obtain ⟨hp, ho⟩ := @initarenas_placed asz haligned.1 (by omega) narena.toInt.toNat ublksz.toInt64
    (by omega) (by omega) (by rw [hcast]; omega)
  have hlen := length_initarenas asz narena.toInt.toNat ublksz.toInt64
  rw [hcast] at hp
  generalize initarenas asz ublksz.toInt64 narena.toInt.toNat = as at hp ho hlen ⊢
  generalize hfs : ({ zeroGefs with
    narena := narena
    ht := 1
    snap := tb
    dlhd := ⟨-1, 0xffffffffffffffff, 0⟩
    dltl := ⟨-1, 0xffffffffffffffff, 0⟩
    nextqid := 3
    nextgen := 3
    arenabp := arenabps as hash } : Gefs) = fs
  have hna : fs.narena = narena := by rw [← hfs]
  have hbp : fs.arenabp = arenabps as hash := by rw [← hfs]
  have hcount : fs.narena.toInt = as.length := by
    rw [hna]
    omega
  have haddr : fs.arenabp.map (·.addr) = as.map (·.h0) := by
    rw [hbp, arenabps_addr]
  have hpack : ∃ m, packsb (fun _ => 0) fs = some m := by
    unfold packsb
    rw [if_pos]
    · exact ⟨_, rfl⟩
    · rw [Int32.lt_iff_toInt_lt, hcount]
      change _ < (512 : ℤ)
      omega
  obtain ⟨m, hm⟩ := hpack
  obtain ⟨loaded, hloaded⟩ := loadlogs (fun a ha => (hp a ha).1) zeroGefs.qgen
  refine ⟨_, by rw [hloaded, hm]; rfl, ⟨fun a ha => ?_, ho, ?_, ?_, ?_⟩, by dsimp only; omega⟩
  · obtain ⟨h1, h2, h3⟩ := hp a ha
    exact ⟨h1, by omega, by dsimp only; omega⟩
  · dsimp only
    omega
  · exact ⟨hcount, haddr⟩
  · exact unpacksb_named hm hcount haddr (by omega)

end Ream

/-! ## A growth -/

section Grow

variable {length length' : Int64} {hash : ℕ → UInt64} {d d' : Dev} {a : NewArena}

/-- `unpacksb` accepts fewer than 256 arenas. -/
theorem unpacksb_lt {f0 fi : Gefs} {m : Mem} (h : unpacksb f0 m = some fi) : fi.narena < 256 := by
  unfold unpacksb at h
  dsimp only at h
  split_ifs at h with h1 h2 h3
  obtain rfl := Option.some.inj h
  exact h3

theorem Grown.lt {length : ℤ} (h : Grown length d) : d.fs.narena < 256 :=
  show (zeroGefs.read d.fs).narena < 256 from unpacksb_lt (h.super zeroGefs)

theorem Grown.nodup {length : ℤ} (h : Grown length d) : (d.arenas.map (·.h0)).Nodup := by
  refine List.pairwise_map.2 (h.ordered.imp_of_mem fun {a b} ha _ hab heq => ?_)
  have hp := (h.placed a ha).1.pos
  rw [← heq] at hab
  omega

theorem Grown.loadarena {length : ℤ} (h : Grown length d) (ha : a ∈ d.arenas) :
    d.loadarena a.h0 = some a := by
  unfold Dev.loadarena
  have hs : (d.arenas.find? fun b => b.h0 = a.h0).isSome := by
    rw [List.find?_isSome]
    exact ⟨a, ha, by simp⟩
  obtain ⟨b, hb⟩ := Option.isSome_iff_exists.1 hs
  have heq : b.h0 = a.h0 := by simpa using List.find?_some hb
  rw [hb, List.inj_on_of_nodup_map h.nodup (List.mem_of_find?_eq_some hb) ha heq]

/-- The arenas are found under the pointers in the superblock. -/
theorem Grown.loadarenas {length : ℤ} (h : Grown length d) :
    (zeroGefs.read d.fs).arenabp.mapM (fun bp => d.loadarena bp.addr) = some d.arenas := by
  have hm : ∀ as : List NewArena, as ⊆ d.arenas → ∀ bps : List GefsBptr,
      bps.map (·.addr) = as.map (·.h0) → bps.mapM (fun bp => d.loadarena bp.addr) = some as := by
    intro as
    induction as with
    | nil =>
      intro _ bps hb
      rw [List.map_nil, List.map_eq_nil_iff] at hb
      rw [hb]
      rfl
    | cons a as ih =>
      intro hs bps hb
      obtain ⟨bp, bps, rfl, hb1, hb2⟩ := List.map_eq_cons_iff.1 hb
      rw [List.mapM_cons, hb1, h.loadarena (hs List.mem_cons_self),
        ih (fun x hx => hs (List.mem_cons_of_mem a hx)) bps hb2]
      rfl
  refine hm d.arenas (fun _ hx => hx) _ ?_
  rw [← h.named.2]
  simp [Gefs.read]

/-- The end of the last arena, as `growfs` computes it. -/
theorem toInt_oldsz (hp : Placed a) (h0 : 0 ≤ a.h0.toInt) (hlt : a.stop < 2 ^ 63) :
    ((a.h0 + a.size).toUInt64 + 2 * ublksz).toInt64.toInt = a.stop := by
  have hpos := hp.pos
  unfold NewArena.stop at hpos hlt ⊢
  rw [Int64.toUInt64_add, add_assoc, toInt_next h0 (by omega) hlt]
  omega

/-- The superblock after a growth. -/
def Dev.grownFs (d : Dev) (as : List NewArena) (hash : ℕ → UInt64) : Gefs :=
  { zeroGefs.read d.fs with
    narena := d.fs.narena + 4
    arenabp := arenabps d.arenas (fun _ => 0xffffffffffffffff) ++ arenabps as hash }

/-- The arenas a growth lays out from `oldsz` on. -/
def newArenas (length' oldsz : Int64) : List NewArena :=
  initarenas (roundLess2 ((roundLess2 length' - oldsz) / 4)) oldsz 4

theorem growfs_eq (h : Grown length.toInt d) (ha : d.arenas.getLast? = some a) (length' : Int64)
    (hash : ℕ → UInt64) :
    ∃ oldsz : Int64, oldsz.toInt = a.stop ∧ growfs length' hash d
      = if (roundLess2 length' - oldsz).toUInt64 < 64 * mib then none
        else ((newArenas length' oldsz).mapM (NewArena.loadlog · d.fs.qgen)).bind fun _ =>
          (packsb d.sb0 (d.grownFs (newArenas length' oldsz) hash)).map fun sb0 =>
            ⟨d.arenas ++ newArenas length' oldsz, d.grownFs (newArenas length' oldsz) hash, sb0,
              (length'.toUInt64 - length'.toUInt64 % ublksz - ublksz).toInt64⟩ := by
  obtain ⟨hp, h0, hs⟩ := h.placed a (List.mem_of_getLast? ha)
  have hlt := d.sb1.toInt_lt
  have hold := toInt_oldsz hp (by omega) (by omega)
  refine ⟨_, hold, ?_⟩
  unfold growfs
  rw [h.super]
  simp only [Option.bind_eq_bind, Option.bind_some]
  rw [h.loadarenas]
  simp only [Option.bind_some, ha]
  generalize ((a.h0 + a.size).toUInt64 + 2 * ublksz).toInt64 = oldsz at hold ⊢
  have hal : ¬ oldsz.toUInt64 % ublksz ≠ 0 := by
    have h1 := toNat_toUInt64 (n := oldsz) (by have := hp.pos; omega)
    have h2 : (oldsz.toUInt64 % ublksz).toNat = oldsz.toUInt64.toNat % 16384 := UInt64.toNat_mod _ _
    have h3 := hp.aligned.2
    rw [not_not, ← UInt64.toNat_inj, h2]
    change _ = 0
    omega
  refine if_congr Iff.rfl rfl ?_
  rw [if_neg hal]
  simp only [Option.map_eq_bind]
  rfl

/-- What a growth needs: few enough arenas for the assertion in `unpacksb`. -/
def CanGrow (d : Dev) : Prop := d.arenas.length + 4 < 256

/-- Rounding down goes on below zero. -/
theorem toInt_roundLess2_neg {sz : Int64} (h : -2 ^ 62 ≤ sz.toInt) (hneg : sz.toInt < 0) :
    (roundLess2 sz).toInt = sz.toInt - sz.toInt % 16384 - 2 * 16384 := by
  have hn : (sz.toUInt64.toNat : ℤ) = 2 ^ 64 + sz.toInt := by
    have h1 : sz.toUInt64.toNat = sz.toBitVec.toNat := rfl
    have h2 : sz.toInt = sz.toBitVec.toInt := rfl
    have h3 := BitVec.toInt_eq_toNat_cond sz.toBitVec
    rw [h2] at hneg ⊢
    rw [h1]
    split_ifs at h3 <;> omega
  have hmod : (sz.toUInt64 % ublksz).toNat = sz.toUInt64.toNat % 16384 := UInt64.toNat_mod _ _
  have h1 := UInt64.toNat_sub_of_le sz.toUInt64 (sz.toUInt64 % ublksz) (by
    rw [UInt64.le_iff_toNat_le]
    omega)
  have h2 : (2 * ublksz).toNat = 32768 := rfl
  have h3 := UInt64.toNat_sub_of_le (sz.toUInt64 - sz.toUInt64 % ublksz) (2 * ublksz) (by
    rw [UInt64.le_iff_toNat_le]
    omega)
  unfold roundLess2
  generalize sz.toUInt64 - sz.toUInt64 % ublksz - 2 * ublksz = x at h3 ⊢
  have h4 : x.toInt64.toInt = x.toBitVec.toInt := rfl
  have h5 := BitVec.toInt_eq_toNat_cond x.toBitVec
  have h6 : x.toBitVec.toNat = x.toNat := rfl
  rw [h4]
  split_ifs at h5 <;> omega

theorem toInt_diff {x y : Int64} (hx : 0 ≤ x.toInt) (hy : 0 ≤ y.toInt) :
    (x - y).toInt = x.toInt - y.toInt := by
  have h1 := x.toInt_lt
  have h2 := y.toInt_lt
  rw [Int64.toInt_sub, Int.bmod_eq_of_le] <;> omega

/-- The size of the new arenas: a fourth of the room, rounded down. -/
theorem toInt_newAsz {x y : Int64} (hx : 0 ≤ x.toInt) (hy : 0 ≤ y.toInt)
    (hxb : x.toInt % 16384 = 0) (hyb : y.toInt % 16384 = 0)
    (hd : x.toInt < y.toInt ∨ 4 * 1024 * 1024 ≤ x.toInt - y.toInt) :
    (roundLess2 ((x - y) / 4)).toInt = (x.toInt - y.toInt) / 4
      - (x.toInt - y.toInt) / 4 % 16384 - 2 * 16384 := by
  have hdiff := toInt_diff hx hy
  have hlt := y.toInt_lt
  have hq : ((x - y) / 4).toInt = (x.toInt - y.toInt) / 4 := by
    rw [Int64.toInt_div_of_ne_right _ _ (by decide), hdiff]
    change Int.tdiv _ 4 = _
    exact Int.tdiv_eq_ediv_of_dvd (by omega)
  rw [← hq]
  rcases hd with hd | hd
  · exact toInt_roundLess2_neg (by omega) (by omega)
  · exact toInt_roundLess2 (by omega)

/-- The comparison in `growfs`: below zero counts as room. -/
theorem toUInt64_lt_iff {x y : Int64} (hx : 0 ≤ x.toInt) (hy : 0 ≤ y.toInt) :
    (x - y).toUInt64 < 64 * mib
      ↔ y.toInt ≤ x.toInt ∧ x.toInt - y.toInt < 64 * 1024 * 1024 := by
  have hdiff := toInt_diff hx hy
  have h1 : (64 * mib).toNat = 67108864 := rfl
  have h2 : (x - y).toUInt64.toNat = (x - y).toBitVec.toNat := rfl
  have h3 : (x - y).toInt = (x - y).toBitVec.toInt := rfl
  have h4 := BitVec.toInt_eq_toNat_cond (x - y).toBitVec
  have h5 := (x - y).toBitVec.isLt
  have h6 := y.toInt_lt
  rw [UInt64.lt_iff_toNat_lt]
  split_ifs at h4 <;> omega

theorem toInt_grownNarena {length : ℤ} (h : Grown length d) (as : List NewArena)
    (hash : ℕ → UInt64) :
    (d.grownFs as hash).narena.toInt = d.arenas.length + 4 := by
  have hlt := Int32.lt_iff_toInt_lt.1 h.lt
  have h256 : (256 : Int32).toInt = 256 := rfl
  have hn := h.named.1
  change (d.fs.narena + 4).toInt = _
  rw [Int32.toInt_add, hn]
  change Int.bmod (_ + 4) _ = _
  exact Int.bmod_eq_of_le (by omega) (by omega)

/-- What is known of the last arena and of the new size. -/
theorem Grown.bounds (h : Grown length.toInt d) (ha : d.arenas.getLast? = some a)
    (hlt : length.toInt < length'.toInt) :
    0 ≤ a.stop ∧ a.stop % 16384 = 0 ∧ a.stop ≤ length'.toInt - length'.toInt % 16384 - 16384
      ∧ (roundLess2 length').toInt = length'.toInt - length'.toInt % 16384 - 2 * 16384
      ∧ 0 ≤ (roundLess2 length').toInt ∧ (roundLess2 length').toInt % 16384 = 0 := by
  obtain ⟨hp, h0, hs⟩ := h.placed a (List.mem_of_getLast? ha)
  have hb := h.backup
  have hpos := hp.pos
  have hround := @toInt_roundLess2 length' (by omega)
  exact ⟨by omega, hp.aligned.2, by omega, hround, by omega, by omega⟩

/-- Every arena ends before the last one does. -/
theorem Grown.stop_le_last {length : ℤ} (h : Grown length d) (ha : d.arenas.getLast? = some a)
    {b : NewArena} (hb : b ∈ d.arenas) : b.stop ≤ a.stop := by
  obtain ⟨as, has⟩ := List.getLast?_eq_some_iff.1 ha
  have ho := h.ordered
  have hp := (h.placed a (List.mem_of_getLast? ha)).1.pos
  rw [has] at ho hb
  rcases List.mem_append.1 hb with hb | hb
  · have := (List.pairwise_append.1 ho).2.2 b hb a List.mem_cons_self
    omega
  · rw [List.mem_singleton.1 hb]

theorem length_newArenas (length' oldsz : Int64) : (newArenas length' oldsz).length = 4 :=
  length_initarenas _ 4 _

/-- With room, the new arenas lie behind the last one. -/
theorem newArenas_placed (h : Grown length.toInt d) (ha : d.arenas.getLast? = some a)
    (hlt : length.toInt < length'.toInt) {oldsz : Int64} (hold : oldsz.toInt = a.stop)
    (hroom : a.stop + 64 * 1024 * 1024 ≤ (roundLess2 length').toInt) :
    (∀ b ∈ newArenas length' oldsz, Placed b ∧ a.stop ≤ b.h0.toInt
        ∧ b.stop ≤ (roundLess2 length').toInt)
      ∧ (newArenas length' oldsz).Pairwise fun b c => b.stop ≤ c.h0.toInt := by
  obtain ⟨h0, hs, hle, hround, hnn, hal⟩ := h.bounds ha hlt
  have hasz := toInt_newAsz (x := roundLess2 length') (y := oldsz) hnn (by omega) hal (by omega)
    (.inr (by omega))
  have hlt' := (roundLess2 length').toInt_lt
  unfold newArenas
  generalize roundLess2 ((roundLess2 length' - oldsz) / 4) = asz at hasz ⊢
  obtain ⟨hp, ho⟩ := @initarenas_placed asz (by omega) (by omega) 4 oldsz (by omega) (by omega)
    (by push_cast; omega)
  refine ⟨fun b hb => ?_, ho⟩
  obtain ⟨h1, h2, h3⟩ := hp b hb
  push_cast at h3
  exact ⟨h1, by omega, by omega⟩

/-- The address of the backup, where `growfs` writes it. -/
theorem toInt_backup (h : 16384 ≤ length.toInt) :
    (length.toUInt64 - length.toUInt64 % ublksz - ublksz).toInt64.toInt
      = length.toInt - length.toInt % 16384 - 16384 := by
  have hn := toNat_toUInt64 (n := length) (by omega)
  have hlt := length.toInt_lt
  have hmod : (length.toUInt64 % ublksz).toNat = length.toUInt64.toNat % 16384 :=
    UInt64.toNat_mod _ _
  have h1 := UInt64.toNat_sub_of_le length.toUInt64 (length.toUInt64 % ublksz) (by
    rw [UInt64.le_iff_toNat_le]
    omega)
  have h2 : ublksz.toNat = 16384 := rfl
  have h3 := UInt64.toNat_sub_of_le (length.toUInt64 - length.toUInt64 % ublksz) ublksz (by
    rw [UInt64.le_iff_toNat_le]
    omega)
  rw [toInt_toInt64 (by omega)]
  omega

/-- A growth with room puts its arenas behind the others, and its superblock is read back unless
there are too many of them. -/
theorem grown_of_room (h : Grown length.toInt d) (ha : d.arenas.getLast? = some a)
    (hlt : length.toInt < length'.toInt) {oldsz : Int64} (hold : oldsz.toInt = a.stop)
    (hroom : a.stop + 64 * 1024 * 1024 ≤ (roundLess2 length').toInt)
    (h256 : d.arenas.length + 4 < 256) {sb0 : Mem}
    (hsb : packsb d.sb0 (d.grownFs (newArenas length' oldsz) hash) = some sb0) :
    Grown length'.toInt
      ⟨d.arenas ++ newArenas length' oldsz, d.grownFs (newArenas length' oldsz) hash, sb0,
        (length'.toUInt64 - length'.toUInt64 % ublksz - ublksz).toInt64⟩ := by
  obtain ⟨h0, hs, hle, hround, hnn, hal⟩ := h.bounds ha hlt
  have hsb1 := @toInt_backup length' (by omega)
  obtain ⟨hp, ho⟩ := newArenas_placed h ha hlt hold hroom
  have hlen := length_newArenas length' oldsz
  generalize newArenas length' oldsz = as at hp ho hsb hlen ⊢
  have hna := toInt_grownNarena h as hash
  have hbp : ((d.grownFs as hash).arenabp).map (·.addr) = (d.arenas ++ as).map (·.h0) := by
    unfold Dev.grownFs
    rw [List.map_append, List.map_append, arenabps_addr, arenabps_addr]
  generalize d.grownFs as hash = fs at hna hbp hsb ⊢
  have hcount : fs.narena.toInt = (d.arenas ++ as).length := by
    rw [hna, List.length_append, hlen]
    push_cast
    rfl
  refine ⟨fun b hb => ?_, ?_, hsb1, ⟨hcount, hbp⟩,
    unpacksb_named hsb hcount hbp (by rw [List.length_append]; omega)⟩
  · dsimp only at hb ⊢
    rcases List.mem_append.1 hb with hb | hb
    · obtain ⟨h1, h2, h3⟩ := h.placed b hb
      have := h.stop_le_last ha hb
      exact ⟨h1, h2, by omega⟩
    · obtain ⟨h1, h2, h3⟩ := hp b hb
      have := (h.placed a (List.mem_of_getLast? ha)).1.pos
      have := (h.placed a (List.mem_of_getLast? ha)).2.1
      exact ⟨h1, by omega, by omega⟩
  · refine List.pairwise_append.2 ⟨h.ordered, ho, fun b hb c hc => ?_⟩
    have h1 := h.stop_le_last ha hb
    have h2 := (hp c hc).2.1
    omega

theorem exists_getLast (hne : d.arenas ≠ []) : ∃ a, d.arenas.getLast? = some a :=
  ⟨_, List.getLast?_eq_some_getLast hne⟩

/-- Where the new arenas can be loaded, the room for them was not just below zero. -/
theorem room_of_loadlogs (h : Grown length.toInt d) (ha : d.arenas.getLast? = some a)
    (hlt : length.toInt < length'.toInt) {oldsz : Int64} (hold : oldsz.toInt = a.stop)
    (hroom : ¬ (roundLess2 length' - oldsz).toUInt64 < 64 * mib) {qgen : Int64}
    {r : List (List Rng × ℤ)}
    (hr : (newArenas length' oldsz).mapM (·.loadlog qgen) = some r) :
    a.stop + 64 * 1024 * 1024 ≤ (roundLess2 length').toInt := by
  obtain ⟨h0, hs, hle, hround, hnn, hal⟩ := h.bounds ha hlt
  rw [toUInt64_lt_iff hnn (by omega)] at hroom
  by_contra hshort
  have hasz := toInt_newAsz (x := roundLess2 length') (y := oldsz) hnn (by omega) hal (by omega)
    (.inl (by omega))
  have hn := toNat_toUInt64 (n := oldsz) (by omega)
  obtain ⟨s, hfirst⟩ := of_mapM_some hr (initarena oldsz.toUInt64
    (roundLess2 ((roundLess2 length' - oldsz) / 4))) List.mem_cons_self
  have hpos := loadlog_pos (by omega) (by omega) (by omega) hfirst
  omega

/-- One growth is right exactly if `CanGrow` holds before it. -/
theorem growfs_grown_iff (h : Grown length.toInt d) (hne : d.arenas ≠ [])
    (hlt : length.toInt < length'.toInt) (hg : growfs length' hash d = some d') :
    (Grown length'.toInt d' ↔ CanGrow d) ∧ d'.arenas ≠ [] := by
  obtain ⟨a, ha⟩ := exists_getLast hne
  obtain ⟨oldsz, hold, he⟩ := growfs_eq h ha length' hash
  rw [he] at hg
  clear he
  split_ifs at hg with hroom
  obtain ⟨r, hr, hg⟩ := Option.bind_eq_some_iff.1 hg
  obtain ⟨sb0, hsb, rfl⟩ := Option.map_eq_some_iff.1 hg
  have hlarge := room_of_loadlogs h ha hlt hold hroom hr
  refine ⟨⟨fun h' => ?_, fun hc => ?_⟩, by simp [hne]⟩
  · have h256 := Int32.lt_iff_toInt_lt.1 h'.lt
    dsimp only at h256
    rw [toInt_grownNarena h] at h256
    have : (256 : Int32).toInt = 256 := rfl
    unfold CanGrow
    omega
  · exact grown_of_room h ha hlt hold hlarge hc hsb

/-- A device that became larger by more than an arena's worth can be grown. -/
theorem exists_growfs (h : Grown length.toInt d) (hne : d.arenas ≠ []) (length' : Int64)
    (hlt : length.toInt + 80 * 1024 * 1024 ≤ length'.toInt) (hash : ℕ → UInt64) :
    ∃ d', growfs length' hash d = some d' ∧ d'.arenas.length = d.arenas.length + 4 := by
  obtain ⟨a, ha⟩ := exists_getLast hne
  obtain ⟨h0, hs, hle, hround, hnn, hal⟩ := @Grown.bounds length length' d a h ha (by omega)
  obtain ⟨hp, -, hs1⟩ := h.placed a (List.mem_of_getLast? ha)
  have hb := h.backup
  obtain ⟨oldsz, hold, he⟩ := growfs_eq h ha length' hash
  rw [he, if_neg (by rw [toUInt64_lt_iff hnn (by omega)]; omega)]
  obtain ⟨hnew, -⟩ := @newArenas_placed length length' d a h ha (by omega) oldsz hold (by omega)
  obtain ⟨r, hr⟩ := loadlogs (fun b hb => (hnew b hb).1) d.fs.qgen
  have hna := toInt_grownNarena h (newArenas length' oldsz) hash
  have hlt256 := Int32.lt_iff_toInt_lt.1 h.lt
  have h256 : (256 : Int32).toInt = 256 := rfl
  have hn := h.named.1
  rw [hr, Option.bind_some]
  generalize d.grownFs _ hash = fs at hna ⊢
  have hpack : packsb d.sb0 fs = some _ := if_pos (by
    rw [Int32.lt_iff_toInt_lt, hna]
    change _ < (512 : ℤ)
    omega)
  rw [hpack]
  refine ⟨_, rfl, ?_⟩
  dsimp only
  rw [List.length_append, length_newArenas]

end Grow

/-! ## A run of growths -/

section Run

variable {length : Int64} {tb : GefsBptr} {hash : ℕ → UInt64} {d : Dev}
  {steps : List (Dev × Growth × Dev)}

/-- The device is longer at each growth. -/
def Longer (length : Int64) (gs : List Growth) : Prop :=
  (length :: gs.map (·.1)).IsChain fun l l' => l.toInt < l'.toInt

/-- A run of growths leaves the device right at every step exactly if it can grow at every step. -/
theorem growRun_grown_iff : ∀ (gs : List Growth) {length : Int64} {d : Dev}
    {steps : List (Dev × Growth × Dev)}, Grown length.toInt d → d.arenas ≠ [] →
    growRun d gs = some steps → Longer length gs →
    ((∀ s ∈ steps, Grown s.2.1.1.toInt s.2.2) ↔ ∀ s ∈ steps, CanGrow s.1)
  | [], _, _, _, _, _, hr, _ => by
    obtain rfl := Option.some.inj hr
    simp
  | g :: gs, length, d, steps, h, hne, hr, hl => by
    unfold growRun at hr
    obtain ⟨d', hg, hr⟩ := Option.bind_eq_some_iff.1 hr
    obtain ⟨rest, hrest, hr⟩ := Option.bind_eq_some_iff.1 hr
    obtain rfl := Option.some.inj hr
    obtain ⟨hlt, hl⟩ := List.isChain_cons_cons.1 hl
    obtain ⟨hiff, hne'⟩ := growfs_grown_iff h hne hlt hg
    simp only [List.forall_mem_cons]
    constructor
    · rintro ⟨h1, h2⟩
      exact ⟨hiff.1 h1, (growRun_grown_iff gs h1 hne' hrest hl).1 h2⟩
    · rintro ⟨h1, h2⟩
      exact ⟨hiff.2 h1, (growRun_grown_iff gs (hiff.2 h1) hne' hrest hl).2 h2⟩

/-- A device that is not too small is reamed right, and a run of growths on ever larger devices is
right exactly if the device can grow at each of them. -/
theorem grown_iff (length : Int64) (tb : GefsBptr) (hash : ℕ → UInt64)
    (h : 128 * 1024 * 1024 + 16384 ≤ length.toInt) :
    ∃ d, reamfs length tb hash = some d ∧ ∀ gs steps, growRun d gs = some steps →
      Longer length gs →
      ((Grown length.toInt d ∧ ∀ s ∈ steps, Grown s.2.1.1.toInt s.2.2)
        ↔ ∀ s ∈ steps, CanGrow s.1) := by
  obtain ⟨d, hd, hg, h8⟩ := reamfs_grown length tb hash h
  refine ⟨d, hd, fun gs steps hr hl => ?_⟩
  rw [and_iff_right hg]
  exact growRun_grown_iff gs hg (by rintro he; simp [he] at h8) hr hl

/-- The smallest device, grown once. -/
theorem grown_iff_least : ∃ d g steps, reamfs 134234112 ⟨114688, 0, -1⟩ (fun _ => 0) = some d
    ∧ growRun d [g] = some steps ∧ Longer 134234112 [g]
    ∧ ((Grown (134234112 : Int64).toInt d ∧ ∀ s ∈ steps, Grown s.2.1.1.toInt s.2.2)
      ↔ ∀ s ∈ steps, CanGrow s.1) := by
  have hl : (134234112 : Int64).toInt = 134234112 := by decide +kernel
  have hl' : (234234112 : Int64).toInt = 234234112 := by decide +kernel
  obtain ⟨d, hd, h⟩ := grown_iff 134234112 ⟨114688, 0, -1⟩ (fun _ => 0) (by omega)
  obtain ⟨d₁, hd₁, hg, h8⟩ := reamfs_grown 134234112 ⟨114688, 0, -1⟩ (fun _ => 0) (by omega)
  obtain rfl : d₁ = d := Option.some.inj (hd₁.symm.trans hd)
  obtain ⟨d', hd', -⟩ := exists_growfs hg (by rintro he; simp [he] at h8)
    234234112 (by omega) fun _ => 0
  have hrun : growRun d₁ [(234234112, fun _ => 0)]
      = some [(d₁, (234234112, fun _ => 0), d')] := by
    simp [growRun, hd']
  have hup : Longer 134234112 [(234234112, fun _ => 0)] := by
    refine List.isChain_cons_cons.2 ⟨?_, List.isChain_singleton _⟩
    dsimp only
    omega
  exact ⟨d₁, _, _, hd, hrun, hup, h _ _ hrun hup⟩

/-- Growths go on until there are too many arenas. -/
theorem exists_growRun (hash : ℕ → UInt64) : ∀ (k : ℕ) {length : Int64} {d : Dev},
    Grown length.toInt d → d.arenas ≠ [] → 256 ≤ d.arenas.length + 4 * k →
    length.toInt + k * (80 * 1024 * 1024) < 2 ^ 63 →
    ∃ gs steps, growRun d gs = some steps ∧ Longer length gs
      ∧ ¬ ∀ s ∈ steps, CanGrow s.1
  | 0, _, d, h, _, h256, _ => by
    have h1 := Int32.lt_iff_toInt_lt.1 h.lt
    have h2 := h.named.1
    have : (256 : Int32).toInt = 256 := rfl
    omega
  | k + 1, length, d, h, hne, h256, hlt => by
    push_cast at hlt
    have hmin := length.le_toInt
    have hl : (Int64.ofInt (length.toInt + 80 * 1024 * 1024)).toInt
        = length.toInt + 80 * 1024 * 1024 :=
      Int64.toInt_ofInt_of_le (by omega) (by omega)
    generalize Int64.ofInt (length.toInt + 80 * 1024 * 1024) = length' at hl
    obtain ⟨d', hg, hlen⟩ := exists_growfs h hne length' (by omega) hash
    obtain ⟨hiff, hne'⟩ := growfs_grown_iff h hne (by omega) hg
    by_cases hc : CanGrow d
    · obtain ⟨gs, steps, hr, hup, hs⟩ := exists_growRun hash k (hiff.2 hc) hne' (by omega)
        (by omega)
      refine ⟨(length', hash) :: gs, (d, (length', hash), d') :: steps, ?_, ?_, fun hall => ?_⟩
      · simp [growRun, hg, hr]
      · exact List.isChain_cons_cons.2 ⟨by dsimp only; omega, hup⟩
      · exact hs (List.forall_mem_cons.1 hall).2
    · refine ⟨[(length', hash)], [(d, (length', hash), d')], ?_, ?_, fun hall => ?_⟩
      · simp [growRun, hg]
      · exact List.isChain_cons_cons.2 ⟨by dsimp only; omega, List.isChain_singleton _⟩
      · exact hc (List.forall_mem_cons.1 hall).1

/-- Growth is not always right: a device of the smallest size has 256 arenas after 62 growths. -/
theorem not_forall_grown : ¬ ∀ (length : Int64) (tb : GefsBptr) (hash : ℕ → UInt64),
    128 * 1024 * 1024 + 16384 ≤ length.toInt →
    ∃ d, reamfs length tb hash = some d ∧ ∀ gs steps, growRun d gs = some steps →
      Longer length gs → Grown length.toInt d ∧ ∀ s ∈ steps, Grown s.2.1.1.toInt s.2.2 := by
  intro hall
  have hl : (134234112 : Int64).toInt = 134234112 := by decide +kernel
  obtain ⟨d, hd, h⟩ := hall 134234112 ⟨114688, 0, -1⟩ (fun _ => 0) (by omega)
  obtain ⟨d₁, hd₁, hg, h8⟩ := reamfs_grown 134234112 ⟨114688, 0, -1⟩ (fun _ => 0) (by omega)
  obtain rfl : d₁ = d := Option.some.inj (hd₁.symm.trans hd)
  have hne : d₁.arenas ≠ [] := by
    rintro he
    simp [he] at h8
  obtain ⟨gs, steps, hr, hup, hs⟩ := exists_growRun (fun _ => 0) 62 hg hne (by omega)
    (by rw [hl]; norm_num)
  exact hs ((growRun_grown_iff gs hg hne hr hup).1 (h gs steps hr hup).2)

end Run

end GefsFuse.Server
