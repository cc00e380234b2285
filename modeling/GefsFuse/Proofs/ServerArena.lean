import GefsFuse.Proofs.Ream
import GefsFuse.Server.Arena

/-!
# Arenas between the port and the original server

The two sides number the block types and the log's operations differently, put the fields of an
arena header in another order, and the port reads a header from the first byte of its block and a
log from the first byte of its own. What one side writes, the other never reads back.
-/

namespace GefsFuse

open ByteMem

/-! ## What the port takes from a log -/

/-- The allocation or the release at `i`, if it is one. -/
def portEv (m : Mem) (i : ℕ) : List Server.LogEv :=
  let ent := unpack64 m i
  let op := ent &&& 0xff
  let off := (ent &&& ~~~0xff).toInt64
  let len := if logStep ent = 16 then (unpack64 m (i + 8)).toInt64 else 16384
  if op = 0 ∨ op = 2 then [.free off len]
  else if op = 1 ∨ op = 3 then [.alloc off len]
  else []

/-- The allocations and releases of a block from `i` on. -/
def portEvs (m : Mem) (logsz i : ℕ) : List Server.LogEv :=
  if i < logsz then portEv m i ++ portEvs m logsz (i + logStep (unpack64 m i)) else []
  termination_by logsz - i
  decreasing_by unfold logStep; split <;> omega

/-- What an operation does to the free ranges. -/
def replayEv (fl : List GefsRange) : Server.LogEv → List GefsRange
  | .free off len => ⟨off, len⟩ :: fl
  | .alloc off len => allocRange off len fl
  | .sync _ => fl

theorem logEntry_eq (m : Mem) (i : ℕ) (fl : List GefsRange) :
    logEntry m i fl = (portEv m i).foldl replayEv fl := by
  unfold logEntry portEv
  dsimp only
  split_ifs <;> rfl

theorem replayLog_eq (m : Mem) (logsz i : ℕ) (fl : List GefsRange) :
    replayLog m logsz i fl = (portEvs m logsz i).foldl replayEv fl := by
  induction i, fl using replayLog.induct m logsz with
  | case1 i fl hi ih =>
    have hp : portEvs m logsz i = portEv m i ++ portEvs m logsz (i + logStep (unpack64 m i)) := by
      rw [portEvs, if_pos hi]
    rw [replayLog, if_pos hi, ih, hp, List.foldl_append, logEntry_eq]
  | case2 i fl hi =>
    rw [replayLog, if_neg hi, portEvs, if_neg hi]
    rfl

/-- The allocations and releases of the blocks from `bp` on. -/
def portChain : ℕ → GefsCtx → GefsBptr → Option (List Server.LogEv × GefsCtx)
  | 0, _, _ => none
  | fuel + 1, ctx, bp =>
    if bp.addr = -1 then some ([], ctx)
    else match gefsGetblk ctx bp with
      | (none, ctx) => some ([], ctx)
      | (some b, ctx) => do
        let (es, ctx) ← portChain fuel (gefsDropblk ctx b) (gefsUnpackbp b.buf 12)
        some (portEvs (fun i => b.buf (b.data + i)) (unpack16 b.buf 2) 0 ++ es, ctx)

/-- The port's free list is the replay of what it takes from the log. -/
theorem loadChain_eq : ∀ (fuel : ℕ) (ctx : GefsCtx) (bp : GefsBptr) (fl : List GefsRange),
    loadChain fuel ctx bp fl
      = (portChain fuel ctx bp).map fun r => (r.1.foldl replayEv fl, r.2)
  | 0, _, _, _ => rfl
  | fuel + 1, ctx, bp, fl => by
    unfold loadChain portChain
    split_ifs
    · rfl
    · rcases gefsGetblk ctx bp with ⟨_ | b, ctx1⟩
      · rfl
      · simp only [loadChain_eq fuel, replayLog_eq]
        rcases portChain fuel (gefsDropblk ctx1 b) (gefsUnpackbp b.buf 12) with _ | ⟨es, ctx2⟩
        · rfl
        · simp [List.foldl_append]

/-! ## The port and a header of the server -/

/-- `d` holds an arena of the server: its headers, and the blocks of a log that a history of
operations has left, the first one where the header says. -/
structure ServerWrote (d : Disk) (lo : Int64) (a : Server.Arena) : Prop where
  header : d.Has lo (Server.headerBuf a)
  copy : d.Has (lo + 16384) (Server.headerBuf a)
  log : ∃ l rs, Server.logHistory lo (lo + a.size + 32768) ⟨[], Server.mklogblk a.loghd⟩ rs = some l
    ∧ ∀ b ∈ l.full ++ [l.logtl], ∃ m, d.Has b.addr (Server.logBuf m b)

/-- The port reads the arena at `lo` as the server does: the size, the bytes used, the log head and
the allocations and releases in the log. -/
structure PortReads (d : Disk) (lo : Int64) (a : Server.Arena) (qgen : Int64) (readonly : Bool)
    (heap : ℕ → Mem) (sb : GefsSuper) (fuel : ℕ) : Prop where
  arena : ∃ h ar ctx, loadArena fuel (freshCtx d readonly heap sb) ⟨lo, h, 0⟩ = some (ar, ctx)
    ∧ ar.size = a.size ∧ ar.used = a.used ∧ ar.loghd.addr = a.loghd
  log : ∃ ar ctx es, portChain fuel (freshCtx d readonly heap sb) ⟨a.loghd, a.loghash, -1⟩
      = some (ar, ctx)
    ∧ Server.loadlog d.pread qgen fuel ⟨a.loghd, a.loghash, -1⟩ = some es
    ∧ ar = es.filter fun e => match e with
      | .sync _ => false
      | _ => true

/-- The word the port takes for the log head is made of the last two bytes of `used`. -/
theorem unpack64_headerBuf (a : Server.Arena) :
    unpack64 (Server.headerBuf a) 32
      = UInt64.ofNat (a.used.toUInt64.toNat % 65536 * 2 ^ 48) := by
  have hlen : (Server.packarena a).length = 32 := by simp [Server.packarena]
  have hat : At (Server.headerBuf a) 2 (Server.packarena a) :=
    (at_store _ _ _).store (by simp)
  have hzero : ∀ i, 34 ≤ i → Server.headerBuf a i = 0 := by
    intro i hi
    unfold Server.headerBuf
    rw [store_of_ge (by simp; omega), store_of_ge (by rw [hlen]; omega)]
  have hu : At (Server.headerBuf a) 26 (be 8 a.used.toUInt64.toNat) := by
    simp only [Server.packarena, at_append, List.length_append, length_pack64, Nat.reduceAdd] at hat
    exact hat.2
  generalize Server.headerBuf a = m at hu hzero ⊢
  generalize a.used.toUInt64.toNat = u at hu ⊢
  have hbe : be 8 u = be 6 (u / 256 / 256) ++ [UInt8.ofNat (u / 256)] ++ [UInt8.ofNat u] := rfl
  rw [hbe, at_append, at_append] at hu
  obtain ⟨⟨-, h1⟩, h2⟩ := hu
  have e1 : m 32 = UInt8.ofNat (u / 256) := by simpa [At, load] using h1
  have e2 : m 33 = UInt8.ofNat u := by simpa [At, load] using h2
  have hload : load m 32 8 = [UInt8.ofNat (u / 256), UInt8.ofNat u, 0, 0, 0, 0, 0, 0] := by
    simp only [load, Nat.reduceAdd, e1, e2, hzero 34 (by omega), hzero 35 (by omega),
      hzero 36 (by omega), hzero 37 (by omega), hzero 38 (by omega), hzero 39 (by omega)]
  have hsum : unbe [UInt8.ofNat (u / 256), UInt8.ofNat u, 0, 0, 0, 0, 0, 0]
      = u % 65536 * 2 ^ 48 := by
    simp only [unbe, List.foldl_cons, List.foldl_nil, UInt8.toNat_ofNat', UInt8.toNat_zero]
    omega
  unfold unpack64
  rw [hload, hsum]

/-- A log head that lies on a device of less than four exbibytes is never read back. -/
theorem loghd_ne {u : ℕ} (hu : u % 16384 = 0) {x : Int64} (h0 : 0 < x.toInt)
    (h1 : x.toInt < 2 ^ 62) : (UInt64.ofNat (u % 65536 * 2 ^ 48)).toInt64 ≠ x := by
  rintro rfl
  have hj : u % 65536 = 0 ∨ u % 65536 = 16384 ∨ u % 65536 = 32768 ∨ u % 65536 = 49152 := by omega
  rcases hj with hj | hj | hj | hj <;> rw [hj] at h0 h1 <;> revert h0 h1 <;> decide

theorem not_portReads {d : Disk} {lo : Int64} {a : Server.Arena} (hw : ServerWrote d lo a)
    (hu : a.used.toUInt64.toNat % 16384 = 0) (h0 : 0 < a.loghd.toInt) (h1 : a.loghd.toInt < 2 ^ 62)
    (qgen : Int64) (readonly : Bool) (heap : ℕ → Mem) (sb : GefsSuper) (fuel : ℕ) :
    ¬ PortReads d lo a qgen readonly heap sb fuel := by
  rintro ⟨⟨h, ar, ctx, hl, -, -, hhd⟩, -⟩
  obtain ⟨m, hm, heq⟩ := hw.header
  have hbuf : ∀ i < gefsBlksz, withTail m (heap 0) i = Server.headerBuf a i := by
    intro i hi
    rw [withTail, if_pos hi, heq i hi]
  have hbs : gefsBlksz = 16384 := rfl
  have htype : unpack16 (withTail m (heap 0)) 0 = 5 := by
    have hat : At (Server.headerBuf a) 0 (pack16 (5 : ℕ)) := at_store _ _ _
    rw [unpack16_congr fun i hi => hbuf (0 + i) (by omega)]
    exact unpack16_at_nat hat (by omega)
  have hword : unpack64 (withTail m (heap 0)) 32 = unpack64 (Server.headerBuf a) 32 :=
    unpack64_congr fun i hi => hbuf (32 + i) (by omega)
  have hparse : parseBlk (withTail m (heap 0))
      = { type := 5, nval := 0, valsz := 0, nbuf := 0, bufsz := 0, logsz := 0, data := 0,
          buf := withTail m (heap 0) } := by
    unfold parseBlk
    simp only [htype]
    rfl
  unfold loadArena at hl
  have hget : ∃ ctx1, gefsGetblk (freshCtx d readonly heap sb) ⟨lo, h, 0⟩
      = (some { parseBlk (withTail m (heap 0)) with id := 0, bp := ⟨lo, h, 0⟩, ref := 1 }, ctx1) := by
    unfold gefsGetblk
    have hf : (freshCtx d readonly heap sb).cache.find lo = none := rfl
    have hd : (freshCtx d readonly heap sb).disk.pread lo = some m := hm
    simp only [hf, hd]
    exact ⟨_, rfl⟩
  obtain ⟨ctx1, hget⟩ := hget
  rw [hget] at hl
  simp only [hparse] at hl
  obtain ⟨⟨fl, ctx2⟩, -, hl⟩ := Option.bind_eq_some_iff.1 hl
  simp only [Option.some.injEq, Prod.mk.injEq] at hl
  rw [← hl.1] at hhd
  have hhd' : (unpack64 (withTail m (heap 0)) 32).toInt64 = a.loghd := hhd
  rw [hword, unpack64_headerBuf] at hhd'
  exact loghd_ne hu h0 h1 hhd'

/-! ## The server and an arena of the formatter -/

/-- The server knows no block of the type of the port's headers. -/
theorem tryhdr_arenaHdr {d : Disk} {x h size used : Int64} {loghd : GefsBptr}
    (hx : d.Has x (arenaHdr h size used loghd).buf) : Server.tryhdr d.pread x = none := by
  obtain ⟨m, hm, heq⟩ := hx
  have hbs : gefsBlksz = 16384 := rfl
  have htype : unpack16 m 0 = 6 := by
    have hat : At (arenaHdr h size used loghd).buf 0 (pack16 (6 : ℕ)) := by
      rw [(arenaHdr_eq h size used loghd).1]
      exact at_store _ _ _
    rw [unpack16_congr fun i hi => heq (0 + i) (by omega)]
    exact unpack16_at_nat hat (by omega)
  have hread : Server.readblk m = none := by
    unfold Server.readblk
    simp only [htype]
    rfl
  unfold Server.tryhdr
  simp only [hm, hread, Option.map_none]

theorem loadarena_reamed {d d' : Disk} {r a u tb : GefsBptr} {nu : ℕ} {bps : List GefsBptr}
    (hf : Formatted d d' r a u tb nu bps) {i : ℕ} (hi : i < reamNarena d.size) (qgen : Int64)
    (fuel : ℕ) {hd : GefsBptr} (hhd : hd.addr = Int64.ofNat (16384 + i * stride d.size)) :
    Server.loadarena d'.pread qgen fuel hd = none := by
  have h1 : Server.tryhdr d'.pread hd.addr = none := by
    rw [hhd]
    exact tryhdr_arenaHdr (hf.hdr i hi)
  unfold Server.loadarena
  rw [h1]
  rfl

theorem blkFinalize_log {b : GefsBlk} (hb : b.type = gefsTlog) :
    ∃ w, (blkFinalize b).buf = store (store b.buf 0 (pack16 gefsTlog)) 2
      (pack16 b.logsz ++ pack64 w ++ gefsPackbp b.bp) := by
  have h0 : b.type ≠ gefsTdat := by rw [hb]; decide
  unfold blkFinalize
  simp only [if_pos h0, if_pos (Or.inl hb : b.type = gefsTlog ∨ b.type = gefsTdlist)]
  rw [hb]
  exact ⟨_, rfl⟩

/-- The type, the size and the content of a finalized log block. -/
theorem blkFinalize_log_bytes {b : GefsBlk} {l : Bytes} (hb : b.type = gefsTlog)
    (hl : At b.buf 36 l) :
    At (blkFinalize b).buf 0 (pack16 gefsTlog) ∧ At (blkFinalize b).buf 2 (pack16 b.logsz)
      ∧ At (blkFinalize b).buf 36 l := by
  obtain ⟨w, hw⟩ := blkFinalize_log hb
  rw [hw]
  have htail : (pack16 b.logsz ++ pack64 w ++ gefsPackbp b.bp).length = 34 := by
    rw [List.length_append, List.length_append, length_pack16, length_pack64, length_gefsPackbp]
  refine ⟨(at_store _ _ _).store (.inl (by rw [length_pack16])), ?_, ?_⟩
  · have h := at_store (store b.buf 0 (pack16 gefsTlog)) 2
      (pack16 b.logsz ++ pack64 w ++ gefsPackbp b.bp)
    rw [List.append_assoc, at_append] at h
    exact h.1
  · exact (hl.store (.inr (by rw [length_pack16]; omega))).store (.inr (by rw [htail]))

theorem reamLogBlk_bytes (logaddr asz : ℕ) :
    At (reamLogBlk logaddr asz).buf 0 (pack16 (4 : ℕ))
      ∧ At (reamLogBlk logaddr asz).buf 2 (pack16 (40 : ℕ))
      ∧ At (reamLogBlk logaddr asz).buf 36 (reamLog logaddr asz) :=
  blkFinalize_log_bytes rfl (at_store _ _ _)

/-- Number 0 is no operation of the server. -/
theorem logEv_zero {m : Mem} {p n : ℕ} (h : At m p (be 8 n)) (hn : n % 256 = 0) :
    Server.logEv m p = none := by
  have hw : (unpack64 m p &&& 0xff) = 0 := by
    have hu : unpack64 m p = UInt64.ofNat (n % 256 ^ 8) := by
      unfold unpack64
      rw [show load m p 8 = be 8 n by simpa [At] using h, unbe_be]
    apply UInt64.toNat_inj.1
    rw [hu, UInt64.toNat_and]
    have h255 : (0xff : UInt64).toNat = 2 ^ 8 - 1 := rfl
    rw [h255, Nat.and_two_pow_sub_one_eq_mod, UInt64.toNat_ofNat']
    show _ = 0
    omega
  unfold Server.logEv
  simp only [hw]
  rfl

/-- The log's first operation, the release of the arena, has a number the server does not know. -/
theorem loadlog_reamed {d d' : Disk} {r a u tb : GefsBptr} {nu : ℕ} {bps : List GefsBptr}
    (hf : Formatted d d' r a u tb nu bps) {i : ℕ} (hi : i < reamNarena d.size) (qgen : Int64)
    (fuel : ℕ) {bp : GefsBptr} (hbp : bp.addr = Int64.ofNat (16384 + 32768 + i * stride d.size)) :
    Server.loadlog d'.pread qgen fuel bp = none := by
  obtain ⟨m, hm, heq⟩ := hf.log i hi
  have hstride : stride d.size % 256 = 0 := by
    have h := stride_eq hf.lo
    omega
  have haddr : (16384 + i * stride d.size + 32768) % 256 = 0 := by
    have h := Nat.mul_mod i (stride d.size) 256
    rw [hstride, Nat.mul_zero, Nat.zero_mod] at h
    omega
  obtain ⟨htype, hsize, hlog⟩ :=
    reamLogBlk_bytes (16384 + i * stride d.size + 32768) (reamAsz d.size)
  generalize 16384 + i * stride d.size + 32768 = x at haddr htype hsize hlog heq
  generalize reamAsz d.size = asz at htype hsize hlog heq
  generalize (reamLogBlk x asz).buf = l at htype hsize hlog heq
  have hbs : gefsBlksz = 16384 := rfl
  have h4 : unpack16 m 0 = 4 := by
    rw [unpack16_congr fun j hj => heq (0 + j) (by omega)]
    exact unpack16_at_nat htype (by omega)
  have h40 : unpack16 m 2 = 40 := by
    rw [unpack16_congr fun j hj => heq (2 + j) (by omega)]
    exact unpack16_at_nat hsize (by omega)
  have hev : Server.logEv m 36 = none := by
    simp only [reamLog, List.append_assoc] at hlog
    rw [at_append] at hlog
    refine logEv_zero (hlog.1.congr fun j hj => heq (36 + j) ?_) haddr
    rw [length_be] at hj
    omega
  cases fuel with
  | zero => rfl
  | succ fuel =>
    have hread : Server.readblk m = some ⟨4, 36, 40, gefsUnpackbp m 12⟩ := by
      unfold Server.readblk
      simp only [h4, h40]
      rfl
    have hblk : Server.blkLog qgen m 36 40 0 = none := by
      unfold Server.blkLog
      simp [hev]
    unfold Server.loadlog
    simp only [hbp, hm, hread, hblk, Option.bind_eq_bind, Option.bind_some, Option.bind_none]

/-- The server reads the arena as the formatter meant it: the log head, the size and the bytes
used, and the log that frees the arena, takes the log block out and ends with a barrier. -/
def ServerReads (d' : Disk) (size i : ℕ) (qgen : Int64) (fuel : ℕ) : Prop :=
  let logaddr := Int64.ofNat (16384 + 32768 + i * stride size)
  let asz := Int64.ofNat (reamAsz size)
  ∃ h h', Server.loadarena d'.pread qgen fuel ⟨Int64.ofNat (16384 + i * stride size), h, -1⟩
    = some (⟨logaddr, h', asz, 16384⟩,
      [.free logaddr (asz - 32768), .alloc logaddr 16384, .sync 0])

/-! ## Neither reads the other -/

/-- An arena of the server with one allocated block, its log, which is empty. -/
def smallArena : Server.Arena := ⟨49152, 0, 1048576, 16384⟩

/-- The blocks of this arena. -/
def serverBlks : List (ℕ × Mem) :=
  [(16384, Server.headerBuf smallArena), (32768, Server.headerBuf smallArena),
    (49152, Server.logBuf (fun _ => 0) (Server.mklogblk 49152))]

def serverImage : Disk := writeAll ⟨2097152, fun _ => 0⟩ serverBlks

theorem serverWrote_serverImage : ServerWrote serverImage 16384 smallArena := by
  obtain ⟨-, hhas, -⟩ := @writeAll_spec ⟨2097152, fun _ => 0⟩ serverBlks (by decide)
    (by simp [serverBlks]) (by simp [serverBlks])
  refine ⟨hhas _ (List.mem_cons_self ..), ?_, ?_⟩
  · exact hhas (32768, _) (List.mem_cons_of_mem _ (List.mem_cons_self ..))
  · refine ⟨⟨[], Server.mklogblk 49152⟩, [], rfl, ?_⟩
    intro b hb
    obtain rfl := List.mem_singleton.1 hb
    exact ⟨fun _ => 0, hhas (49152, _)
      (List.mem_cons_of_mem _ (List.mem_cons_of_mem _ (List.mem_cons_self ..)))⟩

theorem not_serverReads {d d' : Disk} {r a u tb : GefsBptr} {nu : ℕ} {bps : List GefsBptr}
    (hf : Formatted d d' r a u tb nu bps) {i : ℕ} (hi : i < reamNarena d.size) (qgen : Int64)
    (fuel : ℕ) : ¬ ServerReads d' d.size i qgen fuel := by
  rintro ⟨_, _, hl⟩
  rw [loadarena_reamed hf hi qgen fuel rfl] at hl
  simp at hl

/-- Neither side reads what the other wrote: the port takes another log head from a header of the
server, and the server refuses both headers and the log of every arena of the formatter. -/
theorem formats_never_agree (qgen : Int64) (fuel : ℕ) :
    (∀ (d : Disk) (lo : Int64) (a : Server.Arena), ServerWrote d lo a →
      a.used.toUInt64.toNat % 16384 = 0 → 0 < a.loghd.toInt → a.loghd.toInt < 2 ^ 62 →
      ∀ readonly heap sb, ¬ PortReads d lo a qgen readonly heap sb fuel)
    ∧ ∀ (user : Bytes) (d d' : Disk), mkfs user d = some d' → ∀ i < reamNarena d.size,
      ¬ ServerReads d' d.size i qgen fuel
        ∧ ∀ h gen, Server.loadlog d'.pread qgen fuel
          ⟨Int64.ofNat (16384 + 32768 + i * stride d.size), h, gen⟩ = none := by
  refine ⟨fun d lo a hw hu h0 h1 ro heap sb => not_portReads hw hu h0 h1 _ _ _ _ _,
    fun user d d' h i hi => ?_⟩
  obtain ⟨r, a, u, tb, nu, bps, hf⟩ := mkfs_formatted h
  exact ⟨not_serverReads hf hi qgen fuel, fun _ _ => loadlog_reamed hf hi qgen fuel rfl⟩

theorem formats_never_agree_small :
    (ServerWrote serverImage 16384 smallArena
      ∧ ∀ qgen readonly heap sb fuel,
        ¬ PortReads serverImage 16384 smallArena qgen readonly heap sb fuel)
    ∧ ∃ d', mkfs [] blankImage = some d'
      ∧ ∀ qgen fuel, ¬ ServerReads d' blankImage.size 0 qgen fuel := by
  obtain ⟨d', hd'⟩ := mkfs_blankImage
  have hn := (reamNarena_bounds blankImage.size).1
  refine ⟨⟨serverWrote_serverImage, ?_⟩, d', hd', fun qgen fuel => ?_⟩
  · intro qgen readonly heap sb fuel
    exact (formats_never_agree qgen fuel).1 _ _ _ serverWrote_serverImage (by decide) (by decide)
      (by decide) readonly heap sb
  · exact ((formats_never_agree qgen fuel).2 [] blankImage d' hd' 0 (by omega)).1

/-- The server's one arena with an empty log and the formatter's first arena are read by neither. -/
theorem not_formats_agree :
    ¬ ((∀ (d : Disk) (lo : Int64) (a : Server.Arena), ServerWrote d lo a →
        a.used.toUInt64.toNat % 16384 = 0 → 0 < a.loghd.toInt → a.loghd.toInt < 2 ^ 62 →
        ∀ qgen readonly heap sb, ∃ fuel, PortReads d lo a qgen readonly heap sb fuel)
      ∨ ∀ (user : Bytes) (d d' : Disk), mkfs user d = some d' → ∀ i < reamNarena d.size,
        ∀ qgen, ∃ fuel, ServerReads d' d.size i qgen fuel) := by
  rintro (h | h)
  · obtain ⟨fuel, hp⟩ := h serverImage 16384 smallArena serverWrote_serverImage (by decide)
      (by decide) (by decide) 0 false (fun _ _ => 0) (reamSuper 8 ⟨0, 0, 0⟩ [])
    exact not_portReads serverWrote_serverImage (by decide) (by decide) (by decide) _ _ _ _ _ hp
  · obtain ⟨d', hd'⟩ := mkfs_blankImage
    obtain ⟨r, a, u, tb, nu, bps, hf⟩ := mkfs_formatted hd'
    have hi : 0 < reamNarena blankImage.size := by
      have hn := (reamNarena_bounds blankImage.size).1
      omega
    obtain ⟨fuel, hp⟩ := h [] blankImage d' hd' 0 hi 0
    exact not_serverReads hf hi 0 fuel hp

end GefsFuse
