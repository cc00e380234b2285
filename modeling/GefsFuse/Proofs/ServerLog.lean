import GefsFuse.Proofs.Format
import GefsFuse.Server.FreeLog

/-!
# The log of the free space

The operations that were packed are the ones a replay meets, block after block, up to the barrier
where it ends. The log's own blocks come from the arena it describes, and the operation that takes
one out stands in the block before it.
-/

namespace GefsFuse.Server

open Ranges ByteMem

/-! ## Words -/

/-- The low bits of an aligned word hold a number. -/
theorem bits_or {x op m : UInt64} (h : x &&& m = 0) (ho : op &&& m = op) :
    (x ||| op) &&& m = op ∧ (x ||| op) &&& ~~~m = x := by
  have h1 : ∀ i : ℕ, (x.toBitVec &&& m.toBitVec).getLsbD i = false := by
    intro i
    rw [← UInt64.toBitVec_and, h]
    simp
  have h2 : ∀ i : ℕ, (op.toBitVec &&& m.toBitVec).getLsbD i = op.toBitVec.getLsbD i := by
    intro i
    rw [← UInt64.toBitVec_and, ho]
  constructor <;> refine UInt64.toBitVec_inj.1 (BitVec.eq_of_getLsbD_eq fun i hi => ?_)
  all_goals
    have h1 := h1 i
    have h2 := h2 i
    simp only [UInt64.toBitVec_and, UInt64.toBitVec_or, UInt64.toBitVec_not, BitVec.getLsbD_and,
      BitVec.getLsbD_or, BitVec.getLsbD_not, hi, decide_true, Bool.true_and] at h1 h2 ⊢
    revert h1 h2
    cases x.toBitVec.getLsbD i <;> cases op.toBitVec.getLsbD i <;> cases m.toBitVec.getLsbD i <;>
      simp

theorem toInt_ofInt {x : ℤ} (h0 : 0 ≤ x) (h : x < 2 ^ 63) : (Int64.ofInt x).toInt = x :=
  Int64.toInt_ofInt_of_le (by omega) (by omega)

theorem toInt64_vlong (x : ℤ) : (vlong x).toInt64 = Int64.ofInt x :=
  Int64.toInt64_toUInt64 _

theorem toNat_vlong (x : ℤ) : ((vlong x).toNat : ℤ) = x % 2 ^ 64 := by
  have h : (vlong x).toNat = (BitVec.ofInt 64 x).toNat := rfl
  rw [h, BitVec.toNat_ofInt]
  have := Int.emod_nonneg x (by decide : ((2 ^ 64 : ℕ) : ℤ) ≠ 0)
  omega

theorem vlong_and {x : ℤ} (h : (256 : ℤ) ∣ x) : vlong x &&& 0xff = 0 := by
  obtain ⟨k, rfl⟩ := h
  apply UInt64.toNat_inj.1
  have h255 : (0xff : UInt64).toNat = 2 ^ 8 - 1 := rfl
  rw [UInt64.toNat_and, h255, Nat.and_two_pow_sub_one_eq_mod]
  have hv := toNat_vlong (256 * k)
  show _ = 0
  omega

/-- The bytes `w` are the operation `e`. -/
structure Coded (w : Bytes) (e : LogEv) : Prop where
  len : w.length = 8 ∨ w.length = 16
  reads : ∀ m o, At m o w → logEv m o = some e ∧ logWidth m o = w.length

theorem coded_alloc {x : ℤ} (h : (256 : ℤ) ∣ x) :
    Coded (LogReq.alloc (vlong x) 16384).words (.alloc (Int64.ofInt x) 16384) := by
  refine ⟨.inl (by simp [LogReq.words]), fun m o hat => ?_⟩
  have hu := unpack64_at (v := vlong x ||| logAlloc1) (by simpa [LogReq.words] using hat)
  obtain ⟨h1, h2⟩ := bits_or (vlong_and h) (rfl : logAlloc1 &&& 0xff = logAlloc1)
  unfold logEv logWidth
  simp only [hu, h1, h2, toInt64_vlong]
  simp [LogReq.words, logAlloc, logAlloc1, logSync]

theorem coded_free {x : ℤ} (h : (256 : ℤ) ∣ x) :
    Coded (LogReq.free (vlong x) 16384).words (.free (Int64.ofInt x) 16384) := by
  refine ⟨.inl (by simp [LogReq.words]), fun m o hat => ?_⟩
  have hu := unpack64_at (v := vlong x ||| logFree1) (by simpa [LogReq.words] using hat)
  obtain ⟨h1, h2⟩ := bits_or (vlong_and h) (rfl : logFree1 &&& 0xff = logFree1)
  unfold logEv logWidth
  simp only [hu, h1, h2, toInt64_vlong]
  simp [LogReq.words, logAlloc, logAlloc1, logFree, logFree1, logSync]

theorem coded_range {x : ℤ} (h : (256 : ℤ) ∣ x) (len : ℤ) :
    Coded (pack64 (vlong x ||| logFree) ++ pack64 (vlong len))
      (.free (Int64.ofInt x) (Int64.ofInt len)) := by
  refine ⟨.inr (by simp), fun m o hat => ?_⟩
  rw [at_append, length_pack64] at hat
  have hu := unpack64_at hat.1
  have hl := unpack64_at hat.2
  obtain ⟨h1, h2⟩ := bits_or (vlong_and h) (rfl : logFree &&& 0xff = logFree)
  unfold logEv logWidth
  simp only [hu, hl, h1, h2, toInt64_vlong]
  simp [logAlloc, logAlloc1, logFree, logFree1, logSync]

/-! ## Blocks -/

/-- The bytes `data` are the operations `es`. -/
def Tells (data : Bytes) (es : List LogEv) : Prop :=
  ∃ ws : List Bytes, data = ws.flatten ∧ List.Forall₂ Coded ws es

theorem tells_nil : Tells [] [] := ⟨[], rfl, .nil⟩

theorem Coded.tells {w : Bytes} {e : LogEv} (h : Coded w e) : Tells w [e] :=
  ⟨[w], by simp, .cons h .nil⟩

theorem Tells.append {d d' : Bytes} {es es' : List LogEv} (h : Tells d es) (h' : Tells d' es') :
    Tells (d ++ d') (es ++ es') := by
  obtain ⟨ws, rfl, hw⟩ := h
  obtain ⟨ws', rfl, hw'⟩ := h'
  exact ⟨ws ++ ws', by simp, List.rel_append hw hw'⟩

/-- The operations up to the first barrier of `qgen` or later, and whether there is one. -/
def upto (qgen : Int64) : List LogEv → List LogEv × Bool
  | [] => ([], false)
  | e :: es => if e.stops qgen then ([e], true) else (e :: (upto qgen es).1, (upto qgen es).2)

theorem upto_append (qgen : Int64) (es es' : List LogEv) : upto qgen (es ++ es')
    = if (upto qgen es).2 then upto qgen es
      else ((upto qgen es).1 ++ (upto qgen es').1, (upto qgen es').2) := by
  induction es with
  | nil => simp [upto]
  | cons e es ih =>
    rw [List.cons_append, upto, upto, ih]
    split_ifs <;> simp_all

theorem upto_of_forall {qgen : Int64} {es : List LogEv} (h : ∀ e ∈ es, e.stops qgen = false) :
    upto qgen es = (es, false) := by
  induction es with
  | nil => rfl
  | cons e es ih =>
    rw [List.forall_mem_cons] at h
    rw [upto, h.1, ih h.2]
    simp

theorem blkLog_tells {m : Mem} {p n : ℕ} (qgen : Int64) : ∀ {ws : List Bytes} {es : List LogEv}
    (i : ℕ), List.Forall₂ Coded ws es → At m (p + i) ws.flatten → i + ws.flatten.length = n →
      blkLog qgen m p n i = some (upto qgen es)
  | [], _, i, .nil, _, hn => by
    rw [blkLog, if_neg (by simp at hn; omega), upto]
  | w :: ws, e :: es, i, .cons hw hws, hat, hn => by
    rw [List.flatten_cons, at_append] at hat
    rw [List.flatten_cons, List.length_append] at hn
    obtain ⟨he, hl⟩ := hw.reads m (p + i) hat.1
    have hpos := hw.len
    rw [blkLog, if_pos (by omega), he, hl]
    have ih := blkLog_tells qgen (n := n) (i + w.length) hws
      (by rw [← Nat.add_assoc]; exact hat.2) (by omega)
    simp only [Option.bind_eq_bind, Option.bind_some, ih, upto]
    split_ifs <;> rfl

/-- A block is read as it was written. -/
theorem readblk_logBuf {m m' : Mem} {b : LogBlk} (h : ∀ i < gefsBlksz, m i = logBuf m' b i)
    (hb : b.data.length ≤ logspc) :
    ∃ t, readblk m = some ⟨t, 36, b.data.length, b.logp⟩ ∧ At m 36 b.data := by
  have hbs : gefsBlksz = 16384 := rfl
  have hspc : logspc = 16348 := rfl
  have hhd : gefsLoghdsz = 36 := rfl
  unfold logBuf at h
  rw [hhd] at h
  generalize hw : pack64 (bufhash _ _ _) = w at h
  have hwl : w.length = 8 := by rw [← hw, length_pack64]
  have hhdr : (pack16 tlog ++ pack16 b.data.length ++ w ++ gefsPackbp b.logp).length = 36 := by
    simp [hwl]
  have hat := at_store (store m' 36 b.data) 0
    (pack16 tlog ++ pack16 b.data.length ++ w ++ gefsPackbp b.logp)
  have hdata : At (store (store m' 36 b.data) 0
      (pack16 tlog ++ pack16 b.data.length ++ w ++ gefsPackbp b.logp)) 36 b.data :=
    (at_store m' 36 b.data).store (.inr (by rw [hhdr]))
  generalize store (store m' 36 b.data) 0 _ = full at h hat hdata
  rw [at_append, at_append, at_append] at hat
  obtain ⟨⟨⟨h1, h2⟩, -⟩, h3⟩ := hat
  simp only [List.length_append, length_pack16, hwl, Nat.zero_add, Nat.reduceAdd] at h2 h3
  have ht : unpack16 m 0 = tlog := by
    refine unpack16_at_nat (h1.congr fun i hi => h _ ?_) (by simp [tlog])
    simp at hi
    omega
  have hn : unpack16 m 2 = b.data.length := by
    refine unpack16_at_nat (h2.congr fun i hi => h _ ?_) (by omega)
    simp at hi
    omega
  have hp : gefsUnpackbp m 12 = b.logp := by
    refine gefsUnpackbp_at (h3.congr fun i hi => h _ ?_)
    simp at hi
    omega
  refine ⟨tlog, ?_, hdata.congr fun i hi => h _ (by omega)⟩
  unfold readblk
  simp only [ht, hn, hp]
  rfl

/-- The blocks `bs` are chained from the address `p` on to `q`. -/
def Leads : Int64 → List LogBlk → Int64 → Prop
  | p, [], q => p = q
  | p, b :: bs, q => b.addr = p ∧ p ≠ -1 ∧ Leads b.logp.addr bs q

theorem leads_append {bs cs : List LogBlk} {p q : Int64} :
    Leads p (bs ++ cs) q ↔ ∃ r, Leads p bs r ∧ Leads r cs q := by
  induction bs generalizing p with
  | nil => simp [Leads]
  | cons b bs ih => simp only [List.cons_append, Leads, ih, ← exists_and_left, and_assoc]

theorem leads_concat {bs : List LogBlk} {b : LogBlk} {p q : Int64} :
    Leads p (bs ++ [b]) q ↔ Leads p bs b.addr ∧ b.addr ≠ -1 ∧ b.logp.addr = q := by
  rw [leads_append]
  simp only [Leads]
  constructor
  · rintro ⟨r, h, rfl, h'⟩
    exact ⟨h, h'⟩
  · rintro ⟨h, h'⟩
    exact ⟨_, h, rfl, h'⟩

/-- The blocks `bs` are the operations `es`, none of them cut by the end of a block. -/
def TellsAll : List LogBlk → List LogEv → Prop
  | [], es => es = []
  | b :: bs, es => ∃ es₁ es₂, Tells b.data es₁ ∧ TellsAll bs es₂ ∧ es = es₁ ++ es₂

theorem tellsAll_concat {bs : List LogBlk} {b : LogBlk} {es : List LogEv} : TellsAll (bs ++ [b]) es
    ↔ ∃ es₁ es₂, TellsAll bs es₁ ∧ Tells b.data es₂ ∧ es = es₁ ++ es₂ := by
  induction bs generalizing es with
  | nil => simp [TellsAll]
  | cons c bs ih =>
    simp only [List.cons_append, TellsAll, ih]
    constructor
    · rintro ⟨es₁, _, h₁, ⟨es₂, es₃, h₂, h₃, rfl⟩, rfl⟩
      exact ⟨_, es₃, ⟨es₁, es₂, h₁, h₂, rfl⟩, h₃, (List.append_assoc _ _ _).symm⟩
    · rintro ⟨_, es₃, ⟨es₁, es₂, h₁, h₂, rfl⟩, h₃, rfl⟩
      exact ⟨es₁, _, h₁, ⟨es₂, es₃, h₂, h₃, rfl⟩, List.append_assoc _ _ _⟩

/-- A chain of blocks is replayed up to the first barrier of `qgen` or later. -/
theorem loadlog_tells {get : Int64 → Option Mem} (qgen : Int64) : ∀ {bs : List LogBlk}
    {es : List LogEv} {fuel : ℕ} {bp : GefsBptr}, Leads bp.addr bs (-1) → bs ≠ [] →
      TellsAll bs es → (∀ b ∈ bs, b.data.length ≤ logspc) →
      (∀ b ∈ bs, ∃ m m', get b.addr = some m ∧ ∀ i < gefsBlksz, m i = logBuf m' b i) →
      bs.length ≤ fuel → loadlog get qgen fuel bp = some (upto qgen es).1
  | [], _, _, _, _, h, _, _, _, _ => absurd rfl h
  | b :: bs, _, 0, _, _, _, _, _, _, hf => by simp at hf
  | b :: bs, _, fuel + 1, bp, ⟨ha, hne, hl⟩, _, ⟨es, ess, hb, hbs, rfl⟩, hlen, hdisk, hf => by
    rw [List.forall_mem_cons] at hlen hdisk
    obtain ⟨⟨m, m', hget, hm⟩, hdisk⟩ := hdisk
    obtain ⟨t, hread, hat⟩ := readblk_logBuf hm hlen.1
    obtain ⟨ws, hws, hcoded⟩ := hb
    have hlog : blkLog qgen m 36 b.data.length 0 = some (upto qgen es) :=
      blkLog_tells qgen 0 hcoded (by rwa [← hws]) (by rw [← hws, Nat.zero_add])
    rw [upto_append]
    unfold loadlog
    rw [← ha, hget]
    simp only [Option.bind_eq_bind, Option.bind_some, hread, hlog]
    by_cases hstop : (upto qgen es).2 = true
    · simp [hstop]
    · rw [if_neg hstop]
      cases bs with
      | nil =>
        have hl : b.logp.addr = -1 := hl
        obtain rfl : ess = [] := hbs
        simp [upto, hl]
      | cons c bs =>
        have hc : b.logp.addr ≠ -1 := hl.2.1
        rw [if_neg (by simp [hstop, hc]), loadlog_tells qgen hl (by simp) hbs hlen.2 hdisk
          (by simpa using hf)]
        rfl

/-! ## Replay -/

/-- The replay of `es` gives the set `s`, as blocks, and counts all others as used. -/
def Replays (size : ℤ) (es : List LogEv) (s : Set ℤ) : Prop :=
  ∃ t, replay size es = some (t, size - total t) ∧ Blocky 16384 t ∧ cover t = s

theorem replay_concat (size : ℤ) (es : List LogEv) (e : LogEv) :
    replay size (es ++ [e]) = (replay size es).bind (replayEv · e) := by
  unfold replay
  rw [List.foldlM_append]
  simp

theorem replays_nil (size : ℤ) : Replays size [] ∅ :=
  ⟨[], by simp [replay], ⟨by simp, by simp, by simp, .nil⟩, cover_nil⟩

section Replay

variable {size x len : ℤ} {es : List LogEv} {s : Set ℤ}

theorem Replays.sync (h : Replays size es s) (g : Int64) : Replays size (es ++ [.sync g]) s := by
  obtain ⟨t, ht, hb, hc⟩ := h
  exact ⟨t, by rw [replay_concat, ht]; rfl, hb, hc⟩

/-- A range apart from the free ones is put with them. -/
theorem freerange_eq {t : List Rng} (hb : Blocky 16384 t) (hp : 0 < len) (hx : 16384 ∣ x)
    (hl : 16384 ∣ len) (hd : Disjoint (⟨x, len⟩ : Rng).bytes (cover t)) :
    ∃ t', freerange t x len = some t' ∧ Blocky 16384 t'
      ∧ cover t' = cover t ∪ (⟨x, len⟩ : Rng).bytes ∧ total t' = total t + len := by
  refine ⟨put ⟨x, len⟩ t, ?_, hb.put (r := ⟨x, len⟩) hp hx hl hd⟩
  have hany : t.any (·.off = x) = false := by
    rw [List.any_eq_false]
    intro r hr heq
    obtain rfl : r.off = x := by simpa using heq
    have hlt := hb.pos r hr
    have h4 : r.off ∈ (⟨r.off, len⟩ : Rng).bytes := ⟨le_rfl, by rw [Rng.stop]; dsimp only; omega⟩
    exact Set.disjoint_left.1 hd h4 ⟨r, hr, le_rfl, by rw [Rng.stop]; omega⟩
  unfold freerange
  rw [if_neg (by simp [hany, Int.emod_eq_zero_of_dvd hl])]

theorem Replays.free (h : Replays size es s) (h0 : 0 ≤ x) (hp : 0 < len) (hx : 16384 ∣ x)
    (hl : 16384 ∣ len) (hhi : x + len < 2 ^ 63) (hd : Disjoint (⟨x, len⟩ : Rng).bytes s) :
    Replays size (es ++ [.free (Int64.ofInt x) (Int64.ofInt len)])
      (s ∪ (⟨x, len⟩ : Rng).bytes) := by
  obtain ⟨t, ht, hb, rfl⟩ := h
  obtain ⟨t', h1, h2, h3, h4⟩ := freerange_eq hb hp hx hl hd
  refine ⟨t', ?_, h2, h3⟩
  rw [replay_concat, ht]
  simp only [Option.bind_some, replayEv, toInt_ofInt h0 (by omega : x < 2 ^ 63),
    toInt_ofInt hp.le (by omega : len < 2 ^ 63), h1, Option.map_some]
  rw [h4, sub_add_eq_sub_sub]

theorem Replays.alloc (h : Replays size es s) (h0 : 0 ≤ x) (hx : 16384 ∣ x) (hhi : x < 2 ^ 63)
    (hs : (blkRng x).bytes ⊆ s) :
    Replays size (es ++ [.alloc (Int64.ofInt x) 16384]) (s \ (blkRng x).bytes) := by
  obtain ⟨t, ht, hb, rfl⟩ := h
  have hin : x ∈ cover t := hs ⟨le_refl x, by simp [Rng.stop]⟩
  obtain ⟨t', h1, h2, h3, h4⟩ := hb.grab (a := blkRng x) (by norm_num) hx (dvd_refl _)
    (hb.holds (by norm_num) hin hx)
  refine ⟨t', ?_, h2, h3⟩
  have h16 : (16384 : Int64).toInt = 16384 := rfl
  have h4 : total t' + 16384 = total t := h4
  rw [replay_concat, ht]
  simp only [Option.bind_some, replayEv, toInt_ofInt h0 hhi, h16, grabrange, Int.emod_self, ne_eq,
    not_true_eq_false, if_false]
  rw [h1, Option.map_some, ← h4]
  congr 2
  ring

end Replay

theorem total_eq_of_cover {b : ℤ} {l m : List Rng} (hl : Blocky b l) (hm : Blocky b m)
    (h : cover l = cover m) : total l = total m := by
  rw [hl.exact.total.2, hm.exact.total.2, h]

theorem Log.span_eq (l : Log) :
    l.span = cover ((l.blks.map (·.addr)).map fun x => blkRng x.toInt) := by
  rw [Log.span, List.map_map]
  rfl

/-! ## Taking a block -/

namespace ArenaSt

/-- The block `x` was taken. -/
structure Taken (a : ArenaSt) (x : ℤ) (a' : ArenaSt) : Prop where
  ok : a'.Ok
  frame : a' = { a with free := a'.free, used := a'.used }
  aligned : 16384 ∣ x
  lo : a.lo ≤ x
  hi : x + 16384 ≤ a.lo + a.size + 32768
  sub : (blkRng x).bytes ⊆ cover a.free
  free : cover a'.free = cover a.free \ (blkRng x).bytes

/-- A block is cut out of the range that holds it. -/
theorem Ok.take {a : ArenaSt} (h : a.Ok) {l m : List Rng} {cur : Rng} {x : ℤ}
    (hf : a.free = l ++ cur :: m) (hx : 16384 ∣ x) (h1 : cur.off ≤ x)
    (h2 : x + 16384 ≤ cur.stop) :
    Taken a x { a with free := l ++ (cut (blkRng x) cur ++ m), used := a.used + 16384 } := by
  have hb := h.free
  have hin := h.inside
  rw [hf] at hb hin
  obtain ⟨hc, hs⟩ := hin cur (by simp)
  obtain ⟨hb', hcov, htot⟩ := hb.cut (a := blkRng x) (by norm_num) hx (dvd_refl _) h1 h2
  refine ⟨⟨h.lo, h.hi, hb', ?_, ?_⟩, rfl, hx, hc.trans h1, h2.trans hs, ?_, by rw [hf]; exact hcov⟩
  · intro r hr
    rcases List.mem_append.1 hr with hr | hr
    · exact hin r (by simp [hr])
    rcases List.mem_append.1 hr with hr | hr
    · rcases mem_cut.1 hr with ⟨hlt, rfl⟩ | ⟨hlt, rfl⟩ <;> (simp only [Rng.stop] at *; omega)
    · exact hin r (by simp [hr])
  · have := h.used
    rw [hf] at this
    dsimp only at htot ⊢
    omega
  · intro y hy
    rw [hf]
    exact ⟨cur, by simp, h1.trans hy.1, hy.2.trans_le h2⟩

theorem keep_eq_cut_head {r : Rng} (hr : 16384 ≤ r.len) :
    keep ⟨r.off + 16384, r.len - 16384⟩ = cut (blkRng r.off) r := by
  have heq : r.off + r.len - (r.off + 16384) = r.len - 16384 := by ring
  unfold keep cut
  simp only [Rng.stop, lt_self_iff_false, if_false, List.nil_append, heq]
  by_cases h : r.len - 16384 = 0
  · rw [if_pos h, if_neg (by omega)]
  · rw [if_neg h, if_pos (by omega)]

theorem keep_eq_cut_last {r : Rng} (hr : 16384 ≤ r.len) :
    keep ⟨r.off, r.len - 16384⟩ = cut (blkRng (r.off + (r.len - 16384))) r := by
  have heq : r.off + (r.len - 16384) - r.off = r.len - 16384 := by ring
  have hstop : ¬ r.off + (r.len - 16384) + 16384 < r.off + r.len := by omega
  unfold keep cut
  simp only [Rng.stop, hstop, if_false, List.append_nil, heq]
  by_cases h : r.len - 16384 = 0
  · rw [if_pos h, if_neg (by omega)]
  · rw [if_neg h, if_pos (by omega)]

theorem length_keep_le (r : Rng) : (keep r).length ≤ 1 := by
  unfold keep
  split_ifs <;> simp

/-- `blkalloc_lk` gives a block unless only the reserve is left or the arena has no free block. -/
theorem blkallocLk_cases {a : ArenaSt} (h : a.Ok) (seq : Bool) :
    a.low = true ∧ a.blkallocLk seq = .ok (none, a)
      ∨ a.low = false ∧ a.free = [] ∧ a.blkallocLk seq = .error .stuffed
      ∨ a.low = false ∧ ∃ x a', a.blkallocLk seq = .ok (some x, a') ∧ Taken a x a'
        ∧ a'.free.length ≤ a.free.length := by
  unfold blkallocLk
  by_cases hlow : a.low = true
  · exact .inl ⟨hlow, by rw [if_pos hlow]⟩
  have hlow : a.low = false := by simpa using hlow
  refine .inr ?_
  rw [if_neg (by simp [hlow])]
  have hlen : ∀ r ∈ a.free, 16384 ≤ r.len := fun r hr =>
    Int.le_of_dvd (h.free.pos r hr) (h.free.len r hr)
  cases seq with
  | true =>
    rcases hf : a.free with _ | ⟨r, tl⟩
    · exact .inl ⟨hlow, rfl, rfl⟩
    · have hr := hlen r (by simp [hf])
      have ht := h.take (l := []) hf (h.free.off r (by simp [hf])) le_rfl
        (by rw [Rng.stop]; omega)
      refine .inr ⟨hlow, _, _, rfl, ?_, ?_⟩
      · rw [List.nil_append, ← keep_eq_cut_head hr] at ht
        exact ht
      · have := length_keep_le ⟨r.off + 16384, r.len - 16384⟩
        simp only [List.tail_cons, List.length_append, List.length_cons]
        omega
  | false =>
    rcases hf : a.free.getLast? with _ | r
    · exact .inl ⟨hlow, List.getLast?_eq_none_iff.1 hf, rfl⟩
    · have hf' : a.free = a.free.dropLast ++ [r] := by
        obtain ⟨l, hl⟩ := List.getLast?_eq_some_iff.1 hf
        rw [hl, List.dropLast_concat]
      have hmem : r ∈ a.free := by rw [hf']; simp
      have hr := hlen r hmem
      have ht := h.take (x := r.off + (r.len - 16384)) hf'
        (dvd_add (h.free.off r hmem) (dvd_sub (h.free.len r hmem) (dvd_refl _))) (by omega)
        (by rw [Rng.stop]; omega)
      refine .inr ⟨hlow, _, _, rfl, ?_, ?_⟩
      · rw [List.append_nil, ← keep_eq_cut_last hr] at ht
        exact ht
      · have := length_keep_le ⟨r.off, r.len - 16384⟩
        have h1 : a.free.length = a.free.dropLast.length + 1 := by
          conv_lhs => rw [hf']
          simp
        simp only [List.length_append]
        omega

/-! ## Appending -/

/-- The log is a chain of different blocks, none of them free, and the last one has room. -/
structure LogOk (a : ArenaSt) : Prop where
  leads : Leads a.loghd a.log.blks (-1)
  full : ∀ b ∈ a.log.full, b.data.length ≤ logspc
  tail : a.log.logtl.data.length < logspc - logslop + 16
  nodup : (a.log.blks.map (·.addr)).Nodup
  apart : Disjoint a.log.span (cover a.free)

/-- What a new block of the log adds to the log, if there is one, and what it takes. -/
def growth (o : Option ℤ) : List LogEv := o.toList.map fun x => .alloc (Int64.ofInt x) 16384

def grown (o : Option ℤ) : Set ℤ := cover (o.toList.map blkRng)

theorem grown_none : grown none = ∅ := cover_nil

theorem grown_some (x : ℤ) : grown (some x) = (blkRng x).bytes := by
  simp [grown, cover_cons]

/-- The operation `e` was appended, the log perhaps moving on to the block `o`. -/
structure Appended (a : ArenaSt) (e : LogEv) (o : Option ℤ) (a' : ArenaSt) : Prop where
  ok : a'.Ok
  log : a'.LogOk
  frame : a' = { a with free := a'.free, used := a'.used, log := a'.log }
  sub : grown o ⊆ cover a.free
  free : cover a'.free = cover a.free \ grown o
  span : a'.log.span = a.log.span ∪ grown o
  tells : ∀ es, TellsAll a.log.blks es → TellsAll a'.log.blks (es ++ growth o ++ [e])
  replays : ∀ es s, Replays a.size es s → grown o ⊆ s →
    Replays a.size (es ++ growth o) (s \ grown o)

theorem LogOk.mono {a a' : ArenaSt} (h : a.LogOk) (hhd : a'.loghd = a.loghd)
    (hlog : a'.log = a.log) (hs : cover a'.free ⊆ cover a.free) : a'.LogOk := by
  obtain ⟨h1, h2, h3, h4, h5⟩ := h
  rw [← hhd, ← hlog] at h1
  rw [← hlog] at h2 h3 h4 h5
  exact ⟨h1, h2, h3, h4, h5.mono_right hs⟩

theorem length_words_le (r : LogReq) : r.words.length ≤ 16 := by
  unfold LogReq.words
  split <;> (try split_ifs) <;> simp

variable {a : ArenaSt} {r : LogReq} {e : LogEv}

theorem appended_roomy (h : a.Ok) (hl : a.LogOk) (hc : Coded r.words e)
    (hroom : a.log.roomy = true) : Appended a e none
      { a with log := { a.log with
          logtl := { a.log.logtl with data := a.log.logtl.data ++ r.words } } } := by
  have hroom : a.log.logtl.data.length < logspc - logslop := by simpa [Log.roomy] using hroom
  have hw := length_words_le r
  obtain ⟨h1, h2, h3, h4, h5⟩ := hl
  have hspan : Log.span { a.log with
      logtl := { a.log.logtl with data := a.log.logtl.data ++ r.words } } = a.log.span := by
    simp [Log.span, Log.blks]
  refine ⟨⟨h.lo, h.hi, h.free, h.inside, h.used⟩, ⟨?_, h2, ?_, ?_, ?_⟩, rfl, ?_, ?_, ?_, ?_, ?_⟩
  · rw [Log.blks, leads_concat] at h1 ⊢
    exact h1
  · rw [List.length_append]
    omega
  · simpa [Log.blks] using h4
  · rw [hspan]
    exact h5
  · simp [grown_none]
  · simp [grown_none]
  · rw [hspan, grown_none, Set.union_empty]
  · intro es hes
    rw [Log.blks, tellsAll_concat] at hes ⊢
    obtain ⟨es₁, es₂, hes₁, hes₂, rfl⟩ := hes
    exact ⟨es₁, es₂ ++ [e], hes₁, hes₂.append hc.tells, by simp [growth]⟩
  · intro es s hes _
    simpa [growth, grown_none] using hes

theorem Taken.ge {x : ℤ} {a' : ArenaSt} (h : Taken a x a') (ha : a.Ok) : 0 ≤ x ∧ x < 2 ^ 63 := by
  have h1 := h.lo
  have h2 := h.hi
  have h3 := ha.lo
  have h4 := ha.hi
  omega

/-- The tail of `a`'s log chained to the block `x`, which begins with `data`. -/
def chainLog (a : ArenaSt) (x : ℤ) (data : Bytes) : Log :=
  ⟨a.log.full ++ [{ a.log.logtl with
      data := a.log.logtl.data ++ pack64 (vlong x ||| logAlloc1)
      logp := ⟨Int64.ofInt x, 0xffffffffffffffff, -1⟩ }],
    { mklogblk (Int64.ofInt x) with data := data }⟩

theorem chainLog_blks (a : ArenaSt) (x : ℤ) (data : Bytes) :
    (a.chainLog x data).blks.map (·.addr) = a.log.blks.map (·.addr) ++ [Int64.ofInt x] := by
  simp [chainLog, Log.blks, mklogblk]

theorem appended_chain (h : a.Ok) (hl : a.LogOk) (hc : Coded r.words e) {x : ℤ} {a' : ArenaSt}
    (ht : Taken a x a') : Appended a e (some x) { a' with log := a.chainLog x r.words } := by
  obtain ⟨h0, hx⟩ := ht.ge h
  have hi := toInt_ofInt h0 hx
  have hw := length_words_le r
  have hspc : logspc = 16348 := rfl
  have hslop : logslop = 40 := rfl
  obtain ⟨h1, h2, h3, h4, h5⟩ := hl
  have hspan : (a.chainLog x r.words).span = a.log.span ∪ (blkRng x).bytes := by
    rw [Log.span_eq, chainLog_blks, List.map_append, cover_append, ← Log.span_eq]
    simp [cover_cons, hi]
  have hsub := ht.sub
  have hin : x ∈ (blkRng x).bytes := ⟨le_rfl, by simp [Rng.stop]⟩
  refine ⟨⟨ht.ok.lo, ht.ok.hi, ht.ok.free, ht.ok.inside, ht.ok.used⟩, ⟨?_, ?_, ?_, ?_, ?_⟩, ?_, ?_,
    ?_, ?_, ?_, ?_⟩
  · have hhd : a'.loghd = a.loghd := by rw [ht.frame]
    rw [Log.blks, leads_concat] at h1
    simp only [chainLog, Log.blks, hhd, leads_concat]
    refine ⟨⟨h1.1, h1.2.1, rfl⟩, ?_, rfl⟩
    intro heq
    have : (Int64.ofInt x).toInt = -1 := by
      rw [show Int64.ofInt x = -1 from heq]
      rfl
    omega
  · intro b hb
    rcases List.mem_append.1 hb with hb | hb
    · exact h2 b hb
    · obtain rfl := List.mem_singleton.1 hb
      rw [List.length_append, length_pack64]
      omega
  · show r.words.length < _
    omega
  · rw [chainLog_blks, List.nodup_append]
    refine ⟨h4, List.nodup_singleton _, ?_⟩
    rintro y hy z hz rfl
    obtain rfl := List.mem_singleton.1 hz
    obtain ⟨b, hb, hba⟩ := List.mem_map.1 hy
    have hxs : x ∈ a.log.span := by
      refine ⟨blkRng b.addr.toInt, List.mem_map.2 ⟨b, hb, rfl⟩, ?_⟩
      rw [hba, hi]
      exact hin
    exact Set.disjoint_left.1 h5 hxs (hsub hin)
  · rw [hspan, ht.free]
    exact Set.disjoint_union_left.2 ⟨h5.mono_right Set.sdiff_subset, Set.disjoint_sdiff_right⟩
  · rw [ht.frame]
  · rw [grown_some]
    exact hsub
  · rw [grown_some]
    exact ht.free
  · rw [grown_some]
    exact hspan
  · intro es hes
    rw [Log.blks, tellsAll_concat] at hes
    obtain ⟨es₁, es₂, hes₁, hes₂, rfl⟩ := hes
    have hx8 : (256 : ℤ) ∣ x := dvd_trans (by norm_num) ht.aligned
    have htl := hes₂.append (coded_alloc hx8).tells
    simp only [chainLog, Log.blks, tellsAll_concat]
    refine ⟨_, _, ⟨es₁, _, hes₁, htl, rfl⟩, hc.tells, ?_⟩
    simp [growth]
  · intro es s hes hs
    rw [grown_some] at hs ⊢
    exact hes.alloc h0 ht.aligned hx hs

/-- `logappend` appends, unless the log cannot get the block it needs. -/
theorem logappend_cases (h : a.Ok) (hl : a.LogOk) (hc : Coded r.words e)
    (hr : r.ok (Int64.ofInt a.lo) (Int64.ofInt (a.lo + a.size + 32768)) = true) :
    (∃ o a', a.logappend r = .ok (true, a') ∧ Appended a e o a')
      ∨ a.log.roomy = false ∧ a.low = true ∧ a.logappend r = .ok (false, a)
      ∨ a.log.roomy = false ∧ a.low = false ∧ a.free = [] ∧ a.logappend r = .error .stuffed := by
  unfold logappend
  simp only [hr, Bool.true_eq_false, if_false]
  by_cases hroom : a.log.roomy = true
  · rw [if_pos hroom]
    have hlt : a.log.logtl.data.length < logspc - logslop := by simpa [Log.roomy] using hroom
    refine .inl ⟨none, _, ?_, appended_roomy h hl hc hroom⟩
    unfold Server.logappend
    simp only [hr, Bool.true_eq_false, if_false, if_pos hlt]
    rfl
  · rw [if_neg hroom]
    have hroom : a.log.roomy = false := by simpa using hroom
    rcases blkallocLk_cases h false with ⟨hlow, heq⟩ | ⟨hlow, hf, heq⟩ | ⟨hlow, x, a', heq, ht, -⟩
    · exact .inr (.inl ⟨hroom, hlow, by rw [heq]; rfl⟩)
    · exact .inr (.inr ⟨hroom, hlow, hf, by rw [heq]; rfl⟩)
    · have hlt : ¬ a.log.logtl.data.length < logspc - logslop := by simpa [Log.roomy] using hroom
      refine .inl ⟨some x, _, ?_, appended_chain h hl hc ht⟩
      have hlog : Server.logappend (Int64.ofInt a.lo) (Int64.ofInt (a.lo + a.size + 32768))
          (some (Int64.ofInt x)) a'.log r = some (a.chainLog x r.words) := by
        rw [show a'.log = a.log by rw [ht.frame]]
        unfold Server.logappend
        simp only [hr, Bool.true_eq_false, if_false, if_neg hlt]
        rfl
      simp only [heq, bind, Except.bind, hlog]
      rfl

/-! ## Blocks taken and given back -/

/-- The log tells the free ranges. -/
def Logs (a : ArenaSt) (es : List LogEv) : Prop :=
  TellsAll a.log.blks es ∧ Replays a.size es (cover a.free)

/-- A block in use that is not one of the log. -/
structure Live (a : ArenaSt) (x : ℤ) : Prop where
  aligned : 16384 ∣ x
  lo : a.lo ≤ x
  hi : x + 16384 ≤ a.lo + a.size + 32768
  busy : Disjoint (blkRng x).bytes (cover a.free)
  apart : Disjoint (blkRng x).bytes a.log.span

/-- The assertions of `logappend` hold of a block inside of the arena. -/
theorem Ok.asserts (h : a.Ok) {x : ℤ} (hx : 16384 ∣ x) (h1 : a.lo ≤ x)
    (h2 : x + 16384 ≤ a.lo + a.size + 32768) (n : UInt64) :
    LogReq.ok (Int64.ofInt a.lo) (Int64.ofInt (a.lo + a.size + 32768)) (.alloc (vlong x) n) = true
      ∧ LogReq.ok (Int64.ofInt a.lo) (Int64.ofInt (a.lo + a.size + 32768)) (.free (vlong x) n)
        = true := by
  have h3 := h.lo
  have h4 := h.hi
  have h8 : (256 : ℤ) ∣ x := dvd_trans (by norm_num) hx
  have hle : Int64.ofInt a.lo ≤ Int64.ofInt x := by
    rw [Int64.le_iff_toInt_le, toInt_ofInt h3 (by omega), toInt_ofInt (by omega) (by omega)]
    exact h1
  have hlt : Int64.ofInt x < Int64.ofInt (a.lo + a.size + 32768) := by
    rw [Int64.lt_iff_toInt_lt, toInt_ofInt (by omega) (by omega), toInt_ofInt (by omega) h4]
    omega
  simp only [LogReq.ok, vlong_and h8, toInt64_vlong, hle, hlt, and_self, decide_true]

/-- The block `x` was given back. -/
structure Returned (a : ArenaSt) (x : ℤ) (o : Option ℤ) (a' : ArenaSt) : Prop where
  ok : a'.Ok
  log : a'.LogOk
  frame : a' = { a with free := a'.free, used := a'.used, log := a'.log }
  sub : grown o ⊆ cover a.free
  free : cover a'.free = cover a.free \ grown o ∪ (blkRng x).bytes
  span : a'.log.span = a.log.span ∪ grown o
  logs : ∀ es, a.Logs es → a'.Logs (es ++ growth o ++ [.free (Int64.ofInt x) 16384])

theorem Appended.returned {a' : ArenaSt} {x : ℤ} {o : Option ℤ} (hx : Live a x) (h : a.Ok)
    (ha : Appended a (.free (Int64.ofInt x) 16384) o a') :
    ∃ t, freerange a'.free x 16384 = some t
      ∧ Returned a x o { a' with free := t, used := a'.used - 16384 } := by
  have hlo := h.lo
  have hhi := h.hi
  have hxlo := hx.lo
  have hxhi := hx.hi
  have hd : Disjoint (blkRng x).bytes (cover a'.free) := by
    rw [ha.free]
    exact hx.busy.mono_right Set.sdiff_subset
  obtain ⟨t, ht, hb, hc, htot⟩ :=
    freerange_eq ha.ok.free (by norm_num) hx.aligned (dvd_refl _) hd
  obtain ⟨h1, h2, h3, h4, h5⟩ := ha.log
  have hl : a'.lo = a.lo ∧ a'.size = a.size := by
    rw [ha.frame]
    exact ⟨rfl, rfl⟩
  have hspan : Disjoint a'.log.span (blkRng x).bytes := by
    rw [ha.span]
    exact Set.disjoint_union_left.2 ⟨hx.apart.symm, (hx.busy.mono_right ha.sub).symm⟩
  have hcov : cover t = cover a.free \ grown o ∪ (blkRng x).bytes := by rw [hc, ha.free]
  refine ⟨t, ht, ⟨ha.ok.lo, ha.ok.hi, hb, ?_, ?_⟩, ⟨h1, h2, h3, h4, ?_⟩, ?_, ha.sub, hcov, ha.span,
    ?_⟩
  · -- the ends of a range are blocks that were free, or the one given back
    intro r hr
    have hp := hb.pos r hr
    have hmem : ∀ y, y ∈ r.bytes → a.lo ≤ y ∧ y < a.lo + a.size + 32768 := by
      intro y hy
      have hyt : y ∈ cover t := ⟨r, hr, hy⟩
      rw [hcov] at hyt
      rcases hyt with hyt | hyt
      · obtain ⟨q, hq, hyq⟩ := hyt.1
        have := h.inside q hq
        rw [Rng.mem_bytes] at hyq
        omega
      · rw [Rng.mem_bytes, Rng.stop] at hyt
        dsimp only at hyt
        omega
    have hlow := hmem r.off ⟨le_rfl, by rw [Rng.stop]; omega⟩
    have hhigh := hmem (r.stop - 1) ⟨by rw [Rng.stop]; omega, by omega⟩
    dsimp only
    rw [hl.1, hl.2]
    omega
  · have := ha.ok.used
    dsimp only
    rw [htot]
    omega
  · dsimp only
    rw [hc]
    exact Set.disjoint_union_right.2 ⟨h5, hspan⟩
  · rw [ha.frame]
  · rintro es ⟨hes, hrep⟩
    refine ⟨ha.tells es hes, ?_⟩
    dsimp only
    rw [hl.2, hcov]
    have h16 : (16384 : Int64) = Int64.ofInt 16384 := rfl
    rw [h16]
    exact (ha.replays es _ hrep ha.sub).free (by omega) (by norm_num) hx.aligned (dvd_refl _)
      (by omega) (hx.busy.mono_right Set.sdiff_subset)

/-- `blkdealloc_lk` gives a block in use back, unless the log cannot get the block it needs. -/
theorem blkdeallocLk_cases (h : a.Ok) (hl : a.LogOk) {x : ℤ} (hx : Live a x) :
    (∃ o a', a.blkdeallocLk x = .ok (true, a') ∧ Returned a x o a')
      ∨ a.log.roomy = false ∧ a.low = true ∧ a.blkdeallocLk x = .ok (false, a)
      ∨ a.log.roomy = false ∧ a.low = false ∧ a.free = []
        ∧ a.blkdeallocLk x = .error .stuffed := by
  have hc := coded_free (x := x) (dvd_trans (by norm_num) hx.aligned)
  unfold blkdeallocLk
  rcases logappend_cases h hl hc (h.asserts hx.aligned hx.lo hx.hi _).2 with
    ⟨o, a', heq, ha⟩ | ⟨h1, h2, heq⟩ | ⟨h1, h2, h3, heq⟩
  · obtain ⟨t, ht, hr⟩ := ha.returned hx h
    exact .inl ⟨o, _, by simp only [heq, bind, Except.bind, ht]; rfl, hr⟩
  · exact .inr (.inl ⟨h1, h2, by simp only [heq, bind, Except.bind]; rfl⟩)
  · exact .inr (.inr ⟨h1, h2, h3, by simp only [heq, bind, Except.bind]⟩)

/-- No operation is a barrier. -/
def Clean (es : List LogEv) : Prop := ∀ e ∈ es, ∀ g, e.stops g = false

theorem clean_growth (o : Option ℤ) : Clean (growth o) := by
  intro e he g
  obtain ⟨x, -, rfl⟩ := List.mem_map.1 he
  rfl

theorem Clean.append {es es' : List LogEv} (h : Clean es) (h' : Clean es') : Clean (es ++ es') := by
  intro e he
  rcases List.mem_append.1 he with he | he
  exacts [h e he, h' e he]

theorem clean_free (x n : Int64) : Clean [.free x n] := by
  intro e he g
  rw [List.mem_singleton.1 he]
  rfl

theorem LogOk.length_le (h : a.LogOk) : ∀ b ∈ a.log.blks, b.data.length ≤ logspc := by
  intro b hb
  rcases List.mem_append.1 hb with hb | hb
  · exact h.full b hb
  · have ht := h.tail
    have hspc : logspc = 16348 := rfl
    have hslop : logslop = 40 := rfl
    rw [List.mem_singleton.1 hb]
    omega

/-- A log without barriers gives the free ranges back. -/
theorem Logs.recovers {es : List LogEv} (h : a.Logs es) (hok : a.Ok) (hl : a.LogOk)
    (hes : Clean es) (qgen : Int64) : a.Recovers qgen (cover a.free) a.used := by
  refine ⟨hl.nodup, fun get fuel hash hdisk hfuel => ?_⟩
  obtain ⟨htl, t, ht, hb, hc⟩ := h
  have hload : loadlog get qgen fuel ⟨a.loghd, hash, -1⟩ = some (upto qgen es).1 :=
    loadlog_tells qgen hl.leads (by simp [Log.blks]) htl hl.length_le hdisk hfuel
  rw [upto_of_forall fun e he => hes e he qgen] at hload
  refine ⟨es, t, hload, ?_, hc⟩
  rw [ht, hok.used, total_eq_of_cover hb hok.free hc]

/-! ## Compression -/

/-- The blocks `bs` were taken. -/
structure Got (a : ArenaSt) (bs : List ℤ) (a' : ArenaSt) : Prop where
  ok : a'.Ok
  frame : a' = { a with free := a'.free, used := a'.used }
  inside : ∀ x ∈ bs, 16384 ∣ x ∧ a.lo ≤ x ∧ x + 16384 ≤ a.lo + a.size + 32768
  apart : bs.Pairwise fun x y => Disjoint (blkRng x).bytes (blkRng y).bytes
  sub : cover (bs.map blkRng) ⊆ cover a.free
  free : cover a'.free = cover a.free \ cover (bs.map blkRng)
  length : a'.free.length ≤ a.free.length

theorem got_nil (h : a.Ok) : Got a [] a :=
  ⟨h, rfl, by simp, .nil, by simp, by simp, le_rfl⟩

theorem Taken.got {x : ℤ} {bs : List ℤ} {a₁ a' : ArenaSt} (h : Taken a x a₁)
    (hlen : a₁.free.length ≤ a.free.length) (hg : Got a₁ bs a') : Got a (x :: bs) a' := by
  have hcov : cover ((x :: bs).map blkRng) = (blkRng x).bytes ∪ cover (bs.map blkRng) := by
    rw [List.map_cons, cover_cons]
  have hsub := hg.sub
  rw [h.free] at hsub
  have hlo : a₁.lo = a.lo ∧ a₁.size = a.size := by
    rw [h.frame]
    exact ⟨rfl, rfl⟩
  refine ⟨hg.ok, ?_, ?_, List.pairwise_cons.2 ⟨?_, hg.apart⟩, ?_, ?_, hg.length.trans hlen⟩
  · rw [hg.frame, h.frame]
  · rw [List.forall_mem_cons]
    have := hg.inside
    rw [hlo.1, hlo.2] at this
    exact ⟨⟨h.aligned, h.lo, h.hi⟩, this⟩
  · intro y hy
    have hys : (blkRng y).bytes ⊆ cover (bs.map blkRng) :=
      fun z hz => ⟨_, List.mem_map.2 ⟨y, hy, rfl⟩, hz⟩
    exact Set.disjoint_left.2 fun z hz hz' => (hsub (hys hz')).2 hz
  · rw [hcov]
    exact Set.union_subset h.sub (hsub.trans Set.sdiff_subset)
  · rw [hcov, hg.free, h.free, Set.sdiff_sdiff]

theorem getBlks_cases (n : ℕ) : ∀ {a : ArenaSt}, a.Ok →
    (∃ bs a', getBlks n a = .ok (bs, a') ∧ bs.length = n ∧ Got a bs a')
      ∨ getBlks n a = .error .full ∨ getBlks n a = .error .stuffed := by
  induction n with
  | zero => exact fun h => .inl ⟨[], _, rfl, rfl, got_nil h⟩
  | succ n ih =>
    intro a h
    unfold getBlks
    rcases blkallocLk_cases h true with ⟨-, heq⟩ | ⟨-, -, heq⟩ | ⟨-, x, a₁, heq, ht, hlen⟩
    · exact .inr (.inl (by simp only [heq, bind, Except.bind]; rfl))
    · exact .inr (.inr (by simp only [heq, bind, Except.bind]))
    · rcases ih ht.ok with ⟨bs, a', hbs, hn, hg⟩ | hbs | hbs
      · exact .inl ⟨x :: bs, a', by simp only [heq, bind, Except.bind, orFault, hbs]; rfl,
          by rw [List.length_cons, hn], ht.got hlen hg⟩
      · exact .inr (.inl (by simp only [heq, bind, Except.bind, orFault, hbs]))
      · exact .inr (.inr (by simp only [heq, bind, Except.bind, orFault, hbs]))

/-- The operation a range of the new log stands for. -/
def freeEv (r : Rng) : LogEv := .free (Int64.ofInt r.off) (Int64.ofInt r.len)

/-- A log written from `p` on, the last block holding `c` ranges. -/
structure Written (p : Int64) (l : Log) (c : ℕ) (es : List LogEv) : Prop where
  leads : Leads p l.blks (-1)
  full : ∀ b ∈ l.full, b.data.length ≤ logspc
  tail : l.logtl.data.length = 16 * c
  count : c ≤ 1020
  tells : TellsAll l.blks es

section Fill

variable {p : Int64} {full : List LogBlk} {b : LogBlk} {c : ℕ} {es : List LogEv} {q : Rng}

/-- A range written to the last block. -/
theorem Written.here (h : Written p ⟨full, b⟩ c es) (hc : c < 1020) (hq : (256 : ℤ) ∣ q.off) :
    Written p ⟨full, { b with
      data := b.data ++ (pack64 (vlong q.off ||| logFree) ++ pack64 (vlong q.len)) }⟩ (c + 1)
      (es ++ [freeEv q]) := by
  obtain ⟨h1, h2, h3, h4, h5⟩ := h
  refine ⟨?_, h2, ?_, by omega, ?_⟩
  · rw [Log.blks, leads_concat] at h1 ⊢
    exact h1
  · simp only [List.length_append, length_pack64]
    dsimp only at h3
    omega
  · rw [Log.blks, tellsAll_concat] at h5 ⊢
    obtain ⟨es₁, es₂, h6, h7, rfl⟩ := h5
    exact ⟨es₁, _, h6, h7.append (coded_range hq q.len).tells, by simp [freeEv]⟩

/-- A range written to a new block, at `o`. -/
theorem Written.next (h : Written p ⟨full, b⟩ c es) (hq : (256 : ℤ) ∣ q.off) {o : ℤ} (h0 : 0 ≤ o)
    (ho : o < 2 ^ 63) :
    Written p ⟨full ++ [{ b with logp := ⟨Int64.ofInt o, 0xffffffffffffffff, -1⟩ }],
      { mklogblk (Int64.ofInt o) with
        data := pack64 (vlong q.off ||| logFree) ++ pack64 (vlong q.len) }⟩ 1
      (es ++ [freeEv q]) := by
  obtain ⟨h1, h2, h3, h4, h5⟩ := h
  have hspc : logspc = 16348 := rfl
  refine ⟨?_, ?_, ?_, by omega, ?_⟩
  · rw [Log.blks, leads_concat] at h1
    simp only [Log.blks, leads_concat]
    refine ⟨⟨h1.1, h1.2.1, rfl⟩, fun heq => ?_, rfl⟩
    have hi := toInt_ofInt h0 ho
    rw [show Int64.ofInt o = -1 from heq] at hi
    have : (-1 : Int64).toInt = -1 := rfl
    omega
  · intro x hx
    rcases List.mem_append.1 hx with hx | hx
    · exact h2 x hx
    · rw [List.mem_singleton.1 hx]
      dsimp only at h3 ⊢
      omega
  · simp
  · rw [Log.blks, tellsAll_concat] at h5
    obtain ⟨es₁, es₂, h6, h7, rfl⟩ := h5
    simp only [Log.blks, tellsAll_concat]
    exact ⟨_, _, ⟨es₁, es₂, h6, h7, rfl⟩, (coded_range hq q.len).tells, by simp [freeEv]⟩

/-- A block of the log holds 1020 ranges, and the table has enough blocks for the ones left. -/
theorem fillLog_ok {tbl : List ℤ} (ht : ∀ o ∈ tbl, 0 ≤ o ∧ o < 2 ^ 63) : ∀ {rs : List Rng}
    {full : List LogBlk} {b : LogBlk} {i c : ℕ} {es : List LogEv}, Written p ⟨full, b⟩ c es →
      c + rs.length ≤ 1020 * (tbl.length - i + 1) → i ≤ tbl.length →
      (∀ r ∈ rs, (256 : ℤ) ∣ r.off) →
      ∃ l j c', fillLog tbl rs full b i = .ok (l, j) ∧ i ≤ j ∧ j ≤ tbl.length
        ∧ l.blks.map (·.addr)
          = (full ++ [b]).map (·.addr) ++ ((tbl.take j).drop i).map (Int64.ofInt ·)
        ∧ Written p l c' (es ++ rs.map freeEv)
  | [], full, b, i, c, es, hw, _, hi, _ =>
    ⟨⟨full, b⟩, i, c, rfl, le_rfl, hi, by simp [Log.blks, List.drop_eq_nil_of_le], by simpa⟩
  | q :: rs, full, b, i, c, es, hw, hlen, hi, hrs => by
    rw [List.forall_mem_cons] at hrs
    rw [List.length_cons] at hlen
    have htail : b.data.length = 16 * c := hw.tail
    have hcount := hw.count
    have hspc : logspc - logslop = 16308 := rfl
    unfold fillLog
    simp only [hspc, htail]
    by_cases hc : 16308 ≤ 16 * c
    · have hlt : i < tbl.length := by omega
      obtain ⟨h0, ho⟩ := ht tbl[i] (List.getElem_mem hlt)
      obtain ⟨l, j, c', h1, h2, h3, h4, h5⟩ := fillLog_ok ht (i := i + 1) (hw.next hrs.1 h0 ho)
        (by omega) (by omega) hrs.2
      refine ⟨l, j, c', ?_, by omega, h3, ?_, by simpa using h5⟩
      · simp only [if_pos hc, List.getElem?_eq_getElem hlt, orFault, bind, Except.bind]
        exact h1
      · have hd : (tbl.take j).drop i = tbl[i] :: (tbl.take j).drop (i + 1) := by
          have hlt' : i < (tbl.take j).length := by
            rw [List.length_take]
            omega
          rw [List.drop_eq_getElem_cons hlt', List.getElem_take]
        rw [h4, hd]
        simp [mklogblk]
    · obtain ⟨l, j, c', h1, h2, h3, h4, h5⟩ := fillLog_ok ht (i := i) (hw.here (by omega) hrs.1)
        (by omega) hi hrs.2
      refine ⟨l, j, c', ?_, h2, h3, ?_, by simpa using h5⟩
      · rw [if_neg hc]
        exact h1
      · rw [h4]
        simp

end Fill

/-- A list of ranges is replayed as it was written. -/
theorem replays_ranges {size : ℤ} : ∀ {rs : List Rng} {es : List LogEv} {s : Set ℤ},
    Replays size es s → Blocky 16384 rs → Disjoint (cover rs) s →
      (∀ r ∈ rs, 0 ≤ r.off ∧ r.stop < 2 ^ 63) →
      Replays size (es ++ rs.map freeEv) (s ∪ cover rs)
  | [], es, s, h, _, _, _ => by simpa using h
  | q :: rs, es, s, h, hb, hd, hin => by
    rw [List.forall_mem_cons] at hin
    rw [cover_cons, Set.disjoint_union_left] at hd
    obtain ⟨⟨hp, ho, hl⟩, hb', hlt⟩ := blocky_cons.1 hb
    have hq := h.free hin.1.1 hp ho hl hin.1.2 hd.1
    have hdis : Disjoint (cover rs) q.bytes := by
      refine Set.disjoint_left.2 ?_
      rintro x ⟨r, hr, hx⟩ hxq
      have := hlt r hr
      rw [Rng.mem_bytes] at hx hxq
      omega
    have := replays_ranges hq hb' (Set.disjoint_union_right.2 ⟨hd.2, hdis⟩) hin.2
    rw [List.append_assoc] at this
    rw [cover_cons, ← Set.union_assoc]
    exact this

theorem Live.mono {a a' : ArenaSt} {x : ℤ} (h : Live a x) (hlo : a'.lo = a.lo)
    (hsize : a'.size = a.size)
    (hs : Disjoint (blkRng x).bytes (cover a'.free ∪ a'.log.span)) : Live a' x := by
  rw [Set.disjoint_union_right] at hs
  exact ⟨h.aligned, by rw [hlo]; exact h.lo, by rw [hlo, hsize]; exact h.hi, hs.1, hs.2⟩

/-- Blocks given back one after another: what is free or the log's grows by them. -/
theorem putBlks_cases : ∀ {bs : List ℤ} {a : ArenaSt} {es : List LogEv}, a.Ok → a.LogOk →
    a.Logs es → Clean es → (∀ x ∈ bs, Live a x) →
    bs.Pairwise (fun x y => Disjoint (blkRng x).bytes (blkRng y).bytes) →
    (∃ a' es', putBlks bs a = .ok a' ∧ a'.Ok ∧ a'.LogOk ∧ a'.Logs es' ∧ Clean es'
        ∧ cover a'.free ∪ a'.log.span = cover a.free ∪ a.log.span ∪ cover (bs.map blkRng))
      ∨ putBlks bs a = .error .full ∨ putBlks bs a = .error .stuffed
  | [], a, es, h, hl, hlogs, hes, _, _ => .inl ⟨a, es, rfl, h, hl, hlogs, hes, by simp⟩
  | x :: bs, a, es, h, hl, hlogs, hes, hlive, hp => by
    rw [List.forall_mem_cons] at hlive
    obtain ⟨hpx, hp⟩ := List.pairwise_cons.1 hp
    unfold putBlks
    rcases blkdeallocLk_cases h hl hlive.1 with ⟨o, a₁, heq, hr⟩ | ⟨-, -, heq⟩ | ⟨-, -, -, heq⟩
    · have hset : cover a₁.free ∪ a₁.log.span
          = cover a.free ∪ a.log.span ∪ (blkRng x).bytes := by
        rw [hr.free, hr.span]
        ext y
        have := @hr.sub y
        simp only [Set.mem_union, Set.mem_sdiff]
        tauto
      have hfr : a₁.lo = a.lo ∧ a₁.size = a.size := by
        rw [hr.frame]
        exact ⟨rfl, rfl⟩
      have hlive' : ∀ y ∈ bs, Live a₁ y := fun y hy => by
        have hy' := hlive.2 y hy
        refine hy'.mono hfr.1 hfr.2 ?_
        rw [hset]
        exact ((hy'.busy.union_right hy'.apart).union_right (hpx y hy).symm)
      simp only [heq, bind, Except.bind, if_true]
      rcases putBlks_cases hr.ok hr.log (hr.logs es hlogs)
        ((hes.append (clean_growth o)).append (clean_free _ _)) hlive' hp with
        ⟨a', es', h1, h2, h3, h4, h5, h6⟩ | h1 | h1
      · refine .inl ⟨a', es', h1, h2, h3, h4, h5, ?_⟩
        rw [h6, hset, List.map_cons, cover_cons, ← Set.union_assoc]
      · exact .inr (.inl h1)
      · exact .inr (.inr h1)
    · exact .inr (.inl (by simp only [heq, bind, Except.bind]; rfl))
    · exact .inr (.inr (by simp only [heq, bind, Except.bind]))

theorem nblks_eq {nr n : ℕ} (h : nblks nr = some n) : 0 < n ∧ nr ≤ 1020 * n := by
  have hspc : logspc = 16348 := rfl
  have hslop : logslop = 40 := rfl
  unfold nblks at h
  simp only [hspc, hslop] at h
  split_ifs at h
  obtain rfl := Option.some.inj h
  omega

theorem nblks_eq_none {nr : ℕ} : nblks nr = none ↔ 2 ^ 27 ≤ nr := by
  unfold nblks
  dsimp only
  split_ifs with h
  · simp
    omega
  · simp
    omega

/-- The blocks taken are first the log's, and those behind them are given back. -/
theorem got_written {a a₁ : ArenaSt} {tbl : List ℤ} (hg : Got a tbl a₁) {l : Log} {hd : ℤ}
    {j c : ℕ} {es : List LogEv} (hw : Written (Int64.ofInt hd) l c es) (ha : a.Ok)
    (hblks : l.blks.map (·.addr) = (tbl.take j).map (Int64.ofInt ·)) :
    LogOk { a₁ with loghd := Int64.ofInt hd, log := l } ∧ l.span = cover ((tbl.take j).map blkRng)
      ∧ ∀ x ∈ tbl.drop j, Live { a₁ with loghd := Int64.ofInt hd, log := l } x := by
  have hlo := ha.lo
  have hhi := ha.hi
  have hfr : a₁.lo = a.lo ∧ a₁.size = a.size := by
    rw [hg.frame]
    exact ⟨rfl, rfl⟩
  have hint : ∀ x ∈ tbl, (Int64.ofInt x).toInt = x := fun x hx => by
    have := hg.inside x hx
    exact toInt_ofInt (by omega) (by omega)
  have hspan : l.span = cover ((tbl.take j).map blkRng) := by
    rw [Log.span_eq, hblks, List.map_map]
    congr 1
    refine List.map_congr_left fun x hx => ?_
    rw [Function.comp_apply, hint x (List.mem_of_mem_take hx)]
  have hsplit := hg.apart
  rw [← List.take_append_drop j tbl, List.pairwise_append] at hsplit
  have hsub : ∀ x ∈ tbl, (blkRng x).bytes ⊆ cover (tbl.map blkRng) :=
    fun x hx z hz => ⟨_, List.mem_map.2 ⟨x, hx, rfl⟩, hz⟩
  have hbusy : ∀ x ∈ tbl, Disjoint (blkRng x).bytes (cover a₁.free) := fun x hx => by
    rw [hg.free]
    exact Set.disjoint_sdiff_right.mono_left (hsub x hx)
  have hspc : logspc = 16348 := rfl
  have hslop : logslop = 40 := rfl
  have htail := hw.tail
  have hcount := hw.count
  refine ⟨⟨hw.leads, hw.full, by dsimp only; omega, ?_, ?_⟩, hspan, fun x hx => ?_⟩
  · rw [hblks]
    refine List.pairwise_map.2 (hsplit.1.imp_of_mem fun {x y} hx hy hd heq => ?_)
    have hxy : x = y := by
      rw [← hint x (List.mem_of_mem_take hx), heq, hint y (List.mem_of_mem_take hy)]
    have hmem : x ∈ (blkRng x).bytes := ⟨le_rfl, by simp [Rng.stop]⟩
    exact Set.disjoint_left.1 hd hmem (hxy ▸ hmem)
  · dsimp only
    rw [hspan]
    refine Set.disjoint_left.2 ?_
    rintro y ⟨q, hq, hy⟩ hyf
    obtain ⟨x, hx, rfl⟩ := List.mem_map.1 hq
    exact Set.disjoint_left.1 (hbusy x (List.mem_of_mem_take hx)) hy hyf
  · have hxt := List.mem_of_mem_drop hx
    obtain ⟨h1, h2, h3⟩ := hg.inside x hxt
    refine ⟨h1, by dsimp only; omega, by dsimp only; omega, hbusy x hxt, ?_⟩
    dsimp only
    rw [hspan]
    refine Set.disjoint_left.2 ?_
    rintro y hyx ⟨q, hq, hy⟩
    obtain ⟨z, hz, rfl⟩ := List.mem_map.1 hq
    exact Set.disjoint_left.1 (hsplit.2.2 z hz x hx) hy hyx

/-- Where the product does not overflow, the table is large enough, and what is left of it goes
back. -/
theorem compresses_of_lt {a : ArenaSt} (h : a.Ok) (hnr : a.free.length < 2 ^ 27)
    (hfull : a.compresslog ≠ .error .full) (hst : a.compresslog ≠ .error .stuffed) :
    a.Compresses := by
  have hne : nblks a.free.length ≠ none := mt nblks_eq_none.1 (by omega)
  obtain ⟨n, hn⟩ := Option.ne_none_iff_exists'.1 hne
  obtain ⟨hpos, hle⟩ := nblks_eq hn
  unfold Compresses
  unfold compresslog at hfull hst ⊢
  simp only [hn, orFault, bind, Except.bind] at hfull hst ⊢
  rcases getBlks_cases n h with ⟨tbl, a₁, heq, hlen, hg⟩ | heq | heq
  · have h0 : 0 < tbl.length := by omega
    have htbl : ∀ o ∈ tbl, 0 ≤ o ∧ o < 2 ^ 63 := fun o ho => by
      have h1 := hg.inside o ho
      have h2 := h.lo
      have h3 := h.hi
      omega
    have hw : Written (Int64.ofInt tbl[0]) ⟨[], mklogblk (Int64.ofInt tbl[0])⟩ 0 [] := by
      have hi := htbl tbl[0] (List.getElem_mem h0)
      refine ⟨⟨rfl, fun heq => ?_, rfl⟩, by simp, rfl, by omega, ⟨[], [], tells_nil, rfl, rfl⟩⟩
      have hti := toInt_ofInt hi.1 hi.2
      rw [heq] at hti
      have : (-1 : Int64).toInt = -1 := rfl
      omega
    have hoff : ∀ r ∈ a₁.free, (256 : ℤ) ∣ r.off := fun r hr =>
      dvd_trans (by norm_num) (hg.ok.free.off r hr)
    have hlen₁ := hg.length
    obtain ⟨l, j, c, hfill, h1, h2, h3, h4⟩ :=
      fillLog_ok htbl hw (by omega : 0 + a₁.free.length ≤ 1020 * (tbl.length - 1 + 1)) (by omega)
        hoff
    have hblks : l.blks.map (·.addr) = (tbl.take j).map (Int64.ofInt ·) := by
      obtain ⟨hd, tl, rfl⟩ := List.exists_cons_of_length_pos h0
      obtain ⟨j, rfl⟩ := Nat.exists_eq_add_of_le' h1
      rw [h3]
      simp [mklogblk]
    obtain ⟨hl, hspan, hlive⟩ := got_written hg h4 h hblks
    have hok : Ok { a₁ with loghd := Int64.ofInt tbl[0], log := l } :=
      ⟨hg.ok.lo, hg.ok.hi, hg.ok.free, hg.ok.inside, hg.ok.used⟩
    have hlogs : Logs { a₁ with loghd := Int64.ofInt tbl[0], log := l }
        (a₁.free.map freeEv) := by
      refine ⟨h4.tells, ?_⟩
      have hr := replays_ranges (replays_nil a₁.size) hg.ok.free (by simp) fun r hr => by
        have h5 := hg.ok.inside r hr
        have h6 := hg.ok.lo
        have h7 := hg.ok.hi
        omega
      simpa using hr
    have hclean : Clean (a₁.free.map freeEv) := by
      intro e he g
      obtain ⟨r, -, rfl⟩ := List.mem_map.1 he
      rfl
    have hpair := hg.apart.sublist (List.drop_sublist j tbl)
    simp only [heq, List.getElem?_eq_getElem h0, hfill] at hfull hst ⊢
    rcases putBlks_cases hok hl hlogs hclean hlive hpair with
      ⟨a', es', h5, h6, h7, h8, h9, h10⟩ | h5 | h5
    · refine ⟨a', h5, fun qgen => h8.recovers h6 h7 h9 qgen, ?_, h6.used⟩
      have hall : cover a'.free ∪ a'.log.span = cover a.free := by
        rw [h10]
        dsimp only
        rw [hspan, hg.free, Set.union_assoc, ← cover_append, ← List.map_append,
          List.take_append_drop, Set.sdiff_union_of_subset hg.sub]
      rw [← hall, Set.union_sdiff_right, sdiff_eq_left.2 h7.apart.symm]
    · exact absurd h5 hfull
    · exact absurd h5 hst
  · simp only [heq] at hfull
    exact absurd rfl hfull
  · simp only [heq] at hst
    exact absurd rfl hst

theorem compresslog_overflow {a : ArenaSt} (h : 2 ^ 27 ≤ a.free.length) :
    a.compresslog = .error .overflow := by
  have hn := nblks_eq_none.2 h
  unfold compresslog
  simp only [hn, orFault, bind, Except.bind]

/-- `compresslog` keeps the free ranges wherever their number is small enough for its product. -/
theorem compresses_iff {a : ArenaSt} (h : a.Ok) (hfull : a.compresslog ≠ .error .full)
    (hst : a.compresslog ≠ .error .stuffed) : a.Compresses ↔ a.free.length < 2 ^ 27 := by
  refine ⟨?_, fun hnr => compresses_of_lt h hnr hfull hst⟩
  rintro ⟨a', heq, -⟩
  by_contra hnr
  rw [compresslog_overflow (by omega)] at heq
  exact absurd heq (by simp)

theorem length_spread (n : ℕ) : (spread n).free.length = n := by simp [spread]

theorem total_spread (n : ℕ) : total (spread n).free = 16384 * n := by
  induction n with
  | zero => rfl
  | succ n ih =>
    have h : (spread (n + 1)).free = (spread n).free ++ [blkRng (32768 * ((n : ℤ) + 2))] := by
      simp [spread, List.range_succ]
    rw [h, total_append, ih]
    simp
    ring

theorem spread_ok {n : ℕ} (hn : n < 2 ^ 40) : (spread n).Ok := by
  have hmem : ∀ r ∈ (spread n).free, ∃ i : ℕ, i < n ∧ r = blkRng (32768 * ((i : ℤ) + 2)) := by
    intro r hr
    obtain ⟨i, hi, rfl⟩ := List.mem_map.1 hr
    exact ⟨i, List.mem_range.1 hi, rfl⟩
  refine ⟨by norm_num [spread], ?_, ⟨?_, ?_, ?_, ?_⟩, ?_, ?_⟩
  · simp only [spread]
    omega
  · intro r hr
    obtain ⟨i, hi, rfl⟩ := hmem r hr
    norm_num
  · intro r hr
    obtain ⟨i, hi, rfl⟩ := hmem r hr
    dsimp only
    omega
  · intro r hr
    obtain ⟨i, hi, rfl⟩ := hmem r hr
    exact dvd_refl _
  · refine List.pairwise_map.2 (List.pairwise_lt_range.imp fun {i j} hij => ?_)
    simp only [Rng.stop]
    omega
  · intro r hr
    obtain ⟨i, hi, rfl⟩ := hmem r hr
    simp only [spread, Rng.stop]
    omega
  · rw [total_spread]
    simp only [spread]
    ring

theorem compresslog_spread : (spread 3).compresslog.isOk = true := by decide +kernel

/-- A small arena is compressed. -/
theorem compresses_spread : (spread 3).Compresses ↔ (spread 3).free.length < 2 ^ 27 := by
  have h := compresslog_spread
  refine compresses_iff (spread_ok (by norm_num)) ?_ ?_ <;>
  · intro heq
    rw [heq] at h
    exact absurd h (by simp [Except.isOk, Except.toBool])

/-- With 2^27 blocks free, none next to another, the product overflows. -/
theorem not_compresses_spread : (spread (2 ^ 27)).Ok
    ∧ (spread (2 ^ 27)).compresslog ≠ .error .full
    ∧ (spread (2 ^ 27)).compresslog ≠ .error .stuffed ∧ ¬ (spread (2 ^ 27)).Compresses := by
  have heq := compresslog_overflow (length_spread (2 ^ 27)).ge
  refine ⟨spread_ok (by norm_num), ?_, ?_, ?_⟩
  · rw [heq]
    simp
  · rw [heq]
    simp
  · rintro ⟨a', h, -⟩
    rw [heq] at h
    exact absurd h (by simp)

end ArenaSt

end GefsFuse.Server
