import GefsFuse.Server.Space
import GefsFuse.Proofs.ServerLog
import GefsFuse.Proofs.ServerGrow

/-!
# The space of an arena over time

Every block of an arena is free, part of the log, or handed out, and one of these only; this is
what each operation keeps (`Sound.step`), unless `blkalloc` loses a block. What a replay finds is
fixed by a barrier: the blocks of the log only grow behind it, so in whatever version a crash
leaves them, reading them ends at the barrier with what was free there.
-/

namespace GefsFuse.Server

open Ranges ByteMem

/-! ## Barriers -/

theorem toInt64_barrier {g : Int64} (h0 : 0 ≤ g.toInt) (h : g.toInt < 2 ^ 55) :
    (g.toUInt64 <<< 8 ||| logSync) &&& 0xff = logSync
      ∧ (g.toUInt64 <<< 8 ||| logSync).toInt64 >>> 8 = g := by
  have hn : (g.toUInt64.toNat : ℤ) = g.toInt := by
    rw [Int64.toNat_toUInt64_of_le (Int64.le_iff_toInt_le.2 h0)]
    exact Int.toNat_of_nonneg h0
  have hor : (g.toUInt64 <<< 8 ||| logSync).toNat = 2 ^ 8 * g.toUInt64.toNat + 3 := by
    have h8 : (8 : UInt64).toNat % 64 = 8 := rfl
    have h3 : logSync.toNat = 3 := rfl
    rw [UInt64.toNat_or, UInt64.toNat_shiftLeft, h8, h3, Nat.shiftLeft_eq,
      Nat.mod_eq_of_lt (by omega), Nat.mul_comm, Nat.two_pow_add_eq_or_of_lt (by norm_num)]
  constructor
  · apply UInt64.toNat_inj.1
    have h255 : (0xff : UInt64).toNat = 2 ^ 8 - 1 := rfl
    rw [UInt64.toNat_and, h255, Nat.and_two_pow_sub_one_eq_mod, hor]
    show _ = 3
    omega
  · generalize g.toUInt64 <<< 8 ||| logSync = u at hor
    have hu : u.toInt64.toInt = u.toNat := by
      have h1 : u.toInt64.toInt = u.toBitVec.toInt := rfl
      rw [h1, BitVec.toInt_eq_toNat_of_lt]
      · rfl
      · show 2 * u.toNat < 2 ^ 64
        omega
    apply Int64.toInt_inj.1
    have h2 : (u.toInt64 >>> 8).toInt = u.toInt64.toInt >>> (8 : ℕ) := by
      have h8 : ((Int64.toBitVec 8).smod 64).toNat = 8 := rfl
      show (BitVec.sshiftRight _ _).toInt = _
      rw [BitVec.toInt_sshiftRight, h8]
      rfl
    rw [h2, hu, hor, Int.shiftRight_eq_div_pow]
    omega

theorem coded_sync {g : Int64} (h0 : 0 ≤ g.toInt) (h : g.toInt < 2 ^ 55) :
    Coded (LogReq.sync g.toUInt64).words (.sync g) := by
  refine ⟨.inl (by simp [LogReq.words]), fun m o hat => ?_⟩
  have hu := unpack64_at (v := g.toUInt64 <<< 8 ||| logSync) (by simpa [LogReq.words] using hat)
  obtain ⟨h1, h2⟩ := toInt64_barrier h0 h
  unfold logEv logWidth
  simp only [hu, h1, h2]
  simp [LogReq.words, logAlloc, logSync]

theorem coded_alloc_range {x : ℤ} (h : (256 : ℤ) ∣ x) (len : ℤ) :
    Coded (pack64 (vlong x ||| logAlloc) ++ pack64 (vlong len))
      (.alloc (Int64.ofInt x) (Int64.ofInt len)) := by
  refine ⟨.inr (by simp), fun m o hat => ?_⟩
  rw [at_append, length_pack64] at hat
  have hu := unpack64_at hat.1
  have hl := unpack64_at hat.2
  obtain ⟨h1, h2⟩ := bits_or (vlong_and h) (rfl : logAlloc &&& 0xff = logAlloc)
  unfold logEv logWidth
  simp only [hu, hl, h1, h2, toInt64_vlong]
  simp [logAlloc, logAlloc1, logSync]

/-! ## The log in time -/

/-- `l'` is `l` with more operations: the last block of `l` may have more of them, and others may
follow it. -/
def Log.Extends (l l' : Log) : Prop :=
  ∃ b rest more es, l'.blks = l.full ++ b :: rest ∧ b.addr = l.logtl.addr
    ∧ b.data = l.logtl.data ++ more ∧ Tells more es

namespace Log.Extends

theorem refl (l : Log) : l.Extends l := ⟨l.logtl, [], [], [], rfl, rfl, by simp, tells_nil⟩

theorem trans {l l' l'' : Log} (h : l.Extends l') (h' : l'.Extends l'') : l.Extends l'' := by
  obtain ⟨b, rest, more, es, h1, h2, h3, h4⟩ := h
  obtain ⟨b', rest', more', es', h1', h2', h3', h4'⟩ := h'
  rcases List.eq_nil_or_concat rest with rfl | ⟨mid, c, rfl⟩
  · obtain ⟨hf, hb⟩ := List.append_inj' (h1 : l'.full ++ [l'.logtl] = l.full ++ [b]) rfl
    obtain rfl : l'.logtl = b := by simpa using hb
    refine ⟨b', rest', more ++ more', es ++ es', by rw [h1', hf], h2'.trans h2, ?_, h4.append h4'⟩
    rw [h3', h3, List.append_assoc]
  · have hc : l'.full ++ [l'.logtl] = (l.full ++ b :: mid) ++ [c] := by
      rw [← Log.blks, h1]
      simp
    obtain ⟨hf, -⟩ := List.append_inj' hc rfl
    exact ⟨b, mid ++ b' :: rest', more, es, by rw [h1', hf]; simp, h2, h3, h4⟩

end Log.Extends

namespace ArenaSt

variable {a : ArenaSt} {r : LogReq} {e : LogEv}

theorem logappend_extends (h : a.Ok) (hc : Coded r.words e) {ok : Bool} {a' : ArenaSt}
    (heq : a.logappend r = .ok (ok, a')) : a.log.Extends a'.log := by
  unfold logappend at heq
  dsimp only at heq
  split_ifs at heq with hr hroom
  · have hlt : a.log.logtl.data.length < logspc - logslop := by simpa [Log.roomy] using hroom
    unfold Server.logappend at heq
    rw [if_neg hr, if_pos hlt] at heq
    obtain ⟨-, rfl⟩ := Prod.mk.inj (Except.ok.inj heq)
    exact ⟨_, [], r.words, [e], rfl, rfl, rfl, hc.tells⟩
  · have hlt : ¬ a.log.logtl.data.length < logspc - logslop := by simpa [Log.roomy] using hroom
    rcases blkallocLk_cases h false with ⟨-, h1⟩ | ⟨-, -, h1⟩ | ⟨-, x, a₁, h1, ht, -⟩
    · rw [h1] at heq
      obtain ⟨-, rfl⟩ := Prod.mk.inj (Except.ok.inj heq)
      exact .refl _
    · rw [h1] at heq
      cases heq
    · have hlog : a₁.log = a.log := by rw [ht.frame]
      have hx : (256 : ℤ) ∣ x := dvd_trans (by norm_num) ht.aligned
      rw [h1] at heq
      simp only [bind, Except.bind, hlog] at heq
      unfold Server.logappend at heq
      rw [if_neg hr, if_neg hlt] at heq
      obtain ⟨-, rfl⟩ := Prod.mk.inj (Except.ok.inj heq)
      refine ⟨{ a.log.logtl with
          data := a.log.logtl.data ++ pack64 (vlong x ||| logAlloc1)
          logp := ⟨Int64.ofInt x, 0xffffffffffffffff, -1⟩ },
        [{ mklogblk (Int64.ofInt x) with data := r.words }], pack64 (vlong x ||| logAlloc1),
        [.alloc (Int64.ofInt x) 16384], ?_, rfl, rfl, (coded_alloc hx).tells⟩
      simp [Log.blks, vlong]

theorem blkdealloc_extends (h : a.Ok) {x : ℤ} (hx : a.Live x) {ok : Bool} {a' : ArenaSt}
    (heq : a.blkdeallocLk x = .ok (ok, a')) : a.log.Extends a'.log := by
  have hc := coded_free (x := x) (dvd_trans (by norm_num) hx.aligned)
  unfold blkdeallocLk at heq
  rcases hl : a.logappend (.free (vlong x) 16384) with e | ⟨ok₁, a₁⟩
  · rw [hl] at heq
    cases heq
  have hext := logappend_extends h hc hl
  rw [hl] at heq
  simp only [bind, Except.bind] at heq
  split_ifs at heq
  · rcases hf : freerange a₁.free x 16384 with _ | t
    · rw [hf] at heq
      cases heq
    · rw [hf] at heq
      obtain ⟨-, rfl⟩ := Prod.mk.inj (Except.ok.inj heq)
      exact hext
  · obtain ⟨-, rfl⟩ := Prod.mk.inj (Except.ok.inj heq)
    exact hext

/-- The block `x` was handed out, the log perhaps moving on to the block `o`. -/
structure Handed (a : ArenaSt) (x : ℤ) (o : Option ℤ) (a' : ArenaSt) : Prop where
  ok : a'.Ok
  log : a'.LogOk
  frame : a' = { a with free := a'.free, used := a'.used, log := a'.log }
  aligned : 16384 ∣ x
  lo : a.lo ≤ x
  hi : x + 16384 ≤ a.lo + a.size + 32768
  block : (blkRng x).bytes ⊆ cover a.free
  sub : grown o ⊆ cover a.free \ (blkRng x).bytes
  free : cover a'.free = (cover a.free \ (blkRng x).bytes) \ grown o
  span : a'.log.span = a.log.span ∪ grown o
  logs : ∀ es, a.Logs es → a'.Logs (es ++ growth o ++ [.alloc (Int64.ofInt x) 16384])

theorem Taken.handed (h : a.Ok) {x : ℤ} {o : Option ℤ} {a₁ a' : ArenaSt}
    (ht : Taken a x a₁) (ha : Appended a₁ (.alloc (Int64.ofInt x) 16384) o a') :
    Handed a x o a' := by
  obtain ⟨h0, hhi⟩ := ht.ge h
  have hfr : a' = { a with free := a'.free, used := a'.used, log := a'.log } := by
    rw [ha.frame, ht.frame]
  refine ⟨ha.ok, ha.log, hfr, ht.aligned, ht.lo, ht.hi, ht.sub, ?_, ?_, ?_, fun es hes => ?_⟩
  · rw [← ht.free]
    exact ha.sub
  · rw [ha.free, ht.free]
  · rw [ha.span, ht.frame]
  · have hsub := ht.free ▸ ha.sub
    have hs : a.size = a'.size := by rw [hfr]
    have hlog : a₁.log = a.log := by rw [ht.frame]
    have hsz : a₁.size = a.size := by rw [ht.frame]
    refine ⟨ha.tells es (hlog ▸ hes.1), ?_⟩
    rw [← hs, ha.free, ht.free, sdiff_right_comm]
    refine ((hsz ▸ ha.replays es (cover a.free)) hes.2 (hsub.trans Set.sdiff_subset)).alloc h0
      ht.aligned hhi fun y hy => ⟨ht.sub hy, fun hyo => (hsub hyo).2 hy⟩

/-- `blkalloc` hands a block out, unless only the reserve is left or the log cannot go on. -/
theorem blkalloc_cases (h : a.Ok) (hl : a.LogOk) (seq : Bool) :
    (∃ x o a', a.blkalloc seq = .ok (some x, a') ∧ Handed a x o a' ∧ a.log.Extends a'.log)
      ∨ a.low = true ∧ a.blkalloc seq = .ok (none, a)
      ∨ (a.low = false ∧ ∃ a', a.blkalloc seq = .ok (none, a'))
      ∨ a.blkalloc seq = .error .stuffed := by
  unfold blkalloc
  rcases blkallocLk_cases h seq with ⟨hlow, heq⟩ | ⟨-, -, heq⟩ | ⟨hlow, x, a₁, heq, ht, -⟩
  · exact .inr (.inl ⟨hlow, by rw [heq]; rfl⟩)
  · exact .inr (.inr (.inr (by rw [heq]; rfl)))
  have hlog : a₁.log = a.log := by rw [ht.frame]
  have hc := coded_alloc (x := x) (dvd_trans (by norm_num) ht.aligned)
  have hl₁ : a₁.LogOk :=
    hl.mono (by rw [ht.frame]) hlog (by rw [ht.free]; exact Set.sdiff_subset)
  have hlo : a₁.lo = a.lo ∧ a₁.size = a.size := by
    rw [ht.frame]
    exact ⟨rfl, rfl⟩
  have hr := (ht.ok.asserts ht.aligned (hlo.1 ▸ ht.lo) (hlo.1 ▸ hlo.2 ▸ ht.hi) 16384).1
  simp only [heq, bind, Except.bind]
  rcases logappend_cases ht.ok hl₁ hc hr with ⟨o, a', h1, ha⟩ | ⟨-, -, h1⟩ | ⟨-, -, -, h1⟩
  · refine .inl ⟨x, o, a', by rw [h1]; rfl, ht.handed h ha, ?_⟩
    rw [← hlog]
    exact logappend_extends ht.ok hc h1
  · exact .inr (.inr (.inl ⟨hlow, a₁, by rw [h1]; rfl⟩))
  · exact .inr (.inr (.inr (by rw [h1])))

theorem logbarrier_cases (h : a.Ok) (hl : a.LogOk) {g : Int64} (h0 : 0 ≤ g)
    (hg : g < 36028797018963968) :
    (∃ o a', a.logbarrier g = .ok (true, a') ∧ Appended a (.sync g) o a' ∧ a.log.Extends a'.log)
      ∨ a.logbarrier g = .ok (false, a)
      ∨ a.logbarrier g = .error .stuffed := by
  have hc := coded_sync (Int64.le_iff_toInt_le.1 h0) (Int64.lt_iff_toInt_lt.1 hg)
  unfold logbarrier
  rcases logappend_cases h hl hc rfl with ⟨o, a', heq, ha⟩ | ⟨-, -, heq⟩ | ⟨-, -, -, heq⟩
  · exact .inl ⟨o, a', heq, ha, logappend_extends h hc heq⟩
  · exact .inr (.inl heq)
  · exact .inr (.inr heq)

end ArenaSt

/-! ## The blocks of an arena -/

theorem mem_cover_blks {l : List ℤ} {y : ℤ} :
    y ∈ cover (l.map blkRng) ↔ ∃ x ∈ l, y ∈ (blkRng x).bytes := by
  simp [mem_cover]

namespace Space

open ArenaSt

/-- The log is `es`, and its barriers are of the generations that were logged. -/
structure Sound (s : Space) (es : List LogEv) : Prop where
  ok : s.arena.Ok
  log : s.arena.LogOk
  logs : s.arena.Logs es
  live : ∀ x ∈ s.given, s.arena.Live x
  apart : s.given.Pairwise fun x y => Disjoint (blkRng x).bytes (blkRng y).bytes
  all : cover s.arena.free ∪ s.arena.log.span ∪ cover (s.given.map blkRng) = (room s.arena).bytes
  gens : ∀ g, (∀ g' ∈ s.gens, g' < g) → ∀ e ∈ es, e.stops g = false

variable {s s' : Space} {es : List LogEv}

theorem Sound.accounted (h : s.Sound es) : s.Accounted := by
  refine ⟨h.ok.used, fun x hx => (h.live x hx).aligned, h.apart, h.log.apart.symm, ?_, h.all⟩
  rw [Set.disjoint_right]
  intro y hy hyf
  obtain ⟨x, hx, hyx⟩ := mem_cover_blks.1 hy
  rcases hyf with hyf | hyf
  · exact Set.disjoint_left.1 (h.live x hx).busy hyx hyf
  · exact Set.disjoint_left.1 (h.live x hx).apart hyx hyf

/-- A block in use stays in use where the log only grows by free blocks and what is put back is
apart from it. -/
theorem live_of_subset {a a' : ArenaSt} {x : ℤ} (h : a.Live x) (hlo : a'.lo = a.lo)
    (hsize : a'.size = a.size)
    (hs : ∀ y ∈ (blkRng x).bytes, y ∈ cover a'.free ∨ y ∈ a'.log.span →
      y ∈ cover a.free ∨ y ∈ a.log.span) : a'.Live x := by
  refine h.mono hlo hsize (Set.disjoint_left.2 fun y hy hy' => ?_)
  rcases hs y hy hy' with hf | hf
  · exact Set.disjoint_left.1 h.busy hy hf
  · exact Set.disjoint_left.1 h.apart hy hf

theorem Sound.handed {a : ArenaSt} {x : ℤ} {o : Option ℤ} (h : s.Sound es)
    (ha : s.arena.Handed x o a) : Sound { s with arena := a, given := x :: s.given }
      (es ++ growth o ++ [.alloc (Int64.ofInt x) 16384]) := by
  have hlo : a.lo = s.arena.lo ∧ a.size = s.arena.size := by
    rw [ha.frame]
    exact ⟨rfl, rfl⟩
  have hx : ∀ y ∈ (blkRng x).bytes, y ∉ cover a.free ∧ y ∉ a.log.span := by
    intro y hy
    rw [ha.free, ha.span]
    refine ⟨fun hf => hf.1.2 hy, fun hf => ?_⟩
    rcases hf with hf | hf
    · exact Set.disjoint_left.1 h.log.apart hf (ha.block hy)
    · exact (ha.sub hf).2 hy
  refine ⟨ha.ok, ha.log, ha.logs es h.logs, ?_, ?_, ?_, ?_⟩
  · rw [List.forall_mem_cons]
    refine ⟨⟨ha.aligned, hlo.1 ▸ ha.lo, by rw [hlo.1, hlo.2]; exact ha.hi, ?_, ?_⟩, fun y hy => ?_⟩
    · exact Set.disjoint_left.2 fun y hy => (hx y hy).1
    · exact Set.disjoint_left.2 fun y hy => (hx y hy).2
    · refine live_of_subset (h.live y hy) hlo.1 hlo.2 fun z _ hz => ?_
      rw [ha.free, ha.span] at hz
      rcases hz with hz | hz | hz
      · exact .inl hz.1.1
      · exact .inr hz
      · exact .inl (ha.sub hz).1
  · refine List.pairwise_cons.2 ⟨fun y hy => ?_, h.apart⟩
    exact ((h.live y hy).busy.mono_right ha.block).symm
  · have hall := h.all
    have h1 := ha.block
    have h2 := ha.sub
    simp only [room, hlo.1, hlo.2, List.map_cons, cover_cons, ha.free, ha.span] at hall ⊢
    rw [← hall]
    ext y
    have h1 := @h1 y
    have h2 := @h2 y
    simp only [Set.mem_union, Set.mem_sdiff] at h1 h2 ⊢
    tauto
  · intro g hg e he
    rcases List.mem_append.1 he with he | he
    · rcases List.mem_append.1 he with he | he
      · exact h.gens g hg e he
      · exact clean_growth o e he g
    · rw [List.mem_singleton.1 he]
      rfl

theorem Sound.returned {a : ArenaSt} {x : ℤ} {o : Option ℤ} (h : s.Sound es) (hx : x ∈ s.given)
    (ha : s.arena.Returned x o a) : Sound { s with arena := a, given := s.given.erase x }
      (es ++ growth o ++ [.free (Int64.ofInt x) 16384]) := by
  have hlo : a.lo = s.arena.lo ∧ a.size = s.arena.size := by
    rw [ha.frame]
    exact ⟨rfl, rfl⟩
  have hperm := List.perm_cons_erase hx
  have hpair := h.apart.perm hperm fun hd => hd.symm
  rw [List.pairwise_cons] at hpair
  refine ⟨ha.ok, ha.log, ha.logs es h.logs, fun y hy => ?_, hpair.2, ?_, ?_⟩
  · refine live_of_subset (h.live y (List.mem_of_mem_erase hy)) hlo.1 hlo.2 fun z hz hf => ?_
    rw [ha.free, ha.span] at hf
    rcases hf with (hf | hf) | hf | hf
    · exact .inl hf.1
    · exact absurd hz (Set.disjoint_left.1 (hpair.1 y hy) hf)
    · exact .inr hf
    · exact .inl (ha.sub hf)
  · have hall := h.all
    have h2 := ha.sub
    have hgiven : cover (s.given.map blkRng)
        = (blkRng x).bytes ∪ cover ((s.given.erase x).map blkRng) := by
      rw [← cover_cons, ← List.map_cons]
      ext y
      rw [mem_cover_blks, mem_cover_blks]
      simp only [hperm.mem_iff]
    simp only [room, hlo.1, hlo.2, ha.free, ha.span, hgiven] at hall ⊢
    rw [← hall]
    ext y
    have h2 := @h2 y
    simp only [Set.mem_union, Set.mem_sdiff] at h2 ⊢
    tauto
  · intro g hg e he
    rcases List.mem_append.1 he with he | he
    · rcases List.mem_append.1 he with he | he
      · exact h.gens g hg e he
      · exact clean_growth o e he g
    · rw [List.mem_singleton.1 he]
      rfl

theorem Sound.logged {a : ArenaSt} {g : Int64} {o : Option ℤ} (h : s.Sound es)
    (ha : s.arena.Appended (.sync g) o a) :
    Sound { s with arena := a, gens := g :: s.gens } (es ++ growth o ++ [.sync g]) := by
  have hlo : a.lo = s.arena.lo ∧ a.size = s.arena.size := by
    rw [ha.frame]
    exact ⟨rfl, rfl⟩
  refine ⟨ha.ok, ha.log, ⟨ha.tells es h.logs.1, ?_⟩, fun y hy => ?_, h.apart, ?_, ?_⟩
  · rw [hlo.2, ha.free]
    exact (ha.replays es _ h.logs.2 ha.sub).sync g
  · refine live_of_subset (h.live y hy) hlo.1 hlo.2 fun z _ hz => ?_
    rw [ha.free, ha.span] at hz
    rcases hz with hz | hz | hz
    · exact .inl hz.1
    · exact .inr hz
    · exact .inl (ha.sub hz)
  · have hall := h.all
    have h2 := ha.sub
    simp only [room, hlo.1, hlo.2, ha.free, ha.span] at hall ⊢
    rw [← hall]
    ext y
    have h2 := @h2 y
    simp only [Set.mem_union, Set.mem_sdiff] at h2 ⊢
    tauto
  · intro g' hg e he
    rw [List.forall_mem_cons] at hg
    rcases List.mem_append.1 he with he | he
    · rcases List.mem_append.1 he with he | he
      · exact h.gens g' hg.2 e he
      · exact clean_growth o e he g'
    · rw [List.mem_singleton.1 he]
      simpa [LogEv.stops] using hg.1

/-- What an operation keeps that loses no block, and how it changes the log. -/
theorem Sound.step {op : SpaceOp} (h : s.Sound es) (hop : s.leaks op = false)
    (hs : s.step op = some s') :
    (∃ es', s'.Sound es') ∧ s.arena.log.Extends s'.arena.log ∧ s'.arena.loghd = s.arena.loghd := by
  rcases op with seq | x | g | on
  · unfold Space.step at hs
    rcases blkalloc_cases h.ok h.log seq with ⟨x, o, a, heq, ha, hext⟩ | ⟨-, heq⟩ |
      ⟨hlow, a, heq⟩ | heq
    · simp only [heq, Option.some.injEq] at hs
      subst hs
      exact ⟨⟨_, h.handed ha⟩, hext, by rw [ha.frame]⟩
    · simp only [heq, Option.some.injEq] at hs
      subst hs
      exact ⟨⟨es, h⟩, .refl _, rfl⟩
    · simp [leaks, hlow, heq] at hop
    · simp [heq] at hs
  · unfold Space.step at hs
    dsimp only at hs
    split_ifs at hs with hx
    rcases blkdeallocLk_cases h.ok h.log (h.live x hx) with ⟨o, a, heq, ha⟩ | ⟨-, -, heq⟩ |
      ⟨-, -, -, heq⟩
    · simp only [heq, Option.some.injEq] at hs
      subst hs
      exact ⟨⟨_, h.returned hx ha⟩, blkdealloc_extends h.ok (h.live x hx) heq, by rw [ha.frame]⟩
    · simp only [heq, Option.some.injEq] at hs
      subst hs
      exact ⟨⟨es, h⟩, .refl _, rfl⟩
    · simp [heq] at hs
  · unfold Space.step at hs
    dsimp only at hs
    split_ifs at hs with hg
    rcases logbarrier_cases h.ok h.log hg.1 hg.2.1 with ⟨o, a, heq, ha, hext⟩ | heq | heq
    · simp only [heq, Option.some.injEq] at hs
      subst hs
      exact ⟨⟨_, h.logged ha⟩, hext, by rw [ha.frame]⟩
    · simp only [heq, Option.some.injEq] at hs
      subst hs
      exact ⟨⟨es, h⟩, .refl _, rfl⟩
    · simp [heq] at hs
  · obtain rfl := Option.some.inj hs
    obtain ⟨h1, h2, h3, h4, h5, h6, h7⟩ := h
    refine ⟨⟨es, ⟨h1.lo, h1.hi, h1.free, h1.inside, h1.used⟩,
      ⟨h2.leads, h2.full, h2.tail, h2.nodup, h2.apart⟩, h3, fun x hx => ?_, h5, h6, h7⟩,
      .refl _, rfl⟩
    have hx := h4 x hx
    exact ⟨hx.aligned, hx.lo, hx.hi, hx.busy, hx.apart⟩

/-! ## Runs -/

theorem Sound.run (h : s.Sound es)
    (hr : Trans.Via Space.step (fun op s => s.leaks op = false) s s') :
    (∃ es', s'.Sound es') ∧ s.arena.log.Extends s'.arena.log ∧ s'.arena.loghd = s.arena.loghd := by
  refine hr.inv (I := fun t => (∃ es', t.Sound es') ∧ s.arena.log.Extends t.arena.log
    ∧ t.arena.loghd = s.arena.loghd) (fun op t t' ht hop hs => ?_) ⟨⟨es, h⟩, .refl _, rfl⟩
  obtain ⟨⟨es₁, h₁⟩, hext, hhd⟩ := ht
  obtain ⟨h₂, hext', hhd'⟩ := h₁.step hop hs
  exact ⟨h₂, hext.trans hext', hhd'.trans hhd⟩

end Space

/-- A chain of blocks that has the barrier is read up to it, wherever the chain leads from there. -/
theorem loadlog_stops {get : Int64 → Option Mem} {q : Int64} (g : Int64) : ∀ {bs : List LogBlk}
    {es : List LogEv} {fuel : ℕ} {bp : GefsBptr}, Leads bp.addr bs q → TellsAll bs es →
      (upto g es).2 = true → (∀ b ∈ bs, b.data.length ≤ logspc) →
      (∀ b ∈ bs, ∃ m m', get b.addr = some m ∧ ∀ i < gefsBlksz, m i = logBuf m' b i) →
      bs.length ≤ fuel → loadlog get g fuel bp = some (upto g es).1 := by
  intro bs
  induction bs with
  | nil =>
    intro es fuel bp _ hes hstop
    obtain rfl : es = [] := hes
    cases hstop
  | cons b bs ih =>
    intro es fuel bp hl hes hstop hlen hdisk hf
    obtain ⟨ha, -, hl⟩ := hl
    obtain ⟨es₁, es₂, hb, hbs, rfl⟩ := hes
    obtain ⟨fuel, rfl⟩ := Nat.exists_eq_add_of_le' (Nat.one_le_of_lt hf)
    rw [List.forall_mem_cons] at hlen hdisk
    obtain ⟨⟨m, m', hget, hm⟩, hdisk⟩ := hdisk
    obtain ⟨t, hread, hat⟩ := readblk_logBuf hm hlen.1
    obtain ⟨ws, hws, hcoded⟩ := hb
    have hlog : blkLog g m 36 b.data.length 0 = some (upto g es₁) :=
      blkLog_tells g 0 hcoded (by rwa [← hws]) (by rw [← hws, Nat.zero_add])
    rw [upto_append] at hstop ⊢
    unfold loadlog
    rw [← ha, hget]
    simp only [Option.bind_eq_bind, Option.bind_some, hread, hlog]
    by_cases h1 : (upto g es₁).2 = true
    · simp [h1]
    rw [if_neg h1] at hstop ⊢
    have hne : b.logp.addr ≠ -1 := by
      rcases bs with _ | ⟨c, bs⟩
      · obtain rfl : es₂ = [] := hbs
        cases hstop
      · exact hl.2.1
    rw [if_neg (by simp [h1, hne]), ih hl hbs hstop hlen.2 hdisk (by simpa using hf)]
    rfl

namespace Space

open ArenaSt

variable {s s' : Space} {es : List LogEv}

/-- The blocks that are on disk, in the order of the log: those that were full as they were, and
the last one with more behind it. -/
theorem LeftOnDisk.chain {get : Int64 → Option Mem} (h : s.Sound es) (hd : s.LeftOnDisk get) :
    ∃ c more es', c.addr = s.arena.log.logtl.addr ∧ c.data = s.arena.log.logtl.data ++ more
      ∧ Tells more es' ∧ c.data.length ≤ logspc
      ∧ ∀ b ∈ s.arena.log.full ++ [c],
        ∃ m m', get b.addr = some m ∧ ∀ i < gefsBlksz, m i = logBuf m' b i := by
  have hsame : ∀ b ∈ s.arena.log.full,
      ∃ m m', get b.addr = some m ∧ ∀ i < gefsBlksz, m i = logBuf m' b i := by
    intro b hb
    obtain ⟨s', hr, c, hc, hca, hm⟩ := hd b (List.mem_append_left _ hb)
    obtain ⟨⟨es', h'⟩, ⟨d, rest, more, es₁, h1, -, -, -⟩, -⟩ := h.run hr
    have hb' : b ∈ s'.arena.log.blks := by
      rw [h1]
      exact List.mem_append_left _ hb
    obtain rfl := List.inj_on_of_nodup_map h'.log.nodup hc hb' hca
    exact hm
  obtain ⟨s', hr, c, hc, hca, hm⟩ := hd s.arena.log.logtl (by simp [Log.blks])
  obtain ⟨⟨es', h'⟩, ⟨d, rest, more, es₁, h1, h2, h3, h4⟩, -⟩ := h.run hr
  have hd' : d ∈ s'.arena.log.blks := by
    rw [h1]
    simp
  obtain rfl := List.inj_on_of_nodup_map h'.log.nodup hc hd' (hca.trans h2.symm)
  refine ⟨c, more, es₁, h2, h3, h4, h'.log.length_le c hc, fun b hb => ?_⟩
  rcases List.mem_append.1 hb with hb | hb
  · exact hsame b hb
  · rw [List.mem_singleton.1 hb, hca]
    exact hm

/-- A barrier ends the replay with what was free when it was logged. -/
theorem Sound.recovers {get : Int64 → Option Mem} {g : Int64} {o : Option ℤ} {a : ArenaSt}
    {fuel : ℕ} {hash : UInt64} (h : s.Sound es) (ha : s.arena.Appended (.sync g) o a)
    (hg : ∀ g' ∈ s.gens, g' < g)
    (hd : LeftOnDisk get { s with arena := a, gens := g :: s.gens })
    (hfuel : a.log.blks.length ≤ fuel) :
    ∃ es t, loadlog get g fuel ⟨a.loghd, hash, -1⟩ = some es
      ∧ replay a.size es = some (t, a.used) ∧ cover t = cover a.free := by
  have h' := h.logged ha
  obtain ⟨c, more, es', hca, hcd, hmore, hlen, hdisk⟩ := hd.chain h'
  obtain ⟨htell, t, ht, hb, hc⟩ := h'.logs
  dsimp only at hca hcd hdisk htell ht hc
  have hleads := h'.log.leads
  rw [Log.blks, leads_concat] at hleads
  rw [Log.blks, tellsAll_concat] at htell
  obtain ⟨es₁, es₂, h1, h2, heq⟩ := htell
  have hall : TellsAll (a.log.full ++ [c]) (es ++ growth o ++ [.sync g] ++ es') := by
    refine tellsAll_concat.2 ⟨es₁, es₂ ++ es', h1, hcd ▸ h2.append hmore, ?_⟩
    rw [heq, List.append_assoc]
  have hupto : upto g (es ++ growth o ++ [.sync g] ++ es')
      = (es ++ growth o ++ [.sync g], true) := by
    have hno : ∀ e ∈ es ++ growth o, e.stops g = false := by
      intro e he
      rcases List.mem_append.1 he with he | he
      · exact h.gens g hg e he
      · exact clean_growth o e he g
    have hone : upto g [.sync g] = ([.sync g], true) := by simp [upto, LogEv.stops]
    rw [upto_append, upto_append, upto_of_forall hno, hone]
    simp
  refine ⟨_, t, loadlog_stops g (leads_concat.2 ⟨hca ▸ hleads.1, hca ▸ hleads.2.1, rfl⟩) hall
    (by rw [hupto]) ?_ hdisk (by simpa [Log.blks] using hfuel), ?_, hc⟩
  · intro b hb
    rcases List.mem_append.1 hb with hb | hb
    · exact h'.log.full b hb
    · rw [List.mem_singleton.1 hb]
      exact hlen
  · rw [hupto]
    dsimp only
    rw [ht, ha.ok.used, total_eq_of_cover hb ha.ok.free hc]

end Space

/-! ## From the ream on -/

section Reamed

variable {hdaddr asz reserve : ℤ}

theorem sound_reamed (h0 : 0 ≤ hdaddr) (hd : 16384 ∣ hdaddr) (ha : 16384 ∣ asz)
    (hlt : 49152 < asz) (hhi : hdaddr + asz + 32768 < 2 ^ 63) :
    (Space.reamed hdaddr asz reserve).Sound
      [.free (Int64.ofInt (hdaddr + 32768)) (Int64.ofInt (asz - 32768)),
        .alloc (Int64.ofInt (hdaddr + 32768)) 16384] := by
  have hi : (Int64.ofInt (hdaddr + 32768)).toInt = hdaddr + 32768 :=
    toInt_ofInt (by omega) (by omega)
  have hx : (16384 : ℤ) ∣ hdaddr + 32768 := dvd_add hd (by norm_num)
  have hx8 : (256 : ℤ) ∣ hdaddr + 32768 := dvd_trans (by norm_num) hx
  have hspan : (ArenaSt.reamed hdaddr asz reserve).log.span = (blkRng (hdaddr + 32768)).bytes := by
    rw [Log.span_eq]
    simp only [ArenaSt.reamed, Log.blks, mklogblk, List.nil_append, List.map_cons, List.map_nil,
      cover_cons, cover_nil, hi, Set.union_empty]
  have hfree : cover (ArenaSt.reamed hdaddr asz reserve).free
      = (⟨hdaddr + 49152, asz - 49152⟩ : Rng).bytes := by
    simp [ArenaSt.reamed, cover_cons]
  have hroom : (⟨hdaddr + 32768, asz - 32768⟩ : Rng).bytes \ (blkRng (hdaddr + 32768)).bytes
      = (⟨hdaddr + 49152, asz - 49152⟩ : Rng).bytes := by
    ext y
    simp only [Set.mem_sdiff, Rng.mem_bytes, Rng.stop]
    omega
  have hlogs : ArenaSt.Logs (ArenaSt.reamed hdaddr asz reserve)
      [.free (Int64.ofInt (hdaddr + 32768)) (Int64.ofInt (asz - 32768)),
        .alloc (Int64.ofInt (hdaddr + 32768)) 16384] := by
    refine ⟨⟨_, [], ?_, rfl, (List.append_nil _).symm⟩, ?_⟩
    · have ht := (coded_range hx8 (asz - 32768)).tells.append (coded_alloc_range hx8 16384).tells
      have h16 : vlong 16384 = 16384 := rfl
      rw [h16, ← List.append_assoc] at ht
      exact ht
    · have hr : Replays asz _ (∅ ∪ (⟨hdaddr + 32768, asz - 32768⟩ : Rng).bytes) :=
        (replays_nil asz).free (by omega) (by omega) hx (dvd_sub ha (by norm_num)) (by omega)
          (by simp)
      rw [Set.empty_union] at hr
      have hr := hr.alloc (x := hdaddr + 32768) (by omega) hx (by omega) fun y hy => by
        simp only [Rng.mem_bytes, Rng.stop] at hy ⊢
        omega
      rw [hroom] at hr
      rw [hfree]
      exact hr
  refine ⟨⟨h0, hhi, ⟨?_, ?_, ?_, ?_⟩, ?_, ?_⟩, ⟨⟨rfl, ?_, rfl⟩, ?_, ?_, ?_, ?_⟩, hlogs, ?_, .nil,
    ?_, ?_⟩
  · rintro r hr
    obtain rfl := List.mem_singleton.1 hr
    dsimp only
    omega
  · rintro r hr
    obtain rfl := List.mem_singleton.1 hr
    exact dvd_add hd (by norm_num)
  · rintro r hr
    obtain rfl := List.mem_singleton.1 hr
    exact dvd_sub ha (by norm_num)
  · exact List.pairwise_singleton _ _
  · rintro r hr
    obtain rfl := List.mem_singleton.1 hr
    simp only [Space.reamed, ArenaSt.reamed, Rng.stop]
    omega
  · simp only [Space.reamed, ArenaSt.reamed, total_cons, total_nil]
    ring
  · intro heq
    have hneg : (-1 : Int64).toInt = -1 := rfl
    have heq : Int64.ofInt (hdaddr + 32768) = -1 := heq
    rw [heq] at hi
    omega
  · intro b hb
    cases hb
  · simp [Space.reamed, ArenaSt.reamed, logspc, logslop, gefsBlksz, gefsLoghdsz, gefsPtrsz]
  · simp [Space.reamed, ArenaSt.reamed, Log.blks]
  · show Disjoint (ArenaSt.reamed hdaddr asz reserve).log.span
      (cover (ArenaSt.reamed hdaddr asz reserve).free)
    rw [hspan, hfree, ← hroom]
    exact Set.disjoint_sdiff_right
  · intro x hx
    cases hx
  · show cover (ArenaSt.reamed hdaddr asz reserve).free
      ∪ (ArenaSt.reamed hdaddr asz reserve).log.span ∪ cover [] = _
    rw [hspan, hfree, cover_nil, Set.union_empty, ← hroom]
    refine Set.sdiff_union_of_subset fun y hy => ?_
    simp only [Rng.mem_bytes, Rng.stop] at hy ⊢
    omega
  · intro g _ e he
    rcases List.mem_cons.1 he with rfl | he
    · rfl
    · rw [List.mem_singleton.1 he]
      rfl

/-- `reamed` is what `initarena` lays out and a replay of its log finds. -/
theorem reamed_initarena (h0 : 0 ≤ hdaddr) (hd : 16384 ∣ hdaddr) (ha : 16384 ∣ asz)
    (hlt : 49152 < asz) (hhi : hdaddr + asz + 32768 < 2 ^ 63) (qgen : Int64) :
    let a := initarena (vlong hdaddr) (Int64.ofInt asz)
    let r := ArenaSt.reamed hdaddr asz reserve
    a.h0 = Int64.ofInt r.lo ∧ a.size = Int64.ofInt r.size ∧ a.loghd = r.loghd
      ∧ a.logdata = r.log.logtl.data ++ pack64 logSync
      ∧ ∃ es stop t, a.log qgen = some (es ++ [.sync 0], stop) ∧ replay r.size es = some (t, r.used)
        ∧ cover t = cover r.free := by
  have hadd : vlong hdaddr + 2 * ublksz = vlong (hdaddr + 32768) := by
    have h2 : (2 * ublksz : UInt64) = (Int64.ofInt 32768).toUInt64 := rfl
    rw [vlong, vlong, h2, ← Int64.toUInt64_add, ← Int64.ofInt_add]
  have hsub : (Int64.ofInt asz).toUInt64 - 2 * ublksz = vlong (asz - 32768) := by
    have h2 : (2 * ublksz : UInt64) = (Int64.ofInt 32768).toUInt64 := rfl
    rw [vlong, h2, ← Int64.toUInt64_sub, ← Int64.ofInt_sub]
  have hmod : (vlong hdaddr).toNat % 16384 = 0 := by
    have := toNat_vlong hdaddr
    omega
  obtain ⟨stop, hlog⟩ := @log_initarena (vlong hdaddr) (Int64.ofInt asz) hmod qgen
  rw [hadd, hsub, toInt64_vlong, toInt64_vlong] at hlog
  have hs : (Space.reamed hdaddr asz reserve).Sound _ := sound_reamed h0 hd ha hlt hhi
  obtain ⟨-, t, ht, hb, hc⟩ := hs.logs
  refine ⟨toInt64_vlong _, rfl, ?_, ?_, [_, _], stop, t, hlog, ?_, hc⟩
  · simp only [initarena, hadd, toInt64_vlong]
    rfl
  · simp only [initarena, hadd, hsub]
    rfl
  · rw [← total_eq_of_cover hs.ok.free hb hc.symm, ← hs.ok.used] at ht
    exact ht

/-- In every state an arena gets to from the ream on, whatever is asked of it, each block of its
space is free, one of the log, or handed out, and only one of these. -/
theorem accounted_run (h0 : 0 ≤ hdaddr) (hd : 16384 ∣ hdaddr) (ha : 16384 ∣ asz)
    (hlt : 49152 < asz) (hhi : hdaddr + asz + 32768 < 2 ^ 63) {s : Space}
    (hr : Trans.Via Space.step (fun op s => s.leaks op = false) (.reamed hdaddr asz reserve) s) :
    s.Accounted := by
  obtain ⟨⟨es, hs⟩, -⟩ := (sound_reamed h0 hd ha hlt hhi).run hr
  exact hs.accounted

/-- A barrier is where a replay ends, whenever the disk is read after it: with the blocks of the log
in any versions they had since, `loadlog` finds what was free at the barrier. -/
theorem loadlog_barrier (h0 : 0 ≤ hdaddr) (hd : 16384 ∣ hdaddr) (ha : 16384 ∣ asz)
    (hlt : 49152 < asz) (hhi : hdaddr + asz + 32768 < 2 ^ 63) {s s' : Space} {g : Int64}
    {get : Int64 → Option Mem} {fuel : ℕ} {hash : UInt64}
    (hr : Trans.Via Space.step (fun op s => s.leaks op = false) (.reamed hdaddr asz reserve) s)
    (hs : s.step (.barrier g) = some s') (hg : g ∈ s'.gens) (hdisk : s'.LeftOnDisk get)
    (hfuel : s'.arena.log.blks.length ≤ fuel) :
    ∃ es t, loadlog get g fuel ⟨s'.arena.loghd, hash, -1⟩ = some es
      ∧ replay s'.arena.size es = some (t, s'.arena.used) ∧ cover t = cover s'.arena.free := by
  obtain ⟨⟨es, h⟩, -⟩ := (sound_reamed h0 hd ha hlt hhi).run hr
  unfold Space.step at hs
  dsimp only at hs
  split_ifs at hs with hgen
  rcases ArenaSt.logbarrier_cases h.ok h.log hgen.1 hgen.2.1 with ⟨o, a, heq, ha, -⟩ | heq | heq
  · simp only [heq, Option.some.injEq] at hs
    subst hs
    exact h.recovers ha (by simpa using hgen.2.2) hdisk hfuel
  · simp only [heq, Option.some.injEq] at hs
    subst hs
    have hlt : ∀ g' ∈ s.gens, g' < g := by simpa using hgen.2.2
    exact absurd (hlt g hg) Int64.lt_irrefl
  · simp [heq] at hs

end Reamed

/-- Two blocks handed out, one put back, a barrier, and another block handed out. -/
def spaceOps : List SpaceOp := [.alloc true, .alloc false, .dealloc 65536]

def spaceAfter (ops : List SpaceOp) : Option Space :=
  Trans.run Space.step (.reamed 16384 1048576 0) ops

/-- The blocks of a log, written as they are. -/
def logDisk (l : Log) (x : Int64) : Option Mem :=
  (l.blks.find? (·.addr = x)).map (logBuf fun _ => 0)

theorem accounted_run_small : ∃ s, spaceAfter spaceOps = some s ∧ s.Accounted := by
  obtain ⟨s, hs⟩ : ∃ s, spaceAfter spaceOps = some s := ⟨_, rfl⟩
  have hr := Trans.via_of_run hs (C := fun op s => s.leaks op = false) (by decide +kernel)
  exact ⟨s, hs, accounted_run (by norm_num) (by norm_num) (by norm_num) (by norm_num)
    (by norm_num) hr⟩

theorem loadlog_barrier_small : ∃ s s' s'', spaceAfter spaceOps = some s
    ∧ s.step (.barrier 1) = some s' ∧ s'.step (.alloc true) = some s''
    ∧ ∃ es t, loadlog (logDisk s''.arena.log) 1 1 ⟨s'.arena.loghd, 0, -1⟩ = some es
      ∧ replay s'.arena.size es = some (t, s'.arena.used) ∧ cover t = cover s'.arena.free := by
  obtain ⟨s, hs⟩ : ∃ s, spaceAfter spaceOps = some s := ⟨_, rfl⟩
  have hr := Trans.via_of_run hs (C := fun op s => s.leaks op = false) (by decide +kernel)
  have hone : ∀ s ∈ spaceAfter spaceOps, ∃ s', s.step (.barrier 1) = some s' := by
    simp only [← Option.isSome_iff_exists]
    decide +kernel
  obtain ⟨s', h1⟩ := hone s hs
  have htwo : ∀ s ∈ spaceAfter spaceOps, ∀ s' ∈ s.step (.barrier 1), 1 ∈ s'.gens
      ∧ s'.arena.log.blks.length ≤ 1 ∧ s'.leaks (.alloc true) = false
      ∧ (s'.step (.alloc true)).isSome := by
    decide +kernel
  obtain ⟨h2, h3, h4, h5⟩ := htwo s hs s' h1
  obtain ⟨s'', h5⟩ := Option.isSome_iff_exists.1 h5
  have hdisk : ∀ s ∈ spaceAfter spaceOps, ∀ s' ∈ s.step (.barrier 1),
      ∀ s'' ∈ s'.step (.alloc true), s'.arena.log.blks.map (·.addr)
        = s''.arena.log.blks.map (·.addr) := by
    decide +kernel
  refine ⟨s, s', s'', hs, h1, h5, loadlog_barrier (by norm_num) (by norm_num) (by norm_num)
    (by norm_num) (by norm_num) hr h1 h2 (fun b hb => ?_) h3⟩
  have hb : b.addr ∈ s''.arena.log.blks.map (·.addr) := by
    rw [← hdisk s hs s' h1 s'' h5]
    exact List.mem_map_of_mem hb
  obtain ⟨c, hc, hcb⟩ := List.mem_map.1 hb
  obtain ⟨d, hd⟩ := Option.isSome_iff_exists.1
    (List.find?_isSome.2 ⟨c, hc, by simpa using hcb⟩ :
      (s''.arena.log.blks.find? (·.addr = b.addr)).isSome)
  refine ⟨s'', .step _ .refl h4 h5, d, List.mem_of_find?_eq_some hd,
    by simpa using List.find?_some hd, logBuf (fun _ => 0) d, fun _ => 0, ?_, fun _ _ => rfl⟩
  rw [logDisk, hd]
  rfl

end GefsFuse.Server
