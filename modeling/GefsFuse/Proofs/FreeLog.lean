import GefsFuse.FreeLog
import GefsFuse.Proofs.Mount

/-!
# Replaying the log of free space

The loops of `load_arena` do to the list what the entries say, one after the other
(`loadChain_blks`), and an allocation carves its range out of the first range that holds it
(`allocRange_eq`). The list ends exact if and only if every range allocated was found in one range
(`exact_foldl_iff`): one that was not stays in the list, and the total is too large for good.
-/

namespace GefsFuse

open ByteMem Ranges

/-! ## The loops -/

theorem logStep_pos (ent : UInt64) : 8 ≤ logStep ent := by
  unfold logStep
  split <;> omega

theorem logEntry_op (m : Mem) (i : ℕ) (fl : List GefsRange) :
    logEntry m i fl = (logOp m i).toList.foldl LogOp.replay fl := by
  unfold logEntry logOp
  dsimp only
  split_ifs <;> rfl

theorem replayLog_ops {m : Mem} {logsz : ℕ} : ∀ (n : ℕ) {i : ℕ} {fl : List GefsRange},
    logsz ≤ i + n → replayLog m logsz i fl = (logOps m logsz n i).foldl LogOp.replay fl
  | 0, i, fl, h => by
    rw [replayLog, if_neg (by omega)]
    rfl
  | n + 1, i, fl, h => by
    have hs := logStep_pos (unpack64 m i)
    rw [replayLog, logOps]
    split_ifs
    · rw [List.foldl_append, ← logEntry_op, replayLog_ops n (by omega)]
    · rfl

/-- The list after a chain is what its entries make of the list before. -/
theorem loadChain_blks : ∀ (fuel : ℕ) (ctx : GefsCtx) (bp : GefsBptr) (fl : List GefsRange),
    loadChain fuel ctx bp fl = (chainBlks fuel ctx bp).map fun (bs, ctx) =>
      ((bs.flatMap Content.ops).foldl LogOp.replay fl, ctx)
  | 0, _, _, _ => rfl
  | fuel + 1, ctx, bp, fl => by
    rw [loadChain, chainBlks]
    split_ifs
    · rfl
    · rcases gefsGetblk ctx bp with ⟨_ | b, ctx1⟩
      · rfl
      · dsimp only
        rw [loadChain_blks fuel, replayLog_ops b.logLen (by rw [Nat.zero_add]; rfl),
          Option.map_map]
        congr 1
        funext x
        obtain ⟨bs, ctx2⟩ := x
        rw [Function.comp_apply, List.flatMap_cons, List.foldl_append]
        rfl

/-! ## The ranges -/

/-- Ranges that are not empty and have addresses for their ends. -/
def RangesOk (fl : List GefsRange) : Prop := ∀ r ∈ fl, 0 < r.len.toInt ∧ r.rng.stop < 2 ^ 63

theorem rng_stop (r : GefsRange) : r.rng.stop = r.off.toInt + r.len.toInt := rfl

theorem toInt_add_of_lt {a b : Int64} (hb : 0 < b.toInt) (h : a.toInt + b.toInt < 2 ^ 63) :
    (a + b).toInt = a.toInt + b.toInt := by
  have := a.le_toInt
  rw [Int64.toInt_add]
  exact Int.bmod_eq_of_le (by omega) (by omega)

theorem toInt_sub_of_lt {a b : Int64} (h : -2 ^ 63 ≤ a.toInt - b.toInt)
    (h' : a.toInt - b.toInt < 2 ^ 63) : (a - b).toInt = a.toInt - b.toInt := by
  rw [Int64.toInt_sub]
  exact Int.bmod_eq_of_le (by omega) (by omega)

/-- What an allocation leaves of the range that holds it. -/
theorem rng_pieces {r cur : GefsRange} (hp : 0 < r.len.toInt) (hs : r.rng.stop < 2 ^ 63)
    (hcs : cur.rng.stop < 2 ^ 63) (hl : cur.rng.off ≤ r.rng.off) (hr : r.rng.stop ≤ cur.rng.stop)
    (rest : List GefsRange) : (allocRange r.off r.len (cur :: rest)).map GefsRange.rng
      = cut r.rng cur.rng ++ rest.map GefsRange.rng := by
  rw [rng_stop] at hs hcs hr
  rw [rng_stop] at hr
  have hl : cur.off.toInt ≤ r.off.toInt := hl
  have hclo := cur.off.le_toInt
  have hclt := cur.len.toInt_lt
  have hadd := toInt_add_of_lt hp hs
  have hcadd := toInt_add_of_lt (a := cur.off) (b := cur.len) (by omega) hcs
  have hin : cur.off ≤ r.off ∧ r.off + r.len ≤ cur.off + cur.len := by
    rw [Int64.le_iff_toInt_le, Int64.le_iff_toInt_le, hadd, hcadd]
    exact ⟨hl, hr⟩
  have hoff : r.off = cur.off ↔ r.off.toInt = cur.off.toInt := Int64.toInt_inj.symm
  have hlen : r.len = cur.len ↔ r.len.toInt = cur.len.toInt := Int64.toInt_inj.symm
  have hstop : r.off + r.len = cur.off + cur.len
      ↔ r.off.toInt + r.len.toInt = cur.off.toInt + cur.len.toInt := by
    rw [← Int64.toInt_inj, hadd, hcadd]
  have hlsub := toInt_sub_of_lt (a := cur.len) (b := r.len) (by omega) (by omega)
  have hosub := toInt_sub_of_lt (a := r.off) (b := cur.off) (by omega) (by omega)
  have hssub := toInt_sub_of_lt (a := cur.off + cur.len) (b := r.off + r.len)
    (by rw [hadd, hcadd]; omega) (by rw [hadd, hcadd]; omega)
  rw [hadd, hcadd] at hssub
  unfold cut
  rw [allocRange, if_pos hin, rng_stop, rng_stop]
  by_cases h1 : r.off = cur.off
  · have e1 := hoff.1 h1
    rw [if_neg (show ¬ cur.rng.off < r.rng.off from fun h : cur.off.toInt < r.off.toInt => by omega),
      List.nil_append]
    by_cases h2 : r.len = cur.len
    · have e2 := hlen.1 h2
      rw [if_pos ⟨h1, h2⟩, if_neg (by omega), List.nil_append]
    · have e2 := mt hlen.2 h2
      rw [if_neg fun h => h2 h.2, if_pos h1, if_pos (by omega), List.map_cons]
      congr 1
      unfold GefsRange.rng
      rw [← h1, hadd, hlsub]
      congr 1
      omega
  · have e1 := mt hoff.2 h1
    rw [if_neg fun h => h1 h.1, if_neg h1,
      if_pos (show cur.rng.off < r.rng.off from show cur.off.toInt < r.off.toInt by omega)]
    by_cases h2 : r.off + r.len = cur.off + cur.len
    · have e2 := hstop.1 h2
      rw [if_pos h2, if_neg (by omega), List.append_nil, List.map_cons]
      unfold GefsRange.rng
      rw [hlsub]
      congr 2
      dsimp only
      omega
    · have e2 := mt hstop.2 h2
      rw [if_neg h2, if_pos (by omega), List.map_cons, List.map_cons]
      unfold GefsRange.rng
      rw [hosub, hadd, hssub]
      rfl

/-- An allocation carves its range out of the list, and leaves the list if no range holds it. -/
theorem allocRange_eq {r : GefsRange} (hp : 0 < r.len.toInt) (hs : r.rng.stop < 2 ^ 63) :
    ∀ {fl : List GefsRange}, RangesOk fl → (allocRange r.off r.len fl).map GefsRange.rng
      = (carve r.rng (fl.map GefsRange.rng)).getD (fl.map GefsRange.rng)
  | [], _ => rfl
  | cur :: rest, h => by
    obtain ⟨hcp, hcs⟩ := h cur List.mem_cons_self
    have hrest : RangesOk rest := fun r hr => h r (List.mem_cons_of_mem _ hr)
    rw [List.map_cons, carve]
    by_cases hin : cur.rng.off ≤ r.rng.off ∧ r.rng.stop ≤ cur.rng.stop
    · rw [if_pos hin, Option.getD_some, rng_pieces hp hs hcs hin.1 hin.2]
    · have hnin : ¬ (cur.off ≤ r.off ∧ r.off + r.len ≤ cur.off + cur.len) := by
        rw [rng_stop] at hs hcs
        rw [Int64.le_iff_toInt_le, Int64.le_iff_toInt_le, toInt_add_of_lt hp hs,
          toInt_add_of_lt hcp hcs]
        exact hin
      rw [allocRange, if_neg hnin, if_neg hin, List.map_cons, allocRange_eq hp hs hrest]
      rcases carve _ (rest.map GefsRange.rng) <;> rfl

theorem rangesOk_iff {fl : List GefsRange} :
    RangesOk fl ↔ ∀ r ∈ fl.map GefsRange.rng, 0 < r.len ∧ r.stop < 2 ^ 63 := by
  simp only [List.forall_mem_map]
  rfl

theorem RangesOk.replay {fl : List GefsRange} (h : RangesOk fl) {s : Set ℤ} {op : LogOp}
    (hl : op.Legal s) : RangesOk (op.replay fl) := by
  unfold LogOp.replay
  split_ifs
  · intro r hr
    rcases List.mem_cons.1 hr with rfl | hr
    · exact ⟨hl.pos, hl.stop⟩
    · exact h r hr
  · rw [rangesOk_iff, allocRange_eq hl.pos hl.stop h]
    rcases hc : carve op.rng.rng (fl.map GefsRange.rng) with _ | rs
    · exact rangesOk_iff.1 h
    · intro r hr
      rcases mem_carve hc r hr with hr | ⟨cur, hcur, h1, h2, hr⟩
      · exact rangesOk_iff.1 h r hr
      · have hcs := (rangesOk_iff.1 h cur hcur).2
        refine ⟨pos_cut r hr, ?_⟩
        rcases mem_cut.1 hr with ⟨hlt, rfl⟩ | ⟨hlt, rfl⟩
        · have hs := hl.stop
          rw [rng_stop] at hs
          have : op.rng.rng.off = op.rng.off.toInt := rfl
          have := hl.pos
          simp only [Rng.stop]
          omega
        · simp only [Rng.stop] at hcs ⊢
          omega

/-! ## One entry -/

theorem found_iff {fl : List GefsRange} {op : LogOp} : op.Found fl ↔
    op.free ∨ (carve op.rng.rng (fl.map GefsRange.rng)).isSome := by
  rw [carve_isSome]
  simp only [List.mem_map, exists_exists_and_eq_and]
  rfl

/-- An entry that finds its range keeps the list exact. -/
theorem exact_replay {fl : List GefsRange} {s : Set ℤ} {op : LogOp} (hs : RangesOk fl)
    (h : Exact (fl.map GefsRange.rng) s) (hl : op.Legal s) (hf : op.Found fl) :
    Exact ((op.replay fl).map GefsRange.rng) (op.after s) := by
  have hok := hl.ok
  unfold LogOp.replay LogOp.after
  by_cases hfree : op.free = true
  · rw [if_pos hfree] at hok ⊢
    rw [if_pos hfree, List.map_cons]
    exact h.cons hl.pos hok
  · rw [if_neg hfree, if_neg hfree, allocRange_eq hl.pos hl.stop hs]
    obtain ⟨rs, hrs⟩ := Option.isSome_iff_exists.1 ((found_iff.1 hf).resolve_left hfree)
    rw [hrs, Option.getD_some]
    exact h.carve hl.pos hrs

/-- How much more the list holds than it should. -/
noncomputable def excess (fl : List GefsRange) (s : Set ℤ) : ℤ :=
  total (fl.map GefsRange.rng) - s.ncard

theorem ncard_bytes {r : Rng} (hp : 0 < r.len) : (r.bytes.ncard : ℤ) = r.len := by
  rw [Rng.bytes, Set.ncard_eq_toFinset_card', Set.toFinset_Ico, Int.card_Ico, Rng.stop]
  omega

theorem finite_after {s : Set ℤ} (hs : s.Finite) (op : LogOp) : (op.after s).Finite := by
  unfold LogOp.after
  split_ifs
  · exact hs.union (Set.finite_Ico _ _)
  · exact hs.sdiff

/-- An entry that does not find its range leaves that much more; others change nothing. -/
theorem excess_replay {fl : List GefsRange} {s : Set ℤ} {op : LogOp} (hs : RangesOk fl)
    (hfin : s.Finite) (hl : op.Legal s) : excess (op.replay fl) (op.after s)
      = excess fl s + if op.Found fl then 0 else op.rng.len.toInt := by
  have hok := hl.ok
  have hcard := ncard_bytes (r := op.rng.rng) hl.pos
  have hlen : op.rng.rng.len = op.rng.len.toInt := rfl
  unfold excess LogOp.replay LogOp.after
  by_cases hfree : op.free = true
  · rw [if_pos hfree] at hok
    have hfound : op.Found fl := .inl hfree
    rw [if_pos hfree, if_pos hfree, if_pos hfound, List.map_cons, total_cons,
      Set.ncard_union_eq hok.symm hfin (Set.finite_Ico _ _)]
    push_cast
    omega
  · rw [if_neg hfree] at hok
    have hsub := Set.ncard_sdiff_add_ncard_of_subset hok hfin
    rw [if_neg hfree, if_neg hfree, allocRange_eq hl.pos hl.stop hs]
    rcases hc : carve op.rng.rng (fl.map GefsRange.rng) with _ | rs
    · have hfound : ¬ op.Found fl := by
        rw [found_iff, hc]
        simp [hfree]
      rw [if_neg hfound, Option.getD_none]
      omega
    · have hfound : op.Found fl := by
        rw [found_iff, hc]
        exact .inr rfl
      have := total_carve hc
      rw [if_pos hfound, Option.getD_some]
      omega

/-! ## A whole log -/

theorem excess_foldl : ∀ {ops : List LogOp} {fl : List GefsRange} {s : Set ℤ}, RangesOk fl → s.Finite →
    LegalLog s ops →
    excess fl s ≤ excess (ops.foldl LogOp.replay fl) (ops.foldl LogOp.after s)
      ∧ (¬ FoundLog fl ops →
        excess fl s < excess (ops.foldl LogOp.replay fl) (ops.foldl LogOp.after s))
  | [], fl, s, _, _, _ => ⟨le_rfl, fun h => absurd trivial h⟩
  | op :: ops, fl, s, hs, hfin, hl => by
    obtain ⟨h1, h2⟩ := hl
    have hstep := excess_replay hs hfin h1
    obtain ⟨ih, ihn⟩ := excess_foldl (hs.replay h1) (finite_after hfin op) h2
    have hp := h1.pos
    rw [List.foldl_cons, List.foldl_cons]
    constructor
    · split_ifs at hstep <;> omega
    · intro hn
      by_cases hf : op.Found fl
      · have := ihn fun h => hn ⟨hf, h⟩
        rw [if_pos hf] at hstep
        omega
      · rw [if_neg hf] at hstep
        omega

theorem exact_foldl : ∀ {ops : List LogOp} {fl : List GefsRange} {s : Set ℤ}, RangesOk fl →
    Exact (fl.map GefsRange.rng) s → LegalLog s ops → FoundLog fl ops →
    Exact ((ops.foldl LogOp.replay fl).map GefsRange.rng) (ops.foldl LogOp.after s)
  | [], _, _, _, h, _, _ => h
  | op :: ops, fl, s, hs, h, hl, hf => by
    rw [List.foldl_cons, List.foldl_cons]
    exact exact_foldl (hs.replay hl.1) (exact_replay hs h hl.1 hf.1) hl.2 hf.2

/-- The list a legal log ends with is exact if and only if each range allocated was found. -/
theorem exact_foldl_iff {ops : List LogOp} (hl : LegalLog ∅ ops) :
    Exact ((ops.foldl LogOp.replay []).map GefsRange.rng) (ops.foldl LogOp.after ∅)
      ↔ FoundLog [] ops := by
  have hs : RangesOk [] := fun r hr => absurd hr (by simp)
  refine ⟨fun h => ?_, exact_foldl hs exact_nil hl⟩
  by_contra hn
  have h1 := (excess_foldl hs Set.finite_empty hl).2 hn
  have h2 := h.total.2
  unfold excess at h1
  rw [h2] at h1
  simp at h1

/-- The chain of log blocks of an arena is replayed to the set its entries leave free, as a list of
ranges that do not overlap, if and only if each range allocated was found. -/
theorem loadChain_exact_iff {fuel : ℕ} {ctx ctx' : GefsCtx} {bp : GefsBptr} {bs : List Content}
    (hc : chainBlks fuel ctx bp = some (bs, ctx')) (hl : LegalLog ∅ (bs.flatMap Content.ops)) :
    (∃ fl, loadChain fuel ctx bp [] = some (fl, ctx')
      ∧ Exact (fl.map GefsRange.rng) ((bs.flatMap Content.ops).foldl LogOp.after ∅))
      ↔ FoundLog [] (bs.flatMap Content.ops) := by
  rw [← exact_foldl_iff hl, loadChain_blks, hc, Option.map_some]
  constructor
  · rintro ⟨fl, hfl, h⟩
    obtain ⟨rfl, -⟩ := Prod.mk.inj (Option.some.inj hfl)
    exact h
  · exact fun h => ⟨_, rfl, h⟩

/-! ## One log block -/

/-- A log block of `logsz` bytes that is the last of its chain, with the entries `es` after five
words that are none. -/
def lastLog (logsz : UInt8) (es : Bytes) : Disk :=
  ⟨16384, memOf ([0, 4, 0, logsz] ++ List.replicate 36 255 ++ es)⟩

/-- Two blocks freed, which lie side by side. -/
def freedTwo : Bytes := [0, 0, 0, 0, 0, 0, 0x40, 2, 0, 0, 0, 0, 0, 0, 0x80, 2]

/-- A block of the two allocated. -/
def oneLog : Disk := lastLog 64 (freedTwo ++ [0, 0, 0, 0, 0, 0, 0x80, 3])

/-- Both allocated as one range. -/
def bothLog : Disk :=
  lastLog 72 (freedTwo ++ [0, 0, 0, 0, 0, 0, 0x40, 1, 0, 0, 0, 0, 0, 0, 0x80, 0])

def logAt0 : GefsBptr := ⟨0, 0, 0⟩

/-- The chain of a log block on its own, and its entries. -/
theorem chain_one {d : Disk} {ops : List LogOp}
    (h : (chainBlks 2 (diskCtx d 0 zeroTree) logAt0).isSome = true)
    (hops : ∀ x ∈ chainBlks 2 (diskCtx d 0 zeroTree) logAt0, x.1.flatMap Content.ops = ops) :
    ∃ bs ctx', chainBlks 2 (diskCtx d 0 zeroTree) logAt0 = some (bs, ctx')
      ∧ bs.flatMap Content.ops = ops := by
  obtain ⟨⟨bs, ctx'⟩, hx⟩ := Option.isSome_iff_exists.1 h
  exact ⟨bs, ctx', hx, hops _ hx⟩

theorem legal_free {s : Set ℤ} {x : Int64} (hx : x.toInt % 16384 = 0)
    (hlt : x.toInt + 16384 < 2 ^ 63) (hd : ∀ y ∈ s, y < x.toInt ∨ x.toInt + 16384 ≤ y) :
    LogOp.Legal s ⟨true, x, 16384⟩ := by
  refine ⟨show 0 < (16384 : Int64).toInt by decide, hx,
    show (16384 : Int64).toInt % 16384 = 0 by decide, hlt, ?_⟩
  refine Set.disjoint_left.2 fun y hy hs => ?_
  have h1 : x.toInt ≤ y ∧ y < x.toInt + 16384 := hy
  have := hd y hs
  omega

/-- Both blocks are freed legally, and then what lies between them may be allocated. -/
theorem legal_two {x n : Int64} (hp : 0 < n.toInt) (hx : x.toInt % 16384 = 0)
    (hn : n.toInt % 16384 = 0) (hlo : 16384 ≤ x.toInt) (hhi : x.toInt + n.toInt ≤ 49152) :
    LegalLog ∅ [⟨true, 16384, 16384⟩, ⟨true, 32768, 16384⟩, ⟨false, x, n⟩] := by
  have h1 : (16384 : Int64).toInt = 16384 := rfl
  have h2 : (32768 : Int64).toInt = 32768 := rfl
  refine ⟨legal_free (by decide) (by decide) (by simp), legal_free (by decide) (by decide) ?_, ?_,
    trivial⟩
  · intro y hy
    rcases hy with hy | hy
    · exact absurd hy (by simp)
    · have : y < (16384 : Int64).toInt + (16384 : Int64).toInt := hy.2
      omega
  · refine ⟨hp, hx, hn, ?_, ?_⟩
    · change x.toInt + n.toInt < 2 ^ 63
      omega
    · intro y hy
      have hy : x.toInt ≤ y ∧ y < x.toInt + n.toInt := hy
      by_cases hlt : y < 32768
      · refine .inl (.inr ?_)
        change (16384 : Int64).toInt ≤ y ∧ y < (16384 : Int64).toInt + (16384 : Int64).toInt
        omega
      · refine .inr ?_
        change (32768 : Int64).toInt ≤ y ∧ y < (32768 : Int64).toInt + (16384 : Int64).toInt
        omega

theorem loadChain_exact_one : ∃ (bs : List Content) (ctx' : GefsCtx) (fl : List GefsRange),
    chainBlks 2 (diskCtx oneLog 0 zeroTree) logAt0 = some (bs, ctx')
      ∧ loadChain 2 (diskCtx oneLog 0 zeroTree) logAt0 [] = some (fl, ctx')
      ∧ Exact (fl.map GefsRange.rng) ((bs.flatMap Content.ops).foldl LogOp.after ∅) := by
  obtain ⟨bs, ctx', hc, hops⟩ := @chain_one oneLog
    [⟨true, 16384, 16384⟩, ⟨true, 32768, 16384⟩, ⟨false, 32768, 16384⟩] (by decide +kernel)
    (by decide +kernel)
  have hl : LegalLog ∅ (bs.flatMap Content.ops) := by
    rw [hops]
    exact legal_two (by decide) (by decide) (by decide) (by decide) (by decide)
  have hf : FoundLog [] (bs.flatMap Content.ops) := by
    rw [hops]
    decide
  obtain ⟨fl, h⟩ := (loadChain_exact_iff hc hl).2 hf
  exact ⟨bs, ctx', fl, hc, h⟩

/-- A range that spans two of the list stays in it. -/
theorem not_forall_exact : ¬ ∀ (fuel : ℕ) (ctx ctx' : GefsCtx) (bp : GefsBptr) (bs : List Content),
    chainBlks fuel ctx bp = some (bs, ctx') → LegalLog ∅ (bs.flatMap Content.ops) →
    ∃ fl, loadChain fuel ctx bp [] = some (fl, ctx')
      ∧ Exact (fl.map GefsRange.rng) ((bs.flatMap Content.ops).foldl LogOp.after ∅) := by
  intro h
  obtain ⟨bs, ctx', hc, hops⟩ := @chain_one bothLog
    [⟨true, 16384, 16384⟩, ⟨true, 32768, 16384⟩, ⟨false, 16384, 32768⟩] (by decide +kernel)
    (by decide +kernel)
  have hl : LegalLog ∅ (bs.flatMap Content.ops) := by
    rw [hops]
    exact legal_two (by decide) (by decide) (by decide) (by decide) (by decide)
  obtain ⟨fl, hfl, he⟩ := h _ _ _ _ _ hc hl
  rw [loadChain_blks, hc, Option.map_some] at hfl
  obtain ⟨rfl, -⟩ := Prod.mk.inj (Option.some.inj hfl)
  have hfound := (exact_foldl_iff hl).1 he
  rw [hops] at hfound
  revert hfound
  decide

end GefsFuse
