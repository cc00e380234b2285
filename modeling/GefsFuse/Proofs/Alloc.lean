import GefsFuse.Alloc
import GefsFuse.Proofs.FreeLog
import GefsFuse.Proofs.Upsert

/-!
# The allocator hands out each free block once

A call takes the front of the first free range (`takeFront`), which takes its block out of the set
of free addresses and keeps the ranges whole. A run of calls follows by induction (`allocs_spec`):
the addresses are distinct, they were all free, and each arena is charged for its own.
-/

namespace GefsFuse

open Ranges

variable {r : GefsRange} {rest rs : List GefsRange} {as as' : List GefsArena} {x : Int64}

/-! ## One range -/

/-- A free list whose first range is `r`, without the first block of it. -/
def takeFront (r : GefsRange) (rest : List GefsRange) : List GefsRange :=
  if r.len - 16384 = 0 then rest else ⟨r.off + 16384, r.len - 16384⟩ :: rest

theorem takeFront_append (r : GefsRange) (rest rs : List GefsRange) :
    takeFront r rest ++ rs = takeFront r (rest ++ rs) := by
  unfold takeFront
  split_ifs <;> simp

theorem FreeOk.exact (h : FreeOk rs) : Exact (rs.map GefsRange.rng) (freeSet rs) := by
  refine ⟨?_, List.pairwise_map.2 h.disjoint, ?_⟩
  · intro q hq
    obtain ⟨r, hr, rfl⟩ := List.mem_map.1 hq
    exact (h.whole r hr).pos
  · intro y
    simp [freeSet]

theorem FreeOk.sublist {rs' : List GefsRange} (h : FreeOk rs) (hs : rs'.Sublist rs) : FreeOk rs' :=
  ⟨fun r hr => h.whole r (hs.subset hr), h.disjoint.sublist hs⟩

/-- The lengths of a whole range in numbers of blocks. -/
theorem GefsRange.Whole.bounds (h : r.Whole) :
    16384 ≤ r.len.toInt ∧ (16384 : ℤ) ∣ r.off.toInt ∧ (16384 : ℤ) ∣ r.len.toInt
      ∧ r.off.toInt + r.len.toInt ≤ 2 ^ 63 ∧ (r.len - 16384).toInt = r.len.toInt - 16384 := by
  obtain ⟨ho, hl, hp, hs⟩ := h
  rw [rng_stop] at hs
  have hlen := r.len.toInt_lt
  have h1 : 16384 ≤ r.len.toInt := by omega
  have h2 : (16384 : Int64).toInt = 16384 := rfl
  have := @toInt_sub_of_lt r.len 16384 (by omega) (by omega)
  exact ⟨h1, ho, hl, hs, by omega⟩

/-- Where something is left of a range, the address after its first block is one. -/
theorem GefsRange.Whole.off_add (h : r.Whole) (hl : r.len.toInt ≠ 16384) :
    (r.off + 16384).toInt = r.off.toInt + 16384 := by
  obtain ⟨h1, h2, h3, h4, -⟩ := h.bounds
  have h5 : (16384 : Int64).toInt = 16384 := rfl
  have := @toInt_add_of_lt r.off 16384 (by omega) (by omega)
  omega

theorem len_sub_eq_zero (h : r.Whole) : r.len - 16384 = 0 ↔ r.len.toInt = 16384 := by
  obtain ⟨-, -, -, -, hs⟩ := h.bounds
  have h0 : (0 : Int64).toInt = 0 := rfl
  rw [← Int64.toInt_inj, hs, h0]
  omega

/-- Taking the front of a range is to carve its first block out of it. -/
theorem takeFront_rng (h : r.Whole) (rest : List GefsRange) :
    (takeFront r rest).map GefsRange.rng
      = cut (blockAt r.off) r.rng ++ rest.map GefsRange.rng := by
  obtain ⟨h1, h2, h3, h4, h5⟩ := h.bounds
  have hfront : ¬ r.rng.off < (blockAt r.off).off := fun hlt => lt_irrefl _ hlt
  have hstop : (blockAt r.off).stop < r.rng.stop ↔ 16384 < r.len.toInt := by
    rw [rng_stop, Rng.stop, blockAt]
    dsimp only
    omega
  rw [cut, if_neg hfront, List.nil_append, takeFront]
  by_cases hl : r.len.toInt = 16384
  · rw [if_pos ((len_sub_eq_zero h).2 hl), if_neg (by rw [hstop]; omega), List.nil_append]
  · rw [if_neg (mt (len_sub_eq_zero h).1 hl), if_pos (by rw [hstop]; omega), List.map_cons]
    unfold GefsRange.rng Rng.stop blockAt
    rw [h.off_add hl, h5]
    simp only [List.cons_append, List.nil_append, List.cons.injEq, Rng.mk.injEq, true_and, and_true]
    omega

theorem carve_front (h : r.Whole) (rest : List GefsRange) :
    carve (blockAt r.off) ((r :: rest).map GefsRange.rng)
      = some ((takeFront r rest).map GefsRange.rng) := by
  obtain ⟨h1, -, -, -, -⟩ := h.bounds
  have hin : r.rng.off ≤ (blockAt r.off).off ∧ (blockAt r.off).stop ≤ r.rng.stop := by
    rw [rng_stop, Rng.stop, blockAt]
    exact ⟨le_rfl, by dsimp only; omega⟩
  rw [List.map_cons, carve, if_pos hin, takeFront_rng h]

theorem FreeOk.exact_takeFront (h : FreeOk (r :: rest)) :
    Exact ((takeFront r rest).map GefsRange.rng)
      (freeSet (r :: rest) \ (blockAt r.off).bytes) :=
  h.exact.carve (show (0 : ℤ) < 16384 by omega) (carve_front (h.whole r List.mem_cons_self) rest)

theorem FreeOk.freeSet_takeFront (h : FreeOk (r :: rest)) :
    freeSet (takeFront r rest) = freeSet (r :: rest) \ (blockAt r.off).bytes := by
  ext y
  rw [h.exact_takeFront.cover]
  simp [freeSet]

theorem FreeOk.takeFront (h : FreeOk (r :: rest)) : FreeOk (takeFront r rest) := by
  have hd : (GefsFuse.takeFront r rest).Pairwise fun q q' => Disjoint q.rng.bytes q'.rng.bytes := by
    have := h.exact_takeFront.disjoint
    rwa [List.pairwise_map] at this
  refine ⟨fun q hq => ?_, hd⟩
  have hr := h.whole r List.mem_cons_self
  have hrest : ∀ q ∈ rest, q.Whole := fun q hq => h.whole q (List.mem_cons_of_mem _ hq)
  unfold GefsFuse.takeFront at hq
  split_ifs at hq with hz
  · exact hrest q hq
  · rcases List.mem_cons.1 hq with rfl | hq
    · obtain ⟨h1, h2, h3, h4, h5⟩ := hr.bounds
      have hl := mt (len_sub_eq_zero hr).2 hz
      have h6 := hr.off_add hl
      refine ⟨?_, ?_, ?_, ?_⟩
      · dsimp only
        omega
      · dsimp only
        omega
      · dsimp only
        omega
      · rw [rng_stop]
        dsimp only
        omega
    · exact hrest q hq

/-- The first block of a range, all of which is free. -/
theorem FreeOk.front (h : FreeOk (r :: rest)) :
    (16384 : ℤ) ∣ r.off.toInt ∧ (blockAt r.off).bytes ⊆ freeSet (r :: rest) := by
  obtain ⟨h1, h2, -, -, -⟩ := (h.whole r List.mem_cons_self).bounds
  refine ⟨h2, fun y hy => ⟨r, List.mem_cons_self, ?_⟩⟩
  rw [Rng.mem_bytes, Rng.stop] at hy ⊢
  simp only [blockAt, GefsRange.rng] at hy ⊢
  omega

theorem ne_of_dvd (h : (16384 : ℤ) ∣ x.toInt) : x ≠ -1 := by
  rintro rfl
  exact absurd h (by decide)

/-! ## One call -/

theorem allocArenas_eq_none : ∀ {as : List GefsArena},
    allocArenas as = none ↔ ∀ a ∈ as, a.freeList = []
  | [] => by simp [allocArenas]
  | a :: as => by
    unfold allocArenas
    rcases h : a.freeList with _ | ⟨r, rs⟩
    · simp [h, allocArenas_eq_none]
    · simp [h]

/-- A call takes the front off the first arena that has a range. -/
theorem allocArenas_cases : ∀ {as as' : List GefsArena} {x : Int64}, allocArenas as = some (x, as') →
    ∃ pre a post r rest, as = pre ++ a :: post ∧ (∀ b ∈ pre, b.freeList = [])
      ∧ a.freeList = r :: rest ∧ x = r.off
      ∧ as' = pre ++ { a with used := a.used + 16384, freeList := takeFront r rest } :: post
  | [], _, _, h => by simp [allocArenas] at h
  | a :: as, as', x, h => by
    unfold allocArenas at h
    rcases hf : a.freeList with _ | ⟨r, rest⟩
    · rw [hf] at h
      obtain ⟨⟨y, as1⟩, h1, h2⟩ := Option.map_eq_some_iff.1 h
      simp only [Prod.mk.injEq] at h2
      obtain ⟨rfl, rfl⟩ := h2
      obtain ⟨pre, b, post, r, rest, rfl, hpre, hb, hx, rfl⟩ := allocArenas_cases h1
      exact ⟨a :: pre, b, post, r, rest, rfl, List.forall_mem_cons.2 ⟨hf, hpre⟩, hb, hx, rfl⟩
    · rw [hf] at h
      simp only [Option.some.injEq, Prod.mk.injEq] at h
      exact ⟨[], a, as, r, rest, rfl, by simp, hf, h.1.symm, h.2.symm⟩

theorem freeRanges_of_nil {pre : List GefsArena} (h : ∀ b ∈ pre, b.freeList = [])
    (post : List GefsArena) : freeRanges (pre ++ post) = freeRanges post := by
  have : freeRanges pre = [] := List.flatMap_eq_nil_iff.2 h
  unfold freeRanges at this ⊢
  rw [List.flatMap_append, this, List.nil_append]

/-- What one call hands out and leaves. -/
structure Took (as : List GefsArena) (x : Int64) (as' : List GefsArena) : Prop where
  aligned : (16384 : ℤ) ∣ x.toInt
  initial : (blockAt x).bytes ⊆ freeSet (freeRanges as)
  shape : FreeOk (freeRanges as')
  left : freeSet (freeRanges as') = freeSet (freeRanges as) \ (blockAt x).bytes

theorem took_of_allocArenas (h : allocArenas as = some (x, as')) (ho : FreeOk (freeRanges as)) :
    Took as x as' := by
  obtain ⟨pre, a, post, r, rest, rfl, hpre, ha, rfl, rfl⟩ := allocArenas_cases h
  have e : freeRanges (pre ++ a :: post) = r :: (rest ++ freeRanges post) := by
    rw [freeRanges_of_nil hpre, freeRanges, List.flatMap_cons, ha, List.cons_append]
    rfl
  have e' : ∀ u, freeRanges (pre ++ { a with used := u, freeList := takeFront r rest } :: post)
      = takeFront r (rest ++ freeRanges post) := fun u => by
    rw [freeRanges_of_nil hpre, freeRanges, List.flatMap_cons, ← takeFront_append]
    rfl
  rw [e] at ho
  have hf := ho.front
  exact ⟨hf.1, by rw [e]; exact hf.2, by rw [e']; exact ho.takeFront,
    by rw [e, e']; exact ho.freeSet_takeFront⟩

/-! ## Who is charged -/

theorem forall₂_trans {α β γ : Type*} {R : α → β → Prop} {S : β → γ → Prop} {T : α → γ → Prop}
    (h : ∀ a b c, R a b → S b c → T a c) : ∀ {l1 : List α} {l2 : List β} {l3 : List γ},
    List.Forall₂ R l1 l2 → List.Forall₂ S l2 l3 → List.Forall₂ T l1 l3
  | [], [], [], .nil, .nil => .nil
  | _ :: _, _ :: _, _ :: _, .cons hr hrs, .cons hs hss =>
    .cons (h _ _ _ hr hs) (forall₂_trans h hrs hss)

variable {a a' b : GefsArena} {xs : List Int64}

theorem GefsArena.Gave.refl (a : GefsArena) : a.Gave [] a := ⟨by simp, rfl, rfl, rfl⟩

/-- An address of another arena is not charged for. -/
theorem GefsArena.Gave.cons_other (h : a.Gave xs b) (hx : ¬ a.Has x) : a.Gave (x :: xs) b := by
  refine ⟨?_, h.hdaddr, h.size, h.loghd⟩
  rw [h.used, List.countP_cons_of_neg (by simpa using hx)]

/-- The arena that `x` comes from is charged for it, and for the later ones as before. -/
theorem GefsArena.Gave.cons_own (ha : a.freeList = r :: rest) (ho : FreeOk (r :: rest))
    (h : { a with used := a.used + 16384, freeList := takeFront r rest }.Gave xs b)
    (hxs : ∀ y ∈ xs, y.toInt ∉ (blockAt r.off).bytes) : a.Gave (r.off :: xs) b := by
  refine ⟨?_, h.hdaddr, h.size, h.loghd⟩
  have hx : a.Has r.off := by
    refine ⟨r, by rw [ha]; exact List.mem_cons_self, ?_⟩
    have := (ho.whole r List.mem_cons_self).pos
    rw [Rng.mem_bytes, rng_stop]
    exact ⟨le_rfl, by omega⟩
  have hcount : xs.countP (a.Has ·) = xs.countP
      ({ a with used := a.used + 16384, freeList := takeFront r rest }.Has ·) := by
    refine List.countP_congr fun y hy => ?_
    simp only [decide_eq_true_eq]
    change y.toInt ∈ freeSet a.freeList ↔ y.toInt ∈ freeSet (takeFront r rest)
    rw [ho.freeSet_takeFront, ha, Set.mem_sdiff]
    exact ⟨fun hm => ⟨hm, hxs y hy⟩, fun hm => hm.1⟩
  have hnum : ∀ c : ℕ, Int64.ofNat (16384 * (c + 1)) = 16384 + Int64.ofNat (16384 * c) := fun c => by
    rw [Nat.mul_add, Nat.mul_one, Nat.add_comm, Int64.ofNat_add]
    rfl
  rw [h.used, List.countP_cons_of_pos (by simpa using hx), hcount, hnum, ← Int64.add_assoc]

theorem gave_cons (h : allocArenas as = some (x, as')) (ho : FreeOk (freeRanges as))
    (hxs : ∀ y ∈ xs, y.toInt ∈ freeSet (freeRanges as')) {as'' : List GefsArena}
    (hg : List.Forall₂ (·.Gave xs ·) as' as'') : List.Forall₂ (·.Gave (x :: xs) ·) as as'' := by
  have ht := took_of_allocArenas h ho
  have hout : ∀ y ∈ xs, y.toInt ∉ (blockAt x).bytes := fun y hy => by
    have := hxs y hy
    rw [ht.left] at this
    exact this.2
  obtain ⟨pre, a, post, r, rest, rfl, hpre, ha, rfl, rfl⟩ := allocArenas_cases h
  rw [freeRanges_of_nil hpre, freeRanges, List.flatMap_cons, ha] at ho
  refine forall₂_trans (R := fun b b' => ∀ c, b'.Gave xs c → b.Gave (r.off :: xs) c)
    (fun _ _ c h h' => h c h') ?_ hg
  refine List.rel_append (List.forall₂_same.2 fun b hb c hc => ?_)
    (.cons (fun c hc => ?_) (List.forall₂_same.2 fun b hb c hc => ?_))
  · refine hc.cons_other ?_
    rintro ⟨q, hq, -⟩
    rw [hpre b hb] at hq
    exact absurd hq List.not_mem_nil
  · exact hc.cons_own ha (ho.sublist (List.sublist_append_left _ _)) hout
  · refine hc.cons_other ?_
    rintro ⟨q, hq, hin⟩
    have hd := (List.pairwise_cons.1 ho.disjoint).1 q
      (List.mem_append_right _ (List.mem_flatMap.2 ⟨b, hb, hq⟩))
    refine Set.disjoint_left.1 hd ?_ hin
    have := (ho.whole r List.mem_cons_self).pos
    rw [Rng.mem_bytes, rng_stop]
    exact ⟨le_rfl, by omega⟩

/-! ## A run of calls -/

variable {ctx : GefsCtx} {n : ℕ}

theorem nextAlloc_eq_none : nextAlloc ctx = none ↔ Refuses ctx := by
  unfold nextAlloc Refuses
  split_ifs with h
  · exact ⟨fun _ => h.imp_right .inl, fun _ => rfl⟩
  · rw [not_or] at h
    simp [h, allocArenas_eq_none]

theorem gefsAllocBlk_of_refuses (h : Refuses ctx) : gefsAllocBlk ctx = (-1, ctx) := by
  rw [gefsAllocBlk_eq, nextAlloc_eq_none.2 h]

/-- Once refused, always refused. -/
theorem allocs_of_refuses (h : Refuses ctx) :
    ∀ n, allocs n ctx = (List.replicate n (-1), ctx)
  | 0 => rfl
  | n + 1 => by
    simp only [allocs, gefsAllocBlk_of_refuses h, allocs_of_refuses h n, List.replicate_succ]

theorem allocs_succ_of_some (h : nextAlloc ctx = some (x, as)) (n : ℕ) :
    allocs (n + 1) ctx = (x :: (allocs n { ctx with arenas := as, dirty := true }).1,
      (allocs n { ctx with arenas := as, dirty := true }).2) := by
  simp only [allocs, gefsAllocBlk_eq, h]

theorem length_allocs : ∀ (n : ℕ) (ctx : GefsCtx), (allocs n ctx).1.length = n
  | 0, _ => rfl
  | n + 1, ctx => by simp [allocs, length_allocs n]

theorem allocated_of_refuses (h : Refuses ctx) (ho : FreeOk (freeRanges ctx.arenas)) (n : ℕ) :
    Allocated n ctx := by
  have ht : taken n ctx = [] := by simp [taken, allocs_of_refuses h]
  refine ⟨?_, ?_, ?_, fun i hi => ?_, ?_, ?_, ?_⟩
  · simp [ht]
  · simp [ht]
  · simp [ht]
  · simp [allocs_of_refuses h, hi, h]
  · rwa [allocs_of_refuses h]
  · simp [ht, allocs_of_refuses h]
  · rw [ht, allocs_of_refuses h]
    exact List.forall₂_same.2 fun a _ => .refl a

/-- A call before `n` others. -/
theorem Allocated.cons (h : nextAlloc ctx = some (x, as)) (ho : FreeOk (freeRanges ctx.arenas))
    (hn : Allocated n { ctx with arenas := as, dirty := true }) : Allocated (n + 1) ctx := by
  have hr : ¬ Refuses ctx := fun hr => by
    rw [nextAlloc_eq_none.2 hr] at h
    cases h
  have ha : allocArenas ctx.arenas = some (x, as) := by
    unfold nextAlloc at h
    split_ifs at h
    exact h
  have htook := took_of_allocArenas ha ho
  have hx := ne_of_dvd htook.aligned
  have ht : taken (n + 1) ctx = x :: taken n { ctx with arenas := as, dirty := true } := by
    simp only [taken, allocs_succ_of_some h]
    rw [List.filter_cons_of_pos (by simpa using hx)]
  have hinit := hn.initial
  dsimp only at hinit
  -- the start of a block handed out later is not in the block of `x`
  have hlater : ∀ y ∈ taken n { ctx with arenas := as, dirty := true },
      y.toInt ∈ freeSet (freeRanges as) := fun y hy => hinit y hy ⟨le_rfl, by
        rw [Rng.stop, blockAt]
        dsimp only
        omega⟩
  refine ⟨?_, ?_, ?_, fun i hi => ?_, ?_, ?_, ?_⟩
  · rw [ht, List.nodup_cons]
    refine ⟨fun hm => ?_, hn.nodup⟩
    have := hlater x hm
    rw [htook.left] at this
    refine this.2 ⟨le_rfl, ?_⟩
    rw [Rng.stop, blockAt]
    dsimp only
    omega
  · rw [ht]
    exact List.forall_mem_cons.2 ⟨htook.aligned, hn.aligned⟩
  · rw [ht]
    refine List.forall_mem_cons.2 ⟨htook.initial, fun y hy => (hinit y hy).trans ?_⟩
    rw [htook.left]
    exact Set.sdiff_subset
  · rcases i with _ | i
    · simp [allocs, gefsAllocBlk_eq, h, hx, hr]
    · simp only [allocs_succ_of_some h, List.getElem?_cons_succ]
      exact hn.fails i (by omega)
  · rw [allocs_succ_of_some h]
    exact hn.shape
  · rw [allocs_succ_of_some h, ht]
    have := hn.left
    dsimp only at this ⊢
    rw [this, htook.left, Set.sdiff_sdiff]
    congr 1
    ext y
    simp
  · rw [allocs_succ_of_some h, ht]
    exact gave_cons ha ho hlater hn.used

/-- Any number of calls, from free lists of whole ranges that do not overlap. -/
theorem allocs_spec (ctx : GefsCtx) (h : FreeOk (freeRanges ctx.arenas)) (n : ℕ) :
    Allocated n ctx := by
  induction n generalizing ctx with
  | zero =>
    exact ⟨by simp [taken, allocs], by simp [taken, allocs], by simp [taken, allocs], by simp,
      h, by simp [taken, allocs], List.forall₂_same.2 fun a _ => .refl a⟩
  | succ n ih =>
    rcases hn : nextAlloc ctx with _ | ⟨x, as⟩
    · exact allocated_of_refuses (nextAlloc_eq_none.1 hn) h (n + 1)
    · refine .cons hn h (ih _ ?_)
      unfold nextAlloc at hn
      split_ifs at hn
      exact (took_of_allocArenas hn h).shape

/-- A mount with one arena that has two free blocks. -/
def twoFree (readonly : Bool) : GefsCtx :=
  { disk := ⟨0, fun _ => 0⟩
    sb := ⟨16384, 0, 1, zeroTree, 0, 0, 0, 0, []⟩
    cache := gefsCacheInit 1
    snapTree := zeroTree
    activeTree := zeroTree
    arenas := [⟨0, 0, 0, ⟨0, 0, 0⟩, [⟨0, 32768⟩]⟩]
    dirty := false
    readonly := readonly
    heap := fun _ _ => 0
    nblk := 0 }

theorem freeOk_twoFree (readonly : Bool) : FreeOk (freeRanges (twoFree readonly).arenas) :=
  ⟨List.forall_mem_singleton.2 ⟨by decide, by decide, by decide, by decide⟩,
    List.pairwise_singleton _ _⟩

example : (allocs 3 (twoFree false)).1 = [0, 16384, -1] := by decide

theorem allocs_spec_twoFree : FreeOk (freeRanges (twoFree false).arenas)
    ∧ Allocated 3 (twoFree false) :=
  ⟨freeOk_twoFree false, allocs_spec _ (freeOk_twoFree false) 3⟩

/-- On a read-only mount a call fails although there is a free block. -/
theorem not_forall_fails_iff : ¬ ∀ ctx : GefsCtx, FreeOk (freeRanges ctx.arenas) → ∀ n, ∀ i < n,
    ((allocs n ctx).1[i]? = some (-1) ↔ ∀ a ∈ (allocs i ctx).2.arenas, a.freeList = []) := by
  intro h
  have h1 := (h (twoFree true) (freeOk_twoFree true) 1 0 (by omega)).1 (by decide)
  exact absurd (h1 _ (List.mem_singleton.2 rfl)) (List.cons_ne_nil _ _)

end GefsFuse
