import GefsFuse.Server.Blk

/-!
# Which addresses find their arena

The search of `getarena` takes the end of an arena for a part of it, so the first header of an arena
is found only where the halving meets the arena before its left neighbour. It never ends on an
address below the arenas, nor, for what may lie behind the table, on one above them.
-/

namespace GefsFuse.Server

section Getarena

variable {as : List NewArena} {past : Option NewArena} {b : Int64}

theorem Consecutive.next_get (h : Consecutive as) {i : ℕ} (hi : i + 1 < as.length) :
    as[i + 1].h0.toInt = as[i].last :=
  h.next i _ _ (List.getElem?_eq_getElem _) (List.getElem?_eq_getElem hi)

theorem Consecutive.le_last (h : Consecutive as) {a : NewArena} (ha : a ∈ as) :
    a.h0.toInt + 2 * 16384 ≤ a.last := by
  have := h.size a ha
  unfold NewArena.last
  omega

theorem Consecutive.last_le (h : Consecutive as) {i j : ℕ} (hij : i < j) (hj : j < as.length) :
    as[i].last ≤ as[j].h0.toInt := by
  induction j, hij using Nat.le_induction with
  | base => exact (h.next_get hj).ge
  | succ j hij ih =>
    have h1 := ih (by omega)
    have h2 := h.le_last (List.getElem_mem (by omega : j < as.length))
    have h3 := h.next_get hj
    omega

theorem Consecutive.toInt_last (h : Consecutive as) {a : NewArena} (ha : a ∈ as) :
    (a.h0 + a.size + 2 * 16384).toInt = a.last := by
  have h1 := h.size a ha
  have h2 := h.fits a ha
  have h3 := a.h0.le_toInt
  have h4 := a.size.toInt_lt
  unfold NewArena.last at *
  have h5 : (a.h0 + a.size).toInt = a.h0.toInt + a.size.toInt := by
    rw [Int64.toInt_add, Int.bmod_eq_of_le] <;> omega
  have h6 : (2 * 16384 : Int64).toInt = 2 * 16384 := rfl
  rw [Int64.toInt_add, h5, h6, Int.bmod_eq_of_le] <;> omega

/-- A probe of an arena of the table. -/
theorem arenaSearch_probe (h : Consecutive as) {fuel i : ℕ} (hi : i < as.length) {lo hi' : ℤ}
    (hmid : (hi' + lo).tdiv 2 = i) :
    arenaSearch as past b (fuel + 1) lo hi' =
      if b.toInt < as[i].h0.toInt then arenaSearch as past b fuel lo (i - 1)
      else if as[i].last < b.toInt then arenaSearch as past b fuel (i + 1) hi'
      else some (some i) := by
  have hl := h.toInt_last (List.getElem_mem hi)
  rw [arenaSearch]
  simp only [hmid, Int.toNat_natCast, List.getElem?_eq_getElem hi, Option.some_or,
    Int64.lt_iff_toInt_lt, hl]

/-- The end of the search for an address of arena `k`, or at the end of the last. -/
theorem arenaSearch_spec (h : Consecutive as) {k : ℕ} (hk : k < as.length)
    (hlo : as[k].h0.toInt ≤ b.toInt)
    (hhi : b.toInt < as[k].last ∨ k + 1 = as.length ∧ b.toInt = as[k].last) :
    ∀ {fuel : ℕ} {lo hi : ℤ}, 0 ≤ lo → lo ≤ k → k ≤ hi → hi ≤ as.length → hi + 1 - lo ≤ fuel →
      arenaSearch as past b fuel lo hi
        = some (some (if b = as[k].h0 ∧ leftFirst k fuel lo hi then k - 1 else k))
  | 0, lo, hi, _, _, _, _, hf => by omega
  | fuel + 1, lo, hi, h0, h1, h2, h3, hf => by
    obtain ⟨i, hi'⟩ : ∃ i : ℕ, (hi + lo).tdiv 2 = i := by
      rw [Int.tdiv_eq_ediv_of_nonneg (by omega)]
      exact ⟨((hi + lo) / 2).toNat, by omega⟩
    have hbound : lo ≤ i ∧ (i : ℤ) ≤ hi ∧ i < as.length := by
      rw [Int.tdiv_eq_ediv_of_nonneg (by omega)] at hi'
      omega
    rw [arenaSearch_probe h hbound.2.2 hi']
    unfold leftFirst
    simp only [hi', Nat.cast_inj]
    rcases lt_trichotomy i k with hik | rfl | hik
    · have hlast := h.last_le hik hk
      rw [if_neg (by have := h.le_last (List.getElem_mem hbound.2.2); omega),
        if_neg (show ¬ i = k by omega)]
      by_cases heq : b.toInt = as[i].last
      · -- the arena on the left of `k` ends at the address
        have hkey : b = as[k].h0 := Int64.toInt_inj.1 (by omega)
        have hnext : i + 1 = k := by
          by_contra hne
          have h4 := h.last_le (show i < i + 1 by omega) (by omega)
          have h5 := h.le_last (List.getElem_mem (by omega : i + 1 < as.length))
          have h6 := h.last_le (show i + 1 < k by omega) hk
          omega
        have hz : (i : ℤ) + 1 = k := by exact_mod_cast hnext
        rw [if_neg (by omega), if_pos hz, if_pos ⟨hkey, rfl⟩, ← hnext]
        rfl
      · rw [if_pos (by omega), arenaSearch_spec h hk hlo hhi (by omega) (by omega) h2 h3 (by omega)]
        by_cases hkey : b = as[k].h0
        · have hne : ¬ ((i : ℤ) + 1 = k) := by
            intro he
            have he' : i + 1 = k := by exact_mod_cast he
            subst he'
            have := h.next_get hk
            rw [hkey] at heq
            omega
          have hz : (i : ℤ) < k := by exact_mod_cast hik
          rw [if_neg hne, if_pos hz]
        · rw [if_neg (fun hh => hkey hh.1), if_neg fun hh => hkey hh.1]
    · rw [if_neg (by omega), if_neg (by omega), if_pos rfl]
      simp
    · have hlast := h.last_le hik hbound.2.2
      have hlt : b.toInt < as[k].last := by
        rcases hhi with hhi | hhi
        · exact hhi
        · omega
      rw [if_pos (by omega), arenaSearch_spec h hk hlo hhi h0 h1 (by omega) (by omega) (by omega),
        if_neg (show ¬ i = k by omega), if_neg (show ¬ ((i : ℤ) + 1 = k) by omega),
        if_neg (show ¬ ((i : ℤ) < k) by omega)]

theorem leftFirst_zero : ∀ (fuel : ℕ) {hi : ℤ}, 0 ≤ hi → leftFirst 0 fuel 0 hi = false
  | 0, _, _ => rfl
  | fuel + 1, hi, h => by
    have hmid : (hi + 0).tdiv 2 = hi / 2 := by
      rw [Int.tdiv_eq_ediv_of_nonneg (by omega), add_zero]
    unfold leftFirst
    simp only [hmid, Nat.cast_zero]
    rcases eq_or_lt_of_le (show 0 ≤ hi / 2 by omega) with h0 | h0
    · rw [if_pos h0.symm]
    · rw [if_neg (by omega), if_neg (by omega), if_neg (by omega)]
      exact leftFirst_zero fuel (by omega)

theorem arenaSearch_succ : ∀ {fuel : ℕ} {lo hi : ℤ} {r : Option ℕ},
    arenaSearch as past b fuel lo hi = some r → arenaSearch as past b (fuel + 1) lo hi = some r
  | 0, _, _, _, h => by cases h
  | fuel + 1, lo, hi, r, h => by
    rw [arenaSearch] at h ⊢
    dsimp only at h ⊢
    split at h
    · exact h
    · split_ifs at h ⊢
      · exact arenaSearch_succ h
      · exact arenaSearch_succ h
      · exact h

theorem arenaSearch_mono {fuel fuel' : ℕ} (hle : fuel ≤ fuel') {lo hi : ℤ} {r : Option ℕ}
    (h : arenaSearch as past b fuel lo hi = some r) : arenaSearch as past b fuel' lo hi = some r := by
  induction fuel', hle using Nat.le_induction with
  | base => exact h
  | succ fuel' _ ih => exact arenaSearch_succ ih

/-- Below the arenas the search does not end. -/
theorem arenaSearch_below (h : Consecutive as) (hn : 2 ≤ as.length)
    (hb : ∀ a ∈ as, b.toInt < a.h0.toInt) : ∀ {fuel : ℕ} {hi : ℤ}, -1 ≤ hi → hi ≤ as.length →
      arenaSearch as past b fuel 0 hi = none
  | 0, _, _, _ => rfl
  | fuel + 1, hi, h1, h2 => by
    obtain ⟨i, hi', hil⟩ : ∃ i : ℕ, (hi + 0).tdiv 2 = i ∧ i < as.length := by
      rcases eq_or_lt_of_le h1 with rfl | h1
      · exact ⟨0, rfl, by omega⟩
      · rw [Int.tdiv_eq_ediv_of_nonneg (by omega)]
        exact ⟨((hi + 0) / 2).toNat, by omega, by omega⟩
    rw [arenaSearch_probe h hil hi', if_pos (hb _ (List.getElem_mem hil))]
    exact arenaSearch_below h hn hb (by omega) (by omega)

/-- An arena at the lowest address. -/
def lowArena : NewArena := ⟨-9223372036854775808, 0, 0, 0, []⟩

/-- Above them it does not with such an arena behind the table. -/
theorem arenaSearch_above (h : Consecutive as) (hb : ∀ a ∈ as, a.last < b.toInt)
    (hne : as ≠ []) : ∀ {fuel : ℕ} {lo : ℤ}, 0 ≤ lo → lo ≤ as.length + 1 →
      arenaSearch as (some lowArena) b fuel lo as.length = none
  | 0, _, _, _ => rfl
  | fuel + 1, lo, h0, h1 => by
    obtain ⟨i, hi'⟩ : ∃ i : ℕ, (as.length + lo).tdiv 2 = i := by
      rw [Int.tdiv_eq_ediv_of_nonneg (by omega)]
      exact ⟨((as.length + lo) / 2).toNat, by omega⟩
    have hbound : i ≤ as.length := by
      rw [Int.tdiv_eq_ediv_of_nonneg (by omega)] at hi'
      omega
    rcases eq_or_lt_of_le hbound with heq | hlt
    · have hpos := List.length_pos_iff.2 hne
      have hlast := hb _ (List.getElem_mem hpos)
      have hstart := h.le_last (List.getElem_mem hpos)
      have hmin := as[0].h0.le_toInt
      rw [arenaSearch]
      simp only [hi', Int.toNat_natCast, heq, List.getElem?_eq_none le_rfl, Option.none_or,
        Int64.lt_iff_toInt_lt]
      have hlow : lowArena.h0.toInt = -9223372036854775808 := rfl
      have hlow' : (lowArena.h0 + lowArena.size + 2 * 16384).toInt = -9223372036854743040 := rfl
      rw [if_neg (by omega), if_pos (by omega)]
      exact arenaSearch_above h hb hne (by omega) (by omega)
    · have hlast := hb _ (List.getElem_mem hlt)
      have hstart := h.le_last (List.getElem_mem hlt)
      rw [arenaSearch_probe h hlt hi', if_neg (by omega), if_pos hlast]
      exact arenaSearch_above h hb hne (by omega) (by omega)

/-- An address finds its arena exactly where it is that of a superblock outside the arenas, or of
one in the arena that is given for it, or lies from the first arena to the end of the last and is
not the header of an arena that the halving meets after its left neighbour. -/
theorem findsArena_iff (h : Consecutive as) (hn : 2 ≤ as.length) (sb0 sb1 b : Int64) :
    FindsArena as sb0 sb1 b ↔
      if b = sb0 then ∀ k a, as[k]? = some a → a.Spans b → k = 0
      else if b = sb1 then ∀ k a, as[k]? = some a → a.Spans b → k = as.length - 1
      else (∃ a ∈ as, a.h0.toInt ≤ b.toInt ∧ b.toInt ≤ a.last)
        ∧ ∀ k a, as[k]? = some a → b = a.h0 → leftFirst k (as.length + 1) 0 as.length = false := by
  have hconst : ∀ {j : ℕ}, (∀ past fuel, getarena as past sb0 sb1 b fuel = some (some j)) →
      (FindsArena as sb0 sb1 b ↔ ∀ k a, as[k]? = some a → a.Spans b → k = j) := by
    intro j hj
    constructor
    · intro hf k a hk hs
      obtain ⟨fuel, hf⟩ := (hf none).1 k a hk hs
      exact Option.some.inj (Option.some.inj (hf.symm.trans (hj none fuel)))
    · intro hf past
      exact ⟨fun k a hk hs => ⟨0, hf k a hk hs ▸ hj past 0⟩, 0, some j, hj past 0⟩
  split_ifs with h0 h1
  · exact hconst fun past fuel => if_pos h0
  · exact hconst fun past fuel => by rw [getarena, if_neg h0, if_pos h1]
  have hget : ∀ past fuel, getarena as past sb0 sb1 b fuel
      = arenaSearch as past b fuel 0 as.length := fun past fuel => by
    rw [getarena, if_neg h0, if_neg h1]
  have hpos : 0 < as.length := by omega
  constructor
  · intro hf
    constructor
    · -- the search ends, so the address is not below the arenas nor above them
      by_contra hout
      push Not at hout
      by_cases hlow : b.toInt < as[0].h0.toInt
      · obtain ⟨fuel, r, hr⟩ := (hf none).2
        rw [hget, arenaSearch_below h hn ?_ (by omega) le_rfl] at hr
        · cases hr
        · intro a ha
          obtain ⟨i, hi, rfl⟩ := List.getElem_of_mem ha
          rcases Nat.eq_zero_or_pos i with rfl | hi0
          · exact hlow
          · have := h.last_le hi0 hi
            have := h.le_last (List.getElem_mem hpos)
            omega
      · have habove : ∀ i, (hi : i < as.length) → as[i].last < b.toInt := by
          intro i
          induction i with
          | zero => exact fun hi => hout _ (List.getElem_mem hi) (by omega)
          | succ i ih =>
            intro hi
            have h2 := ih (by omega)
            have h3 := h.next_get hi
            exact hout _ (List.getElem_mem hi) (by omega)
        obtain ⟨fuel, r, hr⟩ := (hf (some lowArena)).2
        rw [hget, arenaSearch_above h ?_ (List.length_pos_iff.1 hpos) le_rfl (by omega)] at hr
        · cases hr
        · intro a ha
          obtain ⟨i, hi, rfl⟩ := List.getElem_of_mem ha
          exact habove i hi
    · intro k a hk hb
      obtain ⟨hk', rfl⟩ := List.getElem?_eq_some_iff.1 hk
      have hs : as[k].Spans b := by
        have := h.le_last (List.getElem_mem hk')
        exact ⟨by rw [hb], by rw [hb]; omega⟩
      obtain ⟨fuel, hfuel⟩ := (hf none).1 k _ hk hs
      have hend : arenaSearch as none b (as.length + 1) 0 as.length = _ :=
        arenaSearch_spec h hk' hs.1 (.inl hs.2) le_rfl (by omega)
          (by omega : (k : ℤ) ≤ as.length) le_rfl (by omega)
      have h2 := arenaSearch_mono (le_max_left fuel (as.length + 1)) ((hget _ _).symm.trans hfuel)
      have h3 := arenaSearch_mono (le_max_right fuel (as.length + 1)) hend
      rw [h2] at h3
      by_contra hleft
      rw [if_pos ⟨hb, by simpa using hleft⟩] at h3
      have hk0 : k ≠ 0 := by
        rintro rfl
        exact hleft (leftFirst_zero _ (by omega))
      have := Option.some.inj (Option.some.inj h3)
      omega
  · rintro ⟨⟨a, ha, hlo, hhi⟩, hleft⟩ past
    have hin : ∀ k a, as[k]? = some a → a.Spans b →
        getarena as past sb0 sb1 b (as.length + 1) = some (some k) := by
      intro k a hk hs
      obtain ⟨hk', rfl⟩ := List.getElem?_eq_some_iff.1 hk
      rw [hget, arenaSearch_spec h hk' hs.1 (.inl hs.2) le_rfl (by omega)
        (by omega : (k : ℤ) ≤ as.length) le_rfl (by omega), if_neg]
      rintro ⟨hb, hl⟩
      rw [hleft k _ hk hb] at hl
      cases hl
    refine ⟨fun k a hk hs => ⟨_, hin k a hk hs⟩, ?_⟩
    obtain ⟨k, hk, rfl⟩ := List.getElem_of_mem ha
    rcases lt_or_eq_of_le hhi with hlt | heq
    · exact ⟨_, _, hin k _ (List.getElem?_eq_getElem hk) ⟨hlo, hlt⟩⟩
    · by_cases hk1 : k + 1 = as.length
      · exact ⟨_, _, (hget _ _).trans (arenaSearch_spec h hk hlo (.inr ⟨hk1, heq⟩) le_rfl (by omega)
          (by omega : (k : ℤ) ≤ as.length) le_rfl (by omega : _ ≤ ((as.length + 1 : ℕ) : ℤ)))⟩
      · have hk2 : k + 1 < as.length := by omega
        have hnext := h.next_get hk2
        have hle := h.le_last (List.getElem_mem hk2)
        exact ⟨_, _, hin (k + 1) _ (List.getElem?_eq_getElem hk2) ⟨by omega, by omega⟩⟩

/-- Three arenas behind the first superblock. -/
def threeArenas : List NewArena := initarenas 65536 16384 3

theorem consecutive_threeArenas : Consecutive threeArenas := by
  refine ⟨by decide, by decide, fun i a a' ha ha' => ?_⟩
  rcases i with _ | _ | _ | i
  · cases ha
    cases ha'
    decide
  · cases ha
    cases ha'
    decide
  · cases ha'
  · cases ha

/-- An address inside the last of them. -/
theorem findsArena_third : FindsArena threeArenas 0 311296 245760 := by
  refine (findsArena_iff consecutive_threeArenas (by decide) 0 311296 245760).2 ?_
  rw [if_neg (by decide), if_neg (by decide)]
  refine ⟨by decide, fun k a hk hb => ?_⟩
  have hmem := List.mem_of_getElem? hk
  have hne : ∀ a ∈ threeArenas, (245760 : Int64) ≠ a.h0 := by decide
  exact absurd hb (hne a hmem)

/-- The first header of the third is taken for a part of the second. -/
theorem not_forall_findsArena : ¬ ∀ (as : List NewArena) (sb0 sb1 b : Int64), Consecutive as →
    2 ≤ as.length → FindsArena as sb0 sb1 b := by
  intro h
  obtain ⟨fuel, hf⟩ := (h threeArenas 0 311296 212992 consecutive_threeArenas (by decide) none).1 2 _
    rfl ⟨by decide, by decide⟩
  have hget : ∀ fuel, getarena threeArenas none 0 311296 212992 (fuel + 1) = some (some 1) :=
    fun fuel => rfl
  cases fuel with
  | zero => cases hf
  | succ fuel =>
    have := Option.some.inj (Option.some.inj ((hget fuel).symm.trans hf))
    omega

end Getarena

/-! ## The read of a block -/

section Readblk

open ByteMem

variable {disk : ℤ → UInt8} {reads : ℕ → ℤ}

/-- The buffer after the loop, from the lengths of the pieces. -/
theorem readLoop_eq (addr : ℤ) : ∀ {fuel i start rem : ℕ} {buf : Mem},
    readLoop disk reads fuel i (addr + start) rem buf = (pieces reads fuel i rem).map fun ns j =>
      (origin j start ns).elim (buf j) fun o => disk (addr + o)
  | 0, i, start, rem, buf => by
    unfold readLoop pieces
    split_ifs <;> rfl
  | fuel + 1, i, start, rem, buf => by
    unfold readLoop pieces
    dsimp only
    split_ifs with h0 hn
    · rfl
    · rfl
    · rw [add_assoc, ← Nat.cast_add, readLoop_eq addr, Option.map_map]
      congr 1
      funext ns
      funext j
      simp only [Function.comp_apply, origin]
      rcases origin j (start + (min (reads i) rem).toNat) ns with _ | o
      · simp only [Option.elim_none, Option.none_or, store, Nat.zero_le, if_true, Nat.sub_zero]
        split_ifs with hj
        · simp [List.getElem?_range hj, add_assoc]
        · rw [List.getElem?_eq_none
            (by rw [List.length_map, List.length_range]; exact not_lt.1 hj)]
          rfl
      · rfl

/-- The places a piece fills are in the block. -/
theorem origin_of_ge : ∀ {fuel i rem start : ℕ} {ns : List ℕ} {j : ℕ},
    pieces reads fuel i rem = some ns → rem ≤ j → origin j start ns = none
  | 0, i, rem, start, ns, j, h, hj => by
    unfold pieces at h
    split_ifs at h
    obtain rfl := Option.some.inj h
    rfl
  | fuel + 1, i, rem, start, ns, j, h, hj => by
    unfold pieces at h
    dsimp only at h
    split_ifs at h with h0 hn
    · obtain rfl := Option.some.inj h
      rfl
    · obtain ⟨ns', h', rfl⟩ := Option.map_eq_some_iff.1 h
      rw [origin, origin_of_ge h' (by omega), if_neg (by omega)]
      rfl

/-- One read that gets the whole block. -/
theorem pieces_full {fuel i rem : ℕ} (h0 : 0 < rem) (h : (rem : ℤ) ≤ reads i) :
    pieces reads (fuel + 1) i rem = some [rem] := by
  have hmin : (min (reads i) rem).toNat = rem := by omega
  have hnil : pieces reads fuel (i + 1) 0 = some [] := by
    cases fuel <;> exact if_pos rfl
  unfold pieces
  rw [if_neg h0.ne']
  simp only [hmin, h0.ne', if_false, Nat.sub_self, hnil, Option.map_some]

/-- The check of the hash never runs. -/
theorem no_check (flg : UInt32) : (if flg = 0 then 1 else 0) &&& gbnochk = 0 := by
  split_ifs <;> decide

theorem readblkFrom_eq_read {buf m : Mem} {bp : GefsBptr} {flg : UInt32} {b : Blk} :
    readblkFrom disk reads buf bp flg = .read b m ↔
      ∃ ns, pieces reads gefsBlksz 0 gefsBlksz = some ns
        ∧ m = assembled disk buf bp.addr.toInt ns ∧ decodeblk flg m = some b := by
  have hloop : readLoop disk reads gefsBlksz 0 bp.addr.toInt gefsBlksz buf
      = (pieces reads gefsBlksz 0 gefsBlksz).map (assembled disk buf bp.addr.toInt) := by
    have h := @readLoop_eq disk reads bp.addr.toInt gefsBlksz 0 0 gefsBlksz buf
    rwa [Nat.cast_zero, add_zero] at h
  unfold readblkFrom
  rw [hloop]
  rcases pieces reads gefsBlksz 0 gefsBlksz with _ | ns
  · simp
  · simp only [Option.map_some, no_check, ne_eq, not_true, false_and, if_false,
      Option.some.injEq, exists_eq_left']
    rcases hd : decodeblk flg (assembled disk buf bp.addr.toInt ns) with _ | c
    · simp only [reduceCtorEq, false_iff]
      rintro ⟨rfl, h⟩
      rw [hd] at h
      cases h
    · simp only [ReadEnd.read.injEq]
      constructor
      · rintro ⟨rfl, rfl⟩
        exact ⟨rfl, hd⟩
      · rintro ⟨rfl, h⟩
        exact ⟨Option.some.inj (hd.symm.trans h), rfl⟩

/-- A read detects every fault exactly where it fails, or leaves what is no block, or its pieces put
at every place what is stored there and that has its hash. -/
theorem detects_iff (buf : Mem) (bp : GefsBptr) (flg : UInt32) :
    Detects disk reads buf bp flg ↔
      (flg &&& gbnochk = 0 → ∀ ns, pieces reads gefsBlksz 0 gefsBlksz = some ns →
        (decodeblk flg (assembled disk buf bp.addr.toInt ns)).isSome →
        (∀ i < gefsBlksz, assembled disk buf bp.addr.toInt ns i = disk (bp.addr.toInt + i))
          ∧ ∀ b ∈ decodeblk flg (stored disk buf bp.addr),
            (hashes bp b (stored disk buf bp.addr)).1
              = (hashes bp b (stored disk buf bp.addr)).2) := by
  have hsame : ∀ ns, pieces reads gefsBlksz 0 gefsBlksz = some ns →
      (∀ i < gefsBlksz, assembled disk buf bp.addr.toInt ns i = disk (bp.addr.toInt + i)) →
      assembled disk buf bp.addr.toInt ns = stored disk buf bp.addr := by
    intro ns hns h
    funext i
    unfold stored
    split_ifs with hi
    · exact h i hi
    · rw [assembled, origin_of_ge hns (not_lt.1 hi)]
      rfl
  refine forall_congr' fun _ => ⟨fun h ns hns hd => ?_, fun h b m hm => ?_⟩
  · obtain ⟨b, hb⟩ := Option.isSome_iff_exists.1 hd
    obtain ⟨hm, hh⟩ := h b _ (readblkFrom_eq_read.2 ⟨ns, hns, rfl, hb⟩)
    refine ⟨fun i hi => ?_, fun c hc => ?_⟩
    · rw [hm, stored, if_pos hi]
    · rw [← hm, hb] at hc
      obtain rfl := Option.some.inj hc
      rwa [← hm]
  · obtain ⟨ns, hns, rfl, hb⟩ := readblkFrom_eq_read.1 hm
    obtain ⟨hbytes, hh⟩ := h ns hns (by rw [hb]; rfl)
    have hm := hsame ns hns hbytes
    exact ⟨hm, hm ▸ hh b (hm ▸ hb)⟩

/-- A block of zeros is read with any hash in its pointer. -/
theorem not_forall_detects : ¬ ∀ (disk : ℤ → UInt8) (reads : ℕ → ℤ) (buf : Mem) (bp : GefsBptr)
    (flg : UInt32), Detects disk reads buf bp flg := by
  intro h
  have hread : ∀ hash, bufhash (fun _ => 0) 0 gefsBlksz = hash := by
    intro hash
    have hp : pieces (fun _ => 16384) gefsBlksz 0 gefsBlksz = some [16384] :=
      pieces_full (by decide) le_rfl
    have hm : assembled (fun _ => 0) (fun _ => 0) 0 [16384] = fun _ => 0 := by
      funext i
      unfold assembled
      cases origin i 0 [16384] <;> rfl
    have hb : decodeblk 0 (fun _ => 0) = some ⟨tdat, 0, 0, ⟨0, 0, 0⟩⟩ := by
      have h0 : unpack16 (fun _ => 0) 0 = tdat := by decide
      unfold decodeblk readblk
      rw [if_neg (by decide)]
      simp only [h0, true_or, if_true]
    obtain ⟨-, hh⟩ := h (fun _ => 0) (fun _ => 16384) (fun _ => 0) ⟨0, hash, 0⟩ 0 rfl _ _
      (readblkFrom_eq_read.2 ⟨_, hp, hm.symm, hb⟩)
    have hhash : hashes ⟨0, hash, 0⟩ ⟨tdat, 0, 0, ⟨0, 0, 0⟩⟩ (fun _ => 0)
        = (hash, bufhash (fun _ => 0) 0 gefsBlksz) := if_neg (by decide)
    rw [hhash] at hh
    exact hh.symm
  have := (hread 0).symm.trans (hread 1)
  exact absurd this (by decide)

end Readblk

end GefsFuse.Server
