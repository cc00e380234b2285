import GefsFuse.Lib.Mem

/-!
# Binary search for the leftmost match

`bsearch cmp lo hi ri` halves `[lo, hi]` by the sign of `cmp`, the probe against the element,
keeping in `ri` the last match seen and going on to its left. It ends with the match, if one was
seen, and with the first index past what is below the probe.
-/

namespace BinSearch

/-- The match and the lower end when the interval is empty. -/
def bsearch (cmp : ℕ → ℤ) (lo hi ri : ℤ) : ℤ × ℤ :=
  if lo ≤ hi then
    let mid := (hi + lo) / 2
    if cmp mid.toNat = -1 then bsearch cmp lo (mid - 1) ri
    else if cmp mid.toNat = 0 then bsearch cmp lo (mid - 1) mid
    else bsearch cmp (mid + 1) hi ri
  else (ri, lo)
  termination_by (hi + 1 - lo).toNat
  decreasing_by all_goals omega

/-- Signs along an ascending list: 1 below the probe, then 0 at it, then -1 above. -/
structure Signs (cmp : ℕ → ℤ) (n : ℕ) : Prop where
  range : ∀ i < n, cmp i = -1 ∨ cmp i = 0 ∨ cmp i = 1
  anti : ∀ i j, i ≤ j → j < n → cmp j ≤ cmp i

/-- Every index below `lo` is below the probe and every one above `hi` is not, and `ri` is the
first index above `hi` if that matches, and -1 otherwise. -/
structure Bracket (cmp : ℕ → ℤ) (n : ℕ) (lo hi ri : ℤ) : Prop where
  lo_nonneg : 0 ≤ lo
  hi_lt : hi < n
  lo_le : lo ≤ hi + 1
  below : ∀ i : ℕ, (i : ℤ) < lo → cmp i = 1
  above : ∀ i : ℕ, hi < i → i < n → cmp i ≤ 0
  found : ri ≠ -1 → ri = hi + 1 ∧ hi + 1 < n ∧ cmp (hi + 1).toNat = 0
  missed : ri = -1 → ∀ i : ℕ, hi < i → i < n → cmp i = -1

/-- The search ends at the first index `p` that is not below the probe, matched or not. -/
theorem bsearch_spec {cmp : ℕ → ℤ} {n : ℕ} (hs : Signs cmp n) {lo hi ri : ℤ}
    (hb : Bracket cmp n lo hi ri) :
    ∃ p : ℕ, p ≤ n ∧ (∀ i < p, cmp i = 1) ∧ (∀ i, p ≤ i → i < n → cmp i ≤ 0)
      ∧ (bsearch cmp lo hi ri).2 = p
      ∧ ((p < n ∧ cmp p = 0 ∧ (bsearch cmp lo hi ri).1 = p)
        ∨ ((∀ i, p ≤ i → i < n → cmp i = -1) ∧ (bsearch cmp lo hi ri).1 = -1)) := by
  fun_induction bsearch cmp lo hi ri with
  | case1 lo hi ri hle mid hc ih =>
    have hm0 : 0 ≤ mid := by have := hb.lo_nonneg; omega
    have hmn : mid.toNat < n := by have := hb.hi_lt; omega
    have hab : ∀ i : ℕ, mid - 1 < i → i < n → cmp i = -1 := by
      intro i hi1 hi2
      have h1 := hs.anti mid.toNat i (by omega) hi2
      rcases hs.range i hi2 with h | h | h <;> omega
    refine ih ⟨hb.lo_nonneg, by omega, by omega, hb.below, fun i h1 h2 => ?_, fun h => ?_,
      fun _ => hab⟩
    · rw [hab i h1 h2]
      omega
    · obtain ⟨h1, h2, h3⟩ := hb.found h
      have := hab (hi + 1).toNat (by omega) (by omega)
      omega
  | case2 lo hi ri hle mid hc hc0 ih =>
    have hm0 : 0 ≤ mid := by have := hb.lo_nonneg; omega
    have hmn : mid.toNat < n := by have := hb.hi_lt; omega
    refine ih ⟨hb.lo_nonneg, by omega, by omega, hb.below, fun i h1 h2 => ?_, fun _ => ?_,
      fun h => by omega⟩
    · have := hs.anti mid.toNat i (by omega) h2
      omega
    · refine ⟨by omega, by omega, ?_⟩
      rwa [show mid - 1 + 1 = mid by omega]
  | case3 lo hi ri hle mid hc hc0 ih =>
    have hm0 : 0 ≤ mid := by have := hb.lo_nonneg; omega
    have hmn : mid.toNat < n := by have := hb.hi_lt; omega
    have hc1 : cmp mid.toNat = 1 := by rcases hs.range _ hmn with h | h | h <;> omega
    refine ih ⟨by omega, hb.hi_lt, by omega, fun i h => ?_, hb.above, hb.found, hb.missed⟩
    have h1 := hs.anti i mid.toNat (by omega) hmn
    rcases hs.range i (by omega) with h | h | h <;> omega
  | case4 lo hi ri hle =>
    have h0 := hb.lo_nonneg
    have hlo : lo = hi + 1 := by have := hb.lo_le; omega
    refine ⟨lo.toNat, by have := hb.hi_lt; omega, fun i h => hb.below i (by omega),
      fun i h1 h2 => hb.above i (by omega) h2, by omega, ?_⟩
    by_cases hr : ri = -1
    · exact .inr ⟨fun i h1 h2 => hb.missed hr i (by omega) h2, hr⟩
    · obtain ⟨h1, h2, h3⟩ := hb.found hr
      refine .inl ⟨by omega, ?_, by omega⟩
      rwa [hlo]

/-- The whole list. -/
theorem bracket_init (cmp : ℕ → ℤ) (n : ℕ) : Bracket cmp n 0 (n - 1) (-1) where
  lo_nonneg := le_rfl
  hi_lt := by omega
  lo_le := by omega
  below := fun i h => by omega
  above := fun i h1 h2 => by omega
  found := fun h => absurd rfl h
  missed := fun _ i h1 h2 => by omega

/-- The loop itself, given up after `fuel` turns: a sign that is none of the three changes
nothing. -/
def loop (cmp : ℕ → ℤ) : ℕ → ℤ → ℤ → ℤ → Option (ℤ × ℤ)
  | 0, _, _, _ => none
  | fuel + 1, lo, hi, ri =>
    if lo ≤ hi then
      let mid := (hi + lo) / 2
      if cmp mid.toNat = -1 then loop cmp fuel lo (mid - 1) ri
      else if cmp mid.toNat = 0 then loop cmp fuel lo (mid - 1) mid
      else if cmp mid.toNat = 1 then loop cmp fuel (mid + 1) hi ri
      else loop cmp fuel lo hi ri
    else some (ri, lo)

/-- The loop ends whatever the signs are, with what the search ends with. -/
theorem loop_eq_bsearch {cmp : ℕ → ℤ} (hc : ∀ i, cmp i = -1 ∨ cmp i = 0 ∨ cmp i = 1)
    {fuel : ℕ} {lo hi ri : ℤ} (hf : hi + 1 - lo < fuel) :
    0 < fuel → loop cmp fuel lo hi ri = some (bsearch cmp lo hi ri) := by
  intro hpos
  obtain ⟨fuel, rfl⟩ := Nat.exists_eq_succ_of_ne_zero hpos.ne'
  rw [loop, bsearch]
  by_cases hle : lo ≤ hi
  · have hfuel : 0 < fuel := by omega
    simp only [if_pos hle]
    rcases hc ((hi + lo) / 2).toNat with h | h | h
    · rw [if_pos h, if_pos h]
      exact loop_eq_bsearch hc (by omega) hfuel
    · have hne : ¬ cmp ((hi + lo) / 2).toNat = -1 := by omega
      rw [if_neg hne, if_pos h, if_neg hne, if_pos h]
      exact loop_eq_bsearch hc (by omega) hfuel
    · have hne : ¬ cmp ((hi + lo) / 2).toNat = -1 := by omega
      have hne0 : ¬ cmp ((hi + lo) / 2).toNat = 0 := by omega
      rw [if_neg hne, if_neg hne0, if_pos h, if_neg hne, if_neg hne0]
      exact loop_eq_bsearch hc (by omega) hfuel
  · rw [if_neg hle, if_neg hle]
termination_by fuel

end BinSearch
