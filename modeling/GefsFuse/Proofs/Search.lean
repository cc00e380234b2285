import GefsFuse.Tree
import GefsFuse.Proofs.Format

/-!
# The searches of a block

`blksearch` and `bufsearch` end at the first key not below the probe, of entries and of messages
whose keys do not descend.
-/

namespace GefsFuse

open ByteMem BinSearch

/-- From `lo` on and below `hi`, where they are given. -/
def InRange (lo hi : Option Bytes) (k : Bytes) : Prop :=
  (∀ l, lo = some l → l ≤ k) ∧ ∀ h, hi = some h → k < h

section Keys

variable {key : ℕ → Bytes} {n : ℕ} (hs : ∀ i j, i ≤ j → j < n → key i ≤ key j) (k : Bytes)

include hs

theorem signs_of_keys : Signs (fun i => gefsKeycmp k (key i)) n := by
  refine ⟨fun i hi => ?_, fun i j hij hj => ?_⟩
  · simp only [gefsKeycmp_eq]
    split_ifs <;> simp
  · have hle := hs i j hij hj
    simp only [gefsKeycmp_eq]
    by_cases h1 : k < key j
    · rw [if_pos h1]
      split_ifs <;> simp
    · have h2 : ¬ k < key i := fun h2 => h1 (h2.trans_le hle)
      rw [if_neg h1, if_neg h2]
      by_cases h3 : k = key i
      · have h4 : k = key j := le_antisymm (by rwa [h3]) (not_lt.1 h1)
        rw [if_pos h3, if_pos h4]
      · rw [if_neg h3]
        split_ifs <;> simp

theorem bsearch_keys :
    ∃ p ≤ n, (∀ i < n, i < p ↔ key i < k)
      ∧ (bsearch (fun i => gefsKeycmp k (key i)) 0 (n - 1) (-1)).2 = p
      ∧ ((p < n ∧ key p = k ∧ (bsearch (fun i => gefsKeycmp k (key i)) 0 (n - 1) (-1)).1 = p)
        ∨ ((∀ i < n, key i ≠ k)
          ∧ (bsearch (fun i => gefsKeycmp k (key i)) 0 (n - 1) (-1)).1 = -1)) := by
  obtain ⟨p, hp, hlo, hhi, h2, h1⟩ := bsearch_spec (signs_of_keys hs k) (bracket_init _ n)
  refine ⟨p, hp, fun i hi => ⟨fun hip => gefsKeycmp_eq_one.1 (hlo i hip), fun hik => ?_⟩, h2, ?_⟩
  · by_contra hge
    have h := hhi i (by omega) hi
    rw [gefsKeycmp_eq_one.2 hik] at h
    omega
  · rcases h1 with ⟨hpl, h0, h1⟩ | ⟨hall, h1⟩
    · exact .inl ⟨hpl, (gefsKeycmp_eq_zero.1 h0).symm, h1⟩
    · refine .inr ⟨fun i hi he => ?_, h1⟩
      have h0 : gefsKeycmp k (key i) = 0 := gefsKeycmp_eq_zero.2 he.symm
      rcases Nat.lt_or_ge i p with h | h
      · have := hlo i h
        omega
      · have := hall i h hi
        omega

end Keys

section Block

variable {c : Content} {n : ℕ}

/-- What the search of the entries answers, `p` the first key not below `k`. -/
theorem blksearch_spec (hn : c.nval = n)
    (hs : ∀ i j, i ≤ j → j < n → (gefsGetval c i).1 ≤ (gefsGetval c j).1) (k : Bytes) :
    ∃ p ≤ n, (∀ i < n, i < p ↔ (gefsGetval c i).1 < k)
      ∧ ((p < n ∧ (gefsGetval c p).1 = k
          ∧ blksearch c k = ((p : ℤ), true, some (gefsGetval c p)))
        ∨ ((∀ i < n, (gefsGetval c i).1 ≠ k)
          ∧ blksearch c k
            = ((p : ℤ) - 1, false, if 0 < p then some (gefsGetval c (p - 1)) else none))) := by
  obtain ⟨p, hp, hlt, h2, h1⟩ := bsearch_keys hs k
  refine ⟨p, hp, hlt, ?_⟩
  unfold blksearch
  rw [hn]
  rcases h1 with ⟨hpl, hk, h1⟩ | ⟨hall, h1⟩
  · have hne : ((p : ℤ) = -1) = False := by simp only [eq_iff_iff, iff_false]; omega
    refine .inl ⟨hpl, hk, ?_⟩
    simp only [h1, hne, if_false, Int.natCast_nonneg, if_true, Int.toNat_natCast, ne_eq,
      not_false_eq_true, decide_true]
  · refine .inr ⟨hall, ?_⟩
    simp only [h1, h2, if_true, ne_eq, not_true_eq_false, decide_false]
    rcases Nat.eq_zero_or_pos p with rfl | h
    · simp
    · rw [if_pos h, if_pos (by omega), show ((p : ℤ) - 1).toNat = p - 1 by omega]

/-- What the search of the messages answers, `p` the first key not below `k`. -/
theorem bufsearch_spec (hn : c.nbuf = n)
    (hs : ∀ i j, i ≤ j → j < n → (gefsGetmsg c i).k ≤ (gefsGetmsg c j).k) (k : Bytes) :
    ∃ p ≤ n, (∀ i < n, i < p ↔ (gefsGetmsg c i).k < k)
      ∧ ((p < n ∧ (gefsGetmsg c p).k = k
          ∧ bufsearch c k = ((p : ℤ), true, some (gefsGetmsg c p)))
        ∨ ((∀ i < n, (gefsGetmsg c i).k ≠ k)
          ∧ bufsearch c k
            = ((p : ℤ) - 1, false, if 0 < p then some (gefsGetmsg c (p - 1)) else none))) := by
  obtain ⟨p, hp, hlt, h2, h1⟩ := bsearch_keys hs k
  refine ⟨p, hp, hlt, ?_⟩
  unfold bufsearch
  rw [hn]
  rcases h1 with ⟨hpl, hk, h1⟩ | ⟨hall, h1⟩
  · have hne : ((p : ℤ) = -1) = False := by simp only [eq_iff_iff, iff_false]; omega
    refine .inl ⟨hpl, hk, ?_⟩
    simp only [h1, hne, if_false, Int.natCast_nonneg, if_true, Int.toNat_natCast, ne_eq,
      not_false_eq_true, decide_true]
  · refine .inr ⟨hall, ?_⟩
    simp only [h1, h2, if_true, ne_eq, not_true_eq_false, decide_false]
    rcases Nat.eq_zero_or_pos p with rfl | h
    · simp
    · rw [if_pos h, if_pos (by omega), show ((p : ℤ) - 1).toNat = p - 1 by omega]

/-- A predecessor search over `n` ascending keys: the last index whose key is not above `k`, or -1,
and whether that key is `k`. -/
structure FindsLast (key : ℕ → Bytes) (n : ℕ) (k : Bytes) (ri : ℤ) (same : Bool) : Prop where
  ge : -1 ≤ ri
  lt : ri < n
  le_iff : ∀ i < n, (i : ℤ) ≤ ri ↔ key i ≤ k
  same_iff : same = true ↔ 0 ≤ ri ∧ key ri.toNat = k

/-- A leftmost search: the first index of the run on `k`, and where there is none, the last index
whose key is below `k`, or -1. -/
structure FindsFirst (key : ℕ → Bytes) (n : ℕ) (k : Bytes) (ri : ℤ) (same : Bool) : Prop where
  ge : -1 ≤ ri
  lt : ri < n
  same_iff : same = true ↔ ∃ i < n, key i = k
  first : same = true → 0 ≤ ri ∧ key ri.toNat = k ∧ ∀ i < n, (i : ℤ) < ri ↔ key i < k
  absent : same = false → ∀ i < n, (i : ℤ) ≤ ri ↔ key i < k

theorem blksearch_findsLast (hn : c.nval = n)
    (hs : ∀ i j, i < j → j < n → (gefsGetval c i).1 < (gefsGetval c j).1) (k : Bytes) :
    FindsLast (fun i => (gefsGetval c i).1) n k (blksearch c k).1 (blksearch c k).2.1 := by
  have hle : ∀ i j, i ≤ j → j < n → (gefsGetval c i).1 ≤ (gefsGetval c j).1 := by
    intro i j hij hj
    rcases hij.lt_or_eq with h | rfl
    · exact (hs i j h hj).le
    · exact le_rfl
  obtain ⟨p, hp, hlt, ⟨hpl, hk, h⟩ | ⟨hne, h⟩⟩ := blksearch_spec hn hle k
  · rw [h]
    refine ⟨by omega, by simpa using hpl, fun i hi => ⟨fun hip => ?_, fun hik => ?_⟩, ?_⟩
    · rw [← hk]
      exact hle i p (by simpa using hip) hpl
    · by_contra hgt
      have hgt' := hs p i (by simpa using hgt) hi
      rw [hk] at hgt'
      exact absurd hik (not_le.2 hgt')
    · simpa using hk
  · rw [h]
    have hiff : ∀ i < n, (i : ℤ) ≤ (p : ℤ) - 1 ↔ (gefsGetval c i).1 ≤ k := by
      intro i hi
      have h1 : (i : ℤ) ≤ (p : ℤ) - 1 ↔ i < p := by omega
      rw [h1, hlt i hi]
      exact ⟨le_of_lt, fun h => lt_of_le_of_ne h (hne i hi)⟩
    refine ⟨by simp only; omega, by simp only; omega, hiff,
      ⟨fun h => absurd h (by simp), fun ⟨h0, he⟩ => ?_⟩⟩
    exact absurd he (hne _ (by simp only at h0 ⊢; omega))

theorem bufsearch_findsFirst (hn : c.nbuf = n)
    (hs : ∀ i j, i ≤ j → j < n → (gefsGetmsg c i).k ≤ (gefsGetmsg c j).k) (k : Bytes) :
    FindsFirst (fun i => (gefsGetmsg c i).k) n k (bufsearch c k).1 (bufsearch c k).2.1 := by
  obtain ⟨p, hp, hlt, ⟨hpl, hk, h⟩ | ⟨hne, h⟩⟩ := bufsearch_spec hn hs k
  · rw [h]
    refine ⟨by omega, by simpa using hpl, ?_, fun _ => ⟨by simp, by simpa using hk, fun i hi => ?_⟩,
      fun h => absurd h (by simp)⟩
    · exact ⟨fun _ => ⟨p, hpl, hk⟩, fun _ => rfl⟩
    · rw [← hlt i hi]
      simp
  · rw [h]
    refine ⟨by simp only; omega, by simp only; omega, ⟨fun h => absurd h (by simp), fun ⟨i, hi, he⟩ =>
      absurd he (hne i hi)⟩, fun h => absurd h (by simp), fun _ i hi => ?_⟩
    rw [← hlt i hi]
    simp only
    omega

theorem gefsKeycmp_range (a b : Bytes) :
    gefsKeycmp a b = -1 ∨ gefsKeycmp a b = 0 ∨ gefsKeycmp a b = 1 := by
  rw [gefsKeycmp_eq]
  split_ifs <;> simp

/-- The searches of a block find what they are after, in the order of the keys as bytes, and their
loops end on any block. -/
theorem search_finds {n m : ℕ} (hn : c.nval = n) (hm : c.nbuf = m)
    (hv : ∀ i j, i < j → j < n → (gefsGetval c i).1 < (gefsGetval c j).1)
    (hb : ∀ i j, i ≤ j → j < m → (gefsGetmsg c i).k ≤ (gefsGetmsg c j).k) (k : Bytes) :
    FindsLast (fun i => (gefsGetval c i).1) n k (blksearch c k).1 (blksearch c k).2.1
      ∧ FindsFirst (fun i => (gefsGetmsg c i).k) m k (bufsearch c k).1 (bufsearch c k).2.1
      ∧ (∀ a b : Bytes, gefsKeycmp a b = if a < b then -1 else if a = b then 0 else 1)
      ∧ ∀ b : Content,
        (∃ fuel, loop (fun i => gefsKeycmp k (gefsGetval b i).1) fuel 0 (b.nval - 1) (-1)
          = some (bsearch (fun i => gefsKeycmp k (gefsGetval b i).1) 0 (b.nval - 1) (-1)))
        ∧ ∃ fuel, loop (fun i => gefsKeycmp k (gefsGetmsg b i).k) fuel 0 (b.nbuf - 1) (-1)
          = some (bsearch (fun i => gefsKeycmp k (gefsGetmsg b i).k) 0 (b.nbuf - 1) (-1)) :=
  ⟨blksearch_findsLast hn hv k, bufsearch_findsFirst hm hb k, gefsKeycmp_eq, fun b =>
    ⟨⟨b.nval.toNat + 1, loop_eq_bsearch (fun _ => gefsKeycmp_range _ _) (by omega) (by omega)⟩,
      b.nbuf.toNat + 1, loop_eq_bsearch (fun _ => gefsKeycmp_range _ _) (by omega) (by omega)⟩⟩

/-- A pivot with the keys 1 and 2, and with two messages on 1. -/
def twoKeys : Content :=
  { type := gefsTpivot, nval := 2, valsz := 10, nbuf := 2, bufsz := 12, logsz := 0, data := 0
    buf := store (store (fun _ => 0)
        0 ([0, 8, 0, 16, 0, 0, 0, 0] ++ [0, 1, 1, 0, 0, 0, 0, 0] ++ [0, 1, 2, 0, 0]))
        gefsPivspc ([0, 8, 0, 16, 0, 0, 0, 0] ++ [1, 0, 1, 1, 0, 0, 0, 0] ++ [1, 0, 1, 1, 0, 0]) }

theorem search_finds_twoKeys :
    FindsLast (fun i => (gefsGetval twoKeys i).1) 2 [1]
        (blksearch twoKeys [1]).1 (blksearch twoKeys [1]).2.1
      ∧ FindsFirst (fun i => (gefsGetmsg twoKeys i).k) 2 [1]
        (bufsearch twoKeys [1]).1 (bufsearch twoKeys [1]).2.1 := by
  have hv : ∀ j < 2, ∀ i < j, (gefsGetval twoKeys i).1 < (gefsGetval twoKeys j).1 := by
    decide +kernel
  have hb : ∀ j < 2, ∀ i < j + 1, (gefsGetmsg twoKeys i).k ≤ (gefsGetmsg twoKeys j).k := by
    decide +kernel
  have h := search_finds (show twoKeys.nval = (2 : ℕ) from rfl)
    (show twoKeys.nbuf = (2 : ℕ) from rfl) (fun i j hij hj => hv j hj i hij)
    (fun i j hij hj => hb j hj i (by omega)) [1]
  exact ⟨h.1, h.2.1⟩

end Block

end GefsFuse
