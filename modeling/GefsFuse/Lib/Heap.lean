import Mathlib.Data.Multiset.Range
import Mathlib.Data.Multiset.MapFold
import Mathlib.Order.Defs.LinearOrder
import Mathlib.Logic.Equiv.Basic

/-!
# Binary heaps

The first `n` elements of an array as a binary heap: the children of `p` are at `2 * p + 1` and
`2 * p + 2`, and no element is greater than its children. `siftUp` puts an element in by moving a
hole towards the root, `siftDown` moves the element at `i` down by exchanges with the least of it
and its children. Both compare by a test `gt` of two elements, which the rules take to be the order
of the keys (`hgt`); equal keys need not be equal elements.
-/

namespace Heap

open Function

variable {α : Type*} (gt : α → α → Bool)

/-- `x` put in at the hole `i` or above it. -/
def siftUp (x : α) (h : ℕ → α) (i : ℕ) : ℕ → α :=
  if i = 0 then update h i x
  else if gt x (h ((i - 1) / 2)) then update h i x
  else siftUp x (update h i (h ((i - 1) / 2))) ((i - 1) / 2)
  termination_by i
  decreasing_by omega

/-- The least of `i` and its children. -/
def least (n : ℕ) (h : ℕ → α) (i : ℕ) : ℕ :=
  let m := if 2 * i + 1 < n ∧ gt (h i) (h (2 * i + 1)) then 2 * i + 1 else i
  if 2 * i + 2 < n ∧ gt (h m) (h (2 * i + 2)) then 2 * i + 2 else m

theorem least_cases (n : ℕ) (h : ℕ → α) (i : ℕ) :
    least gt n h i = i ∨ (least gt n h i = 2 * i + 1 ∨ least gt n h i = 2 * i + 2)
      ∧ least gt n h i < n := by
  unfold least
  dsimp only
  split_ifs <;> omega

/-- The element at `i` moved down. -/
def siftDown (n : ℕ) (h : ℕ → α) (i : ℕ) : ℕ → α :=
  let m := least gt n h i
  if m = i then h else siftDown n (update (update h m (h i)) i (h m)) m
  termination_by n - i
  decreasing_by
    have hc := least_cases gt n h i
    omega

/-- The first `n` elements. -/
def contents (n : ℕ) (h : ℕ → α) : Multiset α := (Multiset.range n).map h

theorem contents_congr {n : ℕ} {h h' : ℕ → α} (hh : ∀ i < n, h' i = h i) :
    contents n h' = contents n h :=
  Multiset.map_congr rfl fun i hi => hh i (Multiset.mem_range.1 hi)

theorem mem_contents {n : ℕ} {h : ℕ → α} {x : α} : x ∈ contents n h ↔ ∃ i < n, h i = x := by
  simp [contents]

@[simp] theorem contents_zero (h : ℕ → α) : contents 0 h = 0 := rfl

theorem contents_succ (n : ℕ) (h : ℕ → α) : contents (n + 1) h = h n ::ₘ contents n h := by
  rw [contents, Multiset.range_succ, Multiset.map_cons]
  rfl

/-- One element is replaced by another. -/
theorem contents_update {n i : ℕ} (hi : i < n) (h : ℕ → α) (x : α) :
    h i ::ₘ contents n (update h i x) = x ::ₘ contents n h := by
  have hr : Multiset.range n = i ::ₘ (Multiset.range n).erase i :=
    (Multiset.cons_erase (Multiset.mem_range.2 hi)).symm
  have hrest : ((Multiset.range n).erase i).map (update h i x)
      = ((Multiset.range n).erase i).map h := by
    refine Multiset.map_congr rfl fun j hj => update_of_ne ?_ _ _
    rintro rfl
    exact (Multiset.nodup_range n).notMem_erase hj
  unfold contents
  rw [hr, Multiset.map_cons, Multiset.map_cons, hrest, update_self]
  exact Multiset.cons_swap _ _ _

/-- Two elements are exchanged. -/
theorem contents_swap {n i j : ℕ} (hi : i < n) (hj : j < n) (hne : i ≠ j) (h : ℕ → α) :
    contents n (update (update h j (h i)) i (h j)) = contents n h := by
  have h1 := contents_update hi (update h j (h i)) (h j)
  have h2 := contents_update hj h (h i)
  rw [update_of_ne hne] at h1
  exact (Multiset.cons_inj_right (h i)).1 (h1.trans h2)

theorem contents_siftUp {n : ℕ} (x : α) (h : ℕ → α) (i : ℕ) (hi : i < n) :
    contents n (siftUp gt x h i) = contents n (update h i x) := by
  induction h, i using siftUp.induct gt x with
  | case1 h =>
    unfold siftUp
    rw [if_pos rfl]
  | case2 h i h0 hgt =>
    unfold siftUp
    rw [if_neg h0, if_pos hgt]
  | case3 h i h0 hgt ih =>
    unfold siftUp
    rw [if_neg h0, if_neg hgt, ih (by omega)]
    -- the hole moves, that is, `x` changes places with the parent
    have hp : (i - 1) / 2 ≠ i := by omega
    have hs := contents_swap (i := i) (j := (i - 1) / 2) hi (by omega) hp.symm (update h i x)
    rw [update_self, update_of_ne hp] at hs
    rw [← hs, update_comm hp, update_idem]

theorem contents_siftDown {n : ℕ} (h : ℕ → α) (i : ℕ) (hi : i < n) :
    contents n (siftDown gt n h i) = contents n h := by
  induction h, i using siftDown.induct gt n with
  | case1 h i m hm =>
    unfold siftDown
    rw [if_pos hm]
  | case2 h i m hm ih =>
    have hc := least_cases gt n h i
    unfold siftDown
    rw [if_neg hm, ih (by omega), contents_swap hi (by omega) (Ne.symm hm)]

section Order

variable {gt} {κ : Type*} [LinearOrder κ] {key : α → κ}

/-- `c` is a child of `p`. -/
def Child (p c : ℕ) : Prop := c = 2 * p + 1 ∨ c = 2 * p + 2

/-- No element is greater than its children. -/
def IsHeap (key : α → κ) (n : ℕ) (h : ℕ → α) : Prop :=
  ∀ p c, Child p c → c < n → key (h p) ≤ key (h c)

/-- The root is least. -/
theorem IsHeap.root_le {n : ℕ} {h : ℕ → α} (hh : IsHeap key n h) :
    ∀ i < n, key (h 0) ≤ key (h i) := by
  intro i
  induction i using Nat.strong_induction_on with
  | _ i ih =>
    intro hi
    by_cases h0 : i = 0
    · rw [h0]
    · have hc : Child ((i - 1) / 2) i := by
        unfold Child
        omega
      exact (ih _ (by omega) (by omega)).trans (hh _ _ hc hi)

/-- What `siftUp` needs: the pairs off the hole are in order, and the children of the hole are
greater than `x` and than the hole's parent. -/
structure Rising (key : α → κ) (n : ℕ) (x : α) (h : ℕ → α) (i : ℕ) : Prop where
  off : ∀ p c, Child p c → c < n → p ≠ i → c ≠ i → key (h p) ≤ key (h c)
  below : ∀ c, Child i c → c < n → key x ≤ key (h c)
  across : ∀ p c, Child p i → Child i c → c < n → key (h p) ≤ key (h c)

theorem Rising.done {n : ℕ} {x : α} {h : ℕ → α} {i : ℕ} (hr : Rising key n x h i)
    (hp : ∀ p, Child p i → key (h p) ≤ key x) : IsHeap key n (update h i x) := by
  intro p c hc hn
  by_cases hpi : p = i
  · subst hpi
    have hne : c ≠ p := by
      unfold Child at hc
      omega
    rw [update_self, update_of_ne hne]
    exact hr.below c hc hn
  · rw [update_of_ne hpi]
    by_cases hci : c = i
    · subst hci
      rw [update_self]
      exact hp p hc
    · rw [update_of_ne hci]
      exact hr.off p c hc hn hpi hci

theorem Rising.move {n : ℕ} {x : α} {h : ℕ → α} {i p : ℕ} (hr : Rising key n x h i)
    (hi : i < n) (hp : Child p i) (hx : key x ≤ key (h p)) :
    Rising key n x (update h i (h p)) p := by
  have hpi : p ≠ i := by
    unfold Child at hp
    omega
  refine ⟨fun q c hc hn hq hcp => ?_, fun c hc hn => ?_, fun q c hq hc hn => ?_⟩
  · by_cases hci : c = i
    · have : q = p := by
        unfold Child at hc hp
        omega
      exact absurd this hq
    · rw [update_of_ne hci]
      by_cases hqi : q = i
      · subst hqi
        rw [update_self]
        exact hr.across p c hp hc hn
      · rw [update_of_ne hqi]
        exact hr.off q c hc hn hqi hci
  · by_cases hci : c = i
    · subst hci
      rwa [update_self]
    · rw [update_of_ne hci]
      exact hx.trans (hr.off p c hc hn hpi hci)
  · have hqi : q ≠ i := by
      unfold Child at hq hp
      omega
    have hqp : key (h q) ≤ key (h p) := hr.off q p hq (by unfold Child at hp; omega) hqi hpi
    rw [update_of_ne hqi]
    by_cases hci : c = i
    · subst hci
      rwa [update_self]
    · rw [update_of_ne hci]
      exact hqp.trans (hr.off p c hc hn hpi hci)

theorem isHeap_siftUp_of_rising (hgt : ∀ a b, gt a b = true ↔ key b < key a) {n : ℕ} {x : α}
    (h : ℕ → α) (i : ℕ) (hi : i < n) (hr : Rising key n x h i) :
    IsHeap key n (siftUp gt x h i) := by
  induction h, i using siftUp.induct gt x with
  | case1 h =>
    unfold siftUp
    rw [if_pos rfl]
    exact hr.done fun p hp => by
      unfold Child at hp
      omega
  | case2 h i h0 hx =>
    unfold siftUp
    rw [if_neg h0, if_pos hx]
    refine hr.done fun p hp => ?_
    obtain rfl : p = (i - 1) / 2 := by
      unfold Child at hp
      omega
    exact ((hgt _ _).1 hx).le
  | case3 h i h0 hx ih =>
    unfold siftUp
    rw [if_neg h0, if_neg hx]
    refine ih (by omega) (hr.move hi ?_ ?_)
    · unfold Child
      omega
    · exact not_lt.1 fun hlt => hx ((hgt _ _).2 hlt)

/-- An element is put in at the end. -/
theorem isHeap_siftUp (hgt : ∀ a b, gt a b = true ↔ key b < key a) {n : ℕ} {h : ℕ → α}
    (hh : IsHeap key n h) (x : α) : IsHeap key (n + 1) (siftUp gt x h n) := by
  refine isHeap_siftUp_of_rising hgt h n (Nat.lt_succ_self n) ⟨fun p c hc hn _ hne => ?_, ?_, ?_⟩
  · exact hh p c hc (by omega)
  · intro c hc hn
    unfold Child at hc
    omega
  · intro p c _ hc hn
    unfold Child at hc
    omega

/-- What `siftDown` needs: the pairs below others than `i` are in order, and the children of `i`
are not less than its parent. -/
structure Sinking (key : α → κ) (n : ℕ) (h : ℕ → α) (i : ℕ) : Prop where
  off : ∀ p c, Child p c → c < n → p ≠ i → key (h p) ≤ key (h c)
  across : ∀ p c, Child p i → Child i c → c < n → key (h p) ≤ key (h c)

theorem key_least_le (hgt : ∀ a b, gt a b = true ↔ key b < key a) (n : ℕ) (h : ℕ → α) (i : ℕ) :
    key (h (least gt n h i)) ≤ key (h i)
      ∧ ∀ c, Child i c → c < n → key (h (least gt n h i)) ≤ key (h c) := by
  unfold least Child
  simp only [hgt]
  split_ifs with h1 h2 h2
  · refine ⟨h2.2.le.trans h1.2.le, ?_⟩
    rintro c (rfl | rfl) hc
    · exact h2.2.le
    · exact le_rfl
  · refine ⟨h1.2.le, ?_⟩
    rintro c (rfl | rfl) hc
    · exact le_rfl
    · exact not_lt.1 fun hlt => h2 ⟨hc, hlt⟩
  · refine ⟨h2.2.le, ?_⟩
    rintro c (rfl | rfl) hc
    · exact h2.2.le.trans (not_lt.1 fun hlt => h1 ⟨hc, hlt⟩)
    · exact le_rfl
  · refine ⟨le_rfl, ?_⟩
    rintro c (rfl | rfl) hc
    · exact not_lt.1 fun hlt => h1 ⟨hc, hlt⟩
    · exact not_lt.1 fun hlt => h2 ⟨hc, hlt⟩

theorem Sinking.move {n : ℕ} {h : ℕ → α} {i m : ℕ} (hs : Sinking key n h i) (hm : Child i m)
    (hmn : m < n) (hle : key (h m) ≤ key (h i))
    (hall : ∀ c, Child i c → c < n → key (h m) ≤ key (h c)) :
    Sinking key n (update (update h m (h i)) i (h m)) m := by
  have him : m ≠ i := by
    unfold Child at hm
    omega
  refine ⟨fun p c hc hn hp => ?_, fun p c hp hc hn => ?_⟩
  · by_cases hpi : p = i
    · subst hpi
      have hcp : c ≠ p := by
        unfold Child at hc
        omega
      rw [update_self, update_of_ne hcp]
      by_cases hcm : c = m
      · rw [hcm, update_self]
        exact hle
      · rw [update_of_ne hcm]
        exact hall c hc hn
    · rw [update_of_ne hpi, update_of_ne hp]
      have hcm : c ≠ m := by
        rintro rfl
        unfold Child at hc hm
        omega
      by_cases hci : c = i
      · subst hci
        rw [update_self]
        exact hs.across p m hc hm hmn
      · rw [update_of_ne hci, update_of_ne hcm]
        exact hs.off p c hc hn hpi
  · obtain rfl : p = i := by
      unfold Child at hp hm
      omega
    have h1 : c ≠ p := by
      unfold Child at hc hm
      omega
    have h2 : c ≠ m := by
      unfold Child at hc
      omega
    rw [update_self, update_of_ne h1, update_of_ne h2]
    exact hs.off m c hc hn him

theorem isHeap_siftDown (hgt : ∀ a b, gt a b = true ↔ key b < key a) {n : ℕ} (h : ℕ → α) (i : ℕ)
    (hs : Sinking key n h i) : IsHeap key n (siftDown gt n h i) := by
  induction h, i using siftDown.induct gt n with
  | case1 h i m hm =>
    unfold siftDown
    rw [if_pos hm]
    intro p c hc hn
    by_cases hp : p = i
    · subst hp
      have hle := (key_least_le hgt n h p).2 c hc hn
      rwa [show least gt n h p = p from hm] at hle
    · exact hs.off p c hc hn hp
  | case2 h i m hm ih =>
    obtain ⟨h1, h2⟩ := key_least_le hgt n h i
    unfold siftDown
    rw [if_neg hm]
    rcases least_cases gt n h i with hc | ⟨hc, hn⟩
    · exact absurd hc hm
    · exact ih (hs.move hc hn h1 h2)

/-- The root is replaced. -/
theorem IsHeap.sinking {n : ℕ} {h : ℕ → α} (hh : IsHeap key n h) (x : α) :
    Sinking key n (update h 0 x) 0 := by
  refine ⟨fun p c hc hn hp => ?_, fun p c hp _ _ => ?_⟩
  · have hc0 : c ≠ 0 := by
      unfold Child at hc
      omega
    rw [update_of_ne hp, update_of_ne hc0]
    exact hh p c hc hn
  · unfold Child at hp
    omega

end Order

end Heap
