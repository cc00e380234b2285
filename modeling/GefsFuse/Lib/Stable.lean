import Mathlib.Data.List.DropRight
import Mathlib.Order.Lattice

/-!
# Lists in order, with repeated keys

A list of elements with keys that do not descend. An element is put behind those that are not above
it (`Parted`); what was on each key before it stays before it (`Parted.filter`). Two such lists are
merged, the first one's elements first on each key (`merge`), and there is no other list in order
that holds the same on every key (`Sorted.ext`).
-/

namespace Stable

variable {κ μ : Type*} [LinearOrder κ] (key : μ → κ)

/-- The keys do not descend. -/
def Sorted (l : List μ) : Prop := l.Pairwise fun a b => key a ≤ key b

/-- `m` goes between `l₁` and `l₂`. -/
structure Parted (m : μ) (l₁ l₂ : List μ) : Prop where
  left : ∀ x ∈ l₁, key x ≤ key m
  right : ∀ x ∈ l₂, key m < key x

variable {key} {m : μ} {l l₁ l₂ : List μ}

theorem Parted.sorted (h : Parted key m l₁ l₂) (hs : Sorted key (l₁ ++ l₂)) :
    Sorted key (l₁ ++ m :: l₂) := by
  obtain ⟨h1, h2, h12⟩ := List.pairwise_append.1 hs
  refine List.pairwise_append.2 ⟨h1, List.pairwise_cons.2 ⟨fun x hx => (h.right x hx).le, h2⟩, ?_⟩
  intro a ha b hb
  rcases List.mem_cons.1 hb with rfl | hb
  · exact h.left a ha
  · exact h12 a ha b hb

/-- On every key `m` comes last. -/
theorem Parted.filter [DecidableEq κ] (h : Parted key m l₁ l₂) (k : κ) :
    (l₁ ++ m :: l₂).filter (key · = k) = (l₁ ++ l₂).filter (key · = k) ++ [m].filter (key · = k) := by
  by_cases hk : key m = k
  · have h2 : l₂.filter (key · = k) = [] := by
      refine List.filter_eq_nil_iff.2 fun x hx => ?_
      simpa [← hk] using (h.right x hx).ne'
    simp [hk, h2]
  · simp [hk]

/-- An ordered list parts at every key. -/
theorem parted_rdropWhile (hs : Sorted key l) {gt : μ → Bool} (hgt : ∀ x, gt x ↔ key m < key x) :
    Parted key m (l.rdropWhile gt) (l.rtakeWhile gt) := by
  induction l using List.reverseRecOn with
  | nil => exact ⟨by simp, by simp⟩
  | append_singleton l a ih =>
    obtain ⟨h1, -, h12⟩ := List.pairwise_append.1 hs
    have ih := ih h1
    by_cases ha : gt a
    · rw [List.rdropWhile_concat_pos _ _ _ ha, List.rtakeWhile_concat_pos _ _ _ ha]
      refine ⟨ih.left, fun x hx => ?_⟩
      rcases List.mem_append.1 hx with hx | hx
      · exact ih.right x hx
      · rw [List.mem_singleton.1 hx]
        exact (hgt a).1 ha
    · rw [List.rdropWhile_concat_neg _ _ _ ha, List.rtakeWhile_concat_neg _ _ _ ha]
      have hle : key a ≤ key m := not_lt.1 fun h => ha ((hgt a).2 h)
      refine ⟨fun x hx => ?_, by simp⟩
      rcases List.mem_append.1 hx with hx | hx
      · exact (h12 x hx a (by simp)).trans hle
      · rwa [List.mem_singleton.1 hx]

/-- Lists in order are equal that hold the same on every key. -/
theorem Sorted.ext [DecidableEq κ] (h : Sorted key l) (h' : Sorted key l₁)
    (hk : ∀ k, l.filter (key · = k) = l₁.filter (key · = k)) : l = l₁ := by
  induction l generalizing l₁ with
  | nil =>
    rcases l₁ with _ | ⟨b, l₁⟩
    · rfl
    · simpa using hk (key b)
  | cons a l ih =>
    rcases l₁ with _ | ⟨b, l₁⟩
    · simpa using hk (key a)
    obtain ⟨ha, h⟩ := List.pairwise_cons.1 h
    obtain ⟨hb, h₁⟩ := List.pairwise_cons.1 h'
    have hmem : ∀ x, x ∈ a :: l ↔ x ∈ b :: l₁ := by
      intro x
      have := congrArg (x ∈ ·) (hk (key x))
      simpa only [List.mem_filter, decide_true, and_true, eq_iff_iff] using this
    have hab : key a = key b := by
      refine le_antisymm ?_ ?_
      · rcases List.mem_cons.1 ((hmem b).2 List.mem_cons_self) with rfl | hm
        · exact le_rfl
        · exact ha b hm
      · rcases List.mem_cons.1 ((hmem a).1 List.mem_cons_self) with rfl | hm
        · exact le_rfl
        · exact hb a hm
    have hfirst := hk (key a)
    rw [List.filter_cons_of_pos (by simp), List.filter_cons_of_pos (by simp [hab])] at hfirst
    obtain ⟨rfl, -⟩ := List.cons.inj hfirst
    refine congrArg (a :: ·) (ih h h₁ fun k => ?_)
    have := hk k
    by_cases hak : key a = k
    · rw [List.filter_cons_of_pos (by simp [hak]), List.filter_cons_of_pos (by simp [hak])] at this
      exact (List.cons.inj this).2
    · rwa [List.filter_cons_of_neg (by simp [hak]), List.filter_cons_of_neg (by simp [hak])] at this

section Below

variable {k k' : κ} {i : ℕ}

variable (key) in
/-- How many elements are below `k`. -/
def below (l : List μ) (k : κ) : ℕ := l.countP (key · < k)

theorem below_le (l : List μ) (k : κ) : below key l k ≤ l.length := List.countP_le_length

theorem below_append (l r : List μ) (k : κ) : below key (l ++ r) k = below key l k + below key r k :=
  List.countP_append

theorem below_mono (l : List μ) (h : k ≤ k') : below key l k ≤ below key l k' :=
  List.countP_mono_left fun x _ hx => by
    simp only [decide_eq_true_eq] at hx ⊢
    exact hx.trans_le h

theorem below_eq_length : below key l k = l.length ↔ ∀ x ∈ l, key x < k := by
  simp [below, List.countP_eq_length]

theorem below_eq_zero : below key l k = 0 ↔ ∀ x ∈ l, k ≤ key x := by
  simp [below, List.countP_eq_zero]

theorem below_cons_of_lt (h : key m < k) : below key (m :: l) k = below key l k + 1 := by
  simp [below, h]

/-- In a list in order nothing is below `k` once an element is not. -/
theorem Sorted.below_cons_of_le (hs : Sorted key (m :: l)) (h : k ≤ key m) :
    below key (m :: l) k = 0 := by
  refine below_eq_zero.2 fun x hx => ?_
  rcases List.mem_cons.1 hx with rfl | hx
  · exact h
  · exact h.trans (List.rel_of_pairwise_cons hs hx)

theorem Sorted.below_drop (hs : Sorted key l) (i : ℕ) :
    below key (l.drop i) k = below key l k - i := by
  induction l generalizing i with
  | nil => simp [below]
  | cons m l ih =>
    rcases i with _ | i
    · simp
    · rw [List.drop_succ_cons, ih (List.pairwise_cons.1 hs).2]
      rcases lt_or_ge (key m) k with hlt | hle
      · rw [below_cons_of_lt hlt]
        omega
      · rw [hs.below_cons_of_le hle]
        have := below_eq_zero.1 (hs.below_cons_of_le hle)
        rw [below_eq_zero.2 fun x hx => this x (List.mem_cons_of_mem _ hx), Nat.zero_sub,
          Nat.zero_sub]

theorem Sorted.take_below (hs : Sorted key l) (k : κ) :
    l.take (below key l k) = l.filter (key · < k) := by
  induction l with
  | nil => rfl
  | cons m l ih =>
    rcases lt_or_ge (key m) k with hlt | hle
    · rw [below_cons_of_lt hlt, List.take_succ_cons, ih (List.pairwise_cons.1 hs).2,
        List.filter_cons_of_pos (by simpa using hlt)]
    · have h0 := hs.below_cons_of_le hle
      rw [h0, List.take_zero, List.filter_eq_nil_iff.2]
      intro x hx
      simpa using below_eq_zero.1 h0 x hx

theorem Sorted.drop_below (hs : Sorted key l) (k : κ) :
    l.drop (below key l k) = l.filter (k ≤ key ·) := by
  induction l with
  | nil => rfl
  | cons m l ih =>
    rcases lt_or_ge (key m) k with hlt | hle
    · rw [below_cons_of_lt hlt, List.drop_succ_cons, ih (List.pairwise_cons.1 hs).2,
        List.filter_cons_of_neg (by simpa using hlt)]
    · have h0 := hs.below_cons_of_le hle
      rw [h0, List.drop_zero, List.filter_eq_self.2]
      intro x hx
      simpa using below_eq_zero.1 h0 x hx

theorem Sorted.take_eq (hs : Sorted key l) (h : min i l.length = below key l k) :
    l.take i = l.filter (key · < k) := by
  rw [← hs.take_below, ← h, List.take_eq_take_min]

theorem Sorted.drop_eq (hs : Sorted key l) (h : min i l.length = below key l k) :
    l.drop i = l.filter (k ≤ key ·) := by
  rw [← hs.drop_below, ← h]
  rcases le_total i l.length with hi | hi
  · rw [min_eq_left hi]
  · rw [min_eq_right hi, List.drop_eq_nil_of_le hi, List.drop_eq_nil_of_le le_rfl]

/-- Where a list in order parts in what is below `k` and what is not. -/
theorem Sorted.parts_iff (hs : Sorted key l) :
    ((∀ x ∈ l.take i, key x < k) ∧ ∀ x ∈ l.drop i, k ≤ key x) ↔ min i l.length = below key l k := by
  constructor
  · rintro ⟨h1, h2⟩
    have h : below key (l.take i ++ l.drop i) k = min i l.length := by
      rw [below_append, below_eq_length.2 h1, below_eq_zero.2 h2, List.length_take, Nat.add_zero]
    rw [List.take_append_drop] at h
    exact h.symm
  · intro h
    rw [hs.take_eq h, hs.drop_eq h]
    exact ⟨fun x hx => by simpa using (List.mem_filter.1 hx).2,
      fun x hx => by simpa using (List.mem_filter.1 hx).2⟩

end Below

section Merge

variable (key) in
/-- The two lists merged, the first one's elements first on each key. -/
def merge (l r : List μ) : List μ := l.merge r fun a b => decide (key a ≤ key b)

variable {r g : List μ}

@[simp] theorem merge_nil (l : List μ) : merge key l [] = l := List.merge_right _

@[simp] theorem nil_merge (r : List μ) : merge key [] r = r := List.nil_merge _

/-- An element that is not above any on the right comes first. -/
theorem merge_cons_of_le (h : ∀ x ∈ r, key m ≤ key x) : merge key (m :: l) r = m :: merge key l r := by
  rcases r with _ | ⟨x, r⟩
  · simp
  · exact List.cons_merge_cons_pos _ _ _ (by simpa using h x List.mem_cons_self)

/-- The elements of the right that are below all on the left come first. -/
theorem merge_append_of_lt (h : ∀ x ∈ g, ∀ y ∈ l, key x < key y) :
    merge key l (g ++ r) = g ++ merge key l r := by
  induction g with
  | nil => rfl
  | cons x g ih =>
    have ih := ih fun z hz => h z (List.mem_cons_of_mem _ hz)
    rcases l with _ | ⟨y, l⟩
    · simp
    · refine (List.cons_merge_cons_neg _ _ _ ?_).trans (congrArg (x :: ·) ih)
      simpa using h x List.mem_cons_self y List.mem_cons_self

theorem sorted_merge (hl : Sorted key l) (hr : Sorted key r) : Sorted key (merge key l r) := by
  have htrans : ∀ a b c : μ, decide (key a ≤ key b) = true → decide (key b ≤ key c) = true →
      decide (key a ≤ key c) = true := by
    intro a b c hab hbc
    simp only [decide_eq_true_eq] at *
    exact hab.trans hbc
  have htotal : ∀ a b : μ, (decide (key a ≤ key b) || decide (key b ≤ key a)) = true := by
    intro a b
    simpa using le_total (key a) (key b)
  have := List.pairwise_merge htrans htotal l r (hl.imp (by simp)) (hr.imp (by simp))
  exact this.imp (by simp)

/-- On every key the first list's elements stay before the second's. -/
theorem filter_merge [DecidableEq κ] (hl : Sorted key l) (hr : Sorted key r) (k : κ) :
    (merge key l r).filter (key · = k) = l.filter (key · = k) ++ r.filter (key · = k) := by
  induction l generalizing r with
  | nil => simp
  | cons m l ih =>
    obtain ⟨hm, hl'⟩ := List.pairwise_cons.1 hl
    -- what is below `m` on the right, and the rest
    obtain ⟨g, r', rfl, hg, hr'⟩ : ∃ g r', r = g ++ r' ∧ (∀ x ∈ g, key x < key m)
        ∧ ∀ x ∈ r', key m ≤ key x := by
      refine ⟨r.takeWhile (key · < key m), r.dropWhile (key · < key m),
        List.takeWhile_append_dropWhile.symm, fun x hx => by simpa using List.mem_takeWhile_imp hx,
        ?_⟩
      rcases hd : r.dropWhile (key · < key m) with _ | ⟨y, r'⟩
      · simp
      · have hs : Sorted key (y :: r') := by
          rw [← hd]
          exact hr.sublist (List.dropWhile_sublist _)
        have hy : key m ≤ key y := by
          have := List.head_dropWhile_not (fun x => decide (key x < key m)) (l := r) (by simp [hd])
          simpa [hd] using this
        intro x hx
        rcases List.mem_cons.1 hx with rfl | hx
        · exact hy
        · exact hy.trans (List.rel_of_pairwise_cons hs hx)
    have hr2 : Sorted key r' := hr.sublist (List.sublist_append_right _ _)
    have hlt : ∀ x ∈ g, ∀ y ∈ m :: l, key x < key y := by
      intro x hx y hy
      rcases List.mem_cons.1 hy with rfl | hy
      · exact hg x hx
      · exact (hg x hx).trans_le (hm y hy)
    rw [merge_append_of_lt hlt, merge_cons_of_le hr', List.filter_append, List.filter_append,
      List.filter_cons, List.filter_cons, ih hl' hr2]
    -- only one of `g` and `m :: l` has anything on `k`
    by_cases hgk : g.filter (key · = k) = []
    · rw [hgk]
      split_ifs <;> simp
    · obtain ⟨x, hx⟩ := List.exists_mem_of_ne_nil _ hgk
      obtain ⟨hx, hxk⟩ := List.mem_filter.1 hx
      have hnone : ∀ y ∈ m :: l, key y ≠ k := by
        intro y hy he
        have := hlt x hx y hy
        rw [he, show key x = k by simpa using hxk] at this
        exact lt_irrefl _ this
      have hl0 : l.filter (key · = k) = [] :=
        List.filter_eq_nil_iff.2 fun y hy => by simpa using hnone y (List.mem_cons_of_mem _ hy)
      simp [hnone m List.mem_cons_self, hl0]

/-- The merge is the one list in order with the elements of both on every key. -/
theorem eq_merge [DecidableEq κ] {t : List μ} (hl : Sorted key l) (hr : Sorted key r)
    (ht : Sorted key t)
    (hk : ∀ k, t.filter (key · = k) = l.filter (key · = k) ++ r.filter (key · = k)) :
    t = merge key l r :=
  ht.ext (sorted_merge hl hr) fun k => (hk k).trans (filter_merge hl hr k).symm

end Merge

end Stable
