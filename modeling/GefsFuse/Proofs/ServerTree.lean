import GefsFuse.Server.FreeTree

/-!
# The free ranges stay in canonical shape

In canonical shape (`Canon`) no two ranges overlap or touch, so a set of blocks has one tree. While
a range is put in, only its own node may touch another (`Near`): a round makes one node of two, and
where there is no other round nothing touches any more. A key changed in place stays between the
same two neighbours, an empty node included.
-/

namespace GefsFuse.Server.FreeTree

open Ranges

variable {t : List Rng} {n n' : Node} {a b r : Rng} {off len : ℤ}

/-! ## Order -/

theorem rangecmp_neg : rangecmp a b < 0 ↔ a.off < b.off := by
  unfold rangecmp
  split_ifs <;> omega

theorem rangecmp_pos : 0 < rangecmp a b ↔ b.off < a.off := by
  unfold rangecmp
  split_ifs <;> omega

theorem rangecmp_nonpos : rangecmp a b ≤ 0 ↔ a.off ≤ b.off := by
  rw [← not_lt, rangecmp_pos, not_lt]

theorem rangecmp_eq_zero : rangecmp a b = 0 ↔ a.off = b.off := by
  have h1 := @rangecmp_neg a b
  have h2 := @rangecmp_pos a b
  omega

/-- The order in which the tree is searched. -/
def Ordered (t : List Rng) : Prop := t.Pairwise (rangecmp · · < 0)

theorem ordered_append {l m : List Rng} : Ordered (l ++ m)
    ↔ Ordered l ∧ Ordered m ∧ ∀ r ∈ l, ∀ r' ∈ m, r.off < r'.off := by
  simp only [Ordered, List.pairwise_append, rangecmp_neg]

theorem ordered_cons {l : List Rng} : Ordered (r :: l) ↔ (∀ r' ∈ l, r.off < r'.off) ∧ Ordered l := by
  simp only [Ordered, List.pairwise_cons, rangecmp_neg]

theorem ordered_of_blocky (h : Blocky 16384 t) : Ordered t := by
  refine h.sorted.imp_of_mem fun {r r'} hr hr' hle => rangecmp_neg.2 ?_
  have := h.pos r hr
  rw [Rng.stop] at hle
  omega

/-- Whole blocks, at least one. -/
structure Whole (r : Rng) : Prop where
  pos : 0 < r.len
  off : 16384 ∣ r.off
  len : 16384 ∣ r.len

/-- Ranges of whole blocks in order, no two of which overlap or touch. -/
structure Canon (t : List Rng) : Prop where
  ordered : Ordered t
  whole : ∀ r ∈ t, Whole r
  disjoint : t.Pairwise fun r r' => Disjoint r.bytes r'.bytes
  apart : t.Pairwise fun r r' => r.stop ≠ r'.off ∧ r'.stop ≠ r.off

theorem canon_iff : Canon t ↔ Blocky 16384 t ∧ Gaps t := by
  constructor
  · intro h
    have hgap : Gaps t := by
      refine (h.ordered.and (h.disjoint.and h.apart)).imp_of_mem
        fun {r r'} hr hr' ⟨hlt, hd, hne, _⟩ => ?_
      have hlt := rangecmp_neg.1 hlt
      have hp' := (h.whole r' hr').pos
      by_contra hge
      have hx : r'.off ∈ r.bytes := ⟨hlt.le, by omega⟩
      refine Set.disjoint_left.1 hd hx ⟨le_rfl, ?_⟩
      rw [Rng.stop]
      omega
    refine ⟨⟨fun r hr => (h.whole r hr).pos, fun r hr => (h.whole r hr).off,
      fun r hr => (h.whole r hr).len, ?_⟩, hgap⟩
    exact List.Pairwise.imp le_of_lt hgap
  · rintro ⟨h, hgap⟩
    refine ⟨ordered_of_blocky h, fun r hr => ⟨h.pos r hr, h.off r hr, h.len r hr⟩,
      h.exact.disjoint, hgap.imp_of_mem fun {r r'} hr hr' hlt => ⟨hlt.ne, ?_⟩⟩
    have h1 := h.pos r hr
    have h2 := h.pos r' hr'
    simp only [Rng.stop] at hlt ⊢
    omega

/-! ## The loop -/

/-- Only the node itself may touch another. -/
structure Near (n : Node) : Prop where
  blocky : Blocky 16384 n.tree
  lo : Gaps n.lo.reverse
  hi : Gaps n.hi

theorem Near.again (h : Near n) (ha : again n = some n') :
    Near n' ∧ cover n'.tree = cover n.tree := by
  obtain ⟨hb, hlo, hhi⟩ := h
  rcases again_cases ha with ⟨s, lo, hs, hj, rfl⟩ | ⟨s, hi, hs, hj, rfl⟩
  · rw [Node.tree, hs, List.reverse_cons, List.append_assoc] at hb
    rw [hs, List.reverse_cons] at hlo
    obtain ⟨h1, h2, -⟩ := hb.join hj
    rw [Node.tree, Node.tree, hs, List.reverse_cons, List.append_assoc]
    exact ⟨⟨h1, (gaps_append.1 hlo).1, hhi⟩, h2⟩
  · rw [Node.tree, hs] at hb
    rw [hs] at hhi
    obtain ⟨h1, h2, -⟩ := hb.join hj
    rw [add_comm] at h1 h2
    rw [Node.tree, Node.tree, hs]
    exact ⟨⟨h1, hlo, (gaps_cons.1 hhi).2⟩, h2⟩

theorem ne_of_again_none (h : again n = none) :
    (∀ s lo, n.lo = s :: lo → s.stop ≠ n.r.off) ∧ ∀ s hi, n.hi = s :: hi → n.r.stop ≠ s.off := by
  obtain ⟨lo, r, hi⟩ := n
  unfold FreeTree.again at h
  rcases hp : joinPrev ⟨lo, r, hi⟩ with _ | m <;> simp only [hp, reduceCtorEq] at h
  constructor
  · rintro s lo rfl heq
    unfold joinPrev at hp
    exact absurd hp (by simp [show s.off + s.len = r.off from heq])
  · rintro s hi rfl heq
    unfold joinNext at h
    exact absurd h (by simp [show r.off + r.len = s.off from heq])

/-- Where the loop ends nothing touches. -/
theorem Near.gaps (h : Near n) (ha : FreeTree.again n = none) : Gaps n.tree := by
  obtain ⟨hb, hlo, hhi⟩ := h
  obtain ⟨hp, hn⟩ := ne_of_again_none ha
  obtain ⟨hblo, hbr, hlt⟩ := blocky_append.1 hb
  obtain ⟨⟨hpos, -⟩, hbhi, hlthi⟩ := blocky_cons.1 hbr
  have hr : n.r.stop = n.r.off + n.r.len := rfl
  have h1 : ∀ x ∈ n.lo.reverse, x.stop < n.r.off := by
    intro x hx
    have hle := hlt x hx n.r List.mem_cons_self
    rcases hl : n.lo with _ | ⟨s, lo⟩
    · simp [hl] at hx
    · have hs := hp s lo hl
      have hsle := hlt s (by simp [hl]) n.r List.mem_cons_self
      rw [hl, List.reverse_cons] at hx hlo
      rcases List.mem_append.1 hx with hx | hx
      · have := (gaps_append.1 hlo).2.2 x hx s (by simp)
        have hspos := hblo.pos s (by simp [hl])
        rw [Rng.stop] at hsle
        omega
      · obtain rfl := List.mem_singleton.1 hx
        omega
  have h2 : ∀ y ∈ n.hi, n.r.stop < y.off := by
    intro y hy
    have hle := hlthi y hy
    rcases hh : n.hi with _ | ⟨s, hi⟩
    · simp [hh] at hy
    · have hs := hn s hi hh
      have hsle := hlthi s (by simp [hh])
      rw [hh] at hy hhi
      rcases List.mem_cons.1 hy with rfl | hy
      · omega
      · have := (gaps_cons.1 hhi).1 y hy
        have hspos := hbhi.pos s (by simp [hh])
        rw [Rng.stop] at this
        omega
  refine gaps_append.2 ⟨hlo, gaps_cons.2 ⟨h2, hhi⟩, ?_⟩
  intro x hx y hy
  have hx := h1 x hx
  rcases List.mem_cons.1 hy with rfl | hy
  · exact hx
  · have := h2 y hy
    omega

/-- Any number of rounds. -/
def Rounds : Node → Node → Prop := Relation.ReflTransGen fun n n' => again n = some n'

theorem Near.rounds (h : Near n) (hr : Rounds n n') : Near n' ∧ cover n'.tree = cover n.tree := by
  induction hr with
  | refl => exact ⟨h, rfl⟩
  | tail _ hs ih =>
    obtain ⟨h1, h2⟩ := ih.1.again hs
    exact ⟨h1, h2.trans ih.2⟩

theorem wellFounded_again : WellFounded fun n' n => again n = some n' := by
  refine Subrelation.wf (fun {n' n} h => ?_) (measure Node.size).wf
  have := size_again h
  show n'.size < n.size
  omega

theorem rounds_coalesce : ∀ n, Rounds n (coalesce n) ∧ again (coalesce n) = none := by
  intro n
  induction n using coalesce.induct with
  | case1 n h =>
    rw [coalesce.eq_1]
    split
    · exact ⟨.refl, h⟩
    · rename_i n' h'
      rw [h] at h'
      cases h'
  | case2 n n' h ih =>
    rw [coalesce.eq_1]
    split
    · rename_i h'
      rw [h] at h'
      cases h'
    · rename_i m h'
      obtain rfl : n' = m := Option.some.inj (h.symm.trans h')
      exact ⟨ih.1.head h, ih.2⟩

/-! ## Putting a range in -/

theorem coalesce_of_again (h : again n = some n') : coalesce n = coalesce n' := by
  rw [coalesce.eq_1]
  split
  · rename_i h'
    rw [h] at h'
    cases h'
  · rename_i m h'
    rw [Option.some.inj (h.symm.trans h')]

theorem coalesce_of_none (h : again n = none) : coalesce n = n := by
  rw [coalesce.eq_1]
  split
  · rfl
  · rename_i m h'
    rw [h] at h'
    cases h'

/-- A node that does not touch the one before it is joined to those behind it. -/
theorem coalesce_eq_joinNext {lo : List Rng} : ∀ {hi : List Rng} {r : Rng},
    joinPrev ⟨lo, r, []⟩ = none → (coalesce ⟨lo, r, hi⟩).tree = lo.reverse ++ Ranges.joinNext r hi
  | [], r, h => by
    have ha : again ⟨lo, r, []⟩ = none := by simp only [again, h, joinNext]
    rw [coalesce_of_none ha]
    rfl
  | s :: hi, r, h => by
    have hp : joinPrev ⟨lo, r, s :: hi⟩ = none := by
      unfold joinPrev at h ⊢
      rcases lo with _ | ⟨p, lo⟩
      · rfl
      · simpa using h
    rw [Ranges.joinNext]
    split_ifs with hj
    · have ha : again ⟨lo, r, s :: hi⟩ = some ⟨lo, ⟨r.off, s.len + r.len⟩, hi⟩ := by
        simp only [again, hp, joinNext]
        exact if_pos hj
      rw [coalesce_of_again ha, add_comm s.len, coalesce_eq_joinNext]
      -- the start of the node is what it was
      unfold joinPrev at h ⊢
      rcases lo with _ | ⟨p, lo⟩
      · rfl
      · simpa using h
    · have ha : again ⟨lo, r, s :: hi⟩ = none := by
        simp only [again, hp, joinNext]
        exact if_neg hj
      rw [coalesce_of_none ha]
      rfl

theorem tree_coalesce {hi : List Rng} : ∀ {lo : List Rng} {r : Rng},
    (coalesce ⟨lo, r, hi⟩).tree = Ranges.joinPrev r hi lo
  | [], r => coalesce_eq_joinNext rfl
  | s :: lo, r => by
    rw [Ranges.joinPrev]
    split_ifs with hj
    · have ha : again ⟨s :: lo, r, hi⟩ = some ⟨lo, ⟨s.off, s.len + r.len⟩, hi⟩ := by
        have hp : joinPrev ⟨s :: lo, r, hi⟩ = some ⟨lo, ⟨s.off, s.len + r.len⟩, hi⟩ := if_pos hj
        simp only [again, hp]
      rw [coalesce_of_again ha, tree_coalesce]
    · exact coalesce_eq_joinNext (if_neg hj)

theorem avlinsert_eq (t : List Rng) (r : Rng) :
    avlinsert t r = ⟨(t.filter (·.off < r.off)).reverse, r, t.filter (r.off < ·.off)⟩ := by
  simp only [avlinsert, rangecmp_neg, rangecmp_pos]

theorem tree_avlinsert (t : List Rng) (r : Rng) : (avlinsert t r).tree
    = t.filter (·.off < r.off) ++ r :: t.filter (r.off < ·.off) := by
  rw [avlinsert_eq, Node.tree, List.reverse_reverse]

theorem avllookup_zero (h : Ordered t) (q : Rng) :
    (avllookup t q 0).isSome = t.any (·.off = q.off) := by
  have hmem : ∀ x ∈ t, x.off = q.off → x ∈ t.filter (rangecmp · q ≤ 0) := fun x hx he =>
    List.mem_filter.2 ⟨hx, by simpa [rangecmp_nonpos] using he.le⟩
  have hsub : Ordered (t.filter (rangecmp · q ≤ 0)) := h.filter _
  rw [Bool.eq_iff_iff, List.any_eq_true]
  simp only [decide_eq_true_eq]
  unfold avllookup
  rcases hrev : (t.filter (rangecmp · q ≤ 0)).reverse with _ | ⟨r, lo⟩
  · rw [List.reverse_eq_nil_iff] at hrev
    simp only [hrev, List.not_mem_nil, imp_false] at hmem
    simp only [Option.isSome_none, Bool.false_eq_true, false_iff, not_exists, not_and]
    exact hmem
  · have hlo : t.filter (rangecmp · q ≤ 0) = lo.reverse ++ [r] := by
      rw [← List.reverse_reverse (t.filter _), hrev, List.reverse_cons]
    have hr : r ∈ t ∧ r.off ≤ q.off := by
      have : r ∈ t.filter (rangecmp · q ≤ 0) := by simp [hlo]
      simpa [rangecmp_nonpos] using List.mem_filter.1 this
    simp only [lt_irrefl, or_false, rangecmp_eq_zero]
    constructor
    · intro he
      split_ifs at he with heq
      · exact ⟨r, hr.1, heq⟩
      · cases he
    · rintro ⟨x, hx, he⟩
      rw [hlo] at hmem hsub
      rcases List.mem_append.1 (hmem x hx he) with hxlo | hxr
      · have := (ordered_append.1 hsub).2.2 x hxlo r (by simp)
        omega
      · obtain rfl := List.mem_singleton.1 hxr
        rw [if_pos he]
        rfl

/-- The operation on the list of ranges is the one on the tree. -/
theorem freerange_eq (h : Ordered t) (off len : ℤ) :
    freerange t off len = Server.freerange t off len := by
  unfold freerange Server.freerange
  rw [avllookup_zero h, avlinsert_eq, tree_coalesce]
  rfl

theorem near_avlinsert (h : Canon t) (hr : Whole r) (hd : Disjoint r.bytes (cover t)) :
    Near (avlinsert t r) ∧ cover (avlinsert t r).tree = cover t ∪ r.bytes := by
  obtain ⟨hb, hg⟩ := canon_iff.1 h
  obtain ⟨h1, h2⟩ := hb.insert hr.pos hr.off hr.len hd
  refine ⟨⟨?_, ?_, ?_⟩, ?_⟩
  · rw [tree_avlinsert]
    exact h1
  · rw [avlinsert_eq, List.reverse_reverse]
    exact hg.filter _
  · rw [avlinsert_eq]
    exact hg.filter _
  · rw [tree_avlinsert]
    exact cover_insert h2

/-! ## Taking a range out -/

/-- What stands in a node's place, from its start to its end, is in order with the others. -/
theorem ordered_within (h : Canon n.tree) {k : List Rng} (hk : Ordered k)
    (hin : ∀ r ∈ k, n.r.off ≤ r.off ∧ r.off ≤ n.r.stop) :
    Ordered (n.lo.reverse ++ (k ++ n.hi)) := by
  obtain ⟨-, hg⟩ := canon_iff.1 h
  obtain ⟨hlo, hrhi, hlt⟩ := ordered_append.1 h.ordered
  obtain ⟨-, hghi, -⟩ := gaps_append.1 hg
  refine ordered_append.2 ⟨hlo, ordered_append.2 ⟨hk, (ordered_cons.1 hrhi).2, ?_⟩, ?_⟩
  · intro r hr r' hr'
    exact (hin r hr).2.trans_lt ((gaps_cons.1 hghi).1 r' hr')
  · intro r hr r' hr'
    rcases List.mem_append.1 hr' with hr' | hr'
    · exact (hlt r hr n.r List.mem_cons_self).trans_le (hin r' hr').1
    · exact hlt r hr r' (List.mem_cons_of_mem _ hr')

theorem trim_set : (n.set r).trim = n.lo.reverse ++ (keep r ++ n.hi) := by
  unfold Node.trim keep
  show (if r.len = 0 then _ else _) = _
  split_ifs
  · rfl
  · rfl

theorem ordered_set (h : Canon n.tree) (hr : n.r.off ≤ r.off ∧ r.off ≤ n.r.stop) :
    Ordered (n.set r).tree :=
  ordered_within (k := [r]) h (List.pairwise_singleton _ _) (by simpa using hr)

/-- A range cut off a canonical tree. -/
theorem Canon.cut (h : Canon n.tree) (ha : Whole a) (h1 : n.r.off ≤ a.off)
    (h2 : a.stop ≤ n.r.stop) : Canon (n.lo.reverse ++ (cut a n.r ++ n.hi))
      ∧ cover (n.lo.reverse ++ (cut a n.r ++ n.hi)) = cover n.tree \ a.bytes := by
  obtain ⟨hb, hg⟩ := canon_iff.1 h
  obtain ⟨h3, h4, -⟩ := hb.cut ha.pos ha.off ha.len h1 h2
  exact ⟨canon_iff.2 ⟨h3, hg.cut ha.pos h1 h2⟩, h4⟩

theorem avlinsert_first {hi : List Rng} (h : Ordered (r :: hi)) : (avlinsert hi r).tree = r :: hi := by
  have hlt := (ordered_cons.1 h).1
  rw [tree_avlinsert, List.filter_eq_nil_iff.2, List.filter_eq_self.2]
  · rfl
  · simpa using hlt
  · intro x hx
    have := hlt x hx
    simp only [decide_eq_true_eq]
    omega

theorem cut_front {cur : Rng} (h : a.off = cur.off) (h2 : a.stop ≤ cur.stop) :
    cut a cur = keep ⟨a.stop, cur.stop - a.stop⟩ := by
  unfold cut keep
  rw [if_neg (by omega), List.nil_append]
  by_cases hlt : a.stop < cur.stop
  · rw [if_pos hlt, if_neg (by simp only []; omega)]
  · rw [if_neg hlt, if_pos (by simp only []; omega)]

theorem cut_back {cur : Rng} (h : a.stop = cur.stop) (h1 : cur.off ≤ a.off) :
    cut a cur = keep ⟨cur.off, a.off - cur.off⟩ := by
  unfold cut keep
  rw [if_neg (by omega : ¬ a.stop < cur.stop), List.append_nil]
  by_cases hlt : cur.off < a.off
  · rw [if_pos hlt, if_neg (by simp only []; omega)]
  · rw [if_neg hlt, if_pos (by simp only []; omega)]

theorem grab_spec (h : Canon n.tree) (hp : 0 < a.len) (h1 : n.r.off ≤ a.off)
    (h2 : a.stop ≤ n.r.stop) : ∃ n', grab n a.off a.len = some n' ∧ Ordered n'.tree
      ∧ n'.trim = n.lo.reverse ++ (cut a n.r ++ n.hi) := by
  have ha : a.stop = a.off + a.len := rfl
  have hr : n.r.stop = n.r.off + n.r.len := rfl
  unfold grab
  simp only []
  rw [if_neg (by omega)]
  split_ifs with h3 h4 h5
  · refine ⟨_, rfl, ordered_set h ⟨by simp only []; omega, by simp only []; omega⟩, ?_⟩
    rw [trim_set, cut_front h3 h2, ha, hr, h3, add_sub_add_left_eq_sub]
  · refine ⟨_, rfl, ordered_set h ⟨le_rfl, by simp only []; omega⟩, ?_⟩
    rw [trim_set, cut_back (by omega) h1, show n.r.len - a.len = a.off - n.r.off by omega]
  · -- what is left behind the range goes between the node and the next one
    obtain ⟨hlo, hrhi⟩ := gaps_append.1 (canon_iff.1 h).2
    have hnext := (gaps_cons.1 hrhi.1).1
    have hhi := (ordered_cons.1 (ordered_append.1 h.ordered).2.1).2
    have hs : Ordered (⟨a.off + a.len, n.r.len - (a.off - n.r.off) - a.len⟩ :: n.hi) := by
      refine ordered_cons.2 ⟨fun y hy => ?_, hhi⟩
      have := hnext y hy
      simp only []
      omega
    rw [avlinsert_first hs]
    refine ⟨_, rfl, ?_, ?_⟩
    · refine ordered_within (k := [⟨n.r.off, a.off - n.r.off⟩,
        ⟨a.off + a.len, n.r.len - (a.off - n.r.off) - a.len⟩]) h ?_ ?_
      · refine ordered_cons.2 ⟨?_, List.pairwise_singleton _ _⟩
        simp only [List.mem_singleton, forall_eq]
        omega
      · simp only [List.mem_cons, List.not_mem_nil, or_false, forall_eq_or_imp, forall_eq]
        omega
    · unfold Node.trim Ranges.cut
      simp only [ha, hr]
      rw [if_neg (by omega), if_pos h5.1, if_pos h5.2,
        show n.r.len - (a.off - n.r.off) - a.len = n.r.off + n.r.len - (a.off + a.len) by ring]
      rfl
  · omega

theorem avllookup_of_nil {q : Rng} (h : (t.filter (·.off ≤ q.off)).reverse = []) :
    avllookup t q (-1) = none := by
  unfold avllookup
  simp only [rangecmp_nonpos, h]

theorem avllookup_of_cons {q : Rng} {lo : List Rng}
    (h : (t.filter (·.off ≤ q.off)).reverse = r :: lo) :
    avllookup t q (-1) = some ⟨lo, r, t.filter (q.off < ·.off)⟩ := by
  unfold avllookup
  simp only [rangecmp_nonpos, rangecmp_pos, h]
  rw [if_pos (.inr (by decide))]

/-- A range that one of the tree holds is taken out of it. -/
theorem grabNode_spec (h : Canon t) (ha : Whole a) (hc : ∃ r ∈ t, a.bytes ⊆ r.bytes) :
    ∃ n, grabNode t a.off a.len = some n ∧ Ordered n.tree ∧ Canon n.trim
      ∧ cover n.trim = cover t \ a.bytes ∧ Ranges.grab a t = some n.trim := by
  have hc' : ∃ r ∈ t, r.off ≤ a.off ∧ a.stop ≤ r.stop := by
    obtain ⟨r, hr, hsub⟩ := hc
    have hlt : a.off < a.stop := by
      have := ha.pos
      rw [Rng.stop]
      omega
    exact ⟨r, hr, (Set.Ico_subset_Ico_iff hlt).1 hsub⟩
  obtain ⟨lo, c, hrev, h1, h2, hsplit⟩ := (canon_iff.1 h).1.grab_eq ha.pos hc'
  have hn : Canon (⟨lo, c, t.filter (a.off < ·.off)⟩ : Node).tree := by
    rw [Node.tree, ← hsplit]
    exact h
  obtain ⟨n', hgrab, hord, htrim⟩ := grab_spec hn ha.pos h1 h2
  obtain ⟨hcan, hcov⟩ := hn.cut ha h1 h2
  refine ⟨n', ?_, hord, ?_, ?_, ?_⟩
  · unfold grabNode
    rw [if_neg (by simpa using Int.emod_eq_zero_of_dvd ha.len), avllookup_of_cons hrev]
    exact hgrab
  · rw [htrim]
    exact hcan
  · rw [htrim, hcov]
    exact congrArg (cover · \ a.bytes) hsplit.symm
  · unfold Ranges.grab
    rw [htrim, hrev]
    dsimp only
    rw [if_neg (by omega)]

theorem grabrange_none (hc : ¬ ∃ r ∈ t, a.bytes ⊆ r.bytes) :
    grabrange t a.off a.len = none := by
  unfold grabrange grabNode
  split_ifs with hm
  · rfl
  rcases hrev : (t.filter (·.off ≤ a.off)).reverse with _ | ⟨r, lo⟩
  · rw [avllookup_of_nil hrev]
    rfl
  have hr : r ∈ t ∧ r.off ≤ a.off := by
    have : r ∈ t.filter (·.off ≤ a.off) := by
      rw [← List.mem_reverse, hrev]
      exact List.mem_cons_self
    simpa using List.mem_filter.1 this
  have hlt : r.off + r.len < a.off + a.len := by
    by_contra hge
    exact hc ⟨r, hr.1, Set.Ico_subset_Ico hr.2 (not_lt.1 hge)⟩
  have hn : grab ⟨lo, r, t.filter (a.off < ·.off)⟩ a.off a.len = none := if_pos hlt
  rw [avllookup_of_cons hrev, Option.bind_some, hn]
  rfl

/-- The operation on the list of ranges is the one on the tree. -/
theorem grabrange_eq (h : Canon t) (ha : Whole a) (hc : ∃ r ∈ t, a.bytes ⊆ r.bytes) :
    grabrange t a.off a.len = Server.grabrange t a.off a.len := by
  obtain ⟨n, h1, -, -, -, h2⟩ := grabNode_spec h ha hc
  unfold grabrange Server.grabrange
  rw [h1, if_neg (by simpa using Int.emod_eq_zero_of_dvd ha.len)]
  exact h2.symm

/-! ## Taking a block -/

/-- `x` is the block at one end of the tree. -/
def AtEnd (t : List Rng) (seq : Bool) (x : ℤ) : Prop :=
  ∀ y ∈ cover t, if seq then x ≤ y else y < x + 16384

theorem Whole.le_len (h : Whole r) : 16384 ≤ r.len := Int.le_of_dvd h.pos h.len

theorem takeBlk_spec (h : Canon t) (hne : t ≠ []) (seq : Bool) :
    ∃ x n, takeBlk t seq = some (x, n) ∧ Ordered n.tree ∧ Whole (blkRng x)
      ∧ (blkRng x).bytes ⊆ cover t ∧ AtEnd t seq x ∧ Canon n.trim
      ∧ cover n.trim = cover t \ (blkRng x).bytes := by
  cases seq with
  | true =>
    obtain ⟨r, hi, rfl⟩ := List.exists_cons_of_ne_nil hne
    have hn : Canon (⟨[], r, hi⟩ : Node).tree := h
    have hr := h.whole r List.mem_cons_self
    have hlen := hr.le_len
    have hw : Whole (blkRng r.off) := ⟨by norm_num, hr.off, dvd_refl _⟩
    have hle : (blkRng r.off).stop ≤ r.stop := by
      simp only [Rng.stop]
      omega
    obtain ⟨h1, h2⟩ := hn.cut hw le_rfl hle
    have htrim : ((⟨[], r, hi⟩ : Node).set ⟨r.off + 16384, r.len - 16384⟩).trim
        = [] ++ (cut (blkRng r.off) r ++ hi) := by
      rw [trim_set, cut_front (show (blkRng r.off).off = r.off from rfl) hle, Rng.stop, Rng.stop,
        add_sub_add_left_eq_sub]
      rfl
    refine ⟨_, _, rfl, ?_, hw, ?_, ?_, ?_, ?_⟩
    · refine ordered_set hn ⟨?_, ?_⟩
      · simp only []
        omega
      · simpa only [Rng.stop] using hle
    · exact fun y hy => ⟨r, List.mem_cons_self, hy.1, hy.2.trans_le hle⟩
    · rintro y ⟨r', hr', hy, -⟩
      rcases List.mem_cons.1 hr' with rfl | hr'
      · exact hy
      · exact ((ordered_cons.1 h.ordered).1 r' hr').le.trans hy
    · rw [htrim]
      exact h1
    · rw [htrim]
      exact h2
  | false =>
    obtain ⟨lo, r, rfl⟩ : ∃ lo r, t = List.reverse lo ++ [r] :=
      ⟨t.dropLast.reverse, t.getLast hne, by
        rw [List.reverse_reverse, List.dropLast_append_getLast hne]⟩
    have hn : Canon (⟨lo, r, []⟩ : Node).tree := h
    have hr := h.whole r (by simp)
    have hlen := hr.le_len
    have hw : Whole (blkRng (r.off + (r.len - 16384))) :=
      ⟨by norm_num, dvd_add hr.off (dvd_sub hr.len (dvd_refl _)), dvd_refl _⟩
    have hstop : (blkRng (r.off + (r.len - 16384))).stop = r.stop := by
      simp only [Rng.stop]
      omega
    have hoff : r.off ≤ (blkRng (r.off + (r.len - 16384))).off := by
      simp only []
      omega
    obtain ⟨h1, h2⟩ := hn.cut hw hoff hstop.le
    have htake : takeBlk (lo.reverse ++ [r]) false = some (r.off + (r.len - 16384),
        (⟨lo, r, []⟩ : Node).set ⟨r.off, r.len - 16384⟩) := by
      have hmax : avlmax (lo.reverse ++ [r]) = some ⟨lo, r, []⟩ := by
        unfold avlmax
        simp
      unfold takeBlk
      rw [hmax]
      rfl
    have htrim : ((⟨lo, r, []⟩ : Node).set ⟨r.off, r.len - 16384⟩).trim
        = lo.reverse ++ (cut (blkRng (r.off + (r.len - 16384))) r ++ []) := by
      rw [trim_set, cut_back hstop hoff]
      simp only [add_sub_cancel_left]
    refine ⟨_, _, htake, ?_, hw, ?_, ?_, ?_, ?_⟩
    · refine ordered_set hn ⟨le_rfl, ?_⟩
      simp only [Rng.stop]
      omega
    · exact fun y hy => ⟨r, by simp, hoff.trans hy.1, hy.2.trans_le hstop.le⟩
    · rintro y ⟨r', hr', -, hy⟩
      have hle : r'.stop ≤ r.stop := by
        rcases List.mem_append.1 hr' with hr' | hr'
        · have := (gaps_append.1 (canon_iff.1 h).2).2.2 r' hr' r (by simp)
          simp only [Rng.stop] at this ⊢
          omega
        · obtain rfl := List.mem_singleton.1 hr'
          exact le_rfl
      exact (hy.trans_le hle).trans_eq hstop.symm
    · rw [htrim]
      exact h1
    · rw [htrim]
      exact h2

/-- The operation on the list of ranges is the one on the tree. -/
theorem blkallocLk_eq {a : ArenaSt} (seq : Bool) (hlow : a.low = false) : a.blkallocLk seq
    = match takeBlk a.free seq with
      | none => .error .stuffed
      | some (x, n) => .ok (some x, { a with free := n.trim, used := a.used + 16384 }) := by
  unfold ArenaSt.blkallocLk
  rw [hlow, if_neg Bool.false_ne_true]
  cases seq with
  | true =>
    rcases hf : a.free with _ | ⟨r, hi⟩
    · rfl
    · simp only [takeBlk, avlmin, Option.map_some, trim_set, if_true, List.head?_cons,
        List.tail_cons, List.reverse_nil, List.nil_append]
  | false =>
    rcases hrev : a.free.reverse with _ | ⟨r, lo⟩
    · rw [List.reverse_eq_nil_iff] at hrev
      rw [hrev]
      rfl
    · have hf : a.free = lo.reverse ++ [r] := by
        rw [← List.reverse_reverse a.free, hrev, List.reverse_cons]
      simp only [takeBlk, avlmax, Option.map_some, trim_set, Bool.false_eq_true, if_false, hf,
        List.getLast?_append, List.getLast?_singleton, Option.some_or, List.dropLast_concat,
        List.reverse_append, List.reverse_reverse, List.reverse_singleton, List.singleton_append,
        List.append_nil]

theorem blkallocLk_canon {a : ArenaSt} (h : Canon a.free) (hlow : a.low = false)
    (hne : a.free ≠ []) (seq : Bool) : ∃ x n, takeBlk a.free seq = some (x, n) ∧ Ordered n.tree
      ∧ a.blkallocLk seq = .ok (some x, { a with free := n.trim, used := a.used + 16384 })
      ∧ Whole (blkRng x) ∧ (blkRng x).bytes ⊆ cover a.free ∧ AtEnd a.free seq x
      ∧ Canon n.trim ∧ cover n.trim = cover a.free \ (blkRng x).bytes := by
  obtain ⟨x, n, htake, hord, hrest⟩ := takeBlk_spec h hne seq
  refine ⟨x, n, htake, hord, ?_, hrest⟩
  rw [blkallocLk_eq seq hlow, htake]

/-- What a log that grows takes from the tree. -/
theorem logappend_canon {a a' : ArenaSt} {q : LogReq} (h : Canon a.free)
    (heq : a.logappend q = .ok (true, a')) : Canon a'.free ∧ cover a'.free ⊆ cover a.free := by
  unfold ArenaSt.logappend at heq
  simp only [] at heq
  split_ifs at heq with hq hroom
  · rcases hl : Server.logappend (Int64.ofInt a.lo) (Int64.ofInt (a.lo + a.size + 32768)) none
      a.log q with _ | l <;> rw [hl] at heq <;> cases heq
    exact ⟨h, subset_rfl⟩
  · rcases hlow : a.low with _ | _
    · by_cases hne : a.free = []
      · have hblk : a.blkallocLk false = .error .stuffed := by
          rw [blkallocLk_eq false hlow, hne]
          rfl
        rw [hblk] at heq
        cases heq
      · obtain ⟨x, n, -, -, hblk, -, -, -, hcan, hcov⟩ := blkallocLk_canon h hlow hne false
        simp only [hblk, bind, Except.bind] at heq
        rcases hl : Server.logappend (Int64.ofInt a.lo) (Int64.ofInt (a.lo + a.size + 32768))
          (some (Int64.ofInt x)) a.log q with _ | l <;> rw [hl] at heq <;> cases heq
        refine ⟨hcan, ?_⟩
        show cover n.trim ⊆ _
        rw [hcov]
        exact Set.sdiff_subset
    · have hblk : a.blkallocLk false = .ok (none, a) := by
        unfold ArenaSt.blkallocLk
        rw [hlow, if_pos rfl]
      rw [hblk] at heq
      cases heq

theorem freerange_canon (h : Canon t) (hr : Whole r) (hd : Disjoint r.bytes (cover t)) :
    ∃ t', freerange t r.off r.len = some t' ∧ Canon t' ∧ cover t' = cover t ∪ r.bytes := by
  obtain ⟨hnear, hcov⟩ := near_avlinsert h hr hd
  obtain ⟨hrun, hend⟩ := rounds_coalesce (avlinsert t r)
  obtain ⟨h1, h2⟩ := hnear.rounds hrun
  refine ⟨(coalesce (avlinsert t r)).tree, ?_, canon_iff.2 ⟨h1.blocky, h1.gaps hend⟩, h2.trans hcov⟩
  have hnew : t.any (·.off = r.off) = false := by
    rw [List.any_eq_false]
    intro r' hr'
    have hp := (h.whole r' hr').pos
    have hrp := hr.pos
    simp only [decide_eq_true_eq]
    intro he
    have hx : r.off ∈ r.bytes := ⟨le_rfl, by rw [Rng.stop]; omega⟩
    exact Set.disjoint_left.1 hd hx ⟨r', hr', he.le, by rw [Rng.stop]; omega⟩
  unfold freerange
  rw [avllookup_zero h.ordered, hnew, if_neg]
  simpa using Int.emod_eq_zero_of_dvd hr.len

/-! ## The operations -/

/-- What the operations do to a tree in canonical shape: the shape stays, the set of free bytes
changes by the range or the block, the tree is in order whenever a key was changed, and a range that
does not lie in one range is not taken out. -/
theorem freeTree_canon (h : Canon t) :
    (WellFounded fun n' n => again n = some n')
    ∧ (∀ r, Whole r → Disjoint r.bytes (cover t) →
        (∀ n, Rounds (avlinsert t r) n → Ordered n.tree)
          ∧ ∃ t', freerange t r.off r.len = some t' ∧ Canon t' ∧ cover t' = cover t ∪ r.bytes)
    ∧ (∀ r, Whole r → (∃ r' ∈ t, r.bytes ⊆ r'.bytes) →
        ∃ n, grabNode t r.off r.len = some n ∧ Ordered n.tree
          ∧ grabrange t r.off r.len = some n.trim
          ∧ Canon n.trim ∧ cover n.trim = cover t \ r.bytes)
    ∧ (∀ r, Whole r → ¬ (∃ r' ∈ t, r.bytes ⊆ r'.bytes) → grabrange t r.off r.len = none)
    ∧ (∀ (a : ArenaSt) seq, a.free = t → a.low = false → t ≠ [] →
        ∃ x n, takeBlk t seq = some (x, n) ∧ Ordered n.tree
          ∧ a.blkallocLk seq = .ok (some x, { a with free := n.trim, used := a.used + 16384 })
          ∧ Whole (blkRng x) ∧ (blkRng x).bytes ⊆ cover t ∧ AtEnd t seq x
          ∧ Canon n.trim ∧ cover n.trim = cover t \ (blkRng x).bytes)
    ∧ ∀ (a a₁ : ArenaSt) x, a.free = t → 16384 ∣ x → Disjoint (blkRng x).bytes (cover t) →
        a.logappend (.free (vlong x) 16384) = .ok (true, a₁) →
        ∃ a', a.blkdeallocLk x = .ok (true, a') ∧ Canon a'.free
          ∧ cover a'.free = cover a₁.free ∪ (blkRng x).bytes := by
  refine ⟨wellFounded_again, fun r hr hd => ⟨fun n hn => ?_, freerange_canon h hr hd⟩, ?_,
    fun r _ => grabrange_none, ?_, ?_⟩
  · exact ordered_of_blocky ((near_avlinsert h hr hd).1.rounds hn).1.blocky
  · intro r hr hc
    obtain ⟨n, h1, h2, h3, h4, -⟩ := grabNode_spec h hr hc
    refine ⟨n, h1, h2, ?_, h3, h4⟩
    rw [grabrange, h1]
    rfl
  · rintro a seq rfl hlow hne
    exact blkallocLk_canon h hlow hne seq
  · rintro a a₁ x rfl hx hd heq
    obtain ⟨h1, h2⟩ := logappend_canon h heq
    have hw : Whole (blkRng x) := ⟨by norm_num, hx, dvd_refl _⟩
    obtain ⟨t', ht', hcan, hcov⟩ := freerange_canon h1 hw (hd.mono_right h2)
    rw [freerange_eq h1.ordered] at ht'
    refine ⟨{ a₁ with free := t', used := a₁.used - 16384 }, ?_, hcan, hcov⟩
    simp only [ArenaSt.blkdeallocLk, heq, bind, Except.bind, if_true, ht']
    rfl

/-- Two blocks with one between them. -/
theorem canon_two : Canon [⟨0, 16384⟩, ⟨32768, 16384⟩] := by
  refine canon_iff.2 ⟨⟨by decide, by decide, by decide, ?_⟩, ?_⟩ <;>
    exact List.pairwise_pair.2 (by decide)

theorem freeTree_canon_two :
    ∃ t', freerange [⟨0, 16384⟩, ⟨32768, 16384⟩] 16384 16384 = some t' ∧ Canon t'
      ∧ cover t' = cover [⟨0, 16384⟩, ⟨32768, 16384⟩] ∪ (⟨16384, 16384⟩ : Rng).bytes := by
  have hd : Disjoint (⟨16384, 16384⟩ : Rng).bytes (cover [⟨0, 16384⟩, ⟨32768, 16384⟩]) := by
    refine Set.disjoint_left.2 ?_
    rintro x ⟨h1, h2⟩ ⟨r, hr, h3, h4⟩
    simp only [Rng.stop] at h1 h2 h4
    rcases List.mem_cons.1 hr with rfl | hr
    · simp only [] at h4
      omega
    · obtain rfl := List.mem_singleton.1 hr
      simp only [] at h3
      omega
  exact ((freeTree_canon canon_two).2.1 ⟨16384, 16384⟩ ⟨by decide, by decide, by decide⟩ hd).2

end GefsFuse.Server.FreeTree
