import Mathlib

/-!
# Lists of ranges

A set of numbers kept as a list of ranges that do not overlap (`Exact`). A range is put in front,
and one is carved out of the first range that holds it, which leaves at most two pieces of that
one. Carving takes as much off the total as the range is long (`total_carve`), so a list that kept
more than it should have is never exact again (`Exact.total`).

A sorted list of whole blocks (`Blocky`) is kept otherwise: a range put in is joined to those it
touches (`put`), and one is taken out of the range it lies in (`grab`).

Numbered ranges that do not overlap are together no longer than the space they lie in
(`sum_le_of_apart`).
-/

namespace Ranges

structure Rng where
  off : ℤ
  len : ℤ
  deriving DecidableEq

namespace Rng

def stop (r : Rng) : ℤ := r.off + r.len

def bytes (r : Rng) : Set ℤ := Set.Ico r.off r.stop

theorem mem_bytes {r : Rng} {x : ℤ} : x ∈ r.bytes ↔ r.off ≤ x ∧ x < r.stop := Iff.rfl

end Rng

/-- What is left of `cur` without `a`. -/
def cut (a cur : Rng) : List Rng :=
  (if cur.off < a.off then [⟨cur.off, a.off - cur.off⟩] else [])
    ++ (if a.stop < cur.stop then [⟨a.stop, cur.stop - a.stop⟩] else [])

/-- `a` out of the first range that holds it; none where no range does. -/
def carve (a : Rng) : List Rng → Option (List Rng)
  | [] => none
  | cur :: rest =>
    if cur.off ≤ a.off ∧ a.stop ≤ cur.stop then some (cut a cur ++ rest)
    else (carve a rest).map (cur :: ·)

def total (rs : List Rng) : ℤ := (rs.map (·.len)).sum

/-- `rs` is `s`, cut into ranges that are not empty. -/
structure Exact (rs : List Rng) (s : Set ℤ) : Prop where
  pos : ∀ r ∈ rs, 0 < r.len
  disjoint : rs.Pairwise fun r r' => Disjoint r.bytes r'.bytes
  cover : ∀ x, x ∈ s ↔ ∃ r ∈ rs, x ∈ r.bytes

variable {a r cur : Rng} {rs rs' : List Rng} {s : Set ℤ}

theorem mem_cut : r ∈ cut a cur ↔ cur.off < a.off ∧ r = ⟨cur.off, a.off - cur.off⟩
    ∨ a.stop < cur.stop ∧ r = ⟨a.stop, cur.stop - a.stop⟩ := by
  unfold cut
  rw [List.mem_append]
  refine or_congr ?_ ?_ <;> split_ifs with h <;> simp [h]

/-- The pieces hold what `cur` holds and `a` does not. -/
theorem bytes_cut (h : cur.off ≤ a.off) (h' : a.stop ≤ cur.stop) (hp : 0 < a.len) {x : ℤ} :
    (∃ r ∈ cut a cur, x ∈ r.bytes) ↔ x ∈ cur.bytes ∧ x ∉ a.bytes := by
  have ha : a.stop = a.off + a.len := rfl
  simp only [mem_cut, Rng.mem_bytes]
  constructor
  · rintro ⟨r, ⟨hlt, rfl⟩ | ⟨hlt, rfl⟩, hx⟩
    · simp only [Rng.stop] at hx h' ⊢
      omega
    · simp only [Rng.stop] at hx hlt ⊢
      omega
  · rintro ⟨hx, hxa⟩
    by_cases hlt : x < a.off
    · exact ⟨_, .inl ⟨by omega, rfl⟩, hx.1, by simp only [Rng.stop]; omega⟩
    · refine ⟨_, .inr ⟨by omega, rfl⟩, by dsimp only; omega, ?_⟩
      rw [Rng.stop]
      dsimp only
      omega

theorem pos_cut : ∀ r ∈ cut a cur, 0 < r.len := by
  intro r hr
  rcases mem_cut.1 hr with ⟨hlt, rfl⟩ | ⟨hlt, rfl⟩ <;> (dsimp only; omega)

theorem disjoint_cut (hp : 0 < a.len) :
    (cut a cur).Pairwise fun r r' => Disjoint r.bytes r'.bytes := by
  unfold cut
  split_ifs
  · refine List.pairwise_pair.2 (Set.disjoint_left.2 fun x hx hx' => ?_)
    simp only [Rng.mem_bytes, Rng.stop] at hx hx'
    omega
  · exact List.pairwise_singleton _ _
  · exact List.pairwise_singleton _ _
  · exact List.Pairwise.nil

@[simp] theorem total_nil : total [] = 0 := rfl

@[simp] theorem total_cons : total (r :: rs) = r.len + total rs := by simp [total]

theorem total_append : total (rs ++ rs') = total rs + total rs' := by simp [total]

theorem total_cut (h : cur.off ≤ a.off) (h' : a.stop ≤ cur.stop) :
    total (cut a cur) + a.len = cur.len := by
  have ha : a.stop = a.off + a.len := rfl
  have hc : cur.stop = cur.off + cur.len := rfl
  unfold cut
  rw [total_append]
  split_ifs <;> simp only [total_cons, total_nil] <;> omega

/-- Carving takes the length of the range off the total. -/
theorem total_carve : ∀ {rs rs' : List Rng}, carve a rs = some rs' → total rs' + a.len = total rs
  | cur :: rest, rs', h => by
    unfold carve at h
    split_ifs at h with hc
    · obtain rfl := Option.some.inj h
      have := total_cut hc.1 hc.2
      rw [total_append, total_cons]
      omega
    · obtain ⟨rs1, h1, rfl⟩ := Option.map_eq_some_iff.1 h
      have := total_carve h1
      rw [total_cons, total_cons]
      omega

theorem carve_isSome : (carve a rs).isSome ↔ ∃ cur ∈ rs, cur.off ≤ a.off ∧ a.stop ≤ cur.stop := by
  induction rs with
  | nil => simp [carve]
  | cons cur rest ih =>
    unfold carve
    split_ifs with hc
    · simp [hc]
    · simp [ih, hc]

/-- What is left after carving is what was there, or a piece of it. -/
theorem mem_carve : ∀ {rs rs' : List Rng}, carve a rs = some rs' → ∀ r ∈ rs',
    r ∈ rs ∨ ∃ cur ∈ rs, cur.off ≤ a.off ∧ a.stop ≤ cur.stop ∧ r ∈ cut a cur
  | cur :: rest, rs', h, r, hr => by
    unfold carve at h
    split_ifs at h with hc
    · obtain rfl := Option.some.inj h
      rcases List.mem_append.1 hr with hr | hr
      · exact .inr ⟨cur, List.mem_cons_self, hc.1, hc.2, hr⟩
      · exact .inl (List.mem_cons_of_mem _ hr)
    · obtain ⟨rs1, h1, rfl⟩ := Option.map_eq_some_iff.1 h
      rcases List.mem_cons.1 hr with rfl | hr
      · exact .inl List.mem_cons_self
      · rcases mem_carve h1 r hr with hr | ⟨c, hc, h2⟩
        · exact .inl (List.mem_cons_of_mem _ hr)
        · exact .inr ⟨c, List.mem_cons_of_mem _ hc, h2⟩

/-! ## Exact lists -/

theorem exact_nil : Exact [] ∅ := ⟨by simp, List.Pairwise.nil, by simp⟩

/-- A range put in front of a list that has nothing of it. -/
theorem Exact.cons (h : Exact rs s) (hp : 0 < r.len) (hd : Disjoint r.bytes s) :
    Exact (r :: rs) (s ∪ r.bytes) := by
  refine ⟨?_, List.pairwise_cons.2 ⟨?_, h.disjoint⟩, ?_⟩
  · intro r' hr
    rcases List.mem_cons.1 hr with rfl | hr
    · exact hp
    · exact h.pos r' hr
  · intro r' hr
    refine Set.disjoint_left.2 fun x hx hx' => ?_
    exact Set.disjoint_left.1 hd hx ((h.cover x).2 ⟨r', hr, hx'⟩)
  · intro x
    rw [Set.mem_union, h.cover, or_comm]
    simp

theorem Exact.tail (h : Exact (r :: rs) s) : Exact rs (s \ r.bytes) := by
  obtain ⟨hr, hd⟩ := List.pairwise_cons.1 h.disjoint
  refine ⟨fun r' hr' => h.pos r' (List.mem_cons_of_mem _ hr'), hd, fun x => ?_⟩
  rw [Set.mem_sdiff, h.cover]
  constructor
  · rintro ⟨⟨r', hr', hx⟩, hn⟩
    rcases List.mem_cons.1 hr' with rfl | hr'
    · exact absurd hx hn
    · exact ⟨r', hr', hx⟩
  · rintro ⟨r', hr', hx⟩
    exact ⟨⟨r', List.mem_cons_of_mem _ hr', hx⟩,
      fun hn => Set.disjoint_left.1 (hr r' hr') hn hx⟩

/-- Carving takes the range out of the set. -/
theorem Exact.carve (hp : 0 < a.len) : ∀ {rs rs' : List Rng} {s : Set ℤ}, Exact rs s →
    carve a rs = some rs' → Exact rs' (s \ a.bytes)
  | cur :: rest, rs', s, h, hc => by
    have hrest := h.tail
    obtain ⟨hcur, -⟩ := List.pairwise_cons.1 h.disjoint
    unfold Ranges.carve at hc
    split_ifs at hc with hin
    · obtain rfl := Option.some.inj hc
      have hb := fun x => @bytes_cut a cur hin.1 hin.2 hp x
      refine ⟨?_, List.pairwise_append.2 ⟨disjoint_cut hp, hrest.disjoint, ?_⟩, ?_⟩
      · intro r hr
        rcases List.mem_append.1 hr with hr | hr
        · exact pos_cut r hr
        · exact hrest.pos r hr
      · intro r hr r' hr'
        refine Set.disjoint_left.2 fun x hx hx' => ?_
        exact Set.disjoint_left.1 (hcur r' hr') ((hb x).1 ⟨r, hr, hx⟩).1 hx'
      · intro x
        have hsub : x ∈ a.bytes → x ∈ cur.bytes := by
          rw [Rng.mem_bytes, Rng.mem_bytes]
          omega
        have hout : x ∈ cur.bytes → ¬ ∃ r ∈ rest, x ∈ r.bytes := fun hx ⟨r, hr, hxr⟩ =>
          Set.disjoint_left.1 (hcur r hr) hx hxr
        simp only [List.mem_append, or_and_right, exists_or, hb]
        rw [Set.mem_sdiff, h.cover]
        simp only [List.mem_cons, exists_eq_or_imp]
        generalize (∃ r ∈ rest, x ∈ r.bytes) = left at hout
        tauto
    · obtain ⟨rs1, h1, rfl⟩ := Option.map_eq_some_iff.1 hc
      have ih := Exact.carve hp hrest h1
      -- `a` lies in a range behind `cur`
      have hapart : ∀ x ∈ a.bytes, x ∉ cur.bytes := by
        obtain ⟨c, hcm, hca⟩ := carve_isSome.1 (by rw [h1]; rfl)
        intro x hx hxc
        refine Set.disjoint_left.1 (hcur c hcm) hxc ?_
        rw [Rng.mem_bytes] at hx ⊢
        omega
      have hs : s \ a.bytes = (s \ cur.bytes) \ a.bytes ∪ cur.bytes := by
        ext x
        have hin : x ∈ cur.bytes → x ∈ s := fun hx => (h.cover x).2 ⟨cur, List.mem_cons_self, hx⟩
        have := hapart x
        simp only [Set.mem_sdiff, Set.mem_union]
        tauto
      rw [hs]
      refine ih.cons (h.pos cur List.mem_cons_self) ?_
      refine Set.disjoint_left.2 fun x hx hx' => hx'.1.2 hx

/-- The total of an exact list is the size of its set. -/
theorem Exact.total : ∀ {rs : List Rng} {s : Set ℤ}, Exact rs s →
    s.Finite ∧ Ranges.total rs = s.ncard
  | [], s, h => by
    have hs : s = ∅ := by
      ext x
      rw [h.cover]
      simp
    rw [hs]
    exact ⟨Set.finite_empty, by simp⟩
  | r :: rs, s, h => by
    obtain ⟨hfin, ht⟩ := Exact.total h.tail
    have hsub : r.bytes ⊆ s := fun x hx => (h.cover x).2 ⟨r, List.mem_cons_self, hx⟩
    have hr : r.bytes.Finite := Set.finite_Ico _ _
    have hcard : (r.bytes.ncard : ℤ) = r.len := by
      have hp := h.pos r List.mem_cons_self
      rw [Rng.bytes, Set.ncard_eq_toFinset_card', Set.toFinset_Ico, Int.card_Ico, Rng.stop]
      omega
    have hs : s = s \ r.bytes ∪ r.bytes := (Set.sdiff_union_of_subset hsub).symm
    refine ⟨by rw [hs]; exact hfin.union hr, ?_⟩
    rw [total_cons, ht, ← hcard, ← Set.ncard_sdiff_add_ncard_of_subset hsub (by
      rw [hs]; exact hfin.union hr)]
    push_cast
    ring

/-! ## Sorted lists -/

/-- The numbers in the ranges. -/
def cover (rs : List Rng) : Set ℤ := {x | ∃ r ∈ rs, x ∈ r.bytes}

/-- Ranges of whole blocks of `b` numbers in ascending order, none empty. -/
structure Blocky (b : ℤ) (rs : List Rng) : Prop where
  pos : ∀ r ∈ rs, 0 < r.len
  off : ∀ r ∈ rs, b ∣ r.off
  len : ∀ r ∈ rs, b ∣ r.len
  sorted : rs.Pairwise fun r r' => r.stop ≤ r'.off

/-- `r` before the ranges `hi`, joined to the next ones where it touches them. -/
def joinNext (r : Rng) : List Rng → List Rng
  | [] => [r]
  | s :: hi => if r.stop = s.off then joinNext ⟨r.off, r.len + s.len⟩ hi else r :: s :: hi

/-- `r` between the ranges `lo`, the last first, and `hi`, joined to those it touches. -/
def joinPrev (r : Rng) (hi : List Rng) : List Rng → List Rng
  | [] => joinNext r hi
  | p :: lo =>
    if p.stop = r.off then joinPrev ⟨p.off, p.len + r.len⟩ hi lo
    else (p :: lo).reverse ++ joinNext r hi

/-- `r` put into a sorted list. -/
def put (r : Rng) (rs : List Rng) : List Rng :=
  joinPrev r (rs.filter (r.off < ·.off)) (rs.filter (·.off < r.off)).reverse

/-- `a` taken out of the last range of a sorted list that does not start behind it; none where it
does not end there. -/
def grab (a : Rng) (rs : List Rng) : Option (List Rng) :=
  match (rs.filter (·.off ≤ a.off)).reverse with
  | [] => none
  | cur :: lo =>
    if cur.stop < a.stop then none
    else some (lo.reverse ++ (cut a cur ++ rs.filter (a.off < ·.off)))

section Blocky

variable {b : ℤ} {l m rs : List Rng} {p r a cur : Rng}

theorem mem_cover {x : ℤ} : x ∈ cover rs ↔ ∃ r ∈ rs, x ∈ r.bytes := Iff.rfl

@[simp] theorem cover_nil : cover [] = ∅ := by
  ext x
  simp [mem_cover]

theorem cover_append : cover (l ++ m) = cover l ∪ cover m := by
  ext x
  simp only [mem_cover, List.mem_append, Set.mem_union, or_and_right, exists_or]

theorem cover_cons : cover (r :: rs) = r.bytes ∪ cover rs := by
  ext x
  simp [mem_cover]

theorem blocky_append : Blocky b (l ++ m)
    ↔ Blocky b l ∧ Blocky b m ∧ ∀ r ∈ l, ∀ r' ∈ m, r.stop ≤ r'.off := by
  constructor
  · rintro ⟨h1, h2, h3, h4⟩
    simp only [List.mem_append, or_imp, forall_and] at h1 h2 h3
    obtain ⟨h4, h5, h6⟩ := List.pairwise_append.1 h4
    exact ⟨⟨h1.1, h2.1, h3.1, h4⟩, ⟨h1.2, h2.2, h3.2, h5⟩, h6⟩
  · rintro ⟨⟨h1, h2, h3, h4⟩, ⟨h5, h6, h7, h8⟩, h9⟩
    refine ⟨?_, ?_, ?_, List.pairwise_append.2 ⟨h4, h8, h9⟩⟩ <;>
      simp only [List.mem_append, or_imp, forall_and]
    exacts [⟨h1, h5⟩, ⟨h2, h6⟩, ⟨h3, h7⟩]

theorem blocky_cons : Blocky b (r :: rs)
    ↔ (0 < r.len ∧ b ∣ r.off ∧ b ∣ r.len) ∧ Blocky b rs ∧ ∀ r' ∈ rs, r.stop ≤ r'.off := by
  rw [← List.singleton_append, blocky_append]
  refine and_congr ⟨fun h => ⟨h.pos r (by simp), h.off r (by simp), h.len r (by simp)⟩, ?_⟩ ?_
  · rintro ⟨h1, h2, h3⟩
    refine ⟨?_, ?_, ?_, List.pairwise_singleton _ _⟩ <;> simpa
  · simp

theorem Blocky.exact (h : Blocky b rs) : Exact rs (cover rs) := by
  refine ⟨h.pos, ?_, fun x => Iff.rfl⟩
  refine h.sorted.imp fun {r r'} hle => Set.disjoint_left.2 fun x hx hx' => ?_
  rw [Rng.mem_bytes] at hx hx'
  omega

/-- Two ranges that touch are one. -/
theorem Blocky.join (h : Blocky b (l ++ p :: r :: m)) (hj : p.stop = r.off) :
    Blocky b (l ++ ⟨p.off, p.len + r.len⟩ :: m)
      ∧ cover (l ++ ⟨p.off, p.len + r.len⟩ :: m) = cover (l ++ p :: r :: m)
      ∧ total (l ++ ⟨p.off, p.len + r.len⟩ :: m) = total (l ++ p :: r :: m) := by
  obtain ⟨hl, hpm, hlt⟩ := blocky_append.1 h
  obtain ⟨⟨hp, hpo, hpl⟩, hrm, -⟩ := blocky_cons.1 hpm
  obtain ⟨⟨hr, -, hrl⟩, hm, hrlt⟩ := blocky_cons.1 hrm
  have hs : (⟨p.off, p.len + r.len⟩ : Rng).stop = r.stop := by
    simp only [Rng.stop] at hj ⊢
    omega
  refine ⟨blocky_append.2 ⟨hl, blocky_cons.2 ⟨⟨?_, hpo, ?_⟩, hm, ?_⟩, ?_⟩, ?_, ?_⟩
  · dsimp only
    omega
  · exact dvd_add hpl hrl
  · rw [hs]
    exact hrlt
  · intro x hx y hy
    rcases List.mem_cons.1 hy with rfl | hy
    · exact hlt x hx p (by simp)
    · exact hlt x hx y (by simp [hy])
  · have hb : (⟨p.off, p.len + r.len⟩ : Rng).bytes = p.bytes ∪ r.bytes := by
      ext x
      simp only [Rng.mem_bytes, Set.mem_union, hs]
      simp only [Rng.stop] at hj ⊢
      omega
    rw [cover_append, cover_append, cover_cons, cover_cons, cover_cons, hb, Set.union_assoc]
  · simp only [total_append, total_cons]
    ring

/-- From one list to another with the same numbers. -/
def Same (b : ℤ) (l m : List Rng) : Prop :=
  Blocky b l → Blocky b m ∧ cover m = cover l ∧ total m = total l

theorem Same.refl (b : ℤ) (l : List Rng) : Same b l l := fun h => ⟨h, rfl, rfl⟩

theorem Same.trans {n : List Rng} (h : Same b l m) (h' : Same b m n) : Same b l n := by
  intro hl
  obtain ⟨h1, h2, h3⟩ := h hl
  obtain ⟨h4, h5, h6⟩ := h' h1
  exact ⟨h4, h5.trans h2, h6.trans h3⟩

theorem same_join (hj : p.stop = r.off) :
    Same b (l ++ p :: r :: m) (l ++ ⟨p.off, p.len + r.len⟩ :: m) := fun h => h.join hj

theorem same_joinNext : ∀ {hi l : List Rng} {r : Rng}, Same b (l ++ r :: hi) (l ++ joinNext r hi)
  | [], l, r => .refl b _
  | s :: hi, l, r => by
    unfold joinNext
    split_ifs with h
    · exact (same_join h).trans same_joinNext
    · exact .refl b _

theorem same_joinPrev {hi : List Rng} : ∀ {lo : List Rng} {r : Rng},
    Same b (lo.reverse ++ r :: hi) (joinPrev r hi lo)
  | [], r => same_joinNext (l := [])
  | p :: lo, r => by
    unfold joinPrev
    split_ifs with h
    · refine Same.trans ?_ same_joinPrev
      rw [List.reverse_cons, List.append_assoc]
      exact same_join h
    · exact same_joinNext

/-- A sorted list is what starts before a number and what does not. -/
theorem Blocky.split (h : Blocky b rs) (x : ℤ) :
    rs.filter (·.off < x) ++ rs.filter (x ≤ ·.off) = rs := by
  induction rs with
  | nil => rfl
  | cons r rs ih =>
    obtain ⟨⟨hr, -⟩, hrs, hlt⟩ := blocky_cons.1 h
    by_cases hx : r.off < x
    · rw [List.filter_cons_of_pos (by simpa using hx), List.filter_cons_of_neg (by simpa using hx),
        List.cons_append, ih hrs]
    · have hge : ∀ r' ∈ rs, x ≤ r'.off := by
        intro r' hr'
        have := hlt r' hr'
        rw [Rng.stop] at this
        omega
      rw [List.filter_cons_of_neg (by simpa using hx), List.filter_cons_of_pos (by simpa using hx),
        List.filter_eq_nil_iff.2 (by simpa using hge), List.filter_eq_self.2 (by simpa using hge)]
      rfl

/-- Ranges apart from `r` end before it or start behind it. -/
theorem Blocky.apart (h : Blocky b rs) (hp : 0 < r.len) (hd : Disjoint r.bytes (cover rs))
    {r' : Rng} (hr' : r' ∈ rs) : r'.stop ≤ r.off ∨ r.stop ≤ r'.off := by
  have hpos := h.pos r' hr'
  have hx : ∀ x, x ∈ r.bytes → x ∉ r'.bytes := fun x hx hx' =>
    Set.disjoint_left.1 hd hx ⟨r', hr', hx'⟩
  have h1 := hx r.off
  have h2 := hx r'.off
  simp only [Rng.mem_bytes, Rng.stop] at h1 h2 ⊢
  omega

/-- A range put between those before it and those behind it, of ranges apart from it. -/
theorem Blocky.insert (h : Blocky b rs) (hp : 0 < r.len) (ho : b ∣ r.off) (hl : b ∣ r.len)
    (hd : Disjoint r.bytes (cover rs)) :
    Blocky b (rs.filter (·.off < r.off) ++ r :: rs.filter (r.off < ·.off))
      ∧ rs.filter (·.off < r.off) ++ rs.filter (r.off < ·.off) = rs := by
  have hfil : rs.filter (r.off < ·.off) = rs.filter (r.off ≤ ·.off) := by
    refine List.filter_congr fun r' hr' => ?_
    have h1 := h.apart hp hd hr'
    have h2 := h.pos r' hr'
    simp only [Rng.stop] at h1
    simp only [decide_eq_decide]
    omega
  have hsplit := h.split r.off
  rw [← hfil] at hsplit
  obtain ⟨h1, h2, -⟩ := blocky_append.1 (hsplit.symm ▸ h)
  refine ⟨blocky_append.2 ⟨h1, blocky_cons.2 ⟨⟨hp, ho, hl⟩, h2, ?_⟩, ?_⟩, hsplit⟩
  · intro r' hr'
    obtain ⟨hr', hlt⟩ := List.mem_filter.1 hr'
    have h3 := h.apart hp hd hr'
    have h4 := h.pos r' hr'
    simp only [decide_eq_true_eq] at hlt
    simp only [Rng.stop] at h3 ⊢
    omega
  · intro r' hr' x hx
    obtain ⟨hr', hlt⟩ := List.mem_filter.1 hr'
    have h3 := h.apart hp hd hr'
    simp only [decide_eq_true_eq] at hlt
    have h5 : r'.stop ≤ r.off := by
      simp only [Rng.stop] at h3 ⊢
      omega
    rcases List.mem_cons.1 hx with rfl | hx
    · exact h5
    · have := (List.mem_filter.1 hx).2
      simp only [decide_eq_true_eq] at this
      omega

theorem cover_insert (h : l ++ m = rs) : cover (l ++ r :: m) = cover rs ∪ r.bytes := by
  rw [← h, cover_append, cover_append, cover_cons, Set.union_comm r.bytes, Set.union_assoc]

theorem Blocky.put (h : Blocky b rs) (hp : 0 < r.len) (ho : b ∣ r.off) (hl : b ∣ r.len)
    (hd : Disjoint r.bytes (cover rs)) : Blocky b (put r rs)
      ∧ cover (put r rs) = cover rs ∪ r.bytes ∧ total (put r rs) = total rs + r.len := by
  obtain ⟨hgood, hsplit⟩ := h.insert hp ho hl hd
  have hsame := @same_joinPrev b (rs.filter (r.off < ·.off)) (rs.filter (·.off < r.off)).reverse r
  rw [List.reverse_reverse] at hsame
  obtain ⟨h3, h4, h5⟩ := hsame hgood
  refine ⟨h3, h4.trans (cover_insert hsplit), h5.trans ?_⟩
  conv_rhs => rw [← hsplit, total_append]
  rw [total_append, total_cons]
  ring

theorem blocky_cut (hc : b ∣ cur.off ∧ b ∣ cur.len) (hp : 0 < a.len) (ho : b ∣ a.off)
    (hl : b ∣ a.len) : Blocky b (cut a cur) := by
  have ha : b ∣ a.stop := dvd_add ho hl
  have hs : b ∣ cur.stop := dvd_add hc.1 hc.2
  refine ⟨pos_cut, ?_, ?_, ?_⟩
  · intro r hr
    rcases mem_cut.1 hr with ⟨-, rfl⟩ | ⟨-, rfl⟩
    · exact hc.1
    · exact ha
  · intro r hr
    rcases mem_cut.1 hr with ⟨-, rfl⟩ | ⟨-, rfl⟩
    · exact dvd_sub ho hc.1
    · exact dvd_sub hs ha
  · unfold cut
    split_ifs
    · refine List.pairwise_pair.2 ?_
      simp only [Rng.stop]
      omega
    · exact List.pairwise_singleton _ _
    · exact List.pairwise_singleton _ _
    · exact List.Pairwise.nil

theorem cover_cut (h1 : cur.off ≤ a.off) (h2 : a.stop ≤ cur.stop) (hp : 0 < a.len) :
    cover (cut a cur) = cur.bytes \ a.bytes := by
  ext x
  exact bytes_cut h1 h2 hp

/-- Whole blocks are cut out of a range that holds them. -/
theorem Blocky.cut (h : Blocky b (l ++ cur :: m)) (hp : 0 < a.len) (ho : b ∣ a.off)
    (hl : b ∣ a.len) (h1 : cur.off ≤ a.off) (h2 : a.stop ≤ cur.stop) :
    Blocky b (l ++ (cut a cur ++ m))
      ∧ cover (l ++ (cut a cur ++ m)) = cover (l ++ cur :: m) \ a.bytes
      ∧ total (l ++ (cut a cur ++ m)) + a.len = total (l ++ cur :: m) := by
  obtain ⟨hbl, hcm, hlt⟩ := blocky_append.1 h
  obtain ⟨⟨-, hco, hcl⟩, hbm, hltm⟩ := blocky_cons.1 hcm
  have hin : ∀ r ∈ Ranges.cut a cur, cur.off ≤ r.off ∧ r.stop ≤ cur.stop := by
    intro r hr
    rcases mem_cut.1 hr with ⟨hlt, rfl⟩ | ⟨hlt, rfl⟩ <;> (simp only [Rng.stop] at *; omega)
  have hsub : a.bytes ⊆ cur.bytes := fun x hx => ⟨h1.trans hx.1, hx.2.trans_le h2⟩
  -- what lies outside `cur` has nothing of `a`
  have hout : ∀ r ∈ l ++ m, r.bytes \ a.bytes = r.bytes := by
    intro r hr
    refine sdiff_eq_left.2 (Set.disjoint_left.2 fun x hx hxa => ?_)
    have hxc := hsub hxa
    rw [Rng.mem_bytes] at hx hxc
    rcases List.mem_append.1 hr with hr | hr
    · have := hlt r hr cur (by simp)
      omega
    · have := hltm r hr
      omega
  have hcov : ∀ k : List Rng, (∀ r ∈ k, r ∈ l ++ m) → cover k \ a.bytes = cover k := by
    intro k hk
    ext x
    simp only [Set.mem_sdiff, mem_cover]
    refine ⟨fun h => h.1, fun ⟨r, hr, hx⟩ => ⟨⟨r, hr, hx⟩, ?_⟩⟩
    rw [← hout r (hk r hr)] at hx
    exact hx.2
  refine ⟨blocky_append.2 ⟨hbl, blocky_append.2 ⟨blocky_cut ⟨hco, hcl⟩ hp ho hl, hbm, ?_⟩, ?_⟩,
    ?_, ?_⟩
  · intro r hr r' hr'
    exact (hin r hr).2.trans (hltm r' hr')
  · intro r hr r' hr'
    rcases List.mem_append.1 hr' with hr' | hr'
    · exact (hlt r hr cur (by simp)).trans (hin r' hr').1
    · exact hlt r hr r' (by simp [hr'])
  · rw [cover_append, cover_append, cover_cut h1 h2 hp, cover_append, cover_cons,
      Set.union_sdiff_distrib, Set.union_sdiff_distrib, hcov l fun r hr => by simp [hr],
      hcov m fun r hr => by simp [hr]]
  · have := total_cut h1 h2
    simp only [total_append, total_cons]
    omega

/-- The range `a` lies in is the last one that does not start behind it. -/
theorem Blocky.grab_eq (h : Blocky b rs) (hp : 0 < a.len)
    (hc : ∃ cur ∈ rs, cur.off ≤ a.off ∧ a.stop ≤ cur.stop) :
    ∃ lo c, (rs.filter (·.off ≤ a.off)).reverse = c :: lo ∧ c.off ≤ a.off ∧ a.stop ≤ c.stop
      ∧ rs = lo.reverse ++ c :: rs.filter (a.off < ·.off) := by
  obtain ⟨cur, hcur, h1, h2⟩ := hc
  have hfil : rs.filter (·.off ≤ a.off) = rs.filter (·.off < a.off + 1)
      ∧ rs.filter (a.off < ·.off) = rs.filter (a.off + 1 ≤ ·.off) := by
    constructor <;>
    · refine List.filter_congr fun r _ => ?_
      simp only [decide_eq_decide]
      omega
  have hsplit := h.split (a.off + 1)
  rw [← hfil.1, ← hfil.2] at hsplit
  rcases hrev : (rs.filter (·.off ≤ a.off)).reverse with _ | ⟨c, lo⟩
  · rw [List.reverse_eq_nil_iff, List.filter_eq_nil_iff] at hrev
    exact absurd h1 (by simpa using hrev cur hcur)
  · have hlo : rs.filter (·.off ≤ a.off) = lo.reverse ++ [c] := by
      rw [← List.reverse_reverse (rs.filter _), hrev, List.reverse_cons]
    rw [hlo, List.append_assoc, List.singleton_append] at hsplit
    have hcin : c.off ≤ a.off := by
      have : c ∈ rs.filter (·.off ≤ a.off) := by simp [hlo]
      simpa using (List.mem_filter.1 this).2
    have heq : c = cur := by
      have hmem : cur ∈ lo.reverse ++ [c] := hlo ▸ List.mem_filter.2 ⟨hcur, by simpa using h1⟩
      rcases List.mem_append.1 hmem with hm | hm
      · obtain ⟨-, -, hlt⟩ := blocky_append.1 (hsplit.symm ▸ h)
        have := hlt cur hm c (by simp)
        have hs : a.stop = a.off + a.len := rfl
        omega
      · exact (List.mem_singleton.1 hm).symm
    exact ⟨lo, c, hrev, hcin, heq ▸ h2, hsplit.symm⟩

theorem Blocky.grab (h : Blocky b rs) (hp : 0 < a.len) (ho : b ∣ a.off) (hl : b ∣ a.len)
    (hc : ∃ cur ∈ rs, cur.off ≤ a.off ∧ a.stop ≤ cur.stop) :
    ∃ rs', grab a rs = some rs' ∧ Blocky b rs' ∧ cover rs' = cover rs \ a.bytes
      ∧ total rs' + a.len = total rs := by
  obtain ⟨lo, c, hrev, h1, h2, hsplit⟩ := h.grab_eq hp hc
  unfold Ranges.grab
  rw [hrev]
  dsimp only
  rw [if_neg (by omega)]
  have hcut := (hsplit ▸ h : Blocky b (lo.reverse ++ c :: rs.filter (a.off < ·.off))).cut
    hp ho hl h1 h2
  rw [← hsplit] at hcut
  exact ⟨_, rfl, hcut⟩

/-- Between any two ranges something is left out. -/
def Gaps (rs : List Rng) : Prop := rs.Pairwise (·.stop < ·.off)

theorem gaps_append : Gaps (l ++ m) ↔ Gaps l ∧ Gaps m ∧ ∀ r ∈ l, ∀ r' ∈ m, r.stop < r'.off :=
  List.pairwise_append

theorem gaps_cons : Gaps (r :: rs) ↔ (∀ r' ∈ rs, r.stop < r'.off) ∧ Gaps rs := List.pairwise_cons

theorem Gaps.cut (h : Gaps (l ++ cur :: m)) (hp : 0 < a.len) (h1 : cur.off ≤ a.off)
    (h2 : a.stop ≤ cur.stop) : Gaps (l ++ (cut a cur ++ m)) := by
  obtain ⟨hl, hcm, hlt⟩ := gaps_append.1 h
  obtain ⟨hltm, hm⟩ := gaps_cons.1 hcm
  have hin : ∀ r ∈ Ranges.cut a cur, cur.off ≤ r.off ∧ r.stop ≤ cur.stop := by
    intro r hr
    rcases mem_cut.1 hr with ⟨hlt, rfl⟩ | ⟨hlt, rfl⟩ <;> (simp only [Rng.stop] at *; omega)
  have hcut : Gaps (Ranges.cut a cur) := by
    unfold Ranges.cut
    split_ifs
    · refine List.pairwise_pair.2 ?_
      simp only [Rng.stop]
      omega
    · exact List.pairwise_singleton _ _
    · exact List.pairwise_singleton _ _
    · exact List.Pairwise.nil
  refine gaps_append.2 ⟨hl, gaps_append.2 ⟨hcut, hm, ?_⟩, ?_⟩
  · intro r hr r' hr'
    exact (hin r hr).2.trans_lt (hltm r' hr')
  · intro r hr r' hr'
    rcases List.mem_append.1 hr' with hr' | hr'
    · exact (hlt r hr cur (by simp)).trans_le (hin r' hr').1
    · exact hlt r hr r' (by simp [hr'])

/-- A block of a sorted list lies in one range. -/
theorem Blocky.holds (h : Blocky b rs) (hb : 0 < b) {x : ℤ} (hx : x ∈ cover rs) (hd : b ∣ x) :
    ∃ cur ∈ rs, cur.off ≤ x ∧ (⟨x, b⟩ : Rng).stop ≤ cur.stop := by
  obtain ⟨cur, hcur, h1, h2⟩ := hx
  refine ⟨cur, hcur, h1, ?_⟩
  obtain ⟨p, hp⟩ := hd
  obtain ⟨q, hq⟩ : b ∣ cur.stop := dvd_add (h.off cur hcur) (h.len cur hcur)
  rw [hp, hq] at h2
  have hlt : p < q := lt_of_mul_lt_mul_left h2 hb.le
  have hle : b * (p + 1) ≤ b * q := mul_le_mul_of_nonneg_left hlt hb.le
  rw [Rng.stop, hp, hq]
  linarith

end Blocky

/-- The lengths of ranges in `[lo, hi)`, no two of which overlap, are at most its length. -/
theorem sum_le_of_apart {n lo hi : ℕ} {off stop : ℕ → ℕ}
    (hin : ∀ i < n, lo ≤ off i ∧ stop i ≤ hi)
    (hapart : ∀ i < n, ∀ j < i, stop i ≤ off j ∨ stop j ≤ off i) :
    ∑ i ∈ Finset.range n, (stop i - off i) ≤ hi - lo := by
  have hdisj : ∀ i ∈ Finset.range n, ∀ j ∈ Finset.range n, i ≠ j →
      Disjoint (Finset.Ico (off i) (stop i)) (Finset.Ico (off j) (stop j)) := by
    intro i hi j hj hij
    rw [Finset.mem_range] at hi hj
    rw [Finset.disjoint_left]
    intro x hx hx'
    rw [Finset.mem_Ico] at hx hx'
    rcases lt_or_gt_of_ne hij with h | h
    · have := hapart j hj i h
      omega
    · have := hapart i hi j h
      omega
  calc ∑ i ∈ Finset.range n, (stop i - off i)
      = ((Finset.range n).biUnion fun i => Finset.Ico (off i) (stop i)).card := by
        simp only [Finset.card_biUnion hdisj, Nat.card_Ico]
    _ ≤ (Finset.Ico lo hi).card := Finset.card_le_card fun x hx => by
        obtain ⟨i, hi, hx⟩ := Finset.mem_biUnion.1 hx
        have := hin i (Finset.mem_range.1 hi)
        rw [Finset.mem_Ico] at hx ⊢
        omega
    _ = hi - lo := Nat.card_Ico lo hi

end Ranges
