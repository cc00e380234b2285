import GefsFuse.Cursor
import GefsFuse.Proofs.ServerLookup
import Mathlib.Data.Finset.Sort

/-!
# What a scan visits

A cursor has left behind the keys below some bound, at every level of the tree. The next key is the
least one left, and what `btnext` makes of it are all the entries and messages on it, from the leaf
up (`allOps`). So a scan of a well-formed tree visits the keys of the tree in order (`scan_eq`),
whatever the messages are.
-/

namespace GefsFuse

open ByteMem SortedMap Cursor

/-- An entry as a message. -/
def pairMsg (e : GefsKvp) : GefsMsg := ⟨.oinsert, e.1, e.2, []⟩

/-- The entries and messages of a tree, what lies lower first. -/
def allOps : (n : ℕ) → Beps n → List GefsMsg
  | 0, es => (show List GefsKvp from es).map pairMsg
  | n + 1, (cs, ms) => cs.flatMap (fun c => allOps n c.2) ++ ms

/-- No node is empty. -/
def Peopled : (n : ℕ) → Beps n → Prop
  | 0, es => (show List GefsKvp from es) ≠ []
  | n + 1, (cs, _) => cs ≠ [] ∧ ∀ c ∈ cs, Peopled n c.2

/-- The lowest node on the way that has something left: none where nothing is, a leaf, or a pivot
with the message that is the next one in it. `P` are the keys that are left. -/
def standAt (P : Bytes → Bool) : (n : ℕ) → Beps n → Option (Option GefsMsg)
  | 0, es => if (show List GefsKvp from es).any (P ·.1) then some none else none
  | n + 1, (cs, ms) =>
    (cs.findSome? fun c => standAt P n c.2).or ((ms.find? (P ·.k)).map some)

/-! ## Order across the tree -/

section Order

variable {n : ℕ} {T : Beps n} {lo hi : Option Bytes}

theorem allOps_inRange : ∀ {n : ℕ} {T : Beps n} {lo hi : Option Bytes}, Ordered n T lo hi →
    ∀ m ∈ allOps n T, InRange lo hi m.k
  | 0, es, lo, hi, ⟨_, h⟩, m, hm => by
    obtain ⟨e, he, rfl⟩ := List.mem_map.1 hm
    exact h e he
  | n + 1, (cs, ms), lo, hi, ⟨hs, hc, _, hm, hj⟩, m, hmem => by
    rcases List.mem_append.1 hmem with hmem | hmem
    · obtain ⟨c, hc', hmem⟩ := List.mem_flatMap.1 hmem
      obtain ⟨j, hj', rfl⟩ := List.mem_iff_getElem.1 hc'
      obtain ⟨h1, h2⟩ := allOps_inRange (hj j cs[j] (List.getElem?_eq_getElem hj')) m hmem
      refine ⟨fun l hl => ((hc _ hc').1 l hl).trans (h1 _ rfl), fun h hh => ?_⟩
      rcases hn : cs[j + 1]? with _ | c
      · exact h2 h (by rw [rightOf, hn]; exact hh)
      · have hlt : m.k < c.1.1 := h2 _ (by rw [rightOf, hn])
        exact hlt.trans ((hc c (List.mem_of_getElem? hn)).2 h hh)
    · exact hm m hmem

/-- The keys of the children ascend. -/
theorem Ordered.keys_lt {l₁ l₂ : List (GefsKvp × Beps n)} {c : GefsKvp × Beps n}
    {ms : List GefsMsg} (h : Ordered (n + 1) (l₁ ++ c :: l₂, ms) lo hi) :
    ∀ d ∈ l₂, c.1.1 < d.1.1 := by
  have hs := h.1
  rw [List.map_append, List.map_cons] at hs
  intro d hd
  exact (List.pairwise_cons.1 (List.pairwise_append.1 hs).2.1).1 _ (List.mem_map_of_mem hd)

/-- The child at a place is ordered, and what it holds lies before the later ones. -/
theorem Ordered.child_lt {l₁ l₂ : List (GefsKvp × Beps n)} {c : GefsKvp × Beps n}
    {ms : List GefsMsg} (h : Ordered (n + 1) (l₁ ++ c :: l₂, ms) lo hi) :
    (∃ hi', Ordered n c.2 (some c.1.1) hi')
      ∧ ∀ d ∈ l₂, ∀ x ∈ allOps n c.2, x.k < d.1.1 := by
  have hc := h.2.2.2.2 l₁.length c (by simp)
  refine ⟨⟨_, hc⟩, fun d hd x hx => ?_⟩
  rcases l₂ with _ | ⟨e, l₂⟩
  · exact absurd hd (by simp)
  -- the key behind `c` bounds `c` from the right
  have h0 : (l₁ ++ c :: e :: l₂)[l₁.length + 1]? = some e := by
    rw [List.getElem?_append_right (by omega), Nat.add_sub_cancel_left]
    rfl
  have hx' : x.k < e.1.1 := (allOps_inRange hc x hx).2 _ (by rw [rightOf, h0])
  rcases List.mem_cons.1 hd with rfl | hd
  · exact hx'
  · rw [List.append_cons] at h
    exact hx'.trans (h.keys_lt d hd)

/-- What a child holds lies before what the later ones hold. -/
theorem Ordered.child {l₁ l₂ : List (GefsKvp × Beps n)} {c : GefsKvp × Beps n}
    {ms : List GefsMsg} (h : Ordered (n + 1) (l₁ ++ c :: l₂, ms) lo hi) :
    (∃ hi', Ordered n c.2 (some c.1.1) hi')
      ∧ ∀ d ∈ l₂, ∀ x ∈ allOps n c.2, ∀ y ∈ allOps n d.2, x.k < y.k := by
  refine ⟨h.child_lt.1, fun d hd x hx y hy => (h.child_lt.2 d hd x hx).trans_le ?_⟩
  obtain ⟨la, lb, rfl⟩ := List.append_of_mem hd
  rw [← List.cons_append, ← List.append_assoc] at h
  obtain ⟨hi', hd'⟩ := h.child_lt.1
  exact (allOps_inRange hd' y hy).1 _ rfl

theorem Ordered.msgs {cs : List (GefsKvp × Beps n)} {ms : List GefsMsg}
    (h : Ordered (n + 1) (cs, ms) lo hi) : ms.Pairwise fun a b => a.k ≤ b.k := h.2.2.1

end Order

/-! ## What is on one key -/

section OnKey

variable {k : Bytes}

theorem filter_leaf : ∀ {es : List GefsKvp}, Ascending es →
    es.filter (·.1 = k) = ((look es k).map fun v => (k, v)).toList
  | [], _ => rfl
  | e :: es, hs => by
    obtain ⟨he, hs⟩ := List.pairwise_cons.1 hs
    by_cases h : e.1 = k
    · have hnil : es.filter (·.1 = k) = [] := by
        refine List.filter_eq_nil_iff.2 fun x hx => ?_
        rw [decide_eq_true_eq, ← h]
        exact (he x hx).ne'
      rw [List.filter_cons_of_pos (by simpa using h), hnil, look, if_pos h]
      simp [← h]
    · rw [List.filter_cons_of_neg (by simpa using h), look_cons_of_ne h, filter_leaf hs]

/-- The way goes on in the last child that does not start above the key. -/
theorem childOf_split {α : Type} {c : GefsKvp × α} : ∀ {cs : List (GefsKvp × α)},
    childOf cs k = some c → ∃ l₁ l₂, cs = l₁ ++ c :: l₂ ∧ c.1.1 ≤ k ∧ childOf l₂ k = none
  | [], h => absurd h (by simp [childOf])
  | a :: cs, h => by
    rw [childOf] at h
    split_ifs at h with hk
    rcases hc : childOf cs k with _ | d <;> rw [hc] at h
    · obtain rfl : a = c := by simpa using h
      exact ⟨[], cs, rfl, hk, hc⟩
    · obtain rfl : d = c := by simpa using h
      obtain ⟨l₁, l₂, rfl, h1, h2⟩ := childOf_split hc
      exact ⟨a :: l₁, l₂, rfl, h1, h2⟩

theorem childOf_none {α : Type} : ∀ {cs : List (GefsKvp × α)}, Ascending (cs.map (·.1)) →
    childOf cs k = none → ∀ d ∈ cs, k < d.1.1
  | [], _, _, d, hd => absurd hd (by simp)
  | a :: cs, hs, h, d, hd => by
    have ha : k < a.1.1 := by
      by_contra hle
      rw [childOf, if_pos (not_lt.1 hle)] at h
      rcases hc : childOf cs k <;> simp [hc] at h
    rcases List.mem_cons.1 hd with rfl | hd
    · exact ha
    · exact ha.trans ((List.pairwise_cons.1 hs).1 d.1 (List.mem_map_of_mem hd))

/-- On a key are the entry of its leaf and the messages that wait on it. -/
theorem allOps_filter : ∀ {n : ℕ} {T : Beps n} {lo hi : Option Bytes}, Ordered n T lo hi →
    (allOps n T).filter (·.k = k)
      = ((leafVal n T k).map fun v => pairMsg (k, v)).toList ++ msgsOn n T k
  | 0, es, _, _, ⟨hs, _⟩ => by
    have h := congrArg (List.map pairMsg) (filter_leaf (k := k) hs)
    rw [allOps, List.filter_map, msgsOn, List.append_nil, leafVal]
    refine (show _ = _ from h).trans ?_
    cases look (show List GefsKvp from es) k <;> rfl
  | n + 1, (cs, ms), lo, hi, ho => by
    have hnil : ∀ l : List (GefsKvp × Beps n), (∀ d ∈ l, ∀ x ∈ allOps n d.2, x.k ≠ k) →
        (l.flatMap fun c => allOps n c.2).filter (·.k = k) = [] := by
      intro l h
      refine List.filter_eq_nil_iff.2 fun x hx => ?_
      obtain ⟨d, hd, hx⟩ := List.mem_flatMap.1 hx
      simpa using h d hd x hx
    have hright : ∀ l₁ d l₂, cs = l₁ ++ d :: l₂ → k < d.1.1 → ∀ x ∈ allOps n d.2, x.k ≠ k := by
      rintro l₁ d l₂ rfl hk x hx
      obtain ⟨⟨hi', hc⟩, -⟩ := ho.child_lt
      exact (hk.trans_le ((allOps_inRange hc x hx).1 _ rfl)).ne'
    rw [allOps, List.filter_append, leafVal, msgsOn]
    rcases hc : childOf cs k with _ | c
    · have hlt := childOf_none ho.1 hc
      rw [hnil cs fun d hd => ?_]
      · rfl
      · obtain ⟨l₁, l₂, hcs⟩ := List.append_of_mem hd
        exact hright l₁ d l₂ hcs (hlt d hd)
    · obtain ⟨l₁, l₂, rfl, hle, hno⟩ := childOf_split hc
      obtain ⟨⟨hi', hord⟩, -⟩ := ho.child_lt
      have hsub : Ascending (l₂.map (·.1)) := by
        have hs := ho.1
        rw [List.map_append, List.map_cons] at hs
        exact (List.pairwise_cons.1 (List.pairwise_append.1 hs).2.1).2
      have hlt := childOf_none hsub hno
      rw [List.flatMap_append, List.flatMap_cons, List.filter_append, List.filter_append,
        allOps_filter hord, hnil l₁ fun d hd => ?_, hnil l₂ fun d hd => ?_]
      · simp
      · obtain ⟨la, lb, rfl⟩ := List.append_of_mem hd
        have hcs : l₁ ++ c :: (la ++ d :: lb) = (l₁ ++ c :: la) ++ d :: lb := by simp
        exact hright _ d lb hcs (hlt d (by simp))
      · obtain ⟨la, lb, rfl⟩ := List.append_of_mem hd
        have hcs : la ++ d :: lb ++ c :: l₂ = la ++ d :: (lb ++ c :: l₂) := by simp
        rw [hcs] at ho
        exact fun x hx => ((ho.child_lt.2 c (by simp) x hx).trans_le hle).ne

end OnKey

/-! ## Where a cursor stands -/

/-- Nothing is left in the children. -/
def Spent (P : Bytes → Bool) (n : ℕ) (cs : List (GefsKvp × Beps n)) : Prop :=
  ∀ c ∈ cs, ∀ m ∈ allOps n c.2, P m.k = false

/-- All of the children is left. -/
def Fresh (P : Bytes → Bool) (n : ℕ) (cs : List (GefsKvp × Beps n)) : Prop :=
  ∀ c ∈ cs, ∀ m ∈ allOps n c.2, P m.k = true

/-- The level of a pivot, its messages at the first one left. -/
structure AtPivot (P : Bytes → Bool) (es : List GefsKvp) (ms : List GefsMsg) (bi vi : ℕ)
    (b : Content) (p : Scanp) : Prop where
  eq : p = ⟨bi, vi, some b⟩
  block : IsPivot es ms b
  le : bi ≤ ms.length
  left : ms.drop bi = ms.filter (P ·.k)

/-- The level of a leaf, at the first entry left. -/
def AtLeaf (P : Bytes → Bool) (es : List GefsKvp) (p : Scanp) : Prop :=
  ∃ bi vi b, p = ⟨bi, vi, some b⟩ ∧ IsLeaf es b ∧ es.drop vi = es.filter (P ·.1)

/-- The levels stand in the tree where the keys `P` are left. A level that is out of values has no
block below it. -/
def Stands (P : Bytes → Bool) : (n : ℕ) → Beps n → List Scanp → Prop
  | 0, es, path => ∃ p, path = [p] ∧ AtLeaf P es p
  | n + 1, (cs, ms), path => ∃ p q bi vi b, path = p :: q ∧ AtPivot P (cs.map (·.1)) ms bi vi b p
    ∧ ((∃ l₁ c l₂, cs = l₁ ++ c :: l₂ ∧ vi = l₁.length ∧ Spent P n l₁ ∧ Fresh P n l₂
        ∧ Stands P n c.2 q)
      ∨ cs.length ≤ vi ∧ Spent P n cs ∧ q = List.replicate (n + 1) gone)

/-- As `Stands`, with the levels above the `s`-th dropped and that one not spent. -/
def Standing (P : Bytes → Bool) : (n : ℕ) → Beps n → List Scanp → ℕ → Prop
  | 0, es, path, s => s = 1 ∧ Stands P 0 es path ∧ ∃ e ∈ (show List GefsKvp from es), P e.1 = true
  | n + 1, (cs, ms), path, s => ∃ p q bi vi b, path = p :: q
    ∧ AtPivot P (cs.map (·.1)) ms bi vi b p
    ∧ ((∃ l₁ c l₂ s', cs = l₁ ++ c :: l₂ ∧ vi = l₁.length ∧ Spent P n l₁ ∧ Fresh P n l₂
        ∧ Standing P n c.2 q s' ∧ s = s' + 1)
      ∨ s = 1 ∧ q = List.replicate (n + 1) gone
        ∧ ((∃ l₁ l₂, cs = l₁ ++ l₂ ∧ vi = l₁.length ∧ Spent P n l₁ ∧ Fresh P n l₂ ∧ l₂ ≠ [])
          ∨ cs.length ≤ vi ∧ Spent P n cs ∧ ms.filter (P ·.k) ≠ []))

section Climb

variable {P : Bytes → Bool}

theorem length_stands : ∀ {n : ℕ} {T : Beps n} {path : List Scanp}, Stands P n T path →
    path.length = n + 1
  | 0, _, _, ⟨_, rfl, _⟩ => rfl
  | n + 1, (_, _), _, ⟨_, _, _, _, _, rfl, _, h⟩ => by
    rcases h with ⟨_, _, _, _, _, _, _, h⟩ | ⟨_, _, rfl⟩
    · rw [List.length_cons, length_stands h]
    · simp

theorem climb_cons {p : Scanp} {q : List Scanp} (hq : q ≠ []) : climb (p :: q) =
    match climb q with
    | (q, some n) => (p :: q, some (n + 1))
    | (q, none) => ({ p with vi := p.vi + 1 } :: q.map fun _ => gone,
        if more { p with vi := p.vi + 1 } then some 1 else none) := by
  cases q with
  | nil => exact absurd rfl hq
  | cons => rfl

theorem length_climb : ∀ path : List Scanp, (climb path).1.length = path.length
  | [] => rfl
  | [_] => rfl
  | p :: p' :: q => by
    have ih := length_climb (p' :: q)
    rw [climb_cons (by simp)]
    rcases h : climb (p' :: q) with ⟨q', _ | s⟩ <;> rw [h] at ih <;> simpa using ih

theorem climb_gone : ∀ n, (climb (List.replicate (n + 1) gone)).2 = none
  | 0 => rfl
  | n + 1 => by
    rw [List.replicate_succ, climb_cons (by simp)]
    have ih := climb_gone n
    rcases h : climb (List.replicate (n + 1) gone) with ⟨q', _ | s⟩
    · rfl
    · rw [h] at ih
      exact absurd ih (by simp)

theorem AtPivot.more_iff {es : List GefsKvp} {ms : List GefsMsg} {bi vi : ℕ} {b : Content}
    {p : Scanp} (h : AtPivot P es ms bi vi b p) (v : ℕ) :
    more { p with vi := v } = true ↔ v < es.length ∨ ms.filter (P ·.k) ≠ [] := by
  rw [h.eq, ← h.left]
  simp only [more, h.block.type, h.block.nval, h.block.nbuf, true_and, decide_eq_true_eq,
    Nat.cast_lt, ne_eq, List.drop_eq_nil_iff, not_le]

theorem AtLeaf.more_iff {es : List GefsKvp} {p : Scanp} (h : AtLeaf P es p) :
    more p = true ↔ ∃ e ∈ es, P e.1 = true := by
  obtain ⟨bi, vi, b, rfl, hb, hd⟩ := h
  have hne : ¬ gefsTleaf = gefsTpivot := by decide
  have hiff : (∃ e ∈ es, P e.1 = true) ↔ es.drop vi ≠ [] := by
    rw [hd, ne_eq, List.filter_eq_nil_iff]
    simp
  rw [hiff]
  simp only [more, hb.type, hb.nval, hne, false_and, or_false, decide_eq_true_eq, Nat.cast_lt,
    ne_eq, List.drop_eq_nil_iff, not_le]

theorem exists_mem_allOps : ∀ {n : ℕ} {T : Beps n}, Peopled n T → ∃ m, m ∈ allOps n T
  | 0, es, h => by
    obtain ⟨e, he⟩ := List.exists_mem_of_ne_nil _ h
    exact ⟨_, List.mem_map_of_mem he⟩
  | n + 1, (cs, ms), ⟨h, hc⟩ => by
    obtain ⟨c, hc'⟩ := List.exists_mem_of_ne_nil _ h
    obtain ⟨m, hm⟩ := exists_mem_allOps (hc c hc')
    exact ⟨m, List.mem_append_left _ (List.mem_flatMap.2 ⟨c, hc', hm⟩)⟩

/-- The levels that are spent are dropped, up to one that has something left. -/
theorem climb_spec : ∀ {n : ℕ} {T : Beps n} {path : List Scanp}, Stands P n T path →
    (∀ m ∈ allOps n T, P m.k = false) ∧ (climb path).2 = none
      ∨ ∃ path' s, climb path = (path', some s) ∧ Standing P n T path' s
  | 0, es, _, ⟨p, rfl, h⟩ => by
    by_cases hm : more p = true
    · exact .inr ⟨[p], 1, by simp [climb, hm], rfl, ⟨p, rfl, h⟩, h.more_iff.1 hm⟩
    · refine .inl ⟨fun m hm' => ?_, by simp [climb, hm]⟩
      obtain ⟨e, he, rfl⟩ := List.mem_map.1 hm'
      rw [h.more_iff] at hm
      by_contra hP
      exact hm ⟨e, he, by simpa [pairMsg] using hP⟩
  | n + 1, (cs, ms), _, ⟨p, q, bi, vi, b, rfl, hp, h⟩ => by
    -- the level after the ones below it are dropped
    have hdrop : ∀ v, (climb q).2 = none → p.vi + 1 = v → cs.length ≤ v → Spent P n cs →
        q ≠ [] → (climb q).1.length = n + 1 →
        (∀ m ∈ allOps (n + 1) (cs, ms), P m.k = false) ∧ (climb (p :: q)).2 = none
          ∨ ∃ path' s, climb (p :: q) = (path', some s) ∧ Standing P (n + 1) (cs, ms) path' s := by
      intro v hq hv hlen hsp hne hlq
      rw [climb_cons hne]
      rcases hcl : climb q with ⟨q', s⟩
      rw [hcl] at hq hlq
      obtain rfl : s = none := hq
      have hq' : (q'.map fun _ => gone) = List.replicate (n + 1) gone := by
        rw [List.map_const', hlq]
      have hlen' : ¬ v < (cs.map (·.1)).length := by simpa using hlen
      simp only [hv, hq']
      by_cases hm : more { p with vi := v } = true
      · rw [if_pos hm]
        refine .inr ⟨_, 1, rfl, _, _, bi, v, b, rfl, ⟨by rw [hp.eq], hp.block, hp.le, hp.left⟩,
          .inr ⟨rfl, rfl, .inr ⟨hlen, hsp, ?_⟩⟩⟩
        exact ((hp.more_iff v).1 hm).resolve_left hlen'
      · rw [if_neg hm]
        rw [hp.more_iff, not_or, not_not] at hm
        refine .inl ⟨fun m hmem => ?_, rfl⟩
        rcases List.mem_append.1 hmem with hmem | hmem
        · obtain ⟨c, hc, hmem⟩ := List.mem_flatMap.1 hmem
          exact hsp c hc m hmem
        · simpa using List.filter_eq_nil_iff.1 hm.2 m hmem
    have hvi : p.vi = vi := by rw [hp.eq]
    rcases h with ⟨l₁, c, l₂, rfl, rfl, h1, h2, hst⟩ | ⟨hlen, hsp, rfl⟩
    · have hlq := length_stands hst
      have hne : q ≠ [] := by
        rintro rfl
        simp at hlq
      rcases climb_spec hst with ⟨hno, hcl⟩ | ⟨q', s, hcl, hstd⟩
      · have hsp : Spent P n (l₁ ++ [c]) := by
          intro d hd
          rcases List.mem_append.1 hd with hd | hd
          · exact h1 d hd
          · rw [List.mem_singleton.1 hd]
            exact hno
        rcases l₂ with _ | ⟨d, l₂⟩
        · exact hdrop _ hcl (by rw [hvi]) (by simp) hsp hne (by rw [length_climb, hlq])
        · -- on to the next child
          refine .inr ?_
          rw [climb_cons hne]
          rcases hc : climb q with ⟨q', s⟩
          rw [hc] at hcl
          obtain rfl : s = none := hcl
          have hl := length_climb q
          rw [hc] at hl
          have hq' : (q'.map fun _ => gone) = List.replicate (n + 1) gone := by
            rw [List.map_const', show q'.length = n + 1 from hl.trans hlq]
          have hm : more { p with vi := p.vi + 1 } = true := by
            rw [hp.more_iff, hvi]
            left
            simp
          simp only [hq', if_pos hm]
          refine ⟨_, 1, rfl, _, _, bi, l₁.length + 1, b, rfl,
            ⟨by rw [hp.eq], hp.block, hp.le, hp.left⟩, .inr ⟨rfl, rfl, .inl ⟨l₁ ++ [c], d :: l₂,
              by simp, by simp, hsp, h2, by simp⟩⟩⟩
      · rw [climb_cons hne, hcl]
        exact .inr ⟨_, _, rfl, p, q', bi, _, b, rfl, hp, .inl ⟨l₁, c, l₂, s, rfl, rfl, h1, h2, hstd,
          rfl⟩⟩
    · refine hdrop (vi + 1) (climb_gone n) (by rw [hvi]) (by omega) hsp (by simp) ?_
      rw [length_climb]
      simp

theorem Standing.exists : ∀ {n : ℕ} {T : Beps n} {path : List Scanp} {s : ℕ},
    Standing P n T path s → (n ≠ 0 → Peopled n T) → ∃ m ∈ allOps n T, P m.k = true
  | 0, es, _, _, ⟨_, _, e, he, hP⟩, _ => ⟨pairMsg e, List.mem_map_of_mem he, hP⟩
  | n + 1, (cs, ms), _, _, ⟨_, _, _, _, _, _, _, h⟩, hpe => by
    have hpe := (hpe (by simp)).2
    have hup : ∀ c ∈ cs, ∀ m ∈ allOps n c.2, m ∈ allOps (n + 1) (cs, ms) := fun c hc m hm =>
      List.mem_append_left _ (List.mem_flatMap.2 ⟨c, hc, hm⟩)
    rcases h with ⟨l₁, c, l₂, s', rfl, -, -, -, hst, -⟩ | ⟨-, -, h⟩
    · obtain ⟨m, hm, hP⟩ := hst.exists fun _ => hpe c (by simp)
      exact ⟨m, hup c (by simp) m hm, hP⟩
    · rcases h with ⟨l₁, l₂, rfl, -, -, h2, hne⟩ | ⟨-, -, hne⟩
      · obtain ⟨c, hc⟩ := List.exists_mem_of_ne_nil _ hne
        obtain ⟨m, hm⟩ := exists_mem_allOps (hpe c (by simp [hc]))
        exact ⟨m, hup c (by simp [hc]) m hm, h2 c hc m hm⟩
      · obtain ⟨m, hm⟩ := List.exists_mem_of_ne_nil _ hne
        obtain ⟨hm, hP⟩ := List.mem_filter.1 hm
        exact ⟨m, List.mem_append_right _ hm, hP⟩

end Climb

/-! ## What it stands at -/

/-- As `Stands`, all levels loaded down to a leaf with `m` next, or `m` the next message of a pivot
with nothing left below it, at the level `src`. -/
def Ready (P : Bytes → Bool) : (n : ℕ) → Beps n → List Scanp → GefsMsg → Option ℕ → Prop
  | 0, es, path, m, src => src = none ∧ ∃ p, path = [p] ∧ AtLeaf P es p
    ∧ ∃ e l, (show List GefsKvp from es).filter (P ·.1) = e :: l ∧ m = pairMsg e
  | n + 1, (cs, ms), path, m, src => ∃ p q bi vi b, path = p :: q
    ∧ AtPivot P (cs.map (·.1)) ms bi vi b p
    ∧ ((∃ l₁ c l₂ src', cs = l₁ ++ c :: l₂ ∧ vi = l₁.length ∧ Spent P n l₁ ∧ Fresh P n l₂
        ∧ Ready P n c.2 q m src' ∧ src = src'.map (· + 1))
      ∨ src = some 0 ∧ cs.length ≤ vi ∧ Spent P n cs ∧ q = List.replicate (n + 1) gone
        ∧ ∃ l, ms.filter (P ·.k) = m :: l)

section Source

variable {P : Bytes → Bool} {get : GefsBptr → Option Content} {chk : GefsMsg → Bool}

theorem standAt_eq_none : ∀ {n : ℕ} {T : Beps n},
    standAt P n T = none ↔ ∀ m ∈ allOps n T, P m.k = false
  | 0, es => by
    have hiff : (show List GefsKvp from es).any (P ·.1) = false
        ↔ ∀ m ∈ (show List GefsKvp from es).map pairMsg, P m.k = false := by
      rw [List.any_eq_false, List.forall_mem_map]
      simp [pairMsg]
    rw [allOps, ← hiff, standAt]
    split_ifs with h <;> simp [h]
  | n + 1, (cs, ms) => by
    simp only [standAt, Option.or_eq_none_iff, List.findSome?_eq_none_iff, standAt_eq_none,
      Option.map_eq_none_iff, List.find?_eq_none, Bool.not_eq_true, allOps, List.mem_append,
      List.mem_flatMap, or_imp, forall_and, forall_exists_index, and_imp]
    exact and_congr_left fun _ => ⟨fun h m c hc hm => h c hc m hm, fun h c hc m hm => h m c hc hm⟩

/-- The first child with something left decides. -/
theorem standAt_child {n : ℕ} {l₁ l₂ : List (GefsKvp × Beps n)} {c : GefsKvp × Beps n}
    {ms : List GefsMsg} {x : Option GefsMsg} (h1 : Spent P n l₁)
    (h : standAt P n c.2 = some x) : standAt P (n + 1) (l₁ ++ c :: l₂, ms) = some x := by
  have hfind : (l₁ ++ c :: l₂).findSome? (fun c => standAt P n c.2) = some x := by
    rw [List.findSome?_eq_some_iff]
    exact ⟨l₁, c, l₂, rfl, h, fun d hd => standAt_eq_none.2 (h1 d hd)⟩
  rw [standAt, hfind]
  rfl

theorem standAt_here {n : ℕ} {cs : List (GefsKvp × Beps n)} {ms : List GefsMsg} {m : GefsMsg}
    {l : List GefsMsg} (h : Spent P n cs) (hm : ms.filter (P ·.k) = m :: l) :
    standAt P (n + 1) (cs, ms) = some (some m) := by
  have hfind : cs.findSome? (fun c => standAt P n c.2) = none :=
    List.findSome?_eq_none_iff.2 fun d hd => standAt_eq_none.2 (h d hd)
  rw [standAt, hfind, ← List.head?_filter, hm]
  rfl

theorem AtLeaf.next {es l : List GefsKvp} {p : Scanp} {e : GefsKvp} (h : AtLeaf P es p)
    (he : es.filter (P ·.1) = e :: l) :
    ∃ b, p.b = some b ∧ (p.vi : ℤ) < b.nval ∧ gefsGetval b p.vi = e := by
  obtain ⟨bi, vi, b, rfl, hb, hd⟩ := h
  rw [he] at hd
  have hlt : vi < es.length := by
    by_contra hle
    rw [List.drop_eq_nil_of_le (by omega)] at hd
    exact absurd hd (by simp)
  rw [List.drop_eq_getElem_cons hlt] at hd
  refine ⟨b, rfl, ?_, ?_⟩
  · rw [hb.nval]
    exact_mod_cast hlt
  · rw [hb.getval vi hlt]
    exact (List.cons.inj hd).1

theorem AtPivot.next {es : List GefsKvp} {ms l : List GefsMsg} {bi vi : ℕ} {b : Content}
    {p : Scanp} {m : GefsMsg} (h : AtPivot P es ms bi vi b p) (hm : ms.filter (P ·.k) = m :: l) :
    bi < ms.length ∧ gefsGetmsg b bi = m := by
  have hd := h.left
  rw [hm] at hd
  have hlt : bi < ms.length := by
    by_contra hle
    rw [List.drop_eq_nil_of_le (by omega)] at hd
    exact absurd hd (by simp)
  rw [List.drop_eq_getElem_cons hlt] at hd
  exact ⟨hlt, by rw [h.block.getmsg bi hlt]; exact (List.cons.inj hd).1⟩

/-- A child that is all left is loaded down to its first leaf. -/
theorem reload_spec : ∀ {n : ℕ} {T : Beps n} {bp : GefsBptr} {a : Content} {vi : ℕ},
    Server.TreeIn get n T bp → Peopled n T → (∀ m ∈ allOps n T, P m.k = true) →
    (vi : ℤ) < a.nval → valBptr (gefsGetval a vi).2 = some bp →
    ∃ q e b, reload get a vi (List.replicate (n + 1) gone) = some q
      ∧ q.getLast? = some ⟨0, 0, some b⟩ ∧ 0 < b.nval ∧ gefsGetval b 0 = e
      ∧ Ready P n T q (pairMsg e) none ∧ standAt P n T = some none
  | 0, es, bp, a, vi, ⟨c, hget, hc⟩, hne, hP, hvi, hbp => by
    obtain ⟨e, l, rfl⟩ := List.exists_cons_of_ne_nil hne
    have hall : (e :: l).filter (P ·.1) = e :: l := by
      rw [List.filter_eq_self]
      exact fun x hx => hP _ (List.mem_map_of_mem hx)
    refine ⟨[⟨0, 0, some c⟩], e, c, ?_, rfl, ?_, ?_, ⟨rfl, _, rfl, ⟨0, 0, c, rfl, hc, ?_⟩, e, l,
      hall, rfl⟩, ?_⟩
    · simp [reload, not_le.2 hvi, hbp, hget, gone]
    · rw [hc.nval]
      simp
    · rw [hc.getval 0 (by simp)]
      rfl
    · rw [hall]
      rfl
    · have hany : (e :: l).any (P ·.1) = true :=
        List.any_eq_true.2 ⟨e, by simp, hP _ (List.mem_map_of_mem (by simp))⟩
      simp only [standAt, hany, if_true]
  | n + 1, (cs, ms), bp, a, vi, ⟨⟨c, hget, hc⟩, hch⟩, ⟨hne, hpe⟩, hP, hvi, hbp => by
    obtain ⟨d, l, rfl⟩ := List.exists_cons_of_ne_nil hne
    obtain ⟨bp', hbp', hin⟩ := hch d (by simp)
    have hPd : Fresh P n (d :: l) := fun x hx m hm =>
      hP m (List.mem_append_left _ (List.mem_flatMap.2 ⟨x, hx, hm⟩))
    have hval : gefsGetval c 0 = d.1 := by
      rw [hc.getval 0 (by simp)]
      rfl
    obtain ⟨q, e, b, h1, h2, h3, h4, h5, h6⟩ := reload_spec hin (hpe d (by simp)) (hPd d (by simp))
      (by rw [hc.nval]; simp : ((0 : ℕ) : ℤ) < c.nval) (by rw [hval]; exact hbp')
    have hall : ms.filter (P ·.k) = ms := by
      rw [List.filter_eq_self]
      exact fun x hx => hP x (List.mem_append_right _ hx)
    have hnil : Spent P n [] := fun x hx => absurd hx (by simp)
    refine ⟨⟨0, 0, some c⟩ :: q, e, b, ?_, ?_, h3, h4, ⟨_, q, 0, 0, c, rfl,
      ⟨rfl, hc, by simp, by rw [hall]; rfl⟩, .inl ⟨[], d, l, none, rfl, rfl, hnil,
        fun x hx => hPd x (by simp [hx]), h5, rfl⟩⟩, @standAt_child _ _ [] _ _ _ _ hnil h6⟩
    · rw [List.replicate_succ]
      have hvi0 : gone.vi = 0 := rfl
      simp only [reload, if_neg (not_le.2 hvi), hbp, hget, Option.bind_eq_bind,
        Option.bind_some, hvi0, h1]
      rfl
    · rw [List.getLast?_cons, h2]
      rfl

theorem source_one (p : Scanp) (q : List Scanp) : source get chk (p :: q) 1 = (do
    let b ← p.b
    if (p.vi : ℤ) < b.nval then do
      let q ← reload get b p.vi q
      let leaf ← (p :: q).getLast?
      let c ← leaf.b
      if c.nval ≤ leaf.vi then none
      else some (p :: q, pairMsg (gefsGetval c leaf.vi), none)
    else if chk (gefsGetmsg b p.bi) then some (p :: q, gefsGetmsg b p.bi, some 0) else none) := rfl

theorem source_succ (get : GefsBptr → Option Content) (chk : GefsMsg → Bool) (p : Scanp)
    (q : List Scanp) {s : ℕ} (hs : s ≠ 0) : source get chk (p :: q) (s + 1) = (do
      let (q, m, src) ← source get chk q s
      some (p :: q, m, src.map (· + 1))) := by
  obtain ⟨s, rfl⟩ := Nat.exists_eq_succ_of_ne_zero hs
  rfl

/-- What the cursor stands at, and the levels loaded down to it. -/
theorem source_spec : ∀ {n : ℕ} {T : Beps n} {path : List Scanp} {s : ℕ} {bp : GefsBptr},
    Server.TreeIn get n T bp → (n ≠ 0 → Peopled n T) → Standing P n T path s →
    ∃ x, standAt P n T = some x ∧
      (x.all chk = false ∧ source get chk path s = none
        ∨ x.all chk = true ∧ ∃ path' m src, source get chk path s = some (path', m, src)
          ∧ Ready P n T path' m src)
  | 0, es, _, _, bp, _, _, ⟨rfl, ⟨p, rfl, h⟩, e, he, hP⟩ => by
    have hany : (show List GefsKvp from es).any (P ·.1) = true := List.any_eq_true.2 ⟨e, he, hP⟩
    refine ⟨none, by simp only [standAt, hany, if_true], .inr ⟨rfl, ?_⟩⟩
    have hne : (show List GefsKvp from es).filter (P ·.1) ≠ [] :=
      List.ne_nil_of_mem (List.mem_filter.2 ⟨he, hP⟩)
    obtain ⟨f, l, hf⟩ := List.exists_cons_of_ne_nil hne
    obtain ⟨b, hb, hlt, hget⟩ := h.next hf
    refine ⟨_, _, _, ?_, rfl, _, rfl, h, f, l, hf, rfl⟩
    rw [source_one]
    simp only [hb, Option.bind_eq_bind, Option.bind_some, if_pos hlt, reload,
      List.getLast?_singleton, if_neg (not_le.2 hlt), hget]
  | n + 1, (cs, ms), _, _, bp, ⟨_, hch⟩, hpe, ⟨p, q, bi, vi, b, rfl, hp, h⟩ => by
    have hpe := (hpe (by simp)).2
    rcases h with ⟨l₁, c, l₂, s', rfl, rfl, h1, h2, hst, rfl⟩ | ⟨rfl, rfl, h⟩
    · obtain ⟨bp', -, hin⟩ := hch c (by simp)
      obtain ⟨x, hx, hs⟩ := source_spec hin (fun _ => hpe c (by simp)) hst
      refine ⟨x, standAt_child h1 hx, ?_⟩
      have hs0 : s' ≠ 0 := by
        cases n with
        | zero => exact hst.1 ▸ one_ne_zero
        | succ n =>
          obtain ⟨_, _, _, _, _, _, _, h⟩ := hst
          rcases h with ⟨_, _, _, _, _, _, _, _, _, rfl⟩ | ⟨rfl, _⟩ <;> simp
      have hsrc := source_succ get chk p q hs0
      rcases hs with ⟨hc, hn⟩ | ⟨hc, path', m, src, hsome, hr⟩
      · exact .inl ⟨hc, by rw [hsrc, hn]; rfl⟩
      · exact .inr ⟨hc, _, m, _, by rw [hsrc, hsome]; rfl, p, path', bi, _, b, rfl, hp,
          .inl ⟨l₁, c, l₂, src, rfl, rfl, h1, h2, hr, rfl⟩⟩
    · have hpb : p.b = some b := by rw [hp.eq]
      have hpv : p.vi = vi := by rw [hp.eq]
      have hpi : p.bi = bi := by rw [hp.eq]
      have hnval : b.nval = cs.length := by rw [hp.block.nval, List.length_map]
      rw [source_one]
      simp only [hpb, hpv, hpi, hnval, Option.bind_eq_bind, Option.bind_some]
      rcases h with ⟨l₁, l₂, rfl, rfl, h1, h2, hne⟩ | ⟨hlen, hsp, hne⟩
      · obtain ⟨c, l₂, rfl⟩ := List.exists_cons_of_ne_nil hne
        obtain ⟨bp', hbp, hin⟩ := hch c (by simp)
        have hlt : (l₁.length : ℤ) < b.nval := by
          rw [hnval]
          simp
        have hval : gefsGetval b l₁.length = c.1 := by
          rw [hp.block.getval _ (by simp)]
          simp
        obtain ⟨q', e, lb, h3, h4, h5, h6, h7, h8⟩ := reload_spec hin (hpe c (by simp))
          (h2 c (by simp)) hlt (by rw [hval]; exact hbp)
        refine ⟨none, standAt_child h1 h8, .inr ⟨rfl, _, _, none, ?_, p, q', bi, _, b, rfl, hp,
          .inl ⟨l₁, c, l₂, none, rfl, rfl, h1, fun d hd => h2 d (by simp [hd]), h7, rfl⟩⟩⟩
        have hlast : (p :: q').getLast? = some ⟨0, 0, some lb⟩ := by
          rw [List.getLast?_cons, h4, Option.getD_some]
        rw [hnval] at hlt
        simp only [if_pos hlt, h3, hlast, Option.bind_some, Nat.cast_zero, if_neg (not_le.2 h5), h6]
      · obtain ⟨m, l, hm⟩ := List.exists_cons_of_ne_nil hne
        have hget := (hp.next hm).2
        refine ⟨some m, standAt_here hsp hm, ?_⟩
        rw [if_neg (by exact_mod_cast not_lt.2 hlen), hget]
        by_cases hc : chk m = true
        · refine .inr ⟨hc, _, m, some 0, by rw [if_pos hc], p, _, bi, vi, b, rfl, hp,
            .inr ⟨rfl, hlen, hsp, rfl, l, hm⟩⟩
        · exact .inl ⟨by simpa using hc, by rw [if_neg hc]⟩

end Source

/-! ## The least key -/

/-- As `Stands`, at the level `src` of which `m` is next and has the least key left, and lies lowest
of what is on that key. -/
def Chosen (P : Bytes → Bool) : (n : ℕ) → Beps n → List Scanp → GefsMsg → Option ℕ → Prop
  | 0, es, path, m, src => src = none ∧ ∃ p, path = [p] ∧ AtLeaf P es p
    ∧ ∃ e l, (show List GefsKvp from es).filter (P ·.1) = e :: l ∧ m = pairMsg e
  | n + 1, (cs, ms), path, m, src => ∃ p q bi vi b, path = p :: q
    ∧ AtPivot P (cs.map (·.1)) ms bi vi b p
    ∧ ((∃ l₁ c l₂ src', cs = l₁ ++ c :: l₂ ∧ vi = l₁.length ∧ Spent P n l₁ ∧ Fresh P n l₂
        ∧ Chosen P n c.2 q m src' ∧ src = src'.map (· + 1) ∧ ∀ x ∈ ms.filter (P ·.k), m.k ≤ x.k)
      ∨ src = some 0 ∧ (∃ l, ms.filter (P ·.k) = m :: l)
        ∧ (∀ c ∈ cs, ∀ x ∈ allOps n c.2, P x.k = true → m.k < x.k)
        ∧ ((∃ l₁ c l₂, cs = l₁ ++ c :: l₂ ∧ vi = l₁.length ∧ Spent P n l₁ ∧ Fresh P n l₂
            ∧ Stands P n c.2 q)
          ∨ cs.length ≤ vi ∧ Spent P n cs ∧ q = List.replicate (n + 1) gone))

section Least

variable {P : Bytes → Bool}

theorem Ready.stands : ∀ {n : ℕ} {T : Beps n} {path : List Scanp} {m : GefsMsg} {src : Option ℕ},
    Ready P n T path m src → Stands P n T path
  | 0, _, _, _, _, ⟨_, p, h, hl, _⟩ => ⟨p, h, hl⟩
  | n + 1, (cs, ms), _, _, _, ⟨p, q, bi, vi, b, h, hp, hc⟩ => by
    refine ⟨p, q, bi, vi, b, h, hp, ?_⟩
    rcases hc with ⟨l₁, c, l₂, src', h1, h2, h3, h4, h5, -⟩ | ⟨-, h1, h2, h3, -⟩
    · exact .inl ⟨l₁, c, l₂, h1, h2, h3, h4, h5.stands⟩
    · exact .inr ⟨h1, h2, h3⟩

theorem Chosen.mem : ∀ {n : ℕ} {T : Beps n} {path : List Scanp} {m : GefsMsg} {src : Option ℕ},
    Chosen P n T path m src → m ∈ allOps n T ∧ P m.k = true
  | 0, es, _, _, _, ⟨_, _, _, _, e, l, he, rfl⟩ => by
    have hmem : e ∈ (show List GefsKvp from es).filter (P ·.1) := by simp [he]
    obtain ⟨h1, h2⟩ := List.mem_filter.1 hmem
    exact ⟨List.mem_map_of_mem h1, h2⟩
  | n + 1, (cs, ms), _, m, _, ⟨_, _, _, _, _, _, _, h⟩ => by
    rcases h with ⟨l₁, c, l₂, _, rfl, -, -, -, hat, -⟩ | ⟨-, ⟨l, hl⟩, -⟩
    · obtain ⟨h1, h2⟩ := hat.mem
      exact ⟨List.mem_append_left _ (List.mem_flatMap.2 ⟨c, by simp, h1⟩), h2⟩
    · have hmem : m ∈ ms.filter (P ·.k) := by simp [hl]
      obtain ⟨h1, h2⟩ := List.mem_filter.1 hmem
      exact ⟨List.mem_append_right _ h1, h2⟩

/-- No key that is left lies before the one the cursor is at. -/
theorem Chosen.le : ∀ {n : ℕ} {T : Beps n} {lo hi : Option Bytes} {path : List Scanp} {m : GefsMsg}
    {src : Option ℕ}, Chosen P n T path m src → Ordered n T lo hi →
    ∀ x ∈ allOps n T, P x.k = true → m.k ≤ x.k
  | 0, es, _, _, _, _, _, ⟨_, _, _, _, e, l, he, rfl⟩, ho, x, hx, hP => by
    obtain ⟨y, hy, rfl⟩ := List.mem_map.1 hx
    have hmem : y ∈ (show List GefsKvp from es).filter (P ·.1) := List.mem_filter.2 ⟨hy, hP⟩
    have hs : Ascending ((show List GefsKvp from es).filter (P ·.1)) := ho.1.filter _
    rw [he] at hmem hs
    rcases List.mem_cons.1 hmem with rfl | hmem
    · exact le_rfl
    · exact ((List.pairwise_cons.1 hs).1 y hmem).le
  | n + 1, (cs, ms), lo, hi, _, m, _, ⟨_, _, _, _, _, _, _, h⟩, ho, x, hx, hP => by
    rcases h with ⟨l₁, c, l₂, _, rfl, -, h1, -, hat, -, hle⟩ | ⟨-, ⟨l, hl⟩, hlt, -⟩
    · obtain ⟨⟨hi', hc⟩, hright⟩ := ho.child
      rcases List.mem_append.1 hx with hx | hx
      · obtain ⟨d, hd, hx'⟩ := List.mem_flatMap.1 hx
        rcases List.mem_append.1 hd with hd | hd
        · rw [h1 d hd x hx'] at hP
          exact absurd hP (by simp)
        rcases List.mem_cons.1 hd with rfl | hd
        · exact hat.le hc x hx' hP
        · exact (hright d hd m hat.mem.1 x hx').le
      · exact hle x (List.mem_filter.2 ⟨hx, hP⟩)
    · rcases List.mem_append.1 hx with hx | hx
      · obtain ⟨d, hd, hx⟩ := List.mem_flatMap.1 hx
        exact (hlt d hd x hx hP).le
      · have hmem : x ∈ ms.filter (P ·.k) := List.mem_filter.2 ⟨hx, hP⟩
        have hs := ho.msgs.filter (P ·.k)
        rw [hl] at hmem hs
        rcases List.mem_cons.1 hmem with rfl | hmem
        · exact le_rfl
        · exact (List.pairwise_cons.1 hs).1 x hmem

/-- What the cursor is at once the messages of the pivots are looked at. -/
def pick (path : List Scanp) (m : GefsMsg) (src : Option ℕ) : GefsMsg × Option ℕ :=
  (least path m).elim (m, src) fun r => (r.1, some r.2)

theorem least_cons {p : Scanp} {q : List Scanp} (hq : q ≠ []) (m : GefsMsg) :
    least (p :: q) m =
      match p.b with
      | none => (least q m).map fun r => (r.1, r.2 + 1)
      | some b =>
        if (p.bi : ℤ) = b.nbuf then (least q m).map fun r => (r.1, r.2 + 1)
        else if gefsKeycmp (gefsGetmsg b p.bi).k
            (((least q m).map fun r => (r.1, r.2 + 1)).elim m (·.1)).k < 0
          then some (gefsGetmsg b p.bi, 0)
          else (least q m).map fun r => (r.1, r.2 + 1) := by
  cases q with
  | nil => exact absurd rfl hq
  | cons => rfl

theorem least_gone (m : GefsMsg) : ∀ n, least (List.replicate n gone) m = none
  | 0 => rfl
  | 1 => rfl
  | n + 2 => by
    have ih := least_gone m (n + 1)
    rw [List.replicate_succ, least_cons (by simp), ih]
    rfl

/-- A pivot's next message is taken where its key is below what the lower levels have. -/
theorem pick_cons {es : List GefsKvp} {ms : List GefsMsg} {bi vi : ℕ} {b : Content} {p : Scanp}
    {q : List Scanp} (hp : AtPivot P es ms bi vi b p) (hq : q ≠ []) (m : GefsMsg)
    (src : Option ℕ) : pick (p :: q) m (src.map (· + 1)) =
      match ms.filter (P ·.k) with
      | [] => ((pick q m src).1, (pick q m src).2.map (· + 1))
      | x :: _ => if x.k < (pick q m src).1.k then (x, some 0)
        else ((pick q m src).1, (pick q m src).2.map (· + 1)) := by
  have hlow : ((least q m).map fun r => (r.1, r.2 + 1)).elim m (·.1) = (pick q m src).1 := by
    unfold pick
    cases least q m <;> rfl
  have hrest : ((least q m).map fun r => (r.1, r.2 + 1)).elim (m, src.map (· + 1))
      (fun r => (r.1, some r.2)) = ((pick q m src).1, (pick q m src).2.map (· + 1)) := by
    unfold pick
    cases least q m <;> rfl
  have hb : p.b = some b := by rw [hp.eq]
  have hi : p.bi = bi := by rw [hp.eq]
  conv_lhs => unfold pick
  rw [least_cons hq]
  simp only [hb, hi, hp.block.nbuf, hlow]
  rcases hms : ms.filter (P ·.k) with _ | ⟨x, l⟩
  · simp only [hms]
    have hle := hp.le
    have hd := hp.left
    rw [hms, List.drop_eq_nil_iff] at hd
    rw [if_pos (by omega)]
    exact hrest
  · obtain ⟨hlt, hx⟩ := hp.next hms
    simp only [hms]
    rw [if_neg (by omega), hx]
    by_cases hk : x.k < (pick q m src).1.k
    · rw [if_pos (gefsKeycmp_neg.2 hk), if_pos hk]
      rfl
    · rw [if_neg (mt gefsKeycmp_neg.1 hk), if_neg hk]
      exact hrest

/-- The least key is found. -/
theorem least_spec : ∀ {n : ℕ} {T : Beps n} {lo hi : Option Bytes} {path : List Scanp}
    {m : GefsMsg} {src : Option ℕ}, Ready P n T path m src → Ordered n T lo hi →
    Chosen P n T path (pick path m src).1 (pick path m src).2
  | 0, _, _, _, _, _, _, ⟨rfl, p, rfl, h⟩, _ => ⟨rfl, p, rfl, h⟩
  | n + 1, (cs, ms), lo, hi, _, m, src, ⟨p, q, bi, vi, b, rfl, hp, h⟩, ho => by
    refine ⟨p, q, bi, vi, b, rfl, hp, ?_⟩
    rcases h with ⟨l₁, c, l₂, src', rfl, hvi, h1, h2, hr, rfl⟩ | ⟨rfl, h1, h2, rfl, l, hl⟩
    · obtain ⟨⟨hi', hc⟩, hright⟩ := ho.child
      have hat := least_spec hr hc
      have hne : q ≠ [] := by
        rintro rfl
        have := length_stands hr.stands
        simp at this
      rw [pick_cons hp hne]
      generalize hw : pick q m src' = w at hat
      obtain ⟨m1, src1⟩ := w
      rcases hms : ms.filter (P ·.k) with _ | ⟨x, l⟩
      · simp only [hms]
        exact .inl ⟨l₁, c, l₂, src1, rfl, hvi, h1, h2, hat, rfl, by simp⟩
      · simp only [hms]
        by_cases hk : x.k < m1.k
        · simp only [if_pos hk]
          refine .inr ⟨trivial, ⟨l, rfl⟩, fun d hd y hy hP => ?_, .inl ⟨l₁, c, l₂, rfl, hvi, h1, h2,
            hr.stands⟩⟩
          rcases List.mem_append.1 hd with hd | hd
          · rw [h1 d hd y hy] at hP
            exact absurd hP (by simp)
          rcases List.mem_cons.1 hd with rfl | hd
          · exact hk.trans_le (hat.le hc y hy hP)
          · exact hk.trans (hright d hd m1 hat.mem.1 y hy)
        · simp only [if_neg hk]
          refine .inl ⟨l₁, c, l₂, src1, rfl, hvi, h1, h2, hat, rfl, fun y hy => ?_⟩
          have hs := ho.msgs.filter (P ·.k)
          rw [hms] at hs
          rcases List.mem_cons.1 hy with rfl | hy
          · exact not_lt.1 hk
          · exact (not_lt.1 hk).trans ((List.pairwise_cons.1 hs).1 y hy)
    · have hpick : pick (p :: List.replicate (n + 1) gone) m (some 0) = (m, some 0) := by
        have hb : p.b = some b := by rw [hp.eq]
        have hi : p.bi = bi := by rw [hp.eq]
        obtain ⟨hlt, hx⟩ := hp.next hl
        have hself : ¬ gefsKeycmp m.k m.k < 0 := mt gefsKeycmp_neg.1 (lt_irrefl _)
        unfold pick
        rw [least_cons (by simp), least_gone]
        simp only [hb, hi, hx, Option.map_none, Option.elim_none, if_neg hself, ite_self]
      rw [hpick]
      refine .inr ⟨rfl, ⟨l, hl⟩, fun c hc x hx hP => ?_, .inr ⟨h1, h2, rfl⟩⟩
      rw [h2 c hc x hx] at hP
      exact absurd hP (by simp)

end Least

/-! ## Past a key -/

/-- The keys left of `P` behind `k`. -/
def past (P : Bytes → Bool) (k : Bytes) : Bytes → Bool := fun x => P x && decide (k < x)

/-- A message does not touch the key. -/
def KeepsKey (ap : GefsKvp → GefsMsg → Option (Bool × GefsKvp)) : Prop :=
  ∀ kv m r, m.k = kv.1 → ap kv m = some r → r.2.1 = kv.1

/-- The messages of `l` one after the other on a pair. -/
def applyList (ap : GefsKvp → GefsMsg → Option (Bool × GefsKvp)) (l : List GefsMsg)
    (r : Bool × GefsKvp) : Option (Bool × GefsKvp) :=
  l.foldlM (fun r m => ap r.2 m) r

section Drain

variable {P P' : Bytes → Bool} {ap : GefsKvp → GefsMsg → Option (Bool × GefsKvp)} {k : Bytes}

theorem applyAll_append (l l' : List GefsMsg) (r : Bool × GefsKvp) :
    applyList ap (l ++ l') r = (applyList ap l r).bind (applyList ap l') := by
  unfold applyList
  rw [List.foldlM_append]
  rfl

theorem KeepsKey.applyList (h : KeepsKey ap) : ∀ {l : List GefsMsg} {r r' : Bool × GefsKvp},
    (∀ m ∈ l, m.k = k) → r.2.1 = k → applyList ap l r = some r' → r'.2.1 = k
  | [], _, _, _, hr, he => by
    obtain rfl := Option.some.inj he
    exact hr
  | m :: l, r, r', hl, hr, he => by
    rw [List.forall_mem_cons] at hl
    obtain ⟨u, hu, he⟩ := Option.bind_eq_some_iff.1
      (show (ap r.2 m).bind (fun u => GefsFuse.applyList ap l u) = some r' from he)
    exact h.applyList hl.2 ((h _ _ _ (by rw [hl.1, hr]) hu).trans hr) he

theorem dropWhile_eq_filter {l : List GefsMsg} (hs : l.Pairwise fun a b => a.k ≤ b.k)
    (hk : ∀ m ∈ l, k ≤ m.k) : l.dropWhile (·.k = k) = l.filter (k < ·.k) := by
  induction l with
  | nil => rfl
  | cons m l ih =>
    obtain ⟨hm, hl⟩ := List.pairwise_cons.1 hs
    rw [List.forall_mem_cons] at hk
    rw [List.dropWhile_cons]
    by_cases he : m.k = k
    · rw [if_pos (by simpa using he), ih hl hk.2,
        List.filter_cons_of_neg (by simp [he])]
    · have hlt : ∀ x ∈ m :: l, k < x.k := by
        have h1 : k < m.k := lt_of_le_of_ne hk.1 (Ne.symm he)
        intro x hx
        rcases List.mem_cons.1 hx with rfl | hx
        · exact h1
        · exact h1.trans_le (hm x hx)
      rw [if_neg (by simpa using he), List.filter_eq_self.2 (by simpa using hlt)]

/-- The loop over the messages on a key from the `j`-th on. -/
theorem applyMsgs_spec {es : List GefsKvp} {ms : List GefsMsg} {c : Content}
    (hp : IsPivot es ms c) (hap : KeepsKey ap) : ∀ {n j : ℕ} {r : Bool × GefsKvp},
    ms.length ≤ n + j → r.2.1 = k →
    Cursor.applyMsgs ap c n j r = (applyList ap ((ms.drop j).takeWhile (·.k = k)) r).map
      fun r' => (j + ((ms.drop j).takeWhile (·.k = k)).length, r')
  | 0, j, r, h, _ => by
    rw [List.drop_eq_nil_of_le (by omega)]
    rfl
  | n + 1, j, r, h, hr => by
    unfold Cursor.applyMsgs
    rcases Nat.lt_or_ge j ms.length with hj | hj
    · rw [List.drop_eq_getElem_cons hj, List.takeWhile_cons, hp.getmsg j hj, hp.nbuf, hr]
      by_cases hk : ms[j].k = k
      · have hc : (j : ℤ) < ms.length ∧ gefsKeycmp k ms[j].k = 0 :=
          ⟨by omega, gefsKeycmp_eq_zero.2 hk.symm⟩
        have hcons : ∀ l, applyList ap (ms[j] :: l) r
            = (ap r.2 ms[j]).bind (applyList ap l) := fun l => rfl
        rw [if_pos hc, if_pos (by simpa using hk), hcons]
        rcases hu : ap r.2 ms[j] with _ | u
        · rfl
        · simp only [Option.bind_eq_bind, Option.bind_some, List.length_cons]
          rw [applyMsgs_spec hp hap (by omega) ((hap _ _ _ (hk.trans hr.symm) hu).trans hr)]
          have hadd : ∀ i, j + 1 + i = j + (i + 1) := fun i => by omega
          simp only [hadd]
      · rw [if_neg fun hc => hk (gefsKeycmp_eq_zero.1 hc.2).symm, if_neg (by simpa using hk)]
        rfl
    · rw [List.drop_eq_nil_of_le hj, if_neg fun hc => ?_]
      · rfl
      · have := hc.1
        rw [hp.nbuf] at this
        omega

theorem drain_cons {p : Scanp} {q : List Scanp} (hq : q ≠ []) (r : Bool × GefsKvp) :
    drain ap (p :: q) r = (drain ap q r).bind fun x =>
      match p.b with
      | none => some (p :: x.1, x.2)
      | some b => (Cursor.applyMsgs ap b (b.nbuf - p.bi).toNat p.bi x.2).map fun y =>
          ({ p with bi := y.1 } :: x.1, y.2) := by
  cases q with
  | nil => exact absurd rfl hq
  | cons p' q =>
    rw [drain]
    · rcases drain ap (p' :: q) r with _ | ⟨q', r'⟩
      · rfl
      · simp only [Option.bind_eq_bind, Option.bind_some]
        rcases p.b with _ | b
        · rfl
        · simp only [Option.map_eq_bind]
          rfl
    · simp

theorem drain_gone (r : Bool × GefsKvp) : ∀ n,
    drain ap (List.replicate n gone) r = some (List.replicate n gone, r)
  | 0 => rfl
  | 1 => rfl
  | n + 2 => by
    rw [List.replicate_succ, drain_cons (by simp), drain_gone r (n + 1)]
    rfl

theorem drop_takeWhile_length {α : Type} (f : α → Bool) (l : List α) :
    l.drop (l.takeWhile f).length = l.dropWhile f := by
  induction l with
  | nil => rfl
  | cons x l ih =>
    by_cases hx : f x = true
    · rw [List.takeWhile_cons_of_pos hx, List.dropWhile_cons_of_pos hx, List.length_cons,
        List.drop_succ_cons, ih]
    · rw [List.takeWhile_cons_of_neg hx, List.dropWhile_cons_of_neg hx]
      rfl

theorem takeWhile_drop {α : Type} (f : α → Bool) : ∀ (d : ℕ) (l : List α),
    d ≤ (l.takeWhile f).length → (l.drop d).takeWhile f = (l.takeWhile f).drop d
  | 0, _, _ => rfl
  | d + 1, [], _ => by simp
  | d + 1, x :: l, h => by
    by_cases hx : f x = true
    · rw [List.takeWhile_cons_of_pos hx, List.length_cons] at h
      rw [List.takeWhile_cons_of_pos hx, List.drop_succ_cons, List.drop_succ_cons,
        takeWhile_drop f d l (by omega)]
    · rw [List.takeWhile_cons_of_neg hx] at h
      exact absurd h (by simp)

/-- A pivot's messages on the least key left, from the first or from the one behind it on. -/
theorem AtPivot.drain {es : List GefsKvp} {ms : List GefsMsg} {bi vi : ℕ} {b : Content}
    {p : Scanp} (h : AtPivot P es ms bi vi b p) (hs : ms.Pairwise fun a b => a.k ≤ b.k)
    (hap : KeepsKey ap) (hle : ∀ x ∈ ms.filter (P ·.k), k ≤ x.k) {d : ℕ}
    (hd : d ≤ ((ms.filter (P ·.k)).takeWhile (·.k = k)).length) :
    ∃ j, AtPivot (past P k) es ms j vi b ⟨j, vi, some b⟩ ∧ ∀ r : Bool × GefsKvp, r.2.1 = k →
      Cursor.applyMsgs ap b (b.nbuf - (bi + d : ℕ)).toNat (bi + d) r
        = (applyList ap (((ms.filter (P ·.k)).takeWhile (·.k = k)).drop d) r).map (j, ·) := by
  have hleft := h.left
  have hbi := h.le
  have hlen : (ms.filter (P ·.k)).length = ms.length - bi := by rw [← hleft, List.length_drop]
  have htw := (List.takeWhile_prefix (fun x : GefsMsg => decide (x.k = k))
    (l := ms.filter (P ·.k))).length_le
  have hdrop : ((ms.drop (bi + d)).takeWhile (·.k = k))
      = ((ms.filter (P ·.k)).takeWhile (·.k = k)).drop d := by
    rw [← List.drop_drop, hleft, takeWhile_drop _ _ _ hd]
  refine ⟨bi + ((ms.filter (P ·.k)).takeWhile (·.k = k)).length, ⟨rfl, h.block, by omega, ?_⟩,
    fun r hr => ?_⟩
  · rw [← List.drop_drop, hleft, drop_takeWhile_length, dropWhile_eq_filter (hs.filter _) hle,
      List.filter_filter]
    refine List.filter_congr fun x _ => ?_
    simp [past, Bool.and_comm]
  · have hnb : (b.nbuf - ((bi + d : ℕ) : ℤ)).toNat = ms.length - (bi + d) := by
      rw [h.block.nbuf]
      omega
    rw [hnb, applyMsgs_spec h.block hap (by omega) hr, hdrop, List.length_drop]
    have hadd : bi + d + (((ms.filter (P ·.k)).takeWhile (·.k = k)).length - d)
        = bi + ((ms.filter (P ·.k)).takeWhile (·.k = k)).length := by omega
    rw [hadd]

/-- Only what is left of the keys of the tree matters. -/
theorem Stands.congr : ∀ {n : ℕ} {T : Beps n} {path : List Scanp}, Stands P n T path →
    (∀ m ∈ allOps n T, P m.k = P' m.k) → Stands P' n T path
  | 0, es, _, ⟨p, rfl, hl⟩, h => by
    obtain ⟨bi, vi, b, hp, hb, hd⟩ := hl
    refine ⟨p, rfl, bi, vi, b, hp, hb, hd.trans (List.filter_congr fun e he => ?_)⟩
    exact h (pairMsg e) (List.mem_map_of_mem he)
  | n + 1, (cs, ms), _, ⟨p, q, bi, vi, b, rfl, hp, hc⟩, h => by
    have hchild : ∀ c ∈ cs, ∀ m ∈ allOps n c.2, P m.k = P' m.k := fun c hc m hm =>
      h m (List.mem_append_left _ (List.mem_flatMap.2 ⟨c, hc, hm⟩))
    refine ⟨p, q, bi, vi, b, rfl, ⟨hp.eq, hp.block, hp.le, hp.left.trans
      (List.filter_congr fun x hx => h x (List.mem_append_right _ hx))⟩, ?_⟩
    rcases hc with ⟨l₁, c, l₂, rfl, hvi, h1, h2, h3⟩ | ⟨h1, h2, h3⟩
    · refine .inl ⟨l₁, c, l₂, rfl, hvi, fun d hd m hm => ?_, fun d hd m hm => ?_,
        h3.congr (hchild c (by simp))⟩
      · rw [← hchild d (by simp [hd]) m hm, h1 d hd m hm]
      · rw [← hchild d (by simp [hd]) m hm, h2 d hd m hm]
    · exact .inr ⟨h1, fun d hd m hm => by rw [← hchild d hd m hm, h2 d hd m hm], h3⟩

/-- Where nothing is on the key, nothing is applied. -/
theorem drain_above : ∀ {n : ℕ} {T : Beps n} {path : List Scanp}, Stands P n T path →
    KeepsKey ap → (∀ x ∈ allOps n T, P x.k = true → k < x.k) → ∀ r : Bool × GefsKvp, r.2.1 = k →
    drain ap path r = some (path, r)
  | 0, _, _, ⟨p, rfl, _⟩, _, _, _, _ => rfl
  | n + 1, (cs, ms), _, ⟨p, q, bi, vi, b, rfl, hp, hc⟩, hap, hlt, r, hr => by
    have hq : drain ap q r = some (q, r) ∧ q ≠ [] := by
      rcases hc with ⟨l₁, c, l₂, rfl, -, -, -, h3⟩ | ⟨-, -, rfl⟩
      · refine ⟨drain_above h3 hap (fun x hx => hlt x (List.mem_append_left _
          (List.mem_flatMap.2 ⟨c, by simp, hx⟩))) r hr, ?_⟩
        rintro rfl
        have := length_stands h3
        simp at this
      · exact ⟨drain_gone r _, by simp⟩
    have hnone : (ms.drop bi).takeWhile (·.k = k) = [] := by
      rw [hp.left]
      refine List.takeWhile_eq_nil_iff.2 fun hpos => ?_
      obtain ⟨hx, hP⟩ := List.mem_filter.1 (List.getElem_mem hpos)
      simpa using (hlt _ (List.mem_append_right _ hx) hP).ne'
    have hle := hp.le
    rw [drain_cons hq.2, hq.1, Option.bind_some, hp.eq]
    simp only
    rw [applyMsgs_spec hp.block hap (by rw [hp.block.nbuf]; omega) hr, hnone]
    rfl

theorem advance_cons {p : Scanp} {q : List Scanp} (hq : q ≠ []) (src : Option ℕ) :
    advance (p :: q) (src.map (· + 1)) = p :: advance q src := by
  rcases src with _ | i
  · obtain ⟨p', q, rfl⟩ := List.exists_cons_of_ne_nil hq
    rfl
  · rfl

/-- What is applied to the least key left are the entries and messages on it behind the one the
cursor is at, and it goes past them. -/
theorem Chosen.drain : ∀ {n : ℕ} {T : Beps n} {lo hi : Option Bytes} {path : List Scanp} {m : GefsMsg}
    {src : Option ℕ}, Chosen P n T path m src → Ordered n T lo hi → KeepsKey ap →
    ∃ rest path', (allOps n T).filter (·.k = m.k) = m :: rest ∧ Stands (past P m.k) n T path'
      ∧ ∀ r : Bool × GefsKvp, r.2.1 = m.k →
        drain ap (advance path src) r = (applyList ap rest r).map (path', ·)
  | 0, es, _, _, _, _, _, ⟨rfl, p, rfl, hl, e, l, he, rfl⟩, ho, _ => by
    obtain ⟨bi, vi, b, rfl, hb, hd⟩ := hl
    have hs : Ascending ((show List GefsKvp from es).filter (P ·.1)) := ho.1.filter _
    have hPe : P e.1 = true := by
      have hmem : e ∈ (show List GefsKvp from es).filter (P ·.1) := by simp [he]
      exact (List.mem_filter.1 hmem).2
    have hgt : ∀ x ∈ l, e.1 < x.1 := by
      rw [he] at hs
      exact (List.pairwise_cons.1 hs).1
    refine ⟨[], _, ?_, ⟨_, rfl, bi, vi + 1, b, rfl, hb, ?_⟩, fun r _ => rfl⟩
    · have hone : (show List GefsKvp from es).filter (·.1 = e.1) = [e] := by
        have h1 : (show List GefsKvp from es).filter (·.1 = e.1)
            = ((show List GefsKvp from es).filter (P ·.1)).filter (·.1 = e.1) := by
          rw [List.filter_filter]
          refine List.filter_congr fun x _ => ?_
          by_cases hx : x.1 = e.1
          · simp [hx, hPe]
          · simp [hx]
        rw [h1, he, List.filter_cons_of_pos (by simp),
          List.filter_eq_nil_iff.2 fun x hx => by simpa using (hgt x hx).ne']
      rw [allOps, List.filter_map]
      exact congrArg (List.map pairMsg) hone
    · have hl : (show List GefsKvp from es).drop (vi + 1) = l := by
        rw [← List.drop_drop, show (show List GefsKvp from es).drop vi = e :: l from hd.trans he]
        rfl
      have hfil : (show List GefsKvp from es).filter (past P e.1 ·.1)
          = ((show List GefsKvp from es).filter (P ·.1)).filter (e.1 < ·.1) := by
        rw [List.filter_filter]
        exact List.filter_congr fun x _ => by simp [past, Bool.and_comm]
      refine hl.trans (Eq.symm ?_)
      show (show List GefsKvp from es).filter (past P e.1 ·.1) = l
      rw [hfil, he, List.filter_cons_of_neg (by simp),
        List.filter_eq_self.2 fun x hx => by simpa using hgt x hx]
  | n + 1, (cs, ms), lo, hi, _, m, _, ⟨p, q, bi, vi, b, rfl, hp, hc⟩, ho, hap => by
    have hms := ho.msgs
    have hspent : ∀ {l : List (GefsKvp × Beps n)}, Spent P n l → Spent (past P m.k) n l :=
      fun h d hd x hx => by simp [past, h d hd x hx]
    have hb : p.b = some b := by rw [hp.eq]
    have hi : p.bi = bi := by rw [hp.eq]
    -- what a pivot has on the key
    have hon : ∀ (hPm : P m.k = true) (hle : ∀ x ∈ ms.filter (P ·.k), m.k ≤ x.k),
        ms.filter (·.k = m.k) = (ms.filter (P ·.k)).takeWhile (·.k = m.k) := by
      intro hPm hle
      rw [← filter_eq_takeWhile (hms.filter _) hle, List.filter_filter]
      refine List.filter_congr fun x _ => ?_
      by_cases hx : x.k = m.k
      · simp [hx, hPm]
      · simp [hx]
    rcases hc with ⟨l₁, c, l₂, src', rfl, hvi, h1, h2, hat, rfl, hle⟩ | ⟨rfl, ⟨l, hl⟩, hlt, hst⟩
    · obtain ⟨⟨hi', hc⟩, hright⟩ := ho.child
      obtain ⟨rest, q', hrest, hst, hdr⟩ := hat.drain hc hap
      have hPm := hat.mem.2
      have hgt : ∀ d ∈ l₂, ∀ x ∈ allOps n d.2, m.k < x.k := fun d hd x hx =>
        hright d hd m hat.mem.1 x hx
      have hne : q ≠ [] := by
        rintro rfl
        cases n with
        | zero =>
          obtain ⟨-, _, h, -⟩ := hat
          exact absurd h (by simp)
        | succ n =>
          obtain ⟨_, _, _, _, _, h, -⟩ := hat
          exact absurd h (by simp)
      obtain ⟨j, hj, happ⟩ := hp.drain (k := m.k) hms hap hle (Nat.zero_le _)
      refine ⟨rest ++ (ms.filter (P ·.k)).takeWhile (·.k = m.k), ⟨j, vi, some b⟩ :: q', ?_,
        ⟨_, q', j, vi, b, rfl, hj, .inl ⟨l₁, c, l₂, rfl, hvi, hspent h1, fun d hd x hx => ?_, hst⟩⟩,
        fun r hr => ?_⟩
      · have hnil : ∀ (l : List (GefsKvp × Beps n)), (∀ d ∈ l, ∀ x ∈ allOps n d.2, x.k ≠ m.k) →
            (l.flatMap fun c => allOps n c.2).filter (·.k = m.k) = [] := by
          intro l h
          refine List.filter_eq_nil_iff.2 fun x hx => ?_
          obtain ⟨d, hd, hx⟩ := List.mem_flatMap.1 hx
          simpa using h d hd x hx
        rw [allOps, List.filter_append, List.flatMap_append, List.flatMap_cons, List.filter_append,
          List.filter_append, hrest, hon hPm hle, hnil l₁ fun d hd x hx he => ?_,
          hnil l₂ fun d hd x hx => (hgt d hd x hx).ne']
        · simp
        · have := h1 d hd x hx
          rw [he, hPm] at this
          exact absurd this (by simp)
      · simp [past, h2 d hd x hx, hgt d hd x hx]
      · have hne' : advance q src' ≠ [] := by
          rw [← List.length_pos_iff]
          rcases src' with _ | i <;> simpa [advance, List.length_pos_iff] using hne
        rw [advance_cons hne, drain_cons hne', hdr r hr, applyAll_append]
        rcases ha : applyList ap rest r with _ | u
        · rfl
        · have hu : u.2.1 = m.k := by
            refine KeepsKey.applyList hap (fun x hx => ?_) hr ha
            have hmem : x ∈ (allOps n c.2).filter (·.k = m.k) := by simp [hrest, hx]
            simpa using (List.mem_filter.1 hmem).2
          have hu' := happ u hu
          simp only [Nat.add_zero, List.drop_zero] at hu'
          simp only [Option.map_some, Option.bind_some, hb, hi, hu']
          cases applyList ap ((ms.filter (P ·.k)).takeWhile (·.k = m.k)) u <;> simp [hp.eq]
    · have hPm : P m.k = true := by
        have hmem : m ∈ ms.filter (P ·.k) := by simp [hl]
        exact (List.mem_filter.1 hmem).2
      have hle : ∀ x ∈ ms.filter (P ·.k), m.k ≤ x.k := by
        have hs := hms.filter (P ·.k)
        rw [hl] at hs ⊢
        intro x hx
        rcases List.mem_cons.1 hx with rfl | hx
        · exact le_rfl
        · exact (List.pairwise_cons.1 hs).1 x hx
      have htw : (ms.filter (P ·.k)).takeWhile (·.k = m.k)
          = m :: l.takeWhile (·.k = m.k) := by
        rw [hl, List.takeWhile_cons_of_pos (by simp)]
      obtain ⟨j, hj, happ⟩ := hp.drain (k := m.k) (d := 1) hms hap hle (by rw [htw]; simp)
      have hq : (∀ r : Bool × GefsKvp, r.2.1 = m.k → GefsFuse.Cursor.drain ap q r = some (q, r))
          ∧ q ≠ [] := by
        rcases hst with ⟨l₁, c, l₂, rfl, -, -, -, h3⟩ | ⟨-, -, rfl⟩
        · refine ⟨fun r hr => drain_above h3 hap (hlt c (by simp)) r hr, ?_⟩
          rintro rfl
          have := length_stands h3
          simp at this
        · exact ⟨fun r _ => drain_gone r _, by simp⟩
      refine ⟨l.takeWhile (·.k = m.k), ⟨j, vi, some b⟩ :: q, ?_, ⟨_, q, j, vi, b, rfl, hj, ?_⟩,
        fun r hr => ?_⟩
      · have hnil : (cs.flatMap fun c => allOps n c.2).filter (·.k = m.k) = [] := by
          refine List.filter_eq_nil_iff.2 fun x hx => ?_
          obtain ⟨d, hd, hx⟩ := List.mem_flatMap.1 hx
          simp only [decide_eq_true_eq]
          intro he
          have := hlt d hd x hx (by rw [he, hPm])
          exact absurd he this.ne'
        rw [allOps, List.filter_append, hnil, List.nil_append, hon hPm hle, htw]
      · rcases hst with ⟨l₁, c, l₂, rfl, hvi, h1, h2, h3⟩ | ⟨h1, h2, rfl⟩
        · have hsame : ∀ d ∈ l₁ ++ c :: l₂, ∀ x ∈ allOps n d.2, P x.k = past P m.k x.k := by
            intro d hd x hx
            rcases hP : P x.k
            · simp [past, hP]
            · simp [past, hP, hlt d hd x hx hP]
          refine .inl ⟨l₁, c, l₂, rfl, hvi, hspent h1, fun d hd x hx => ?_,
            h3.congr (hsame c (by simp))⟩
          rw [← hsame d (by simp [hd]) x hx, h2 d hd x hx]
        · exact .inr ⟨h1, hspent h2, rfl⟩
      · have hadv : advance (p :: q) (some 0) = { p with bi := p.bi + 1 } :: q := rfl
        have happ' := happ r hr
        rw [htw, List.drop_succ_cons, List.drop_zero] at happ'
        rw [hadv, drain_cons hq.2, hq.1 r hr, Option.bind_some]
        simp only [hb, hi, happ']
        cases applyList ap (l.takeWhile (·.k = m.k)) r <;> simp [hp.eq]

end Drain

/-! ## The scan -/

/-- What all of a key's entries and messages make of it. -/
def onKey (ap : GefsKvp → GefsMsg → Option (Bool × GefsKvp)) (l : List GefsMsg) (k : Bytes) :
    Option (Bool × GefsKvp) :=
  match l.filter (·.k = k) with
  | [] => none
  | m :: l => applyList ap l (true, (m.k, m.v))

/-- What a scan for `pfx` makes of the keys it comes to. -/
def visit (chk : GefsMsg → Bool) (ap : GefsKvp → GefsMsg → Option (Bool × GefsKvp)) (pfx : Bytes)
    (n : ℕ) (T : Beps n) : List Bytes → Option (List GefsKvp)
  | [] => some []
  | k :: ks =>
    if (standAt (k ≤ ·) n T).all (·.all chk) then
      if pfx.isPrefixOf k then do
        let r ← onKey ap (allOps n T) k
        let l ← visit chk ap pfx n T ks
        some (if r.1 then r.2 :: l else l)
      else some []
    else none

section Turn

variable {P P' : Bytes → Bool} {get : GefsBptr → Option Content} {chk : GefsMsg → Bool}
  {ap : GefsKvp → GefsMsg → Option (Bool × GefsKvp)} {pfx : Bytes} {n : ℕ} {T : Beps n}
  {lo hi : Option Bytes} {bp : GefsBptr} {path : List Scanp}

theorem standAt_congr : ∀ {n : ℕ} {T : Beps n}, (∀ m ∈ allOps n T, P m.k = P' m.k) →
    standAt P n T = standAt P' n T
  | 0, es, h => by
    have hany : ∀ l : List GefsKvp, (∀ e ∈ l, P e.1 = P' e.1) →
        l.any (P ·.1) = l.any (P' ·.1) := by
      intro l hl
      rw [Bool.eq_iff_iff, List.any_eq_true, List.any_eq_true]
      exact exists_congr fun e => and_congr_right fun he => by rw [hl e he]
    simp only [standAt, hany es fun e he => h (pairMsg e) (List.mem_map_of_mem he)]
  | n + 1, (cs, ms), h => by
    have hcs : ∀ l : List (GefsKvp × Beps n), (∀ c ∈ l, c ∈ cs) →
        (l.findSome? fun c => standAt P n c.2) = l.findSome? fun c => standAt P' n c.2 := by
      intro l hl
      induction l with
      | nil => rfl
      | cons c l ih =>
        rw [List.forall_mem_cons] at hl
        rw [List.findSome?_cons, List.findSome?_cons, ih hl.2, standAt_congr fun m hm =>
          h m (List.mem_append_left _ (List.mem_flatMap.2 ⟨c, hl.1, hm⟩))]
    have hms : ms.find? (P ·.k) = ms.find? (P' ·.k) := by
      rw [← List.head?_filter, ← List.head?_filter]
      exact congrArg List.head? (List.filter_congr fun x hx => h x (List.mem_append_right _ hx))
    rw [standAt, standAt, hcs cs fun _ h => h, hms]

/-- Every entry and message fits the buffer of a scan. -/
def Scannable (n : ℕ) (T : Beps n) : Prop := ∀ m ∈ allOps n T, m.k.length + m.v.length ≤ gefsKvmax

/-- A turn of a cursor that stands in a tree: it is at its end, it stops, or it comes to the least
key left, whose first pair must fit the buffer. -/
theorem turn_cases (pfx : Bytes) (hin : Server.TreeIn get n T bp) (ho : Ordered n T lo hi)
    (hpe : n ≠ 0 → Peopled n T) (hap : KeepsKey ap) (hst : Stands P n T path) :
    (∀ m ∈ allOps n T, P m.k = false) ∧ turn get chk ap pfx path = some none
      ∨ (∃ m ∈ allOps n T, P m.k = true) ∧ (standAt P n T).all (·.all chk) = false
        ∧ turn get chk ap pfx path = none
      ∨ (standAt P n T).all (·.all chk) = true ∧ ∃ m ∈ allOps n T, P m.k = true
        ∧ (∀ x ∈ allOps n T, P x.k = true → m.k ≤ x.k)
        ∧ ∃ path', Stands (past P m.k) n T path' ∧ turn get chk ap pfx path =
          if pfx.isPrefixOf m.k then (gefsCpkvp (m.k, m.v) gefsKvmax).bind fun _ =>
            (onKey ap (allOps n T) m.k).map fun r => some (r, path')
          else some none := by
  rcases climb_spec hst with ⟨hno, hcl⟩ | ⟨path₁, s, hcl, hstd⟩
  · refine .inl ⟨hno, ?_⟩
    rcases hc : climb path with ⟨q, s⟩
    rw [hc] at hcl
    obtain rfl : s = none := hcl
    simp only [turn, hc]
  · refine .inr ?_
    obtain ⟨x, hx, ⟨hchk, hsrc⟩ | ⟨hchk, path₂, m, src, hsrc, hr⟩⟩ :=
      @source_spec _ _ chk _ _ _ _ _ hin hpe hstd
    · refine .inl ⟨hstd.exists hpe, by rw [hx]; exact hchk, ?_⟩
      simp only [turn, hcl, hsrc, Option.bind_eq_bind, Option.bind_none]
    · have hat := least_spec hr ho
      generalize hw : pick path₂ m src = w at hat
      obtain ⟨m, src⟩ := w
      obtain ⟨rest, path', hrest, hst', hdr⟩ := hat.drain ho hap
      refine .inr ⟨by rw [hx]; exact hchk, m, hat.mem.1, hat.mem.2, hat.le ho, path', hst', ?_⟩
      have hon : onKey ap (allOps n T) m.k = applyList ap rest (true, (m.k, m.v)) := by
        simp only [onKey, hrest]
      have hw' := hw
      unfold pick at hw'
      simp only [turn, hcl, hsrc, Option.bind_eq_bind, Option.bind_some, hw', hon]
      unfold gefsCpkvp
      split_ifs
      · simp only [Option.bind_some, hdr (true, (m.k, m.v)) rfl]
        cases applyList ap rest (true, (m.k, m.v)) <;> rfl
      · rfl
      · rfl

/-- A turn where everything fits. -/
theorem turn_spec (hin : Server.TreeIn get n T bp) (ho : Ordered n T lo hi) (hpe : n ≠ 0 → Peopled n T)
    (hsm : Scannable n T) (hap : KeepsKey ap) (hst : Stands P n T path) :
    (∀ m ∈ allOps n T, P m.k = false) ∧ turn get chk ap pfx path = some none
      ∨ (∃ m ∈ allOps n T, P m.k = true) ∧ (standAt P n T).all (·.all chk) = false
        ∧ turn get chk ap pfx path = none
      ∨ (standAt P n T).all (·.all chk) = true ∧ ∃ m ∈ allOps n T, P m.k = true
        ∧ (∀ x ∈ allOps n T, P x.k = true → m.k ≤ x.k)
        ∧ ∃ path', Stands (past P m.k) n T path' ∧ turn get chk ap pfx path =
          if pfx.isPrefixOf m.k then (onKey ap (allOps n T) m.k).map fun r => some (r, path')
          else some none := by
  rcases turn_cases pfx hin ho hpe hap hst with h | h | ⟨hchk, m, hm, hP, hle, path', hst', ht⟩
  · exact .inl h
  · exact .inr (.inl h)
  · have hcp : gefsCpkvp (m.k, m.v) gefsKvmax = some (m.k, m.v) := if_pos (hsm m hm)
    rw [hcp, Option.bind_some] at ht
    exact .inr (.inr ⟨hchk, m, hm, hP, hle, path', hst', ht⟩)

theorem scan_succ (get : GefsBptr → Option Content) (chk : GefsMsg → Bool)
    (ap : GefsKvp → GefsMsg → Option (Bool × GefsKvp)) (pfx : Bytes) (fuel : ℕ)
    (path : List Scanp) : scan get chk ap pfx (fuel + 1) path = (turn get chk ap pfx path).bind fun
      | none => some []
      | some (r, path) => (scan get chk ap pfx fuel path).bind fun l =>
        some (if r.1 then r.2 :: l else l) := rfl

/-- A cursor that stands before the keys `ks` visits them in their order. -/
theorem scan_eq (hin : Server.TreeIn get n T bp) (ho : Ordered n T lo hi) (hpe : n ≠ 0 → Peopled n T)
    (hsm : Scannable n T) (hap : KeepsKey ap) : ∀ {ks : List Bytes} {fuel : ℕ} {P : Bytes → Bool}
    {path : List Scanp}, Stands P n T path → (∀ a b, P a = true → a ≤ b → P b = true) →
    ks.Pairwise (· < ·) → (∀ k, k ∈ ks ↔ P k = true ∧ ∃ m ∈ allOps n T, m.k = k) →
    ks.length < fuel → scan get chk ap pfx fuel path = visit chk ap pfx n T ks
  | _, 0, _, _, _, _, _, _, h => absurd h (by simp)
  | ks, fuel + 1, P, path, hst, hup, hasc, hks, hlen => by
    rw [scan_succ]
    rcases ks with _ | ⟨k, ks⟩
    · have hno : ∀ m ∈ allOps n T, P m.k = false := by
        intro m hm
        by_contra hP
        exact absurd ((hks m.k).2 ⟨by simpa using hP, m, hm, rfl⟩) (by simp)
      rcases turn_spec hin ho hpe hsm hap hst with ⟨-, ht⟩ | ⟨⟨m, hm, hP⟩, -⟩
        | ⟨-, m, hm, hP, -⟩
      · rw [ht]
        rfl
      all_goals
        rw [hno m hm] at hP
        exact absurd hP (by simp)
    · obtain ⟨hlt, hasc'⟩ := List.pairwise_cons.1 hasc
      obtain ⟨hPk, mk, hmk, rfl⟩ := (hks k).1 (by simp)
      have hle : ∀ x ∈ allOps n T, P x.k = true → mk.k ≤ x.k := by
        intro x hx hP
        rcases List.mem_cons.1 ((hks x.k).2 ⟨hP, x, hx, rfl⟩) with he | hmem
        · exact he.ge
        · exact (hlt _ hmem).le
      have hstand : standAt P n T = standAt (mk.k ≤ ·) n T := by
        refine standAt_congr fun x hx => ?_
        rcases hP : P x.k
        · have hn : ¬ mk.k ≤ x.k := fun h => by
            rw [hup _ _ hPk h] at hP
            exact absurd hP (by simp)
          simp [hn]
        · simp [hle x hx hP]
      rw [visit, ← hstand]
      rcases turn_spec hin ho hpe hsm hap hst with ⟨hno, -⟩ | ⟨-, hchk, ht⟩
        | ⟨hchk, m, hm, hP, hmin, path', hst', ht⟩
      · rw [hno mk hmk] at hPk
        exact absurd hPk (by simp)
      · rw [ht, if_neg (by simp [hchk])]
        rfl
      · have hkey : m.k = mk.k := le_antisymm (hmin mk hmk hPk) (hle m hm hP)
        rw [hkey] at hst' ht
        rw [ht, if_pos hchk]
        by_cases hp : pfx.isPrefixOf mk.k = true
        · rw [if_pos hp, if_pos hp]
          rcases hr : onKey ap (allOps n T) mk.k with _ | r
          · rfl
          · have hnext : scan get chk ap pfx fuel path' = visit chk ap pfx n T ks := by
              refine scan_eq hin ho hpe hsm hap hst' (fun a b ha hab => ?_) hasc' (fun x => ?_)
                (by simpa using hlen)
              · simp only [past, Bool.and_eq_true, decide_eq_true_eq] at ha ⊢
                exact ⟨hup a b ha.1 hab, ha.2.trans_le hab⟩
              · have hx := hks x
                simp only [past, Bool.and_eq_true, decide_eq_true_eq, List.mem_cons] at hx ⊢
                constructor
                · intro hmem
                  obtain ⟨h1, h2⟩ := hx.1 (.inr hmem)
                  exact ⟨⟨h1, hlt x hmem⟩, h2⟩
                · rintro ⟨⟨h1, h3⟩, h2⟩
                  exact (hx.2 ⟨h1, h2⟩).resolve_left h3.ne'
            simp only [Option.map_some, Option.bind_eq_bind, Option.bind_some, hnext]
        · rw [if_neg hp, if_neg hp]
          rfl

end Turn

/-! ## Entering -/

section Enter

variable {get : GefsBptr → Option Content} {k : Bytes}

theorem drop_eq_filter {α : Type} {f : α → Bool} : ∀ {l : List α} {p : ℕ}, p ≤ l.length →
    (∀ i, (h : i < l.length) → (i < p ↔ f l[i] = false)) → l.drop p = l.filter f
  | [], p, _, _ => by simp
  | x :: l, 0, _, h => by
    refine (List.filter_eq_self.2 fun y hy => ?_).symm
    obtain ⟨i, hi, rfl⟩ := List.mem_iff_getElem.1 hy
    have := (h i hi).not.1 (by omega)
    rwa [Bool.not_eq_false] at this
  | x :: l, p + 1, hp, h => by
    have hx : f x = false := (h 0 (by simp)).1 (by omega)
    rw [List.drop_succ_cons, List.filter_cons_of_neg (by simp [hx])]
    refine drop_eq_filter (by simpa using hp) fun i hi => ?_
    have := h (i + 1) (by simpa using hi)
    rwa [List.getElem_cons_succ, Nat.add_lt_add_iff_right] at this

/-- The messages on the key of the `i`-th end before the next one. -/
theorem skipMsgs_next {es : List GefsKvp} {ms : List GefsMsg} {c : Content} (hp : IsPivot es ms c)
    {i : ℕ} (hi : i < ms.length) (hne : ∀ h : i + 1 < ms.length, ms[i].k ≠ ms[i + 1].k) (n : ℕ) :
    skipMsgs c ms[i] (n + 1) i = i + 1 := by
  have h1 : (i : ℤ) < c.nbuf ∧ gefsKeycmp ms[i].k (gefsGetmsg c (i : ℤ).toNat).k = 0 := by
    rw [hp.nbuf, Int.toNat_natCast, hp.getmsg i hi]
    exact ⟨by omega, gefsKeycmp_eq_zero.2 rfl⟩
  rw [skipMsgs, if_pos h1]
  rcases n with _ | n
  · rfl
  · rw [skipMsgs, if_neg]
    rw [hp.nbuf, show ((i : ℤ) + 1).toNat = i + 1 by omega]
    rintro ⟨hlt, he⟩
    have hlt' : i + 1 < ms.length := by omega
    rw [hp.getmsg (i + 1) hlt'] at he
    exact hne hlt' (gefsKeycmp_eq_zero.1 he)

/-- A pivot is entered at its first message not below the key. -/
theorem enter_msgs {es : List GefsKvp} {ms : List GefsMsg} {c : Content} (hp : IsPivot es ms c)
    (hs : ms.Pairwise fun a b => a.k ≤ b.k) (k : Bytes) :
    ∃ p ≤ ms.length, ms.drop p = ms.filter (k ≤ ·.k)
      ∧ (match bufsearch c k with
        | (_, _, none) => 0
        | (bi, same, some m) =>
          if same = false ∨ true = false then skipMsgs c m (c.nbuf - bi).toNat bi else bi) = (p : ℤ) := by
  obtain ⟨p, hple, hlt, -, h⟩ := bufsearch_pivot hp hs k
  refine ⟨p, hple, drop_eq_filter hple fun i hi => ?_, ?_⟩
  · rw [hlt i hi, decide_eq_false_iff_not, not_le]
  · rcases h with ⟨hpl, hk, h⟩ | ⟨hnone, h⟩
    · simp [h]
    · rw [h]
      rcases Nat.eq_zero_or_pos p with rfl | hp0
      · simp
      · have hj : p - 1 < ms.length := by omega
        rw [if_pos hp0, List.getElem?_eq_getElem hj]
        have hne : ∀ h : p - 1 + 1 < ms.length, ms[p - 1].k ≠ ms[p - 1 + 1].k := by
          intro h' he
          have h1 := (hlt (p - 1) hj).1 (by omega)
          have h2 := (hlt (p - 1 + 1) h').not.1 (by omega)
          rw [he] at h1
          exact h2 h1
        have hn : (c.nbuf - ((p : ℤ) - 1)).toNat = (ms.length - p) + 1 := by
          rw [hp.nbuf]
          omega
        have hcast : ((p : ℤ) - 1) = ((p - 1 : ℕ) : ℤ) := by omega
        have hskip := skipMsgs_next hp hj hne (ms.length - p)
        simp only [true_or, if_true, hn]
        rw [hcast, hskip]
        omega

/-- What is left for a cursor at `k`, one that enters again going past `k`. -/
def entered (k : Bytes) : Bool → Bytes → Bool
  | true => (k ≤ ·)
  | false => (k < ·)

theorem entered_of_lt {x : Bytes} (h : k < x) : ∀ first, entered k first x = true
  | true => decide_eq_true h.le
  | false => decide_eq_true h

theorem entered_eq_false {x : Bytes} (h : x < k) : ∀ first, entered k first x = false
  | true => decide_eq_false h.not_ge
  | false => decide_eq_false h.not_gt

/-- The messages on the key of `m` from the `i`-th on are skipped. -/
theorem skipMsgs_eq {es : List GefsKvp} {ms : List GefsMsg} {c : Content} (hp : IsPivot es ms c)
    (m : GefsMsg) : ∀ {n i : ℕ}, ms.length ≤ n + i →
    skipMsgs c m n i = (i + ((ms.drop i).takeWhile (·.k = m.k)).length : ℕ)
  | 0, i, h => by
    rw [List.drop_of_length_le (by omega)]
    rfl
  | n + 1, i, h => by
    rw [skipMsgs, hp.nbuf, Int.toNat_natCast]
    by_cases hi : i < ms.length
    · rw [hp.getmsg i hi, List.drop_eq_getElem_cons hi]
      by_cases hk : ms[i].k = m.k
      · have ih := skipMsgs_eq hp m (show ms.length ≤ n + (i + 1) by omega)
        rw [if_pos ⟨by omega, gefsKeycmp_eq_zero.2 hk.symm⟩,
          List.takeWhile_cons_of_pos (by simpa using hk), List.length_cons]
        push_cast at ih ⊢
        rw [ih]
        omega
      · rw [if_neg fun h => hk (gefsKeycmp_eq_zero.1 h.2).symm,
          List.takeWhile_cons_of_neg (by simpa using hk)]
        rfl
    · rw [if_neg fun h => hi (by omega), List.drop_of_length_le (by omega)]
      rfl

/-- One that enters again goes past the messages on the key. -/
theorem reenter_msgs {es : List GefsKvp} {ms : List GefsMsg} {c : Content} (hp : IsPivot es ms c)
    (hs : ms.Pairwise fun a b => a.k ≤ b.k) (k : Bytes) :
    ∃ p ≤ ms.length, ms.drop p = ms.filter (k < ·.k)
      ∧ (match bufsearch c k with
        | (_, _, none) => 0
        | (bi, same, some m) =>
          if same = false ∨ false = false then skipMsgs c m (c.nbuf - bi).toNat bi else bi) = (p : ℤ) := by
  obtain ⟨p, hple, hlt, -, h⟩ := bufsearch_pivot hp hs k
  rcases h with ⟨hpl, hk, h⟩ | ⟨hnone, h⟩
  · have hskip := skipMsgs_eq hp ms[p] (show ms.length ≤ (ms.length - p) + p by omega)
    have hn : (c.nbuf - (p : ℤ)).toNat = ms.length - p := by
      rw [hp.nbuf]
      omega
    have hle : p + ((ms.drop p).takeWhile (·.k = k)).length ≤ ms.length := by
      have h1 := (List.takeWhile_sublist (l := ms.drop p) (·.k = k)).length_le
      rw [List.length_drop] at h1
      omega
    refine ⟨_, hle, ?_, ?_⟩
    · have hbelow : (ms.take p).filter (k < ·.k) = [] := by
        refine List.filter_eq_nil_iff.2 fun x hx => ?_
        obtain ⟨i, hi, rfl⟩ := List.mem_iff_getElem.1 hx
        rw [List.length_take] at hi
        rw [List.getElem_take]
        simpa using ((hlt i (by omega)).1 (by omega)).le
      have habove : ∀ m ∈ ms.drop p, k ≤ m.k := by
        intro m hm
        obtain ⟨i, hi, rfl⟩ := List.mem_iff_getElem.1 hm
        rw [List.length_drop] at hi
        rw [List.getElem_drop]
        exact not_lt.1 ((hlt (p + i) (by omega)).not.1 (by omega))
      conv_rhs => rw [← List.take_append_drop p ms, List.filter_append, hbelow, List.nil_append,
        ← dropWhile_eq_filter (hs.sublist (List.drop_sublist p ms)) habove]
      rw [← List.drop_drop, drop_takeWhile_length]
    · rw [h]
      simp only [or_true, if_true, hn]
      rw [hskip, hk]
  · obtain ⟨q, hq, hdrop, hbi⟩ := enter_msgs hp hs k
    refine ⟨q, hq, ?_, ?_⟩
    · rw [hdrop]
      refine List.filter_congr fun x hx => ?_
      have hne : x.k ≠ k := by simpa using List.filter_eq_nil_iff.1 hnone x hx
      exact decide_eq_decide.2 ⟨fun hle => lt_of_le_of_ne hle hne.symm, fun hlt => hlt.le⟩
    · rw [← hbi, h]
      rcases (if 0 < p then ms[p - 1]? else none) with _ | m <;> simp

theorem entered_msgs {es : List GefsKvp} {ms : List GefsMsg} {c : Content} (hp : IsPivot es ms c)
    (hs : ms.Pairwise fun a b => a.k ≤ b.k) (k : Bytes) : ∀ first,
    ∃ p ≤ ms.length, ms.drop p = ms.filter (entered k first ·.k)
      ∧ (match bufsearch c k with
        | (_, _, none) => 0
        | (bi, same, some m) =>
          if same = false ∨ first = false then skipMsgs c m (c.nbuf - bi).toNat bi else bi) = (p : ℤ)
  | true => enter_msgs hp hs k
  | false => reenter_msgs hp hs k

/-- A leaf is entered at its first entry not below the key. -/
theorem enter_leaf {es : List GefsKvp} {c : Content} (hl : IsLeaf es c) (hs : Ascending es)
    (k : Bytes) : ∃ vi same v, blksearch c k = (vi, same, v) ∧
      AtLeaf (k ≤ ·) es ⟨0, (if vi = -1 ∨ same = false ∨ true = false then vi + 1 else vi).toNat,
        some c⟩ := by
  obtain ⟨p, hple, hlt, h⟩ := blksearch_leaf hl hs k
  have hdrop : es.drop p = es.filter (k ≤ ·.1) := by
    refine drop_eq_filter hple fun i hi => ?_
    rw [hlt i hi, decide_eq_false_iff_not, not_le]
  rcases hsearch : blksearch c k with ⟨vi, same, v⟩
  rw [hsearch] at h
  have hvi : (if vi = -1 ∨ same = false ∨ true = false then vi + 1 else vi).toNat = p := by
    rcases h with ⟨_, _, h⟩ | ⟨-, rfl, rfl⟩
    · obtain ⟨rfl, rfl, -⟩ : vi = p ∧ same = true ∧ v = _ := by simpa using h
      have hne : ¬ (p : ℤ) = -1 := by omega
      simp [hne]
    · simp
  exact ⟨vi, same, v, rfl, 0, p, c, by rw [hvi], hl, hdrop⟩

/-- One that enters again goes past the entry with the key. -/
theorem reenter_leaf {es : List GefsKvp} {c : Content} (hl : IsLeaf es c) (hs : Ascending es)
    (k : Bytes) : ∃ vi same v, blksearch c k = (vi, same, v) ∧
      AtLeaf (k < ·) es ⟨0, (if vi = -1 ∨ same = false ∨ false = false then vi + 1 else vi).toNat,
        some c⟩ := by
  obtain ⟨p, hple, hlt, h⟩ := blksearch_leaf hl hs k
  rcases hsearch : blksearch c k with ⟨vi, same, v⟩
  rw [hsearch] at h
  refine ⟨vi, same, v, rfl, 0, (vi + 1).toNat, c, by simp, hl, ?_⟩
  rcases h with ⟨hpl, hk, h⟩ | ⟨hnone, rfl, rfl⟩
  · obtain ⟨rfl, -, -⟩ : vi = p ∧ same = true ∧ v = _ := by simpa using h
    rw [show ((p : ℤ) + 1).toNat = p + 1 by omega]
    refine drop_eq_filter (by omega) fun i hi => ?_
    rw [decide_eq_false_iff_not, not_lt]
    constructor
    · intro hip
      rcases (Nat.lt_succ_iff_lt_or_eq.1 hip) with h1 | rfl
      · exact ((hlt i hi).1 h1).le
      · exact hk.le
    · intro hle
      by_contra hip
      have h1 : es[p].1 < es[i].1 := by
        have := List.pairwise_iff_getElem.1 hs p i (by simpa using hpl) (by simpa using hi) (by omega)
        simpa using this
      rw [hk] at h1
      exact h1.not_ge hle
  · rw [show ((p : ℤ) - 1 + 1).toNat = p by omega]
    refine drop_eq_filter hple fun i hi => ?_
    have hne : es[i].1 ≠ k := by
      rintro rfl
      have hlook : look es es[i].1 = some es[i].2 := look_of_mem hs (List.getElem_mem hi)
      rw [hlook] at hnone
      cases hnone
    rw [hlt i hi, decide_eq_false_iff_not, not_lt]
    exact ⟨fun h => h.le, fun h => lt_of_le_of_ne h hne⟩

theorem entered_leaf {es : List GefsKvp} {c : Content} (hl : IsLeaf es c) (hs : Ascending es)
    (k : Bytes) : ∀ first, ∃ vi same v, blksearch c k = (vi, same, v) ∧
      AtLeaf (entered k first) es
        ⟨0, (if vi = -1 ∨ same = false ∨ first = false then vi + 1 else vi).toNat, some c⟩
  | true => enter_leaf hl hs k
  | false => reenter_leaf hl hs k

/-- A first cursor at `k` stands before all that is not below `k`, another one behind `k`. -/
theorem levels_spec (first : Bool) : ∀ {n : ℕ} {T : Beps n} {lo hi : Option Bytes} {bp : GefsBptr}
    {b : Content},
    Server.TreeIn get n T bp → Ordered n T lo hi → (n ≠ 0 → Peopled n T) → IsTop n T b →
    ∃ path, levels get k first (n + 1) b (some b) = some path ∧ Stands (entered k first) n T path
  | 0, es, _, _, _, b, _, ⟨hs, _⟩, _, hb => by
    obtain ⟨vi, same, v, hsearch, hat⟩ := entered_leaf hb hs k first
    have hne : ¬ b.type = gefsTpivot := by rw [hb.type]; decide
    exact ⟨_, by simp only [levels, hsearch, if_neg hne]; rfl, _, rfl, hat⟩
  | n + 1, (cs, ms), lo, hi, _, b, ⟨_, hch⟩, ho, hpe, hb => by
    obtain ⟨hne, hpe⟩ := hpe (by simp)
    obtain ⟨bi, hle, hdrop, hbi⟩ := entered_msgs hb ho.msgs k first
    -- the child that the cursor goes on in
    have hgo : ∀ l₁ c l₂ vi same kv, cs = l₁ ++ c :: l₂ → blksearch b k = (vi, same, kv) →
        vi.toNat = l₁.length → (if vi = -1 then gefsGetval b 0 else kv.getD ([], [])) = c.1 →
        Spent (entered k first) n l₁ → Fresh (entered k first) n l₂ →
        ∃ path, levels get k first (n + 1 + 1) b (some b) = some path
          ∧ Stands (entered k first) (n + 1) (cs, ms) path := by
      intro l₁ c l₂ vi same kv hcs hsearch hvi hval h1 h2
      subst hcs
      obtain ⟨⟨hi', hc⟩, -⟩ := ho.child
      obtain ⟨bp', hbp', hin⟩ := hch c (by simp)
      obtain ⟨b', hget, hb'⟩ := hin.top
      obtain ⟨q, hq, hst⟩ := levels_spec first hin hc (fun _ => hpe c (by simp)) hb'
      have hnz : ¬ (n + 1 = 0 ∨ (vi = -1 ∧ b.nval ≤ 0)) := by
        have hn : b.nval = (l₁ ++ c :: l₂).length := by rw [hb.nval, List.length_map]
        rw [hn]
        rintro (h | ⟨-, h⟩)
        · omega
        · simp at h
          omega
      refine ⟨⟨bi, l₁.length, some b⟩ :: q, ?_, _, q, bi, l₁.length, b, rfl,
        ⟨rfl, hb, hle, hdrop⟩, .inl ⟨l₁, c, l₂, rfl, rfl, h1, h2, hst⟩⟩
      rw [levels]
      simp only [hsearch, hb.type, if_true, if_neg hnz, hval, hbp', hget, hvi, hq,
        Option.bind_eq_bind, Option.bind_some]
      exact congrArg (fun i : ℤ => some ((⟨i.toNat, l₁.length, some b⟩ : Scanp) :: q)) hbi
    have hfresh : ∀ l₁ l₂ : List (GefsKvp × Beps n), cs = l₁ ++ l₂ →
        (∀ d ∈ l₂, k < d.1.1) → Fresh (entered k first) n l₂ := by
      intro l₁ l₂ hcs hk d hd x hx
      obtain ⟨la, lb, rfl⟩ := List.append_of_mem hd
      have ho' : Ordered (n + 1) ((l₁ ++ la) ++ d :: lb, ms) lo hi := by
        rw [List.append_assoc, ← hcs]
        exact ho
      obtain ⟨⟨hi', hc⟩, -⟩ := ho'.child
      have := (allOps_inRange hc x hx).1 _ rfl
      exact entered_of_lt ((hk d hd).trans_le this) first
    rcases blksearch_childOf hb ho.1 k with ⟨j, d, same, hj, hle', hnext, -, h⟩ | ⟨hall, -, h⟩
    · obtain ⟨hj', rfl⟩ := List.getElem?_eq_some_iff.1 hj
      have hcs : cs = cs.take j ++ cs[j] :: cs.drop (j + 1) := by
        rw [List.cons_getElem_drop_succ, List.take_append_drop]
      refine hgo _ _ _ j same _ hcs h (by simp; omega) (by simp) ?_
        (hfresh (cs.take (j + 1)) _ (List.take_append_drop _ _).symm fun d hd => ?_)
      · -- the children before it end below the key it starts at
        intro d hd x hx
        obtain ⟨la, lb, hla⟩ := List.append_of_mem hd
        have ho' : Ordered (n + 1) (la ++ d :: (lb ++ cs[j] :: cs.drop (j + 1)), ms) lo hi := by
          have : la ++ d :: (lb ++ cs[j] :: cs.drop (j + 1)) = cs := by
            rw [← List.cons_append, ← List.append_assoc, ← hla, ← hcs]
          rw [this]
          exact ho
        exact entered_eq_false ((ho'.child_lt.2 cs[j] (List.mem_append_right _ List.mem_cons_self) x
          hx).trans_le hle') first
      · rcases hrest : cs.drop (j + 1) with _ | ⟨e, l⟩
        · rw [hrest] at hd
          exact absurd hd (by simp)
        · have he : k < e.1.1 := by
            have h0 : (cs.drop (j + 1))[0]? = cs[j + 1]? := List.getElem?_drop
            exact hnext e (h0 ▸ hrest ▸ rfl)
          rw [hrest] at hd
          rcases List.mem_cons.1 hd with rfl | hd
          · exact he
          · have ho' : Ordered (n + 1) (cs.take (j + 1) ++ e :: l, ms) lo hi := by
              rw [← hrest, List.take_append_drop]
              exact ho
            exact he.trans (ho'.keys_lt d hd)
    · obtain ⟨c, l, rfl⟩ := List.exists_cons_of_ne_nil hne
      refine hgo [] c l (-1) false none rfl h (by simp) ?_
        (fun d hd => absurd hd (by simp)) (hfresh [c] l rfl fun d hd => hall d (by simp [hd]))
      rw [if_pos rfl, hb.getval 0 (by simp)]
      rfl

theorem entered_spec {t : GefsTree} {n : ℕ} {T : Beps n} {lo hi : Option Bytes}
    (ht : t.ht.toInt = n + 1) (hin : Server.TreeIn get n T t.bp) (ho : Ordered n T lo hi)
    (hpe : n ≠ 0 → Peopled n T) (k : Bytes) (first : Bool) :
    ∃ path, enter get t k first = some path ∧ Stands (entered k first) n T path := by
  obtain ⟨b, hget, hb⟩ := hin.top
  obtain ⟨path, hpath, hst⟩ := levels_spec (k := k) first hin ho hpe hb
  have h0 : ¬ t.ht ≤ 0 := by
    rw [Int32.le_iff_toInt_le, ht]
    show ¬ _ ≤ (0 : ℤ)
    omega
  have hn : t.ht.toInt.toNat = n + 1 := by omega
  exact ⟨path, by simp only [enter, hget, Option.bind_eq_bind, Option.bind_some, h0, if_false, hn,
    hpath], hst⟩

theorem enter_spec {t : GefsTree} {n : ℕ} {T : Beps n} {lo hi : Option Bytes}
    (ht : t.ht.toInt = n + 1) (hin : Server.TreeIn get n T t.bp) (ho : Ordered n T lo hi)
    (hpe : n ≠ 0 → Peopled n T) (k : Bytes) :
    ∃ path, enter get t k true = some path ∧ Stands (k ≤ ·) n T path :=
  entered_spec ht hin ho hpe k true

end Enter

/-! ## All of a tree -/

/-- The keys from `pfx` on. -/
def keysFrom (pfx : Bytes) (l : List GefsMsg) : List Bytes :=
  ((l.map (·.k)).toFinset.filter (pfx ≤ ·)).sort (· ≤ ·)

/-- The pair under `k` if a scan returns one. -/
def found (ap : GefsKvp → GefsMsg → Option (Bool × GefsKvp)) (l : List GefsMsg) (k : Bytes) :
    Option GefsKvp :=
  (onKey ap l k).bind fun r => if r.1 then some r.2 else none

section Keys

variable {get : GefsBptr → Option Content} {chk : GefsMsg → Bool}
  {ap : GefsKvp → GefsMsg → Option (Bool × GefsKvp)} {pfx k : Bytes} {n : ℕ} {T : Beps n}
  {lo hi : Option Bytes} {l : List GefsMsg}

theorem mem_keysFrom : k ∈ keysFrom pfx l ↔ pfx ≤ k ∧ ∃ m ∈ l, m.k = k := by
  rw [keysFrom, Finset.mem_sort, Finset.mem_filter, List.mem_toFinset, List.mem_map, and_comm]

theorem keysFrom_pairwise (pfx : Bytes) (l : List GefsMsg) :
    (keysFrom pfx l).Pairwise (· < ·) :=
  (Finset.sortedLT_sort _).pairwise

theorem length_keysFrom (pfx : Bytes) (l : List GefsMsg) :
    (keysFrom pfx l).length ≤ l.length := by
  rw [keysFrom, Finset.length_sort]
  calc _ ≤ (l.map (·.k)).toFinset.card := Finset.card_filter_le _ _
    _ ≤ (l.map (·.k)).length := List.toFinset_card_le _
    _ = l.length := List.length_map _

theorem KeepsKey.found (hap : KeepsKey ap) {kv : GefsKvp}
    (h : GefsFuse.found ap l k = some kv) : kv.1 = k := by
  obtain ⟨r, hr, hkv⟩ := Option.bind_eq_some_iff.1 h
  split_ifs at hkv
  obtain rfl := Option.some.inj hkv
  unfold onKey at hr
  have hkey : ∀ m ∈ l.filter (·.k = k), m.k = k := by
    intro m hm
    simpa using (List.mem_filter.1 hm).2
  rcases hl : l.filter (·.k = k) with _ | ⟨m, l'⟩ <;> rw [hl] at hr hkey
  · exact absurd hr (by simp)
  · rw [List.forall_mem_cons] at hkey
    exact hap.applyList hkey.2 hkey.1 hr

/-- A scan from the start visits the keys from its prefix on. -/
theorem scan_tree {t : GefsTree} (ht : t.ht.toInt = n + 1) (hin : Server.TreeIn get n T t.bp)
    (ho : Ordered n T lo hi) (hpe : n ≠ 0 → Peopled n T) (hsm : Scannable n T)
    (hap : KeepsKey ap) {fuel : ℕ} (hfuel : (allOps n T).length < fuel) :
    ∃ path, enter get t pfx true = some path ∧
      scan get chk ap pfx fuel path = visit chk ap pfx n T (keysFrom pfx (allOps n T)) := by
  obtain ⟨path, hpath, hst⟩ := enter_spec ht hin ho hpe pfx
  refine ⟨path, hpath, scan_eq hin ho hpe hsm hap hst (fun a b ha hab => ?_)
    (keysFrom_pairwise _ _) (fun k => ?_) ((length_keysFrom _ _).trans_lt hfuel)⟩
  · rw [decide_eq_true_eq] at ha ⊢
    exact ha.trans hab
  · rw [mem_keysFrom, decide_eq_true_eq]

/-- The keys with a prefix stand together. -/
theorem not_prefix_of_lt {k' : Bytes} (hk : pfx ≤ k) (hn : ¬ pfx.isPrefixOf k) (hlt : k < k') :
    ¬ pfx.isPrefixOf k' := by
  rw [List.isPrefixOf_iff_prefix] at hn ⊢
  rintro ⟨c, rfl⟩
  exact hn (prefix_of_between (not_lt.2 hk) hlt)

/-- A scan goes through where it may go on at every key it comes to, and finds what the keys with
its prefix come to. -/
theorem visit_eq_some_iff {ks : List Bytes} {r : List GefsKvp} (hasc : ks.Pairwise (· < ·))
    (hge : ∀ k ∈ ks, pfx ≤ k)
    (hon : ∀ k ∈ ks, pfx.isPrefixOf k → (onKey ap (allOps n T) k).isSome) :
    visit chk ap pfx n T ks = some r ↔
      (∀ k ∈ ks, (∀ k' ∈ ks, k' < k → pfx.isPrefixOf k') →
        (standAt (k ≤ ·) n T).all (·.all chk) = true)
      ∧ r = (ks.filter pfx.isPrefixOf).filterMap (found ap (allOps n T)) := by
  induction ks generalizing r with
  | nil => rw [visit, Option.some.injEq, eq_comm]; simp
  | cons k ks ih =>
    obtain ⟨hlt, hasc'⟩ := List.pairwise_cons.1 hasc
    rw [List.forall_mem_cons] at hge
    rw [visit]
    have hfirst : ∀ k' ∈ k :: ks, k' < k → pfx.isPrefixOf k' := by
      intro k' hk' hlt'
      rcases List.mem_cons.1 hk' with rfl | hk'
      · exact absurd hlt' (lt_irrefl _)
      · exact absurd (hlt'.trans (hlt k' hk')) (lt_irrefl _)
    by_cases hchk : (standAt (k ≤ ·) n T).all (·.all chk) = true
    swap
    · rw [if_neg hchk]
      exact ⟨fun h => absurd h (by simp), fun h => absurd (h.1 k (by simp) hfirst) hchk⟩
    rw [if_pos hchk]
    by_cases hp : pfx.isPrefixOf k
    · have hrest : ∀ k'' ∈ ks, (∀ k' ∈ k :: ks, k' < k'' → pfx.isPrefixOf k')
          ↔ ∀ k' ∈ ks, k' < k'' → pfx.isPrefixOf k' := by
        intro k'' hk''
        rw [List.forall_mem_cons]
        exact and_iff_right fun _ => hp
      obtain ⟨u, hu⟩ := Option.isSome_iff_exists.1 (hon k (by simp) hp)
      have ih' := @ih ((ks.filter pfx.isPrefixOf).filterMap (found ap (allOps n T))) hasc' hge.2
        fun k' hk' => hon k' (by simp [hk'])
      have hval : ((k :: ks).filter pfx.isPrefixOf).filterMap (found ap (allOps n T))
          = if u.1 then u.2 :: (ks.filter pfx.isPrefixOf).filterMap (found ap (allOps n T))
            else (ks.filter pfx.isPrefixOf).filterMap (found ap (allOps n T)) := by
        rw [List.filter_cons_of_pos hp, List.filterMap_cons, found, hu, Option.bind_some]
        split_ifs <;> rfl
      rw [if_pos hp, hu, hval, List.forall_mem_cons]
      simp only [Option.bind_eq_bind, Option.bind_some]
      constructor
      · intro h
        obtain ⟨l, hl, he⟩ := Option.bind_eq_some_iff.1 h
        obtain ⟨h1, rfl⟩ := (ih hasc' hge.2 fun k' hk' => hon k' (by simp [hk'])).1 hl
        exact ⟨⟨fun _ => hchk, fun k'' hk'' hb => h1 k'' hk'' ((hrest k'' hk'').1 hb)⟩,
          (Option.some.inj he).symm⟩
      · rintro ⟨⟨-, h1⟩, rfl⟩
        rw [ih'.2 ⟨fun k'' hk'' hb => h1 k'' hk'' ((hrest k'' hk'').2 hb), rfl⟩, Option.bind_some]
    · have hnone : (k :: ks).filter pfx.isPrefixOf = [] := by
        refine List.filter_eq_nil_iff.2 fun k' hk' => ?_
        rcases List.mem_cons.1 hk' with rfl | hk'
        · exact hp
        · exact not_prefix_of_lt hge.1 hp (hlt k' hk')
      rw [if_neg hp, hnone, List.filterMap_nil, Option.some.injEq, eq_comm]
      refine (and_iff_right fun k'' hk'' hb => ?_).symm
      rcases List.mem_cons.1 hk'' with rfl | hk''
      · exact hchk
      · exact absurd (hb k (by simp) (hlt k'' hk'')) hp

end Keys

end GefsFuse
