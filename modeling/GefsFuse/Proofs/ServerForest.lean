import GefsFuse.Lib.Keyed
import GefsFuse.Proofs.Scan
import GefsFuse.Proofs.ServerNode

/-!
# The children of a pivot

What a tree says of a key are the entries and messages on it, done in order (`opsVal`). The
children of a pivot are a forest over a range of keys (`Forest`), and one of them may be replaced
by a forest over its range (`Forest.splice`).
-/

namespace GefsFuse.Server.Btree

open SortedMap

/-! ## What is on a key -/

/-- What entries and messages come to on a key. -/
abbrev opsVal (l : List GefsMsg) (k : Bytes) : Option (Option Bytes) :=
  Keyed.eval GefsMsg.k (serverEff gefsKvmax) none l k

/-- `l'` comes to what `l` does. -/
abbrev OpsTo (l l' : List GefsMsg) : Prop :=
  Keyed.Refines GefsMsg.k (serverEff gefsKvmax) none l l'

section Ops

variable {n : ℕ} {T : Beps n} {lo hi : Option Bytes} {k : Bytes} {v : Option Bytes}

theorem serverEff_pair {w : Bytes} {u : Option Bytes} : serverEff gefsKvmax k u (pairMsg (k, w))
    = if k.length + w.length ≤ gefsKvmax then some (some w) else none := rfl

/-- The lookup finds what the entries and messages on the key come to. -/
theorem serverGet_of_opsVal (ho : Ordered n T lo hi) (h : opsVal (allOps n T) k = some v) :
    serverGet gefsKvmax n T k = some v
      ∧ ∀ w, leafVal n T k = some w → k.length + w.length ≤ gefsKvmax := by
  unfold opsVal Keyed.eval at h
  rw [allOps_filter ho] at h
  unfold serverGet
  rcases hl : leafVal n T k with _ | w
  · rw [hl] at h
    exact ⟨h, by simp⟩
  · rw [hl] at h
    rw [Option.map_some, Option.toList_some, List.singleton_append, List.foldlM_cons,
      serverEff_pair] at h
    obtain ⟨u, hu, h⟩ := Option.bind_eq_some_iff.1 h
    split_ifs at hu with hle
    rw [← Option.some.inj hu] at h
    exact ⟨h, fun w' hw => by rwa [← Option.some.inj hw]⟩

end Ops

/-! ## Bounds -/

section Bounds

variable {α : Type} {l r : List (GefsKvp × α)} {c : GefsKvp × α} {lo hi : Option Bytes}

/-- The least key that may be in a child behind `l`: the first child also takes in what is below
its own key. -/
def leftBound (l : List (GefsKvp × α)) (c : GefsKvp × α) (lo : Option Bytes) : Option Bytes :=
  if l = [] then lo else some c.1.1

/-- What is in front of `r` is below it. -/
def rightBound : List (GefsKvp × α) → Option Bytes → Option Bytes
  | [], hi => hi
  | d :: _, _ => some d.1.1

@[simp] theorem rightBound_nil (hi : Option Bytes) :
    rightBound ([] : List (GefsKvp × α)) hi = hi := rfl

@[simp] theorem rightBound_cons (d : GefsKvp × α) (r : List (GefsKvp × α)) (hi : Option Bytes) :
    rightBound (d :: r) hi = some d.1.1 := rfl

theorem rightBound_append (l r : List (GefsKvp × α)) (hi : Option Bytes) :
    rightBound (l ++ r) hi = rightBound l (rightBound r hi) := by
  cases l <;> rfl

theorem rightOf_zero (c : GefsKvp × α) (cs : List (GefsKvp × α)) (hi : Option Bytes) :
    rightOf (c :: cs) 0 hi = rightBound cs hi := by
  cases cs <;> rfl

theorem rightOf_succ (c : GefsKvp × α) (cs : List (GefsKvp × α)) (j : ℕ) (hi : Option Bytes) :
    rightOf (c :: cs) (j + 1) hi = rightOf cs j hi := rfl

end Bounds

/-- What is below `hi` is below `hi'`. -/
def BoundLe (hi hi' : Option Bytes) : Prop :=
  ∀ k : Bytes, (∀ h, hi = some h → k < h) → ∀ h, hi' = some h → k < h

theorem BoundLe.refl (hi : Option Bytes) : BoundLe hi hi := fun _ h => h

theorem boundLe_some {x y : Bytes} (h : x ≤ y) : BoundLe (some x) (some y) := by
  intro k hk z hz
  exact Option.some.inj hz ▸ (hk x rfl).trans_le h

theorem Ordered.mono : ∀ {n : ℕ} {T : Beps n} {lo lo' hi hi' : Option Bytes}, Ordered n T lo hi →
    (∀ k : Bytes, (∀ l, lo = some l → l ≤ k) → ∀ l, lo' = some l → l ≤ k) → BoundLe hi hi' →
    Ordered n T lo' hi'
  | 0, es, lo, lo', hi, hi', h, hl, hh =>
    ⟨h.1, fun e he => ⟨hl _ (h.2 e he).1, hh _ (h.2 e he).2⟩⟩
  | n + 1, (cs, ms), lo, lo', hi, hi', h, hl, hh => by
    refine ⟨h.1, fun c hc => ⟨hl _ (h.2.1 c hc).1, hh _ (h.2.1 c hc).2⟩, h.2.2.1,
      fun m hm => ⟨hl _ (h.2.2.2.1 m hm).1, hh _ (h.2.2.2.1 m hm).2⟩, fun j c hj => ?_⟩
    refine Ordered.mono (h.2.2.2.2 j c hj) (fun _ h => h) ?_
    unfold rightOf
    cases cs[j + 1]? with
    | none => exact hh
    | some d => exact BoundLe.refl _

/-! ## Forests -/

/-- Children in order, each over the keys from its own to the next one's. -/
structure Forest (n : ℕ) (cs : List (GefsKvp × Beps n)) (lo hi : Option Bytes) : Prop where
  asc : Ascending (cs.map (·.1))
  keys : ∀ c ∈ cs, InRange lo hi c.1.1
  child : ∀ (j : ℕ) c, cs[j]? = some c → Ordered n c.2 (some c.1.1) (rightOf cs j hi)

/-- The entries and messages in the children. -/
def forestOps (n : ℕ) (cs : List (GefsKvp × Beps n)) : List GefsMsg := cs.flatMap fun c => allOps n c.2

section Forest

variable {n : ℕ} {l r cs ds : List (GefsKvp × Beps n)} {c : GefsKvp × Beps n} {ms : List GefsMsg}
  {lo lo' hi hi' : Option Bytes}

theorem ordered_pivot : Ordered (n + 1) (cs, ms) lo hi ↔ Forest n cs lo hi
    ∧ ms.Pairwise (fun a b => a.k ≤ b.k) ∧ ∀ m ∈ ms, InRange lo hi m.k :=
  ⟨fun h => ⟨⟨h.1, h.2.1, h.2.2.2.2⟩, h.2.2.1, h.2.2.2.1⟩,
    fun h => ⟨h.1.asc, h.1.keys, h.2.1, h.2.2, h.1.child⟩⟩

theorem allOps_pivot : allOps (n + 1) (cs, ms) = forestOps n cs ++ ms := rfl

@[simp] theorem forestOps_nil : forestOps n [] = [] := rfl

@[simp] theorem forestOps_cons : forestOps n (c :: cs) = allOps n c.2 ++ forestOps n cs := rfl

@[simp] theorem forestOps_append : forestOps n (l ++ r) = forestOps n l ++ forestOps n r :=
  List.flatMap_append

theorem forest_nil : Forest n [] lo hi := ⟨.nil, by simp, by simp⟩

theorem forest_cons : Forest n (c :: cs) lo hi ↔ InRange lo hi c.1.1 ∧ (∀ d ∈ cs, c.1.1 < d.1.1)
    ∧ Ordered n c.2 (some c.1.1) (rightBound cs hi) ∧ Forest n cs lo hi := by
  constructor
  · intro h
    have hasc := List.pairwise_cons.1 h.asc
    refine ⟨h.keys c List.mem_cons_self, fun d hd => hasc.1 _ (List.mem_map_of_mem hd), ?_,
      hasc.2, fun d hd => h.keys d (List.mem_cons_of_mem _ hd), fun j d hj => ?_⟩
    · rw [← rightOf_zero c]
      exact h.child 0 c rfl
    · rw [← rightOf_succ c]
      exact h.child (j + 1) d hj
  · rintro ⟨hc, hlt, ho, h⟩
    refine ⟨List.pairwise_cons.2 ⟨fun d hd => ?_, h.asc⟩, ?_, fun j d hj => ?_⟩
    · obtain ⟨e, he, rfl⟩ := List.mem_map.1 hd
      exact hlt e he
    · rw [List.forall_mem_cons]
      exact ⟨hc, h.keys⟩
    · rcases j with _ | j
      · obtain rfl := Option.some.inj (show some c = some d from hj)
        rwa [rightOf_zero]
      · rw [rightOf_succ]
        exact h.child j d hj

theorem forestOps_inRange (h : Forest n cs lo hi) : ∀ m ∈ forestOps n cs, InRange lo hi m.k := by
  have ho : Ordered (n + 1) (cs, []) lo hi := ordered_pivot.2 ⟨h, .nil, by simp⟩
  intro m hm
  exact allOps_inRange ho m (by rwa [allOps_pivot, List.append_nil])

theorem Forest.mono (h : Forest n cs lo hi)
    (hl : ∀ k : Bytes, (∀ l, lo = some l → l ≤ k) → ∀ l, lo' = some l → l ≤ k)
    (hh : BoundLe hi hi') : Forest n cs lo' hi' :=
  (ordered_pivot.1 (Ordered.mono (ordered_pivot.2 ⟨h, .nil, by simp⟩ :
    Ordered (n + 1) (cs, []) lo hi) hl hh)).1

/-- Two forests side by side. -/
theorem forest_append : ∀ {l : List (GefsKvp × Beps n)}, Forest n (l ++ r) lo hi ↔
    Forest n l lo (rightBound r hi) ∧ Forest n r lo hi ∧ ∀ c ∈ l, ∀ d ∈ r, c.1.1 < d.1.1
  | [] => ⟨fun h => ⟨forest_nil, h, by simp⟩, fun h => h.2.1⟩
  | c :: l => by
    rw [List.cons_append, forest_cons, forest_cons, forest_append, rightBound_append,
      List.forall_mem_cons]
    constructor
    · rintro ⟨hc, hlt, ho, hl, hr, hcross⟩
      have hcr : ∀ d ∈ r, c.1.1 < d.1.1 := fun d hd => hlt d (List.mem_append_right _ hd)
      refine ⟨⟨⟨hc.1, ?_⟩, fun d hd => hlt d (List.mem_append_left _ hd), ho, hl⟩, hr, hcr, hcross⟩
      intro x hx
      rcases r with _ | ⟨d, r⟩
      · exact hc.2 x hx
      · exact Option.some.inj hx ▸ hcr d List.mem_cons_self
    · rintro ⟨⟨hc, hlt, ho, hl⟩, hr, hcr, hcross⟩
      refine ⟨⟨hc.1, fun x hx => ?_⟩, fun d hd => ?_, ho, hl, hr, hcross⟩
      · rcases r with _ | ⟨d, r⟩
        · exact hc.2 x hx
        · exact (hcr d List.mem_cons_self).trans ((hr.keys d List.mem_cons_self).2 x hx)
      · rcases List.mem_append.1 hd with hd | hd
        · exact hlt d hd
        · exact hcr d hd

/-- A child replaced by a forest over its range. -/
theorem Forest.splice (h : Forest n (l ++ c :: r) lo hi)
    (hd : Forest n ds (leftBound l c lo) (rightBound r hi)) : Forest n (l ++ (ds ++ r)) lo hi := by
  obtain ⟨hl, hcr, hlt⟩ := forest_append.1 h
  obtain ⟨hc, hclt, -, hr⟩ := forest_cons.1 hcr
  have hlc : ∀ a ∈ l, a.1.1 < c.1.1 := fun a ha => hlt a ha c List.mem_cons_self
  -- behind something the new children do not start below the old one
  have hle : ∀ a ∈ l, ∀ d ∈ ds ++ r, c.1.1 ≤ d.1.1 := by
    intro a ha d hmem
    rcases List.mem_append.1 hmem with hmem | hmem
    · refine (hd.keys d hmem).1 _ ?_
      rw [leftBound, if_neg (List.ne_nil_of_mem ha)]
    · exact (hclt d hmem).le
  have hlow : ∀ k : Bytes, (∀ x, leftBound l c lo = some x → x ≤ k) → ∀ x, lo = some x → x ≤ k := by
    intro k hk x hx
    unfold leftBound at hk
    split_ifs at hk
    · exact hk x hx
    · exact (hc.1 x hx).trans (hk _ rfl)
  refine forest_append.2 ⟨?_, forest_append.2 ⟨hd.mono hlow (.refl _), hr, fun a ha b hb => ?_⟩,
    fun a ha d hd' => (hlc a ha).trans_le (hle a ha d hd')⟩
  · rcases l with _ | ⟨a, l⟩
    · exact forest_nil
    · refine hl.mono (fun _ h => h) ?_
      rw [rightBound_cons]
      rcases hdr : ds ++ r with _ | ⟨d, t⟩
      · intro k hk x hx
        exact (hk _ rfl).trans (hc.2 x hx)
      · exact boundLe_some (hle a List.mem_cons_self d (by rw [hdr]; exact List.mem_cons_self))
  · have hlt := (hd.keys a ha).2
    rcases r with _ | ⟨d, r⟩
    · cases hb
    · have had := hlt d.1.1 rfl
      rcases List.mem_cons.1 hb with rfl | hb
      · exact had
      · exact had.trans ((forest_cons.1 hr).2.1 b hb)

/-- The children up to a place, and those from it on. -/
theorem Forest.split (h : Forest n (l ++ c :: r) lo hi) :
    Forest n l lo (some c.1.1) ∧ Forest n (c :: r) (some c.1.1) hi := by
  obtain ⟨hl, hcr, -⟩ := forest_append.1 h
  obtain ⟨hc, hlt, ho, hr⟩ := forest_cons.1 hcr
  refine ⟨hl, hcr.asc, fun d hd => ⟨fun x hx => ?_, (hcr.keys d hd).2⟩, hcr.child⟩
  obtain rfl := Option.some.inj hx
  rcases List.mem_cons.1 hd with rfl | hd
  · exact le_rfl
  · exact (hlt d hd).le

/-- Two forests that meet at a key. -/
theorem Forest.join {x : Bytes} (hl : Forest n l lo (some x)) (hr : Forest n r (some x) hi)
    (hx : InRange lo hi x) : Forest n (l ++ r) lo hi := by
  have hle : ∀ d ∈ r, x ≤ d.1.1 := fun d hd => (hr.keys d hd).1 x rfl
  have hlt : ∀ c ∈ l, c.1.1 < x := fun c hc => (hl.keys c hc).2 x rfl
  refine forest_append.2 ⟨hl.mono (fun _ h => h) ?_, hr.mono ?_ (.refl _),
    fun c hc d hd => (hlt c hc).trans_le (hle d hd)⟩
  · rcases r with _ | ⟨d, r⟩
    · exact fun k hk y hy => (hk x rfl).trans (hx.2 y hy)
    · exact boundLe_some (hle d List.mem_cons_self)
  · exact fun k hk y hy => (hx.1 y hy).trans (hk x rfl)

end Forest

/-! ## A child replaced -/

/-- The element at `j` replaced by `ds`, where the list starts at `i`. -/
def expand {α : Type} (j : ℤ) (ds : List α) : ℕ → List α → List α
  | _, [] => []
  | i, a :: as => (if (i : ℤ) = j then ds else [a]) ++ expand j ds (i + 1) as

section Expand

variable {α β : Type} {j : ℤ} {ds : List α}

@[simp] theorem expand_nil (i : ℕ) : expand j ds i [] = [] := rfl

theorem expand_cons (i : ℕ) (a : α) (as : List α) : expand j ds i (a :: as)
    = (if (i : ℤ) = j then ds else [a]) ++ expand j ds (i + 1) as := rfl

theorem expand_append : ∀ (l r : List α) (i : ℕ),
    expand j ds i (l ++ r) = expand j ds i l ++ expand j ds (i + l.length) r
  | [], r, i => by simp
  | a :: l, r, i => by
    rw [List.cons_append, expand_cons, expand_cons, expand_append, List.append_assoc,
      List.length_cons, Nat.add_assoc, Nat.add_comm 1]

/-- Elsewhere nothing changes. -/
theorem expand_off : ∀ {l : List α} {i : ℕ}, (j < i ∨ i + l.length ≤ j) → expand j ds i l = l
  | [], _, _ => rfl
  | a :: l, i, h => by
    rw [List.length_cons] at h
    rw [expand_cons, if_neg (by omega), expand_off (by omega), List.singleton_append]

theorem expand_at {l r : List α} {c : α} {i : ℕ} (hj : (i + l.length : ℤ) = j) :
    expand j ds i (l ++ c :: r) = l ++ (ds ++ r) := by
  rw [expand_append, expand_cons, if_pos (by exact_mod_cast hj), expand_off (.inr (by omega)),
    expand_off (.inl (by push_cast; omega))]

theorem expand_map (f : α → β) : ∀ (l : List α) (i : ℕ),
    (expand j ds i l).map f = expand j (ds.map f) i (l.map f)
  | [], _ => rfl
  | a :: l, i => by
    rw [expand_cons, List.map_append, expand_map, List.map_cons, expand_cons]
    split_ifs <;> rfl

/-- The place is in the list or not. -/
theorem expand_cases (j : ℤ) (i : ℕ) (l : List α) : (j < i ∨ i + l.length ≤ j)
    ∨ ∃ a c b, l = a ++ c :: b ∧ (i + a.length : ℤ) = j := by
  by_cases h : j < i ∨ (i + l.length : ℤ) ≤ j
  · exact .inl h
  · rw [not_or, not_lt, not_le] at h
    obtain ⟨m, rfl⟩ : ∃ m : ℕ, j = i + m := ⟨(j - i).toNat, by omega⟩
    have hm : m < l.length := by omega
    refine .inr ⟨l.take m, l[m], l.drop (m + 1), ?_, ?_⟩
    · rw [← List.drop_eq_getElem_cons hm, List.take_append_drop]
    · rw [List.length_take, min_eq_left hm.le]

end Expand

section Replaced

variable {n : ℕ} {cs ds l r : List (GefsKvp × Beps n)} {c d : GefsKvp × Beps n} {ms : List GefsMsg}
  {lo hi : Option Bytes} {j : ℤ} {i : ℕ}

/-- `ds` is a forest over the range of the child at `j`, if there is one. -/
def Replaces (n : ℕ) (j : ℤ) (ds : List (GefsKvp × Beps n)) (i : ℕ) (cs : List (GefsKvp × Beps n))
    (lo hi : Option Bytes) : Prop :=
  ∀ l c r, cs = l ++ c :: r → (i + l.length : ℤ) = j → Forest n ds (leftBound l c lo) (rightBound r hi)

theorem Forest.expand (h : Forest n cs lo hi) (hd : Replaces n j ds i cs lo hi) :
    Forest n (expand j ds i cs) lo hi := by
  rcases expand_cases j i cs with hoff | ⟨l, c, r, rfl, hj⟩
  · rwa [expand_off hoff]
  · rw [expand_at hj]
    exact h.splice (hd l c r rfl hj)

/-- On the left of a place. -/
theorem Replaces.left (hd : Replaces n j ds i (l ++ d :: r) lo hi) :
    Replaces n j ds i l lo (some d.1.1) := by
  rintro a c b rfl hj
  have := hd a c (b ++ d :: r) (by simp) hj
  rwa [rightBound_append] at this

/-- And on its right, where there is something on its left. -/
theorem Replaces.right (hd : Replaces n j ds i (l ++ d :: r) lo hi) (hl : l ≠ []) :
    Replaces n j ds (i + l.length) (d :: r) (some d.1.1) hi := by
  intro a c b hcs hj
  have h := hd (l ++ a) c b (by rw [List.append_assoc, hcs]) (by
    rw [List.length_append]
    push_cast at hj ⊢
    omega)
  rw [leftBound, if_neg (by simp [hl])] at h
  rcases a with _ | ⟨x, a⟩
  · obtain ⟨rfl, -⟩ := List.cons.inj hcs
    exact h
  · rwa [leftBound, if_neg (by simp)]

/-- What is in a child lies in its range. -/
theorem Forest.child_inRange (h : Forest n (l ++ c :: r) lo hi) :
    ∀ m ∈ allOps n c.2, InRange (leftBound l c lo) (rightBound r hi) m.k := by
  obtain ⟨hc, -, ho, -⟩ := forest_cons.1 (forest_append.1 h).2.1
  intro m hm
  have hin := allOps_inRange ho m hm
  refine ⟨fun x hx => ?_, hin.2⟩
  unfold leftBound at hx
  split_ifs at hx
  · exact (hc.1 x hx).trans (hin.1 _ rfl)
  · exact Option.some.inj hx ▸ hin.1 _ rfl

/-- And what is beside it does not. -/
theorem Forest.beside (h : Forest n (l ++ c :: r) lo hi) {k : Bytes}
    (hk : InRange (leftBound l c lo) (rightBound r hi) k) :
    ∀ m ∈ forestOps n l ++ forestOps n r, m.k ≠ k := by
  obtain ⟨hl, hcr, -⟩ := forest_append.1 h
  obtain ⟨-, hlt, -, hr⟩ := forest_cons.1 hcr
  intro m hm
  rcases List.mem_append.1 hm with hm | hm
  · have hne : l ≠ [] := by
      rintro rfl
      cases hm
    have h1 : c.1.1 ≤ k := hk.1 _ (by rw [leftBound, if_neg hne])
    have h2 : m.k < c.1.1 := (forestOps_inRange hl m hm).2 _ rfl
    exact (h2.trans_le h1).ne
  · rcases r with _ | ⟨d, r⟩
    · cases hm
    have h1 : k < d.1.1 := hk.2 _ rfl
    have hs : Forest n (d :: r) (some d.1.1) hi := (Forest.split (l := []) hr).2
    exact (h1.trans_le ((forestOps_inRange hs m hm).1 _ rfl)).ne'

end Replaced

end GefsFuse.Server.Btree
