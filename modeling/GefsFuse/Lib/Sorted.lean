import GefsFuse.Lib.Mem

/-!
# Ascending lists of pairs as maps

`look` reads a list of pairs as a map. A batch of updates, sorted by key, is merged into an
ascending list in one pass (`mergeUpd`); the result is ascending and is the map with the updates
applied one after the other (`look_mergeUpd`). Sorting the batch by insertion keeps the updates of
each key in order (`filter_bubbleSort`), so it changes nothing (`look_mergeUpd_bubbleSort`).

An update is any `m` with a key and an effect, the value it leaves behind or none. Two updates of
one batch may share a key only as a removal followed by an insertion (`OneEach`), since the merge
spends the old pair on the first of them.
-/

namespace SortedMap

variable {κ ν μ : Type*} [LinearOrder κ]

/-- Keys strictly ascending. -/
def Ascending (es : List (κ × ν)) : Prop :=
  es.Pairwise fun a b => a.1 < b.1

/-- The value under `k`. -/
def look : List (κ × ν) → κ → Option ν
  | [], _ => none
  | e :: es, k => if e.1 = k then some e.2 else look es k

@[simp] theorem look_nil (k : κ) : look ([] : List (κ × ν)) k = none := rfl

theorem look_cons_of_ne {e : κ × ν} {es : List (κ × ν)} {k : κ} (h : e.1 ≠ k) :
    look (e :: es) k = look es k := by
  simp [look, h]

theorem look_eq_none {es : List (κ × ν)} {k : κ} : look es k = none ↔ ∀ e ∈ es, e.1 ≠ k := by
  induction es with
  | nil => simp
  | cons e es ih =>
    by_cases h : e.1 = k
    · simp [look, h]
    · simp [look_cons_of_ne h, ih, h]

theorem mem_of_look {es : List (κ × ν)} {k : κ} {v : ν} (h : look es k = some v) : (k, v) ∈ es := by
  induction es with
  | nil => simp at h
  | cons e es ih =>
    by_cases he : e.1 = k
    · simp only [look, he, ↓reduceIte, Option.some.injEq] at h
      subst he h
      exact List.mem_cons_self
    · rw [look_cons_of_ne he] at h
      exact List.mem_cons_of_mem _ (ih h)

theorem look_of_mem {es : List (κ × ν)} (hs : Ascending es) {k : κ} {v : ν} (h : (k, v) ∈ es) :
    look es k = some v := by
  induction es with
  | nil => simp at h
  | cons e es ih =>
    obtain ⟨hlt, hs⟩ := List.pairwise_cons.1 hs
    rcases List.mem_cons.1 h with rfl | h
    · simp [look]
    · rw [look_cons_of_ne (hlt _ h).ne]
      exact ih hs h

theorem Ascending.look_tail {e : κ × ν} {es : List (κ × ν)} (hs : Ascending (e :: es)) :
    look es e.1 = none :=
  look_eq_none.2 fun x hx => ((List.pairwise_cons.1 hs).1 x hx).ne'

theorem Ascending.look_of_lt {e : κ × ν} {es : List (κ × ν)} (hs : Ascending (e :: es)) {k : κ}
    (h : k < e.1) : look (e :: es) k = none := by
  refine look_eq_none.2 fun x hx => ?_
  rcases List.mem_cons.1 hx with rfl | hx
  · exact h.ne'
  · exact (h.trans ((List.pairwise_cons.1 hs).1 x hx)).ne'

section Merge

variable (key : μ → κ) (eff : μ → Option ν)

/-- `f` after the update `m`. -/
def applyUpd (f : κ → Option ν) (m : μ) : κ → Option ν :=
  fun k => if k = key m then eff m else f k

/-- `f` after the updates `ms`, in order. -/
def applyAll (f : κ → Option ν) (ms : List μ) : κ → Option ν :=
  ms.foldl (applyUpd key eff) f

/-- The pair an update leaves behind. -/
def putOf (m : μ) : List (κ × ν) :=
  (eff m).toList.map (key m, ·)

/-- One pass over the pairs and the updates, both by key. -/
def mergeUpd : List (κ × ν) → List μ → List (κ × ν)
  | es, [] => es
  | [], m :: ms => putOf key eff m ++ mergeUpd [] ms
  | e :: es, m :: ms =>
    if e.1 < key m then e :: mergeUpd es (m :: ms)
    else if e.1 = key m then putOf key eff m ++ mergeUpd es ms
    else putOf key eff m ++ mergeUpd (e :: es) ms
  termination_by es ms => es.length + ms.length

/-- Updates that share a key are a removal and then an insertion. -/
def OneEach (ms : List μ) : Prop :=
  ms.Pairwise fun a b => key a = key b → eff a = none ∧ (eff b).isSome

/-- By key, those that share one a removal and then an insertion. -/
def Batch (ms : List μ) : Prop :=
  ms.Pairwise fun a b => key a < key b ∨ key a = key b ∧ eff a = none ∧ (eff b).isSome

variable {key eff}

theorem applyAll_congr {f g : κ → Option ν} {k : κ} (h : f k = g k) :
    ∀ ms : List μ, applyAll key eff f ms k = applyAll key eff g ms k := by
  intro ms
  induction ms generalizing f g with
  | nil => exact h
  | cons m ms ih =>
    refine ih (f := applyUpd key eff f m) (g := applyUpd key eff g m) ?_
    simp only [applyUpd, h]

theorem applyAll_of_ne {f : κ → Option ν} {k : κ} {ms : List μ} (h : ∀ m ∈ ms, key m ≠ k) :
    applyAll key eff f ms k = f k := by
  induction ms generalizing f with
  | nil => rfl
  | cons m ms ih =>
    have hm : k ≠ key m := (h m List.mem_cons_self).symm
    rw [applyAll, List.foldl_cons, ← applyAll, ih fun x hx => h x (List.mem_cons_of_mem _ hx)]
    simp [applyUpd, hm]

theorem applyAll_cons (f : κ → Option ν) (m : μ) (ms : List μ) :
    applyAll key eff f (m :: ms) = applyAll key eff (applyUpd key eff f m) ms := rfl

theorem applyAll_filter (f : κ → Option ν) (k : κ) (ms : List μ) :
    applyAll key eff f ms k = applyAll key eff f (ms.filter (key · = k)) k := by
  induction ms generalizing f with
  | nil => rfl
  | cons m ms ih =>
    by_cases h : key m = k
    · rw [List.filter_cons_of_pos (by simpa using h), applyAll_cons, applyAll_cons, ih]
    · rw [List.filter_cons_of_neg (by simpa using h), applyAll_cons, ih]
      exact applyAll_congr (by simp [applyUpd, Ne.symm h]) _

theorem mem_mergeUpd {es : List (κ × ν)} {ms : List μ} {x : κ × ν}
    (h : x ∈ mergeUpd key eff es ms) :
    x ∈ es ∨ ∃ m ∈ ms, key m = x.1 ∧ eff m = some x.2 := by
  have hput : ∀ m, x ∈ putOf key eff m → key m = x.1 ∧ eff m = some x.2 := by
    intro m hm
    simp only [putOf, List.mem_map, Option.mem_toList] at hm
    obtain ⟨v, hv, rfl⟩ := hm
    exact ⟨rfl, hv⟩
  fun_induction mergeUpd key eff es ms with
  | case1 es => exact .inl h
  | case2 m ms ih =>
    rcases List.mem_append.1 h with h | h
    · exact .inr ⟨m, by simp, hput m h⟩
    · obtain h | ⟨m', hm', he⟩ := ih h
      · exact .inl h
      · exact .inr ⟨m', by simp [hm'], he⟩
  | case3 e es m ms hlt ih =>
    rcases List.mem_cons.1 h with rfl | h
    · exact .inl List.mem_cons_self
    · obtain h | h := ih h
      · exact .inl (List.mem_cons_of_mem _ h)
      · exact .inr h
  | case4 e es m ms hlt heq ih =>
    rcases List.mem_append.1 h with h | h
    · exact .inr ⟨m, by simp, hput m h⟩
    · obtain h | ⟨m', hm', he⟩ := ih h
      · exact .inl (List.mem_cons_of_mem _ h)
      · exact .inr ⟨m', by simp [hm'], he⟩
  | case5 e es m ms hlt heq ih =>
    rcases List.mem_append.1 h with h | h
    · exact .inr ⟨m, by simp, hput m h⟩
    · obtain h | ⟨m', hm', he⟩ := ih h
      · exact .inl h
      · exact .inr ⟨m', by simp [hm'], he⟩

theorem Batch.key_le {m : μ} {ms : List μ} (h : Batch key eff (m :: ms)) :
    ∀ x ∈ ms, key m ≤ key x := by
  intro x hx
  rcases (List.pairwise_cons.1 h).1 x hx with h | ⟨h, -⟩
  · exact h.le
  · exact h.le

theorem Batch.key_lt {m : μ} {ms : List μ} (h : Batch key eff (m :: ms)) {v : ν}
    (hv : eff m = some v) : ∀ x ∈ ms, key m < key x := by
  intro x hx
  rcases (List.pairwise_cons.1 h).1 x hx with h | ⟨-, h, -⟩
  · exact h
  · simp [hv] at h

theorem Batch.tail {m : μ} {ms : List μ} (h : Batch key eff (m :: ms)) : Batch key eff ms :=
  (List.pairwise_cons.1 h).2

/-- What an update puts down keeps the rest ascending when the rest is above it. -/
theorem ascending_putOf_append {m : μ} {es : List (κ × ν)} (hs : Ascending es)
    (h : ∀ v, eff m = some v → ∀ e ∈ es, key m < e.1) : Ascending (putOf key eff m ++ es) := by
  rcases hv : eff m with _ | v
  · simpa [putOf, hv] using hs
  · simp only [putOf, hv, Option.toList_some, List.map_cons, List.map_nil, List.cons_append,
      List.nil_append]
    exact List.pairwise_cons.2 ⟨h v hv, hs⟩

theorem ascending_mergeUpd {es : List (κ × ν)} {ms : List μ} (hs : Ascending es)
    (hm : Batch key eff ms) : Ascending (mergeUpd key eff es ms) := by
  fun_induction mergeUpd key eff es ms with
  | case1 es => exact hs
  | case2 m ms ih =>
    refine ascending_putOf_append (ih hs hm.tail) fun v hv e he => ?_
    obtain he | ⟨x, hx, he, -⟩ := mem_mergeUpd he
    · simp at he
    · exact he ▸ hm.key_lt hv x hx
  | case3 e es m ms hlt ih =>
    obtain ⟨hlo, hs'⟩ := List.pairwise_cons.1 hs
    refine List.pairwise_cons.2 ⟨fun x hx => ?_, ih hs' hm⟩
    obtain hx | ⟨y, hy, hk, -⟩ := mem_mergeUpd hx
    · exact hlo x hx
    · rcases List.mem_cons.1 hy with rfl | hy
      · exact hk ▸ hlt
      · exact hk ▸ hlt.trans_le (hm.key_le y hy)
  | case4 e es m ms hlt heq ih =>
    obtain ⟨hlo, hs'⟩ := List.pairwise_cons.1 hs
    refine ascending_putOf_append (ih hs' hm.tail) fun v hv x hx => ?_
    obtain hx | ⟨y, hy, hk, -⟩ := mem_mergeUpd hx
    · exact heq ▸ hlo x hx
    · exact hk ▸ hm.key_lt hv y hy
  | case5 e es m ms hlt heq ih =>
    have hgt : key m < e.1 := lt_of_le_of_ne (not_lt.1 hlt) (Ne.symm heq)
    refine ascending_putOf_append (ih hs hm.tail) fun v hv x hx => ?_
    obtain hx | ⟨y, hy, hk, -⟩ := mem_mergeUpd hx
    · rcases List.mem_cons.1 hx with rfl | hx
      · exact hgt
      · exact hgt.trans ((List.pairwise_cons.1 hs).1 x hx)
    · exact hk ▸ hm.key_lt hv y hy

/-- Reading behind what an update puts down is reading after it. -/
theorem look_putOf_append {m : μ} {ms : List μ} {es : List (κ × ν)} {f : κ → Option ν} {k : κ}
    (hb : Batch key eff (m :: ms)) (hm : f (key m) = none)
    (ih : look es k = applyAll key eff f ms k) :
    look (putOf key eff m ++ es) k = applyAll key eff f (m :: ms) k := by
  rw [applyAll_cons]
  rcases hv : eff m with _ | v
  · simp only [putOf, hv, Option.toList_none, List.map_nil, List.nil_append, ih]
    refine applyAll_congr ?_ _
    simp only [applyUpd, hv]
    split_ifs with hk
    · rw [hk, hm]
    · rfl
  · simp only [putOf, hv, Option.toList_some, List.map_cons, List.map_nil, List.cons_append,
      List.nil_append]
    by_cases hk : key m = k
    · subst hk
      rw [applyAll_of_ne fun x hx => (hb.key_lt hv x hx).ne']
      simp [look, applyUpd, hv]
    · rw [look_cons_of_ne hk, ih]
      exact applyAll_congr (by simp [applyUpd, Ne.symm hk]) _

theorem look_mergeUpd {es : List (κ × ν)} {ms : List μ} (hs : Ascending es)
    (hm : Batch key eff ms) (k : κ) :
    look (mergeUpd key eff es ms) k = applyAll key eff (look es) ms k := by
  fun_induction mergeUpd key eff es ms with
  | case1 es => rfl
  | case2 m ms ih => exact look_putOf_append hm rfl (ih hs hm.tail)
  | case3 e es m ms hlt ih =>
    have ih := ih (List.pairwise_cons.1 hs).2 hm
    by_cases hk : e.1 = k
    · subst hk
      have hne : ∀ x ∈ m :: ms, key x ≠ e.1 := by
        intro x hx
        rcases List.mem_cons.1 hx with rfl | hx
        · exact hlt.ne'
        · exact (hlt.trans_le (hm.key_le x hx)).ne'
      rw [applyAll_of_ne hne]
      simp [look]
    · rw [look_cons_of_ne hk, ih]
      exact applyAll_congr (look_cons_of_ne hk).symm _
  | case4 e es m ms hlt heq ih =>
    have ih := ih (List.pairwise_cons.1 hs).2 hm.tail
    have hl := look_putOf_append (f := look es) hm (heq ▸ hs.look_tail) ih
    rw [hl, applyAll_cons, applyAll_cons]
    refine applyAll_congr ?_ _
    simp only [applyUpd]
    split_ifs with hk
    · rfl
    · rw [look_cons_of_ne (heq ▸ Ne.symm hk)]
  | case5 e es m ms hlt heq ih =>
    have hgt : key m < e.1 := lt_of_le_of_ne (not_lt.1 hlt) (Ne.symm heq)
    exact look_putOf_append hm (hs.look_of_lt hgt) (ih hs hm.tail)

end Merge

section Insertion

variable (key : μ → κ)

/-- `m` brought to its place in a list that descends. -/
def bubble (m : μ) : List μ → List μ
  | [] => [m]
  | p :: ps => if key p ≤ key m then m :: p :: ps else p :: bubble m ps

/-- Insertion sort: each element in turn moved left past the greater ones. -/
def bubbleSort (ms : List μ) : List μ :=
  (ms.foldl (fun acc m => bubble key m acc) []).reverse

variable {key}

theorem mem_bubble {m x : μ} {ps : List μ} : x ∈ bubble key m ps ↔ x = m ∨ x ∈ ps := by
  induction ps with
  | nil => simp [bubble]
  | cons p ps ih =>
    unfold bubble
    split_ifs
    · simp
    · simp only [List.mem_cons, ih]
      tauto

theorem bubble_descending {m : μ} {ps : List μ} (h : ps.Pairwise fun a b => key b ≤ key a) :
    (bubble key m ps).Pairwise fun a b => key b ≤ key a := by
  induction ps with
  | nil => simp [bubble]
  | cons p ps ih =>
    obtain ⟨hp, hps⟩ := List.pairwise_cons.1 h
    unfold bubble
    split_ifs with hle
    · refine List.pairwise_cons.2 ⟨fun x hx => ?_, h⟩
      rcases List.mem_cons.1 hx with rfl | hx
      · exact hle
      · exact (hp x hx).trans hle
    · refine List.pairwise_cons.2 ⟨fun x hx => ?_, ih hps⟩
      rcases mem_bubble.1 hx with rfl | hx
      · exact (not_le.1 hle).le
      · exact hp x hx

theorem filter_bubble (m : μ) (k : κ) (ps : List μ) :
    (bubble key m ps).filter (key · = k) = (m :: ps).filter (key · = k) := by
  induction ps with
  | nil => rfl
  | cons p ps ih =>
    unfold bubble
    split_ifs with hle
    · rfl
    · have hne : key p ≠ key m := (not_le.1 hle).ne'
      by_cases hp : key p = k
      · have hm : ¬ key m = k := fun h => hne (hp.trans h.symm)
        simp only [List.filter_cons, hp, hm, decide_true, decide_false, ↓reduceIte, ih,
          Bool.false_eq_true]
      · simp only [List.filter_cons, hp, decide_false, Bool.false_eq_true, ↓reduceIte, ih]

theorem foldl_bubble_descending (ms acc : List μ) (h : acc.Pairwise fun a b => key b ≤ key a) :
    (ms.foldl (fun acc m => bubble key m acc) acc).Pairwise fun a b => key b ≤ key a := by
  induction ms generalizing acc with
  | nil => exact h
  | cons m ms ih => exact ih _ (bubble_descending h)

theorem filter_foldl_bubble (k : κ) (ms acc : List μ) :
    (ms.foldl (fun acc m => bubble key m acc) acc).filter (key · = k)
      = (ms.filter (key · = k)).reverse ++ acc.filter (key · = k) := by
  induction ms generalizing acc with
  | nil => rfl
  | cons m ms ih =>
    rw [List.foldl_cons, ih, filter_bubble]
    by_cases hm : key m = k <;> simp [hm]

/-- The updates of one key keep their order. -/
theorem filter_bubbleSort (k : κ) (ms : List μ) :
    (bubbleSort key ms).filter (key · = k) = ms.filter (key · = k) := by
  rw [bubbleSort, List.filter_reverse, filter_foldl_bubble]
  simp

theorem bubbleSort_ascending (ms : List μ) :
    (bubbleSort key ms).Pairwise fun a b => key a ≤ key b := by
  rw [bubbleSort, List.pairwise_reverse]
  exact foldl_bubble_descending ms [] List.Pairwise.nil

theorem mem_bubbleSort {x : μ} {ms : List μ} : x ∈ bubbleSort key ms ↔ x ∈ ms := by
  have h : (bubbleSort key ms).filter (key · = key x) = ms.filter (key · = key x) :=
    filter_bubbleSort (key x) ms
  have h1 : x ∈ bubbleSort key ms ↔ x ∈ (bubbleSort key ms).filter (key · = key x) := by simp
  have h2 : x ∈ ms ↔ x ∈ ms.filter (key · = key x) := by simp
  rw [h1, h, ← h2]

theorem perm_bubble (m : μ) (ps : List μ) : (bubble key m ps).Perm (m :: ps) := by
  induction ps with
  | nil => exact .refl _
  | cons p ps ih =>
    unfold bubble
    split_ifs
    · exact .refl _
    · exact (ih.cons p).trans (.swap m p ps)

theorem perm_bubbleSort (ms : List μ) : (bubbleSort key ms).Perm ms := by
  have h : ∀ (ms acc : List μ),
      (ms.foldl (fun acc m => bubble key m acc) acc).Perm (ms.reverse ++ acc) := by
    intro ms
    induction ms with
    | nil => exact fun acc => .refl _
    | cons m ms ih =>
      intro acc
      rw [List.foldl_cons, List.reverse_cons, List.append_assoc]
      exact (ih _).trans ((perm_bubble m acc).append_left _)
  have h0 := (h ms []).trans (by rw [List.append_nil])
  exact (List.reverse_perm _).trans (h0.trans (List.reverse_perm _))

variable {eff : μ → Option ν}

/-- A merge takes no more room than the pairs and what the batch puts in. -/
theorem sum_mergeUpd_le (f : κ × ν → ℕ) (es : List (κ × ν)) (ms : List μ) :
    ((mergeUpd key eff es ms).map f).sum
      ≤ (es.map f).sum + ((ms.flatMap (putOf key eff)).map f).sum := by
  induction es, ms using mergeUpd.induct key with
  | case1 es => simp [mergeUpd]
  | case2 m ms ih =>
    rw [mergeUpd, List.flatMap_cons, List.map_append, List.map_append, List.sum_append,
      List.sum_append]
    omega
  | case3 e es m ms h ih =>
    rw [mergeUpd, if_pos h, List.map_cons, List.map_cons, List.sum_cons, List.sum_cons]
    omega
  | case4 e es m ms h1 h2 ih =>
    rw [mergeUpd, if_neg h1, if_pos h2, List.flatMap_cons, List.map_append, List.map_append,
      List.sum_append, List.sum_append, List.map_cons, List.sum_cons]
    omega
  | case5 e es m ms h1 h2 ih =>
    rw [mergeUpd, if_neg h1, if_neg h2, List.flatMap_cons, List.map_append, List.map_append,
      List.sum_append, List.sum_append]
    omega

/-- A change of the elements that keeps their keys keeps their order. -/
theorem bubbleSort_map {f : μ → μ} (hf : ∀ m, key (f m) = key m) (ms : List μ) :
    bubbleSort key (ms.map f) = (bubbleSort key ms).map f := by
  have hb : ∀ (m : μ) (ps : List μ), bubble key (f m) (ps.map f) = (bubble key m ps).map f := by
    intro m ps
    induction ps with
    | nil => rfl
    | cons p ps ih =>
      rw [List.map_cons, bubble, bubble, hf, hf, ih]
      split_ifs <;> rfl
  have hfold : ∀ acc : List μ, (ms.map f).foldl (fun acc m => bubble key m acc) (acc.map f)
      = (ms.foldl (fun acc m => bubble key m acc) acc).map f := by
    induction ms with
    | nil => intro acc; rfl
    | cons m ms ih =>
      intro acc
      rw [List.map_cons, List.foldl_cons, List.foldl_cons, hb, ih]
  rw [bubbleSort, bubbleSort, List.map_reverse, ← hfold []]
  rfl

theorem batch_bubbleSort {ms : List μ} (h : OneEach key eff ms) :
    Batch key eff (bubbleSort key ms) := by
  refine List.pairwise_iff_forall_sublist.2 fun {a b} hab => ?_
  have hle : key a ≤ key b :=
    List.pairwise_iff_forall_sublist.1 (bubbleSort_ascending ms) hab
  rcases hle.lt_or_eq with hlt | heq
  · exact .inl hlt
  · have hf : [a, b].Sublist (ms.filter (key · = key b)) := by
      rw [← filter_bubbleSort]
      have := hab.filter (key · = key b)
      simpa [heq] using this
    have hs : [a, b].Sublist ms := hf.trans List.filter_sublist
    exact .inr ⟨heq, List.pairwise_iff_forall_sublist.1 h hs heq⟩

theorem look_mergeUpd_bubbleSort {es : List (κ × ν)} {ms : List μ} (hs : Ascending es)
    (hm : OneEach key eff ms) (k : κ) :
    look (mergeUpd key eff es (bubbleSort key ms)) k = applyAll key eff (look es) ms k := by
  rw [look_mergeUpd hs (batch_bubbleSort hm), applyAll_filter, filter_bubbleSort,
    ← applyAll_filter]

end Insertion

section Count

variable {es es' : List (κ × ν)}

theorem Ascending.nodup (hs : Ascending es) : es.Nodup :=
  hs.imp fun h => fun he => h.ne (congrArg Prod.fst he)

/-- An ascending list is its map. -/
theorem eq_of_look (hs : Ascending es) (hs' : Ascending es') (h : ∀ k, look es k = look es' k) :
    es = es' := by
  have hmem : ∀ e, e ∈ es ↔ e ∈ es' := by
    intro e
    constructor <;> intro he
    · exact mem_of_look ((h e.1).symm.trans (look_of_mem hs he))
    · exact mem_of_look ((h e.1).trans (look_of_mem hs' he))
  have hp := (List.perm_ext_iff_of_nodup hs.nodup hs'.nodup).2 hmem
  exact hp.eq_of_pairwise (fun a b _ _ hab hba => absurd hab hba.asymm) hs hs'

theorem look_filter_ne (k₀ k : κ) :
    look (es.filter (·.1 ≠ k₀)) k = if k = k₀ then none else look es k := by
  induction es with
  | nil => simp
  | cons e es ih =>
    by_cases he : e.1 = k₀
    · rw [List.filter_cons_of_neg (by simp [he]), ih]
      split_ifs with hk
      · rfl
      · rw [look_cons_of_ne (by rw [he]; exact Ne.symm hk)]
    · rw [List.filter_cons_of_pos (by simp [he])]
      by_cases hk : e.1 = k
      · have hk0 : k ≠ k₀ := fun h => he (hk.trans h)
        simp [look, hk, hk0]
      · rw [look_cons_of_ne hk, look_cons_of_ne hk, ih]

/-- How often the pair under `k` counts. -/
def weight (p : κ × ν → Bool) (es : List (κ × ν)) (k : κ) : ℕ :=
  match look es k with
  | none => 0
  | some v => if p (k, v) then 1 else 0

theorem countP_eq_weight (p : κ × ν → Bool) (hs : Ascending es) (k : κ) :
    es.countP p = (es.filter (·.1 ≠ k)).countP p + weight p es k := by
  induction es with
  | nil => simp [weight]
  | cons e es ih =>
    have hs' := (List.pairwise_cons.1 hs).2
    have htail := ih hs'
    by_cases he : e.1 = k
    · have hnone : look es k = none := he ▸ hs.look_tail
      have hw : weight p (e :: es) k = if p e then 1 else 0 := by
        subst he
        simp [weight, look]
      have h0 : weight p es k = 0 := by simp [weight, hnone]
      rw [List.filter_cons_of_neg (by simp [he]), List.countP_cons, htail, h0, hw]
      rfl
    · have hw : weight p (e :: es) k = weight p es k := by
        unfold weight
        rw [look_cons_of_ne he]
      rw [List.filter_cons_of_pos (by simp [he]), List.countP_cons, List.countP_cons, htail, hw]
      omega

/-- Two maps that differ under one key only count alike but for that key. -/
theorem countP_update (p : κ × ν → Bool) (hs : Ascending es) (hs' : Ascending es') {k₀ : κ}
    (h : ∀ k ≠ k₀, look es' k = look es k) :
    es'.countP p + weight p es k₀ = es.countP p + weight p es' k₀ := by
  have heq : es'.filter (·.1 ≠ k₀) = es.filter (·.1 ≠ k₀) := by
    refine eq_of_look (hs'.filter _) (hs.filter _) fun k => ?_
    rw [look_filter_ne, look_filter_ne]
    split_ifs with hk
    · rfl
    · exact h k hk
  rw [countP_eq_weight p hs k₀, countP_eq_weight p hs' k₀, heq]
  omega

end Count

end SortedMap
