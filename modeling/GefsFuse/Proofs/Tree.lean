import GefsFuse.Proofs.Cache
import GefsFuse.Proofs.Search

/-!
# Lookup and scan in a tree of one leaf

Every tree the port writes has height one. In such a tree a lookup finds what the entries hold
under the key (`gefsBtlookup_leaf`), and a scan lists the entries whose keys start with the prefix
(`gefsScan_leaf`).
-/

namespace GefsFuse

open ByteMem SortedMap BinSearch

section Search

variable {es : List GefsKvp} {c : Content}

theorem ascending_getElem_lt (hs : Ascending es) {i j : ℕ} (hij : i < j) (hj : j < es.length) :
    es[i].1 < es[j].1 :=
  List.pairwise_iff_getElem.1 hs i j (hij.trans hj) hj hij

theorem look_getElem (hs : Ascending es) {i : ℕ} (hi : i < es.length) :
    look es es[i].1 = some es[i].2 :=
  look_of_mem hs (List.getElem_mem hi)

/-- Keys do not descend. -/
def NonDesc (es : List GefsKvp) : Prop := es.Pairwise fun a b => a.1 ≤ b.1

theorem nonDesc_of_ascending (hs : Ascending es) : NonDesc es := hs.imp le_of_lt

/-- The first entry with the key. -/
theorem look_of_first : ∀ {es : List GefsKvp} {p : ℕ} {k : Bytes} (hp : p < es.length),
    (∀ i, (h : i < es.length) → i < p → es[i].1 ≠ k) → es[p].1 = k → look es k = some es[p].2
  | e :: es, 0, k, _, _, hk => by
    have hk' : e.1 = k := hk
    simp [look, hk']
  | e :: es, p + 1, k, hp, hne, hk => by
    have he : e.1 ≠ k := hne 0 (by simp) (by omega)
    rw [look_cons_of_ne he]
    refine look_of_first (by simpa using hp) (fun i hi hip => ?_) hk
    exact hne (i + 1) (by simpa using hi) (by omega)

/-- The search of a leaf ends at the first entry not below the key. -/
theorem blksearch_nonDesc (hl : IsLeaf es c) (hs : NonDesc es) (k : Bytes) :
    ∃ p : ℕ, p ≤ es.length ∧ (∀ i, (h : i < es.length) → (i < p ↔ es[i].1 < k))
      ∧ ((∃ h : p < es.length, es[p].1 = k ∧ look es k = some es[p].2
          ∧ blksearch c k = ((p : ℤ), true, some es[p]))
        ∨ (look es k = none ∧ (blksearch c k).1 = (p : ℤ) - 1 ∧ (blksearch c k).2.1 = false)) := by
  have hle : ∀ i j, i ≤ j → j < es.length → (gefsGetval c i).1 ≤ (gefsGetval c j).1 := by
    intro i j hij hj
    rw [hl.getval i (by omega), hl.getval j hj]
    rcases hij.lt_or_eq with h | rfl
    · exact List.pairwise_iff_getElem.1 hs i j (by omega) hj h
    · exact le_rfl
  obtain ⟨p, hp, hlt, h⟩ := blksearch_spec hl.nval hle k
  have hlt' : ∀ i, (h : i < es.length) → (i < p ↔ es[i].1 < k) := by
    intro i hi
    rw [hlt i hi, hl.getval i hi]
  refine ⟨p, hp, hlt', ?_⟩
  rcases h with ⟨hpl, hk, h⟩ | ⟨hall, h⟩
  · rw [hl.getval p hpl] at hk h
    exact .inl ⟨hpl, hk, look_of_first hpl (fun i hi hip => ((hlt' i hi).1 hip).ne) hk, h⟩
  · refine .inr ⟨?_, by rw [h], by rw [h]⟩
    rw [look_eq_none]
    intro e he
    obtain ⟨i, hi, rfl⟩ := List.mem_iff_getElem.1 he
    rw [← hl.getval i hi]
    exact hall i hi

theorem blksearch_leaf (hl : IsLeaf es c) (hs : Ascending es) (k : Bytes) :
    ∃ p : ℕ, p ≤ es.length ∧ (∀ i, (h : i < es.length) → (i < p ↔ es[i].1 < k))
      ∧ ((∃ h : p < es.length, es[p].1 = k ∧ blksearch c k = ((p : ℤ), true, some es[p]))
        ∨ (look es k = none ∧ (blksearch c k).1 = (p : ℤ) - 1 ∧ (blksearch c k).2.1 = false)) := by
  obtain ⟨p, hp, hlt, h⟩ := blksearch_nonDesc hl (nonDesc_of_ascending hs) k
  refine ⟨p, hp, hlt, h.imp_left ?_⟩
  rintro ⟨hpl, hk, -, h⟩
  exact ⟨hpl, hk, h⟩

end Search

/-! ## Lookup -/

/-- What a lookup of `k` in the entries `es` answers, copied into `nbuf` bytes. -/
def lookAns (es : List GefsKvp) (k : Bytes) (nbuf : ℕ) : Option (Option GefsKvp) :=
  match look es k with
  | none => some none
  | some v => (gefsCpkvp (k, v) nbuf).map some

/-- A lookup in a leaf finds its first entry with the key. -/
theorem gefsBtlookup_nonDesc {ctx : GefsCtx} {t : GefsTree} {es : List GefsKvp} (hok : CtxOk ctx)
    (ht : t.ht = 1) (hh : Held ctx t.bp.addr (IsLeaf es)) (hs : NonDesc es) (k : Bytes)
    (nbuf : ℕ) :
    ∃ ctx', Keeps ctx ctx'
      ∧ gefsBtlookup ctx t k nbuf = (lookAns es k nbuf).map fun r => (r, ctx') := by
  obtain ⟨hk, hr⟩ := touchBlk_spec hok t.bp
  obtain ⟨b, hb, hl⟩ := hr _ hh
  refine ⟨(touchBlk ctx t.bp).2, hk, ?_⟩
  unfold touchBlk at hb ⊢
  unfold gefsBtlookup
  rcases hg : gefsGetblk ctx t.bp with ⟨_ | b', ctx1⟩ <;> rw [hg] at hb
  · simp at hb
  · obtain rfl : b' = b := by simpa using hb
    have h1 : ¬ t.ht < 0 := by rw [ht]; decide
    have h2 : ¬ t.ht = 0 := by rw [ht]; decide
    have h3 : t.ht.toInt.toNat - 1 = 0 := by rw [ht]; decide
    simp only [h1, h2, if_false, h3, descend, Option.bind_eq_bind, Option.bind_some, leafSearch,
      if_true, List.drop_one, List.tail_cons, List.foldlM_nil, List.foldl_cons, List.foldl_nil,
      gefsDropblk_gefsHoldblk, Option.pure_def]
    obtain ⟨p, -, hlt, ⟨hp, hkp, hlook, he⟩ | ⟨hn, -, he⟩⟩ := blksearch_nonDesc hl hs k
    · have hkv : es[p] = (k, es[p].2) := by rw [← hkp]
      simp only [he, Option.orElse_some, if_true, Option.bind_some, lookAns, hlook, ← hkv]
      rcases gefsCpkvp es[p] nbuf with _ | kv <;> simp
    · simp only [he, lookAns, hn]
      simp

theorem gefsBtlookup_leaf {ctx : GefsCtx} {t : GefsTree} {es : List GefsKvp} (hok : CtxOk ctx)
    (ht : t.ht = 1) (hh : Held ctx t.bp.addr (IsLeaf es)) (hs : Ascending es) (k : Bytes)
    (nbuf : ℕ) :
    ∃ ctx', Keeps ctx ctx'
      ∧ gefsBtlookup ctx t k nbuf = (lookAns es k nbuf).map fun r => (r, ctx') :=
  gefsBtlookup_nonDesc hok ht hh (nonDesc_of_ascending hs) k nbuf

/-! ## Scan -/

/-- The pairs a caller sees that leaves the loop where `stop` says so. -/
def upTo (stop : List GefsKvp → Bool) : List GefsKvp → List GefsKvp
  | [] => []
  | kv :: l => if stop [kv] then [kv] else kv :: upTo (fun kvs => stop (kv :: kvs)) l

theorem upTo_cons (stop : List GefsKvp → Bool) (kv : GefsKvp) (l : List GefsKvp) :
    upTo stop (kv :: l) = if stop [kv] then [kv] else kv :: upTo (fun kvs => stop (kv :: kvs)) l :=
  rfl

/-- A loop that is never left sees them all. -/
@[simp] theorem upTo_false (l : List GefsKvp) : upTo (fun _ => false) l = l := by
  induction l with
  | nil => rfl
  | cons kv l ih => rw [upTo_cons, ih, if_neg Bool.false_ne_true]

section Scan

variable {es : List GefsKvp} {b : GefsBlk} {pfx : Bytes}

/-- A cursor at the entry `i` of a tree of one leaf. -/
def leafCursor (b : GefsBlk) (pfx : Bytes) (i : ℕ) : GefsScan := ⟨false, pfx, [⟨0, i, some b⟩]⟩

/-- Every entry fits the cursor's buffer. -/
def Small (es : List GefsKvp) : Prop := ∀ kv ∈ es, kv.1.length + kv.2.length ≤ gefsKvmax

theorem gefsBtnext_leaf (hl : IsLeaf es b.toContent) (hsm : Small es) {i : ℕ}
    (hi : i ≤ es.length) (n : ℕ) (ctx : GefsCtx) :
    (∃ h : i < es.length, pfx.isPrefixOf es[i].1
      ∧ gefsBtnext (n + 1) ctx (leafCursor b pfx i)
        = some (some es[i], leafCursor b pfx (i + 1), ctx))
    ∨ ((i = es.length ∨ ∃ h : i < es.length, ¬ pfx.isPrefixOf es[i].1)
      ∧ ∃ s, s.path = [⟨0, i, some b⟩]
        ∧ gefsBtnext (n + 1) ctx (leafCursor b pfx i) = some (none, s, ctx)) := by
  have hmore : (⟨0, i, some b⟩ : GefsScanp).more = decide (i < es.length) := by
    have ht : b.type ≠ gefsTpivot := by rw [hl.type]; decide
    have hn : b.nval = es.length := hl.nval
    simp [GefsScanp.more, ht, hn]
  rcases Nat.lt_or_ge i es.length with h | h
  · have hsrc : scanSource [⟨0, i, some b⟩] 1 ctx
        = some ([⟨0, i, some b⟩], some (⟨.oinsert, es[i].1, es[i].2, []⟩, none), ctx) := by
      have hn : b.nval = es.length := hl.nval
      have hlt : (i : ℤ) < b.nval := by omega
      have hge : ¬ ((i : ℤ) < 0 ∨ b.nval ≤ i) := by omega
      simp [scanSource, refill, hlt, hge, hl.getval i h]
    have hnext : gefsBtnext (n + 1) ctx (leafCursor b pfx i)
        = if ¬ pfx.isPrefixOf es[i].1 then
            some (none, ⟨true, pfx, [⟨0, i, some b⟩]⟩, ctx)
          else some (some es[i], leafCursor b pfx (i + 1), ctx) := by
      have hcp : gefsCpkvp es[i] gefsKvmax = some es[i] := by
        unfold gefsCpkvp
        rw [if_pos (hsm _ (List.getElem_mem h))]
      simp only [gefsBtnext, leafCursor, Bool.false_eq_true, if_false, List.reverse_cons,
        List.reverse_nil, List.nil_append, ascend, hmore, h, decide_true, if_true, hsrc,
        Option.bind_eq_bind, Option.bind_some, List.zipIdx_cons, List.zipIdx_nil,
        List.dropLast_singleton, List.map_nil, leastMsg, Prod.mk.eta, hcp, scanAdvance,
        List.length_singleton, Nat.sub_self, List.modify_zero_cons, drainLevels,
        List.getLast?_singleton, Option.toList_some, Nat.cast_add, Nat.cast_one]
    by_cases hp : pfx.isPrefixOf es[i].1
    · refine .inl ⟨h, hp, ?_⟩
      rw [hnext, if_neg (not_not.2 hp)]
    · refine .inr ⟨.inr ⟨h, hp⟩, ⟨true, pfx, [⟨0, i, some b⟩]⟩, rfl, ?_⟩
      rw [hnext, if_pos hp]
  · refine .inr ⟨.inl (by omega), ⟨true, pfx, [⟨0, i, some b⟩]⟩, rfl, ?_⟩
    have hd : decide (i < es.length) = false := by simpa using h
    simp [gefsBtnext, leafCursor, ascend, hmore, hd]

/-- From the entry `i` on, as long as the keys start with the prefix and the caller goes on. -/
theorem scanAll_leaf (hl : IsLeaf es b.toContent) (hsm : Small es) (n : ℕ) (ctx : GefsCtx) :
    ∀ (k i : ℕ) (stop : List GefsKvp → Bool), i ≤ es.length → es.length - i < k →
      ∃ s j, s.path = [⟨0, j, some b⟩]
        ∧ scanAll (n + 1) k stop ctx (leafCursor b pfx i)
          = some (upTo stop ((es.drop i).takeWhile fun kv => pfx.isPrefixOf kv.1), s, ctx)
  | 0, i, _, _, hk => absurd hk (by omega)
  | k + 1, i, stop, hi, hk => by
    unfold scanAll
    rcases @gefsBtnext_leaf _ _ pfx hl hsm _ hi n ctx with ⟨h, hp, he⟩ | ⟨hend, s, hs, he⟩
    · rw [List.drop_eq_getElem_cons h, List.takeWhile_cons, if_pos hp, upTo_cons]
      by_cases hst : stop [es[i]]
      · refine ⟨leafCursor b pfx (i + 1), (i + 1 : ℕ), rfl, ?_⟩
        simp only [he, hst, Option.bind_eq_bind, Option.bind_some, if_true]
      · obtain ⟨s, j, hs, hrec⟩ := scanAll_leaf hl hsm n ctx k (i + 1)
          (fun kvs => stop (es[i] :: kvs)) h (by omega)
        refine ⟨s, j, hs, ?_⟩
        simp only [he, hrec, hst, Option.bind_eq_bind, Option.bind_some, Bool.false_eq_true,
          if_false]
    · refine ⟨s, i, hs, ?_⟩
      simp only [he, Option.bind_eq_bind, Option.bind_some]
      rcases hend with rfl | ⟨h, hp⟩
      · simp [upTo]
      · rw [List.drop_eq_getElem_cons h, List.takeWhile_cons, if_neg hp]
        rfl

end Scan

/-- A key between `pfx` and one that starts with it starts with it. -/
theorem prefix_of_between {pfx k c : Bytes} (h1 : ¬ k < pfx) (h2 : k < pfx ++ c) : pfx <+: k := by
  induction pfx generalizing k with
  | nil => exact List.nil_prefix
  | cons x xs ih =>
    rcases k with _ | ⟨y, ys⟩
    · exact absurd List.Lex.nil h1
    · rw [List.cons_append, List.cons_lt_cons_iff] at h2
      rw [List.cons_lt_cons_iff, not_or, not_and] at h1
      rcases h2 with h2 | ⟨rfl, h2⟩
      · exact absurd h2 h1.1
      · exact List.cons_prefix_cons.2 ⟨rfl, ih (h1.2 rfl) h2⟩

/-- In an ascending list the keys that start with `pfx` stand together, from the first one not
below it. -/
theorem takeWhile_drop_eq_filter {es : List GefsKvp} (hs : Ascending es) {pfx : Bytes} {p : ℕ}
    (hp : ∀ i, (h : i < es.length) → (i < p ↔ es[i].1 < pfx)) :
    (es.drop p).takeWhile (fun kv => pfx.isPrefixOf kv.1)
      = es.filter (fun kv => pfx.isPrefixOf kv.1) := by
  have hpre : ∀ k : Bytes, pfx.isPrefixOf k → pfx ≤ k := by
    intro k hk
    obtain ⟨c, rfl⟩ := List.isPrefixOf_iff_prefix.1 hk
    rcases c with _ | ⟨c, cs⟩
    · simp
    · exact (lt_of_prefix_of_length ⟨c :: cs, rfl⟩ (by simp)).le
  have hmid : ∀ k k' : Bytes, pfx ≤ k → k < k' → pfx.isPrefixOf k' → pfx.isPrefixOf k := by
    intro k k' h1 h2 h3
    rw [List.isPrefixOf_iff_prefix] at h3 ⊢
    obtain ⟨c, rfl⟩ := h3
    exact prefix_of_between (not_lt.2 h1) h2
  have hdrop : ∀ kv ∈ es.take p, ¬ pfx.isPrefixOf kv.1 := by
    intro kv hkv hpx
    obtain ⟨i, hi, rfl⟩ := List.mem_iff_getElem.1 hkv
    simp only [List.length_take] at hi
    simp only [List.getElem_take] at hpx
    have := (hp i (by omega)).1 (by omega)
    exact absurd (hpre _ hpx) this.not_ge
  conv_rhs => rw [← List.take_append_drop p es, List.filter_append]
  rw [List.filter_eq_nil_iff.2 hdrop, List.nil_append]
  have hge : ∀ kv ∈ es.drop p, pfx ≤ kv.1 := by
    intro kv hkv
    obtain ⟨i, hi, rfl⟩ := List.mem_iff_getElem.1 hkv
    simp only [List.length_drop] at hi
    simp only [List.getElem_drop]
    rw [← not_lt, ← hp _ (by omega)]
    omega
  have hsd : Ascending (es.drop p) := List.Pairwise.sublist (List.drop_sublist p es) hs
  generalize es.drop p = l at hge hsd
  induction l with
  | nil => rfl
  | cons e l ih =>
    by_cases he : pfx.isPrefixOf e.1
    · rw [List.takeWhile_cons, if_pos he, List.filter_cons, if_pos he,
        ih (fun kv h => hge kv (List.mem_cons_of_mem _ h)) (List.pairwise_cons.1 hsd).2]
    · rw [List.takeWhile_cons, if_neg he, List.filter_cons, if_neg he, Eq.comm,
        List.filter_eq_nil_iff]
      intro kv hkv hpx
      exact he (hmid e.1 kv.1 (hge e List.mem_cons_self) ((List.pairwise_cons.1 hsd).1 kv hkv) hpx)

theorem gefsScan_leaf {ctx : GefsCtx} {t : GefsTree} {es : List GefsKvp} (hok : CtxOk ctx)
    (ht : t.ht = 1) (hh : Held ctx t.bp.addr (IsLeaf es)) (hs : Ascending es) (hsm : Small es)
    (hn : es.length < 16384) {pfx : Bytes} (hpx : pfx.length ≤ gefsKeymax)
    (stop : List GefsKvp → Bool) :
    ∃ ctx', Keeps ctx ctx' ∧ gefsScan ctx t pfx stop
      = some (upTo stop (es.filter fun kv => pfx.isPrefixOf kv.1), ctx') := by
  obtain ⟨hk, hr⟩ := touchBlk_spec hok t.bp
  obtain ⟨b, hb, hl⟩ := hr _ hh
  refine ⟨(touchBlk ctx t.bp).2, hk, ?_⟩
  unfold touchBlk at hb ⊢
  unfold gefsScan gefsBtenter
  rcases hg : gefsGetblk ctx t.bp with ⟨_ | b', ctx1⟩ <;> rw [hg] at hb
  · simp at hb
  · obtain rfl : b' = b := by simpa using hb
    have h1 : ¬ t.ht < 0 := by rw [ht]; decide
    have h2 : ¬ t.ht = 0 := by rw [ht]; decide
    have h3 : t.ht.toInt.toNat = 1 := by rw [ht]; decide
    have h4 : ¬ gefsKeymax < pfx.length := by omega
    have h5 : ¬ b'.type = gefsTpivot := by rw [hl.type]; decide
    have hf : scanFuel t.ht = 131071 + 1 := by rw [scanFuel, h3]; rfl
    obtain ⟨p, hp, hlt, hfound⟩ := blksearch_leaf hl hs pfx
    have henter : enterLevels pfx 1 b' (some b') ctx1 = some ([⟨0, p, some b'⟩], ctx1) := by
      rcases hfound with ⟨hpl, -, he⟩ | ⟨-, he1, he2⟩
      · have hne : ¬ ((p : ℤ) = -1) := by omega
        simp [enterLevels, he, h5, hne]
      · have hvi : (p : ℤ) - 1 + 1 = p := by omega
        simp only [enterLevels, h5, if_false, he1, he2, Bool.false_eq_true, not_false_eq_true,
          or_true, if_true, Option.bind_eq_bind, Option.bind_some, hvi]
    obtain ⟨s, j, hsp, hall⟩ := @scanAll_leaf _ _ pfx hl hsm 131071 ctx1 (131071 + 1) p stop hp
      (by omega)
    have hcur : leafCursor b' pfx p = ⟨false, pfx, [⟨0, p, some b'⟩]⟩ := rfl
    rw [hcur] at hall
    simp only [h1, h2, h4, if_false, h3, henter, Option.bind_eq_bind, Option.bind_some, hf, hall]
    rw [takeWhile_drop_eq_filter hs hlt]
    simp [gefsBtexit, hsp]

end GefsFuse
