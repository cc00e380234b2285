import GefsFuse.Proofs.Scan
import GefsFuse.Proofs.ServerNode
import GefsFuse.Server.Sweep

/-!
# What the sweep frees

The scan of the data keys and the lookups differ in one place: a clear that finds nothing leaves
nothing for a lookup, and an empty value for a scan. And a pivot with nothing left below it must
have an insertion next. Where a tree has neither (`Sweepable`), the sweep goes through and frees
each block born after the predecessor once (`sweeptree_iff`).
-/

namespace GefsFuse.Server

open ByteMem SortedMap Effects

/-- The pointers of the nodes, each after its children. -/
def nodePtrs : (n : ℕ) → Beps n → GefsBptr → List GefsBptr
  | 0, _, bp => [bp]
  | n + 1, (cs, _), bp =>
    cs.flatMap (fun c => (valBptr c.1.2).elim [] (nodePtrs n c.2)) ++ [bp]

/-- A data key of the tree and the block it maps. -/
def Maps (n : ℕ) (T : Beps n) (k : Bytes) (bp : GefsBptr) : Prop :=
  [gefsKdat] <+: k ∧ ∃ v, serverGet gefsKvmax n T k = some (some v) ∧ valBptr v = some bp

/-- A well-formed tree: the messages on every key apply to what is below them, what is under a data
key is a pointer, and no two of its pointers are to one block. -/
structure SweepTree (get : GefsBptr → Option Content) (t : GefsTree) (n : ℕ) (T : Beps n) :
    Prop where
  ht : t.ht.toInt = n + 1
  blocks : TreeIn get n T t.bp
  ordered : Ordered n T none none
  peopled : n ≠ 0 → Peopled n T
  scannable : Scannable n T
  applies : ∀ k, ∃ v, serverGet gefsKvmax n T k = some v
  clears : ∀ m ∈ allOps n T, m.op = .oclearb ∨ m.op = .oclobber → m.v = []
  points : ∀ k v, [gefsKdat] <+: k → serverGet gefsKvmax n T k = some (some v) →
    ∃ bp, valBptr v = some bp
  apart : ∀ k k' bp bp', Maps n T k bp → Maps n T k' bp' → bp.addr = bp'.addr → k = k'
  away : ∀ k bp, Maps n T k bp → ∀ bp' ∈ nodePtrs n T t.bp, bp.addr ≠ bp'.addr
  nodes : ((nodePtrs n T t.bp).map (·.addr)).Nodup

/-- The sweep ends, and frees every data block that is mapped and every node, if it is born after
`pred`, once. -/
def Swept (get : GefsBptr → Option Content) (t : GefsTree) (n : ℕ) (T : Beps n) : Prop :=
  ∃ fs : List GefsBptr, (∃ N, ∀ fuel, N ≤ fuel → sweeptree get fuel t = some fs)
    ∧ (fs.map (·.addr)).Nodup
    ∧ ∀ bp, bp ∈ fs ↔ t.pred < bp.gen ∧ (Mapped get t bp ∨ bp ∈ nodePtrs n T t.bp)

/-- All that is on the key is a clear. -/
def LoneClear (n : ℕ) (T : Beps n) (k : Bytes) : Prop :=
  ∃ m, (allOps n T).filter (·.k = k) = [m] ∧ (m.op = .oclearb ∨ m.op = .oclobber)

/-- No clear is alone on a data key, and at every key up to the first one behind the data keys, a
pivot with nothing left below it has an insertion next. -/
structure Sweepable (n : ℕ) (T : Beps n) : Prop where
  cleared : ∀ k, [gefsKdat] <+: k → ¬ LoneClear n T k
  pending : ∀ m ∈ allOps n T, [gefsKdat] ≤ m.k →
    (∀ m' ∈ allOps n T, [gefsKdat] ≤ m'.k → m'.k < m.k → [gefsKdat] <+: m'.k) →
    ∀ x, standAt (m.k ≤ ·) n T = some (some x) → x.op = .oinsert

/-! ## The nodes -/

section Nodes

variable {get : GefsBptr → Option Content} {pred : Int64}

theorem map_range_getElem? {α β : Type} (d : β) (f : α → β) (l : List α) :
    ((List.range l.length).map fun i => l[i]?.elim d f) = l.map f := by
  refine List.ext_getElem (by simp) fun i h1 h2 => ?_
  have hi : i < l.length := by simpa using h2
  simp [List.getElem?_eq_getElem hi]

/-- A tree is walked as it lies in its blocks. -/
theorem freetree_eq : ∀ {n : ℕ} {T : Beps n} {bp : GefsBptr} {fuel : ℕ}, TreeIn get n T bp →
    n < fuel → freetree get pred fuel bp = some ((nodePtrs n T bp).filter (pred < ·.gen))
  | _, _, _, 0, _, h => absurd h (by simp)
  | 0, es, bp, fuel + 1, ⟨c, hget, hc⟩, _ => by
    have hne : ¬ c.type = gefsTpivot := by rw [hc.type]; decide
    simp only [freetree, hget, Option.bind_eq_bind, Option.bind_some, if_neg hne, nodePtrs,
      List.flatten_nil, List.nil_append, List.filter_singleton]
    by_cases h : pred < bp.gen <;> simp [h]
  | n + 1, (cs, ms), bp, fuel + 1, ⟨⟨c, hget, hc⟩, hch⟩, hf => by
    have hn : c.nval.toNat = cs.length := by rw [hc.nval, List.length_map, Int.toNat_natCast]
    let below : GefsKvp × Beps n → List GefsBptr := fun d =>
      ((valBptr d.1.2).elim [] (nodePtrs n d.2)).filter (pred < ·.gen)
    have hone : ∀ i ∈ List.range cs.length,
        ((valBptr (gefsGetval c i).2).bind fun bp => freetree get pred fuel bp)
          = some (cs[i]?.elim [] below) := by
      intro i hi
      have hi := List.mem_range.1 hi
      obtain ⟨bp', hbp', hin⟩ := hch cs[i] (List.getElem_mem hi)
      have hval : gefsGetval c i = cs[i].1 := by
        rw [hc.getval i (by simpa using hi), List.getElem_map]
      rw [hval, hbp', Option.bind_some, List.getElem?_eq_getElem hi, Option.elim_some,
        freetree_eq hin (by omega)]
      simp only [below, hbp', Option.elim_some]
    have hptrs : nodePtrs (n + 1) (cs, ms) bp
        = cs.flatMap (fun d => (valBptr d.1.2).elim [] (nodePtrs n d.2)) ++ [bp] := rfl
    have hlast : [bp].filter (pred < ·.gen) = if pred < bp.gen then [bp] else [] := by
      rw [List.filter_singleton]
      by_cases h : pred < bp.gen <;> simp [h]
    rw [freetree, hptrs, List.filter_append, List.filter_flatMap, hlast]
    simp only [hget, Option.bind_eq_bind, Option.bind_some, hc.type, if_true, hn, mapM_some hone,
      map_range_getElem?]
    rfl

end Nodes

/-! ## The pairs of the scan -/

section Pairs

variable {k : Bytes} {v : Option Bytes}

theorem apply_some {kv : GefsKvp} {m : GefsMsg} {s : Bool × Option GefsKvp}
    (h : apply (some kv) m gefsKvmax = some s) : ∃ kv', s.2 = some kv' := by
  unfold apply at h
  cases hop : m.op <;> rw [hop] at h <;>
    simp only [Option.bind_eq_bind, Option.bind_some, Option.map_eq_some_iff] at h
  case odelete =>
    split_ifs at h
    rw [← Option.some.inj h]
    exact ⟨kv, rfl⟩
  case oclearb | oclobber =>
    rw [← Option.some.inj h]
    exact ⟨kv, rfl⟩
  case oinsert =>
    obtain ⟨x, -, rfl⟩ := h
    exact ⟨x, rfl⟩
  case owstat =>
    split_ifs at h
    obtain ⟨x, -, rfl⟩ := Option.map_eq_some_iff.1 h
    exact ⟨x, rfl⟩
  case orelink | oreprev =>
    obtain ⟨x, -, rfl⟩ := h
    exact ⟨x, rfl⟩
  all_goals exact absurd h (by simp)

theorem keepsKey_scanApply : KeepsKey scanApply := by
  intro kv m r hk h
  unfold scanApply at h
  obtain ⟨s, hs, h⟩ := Option.bind_eq_some_iff.1 h
  obtain ⟨kv', hkv, h⟩ := Option.bind_eq_some_iff.1 h
  obtain rfl := Option.some.inj h
  unfold apply at hs
  cases hop : m.op <;> rw [hop] at hs <;>
    simp only [Option.bind_eq_bind, Option.bind_some, Option.map_eq_some_iff] at hs
  case odelete =>
    split_ifs at hs
    rw [← Option.some.inj hs] at hkv
    rw [← Option.some.inj hkv]
  case oclearb | oclobber =>
    rw [← Option.some.inj hs] at hkv
    rw [← Option.some.inj hkv]
  case oinsert =>
    obtain ⟨x, hx, rfl⟩ := hs
    unfold gefsCpkvp at hx
    split_ifs at hx
    rw [← Option.some.inj hkv, ← Option.some.inj hx]
    exact hk
  case owstat =>
    split_ifs at hs
    obtain ⟨x, hx, rfl⟩ := Option.map_eq_some_iff.1 hs
    rw [← Option.some.inj hkv]
    exact statupdate_key hx
  case orelink | oreprev =>
    obtain ⟨x, hx, rfl⟩ := hs
    rw [← Option.some.inj hkv]
    exact relink_key hx
  all_goals exact absurd hs (by simp)

/-- The messages on a key do to the pair of a scan what they do to that of a lookup. -/
theorem applyAll_rep : ∀ {l : List GefsMsg} {u : Option Bytes} {b : Bool} {kv : GefsKvp},
    Rep k u (b, some kv) → (∀ m ∈ l, m.k = k) → l.foldlM (serverEff gefsKvmax k) u = some v →
    ∃ r, applyList scanApply l (b, kv) = some r ∧ Rep k v (r.1, some r.2)
  | [], u, b, kv, hr, _, he => by
    obtain rfl : u = v := Option.some.inj he
    exact ⟨(b, kv), rfl, hr⟩
  | m :: l, u, b, kv, hr, hk, he => by
    rw [List.forall_mem_cons] at hk
    rw [List.foldlM_cons] at he
    obtain ⟨w, hw, he⟩ := Option.bind_eq_some_iff.1 he
    obtain ⟨⟨b', o⟩, hs, hr'⟩ := does_apply u w _ m hr hk.1 hw
    obtain ⟨kv', rfl⟩ : ∃ kv', o = some kv' := apply_some hs
    obtain ⟨r, h1, h2⟩ := applyAll_rep hr' hk.2 he
    refine ⟨r, ?_, h2⟩
    have hstep : scanApply kv m = some (b', kv') := by
      unfold scanApply
      rw [show apply (some kv) m gefsKvmax = some (b', some kv') from hs]
      rfl
    show (scanApply kv m).bind (applyList scanApply l) = some r
    rw [hstep, Option.bind_some, h1]

/-- What a scan makes of a key is what the lookup finds, unless a clear is alone on it. -/
theorem onKey_rep {n : ℕ} {T : Beps n} {lo hi : Option Bytes} (ho : Ordered n T lo hi)
    (hv : serverGet gefsKvmax n T k = some v) (hex : ∃ m ∈ allOps n T, m.k = k) :
    ∃ r, onKey scanApply (allOps n T) k = some r
      ∧ ((¬ LoneClear n T k → Rep k v (r.1, some r.2))
        ∧ ∀ m, (allOps n T).filter (·.k = k) = [m] → r = (true, (k, m.v))) := by
  have hkey : ∀ m ∈ (allOps n T).filter (·.k = k), m.k = k := by
    intro m hm
    simpa using (List.mem_filter.1 hm).2
  have hsplit := allOps_filter (k := k) ho
  unfold serverGet at hv
  unfold onKey LoneClear
  rcases hlist : (allOps n T).filter (·.k = k) with _ | ⟨m, l⟩
  · obtain ⟨m, hm, hk⟩ := hex
    have := List.filter_eq_nil_iff.1 hlist m hm
    exact absurd hk (by simpa using this)
  rw [hlist, List.forall_mem_cons] at hkey
  rw [hlist] at hsplit
  simp only [hlist]
  have hone : ∀ m', m :: l = [m'] → applyList scanApply l (true, (m.k, m.v))
      = some (true, (k, m'.v)) := by
    rintro m' h
    obtain ⟨rfl, rfl⟩ := List.cons.inj h
    rw [← hkey.1]
    rfl
  -- the messages behind the first one, from a pair that stands for what the first leaves
  have hrest : ∀ {u : Option Bytes}, Rep k u (true, some (m.k, m.v)) →
      l.foldlM (serverEff gefsKvmax k) u = some v →
      ∃ r, applyList scanApply l (true, (m.k, m.v)) = some r
        ∧ ((¬ (∃ m', m :: l = [m'] ∧ (m'.op = .oclearb ∨ m'.op = .oclobber)) →
            Rep k v (r.1, some r.2))
          ∧ ∀ m', m :: l = [m'] → r = (true, (k, m'.v))) := by
    intro u hr he
    obtain ⟨r, h1, h2⟩ := applyAll_rep hr hkey.2 he
    exact ⟨r, h1, fun _ => h2, fun m' hm' => Option.some.inj (h1.symm.trans (hone m' hm'))⟩
  rcases hleaf : leafVal n T k with _ | w
  · rw [hleaf] at hsplit hv
    rw [Option.map_none, Option.toList_none, List.nil_append] at hsplit
    rw [← hsplit, List.foldlM_cons] at hv
    obtain ⟨u, hu, he⟩ := Option.bind_eq_some_iff.1 hv
    by_cases hclear : m.op = .oclearb ∨ m.op = .oclobber
    · have hu' : u = none := by
        unfold serverEff at hu
        rcases hclear with h | h <;> rw [h] at hu <;> exact (Option.some.inj hu).symm
      subst hu'
      rcases l with _ | ⟨m', l⟩
      · exact ⟨_, rfl, fun h => absurd ⟨m, rfl, hclear⟩ h,
          fun m' hm' => Option.some.inj (hone m' hm')⟩
      · -- a second message leaves the same of nothing as of the empty value
        rw [List.foldlM_cons] at he
        obtain ⟨w, hw, he⟩ := Option.bind_eq_some_iff.1 he
        rw [List.forall_mem_cons] at hkey
        have hstep : ∃ b kv', scanApply (m.k, m.v) m' = some (b, kv')
            ∧ Rep k w (b, some kv') := by
          unfold serverEff at hw
          unfold scanApply apply
          cases hop : m'.op <;> rw [hop] at hw <;> simp only at hw ⊢
          case oinsert =>
            split_ifs at hw with hlen
            refine ⟨true, (m'.k, m'.v), ?_, ?_⟩
            · rw [gefsCpkvp, if_pos (by rw [hkey.2.1]; exact hlen)]
              rfl
            · rw [← Option.some.inj hw, hkey.2.1]
              exact ⟨rfl, fun w hw => by rw [Option.some.inj hw]⟩
          case oclearb | oclobber =>
            refine ⟨false, (m.k, m.v), rfl, ?_⟩
            rw [← Option.some.inj hw]
            exact ⟨rfl, by simp⟩
          all_goals exact absurd hw (by simp)
        obtain ⟨b, kv', h1, h2⟩ := hstep
        obtain ⟨r, h3, h4⟩ := applyAll_rep h2 hkey.2.2 he
        refine ⟨r, ?_, fun _ => h4, fun m'' h => absurd h (by simp)⟩
        show (scanApply (m.k, m.v) m').bind (applyList scanApply l) = some r
        rw [h1, Option.bind_some, h3]
    · have hop : m.op = .oinsert ∧ u = some m.v := by
        rw [not_or] at hclear
        unfold serverEff at hu
        cases hop : m.op <;> rw [hop] at hu <;> simp only at hu
        case oinsert =>
          split_ifs at hu
          exact ⟨rfl, (Option.some.inj hu).symm⟩
        case oclearb => exact absurd hop hclear.1
        case oclobber => exact absurd hop hclear.2
        all_goals exact absurd hu (by simp)
      refine hrest ?_ he
      rw [hop.2, hkey.1]
      exact ⟨rfl, fun w hw => by rw [Option.some.inj hw]⟩
  · rw [hleaf] at hsplit hv
    obtain ⟨rfl, hl⟩ := List.cons.inj
      (show m :: l = pairMsg (k, w) :: msgsOn n T k from hsplit)
    refine hrest ?_ (hl ▸ hv)
    exact ⟨rfl, fun x hx => by rw [← Option.some.inj hx]; rfl⟩

end Pairs

/-! ## The sweep -/

section Sweep

variable {get : GefsBptr → Option Content} {t : GefsTree} {n : ℕ} {T : Beps n} {k : Bytes}
  {bp : GefsBptr}

theorem prefix_le {p k : Bytes} (h : p <+: k) : p ≤ k := by
  obtain ⟨c, rfl⟩ := h
  rcases c with _ | ⟨c, cs⟩
  · rw [List.append_nil]
  · exact (lt_of_prefix_of_length ⟨c :: cs, rfl⟩ (by simp)).le

theorem mem_of_serverGet {lo hi : Option Bytes} {v : Bytes} (ho : Ordered n T lo hi)
    (hv : serverGet gefsKvmax n T k = some (some v)) : ∃ m ∈ allOps n T, m.k = k := by
  by_contra hno
  have hnil : (allOps n T).filter (·.k = k) = [] :=
    List.filter_eq_nil_iff.2 fun m hm => by simpa using fun he => hno ⟨m, hm, he⟩
  rw [allOps_filter ho, List.append_eq_nil_iff] at hnil
  have hleaf : leafVal n T k = none := by
    rcases h : leafVal n T k with _ | w
    · rfl
    · rw [h] at hnil
      exact absurd hnil.1 (by simp)
  rw [serverGet, hnil.2, hleaf] at hv
  exact absurd hv (by simp)

namespace SweepTree

variable (h : SweepTree get t n T)
include h

theorem btlookup {v : Option Bytes} (hv : serverGet gefsKvmax n T k = some v) :
    Server.btlookup get t k gefsKvmax = some (v.map (k, ·)) := by
  refine btlookup_tree h.ht h.blocks h.ordered (fun w hw => ?_) hv
  have hmem : pairMsg (k, w) ∈ (allOps n T).filter (·.k = k) := by
    rw [allOps_filter h.ordered, hw]
    simp
  exact h.scannable _ (List.mem_filter.1 hmem).1

theorem mapped_iff : Mapped get t bp ↔ ∃ k, Maps n T k bp := by
  constructor
  · rintro ⟨k, v, hk, hget, hbp⟩
    obtain ⟨w, hw⟩ := h.applies k
    rw [h.btlookup hw, Option.some.injEq, Option.map_eq_some_iff] at hget
    obtain ⟨w, rfl, he⟩ := hget
    rw [Prod.mk.injEq] at he
    exact ⟨k, hk, w, hw, he.2 ▸ hbp⟩
  · rintro ⟨k, hk, v, hv, hbp⟩
    exact ⟨k, v, hk, h.btlookup hv, hbp⟩

theorem onKey_isSome (hk : k ∈ keysFrom [gefsKdat] (allOps n T)) :
    (onKey scanApply (allOps n T) k).isSome := by
  obtain ⟨v, hv⟩ := h.applies k
  obtain ⟨r, hr, -⟩ := onKey_rep h.ordered hv (mem_keysFrom.1 hk).2
  rw [hr]
  rfl

/-- The sweep with what its scan and its walk come to. -/
theorem sweeptree_eq {fuel : ℕ} (hf : (allOps n T).length + n < fuel) :
    sweeptree get fuel t = (visit (fun m => m.op = .oinsert) scanApply [gefsKdat] n T
      (keysFrom [gefsKdat] (allOps n T))).bind fun kvs =>
        (kvs.mapM fun kv => valBptr kv.2).map fun bps =>
          bps.filter (t.pred < ·.gen) ++ (nodePtrs n T t.bp).filter (t.pred < ·.gen) := by
  obtain ⟨path, hpath, hscan⟩ : ∃ path, Cursor.enter get t [gefsKdat] true = some path
      ∧ Cursor.scan get (fun m => m.op = .oinsert) scanApply [gefsKdat] fuel path
        = visit (fun m => m.op = .oinsert) scanApply [gefsKdat] n T
          (keysFrom [gefsKdat] (allOps n T)) :=
    scan_tree h.ht h.blocks h.ordered h.peopled h.scannable keepsKey_scanApply (by omega)
  have hnodes : freetree get t.pred fuel t.bp = some ((nodePtrs n T t.bp).filter (t.pred < ·.gen)) :=
    freetree_eq h.blocks (by omega)
  simp only [sweeptree, hpath, hscan, hnodes, Option.bind_eq_bind, Option.bind_some,
    Option.map_eq_bind]
  rfl

/-- What the scan finds under a data key is what the lookup finds. -/
theorem found_eq_some (hs : Sweepable n T) (hk : [gefsKdat] <+: k)
    (hex : ∃ m ∈ allOps n T, m.k = k) {kv : GefsKvp} :
    found scanApply (allOps n T) k = some kv ↔
      kv.1 = k ∧ serverGet gefsKvmax n T k = some (some kv.2) := by
  obtain ⟨v, hv⟩ := h.applies k
  obtain ⟨r, hr, hrep, -⟩ := onKey_rep h.ordered hv hex
  obtain ⟨h1, h2⟩ := hrep (hs.cleared k hk)
  rw [found, hr, Option.bind_some, hv, Option.some.injEq]
  rcases v with _ | v
  · rw [show r.1 = false from h1]
    simp
  · have hkv : r.2 = (k, v) := Option.some.inj (h2 v rfl)
    rw [show r.1 = true from h1, if_pos rfl, hkv, Option.some.injEq, Option.some.injEq]
    constructor
    · rintro rfl
      exact ⟨rfl, rfl⟩
    · rintro ⟨rfl, rfl⟩
      rfl

theorem swept (hs : Sweepable n T) : Swept get t n T := by
  let ks := keysFrom [gefsKdat] (allOps n T)
  let kvs := (ks.filter [gefsKdat].isPrefixOf).filterMap (found scanApply (allOps n T))
  let ptr : GefsKvp → GefsBptr := fun kv => (valBptr kv.2).getD ⟨0, 0, 0⟩
  have hvisit : visit (fun m => m.op = .oinsert) scanApply [gefsKdat] n T ks = some kvs := by
    refine (visit_eq_some_iff (keysFrom_pairwise _ _) (fun k hk => (mem_keysFrom.1 hk).1)
      fun k hk _ => h.onKey_isSome hk).2 ⟨fun k hk hb => ?_, rfl⟩
    obtain ⟨hle, m, hm, rfl⟩ := mem_keysFrom.1 hk
    have hpend := hs.pending m hm hle fun m' hm' hle' hlt =>
      List.isPrefixOf_iff_prefix.1 (hb m'.k (mem_keysFrom.2 ⟨hle', m', hm', rfl⟩) hlt)
    rcases hx : standAt (m.k ≤ ·) n T with _ | _ | x
    · rfl
    · rfl
    · simpa using hpend x hx
  have hkvs : ∀ kv, kv ∈ kvs ↔ [gefsKdat] <+: kv.1
      ∧ serverGet gefsKvmax n T kv.1 = some (some kv.2) := by
    intro kv
    rw [List.mem_filterMap]
    constructor
    · rintro ⟨k, hk, hf⟩
      obtain ⟨hk, hp⟩ := List.mem_filter.1 hk
      have hp := List.isPrefixOf_iff_prefix.1 hp
      obtain ⟨rfl, hv⟩ := (h.found_eq_some hs hp (mem_keysFrom.1 hk).2).1 hf
      exact ⟨hp, hv⟩
    · rintro ⟨hp, hv⟩
      have hex := mem_of_serverGet h.ordered hv
      exact ⟨kv.1, List.mem_filter.2 ⟨mem_keysFrom.2 ⟨prefix_le hp, hex⟩,
        List.isPrefixOf_iff_prefix.2 hp⟩, (h.found_eq_some hs hp hex).2 ⟨rfl, hv⟩⟩
  have hptr : ∀ kv ∈ kvs, valBptr kv.2 = some (ptr kv) ∧ Maps n T kv.1 (ptr kv) := by
    intro kv hkv
    obtain ⟨hp, hv⟩ := (hkvs kv).1 hkv
    obtain ⟨bp, hbp⟩ := h.points kv.1 kv.2 hp hv
    have he : ptr kv = bp := by simp only [ptr, hbp, Option.getD_some]
    rw [he]
    exact ⟨hbp, hp, kv.2, hv, hbp⟩
  have hmaps : ∀ bp, bp ∈ kvs.map ptr ↔ ∃ k, Maps n T k bp := by
    intro bp
    rw [List.mem_map]
    constructor
    · rintro ⟨kv, hkv, rfl⟩
      exact ⟨kv.1, (hptr kv hkv).2⟩
    · rintro ⟨k, hp, v, hv, hbp⟩
      exact ⟨(k, v), (hkvs _).2 ⟨hp, hv⟩, by simp only [ptr, hbp, Option.getD_some]⟩
  have hapart : ((kvs.map ptr).map (·.addr)).Nodup := by
    have hkeys : kvs.Pairwise fun a b => a.1 ≠ b.1 := by
      refine List.Pairwise.filterMap _ (fun a a' hlt b hb b' hb' => ?_)
        ((keysFrom_pairwise _ _).filter [gefsKdat].isPrefixOf)
      rw [keepsKey_scanApply.found hb, keepsKey_scanApply.found hb']
      exact hlt.ne
    rw [List.map_map, List.Nodup, List.pairwise_map]
    exact hkeys.imp_of_mem fun ha hb hne he =>
      hne (h.apart _ _ _ _ (hptr _ ha).2 (hptr _ hb).2 he)
  refine ⟨(kvs.map ptr).filter (t.pred < ·.gen) ++ (nodePtrs n T t.bp).filter (t.pred < ·.gen),
    ⟨(allOps n T).length + n + 1, fun fuel hf => ?_⟩, ?_, fun bp => ?_⟩
  · rw [h.sweeptree_eq (by omega)]
    show (visit (fun m => m.op = .oinsert) scanApply [gefsKdat] n T ks).bind _ = _
    rw [hvisit, Option.bind_some, mapM_some fun kv hkv => (hptr kv hkv).1]
    rfl
  · rw [List.map_append, List.nodup_append]
    refine ⟨hapart.sublist (List.filter_sublist.map _),
      h.nodes.sublist (List.filter_sublist.map _), fun a ha b hb => ?_⟩
    obtain ⟨x, hx, rfl⟩ := List.mem_map.1 ha
    obtain ⟨y, hy, rfl⟩ := List.mem_map.1 hb
    obtain ⟨k, hk⟩ := (hmaps x).1 (List.mem_filter.1 hx).1
    exact h.away k x hk y (List.mem_filter.1 hy).1
  · rw [List.mem_append, List.mem_filter, List.mem_filter, hmaps, h.mapped_iff,
      decide_eq_true_eq]
    tauto

theorem sweepable (hs : Swept get t n T) : Sweepable n T := by
  obtain ⟨fs, ⟨N, hN⟩, -⟩ := hs
  have hrun := hN (max N ((allOps n T).length + n + 1)) (le_max_left _ _)
  rw [h.sweeptree_eq (by omega)] at hrun
  obtain ⟨kvs, hvisit, hrun⟩ := Option.bind_eq_some_iff.1 hrun
  obtain ⟨bps, hbps, -⟩ := Option.map_eq_some_iff.1 hrun
  obtain ⟨hchk, rfl⟩ := (visit_eq_some_iff (keysFrom_pairwise _ _)
    (fun k hk => (mem_keysFrom.1 hk).1) fun k hk _ => h.onKey_isSome hk).1 hvisit
  refine ⟨fun k hk ⟨m, hm, hclear⟩ => ?_, fun m hm hle hb x hx => ?_⟩
  · -- the pair the scan returns there has an empty value
    have hmem : m ∈ (allOps n T).filter (·.k = k) := by simp [hm]
    obtain ⟨hmem, hmk⟩ := List.mem_filter.1 hmem
    have hmk : m.k = k := by simpa using hmk
    obtain ⟨v, hv⟩ := h.applies k
    obtain ⟨r, hr, -, hone⟩ := onKey_rep h.ordered hv ⟨m, hmem, hmk⟩
    have hfound : found scanApply (allOps n T) k = some (k, []) := by
      rw [found, hr, Option.bind_some, hone m hm, if_pos rfl, h.clears m hmem hclear]
    have hin : (k, ([] : Bytes)) ∈ ((keysFrom [gefsKdat] (allOps n T)).filter
        [gefsKdat].isPrefixOf).filterMap (found scanApply (allOps n T)) :=
      List.mem_filterMap.2 ⟨k, List.mem_filter.2 ⟨mem_keysFrom.2 ⟨prefix_le hk, m, hmem, hmk⟩,
        List.isPrefixOf_iff_prefix.2 hk⟩, hfound⟩
    obtain ⟨bp, hbp⟩ := of_mapM_some hbps _ hin
    exact absurd hbp (by simp [valBptr, gefsPtrsz])
  · have := hchk m.k (mem_keysFrom.2 ⟨hle, m, hm, rfl⟩) fun k' hk' hlt => by
      obtain ⟨hle', m', hm', rfl⟩ := mem_keysFrom.1 hk'
      exact List.isPrefixOf_iff_prefix.2 (hb m' hm' hle' hlt)
    rw [hx] at this
    simpa using this

end SweepTree

/-- The sweep ends and frees the right blocks once each exactly where no clear is alone on a data
key, and none waits where an insertion must be next. -/
theorem sweeptree_iff (h : SweepTree get t n T) : Swept get t n T ↔ Sweepable n T :=
  ⟨h.sweepable, h.swept⟩

end Sweep

/-! ## A hole that is cleared -/

section Cleared

/-- The file 1 has its first block at 64 KiB. -/
def datKey : Bytes := packdatkey 1 0
def datPtr : Bytes := gefsPackbp ⟨65536, 0, 5⟩

/-- Its second block was never written. -/
def holeKey : Bytes := packdatkey 1 16384

def holeMsg : GefsMsg := ⟨.oclearb, holeKey, [], List.replicate 44 0⟩

def leafPtr : GefsBptr := ⟨16384, 0, 5⟩

def clearedLeaf : Btree.Node := ⟨leafPtr, false, [(datKey, datPtr)], []⟩

def clearedRoot : Btree.Node :=
  ⟨⟨32768, 0, 5⟩, true, [(datKey, gefsPackbp leafPtr)], [holeMsg]⟩

/-- The clear of the hole waits above the leaf. -/
def cleared : Beps 1 := ([((datKey, gefsPackbp leafPtr), [(datKey, datPtr)])], [holeMsg])

def clearedGet (bp : GefsBptr) : Option Content :=
  if bp = clearedRoot.bp then some clearedRoot.content
  else if bp = leafPtr then some clearedLeaf.content
  else none

def clearedTree : GefsTree := { zeroTree with ht := 2, bp := clearedRoot.bp }

theorem allOps_cleared : allOps 1 cleared = [pairMsg (datKey, datPtr), holeMsg] := rfl

theorem valBptr_leafPtr : valBptr (gefsPackbp leafPtr) = some leafPtr := by decide +kernel

theorem valBptr_datPtr : valBptr datPtr = some ⟨65536, 0, 5⟩ := by decide +kernel

/-- The child of the root, the leaf. -/
def clearedChild : GefsKvp × Beps 0 := ((datKey, gefsPackbp leafPtr), [(datKey, datPtr)])

theorem cleared_eq : cleared = ([clearedChild], [holeMsg]) := rfl

theorem childOf_cleared (k : Bytes) :
    childOf [clearedChild] k = if datKey ≤ k then some clearedChild else none := rfl

theorem leafVal_cleared (k : Bytes) :
    leafVal 1 cleared k = if k = datKey then some datPtr else none := by
  rw [cleared_eq, leafVal, childOf_cleared]
  by_cases hle : datKey ≤ k
  · rw [if_pos hle]
    show look [(datKey, datPtr)] k = _
    rw [look]
    simp only [eq_comm, look_nil]
  · rw [if_neg hle, if_neg fun he => hle he.ge]

theorem msgsOn_cleared (k : Bytes) : msgsOn 1 cleared k = [holeMsg].filter (·.k = k) := by
  rw [cleared_eq, msgsOn]
  cases childOf [clearedChild] k <;> rfl

theorem serverGet_cleared (k : Bytes) : serverGet gefsKvmax 1 cleared k
    = some (if k = datKey then some datPtr else none) := by
  rw [serverGet, leafVal_cleared, msgsOn_cleared]
  by_cases hk : holeMsg.k = k
  · subst hk
    decide +kernel
  · rw [List.filter_cons_of_neg (by simpa using hk)]
    rfl

theorem nodePtrs_cleared : nodePtrs 1 cleared clearedTree.bp = [leafPtr, clearedRoot.bp] := by
  show (valBptr (gefsPackbp leafPtr)).elim [] (nodePtrs 0 [(datKey, datPtr)]) ++ [] ++ [_] = _
  rw [valBptr_leafPtr]
  rfl

theorem maps_cleared {k : Bytes} {bp : GefsBptr} (h : Maps 1 cleared k bp) :
    k = datKey ∧ bp = ⟨65536, 0, 5⟩ := by
  obtain ⟨-, v, hv, hbp⟩ := h
  rw [serverGet_cleared, Option.some.injEq] at hv
  split_ifs at hv with hk
  rw [← Option.some.inj hv, valBptr_datPtr, Option.some.injEq] at hbp
  exact ⟨hk, hbp.symm⟩

theorem fits_clearedLeaf : clearedLeaf.Fits := by
  refine ⟨?_, ?_, by simp [clearedLeaf], fun _ => rfl⟩ <;> decide

theorem fits_clearedRoot : clearedRoot.Fits := by
  refine ⟨?_, ?_, ?_, fun h => absurd h (by simp [clearedRoot])⟩ <;> decide

theorem read_clearedRoot : clearedRoot.read = [holeMsg] := by decide +kernel

theorem ordered_cleared : Ordered 1 cleared none none := by
  refine ⟨List.pairwise_singleton _ _, by simp [InRange], List.pairwise_singleton _ _,
    by simp [InRange], fun j c hj => ?_⟩
  obtain ⟨hj', rfl⟩ := List.getElem?_eq_some_iff.1 hj
  obtain rfl : j = 0 := by simpa using hj'
  refine ⟨List.pairwise_singleton _ _, fun e he => ?_⟩
  obtain rfl := List.mem_singleton.1 he
  simp [InRange, rightOf]

theorem treeIn_cleared : TreeIn clearedGet 1 cleared clearedTree.bp := by
  refine ⟨⟨clearedRoot.content, if_pos rfl, ?_⟩, fun c hc => ?_⟩
  · have h := Btree.isPivot_content fits_clearedRoot rfl
    rw [read_clearedRoot] at h
    exact h
  · obtain rfl := List.mem_singleton.1 hc
    exact ⟨_, valBptr_leafPtr, clearedLeaf.content, (if_neg (by decide)).trans (if_pos rfl),
      Btree.isLeaf_content fits_clearedLeaf rfl⟩

theorem sweepTree_cleared : SweepTree clearedGet clearedTree 1 cleared where
  ht := by decide
  blocks := treeIn_cleared
  ordered := ordered_cleared
  peopled _ := ⟨by simp, fun c hc => by
    obtain rfl := List.mem_singleton.1 hc
    exact List.cons_ne_nil _ _⟩
  scannable m hm := by
    rw [allOps_cleared, List.mem_cons, List.mem_singleton] at hm
    rcases hm with rfl | rfl <;> decide
  applies k := ⟨_, serverGet_cleared k⟩
  clears m hm hop := by
    rw [allOps_cleared, List.mem_cons, List.mem_singleton] at hm
    rcases hm with rfl | rfl
    · exact absurd hop (by simp [pairMsg])
    · rfl
  points k v _ hv := by
    rw [serverGet_cleared, Option.some.injEq] at hv
    split_ifs at hv
    exact ⟨_, Option.some.inj hv ▸ valBptr_datPtr⟩
  apart k k' bp bp' h h' _ := (maps_cleared h).1.trans (maps_cleared h').1.symm
  away k bp h bp' hbp' := by
    rw [nodePtrs_cleared, List.mem_cons, List.mem_singleton] at hbp'
    rw [(maps_cleared h).2]
    rcases hbp' with rfl | rfl <;> decide
  nodes := by
    rw [nodePtrs_cleared]
    decide

theorem not_sweepable_cleared : ¬ Sweepable 1 cleared := by
  intro h
  refine h.cleared holeKey (by decide) ⟨holeMsg, ?_, .inl rfl⟩
  rw [allOps_cleared]
  decide

/-- The sweep of a tree with the clear of a hole stops. -/
theorem not_forall_swept : ¬ ∀ (get : GefsBptr → Option Content) (t : GefsTree) (n : ℕ)
    (T : Beps n), SweepTree get t n T → Swept get t n T := fun h =>
  not_sweepable_cleared (sweepTree_cleared.sweepable (h _ _ _ _ sweepTree_cleared))

theorem sweeptree_cleared : Swept clearedGet clearedTree 1 cleared ↔ Sweepable 1 cleared :=
  sweeptree_iff sweepTree_cleared

end Cleared

end GefsFuse.Server
