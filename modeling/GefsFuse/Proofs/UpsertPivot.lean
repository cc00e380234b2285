import GefsFuse.Proofs.Beps
import GefsFuse.Proofs.Upsert

/-!
# An update of a tree with pivots

`gefs_btupsert` reads the entries of the root whatever its type. Those of a pivot are separators
with the pointers of the children, so the new leaf holds the pointers as values, and what lay below
the root or waited in its buffer is gone. `upsert_pivot_iff` says when nobody can tell.
-/

namespace GefsFuse

open ByteMem SortedMap

/-! ## What the merge leaves under a key -/

section Kept

variable {k : Bytes}

/-- The value of the first insertion. -/
def firstIns : List GefsMsg → Option Bytes
  | [] => none
  | m :: ms => if m.op = .oinsert then some m.v else firstIns ms

/-- What the merge leaves to be found of the entry of a key and the messages on it: the first
message meets the entry, and of the insertions after it the first is found. -/
def keptOf (k : Bytes) : Option Bytes → List GefsMsg → Option Bytes
  | r, [] => r
  | none, m :: ms => firstIns (m :: ms)
  | some w, m :: ms =>
    if m.op = .oinsert then some m.v
    else if m.op = .owstat then (statupdate (k, w) m).map (·.2)
    else firstIns ms

theorem keptOf_none (g : List GefsMsg) : keptOf k none g = firstIns g := by
  cases g <;> rfl

theorem forall_mem_meetMsg {P : GefsKvp → Prop} {e : GefsKvp} {m : GefsMsg} {l : List GefsKvp}
    (h : meetMsg e m = some l) (he : P e) (hm : P (m.k, m.v))
    (hst : ∀ e', statupdate e m = some e' → P e → P e') : ∀ x ∈ l, P x := by
  intro x hx
  unfold meetMsg at h
  split_ifs at h
  · rw [← Option.some.inj h, List.mem_singleton] at hx
    rwa [hx]
  · obtain ⟨kv, hkv, rfl⟩ := Option.map_eq_some_iff.1 h
    obtain ⟨e', h1, h2⟩ := Option.bind_eq_some_iff.1 hkv
    unfold gefsCpkvp at h1
    split_ifs at h1
    obtain rfl := Option.some.inj h1
    rw [List.mem_singleton.1 hx]
    exact hst kv h2 he
  · rw [← Option.some.inj h] at hx
    simp at hx

/-- A message that meets an entry leaves at most one, under the same key. -/
theorem meetMsg_key {e : GefsKvp} {m : GefsMsg} {l : List GefsKvp} (h : meetMsg e m = some l)
    (he : e.1 = m.k) : ∀ x ∈ l, x.1 = m.k :=
  forall_mem_meetMsg (P := fun x => x.1 = m.k) h he rfl
    fun _ hst he => (statupdate_key hst).trans he

theorem mem_putOf {m : GefsMsg} {x : GefsKvp} (hx : x ∈ putOf GefsMsg.k GefsMsg.eff m) :
    x = (m.k, m.v) := by
  unfold putOf GefsMsg.eff at hx
  obtain ⟨v, hv, rfl⟩ := List.mem_map.1 hx
  rw [Option.mem_toList] at hv
  split_ifs at hv
  rw [← Option.some.inj hv]

/-- What holds of the entries and the insertions, and is kept by a wstat, holds of the merge. -/
theorem forall_mem_mergeVals {P : GefsKvp → Prop} {es : List GefsKvp} {ms : List GefsMsg}
    {l : List GefsKvp} (h : mergeVals es ms = some l) (he : ∀ e ∈ es, P e)
    (hm : ∀ m ∈ ms, P (m.k, m.v))
    (hst : ∀ e m e', statupdate e m = some e' → P e → P e') : ∀ x ∈ l, P x := by
  induction es, ms using mergeVals.induct generalizing l with
  | case1 es =>
    rw [mergeVals] at h
    exact Option.some.inj h ▸ he
  | case2 m ms ih =>
    obtain ⟨hm, hms⟩ := List.forall_mem_cons.1 hm
    rw [mergeVals] at h
    obtain ⟨l', hl', rfl⟩ := Option.map_eq_some_iff.1 h
    exact List.forall_mem_append.2 ⟨fun x hx => mem_putOf hx ▸ hm, ih hl' he hms⟩
  | case3 e es m ms hlt ih =>
    obtain ⟨he, hes⟩ := List.forall_mem_cons.1 he
    rw [mergeVals, if_pos hlt] at h
    obtain ⟨l', hl', rfl⟩ := Option.map_eq_some_iff.1 h
    exact List.forall_mem_cons.2 ⟨he, ih hl' hes hm⟩
  | case4 e es m ms hlt heq ih =>
    obtain ⟨he, hes⟩ := List.forall_mem_cons.1 he
    obtain ⟨hm, hms⟩ := List.forall_mem_cons.1 hm
    rw [mergeVals, if_neg hlt, if_pos heq] at h
    obtain ⟨l1, h1, h⟩ := Option.bind_eq_some_iff.1 h
    obtain ⟨l2, h2, h⟩ := Option.bind_eq_some_iff.1 h
    rw [← Option.some.inj h]
    exact List.forall_mem_append.2
      ⟨forall_mem_meetMsg h1 he hm fun e' => hst e m e', ih h2 hes hms⟩
  | case5 e es m ms hlt heq ih =>
    obtain ⟨hm, hms⟩ := List.forall_mem_cons.1 hm
    rw [mergeVals, if_neg hlt, if_neg heq] at h
    obtain ⟨l', hl', rfl⟩ := Option.map_eq_some_iff.1 h
    exact List.forall_mem_append.2 ⟨fun x hx => mem_putOf hx ▸ hm, ih hl' he hms⟩

/-- No key of the merge is below all the entries and messages it came from. -/
theorem le_of_mem_mergeVals {es : List GefsKvp} {ms : List GefsMsg} {l : List GefsKvp}
    {x : GefsKvp} {k : Bytes} (h : mergeVals es ms = some l) (hx : x ∈ l)
    (he : ∀ e ∈ es, k ≤ e.1) (hm : ∀ m ∈ ms, k ≤ m.k) : k ≤ x.1 :=
  forall_mem_mergeVals (P := fun x => k ≤ x.1) h he hm
    (fun _ _ _ hst he => (statupdate_key hst).symm ▸ he) x hx

theorem nonDesc_append {l1 l2 : List GefsKvp} {k : Bytes} (h1 : ∀ x ∈ l1, x.1 = k)
    (h2 : NonDesc l2) (h : ∀ y ∈ l2, k ≤ y.1) : NonDesc (l1 ++ l2) := by
  refine List.pairwise_append.2 ⟨?_, h2, fun x hx y hy => h1 x hx ▸ h y hy⟩
  exact List.Pairwise.imp_of_mem (fun {a b} ha hb _ => (h1 a ha).le.trans (h1 b hb).ge)
    (List.pairwise_of_forall_mem_list (r := fun _ _ => True) fun _ _ _ _ => trivial)

theorem nonDesc_mergeVals {es : List GefsKvp} {ms : List GefsMsg} {l : List GefsKvp}
    (hs : Ascending es) (hms : ms.Pairwise fun a b => a.k ≤ b.k)
    (h : mergeVals es ms = some l) : NonDesc l := by
  induction es, ms using mergeVals.induct generalizing l with
  | case1 es =>
    rw [mergeVals] at h
    exact Option.some.inj h ▸ nonDesc_of_ascending hs
  | case2 m ms ih =>
    obtain ⟨hm, hms⟩ := List.pairwise_cons.1 hms
    rw [mergeVals] at h
    obtain ⟨l', hl', rfl⟩ := Option.map_eq_some_iff.1 h
    exact nonDesc_append (fun x hx => mem_putOf hx ▸ rfl) (ih hs hms hl')
      fun y hy => le_of_mem_mergeVals hl' hy (by simp) hm
  | case3 e es m ms hlt ih =>
    obtain ⟨he, hs⟩ := List.pairwise_cons.1 hs
    rw [mergeVals, if_pos hlt] at h
    obtain ⟨l', hl', rfl⟩ := Option.map_eq_some_iff.1 h
    refine List.pairwise_cons.2 ⟨fun y hy => ?_, ih hs hms hl'⟩
    refine le_of_mem_mergeVals hl' hy (fun e' he' => (he e' he').le) fun m' hm' => ?_
    rcases List.mem_cons.1 hm' with rfl | hm'
    · exact hlt.le
    · exact hlt.le.trans ((List.pairwise_cons.1 hms).1 m' hm')
  | case4 e es m ms hlt he ih =>
    obtain ⟨hlow, hs⟩ := List.pairwise_cons.1 hs
    obtain ⟨hm, hms⟩ := List.pairwise_cons.1 hms
    rw [mergeVals, if_neg hlt, if_pos he] at h
    obtain ⟨l1, h1, h⟩ := Option.bind_eq_some_iff.1 h
    obtain ⟨l2, h2, h⟩ := Option.bind_eq_some_iff.1 h
    rw [← Option.some.inj h]
    exact nonDesc_append (meetMsg_key h1 he) (ih hs hms h2)
      fun y hy => le_of_mem_mergeVals h2 hy (fun e' he' => he ▸ (hlow e' he').le) hm
  | case5 e es m ms hlt he ih =>
    have hgt : m.k < e.1 := lt_of_le_of_ne (not_lt.1 hlt) (Ne.symm he)
    obtain ⟨hlow, -⟩ := List.pairwise_cons.1 hs
    obtain ⟨hm, hms⟩ := List.pairwise_cons.1 hms
    rw [mergeVals, if_neg hlt, if_neg he] at h
    obtain ⟨l', hl', rfl⟩ := Option.map_eq_some_iff.1 h
    refine nonDesc_append (fun x hx => mem_putOf hx ▸ rfl) (ih hs hms hl') fun y hy =>
      le_of_mem_mergeVals hl' hy (fun e' he' => ?_) hm
    rcases List.mem_cons.1 he' with rfl | he'
    · exact hgt.le
    · exact hgt.le.trans (hlow e' he').le

theorem look_append_of_ne {l1 l2 : List GefsKvp} (h : ∀ x ∈ l1, x.1 ≠ k) :
    look (l1 ++ l2) k = look l2 k := by
  induction l1 with
  | nil => rfl
  | cons x l1 ih =>
    rw [List.cons_append, look_cons_of_ne (h x (by simp)),
      ih fun y hy => h y (List.mem_cons_of_mem _ hy)]

theorem look_cons_self (v : Bytes) (l : List GefsKvp) : look ((k, v) :: l) k = some v := by
  rw [look, if_pos rfl]

/-- A message without an entry, before the rest of the merge. -/
theorem look_putOf {m : GefsMsg} {ms : List GefsMsg} {l : List GefsKvp} {r : Option Bytes}
    (hr : m.k = k → r = none) (hl : look l k = keptOf k r (ms.filter (·.k = k))) :
    look (putOf GefsMsg.k GefsMsg.eff m ++ l) k = keptOf k r ((m :: ms).filter (·.k = k)) := by
  by_cases hk : m.k = k
  · rw [hr hk, keptOf_none] at hl ⊢
    rw [List.filter_cons_of_pos (by simpa using hk), firstIns]
    unfold putOf GefsMsg.eff
    split_ifs with hop
    · rw [hk]
      exact look_cons_self m.v l
    · exact hl
  · rw [List.filter_cons_of_neg (by simpa using hk), ← hl]
    exact look_append_of_ne fun x hx => mem_putOf hx ▸ hk

theorem look_mergeVals {es : List GefsKvp} {ms : List GefsMsg} {l : List GefsKvp}
    (hs : Ascending es) (hms : ms.Pairwise fun a b => a.k ≤ b.k)
    (h : mergeVals es ms = some l) (k : Bytes) :
    look l k = keptOf k (look es k) (ms.filter (·.k = k)) := by
  induction es, ms using mergeVals.induct generalizing l with
  | case1 es =>
    rw [mergeVals] at h
    rw [← Option.some.inj h, List.filter_nil]
    rfl
  | case2 m ms ih =>
    rw [mergeVals] at h
    obtain ⟨l', hl', rfl⟩ := Option.map_eq_some_iff.1 h
    exact look_putOf (fun _ => rfl) (ih hs (List.pairwise_cons.1 hms).2 hl')
  | case3 e es m ms hlt ih =>
    have hs' := (List.pairwise_cons.1 hs).2
    rw [mergeVals, if_pos hlt] at h
    obtain ⟨l', hl', rfl⟩ := Option.map_eq_some_iff.1 h
    by_cases hk : e.1 = k
    · -- every message lies behind the entry
      have hnil : (m :: ms).filter (·.k = k) = [] := by
        refine List.filter_eq_nil_iff.2 fun m' hm' => ?_
        have hle : m.k ≤ m'.k := by
          rcases List.mem_cons.1 hm' with rfl | hm'
          · exact le_rfl
          · exact (List.pairwise_cons.1 hms).1 m' hm'
        have hne : m'.k ≠ k := (hk ▸ hlt.trans_le hle).ne'
        simp [hne]
      rw [hnil, look, look, if_pos hk, if_pos hk]
      rfl
    · rw [look_cons_of_ne hk, look_cons_of_ne hk]
      exact ih hs' hms hl'
  | case4 e es m ms hlt he ih =>
    have hs' := (List.pairwise_cons.1 hs).2
    rw [mergeVals, if_neg hlt, if_pos he] at h
    obtain ⟨l1, h1, h⟩ := Option.bind_eq_some_iff.1 h
    obtain ⟨l2, h2, h⟩ := Option.bind_eq_some_iff.1 h
    have hl2 := ih hs' (List.pairwise_cons.1 hms).2 h2
    rw [← Option.some.inj h]
    by_cases hk : e.1 = k
    · have hnone : look es k = none := by
        rw [← hk]
        exact hs.look_tail
      rw [hnone, keptOf_none] at hl2
      rw [List.filter_cons_of_pos (by simpa using he ▸ hk), look, if_pos hk, keptOf]
      unfold meetMsg at h1
      split_ifs at h1 with hop hw
      · rw [if_pos hop, ← Option.some.inj h1, ← he, hk]
        exact look_cons_self m.v l2
      · obtain ⟨kv, hkv, rfl⟩ := Option.map_eq_some_iff.1 h1
        obtain ⟨e', h3, h4⟩ := Option.bind_eq_some_iff.1 hkv
        unfold gefsCpkvp at h3
        split_ifs at h3
        rw [← Option.some.inj h3] at h4
        have hkey : kv.1 = k := (statupdate_key h4).trans hk
        rw [if_neg hop, if_pos hw, ← hk, Prod.mk.eta, h4, hk, List.singleton_append, look,
          if_pos hkey]
        rfl
      · rw [if_neg hop, if_neg hw, ← Option.some.inj h1, List.nil_append, hl2]
    · rw [List.filter_cons_of_neg (by simpa using he ▸ hk), look_cons_of_ne hk, ← hl2]
      exact look_append_of_ne fun x hx => meetMsg_key h1 he x hx ▸ he ▸ hk
  | case5 e es m ms hlt he ih =>
    have hgt : m.k < e.1 := lt_of_le_of_ne (not_lt.1 hlt) (Ne.symm he)
    rw [mergeVals, if_neg hlt, if_neg he] at h
    obtain ⟨l', hl', rfl⟩ := Option.map_eq_some_iff.1 h
    refine look_putOf (fun hk => ?_) (ih hs (List.pairwise_cons.1 hms).2 hl')
    exact hs.look_of_lt (hk ▸ hgt)

end Kept

/-! ## The update -/

/-- What a message makes of the value under its key; a wstat has nothing to change where there is
none. -/
def msgMakes (k : Bytes) (v : Option Bytes) (m : GefsMsg) : Option (Option Bytes) :=
  match m.op with
  | .oinsert => some (some m.v)
  | .odelete | .oclearb | .oclobber => some none
  | .owstat =>
    match v with
    | none => some none
    | some w => (statupdate (k, w) m).map fun kv => some kv.2
  | _ => some v

/-- The messages of a batch on `k`, in order, applied to `v`. -/
def batchOn (ms : List GefsMsg) (k : Bytes) (v : Option Bytes) : Option (Option Bytes) :=
  (ms.filter (·.k = k)).foldlM (msgMakes k) v

/-- Every lookup after the update finds what the batch makes of what it found before. -/
def Reflects (ctx : GefsCtx) (t : TreeRef) (ms : List GefsMsg) (ctx' : GefsCtx) : Prop :=
  ∀ k, ∃ v v' c c', gefsBtlookup ctx (ctx.tree t) k gefsKvmax = some (v.map (k, ·), c)
    ∧ gefsBtlookup ctx' (ctx'.tree t) k gefsKvmax = some (v'.map (k, ·), c')
    ∧ batchOn ms k v = some v'

/-- The root alone tells the contents. Outside the batch its separators, with the pointers for
values, are what the tree holds. The messages on a key come to what they make of the root's own
entry, the first message applied to it and then the first insertion taken. -/
structure RootTells {n : ℕ} (T : Beps (n + 1)) (ms : List GefsMsg) : Prop where
  others : ∀ k v, treeGet gefsKvmax (n + 1) T k = some v → (∀ m ∈ ms, m.k ≠ k) →
    look (T.1.map (·.1)) k = v
  named : ∀ k v, treeGet gefsKvmax (n + 1) T k = some v → (∃ m ∈ ms, m.k = k) →
    batchOn ms k v = some (keptOf k (look (T.1.map (·.1)) k) (ms.filter (·.k = k)))

theorem rootTells_iff {n : ℕ} {T : Beps (n + 1)} {ms : List GefsMsg} :
    RootTells T ms ↔ ∀ k v, treeGet gefsKvmax (n + 1) T k = some v →
      batchOn ms k v = some (keptOf k (look (T.1.map (·.1)) k) (ms.filter (·.k = k))) := by
  have hnil : ∀ {k}, (∀ m ∈ ms, m.k ≠ k) → ms.filter (·.k = k) = [] := fun h =>
    List.filter_eq_nil_iff.2 fun m hm => by simpa using h m hm
  constructor
  · intro h k v hv
    by_cases hk : ∃ m ∈ ms, m.k = k
    · exact h.named k v hv hk
    · push Not at hk
      rw [batchOn, hnil hk, ← h.others k v hv hk]
      rfl
  · intro h
    refine ⟨fun k v hv hk => ?_, fun k v hv _ => h k v hv⟩
    have := h k v hv
    rw [batchOn, hnil hk] at this
    exact (Option.some.inj this).symm

theorem statupdate_length {kv kv' : GefsKvp} {m : GefsMsg} (h : statupdate kv m = some kv') :
    kv'.2.length = kv.2.length := by
  unfold statupdate at h
  obtain ⟨d, -, h⟩ := Option.bind_eq_some_iff.1 h
  obtain ⟨x, hx, h⟩ := Option.bind_eq_some_iff.1 h
  have hlen : x.length ≤ kv.2.length := by
    unfold gefsPackdval at hx
    simp only [gt_iff_lt] at hx
    split_ifs at hx with hlt
    rw [← Option.some.inj hx]
    exact not_lt.1 hlt
  rw [← Option.some.inj h, List.length_append, List.length_drop]
  omega

theorem small_mergeVals {es l : List GefsKvp} {ms : List GefsMsg}
    (h : mergeVals es ms = some l) (hs : Small es)
    (hm : ∀ m ∈ ms, m.k.length + m.v.length ≤ gefsKvmax) : Small l :=
  forall_mem_mergeVals (P := fun x => x.1.length + x.2.length ≤ gefsKvmax) h hs hm
    fun _ _ _ hst he => by rwa [statupdate_key hst, statupdate_length hst]

theorem blkVals_of_isPivot {es : List GefsKvp} {ms : List GefsMsg} {c : Content}
    (h : IsPivot es ms c) : blkVals c = es := by
  unfold blkVals
  rw [h.nval, Int.toNat_natCast]
  refine List.ext_getElem (by simp) fun i h1 h2 => ?_
  simpa using h.getval i h2

theorem lookAns_of_small {l : List GefsKvp} (hs : Small l) (k : Bytes) :
    lookAns l k gefsKvmax = some ((look l k).map (k, ·)) := by
  unfold lookAns
  rcases hl : look l k with _ | w
  · rfl
  · simp only
    rw [gefsCpkvp, if_pos (hs _ (mem_of_look hl))]
    rfl

/-- A batch that was written without an error was not empty and the image not read-only. -/
theorem upsert_ok_writable {ctx ctx' : GefsCtx} {t : TreeRef} {ms : List GefsMsg}
    (h : gefsBtupsert ctx t ms = some (.ok (), ctx')) : ctx.readonly = false ∧ ms ≠ [] := by
  unfold gefsBtupsert at h
  split_ifs at h with hc
  · simp at h
  · rw [not_or] at hc
    exact ⟨by simpa using hc.1, hc.2⟩

theorem upsert_ok_merges {ctx ctx' : GefsCtx} {t : TreeRef} {es : List GefsKvp}
    {ms : List GefsMsg} (hok : CtxOk ctx)
    (hh : Held ctx (ctx.tree t).bp.addr fun c => blkVals c = es)
    (h : gefsBtupsert ctx t ms = some (.ok (), ctx')) :
    ∃ l, mergeVals es (bubbleSort GefsMsg.k ms) = some l := by
  obtain ⟨hro, hms⟩ := upsert_ok_writable h
  obtain ⟨-, hr⟩ := touchBlk_spec hok (ctx.tree t).bp
  obtain ⟨root, hroot, hvals⟩ := hr _ hh
  rw [gefsBtupsert_eq hok t hro hms] at h
  rcases htb : touchBlk ctx (ctx.tree t).bp with ⟨r, ctx1⟩
  rw [htb] at hroot h
  simp only at hroot
  subst hroot
  simp only [upsertRead, hvals, mergeInto_eq_mergeVals] at h
  rcases hl : mergeVals es (bubbleSort GefsMsg.k ms) with _ | l
  · rw [hl] at h
    split_ifs at h
    · simp at h
    · simp only [Option.bind_eq_bind, Option.bind_none, reduceCtorEq] at h
  · exact ⟨l, rfl⟩

/-- What the lookups find once a tree with a pivot at the top was updated. -/
theorem gefsBtlookup_upserted {ctx ctx' : GefsCtx} {t : TreeRef} {n : ℕ} {T : Beps (n + 1)}
    {ms : List GefsMsg} (hok : CtxOk ctx) (hT : IsTree ctx (ctx.tree t) (n + 1) T)
    (hsm : ∀ m ∈ ms, m.k.length + m.v.length ≤ gefsKvmax)
    (hf : ∀ l, mergeVals (T.1.map (·.1)) (bubbleSort GefsMsg.k ms) = some l → Fits l)
    (hup : gefsBtupsert ctx t ms = some (.ok (), ctx')) (k : Bytes) :
    ∃ c, gefsBtlookup ctx' (ctx'.tree t) k gefsKvmax
      = some ((keptOf k (look (T.1.map (·.1)) k) (ms.filter (·.k = k))).map (k, ·), c) := by
  obtain ⟨cs, bs⟩ := T
  obtain ⟨hs, -⟩ := hT.ordered
  have hh : Held ctx (ctx.tree t).bp.addr fun c => blkVals c = cs.map (·.1) :=
    hT.blocks.1.imp fun _ h => blkVals_of_isPivot h
  obtain ⟨hro, hms⟩ := upsert_ok_writable hup
  obtain ⟨l, hl⟩ := upsert_ok_merges hok hh hup
  have hsort : (bubbleSort GefsMsg.k ms).Pairwise fun a b => a.k ≤ b.k := bubbleSort_ascending ms
  have hsml : Small l := small_mergeVals hl hT.sized.1 fun m hm => hsm m (mem_bubbleSort.1 hm)
  rcases gefsBtupsert_vals hok hh hl hms hro (hf l hl) with
    ⟨-, _, -, h⟩ | ⟨_, _, _, -, -, -, h⟩ | ⟨bp, c, hu, h⟩ <;> rw [h] at hup
  · simp at hup
  · simp at hup
  · simp only [Option.some.injEq, Prod.mk.injEq, true_and] at hup
    subst hup
    obtain ⟨hbp, hht⟩ := hu.tree_eq
    have hroot : Held c (c.tree t).bp.addr (IsLeaf l) := by
      rw [hbp]
      exact .inl hu.root
    obtain ⟨c', -, hlook⟩ :=
      gefsBtlookup_nonDesc hu.ok hht hroot (nonDesc_mergeVals hs hsort hl) k gefsKvmax
    have hfil : (bubbleSort GefsMsg.k ms).filter (·.k = k) = ms.filter (·.k = k) := by
      convert filter_bubbleSort k ms
    refine ⟨c', ?_⟩
    rw [hlook, lookAns_of_small hsml, look_mergeVals hs hsort hl, hfil]
    rfl

theorem rootTells_of_reflects {ctx ctx' : GefsCtx} {t : TreeRef} {n : ℕ} {T : Beps (n + 1)}
    {ms : List GefsMsg} (hok : CtxOk ctx) (hT : IsTree ctx (ctx.tree t) (n + 1) T)
    (hsm : ∀ m ∈ ms, m.k.length + m.v.length ≤ gefsKvmax)
    (hf : ∀ l, mergeVals (T.1.map (·.1)) (bubbleSort GefsMsg.k ms) = some l → Fits l)
    (hup : gefsBtupsert ctx t ms = some (.ok (), ctx')) (h : Reflects ctx t ms ctx') :
    RootTells T ms := by
  rw [rootTells_iff]
  intro k v hv
  obtain ⟨w, w', c1, c2, h1, h2, h3⟩ := h k
  obtain ⟨c3, h4⟩ := hT.gefsBtlookup hok hv
  obtain ⟨c4, h5⟩ := gefsBtlookup_upserted hok hT hsm hf hup k
  rw [h4] at h1
  rw [h5] at h2
  simp only [Option.some.injEq, Prod.mk.injEq] at h1 h2
  have hinj : Function.Injective (Option.map fun x : Bytes => (k, x)) :=
    Option.map_injective fun a b hab => (Prod.mk.inj hab).2
  rw [hinj h1.1, h3, hinj h2.1]

/-- An update of a tree with pivots is a map update exactly where the root alone tells what the
tree holds. -/
theorem upsert_pivot_iff {ctx ctx' : GefsCtx} {t : TreeRef} {n : ℕ} {T : Beps (n + 1)}
    {ms : List GefsMsg} (hok : CtxOk ctx) (hT : IsTree ctx (ctx.tree t) (n + 1) T)
    (hsm : ∀ m ∈ ms, m.k.length + m.v.length ≤ gefsKvmax)
    (hf : ∀ l, mergeVals (T.1.map (·.1)) (bubbleSort GefsMsg.k ms) = some l → Fits l)
    (hup : gefsBtupsert ctx t ms = some (.ok (), ctx')) :
    Reflects ctx t ms ctx' ↔ RootTells T ms := by
  constructor
  · exact rootTells_of_reflects hok hT hsm hf hup
  · intro h k
    obtain ⟨v, hv⟩ := hT.applies k
    obtain ⟨c1, h1⟩ := hT.gefsBtlookup hok hv
    obtain ⟨c2, h2⟩ := gefsBtlookup_upserted hok hT hsm hf hup k
    exact ⟨v, _, c1, c2, h1, h2, rootTells_iff.1 h k v hv⟩

section TwoLevel

/-- The pointer to the leaf. -/
def twoPtr : Bytes := gefsPackbp ⟨16384, 0, 0⟩

/-- A pivot with the key 1 over a leaf that holds 7 under it. -/
def twoLevel : Beps 1 := ([(([1], twoPtr), [([1], [7])])], [])

def twoDisk : Disk :=
  { size := 81920
    byte := store (store (fun _ => 0)
        0 ([0, 1, 0, 1, 0, 29, 0, 0, 0, 0, 0, 2] ++ packkv ([1], twoPtr)))
        16384 ([0, 2, 0, 1, 0, 6, 0, 2] ++ packkv ([1], [7])) }

def twoCtx : GefsCtx := diskCtx twoDisk 65536 { zeroTree with ht := 2 }

/-- The insertion of 8 under the key 2. -/
def twoBatch : List GefsMsg := [⟨.oinsert, [2], [8], []⟩]

theorem isPivot_twoRoot :
    IsPivot [([1], twoPtr)] [] (parseBlk (withTail (twoDisk.window 0) fun _ => 0)) := by
  refine ⟨?_, ?_, fun i hi => ?_, ?_, by simp⟩
  · decide +kernel
  · decide +kernel
  · obtain rfl : i = 0 := by simpa using hi
    show _ = ([1], twoPtr)
    decide +kernel
  · decide +kernel

theorem isLeaf_twoLeaf :
    IsLeaf [([1], [7])] (parseBlk (withTail (twoDisk.window 16384) fun _ => 0)) := by
  refine ⟨?_, ?_, fun i hi => ?_⟩
  · decide +kernel
  · decide +kernel
  · obtain rfl : i = 0 := by simpa using hi
    show _ = ([1], [7])
    decide +kernel

theorem ordered_twoLevel : Ordered 1 twoLevel none none := by
  refine ⟨List.pairwise_singleton _ _, by simp [InRange], .nil, by simp, fun j c hj => ?_⟩
  obtain ⟨hj', rfl⟩ := List.getElem?_eq_some_iff.1 hj
  obtain rfl : j = 0 := by simpa using hj'
  refine ⟨List.pairwise_singleton _ _, fun e he => ?_⟩
  obtain rfl := List.mem_singleton.1 he
  simp [InRange, rightOf]

theorem msgsOn_twoLevel (k : Bytes) : msgsOn 1 twoLevel k = [] := by
  rcases hc : childOf twoLevel.1 k with _ | c
  · simp only [twoLevel] at hc
    simp [msgsOn, twoLevel, hc]
  · simp only [twoLevel] at hc
    simp [msgsOn, twoLevel, hc]

theorem isTree_twoLevel : IsTree twoCtx (twoCtx.tree .active) 1 twoLevel := by
  refine ⟨by decide, ⟨held_diskCtx rfl isPivot_twoRoot, ?_⟩, ordered_twoLevel, ⟨?_, ?_⟩,
    fun k => ⟨leafVal 1 twoLevel k, ?_⟩⟩
  · intro c hc
    obtain rfl := List.mem_singleton.1 hc
    exact ⟨⟨16384, 0, 0⟩, by decide +kernel, held_diskCtx rfl isLeaf_twoLeaf⟩
  · intro e he
    obtain rfl := List.mem_singleton.1 he
    decide
  · intro c hc e he
    obtain rfl := List.mem_singleton.1 hc
    obtain rfl := List.mem_singleton.1 he
    decide
  · rw [treeGet, msgsOn_twoLevel]
    rfl

theorem mergeVals_twoBatch :
    mergeVals (twoLevel.1.map (·.1)) (bubbleSort GefsMsg.k twoBatch)
      = some [([1], twoPtr), ([2], [8])] := by
  show mergeVals [([1], twoPtr)] [⟨.oinsert, [2], [8], []⟩] = _
  rw [mergeVals, if_pos (by decide), mergeVals, mergeVals]
  rfl

theorem fits_twoBatch : ∀ l,
    mergeVals (twoLevel.1.map (·.1)) (bubbleSort GefsMsg.k twoBatch) = some l → Fits l := by
  intro l hl
  rw [mergeVals_twoBatch] at hl
  rw [← Option.some.inj hl]
  decide +kernel

theorem gefsBtupsert_two : ∃ ctx', gefsBtupsert twoCtx .active twoBatch = some (.ok (), ctx') := by
  have hh : Held twoCtx (twoCtx.tree .active).bp.addr
      fun c => blkVals c = twoLevel.1.map (·.1) :=
    isTree_twoLevel.blocks.1.imp fun _ h => blkVals_of_isPivot h
  have hok : CtxOk twoCtx := diskCtx_ok _ _ _
  have ha : nextAlloc twoCtx = some (65536, [⟨0, 0, 16384, ⟨0, 0, 0⟩, []⟩]) := by decide +kernel
  rcases gefsBtupsert_vals hok hh mergeVals_twoBatch (by decide) rfl
      (fits_twoBatch _ mergeVals_twoBatch) with ⟨h, -⟩ | ⟨a, as, _, h, hneg, -⟩ | ⟨bp, c, -, h⟩
  · rw [ha] at h
    simp at h
  · rw [ha, Option.some.injEq, Prod.mk.injEq] at h
    rw [← h.1] at hneg
    exact absurd hneg (by decide)
  · exact ⟨c, h⟩

theorem small_twoBatch : ∀ m ∈ twoBatch, m.k.length + m.v.length ≤ gefsKvmax := by decide

theorem treeGet_two : treeGet gefsKvmax 1 twoLevel [1] = some (some [7]) := by
  rw [treeGet, msgsOn_twoLevel]
  rfl

/-- The value 7 under the key 1 is gone. -/
theorem not_rootTells_two : ¬ RootTells twoLevel twoBatch := by
  intro h
  have := h.others [1] (some [7]) treeGet_two (by decide)
  exact absurd this (by decide)

theorem upsert_pivot_two : ∃ ctx', gefsBtupsert twoCtx .active twoBatch = some (.ok (), ctx')
    ∧ (Reflects twoCtx .active twoBatch ctx' ↔ RootTells twoLevel twoBatch) := by
  obtain ⟨ctx', h⟩ := gefsBtupsert_two
  exact ⟨ctx', h, upsert_pivot_iff (diskCtx_ok _ _ _) isTree_twoLevel small_twoBatch
    fits_twoBatch h⟩

/-- An update of the two-level tree loses a key it does not name. -/
theorem not_forall_reflects :
    ¬ ∀ (ctx ctx' : GefsCtx) (t : TreeRef) (n : ℕ) (T : Beps (n + 1)) (ms : List GefsMsg),
      CtxOk ctx → IsTree ctx (ctx.tree t) (n + 1) T →
      (∀ m ∈ ms, m.k.length + m.v.length ≤ gefsKvmax) →
      (∀ l, mergeVals (T.1.map (·.1)) (bubbleSort GefsMsg.k ms) = some l → Fits l) →
      gefsBtupsert ctx t ms = some (.ok (), ctx') → Reflects ctx t ms ctx' := by
  intro h
  obtain ⟨ctx', hup⟩ := gefsBtupsert_two
  exact not_rootTells_two (rootTells_of_reflects (diskCtx_ok _ _ _) isTree_twoLevel
    small_twoBatch fits_twoBatch hup (h twoCtx ctx' .active 0 twoLevel twoBatch (diskCtx_ok _ _ _)
      isTree_twoLevel small_twoBatch fits_twoBatch hup))

end TwoLevel

end GefsFuse
