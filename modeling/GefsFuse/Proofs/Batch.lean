import GefsFuse.Proofs.Blank
import GefsFuse.Batch

/-!
# An update is a map update

A wstat is the insertion of the value it repacks, or nothing (`settle`), so the merge of a batch is
the merge of insertions and deletions, whose map is known. What is left is where the new leaf goes:
the old one is untouched exactly if the allocator does not hand out its block.
-/

namespace GefsFuse

open ByteMem SortedMap

/-! ## Wstats settled -/

/-- A wstat as the insertion it amounts to, `f` the map before. -/
def settle (f : Bytes → Option Bytes) (m : GefsMsg) : GefsMsg :=
  if m.op = .owstat then
    match f m.k with
    | none => ⟨.odelete, m.k, [], []⟩
    | some v =>
      match statupdate (m.k, v) m with
      | none => m
      | some kv => ⟨.oinsert, m.k, kv.2, []⟩
  else m

@[simp] theorem settle_k (f : Bytes → Option Bytes) (m : GefsMsg) : (settle f m).k = m.k := by
  unfold settle
  split_ifs
  · split
    · rfl
    · split <;> rfl
  · rfl

theorem settle_of_ne {f : Bytes → Option Bytes} {m : GefsMsg} (h : m.op ≠ .owstat) :
    settle f m = m := if_neg h

theorem settle_congr {f g : Bytes → Option Bytes} {m : GefsMsg} (h : f m.k = g m.k) :
    settle f m = settle g m := by
  unfold settle
  rw [h]

/-- What a message that applies leaves behind. -/
theorem eff_settle {f : Bytes → Option Bytes} {m : GefsMsg} {v : Option Bytes}
    (hop : m.op = .oinsert ∨ m.op = .odelete ∨ m.op = .owstat) (h : m.apply (f m.k) = some v) :
    (settle f m).eff = v ∧ (settle f m).op ≠ .owstat := by
  unfold GefsMsg.apply at h
  rcases hop with hop | hop | hop
  · rw [settle_of_ne (by rw [hop]; decide)]
    rw [if_pos hop] at h
    exact ⟨by rw [GefsMsg.eff, if_pos hop]; exact Option.some.inj h, by rw [hop]; decide⟩
  · rw [settle_of_ne (by rw [hop]; decide)]
    have h1 : m.op ≠ .oinsert := by rw [hop]; decide
    have h2 : m.op ≠ .owstat := by rw [hop]; decide
    rw [if_neg h1, if_neg h2] at h
    exact ⟨by rw [GefsMsg.eff, if_neg h1]; exact Option.some.inj h, h2⟩
  · have h1 : m.op ≠ .oinsert := by rw [hop]; decide
    rw [if_neg h1, if_pos hop] at h
    unfold settle
    rw [if_pos hop]
    rcases hf : f m.k with _ | w <;> rw [hf] at h
    · exact ⟨Option.some.inj h, nofun⟩
    · obtain ⟨kv, hkv, hv⟩ := Option.map_eq_some_iff.1 h
      simp only [hkv]
      exact ⟨hv, nofun⟩

/-- A batch, its first message done. -/
theorem applyMsgs_cons {m : GefsMsg} {ms : List GefsMsg} {f : Bytes → Option Bytes}
    {v : Option Bytes} (h : m.apply (f m.k) = some v) :
    applyMsgs (m :: ms) f = applyMsgs ms (Function.update f m.k v) := by
  rw [applyMsgs, h]
  rfl

/-- The messages of a batch, applied in order, are the settled ones applied to the map before. -/
theorem applyMsgs_eq : ∀ {ms : List GefsMsg} {f g : Bytes → Option Bytes},
    (∀ m ∈ ms, m.op = .oinsert ∨ m.op = .odelete ∨ m.op = .owstat) →
    ms.Pairwise (fun a b => a.k = b.k → a.op = .odelete ∧ b.op = .oinsert) →
    applyMsgs ms f = some g →
    g = applyAll GefsMsg.k GefsMsg.eff f (ms.map (settle f))
      ∧ Plain (ms.map (settle f))
      ∧ ∀ m ∈ ms, m.op = .owstat → ∀ v, f m.k = some v → (statupdate (m.k, v) m).isSome
  | [], f, g, _, _, h => by
    obtain rfl : f = g := Option.some.inj h
    exact ⟨rfl, by simp [Plain], by simp⟩
  | m :: ms, f, g, hop, hp, h => by
    obtain ⟨hm, hp⟩ := List.pairwise_cons.1 hp
    obtain ⟨v, hv, h⟩ := Option.bind_eq_some_iff.1 h
    obtain ⟨he, hne⟩ := eff_settle (hop m List.mem_cons_self) hv
    -- a wstat has its key for itself
    have hkey : ∀ x ∈ ms, x.op = .owstat → Function.update f m.k v x.k = f x.k := by
      intro x hx hxo
      refine Function.update_of_ne (fun hk => ?_) _ _
      have := (hm x hx hk.symm).2
      rw [hxo] at this
      cases this
    have hmap : ms.map (settle (Function.update f m.k v)) = ms.map (settle f) := by
      refine List.map_congr_left fun x hx => ?_
      by_cases hxo : x.op = .owstat
      · exact settle_congr (hkey x hx hxo)
      · rw [settle_of_ne hxo, settle_of_ne hxo]
    obtain ⟨h1, h2, h3⟩ := applyMsgs_eq (fun x hx => hop x (List.mem_cons_of_mem _ hx)) hp h
    rw [hmap] at h1 h2
    have hupd : applyUpd GefsMsg.k GefsMsg.eff f (settle f m) = Function.update f m.k v := by
      funext k
      rw [applyUpd, settle_k, he, Function.update_apply]
      split_ifs <;> rfl
    refine ⟨?_, ?_, fun x hx hxo w hw => ?_⟩
    · rw [List.map_cons, applyAll_cons, hupd]
      exact h1
    · intro x hx
      rcases List.mem_cons.1 hx with rfl | hx
      · exact hne
      · exact h2 x hx
    · rcases List.mem_cons.1 hx with rfl | hx
      · unfold GefsMsg.apply at hv
        have hi : x.op ≠ .oinsert := by rw [hxo]; decide
        rw [if_neg hi, if_pos hxo, hw] at hv
        obtain ⟨kv, hkv, -⟩ := Option.map_eq_some_iff.1 hv
        rw [hkv]
        rfl
      · exact h3 x hx hxo w ((hkey x hx hxo).trans hw)

/-! ## The merge -/

theorem statupdate_fst {kv kv' : GefsKvp} {m : GefsMsg} (h : statupdate kv m = some kv') :
    kv'.1 = kv.1 := by
  obtain ⟨d, -, h⟩ := Option.bind_eq_some_iff.1 h
  obtain ⟨v, -, h⟩ := Option.bind_eq_some_iff.1 h
  rw [← Option.some.inj h]

section Merge

variable {f : Bytes → Option Bytes}

theorem PortBatch.oneEach {ms : List GefsMsg} (h : PortBatch ms) :
    OneEach GefsMsg.k GefsMsg.eff ms := by
  refine h.keys.imp fun {a b} hab hk => ?_
  obtain ⟨ha, hb⟩ := hab hk
  exact ⟨by simp [GefsMsg.eff, ha], by simp [GefsMsg.eff, hb]⟩

theorem PortBatch.oneEach_settle {ms : List GefsMsg} (h : PortBatch ms) :
    OneEach GefsMsg.k GefsMsg.eff (ms.map (settle f)) := by
  refine List.pairwise_map.2 (h.keys.imp fun {a b} hab hk => ?_)
  obtain ⟨ha, hb⟩ := hab (by rwa [settle_k, settle_k] at hk)
  rw [settle_of_ne (by rw [ha]; decide), settle_of_ne (by rw [hb]; decide)]
  exact ⟨by simp [GefsMsg.eff, ha], by simp [GefsMsg.eff, hb]⟩

/-- Later messages of a batch by key that share its key are insertions. -/
theorem wstat_lt {m : GefsMsg} {ms : List GefsMsg} (h : Batch GefsMsg.k GefsMsg.eff (m :: ms)) :
    ∀ x ∈ ms, x.op = .owstat → m.k < x.k := by
  intro x hx hxo
  rcases (List.pairwise_cons.1 h).1 x hx with hlt | ⟨-, -, he⟩
  · exact hlt
  · simp [GefsMsg.eff, hxo] at he

/-- A wstat without an entry leaves nothing, settled or not. -/
theorem putOf_settle {m : GefsMsg} (h : m.op = .owstat → f m.k = none) :
    putOf GefsMsg.k GefsMsg.eff (settle f m) = putOf GefsMsg.k GefsMsg.eff m := by
  by_cases hw : m.op = .owstat
  · have hs : settle f m = ⟨.odelete, m.k, [], []⟩ := by
      unfold settle
      rw [if_pos hw, h hw]
    rw [hs]
    simp [putOf, GefsMsg.eff, hw]
  · rw [settle_of_ne hw]

/-- The wstats of a batch find values that can be copied out and repacked. -/
def Repacks (f : Bytes → Option Bytes) (ms : List GefsMsg) : Prop :=
  ∀ m ∈ ms, m.op = .owstat → ∀ v, f m.k = some v →
    m.k.length + v.length ≤ gefsInlmax ∧ (statupdate (m.k, v) m).isSome

theorem meetMsg_settle {e : GefsKvp} {m : GefsMsg} (hk : e.1 = m.k)
    (hf : m.op = .owstat → f m.k = some e.2)
    (hr : m.op = .owstat → m.k.length + e.2.length ≤ gefsInlmax
      ∧ (statupdate (m.k, e.2) m).isSome) : meetMsg e (settle f m) = meetMsg e m := by
  by_cases hw : m.op = .owstat
  · obtain ⟨hle, hs⟩ := hr hw
    obtain ⟨kv, hkv⟩ := Option.isSome_iff_exists.1 hs
    have he : e = (m.k, e.2) := Prod.ext hk rfl
    have hset : settle f m = ⟨.oinsert, m.k, kv.2, []⟩ := by
      unfold settle
      simp only [if_pos hw, hf hw, hkv]
    have hkv1 : (m.k, kv.2) = kv := Prod.ext (statupdate_fst hkv).symm rfl
    have hcp : gefsCpkvp e gefsInlmax = some e := by
      rw [gefsCpkvp, hk, if_pos hle]
    rw [hset]
    unfold meetMsg
    rw [if_pos rfl, if_neg (by rw [hw]; decide), if_pos hw, hcp, Option.bind_some, he, hkv, hkv1]
    rfl
  · rw [settle_of_ne hw]

/-- The merge does not see the difference. -/
theorem mergeVals_settle (es : List GefsKvp) (ms : List GefsMsg) (hs : Ascending es)
    (hb : Batch GefsMsg.k GefsMsg.eff ms) (hf : ∀ m ∈ ms, m.op = .owstat → f m.k = look es m.k)
    (hr : Repacks f ms) : mergeVals es (ms.map (settle f)) = mergeVals es ms := by
  induction es, ms using mergeVals.induct with
  | case1 es => rfl
  | case2 m ms ih =>
    rw [List.map_cons, mergeVals, mergeVals, putOf_settle (hf m List.mem_cons_self),
      ih hs hb.tail (fun x hx => hf x (List.mem_cons_of_mem _ hx))
        fun x hx => hr x (List.mem_cons_of_mem _ hx)]
  | case3 e es m ms h ih =>
    have hne : ∀ x ∈ m :: ms, e.1 ≠ x.k := by
      intro x hx
      rcases List.mem_cons.1 hx with rfl | hx
      · exact h.ne
      · exact (h.trans_le (hb.key_le x hx)).ne
    rw [List.map_cons, mergeVals, mergeVals, settle_k, if_pos h, if_pos h, ← List.map_cons,
      ih (List.pairwise_cons.1 hs).2 hb
        (fun x hx hw => (hf x hx hw).trans (look_cons_of_ne (hne x hx))) hr]
  | case4 e es m ms h he ih =>
    have hmem : m.op = .owstat → f m.k = some e.2 := fun hw => by
      rw [hf m List.mem_cons_self hw, look, if_pos he]
    rw [List.map_cons, mergeVals, mergeVals, settle_k, if_neg h, if_neg h, if_pos he, if_pos he,
      meetMsg_settle he hmem fun hw => hr m List.mem_cons_self hw _ (hmem hw),
      ih (List.pairwise_cons.1 hs).2 hb.tail (fun x hx hw => ?_)
        fun x hx => hr x (List.mem_cons_of_mem _ hx)]
    refine (hf x (List.mem_cons_of_mem _ hx) hw).trans (look_cons_of_ne ?_)
    rw [he]
    exact (wstat_lt hb x hx hw).ne
  | case5 e es m ms h he ih =>
    have hnone : m.op = .owstat → f m.k = none := fun hw => by
      rw [hf m List.mem_cons_self hw]
      exact hs.look_of_lt (lt_of_le_of_ne (not_lt.1 h) (Ne.symm he))
    rw [List.map_cons, mergeVals, mergeVals, settle_k, if_neg h, if_neg h, if_neg he, if_neg he,
      putOf_settle hnone, ih hs hb.tail (fun x hx => hf x (List.mem_cons_of_mem _ hx))
        fun x hx => hr x (List.mem_cons_of_mem _ hx)]

/-- A merge that is done has copied every value a wstat met. -/
theorem le_of_mergeVals (es : List GefsKvp) (ms : List GefsMsg) (hs : Ascending es)
    (hb : Batch GefsMsg.k GefsMsg.eff ms) {l : List GefsKvp} (hl : mergeVals es ms = some l) :
    ∀ m ∈ ms, m.op = .owstat → ∀ v, look es m.k = some v →
      m.k.length + v.length ≤ gefsInlmax := by
  induction es, ms using mergeVals.induct generalizing l with
  | case1 es => exact fun m hm => absurd hm List.not_mem_nil
  | case2 m ms ih => exact fun x _ _ v hv => by cases hv
  | case3 e es m ms h ih =>
    rw [mergeVals, if_pos h] at hl
    obtain ⟨l', hl', -⟩ := Option.map_eq_some_iff.1 hl
    intro x hx hw v hv
    have hne : e.1 ≠ x.k := by
      rcases List.mem_cons.1 hx with rfl | hx
      · exact h.ne
      · exact (h.trans_le (hb.key_le x hx)).ne
    rw [look_cons_of_ne hne] at hv
    exact ih (List.pairwise_cons.1 hs).2 hb hl' x hx hw v hv
  | case4 e es m ms h he ih =>
    rw [mergeVals, if_neg h, if_pos he] at hl
    obtain ⟨l1, hl1, hl⟩ := Option.bind_eq_some_iff.1 hl
    obtain ⟨l2, hl2, -⟩ := Option.bind_eq_some_iff.1 hl
    intro x hx hw v hv
    rcases List.mem_cons.1 hx with rfl | hx
    · unfold meetMsg at hl1
      rw [if_neg (by rw [hw]; decide), if_pos hw] at hl1
      obtain ⟨kv, hkv, -⟩ := Option.map_eq_some_iff.1 hl1
      obtain ⟨c, hc, -⟩ := Option.bind_eq_some_iff.1 hkv
      rw [look, if_pos he] at hv
      rw [← he, ← Option.some.inj hv]
      unfold gefsCpkvp at hc
      split_ifs at hc with hle
      exact hle
    · have hlt := wstat_lt hb x hx hw
      rw [look_cons_of_ne (by rw [he]; exact hlt.ne)] at hv
      exact ih (List.pairwise_cons.1 hs).2 hb.tail hl2 x hx hw v hv
  | case5 e es m ms h he ih =>
    rw [mergeVals, if_neg h, if_neg he] at hl
    obtain ⟨l', hl', -⟩ := Option.map_eq_some_iff.1 hl
    intro x hx hw v hv
    rcases List.mem_cons.1 hx with rfl | hx
    · rw [hs.look_of_lt (lt_of_le_of_ne (not_lt.1 h) (Ne.symm he))] at hv
      cases hv
    · exact ih hs hb.tail hl' x hx hw v hv

/-- The merge of a batch that applies is the list of the map it comes to. -/
theorem mergeVals_applyMsgs {es es' : List GefsKvp} {ms : List GefsMsg} {g : Bytes → Option Bytes}
    (hs : Ascending es) (hb : PortBatch ms) (ha : applyMsgs ms (look es) = some g)
    (hs' : Ascending es') (hg : ∀ k, look es' k = g k)
    (hle : ∀ m ∈ ms, m.op = .owstat → ∀ v, look es m.k = some v →
      m.k.length + v.length ≤ gefsInlmax) :
    mergeVals es (bubbleSort GefsMsg.k ms) = some es' := by
  obtain ⟨h1, h2, h3⟩ := applyMsgs_eq hb.op hb.keys ha
  have hsort := bubbleSort_map (settle_k (look es)) ms
  have hr : Repacks (look es) (bubbleSort GefsMsg.k ms) := fun m hm hw v hv =>
    ⟨hle m (mem_bubbleSort.1 hm) hw v hv, h3 m (mem_bubbleSort.1 hm) hw v hv⟩
  rw [← mergeVals_settle es _ hs (batch_bubbleSort hb.oneEach) (fun _ _ _ => rfl) hr, ← hsort,
    mergeVals_plain (plain_bubbleSort h2)]
  refine congrArg some (eq_of_look
    (ascending_mergeUpd hs (batch_bubbleSort hb.oneEach_settle)) hs' fun k => ?_)
  rw [look_mergeUpd_bubbleSort hs hb.oneEach_settle, hg, h1]

end Merge

/-! ## The update -/

theorem getblk_touchBlk (ctx : GefsCtx) (bp : GefsBptr) :
    (touchBlk ctx bp).1 = (gefsGetblk ctx bp).1 := by
  unfold touchBlk
  rcases gefsGetblk ctx bp with ⟨_ | b, c⟩ <;> rfl

/-- The root of a tree of one leaf, as it is read. -/
theorem read_of_held {ctx : GefsCtx} {t : TreeRef} {es : List GefsKvp} (hok : CtxOk ctx)
    (hh : Held ctx (ctx.tree t).bp.addr (IsLeaf es)) :
    ∃ b, (gefsGetblk ctx (ctx.tree t).bp).1 = some b ∧ blkVals b.toContent = es := by
  obtain ⟨b, hb, hq⟩ := (touchBlk_spec hok (ctx.tree t).bp).2 _ hh
  exact ⟨b, (getblk_touchBlk _ _).symm.trans hb, blkVals_of_isLeaf hq⟩

section Upserted

variable {ctx ctx' : GefsCtx} {t : TreeRef} {es : List GefsKvp} {bp : GefsBptr}
  (hu : Upserted ctx t es bp ctx')
include hu

theorem Upserted.held_root : Held ctx' (ctx'.tree t).bp.addr (IsLeaf es) := by
  rw [hu.tree_eq.1]
  exact .inl hu.root

/-- Look-ups after an update. -/
theorem Upserted.lookup (hs : Ascending es) (k : Bytes) (nbuf : ℕ) :
    (gefsBtlookup ctx' (ctx'.tree t) k nbuf).map Prod.fst = lookAns es k nbuf := by
  obtain ⟨c, -, he⟩ := gefsBtlookup_leaf hu.ok hu.tree_eq.2 hu.held_root hs k nbuf
  rw [he, Option.map_map]
  exact congrFun Option.map_id _

end Upserted

section Update

variable {ctx : GefsCtx} {t : TreeRef} {b : GefsBlk} {es' : List GefsKvp} {ms : List GefsMsg}
  {g : Bytes → Option Bytes} {a : Int64} {as : List GefsArena} (hok : CtxOk ctx)
  (hroot : (gefsGetblk ctx (ctx.tree t).bp).1 = some b) (hs : Ascending (blkVals b.toContent))
  (hb : PortBatch ms) (ha : applyMsgs ms (look (blkVals b.toContent)) = some g)
  (hs' : Ascending es') (hg : ∀ k, look es' k = g k) (hf : Fits es')
  (hal : nextAlloc ctx = some (a, as)) (h0 : 0 ≤ a)
include hok hroot hs hb ha hs' hg hf hal h0

/-- An update whose wstats all meet values that can be copied is done. -/
theorem upserted_of_le (hle : ∀ m ∈ ms, m.op = .owstat → ∀ v,
      look (blkVals b.toContent) m.k = some v → m.k.length + v.length ≤ gefsInlmax) :
    ∃ bp ctx', Upserted ctx t es' bp ctx' ∧ bp.addr = a
      ∧ gefsBtupsert ctx t ms = some (.ok (), ctx') := by
  have hro : ctx.readonly = false := by
    by_contra hro
    rw [nextAlloc, if_pos (.inl (by simpa using hro))] at hal
    cases hal
  have hl := mergeVals_applyMsgs hs hb ha hs' hg hle
  rcases gefsBtupsert_read hok ((getblk_touchBlk _ _).trans hroot) rfl hl hb.ne hro hf
    with ⟨hn, -⟩ | ⟨a', as', -, hn, hneg, -⟩ | ⟨bp, ctx', hu, he⟩
  · rw [hal] at hn
    cases hn
  · obtain ⟨rfl, -⟩ := Prod.mk.inj (Option.some.inj (hal.symm.trans hn))
    exact absurd hneg (Int64.not_lt.2 h0)
  · obtain ⟨h1, -⟩ := Prod.mk.inj (Option.some.inj (hal.symm.trans hu.alloc))
    exact ⟨bp, ctx', hu, h1.symm, he⟩

omit ha hs' hg hf in
/-- And one that is done has copied them. -/
theorem le_of_upserted {ctx' : GefsCtx} (h : gefsBtupsert ctx t ms = some (.ok (), ctx')) :
    ∀ m ∈ ms, m.op = .owstat → ∀ v, look (blkVals b.toContent) m.k = some v →
      m.k.length + v.length ≤ gefsInlmax := by
  have hk := (touchBlk_spec hok (ctx.tree t).bp).1
  have hro : ctx.readonly = false := by
    by_contra hro
    rw [nextAlloc, if_pos (.inl (by simpa using hro))] at hal
    cases hal
  rw [gefsBtupsert_eq hok t hro hb.ne] at h
  rw [← getblk_touchBlk] at hroot
  rcases htb : touchBlk ctx (ctx.tree t).bp with ⟨r, ctx1⟩
  rw [htb] at h hk hroot
  obtain rfl : r = some b := hroot
  have hna : nextAlloc ctx1 = some (a, as) := hk.nextAlloc.trans hal
  dsimp only at h
  unfold upsertRead at h
  rw [gefsAllocBlk_eq, hna] at h
  dsimp only at h
  rw [if_neg (Int64.not_lt.2 h0)] at h
  obtain ⟨b', hb', -⟩ := Option.bind_eq_some_iff.1 h
  rw [mergeInto_eq_mergeVals] at hb'
  obtain ⟨l, hl, -⟩ := Option.bind_eq_some_iff.1 hb'
  exact fun m hm => le_of_mergeVals _ _ hs (batch_bubbleSort hb.oneEach) hl m
    (mem_bubbleSort.2 hm)

omit hok hroot hs hb ha hf hal h0 in
/-- An update to the list of a map, off the old leaf, is a map update. -/
theorem Upserted.mapUpdate {bp : GefsBptr} {ctx' : GefsCtx} (hu : Upserted ctx t es' bp ctx')
    (hap : Apart (ctx.tree t).bp.addr bp.addr) : MapUpdate ctx t g ctx' := by
  have htree := hu.tree_eq
  refine ⟨?_, fun k nbuf => ?_, ?_, ?_, fun ht => ?_, fun ht hgen => ?_⟩
  · obtain ⟨b, hb, hvals⟩ := read_of_held hu.ok hu.held_root
    refine ⟨b, hb, ?_⟩
    rw [hvals]
    exact ⟨hs', hg⟩
  · rw [hu.lookup hs', ← hg]
    rfl
  · obtain ⟨buf, hd, -⟩ := hu.disk
    exact ⟨buf, by rw [htree.1]; exact hd⟩
  · rw [htree.1]
    exact hap
  · obtain rfl : t = .active := by cases t <;> [rfl; exact absurd rfl ht]
    rw [hu.snap]
    unfold setRoot
    split_ifs <;> rfl
  · obtain rfl : t = .snap := by cases t <;> [exact absurd rfl ht; rfl]
    rw [hu.active]
    unfold setRoot
    rw [if_neg fun he => hgen he.symm]

theorem apart_of_mapUpdate {ctx' : GefsCtx} (he : gefsBtupsert ctx t ms = some (.ok (), ctx'))
    (hm : MapUpdate ctx t g ctx') : Apart (ctx.tree t).bp.addr a
      ∧ ∀ m ∈ ms, m.op = .owstat → ∀ v, look (blkVals b.toContent) m.k = some v →
        m.k.length + v.length ≤ gefsInlmax := by
  have hle := le_of_upserted hok hroot hs hb hal h0 he
  obtain ⟨bp, c, hu, hbp, he'⟩ := upserted_of_le hok hroot hs hb ha hs' hg hf hal h0 hle
  obtain ⟨-, rfl⟩ := Prod.mk.inj (Option.some.inj (he.symm.trans he'))
  have hold := hm.old
  rw [hu.tree_eq.1, hbp] at hold
  exact ⟨hold, hle⟩

/-- An update is the update of a map, the old leaf untouched, exactly if the block handed out is off
the old leaf and each value a wstat meets can be copied. -/
theorem mapUpdate_iff :
    (∃ ctx', gefsBtupsert ctx t ms = some (.ok (), ctx') ∧ MapUpdate ctx t g ctx')
      ↔ Apart (ctx.tree t).bp.addr a
        ∧ ∀ m ∈ ms, m.op = .owstat → ∀ v, look (blkVals b.toContent) m.k = some v →
          m.k.length + v.length ≤ gefsInlmax := by
  constructor
  · rintro ⟨ctx', he, hm⟩
    exact apart_of_mapUpdate hok hroot hs hb ha hs' hg hf hal h0 he hm
  · rintro ⟨hap, hle⟩
    obtain ⟨bp, c, hu, hbp, he⟩ := upserted_of_le hok hroot hs hb ha hs' hg hf hal h0 hle
    rw [← hbp] at hap
    exact ⟨c, he, hu.mapUpdate hs' hg hap⟩

end Update

/-- The bytes of the old leaf are what they were. -/
theorem MapUpdate.byte {ctx ctx' : GefsCtx} {t : TreeRef} {g : Bytes → Option Bytes}
    (h : MapUpdate ctx t g ctx') {i : ℕ} (hlo : (ctx.tree t).bp.addr.toInt ≤ i)
    (hhi : i < (ctx.tree t).bp.addr.toInt + gefsBlksz) : ctx'.disk.byte i = ctx.disk.byte i := by
  obtain ⟨buf, hd⟩ := h.written
  have hold := h.old
  rw [hd]
  unfold Disk.pwrite
  split_ifs with h0
  · exact if_neg fun hi => by omega
  · rfl

/-- An update is refused, without a change but to the arenas where the block had no address, or
there was a block. -/
theorem btupsert_cases {ctx ctx' : GefsCtx} (hok : CtxOk ctx) {t : TreeRef} {ms : List GefsMsg}
    {r : Except Errno Unit}
    (hs : gefsBtupsert ctx t ms = some (r, ctx')) :
    (∃ e c, r = .error e ∧ Keeps ctx c ∧ (ctx' = c
      ∨ ∃ a as, nextAlloc ctx = some (a, as) ∧ ctx' = { c with arenas := as, dirty := true }))
    ∨ r = .ok () ∧ canAlloc ctx = true := by
  by_cases h0 : ctx.readonly = true ∨ ms = []
  · unfold gefsBtupsert at hs
    rw [if_pos h0] at hs
    obtain ⟨rfl, rfl⟩ := Prod.mk.inj (Option.some.inj hs)
    exact .inl ⟨_, _, rfl, .refl hok, .inl rfl⟩
  · obtain ⟨hro, hms⟩ := not_or.1 h0
    rw [gefsBtupsert_eq hok t (by simpa using hro) hms] at hs
    have hk := (touchBlk_spec hok (ctx.tree t).bp).1
    generalize touchBlk ctx (ctx.tree t).bp = g at hs hk
    rcases g with ⟨_ | root, c⟩
    · obtain ⟨rfl, rfl⟩ := Prod.mk.inj (Option.some.inj hs)
      exact .inl ⟨_, _, rfl, hk, .inl rfl⟩
    · dsimp only at hs hk
      unfold upsertRead at hs
      rw [gefsAllocBlk_eq, hk.nextAlloc] at hs
      unfold canAlloc
      rcases hn : nextAlloc ctx with _ | ⟨a, as⟩ <;> rw [hn] at hs <;> dsimp only at hs ⊢
      · obtain ⟨rfl, rfl⟩ := Prod.mk.inj (Option.some.inj hs)
        exact .inl ⟨_, _, rfl, hk, .inl rfl⟩
      · by_cases ha : a < 0
        · rw [if_pos ha] at hs
          obtain ⟨rfl, rfl⟩ := Prod.mk.inj (Option.some.inj hs)
          exact .inl ⟨_, _, rfl, hk, .inr ⟨a, as, rfl, rfl⟩⟩
        · rw [if_neg ha] at hs
          obtain ⟨b, -, hs⟩ := Option.bind_eq_some_iff.1 hs
          obtain ⟨rfl, -⟩ := Prod.mk.inj (Option.some.inj hs)
          exact .inr ⟨rfl, decide_eq_true (Int64.not_lt.1 ha)⟩

/-! ## Batches without wstats -/

section Plain

variable {ctx ctx' : GefsCtx} {t : TreeRef} {es : List GefsKvp} {ms : List GefsMsg}

theorem vals_of_held (hok : CtxOk ctx) (hh : Held ctx (ctx.tree t).bp.addr (IsLeaf es)) :
    ctx.vals t = es := by
  obtain ⟨b, hb, hvals⟩ := read_of_held hok hh
  unfold GefsCtx.vals
  rw [hb]
  exact hvals

theorem applyMsgs_plain : ∀ {ms : List GefsMsg}, Plain ms → ∀ f, ∃ g, applyMsgs ms f = some g
  | [], _, f => ⟨f, rfl⟩
  | m :: ms, hp, f => by
    obtain ⟨v, hv⟩ : ∃ v, m.apply (f m.k) = some v := by
      unfold GefsMsg.apply
      rw [if_neg (hp m List.mem_cons_self)]
      split_ifs <;> exact ⟨_, rfl⟩
    obtain ⟨g, hg⟩ := applyMsgs_plain (fun x hx => hp x (List.mem_cons_of_mem _ hx))
      (Function.update f m.k v)
    exact ⟨g, by rw [applyMsgs, hv]; exact hg⟩

/-- The merge is what the batch comes to. -/
theorem applyMsgs_merged (hs : Ascending es) (hb : PortBatch ms) (hp : Plain ms) :
    applyMsgs ms (look es) = some (look (merged es ms)) := by
  obtain ⟨g, hg⟩ := applyMsgs_plain hp (look es)
  obtain ⟨h1, -, -⟩ := applyMsgs_eq hb.op hb.keys hg
  have hset : ms.map (settle (look es)) = ms :=
    (List.map_congr_left fun m hm => settle_of_ne (hp m hm)).trans (List.map_id ms)
  rw [hg, h1, hset]
  exact congrArg some (funext fun k => (look_merged hs hb.oneEach k).symm)

/-- An insertion of a batch is not undone by a later message. -/
theorem applyAll_insert : ∀ {ms : List GefsMsg}, ms.Pairwise (fun a b => a.k = b.k →
    a.op = .odelete ∧ b.op = .oinsert) → ∀ {m : GefsMsg}, m ∈ ms → m.op = .oinsert →
    ∀ f : Bytes → Option Bytes, applyAll GefsMsg.k GefsMsg.eff f ms m.k = some m.v
  | x :: ms, hp, m, hm, hop, f => by
    obtain ⟨hx, hp⟩ := List.pairwise_cons.1 hp
    rw [applyAll_cons]
    rcases List.mem_cons.1 hm with rfl | hm
    · rw [applyAll_of_ne fun y hy hk => ?_]
      · rw [applyUpd, if_pos rfl, GefsMsg.eff, if_pos hop]
      · have := (hx y hy hk.symm).1
        rw [hop] at this
        cases this
    · exact applyAll_insert hp hm hop _

theorem look_merged_insert (hs : Ascending es) (hb : PortBatch ms) {m : GefsMsg} (hm : m ∈ ms)
    (hop : m.op = .oinsert) : look (merged es ms) m.k = some m.v := by
  rw [look_merged hs hb.oneEach]
  exact applyAll_insert hb.keys hm hop _

/-- An update that is done has the batch in the tree. -/
theorem Upserted.applied {bp : GefsBptr} (hu : Upserted ctx t (merged es ms) bp ctx')
    (hvals : ctx.vals t = es) (hs : Ascending es) (hb : PortBatch ms) (hp : Plain ms) :
    Applied ctx t ms ctx' := by
  have hvals' : ctx'.vals t = merged es ms := vals_of_held hu.ok hu.held_root
  have hs' := ascending_merged hs hb.oneEach
  refine ⟨?_, ?_, ?_, fun k nbuf => ?_⟩
  · rw [hvals, hvals', applyMsgs_merged hs hb hp]
  · rw [hvals']
    exact hs'
  · have hlaid : Held ctx' (ctx'.tree t).bp.addr LaidOut := by
      rw [hu.tree_eq.1]
      exact .inl hu.laid
    obtain ⟨b, hb, hq⟩ := (touchBlk_spec hu.ok (ctx'.tree t).bp).2 _ hlaid
    exact ⟨b, (getblk_touchBlk _ _).symm.trans hb, hq⟩
  · rw [hvals']
    exact hu.lookup hs' k nbuf

/-- A batch that is in the tree fits its leaf. -/
theorem Applied.fits (h : Applied ctx t ms ctx') (hvals : ctx.vals t = es) (hs : Ascending es)
    (hb : PortBatch ms) (hp : Plain ms) : ctx'.vals t = merged es ms ∧ Fits (merged es ms) := by
  have hmap := h.map
  rw [hvals, applyMsgs_merged hs hb hp] at hmap
  have heq : ctx'.vals t = merged es ms := eq_of_look h.asc (ascending_merged hs hb.oneEach)
    fun k => congrFun (Option.some.inj hmap).symm k
  refine ⟨heq, ?_⟩
  obtain ⟨b, hb, hlaid⟩ := h.laid
  have hv : ctx'.vals t = blkVals b.toContent := by
    unfold GefsCtx.vals
    rw [hb]
  rw [← heq, hv]
  exact hlaid.fits

/-- There is room for the batch in the tree's leaf, if a block can be had for it at all. -/
def Spare (ctx : GefsCtx) (t : TreeRef) (ms : List GefsMsg) : Prop :=
  canAlloc ctx = true → Fits (merged (ctx.vals t) ms)

/-- Where there is, and a block, the update is done. -/
theorem upserted_of_fits (hok : CtxOk ctx) (hh : Held ctx (ctx.tree t).bp.addr (IsLeaf es))
    (hs : Ascending es) (hb : PortBatch ms) (hp : Plain ms) (hc : canAlloc ctx = true)
    (hf : Fits (merged es ms)) :
    ∃ bp ctx', Upserted ctx t (merged es ms) bp ctx'
      ∧ gefsBtupsert ctx t ms = some (.ok (), ctx') := by
  obtain ⟨a, as, hal, h0⟩ := canAlloc_iff.1 hc
  obtain ⟨b, hroot, rfl⟩ := read_of_held hok hh
  obtain ⟨bp, ctx', hu, -, he⟩ := upserted_of_le hok hroot hs hb (applyMsgs_merged hs hb hp)
    (ascending_merged hs hb.oneEach) (fun _ => rfl) hf hal h0
    fun m hm hw => absurd hw (hp m hm)
  exact ⟨bp, ctx', hu, he⟩

/-- An update is refused, or done with the whole batch in the tree, exactly if there is room. -/
theorem applied_iff (hok : CtxOk ctx) (hh : Held ctx (ctx.tree t).bp.addr (IsLeaf es))
    (hs : Ascending es) (hb : PortBatch ms) (hp : Plain ms) :
    (∃ r ctx', gefsBtupsert ctx t ms = some (r, ctx') ∧ (r = .ok () → Applied ctx t ms ctx'))
      ↔ Spare ctx t ms := by
  have hvals := vals_of_held hok hh
  constructor
  · rintro ⟨r, ctx', he, happ⟩ hc
    obtain ⟨a, as, hal, h0⟩ := canAlloc_iff.1 hc
    obtain ⟨root, hroot, -⟩ := (touchBlk_spec hok (ctx.tree t).bp).2 _ hh
    rw [hvals]
    exact ((happ (ok_of_gefsBtupsert hok hb.ne hroot hal h0 he)).fits hvals hs hb hp).2
  · intro hsp
    by_cases hc : canAlloc ctx = true
    · obtain ⟨bp, ctx', hu, he⟩ := upserted_of_fits hok hh hs hb hp hc (hvals ▸ hsp hc)
      exact ⟨_, ctx', he, fun _ => hu.applied hvals hs hb hp⟩
    · obtain ⟨e, ctx', he⟩ := gefsBtupsert_refused hok t ms fun a as h =>
        Int64.not_le.1 fun h0 => hc (canAlloc_iff.2 ⟨a, as, h, h0⟩)
      exact ⟨_, ctx', he, nofun⟩

end Plain

/-! ## The blank image -/

/-- The deletion of a key that is not there. -/
def noMsgs : List GefsMsg := [⟨.odelete, [], [], []⟩]

theorem portBatch_noMsgs : PortBatch noMsgs :=
  ⟨List.cons_ne_nil _ _, by simp [noMsgs], List.pairwise_singleton _ _⟩

theorem applyMsgs_noMsgs {es : List GefsKvp} (h : look es [] = none) :
    applyMsgs noMsgs (look es) = some (look es) := by
  have : Function.update (look es) [] none = look es := by
    rw [← h, Function.update_eq_self]
  simp [applyMsgs, noMsgs, GefsMsg.apply, this]

section Blank

variable {d d' : Disk} {r a u tb : GefsBptr} {nu : ℕ} {bps : List GefsBptr} {ctx : GefsCtx}

/-- The blank image after `k` updates of the main tree that change no entry. -/
structure Drifted (r a : GefsBptr) (k : ℕ) (ctx : GefsCtx) : Prop where
  ok : CtxOk ctx
  bump : Bump k ctx
  main : TreeHolds ctx ctx.activeTree mainEs
  cat : TreeHolds ctx ctx.snapTree (catEs r a)
  addr : ctx.snapTree.bp.addr = Int64.ofNat 114688

theorem le_ofNat {k : ℕ} (hk : k < 2 ^ 40) : 0 ≤ Int64.ofNat (16384 * k) := by
  rw [Int64.le_iff_toInt_le, toInt_ofNat_of_lt (by omega)]
  exact Int.natCast_nonneg _

theorem noMsgs_wstat (f : Bytes → Option Bytes) : ∀ m ∈ noMsgs, m.op = .owstat →
    ∀ v, f m.k = some v → m.k.length + v.length ≤ gefsInlmax := by
  intro m hm hw
  rw [List.mem_singleton.1 hm] at hw
  cases hw

theorem Drifted.step {k : ℕ} (h : Drifted r a k ctx) (hk : k < 7) :
    ∃ ctx', gefsBtupsert ctx .active noMsgs = some (.ok (), ctx') ∧ Drifted r a (k + 1) ctx' := by
  obtain ⟨b, hb, hvals⟩ := @read_of_held ctx .active mainEs h.ok h.main.root
  obtain ⟨as, hal, hnext⟩ := h.bump.nextAlloc (by omega)
  have happ : applyMsgs noMsgs (look (blkVals b.toContent)) = some (look mainEs) := by
    rw [hvals]
    exact applyMsgs_noMsgs rfl
  have hasc : Ascending (blkVals b.toContent) := by
    rw [hvals]
    exact h.main.asc
  obtain ⟨bp, ctx', hu, hbp, he⟩ := upserted_of_le h.ok hb hasc portBatch_noMsgs happ h.main.asc
    (fun _ => rfl) fits_mainEs hal (le_ofNat (by omega)) (noMsgs_wstat _)
  have hroot := hu.tree_eq
  have harenas : ctx'.arenas = as := (Prod.mk.inj (Option.some.inj (hu.alloc.symm.trans hal))).2
  have hsnap : ctx'.snapTree = ctx.snapTree := by
    rw [hu.snap]
    unfold setRoot
    split_ifs <;> rfl
  refine ⟨ctx', he, hu.ok, hnext ctx' hu.readonly (by rw [hu.sb]) harenas, ⟨hroot.2, ?_, h.main.asc,
    h.main.small⟩, ?_, ?_⟩
  · show Held ctx' (ctx'.tree .active).bp.addr _
    rw [hroot.1]
    exact .inl hu.root
  · rw [hsnap]
    refine ⟨h.cat.ht, hu.held _ _ h.cat.root ?_, h.cat.asc, h.cat.small⟩
    rw [h.addr, hbp]
    exact apart_ofNat (by omega) (by omega) (by omega)
  · rw [hsnap]
    exact h.addr

theorem drifted_blank (hf : Formatted d d' r a u tb nu bps)
    (ho : Opened d' false (fun _ _ => 0) 8 r a tb bps ctx) (hb : Bump 0 ctx) :
    Drifted r a 0 ctx := by
  refine ⟨ho.ok, hb, ho.main, ho.catalog, ?_⟩
  rw [ho.snap, ho.sb]
  exact hf.taddr

/-- The permissions of the root taken away. -/
def shutMsg : GefsMsg := ⟨.owstat, rootKey, pack32 2 ++ pack32 gefsDmdir, []⟩

/-- A key inserted, a wstat, and the root's other entry deleted, in no order. -/
def mixedMsgs : List GefsMsg :=
  [⟨.oinsert, packupkey 9, rootKey, []⟩, shutMsg, ⟨.odelete, packupkey qmainroot, [], []⟩]

def mixedEs : List GefsKvp :=
  [(rootKey, (gefsPackdval gefsInlmax (fillxdir qmainroot [] gefsQtdir gefsDmdir)).getD []),
    (packupkey 9, rootKey)]

theorem apply_shutMsg : shutMsg.apply (some (rootVal qmainroot)) = some (look mixedEs rootKey) := by
  decide +kernel

theorem applyMsgs_mixed : applyMsgs mixedMsgs (look mainEs) = some (look mixedEs) := by
  have h1 : rootKey ≠ packupkey 9 := by decide +kernel
  have hroot : Function.update (look mainEs) (packupkey 9) (some rootKey) rootKey
      = some (rootVal qmainroot) := Function.update_of_ne h1 _ _
  rw [mixedMsgs, applyMsgs_cons (v := some rootKey) rfl,
    applyMsgs_cons (show shutMsg.apply _ = _ from hroot ▸ apply_shutMsg),
    applyMsgs_cons (v := none) rfl]
  show some (Function.update (Function.update (Function.update (look mainEs) (packupkey 9)
    (some rootKey)) rootKey (look mixedEs rootKey)) (packupkey qmainroot) none) = _
  refine congrArg some (funext fun k => ?_)
  by_cases h0 : k = packupkey qmainroot
  · rw [h0, Function.update_self]
    rfl
  rw [Function.update_of_ne h0]
  by_cases hr : k = rootKey
  · rw [hr, Function.update_self]
  rw [Function.update_of_ne hr]
  by_cases h9 : k = packupkey 9
  · rw [h9, Function.update_self]
    rfl
  rw [Function.update_of_ne h9]
  simp [mixedEs, mainEs, look, Ne.symm h0, Ne.symm hr, Ne.symm h9]

theorem portBatch_mixed : PortBatch mixedMsgs := by
  refine ⟨List.cons_ne_nil _ _, by decide +kernel, ?_⟩
  decide +kernel

theorem fits_mixedEs : Fits mixedEs := by decide +kernel

theorem ascending_mixedEs : Ascending mixedEs :=
  ascending_of_keys (by decide)

theorem mixedMsgs_wstat : ∀ m ∈ mixedMsgs, m.op = .owstat →
    ∀ v, look mainEs m.k = some v → m.k.length + v.length ≤ gefsInlmax := by
  intro m hm hw v hv
  simp only [mixedMsgs, List.mem_cons, List.not_mem_nil, or_false] at hm
  rcases hm with rfl | rfl | rfl
  · cases hw
  · obtain rfl := Option.some.inj hv
    decide +kernel
  · cases hw

/-- The first update of the main tree goes to the block 0, off its leaf. -/
theorem mapUpdate_blank : ∃ d' ctx ctx', mkfs [] blankImage = some d'
    ∧ gefsFsOpen 3 d' false (fun _ _ => 0) = some (.ok ctx)
    ∧ gefsBtupsert ctx .active mixedMsgs = some (.ok (), ctx')
    ∧ MapUpdate ctx .active (look mixedEs) ctx' := by
  obtain ⟨d', r, a, u, tb, nu, bps, ctx, hm, hf, hopen, ho, hb⟩ := mount_blank
  obtain ⟨b, hroot, hvals⟩ := @read_of_held ctx .active mainEs ho.ok ho.main.root
  obtain ⟨as, hal, -⟩ := hb.nextAlloc (by omega)
  have happ : applyMsgs mixedMsgs (look (blkVals b.toContent)) = some (look mixedEs) := by
    rw [hvals]
    exact applyMsgs_mixed
  have hasc : Ascending (blkVals b.toContent) := by
    rw [hvals]
    exact ho.main.asc
  have hap : Apart (ctx.tree .active).bp.addr (Int64.ofNat (16384 * 0)) := by
    show Apart ctx.activeTree.bp.addr _
    rw [ho.active]
    show Apart r.addr _
    rw [hf.raddr]
    decide
  obtain ⟨ctx', he, hu⟩ := (mapUpdate_iff ho.ok hroot hasc portBatch_mixed happ ascending_mixedEs
    (fun _ => rfl) fits_mixedEs hal (le_ofNat (by omega))).2 ⟨hap, hvals ▸ mixedMsgs_wstat⟩
  exact ⟨d', ctx, ctx', hm, hopen, he, hu⟩

/-- After seven updates of the main tree the block handed out is the catalog's own root. -/
theorem not_forall_mapUpdate : ¬ ∀ (ctx : GefsCtx) (t : TreeRef) (b : GefsBlk)
    (es' : List GefsKvp) (ms : List GefsMsg) (g : Bytes → Option Bytes) (a : Int64)
    (as : List GefsArena), CtxOk ctx → (gefsGetblk ctx (ctx.tree t).bp).1 = some b →
    Ascending (blkVals b.toContent) → PortBatch ms →
    applyMsgs ms (look (blkVals b.toContent)) = some g → Ascending es' →
    (∀ k, look es' k = g k) → Fits es' → nextAlloc ctx = some (a, as) → 0 ≤ a →
    ∃ ctx', gefsBtupsert ctx t ms = some (.ok (), ctx') ∧ MapUpdate ctx t g ctx' := by
  intro hall
  obtain ⟨d', r, a, u, tb, nu, bps, ctx0, -, hf, -, ho, hb⟩ := mount_blank
  have hdrift : ∀ k ≤ 7, ∃ ctx, Drifted r a k ctx := by
    intro k
    induction k with
    | zero => exact fun _ => ⟨ctx0, drifted_blank hf ho hb⟩
    | succ k ih =>
      intro hk
      obtain ⟨ctx, h⟩ := ih (by omega)
      obtain ⟨ctx', -, h'⟩ := h.step (by omega)
      exact ⟨ctx', h'⟩
  obtain ⟨ctx, h⟩ := hdrift 7 le_rfl
  obtain ⟨b, hroot, hvals⟩ := @read_of_held ctx .snap (catEs r a) h.ok h.cat.root
  obtain ⟨as, hal, -⟩ := h.bump.nextAlloc (by omega)
  have happ : applyMsgs noMsgs (look (blkVals b.toContent)) = some (look (catEs r a)) := by
    rw [hvals]
    exact applyMsgs_noMsgs rfl
  have hasc : Ascending (blkVals b.toContent) := by
    rw [hvals]
    exact h.cat.asc
  obtain ⟨ctx', he, hm⟩ := hall ctx .snap b _ _ _ _ _ h.ok hroot hasc portBatch_noMsgs happ
    h.cat.asc (fun _ => rfl) (fits_catEs r a) hal (le_ofNat (by omega))
  obtain ⟨hap, -⟩ := apart_of_mapUpdate h.ok hroot hasc portBatch_noMsgs happ h.cat.asc
    (fun _ => rfl) (fits_catEs r a) hal (le_ofNat (by omega)) he hm
  have haddr : (ctx.tree .snap).bp.addr = Int64.ofNat (16384 * 7) := h.addr
  rw [haddr] at hap
  exact hap.ne rfl

end Blank

end GefsFuse
