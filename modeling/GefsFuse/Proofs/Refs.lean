import GefsFuse.Proofs.Holds
import GefsFuse.Proofs.Failed
import GefsFuse.Refs

/-!
# What stays held after a call

`Holding n hs ctx ctx'`: `ctx'` is `ctx` after some reads, with the blocks `hs` held and never more
than `n`. A look-up and a scan end with nothing held, wherever the scan stops and whatever the tree
holds. A block that an update or a write puts in the cache is held from then on (`HeldSome`), so an
operation releases everything exactly if it inserts nothing (`released_iff`).
-/

namespace GefsFuse

open ByteMem SortedMap Calls

/-! ## Room in the cache -/

/-- Every cached block is in the LRU list. -/
def Listed (c : GefsCache) : Prop := ∀ b ∈ c.blks, b.id ∈ c.lru

section Evict

variable {c : GefsCache}

theorem Listed.evict (h : Listed c) : Listed c.evict := by
  unfold GefsCache.evict
  split_ifs
  · rcases c.victim with _ | v
    · exact h
    · intro b hb
      obtain ⟨hb, hne⟩ := List.mem_filter.1 hb
      exact (List.mem_erase_of_ne (by simpa using hne)).2 (h b hb)
  · exact h

theorem Listed.setRef (h : Listed c) (id : ℕ) (f : ℕ → ℕ) : Listed (c.setRef id f) := by
  intro b hb
  obtain ⟨y, hy, rfl⟩ := List.mem_map.1 hb
  split_ifs <;> exact h y hy

theorem Listed.insert (h : Listed c) (b : GefsBlk) : Listed (c.insert b) := by
  intro y hy
  rcases List.mem_cons.1 hy with rfl | hy
  · exact List.mem_cons_self
  · exact List.mem_cons_of_mem _ (h y hy)

/-- A block used again. -/
theorem Listed.used (h : Listed c) (id : ℕ) : Listed { c with lru := id :: c.lru.erase id } := by
  intro b hb
  by_cases hid : b.id = id
  · rw [hid]
    exact List.mem_cons_self
  · exact List.mem_cons_of_mem _ ((List.mem_erase_of_ne hid).2 (h b hb))

@[simp] theorem max_evict (c : GefsCache) : c.evict.max = c.max := by
  unfold GefsCache.evict
  split_ifs
  · rcases c.victim with _ | v <;> rfl
  · rfl

/-- Where nothing can be evicted, every block is held. -/
theorem held_of_victim (hl : Listed c) (hn : (c.blks.map (·.id)).Nodup) (hv : c.victim = none) :
    ∀ b ∈ c.blks, b.ref ≠ 0 := by
  intro b hb h0
  have hf : c.blks.find? (·.id = b.id) = some b := by
    rcases hx : c.blks.find? (·.id = b.id) with _ | y
    · have := List.find?_eq_none.1 hx b hb
      simp at this
    · have hy := List.mem_of_find?_eq_some hx
      have hid : y.id = b.id := by simpa using List.find?_some hx
      obtain rfl : y = b := List.inj_on_of_nodup_map hn hy hb hid
      exact hx
  have hm : b ∈ c.lru.reverse.filterMap fun i => c.blks.find? (·.id = i) :=
    List.mem_filterMap.2 ⟨b.id, List.mem_reverse.2 (hl b hb), hf⟩
  have := List.find?_eq_none.1 hv b hm
  simp [h0] at this

/-- The room an eviction makes: a full cache loses a block, or all its blocks are held. -/
theorem count_evict (hl : Listed c) (hn : (c.blks.map (·.id)).Nodup) :
    c.evict.count < c.max ∨ c.evict.count + 1 ≤ c.count
      ∨ c.evict.count = c.count ∧ ∀ b ∈ c.blks, b.ref ≠ 0 := by
  unfold GefsCache.evict
  split_ifs with hc
  · rcases hv : c.victim with _ | v
    · exact .inr (.inr ⟨rfl, held_of_victim hl hn hv⟩)
    · refine .inr (.inl ?_)
      have hlt : (c.blks.filter (·.id ≠ v.id)).length < c.blks.length :=
        List.length_filter_lt_length_iff_exists.2 ⟨v, (victim_mem hv).1, by simp⟩
      exact hlt
  · exact .inl (not_le.1 hc)

theorem count_setRef (c : GefsCache) (id : ℕ) (f : ℕ → ℕ) : (c.setRef id f).count = c.count :=
  List.length_map _

theorem listed_gefsGetblk {ctx : GefsCtx} {bp : GefsBptr} (h : Listed ctx.cache) :
    Listed (gefsGetblk ctx bp).2.cache := by
  unfold gefsGetblk
  rcases ctx.cache.find bp.addr with _ | b
  · rcases ctx.disk.pread bp.addr with _ | m
    · exact h.evict
    · exact h.evict.insert _
  · exact (h.setRef _ _).used _

theorem max_gefsGetblk (ctx : GefsCtx) (bp : GefsBptr) :
    (gefsGetblk ctx bp).2.cache.max = ctx.cache.max := by
  unfold gefsGetblk
  rcases ctx.cache.find bp.addr with _ | b
  · rcases ctx.disk.pread bp.addr with _ | m <;> exact max_evict _
  · rfl

/-- A read leaves the cache as large as it was, or a block larger than an eviction left it. -/
theorem count_gefsGetblk (ctx : GefsCtx) (bp : GefsBptr) :
    (gefsGetblk ctx bp).2.cache.count ≤ max ctx.cache.count (ctx.cache.evict.count + 1) := by
  unfold gefsGetblk
  rcases ctx.cache.find bp.addr with _ | b
  · rcases ctx.disk.pread bp.addr with _ | m
    · exact le_max_of_le_right (Nat.le_succ _)
    · exact le_max_right _ _
  · exact le_max_of_le_left (count_setRef _ _ _).le

end Evict

/-! ## Reads that hold at most `n` blocks -/

theorem Touched.unheld {ctx ctx' : GefsCtx} (h : Touched ctx ctx') (h0 : Unheld ctx) :
    Unheld ctx' := by
  have hshed : ∀ {bs : List GefsBlk}, Shed ctx.cache.blks bs → ∀ b ∈ bs, b.ref = 0 := by
    rintro bs (rfl | ⟨v, -, -, rfl⟩) b hb
    · exact h0 b hb
    · exact h0 b (List.mem_of_mem_filter hb)
  cases h with
  | shed hrest hs => exact hshed hs
  | read hrest hs hbs href =>
    intro b hb
    rw [hbs] at hb
    rcases List.mem_cons.1 hb with rfl | hb
    · exact href
    · exact hshed hs b hb

/-- What is held once `hs` are dropped is all that is held but them. -/
theorem mem_of_held : ∀ {hs : List GefsBlk} {ctx : GefsCtx}, Unheld (dropAll hs ctx) →
    ∀ b ∈ ctx.cache.blks, b.ref ≠ 0 → b.id ∈ hs.map (·.id)
  | [], ctx, h, b, hb, h0 => absurd (h b hb) h0
  | y :: hs, ctx, h, b, hb, h0 => by
    by_cases hid : b.id = y.id
    · simp [hid]
    · have hb' : dropRef y b ∈ (gefsDropblk ctx y).cache.blks := List.mem_map_of_mem hb
      have hr : (dropRef y b).ref ≠ 0 := by rwa [ref_dropRef, if_neg hid]
      have := @mem_of_held hs (gefsDropblk ctx y) h _ hb' hr
      rw [id_dropRef] at this
      exact List.mem_cons_of_mem _ this

/-- `ctx'` is `ctx` after some reads, the blocks `hs` still held, never more than `n` of them. -/
structure Holding (n : ℕ) (hs : List GefsBlk) (ctx ctx' : GefsCtx) : Prop where
  under : Under hs ctx ctx'
  len : hs.length ≤ n
  unheld : Unheld ctx → Unheld (dropAll hs ctx')
  listed : Listed ctx.cache → Listed ctx'.cache
  max_eq : ctx'.cache.max = ctx.cache.max
  count : Listed ctx.cache → Unheld ctx → n ≤ ctx.cache.max → ctx.cache.count ≤ ctx.cache.max →
    ctx'.cache.count ≤ ctx.cache.max

theorem Holding.refl {n : ℕ} {ctx : GefsCtx} (h : CtxOk ctx) : Holding n [] ctx ctx :=
  ⟨.refl h, Nat.zero_le n, fun h => h, fun h => h, rfl, fun _ _ _ h => h⟩

section Holding

variable {n : ℕ} {hs : List GefsBlk} {ctx ctx' : GefsCtx} (h : Holding n hs ctx ctx')
include h

theorem Holding.perm {hs' : List GefsBlk} (hp : hs.Perm hs') : Holding n hs' ctx ctx' :=
  { h with
    under := h.under.perm hp
    len := hp.length_eq ▸ h.len
    unheld := fun h0 => by
      rw [← dropAll_perm hp]
      exact h.unheld h0 }

theorem Holding.hold (b : GefsBlk) (hn : hs.length + 1 ≤ n) :
    Holding n (b :: hs) ctx (gefsHoldblk ctx' b) where
  under := h.under.hold b
  len := hn
  unheld h0 := by
    rw [dropAll_cons, gefsDropblk_gefsHoldblk]
    exact h.unheld h0
  listed hl := (h.listed hl).setRef _ _
  max_eq := h.max_eq
  count h1 h2 h3 h4 := (count_setRef _ _ _).trans_le (h.count h1 h2 h3 h4)

/-- The cache after a read: the block moved to the front, evicted for nothing, or evicted for. -/
theorem Holding.count_evict (hl : Listed ctx.cache) (h0 : Unheld ctx) (hn : n ≤ ctx.cache.max)
    (hc : ctx.cache.count ≤ ctx.cache.max) (hlt : hs.length < n) :
    ctx'.cache.evict.count + 1 ≤ ctx.cache.max := by
  have hle := h.count hl h0 hn hc
  have hmax := h.max_eq
  rcases GefsFuse.count_evict (h.listed hl) h.under.ok.nodup with h1 | h1 | ⟨h1, h2⟩
  · omega
  · omega
  · have hsub : ctx'.cache.blks.map (·.id) ⊆ hs.map (·.id) := by
      intro i hi
      obtain ⟨b, hb, rfl⟩ := List.mem_map.1 hi
      exact mem_of_held (h.unheld h0) b hb (h2 b hb)
    have := (List.subperm_of_subset h.under.ok.nodup hsub).length_le
    simp only [List.length_map] at this
    unfold GefsCache.count at h1 ⊢
    omega

/-- A block read, or not. -/
theorem Holding.getblk (bp : GefsBptr) (hlt : hs.length < n) :
    match gefsGetblk ctx' bp with
    | (none, ctx'') => Holding n hs ctx ctx''
    | (some b, ctx'') => Holding n (b :: hs) ctx ctx'' := by
  have hu := h.under.getblk bp
  have ht := (Touched.dropAll hs (touched_touchBlk h.under.ok bp)).unheld
  have hlist := fun hl => @listed_gefsGetblk ctx' bp (h.listed hl)
  have hmax := (max_gefsGetblk ctx' bp).trans h.max_eq
  have hcnt := fun h1 h2 h3 h4 => (count_gefsGetblk ctx' bp).trans
    (max_le (h.count h1 h2 h3 h4) (h.count_evict h1 h2 h3 h4 hlt))
  unfold touchBlk at ht
  rcases hg : gefsGetblk ctx' bp with ⟨_ | b, ctx1⟩ <;> rw [hg] at hu ht hlist hmax hcnt
  · exact ⟨hu, h.len, fun h0 => ht (h.unheld h0), hlist, hmax, hcnt⟩
  · exact ⟨hu, hlt, fun h0 => ht (h.unheld h0), hlist, hmax, hcnt⟩

end Holding

/-- The block held last dropped. -/
theorem Holding.drop {n : ℕ} {hs : List GefsBlk} {ctx ctx' : GefsCtx} {b : GefsBlk}
    (h : Holding n (b :: hs) ctx ctx') : Holding n hs ctx (gefsDropblk ctx' b) where
  under := h.under.drop
  len := by
    have := h.len
    rw [List.length_cons] at this
    omega
  unheld := h.unheld
  listed hl := (h.listed hl).setRef _ _
  max_eq := h.max_eq
  count h1 h2 h3 h4 := (count_setRef _ _ _).trans_le (h.count h1 h2 h3 h4)

/-- Any of the blocks held dropped. -/
theorem Holding.dropAll {n : ℕ} {hs : List GefsBlk} {ctx : GefsCtx} :
    ∀ {bs : List GefsBlk} {ctx' : GefsCtx}, Holding n (bs ++ hs) ctx ctx' →
      Holding n hs ctx (bs.foldl gefsDropblk ctx')
  | [], _, h => h
  | b :: bs, _, h => @Holding.dropAll n hs ctx bs _ (@Holding.drop n (bs ++ hs) ctx _ b h)

/-! ## Look-ups -/

section Lookup

variable {n : ℕ} {k : Bytes} {ctx0 : GefsCtx}

theorem holding_descend {hs : List GefsBlk} : ∀ (m : ℕ) {b : GefsBlk} {p p' : List GefsBlk}
    {r r' : Option GefsKvp} {bottom : Bool} {ctx ctx' : GefsCtx},
    Holding n (p ++ hs) ctx0 ctx → (p ++ hs).length + m ≤ n →
    descend k m b p r ctx = some (p', bottom, r', ctx') → Holding n (p' ++ hs) ctx0 ctx'
  | 0, b, p, p', r, r', bottom, ctx, ctx', h, hn, hd => by
    simp only [descend, Option.some.injEq, Prod.mk.injEq] at hd
    obtain ⟨rfl, -, -, rfl⟩ := hd
    exact h
  | m + 1, b, p, p', r, r', bottom, ctx, ctx', h, hn, hd => by
    unfold descend at hd
    rcases hb : blksearch b.toContent k with ⟨i, same, _ | kv⟩ <;> rw [hb] at hd
    · simp only [Option.some.injEq, Prod.mk.injEq] at hd
      obtain ⟨rfl, -, -, rfl⟩ := hd
      exact h
    · obtain ⟨bp, -, hd⟩ := Option.bind_eq_some_iff.1 hd
      have hg := h.getblk bp (by omega)
      rcases hgb : gefsGetblk ctx bp with ⟨_ | c, ctx1⟩ <;> rw [hgb] at hd hg
      · simp only [Option.some.injEq, Prod.mk.injEq] at hd
        obtain ⟨rfl, -, -, rfl⟩ := hd
        exact hg
      · exact holding_descend m hg (by simp at hn ⊢; omega) hd

theorem ht_pos {ht : Int32} (h1 : ¬ ht < 0) (h2 : ht ≠ 0) : 0 < ht.toInt := by
  rw [Int32.lt_iff_toInt_lt] at h1
  have hne : ht.toInt ≠ (0 : Int32).toInt := fun he => h2 (Int32.toInt_inj.1 he)
  have hz : (0 : Int32).toInt = 0 := rfl
  omega

theorem answer_ctx {s : Bool × Option GefsKvp} {c ctx' : GefsCtx} {r : Option GefsKvp}
    (h : (if s.1 then s.2.map fun r => (some r, c) else some (none, c)) = some (r, ctx')) :
    ctx' = c := by
  split_ifs at h
  · obtain ⟨x, -, hx⟩ := Option.map_eq_some_iff.1 h
    exact (Prod.mk.inj hx).2.symm
  · exact (Prod.mk.inj (Option.some.inj h)).2.symm

/-- A look-up drops the blocks of its path, wherever it stops. -/
theorem holding_gefsBtlookup {ctx ctx' : GefsCtx} (hok : CtxOk ctx) {t : GefsTree} {nbuf : ℕ}
    {r : Option GefsKvp} (hr : gefsBtlookup ctx t k nbuf = some (r, ctx')) :
    Holding (t.ht.toInt.toNat + 1) [] ctx ctx' := by
  have h0 := (@Holding.refl (t.ht.toInt.toNat + 1) _ hok).getblk t.bp (Nat.succ_pos _)
  unfold gefsBtlookup at hr
  rcases hg : gefsGetblk ctx t.bp with ⟨_ | b, ctx1⟩ <;> rw [hg] at hr h0
  · simp only [Option.some.injEq, Prod.mk.injEq] at hr
    obtain ⟨-, rfl⟩ := hr
    exact h0
  · dsimp only at hr
    split_ifs at hr with h1 h2
    · simp only [Option.some.injEq, Prod.mk.injEq] at hr
      obtain ⟨-, rfl⟩ := hr
      exact h0.drop
    · have hpos := ht_pos h1 h2
      obtain ⟨⟨p, bottom, r1, ctx2⟩, hd, hr⟩ := Option.bind_eq_some_iff.1 hr
      have h3 := @holding_descend _ k ctx [b] _ b [b] _ _ _ _ _ _
        (h0.hold b (by simp only [List.length_cons, List.length_nil]; omega))
        (by simp only [List.length_append, List.length_cons, List.length_nil]; omega) hd
      have h4 : Holding (t.ht.toInt.toNat + 1) [] ctx
          (gefsDropblk (p.foldl gefsDropblk ctx2) b) := h3.dropAll.drop
      dsimp only at hr
      rcases hs : (leafSearch p bottom k r1).1 <;>
        simp only [hs, Bool.false_eq_true, if_true, if_false] at hr
      · obtain ⟨s1, -, hr⟩ := Option.bind_eq_some_iff.1 hr
        obtain ⟨s2, -, hr⟩ := Option.bind_eq_some_iff.1 hr
        rw [answer_ctx hr]
        exact h4
      · obtain ⟨s1, -, hr⟩ := Option.bind_eq_some_iff.1 hr
        obtain ⟨s2, -, hr⟩ := Option.bind_eq_some_iff.1 hr
        rw [answer_ctx hr]
        exact h4

end Lookup

/-! ## Scans -/

/-- The blocks the levels of a cursor hold. -/
def heldOf (path : List GefsScanp) : List GefsBlk := path.filterMap (·.b)

theorem heldOf_cons (p : GefsScanp) (ps : List GefsScanp) :
    heldOf (p :: ps) = p.b.toList ++ heldOf ps := by
  unfold heldOf
  rcases h : p.b with _ | b <;> simp [h]

theorem heldOf_append (ps qs : List GefsScanp) : heldOf (ps ++ qs) = heldOf ps ++ heldOf qs :=
  List.filterMap_append

theorem length_heldOf_le (ps : List GefsScanp) : (heldOf ps).length ≤ ps.length :=
  List.length_filterMap_le _ _

/-- Only the blocks of the levels count. -/
theorem heldOf_congr {ps qs : List GefsScanp} (h : ps.map (·.b) = qs.map (·.b)) :
    heldOf ps = heldOf qs ∧ ps.length = qs.length := by
  have hf : ∀ ps : List GefsScanp, heldOf ps = (ps.map (·.b)).filterMap id := fun ps => by
    rw [List.filterMap_map]
    rfl
  refine ⟨by rw [hf, hf, h], ?_⟩
  have := congrArg List.length h
  simpa using this

theorem map_b_scanAdvance (path : List GefsScanp) (i : Option ℕ) :
    (scanAdvance path i).map (·.b) = path.map (·.b) := by
  have hm : ∀ (f : GefsScanp → GefsScanp), (∀ p, (f p).b = p.b) → ∀ (ps : List GefsScanp) (j : ℕ),
      (ps.modify j f).map (·.b) = ps.map (·.b) := by
    intro f hf ps
    induction ps with
    | nil => intro j; simp
    | cons p ps ih =>
      intro j
      cases j with
      | zero => simp [hf]
      | succ j => simp [ih]
  cases i
  · exact hm _ (by simp) _ _
  · exact hm _ (by simp) _ _

theorem map_b_drainLevels : ∀ {ps ps' : List GefsScanp} {r r' : Bool × GefsKvp},
    drainLevels ps r = some (ps', r') → ps'.map (·.b) = ps.map (·.b)
  | [], ps', r, r', h => by
    simp only [drainLevels, Option.some.injEq, Prod.mk.injEq] at h
    rw [← h.1]
  | p :: ps, ps', r, r', h => by
    unfold drainLevels at h
    rcases hb : p.b with _ | b <;> rw [hb] at h
    · obtain ⟨⟨qs, r1⟩, hq, h⟩ := Option.bind_eq_some_iff.1 h
      simp only [Option.some.injEq, Prod.mk.injEq] at h
      rw [← h.1, List.map_cons, List.map_cons, map_b_drainLevels hq]
    · obtain ⟨⟨j, r1⟩, -, h⟩ := Option.bind_eq_some_iff.1 h
      obtain ⟨⟨qs, r2⟩, hq, h⟩ := Option.bind_eq_some_iff.1 h
      simp only [Option.some.injEq, Prod.mk.injEq] at h
      rw [← h.1, List.map_cons, List.map_cons, map_b_drainLevels hq, hb]

theorem dropLast_append_toList : ∀ l : List GefsScanp, l.dropLast ++ l.getLast?.toList = l
  | [] => rfl
  | [_] => rfl
  | a :: b :: l => by
    rw [List.dropLast_cons_cons, List.getLast?_cons_cons, List.cons_append, dropLast_append_toList]

/-- The levels above the lowest drained. -/
theorem map_b_drained {path up : List GefsScanp} {r r' : Bool × GefsKvp}
    (h : drainLevels path.dropLast.reverse r = some (up, r')) :
    (up.reverse ++ path.getLast?.toList).map (·.b) = path.map (·.b) := by
  conv_rhs => rw [← dropLast_append_toList path]
  rw [List.map_append, List.map_append, List.map_reverse, map_b_drainLevels h, List.map_reverse,
    List.reverse_reverse]

section Scan

variable {n : ℕ} {ctx0 : GefsCtx}

/-- Each level of a fresh cursor holds at most one block, and the path holds nothing else. -/
theorem holding_enterLevels {k : Bytes} : ∀ (m : ℕ) {b : GefsBlk} {pb : Option GefsBlk}
    {hs : List GefsBlk} {ctx ctx' : GefsCtx} {path : List GefsScanp},
    Holding n (pb.toList ++ hs) ctx0 ctx → hs.length + m ≤ n → (m = 0 → pb = none) →
    enterLevels k m b pb ctx = some (path, ctx') →
    Holding n (heldOf path ++ hs) ctx0 ctx' ∧ path.length = m
  | 0, b, pb, hs, ctx, ctx', path, h, hn, hm, he => by
    simp only [enterLevels, Option.some.injEq, Prod.mk.injEq] at he
    obtain ⟨rfl, rfl⟩ := he
    rw [hm rfl] at h
    exact ⟨h, rfl⟩
  | m + 1, b, pb, hs, ctx, ctx', path, h, hn, hm, he => by
    have hpb : pb.toList.length ≤ 1 := by cases pb <;> simp
    have hout : ∀ {bi vi : ℤ} {ps : List GefsScanp} {c : GefsCtx},
        Holding n (heldOf ps ++ (pb.toList ++ hs)) ctx0 c →
        Holding n (heldOf (⟨bi, vi, pb⟩ :: ps) ++ hs) ctx0 c := fun h => by
      refine h.perm ?_
      rw [heldOf_cons, ← List.append_assoc]
      exact List.perm_append_comm.append_right _
    have hlen : (pb.toList ++ hs).length + m ≤ n := by
      rw [List.length_append]
      omega
    unfold enterLevels at he
    rcases hb : blksearch b.toContent k with ⟨vi, same, kv⟩
    rw [hb] at he
    dsimp only at he
    by_cases h1 : b.type = gefsTpivot
    · by_cases h2 : m = 0 ∨ (vi = -1 ∧ b.nval ≤ 0)
      · simp [h1, h2] at he
      · simp only [if_pos h1, if_neg h2] at he
        obtain ⟨bp, -, he⟩ := Option.bind_eq_some_iff.1 he
        have hg := h.getblk bp (by omega)
        rcases hgb : gefsGetblk ctx bp with ⟨_ | c, ctx1⟩ <;> rw [hgb] at he hg
        · simp at he
        · obtain ⟨⟨ps, ctx2⟩, hp, he⟩ := Option.bind_eq_some_iff.1 he
          obtain ⟨h3, h4⟩ := @holding_enterLevels k m c (some c) _ _ _ _ hg hlen
            (fun h0 => absurd (.inl h0) h2) hp
          simp only [Option.some.injEq, Prod.mk.injEq] at he
          obtain ⟨rfl, rfl⟩ := he
          exact ⟨hout h3, by simp [h4]⟩
    · simp only [if_neg h1] at he
      obtain ⟨⟨ps, ctx2⟩, hp, he⟩ := Option.bind_eq_some_iff.1 he
      obtain ⟨h3, h4⟩ := @holding_enterLevels k m b none _ _ _ _ h hlen (fun _ => rfl) hp
      simp only [Option.some.injEq, Prod.mk.injEq] at he
      obtain ⟨rfl, rfl⟩ := he
      exact ⟨hout h3, by simp [h4]⟩

/-- The block of a level that is left is dropped. -/
theorem Holding.dropLevel {hs : List GefsBlk} {ctx : GefsCtx} {x : Option GefsBlk} :
    Holding n (x.toList ++ hs) ctx0 ctx → Holding n hs ctx0 (match x with
      | some b => gefsDropblk ctx b
      | none => ctx) := by
  intro h
  rcases x with _ | b
  · exact h
  · exact h.drop

/-- The levels dropped on the way up hold nothing any more. -/
theorem holding_ascend {hs : List GefsBlk} : ∀ (ps : List GefsScanp) {p : GefsScanp}
    {q path : List GefsScanp} {ctx ctx' : GefsCtx} {start : Option ℕ},
    Holding n (heldOf ((p :: ps).reverse ++ q) ++ hs) ctx0 ctx → heldOf q = [] →
    ascend p ps q ctx = (path, start, ctx') →
    Holding n (heldOf path ++ hs) ctx0 ctx' ∧ path.length = ps.length + 1 + q.length
      ∧ ∀ s ∈ start, heldOf (path.drop s) = []
  | [], p, q, path, ctx, ctx', start, h, hq, ha => by
    simp only [ascend, Prod.mk.injEq] at ha
    obtain ⟨rfl, rfl, rfl⟩ := ha
    refine ⟨h, by simp; omega, fun s hs => ?_⟩
    split_ifs at hs
    · obtain rfl := Option.some.inj hs
      exact hq
    · simp at hs
  | p' :: ps, p, q, path, ctx, ctx', start, h, hq, ha => by
    unfold ascend at ha
    split_ifs at ha with hm
    · simp only [Prod.mk.injEq] at ha
      obtain ⟨rfl, rfl, rfl⟩ := ha
      refine ⟨by simpa using h, by simp; omega, fun s hs => ?_⟩
      obtain rfl := Option.some.inj hs
      have hd : ((p' :: ps).reverse ++ p :: q).drop (ps.length + 2) = q := by
        have hl : ((p' :: ps).reverse ++ [p]).length = ps.length + 2 := by simp
        rw [List.append_cons, ← hl, List.drop_left]
      rw [hd]
      exact hq
    · have hq' : heldOf (⟨0, 0, none⟩ :: q) = [] := by
        rw [heldOf_cons, hq]
        rfl
      have he : heldOf (({ p' with vi := p'.vi + 1 } :: ps).reverse ++ ⟨0, 0, none⟩ :: q)
          = heldOf (p' :: ps).reverse := by
        rw [heldOf_append, hq', List.append_nil]
        refine (heldOf_congr ?_).1
        simp
      have h' : Holding n (p.b.toList ++ (heldOf (p' :: ps).reverse ++ hs)) ctx0 ctx := by
        refine h.perm ?_
        rw [List.reverse_cons, heldOf_append, heldOf_append, heldOf_cons, hq]
        simp only [heldOf, List.filterMap_nil, List.append_nil, List.append_assoc]
        rw [← List.append_assoc, ← List.append_assoc]
        exact List.perm_append_comm.append_right _
      have hdrop := h'.dropLevel
      rw [← he] at hdrop
      obtain ⟨h1, h2, h3⟩ := holding_ascend ps hdrop hq' ha
      exact ⟨h1, by rw [h2]; simp; omega, h3⟩

theorem holding_refill : ∀ {ps ps' : List GefsScanp} {hs : List GefsBlk} {a : GefsBlk} {vi : ℤ}
    {ok : Bool} {ctx ctx' : GefsCtx}, heldOf ps = [] → Holding n hs ctx0 ctx →
    hs.length + ps.length ≤ n → refill ps a vi ctx = some (ps', ok, ctx') →
    Holding n (heldOf ps' ++ hs) ctx0 ctx' ∧ ps'.length = ps.length
  | [], ps', hs, a, vi, ok, ctx, ctx', h0, h, hn, hr => by
    simp only [refill, Option.some.injEq, Prod.mk.injEq] at hr
    obtain ⟨rfl, -, rfl⟩ := hr
    exact ⟨h, rfl⟩
  | p :: ps, ps', hs, a, vi, ok, ctx, ctx', h0, h, hn, hr => by
    rw [List.length_cons] at hn
    rw [heldOf_cons, List.append_eq_nil_iff] at h0
    unfold refill at hr
    split_ifs at hr
    obtain ⟨bp, -, hr⟩ := Option.bind_eq_some_iff.1 hr
    have hg := h.getblk bp (by omega)
    rcases hgb : gefsGetblk ctx bp with ⟨_ | c, ctx1⟩ <;> rw [hgb] at hr hg
    · simp only [Option.some.injEq, Prod.mk.injEq] at hr
      obtain ⟨rfl, -, rfl⟩ := hr
      refine ⟨?_, rfl⟩
      rw [heldOf_cons, h0.2]
      exact hg
    · obtain ⟨⟨qs, ok', ctx2⟩, hq, hr⟩ := Option.bind_eq_some_iff.1 hr
      simp only [Option.some.injEq, Prod.mk.injEq] at hr
      obtain ⟨rfl, -, rfl⟩ := hr
      obtain ⟨h1, h2⟩ := holding_refill h0.2 hg (by rw [List.length_cons]; omega) hq
      refine ⟨h1.perm ?_, by simp [h2]⟩
      rw [heldOf_cons]
      exact List.perm_middle

theorem holding_scanSource {path path' : List GefsScanp} {hs : List GefsBlk} {start : ℕ}
    {src : Option (GefsMsg × Option ℕ)} {ctx ctx' : GefsCtx} (h0 : heldOf (path.drop start) = [])
    (h : Holding n (heldOf path ++ hs) ctx0 ctx) (hn : hs.length + path.length ≤ n)
    (hr : scanSource path start ctx = some (path', src, ctx')) :
    Holding n (heldOf path' ++ hs) ctx0 ctx' ∧ path'.length = path.length := by
  obtain ⟨top, -, hr⟩ := Option.bind_eq_some_iff.1 hr
  obtain ⟨tb, -, hr⟩ := Option.bind_eq_some_iff.1 hr
  split_ifs at hr with h1
  · obtain ⟨⟨low, ok, ctx1⟩, hl, hr⟩ := Option.bind_eq_some_iff.1 hr
    have hsplit : heldOf path = heldOf (path.take start) := by
      conv_lhs => rw [← List.take_append_drop start path, heldOf_append, h0, List.append_nil]
    rw [hsplit] at h
    have hlen := congrArg List.length (List.take_append_drop start path)
    rw [List.length_append] at hlen
    have hle := length_heldOf_le (path.take start)
    obtain ⟨h2, h3⟩ := holding_refill h0 h (by rw [List.length_append]; omega) hl
    have h4 : Holding n (heldOf (path.take start ++ low) ++ hs) ctx0 ctx1
        ∧ (path.take start ++ low).length = path.length := by
      refine ⟨h2.perm ?_, by rw [List.length_append, h3]; exact hlen⟩
      rw [heldOf_append, ← List.append_assoc]
      exact List.perm_append_comm.append_right _
    have hout : ∀ {x : Option (GefsMsg × Option ℕ)},
        some (path.take start ++ low, x, ctx1) = some (path', src, ctx') →
        Holding n (heldOf path' ++ hs) ctx0 ctx' ∧ path'.length = path.length := fun hx => by
      simp only [Option.some.injEq, Prod.mk.injEq] at hx
      obtain ⟨rfl, -, rfl⟩ := hx
      exact h4
    dsimp only at hr
    split_ifs at hr
    · obtain ⟨leaf, -, hr⟩ := Option.bind_eq_some_iff.1 hr
      obtain ⟨b, -, hr⟩ := Option.bind_eq_some_iff.1 hr
      split_ifs at hr
      exact hout hr
    · exact hout hr
  · simp only [Option.some.injEq, Prod.mk.injEq] at hr
    obtain ⟨rfl, -, rfl⟩ := hr
    exact ⟨h, rfl⟩

/-- A step of the cursor, whether it finds a pair or ends. -/
theorem holding_gefsBtnext {hs : List GefsBlk} : ∀ (fuel : ℕ) {s s' : GefsScan}
    {r : Option GefsKvp} {ctx ctx' : GefsCtx}, Holding n (heldOf s.path ++ hs) ctx0 ctx →
    hs.length + s.path.length ≤ n → gefsBtnext fuel ctx s = some (r, s', ctx') →
    Holding n (heldOf s'.path ++ hs) ctx0 ctx' ∧ s'.path.length = s.path.length
  | 0, _, _, _, _, _, _, _, hr => by simp [gefsBtnext] at hr
  | fuel + 1, s, s', r, ctx, ctx', h, hn, hr => by
    unfold gefsBtnext at hr
    split_ifs at hr with hd
    · simp only [Option.some.injEq, Prod.mk.injEq] at hr
      obtain ⟨-, rfl, rfl⟩ := hr
      exact ⟨h, rfl⟩
    · rcases hp : s.path.reverse with _ | ⟨p, ps⟩ <;> rw [hp] at hr
      · simp at hr
      · have hpath : s.path = (p :: ps).reverse := by rw [← hp, List.reverse_reverse]
        rcases ha : ascend p ps [] ctx with ⟨path, start, ctx1⟩
        simp only [ha] at hr
        rw [hpath, ← List.append_nil (p :: ps).reverse] at h
        obtain ⟨h1, h2, h3⟩ := holding_ascend ps h rfl ha
        have hlen : path.length = s.path.length := by
          rw [h2, hpath]
          simp
        rcases start with _ | start
        · simp only [Option.some.injEq, Prod.mk.injEq] at hr
          obtain ⟨-, rfl, rfl⟩ := hr
          exact ⟨h1, hlen⟩
        · obtain ⟨⟨path2, src, ctx2⟩, hsrc, hr⟩ := Option.bind_eq_some_iff.1 hr
          obtain ⟨h4, h5⟩ := holding_scanSource (h3 start rfl) h1 (by omega) hsrc
          rcases src with _ | src
          · simp only [Option.some.injEq, Prod.mk.injEq] at hr
            obtain ⟨-, rfl, rfl⟩ := hr
            exact ⟨h4, h5.trans hlen⟩
          · rcases hl : leastMsg ((path2.zipIdx.dropLast.map Prod.swap).reverse) src with ⟨m, i⟩
            simp only [hl] at hr
            split_ifs at hr with hpfx
            · obtain ⟨kv, -, hr⟩ := Option.bind_eq_some_iff.1 hr
              obtain ⟨⟨up, r2⟩, hup, hr⟩ := Option.bind_eq_some_iff.1 hr
              obtain ⟨h6, h7⟩ := heldOf_congr (map_b_drained hup)
              obtain ⟨h8, h9⟩ := heldOf_congr (map_b_scanAdvance path2 i)
              rw [← h8, ← h6] at h4
              have hlen2 := (h7.trans h9).trans (h5.trans hlen)
              dsimp only at hr
              split_ifs at hr
              · simp only [Option.some.injEq, Prod.mk.injEq] at hr
                obtain ⟨-, rfl, rfl⟩ := hr
                exact ⟨h4, hlen2⟩
              · obtain ⟨h10, h11⟩ := holding_gefsBtnext fuel h4 (by rw [hlen2]; exact hn) hr
                exact ⟨h10, h11.trans hlen2⟩
            · simp only [Option.some.injEq, Prod.mk.injEq] at hr
              obtain ⟨-, rfl, rfl⟩ := hr
              exact ⟨h4, h5.trans hlen⟩

theorem gefsBtexit_eq (d : Bool) (pfx : Bytes) : ∀ (ps : List GefsScanp) (ctx : GefsCtx),
    gefsBtexit ctx ⟨d, pfx, ps⟩ = (heldOf ps).foldl gefsDropblk ctx
  | [], _ => rfl
  | ⟨_, _, none⟩ :: ps, ctx => gefsBtexit_eq d pfx ps ctx
  | ⟨_, _, some b⟩ :: ps, ctx => gefsBtexit_eq d pfx ps (gefsDropblk ctx b)

/-- `gefs_btexit` drops what a cursor holds, wherever it stands. -/
theorem Holding.gefsBtexit {s : GefsScan} {hs : List GefsBlk} {ctx : GefsCtx}
    (h : Holding n (heldOf s.path ++ hs) ctx0 ctx) : Holding n hs ctx0 (gefsBtexit ctx s) := by
  rw [gefsBtexit_eq s.donescan s.pfx]
  exact h.dropAll

theorem holding_gefsBtenter {ctx ctx' : GefsCtx} (hok : CtxOk ctx) {t : GefsTree} {pfx : Bytes}
    {s : GefsScan} (hr : gefsBtenter ctx t pfx = some (s, ctx')) :
    Holding (t.ht.toInt.toNat + 1) (heldOf s.path ++ []) ctx ctx'
      ∧ s.path.length ≤ t.ht.toInt.toNat := by
  have h0 := (@Holding.refl (t.ht.toInt.toNat + 1) _ hok).getblk t.bp (Nat.succ_pos _)
  unfold gefsBtenter at hr
  by_cases hp : gefsKeymax < pfx.length
  · simp [hp] at hr
  rw [if_neg hp] at hr
  rcases hg : gefsGetblk ctx t.bp with ⟨_ | b, ctx1⟩ <;> rw [hg] at hr h0
  · simp only [Option.some.injEq, Prod.mk.injEq] at hr
    obtain ⟨rfl, rfl⟩ := hr
    exact ⟨h0, Nat.zero_le _⟩
  · dsimp only at hr
    split_ifs at hr with h1 h2
    · simp only [Option.some.injEq, Prod.mk.injEq] at hr
      obtain ⟨rfl, rfl⟩ := hr
      exact ⟨h0.drop, Nat.zero_le _⟩
    · obtain ⟨⟨p, ctx2⟩, hp, hr⟩ := Option.bind_eq_some_iff.1 hr
      have hpos := ht_pos h1 h2
      obtain ⟨h3, h4⟩ := @holding_enterLevels _ ctx pfx _ b (some b) [] _ _ _ h0 (by simp)
        (fun he => by omega) hp
      simp only [Option.some.injEq, Prod.mk.injEq] at hr
      obtain ⟨rfl, rfl⟩ := hr
      exact ⟨h3, h4.le⟩

theorem holding_scanAll {hs : List GefsBlk} {fuel : ℕ} : ∀ (m : ℕ) {stop : List GefsKvp → Bool}
    {s s' : GefsScan} {l : List GefsKvp} {ctx ctx' : GefsCtx},
    Holding n (heldOf s.path ++ hs) ctx0 ctx → hs.length + s.path.length ≤ n →
    scanAll fuel m stop ctx s = some (l, s', ctx') → Holding n (heldOf s'.path ++ hs) ctx0 ctx'
  | 0, _, _, _, _, _, _, _, _, hr => by simp [scanAll] at hr
  | m + 1, stop, s, s', l, ctx, ctx', h, hn, hr => by
    obtain ⟨⟨r, s1, ctx1⟩, hx, hr⟩ := Option.bind_eq_some_iff.1 hr
    obtain ⟨h1, h2⟩ := holding_gefsBtnext fuel h hn hx
    rcases r with _ | kv
    · simp only [Option.some.injEq, Prod.mk.injEq] at hr
      obtain ⟨-, rfl, rfl⟩ := hr
      exact h1
    · dsimp only at hr
      split_ifs at hr with hst
      · simp only [Option.some.injEq, Prod.mk.injEq] at hr
        obtain ⟨-, rfl, rfl⟩ := hr
        exact h1
      · obtain ⟨⟨l1, s2, ctx2⟩, hl, hr⟩ := Option.bind_eq_some_iff.1 hr
        simp only [Option.some.injEq, Prod.mk.injEq] at hr
        obtain ⟨-, rfl, rfl⟩ := hr
        exact holding_scanAll m h1 (by rw [h2]; exact hn) hl

theorem holding_gefsScan {ctx ctx' : GefsCtx} (hok : CtxOk ctx) {t : GefsTree} {pfx : Bytes}
    {stop : List GefsKvp → Bool} {l : List GefsKvp}
    (hr : gefsScan ctx t pfx stop = some (l, ctx')) :
    Holding (t.ht.toInt.toNat + 1) [] ctx ctx' := by
  obtain ⟨⟨s, ctx1⟩, he, hr⟩ := Option.bind_eq_some_iff.1 hr
  obtain ⟨⟨l1, s1, ctx2⟩, hl, hr⟩ := Option.bind_eq_some_iff.1 hr
  simp only [Option.some.injEq, Prod.mk.injEq] at hr
  obtain ⟨-, rfl⟩ := hr
  obtain ⟨h1, h2⟩ := holding_gefsBtenter hok he
  exact (holding_scanAll _ h1 (by rw [List.length_nil]; omega) hl).gefsBtexit

end Scan

/-! ## Calls -/

/-- The most blocks a call holds at a time. -/
def Sys.tall : {β : Type} → Sys β → GefsCtx → ℕ
  | _, .btlookup t _, ctx => (ctx.tree t).ht.toInt.toNat + 1
  | _, .btscan t _ _, ctx => (ctx.tree t).ht.toInt.toNat + 1
  | _, _, _ => 1

/-- `ctx'` has the cache `ctx` has after some reads, none of them still holding a block. -/
def Balanced (n : ℕ) (ctx ctx' : GefsCtx) : Prop :=
  ∃ c, Holding n [] ctx c ∧ ctx'.cache = c.cache ∧ ctx'.nblk = c.nblk

/-- The same with a block of a call's own in front, held once. -/
def Inserted (ctx ctx' : GefsCtx) : Prop :=
  ∃ c b, Holding 1 [] ctx c ∧ b.id = c.nblk ∧ b.ref = 1 ∧ ctx'.cache = c.cache.insert b
    ∧ ctx'.nblk = c.nblk + 1

theorem hasFree_iff (ctx : GefsCtx) : HasFree ctx ↔ ∃ r ∈ nextAlloc ctx, 0 ≤ r.1 := by
  unfold HasFree nextAlloc
  have hn : (0 < ctx.sb.narena) ↔ ¬ ctx.sb.narena ≤ 0 := Int32.not_le.symm
  rw [hn]
  by_cases h : ctx.readonly ∨ ctx.sb.narena ≤ 0
  · simp only [if_pos h]
    rcases h with h | h <;> simp [h]
  · obtain ⟨h1, h2⟩ := not_or.1 h
    simp [h1, h2]

theorem HasFree.congr {ctx ctx' : GefsCtx} (h : Keeps ctx ctx') : HasFree ctx' ↔ HasFree ctx := by
  rw [hasFree_iff, hasFree_iff, h.nextAlloc]

/-- The allocator leaves the cache alone. -/
theorem gefsAllocBlk_cache (ctx : GefsCtx) :
    (gefsAllocBlk ctx).2.cache = ctx.cache ∧ (gefsAllocBlk ctx).2.nblk = ctx.nblk
      ∧ (HasFree ctx ↔ ¬ (gefsAllocBlk ctx).1 < 0) := by
  rw [gefsAllocBlk_eq, hasFree_iff]
  rcases nextAlloc ctx with _ | ⟨a, as⟩
  · exact ⟨rfl, rfl, by simp⟩
  · exact ⟨rfl, rfl, by simp [Int64.not_lt]⟩

theorem holding_touchBlk {ctx : GefsCtx} (hok : CtxOk ctx) (bp : GefsBptr) :
    Holding 1 [] ctx (touchBlk ctx bp).2 := by
  have h := (@Holding.refl 1 _ hok).getblk bp Nat.one_pos
  unfold touchBlk
  rcases hg : gefsGetblk ctx bp with ⟨_ | b, ctx1⟩ <;> rw [hg] at h
  · exact h
  · exact h.drop

theorem readable_iff (ctx : GefsCtx) (bp : GefsBptr) :
    Readable ctx bp ↔ (touchBlk ctx bp).1.isSome := by
  unfold Readable touchBlk gefsGetblk
  rcases ctx.cache.find bp.addr with _ | b
  · rcases ctx.disk.pread bp.addr with _ | m <;> simp
  · simp

theorem cache_setRoot (ctx : GefsCtx) (t : TreeRef) (bp : GefsBptr) :
    (setRoot ctx t bp).cache = ctx.cache ∧ (setRoot ctx t bp).nblk = ctx.nblk := by
  rw [setRoot_eq]
  exact ⟨rfl, rfl⟩

theorem upsertRead_cases {ctx ctx' : GefsCtx} {t : TreeRef} {es : List GefsKvp}
    {ms : List GefsMsg} {r : Except Errno Unit} (h : upsertRead ctx t es ms = some (r, ctx')) :
    (¬ HasFree ctx ∧ ctx'.cache = ctx.cache ∧ ctx'.nblk = ctx.nblk)
      ∨ (HasFree ctx ∧ ∃ b : GefsBlk, b.id = ctx.nblk ∧ b.ref = 1
        ∧ ctx'.cache = ctx.cache.insert b ∧ ctx'.nblk = ctx.nblk + 1) := by
  obtain ⟨hc, hn, hf⟩ := gefsAllocBlk_cache ctx
  unfold upsertRead at h
  rcases hal : gefsAllocBlk ctx with ⟨addr, ctx1⟩
  rw [hal] at h hc hn hf
  dsimp only at h hc hn hf
  split_ifs at h with hneg
  · simp only [Option.some.injEq, Prod.mk.injEq] at h
    rw [← h.2]
    exact .inl ⟨fun hx => hf.1 hx hneg, hc, hn⟩
  · obtain ⟨b, hb, h⟩ := Option.bind_eq_some_iff.1 h
    simp only [Option.some.injEq, Prod.mk.injEq] at h
    rw [mergeInto_eq_mergeVals] at hb
    obtain ⟨l, -, hb⟩ := Option.bind_eq_some_iff.1 hb
    have hid : (blkFinalize b).id = ctx.nblk := by
      rw [blkFinalize_id, (foldlM_blkSetval_frame hb).1]
      exact hn
    obtain ⟨hc', hn'⟩ := cache_setRoot ctx1 t (blkFinalize b).bp
    refine .inr ⟨hf.2 hneg, { blkFinalize b with ref := 1 }, hid, rfl, ?_, ?_⟩ <;> rw [← h.2]
    · exact congrArg (GefsCache.insert · { blkFinalize b with ref := 1 }) (hc'.trans hc)
    · exact congrArg (· + 1) (hn'.trans hn)

/-- The blocks of `gefs_btupsert`. -/
theorem gefsBtupsert_refs {ctx ctx' : GefsCtx} (hok : CtxOk ctx) {t : TreeRef} {ms : List GefsMsg}
    {r : Except Errno Unit} (h : gefsBtupsert ctx t ms = some (r, ctx')) :
    (¬ (Sys.btupsert t ms).Inserts ctx ∧ Balanced 1 ctx ctx')
      ∨ ((Sys.btupsert t ms).Inserts ctx ∧ Inserted ctx ctx') := by
  by_cases hg : ctx.readonly ∨ ms = []
  · unfold gefsBtupsert at h
    simp only [if_pos hg, Option.some.injEq, Prod.mk.injEq] at h
    rw [← h.2]
    refine .inl ⟨fun ⟨h1, _, h2⟩ => ?_, ctx, .refl hok, rfl, rfl⟩
    rcases hg with hg | hg
    · exact absurd (h2.1.symm.trans hg) (by decide)
    · exact h1 hg
  · obtain ⟨hro, hms⟩ := not_or.1 hg
    have ht := holding_touchBlk hok (ctx.tree t).bp
    have hread := readable_iff ctx (ctx.tree t).bp
    have hfree := HasFree.congr ht.under.keeps
    rw [gefsBtupsert_eq hok t (by simpa using hro) hms] at h
    rcases htb : touchBlk ctx (ctx.tree t).bp with ⟨_ | root, ctx1⟩ <;>
      rw [htb] at h ht hread hfree
    · simp only [Option.some.injEq, Prod.mk.injEq] at h
      rw [← h.2]
      exact .inl ⟨fun hi => absurd (hread.1 hi.2.1) (by simp), ctx1, ht, rfl, rfl⟩
    · rcases upsertRead_cases h with ⟨hf, h1, h2⟩ | ⟨hf, b, hid, href, h1, h2⟩
      · exact .inl ⟨fun hi => hf (hfree.2 hi.2.2), ctx1, ht, h1, h2⟩
      · exact .inr ⟨⟨hms, hread.2 rfl, hfree.1 hf⟩, ctx1, b, ht, hid, href, h1, h2⟩

/-- The blocks of `gefs_write_file`. -/
theorem writedat_refs {ctx : GefsCtx} (hok : CtxOk ctx) (m : Mem) :
    (¬ HasFree ctx ∧ Balanced 1 ctx (writedat ctx m).2)
      ∨ (HasFree ctx ∧ Inserted ctx (writedat ctx m).2) := by
  obtain ⟨hc, hn, hf⟩ := gefsAllocBlk_cache ctx
  unfold writedat
  rcases hal : gefsAllocBlk ctx with ⟨addr, ctx1⟩
  rw [hal] at hc hn hf
  dsimp only at hc hn hf ⊢
  split_ifs with hneg
  · exact .inl ⟨fun hx => hf.1 hx hneg, ctx, .refl hok, hc, hn⟩
  · generalize hb : blkFinalize (newDat ctx1 addr ctx1.activeTree.gen m) = b
    have hid : b.id = ctx.nblk := by
      rw [← hb, blkFinalize_id]
      exact hn
    exact .inr ⟨hf.2 hneg, ctx, { b with ref := 1 }, .refl hok, hid, rfl,
      congrArg (GefsCache.insert · { b with ref := 1 }) hc, congrArg (· + 1) hn⟩

/-- What a call leaves in the cache. -/
theorem step_refs {β : Type} {q : Sys β} {a : β} {ctx ctx' : GefsCtx} (hok : CtxOk ctx)
    (hs : sysStep q ctx = some (a, ctx')) :
    (¬ q.Inserts ctx ∧ Balanced (q.tall ctx) ctx ctx') ∨ (q.Inserts ctx ∧ Inserted ctx ctx') := by
  have hsame : ∀ {c : GefsCtx}, c.cache = ctx.cache → c.nblk = ctx.nblk → Balanced 1 ctx c :=
    fun h1 h2 => ⟨ctx, .refl hok, h1, h2⟩
  cases q with
  | btlookup t k => exact .inl ⟨id, _, holding_gefsBtlookup hok hs, rfl, rfl⟩
  | btscan t pfx stop => exact .inl ⟨id, _, holding_gefsScan hok hs, rfl, rfl⟩
  | btupsert t ms => exact gefsBtupsert_refs hok hs
  | getblk bp =>
    have ht := holding_touchBlk hok bp
    unfold touchBlk at ht
    simp only [sysStep] at hs
    rcases hg : gefsGetblk ctx bp with ⟨_ | b, ctx1⟩ <;> rw [hg] at hs ht <;>
      simp only [Option.some.injEq, Prod.mk.injEq] at hs <;> rw [← hs.2] <;>
      exact .inl ⟨id, _, ht, rfl, rfl⟩
  | writedat m =>
    obtain ⟨-, rfl⟩ := Prod.mk.inj (Option.some.inj hs)
    exact writedat_refs hok m
  | putArena i =>
    obtain ⟨c, hc, he⟩ := Option.map_eq_some_iff.1 hs
    obtain ⟨-, rfl⟩ := Prod.mk.inj he
    unfold GefsFuse.putArena at hc
    split at hc
    · simp at hc
    · obtain rfl := Option.some.inj hc
      exact .inl ⟨id, hsame rfl rfl⟩
  | putBackup =>
    obtain ⟨-, rfl⟩ := Prod.mk.inj (Option.some.inj hs)
    refine .inl ⟨id, ?_⟩
    unfold GefsFuse.putBackup
    split_ifs
    · exact hsame rfl rfl
    · exact hsame rfl rfl
  | nextqid | nextgen | readonly | dirty | narena | tree t | mount t | putSuper | clean =>
    obtain ⟨-, rfl⟩ := Prod.mk.inj (Option.some.inj hs)
    exact .inl ⟨id, hsame rfl rfl⟩

/-! ## Runs -/

/-- What every call keeps of the cache. -/
structure Fit (ctx : GefsCtx) : Prop where
  ok : CtxOk ctx
  listed : Listed ctx.cache
  pos : 1 ≤ ctx.cache.max

/-- A block in the cache is held. -/
def HeldSome (ctx : GefsCtx) : Prop := ∃ x, Pinned ctx x fun _ => True

theorem HeldSome.not_unheld {ctx : GefsCtx} (h : HeldSome ctx) : ¬ Unheld ctx := by
  obtain ⟨x, b, hb, hr, -⟩ := h
  intro h0
  have := h0 b (List.mem_of_find?_eq_some hb)
  omega

section Balanced

variable {n : ℕ} {ctx ctx' : GefsCtx} (h : Balanced n ctx ctx')
include h

theorem Balanced.fit (hf : Fit ctx) : Fit ctx' := by
  obtain ⟨c, hc, h1, h2⟩ := h
  have hm := hc.max_eq
  have hp := hf.pos
  refine ⟨?_, ?_, ?_⟩
  · show CacheOk ctx'.cache ctx'.nblk
    rw [h1, h2]
    exact hc.under.ok
  · rw [h1]
    exact hc.listed hf.listed
  · rw [h1]
    omega

theorem Balanced.unheld (h0 : Unheld ctx) : Unheld ctx' := by
  obtain ⟨c, hc, h1, -⟩ := h
  unfold Unheld
  rw [h1]
  exact hc.unheld h0

theorem Balanced.heldSome (hs : HeldSome ctx) : HeldSome ctx' := by
  obtain ⟨c, hc, h1, -⟩ := h
  obtain ⟨x, hx⟩ := hs
  obtain ⟨b, hb⟩ := hc.under.keeps.pinned x _ hx
  refine ⟨x, b, ?_⟩
  rw [h1]
  exact hb

theorem Balanced.count (hf : Fit ctx) (h0 : Unheld ctx) (hn : n ≤ ctx.cache.max)
    (hc : ctx.cache.count ≤ ctx.cache.max) :
    ctx'.cache.max = ctx.cache.max ∧ ctx'.cache.count ≤ ctx.cache.max := by
  obtain ⟨c, hh, h1, -⟩ := h
  rw [h1]
  exact ⟨hh.max_eq, hh.count hf.listed h0 hn hc⟩

end Balanced

section Inserted

variable {ctx ctx' : GefsCtx} (h : Inserted ctx ctx')
include h

theorem Inserted.fit (hf : Fit ctx) : Fit ctx' := by
  obtain ⟨c, b, hc, hid, hr, h1, h2⟩ := h
  have hm := hc.max_eq
  have hp := hf.pos
  refine ⟨?_, ?_, ?_⟩
  · show CacheOk ctx'.cache ctx'.nblk
    rw [h1, h2]
    exact hc.under.ok.cons hid (.inl hr.ge) rfl
  · rw [h1]
    exact (hc.listed hf.listed).insert b
  · rw [h1]
    show 1 ≤ c.cache.max
    omega

theorem Inserted.heldSome : HeldSome ctx' := by
  obtain ⟨c, b, -, -, hr, h1, -⟩ := h
  refine ⟨b.bp.addr, b, ?_, hr.ge, trivial⟩
  rw [h1, find_cons rfl, if_pos rfl]

end Inserted

section Step

variable {β : Type} {q : Sys β} {a : β} {ctx ctx' : GefsCtx} (hf : Fit ctx)
  (hs : sysStep q ctx = some (a, ctx'))
include hf hs

theorem step_fit : Fit ctx' := by
  rcases step_refs hf.ok hs with ⟨-, h⟩ | ⟨-, h⟩
  · exact h.fit hf
  · exact h.fit hf

theorem step_heldSome (hh : HeldSome ctx) : HeldSome ctx' := by
  rcases step_refs hf.ok hs with ⟨-, h⟩ | ⟨-, h⟩
  · exact h.heldSome hh
  · exact h.heldSome

theorem heldSome_of_inserts (hi : q.Inserts ctx) : HeldSome ctx' := by
  rcases step_refs hf.ok hs with ⟨hn, -⟩ | ⟨-, h⟩
  · exact absurd hi hn
  · exact h.heldSome

theorem balanced_of_not_inserts (hi : ¬ q.Inserts ctx) : Balanced (q.tall ctx) ctx ctx' := by
  rcases step_refs hf.ok hs with ⟨-, h⟩ | ⟨h, -⟩
  · exact h
  · exact absurd h hi

omit hf hs in
/-- A tree lower than the cache fits in it whole. -/
theorem tall_le (hf : Fit ctx) (hl : q.Low ctx) : q.tall ctx ≤ ctx.cache.max := by
  have hp := hf.pos
  cases q with
  | btlookup t k =>
    have hl : (ctx.tree t).ht.toInt < ctx.cache.max := hl
    show (ctx.tree t).ht.toInt.toNat + 1 ≤ _
    omega
  | btscan t pfx stop =>
    have hl : (ctx.tree t).ht.toInt < ctx.cache.max := hl
    show (ctx.tree t).ht.toInt.toNat + 1 ≤ _
    omega
  | _ => exact hp

end Step

section Run

variable {α : Type} {p : FsProg α} {a : α} {ctx ctx' : GefsCtx}

theorem run_fit (hf : Fit ctx) (hr : run sysStep p ctx = some (a, ctx')) : Fit ctx' :=
  run_inv (fun _ _ _ _ h _ hs => step_fit h hs) hf (meets_of_forall (fun _ _ => trivial) p ctx) hr

/-- A run that inserts nothing holds nothing at its end. -/
theorem run_unheld (hf : Fit ctx) (h0 : Unheld ctx)
    (hm : Meets sysStep (fun q s => ¬ q.Inserts s) p ctx)
    (hr : run sysStep p ctx = some (a, ctx')) : Unheld ctx' := by
  have hstep : ∀ {β : Type} (q : Sys β) s b s', Fit s ∧ Unheld s → ¬ q.Inserts s →
      sysStep q s = some (b, s') → Fit s' ∧ Unheld s' := fun q s b s' h hi hs =>
    ⟨step_fit h.1 hs, (balanced_of_not_inserts h.1 hs hi).unheld h.2⟩
  exact (run_inv hstep ⟨hf, h0⟩ hm hr).2

/-- And where its trees are low, the cache is no larger than it is for. -/
theorem run_count (hf : Fit ctx) (h0 : Unheld ctx)
    (hm : Meets sysStep (fun q s => ¬ q.Inserts s) p ctx)
    (hl : Meets sysStep (fun q s => q.Low s) p ctx) (hc : ctx.cache.count ≤ ctx.cache.max)
    (hr : run sysStep p ctx = some (a, ctx')) : ctx'.cache.count ≤ ctx'.cache.max := by
  have hstep : ∀ {β : Type} (q : Sys β) s b s',
      Fit s ∧ Unheld s ∧ s.cache.count ≤ s.cache.max → ¬ q.Inserts s ∧ q.Low s →
      sysStep q s = some (b, s') → Fit s' ∧ Unheld s' ∧ s'.cache.count ≤ s'.cache.max := by
    rintro β q s b s' ⟨h1, h2, h3⟩ ⟨hi, hlow⟩ hs
    have hb := balanced_of_not_inserts h1 hs hi
    obtain ⟨e1, e2⟩ := hb.count h1 h2 (tall_le h1 hlow) h3
    exact ⟨hb.fit h1, hb.unheld h2, e1 ▸ e2⟩
  exact (run_inv hstep ⟨hf, h0, hc⟩ (hm.and hl) hr).2.2

/-- A run that inserts a block holds it at its end. -/
theorem run_heldSome (hf : Fit ctx) (hm : ¬ Meets sysStep (fun q s => ¬ q.Inserts s) p ctx)
    (hr : run sysStep p ctx = some (a, ctx')) : HeldSome ctx' :=
  run_of_not_meets (fun _ _ _ _ h hs => step_fit h hs)
    (fun _ _ _ _ h hh hs => step_heldSome h hs hh)
    (fun _ _ _ _ h hi hs => heldSome_of_inserts h hs (not_not.1 hi)) hf hm hr

end Run

/-! ## Programs that insert nothing -/

/-- Whatever is answered, the program inserts nothing. -/
abbrev Inert {α : Type} (p : FsProg α) : Prop := All (fun {_} q => ∀ s, ¬ Sys.Inserts q s) p

theorem Inert.meets {α : Type} {p : FsProg α} (hp : Inert p) (ctx : GefsCtx) :
    Meets sysStep (fun q s => ¬ q.Inserts s) p ctx := by
  induction p generalizing ctx with
  | ret a => trivial
  | fault => trivial
  | call p k ih => exact ⟨hp.1 ctx, fun b s _ => ih b (hp.2 b) s⟩

theorem Reading.inert {α : Type} {p : FsProg α} (hp : Reading p) : Inert p :=
  All.imp (fun q hq s => by cases q <;> first | exact id | exact hq.elim) hp

theorem inert_opensnap (label : Bytes) : Inert (gefsOpensnap label) := by
  unfold gefsOpensnap
  split
  · trivial
  · simp only [Prog.one_bind]
    refine ⟨fun _ => id, fun kv => ?_⟩
    rcases kv with _ | kv
    · trivial
    dsimp only
    split_ifs
    · trivial
    refine ⟨fun _ => id, fun kv => ?_⟩
    rcases kv with _ | kv
    · trivial
    dsimp only
    split <;> trivial

theorem inert_openDefault : Inert openDefault := by
  have hmount : ∀ t, Inert (Prog.one (.mount t) : FsProg Unit) := fun t =>
    ⟨fun _ => id, fun _ => trivial⟩
  refine (inert_opensnap _).bind fun r => ?_
  rcases r with e | ⟨t, _⟩
  · refine (inert_opensnap _).bind fun r => ?_
    rcases r with e | ⟨t, _⟩
    · exact ⟨fun _ => id, fun t => hmount t⟩
    · exact hmount t
  · exact hmount t

theorem inert_readBlock (got : Option GefsKvp) (i n : ℕ) : Inert (readBlock got i n) := by
  rcases got with _ | kv
  · trivial
  refine (all_ofOption _).bind fun bp => ⟨fun _ => id, fun b => ?_⟩
  rcases b with _ | b <;> trivial

theorem inert_readLoop (t : TreeRef) (q : UInt64) : ∀ (fuel size : ℕ) (off : UInt64),
    Inert (readLoop t q fuel size off)
  | 0, _, _ => trivial
  | fuel + 1, size, off => by
    unfold readLoop
    split_ifs
    · trivial
    · refine ⟨fun _ => id, fun got => (inert_readBlock got _ _).bind fun bs => ?_⟩
      exact (inert_readLoop t q fuel _ _).bind fun _ => trivial

theorem inert_readFile (t : TreeRef) (d : GefsXdir) (size : UInt64) (offset : Int64) :
    Inert (gefsReadFile t d size offset) := by
  unfold gefsReadFile
  split_ifs
  · trivial
  · exact inert_readLoop t _ _ _ _
  · exact inert_readLoop t _ _ _ _

/-- The operations that change nothing insert nothing. -/
theorem inert_prog {op : PublicOp} (h : ∀ p, op ≠ .port p) : Inert op.prog := by
  cases op with
  | walk t path d => exact (reading_walkPath t path.bytes d).inert.bind fun _ => trivial
  | list t q callback => exact (reading_listDir t q callback).inert.bind fun _ => trivial
  | read t d size offset => exact (inert_readFile t d size offset).bind fun _ => trivial
  | opensnap label => exact (inert_opensnap label.bytes).bind fun _ => trivial
  | port p => exact absurd rfl (h p)

/-! ## Sessions -/

theorem fit_touch {ctx : GefsCtx} (h : Fit ctx ∧ Unheld ctx) (bp : GefsBptr) :
    Fit (touchBlk ctx bp).2 ∧ Unheld (touchBlk ctx bp).2 :=
  have hb : Balanced 1 ctx (touchBlk ctx bp).2 := ⟨_, holding_touchBlk h.1.ok bp, rfl, rfl⟩
  ⟨hb.fit h.1, hb.unheld h.2⟩

/-- Opening an image holds nothing. -/
theorem fit_gefsFsOpen {fuel : ℕ} {d : Disk} {readonly : Bool} {heap : ℕ → Mem} {ctx : GefsCtx}
    (h : gefsFsOpen fuel d readonly heap = some (.ok ctx)) : Fit ctx ∧ Unheld ctx := by
  unfold gefsFsOpen at h
  rcases hsb : readSuper d with e | sb <;> rw [hsb] at h
  · cases h
  · obtain ⟨⟨as, ctx1⟩, hl, h⟩ := Option.bind_eq_some_iff.1 h
    obtain ⟨⟨u, ctx2⟩, hr, h⟩ := Option.bind_eq_some_iff.1 h
    obtain rfl : ctx2 = ctx := by simpa using h
    have h0 : Fit (freshCtx d readonly heap sb) ∧ Unheld (freshCtx d readonly heap sb) := by
      refine ⟨⟨⟨List.nodup_nil, fun b hb => ?_, List.Pairwise.nil⟩, fun b hb => ?_, ?_⟩,
        fun b hb => ?_⟩
      · cases hb
      · cases hb
      · exact (by decide : 1 ≤ (gefsCacheInit 4096).max)
      · cases hb
    obtain ⟨⟨h1, h2⟩, -⟩ := @loadArenas_inv (fun c => Fit c ∧ Unheld c)
      (fun _ bp h => fit_touch h bp) _ _ _ _ _ h0 hl
    have hf : Fit { ctx1 with arenas := as, snapTree := sb.snap } := ⟨h1.ok, h1.listed, h1.pos⟩
    exact ⟨run_fit hf hr, run_unheld hf h2 (inert_openDefault.meets _) hr⟩

theorem Running.fit {ctx : GefsCtx} (h : Running ctx) : Fit ctx := by
  induction h with
  | opened h => exact (fit_gefsFsOpen h).1
  | call _ hr ih => exact run_fit ih hr

/-- Where nothing is held and the cache is no larger than it is for, the next read leaves it so. -/
theorem count_next {ctx : GefsCtx} (hf : Fit ctx) (h0 : Unheld ctx)
    (hc : ctx.cache.count ≤ ctx.cache.max) (bp : GefsBptr) :
    (gefsGetblk ctx bp).2.cache.count ≤ ctx.cache.max := by
  have h := (@Holding.refl 1 _ hf.ok).getblk bp Nat.one_pos
  rcases hg : gefsGetblk ctx bp with ⟨_ | b, ctx1⟩ <;> rw [hg] at h
  · exact h.count hf.listed h0 hf.pos hc
  · exact h.count hf.listed h0 hf.pos hc

/-! ## With nothing to allocate -/

section Full

variable {ctx ctx' : GefsCtx}

/-- An update is refused, and there is still nothing to allocate. -/
theorem full_btupsert (hok : CtxOk ctx) (hn : nextAlloc ctx = none) {t : TreeRef}
    {ms : List GefsMsg} {r : Except Errno Unit} (h : gefsBtupsert ctx t ms = some (r, ctx')) :
    nextAlloc ctx' = none := by
  by_cases hg : ctx.readonly ∨ ms = []
  · unfold gefsBtupsert at h
    rw [if_pos hg] at h
    obtain ⟨-, rfl⟩ := Prod.mk.inj (Option.some.inj h)
    exact hn
  obtain ⟨hro, hms⟩ := not_or.1 hg
  have hk := (touchBlk_spec hok (ctx.tree t).bp).1
  rw [gefsBtupsert_eq hok t (by simpa using hro) hms] at h
  rcases htb : touchBlk ctx (ctx.tree t).bp with ⟨_ | root, ctx1⟩ <;> rw [htb] at h hk
  · obtain ⟨-, rfl⟩ := Prod.mk.inj (Option.some.inj h)
    exact hk.nextAlloc.trans hn
  · have hn1 : nextAlloc ctx1 = none := hk.nextAlloc.trans hn
    dsimp only at h
    rw [upsertRead, gefsAllocBlk_eq, hn1] at h
    obtain ⟨-, rfl⟩ := Prod.mk.inj (Option.some.inj h)
    exact hn1

theorem full_writedat (hn : nextAlloc ctx = none) (m : Mem) :
    nextAlloc (writedat ctx m).2 = none := by
  unfold writedat
  rw [gefsAllocBlk_eq, hn]
  exact hn

theorem full_step {β : Type} {q : Sys β} {b : β} (hok : CtxOk ctx) (hn : nextAlloc ctx = none)
    (hs : sysStep q ctx = some (b, ctx')) : nextAlloc ctx' = none := by
  cases q with
  | btlookup t k => exact (holding_gefsBtlookup hok hs).under.keeps.nextAlloc.trans hn
  | btscan t pfx stop => exact (holding_gefsScan hok hs).under.keeps.nextAlloc.trans hn
  | btupsert t ms => exact full_btupsert hok hn hs
  | getblk bp =>
    have hk := (holding_touchBlk hok bp).under.keeps
    unfold touchBlk at hk
    simp only [sysStep] at hs
    rcases hg : gefsGetblk ctx bp with ⟨_ | x, ctx1⟩ <;> rw [hg] at hs hk <;>
      obtain ⟨-, rfl⟩ := Prod.mk.inj (Option.some.inj hs) <;>
      exact hk.nextAlloc.trans hn
  | writedat m =>
    obtain ⟨-, rfl⟩ := Prod.mk.inj (Option.some.inj hs)
    exact full_writedat hn m
  | putArena i =>
    obtain ⟨c, hc, he⟩ := Option.map_eq_some_iff.1 hs
    obtain ⟨-, rfl⟩ := Prod.mk.inj he
    unfold GefsFuse.putArena at hc
    split at hc
    · cases hc
    · obtain rfl := Option.some.inj hc
      exact hn
  | putBackup =>
    obtain ⟨-, rfl⟩ := Prod.mk.inj (Option.some.inj hs)
    unfold GefsFuse.putBackup
    split_ifs <;> exact hn
  | nextqid | nextgen | readonly | dirty | narena | tree t | mount t | putSuper | clean =>
    obtain ⟨-, rfl⟩ := Prod.mk.inj (Option.some.inj hs)
    exact hn

theorem full_meets {α : Type} (p : FsProg α) (hf : Fit ctx) (hn : nextAlloc ctx = none) :
    Meets sysStep (fun q s => ¬ q.Inserts s) p ctx := by
  induction p generalizing ctx with
  | ret a => trivial
  | fault => trivial
  | call q k ih =>
    have hno : ¬ HasFree ctx := fun h => by
      obtain ⟨x, hx, -⟩ := (hasFree_iff ctx).1 h
      rw [hn] at hx
      cases hx
    refine ⟨?_, fun b s hs => ih b (step_fit hf hs) (full_step hf.ok hn hs)⟩
    cases q with
    | btupsert t ms => exact fun h => hno h.2.2
    | writedat m => exact hno
    | _ => exact id

end Full

section Released

variable {ctx ctx' : GefsCtx} {op : PublicOp} (hrun : Running ctx) (h0 : Unheld ctx)
  (hr : run sysStep op.prog ctx = some ((), ctx'))
include hrun h0 hr

theorem released_of_meets (hm : Meets sysStep (fun q s => ¬ q.Inserts s) op.prog ctx) :
    Released op ctx ctx' := by
  have hf := hrun.fit
  have h1 := run_unheld hf h0 hm hr
  exact ⟨h1, fun hl hc => count_next (run_fit hf hr) h1 (run_count hf h0 hm hl hc hr)⟩

/-- Walks, lists, reads of files and of labels release what they held. -/
theorem released_of_reading (h : ∀ p, op ≠ .port p) : Released op ctx ctx' :=
  released_of_meets hrun h0 hr ((inert_prog h).meets ctx)

/-- So does every operation on an image mounted read-only, or one with no free range. -/
theorem released_of_full (hn : nextAlloc ctx = none) : Released op ctx ctx' :=
  released_of_meets hrun h0 hr (full_meets op.prog hrun.fit hn)

/-- An operation releases every block it held exactly if it inserts none. -/
theorem released_iff :
    Released op ctx ctx' ↔ Meets sysStep (fun q s => ¬ q.Inserts s) op.prog ctx := by
  constructor
  · intro h
    by_contra hm
    exact (run_heldSome hrun.fit hm hr).not_unheld h.unheld
  · exact released_of_meets hrun h0 hr

end Released

section Blank

variable {d d' : Disk} {r a u tb : GefsBptr} {nu : ℕ} {bps : List GefsBptr} {ctx : GefsCtx}

/-- An update with a block to have puts it in the cache. -/
theorem inserts_of_canAlloc {es : List GefsKvp} {t : TreeRef} {ms : List GefsMsg} (hok : CtxOk ctx)
    (hh : TreeHolds ctx (ctx.tree t) es) (hms : ms ≠ []) (hc : canAlloc ctx = true) :
    (Sys.btupsert t ms).Inserts ctx := by
  refine ⟨hms, (readable_iff ctx _).2 ?_, (hasFree_iff ctx).2 ?_⟩
  · obtain ⟨b, hb, -⟩ := (touchBlk_spec hok (ctx.tree t).bp).2 _ hh.root
    rw [hb]
    rfl
  · unfold canAlloc at hc
    rcases hn : nextAlloc ctx with _ | x <;> rw [hn] at hc
    · cases hc
    · exact ⟨x, rfl, of_decide_eq_true hc⟩

/-- The path `/abc`. -/
def pathAbc : CStr := ⟨slash :: nameAbc, by simp [slash, nameAbc]⟩

/-- A file made in the root directory: the new root stays held. -/
theorem createFile_blank (ho : Opened d' false (fun _ _ => 0) 8 r a tb bps ctx) (hb : Bump 0 ctx)
    (hf : Fit ctx) : ∃ ctx', run sysStep
        (PublicOp.prog (.port (.file (.createFile ⟨0, 0, 0⟩ pathAbc 0)))) ctx = some ((), ctx')
      ∧ HeldSome ctx' := by
  obtain ⟨d, hv, hd, hq⟩ := mainEs_root
  obtain ⟨k, hk⟩ : ∃ k, gefsPackdkey gefsKeymax 0 (some nameAbc) = some k := ⟨_, rfl⟩
  have hlk : look mainEs k = none := by
    obtain ⟨-, rfl⟩ := gefsPackdkey_eq_some.1 hk
    rfl
  obtain ⟨c1, hk1, h1⟩ := @run_walkPath _ ctx .active ho.ok ho.main _ _
    (findPath_root hv hd (by decide : pathElems [slash] = [])) zeroXdir
  have hh1 : TreeHolds c1 (c1.tree .active) mainEs := by
    rw [hk1.tree]
    exact ho.main.keeps hk1
  obtain ⟨c2, hk2, h2⟩ := step_btlookup hk1.ok hh1 k
  obtain ⟨q, c3, hs3⟩ : ∃ q c3, sysStep .nextqid c2 = some (q, c3) := ⟨_, _, rfl⟩
  have hk12 := hk1.trans hk2
  obtain ⟨hsee, hu3⟩ := sees_reads (p := .nextqid) trivial ((sees_blank ho).keeps hk12) hs3
  obtain ⟨v, hv'⟩ := @gefsPackdval_isSome gefsInlmax (by decide)
    (newEntry ⟨0, 0, 0⟩ q gefsQtfile (0 &&& 0o777) nameAbc)
  have hklen : k.length = 15 := by
    obtain ⟨-, rfl⟩ := gefsPackdkey_eq_some.1 hk
    rfl
  have hcan : canAlloc c3 = true := by
    rw [canAlloc, (hk12.unmoved.trans hu3).nextAlloc]
    exact hb.canAlloc (by omega)
  have hvlen := length_gefsPackdval hv'
  have hfits := fits_ins_mainEs hklen hvlen
  obtain ⟨c4, hs4⟩ := upsert_made hsee.ok hsee.active hfits hcan
  have hf3 : Fit c3 := step_fit (step_fit (run_fit hf h1) h2) hs3
  refine ⟨c4, ?_, heldSome_of_inserts hf3 hs4
    (inserts_of_canAlloc hsee.ok hsee.active (List.cons_ne_nil _ _) hcan)⟩
  have hins : insertEntry 0 nameAbc (newEntry ⟨0, 0, 0⟩ q gefsQtfile (0 &&& 0o777) nameAbc)
      = .one (.btupsert .active [⟨.oinsert, k, v, []⟩]) := by
    unfold insertEntry
    rw [show (0 : UInt64).toInt64 = 0 from rfl, hk, hv']
    rfl
  have hwalk : run sysStep (gefsWalk1 .active 0 nameAbc zeroXdir) c1
      = some ((.error .enoent, zeroXdir), c2) := by
    unfold gefsWalk1
    rw [hk]
    dsimp only
    rw [Prog.one_bind, run_call _ h2, hlk]
    rfl
  have hc : run sysStep (gefsCreateFile ⟨0, 0, 0⟩ pathAbc.bytes 0) ctx = some (.ok (), c4) := by
    unfold gefsCreateFile
    rw [show splitPath pathAbc.bytes = some ([slash], nameAbc) by decide]
    dsimp only
    rw [run_bind, h1, Option.bind_some]
    dsimp only
    rw [hq, show (0 : UInt64).toInt64 = 0 from rfl, run_bind, hwalk, Option.bind_some]
    dsimp only
    rw [Prog.one_bind, run_call _ hs3, hins]
    unfold Prog.one
    rw [run_call _ hs4]
    rfl
  show run sysStep (zeroRet (gefsCreateFile ⟨0, 0, 0⟩ pathAbc.bytes 0) >>= _) ctx = _
  unfold zeroRet
  rw [Prog.bind_assoc, run_bind, hc]
  rfl

/-- A scan of the blank image for what lies where its root does. -/
theorem released_blank : ∃ ctx ctx', Running ctx ∧ Unheld ctx
    ∧ run sysStep (PublicOp.prog (.list .active (-1) fun _ => true)) ctx = some ((), ctx')
    ∧ Released (.list .active (-1) fun _ => true) ctx ctx' := by
  obtain ⟨d', r, a, u, tb, nu, bps, ctx, -, -, hopen, ho, hb⟩ := mount_blank
  obtain ⟨hf, h0⟩ := fit_gefsFsOpen hopen
  obtain ⟨c, -, hs⟩ := @step_btscan ctx .active mainEs ho.ok ho.main (by decide)
    (dirPrefix (-1)) (by decide) (listStop fun _ => true)
  obtain ⟨ds, hds⟩ := Option.isSome_iff_exists.1 (show ((upTo (listStop fun _ => true)
    (mainEs.filter fun kv => (dirPrefix (-1)).isPrefixOf kv.1)).mapM gefsKv2dir).isSome from
      by decide +kernel)
  have hr : run sysStep (PublicOp.prog (.list .active (-1) fun _ => true)) ctx = some ((), c) := by
    show run sysStep (gefsListDir .active (-1) (fun _ => true) >>= _) ctx = _
    unfold gefsListDir
    rw [Prog.bind_assoc, Prog.one_bind, run_call _ hs, hds]
    rfl
  exact ⟨ctx, c, .opened hopen, h0, hr,
    (released_iff (.opened hopen) h0 hr).2
      ((inert_prog fun _ h => PublicOp.noConfusion h).meets ctx)⟩

/-- On the blank image one file made is enough. -/
theorem not_forall_released : ¬ ∀ (ctx ctx' : GefsCtx) (op : PublicOp), Running ctx → Unheld ctx →
    run sysStep op.prog ctx = some ((), ctx') → Released op ctx ctx' := by
  intro h
  obtain ⟨d', r, a, u, tb, nu, bps, ctx, -, -, hopen, ho, hb⟩ := mount_blank
  obtain ⟨hf, h0⟩ := fit_gefsFsOpen hopen
  obtain ⟨ctx', hr, hh⟩ := createFile_blank ho hb hf
  exact hh.not_unheld (h ctx ctx' _ (.opened hopen) h0 hr).unheld

end Blank

end GefsFuse
