import GefsFuse.Proofs.Leaf

/-!
# What a read of a block finds

`Held ctx x Q` says that a read of the block at `x` finds one with `Q`, now and after any other
reads: the block in the cache has `Q` and either something holds it, or what would be read from the
disk in its place has `Q` as well. A block that was written is held for good, so a second block of
one address is always in front of a first one that something holds (`CacheOk`).

Reads keep every `Held` (`Keeps`); writes keep those of the blocks they do not overlap.
-/

namespace GefsFuse

open ByteMem

/-- Of two blocks of one address, the newer is held. -/
structure CacheOk (c : GefsCache) (n : ℕ) : Prop where
  nodup : (c.blks.map (·.id)).Nodup
  lt : ∀ b ∈ c.blks, b.id < n
  pinned : c.blks.Pairwise fun b b' => b.bp.addr = b'.bp.addr → 1 ≤ b.ref

abbrev CtxOk (ctx : GefsCtx) : Prop := CacheOk ctx.cache ctx.nblk

/-- The block found at `x` is held and has `Q`. -/
def Pinned (ctx : GefsCtx) (x : Int64) (Q : Content → Prop) : Prop :=
  ∃ b, ctx.cache.find x = some b ∧ 1 ≤ b.ref ∧ Q b.toContent

/-- A read of the block at `x` finds one with `Q`. -/
def Held (ctx : GefsCtx) (x : Int64) (Q : Content → Prop) : Prop :=
  Pinned ctx x Q ∨ ((∀ b, ctx.cache.find x = some b → Q b.toContent)
    ∧ ∃ m, ctx.disk.pread x = some m ∧ ∀ i, Q (parseBlk (withTail m (ctx.heap i))))

theorem Pinned.imp {ctx : GefsCtx} {x : Int64} {Q R : Content → Prop} (h : Pinned ctx x Q)
    (hqr : ∀ c, Q c → R c) : Pinned ctx x R := by
  obtain ⟨b, h1, h2, h3⟩ := h
  exact ⟨b, h1, h2, hqr _ h3⟩

theorem Held.imp {ctx : GefsCtx} {x : Int64} {Q R : Content → Prop} (h : Held ctx x Q)
    (hqr : ∀ c, Q c → R c) : Held ctx x R := by
  rcases h with h | ⟨h1, m, h2, h3⟩
  · exact .inl (h.imp hqr)
  · exact .inr ⟨fun b hb => hqr _ (h1 b hb), m, h2, fun t => hqr _ (h3 t)⟩

/-! ## Counts and eviction -/

section Cache

variable {c : GefsCache} {n : ℕ}

theorem blks_setRef_setRef (c : GefsCache) (id : ℕ) :
    ((c.setRef id (· + 1)).setRef id (· - 1)).blks = c.blks := by
  have h : ∀ b ∈ c.blks, (fun b : GefsBlk => if b.id = id then { b with ref := b.ref - 1 } else b)
      ((fun b : GefsBlk => if b.id = id then { b with ref := b.ref + 1 } else b) b) = b := by
    intro b _
    by_cases hb : b.id = id
    · subst hb
      simp
    · simp [hb]
  simp only [GefsCache.setRef, List.map_map]
  exact (List.map_congr_left h).trans (List.map_id _)

/-- Counts other than that of `id` stay. -/
theorem blks_setRef_of_ne {id : ℕ} {f : ℕ → ℕ} (h : ∀ b ∈ c.blks, b.id ≠ id) :
    (c.setRef id f).blks = c.blks := by
  have hf : ∀ b ∈ c.blks, (if b.id = id then { b with ref := f b.ref } else b) = b :=
    fun b hb => by rw [if_neg (h b hb)]
  exact (List.map_congr_left hf).trans (List.map_id _)

theorem victim_mem {v : GefsBlk} (h : c.victim = some v) : v ∈ c.blks ∧ v.ref = 0 := by
  have h1 := List.mem_of_find?_eq_some h
  have h2 := List.find?_some h
  obtain ⟨i, -, hi⟩ := List.mem_filterMap.1 h1
  exact ⟨List.mem_of_find?_eq_some hi, by simpa using h2⟩

/-- `bs'` is `bs` without at most one block, that nothing holds. -/
def Shed (bs bs' : List GefsBlk) : Prop :=
  bs' = bs ∨ ∃ v ∈ bs, v.ref = 0 ∧ bs' = bs.filter (·.id ≠ v.id)

theorem shed_evict (c : GefsCache) : Shed c.blks c.evict.blks := by
  unfold GefsCache.evict
  split_ifs
  · rcases hv : c.victim with _ | v
    · exact .inl rfl
    · exact .inr ⟨v, (victim_mem hv).1, (victim_mem hv).2, rfl⟩
  · exact .inl rfl

theorem CacheOk.eq_of_id (h : CacheOk c n) {b b' : GefsBlk} (hb : b ∈ c.blks) (hb' : b' ∈ c.blks)
    (he : b.id = b'.id) : b = b' :=
  List.inj_on_of_nodup_map h.nodup hb hb' he

/-- An eviction takes the only block of its address. -/
theorem find_shed (h : CacheOk c n) {c' : GefsCache} (hs : Shed c.blks c'.blks) (x : Int64) :
    c'.find x = c.find x ∨ (c'.find x = none ∧ ∃ v, c.find x = some v ∧ v.ref = 0) := by
  rcases hs with he | ⟨v, hv, hv0, he⟩
  · exact .inl (by simp only [GefsCache.find, he])
  · simp only [GefsCache.find, he, List.find?_filter]
    rcases hf : c.blks.find? (·.bp.addr = x) with _ | b
    · left
      rw [hf]
      rw [List.find?_eq_none] at hf ⊢
      intro y hy
      simp only [decide_eq_true_eq, not_and]
      exact fun _ => by simpa using hf y hy
    · rw [hf]
      obtain ⟨hbx, as, bs, hl, has⟩ := List.find?_eq_some_iff_append.1 hf
      have hb : b ∈ c.blks := by simp [hl]
      by_cases hid : b.id = v.id
      · obtain rfl := h.eq_of_id hb hv hid
        refine .inr ⟨?_, b, rfl, hv0⟩
        rw [List.find?_eq_none]
        intro y hy
        simp only [decide_eq_true_eq, not_and]
        intro hyb hyx
        rw [hl, List.mem_append, List.mem_cons] at hy
        rcases hy with hy | rfl | hy
        · exact absurd (has y hy) (by simp [hyx])
        · exact hyb rfl
        · have hp := h.pinned
          rw [hl, List.pairwise_append] at hp
          have := (List.pairwise_cons.1 hp.2.1).1 y hy (by simp_all)
          omega
      · left
        rw [List.find?_eq_some_iff_append]
        refine ⟨by simpa [hid] using hbx, as, bs, hl, fun y hy => ?_⟩
        have := has y hy
        simp_all

theorem CacheOk.of_blks (h : CacheOk c n) {c' : GefsCache} (he : c'.blks = c.blks) :
    CacheOk c' n :=
  ⟨by rw [he]; exact h.nodup, by rw [he]; exact h.lt, by rw [he]; exact h.pinned⟩

theorem CacheOk.shed (h : CacheOk c n) {c' : GefsCache} (hs : Shed c.blks c'.blks) :
    CacheOk c' n := by
  rcases hs with he | ⟨v, -, -, he⟩
  · exact h.of_blks he
  · refine ⟨?_, ?_, ?_⟩ <;> rw [he]
    · exact h.nodup.sublist (List.Sublist.map _ List.filter_sublist)
    · exact fun b hb => h.lt b (List.mem_of_mem_filter hb)
    · exact h.pinned.sublist List.filter_sublist

theorem find_evict (h : CacheOk c n) (x : Int64) :
    c.evict.find x = c.find x ∨ (c.evict.find x = none ∧ ∃ v, c.find x = some v ∧ v.ref = 0) :=
  find_shed h (shed_evict c) x

theorem CacheOk.evict (h : CacheOk c n) : CacheOk c.evict n := h.shed (shed_evict c)

/-- A new block in front, held or the first of its address. -/
theorem CacheOk.cons (h : CacheOk c n) {b : GefsBlk} (hid : b.id = n)
    (hb : 1 ≤ b.ref ∨ c.find b.bp.addr = none) {c' : GefsCache} (he : c'.blks = b :: c.blks) :
    CacheOk c' (n + 1) := by
  refine ⟨?_, ?_, ?_⟩ <;> rw [he]
  · refine List.nodup_cons.2 ⟨fun hm => ?_, h.nodup⟩
    obtain ⟨y, hy, hyid⟩ := List.mem_map.1 hm
    exact (h.lt y hy).ne (hyid.trans hid)
  · intro y hy
    rcases List.mem_cons.1 hy with rfl | hy
    · omega
    · have := h.lt y hy
      omega
  · refine List.pairwise_cons.2 ⟨fun y hy hyx => ?_, h.pinned⟩
    rcases hb with hb | hb
    · exact hb
    · exact absurd hyx.symm (by simpa using List.find?_eq_none.1 hb y hy)

theorem find_cons {c' : GefsCache} {b : GefsBlk} (he : c'.blks = b :: c.blks) (x : Int64) :
    c'.find x = if b.bp.addr = x then some b else c.find x := by
  simp only [GefsCache.find, he, List.find?_cons]
  by_cases h : b.bp.addr = x <;> simp [h]

end Cache

/-! ## Reads -/

/-- `ctx'` is `ctx` after some reads. -/
structure Keeps (ctx ctx' : GefsCtx) : Prop where
  rest : ctx' = { ctx with cache := ctx'.cache, nblk := ctx'.nblk }
  ok : CtxOk ctx'
  held : ∀ x Q, Held ctx x Q → Held ctx' x Q
  pinned : ∀ x Q, Pinned ctx x Q → Pinned ctx' x Q

theorem Keeps.refl {ctx : GefsCtx} (h : CtxOk ctx) : Keeps ctx ctx :=
  ⟨rfl, h, fun _ _ h => h, fun _ _ h => h⟩

theorem Keeps.trans {ctx ctx' ctx'' : GefsCtx} (h : Keeps ctx ctx') (h' : Keeps ctx' ctx'') :
    Keeps ctx ctx'' := by
  refine ⟨?_, h'.ok, fun x Q hx => h'.held x Q (h.held x Q hx),
    fun x Q hx => h'.pinned x Q (h.pinned x Q hx)⟩
  rw [h'.rest, h.rest]

section KeepsFields

variable {ctx ctx' : GefsCtx} (h : Keeps ctx ctx')
include h

theorem Keeps.disk : ctx'.disk = ctx.disk := by rw [h.rest]
theorem Keeps.sb : ctx'.sb = ctx.sb := by rw [h.rest]
theorem Keeps.snapTree : ctx'.snapTree = ctx.snapTree := by rw [h.rest]
theorem Keeps.activeTree : ctx'.activeTree = ctx.activeTree := by rw [h.rest]
theorem Keeps.arenas : ctx'.arenas = ctx.arenas := by rw [h.rest]
theorem Keeps.dirty : ctx'.dirty = ctx.dirty := by rw [h.rest]
theorem Keeps.readonly : ctx'.readonly = ctx.readonly := by rw [h.rest]
theorem Keeps.heap : ctx'.heap = ctx.heap := by rw [h.rest]

end KeepsFields

/-- A block read and dropped again. -/
def touchBlk (ctx : GefsCtx) (bp : GefsBptr) : Option GefsBlk × GefsCtx :=
  match gefsGetblk ctx bp with
  | (none, ctx) => (none, ctx)
  | (some b, ctx) => (some b, gefsDropblk ctx b)

/-- The three ways a read can go, seen once the block is dropped. -/
theorem touchBlk_cases (ctx : GefsCtx) (bp : GefsBptr) (hok : CtxOk ctx) :
    (∃ b lru, ctx.cache.find bp.addr = some b
      ∧ touchBlk ctx bp = (some { b with ref := b.ref + 1 },
        { ctx with cache := { ctx.cache with lru := lru } }))
    ∨ (ctx.cache.find bp.addr = none ∧ ctx.disk.pread bp.addr = none
      ∧ touchBlk ctx bp = (none, { ctx with cache := ctx.cache.evict }))
    ∨ (∃ m b c, ctx.cache.find bp.addr = none ∧ ctx.disk.pread bp.addr = some m
      ∧ b.toContent = parseBlk (withTail m (ctx.heap ctx.nblk)) ∧ b.id = ctx.nblk ∧ b.bp = bp
      ∧ c.blks = { b with ref := 0 } :: ctx.cache.evict.blks
      ∧ touchBlk ctx bp = (some b, { ctx with cache := c, nblk := ctx.nblk + 1 })) := by
  unfold touchBlk gefsGetblk
  rcases hf : ctx.cache.find bp.addr with _ | b
  · rcases hp : ctx.disk.pread bp.addr with _ | m
    · exact .inr (.inl ⟨rfl, rfl, rfl⟩)
    · refine .inr (.inr ⟨m, _, _, rfl, rfl, ?_, ?_, ?_, ?_, rfl⟩)
      · rfl
      · rfl
      · rfl
      · have hne : ∀ y ∈ ctx.cache.evict.blks, y.id ≠ ctx.nblk := fun y hy =>
          (hok.evict.lt y hy).ne
        have := blks_setRef_of_ne (f := (· - 1)) hne
        simp only [GefsCache.setRef] at this
        simp only [GefsCache.setRef, GefsCache.insert, List.map_cons, if_true, Nat.sub_self, this]
  · refine .inl ⟨b, b.id :: ctx.cache.lru.erase b.id, rfl, ?_⟩
    have hb := blks_setRef_setRef ctx.cache b.id
    simp only [GefsCache.setRef] at hb
    simp only [gefsDropblk, GefsCache.setRef, hb]

/-- `ctx'` is `ctx` after a read: a block that nothing holds may be gone, and the block read may
be new. -/
inductive Touched (ctx ctx' : GefsCtx) : Prop
  | shed (hrest : ctx' = { ctx with cache := ctx'.cache })
      (hs : Shed ctx.cache.blks ctx'.cache.blks)
  | read {m : Mem} {b : GefsBlk} {bs : List GefsBlk}
      (hrest : ctx' = { ctx with cache := ctx'.cache, nblk := ctx.nblk + 1 })
      (hs : Shed ctx.cache.blks bs) (hbs : ctx'.cache.blks = b :: bs) (href : b.ref = 0)
      (hid : b.id = ctx.nblk) (hfind : ctx.cache.find b.bp.addr = none)
      (hm : ctx.disk.pread b.bp.addr = some m)
      (hc : b.toContent = parseBlk (withTail m (ctx.heap ctx.nblk)))

/-- What is held is not gone. -/
theorem Pinned.shed {ctx ctx' : GefsCtx} {x : Int64} {Q : Content → Prop} (hok : CtxOk ctx)
    (hs : Shed ctx.cache.blks ctx'.cache.blks) (h : Pinned ctx x Q) : Pinned ctx' x Q := by
  obtain ⟨b, hb, hr, hq⟩ := h
  rcases find_shed hok hs x with h | ⟨-, v, hv, h0⟩
  · exact ⟨b, h.trans hb, hr, hq⟩
  · obtain rfl : b = v := Option.some.inj (hb.symm.trans hv)
    omega

theorem Touched.keeps {ctx ctx' : GefsCtx} (hok : CtxOk ctx) (h : Touched ctx ctx') :
    Keeps ctx ctx' := by
  cases h with
  | shed hrest hs =>
    have hdisk : ctx'.disk = ctx.disk ∧ ctx'.heap = ctx.heap ∧ ctx'.nblk = ctx.nblk := by
      rw [hrest]
      exact ⟨rfl, rfl, rfl⟩
    obtain ⟨hd, hh, hn⟩ := hdisk
    refine ⟨by rw [hn]; exact hrest, ?_, fun x Q h => ?_, fun x Q h => h.shed hok hs⟩
    · show CacheOk ctx'.cache ctx'.nblk
      rw [hn]
      exact CacheOk.shed hok hs
    · rcases h with h | ⟨h1, h2⟩
      · exact .inl (h.shed hok hs)
      · refine .inr ⟨fun b hb => ?_, by rw [hd, hh]; exact h2⟩
        rcases find_shed hok hs x with h | ⟨h, -⟩
        · exact h1 b (h.symm.trans hb)
        · exact absurd (h.symm.trans hb) (by simp)
  | @read m b bs hrest hs hbs href hid hfind hm hc =>
    have hdisk : ctx'.disk = ctx.disk ∧ ctx'.heap = ctx.heap ∧ ctx'.nblk = ctx.nblk + 1 := by
      rw [hrest]
      exact ⟨rfl, rfl, rfl⟩
    obtain ⟨hd, hh, hn⟩ := hdisk
    obtain ⟨c1, hc1⟩ : ∃ c1 : GefsCache, c1.blks = bs := ⟨⟨bs, [], 0⟩, rfl⟩
    rw [← hc1] at hs hbs
    have hfe : c1.find b.bp.addr = none := by
      rcases find_shed hok hs b.bp.addr with h | ⟨h, -⟩
      · exact h.trans hfind
      · exact h
    have hfc := find_cons hbs
    have hpin : ∀ x Q, Pinned ctx x Q → Pinned ctx' x Q := by
      intro x Q h
      have hx : b.bp.addr ≠ x := by
        rintro rfl
        obtain ⟨b', hb', -⟩ := h
        exact absurd (hfind.symm.trans hb') (by simp)
      obtain ⟨b', hb', hr, hq⟩ := @Pinned.shed _ { ctx with cache := c1 } _ _ hok hs h
      exact ⟨b', by rw [hfc, if_neg hx]; exact hb', hr, hq⟩
    refine ⟨by rw [hn]; exact hrest, ?_, fun x Q h => ?_, hpin⟩
    · show CacheOk ctx'.cache ctx'.nblk
      rw [hn]
      exact (CacheOk.shed hok hs).cons hid (.inr hfe) hbs
    · rcases h with h | ⟨h1, m', h2, h3⟩
      · exact .inl (hpin x Q h)
      · refine .inr ⟨fun b' hb' => ?_, m', by rw [hd]; exact h2, by rw [hh]; exact h3⟩
        rw [hfc] at hb'
        split_ifs at hb' with hx
        · subst hx
          obtain rfl := Option.some.inj hb'
          obtain rfl : m = m' := Option.some.inj (hm.symm.trans h2)
          rw [hc]
          exact h3 _
        · rcases find_shed hok hs x with h | ⟨h, -⟩
          · exact h1 b' (h.symm.trans hb')
          · exact absurd (h.symm.trans hb') (by simp)

theorem touched_touchBlk {ctx : GefsCtx} (hok : CtxOk ctx) (bp : GefsBptr) :
    Touched ctx (touchBlk ctx bp).2 := by
  rcases touchBlk_cases ctx bp hok with ⟨b, lru, hf, he⟩ | ⟨hf, hp, he⟩
    | ⟨m, b, c, hf, hp, hc, hid, hbp, hbl, he⟩ <;> rw [he]
  · exact .shed rfl (.inl rfl)
  · exact .shed rfl (shed_evict _)
  · subst hbp
    exact .read (b := { b with ref := 0 }) rfl (shed_evict _) hbl rfl hid hf hp hc

/-- A read keeps what is held, and finds it. -/
theorem touchBlk_spec {ctx : GefsCtx} (hok : CtxOk ctx) (bp : GefsBptr) :
    Keeps ctx (touchBlk ctx bp).2
      ∧ ∀ Q, Held ctx bp.addr Q → ∃ b, (touchBlk ctx bp).1 = some b ∧ Q b.toContent := by
  refine ⟨(touched_touchBlk hok bp).keeps hok, fun Q hQ => ?_⟩
  rcases touchBlk_cases ctx bp hok with ⟨b, lru, hf, he⟩ | ⟨hf, hp, he⟩
    | ⟨m, b, c, hf, hp, hc, hid, hbp, hbl, he⟩ <;> rw [he]
  · refine ⟨_, rfl, ?_⟩
    rcases hQ with ⟨b', hb', -, h⟩ | ⟨h, -⟩
    · obtain rfl : b = b' := Option.some.inj (hf.symm.trans hb')
      exact h
    · exact h b hf
  · rcases hQ with ⟨b, hb, -⟩ | ⟨-, m, hm, -⟩
    · exact absurd (hf.symm.trans hb) (by simp)
    · exact absurd (hp.symm.trans hm) (by simp)
  · refine ⟨b, rfl, ?_⟩
    rcases hQ with ⟨b', hb', -⟩ | ⟨-, m', hm', h⟩
    · exact absurd (hf.symm.trans hb') (by simp)
    · obtain rfl : m = m' := Option.some.inj (hp.symm.trans hm')
      rw [hc]
      exact h _

theorem find_setRef (c : GefsCache) (id : ℕ) (f : ℕ → ℕ) (x : Int64) :
    (c.setRef id f).find x
      = (c.find x).map fun b => if b.id = id then { b with ref := f b.ref } else b := by
  simp only [GefsCache.find, GefsCache.setRef, List.find?_map]
  congr 2
  funext b
  simp only [Function.comp_apply]
  split_ifs <;> rfl

/-- A block held once more. -/
theorem keeps_gefsHoldblk {ctx : GefsCtx} (hok : CtxOk ctx) (b : GefsBlk) :
    Keeps ctx (gefsHoldblk ctx b) := by
  have hpin : ∀ x Q, Pinned ctx x Q → Pinned (gefsHoldblk ctx b) x Q := by
    rintro x Q ⟨y, hy, hr, hq⟩
    refine ⟨if y.id = b.id then { y with ref := y.ref + 1 } else y,
      (find_setRef _ _ _ _).trans (by rw [hy]; rfl), ?_, ?_⟩
    · split_ifs
      · exact Nat.le_add_left 1 _
      · exact hr
    · split_ifs <;> exact hq
  refine ⟨rfl, ⟨?_, ?_, ?_⟩, fun x Q h => ?_, hpin⟩
  · have : (gefsHoldblk ctx b).cache.blks.map (·.id) = ctx.cache.blks.map (·.id) := by
      simp only [gefsHoldblk, GefsCache.setRef, List.map_map]
      refine List.map_congr_left fun y _ => ?_
      simp only [Function.comp_apply]
      split_ifs <;> rfl
    rw [this]
    exact hok.nodup
  · intro y hy
    simp only [gefsHoldblk, GefsCache.setRef, List.mem_map] at hy
    obtain ⟨z, hz, rfl⟩ := hy
    split_ifs <;> exact hok.lt z hz
  · simp only [gefsHoldblk, GefsCache.setRef, List.pairwise_map]
    refine hok.pinned.imp fun {y z} hyz he => ?_
    have he' : y.bp.addr = z.bp.addr := by split_ifs at he <;> exact he
    split_ifs
    · exact Nat.le_add_left 1 _
    · exact hyz he'
  · rcases h with h | ⟨h1, h2⟩
    · exact .inl (hpin x Q h)
    · refine .inr ⟨fun y hy => ?_, h2⟩
      have hy' := (find_setRef _ _ _ _).symm.trans hy
      obtain ⟨z, hz, rfl⟩ := Option.map_eq_some_iff.1 hy'
      split_ifs <;> exact h1 z hz

theorem gefsDropblk_gefsHoldblk (ctx : GefsCtx) (b : GefsBlk) :
    gefsDropblk (gefsHoldblk ctx b) b = ctx := by
  have h := blks_setRef_setRef ctx.cache b.id
  simp only [GefsCache.setRef] at h
  simp only [gefsDropblk, gefsHoldblk, GefsCache.setRef, h]

/-- A read is a read dropped and held again. -/
theorem gefsGetblk_eq (ctx : GefsCtx) (bp : GefsBptr) (hok : CtxOk ctx) :
    gefsGetblk ctx bp = match touchBlk ctx bp with
      | (none, ctx) => (none, ctx)
      | (some b, ctx) => (some b, gefsHoldblk ctx b) := by
  unfold touchBlk gefsGetblk
  rcases hf : ctx.cache.find bp.addr with _ | b
  · rcases hp : ctx.disk.pread bp.addr with _ | m
    · rfl
    · have hne : ∀ y ∈ ctx.cache.evict.blks, y.id ≠ ctx.nblk := fun y hy =>
        (hok.evict.lt y hy).ne
      have h1 := blks_setRef_of_ne (f := (· - 1)) hne
      have h2 := blks_setRef_of_ne (f := (· + 1)) hne
      simp only [GefsCache.setRef] at h1 h2
      simp only [gefsDropblk, gefsHoldblk, GefsCache.setRef, GefsCache.insert, List.map_cons,
        if_true, Nat.sub_self, h1, h2, Nat.zero_add]
  · have hb := blks_setRef_setRef ctx.cache b.id
    simp only [GefsCache.setRef] at hb
    simp only [gefsDropblk, gefsHoldblk, GefsCache.setRef, hb]

/-- A block read and held. -/
theorem gefsGetblk_spec {ctx : GefsCtx} (hok : CtxOk ctx) (bp : GefsBptr) :
    Keeps ctx (gefsGetblk ctx bp).2
      ∧ ∀ Q, Held ctx bp.addr Q → ∃ b, (gefsGetblk ctx bp).1 = some b ∧ Q b.toContent := by
  obtain ⟨hk, hq⟩ := touchBlk_spec hok bp
  rw [gefsGetblk_eq ctx bp hok]
  rcases ht : touchBlk ctx bp with ⟨_ | b, ctx1⟩ <;> rw [ht] at hk hq
  · exact ⟨hk, hq⟩
  · exact ⟨hk.trans (keeps_gefsHoldblk hk.ok b), hq⟩

/-! ## Writes -/

/-- The blocks at `x` and `a` do not overlap. -/
def Apart (x a : Int64) : Prop :=
  x.toInt + gefsBlksz ≤ a.toInt ∨ a.toInt + gefsBlksz ≤ x.toInt

instance (x a : Int64) : Decidable (Apart x a) := inferInstanceAs (Decidable (_ ∨ _))

theorem Apart.ne {x a : Int64} (h : Apart x a) : x ≠ a := by
  have hbs : gefsBlksz = 16384 := rfl
  rintro rfl
  unfold Apart at h
  omega

/-- A write is not seen in a block it does not overlap. -/
theorem pread_pwrite_of_apart {d : Disk} {x a : Int64} {buf m : Mem} (h : Apart x a)
    (hm : d.pread x = some m) :
    ∃ m', (d.pwrite a buf).pread x = some m' ∧ ∀ i < gefsBlksz, m' i = m i := by
  unfold Disk.pread at hm
  simp only [Option.ite_none_right_eq_some, Option.some.injEq] at hm
  obtain ⟨⟨h0, hs⟩, rfl⟩ := hm
  unfold Disk.pwrite
  split_ifs with ha
  · refine ⟨_, if_pos ⟨h0, hs.trans (le_max_left _ _)⟩, fun i hi => ?_⟩
    simp only [Disk.window]
    rw [if_neg]
    unfold Apart at h
    omega
  · exact ⟨_, if_pos ⟨h0, hs⟩, fun i _ => rfl⟩

theorem pread_pwrite_self {d : Disk} {a : Int64} {buf : Mem} (h : 0 ≤ a.toInt) :
    ∃ m, (d.pwrite a buf).pread a = some m ∧ ∀ i < gefsBlksz, m i = buf i := by
  unfold Disk.pwrite
  rw [if_pos h]
  refine ⟨_, if_pos ⟨h, le_max_right _ _⟩, fun i hi => ?_⟩
  simp only [Disk.window]
  rw [if_pos ⟨by omega, by omega⟩]
  congr 1
  omega

/-- The block at `x` holds `buf`. -/
def Disk.Has (d : Disk) (x : Int64) (buf : Mem) : Prop :=
  ∃ m, d.pread x = some m ∧ ∀ i < gefsBlksz, m i = buf i

theorem Disk.Has.pwrite {d : Disk} {x a : Int64} {buf buf' : Mem} (h : d.Has x buf)
    (hx : Apart x a) : (d.pwrite a buf').Has x buf := by
  obtain ⟨m, h1, h2⟩ := h
  obtain ⟨m', h3, h4⟩ := pread_pwrite_of_apart hx h1
  exact ⟨m', h3, fun i hi => (h4 i hi).trans (h2 i hi)⟩

theorem has_pwrite_self {d : Disk} {a : Int64} {buf : Mem} (h : 0 ≤ a.toInt) :
    (d.pwrite a buf).Has a buf :=
  pread_pwrite_self h

theorem withTail_congr {m m' : Mem} (h : ∀ i < gefsBlksz, m' i = m i) (tail : Mem) :
    withTail m' tail = withTail m tail := by
  funext i
  unfold withTail
  split_ifs with hi
  · exact h i hi
  · rfl

theorem Held.of_disk {ctx ctx' : GefsCtx} {x : Int64} {Q : Content → Prop} (h : Held ctx x Q)
    (hf : ctx'.cache.find x = ctx.cache.find x) (hh : ctx'.heap = ctx.heap)
    (hd : ∀ m, ctx.disk.pread x = some m →
      ∃ m', ctx'.disk.pread x = some m' ∧ ∀ i < gefsBlksz, m' i = m i) : Held ctx' x Q := by
  rcases h with ⟨b, h1, h2, h3⟩ | ⟨h1, m, h2, h3⟩
  · exact .inl ⟨b, hf.trans h1, h2, h3⟩
  · obtain ⟨m', hm', he⟩ := hd m h2
    refine .inr ⟨fun b hb => h1 b (hf.symm.trans hb), m', hm', fun i => ?_⟩
    rw [withTail_congr he, hh]
    exact h3 i

theorem LeafBytes.withTail {es : List GefsKvp} {m : Mem} (h : LeafBytes es m) (tail : Mem) :
    LeafBytes es (withTail m tail) :=
  h.congr fun _ hi => if_pos hi

/-- A leaf on the disk, where the cache has no block of its address. -/
theorem held_of_leafBytes {ctx : GefsCtx} {x : Int64} {es : List GefsKvp} {buf : Mem}
    (hf : ctx.cache.find x = none) (hm : ctx.disk.Has x buf) (hl : LeafBytes es buf) :
    Held ctx x (IsLeaf es) := by
  obtain ⟨m, hm, hmb⟩ := hm
  exact .inr ⟨fun b hb => absurd (hf.symm.trans hb) (by simp), m, hm,
    fun i => isLeaf_parseBlk ((hl.congr hmb).withTail (ctx.heap i))⟩

/-- `d` just opened, with one arena with one free block at `a` and `t` as the active tree. -/
def diskCtx (d : Disk) (a : Int64) (t : GefsTree) : GefsCtx :=
  { disk := d
    sb := ⟨16384, 0, 1, zeroTree, 0, 0, 0, 0, []⟩
    cache := gefsCacheInit 4096
    snapTree := zeroTree
    activeTree := t
    arenas := [⟨0, 0, 0, ⟨0, 0, 0⟩, [⟨a, 16384⟩]⟩]
    dirty := false
    readonly := false
    heap := fun _ _ => 0
    nblk := 0 }

theorem diskCtx_ok (d : Disk) (a : Int64) (t : GefsTree) : CtxOk (diskCtx d a t) :=
  ⟨List.nodup_nil, by simp [diskCtx, gefsCacheInit], .nil⟩

theorem held_diskCtx {d : Disk} {a x : Int64} {t : GefsTree} {Q : Content → Prop} {m : Mem}
    (hm : d.pread x = some m) (hQ : Q (parseBlk (withTail m fun _ => 0))) :
    Held (diskCtx d a t) x Q := by
  refine .inr ⟨fun b hb => ?_, m, hm, fun _ => hQ⟩
  have hnone : (diskCtx d a t).cache.find x = none := rfl
  rw [hnone] at hb
  simp at hb

section WriteBlk

variable {ctx : GefsCtx} {b : GefsBlk} {x : Int64} {Q : Content → Prop}

theorem find_writeBlk (ctx : GefsCtx) (b : GefsBlk) (x : Int64) :
    (writeBlk ctx b).cache.find x
      = if b.bp.addr = x then some { b with ref := 1 } else ctx.cache.find x :=
  find_cons (c := ctx.cache) (b := { b with ref := 1 }) rfl x

theorem ctxOk_writeBlk (h : CtxOk ctx) (hid : b.id = ctx.nblk) : CtxOk (writeBlk ctx b) :=
  h.cons (b := { b with ref := 1 }) hid (.inl le_rfl) rfl

theorem pinned_writeBlk_self (hQ : Q b.toContent) : Pinned (writeBlk ctx b) b.bp.addr Q :=
  ⟨{ b with ref := 1 }, by rw [find_writeBlk, if_pos rfl], le_rfl, hQ⟩

theorem Pinned.writeBlk (h : Pinned ctx x Q) (hx : x ≠ b.bp.addr) :
    Pinned (writeBlk ctx b) x Q := by
  obtain ⟨b', h1, h2, h3⟩ := h
  exact ⟨b', by rw [find_writeBlk, if_neg hx.symm, h1], h2, h3⟩

theorem Held.writeBlk (h : Held ctx x Q) (hx : Apart x b.bp.addr) : Held (writeBlk ctx b) x Q :=
  h.of_disk (by rw [find_writeBlk, if_neg hx.ne.symm]) rfl fun _ hm => pread_pwrite_of_apart hx hm

end WriteBlk

/-! ## A leaf written and read back -/

section RoundTrip

variable {es : List GefsKvp} {b w : GefsBlk} {ctx : GefsCtx} {bp : GefsBptr}

theorem gefsGetblk_of_find {c : GefsBlk} (h : ctx.cache.find bp.addr = some c) :
    (gefsGetblk ctx bp).1 = some { c with ref := c.ref + 1 } := by
  simp only [gefsGetblk, h]

theorem gefsGetblk_of_pread {m : Mem} (h : ctx.cache.find bp.addr = none)
    (hm : ctx.disk.pread bp.addr = some m) :
    (gefsGetblk ctx bp).1 = some { parseBlk (withTail m (ctx.heap ctx.nblk)) with
      id := ctx.nblk, bp := bp, ref := 1 } := by
  simp only [gefsGetblk, h, hm]

/-- `r` holds what `b` does, and its entries are `es`. -/
def ReadsBack (es : List GefsKvp) (b : GefsBlk) (r : Content) : Prop :=
  r.type = gefsTleaf ∧ r.nval = b.nval ∧ r.valsz = b.valsz ∧ b.nval = es.length
    ∧ ∀ i, (h : i < es.length) → gefsGetval r i = es[i]

theorem readsBack_blkFinalize (hb : Filled es b) (hf : Fits es) :
    ReadsBack es b (blkFinalize b).toContent := by
  obtain ⟨-, h⟩ := leafBytes_blkFinalize hb hf
  refine ⟨h.type, ?_, ?_, hb.nval, h.getval⟩
  · rw [h.nval, hb.nval]
  · rw [blkFinalize_leaf hb.type]

theorem readsBack_parseBlk (hb : Filled es b) {m : Mem} (hl : LeafBytes es m)
    (hv : At m 4 (pack16 (valsSize es))) : ReadsBack es b (parseBlk m) := by
  have h := isLeaf_parseBlk hl
  refine ⟨h.type, ?_, ?_, hb.nval, h.getval⟩
  · rw [hb.nval]
    exact h.nval
  · rw [hb.valsz]
    exact valsz_parseBlk hl hv

/-- What is read back of a leaf that was written, whichever block it was in. -/
theorem readsBack_written {ctx' : GefsCtx} (hb : Filled es b)
    (hl : LeafBytes es w.buf) (hv : At w.buf 4 (pack16 (valsSize es)))
    (hd : ctx'.disk.Has bp.addr w.buf) (hfind : ctx'.cache.find bp.addr = none) :
    ∃ r, (gefsGetblk ctx' bp).1 = some r ∧ ReadsBack es b r.toContent := by
  obtain ⟨m, hm, hmb⟩ := hd
  refine ⟨_, gefsGetblk_of_pread hfind hm, ?_⟩
  have hlw := (hl.congr hmb).withTail (ctx'.heap ctx'.nblk)
  refine readsBack_parseBlk hb hlw (hv.congr fun i hi => ?_)
  rw [length_pack16] at hi
  have hlt : 4 + i < gefsBlksz := by
    have hbs : gefsBlksz = 16384 := rfl
    omega
  rw [withTail, if_pos hlt]
  exact hmb _ hlt

theorem readsBack_gefsGetblk (hb : Filled es b) (hf : Fits es) (ha : 0 ≤ b.bp.addr.toInt)
    (hc : ∀ c, ctx.cache.find b.bp.addr = some c →
      c.toContent = (blkFinalize b).toContent) :
    ∃ r, (gefsGetblk (blkFinalizeAndWrite ctx b).2 (blkFinalizeAndWrite ctx b).1.bp).1 = some r
      ∧ ReadsBack es b r.toContent := by
  have haddr : (blkFinalize b).bp.addr = b.bp.addr := by
    simp only [blkFinalize_leaf hb.type]
  have hl := (leafBytes_blkFinalize hb hf).1
  have hv : At (blkFinalize b).buf 4 (pack16 (valsSize es)) := by
    rw [blkFinalize_leaf hb.type]
    exact valsz_leafBuf hb
  have hrb := readsBack_blkFinalize hb hf
  unfold blkFinalizeAndWrite
  simp only []
  generalize blkFinalize b = w at *
  have ha' : 0 ≤ w.bp.addr.toInt := by rw [haddr]; exact ha
  rcases Option.eq_none_or_eq_some (ctx.cache.find w.bp.addr) with hfind | ⟨c, hfind⟩
  · have hd : (ctx.disk.pwrite w.bp.addr w.buf).Has w.bp.addr w.buf := has_pwrite_self ha'
    generalize ctx.disk.pwrite w.bp.addr w.buf = d at *
    exact @readsBack_written es b w w.bp { ctx with disk := d } hb hl hv hd hfind
  · generalize ctx.disk.pwrite w.bp.addr w.buf = d
    refine ⟨_, @gefsGetblk_of_find { ctx with disk := d } w.bp c hfind, ?_⟩
    rw [haddr] at hfind
    have hcw := hc c hfind
    show ReadsBack es b c.toContent
    rw [hcw]
    exact hrb

end RoundTrip

end GefsFuse
