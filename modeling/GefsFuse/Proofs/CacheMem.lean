import GefsFuse.CacheMem
import GefsFuse.Upsert

/-!
# The cache's lists stay well formed

`CacheMem.Ok c l` says that the LRU list is `l`, that the chain of each bucket has the blocks of `l`
whose address falls in it, that no address is there twice and that `count` is the length. Every
operation keeps it, and no block with a count above 0 leaves `l` (`cacheRun_ok`).
-/

namespace GefsFuse

open Links

namespace CacheMem

variable {c c' : CacheMem} {l l' as bs : List ℕ} {b i : ℕ} {p v : Option ℕ} {addr : Int64}

/-- The LRU list. -/
def links (c : CacheMem) : Dll ℕ :=
  ⟨c.chead, c.ctail, fun i => (c.blk i).cprev, fun i => (c.blk i).cnext⟩

/-- `ch` is the chain of bucket `h`: the blocks of `l` that belong there. -/
structure BucketOk (c : CacheMem) (l : List ℕ) (h : ℕ) (ch : List ℕ) : Prop where
  chain : Chain (fun i => (c.blk i).hnext) (c.buckets h) ch
  nodup : ch.Nodup
  mem : ∀ i, i ∈ ch ↔ i ∈ l ∧ cacheHash (c.blk i).addr = h

/-- The cache holds the blocks `l`, the one used last first. -/
structure Ok (c : CacheMem) (l : List ℕ) : Prop where
  lru : c.links.Is l
  buckets : ∀ h, ∃ ch, c.BucketOk l h ch
  addr : ∀ i ∈ l, ∀ j ∈ l, (c.blk i).addr = (c.blk j).addr → i = j
  count : c.count = l.length
  brk : ∀ i ∈ l, i < c.brk

/-! ## Fields -/

@[simp] theorem set_none (c : CacheMem) (f : CacheBlk → CacheBlk) : c.set none f = c := rfl

theorem blk_set (c : CacheMem) (p : Option ℕ) (f : CacheBlk → CacheBlk) (i : ℕ) :
    (c.set p f).blk i = if p = some i then f (c.blk i) else c.blk i := by
  rcases p with _ | j
  · simp
  · by_cases h : j = i
    · subst h
      simp [set]
    · simp [set, h, Function.update_of_ne (Ne.symm h)]

/-- The operations on the LRU list leave the rest of the cache. -/
structure SameChains (c c' : CacheMem) : Prop where
  addr : ∀ i, (c'.blk i).addr = (c.blk i).addr
  ref : ∀ i, (c'.blk i).ref = (c.blk i).ref
  hnext : ∀ i, (c'.blk i).hnext = (c.blk i).hnext
  buckets : c'.buckets = c.buckets
  count : c'.count = c.count
  max : c'.max = c.max
  brk : c'.brk = c.brk

theorem SameChains.trans {c'' : CacheMem} (h : SameChains c c') (h' : SameChains c' c'') :
    SameChains c c'' :=
  ⟨fun i => (h'.addr i).trans (h.addr i), fun i => (h'.ref i).trans (h.ref i),
    fun i => (h'.hnext i).trans (h.hnext i), h'.buckets.trans h.buckets, h'.count.trans h.count,
    h'.max.trans h.max, h'.brk.trans h.brk⟩

theorem sameChains_set {f : CacheBlk → CacheBlk}
    (hf : ∀ b, (f b).addr = b.addr ∧ (f b).ref = b.ref ∧ (f b).hnext = b.hnext) :
    SameChains c (c.set p f) := by
  have hb : ∀ i, ((c.set p f).blk i).addr = (c.blk i).addr
      ∧ ((c.set p f).blk i).ref = (c.blk i).ref
      ∧ ((c.set p f).blk i).hnext = (c.blk i).hnext := fun i => by
    rw [blk_set]
    split_ifs
    · exact hf _
    · exact ⟨rfl, rfl, rfl⟩
  refine ⟨fun i => (hb i).1, fun i => (hb i).2.1, fun i => (hb i).2.2, ?_, ?_, ?_, ?_⟩ <;>
    cases p <;> rfl

theorem SameChains.setCprev (h : SameChains c c') : SameChains c (c'.setCprev p v) :=
  h.trans (sameChains_set fun _ => ⟨rfl, rfl, rfl⟩)

theorem SameChains.setCnext (h : SameChains c c') : SameChains c (c'.setCnext p v) :=
  h.trans (sameChains_set fun _ => ⟨rfl, rfl, rfl⟩)

theorem SameChains.setChead (h : SameChains c c') : SameChains c (c'.setChead v) :=
  ⟨h.addr, h.ref, h.hnext, h.buckets, h.count, h.max, h.brk⟩

theorem SameChains.setCtail (h : SameChains c c') : SameChains c (c'.setCtail v) :=
  ⟨h.addr, h.ref, h.hnext, h.buckets, h.count, h.max, h.brk⟩

theorem links_setCprev (c : CacheMem) (p v : Option ℕ) :
    (c.setCprev p v).links = c.links.setPrev p v := by
  rcases p with _ | j
  · rfl
  · unfold links setCprev set Dll.setPrev
    simp only [Option.elim_some, Dll.mk.injEq, true_and]
    constructor <;> funext i <;> by_cases h : i = j
    · subst h
      simp
    · simp [Function.update_of_ne h]
    · subst h
      simp
    · simp [Function.update_of_ne h]

theorem links_setCnext (c : CacheMem) (p v : Option ℕ) :
    (c.setCnext p v).links = c.links.setNext p v := by
  rcases p with _ | j
  · rfl
  · unfold links setCnext set Dll.setNext
    simp only [Option.elim_some, Dll.mk.injEq, true_and]
    constructor <;> funext i <;> by_cases h : i = j
    · subst h
      simp
    · simp [Function.update_of_ne h]
    · subst h
      simp
    · simp [Function.update_of_ne h]

@[simp] theorem links_setChead (c : CacheMem) (v : Option ℕ) :
    (c.setChead v).links = { c.links with head := v } := rfl

@[simp] theorem links_setCtail (c : CacheMem) (v : Option ℕ) :
    (c.setCtail v).links = { c.links with tail := v } := rfl

theorem cprev_eq (c : CacheMem) (i : ℕ) : (c.blk i).cprev = c.links.prev i := rfl

theorem cnext_eq (c : CacheMem) (i : ℕ) : (c.blk i).cnext = c.links.next i := rfl

theorem chead_eq (c : CacheMem) : c.chead = c.links.head := rfl

theorem ctail_eq (c : CacheMem) : c.ctail = c.links.tail := rfl

/-! ## The LRU list -/

theorem links_lruTop (c : CacheMem) (b : ℕ) : (c.lruTop b).links = c.links.toFront b := by
  unfold lruTop Dll.toFront Dll.pushFront Dll.unlink
  rw [chead_eq]
  split_ifs with h
  · rfl
  · simp only [cprev_eq, cnext_eq, chead_eq, ctail_eq, links_setCprev, links_setCnext,
      links_setChead, links_setCtail]

theorem links_lruRemove (c : CacheMem) (b : ℕ) : (c.lruRemove b).links = c.links.remove b := by
  unfold lruRemove Dll.remove Dll.unlink
  simp only [cprev_eq, cnext_eq, chead_eq, ctail_eq, links_setCprev, links_setCnext,
    links_setChead, links_setCtail]

theorem SameChains.refl (c : CacheMem) : SameChains c c :=
  ⟨fun _ => rfl, fun _ => rfl, fun _ => rfl, rfl, rfl, rfl, rfl⟩

theorem sameChains_lruTop (c : CacheMem) (b : ℕ) : SameChains c (c.lruTop b) := by
  unfold lruTop
  split_ifs
  · exact .refl c
  · exact (SameChains.refl c).setCnext.setCprev.setCtail.setCprev.setCnext.setCprev.setChead.setCtail

theorem sameChains_lruRemove (c : CacheMem) (b : ℕ) : SameChains c (c.lruRemove b) :=
  (SameChains.refl c).setCnext.setCprev.setChead.setCtail.setCprev.setCnext

theorem BucketOk.congr {h : ℕ} {ch : List ℕ} (hb : c.BucketOk l h ch) (hl : ∀ i, i ∈ l' ↔ i ∈ l)
    (ha : ∀ i, (c'.blk i).addr = (c.blk i).addr) (hn : ∀ i, (c'.blk i).hnext = (c.blk i).hnext)
    (hbk : c'.buckets = c.buckets) : c'.BucketOk l' h ch :=
  ⟨by rw [hbk]; exact hb.chain.congr fun j _ => hn j, hb.nodup,
    fun i => by rw [hb.mem, hl, ha]⟩

/-- The same blocks in another order. -/
theorem Ok.of_perm (h : c.Ok l) (hl : c'.links.Is l') (hp : l'.Perm l)
    (ha : ∀ i, (c'.blk i).addr = (c.blk i).addr) (hn : ∀ i, (c'.blk i).hnext = (c.blk i).hnext)
    (hbk : c'.buckets = c.buckets) (hc : c'.count = c.count) (hr : c'.brk = c.brk) : c'.Ok l' := by
  refine ⟨hl, fun k => ?_, fun i hi j hj he => ?_, ?_, fun i hi => ?_⟩
  · obtain ⟨ch, hch⟩ := h.buckets k
    exact ⟨ch, hch.congr (fun i => hp.mem_iff) ha hn hbk⟩
  · rw [ha, ha] at he
    exact h.addr i (hp.mem_iff.1 hi) j (hp.mem_iff.1 hj) he
  · rw [hc, h.count, hp.length_eq]
  · rw [hr]
    exact h.brk i (hp.mem_iff.1 hi)

theorem Ok.lruTop (h : c.Ok (as ++ b :: bs)) : (c.lruTop b).Ok (b :: (as ++ bs)) := by
  have hs := sameChains_lruTop c b
  refine h.of_perm ?_ List.perm_middle.symm hs.addr hs.hnext hs.buckets hs.count hs.brk
  rw [links_lruTop]
  exact h.lru.toFront

/-! ## Counts -/

theorem links_setRef (c : CacheMem) (p : Option ℕ) (f : ℕ → ℕ) : (c.setRef p f).links = c.links := by
  rcases p with _ | j
  · rfl
  · unfold links setRef set
    simp only [Option.elim_some, Dll.mk.injEq, true_and]
    constructor <;> funext i <;> by_cases h : i = j
    · subst h
      simp
    · simp [Function.update_of_ne h]
    · subst h
      simp
    · simp [Function.update_of_ne h]

theorem blk_setRef (c : CacheMem) (p : Option ℕ) (f : ℕ → ℕ) (i : ℕ) :
    ((c.setRef p f).blk i).addr = (c.blk i).addr ∧ ((c.setRef p f).blk i).hnext = (c.blk i).hnext := by
  unfold setRef
  rw [blk_set]
  split_ifs <;> exact ⟨rfl, rfl⟩

theorem Ok.setRef (h : c.Ok l) (p : Option ℕ) (f : ℕ → ℕ) : (c.setRef p f).Ok l := by
  refine h.of_perm (by rw [links_setRef]; exact h.lru) (List.Perm.refl l)
    (fun i => (blk_setRef c p f i).1) (fun i => (blk_setRef c p f i).2) ?_ ?_ ?_ <;>
    cases p <;> rfl

/-! ## Insertion -/

/-- The blocks cached do not have the address. -/
def Uncached (c : CacheMem) (l : List ℕ) (addr : Int64) : Prop := ∀ i ∈ l, (c.blk i).addr ≠ addr

theorem links_lruInsert (c : CacheMem) (b : ℕ) : (c.lruInsert b).links = c.links.pushFront b := by
  unfold lruInsert Dll.pushFront
  simp only [chead_eq, ctail_eq, links_setCprev, links_setCnext, links_setChead, links_setCtail,
    Dll.setNext_setPrev, Dll.head_setPrev, Dll.head_setNext]

theorem sameChains_lruInsert (c : CacheMem) (b : ℕ) : SameChains c (c.lruInsert b) :=
  (SameChains.refl c).setCnext.setCprev.setCprev.setChead.setCtail

theorem blk_hashInsert (c : CacheMem) (addr : Int64) {i : ℕ} (h : i ≠ c.brk) :
    (c.hashInsert addr).blk i = c.blk i := by
  unfold hashInsert
  exact Function.update_of_ne h _ _

theorem blk_hashInsert_self (c : CacheMem) (addr : Int64) :
    (c.hashInsert addr).blk c.brk = ⟨addr, 1, c.buckets (cacheHash addr), none, none⟩ := by
  simp [hashInsert]

theorem BucketOk.hashInsert {h : ℕ} {ch : List ℕ} (hb : c.BucketOk l h ch)
    (hl : ∀ i ∈ l, i < c.brk) :
    (c.hashInsert addr).BucketOk (c.brk :: l) h
      (if h = cacheHash addr then c.brk :: ch else ch) := by
  have hch : ∀ i ∈ ch, i ≠ c.brk := fun i hi => (hl i ((hb.mem i).1 hi).1).ne
  have hself := blk_hashInsert_self c addr
  have hchain : Chain (fun i => ((c.hashInsert addr).blk i).hnext) (c.buckets h) ch :=
    hb.chain.congr fun i hi => by rw [blk_hashInsert c addr (hch i hi)]
  have hmem : ∀ i, i ≠ c.brk → (i ∈ ch ↔ i ∈ c.brk :: l
      ∧ cacheHash ((c.hashInsert addr).blk i).addr = h) := fun i hi => by
    rw [blk_hashInsert c addr hi, hb.mem, List.mem_cons, or_iff_right hi]
  have hbk : (c.hashInsert addr).buckets = Function.update c.buckets (cacheHash addr) (some c.brk) :=
    rfl
  split_ifs with he
  · subst he
    refine ⟨?_, List.nodup_cons.2 ⟨fun hm => hch _ hm rfl, hb.nodup⟩, fun i => ?_⟩
    · rw [hbk, Function.update_self]
      refine ⟨rfl, ?_⟩
      simp only [hself]
      exact hchain
    · by_cases hi : i = c.brk
      · subst hi
        simp [hself]
      · rw [List.mem_cons, or_iff_right hi, hmem i hi]
  · refine ⟨?_, hb.nodup, fun i => ?_⟩
    · rw [hbk, Function.update_of_ne he]
      exact hchain
    · by_cases hi : i = c.brk
      · subst hi
        rw [hself]
        exact ⟨fun hm => absurd rfl (hch _ hm), fun hm => absurd hm.2.symm he⟩
      · exact hmem i hi

theorem Ok.insert (h : c.Ok l) (hu : c.Uncached l addr) : (c.insert addr).Ok (c.brk :: l) := by
  have hne : ∀ i ∈ l, i ≠ c.brk := fun i hi => (h.brk i hi).ne
  have hs := sameChains_lruInsert (c.hashInsert addr) c.brk
  have hself := blk_hashInsert_self c addr
  have hlru : (c.hashInsert addr).links.Is l := h.lru.congr rfl rfl fun i hi => by
    simp only [← cprev_eq, ← cnext_eq, blk_hashInsert c addr (hne i hi), and_self]
  refine ⟨?_, fun k => ?_, fun i hi j hj he => ?_, ?_, fun i hi => ?_⟩
  · show ((c.hashInsert addr).lruInsert c.brk).links.Is (c.brk :: l)
    rw [links_lruInsert]
    exact hlru.pushFront fun hm => hne _ hm rfl
  · obtain ⟨ch, hch⟩ := h.buckets k
    have hins := @BucketOk.hashInsert c l addr k ch hch h.brk
    exact ⟨_, hins.congr (fun _ => Iff.rfl) hs.addr hs.hnext hs.buckets⟩
  · replace he : ((c.hashInsert addr).blk i).addr = ((c.hashInsert addr).blk j).addr :=
      (hs.addr i).symm.trans (he.trans (hs.addr j))
    rcases List.mem_cons.1 hi with rfl | hi <;> rcases List.mem_cons.1 hj with rfl | hj
    · rfl
    · rw [hself, blk_hashInsert c addr (hne j hj)] at he
      exact absurd he.symm (hu j hj)
    · rw [hself, blk_hashInsert c addr (hne i hi)] at he
      exact absurd he (hu i hi)
    · rw [blk_hashInsert c addr (hne i hi), blk_hashInsert c addr (hne j hj)] at he
      exact h.addr i hi j hj he
  · show ((c.hashInsert addr).lruInsert c.brk).count + 1 = _
    rw [hs.count, List.length_cons]
    exact congrArg (· + 1) h.count
  · show i < ((c.hashInsert addr).lruInsert c.brk).brk
    rw [hs.brk]
    show i < c.brk + 1
    rcases List.mem_cons.1 hi with rfl | hi
    · omega
    · have := h.brk i hi
      omega

/-! ## Eviction -/

theorem blk_setHnext (c : CacheMem) (p v : Option ℕ) (i : ℕ) :
    ((c.setHnext p v).blk i).addr = (c.blk i).addr ∧ ((c.setHnext p v).blk i).ref = (c.blk i).ref
      ∧ ((c.setHnext p v).blk i).hnext = (if p = some i then v else (c.blk i).hnext) := by
  unfold setHnext
  rw [blk_set]
  split_ifs <;> exact ⟨rfl, rfl, rfl⟩

theorem links_setHnext (c : CacheMem) (p v : Option ℕ) : (c.setHnext p v).links = c.links := by
  rcases p with _ | j
  · rfl
  · unfold links setHnext set
    simp only [Option.elim_some, Dll.mk.injEq, true_and]
    constructor <;> funext i <;> by_cases h : i = j
    · subst h
      simp
    · simp [Function.update_of_ne h]
    · subst h
      simp
    · simp [Function.update_of_ne h]

/-- What a change of chains leaves. -/
structure SameList (c c' : CacheMem) : Prop where
  links : c'.links = c.links
  addr : ∀ i, (c'.blk i).addr = (c.blk i).addr
  ref : ∀ i, (c'.blk i).ref = (c.blk i).ref
  count : c'.count = c.count
  max : c'.max = c.max
  brk : c'.brk = c.brk

/-- A block is taken out of its bucket, and out of no other. -/
theorem Ok.unchain (h : c.Ok (as ++ b :: bs)) {fuel : ℕ} (hf : (as ++ b :: bs).length < fuel) :
    ∃ c', c.unchain fuel b = some c' ∧ SameList c c'
      ∧ ∀ k, ∃ ch, c'.BucketOk (as ++ bs) k ch := by
  obtain ⟨hk0, ek⟩ : ∃ hk0, hk0 = cacheHash (c.blk b).addr := ⟨_, rfl⟩
  obtain ⟨ch, hch⟩ := h.buckets hk0
  have hb : b ∈ ch := (hch.mem b).2 ⟨by simp, ek.symm⟩
  obtain ⟨cs, ds, rfl⟩ := List.append_of_mem hb
  have hout : b ∉ as ∧ b ∉ bs := h.lru.not_mem
  have hbcs : b ∉ cs := by
    have := hch.nodup
    rw [List.nodup_middle, List.nodup_cons, List.mem_append, not_or] at this
    exact this.1.1
  have hlen : cs.length < fuel := by
    have hsub : (cs ++ b :: ds).length ≤ (as ++ b :: bs).length :=
      (hch.nodup.subperm fun i hi => ((hch.mem i).1 hi).1).length_le
    rw [List.length_append] at hsub
    omega
  have hfind : findLink b (fun i => (c.blk i).hnext) fuel none (c.buckets hk0)
      = some (cs.getLast?, true) := by
    rw [hch.chain.findLink hbcs hlen, Option.or_none]
  -- the links after the cut
  have hcut : ∃ c', c.unchain fuel b = some c' ∧ SameList c c'
      ∧ (c'.buckets = Function.update c.buckets hk0
        (cutLink b (fun i => (c.blk i).hnext) (c.buckets hk0) cs.getLast?).1)
      ∧ ∀ i, (c'.blk i).hnext
        = (cutLink b (fun i => (c.blk i).hnext) (c.buckets hk0) cs.getLast?).2 i := by
    unfold CacheMem.unchain
    simp only [← ek, hfind, Option.map_some]
    rcases cs.getLast? with _ | j
    · exact ⟨_, rfl, ⟨rfl, fun _ => rfl, fun _ => rfl, rfl, rfl, rfl⟩, rfl, fun _ => rfl⟩
    · refine ⟨_, rfl, ⟨links_setHnext _ _ _, fun i => (blk_setHnext _ _ _ i).1,
        fun i => (blk_setHnext _ _ _ i).2.1, rfl, rfl, rfl⟩, ?_, fun i => ?_⟩
      · simp [cutLink, setHnext, set]
      · rw [(blk_setHnext _ _ _ i).2.2]
        simp only [cutLink, Function.update_apply, Option.some.injEq, eq_comm]
  obtain ⟨c', hc', hsl, hbk, hhn⟩ := hcut
  refine ⟨c', hc', hsl, fun k => ?_⟩
  by_cases hk : k = hk0
  · subst hk
    have hnd : (cs ++ ds).Nodup := hch.nodup.sublist (by simp)
    refine ⟨cs ++ ds, ⟨?_, hnd, fun i => ?_⟩⟩
    · rw [hbk, Function.update_self]
      exact (hch.chain.cutLink hch.nodup).congr fun i _ => hhn i
    · have hm := hch.mem i
      by_cases hi : i = b
      · subst hi
        have hbds : i ∉ ds := by
          have := hch.nodup
          rw [List.nodup_middle, List.nodup_cons, List.mem_append, not_or] at this
          exact this.1.2
        simp [hbcs, hbds, hout]
      · rw [hsl.addr]
        simpa [hi] using hm
  · obtain ⟨ch', hch'⟩ := h.buckets k
    have hash : ∀ i ∈ ch', cacheHash (c.blk i).addr ≠ hk0 := fun i hi he =>
      hk (((hch'.mem i).1 hi).2.symm.trans he)
    refine ⟨ch', ⟨?_, hch'.nodup, fun i => ?_⟩⟩
    · rw [hbk, Function.update_of_ne hk]
      refine hch'.chain.congr fun i hi => ?_
      rw [hhn]
      rcases hl : cs.getLast? with _ | j
      · rfl
      · have hne : i ≠ j := by
          rintro rfl
          exact hash i hi ((hch.mem i).1 (List.mem_append_left _ (List.mem_of_getLast? hl))).2
        simp only [cutLink, Function.update_of_ne hne]
    · have hm := hch'.mem i
      by_cases hi : i = b
      · subst hi
        have hni : i ∉ ch' := fun hmem => hash i hmem ek.symm
        simp [hni, hout]
      · rw [hsl.addr]
        simpa [hi] using hm

/-- The blocks `l` without the one that an eviction takes. -/
def left (c : CacheMem) (l : List ℕ) : List ℕ :=
  if c.max ≤ c.count then
    match l.reverse.find? fun i => (c.blk i).ref = 0 with
    | some v => l.erase v
    | none => l
  else l

theorem mem_of_mem_left (hi : i ∈ c.left l) : i ∈ l := by
  unfold left at hi
  split_ifs at hi
  · split at hi
    · exact List.mem_of_mem_erase hi
    · exact hi
  · exact hi

/-- A block that something holds is not evicted. -/
theorem mem_left_of_ref (hi : i ∈ l) (hr : 0 < (c.blk i).ref) : i ∈ c.left l := by
  unfold left
  split_ifs
  · split
    · next v hv =>
      have hv0 : (c.blk v).ref = 0 := by simpa using List.find?_some hv
      refine (List.mem_erase_of_ne ?_).2 hi
      rintro rfl
      omega
    · exact hi
  · exact hi

/-- A block is evicted, where the cache is full, if nothing holds it. -/
theorem Ok.evict (h : c.Ok l) {fuel : ℕ} (hf : l.length < fuel) :
    ∃ c', c.evict fuel = some c' ∧ c'.Ok (c.left l) ∧ c'.max = c.max ∧ c'.brk = c.brk
      ∧ ∀ i, (c'.blk i).addr = (c.blk i).addr ∧ (c'.blk i).ref = (c.blk i).ref := by
  unfold CacheMem.evict left
  split_ifs with hfull
  · have hback : Dll.findBack (fun i => decide ((c.blk i).ref = 0)) c.links fuel c.ctail
        = some (l.reverse.find? fun i => decide ((c.blk i).ref = 0)) := by
      have hl : c.links.Is (l ++ []) := by
        rw [List.append_nil]
        exact h.lru
      rw [ctail_eq, h.lru.tail]
      exact hl.findBack hf
    have hlinks : (⟨c.chead, c.ctail, fun i => (c.blk i).cprev, fun i => (c.blk i).cnext⟩ : Dll ℕ)
        = c.links := rfl
    rw [hlinks, hback, Option.bind_some]
    rcases hv : l.reverse.find? fun i => decide ((c.blk i).ref = 0) with _ | v
    · exact ⟨c, rfl, h, rfl, rfl, fun _ => ⟨rfl, rfl⟩⟩
    · have hmem := List.mem_reverse.1 (List.mem_of_find?_eq_some hv)
      obtain ⟨as, bs, rfl⟩ := List.append_of_mem hmem
      obtain ⟨c1, hc1, hs, hbk⟩ := h.unchain hf
      have hr := sameChains_lruRemove c1 v
      have he : (as ++ v :: bs).erase v = as ++ bs := by
        rw [List.erase_append_right _ h.lru.not_mem.1, List.erase_cons_head]
      dsimp only
      rw [he]
      refine ⟨{ c1.lruRemove v with count := (c1.lruRemove v).count - 1 },
        by simp only [hc1, Option.map_some], ?_, hr.max.trans hs.max,
        hr.brk.trans hs.brk, fun i => ⟨(hr.addr i).trans (hs.addr i), (hr.ref i).trans (hs.ref i)⟩⟩
      refine ⟨?_, fun k => ?_, fun i hi j hj he => ?_, ?_, fun i hi => ?_⟩
      · show (c1.lruRemove v).links.Is (as ++ bs)
        rw [links_lruRemove, hs.links]
        exact h.lru.remove
      · obtain ⟨ch, hch⟩ := hbk k
        exact ⟨ch, hch.congr (fun _ => Iff.rfl) hr.addr hr.hnext hr.buckets⟩
      · refine h.addr i (by simp at hi ⊢; tauto) j (by simp at hj ⊢; tauto) ?_
        rw [← hs.addr, ← hs.addr, ← hr.addr i, ← hr.addr j]
        exact he
      · show (c1.lruRemove v).count - 1 = _
        rw [hr.count, hs.count, h.count]
        simp
      · show i < (c1.lruRemove v).brk
        rw [hr.brk, hs.brk]
        exact h.brk i (by simp at hi ⊢; tauto)
  · exact ⟨c, rfl, h, rfl, rfl, fun _ => ⟨rfl, rfl⟩⟩

/-! ## Steps -/

theorem Ok.lookup (h : c.Ok l) {fuel : ℕ} (hf : l.length < fuel) (addr : Int64) :
    ∃ r, c.lookup fuel addr = some r ∧ (∀ b, r = some b → b ∈ l ∧ (c.blk b).addr = addr)
      ∧ (r = none → c.Uncached l addr) := by
  obtain ⟨ch, hch⟩ := h.buckets (cacheHash addr)
  have hlen : ch.length ≤ l.length :=
    (hch.nodup.subperm fun i hi => ((hch.mem i).1 hi).1).length_le
  refine ⟨_, hch.chain.findChain (by omega), fun b hb => ?_, fun hn i hi he => ?_⟩
  · exact ⟨((hch.mem b).1 (List.mem_of_find?_eq_some hb)).1, by simpa using List.find?_some hb⟩
  · have := List.find?_eq_none.1 hn i ((hch.mem i).2 ⟨hi, by rw [he]⟩)
    simp [he] at this

/-- A step: from blocks `l` to blocks `l'`, the held ones of `l` among them. -/
structure StepOk (c : CacheMem) (l : List ℕ) (c' : CacheMem) (l' : List ℕ) : Prop where
  ok : c'.Ok l'
  held : ∀ i ∈ l, 0 < (c.blk i).ref → i ∈ l'

theorem Ok.getblk (h : c.Ok l) {fuel : ℕ} (hf : l.length < fuel) (addr : Int64) (readable : Bool) :
    ∃ r c' l', c.getblk fuel addr readable = some (r, c') ∧ StepOk c l c' l' := by
  obtain ⟨r, hr, hin, hout⟩ := h.lookup hf addr
  unfold CacheMem.getblk
  rw [hr, Option.bind_some]
  rcases r with _ | b
  · obtain ⟨c1, he, hok, -, -, hblk⟩ := h.evict hf
    simp only [he, Option.map_some]
    cases readable
    · exact ⟨_, _, c.left l, rfl, hok, fun _ => mem_left_of_ref⟩
    · refine ⟨_, _, c1.brk :: c.left l, rfl, hok.insert fun i hi => ?_,
        fun i hi hp => List.mem_cons_of_mem _ (mem_left_of_ref hi hp)⟩
      rw [(hblk i).1]
      exact hout rfl i (mem_of_mem_left hi)
  · obtain ⟨as, bs, rfl⟩ := List.append_of_mem (hin b rfl).1
    exact ⟨_, _, b :: (as ++ bs), rfl, (h.setRef _ _).lruTop,
      fun i hi _ => List.perm_middle.mem_iff.1 hi⟩

/-! ### More fuel -/

variable {fuel fuel' : ℕ}

theorem lookup_mono {r : Option ℕ} (h : c.lookup fuel addr = some r) (hf : fuel ≤ fuel') :
    c.lookup fuel' addr = some r :=
  findChain_mono h hf

theorem unchain_mono (h : c.unchain fuel b = some c') (hf : fuel ≤ fuel') :
    c.unchain fuel' b = some c' := by
  unfold CacheMem.unchain at h ⊢
  obtain ⟨r, hr, rfl⟩ := Option.map_eq_some_iff.1 h
  simp only [findLink_mono hr hf, Option.map_some]

theorem evict_mono (h : c.evict fuel = some c') (hf : fuel ≤ fuel') :
    c.evict fuel' = some c' := by
  unfold CacheMem.evict at h ⊢
  split_ifs at h ⊢
  · obtain ⟨r, hr, h⟩ := Option.bind_eq_some_iff.1 h
    rw [Dll.findBack_mono hr hf, Option.bind_some]
    rcases r with _ | v
    · exact h
    · obtain ⟨c1, hc1, rfl⟩ := Option.map_eq_some_iff.1 h
      simp only [unchain_mono hc1 hf, Option.map_some]
  · exact h

theorem getblk_mono {readable : Bool} {r : Option ℕ × CacheMem}
    (h : c.getblk fuel addr readable = some r) (hf : fuel ≤ fuel') :
    c.getblk fuel' addr readable = some r := by
  unfold CacheMem.getblk at h ⊢
  obtain ⟨found, hfound, h⟩ := Option.bind_eq_some_iff.1 h
  rw [lookup_mono hfound hf, Option.bind_some]
  rcases found with _ | b
  · obtain ⟨c1, hc1, rfl⟩ := Option.map_eq_some_iff.1 h
    simp only [evict_mono hc1 hf, Option.map_some]
  · exact h

theorem step_mono {op : CacheOp} (h : op.step fuel c = some c') (hf : fuel ≤ fuel') :
    op.step fuel' c = some c' := by
  cases op with
  | getblk addr readable =>
    obtain ⟨r, hr, rfl⟩ := Option.map_eq_some_iff.1 h
    simp only [CacheOp.step, getblk_mono hr hf, Option.map_some]
  | _ => exact h

/-! ### A run -/

theorem Ok.insert_step (h : c.Ok l) (hu : ∀ fuel b, c.lookup fuel addr ≠ some (some b)) :
    StepOk c l (c.insert addr) (c.brk :: l) := by
  obtain ⟨r, hr, -, hnone⟩ := h.lookup (Nat.lt_succ_self l.length) addr
  have hu' : c.Uncached l addr := by
    rcases r with _ | b
    · exact hnone rfl
    · exact absurd hr (hu _ b)
  exact ⟨h.insert hu', fun i hi _ => List.mem_cons_of_mem _ hi⟩

theorem Ok.setRef_step (h : c.Ok l) (p : Option ℕ) (f : ℕ → ℕ) : StepOk c l (c.setRef p f) l :=
  ⟨h.setRef p f, fun _ hi _ => hi⟩

/-- An operation gets to its end, and keeps the lists. -/
theorem Ok.step (h : c.Ok l) {op : CacheOp} (ho : op.Fits c) (hf : l.length < fuel) :
    ∃ c' l', op.step fuel c = some c' ∧ StepOk c l c' l' := by
  cases op with
  | getblk addr readable =>
    obtain ⟨r, c', l', hg, hs⟩ := h.getblk hf addr readable
    exact ⟨c', l', by simp only [CacheOp.step, hg, Option.map_some], hs⟩
  | holdblk b => exact ⟨_, l, rfl, h.setRef_step b _⟩
  | dropblk b => exact ⟨_, l, rfl, h.setRef_step b _⟩
  | btupsert addr => exact ⟨_, _, rfl, h.insert_step ho⟩
  | writeFile addr => exact ⟨_, _, rfl, h.insert_step ho⟩

/-- And where it has an answer with other fuel, it is the same one. -/
theorem Ok.stepOk (h : c.Ok l) {op : CacheOp} (ho : op.Fits c) (hs : op.step fuel c = some c') :
    ∃ l', StepOk c l c' l' := by
  obtain ⟨c1, l', h1, h2⟩ := h.step ho (Nat.lt_succ_of_le (Nat.le_add_left l.length fuel))
  obtain rfl := Option.some.inj (h1.symm.trans (step_mono hs (by omega)))
  exact ⟨l', h2⟩

theorem ok_init (n : ℕ) : (init n).Ok [] := by
  refine ⟨⟨List.nodup_nil, rfl, rfl, fun as i bs he => ?_⟩, fun h => ?_, by simp, rfl, by simp⟩
  · simp at he
  · exact ⟨[], rfl, List.nodup_nil, by simp⟩

/-! ## The cache as lists

`GefsCache` keeps the LRU list and the blocks as lists. It does what the pointers do, as long as no
address is cached twice. -/

/-- The pointers `m` and the lists `c` hold the same blocks, `n` being the next one. -/
structure Sim (m : CacheMem) (c : GefsCache) (n : ℕ) : Prop where
  ok : m.Ok c.lru
  max : m.max = c.max
  brk : m.brk = n
  ids : (c.blks.map (·.id)).Perm c.lru
  blk : ∀ b ∈ c.blks, (m.blk b.id).addr = b.bp.addr ∧ (m.blk b.id).ref = b.ref

variable {m m' : CacheMem} {g : GefsCache} {n : ℕ}

theorem Sim.mem_lru (h : Sim m g n) {b : GefsBlk} (hb : b ∈ g.blks) : b.id ∈ g.lru :=
  h.ids.mem_iff.1 (List.mem_map_of_mem hb)

theorem Sim.eq_of_id (h : Sim m g n) {b b' : GefsBlk} (hb : b ∈ g.blks) (hb' : b' ∈ g.blks)
    (he : b.id = b'.id) : b = b' :=
  List.inj_on_of_nodup_map (h.ids.nodup_iff.2 h.ok.lru.nodup) hb hb' he

theorem Sim.count (h : Sim m g n) : m.count = g.blks.length := by
  rw [h.ok.count, ← h.ids.length_eq, List.length_map]

theorem Sim.byId (h : Sim m g n) (hi : i ∈ g.lru) :
    ∃ b ∈ g.blks, g.blks.find? (·.id = i) = some b ∧ b.id = i := by
  obtain ⟨b, hb, rfl⟩ := List.mem_map.1 (h.ids.mem_iff.2 hi)
  rcases hf : g.blks.find? (·.id = b.id) with _ | b'
  · exact absurd (List.find?_eq_none.1 hf b hb) (by simp)
  · obtain rfl := h.eq_of_id (List.mem_of_find?_eq_some hf) hb (by simpa using List.find?_some hf)
    exact ⟨b', hb, hf, rfl⟩

/-- A search of the bucket and of the list find the same block. -/
theorem Sim.lookup (h : Sim m g n) (hf : g.lru.length < fuel) (addr : Int64) :
    m.lookup fuel addr = some ((g.find addr).map (·.id)) := by
  obtain ⟨r, hr, hin, hout⟩ := h.ok.lookup hf addr
  rw [hr]
  rcases hg : g.find addr with _ | b
  · rcases r with _ | i
    · rfl
    · obtain ⟨hi, ha⟩ := hin i rfl
      obtain ⟨b, hb, -, rfl⟩ := h.byId hi
      have := List.find?_eq_none.1 hg b hb
      rw [(h.blk b hb).1] at ha
      simp [ha] at this
  · have hb := List.mem_of_find?_eq_some hg
    have ha : b.bp.addr = addr := by simpa using List.find?_some hg
    rcases r with _ | i
    · exact absurd ((h.blk b hb).1.trans ha) (hout rfl _ (h.mem_lru hb))
    · obtain ⟨hi, hia⟩ := hin i rfl
      obtain rfl := h.ok.addr i hi b.id (h.mem_lru hb) (hia.trans ((h.blk b hb).1.trans ha).symm)
      rfl

theorem find?_filterMap {α β : Type*} {f : α → Option β} {e : β → α} {q : β → Bool} {q' : α → Bool} :
    ∀ {l : List α}, (∀ a ∈ l, ∃ b, f a = some b ∧ e b = a ∧ q b = q' a) →
      ((l.filterMap f).find? q).map e = l.find? q'
  | [], _ => rfl
  | a :: l, h => by
    obtain ⟨b, hb, he, hq⟩ := h a List.mem_cons_self
    have ih := @find?_filterMap _ _ f e q q' l fun x hx => h x (List.mem_cons_of_mem _ hx)
    rw [List.filterMap_cons, hb]
    simp only [List.find?_cons, hq]
    split
    · rw [Option.map_some, he]
    · exact ih

theorem Sim.victim (h : Sim m g n) :
    g.victim.map (·.id) = g.lru.reverse.find? fun i => (m.blk i).ref = 0 := by
  refine find?_filterMap fun i hi => ?_
  obtain ⟨b, hb, hf, rfl⟩ := h.byId (List.mem_reverse.1 hi)
  exact ⟨b, hf, rfl, by rw [(h.blk b hb).2]⟩

theorem Sim.lru_evict (h : Sim m g n) : m.left g.lru = g.evict.lru := by
  unfold left GefsCache.evict
  rw [h.max, h.count, ← h.victim]
  split_ifs
  · rcases g.victim with _ | v <;> rfl
  · rfl

theorem mem_of_mem_evict {b : GefsBlk} (hb : b ∈ g.evict.blks) : b ∈ g.blks := by
  unfold GefsCache.evict at hb
  split_ifs at hb
  · rcases hv : g.victim with _ | v <;> rw [hv] at hb
    · exact hb
    · exact List.mem_of_mem_filter hb
  · exact hb

theorem Sim.evict (h : Sim m g n) (hf : g.lru.length < fuel) :
    ∃ m', m.evict fuel = some m' ∧ Sim m' g.evict n := by
  obtain ⟨m', he, hok, hmax, hbrk, hblk⟩ := h.ok.evict hf
  rw [h.lru_evict] at hok
  have hids : (g.evict.blks.map (·.id)).Perm g.evict.lru := by
    have hnd := h.ids.nodup_iff.2 h.ok.lru.nodup
    unfold GefsCache.evict
    split_ifs
    · rcases hv : g.victim with _ | v
      · exact h.ids
      · have hmap : (g.blks.filter (·.id ≠ v.id)).map (·.id) = (g.blks.map (·.id)).erase v.id := by
          rw [hnd.erase_eq_filter, List.filter_map]
          refine congrArg _ (List.filter_congr fun b _ => ?_)
          simp only [bne, Function.comp, decide_not]
          rfl
        simp only [hmap]
        exact h.ids.erase _
    · exact h.ids
  have hmx : g.evict.max = g.max := by
    unfold GefsCache.evict
    split_ifs
    · rcases g.victim with _ | v <;> rfl
    · rfl
  exact ⟨m', he, hok, by rw [hmax, hmx, h.max], hbrk.trans h.brk, hids, fun b hb => by
    rw [(hblk b.id).1, (hblk b.id).2]
    exact h.blk b (mem_of_mem_evict hb)⟩

theorem Sim.insert (h : Sim m g n) {b : GefsBlk} (hid : b.id = n) (hr : b.ref = 1)
    (hu : m.Uncached g.lru b.bp.addr) : Sim (m.insert b.bp.addr) (g.insert b) (n + 1) := by
  have hs := sameChains_lruInsert (m.hashInsert b.bp.addr) m.brk
  have hok := h.ok.insert hu
  have hbrk := h.brk
  rw [hbrk, ← hid] at hok
  refine ⟨hok, hs.max.trans h.max, ?_, ?_, fun b' hb' => ?_⟩
  · rw [← hbrk]
    exact hs.brk
  · exact h.ids.cons b.id
  · have e1 : ((m.insert b.bp.addr).blk b'.id).addr = ((m.hashInsert b.bp.addr).blk b'.id).addr :=
      hs.addr _
    have e2 : ((m.insert b.bp.addr).blk b'.id).ref = ((m.hashInsert b.bp.addr).blk b'.id).ref :=
      hs.ref _
    rw [e1, e2]
    rcases List.mem_cons.1 hb' with rfl | hb'
    · rw [hid, ← hbrk, blk_hashInsert_self]
      exact ⟨rfl, hr.symm⟩
    · rw [blk_hashInsert m _ (h.ok.brk _ (h.mem_lru hb')).ne]
      exact h.blk b' hb'

theorem Sim.setRef (h : Sim m g n) (id : ℕ) (f : ℕ → ℕ) :
    Sim (m.setRef (some id) f) (g.setRef id f) n := by
  have hids : ((g.setRef id f).blks.map (·.id)) = g.blks.map (·.id) := by
    simp only [GefsCache.setRef, List.map_map]
    refine List.map_congr_left fun b _ => ?_
    simp only [Function.comp]
    split_ifs <;> rfl
  refine ⟨h.ok.setRef _ _, h.max, h.brk, by rw [hids]; exact h.ids, fun b hb => ?_⟩
  obtain ⟨b0, hb0, rfl⟩ := List.mem_map.1 hb
  have h0 := h.blk b0 hb0
  unfold CacheMem.setRef
  rw [blk_set]
  by_cases hi : b0.id = id
  · subst hi
    simp [h0]
  · simp [hi, Ne.symm hi, h0]

theorem Sim.lruTop (h : Sim m g n) {id : ℕ} (hi : id ∈ g.lru) :
    Sim (m.lruTop id) { g with lru := id :: g.lru.erase id } n := by
  have hs := sameChains_lruTop m id
  have hok : (m.lruTop id).Ok (id :: g.lru.erase id) := by
    obtain ⟨as, bs, hl⟩ := List.append_of_mem hi
    have hok := h.ok
    rw [hl] at hok ⊢
    have he : (as ++ id :: bs).erase id = as ++ bs := by
      rw [List.erase_append_right _ hok.lru.not_mem.1, List.erase_cons_head]
    rw [he]
    exact hok.lruTop
  refine ⟨hok, hs.max.trans h.max, hs.brk.trans h.brk, ?_, fun b hb => ?_⟩
  · exact h.ids.trans (List.perm_cons_erase hi)
  · rw [hs.addr, hs.ref]
    exact h.blk b hb

theorem Sim.uncached (h : Sim m g n) (hu : ∀ b ∈ g.blks, ¬ decide (b.bp.addr = addr) = true) :
    m.Uncached g.lru addr := fun i hi ha => by
  obtain ⟨b, hb, -, rfl⟩ := h.byId hi
  rw [(h.blk b hb).1] at ha
  exact hu b hb (by simpa using ha)

theorem sim_init (n : ℕ) : Sim (init n) (gefsCacheInit n) 0 :=
  ⟨ok_init n, rfl, rfl, List.Perm.refl _, fun _ hb => absurd hb List.not_mem_nil⟩

/-- `gefs_getblk` on the lists does what it does on the pointers. -/
theorem Sim.getblk {ctx : GefsCtx} (h : Sim m ctx.cache ctx.nblk) (bp : GefsBptr)
    (hf : ctx.cache.lru.length < fuel) :
    ∃ m', m.getblk fuel bp.addr (ctx.disk.pread bp.addr).isSome
        = some ((gefsGetblk ctx bp).1.map (·.id), m')
      ∧ Sim m' (gefsGetblk ctx bp).2.cache (gefsGetblk ctx bp).2.nblk := by
  unfold CacheMem.getblk gefsGetblk
  rw [h.lookup hf, Option.bind_some]
  rcases hfind : ctx.cache.find bp.addr with _ | b
  · obtain ⟨m1, he, h1⟩ := h.evict hf
    simp only [Option.map_none, he, Option.map_some]
    rcases ctx.disk.pread bp.addr with _ | d
    · exact ⟨m1, by simp, h1⟩
    · have hu : m1.Uncached ctx.cache.evict.lru bp.addr :=
        h1.uncached fun b hb => List.find?_eq_none.1 hfind b (mem_of_mem_evict hb)
      have hins : ∀ b : GefsBlk, b.id = ctx.nblk → b.ref = 1 → b.bp = bp →
          Sim (m1.insert bp.addr) (ctx.cache.evict.insert b) (ctx.nblk + 1) := by
        rintro b hid hr rfl
        exact h1.insert hid hr hu
      refine ⟨m1.insert bp.addr, ?_, hins _ rfl rfl rfl⟩
      simp only [Option.isSome_some, if_true, h1.brk, Option.map_some]
  · have hb := List.mem_of_find?_eq_some hfind
    exact ⟨_, rfl, (h.setRef b.id (· + 1)).lruTop (h.mem_lru hb)⟩

theorem Sim.holdblk {ctx : GefsCtx} (h : Sim m ctx.cache ctx.nblk) (b : GefsBlk) :
    Sim (m.holdblk (some b.id)) (gefsHoldblk ctx b).cache (gefsHoldblk ctx b).nblk :=
  h.setRef b.id _

/-- A block inserted where the address is not cached. -/
theorem Sim.writeBlk {ctx : GefsCtx} (h : Sim m ctx.cache ctx.nblk) {b : GefsBlk}
    (hid : b.id = ctx.nblk) (hu : ctx.cache.find b.bp.addr = none) :
    Sim (m.insert b.bp.addr) (writeBlk ctx b).cache (writeBlk ctx b).nblk := by
  obtain ⟨b1, hb1⟩ : ∃ b1 : GefsBlk, b1 = { b with ref := 1 } := ⟨_, rfl⟩
  have ha : b1.bp.addr = b.bp.addr := by rw [hb1]
  have hins : Sim (m.insert b1.bp.addr) (ctx.cache.insert b1) (ctx.nblk + 1) :=
    h.insert (by rw [hb1, ← hid]) (by rw [hb1])
      (h.uncached fun b' hb' => ha ▸ List.find?_eq_none.1 hu b' hb')
  rw [ha, hb1] at hins
  exact hins

theorem Sim.dropblk {ctx : GefsCtx} (h : Sim m ctx.cache ctx.nblk) (b : GefsBlk) :
    Sim (m.dropblk (some b.id)) (gefsDropblk ctx b).cache (gefsDropblk ctx b).nblk :=
  h.setRef b.id _

end CacheMem

open CacheMem

/-- In every state the cache gets to, its lists are well formed, and every operation ends with lists
that are, and with every block that was held. -/
theorem cacheReached_ok {n : ℕ} {c : CacheMem} (h : CacheReached n c) :
    ∃ l, c.Ok l ∧ ∀ op : CacheOp, op.Fits c → (∃ fuel, (op.step fuel c).isSome)
      ∧ ∀ fuel c', op.step fuel c = some c' → ∃ l', StepOk c l c' l' := by
  have hok : ∃ l, c.Ok l := by
    refine Trans.Via.inv (I := fun c => ∃ l, c.Ok l) (fun op c1 c2 hi hc hs => ?_) h ⟨[], ok_init n⟩
    obtain ⟨l, hl⟩ := hi
    obtain ⟨l', hs⟩ := hl.stepOk hc hs
    exact ⟨l', hs.ok⟩
  obtain ⟨l, hl⟩ := hok
  refine ⟨l, hl, fun op ho => ⟨⟨l.length + 1, ?_⟩, fun fuel c' hs => hl.stepOk ho hs⟩⟩
  obtain ⟨c', l', hs, -⟩ := hl.step ho (Nat.lt_succ_self l.length)
  rw [hs]
  rfl

/-- Two blocks read into a cache for one, the first dropped before the second is read. -/
def oneBlockOps : List (CacheOp × ℕ) :=
  [(.getblk 16384 true, 2), (.dropblk (some 0), 0), (.getblk 32768 true, 2)]

theorem cacheReached_ok_oneBlock : ∃ c, CacheReached 1 c ∧ c.count = 1
    ∧ ∃ l, c.Ok l ∧ ∀ op : CacheOp, op.Fits c → (∃ fuel, (op.step fuel c).isSome)
      ∧ ∀ fuel c', op.step fuel c = some c' → ∃ l', StepOk c l c' l' := by
  obtain ⟨c, hc⟩ : ∃ c, Trans.run cacheStep (init 1) oneBlockOps = some c := ⟨_, rfl⟩
  have hr : CacheReached 1 c :=
    Trans.via_of_run hc ⟨trivial, fun _ _ => ⟨trivial, fun _ _ => ⟨trivial, fun _ _ => trivial⟩⟩⟩
  have h1 : c.count = 1 := by
    obtain rfl := Option.some.inj hc
    rfl
  exact ⟨c, hr, h1, cacheReached_ok hr⟩

end GefsFuse
