import GefsFuse.Server.Cache

/-!
# The block cache under any interleaving

A process that has taken a count to 0 may be late: in the meantime another one can have held and
dropped the block, and a third can have plucked it. `cachepluck` raises the count only after it has
released the lock, so the late `lrutop` finds the count 0 and puts the plucked block back in the list.
In a run where no `lrutop` or `lrubot` meets a block in that gap, the list, the buckets and the blocks
plucked stay as they should be (`Inv`).
-/

namespace GefsFuse.Server.Cache

open Links Trans

/-! ## The list -/

section List

variable {L : Dll ℕ} {l : List ℕ} {b : ℕ}

theorem lrudel_eq_remove (hp : L.prev b ≠ some b) (hn : L.next b ≠ some b) :
    lrudel L b = L.remove b := by
  obtain ⟨hd, tl, pr, nx⟩ := L
  simp only at hp hn
  unfold lrudel Dll.remove Dll.unlink
  rcases hpb : pr b with _ | i <;> rcases hnb : nx b with _ | j <;>
    simp_all [Dll.setPrev, Dll.setNext, Function.update_apply]

theorem lrudel_of_off (hp : L.prev b = none) (hn : L.next b = none) (hh : L.head ≠ some b)
    (ht : L.tail ≠ some b) : lrudel L b = L := by
  rw [lrudel_eq_remove (by simp [hp]) (by simp [hn])]
  obtain ⟨hd, tl, pr, nx⟩ := L
  simp only at hp hn hh ht
  have hpr : Function.update pr b none = pr := by rw [← hp, Function.update_eq_self]
  have hnx : Function.update nx b none = nx := by rw [← hn, Function.update_eq_self]
  simp [Dll.remove, Dll.unlink, Dll.setPrev, Dll.setNext, hp, hn, hh, ht, hpr, hnx]

/-- A block is taken out of the list if it is there. -/
theorem lrudel_spec (h : L.Is l) (ho : L.Off l) (b : ℕ) :
    (lrudel L b).Is (l.erase b) ∧ (lrudel L b).Off (l.erase b) := by
  by_cases hb : b ∈ l
  · obtain ⟨as, bs, rfl⟩ := List.append_of_mem hb
    obtain ⟨hn1, hn2⟩ := h.not_mem
    obtain ⟨h1, h2⟩ := h.link as b bs rfl
    rw [List.erase_append_right _ hn1, List.erase_cons_head,
      lrudel_eq_remove (fun he => hn1 (List.mem_of_getLast? (h1.symm.trans he)))
        (fun he => hn2 (List.mem_of_head? (h2.symm.trans he)))]
    exact ⟨h.remove, h.off_remove ho⟩
  · obtain ⟨h1, h2⟩ := ho b hb
    rw [List.erase_of_not_mem hb, lrudel_of_off h1 h2
      (fun he => hb (List.mem_of_head? (h.head ▸ he)))
      (fun he => hb (List.mem_of_getLast? (h.tail ▸ he)))]
    exact ⟨h, ho⟩

/-- A block taken out and put in front. -/
theorem lrutop_links (h : L.Is l) (ho : L.Off l) (b : ℕ) {s : Pool} (hs : s.lru = L)
    (hr : (s.blk b).ref = 0) : (s.lrutop b).lru = (lrudel L b).pushFront b := by
  obtain ⟨h1, h2⟩ := lrudel_spec h ho b
  have hb : b ∉ l.erase b := h.nodup.not_mem_erase
  obtain ⟨hp, -⟩ := h2 b hb
  have hh : (lrudel L b).head ≠ some b := fun he => hb (List.mem_of_head? (h1.head ▸ he))
  unfold Pool.lrutop
  rw [if_neg (by simp [hr]), hs]
  generalize lrudel L b = M at hp hh
  obtain ⟨hd, tl, pr, nx⟩ := M
  simp only at hp hh
  have hpr : Function.update pr b none = pr := by rw [← hp, Function.update_eq_self]
  rcases hd with _ | i <;> simp only [Dll.pushFront, Dll.setPrev, Dll.setNext, hpr, Option.elim_none,
    Option.elim_some] <;> congr

theorem lrubot_links (h : L.Is l) (ho : L.Off l) (b : ℕ) {s : Pool} (hs : s.lru = L)
    (hr : (s.blk b).ref = 0) : (s.lrubot b).lru = (lrudel L b).pushBack b := by
  obtain ⟨h1, h2⟩ := lrudel_spec h ho b
  have hb : b ∉ l.erase b := h.nodup.not_mem_erase
  obtain ⟨-, hn⟩ := h2 b hb
  have ht : (lrudel L b).tail ≠ some b := fun he => hb (List.mem_of_getLast? (h1.tail ▸ he))
  unfold Pool.lrubot
  rw [if_neg (by simp [hr]), hs]
  generalize lrudel L b = M at hn ht
  obtain ⟨hd, tl, pr, nx⟩ := M
  simp only at hn ht
  have hnx : Function.update nx b none = nx := by rw [← hn, Function.update_eq_self]
  rcases tl with _ | i <;> simp only [Dll.pushBack, Dll.flip, Dll.pushFront, Dll.setPrev,
    Dll.setNext, hnx, Option.elim_none, Option.elim_some] <;> congr

end List

/-! ## The pool -/

namespace Pool

variable {s s' : Pool} {l : List ℕ} {b b' : ℕ} {addr : Int64} {f : Buf → Buf}

/-- The list is `l`, and nothing holds what is on it. -/
structure LruOk (s : Pool) (l : List ℕ) : Prop where
  lru : s.lru.Is l
  off : s.lru.Off l
  idle : ∀ b ∈ l, (s.blk b).ref = 0

/-- The cached blocks are in the buckets of their addresses, each address once. -/
structure BktOk (s : Pool) : Prop where
  chain : ∀ h, ∀ b ∈ s.bcache h, (s.blk b).cached = true ∧ s.bkt (s.blk b).addr = h
  cached : ∀ b, (s.blk b).cached = true → b ∈ s.bcache (s.bkt (s.blk b).addr)
  nodup : ∀ h, (s.bcache h).Nodup
  addr : ∀ b b', (s.blk b).cached = true → (s.blk b').cached = true →
    (s.blk b).addr = (s.blk b').addr → b = b'

theorem blk_set (s : Pool) (b b' : ℕ) (f : Buf → Buf) :
    (s.set b f).blk b' = if b' = b then f (s.blk b) else s.blk b' :=
  Function.update_apply _ _ _ _

/-- Nothing of the buckets has changed. -/
theorem BktOk.congr (h : BktOk s) (hb : s'.bcache = s.bcache) (hm : s'.cmax = s.cmax)
    (hx : ∀ b, (s'.blk b).addr = (s.blk b).addr ∧ (s'.blk b).cached = (s.blk b).cached) :
    BktOk s' := by
  have hk : ∀ a, s'.bkt a = s.bkt a := fun a => by rw [bkt, bkt, hm]
  refine ⟨fun h' b hb' => ?_, fun b hc => ?_, fun h' => ?_, fun b b' hc hc' ha => ?_⟩
  · rw [(hx b).1, (hx b).2, hk]
    exact h.chain h' b (hb ▸ hb')
  · rw [(hx b).1, hk, hb]
    exact h.cached b ((hx b).2 ▸ hc)
  · rw [hb]
    exact h.nodup h'
  · rw [(hx b).1, (hx b').1] at ha
    exact h.addr b b' ((hx b).2 ▸ hc) ((hx b').2 ▸ hc') ha

/-- A block that is not cached can have any fields but this one. -/
theorem BktOk.set (h : BktOk s) (hc : (s.blk b).cached = false)
    (hf : (f (s.blk b)).cached = false) : BktOk (s.set b f) := by
  have hne : ∀ x, ((s.set b f).blk x).cached = true → x ≠ b := fun x hx he => by
    rw [blk_set, if_pos he, hf] at hx
    cases hx
  refine ⟨fun h' x hx => ?_, fun x hx => ?_, h.nodup, fun x y hx hy ha => ?_⟩
  · have hxb : x ≠ b := fun he => by
      have := (h.chain h' x hx).1
      rw [he, hc] at this
      cases this
    rw [blk_set, if_neg hxb]
    exact h.chain h' x hx
  · have hxb := hne x hx
    rw [blk_set, if_neg hxb] at hx ⊢
    exact h.cached x hx
  · have hxb := hne x hx
    have hyb := hne y hy
    rw [blk_set, if_neg hxb] at hx ha
    rw [blk_set, if_neg hyb] at hy ha
    exact h.addr x y hx hy ha

/-- A count that goes up, or one of a block that is not on the list. -/
theorem BktOk.setRef (h : BktOk s) (b : ℕ) (g : ℕ → ℕ) :
    BktOk (s.set b fun x => { x with ref := g x.ref }) := by
  refine h.congr rfl rfl fun x => ?_
  rw [blk_set]
  split_ifs with hx <;> simp [hx]

theorem LruOk.set (h : LruOk s l) (hb : b ∉ l) (f : Buf → Buf) : LruOk (s.set b f) l := by
  refine ⟨h.lru, h.off, fun x hx => ?_⟩
  have hxb : x ≠ b := fun he => hb (he ▸ hx)
  rw [blk_set, if_neg hxb]
  exact h.idle x hx

theorem LruOk.not_mem (h : LruOk s l) (hr : (s.blk b).ref ≠ 0) : b ∉ l := fun hb => hr (h.idle b hb)

theorem find_eq_some (h : BktOk s) (hf : s.find addr = some b) :
    b ∈ s.bcache (s.bkt addr) ∧ (s.blk b).addr = addr ∧ (s.blk b).cached = true := by
  have hb := List.mem_of_find?_eq_some hf
  have ha := List.find?_some hf
  exact ⟨hb, by simpa using ha, (h.chain _ b hb).1⟩

theorem cacheget_spec (hl : LruOk s l) (hb : BktOk s) (addr : Int64) :
    s.cacheget addr = (none, s)
      ∨ ∃ b s', s.cacheget addr = (some b, s') ∧ (s.blk b).cached = true ∧ LruOk s' (l.erase b)
        ∧ BktOk s' ∧ (s'.blk = (s.set b fun x => { x with ref := x.ref + 1 }).blk) := by
  rcases hf : s.find addr with _ | b
  · exact .inl (by simp only [cacheget, hf])
  · obtain ⟨-, -, hc⟩ := find_eq_some hb hf
    obtain ⟨h1, h2⟩ := lrudel_spec hl.lru hl.off b
    refine .inr ⟨b, { s.set b (fun x => { x with ref := x.ref + 1 }) with lru := lrudel s.lru b },
      by simp only [cacheget, hf], hc, ⟨h1, h2, fun x hx => ?_⟩, ?_, rfl⟩
    · have hxb : x ≠ b := fun he => hl.lru.nodup.not_mem_erase (he ▸ hx)
      show ((s.set b fun x => { x with ref := x.ref + 1 }).blk x).ref = 0
      rw [blk_set, if_neg hxb]
      exact hl.idle x (List.mem_of_mem_erase hx)
    · exact (hb.setRef b (· + 1)).congr rfl rfl fun _ => ⟨rfl, rfl⟩

/-- `lrutop` and `lrubot` put at most their block in the list. -/
theorem lru_spec (hl : LruOk s l) (hb : BktOk s) (b : ℕ) (bot : Bool) :
    ∃ s' l', (if bot then s.lrubot b else s.lrutop b) = s' ∧ LruOk s' l' ∧ BktOk s' ∧ s'.blk = s.blk
      ∧ ∀ x ∈ l', x ∈ l ∨ x = b ∧ (s.blk b).ref = 0 := by
  by_cases hr : (s.blk b).ref = 0
  · obtain ⟨h1, h2⟩ := lrudel_spec hl.lru hl.off b
    have hne : b ∉ l.erase b := hl.lru.nodup.not_mem_erase
    have hidle : ∀ x, x ∈ l.erase b ∨ x = b → (s.blk x).ref = 0 := by
      rintro x (hx | rfl)
      · exact hl.idle x (List.mem_of_mem_erase hx)
      · exact hr
    cases bot with
    | true =>
      have hlru := lrubot_links hl.lru hl.off b rfl hr
      have hblk : (s.lrubot b).blk = s.blk := by simp [lrubot, hr]
      refine ⟨_, l.erase b ++ [b], rfl, ⟨?_, ?_, fun x hx => ?_⟩, ?_, hblk, fun x hx => ?_⟩
      · simp only [if_true, hlru]
        exact h1.pushBack hne
      · simp only [if_true, hlru]
        exact h1.off_pushBack h2
      · simp only [if_true, hblk]
        exact hidle x (by simpa using hx)
      · exact hb.congr (by simp [lrubot, hr]) (by simp [lrubot, hr]) (by simp [lrubot, hr])
      · rcases List.mem_append.1 hx with hx | hx
        · exact .inl (List.mem_of_mem_erase hx)
        · exact .inr ⟨by simpa using hx, hr⟩
    | false =>
      have hlru := lrutop_links hl.lru hl.off b rfl hr
      have hblk : (s.lrutop b).blk = s.blk := by simp [lrutop, hr]
      refine ⟨_, b :: l.erase b, rfl, ⟨?_, ?_, fun x hx => ?_⟩, ?_, hblk, fun x hx => ?_⟩
      · simp only [Bool.false_eq_true, if_false, hlru]
        exact h1.pushFront hne
      · simp only [Bool.false_eq_true, if_false, hlru]
        exact h1.off_pushFront h2
      · simp only [Bool.false_eq_true, if_false, hblk]
        exact hidle x (by simpa [or_comm] using hx)
      · exact hb.congr (by simp [lrutop, hr]) (by simp [lrutop, hr]) (by simp [lrutop, hr])
      · rcases List.mem_cons.1 hx with rfl | hx
        · exact .inr ⟨rfl, hr⟩
        · exact .inl (List.mem_of_mem_erase hx)
  · refine ⟨s, l, ?_, hl, hb, rfl, fun x hx => .inl hx⟩
    cases bot <;> simp [lrubot, lrutop, hr]

theorem bkt_eq (hm : s'.cmax = s.cmax) (a : Int64) : s'.bkt a = s.bkt a := by rw [bkt, bkt, hm]

theorem cacheins_spec (hb : BktOk s) (hi : s.cacheins b = some s') :
    BktOk s' ∧ s'.lru = s.lru ∧ s'.blk = (s.set b ({ · with cached := true })).blk := by
  unfold cacheins at hi
  simp only [] at hi
  split_ifs at hi with hno
  rw [not_or, not_exists] at hno
  obtain ⟨hc, hdup⟩ := hno
  have hc : (s.blk b).cached = false := by simpa using hc
  have hfresh : ∀ x, (s.blk x).cached = true → (s.blk b).addr ≠ (s.blk x).addr := fun x hx ha =>
    hdup x ⟨by rw [ha]; exact hb.cached x hx, .inr ha⟩
  have hi := Option.some.inj hi
  have hlru : s'.lru = s.lru := by rw [← hi]; rfl
  have hblk : s'.blk = (s.set b ({ · with cached := true })).blk := by rw [← hi]
  have hbc : s'.bcache = Function.update s.bcache (s.bkt (s.blk b).addr)
      (b :: s.bcache (s.bkt (s.blk b).addr)) := by rw [← hi]
  have hbkt : ∀ a, s'.bkt a = s.bkt a := bkt_eq (by rw [← hi]; rfl)
  clear hi
  have ha : ∀ x, (s'.blk x).addr = (s.blk x).addr := fun x => by
    rw [hblk, blk_set]
    split_ifs with hx <;> simp [hx]
  have hk : ∀ x, (s'.blk x).cached = true ↔ x = b ∨ (s.blk x).cached = true := fun x => by
    rw [hblk, blk_set]
    split_ifs with hx <;> simp [hx]
  have hm : ∀ h x, x ∈ s'.bcache h ↔ h = s.bkt (s.blk b).addr ∧ x = b ∨ x ∈ s.bcache h :=
    fun h x => by
    rw [hbc, Function.update_apply]
    split_ifs with hh <;> simp [hh]
  refine ⟨⟨fun h x hx => ?_, fun x hx => ?_, fun h => ?_, fun x y hx hy hxy => ?_⟩, hlru, hblk⟩
  · rw [hk, hbkt, ha]
    rcases (hm h x).1 hx with ⟨rfl, rfl⟩ | hx
    · exact ⟨.inl rfl, rfl⟩
    · obtain ⟨h1, h2⟩ := hb.chain h x hx
      exact ⟨.inr h1, h2⟩
  · rw [hm, hbkt, ha]
    rcases (hk x).1 hx with rfl | hx
    · exact .inl ⟨rfl, rfl⟩
    · exact .inr (hb.cached x hx)
  · rw [hbc, Function.update_apply]
    split_ifs
    · refine List.nodup_cons.2 ⟨fun hbm => ?_, hb.nodup _⟩
      rw [(hb.chain _ b hbm).1] at hc
      cases hc
    · exact hb.nodup h
  · rw [ha, ha] at hxy
    rw [hk] at hx hy
    rcases hx with rfl | hx <;> rcases hy with rfl | hy
    · rfl
    · exact absurd hxy (hfresh y hy)
    · exact absurd hxy.symm (hfresh x hx)
    · exact hb.addr x y hx hy hxy

theorem cachedelLk_spec (hb : BktOk s) (hd : s.cachedelLk addr = some s') :
    BktOk s' ∧ s'.lru = s.lru ∧ (∀ x, (s'.blk x).ref = (s.blk x).ref)
      ∧ ∀ x, (s'.blk x).cached = true → (s.blk x).cached = true := by
  unfold cachedelLk at hd
  split_ifs at hd
  · obtain rfl := Option.some.inj hd
    exact ⟨hb, rfl, fun _ => rfl, fun _ h => h⟩
  rcases hf : s.find addr with _ | b
  · rw [hf] at hd
    obtain rfl := Option.some.inj hd
    exact ⟨hb, rfl, fun _ => rfl, fun _ h => h⟩
  obtain ⟨hmem, rfl, hc⟩ := find_eq_some hb hf
  simp only [hf, hc, if_true, Option.some.injEq] at hd
  have hlru : s'.lru = s.lru := by rw [← hd]; rfl
  have hblk : s'.blk = (s.set b ({ · with cached := false })).blk := by rw [← hd]
  have hbc : s'.bcache = Function.update s.bcache (s.bkt (s.blk b).addr)
      ((s.bcache (s.bkt (s.blk b).addr)).erase b) := by rw [← hd]
  have hbkt : ∀ a, s'.bkt a = s.bkt a := bkt_eq (by rw [← hd]; rfl)
  clear hd
  have ha : ∀ x, (s'.blk x).addr = (s.blk x).addr := fun x => by
    rw [hblk, blk_set]
    split_ifs with hx <;> simp [hx]
  have hk : ∀ x, (s'.blk x).cached = true ↔ x ≠ b ∧ (s.blk x).cached = true := fun x => by
    rw [hblk, blk_set]
    split_ifs with hx <;> simp [hx]
  have hm : ∀ h x, x ∈ s'.bcache h ↔ x ≠ b ∧ x ∈ s.bcache h := fun h x => by
    rw [hbc, Function.update_apply]
    split_ifs with hh
    · rw [hh, (hb.nodup _).mem_erase_iff]
    · refine ⟨fun hx => ⟨fun he => hh ?_, hx⟩, fun hx => hx.2⟩
      rw [← (hb.chain h x hx).2, he]
  refine ⟨⟨fun h x hx => ?_, fun x hx => ?_, fun h => ?_, fun x y hx hy hxy => ?_⟩, hlru,
    fun x => ?_, fun x hx => ((hk x).1 hx).2⟩
  · obtain ⟨hne, hx⟩ := (hm h x).1 hx
    obtain ⟨h1, h2⟩ := hb.chain h x hx
    rw [hk, hbkt, ha]
    exact ⟨⟨hne, h1⟩, h2⟩
  · obtain ⟨hne, hx⟩ := (hk x).1 hx
    rw [hm, hbkt, ha]
    exact ⟨hne, hb.cached x hx⟩
  · rw [hbc, Function.update_apply]
    split_ifs
    · exact (hb.nodup _).erase b
    · exact hb.nodup h
  · rw [ha, ha] at hxy
    exact hb.addr x y ((hk x).1 hx).2 ((hk y).1 hy).2 hxy
  · rw [hblk, blk_set]
    split_ifs with hx <;> simp [hx]

theorem LruOk.congr (h : LruOk s l) (hl : s'.lru = s.lru)
    (hr : ∀ x, (s'.blk x).ref = (s.blk x).ref) : LruOk s' l := by
  refine ⟨hl ▸ h.lru, hl ▸ h.off, fun x hx => ?_⟩
  rw [hr]
  exact h.idle x hx

theorem LruOk.lrudel (h : LruOk s l) (b : ℕ) :
    LruOk { s with lru := lrudel s.lru b } (l.erase b) := by
  obtain ⟨h1, h2⟩ := lrudel_spec h.lru h.off b
  exact ⟨h1, h2, fun x hx => h.idle x (List.mem_of_mem_erase hx)⟩

theorem cachepluck_spec (hl : LruOk s l) (hb : BktOk s) (hp : s.cachepluck = some (b, s')) :
    b ∈ l ∧ LruOk s' (l.erase b) ∧ BktOk s' ∧ (s'.blk b).cached = false
      ∧ (∀ x, (s'.blk x).ref = (s.blk x).ref)
      ∧ ∀ x, (s'.blk x).cached = true → (s.blk x).cached = true := by
  unfold cachepluck at hp
  rcases ht : s.lru.tail with _ | x
  · rw [ht] at hp
    cases hp
  simp only [ht] at hp
  have hx : x ∈ l := List.mem_of_getLast? (hl.lru.tail ▸ ht)
  by_cases hr : (s.blk x).ref ≠ 0
  · rw [if_pos hr] at hp
    cases hp
  rw [if_neg hr] at hp
  -- the block is taken out of its bucket first, if it is in one
  obtain ⟨s1, ⟨h1, h2, h3, h4⟩, hp⟩ : ∃ s1, (BktOk s1 ∧ s1.lru = s.lru
      ∧ (∀ y, (s1.blk y).ref = (s.blk y).ref)
      ∧ ∀ y, (s1.blk y).cached = true → (s.blk y).cached = true)
      ∧ (if (s1.blk x).cached then none else some (x, { s1 with lru := Cache.lrudel s1.lru x }))
        = some (b, s') := by
    split_ifs at hp with hc
    · obtain ⟨s1, hs1, hp⟩ := Option.bind_eq_some_iff.1 hp
      exact ⟨s1, cachedelLk_spec hb hs1, hp⟩
    · obtain ⟨s1, hs1, hp⟩ := Option.bind_eq_some_iff.1 hp
      obtain rfl := Option.some.inj hs1
      exact ⟨s, ⟨hb, rfl, fun _ => rfl, fun _ h => h⟩, hp⟩
  split_ifs at hp with hc
  obtain ⟨rfl, rfl⟩ := Prod.mk.inj (Option.some.inj hp)
  exact ⟨hx, (hl.congr h2 h3).lrudel x, h1.congr rfl rfl fun _ => ⟨rfl, rfl⟩, by simpa using hc,
    h3, h4⟩

end Pool

/-! ## The system -/

namespace Sys

variable {ι : Type} [DecidableEq ι] {s s' : Sys ι} {l : List ℕ}

/-- A block plucked but not yet held is in no list and no other process has plucked it. -/
structure Inv (s : Sys ι) (l : List ℕ) : Prop where
  lru : s.pool.LruOk l
  bkt : s.pool.BktOk
  plucked : ∀ p b, s.pc p = .plucked b → b ∉ l ∧ (s.pool.blk b).ref = 0
    ∧ (s.pool.blk b).cached = false ∧ ∀ q, s.pc q = .plucked b → q = p
  out : ∀ b, s.out b = true → (s.pool.blk b).ref ≠ 0

/-- What holds of the cache in a state: the list is linked right, nothing holds a block on it, an
address is cached once, and a block that `cachepluck` has returned, or is about to, is not on the
list and is not returned to another before its count was 0 again. -/
structure Disciplined (s : Sys ι) (l : List ℕ) : Prop where
  list : s.pool.lru.Is l
  idle : ∀ b ∈ l, (s.pool.blk b).ref = 0
  once : ∀ h h' b b', b ∈ s.pool.bcache h → b' ∈ s.pool.bcache h' →
    (s.pool.blk b).addr = (s.pool.blk b').addr → b = b' ∧ h = h'
  out : ∀ b, s.out b = true → b ∉ l ∧ ∀ p, s.pc p ≠ .plucked b
  plucked : ∀ p b, s.pc p = .plucked b → b ∉ l ∧ ∀ q, s.pc q = .plucked b → q = p

/-- No `lrutop` or `lrubot` meets a block that was plucked and is not held yet. -/
def Safe (a : Act ι) (s : Sys ι) : Prop :=
  match a with
  | .lru p =>
    match s.pc p with
    | .drop b _ => ∀ q, s.pc q ≠ .plucked b
    | _ => True
  | _ => True

instance [Fintype ι] : ∀ (a : Act ι) (s : Sys ι), Decidable (Safe a s)
  | .lru p, s =>
    match h : s.pc p with
    | .drop b bot => decidable_of_iff (∀ q, s.pc q ≠ .plucked b) (by simp only [Safe, h])
    | .idle => .isTrue (by simp only [Safe, h])
    | .plucked b => .isTrue (by simp only [Safe, h])
  | .get _, _ | .hold _, _ | .dec _ _ _, _ | .pluck _, _ | .take _, _ | .name _ _, _ | .ins _, _
  | .del _, _ => .isTrue trivial

omit [DecidableEq ι] in
theorem Inv.disciplined (h : Inv s l) : Disciplined s l := by
  refine ⟨h.lru.lru, h.lru.idle, fun c c' b b' hb hb' ha => ?_, fun b hb => ⟨?_, fun p hp => ?_⟩,
    fun p b hp => ⟨(h.plucked p b hp).1, (h.plucked p b hp).2.2.2⟩⟩
  · obtain ⟨h1, h2⟩ := h.bkt.chain c b hb
    obtain ⟨h3, h4⟩ := h.bkt.chain c' b' hb'
    exact ⟨h.bkt.addr b b' h1 h3 ha, by rw [← h2, ← h4, ha]⟩
  · exact h.lru.not_mem (h.out b hb)
  · exact h.out b hb (h.plucked p b hp).2.1

omit [DecidableEq ι] in
/-- A step that leaves the processes where they are. -/
theorem Inv.of_pool {pool : Pool} (h : Inv s l) {l' : List ℕ} (hl : pool.LruOk l')
    (hb : pool.BktOk)
    (hkeep : ∀ b, b ∉ l → (s.pool.blk b).ref = 0 → (s.pool.blk b).cached = false →
      b ∉ l' ∧ (pool.blk b).ref = 0 ∧ (pool.blk b).cached = false)
    (hout : ∀ b, (s.pool.blk b).ref ≠ 0 → (pool.blk b).ref ≠ 0) : Inv { s with pool := pool } l' := by
  refine ⟨hl, hb, fun p b hp => ?_, fun b ho => hout b (h.out b ho)⟩
  obtain ⟨h1, h2, h3, h4⟩ := h.plucked p b hp
  obtain ⟨h5, h6, h7⟩ := hkeep b h1 h2 h3
  exact ⟨h5, h6, h7, h4⟩

omit [DecidableEq ι] in
theorem Inv.get (h : Inv s l) (addr : Int64) :
    ∃ l', Inv { s with pool := (s.pool.cacheget addr).2 } l' := by
  rcases Pool.cacheget_spec h.lru h.bkt addr with hg | ⟨b, pool, hg, hc, hl, hb, hblk⟩
  · rw [hg]
    exact ⟨l, h⟩
  · rw [hg]
    refine ⟨_, h.of_pool hl hb (fun x hx hr hxc => ⟨fun hm => hx (List.mem_of_mem_erase hm), ?_⟩)
      fun x hr => ?_⟩
    · have hxb : x ≠ b := fun he => by
        rw [he, hc] at hxc
        cases hxc
      rw [hblk, Pool.blk_set, if_neg hxb]
      exact ⟨hr, hxc⟩
    · rw [hblk, Pool.blk_set]
      split_ifs with hxb
      · exact Nat.succ_ne_zero _
      · exact hr

omit [DecidableEq ι] in
theorem Inv.hold (h : Inv s l) {b : ℕ} (hs : s.holdblk b = some s') : Inv s' l := by
  unfold holdblk at hs
  split_ifs at hs with hr
  obtain rfl := Option.some.inj hs
  refine h.of_pool (h.lru.set (h.lru.not_mem (by omega)) _) (h.bkt.setRef b (· + 1))
    (fun x hx hx0 hxc => ⟨hx, ?_⟩) fun x hx => ?_
  · have hxb : x ≠ b := fun he => by
      rw [he] at hx0
      omega
    rw [Pool.blk_set, if_neg hxb]
    exact ⟨hx0, hxc⟩
  · rw [Pool.blk_set]
    split_ifs with hxb
    · exact Nat.succ_ne_zero _
    · exact hx

theorem plucked_update {pc : ι → Pc} {p q : ι} {c : Pc} {b : ℕ} (hc : c ≠ .plucked b)
    (h : Function.update pc p c q = .plucked b) : q ≠ p ∧ pc q = .plucked b := by
  rw [Function.update_apply] at h
  split_ifs at h with hq
  · exact absurd h hc
  · exact ⟨hq, h⟩

theorem Inv.dec (h : Inv s l) {p : ι} {b : ℕ} {bot : Bool} (hs : s.adec p b bot = some s') :
    Inv s' l := by
  unfold adec at hs
  split_ifs at hs with hr
  have hb : b ∉ l := h.lru.not_mem (by omega)
  have hl := h.lru.set hb fun x => { x with ref := x.ref - 1 }
  have hbkt := h.bkt.setRef b (· - 1)
  have hkeep : ∀ x, (s.pool.blk x).ref = 0 →
      (s.pool.set b fun x => { x with ref := x.ref - 1 }).blk x = s.pool.blk x := fun x hx => by
    have hxb : x ≠ b := fun he => by
      rw [he] at hx
      omega
    rw [Pool.blk_set, if_neg hxb]
  simp only [] at hs
  split_ifs at hs with hnz
  · -- the count stays up
    obtain rfl := Option.some.inj hs
    refine h.of_pool hl hbkt (fun x hx hx0 hxc => ?_) fun x hx => ?_
    · rw [hkeep x hx0]
      exact ⟨hx, hx0, hxc⟩
    · by_cases hxb : x = b
      · rw [hxb]
        exact hnz
      · rw [Pool.blk_set, if_neg hxb]
        exact hx
  · obtain rfl := Option.some.inj hs
    refine ⟨hl, hbkt, fun q x hq => ?_, fun x hx => ?_⟩
    · obtain ⟨hqp, hq⟩ := plucked_update (by simp) hq
      obtain ⟨h1, h2, h3, h4⟩ := h.plucked q x hq
      rw [hkeep x h2]
      exact ⟨h1, h2, h3, fun q' hq' => h4 q' (plucked_update (by simp) hq').2⟩
    · change Function.update s.out b false x = true at hx
      rw [Function.update_apply] at hx
      split_ifs at hx with hxb
      show ((s.pool.set b fun x => { x with ref := x.ref - 1 }).blk x).ref ≠ 0
      rw [Pool.blk_set, if_neg hxb]
      exact h.out x hx

/-- A late `lrutop` or `lrubot`. -/
theorem Inv.putback (h : Inv s l) {p : ι} {b : ℕ} {bot : Bool}
    (hsafe : ∀ q, s.pc q ≠ .plucked b) :
    ∃ l', Inv { s with
      pool := if bot then s.pool.lrubot b else s.pool.lrutop b
      pc := Function.update s.pc p .idle } l' := by
  obtain ⟨pool, l', heq, hl, hb, hblk, hmem⟩ := Pool.lru_spec h.lru h.bkt b bot
  rw [heq]
  refine ⟨l', hl, hb, fun q x hq => ?_, fun x hx => by rw [hblk]; exact h.out x hx⟩
  obtain ⟨-, hq⟩ := plucked_update (by simp) hq
  obtain ⟨h1, h2, h3, h4⟩ := h.plucked q x hq
  refine ⟨fun hx => ?_, by rw [hblk]; exact h2, by rw [hblk]; exact h3,
    fun q' hq' => h4 q' (plucked_update (by simp) hq').2⟩
  rcases hmem x hx with hx | ⟨rfl, -⟩
  · exact h1 hx
  · exact hsafe q hq

theorem Inv.pluck (h : Inv s l) {p : ι} {b : ℕ} {pool : Pool}
    (hp : s.pool.cachepluck = some (b, pool)) :
    Inv { s with pool := pool, pc := Function.update s.pc p (.plucked b) } (l.erase b) := by
  obtain ⟨hbl, hl, hb, hc, hr, hcc⟩ := Pool.cachepluck_spec h.lru h.bkt hp
  refine ⟨hl, hb, fun q x hq => ?_, fun x hx => by rw [hr]; exact h.out x hx⟩
  change Function.update s.pc p (.plucked b) q = .plucked x at hq
  by_cases hqp : q = p
  · rw [hqp, Function.update_self] at hq
    obtain rfl : b = x := by simpa using hq
    refine ⟨h.lru.lru.nodup.not_mem_erase, by rw [hr]; exact h.lru.idle b hbl, hc, fun q' hq' => ?_⟩
    by_contra hne
    change Function.update s.pc p (.plucked b) q' = .plucked b at hq'
    rw [Function.update_of_ne (fun he => hne (he.trans hqp.symm))] at hq'
    exact (h.plucked q' b hq').1 hbl
  · rw [Function.update_of_ne hqp] at hq
    obtain ⟨h1, h2, h3, h4⟩ := h.plucked q x hq
    have hxb : b ≠ x := fun he => h1 (he ▸ hbl)
    refine ⟨fun hx => h1 (List.mem_of_mem_erase hx), by rw [hr]; exact h2, ?_,
      fun q' hq' => h4 q' (plucked_update (by simpa using hxb) hq').2⟩
    by_contra hx
    have := hcc x (by simpa using hx)
    rw [h3] at this
    cases this

theorem Inv.take (h : Inv s l) {p : ι} {b : ℕ} (hp : s.pc p = .plucked b) :
    Inv ⟨s.pool.set b fun x => { x with ref := x.ref + 1 }, Function.update s.pc p .idle,
      Function.update s.out b true⟩ l := by
  obtain ⟨hb, -, -, huniq⟩ := h.plucked p b hp
  refine ⟨h.lru.set hb fun x => { x with ref := x.ref + 1 }, h.bkt.setRef b (· + 1),
    fun q x hq => ?_, fun x hx => ?_⟩
  · obtain ⟨hqp, hq⟩ := plucked_update (by simp) hq
    obtain ⟨h1, h2, h3, h4⟩ := h.plucked q x hq
    have hxb : x ≠ b := fun he => hqp (huniq q (he ▸ hq))
    show x ∉ l ∧ ((s.pool.set b fun x => { x with ref := x.ref + 1 }).blk x).ref = 0
      ∧ ((s.pool.set b fun x => { x with ref := x.ref + 1 }).blk x).cached = false ∧ _
    rw [Pool.blk_set, if_neg hxb]
    exact ⟨h1, h2, h3, fun q' hq' => h4 q' (plucked_update (by simp) hq').2⟩
  · change Function.update s.out b true x = true at hx
    show ((s.pool.set b fun x => { x with ref := x.ref + 1 }).blk x).ref ≠ 0
    rw [Pool.blk_set]
    split_ifs with hxb
    · exact Nat.succ_ne_zero _
    · rw [Function.update_of_ne hxb] at hx
      exact h.out x hx

omit [DecidableEq ι] in
/-- A field other than the count of a block that is held. -/
theorem Inv.set_held (h : Inv s l) {b : ℕ} (hr : 0 < (s.pool.blk b).ref) {pool : Pool}
    {f : Buf → Buf} (hl : pool.lru = s.pool.lru) (hb : pool.BktOk)
    (hblk : pool.blk = (s.pool.set b f).blk) (hf : (f (s.pool.blk b)).ref = (s.pool.blk b).ref) :
    Inv { s with pool := pool } l := by
  have href : ∀ x, (pool.blk x).ref = (s.pool.blk x).ref := fun x => by
    rw [hblk, Pool.blk_set]
    split_ifs with hxb
    · rw [hf, hxb]
    · rfl
  refine h.of_pool (h.lru.congr hl href) hb (fun x hx hx0 hxc => ?_) fun x hx => by rwa [href]
  have hxb : x ≠ b := fun he => by
    rw [he] at hx0
    omega
  rw [href, hblk, Pool.blk_set, if_neg hxb]
  exact ⟨hx, hx0, hxc⟩

/-- What a step keeps. -/
theorem Inv.step {a : Act ι} (h : Inv s l) (hsafe : Safe a s) (hs : s.step a = some s') :
    ∃ l', Inv s' l' := by
  cases a with
  | get addr =>
    obtain rfl := Option.some.inj hs
    exact h.get addr
  | hold b => exact ⟨l, h.hold hs⟩
  | dec p b bot => exact ⟨l, h.dec hs⟩
  | lru p =>
    rcases hp : s.pc p with _ | ⟨b, bot⟩ | b <;> simp only [Sys.step, hp, reduceCtorEq] at hs
    obtain rfl := Option.some.inj hs
    simp only [Safe, hp] at hsafe
    exact h.putback hsafe
  | pluck p =>
    simp only [Sys.step] at hs
    split_ifs at hs with hp
    obtain ⟨⟨b, pool⟩, hpl, rfl⟩ := Option.map_eq_some_iff.1 hs
    exact ⟨_, h.pluck hpl⟩
  | take p =>
    rcases hp : s.pc p with _ | ⟨b, bot⟩ | b <;> simp only [Sys.step, hp, reduceCtorEq] at hs
    obtain rfl := Option.some.inj hs
    exact ⟨l, h.take hp⟩
  | name b addr =>
    simp only [Sys.step] at hs
    split_ifs at hs with hr
    obtain rfl := Option.some.inj hs
    exact ⟨l, h.set_held hr.1 rfl (h.bkt.set hr.2 hr.2) rfl rfl⟩
  | ins b =>
    simp only [Sys.step] at hs
    split_ifs at hs with hr
    obtain ⟨pool, hi, rfl⟩ := Option.map_eq_some_iff.1 hs
    obtain ⟨h1, h2, h3⟩ := Pool.cacheins_spec h.bkt hi
    exact ⟨l, h.set_held hr h2 h1 h3 rfl⟩
  | del addr =>
    obtain ⟨pool, hd, rfl⟩ := Option.map_eq_some_iff.1 hs
    obtain ⟨h1, h2, h3, h4⟩ := Pool.cachedelLk_spec h.bkt hd
    refine ⟨l, h.of_pool (h.lru.congr h2 h3) h1 (fun x hx hx0 hxc => ⟨hx, by rw [h3]; exact hx0, ?_⟩)
      fun x hx => by rwa [h3]⟩
    by_contra hx
    have := h4 x (by simpa using hx)
    rw [hxc] at this
    cases this

theorem inv_init (ι : Type) (n : ℕ) : ∃ l, Inv (init ι n) l := by
  have hfold : ∀ (bs : List ℕ) (s : Pool) (l : List ℕ), s.LruOk l → s.BktOk →
      ∃ l', (bs.foldl Pool.lrutop s).LruOk l' ∧ (bs.foldl Pool.lrutop s).BktOk := by
    intro bs
    induction bs with
    | nil => exact fun s l hl hb => ⟨l, hl, hb⟩
    | cons b bs ih =>
      intro s l hl hb
      obtain ⟨s', l', heq, hl', hb', -⟩ := Pool.lru_spec hl hb b false
      obtain rfl : s.lrutop b = s' := heq
      exact ih _ l' hl' hb'
  obtain ⟨l, hl, hb⟩ := hfold (List.range n)
    ⟨⟨none, none, fun _ => none, fun _ => none⟩, fun _ => ⟨-1, 0, false⟩, fun _ => [], n⟩ []
    ⟨⟨List.nodup_nil, rfl, rfl, fun as i bs h => by simp at h⟩, fun _ _ => ⟨rfl, rfl⟩, by simp⟩
    ⟨by simp, by simp, by simp, by simp⟩
  exact ⟨l, hl, hb, fun p b hp => (by cases hp), fun b hb => (by cases hb)⟩

/-- In a run where no `lrutop` or `lrubot` meets a block between the two steps of `cachepluck`, the
cache is as it should be in every state. -/
theorem cache_disciplined (ι : Type) [DecidableEq ι] (n : ℕ) {s : Sys ι}
    (h : Via step Safe (init ι n) s) : ∃ l, Disciplined s l := by
  obtain ⟨l, hl⟩ := h.inv (I := fun s => ∃ l, Inv s l)
    (fun a s s' hi hc hs => hi.elim fun l hl => hl.step hc hs) (inv_init ι n)
  exact ⟨l, hl.disciplined⟩

/-- A block plucked, dropped and plucked again. -/
theorem cache_disciplined_pluck : ∃ s, Via step Safe (init (Fin 1) 1) s ∧ s.out 0 = true
    ∧ ∃ l, Disciplined s l := by
  have hrun : ∃ s, run step (init (Fin 1) 1) [.pluck 0, .take 0, .dec 0 0 false, .lru 0, .pluck 0,
      .take 0] = some s ∧ s.out 0 = true := ⟨_, rfl, rfl⟩
  obtain ⟨s, hs, ho⟩ := hrun
  have hv : Via step Safe (init (Fin 1) 1) s := via_of_run hs (by decide)
  exact ⟨s, hv, ho, cache_disciplined (Fin 1) 1 hv⟩

/-- Three processes and one block: the one that took its count to 0 first comes to `lrutop` last. -/
theorem not_cache_disciplined : ∃ s, Via step (fun _ _ => True) (init (Fin 3) 1) s
    ∧ s.pool.lru.head = some 0 ∧ s.out 0 = true ∧ (∀ p, s.pc p = .idle)
    ∧ ¬ ∃ l, Disciplined s l := by
  have hrun : ∃ s, run step (init (Fin 3) 1) [.pluck 0, .take 0, .name 0 0, .ins 0, .dec 0 0 false,
      .get 0, .dec 1 0 false, .lru 1, .pluck 2, .lru 0, .take 2] = some s
      ∧ s.pool.lru.head = some 0 ∧ s.out 0 = true ∧ ∀ p, s.pc p = .idle := ⟨_, rfl, rfl, rfl, by decide⟩
  obtain ⟨s, hs, hh, ho, hp⟩ := hrun
  refine ⟨s, via_of_run hs (along_of_forall fun _ _ => trivial), hh, ho, hp, fun ⟨l, hl⟩ => ?_⟩
  exact (hl.out 0 ho).1 (List.mem_of_head? (hl.list.head ▸ hh))

end Sys

end GefsFuse.Server.Cache
