import GefsFuse.Proofs.Blank
import GefsFuse.Proofs.FreeLog

/-!
# When the log blocks of an image come to an end

What a read of a block finds is what the image has there (`Reads`), so the blocks of a chain are
those the image chains (`Follows`). A chain that never comes to an end comes to some block twice,
since there are only so many (`exists_logChain_none`); and a block it comes to twice it comes to
again and again.
-/

namespace GefsFuse

open ByteMem

/-! ## The words read in a block -/

theorem le_logStep (ent : UInt64) : 8 ≤ logStep ent ∧ (logStep ent = 16 ∨ logStep ent = 8) := by
  unfold logStep
  split <;> simp

section Words

variable {m m' : Mem} {logsz L : ℕ}

theorem le_logEnd : ∀ (n i : ℕ), i ≤ logEnd m logsz n i
  | 0, _ => le_rfl
  | n + 1, i => by
    rw [logEnd]
    split_ifs
    · exact (Nat.le_add_right _ _).trans (le_logEnd n _)
    · exact le_rfl

/-- The words read lie below `L` if and only if the entries end there. -/
theorem logReads_inside : ∀ {n i : ℕ}, i ≤ L →
    ((∀ o ∈ logReads m logsz n i, o + 8 ≤ L) ↔ logEnd m logsz n i ≤ L)
  | 0, i, hi => by simp [logReads, logEnd, hi]
  | n + 1, i, hi => by
    obtain ⟨h8, hstep⟩ := le_logStep (unpack64 m i)
    rw [logReads, logEnd]
    split_ifs with hlt h16
    · rw [h16] at *
      have hend := @le_logEnd m logsz n (i + 16)
      simp only [List.cons_append, List.nil_append, List.forall_mem_cons]
      constructor
      · rintro ⟨-, h1, h2⟩
        exact (logReads_inside (by omega)).1 h2
      · intro h
        exact ⟨by omega, by omega, (logReads_inside (by omega)).2 h⟩
    · rw [hstep.resolve_left h16] at *
      have hend := @le_logEnd m logsz n (i + 8)
      simp only [List.cons_append, List.nil_append, List.forall_mem_cons]
      constructor
      · rintro ⟨h1, h2⟩
        exact (logReads_inside (by omega)).1 h2
      · intro h
        exact ⟨by omega, (logReads_inside (by omega)).2 h⟩
    · simp [hi]

/-- What lies from `L` on does not matter where nothing is read there. -/
theorem logReads_congr (h : ∀ j < L, m' j = m j) : ∀ {n i : ℕ},
    (∀ o ∈ logReads m logsz n i, o + 8 ≤ L) → logReads m' logsz n i = logReads m logsz n i
  | 0, _, _ => rfl
  | n + 1, i, hin => by
    rw [logReads] at hin
    rw [logReads, logReads]
    by_cases hlt : i < logsz
    · rw [if_pos hlt] at hin ⊢
      have hi := hin i (by simp)
      rw [if_pos hlt, unpack64_congr fun j hj => h (i + j) (by omega), logReads_congr h]
      exact fun o ho => hin o (List.mem_append_right _ ho)
    · rw [if_neg hlt, if_neg hlt]

end Words

theorem parseBlk_withTail (m tail : Mem) : (parseBlk (withTail m tail)).buf = withTail m tail
    ∧ (parseBlk (withTail m tail)).data = (parseBlk m).data := by
  have hbs : gefsBlksz = 16384 := rfl
  have hbuf : (parseBlk (withTail m tail)).buf = withTail m tail := by
    unfold parseBlk
    dsimp only
    split_ifs <;> rfl
  refine ⟨hbuf, ?_⟩
  unfold parseBlk
  dsimp only
  rw [unpack16_congr fun j hj => if_pos (show 0 + j < gefsBlksz by omega)]
  split_ifs <;> rfl

theorem parseBlk_data_le (m : Mem) : (parseBlk m).data ≤ 10 := by
  unfold parseBlk
  dsimp only
  split_ifs <;> simp [gefsLeafhdsz, gefsPivhdsz]

/-- A block that agrees with the image's in its own bytes reads inside it as often as the image's
entries end inside it. -/
theorem readInside_iff (m tail : Mem) : (parseBlk (withTail m tail)).ReadInside
    ↔ (parseBlk m).data + (parseBlk m).entriesEnd ≤ gefsBlksz := by
  have hbs : gefsBlksz = 16384 := rfl
  obtain ⟨hbuf, hdata⟩ := parseBlk_withTail m tail
  have hm : (parseBlk m).buf = m := by
    unfold parseBlk
    dsimp only
    split_ifs <;> rfl
  have hle := parseBlk_data_le m
  have hlen : (parseBlk (withTail m tail)).logLen = (parseBlk m).logLen := by
    unfold Content.logLen
    rw [hbuf, hm, unpack16_congr fun j hj => if_pos (by omega)]
  obtain ⟨L, hL⟩ : ∃ L, (parseBlk m).data + L = gefsBlksz := ⟨_, Nat.add_sub_of_le (by omega)⟩
  have hagree : ∀ j < L, (parseBlk (withTail m tail)).logData j = (parseBlk m).logData j := by
    intro j hj
    unfold Content.logData
    rw [hbuf, hm, hdata]
    exact if_pos (by omega)
  have hin : (parseBlk (withTail m tail)).ReadInside
      ↔ ∀ o ∈ (parseBlk (withTail m tail)).reads, o + 8 ≤ L := by
    unfold Content.ReadInside
    rw [hdata]
    refine forall₂_congr fun o _ => ?_
    omega
  have hend : (parseBlk m).data + (parseBlk m).entriesEnd ≤ gefsBlksz
      ↔ (parseBlk m).entriesEnd ≤ L := by
    omega
  rw [hin, hend]
  unfold Content.reads Content.entriesEnd
  rw [hlen, ← logReads_inside (Nat.zero_le _)]
  constructor
  · intro h
    rwa [logReads_congr (fun j hj => (hagree j hj).symm) h]
  · intro h
    rwa [logReads_congr hagree h]

/-! ## Reads find what the image has -/

/-- A read of a block finds what the image has, or nothing where it has none. -/
structure Reads (d : Disk) (ctx : GefsCtx) : Prop where
  ok : CtxOk ctx
  held : ∀ x m, d.pread x = some m →
    Held ctx x fun c => ∃ tail, c = parseBlk (withTail m tail)
  absent : ∀ x, d.pread x = none → Absent ctx x

theorem reads_freshCtx (d : Disk) (readonly : Bool) (heap : ℕ → Mem) (sb : GefsSuper) :
    Reads d (freshCtx d readonly heap sb) := by
  refine ⟨⟨List.nodup_nil, by simp [freshCtx, gefsCacheInit], List.Pairwise.nil⟩, ?_, ?_⟩
  · intro x m hm
    exact .inr ⟨fun b hb => absurd hb (by simp [freshCtx, gefsCacheInit, GefsCache.find]), m, hm,
      fun i => ⟨_, rfl⟩⟩
  · exact fun x hx => ⟨rfl, hx⟩

section Chain

variable {d : Disk} {ctx ctx' : GefsCtx}

theorem Reads.touchBlk (h : Reads d ctx) (bp : GefsBptr) : Reads d (touchBlk ctx bp).2 := by
  have hk := (touchBlk_spec h.ok bp).1
  exact ⟨hk.ok, fun x m hm => hk.held _ _ (h.held x m hm),
    fun x hx => (h.absent x hx).touchBlk h.ok bp⟩

theorem Reads.none (h : Reads d ctx) {bp : GefsBptr} (hp : d.pread bp.addr = none) :
    (GefsFuse.touchBlk ctx bp).1 = none := (h.absent _ hp).touchBlk_eq h.ok bp rfl

theorem Reads.some (h : Reads d ctx) {bp : GefsBptr} {m : Mem} (hp : d.pread bp.addr = some m) :
    ∃ b tail, (GefsFuse.touchBlk ctx bp).1 = some b ∧ b.toContent = parseBlk (withTail m tail) := by
  obtain ⟨b, hb, tail, ht⟩ := (touchBlk_spec h.ok bp).2 _ (h.held _ _ hp)
  exact ⟨b, tail, hb, ht⟩

theorem chainBlks_succ (fuel : ℕ) (ctx : GefsCtx) (bp : GefsBptr) :
    chainBlks (fuel + 1) ctx bp = if bp.addr = -1 then some ([], ctx)
      else match touchBlk ctx bp with
        | (none, ctx) => some ([], ctx)
        | (some b, ctx) => (chainBlks fuel ctx b.logNext).map fun (bs, ctx) =>
            (b.toContent :: bs, ctx) := by
  unfold GefsFuse.touchBlk
  rw [chainBlks]
  split_ifs
  · rfl
  · rcases gefsGetblk ctx bp with ⟨_ | b, ctx1⟩ <;> rfl

theorem arenaBlks_eq (fuel : ℕ) (ctx : GefsCtx) (bp : GefsBptr) :
    arenaBlks fuel ctx bp = match touchBlk ctx bp with
      | (none, ctx) => some ([], ctx)
      | (some b, ctx) => chainBlks fuel ctx (gefsUnpackbp b.buf (b.data + 32)) := by
  unfold GefsFuse.touchBlk arenaBlks
  rcases gefsGetblk ctx bp with ⟨_ | b, ctx1⟩ <;> rfl

/-- The blocks `bs` are those the image chains from `x` on, to the chain's end. -/
inductive Follows (d : Disk) : Int64 → List Content → Prop
  | fin {x : Int64} (h : d.pread x = none) : Follows d x []
  | step {x : Int64} {m tail : Mem} {bs : List Content} (h : d.pread x = some m)
      (hs : Follows d (d.logNext x) bs) : Follows d x (parseBlk (withTail m tail) :: bs)

theorem pread_neg_one (d : Disk) : d.pread (-1) = none := by
  unfold Disk.pread
  rw [if_neg]
  rintro ⟨h, -⟩
  revert h
  decide

/-- The next block named in a block read is the one the image names. -/
theorem logNext_addr {x : Int64} {m tail : Mem} (h : d.pread x = some m) :
    (parseBlk (withTail m tail)).logNext.addr = d.logNext x := by
  unfold Disk.logNext Content.logNext
  rw [h, (parseBlk_withTail m tail).1]
  unfold gefsUnpackbp
  dsimp only
  rw [unpack64_congr fun j hj => if_pos (by rw [show gefsBlksz = 16384 from rfl]; omega)]

/-- A block that cannot be read ends the chain. -/
theorem chainBlks_none {bp : GefsBptr} (h : Reads d ctx) (hp : d.pread bp.addr = Option.none)
    (fuel : ℕ) : ∃ ctx', chainBlks (fuel + 1) ctx bp = Option.some ([], ctx') ∧ Reads d ctx' := by
  rw [chainBlks_succ]
  by_cases h1 : bp.addr = -1
  · rw [if_pos h1]
    exact ⟨ctx, rfl, h⟩
  · rw [if_neg h1]
    have ht := h.none hp
    have hr := h.touchBlk bp
    generalize touchBlk ctx bp = r at ht hr ⊢
    obtain ⟨_ | b, ctx1⟩ := r
    · exact ⟨ctx1, rfl, hr⟩
    · cases ht

/-- A block that can be read is followed by the one it names. -/
theorem chainBlks_some {bp : GefsBptr} {m : Mem} (h : Reads d ctx)
    (hp : d.pread bp.addr = Option.some m) (fuel : ℕ) :
    ∃ b : GefsBlk, ∃ tail ctx1, Reads d ctx1 ∧ b.toContent = parseBlk (withTail m tail)
      ∧ chainBlks (fuel + 1) ctx bp = (chainBlks fuel ctx1 b.logNext).map fun (bs, ctx) =>
          (b.toContent :: bs, ctx) := by
  have hne : bp.addr ≠ -1 := by
    intro he
    rw [he, pread_neg_one] at hp
    cases hp
  obtain ⟨b, tail, hb, ht⟩ := h.some hp
  have hr := h.touchBlk bp
  rw [chainBlks_succ, if_neg hne]
  generalize touchBlk ctx bp = r at hb hr ⊢
  obtain ⟨_ | b', ctx1⟩ := r
  · cases hb
  · obtain rfl := Option.some.inj hb
    exact ⟨b', tail, ctx1, hr, ht, rfl⟩

/-- There are enough rounds if and only if the chain ends within them, and the blocks read are then
those the image chains. -/
theorem chainBlks_spec : ∀ {fuel : ℕ} {ctx : GefsCtx} {bp : GefsBptr}, Reads d ctx →
    ((chainBlks (fuel + 1) ctx bp).isSome ↔ d.logChain fuel bp.addr = Option.none)
      ∧ ∀ bs ctx', chainBlks (fuel + 1) ctx bp = Option.some (bs, ctx') →
        Reads d ctx' ∧ Follows d bp.addr bs
  | fuel, ctx, bp, h => by
    rcases hp : d.pread bp.addr with _ | m
    · obtain ⟨ctx1, he, hr⟩ := chainBlks_none h hp fuel
      rw [he]
      refine ⟨?_, ?_⟩
      · cases fuel <;> simp [Disk.logChain, hp]
      · rintro bs ctx' hbs
        obtain ⟨rfl, rfl⟩ := Prod.mk.inj (Option.some.inj hbs)
        exact ⟨hr, .fin hp⟩
    · obtain ⟨b, tail, ctx1, hr, hb, he⟩ := chainBlks_some h hp fuel
      have hnext : b.logNext.addr = d.logNext bp.addr := by
        rw [show b.logNext = b.toContent.logNext from rfl, hb, logNext_addr hp]
      rw [he, Option.isSome_map]
      match fuel with
      | 0 => simp [chainBlks, Disk.logChain, hp]
      | fuel + 1 =>
        obtain ⟨hi, hf⟩ := @chainBlks_spec fuel ctx1 b.logNext hr
        rw [hi, hnext]
        refine ⟨by simp [Disk.logChain, hp], ?_⟩
        rintro bs ctx' hbs
        obtain ⟨⟨bs', c⟩, hc, hbs'⟩ := Option.map_eq_some_iff.1 hbs
        obtain ⟨rfl, rfl⟩ := Prod.mk.inj hbs'
        obtain ⟨hr', hf'⟩ := hf _ _ hc
        refine ⟨hr', ?_⟩
        rw [hb]
        exact .step hp (hnext ▸ hf')

end Chain

/-! ## A chain that comes to an end -/

section Ends

variable {d : Disk}

theorem logChain_none_mono {k l : ℕ} (hkl : k ≤ l) {x : Int64} (h : d.logChain k x = none) :
    d.logChain l x = none := by
  induction k generalizing l x with
  | zero =>
    rw [Disk.logChain] at h
    have hx : ¬ (d.pread x).isSome := fun hx => by simp [hx] at h
    cases l <;> rw [Disk.logChain, if_neg hx]
  | succ k ih =>
    obtain ⟨l, rfl⟩ := Nat.exists_eq_succ_of_ne_zero (show l ≠ 0 by omega)
    rw [Disk.logChain] at h ⊢
    by_cases hx : (d.pread x).isSome
    · rw [if_pos hx] at h ⊢
      exact ih (by omega) h
    · rw [if_neg hx]

theorem logChain_add {i : ℕ} (n : ℕ) {x y : Int64} (h : d.logChain i x = some y) :
    d.logChain (i + n) x = d.logChain n y := by
  induction i generalizing x with
  | zero =>
    rw [Disk.logChain] at h
    by_cases hx : (d.pread x).isSome
    · rw [if_pos hx] at h
      obtain rfl := Option.some.inj h
      rw [Nat.zero_add]
    · rw [if_neg hx] at h
      cases h
  | succ i ih =>
    rw [Disk.logChain] at h
    rw [Nat.succ_add, Disk.logChain]
    by_cases hx : (d.pread x).isSome
    · rw [if_pos hx] at h ⊢
      exact ih h
    · rw [if_neg hx] at h
      cases h

/-- A block that the chain comes back to after `p` blocks it comes back to forever. -/
theorem logChain_period {p : ℕ} {y : Int64} (h : d.logChain p y = some y) (n : ℕ) :
    d.logChain (p * n) y ≠ none := by
  induction n with
  | zero =>
    intro h0
    rw [logChain_none_mono (Nat.zero_le p) h0] at h
    cases h
  | succ n ih =>
    rw [Nat.mul_succ, Nat.add_comm, logChain_add _ h]
    exact ih

instance finite_int64 : Finite Int64 :=
  .of_injective (fun x : Int64 => x.toBitVec.toFin) fun _ _ h =>
    Int64.toBitVec_inj.1 (BitVec.toFin_inj.1 h)

/-- A chain comes to an end if and only if no block comes twice in it. -/
theorem exists_logChain_none {x : Int64} : (∃ k, d.logChain k x = none)
    ↔ ∀ i j y, i < j → d.logChain i x = some y → d.logChain j x ≠ some y := by
  constructor
  · rintro ⟨k, hk⟩ i j y hij hi hj
    have hp : d.logChain (j - i) y = some y := by
      rw [← logChain_add _ hi, Nat.add_sub_cancel' hij.le, hj]
    refine logChain_period hp k (logChain_none_mono (k := k) ?_ ?_)
    · exact Nat.le_mul_of_pos_left k (by omega)
    · rw [← logChain_add _ hi]
      exact logChain_none_mono (by omega) hk
  · intro h
    by_contra hn
    push Not at hn
    choose f hf using fun k => Option.ne_none_iff_exists'.1 (hn k)
    refine not_injective_infinite_finite f fun i j hij => ?_
    rcases lt_trichotomy i j with hlt | heq | hlt
    · exact absurd (hij ▸ hf j) (h i j _ hlt (hf i))
    · exact heq
    · exact absurd (hij ▸ hf i) (h j i _ hlt (hf j))

/-- The entries of each block of the chain from `x` on end in it. -/
def Disk.ChainFits (d : Disk) (x : Int64) : Prop :=
  ∀ i y m, d.logChain i x = some y → d.pread y = some m →
    (parseBlk m).data + (parseBlk m).entriesEnd ≤ gefsBlksz

theorem chainOk_iff {x : Int64} : d.ChainOk x ↔ (∃ k, d.logChain k x = none) ∧ d.ChainFits x := by
  rw [exists_logChain_none]
  exact ⟨fun h => ⟨h.acyclic, h.fits⟩, fun h => ⟨h.1, h.2⟩⟩

theorem chainFits_of_absent {x : Int64} (hx : d.pread x = none) : d.ChainFits x := by
  intro i y m hi hy
  have h0 : d.logChain 0 x = none := by
    rw [Disk.logChain, hx]
    rfl
  rw [logChain_none_mono (Nat.zero_le i) h0] at hi
  cases hi

theorem chainFits_step {x : Int64} {m : Mem} (hx : d.pread x = some m) : d.ChainFits x
    ↔ (parseBlk m).data + (parseBlk m).entriesEnd ≤ gefsBlksz ∧ d.ChainFits (d.logNext x) := by
  constructor
  · intro h
    refine ⟨h 0 x m (by simp [Disk.logChain, hx]) hx, fun i y m' hi hy => ?_⟩
    exact h (i + 1) y m' (by simpa [Disk.logChain, hx] using hi) hy
  · rintro ⟨h0, h⟩ (_ | i) y m' hi hy
    · obtain rfl : x = y := by simpa [Disk.logChain, hx] using hi
      rw [hx] at hy
      obtain rfl := Option.some.inj hy
      exact h0
    · exact h i y m' (by simpa [Disk.logChain, hx] using hi) hy

/-- The words read in the blocks of a chain lie in them if and only if the entries end in them. -/
theorem Follows.inside {x : Int64} {bs : List Content} (h : Follows d x bs) :
    (∀ b ∈ bs, b.ReadInside) ↔ d.ChainFits x := by
  induction h with
  | fin hx => simp [chainFits_of_absent hx]
  | step hx _ ih => rw [List.forall_mem_cons, ih, readInside_iff, chainFits_step hx]

end Ends

/-! ## The arenas of an image -/

section Arenas

variable {d : Disk} {ctx : GefsCtx}

theorem logHead_eq {x : Int64} {m : Mem} (h : d.pread x = some m) (tail : Mem) :
    d.logHead x = some (gefsUnpackbp (parseBlk (withTail m tail)).buf
      ((parseBlk (withTail m tail)).data + 32)).addr := by
  have hbs : gefsBlksz = 16384 := rfl
  have hle := parseBlk_data_le m
  obtain ⟨hbuf, hd⟩ := parseBlk_withTail m tail
  unfold Disk.logHead
  rw [h, Option.map_some, hbuf, hd]
  unfold gefsUnpackbp
  dsimp only
  rw [@unpack64_congr m _ (withTail m tail) _ fun j hj => if_pos (by omega)]

/-- The log blocks of an arena: there are enough rounds if and only if its chain ends within them,
and the blocks are those of its chain. -/
theorem arenaBlks_spec (h : Reads d ctx) (fuel : ℕ) (bp : GefsBptr) :
    ((arenaBlks fuel ctx bp).isSome
      ↔ ∀ x ∈ d.logHead bp.addr, 0 < fuel ∧ d.logChain (fuel - 1) x = none)
    ∧ ∀ bs ctx', arenaBlks fuel ctx bp = some (bs, ctx') → Reads d ctx'
      ∧ ((∀ b ∈ bs, b.ReadInside) ↔ ∀ x ∈ d.logHead bp.addr, d.ChainFits x) := by
  have hr := h.touchBlk bp
  rw [arenaBlks_eq]
  rcases hp : d.pread bp.addr with _ | m
  · have ht := h.none hp
    have hx : d.logHead bp.addr = none := by
      unfold Disk.logHead
      rw [hp, Option.map_none]
    generalize touchBlk ctx bp = r at ht hr ⊢
    obtain ⟨_ | b, ctx1⟩ := r
    · rw [hx]
      refine ⟨by simp, ?_⟩
      rintro bs ctx' he
      obtain ⟨rfl, rfl⟩ := Prod.mk.inj (Option.some.inj he)
      exact ⟨hr, by simp⟩
    · cases ht
  · obtain ⟨b, tail, hb, ht⟩ := h.some hp
    have hx : d.logHead bp.addr = some (gefsUnpackbp b.buf (b.data + 32)).addr := by
      rw [show b.buf = b.toContent.buf from rfl, show b.data = b.toContent.data from rfl, ht]
      exact logHead_eq hp tail
    generalize touchBlk ctx bp = r at hb hr ⊢
    obtain ⟨_ | b', ctx1⟩ := r
    · cases hb
    · obtain rfl := Option.some.inj hb
      rw [hx]
      simp only [Option.mem_some_iff, forall_eq']
      rcases fuel with _ | fuel
      · exact ⟨by simp [chainBlks], fun bs ctx' he => by simp [chainBlks] at he⟩
      · obtain ⟨hi, hf⟩ := @chainBlks_spec d fuel ctx1 (gefsUnpackbp b'.buf (b'.data + 32)) hr
        refine ⟨by simpa using hi, fun bs ctx' he => ?_⟩
        obtain ⟨hr', hfol⟩ := hf bs ctx' he
        exact ⟨hr', hfol.inside⟩

theorem arenasBlks_spec (fuel : ℕ) : ∀ (bps : List GefsBptr) {ctx : GefsCtx}, Reads d ctx →
    ((arenasBlks fuel bps ctx).isSome
      ↔ ∀ bp ∈ bps, ∀ x ∈ d.logHead bp.addr, 0 < fuel ∧ d.logChain (fuel - 1) x = none)
    ∧ ∀ bs ctx', arenasBlks fuel bps ctx = some (bs, ctx') →
      ((∀ b ∈ bs, b.ReadInside) ↔ ∀ bp ∈ bps, ∀ x ∈ d.logHead bp.addr, d.ChainFits x)
  | [], ctx, _ => by
    refine ⟨by simp [arenasBlks], fun bs ctx' he => ?_⟩
    obtain ⟨rfl, -⟩ := Prod.mk.inj (Option.some.inj he)
    simp
  | bp :: bps, ctx, h => by
    obtain ⟨hi, hf⟩ := arenaBlks_spec h fuel bp
    rw [arenasBlks, List.forall_mem_cons, List.forall_mem_cons, ← hi]
    generalize arenaBlks fuel ctx bp = r at hf ⊢
    obtain _ | ⟨bs1, ctx1⟩ := r
    · exact ⟨by simp, fun bs ctx' he => by simp at he⟩
    · obtain ⟨hr1, hin1⟩ := hf _ _ rfl
      obtain ⟨his, hfs⟩ := arenasBlks_spec fuel bps hr1
      rw [← his, ← hin1]
      simp only [Option.bind_eq_bind, Option.bind_some]
      generalize arenasBlks fuel bps ctx1 = r2 at hfs ⊢
      obtain _ | ⟨bs2, ctx2⟩ := r2
      · exact ⟨by simp, fun bs ctx' he => by simp at he⟩
      · refine ⟨by simp, fun bs ctx' he => ?_⟩
        obtain ⟨rfl, -⟩ := Prod.mk.inj (Option.some.inj he)
        rw [List.forall_mem_append, hfs _ _ rfl]

/-- The arenas are loaded if and only if their log blocks come to an end. -/
theorem loadArenas_snd (fuel : ℕ) : ∀ (bps : List GefsBptr) (ctx : GefsCtx),
    (loadArenas fuel bps ctx).map Prod.snd = (arenasBlks fuel bps ctx).map Prod.snd
  | [], _ => rfl
  | bp :: bps, ctx => by
    have harena : (loadArena fuel ctx bp).map Prod.snd = (arenaBlks fuel ctx bp).map Prod.snd := by
      unfold loadArena arenaBlks
      rcases gefsGetblk ctx bp with ⟨_ | b, ctx1⟩
      · rfl
      · dsimp only
        rw [loadChain_blks]
        rcases chainBlks fuel (gefsDropblk ctx1 b) _ with _ | ⟨bs, ctx2⟩ <;> rfl
    rw [loadArenas, arenasBlks]
    rcases ha : loadArena fuel ctx bp with _ | ⟨a, ctx1⟩
      <;> rcases hb : arenaBlks fuel ctx bp with _ | ⟨bs, ctx2⟩ <;> rw [ha, hb] at harena
    · rfl
    · cases harena
    · cases harena
    · obtain rfl := Option.some.inj harena
      have ih := loadArenas_snd fuel bps ctx1
      rcases hc : loadArenas fuel bps ctx1 with _ | ⟨as, ctx3⟩
        <;> rcases hd : arenasBlks fuel bps ctx1 with _ | ⟨bs', ctx4⟩ <;> rw [hc, hd] at ih
      · simp [hc, hd]
      · cases ih
      · cases ih
      · simpa [hc, hd] using ih

/-- One number of rounds is enough for all. -/
theorem exists_bound {d : Disk} : ∀ {bps : List GefsBptr},
    (∀ bp ∈ bps, ∀ x ∈ d.logHead bp.addr, ∃ k, d.logChain k x = none) →
    ∃ k, ∀ bp ∈ bps, ∀ x ∈ d.logHead bp.addr, d.logChain k x = none
  | [], _ => ⟨0, by simp⟩
  | bp :: bps, h => by
    obtain ⟨h1, h2⟩ := List.forall_mem_cons.1 h
    obtain ⟨k2, hk2⟩ := exists_bound h2
    rcases hx : d.logHead bp.addr with _ | x
    · refine ⟨k2, List.forall_mem_cons.2 ⟨by simp [hx], hk2⟩⟩
    · obtain ⟨k1, hk1⟩ := h1 x hx
      refine ⟨k1 + k2, List.forall_mem_cons.2 ⟨?_, fun bp' hbp x' hx' => ?_⟩⟩
      · rintro x' hx'
        obtain rfl : x = x' := by simpa [hx] using hx'
        exact logChain_none_mono (by omega) hk1
      · exact logChain_none_mono (by omega) (hk2 bp' hbp x' hx')

theorem isSome_loadArenas (fuel : ℕ) (bps : List GefsBptr) (ctx : GefsCtx) :
    (loadArenas fuel bps ctx).isSome = (arenasBlks fuel bps ctx).isSome := by
  rw [← Option.isSome_map (f := Prod.snd), loadArenas_snd, Option.isSome_map]

variable {readonly : Bool} {heap : ℕ → Mem} {sb : GefsSuper}

theorem LoadsInside.chainOk (h : LoadsInside d readonly heap sb) {bp : GefsBptr}
    (hbp : bp ∈ sb.arenabp) {x : Int64} (hx : d.logHead bp.addr = some x) : d.ChainOk x := by
  obtain ⟨fuel, hfuel⟩ := h.ends
  rw [isSome_loadArenas] at hfuel
  obtain ⟨hi, hf⟩ := arenasBlks_spec fuel sb.arenabp (reads_freshCtx d readonly heap sb)
  obtain ⟨⟨bs, ctx'⟩, he⟩ := Option.isSome_iff_exists.1 hfuel
  refine chainOk_iff.2 ⟨⟨fuel - 1, (hi.1 hfuel bp hbp x hx).2⟩, ?_⟩
  exact (hf bs ctx' he).1 (h.inside fuel bs ctx' he) bp hbp x hx

theorem loadsInside_of_chainOk (h : ∀ bp ∈ sb.arenabp, ∀ x ∈ d.logHead bp.addr, d.ChainOk x) :
    LoadsInside d readonly heap sb := by
  have hreads := reads_freshCtx d readonly heap sb
  obtain ⟨k, hk⟩ := exists_bound fun bp hbp x hx => (chainOk_iff.1 (h bp hbp x hx)).1
  refine ⟨⟨k + 1, ?_⟩, fun fuel bs ctx' he => ?_⟩
  · rw [isSome_loadArenas, (arenasBlks_spec (k + 1) sb.arenabp hreads).1]
    exact fun bp hbp x hx => ⟨k.succ_pos, hk bp hbp x hx⟩
  · refine ((arenasBlks_spec fuel sb.arenabp hreads).2 bs ctx' he).2 fun bp hbp x hx => ?_
    exact (chainOk_iff.1 (h bp hbp x hx)).2

end Arenas

/-- The arenas of an image are loaded, and nothing is read past the end of a block, if and only if
no chain of log blocks comes to a block twice and the entries of each block end in it. -/
theorem loadsInside_iff (d : Disk) (readonly : Bool) (heap : ℕ → Mem) (sb : GefsSuper) :
    LoadsInside d readonly heap sb
      ↔ ∀ bp ∈ sb.arenabp, ∀ x ∈ d.logHead bp.addr, d.ChainOk x :=
  ⟨fun h _ hbp _ hx => h.chainOk hbp hx, loadsInside_of_chainOk⟩

/-! ## A log block that names itself -/

def loopSb : GefsSuper :=
  { blksz := 16384, bufspc := 0, narena := 1, snap := zeroTree, flag := 0, nextqid := 0, nextgen := 0
    qgen := 0, arenabp := [⟨16384, 0, -1⟩] }

/-- The header of the only arena names the log block behind it, and that one names itself. -/
def loopDisk : Disk where
  size := 49152
  byte i :=
    if i < 16384 then packSbBlock loopSb i
    else if i = 16385 then 6
    else if i = 32769 then 4
    else if i = 16422 ∨ i = 32786 then 0x80
    else 0

theorem readSuper_loopDisk : readSuper loopDisk = .ok (sbRead loopSb) := by
  have hok : SuperOk loopSb := ⟨by decide, by decide, rfl⟩
  have hp : loopDisk.pread 0 = some (loopDisk.window 0) := if_pos (by decide)
  have hm : ∀ i < gefsBlksz, loopDisk.window 0 i = packSbBlock loopSb i := by
    intro i hi
    unfold Disk.window
    rw [Nat.zero_add]
    exact if_pos hi
  unfold readSuper
  rw [hp]
  dsimp only
  rw [gefsUnpacksb_packSbBlock hok hm]

/-- An image is accepted whose only log block names itself, and the loop over it never ends. -/
theorem not_forall_loadsInside : ¬ ∀ (d : Disk) (readonly : Bool) (heap : ℕ → Mem) (sb : GefsSuper),
    readSuper d = .ok sb → LoadsInside d readonly heap sb := by
  intro h
  have hin := h loopDisk false (fun _ _ => 0) _ readSuper_loopDisk
  have hhead : loopDisk.logHead 16384 = some 32768 := by decide +kernel
  have hbp : (⟨16384, 0, -1⟩ : GefsBptr) ∈ (sbRead loopSb).arenabp := List.mem_cons_self
  have hok := hin.chainOk hbp hhead
  exact hok.acyclic 0 1 32768 Nat.zero_lt_one (by decide +kernel) (by decide +kernel)

end GefsFuse
