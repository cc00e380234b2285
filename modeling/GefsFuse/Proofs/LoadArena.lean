import GefsFuse.Proofs.LogChain

/-!
# The arenas of a formatted image, loaded

The formatter writes an arena's size, use and log head two bytes behind the start of the header,
and `load_arena` reads them at its start. So the log head comes back divided by 2^16, in every
arena of every image (`loadArena_loghd`), and no arena comes back as it was written.
-/

namespace GefsFuse

open ByteMem Ranges

/-! ## What should come back -/

/-- The addresses the log of an arena declares free and does not declare allocated. -/
def reamFree (logaddr asz : ℕ) : Set ℤ :=
  (logOps (memOf (reamLog logaddr asz)) 40 40 0).foldl LogOp.after ∅

/-- The four blocks placed in the first arena. -/
def rootBlks : List Rng :=
  [mbAddr, abAddr, ubAddr, tbAddr].map fun addr => ⟨addr, gefsBlksz⟩

/-- The `i`-th arena of an image of `n` bytes as the formatter wrote it. -/
structure ArenaBack (n i : ℕ) (a : GefsArena) : Prop where
  size : a.size = Int64.ofNat (reamAsz n)
  used : a.used = Int64.ofNat gefsBlksz
  loghd : a.loghd.addr = Int64.ofNat (16384 + 32768 + i * stride n)
  free : Exact (a.freeList.map GefsRange.rng)
    (reamFree (16384 + 32768 + i * stride n) (reamAsz n))
  roots : i = 0 → ∀ r ∈ rootBlks, ∀ x ∈ r.bytes, ∀ f ∈ a.freeList, x ∉ f.rng.bytes

/-- The arenas of the image can be loaded, and the `i`-th comes back as it was written. -/
def LoadsBack (d' : Disk) (n i : ℕ) (readonly : Bool) (heap : ℕ → Mem) : Prop :=
  ∃ sb fuel as ctx' a, readSuper d' = .ok sb
    ∧ loadArenas fuel sb.arenabp (freshCtx d' readonly heap sb) = some (as, ctx')
    ∧ as[i]? = some a ∧ ArenaBack n i a

/-! ## What comes back -/

/-- Each arena is loaded from its own header, after the ones before it. -/
theorem loadArenas_get {fuel : ℕ} : ∀ {bps : List GefsBptr} {ctx ctx' : GefsCtx}
    {as : List GefsArena}, CtxOk ctx → loadArenas fuel bps ctx = some (as, ctx') →
    ∀ {i : ℕ} {a : GefsArena}, as[i]? = some a → ∃ bp ctx1 ctx2, bps[i]? = some bp
      ∧ Keeps ctx ctx1 ∧ loadArena fuel ctx1 bp = some (a, ctx2)
  | [], ctx, ctx', as, _, h, i, a, ha => by
    obtain ⟨rfl, -⟩ := Prod.mk.inj (Option.some.inj h)
    cases ha
  | bp :: bps, ctx, ctx', as, hok, h, i, a, ha => by
    obtain ⟨⟨a1, ctx1⟩, h1, h⟩ := Option.bind_eq_some_iff.1 h
    obtain ⟨⟨as1, ctx2⟩, h2, h⟩ := Option.bind_eq_some_iff.1 h
    obtain ⟨rfl, rfl⟩ := Prod.mk.inj (Option.some.inj h)
    have hk := loadArena_keeps hok h1
    rcases i with _ | i
    · obtain rfl := Option.some.inj ha
      exact ⟨bp, ctx, ctx1, rfl, .refl hok, h1⟩
    · obtain ⟨bp', c1, c2, hbp, hk', hl⟩ := loadArenas_get hk.ok h2 ha
      exact ⟨bp', c1, c2, hbp, hk.trans hk', hl⟩

/-- The log head is read from the 32nd byte of the header's data on. -/
theorem loadArena_held {fuel : ℕ} {ctx ctx' : GefsCtx} {bp : GefsBptr} {a : GefsArena} {m : Mem}
    (hok : CtxOk ctx) (hm : Held ctx bp.addr fun c => ∃ tail, c = parseBlk (withTail m tail))
    (h : loadArena fuel ctx bp = some (a, ctx')) : ∃ tail, a.loghd
      = gefsUnpackbp (parseBlk (withTail m tail)).buf ((parseBlk (withTail m tail)).data + 32) := by
  obtain ⟨b, hb, tail, ht⟩ := (touchBlk_spec hok bp).2 _ hm
  unfold touchBlk at hb
  unfold loadArena at h
  rcases hg : gefsGetblk ctx bp with ⟨_ | b', ctx1⟩ <;> rw [hg] at h hb
  · cases hb
  · obtain rfl := Option.some.inj hb
    obtain ⟨⟨fl, ctx2⟩, -, he⟩ := Option.bind_eq_some_iff.1 h
    obtain ⟨rfl, -⟩ := Prod.mk.inj (Option.some.inj he)
    refine ⟨tail, ?_⟩
    rw [← ht]

section Formatted

variable {d d' : Disk} {r a u tb : GefsBptr} {nu : ℕ} {bps : List GefsBptr}

theorem logaddr_lt (hf : Formatted d d' r a u tb nu bps) {i : ℕ} (hi : i < reamNarena d.size) :
    16384 + 32768 + i * stride d.size < 2 ^ 63 := by
  have hend := arenas_end hf.lo
  have hle := Nat.mul_le_mul_right (stride d.size) (show i + 1 ≤ reamNarena d.size from hi)
  have hge := stride_ge hf.lo
  obtain ⟨hus, -⟩ := usable_le hf.lo
  have hlt := hf.lt
  rw [Nat.succ_mul] at hle
  omega

theorem zero_lt_reamNarena (n : ℕ) : 0 < reamNarena n :=
  lt_of_lt_of_le (by decide) (reamNarena_bounds n).1

/-- The address that comes back for a log head is the one written, divided by 2^16. -/
theorem loadArena_loghd (hf : Formatted d d' r a u tb nu bps) {i : ℕ} (hi : i < reamNarena d.size)
    {fuel : ℕ} {ctx ctx' : GefsCtx} {bp : GefsBptr} {ar : GefsArena} (hctx : CtxOk ctx)
    (hbp : bp.addr = Int64.ofNat (16384 + i * stride d.size))
    (hheld : ∀ x m, d'.pread x = some m →
      Held ctx x fun c => ∃ tail, c = parseBlk (withTail m tail))
    (h : loadArena fuel ctx bp = some (ar, ctx')) :
    ar.loghd.addr = (UInt64.ofNat ((16384 + 32768 + i * stride d.size) / 65536)).toInt64 := by
  obtain ⟨m, hm, heq⟩ := hf.hdr i hi
  rw [← hbp] at hm
  obtain ⟨tail, hlog⟩ := loadArena_held hctx (hheld _ _ hm) h
  have hlt := logaddr_lt hf hi
  have hl : (reamLogBlk (16384 + i * stride d.size + 32768) (reamAsz d.size)).bp.addr
      = Int64.ofNat (16384 + 32768 + i * stride d.size) := by
    rw [reamLogBlk_addr]
    congr 1
    omega
  have hw : ∀ j < gefsBlksz, withTail m tail j
      = (hdrAt (16384 + i * stride d.size) (reamAsz d.size)).buf j := fun j hj =>
    (if_pos hj).trans (heq j hj)
  obtain ⟨h16, h64⟩ := unpack64_arenaHdr _ hlt hl hw
  rw [hlog, parseBlk_raw h16 (by decide) (by decide)]
  show (unpack64 (withTail m tail) 32).toInt64 = _
  rw [h64]

theorem ofNat_div_ne {x : ℕ} (h0 : 0 < x) (hx : x < 2 ^ 63) :
    (UInt64.ofNat (x / 65536)).toInt64 ≠ Int64.ofNat x := by
  intro h
  have h1 : (UInt64.ofNat (x / 65536)).toNat = x / 65536 :=
    UInt64.toNat_ofNat_of_lt (by simp only [UInt64.size]; omega)
  have h2 : (UInt64.ofNat x).toNat = x :=
    UInt64.toNat_ofNat_of_lt (by simp only [UInt64.size]; omega)
  have h3 : UInt64.ofNat (x / 65536) = UInt64.ofNat x := by
    have := congrArg Int64.toUInt64 h
    simpa using this
  rw [h3, h2] at h1
  omega

/-- No arena of a formatted image comes back as it was written. -/
theorem not_loadsBack (hf : Formatted d d' r a u tb nu bps) {i : ℕ} (hi : i < reamNarena d.size)
    (readonly : Bool) (heap : ℕ → Mem) : ¬ LoadsBack d' d.size i readonly heap := by
  rintro ⟨sb, fuel, as, ctx', ar, hsb, hload, har, hback⟩
  obtain rfl := Except.ok.inj ((readSuper_formatted hf).symm.trans hsb)
  have hreads := reads_freshCtx d' readonly heap (sbRead (reamSuper (reamNarena d.size) tb bps))
  obtain ⟨bp, ctx1, ctx2, hbp, hk, hl⟩ := loadArenas_get hreads.ok hload har
  have hib : i < bps.length := hf.length ▸ hi
  have haddr : bp.addr = Int64.ofNat (16384 + i * stride d.size) := by
    have hget : (bps.map fun bp => (⟨bp.addr, bp.hash, -1⟩ : GefsBptr))[i]? = some bp := hbp
    rw [List.getElem?_map, List.getElem?_eq_getElem hib] at hget
    obtain rfl := Option.some.inj hget
    exact hf.addr i hib
  have hlog := loadArena_loghd hf hi hk.ok haddr (fun x m hm => hk.held _ _ (hreads.held x m hm)) hl
  rw [hback.loghd] at hlog
  exact ofNat_div_ne (by omega) (logaddr_lt hf hi) hlog.symm

end Formatted

/-- No image is formatted so that any of its arenas comes back as it was written. -/
theorem mkfs_not_loadsBack {user : Bytes} {d d' : Disk} (h : mkfs user d = some d') {i : ℕ}
    (hi : i < reamNarena d.size) (readonly : Bool) (heap : ℕ → Mem) :
    ¬ LoadsBack d' d.size i readonly heap := by
  obtain ⟨r, a, u, tb, nu, bps, hf⟩ := mkfs_formatted h
  exact not_loadsBack hf hi readonly heap

theorem blankImage_not_loadsBack : ∃ d', mkfs [] blankImage = some d'
    ∧ ¬ LoadsBack d' blankImage.size 0 false fun _ _ => 0 := by
  obtain ⟨d', h⟩ := mkfs_blankImage
  exact ⟨d', h, mkfs_not_loadsBack h (zero_lt_reamNarena _) false _⟩

/-- The first arena of the image made of the blank one. -/
theorem not_forall_loadsBack : ¬ ∀ (user : Bytes) (d d' : Disk), mkfs user d = some d' →
    ∀ i < reamNarena d.size, ∀ (readonly : Bool) (heap : ℕ → Mem),
      LoadsBack d' d.size i readonly heap := by
  intro hall
  obtain ⟨d', h⟩ := mkfs_blankImage
  obtain ⟨r, a, u, tb, nu, bps, hf⟩ := mkfs_formatted h
  exact not_loadsBack hf (zero_lt_reamNarena _) false (fun _ _ => 0)
    (hall [] blankImage d' h 0 (zero_lt_reamNarena _) false fun _ _ => 0)

end GefsFuse
