import GefsFuse.Geometry

/-!
# An image of every size is laid out without overlap

No step of the arithmetic wraps (`toInt_roundLess2`, `toInt_mkfsNarena`, `toInt_mkfsOff`), and the
numbers are those the formatter's model uses (`mkfsLayout_eq`).
-/

namespace GefsFuse

theorem toNat_toUInt64 {n : Int64} (h : 0 ≤ n.toInt) : (n.toUInt64.toNat : ℤ) = n.toInt := by
  have h1 : n.toUInt64.toNat = n.toBitVec.toNat := rfl
  have h2 : n.toInt = n.toBitVec.toInt := rfl
  rw [h2] at h ⊢
  rw [h1, BitVec.toInt_eq_toNat_of_msb]
  rwa [BitVec.msb_eq_toInt, decide_eq_false_iff_not, not_lt]

theorem toInt_toInt64 {n : UInt64} (h : n.toNat < 2 ^ 63) : n.toInt64.toInt = n.toNat := by
  change n.toBitVec.toInt = _
  rw [BitVec.toInt_eq_toNat_of_lt (by rw [UInt64.toNat_toBitVec]; omega), UInt64.toNat_toBitVec]

theorem toInt_roundLess2 {sz : Int64} (h : 3 * 16384 ≤ sz.toInt) :
    (roundLess2 sz).toInt = sz.toInt - sz.toInt % 16384 - 2 * 16384 := by
  have hlt := sz.toInt_lt
  have hn := toNat_toUInt64 (n := sz) (by omega)
  have hmod : (sz.toUInt64 % ublksz).toNat = sz.toUInt64.toNat % 16384 := UInt64.toNat_mod _ _
  have hle : sz.toUInt64 % ublksz ≤ sz.toUInt64 := by
    rw [UInt64.le_iff_toNat_le]
    omega
  have h1 := UInt64.toNat_sub_of_le _ _ hle
  have h2 : (2 * ublksz).toNat = 32768 := rfl
  have h3 := UInt64.toNat_sub_of_le (sz.toUInt64 - sz.toUInt64 % ublksz) (2 * ublksz) (by
    rw [UInt64.le_iff_toNat_le]
    omega)
  rw [roundLess2, toInt_toInt64 (by omega)]
  omega

/-- The number of arenas for a size. -/
def arenasOf (sz : ℤ) : ℤ := min (max ((sz + 2 ^ 42 - 1) / 2 ^ 42) 8) 32

theorem toInt_mkfsNarena {sz : Int64} (h : 0 ≤ sz.toInt) :
    (mkfsNarena sz).toInt = arenasOf sz.toInt := by
  have hlt := sz.toInt_lt
  have hn := toNat_toUInt64 h
  have hmax : arenaMax.toNat = 2 ^ 42 := rfl
  have h1 : (sz.toUInt64 + arenaMax).toNat = sz.toUInt64.toNat + 2 ^ 42 := by
    rw [UInt64.toNat_add, hmax]
    omega
  have h2 : (sz.toUInt64 + arenaMax - 1).toNat = sz.toUInt64.toNat + 2 ^ 42 - 1 := by
    rw [UInt64.toNat_sub_of_le _ _ (by
      rw [UInt64.le_iff_toNat_le, h1]
      change 1 ≤ _
      omega), h1]
    rfl
  have h3 : ((sz.toUInt64 + arenaMax - 1) / arenaMax).toNat
      = (sz.toUInt64.toNat + 2 ^ 42 - 1) / 2 ^ 42 := by
    rw [UInt64.toNat_div, h2, hmax]
  unfold mkfsNarena
  generalize (sz.toUInt64 + arenaMax - 1) / arenaMax = q at h3
  have hq : q.toUInt32.toInt32.toInt = (sz.toUInt64.toNat + 2 ^ 42 - 1) / 2 ^ 42 := by
    change q.toUInt32.toBitVec.toInt = _
    have h4 : q.toUInt32.toNat = q.toNat := by
      rw [UInt64.toNat_toUInt32]
      omega
    rw [BitVec.toInt_eq_toNat_of_lt (by rw [UInt32.toNat_toBitVec]; omega), UInt32.toNat_toBitVec,
      h4, h3]
    omega
  generalize q.toUInt32.toInt32 = n at hq
  unfold arenasOf
  have h8 : (8 : Int32).toInt = 8 := rfl
  have h32 : (32 : Int32).toInt = 32 := rfl
  dsimp only
  split_ifs with h5 h6 h6 <;> simp only [Int32.lt_iff_toInt_lt] at h5 h6 <;> omega

/-- The size of an arena. -/
def aszOf (sz : ℤ) : ℤ := sz / arenasOf sz - sz / arenasOf sz % 16384 - 2 * 16384

theorem arenasOf_le (sz : ℤ) : 8 ≤ arenasOf sz ∧ arenasOf sz ≤ 32 := by
  unfold arenasOf
  omega

/-- An arena is large where the size is. -/
theorem le_div_arenasOf {sz : ℤ} (h : 128 * 1024 * 1024 - 16384 ≤ sz) :
    8 * 1024 * 1024 ≤ sz / arenasOf sz := by
  obtain ⟨h8, h32⟩ := arenasOf_le sz
  rw [Int.le_ediv_iff_mul_le (by omega)]
  by_cases hsz : sz < 2 ^ 42 * 7
  · have : arenasOf sz = 8 := by
      unfold arenasOf
      omega
    omega
  · calc 8 * 1024 * 1024 * arenasOf sz ≤ 8 * 1024 * 1024 * 32 := by omega
      _ ≤ sz := by omega

theorem toInt_mkfsAsz {sz : Int64} (h : 128 * 1024 * 1024 - 16384 ≤ sz.toInt) :
    (mkfsAsz sz (mkfsNarena sz)).toInt = aszOf sz.toInt := by
  have hn := @toInt_mkfsNarena sz (by omega)
  obtain ⟨h8, h32⟩ := arenasOf_le sz.toInt
  have hdiv : (sz / (mkfsNarena sz).toInt64).toInt = sz.toInt / arenasOf sz.toInt := by
    rw [Int64.toInt_div_of_ne_right, Int32.toInt_toInt64, hn, Int.tdiv_eq_ediv_of_nonneg (by omega)]
    intro he
    have := congrArg Int64.toInt he
    rw [Int32.toInt_toInt64, hn] at this
    have h1 : (-1 : Int64).toInt = -1 := rfl
    omega
  have hlarge := le_div_arenasOf h
  rw [mkfsAsz, toInt_roundLess2, hdiv]
  · rfl
  · rw [hdiv]
    omega

/-- The arenas and what lies between them fill no more than the size. -/
theorem arenas_le (sz : ℤ) : arenasOf sz * (aszOf sz + 2 * 16384) ≤ sz := by
  obtain ⟨h8, -⟩ := arenasOf_le sz
  have h1 : aszOf sz + 2 * 16384 ≤ sz / arenasOf sz := by
    unfold aszOf
    have := Int.emod_nonneg (sz / arenasOf sz) (show (16384 : ℤ) ≠ 0 by decide)
    omega
  calc arenasOf sz * (aszOf sz + 2 * 16384) ≤ arenasOf sz * (sz / arenasOf sz) :=
        Int.mul_le_mul_of_nonneg_left h1 (by omega)
    _ ≤ sz := Int.mul_ediv_self_le (by omega)

theorem mul_le_of_lt {s sz n : ℤ} (hs : 0 ≤ s) (hle : n * s ≤ sz) {i : ℕ} (hi : (i : ℤ) < n) :
    i * s + s ≤ sz := by
  have : (i + 1) * s ≤ n * s := Int.mul_le_mul_of_nonneg_right (by omega) hs
  have he : (i + 1) * s = i * s + s := by ring
  omega

theorem toInt_mkfsOff {asz : Int64} {sz n : ℤ} (h0 : 0 ≤ asz.toInt)
    (hle : n * (asz.toInt + 2 * 16384) ≤ sz) (hsz : sz < 2 ^ 63 - 16384) :
    ∀ {i : ℕ}, (i : ℤ) ≤ n → (mkfsOff asz i).toInt = 16384 + i * (asz.toInt + 2 * 16384) := by
  intro i
  induction i with
  | zero =>
    intro _
    have : (mkfsOff asz 0).toInt = 16384 := rfl
    omega
  | succ i ih =>
    intro hi
    have ih := ih (by omega)
    have hm := mul_le_of_lt (by omega) hle (i := i) (by omega)
    have hnn : 0 ≤ (i : ℤ) * (asz.toInt + 2 * 16384) :=
      Int.mul_nonneg (by omega) (by omega)
    have h1 := toNat_toUInt64 (n := mkfsOff asz i) (by omega)
    have h2 := toNat_toUInt64 h0
    have h3 : (2 * ublksz).toNat = 32768 := rfl
    have h4 : ((mkfsOff asz i).toUInt64 + (asz.toUInt64 + 2 * ublksz)).toNat
        = (mkfsOff asz i).toUInt64.toNat + (asz.toUInt64.toNat + 32768) := by
      rw [UInt64.toNat_add, UInt64.toNat_add, h3]
      omega
    rw [mkfsOff, toInt_toInt64 (by omega), h4]
    have he : ((i + 1 : ℕ) : ℤ) * (asz.toInt + 2 * 16384)
        = i * (asz.toInt + 2 * 16384) + (asz.toInt + 2 * 16384) := by
      push_cast
      ring
    omega

theorem toInt_mkfsLogaddr {off : Int64} (h0 : 0 ≤ off.toInt) (hlt : off.toInt < 2 ^ 63 - 2 * 16384) :
    (mkfsLogaddr off).toInt = off.toInt + 2 * 16384 := by
  have h1 := toNat_toUInt64 h0
  have h2 : (2 * ublksz).toNat = 32768 := rfl
  have h3 : (off.toUInt64 + 2 * ublksz).toNat = off.toUInt64.toNat + 32768 := by
    rw [UInt64.toNat_add, h2]
    omega
  rw [mkfsLogaddr, toInt_toInt64 (by omega), h3]
  omega

theorem toInt_mkfsFree {asz : Int64} (h : 2 * 16384 ≤ asz.toInt) :
    (mkfsFree asz).toInt = asz.toInt - 2 * 16384 := by
  have hlt := asz.toInt_lt
  have h1 := toNat_toUInt64 (n := asz) (by omega)
  have h2 : (2 * ublksz).toNat = 32768 := rfl
  have h3 := UInt64.toNat_sub_of_le asz.toUInt64 (2 * ublksz) (by
    rw [UInt64.le_iff_toNat_le]
    omega)
  rw [mkfsFree, toInt_toInt64 (by omega)]
  omega

theorem toInt_mkfsLast {sz : Int64} (h0 : 0 ≤ sz.toInt) (hlt : sz.toInt < 2 ^ 63 - 16384) :
    (mkfsLast sz).toInt = sz.toInt + 16384 := by
  have h1 := toNat_toUInt64 h0
  have h2 : ublksz.toNat = 16384 := rfl
  have h3 : (sz.toUInt64 + ublksz).toNat = sz.toUInt64.toNat + 16384 := by
    rw [UInt64.toNat_add, h2]
    omega
  rw [mkfsLast, toInt_toInt64 (by omega), h3]
  omega

/-- Every image that is not too small is laid out without overlap. -/
theorem mkfsLayout_laid (size : Int64) (h : 128 * 1024 * 1024 + 16384 ≤ size.toInt) :
    Laid size.toInt (mkfsLayout size) := by
  have hlt := size.toInt_lt
  have hsz := @toInt_roundLess2 size (by omega)
  unfold mkfsLayout
  dsimp only
  generalize roundLess2 size = sz at hsz
  have hn := @toInt_mkfsNarena sz (by omega)
  have hasz := @toInt_mkfsAsz sz (by omega)
  have hfill := arenas_le sz.toInt
  have hlarge := @le_div_arenasOf sz.toInt (by omega)
  obtain ⟨h8, h32⟩ := arenasOf_le sz.toInt
  have haligned : aszOf sz.toInt % 16384 = 0 ∧ 4 * 1024 * 1024 ≤ aszOf sz.toInt := by
    unfold aszOf
    omega
  generalize mkfsAsz sz (mkfsNarena sz) = asz at hasz
  rw [← hasz] at hfill haligned
  clear hasz hlarge
  generalize mkfsNarena sz = narena at hn
  generalize arenasOf sz.toInt = n at hn hfill h8 h32
  have hoff := fun i => @toInt_mkfsOff asz sz.toInt n (by omega) hfill (by omega) i
  have hend := fun i : ℕ => @mul_le_of_lt (asz.toInt + 2 * 16384) sz.toInt n (by omega) hfill i
  have hnn : ∀ i : ℕ, 0 ≤ (i : ℤ) * (asz.toInt + 2 * 16384) := fun i =>
    Int.mul_nonneg (by omega) (by omega)
  have hlog : ∀ i : ℕ, (i : ℤ) < n →
      (mkfsLogaddr (mkfsOff asz i)).toInt = (mkfsOff asz i).toInt + 2 * 16384 := by
    intro i hi
    have h1 := hoff i hi.le
    have h2 := hend i hi
    have h3 := hnn i
    exact toInt_mkfsLogaddr (by omega) (by omega)
  have hlast := @toInt_mkfsLast sz (by omega) (by omega)
  have hfree := @toInt_mkfsFree asz (by omega)
  have hdvd : ∀ i : ℕ, (i : ℤ) * (asz.toInt + 2 * 16384) % 16384 = 0 := by
    intro i
    refine Int.emod_eq_zero_of_dvd (Dvd.dvd.mul_left ?_ _)
    exact Int.dvd_of_emod_eq_zero (by omega)
  constructor
  · dsimp only
    omega
  · dsimp only
    omega
  · intro i hi
    have h1 := hoff i (by dsimp only at hi; omega)
    have h2 := hdvd i
    dsimp only at hi ⊢
    omega
  · intro i j hij hj
    dsimp only at hj ⊢
    have h1 := hoff i (by omega)
    have h2 := hoff j (by omega)
    have h3 := @mul_le_of_lt (asz.toInt + 2 * 16384) (j * (asz.toInt + 2 * 16384)) j (by omega)
      le_rfl i (by omega)
    omega
  · intro i hi
    dsimp only at hi ⊢
    have h1 := hoff i (by omega)
    have h2 := hend i (by omega)
    have h3 := hnn i
    omega
  · dsimp only
    omega
  · intro i hi
    dsimp only at hi ⊢
    have h1 := hlog i (by omega)
    omega
  · refine ⟨by dsimp only; omega, ?_⟩
    intro i hi
    dsimp only at hi ⊢
    have h1 := hlog i (by omega)
    omega
  · have h1 := hlog 0 (by omega)
    have h2 : (mkfsOff asz 0).toInt = 16384 := rfl
    have h3 : mkfsBlks.map (·.toInt) = [65536, 81920, 98304, 114688] := rfl
    dsimp only
    rw [h3]
    refine ⟨rfl, by decide, ?_⟩
    simp only [List.mem_cons, List.not_mem_nil, or_false]
    rintro a (rfl | rfl | rfl | rfl) <;> omega

/-- An image of just the least size. -/
theorem mkfsLayout_laid_least : 128 * 1024 * 1024 + 16384 ≤ (134234112 : Int64).toInt
    ∧ Laid (134234112 : Int64).toInt (mkfsLayout 134234112) :=
  ⟨by decide +kernel, mkfsLayout_laid 134234112 (by decide +kernel)⟩

theorem arenasOf_natCast (u : ℕ) : arenasOf u
    = (min (max ((u + 4096 * 1024 * 1024 * 1024 - 1) / (4096 * 1024 * 1024 * 1024)) 8) 32 : ℕ) := by
  have h : (4096 * 1024 * 1024 * 1024 : ℕ) = 2 ^ 42 := by norm_num
  rw [h]
  unfold arenasOf
  have h1 : ((u : ℤ) + 2 ^ 42 - 1) / 2 ^ 42 = ((u + 2 ^ 42 - 1) / 2 ^ 42 : ℕ) := by
    omega
  rw [h1]
  generalize (u + 2 ^ 42 - 1) / 2 ^ 42 = q
  omega

/-- The layout is the one the formatter's model writes. -/
theorem mkfsLayout_eq {size : ℕ} (h : 128 * 1024 * 1024 + 16384 ≤ size) (hlt : size < 2 ^ 63) :
    (mkfsLayout (Int64.ofNat size)).narena = reamNarena size
      ∧ (mkfsLayout (Int64.ofNat size)).asz = reamAsz size
      ∧ (∀ i ≤ reamNarena size, (mkfsLayout (Int64.ofNat size)).off i
        = gefsBlksz + i * (reamAsz size + 2 * gefsBlksz : ℕ))
      ∧ (mkfsLayout (Int64.ofNat size)).last = (reamUsable size + gefsBlksz : ℕ)
      ∧ (mkfsLayout (Int64.ofNat size)).blks = [mbAddr, abAddr, ubAddr, tbAddr].map Int.ofNat := by
  have hb : gefsBlksz = 16384 := rfl
  have hsize : (Int64.ofNat size).toInt = size := Int64.toInt_ofNat_of_lt hlt
  have hsz := @toInt_roundLess2 (Int64.ofNat size) (by omega)
  have husable : (reamUsable size : ℤ) = size - size % 16384 - 2 * 16384 := by
    unfold reamUsable
    rw [hb]
    omega
  rw [hsize, ← husable] at hsz
  have hle : 128 * 1024 * 1024 - 16384 ≤ reamUsable size := by omega
  have husz : reamUsable size < 2 ^ 63 - 16384 := by omega
  have harenas : arenasOf (reamUsable size) = (reamNarena size : ℤ) :=
    arenasOf_natCast _
  have hasz : aszOf (reamUsable size) = (reamAsz size : ℤ) := by
    have := @le_div_arenasOf (reamUsable size) (by omega)
    unfold aszOf reamAsz
    rw [harenas] at this ⊢
    have hdiv : (reamUsable size : ℤ) / reamNarena size
        = (reamUsable size / reamNarena size : ℕ) := by push_cast; rfl
    rw [hdiv] at this ⊢
    dsimp only
    rw [hb]
    generalize reamUsable size / reamNarena size = q at this
    omega
  have hfill := arenas_le (reamUsable size)
  rw [harenas, hasz] at hfill
  clear husable
  unfold mkfsLayout
  dsimp only
  generalize roundLess2 (Int64.ofNat size) = sz at hsz
  have hn := @toInt_mkfsNarena sz (by omega)
  have ha := @toInt_mkfsAsz sz (by omega)
  have hlast := @toInt_mkfsLast sz (by omega) (by omega)
  rw [hsz] at hn ha hlast
  rw [harenas] at hn
  rw [hasz] at ha
  refine ⟨by rw [hn, Int.toNat_natCast], ha, ?_, by rw [hlast, hb]; push_cast; rfl, rfl⟩
  generalize mkfsAsz sz (mkfsNarena sz) = asz at ha
  generalize reamAsz size = k at ha hfill
  generalize reamNarena size = n at hfill
  generalize reamUsable size = u at hfill husz
  intro i hi
  rw [@toInt_mkfsOff asz u n (by omega) (ha ▸ hfill) (by omega) i (by omega), ha, hb]
  push_cast
  rfl

end GefsFuse
