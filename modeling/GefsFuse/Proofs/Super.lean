import GefsFuse.Proofs.Upsert
import GefsFuse.Ream

/-!
# The superblock read back

`gefs_unpacksb` of what `pack_sb_block` wrote is the superblock, with the generations the format
does not hold set to -1. The hash in it is over the bytes before it, so it only depends on them.
-/

namespace GefsFuse

open ByteMem

/-! ## The hash -/

section Hash

variable {m m' : Mem}

theorem readLe_congr {o : ℕ} : ∀ {n : ℕ}, (∀ i < n, m (o + i) = m' (o + i)) →
    readLe m o n = readLe m' o n
  | 0, _ => rfl
  | n + 1, h => by
    rw [readLe, readLe, h n (by omega), readLe_congr fun i hi => h i (by omega)]

theorem metroTurn_congr {p : ℕ} (h : ∀ o, p ≤ o → o + 8 ≤ p + 32 → readLe m o 8 = readLe m' o 8)
    (v : Lanes) : metroTurn m p v = metroTurn m' p v := by
  have h0 := h p (by omega) (by omega)
  have h1 := h (p + 8) (by omega) (by omega)
  have h2 := h (p + 16) (by omega) (by omega)
  have h3 := h (p + 24) (by omega) (by omega)
  unfold metroTurn
  simp only [h0, h1, h2, h3]

theorem metroBulk_congr {len n : ℕ} (h : ∀ i < len, m i = m' i) (hn : 32 * n ≤ len) (v : Lanes) :
    metroBulk m n v = metroBulk m' n v := by
  unfold metroBulk
  refine List.foldl_ext _ _ _ fun v i hi => ?_
  have hi := List.mem_range.1 hi
  exact metroTurn_congr (fun o h1 h2 => readLe_congr fun j hj => h (o + j) (by omega)) v

theorem metroTail16_congr {len p : ℕ} (h : ∀ i < len, m i = m' i) (x : UInt64) :
    (if 16 ≤ len - p then metroTail16 m p x else x)
      = if 16 ≤ len - p then metroTail16 m' p x else x := by
  split_ifs with hp
  · have h0 : ∀ o, p ≤ o → o + 8 ≤ p + 16 → readLe m o 8 = readLe m' o 8 := fun o h1 h2 =>
      readLe_congr fun i hi => h (o + i) (by omega)
    rw [metroTail16, metroTail16, h0 p (by omega) (by omega), h0 (p + 8) (by omega) (by omega)]
  · rfl

theorem metroTail_congr {len p w : ℕ} (h : ∀ i < len, m i = m' i) (r x : UInt64) :
    (if w ≤ len - p then metroTail m p w r x else x)
      = if w ≤ len - p then metroTail m' p w r x else x := by
  split_ifs with hp
  · rw [metroTail, metroTail, readLe_congr fun i hi => h (p + i) (by omega)]
  · rfl

theorem metrohash64_congr {len : ℕ} (h : ∀ i < len, m i = m' i) (seed : UInt32) :
    metrohash64 m len seed = metrohash64 m' len seed := by
  have hb := metroBulk_congr h (show 32 * (len / 32) ≤ len by omega)
  unfold metrohash64
  simp only [hb, metroTail16_congr h]
  have h8 := fun p x => metroTail_congr (p := p) (w := 8) h 55 x
  have h4 := fun p x => metroTail_congr (p := p) (w := 4) h 26 x
  have h2 := fun p x => metroTail_congr (p := p) (w := 2) h 48 x
  have h1 := fun p x => metroTail_congr (p := p) (w := 1) h 37 x
  simp only [h8, h4, h2, h1]

theorem gefsBufhash_congr {len : ℕ} (h : ∀ i < len, m i = m' i) :
    gefsBufhash m 0 len = gefsBufhash m' 0 len :=
  metrohash64_congr (fun i hi => by simpa using h i hi) _

end Hash

/-! ## The superblock -/

/-- What of a superblock is read back. -/
def sbRead (sb : GefsSuper) : GefsSuper :=
  { sb with
    snap := { zeroTree with ht := sb.snap.ht, bp := ⟨sb.snap.bp.addr, sb.snap.bp.hash, -1⟩ }
    arenabp := sb.arenabp.map fun bp => ⟨bp.addr, bp.hash, -1⟩ }

/-- The arenas a superblock names. -/
structure SuperOk (sb : GefsSuper) : Prop where
  pos : 0 < sb.narena
  le : sb.narena ≤ 512
  length : sb.arenabp.length = sb.narena.toInt.toNat

theorem SuperOk.length_le {sb : GefsSuper} (h : SuperOk sb) : sb.arenabp.length ≤ 512 := by
  have h1 := Int32.le_iff_toInt_le.1 h.le
  rw [h.length]
  have : (512 : Int32).toInt = 512 := rfl
  omega

theorem length_arenaTab (bps : List GefsBptr) :
    (bps.flatMap fun bp => pack64 bp.addr.toUInt64 ++ pack64 bp.hash).length = 16 * bps.length := by
  induction bps with
  | nil => rfl
  | cons bp bps ih =>
    rw [List.flatMap_cons, List.length_append, ih]
    simp only [List.length_append, length_pack64, List.length_cons]
    omega

theorem length_sbPrefix {sb : GefsSuper} (h : SuperOk sb) :
    (sbPrefix sb).length = 104 + 16 * sb.arenabp.length := by
  unfold sbPrefix
  rw [List.length_append, length_arenaTab, ← h.length, List.take_length]
  simp [magic]

theorem unpackArenabp_at {m : Mem} : ∀ (bps : List GefsBptr) (o : ℕ),
    At m o (bps.flatMap fun bp => pack64 bp.addr.toUInt64 ++ pack64 bp.hash) →
    unpackArenabp m o bps.length = bps.map fun bp => ⟨bp.addr, bp.hash, -1⟩
  | [], _, _ => rfl
  | bp :: bps, o, h => by
    rw [List.flatMap_cons, at_append, at_append] at h
    obtain ⟨⟨h1, h2⟩, h3⟩ := h
    simp only [List.length_append, length_pack64, Nat.reduceAdd] at h2 h3
    rw [List.length_cons, unpackArenabp, unpackArenabp_at bps (o + 16) h3, unpack64_at h1,
      unpack64_at h2]
    simp

/-- The bytes of a superblock. -/
theorem at_packSbBlock {sb : GefsSuper} :
    At (packSbBlock sb) 0 (sbPrefix sb)
      ∧ At (packSbBlock sb) (sbPrefix sb).length
        (pack64 (gefsBufhash (store (fun _ => 0) 0 (sbPrefix sb)) 0 (sbPrefix sb).length)) := by
  unfold packSbBlock
  exact ⟨At.store (at_store _ _ _) (.inl (by omega)), at_store _ _ _⟩

theorem packSbBlock_of_lt {sb : GefsSuper} {i : ℕ} (h : i < (sbPrefix sb).length) :
    packSbBlock sb i = store (fun _ => 0) 0 (sbPrefix sb) i :=
  store_of_lt _ h

/-- Past its hash a superblock is zero. -/
theorem packSbBlock_of_ge {sb : GefsSuper} {i : ℕ} (h : (sbPrefix sb).length + 8 ≤ i) :
    packSbBlock sb i = 0 := by
  unfold packSbBlock
  rw [store_of_ge (by simpa using h), store_of_ge (by omega)]

theorem gefsUnpacksb_packSbBlock {sb : GefsSuper} (hok : SuperOk sb) {m : Mem}
    (hm : ∀ i < gefsBlksz, m i = packSbBlock sb i) : gefsUnpacksb m = some (sbRead sb) := by
  have hbs : gefsBlksz = 16384 := rfl
  have hle := hok.length_le
  have hlen := length_sbPrefix hok
  obtain ⟨hp, hh⟩ := @at_packSbBlock sb
  replace hp : At m 0 (sbPrefix sb) := hp.congr fun i hi => hm _ (by omega)
  replace hh := @At.congr _ m _ (sbPrefix sb).length _ hh fun i hi => hm _ (by
    simp only [length_pack64] at hi
    omega)
  have hhash : gefsBufhash (store (fun _ => 0) 0 (sbPrefix sb)) 0 (sbPrefix sb).length
      = gefsBufhash m 0 (sbPrefix sb).length :=
    gefsBufhash_congr fun i hi => by rw [hm i (by omega), packSbBlock_of_lt hi]
  rw [hhash] at hh
  have he : (sbPrefix sb).length = 104 + 16 * sb.narena.toInt.toNat := by rw [hlen, hok.length]
  rw [he] at hh
  have hmg : magic.length = 8 := rfl
  simp only [sbPrefix, at_append, List.length_append, length_pack32, length_pack64, hmg,
    Nat.reduceAdd, zero_add] at hp
  obtain ⟨⟨⟨⟨⟨⟨⟨⟨⟨⟨⟨⟨⟨⟨⟨h1, h2⟩, h3⟩, h4⟩, h5⟩, h6⟩, h7⟩, -⟩, -⟩, -⟩, -⟩, h12⟩, h13⟩, h14⟩, h15⟩,
    h16⟩ := hp
  have hna : (unpack32 m 16).toInt32 = sb.narena := by rw [unpack32_at h4]; simp
  have h17 : unpackArenabp m 104 sb.narena.toInt.toNat
      = sb.arenabp.map fun bp => ⟨bp.addr, bp.hash, -1⟩ := by
    rw [← hok.length, List.take_length] at h16
    rw [← hok.length]
    exact unpackArenabp_at _ _ h16
  have h18 : load m 0 8 = magic := h1
  have h19 : ¬ (sb.narena ≤ 0 ∨ 512 < sb.narena) := by
    have h1 := Int32.lt_iff_toInt_lt.1 hok.pos
    have h2 := Int32.le_iff_toInt_le.1 hok.le
    rw [Int32.le_iff_toInt_le, Int32.lt_iff_toInt_lt]
    omega
  unfold gefsUnpacksb
  simp only [hna, h18, ne_eq, not_true_eq_false, if_false, h19, unpack64_at hh, h17,
    unpack32_at h2, unpack32_at h3, unpack32_at h5, unpack64_at h6, unpack64_at h7,
    unpack64_at h12, unpack64_at h13, unpack64_at h14, unpack64_at h15]
  simp [sbRead]

end GefsFuse
