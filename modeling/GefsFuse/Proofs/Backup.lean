import GefsFuse.Proofs.Mount

/-!
# What is kept of a superblock

What packing and unpacking keep of it (`CodecKept`): all that the port reads, and of a block it did
not write itself all but the words of the snapshot deadlist. And where the second one of an image
is (`BackupKept`): the formatter rounds the size of the image down to a block first, `gefs_fs_open`
and `gefs_sync_fs` do not.
-/

namespace GefsFuse

open ByteMem Calls

/-! ## Packing and unpacking -/

section Codec

variable {m : Mem} {o : ℕ} {sb : GefsSuper}

theorem at_pack32_unpack32 (m : Mem) (o : ℕ) : At m o (pack32 (unpack32 m o)) := by
  have hlt : unbe (load m o 4) < 2 ^ 32 := by simpa using unbe_lt (load m o 4)
  have hbe : be 4 (unbe (load m o 4)) = load m o 4 := by simpa using be_unbe (load m o 4)
  rw [pack32, unpack32, UInt32.toNat_ofNat_of_lt' hlt, hbe]
  simp [At]

theorem at_pack64_unpack64 (m : Mem) (o : ℕ) : At m o (pack64 (unpack64 m o)) := by
  have hlt : unbe (load m o 8) < 2 ^ 64 := by simpa using unbe_lt (load m o 8)
  have hbe : be 8 (unbe (load m o 8)) = load m o 8 := by simpa using be_unbe (load m o 8)
  rw [pack64, unpack64, UInt64.toNat_ofNat_of_lt' hlt, hbe]
  simp [At]

/-- The arena table packs to what it was read from. -/
theorem at_unpackArenabp (m : Mem) : ∀ (n o : ℕ), At m o ((unpackArenabp m o n).flatMap fun bp =>
    pack64 bp.addr.toUInt64 ++ pack64 bp.hash)
  | 0, o => by simp [unpackArenabp, At, load]
  | n + 1, o => by
    rw [unpackArenabp, List.flatMap_cons, at_append, at_append]
    simp only [List.length_append, length_pack64, UInt64.toUInt64_toInt64]
    exact ⟨⟨at_pack64_unpack64 m o, at_pack64_unpack64 m (o + 8)⟩, at_unpackArenabp m n (o + 16)⟩

theorem length_unpackArenabp (m : Mem) : ∀ n o, (unpackArenabp m o n).length = n
  | 0, _ => rfl
  | n + 1, o => by rw [unpackArenabp, List.length_cons, length_unpackArenabp m n]

/-- A block read as a superblock: its hash is that of its own bytes, and packed again it is itself
but for the words of the snapshot deadlist. -/
theorem gefsUnpacksb_eq_some (h : gefsUnpacksb m = some sb) :
    SuperOk sb ∧ At m (104 + 16 * sb.narena.toInt.toNat)
        (pack64 (gefsBufhash m 0 (104 + 16 * sb.narena.toInt.toNat)))
      ∧ (At m 40 (pack64 (-1) ++ pack64 (-1) ++ pack64 (-1) ++ pack64 (-1)) →
        At m 0 (sbPrefix sb)) := by
  unfold gefsUnpacksb at h
  simp only at h
  split_ifs at h with h1 h2 h3
  obtain rfl := Option.some.inj h
  rw [not_or, Int32.not_le, Int32.not_lt] at h2
  rw [ne_eq, not_not] at h1 h3
  refine ⟨⟨h2.1, h2.2, length_unpackArenabp _ _ _⟩, h3 ▸ at_pack64_unpack64 m _, fun hdl => ?_⟩
  simp only [at_append, List.length_append, length_pack64, Nat.reduceAdd] at hdl
  obtain ⟨⟨⟨h5, h6⟩, h7⟩, h8⟩ := hdl
  have hmg : magic.length = 8 := rfl
  have hlen : (unpackArenabp m 104 (unpack32 m 16).toInt32.toInt.toNat).take
      (unpack32 m 16).toInt32.toInt.toNat = unpackArenabp m 104 (unpack32 m 16).toInt32.toInt.toNat :=
    List.take_of_length_le (length_unpackArenabp _ _ _).le
  simp only [sbPrefix, hlen, at_append, List.length_append, length_pack32, length_pack64, hmg,
    Nat.reduceAdd, zero_add, UInt32.toUInt32_toInt32, UInt64.toUInt64_toInt64]
  exact ⟨⟨⟨⟨⟨⟨⟨⟨⟨⟨⟨⟨⟨⟨⟨h1, at_pack32_unpack32 m 8⟩, at_pack32_unpack32 m 12⟩,
    at_pack32_unpack32 m 16⟩, at_pack32_unpack32 m 20⟩, at_pack64_unpack64 m 24⟩,
    at_pack64_unpack64 m 32⟩, h5⟩, h6⟩, h7⟩, h8⟩, at_pack64_unpack64 m 72⟩,
    at_pack64_unpack64 m 80⟩, at_pack64_unpack64 m 88⟩, at_pack64_unpack64 m 96⟩,
    at_unpackArenabp m _ 104⟩

/-- The bytes of a superblock, its hash included. -/
def sbEnd (sb : GefsSuper) : ℕ := 104 + 16 * sb.narena.toInt.toNat + 8

/-- The four words of the snapshot deadlist are -1. -/
def SnapdlUnset (m : Mem) : Prop := ∀ i, 40 ≤ i → i < 72 → m i = 0xff

theorem snapdlUnset_iff :
    SnapdlUnset m ↔ At m 40 (pack64 (-1) ++ pack64 (-1) ++ pack64 (-1) ++ pack64 (-1)) := by
  have hb : pack64 (-1) ++ pack64 (-1) ++ pack64 (-1) ++ pack64 (-1) = List.replicate 32 0xff := by
    decide
  rw [hb, at_iff]
  simp only [List.length_replicate, List.getElem_replicate]
  refine ⟨fun h i hi => h _ (by omega) (by omega), fun h i h1 h2 => ?_⟩
  have := h (i - 40) (by omega)
  rwa [show 40 + (i - 40) = i by omega] at this

/-- A superblock is packed with the words of the snapshot deadlist at -1. -/
theorem snapdlUnset_packSbBlock (sb : GefsSuper) : SnapdlUnset (packSbBlock sb) := by
  have hp := (@at_packSbBlock sb).1
  have hmg : magic.length = 8 := rfl
  simp only [sbPrefix, at_append, List.length_append, length_pack32, length_pack64, hmg,
    Nat.reduceAdd, zero_add] at hp
  obtain ⟨⟨⟨⟨⟨⟨-, h5⟩, h6⟩, h7⟩, h8⟩, -⟩, -⟩ := hp.1.1.1
  rw [snapdlUnset_iff]
  simp only [at_append, List.length_append, length_pack64, Nat.reduceAdd]
  exact ⟨⟨⟨h5, h6⟩, h7⟩, h8⟩

theorem packSbBlock_magic (sb : GefsSuper) {i : ℕ} (hi : i < magic.length) :
    packSbBlock sb i = magic[i] := by
  have hp : ∃ r, sbPrefix sb = magic ++ r := ⟨_, by
    simp only [sbPrefix, List.append_assoc]
    rfl⟩
  obtain ⟨r, hr⟩ := hp
  have ha := (@at_packSbBlock sb).1
  rw [hr, at_append] at ha
  have := at_iff.1 ha.1 i hi
  rwa [Nat.zero_add] at this

/-- A block that does not start like a superblock is none. -/
theorem gefsUnpacksb_of_ne (h : m 0 ≠ 0x67) : gefsUnpacksb m = none := by
  unfold gefsUnpacksb
  refine if_pos fun he => h ?_
  have := congrArg List.head? he
  simpa [load, magic] using this

/-- Packed again, an accepted block keeps its bytes if the words of the snapshot deadlist are -1. -/
theorem packSbBlock_unpacked (h : gefsUnpacksb m = some sb) (hdl : SnapdlUnset m) {i : ℕ}
    (hi : i < sbEnd sb) : packSbBlock sb i = m i := by
  obtain ⟨hok, hhash, hp⟩ := gefsUnpacksb_eq_some h
  replace hp := hp (snapdlUnset_iff.1 hdl)
  obtain ⟨hp', hh'⟩ := @at_packSbBlock sb
  have hlen : (sbPrefix sb).length = 104 + 16 * sb.narena.toInt.toNat := by
    rw [length_sbPrefix hok, hok.length]
  have hpre : ∀ i < (sbPrefix sb).length, packSbBlock sb i = m i := fun i hi => by
    have h1 := at_iff.1 hp i hi
    have h2 := at_iff.1 hp' i hi
    rw [Nat.zero_add] at h1 h2
    rw [h1, h2]
  rcases Nat.lt_or_ge i (sbPrefix sb).length with hlt | hge
  · exact hpre i hlt
  · have hb : gefsBufhash (store (fun _ => 0) 0 (sbPrefix sb)) 0 (sbPrefix sb).length
        = gefsBufhash m 0 (sbPrefix sb).length :=
      gefsBufhash_congr fun j hj => by rw [← packSbBlock_of_lt hj, hpre j hj]
    rw [hb] at hh'
    rw [← hlen] at hhash
    obtain ⟨j, rfl⟩ := Nat.exists_eq_add_of_le hge
    have hj : j < 8 := by
      unfold sbEnd at hi
      omega
    rw [at_iff.1 hh' j (by simpa using hj), at_iff.1 hhash j (by simpa using hj)]

/-- A superblock `sb0` packed by either packer is read back, and a block `m` that is read as a
superblock is what that superblock packs to. -/
structure CodecKept (sb0 : GefsSuper) (m : Mem) : Prop where
  same : packsb sb0 = packSbBlock sb0
  finalized : ∀ addr, (superBlk addr sb0).buf = packsb sb0
  reads : gefsUnpacksb (packSbBlock sb0) = some (sbRead sb0)
  packs : ∀ sb, gefsUnpacksb m = some sb → ∀ i < sbEnd sb, packSbBlock sb i = m i

/-- The two packers agree where there is an arena for each number counted. -/
theorem packsb_eq (h : SuperOk sb) : packsb sb = packSbBlock sb := by
  have hl : (List.range sb.narena.toInt.toNat).flatMap (fun i =>
      pack64 (sb.arenabp.getD i ⟨0, 0, 0⟩).addr.toUInt64 ++ pack64 (sb.arenabp.getD i ⟨0, 0, 0⟩).hash)
      = (sb.arenabp.take sb.narena.toInt.toNat).flatMap fun bp =>
        pack64 bp.addr.toUInt64 ++ pack64 bp.hash := by
    rw [← h.length, List.take_length]
    have hm : (List.range sb.arenabp.length).map (sb.arenabp.getD · ⟨0, 0, 0⟩) = sb.arenabp := by
      refine List.ext_getElem (by simp) fun i h1 h2 => ?_
      simp [List.getElem?_eq_getElem h2]
    conv_rhs => rw [← hm, List.flatMap_map]
  have hdl : (List.replicate 4 (pack64 (-1))).flatten
      = pack64 (-1) ++ pack64 (-1) ++ pack64 (-1) ++ pack64 (-1) := rfl
  unfold packsb packSbBlock sbPrefix
  simp only [hl, hdl, List.append_assoc]

/-- All of a superblock is kept but for a snapshot deadlist in the block read. -/
theorem codecKept_iff {sb0 sb : GefsSuper} {m : Mem} (h0 : SuperOk sb0)
    (hm : gefsUnpacksb m = some sb) : CodecKept sb0 m ↔ SnapdlUnset m := by
  constructor
  · rintro ⟨-, -, -, hp⟩ i h1 h2
    rw [← hp sb hm i (by unfold sbEnd; omega)]
    exact snapdlUnset_packSbBlock sb i h1 h2
  · intro hdl
    refine ⟨packsb_eq h0, fun addr => ?_, gefsUnpacksb_packSbBlock h0 fun _ _ => rfl, ?_⟩
    · rw [packsb_eq h0, (superBlk_eq addr sb0).1]
    · intro sb' hsb i hi
      exact packSbBlock_unpacked hsb hdl hi

/-- A superblock with one arena. -/
def oneArenaSb : GefsSuper := ⟨16384, 0, 1, zeroTree, 0, 3, 4, 0, [⟨16384, 0, 0⟩]⟩

theorem codecKept_oneArena : ∃ sb, SuperOk oneArenaSb
    ∧ gefsUnpacksb (packSbBlock oneArenaSb) = some sb
    ∧ (CodecKept oneArenaSb (packSbBlock oneArenaSb) ↔ SnapdlUnset (packSbBlock oneArenaSb)) := by
  have hok : SuperOk oneArenaSb := ⟨by decide, by decide, rfl⟩
  have hm := gefsUnpacksb_packSbBlock hok fun _ _ => rfl
  exact ⟨_, hok, hm, codecKept_iff hok hm⟩

/-- The same superblock with a snapshot deadlist at 0, as the file server writes it. -/
def dlBlock : Mem :=
  let p := (sbPrefix oneArenaSb).take 40 ++ List.replicate 32 0 ++ (sbPrefix oneArenaSb).drop 72
  let m := store (fun _ => 0) 0 p
  store m p.length (pack64 (gefsBufhash m 0 p.length))

/-- It is accepted, and the deadlist is lost when it is packed again. -/
theorem not_forall_packs : ¬ ∀ (m : Mem) (sb : GefsSuper), gefsUnpacksb m = some sb →
    ∀ i < sbEnd sb, packSbBlock sb i = m i := by
  intro h
  have hs : (gefsUnpacksb dlBlock).isSome := by decide +kernel
  obtain ⟨sb, hsb⟩ := Option.isSome_iff_exists.1 hs
  have h1 := h dlBlock sb hsb 40 (by unfold sbEnd; omega)
  rw [snapdlUnset_packSbBlock sb 40 (by omega) (by omega)] at h1
  exact absurd h1 (by decide +kernel)

end Codec

/-! ## Where the second one is -/

section Location

variable {user : Bytes} {d d' : Disk} {size : ℕ}

/-- Where the formatter writes the second superblock of an image of `size` bytes. -/
def reamBackup (size : ℕ) : ℕ := reamUsable size + gefsBlksz

/-- Of the formatted image `d`, the second superblock is found once the first is destroyed, and a
sync that leaves the image at its size overwrites it. -/
structure BackupKept (d : Disk) : Prop where
  found : ∀ d1 : Disk, d1.size = d.size → (∀ i, gefsBlksz ≤ i → d1.byte i = d.byte i) →
    gefsUnpacksb (d1.window 0) = none → ∃ sb, readSuper d = .ok sb ∧ readSuper d1 = .ok sb
  synced : ∀ ctx ctx' : GefsCtx, ctx.readonly = false → ctx.dirty →
    run sysStep gefsSyncFs ctx = some ((), ctx') → ctx'.disk.size = d.size →
    ctx'.disk.Has (Int64.ofNat (reamBackup d.size)) (packSbBlock ctx'.sb)

theorem reamBackup_eq (h : 134234112 ≤ size) : reamBackup size + size % 16384 + 16384 = size := by
  have hbs : gefsBlksz = 16384 := rfl
  unfold reamBackup reamUsable
  rw [hbs]
  omega

/-- The formatter writes one superblock to both places. -/
theorem mkfs_backup (h : mkfs user d = some d') :
    134234112 ≤ d.size ∧ d.size < 2 ^ 63 ∧ d'.size = d.size ∧ ∃ sb, SuperOk sb
      ∧ d'.Has (Int64.ofNat 0) (packSbBlock sb)
      ∧ d'.Has (Int64.ofNat (reamBackup d.size)) (packSbBlock sb) := by
  have hbs : gefsBlksz = 16384 := rfl
  unfold mkfs at h
  rw [Option.ite_none_left_eq_some, not_or, not_lt, not_le, Option.map_eq_some_iff] at h
  obtain ⟨⟨hlo, hlt⟩, roots, hroots, hd'⟩ := h
  obtain ⟨mb, ub, ab, tb, heq, hr⟩ := reamRoots_spec user
  obtain rfl := Option.some.inj (heq.symm.trans hroots)
  replace hlo : 134234112 ≤ d.size := by omega
  have hst : stride d.size = reamAsz d.size + 32768 := rfl
  have hge := stride_ge hlo
  have hend := arenas_end hlo
  obtain ⟨hus, hus'⟩ := usable_le hlo
  obtain ⟨n, hn⟩ : ∃ n, n = reamNarena d.size := ⟨_, rfl⟩
  obtain ⟨s, hs⟩ : ∃ s, s = stride d.size := ⟨_, rfl⟩
  obtain ⟨asz, hasz⟩ : ∃ asz, asz = reamAsz d.size := ⟨_, rfl⟩
  obtain ⟨z, hz⟩ : ∃ z, z = reamUsable d.size + gefsBlksz := ⟨_, rfl⟩
  obtain ⟨h8, h32⟩ := reamNarena_bounds d.size
  have hzb : reamBackup d.size = z := hz.symm
  rw [← hn, ← hasz, ← hz] at hd'
  rw [← hs] at hst hge hend
  rw [← hasz] at hst
  rw [← hn] at hend h8 h32
  rw [hbs] at hz
  rcases hres : reamArenas asz n 16384 d with ⟨d1, bps⟩
  have hra := reamArenas_spec hst (by omega) n 16384 d (by omega) hlt
  rw [hres] at hra
  obtain ⟨hsize, ⟨h0, -⟩, -⟩ := reamImage_spec hr hst (by omega) (by omega)
    (by omega) (by omega) hlt hres hd'.symm
  refine ⟨hlo, hlt, hsize, _, superOk_ream h8 h32 tb.bp hra.length, h0, ?_⟩
  obtain ⟨e1, e2⟩ := superBlk_eq (Int64.ofNat z) (reamSuper n tb.bp bps)
  rw [hzb, ← hd', reamImage]
  simp only [hbs, hres, putBlks, List.foldl_cons, List.foldl_nil]
  rw [putBlk, e1, e2]
  refine has_pwrite_self ?_
  rw [toInt_ofNat_of_lt (by omega)]
  omega

theorem Disk.Has.window {x : ℕ} {buf : Mem} (h : d.Has (Int64.ofNat x) buf) (hx : x < 2 ^ 63) :
    x + 16384 ≤ d.size ∧ ∀ i < gefsBlksz, d.byte (x + i) = buf i := by
  obtain ⟨m, hm, hb⟩ := h
  unfold Disk.pread at hm
  rw [toInt_ofNat_of_lt hx, Int.toNat_natCast] at hm
  split_ifs at hm with hin
  obtain rfl := Option.some.inj hm
  exact ⟨hin.2, hb⟩

theorem byte_pwrite {x i : ℕ} {buf : Mem} (hx : x < 2 ^ 63) (h : i < x ∨ x + 16384 ≤ i) :
    (d.pwrite (Int64.ofNat x) buf).byte i = d.byte i := by
  have hbs : gefsBlksz = 16384 := rfl
  unfold Disk.pwrite
  rw [toInt_ofNat_of_lt hx, if_pos (by omega)]
  dsimp only
  rw [Int.toNat_natCast, if_neg (by omega)]

/-- A sync ends with the two superblocks. -/
theorem run_gefsSyncFs_eq_some {ctx ctx' : GefsCtx} (hro : ctx.readonly = false) (hd : ctx.dirty)
    (h : run sysStep gefsSyncFs ctx = some ((), ctx')) :
    ∃ c, ctx' = { putBackup (putSuper c) with dirty := false } := by
  unfold gefsSyncFs at h
  simp only [Prog.one_bind] at h
  obtain ⟨ro, c1, h1, h⟩ := run_call_eq_some h
  obtain ⟨dirty, c2, h2, h⟩ := run_call_eq_some h
  obtain ⟨rfl, rfl⟩ := Prod.mk.inj (Option.some.inj h1)
  obtain ⟨rfl, rfl⟩ := Prod.mk.inj (Option.some.inj h2)
  rw [if_neg (by simp [hro, hd])] at h
  obtain ⟨t, c3, -, h⟩ := run_call_eq_some h
  obtain ⟨ans, c4, -, h⟩ := run_call_eq_some h
  obtain ⟨n, c5, -, h⟩ := run_call_eq_some h
  obtain ⟨_, c6, -, h⟩ := run_bind_eq_some h
  obtain ⟨_, c7, h7, h⟩ := run_call_eq_some h
  obtain ⟨_, c8, h8, h⟩ := run_call_eq_some h
  obtain ⟨_, c9, h9, h⟩ := run_call_eq_some h
  obtain ⟨-, rfl⟩ := Prod.mk.inj (Option.some.inj h7)
  obtain ⟨-, rfl⟩ := Prod.mk.inj (Option.some.inj h8)
  obtain ⟨-, rfl⟩ := Prod.mk.inj (Option.some.inj h9)
  obtain ⟨-, rfl⟩ := Prod.mk.inj (Option.some.inj h)
  exact ⟨c6, rfl⟩

theorem putBackup_spec {c : GefsCtx} (h : gefsBlksz < (putBackup c).disk.size)
    (hlt : (putBackup c).disk.size < 2 ^ 63) :
    (putBackup c).sb = c.sb ∧ c.disk.size = (putBackup c).disk.size
      ∧ (putBackup c).disk
        = c.disk.pwrite (Int64.ofNat ((putBackup c).disk.size - 16384)) (packSbBlock c.sb) := by
  have hbs : gefsBlksz = 16384 := rfl
  unfold putBackup at h hlt ⊢
  split_ifs at h hlt ⊢ with hc
  · have e : Int64.ofInt (c.disk.size - gefsBlksz) = Int64.ofNat (c.disk.size - 16384) := by
      have hsub : ((c.disk.size - 16384 : ℕ) : ℤ) = c.disk.size - 16384 := by omega
      rw [hbs, ← Int64.ofInt_eq_ofNat, hsub]
      rfl
    dsimp only at h hlt ⊢
    rw [e] at h hlt ⊢
    have hcl : c.disk.size < 2 ^ 63 := by
      refine lt_of_le_of_lt ?_ hlt
      unfold Disk.pwrite
      split_ifs
      · exact le_max_left _ _
      · exact le_rfl
    have hs := @size_pwrite c.disk (c.disk.size - 16384) (packSbBlock c.sb) (by omega) (by omega)
    exact ⟨rfl, hs.symm, by rw [hs]⟩
  · exact absurd h hc

/-- Away from its first block, and so in the second superblock, the image is as it was formatted. -/
theorem found_of_aligned (h : mkfs user d = some d') (ha : 16384 ∣ d.size) {d1 : Disk}
    (hs : d1.size = d'.size) (hb : ∀ i, gefsBlksz ≤ i → d1.byte i = d'.byte i)
    (hbad : gefsUnpacksb (d1.window 0) = none) :
    ∃ sb, readSuper d' = .ok sb ∧ readSuper d1 = .ok sb := by
  have hbs : gefsBlksz = 16384 := rfl
  obtain ⟨hlo, hlt, hsz, sb, hok, h0, hlast⟩ := mkfs_backup h
  have hloc := reamBackup_eq hlo
  obtain ⟨-, hw⟩ := hlast.window (by omega)
  obtain ⟨m, hm, hmb⟩ := h0
  have hm0 : d'.pread 0 = some m := hm
  refine ⟨sbRead sb, ?_, ?_⟩
  · unfold readSuper
    simp only [hm0, gefsUnpacksb_packSbBlock hok hmb]
  · have hp0 : d1.pread 0 = some (d1.window 0) := by
      have h00 : (0 : Int64).toInt = 0 := rfl
      unfold Disk.pread
      rw [h00, if_pos (by omega)]
      rfl
    have hz : Int64.ofInt (d1.size - gefsBlksz) = Int64.ofNat (reamBackup d.size) := by
      have hsub : ((reamBackup d.size : ℕ) : ℤ) = d1.size - gefsBlksz := by omega
      rw [← Int64.ofInt_eq_ofNat, hsub]
    have hpl : d1.pread (Int64.ofNat (reamBackup d.size)) = some (d1.window (reamBackup d.size)) := by
      unfold Disk.pread
      rw [toInt_ofNat_of_lt (by omega), Int.toNat_natCast, if_pos (by omega)]
    have hu : gefsUnpacksb (d1.window (reamBackup d.size)) = some (sbRead sb) :=
      gefsUnpacksb_packSbBlock hok fun i hi => by
        rw [Disk.window, hb _ (by omega), hw i hi]
    unfold readSuper
    simp only [hp0, hbad, hz, hpl, Option.bind_some, hu]
    rw [if_pos (by omega)]

theorem synced_of_aligned (hlo : 134234112 ≤ size) (hlt : size < 2 ^ 63) (ha : 16384 ∣ size)
    {ctx ctx' : GefsCtx} (hro : ctx.readonly = false) (hd : ctx.dirty)
    (h : run sysStep gefsSyncFs ctx = some ((), ctx')) (hs : ctx'.disk.size = size) :
    ctx'.disk.Has (Int64.ofNat (reamBackup size)) (packSbBlock ctx'.sb) := by
  have hbs : gefsBlksz = 16384 := rfl
  have hloc := reamBackup_eq hlo
  obtain ⟨c, rfl⟩ := run_gefsSyncFs_eq_some hro hd h
  dsimp only at hs ⊢
  obtain ⟨e1, e2, e3⟩ := @putBackup_spec (putSuper c) (by omega) (by omega)
  rw [e1, e3, hs, show size - 16384 = reamBackup size by omega]
  refine has_pwrite_self ?_
  rw [toInt_ofNat_of_lt (by omega)]
  omega

/-! ### A sync of an image whose size is not a number of blocks -/

/-- A file system without a tree, on an image of zeros. -/
def zeroCtx (size : ℕ) : GefsCtx :=
  { disk := ⟨size, fun _ => 0⟩
    sb := ⟨16384, 0, 0, zeroTree, 0, 0, 0, 0, []⟩
    cache := gefsCacheInit 1
    snapTree := { zeroTree with bp := ⟨-1, 0, 0⟩ }
    activeTree := zeroTree
    arenas := []
    dirty := true
    readonly := false
    heap := fun _ _ => 0
    nblk := 0 }

theorem run_sync_zeroCtx (size : ℕ) : run sysStep gefsSyncFs (zeroCtx size)
    = some ((), { putBackup (putSuper (zeroCtx size)) with dirty := false }) := by
  have hup : ∀ ms, ms ≠ [] → sysStep (.btupsert .snap ms) (zeroCtx size)
      = some (.error .eio, zeroCtx size) := by
    intro ms hms
    have hg : gefsGetblk (zeroCtx size) ((zeroCtx size).tree .snap).bp = (none, zeroCtx size) := rfl
    show gefsBtupsert (zeroCtx size) .snap ms = _
    unfold gefsBtupsert
    rw [if_neg (by simp [hms, zeroCtx]), hg]
  unfold gefsSyncFs
  simp only [Prog.one_bind]
  rw [run_call _ (show sysStep .readonly (zeroCtx size) = some (false, zeroCtx size) from rfl),
    run_call _ (show sysStep .dirty (zeroCtx size) = some (true, zeroCtx size) from rfl),
    if_neg (by simp),
    run_call _ (show sysStep (.tree .active) (zeroCtx size) = some (zeroTree, zeroCtx size) from rfl),
    run_call _ (hup _ (List.cons_ne_nil _ _)),
    run_call _ (show sysStep .narena (zeroCtx size) = some (0, zeroCtx size) from rfl)]
  rfl

theorem aligned_of_synced (hlo : 134234112 ≤ size) (hlt : size < 2 ^ 63)
    (h : ∀ ctx ctx' : GefsCtx, ctx.readonly = false → ctx.dirty →
      run sysStep gefsSyncFs ctx = some ((), ctx') → ctx'.disk.size = size →
      ctx'.disk.Has (Int64.ofNat (reamBackup size)) (packSbBlock ctx'.sb)) : 16384 ∣ size := by
  have hbs : gefsBlksz = 16384 := rfl
  have hloc := reamBackup_eq hlo
  by_contra hna
  have hr : size % 16384 ≠ 0 := fun h0 => hna (Nat.dvd_of_mod_eq_zero h0)
  -- the superblocks are written at 0 and at the very end
  have hs1 : (putSuper (zeroCtx size)).disk.size = size := by
    have := @size_pwrite ⟨size, fun _ => 0⟩ 0 (packSbBlock (putSuper (zeroCtx size)).sb)
      (by dsimp only; omega) (by omega)
    exact this
  have hs2 : (putBackup (putSuper (zeroCtx size))).disk.size = size := by
    unfold putBackup
    rw [if_pos (by omega)]
    have e : Int64.ofInt ((putSuper (zeroCtx size)).disk.size - gefsBlksz)
        = Int64.ofNat (size - 16384) := by
      have hsub : ((size - 16384 : ℕ) : ℤ) = (putSuper (zeroCtx size)).disk.size - gefsBlksz := by
        omega
      rw [← Int64.ofInt_eq_ofNat, hsub]
    dsimp only
    rw [e, size_pwrite (by omega) (by omega), hs1]
  have hhas := h _ _ rfl rfl (run_sync_zeroCtx size) hs2
  dsimp only at hhas
  obtain ⟨-, hw⟩ := hhas.window (by omega)
  obtain ⟨e1, e2, e3⟩ := @putBackup_spec (putSuper (zeroCtx size)) (by omega) (by omega)
  have hb := hw 0 (by omega)
  have hmagic : packSbBlock (putBackup (putSuper (zeroCtx size))).sb 0 = 0x67 :=
    packSbBlock_magic _ (by decide)
  have hsuper : (putSuper (zeroCtx size)).disk
      = Disk.pwrite ⟨size, fun _ => 0⟩ (Int64.ofNat 0) (packSbBlock (putSuper (zeroCtx size)).sb) :=
    rfl
  rw [Nat.add_zero, hmagic, e3, byte_pwrite (by omega) (by omega), hsuper,
    byte_pwrite (by omega) (by omega)] at hb
  change (0 : UInt8) = 0x67 at hb
  exact absurd hb (by decide)

/-- The second superblock is kept in one place exactly for images of whole blocks. -/
theorem backupKept_iff (h : mkfs user d = some d') : BackupKept d' ↔ gefsBlksz ∣ d.size := by
  have hbs : gefsBlksz = 16384 := rfl
  obtain ⟨hlo, hlt, hsz, -⟩ := mkfs_backup h
  rw [hbs]
  constructor
  · intro hk
    have := hk.synced
    rw [hsz] at this
    exact aligned_of_synced hlo hlt this
  · intro ha
    refine ⟨fun d1 hs hb hbad => found_of_aligned h ha hs hb hbad, ?_⟩
    rw [hsz]
    exact fun ctx ctx' hro hd hrun hs => synced_of_aligned hlo hlt ha hro hd hrun hs

theorem backupKept_blank : ∃ d', mkfs [] blankImage = some d' ∧ BackupKept d' := by
  obtain ⟨d', h⟩ := mkfs_blankImage
  exact ⟨d', h, (backupKept_iff h).2 ⟨8193, rfl⟩⟩

/-- An image of zeros, one byte longer than a number of blocks. -/
def oddImage : Disk := ⟨134234113, fun _ => 0⟩

/-- The image is formatted, its first block is cleared, and it does not open any more. -/
theorem not_found_oddImage : ∃ d' d1 : Disk, mkfs [] oddImage = some d' ∧ d1.size = d'.size
    ∧ (∀ i, gefsBlksz ≤ i → d1.byte i = d'.byte i) ∧ gefsUnpacksb (d1.window 0) = none
    ∧ readSuper d1 = .error .einval := by
  have hbs : gefsBlksz = 16384 := rfl
  have hsize : oddImage.size = 134234113 := rfl
  obtain ⟨mb, ub, ab, tb, heq, -⟩ := reamRoots_spec []
  obtain ⟨d', h⟩ : ∃ d', mkfs [] oddImage = some d' := by
    unfold mkfs
    rw [if_neg (by rw [hsize]; decide), heq]
    exact ⟨_, rfl⟩
  obtain ⟨-, hlt, hsz, sb, hok, -, hlast⟩ := mkfs_backup h
  obtain ⟨-, hw⟩ := hlast.window (by decide)
  obtain ⟨d1, hd1⟩ : ∃ d1 : Disk, d1 = ⟨d'.size, fun i => if i < gefsBlksz then 0 else d'.byte i⟩ :=
    ⟨_, rfl⟩
  have hbad : gefsUnpacksb (d1.window 0) = none := by
    refine gefsUnpacksb_of_ne ?_
    rw [hd1, Disk.window]
    simp [hbs]
  refine ⟨d', d1, h, by rw [hd1], fun i hi => by rw [hd1]; exact if_neg (by omega), hbad, ?_⟩
  have hs1 : d1.size = 134234113 := by rw [hd1, hsz, hsize]
  have hp0 : d1.pread 0 = some (d1.window 0) := by
    have h00 : (0 : Int64).toInt = 0 := rfl
    unfold Disk.pread
    rw [h00, if_pos (by omega)]
    rfl
  -- the block at the very end is the second superblock without its first byte
  have hpl : d1.pread (Int64.ofInt (d1.size - gefsBlksz)) = some (d1.window 134217729) := by
    have e : Int64.ofInt (d1.size - gefsBlksz) = Int64.ofNat 134217729 := by
      rw [hs1]
      decide
    unfold Disk.pread
    rw [e, toInt_ofNat_of_lt (by omega), Int.toNat_natCast, if_pos (by omega)]
  have hu : gefsUnpacksb (d1.window 134217729) = none := by
    refine gefsUnpacksb_of_ne ?_
    have h1 := hw 1 (by omega)
    rw [packSbBlock_magic sb (by decide)] at h1
    rw [Disk.window, hd1]
    change ¬ d'.byte 134217729 = 0x67
    change d'.byte 134217729 = 0x65 at h1
    rw [h1]
    decide
  unfold readSuper
  simp only [hp0, hbad, hpl, Option.bind_some, hu]
  exact if_pos (by omega)

end Location

end GefsFuse
