import GefsFuse.Format

/-!
# The format read back

What a packer wrote is what the unpacker at the same place reads. The order of `gefs_keycmp` is the
lexicographic order of the bytes, so a key type and the fields packed after it compare in turn.
-/

namespace GefsFuse

open ByteMem

section Words

variable {m : Mem} {o : ℕ}

@[simp] theorem length_pack8 (v : UInt8) : (pack8 v).length = 1 := rfl

@[simp] theorem length_pack16 (v : ℤ) : (pack16 v).length = 2 := by simp [pack16]

@[simp] theorem length_pack32 (v : UInt32) : (pack32 v).length = 4 := by simp [pack32]

@[simp] theorem length_pack64 (v : UInt64) : (pack64 v).length = 8 := by simp [pack64]

theorem unpack16_at {v : ℤ} (h : At m o (pack16 v)) : (unpack16 m o : ℤ) = v % 65536 := by
  have hl : load m o 2 = pack16 v := by simpa [At] using h
  unfold unpack16
  rw [hl, pack16, unbe_be_of_lt (by omega)]
  omega

theorem unpack16_at_nat {v : ℕ} (h : At m o (pack16 v)) (hv : v < 65536) : unpack16 m o = v := by
  have := unpack16_at h
  omega

theorem unpack32_at {v : UInt32} (h : At m o (pack32 v)) : unpack32 m o = v := by
  have hl : load m o 4 = pack32 v := by simpa [At] using h
  unfold unpack32
  rw [hl, pack32, unbe_be_of_lt v.toNat_lt, UInt32.ofNat_toNat]

theorem unpack64_at {v : UInt64} (h : At m o (pack64 v)) : unpack64 m o = v := by
  have hl : load m o 8 = pack64 v := by simpa [At] using h
  unfold unpack64
  rw [hl, pack64, unbe_be_of_lt v.toNat_lt, UInt64.ofNat_toNat]

theorem at_pack8 {v : UInt8} (h : At m o (pack8 v)) : m o = v := by
  simpa [At, pack8, load] using h

theorem pack64_inj {a b : UInt64} (h : pack64 a = pack64 b) : a = b :=
  UInt64.toNat_inj.1 (be_inj a.toNat_lt b.toNat_lt h)

theorem packInt64_inj {a b : Int64} (h : pack64 a.toUInt64 = pack64 b.toUInt64) : a = b := by
  have := congrArg UInt64.toInt64 (pack64_inj h)
  simpa using this

theorem at_memOf (bs : Bytes) : At (memOf bs) 0 bs := by
  rw [at_iff]
  intro i hi
  simp [memOf, hi]

theorem unpack16_congr {m' : Mem} (h : ∀ i < 2, m' (o + i) = m (o + i)) :
    unpack16 m' o = unpack16 m o := by
  unfold unpack16
  rw [load_congr h]

theorem unpack64_congr {m' : Mem} {o' : ℕ} (h : ∀ i < 8, m' (o' + i) = m (o + i)) :
    unpack64 m' o' = unpack64 m o := by
  unfold unpack64
  rw [load_congr h]

end Words

theorem i16_of_lt {n : ℕ} (h : n < 32768) : i16 n = n := by
  unfold i16
  exact Int.bmod_eq_of_le (by omega) (by omega)

/-! Pointers, trees and labels. -/

@[simp] theorem length_gefsPackbp (bp : GefsBptr) : (gefsPackbp bp).length = 24 := by
  simp [gefsPackbp]

theorem gefsUnpackbp_at {m : Mem} {o : ℕ} {bp : GefsBptr} (h : At m o (gefsPackbp bp)) :
    gefsUnpackbp m o = bp := by
  simp only [gefsPackbp, at_append, List.length_append, length_pack64, Nat.reduceAdd] at h
  obtain ⟨⟨h1, h2⟩, h3⟩ := h
  simp [gefsUnpackbp, unpack64_at h1, unpack64_at h2, unpack64_at h3]

theorem valBptr_gefsPackbp (bp : GefsBptr) : valBptr (gefsPackbp bp) = some bp := by
  simp [valBptr, gefsPtrsz, gefsUnpackbp_at (at_memOf _)]

@[simp] theorem length_packtree (t : GefsTree) : (packtree t).length = 72 := by
  simp [packtree]

theorem gefsUnpacktree_packtree (t : GefsTree) : gefsUnpacktree (packtree t) = some t := by
  have h := at_memOf (packtree t)
  have hn : ¬ (packtree t).length < gefsTreesz := by simp [gefsTreesz, gefsPtrsz]
  unfold gefsUnpacktree
  rw [if_neg hn]
  generalize memOf (packtree t) = m at h ⊢
  simp only [packtree, at_append, List.length_append, length_pack32, length_pack64, Nat.reduceAdd,
    zero_add] at h
  obtain ⟨⟨⟨⟨⟨⟨⟨⟨h1, h2⟩, h3⟩, h4⟩, h5⟩, h6⟩, h7⟩, h8⟩, h9⟩ := h
  simp [unpack32_at h1, unpack32_at h2, unpack32_at h3, unpack32_at h4, unpack64_at h5,
    unpack64_at h6, unpack64_at h7, unpack64_at h8, gefsUnpackbp_at h9]

@[simp] theorem length_packlblval (id : Int64) (flags : UInt32) :
    (packlblval id flags).length = 13 := by
  simp [packlblval]

/-- A label's value read as `gefs_opensnap` reads it. -/
theorem unpack_packlblval (id : Int64) (flags : UInt32) :
    (unpack64 (memOf (packlblval id flags)) 1).toInt64 = id
      ∧ unpack32 (memOf (packlblval id flags)) 9 = flags := by
  have h := at_memOf (packlblval id flags)
  generalize memOf (packlblval id flags) = m at h ⊢
  have hl : packlblval id flags = [gefsKsnap] ++ pack64 id.toUInt64 ++ pack32 flags := rfl
  simp only [hl, at_append, List.length_append, length_pack64, List.length_singleton,
    Nat.reduceAdd, zero_add] at h
  obtain ⟨⟨-, h1⟩, h2⟩ := h
  simp [unpack64_at h1, unpack32_at h2]

/-! Entries. -/

theorem length_gefsPackdval {sz : ℕ} {d : GefsXdir} {v : Bytes} (h : gefsPackdval sz d = some v) :
    v.length = xdirsz := by
  unfold gefsPackdval at h
  simp only [gt_iff_lt, Option.ite_none_left_eq_some, Option.some.injEq] at h
  rw [← h.2]
  simp [xdirsz]

theorem gefsPackdval_isSome {sz : ℕ} (h : xdirsz ≤ sz) (d : GefsXdir) :
    ∃ v, gefsPackdval sz d = some v := by
  simp only [xdirsz, Nat.reduceAdd] at h
  simp [gefsPackdval, h]

/-- A packed entry read back under the key `k`, which only gives the name. -/
theorem gefsKv2dir_gefsPackdval {sz : ℕ} {d : GefsXdir} {v : Bytes} (k : Bytes)
    (h : gefsPackdval sz d = some v) :
    gefsKv2dir (k, v) = some { d with name := (gefsUnpackstr (k.drop 9)).map (·.1) } := by
  have hl := length_gefsPackdval h
  unfold gefsPackdval at h
  simp only [gt_iff_lt, Option.ite_none_left_eq_some, Option.some.injEq] at h
  have ha := at_memOf v
  unfold gefsKv2dir
  simp only [hl, lt_irrefl, if_false]
  generalize memOf v = m at ha ⊢
  simp only [← h.2, at_append, List.length_append, length_pack8, length_pack32, length_pack64,
    Nat.reduceAdd, zero_add] at ha
  obtain ⟨⟨⟨⟨⟨⟨⟨⟨⟨⟨h1, h2⟩, h3⟩, h4⟩, h5⟩, h6⟩, h7⟩, h8⟩, h9⟩, h10⟩, h11⟩ := ha
  simp [unpack64_at h1, unpack64_at h2, unpack32_at h3, at_pack8 h4, unpack32_at h5,
    unpack64_at h6, unpack64_at h7, unpack64_at h8, unpack32_at h9, unpack32_at h10,
    unpack32_at h11]

/-! Keys. -/

theorem gefsPackdkey_eq_some {sz : ℕ} {up : Int64} {s k : Bytes} :
    gefsPackdkey sz up (some s) = some k ↔ s.length + 3 ≤ sz - 9
      ∧ k = pack8 gefsKent ++ pack64 up.toUInt64 ++ (pack16 s.length ++ s ++ [0]) := by
  simp only [gefsPackdkey, gefsPackstr]
  constructor
  · intro h
    split_ifs at h with hs
    · simp at h
    · simp only [Option.map_some, Option.some.injEq] at h
      exact ⟨by omega, h.symm⟩
  · rintro ⟨h1, rfl⟩
    rw [if_neg (by omega)]
    rfl

/-- The name of a packed key, read back; a name has no NUL byte. -/
theorem gefsUnpackstr_packed {s : Bytes} (hs : ∀ b ∈ s, b ≠ 0) (hl : s.length < 65536)
    (rest : Bytes) : gefsUnpackstr (pack16 s.length ++ s ++ [0] ++ rest) = some (s, rest) := by
  have h2 : (pack16 (s.length : ℤ)).length = 2 := length_pack16 _
  have hn : unbe (pack16 (s.length : ℤ)) = s.length := by
    rw [pack16, unbe_be_of_lt (by omega)]
    omega
  have ht : (pack16 (s.length : ℤ) ++ s ++ [0] ++ rest).take 2 = pack16 (s.length : ℤ) := by
    rw [List.append_assoc, List.append_assoc, ← h2, List.take_left]
  have hd : (pack16 (s.length : ℤ) ++ s ++ [0] ++ rest).drop 2 = s ++ (0 :: rest) := by
    rw [List.append_assoc, List.append_assoc, ← h2, List.drop_left]
    simp
  have hg : (pack16 (s.length : ℤ) ++ s ++ [0] ++ rest).getD (s.length + 2) 0 = 0 := by
    rw [List.getD_eq_getElem?_getD, List.append_assoc, List.append_assoc,
      List.getElem?_append_right (by omega), h2, Nat.add_sub_cancel,
      List.getElem?_append_right le_rfl]
    simp
  have hr : (pack16 (s.length : ℤ) ++ s ++ [0] ++ rest).drop (s.length + 3) = rest := by
    have hlen : s.length + 3 = (pack16 (s.length : ℤ) ++ s ++ [0]).length := by
      simp only [List.length_append, h2, List.length_singleton]
      omega
    rw [hlen, List.drop_left]
  unfold gefsUnpackstr
  simp only [ht, hn, hd, hg, hr]
  have hlen : ¬ (pack16 (s.length : ℤ) ++ s ++ [0] ++ rest).length < s.length + 3 := by
    simp only [List.length_append, h2, List.length_singleton]
    omega
  rw [if_neg (by omega), if_neg (by simp only [ne_eq, not_true_eq_false, or_false]; exact hlen)]
  have htw : (s ++ 0 :: rest).takeWhile (· ≠ 0) = s := by
    rw [List.takeWhile_append_of_pos (by simpa using hs)]
    simp
  rw [htw]

theorem gefsUnpackdkey_gefsPackdkey {sz : ℕ} {up : Int64} {s k : Bytes} (hs : ∀ b ∈ s, b ≠ 0)
    (hl : s.length < 65536) (h : gefsPackdkey sz up (some s) = some k) :
    gefsUnpackdkey k = some (up, s) := by
  obtain ⟨-, rfl⟩ := gefsPackdkey_eq_some.1 h
  have ha := at_memOf (pack8 gefsKent ++ pack64 up.toUInt64 ++ (pack16 s.length ++ s ++ [0]))
  have h9 : (pack8 gefsKent ++ pack64 up.toUInt64).length = 9 := by simp
  have hd : (pack8 gefsKent ++ pack64 up.toUInt64 ++ (pack16 (s.length : ℤ) ++ s ++ [0])).drop 9
      = pack16 s.length ++ s ++ [0] ++ [] := by
    rw [← h9, List.drop_left, List.append_nil]
  unfold gefsUnpackdkey
  rw [hd, gefsUnpackstr_packed hs hl, if_neg]
  · rw [at_append, at_append] at ha
    obtain ⟨⟨-, h1⟩, -⟩ := ha
    simp only [length_pack8, zero_add] at h1
    rw [unpack64_at h1]
    simp
  · rintro (h | h)
    · simp only [List.length_append, h9] at h
      omega
    · exact h rfl

theorem gefsPackdkey_inj {sz sz' : ℕ} {p q : Int64} {s t k : Bytes}
    (h : gefsPackdkey sz p (some s) = some k)
    (h' : gefsPackdkey sz' q (some t) = some k) : p = q ∧ s = t := by
  obtain ⟨-, rfl⟩ := gefsPackdkey_eq_some.1 h
  obtain ⟨-, he⟩ := gefsPackdkey_eq_some.1 h'
  obtain ⟨h1, h2⟩ := List.append_inj he (by simp)
  obtain ⟨-, h1⟩ := List.append_inj h1 (by simp)
  obtain ⟨h3, h4⟩ := List.append_inj h2 (by
    have := congrArg List.length h2
    simpa using this)
  obtain ⟨-, h3⟩ := List.append_inj h3 (by simp)
  exact ⟨packInt64_inj h1, h3⟩

theorem packupkey_inj {p q : UInt64} (h : packupkey p = packupkey q) : p = q := by
  simp only [packupkey, pack8, List.singleton_append, List.cons.injEq, true_and] at h
  exact pack64_inj h

theorem packdatkey_inj {p q a b : UInt64} (h : packdatkey p a = packdatkey q b) :
    p = q ∧ a = b := by
  simp only [packdatkey, pack8, List.cons_append, List.cons.injEq, true_and] at h
  obtain ⟨h1, h2⟩ := List.append_inj h (by simp)
  exact ⟨pack64_inj h1, pack64_inj h2⟩

theorem gefsPacksnap_inj {a b : Int64} (h : gefsPacksnap a = gefsPacksnap b) : a = b := by
  simp only [gefsPacksnap, List.cons.injEq, true_and] at h
  exact packInt64_inj h

/-! Key comparison. -/

theorem memcmp_min (a b : Bytes) :
    memcmp a b (min a.length b.length)
      = if a <+: b ∨ b <+: a then 0 else if a < b then -1 else 1 := by
  induction a generalizing b with
  | nil => simp [memcmp]
  | cons x xs ih =>
    rcases b with _ | ⟨y, ys⟩
    · simp [memcmp]
    · rw [List.length_cons, List.length_cons, Nat.succ_min_succ, memcmp]
      rcases lt_trichotomy x y with h | rfl | h
      · have h1 : ¬ (x :: xs <+: y :: ys ∨ y :: ys <+: x :: xs) := by
          simp [List.cons_prefix_cons, h.ne, h.ne']
        have h2 : x :: xs < y :: ys := List.Lex.rel h
        rw [if_pos h, if_neg h1, if_pos h2]
      · rw [if_neg (lt_irrefl x), if_neg (lt_irrefl x), ih]
        simp [List.cons_prefix_cons]
      · have h1 : ¬ (x :: xs <+: y :: ys ∨ y :: ys <+: x :: xs) := by
          simp [List.cons_prefix_cons, h.ne, h.ne']
        have h2 : ¬ x :: xs < y :: ys := by simp [List.cons_lt_cons_iff, h.not_gt, h.ne']
        rw [if_neg h.not_gt, if_pos h, if_neg h1, if_neg h2]

theorem lt_of_prefix_of_length {a b : Bytes} (h : a <+: b) (hl : a.length < b.length) : a < b := by
  obtain ⟨c, rfl⟩ := h
  rcases c with _ | ⟨c, cs⟩
  · simp at hl
  · induction a with
    | nil => exact List.Lex.nil
    | cons x xs ih => exact List.Lex.cons (ih (by simp))

/-- The comparison is that of the lexicographic order. -/
theorem gefsKeycmp_eq (a b : Bytes) :
    gefsKeycmp a b = if a < b then -1 else if a = b then 0 else 1 := by
  unfold gefsKeycmp
  rw [memcmp_min]
  by_cases hp : a <+: b ∨ b <+: a
  · rw [if_pos hp]
    simp only [ne_eq, not_true_eq_false, if_false]
    rcases lt_trichotomy a.length b.length with hl | hl | hl
    · have hab : a <+: b := hp.elim id fun h => absurd h.length_le (by omega)
      rw [if_pos hl, if_pos (lt_of_prefix_of_length hab hl)]
    · have hab : a = b := hp.elim (fun h => h.eq_of_length hl) fun h => (h.eq_of_length hl.symm).symm
      simp [hab]
    · have hba : b <+: a := hp.elim (fun h => absurd h.length_le (by omega)) id
      have hlt := lt_of_prefix_of_length hba hl
      rw [if_neg (by omega), if_pos hl, if_neg hlt.not_gt, if_neg hlt.ne']
  · have hne : a ≠ b := fun h => hp (.inl (h ▸ List.prefix_refl a))
    rw [if_neg hp]
    by_cases h : a < b
    · simp [h]
    · simp [h, hne]

theorem gefsKeycmp_eq_zero {a b : Bytes} : gefsKeycmp a b = 0 ↔ a = b := by
  rw [gefsKeycmp_eq]
  split_ifs with h1 h2
  · simp [h1.ne]
  · simp [h2]
  · simp [h2]

theorem gefsKeycmp_eq_one {a b : Bytes} : gefsKeycmp a b = 1 ↔ b < a := by
  rw [gefsKeycmp_eq]
  split_ifs with h1 h2
  · simp [h1.not_gt]
  · simp [h2]
  · simpa using lt_of_le_of_ne (not_lt.1 h1) (Ne.symm h2)

theorem gefsKeycmp_neg {a b : Bytes} : gefsKeycmp a b < 0 ↔ a < b := by
  rw [gefsKeycmp_eq]
  split_ifs with h1 h2 <;> simp [h1]

/-! All codecs. -/

/-- What a key of the port names. -/
inductive KeyName where
  | dat (q off : UInt64)
  | ent (parent : Int64) (name : Bytes)
  | super (q : UInt64)
  | label (name : Bytes)
  | snap (id : Int64)

/-- The key, packed into `sz` bytes. -/
def KeyName.pack (sz : ℕ) : KeyName → Option Bytes
  | dat q off => some (packdatkey q off)
  | ent parent name => gefsPackdkey sz parent (some name)
  | super q => some (packupkey q)
  | label name => gefsPacklbl sz name
  | snap id => some (gefsPacksnap id)

/-- The byte a key of the kind begins with. -/
def KeyName.kind : KeyName → UInt8
  | dat _ _ => gefsKdat
  | ent _ _ => gefsKent
  | super _ => gefsKup
  | label _ => gefsKlabel
  | snap _ => gefsKsnap

theorem gefsPacklbl_eq_some {sz : ℕ} {s k : Bytes} (h : gefsPacklbl sz s = some k) :
    k = gefsKlabel :: s := by
  unfold gefsPacklbl at h
  split_ifs at h
  exact (Option.some.inj h).symm

theorem KeyName.head_pack {sz : ℕ} {a : KeyName} {k : Bytes} (h : a.pack sz = some k) :
    k.head? = some a.kind := by
  cases a <;> simp only [KeyName.pack, Option.some.injEq] at h
  case ent =>
    obtain ⟨-, rfl⟩ := gefsPackdkey_eq_some.1 h
    rfl
  case label =>
    rw [gefsPacklbl_eq_some h]
    rfl
  all_goals
    rw [← h]
    rfl

theorem KeyName.pack_inj {sz sz' : ℕ} {a b : KeyName} {k : Bytes} (ha : a.pack sz = some k)
    (hb : b.pack sz' = some k) : a = b := by
  have hkind : a.kind = b.kind := Option.some.inj ((head_pack ha).symm.trans (head_pack hb))
  cases a <;> cases b <;> simp only [KeyName.pack, Option.some.injEq] at ha hb
  case dat.dat =>
    obtain ⟨rfl, rfl⟩ := packdatkey_inj (ha.trans hb.symm)
    rfl
  case ent.ent =>
    obtain ⟨rfl, rfl⟩ := gefsPackdkey_inj ha hb
    rfl
  case super.super =>
    obtain rfl := packupkey_inj (ha.trans hb.symm)
    rfl
  case label.label =>
    rw [(List.cons.inj ((gefsPacklbl_eq_some ha).symm.trans (gefsPacklbl_eq_some hb))).2]
  case snap.snap =>
    obtain rfl := gefsPacksnap_inj (ha.trans hb.symm)
    rfl
  all_goals exact absurd hkind (by simp only [KeyName.kind]; decide)

/-- The entries of a directory are those whose keys begin with its key. -/
theorem prefix_gefsPackdkey_iff {sz sz' : ℕ} {up q : Int64} {s k p : Bytes}
    (hk : gefsPackdkey sz up (some s) = some k) (hp : gefsPackdkey sz' q none = some p) :
    p <+: k ↔ up = q := by
  obtain ⟨-, rfl⟩ := gefsPackdkey_eq_some.1 hk
  obtain rfl := Option.some.inj hp
  constructor
  · rintro ⟨r, hr⟩
    obtain ⟨h1, -⟩ := List.append_inj hr (by simp)
    obtain ⟨-, h2⟩ := List.append_inj h1 (by simp)
    exact (packInt64_inj h2).symm
  · rintro rfl
    exact ⟨_, rfl⟩

theorem packdatkey_lt_iff {p q a b : UInt64} :
    packdatkey q a < packdatkey p b ↔ q < p ∨ q = p ∧ a < b := by
  have hcons : ∀ x y : UInt64, packdatkey x y = gefsKdat :: (pack64 x ++ pack64 y) := fun _ _ => rfl
  have hnum : ∀ x y : UInt64, unbe (pack64 x ++ pack64 y) = x.toNat * 2 ^ 64 + y.toNat := by
    intro x y
    rw [unbe_append, pack64, pack64, unbe_be_of_lt x.toNat_lt, unbe_be_of_lt y.toNat_lt, length_be]
    rfl
  rw [hcons, hcons, List.cons_lt_cons_iff, lt_iff_unbe_lt (by simp), hnum, hnum,
    UInt64.lt_iff_toNat_lt, UInt64.lt_iff_toNat_lt, ← UInt64.toNat_inj]
  have ha := a.toNat_lt
  have hb := b.toNat_lt
  have hirr : ¬ gefsKdat < gefsKdat := lt_irrefl _
  simp only [hirr, false_or, true_and]
  omega

/-- Every record and key is read back as it was packed, no two keys are packed alike, and the keys
of data are in the order of their files and offsets. -/
theorem codecs_undo :
    (∀ (sz : ℕ) (up : Int64) (s k : Bytes), (∀ b ∈ s, b ≠ 0) → s.length < 65536 →
      gefsPackdkey sz up (some s) = some k → gefsUnpackdkey k = some (up, s))
    ∧ (∀ (sz sz' : ℕ) (up : Int64) (s k v : Bytes) (d : GefsXdir), (∀ b ∈ s, b ≠ 0) →
      s.length < 65536 → d.name = some s → gefsPackdkey sz up (some s) = some k →
      gefsPackdval sz' d = some v → gefsKv2dir (k, v) = some d)
    ∧ (∀ t : GefsTree, gefsUnpacktree (packtree t) = some t)
    ∧ (∀ (sz sz' : ℕ) (a b : KeyName) (k : Bytes), a.pack sz = some k → b.pack sz' = some k → a = b)
    ∧ (∀ (sz sz' : ℕ) (up q : Int64) (s k p : Bytes), gefsPackdkey sz up (some s) = some k →
      gefsPackdkey sz' q none = some p → (p <+: k ↔ up = q))
    ∧ ∀ p q a b : UInt64, gefsKeycmp (packdatkey q a) (packdatkey p b)
      = if q < p ∨ q = p ∧ a < b then -1 else if q = p ∧ a = b then 0 else 1 := by
  refine ⟨fun sz up s k => gefsUnpackdkey_gefsPackdkey, fun sz sz' up s k v d hs hl hname hk hv => ?_,
    gefsUnpacktree_packtree, fun sz sz' a b k => KeyName.pack_inj,
    fun sz sz' up q s k p => prefix_gefsPackdkey_iff, fun p q a b => ?_⟩
  · obtain ⟨-, rfl⟩ := gefsPackdkey_eq_some.1 hk
    have h9 : (pack8 gefsKent ++ pack64 up.toUInt64).length = 9 := by simp
    have hd : (pack8 gefsKent ++ pack64 up.toUInt64 ++ (pack16 (s.length : ℤ) ++ s ++ [0])).drop 9
        = pack16 s.length ++ s ++ [0] ++ [] := by
      rw [← h9, List.drop_left, List.append_nil]
    rw [gefsKv2dir_gefsPackdval _ hv, hd, gefsUnpackstr_packed hs hl, Option.map_some, ← hname]
  · have heq : packdatkey q a = packdatkey p b ↔ q = p ∧ a = b :=
      ⟨packdatkey_inj, fun ⟨h1, h2⟩ => by rw [h1, h2]⟩
    rw [gefsKeycmp_eq]
    simp only [packdatkey_lt_iff, heq]

/-- The key of the entry `a` of the directory 7. -/
def keyA : Bytes := pack8 gefsKent ++ pack64 7 ++ [0, 1, 97, 0]

/-- The file `a`, of five bytes. -/
def fileA : GefsXdir := { zeroXdir with qid := ⟨8, 1, 0⟩, length := 5, name := some [97] }

theorem keyA_packed : gefsPackdkey gefsKeymax 7 (some [97]) = some keyA := by decide +kernel

theorem codecs_undo_a : gefsUnpackdkey keyA = some (7, [97])
    ∧ (∃ v, gefsPackdval gefsInlmax fileA = some v ∧ gefsKv2dir (keyA, v) = some fileA)
    ∧ gefsUnpacktree (packtree zeroTree) = some zeroTree
    ∧ gefsPackdkey gefsKeymax 7 (some [98]) ≠ some keyA
    ∧ (pack8 gefsKent ++ pack64 7 <+: keyA ∧ ¬ pack8 gefsKent ++ pack64 8 <+: keyA)
    ∧ gefsKeycmp (packdatkey 7 0) (packdatkey 7 16384) = -1 := by
  obtain ⟨h1, h2, h3, h4, h5, h6⟩ := codecs_undo
  refine ⟨h1 gefsKeymax 7 [97] _ (by simp) (by simp) keyA_packed, ?_, h3 zeroTree, fun h => ?_,
    ⟨(h5 _ gefsKeymax 7 7 [97] _ _ keyA_packed (by decide +kernel)).2 rfl, fun h => ?_⟩, ?_⟩
  · obtain ⟨v, hv⟩ : ∃ v, gefsPackdval gefsInlmax fileA = some v := ⟨_, rfl⟩
    exact ⟨v, hv, h2 gefsKeymax gefsInlmax 7 [97] keyA v fileA (by simp) (by simp) rfl keyA_packed hv⟩
  · exact absurd (h4 gefsKeymax gefsKeymax (.ent 7 [98]) (.ent 7 [97]) keyA h keyA_packed)
      (by simp)
  · exact absurd ((h5 _ gefsKeymax 7 8 [97] _ _ keyA_packed (by decide +kernel)).1 h) (by decide)
  · rw [h6]
    decide

end GefsFuse
