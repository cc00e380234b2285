import GefsFuse.Proofs.Format
import GefsFuse.Batch
import GefsFuse.Lib.Ranges

/-!
# Leaves

A leaf is a table of offsets growing up from its header and the entries growing down from its end.
As long as the two do not meet (`Fits`) `blk_setval` appends an entry and changes none of the
earlier ones, so a leaf filled with `es` reads back as `es` (`isLeaf_parseBlk`), from the cache and
from the disk, whatever lies past the block.
-/

namespace GefsFuse

open ByteMem SortedMap

/-- The bytes of an entry. -/
def kvSize (kv : GefsKvp) : ℕ := 4 + kv.1.length + kv.2.length

/-- The bytes of all entries. -/
def valsSize (es : List GefsKvp) : ℕ := (es.map kvSize).sum

/-- The entries and their offsets fill no more than a leaf has. -/
def Fits (es : List GefsKvp) : Prop := 2 * es.length + valsSize es ≤ gefsLeafspc

instance (es : List GefsKvp) : Decidable (Fits es) := inferInstanceAs (Decidable (_ ≤ _))

@[simp] theorem valsSize_nil : valsSize [] = 0 := rfl

@[simp] theorem valsSize_append (as bs : List GefsKvp) :
    valsSize (as ++ bs) = valsSize as + valsSize bs := by
  simp [valsSize]

@[simp] theorem valsSize_cons (e : GefsKvp) (es : List GefsKvp) :
    valsSize (e :: es) = kvSize e + valsSize es := by
  simp [valsSize]

@[simp] theorem length_packkv (kv : GefsKvp) : (packkv kv).length = kvSize kv := by
  simp only [packkv, List.length_append, length_pack16, kvSize]
  omega

theorem Fits.of_append {as bs : List GefsKvp} (h : Fits (as ++ bs)) : Fits as := by
  simp only [Fits, List.length_append, valsSize_append] at h ⊢
  omega

theorem valsSize_take_succ {es : List GefsKvp} {i : ℕ} (hi : i < es.length) :
    valsSize (es.take (i + 1)) = valsSize (es.take i) + kvSize es[i] := by
  rw [List.take_succ_eq_append_getElem hi, valsSize_append, valsSize_cons, valsSize_nil,
    Nat.add_zero]

theorem valsSize_take_le (es : List GefsKvp) (i : ℕ) : valsSize (es.take i) ≤ valsSize es := by
  have h : valsSize (es.take i ++ es.drop i) = valsSize es := by rw [List.take_append_drop]
  rw [valsSize_append] at h
  omega

/-- Where the `i`-th entry of a leaf filled with `es` starts. -/
def entryOff (es : List GefsKvp) (i : ℕ) : ℕ := gefsLeafspc - valsSize (es.take (i + 1))

/-- A block that reads as a leaf with the entries `es`. -/
structure IsLeaf (es : List GefsKvp) (c : Content) : Prop where
  type : c.type = gefsTleaf
  nval : c.nval = es.length
  getval : ∀ i, (h : i < es.length) → gefsGetval c i = es[i]

/-- A block being filled that has taken `es` so far. -/
structure Filled (es : List GefsKvp) (b : GefsBlk) : Prop where
  type : b.type = gefsTleaf
  data : b.data = gefsLeafhdsz
  nval : b.nval = es.length
  valsz : b.valsz = valsSize es
  slot : ∀ i, (h : i < es.length) →
    At b.buf (gefsLeafhdsz + 2 * i) (pack16 (entryOff es i))
  body : ∀ i, (h : i < es.length) → At b.buf (gefsLeafhdsz + entryOff es i) (packkv es[i])

theorem gefsGetval_of_at {c : Content} {i o : ℕ} {kv : GefsKvp}
    (hs : At c.buf (c.data + 2 * i) (pack16 o)) (ho : o < 65536)
    (hb : At c.buf (c.data + o) (packkv kv)) (hk : kv.1.length < 65536)
    (hv : kv.2.length < 65536) : gefsGetval c i = kv := by
  rw [packkv, at_append, at_append, at_append] at hb
  obtain ⟨⟨⟨h1, h2⟩, h3⟩, h4⟩ := hb
  simp only [List.length_append, length_pack16] at h2 h3 h4
  have e1 := unpack16_at_nat h1 hk
  have e3 := unpack16_at_nat h3 hv
  unfold gefsGetval
  simp only [unpack16_at_nat hs ho, e1]
  rw [Nat.add_assoc (c.data + o) 2 kv.1.length, e3]
  have hr : c.data + o + (2 + kv.1.length) + 2 = c.data + o + (2 + kv.1.length + 2) := by omega
  rw [hr]
  exact Prod.ext h2 h4

section Fill

variable {es : List GefsKvp} {b : GefsBlk}

theorem entryOff_append {as bs : List GefsKvp} {i : ℕ} (h : i < as.length) :
    entryOff (as ++ bs) i = entryOff as i := by
  unfold entryOff
  rw [List.take_append_of_le_length (by omega)]

/-- The entries lie above the offsets, each below the ones before it. -/
theorem entryOff_bounds (hf : Fits es) {i : ℕ} (h : i < es.length) :
    2 * es.length + (valsSize es - valsSize (es.take (i + 1))) ≤ entryOff es i
      ∧ entryOff es i + kvSize es[i] ≤ gefsLeafspc := by
  have h1 := valsSize_take_succ h
  have h2 := valsSize_take_le es (i + 1)
  unfold Fits at hf
  unfold entryOff
  omega

theorem entryOff_lt (es : List GefsKvp) (i : ℕ) : entryOff es i < 65536 := by
  have : gefsLeafspc = 16378 := rfl
  unfold entryOff
  omega

/-- One more entry. -/
theorem blkSetval_filled {kv : GefsKvp} (hb : Filled es b) (hf : Fits (es ++ [kv])) :
    ∃ b', blkSetval b kv = some b' ∧ Filled (es ++ [kv]) b' ∧ b'.bp = b.bp ∧ b'.id = b.id
      ∧ b'.ref = b.ref := by
  have hspc : gefsLeafspc = 16378 := rfl
  have hhd : gefsLeafhdsz = 6 := rfl
  have hbs : gefsBlksz = 16384 := rfl
  have hsz : kvSize kv = 4 + kv.1.length + kv.2.length := rfl
  have hf' := hf
  simp only [Fits, List.length_append, List.length_singleton, valsSize_append, valsSize_cons,
    valsSize_nil, Nat.add_zero] at hf'
  have hval : i16 (b.valsz + (2 + kv.1.length + 2 + kv.2.length))
      = ((valsSize es + kvSize kv : ℕ) : ℤ) := by
    rw [← i16_of_lt (show valsSize es + kvSize kv < 32768 by omega), hb.valsz]
    congr 1
    push_cast [hsz]
    omega
  have hnval : i16 (b.nval + 1) = ((es.length + 1 : ℕ) : ℤ) := by
    rw [← i16_of_lt (show es.length + 1 < 32768 by omega), hb.nval]
    push_cast
    rfl
  have hoff : ((gefsLeafspc : ℕ) : ℤ) - ((valsSize es + kvSize kv : ℕ) : ℤ)
      = (entryOff (es ++ [kv]) es.length : ℕ) := by
    simp only [entryOff]
    rw [List.take_of_length_le (by simp)]
    simp only [valsSize_append, valsSize_cons, valsSize_nil, Nat.add_zero]
    omega
  obtain ⟨hlo, hhi⟩ := entryOff_bounds hf (i := es.length) (by simp)
  simp only [List.length_append, List.length_singleton, List.getElem_concat_length] at hlo hhi
  set off := entryOff (es ++ [kv]) es.length with hoffd
  have hp : ((b.data : ℤ) + 2 * b.nval).toNat = gefsLeafhdsz + 2 * es.length := by
    rw [hb.data, hb.nval]
    omega
  have hq : ((b.data : ℤ) + (off : ℤ)).toNat = gefsLeafhdsz + off := by
    rw [hb.data]
    omega
  have hcond : 0 ≤ (b.data : ℤ) + 2 * b.nval ∧ (b.data : ℤ) + 2 * b.nval + 2 ≤ gefsBlksz
      ∧ 0 ≤ (b.data : ℤ) + (off : ℤ)
      ∧ (b.data : ℤ) + (off : ℤ) + (packkv kv).length ≤ gefsBlksz := by
    rw [hb.data, hb.nval, length_packkv]
    omega
  have hset : blkSetval b kv = some { b with
      valsz := ((valsSize es + kvSize kv : ℕ) : ℤ)
      nval := ((es.length + 1 : ℕ) : ℤ)
      buf := store (store b.buf (gefsLeafhdsz + 2 * es.length) (pack16 off)) (gefsLeafhdsz + off)
        (packkv kv) } := by
    unfold blkSetval
    simp only [hb.type, if_true, hval, hoff, hnval, hp, hq]
    rw [if_pos hcond]
  refine ⟨_, hset, ?_, rfl, rfl, rfl⟩
  -- the slot of the new entry is above the old slots and below every entry
  refine ⟨hb.type, hb.data, by simp, by simp, fun i hi => ?_, fun i hi => ?_⟩ <;>
    simp only [List.length_append, List.length_singleton] at hi
  · rcases Nat.lt_or_ge i es.length with h | h
    · rw [entryOff_append h]
      refine At.store (At.store (hb.slot i h) (.inl ?_)) (.inl ?_)
      · simp only [length_pack16]
        omega
      · simp only [length_pack16]
        omega
    · obtain rfl : i = es.length := by omega
      refine At.store (at_store _ _ _) (.inl ?_)
      simp only [length_pack16]
      omega
  · rcases Nat.lt_or_ge i es.length with h | h
    · rw [entryOff_append h]
      have hge : off + kvSize kv ≤ entryOff es i := by
        have h1 := valsSize_take_le es (i + 1)
        simp only [hoffd, entryOff]
        rw [List.take_of_length_le (by simp)]
        simp only [valsSize_append, valsSize_cons, valsSize_nil, Nat.add_zero]
        omega
      have hget : (es ++ [kv])[i] = es[i] := List.getElem_append_left h
      rw [hget]
      refine At.store (At.store (hb.body i h) (.inr ?_)) (.inr ?_)
      · simp only [length_pack16]
        omega
      · simp only [length_packkv]
        omega
    · obtain rfl : i = es.length := by omega
      rw [List.getElem_concat_length rfl]
      exact at_store _ _ _

/-- Any number of entries. -/
theorem foldlM_blkSetval_filled (es' : List GefsKvp) (hb : Filled es b) (hf : Fits (es ++ es')) :
    ∃ b', es'.foldlM blkSetval b = some b' ∧ Filled (es ++ es') b' ∧ b'.bp = b.bp ∧ b'.id = b.id
      ∧ b'.ref = b.ref := by
  induction es' generalizing es b with
  | nil => exact ⟨b, rfl, by simpa using hb, rfl, rfl, rfl⟩
  | cons kv es' ih =>
    have hcons : es ++ kv :: es' = es ++ [kv] ++ es' := by simp
    rw [hcons] at hf ⊢
    obtain ⟨b1, h1, hf1, e1, e2, e3⟩ := blkSetval_filled hb hf.of_append
    obtain ⟨b2, h2, hf2, e4, e5, e6⟩ := ih hf1 hf
    refine ⟨b2, ?_, hf2, e4.trans e1, e5.trans e2, e6.trans e3⟩
    rw [List.foldlM_cons, h1]
    exact h2

end Fill

/-- The bytes of a finished leaf with the entries `es`. -/
structure LeafBytes (es : List GefsKvp) (m : Mem) : Prop where
  fits : Fits es
  type : At m 0 (pack16 gefsTleaf)
  nval : At m 2 (pack16 es.length)
  slot : ∀ i, (h : i < es.length) → At m (gefsLeafhdsz + 2 * i) (pack16 (entryOff es i))
  body : ∀ i, (h : i < es.length) → At m (gefsLeafhdsz + entryOff es i) (packkv es[i])

/-- Only the block itself counts. -/
theorem LeafBytes.congr {es : List GefsKvp} {m m' : Mem} (h : LeafBytes es m)
    (hm : ∀ i < gefsBlksz, m' i = m i) : LeafBytes es m' := by
  have hspc : gefsLeafspc = 16378 := rfl
  have hhd : gefsLeafhdsz = 6 := rfl
  have hbs : gefsBlksz = 16384 := rfl
  have hf := h.fits
  unfold Fits at hf
  refine ⟨h.fits, h.type.congr fun i hi => hm _ ?_, h.nval.congr fun i hi => hm _ ?_,
    fun i hi => (h.slot i hi).congr fun j hj => hm _ ?_,
    fun i hi => (h.body i hi).congr fun j hj => hm _ ?_⟩
  · simp only [length_pack16] at hi
    omega
  · simp only [length_pack16] at hi
    omega
  · simp only [length_pack16] at hj
    omega
  · have := (entryOff_bounds h.fits hi).2
    simp only [length_packkv] at hj
    omega

theorem kv_length_lt {es : List GefsKvp} (hf : Fits es) {kv : GefsKvp} (h : kv ∈ es) :
    kv.1.length < 16384 ∧ kv.2.length < 16384 := by
  have hspc : gefsLeafspc = 16378 := rfl
  have hle : kvSize kv ≤ valsSize es := List.le_sum_of_mem (List.mem_map_of_mem h)
  unfold Fits at hf
  unfold kvSize at hle
  omega

theorem LeafBytes.isLeaf {es : List GefsKvp} {c : Content} (h : LeafBytes es c.buf)
    (ht : c.type = gefsTleaf) (hd : c.data = gefsLeafhdsz) (hn : c.nval = es.length) :
    IsLeaf es c := by
  refine ⟨ht, hn, fun i hi => ?_⟩
  have hl := kv_length_lt h.fits (List.getElem_mem hi)
  exact gefsGetval_of_at (by rw [hd]; exact h.slot i hi) (entryOff_lt es i)
    (by rw [hd]; exact h.body i hi) (by omega) (by omega)

theorem LeafBytes.nval_lt {es : List GefsKvp} {m : Mem} (h : LeafBytes es m) :
    es.length < 32768 := by
  have hspc : gefsLeafspc = 16378 := rfl
  have hf := h.fits
  unfold Fits at hf
  omega

/-- A leaf read from the disk. -/
theorem isLeaf_parseBlk {es : List GefsKvp} {m : Mem} (h : LeafBytes es m) :
    IsLeaf es (parseBlk m) := by
  have ht : unpack16 m 0 = gefsTleaf := unpack16_at_nat h.type (by decide)
  have hn : unpack16 m 2 = es.length := unpack16_at_nat h.nval (by have := h.nval_lt; omega)
  unfold parseBlk
  simp only [ht, hn, if_true]
  apply LeafBytes.isLeaf
  · exact h
  · rfl
  · rfl
  · dsimp only
    exact i16_of_lt h.nval_lt

/-- A leaf's bytes with its header. -/
def leafBuf (b : GefsBlk) : Mem :=
  store (store b.buf 0 (pack16 gefsTleaf)) 2 (pack16 b.nval ++ pack16 b.valsz)

theorem blkFinalize_leaf {b : GefsBlk} (hb : b.type = gefsTleaf) :
    blkFinalize b = { b with
      buf := leafBuf b
      bp := { b.bp with hash := gefsBufhash (leafBuf b) 0 gefsBlksz } } := by
  have h0 : b.type ≠ gefsTdat := by rw [hb]; decide
  have h1 : ¬ (b.type = gefsTlog ∨ b.type = gefsTdlist) := by rw [hb]; decide
  have h2 : ¬ b.type = gefsTpivot := by rw [hb]; decide
  unfold blkFinalize
  simp only [if_pos h0, if_neg h1, if_neg h2, if_pos hb]
  rw [hb]
  rfl

theorem leafBytes_leafBuf {es : List GefsKvp} {b : GefsBlk} (hb : Filled es b) (hf : Fits es) :
    LeafBytes es (leafBuf b) := by
  have hhd : gefsLeafhdsz = 6 := rfl
  unfold leafBuf
  refine ⟨hf, At.store (at_store _ _ _) (.inl (by simp)), ?_, fun i hi => ?_, fun i hi => ?_⟩
  · have := at_store (store b.buf 0 (pack16 gefsTleaf)) 2 (pack16 b.nval ++ pack16 b.valsz)
    rw [at_append] at this
    rw [← hb.nval]
    exact this.1
  · refine At.store (At.store (hb.slot i hi) (.inr ?_)) (.inr ?_)
    · simp only [length_pack16]
      omega
    · simp only [List.length_append, length_pack16]
      omega
  · refine At.store (At.store (hb.body i hi) (.inr ?_)) (.inr ?_)
    · simp only [length_pack16]
      omega
    · simp only [List.length_append, length_pack16]
      omega

/-- A filled leaf once its header is written. -/
theorem leafBytes_blkFinalize {es : List GefsKvp} {b : GefsBlk} (hb : Filled es b) (hf : Fits es) :
    LeafBytes es (blkFinalize b).buf ∧ IsLeaf es (blkFinalize b).toContent := by
  rw [blkFinalize_leaf hb.type]
  have hl := leafBytes_leafBuf hb hf
  refine ⟨hl, ?_⟩
  apply LeafBytes.isLeaf
  · exact hl
  · exact hb.type
  · exact hb.data
  · exact hb.nval

/-- An empty leaf. -/
theorem filled_nil {b : GefsBlk} (ht : b.type = gefsTleaf) (hd : b.data = gefsLeafhdsz)
    (hn : b.nval = 0) (hv : b.valsz = 0) : Filled [] b :=
  ⟨ht, hd, hn, hv, fun i hi => absurd hi (by simp), fun i hi => absurd hi (by simp)⟩

/-- A block being filled reads as the entries it has. -/
theorem Filled.getval {es : List GefsKvp} {b : GefsBlk} (hb : Filled es b) (hf : Fits es) {i : ℕ}
    (hi : i < es.length) : gefsGetval b.toContent i = es[i] := by
  have hl := kv_length_lt hf (List.getElem_mem hi)
  exact gefsGetval_of_at (by rw [hb.data]; exact hb.slot i hi) (entryOff_lt es i)
    (by rw [hb.data]; exact hb.body i hi) (by omega) (by omega)

/-- The bytes of the entries are in the header too. -/
theorem valsz_leafBuf {es : List GefsKvp} {b : GefsBlk} (hb : Filled es b) :
    At (leafBuf b) 4 (pack16 (valsSize es)) := by
  have h := at_store (store b.buf 0 (pack16 gefsTleaf)) 2 (pack16 b.nval ++ pack16 b.valsz)
  rw [at_append, length_pack16] at h
  rw [← hb.valsz]
  exact h.2

theorem valsz_parseBlk {es : List GefsKvp} {m : Mem} (h : LeafBytes es m)
    (hv : At m 4 (pack16 (valsSize es))) : (parseBlk m).valsz = valsSize es := by
  have hspc : gefsLeafspc = 16378 := rfl
  have hf := h.fits
  unfold Fits at hf
  have ht : unpack16 m 0 = gefsTleaf := unpack16_at_nat h.type (by decide)
  unfold parseBlk
  simp only [ht, if_true, unpack16_at_nat hv (show valsSize es < 65536 by omega)]
  exact i16_of_lt (by omega)

theorem exists_leafBytes {es : List GefsKvp} (hf : Fits es) : ∃ m, LeafBytes es m := by
  let b : GefsBlk :=
    { type := gefsTleaf, nval := 0, valsz := 0, nbuf := 0, bufsz := 0, logsz := 0
      data := gefsLeafhdsz, buf := fun _ => 0, id := 0, bp := ⟨0, 0, 0⟩, ref := 0 }
  obtain ⟨b', -, hb', -⟩ := foldlM_blkSetval_filled es (b := b) (filled_nil rfl rfl rfl rfl) hf
  exact ⟨leafBuf b', leafBytes_leafBuf hb' hf⟩

/-- The entries of a leaf. -/
theorem blkVals_of_isLeaf {es : List GefsKvp} {c : Content} (h : IsLeaf es c) :
    blkVals c = es := by
  apply List.ext_getElem
  · simp [blkVals, h.nval]
  · intro i h1 h2
    simp only [blkVals, List.getElem_map, List.getElem_range]
    exact h.getval i h2

/-! ## Leaves laid out -/

theorem valsSize_blkVals (c : Content) : valsSize (blkVals c)
    = ∑ i ∈ Finset.range (blkVals c).length, kvSize (gefsGetval c i) := by
  have hlen : (blkVals c).length = c.nval.toNat := by simp [blkVals]
  rw [hlen, valsSize, blkVals, List.map_map, ← List.sum_toFinset _ List.nodup_range,
    List.toFinset_range]
  rfl

theorem slotEnd_eq (c : Content) (i : ℕ) :
    slotEnd c i = slotOff c i + kvSize (gefsGetval c i) := by
  unfold slotEnd kvSize
  rfl

/-- Entries that each have bytes of their own fit a leaf. -/
theorem LaidOut.fits {c : Content} (h : LaidOut c) : Fits (blkVals c) := by
  unfold Fits
  rcases Nat.eq_zero_or_pos (blkVals c).length with h0 | h0
  · rw [List.length_eq_zero_iff.1 h0]
    simp
  · have hsum := Ranges.sum_le_of_apart (fun i hi => ⟨h.table i hi, h.space i hi⟩) h.apart
    have hsize : ∑ i ∈ Finset.range (blkVals c).length, (slotEnd c i - slotOff c i)
        = valsSize (blkVals c) := by
      rw [valsSize_blkVals]
      refine Finset.sum_congr rfl fun i _ => ?_
      rw [slotEnd_eq, Nat.add_sub_cancel_left]
    have h1 := h.table 0 h0
    have h2 := h.space 0 h0
    rw [slotEnd_eq] at h2
    omega

/-- And a leaf filled with entries that fit is laid out. -/
theorem LeafBytes.laidOut {es : List GefsKvp} {c : Content} (h : LeafBytes es c.buf)
    (hd : c.data = gefsLeafhdsz) (hl : IsLeaf es c) : LaidOut c := by
  have hvals := blkVals_of_isLeaf hl
  have hoff : ∀ i, (hi : i < es.length) → slotOff c i = entryOff es i := by
    intro i hi
    unfold slotOff
    rw [hd]
    exact unpack16_at_nat (h.slot i hi) (entryOff_lt es i)
  have hend : ∀ i, (hi : i < es.length) → slotEnd c i = entryOff es i + kvSize es[i] := by
    intro i hi
    rw [slotEnd_eq, hoff i hi, hl.getval i hi]
  refine ⟨fun i hi => ?_, fun i hi => ?_, fun i hi j hj => ?_⟩ <;> rw [hvals] at hi
  · have := (entryOff_bounds h.fits hi).1
    rw [hvals, hoff i hi]
    omega
  · rw [hend i hi]
    exact (entryOff_bounds h.fits hi).2
  -- the entries grow down, each below the ones before it
  · refine .inl ?_
    have h1 := valsSize_take_succ hi
    have h2 : valsSize (es.take (j + 1)) ≤ valsSize (es.take i) := by
      have := valsSize_take_le (es.take i) (j + 1)
      rwa [List.take_take, min_eq_left (by omega)] at this
    have h3 := valsSize_take_le es (i + 1)
    have hf := h.fits
    unfold Fits at hf
    rw [hend i hi, hoff j (by omega)]
    unfold entryOff
    omega

end GefsFuse
