import GefsFuse.Server.Content
import GefsFuse.Proofs.ServerDent

/-!
# Reads return what was written

The blocks of a write, laid over the bytes the file has, are those bytes with the new ones stored
(`overlay_writeLoop`). `Rep` says that a file has the bytes of a content and zeros past its end. The
operations keep it as long as no byte past the end of a shrunk file stays (`agrees_of_run`), which a
shrink into a block lets happen (`not_forall_agrees`).
-/

namespace GefsFuse.Server

open ByteMem

/-! ## Offsets -/

theorem toNat_blockOff (o : UInt64) : (o &&& (blksz - 1)).toNat = o.toNat % 16384 := by
  rw [UInt64.toNat_and]
  exact Nat.and_two_pow_sub_one_eq_mod o.toNat 14

theorem block_add (o : UInt64) : (o &&& ~~~(blksz - 1)) + (o &&& (blksz - 1)) = o := by
  apply UInt64.toBitVec_inj.1
  rw [UInt64.toBitVec_add, UInt64.toBitVec_and, UInt64.toBitVec_and, UInt64.toBitVec_not,
    BitVec.add_eq_or_of_and_eq_zero]
  · rw [← BitVec.and_or_distrib_left, BitVec.or_comm, BitVec.or_not_self, BitVec.and_allOnes]
  · ext i hi
    simp only [BitVec.getElem_and, BitVec.getElem_not, BitVec.getElem_zero]
    cases (blksz - 1).toBitVec[i] <;> simp

theorem toNat_block (o : UInt64) :
    (o &&& ~~~(blksz - 1)).toNat = o.toNat / 16384 * 16384 := by
  have h := congrArg UInt64.toNat (block_add o)
  have hle : (o &&& ~~~(blksz - 1)).toNat ≤ o.toNat := by
    rw [UInt64.toNat_and]
    exact Nat.and_le_left
  have := o.toNat_lt
  rw [UInt64.toNat_add, toNat_blockOff] at h
  omega

/-- The block a byte lies in. -/
def blockOf (i : ℕ) : UInt64 := UInt64.ofNat (i / 16384 * 16384)

theorem toNat_blockOf {i : ℕ} (h : i < 2 ^ 64) : (blockOf i).toNat = i / 16384 * 16384 := by
  rw [blockOf, UInt64.toNat_ofNat']
  exact Nat.mod_eq_of_lt (by omega)

theorem block_eq_blockOf {o : UInt64} {i : ℕ} (h : i / 16384 = o.toNat / 16384) :
    o &&& ~~~(blksz - 1) = blockOf i := by
  apply UInt64.toNat_inj.1
  have := o.toNat_lt
  rw [toNat_block, toNat_blockOf (by omega), h]

theorem toInt_of_small {n : UInt64} (h : n.toNat < 2 ^ 63) : n.toInt64.toInt = n.toNat := by
  change n.toBitVec.toInt = _
  rw [BitVec.toInt_eq_toNat_of_lt (by rw [UInt64.toNat_toBitVec]; omega), UInt64.toNat_toBitVec]

namespace FileSt

variable {s s' : FileSt} {c : Bytes}

/-! ## Bytes -/

/-- The byte at `i`, zero where the file has no block. -/
def byteAt (s : FileSt) (i : ℕ) : UInt8 :=
  match s.ptr (blockOf i) with
  | some (some bp) => s.blk bp.addr (i % 16384)
  | _ => 0

/-- The bytes `B` with the blocks of `ps` over them. -/
def overlay (ps : List Put) (B : ℕ → UInt8) (i : ℕ) : UInt8 :=
  match ps.find? (·.off = blockOf i) with
  | some p => p.mem (i % 16384)
  | none => B i

theorem overlay_cons {p : Put} {ps : List Put} {B : ℕ → UInt8} {i : ℕ} :
    overlay (p :: ps) B i = if p.off = blockOf i then p.mem (i % 16384) else overlay ps B i := by
  unfold overlay
  rw [List.find?_cons]
  split_ifs with h <;> simp [h]

/-- A file has the bytes of `c`, and past them zeros and no block. -/
structure Rep (s : FileSt) (c : Bytes) : Prop where
  length : c.length = s.length.toNat
  size : s.size = s.length
  small : s.length.toNat < 2 ^ 63
  find : ∀ fb, s.ptr fb ≠ none
  key : ∀ fb bp, s.ptr fb = some (some bp) → fb.toNat % 16384 = 0 ∧ fb.toNat < s.length.toNat
  bytes : ∀ i < 2 ^ 64, s.byteAt i = c.getD i 0

/-! ## Reading -/

theorem replicate_eq_load : ∀ n k : ℕ, List.replicate n (0 : UInt8) = load (fun _ => 0) k n
  | 0, _ => rfl
  | n + 1, k => congrArg (0 :: ·) (replicate_eq_load n (k + 1))

/-- A read of a block that ends with it or before. -/
theorem Rep.readb (hr : Rep s c) {o : UInt64} {n : ℕ} (ho : o.toNat < s.length.toNat) :
    s.readb o n = some (load s.byteAt o.toNat (min n (16384 - o.toNat % 16384))) := by
  have hsmall := hr.small
  unfold FileSt.readb
  rw [if_neg, toNat_blockOff]
  swap
  · rw [Int64.le_iff_toInt_le, toInt_of_small hsmall, toInt_of_small (by omega)]
    omega
  dsimp only
  have hload : ∀ m : Mem, (∀ j, o.toNat % 16384 ≤ j → j < 16384 →
      s.byteAt (o.toNat / 16384 * 16384 + j) = m j) →
      load m (o.toNat % 16384) (min n (16384 - o.toNat % 16384))
        = load s.byteAt o.toNat (min n (16384 - o.toNat % 16384)) := by
    intro m hm
    refine load_congr fun i hi => ?_
    rw [← hm _ (by omega) (by omega)]
    congr 1
    omega
  have hb : ∀ j < 16384, o &&& ~~~(blksz - 1) = blockOf (o.toNat / 16384 * 16384 + j) :=
    fun j hj => block_eq_blockOf (by omega)
  rcases hp : s.ptr (o &&& ~~~(blksz - 1)) with _ | _ | bp
  · exact absurd hp (hr.find _)
  · rw [Option.bind_eq_bind, Option.bind_some]
    dsimp only
    rw [replicate_eq_load _ (o.toNat % 16384), hload]
    intro j _ hj
    unfold byteAt
    rw [← hb j hj, hp]
  · rw [Option.bind_eq_bind, Option.bind_some]
    dsimp only
    rw [hload]
    intro j _ hj
    unfold byteAt
    rw [← hb j hj, hp]
    simp only
    congr 1
    omega

theorem Rep.readLoop (hr : Rep s c) : ∀ {k c' : ℕ} {o : UInt64}, c' ≤ k →
    o.toNat + c' ≤ s.length.toNat → s.readLoop k o c' = some (load s.byteAt o.toNat c')
  | 0, c', o, hk, _ => by
    obtain rfl : c' = 0 := by omega
    rfl
  | k + 1, c', o, hk, ho => by
    unfold FileSt.readLoop
    split_ifs with h0
    · rw [h0]
      rfl
    · have hsmall := hr.small
      rw [hr.readb (by omega), Option.bind_eq_bind, Option.bind_some]
      generalize hw : min c' (16384 - o.toNat % 16384) = w
      have hlen := length_load s.byteAt o.toNat w
      rw [if_neg (by rw [← List.length_eq_zero_iff]; omega), hlen]
      have he : (o + UInt64.ofNat w).toNat = o.toNat + w := by
        rw [UInt64.toNat_add, UInt64.toNat_ofNat']
        omega
      rw [hr.readLoop (by omega) (by omega), he, Option.map_some, ← load_add]
      congr 2
      omega

theorem load_of_getD {m : Mem} {o n : ℕ} (h : ∀ i, o ≤ i → i < o + n → m i = c.getD i 0)
    (hn : o + n ≤ c.length) : load m o n = contentRead c o n := by
  apply List.ext_getElem?
  intro i
  rw [getElem?_load, contentRead, List.getElem?_take, List.getElem?_drop]
  split_ifs with hi
  · rw [h _ (by omega) (by omega), List.getElem?_eq_getElem (by omega), List.getD_eq_getElem]
  · rfl

/-- Every read returns the bytes of the content. -/
theorem Rep.readfile (hr : Rep s c) (offset : UInt64) (count : UInt32) :
    s.readfile offset count = some (contentRead c offset.toNat count.toNat) := by
  have hlen := hr.length
  have hsmall := hr.small
  have hcount := count.toNat_lt
  have hadd : (offset + count.toUInt64).toNat = (offset.toNat + count.toNat) % 2 ^ 64 := by
    rw [UInt64.toNat_add, UInt32.toNat_toUInt64]
  unfold FileSt.readfile
  by_cases h1 : s.length < offset
  · rw [if_pos h1]
    rw [UInt64.lt_iff_toNat_lt] at h1
    rw [contentRead, List.drop_eq_nil_of_le (by omega), List.take_nil]
  · have hsub := UInt64.toNat_sub_of_le s.length offset (UInt64.not_lt.1 h1)
    rw [if_neg h1]
    rw [UInt64.lt_iff_toNat_lt] at h1
    have hloop : ∀ n, offset.toNat + n ≤ s.length.toNat →
        s.readLoop n offset n = some (contentRead c offset.toNat n) := by
      intro n hn
      rw [hr.readLoop le_rfl hn, load_of_getD (fun i _ _ => hr.bytes i (by omega)) (by omega)]
    dsimp only
    by_cases h2 : s.length < offset + count.toUInt64
    · rw [if_pos h2, hsub, if_neg (by omega), hloop _ (by omega)]
      rw [UInt64.lt_iff_toNat_lt] at h2
      rw [contentRead, contentRead, List.take_of_length_le, List.take_of_length_le]
      all_goals rw [List.length_drop]; omega
    · rw [if_neg h2]
      rw [UInt64.lt_iff_toNat_lt] at h2
      rw [if_neg (by omega), hloop _ (by omega)]

/-! ## The blocks of a write -/

/-- A block written starts from the bytes of the file and has the new ones stored over them. -/
theorem Rep.writeb (hr : Rep s c) {bp : GefsBptr} {o : UInt64} {bs : Bytes} {p : Put}
    (h : s.writeb bp o bs = some p) :
    p.bp = bp ∧ p.off = o &&& ~~~(blksz - 1)
      ∧ ∀ j < 16384, p.mem j = store s.byteAt o.toNat (bs.take (16384 - o.toNat % 16384))
          (o.toNat / 16384 * 16384 + j) := by
  unfold FileSt.writeb at h
  obtain ⟨old, hold, h⟩ := Option.bind_eq_some_iff.1 h
  obtain rfl := Option.some.inj h
  refine ⟨rfl, rfl, fun j hj => ?_⟩
  dsimp only
  rw [toNat_blockOff]
  generalize hm : s.oldBlk _ _ bs.length old = m
  have hfb : o &&& ~~~(blksz - 1) = blockOf (o.toNat / 16384 * 16384 + j) :=
    block_eq_blockOf (by omega)
  have hmod : (o.toNat / 16384 * 16384 + j) % 16384 = j := by omega
  -- the bytes that are kept are those of the file
  have hkept : (∃ i, o.toNat % 16384 ≤ i ∧ i < o.toNat % 16384 + bs.length ∧ i = j)
      ∨ m j = s.byteAt (o.toNat / 16384 * 16384 + j) := by
    unfold byteAt
    rw [← hfb, hold, hmod, ← hm]
    unfold oldBlk
    rcases old with _ | bp'
    · exact .inr rfl
    · have hlt : (o &&& ~~~(blksz - 1)).toInt64 < s.length.toInt64 := by
        have := (hr.key _ _ hold).2
        have := hr.small
        rw [Int64.lt_iff_toInt_lt, toInt_of_small (by omega), toInt_of_small (by omega)]
        omega
      by_cases hw : o.toNat % 16384 ≠ 0 ∨ bs.length ≠ 16384
      · right
        dsimp only
        rw [if_pos ⟨hlt, hw⟩]
      · left
        push Not at hw
        exact ⟨j, by omega, by omega, rfl⟩
  unfold store
  rw [List.getElem?_take, List.getElem?_take]
  by_cases h1 : o.toNat % 16384 ≤ j
  · rw [if_pos h1, if_pos (show o.toNat ≤ o.toNat / 16384 * 16384 + j by omega)]
    have he : o.toNat / 16384 * 16384 + j - o.toNat = j - o.toNat % 16384 := by omega
    rw [he, if_pos (by omega)]
    by_cases h2 : j - o.toNat % 16384 < bs.length
    · rw [List.getElem?_eq_getElem h2]
      rfl
    · rw [List.getElem?_eq_none (by omega)]
      exact hkept.resolve_left fun ⟨i, _, _, _⟩ => by omega
  · rw [if_neg h1, if_neg (show ¬ o.toNat ≤ o.toNat / 16384 * 16384 + j by omega)]
    exact hkept.resolve_left fun ⟨i, _, _, _⟩ => by omega

/-- The blocks a write puts, one after the other. -/
inductive Wrote (s : FileSt) : UInt64 → Bytes → List GefsBptr → List Put → UInt64 → Prop
  | nil {o : UInt64} {bps : List GefsBptr} : Wrote s o [] bps [] o
  | cons {o e : UInt64} {bs : Bytes} {bp : GefsBptr} {bps : List GefsBptr} {p : Put}
      {ps : List Put} {w : ℕ} (hbs : bs ≠ []) (hp : s.writeb bp o bs = some p)
      (hw : w = min bs.length (16384 - o.toNat % 16384))
      (h : Wrote s (o + UInt64.ofNat w) (bs.drop w) bps ps e) : Wrote s o bs (bp :: bps) (p :: ps) e

theorem wrote_of_run : ∀ {n : ℕ} {o e : UInt64} {bs : Bytes} {bps : List GefsBptr} {ps : List Put},
    (s.writeLoop n o bs bps).run = some (.ok (ps, e)) → Wrote s o bs bps ps e := by
  intro n
  induction n with
  | zero =>
    intro o e bs bps ps h
    unfold FileSt.writeLoop at h
    split_ifs at h with h0
    · obtain ⟨rfl, rfl⟩ := Prod.mk.inj (run_pure_ok.1 h)
      rw [h0]
      exact .nil
    · cases run_must_ok.1 h
  | succ n ih =>
    intro o e bs bps ps h
    unfold FileSt.writeLoop at h
    split_ifs at h with h0
    · obtain ⟨rfl, rfl⟩ := Prod.mk.inj (run_pure_ok.1 h)
      rw [h0]
      exact .nil
    · rcases bps with _ | ⟨bp, bps⟩
      · cases h
      · obtain ⟨p, hp, h⟩ := run_bind_ok.1 h
        obtain ⟨⟨ps', e'⟩, hl, h⟩ := run_bind_ok.1 h
        obtain ⟨rfl, rfl⟩ := Prod.mk.inj (run_pure_ok.1 h)
        rw [toNat_blockOff] at hl
        exact .cons h0 (run_must_ok.1 hp) rfl (ih hl)

theorem toNat_add_small {o : UInt64} {n : ℕ} (h : o.toNat + n < 2 ^ 63) :
    (o + UInt64.ofNat n).toNat = o.toNat + n := by
  rw [UInt64.toNat_add, UInt64.toNat_ofNat']
  omega

section Wrote

variable {o e : UInt64} {bs : Bytes} {bps : List GefsBptr} {ps : List Put}

theorem Wrote.fin (h : Wrote s o bs bps ps e) (hlt : o.toNat + bs.length < 2 ^ 63) :
    e.toNat = o.toNat + bs.length := by
  induction h with
  | nil => rfl
  | @cons o e bs bp bps p ps w hbs hp hw h ih =>
    have hlen : (bs.drop w).length = bs.length - w := List.length_drop
    rw [ih (by rw [toNat_add_small (by omega)]; omega), toNat_add_small (by omega)]
    omega

theorem Wrote.prefix_bps (hr : Rep s c) (h : Wrote s o bs bps ps e) : ps.map (·.bp) <+: bps := by
  induction h with
  | nil => exact List.nil_prefix
  | cons hbs hp hw h ih =>
    rw [List.map_cons, (hr.writeb hp).1]
    exact (List.prefix_cons_inj _).2 ih

/-- The blocks begin at or after the one the write starts in, and before its end. -/
theorem Wrote.off (hr : Rep s c) (h : Wrote s o bs bps ps e) (hlt : o.toNat + bs.length < 2 ^ 63) :
    ∀ p ∈ ps, p.off.toNat % 16384 = 0 ∧ o.toNat < p.off.toNat + 16384
      ∧ p.off.toNat < o.toNat + bs.length ∧ 0 < bs.length := by
  induction h with
  | nil => simp
  | @cons o e bs bp bps p ps w hbs hp hw h ih =>
    have hpos := List.length_pos_iff.2 hbs
    have hlen : (bs.drop w).length = bs.length - w := List.length_drop
    have he : (o + UInt64.ofNat w).toNat = o.toNat + w := toNat_add_small (by omega)
    rintro q (_ | ⟨_, hq⟩)
    · rw [(hr.writeb hp).2.1, toNat_block]
      omega
    · obtain ⟨h1, h2, h3, h4⟩ := ih (by omega) q hq
      omega

theorem Wrote.nodup (hr : Rep s c) (h : Wrote s o bs bps ps e)
    (hlt : o.toNat + bs.length < 2 ^ 63) : (ps.map (·.off)).Nodup := by
  induction h with
  | nil => exact List.nodup_nil
  | @cons o e bs bp bps p ps w hbs hp hw h ih =>
    have hlen : (bs.drop w).length = bs.length - w := List.length_drop
    have he : (o + UInt64.ofNat w).toNat = o.toNat + w := toNat_add_small (by omega)
    rw [List.map_cons, List.nodup_cons]
    refine ⟨?_, ih (by omega)⟩
    intro hmem
    obtain ⟨q, hq, hqp⟩ := List.mem_map.1 hmem
    obtain ⟨h1, h2, h3, h4⟩ := h.off hr (by omega) q hq
    rw [hqp, (hr.writeb hp).2.1, toNat_block] at h1 h2 h3
    omega

/-- The blocks of a write lie over the bytes of the file as the bytes written do. -/
theorem overlay_writeLoop (hr : Rep s c) (h : Wrote s o bs bps ps e)
    (hlt : o.toNat + bs.length < 2 ^ 63) {i : ℕ} (hi : i < 2 ^ 64) :
    overlay ps s.byteAt i = store s.byteAt o.toNat bs i := by
  induction h with
  | nil => simp [overlay, store]
  | @cons o e bs bp bps p ps w hbs hp hw h ih =>
    have hlen : (bs.drop w).length = bs.length - w := List.length_drop
    have he : (o + UInt64.ofNat w).toNat = o.toNat + w := toNat_add_small (by omega)
    obtain ⟨-, hoff, hmem⟩ := hr.writeb hp
    have hblk : p.off = blockOf i ↔ o.toNat / 16384 = i / 16384 := by
      rw [hoff, ← UInt64.toNat_inj, toNat_block, toNat_blockOf hi]
      omega
    rw [overlay_cons]
    split_ifs with hpi
    · have hpi := hblk.1 hpi
      rw [hmem _ (by omega)]
      have hi' : o.toNat / 16384 * 16384 + i % 16384 = i := by omega
      rw [hi']
      unfold store
      split_ifs with hoi
      · rw [List.getElem?_take, if_pos (by omega)]
      · rfl
    · have hpi := mt hblk.2 hpi
      rw [ih (by omega), he]
      unfold store
      by_cases h1 : o.toNat ≤ i
      · rw [if_pos h1]
        by_cases h2 : o.toNat + w ≤ i
        · rw [if_pos h2, List.getElem?_drop]
          congr 3
          omega
        · rw [if_neg h2]
          omega
      · rw [if_neg h1, if_neg (by omega)]

end Wrote

/-! ## The entries after a write -/

theorem ptr_insert (p : Put) (hp : s.ptr p.off ≠ none) (fb : UInt64) :
    ptr { s with tree := s.tree ++ [p.msg s.qpath] } fb
      = if p.off = fb then some (some p.bp) else s.ptr fb := by
  unfold ptr at hp ⊢
  dsimp only
  split_ifs with h
  · subst h
    rw [find_append_one (m := p.msg s.qpath) (by simp [Put.msg])]
    rcases hf : s.tree.find (packdatkey s.qpath p.off) with _ | v
    · rw [hf] at hp
      exact absurd rfl hp
    · have hlen : (packdatkey s.qpath p.off).length + (gefsPackbp p.bp).length ≤ gefsKvmax := by
        rw [show (packdatkey s.qpath p.off).length = 17 by simp [packdatkey, pack8],
          show (gefsPackbp p.bp).length = 24 by simp [gefsPackbp]]
        decide
      have heff : serverEff gefsKvmax (packdatkey s.qpath p.off) v (p.msg s.qpath)
          = some (some (gefsPackbp p.bp)) := by
        unfold serverEff
        exact if_pos hlen
      simp only [Option.bind_eq_bind, Option.bind_some, heff, valBptr_gefsPackbp, Option.map_some]
  · rw [find_append_of_ne]
    intro m hm hk
    rw [List.mem_singleton.1 hm] at hk
    exact h (packdatkey_inj hk).2

theorem ptr_inserts : ∀ {ps : List Put} {s : FileSt}, (∀ p ∈ ps, s.ptr p.off ≠ none) →
    (ps.map (·.off)).Nodup → ∀ fb,
    ptr { s with tree := s.tree ++ ps.map (Put.msg s.qpath) } fb
      = match ps.find? (·.off = fb) with
        | some p => some (some p.bp)
        | none => s.ptr fb
  | [], s, _, _, fb => by simp
  | p :: ps, s, hp, hnd, fb => by
    obtain ⟨hnp, hnd⟩ := List.nodup_cons.1 hnd
    have h1 := ptr_insert p (hp p (by simp))
    have ih := ptr_inserts (s := { s with tree := s.tree ++ [p.msg s.qpath] })
      (fun q hq => by
        rw [h1]
        split_ifs
        · simp
        · exact hp q (by simp [hq])) hnd fb
    simp only [List.append_assoc, List.singleton_append] at ih
    rw [List.map_cons, ih, h1, List.find?_cons]
    by_cases h : p.off = fb
    · have : ps.find? (·.off = fb) = none := by
        rw [List.find?_eq_none]
        intro q hq
        simp only [decide_eq_true_eq]
        rintro rfl
        exact hnp (List.mem_map.2 ⟨q, hq, h.symm⟩)
      rw [this]
      simp [h]
    · simp [h]

theorem enqueue_cons (blk : Int64 → Mem) (p : Put) (ps : List Put) :
    enqueue blk (p :: ps) = enqueue (Function.update blk p.bp.addr p.mem) ps := rfl

/-- A block not written stays. -/
theorem enqueue_of_ne : ∀ {ps : List Put} {blk : Int64 → Mem} {a : Int64},
    (∀ p ∈ ps, p.bp.addr ≠ a) → enqueue blk ps a = blk a
  | [], _, _, _ => rfl
  | p :: ps, blk, a, h => by
    rw [enqueue_cons, enqueue_of_ne fun q hq => h q (by simp [hq])]
    exact Function.update_of_ne (h p (by simp)).symm _ _

theorem enqueue_of_mem : ∀ {ps : List Put} {blk : Int64 → Mem} {p : Put},
    (ps.map (·.bp.addr)).Nodup → p ∈ ps → enqueue blk ps p.bp.addr = p.mem
  | p :: ps, blk, q, hnd, hq => by
    obtain ⟨hnp, hnd⟩ := List.nodup_cons.1 hnd
    rw [enqueue_cons]
    rcases List.mem_cons.1 hq with rfl | hq
    · rw [enqueue_of_ne]
      · exact Function.update_self _ _ _
      · intro r hr he
        exact hnp (List.mem_map.2 ⟨r, hr, he⟩)
    · exact enqueue_of_mem hnd hq

theorem mem_addrs {fb : UInt64} {bp : GefsBptr} (h : s.ptr fb = some (some bp)) :
    bp.addr ∈ s.addrs := by
  unfold ptr at h
  obtain ⟨v, hv, h⟩ := Option.bind_eq_some_iff.1 h
  rcases v with _ | v
  · cases h
  · obtain ⟨bp', hbp, h⟩ := Option.map_eq_some_iff.1 h
    obtain rfl := Option.some.inj h
    obtain ⟨m, hm, hk⟩ : ∃ m ∈ s.tree, m.k = packdatkey s.qpath fb := by
      by_contra hne
      push Not at hne
      unfold Entries.find at hv
      rw [List.filter_eq_nil_iff.2 (by simpa using hne)] at hv
      cases hv
    exact List.mem_filterMap.2 ⟨m, hm, by rw [hk, hv]; simp [hbp]⟩

/-! ## The content -/

theorem length_contentWrite (c : Bytes) (o : ℕ) (bs : Bytes) :
    (contentWrite c o bs).length = max c.length (o + bs.length) := by
  simp only [contentWrite, List.length_append, List.length_take, List.length_replicate,
    List.length_drop]
  omega

theorem getD_contentWrite (c : Bytes) (o : ℕ) (bs : Bytes) (i : ℕ) :
    (contentWrite c o bs).getD i 0 = store (fun i => c.getD i 0) o bs i := by
  unfold contentWrite store
  simp only [List.getD_eq_getElem?_getD, List.getElem?_append, List.getElem?_take,
    List.getElem?_replicate, List.getElem?_drop, List.length_append, List.length_take,
    List.length_replicate]
  have hlen : min o c.length + (o - c.length) = o := by omega
  rw [hlen]
  by_cases h1 : o ≤ i
  · rw [if_pos h1]
    by_cases h2 : i < o + bs.length
    · rw [if_pos h2, if_neg (by omega), List.getElem?_eq_getElem (by omega)]
      rfl
    · rw [if_neg h2, List.getElem?_eq_none (l := bs) (by omega), Option.getD_none]
      congr 2
      omega
  · rw [if_neg h1, if_pos (by omega), if_pos (by omega)]
    by_cases h2 : i < c.length
    · rw [if_pos (by omega), if_pos (by omega)]
    · rw [if_neg (by omega), if_pos (by omega), List.getElem?_eq_none (by omega)]
      rfl

theorem length_contentTrunc (c : Bytes) (n : ℕ) : (contentTrunc c n).length = n := by
  simp only [contentTrunc, List.length_append, List.length_take, List.length_replicate]
  omega

theorem getD_contentTrunc (c : Bytes) (n i : ℕ) :
    (contentTrunc c n).getD i 0 = if i < n then c.getD i 0 else 0 := by
  unfold contentTrunc
  simp only [List.getD_eq_getElem?_getD, List.getElem?_append, List.getElem?_take,
    List.getElem?_replicate, List.length_take]
  by_cases h1 : i < c.length
  · by_cases h2 : i < n
    · rw [if_pos (by omega), if_pos h2, if_pos h2]
    · rw [if_neg (by omega), if_neg (by omega), if_neg h2]
      rfl
  · rw [if_neg (by omega), List.getElem?_eq_none (l := c) (by omega)]
    split_ifs <;> rfl

/-! ## Twrite -/

theorem Rep.byteAt_write (hr : Rep s c) {o e : UInt64} {bs : Bytes} {bps : List GefsBptr}
    {ps : List Put} (h : Wrote s o bs bps ps e) (hlt : o.toNat + bs.length < 2 ^ 63)
    (hun : s.unused bps = true) {i : ℕ} (hi : i < 2 ^ 64) :
    byteAt { s with
      tree := s.tree ++ ps.map (Put.msg s.qpath)
      blk := enqueue s.blk ps } i = store s.byteAt o.toNat bs i := by
  obtain ⟨hnd, hfree⟩ := of_decide_eq_true hun
  have hpre := h.prefix_bps hr
  have hnd' : (ps.map (·.bp.addr)).Nodup := by
    have := hnd.sublist (hpre.sublist.map (·.addr))
    rwa [List.map_map] at this
  rw [← overlay_writeLoop hr h hlt hi]
  have hptr : ptr { s with
      tree := s.tree ++ ps.map (Put.msg s.qpath)
      blk := enqueue s.blk ps } (blockOf i) = _ :=
    ptr_inserts (s := s) (fun p _ => hr.find p.off) (h.nodup hr hlt) (blockOf i)
  rcases hf : ps.find? (·.off = blockOf i) with _ | p
  · rw [hf] at hptr
    rw [byteAt, overlay, hptr, hf]
    dsimp only
    rw [byteAt]
    rcases hp : s.ptr (blockOf i) with _ | _ | bp
    · rfl
    · rfl
    · dsimp only
      rw [enqueue_of_ne]
      intro p hps he
      have hbp : p.bp ∈ bps := hpre.subset (List.mem_map.2 ⟨p, hps, rfl⟩)
      exact hfree p.bp hbp (he ▸ mem_addrs hp)
  · rw [hf] at hptr
    rw [byteAt, overlay, hptr, hf]
    exact congrFun (enqueue_of_mem hnd' (List.mem_of_find?_eq_some hf)) _

theorem Rep.write (hr : Rep s c) {offset : UInt64} {bs : Bytes} {bps : List GefsBptr}
    {r : FileReply}
    (hsafe : (s.writeLoop 4 (s.start offset) bs bps).Passes fun _ =>
      (s.start offset).toNat + bs.length < 2 ^ 63
        ∧ (s.lmut ∨ (s.start offset).toNat + bs.length ≤ s.length.toNat))
    (h : s.fswrite offset bs bps = some (s', r)) :
    Rep s' (r.settle c (contentWrite c (s.start offset).toNat bs)) := by
  unfold FileSt.fswrite at h
  by_cases h1 : s.trunc ∨ !s.unused bps
  · rw [if_pos h1] at h
    cases h
  rw [if_neg h1] at h
  push Not at h1
  obtain ⟨x, hx, h⟩ := Option.bind_eq_some_iff.1 h
  rcases x with e | ⟨ps, e⟩
  · obtain ⟨rfl, rfl⟩ := Prod.mk.inj (Option.some.inj h)
    exact hr
  · obtain ⟨hlt, hgrow⟩ := hsafe.of_run hx
    have hw := wrote_of_run hx
    generalize s.start offset = o at hlt hgrow hw
    have he := hw.fin hlt
    have hsmall := hr.small
    have hlen := hr.length
    dsimp only at h
    by_cases hm : s.lmut = true
    · rw [if_pos hm] at h
      obtain ⟨rfl, rfl⟩ := Prod.mk.inj (Option.some.inj h)
      change Rep _ (contentWrite c o.toNat bs)
      generalize hl : (if s.length < e then e else s.length) = l
      have hl' : l.toNat = max s.length.toNat (o.toNat + bs.length) := by
        rw [← hl]
        split_ifs with hle <;> rw [UInt64.lt_iff_toNat_lt] at hle <;> omega
      have hptr := ptr_inserts (s := s) (fun p _ => hr.find p.off) (hw.nodup hr hlt)
      refine ⟨?_, ?_, by dsimp only; omega, ?_, ?_, ?_⟩
      · rw [length_contentWrite]
        dsimp only
        omega
      · dsimp only
        rw [hr.size, hl]
      · intro fb
        refine ne_of_eq_of_ne (hptr fb) ?_
        split
        · simp
        · exact hr.find fb
      · intro fb bp hfb
        have hfb := (hptr fb).symm.trans hfb
        dsimp only
        split at hfb
        · next p hf =>
          obtain rfl : p.off = fb := by simpa using List.find?_some hf
          obtain ⟨h2, -, h3, -⟩ := hw.off hr hlt p (List.mem_of_find?_eq_some hf)
          omega
        · have := hr.key fb bp hfb
          omega
      · intro i hi
        refine (hr.byteAt_write hw hlt (by simpa using h1.2) hi).trans ?_
        rw [getD_contentWrite]
        unfold store
        rw [hr.bytes i hi]
    · rw [if_neg hm] at h
      obtain ⟨rfl, rfl⟩ := Prod.mk.inj (Option.some.inj h)
      have hle := hgrow.resolve_left hm
      rw [if_neg (by rw [UInt64.lt_iff_toNat_lt]; omega)]
      exact hr

/-! ## The length -/

theorem toNat_toUInt64_of_nonneg {n : Int64} (h : 0 ≤ n.toInt) : (n.toUInt64.toNat : ℤ) = n.toInt := by
  have h1 : n.toUInt64.toNat = n.toBitVec.toNat := rfl
  have h2 : n.toInt = n.toBitVec.toInt := rfl
  rw [h2] at h ⊢
  rw [h1, BitVec.toInt_eq_toNat_of_msb]
  rwa [BitVec.msb_eq_toInt, decide_eq_false_iff_not, not_lt]

/-- The offsets that are cleared, none of which wraps. -/
theorem mem_clearOffs {off fin : Int64} {fb : UInt64} (h0 : 0 ≤ off.toInt)
    (hends : MountSt.clearEnds off fin = true) : fb ∈ MountSt.clearOffs off fin ↔
      ∃ j : ℕ, (off.toInt + 16384 * j < fin.toInt) ∧ (fb.toNat : ℤ) = off.toInt + 16384 * j := by
  have hends := of_decide_eq_true hends
  have hoff := toNat_toUInt64_of_nonneg h0
  generalize hcnt : ((fin.toInt - off.toInt + 16383) / 16384).toNat = n at hends
  have hadd : ∀ j ≤ n, ((off.toUInt64 + UInt64.ofNat j * blksz).toNat : ℤ)
      = off.toInt + 16384 * j := by
    intro j hj
    rw [UInt64.toNat_add, UInt64.toNat_mul, UInt64.toNat_ofNat', show blksz.toNat = 16384 from rfl]
    omega
  unfold MountSt.clearOffs
  rw [hcnt, List.mem_map]
  constructor
  · rintro ⟨j, hj, rfl⟩
    have hj := List.mem_range.1 hj
    exact ⟨j, by omega, hadd j hj.le⟩
  · rintro ⟨j, hj, hfb⟩
    refine ⟨j, List.mem_range.2 (by omega), UInt64.toNat_inj.1 ?_⟩
    have := hadd j (by omega)
    omega

theorem ptr_clear {off fin : Int64} (h : s.clear off fin = some s') (hf : ∀ fb, s.ptr fb ≠ none)
    (fb : UInt64) :
    s'.ptr fb = if fb ∈ MountSt.clearOffs off fin then some none else s.ptr fb := by
  unfold clear at h
  split_ifs at h
  obtain rfl := Option.some.inj h
  have hf := hf fb
  unfold ptr at hf ⊢
  dsimp only
  split_ifs with hmem
  · rcases hv : s.tree.find (packdatkey s.qpath fb) with _ | v
    · rw [hv] at hf
      exact absurd rfl hf
    · have hops : ∀ m ∈ MountSt.clearMsgs ⟨false, none, s.qpath, off, fin⟩, m.op = .oclearb := by
        intro m hm
        obtain ⟨o, -, rfl⟩ := List.mem_map.1 hm
        rfl
      have hkey : ∃ m ∈ MountSt.clearMsgs ⟨false, none, s.qpath, off, fin⟩,
          m.k = packdatkey s.qpath fb := ⟨_, List.mem_map.2 ⟨fb, hmem, rfl⟩, rfl⟩
      rw [find_clear hops hkey hv]
      rfl
  · rw [find_append_of_ne]
    intro m hm hk
    obtain ⟨o, ho, rfl⟩ := List.mem_map.1 hm
    obtain rfl := (packdatkey_inj hk).2
    exact hmem ho

/-- A shrink that ends at a block, or leaves nothing past the new end. -/
theorem Rep.cut (hr : Rep s c) {n : Int64} {b : Bool} (h0 : 0 ≤ n.toInt)
    (hle : n.toUInt64.toNat ≤ s.length.toNat)
    (hn : n.toInt % 16384 = 0 ∨ s.Clean n.toUInt64.toNat)
    (h : clear { s with length := n.toUInt64, size := n.toUInt64, trunc := b } n s.length.toInt64
      = some s') : Rep s' (contentTrunc c n.toUInt64.toNat) := by
  have hsmall := hr.small
  have hnn := toNat_toUInt64_of_nonneg h0
  have hptr : ∀ fb, s'.ptr fb = if fb ∈ MountSt.clearOffs n s.length.toInt64 then some none
      else s.ptr fb := by
    intro fb
    exact ptr_clear (s := { s with length := n.toUInt64, size := n.toUInt64, trunc := b }) h
      hr.find fb
  have hends : MountSt.clearEnds n s.length.toInt64 = true := by
    unfold clear at h
    split_ifs at h with he
    exact he
  have hmem := fun fb => @mem_clearOffs n s.length.toInt64 fb h0 hends
  rw [toInt_of_small hsmall] at hmem
  -- what is left lies before the new end, and is zero past it
  have hleft : ∀ fb bp, s'.ptr fb = some (some bp) → s.ptr fb = some (some bp)
      ∧ fb.toNat < n.toUInt64.toNat
      ∧ ∀ i < 16384, n.toUInt64.toNat ≤ fb.toNat + i → s.blk bp.addr i = 0 := by
    intro fb bp hp
    rw [hptr] at hp
    by_cases hfb : fb ∈ MountSt.clearOffs n s.length.toInt64
    · rw [if_pos hfb] at hp
      cases hp
    rw [if_neg hfb] at hp
    refine ⟨hp, ?_⟩
    obtain ⟨ha, hlt⟩ := hr.key fb bp hp
    rcases hn with hn | hn
    · have hfb' : ¬ n.toUInt64.toNat ≤ fb.toNat := by
        intro hge
        exact hfb ((hmem fb).2 ⟨(fb.toNat - n.toUInt64.toNat) / 16384, by omega, by omega⟩)
      exact ⟨by omega, fun i hi => by omega⟩
    · have hj : fb = UInt64.ofNat (fb.toNat / 16384 * 16384) := by
        rw [Nat.div_mul_cancel (Nat.dvd_of_mod_eq_zero ha), UInt64.ofNat_toNat]
      have := hn (fb.toNat / 16384) (by omega) bp (by rw [← hj, hp]; rfl)
      rwa [Nat.div_mul_cancel (Nat.dvd_of_mod_eq_zero ha)] at this
  have hs' : s'.length = n.toUInt64 ∧ s'.size = n.toUInt64 ∧ s'.blk = s.blk := by
    unfold clear at h
    split_ifs at h
    obtain rfl := Option.some.inj h
    exact ⟨rfl, rfl, rfl⟩
  obtain ⟨h1, h2, h3⟩ := hs'
  refine ⟨?_, by rw [h1, h2], by rw [h1]; omega, ?_, ?_, ?_⟩
  · rw [length_contentTrunc, h1]
  · intro fb
    rw [hptr]
    split_ifs
    · simp
    · exact hr.find fb
  · intro fb bp hp
    obtain ⟨hp, hlt, -⟩ := hleft fb bp hp
    rw [h1]
    exact ⟨(hr.key fb bp hp).1, hlt⟩
  · intro i hi
    rw [getD_contentTrunc, ← hr.bytes i hi]
    unfold byteAt
    rw [h3]
    rcases hp : s'.ptr (blockOf i) with _ | _ | bp
    · rw [hptr] at hp
      split_ifs at hp
      exact absurd hp (hr.find _)
    · rw [hptr] at hp
      dsimp only
      by_cases hi' : i < n.toUInt64.toNat
      · rw [if_pos hi']
        by_cases hfb : blockOf i ∈ MountSt.clearOffs n s.length.toInt64
        · obtain ⟨j, -, hj⟩ := (hmem _).1 hfb
          rw [toNat_blockOf hi] at hj
          omega
        · rw [if_neg hfb] at hp
          rw [hp]
      · rw [if_neg hi']
    · obtain ⟨hp, hlt, hz⟩ := hleft _ _ hp
      rw [hp]
      dsimp only
      split_ifs with hi'
      · rfl
      · rw [toNat_blockOf hi] at hz
        exact hz _ (by omega) (by omega)

theorem Rep.grow (hr : Rep s c) {n : UInt64} {b : Bool} (hle : s.length.toNat ≤ n.toNat)
    (hn : n.toNat < 2 ^ 63) :
    Rep { s with length := n, size := n, trunc := b } (contentTrunc c n.toNat) := by
  have hlen := hr.length
  refine ⟨length_contentTrunc _ _, rfl, hn, hr.find, ?_, ?_⟩
  · intro fb bp hp
    have := hr.key fb bp hp
    exact ⟨this.1, by dsimp only; omega⟩
  · intro i hi
    rw [getD_contentTrunc]
    refine (hr.bytes i hi).trans ?_
    split_ifs with h
    · rfl
    · rw [List.getD_eq_getElem?_getD, List.getElem?_eq_none (by omega)]
      rfl

theorem Rep.wstat (hr : Rep s c) {n : Int64} {refused : Option Err} {r : FileReply}
    (hsafe : n < 0 ∨ n.toUInt64 = s.length ∨ refused = none ∧ s.lmut = true
      ∧ (s.length < n.toUInt64 ∨ n.toInt % 16384 = 0 ∨ s.Clean n.toUInt64.toNat))
    (h : s.fswstat n refused = some (s', r)) :
    Rep s' (r.settle c (if n = -1 then c else contentTrunc c n.toUInt64.toNat)) := by
  have hlen := hr.length
  have hsmall := hr.small
  unfold FileSt.fswstat at h
  by_cases h1 : s.trunc = true
  · rw [if_pos h1] at h
    cases h
  rw [if_neg h1] at h
  by_cases h2 : n ≠ -1 ∧ n < 0
  · rw [if_pos h2] at h
    obtain ⟨rfl, rfl⟩ := Prod.mk.inj (Option.some.inj h)
    exact hr
  rw [if_neg h2] at h
  by_cases h3 : n = -1 ∨ n.toUInt64 = s.length
  · rw [if_pos h3] at h
    have hc : (if n = -1 then c else contentTrunc c n.toUInt64.toNat) = c := by
      split_ifs with hn
      · rfl
      · rw [h3.resolve_left hn, ← hlen]
        simp [contentTrunc]
    have hset : r.settle c c = c := by cases r <;> rfl
    rw [hc, hset]
    rcases refused with _ | e
    · obtain ⟨rfl, -⟩ := Prod.mk.inj (Option.some.inj h)
      exact hr
    · obtain ⟨rfl, -⟩ := Prod.mk.inj (Option.some.inj h)
      exact hr
  · rw [if_neg h3] at h
    obtain ⟨hn, hne⟩ := not_or.1 h3
    have hnonneg : ¬ n < 0 := fun hlt => h2 ⟨hn, hlt⟩
    have h0 : 0 ≤ n.toInt := by
      rw [Int64.lt_iff_toInt_lt] at hnonneg
      exact not_lt.1 hnonneg
    have hnn := toNat_toUInt64_of_nonneg h0
    have hlt : n.toUInt64.toNat < 2 ^ 63 := by
      have := n.toInt_lt
      omega
    obtain ⟨rfl, hm, hcut⟩ := (hsafe.resolve_left hnonneg).resolve_left hne
    rw [if_neg hn]
    dsimp only at h
    rw [if_pos hm] at h
    by_cases hlt' : n.toUInt64 < s.length
    · rw [if_pos hlt'] at h
      obtain ⟨s1, hs1, he⟩ := Option.map_eq_some_iff.1 h
      obtain ⟨rfl, rfl⟩ := Prod.mk.inj he
      rw [UInt64.lt_iff_toNat_lt] at hlt'
      refine hr.cut h0 (by omega) (hcut.resolve_left ?_) hs1
      rw [UInt64.lt_iff_toNat_lt]
      omega
    · rw [if_neg hlt'] at h
      obtain ⟨rfl, rfl⟩ := Prod.mk.inj (Option.some.inj h)
      rw [UInt64.lt_iff_toNat_lt] at hlt'
      exact hr.grow (by omega) hlt

theorem Rep.topen (hr : Rep s c) {r : FileReply} (hsafe : s.append ∨ s.lmut ∨ s.size = 0)
    (h : s.fsopen = some (s', r)) : Rep s' (r.settle c (if s.append then c else [])) := by
  have hlen := hr.length
  have hsmall := hr.small
  have hsize := hr.size
  unfold FileSt.fsopen at h
  split_ifs at h with h1 h2 h3
  · obtain ⟨rfl, rfl⟩ := Prod.mk.inj (Option.some.inj h)
    rw [if_pos h2, hsize]
    exact ⟨hr.length, rfl, hr.small, hr.find, hr.key, hr.bytes⟩
  · obtain ⟨s1, hs1, he⟩ := Option.map_eq_some_iff.1 h
    obtain ⟨rfl, rfl⟩ := Prod.mk.inj he
    rw [if_neg h2]
    rw [hsize] at hs1
    have := hr.cut (n := 0) (by decide) (Nat.zero_le _) (.inl (by decide)) hs1
    rwa [show contentTrunc c (0 : Int64).toUInt64.toNat = [] by
      rw [show (0 : Int64).toUInt64.toNat = 0 from rfl]
      simp [contentTrunc]] at this
  · obtain ⟨rfl, rfl⟩ := Prod.mk.inj (Option.some.inj h)
    have hz := (hsafe.resolve_left h2).resolve_left h3
    have hl : s.length = 0 := by rw [← hsize, hz]
    rw [← hl]
    exact ⟨hr.length, hr.size, hr.small, hr.find, hr.key, hr.bytes⟩

/-! ## Runs -/

theorem Rep.agrees (hr : Rep s c) : s.Agrees c :=
  ⟨hr.length.symm, hr.readfile, fun fb bp h => (hr.key fb bp h).2⟩

theorem Created.rep (h : s.Created) : Rep s [] := by
  have hp : ∀ fb, s.ptr fb = some none := by
    intro fb
    unfold ptr
    rw [h.tree]
    rfl
  refine ⟨by rw [h.length]; rfl, by rw [h.size, h.length], by rw [h.length]; decide, ?_, ?_, ?_⟩
  · intro fb
    simp [hp]
  · intro fb bp hfb
    rw [hp] at hfb
    cases hfb
  · intro i _
    rw [byteAt, hp]
    rfl

end FileSt

open FileSt

theorem FileSt.Rep.step {x x' : FileSt × Bytes} {op : FileOp} (hr : FileSt.Rep x.1 x.2)
    (hsafe : op.Safe x) (h : fileStep x op = some x') : FileSt.Rep x'.1 x'.2 := by
  obtain ⟨⟨s', r⟩, hs, rfl⟩ := Option.map_eq_some_iff.1 h
  cases op with
  | write offset bs bps =>
    have := hr.write hsafe hs
    rwa [show (x.1.start offset).toNat = if x.1.append then x.2.length else offset.toNat by
      unfold start
      split_ifs
      · exact hr.length.symm
      · rfl] at this
  | wstat n refused => exact hr.wstat hsafe hs
  | topen => exact hr.topen hsafe hs
  | read offset count =>
    obtain ⟨bs, -, he⟩ := Option.map_eq_some_iff.1 hs
    obtain ⟨rfl, rfl⟩ := Prod.mk.inj he
    exact hr

/-- In a run on a file just made in which every step meets `FileOp.Safe`, the file agrees with the
content expected in the state reached. -/
theorem agrees_of_run {s : FileSt} {x : FileSt × Bytes} (hs : s.Created)
    (h : Trans.Via fileStep FileOp.Safe (s, []) x) : x.1.Agrees x.2 :=
  (h.inv (I := fun x => FileSt.Rep x.1 x.2) (fun _ _ _ hi hc hs => hi.step hc hs) hs.rep).agrees

/-- A file with nothing in it. -/
def emptyFile : FileSt := ⟨1, [], fun _ _ => 0, 0, 0, false, true, false⟩

theorem emptyFile_created : emptyFile.Created := ⟨rfl, rfl, rfl⟩

/-- A block is written twice, the file is cut to whole blocks, grown, written to past its end and
truncated. -/
def blockOps : List FileOp :=
  [.write 16383 [65, 66] [⟨16384, 0, 0⟩, ⟨32768, 0, 0⟩], .write 16384 [67] [⟨49152, 0, 0⟩],
    .wstat 16384 none, .wstat 20000 none, .read 0 32768, .write 40000 [68] [⟨65536, 0, 0⟩], .topen]

theorem agrees_of_run_blocks : ∃ x, Trans.run fileStep (emptyFile, []) blockOps = some x
    ∧ x.1.Agrees x.2 := by
  have hrun : (Trans.run fileStep (emptyFile, []) blockOps).isSome = true := by decide +kernel
  obtain ⟨x, hx⟩ := Option.isSome_iff_exists.1 hrun
  exact ⟨x, hx, agrees_of_run emptyFile_created (Trans.via_of_run hx (by decide +kernel))⟩

/-- A file is cut inside its block and grown again. -/
def cutOps : List FileOp :=
  [.write 0 [65, 66] [⟨16384, 0, 0⟩], .wstat 1 none, .wstat 2 none]

theorem not_forall_agrees : ¬ ∀ (s : FileSt) (x : FileSt × Bytes) (ops : List FileOp), s.Created →
    Trans.run fileStep (s, []) ops = some x → x.1.Agrees x.2 := by
  intro h
  have hrun : (Trans.run fileStep (emptyFile, []) cutOps).isSome = true := by decide +kernel
  have hbad : ∀ x ∈ Trans.run fileStep (emptyFile, []) cutOps,
      x.1.readfile 0 2 = some [65, 66] ∧ x.2 = [65, 0] := by decide +kernel
  obtain ⟨x, hx⟩ := Option.isSome_iff_exists.1 hrun
  obtain ⟨hread, hc⟩ := hbad x hx
  have := (h emptyFile x cutOps emptyFile_created hx).read 0 2
  rw [hread, hc] at this
  revert this
  decide

end GefsFuse.Server
