import GefsFuse.Server.Hash
import GefsFuse.Proofs.Super

/-!
# The two hashes differ

What the original's last lines can return is limited: `x ^ rotate_right(x, 33)` has an even number
of bits set, twice over, with a multiplication between. The port's hash leaves that set on strings
of every length (`hashes_differ`), since its state after the bulk loop or a tail can be steered by
the words read there.
-/

namespace GefsFuse

open ByteMem

/-! ## What the original can return -/

/-- A bit of a word. -/
def wordBit (x : UInt64) (i : Fin 64) : ZMod 2 := if x.toBitVec.getLsbD i then 1 else 0

/-- The number of bits set, modulo 2. -/
def parity (x : UInt64) : ZMod 2 := ∑ i, wordBit x i

theorem wordBit_xor (x y : UInt64) (i : Fin 64) :
    wordBit (x ^^^ y) i = wordBit x i + wordBit y i := by
  unfold wordBit
  rw [UInt64.toBitVec_xor, BitVec.getLsbD_xor]
  cases x.toBitVec.getLsbD i <;> cases y.toBitVec.getLsbD i <;> decide

/-- A rotation to the left by `s` and to the right by `64 - s`. -/
theorem getLsbD_rotate (x : BitVec 64) {s i : ℕ} (hs : s < 64) (hi : i < 64) :
    (x <<< s ||| x >>> (64 - s)).getLsbD i = x.getLsbD ((i + (64 - s)) % 64) := by
  rw [BitVec.getLsbD_or, BitVec.getLsbD_ushiftRight, BitVec.getLsbD_shiftLeft]
  by_cases h : i < s
  · have he : (i + (64 - s)) % 64 = 64 - s + i := by omega
    simp [h, he]
  · have he : (i + (64 - s)) % 64 = i - s := by omega
    have hf : x.getLsbD (64 - s + i) = false := BitVec.getLsbD_of_ge _ _ (by omega)
    simp [h, he, hf, hi]

theorem wordBit_rotateRight (x : UInt64) (i : Fin 64) :
    wordBit (Server.rotateRight x 33) i = wordBit x (i + 33) := by
  have h : (Server.rotateRight x 33).toBitVec = x.toBitVec <<< 31 ||| x.toBitVec >>> (64 - 31) := by
    rw [BitVec.or_comm]
    rfl
  unfold wordBit
  rw [h, getLsbD_rotate x.toBitVec (by decide) i.isLt]
  rfl

/-- `x ^ rotate_right(x, 33)` -/
def xorRotate (x : UInt64) : UInt64 := x ^^^ Server.rotateRight x 33

theorem wordBit_xorRotate (x : UInt64) (i : Fin 64) :
    wordBit (xorRotate x) i = wordBit x i + wordBit x (i + 33) := by
  rw [xorRotate, wordBit_xor, wordBit_rotateRight]

theorem parity_xorRotate (x : UInt64) : parity (xorRotate x) = 0 := by
  unfold parity
  simp only [wordBit_xorRotate, Finset.sum_add_distrib]
  have h : ∑ i : Fin 64, wordBit x (i + 33) = ∑ i, wordBit x i :=
    Equiv.sum_comp (Equiv.addRight (33 : Fin 64)) (wordBit x)
  rw [h]
  exact CharTwo.add_self_eq_zero _

theorem ext_wordBit {x y : UInt64} (h : ∀ i, wordBit x i = wordBit y i) : x = y := by
  apply UInt64.toBitVec_inj.1
  apply BitVec.eq_of_getLsbD_eq
  intro i hi
  have := h ⟨i, hi⟩
  unfold wordBit at this
  cases h1 : x.toBitVec.getLsbD i <;> cases h2 : y.toBitVec.getLsbD i <;> simp_all

/-- Two words with the same image are equal or complements. -/
theorem eq_or_of_xorRotate_eq {x y : UInt64} (h : xorRotate x = xorRotate y) :
    x = y ∨ x = ~~~y := by
  have hz : ∀ i, wordBit (x ^^^ y) i = wordBit (x ^^^ y) (i + 33) := by
    intro i
    have hi := congrArg (wordBit · i) h
    simp only [wordBit_xorRotate] at hi
    simp only [wordBit_xor]
    have h2 : ∀ a b c d : ZMod 2, a + b = c + d → a + c = b + d := by decide
    exact h2 _ _ _ _ hi
  have hk : ∀ k : ℕ, wordBit (x ^^^ y) (k • (33 : Fin 64)) = wordBit (x ^^^ y) 0 := by
    intro k
    induction k with
    | zero => simp
    | succ k ih => rw [succ_nsmul, ← hz, ih]
  have hall : ∀ i, wordBit (x ^^^ y) i = wordBit (x ^^^ y) 0 := by
    intro i
    have hi : ((33 * i.val : ℕ) • (33 : Fin 64)) = i := by revert i; decide
    rw [← hi, hk]
  have hxy : x = y ^^^ (x ^^^ y) := by
    rw [UInt64.xor_comm x y, ← UInt64.xor_assoc, UInt64.xor_self, UInt64.zero_xor]
  by_cases h0 : wordBit (x ^^^ y) 0 = 0
  · left
    have : x ^^^ y = 0 := ext_wordBit fun i => by rw [hall, h0]; revert i; decide
    rw [hxy, this, UInt64.xor_zero]
  · right
    have h1 : wordBit (x ^^^ y) 0 = 1 := by
      have : ∀ a : ZMod 2, a ≠ 0 → a = 1 := by decide
      exact this _ h0
    have : x ^^^ y = -1 := ext_wordBit fun i => by rw [hall, h1]; revert i; decide
    rw [hxy, this]
    exact UInt64.xor_neg_one

/-- The inverse of `metroK0`. -/
def invK0 : UInt64 := 0xc04240a6351d7221

theorem mul_metroK0_invK0 (x : UInt64) : x * metroK0 * invK0 = x := by
  rw [UInt64.mul_assoc, show metroK0 * invK0 = 1 by decide, UInt64.mul_one]

theorem parity_of_xorRotate_mul {h x : UInt64} (he : xorRotate h * metroK0 = x) :
    parity (x * invK0) = 0 := by
  rw [← he, mul_metroK0_invK0]
  exact parity_xorRotate h

/-- The number of bits set. -/
def popcount (x : UInt64) : ℕ :=
  ((List.range 64).map fun i => (x.toBitVec.getLsbD i).toNat).sum

theorem parity_eq_popcount (x : UInt64) : parity x = (popcount x : ZMod 2) := by
  unfold parity popcount wordBit
  rw [Fin.sum_univ_eq_sum_range (fun i => if x.toBitVec.getLsbD i then (1 : ZMod 2) else 0) 64,
    Nat.cast_list_sum, List.map_map, Finset.sum_range, Fin.sum_univ_def,
    ← List.map_coe_finRange_eq_range, List.map_map]
  refine congrArg List.sum (List.map_congr_left fun i _ => ?_)
  simp only [Function.comp_apply]
  cases x.toBitVec.getLsbD i <;> simp

theorem parity_of_odd {x : UInt64} (h : popcount x % 2 = 1) : parity x = 1 := by
  rw [parity_eq_popcount, ← ZMod.natCast_mod, h]
  rfl

/-- A word the original never returns. -/
theorem metroFinal_ne {x : UInt64} (h1 : parity (x * invK0) = 1)
    (h2 : parity (~~~x * invK0) = 1) (h : UInt64) : Server.metroFinal h ≠ xorRotate x := by
  intro he
  have he' : xorRotate (xorRotate h * metroK0) = xorRotate x := he
  rcases eq_or_of_xorRotate_eq he' with hx | hx
  · exact absurd (h1.symm.trans (parity_of_xorRotate_mul hx)) (by decide)
  · exact absurd (h2.symm.trans (parity_of_xorRotate_mul hx)) (by decide)

/-! ## Steering the port -/

theorem rotate_rotate (x : UInt64) : rotate (rotate x 35) 29 = x := by
  have h1 : ∀ y : UInt64,
      (rotate y 29).toBitVec = y.toBitVec <<< 29 ||| y.toBitVec >>> (64 - 29) := fun _ => rfl
  have h2 : (rotate x 35).toBitVec = x.toBitVec <<< 35 ||| x.toBitVec >>> (64 - 35) := rfl
  apply UInt64.toBitVec_inj.1
  apply BitVec.eq_of_getLsbD_eq
  intro i hi
  rw [h1, getLsbD_rotate _ (by decide) hi, h2, getLsbD_rotate _ (by decide) (by omega)]
  congr 1
  omega

/-- The bytes of a word, least significant first. -/
def leBytes (w : UInt64) : List UInt8 :=
  (List.range 8).map fun i => (w >>> UInt64.ofNat (8 * i)).toUInt8

@[simp] theorem length_leBytes (w : UInt64) : (leBytes w).length = 8 := by simp [leBytes]

theorem getLsbD_readLe {m : Mem} {o : ℕ} {w : UInt64} (h : At m o (leBytes w)) {j : ℕ}
    (hj : j < 64) : ∀ n ≤ 8,
    (readLe m o n).toBitVec.getLsbD j = (decide (j < 8 * n) && w.toBitVec.getLsbD j)
  | 0, _ => by simp [readLe]
  | n + 1, hn => by
    have hb : m (o + n) = (w >>> UInt64.ofNat (8 * n)).toUInt8 := by
      rw [at_iff.1 h n (by simp; omega)]
      simp [leBytes]
    rw [readLe, UInt64.toBitVec_or, BitVec.getLsbD_or, getLsbD_readLe h hj n (by omega), hb]
    have hsh : (((w >>> UInt64.ofNat (8 * n)).toUInt8.toUInt64 <<< UInt64.ofNat (8 * n))).toBitVec
        = ((w.toBitVec >>> (8 * n)).setWidth 8).setWidth 64 <<< (8 * n) := by
      have : n = 0 ∨ n = 1 ∨ n = 2 ∨ n = 3 ∨ n = 4 ∨ n = 5 ∨ n = 6 ∨ n = 7 := by omega
      rcases this with rfl | rfl | rfl | rfl | rfl | rfl | rfl | rfl <;> rfl
    rw [hsh, BitVec.getLsbD_shiftLeft, BitVec.getLsbD_setWidth, BitVec.getLsbD_setWidth,
      BitVec.getLsbD_ushiftRight]
    by_cases h1 : j < 8 * n
    · simp [h1, show j < 8 * (n + 1) by omega]
    · by_cases h2 : j < 8 * (n + 1)
      · have e : 8 * n + (j - 8 * n) = j := by omega
        simp [h1, h2, hj, e, show j - 8 * n < 8 by omega, show j - 8 * n < 64 by omega]
      · simp [h1, h2, show ¬ j - 8 * n < 8 by omega]

theorem readLe_leBytes {m : Mem} {o : ℕ} {w : UInt64} (h : At m o (leBytes w)) :
    readLe m o 8 = w := by
  apply UInt64.toBitVec_inj.1
  apply BitVec.eq_of_getLsbD_eq
  intro j hj
  rw [getLsbD_readLe h hj 8 le_rfl]
  simp [hj]

theorem readLe_zero {m : Mem} {o : ℕ} : ∀ {n : ℕ}, (∀ i < n, m (o + i) = 0) → readLe m o n = 0
  | 0, _ => rfl
  | n + 1, h => by
    rw [readLe, readLe_zero fun i hi => h i (by omega), h n (by omega)]
    simp

section Stages

variable (m : Mem) (n : ℕ)

/-- The hash at the start. -/
def seedState : UInt64 := ((0x6765 : UInt32).toUInt64 + metroK2) * metroK0 + UInt64.ofNat n

/-- After the bulk loop. -/
def bulkState : UInt64 :=
  if 32 ≤ n then metroFold (seedState n)
    (metroBulk m (n / 32) ⟨seedState n, seedState n, seedState n, seedState n⟩)
  else seedState n

/-- After the tail of 16 bytes. -/
def midState : UInt64 :=
  if 16 ≤ n % 32 then metroTail16 m (n / 32 * 32) (bulkState m n) else bulkState m n

/-- After the tail of 8 bytes. -/
def wordState : UInt64 :=
  if 8 ≤ n % 16 then metroTail m (n / 16 * 16) 8 55 (midState m n) else midState m n

/-- The tail of a string that ends in `r` zeros, `r < 8`. -/
def zeroEnd (r : ℕ) (h : UInt64) : UInt64 :=
  let h := if 4 ≤ r then h ^^^ rotate h 26 * metroK1 else h
  let h := if 2 ≤ r % 4 then h ^^^ rotate h 48 * metroK1 else h
  let h := if 1 ≤ r % 2 then h ^^^ rotate h 37 * metroK1 else h
  let h := (h ^^^ rotate h 28) * metroK0
  h ^^^ rotate h 29

variable {m n}

theorem metroTail_zero {p w : ℕ} (h : ∀ i, p ≤ i → m i = 0) (r x : UInt64) :
    metroTail m p w r x = x ^^^ rotate x r * metroK1 := by
  unfold metroTail
  rw [readLe_zero fun i _ => h (p + i) (by omega), UInt64.zero_mul, UInt64.add_zero]

theorem metrohash64_eq_zeroEnd (hz : ∀ i, n / 8 * 8 ≤ i → m i = 0) :
    metrohash64 m n 0x6765 = zeroEnd (n % 8) (wordState m n) := by
  have p1 : (if 16 ≤ n - n / 32 * 32 then n / 32 * 32 + 16 else n / 32 * 32) = n / 16 * 16 := by
    split_ifs <;> omega
  have p2 : (if 8 ≤ n - n / 16 * 16 then n / 16 * 16 + 8 else n / 16 * 16) = n / 8 * 8 := by
    split_ifs <;> omega
  have p3 : (if 4 ≤ n - n / 8 * 8 then n / 8 * 8 + 4 else n / 8 * 8) = n / 4 * 4 := by
    split_ifs <;> omega
  have p4 : (if 2 ≤ n - n / 4 * 4 then n / 4 * 4 + 2 else n / 4 * 4) = n / 2 * 2 := by
    split_ifs <;> omega
  have c1 : (16 ≤ n - n / 32 * 32) = (16 ≤ n % 32) := by rw [eq_iff_iff]; omega
  have c2 : (8 ≤ n - n / 16 * 16) = (8 ≤ n % 16) := by rw [eq_iff_iff]; omega
  have c3 : (4 ≤ n - n / 8 * 8) = (4 ≤ n % 8) := by rw [eq_iff_iff]; omega
  have c4 : (2 ≤ n - n / 4 * 4) = (2 ≤ n % 8 % 4) := by rw [eq_iff_iff]; omega
  have c5 : (1 ≤ n - n / 2 * 2) = (1 ≤ n % 8 % 2) := by rw [eq_iff_iff]; omega
  have z1 := fun x => metroTail_zero (w := 4) hz 26 x
  have z2 := fun x => metroTail_zero (p := n / 4 * 4) (w := 2)
    (fun i hi => hz i (by omega)) 48 x
  have z3 := fun x => metroTail_zero (p := n / 2 * 2) (w := 1)
    (fun i hi => hz i (by omega)) 37 x
  unfold metrohash64
  simp only [p1, p2, p3, p4]
  simp only [c1, c2, c3, c4, c5, z1, z2, z3]
  rfl

end Stages

section Steer

variable {n : ℕ}

/-- A string of zeros. -/
def zeros : Mem := fun _ => 0

theorem bulkState_congr {m m' : Mem} (h : ∀ i < n / 32 * 32, m i = m' i) :
    bulkState m n = bulkState m' n := by
  unfold bulkState
  rw [metroBulk_congr h (by omega)]

theorem midState_congr {m m' : Mem} (h : ∀ i < n / 16 * 16, m i = m' i) :
    midState m n = midState m' n := by
  unfold midState
  rw [bulkState_congr fun i hi => h i (by omega)]
  split_ifs with h16
  · have hr : ∀ o, o + 8 ≤ n / 16 * 16 → readLe m o 8 = readLe m' o 8 :=
      fun o ho => readLe_congr fun i hi => h (o + i) (by omega)
    unfold metroTail16
    rw [hr _ (by omega), hr _ (by omega)]
  · rfl

/-- The inverse of `metroK1`. -/
def invK1 : UInt64 := 0x96fee335421ba853
/-- The inverse of `metroK2`. -/
def invK2 : UInt64 := 0x528da84a7dfe18f3
/-- The inverse of `metroK3`. -/
def invK3 : UInt64 := 0x9265b06fada1f72d

theorem add_sub_mul_inv {h u k i : UInt64} (hk : i * k = 1) : h + (u - h) * i * k = u := by
  rw [UInt64.mul_assoc, hk, UInt64.mul_one]
  grind

/-- Any word can be reached before the last step of the tail of 8 bytes. -/
theorem exists_wordState_of_eight (h8 : 8 ≤ n % 16) (u : UInt64) :
    ∃ m : Mem, (∀ i, n / 8 * 8 ≤ i → m i = 0)
      ∧ wordState m n = u ^^^ rotate u 55 * metroK1 := by
  let w := (u - midState zeros n) * invK3
  let m := store zeros (n / 16 * 16) (leBytes w)
  have hmid : midState m n = midState zeros n :=
    midState_congr fun i hi => store_of_lt _ hi
  refine ⟨m, fun i hi => store_of_ge (by simp; omega), ?_⟩
  have hread : readLe m (n / 16 * 16) 8 = w := readLe_leBytes (at_store _ _ _)
  have hsum : midState zeros n + w * metroK3 = u := add_sub_mul_inv (by decide)
  unfold wordState metroTail
  rw [if_pos h8, hmid, hread, hsum]

/-- Any word can be reached after the tail of 16 bytes. -/
theorem exists_wordState_of_sixteen (h8 : n % 16 < 8) (h16 : 16 ≤ n % 32) (t : UInt64) :
    ∃ m : Mem, (∀ i, n / 8 * 8 ≤ i → m i = 0) ∧ wordState m n = t := by
  let h := bulkState zeros n
  let a := rotate (h + 0 * metroK2) 29 * metroK3
  let v := (a ^^^ rotate (a * metroK2) 37 * metroK3) ^^^ (t - h)
  let w := (rotate (v * invK3) 35 - h) * invK2
  let m := store zeros (n / 32 * 32 + 8) (leBytes w)
  have hbulk : bulkState m n = h := bulkState_congr fun i hi => store_of_lt _ (by omega)
  refine ⟨m, fun i hi => store_of_ge (by simp; omega), ?_⟩
  have hr1 : readLe m (n / 32 * 32) 8 = 0 :=
    readLe_zero fun i hi => store_of_lt _ (by omega)
  have hr2 : readLe m (n / 32 * 32 + 8) 8 = w := readLe_leBytes (at_store _ _ _)
  have hsum : h + w * metroK2 = rotate (v * invK3) 35 := add_sub_mul_inv (by decide)
  have hv : v * invK3 * metroK3 = v := by
    rw [UInt64.mul_assoc, show invK3 * metroK3 = 1 by decide, UInt64.mul_one]
  unfold wordState midState metroTail16
  rw [if_neg (by omega), if_pos h16, hbulk, hr1, hr2, hsum, rotate_rotate, hv]
  show h + ((a ^^^ rotate (a * metroK2) 37 * metroK3) ^^^ v) = t
  have hx : (a ^^^ rotate (a * metroK2) 37 * metroK3) ^^^ v = t - h := by
    rw [← UInt64.xor_assoc, UInt64.xor_self, UInt64.zero_xor]
  rw [hx]
  grind

/-- The word that takes a lane from `v` to `a`, `c` the lane added after the rotation. -/
def laneWord (v c a i : UInt64) : UInt64 := (rotate (a - c) 35 - v) * i

theorem lane_laneWord {v c a k i : UInt64} (hk : i * k = 1) :
    rotate (v + laneWord v c a i * k) 29 + c = a := by
  unfold laneWord
  rw [add_sub_mul_inv hk, rotate_rotate]
  grind

/-- The words that take the lanes `v` to `a` in one turn. -/
def turnWords (v a : Lanes) : List UInt8 :=
  leBytes (laneWord v.v0 v.v2 a.v0 invK0) ++ (leBytes (laneWord v.v1 v.v3 a.v1 invK1)
    ++ (leBytes (laneWord v.v2 a.v0 a.v2 invK2) ++ leBytes (laneWord v.v3 a.v1 a.v3 invK3)))

theorem metroTurn_turnWords {m : Mem} {p : ℕ} {v a : Lanes} (h : At m p (turnWords v a)) :
    metroTurn m p v = a := by
  unfold turnWords at h
  obtain ⟨h0, h⟩ := at_append.1 h
  obtain ⟨h1, h⟩ := at_append.1 h
  obtain ⟨h2, h3⟩ := at_append.1 h
  simp only [length_leBytes, Nat.add_assoc, Nat.reduceAdd] at h1 h2 h3
  have e0 := lane_laneWord (v := v.v0) (c := v.v2) (a := a.v0)
    (show invK0 * metroK0 = 1 by decide)
  have e1 := lane_laneWord (v := v.v1) (c := v.v3) (a := a.v1)
    (show invK1 * metroK1 = 1 by decide)
  have e2 := lane_laneWord (v := v.v2) (c := a.v0) (a := a.v2)
    (show invK2 * metroK2 = 1 by decide)
  have e3 := lane_laneWord (v := v.v3) (c := a.v1) (a := a.v3)
    (show invK3 * metroK3 = 1 by decide)
  unfold metroTurn
  simp only [readLe_leBytes h0, readLe_leBytes h1, readLe_leBytes h2, readLe_leBytes h3, e0, e1,
    e2, e3]

/-- Lanes that fold to `w * (1 - metroK1 * metroK0)`. -/
def foldLanes (w : UInt64) : Lanes :=
  let v1 := w * (1 - metroK1 * metroK0)
  let v2 := 0 - w * metroK1
  let v3 := w - v1
  let a3 := v3 ^^^ rotate ((v1 + v2) * metroK1 + 0) 37 * metroK0
  ⟨0, v1, v2 ^^^ rotate ((0 + a3) * metroK0 + v1) 37 * metroK1, a3⟩

theorem xor_xor_self (x y : UInt64) : x ^^^ y ^^^ y = x := by
  rw [UInt64.xor_assoc, UInt64.xor_self, UInt64.xor_zero]

theorem metroFold_foldLanes (h w : UInt64) :
    metroFold h (foldLanes w) = h + w * (1 - metroK1 * metroK0) := by
  have e1 : (0 + (0 - w * metroK1)) * metroK0 + (w - w * (1 - metroK1 * metroK0)) = 0 := by grind
  have e2 : (w * (1 - metroK1 * metroK0) + (w - w * (1 - metroK1 * metroK0))) * metroK1
      + (0 - w * metroK1) = 0 := by grind
  have r0 : rotate 0 37 = 0 := by decide
  unfold metroFold foldLanes
  simp only [xor_xor_self, e1, e2, r0, UInt64.zero_mul, UInt64.xor_zero, UInt64.zero_xor]

/-- Every other word can be reached after the bulk loop. -/
theorem exists_wordState_of_bulk (h8 : n % 32 < 8) (h32 : 32 ≤ n) (u : UInt64) :
    ∃ m : Mem, (∀ i, n / 8 * 8 ≤ i → m i = 0) ∧ wordState m n = seedState n + 2 * u := by
  let h := seedState n
  let v := metroBulk zeros (n / 32 - 1) ⟨h, h, h, h⟩
  let w := u * 0xeff66cbbc88bb3eb
  let m := store zeros (32 * (n / 32 - 1)) (turnWords v (foldLanes w))
  have hlen : (turnWords v (foldLanes w)).length = 32 := by simp [turnWords]
  refine ⟨m, fun i hi => store_of_ge (by rw [hlen]; omega), ?_⟩
  have hbulk : metroBulk m (n / 32) ⟨h, h, h, h⟩ = foldLanes w := by
    obtain ⟨q, hq⟩ : ∃ q, n / 32 = q + 1 := ⟨n / 32 - 1, by omega⟩
    have hv : metroBulk m q ⟨h, h, h, h⟩ = v := by
      have : q = n / 32 - 1 := by omega
      rw [this]
      exact @metroBulk_congr _ _ (32 * (n / 32 - 1)) _ (fun i hi => store_of_lt _ hi) le_rfl _
    rw [hq, metroBulk, List.range_succ, List.foldl_append, List.foldl_cons, List.foldl_nil,
      ← metroBulk, hv, show 32 * q = 32 * (n / 32 - 1) by omega]
    exact metroTurn_turnWords (at_store _ _ _)
  have hw : w * (1 - metroK1 * metroK0) = 2 * u := by
    rw [UInt64.mul_assoc, show 0xeff66cbbc88bb3eb * (1 - metroK1 * metroK0) = 2 by decide,
      UInt64.mul_comm]
  unfold wordState midState bulkState
  rw [if_neg (by omega), if_neg (by omega), if_pos h32, hbulk, metroFold_foldLanes, hw]

end Steer

/-! ## Strings of every length -/

/-- What the words of `pre33` are mapped to is never returned by the original. -/
def pre33 : List UInt64 :=
  [0x15f5c545c0222954, 0xa291a20c060601e2, 0xd05b8b3e57ee9036, 0x65955de67dfe9ffa,
    0xec180baba77387d2, 0xc9066092af0c9590, 0xcd1aaebfad5f8ace, 0x99636619d272bd14]

/-- The states after the bulk loop, less the seed and halved, that lead there, by the length
modulo 8. -/
def bulkGoal : List UInt64 := [6, 1, 1, 2, 5, 2, 0, 3]

/-- The same for a state before the last step of the tail of 8 bytes. -/
def pre33' : List UInt64 :=
  [0xf2f8610e428e6d38, 0x6f012c0e61cdce9a, 0xa421568d4b863108, 0x3174931cf16f5d86,
    0x28c51848bb3c44c8, 0x23cfeb702f1ce19a, 0xaf60deb349bfeb5a, 0xbe6bdd2d735bbb50]

def wordGoal : List UInt64 := [2, 3, 2, 1, 16, 7, 1, 1]

theorem popcount_pre33 : (pre33 ++ pre33').all
    (fun x => popcount (x * invK0) % 2 == 1 && popcount (~~~x * invK0) % 2 == 1) = true := by
  decide +kernel

theorem zeroEnd_bulkGoal : ∀ r < 8,
    zeroEnd r (seedState 0 + UInt64.ofNat r + 2 * bulkGoal.getD r 0)
      = xorRotate (pre33.getD r 0) := by
  decide +kernel

theorem zeroEnd_wordGoal : ∀ r < 8,
    zeroEnd r (wordGoal.getD r 0 ^^^ rotate (wordGoal.getD r 0) 55 * metroK1)
      = xorRotate (pre33'.getD r 0) := by
  decide +kernel

theorem metroFinal_ne_pre33 {x : UInt64} (hx : x ∈ pre33 ++ pre33') (h : UInt64) :
    Server.metroFinal h ≠ xorRotate x := by
  have hp := List.all_eq_true.1 popcount_pre33 x hx
  simp only [Bool.and_eq_true, beq_iff_eq] at hp
  exact metroFinal_ne (parity_of_odd hp.1) (parity_of_odd hp.2) h

theorem getD_mem {l : List UInt64} {r : ℕ} (h : r < l.length) : l.getD r 0 ∈ l := by
  rw [List.getD_eq_getElem _ _ h]
  exact List.getElem_mem h

theorem seedState_eq (n : ℕ) :
    seedState n + 2 * (bulkGoal.getD (n % 8) 0 - 4 * UInt64.ofNat (n / 8))
      = seedState 0 + UInt64.ofNat (n % 8) + 2 * bulkGoal.getD (n % 8) 0 := by
  have hn : UInt64.ofNat n = 8 * UInt64.ofNat (n / 8) + UInt64.ofNat (n % 8) := by
    conv_lhs => rw [← Nat.div_add_mod n 8]
    rw [UInt64.ofNat_add, UInt64.ofNat_mul]
    rfl
  have h0 : UInt64.ofNat 0 = 0 := rfl
  unfold seedState
  rw [hn, h0]
  grind

/-- The port's hash can leave what the original can return. -/
theorem exists_ne_metroFinal {n : ℕ} (hn : 8 ≤ n) :
    ∃ m : Mem, ∀ h, Server.metroFinal h ≠ metrohash64 m n 0x6765 := by
  have hr : n % 8 < 8 := Nat.mod_lt _ (by decide)
  have hgoal : (∃ m : Mem, (∀ i, n / 8 * 8 ≤ i → m i = 0) ∧ wordState m n
        = wordGoal.getD (n % 8) 0 ^^^ rotate (wordGoal.getD (n % 8) 0) 55 * metroK1)
      ∨ ∃ m : Mem, (∀ i, n / 8 * 8 ≤ i → m i = 0) ∧ wordState m n
        = seedState 0 + UInt64.ofNat (n % 8) + 2 * bulkGoal.getD (n % 8) 0 := by
    by_cases h8 : 8 ≤ n % 16
    · exact .inl (exists_wordState_of_eight h8 _)
    · by_cases h16 : 16 ≤ n % 32
      · exact .inr (exists_wordState_of_sixteen (by omega) h16 _)
      · rw [← seedState_eq]
        exact .inr (exists_wordState_of_bulk (by omega) (by omega) _)
  rcases hgoal with ⟨m, hz, hm⟩ | ⟨m, hz, hm⟩
  · refine ⟨m, fun h => ?_⟩
    rw [metrohash64_eq_zeroEnd hz, hm, zeroEnd_wordGoal _ hr]
    exact metroFinal_ne_pre33 (List.mem_append_right _ (getD_mem (by simpa [pre33'] using hr))) h
  · refine ⟨m, fun h => ?_⟩
    rw [metrohash64_eq_zeroEnd hz, hm, zeroEnd_bulkGoal _ hr]
    exact metroFinal_ne_pre33 (List.mem_append_left _ (getD_mem (by simpa [pre33] using hr))) h

theorem short_hashes_differ : ∀ n < 8,
    metrohash64 zeros n 0x6765 ≠ Server.metrohash64_1 zeros n 0x6765 := by
  decide +kernel

/-- On the strings of no length are the two hashes the same function. -/
theorem hashes_differ (n : ℕ) :
    ¬ ∀ m : Mem, metrohash64 m n 0x6765 = Server.metrohash64_1 m n 0x6765 := by
  intro h
  rcases Nat.lt_or_ge n 8 with hn | hn
  · exact short_hashes_differ n hn (h zeros)
  · obtain ⟨m, hm⟩ := exists_ne_metroFinal hn
    exact hm _ (h m).symm

/-- The hash of the empty string. -/
theorem not_forall_metrohash64_eq :
    ¬ ∀ (m : Mem) (n : ℕ), metrohash64 m n 0x6765 = Server.metrohash64_1 m n 0x6765 :=
  fun h => short_hashes_differ 0 (by decide) (h zeros 0)

end GefsFuse
