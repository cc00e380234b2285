import Mathlib

/-!
# Bytes

A memory is a byte for every offset; `load` reads a run of it and `store` overwrites one. A store
is read back whole where it was made (`load_store`) and is not seen elsewhere
(`load_store_of_disjoint`). `At` says what lies where, and splits over an append.

`be w n` is `n` in `w` bytes, most significant first, and `unbe` reads such bytes back.
-/

namespace ByteMem

/-- The byte at each offset. -/
abbrev Mem := ℕ → UInt8

/-- The `n` bytes from `o` on. -/
def load (m : Mem) : ℕ → ℕ → List UInt8
  | _, 0 => []
  | o, n + 1 => m o :: load m (o + 1) n

/-- `m` with `bs` written at `o`. -/
def store (m : Mem) (o : ℕ) (bs : List UInt8) : Mem :=
  fun i => if o ≤ i then (bs[i - o]?).getD (m i) else m i

@[simp] theorem length_load (m : Mem) : ∀ o n, (load m o n).length = n
  | _, 0 => rfl
  | o, n + 1 => by simp [load, length_load m (o + 1) n]

theorem getElem?_load (m : Mem) :
    ∀ (o n i : ℕ), (load m o n)[i]? = if i < n then some (m (o + i)) else none
  | o, 0, i => by simp [load]
  | o, n + 1, 0 => by simp [load]
  | o, n + 1, i + 1 => by
    rw [load, List.getElem?_cons_succ, getElem?_load m (o + 1) n i]
    have : o + 1 + i = o + (i + 1) := by omega
    simp only [this, Nat.add_lt_add_iff_right]

theorem load_congr {m m' : Mem} {o o' : ℕ} {n : ℕ} (h : ∀ i < n, m (o + i) = m' (o' + i)) :
    load m o n = load m' o' n := by
  apply List.ext_getElem?
  intro i
  rw [getElem?_load, getElem?_load]
  split_ifs with hi
  · rw [h i hi]
  · rfl

theorem load_add (m : Mem) (o a b : ℕ) : load m o (a + b) = load m o a ++ load m (o + a) b := by
  induction a generalizing o with
  | zero => simp [load]
  | succ a ih =>
    rw [Nat.succ_add, load, load, ih (o + 1), List.cons_append]
    congr 3
    omega

theorem store_of_lt {m : Mem} {o i : ℕ} (bs : List UInt8) (h : i < o) : store m o bs i = m i := by
  simp [store, Nat.not_le.2 h]

theorem store_of_ge {m : Mem} {o i : ℕ} {bs : List UInt8} (h : o + bs.length ≤ i) :
    store m o bs i = m i := by
  unfold store
  split_ifs
  · rw [List.getElem?_eq_none (by omega)]
    rfl
  · rfl

theorem store_getElem {m : Mem} {o i : ℕ} {bs : List UInt8} (h : i < bs.length) :
    store m o bs (o + i) = bs[i] := by
  simp [store, h]

theorem load_store (m : Mem) (o : ℕ) (bs : List UInt8) :
    load (store m o bs) o bs.length = bs := by
  apply List.ext_getElem?
  intro i
  rw [getElem?_load]
  split_ifs with hi
  · rw [store_getElem hi, List.getElem?_eq_getElem hi]
  · rw [List.getElem?_eq_none (by omega)]

theorem load_store_of_disjoint {m : Mem} {o : ℕ} {bs : List UInt8} {o' n : ℕ}
    (h : o' + n ≤ o ∨ o + bs.length ≤ o') : load (store m o bs) o' n = load m o' n := by
  apply load_congr
  intro i hi
  rcases h with h | h
  · exact store_of_lt bs (by omega)
  · exact store_of_ge (by omega)

/-- `bs` lies at `o`. -/
def At (m : Mem) (o : ℕ) (bs : List UInt8) : Prop :=
  load m o bs.length = bs

theorem at_append {m : Mem} {o : ℕ} {as bs : List UInt8} :
    At m o (as ++ bs) ↔ At m o as ∧ At m (o + as.length) bs := by
  unfold At
  rw [List.length_append, load_add]
  constructor
  · intro h
    exact List.append_inj h (by simp)
  · rintro ⟨h1, h2⟩
    rw [h1, h2]

theorem at_iff {m : Mem} {o : ℕ} {bs : List UInt8} :
    At m o bs ↔ ∀ i, (h : i < bs.length) → m (o + i) = bs[i] := by
  unfold At
  constructor
  · intro h i hi
    have h1 := getElem?_load m o bs.length i
    rw [h, List.getElem?_eq_getElem hi, if_pos hi] at h1
    exact (Option.some.inj h1).symm
  · intro h
    apply List.ext_getElem?
    intro i
    rw [getElem?_load]
    split_ifs with hi
    · rw [h i hi, List.getElem?_eq_getElem hi]
    · rw [List.getElem?_eq_none (by omega)]

theorem at_store (m : Mem) (o : ℕ) (bs : List UInt8) : At (store m o bs) o bs :=
  load_store m o bs

theorem At.congr {m m' : Mem} {o o' : ℕ} {bs : List UInt8} (h : At m o bs)
    (hm : ∀ i < bs.length, m' (o' + i) = m (o + i)) : At m' o' bs := by
  unfold At
  rw [load_congr hm, h]

theorem At.store {m : Mem} {o o' : ℕ} {bs cs : List UInt8} (h : At m o bs)
    (hd : o + bs.length ≤ o' ∨ o' + cs.length ≤ o) : At (store m o' cs) o bs := by
  unfold At
  rw [load_store_of_disjoint hd, h]

/-- `n` in `w` bytes, most significant first. -/
def be : ℕ → ℕ → List UInt8
  | 0, _ => []
  | w + 1, n => be w (n / 256) ++ [UInt8.ofNat n]

/-- The number whose bytes are `bs`, most significant first. -/
def unbe (bs : List UInt8) : ℕ :=
  bs.foldl (fun a b => a * 256 + b.toNat) 0

@[simp] theorem length_be : ∀ w n, (be w n).length = w
  | 0, _ => rfl
  | w + 1, n => by simp [be, length_be w]

theorem unbe_append_singleton (bs : List UInt8) (b : UInt8) :
    unbe (bs ++ [b]) = unbe bs * 256 + b.toNat := by
  simp [unbe, List.foldl_append]

theorem unbe_be : ∀ w n, unbe (be w n) = n % 256 ^ w
  | 0, n => by simp [be, unbe, Nat.mod_one]
  | w + 1, n => by
    have hb : (UInt8.ofNat n).toNat = n % 256 := by simp
    rw [be, unbe_append_singleton, unbe_be w, hb, pow_succ', Nat.mod_mul]
    omega

theorem unbe_be_of_lt {w n : ℕ} (h : n < 256 ^ w) : unbe (be w n) = n := by
  rw [unbe_be, Nat.mod_eq_of_lt h]

theorem be_inj {w a b : ℕ} (ha : a < 256 ^ w) (hb : b < 256 ^ w) (h : be w a = be w b) :
    a = b := by
  rw [← unbe_be_of_lt ha, ← unbe_be_of_lt hb, h]

theorem unbe_lt (bs : List UInt8) : unbe bs < 256 ^ bs.length := by
  induction bs using List.reverseRecOn with
  | nil => simp [unbe]
  | append_singleton bs b ih =>
    have hb : b.toNat < 256 := b.toNat_lt
    rw [unbe_append_singleton, List.length_append, List.length_singleton, pow_succ]
    omega

theorem be_unbe (bs : List UInt8) : be bs.length (unbe bs) = bs := by
  induction bs using List.reverseRecOn with
  | nil => rfl
  | append_singleton bs b ih =>
    have hb : b.toNat < 256 := b.toNat_lt
    have hd : (unbe bs * 256 + b.toNat) / 256 = unbe bs := by omega
    rw [unbe_append_singleton, List.length_append, List.length_singleton, be, hd, ih]
    congr 2
    apply UInt8.toNat_inj.1
    simp only [UInt8.toNat_ofNat']
    omega

theorem unbe_cons (b : UInt8) (bs : List UInt8) :
    unbe (b :: bs) = b.toNat * 256 ^ bs.length + unbe bs := by
  induction bs using List.reverseRecOn with
  | nil => simp [unbe]
  | append_singleton bs c ih =>
    rw [← List.cons_append, unbe_append_singleton, ih, unbe_append_singleton, List.length_append,
      List.length_singleton, pow_succ]
    ring

theorem unbe_append (as bs : List UInt8) :
    unbe (as ++ bs) = unbe as * 256 ^ bs.length + unbe bs := by
  induction as with
  | nil => simp [unbe]
  | cons a as ih =>
    rw [List.cons_append, unbe_cons, ih, unbe_cons, List.length_append, pow_add]
    ring

/-- Bytes of one length are in the order of the numbers they are. -/
theorem lt_iff_unbe_lt : ∀ {as bs : List UInt8}, as.length = bs.length →
    (as < bs ↔ unbe as < unbe bs)
  | [], [], _ => by simp
  | a :: as, b :: bs, h => by
    have h : as.length = bs.length := by simpa using h
    have ha := unbe_lt as
    have hb := unbe_lt bs
    rw [List.cons_lt_cons_iff, lt_iff_unbe_lt h, unbe_cons, unbe_cons, h]
    rw [h] at ha
    generalize 256 ^ bs.length = w at ha hb ⊢
    rw [UInt8.lt_iff_toNat_lt, ← UInt8.toNat_inj]
    constructor
    · rintro (h | ⟨h, h'⟩)
      · have : (a.toNat + 1) * w ≤ b.toNat * w := Nat.mul_le_mul_right w h
        rw [Nat.add_mul, one_mul] at this
        omega
      · rw [h]
        omega
    · intro h
      rcases Nat.lt_trichotomy a.toNat b.toNat with h1 | h1 | h1
      · exact .inl h1
      · rw [h1] at h
        exact .inr ⟨h1, by omega⟩
      · have : (b.toNat + 1) * w ≤ a.toNat * w := Nat.mul_le_mul_right w h1
        rw [Nat.add_mul, one_mul] at this
        omega

end ByteMem

instance UInt8.instLinearOrder : LinearOrder UInt8 where
  le_refl := UInt8.le_refl
  le_trans _ _ _ := UInt8.le_trans
  le_antisymm _ _ := UInt8.le_antisymm
  le_total := UInt8.le_total
  lt_iff_le_not_ge a b := by
    simp only [UInt8.lt_iff_toNat_lt, UInt8.le_iff_toNat_le]
    omega
  toDecidableLE := inferInstance
  toDecidableLT := inferInstance
  compare_eq_compareOfLessAndEq _ _ := rfl
