import GefsFuse.Lib.Mem

/-!
# Slotted pages

A page of `spc` bytes at `base` holds records. Its front is a table of offsets of two bytes each,
and the records grow down from its end, each below the ones before it. As long as the table and the
records do not meet, each offset and each record can be read back (`packSlots_at`).
-/

namespace Slots

open ByteMem

/-- The bytes of all records. -/
def total (rs : List (List UInt8)) : ℕ := (rs.map List.length).sum

/-- Where the `i`-th record starts. -/
def offset (spc : ℕ) (rs : List (List UInt8)) (i : ℕ) : ℕ := spc - total (rs.take (i + 1))

/-- The records from the `i`-th on, `used` bytes of the page being taken by those before. -/
def packFrom (base spc : ℕ) : ℕ → ℕ → List (List UInt8) → Mem → Mem
  | _, _, [], m => m
  | i, used, r :: rs, m =>
    let o := spc - (used + r.length)
    packFrom base spc (i + 1) (used + r.length) rs
      (store (store m (base + 2 * i) (be 2 o)) (base + o) r)

def packSlots (base spc : ℕ) (rs : List (List UInt8)) (m : Mem) : Mem := packFrom base spc 0 0 rs m

@[simp] theorem total_nil : total [] = 0 := rfl

@[simp] theorem total_cons (r : List UInt8) (rs : List (List UInt8)) :
    total (r :: rs) = r.length + total rs := by
  simp [total]

theorem total_take_le (rs : List (List UInt8)) (i : ℕ) : total (rs.take i) ≤ total rs := by
  induction rs generalizing i with
  | nil => simp
  | cons r rs ih =>
    rcases i with _ | i
    · simp
    · simp only [List.take_succ_cons, total_cons]
      have := ih i
      omega

section Pack

variable {base spc : ℕ}

/-- Nothing changes outside the slots and the room of the records. -/
theorem packFrom_outside {x : ℕ} : ∀ {i used : ℕ} {rs : List (List UInt8)} {m : Mem},
    used + total rs ≤ spc → (x < base + 2 * i ∨ base + 2 * (i + rs.length) ≤ x) →
    (x < base + (spc - (used + total rs)) ∨ base + (spc - used) ≤ x) →
    packFrom base spc i used rs m x = m x
  | _, _, [], _, _, _, _ => rfl
  | i, used, r :: rs, m, hf, h1, h2 => by
    simp only [total_cons, List.length_cons] at hf h1 h2
    unfold packFrom
    rw [packFrom_outside (by omega) (by omega) (by omega)]
    have hrec : ∀ m' : Mem, store m' (base + (spc - (used + r.length))) r x = m' x := by
      intro m'
      rcases Nat.lt_or_ge x (base + (spc - (used + r.length))) with h | h
      · exact store_of_lt r h
      · exact store_of_ge (by omega)
    rw [hrec]
    rcases h1 with h1 | h1
    · exact store_of_lt _ h1
    · exact store_of_ge (by simp only [length_be]; omega)

/-- A record and its offset stay where they are while later ones are packed. -/
theorem packFrom_keeps {o : ℕ} {bs : List UInt8} {i used : ℕ} {rs : List (List UInt8)} {m : Mem}
    (hf : 2 * (i + rs.length) + used + total rs ≤ spc) (h : At m o bs)
    (ho : o + bs.length ≤ base + 2 * i ∨ base + (spc - used) ≤ o) :
    At (packFrom base spc i used rs m) o bs := by
  refine h.congr fun x hx => packFrom_outside (by omega) ?_ ?_
  · rcases ho with ho | ho
    · exact .inl (by omega)
    · exact .inr (by omega)
  · rcases ho with ho | ho
    · exact .inl (by omega)
    · exact .inr (by omega)

theorem packFrom_at : ∀ {i used : ℕ} {rs : List (List UInt8)} {m : Mem},
    2 * (i + rs.length) + used + total rs ≤ spc → ∀ j, (h : j < rs.length) →
    At (packFrom base spc i used rs m) (base + 2 * (i + j))
        (be 2 (spc - (used + total (rs.take (j + 1)))))
      ∧ At (packFrom base spc i used rs m) (base + (spc - (used + total (rs.take (j + 1))))) rs[j]
  | i, used, r :: rs, m, hf, 0, _ => by
    simp only [total_cons, List.length_cons] at hf
    have hrest : 2 * (i + 1 + rs.length) + (used + r.length) + total rs ≤ spc := by omega
    unfold packFrom
    simp only [List.take_succ_cons, List.take_zero, total_cons, total_nil, List.getElem_cons_zero,
      Nat.add_zero]
    constructor
    · refine packFrom_keeps hrest (.store (at_store _ _ _) (.inl ?_)) (.inl ?_) <;>
        simp only [length_be] <;> omega
    · exact packFrom_keeps hrest (at_store _ _ _) (.inr le_rfl)
  | i, used, r :: rs, m, hf, j + 1, h => by
    simp only [total_cons, List.length_cons] at hf h
    unfold packFrom
    have hrest : 2 * (i + 1 + rs.length) + (used + r.length) + total rs ≤ spc := by omega
    have ih := @packFrom_at (i + 1) (used + r.length) rs
      (store (store m (base + 2 * i) (be 2 (spc - (used + r.length))))
        (base + (spc - (used + r.length))) r) hrest j (by omega)
    simp only [List.take_succ_cons, total_cons, List.getElem_cons_succ]
    rw [show i + (j + 1) = i + 1 + j by omega,
      show used + (r.length + total (rs.take (j + 1))) = used + r.length + total (rs.take (j + 1))
        by omega]
    exact ih

variable {rs : List (List UInt8)} {m : Mem}

/-- The offset of each record lies in its slot, and the record at its offset. -/
theorem packSlots_at (hf : 2 * rs.length + total rs ≤ spc) {i : ℕ} (h : i < rs.length) :
    At (packSlots base spc rs m) (base + 2 * i) (be 2 (offset spc rs i))
      ∧ At (packSlots base spc rs m) (base + offset spc rs i) rs[i] := by
  have := @packFrom_at base spc 0 0 rs m (by omega) i h
  simpa only [Nat.zero_add, offset, packSlots] using this

theorem packSlots_outside (hf : 2 * rs.length + total rs ≤ spc) {x : ℕ}
    (hx : x < base ∨ base + spc ≤ x) : packSlots base spc rs m x = m x := by
  refine packFrom_outside (by omega) ?_ ?_
  · rcases hx with hx | hx
    · exact .inl (by omega)
    · exact .inr (by omega)
  · rcases hx with hx | hx
    · exact .inl (by omega)
    · exact .inr (by omega)

/-- What lies outside the page stays. -/
theorem packSlots_keeps {o : ℕ} {bs : List UInt8} (h : At m o bs)
    (hf : 2 * rs.length + total rs ≤ spc) (ho : o + bs.length ≤ base ∨ base + spc ≤ o) :
    At (Slots.packSlots base spc rs m) o bs :=
  h.congr fun x hx => packSlots_outside hf (by omega)

theorem offset_lt (spc : ℕ) (rs : List (List UInt8)) (i : ℕ) : offset spc rs i ≤ spc :=
  Nat.sub_le _ _

end Pack

end Slots
