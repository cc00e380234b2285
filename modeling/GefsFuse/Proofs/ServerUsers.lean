import GefsFuse.Lib.Effects
import GefsFuse.Server.Users

/-!
# Loading the user table

A text is accepted if every line has its four fields, the leaders and members it names are users, and
memory can be had (`Accepts`); the table then has one user for each line. What it says of them is
what the lines say exactly where `snprint` keeps the names, the memory that `realloc` adds is clear
where a line has no leader, and cutting long lines changes no member (`Faithful`).
-/

namespace GefsFuse.Server.Users

/-! ## Fields -/

section Split

variable {d : UInt8} {s t : Bytes}

theorem splitOn_cons (d c : UInt8) (s : Bytes) :
    (c :: s).splitOn d = if c = d then [] :: s.splitOn d else (s.splitOn d).modifyHead (c :: ·) := by
  rw [List.splitOn_cons_eq_if_modifyHead]
  simp only [beq_iff_eq]

/-- What `getfield` has left is the fields that are left. -/
def Left (d : UInt8) (p : Option Bytes) (fs : List Bytes) : Prop :=
  match p with
  | none => fs = []
  | some s => fs = s.splitOn d

theorem getfield_splitOn (d : UInt8) : ∀ s : Bytes, ∃ p fs,
    getfield (some s) d = (some (s.takeWhile (· ≠ d)), p)
      ∧ s.splitOn d = s.takeWhile (· ≠ d) :: fs ∧ Left d p fs
  | [] => ⟨none, [], rfl, rfl, rfl⟩
  | c :: s => by
    by_cases hc : c = d
    · refine ⟨some s, s.splitOn d, ?_, ?_, rfl⟩
      · simp [getfield, hc]
      · simp [splitOn_cons, hc]
    · obtain ⟨p, fs, h1, h2, h3⟩ := getfield_splitOn d s
      refine ⟨p, fs, ?_, ?_, h3⟩
      · simp only [getfield, Prod.mk.injEq, true_and] at h1 ⊢
        simpa [hc] using h1
      · simp [splitOn_cons, hc, h2]

/-- The next field, and what is left behind it. -/
theorem getfield_left {p : Option Bytes} {fs : List Bytes} (h : Left d p fs) :
    (getfield p d).1 = fs.head? ∧ Left d (getfield p d).2 fs.tail := by
  rcases p with _ | s
  · obtain rfl : fs = [] := h
    exact ⟨rfl, rfl⟩
  · obtain ⟨p, fs', h1, h2, h3⟩ := getfield_splitOn d s
    obtain rfl : fs = s.splitOn d := h
    rw [h1, h2]
    exact ⟨rfl, h3⟩

theorem getfields_left : ∀ {n : ℕ} {p : Option Bytes} {fs : List Bytes}, Left d p fs →
    fs.length ≤ n → getfields d n p = fs
  | 0, p, fs, _, hn => by
    rw [List.eq_nil_of_length_eq_zero (Nat.le_zero.1 hn)]
    rfl
  | n + 1, p, fs, h, hn => by
    obtain ⟨h1, h2⟩ := getfield_left h
    rcases hg : getfield p d with ⟨f, p'⟩
    rw [hg] at h1 h2
    rcases fs with _ | ⟨f', fs⟩
    · obtain rfl : f = none := h1
      simp only [getfields, hg]
    · obtain rfl : f = some f' := h1
      simp only [getfields, hg]
      rw [getfields_left h2 (by simpa using hn)]
      rfl

theorem length_splitOn_le : ∀ s : Bytes, (s.splitOn d).length ≤ s.length + 1
  | [] => le_rfl
  | c :: s => by
    have := length_splitOn_le s
    rw [splitOn_cons]
    split_ifs <;> simp <;> omega

theorem length_splitOn_append : ∀ s : Bytes, (s.splitOn d).length ≤ ((s ++ t).splitOn d).length
  | [] => by
    have := List.length_pos_of_ne_nil (List.splitOn_ne_nil d t)
    exact this
  | c :: s => by
    have := length_splitOn_append s
    rw [List.cons_append, splitOn_cons, splitOn_cons]
    split_ifs <;> simpa using this

/-- A field that has its end is not changed by what follows. -/
theorem getElem?_splitOn_append : ∀ {s : Bytes} {k : ℕ}, k + 1 < (s.splitOn d).length →
    ((s ++ t).splitOn d)[k]? = (s.splitOn d)[k]?
  | [], k, h => by simp at h
  | c :: s, k, h => by
    rw [splitOn_cons] at h
    rw [List.cons_append, splitOn_cons, splitOn_cons]
    split_ifs at h ⊢
    · rcases k with _ | k
      · rfl
      · rw [List.getElem?_cons_succ, List.getElem?_cons_succ]
        exact getElem?_splitOn_append (by simpa using h)
    · rw [List.length_modifyHead] at h
      have ih := getElem?_splitOn_append h
      rcases k with _ | k
      · simp only [List.getElem?_modifyHead_zero, ih]
      · simp only [List.getElem?_modifyHead_succ, ih]

end Split

/-! ## Lines -/

section Lines

/-- The text's lines, each as far as its newline. -/
def completeLines (udata : Bytes) : List Bytes := ((cstr udata).splitOn 10).dropLast

/-- The lines that describe a user. -/
def userLines (udata : Bytes) : List Bytes := (completeLines udata).filter (!skipped ·)

/-- What fits into the buffer of a line. -/
def cut (l : Bytes) : Bytes := if 8192 ≤ l.length + 1 then l.take 8190 else l

theorem readline_splitOn (p : Bytes) :
    readline 8192 p = none ∧ p.splitOn 10 = [p]
      ∨ ∃ l rest, readline 8192 p = some (cut l, rest) ∧ p.splitOn 10 = l :: rest.splitOn 10
        ∧ rest.length < p.length := by
  rcases hd : p.dropWhile (· ≠ 10) with _ | ⟨c, rest⟩
  · refine .inl ⟨by simp only [readline, hd], List.splitOn_eq_singleton fun hm => ?_⟩
    have := List.dropWhile_eq_nil_iff.1 hd 10 hm
    simp at this
  · have hp : p.takeWhile (· ≠ 10) ++ c :: rest = p := by
      rw [← hd, List.takeWhile_append_dropWhile]
    have hc : c = 10 := by
      have := List.head?_dropWhile_not (· ≠ (10 : UInt8)) p
      rw [hd] at this
      simpa using this
    subst hc
    have hne : (10 : UInt8) ∉ p.takeWhile (· ≠ 10) := fun hm => by
      have := List.mem_takeWhile_imp hm
      simp at this
    refine .inr ⟨p.takeWhile (· ≠ 10), rest, ?_, ?_, ?_⟩
    · simp only [readline, hd, cut]
      have htake : ∀ n ≤ (p.takeWhile (· ≠ 10)).length, p.take n = (p.takeWhile (· ≠ 10)).take n := by
        intro n hn
        conv_lhs => rw [← hp]
        exact List.take_append_of_le_length hn
      split_ifs with hlen
      · rw [htake _ (by omega)]
      · rw [Nat.add_sub_cancel, htake _ le_rfl, List.take_length]
    · conv_lhs => rw [← hp]
      rw [List.splitOn_append_cons_self, List.splitOn_eq_singleton hne]
      rfl
    · have := congrArg List.length hp
      simp only [List.length_append, List.length_cons] at this
      omega

theorem readlines_eq : ∀ {n : ℕ} {p : Bytes}, p.length < n →
    readlines 8192 n p = (p.splitOn 10).dropLast.map cut
  | n + 1, p, h => by
    rcases readline_splitOn p with ⟨h1, h2⟩ | ⟨l, rest, h1, h2, h3⟩
    · rw [h2]
      simp only [readlines, h1]
      rfl
    · rw [h2, List.dropLast_cons_of_ne_nil (List.splitOn_ne_nil _ _)]
      simp only [readlines, h1, List.map_cons]
      rw [readlines_eq (by omega)]

theorem skipped_cut (l : Bytes) : skipped (cut l) = skipped l := by
  unfold cut
  split_ifs
  · rcases l with _ | ⟨c, l⟩
    · rfl
    · simp [skipped]
  · rfl

theorem filter_cut (ls : List Bytes) :
    (ls.map cut).filter (!skipped ·) = (ls.filter (!skipped ·)).map cut := by
  rw [List.filter_map]
  simp only [Function.comp_def, skipped_cut]

theorem cut_prefix (l : Bytes) : ∃ t, cut l ++ t = l := by
  unfold cut
  split_ifs
  · exact ⟨_, List.take_append_drop _ _⟩
  · exact ⟨[], List.append_nil l⟩

theorem ids_filter (e : Env) : ∀ (ls : List Bytes) (sz : ℕ) (us : List User),
    ids e ls sz us = ids e (ls.filter (!skipped ·)) sz us
  | [], _, _ => rfl
  | l :: ls, sz, us => by
    rcases hs : skipped l with _ | _
    · rw [List.filter_cons_of_pos (by simp [hs])]
      unfold ids
      simp only [hs, Bool.false_eq_true, if_false, ids_filter e ls]
    · rw [List.filter_cons_of_neg (by simp [hs])]
      conv_lhs => unfold ids
      rw [hs, if_pos rfl]
      exact ids_filter e ls sz us

theorem groups_filter (e : Env) : ∀ (ls : List Bytes) (i : ℕ) (us : List User),
    groups e ls i us = groups e (ls.filter (!skipped ·)) i us
  | [], _, _ => rfl
  | l :: ls, i, us => by
    rcases hs : skipped l with _ | _
    · rw [List.filter_cons_of_pos (by simp [hs])]
      unfold groups
      simp only [hs, Bool.false_eq_true, if_false, groups_filter e ls]
    · rw [List.filter_cons_of_neg (by simp [hs])]
      conv_lhs => unfold groups
      rw [hs, if_pos rfl]
      exact groups_filter e ls i us

end Lines

/-! ## The first pass -/

section Ids

variable {e : Env} {l : Bytes} {ls : List Bytes} {us r : List User}

/-- The `k`-th field of a line. -/
def field (k : ℕ) (l : Bytes) : Option Bytes := (l.splitOn 58)[k]?

/-- The `k`-th field, nothing where there is none. -/
def fieldD (k : ℕ) (l : Bytes) : Bytes := (field k l).getD []

/-- The `i`-th user as the first pass leaves it. -/
def user (e : Env) (i : ℕ) (l : Bytes) : User :=
  ⟨atol (fieldD 0 l), e.lead i, [], e.snprint (fieldD 1 l)⟩

theorem ids_cons (hs : skipped l = false) (sz : ℕ) : ids e (l :: ls) sz us
    = if us.length = sz ∧ e.grow sz = false then .error .enomem
      else if (field 1 l).isSome then
        ids e ls (if us.length = sz then 2 * sz else sz) (us ++ [user e us.length l])
      else .error Err.esyntax := by
  obtain ⟨h1, h2⟩ := getfield_left (p := some l) (d := 58) rfl
  obtain ⟨h3, -⟩ := getfield_left h2
  rcases hg : getfield (some l) 58 with ⟨f, p⟩
  rcases hg' : getfield p 58 with ⟨f', p'⟩
  simp only [hg, hg'] at h1 h2 h3
  rcases hl : l.splitOn 58 with _ | ⟨id, fs⟩
  · exact absurd hl (List.splitOn_ne_nil _ _)
  simp only [hl, List.head?_cons, List.tail_cons] at h1 h3
  conv_lhs => unfold ids
  simp only [hs, Bool.false_eq_true, if_false, hg, h1, hg', h3]
  rcases fs with _ | ⟨name, fs⟩
  · have hf : field 1 l = none := by rw [field, hl]; rfl
    simp only [hf, List.head?_nil, Option.isSome_none, Bool.false_eq_true, if_false]
  · have hf0 : field 0 l = some id := by rw [field, hl]; rfl
    have hf1 : field 1 l = some name := by rw [field, hl]; rfl
    simp only [user, fieldD, hf0, hf1, List.head?_cons, Option.getD_some, Option.isSome_some, if_true]

/-- The users of a text whose lines have names, if the table can grow to take them. -/
theorem ids_eq_ok_iff : ∀ {ls : List Bytes} {sz : ℕ} {us r : List User},
    (∀ l ∈ ls, skipped l = false) → us.length ≤ sz → 0 < sz →
      (ids e ls sz us = .ok r ↔ (∀ j, sz * 2 ^ j < us.length + ls.length → e.grow (sz * 2 ^ j) = true)
        ∧ (∀ l ∈ ls, (field 1 l).isSome)
        ∧ r = us ++ ls.mapIdx fun i l => user e (us.length + i) l)
  | [], sz, us, r, _, hle, hpos => by
    have hj : ∀ j, ¬ sz * 2 ^ j < us.length := fun j => by
      have := Nat.le_mul_of_pos_right sz (Nat.two_pow_pos j)
      omega
    have heq : us = r ↔ r = us := eq_comm
    simp [ids.eq_1, hj, heq]
  | l :: ls, sz, us, r, hs, hle, hpos => by
    rw [List.forall_mem_cons] at hs
    rw [ids_cons hs.1, List.length_cons]
    have hgrow : (∀ j, sz * 2 ^ j < us.length + (ls.length + 1) → e.grow (sz * 2 ^ j) = true)
        ↔ ¬ (us.length = sz ∧ e.grow sz = false)
          ∧ ∀ j, (if us.length = sz then 2 * sz else sz) * 2 ^ j < us.length + 1 + ls.length →
            e.grow ((if us.length = sz then 2 * sz else sz) * 2 ^ j) = true := by
      have hassoc : us.length + (ls.length + 1) = us.length + 1 + ls.length := by ring
      rw [hassoc]
      by_cases heq : us.length = sz
      · simp only [heq, if_true, true_and, Bool.not_eq_false]
        constructor
        · intro h
          refine ⟨by simpa using h 0 (by omega), fun j hj => ?_⟩
          have := h (j + 1) (by rw [pow_succ]; linarith)
          rwa [show sz * 2 ^ (j + 1) = 2 * sz * 2 ^ j by ring] at this
        · rintro ⟨h0, h⟩ j hj
          rcases j with _ | j
          · simpa using h0
          · rw [show sz * 2 ^ (j + 1) = 2 * sz * 2 ^ j by ring] at hj ⊢
            exact h j hj
      · simp [heq]
    rw [hgrow, List.forall_mem_cons]
    have ih := @ids_eq_ok_iff ls (if us.length = sz then 2 * sz else sz)
      (us ++ [user e us.length l]) r hs.2
      (by rw [List.length_append, List.length_singleton]; split_ifs <;> omega)
      (by split_ifs <;> omega)
    rw [List.length_append, List.length_singleton] at ih
    by_cases hg : us.length = sz ∧ e.grow sz = false
    · simp [hg]
    rw [if_neg hg]
    by_cases hf : (field 1 l).isSome
    · rw [if_pos hf, ih]
      have hmap : (l :: ls).mapIdx (fun i l => user e (us.length + i) l)
          = user e us.length l :: ls.mapIdx fun i l => user e (us.length + 1 + i) l := by
        rw [List.mapIdx_cons]
        simp only [add_zero, add_assoc, add_comm 1]
      rw [hmap, List.append_assoc, List.singleton_append]
      simp only [hg, hf, not_false_eq_true, true_and]
    · simp [hf]

end Ids

/-! ## The second pass -/

section Groups

variable {e : Env} {l f : Bytes} {ls : List Bytes} {us r : List User}

/-- The id of the last of `ks` with the name `f`. -/
def lookup (ks : List (Int32 × Bytes)) (f : Bytes) : Option Int32 :=
  (ks.reverse.find? (·.2 = f)).map (·.1)

def User.key (u : User) : Int32 × Bytes := (u.id, u.name)

theorem find_eq (us : List User) (f : Bytes) : find us f = us.reverse.find? (·.name = f) := by
  induction us using List.reverseRecOn with
  | nil => rfl
  | append_singleton us u ih =>
    have hstep : find (us ++ [u]) f = if u.name = f then some u else find us f := by
      simp [find, List.foldl_append]
    rw [hstep, ih, List.reverse_append, List.reverse_singleton, List.singleton_append,
      List.find?_cons]
    by_cases h : u.name = f <;> simp [h]

theorem map_id_find (us : List User) (f : Bytes) :
    (find us f).map User.id = lookup (us.map User.key) f := by
  rw [find_eq, lookup, ← List.map_reverse, List.find?_map, Option.map_map]
  rfl

theorem lookup_eq_some {ks : List (Int32 × Bytes)} {x : Int32} (h : lookup ks f = some x) :
    (x, f) ∈ ks := by
  obtain ⟨⟨y, g⟩, hk, rfl⟩ := Option.map_eq_some_iff.1 h
  have hg := List.find?_some hk
  simp only [decide_eq_true_eq] at hg
  rw [← hg]
  exact List.mem_reverse.1 (List.mem_of_find?_eq_some hk)

/-- The names of a member field. -/
def names (f : Bytes) : List Bytes := (f.splitOn 44).filter (· ≠ [])

theorem names_cons (m : Bytes) (ms : List Bytes) :
    (m :: ms).filter (· ≠ []) = if m = [] then ms.filter (· ≠ []) else m :: ms.filter (· ≠ []) := by
  by_cases h : m = [] <;> simp [h]

theorem members_eq_ok_iff {i : ℕ} : ∀ {ms : List Bytes} {grp g : List Int32},
    members e us i ms grp = .ok g
      ↔ (∀ m ∈ ms.filter (· ≠ []), (lookup (us.map User.key) m).isSome)
        ∧ (∀ j < (ms.filter (· ≠ [])).length, e.memb i (grp.length + j) = true)
        ∧ g = grp ++ (ms.filter (· ≠ [])).map fun m => (lookup (us.map User.key) m).getD 0
  | [], grp, g => by
    have heq : grp = g ↔ g = grp := eq_comm
    simp [members, heq]
  | m :: ms, grp, g => by
    unfold members
    rw [names_cons]
    by_cases hm : m = []
    · rw [if_pos hm, if_pos hm]
      exact members_eq_ok_iff
    rw [if_neg hm, if_neg hm, List.forall_mem_cons, List.map_cons, List.length_cons, ← map_id_find]
    rcases find us m with _ | u
    · simp
    by_cases hroom : e.memb i grp.length = true
    · simp only [if_pos hroom, members_eq_ok_iff, Option.map_some, Option.isSome_some, true_and,
        Option.getD_some, List.length_append, List.length_singleton, List.append_assoc,
        List.singleton_append]
      refine and_congr_right fun _ => and_congr_left fun _ => ?_
      constructor
      · rintro h (_ | j) hj
        · exact hroom
        · rw [← Nat.add_assoc, Nat.add_right_comm]
          exact h j (by omega)
      · intro h j hj
        rw [Nat.add_assoc, Nat.add_comm 1]
        exact h (j + 1) (by omega)
    · simp only [if_neg hroom, reduceCtorEq, false_iff, not_and]
      exact fun _ h => absurd (h 0 (Nat.succ_pos _)) hroom

theorem key_modify {g : User → User} (h : ∀ u, (g u).key = u.key) (us : List User) (i : ℕ) :
    (us.modify i g).map User.key = us.map User.key := by
  refine List.ext_getElem? fun j => ?_
  simp only [List.getElem?_map, List.getElem?_modify]
  rcases us[j]? with _ | u
  · rfl
  · by_cases hij : i = j <;> simp [hij, h]

/-- What the second pass asks of the `i`-th user's line, `ks` being the ids and names. -/
structure LineOk (e : Env) (ks : List (Int32 × Bytes)) (i : ℕ) (l : Bytes) : Prop where
  fields : 4 ≤ (l.splitOn 58).length
  lead : fieldD 2 l ≠ [] → (lookup ks (fieldD 2 l)).isSome
  memb : ∀ m ∈ names (fieldD 3 l), (lookup ks m).isSome
  room : ∀ j < (names (fieldD 3 l)).length, e.memb i j = true

/-- A user with the leader and the members of the line. -/
def upd (ks : List (Int32 × Bytes)) (l : Bytes) (u : User) : User :=
  { u with
    lead := if fieldD 2 l = [] then u.lead else (lookup ks (fieldD 2 l)).getD 0
    memb := (names (fieldD 3 l)).map fun m => (lookup ks m).getD 0 }

/-- The members of a line, `us` having the ids and names `ks`. -/
theorem members_getfields {ks : List (Int32 × Bytes)} {i : ℕ} {g : List Int32}
    (hk : us.map User.key = ks) : members e us i (getfields 44 (f.length + 1) (some f)) [] = .ok g
      ↔ (∀ m ∈ names f, (lookup ks m).isSome) ∧ (∀ j < (names f).length, e.memb i j = true)
        ∧ g = (names f).map fun m => (lookup ks m).getD 0 := by
  have hleft : Left 44 (some f) (f.splitOn 44) := rfl
  rw [getfields_left hleft (length_splitOn_le f), members_eq_ok_iff, hk]
  simp only [List.length_nil, Nat.zero_add, List.nil_append]
  rfl

theorem groups_cons (hs : skipped l = false) (i : ℕ) : groups e (l :: ls) i us = .ok r
    ↔ LineOk e (us.map User.key) i l
      ∧ groups e ls (i + 1) (us.modify i (upd (us.map User.key) l)) = .ok r := by
  obtain ⟨-, h1⟩ := getfield_left (p := some l) (d := 58) rfl
  obtain ⟨-, h2⟩ := getfield_left h1
  obtain ⟨h3, h3'⟩ := getfield_left h2
  obtain ⟨h4, -⟩ := getfield_left h3'
  conv_lhs => unfold groups
  simp only [hs, Bool.false_eq_true, if_false]
  rcases hg3 : getfield (getfield (getfield (some l) 58).2 58).2 58 with ⟨f, p⟩
  rcases hg4 : getfield p 58 with ⟨g, p'⟩
  rw [hg3] at h3 h4
  rw [hg4] at h4
  have hshort : (l.splitOn 58).length < 4 → ¬ LineOk e (us.map User.key) i l := fun h hl => by
    have := hl.fields
    omega
  rcases hfs : l.splitOn 58 with _ | ⟨f0, _ | ⟨f1, _ | ⟨f2, _ | ⟨f3, fs⟩⟩⟩⟩
  · exact absurd hfs (List.splitOn_ne_nil _ _)
  all_goals
    rw [hfs] at h3 h4 hshort
    simp only [List.tail_cons, List.tail_nil, List.head?_nil, List.head?_cons] at h3 h4
    subst h3 h4
  -- the lines with fewer than four fields
  · simp [hshort (by simp)]
  · simp [hshort (by simp)]
  · have hno := hshort (by simp)
    by_cases h2 : f2 = []
    · simp [hno, hg4, h2, Effects.bind_eq_ok_iff]
    · rcases hfind : find us f2 with _ | u <;> simp [hno, hg4, h2, hfind, Effects.bind_eq_ok_iff]
  have hf2 : fieldD 2 l = f2 := by rw [fieldD, field, hfs]; rfl
  have hf3 : fieldD 3 l = f3 := by rw [fieldD, field, hfs]; rfl
  have hline : LineOk e (us.map User.key) i l
      ↔ (f2 ≠ [] → (lookup (us.map User.key) f2).isSome)
        ∧ (∀ m ∈ names f3, (lookup (us.map User.key) m).isSome)
        ∧ ∀ j < (names f3).length, e.memb i j = true := by
    subst hf2 hf3
    exact ⟨fun h => ⟨h.lead, h.memb, h.room⟩, fun h => ⟨by simp [hfs], h.1, h.2.1, h.2.2⟩⟩
  rw [hline]
  by_cases h2 : f2 = []
  · simp only [h2, ne_eq, not_true_eq_false, if_false, hg4, Effects.bind_eq_ok_iff, Except.ok.injEq,
      exists_eq_left', members_getfields rfl]
    have hupd : upd (us.map User.key) l = fun x => { x with
        memb := (names f3).map fun m => (lookup (us.map User.key) m).getD 0 } := by
      funext x
      simp only [upd, hf2, hf3, h2, if_true]
    rw [hupd]
    constructor
    · rintro ⟨grp, ⟨hm, hroom, rfl⟩, h⟩
      exact ⟨⟨by simp, hm, hroom⟩, h⟩
    · rintro ⟨⟨-, hm, hroom⟩, h⟩
      exact ⟨_, ⟨hm, hroom, rfl⟩, h⟩
  · have hlk := map_id_find us f2
    rcases hfind : find us f2 with _ | u
    · rw [hfind] at hlk
      simp [h2, hfind, Effects.bind_eq_ok_iff, ← hlk]
    · rw [hfind] at hlk
      have hk : (us.modify i fun x => { x with lead := u.id }).map User.key = us.map User.key :=
        key_modify (g := fun x => { x with lead := u.id }) (fun _ => rfl) us i
      simp only [h2, ne_eq, not_false_eq_true, if_true, hfind, hg4, Effects.bind_eq_ok_iff,
        Except.ok.injEq, exists_eq_left', members_getfields hk, List.modify_modify_eq,
        ← hlk, Option.map_some, Option.isSome_some, true_and, imp_true_iff]
      have hupd : ∀ grp, grp = (names f3).map (fun m => (lookup (us.map User.key) m).getD 0) →
          (fun x : User => { x with memb := grp }) ∘ (fun x : User => { x with lead := u.id })
            = upd (us.map User.key) l := by
        rintro grp rfl
        funext x
        simp only [upd, hf2, hf3, h2, if_false, ← hlk, Option.map_some, Option.getD_some,
          Function.comp_apply]
      constructor
      · rintro ⟨grp, ⟨hm, hroom, hgrp⟩, h⟩
        rw [hupd grp hgrp] at h
        exact ⟨⟨hm, hroom⟩, h⟩
      · rintro ⟨⟨hm, hroom⟩, h⟩
        refine ⟨_, ⟨hm, hroom, rfl⟩, ?_⟩
        rw [hupd _ rfl]
        exact h

theorem key_upd (ks : List (Int32 × Bytes)) (l : Bytes) (u : User) : (upd ks l u).key = u.key := rfl

/-- The leaders and members of all lines, `done` being the users of those before. -/
theorem groups_eq_ok_iff {ks : List (Int32 × Bytes)} : ∀ {ls : List Bytes} {done rest r : List User},
    (∀ l ∈ ls, skipped l = false) → rest.length = ls.length → (done ++ rest).map User.key = ks →
      (groups e ls done.length (done ++ rest) = .ok r
        ↔ (∀ k l, ls[k]? = some l → LineOk e ks (done.length + k) l)
          ∧ r = done ++ List.zipWith (upd ks) ls rest)
  | [], done, [], r, _, _, _ => by
    have heq : done = r ↔ r = done := eq_comm
    simp [groups.eq_1, heq]
  | l :: ls, done, u :: rest, r, hs, hlen, hk => by
    rw [List.forall_mem_cons] at hs
    rw [groups_cons hs.1, hk]
    have hmod : (done ++ u :: rest).modify done.length (upd ks l) = done ++ [upd ks l u] ++ rest := by
      rw [List.modify_eq_take_cons_drop (by simp)]
      simp
    have hk' : (done ++ [upd ks l u] ++ rest).map User.key = ks := by
      rw [← hmod, key_modify (key_upd ks l), hk]
    have ih := groups_eq_ok_iff (r := r) hs.2 (by simpa using hlen) hk'
    rw [List.length_append, List.length_singleton] at ih
    rw [hmod, ih, List.zipWith_cons_cons, List.append_assoc, List.singleton_append, ← and_assoc]
    refine and_congr_left fun _ => ?_
    constructor
    · rintro ⟨h0, h⟩ (_ | k) x hx
      · obtain rfl : l = x := by simpa using hx
        exact h0
      · rw [← Nat.add_assoc, Nat.add_right_comm]
        exact h k x (by simpa using hx)
    · intro h
      refine ⟨h 0 l rfl, fun k x hx => ?_⟩
      rw [Nat.add_assoc, Nat.add_comm 1]
      exact h (k + 1) x (by simpa using hx)

end Groups

/-! ## The whole text -/

section Load

variable {e : Env} {l m : Bytes} {ls : List Bytes} {us : List User} {udata : Bytes}

/-- The ids and names that lines give their users. -/
def keys (e : Env) (ls : List Bytes) : List (Int32 × Bytes) :=
  ls.map fun l => (atol (fieldD 0 l), e.snprint (fieldD 1 l))

/-- The table that comes of lines. -/
def table (e : Env) (ls : List Bytes) : List User :=
  List.zipWith (upd (keys e ls)) ls (ls.mapIdx (user e))

/-- Lines with four fields that name users only, and memory for all of them. -/
structure Accepts (e : Env) (ls : List Bytes) : Prop where
  calloc : e.calloc = true
  grow : ∀ j, usersz * 2 ^ j < ls.length → e.grow (usersz * 2 ^ j) = true
  line : ∀ i l, ls[i]? = some l → LineOk e (keys e ls) i l

theorem key_mapIdx (e : Env) (ls : List Bytes) : (ls.mapIdx (user e)).map User.key = keys e ls := by
  refine List.ext_getElem? fun i => ?_
  simp only [keys, List.getElem?_map, List.getElem?_mapIdx, Option.map_map]
  rfl

theorem getElem?_table (e : Env) (ls : List Bytes) (i : ℕ) :
    (table e ls)[i]? = ls[i]?.map fun l => upd (keys e ls) l (user e i l) := by
  rw [table, List.getElem?_zipWith, List.getElem?_mapIdx]
  rcases ls[i]? with _ | l <;> rfl

theorem key_table (e : Env) (ls : List Bytes) : (table e ls).map User.key = keys e ls := by
  refine List.ext_getElem? fun i => ?_
  rw [List.getElem?_map, getElem?_table, ← key_mapIdx, List.getElem?_map, List.getElem?_mapIdx]
  rcases ls[i]? with _ | l <;> rfl

theorem field_eq_some {k : ℕ} (h : k < (l.splitOn 58).length) : field k l = some (fieldD k l) := by
  rw [fieldD, field, List.getElem?_eq_getElem h]
  rfl

theorem passes_eq_ok_iff {r : List User} (hs : ∀ l ∈ ls, skipped l = false) :
    (ids e ls usersz [] >>= groups e ls 0) = .ok r
      ↔ ((∀ j, usersz * 2 ^ j < ls.length → e.grow (usersz * 2 ^ j) = true)
        ∧ ∀ i l, ls[i]? = some l → LineOk e (keys e ls) i l) ∧ r = table e ls := by
  rw [Effects.bind_eq_ok_iff]
  have hid := fun r => @ids_eq_ok_iff e ls usersz [] r hs (Nat.zero_le _) (by decide)
  have hgr := fun r => @groups_eq_ok_iff e (keys e ls) ls [] (ls.mapIdx (user e)) r hs
    List.length_mapIdx (key_mapIdx e ls)
  simp only [List.length_nil, Nat.zero_add, List.nil_append] at hid hgr
  simp only [hid]
  constructor
  · rintro ⟨_, ⟨hgrow, -, rfl⟩, h⟩
    obtain ⟨h1, h2⟩ := (hgr r).1 h
    exact ⟨⟨hgrow, h1⟩, h2⟩
  · rintro ⟨⟨hgrow, hline⟩, h⟩
    refine ⟨_, ⟨hgrow, fun l hl => ?_, rfl⟩, (hgr r).2 ⟨hline, h⟩⟩
    obtain ⟨i, hi⟩ := List.getElem?_of_mem hl
    have := (hline i l hi).fields
    rw [field_eq_some (by omega)]
    rfl

theorem skipped_userLines : ∀ l ∈ (userLines udata).map cut, skipped l = false := by
  intro l hl
  obtain ⟨l', hl', rfl⟩ := List.mem_map.1 hl
  rw [skipped_cut]
  simpa using (List.mem_filter.1 hl').2

/-- The text is accepted and its table put in place, or the table stays what it was. -/
theorem parseusers_cases (e : Env) (users : List User) (udata : Bytes) :
    Accepts e ((userLines udata).map cut)
        ∧ parseusers e users udata = (none, table e ((userLines udata).map cut))
      ∨ ¬ Accepts e ((userLines udata).map cut) ∧ ∃ x, parseusers e users udata = (some x, users) := by
  have hread : readlines 8192 (udata.length + 1) (cstr udata) = (completeLines udata).map cut := by
    refine readlines_eq ?_
    have := (List.takeWhile_prefix (l := udata) (· ≠ (0 : UInt8))).length_le
    rw [cstr]
    omega
  have hids : ids e ((completeLines udata).map cut) usersz []
      = ids e ((userLines udata).map cut) usersz [] := by
    rw [ids_filter, filter_cut]
    rfl
  have hgroups : groups e ((completeLines udata).map cut) 0
      = groups e ((userLines udata).map cut) 0 := by
    funext us
    rw [groups_filter, filter_cut]
    rfl
  have hskip : ∀ l ∈ (userLines udata).map cut, skipped l = false := skipped_userLines
  have hok := fun r => passes_eq_ok_iff (e := e) (r := r) hskip
  unfold parseusers
  simp only [hread, hids, hgroups]
  by_cases hc : e.calloc = false
  · rw [if_pos hc]
    exact .inr ⟨fun h => by simp [h.calloc] at hc, _, rfl⟩
  rw [if_neg hc]
  rcases hr : ids e ((userLines udata).map cut) usersz [] >>= groups e ((userLines udata).map cut) 0
    with x | r
  · refine .inr ⟨fun h => ?_, x, rfl⟩
    have := (hok _).2 ⟨⟨h.grow, h.line⟩, rfl⟩
    rw [hr] at this
    cases this
  · obtain ⟨⟨h1, h2⟩, rfl⟩ := (hok r).1 hr
    exact .inl ⟨⟨by simpa using hc, h1, h2⟩, rfl⟩

/-- `u` is the user that the line `l` describes, among `us`. -/
structure Describes (us : List User) (l : Bytes) (u : User) : Prop where
  id : (field 0 l).map atol = some u.id
  name : field 1 l = some u.name
  lead : ∃ f, field 2 l = some f
    ∧ if f = [] then u.lead = 0 else ∃ v ∈ us, v.name = f ∧ v.id = u.lead
  memb : ∃ f, field 3 l = some f
    ∧ List.Forall₂ (fun m id => ∃ v ∈ us, v.name = m ∧ v.id = id) (names f) u.memb

/-- A text that is refused leaves the table as it was, one that is accepted is what the table then
says. -/
def Loads (e : Env) (users : List User) (udata : Bytes) : Prop :=
  match parseusers e users udata with
  | (some _, us) => us = users
  | (none, us) => List.Forall₂ (Describes us) (userLines udata) us

/-- Names are stored whole, what `realloc` adds is clear where a line has no leader, and the members
that a long line names in the part that is read have, one by one, the ids of those of the line. -/
structure Faithful (e : Env) (ls : List Bytes) : Prop where
  name : ∀ l ∈ ls, e.snprint (fieldD 1 l) = fieldD 1 l
  lead : ∀ i l, ls[i]? = some l → usersz ≤ i → fieldD 2 l = [] → e.junk i = 0
  memb : ∀ l ∈ ls, 8192 ≤ l.length + 1 → List.Forall₂
    (fun m m' => ∃ x, (x, m) ∈ keys e ls ∧ lookup (keys e ls) m' = some x)
    (names (fieldD 3 l)) (names (fieldD 3 (cut l)))

/-- The fields of a line that end in the part that is read. -/
theorem fieldD_cut (h : 4 ≤ ((cut l).splitOn 58).length) {k : ℕ} (hk : k < 3) :
    fieldD k l = fieldD k (cut l) := by
  obtain ⟨t, ht⟩ := cut_prefix l
  have hget := getElem?_splitOn_append (t := t) (s := cut l) (d := 58) (k := k) (by omega)
  rw [ht] at hget
  rw [fieldD, fieldD, field, field, hget]

theorem length_splitOn_cut (l : Bytes) : ((cut l).splitOn 58).length ≤ (l.splitOn 58).length := by
  obtain ⟨t, ht⟩ := cut_prefix l
  have := length_splitOn_append (d := 58) (t := t) (cut l)
  rwa [ht] at this

theorem keys_cut (h : ∀ l ∈ ls, 4 ≤ ((cut l).splitOn 58).length) :
    keys e (ls.map cut) = keys e ls := by
  rw [keys, List.map_map]
  refine List.map_congr_left fun l hl => ?_
  simp only [Function.comp_apply, fieldD_cut (h l hl) (by decide : 0 < 3),
    fieldD_cut (h l hl) (by decide : 1 < 3)]

theorem exists_mem_iff {ks : List (Int32 × Bytes)} (hk : us.map User.key = ks) {x : Int32} :
    (∃ v ∈ us, v.name = m ∧ v.id = x) ↔ (x, m) ∈ ks := by
  rw [← hk, List.mem_map]
  refine exists_congr fun v => and_congr_right fun _ => ?_
  rw [User.key, Prod.mk.injEq, and_comm]

theorem forall₂_lookup {ks : List (Int32 × Bytes)} : ∀ {fs gs : List Bytes},
    (∀ m ∈ gs, (lookup ks m).isSome) →
      (List.Forall₂ (fun m x => (x, m) ∈ ks) fs (gs.map fun m => (lookup ks m).getD 0)
        ↔ List.Forall₂ (fun m m' => ∃ x, (x, m) ∈ ks ∧ lookup ks m' = some x) fs gs)
  | [], [], _ => by simp
  | [], _ :: _, _ => by simp
  | _ :: _, [], _ => by simp
  | f :: fs, g :: gs, h => by
    rw [List.forall_mem_cons] at h
    obtain ⟨x, hx⟩ := Option.isSome_iff_exists.1 h.1
    rw [List.map_cons, List.forall₂_cons, List.forall₂_cons, forall₂_lookup h.2, hx]
    simp

/-- When the `i`-th user is the one its line describes. -/
theorem describes_iff {ks : List (Int32 × Bytes)} (hk : us.map User.key = ks) {i : ℕ}
    (h : LineOk e ks i (cut l)) :
    Describes us l (upd ks (cut l) (user e i (cut l)))
      ↔ e.snprint (fieldD 1 l) = fieldD 1 l ∧ (fieldD 2 l = [] → e.lead i = 0)
        ∧ (8192 ≤ l.length + 1 → List.Forall₂
          (fun m m' => ∃ x, (x, m) ∈ ks ∧ lookup ks m' = some x)
          (names (fieldD 3 l)) (names (fieldD 3 (cut l)))) := by
  have hlen := h.fields
  have hlen' := hlen.trans (length_splitOn_cut l)
  have hf0 := field_eq_some (l := l) (k := 0) (by omega)
  have hf1 := field_eq_some (l := l) (k := 1) (by omega)
  have hf2 := field_eq_some (l := l) (k := 2) (by omega)
  have hf3 := field_eq_some (l := l) (k := 3) (by omega)
  have hlead := h.lead
  have hmemb := @forall₂_lookup _ (names (fieldD 3 l)) _ h.memb
  rw [← fieldD_cut hlen (by decide : 2 < 3)] at hlead
  have hu : upd ks (cut l) (user e i (cut l)) = ⟨atol (fieldD 0 l),
      if fieldD 2 l = [] then e.lead i else (lookup ks (fieldD 2 l)).getD 0,
      (names (fieldD 3 (cut l))).map fun m => (lookup ks m).getD 0, e.snprint (fieldD 1 l)⟩ := by
    simp only [upd, user, ← fieldD_cut hlen (by decide : 0 < 3),
      ← fieldD_cut hlen (by decide : 1 < 3), ← fieldD_cut hlen (by decide : 2 < 3)]
  rw [hu]
  constructor
  · rintro ⟨-, hn, ⟨f, hf, hl⟩, ⟨g, hg, hm⟩⟩
    obtain rfl := Option.some.inj (hf2.symm.trans hf)
    obtain rfl := Option.some.inj (hf3.symm.trans hg)
    refine ⟨(Option.some.inj (hf1.symm.trans hn)).symm, fun h2 => ?_, fun _ => ?_⟩
    · simpa only [h2, if_true] using hl
    · simp only [exists_mem_iff hk] at hm
      exact hmemb.1 hm
  · rintro ⟨hn, hl, hm⟩
    refine ⟨by rw [hf0]; rfl, by rw [hf1, hn], ⟨_, hf2, ?_⟩, ⟨_, hf3, ?_⟩⟩
    · split_ifs with h2
      · exact hl h2
      · obtain ⟨x, hx⟩ := Option.isSome_iff_exists.1 (hlead h2)
        rw [exists_mem_iff hk]
        simp only [hx, Option.getD_some]
        exact lookup_eq_some hx
    · simp only [exists_mem_iff hk]
      refine hmemb.2 ?_
      by_cases hlong : 8192 ≤ l.length + 1
      · exact hm hlong
      · -- the line is read as it is
        have hcut : cut l = l := if_neg hlong
        rw [hcut]
        refine List.forall₂_same.2 fun m hm => ?_
        have hsome := h.memb m (by rw [hcut]; exact hm)
        obtain ⟨x, hx⟩ := Option.isSome_iff_exists.1 hsome
        exact ⟨x, lookup_eq_some hx, hx⟩

theorem lead_eq_zero_iff {i : ℕ} : e.lead i = 0 ↔ (usersz ≤ i → e.junk i = 0) := by
  unfold Env.lead
  split_ifs with h
  · simp only [true_iff]
    exact fun h' => absurd h (not_lt.2 h')
  · exact ⟨fun h' _ => h', fun h' => h' (not_lt.1 h)⟩

theorem forall₂_mapIdx {α β : Type} {R : α → β → Prop} : ∀ {as : List α} {f : ℕ → α → β},
    List.Forall₂ R as (as.mapIdx f) ↔ ∀ i a, as[i]? = some a → R a (f i a)
  | [], f => by simp
  | a :: as, f => by
    rw [List.mapIdx_cons, List.forall₂_cons, forall₂_mapIdx]
    constructor
    · rintro ⟨h0, h⟩ (_ | i) x hx
      · obtain rfl : a = x := by simpa using hx
        exact h0
      · exact h i x (by simpa using hx)
    · exact fun h => ⟨h 0 a rfl, fun i x hx => h (i + 1) x (by simpa using hx)⟩

theorem faithful_iff : Faithful e ls ↔ ∀ i l, ls[i]? = some l →
    e.snprint (fieldD 1 l) = fieldD 1 l ∧ (fieldD 2 l = [] → e.lead i = 0)
      ∧ (8192 ≤ l.length + 1 → List.Forall₂
        (fun m m' => ∃ x, (x, m) ∈ keys e ls ∧ lookup (keys e ls) m' = some x)
        (names (fieldD 3 l)) (names (fieldD 3 (cut l)))) := by
  constructor
  · intro h i l hl
    have hmem := List.mem_of_getElem? hl
    exact ⟨h.name l hmem, fun h2 => lead_eq_zero_iff.2 fun hi => h.lead i l hl hi h2,
      h.memb l hmem⟩
  · intro h
    refine ⟨fun l hl => ?_, fun i l hl hi h2 => lead_eq_zero_iff.1 ((h i l hl).2.1 h2) hi,
      fun l hl => ?_⟩
    all_goals
      obtain ⟨i, hi⟩ := List.getElem?_of_mem hl
    · exact (h i l hi).1
    · exact (h i l hi).2.2

/-- The lines that an accepted table was made of. -/
theorem Accepts.cut (h : Accepts e (ls.map cut)) : keys e (ls.map cut) = keys e ls
    ∧ (∀ i l, ls[i]? = some l → LineOk e (keys e ls) i (Users.cut l))
    ∧ table e (ls.map cut) = ls.mapIdx fun i l =>
      upd (keys e ls) (Users.cut l) (user e i (Users.cut l)) := by
  have hfields : ∀ l ∈ ls, 4 ≤ ((Users.cut l).splitOn 58).length := fun l hl => by
    obtain ⟨i, hi⟩ := List.getElem?_of_mem (List.mem_map_of_mem (f := Users.cut) hl)
    exact (h.line i _ hi).fields
  have hk := keys_cut (e := e) hfields
  refine ⟨hk, fun i l hl => ?_, List.ext_getElem? fun i => ?_⟩
  · have := h.line i (Users.cut l) (by rw [List.getElem?_map, hl]; rfl)
    rwa [hk] at this
  · rw [getElem?_table, hk, List.getElem?_map, List.getElem?_mapIdx]
    rcases ls[i]? with _ | l <;> rfl

/-- A text is loaded right unless it is accepted with a name that is not stored whole, memory that is
not clear, or a line that is cut among its members. -/
theorem loads_iff (e : Env) (users : List User) (udata : Bytes) : Loads e users udata
    ↔ (Accepts e ((userLines udata).map cut) → Faithful e (userLines udata)) := by
  unfold Loads
  rcases parseusers_cases e users udata with ⟨hacc, heq⟩ | ⟨hno, x, heq⟩
  · rw [heq]
    obtain ⟨hk, hline, htable⟩ := hacc.cut
    have hkey : (table e ((userLines udata).map cut)).map User.key = keys e (userLines udata) := by
      rw [key_table, hk]
    have hdesc : ∀ i l, (userLines udata)[i]? = some l → _ := fun i l hl =>
      describes_iff hkey (hline i l hl)
    simp only [hacc, true_imp_iff, faithful_iff]
    generalize table e ((userLines udata).map cut) = us at htable hdesc ⊢
    nth_rewrite 2 [htable]
    rw [forall₂_mapIdx]
    exact forall_congr' fun i => forall_congr' fun l => imp_congr_right fun hl => hdesc i l hl
  · rw [heq]
    simp [hno]

/-- Nine users, none with a leader or members. -/
def nineUsers : Bytes :=
  (List.range 9).flatMap fun i => [49 + UInt8.ofNat i, 58, 97 + UInt8.ofNat i, 58, 58, 10]

/-- Memory that realloc adds is not clear. -/
def usedHeap : Env := ⟨true, fun _ => true, fun _ _ => true, fun _ => 1, fun s => s.take 127⟩

theorem not_loads_nineUsers : ¬ Loads usedHeap [] nineUsers := by
  intro h
  have hnone : (parseusers usedHeap [] nineUsers).1 = none := by decide +kernel
  have hninth : (parseusers usedHeap [] nineUsers).2[8]?.map User.lead = some 1 := by decide +kernel
  have hline : (userLines nineUsers)[8]? = some [57, 58, 105, 58, 58] := by decide +kernel
  have hfield : field 2 [57, 58, 105, 58, 58] = some [] := by decide +kernel
  unfold Loads at h
  rcases hp : parseusers usedHeap [] nineUsers with ⟨x, us⟩
  rw [hp] at h hnone hninth
  simp only at hnone hninth
  subst hnone
  obtain ⟨u, hu, hone⟩ := Option.map_eq_some_iff.1 hninth
  obtain ⟨hx, hxl⟩ := List.getElem?_eq_some_iff.1 hline
  obtain ⟨hy, hyu⟩ := List.getElem?_eq_some_iff.1 hu
  have hd := h.get hx hy
  simp only [List.get_eq_getElem, hxl, hyu] at hd
  obtain ⟨f, hf, hlead⟩ := hd.lead
  obtain rfl := Option.some.inj (hfield.symm.trans hf)
  rw [if_pos rfl, hone] at hlead
  exact absurd hlead (by decide)

end Load

end GefsFuse.Server.Users
