import Mathlib

/-!
# Lists in memory

Nodes are named by `ι` and hold the names of other nodes, none for a null pointer. A doubly linked
list (`Dll`) is kept with its two ends; `Is` says which nodes it has, in order. A chain is followed
from one pointer by one link (`Chain`). A walk along either of them is given the number of nodes it
may look at; where that is not enough it has no answer.
-/

namespace Links

variable {ι : Type*} [DecidableEq ι]

/-! ## Doubly linked lists -/

structure Dll (ι : Type*) where
  head : Option ι
  tail : Option ι
  prev : ι → Option ι
  next : ι → Option ι

namespace Dll

/-- `p->prev = v`, nothing at a null pointer. -/
def setPrev (L : Dll ι) (p v : Option ι) : Dll ι :=
  p.elim L fun i => { L with prev := Function.update L.prev i v }

/-- `p->next = v`, nothing at a null pointer. -/
def setNext (L : Dll ι) (p v : Option ι) : Dll ι :=
  p.elim L fun i => { L with next := Function.update L.next i v }

/-- The neighbours of `i` linked to each other. -/
def unlink (L : Dll ι) (i : ι) : Dll ι :=
  let L := L.setNext (L.prev i) (L.next i)
  L.setPrev (L.next i) (L.prev i)

/-- `i` put in front. -/
def pushFront (L : Dll ι) (i : ι) : Dll ι :=
  let L := L.setPrev (some i) none
  let L := L.setNext (some i) L.head
  let L := L.setPrev L.head (some i)
  { L with head := some i, tail := if L.tail = none then some i else L.tail }

/-- `i` moved to the front. -/
def toFront (L : Dll ι) (i : ι) : Dll ι :=
  if L.head = some i then L
  else
    let L := L.unlink i
    pushFront { L with tail := if L.tail = some i then L.prev i else L.tail } i

/-- `i` taken out. -/
def remove (L : Dll ι) (i : ι) : Dll ι :=
  let L := L.unlink i
  let L := { L with head := if L.head = some i then L.next i else L.head }
  let L := { L with tail := if L.tail = some i then L.prev i else L.tail }
  (L.setPrev (some i) none).setNext (some i) none

/-- The first node with `q` from `p` backwards. -/
def findBack (q : ι → Bool) (L : Dll ι) : ℕ → Option ι → Option (Option ι)
  | 0, _ => none
  | _ + 1, none => some none
  | fuel + 1, some i => if q i then some (some i) else findBack q L fuel (L.prev i)

/-- The list is `l`: its ends, and for each node the ones before and after it. -/
structure Is (L : Dll ι) (l : List ι) : Prop where
  nodup : l.Nodup
  head : L.head = l.head?
  tail : L.tail = l.getLast?
  link : ∀ as i bs, l = as ++ i :: bs → L.prev i = as.getLast? ∧ L.next i = bs.head?

variable {L L' : Dll ι} {l as bs : List ι} {i j : ι}

@[simp] theorem setPrev_none (L : Dll ι) (v : Option ι) : L.setPrev none v = L := rfl

@[simp] theorem setNext_none (L : Dll ι) (v : Option ι) : L.setNext none v = L := rfl

@[simp] theorem head_setPrev (L : Dll ι) (p v : Option ι) : (L.setPrev p v).head = L.head := by
  cases p <;> rfl

@[simp] theorem tail_setPrev (L : Dll ι) (p v : Option ι) : (L.setPrev p v).tail = L.tail := by
  cases p <;> rfl

@[simp] theorem next_setPrev (L : Dll ι) (p v : Option ι) : (L.setPrev p v).next = L.next := by
  cases p <;> rfl

@[simp] theorem head_setNext (L : Dll ι) (p v : Option ι) : (L.setNext p v).head = L.head := by
  cases p <;> rfl

@[simp] theorem tail_setNext (L : Dll ι) (p v : Option ι) : (L.setNext p v).tail = L.tail := by
  cases p <;> rfl

@[simp] theorem prev_setNext (L : Dll ι) (p v : Option ι) : (L.setNext p v).prev = L.prev := by
  cases p <;> rfl

theorem prev_setPrev (L : Dll ι) (p v : Option ι) (j : ι) :
    (L.setPrev p v).prev j = if p = some j then v else L.prev j := by
  rcases p with _ | i
  · simp
  · simp only [setPrev, Option.elim_some, Function.update_apply, Option.some.injEq, eq_comm]

theorem next_setNext (L : Dll ι) (p v : Option ι) (j : ι) :
    (L.setNext p v).next j = if p = some j then v else L.next j := by
  rcases p with _ | i
  · simp
  · simp only [setNext, Option.elim_some, Function.update_apply, Option.some.injEq, eq_comm]

theorem setNext_setPrev (L : Dll ι) (p p' v v' : Option ι) :
    (L.setNext p v).setPrev p' v' = (L.setPrev p' v').setNext p v := by
  cases p <;> cases p' <;> rfl

omit [DecidableEq ι] in
/-- What the nodes outside the list hold does not matter. -/
theorem Is.congr (h : L.Is l) (hh : L'.head = L.head) (ht : L'.tail = L.tail)
    (hl : ∀ j ∈ l, L'.prev j = L.prev j ∧ L'.next j = L.next j) : L'.Is l := by
  refine ⟨h.nodup, hh.trans h.head, ht.trans h.tail, fun as i bs he => ?_⟩
  obtain ⟨h1, h2⟩ := hl i (by rw [he]; simp)
  rw [h1, h2]
  exact h.link as i bs he

omit [DecidableEq ι] in
/-- A list without repetition ends in `i` only if nothing follows `i`. -/
theorem getLast?_of_nodup (h : (as ++ i :: bs).Nodup) :
    (as ++ i :: bs).getLast? = some i ↔ bs = [] := by
  rcases List.eq_nil_or_concat bs with rfl | ⟨cs, x, rfl⟩
  · simp
  · have hx : x ≠ i := by
      rintro rfl
      simp [List.nodup_append] at h
    simp [hx, List.getLast?_cons]

omit [DecidableEq ι] in
/-- And starts with `i` only if nothing comes before it. -/
theorem head?_of_nodup (h : (as ++ i :: bs).Nodup) :
    (as ++ i :: bs).head? = some i ↔ as = [] := by
  rcases as with _ | ⟨x, as⟩
  · simp
  · have hx : x ≠ i := by
      rintro rfl
      simp at h
    simp [hx]

section Unlink

variable (h : L.Is (as ++ i :: bs))
include h

omit [DecidableEq ι] in
theorem Is.not_mem : i ∉ as ∧ i ∉ bs := by
  have := h.nodup
  rw [List.nodup_middle, List.nodup_cons, List.mem_append, not_or] at this
  exact this.1

theorem Is.unlink_links (j : ι) :
    (L.unlink i).prev j = (if bs.head? = some j then as.getLast? else L.prev j)
      ∧ (L.unlink i).next j = (if as.getLast? = some j then bs.head? else L.next j) := by
  obtain ⟨h1, h2⟩ := h.link as i bs rfl
  have hi : as.getLast? ≠ some i := fun he => h.not_mem.1 (List.mem_of_getLast? he)
  unfold Dll.unlink
  simp only [prev_setPrev, next_setPrev, next_setNext, prev_setNext, h1, h2, if_neg hi, and_self]

/-- The neighbours of an unlinked node are each other's. -/
theorem Is.unlink_link {cs ds : List ι} (he : as ++ bs = cs ++ j :: ds) :
    (L.unlink i).prev j = cs.getLast? ∧ (L.unlink i).next j = ds.head? := by
  obtain ⟨hp, hn⟩ := h.unlink_links j
  rw [hp, hn]
  have hnd : (as ++ bs).Nodup := h.nodup.sublist (by simp)
  rcases List.append_eq_append_iff.1 he with ⟨e, rfl, rfl⟩ | ⟨e, rfl, hds⟩
  · -- `j` is behind `i`
    obtain ⟨h1, h2⟩ := h.link (as ++ i :: e) j ds (by simp)
    obtain ⟨-, hb, hd⟩ := List.nodup_append.1 hnd
    have hj : as.getLast? ≠ some j := fun hl =>
      hd j (List.mem_of_getLast? hl) j (by simp) rfl
    rw [if_neg hj, h2]
    refine ⟨?_, rfl⟩
    by_cases hh : (e ++ j :: ds).head? = some j
    · obtain rfl := (head?_of_nodup hb).1 hh
      simp
    · have hne : e ≠ [] := mt (head?_of_nodup hb).2 hh
      rw [if_neg hh, h1]
      simp [List.getLast?_append, List.getLast?_cons, List.getLast?_eq_some_getLast hne]
  · rcases e with _ | ⟨k, e⟩
    · -- `j` is just behind `i`
      rw [List.nil_append] at hds
      subst hds
      rw [List.append_nil] at h hnd ⊢
      obtain ⟨-, h2⟩ := h.link (cs ++ [i]) j ds (by simp)
      have hj : cs.getLast? ≠ some j := fun hl =>
        (List.nodup_append.1 hnd).2.2 j (List.mem_of_getLast? hl) j (by simp) rfl
      simp [hj, h2]
    · -- `j` is before `i`
      obtain ⟨rfl, rfl⟩ := List.cons.inj hds
      obtain ⟨h1, h2⟩ := h.link cs j (e ++ i :: bs) (by simp)
      obtain ⟨ha, -, hd⟩ := List.nodup_append.1 hnd
      have hj : bs.head? ≠ some j := fun hl =>
        hd j (by simp) j (List.mem_of_head? hl) rfl
      rw [if_neg hj, h1]
      refine ⟨rfl, ?_⟩
      by_cases hl : (cs ++ j :: e).getLast? = some j
      · obtain rfl := (getLast?_of_nodup ha).1 hl
        simp
      · have hne : e ≠ [] := mt (getLast?_of_nodup ha).2 hl
        obtain ⟨k, e, rfl⟩ := List.exists_cons_of_ne_nil hne
        rw [if_neg hl, h2]
        simp

/-- A node is taken out. -/
theorem Is.remove : (L.remove i).Is (as ++ bs) := by
  obtain ⟨h1, h2⟩ := h.link as i bs rfl
  have hnd : (as ++ bs).Nodup := h.nodup.sublist (by simp)
  obtain ⟨u1, u2⟩ := h.unlink_links i
  rw [if_neg fun hl => h.not_mem.2 (List.mem_of_head? hl), h1] at u1
  rw [if_neg fun hl => h.not_mem.1 (List.mem_of_getLast? hl), h2] at u2
  have hhead : (L.unlink i).head = L.head := by simp [Dll.unlink]
  have htail : (L.unlink i).tail = L.tail := by simp [Dll.unlink]
  refine ⟨hnd, ?_, ?_, fun cs j ds he => ?_⟩
  · unfold Dll.remove
    simp only [head_setNext, head_setPrev, hhead, u2, h.head, head?_of_nodup h.nodup]
    rcases as with _ | ⟨x, as⟩ <;> simp
  · unfold Dll.remove
    simp only [tail_setNext, tail_setPrev, htail, u1, h.tail, getLast?_of_nodup h.nodup]
    rcases List.eq_nil_or_concat bs with rfl | ⟨cs, x, rfl⟩ <;> simp [List.getLast?_cons]
  · have hj : i ≠ j := by
      rintro rfl
      have := h.not_mem
      have hm : i ∈ as ++ bs := by rw [he]; simp
      rw [List.mem_append] at hm
      tauto
    obtain ⟨e1, e2⟩ := h.unlink_link he
    unfold Dll.remove
    simp only [prev_setNext, next_setNext, prev_setPrev, next_setPrev, Option.some.injEq, hj,
      if_false]
    exact ⟨e1, e2⟩

end Unlink

/-- A new node is put in front. -/
theorem Is.pushFront (h : L.Is l) (hi : i ∉ l) : (L.pushFront i).Is (i :: l) := by
  have hhead : l.head? ≠ some i := fun hl => hi (List.mem_of_head? hl)
  refine ⟨List.nodup_cons.2 ⟨hi, h.nodup⟩, rfl, ?_, fun cs j ds he => ?_⟩
  · unfold Dll.pushFront
    simp only [tail_setPrev, tail_setNext, h.tail, List.getLast?_cons]
    rcases hl : l.getLast? with _ | x <;> simp
  · unfold Dll.pushFront
    simp only [prev_setPrev, prev_setNext, next_setPrev, next_setNext, head_setPrev, head_setNext,
      Option.some.injEq]
    rcases cs with _ | ⟨c, cs⟩
    · obtain ⟨rfl, rfl⟩ := List.cons.inj he
      simp [hhead, h.head]
    · obtain ⟨rfl, hl⟩ := List.cons.inj he
      replace hl : l = cs ++ j :: ds := hl
      subst hl
      obtain ⟨h1, h2⟩ := h.link cs j ds rfl
      have hj : i ≠ j := by
        rintro rfl
        simp at hi
      simp only [hj, if_false, h1, h2, h.head, head?_of_nodup h.nodup]
      refine ⟨?_, trivial⟩
      split_ifs with hc
      · simp [hc]
      · simp [List.getLast?_cons, List.getLast?_eq_some_getLast hc]

/-- The nodes outside of the list hold null pointers. -/
def Off (L : Dll ι) (l : List ι) : Prop := ∀ j ∉ l, L.prev j = none ∧ L.next j = none

theorem Is.off_remove (h : L.Is (as ++ i :: bs)) (ho : L.Off (as ++ i :: bs)) :
    (L.remove i).Off (as ++ bs) := by
  intro j hj
  obtain ⟨u1, u2⟩ := h.unlink_links j
  unfold Dll.remove
  simp only [prev_setNext, next_setNext, prev_setPrev, next_setPrev, Option.some.injEq]
  by_cases hij : i = j
  · simp [hij]
  · obtain ⟨h1, h2⟩ := ho j (by simpa [Ne.symm hij] using hj)
    rw [List.mem_append, not_or] at hj
    rw [if_neg hij, if_neg hij]
    simp only [u1, u2, h1, h2, if_neg fun hl => hj.2 (List.mem_of_head? hl),
      if_neg fun hl => hj.1 (List.mem_of_getLast? hl), and_self]

theorem Is.off_pushFront (h : L.Is l) (ho : L.Off l) : (L.pushFront i).Off (i :: l) := by
  intro j hj
  rw [List.mem_cons, not_or] at hj
  obtain ⟨h1, h2⟩ := ho j hj.2
  have hhead : L.head ≠ some j := fun hl => hj.2 (List.mem_of_head? (h.head ▸ hl))
  unfold Dll.pushFront
  simp only [prev_setPrev, prev_setNext, next_setPrev, next_setNext, head_setPrev, head_setNext,
    Option.some.injEq, Ne.symm hj.1, hhead, if_false, h1, h2, and_self]

/-- The list read from the other end. -/
def flip (L : Dll ι) : Dll ι := ⟨L.tail, L.head, L.next, L.prev⟩

omit [DecidableEq ι] in
theorem Is.flip (h : L.Is l) : L.flip.Is l.reverse := by
  refine ⟨List.nodup_reverse.2 h.nodup, ?_, ?_, fun as i bs he => ?_⟩
  · rw [List.head?_reverse]
    exact h.tail
  · rw [List.getLast?_reverse]
    exact h.head
  · have hl : l = bs.reverse ++ i :: as.reverse := by
      rw [← List.reverse_reverse l, he]
      simp
    obtain ⟨h1, h2⟩ := h.link _ _ _ hl
    rw [List.getLast?_reverse] at h1
    rw [List.head?_reverse] at h2
    exact ⟨h2, h1⟩

omit [DecidableEq ι] in
theorem Off.flip (ho : L.Off l) : L.flip.Off l.reverse := fun j hj =>
  (ho j (by simpa using hj)).symm

/-- `i` put at the end. -/
def pushBack (L : Dll ι) (i : ι) : Dll ι := (L.flip.pushFront i).flip

theorem Is.pushBack (h : L.Is l) (hi : i ∉ l) : (L.pushBack i).Is (l ++ [i]) := by
  have := (h.flip.pushFront (i := i) (by simpa using hi)).flip
  rwa [List.reverse_cons, List.reverse_reverse] at this

theorem Is.off_pushBack (h : L.Is l) (ho : L.Off l) : (L.pushBack i).Off (l ++ [i]) := by
  have := (h.flip.off_pushFront (i := i) ho.flip).flip
  rwa [List.reverse_cons, List.reverse_reverse] at this

/-- A node of the list is moved to the front. -/
theorem Is.toFront (h : L.Is (as ++ i :: bs)) : (L.toFront i).Is (i :: (as ++ bs)) := by
  unfold Dll.toFront
  rw [h.head]
  split_ifs with hc
  · obtain rfl := (head?_of_nodup h.nodup).1 hc
    exact h
  · have hne : as ≠ [] := mt (head?_of_nodup h.nodup).2 hc
    have hi : i ∉ as ++ bs := by
      rw [List.mem_append, not_or]
      exact h.not_mem
    obtain ⟨h1, -⟩ := h.link as i bs rfl
    obtain ⟨u1, -⟩ := h.unlink_links i
    rw [if_neg fun hl => h.not_mem.2 (List.mem_of_head? hl), h1] at u1
    refine Is.pushFront ⟨h.nodup.sublist (by simp), ?_, ?_, fun cs j ds he => h.unlink_link he⟩ hi
    · obtain ⟨x, as, rfl⟩ := List.exists_cons_of_ne_nil hne
      simp [Dll.unlink, h.head]
    · have htail : (L.unlink i).tail = L.tail := by simp [Dll.unlink]
      simp only [htail, u1, h.tail, getLast?_of_nodup h.nodup]
      rcases List.eq_nil_or_concat bs with rfl | ⟨cs, x, rfl⟩
      · simp
      · simp [List.getLast?_cons]

section FindBack

variable {q : ι → Bool}

omit [DecidableEq ι] in
/-- A walk from the end of `as` backwards finds the last node of `as` with `q`. -/
theorem Is.findBack (h : L.Is (as ++ bs)) {fuel : ℕ} (hf : as.length < fuel) :
    L.findBack q fuel as.getLast? = some (as.reverse.find? q) := by
  induction as using List.reverseRecOn generalizing bs fuel with
  | nil =>
    obtain ⟨fuel, rfl⟩ := Nat.exists_eq_add_one_of_ne_zero (by omega : fuel ≠ 0)
    rfl
  | append_singleton as i ih =>
    rw [List.length_append, List.length_singleton] at hf
    obtain ⟨fuel, rfl⟩ := Nat.exists_eq_add_one_of_ne_zero (by omega : fuel ≠ 0)
    rw [List.append_assoc, List.singleton_append] at h
    obtain ⟨h1, -⟩ := h.link as i bs rfl
    simp only [List.getLast?_append, List.getLast?_singleton, Option.some_or, List.reverse_append,
      List.reverse_singleton, List.singleton_append, List.find?_cons, Dll.findBack]
    split
    · next hq => simp [hq]
    · next hq =>
      simp only [hq]
      rw [h1]
      exact ih h (by omega)

omit [DecidableEq ι] in
/-- With less fuel there is no other answer. -/
theorem findBack_mono {fuel fuel' : ℕ} {p : Option ι} {r : Option ι}
    (h : L.findBack q fuel p = some r) (hf : fuel ≤ fuel') : L.findBack q fuel' p = some r := by
  induction fuel generalizing p fuel' with
  | zero => cases h
  | succ fuel ih =>
    obtain ⟨fuel', rfl⟩ := Nat.exists_eq_add_one_of_ne_zero (by omega : fuel' ≠ 0)
    rcases p with _ | i
    · exact h
    · unfold Dll.findBack at h ⊢
      split_ifs at h ⊢ with hq
      · exact h
      · exact ih h (by omega)

end FindBack

end Dll

/-! ## Chains -/

/-- From `p` on along `next` there are the nodes `l`. -/
def Chain (next : ι → Option ι) : Option ι → List ι → Prop
  | p, [] => p = none
  | p, i :: l => p = some i ∧ Chain next (next i) l

/-- The first node with `q` from `p` on. -/
def findChain (q : ι → Bool) (next : ι → Option ι) : ℕ → Option ι → Option (Option ι)
  | 0, _ => none
  | _ + 1, none => some none
  | fuel + 1, some i => if q i then some (some i) else findChain q next fuel (next i)

/-- The pointer that points at `i`, from the pointer to `p` on: the first pointer, or the link of a
node; and whether there is one. -/
def findLink (i : ι) (next : ι → Option ι) : ℕ → Option ι → Option ι → Option (Option ι × Bool)
  | 0, _, _ => none
  | _ + 1, at?, none => some (at?, false)
  | fuel + 1, at?, some j =>
    if j = i then some (at?, true) else findLink i next fuel (some j) (next j)

/-- The link at `at?` set to what follows `i`: of the first pointer, `p`, or of a node. -/
def cutLink (i : ι) (next : ι → Option ι) (p : Option ι) : Option ι → Option ι × (ι → Option ι)
  | none => (next i, next)
  | some j => (p, Function.update next j (next i))

section Chain

variable {next next' : ι → Option ι} {p : Option ι} {l as bs : List ι} {i : ι} {q : ι → Bool}

omit [DecidableEq ι] in
theorem Chain.congr : ∀ {l : List ι} {p : Option ι}, Chain next p l →
    (∀ j ∈ l, next' j = next j) → Chain next' p l
  | [], _, h, _ => h
  | i :: l, p, h, hn => by
    refine ⟨h.1, ?_⟩
    rw [hn i List.mem_cons_self]
    exact Chain.congr h.2 fun j hj => hn j (List.mem_cons_of_mem _ hj)

omit [DecidableEq ι] in
theorem Chain.findChain : ∀ {l : List ι} {p : Option ι} {fuel : ℕ}, Chain next p l →
    l.length < fuel → findChain q next fuel p = some (l.find? q)
  | [], p, fuel + 1, h, _ => by
    obtain rfl : p = none := h
    rfl
  | i :: l, p, fuel + 1, h, hf => by
    obtain ⟨rfl, h⟩ := h
    rw [Links.findChain, List.find?_cons]
    rw [List.length_cons] at hf
    rcases hq : q i
    · simpa using h.findChain (by omega)
    · simp

omit [DecidableEq ι] in
theorem findChain_mono : ∀ {fuel fuel' : ℕ} {p r : Option ι},
    findChain q next fuel p = some r → fuel ≤ fuel' → findChain q next fuel' p = some r
  | fuel + 1, fuel' + 1, none, _, h, _ => h
  | fuel + 1, fuel' + 1, some i, r, h, hf => by
    unfold findChain at h ⊢
    split_ifs at h ⊢ with hq
    · exact h
    · exact findChain_mono h (by omega)

theorem Chain.findLink : ∀ {as : List ι} {p at? : Option ι} {fuel : ℕ},
    Chain next p (as ++ i :: bs) → i ∉ as → as.length < fuel →
    findLink i next fuel at? p = some (as.getLast?.or at?, true)
  | [], p, at?, fuel + 1, h, _, _ => by
    obtain ⟨rfl, -⟩ := h
    simp [Links.findLink]
  | j :: as, p, at?, fuel + 1, h, hi, hf => by
    obtain ⟨rfl, h⟩ := h
    rw [List.mem_cons, not_or] at hi
    rw [List.length_cons] at hf
    rw [Links.findLink, if_neg (Ne.symm hi.1), Chain.findLink h hi.2 (by omega)]
    rcases as with _ | ⟨k, as⟩ <;> simp [List.getLast?_cons]

theorem findLink_mono : ∀ {fuel fuel' : ℕ} {p at? : Option ι} {r : Option ι × Bool},
    findLink i next fuel at? p = some r → fuel ≤ fuel' → findLink i next fuel' at? p = some r
  | fuel + 1, fuel' + 1, none, _, _, h, _ => h
  | fuel + 1, fuel' + 1, some j, at?, r, h, hf => by
    unfold findLink at h ⊢
    split_ifs at h ⊢ with hq
    · exact h
    · exact findLink_mono h (by omega)

/-- A node is cut out of its chain. -/
theorem Chain.cutLink : ∀ {as : List ι} {p : Option ι}, Chain next p (as ++ i :: bs) →
    (as ++ i :: bs).Nodup →
    Chain (cutLink i next p as.getLast?).2 (cutLink i next p as.getLast?).1 (as ++ bs)
  | [], _, h, _ => h.2
  | [j], _, h, hnd => by
    obtain ⟨rfl, h1, h2⟩ := h
    refine ⟨rfl, ?_⟩
    have hj : j ∉ bs := by
      simp only [List.singleton_append, List.nodup_cons, List.mem_cons] at hnd
      exact fun hb => hnd.1 (.inr hb)
    simp only [List.getLast?_singleton, Links.cutLink, Function.update_self]
    exact h2.congr fun x hx => Function.update_of_ne (by rintro rfl; exact hj hx) _ _
  | j :: k :: as, _, h, hnd => by
    obtain ⟨rfl, h⟩ := h
    rw [List.cons_append, List.nodup_cons] at hnd
    have ih := Chain.cutLink h hnd.2
    obtain ⟨x, hx⟩ : ∃ x, (k :: as).getLast? = some x := ⟨_, List.getLast?_cons⟩
    have hne : j ≠ x := by
      rintro rfl
      exact hnd.1 (List.mem_append_left _ (List.mem_of_getLast? hx))
    rw [List.getLast?_cons_cons, hx]
    rw [hx] at ih
    refine ⟨rfl, ?_⟩
    simp only [Links.cutLink, Function.update_of_ne hne] at ih ⊢
    exact ih

end Chain

end Links
