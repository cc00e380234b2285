import GefsFuse.Lib.Stable
import GefsFuse.Proofs.ServerNode

/-!
# The fast way into the root

`stablesort` orders a batch and keeps what is on each key in its order. `fastupsert` moves each
message of the batch behind those of the buffer that are not above it, so the buffer it leaves is
in order and holds on every key first the old messages and then the batch's.
-/

namespace GefsFuse.Server.Btree

open Stable

theorem keycmp_pos {a b : Bytes} : 0 < gefsKeycmp a b ↔ b < a := by
  rw [gefsKeycmp_eq]
  split_ifs with h1 h2
  · simp [h1.not_gt]
  · simp [h2]
  · simpa using lt_of_le_of_ne (not_lt.1 h1) (Ne.symm h2)

section Sorting

/-- One turn of the outer loop. -/
def insort (l : List GefsMsg) (m : GefsMsg) : List GefsMsg :=
  let gt := fun x : GefsMsg => decide (0 < gefsKeycmp x.k m.k)
  l.rdropWhile gt ++ m :: l.rtakeWhile gt

theorem insort_parts {l : List GefsMsg} (hs : Sorted GefsMsg.k l) (m : GefsMsg) :
    ∃ l₁ l₂, l = l₁ ++ l₂ ∧ Parted GefsMsg.k m l₁ l₂ ∧ insort l m = l₁ ++ m :: l₂ := by
  refine ⟨_, _, ?_, @parted_rdropWhile _ _ _ _ m _ hs (fun x => decide (0 < gefsKeycmp x.k m.k))
    fun x => ?_, rfl⟩
  · exact List.rdropWhile_append_rtakeWhile.symm
  · rw [decide_eq_true_eq]
    exact keycmp_pos

theorem foldl_insort (ms : List GefsMsg) : ∀ {l : List GefsMsg}, Sorted GefsMsg.k l →
    Sorted GefsMsg.k (ms.foldl insort l) ∧ (ms.foldl insort l).Perm (l ++ ms)
      ∧ ∀ k, (ms.foldl insort l).filter (·.k = k) = l.filter (·.k = k) ++ ms.filter (·.k = k) := by
  induction ms with
  | nil => intro l hs; exact ⟨hs, by simp, by simp⟩
  | cons m ms ih =>
    intro l hs
    obtain ⟨l₁, l₂, hl, hp, hi⟩ := insort_parts hs m
    have hs' : Sorted GefsMsg.k (insort l m) := hi ▸ hp.sorted (hl ▸ hs)
    obtain ⟨h1, h2, h3⟩ := ih hs'
    refine ⟨h1, h2.trans ?_, fun k => ?_⟩
    · rw [hi, hl, List.append_assoc, List.append_assoc, List.cons_append]
      exact (List.perm_middle.symm.append_left l₁)
    · have hcons : m :: ms = [m] ++ ms := rfl
      rw [List.foldl_cons, h3 k, hi, hp.filter k, ← hl, hcons, List.filter_append,
        List.append_assoc]

theorem stablesort_eq (ms : List GefsMsg) : stablesort ms = ms.foldl insort [] := rfl

theorem stablesort_sorted (ms : List GefsMsg) : Sorted GefsMsg.k (stablesort ms) :=
  (foldl_insort ms .nil).1

theorem stablesort_perm (ms : List GefsMsg) : (stablesort ms).Perm ms := by
  rw [stablesort_eq]
  simpa using (foldl_insort ms .nil).2.1

/-- On each key the messages stay in the order they came. -/
theorem filter_stablesort (ms : List GefsMsg) (k : Bytes) :
    (stablesort ms).filter (·.k = k) = ms.filter (·.k = k) := by
  rw [stablesort_eq]
  simpa using (foldl_insort ms .nil).2.2 k

end Sorting

section Place

variable {l : List GefsMsg} {k : Bytes} {n : ℕ}

/-- The key of the `i`-th message. -/
def keyAt (l : List GefsMsg) (i : ℕ) : Bytes := (l[i]?).elim [] GefsMsg.k

/-- The search among the first `n` is down to those from `lo` to `hi`; `ri`, once it is set, is
`lo`. -/
structure Seeking (l : List GefsMsg) (k : Bytes) (n : ℕ) (lo hi ri : ℤ) : Prop where
  nonneg : 0 ≤ lo
  lt : hi < n
  le : lo ≤ hi + 1
  below : ∀ i : ℕ, (i : ℤ) < lo → keyAt l i ≤ k
  above : ∀ i : ℕ, hi < (i : ℤ) → i < n → k < keyAt l i
  found : ri = -1 ∨ (ri = lo ∧ 0 < lo ∧ keyAt l (lo - 1).toNat = k)

/-- The first of the `n` messages that is above `k` is the `p`-th. -/
def EndsAt (l : List GefsMsg) (k : Bytes) (n p : ℕ) : Prop :=
  p ≤ n ∧ (∀ i < p, keyAt l i ≤ k) ∧ ∀ i, p ≤ i → i < n → k < keyAt l i

theorem Seeking.done {lo hi ri : ℤ} (h : Seeking l k n lo hi ri) (hlt : hi < lo) :
    ∃ p : ℕ, (if ri = -1 then hi + 1 else ri) = p ∧ EndsAt l k n p := by
  have h0 := h.nonneg
  have hn := h.lt
  have hle := h.le
  refine ⟨lo.toNat, ?_, by omega, fun i hi => h.below i (by omega),
    fun i hi hin => h.above i (by omega) hin⟩
  rcases h.found with rfl | ⟨rfl, -, -⟩
  · rw [if_pos rfl]
    omega
  · rw [if_neg (by omega)]
    omega

/-- The search ends behind the messages that are not above `k`. -/
theorem insertPos_spec (hs : ∀ i j, i ≤ j → j < n → keyAt l i ≤ keyAt l j) {fuel : ℕ} :
    ∀ {lo hi ri : ℤ}, Seeking l k n lo hi ri → hi + 1 - lo ≤ fuel →
    ∃ p : ℕ, insertPos l k fuel lo hi ri = p ∧ EndsAt l k n p := by
  induction fuel with
  | zero => exact fun h hf => h.done (by omega)
  | succ fuel ih =>
    intro lo hi ri h hf
    have h0 := h.nonneg
    have hn := h.lt
    unfold insertPos
    by_cases hlt : lo ≤ hi
    · rw [if_pos hlt]
      simp only
      set mid := (hi + lo) / 2 with hmid
      have hm : lo ≤ mid ∧ mid ≤ hi := by omega
      rw [show (l[mid.toNat]?).elim [] GefsMsg.k = keyAt l mid.toNat from rfl]
      rcases lt_trichotomy k (keyAt l mid.toNat) with hk | hk | hk
      · have hc : gefsKeycmp k (keyAt l mid.toNat) = -1 := by rw [gefsKeycmp_eq, if_pos hk]
        rw [if_pos hc]
        refine ih ⟨h0, by omega, by omega, h.below, fun i hi' hin => ?_, h.found⟩ (by omega)
        exact hk.trans_le (hs _ _ (by omega) hin)
      · have hc : gefsKeycmp k (keyAt l mid.toNat) = 0 := gefsKeycmp_eq_zero.2 hk
        rw [if_neg (by omega), if_pos hc]
        refine ih ⟨by omega, hn, by omega, fun i hi' => ?_, h.above, .inr ⟨rfl, by omega, ?_⟩⟩
          (by omega)
        · exact (hs i _ (by omega) (by omega)).trans hk.ge
        · rw [show mid + 1 - 1 = mid by omega]
          exact hk.symm
      · have hc : gefsKeycmp k (keyAt l mid.toNat) = 1 := gefsKeycmp_eq_one.2 hk
        rw [if_neg (by omega), if_neg (by omega)]
        refine ih ⟨by omega, hn, by omega, fun i hi' => ?_, h.above, ?_⟩ (by omega)
        · exact (hs i _ (by omega) (by omega)).trans hk.le
        · -- a key found before is not above the one in the middle
          rcases h.found with hri | ⟨-, hpos, heq⟩
          · exact .inl hri
          · have := hs (lo - 1).toNat mid.toNat (by omega) (by omega)
            rw [heq] at this
            exact absurd hk (not_lt.2 this)
    · rw [if_neg hlt]
      exact h.done (by omega)

theorem keyAt_mono (hs : Sorted GefsMsg.k (l.take n)) (hn : n ≤ l.length) :
    ∀ i j, i ≤ j → j < n → keyAt l i ≤ keyAt l j := by
  intro i j hij hj
  rcases hij.lt_or_eq with h | rfl
  · have hi' : i < (l.take n).length := by simp; omega
    have hj' : j < (l.take n).length := by simp; omega
    have := List.pairwise_iff_getElem.1 hs i j hi' hj' h
    rw [List.getElem_take, List.getElem_take] at this
    simpa [keyAt, List.getElem?_eq_getElem (show i < l.length by omega),
      List.getElem?_eq_getElem (show j < l.length by omega)] using this
  · exact le_rfl

theorem insertIdx_append {α : Type} (a : α) : ∀ l₁ l₂ : List α,
    (l₁ ++ l₂).insertIdx l₁.length a = l₁ ++ a :: l₂
  | [], _ => rfl
  | x :: l₁, l₂ => by
    rw [List.cons_append, List.length_cons, List.insertIdx_succ_cons, insertIdx_append a l₁ l₂]
    rfl

/-- The message at `n` goes to its place among the ones before it, which are in order. -/
theorem place_parts (hn : n < l.length) (hs : Sorted GefsMsg.k (l.take n)) :
    ∃ l₁ l₂, l.take n = l₁ ++ l₂ ∧ Parted GefsMsg.k l[n] l₁ l₂
      ∧ place n l = l₁ ++ l[n] :: (l₂ ++ l.drop (n + 1)) := by
  have hstart : Seeking l l[n].k n 0 (n - 1) (-1) :=
    ⟨le_rfl, by omega, by omega, fun i hi => by omega, fun i hi hin => by omega, .inl rfl⟩
  obtain ⟨p, hp, hpn, hle, hgt⟩ :=
    @insertPos_spec l _ n (keyAt_mono hs hn.le) n _ _ _ hstart (by omega)
  have hkey : ∀ i, (hi : i < l.length) → keyAt l i = l[i].k := by
    intro i hi
    simp [keyAt, List.getElem?_eq_getElem hi]
  refine ⟨(l.take n).take p, (l.take n).drop p, (List.take_append_drop _ _).symm, ⟨?_, ?_⟩, ?_⟩
  · intro x hx
    obtain ⟨i, hi, rfl⟩ := List.mem_iff_getElem.1 hx
    simp only [List.length_take] at hi
    have := hle i (by omega)
    rw [hkey i (by omega)] at this
    simpa using this
  · intro x hx
    obtain ⟨i, hi, rfl⟩ := List.mem_iff_getElem.1 hx
    simp only [List.length_drop, List.length_take] at hi
    have := hgt (p + i) (by omega) (by omega)
    rw [hkey (p + i) (by omega)] at this
    simpa using this
  · have hl : l.eraseIdx n = (l.take n).take p ++ ((l.take n).drop p ++ l.drop (n + 1)) := by
      rw [List.eraseIdx_eq_take_drop_succ, ← List.append_assoc, List.take_append_drop]
    have hlen : ((l.take n).take p).length = p := by
      simp only [List.length_take]
      omega
    unfold place
    rw [List.getElem?_eq_getElem hn]
    simp only [hp, Int.toNat_natCast, hl]
    conv_lhs => arg 2; rw [← hlen]
    exact insertIdx_append _ _ _

/-- What the loop over the batch leaves after `i` messages of it. -/
structure Placed (n i : ℕ) (l l' : List GefsMsg) : Prop where
  sorted : Sorted GefsMsg.k (l'.take (n + i))
  drop : l'.drop (n + i) = l.drop (n + i)
  filter : ∀ k, l'.filter (·.k = k) = l.filter (·.k = k)
  perm : l'.Perm l

theorem Placed.succ {i : ℕ} {l' : List GefsMsg} (h : Placed n i l l') (hi : n + i < l.length) :
    Placed n (i + 1) l (place (n + i) l') := by
  have hlen : l'.length = l.length := h.perm.length_eq
  obtain ⟨l₁, l₂, ht, hp, he⟩ := place_parts (by omega) h.sorted
  have hl' : l' = l₁ ++ l₂ ++ l'[n + i] :: l'.drop (n + i + 1) := by
    rw [← ht, ← List.drop_eq_getElem_cons, List.take_append_drop]
  have hlen1 : (l₁ ++ l'[n + i] :: l₂).length = n + (i + 1) := by
    have := congrArg List.length ht
    simp only [List.length_take, List.length_append] at this
    simp only [List.length_append, List.length_cons]
    omega
  have he' : place (n + i) l' = (l₁ ++ l'[n + i] :: l₂) ++ l'.drop (n + i + 1) := by
    rw [he, List.append_assoc, List.cons_append]
  constructor
  · rw [he', ← hlen1, List.take_left]
    exact hp.sorted (ht ▸ h.sorted)
  · rw [he', ← hlen1, List.drop_left, hlen1]
    have := congrArg (List.drop 1) h.drop
    rwa [List.drop_drop, List.drop_drop] at this
  · intro k
    have hcons : l'[n + i] :: l'.drop (n + i + 1) = [l'[n + i]] ++ l'.drop (n + i + 1) := rfl
    rw [← h.filter k, he', List.filter_append, hp.filter k]
    conv_rhs => rw [hl', hcons, List.filter_append]
    rw [List.append_assoc, List.filter_append [_]]
  · refine List.Perm.trans ?_ h.perm
    rw [he']
    conv_rhs => rw [hl', List.append_assoc]
    rw [List.append_assoc, List.cons_append]
    exact List.Perm.append_left _ List.perm_middle.symm

theorem foldl_place (hs : Sorted GefsMsg.k (l.take n)) : ∀ {i : ℕ}, n + i ≤ l.length →
    Placed n i l ((List.range i).foldl (fun l i => place (n + i) l) l)
  | 0, _ => ⟨by simpa using hs, rfl, fun _ => rfl, .refl _⟩
  | i + 1, h => by
    rw [List.range_succ, List.foldl_append]
    exact (foldl_place hs (by omega)).succ (by omega)

end Place

/-! ## The block it makes -/

section Fast

open Effects

variable {E : Env} {s : St} {b : Node}

theorem exec_ask_some {a : Int64} (h : E.ans s.calls = some a) :
    exec (ask E) s = (.ok a, { s with calls := s.calls + 1 }) := by
  unfold ask
  simp [exec_bind, h]

theorem exec_ask_none (h : E.ans s.calls = none) :
    exec (ask E) s = (.error .raised, { s with calls := s.calls + 1 }) := by
  unfold ask
  simp [exec_bind, h]

theorem exec_must_some {α : Type} (a : α) : exec (must (some a)) s = (.ok a, s) := rfl

theorem exec_newblk {a : Int64} (h : E.ans s.calls = some a) (hl : s.live a = false) (p : Bool) :
    exec (newblk E p) s = (.ok ⟨⟨a, -1, s.tree.memgen⟩, p, [], []⟩,
      { s with calls := s.calls + 1, live := fun x => x = a || s.live x }) := by
  unfold newblk
  rw [exec_bind_ok (exec_ask_some h)]
  simp [exec_bind, hl]

theorem exec_newblk_none (h : E.ans s.calls = none) (p : Bool) :
    exec (newblk E p) s = (.error .raised, { s with calls := s.calls + 1 }) :=
  exec_bind_error (exec_ask_none h)

theorem exec_getblk {a : Int64} {bp : GefsBptr} (h : E.ans s.calls = some a)
    (hb : s.blks bp.addr = some b) :
    exec (getblk E bp) s = (.ok { b with bp := bp }, { s with calls := s.calls + 1 }) := by
  unfold getblk
  rw [exec_bind_ok (exec_ask_some h)]
  simp [exec_bind, hb, must]

theorem exec_getblk_none {bp : GefsBptr} (h : E.ans s.calls = none) :
    exec (getblk E bp) s = (.error .raised, { s with calls := s.calls + 1 }) :=
  exec_bind_error (exec_ask_none h)

theorem exec_setmsg (hp : b.pivot = true) {m : GefsMsg}
    (h : 2 * (b.nbuf + 1) + b.bufsz + (msgsz m - 2) ≤ gefsBufspc) :
    exec (setmsg b m) s = (.ok { b with msgs := b.msgs ++ [m] }, s) := by
  unfold setmsg
  simp [hp, h]

theorem exec_setmsgs : ∀ {ms : List GefsMsg} {b : Node}, b.pivot = true →
    2 * (b.nbuf + ms.length) + b.bufsz + (ms.map fun m => msgsz m - 2).sum ≤ gefsBufspc →
    exec (setmsgs b ms) s = (.ok { b with msgs := b.msgs ++ ms }, s)
  | [], b, _, _ => by simp [setmsgs]
  | m :: ms, b, hp, h => by
    simp only [List.length_cons, List.map_cons, List.sum_cons] at h
    unfold setmsgs
    rw [List.foldlM_cons, exec_bind_ok (exec_setmsg hp (by omega))]
    have := @exec_setmsgs ms { b with msgs := b.msgs ++ [m] } hp (by
      simp only [Node.nbuf, Node.bufsz, List.length_append, List.length_singleton, List.map_append,
        List.sum_append, List.map_cons, List.map_nil, List.sum_cons, List.sum_nil] at h ⊢
      omega)
    unfold setmsgs at this
    rw [this]
    simp

/-- Freeing the block needs an entry in a deadlist. -/
def Killed (t : Tree) (bp : GefsBptr) : Prop :=
  (t.snap = true ∨ bp.gen < t.memgen) ∧ (t.snap = true ∨ t.base < bp.gen)

instance (t : Tree) (bp : GefsBptr) : Decidable (Killed t bp) := inferInstanceAs (Decidable (_ ∧ _))

theorem exec_freebp {bp : GefsBptr} (h : ¬ Killed s.tree bp) :
    exec (freebp E bp) s = (.ok (), { s with freed := bp :: s.freed }) := by
  unfold freebp killblk
  unfold Killed at h
  by_cases h1 : s.tree.snap = true ∨ bp.gen < s.tree.memgen
  · have h2 : ¬ (s.tree.snap = true ∨ s.tree.base < bp.gen) := fun h2 => h ⟨h1, h2⟩
    simp [exec_bind, h1, h2]
  · simp [exec_bind, h1]

theorem exec_freebp_some {bp : GefsBptr} (h : Killed s.tree bp) {a : Int64}
    (ha : E.ans s.calls = some a) :
    exec (freebp E bp) s = (.ok (), { s with freed := bp :: s.freed, calls := s.calls + 1 }) := by
  obtain ⟨h1, h2⟩ := h
  have hask := exec_ask_some (E := E) (s := { s with freed := bp :: s.freed }) ha
  unfold freebp killblk
  simp [exec_bind, h1, h2, hask]

theorem exec_freebp_none {bp : GefsBptr} (h : Killed s.tree bp) (ha : E.ans s.calls = none) :
    exec (freebp E bp) s
      = (.error .raised, { s with freed := bp :: s.freed, calls := s.calls + 1 }) := by
  obtain ⟨h1, h2⟩ := h
  have hask := exec_ask_none (E := E) (s := { s with freed := bp :: s.freed }) ha
  unfold freebp killblk
  simp [exec_bind, h1, h2, hask]

/-- The buffer of the new root. -/
def mergedMsgs (b : Node) (ms : List GefsMsg) : List GefsMsg :=
  (List.range ms.length).foldl (fun l i => place (b.nbuf + i) l) (b.msgs ++ ms)

/-- The new root, allocated at `a`. -/
def fastRoot (E : Env) (t : Tree) (b : Node) (ms : List GefsMsg) (a : Int64) : Node :=
  let r : Node := ⟨⟨a, -1, t.memgen⟩, b.pivot, b.vals, mergedMsgs b ms⟩
  { r with bp := { r.bp with hash := E.hash r } }

/-- The state once the new root is in place. -/
def fastSt (E : Env) (s : St) (b : Node) (ms : List GefsMsg) (a : Int64) : St :=
  let r := fastRoot E s.tree b ms a
  { s with
    blks := fun x => if x = a then some r else s.blks x
    live := fun x => x = a || s.live x
    tree := { s.tree with ht := s.tree.ht + 0, bp := r.bp }
    calls := s.calls + 1 }

theorem exec_fastupsert {ms : List GefsMsg} {a : Int64} (hp : b.pivot = true)
    (hf : 2 * (b.nbuf + ms.length) + b.bufsz + (ms.map fun m => msgsz m - 2).sum ≤ gefsBufspc)
    (ha : E.ans s.calls = some a) (hl : s.live a = false) :
    exec (fastupsert E b ms) s = exec (freeblk E b) (fastSt E s b ms a) := by
  unfold fastupsert dupblk
  simp only [bind_assoc, pure_bind]
  rw [exec_bind_ok (exec_newblk ha hl b.pivot),
    exec_bind_ok (@exec_setmsgs _ ms
      ⟨⟨a, -1, s.tree.memgen⟩, b.pivot, b.vals, b.msgs⟩ hp hf)]
  rfl

theorem exec_fastupsert_none {ms : List GefsMsg} (ha : E.ans s.calls = none) :
    exec (fastupsert E b ms) s = (.error .raised, { s with calls := s.calls + 1 }) := by
  unfold fastupsert dupblk
  rw [bind_assoc]
  exact exec_bind_error (exec_newblk_none ha _)

end Fast

end GefsFuse.Server.Btree
