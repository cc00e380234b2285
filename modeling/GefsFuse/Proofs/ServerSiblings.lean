import GefsFuse.Proofs.ServerBalance
import GefsFuse.Proofs.ServerFill

/-!
# Merging and rotating siblings

`merge` puts two siblings into one block, where both fit. `rotate` parts their values at half their
bytes, and their messages at an index that `spillsbuf` moves on with each value. Within the first
block's buffer the index is right for the value it was moved on for, not for the one the second
block begins with; within the second's it counts the first block's messages again with each value
(`drift`).
-/

namespace GefsFuse.Server.Btree

open Effects Stable

/-- How many messages are below `k`. -/
abbrev lowMsgs (b : Node) (k : Bytes) : ℕ := below GefsMsg.k b.msgs k

/-- Two siblings, all keys and messages of the first below those of the second. -/
structure Siblings (a b : Node) : Prop where
  alike : a.pivot = b.pivot
  fits : a.Fits ∧ b.Fits
  filled : a.vals ≠ [] ∧ b.vals ≠ []
  vals : (a.vals ++ b.vals).Pairwise fun v w => v.1 < w.1
  msgs : Sorted GefsMsg.k (a.msgs ++ b.msgs)
  apart : ∀ m ∈ a.msgs, ∀ m' ∈ b.msgs, m.k < m'.k
  above : ∀ m ∈ a.msgs, ∀ v ∈ b.vals, m.k < v.1
  below : ∀ v ∈ a.vals, ∀ m ∈ b.msgs, v.1 < m.k

/-! ## The index of `rotate` -/

section Index

variable {a b : Node} {k : Bytes}

/-- The index after the value under `k`. -/
def nextIdx (a b : Node) (k : Bytes) (i : ℕ) : ℕ :=
  let i := if i < a.nbuf then max i (lowMsgs a k) else i
  if i < a.nbuf then i
  else if max i (lowMsgs b k) < b.nbuf then max i (lowMsgs b k) + a.nbuf else b.nbuf

/-- Where the index is in the second block's buffer, without its end: with each value the messages
of the first block are counted once more. -/
def drift (a b : Node) (ks : List Bytes) : ℕ :=
  ks.foldl (fun u k => max (u + a.nbuf) (lowMsgs b k)) 0

theorem spillscanLoop_eq {n o : ℕ} : ∀ {ms : List GefsMsg} {i used : ℕ}, Sorted GefsMsg.k ms →
    used + msgSum ms ≤ gefsBufspc → spillscanLoop k n o i ms used
      = some (if below GefsMsg.k ms k < ms.length then i + below GefsMsg.k ms k + o else n)
  | [], i, used, _, _ => by simp [spillscanLoop]
  | m :: ms, i, used, hs, hu => by
    simp only [msgSum_cons] at hu
    unfold spillscanLoop
    rcases lt_or_ge m.k k with hlt | hle
    · rw [if_neg (by rw [not_le, keycmp_pos]; exact hlt), if_neg (by omega),
        spillscanLoop_eq (List.pairwise_cons.1 hs).2 (by omega), below_cons_of_lt hlt]
      simp only [List.length_cons, Nat.add_lt_add_iff_right]
      congr 2
      omega
    · have hc : gefsKeycmp k m.k ≤ 0 := by
        rw [← not_lt, keycmp_pos]
        exact not_lt.2 hle
      rw [if_pos hc, hs.below_cons_of_le hle]
      simp

theorem spillscan_eq {d c : Node} {i o : ℕ} (hd : d.msgs = []) (hs : Sorted GefsMsg.k c.msgs)
    (hc : msgSum c.msgs ≤ gefsBufspc) : spillscan d c k i o
      = some (if max i (lowMsgs c k) < c.nbuf then max i (lowMsgs c k) + o else c.nbuf) := by
  have h0 : buffill d = 0 := by rw [buffill_eq, hd, msgSum_nil]
  have hle : lowMsgs c k ≤ c.nbuf := below_le _ _
  have hsum : msgSum (c.msgs.drop i) ≤ msgSum c.msgs := msgSum_sublist (List.drop_sublist _ _)
  unfold spillscan
  rw [h0, spillscanLoop_eq (hs.sublist (List.drop_sublist _ _)) (by omega), hs.below_drop,
    List.length_drop]
  change some (if lowMsgs c k - i < c.nbuf - i then _ else _) = _
  congr 1
  by_cases h : lowMsgs c k - i < c.nbuf - i
  · rw [if_pos h, if_pos (by omega)]
    change i + (lowMsgs c k - i) + o = _
    omega
  · rw [if_neg h]
    by_cases hm : max i (lowMsgs c k) < c.nbuf
    · omega
    · rw [if_neg hm]

theorem Siblings.sorted (h : Siblings a b) : Sorted GefsMsg.k a.msgs ∧ Sorted GefsMsg.k b.msgs := by
  obtain ⟨h1, h2, -⟩ := List.pairwise_append.1 h.msgs
  exact ⟨h1, h2⟩

theorem Siblings.msgSum_le (h : Siblings a b) :
    msgSum a.msgs ≤ gefsBufspc ∧ msgSum b.msgs ≤ gefsBufspc := by
  rw [← buffill_eq, ← buffill_eq]
  exact ⟨h.fits.1.msgs, h.fits.2.msgs⟩

/-- Neither buffer spills, and the index moves on. -/
theorem spillsbuf_eq (h : Siblings a b) (hp : a.pivot = true) {d : Node} (hd : d.msgs = [])
    (i : ℕ) : spillsbuf d a b k i = (false, nextIdx a b k i) := by
  have ha := fun j => @spillscan_eq k d a j 0 hd h.sorted.1 h.msgSum_le.1
  have hb := fun j => @spillscan_eq k d b j a.nbuf hd h.sorted.2 h.msgSum_le.2
  have hle : lowMsgs a k ≤ a.nbuf := below_le _ _
  have hfirst : (if i < a.nbuf then spillscan d a k i 0 else some i)
      = some (if i < a.nbuf then max i (lowMsgs a k) else i) := by
    by_cases hi : i < a.nbuf
    · rw [if_pos hi, if_pos hi, ha]
      congr 1
      by_cases hm : max i (lowMsgs a k) < a.nbuf
      · rw [if_pos hm, add_zero]
      · rw [if_neg hm]
        omega
    · rw [if_neg hi, if_neg hi]
  have hsecond : ∀ j, (if a.nbuf ≤ j then spillscan d b k j a.nbuf else some j)
      = some (if j < a.nbuf then j else
        if max j (lowMsgs b k) < b.nbuf then max j (lowMsgs b k) + a.nbuf else b.nbuf) := by
    intro j
    by_cases hj : j < a.nbuf
    · rw [if_neg (by omega), if_pos hj]
    · rw [if_pos (by omega), if_neg hj, hb]
  unfold spillsbuf
  rw [if_neg (by simp [hp]), hfirst]
  simp only [hsecond]
  rfl

/-- The index stays in a leaf. -/
theorem spillsbuf_alike (h : Siblings a b) (d : Node) (k : Bytes) (i : ℕ) (hd : d.msgs = []) :
    spillsbuf d a b k i = (false, if a.pivot then nextIdx a b k i else i) := by
  by_cases hp : a.pivot = true
  · rw [if_pos hp, spillsbuf_eq h hp hd]
  · unfold spillsbuf
    rw [if_pos hp, if_neg hp]

theorem drift_append (ks : List Bytes) (k : Bytes) :
    drift a b (ks ++ [k]) = max (drift a b ks + a.nbuf) (lowMsgs b k) := by
  simp [drift]

/-- The left keys that are above all messages of the first block. -/
def pastKeys (a : Node) (ks : List Bytes) : List Bytes := ks.filter fun k => lowMsgs a k = a.nbuf

theorem pastKeys_append {ks : List Bytes} (hk : lowMsgs a k = a.nbuf) :
    pastKeys a (ks ++ [k]) = pastKeys a ks ++ [k] := by
  simp [pastKeys, hk]

theorem pastKeys_eq_nil {ks : List Bytes} (h : ∀ x ∈ ks, x ≤ k) (hk : lowMsgs a k < a.nbuf) :
    pastKeys a ks = [] := by
  refine List.filter_eq_nil_iff.2 fun x hx => ?_
  have : lowMsgs a x ≤ lowMsgs a k := below_mono _ (h x hx)
  simp only [decide_eq_true_eq]
  omega

theorem nextIdx_low {i : ℕ} (hi : i ≤ lowMsgs a k) (hk : lowMsgs a k < a.nbuf) :
    nextIdx a b k i = lowMsgs a k := by
  unfold nextIdx
  simp only
  rw [if_pos (by omega : i < a.nbuf), max_eq_right hi, if_pos hk]

theorem nextIdx_past {i : ℕ} (hk : lowMsgs a k = a.nbuf) : nextIdx a b k i
    = if max (max i a.nbuf) (lowMsgs b k) < b.nbuf then max (max i a.nbuf) (lowMsgs b k) + a.nbuf
      else b.nbuf := by
  have h : (if i < a.nbuf then max i (lowMsgs a k) else i) = max i a.nbuf := by
    split_ifs <;> omega
  unfold nextIdx
  simp only
  rw [h, if_neg (by omega)]

/-- The index after the values under `ks` and the one under `k`. -/
theorem foldl_nextIdx (ks : List Bytes) : ∀ k, (ks ++ [k]).Pairwise (· < ·) →
    (ks ++ [k]).foldl (fun i k => nextIdx a b k i) 0
      = if lowMsgs a k < a.nbuf then lowMsgs a k
        else if drift a b (pastKeys a (ks ++ [k])) < b.nbuf
          then drift a b (pastKeys a (ks ++ [k])) + a.nbuf else b.nbuf := by
  induction ks using List.reverseRecOn with
  | nil =>
    intro k _
    have hle : lowMsgs a k ≤ a.nbuf := below_le _ _
    rw [List.foldl_append, List.foldl_nil, List.foldl_cons, List.foldl_nil]
    by_cases hk : lowMsgs a k < a.nbuf
    · rw [if_pos hk, nextIdx_low (by omega) hk]
    · have hk' : lowMsgs a k = a.nbuf := by omega
      rw [if_neg hk, nextIdx_past hk', pastKeys_append hk', drift_append]
      simp [drift, pastKeys]
  | append_singleton ks k' ih =>
    intro k hks
    obtain ⟨hks', -, hlt⟩ := List.pairwise_append.1 hks
    have hk'k : k' < k := hlt k' (by simp) k (by simp)
    have hup : ∀ x ∈ ks ++ [k'], x ≤ k' := by
      intro x hx
      rcases List.mem_append.1 hx with hx | hx
      · exact ((List.pairwise_append.1 hks').2.2 x hx k' (by simp)).le
      · exact (List.mem_singleton.1 hx).le
    have hle : lowMsgs a k ≤ a.nbuf := below_le _ _
    have hmono : lowMsgs a k' ≤ lowMsgs a k := below_mono _ hk'k.le
    rw [List.foldl_append, ih k' hks', List.foldl_cons, List.foldl_nil]
    by_cases hk : lowMsgs a k < a.nbuf
    · rw [if_pos hk, if_pos (by omega), nextIdx_low hmono hk]
    have hka : lowMsgs a k = a.nbuf := by omega
    rw [if_neg hk, nextIdx_past hka, pastKeys_append hka, drift_append]
    by_cases hk' : lowMsgs a k' < a.nbuf
    · rw [if_pos hk', pastKeys_eq_nil hup hk', max_eq_right hk'.le]
      simp [drift]
    · rw [if_neg hk']
      generalize drift a b (pastKeys a (ks ++ [k'])) = u
      by_cases hu : u < b.nbuf
      · rw [if_pos hu, max_eq_left (by omega : a.nbuf ≤ u + a.nbuf)]
      · rw [if_neg hu, if_neg (by omega), if_neg (by omega)]

end Index

/-! ## Filling a block -/

section Fill

variable {E : Env} {R : Fail → Prop} {n : Node}

theorem ends_setval {kv : GefsKvp} (h : ¬ n.used + valsz kv ≤ n.spc → R .capacity) :
    Ends (fun _ => True) R (setval n kv)
      fun n' => n' = { n with vals := n.vals ++ [kv] } ∧ n.used + valsz kv ≤ n.spc := by
  have hu := used_eq n
  have hz : valsz kv = 2 + 2 + kv.1.length + 2 + kv.2.length := rfl
  unfold setval
  dsimp only
  split_ifs
  · exact .pure ⟨rfl, by omega⟩
  · exact .throw (h (by omega))

theorem ends_setmsg {m : GefsMsg} (hp : n.pivot = true)
    (h : ¬ msgSum n.msgs + msgsz m ≤ gefsBufspc → R .capacity) :
    Ends (fun _ => True) R (setmsg n m)
      fun n' => n' = { n with msgs := n.msgs ++ [m] } ∧ msgSum n.msgs + msgsz m ≤ gefsBufspc := by
  have hu := buffill_eq n
  have hz : 7 ≤ msgsz m := by
    unfold msgsz
    omega
  unfold buffill at hu
  have hput : Ends (fun _ => True) R
      (if 2 * (n.nbuf + 1) + n.bufsz + (msgsz m - 2) ≤ gefsBufspc then
        (pure { n with msgs := n.msgs ++ [m] } : Op Node) else throw .capacity)
      fun n' => n' = { n with msgs := n.msgs ++ [m] } ∧ msgSum n.msgs + msgsz m ≤ gefsBufspc := by
    split_ifs
    · exact .pure ⟨rfl, by omega⟩
    · exact .throw (h (by omega))
  unfold setmsg
  rw [if_neg (by simp [hp])]
  exact hput

theorem ends_setvals : ∀ (vs : List GefsKvp) {n : Node}, n.used ≤ n.spc →
    (¬ n.used + valSum vs ≤ n.spc → R .capacity) →
    Ends (fun _ => True) R (setvals n vs)
      fun n' => n' = { n with vals := n.vals ++ vs } ∧ n.used + valSum vs ≤ n.spc
  | [], n, hn, _ => .pure ⟨by simp, by simpa using hn⟩
  | v :: vs, n, hn, h => by
    simp only [valSum_cons] at h ⊢
    unfold setvals
    rw [List.foldlM_cons]
    refine (ends_setval fun hc => h (by omega)).bind ?_
    rintro _ ⟨rfl, hv⟩
    have hu : ({ n with vals := n.vals ++ [v] } : Node).used = n.used + valsz v := by
      simp [Node.used]
    refine (ends_setvals vs (hu ▸ hv) fun hc => h ?_).mono ?_
    · rw [hu] at hc
      change ¬ n.used + valsz v + valSum vs ≤ n.spc at hc
      omega
    · rintro _ ⟨rfl, hf⟩
      rw [hu] at hf
      change n.used + valsz v + valSum vs ≤ n.spc at hf
      exact ⟨by simp, by omega⟩

theorem ends_setmsgs : ∀ (ms : List GefsMsg) {n : Node}, n.pivot = true →
    msgSum n.msgs ≤ gefsBufspc → (¬ msgSum n.msgs + msgSum ms ≤ gefsBufspc → R .capacity) →
    Ends (fun _ => True) R (setmsgs n ms)
      fun n' => n' = { n with msgs := n.msgs ++ ms } ∧ msgSum n.msgs + msgSum ms ≤ gefsBufspc
  | [], n, _, hn, _ => .pure ⟨by simp, by simpa using hn⟩
  | m :: ms, n, hp, hn, h => by
    simp only [msgSum_cons] at h ⊢
    unfold setmsgs
    rw [List.foldlM_cons]
    refine (ends_setmsg hp fun hc => h (by omega)).bind ?_
    rintro _ ⟨rfl, hm⟩
    have hs : msgSum (n.msgs ++ [m]) = msgSum n.msgs + msgsz m := by simp
    refine (ends_setmsgs ms (n := { n with msgs := n.msgs ++ [m] }) hp (hs ▸ hm)
      fun hc => h ?_).mono ?_
    · rw [hs] at hc
      omega
    · rintro _ ⟨rfl, hf⟩
      rw [hs] at hf
      exact ⟨by simp, by omega⟩

/-- A block with values is put in the cache. -/
theorem ends_setb (h : n.vals ≠ []) : Ends (fun _ => True) R (setb E n)
    fun o => ∃ c, o = some c ∧ c.vals = n.vals ∧ c.msgs = n.msgs := by
  have hn : ¬ n.nval = 0 := fun h0 => h (List.length_eq_zero_iff.1 h0)
  unfold setb enqueue
  rw [if_neg hn]
  exact .map ((Ends.modify fun _ _ => trivial).bind fun _ _ => .pure ⟨_, rfl, rfl, rfl⟩)

end Fill

/-! ## The loops of `rotate` -/

section Loops

variable {R : Fail → Prop} {a b : Node} {half : ℕ}

/-- Once the second block is filled, all values go into it. -/
theorem ends_rotateVals_right : ∀ (vs : List GefsKvp) {w : Halves} {i : ℕ} {sp : ℤ},
    w.right = true → w.r.used ≤ w.r.spc → (¬ w.r.used + valSum vs ≤ w.r.spc → R .capacity) →
    Ends (fun _ => True) R (rotateVals a b half vs w i sp) fun x => x.1.l = w.l
      ∧ x.1.r = { w.r with vals := w.r.vals ++ vs } ∧ x.2 = sp
  | [], w, i, sp, _, _, _ => .pure ⟨rfl, by simp, rfl⟩
  | v :: vs, w, i, sp, hw, hr, h => by
    simp only [valSum_cons] at h
    have hu : ({ w.r with vals := w.r.vals ++ [v] } : Node).used = w.r.used + valsz v := by
      simp [Node.used]
    unfold rotateVals Halves.put
    simp only [hw, true_or, if_true, Bool.true_eq_false, false_and, decide_false, Bool.or_false,
      if_false, bind_assoc, pure_bind]
    refine (ends_setval fun hc => h (by omega)).bind ?_
    rintro _ ⟨rfl, hv⟩
    refine (ends_rotateVals_right vs rfl (hu ▸ hv) fun hc => h ?_).mono ?_
    · simp only [hu] at hc
      change ¬ w.r.used + valsz v + valSum vs ≤ w.r.spc at hc
      omega
    · rintro x ⟨h1, h2, h3⟩
      exact ⟨h1, by rw [h2]; simp, h3⟩

/-- The values that come before half the bytes are copied go into the first block. -/
theorem ends_rotateVals_left {f : Bytes → ℕ → ℕ} {Q : Halves × ℤ → Prop} {rest : List GefsKvp}
    (hf : ∀ d k i, d.msgs = [] → spillsbuf d a b k i = (false, f k i)) {sp : ℤ} :
    ∀ {L : List GefsKvp} {w : Halves} {i : ℕ}, w.right = false → w.l.msgs = [] →
    w.l.used ≤ w.l.spc → (∀ L₁ v L₂, L = L₁ ++ v :: L₂ → w.copied + valSum L₁ < half) →
    (¬ w.l.used + valSum L ≤ w.l.spc → R .capacity) →
    (∀ w' : Halves, w'.l = { w.l with vals := w.l.vals ++ L } → w'.r = w.r → w'.right = false →
      w'.copied = w.copied + valSum L → w.l.used + valSum L ≤ w.l.spc →
      Ends (fun _ => True) R (rotateVals a b half rest w' (L.foldl (fun i v => f v.1 i) i) sp) Q) →
    Ends (fun _ => True) R (rotateVals a b half (L ++ rest) w i sp) Q
  | [], w, i, hw, _, hl, _, _, hk => hk w (by simp) rfl hw (by simp) (by simpa using hl)
  | v :: L, w, i, hw, hm, hl, hhalf, h, hk => by
    simp only [valSum_cons] at h hk
    have hu : ({ w.l with vals := w.l.vals ++ [v] } : Node).used = w.l.used + valsz v := by
      simp [Node.used]
    have hlt : w.copied < half := by simpa using hhalf [] v L rfl
    have hcond : ¬ (w.right = true ∨ half ≤ w.copied) := by simp [hw, hlt]
    rw [List.cons_append]
    unfold rotateVals Halves.put
    rw [if_neg hcond, hf _ _ _ hm]
    simp only [hw, not_le.2 hlt, Bool.false_eq_true, or_false, and_false, decide_false,
      Bool.or_self, if_false, bind_assoc, pure_bind]
    refine (ends_setval fun hc => h (by omega)).bind ?_
    rintro _ ⟨rfl, hv⟩
    refine ends_rotateVals_left hf rfl hm (hu ▸ hv) (fun L₁ x L₂ he => ?_) (fun hc => h ?_) ?_
    · have := hhalf (v :: L₁) x L₂ (by rw [he]; rfl)
      simp only [valSum_cons] at this
      change w.copied + valsz v + valSum L₁ < half
      omega
    · simp only [hu] at hc
      change ¬ w.l.used + valsz v + valSum L ≤ w.l.spc at hc
      omega
    · intro w' h1 h2 h3 h4 h5
      simp only [hu] at h5
      change w.l.used + valsz v + valSum L ≤ w.l.spc at h5
      exact hk w' (by rw [h1]; simp) h2 h3 (by rw [h4]; simp only; omega) (by omega)

/-- With half the bytes copied the second block begins, and the index stays. -/
theorem ends_rotateVals_turn {v : GefsKvp} {vs : List GefsKvp} {w : Halves} {i : ℕ} {sp : ℤ}
    (hw : w.right = false) (hh : half ≤ w.copied)
    (h : ¬ w.r.used + valSum (v :: vs) ≤ w.r.spc → R .capacity) :
    Ends (fun _ => True) R (rotateVals a b half (v :: vs) w i sp) fun x => x.1.l = w.l
      ∧ x.1.r = { w.r with vals := w.r.vals ++ v :: vs } ∧ x.2 = i := by
  simp only [valSum_cons] at h
  have hu : ({ w.r with vals := w.r.vals ++ [v] } : Node).used = w.r.used + valsz v := by
    simp [Node.used]
  unfold rotateVals Halves.put
  simp only [hw, hh, Bool.false_eq_true, false_or, if_true, true_or, and_self, decide_true,
    Bool.false_or, bind_assoc, pure_bind]
  refine (ends_setval fun hc => h (by omega)).bind ?_
  rintro _ ⟨rfl, hv⟩
  refine (ends_rotateVals_right vs rfl (hu ▸ hv) fun hc => h ?_).mono ?_
  · simp only [hu] at hc
    change ¬ w.r.used + valsz v + valSum vs ≤ w.r.spc at hc
    omega
  · rintro x ⟨h1, h2, h3⟩
    exact ⟨h1, by rw [h2]; simp, h3⟩

theorem ends_rotateMsgs_right {sp : ℤ} : ∀ (ms : List GefsMsg) {o : ℕ} {w : Halves},
    w.right = true → w.r.pivot = true → msgSum w.r.msgs ≤ gefsBufspc →
    (¬ msgSum w.r.msgs + msgSum ms ≤ gefsBufspc → R .capacity) →
    Ends (fun _ => True) R (rotateMsgs sp ms o w) fun x => x.l = w.l
      ∧ x.r = { w.r with msgs := w.r.msgs ++ ms } ∧ msgSum w.r.msgs + msgSum ms ≤ gefsBufspc
  | [], o, w, _, _, hr, _ => .pure ⟨rfl, by simp, by simpa using hr⟩
  | m :: ms, o, w, hw, hp, hr, h => by
    simp only [msgSum_cons] at h ⊢
    have hs : msgSum (w.r.msgs ++ [m]) = msgSum w.r.msgs + msgsz m := by simp
    have hset : (if (o : ℤ) = sp then { w with right := true } else w) = w := by
      split_ifs
      · rw [← hw]
      · rfl
    unfold rotateMsgs Halves.put
    simp only [hset, hw, if_true, bind_assoc, pure_bind]
    refine (ends_setmsg hp fun hc => h (by omega)).bind ?_
    rintro _ ⟨rfl, hm⟩
    refine (ends_rotateMsgs_right ms (w := ⟨w.l, { w.r with msgs := w.r.msgs ++ [m] }, true,
      w.copied, w.mid⟩) rfl hp (hs ▸ hm) fun hc => h ?_).mono ?_
    · simp only [hs] at hc
      omega
    · rintro x ⟨h1, h2, h3⟩
      simp only [hs] at h3
      exact ⟨h1, by rw [h2]; simp, by omega⟩

/-- The first `i` messages go into the first block. -/
theorem ends_rotateMsgs {i : ℕ} : ∀ (ms : List GefsMsg) {o : ℕ} {w : Halves},
    w.right = false → o ≤ i → w.l.pivot = true → w.r.pivot = true →
    msgSum w.l.msgs ≤ gefsBufspc → msgSum w.r.msgs ≤ gefsBufspc →
    (¬ (msgSum w.l.msgs + msgSum (ms.take (i - o)) ≤ gefsBufspc
      ∧ msgSum w.r.msgs + msgSum (ms.drop (i - o)) ≤ gefsBufspc) → R .capacity) →
    Ends (fun _ => True) R (rotateMsgs i ms o w) fun x =>
      x.l = { w.l with msgs := w.l.msgs ++ ms.take (i - o) }
      ∧ x.r = { w.r with msgs := w.r.msgs ++ ms.drop (i - o) }
      ∧ msgSum w.l.msgs + msgSum (ms.take (i - o)) ≤ gefsBufspc
      ∧ msgSum w.r.msgs + msgSum (ms.drop (i - o)) ≤ gefsBufspc
  | [], o, w, _, _, _, _, hl, hr, _ =>
    .pure ⟨by simp, by simp, by simpa using hl, by simpa using hr⟩
  | m :: ms, o, w, hw, ho, hpl, hpr, hl, hr, h => by
    rcases Nat.lt_or_ge o i with hlt | hge
    · have hsub : i - o = (i - (o + 1)) + 1 := by omega
      rw [hsub, List.take_succ_cons, List.drop_succ_cons, msgSum_cons] at h ⊢
      have hs : msgSum (w.l.msgs ++ [m]) = msgSum w.l.msgs + msgsz m := by simp
      unfold rotateMsgs Halves.put
      have hne : ¬ (o : ℤ) = i := by omega
      simp only [hne, if_false, hw, Bool.false_eq_true, bind_assoc, pure_bind]
      refine (ends_setmsg hpl fun hc => h (by omega)).bind ?_
      rintro _ ⟨rfl, hm⟩
      refine (ends_rotateMsgs ms (o := o + 1) (w := ⟨{ w.l with msgs := w.l.msgs ++ [m] },
        w.r, false, w.copied, w.mid⟩) rfl hlt hpl hpr (hs ▸ hm) hr fun hc => h ?_).mono ?_
      · simp only [hs] at hc
        omega
      · rintro x ⟨h1, h2, h3, h4⟩
        simp only [hs] at h3
        exact ⟨by rw [h1]; simp, h2, by omega, h4⟩
    · obtain rfl : o = i := by omega
      rw [Nat.sub_self, List.take_zero, List.drop_zero, msgSum_nil, msgSum_cons] at h ⊢
      have hs : msgSum (w.r.msgs ++ [m]) = msgSum w.r.msgs + msgsz m := by simp
      unfold rotateMsgs Halves.put
      simp only [if_true, bind_assoc, pure_bind]
      refine (ends_setmsg hpr fun hc => h (by omega)).bind ?_
      rintro _ ⟨rfl, hm⟩
      refine (ends_rotateMsgs_right ms (w := ⟨w.l, { w.r with msgs := w.r.msgs ++ [m] },
        true, w.copied, w.mid⟩) rfl hpr (hs ▸ hm) fun hc => h ?_).mono ?_
      · simp only [hs] at hc
        omega
      · rintro x ⟨h1, h2, h3⟩
        simp only [hs] at h3
        exact ⟨by rw [h1]; simp, by rw [h2]; simp, by omega, by omega⟩

end Loops

/-! ## Merging -/

section Merge

variable {E : Env} {R : Fail → Prop} {s : St} {p pp : Path} {a b : Node} {a₁ a₂ : Int64}

/-- The two fit in one block. -/
def FitTogether (a b : Node) : Prop :=
  a.used + b.used ≤ a.spc ∧ msgSum a.msgs + msgSum b.msgs ≤ gefsBufspc

/-- `merge` gives one block with the values and messages of both. -/
def MergeKept (E : Env) (s : St) (p pp : Path) (idx : ℤ) (a b : Node) : Prop :=
  ∃ r s' n, exec (merge E p pp idx a b) s = (.ok r, s') ∧ r.2.nl = some n
    ∧ n.vals = a.vals ++ b.vals ∧ n.msgs = a.msgs ++ b.msgs

/-- `merge` once it has a block. -/
def mergeIn (E : Env) (p pp : Path) (idx : ℤ) (a b d : Node) : Op (Path × Path) := do
  let d ← setvals d (a.vals ++ b.vals)
  let d ← if a.pivot then setmsgs d (a.msgs ++ b.msgs) else pure d
  let nl ← setb E d
  pure ({ p with midx := idx }, { pp with op := .pomerge, nl := nl })

theorem Siblings.leaf (h : Siblings a b) (hp : a.pivot = false) : a.msgs = [] ∧ b.msgs = [] :=
  ⟨h.fits.1.leaf hp, h.fits.2.leaf (h.alike ▸ hp)⟩

theorem ends_mergeIn (h : Siblings a b) (hcap : ¬ FitTogether a b → R .capacity) (p pp : Path)
    (idx : ℤ) (bp : GefsBptr) : Ends (fun _ => True) R (mergeIn E p pp idx a b ⟨bp, a.pivot, [], []⟩)
      fun x => FitTogether a b ∧ ∃ n, x.2.nl = some n ∧ n.vals = a.vals ++ b.vals
        ∧ n.msgs = a.msgs ++ b.msgs := by
  have hspc : (⟨bp, a.pivot, [], []⟩ : Node).spc = a.spc := rfl
  have hused : (⟨bp, a.pivot, [], []⟩ : Node).used = 0 := rfl
  have hsum : valSum (a.vals ++ b.vals) = a.used + b.used := valSum_append _ _
  unfold mergeIn
  refine (ends_setvals _ (by rw [hused]; omega) fun hc => hcap fun hf => hc ?_).bind ?_
  · rw [hused, hsum, hspc, zero_add]
    exact hf.1
  rintro _ ⟨rfl, hv⟩
  rw [hused, hsum, hspc, zero_add] at hv
  have hne : a.vals ++ b.vals ≠ [] := by simp [h.filled.1]
  have hdone : ∀ d : Node, d.vals = a.vals ++ b.vals → d.msgs = a.msgs ++ b.msgs →
      msgSum a.msgs + msgSum b.msgs ≤ gefsBufspc → Ends (fun _ => True) R
        (do
          let nl ← setb E d
          pure ({ p with midx := idx }, { pp with op := .pomerge, nl := nl }))
        fun x : Path × Path => FitTogether a b ∧ ∃ n, x.2.nl = some n
          ∧ n.vals = a.vals ++ b.vals ∧ n.msgs = a.msgs ++ b.msgs := by
    intro d hdv hdm hm
    refine (ends_setb (by rwa [hdv])).bind fun o ⟨c, ho, hcv, hcm⟩ => .pure ⟨⟨hv, hm⟩, c, ho, ?_, ?_⟩
    · rw [hcv, hdv]
    · rw [hcm, hdm]
  dsimp only
  by_cases hp : a.pivot = true
  · rw [if_pos hp]
    refine (ends_setmsgs _ (n := ⟨bp, a.pivot, a.vals ++ b.vals, []⟩) hp (Nat.zero_le _)
      fun hc => hcap fun hf => hc ?_).bind ?_
    · simpa using hf.2
    · rintro _ ⟨rfl, hm⟩
      exact hdone _ rfl rfl (by simpa using hm)
  · obtain ⟨h1, h2⟩ := h.leaf (by simpa using hp)
    rw [if_neg hp, pure_bind]
    exact hdone _ rfl (by simp [h1, h2]) (by simp [h1, h2])

theorem mergeKept_iff (h : Siblings a b) (ha : E.ans s.calls = some a₁) (hl : s.live a₁ = false)
    (idx : ℤ) : MergeKept E s p pp idx a b ↔ FitTogether a b := by
  have hrun : exec (merge E p pp idx a b) s
      = exec (mergeIn E p pp idx a b ⟨⟨a₁, -1, s.tree.memgen⟩, a.pivot, [], []⟩) _ :=
    exec_bind_ok (exec_newblk ha hl a.pivot)
  constructor
  · rintro ⟨r, s', n, hx, -⟩
    have := (ends_mergeIn (R := fun _ => True) (E := E) h (fun _ => trivial) p pp idx _ _
      trivial).2.1 r (by rw [← hrun, hx])
    exact this.1
  · intro hf
    obtain ⟨-, hok, herr⟩ := ends_mergeIn (R := fun _ => False) (E := E) h (fun hc => hc hf) p pp
      idx ⟨a₁, -1, s.tree.memgen⟩
      { s with calls := s.calls + 1, live := fun x => x = a₁ || s.live x } trivial
    rcases hx : exec (mergeIn E p pp idx a b ⟨⟨a₁, -1, s.tree.memgen⟩, a.pivot, [], []⟩)
      { s with calls := s.calls + 1, live := fun x => x = a₁ || s.live x } with ⟨e | r, s'⟩
    · exact (herr e (by rw [hx])).elim
    · obtain ⟨-, n, hn⟩ := hok r (by rw [hx])
      exact ⟨r, s', n, hrun.trans hx, hn⟩

end Merge

/-! ## Rotating -/

section Rotate

variable {E : Env} {R : Fail → Prop} {s : St} {p pp : Path} {a b : Node} {a₁ a₂ : Int64}
  {L rest : List GefsKvp} {v v' : GefsKvp} {half : ℕ}

/-- Where `rotmerge` has the values parted. -/
def halfOf (a b : Node) : ℕ := (a.used + b.used) / 2

/-- `rotate` gives two blocks with the values and messages of both, the messages below the second's
first key in the first. -/
def RotateKept (E : Env) (s : St) (p pp : Path) (midx : ℤ) (a b : Node) : Prop :=
  ∃ r s' l q, exec (rotate E p pp midx a b (halfOf a b)) s = (.ok r, s') ∧ r.2.nl = some l
    ∧ r.2.nr = some q ∧ l.vals ++ q.vals = a.vals ++ b.vals ∧ l.msgs ++ q.msgs = a.msgs ++ b.msgs
    ∧ (∃ v ∈ q.vals.head?, (∀ m ∈ l.msgs, m.k < v.1) ∧ ∀ m ∈ q.msgs, v.1 ≤ m.k)
    ∧ msgSum l.msgs ≤ gefsBufspc ∧ msgSum q.msgs ≤ gefsBufspc

/-- The index parts the messages at `k`, the first key on the right; `ks` are the keys on the left
and `k'` the last of them. While some of the first block's messages are not below `k'`, no message
lies from `k'` up to `k`. Behind them the drift is as large as the number of the second block's
messages that are below `k`, or as large as all its messages and there are as many as all of the
first's and these. -/
def PartsRight (a b : Node) (ks : List Bytes) (k' k : Bytes) : Prop :=
  if lowMsgs a k' < a.nbuf then ∀ m ∈ a.msgs ++ b.msgs, m.k < k → m.k < k'
  else a.nbuf + lowMsgs b k = if drift a b (pastKeys a ks) < b.nbuf
    then drift a b (pastKeys a ks) + a.nbuf else b.nbuf

/-- The values part at half their bytes with something on both sides, the left ones fit, and the
messages part at the same key and fit. -/
def Rotates (a b : Node) : Prop :=
  ∃ L v' v rest, a.vals ++ b.vals = L ++ v' :: v :: rest ∧ valSum L < halfOf a b
    ∧ halfOf a b ≤ valSum L + valsz v' ∧ valSum L + valsz v' ≤ a.spc
    ∧ PartsRight a b ((L ++ [v']).map (·.1)) v'.1 v.1
    ∧ msgSum ((a.msgs ++ b.msgs).filter (·.k < v.1)) ≤ gefsBufspc
    ∧ msgSum ((a.msgs ++ b.msgs).filter (v.1 ≤ ·.k)) ≤ gefsBufspc

/-- The index `rotate` stops at. -/
def stopIdx (a b : Node) (L : List GefsKvp) : ℕ := L.foldl (fun i v => nextIdx a b v.1 i) 0

theorem parts_iff (h : Siblings a b) (hvs : a.vals ++ b.vals = L ++ v' :: v :: rest) :
    ((∀ m ∈ (a.msgs ++ b.msgs).take (stopIdx a b (L ++ [v'])), m.k < v.1)
      ∧ ∀ m ∈ (a.msgs ++ b.msgs).drop (stopIdx a b (L ++ [v'])), v.1 ≤ m.k)
      ↔ PartsRight a b ((L ++ [v']).map (·.1)) v'.1 v.1 := by
  have hkeys : ((L ++ [v']).map (·.1) ++ v.1 :: rest.map (·.1)).Pairwise (· < ·) := by
    have h1 : (L ++ v' :: v :: rest).Pairwise fun v w : GefsKvp => v.1 < w.1 := hvs ▸ h.vals
    have h2 := List.pairwise_map.2 h1
    simpa using h2
  obtain ⟨hks, -, hlt⟩ := List.pairwise_append.1 hkeys
  have hk : v'.1 < v.1 := hlt v'.1 (by simp) v.1 (by simp)
  have hstop : stopIdx a b (L ++ [v']) = if lowMsgs a v'.1 < a.nbuf then lowMsgs a v'.1
      else if drift a b (pastKeys a ((L ++ [v']).map (·.1))) < b.nbuf
        then drift a b (pastKeys a ((L ++ [v']).map (·.1))) + a.nbuf else b.nbuf := by
    rw [List.map_append, List.map_singleton] at hks ⊢
    rw [← foldl_nextIdx _ _ hks, stopIdx, ← List.map_singleton, ← List.map_append, List.foldl_map]
  have hlen : (a.msgs ++ b.msgs).length = a.nbuf + b.nbuf := List.length_append
  have hale : lowMsgs a v'.1 ≤ a.nbuf := below_le _ _
  have hmono : lowMsgs a v'.1 ≤ lowMsgs a v.1 := below_mono _ hk.le
  have hale' : lowMsgs a v.1 ≤ a.nbuf := below_le _ _
  rw [h.msgs.parts_iff, hstop, hlen]
  unfold PartsRight
  by_cases hlow : lowMsgs a v'.1 < a.nbuf
  · rw [if_pos hlow, if_pos hlow]
    -- the second block's messages are all above
    have hb0 : lowMsgs b v'.1 = 0 := by
      have hne : ¬ ∀ m ∈ a.msgs, m.k < v'.1 := fun hall =>
        absurd (below_eq_length.2 hall) hlow.ne
      push Not at hne
      obtain ⟨m, hm, hle⟩ := hne
      exact below_eq_zero.2 fun m' hm' => (hle.trans_lt (h.apart m hm m' hm')).le
    have hsame : lowMsgs a v'.1 = below GefsMsg.k (a.msgs ++ b.msgs) v'.1 := by
      rw [below_append]
      exact (by rw [hb0, add_zero] : lowMsgs a v'.1 = lowMsgs a v'.1 + lowMsgs b v'.1)
    rw [min_eq_left (by omega), hsame]
    constructor
    · intro heq m hm hmk
      have hf := h.msgs.take_below v.1
      rw [← heq, h.msgs.take_below] at hf
      have hmem := congrArg (m ∈ ·) hf
      simp only [List.mem_filter, decide_eq_true_eq, eq_iff_iff] at hmem
      exact (hmem.2 ⟨hm, hmk⟩).2
    · intro hall
      refine le_antisymm (below_mono _ hk.le) ?_
      exact List.countP_mono_left fun m hm hmk => by
        simp only [decide_eq_true_eq] at hmk ⊢
        exact hall m hm hmk
  · rw [if_neg hlow, if_neg hlow, below_append]
    change min _ _ = lowMsgs a v.1 + lowMsgs b v.1 ↔ _
    rw [show lowMsgs a v.1 = a.nbuf by omega]
    generalize drift a b _ = u
    split_ifs <;> omega

/-- The values and messages that go to either side fit there. -/
def SidesFit (a b : Node) (L R : List GefsKvp) : Prop :=
  valSum L ≤ a.spc ∧ valSum R ≤ a.spc
    ∧ msgSum ((a.msgs ++ b.msgs).take (stopIdx a b L)) ≤ gefsBufspc
    ∧ msgSum ((a.msgs ++ b.msgs).drop (stopIdx a b L)) ≤ gefsBufspc

/-- `rotate` once it has its blocks. -/
def rotateIn (E : Env) (p pp : Path) (midx : ℤ) (a b : Node) (half : ℕ) (l r : Node) :
    Op (Path × Path) := do
  let (w, sp) ← rotateVals a b half (a.vals ++ b.vals) ⟨l, r, false, 0, []⟩ 0 (-1)
  let w ← if a.pivot then rotateMsgs sp (a.msgs ++ b.msgs) 0 { w with right := false } else pure w
  let nl ← setb E w.l
  let nr ← setb E w.r
  pure ({ p with midx := midx }, { pp with op := .porot, nl := nl, nr := nr })

/-- The values once they are parted. -/
theorem ends_rotateVals (h : Siblings a b) {bp bp' : GefsBptr} {vs : List GefsKvp}
    (hbefore : ∀ L₁ x L₂, L = L₁ ++ x :: L₂ → valSum L₁ < half) (hafter : half ≤ valSum L)
    (hcap : ¬ (valSum L ≤ a.spc ∧ valSum (v :: rest) ≤ a.spc) → R .capacity)
    (hvs : vs = L ++ v :: rest) : Ends (fun _ => True) R
      (rotateVals a b half vs ⟨⟨bp, a.pivot, [], []⟩, ⟨bp', a.pivot, [], []⟩, false, 0, []⟩ 0 (-1))
      fun x => valSum L ≤ a.spc ∧ x.1.l = ⟨bp, a.pivot, L, []⟩
        ∧ x.1.r = ⟨bp', a.pivot, v :: rest, []⟩ ∧ (a.pivot = true → x.2 = stopIdx a b L) := by
  have hused : ∀ bp : GefsBptr, (⟨bp, a.pivot, [], []⟩ : Node).used = 0 := fun _ => rfl
  have hspc : ∀ bp : GefsBptr, (⟨bp, a.pivot, [], []⟩ : Node).spc = a.spc := fun _ => rfl
  rw [hvs]
  refine ends_rotateVals_left (spillsbuf_alike h) rfl rfl (by rw [hused]; omega) (fun L₁ x L₂ he => ?_)
    (fun hc => hcap fun hf => hc ?_) fun w' hl hr hw hcop hle => ?_
  · simpa using hbefore L₁ x L₂ he
  · rw [hused, hspc, zero_add]
    exact hf.1
  refine (ends_rotateVals_turn hw (by rw [hcop]; simpa using hafter) fun hc => hcap fun hf =>
    hc ?_).mono ?_
  · rw [hr, hused, hspc, zero_add]
    exact hf.2
  · rintro x ⟨h1, h2, h3⟩
    rw [hused, hspc, zero_add] at hle
    refine ⟨hle, by rw [h1, hl]; rfl, by rw [h2, hr]; rfl, fun hp => ?_⟩
    rw [h3, stopIdx]
    simp only [hp, if_true]

theorem ends_rotateIn (h : Siblings a b) (hvs : a.vals ++ b.vals = L ++ v :: rest) (hne : L ≠ [])
    (hbefore : ∀ L₁ x L₂, L = L₁ ++ x :: L₂ → valSum L₁ < half) (hafter : half ≤ valSum L)
    (hcap : ¬ SidesFit a b L (v :: rest) → R .capacity) (p pp : Path) (midx : ℤ) (bp bp' : GefsBptr) :
    Ends (fun _ => True) R
      (rotateIn E p pp midx a b half ⟨bp, a.pivot, [], []⟩ ⟨bp', a.pivot, [], []⟩)
      fun x => valSum L ≤ a.spc ∧ ∃ c d, x.2.nl = some c ∧ x.2.nr = some d ∧ c.vals = L
        ∧ d.vals = v :: rest ∧ c.msgs = (a.msgs ++ b.msgs).take (stopIdx a b L)
        ∧ d.msgs = (a.msgs ++ b.msgs).drop (stopIdx a b L) := by
  have hdone : ∀ w : Halves, w.l.vals = L → w.r.vals = v :: rest →
      w.l.msgs = (a.msgs ++ b.msgs).take (stopIdx a b L) →
      w.r.msgs = (a.msgs ++ b.msgs).drop (stopIdx a b L) → valSum L ≤ a.spc →
      Ends (fun _ => True) R
        (do
          let nl ← setb E w.l
          let nr ← setb E w.r
          pure ({ p with midx := midx }, { pp with op := .porot, nl := nl, nr := nr }))
        fun x : Path × Path => valSum L ≤ a.spc ∧ ∃ c d, x.2.nl = some c ∧ x.2.nr = some d
          ∧ c.vals = L ∧ d.vals = v :: rest ∧ c.msgs = (a.msgs ++ b.msgs).take (stopIdx a b L)
          ∧ d.msgs = (a.msgs ++ b.msgs).drop (stopIdx a b L) := by
    intro w h1 h2 h3 h4 hL
    refine (ends_setb (by rwa [h1])).bind fun o ⟨c, ho, hcv, hcm⟩ => ?_
    refine (ends_setb (by rw [h2]; exact List.cons_ne_nil _ _)).bind fun o' ⟨d, ho', hdv, hdm⟩ => ?_
    exact .pure ⟨hL, c, d, ho, ho', hcv.trans h1, hdv.trans h2, hcm.trans h3, hdm.trans h4⟩
  unfold rotateIn
  refine (ends_rotateVals h hbefore hafter (fun hc => hcap fun hf => hc ⟨hf.1, hf.2.1⟩) hvs).bind ?_
  rintro ⟨w, sp⟩ ⟨hL, hl, hr, hsp⟩
  dsimp only at hl hr hsp ⊢
  by_cases hp : a.pivot = true
  · rw [if_pos hp, hsp hp]
    refine (ends_rotateMsgs _ (w := { w with right := false }) rfl (Nat.zero_le _) (by rw [hl]; exact hp)
      (by rw [hr]; exact hp) (by rw [hl]; exact Nat.zero_le _) (by rw [hr]; exact Nat.zero_le _)
      fun hc => hcap fun hf => hc ?_).bind ?_
    · rw [hl, hr, Nat.sub_zero, msgSum_nil, zero_add, zero_add]
      exact hf.2.2
    · rintro x ⟨h1, h2, -, -⟩
      rw [Nat.sub_zero] at h1 h2
      refine hdone x ?_ ?_ ?_ ?_ hL
      · rw [h1, hl]
      · rw [h2, hr]
      · rw [h1, hl]
        rfl
      · rw [h2, hr]
        rfl
  · obtain ⟨h1, h2⟩ := h.leaf (by simpa using hp)
    rw [if_neg hp, pure_bind]
    refine hdone w ?_ ?_ ?_ ?_ hL <;> simp [hl, hr, h1, h2]

/-- Where the values part, if they do: the right side begins once half the bytes are left of it. -/
theorem exists_cut (half : ℕ) : ∀ (vs : List GefsKvp) (c : ℕ), ∃ L rest, vs = L ++ rest
    ∧ (∀ L₁ x L₂, L = L₁ ++ x :: L₂ → c + valSum L₁ < half)
    ∧ (rest ≠ [] → half ≤ c + valSum L)
  | [], c => ⟨[], [], rfl, by simp, by simp⟩
  | v :: vs, c => by
    by_cases hc : half ≤ c
    · exact ⟨[], v :: vs, rfl, by simp, fun _ => by simpa using hc⟩
    · obtain ⟨L, rest, rfl, h1, h2⟩ := exists_cut half vs (c + valsz v)
      refine ⟨v :: L, rest, rfl, ?_, fun hr => ?_⟩
      · intro L₁ x L₂ he
        rcases L₁ with _ | ⟨y, L₁⟩
        · simpa using hc
        · obtain ⟨rfl, he'⟩ := List.cons.inj he
          have := h1 L₁ x L₂ he'
          simp only [valSum_cons]
          omega
      · have := h2 hr
        simp only [valSum_cons]
        omega

theorem gives_rotateMsgs {sp : ℤ} : ∀ {ms : List GefsMsg} {o : ℕ} {w : Halves},
    Gives (rotateMsgs sp ms o w) fun x => x.r.vals = w.r.vals
  | [], o, w => .pure rfl
  | m :: ms, o, w => by
    have hput : ∀ w' : Halves, w'.r.vals = w.r.vals →
        Gives (w'.put fun n => setmsg n m) fun x => x.r.vals = w.r.vals := by
      intro w' hw'
      unfold Halves.put
      by_cases hr : w'.right = true
      · rw [if_pos hr]
        refine (gives_setmsg _ _).bind fun n hn => .pure ?_
        rw [hn]
        exact hw'
      · rw [if_neg hr]
        exact (gives_setmsg _ _).bind fun n _ => .pure hw'
    unfold rotateMsgs
    refine (hput _ (by split_ifs <;> rfl)).bind fun x hx => ?_
    exact gives_rotateMsgs.mono fun y hy => hy.trans hx

/-- Where half the bytes are not reached before the last value, there is no second block. -/
theorem gives_rotateIn (h : Siblings a b) (p pp : Path) (midx : ℤ) (bp bp' : GefsBptr)
    (hbefore : ∀ L₁ x L₂, a.vals ++ b.vals = L₁ ++ x :: L₂ → valSum L₁ < half) :
    Gives (rotateIn E p pp midx a b half ⟨bp, a.pivot, [], []⟩ ⟨bp', a.pivot, [], []⟩)
      fun x => x.2.nr = none := by
  have hvals : Gives (rotateVals a b half (a.vals ++ b.vals)
      ⟨⟨bp, a.pivot, [], []⟩, ⟨bp', a.pivot, [], []⟩, false, 0, []⟩ 0 (-1))
      fun x => x.1.r.vals = [] := by
    rw [← List.append_nil (a.vals ++ b.vals)]
    refine ends_rotateVals_left (spillsbuf_alike h) rfl rfl (Nat.zero_le _) (fun L₁ x L₂ he => ?_)
      (fun _ => trivial) fun w' _ hr _ _ _ => .pure ?_
    · simpa using hbefore L₁ x L₂ he
    · rw [hr]
  have hdone : ∀ w : Halves, w.r.vals = [] → Gives
      (do
        let nl ← setb E w.l
        let nr ← setb E w.r
        pure ({ p with midx := midx }, { pp with op := .porot, nl := nl, nr := nr }))
      fun x : Path × Path => x.2.nr = none := by
    intro w hw
    have hr : Gives (setb E w.r) fun o => o = none := by
      unfold setb
      rw [if_pos (by rw [Node.nval, hw]; rfl)]
      exact (gives_any _).bind fun _ _ => .pure rfl
    exact (gives_any _).bind fun _ _ => hr.bind fun o ho => .pure ho
  unfold rotateIn
  refine hvals.bind ?_
  rintro ⟨w, sp⟩ hw
  dsimp only at hw ⊢
  by_cases hp : a.pivot = true
  · rw [if_pos hp]
    exact gives_rotateMsgs.bind fun x hx => hdone x (hx.trans hw)
  · rw [if_neg hp, pure_bind]
    exact hdone w hw

/-- The next two allocations give two addresses that are not in use. -/
structure TwoFree (E : Env) (s : St) (a₁ a₂ : Int64) : Prop where
  first : E.ans s.calls = some a₁
  second : E.ans (s.calls + 1) = some a₂
  free : s.live a₁ = false ∧ s.live a₂ = false
  ne : a₂ ≠ a₁

theorem exec_onError_eq_ok {α : Type} {x : Op α} {g : Op Unit} {r : α} {s s' : St}
    (hx : exec (onError x g) s = (.ok r, s')) : exec x s = (.ok r, s') := by
  unfold onError at hx
  rw [exec_tryCatch] at hx
  rcases he : exec x s with ⟨e | r', s₁⟩
  · rw [he] at hx
    dsimp only at hx
    by_cases h : e = .raised
    · rw [if_pos h] at hx
      obtain ⟨_, s₂, -, h2⟩ := exec_bind_eq_ok hx
      cases h2
    · rw [if_neg h] at hx
      cases hx
  · rw [he] at hx
    exact hx

/-- The state once both blocks are allocated. -/
def St.twoNew (s : St) (a₁ a₂ : Int64) : St :=
  { s with calls := s.calls + 1 + 1, live := fun x => x = a₂ || (x = a₁ || s.live x) }

theorem exec_rotate (ht : TwoFree E s a₁ a₂) {midx : ℤ} : exec (rotate E p pp midx a b half) s
    = exec (onError (rotateIn E p pp midx a b half ⟨⟨a₁, -1, s.tree.memgen⟩, a.pivot, [], []⟩
        ⟨⟨a₂, -1, s.tree.memgen⟩, a.pivot, [], []⟩) (do
          freeblk E ⟨⟨a₁, -1, s.tree.memgen⟩, a.pivot, [], []⟩
          freeblk E ⟨⟨a₂, -1, s.tree.memgen⟩, a.pivot, [], []⟩)) (s.twoNew a₁ a₂) := by
  have h2 := @exec_newblk E { s with calls := s.calls + 1, live := fun x => x = a₁ || s.live x } a₂
    ht.second (by simp [ht.ne, ht.free.2]) a.pivot
  unfold rotate
  rw [exec_bind_ok (exec_newblk ht.first ht.free.1 a.pivot), exec_bind_ok (exec_onError_ok h2)]
  rfl

theorem valSum_drop_le (h : Siblings a b) (hvs : a.vals ++ b.vals = L ++ v :: rest)
    (hafter : halfOf a b ≤ valSum L) : valSum (v :: rest) ≤ a.spc := by
  have hsum : a.used + b.used = valSum L + valSum (v :: rest) := by
    rw [← valSum_append, ← hvs, valSum_append]
    rfl
  have ha : a.used ≤ a.spc := used_eq a ▸ h.fits.1.vals
  have hb : b.used ≤ a.spc := by
    have := h.fits.2.vals
    rw [used_eq, Node.spc, ← h.alike] at this
    exact this
  unfold halfOf at hafter
  omega

theorem take_eq_filter (h : Siblings a b) {i : ℕ} {k : Bytes}
    (hi : min i (a.msgs ++ b.msgs).length = below GefsMsg.k (a.msgs ++ b.msgs) k) :
    (a.msgs ++ b.msgs).take i = (a.msgs ++ b.msgs).filter (·.k < k) :=
  (h.msgs.take_eq hi).trans (List.filter_congr fun _ _ => decide_eq_decide.2 Iff.rfl)

theorem drop_eq_filter (h : Siblings a b) {i : ℕ} {k : Bytes}
    (hi : min i (a.msgs ++ b.msgs).length = below GefsMsg.k (a.msgs ++ b.msgs) k) :
    (a.msgs ++ b.msgs).drop i = (a.msgs ++ b.msgs).filter (k ≤ ·.k) :=
  (h.msgs.drop_eq hi).trans (List.filter_congr fun _ _ => decide_eq_decide.2 Iff.rfl)

theorem rotateKept_iff (h : Siblings a b) (ht : TwoFree E s a₁ a₂) (midx : ℤ) :
    RotateKept E s p pp midx a b ↔ Rotates a b := by
  constructor
  · rintro ⟨r, s', l, q, hx, hl, hq, hvals, hmsgs, ⟨u, hu, hleft, hright⟩, hsl, hsr⟩
    rw [exec_rotate ht] at hx
    have hx := exec_onError_eq_ok hx
    obtain ⟨L, rest, hvs, hbefore, hafter⟩ := exists_cut (halfOf a b) (a.vals ++ b.vals) 0
    simp only [zero_add] at hbefore hafter
    rcases rest with _ | ⟨v, rest⟩
    · -- nothing is left for the second block
      rw [List.append_nil] at hvs
      have := (gives_rotateIn (E := E) h p pp midx _ _
        (fun L₁ x L₂ he => hbefore L₁ x L₂ (hvs ▸ he)) _ trivial).2.1 r (by rw [hx])
      cases hq.symm.trans this
    have hafter := hafter (List.cons_ne_nil _ _)
    have hne : L ≠ [] := by
      rintro rfl
      obtain ⟨w, ws, hw⟩ := List.exists_cons_of_ne_nil h.filled.1
      have h6 : 6 ≤ a.used := by
        rw [Node.used, hw, valSum_cons, valsz]
        omega
      unfold halfOf at hafter
      simp only [valSum_nil] at hafter
      omega
    obtain ⟨hfit, c, d, hc, hd, hcv, hdv, hcm, hdm⟩ := (ends_rotateIn (R := fun _ => True) (E := E)
      h hvs hne hbefore hafter (fun _ => trivial) p pp midx _ _ _ trivial).2.1 r (by rw [hx])
    obtain rfl : l = c := Option.some.inj (hl.symm.trans hc)
    obtain rfl : q = d := Option.some.inj (hq.symm.trans hd)
    obtain ⟨L, v', rfl⟩ : ∃ L₀ v', L = L₀ ++ [v'] := ⟨_, _, (List.dropLast_append_getLast hne).symm⟩
    rw [hdv] at hu
    obtain rfl : v = u := Option.some.inj hu
    rw [hcm] at hleft hsl
    rw [hdm] at hright hsr
    have hvs' : a.vals ++ b.vals = L ++ v' :: v :: rest := by rw [hvs]; simp
    have hparts := (parts_iff h hvs').1 ⟨hleft, hright⟩
    have hmin := h.msgs.parts_iff.1 ⟨hleft, hright⟩
    rw [valSum_append, valSum_cons, valSum_nil, add_zero] at hafter hfit
    refine ⟨L, v', v, rest, hvs', hbefore L v' [] rfl, hafter, hfit, hparts, ?_, ?_⟩
    · rwa [← take_eq_filter h hmin]
    · rwa [← drop_eq_filter h hmin]
  · rintro ⟨L, v', v, rest, hvs, hlt, hge, hfit, hparts, hsl, hsr⟩
    have hvs' : a.vals ++ b.vals = (L ++ [v']) ++ v :: rest := by rw [hvs]; simp
    obtain ⟨hleft, hright⟩ := (parts_iff h hvs).2 hparts
    have hmin := h.msgs.parts_iff.1 ⟨hleft, hright⟩
    have hLsum : valSum (L ++ [v']) = valSum L + valsz v' := by simp
    have hbefore : ∀ L₁ x L₂, L ++ [v'] = L₁ ++ x :: L₂ → valSum L₁ < halfOf a b := by
      intro L₁ x L₂ he
      have hpre : L₁ <+: L := by
        have hlen := congrArg List.length he
        simp only [List.length_append, List.length_cons, List.length_nil] at hlen
        refine @List.prefix_of_prefix_length_le _ _ _ (L ++ [v']) ⟨x :: L₂, he.symm⟩
          (List.prefix_append _ _) (by omega)
      obtain ⟨t, rfl⟩ := hpre
      rw [valSum_append] at hlt
      omega
    have hsides : SidesFit a b (L ++ [v']) (v :: rest) := by
      refine ⟨by rw [hLsum]; exact hfit, valSum_drop_le h hvs' (by rw [hLsum]; exact hge), ?_, ?_⟩
      · rwa [take_eq_filter h hmin]
      · rwa [drop_eq_filter h hmin]
    obtain ⟨-, hok, herr⟩ := ends_rotateIn (R := fun _ => False) (E := E) h hvs' (by simp) hbefore
      (by rw [hLsum]; exact hge) (fun hc => hc hsides) p pp midx ⟨a₁, -1, s.tree.memgen⟩
      ⟨a₂, -1, s.tree.memgen⟩ (s.twoNew a₁ a₂) trivial
    rcases hx : exec (rotateIn E p pp midx a b (halfOf a b)
      ⟨⟨a₁, -1, s.tree.memgen⟩, a.pivot, [], []⟩ ⟨⟨a₂, -1, s.tree.memgen⟩, a.pivot, [], []⟩)
      (s.twoNew a₁ a₂) with ⟨e | r, s'⟩
    · exact (herr e (by rw [hx])).elim
    · obtain ⟨-, c, d, hc, hd, hcv, hdv, hcm, hdm⟩ := hok r (by rw [hx])
      refine ⟨r, s', c, d, (exec_rotate ht).trans (exec_onError_ok hx), hc, hd, ?_, ?_,
        ⟨v, by rw [hdv]; rfl, ?_, ?_⟩, ?_, ?_⟩
      · rw [hcv, hdv, ← hvs']
      · rw [hcm, hdm, List.take_append_drop]
      · rwa [hcm]
      · rwa [hdm]
      · rw [hcm]
        exact hsides.2.2.1
      · rw [hdm]
        exact hsides.2.2.2

/-- Siblings are merged exactly where they fit in one block, and rotated with their messages parted
as their keys exactly where the index stops at the first right key. -/
theorem siblings_iff (h : Siblings a b) (ht : TwoFree E s a₁ a₂) (p pp : Path) (idx midx : ℤ) :
    (MergeKept E s p pp idx a b ↔ FitTogether a b)
      ∧ (RotateKept E s p pp midx a b ↔ Rotates a b) :=
  ⟨mergeKept_iff h ht.first ht.free.1 idx, rotateKept_iff h ht midx⟩

end Rotate

section Small

/-- A pivot with the children under two keys. -/
def pairPivot (k k' : UInt8) (ms : List GefsMsg) : Node :=
  ⟨⟨16384, 0, 0⟩, true, [([k], entPtr), ([k'], entPtr)], ms⟩

def twoEnv : Env := ⟨fun n => some (if n = 0 then 81920 else 98304), fun _ => 0⟩

theorem twoFree_small : TwoFree twoEnv (smallSt 2 32768) 81920 98304 := by
  constructor <;> decide

/-- A message for the second child waits in the first. -/
def waiting : List GefsMsg := [⟨.oinsert, [3], [], []⟩]

theorem siblings_pair {ms : List GefsMsg} (hms : ms = [] ∨ ms = waiting) :
    Siblings (pairPivot 1 2 ms) (pairPivot 5 6 []) := by
  rcases hms with rfl | rfl <;>
  exact {
    alike := rfl
    fits := ⟨by constructor <;> decide, by constructor <;> decide⟩
    filled := ⟨List.cons_ne_nil _ _, List.cons_ne_nil _ _⟩
    vals := by decide
    msgs := by unfold Sorted; decide
    apart := by decide
    above := by decide
    below := by decide }

theorem siblings_iff_small : MergeKept twoEnv (smallSt 2 32768) zeroPath zeroPath 0
      (pairPivot 1 2 []) (pairPivot 5 6 [])
    ∧ RotateKept twoEnv (smallSt 2 32768) zeroPath zeroPath 0 (pairPivot 1 2 [])
      (pairPivot 5 6 []) := by
  obtain ⟨hm, hr⟩ := siblings_iff (siblings_pair (.inl rfl)) twoFree_small zeroPath zeroPath 0 0
  refine ⟨hm.2 (by constructor <;> decide), hr.2 ⟨[([1], entPtr)], ([2], entPtr), ([5], entPtr),
    [([6], entPtr)], rfl, by decide, by decide, by decide, ?_, by decide, by decide⟩⟩
  unfold PartsRight
  decide

/-- The message for the second child goes to the right of it. -/
theorem not_forall_siblings : ¬ ∀ (E : Env) (s : St) (a b : Node) (a₁ a₂ : Int64) (p pp : Path)
    (idx midx : ℤ), Siblings a b → TwoFree E s a₁ a₂ →
    MergeKept E s p pp idx a b ∧ RotateKept E s p pp midx a b := by
  intro h
  have hs := siblings_pair (.inr rfl)
  obtain ⟨L, v', v, rest, hvs, hlt, hge, -, hparts, -⟩ := (rotateKept_iff hs twoFree_small 0).1
    (h _ _ _ _ _ _ zeroPath zeroPath 0 0 hs twoFree_small).2
  have hhalf : halfOf (pairPivot 1 2 waiting) (pairPivot 5 6 []) = 62 := by decide
  have h31 : ∀ k : UInt8, valsz ([k], entPtr) = 31 := fun _ => rfl
  rw [hhalf] at hlt hge
  rcases L with _ | ⟨x, _ | ⟨y, L⟩⟩
  · simp only [pairPivot, List.nil_append, List.cons_append, List.cons.injEq] at hvs
    rw [← hvs.1, h31] at hge
    simp at hge
  · simp only [pairPivot, List.nil_append, List.cons_append, List.cons.injEq] at hvs
    rw [PartsRight, ← hvs.2.1, ← hvs.2.2.1, if_pos (by decide)] at hparts
    exact absurd (hparts ⟨.oinsert, [3], [], []⟩ (by simp [pairPivot, waiting]) (by decide))
      (by decide)
  · simp only [pairPivot, List.nil_append, List.cons_append, List.cons.injEq] at hvs
    rw [← hvs.1, ← hvs.2.1] at hlt
    simp only [valSum_cons, h31] at hlt
    omega

end Small

end GefsFuse.Server.Btree
