import GefsFuse.Proofs.ServerPath

/-!
# A pivot of the path rewritten

`updatepiv` and `splitpiv` copy the children of a pivot, with what was rewritten below in the place
of one of them, and its messages but those that were pulled there (`Refit`). Into one block the
messages from above are merged as far as they fit (`updatepivMsgs_ok`); two blocks part the
children and the messages at one key (`splitpivVals_ok`, `splitpivMsgs_ok`).
-/

namespace GefsFuse.Server.Btree

open Effects SortedMap Stable

/-! ## Children -/

/-- The entries of the blocks a rewrite left. -/
def Path.entries (q : Path) : List GefsKvp := (q.nl.toList ++ q.nr.toList).map Node.entry

/-- Those of the rewrite below, if there was one. -/
def entriesOf (pp : Option Path) : List GefsKvp := pp.elim [] Path.entries

section Values

variable {s s' : St} {n n' : Node} {p : Path} {pp : Option Path}

theorem copyup1_ok {o : Option Node} {r : Node × ℕ} (h : exec (copyup1 n o) s = (.ok r, s')) :
    s' = s ∧ r.1 = n.addVals (o.toList.map Node.entry) ∧ (n.Roomy → r.1.Roomy) := by
  cases o with
  | none =>
    obtain ⟨rfl, rfl⟩ := (Prod.mk.inj h).imp_left Except.ok.inj
    exact ⟨rfl, by simp, id⟩
  | some c =>
    obtain ⟨kv, s₁, h1, h2⟩ := exec_bind_eq_ok h
    obtain ⟨hv, rfl⟩ := must_ok h1
    obtain ⟨n₁, s₂, h3, h4⟩ := exec_bind_eq_ok h2
    obtain ⟨rfl, rfl, hr⟩ := setval_ok h3
    obtain ⟨rfl, rfl⟩ := (Prod.mk.inj h4).imp_left Except.ok.inj
    refine ⟨rfl, ?_, hr⟩
    rcases hvs : c.vals with _ | ⟨v, vs⟩
    · rw [hvs] at hv
      cases hv
    rw [hvs] at hv
    obtain rfl := Option.some.inj (show some v = some kv from hv)
    show n.addVal _ = n.addVal c.entry
    unfold Node.entry Node.least
    rw [hvs]
    cases c.msgs <;> rfl

theorem addVals_addVals (b : Node) (vs ws : List GefsKvp) :
    (b.addVals vs).addVals ws = b.addVals (vs ++ ws) := by
  simp [Node.addVals]

theorem copyup_ok {q : Path} {r : Node × ℕ} (h : exec (copyup n q) s = (.ok r, s')) :
    s' = s ∧ r.1 = n.addVals q.entries ∧ (n.Roomy → r.1.Roomy) := by
  obtain ⟨r₁, s₁, h1, h2⟩ := exec_bind_eq_ok h
  obtain ⟨rfl, hn, hr⟩ := copyup1_ok h1
  obtain ⟨r₂, s₂, h3, h4⟩ := exec_bind_eq_ok h2
  obtain ⟨rfl, hn', hr'⟩ := copyup1_ok h3
  obtain ⟨rfl, rfl⟩ := (Prod.mk.inj h4).imp_left Except.ok.inj
  refine ⟨rfl, ?_, fun h => hr' (hr h)⟩
  show r₂.1 = _
  rw [hn', hn, addVals_addVals, Path.entries, List.map_append]

/-- The values are copied, but for the one of the child rewritten. -/
theorem updatepivVals_ok (hop : ∀ q ∈ pp, q.op = .pomod ∨ q.op = .posplit)
    (hoff : pp = none → p.midx < 0) : ∀ {vs : List GefsKvp} {i : ℕ} {n : Node} {s : St},
    exec (updatepivVals p pp i vs n) s = (.ok n', s') →
    s' = s ∧ n' = n.addVals (expand p.midx (entriesOf pp) i vs) ∧ (n.Roomy → n'.Roomy)
  | [], i, n, s, h => by
    unfold updatepivVals at h
    obtain ⟨rfl, rfl⟩ := (Prod.mk.inj h).imp_left Except.ok.inj
    exact ⟨rfl, by simp, id⟩
  | v :: vs, i, n, s, h => by
    have ih := fun {i n s} => @updatepivVals_ok hop hoff vs i n s
    have hcopy : (i : ℤ) ≠ p.midx → exec (do
          let n ← setval n v
          updatepivVals p pp (i + 1) vs n) s = (.ok n', s') →
        s' = s ∧ n' = n.addVals (expand p.midx (entriesOf pp) i (v :: vs)) ∧ (n.Roomy → n'.Roomy) := by
      intro hi h
      obtain ⟨n₁, s₁, h1, h2⟩ := exec_bind_eq_ok h
      obtain ⟨rfl, rfl, hr⟩ := setval_ok h1
      obtain ⟨rfl, hn, hr'⟩ := ih h2
      refine ⟨rfl, ?_, fun h => hr' (hr h)⟩
      rw [hn, addVals_addVal, expand_cons, if_neg hi, List.singleton_append]
    unfold updatepivVals at h
    rcases pp with _ | q
    · exact hcopy (by have := hoff rfl; omega) h
    · dsimp only at h
      split_ifs at h with hi hq
      · rcases hop q rfl with ho | ho <;> simp [ho] at hq
      · obtain ⟨r, s₁, h1, h2⟩ := exec_bind_eq_ok h
        obtain ⟨rfl, hn, hr⟩ := copyup_ok h1
        obtain ⟨rfl, hn', hr'⟩ := ih h2
        refine ⟨rfl, ?_, fun h => hr' (hr h)⟩
        rw [hn', hn, addVals_addVals, expand_cons, if_pos hi]
        rfl
      · exact hcopy hi h

end Values

/-! ## Messages -/

def Node.addMsgs (b : Node) (ms : List GefsMsg) : Node := { b with msgs := b.msgs ++ ms }

@[simp] theorem addMsgs_nil (b : Node) : b.addMsgs [] = b := by
  simp [Node.addMsgs]

@[simp] theorem addMsgs_addMsg (b : Node) (m : GefsMsg) (ms : List GefsMsg) :
    (b.addMsg m).addMsgs ms = b.addMsgs (m :: ms) := by
  simp [Node.addMsgs, Node.addMsg]

theorem addMsgs_addMsgs (b : Node) (ms ls : List GefsMsg) :
    (b.addMsgs ms).addMsgs ls = b.addMsgs (ms ++ ls) := by
  simp [Node.addMsgs]

/-- From `w` on the messages `out` were put to the block, of which `P` are the ones pulled. -/
structure Drew (w w' : Pulling) (P out : List GefsMsg) : Prop where
  node : w'.n = w.n.addMsgs out
  roomy : w.n.Roomy → w'.n.Roomy
  pulled : w'.pulled = w.pulled + P.length
  full : w.full = true → P = []

section Messages

variable {s s' : St} {w w₁ w' : Pulling} {u : GefsMsg} {us us' own P Q out : List GefsMsg} {k : Bytes}

theorem pull_ok (h : exec (w.pull u) s = (.ok w', s')) : s' = s ∧ w'.n = w.n.addMsg u
    ∧ (w.n.Roomy → w'.n.Roomy) ∧ w'.pulled = w.pulled + 1 ∧ w'.full = w.full := by
  obtain ⟨n, s₁, h1, h2⟩ := exec_bind_eq_ok h
  obtain ⟨rfl, -, rfl, hr⟩ := setmsg_ok h1
  obtain ⟨rfl, rfl⟩ := (Prod.mk.inj h2).imp_left Except.ok.inj
  exact ⟨rfl, rfl, hr, rfl, rfl⟩

/-- A message pulled, and then more. -/
theorem Drew.pull (h : Drew w₁ w' P out) (hn : w₁.n = w.n.addMsg u)
    (hr : w.n.Roomy → w₁.n.Roomy) (hp : w₁.pulled = w.pulled + 1) (hf : w.full = false) :
    Drew w w' (u :: P) (u :: out) where
  node := by rw [h.node, hn, addMsgs_addMsg]
  roomy hw := h.roomy (hr hw)
  pulled := by rw [h.pulled, hp, List.length_cons, Nat.add_right_comm, Nat.add_assoc]
  full hw := by
    rw [hf] at hw
    cases hw

theorem pullrun_ok : ∀ {us : List GefsMsg} {w : Pulling} {s : St} {r : List GefsMsg × Pulling},
    exec (pullrun k us w) s = (.ok r, s') →
    s' = s ∧ ∃ P, us = P ++ r.1 ∧ (∀ m ∈ P, m.k = k) ∧ Drew w r.2 P P
      ∧ (w.full = true → r.2.full = true)
  | [], w, s, r, h => by
    unfold pullrun at h
    obtain ⟨rfl, rfl⟩ := (Prod.mk.inj h).imp_left Except.ok.inj
    exact ⟨rfl, [], rfl, by simp, ⟨by simp, id, rfl, fun _ => rfl⟩, id⟩
  | u :: us, w, s, r, h => by
    unfold pullrun at h
    rcases pullmsg_cases k w.full w.spc (u :: us) with ⟨_, _, hus, hk, hf, hp⟩
      | ⟨_, _, hus, hlt, hf, hp⟩ | ⟨full', hp, hkeep, -, -⟩
    · obtain ⟨rfl, rfl⟩ := List.cons.inj hus
      rw [hp] at h
      dsimp only at h
      rw [if_pos rfl] at h
      obtain ⟨w₁, s₁, h1, h2⟩ := exec_bind_eq_ok h
      obtain ⟨rfl, hn, hr, hpull, hfull⟩ := pull_ok h1
      obtain ⟨rfl, P, hP, hon, hd, -⟩ := pullrun_ok h2
      refine ⟨rfl, u :: P, by rw [List.cons_append, ← hP], ?_, hd.pull hn hr hpull hf, ?_⟩
      · rw [List.forall_mem_cons]
        exact ⟨hk, hon⟩
      · rw [hf]
        intro h
        cases h
    all_goals
      rw [hp] at h
      dsimp only at h
      rw [if_neg (by decide)] at h
      obtain ⟨rfl, rfl⟩ := (Prod.mk.inj h).imp_left Except.ok.inj
    · exact ⟨rfl, [], rfl, by simp, ⟨by simp, id, rfl, fun _ => rfl⟩, fun h => by
        rw [hf] at h
        cases h⟩
    · exact ⟨rfl, [], rfl, by simp, ⟨by simp, id, rfl, fun _ => rfl⟩, hkeep⟩

theorem pullrest_ok : ∀ {us : List GefsMsg} {w : Pulling} {s : St},
    exec (pullrest us w) s = (.ok w', s') →
    s' = s ∧ ∃ P rest, us = P ++ rest ∧ Drew w w' P P
  | [], w, s, h => by
    unfold pullrest at h
    obtain ⟨rfl, rfl⟩ := (Prod.mk.inj h).imp_left Except.ok.inj
    exact ⟨rfl, [], [], rfl, by simp, id, rfl, fun _ => rfl⟩
  | u :: us, w, s, h => by
    unfold pullrest at h
    dsimp only at h
    split_ifs at h with hfull
    · obtain ⟨rfl, rfl⟩ := (Prod.mk.inj h).imp_left Except.ok.inj
      exact ⟨rfl, [], u :: us, rfl, by simp, id, rfl, fun _ => rfl⟩
    · have hf : w.full = false := by
        rcases hw : w.full with _ | _
        · rfl
        · simp [pullmsg, hw] at hfull
      obtain ⟨w₁, s₁, h1, h2⟩ := exec_bind_eq_ok h
      obtain ⟨rfl, hn, hr, hpull, -⟩ := pull_ok h1
      obtain ⟨rfl, P, rest, rfl, hd⟩ := pullrest_ok h2
      exact ⟨rfl, u :: P, rest, rfl, hd.pull hn hr hpull hf⟩

/-- The messages pulled are a first part of those above, and are merged behind the block's own. -/
theorem updatepivMsgs_ok : ∀ {fuel : ℕ} {own us : List GefsMsg} {w : Pulling} {s : St},
    Sorted GefsMsg.k own → Sorted GefsMsg.k us →
    exec (updatepivMsgs fuel own us w) s = (.ok w', s') →
    s' = s ∧ ∃ P rest, us = P ++ rest ∧ Drew w w' P (Stable.merge GefsMsg.k own P)
  | fuel, [], us, w, s, _, _, h => by
    unfold updatepivMsgs at h
    obtain ⟨hs, P, rest, hus, hd⟩ := pullrest_ok h
    exact ⟨hs, P, rest, hus, by rwa [nil_merge]⟩
  | 0, m :: own, us, w, s, _, _, h => by
    unfold updatepivMsgs at h
    cases h
  | fuel + 1, m :: own, us, w, s, hown, hus, h => by
    obtain ⟨hm, hown'⟩ := List.pairwise_cons.1 hown
    -- the block's own message goes first, and nothing is pulled behind it unless it is not below
    have hput : ∀ full' : Bool, (w.full = true → full' = true) →
        (full' = true ∨ ∀ u ∈ us.head?, m.k ≤ u.k) → exec (do
          let n ← setmsg w.n m
          updatepivMsgs fuel own us { w with n := n, full := full' }) s = (.ok w', s') →
        s' = s ∧ ∃ P rest, us = P ++ rest ∧ Drew w w' P (Stable.merge GefsMsg.k (m :: own) P) := by
      intro full' hkeep hstop h
      obtain ⟨n, s₁, h1, h2⟩ := exec_bind_eq_ok h
      obtain ⟨rfl, -, rfl, hr⟩ := setmsg_ok h1
      obtain ⟨rfl, P, rest, hP, hd⟩ := updatepivMsgs_ok hown' hus h2
      have hle : ∀ x ∈ P, m.k ≤ x.k := by
        rcases hstop with hf | hle
        · rw [hd.full hf]
          simp
        · rcases us with _ | ⟨u, us⟩
          · rw [(List.append_eq_nil_iff.1 hP.symm).1]
            simp
          · intro x hx
            have hmem : x ∈ u :: us := by rw [hP]; simp [hx]
            rcases List.mem_cons.1 hmem with rfl | hmem
            · exact hle x rfl
            · exact (hle u rfl).trans (List.rel_of_pairwise_cons hus hmem)
      refine ⟨rfl, P, rest, hP, ?_, fun hw => hd.roomy (hr hw), hd.pulled, fun hw => ?_⟩
      · rw [hd.node, merge_cons_of_le hle, ← addMsgs_addMsg]
      · exact hd.full (hkeep hw)
    unfold updatepivMsgs at h
    rcases pullmsg_cases m.k w.full (w.spc - w.sz) us with ⟨u, us, rfl, hk, hf, hp⟩
      | ⟨u, us, rfl, hlt, hf, hp⟩ | ⟨full', hp, hkeep, hstop, -⟩
    · rw [hp] at h
      exact hput false (by simp [hf]) (.inr (by simp [hk])) h
    · rw [hp] at h
      dsimp only at h
      obtain ⟨_, s₁, h1, h2⟩ := exec_bind_eq_ok h
      obtain ⟨-, rfl⟩ := must_ok h1
      obtain ⟨r, s₂, h3, h4⟩ := exec_bind_eq_ok h2
      obtain ⟨rfl, P, hP, hon, hd, -⟩ := pullrun_ok h3
      have hsplit : Sorted GefsMsg.k (P ++ r.1) := hP ▸ hus
      obtain ⟨rfl, P', rest, hP', hd'⟩ :=
        updatepivMsgs_ok hown (List.pairwise_append.1 hsplit).2.1 h4
      refine ⟨rfl, P ++ P', rest, by rw [hP, hP', List.append_assoc], ?_,
        fun hw => hd'.roomy (hd.roomy hw), ?_, fun hw => ?_⟩
      · rw [hd'.node, hd.node, addMsgs_addMsgs, merge_append_of_lt]
        intro x hx y hy
        rw [hon x hx]
        rcases List.mem_cons.1 hy with rfl | hy
        · exact hlt
        · exact hlt.trans_le (hm y hy)
      · rw [hd'.pulled, hd.pulled, List.length_append, Nat.add_assoc]
      · rw [hf] at hw
        cases hw
    · rw [hp] at h
      refine hput full' hkeep (hstop.imp_right fun hle u hu => (hle u hu).le) ?_
      rcases us with _ | ⟨u, us⟩ <;> exact h

end Messages

/-! ## Two blocks -/

/-- What goes on `n` is `vs`, and there is room for it. -/
def Node.Gets (n n' : Node) (vs : List GefsKvp) (ms : List GefsMsg) : Prop :=
  n' = (n.addVals vs).addMsgs ms ∧ (n.Roomy → n'.Roomy)

section Halves

variable {s s' : St} {w w' : Halves} {p : Path} {pp : Option Path} {nval halfsz i : ℕ}
  {v : GefsKvp} {vs : List GefsKvp} {m : GefsMsg} {ms : List GefsMsg}

/-- The block that is filled gets more, and the other one nothing. -/
structure Halves.Took (w w' : Halves) (vs : List GefsKvp) (ms : List GefsMsg) : Prop where
  right : w'.right = w.right
  mid : w'.mid = w.mid
  fill : (w.right = true → w.r.Gets w'.r vs ms) ∧ (w.right = false → w.l.Gets w'.l vs ms)
  keep : (w.right = true → w'.l = w.l) ∧ (w.right = false → w'.r = w.r)

theorem gets_nil (n : Node) : n.Gets n [] [] := ⟨by simp, id⟩

theorem Node.Gets.vals {n n₁ n' : Node} {us : List GefsKvp} (h : n.Gets n₁ us [])
    (h' : n₁.Gets n' vs []) : n.Gets n' (us ++ vs) [] := by
  refine ⟨?_, fun hn => h'.2 (h.2 hn)⟩
  rw [h'.1, h.1]
  simp [Node.addVals, Node.addMsgs]

theorem Node.Gets.msgs {n n₁ n' : Node} {ls : List GefsMsg} (h : n.Gets n₁ [] ls)
    (h' : n₁.Gets n' [] ms) : n.Gets n' [] (ls ++ ms) := by
  refine ⟨?_, fun hn => h'.2 (h.2 hn)⟩
  rw [h'.1, h.1]
  simp [Node.addVals, Node.addMsgs]

theorem put_ok {f : Node → Op Node} (h : exec (w.put f) s = (.ok w', s'))
    (hf : ∀ n n' s', exec (f n) s = (.ok n', s') → n = (if w.right then w.r else w.l) →
      s' = s ∧ n.Gets n' vs ms) : s' = s ∧ w.Took w' vs ms := by
  unfold Halves.put at h
  rcases hr : w.right with _ | _ <;> rw [hr] at h hf
  · rw [if_neg Bool.false_ne_true] at h
    obtain ⟨n, s₁, h1, h2⟩ := exec_bind_eq_ok h
    obtain ⟨rfl, hg⟩ := hf _ _ _ h1 rfl
    obtain ⟨rfl, rfl⟩ := (Prod.mk.inj h2).imp_left Except.ok.inj
    exact ⟨rfl, hr ▸ rfl, rfl, ⟨by simp [hr], fun _ => hg⟩, by simp [hr], fun _ => rfl⟩
  · rw [if_pos rfl] at h
    obtain ⟨n, s₁, h1, h2⟩ := exec_bind_eq_ok h
    obtain ⟨rfl, hg⟩ := hf _ _ _ h1 rfl
    obtain ⟨rfl, rfl⟩ := (Prod.mk.inj h2).imp_left Except.ok.inj
    exact ⟨rfl, hr ▸ rfl, rfl, ⟨fun _ => hg, by simp [hr]⟩, fun _ => rfl, by simp [hr]⟩

/-- Whether the loop goes over to the right block. -/
def Turns (w : Halves) (nval halfsz i : ℕ) : Prop :=
  w.right = false ∧ (i + 2 = nval ∨ (2 ≤ i ∧ halfsz ≤ w.copied))

/-- One turn of the loop over the children. -/
theorem splitpivVals_cons (h : exec (splitpivVals p pp nval halfsz i (v :: vs) w) s = (.ok w', s')) :
    ∃ w₁ w₂ : Halves, (Turns w nval halfsz i ∧ w₁ = { w with right := true, mid := v.1 }
        ∨ ¬ Turns w nval halfsz i ∧ w₁ = w)
      ∧ w₁.Took w₂ (expand p.idx (entriesOf pp) i [v]) []
      ∧ exec (splitpivVals p pp nval halfsz (i + 1) vs w₂) s = (.ok w', s') := by
  unfold splitpivVals at h
  dsimp only at h
  generalize hw₁ : (if w.right = false ∧ (i + 2 = nval ∨ (2 ≤ i ∧ halfsz ≤ w.copied)) then
    { w with right := true, mid := v.1 } else w) = w₁ at h
  have hturn : Turns w nval halfsz i ∧ w₁ = { w with right := true, mid := v.1 }
      ∨ ¬ Turns w nval halfsz i ∧ w₁ = w := by
    by_cases ht : w.right = false ∧ (i + 2 = nval ∨ (2 ≤ i ∧ halfsz ≤ w.copied))
    · exact .inl ⟨ht, by rw [← hw₁, if_pos ht]⟩
    · exact .inr ⟨ht, by rw [← hw₁, if_neg ht]⟩
  rw [expand_cons, expand_nil, List.append_nil]
  by_cases hi : (i : ℤ) = p.idx
  · rw [if_pos hi] at h ⊢
    obtain ⟨q, s₁, h1, h2⟩ := exec_bind_eq_ok h
    obtain ⟨rfl, rfl⟩ := must_ok h1
    obtain ⟨r, s₂, h3, h4⟩ := exec_bind_eq_ok h2
    obtain ⟨rfl, hn, hr⟩ := copyup_ok h3
    obtain ⟨w₂, s₃, h5, h6⟩ := exec_bind_eq_ok h4
    obtain ⟨rfl, ht⟩ := @put_ok _ _ _ _ q.entries [] _ h5 (by
      intro n n' s' hx hnw
      obtain ⟨rfl, rfl⟩ := (Prod.mk.inj hx).imp_left Except.ok.inj
      rw [hnw]
      exact ⟨rfl, by rw [hn]; simp, hr⟩)
    exact ⟨w₁, { w₂ with copied := w₂.copied + r.2 }, hturn,
      ⟨ht.right, ht.mid, ht.fill, ht.keep⟩, h6⟩
  · rw [if_neg hi] at h ⊢
    obtain ⟨w₂, s₁, h1, h2⟩ := exec_bind_eq_ok h
    obtain ⟨rfl, ht⟩ := @put_ok _ _ _ _ [v] [] _ h1 (by
      intro n n' s' hx _
      obtain ⟨rfl, rfl, hr⟩ := setval_ok hx
      exact ⟨rfl, by simp [Node.addVals, Node.addVal], hr⟩)
    exact ⟨w₁, { w₂ with copied := w₂.copied + valsz v }, hturn,
      ⟨ht.right, ht.mid, ht.fill, ht.keep⟩, h2⟩

/-- Once the right block is begun it gets the rest. -/
theorem splitpivVals_right : ∀ {vs : List GefsKvp} {i : ℕ} {w : Halves} {s : St}, w.right = true →
    exec (splitpivVals p pp nval halfsz i vs w) s = (.ok w', s') →
    s' = s ∧ w.Took w' (expand p.idx (entriesOf pp) i vs) []
  | [], i, w, s, hw, h => by
    unfold splitpivVals at h
    obtain ⟨rfl, rfl⟩ := (Prod.mk.inj h).imp_left Except.ok.inj
    exact ⟨rfl, rfl, rfl, ⟨fun _ => gets_nil _, fun _ => gets_nil _⟩, fun _ => rfl, fun _ => rfl⟩
  | v :: vs, i, w, s, hw, h => by
    obtain ⟨w₁, w₂, ⟨ht, -⟩ | ⟨-, rfl⟩, htook, h1⟩ := splitpivVals_cons h
    · rw [ht.1] at hw
      cases hw
    obtain ⟨rfl, htook'⟩ := splitpivVals_right (htook.right.trans hw) h1
    have hw₂ := htook.right.trans hw
    refine ⟨rfl, htook'.right.trans htook.right, htook'.mid.trans htook.mid,
      ⟨fun _ => ?_, fun h0 => ?_⟩, fun _ => (htook'.keep.1 hw₂).trans (htook.keep.1 hw), fun h0 => ?_⟩
    · rw [← List.singleton_append, expand_append]
      exact (htook.fill.1 hw).vals (htook'.fill.1 hw₂)
    all_goals
      rw [hw] at h0
      cases h0

/-- The children up to one of them go to the left block, and the rest to the right one. -/
theorem splitpivVals_ok (h4 : 4 ≤ nval) : ∀ {vs : List GefsKvp} {i : ℕ} {w : Halves} {s : St},
    w.right = false → i + vs.length = nval → 2 ≤ vs.length →
    exec (splitpivVals p pp nval halfsz i vs w) s = (.ok w', s') →
    s' = s ∧ ∃ vl v vr, vs = vl ++ v :: vr ∧ 2 ≤ i + vl.length ∧ w'.mid = v.1
      ∧ w.l.Gets w'.l (expand p.idx (entriesOf pp) i vl) []
      ∧ w.r.Gets w'.r (expand p.idx (entriesOf pp) (i + vl.length) (v :: vr)) []
  | [], i, w, s, _, _, h2, _ => absurd h2 (by simp)
  | v :: vs, i, w, s, hw, hi, h2, h => by
    obtain ⟨w₁, w₂, ⟨ht, rfl⟩ | ⟨ht, rfl⟩, htook, h1⟩ := splitpivVals_cons h
    · obtain ⟨rfl, htook'⟩ := splitpivVals_right htook.right h1
      refine ⟨rfl, [], v, vs, rfl, ?_, htook'.mid.trans htook.mid, ?_, ?_⟩
      · rcases ht.2 with h0 | h0
        · simp only [List.length_nil]
          omega
        · exact h0.1
      · rw [(htook'.keep.1 htook.right).trans (htook.keep.1 rfl)]
        exact gets_nil _
      · rw [← List.singleton_append, expand_append]
        exact (htook.fill.1 rfl).vals (htook'.fill.1 htook.right)
    · rw [List.length_cons] at hi h2
      have hne : i + 2 ≠ nval := fun h0 => ht ⟨hw, .inl h0⟩
      obtain ⟨rfl, vl, x, vr, rfl, hlen, hmid, hl, hr⟩ :=
        splitpivVals_ok h4 (htook.right.trans hw) (by omega) (by omega) h1
      refine ⟨rfl, v :: vl, x, vr, rfl, by rw [List.length_cons]; omega, hmid, ?_, ?_⟩
      · rw [← List.singleton_append, expand_append]
        exact (htook.fill.2 hw).vals hl
      · rw [htook.keep.2 hw] at hr
        rwa [List.length_cons, Nat.add_comm vl.length, ← Nat.add_assoc]

/-- One turn of the loop over the messages. -/
theorem splitpivMsgs_cons (h : exec (splitpivMsgs (m :: ms) w) s = (.ok w', s')) :
    ∃ w₁ w₂ : Halves, (w.right = false ∧ w.mid ≤ m.k ∧ w₁ = { w with right := true }
        ∨ (w.right = false → m.k < w.mid) ∧ w₁ = w)
      ∧ w₁.Took w₂ [] [m] ∧ exec (splitpivMsgs ms w₂) s = (.ok w', s') := by
  have hcmp : 0 ≤ gefsKeycmp m.k w.mid ↔ w.mid ≤ m.k := by
    rw [gefsKeycmp_eq]
    split_ifs with h1 h2
    · simp [h1.not_ge]
    · simp [h2]
    · simpa using not_lt.1 h1
  unfold splitpivMsgs at h
  dsimp only at h
  generalize hw₁ : (if w.right = false ∧ 0 ≤ gefsKeycmp m.k w.mid then
    { w with right := true } else w) = w₁ at h
  obtain ⟨w₂, s₁, h1, h2⟩ := exec_bind_eq_ok h
  obtain ⟨rfl, ht⟩ := @put_ok _ _ _ _ [] [m] _ h1 (by
    intro n n' s' hx _
    obtain ⟨rfl, -, rfl, hr⟩ := setmsg_ok hx
    exact ⟨rfl, by simp [Node.addVals, Node.addMsgs, Node.addMsg], hr⟩)
  refine ⟨w₁, w₂, ?_, ht, h2⟩
  by_cases hc : w.right = false ∧ 0 ≤ gefsKeycmp m.k w.mid
  · exact .inl ⟨hc.1, hcmp.1 hc.2, by rw [← hw₁, if_pos hc]⟩
  · refine .inr ⟨fun hw => ?_, by rw [← hw₁, if_neg hc]⟩
    exact not_le.1 fun hle => hc ⟨hw, hcmp.2 hle⟩

theorem splitpivMsgs_right : ∀ {ms : List GefsMsg} {w : Halves} {s : St}, w.right = true →
    exec (splitpivMsgs ms w) s = (.ok w', s') → s' = s ∧ w'.l = w.l ∧ w.r.Gets w'.r [] ms
  | [], w, s, _, h => by
    unfold splitpivMsgs at h
    obtain ⟨rfl, rfl⟩ := (Prod.mk.inj h).imp_left Except.ok.inj
    exact ⟨rfl, rfl, gets_nil _⟩
  | m :: ms, w, s, hw, h => by
    obtain ⟨w₁, w₂, ⟨ht, -⟩ | ⟨-, rfl⟩, htook, h1⟩ := splitpivMsgs_cons h
    · rw [ht] at hw
      cases hw
    obtain ⟨rfl, hl, hr⟩ := splitpivMsgs_right (htook.right.trans hw) h1
    exact ⟨rfl, hl.trans (htook.keep.1 hw), (htook.fill.1 hw).msgs hr⟩

/-- The messages part at the key the children do. -/
theorem splitpivMsgs_ok : ∀ {ms : List GefsMsg} {w : Halves} {s : St}, w.right = false →
    Sorted GefsMsg.k ms → exec (splitpivMsgs ms w) s = (.ok w', s') →
    s' = s ∧ ∃ ml mr, ms = ml ++ mr ∧ (∀ m ∈ ml, m.k < w.mid) ∧ (∀ m ∈ mr, w.mid ≤ m.k)
      ∧ w.l.Gets w'.l [] ml ∧ w.r.Gets w'.r [] mr
  | [], w, s, _, _, h => by
    unfold splitpivMsgs at h
    obtain ⟨rfl, rfl⟩ := (Prod.mk.inj h).imp_left Except.ok.inj
    exact ⟨rfl, [], [], rfl, by simp, by simp, gets_nil _, gets_nil _⟩
  | m :: ms, w, s, hw, hs, h => by
    obtain ⟨hm, hs'⟩ := List.pairwise_cons.1 hs
    obtain ⟨w₁, w₂, ⟨-, hle, rfl⟩ | ⟨hlt, rfl⟩, htook, h1⟩ := splitpivMsgs_cons h
    · obtain ⟨rfl, hl, hr⟩ := splitpivMsgs_right htook.right h1
      refine ⟨rfl, [], m :: ms, rfl, by simp, ?_, ?_, (htook.fill.1 rfl).msgs hr⟩
      · rw [List.forall_mem_cons]
        exact ⟨hle, fun x hx => hle.trans (hm x hx)⟩
      · rw [hl, htook.keep.1 rfl]
        exact gets_nil _
    · obtain ⟨rfl, ml, mr, rfl, hml, hmr, hl, hr⟩ :=
        splitpivMsgs_ok (htook.right.trans hw) hs' h1
      rw [htook.mid] at hml hmr
      rw [htook.keep.2 hw] at hr
      refine ⟨rfl, m :: ml, mr, rfl, ?_, hmr, (htook.fill.2 hw).msgs hl, hr⟩
      rw [List.forall_mem_cons]
      exact ⟨hlt hw, hml⟩

end Halves

end GefsFuse.Server.Btree
