import GefsFuse.Proofs.ServerBalance
import GefsFuse.Proofs.ServerFrame

/-!
# No block is written over

Whichever way an upsert ends, and whatever is in its batch, the blocks that were there are what they
were: each block it writes is one it allocated, and an allocation gives an address that is not in
use. So a lookup through the pointer to any tree that could be read before still gives what it gave.
-/

namespace GefsFuse.Server.Btree

open Effects

/-- What was written in `s₀` is still there, and in use. -/
structure Cow (s₀ s : St) : Prop where
  blks : ∀ a b, s₀.blks a = some b → s.blks a = some b
  live : ∀ a b, s₀.blks a = some b → s.live a = true

/-- In `s₀` there was nothing at the block's address. -/
def New (s₀ : St) (b : Node) : Prop := s₀.blks b.bp.addr = none

/-- `x` leaves alone what was written in `s₀`. -/
abbrev Spares {α : Type} (s₀ : St) (x : Op α) (Q : α → Prop) : Prop :=
  Ends (Cow s₀) (fun _ => True) x Q

section Blocks

variable {E : Env} {s₀ : St} {α : Type} {Q : α → Prop} {b n : Node} {q : Path}

theorem spares_must (o : Option α) : Spares s₀ (must o) fun a => o = some a := by
  cases o with
  | none => exact .throw trivial
  | some a => exact .pure rfl

/-- What follows an error is not run. -/
theorem spares_throw_bind {β : Type} {e : Fail} {f : β → Op α} :
    Spares s₀ ((throw e : Op β) >>= f) Q :=
  Ends.bind (Ends.throw (Q := fun _ => False) trivial) fun _ h => h.elim

theorem spares_onError {x : Op α} {h : Op Unit} (hx : Spares s₀ x Q)
    (hh : Spares s₀ h fun _ => True) : Spares s₀ (onError x h) Q := by
  refine hx.tryCatch fun e _ => ?_
  by_cases hr : e = .raised
  · rw [if_pos hr]
    exact hh.bind fun _ _ => .throw trivial
  · rw [if_neg hr]
    exact .throw trivial

theorem spares_ask : Spares s₀ (ask E) fun _ => True := by
  refine Ends.get.bind fun s hs => (Ends.set ⟨hs.blks, hs.live⟩).bind fun _ _ => ?_
  rcases E.ans s.calls with _ | a
  · exact .throw trivial
  · exact .pure trivial

/-- An allocation gives what is not in use. -/
theorem spares_newblk (p : Bool) : Spares s₀ (newblk E p) (New s₀) := by
  refine spares_ask.bind fun a _ => Ends.get.bind fun s hs => ?_
  by_cases hl : s.live a
  · rw [if_pos hl]
    exact spares_throw_bind
  · rw [if_neg hl]
    refine (Ends.set ⟨hs.blks, fun x c hc => by simp [hs.live x c hc]⟩).bind fun _ _ => .pure ?_
    show s₀.blks a = none
    rcases hb : s₀.blks a with _ | c
    · rfl
    · exact absurd (hs.live a c hb) hl

theorem spares_getblk (bp : GefsBptr) : Spares s₀ (getblk E bp) fun _ => True :=
  spares_ask.bind fun _ _ => Ends.get.bind fun _ _ => (spares_must _).bind fun _ _ => .pure trivial

theorem spares_enqueue (h : New s₀ b) : Spares s₀ (enqueue E b) (New s₀) := by
  refine (Ends.modify fun s hs => ⟨fun a c hc => ?_, hs.live⟩).bind fun _ _ => .pure h
  refine (if_neg ?_).trans (hs.blks a c hc)
  rintro rfl
  rw [show s₀.blks b.bp.addr = none from h] at hc
  cases hc

theorem spares_freebp (bp : GefsBptr) : Spares s₀ (freebp E bp) fun _ => True := by
  unfold freebp killblk
  refine (Ends.modify fun s hs => ⟨hs.blks, hs.live⟩).bind fun _ _ => Ends.get.bind fun s _ => ?_
  dsimp only
  split_ifs
  · refine Ends.get.bind fun t _ => ?_
    split_ifs
    · exact spares_ask.bind fun _ _ => .pure trivial
    · exact .pure trivial
  · exact .pure trivial

theorem spares_freeblk (b : Node) : Spares s₀ (freeblk E b) fun _ => True := spares_freebp b.bp

theorem spares_setb (h : New s₀ b) : Spares s₀ (setb E b) fun _ => True := by
  unfold setb
  split_ifs
  · exact (spares_freeblk b).bind fun _ _ => .pure trivial
  · exact .map ((spares_enqueue h).mono fun _ _ => trivial)

theorem spares_setval (h : New s₀ b) (kv : GefsKvp) : Spares s₀ (setval b kv) (New s₀) := by
  unfold setval
  dsimp only
  split_ifs
  · exact .pure h
  · exact .throw trivial

theorem spares_setmsg (h : New s₀ b) (m : GefsMsg) : Spares s₀ (setmsg b m) (New s₀) := by
  have hput : Spares s₀ (if 2 * (b.nbuf + 1) + b.bufsz + (msgsz m - 2) ≤ gefsBufspc then
      pure { b with msgs := b.msgs ++ [m] } else throw .capacity) (New s₀) := by
    split_ifs
    · exact .pure h
    · exact .throw trivial
  unfold setmsg
  by_cases hp : b.pivot
  · rw [if_neg (not_not.2 hp)]
    exact hput
  · rw [if_pos hp]
    exact spares_throw_bind

theorem spares_setmsgs : ∀ {ms : List GefsMsg} {b : Node}, New s₀ b →
    Spares s₀ (setmsgs b ms) (New s₀)
  | [], _, h => .pure h
  | m :: ms, b, h => by
    unfold setmsgs
    rw [List.foldlM_cons]
    exact (spares_setmsg h m).bind fun _ h => spares_setmsgs h

theorem spares_copyup1 (h : New s₀ n) (o : Option Node) :
    Spares s₀ (copyup1 n o) fun r => New s₀ r.1 := by
  cases o with
  | none => exact .pure h
  | some c => exact (spares_must _).bind fun _ _ => (spares_setval h _).bind fun _ h => .pure h

theorem spares_copyup (h : New s₀ n) : Spares s₀ (copyup n q) fun r => New s₀ r.1 :=
  (spares_copyup1 h q.nl).bind fun _ h => (spares_copyup1 h q.nr).bind fun _ h => .pure h

end Blocks

/-! ## Leaves -/

section Leaves

variable {E : Env} {s₀ : St}

theorem spares_freeold (v : GefsKvp) (m : GefsMsg) : Spares s₀ (freeold E v m) fun _ => True := by
  unfold freeold
  split_ifs
  · exact (spares_must _).bind fun _ _ => spares_freebp _
  · exact .pure trivial

theorem spares_applyTo (v : GefsKvp) (m : GefsMsg) : Spares s₀ (applyTo v m) fun _ => True :=
  (spares_must _).bind fun _ _ => .pure trivial

theorem spares_copyloop : ∀ {ms : List GefsMsg} {v : GefsKvp} {ok : Bool} {w : Merging},
    New s₀ w.n → Spares s₀ (copyloop E v ok ms w) fun r => New s₀ r.2.n
  | [], v, ok, w, h => by
    unfold copyloop
    cases ok
    · exact .pure h
    · exact (spares_setval h v).bind fun _ h => .pure h
  | m :: ms, v, ok, w, h => by
    unfold copyloop
    dsimp only
    split_ifs
    · exact (spares_freeold v m).bind fun _ _ => (spares_applyTo v m).bind fun _ _ =>
        spares_copyloop h
    · exact (spares_applyTo v m).bind fun _ _ => spares_copyloop h
    · exact (spares_setval h v).bind fun _ h => .pure h
    · exact (spares_setval h v).bind fun _ h => .pure h
    · exact .pure h
    · exact .pure h

theorem spares_mergeval {v : GefsKvp} {m : GefsMsg} {ms : List GefsMsg} {w : Merging}
    (h : New s₀ w.n) : Spares s₀ (mergeval E v m ms w) fun r => New s₀ r.2.n :=
  (spares_must _).bind fun _ _ => (spares_freeold _ m).bind fun _ _ =>
    (spares_applyTo _ m).bind fun _ _ => spares_copyloop h

theorem spares_insertval {m : GefsMsg} {ms : List GefsMsg} {w : Merging} (h : New s₀ w.n) :
    Spares s₀ (insertval E m ms w) fun r => New s₀ r.2.n := by
  refine (spares_must _).bind fun _ _ => ?_
  dsimp only
  split_ifs
  · exact spares_copyloop h
  · exact spares_copyloop h

theorem spares_updateleafLoop : ∀ {fuel : ℕ} {vs : List GefsKvp} {ms : List GefsMsg} {w : Merging},
    New s₀ w.n → Spares s₀ (updateleafLoop E fuel vs ms w) fun w => New s₀ w.n
  | _, [], [], w, h => by
    unfold updateleafLoop
    exact .pure h
  | 0, _ :: _, _, w, h => by
    unfold updateleafLoop
    exact .throw trivial
  | 0, [], _ :: _, w, h => by
    unfold updateleafLoop
    exact .throw trivial
  | fuel + 1, [], m :: ms, w, h => by
    unfold updateleafLoop
    exact (spares_must _).bind fun _ _ => (spares_insertval h).bind fun _ h =>
      spares_updateleafLoop h
  | fuel + 1, v :: vs, [], w, h => by
    unfold updateleafLoop
    exact (spares_setval h v).bind fun _ h => spares_updateleafLoop h
  | fuel + 1, v :: vs, m :: ms, w, h => by
    unfold updateleafLoop
    dsimp only
    generalize (if (msgsz m : ℤ) ≤ w.spc then gefsKeycmp v.1 m.k else -1) = c
    by_cases h1 : c = -1
    · rw [if_pos h1]
      exact (spares_setval h v).bind fun _ h => spares_updateleafLoop h
    rw [if_neg h1]
    by_cases h0 : c = 0
    · rw [if_pos h0]
      exact (spares_mergeval (by exact h)).bind fun _ h => spares_updateleafLoop h
    · rw [if_neg h0]
      exact (spares_insertval (by exact h)).bind fun _ h => spares_updateleafLoop h

theorem spares_updateleaf (up p : Path) : Spares s₀ (updateleaf E up p) fun _ => True :=
  (spares_must _).bind fun b _ => (spares_newblk b.pivot).bind fun _ h =>
    (spares_updateleafLoop h).bind fun _ h => (spares_setb h).bind fun _ _ => .pure trivial

theorem spares_splitleafLoop {nval halfsz : ℕ} : ∀ {fuel i : ℕ} {vs : List GefsKvp}
    {ms : List GefsMsg} {l : Option Node} {r : Node} {copied : ℕ} {w : Merging},
    (∀ n ∈ l, New s₀ n) → New s₀ r → New s₀ w.n →
    Spares s₀ (splitleafLoop E nval halfsz fuel i vs ms l r copied w)
      fun q => (∀ n ∈ q.1, New s₀ n) ∧ New s₀ q.2.n
  | _, _, [], _, l, r, _, w, hl, _, hw => by
    unfold splitleafLoop
    exact .pure ⟨hl, hw⟩
  | 0, _, _ :: _, _, _, _, _, _, _, _, _ => by
    unfold splitleafLoop
    exact .throw trivial
  | fuel + 1, i, v :: vs, ms, l, r, copied, w, hl, hr, hw => by
    unfold splitleafLoop
    dsimp only
    generalize hl' : (if l = none ∧ (i + 2 = nval ∨ (2 ≤ i ∧ halfsz ≤ copied)) then some w.n else l)
      = l'
    generalize hw' : (if l = none ∧ (i + 2 = nval ∨ (2 ≤ i ∧ halfsz ≤ copied)) then
      ({ w with n := r, spc := gefsLeafspc - (halfsz + msgmax : ℕ) } : Merging) else w) = w'
    have hl₁ : ∀ n ∈ l', New s₀ n := by
      intro n hn
      rw [← hl'] at hn
      split_ifs at hn
      · exact Option.some.inj hn ▸ hw
      · exact hl n hn
    have hw₁ : New s₀ w'.n := by
      rw [← hw']
      split_ifs
      · exact hr
      · exact hw
    split
    · exact (spares_mergeval hw₁).bind fun _ h => spares_splitleafLoop hl₁ hr h
    · exact (spares_insertval hw₁).bind fun _ h => spares_splitleafLoop hl₁ hr h
    · exact (spares_setval hw₁ v).bind fun _ h => spares_splitleafLoop hl₁ hr h

/-- The two blocks of a split are freed where it fails. -/
theorem spares_freetwo (l r : Node) : Spares s₀ (do
    freeblk E l
    freeblk E r) fun _ => True :=
  (spares_freeblk l).bind fun _ _ => spares_freeblk r

theorem spares_splitleaf (up p : Path) : Spares s₀ (splitleaf E up p) fun _ => True := by
  refine (spares_must _).bind fun b _ => (spares_newblk b.pivot).bind fun l hl =>
    (spares_onError (spares_newblk b.pivot) (spares_freeblk l)).bind fun r hr =>
      spares_onError ?_ (spares_freetwo l r)
  dsimp only
  by_cases h4 : b.nval < 4
  · rw [if_pos h4]
    exact spares_throw_bind
  rw [if_neg h4]
  refine (spares_splitleafLoop (by simp) hr hl).bind fun q hq => ?_
  have hleft : New s₀ (q.1.getD q.2.n) := by
    rcases hl' : q.1 with _ | n
    · exact hq.2
    · exact hq.1 n hl'
  have hright : New s₀ (if q.1 = none then r else q.2.n) := by
    split_ifs
    · exact hr
    · exact hq.2
  exact (spares_setb hleft).bind fun _ _ => (spares_setb hright).bind fun _ _ => .pure trivial

end Leaves

/-! ## Pivots -/

section Pivots

variable {E : Env} {s₀ : St} {p : Path} {pp : Option Path}

theorem spares_updatepivVals : ∀ {vs : List GefsKvp} {pp : Option Path} {i : ℕ} {n : Node},
    New s₀ n → Spares s₀ (updatepivVals p pp i vs n) (New s₀)
  | [], _, _, _, h => by
    unfold updatepivVals
    exact .pure h
  | [v], _, _, _, h => by
    unfold updatepivVals
    split
    · exact (spares_setval h v).bind fun _ h => spares_updatepivVals h
    · split_ifs
      · exact (spares_copyup h).bind fun _ h => .pure h
      · exact (spares_copyup h).bind fun _ h => spares_updatepivVals h
      · exact (spares_setval h v).bind fun _ h => spares_updatepivVals h
  | v :: v' :: vs, _, _, _, h => by
    unfold updatepivVals
    split
    · exact (spares_setval h v).bind fun _ h => spares_updatepivVals h
    · split_ifs
      · exact (spares_copyup h).bind fun _ h => spares_updatepivVals h
      · exact (spares_copyup h).bind fun _ h => spares_updatepivVals h
      · exact (spares_setval h v).bind fun _ h => spares_updatepivVals h

theorem spares_pull {w : Pulling} (h : New s₀ w.n) (u : GefsMsg) :
    Spares s₀ (w.pull u) fun w => New s₀ w.n :=
  (spares_setmsg h u).bind fun _ h => .pure h

theorem spares_pullrun (k : Bytes) : ∀ {us : List GefsMsg} {w : Pulling}, New s₀ w.n →
    Spares s₀ (pullrun k us w) fun r => New s₀ r.2.n
  | [], _, h => .pure h
  | u :: us, w, h => by
    unfold pullrun
    dsimp only
    split_ifs
    · exact (spares_pull (by exact h) u).bind fun _ h => spares_pullrun k h
    · exact .pure h

theorem spares_pullrest : ∀ {us : List GefsMsg} {w : Pulling}, New s₀ w.n →
    Spares s₀ (pullrest us w) fun w => New s₀ w.n
  | [], _, h => .pure h
  | u :: us, w, h => by
    unfold pullrest
    dsimp only
    split_ifs
    · exact .pure h
    · exact (spares_pull h u).bind fun _ h => spares_pullrest h

theorem spares_updatepivMsgs : ∀ {fuel : ℕ} {ms us : List GefsMsg} {w : Pulling}, New s₀ w.n →
    Spares s₀ (updatepivMsgs fuel ms us w) fun w => New s₀ w.n
  | _, [], _, _, h => by
    unfold updatepivMsgs
    exact spares_pullrest h
  | 0, _ :: _, _, _, _ => .throw trivial
  | fuel + 1, m :: ms, us, w, h => by
    unfold updatepivMsgs
    dsimp only
    split
    · exact (spares_must _).bind fun _ _ => (spares_pullrun _ (by exact h)).bind
        fun _ h => spares_updatepivMsgs h
    · exact (spares_setmsg h m).bind fun _ h => spares_updatepivMsgs h

theorem spares_updatepiv (up p : Path) (pp : Option Path) :
    Spares s₀ (updatepiv E up p pp) fun _ => True :=
  (spares_must _).bind fun b _ => (spares_newblk b.pivot).bind fun _ h =>
    (spares_updatepivVals h).bind fun _ h => (spares_updatepivMsgs h).bind fun _ h =>
      (spares_setb h).bind fun _ _ => .pure trivial

/-- Both halves are new. -/
def Halves.New (s₀ : St) (w : Halves) : Prop := Btree.New s₀ w.l ∧ Btree.New s₀ w.r

theorem spares_put {w : Halves} {f : Node → Op Node} (h : w.New s₀)
    (hf : Btree.New s₀ (if w.right then w.r else w.l) →
      Spares s₀ (f (if w.right then w.r else w.l)) (New s₀)) :
    Spares s₀ (w.put f) (Halves.New s₀) := by
  unfold Halves.put
  rcases hr : w.right with _ | _ <;> rw [hr] at hf
  · exact (hf h.1).bind fun _ hn => .pure ⟨hn, h.2⟩
  · exact (hf h.2).bind fun _ hn => .pure ⟨h.1, hn⟩

theorem spares_splitpivVals {nval halfsz : ℕ} : ∀ {vs : List GefsKvp} {i : ℕ} {w : Halves},
    w.New s₀ → Spares s₀ (splitpivVals p pp nval halfsz i vs w) (Halves.New s₀)
  | [], _, _, h => by
    unfold splitpivVals
    exact .pure h
  | v :: vs, i, w, h => by
    unfold splitpivVals
    dsimp only
    generalize hw' : (if w.right = false ∧ (i + 2 = nval ∨ (2 ≤ i ∧ halfsz ≤ w.copied)) then
      { w with right := true, mid := v.1 } else w) = w'
    have h' : w'.New s₀ := by
      rw [← hw']
      split_ifs <;> exact h
    by_cases hi : (i : ℤ) = p.idx
    · rw [if_pos hi]
      refine (spares_must _).bind fun q _ => ?_
      have hnew : New s₀ (if w'.right then w'.r else w'.l) := by
        split_ifs
        · exact h'.2
        · exact h'.1
      exact (spares_copyup hnew).bind fun r hn =>
        (spares_put (f := fun _ => pure r.1) h' fun _ => .pure hn).bind fun _ hw =>
          spares_splitpivVals (by exact hw)
    · rw [if_neg hi]
      exact (spares_put h' fun hn => spares_setval hn v).bind fun _ hw =>
        spares_splitpivVals (by exact hw)

theorem spares_splitpivMsgs : ∀ {ms : List GefsMsg} {w : Halves}, w.New s₀ →
    Spares s₀ (splitpivMsgs ms w) (Halves.New s₀)
  | [], _, h => .pure h
  | m :: ms, w, h => by
    unfold splitpivMsgs
    dsimp only
    generalize hw' : (if w.right = false ∧ 0 ≤ gefsKeycmp m.k w.mid then
      { w with right := true } else w) = w'
    have h' : w'.New s₀ := by
      rw [← hw']
      split_ifs <;> exact h
    exact (spares_put h' fun hn => spares_setmsg hn m).bind fun _ hw => spares_splitpivMsgs hw

theorem spares_splitpiv (p : Path) (pp : Option Path) :
    Spares s₀ (splitpiv E p pp) fun _ => True := by
  refine (spares_must _).bind fun b _ => (spares_newblk b.pivot).bind fun l hl =>
    (spares_onError (spares_newblk b.pivot) (spares_freeblk l)).bind fun r hr =>
      spares_onError ?_ (spares_freetwo l r)
  dsimp only
  by_cases h4 : b.nval < 4
  · rw [if_pos h4]
    exact spares_throw_bind
  rw [if_neg h4]
  exact (spares_splitpivVals ⟨hl, hr⟩).bind fun _ hw =>
    (spares_splitpivMsgs (by exact hw)).bind fun _ hw' =>
    (spares_setb hw'.1).bind fun _ _ => (spares_setb hw'.2).bind fun _ _ => .pure trivial

end Pivots

/-! ## Paths -/

section Paths

variable {E : Env} {s₀ : St}

theorem spares_flushUp : ∀ {ps : List Path} {pp rp : Option Path} {done : List Path},
    Spares s₀ (flushUp E ps pp rp done) fun _ => True
  | [], _, _, _ => .throw trivial
  | [p0], pp, rp, done => by
    unfold flushUp
    refine (spares_must _).bind fun q _ => ?_
    split_ifs
    · exact (spares_newblk true).bind fun _ h => (spares_copyup h).bind fun _ h =>
        (spares_enqueue h).bind fun _ _ => .pure trivial
    · exact .pure trivial
  | p :: up :: rest, pp, rp, done => by
    unfold flushUp
    refine (spares_must _).bind fun b _ => ?_
    rw [trybalance_eq, pure_bind]
    dsimp only
    split_ifs
    · exact (spares_splitpiv p pp).bind fun _ _ => spares_flushUp
    · exact .pure trivial
    · exact (spares_updatepiv up p pp).bind fun _ _ => spares_flushUp

theorem spares_flush (ps : List Path) : Spares s₀ (flush E ps) fun _ => True := by
  unfold flush
  split
  · rename_i p up rest
    refine (spares_must _).bind fun b _ => ?_
    split_ifs
    · exact spares_flushUp
    · exact (spares_splitleaf up p).bind fun _ _ => spares_flushUp
    · exact (spares_updateleaf up p).bind fun _ _ => spares_flushUp
  · exact .throw trivial

theorem spares_freepath : ∀ {ps : List Path}, Spares s₀ (freepath E ps) fun _ => True
  | [] => .pure trivial
  | p :: ps => by
    have hrest : Spares s₀ (if p.m.isSome = true then do
        let b ← must p.b
        freeblk E b
        freepath E ps
        else freepath E ps) fun _ => True := by
      split_ifs
      · exact (spares_must _).bind fun b _ => (spares_freeblk b).bind fun _ _ => spares_freepath
      · exact spares_freepath
    unfold freepath
    rcases hb : p.b with _ | b <;> rw [hb] at hrest <;> dsimp only
    · exact hrest
    · exact (spares_freeblk b).bind fun _ _ => hrest

theorem spares_descent {nmsg : ℕ} : ∀ {n : ℕ} {b : Node} {ps : List Path},
    Spares s₀ (descent E nmsg n b ps) fun _ => True
  | 0, _, _ => .throw trivial
  | n + 1, b, ps => by
    unfold descent
    split_ifs
    · exact (spares_must _).bind fun _ _ => (spares_must _).bind fun bp _ =>
        (spares_onError (spares_getblk bp) spares_freepath).bind fun _ _ => spares_descent
    · exact .pure trivial

theorem spares_setroot (b : Node) (dh : Int32) : Spares s₀ (setroot b dh) fun _ => True :=
  Ends.modify fun _ hs => ⟨hs.blks, hs.live⟩

theorem spares_getroot : Spares s₀ (getroot E) fun _ => True :=
  Ends.get.bind fun _ _ => (spares_getblk _).bind fun _ _ => .pure trivial

theorem spares_fastupsert (b : Node) (ms : List GefsMsg) :
    Spares s₀ (fastupsert E b ms) fun _ => True := by
  have hdup : Spares s₀ (dupblk E b) (New s₀) := (spares_newblk b.pivot).bind fun _ h => .pure h
  exact hdup.bind fun _ h => (spares_setmsgs h).bind fun _ h => (spares_enqueue (by exact h)).bind
    fun _ _ => (spares_setroot _ _).bind fun _ _ => spares_freeblk b

theorem spares_slowupsert (b : Node) (height sz npull : ℕ) (ms : List GefsMsg) :
    Spares s₀ (slowupsert E b height sz npull ms) fun _ => True := by
  refine spares_ask.bind fun _ _ => spares_descent.bind fun _ _ =>
    (spares_onError (spares_flush _) spares_freepath).bind fun _ _ => (spares_must _).bind fun _ _ =>
      (spares_must _).bind fun _ _ => (spares_must _).bind fun _ _ => ?_
  split_ifs
  · exact spares_throw_bind
  · exact (spares_setroot _ _).bind fun _ _ =>
      (spares_onError spares_freepath spares_freepath).bind fun _ _ => .pure trivial

theorem spares_upsertLoop {sz : ℕ} {ms : List GefsMsg} : ∀ {fuel : ℕ} {first : Bool} {npull : ℕ},
    Spares s₀ (upsertLoop E sz ms fuel first npull) fun _ => True
  | 0, _, _ => .throw trivial
  | fuel + 1, first, npull => by
    have hh : Spares s₀ (if first = true then pure () else throw Fail.stopped : Op Unit)
        fun _ => True := by
      split_ifs
      · exact .pure trivial
      · exact .throw trivial
    unfold upsertLoop
    dsimp only
    refine (spares_onError spares_getroot hh).bind fun r _ => ?_
    by_cases hf : npull = 0 ∧ r.1.pivot = true ∧ ¬ filledbuf r.1 ms.length sz = true
    · rw [if_pos hf]
      exact spares_onError (spares_fastupsert _ _) hh
    · rw [if_neg hf]
      refine (spares_slowupsert _ _ _ _ _).bind fun j _ => ?_
      by_cases hj : j ≠ ms.length
      · rw [if_pos hj]
        exact spares_upsertLoop
      · rw [if_neg hj]
        exact .pure trivial

/-- A run of upserts, each of them ending as it may. -/
def upsertRun (us : List (Env × ℕ × List GefsMsg)) (s : St) : St :=
  us.foldl (fun s u => (exec (btupsert u.1 u.2.1 u.2.2) s).2) s

theorem Cow.run : ∀ {us : List (Env × ℕ × List GefsMsg)} {s : St}, Cow s₀ s →
    Cow s₀ (upsertRun us s)
  | [], _, h => h
  | u :: us, s, h => by
    have hu : Spares s₀ (btupsert u.1 u.2.1 u.2.2) fun _ => True := spares_upsertLoop
    exact @Cow.run us _ (hu s h).1

end Paths

/-! ## Lookups -/

section Lookup

variable {get get' : GefsBptr → Option Content} {t : GefsTree} {k : Bytes} {nbuf : ℕ}

end Lookup

end GefsFuse.Server.Btree
