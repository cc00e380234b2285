import Mathlib.Data.List.Basic

/-!
# Computations that change a state and may end early

A computation over a state `σ` ends with a value or early, with an `ε`, and leaves a state either
way (`exec`). Also here is what a list of computations without a state comes to.
-/

namespace Effects

variable {ε σ α β : Type}

/-- How `x` ends from `s`, and the state it leaves. -/
def exec (x : ExceptT ε (StateM σ) α) (s : σ) : Except ε α × σ := x.run s

theorem bind_eq_ok_iff {x : Except ε α} {f : α → Except ε β} {b : β} :
    (x >>= f) = .ok b ↔ ∃ a, x = .ok a ∧ f a = .ok b := by
  rcases x with e | a
  · exact ⟨fun h => (by cases h), fun ⟨_, h, _⟩ => (by cases h)⟩
  · exact ⟨fun h => ⟨a, rfl, h⟩, fun ⟨_, h, h'⟩ => (by cases h; exact h')⟩

theorem bind_eq_error_iff {x : Except ε α} {f : α → Except ε β} {e : ε} :
    (x >>= f) = .error e ↔ x = .error e ∨ ∃ a, x = .ok a ∧ f a = .error e := by
  rcases x with e' | a
  · exact ⟨fun h => .inl (by cases h; rfl), fun h => by
      rcases h with h | ⟨_, h, -⟩ <;> cases h
      rfl⟩
  · exact ⟨fun h => .inr ⟨a, rfl, h⟩, fun h => by
      rcases h with h | ⟨_, h, h'⟩ <;> cases h
      exact h'⟩

/-! ## A list of computations -/

section Lists

variable {h : α → Option β} {g : α → β}

theorem mapM_some : ∀ {l : List α}, (∀ x ∈ l, h x = some (g x)) → l.mapM h = some (l.map g)
  | [], _ => rfl
  | x :: l, hl => by
    rw [List.forall_mem_cons] at hl
    rw [List.mapM_cons, hl.1, mapM_some hl.2]
    rfl

theorem exists_mapM : ∀ {l : List α}, (∀ x ∈ l, ∃ y, h x = some y) → ∃ r, l.mapM h = some r
  | [], _ => ⟨[], rfl⟩
  | x :: l, hl => by
    obtain ⟨⟨y, hy⟩, hl⟩ := List.forall_mem_cons.1 hl
    obtain ⟨r, hr⟩ := exists_mapM hl
    refine ⟨y :: r, ?_⟩
    rw [List.mapM_cons, hy, hr]
    rfl

theorem of_mapM_some : ∀ {l : List α} {r : List β}, l.mapM h = some r → ∀ x ∈ l, ∃ y, h x = some y
  | [], _, _, x, hx => absurd hx (by simp)
  | a :: l, r, hl, x, hx => by
    rw [List.mapM_cons] at hl
    obtain ⟨y, hy, hl⟩ := Option.bind_eq_some_iff.1 hl
    obtain ⟨r, hr, -⟩ := Option.bind_eq_some_iff.1 hl
    rcases List.mem_cons.1 hx with rfl | hx
    · exact ⟨y, hy⟩
    · exact of_mapM_some hr x hx

end Lists

section Exec

variable {x : ExceptT ε (StateM σ) α} {f : α → ExceptT ε (StateM σ) β} {s s' : σ}

@[simp] theorem exec_pure (a : α) : exec (pure a : ExceptT ε (StateM σ) α) s = (.ok a, s) := rfl

@[simp] theorem exec_throw (e : ε) :
    exec (throw e : ExceptT ε (StateM σ) α) s = (.error e, s) := rfl

@[simp] theorem exec_get : exec (get : ExceptT ε (StateM σ) σ) s = (.ok s, s) := rfl

@[simp] theorem exec_set : exec (set s' : ExceptT ε (StateM σ) PUnit) s = (.ok ⟨⟩, s') := rfl

@[simp] theorem exec_modify (g : σ → σ) :
    exec (modify g : ExceptT ε (StateM σ) PUnit) s = (.ok ⟨⟩, g s) := rfl

theorem exec_bind : exec (x >>= f) s =
    match exec x s with
    | (.ok a, s') => exec (f a) s'
    | (.error e, s') => (.error e, s') := by
  show exec (ExceptT.mk (x.run >>= ExceptT.bindCont f)) s = _
  unfold exec ExceptT.run ExceptT.mk
  simp only [bind, StateT.bind]
  rcases (x s : Except ε α × σ) with ⟨_ | a, s'⟩ <;> rfl

theorem exec_bind_ok {a : α} (h : exec x s = (.ok a, s')) : exec (x >>= f) s = exec (f a) s' := by
  rw [exec_bind, h]

theorem exec_bind_error {e : ε} (h : exec x s = (.error e, s')) :
    exec (x >>= f) s = (.error e, s') := by
  rw [exec_bind, h]

@[simp] theorem exec_map (g : α → β) : exec (g <$> x) s =
    match exec x s with
    | (.ok a, s') => (.ok (g a), s')
    | (.error e, s') => (.error e, s') := by
  rw [map_eq_pure_bind, exec_bind]
  rcases exec x s with ⟨_ | a, s'⟩ <;> rfl

theorem exec_bind_eq_ok {b : β} (h : exec (x >>= f) s = (.ok b, s')) :
    ∃ a s1, exec x s = (.ok a, s1) ∧ exec (f a) s1 = (.ok b, s') := by
  rw [exec_bind] at h
  rcases hx : exec x s with ⟨_ | a, s1⟩ <;> rw [hx] at h
  · cases h
  · exact ⟨a, s1, rfl, h⟩

theorem exec_tryCatch (g : ε → ExceptT ε (StateM σ) α) : exec (tryCatch x g) s =
    match exec x s with
    | (.ok a, s') => (.ok a, s')
    | (.error e, s') => exec (g e) s' := by
  show exec (ExceptT.mk (x.run >>= fun r => match r with
    | .ok a => pure (.ok a)
    | .error e => g e)) s = _
  unfold exec ExceptT.run ExceptT.mk
  simp only [bind, StateT.bind]
  rcases (x s : Except ε α × σ) with ⟨_ | a, s'⟩ <;> rfl

end Exec

/-! ## Invariants -/

/-- From every state with `I`, `x` leaves one with `I`, and it ends with a value as `Q` says or
early as `R` says. -/
def Ends (I : σ → Prop) (R : ε → Prop) (x : ExceptT ε (StateM σ) α) (Q : α → Prop) : Prop :=
  ∀ s, I s → I (exec x s).2 ∧ (∀ a, (exec x s).1 = .ok a → Q a)
    ∧ ∀ e, (exec x s).1 = .error e → R e

section Ends

variable {I : σ → Prop} {R : ε → Prop} {x : ExceptT ε (StateM σ) α}
  {f : α → ExceptT ε (StateM σ) β} {Q Q' : α → Prop} {Q₂ : β → Prop}

theorem Ends.pure {a : α} (h : Q a) : Ends I R (pure a : ExceptT ε (StateM σ) α) Q := by
  intro s hs
  simp [hs, h]

theorem Ends.throw {e : ε} (h : R e) : Ends I R (throw e : ExceptT ε (StateM σ) α) Q := by
  intro s hs
  simp [hs, h]

theorem Ends.get : Ends I R (get : ExceptT ε (StateM σ) σ) I := by
  intro s hs
  simp [hs]

theorem Ends.set {s' : σ} (h : I s') :
    Ends I R (set s' : ExceptT ε (StateM σ) PUnit) fun _ => True := by
  intro s hs
  simp [h]

theorem Ends.modify {g : σ → σ} (h : ∀ s, I s → I (g s)) :
    Ends I R (modify g : ExceptT ε (StateM σ) PUnit) fun _ => True := by
  intro s hs
  simp [h s hs]

theorem Ends.mono (hx : Ends I R x Q) (h : ∀ a, Q a → Q' a) : Ends I R x Q' := by
  intro s hs
  obtain ⟨hi, hq, he⟩ := hx s hs
  exact ⟨hi, fun a ha => h a (hq a ha), he⟩

theorem Ends.bind (hx : Ends I R x Q) (hf : ∀ a, Q a → Ends I R (f a) Q₂) :
    Ends I R (x >>= f) Q₂ := by
  intro s hs
  obtain ⟨hi, hq, he⟩ := hx s hs
  rw [exec_bind]
  rcases h : exec x s with ⟨e | a, s'⟩ <;> rw [h] at hi hq he
  · refine ⟨hi, fun b hb => ?_, fun e' h' => ?_⟩
    · cases hb
    · cases h'
      exact he e rfl
  · exact hf a (hq a rfl) s' hi

theorem Ends.map {g : α → β} (hx : Ends I R x fun a => Q₂ (g a)) : Ends I R (g <$> x) Q₂ := by
  rw [map_eq_pure_bind]
  exact hx.bind fun a ha => .pure ha

theorem Ends.tryCatch {g : ε → ExceptT ε (StateM σ) α} (hx : Ends I R x Q)
    (hg : ∀ e, R e → Ends I R (g e) Q) : Ends I R (tryCatch x g) Q := by
  intro s hs
  obtain ⟨hi, hq, he⟩ := hx s hs
  rw [exec_tryCatch]
  rcases h : exec x s with ⟨e | a, s'⟩ <;> rw [h] at hi hq he
  · exact hg e (he e rfl) s' hi
  · refine ⟨hi, fun b hb => ?_, fun e' h' => ?_⟩
    · cases hb
      exact hq a rfl
    · cases h'

end Ends

end Effects
