import Mathlib.Logic.Relation

/-!
# Labelled steps

A system moves from state to state by labelled steps, `step s a` being none where `a` is not
enabled in `s`. `Via C s s'` says that `s'` is reached from `s` by steps that meet `C` where they
are taken; an invariant such steps keep holds in every state reached (`Via.inv`).
-/

namespace Trans

variable {S A : Type*} (step : S → A → Option S)

/-- The labels taken one after the other. -/
def run : S → List A → Option S
  | s, [] => some s
  | s, a :: as => (step s a).bind fun s => run s as

/-- `s'` is reached from `s` by steps that meet `C`. -/
inductive Via (C : A → S → Prop) (s : S) : S → Prop
  | refl : Via C s s
  | step {s' s'' : S} (a : A) : Via C s s' → C a s' → step s' a = some s'' → Via C s s''

/-- Each label meets `C` in the state it is taken in. -/
def Along (C : A → S → Prop) : S → List A → Prop
  | _, [] => True
  | s, a :: as => C a s ∧ ∀ s' ∈ step s a, Along C s' as

instance (C : A → S → Prop) [∀ a s, Decidable (C a s)] (s : S) (as : List A) :
    Decidable (Along step C s as) :=
  match as with
  | [] => .isTrue trivial
  | a :: as =>
    have : ∀ s', Decidable (Along step C s' as) := fun s' => instDecidableAlong C s' as
    match h : step s a with
    | none => decidable_of_iff (C a s) (by simp [Along, h])
    | some s' => decidable_of_iff (C a s ∧ Along step C s' as) (by simp [Along, h])

variable {step} {C : A → S → Prop} {s s' s'' : S}

theorem Via.trans (h : Via step C s s') (h' : Via step C s' s'') : Via step C s s'' := by
  induction h' with
  | refl => exact h
  | step a _ hc hs ih => exact .step a ih hc hs

/-- An invariant that steps meeting `C` keep. -/
theorem Via.inv {I : S → Prop} (hstep : ∀ a s s', I s → C a s → step s a = some s' → I s')
    (h : Via step C s s') (hi : I s) : I s' := by
  induction h with
  | refl => exact hi
  | step a _ hc hs ih => exact hstep a _ _ ih hc hs

theorem via_of_run {as : List A} (hr : run step s as = some s') (ha : Along step C s as) :
    Via step C s s' := by
  induction as generalizing s with
  | nil =>
    obtain rfl : s = s' := Option.some.inj hr
    exact .refl
  | cons a as ih =>
    obtain ⟨s1, hs, hr⟩ := Option.bind_eq_some_iff.1 hr
    exact Via.trans (.step a .refl ha.1 hs) (ih hr (ha.2 s1 hs))

theorem along_of_forall (h : ∀ a s, C a s) : ∀ {as : List A} {s : S}, Along step C s as
  | [], _ => trivial
  | _ :: _, _ => ⟨h _ _, fun _ _ => along_of_forall h⟩

end Trans
