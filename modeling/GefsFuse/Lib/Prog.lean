import GefsFuse.Lib.Mem

/-!
# Programs over atomic calls

A program is a tree of calls of a signature `P`, each followed by a continuation that takes its
answer. A machine answers a call in a state and moves to the next state, or has no answer, where
the call is not defined. `run` runs a program to its end; `Meets C` says that every call made on
the way meets `C` in the state it is made in, and an invariant that such calls keep holds all the
way (`run_inv`).
-/

namespace Calls

/-- A program with result `α`; `fault` is a program whose behaviour is not defined. -/
inductive Prog (P : Type → Type) (α : Type) : Type 1
  | ret (a : α) : Prog P α
  | fault : Prog P α
  | call {β : Type} (p : P β) (k : β → Prog P α) : Prog P α

namespace Prog

variable {P : Type → Type} {α β γ : Type}

def bind : Prog P α → (α → Prog P β) → Prog P β
  | ret a, f => f a
  | fault, _ => fault
  | call p k, f => call p fun b => (k b).bind f

instance : Monad (Prog P) where
  pure := ret
  bind := bind

/-- One call. -/
def one (p : P α) : Prog P α := call p ret

/-- A value, a fault where there is none. -/
def ofOption : Option α → Prog P α
  | some a => ret a
  | none => fault

@[simp] theorem pure_eq (a : α) : (pure a : Prog P α) = ret a := rfl

@[simp] theorem ret_bind (a : α) (f : α → Prog P β) : (ret a >>= f) = f a := rfl

@[simp] theorem fault_bind (f : α → Prog P β) : ((fault : Prog P α) >>= f) = fault := rfl

@[simp] theorem call_bind (p : P γ) (k : γ → Prog P α) (f : α → Prog P β) :
    (call p k >>= f) = call p fun b => k b >>= f := rfl

@[simp] theorem one_bind (p : P α) (f : α → Prog P β) : (one p >>= f) = call p f := rfl

@[simp] theorem ofOption_some (a : α) : (ofOption (some a) : Prog P α) = ret a := rfl

@[simp] theorem ofOption_none : (ofOption none : Prog P α) = fault := rfl

theorem bind_ret (p : Prog P α) : (p >>= ret) = p := by
  induction p with
  | ret a => rfl
  | fault => rfl
  | call p k ih =>
    rw [call_bind]
    congr 1
    funext b
    exact ih b

theorem bind_assoc (p : Prog P α) (f : α → Prog P β) (g : β → Prog P γ) :
    (p >>= f) >>= g = p >>= fun a => f a >>= g := by
  induction p with
  | ret a => rfl
  | fault => rfl
  | call p k ih =>
    simp only [call_bind]
    congr 1
    funext b
    exact ih b

end Prog

open Prog

/-- How a machine answers each call. -/
abbrev Machine (P : Type → Type) (S : Type) := {β : Type} → P β → S → Option (β × S)

section Run

variable {P : Type → Type} {S : Type} {α β : Type} (M : Machine P S)

/-- A program run to its end. -/
def run : Prog P α → S → Option (α × S)
  | ret a, s => some (a, s)
  | fault, _ => none
  | call p k, s =>
    match M p s with
    | none => none
    | some (b, s) => run (k b) s

/-- Every call made on the way meets `C`. -/
def Meets (C : {β : Type} → P β → S → Prop) : Prog P α → S → Prop
  | ret _, _ => True
  | fault, _ => True
  | call p k, s => C p s ∧ ∀ b s', M p s = some (b, s') → Meets C (k b) s'

/-- Every call the program can make, whatever the answers, meets `C`. -/
def All (C : {β : Type} → P β → Prop) : Prog P α → Prop
  | ret _ => True
  | fault => True
  | call p k => C p ∧ ∀ b, All C (k b)

/-- Every result the program can return, whatever the answers, is in `R`. -/
def Rets (R : α → Prop) : Prog P α → Prop
  | ret a => R a
  | fault => True
  | call _ k => ∀ b, Rets R (k b)

@[simp] theorem run_ret (a : α) (s : S) : run M (ret a) s = some (a, s) := rfl

@[simp] theorem run_fault (s : S) : run M (fault : Prog P α) s = none := rfl

theorem run_call {p : P β} {k : β → Prog P α} {s s' : S} {b : β} (h : M p s = some (b, s')) :
    run M (call p k) s = run M (k b) s' := by
  simp only [run, h]

variable {M}

theorem run_call_eq_some {p : P β} {k : β → Prog P α} {s s'' : S} {a : α}
    (h : run M (call p k) s = some (a, s'')) :
    ∃ b s', M p s = some (b, s') ∧ run M (k b) s' = some (a, s'') := by
  simp only [run] at h
  split at h
  · simp at h
  · rename_i b s' hp
    exact ⟨b, s', hp, h⟩

theorem run_bind (p : Prog P α) (f : α → Prog P β) (s : S) :
    run M (p >>= f) s = (run M p s).bind fun r => run M (f r.1) r.2 := by
  induction p generalizing s with
  | ret a => rfl
  | fault => rfl
  | call p k ih =>
    rw [call_bind]
    simp only [run]
    rcases M p s with _ | ⟨b, s'⟩
    · rfl
    · exact ih b s'

theorem run_bind_eq_some {p : Prog P α} {f : α → Prog P β} {s s'' : S} {b : β}
    (h : run M (p >>= f) s = some (b, s'')) :
    ∃ a s', run M p s = some (a, s') ∧ run M (f a) s' = some (b, s'') := by
  rw [run_bind] at h
  obtain ⟨⟨a, s'⟩, h1, h2⟩ := Option.bind_eq_some_iff.1 h
  exact ⟨a, s', h1, h2⟩

variable {C : {β : Type} → P β → S → Prop}

theorem Meets.bind {p : Prog P α} {f : α → Prog P β} {s : S} (hp : Meets M C p s)
    (hf : ∀ a s', run M p s = some (a, s') → Meets M C (f a) s') : Meets M C (p >>= f) s := by
  induction p generalizing s with
  | ret a => exact hf a s rfl
  | fault => trivial
  | call p k ih =>
    refine ⟨hp.1, fun b s' h => ih b (hp.2 b s' h) fun a s'' hr => hf a s'' ?_⟩
    rw [run_call M h, hr]

theorem Meets.of_bind {p : Prog P α} {f : α → Prog P β} {s s' : S} {a : α}
    (h : Meets M C (p >>= f) s) (hr : run M p s = some (a, s')) : Meets M C (f a) s' := by
  induction p generalizing s with
  | ret b =>
    obtain ⟨rfl, rfl⟩ := Prod.mk.inj (Option.some.inj hr)
    exact h
  | fault => cases hr
  | call p k ih =>
    obtain ⟨b, s1, hs, hr⟩ := run_call_eq_some hr
    exact ih b (h.2 b s1 hs) hr

section All

variable {D : {β : Type} → P β → Prop}

theorem All.bind {p : Prog P α} {f : α → Prog P β} (hp : All D p) (hf : ∀ a, All D (f a)) :
    All D (p >>= f) := by
  induction p with
  | ret a => exact hf a
  | fault => trivial
  | call p k ih => exact ⟨hp.1, fun b => ih b (hp.2 b)⟩

theorem all_ofOption (x : Option α) : All D (ofOption x : Prog P α) := by
  cases x <;> trivial

theorem All.meets {p : Prog P α} (hp : All D p) (s : S) : Meets M (fun q _ => D q) p s := by
  induction p generalizing s with
  | ret a => trivial
  | fault => trivial
  | call p k ih => exact ⟨hp.1, fun b s' _ => ih b (hp.2 b) s'⟩

theorem All.imp {D' : {β : Type} → P β → Prop} (h : ∀ {β : Type} (p : P β), D p → D' p)
    {p : Prog P α} (hp : All D p) : All D' p := by
  induction p with
  | ret a => trivial
  | fault => trivial
  | call p k ih => exact ⟨h p hp.1, fun b => ih b (hp.2 b)⟩

end All

section Rets

variable {R : α → Prop}

theorem rets_bind {R : β → Prop} (p : Prog P α) {f : α → Prog P β} (hf : ∀ a, Rets R (f a)) :
    Rets R (p >>= f) := by
  induction p with
  | ret a => exact hf a
  | fault => trivial
  | call p k ih => exact fun b => ih b

theorem Rets.run {p : Prog P α} (hp : Rets R p) {s s' : S} {a : α}
    (hr : Calls.run M p s = some (a, s')) : R a := by
  induction p generalizing s with
  | ret a' =>
    obtain ⟨rfl, -⟩ := Prod.mk.inj (Option.some.inj hr)
    exact hp
  | fault => cases hr
  | call p k ih =>
    obtain ⟨b, s1, -, hr⟩ := run_call_eq_some hr
    exact ih b (hp b) hr

end Rets

/-- An invariant kept by every call that meets `C` holds at the end. -/
theorem run_inv {I : S → Prop}
    (hstep : ∀ {β : Type} (p : P β) s b s', I s → C p s → M p s = some (b, s') → I s')
    {p : Prog P α} {s s' : S} {a : α} (hi : I s) (hc : Meets M C p s)
    (hr : run M p s = some (a, s')) : I s' := by
  induction p generalizing s with
  | ret a' =>
    simp only [run_ret, Option.some.injEq, Prod.mk.injEq] at hr
    obtain ⟨-, rfl⟩ := hr
    exact hi
  | fault => simp at hr
  | call p k ih =>
    obtain ⟨b, s1, hs, hr⟩ := run_call_eq_some hr
    exact ih b (hstep p s b s1 hi hc.1 hs) (hc.2 b s1 hs) hr

theorem meets_of_forall (h : ∀ {β : Type} (p : P β) s, C p s) (p : Prog P α) (s : S) :
    Meets M C p s := by
  induction p generalizing s with
  | ret a => trivial
  | fault => trivial
  | call p k ih => exact ⟨h p s, fun b s' _ => ih b s'⟩

theorem Meets.and {C' : {β : Type} → P β → S → Prop} {p : Prog P α} {s : S} (h : Meets M C p s)
    (h' : Meets M C' p s) : Meets M (fun q s => C q s ∧ C' q s) p s := by
  induction p generalizing s with
  | ret a => trivial
  | fault => trivial
  | call p k ih => exact ⟨⟨h.1, h'.1⟩, fun b s' hs => ih b (h.2 b s' hs) (h'.2 b s' hs)⟩

/-- Where a call on the way does not meet `C`, what such a call leaves behind is there at the end,
if every call keeps it. -/
theorem run_of_not_meets {I J : S → Prop}
    (hI : ∀ {β : Type} (p : P β) s b s', I s → M p s = some (b, s') → I s')
    (hJ : ∀ {β : Type} (p : P β) s b s', I s → J s → M p s = some (b, s') → J s')
    (hbad : ∀ {β : Type} (p : P β) s b s', I s → ¬ C p s → M p s = some (b, s') → J s')
    {p : Prog P α} {s s' : S} {a : α} (hi : I s) (hc : ¬ Meets M C p s)
    (hr : run M p s = some (a, s')) : J s' := by
  induction p generalizing s with
  | ret a' => exact absurd trivial hc
  | fault => simp at hr
  | call p k ih =>
    obtain ⟨b, s1, hs, hr⟩ := run_call_eq_some hr
    by_cases hp : C p s
    · refine ih b (hI p s b s1 hi hs) (fun hk => hc ⟨hp, fun b' s2 hs' => ?_⟩) hr
      obtain ⟨rfl, rfl⟩ := Prod.mk.inj (Option.some.inj (hs.symm.trans hs'))
      exact hk
    · have hkeep : ∀ {β : Type} (p : P β) s b s', I s ∧ J s → True → M p s = some (b, s') →
          I s' ∧ J s' := fun p s b s' h _ hs => ⟨hI p s b s' h.1 hs, hJ p s b s' h.1 h.2 hs⟩
      exact (run_inv hkeep ⟨hI p s b s1 hi hs, hbad p s b s1 hi hp hs⟩
        (meets_of_forall (fun _ _ => trivial) (k b) s1) hr).2

/-- Two conditions that an invariant makes the same, where every call that meets them keeps it. -/
theorem meets_congr {C' : {β : Type} → P β → S → Prop} {D : {β : Type} → P β → Prop} {I : S → Prop}
    (hiff : ∀ {β : Type} (p : P β) s, I s → D p → (C p s ↔ C' p s))
    (hstep : ∀ {β : Type} (p : P β) s b s', I s → D p → C p s → M p s = some (b, s') → I s')
    {p : Prog P α} {s : S} (hd : All D p) (hi : I s) : Meets M C p s ↔ Meets M C' p s := by
  induction p generalizing s with
  | ret a => exact Iff.rfl
  | fault => exact Iff.rfl
  | call p k ih =>
    constructor
    · rintro ⟨hp, hk⟩
      refine ⟨(hiff p s hi hd.1).1 hp, fun b s' hs => ?_⟩
      exact (ih b (hd.2 b) (hstep p s b s' hi hd.1 hp hs)).1 (hk b s' hs)
    · rintro ⟨hp, hk⟩
      have hp := (hiff p s hi hd.1).2 hp
      refine ⟨hp, fun b s' hs => ?_⟩
      exact (ih b (hd.2 b) (hstep p s b s' hi hd.1 hp hs)).2 (hk b s' hs)

end Run

end Calls
