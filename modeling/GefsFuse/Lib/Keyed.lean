import Mathlib.Data.List.Basic

/-!
# Operations on keys

A list of operations, each on a key, is read key by key: the ones on a key are done to an initial
value in their order (`eval`). A list may stand for another where every key comes to the same,
unless it comes to nothing there (`Refines`). So what is next to each other may be done ahead of
time (`Refines.append_right`), and also what is not, as long as nothing between is on its keys
(`Refines.splice`).
-/

namespace Keyed

variable {κ μ ν : Type*} [DecidableEq κ] (key : μ → κ) (eff : κ → ν → μ → Option ν) (v₀ : ν)

/-- What the operations on `k` make of the initial value. -/
def eval (l : List μ) (k : κ) : Option ν := (l.filter (key · = k)).foldlM (eff k) v₀

/-- `l'` comes to what `l` comes to, on every key on which `l` goes through. -/
def Refines (l l' : List μ) : Prop := ∀ k v, eval key eff v₀ l k = some v → eval key eff v₀ l' k = some v

variable {key eff v₀} {l l' r a b c c' p m m' : List μ} {k : κ} {v : ν}

theorem eval_append : eval key eff v₀ (l ++ r) k
    = (eval key eff v₀ l k).bind fun v => (r.filter (key · = k)).foldlM (eff k) v := by
  rw [eval, List.filter_append, List.foldlM_append]
  rfl

theorem eval_congr (h : l.filter (key · = k) = l'.filter (key · = k)) :
    eval key eff v₀ l k = eval key eff v₀ l' k := by
  rw [eval, eval, h]

/-- What is done first goes through if all does. -/
theorem eval_left (h : eval key eff v₀ (l ++ r) k = some v) : ∃ u, eval key eff v₀ l k = some u := by
  rw [eval_append] at h
  obtain ⟨u, hu, -⟩ := Option.bind_eq_some_iff.1 h
  exact ⟨u, hu⟩

theorem filter_eq_nil (h : ∀ x ∈ l, key x ≠ k) : l.filter (key · = k) = [] :=
  List.filter_eq_nil_iff.2 fun x hx => by simpa using h x hx

namespace Refines

theorem refl (l : List μ) : Refines key eff v₀ l l := fun _ _ h => h

theorem trans (h : Refines key eff v₀ l l') (h' : Refines key eff v₀ l' r) : Refines key eff v₀ l r :=
  fun k v hv => h' k v (h k v hv)

/-- Lists that hold the same on every key. -/
theorem of_filter (h : ∀ k, l.filter (key · = k) = l'.filter (key · = k)) : Refines key eff v₀ l l' :=
  fun k v hv => by rwa [← eval_congr (h k)]

theorem append_right (h : Refines key eff v₀ l l') (r : List μ) :
    Refines key eff v₀ (l ++ r) (l' ++ r) := by
  intro k v hv
  rw [eval_append] at hv ⊢
  obtain ⟨u, hu, hv⟩ := Option.bind_eq_some_iff.1 hv
  rw [h k u hu, Option.bind_some, hv]

/-- `p` is done to `c` ahead of `a`, `b` and `m`, which are on other keys. -/
theorem splice (h : Refines key eff v₀ (c ++ p) c')
    (hoff : ∀ x ∈ c ++ p ++ c', ∀ y ∈ a ++ b ++ m, key x ≠ key y) :
    Refines key eff v₀ (a ++ c ++ b ++ (m ++ p ++ m')) (a ++ c' ++ b ++ (m ++ m')) := by
  intro k v hv
  by_cases hk : ∃ x ∈ c ++ p ++ c', key x = k
  · obtain ⟨x, hx, rfl⟩ := hk
    have hnil : ∀ y ∈ a ++ b ++ m, key y ≠ key x := fun y hy => (hoff x hx y hy).symm
    have ha : a.filter (key · = key x) = [] := filter_eq_nil fun y hy => hnil y (by simp [hy])
    have hb : b.filter (key · = key x) = [] := filter_eq_nil fun y hy => hnil y (by simp [hy])
    have hm : m.filter (key · = key x) = [] := filter_eq_nil fun y hy => hnil y (by simp [hy])
    rw [show eval key eff v₀ (a ++ c ++ b ++ (m ++ p ++ m')) (key x)
      = eval key eff v₀ (c ++ p ++ m') (key x) from eval_congr (by
        simp only [List.filter_append, ha, hb, hm, List.nil_append, List.append_assoc])] at hv
    rw [show eval key eff v₀ (a ++ c' ++ b ++ (m ++ m')) (key x)
      = eval key eff v₀ (c' ++ m') (key x) from eval_congr (by
        simp only [List.filter_append, ha, hb, hm, List.nil_append, List.append_nil])]
    exact h.append_right m' _ v hv
  · have hnil : ∀ x ∈ c ++ p ++ c', key x ≠ k := fun x hx he => hk ⟨x, hx, he⟩
    have hc : c.filter (key · = k) = [] := filter_eq_nil fun y hy => hnil y (by simp [hy])
    have hp : p.filter (key · = k) = [] := filter_eq_nil fun y hy => hnil y (by simp [hy])
    have hc' : c'.filter (key · = k) = [] := filter_eq_nil fun y hy => hnil y (by simp [hy])
    rw [← hv]
    refine eval_congr ?_
    simp only [List.filter_append, hc, hp, hc', List.append_nil]

end Refines

end Keyed
