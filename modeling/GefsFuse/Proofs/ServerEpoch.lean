import GefsFuse.Server.Epoch

/-!
# Reclamation by epochs

Let `n` be how often `epoch` has been set. While a worker that entered when it was `a` stays inside,
`n` gets to `a + 2` at most, and to `a + 2` only if the worker had read its epoch one before `a`, on
another turn of the counter (`Lag`). What is put in limbo meanwhile is on the lists of `a`, `a + 1`
and `a + 2`; the list taken off at `n` is the one of `n + 1`.

All of this needs that a cleaning acts on the epoch it has checked the workers against
(`Current`). Two cleanings may overlap, and the one that is behind takes off the list the mutator
now fills.
-/

namespace GefsFuse.Server

open Trans

variable {n : ℕ} {s s' : EpochSt n} {ent ent' : Fin n → ℕ}

/-- A worker inside an epoch that entered when `epoch` had been set `a` times. -/
def Lag (stores : ℕ) (e : Lepoch) (a : ℕ) : Prop :=
  stores = a ∨ stores = a + 1 ∨ stores = a + 2 ∧ e.ep = (a + 1) % 3

/-- A worker that does not hold back a cleaning that sets `epoch` now: it entered after `epoch` was
last set, or its epoch is the current one. -/
def Seen (s : EpochSt n) (ent : Fin n → ℕ) (w : Fin n) : Prop :=
  (s.lepoch w).active → ent w = s.stores ∨ (s.lepoch w).ep = s.stores % 3

/-- An item that goes on the list `e`: those who may still use it entered no later than the epoch
it was given. -/
def ItemOk (s : EpochSt n) (ent : Fin n → ℕ) (e : ℕ) (l : Limbo) : Prop :=
  l.ticket < s.calls
    ∧ ∃ a ≤ s.stores, a % 3 = e ∧ ∀ w ∈ s.guards l.ticket, ent w ≤ a

def VarsOk (s : EpochSt n) (v : CleanVars) : Prop :=
  v.stores ≤ s.stores ∧ v.ge = v.stores % 3

/-- The workers before `i` do not hold the cleaning back, as long as it is current. -/
def SeenTo (s : EpochSt n) (ent : Fin n → ℕ) (v : CleanVars) (i : ℕ) : Prop :=
  v.stores = s.stores → ∀ w : Fin n, w < i → Seen s ent w

def ResumeOk (s : EpochSt n) : Resume → Prop
  | .ret => True
  | .scan v _ | .take v => VarsOk s v

/-- What holds of the variables of a call. -/
def PcOk (s : EpochSt n) (ent : Fin n → ℕ) (w : Fin n) : Pc → Prop
  | .start | .startSet _ => (s.lepoch w).active = false
  | .stop | .stopSet _ => ∀ x, w ∉ s.guards x
  | .limbo l => l.ticket < s.calls
  | .limboHead l ge | .limboCas l ge _ => ItemOk s ent ge l
  | .wait r => ResumeOk s r
  | .waitAt (.take v) ge i =>
    VarsOk s v ∧ (v.stores = s.stores → ge = v.ge) ∧ SeenTo s ent v i
  | .waitAt r _ _ => ResumeOk s r
  | .scan v _ => VarsOk s v
  | .take v => VarsOk s v ∧ SeenTo s ent v n
  | .set v p => VarsOk s v ∧ SeenTo s ent v n ∧ ∀ l ∈ p, l.ticket ∈ s.taken
  | .free p | .dec p => ∀ l ∈ p, l.ticket ∈ s.taken
  | _ => True

/-- The invariant, `ent` giving for each worker inside an epoch how often `epoch` had been set when
it entered. -/
structure EpochInv (s : EpochSt n) (ent : Fin n → ℕ) : Prop where
  epoch : s.epoch = s.stores % 3
  guard : ∀ x, ∀ w ∈ s.guards x, (s.lepoch w).active
  lag : ∀ w, (s.lepoch w).active → Lag s.stores (s.lepoch w) (ent w)
  pc : ∀ w, PcOk s ent w (s.pc w)
  list : ∀ e, ∀ l ∈ s.limbo e, ItemOk s ent e l
  taken : ∀ x ∈ s.taken, x < s.calls ∧ s.guards x = ∅
  released : ∀ x ∈ s.released, x ∈ s.taken

theorem Lag.le {stores a : ℕ} {e : Lepoch} (h : Lag stores e a) : a ≤ stores := by
  unfold Lag at h
  omega

/-- What a step keeps for the variables of the other workers. -/
structure Onward (s s' : EpochSt n) (ent ent' : Fin n → ℕ) : Prop where
  calls : s.calls ≤ s'.calls
  stores : s.stores ≤ s'.stores
  taken : ∀ x ∈ s.taken, x ∈ s'.taken
  guards : ∀ x < s.calls, s'.guards x ⊆ s.guards x
  started : ∀ w, (s.pc w = .start ∨ ∃ ge, s.pc w = .startSet ge) →
    (s.lepoch w).active = false → (s'.lepoch w).active = false
  stopped : ∀ w, (s.pc w = .stop ∨ ∃ le, s.pc w = .stopSet le) →
    (∀ x, w ∉ s.guards x) → ∀ x, w ∉ s'.guards x
  entered : ∀ x, ∀ w ∈ s'.guards x, x < s.calls → ent' w = ent w
  seen : s'.stores = s.stores → ∀ w, Seen s ent w → Seen s' ent' w

section Onward

variable (h : Onward s s' ent ent')
include h

theorem Onward.itemOk {e : ℕ} {l : Limbo} (hl : ItemOk s ent e l) : ItemOk s' ent' e l := by
  obtain ⟨ht, a, ha, he, hg⟩ := hl
  refine ⟨ht.trans_le h.calls, a, ha.trans h.stores, he, fun w hw => ?_⟩
  rw [h.entered _ w hw ht]
  exact hg w (h.guards _ ht hw)

theorem Onward.varsOk {v : CleanVars} (hv : VarsOk s v) : VarsOk s' v :=
  ⟨hv.1.trans h.stores, hv.2⟩

theorem Onward.stores_eq {v : CleanVars} (hv : VarsOk s v) (hs : v.stores = s'.stores) :
    s'.stores = s.stores := by
  have h1 := hv.1
  have h2 := h.stores
  omega

theorem Onward.seenTo {v : CleanVars} {i : ℕ} (hv : VarsOk s v) (hi : SeenTo s ent v i) :
    SeenTo s' ent' v i := by
  intro hs w hw
  have he := h.stores_eq hv hs
  exact h.seen he w (hi (hs.trans he) w hw)

theorem Onward.resumeOk {r : Resume} (hr : ResumeOk s r) : ResumeOk s' r := by
  cases r with
  | ret => trivial
  | scan v i => exact h.varsOk hr
  | take v => exact h.varsOk hr

theorem Onward.pcOk {w : Fin n} (hw : PcOk s ent w (s.pc w)) : PcOk s' ent' w (s.pc w) := by
  have hstart := h.started w
  have hstop := h.stopped w
  generalize s.pc w = p at hw hstart hstop
  cases p with
  | start => exact hstart (.inl rfl) hw
  | startSet ge => exact hstart (.inr ⟨ge, rfl⟩) hw
  | stop => exact hstop (.inl rfl) hw
  | stopSet le => exact hstop (.inr ⟨le, rfl⟩) hw
  | limbo l => exact lt_of_lt_of_le hw h.calls
  | limboHead l ge => exact h.itemOk hw
  | limboCas l ge p => exact h.itemOk hw
  | wait r => exact h.resumeOk hw
  | waitAt r ge i =>
    cases r with
    | ret => trivial
    | scan v j => exact h.varsOk hw
    | take v =>
      obtain ⟨hv, hge, hi⟩ := hw
      exact ⟨h.varsOk hv, fun hs => hge (hs.trans (h.stores_eq hv hs)), h.seenTo hv hi⟩
  | scan v i => exact h.varsOk hw
  | take v => exact ⟨h.varsOk hw.1, h.seenTo hw.1 hw.2⟩
  | set v p => exact ⟨h.varsOk hw.1, h.seenTo hw.1 hw.2.1, fun l hl => h.taken _ (hw.2.2 l hl)⟩
  | free p => exact fun l hl => h.taken _ (hw l hl)
  | dec p => exact fun l hl => h.taken _ (hw l hl)
  | _ => trivial

end Onward

theorem Onward.of_eq (hc : s'.calls = s.calls) (hs : s'.stores = s.stores)
    (ht : s'.taken = s.taken) (hg : s'.guards = s.guards) (hl : s'.lepoch = s.lepoch) :
    Onward s s' ent ent where
  calls := hc.ge
  stores := hs.ge
  taken := fun x hx => ht.symm ▸ hx
  guards := fun x _ => by rw [hg]
  started := fun w _ hw => by rw [hl]; exact hw
  stopped := fun w _ hw => by rw [hg]; exact hw
  entered := fun _ _ _ _ => rfl
  seen := fun _ w hw => by
    unfold Seen
    rw [hl, hs]
    exact hw

/-- A step that changes the worker's own variables only. -/
theorem EpochInv.goto (hi : EpochInv s ent) {w : Fin n} {p : Pc} (hp : PcOk s ent w p) :
    EpochInv (s.goto w p) ent := by
  have heq : ∀ w q, PcOk (s.goto w p) ent w q ↔ PcOk s ent w q := by
    intro w q
    cases q with
    | waitAt r ge i => cases r <;> exact Iff.rfl
    | _ => exact Iff.rfl
  refine ⟨hi.epoch, hi.guard, hi.lag, fun w' => (heq w' _).2 ?_, hi.list, hi.taken, hi.released⟩
  show PcOk s ent w' (Function.update s.pc w p w')
  by_cases hw : w' = w
  · subst hw
    rwa [Function.update_self]
  · rw [Function.update_of_ne hw]
    exact hi.pc w'

/-! ## The steps that change shared words -/

theorem inside_of_mem (s : EpochSt n) {w : Fin n} (h : s.inside w) :
    (s.lepoch w).active ∧ s.pc w ≠ .stop ∧ ∀ le, s.pc w ≠ .stopSet le := by
  unfold EpochSt.inside at h
  simp only [Bool.and_eq_true] at h
  refine ⟨h.1, fun he => ?_, fun le he => ?_⟩
  · simp [he] at h
  · simp [he] at h

/-- A call of `limbo` gets a ticket, which all the workers inside an epoch guard. -/
theorem EpochInv.ticket (hi : EpochInv s ent) : EpochInv { s with
    calls := s.calls + 1
    guards := Function.update s.guards s.calls (Finset.univ.filter fun w => s.inside w) } ent := by
  have hold : ∀ x < s.calls, Function.update s.guards s.calls
      (Finset.univ.filter fun w => s.inside w) x = s.guards x := fun x hx =>
    Function.update_of_ne hx.ne _ _
  have ho : Onward s { s with
      calls := s.calls + 1
      guards := Function.update s.guards s.calls (Finset.univ.filter fun w => s.inside w) }
      ent ent := {
    calls := Nat.le_succ _
    stores := le_rfl
    taken := fun _ hx => hx
    guards := fun x hx => (hold x hx).le
    started := fun _ _ h => h
    stopped := fun w hp hw x => by
      show w ∉ Function.update s.guards s.calls _ x
      by_cases hx : x = s.calls
      · subst hx
        rw [Function.update_self, Finset.mem_filter]
        rintro ⟨-, hin⟩
        obtain ⟨-, h1, h2⟩ := inside_of_mem s hin
        rcases hp with hp | ⟨le, hp⟩
        · exact h1 hp
        · exact h2 le hp
      · rw [Function.update_of_ne hx]
        exact hw x
    entered := fun _ _ _ _ => rfl
    seen := fun _ _ h => h }
  refine ⟨hi.epoch, fun x w hw => ?_, hi.lag, fun w => ho.pcOk (hi.pc w),
    fun e l hl => ho.itemOk (hi.list e l hl), fun x hx => ?_, hi.released⟩
  · replace hw : w ∈ Function.update s.guards s.calls _ x := hw
    by_cases hx : x = s.calls
    · subst hx
      rw [Function.update_self, Finset.mem_filter] at hw
      exact (inside_of_mem s hw.2).1
    · rw [Function.update_of_ne hx] at hw
      exact hi.guard x w hw
  · obtain ⟨h1, h2⟩ := hi.taken x hx
    exact ⟨h1.trans (Nat.lt_succ_self _), (hold x h1).trans h2⟩

/-- A call of `epochend` gives up what the worker guards. -/
theorem EpochInv.ends (hi : EpochInv s ent) (w : Fin n) :
    EpochInv { s with guards := fun x => (s.guards x).erase w } ent := by
  have hsub : ∀ x, (s.guards x).erase w ⊆ s.guards x := fun x => Finset.erase_subset _ _
  have ho : Onward s { s with guards := fun x => (s.guards x).erase w } ent ent := {
    calls := le_rfl
    stores := le_rfl
    taken := fun _ hx => hx
    guards := fun x _ => hsub x
    started := fun _ _ h => h
    stopped := fun w' _ hw x hm => hw x (hsub x hm)
    entered := fun _ _ _ _ => rfl
    seen := fun _ _ h => h }
  refine ⟨hi.epoch, fun x w' hw => hi.guard x w' (hsub x hw), hi.lag, fun w => ho.pcOk (hi.pc w),
    fun e l hl => ho.itemOk (hi.list e l hl), fun x hx => ?_, hi.released⟩
  obtain ⟨h1, h2⟩ := hi.taken x hx
  exact ⟨h1, Finset.subset_empty.1 (h2 ▸ hsub x)⟩

/-- A worker that is inside no epoch enters one, whichever it has read. -/
theorem EpochInv.enter (hi : EpochInv s ent) {w : Fin n} (hw : (s.lepoch w).active = false)
    (hpc : s.pc w = .run) (ge : ℕ) :
    EpochInv (s.setLepoch w ⟨ge, true⟩) (Function.update ent w s.stores) := by
  have hne : ∀ x, ∀ w' ∈ s.guards x, w' ≠ w := by
    rintro x _ hg rfl
    exact absurd (hi.guard x _ hg) (by rw [hw]; decide)
  have ho : Onward s (s.setLepoch w ⟨ge, true⟩) ent (Function.update ent w s.stores) := {
    calls := le_rfl
    stores := le_rfl
    taken := fun _ hx => hx
    guards := fun _ _ => Finset.Subset.refl _
    started := fun w' hp hw' => by
      have he : w' ≠ w := by
        rintro rfl
        simp [hpc] at hp
      simpa only [EpochSt.setLepoch, Function.update_of_ne he] using hw'
    stopped := fun _ _ h => h
    entered := fun x w' hg _ => Function.update_of_ne (hne x w' hg) _ _
    seen := fun _ w' h => by
      intro ha
      by_cases he : w' = w
      · subst he
        exact .inl (Function.update_self ..)
      · simp only [EpochSt.setLepoch, Function.update_of_ne he] at ha ⊢
        exact h ha }
  refine ⟨hi.epoch, fun x w' hg => ?_, fun w' ha => ?_, fun w => ho.pcOk (hi.pc w),
    fun e l hl => ho.itemOk (hi.list e l hl), hi.taken, hi.released⟩
  · simp only [EpochSt.setLepoch, Function.update_of_ne (hne x w' hg)]
    exact hi.guard x w' hg
  · by_cases he : w' = w
    · subst he
      rw [Function.update_self]
      exact .inl rfl
    · simp only [EpochSt.setLepoch, Function.update_of_ne he] at ha ⊢
      exact hi.lag w' ha

/-- A worker that has called `epochend` leaves its epoch. -/
theorem EpochInv.leave (hi : EpochInv s ent) {w : Fin n} (hw : ∀ x, w ∉ s.guards x) (ep : ℕ) :
    EpochInv (s.setLepoch w ⟨ep, false⟩) ent := by
  have hne : ∀ x, ∀ w' ∈ s.guards x, w' ≠ w := by
    rintro x _ hg rfl
    exact hw x hg
  have hout : ∀ w', ((s.setLepoch w ⟨ep, false⟩).lepoch w').active → w' ≠ w := by
    rintro _ ha rfl
    simp [EpochSt.setLepoch] at ha
  have ho : Onward s (s.setLepoch w ⟨ep, false⟩) ent ent := {
    calls := le_rfl
    stores := le_rfl
    taken := fun _ hx => hx
    guards := fun _ _ => Finset.Subset.refl _
    started := fun w' _ hw' => by
      by_cases he : w' = w
      · subst he
        simp [EpochSt.setLepoch]
      · simpa only [EpochSt.setLepoch, Function.update_of_ne he] using hw'
    stopped := fun _ _ h => h
    entered := fun _ _ _ _ => rfl
    seen := fun _ w' h => by
      intro ha
      simp only [EpochSt.setLepoch, Function.update_of_ne (hout w' ha)] at ha ⊢
      exact h ha }
  refine ⟨hi.epoch, fun x w' hg => ?_, fun w' ha => ?_, fun w => ho.pcOk (hi.pc w),
    fun e l hl => ho.itemOk (hi.list e l hl), hi.taken, hi.released⟩
  · simp only [EpochSt.setLepoch, Function.update_of_ne (hne x w' hg)]
    exact hi.guard x w' hg
  · simp only [EpochSt.setLepoch, Function.update_of_ne (hout w' ha)] at ha ⊢
    exact hi.lag w' ha

/-- An item is put on a list. -/
theorem EpochInv.push (hi : EpochInv s ent) {e : ℕ} {l : Limbo} (hl : ItemOk s ent e l) :
    EpochInv (s.setLimbo e (l :: s.limbo e)) ent := by
  have ho : Onward s (s.setLimbo e (l :: s.limbo e)) ent ent := .of_eq rfl rfl rfl rfl rfl
  refine ⟨hi.epoch, hi.guard, hi.lag, fun w => ho.pcOk (hi.pc w), fun e' l' hl' => ho.itemOk ?_,
    hi.taken, hi.released⟩
  by_cases he : e' = e
  · subst he
    simp only [EpochSt.setLimbo, Function.update_self, List.mem_cons] at hl'
    rcases hl' with rfl | hl'
    · exact hl
    · exact hi.list e' l' hl'
  · simp only [EpochSt.setLimbo, Function.update_of_ne he] at hl'
    exact hi.list e' l' hl'

/-- Nobody may use what is on the list after the current one, once all workers have been seen. -/
theorem EpochInv.unguarded (hi : EpochInv s ent) (hs : ∀ w, Seen s ent w) {l : Limbo}
    (hl : l ∈ s.limbo ((s.stores + 1) % 3)) : s.guards l.ticket = ∅ := by
  obtain ⟨-, a, ha, hmod, hg⟩ := hi.list _ l hl
  refine Finset.eq_empty_of_forall_notMem fun w hw => ?_
  have hact := hi.guard _ w hw
  have hent := hg w hw
  have hlag := hi.lag w hact
  have hseen := hs w hact
  unfold Lag at hlag
  omega

/-- The list after the current one is taken off. -/
theorem EpochInv.takes (hi : EpochInv s ent) (hs : ∀ w, Seen s ent w) :
    EpochInv { s.setLimbo ((s.stores + 1) % 3) [] with
      taken := (s.limbo ((s.stores + 1) % 3)).map Limbo.ticket ++ s.taken } ent := by
  have ho : Onward s { s.setLimbo ((s.stores + 1) % 3) [] with
      taken := (s.limbo ((s.stores + 1) % 3)).map Limbo.ticket ++ s.taken } ent ent := {
    calls := le_rfl
    stores := le_rfl
    taken := fun _ hx => List.mem_append_right _ hx
    guards := fun _ _ => Finset.Subset.refl _
    started := fun _ _ h => h
    stopped := fun _ _ h => h
    entered := fun _ _ _ _ => rfl
    seen := fun _ _ h => h }
  refine ⟨hi.epoch, hi.guard, hi.lag, fun w => ho.pcOk (hi.pc w), fun e l hl => ho.itemOk ?_,
    fun x hx => ?_, fun x hx => List.mem_append_right _ (hi.released x hx)⟩
  · by_cases he : e = (s.stores + 1) % 3
    · subst he
      simp [EpochSt.setLimbo] at hl
    · simp only [EpochSt.setLimbo, Function.update_of_ne he] at hl
      exact hi.list e l hl
  · rcases List.mem_append.1 hx with hx | hx
    · obtain ⟨l, hl, rfl⟩ := List.mem_map.1 hx
      exact ⟨(hi.list _ l hl).1, hi.unguarded hs hl⟩
    · exact hi.taken x hx

/-- `epoch` is set to the next one. -/
theorem EpochInv.advance (hi : EpochInv s ent) (hs : ∀ w, Seen s ent w) :
    EpochInv { s with epoch := (s.stores + 1) % 3, stores := s.stores + 1 } ent := by
  have ho : Onward s { s with epoch := (s.stores + 1) % 3, stores := s.stores + 1 } ent ent := {
    calls := le_rfl
    stores := Nat.le_succ _
    taken := fun _ hx => hx
    guards := fun _ _ => Finset.Subset.refl _
    started := fun _ _ h => h
    stopped := fun _ _ h => h
    entered := fun _ _ _ _ => rfl
    seen := fun h => absurd h (Nat.succ_ne_self _) }
  refine ⟨rfl, hi.guard, fun w ha => ?_, fun w => ho.pcOk (hi.pc w),
    fun e l hl => ho.itemOk (hi.list e l hl), hi.taken, hi.released⟩
  have hlag := hi.lag w ha
  have hseen := hs w ha
  show Lag (s.stores + 1) (s.lepoch w) (ent w)
  unfold Lag at hlag ⊢
  omega

theorem EpochInv.release (hi : EpochInv s ent) {x : ℕ} (hx : x ∈ s.taken) :
    EpochInv { s with released := x :: s.released } ent := by
  have ho : Onward s { s with released := x :: s.released } ent ent := .of_eq rfl rfl rfl rfl rfl
  refine ⟨hi.epoch, hi.guard, hi.lag, fun w => ho.pcOk (hi.pc w),
    fun e l hl => ho.itemOk (hi.list e l hl), hi.taken, fun y hy => ?_⟩
  rcases List.mem_cons.1 hy with rfl | hy
  · exact hx
  · exact hi.released y hy

theorem EpochInv.count (hi : EpochInv s ent) (c : ℤ) : EpochInv { s with nlimbo := c } ent := by
  have ho : Onward s { s with nlimbo := c } ent ent := .of_eq rfl rfl rfl rfl rfl
  exact ⟨hi.epoch, hi.guard, hi.lag, fun w => ho.pcOk (hi.pc w),
    fun e l hl => ho.itemOk (hi.list e l hl), hi.taken, hi.released⟩

/-! ## Every step -/

theorem call_inv (hi : EpochInv s ent) {w : Fin n} {c : Call} (h : s.call w c = some s') :
    EpochInv s' ent := by
  unfold EpochSt.call at h
  rw [Option.ite_none_left_eq_some] at h
  obtain ⟨-, h⟩ := h
  cases c with
  | epochstart =>
    simp only [Option.ite_none_left_eq_some, Option.some.injEq] at h
    obtain ⟨ha, rfl⟩ := h
    exact hi.goto (Bool.eq_false_iff.2 ha)
  | epochend =>
    simp only [Option.ite_none_right_eq_some, Option.some.injEq] at h
    obtain ⟨-, rfl⟩ := h
    exact (hi.ends w).goto fun x => Finset.notMem_erase _ _
  | limbo ptr =>
    obtain rfl := Option.some.inj h
    exact hi.ticket.goto (Nat.lt_succ_self _)
  | epochwait =>
    obtain rfl := Option.some.inj h
    exact hi.goto trivial
  | epochclean =>
    obtain rfl := Option.some.inj h
    exact hi.goto trivial

theorem seen_of_lags {w : Fin n} (h : (s.lepoch w).lags (s.stores % 3) = false) :
    Seen s ent w := by
  intro ha
  unfold Lepoch.lags at h
  rw [ha, Bool.true_and, bne_eq_false_iff_eq] at h
  exact .inr (congrArg Lepoch.ep h)

theorem SeenTo.zero (v : CleanVars) : SeenTo s ent v 0 := fun _ _ hw => absurd hw (Nat.not_lt_zero _)

theorem SeenTo.succ {v : CleanVars} {i : ℕ} (h : SeenTo s ent v i)
    (hi : ∀ hn : i < n, v.stores = s.stores → Seen s ent ⟨i, hn⟩) : SeenTo s ent v (i + 1) := by
  intro hs w hw
  rcases Nat.lt_succ_iff_lt_or_eq.1 hw with hw | rfl
  · exact h hs w hw
  · exact hi w.2 hs

theorem SeenTo.all {v : CleanVars} (h : SeenTo s ent v n) (hs : v.stores = s.stores) :
    ∀ w, Seen s ent w := fun w => h hs w w.2

/-- One turn of the loop of `epochwait`. -/
theorem waitAt_inv {w : Fin n} {r : Resume} {ge i : ℕ}
    (hp : PcOk s ent w (.waitAt r ge i)) :
    (∀ hn : i < n, (s.lepoch ⟨i, hn⟩).lags ge = false → PcOk s ent w (.waitAt r ge (i + 1)))
      ∧ (n ≤ i → PcOk s ent w (EpochSt.resume r)) ∧ ResumeOk s r := by
  cases r with
  | ret => exact ⟨fun _ _ => trivial, fun _ => trivial, trivial⟩
  | scan v j => exact ⟨fun _ _ => hp, fun _ => hp, hp⟩
  | take v =>
    obtain ⟨hv, hge, hs⟩ := hp
    refine ⟨fun hn hl => ⟨hv, hge, hs.succ fun _ he => seen_of_lags ?_⟩, fun hn => ⟨hv, ?_⟩, hv⟩
    · rw [← he, ← hv.2, ← hge he]
      exact hl
    · exact fun he w _ => hs he w (by omega)

theorem step_inv {cmax : ℕ} (hi : EpochInv s ent) {w : Fin n} (hc : Current (.step w) s)
    (h : s.step cmax w = some s') : ∃ ent', EpochInv s' ent' := by
  have hp := hi.pc w
  unfold EpochSt.step at h
  simp only [Current] at hc
  cases hpc : s.pc w with
  | run => simp [hpc] at h
  | start =>
    rw [hpc] at hp h
    obtain rfl := Option.some.inj h
    exact ⟨ent, hi.goto hp⟩
  | startSet ge =>
    rw [hpc] at hp h
    obtain rfl := Option.some.inj h
    refine ⟨_, (hi.goto (w := w) (p := .run) trivial).enter hp ?_ ge⟩
    exact Function.update_self ..
  | stop =>
    rw [hpc] at hp h
    obtain rfl := Option.some.inj h
    exact ⟨ent, hi.goto hp⟩
  | stopSet le =>
    rw [hpc] at hp h
    obtain rfl := Option.some.inj h
    exact ⟨ent, (hi.leave hp le.ep).goto trivial⟩
  | limbo l =>
    rw [hpc] at hp h
    obtain rfl := Option.some.inj h
    exact ⟨ent, hi.goto ⟨hp, s.stores, le_rfl, hi.epoch.symm,
      fun w hw => (hi.lag w (hi.guard _ w hw)).le⟩⟩
  | limboHead l ge =>
    rw [hpc] at hp h
    obtain rfl := Option.some.inj h
    exact ⟨ent, hi.goto hp⟩
  | limboCas l ge p =>
    rw [hpc] at hp h
    simp only at h
    split_ifs at h
    · obtain rfl := Option.some.inj h
      exact ⟨ent, (hi.push hp).goto trivial⟩
    · obtain rfl := Option.some.inj h
      exact ⟨ent, hi.goto hp.1⟩
  | limboInc =>
    rw [hpc] at h
    obtain rfl := Option.some.inj h
    exact ⟨ent, (hi.count _).goto trivial⟩
  | wait r =>
    rw [hpc] at hp h
    obtain rfl := Option.some.inj h
    refine ⟨ent, hi.goto ?_⟩
    cases r with
    | ret => trivial
    | scan v i => exact hp
    | take v => exact ⟨hp, fun he => by rw [hi.epoch, hp.2, he], .zero v⟩
  | waitAt r ge i =>
    rw [hpc] at hp h
    obtain ⟨h1, h2, h3⟩ := waitAt_inv hp
    simp only at h
    split_ifs at h with hn hl
    · obtain rfl := Option.some.inj h
      exact ⟨ent, hi.goto h3⟩
    · obtain rfl := Option.some.inj h
      exact ⟨ent, hi.goto (h1 hn (Bool.eq_false_iff.2 hl))⟩
    · obtain rfl := Option.some.inj h
      exact ⟨ent, hi.goto (h2 (by omega))⟩
  | clean =>
    rw [hpc] at h
    obtain rfl := Option.some.inj h
    exact ⟨ent, hi.goto trivial⟩
  | cleanGe c =>
    rw [hpc] at h
    obtain rfl := Option.some.inj h
    exact ⟨ent, hi.goto ⟨le_rfl, hi.epoch⟩⟩
  | scan v i =>
    rw [hpc] at hp h
    simp only at h
    split_ifs at h <;> obtain rfl := Option.some.inj h
    · exact ⟨ent, hi.goto trivial⟩
    · exact ⟨ent, hi.goto hp⟩
    · exact ⟨ent, hi.goto hp⟩
    · exact ⟨ent, hi.goto hp⟩
  | take v =>
    rw [hpc] at hp h hc
    obtain rfl := Option.some.inj h
    obtain ⟨hv, hs⟩ := hp
    have hge : (v.ge + 1) % 3 = (s.stores + 1) % 3 := by
      have h1 := hv.2
      have h2 : v.stores = s.stores := hc
      omega
    rw [hge]
    refine ⟨ent, (hi.takes (hs.all hc)).goto ⟨hv, hs, fun l hl => ?_⟩⟩
    exact List.mem_append_left _ (List.mem_map_of_mem hl)
  | set v p =>
    rw [hpc] at hp h hc
    obtain rfl := Option.some.inj h
    obtain ⟨hv, hs, ht⟩ := hp
    have hge : (v.ge + 1) % 3 = (s.stores + 1) % 3 := by
      have h1 := hv.2
      have h2 : v.stores = s.stores := hc
      omega
    rw [hge]
    exact ⟨ent, (hi.advance (hs.all hc)).goto ht⟩
  | free p =>
    rw [hpc] at hp h
    cases p with
    | nil =>
      obtain rfl := Option.some.inj h
      exact ⟨ent, hi.goto trivial⟩
    | cons l p =>
      obtain rfl := Option.some.inj h
      refine ⟨ent, (hi.release (hp l List.mem_cons_self)).goto fun l' hl' => ?_⟩
      exact hp l' (List.mem_cons_of_mem _ hl')
  | dec p =>
    rw [hpc] at hp h
    obtain rfl := Option.some.inj h
    exact ⟨ent, (hi.count _).goto hp⟩

theorem epochInv_init (n : ℕ) : EpochInv (EpochSt.init n) fun _ => 0 where
  epoch := rfl
  guard := fun _ _ h => absurd h (Finset.notMem_empty _)
  lag := fun _ h => absurd h (by simp [EpochSt.init])
  pc := fun _ => trivial
  list := fun _ _ h => absurd h List.not_mem_nil
  taken := fun _ h => absurd h List.not_mem_nil
  released := fun _ h => absurd h List.not_mem_nil

/-! ## Runs -/

/-- In every run in which a cleaning takes a list off and sets `epoch` only while `epoch` has not
been set since it read it, an item is taken off and released only when every worker inside an epoch
since before the item was unlinked has ended it. -/
theorem epoch_safe {cmax : ℕ} (h : Via (epochStep cmax) Current (EpochSt.init n) s) : s.Safe := by
  have hinv : ∃ ent, EpochInv s ent := by
    refine h.inv (I := fun s => ∃ ent, EpochInv s ent) ?_ ⟨_, epochInv_init n⟩
    rintro a s s' ⟨ent, hi⟩ hc hs
    cases a with
    | call w c => exact ⟨ent, call_inv hi hs⟩
    | step w => exact step_inv hi hc hs
  obtain ⟨ent, hi⟩ := hinv
  rintro x (hx | hx)
  · exact (hi.taken x hx).2
  · exact (hi.taken x (hi.released x hx)).2

/-- A worker reads, another puts an item in limbo and then cleans on to the next epoch. -/
def quiet : List (Act 2) :=
  [.call 0 .epochstart, .step 0, .step 0, .call 1 (.limbo 7), .step 1, .step 1, .step 1, .step 1,
    .call 1 .epochclean] ++ List.replicate 11 (.step 1)

theorem epoch_safe_quiet :
    ∃ s, run (epochStep 16) (EpochSt.init 2) quiet = some s ∧ s.epoch = 1 ∧ s.Safe := by
  obtain ⟨s, hs⟩ : ∃ s, run (epochStep 16) (EpochSt.init 2) quiet = some s := ⟨_, rfl⟩
  refine ⟨s, hs, ?_, epoch_safe (via_of_run hs (by decide))⟩
  obtain rfl := Option.some.inj hs
  rfl

/-! ## Cleanings that overlap -/

/-- Worker 0 reads. Worker 2 cleans, up to the point where it takes a list off; worker 1 cleans and
sets `epoch`, and in its next epoch puts the block at 7 in limbo. Then worker 2 goes on. -/
def overlap : List (Act 3) :=
  [.call 0 .epochstart, .step 0, .step 0, .call 2 .epochclean] ++ List.replicate 11 (.step 2)
    ++ .call 1 .epochclean :: List.replicate 14 (.step 1)
    ++ [.call 1 .epochstart, .step 1, .step 1, .call 1 (.limbo 7), .step 1, .step 1, .step 1,
      .step 1, .step 2, .step 2, .step 2]

/-- Worker 2 has released the block while worker 0, inside an epoch since before the block was
unlinked, is still there. -/
theorem not_forall_safe :
    ∃ s, run (epochStep 16) (EpochSt.init 3) overlap = some s
      ∧ 0 ∈ s.released ∧ (0 : Fin 3) ∈ s.guards 0 ∧ s.inside 0 ∧ ¬ s.Safe := by
  obtain ⟨s, hs⟩ : ∃ s, run (epochStep 16) (EpochSt.init 3) overlap = some s := ⟨_, rfl⟩
  have hr : 0 ∈ s.released ∧ (0 : Fin 3) ∈ s.guards 0 ∧ s.inside 0 := by
    obtain rfl := Option.some.inj hs
    exact ⟨by decide, by decide, by decide⟩
  refine ⟨s, hs, hr.1, hr.2.1, hr.2.2, fun h => ?_⟩
  have he := h 0 (.inr hr.1)
  rw [he] at hr
  exact absurd hr.2.1 (Finset.notMem_empty _)

end GefsFuse.Server
