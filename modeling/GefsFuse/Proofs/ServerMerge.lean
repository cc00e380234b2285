import GefsFuse.Proofs.ServerFrame

/-!
# The messages merged into a leaf

`updateleaf` and `splitleaf` take over the values of a leaf in order and do to them the messages
above it, as far as these are pulled. With messages that remove nothing (`Plain`), the values left
are ascending, they are on the keys of both, and they are what the messages come to (`Absorbs`).
-/

namespace GefsFuse.Server.Btree

open Effects SortedMap Stable

/-! ## Messages that remove nothing -/

/-- The message removes nothing. -/
def Plain (m : GefsMsg) : Prop :=
  m.op = .oinsert ∨ m.op = .owstat ∨ m.op = .orelink ∨ m.op = .oreprev

theorem plain_pairMsg (e : GefsKvp) : Plain (pairMsg e) := .inl rfl

theorem Plain.ofByte {m : GefsMsg} (h : Plain m) : MsgOp.ofByte (opByte m.op) = m.op := by
  rcases h with h | h | h | h <;> rw [h] <;> rfl

section Effects

variable {nbuf nbuf' : ℕ} {k : Bytes} {u u' : Option Bytes} {m : GefsMsg}

theorem serverEff_mono (hle : nbuf ≤ nbuf') (h : serverEff nbuf k u m = some u') :
    serverEff nbuf' k u m = some u' := by
  unfold serverEff at h ⊢
  cases hop : m.op <;> rw [hop] at h <;> simp only at h ⊢ <;> try exact h
  case oinsert =>
    split_ifs at h with hl
    rw [if_pos (hl.trans hle), h]

/-- A plain message leaves a value. -/
theorem Plain.eff (hm : Plain m) (h : serverEff nbuf k u m = some u') : ∃ x, u' = some x := by
  unfold serverEff at h
  rcases hm with hop | hop | hop | hop <;> rw [hop] at h <;> simp only at h
  · split_ifs at h
    exact ⟨_, (Option.some.inj h).symm⟩
  all_goals
    obtain ⟨v, -, h⟩ := Option.bind_eq_some_iff.1 h
    obtain ⟨kv, -, h⟩ := Option.map_eq_some_iff.1 h
    exact ⟨_, h.symm⟩

/-- Where there is no value a plain message is an insertion. -/
theorem Plain.eff_none (hm : Plain m) (h : serverEff nbuf k none m = some u') :
    m.op = .oinsert ∧ u' = some m.v := by
  unfold serverEff at h
  rcases hm with hop | hop | hop | hop <;> rw [hop] at h <;> simp only at h
  · split_ifs at h
    exact ⟨hop, (Option.some.inj h).symm⟩
  all_goals cases h

/-- A value that fits a buffer is replaced by one that does. -/
theorem fits_serverEff (h : serverEff nbuf k u m = some u')
    (hu : ∀ b, u = some b → k.length + b.length ≤ nbuf) :
    ∀ b, u' = some b → k.length + b.length ≤ nbuf := by
  intro b hb
  subst hb
  unfold serverEff at h
  cases hop : m.op <;> rw [hop] at h <;> simp only at h
  case oinsert =>
    split_ifs at h with hle
    exact Option.some.inj (Option.some.inj h) ▸ hle
  case odelete =>
    split_ifs at h
    cases Option.some.inj h
  case owstat =>
    obtain ⟨v, rfl, h⟩ := Option.bind_eq_some_iff.1 h
    obtain ⟨kv, hs, h⟩ := Option.map_eq_some_iff.1 h
    obtain ⟨hl, _, _, -, -, hp⟩ := server_statupdate_eq hs
    obtain rfl := Option.some.inj h
    rw [length_gefsPackdval hp, ← hl]
    exact hu v rfl
  case orelink | oreprev =>
    obtain ⟨v, rfl, h⟩ := Option.bind_eq_some_iff.1 h
    obtain ⟨kv, hs, h⟩ := Option.map_eq_some_iff.1 h
    obtain rfl := Option.some.inj h
    rw [(server_relink_eq hs).2]
    exact hu v rfl
  all_goals cases h

theorem fits_foldlM : ∀ {l : List GefsMsg} {u u' : Option Bytes},
    l.foldlM (serverEff nbuf k) u = some u' → (∀ b, u = some b → k.length + b.length ≤ nbuf) →
    ∀ b, u' = some b → k.length + b.length ≤ nbuf
  | [], u, u', h, hu => Option.some.inj h ▸ hu
  | m :: l, u, u', h, hu => by
    rw [List.foldlM_cons] at h
    obtain ⟨w, hw, h⟩ := Option.bind_eq_some_iff.1 h
    exact fits_foldlM h (fits_serverEff hw hu)

end Effects

/-! ## What is left of values and messages -/

/-- `out` is what the messages `P` make of the values `vs`, and has all their keys. -/
structure Absorbs (vs : List GefsKvp) (P : List GefsMsg) (out : List GefsKvp) : Prop where
  asc : Ascending out
  keys : ∀ k, (∃ e ∈ out, e.1 = k) ↔ (∃ v ∈ vs, v.1 = k) ∨ ∃ m ∈ P, m.k = k
  ops : OpsTo (vs.map pairMsg ++ P) (out.map pairMsg)

section Absorbs

variable {vs out : List GefsKvp} {P run : List GefsMsg} {k x : Bytes} {o : Option Bytes}

theorem absorbs_nil : Absorbs [] [] [] := ⟨.nil, by simp, .refl _⟩

theorem filter_pairMsg_nil {l : List GefsKvp} (h : ∀ e ∈ l, e.1 ≠ k) :
    (l.map pairMsg).filter (·.k = k) = [] := by
  refine Keyed.filter_eq_nil fun m hm => ?_
  obtain ⟨e, he, rfl⟩ := List.mem_map.1 hm
  exact h e he

/-- The value under the least key, if there is one, with the messages on it. -/
theorem Absorbs.cons (h : Absorbs vs P out) (hon : ∀ m ∈ run, m.k = k)
    (hval : run.foldlM (serverEff gefsKvmax k) o = some (some x)) (hv : ∀ e ∈ vs, k < e.1)
    (hP : ∀ m ∈ P, k < m.k) :
    Absorbs ((o.map (k, ·)).toList ++ vs) (run ++ P) ((k, x) :: out) := by
  have hout : ∀ e ∈ out, k < e.1 := by
    intro e he
    rcases (h.keys e.1).1 ⟨e, he, rfl⟩ with ⟨v, hv', hk⟩ | ⟨m, hm, hk⟩
    · exact hk ▸ hv v hv'
    · exact hk ▸ hP m hm
  have hsome : o ≠ none ∨ run ≠ [] := by
    rw [← not_and_or]
    rintro ⟨rfl, rfl⟩
    cases hval
  refine ⟨List.pairwise_cons.2 ⟨hout, h.asc⟩, fun k' => ?_, fun k' v hv' => ?_⟩
  · have hrun : (∃ v ∈ (o.map (k, ·)).toList, v.1 = k') ∨ (∃ m ∈ run, m.k = k') ↔ k = k' := by
      constructor
      · rintro (⟨v, hv', rfl⟩ | ⟨m, hm, rfl⟩)
        · obtain ⟨b, -, rfl⟩ := Option.map_eq_some_iff.1 (Option.mem_toList.1 hv')
          rfl
        · exact (hon m hm).symm
      · rintro rfl
        rcases hsome with ho | hr
        · obtain ⟨b, rfl⟩ := Option.ne_none_iff_exists'.1 ho
          exact .inl ⟨(k, b), by simp, rfl⟩
        · obtain ⟨m, hm⟩ := List.exists_mem_of_ne_nil _ hr
          exact .inr ⟨m, hm, hon m hm⟩
    have hout : (∃ e ∈ (k, x) :: out, e.1 = k') ↔ k = k' ∨ ∃ e ∈ out, e.1 = k' := by simp
    rw [hout, h.keys k', ← hrun]
    simp only [List.mem_append, or_and_right, exists_or]
    exact or_or_or_comm
  · unfold Keyed.eval at hv' ⊢
    rw [List.map_append, List.append_assoc, List.filter_append, List.filter_append,
      List.filter_append] at hv'
    by_cases hk : k' = k
    · subst hk
      have h1 : (vs.map pairMsg).filter (·.k = k') = [] :=
        filter_pairMsg_nil fun e he => (hv e he).ne'
      have h2 : P.filter (·.k = k') = [] := Keyed.filter_eq_nil fun m hm => (hP m hm).ne'
      have h3 : run.filter (·.k = k') = run := List.filter_eq_self.2 fun m hm => by simpa using hon m hm
      have h4 : (out.map pairMsg).filter (·.k = k') = [] :=
        filter_pairMsg_nil fun e he => (hout e he).ne'
      rw [h1, h2, h3, List.nil_append, List.append_nil] at hv'
      -- the value there fits, so the one left does
      have hboth : v = some x ∧ k'.length + x.length ≤ gefsKvmax := by
        rcases o with _ | b
        · have hv' : run.foldlM (serverEff gefsKvmax k') none = some v := hv'
          rw [hval] at hv'
          exact ⟨(Option.some.inj hv').symm, fits_foldlM hval (by simp) x rfl⟩
        · have hfilter : ([pairMsg (k', b)] : List GefsMsg).filter (·.k = k') = [pairMsg (k', b)] := by
            simp [pairMsg]
          have hv' : (([pairMsg (k', b)] : List GefsMsg).filter (·.k = k') ++ run).foldlM
              (serverEff gefsKvmax k') none = some v := hv'
          rw [hfilter, List.singleton_append, List.foldlM_cons, serverEff_pair] at hv'
          obtain ⟨u, hu, hv'⟩ := Option.bind_eq_some_iff.1 hv'
          split_ifs at hu with hle
          obtain rfl := Option.some.inj hu
          rw [hval] at hv'
          refine ⟨(Option.some.inj hv').symm, fits_foldlM hval (fun c hc => ?_) x rfl⟩
          rwa [← Option.some.inj hc]
      rw [List.map_cons, List.filter_cons_of_pos (by simp [pairMsg]), h4, List.foldlM_cons,
        serverEff_pair, if_pos hboth.2, hboth.1]
      rfl
    · have hne : k ≠ k' := Ne.symm hk
      have h1 : ((o.map (k, ·)).toList.map pairMsg).filter (·.k = k') = [] := by
        refine filter_pairMsg_nil fun e he => ?_
        obtain ⟨b, -, rfl⟩ := Option.map_eq_some_iff.1 (Option.mem_toList.1 he)
        exact hne
      have h2 : run.filter (·.k = k') = [] :=
        Keyed.filter_eq_nil fun m hm => (hon m hm).trans_ne hne
      rw [h1, h2, List.nil_append, List.nil_append, ← List.filter_append] at hv'
      rw [List.map_cons, List.filter_cons_of_neg (by simp [pairMsg, hne])]
      exact h.ops k' v hv'

end Absorbs

/-! ## One key -/

/-- The messages `run` were pulled from `ms` and did `x` to what was on `k`. -/
structure Ran (k : Bytes) (o : Option Bytes) (run ms ms' : List GefsMsg) (w w' : Merging)
    (x : Bytes) : Prop where
  split : ms = run ++ ms'
  on : ∀ m ∈ run, m.k = k
  val : run.foldlM (serverEff gefsKvmax k) o = some (some x)
  node : w'.n = w.n.addVal (k, x)
  roomy : w.n.Roomy → w'.n.Roomy
  pulled : w'.pulled = w.pulled + run.length
  spc : w.spc ≤ w'.spc + msgSum run
  next : w'.full = true ∨ ∀ m ∈ ms'.head?, w'.m = some m ∧ m.k ≠ k
  fits : (∀ m ∈ ms', (msgsz m : ℤ) ≤ w'.spc) → w'.full = false

section Loops

variable {E : Env} {s s' : St} {w w' : Merging} {ms ms' : List GefsMsg} {v : GefsKvp} {m : GefsMsg}
  {k : Bytes} {u : Option Bytes}

/-- What `pullmsg` says of the next message. -/
theorem pullmsg_cases (k : Bytes) (full : Bool) (spc : ℤ) (ms : List GefsMsg) :
    (∃ m ms', ms = m :: ms' ∧ m.k = k ∧ full = false ∧ pullmsg (some k) full spc ms = (0, false))
      ∨ (∃ m ms', ms = m :: ms' ∧ m.k < k ∧ full = false
        ∧ pullmsg (some k) full spc ms = (1, false))
      ∨ ∃ full', pullmsg (some k) full spc ms = (-1, full') ∧ (full = true → full' = true)
        ∧ (full' = true ∨ ∀ m ∈ ms.head?, k < m.k)
        ∧ (full = false → (∀ m ∈ ms.head?, (msgsz m : ℤ) ≤ spc) → full' = false) := by
  rcases ms with _ | ⟨m, ms⟩
  · exact .inr (.inr ⟨full, rfl, id, by simp, fun h _ => h⟩)
  rcases full with _ | _
  · by_cases hle : (msgsz m : ℤ) ≤ spc
    · have hp : pullmsg (some k) false spc (m :: ms) = (gefsKeycmp k m.k, false) := by
        simp [pullmsg, hle]
      rw [hp, gefsKeycmp_eq]
      rcases lt_trichotomy k m.k with hlt | rfl | hlt
      · exact .inr (.inr ⟨false, by rw [if_pos hlt], id, .inr (by simpa using hlt), fun _ _ => rfl⟩)
      · exact .inl ⟨m, ms, rfl, rfl, rfl, by simp⟩
      · exact .inr (.inl ⟨m, ms, rfl, hlt, rfl, by rw [if_neg hlt.not_gt, if_neg hlt.ne']⟩)
    · exact .inr (.inr ⟨true, by simp [pullmsg, hle], by simp, .inl rfl,
        fun _ h => absurd (h m rfl) hle⟩)
  · exact .inr (.inr ⟨true, by simp [pullmsg], id, .inl rfl, by simp⟩)

theorem freeold_ok (h : exec (freeold E v m) s = (.ok (), s')) : Still s s' := by
  unfold freeold at h
  split_ifs at h
  · obtain ⟨bp, s₁, hbp, h1⟩ := exec_bind_eq_ok h
    obtain ⟨-, rfl⟩ := must_ok hbp
    exact freebp_ok h1
  · rw [exec_pure] at h
    rw [(Prod.mk.inj h).2]
    exact .refl _

theorem msgmax_ge : gefsKvmax ≤ msgmax := by decide

/-- A plain message done to a pair. -/
theorem applyTo_ok {r : GefsKvp × Bool} (hm : Plain m) (hk : m.k = v.1)
    (he : serverEff gefsKvmax v.1 (some v.2) m = some u)
    (h : exec (applyTo v m) s = (.ok r, s')) :
    s' = s ∧ ∃ x, u = some x ∧ r = ((v.1, x), true) := by
  obtain ⟨x, rfl⟩ := hm.eff he
  obtain ⟨⟨b, o⟩, ha, hb, ho⟩ := @does_apply msgmax v.1 (some v.2) (some x) (true, some v) m
    ⟨rfl, fun w hw => by rw [← Option.some.inj hw]⟩ hk (serverEff_mono msgmax_ge he)
  obtain ⟨r', s₁, hr, h1⟩ := exec_bind_eq_ok h
  obtain ⟨hap, rfl⟩ := must_ok hr
  obtain rfl : (b, o) = r' := Option.some.inj (ha.symm.trans hap)
  rw [exec_pure, Prod.mk.injEq, Except.ok.injEq] at h1
  obtain ⟨rfl, rfl⟩ := h1
  refine ⟨rfl, x, rfl, ?_⟩
  rw [show o = some (v.1, x) from ho x rfl, show b = true from hb]
  rfl

/-- The loop at `Copyloop` with a value. -/
theorem copyloop_ok : ∀ {ms : List GefsMsg} {v : GefsKvp} {w : Merging} {s : St},
    (∀ m ∈ ms, Plain m) → w.full = false →
    (∃ u, (ms.filter (·.k = v.1)).foldlM (serverEff gefsKvmax v.1) (some v.2) = some u) →
    exec (copyloop E v true ms w) s = (.ok (ms', w'), s') →
    Still s s' ∧ w'.spc = w.spc ∧ ∃ run x, Ran v.1 (some v.2) run ms ms' w w' x
  | [], v, w, s, _, hf, _, h => by
    unfold copyloop at h
    rw [if_pos rfl] at h
    obtain ⟨n, s₁, hn, h1⟩ := exec_bind_eq_ok h
    obtain ⟨rfl, rfl, hr⟩ := setval_ok hn
    rw [exec_pure, Prod.mk.injEq, Except.ok.injEq, Prod.mk.injEq] at h1
    obtain ⟨⟨rfl, rfl⟩, rfl⟩ := h1
    exact ⟨.refl _, rfl, [], v.2, rfl, by simp, rfl, rfl, hr, rfl, by simp, .inr (by simp),
      fun _ => hf⟩
  | m :: ms, v, w, s, hpl, hf, ⟨u, hu⟩, h => by
    rw [List.forall_mem_cons] at hpl
    have hstop : ∀ full', (full' = true ∨ m.k ≠ v.1) →
        (w.full = false → (∀ x ∈ (m :: ms).head?, (msgsz x : ℤ) ≤ w.spc) → full' = false) →
        exec (do
          let w := { w with m := if w.full then w.m else some m, full := full' }
          let n ← setval w.n v
          pure (m :: ms, { w with n := n })) s = (.ok (ms', w'), s') →
        Still s s' ∧ w'.spc = w.spc ∧ ∃ run x, Ran v.1 (some v.2) run (m :: ms) ms' w w' x := by
      intro full' hfull hfit h
      obtain ⟨n, s₁, hn, h1⟩ := exec_bind_eq_ok h
      obtain ⟨rfl, rfl, hr⟩ := setval_ok hn
      rw [exec_pure, Prod.mk.injEq, Except.ok.injEq, Prod.mk.injEq] at h1
      obtain ⟨⟨rfl, rfl⟩, rfl⟩ := h1
      refine ⟨.refl _, rfl, [], v.2, rfl, by simp, rfl, rfl, hr, rfl, by simp,
        hfull.imp_right fun hne x hx => ?_, fun hall => hfit hf fun x hx => ?_⟩
      · obtain rfl := Option.some.inj hx
        exact ⟨by rw [hf]; rfl, hne⟩
      · exact hall x (List.mem_of_mem_head? hx)
    unfold copyloop at h
    rcases pullmsg_cases v.1 w.full w.spc (m :: ms) with ⟨_, _, hms, hk, -, hp⟩
      | ⟨_, _, hms, hlt, -, hp⟩ | ⟨full', hp, -, hfull, hfit⟩
    · obtain ⟨rfl, rfl⟩ := List.cons.inj hms
      rw [hp] at h
      simp only [if_true] at h
      obtain ⟨_, s₁, h1, h2⟩ := exec_bind_eq_ok h
      obtain ⟨r, s₂, h3, h4⟩ := exec_bind_eq_ok h2
      rw [List.filter_cons_of_pos (by simpa using hk), List.foldlM_cons] at hu
      obtain ⟨y, hy, hu⟩ := Option.bind_eq_some_iff.1 hu
      obtain ⟨rfl, x, rfl, rfl⟩ := applyTo_ok hpl.1 hk hy h3
      obtain ⟨hst, hspc, run, z, hran⟩ := @copyloop_ok ms (v.1, x)
        { w with m := some m, pulled := w.pulled + 1, pullsz := w.pullsz + msgsz m } s₂
        hpl.2 hf ⟨u, hu⟩ h4
      refine ⟨(freeold_ok h1).trans hst, hspc, m :: run, z, ?_, ?_, ?_, hran.node, hran.roomy, ?_, ?_,
        hran.next, hran.fits⟩
      · rw [hran.split, List.cons_append]
      · rw [List.forall_mem_cons]
        exact ⟨hk, hran.on⟩
      · rw [List.foldlM_cons, hy]
        exact hran.val
      · rw [hran.pulled, List.length_cons, Nat.add_right_comm, Nat.add_assoc]
      · rw [show w'.spc = w.spc from hspc]
        omega
    · obtain ⟨rfl, rfl⟩ := List.cons.inj hms
      rw [hp] at h
      exact hstop false (.inr hlt.ne) (fun _ _ => rfl) h
    · rw [hp] at h
      exact hstop full' (hfull.imp_right fun hlt => (hlt m rfl).ne') hfit h

/-- A value and the messages on it, of which `m` is the first. -/
theorem mergeval_ok (hpl : ∀ x ∈ m :: ms, Plain x) (hf : w.full = false) (hk : m.k = v.1)
    (hu : ∃ u, ((m :: ms).filter (·.k = v.1)).foldlM (serverEff gefsKvmax v.1) (some v.2) = some u)
    (h : exec (mergeval E v m ms w) s = (.ok (ms', w'), s')) :
    Still s s' ∧ ∃ run x, Ran v.1 (some v.2) run (m :: ms) ms' w w' x := by
  rw [List.forall_mem_cons] at hpl
  obtain ⟨u, hu⟩ := hu
  obtain ⟨v', s₁, h1, h2⟩ := exec_bind_eq_ok h
  obtain ⟨hcp, rfl⟩ := must_ok h1
  unfold gefsCpkvp at hcp
  split_ifs at hcp
  obtain rfl := Option.some.inj hcp
  obtain ⟨_, s₂, h3, h4⟩ := exec_bind_eq_ok h2
  obtain ⟨r, s₃, h5, h6⟩ := exec_bind_eq_ok h4
  rw [List.filter_cons_of_pos (by simpa using hk), List.foldlM_cons] at hu
  obtain ⟨y, hy, hu⟩ := Option.bind_eq_some_iff.1 hu
  obtain ⟨rfl, x, rfl, rfl⟩ := applyTo_ok hpl.1 hk hy h5
  obtain ⟨hst, hspc, run, z, hran⟩ := @copyloop_ok E s' w' ms' ms (v.1, x)
    { w with m := some m, pulled := w.pulled + 1 } s₃ hpl.2 hf ⟨u, hu⟩ h6
  refine ⟨(freeold_ok h3).trans hst, m :: run, z, ?_, ?_, ?_, hran.node, hran.roomy, ?_, ?_,
    hran.next, hran.fits⟩
  · rw [hran.split, List.cons_append]
  · rw [List.forall_mem_cons]
    exact ⟨hk, hran.on⟩
  · rw [List.foldlM_cons, hy]
    exact hran.val
  · rw [hran.pulled, List.length_cons, Nat.add_right_comm, Nat.add_assoc]
  · rw [show w'.spc = w.spc from hspc]
    omega

/-- The messages on a key that no value is on. -/
theorem insertval_ok (hpl : ∀ x ∈ m :: ms, Plain x) (hf : w.full = false)
    (hu : ∃ u, ((m :: ms).filter (·.k = m.k)).foldlM (serverEff gefsKvmax m.k) none = some u)
    (h : exec (insertval E m ms w) s = (.ok (ms', w'), s')) :
    Still s s' ∧ ∃ run x, Ran m.k none run (m :: ms) ms' w w' x := by
  rw [List.forall_mem_cons] at hpl
  obtain ⟨u, hu⟩ := hu
  rw [List.filter_cons_of_pos (by simp), List.foldlM_cons] at hu
  obtain ⟨y, hy, hu⟩ := Option.bind_eq_some_iff.1 hu
  obtain ⟨hop, rfl⟩ := hpl.1.eff_none hy
  obtain ⟨v', s₁, h1, h2⟩ := exec_bind_eq_ok h
  obtain ⟨hcp, rfl⟩ := must_ok h1
  unfold gefsCpkvp at hcp
  split_ifs at hcp
  obtain rfl := Option.some.inj hcp
  simp only [hop, reduceCtorEq, or_self, if_false] at h2
  obtain ⟨hst, hspc, run, z, hran⟩ := @copyloop_ok E s' w' ms' ms (m.k, m.v)
    { w with m := some m, pulled := w.pulled + 1, spc := w.spc - valsz (m.k, m.v)
             pullsz := w.pullsz + msgsz m } s₁ hpl.2 hf ⟨u, hu⟩ h2
  refine ⟨hst, m :: run, z, ?_, ?_, ?_, hran.node, hran.roomy, ?_, ?_, hran.next, hran.fits⟩
  · rw [hran.split, List.cons_append]
  · rw [List.forall_mem_cons]
    exact ⟨rfl, hran.on⟩
  · rw [List.foldlM_cons, hy]
    exact hran.val
  · rw [hran.pulled, List.length_cons, Nat.add_right_comm, Nat.add_assoc]
  · -- the value takes less room than the message
    rw [show w'.spc = w.spc - valsz (m.k, m.v) from hspc, valsz_mk, msgSum_cons, msgsz]
    omega

end Loops

/-! ## The whole leaf -/

def Node.addVals (b : Node) (vs : List GefsKvp) : Node := { b with vals := b.vals ++ vs }

@[simp] theorem addVals_nil (b : Node) : b.addVals [] = b := by
  simp [Node.addVals]

@[simp] theorem addVals_addVal (b : Node) (v : GefsKvp) (vs : List GefsKvp) :
    (b.addVal v).addVals vs = b.addVals (v :: vs) := by
  simp [Node.addVals, Node.addVal]

/-- Every key of the values and messages comes to something. -/
def GoesThrough (vs : List GefsKvp) (ms : List GefsMsg) : Prop :=
  ∀ k, ∃ u, opsVal (vs.map pairMsg ++ ms) k = some u

section Leaf

variable {E : Env} {vs : List GefsKvp} {ms ms' run : List GefsMsg} {v : GefsKvp} {k : Bytes}
  {o : Option Bytes} {w w' : Merging} {s s' : St} {x : Bytes}

/-- What is left behind a key goes through on its own. -/
theorem GoesThrough.tail (h : GoesThrough ((o.map (k, ·)).toList ++ vs) (run ++ ms'))
    (hon : ∀ m ∈ run, m.k = k) (hv : ∀ e ∈ vs, k < e.1) (hm : ∀ m ∈ ms', k < m.k) :
    GoesThrough vs ms' := by
  intro k'
  by_cases hk : k = k'
  · subst hk
    refine ⟨none, ?_⟩
    unfold opsVal Keyed.eval
    rw [List.filter_append, filter_pairMsg_nil fun e he => (hv e he).ne',
      Keyed.filter_eq_nil fun m hm' => (hm m hm').ne']
    rfl
  · obtain ⟨u, hu⟩ := h k'
    refine ⟨u, hu ▸ Keyed.eval_congr ?_⟩
    have h1 : ((o.map (k, ·)).toList.map pairMsg).filter (·.k = k') = [] := by
      refine filter_pairMsg_nil fun e he => ?_
      obtain ⟨b, -, rfl⟩ := Option.map_eq_some_iff.1 (Option.mem_toList.1 he)
      exact hk
    have h2 : run.filter (·.k = k') = [] := Keyed.filter_eq_nil fun m hm => (hon m hm).trans_ne hk
    rw [List.map_append, List.append_assoc, List.filter_append, List.filter_append, h1,
      List.nil_append, List.filter_append, List.filter_append, h2, List.nil_append]

/-- The messages on the key of the first value come to something from it. -/
theorem GoesThrough.at_val (h : GoesThrough (v :: vs) ms) (hv : ∀ e ∈ vs, v.1 < e.1) :
    ∃ u, (ms.filter (·.k = v.1)).foldlM (serverEff gefsKvmax v.1) (some v.2) = some u := by
  obtain ⟨u, hu⟩ := h v.1
  unfold opsVal Keyed.eval at hu
  rw [List.filter_append, List.map_cons, List.filter_cons_of_pos (by simp [pairMsg]),
    filter_pairMsg_nil fun e he => (hv e he).ne', List.singleton_append, List.foldlM_cons,
    serverEff_pair] at hu
  obtain ⟨y, hy, hu⟩ := Option.bind_eq_some_iff.1 hu
  split_ifs at hy
  exact ⟨u, Option.some.inj hy ▸ hu⟩

/-- Those on a key below all values do from nothing. -/
theorem GoesThrough.at_msg (h : GoesThrough vs ms) (hv : ∀ e ∈ vs, k < e.1) :
    ∃ u, (ms.filter (·.k = k)).foldlM (serverEff gefsKvmax k) none = some u := by
  obtain ⟨u, hu⟩ := h k
  unfold opsVal Keyed.eval at hu
  rw [List.filter_append, filter_pairMsg_nil fun e he => (hv e he).ne', List.nil_append] at hu
  exact ⟨u, hu⟩

/-- What a run leaves is above its key. -/
theorem Ran.above (h : Ran k o run ms ms' w w' x) (hs : Sorted GefsMsg.k ms)
    (hle : ∀ m ∈ ms, k ≤ m.k) (hf : w'.full = false) : ∀ m ∈ ms', k < m.k := by
  obtain ⟨-, hs', -⟩ := List.pairwise_append.1 (h.split ▸ hs)
  have hle' : ∀ m ∈ ms', k ≤ m.k := fun m hm => hle m (by rw [h.split]; simp [hm])
  rcases h.next with hfull | hhead
  · rw [hf] at hfull
    cases hfull
  rcases ms' with _ | ⟨y, ms'⟩
  · simp
  have hy : k < y.k := lt_of_le_of_ne (hle' y List.mem_cons_self) (hhead y rfl).2.symm
  rw [List.forall_mem_cons]
  exact ⟨hy, fun m hm => hy.trans_le (List.rel_of_pairwise_cons hs' hm)⟩

/-- What the merge has to go on with: both in order, and no message that removes anything. -/
structure Mergable (vs : List GefsKvp) (ms : List GefsMsg) : Prop where
  vals : Ascending vs
  msgs : Sorted GefsMsg.k ms
  plain : ∀ m ∈ ms, Plain m
  goes : GoesThrough vs ms

/-- What is left once a run was pulled. -/
theorem Mergable.ran (h : Mergable ((o.map (k, ·)).toList ++ vs) ms) (hv : ∀ e ∈ vs, k < e.1)
    (hr : Ran k o run ms ms' w w' x) (hm : ∀ m ∈ ms', k < m.k) : Mergable vs ms' where
  vals := h.vals.sublist (List.sublist_append_right _ _)
  msgs := (hr.split ▸ h.msgs).sublist (List.sublist_append_right _ _)
  plain m hm' := h.plain m (by rw [hr.split]; simp [hm'])
  goes := (hr.split ▸ h.goes).tail hr.on hv hm

/-- The value is passed by. -/
theorem Mergable.pass (h : Mergable (v :: vs) ms) (hm : ∀ m ∈ ms, v.1 < m.k) : Mergable vs ms where
  vals := (List.pairwise_cons.1 h.vals).2
  msgs := h.msgs
  plain := h.plain
  goes := @GoesThrough.tail _ _ [] v.1 (some v.2) h.goes (by simp)
    (List.pairwise_cons.1 h.vals).1 hm

theorem Absorbs.pass {out : List GefsKvp} (h : Absorbs vs ms out) (hv : ∀ e ∈ vs, v.1 < e.1)
    (hm : ∀ m ∈ ms, v.1 < m.k) : Absorbs (v :: vs) ms (v :: out) :=
  h.cons (o := some v.2) (show ∀ m ∈ ([] : List GefsMsg), m.k = v.1 by simp) rfl hv hm

theorem msgSum_mem {l : List GefsMsg} {m : GefsMsg} (h : m ∈ l) : msgsz m ≤ msgSum l :=
  length_le_sum h

/-- Where all messages fit, all are pulled. -/
theorem updateleafLoop_ok : ∀ {fuel : ℕ} {vs : List GefsKvp} {ms : List GefsMsg} {w : Merging}
    {s : St}, Mergable vs ms → w.full = false → (msgSum ms : ℤ) ≤ w.spc →
    (∀ m ∈ ms.head?, w.m = none ∨ w.m = some m ∨ vs ≠ []) →
    exec (updateleafLoop E fuel vs ms w) s = (.ok w', s') →
    Still s s' ∧ ∃ out, Absorbs vs ms out ∧ w'.n = w.n.addVals out
      ∧ (w.n.Roomy → w'.n.Roomy) ∧ w'.pulled = w.pulled + ms.length := by
  intro fuel
  induction fuel with
  | zero =>
    intro vs ms w s hm _ _ _ h
    rcases vs with _ | ⟨v, vs⟩ <;> rcases ms with _ | ⟨m, ms⟩ <;> unfold updateleafLoop at h
    · obtain ⟨rfl, rfl⟩ := (Prod.mk.inj h).imp_left Except.ok.inj
      exact ⟨.refl _, [], absorbs_nil, by simp, id, rfl⟩
    all_goals cases h
  | succ fuel ih =>
    intro vs ms w s hm hf hspc hnext h
    -- a run on a key below all values left
    have hrun : ∀ {k : Bytes} {o : Option Bytes} {run ms' : List GefsMsg} {vs : List GefsKvp}
        {w₁ : Merging} {x : Bytes} {s₁ : St}, Still s s₁ →
        Mergable ((o.map (k, ·)).toList ++ vs) ms → (∀ m ∈ ms, k ≤ m.k) → (∀ e ∈ vs, k < e.1) →
        Ran k o run ms ms' w w₁ x → exec (updateleafLoop E fuel vs ms' w₁) s₁ = (.ok w', s') →
        Still s s' ∧ ∃ out, Absorbs ((o.map (k, ·)).toList ++ vs) ms out ∧ w'.n = w.n.addVals out
          ∧ (w.n.Roomy → w'.n.Roomy) ∧ w'.pulled = w.pulled + ms.length := by
      intro k o run ms' vs w₁ x s₁ hst hm hle hv hr h
      have hsum : msgSum ms = msgSum run + msgSum ms' := by rw [hr.split, msgSum_append]
      have hspc' := hr.spc
      have hf₁ : w₁.full = false := hr.fits fun m hm => by
        have := msgSum_mem hm
        omega
      have habove := hr.above hm.msgs hle hf₁
      have hnext' : ∀ m ∈ ms'.head?, w₁.m = none ∨ w₁.m = some m ∨ vs ≠ [] := by
        intro m hm'
        rcases hr.next with hfull | hhead
        · rw [hf₁] at hfull
          cases hfull
        · exact .inr (.inl (hhead m hm').1)
      obtain ⟨hst', out, ha, hn, hroom, hp⟩ := ih (hm.ran hv hr habove) hf₁ (by omega) hnext' h
      refine ⟨hst.trans hst', (k, x) :: out, ?_, ?_, fun hw => hroom (hr.roomy hw), ?_⟩
      · rw [hr.split]
        exact ha.cons hr.on hr.val hv habove
      · rw [hn, hr.node, addVals_addVal]
      · rw [hp, hr.pulled, hr.split, List.length_append, Nat.add_assoc]
    -- the value `v` is copied
    have hcopy : ∀ {v : GefsKvp} {vs : List GefsKvp} {w₁ : Merging}, Mergable (v :: vs) ms →
        (∀ m ∈ ms, v.1 < m.k) → w₁.n = w.n → w₁.full = false → w₁.spc = w.spc →
        w₁.pulled = w.pulled → (∀ m ∈ ms.head?, w₁.m = some m) →
        exec (do
          let n ← setval w₁.n v
          updateleafLoop E fuel vs ms { w₁ with n := n }) s = (.ok w', s') →
        Still s s' ∧ ∃ out, Absorbs (v :: vs) ms out ∧ w'.n = w.n.addVals out
          ∧ (w.n.Roomy → w'.n.Roomy) ∧ w'.pulled = w.pulled + ms.length := by
      intro v vs w₁ hm hlt hn hf₁ hspc₁ hp₁ hnext₁ h
      obtain ⟨n, s₁, hset, h1⟩ := exec_bind_eq_ok h
      obtain ⟨rfl, rfl, hr⟩ := setval_ok hset
      obtain ⟨hst, out, ha, hn', hroom, hp⟩ := ih (w := { w₁ with n := w₁.n.addVal v })
        (hm.pass hlt) hf₁ (by rw [show _ = w₁.spc from rfl, hspc₁]; exact hspc)
        (fun m hm => .inr (.inl (hnext₁ m hm))) h1
      refine ⟨hst, v :: out, ha.pass (List.pairwise_cons.1 hm.vals).1 hlt, ?_,
        fun hw => hroom (hr (hn ▸ hw)), hp.trans (by rw [hp₁])⟩
      rw [hn', addVals_addVal, hn]
    rcases vs with _ | ⟨v, vs⟩ <;> rcases ms with _ | ⟨m, ms⟩
    · unfold updateleafLoop at h
      obtain ⟨rfl, rfl⟩ := (Prod.mk.inj h).imp_left Except.ok.inj
      exact ⟨.refl _, [], absorbs_nil, by simp, id, rfl⟩
    · unfold updateleafLoop at h
      obtain ⟨m', s₁, h1, h2⟩ := exec_bind_eq_ok h
      obtain ⟨hwm, rfl⟩ := must_ok h1
      obtain rfl : m' = m := by
        rcases hnext m rfl with h0 | h0 | h0
        · rw [h0] at hwm
          cases hwm
        · exact Option.some.inj (hwm.symm.trans h0)
        · exact absurd rfl h0
      obtain ⟨r, s₂, h3, h4⟩ := exec_bind_eq_ok h2
      obtain ⟨hst, run, x, hran⟩ := insertval_ok hm.plain hf (hm.goes.at_msg (by simp)) h3
      exact @hrun _ none _ _ [] _ _ _ hst hm (fun y hy => by
        rcases List.mem_cons.1 hy with rfl | hy
        · exact le_rfl
        · exact List.rel_of_pairwise_cons hm.msgs hy) (by simp) hran h4
    · unfold updateleafLoop at h
      exact @hcopy _ _ w hm (by simp) rfl hf rfl rfl (by simp) h
    · have hsum : msgSum (m :: ms) = msgsz m + msgSum ms := msgSum_cons m ms
      have hfit : (msgsz m : ℤ) ≤ w.spc := by omega
      have hv := (List.pairwise_cons.1 hm.vals).1
      have hle : ∀ {k : Bytes}, k ≤ m.k → ∀ y ∈ m :: ms, k ≤ y.k := by
        intro k hk y hy
        rcases List.mem_cons.1 hy with rfl | hy
        · exact hk
        · exact hk.trans (List.rel_of_pairwise_cons hm.msgs hy)
      unfold updateleafLoop at h
      simp only [hfit, decide_true, if_true, Bool.not_true, Bool.or_false, gefsKeycmp_eq] at h
      rcases lt_trichotomy v.1 m.k with hlt | heq | hlt
      · rw [if_pos hlt] at h
        simp only [if_true] at h
        exact @hcopy _ _ { w with m := some m } hm
          (fun y hy => hlt.trans_le (hle le_rfl y hy)) rfl hf rfl rfl
          (fun y hy => by rw [Option.some.inj hy]) h
      · rw [if_neg heq.not_lt, if_pos heq] at h
        simp only [show ¬ (0 : ℤ) = -1 by decide, if_false, if_true] at h
        obtain ⟨r, s₂, h3, h4⟩ := exec_bind_eq_ok h
        obtain ⟨hst, run, x, hran⟩ := mergeval_ok (w := { w with m := some m }) hm.plain hf heq.symm
          (hm.goes.at_val hv) h3
        exact @hrun v.1 (some v.2) _ _ vs _ _ _ hst hm (hle heq.le) hv
          ⟨hran.split, hran.on, hran.val, hran.node, hran.roomy, hran.pulled, hran.spc, hran.next,
            hran.fits⟩ h4
      · rw [if_neg hlt.not_gt, if_neg hlt.ne'] at h
        simp only [show ¬ (1 : ℤ) = -1 by decide, show ¬ (1 : ℤ) = 0 by decide, if_false] at h
        obtain ⟨r, s₂, h3, h4⟩ := exec_bind_eq_ok h
        have hvs : ∀ e ∈ v :: vs, m.k < e.1 := by
          rw [List.forall_mem_cons]
          exact ⟨hlt, fun e he => hlt.trans (hv e he)⟩
        obtain ⟨hst, run, x, hran⟩ := insertval_ok (w := { w with m := some m }) hm.plain hf
          (hm.goes.at_msg hvs) h3
        exact @hrun _ none _ _ (v :: vs) _ _ _ hst hm (hle le_rfl) hvs
          ⟨hran.split, hran.on, hran.val, hran.node, hran.roomy, hran.pulled, hran.spc, hran.next,
            hran.fits⟩ h4

end Leaf

/-! ## A leaf split in two -/

/-- How the loop of `splitleaf` goes on: `P` is pulled, and what is made of it goes to the right
block, or if that is not begun, first to the left one. Both have something then. -/
def Halved (vs : List GefsKvp) (ms : List GefsMsg) (l l' : Option Node) (r : Node)
    (w w' : Merging) : Prop :=
  ∃ P rest out, ms = P ++ rest ∧ Absorbs vs P out ∧ w'.pulled = w.pulled + P.length
    ∧ (w.full = true → P = [])
    ∧ (l ≠ none → l' = l ∧ w'.n = w.n.addVals out ∧ (w.n.Roomy → w'.n.Roomy))
    ∧ (l = none → ∃ outl outr, out = outl ++ outr ∧ l' = some (w.n.addVals outl)
      ∧ w'.n = r.addVals outr ∧ w.n.vals ++ outl ≠ [] ∧ outr ≠ []
      ∧ (w.n.Roomy → (w.n.addVals outl).Roomy) ∧ (r.Roomy → w'.n.Roomy))

section Split

variable {E : Env} {vs vs₀ : List GefsKvp} {ms ms' run : List GefsMsg} {v e : GefsKvp} {k x : Bytes}
  {o : Option Bytes} {l l' : Option Node} {r : Node} {w w₁ w' : Merging} {s s' : St}

/-- The pair `e` put to the block that is filled. -/
theorem Halved.put (h : Halved vs ms' l l' r w₁ w') (hms : ms = run ++ ms')
    (hadd : ∀ P rest out, ms' = P ++ rest → (w₁.full = true → P = []) → Absorbs vs P out →
      Absorbs vs₀ (run ++ P) (e :: out))
    (hn : w₁.n = w.n.addVal e) (hr : w.n.Roomy → w₁.n.Roomy)
    (hp : w₁.pulled = w.pulled + run.length) (hf : w.full = true → w₁.full = true ∧ run = []) :
    Halved vs₀ ms l l' r w w' := by
  obtain ⟨P, rest, out, hsplit, ha, hpull, hfull, hsome, hnone⟩ := h
  refine ⟨run ++ P, rest, e :: out, by rw [hms, hsplit, List.append_assoc],
    hadd P rest out hsplit hfull ha, by rw [hpull, hp, List.length_append, Nat.add_assoc],
    fun hw => ?_, fun hl => ?_, fun hl => ?_⟩
  · rw [(hf hw).2, hfull (hf hw).1, List.nil_append]
  · obtain ⟨h1, h2, h3⟩ := hsome hl
    exact ⟨h1, by rw [h2, hn, addVals_addVal], fun hw => h3 (hr hw)⟩
  · obtain ⟨outl, outr, rfl, h1, h2, -, h4, h5, h6⟩ := hnone hl
    refine ⟨e :: outl, outr, rfl, by rw [h1, hn, addVals_addVal], h2, by simp, h4, fun hw => ?_, h6⟩
    rw [← addVals_addVal, ← hn]
    exact h5 (hr hw)

theorem absorbs_of_ne_nil {P : List GefsMsg} {out : List GefsKvp} (h : Absorbs vs P out)
    (hv : vs ≠ []) : out ≠ [] := by
  obtain ⟨v, hv⟩ := List.exists_mem_of_ne_nil _ hv
  obtain ⟨e, he, -⟩ := (h.keys v.1).2 (.inl ⟨v, hv, rfl⟩)
  exact List.ne_nil_of_mem he

/-- The messages pulled are a first part of those offered; the rest stays above. -/
theorem splitleafLoop_ok {nval halfsz : ℕ} (h4 : 4 ≤ nval) : ∀ {fuel i : ℕ} {vs : List GefsKvp}
    {ms : List GefsMsg} {l : Option Node} {r : Node} {copied : ℕ} {w : Merging} {s : St},
    Ascending vs → (w.full = false → Mergable vs ms) → i + vs.length = nval →
    (l = none → i ≤ w.n.nval ∧ 2 ≤ vs.length) →
    exec (splitleafLoop E nval halfsz fuel i vs ms l r copied w) s = (.ok (l', w'), s') →
    Still s s' ∧ Halved vs ms l l' r w w' := by
  intro fuel
  induction fuel with
  | zero =>
    intro i vs ms l r copied w s hs _ _ hl h
    rcases vs with _ | ⟨v, vs⟩ <;> unfold splitleafLoop at h
    · obtain ⟨heq, rfl⟩ := (Prod.mk.inj h).imp_left Except.ok.inj
      obtain ⟨rfl, rfl⟩ := Prod.mk.inj heq
      refine ⟨.refl _, [], ms, [], rfl, absorbs_nil, rfl, fun _ => rfl,
        fun _ => ⟨rfl, by simp, id⟩, fun h => ?_⟩
      exact absurd (hl h).2 (by simp)
    · cases h
  | succ fuel ih =>
    intro i vs ms l r copied w s hs hm hi hl h
    rcases vs with _ | ⟨v, vs⟩
    · unfold splitleafLoop at h
      obtain ⟨heq, rfl⟩ := (Prod.mk.inj h).imp_left Except.ok.inj
      obtain ⟨rfl, rfl⟩ := Prod.mk.inj heq
      refine ⟨.refl _, [], ms, [], rfl, absorbs_nil, rfl, fun _ => rfl,
        fun _ => ⟨rfl, by simp, id⟩, fun h => ?_⟩
      exact absurd (hl h).2 (by simp)
    obtain ⟨hv, hs'⟩ := List.pairwise_cons.1 hs
    have hle : ∀ {k : Bytes}, Sorted GefsMsg.k ms → (∀ m ∈ ms.head?, k ≤ m.k) → ∀ y ∈ ms, k ≤ y.k := by
      intro k hsort hk y hy
      rcases ms with _ | ⟨m, ms⟩
      · cases hy
      rcases List.mem_cons.1 hy with rfl | hy
      · exact hk y rfl
      · exact (hk m rfl).trans (List.rel_of_pairwise_cons hsort hy)
    -- one turn with the blocks as they are behind the check
    have hturn : ∀ {l₁ : Option Node} {w₁ : Merging} {p : Op (Option Node × Merging)},
        w₁.full = w.full → (l₁ = none → i ≤ w₁.n.nval ∧ 3 ≤ (v :: vs).length) →
        (∀ m ms' full, pullmsg (some v.1) w₁.full w₁.spc ms = (0, full) → ms = m :: ms' → p = do
          let q ← mergeval E v m ms' w₁
          splitleafLoop E nval halfsz fuel (i + 1) vs q.1 l₁ r (copied + valsz v) q.2) →
        (∀ m ms' full, pullmsg (some v.1) w₁.full w₁.spc ms = (1, full) → ms = m :: ms' → p = do
          let q ← insertval E m ms' w₁
          splitleafLoop E nval halfsz fuel i (v :: vs) q.1 l₁ r (copied + valsz (m.k, m.v)) q.2) →
        (∀ full, pullmsg (some v.1) w₁.full w₁.spc ms = (-1, full) → p = do
          let n ← setval w₁.n v
          splitleafLoop E nval halfsz fuel (i + 1) vs ms l₁ r (copied + valsz v)
            { w₁ with full := full, n := n }) →
        exec p s = (.ok (l', w'), s') →
        Still s s' ∧ Halved (v :: vs) ms l₁ l' r w₁ w' := by
      intro l₁ w₁ p hfw hl₁ hmerge hinsert hcopy hrun
      rcases pullmsg_cases v.1 w₁.full w₁.spc ms with ⟨m, ms, rfl, hk, hf, hp⟩
        | ⟨m, ms, rfl, hlt, hf, hp⟩ | ⟨full', hp, hkeep, hstop, -⟩
      · rw [hmerge _ _ _ hp rfl] at hrun
        have hm := hm (hfw ▸ hf)
        obtain ⟨q, s₂, h3, h5⟩ := exec_bind_eq_ok hrun
        obtain ⟨hst, run, x, hran⟩ := mergeval_ok hm.plain hf hk (hm.goes.at_val hv) h3
        have habove := hran.above hm.msgs (hle hm.msgs (by simp [hk]))
        obtain ⟨hst', hh⟩ := ih hs' (fun hf' => hm.ran (o := some v.2) hv hran (habove hf'))
          (by rw [List.length_cons] at hi; omega) (fun h0 => by
            have h0 := hl₁ h0
            rw [hran.node, List.length_cons] at *
            simp only [Node.nval, Node.addVal, List.length_append, List.length_singleton] at *
            omega) h5
        refine ⟨hst.trans hst', hh.put hran.split (fun P rest out hsp hfull ha => ?_) hran.node
          hran.roomy hran.pulled fun hw => ?_⟩
        · refine ha.cons (o := some v.2) hran.on hran.val hv fun y hy => ?_
          rcases hq : q.2.full with _ | _
          · exact habove hq y (by rw [hsp]; simp [hy])
          · rw [hfull hq] at hy
            cases hy
        · rw [hf] at hw
          cases hw
      · rw [hinsert _ _ _ hp rfl] at hrun
        have hm := hm (hfw ▸ hf)
        obtain ⟨q, s₂, h3, h5⟩ := exec_bind_eq_ok hrun
        have hvs : ∀ e ∈ v :: vs, m.k < e.1 := by
          rw [List.forall_mem_cons]
          exact ⟨hlt, fun e he => hlt.trans (hv e he)⟩
        obtain ⟨hst, run, x, hran⟩ := insertval_ok hm.plain hf (hm.goes.at_msg hvs) h3
        have habove := hran.above hm.msgs (hle hm.msgs (by simp))
        obtain ⟨hst', hh⟩ := ih hs (fun hf' => hm.ran (o := none) hvs hran (habove hf')) hi
          (fun h0 => by
            have h0 := hl₁ h0
            rw [hran.node]
            simp only [Node.nval, Node.addVal, List.length_append, List.length_singleton] at *
            omega) h5
        refine ⟨hst.trans hst', hh.put hran.split (fun P rest out hsp hfull ha => ?_) hran.node
          hran.roomy hran.pulled fun hw => ?_⟩
        · refine ha.cons (o := none) hran.on hran.val hvs fun y hy => ?_
          rcases hq : q.2.full with _ | _
          · exact habove hq y (by rw [hsp]; simp [hy])
          · rw [hfull hq] at hy
            cases hy
        · rw [hf] at hw
          cases hw
      · rw [hcopy _ hp] at hrun
        obtain ⟨n, s₂, h3, h5⟩ := exec_bind_eq_ok hrun
        obtain ⟨rfl, rfl, hroom⟩ := setval_ok h3
        have habove : full' = false → Mergable (v :: vs) ms ∧ ∀ m ∈ ms, v.1 < m.k := by
          intro hf'
          have hf : w₁.full = false := by
            by_contra hc
            rw [hkeep (by simpa using hc)] at hf'
            cases hf'
          have hm := hm (hfw ▸ hf)
          refine ⟨hm, ?_⟩
          rcases hstop with h0 | h0
          · rw [hf'] at h0
            cases h0
          rcases ms with _ | ⟨y, ms⟩
          · simp
          rw [List.forall_mem_cons]
          exact ⟨h0 y rfl, fun z hz => (h0 y rfl).trans_le (List.rel_of_pairwise_cons hm.msgs hz)⟩
        obtain ⟨hst', hh⟩ := ih (w := { w₁ with full := full', n := w₁.n.addVal v }) hs'
          (fun hf' => (habove hf').1.pass (habove hf').2) (by rw [List.length_cons] at hi; omega)
          (fun h0 => by
            have h0 := hl₁ h0
            simp only [Node.nval, Node.addVal, List.length_append, List.length_cons] at *
            omega) h5
        refine ⟨hst', hh.put (List.nil_append ms).symm (fun P rest out hsp hfull ha => ?_) rfl hroom rfl
          fun hw => ⟨hkeep hw, rfl⟩⟩
        refine ha.pass hv fun y hy => ?_
        rcases hq : full' with _ | _
        · exact (habove hq).2 y (by rw [hsp]; simp [hy])
        · rw [hfull hq] at hy
          cases hy
    unfold splitleafLoop at h
    dsimp only at h
    generalize hl₁ : (if l = none ∧ (i + 2 = nval ∨ (2 ≤ i ∧ halfsz ≤ copied)) then some w.n else l)
      = l₁ at h
    generalize hw₁ : (if l = none ∧ (i + 2 = nval ∨ (2 ≤ i ∧ halfsz ≤ copied)) then
      ({ w with n := r, spc := gefsLeafspc - (halfsz + msgmax : ℕ) } : Merging) else w) = w₁ at h
    by_cases ht : l = none ∧ (i + 2 = nval ∨ (2 ≤ i ∧ halfsz ≤ copied))
    · rw [if_pos ht] at hl₁ hw₁
      subst hl₁
      obtain ⟨hst, P, rest, out, hsp, ha, hp, hfull, hsome, -⟩ :=
        @hturn (some w.n) w₁ _ (by rw [← hw₁]) (by simp)
          (fun m ms' full hp hms => by subst hms; rw [hp]; rfl)
          (fun m ms' full hp hms => by subst hms; rw [hp]; rfl)
          (fun full hp => by rw [hp]; rcases ms with _ | ⟨m, ms⟩ <;> rfl) h
      obtain ⟨hl', hn, hroom⟩ := hsome (by simp)
      rw [← hw₁] at hp hfull hn hroom
      refine ⟨hst, P, rest, out, hsp, ha, hp, hfull, fun hne => absurd ht.1 hne, fun _ => ?_⟩
      refine ⟨[], out, rfl, by rw [hl', addVals_nil], hn, ?_, absorbs_of_ne_nil ha (by simp),
        fun hw => by rwa [addVals_nil], hroom⟩
      have hlen := (hl ht.1).1
      rw [List.append_nil, ← List.length_pos_iff]
      simp only [Node.nval] at hlen
      omega
    · rw [if_neg ht] at hl₁ hw₁
      subst hl₁ hw₁
      refine @hturn l w _ rfl (fun h0 => ⟨(hl h0).1, ?_⟩)
        (fun m ms' full hp hms => by subst hms; rw [hp]; rfl)
        (fun m ms' full hp hms => by subst hms; rw [hp]; rfl)
        (fun full hp => by rw [hp]; rcases ms with _ | ⟨m, ms⟩ <;> rfl) h
      have h2 := (hl h0).2
      by_contra hlt
      exact ht ⟨h0, .inl (by omega)⟩

end Split

end GefsFuse.Server.Btree
