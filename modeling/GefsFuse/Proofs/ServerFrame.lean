import GefsFuse.Proofs.ServerFill
import GefsFuse.Proofs.ServerForest

/-!
# The blocks an upsert writes

What the operations on blocks give where they end well. A block that is written stays as it is, and
a new one goes to an address that nothing is at (`Grows`). The tree of the nodes (`NodeIn`) is that
of the blocks a lookup reads (`exists_treeIn`), up to what lies behind the messages.
-/

namespace GefsFuse.Server.Btree

open Effects SortedMap

/-! ## Frames -/

/-- What is written is in use. -/
def Backed (s : St) : Prop := ∀ a b, s.blks a = some b → s.live a = true

/-- In use, and not written yet. -/
def Blank (s : St) (a : Int64) : Prop := s.live a = true ∧ s.blks a = none

/-- Nothing that was written is changed. -/
structure Grows (s s' : St) : Prop where
  blks : ∀ a b, s.blks a = some b → s'.blks a = some b
  live : ∀ a, s.live a = true → s'.live a = true
  tree : s'.tree = s.tree
  backed : Backed s → Backed s'

/-- Nothing is written. -/
structure Still (s s' : St) : Prop where
  blks : s'.blks = s.blks
  live : s'.live = s.live
  tree : s'.tree = s.tree

section Frames

variable {s s₁ s' : St} {a : Int64}

theorem Grows.refl (s : St) : Grows s s := ⟨fun _ _ h => h, fun _ h => h, rfl, id⟩

theorem Grows.trans (h : Grows s s₁) (h' : Grows s₁ s') : Grows s s' :=
  ⟨fun a b hb => h'.blks a b (h.blks a b hb), fun a ha => h'.live a (h.live a ha),
    h'.tree.trans h.tree, fun hb => h'.backed (h.backed hb)⟩

theorem Still.refl (s : St) : Still s s := ⟨rfl, rfl, rfl⟩

theorem Still.trans (h : Still s s₁) (h' : Still s₁ s') : Still s s' :=
  ⟨h'.blks.trans h.blks, h'.live.trans h.live, h'.tree.trans h.tree⟩

theorem Still.grows (h : Still s s') : Grows s s' :=
  ⟨fun a b hb => by rwa [h.blks], fun a ha => by rwa [h.live], h.tree,
    fun hb a b hs => by rw [h.live]; exact hb a b (h.blks ▸ hs)⟩

theorem Still.blank (h : Still s s') (ha : Blank s a) : Blank s' a :=
  ⟨h.live ▸ ha.1, h.blks ▸ ha.2⟩

end Frames

/-! ## The operations where they end well -/

/-- The values and messages have room. -/
def Node.Roomy (b : Node) : Prop := b.used ≤ b.spc ∧ msgSum b.msgs ≤ gefsBufspc

section Ops

variable {E : Env} {s s' : St} {b n : Node} {α : Type}

theorem must_ok {o : Option α} {a : α} (h : exec (must o) s = (.ok a, s')) : o = some a ∧ s' = s := by
  cases o with
  | none => cases h
  | some x =>
    cases h
    exact ⟨rfl, rfl⟩

theorem onError_ok {x : Op α} {g : Op Unit} {a : α} (h : exec (onError x g) s = (.ok a, s')) :
    exec x s = (.ok a, s') := by
  unfold onError at h
  rw [exec_tryCatch] at h
  rcases hx : exec x s with ⟨e | a', s₁⟩ <;> rw [hx] at h
  · simp only at h
    by_cases hr : e = .raised
    · rw [if_pos hr] at h
      obtain ⟨_, _, -, h⟩ := exec_bind_eq_ok h
      cases h
    · rw [if_neg hr] at h
      cases h
  · exact h

theorem ask_ok {a : Int64} (h : exec (ask E) s = (.ok a, s')) :
    s' = { s with calls := s.calls + 1 } := by
  rcases ha : E.ans s.calls with _ | x
  · rw [exec_ask_none ha] at h
    cases h
  · rw [exec_ask_some ha] at h
    exact (Prod.mk.inj h).2.symm

theorem still_ask {a : Int64} (h : exec (ask E) s = (.ok a, s')) : Still s s' := by
  rw [ask_ok h]
  exact ⟨rfl, rfl, rfl⟩

theorem freebp_ok {bp : GefsBptr} (h : exec (freebp E bp) s = (.ok (), s')) : Still s s' := by
  by_cases hk : Killed s.tree bp
  · rcases ha : E.ans s.calls with _ | a
    · rw [exec_freebp_none hk ha] at h
      cases h
    · rw [exec_freebp_some hk ha] at h
      rw [← (Prod.mk.inj h).2]
      exact ⟨rfl, rfl, rfl⟩
  · rw [exec_freebp hk] at h
    rw [← (Prod.mk.inj h).2]
    exact ⟨rfl, rfl, rfl⟩

theorem getblk_ok {bp : GefsBptr} (h : exec (getblk E bp) s = (.ok b, s')) :
    Still s s' ∧ ∃ b₀, s.blks bp.addr = some b₀ ∧ b = { b₀ with bp := bp } := by
  obtain ⟨_, s₁, ha, h1⟩ := exec_bind_eq_ok h
  rw [exec_bind_ok exec_get] at h1
  obtain ⟨b₀, s₂, hb, h2⟩ := exec_bind_eq_ok h1
  obtain ⟨hb, rfl⟩ := must_ok hb
  rw [exec_pure, Prod.mk.injEq, Except.ok.injEq] at h2
  obtain ⟨rfl, rfl⟩ := h2
  have hs := still_ask ha
  exact ⟨hs, b₀, hs.blks ▸ hb, rfl⟩

/-- A block is allocated where nothing was. -/
theorem exists_of_newblk {p : Bool} (h : exec (newblk E p) s = (.ok n, s')) :
    ∃ a, E.ans s.calls = some a ∧ s.live a = false := by
  rcases ha : E.ans s.calls with _ | a
  · rw [exec_newblk_none ha] at h
    cases h
  rcases hl : s.live a with _ | _
  · exact ⟨a, rfl, hl⟩
  · unfold newblk at h
    rw [exec_bind_ok (exec_ask_some ha)] at h
    simp [hl, exec_bind] at h

/-- And nothing is written there. -/
theorem Backed.blks_eq_none {a : Int64} (hs : Backed s) (hl : s.live a = false) : s.blks a = none := by
  rcases hb : s.blks a with _ | c
  · rfl
  · rw [hs a c hb] at hl
    cases hl

theorem newblk_ok {p : Bool} (hs : Backed s) (h : exec (newblk E p) s = (.ok n, s')) :
    n = ⟨n.bp, p, [], []⟩ ∧ Grows s s' ∧ Blank s' n.bp.addr
      ∧ ∀ a, Blank s a → Blank s' a ∧ a ≠ n.bp.addr := by
  obtain ⟨a, ha, hl⟩ := exists_of_newblk h
  rw [exec_newblk ha hl] at h
  obtain ⟨rfl, rfl⟩ := (Prod.mk.inj h).imp_left Except.ok.inj
  refine ⟨rfl, ⟨fun _ _ hb => hb, fun x hx => by simp [hx], rfl, fun _ x c hc => ?_⟩,
    ⟨by simp, hs.blks_eq_none hl⟩, fun x hx => ⟨⟨by simp [hx.1], hx.2⟩, ?_⟩⟩
  · simp [hs x c hc]
  · rintro rfl
    exact Bool.false_ne_true (hl.symm.trans hx.1)

theorem setval_ok {kv : GefsKvp} (h : exec (setval b kv) s = (.ok n, s')) :
    s' = s ∧ n = b.addVal kv ∧ (b.Roomy → n.Roomy) := by
  unfold setval at h
  simp only at h
  split_ifs at h with hle
  · obtain ⟨rfl, rfl⟩ := (Prod.mk.inj h).imp_left Except.ok.inj
    refine ⟨rfl, rfl, fun hr => ⟨?_, hr.2⟩⟩
    have := used_eq b
    rw [show ({ b with vals := b.vals ++ [kv] } : Node).used = (b.addVal kv).used from rfl,
      addVal_used, valsz]
    show _ ≤ b.spc
    omega
  · cases h

theorem setmsg_ok {m : GefsMsg} (h : exec (setmsg b m) s = (.ok n, s')) :
    s' = s ∧ b.pivot = true ∧ n = b.addMsg m ∧ (b.Roomy → n.Roomy) := by
  have hp : b.pivot = true := by
    by_contra hp
    unfold setmsg at h
    rw [if_pos hp] at h
    obtain ⟨_, _, h, -⟩ := exec_bind_eq_ok h
    cases h
  unfold setmsg at h
  rw [if_neg (not_not.2 hp)] at h
  split_ifs at h with hle
  · obtain ⟨rfl, rfl⟩ := (Prod.mk.inj h).imp_left Except.ok.inj
    refine ⟨rfl, hp, rfl, fun hr => ⟨hr.1, ?_⟩⟩
    have := buffill_eq b
    unfold buffill at this
    rw [show ({ b with msgs := b.msgs ++ [m] } : Node).msgs = (b.addMsg m).msgs from rfl,
      addMsg_msgSum]
    have hz : msgsz m = 2 + 1 + 2 + m.k.length + 2 + m.v.length := rfl
    omega
  · cases h

/-- A block that is not empty is written where it is. -/
theorem setb_ok {o : Option Node} (hv : b.vals ≠ []) (hb : Blank s b.bp.addr)
    (h : exec (setb E b) s = (.ok o, s')) :
    ∃ c, o = some c ∧ c.bp.addr = b.bp.addr ∧ c.pivot = b.pivot ∧ c.vals = b.vals
      ∧ c.msgs = b.msgs ∧ s'.blks c.bp.addr = some c ∧ Grows s s'
      ∧ ∀ a, a ≠ b.bp.addr → Blank s a → Blank s' a := by
  have hnv : b.nval ≠ 0 := fun h0 => hv (List.length_eq_zero_iff.1 h0)
  unfold setb at h
  rw [if_neg hnv, exec_map] at h
  have hx : exec (enqueue E b) s = (.ok { b with bp := { b.bp with hash := E.hash b } },
      { s with
        blks := fun a => if a = b.bp.addr then some { b with bp := { b.bp with hash := E.hash b } }
          else s.blks a }) := rfl
  rw [hx] at h
  obtain ⟨rfl, rfl⟩ := (Prod.mk.inj h).imp_left Except.ok.inj
  refine ⟨_, rfl, rfl, rfl, rfl, rfl, if_pos rfl, ⟨fun a c hc => ?_, fun _ ha => ha, rfl,
    fun hs a c hc => ?_⟩, fun a ha hbl => ⟨hbl.1, (if_neg ha).trans hbl.2⟩⟩
  · refine (if_neg ?_).trans hc
    rintro rfl
    rw [hb.2] at hc
    cases hc
  · by_cases ha : a = b.bp.addr
    · exact ha ▸ hb.1
    · exact hs a c ((if_neg ha).symm.trans hc)

end Ops

/-! ## The tree of the nodes -/

/-- The nodes under `bp` are those of the tree. -/
def NodeIn (blks : Int64 → Option Node) : (n : ℕ) → Beps n → GefsBptr → Prop
  | 0, es, bp => ∃ b, blks bp.addr = some b ∧ b.Fits ∧ b.pivot = false ∧ b.vals = es
  | n + 1, (cs, ms), bp =>
    (∃ b, blks bp.addr = some b ∧ b.Fits ∧ b.pivot = true ∧ b.vals = cs.map (·.1) ∧ b.msgs = ms)
      ∧ ∀ c ∈ cs, ∃ bp', valBptr c.1.2 = some bp' ∧ NodeIn blks n c.2 bp'

/-- The same up to what lies behind the messages. -/
def SameBare : (n : ℕ) → Beps n → Beps n → Prop
  | 0, es, es' => es = es'
  | n + 1, (cs, ms), (cs', ms') => List.Forall₂ (fun c c' => c.1 = c'.1 ∧ SameBare n c.2 c'.2) cs cs'
      ∧ ms.map bare = ms'.map bare

section Nodes

variable {blks blks' : Int64 → Option Node}

theorem NodeIn.mono (hb : ∀ a b, blks a = some b → blks' a = some b) : ∀ {n : ℕ} {T : Beps n}
    {bp : GefsBptr}, NodeIn blks n T bp → NodeIn blks' n T bp
  | 0, _, _, ⟨b, h, h'⟩ => ⟨b, hb _ _ h, h'⟩
  | _ + 1, (_, _), _, ⟨⟨b, h, h'⟩, hc⟩ => ⟨⟨b, hb _ _ h, h'⟩, fun c hc' => by
    obtain ⟨bp', hv, hin⟩ := hc c hc'
    exact ⟨bp', hv, hin.mono hb⟩⟩

theorem childOf_same {n : ℕ} {k : Bytes} {cs cs' : List (GefsKvp × Beps n)}
    (h : List.Forall₂ (fun c c' => c.1 = c'.1 ∧ SameBare n c.2 c'.2) cs cs') :
    (childOf cs k = none ∧ childOf cs' k = none)
      ∨ ∃ c c', childOf cs k = some c ∧ childOf cs' k = some c' ∧ SameBare n c.2 c'.2 := by
  induction h with
  | nil => exact .inl ⟨rfl, rfl⟩
  | @cons c c' cs cs' hc _ ih =>
    rw [childOf, childOf, ← hc.1]
    split_ifs
    · rcases ih with ⟨h1, h2⟩ | ⟨d, d', h1, h2, hd⟩
      · rw [h1, h2]
        exact .inr ⟨c, c', rfl, rfl, hc.2⟩
      · rw [h1, h2]
        exact .inr ⟨d, d', rfl, rfl, hd⟩
    · exact .inl ⟨rfl, rfl⟩

theorem leafVal_same : ∀ {n : ℕ} {T T' : Beps n} {k : Bytes}, SameBare n T T' →
    leafVal n T k = leafVal n T' k
  | 0, _, _, k, h => congrArg (leafVal 0 · k) h
  | n + 1, (cs, ms), (cs', ms'), k, ⟨hc, _⟩ => by
    rw [leafVal, leafVal]
    rcases childOf_same (k := k) hc with ⟨h1, h2⟩ | ⟨d, d', h1, h2, hd⟩ <;> rw [h1, h2]
    exact leafVal_same hd

theorem msgsOn_same : ∀ {n : ℕ} {T T' : Beps n} {k : Bytes}, SameBare n T T' →
    (msgsOn n T k).map bare = (msgsOn n T' k).map bare
  | 0, _, _, _, _ => rfl
  | n + 1, (cs, ms), (cs', ms'), k, ⟨hc, hm⟩ => by
    rw [msgsOn, msgsOn, List.map_append, List.map_append, map_bare_filter hm k]
    congr 1
    rcases childOf_same (k := k) hc with ⟨h1, h2⟩ | ⟨d, d', h1, h2, hd⟩ <;> rw [h1, h2]
    exact msgsOn_same hd

theorem exists_forall₂ {α β : Type} {R : α → β → Prop} : ∀ {l : List α},
    (∀ a ∈ l, ∃ b, R a b) → ∃ l', List.Forall₂ R l l'
  | [], _ => ⟨[], .nil⟩
  | a :: l, h => by
    rw [List.forall_mem_cons] at h
    obtain ⟨⟨b, hb⟩, h⟩ := h
    obtain ⟨l', hl⟩ := exists_forall₂ h
    exact ⟨b :: l', .cons hb hl⟩

theorem exists_of_forall₂ {α β : Type} {R : α → β → Prop} : ∀ {l : List α} {l' : List β},
    List.Forall₂ R l l' → ∀ b ∈ l', ∃ a ∈ l, R a b
  | _, _, .nil, b, hb => absurd hb (by simp)
  | a :: l, b' :: l', .cons hab h, b, hb => by
    rcases List.mem_cons.1 hb with rfl | hb
    · exact ⟨a, List.mem_cons_self, hab⟩
    · obtain ⟨x, hx, hr⟩ := exists_of_forall₂ h b hb
      exact ⟨x, List.mem_cons_of_mem _ hx, hr⟩

/-- A lookup reads the tree of the nodes. -/
theorem exists_treeIn {s : St} : ∀ {n : ℕ} {T : Beps n} {bp : GefsBptr}, NodeIn s.blks n T bp →
    ∃ T', SameBare n T T' ∧ Server.TreeIn s.get n T' bp
  | 0, es, bp, ⟨b, hb, hf, hp, hv⟩ =>
    ⟨es, rfl, b.content, by rw [St.get, hb, Option.map_some], hv ▸ isLeaf_content hf hp⟩
  | n + 1, (cs, ms), bp, ⟨⟨b, hb, hf, hp, hv, hm⟩, hc⟩ => by
    have hex : ∀ c ∈ cs, ∃ c' : GefsKvp × Beps n, c.1 = c'.1 ∧ SameBare n c.2 c'.2
        ∧ ∃ bp', valBptr c'.1.2 = some bp' ∧ Server.TreeIn s.get n c'.2 bp' := by
      intro c hc'
      obtain ⟨bp', hbp, hin⟩ := hc c hc'
      obtain ⟨T', hs, hin'⟩ := exists_treeIn hin
      exact ⟨(c.1, T'), rfl, hs, bp', hbp, hin'⟩
    obtain ⟨cs', hcs⟩ := exists_forall₂ hex
    have hkeys : cs.map (·.1) = cs'.map (·.1) := by
      refine List.forall₂_eq_eq_eq ▸ List.forall₂_map_left_iff.2 (List.forall₂_map_right_iff.2 ?_)
      exact hcs.imp fun _ _ h => h.1
    refine ⟨(cs', b.read), ⟨hcs.imp fun _ _ h => ⟨h.1, h.2.1⟩, ?_⟩,
      ⟨b.content, by rw [St.get, hb, Option.map_some], ?_⟩, fun c' hc' => ?_⟩
    · rw [map_bare_read hf, hm]
    · rw [← hkeys, ← hv]
      exact isPivot_content hf hp
    · obtain ⟨c, -, h⟩ := exists_of_forall₂ hcs c' hc'
      exact h.2.2

theorem forest_same {n : ℕ} {lo hi : Option Bytes} (ih : ∀ (T T' : Beps n) (lo hi : Option Bytes),
    SameBare n T T' → Ordered n T lo hi → Ordered n T' lo hi) :
    ∀ {cs cs' : List (GefsKvp × Beps n)},
      List.Forall₂ (fun c c' => c.1 = c'.1 ∧ SameBare n c.2 c'.2) cs cs' →
      Forest n cs lo hi → Forest n cs' lo hi
  | _, _, .nil, h => h
  | c :: cs, c' :: cs', .cons hc hcs, h => by
    obtain ⟨h1, h2, h3, h4⟩ := forest_cons.1 h
    have hb : rightBound cs hi = rightBound cs' hi := by
      cases hcs with
      | nil => rfl
      | cons hd _ => rw [rightBound_cons, rightBound_cons, hd.1]
    rw [hc.1] at h1 h2 h3
    refine forest_cons.2 ⟨h1, fun d hd => ?_, hb ▸ ih _ _ _ _ hc.2 h3, forest_same ih hcs h4⟩
    obtain ⟨x, hx, hr⟩ := exists_of_forall₂ hcs d hd
    exact hr.1 ▸ h2 x hx

theorem ordered_same : ∀ {n : ℕ} (T T' : Beps n) (lo hi : Option Bytes), SameBare n T T' →
    Ordered n T lo hi → Ordered n T' lo hi
  | 0, _, _, lo, hi, h, ho => h ▸ ho
  | n + 1, (cs, ms), (cs', ms'), lo, hi, ⟨hc, hm⟩, ho => by
    obtain ⟨hf, hs, hr⟩ := ordered_pivot.1 ho
    refine ordered_pivot.2 ⟨forest_same ordered_same hc hf, sorted_of_bare hm hs,
      fun m hmem => ?_⟩
    obtain ⟨m', hm', he⟩ := List.mem_map.1 (hm ▸ List.mem_map_of_mem hmem : bare m ∈ ms.map bare)
    have hk : (bare m').k = (bare m).k := congrArg GefsMsg.k he
    exact (show m'.k = m.k from hk) ▸ hr m' hm'

/-- What a lookup finds in the tree of the nodes. -/
theorem btlookup_nodes {s : St} {n : ℕ} {T : Beps n} {k : Bytes} {v : Option Bytes}
    (ht : s.tree.ht.toInt = n + 1) (hin : NodeIn s.blks n T s.tree.bp)
    (ho : Ordered n T none none) (hv : opsVal (allOps n T) k = some v) :
    btlookup s.get s.tree.toGefsTree k gefsKvmax = some (v.map (k, ·)) := by
  obtain ⟨T', hs, hin'⟩ := exists_treeIn hin
  obtain ⟨hget, hsm⟩ := serverGet_of_opsVal ho hv
  refine btlookup_tree ht hin' (ordered_same _ _ _ _ hs ho) (fun w hw => hsm w ?_) ?_
  · rw [leafVal_same hs, hw]
  · rw [serverGet, ← leafVal_same hs, ← foldlM_congr_bare (msgsOn_same hs)]
    exact hget

end Nodes

end GefsFuse.Server.Btree
