import GefsFuse.Proofs.Blank

/-!
# The counts of the catalog

A snapshot record counts the labels that name it and the records made from it. The formatter gets
these right. A sync then enters the mounted tree under its generation 3, an id no label names, with
the count of one label it was read with; and a label that is made again or removed leaves the
record it named as it was. So the counts stay right as long as no sync finds a block for its update
and no call meets a label that is there.
-/

namespace GefsFuse

open ByteMem SortedMap Calls

/-! ## Counting -/

/-- The id that a label's value names. -/
def lblId (v : Bytes) : Int64 := (unpack64 (memOf v) 1).toInt64

/-- `l` is a label for the record under `k`. -/
def names (k : Bytes) (l : GefsKvp) : Bool := gefsPacksnap (lblId l.2) = k

/-- `s` is the record of a snapshot made from the one under `k`. -/
def refers (k : Bytes) (s : GefsKvp) : Bool :=
  s.1 ≠ k ∧ (gefsUnpacktree s.2).any fun t => gefsPacksnap t.pred = k

/-- The counts in the records `ss` are those of the labels `ls` and of the records. -/
structure CountsOk (ls ss : List GefsKvp) : Prop where
  named : ∀ l ∈ ls, ∃ s ∈ ss, s.1 = gefsPacksnap (lblId l.2)
  counts : ∀ s ∈ ss, ∃ t, gefsUnpacktree s.2 = some t
    ∧ t.nlbl.toInt = ls.countP (names s.1) ∧ t.nref.toInt = ss.countP (refers s.1)
    ∧ ¬ (t.nlbl = 0 ∧ t.nref = 0)

/-- The counts of the catalog as two scans to the end list it. -/
def Counts (ctx : GefsCtx) : Prop :=
  ∃ ls ss ctx1 ctx2,
    sysStep (.btscan .snap [gefsKlabel] fun _ => false) ctx = some (ls, ctx1)
    ∧ sysStep (.btscan .snap [gefsKsnap] fun _ => false) ctx = some (ss, ctx2) ∧ CountsOk ls ss

def isLabel (kv : GefsKvp) : Bool := [gefsKlabel].isPrefixOf kv.1
def isSnap (kv : GefsKvp) : Bool := [gefsKsnap].isPrefixOf kv.1

/-- The labels for the record under `k`. -/
def lblCount (es : List GefsKvp) (k : Bytes) : ℕ := es.countP fun l => isLabel l && names k l

/-- The records made from the one under `k`. -/
def refCount (es : List GefsKvp) (k : Bytes) : ℕ := es.countP fun s => isSnap s && refers k s

/-- `CountsOk` of all the entries of the catalog. -/
structure EsCounts (es : List GefsKvp) : Prop where
  named : ∀ k v, look es k = some v → isLabel (k, v) → look es (gefsPacksnap (lblId v)) ≠ none
  counts : ∀ k v, look es k = some v → isSnap (k, v) → ∃ t, gefsUnpacktree v = some t
    ∧ t.nlbl.toInt = lblCount es k ∧ t.nref.toInt = refCount es k ∧ ¬ (t.nlbl = 0 ∧ t.nref = 0)

theorem countsOk_filter {es : List GefsKvp} (hs : Ascending es) :
    CountsOk (es.filter isLabel) (es.filter isSnap) ↔ EsCounts es := by
  have hlbl : ∀ k, (es.filter isLabel).countP (names k) = lblCount es k := by
    intro k
    rw [List.countP_filter, lblCount]
    exact List.countP_congr fun e _ => by simp [and_comm]
  have href : ∀ k, (es.filter isSnap).countP (refers k) = refCount es k := by
    intro k
    rw [List.countP_filter, refCount]
    exact List.countP_congr fun e _ => by simp [and_comm]
  constructor
  · rintro ⟨h1, h2⟩
    refine ⟨fun k v hk hl hn => ?_, fun k v hk hl => ?_⟩
    · obtain ⟨s, hs', he⟩ := h1 (k, v) (List.mem_filter.2 ⟨mem_of_look hk, hl⟩)
      exact look_eq_none.1 hn s (List.mem_filter.1 hs').1 he
    · obtain ⟨t, ht, hnl, hnr, hz⟩ := h2 (k, v) (List.mem_filter.2 ⟨mem_of_look hk, hl⟩)
      exact ⟨t, ht, hnl.trans (by rw [hlbl]), hnr.trans (by rw [href]), hz⟩
  · rintro ⟨h1, h2⟩
    refine ⟨fun l hl => ?_, fun s hs' => ?_⟩
    · obtain ⟨hl, hp⟩ := List.mem_filter.1 hl
      obtain ⟨w, hw⟩ := Option.ne_none_iff_exists'.1 (h1 l.1 l.2 (look_of_mem hs hl) hp)
      refine ⟨(_, w), List.mem_filter.2 ⟨mem_of_look hw, ?_⟩, rfl⟩
      simp [isSnap, gefsPacksnap]
    · obtain ⟨hm, hp⟩ := List.mem_filter.1 hs'
      obtain ⟨t, ht, hnl, hnr, hz⟩ := h2 s.1 s.2 (look_of_mem hs hm) hp
      exact ⟨t, ht, hnl.trans (by rw [hlbl]), hnr.trans (by rw [href]), hz⟩

theorem counts_iff {ctx : GefsCtx} {es : List GefsKvp} (hok : CtxOk ctx)
    (hh : TreeHolds ctx ctx.snapTree es) (hn : es.length < 16384) : Counts ctx ↔ EsCounts es := by
  obtain ⟨ctx1, -, h1⟩ := step_btscan (t := .snap) hok hh hn
    (show [gefsKlabel].length ≤ gefsKeymax by decide) fun _ => false
  obtain ⟨ctx2, -, h2⟩ := step_btscan (t := .snap) hok hh hn
    (show [gefsKsnap].length ≤ gefsKeymax by decide) fun _ => false
  rw [upTo_false] at h1 h2
  rw [← countsOk_filter hh.asc]
  constructor
  · rintro ⟨ls, ss, _, _, hl, hs, hc⟩
    obtain ⟨rfl, -⟩ : ls = _ ∧ _ := by simpa using hl.symm.trans h1
    obtain ⟨rfl, -⟩ : ss = _ ∧ _ := by simpa using hs.symm.trans h2
    exact hc
  · exact fun hc => ⟨_, _, _, _, h1, h2, hc⟩

/-! ## One entry -/

/-- The catalog with `k` bound to `v`. -/
def ins (es : List GefsKvp) (k v : Bytes) : List GefsKvp := merged es [⟨.oinsert, k, v, []⟩]

/-- The catalog without `k`. -/
def del (es : List GefsKvp) (k : Bytes) : List GefsKvp := merged es [⟨.odelete, k, [], []⟩]

section One

variable {es : List GefsKvp} (hs : Ascending es) (k v : Bytes)
include hs

theorem ascending_ins : Ascending (ins es k v) :=
  ascending_merged hs (List.pairwise_singleton _ _)

theorem ascending_del : Ascending (del es k) :=
  ascending_merged hs (List.pairwise_singleton _ _)

theorem look_ins (k' : Bytes) : look (ins es k v) k' = if k' = k then some v else look es k' := by
  rw [ins, look_merged hs (List.pairwise_singleton _ _)]
  simp [applyAll, applyUpd, GefsMsg.eff]

theorem look_del (k' : Bytes) : look (del es k) k' = if k' = k then none else look es k' := by
  rw [del, look_merged hs (List.pairwise_singleton _ _)]
  simp [applyAll, applyUpd, GefsMsg.eff]

theorem del_of_absent (h : look es k = none) : del es k = es := by
  refine eq_of_look (ascending_del hs k) hs fun k' => ?_
  rw [look_del hs]
  split_ifs with hk
  · rw [hk, h]
  · rfl

theorem merged_pair {k₂ v₂ : Bytes} (hne : k ≠ k₂) :
    merged es [⟨.oinsert, k, v, []⟩, ⟨.oinsert, k₂, v₂, []⟩] = ins (ins es k₂ v₂) k v := by
  have hone : OneEach GefsMsg.k GefsMsg.eff
      [(⟨.oinsert, k, v, []⟩ : GefsMsg), ⟨.oinsert, k₂, v₂, []⟩] :=
    List.pairwise_pair.2 fun h => absurd h hne
  have hs2 := ascending_ins hs k₂ v₂
  refine eq_of_look (ascending_merged hs hone) (ascending_ins hs2 k v) fun k' => ?_
  have h1 : look (merged es [⟨.oinsert, k, v, []⟩, ⟨.oinsert, k₂, v₂, []⟩]) k'
      = if k' = k₂ then some v₂ else if k' = k then some v else look es k' := by
    rw [look_merged hs hone]
    simp only [applyAll, applyUpd, GefsMsg.eff, List.foldl_cons, List.foldl_nil, if_true]
    split_ifs <;> rfl
  rw [h1, look_ins hs2, look_ins hs]
  by_cases h2 : k' = k₂
  · have h3 : k' ≠ k := fun h => hne (h.symm.trans h2)
    rw [if_pos h2, if_neg h3, if_pos h2]
  · rw [if_neg h2, if_neg h2]

/-- What binding `k` does to a count. -/
theorem countP_ins (p : GefsKvp → Bool) :
    (ins es k v).countP p + weight p es k = es.countP p + if p (k, v) then 1 else 0 := by
  have hw : weight p (ins es k v) k = if p (k, v) then 1 else 0 := by
    unfold weight
    rw [look_ins hs, if_pos rfl]
  rw [← hw]
  refine countP_update p hs (ascending_ins hs k v) fun k' hk => ?_
  rw [look_ins hs, if_neg hk]

theorem countP_del (p : GefsKvp → Bool) :
    (del es k).countP p + weight p es k = es.countP p := by
  have hw : weight p (del es k) k = 0 := by
    unfold weight
    rw [look_del hs, if_pos rfl]
  have h := @countP_update _ _ _ _ _ p hs (ascending_del hs k) k fun k' hk => by
    rw [look_del hs, if_neg hk]
  omega

end One

theorem weight_eq_zero {p : GefsKvp → Bool} {es : List GefsKvp} {k : Bytes}
    (h : ∀ v, p (k, v) = false) : weight p es k = 0 := by
  unfold weight
  split
  · rfl
  · rw [h]
    rfl

/-! Keys. -/

theorem isLabel_cons (name v : Bytes) : isLabel (gefsKlabel :: name, v) = true := rfl

theorem isSnap_cons (name v : Bytes) : isSnap (gefsKlabel :: name, v) = false := rfl

theorem isSnap_snap (id : Int64) (v : Bytes) : isSnap (gefsPacksnap id, v) = true := rfl

theorem isLabel_snap (id : Int64) (v : Bytes) : isLabel (gefsPacksnap id, v) = false := rfl

theorem lblId_packlblval (id : Int64) (flags : UInt32) : lblId (packlblval id flags) = id :=
  (unpack_packlblval id flags).1

theorem packsnap_ofNat_inj {i j : ℕ} (hi : i < 2 ^ 63) (hj : j < 2 ^ 63)
    (h : gefsPacksnap (Int64.ofNat i) = gefsPacksnap (Int64.ofNat j)) : i = j := by
  have h1 := congrArg Int64.toInt (gefsPacksnap_inj h)
  rw [toInt_ofNat_of_lt hi, toInt_ofNat_of_lt hj] at h1
  omega

section Count

variable {es : List GefsKvp} (hs : Ascending es)
include hs

theorem lblCount_ins_snap (id : Int64) (v k : Bytes) :
    lblCount (ins es (gefsPacksnap id) v) k = lblCount es k := by
  have h := countP_ins hs (gefsPacksnap id) v fun l => isLabel l && names k l
  rw [weight_eq_zero fun w => by rw [isLabel_snap]; rfl, isLabel_snap] at h
  simpa [lblCount] using h

theorem refCount_ins_label (name v k : Bytes) :
    refCount (ins es (gefsKlabel :: name) v) k = refCount es k := by
  have h := countP_ins hs (gefsKlabel :: name) v fun s => isSnap s && refers k s
  rw [weight_eq_zero fun w => by rw [isSnap_cons]; rfl, isSnap_cons] at h
  simpa [refCount] using h

/-- A label that is new. -/
theorem lblCount_ins_new {name : Bytes} (hn : look es (gefsKlabel :: name) = none) (v k : Bytes) :
    lblCount (ins es (gefsKlabel :: name) v) k
      = lblCount es k + if names k (gefsKlabel :: name, v) then 1 else 0 := by
  have h := countP_ins hs (gefsKlabel :: name) v fun l => isLabel l && names k l
  have hw : weight (fun l => isLabel l && names k l) es (gefsKlabel :: name) = 0 := by
    unfold weight
    rw [hn]
  rw [hw, isLabel_cons, Bool.true_and] at h
  exact h

/-- A label that named the record under `k` and is bound to another one, or removed. -/
theorem lblCount_ins_moved {name w v k : Bytes} (hw : look es (gefsKlabel :: name) = some w)
    (hk : names k (gefsKlabel :: name, w) = true) (hv : names k (gefsKlabel :: name, v) = false) :
    lblCount (ins es (gefsKlabel :: name) v) k + 1 = lblCount es k := by
  have h := countP_ins hs (gefsKlabel :: name) v fun l => isLabel l && names k l
  have hw' : weight (fun l => isLabel l && names k l) es (gefsKlabel :: name) = 1 := by
    unfold weight
    rw [hw]
    simp [isLabel_cons, hk]
  rw [hw'] at h
  simpa [lblCount, hv] using h

theorem lblCount_del_moved {name w k : Bytes} (hw : look es (gefsKlabel :: name) = some w)
    (hk : names k (gefsKlabel :: name, w) = true) :
    lblCount (del es (gefsKlabel :: name)) k + 1 = lblCount es k := by
  have h := countP_del hs (gefsKlabel :: name) fun l => isLabel l && names k l
  have hw' : weight (fun l => isLabel l && names k l) es (gefsKlabel :: name) = 1 := by
    unfold weight
    rw [hw]
    simp [isLabel_cons, hk]
  rw [hw'] at h
  exact h

/-- A record that is new. -/
theorem refCount_ins_new {id : Int64} (hn : look es (gefsPacksnap id) = none) (v k : Bytes) :
    refCount (ins es (gefsPacksnap id) v) k
      = refCount es k + if refers k (gefsPacksnap id, v) then 1 else 0 := by
  have h := countP_ins hs (gefsPacksnap id) v fun s => isSnap s && refers k s
  have hw : weight (fun s => isSnap s && refers k s) es (gefsPacksnap id) = 0 := by
    unfold weight
    rw [hn]
  rw [hw, isSnap_snap, Bool.true_and] at h
  exact h

end Count

/-! ## The ids in use -/

/-- The catalog of a session in which the ids below `n` have been given out: no label names 3, the
mounted tree's own generation, and each record comes from the record 0 or from that tree. -/
structure CatInv (es : List GefsKvp) (n : ℕ) : Prop where
  asc : Ascending es
  four : 4 ≤ n
  room : n ≤ es.countP isSnap + 1
  lbls : ∀ k v, look es k = some v → isLabel (k, v) →
    ∃ j, j < n ∧ j ≠ 3 ∧ lblId v = Int64.ofNat j
  ids : ∀ k v, look es k = some v → isSnap (k, v) → ∃ j < n, k = gefsPacksnap (Int64.ofNat j)
  preds : ∀ k v, look es k = some v → isSnap (k, v) →
    ∃ t, gefsUnpacktree v = some t ∧ (t.pred = 0 ∨ t.pred = 3)

theorem length_of_fits {es : List GefsKvp} (h : Fits es) : es.length < 8192 := by
  have hl : gefsLeafspc = 16378 := rfl
  unfold Fits at h
  omega

section Inv

variable {es : List GefsKvp} {n : ℕ} (h : CatInv es n)
include h

/-- Each id given out has left a record behind, so the leaf bounds how many there are. -/
theorem CatInv.lt (hf : Fits es) : n < 2 ^ 63 := by
  have h1 := length_of_fits hf
  have h2 := List.countP_le_length (p := isSnap) (l := es)
  have h3 := h.room
  omega

theorem CatInv.look_next (hn : n < 2 ^ 63) : look es (gefsPacksnap (Int64.ofNat n)) = none := by
  by_contra hne
  obtain ⟨v, hv⟩ := Option.ne_none_iff_exists'.1 hne
  obtain ⟨j, hj, he⟩ := h.ids _ v hv rfl
  have := packsnap_ofNat_inj hn (by omega) he
  omega

theorem CatInv.ins {k v : Bytes} {n' : ℕ} (hn : n ≤ n')
    (hroom : n' ≤ (ins es k v).countP isSnap + 1)
    (hl : isLabel (k, v) → ∃ j, j < n' ∧ j ≠ 3 ∧ lblId v = Int64.ofNat j)
    (hi : isSnap (k, v) → ∃ j < n', k = gefsPacksnap (Int64.ofNat j))
    (hp : isSnap (k, v) → ∃ t, gefsUnpacktree v = some t ∧ (t.pred = 0 ∨ t.pred = 3)) :
    CatInv (ins es k v) n' := by
  have hold : ∀ k' v', look (GefsFuse.ins es k v) k' = some v' →
      (k' = k ∧ v' = v) ∨ look es k' = some v' := by
    intro k' v' hlk
    rw [look_ins h.asc] at hlk
    split_ifs at hlk with hk
    · exact .inl ⟨hk, (Option.some.inj hlk).symm⟩
    · exact .inr hlk
  refine ⟨ascending_ins h.asc k v, h.four.trans hn, hroom, ?_, ?_, ?_⟩
  · intro k' v' hlk hlab
    rcases hold k' v' hlk with ⟨rfl, rfl⟩ | ho
    · exact hl hlab
    · obtain ⟨j, hj, hne, he⟩ := h.lbls k' v' ho hlab
      exact ⟨j, by omega, hne, he⟩
  · intro k' v' hlk hsn
    rcases hold k' v' hlk with ⟨rfl, rfl⟩ | ho
    · exact hi hsn
    · obtain ⟨j, hj, he⟩ := h.ids k' v' ho hsn
      exact ⟨j, by omega, he⟩
  · intro k' v' hlk hsn
    rcases hold k' v' hlk with ⟨rfl, rfl⟩ | ho
    · exact hp hsn
    · exact h.preds k' v' ho hsn

/-- A label bound to an id given out. -/
theorem CatInv.insLabel {name : Bytes} {j : ℕ} (hj : j < n) (h3 : j ≠ 3) (flags : UInt32) :
    CatInv (GefsFuse.ins es (gefsKlabel :: name) (packlblval (Int64.ofNat j) flags)) n := by
  refine h.ins le_rfl ?_ (fun _ => ⟨j, hj, h3, lblId_packlblval _ _⟩) (fun hsn => ?_) fun hsn => ?_
  · have hc := countP_ins h.asc (gefsKlabel :: name) (packlblval (Int64.ofNat j) flags) isSnap
    rw [weight_eq_zero fun w => isSnap_cons name w, isSnap_cons] at hc
    have hr := h.room
    simp only [Bool.false_eq_true, if_false] at hc
    omega
  · rw [isSnap_cons] at hsn
    exact absurd hsn (by decide)
  · rw [isSnap_cons] at hsn
    exact absurd hsn (by decide)

/-- The record of the next id. -/
theorem CatInv.insNext (hn : n < 2 ^ 63) {t : GefsTree} (ht : t.pred = 0 ∨ t.pred = 3) :
    CatInv (GefsFuse.ins es (gefsPacksnap (Int64.ofNat n)) (packtree t)) (n + 1) := by
  refine h.ins (by omega) ?_ (fun hl => ?_) (fun _ => ⟨n, by omega, rfl⟩)
    fun _ => ⟨t, gefsUnpacktree_packtree t, ht⟩
  · have hc := countP_ins h.asc (gefsPacksnap (Int64.ofNat n)) (packtree t) isSnap
    have hw : weight isSnap es (gefsPacksnap (Int64.ofNat n)) = 0 := by
      unfold weight
      rw [h.look_next hn]
    rw [hw, isSnap_snap, if_pos rfl] at hc
    have hr := h.room
    omega
  · rw [isLabel_snap] at hl
    exact absurd hl (by decide)

/-- The mounted tree under its generation. -/
theorem CatInv.insActive {t : GefsTree} (ht : t.pred = 0 ∨ t.pred = 3) :
    CatInv (GefsFuse.ins es (gefsPacksnap 3) (packtree t)) n := by
  refine h.ins le_rfl ?_ (fun hl => ?_) (fun _ => ⟨3, by have := h.four; omega, rfl⟩)
    fun _ => ⟨t, gefsUnpacktree_packtree t, ht⟩
  · have hc := countP_ins h.asc (gefsPacksnap 3) (packtree t) isSnap
    have hw : weight isSnap es (gefsPacksnap 3) ≤ 1 := by
      unfold weight
      split
      · omega
      · split_ifs <;> omega
    rw [isSnap_snap, if_pos rfl] at hc
    have hr := h.room
    omega
  · rw [isLabel_snap] at hl
    exact absurd hl (by decide)

theorem CatInv.delLabel (name : Bytes) : CatInv (del es (gefsKlabel :: name)) n := by
  have hold : ∀ k v, look (del es (gefsKlabel :: name)) k = some v → look es k = some v := by
    intro k v hk
    rw [look_del h.asc] at hk
    split_ifs at hk
    exact hk
  refine ⟨ascending_del h.asc _, h.four, ?_, fun k v hk => h.lbls k v (hold k v hk),
    fun k v hk => h.ids k v (hold k v hk), fun k v hk => h.preds k v (hold k v hk)⟩
  have hc := countP_del h.asc (gefsKlabel :: name) isSnap
  rw [weight_eq_zero fun w => isSnap_cons name w] at hc
  have hr := h.room
  omega

end Inv

/-! ## What a call does to the counts -/

theorem names_packlblval (k name : Bytes) (id : Int64) (flags : UInt32) :
    names k (name, packlblval id flags) = decide (gefsPacksnap id = k) := by
  rw [names, lblId_packlblval]

theorem refers_packtree (k k' : Bytes) (t : GefsTree) :
    refers k (k', packtree t) = decide (k' ≠ k ∧ gefsPacksnap t.pred = k) := by
  simp [refers, gefsUnpacktree_packtree]

section Effect

variable {es : List GefsKvp} {n : ℕ} (hi : CatInv es n)
include hi

/-- A new label and its record, where nothing in the catalog comes from the mounted tree. -/
theorem EsCounts.create (hc : EsCounts es) (hn : n < 2 ^ 63) {name : Bytes}
    (hnew : look es (gefsKlabel :: name) = none) (h3 : look es (gefsPacksnap 3) = none)
    (flags : UInt32) {act : GefsTree} (hact : act.gen = 3) :
    EsCounts (ins (ins es (gefsPacksnap (Int64.ofNat n))
        (packtree (newSnap act (Int64.ofNat n))))
      (gefsKlabel :: name) (packlblval (Int64.ofNat n) flags)) := by
  have hs1 := ascending_ins hi.asc (gefsPacksnap (Int64.ofNat n))
    (packtree (newSnap act (Int64.ofNat n)))
  have hnext := hi.look_next hn
  have hnew1 : look (ins es (gefsPacksnap (Int64.ofNat n))
      (packtree (newSnap act (Int64.ofNat n)))) (gefsKlabel :: name) = none := by
    rw [look_ins hi.asc, if_neg (lbl_ne_snap _ _), hnew]
  have hlook : ∀ k, look (ins (ins es (gefsPacksnap (Int64.ofNat n))
        (packtree (newSnap act (Int64.ofNat n))))
      (gefsKlabel :: name) (packlblval (Int64.ofNat n) flags)) k
      = if k = gefsKlabel :: name then some (packlblval (Int64.ofNat n) flags)
        else if k = gefsPacksnap (Int64.ofNat n) then
          some (packtree (newSnap act (Int64.ofNat n)))
        else look es k := by
    intro k
    rw [look_ins hs1, look_ins hi.asc]
  refine ⟨fun k v hk hl => ?_, fun k v hk hsn => ?_⟩
  · rw [hlook, if_neg (lbl_ne_snap _ _).symm]
    rw [hlook] at hk
    by_cases hkS : gefsPacksnap (lblId v) = gefsPacksnap (Int64.ofNat n)
    · rw [if_pos hkS]
      simp
    · rw [if_neg hkS]
      split_ifs at hk with h1 h2
      · rw [← Option.some.inj hk, lblId_packlblval] at hkS
        exact absurd rfl hkS
      · rw [h2, isLabel_snap] at hl
        exact absurd hl (by decide)
      · exact hc.named k v hk hl
  · rw [hlook] at hk
    rw [lblCount_ins_new hs1 hnew1, lblCount_ins_snap hi.asc, refCount_ins_label hs1,
      refCount_ins_new hi.asc hnext, names_packlblval, refers_packtree]
    split_ifs at hk with h1 h2
    · rw [h1, isSnap_cons] at hsn
      exact absurd hsn (by decide)
    · -- the new record: one label, and nothing made from it
      obtain rfl := Option.some.inj hk
      refine ⟨newSnap act (Int64.ofNat n), gefsUnpacktree_packtree _, ?_, ?_, by simp [newSnap]⟩
      · have h0 : lblCount es k = 0 := by
          refine List.countP_eq_zero.2 fun e he hp => ?_
          simp only [Bool.and_eq_true, names, decide_eq_true_eq] at hp
          refine hc.named e.1 e.2 (look_of_mem hi.asc he) hp.1 ?_
          rw [hp.2, h2, hnext]
        rw [h0, h2]
        simp [newSnap]
      · have h0 : refCount es k = 0 := by
          refine List.countP_eq_zero.2 fun e he hp => ?_
          simp only [Bool.and_eq_true, refers, decide_eq_true_eq] at hp
          obtain ⟨t, ht, hpred⟩ := hi.preds e.1 e.2 (look_of_mem hi.asc he) hp.1
          have hp2 := hp.2.2
          rw [ht, Option.any_some, decide_eq_true_eq, h2] at hp2
          have h4 := hi.four
          rcases hpred with h | h
          · rw [h] at hp2
            have := @packsnap_ofNat_inj 0 n (by omega) hn hp2
            omega
          · rw [h] at hp2
            have := @packsnap_ofNat_inj 3 n (by omega) hn hp2
            omega
        rw [h0, h2]
        simp [newSnap, zeroTree]
    · obtain ⟨t, ht, hnl, hnr, hz⟩ := hc.counts k v hk hsn
      have hk3 : gefsPacksnap 3 ≠ k := by
        rintro rfl
        rw [h3] at hk
        exact absurd hk (by simp)
      have hp : ¬ (gefsPacksnap (Int64.ofNat n) ≠ k
          ∧ gefsPacksnap (newSnap act (Int64.ofNat n)).pred = k) := by
        rintro ⟨-, h⟩
        exact hk3 (by rw [← h, ← hact]; rfl)
      refine ⟨t, ht, ?_, ?_, hz⟩
      · rw [hnl, decide_eq_false (Ne.symm h2)]
        simp
      · rw [hnr, decide_eq_false hp]
        simp

/-- The mounted tree in the catalog claims a label that there is not. -/
theorem not_esCounts_active {r : GefsBptr}
    (h3 : look es (gefsPacksnap 3) = some (packtree (mainTree r))) (hn : n < 2 ^ 63) :
    ¬ EsCounts es := by
  intro hc
  obtain ⟨t, ht, hnl, -⟩ := hc.counts _ _ h3 rfl
  rw [gefsUnpacktree_packtree] at ht
  obtain rfl := Option.some.inj ht
  have h0 : lblCount es (gefsPacksnap 3) = 0 := by
    refine List.countP_eq_zero.2 fun e he hp => ?_
    simp only [Bool.and_eq_true, names, decide_eq_true_eq] at hp
    obtain ⟨j, hj, hne, hid⟩ := hi.lbls e.1 e.2 (look_of_mem hi.asc he) hp.1
    rw [hid] at hp
    exact hne (@packsnap_ofNat_inj j 3 (by omega) (by omega) hp.2)
  rw [h0] at hnl
  exact absurd hnl (show ((1 : Int32).toInt : ℤ) ≠ ((0 : ℕ) : ℤ) by decide)

/-- The record that a label names. -/
theorem CatInv.named (hc : EsCounts es) (hn : n < 2 ^ 63) {name w : Bytes}
    (hw : look es (gefsKlabel :: name) = some w) :
    ∃ x, look es (gefsPacksnap (lblId w)) = some x
      ∧ gefsPacksnap (lblId w) ≠ gefsPacksnap (Int64.ofNat n) := by
  obtain ⟨x, hx⟩ := Option.ne_none_iff_exists'.1 (hc.named _ w hw rfl)
  refine ⟨x, hx, fun he => ?_⟩
  rw [he, hi.look_next hn] at hx
  exact absurd hx (by simp)

/-- A label made again takes itself off the record it named, which keeps its count. -/
theorem not_esCounts_recreate (hc : EsCounts es) (hn : n < 2 ^ 63) {name w : Bytes}
    (hw : look es (gefsKlabel :: name) = some w) (flags : UInt32) (v : Bytes) :
    ¬ EsCounts (ins (ins es (gefsPacksnap (Int64.ofNat n)) v) (gefsKlabel :: name)
      (packlblval (Int64.ofNat n) flags)) := by
  intro hc'
  obtain ⟨x, hx, hne⟩ := hi.named hc hn hw
  have hs1 := ascending_ins hi.asc (gefsPacksnap (Int64.ofNat n)) v
  have hx' : look (ins (ins es (gefsPacksnap (Int64.ofNat n)) v) (gefsKlabel :: name)
      (packlblval (Int64.ofNat n) flags)) (gefsPacksnap (lblId w)) = some x := by
    rw [look_ins hs1, if_neg (lbl_ne_snap _ _).symm, look_ins hi.asc, if_neg hne, hx]
  have hw' : look (ins es (gefsPacksnap (Int64.ofNat n)) v) (gefsKlabel :: name) = some w := by
    rw [look_ins hi.asc, if_neg (lbl_ne_snap _ _), hw]
  obtain ⟨t, ht, hnl, -⟩ := hc.counts _ x hx rfl
  obtain ⟨t', ht', hnl', -⟩ := hc'.counts _ x hx' rfl
  obtain rfl := Option.some.inj (ht.symm.trans ht')
  have hmove := @lblCount_ins_moved _ hs1 name w (packlblval (Int64.ofNat n) flags)
    (gefsPacksnap (lblId w)) hw' (decide_eq_true rfl)
    (by rw [names_packlblval]; exact decide_eq_false (Ne.symm hne))
  rw [lblCount_ins_snap hi.asc] at hmove
  omega

/-- And so does a label that is removed. -/
theorem not_esCounts_delete (hc : EsCounts es) (hn : n < 2 ^ 63) {name w : Bytes}
    (hw : look es (gefsKlabel :: name) = some w) : ¬ EsCounts (del es (gefsKlabel :: name)) := by
  intro hc'
  obtain ⟨x, hx, -⟩ := hi.named hc hn hw
  have hx' : look (del es (gefsKlabel :: name)) (gefsPacksnap (lblId w)) = some x := by
    rw [look_del hi.asc, if_neg (lbl_ne_snap _ _).symm, hx]
  obtain ⟨t, ht, hnl, -⟩ := hc.counts _ x hx rfl
  obtain ⟨t', ht', hnl', -⟩ := hc'.counts _ x hx' rfl
  obtain rfl := Option.some.inj (ht.symm.trans ht')
  have hmove := @lblCount_del_moved _ hi.asc name w (gefsPacksnap (lblId w)) hw
    (decide_eq_true rfl)
  omega

end Effect

/-! ## The formatter's catalog -/

theorem gefsPacksnap_eq {i j : Int64} : gefsPacksnap i = gefsPacksnap j ↔ i = j :=
  ⟨gefsPacksnap_inj, fun h => h ▸ rfl⟩

section Formatter

variable (r a : GefsBptr) (id : Int64)

theorem lblCount_catEs :
    lblCount (catEs r a) (gefsPacksnap id) = [(1 : Int64), 0, 2].countP (· = id) := by
  simp only [lblCount, catEs, List.countP_cons, List.countP_nil, isLabel_cons, isLabel_snap,
    names_packlblval, Bool.true_and, Bool.false_and, gefsPacksnap_eq]
  simp

theorem refCount_catEs :
    refCount (catEs r a) (gefsPacksnap id)
      = [(0 : Int64), 1, 2].countP fun i => i ≠ id ∧ 0 = id := by
  simp only [refCount, catEs, List.countP_cons, List.countP_nil, isSnap_cons, isSnap_snap,
    refers_packtree, Bool.true_and, Bool.false_and, gefsPacksnap_eq, ne_eq]
  rfl

theorem look_catEs_snap :
    look (catEs r a) (gefsPacksnap id)
      = if 0 = id then some (packtree (reamTree 2 1 2 r))
        else if 1 = id then some (packtree (reamTree 0 2 (-1) a))
        else if 2 = id then some (packtree (mainTree r)) else none := by
  simp only [catEs, look, lbl_ne_snap, gefsPacksnap_eq, if_false]
  rfl

/-- The entries, label by label and record by record. -/
theorem catEs_cases {k v : Bytes} (h : look (catEs r a) k = some v) :
    (∃ name, ∃ j < 3, ∃ flags, k = gefsKlabel :: name ∧ v = packlblval (Int64.ofNat j) flags)
    ∨ ∃ j < 3, ∃ t, k = gefsPacksnap (Int64.ofNat j) ∧ v = packtree t ∧ t.pred = 0
      ∧ t.nlbl = 1 ∧ t.nref = if j = 0 then 2 else 0 := by
  have hm := mem_of_look h
  simp only [catEs, List.mem_cons, Prod.mk.injEq, List.not_mem_nil, or_false] at hm
  rcases hm with ⟨rfl, rfl⟩ | ⟨rfl, rfl⟩ | ⟨rfl, rfl⟩ | ⟨rfl, rfl⟩ | ⟨rfl, rfl⟩ | ⟨rfl, rfl⟩
  · exact .inl ⟨_, 1, by omega, _, rfl, rfl⟩
  · exact .inl ⟨_, 0, by omega, _, rfl, rfl⟩
  · exact .inl ⟨_, 2, by omega, _, rfl, rfl⟩
  · exact .inr ⟨0, by omega, _, rfl, rfl, rfl, rfl, rfl⟩
  · exact .inr ⟨1, by omega, _, rfl, rfl, rfl, rfl, rfl⟩
  · exact .inr ⟨2, by omega, _, rfl, rfl, rfl, rfl, rfl⟩

theorem catInv_catEs : CatInv (catEs r a) 4 := by
  refine ⟨ascending_catEs r a, le_rfl, le_rfl, fun k v h hl => ?_, fun k v h hsn => ?_,
    fun k v h hsn => ?_⟩ <;>
    obtain ⟨name, j, hj, flags, rfl, rfl⟩ | ⟨j, hj, t, rfl, rfl, hp, -⟩ := catEs_cases r a h
  · exact ⟨j, by omega, by omega, lblId_packlblval _ _⟩
  · rw [isLabel_snap] at hl
    exact absurd hl (by decide)
  · rw [isSnap_cons] at hsn
    exact absurd hsn (by decide)
  · exact ⟨j, by omega, rfl⟩
  · rw [isSnap_cons] at hsn
    exact absurd hsn (by decide)
  · exact ⟨t, gefsUnpacktree_packtree t, .inl hp⟩

theorem esCounts_catEs : EsCounts (catEs r a) := by
  refine ⟨fun k v h hl => ?_, fun k v h hsn => ?_⟩ <;>
    obtain ⟨name, j, hj, flags, rfl, rfl⟩ | ⟨j, hj, t, rfl, rfl, -, hnl, hnr⟩ := catEs_cases r a h
  · rw [lblId_packlblval, look_catEs_snap]
    interval_cases j <;> exact Option.some_ne_none _
  · rw [isLabel_snap] at hl
    exact absurd hl (by decide)
  · rw [isSnap_cons] at hsn
    exact absurd hsn (by decide)
  · refine ⟨t, gefsUnpacktree_packtree t, ?_, ?_, by rw [hnl]; simp⟩
    · rw [lblCount_catEs, hnl]
      interval_cases j <;> decide
    · rw [refCount_catEs, hnr]
      interval_cases j <;> decide

end Formatter

/-! ## Runs -/

/-- `P` in every state a sequence of successful calls goes through. -/
def AllStates (P : GefsCtx → Prop) : GefsCtx → List SnapOp → Prop
  | ctx, [] => P ctx
  | ctx, op :: ops =>
    P ctx ∧ ∀ ctx', run sysStep op.prog ctx = some (.ok (), ctx') → AllStates P ctx' ops

/-- `C` of every call of the sequence, in the state it is made in. -/
def AllSteps (C : GefsCtx → SnapOp → Prop) : GefsCtx → List SnapOp → Prop
  | _, [] => True
  | ctx, op :: ops =>
    ∀ ctx', run sysStep op.prog ctx = some (.ok (), ctx') → C ctx op ∧ AllSteps C ctx' ops

/-- The leaves of the catalog that the call builds hold their entries. -/
def RoomFor (ctx : GefsCtx) (op : SnapOp) : Prop :=
  ∀ es, TreeHolds ctx ctx.snapTree es → Fits (merged es (op.batch ctx))
    ∧ Fits (merged (merged es (op.batch ctx)) (syncBatch ctx.activeTree))

/-- There is one block for the call and none for its sync, and the label is not there. -/
def KeepsCounts (ctx : GefsCtx) (op : SnapOp) : Prop :=
  canAllocTwo ctx = false
    ∧ ∃ ctx', sysStep (.btlookup .snap (gefsKlabel :: op.name.bytes)) ctx = some (none, ctx')

/-- A session on a formatted image, with `es` in the catalog and the ids below `n` given out. -/
structure Session (r : GefsBptr) (ctx : GefsCtx) (es : List GefsKvp) (n : ℕ) : Prop where
  ok : CtxOk ctx
  cat : TreeHolds ctx ctx.snapTree es
  fits : Fits es
  inv : CatInv es n
  active : ctx.activeTree = mainTree r
  gen : ctx.snapTree.gen = 0
  lens : ctx.sb.narena.toInt.toNat ≤ ctx.arenas.length
  nextgen : ctx.sb.nextgen = UInt64.ofNat n

/-- The ids given out after a call. -/
def SnapOp.next (n : ℕ) : SnapOp → ℕ
  | create _ _ => n + 1
  | delete _ => n

/-- The catalog after a call. -/
def after (r : GefsBptr) (ctx : GefsCtx) (es : List GefsKvp) (op : SnapOp) : List GefsKvp :=
  if canAllocTwo ctx then ins (merged es (op.batch ctx)) (gefsPacksnap 3) (packtree (mainTree r))
  else merged es (op.batch ctx)

theorem merged_syncBatch (es : List GefsKvp) (r : GefsBptr) :
    merged es (syncBatch (mainTree r)) = ins es (gefsPacksnap 3) (packtree (mainTree r)) := rfl

section Steps

variable {r : GefsBptr} {ctx : GefsCtx} {es : List GefsKvp} {n : ℕ} (h : Session r ctx es n)
include h

theorem Session.counts_iff : Counts ctx ↔ EsCounts es :=
  GefsFuse.counts_iff h.ok h.cat (by have := length_of_fits h.fits; omega)

theorem Session.lookup (k : Bytes) :
    (∃ ctx', sysStep (.btlookup .snap k) ctx = some (none, ctx')) ↔ look es k = none := by
  obtain ⟨ctx1, -, he⟩ := step_btlookup (t := .snap) h.ok h.cat k
  rw [he]
  rcases look es k with _ | v <;> simp

theorem Session.batch_create (name : CStr) (flag : Bool) :
    merged es ((SnapOp.create name flag).batch ctx)
      = ins (ins es (gefsPacksnap (Int64.ofNat n))
          (packtree (newSnap (mainTree r) (Int64.ofNat n)))) (gefsKlabel :: name.bytes)
        (packlblval (Int64.ofNat n) (gefsLtsnap ||| (if flag then gefsLmut else 0))) := by
  have hgen : ctx.sb.nextgen.toInt64 = Int64.ofNat n := by
    rw [h.nextgen]
    rfl
  simp only [SnapOp.batch, hgen, h.active]
  exact merged_pair h.inv.asc _ _ (lbl_ne_snap _ _)

theorem Session.inv_batch (op : SnapOp) : CatInv (merged es (op.batch ctx)) (op.next n) := by
  have hn := h.inv.lt h.fits
  cases op with
  | create name flag =>
    rw [h.batch_create]
    have h4 := h.inv.four
    exact (h.inv.insNext hn (.inr rfl)).insLabel (by omega) (by omega) _
  | delete name => exact h.inv.delLabel name.bytes

theorem Session.step {op : SnapOp} {ctx' : GefsCtx} (hf1 : Fits (merged es (op.batch ctx)))
    (hf2 : Fits (merged (merged es (op.batch ctx)) (syncBatch ctx.activeTree)))
    (hr : run sysStep op.prog ctx = some (.ok (), ctx')) :
    Session r ctx' (after r ctx es op) (op.next n) := by
  have hg : ctx.snapTree.gen ≠ ctx.activeTree.gen := by
    rw [h.gen, h.active]
    exact (by decide : (0 : Int64) ≠ 3)
  obtain ⟨-, -, hk, hp⟩ := run_snapOp h.ok h.cat hg h.lens hf1 hf2 hr
  have hinv := h.inv_batch op
  rw [h.active, merged_syncBatch] at hp hf2
  have hboth : Fits (after r ctx es op) ∧ CatInv (after r ctx es op) (op.next n) := by
    unfold after
    split_ifs
    · exact ⟨hf2, hinv.insActive (.inl rfl)⟩
    · exact ⟨hf1, hinv⟩
  refine ⟨hk.ok, hp.treeHolds, hboth.1, hboth.2, hk.active.trans h.active, hk.gen.trans h.gen, ?_, ?_⟩
  · rw [hk.narena, hk.arenas]
    exact h.lens
  · rw [hk.nextgen]
    cases op with
    | create name flag =>
      show ctx.sb.nextgen + 1 = UInt64.ofNat (n + 1)
      rw [h.nextgen, UInt64.ofNat_add]
      rfl
    | delete name => exact h.nextgen

theorem Session.keeps {op : SnapOp} (hc : EsCounts es) (h3 : look es (gefsPacksnap 3) = none)
    (ha : canAllocTwo ctx = false) (hl : look es (gefsKlabel :: op.name.bytes) = none) :
    EsCounts (after r ctx es op) ∧ look (after r ctx es op) (gefsPacksnap 3) = none := by
  have hn := h.inv.lt h.fits
  have h4 := h.inv.four
  rw [after, ha]
  simp only [Bool.false_eq_true, if_false]
  cases op with
  | create name flag =>
    rw [h.batch_create]
    refine ⟨EsCounts.create h.inv hc hn hl h3 _ rfl, ?_⟩
    have hne : gefsPacksnap 3 ≠ gefsPacksnap (Int64.ofNat n) := by
      intro he
      have := @packsnap_ofNat_inj 3 n (by omega) hn he
      omega
    rw [look_ins (ascending_ins h.inv.asc _ _), if_neg (lbl_ne_snap _ _).symm,
      look_ins h.inv.asc, if_neg hne, h3]
  | delete name =>
    have hd : merged es ((SnapOp.delete name).batch ctx) = es := del_of_absent h.inv.asc _ hl
    rw [hd]
    exact ⟨hc, h3⟩

theorem Session.breaks {op : SnapOp}
    (hf2 : Fits (merged (merged es (op.batch ctx)) (syncBatch ctx.activeTree))) (hc : EsCounts es)
    (hb : canAllocTwo ctx = true ∨ look es (gefsKlabel :: op.name.bytes) ≠ none) :
    ¬ EsCounts (after r ctx es op) := by
  have hn := h.inv.lt h.fits
  have hinv := h.inv_batch op
  rcases Bool.eq_false_or_eq_true (canAllocTwo ctx) with ha | ha
  · rw [h.active, merged_syncBatch] at hf2
    rw [after, ha, if_pos rfl]
    have hinv' := hinv.insActive (t := mainTree r) (.inl rfl)
    refine not_esCounts_active hinv' (r := r) ?_ (hinv'.lt hf2)
    rw [look_ins hinv.asc, if_pos rfl]
  · rw [after, ha]
    simp only [Bool.false_eq_true, if_false]
    rw [ha] at hb
    obtain ⟨w, hw⟩ := Option.ne_none_iff_exists'.1 (hb.resolve_left (by decide))
    cases op with
    | create name flag =>
      rw [h.batch_create]
      exact not_esCounts_recreate h.inv hc hn hw _ _
    | delete name => exact not_esCounts_delete h.inv hc hn hw

end Steps

theorem keepsCounts_iff {r : GefsBptr} {ctx : GefsCtx} {es : List GefsKvp} {n : ℕ}
    (h : Session r ctx es n) (op : SnapOp) :
    KeepsCounts ctx op
      ↔ canAllocTwo ctx = false ∧ look es (gefsKlabel :: op.name.bytes) = none := by
  rw [KeepsCounts, h.lookup]

/-- The counts hold through a run whose calls all keep them. -/
theorem allStates_of_keeps {r : GefsBptr} : ∀ (ops : List SnapOp) {ctx : GefsCtx}
    {es : List GefsKvp} {n : ℕ}, Session r ctx es n → EsCounts es →
    look es (gefsPacksnap 3) = none →
    AllSteps (fun ctx op => RoomFor ctx op ∧ KeepsCounts ctx op) ctx ops → AllStates Counts ctx ops
  | [], ctx, es, n, h, hc, _, _ => h.counts_iff.2 hc
  | op :: ops, ctx, es, n, h, hc, h3, hst => by
    refine ⟨h.counts_iff.2 hc, fun ctx' hr => ?_⟩
    obtain ⟨⟨hroom, hkeep⟩, hrest⟩ := hst ctx' hr
    obtain ⟨ha, hl⟩ := (keepsCounts_iff h op).1 hkeep
    obtain ⟨hc', h3'⟩ := h.keeps hc h3 ha hl
    obtain ⟨hf1, hf2⟩ := hroom es h.cat
    exact allStates_of_keeps ops (h.step hf1 hf2 hr) hc' h3' hrest

/-- And where they hold throughout, each call kept them. -/
theorem keeps_of_allStates {r : GefsBptr} : ∀ (ops : List SnapOp) {ctx : GefsCtx}
    {es : List GefsKvp} {n : ℕ}, Session r ctx es n → AllSteps RoomFor ctx ops →
    AllStates Counts ctx ops → AllSteps KeepsCounts ctx ops
  | [], _, _, _, _, _, _ => trivial
  | op :: ops, ctx, es, n, h, hroom, hall => by
    intro ctx' hr
    obtain ⟨hroom1, hroom⟩ := hroom ctx' hr
    have hc := h.counts_iff.1 hall.1
    have hrest := hall.2 ctx' hr
    obtain ⟨hf1, hf2⟩ := hroom1 es h.cat
    have h' := h.step hf1 hf2 hr
    have hc' : EsCounts (after r ctx es op) := by
      refine h'.counts_iff.1 ?_
      cases ops with
      | nil => exact hrest
      | cons op' ops => exact hrest.1
    refine ⟨(keepsCounts_iff h op).2 ?_, keeps_of_allStates ops h' hroom hrest⟩
    by_contra hno
    refine h.breaks hf2 hc ?_ hc'
    rw [not_and_or, Bool.not_eq_false] at hno
    exact hno

theorem session_opened {d' : Disk} {readonly : Bool} {heap : ℕ → Mem} {n : ℕ} {r a tb : GefsBptr}
    {bps : List GefsBptr} {ctx : GefsCtx} (h1 : 8 ≤ n) (h2 : n ≤ 32)
    (h : Opened d' readonly heap n r a tb bps ctx) : Session r ctx (catEs r a) 4 := by
  refine ⟨h.ok, h.catalog, fits_catEs r a, catInv_catEs r a, h.active, ?_, ?_, ?_⟩
  · rw [h.snap, h.sb]
    rfl
  · have hn : (Int32.ofNat n).toInt = n := Int32.toInt_ofNat_of_lt (by omega)
    rw [h.arenas, h.sb]
    show (Int32.ofNat n).toInt.toNat ≤ n
    omega
  · rw [h.sb]
    rfl

/-- The counts of the catalog hold through a run exactly as long as no sync of a call finds a block
and no call meets a label that is there. -/
theorem snapCounts_iff {user : Bytes} {d d' : Disk} {fuel : ℕ} {readonly : Bool} {heap : ℕ → Mem}
    {ctx : GefsCtx} (hm : mkfs user d = some d')
    (ho : gefsFsOpen fuel d' readonly heap = some (.ok ctx)) (ops : List SnapOp) :
    (AllSteps (fun ctx op => RoomFor ctx op ∧ KeepsCounts ctx op) ctx ops →
      AllStates Counts ctx ops)
    ∧ (AllSteps RoomFor ctx ops → AllStates Counts ctx ops → AllSteps KeepsCounts ctx ops) := by
  obtain ⟨r, a, u, tb, nu, bps, hf⟩ := mkfs_formatted hm
  obtain ⟨ctx0, he, hopen⟩ := gefsFsOpen_formatted hf ho
  obtain rfl : ctx = ctx0 := by simpa using he
  obtain ⟨h1, h2⟩ := reamNarena_bounds d.size
  have hs := session_opened h1 h2 hopen
  refine ⟨allStates_of_keeps ops hs (esCounts_catEs r a) ?_, keeps_of_allStates ops hs⟩
  rw [look_catEs_snap]
  rfl

/-! ## One snapshot of a blank image -/

/-- The label `a`. -/
def lblA : CStr := ⟨[0x61], by simp⟩

theorem room_catEs (r a : GefsBptr) : room (catEs r a) = 333 := by
  simp [room, catEs, kvSize, gefsPacksnap, lblAdm, lblEmpty, lblMain]

/-- There is room for it, and for its sync. -/
theorem fits_first (r a : GefsBptr) (ctx : GefsCtx) :
    Fits (merged (catEs r a) ((SnapOp.create lblA false).batch ctx))
      ∧ Fits (merged (merged (catEs r a) ((SnapOp.create lblA false).batch ctx))
        (syncBatch ctx.activeTree)) := by
  have hl : gefsLeafspc = 16378 := rfl
  have h1 := room_merged_le (catEs r a) ((SnapOp.create lblA false).batch ctx)
  have h2 := room_merged_le (merged (catEs r a) ((SnapOp.create lblA false).batch ctx))
    (syncBatch ctx.activeTree)
  have e1 : room (((SnapOp.create lblA false).batch ctx).flatMap
      (putOf GefsMsg.k GefsMsg.eff)) = 108 := by
    simp [room, SnapOp.batch, putOf, GefsMsg.eff, kvSize, gefsPacksnap, lblA]
  have e2 : room ((syncBatch ctx.activeTree).flatMap (putOf GefsMsg.k GefsMsg.eff)) = 87 := by
    simp [room, syncBatch, putOf, GefsMsg.eff, kvSize, gefsPacksnap]
  rw [room_catEs, e1] at h1
  rw [e2] at h2
  rw [fits_iff_room, fits_iff_room]
  omega

/-- The first snapshot of the blank image is made, and leaves counts that are wrong. -/
theorem create_blank {d' : Disk} {r a tb : GefsBptr} {bps : List GefsBptr} {ctx : GefsCtx}
    (ho : Opened d' false (fun _ _ => 0) 8 r a tb bps ctx) (hb : Bump 0 ctx) :
    ∃ ctx', run sysStep (SnapOp.create lblA false).prog ctx = some (.ok (), ctx')
      ∧ ¬ Counts ctx' := by
  have hs := session_opened (by omega) (by omega) ho
  obtain ⟨hf1, hf2⟩ := fits_first r a ctx
  have hg : ctx.snapTree.gen ≠ ctx.activeTree.gen := by
    rw [hs.gen, hs.active]
    exact (by decide : (0 : Int64) ≠ 3)
  obtain ⟨ctx', hr⟩ := run_create_ok hs.ok hs.cat hg hb.ro hs.lens (by decide) hf1 hf2
    (hb.canAlloc (by omega))
  refine ⟨ctx', hr, ?_⟩
  rw [(hs.step hf1 hf2 hr).counts_iff]
  exact hs.breaks hf2 (esCounts_catEs r a) (.inl (hb.canAllocTwo (by omega)))

theorem snapCounts_blank : ∃ d' ctx, mkfs [] blankImage = some d'
    ∧ gefsFsOpen 3 d' false (fun _ _ => 0) = some (.ok ctx)
    ∧ ¬ AllSteps (fun ctx op => RoomFor ctx op ∧ KeepsCounts ctx op) ctx [.create lblA false] := by
  obtain ⟨d', r, a, u, tb, nu, bps, ctx, hm, -, hopen, ho, hb⟩ := mount_blank
  obtain ⟨ctx', hr, hno⟩ := create_blank ho hb
  exact ⟨d', ctx, hm, hopen, fun h =>
    hno (((snapCounts_iff hm hopen [.create lblA false]).1 h).2 ctx' hr)⟩

/-- One label made on the blank image. -/
theorem not_forall_snapCounts :
    ¬ ∀ (user : Bytes) (d d' : Disk) (fuel : ℕ) (readonly : Bool) (heap : ℕ → Mem) (ctx : GefsCtx),
      mkfs user d = some d' → gefsFsOpen fuel d' readonly heap = some (.ok ctx) →
      ∀ ops, AllStates Counts ctx ops := by
  intro h
  obtain ⟨d', r, a, u, tb, nu, bps, ctx, hm, -, hopen, ho, hb⟩ := mount_blank
  obtain ⟨ctx', hr, hno⟩ := create_blank ho hb
  exact hno ((h _ _ _ _ _ _ _ hm hopen [.create lblA false]).2 ctx' hr)

end GefsFuse
