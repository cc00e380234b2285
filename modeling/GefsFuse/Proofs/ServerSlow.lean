import GefsFuse.Proofs.ServerBalance
import GefsFuse.Proofs.ServerFill

/-!
# The slow way into the root

`updatepiv` merges the buffer of a pivot with the batch above it. Where it pulls the whole batch it
leaves what `fastupsert` leaves, the stable merge of both. It takes the size of the message pulled
last off the room twice, and so may stop early (`Spare`).
-/

namespace GefsFuse.Server.Btree

open Effects Stable

/-- The messages of the batch, in order, that are pulled with `spc` bytes of room: while some of
`own` is above the last one pulled, that one counts twice. -/
def Spare (own : List GefsMsg) (spc : ℤ) (us : List GefsMsg) : Prop :=
  ∀ l u u' r, us = l ++ u :: u' :: r → u.k ≠ u'.k → (∃ m ∈ own, u.k < m.k) →
    (msgSum l + 2 * msgsz u + msgsz u' : ℤ) ≤ spc

/-- The next message has room with `sz` bytes counted twice. -/
def NextFits (own : List GefsMsg) (spc sz : ℤ) (us : List GefsMsg) : Prop :=
  own ≠ [] → ∀ u ∈ us.head?, (msgsz u : ℤ) ≤ spc - sz

section Pull

variable {s : St} {w : Pulling} {own us : List GefsMsg} {k : Bytes} {u : GefsMsg}

/-- The messages `l` pulled. -/
def Pulling.took (w : Pulling) (l : List GefsMsg) : Pulling :=
  { w with
    n := { w.n with msgs := w.n.msgs ++ l }
    spc := w.spc - msgSum l
    sz := (l.getLast?.map msgsz).getD w.sz
    pulled := w.pulled + l.length
    pullsz := w.pullsz + msgSum l }

/-- There is room for `l` in the node. -/
def Pulling.Room (w : Pulling) (l : List GefsMsg) : Prop :=
  w.n.pivot = true ∧ msgSum w.n.msgs + msgSum l ≤ gefsBufspc

theorem took_nil (w : Pulling) : w.took [] = w := by
  simp [Pulling.took]

theorem took_took (w : Pulling) (u : GefsMsg) (l : List GefsMsg) :
    (w.took [u]).took l = w.took (u :: l) := by
  unfold Pulling.took
  simp [List.getLast?_cons, sub_sub, add_assoc, add_comm 1]

theorem Pulling.Room.took {l r : List GefsMsg} (h : w.Room (l ++ r)) : (w.took l).Room r := by
  refine ⟨h.1, ?_⟩
  have := h.2
  simp only [Pulling.took, msgSum_append] at this ⊢
  omega

theorem seven_le_msgsz (m : GefsMsg) : 7 ≤ msgsz m := by
  unfold msgsz
  omega

theorem exec_setmsg_room {n : Node} {m : GefsMsg} (hp : n.pivot = true)
    (h : msgSum n.msgs + msgsz m ≤ gefsBufspc) :
    exec (setmsg n m) s = (.ok { n with msgs := n.msgs ++ [m] }, s) := by
  refine exec_setmsg hp ?_
  have := buffill_eq n
  have := seven_le_msgsz m
  unfold buffill at *
  omega

theorem exec_pull (h : w.Room [u]) : exec (w.pull u) s = (.ok (w.took [u]), s) := by
  unfold Pulling.pull
  rw [exec_bind_ok (exec_setmsg_room h.1 (by simpa using h.2))]
  simp [Pulling.took]

theorem exec_pullrun : ∀ {us : List GefsMsg} {w : Pulling}, w.full = false → w.Room us →
    (msgSum us : ℤ) ≤ w.spc →
    exec (pullrun k us w) s
      = (.ok (us.dropWhile (k = ·.k), w.took (us.takeWhile (k = ·.k))), s)
  | [], w, _, _, _ => by simp [pullrun, took_nil]
  | u :: us, w, hf, hr, hs => by
    have hu : (msgsz u : ℤ) ≤ w.spc := by
      simp only [msgSum_cons] at hs
      omega
    have hw : ({ w with full := false } : Pulling) = w := by rw [← hf]
    unfold pullrun pullmsg
    simp only [hf, Bool.false_eq_true, if_false, if_pos hu, gefsKeycmp_eq_zero]
    by_cases hk : k = u.k
    · have h1 : w.Room [u] := ⟨hr.1, by
        have := hr.2
        simp only [msgSum_cons, msgSum_nil] at this ⊢
        omega⟩
      have ih := @exec_pullrun us (w.took [u]) hf (Pulling.Room.took (l := [u]) hr) (by
        simp only [Pulling.took, msgSum_cons, msgSum_nil] at hs ⊢
        push_cast at hs ⊢
        omega)
      rw [if_pos hk, hw, exec_bind_ok (exec_pull h1), ih, took_took]
      simp [← hk]
    · rw [if_neg hk, hw]
      simp [hk, took_nil]

theorem exec_pullrest : ∀ {us : List GefsMsg} {w : Pulling}, w.full = false → w.Room us →
    (msgSum us : ℤ) ≤ w.spc → exec (pullrest us w) s = (.ok (w.took us), s)
  | [], w, _, _, _ => by simp [pullrest, took_nil]
  | u :: us, w, hf, hr, hs => by
    have hu : (msgsz u : ℤ) ≤ w.spc := by
      simp only [msgSum_cons] at hs
      omega
    have h1 : w.Room [u] := ⟨hr.1, by
      have := hr.2
      simp only [msgSum_cons, msgSum_nil] at this ⊢
      omega⟩
    have ih := @exec_pullrest us (w.took [u]) hf (Pulling.Room.took (l := [u]) hr) (by
      simp only [Pulling.took, msgSum_cons, msgSum_nil] at hs ⊢
      push_cast at hs ⊢
      omega)
    unfold pullrest pullmsg
    simp only [hf, Bool.false_eq_true, if_false, if_pos hu]
    rw [exec_bind_ok (exec_pull h1), ih, took_took]

/-- Once the room is taken for used up, the pivot's own messages are copied and no more is pulled. -/
theorem exec_updatepivMsgs_full : ∀ {own : List GefsMsg} {w : Pulling} {fuel : ℕ}, w.full = true →
    w.Room own → own.length ≤ fuel →
    exec (updatepivMsgs fuel own us w) s
      = (.ok { w with n := { w.n with msgs := w.n.msgs ++ own } }, s)
  | [], w, fuel, hf, hr, _ => by
    have hw : ({ w with full := true } : Pulling) = w := by rw [← hf]
    unfold updatepivMsgs pullrest pullmsg
    cases us with
    | nil => simp
    | cons u us => simp [hf, hw]
  | m :: own, w, 0, _, _, hl => by simp at hl
  | m :: own, w, fuel + 1, hf, hr, hl => by
    have h1 : msgSum w.n.msgs + msgsz m ≤ gefsBufspc := by
      have := hr.2
      simp only [msgSum_cons] at this
      omega
    have ih := @exec_updatepivMsgs_full own
      { w with n := { w.n with msgs := w.n.msgs ++ [m] }, full := true } fuel rfl
      ⟨hr.1, by
        have := hr.2
        simp only [msgSum_cons, msgSum_append, msgSum_nil] at this ⊢
        omega⟩ (by simpa using hl)
    have hp : pullmsg (some m.k) w.full (w.spc - w.sz) us = (-1, true) := by
      unfold pullmsg
      cases us <;> simp [hf]
    unfold updatepivMsgs
    rw [hp]
    simp only
    rw [exec_bind_ok (exec_setmsg_room hr.1 h1), ih]
    simp [hf]

end Pull

section Spare

variable {own g rest us : List GefsMsg} {spc : ℤ} {m x : GefsMsg} {k : Bytes}

/-- A message that is not above any of the batch does not matter. -/
theorem spare_cons (h : ∀ u ∈ us, m.k ≤ u.k) : Spare (m :: own) spc us ↔ Spare own spc us := by
  refine forall_congr' fun l => forall_congr' fun u => forall_congr' fun u' => forall_congr' fun r =>
    forall_congr' fun hus => forall_congr' fun _ => ?_
  have hu : ¬ u.k < m.k := not_lt.2 (h u (by simp [hus]))
  simp [hu]

/-- Within a run on one key nothing counts twice; behind it the run's last message does. -/
theorem spare_append (hg : ∀ y ∈ g ++ [x], y.k = k) (hr : ∀ u ∈ rest.head?, u.k ≠ k)
    (hm : ∃ m ∈ own, k < m.k) : Spare own spc (g ++ [x] ++ rest) ↔
      NextFits own (spc - msgSum (g ++ [x])) (msgsz x) rest
        ∧ Spare own (spc - msgSum (g ++ [x])) rest := by
  have hxk : x.k = k := hg x (by simp)
  constructor
  · intro h
    constructor
    · rintro - u hu
      rcases rest with _ | ⟨u', rest⟩
      · cases hu
      obtain rfl := Option.some.inj hu
      have := h g x u' rest (by simp) (by rw [hxk]; exact (hr u' rfl).symm) (by rwa [hxk])
      simp only [msgSum_append, msgSum_cons, msgSum_nil]
      push_cast
      omega
    · rintro l u u' r rfl hne hown
      have := h (g ++ [x] ++ l) u u' r (by simp) hne hown
      rw [msgSum_append] at this
      push_cast at this
      omega
  · rintro ⟨hnext, h⟩ l u u' r he hne hown
    rcases List.append_eq_append_iff.1 he with ⟨a, rfl, ha⟩ | ⟨c, hc, hrest⟩
    · have := h a u u' r ha hne hown
      rw [msgSum_append]
      push_cast
      omega
    · rcases c with _ | ⟨y, _ | ⟨z, c⟩⟩
      · have := h [] u u' r hrest.symm hne hown
        rw [List.append_nil] at hc
        rw [hc] at this
        simp only [msgSum_nil] at this
        push_cast at this
        omega
      · obtain ⟨rfl, hxy⟩ := List.append_inj' hc rfl
        obtain rfl := List.singleton_inj.1 hxy
        obtain ⟨rfl, rfl⟩ := List.cons.inj hrest
        obtain ⟨m, hmem, -⟩ := hown
        have := hnext (List.ne_nil_of_mem hmem) u' rfl
        simp only [msgSum_append, msgSum_cons, msgSum_nil] at this
        push_cast at this
        omega
      · obtain ⟨hu, hrest'⟩ := List.cons.inj hrest
        obtain ⟨hu', -⟩ := List.cons.inj hrest'
        rw [hc] at hg
        exact absurd ((hg u (by simp [hu])).trans (hg u' (by simp [hu'])).symm) hne

end Spare

section Merge

variable {s : St}

/-- How the loop ends that was started with `w`. -/
structure Ended (w w' : Pulling) (own us : List GefsMsg) : Prop where
  whole : w'.pulled = w.pulled + us.length ↔ NextFits own w.spc w.sz us ∧ Spare own w.spc us
  msgs : w'.pulled = w.pulled + us.length →
    w'.n.msgs = w.n.msgs ++ Stable.merge GefsMsg.k own us
  vals : w'.n.vals = w.n.vals

/-- With none of the pivot's own messages left the rest of the batch is pulled. -/
theorem ended_rest (w : Pulling) (us : List GefsMsg) : Ended w (w.took us) [] us := by
  refine ⟨⟨fun _ => ⟨by simp [NextFits], by simp [Spare]⟩, fun _ => rfl⟩, fun _ => ?_, rfl⟩
  simp [Pulling.took]

/-- The whole batch is pulled exactly where there is room with the last message counted twice, and
then the node holds the merge. -/
theorem exec_updatepivMsgs : ∀ {fuel : ℕ} {own us : List GefsMsg} {w : Pulling},
    own.length + us.length ≤ fuel → Sorted GefsMsg.k own → Sorted GefsMsg.k us →
    (∀ u ∈ us, u.k.length + u.v.length ≤ msgmax) → w.full = false → w.Room (own ++ us) →
    (msgSum us : ℤ) ≤ w.spc →
    ∃ w', exec (updatepivMsgs fuel own us w) s = (.ok w', s) ∧ Ended w w' own us := by
  intro fuel
  induction fuel with
  | zero =>
    intro own us w hl _ _ _ hf hr hs
    obtain rfl : own = [] := List.length_eq_zero_iff.1 (by omega)
    refine ⟨w.took us, ?_, ended_rest w us⟩
    unfold updatepivMsgs
    exact exec_pullrest hf hr hs
  | succ fuel ih =>
    intro own us w hl hown hus hsmall hf hr hs
    rcases own with _ | ⟨m, own⟩
    · refine ⟨w.took us, ?_, ended_rest w us⟩
      unfold updatepivMsgs
      exact exec_pullrest hf hr hs
    obtain ⟨hm, hown'⟩ := List.pairwise_cons.1 hown
    have hroom := hr.2
    simp only [List.cons_append, msgSum_cons, msgSum_append] at hroom
    have hset := @exec_setmsg_room s w.n m hr.1 (by omega)
    -- the message `m` of the pivot is copied
    have hcopy : (∀ u ∈ us, m.k ≤ u.k) → (∀ u ∈ us.head?, (msgsz u : ℤ) ≤ w.spc - w.sz) →
        ∃ w', exec (updatepivMsgs fuel own us
          { w with n := { w.n with msgs := w.n.msgs ++ [m] }, full := false }) s = (.ok w', s)
          ∧ Ended w w' (m :: own) us := by
      intro hle hfit
      obtain ⟨w', hw', hiff, hmsgs, hvals⟩ := @ih own us
        { w with n := { w.n with msgs := w.n.msgs ++ [m] }, full := false } (by simp at hl; omega)
        hown' hus hsmall rfl ⟨hr.1, by simp only [msgSum_append, msgSum_cons, msgSum_nil]; omega⟩ hs
      refine ⟨w', hw', ?_, fun hp => ?_, hvals⟩
      · rw [hiff, spare_cons hle]
        exact and_congr_left fun _ => ⟨fun _ _ => hfit, fun _ _ => hfit⟩
      · rw [hmsgs hp, merge_cons_of_le hle]
        simp
    rcases us with _ | ⟨u, us⟩
    · obtain ⟨w', hw', he⟩ := hcopy (by simp) (by simp)
      refine ⟨w', ?_, he⟩
      unfold updatepivMsgs pullmsg
      rw [hf]
      simp only
      rw [exec_bind_ok hset, hw']
    by_cases hfit : (msgsz u : ℤ) ≤ w.spc - w.sz
    · have hpull : pullmsg (some m.k) w.full (w.spc - w.sz) (u :: us)
          = (gefsKeycmp m.k u.k, false) := by
        simp [pullmsg, hf, hfit]
      rcases le_or_gt m.k u.k with hle | hlt
      · obtain ⟨w', hw', he⟩ := hcopy (fun x hx => by
          rcases List.mem_cons.1 hx with rfl | hx
          · exact hle
          · exact hle.trans (List.rel_of_pairwise_cons hus hx)) (by simpa using hfit)
        refine ⟨w', ?_, he⟩
        have hc : gefsKeycmp m.k u.k = -1 ∨ gefsKeycmp m.k u.k = 0 := by
          rw [gefsKeycmp_eq]
          split_ifs with h1 h2
          · exact .inl rfl
          · exact .inr rfl
          · exact absurd (lt_of_le_of_ne hle h2) h1
        unfold updatepivMsgs
        rw [hpull]
        rcases hc with hc | hc <;> rw [hc] <;> simp only <;> rw [exec_bind_ok hset, hw']
      · -- the run on the key of `u` goes first
        have hc : gefsKeycmp m.k u.k = 1 := gefsKeycmp_eq_one.2 hlt
        have hcp : gefsCpkvp (u.k, u.v) msgmax = some (u.k, u.v) :=
          if_pos (hsmall u List.mem_cons_self)
        have hrun := @exec_pullrun s u.k (u :: us) { w with full := false } rfl
          ⟨hr.1, by simp only [msgSum_cons] at hroom ⊢; omega⟩ hs
        have hsplit : (u :: us).takeWhile (u.k = ·.k) ++ (u :: us).dropWhile (u.k = ·.k) = u :: us :=
          List.takeWhile_append_dropWhile
        have htake : ∀ y ∈ (u :: us).takeWhile (u.k = ·.k), y.k = u.k := fun y hy => by
          have := List.mem_takeWhile_imp hy
          simpa using (by simpa using this : u.k = y.k).symm
        have hhead : ∀ y ∈ ((u :: us).dropWhile (u.k = ·.k)).head?, y.k ≠ u.k := by
          intro y hy
          rcases hd : (u :: us).dropWhile (u.k = ·.k) with _ | ⟨z, r⟩
          · rw [hd] at hy
            cases hy
          · rw [hd] at hy
            obtain rfl := Option.some.inj hy
            have := List.head_dropWhile_not (fun x : GefsMsg => decide (u.k = x.k)) (l := u :: us)
              (by simp [hd])
            simp only [hd, List.head_cons, decide_eq_false_iff_not] at this
            exact fun he => this he.symm
        obtain ⟨g, x, hgx⟩ : ∃ g x, (u :: us).takeWhile (u.k = ·.k) = g ++ [x] := by
          refine ⟨_, _, (List.dropLast_append_getLast ?_).symm⟩
          simp
        rw [hgx] at hsplit hrun htake
        generalize (u :: us).dropWhile (u.k = ·.k) = rest at hsplit hrun hhead
        have hlen := congrArg List.length hsplit
        have hsum := congrArg msgSum hsplit
        simp only [List.length_append, List.length_cons, msgSum_append, msgSum_cons, msgSum_nil]
          at hlen hsum
        obtain ⟨w', hw', hiff, hmsgs, hvals⟩ := @ih (m :: own) rest
          (({ w with full := false } : Pulling).took (g ++ [x])) (by
            simp only [List.length_cons] at hl ⊢
            omega) hown (hus.sublist (hsplit ▸ List.sublist_append_right _ _))
          (fun y hy => hsmall y (hsplit ▸ List.mem_append_right _ hy)) rfl (by
            refine ⟨hr.1, ?_⟩
            simp only [Pulling.took, List.cons_append, msgSum_append, msgSum_cons, msgSum_nil]
              at hroom ⊢
            omega) (by
            simp only [Pulling.took, msgSum_append, msgSum_cons, msgSum_nil] at hs ⊢
            push_cast at hs ⊢
            omega)
        have hpulled : (({ w with full := false } : Pulling).took (g ++ [x])).pulled + rest.length
            = w.pulled + (u :: us).length := by
          simp only [Pulling.took, List.length_append, List.length_cons]
          omega
        rw [hpulled] at hiff hmsgs
        refine ⟨w', ?_, ?_, fun hp => ?_, hvals⟩
        · unfold updatepivMsgs
          rw [hpull, hc]
          simp only
          rw [hcp]
          simp only [must, pure_bind]
          rw [exec_bind_ok hrun, hw']
        · rw [hiff, ← hsplit, spare_append htake hhead ⟨m, List.mem_cons_self, hlt⟩]
          have hnext : NextFits (m :: own) w.spc w.sz (g ++ [x] ++ rest) := by
            rw [hsplit]
            intro _ y hy
            obtain rfl := Option.some.inj hy
            exact hfit
          have hsz : (({ w with full := false } : Pulling).took (g ++ [x])).sz = msgsz x := by
            simp [Pulling.took]
          rw [hsz]
          exact (and_iff_right hnext).symm
        · rw [hmsgs hp, ← hsplit, merge_append_of_lt fun y hy z hz => ?_]
          · simp [Pulling.took]
          · rw [htake y hy]
            rcases List.mem_cons.1 hz with rfl | hz
            · exact hlt
            · exact hlt.trans_le (hm z hz)
    · -- there is no room with the last message counted twice
      have hpull : pullmsg (some m.k) w.full (w.spc - w.sz) (u :: us) = (-1, true) := by
        simp [pullmsg, hf, hfit]
      refine ⟨{ w with n := { w.n with msgs := w.n.msgs ++ [m] ++ own }, full := true }, ?_, ?_,
        fun hp => ?_, rfl⟩
      · unfold updatepivMsgs
        rw [hpull]
        simp only
        rw [exec_bind_ok hset]
        exact exec_updatepivMsgs_full rfl ⟨hr.1, by
          simp only [msgSum_append, msgSum_cons, msgSum_nil]
          omega⟩ (by simp at hl; omega)
      · simp only [List.length_cons]
        refine ⟨fun h => by omega, fun h => absurd ?_ hfit⟩
        exact h.1 (List.cons_ne_nil _ _) u rfl
      · simp only [List.length_cons] at hp
        omega

end Merge

section Root

variable {E : Env} {s : St} {b : Node} {ms : List GefsMsg} {a : Int64}

theorem exec_setval_room {n : Node} {kv : GefsKvp} (h : n.used + valsz kv ≤ n.spc) :
    exec (setval n kv) s = (.ok (n.addVal kv), s) := by
  have hu := used_eq n
  have hz : valsz kv = 2 + 2 + kv.1.length + 2 + kv.2.length := rfl
  unfold setval
  simp only
  rw [if_pos (by omega)]
  rfl

/-- Without a child rewritten below, the values are copied. -/
theorem exec_updatepivVals_none {p : Path} : ∀ {vs : List GefsKvp} {i : ℕ} {n : Node},
    n.used + valSum vs ≤ n.spc →
    exec (updatepivVals p none i vs n) s = (.ok { n with vals := n.vals ++ vs }, s)
  | [], i, n, _ => by simp [updatepivVals]
  | v :: vs, i, n, h => by
    simp only [valSum_cons] at h
    have ih := @exec_updatepivVals_none p vs (i + 1) (n.addVal v) (by
      rw [addVal_used, addVal_spc]
      omega)
    unfold updatepivVals
    simp only
    rw [exec_bind_ok (exec_setval_room (by omega)), ih]
    simp [Node.addVal]

/-- The path of a batch of which nothing is pulled yet. -/
def batchPath (ms : List GefsMsg) : Path :=
  { zeroPath with ins := some ms, idx := -1, midx := -1, lo := 0, hi := ms.length, sz := msgSum ms }

/-- The path of a root that ends there. -/
def rootPath (b : Node) : Path :=
  { zeroPath with b := some b, idx := -1, midx := -1, lo := -1, hi := -1 }

theorem range_batchPath (ms : List GefsMsg) : (batchPath ms).range = ms := by
  simp [Path.range, batchPath]

/-- A pivot at the root, its buffer in order. -/
structure RootPivot (b : Node) : Prop where
  pivot : b.pivot = true
  fits : b.Fits
  vals : b.vals ≠ []
  sorted : Sorted GefsMsg.k b.msgs

/-- A batch in order that goes into the root at once. -/
structure Fitting (b : Node) (ms : List GefsMsg) : Prop where
  sorted : Sorted GefsMsg.k ms
  short : ∀ m ∈ ms, m.k.length ≤ gefsKeymax ∧ m.v.length ≤ gefsInlmax
  room : filledbuf b ms.length (ms.map msgsz).sum = false

theorem Fitting.le (h : Fitting b ms) : buffill b + 2 * ms.length + msgSum ms ≤ gefsBufspc := by
  have := h.room
  simp only [filledbuf, decide_eq_false_iff_not, not_lt] at this
  unfold buffill msgSum
  omega

/-- A block with values is put in the cache with its hash. -/
theorem exec_setb {n : Node} (h : n.vals ≠ []) : ∃ s' c, exec (setb E n) s = (.ok (some c), s')
    ∧ c.vals = n.vals ∧ c.msgs = n.msgs := by
  have hn : ¬ n.nval = 0 := fun h0 => h (List.length_eq_zero_iff.1 h0)
  let c : Node := { n with bp := { n.bp with hash := E.hash n } }
  refine ⟨{ s with blks := fun a => if a = n.bp.addr then some c else s.blks a }, c, ?_, rfl, rfl⟩
  unfold setb enqueue
  rw [if_neg hn, exec_map, exec_bind_ok (exec_modify _)]
  rfl

/-- What `updatepiv` makes of a root and a batch, once it has a block. -/
theorem exec_updatepiv_root (hb : RootPivot b) (hms : Fitting b ms) (ha : E.ans s.calls = some a)
    (hl : s.live a = false) : ∃ q s' n, exec (updatepiv E (batchPath ms) (rootPath b) none) s
      = (.ok q, s') ∧ q.nl = some n
    ∧ (q.npull = ms.length ↔ Spare b.msgs (gefsBufspc - buffill b : ℕ) ms)
    ∧ n.vals = b.vals ∧ (q.npull = ms.length → n.msgs = Stable.merge GefsMsg.k b.msgs ms) := by
  have hle := hms.le
  have hfill := buffill_eq b
  obtain ⟨w', hw', hiff, hmsgs, hvals⟩ := @exec_updatepivMsgs
    { s with calls := s.calls + 1, live := fun x => x = a || s.live x } (b.nbuf + ms.length)
    b.msgs ms ⟨⟨⟨a, -1, s.tree.memgen⟩, b.pivot, b.vals, []⟩, false,
      gefsBufspc - buffill b + ((none : Option Path).map Path.pullsz).getD 0, 0, 0, 0⟩ le_rfl
    hb.sorted hms.sorted (fun m hm => by
      obtain ⟨h1, h2⟩ := hms.short m hm
      have : gefsKeymax + gefsInlmax ≤ msgmax := by decide
      omega) rfl ⟨hb.pivot, by
      rw [msgSum_append, ← hfill]
      simp only [msgSum_nil]
      omega⟩ (by
      simp only [Option.map_none, Option.getD_none]
      omega)
  obtain ⟨s', n, hset, hcv, hcm⟩ := @exec_setb E
    { s with calls := s.calls + 1, live := fun x => x = a || s.live x } w'.n (hvals ▸ hb.vals)
  have hspc : (gefsBufspc - buffill b + ((none : Option Path).map Path.pullsz).getD 0 : ℤ)
      = (gefsBufspc - buffill b : ℕ) := by
    simp only [Option.map_none, Option.getD_none]
    omega
  have hnext : NextFits b.msgs (gefsBufspc - buffill b : ℕ) 0 ms := by
    intro _ u hu
    obtain ⟨r, rfl⟩ : ∃ r, ms = u :: r := by
      rcases ms with _ | ⟨x, r⟩
      · cases hu
      · exact ⟨r, by rw [Option.some.inj hu]⟩
    simp only [msgSum_cons] at hle
    omega
  rw [hspc, Nat.cast_zero] at hiff
  refine ⟨{ rootPath b with npull := w'.pulled, pullsz := w'.pullsz, op := .pomod, nl := some n },
    s', n, ?_, rfl, ?_, hcv.trans hvals, fun hp => ?_⟩
  · have hvals0 := @exec_updatepivVals_none
      { s with calls := s.calls + 1, live := fun x => x = a || s.live x } (rootPath b) b.vals 0
      ⟨⟨a, -1, s.tree.memgen⟩, b.pivot, [], []⟩ (by
        have := hb.fits.vals
        rw [used_eq] at this
        change valSum [] + valSum b.vals ≤ b.spc
        rwa [valSum_nil, zero_add])
    have hmust : (must (rootPath b).b : Op Node) = pure b := rfl
    unfold updatepiv
    rw [hmust, pure_bind, exec_bind_ok (exec_newblk ha hl b.pivot), exec_bind_ok hvals0,
      range_batchPath]
    exact (exec_bind_ok hw').trans (exec_bind_ok hset)
  · have hiff' : w'.pulled = 0 + ms.length ↔ _ := hiff
    rw [zero_add] at hiff'
    exact hiff'.trans (and_iff_right hnext)
  · have hp' : w'.pulled = 0 + ms.length := by
      rw [zero_add]
      exact hp
    exact hcm.trans (hmsgs hp')

/-- `fastupsert` leaves a root with the stable merge of the old one's buffer and the batch over the
same children, and `updatepiv` makes the same of the old root as it pulls the whole batch. -/
def SameRoot (E : Env) (s : St) (b : Node) (ms : List GefsMsg) : Prop :=
  let s' := (exec (fastupsert E b ms) s).2
  ∃ r, s'.blks s'.tree.bp.addr = some r ∧ r.vals = b.vals
    ∧ r.msgs = Stable.merge GefsMsg.k b.msgs ms
    ∧ ∃ q s₂ n, exec (updatepiv E (batchPath ms) (rootPath b) none) s = (.ok q, s₂)
      ∧ q.npull = ms.length ∧ q.nl = some n ∧ n.vals = r.vals ∧ n.msgs = r.msgs

theorem freebp_keeps (bp : GefsBptr) :
    (exec (freebp E bp) s).2.blks = s.blks ∧ (exec (freebp E bp) s).2.tree = s.tree := by
  by_cases h : Killed s.tree bp
  · rcases ha : E.ans s.calls with _ | a
    · rw [exec_freebp_none h ha]
      exact ⟨rfl, rfl⟩
    · rw [exec_freebp_some h ha]
      exact ⟨rfl, rfl⟩
  · rw [exec_freebp h]
    exact ⟨rfl, rfl⟩

/-- The root that `fastupsert` leaves. -/
theorem fastupsert_root (hb : RootPivot b) (hms : Fitting b ms) (ha : E.ans s.calls = some a)
    (hl : s.live a = false) :
    let s' := (exec (fastupsert E b ms) s).2
    ∃ r, s'.blks s'.tree.bp.addr = some r ∧ r.vals = b.vals
      ∧ r.msgs = Stable.merge GefsMsg.k b.msgs ms := by
  have hroom : 2 * (b.nbuf + ms.length) + b.bufsz + (ms.map fun m => msgsz m - 2).sum
      ≤ gefsBufspc := by
    have h1 := hms.le
    have h2 : (ms.map fun m => msgsz m - 2).sum ≤ msgSum ms :=
      List.sum_le_sum fun m _ => Nat.sub_le _ _
    unfold buffill at h1
    omega
  obtain ⟨hsort, -, hfilter⟩ := @mergedMsgs_spec b ms hb.sorted
  intro s'
  have hs' : s' = (exec (freeblk E b) (fastSt E s b ms a)).2 := by
    rw [← exec_fastupsert hb.pivot hroom ha hl]
  obtain ⟨hblks, htree⟩ := freebp_keeps (E := E) (s := fastSt E s b ms a) b.bp
  refine ⟨fastRoot E s.tree b ms a, ?_, rfl, eq_merge hb.sorted hms.sorted hsort hfilter⟩
  rw [hs', freeblk, hblks, htree]
  exact if_pos rfl

/-- Both ways make the same root exactly where the last message of each run on one key, counted
twice, leaves room for the next, as far as some of the root's messages are above the run. -/
theorem sameRoot_iff (hb : RootPivot b) (hms : Fitting b ms) (ha : E.ans s.calls = some a)
    (hl : s.live a = false) : SameRoot E s b ms ↔
      ∀ l u u' r, ms = l ++ u :: u' :: r → u.k ≠ u'.k → (∃ m ∈ b.msgs, u.k < m.k) →
        buffill b + msgSum l + 2 * msgsz u + msgsz u' ≤ gefsBufspc := by
  have hle := hms.le
  have hspare : Spare b.msgs (gefsBufspc - buffill b : ℕ) ms ↔
      ∀ l u u' r, ms = l ++ u :: u' :: r → u.k ≠ u'.k → (∃ m ∈ b.msgs, u.k < m.k) →
        buffill b + msgSum l + 2 * msgsz u + msgsz u' ≤ gefsBufspc := by
    refine forall_congr' fun l => forall_congr' fun u => forall_congr' fun u' =>
      forall_congr' fun r => forall_congr' fun _ => forall_congr' fun _ => forall_congr' fun _ => ?_
    omega
  rw [← hspare]
  obtain ⟨q, s₂, n, hq, hn, hwhole, hvals, hmsgs⟩ := exec_updatepiv_root hb hms ha hl
  constructor
  · rintro ⟨r, -, -, -, q', s₃, n', hq', hpull, -⟩
    obtain rfl : q = q' := Except.ok.inj (congrArg Prod.fst (hq.symm.trans hq'))
    exact hwhole.1 hpull
  · intro h
    obtain ⟨r, hr, hrv, hrm⟩ := fastupsert_root hb hms ha hl
    have hp := hwhole.2 h
    exact ⟨r, hr, hrv, hrm, q, s₂, n, hq, hp, hn, hvals.trans hrv.symm, (hmsgs hp).trans hrm.symm⟩

end Root

section Tight

/-- A pivot with fifteen large messages waiting. -/
def tightRoot : Node where
  bp := ⟨32768, 0, 0⟩
  pivot := true
  vals := [([1], entPtr)]
  msgs := (List.range 15).map fun i => ⟨.oinsert, [200 + UInt8.ofNat i], List.replicate 512 0, []⟩

/-- Two messages below them, the first with more than half of the room that is left. -/
def tightBatch : List GefsMsg :=
  [⟨.oinsert, [1], List.replicate 300 0, []⟩, ⟨.oinsert, [2], List.replicate 50 0, []⟩]

theorem rootPivot_small : RootPivot smallRoot where
  pivot := rfl
  fits := fits_smallRoot
  vals := by simp [smallRoot]
  sorted := .nil

theorem rootPivot_tight : RootPivot tightRoot where
  pivot := rfl
  fits := by constructor <;> decide +kernel
  vals := List.cons_ne_nil _ _
  sorted := by
    unfold Sorted
    decide +kernel

theorem fitting_tight : Fitting tightRoot tightBatch where
  sorted := by
    unfold Sorted
    decide +kernel
  short := by decide +kernel
  room := by decide +kernel

theorem sameRoot_small : SameRoot plainEnv (smallSt 2 32768) smallRoot tightBatch := by
  have hms : Fitting smallRoot tightBatch :=
    ⟨fitting_tight.sorted, fitting_tight.short, by decide +kernel⟩
  refine (sameRoot_iff (a := 81920) rootPivot_small hms rfl (by decide)).2 ?_
  rintro l u u' r - - ⟨m, hm, -⟩
  cases hm

/-- The second message does not get in, since the first counts twice. -/
theorem not_forall_sameRoot : ¬ ∀ (E : Env) (s : St) (b : Node) (ms : List GefsMsg) (a : Int64),
    RootPivot b → Fitting b ms → E.ans s.calls = some a → s.live a = false →
    SameRoot E s b ms := by
  intro h
  obtain ⟨q, s₂, n, hq, -, hwhole, -⟩ := exec_updatepiv_root (E := plainEnv)
    (s := smallSt 2 32768) (a := 81920) rootPivot_tight fitting_tight rfl (by decide)
  obtain ⟨r, -, -, -, q', s₃, n', hq', hpull, -⟩ :=
    h plainEnv (smallSt 2 32768) _ _ 81920 rootPivot_tight fitting_tight rfl (by decide)
  obtain rfl : q = q' := Except.ok.inj (congrArg Prod.fst (hq.symm.trans hq'))
  have hsp := hwhole.1 hpull [] _ _ [] rfl (by decide) ⟨_, List.mem_cons_self, by decide +kernel⟩
  have hno : ¬ (msgSum [] + 2 * msgsz ⟨.oinsert, [1], List.replicate 300 0, []⟩
      + msgsz ⟨.oinsert, [2], List.replicate 50 0, []⟩ : ℤ)
      ≤ (gefsBufspc - buffill tightRoot : ℕ) := by
    decide +kernel
  exact hno hsp

end Tight

end GefsFuse.Server.Btree
