import GefsFuse.Proofs.Beps
import GefsFuse.Server.Lookup
import Mathlib.Data.List.DropRight

/-!
# The two lookups compared

Both lookups walk down the same way and apply the same messages in the same order; they differ in
what a message does. After an insertion or a removal both hold the same value, so only the messages
after the last of these count (`live`). The server's wstat bumps a version that the port's never
touches, and the port passes over the messages that rechain snapshots.
-/

namespace GefsFuse

open ByteMem SortedMap

/-! ## The server's messages -/

section Server

variable {nbuf : ℕ} {k : Bytes}

/-- What a message of the server does to the value under `k`; none where the server stops. -/
def serverEff (nbuf : ℕ) (k : Bytes) (v : Option Bytes) (m : GefsMsg) : Option (Option Bytes) :=
  match m.op with
  | .oinsert => if k.length + m.v.length ≤ nbuf then some (some m.v) else none
  | .oclearb | .oclobber => some none
  | .odelete => if v.isSome then some none else none
  | .owstat => v.bind fun v => (Server.statupdate (k, v) m).map fun kv => some kv.2
  | .orelink | .oreprev => v.bind fun v => (Server.relink (k, v) m).map fun kv => some kv.2
  | _ => none

/-- The value under `k` for the server. -/
def serverGet (nbuf : ℕ) (n : ℕ) (T : Beps n) (k : Bytes) : Option (Option Bytes) :=
  (msgsOn n T k).foldlM (serverEff nbuf k) (leafVal n T k)

theorem Server.statupdate_key {kv kv' : GefsKvp} {m : GefsMsg}
    (h : Server.statupdate kv m = some kv') : kv'.1 = kv.1 := by
  unfold Server.statupdate at h
  obtain ⟨op, -, h⟩ := Option.bind_eq_some_iff.1 h
  obtain ⟨d, -, h⟩ := Option.bind_eq_some_iff.1 h
  simp only at h
  split_ifs at h
  obtain ⟨x, -, h⟩ := Option.bind_eq_some_iff.1 h
  rw [← Option.some.inj h]

theorem Server.relink_key {kv kv' : GefsKvp} {m : GefsMsg} (h : Server.relink kv m = some kv') :
    kv'.1 = kv.1 := by
  unfold Server.relink at h
  obtain ⟨t, -, h⟩ := Option.bind_eq_some_iff.1 h
  simp only at h
  split_ifs at h <;> rw [← Option.some.inj h]

theorem does_apply : Does k (serverEff nbuf k) fun s m => Server.apply s.2 m nbuf := by
  intro v v' s m hr hk he
  obtain ⟨h1, h2⟩ := hr
  show ∃ s', Server.apply s.2 m nbuf = some s' ∧ Rep k v' s'
  unfold serverEff at he
  unfold Server.apply
  cases hop : m.op <;> rw [hop] at he <;> simp only at he ⊢
  case oinsert =>
    split_ifs at he with hlen
    obtain rfl := Option.some.inj he
    refine ⟨(true, some (m.k, m.v)), ?_, rfl, ?_⟩
    · unfold gefsCpkvp
      rw [hk, if_pos hlen]
      rfl
    · intro w hw
      rw [hk, Option.some.inj hw]
  case odelete =>
    split_ifs at he with hv
    obtain rfl := Option.some.inj he
    obtain ⟨w, rfl⟩ := Option.isSome_iff_exists.1 hv
    rw [h2 w rfl]
    refine ⟨(false, some (k, w)), ?_, rfl, by simp⟩
    simp [gefsKeycmp_eq_zero.2 hk.symm]
  case oclearb | oclobber =>
    obtain rfl := Option.some.inj he
    exact ⟨_, rfl, rfl, by simp⟩
  case owstat =>
    obtain ⟨w, rfl, he⟩ := Option.bind_eq_some_iff.1 he
    obtain ⟨kv, hst, rfl⟩ := Option.map_eq_some_iff.1 he
    have hkv : kv.1 = k := Server.statupdate_key hst
    rw [h2 w rfl]
    refine ⟨(true, some kv), ?_, rfl, ?_⟩
    · simp [gefsKeycmp_eq_zero.2 hk.symm, hst]
    · rintro u hu
      rw [← Option.some.inj hu, ← hkv]
  case orelink | oreprev =>
    obtain ⟨w, rfl, he⟩ := Option.bind_eq_some_iff.1 he
    obtain ⟨kv, hst, rfl⟩ := Option.map_eq_some_iff.1 he
    have hkv : kv.1 = k := Server.relink_key hst
    rw [h2 w rfl]
    refine ⟨(true, some kv), ?_, rfl, ?_⟩
    · simp [hst]
    · rintro u hu
      rw [← Option.some.inj hu, ← hkv]
  all_goals simp at he

theorem does_applyFirst : Does k (serverEff nbuf k) fun s m => Server.applyFirst s m nbuf := by
  intro v v' s m hr hk he
  show ∃ s', Server.applyFirst s m nbuf = some s' ∧ Rep k v' s'
  unfold Server.applyFirst
  split_ifs with hc hcl
  · exact does_apply v v' s m hr hk he
  all_goals
    rw [not_or] at hc
    have hv : v = none := by
      rw [← Option.not_isSome_iff_eq_none, ← hr.1]
      exact hc.1
    subst hv
    unfold serverEff at he
  · refine ⟨s, rfl, ?_⟩
    have hv' : v' = none := by
      rcases hcl with hop | hop <;> rw [hop] at he <;> simpa using he.symm
    rw [hv']
    exact hr
  · cases hop : m.op <;> rw [hop] at he <;> simp_all

theorem server_applyRun_eq (c : Content) : ∀ (n j : ℕ) (r : Bool × Option GefsKvp),
    Server.applyRun c k nbuf n j r = runWith (fun s m => Server.apply s.2 m nbuf) c k n j r
  | 0, _, _ => rfl
  | n + 1, j, r => by
    unfold Server.applyRun runWith
    split_ifs
    · simp only [Option.bind_eq_bind]
      congr 1
      funext r
      exact server_applyRun_eq c n (j + 1) r
    · rfl

theorem server_applyPivot_eq (c : Content) (s : Bool × Option GefsKvp) :
    Server.applyPivot c k nbuf s = pivotWith (fun s m => Server.applyFirst s m nbuf)
      (fun s m => Server.apply s.2 m nbuf) k c s := by
  unfold Server.applyPivot pivotWith
  rcases bufsearch c k with ⟨j, _ | _, _ | m⟩ <;> try rfl
  simp only [server_applyRun_eq]

/-! ## The server's lookup -/

variable {get : GefsBptr → Option Content}

/-- The blocks the server reads under `bp` are those of the tree. -/
def Server.TreeIn (get : GefsBptr → Option Content) : (n : ℕ) → Beps n → GefsBptr → Prop
  | 0, es, bp => ∃ c, get bp = some c ∧ IsLeaf es c
  | n + 1, (cs, ms), bp =>
    (∃ c, get bp = some c ∧ IsPivot (cs.map (·.1)) ms c)
      ∧ ∀ c ∈ cs, ∃ bp', valBptr c.1.2 = some bp' ∧ Server.TreeIn get n c.2 bp'

theorem Server.TreeIn.top : ∀ {n : ℕ} {T : Beps n} {bp : GefsBptr},
    Server.TreeIn get n T bp → ∃ c, get bp = some c ∧ IsTop n T c
  | 0, _, _, h => h
  | _ + 1, (_, _), _, h => h.1

theorem server_descend_spec (k : Bytes) : ∀ {n : ℕ} {T : Beps n} {lo hi : Option Bytes}
    {bp : GefsBptr} {b : Content} (p : List Content) (r : Option GefsKvp),
    Server.TreeIn get n T bp → Ordered n T lo hi → IsTop n T b →
    ∃ q bottom r', Server.descend get k n b (b :: p) r = some (q ++ p, bottom, r')
      ∧ IsWay n T k q bottom
  | 0, es, _, _, bp, b, p, r, _, ⟨hs, _⟩, hb =>
    ⟨[b], true, r, rfl, [], [], .nil, rfl, .inl ⟨rfl, b, es, rfl, hb, hs, rfl⟩⟩
  | n + 1, (cs, ms), _, _, bp, b, p, r, ⟨_, hch⟩, ⟨hs, _, hms, _, hord⟩, hb => by
    have hm : HasMsgs b ms := ⟨hms, _, hb⟩
    unfold Server.descend
    rcases blksearch_childOf hb hs k with ⟨j, d, same, hj, -, -, hc, h⟩ | ⟨-, hc, h⟩
    · obtain ⟨bp', hbp, hin⟩ := hch d (List.mem_of_getElem? hj)
      obtain ⟨c, hget, hc'⟩ := hin.top
      obtain ⟨q, bottom, r', hd, pivs, mss, hf, hflat, hend⟩ :=
        server_descend_spec k (b :: p) (some d.1) hin (hord j d hj) hc'
      refine ⟨q ++ [b], bottom, r', ?_, pivs ++ [b], mss ++ [ms], ?_, ?_, ?_⟩
      · simp only [h, hbp, Option.bind_eq_bind, Option.bind_some, hget, hd, List.append_assoc,
          List.singleton_append]
      · exact List.rel_append hf (.cons hm .nil)
      · simp only [List.map_append, List.map_cons, List.map_nil, List.flatten_append, hflat, msgsOn,
          hc, List.flatten_cons, List.flatten_nil, List.append_nil]
      · simp only [leafVal, hc]
        rcases hend with ⟨hb1, lf, es, hq1, hrest⟩ | ⟨hb1, hq1, hrest⟩
        · exact .inl ⟨hb1, lf, es, by rw [hq1]; rfl, hrest⟩
        · exact .inr ⟨hb1, by rw [hq1], hrest⟩
    · refine ⟨[b], false, r, ?_, [b], [ms], .cons hm .nil, ?_, .inr ⟨rfl, rfl, ?_⟩⟩
      · simp only [h]
        rfl
      · simp [msgsOn, hc]
      · simp [leafVal, hc]

theorem server_leafSearch_rep {n : ℕ} {T : Beps n} {q : List Content} {bottom : Bool}
    {pivs : List Content} (r : Option GefsKvp)
    (h : (bottom = true ∧ ∃ lf es, q = lf :: pivs ∧ IsLeaf es lf ∧ Ascending es
        ∧ look es k = leafVal n T k)
      ∨ (bottom = false ∧ q = pivs ∧ leafVal n T k = none)) :
    Rep k (leafVal n T k) (Server.leafSearch q bottom k r)
      ∧ (if bottom then q.drop 1 else q) = pivs := by
  rcases h with ⟨rfl, lf, es, rfl, hl, hs, hv⟩ | ⟨rfl, rfl, hv⟩
  · exact ⟨hv ▸ blksearch_rep hl hs r, by simp⟩
  · rw [hv]
    exact ⟨⟨rfl, by simp⟩, by simp⟩

/-- The server finds what the leaf holds with the messages applied its way. -/
theorem btlookup_tree {t : GefsTree} {n : ℕ} {T : Beps n} {lo hi : Option Bytes}
    {v : Option Bytes} (ht : t.ht.toInt = n + 1) (hin : Server.TreeIn get n T t.bp)
    (ho : Ordered n T lo hi) (hsm : ∀ w, leafVal n T k = some w → k.length + w.length ≤ nbuf)
    (hv : serverGet nbuf n T k = some v) :
    Server.btlookup get t k nbuf = some (v.map (k, ·)) := by
  obtain ⟨b, hget, hb⟩ := hin.top
  obtain ⟨q, bottom, r, hd, pivs, mss, hf, hflat, hend⟩ := server_descend_spec k [] none hin ho hb
  obtain ⟨hrep, hpiv⟩ := server_leafSearch_rep r hend
  have h0 : ¬ t.ht ≤ 0 := by
    rw [Int32.le_iff_toInt_le, ht]
    show ¬ _ ≤ (0 : ℤ)
    omega
  have hn : t.ht.toInt.toNat - 1 = n := by omega
  unfold Server.btlookup
  simp only [hget, h0, if_false, hn, hd, List.append_nil, Option.bind_eq_bind, Option.bind_some]
  rw [hpiv]
  generalize Server.leafSearch q bottom k r = S at hrep
  obtain ⟨S', hfold, hrep'⟩ : ∃ S', pivs.foldlM (fun s c => Server.applyPivot c k nbuf s) S
      = some S' ∧ Rep k v S' := by
    obtain ⟨S', h, hr⟩ :=
      foldlM_pivotWith_rep does_applyFirst does_apply hf hrep (by rw [hflat]; exact hv)
    refine ⟨S', ?_, hr⟩
    simp only [server_applyPivot_eq]
    exact h
  have hlast : (if S'.1 = true then S'.2.map some else some none) = some (v.map (k, ·)) := by
    rw [hrep'.1]
    rcases hv' : v with _ | w
    · rfl
    · rw [hrep'.2 w hv']
      rfl
  split_ifs with hs
  · rw [hrep.copy hsm hs, Option.bind_some, hfold, Option.bind_some, hlast]
  · rw [hfold, Option.bind_some, hlast]

end Server

/-! ## What the two make of the same messages -/

section Compare

variable {nbuf : ℕ} {k : Bytes}

/-- A message that leaves the same whatever was there. -/
def GefsMsg.settles (m : GefsMsg) : Bool :=
  m.op = .oinsert ∨ m.op = .odelete ∨ m.op = .oclearb ∨ m.op = .oclobber

/-- The messages after the last insertion or removal. -/
def live (g : List GefsMsg) : List GefsMsg := g.rtakeWhile fun m => !m.settles

/-- The messages up to the last insertion or removal. -/
def settled (g : List GefsMsg) : List GefsMsg := g.rdropWhile fun m => !m.settles

theorem settled_append_live (g : List GefsMsg) : settled g ++ live g = g :=
  List.rdropWhile_append_rtakeWhile

/-- Two values of one length, or none on both sides. -/
def Like (v w : Option Bytes) : Prop := v.map List.length = w.map List.length

theorem Like.some_left {b : Bytes} {w : Option Bytes} (h : Like (some b) w) :
    ∃ c, w = some c ∧ b.length = c.length := by
  unfold Like at h
  rcases w with _ | c
  · simp at h
  · exact ⟨c, rfl, by simpa using h⟩

/-- No field of a wstat is the port's version. -/
theorem statFields_vers (f : UInt32) (m : Mem) (d : GefsXdir) :
    (statFields f m d).qid.vers = d.qid.vers := by
  unfold statFields
  extract_lets o d1 o1 d2 o2 d3 o3 d4 o4 d5 o5 d6 o6
  have h1 : d1.qid = d.qid := by unfold d1; split_ifs <;> rfl
  have h2 : d2.qid = d1.qid := by unfold d2; split_ifs <;> rfl
  have h3 : d3.qid = d2.qid := by unfold d3; split_ifs <;> rfl
  have h4 : d4.qid = d3.qid := by unfold d4; split_ifs <;> rfl
  have h5 : d5.qid = d4.qid := by unfold d5; split_ifs <;> rfl
  have h6 : d6.qid = d5.qid := by unfold d6; split_ifs <;> rfl
  rw [← h1, ← h2, ← h3, ← h4, ← h5, ← h6]
  clear_value d6
  split_ifs <;> rfl

theorem server_statFields_vers (f : UInt8) (m : Mem) (d : GefsXdir) :
    (Server.statFields f m d).qid.vers = d.qid.vers := by
  unfold Server.statFields
  extract_lets o d1 o1 q d2 o2 d3 o3 d4 o4 d5 o5 d6 o6
  have h1 : d1.qid.vers = d.qid.vers := by unfold d1; split_ifs <;> rfl
  have h2 : d2.qid.vers = d1.qid.vers := by unfold d2; split_ifs <;> rfl
  have h3 : d3.qid.vers = d2.qid.vers := by unfold d3; split_ifs <;> rfl
  have h4 : d4.qid.vers = d3.qid.vers := by unfold d4; split_ifs <;> rfl
  have h5 : d5.qid.vers = d4.qid.vers := by unfold d5; split_ifs <;> rfl
  have h6 : d6.qid.vers = d5.qid.vers := by unfold d6; split_ifs <;> rfl
  rw [← h1, ← h2, ← h3, ← h4, ← h5, ← h6]
  clear_value d6
  split_ifs <;> rfl

theorem server_statupdate_eq {b : Bytes} {m : GefsMsg} {kv : GefsKvp}
    (h : Server.statupdate (k, b) m = some kv) :
    b.length = xdirsz ∧ ∃ d d', gefsKv2dir (k, b) = some d ∧ d'.qid.vers = d.qid.vers + 1
      ∧ gefsPackdval xdirsz d' = some kv.2 := by
  unfold Server.statupdate Server.kv2dir at h
  obtain ⟨op, -, h⟩ := Option.bind_eq_some_iff.1 h
  obtain ⟨d, hd, h⟩ := Option.bind_eq_some_iff.1 h
  obtain ⟨s, -, hd⟩ := Option.bind_eq_some_iff.1 hd
  simp only at h hd
  split_ifs at h hd with _ hc
  push Not at hc
  obtain ⟨x, hx, h⟩ := Option.bind_eq_some_iff.1 h
  rw [hc.2.2] at hx
  have hdrop : b.drop x.length = [] := by
    rw [List.drop_eq_nil_iff, length_gefsPackdval hx, hc.2.2]
  obtain ⟨d', hx', hvers⟩ : ∃ d', gefsPackdval xdirsz d' = some x
      ∧ d'.qid.vers = d.qid.vers + 1 := by
    exact ⟨_, hx, server_statFields_vers _ _ _⟩
  refine ⟨hc.2.2, d, d', hd, hvers, ?_⟩
  rw [← Option.some.inj h, hdrop, List.append_nil]
  exact hx'

theorem statupdate_eq {b : Bytes} {m : GefsMsg} (hb : b.length = xdirsz) :
    ∃ c d d', statupdate (k, b) m = some (k, c) ∧ gefsKv2dir (k, b) = some d
      ∧ d'.qid.vers = d.qid.vers ∧ gefsPackdval xdirsz d' = some c := by
  obtain ⟨d, hd⟩ : ∃ d, gefsKv2dir (k, b) = some d := by
    simp [gefsKv2dir, hb]
  obtain ⟨x, hx⟩ := gefsPackdval_isSome (le_refl xdirsz)
    (statFields (unpack32 (memOf (m.v ++ m.past)) 0) (memOf (m.v ++ m.past)) d)
  have hdrop : b.drop x.length = [] := by
    rw [List.drop_eq_nil_iff, length_gefsPackdval hx, hb]
  refine ⟨x, d, _, ?_, hd, ?_, hx⟩
  · unfold statupdate
    simp only [hd, hb, hx, hdrop, Option.bind_eq_bind, Option.bind_some, List.append_nil]
  · exact statFields_vers _ _ _

theorem server_relink_eq {b : Bytes} {m : GefsMsg} {kv : GefsKvp}
    (h : Server.relink (k, b) m = some kv) :
    gefsTreesz ≤ b.length ∧ kv.2.length = b.length := by
  unfold Server.relink gefsUnpacktree at h
  obtain ⟨t, ht, h⟩ := Option.bind_eq_some_iff.1 h
  simp only at h ht
  split_ifs at ht with hlen
  have hlen' : gefsTreesz ≤ b.length := not_lt.1 hlen
  have h72 : gefsTreesz = 72 := rfl
  refine ⟨hlen', ?_⟩
  split_ifs at h <;>
    · rw [← Option.some.inj h, List.length_append, length_packtree, List.length_drop]
      omega

/-- A message the server can apply, the port can, and the lengths stay alike. -/
theorem msgEff_of_serverEff {v v' w : Option Bytes} {m : GefsMsg} (hl : Like v w)
    (h : serverEff nbuf k v m = some v') :
    ∃ w', msgEff nbuf k w m = some w' ∧ Like v' w' ∧ (m.settles = true → v' = w')
      ∧ (m.settles = false → Like v v'
        ∧ ∃ b, v = some b ∧ (m.op = .owstat ∧ b.length = xdirsz
          ∨ m.op ≠ .owstat ∧ gefsTreesz ≤ b.length ∧ w' = w)) := by
  unfold serverEff at h
  unfold msgEff GefsMsg.settles
  cases hop : m.op <;> rw [hop] at h <;> simp only at h ⊢
  case oinsert =>
    split_ifs at h with hlen
    rw [if_pos hlen]
    exact ⟨some m.v, rfl, by rw [← Option.some.inj h]; rfl, fun _ => (Option.some.inj h).symm,
      by simp⟩
  case odelete =>
    split_ifs at h with hs
    obtain ⟨b, rfl⟩ := Option.isSome_iff_exists.1 hs
    obtain ⟨c, rfl, -⟩ := hl.some_left
    exact ⟨none, by simp, by rw [← Option.some.inj h]; rfl, fun _ => (Option.some.inj h).symm,
      by simp⟩
  case oclearb | oclobber =>
    exact ⟨none, rfl, by rw [← Option.some.inj h]; rfl, fun _ => (Option.some.inj h).symm,
      by simp⟩
  case owstat =>
    obtain ⟨b, rfl, h⟩ := Option.bind_eq_some_iff.1 h
    obtain ⟨kv, hst, rfl⟩ := Option.map_eq_some_iff.1 h
    obtain ⟨c, rfl, hlen⟩ := hl.some_left
    obtain ⟨hb, -, d', -, -, hp⟩ := server_statupdate_eq hst
    obtain ⟨x, -, e', hx, -, -, hpx⟩ := statupdate_eq (k := k) (m := m) (hlen ▸ hb)
    have h1 := length_gefsPackdval hp
    have h2 := length_gefsPackdval hpx
    refine ⟨some x, by simp [hx], ?_, by simp, fun _ => ⟨?_, b, rfl, .inl ⟨trivial, hb⟩⟩⟩
    · simp [Like, h1, h2]
    · simp [Like, h1, hb]
  case orelink | oreprev =>
    obtain ⟨b, rfl, h⟩ := Option.bind_eq_some_iff.1 h
    obtain ⟨kv, hst, rfl⟩ := Option.map_eq_some_iff.1 h
    obtain ⟨c, rfl, hlen⟩ := hl.some_left
    obtain ⟨hb, hkv⟩ := server_relink_eq hst
    refine ⟨some c, rfl, ?_, by simp, fun _ => ⟨?_, b, rfl, .inr ⟨by simp, hb, rfl⟩⟩⟩
    · simp [Like, hkv, hlen]
    · simp [Like, hkv]
  all_goals simp at h

theorem msgEff_foldlM : ∀ {l : List GefsMsg} {v v' w : Option Bytes}, Like v w →
    l.foldlM (serverEff nbuf k) v = some v' →
    ∃ w', l.foldlM (msgEff nbuf k) w = some w' ∧ Like v' w'
  | [], v, v', w, hl, h => by
    simp only [List.foldlM_nil, Option.pure_def, Option.some.injEq] at h
    exact ⟨w, rfl, h ▸ hl⟩
  | m :: l, v, v', w, hl, h => by
    rw [List.foldlM_cons] at h
    obtain ⟨u, h1, h2⟩ := Option.bind_eq_some_iff.1 h
    obtain ⟨x, h3, h4, -⟩ := msgEff_of_serverEff hl h1
    obtain ⟨w', h5, h6⟩ := msgEff_foldlM h4 h2
    refine ⟨w', ?_, h6⟩
    rw [List.foldlM_cons, h3]
    exact h5

/-- Up to the last insertion or removal the two agree. -/
theorem settled_agree {g : List GefsMsg} {v v' : Option Bytes}
    (h : (settled g).foldlM (serverEff nbuf k) v = some v') :
    (settled g).foldlM (msgEff nbuf k) v = some v' := by
  rcases List.eq_nil_or_concat (settled g) with hnil | ⟨l, m, hlm⟩
  · rw [hnil] at h ⊢
    exact h
  · have hm : m.settles = true := by
      have hne : settled g ≠ [] := by simp [hlm]
      have hlast : ¬ (!((settled g).getLast hne).settles) = true :=
        List.rdropWhile_last_not (fun m : GefsMsg => !m.settles) g hne
      simpa [hlm] using hlast
    rw [hlm, List.concat_eq_append, List.foldlM_append] at h ⊢
    obtain ⟨u, h1, h2⟩ := Option.bind_eq_some_iff.1 h
    obtain ⟨w, h3, h4⟩ := msgEff_foldlM (w := v) rfl h1
    simp only [List.foldlM_cons, List.foldlM_nil, bind_pure] at h2 ⊢
    obtain ⟨w', h5, -, h6, -⟩ := msgEff_of_serverEff h4 h2
    rw [h3, h6 hm]
    exact h5

section Live

variable {l : List GefsMsg}

/-- Every live message finds a value of the length it needs. -/
theorem live_length : ∀ {l : List GefsMsg} {v v' : Option Bytes}, (∀ m ∈ l, m.settles = false) →
    l.foldlM (serverEff nbuf k) v = some v' → ∀ m ∈ l, ∃ b, v = some b
      ∧ (m.op = .owstat ∧ b.length = xdirsz ∨ m.op ≠ .owstat ∧ gefsTreesz ≤ b.length)
  | m' :: l, v, v', hs, h, m, hm => by
    rw [List.foldlM_cons] at h
    obtain ⟨u, h1, h2⟩ := Option.bind_eq_some_iff.1 h
    obtain ⟨_, -, -, -, h3⟩ := msgEff_of_serverEff (w := v) rfl h1
    obtain ⟨hl, b, rfl, hb⟩ := h3 (hs m' (by simp))
    refine ⟨b, rfl, ?_⟩
    rcases List.mem_cons.1 hm with rfl | hm
    · exact hb.imp_right fun h => ⟨h.1, h.2.1⟩
    · obtain ⟨c, rfl, hlen⟩ := hl.some_left
      obtain ⟨c', hc, hb'⟩ := live_length (fun m hm => hs m (by simp [hm])) h2 m hm
      rw [hlen, Option.some.inj hc]
      exact hb'

/-- The port passes over messages that are no wstats. -/
theorem live_nowstat : ∀ {l : List GefsMsg} {v v' w : Option Bytes}, Like v w →
    (∀ m ∈ l, m.settles = false) → (∀ m ∈ l, m.op ≠ .owstat) →
    l.foldlM (serverEff nbuf k) v = some v' → l.foldlM (msgEff nbuf k) w = some w
  | [], v, v', w, _, _, _, _ => rfl
  | m :: l, v, v', w, hl, hs, hn, h => by
    rw [List.foldlM_cons] at h
    obtain ⟨u, h1, h2⟩ := Option.bind_eq_some_iff.1 h
    obtain ⟨w', h3, hl', -, h4⟩ := msgEff_of_serverEff hl h1
    obtain ⟨-, b, -, hb⟩ := h4 (hs m (by simp))
    rcases hb with ⟨hop, -⟩ | ⟨-, -, rfl⟩
    · exact absurd hop (hn m (by simp))
    · rw [List.foldlM_cons, h3]
      exact live_nowstat hl' (fun m hm => hs m (by simp [hm])) (fun m hm => hn m (by simp [hm])) h2

/-- The version in a packed entry. -/
def versOf (b : Bytes) : UInt32 := unpack32 (memOf b) 16

theorem versOf_kv2dir {b : Bytes} {d : GefsXdir} (h : gefsKv2dir (k, b) = some d) :
    d.qid.vers = versOf b := by
  unfold gefsKv2dir at h
  simp only [Option.ite_none_left_eq_some, Option.some.injEq] at h
  rw [← h.2]
  rfl

theorem versOf_packdval {sz : ℕ} {b : Bytes} {d : GefsXdir} (h : gefsPackdval sz d = some b) :
    versOf b = d.qid.vers :=
  (versOf_kv2dir (gefsKv2dir_gefsPackdval [] h)).symm

/-- The server bumps the version once a message, the port never. -/
theorem live_vers : ∀ {l : List GefsMsg} {b c : Bytes} {v' : Option Bytes}, b.length = xdirsz →
    c.length = xdirsz → (∀ m ∈ l, m.settles = false) →
    l.foldlM (serverEff nbuf k) (some b) = some v' →
    ∃ b' c', v' = some b' ∧ l.foldlM (msgEff nbuf k) (some c) = some (some c')
      ∧ versOf b' = versOf b + UInt32.ofNat l.length ∧ versOf c' = versOf c
  | [], b, c, v', _, _, _, h => by
    simp only [List.foldlM_nil, Option.pure_def, Option.some.injEq] at h
    exact ⟨b, c, h.symm, rfl, by simp, rfl⟩
  | m :: l, b, c, v', hb, hc, hs, h => by
    have h72 : gefsTreesz = 72 := rfl
    have h61 : xdirsz = 61 := rfl
    have hop : m.op = .owstat := by
      obtain ⟨b', hb', h⟩ := live_length hs h m (by simp)
      obtain rfl := Option.some.inj hb'
      rcases h with ⟨h, -⟩ | ⟨-, h⟩
      · exact h
      · omega
    rw [List.foldlM_cons] at h
    obtain ⟨u, h1, h2⟩ := Option.bind_eq_some_iff.1 h
    simp only [serverEff, hop, Option.bind_some] at h1
    obtain ⟨kv, hst, rfl⟩ := Option.map_eq_some_iff.1 h1
    obtain ⟨-, d, d', hd, hvers, hp⟩ := server_statupdate_eq hst
    obtain ⟨x, e, e', hx, he, hvers', hpx⟩ := statupdate_eq (k := k) (m := m) hc
    obtain ⟨b', c', hb', hport, hv1, hv2⟩ := live_vers (length_gefsPackdval hp)
      (length_gefsPackdval hpx) (fun m hm => hs m (by simp [hm])) h2
    refine ⟨b', c', hb', ?_, ?_, ?_⟩
    · rw [List.foldlM_cons]
      simp only [msgEff, hop, Option.bind_some, hx, Option.map_some, Option.bind_eq_bind]
      exact hport
    · rw [hv1, versOf_packdval hp, hvers, versOf_kv2dir hd, List.length_cons, UInt32.ofNat_add,
        add_assoc, add_comm (1 : UInt32)]
      rfl
    · rw [hv2, versOf_packdval hpx, hvers', versOf_kv2dir he]

end Live

/-- The server's own apply of the messages after the last insertion or removal changes nothing,
and none of them is a wstat. -/
structure Quiet (nbuf : ℕ) (k : Bytes) (v : Option Bytes) (g : List GefsMsg) : Prop where
  nowstat : ∀ m ∈ live g, m.op ≠ .owstat
  idle : ∀ w, (settled g).foldlM (serverEff nbuf k) v = some w →
    (live g).foldlM (serverEff nbuf k) w = some w

theorem live_settles {g : List GefsMsg} : ∀ m ∈ live g, m.settles = false := by
  intro m hm
  simpa using List.mem_rtakeWhile_imp hm

theorem agree_of_quiet {g : List GefsMsg} {v v' : Option Bytes} (hq : Quiet nbuf k v g)
    (h : g.foldlM (serverEff nbuf k) v = some v') : g.foldlM (msgEff nbuf k) v = some v' := by
  rw [← settled_append_live g, List.foldlM_append] at h ⊢
  obtain ⟨w, h1, h2⟩ := Option.bind_eq_some_iff.1 h
  rw [settled_agree h1]
  show (live g).foldlM (msgEff nbuf k) w = some v'
  have hw : w = v' := Option.some.inj ((hq.idle w h1).symm.trans h2)
  rw [← hw]
  exact live_nowstat rfl live_settles hq.nowstat h2

theorem quiet_of_agree {g : List GefsMsg} {v v' : Option Bytes} (hlen : g.length < 2 ^ 32)
    (h : g.foldlM (serverEff nbuf k) v = some v') (ha : g.foldlM (msgEff nbuf k) v = some v') :
    Quiet nbuf k v g := by
  have hle : (live g).length ≤ g.length := List.IsSuffix.length_le (List.rtakeWhile_suffix _ g)
  rw [← settled_append_live g, List.foldlM_append] at h ha
  obtain ⟨w, h1, h2⟩ := Option.bind_eq_some_iff.1 h
  rw [settled_agree h1] at ha
  replace ha : (live g).foldlM (msgEff nbuf k) w = some v' := ha
  have hno : ∀ m ∈ live g, m.op ≠ .owstat := by
    intro m hm hop
    obtain ⟨b, rfl, hb⟩ := live_length live_settles h2 m hm
    rcases hb with ⟨-, hb⟩ | ⟨hn, -⟩
    · -- one version bumped, the other not
      obtain ⟨b', c', rfl, hport, hv1, hv2⟩ := live_vers hb hb live_settles h2
      rw [hport, Option.some.injEq, Option.some.injEq] at ha
      rw [ha, hv1] at hv2
      have hzero : UInt32.ofNat (live g).length = 0 := by simpa using hv2
      have hpos : 0 < (live g).length := List.length_pos_of_mem hm
      have hmod : (live g).length % 2 ^ 32 = 0 := by
        simpa using congrArg UInt32.toNat hzero
      rw [Nat.mod_eq_of_lt (by omega)] at hmod
      omega
    · exact hn hop
  refine ⟨hno, fun u hu => ?_⟩
  obtain rfl := Option.some.inj (h1.symm.trans hu)
  have hw := live_nowstat rfl live_settles hno h2
  rw [ha] at hw
  rw [h2, hw]

end Compare

/-! ## The two lookups -/

/-- The two lookups give the same answer with the same bytes. -/
def LookupsAgree (ctx : GefsCtx) (get : GefsBptr → Option Content) (t : GefsTree) (k : Bytes) :
    Prop :=
  ∃ r ctx', gefsBtlookup ctx t k gefsKvmax = some (r, ctx')
    ∧ Server.btlookup get t k gefsKvmax = some r

section Agree

variable {ctx : GefsCtx} {get : GefsBptr → Option Content} {t : GefsTree} {n : ℕ} {T : Beps n}
  {k : Bytes}

/-- Both lookups in terms of the tree's messages. -/
theorem lookupsAgree_foldlM (hok : CtxOk ctx) (ht : t.ht.toInt = n + 1)
    (hin : TreeIn ctx n T t.bp) (hget : Server.TreeIn get n T t.bp)
    (ho : Ordered n T none none) (hs : Sized n T) {v : Option Bytes}
    (hv : serverGet gefsKvmax n T k = some v) :
    LookupsAgree ctx get t k ↔ treeGet gefsKvmax n T k = some v := by
  have hserver := btlookup_tree ht hget ho (fun _ hw => hs.leafVal hw) hv
  obtain ⟨w, hw, -⟩ := msgEff_foldlM (w := leafVal n T k) rfl hv
  obtain ⟨ctx', hport⟩ := gefsBtlookup_tree hok ht hin ho (fun _ hw => hs.leafVal hw) hw
  have hinj : Function.Injective (Option.map fun x : Bytes => (k, x)) :=
    Option.map_injective fun a b hab => (Prod.mk.inj hab).2
  rw [treeGet, hw, Option.some.injEq]
  constructor
  · rintro ⟨r, c, h1, h2⟩
    rw [hport, Option.some.injEq, Prod.mk.injEq] at h1
    rw [hserver, Option.some.injEq, ← h1.1] at h2
    exact (hinj h2).symm
  · rintro rfl
    exact ⟨_, ctx', hport, hserver⟩

/-- The lookups agree on a key exactly where the messages after its last insertion or removal hold
no wstat and change nothing for the server. Only a version that wraps around could hide a wstat. -/
theorem lookupsAgree_iff (hok : CtxOk ctx) (ht : t.ht.toInt = n + 1)
    (hin : TreeIn ctx n T t.bp) (hget : Server.TreeIn get n T t.bp)
    (ho : Ordered n T none none) (hs : Sized n T)
    (hv : ∃ v, serverGet gefsKvmax n T k = some v) :
    (Quiet gefsKvmax k (leafVal n T k) (msgsOn n T k) → LookupsAgree ctx get t k)
      ∧ ((msgsOn n T k).length < 2 ^ 32 → LookupsAgree ctx get t k →
        Quiet gefsKvmax k (leafVal n T k) (msgsOn n T k)) := by
  obtain ⟨v, hv⟩ := hv
  rw [lookupsAgree_foldlM hok ht hin hget ho hs hv]
  exact ⟨fun hq => agree_of_quiet hq hv, fun hlen ha => quiet_of_agree hlen hv ha⟩

end Agree

section Touched

/-- The key of the entry `a` in the directory 0. -/
def entKey : Bytes := [1, 0, 0, 0, 0, 0, 0, 0, 0, 0, 1, 97, 0]

/-- The pointer to its leaf. -/
def entPtr : Bytes := gefsPackbp ⟨16384, 0, 0⟩

/-- The message of the server's `touch`: a wstat of no field. -/
def touchMsg : GefsMsg := ⟨.owstat, entKey, [0], List.replicate 44 0⟩

/-- A pivot with a touch waiting over the leaf with the entry. -/
def touched : Beps 1 := ([((entKey, entPtr), [(entKey, List.replicate 61 0)])], [touchMsg])

def touchedDisk : Disk :=
  { size := 49152
    byte := store (store (store (fun _ => 0)
        0 ([0, 1, 0, 1, 0, 41, 0, 1, 0, 19, 0, 2] ++ packkv (entKey, entPtr)))
        8197 ([0, 2, 5] ++ pack16 13 ++ entKey ++ [0, 1, 0]))
        16384 ([0, 2, 0, 1, 0, 78, 0, 2] ++ packkv (entKey, List.replicate 61 0)) }

def touchedCtx : GefsCtx := diskCtx touchedDisk 32768 { zeroTree with ht := 2 }

/-- The blocks as they lie on the disk. -/
def touchedGet (bp : GefsBptr) : Option Content :=
  (touchedDisk.pread bp.addr).map fun m => parseBlk (withTail m fun _ => 0)

theorem isPivot_touched : IsPivot [(entKey, entPtr)] [touchMsg]
    (parseBlk (withTail (touchedDisk.window 0) fun _ => 0)) := by
  refine ⟨?_, ?_, fun i hi => ?_, ?_, fun i hi => ?_⟩
  · decide +kernel
  · decide +kernel
  · obtain rfl : i = 0 := by simpa using hi
    show _ = (entKey, entPtr)
    decide +kernel
  · decide +kernel
  · obtain rfl : i = 0 := by simpa using hi
    show _ = touchMsg
    decide +kernel

theorem isLeaf_touched : IsLeaf [(entKey, List.replicate 61 0)]
    (parseBlk (withTail (touchedDisk.window 16384) fun _ => 0)) := by
  refine ⟨?_, ?_, fun i hi => ?_⟩
  · decide +kernel
  · decide +kernel
  · obtain rfl : i = 0 := by simpa using hi
    show _ = (entKey, List.replicate 61 0)
    decide +kernel

theorem valBptr_entPtr : valBptr entPtr = some ⟨16384, 0, 0⟩ := by decide +kernel

theorem treeIn_touched : TreeIn touchedCtx 1 touched touchedCtx.activeTree.bp := by
  refine ⟨held_diskCtx rfl isPivot_touched, fun c hc => ?_⟩
  obtain rfl := List.mem_singleton.1 hc
  exact ⟨_, valBptr_entPtr, held_diskCtx rfl isLeaf_touched⟩

theorem server_treeIn_touched : Server.TreeIn touchedGet 1 touched touchedCtx.activeTree.bp := by
  refine ⟨⟨_, rfl, isPivot_touched⟩, fun c hc => ?_⟩
  obtain rfl := List.mem_singleton.1 hc
  exact ⟨_, valBptr_entPtr, _, rfl, isLeaf_touched⟩

theorem ordered_touched : Ordered 1 touched none none := by
  refine ⟨List.pairwise_singleton _ _, by simp [InRange], List.pairwise_singleton _ _,
    by simp [InRange], fun j c hj => ?_⟩
  obtain ⟨hj', rfl⟩ := List.getElem?_eq_some_iff.1 hj
  obtain rfl : j = 0 := by simpa using hj'
  refine ⟨List.pairwise_singleton _ _, fun e he => ?_⟩
  obtain rfl := List.mem_singleton.1 he
  simp [InRange, rightOf]

theorem sized_touched : Sized 1 touched := by
  refine ⟨fun e he => ?_, fun c hc e he => ?_⟩
  · obtain rfl := List.mem_singleton.1 he
    decide
  · obtain rfl := List.mem_singleton.1 hc
    obtain rfl := List.mem_singleton.1 he
    decide

/-- The server finds the version bumped. -/
theorem serverGet_touched : serverGet gefsKvmax 1 touched entKey
    = some (some (List.replicate 19 0 ++ [1] ++ List.replicate 41 0)) := by
  decide +kernel

theorem treeGet_touched :
    treeGet gefsKvmax 1 touched entKey = some (some (List.replicate 61 0)) := by
  decide +kernel

theorem lookupsAgree_touched :
    (Quiet gefsKvmax entKey (leafVal 1 touched entKey) (msgsOn 1 touched entKey) →
        LookupsAgree touchedCtx touchedGet touchedCtx.activeTree entKey)
      ∧ ((msgsOn 1 touched entKey).length < 2 ^ 32 →
        LookupsAgree touchedCtx touchedGet touchedCtx.activeTree entKey →
        Quiet gefsKvmax entKey (leafVal 1 touched entKey) (msgsOn 1 touched entKey)) :=
  lookupsAgree_iff (diskCtx_ok _ _ _) (by decide) treeIn_touched server_treeIn_touched
    ordered_touched sized_touched ⟨_, serverGet_touched⟩

/-- The two lookups of the touched entry return different versions. -/
theorem not_forall_lookupsAgree :
    ¬ ∀ (ctx : GefsCtx) (get : GefsBptr → Option Content) (t : GefsTree) (n : ℕ) (T : Beps n)
      (k : Bytes), CtxOk ctx → t.ht.toInt = n + 1 → TreeIn ctx n T t.bp →
      Server.TreeIn get n T t.bp → Ordered n T none none → Sized n T →
      (∃ v, serverGet gefsKvmax n T k = some v) → LookupsAgree ctx get t k := by
  intro h
  have hok : CtxOk touchedCtx := diskCtx_ok _ _ _
  have ha := h touchedCtx touchedGet touchedCtx.activeTree 1 touched entKey hok (by decide)
    treeIn_touched server_treeIn_touched ordered_touched sized_touched ⟨_, serverGet_touched⟩
  rw [lookupsAgree_foldlM hok (by decide) treeIn_touched server_treeIn_touched ordered_touched
    sized_touched serverGet_touched, treeGet_touched] at ha
  exact absurd ha (by decide)

end Touched

end GefsFuse
