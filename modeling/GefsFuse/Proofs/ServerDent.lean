import GefsFuse.Server.Dent
import GefsFuse.Proofs.ServerEntries

/-!
# Directory entries match the tree

`Inv` is what the operations keep. Besides the agreement itself it says that entries and addresses
are not confused: qid paths are given out once, an open entry has one address, and a fid's file lies
in the directory it was walked to in. The operations are then sequences of a few changes, each of
which keeps `Inv`: a field of an open entry that the tree does not know, a reference dropped, an
entry opened, and one message of each kind with the assignment that goes with it.
-/

namespace GefsFuse.Server

open MountSt

/-- The qid path of the entry under `k`. -/
def pathAt (t : Entries) (k : Bytes) : Option UInt64 := (lookupDir t k).join.map (·.qid.path)

/-- An entry but for its name. -/
def unnamed (d : GefsXdir) : GefsXdir := { d with name := none }

theorem qid_of_unnamed {a b : GefsXdir} (h : unnamed a = unnamed b) : a.qid = b.qid := by
  have h : (unnamed a).qid = (unnamed b).qid := congrArg GefsXdir.qid h
  exact h

/-- No two entries have one qid path, and all were given out. -/
structure TreeOk (t : Entries) (nextqid : UInt64) : Prop where
  own : ∀ k k' p, pathAt t k = some p → pathAt t k' = some p → k = k'
  old : ∀ k p, pathAt t k = some p → p.toNat ≤ nextqid.toNat

/-- The open entries: each is the tree's unless it is gone, and no two are confused. -/
structure DentsOk (t : Entries) (dtab : List Dent) (nextdent : ℕ) (nextqid : UInt64) : Prop where
  cached : ∀ de ∈ dtab, de.gone = false →
    ∃ d, lookupDir t de.k = some (some d) ∧ unnamed de.xdir = unnamed d
  key : ∀ de ∈ dtab, ∃ name, dkey de.up name = some de.k
  ids : ∀ a ∈ dtab, ∀ b ∈ dtab, a.id = b.id → a = b
  paths : ∀ a ∈ dtab, ∀ b ∈ dtab, a.xdir.qid.path = b.xdir.qid.path → a = b
  id_lt : ∀ de ∈ dtab, de.id < nextdent
  path_le : ∀ de ∈ dtab, de.xdir.qid.path.toNat ≤ nextqid.toNat

/-- A fid knows the path of its file and, unless it is the root's, the directory it is in. -/
structure FidOk (s : MountSt) (f : Fid) : Prop where
  lt : f.dent < s.nextdent
  le : f.qpath.toNat ≤ s.nextqid.toNat
  path : ∀ de ∈ s.dtab, de.id = f.dent → de.xdir.qid.path = f.qpath
  up : f.dir ≠ f.dent → ∀ k, pathAt s.tree k = some f.qpath → ∃ name, dkey f.pqpath name = some k

/-- A file to be removed on close is gone. -/
def AmsgOk (s : MountSt) (a : Amsg) : Prop :=
  a.rclose → ∀ p ∈ a.dent, p < s.nextdent ∧ ∀ de ∈ s.dtab, de.id = p → de.gone = true

structure Inv (s : MountSt) : Prop where
  tree : TreeOk s.tree s.nextqid
  dents : DentsOk s.tree s.dtab s.nextdent s.nextqid
  fids : ∀ i f, s.fids i = some f → FidOk s f
  adm : ∀ a ∈ s.adm, AmsgOk s a

variable {s : MountSt} {p : ℕ} {de : Dent} {k : Bytes} {d : GefsXdir}

theorem dent_mem (h : s.dent p = some de) : de ∈ s.dtab ∧ de.id = p :=
  ⟨List.mem_of_find?_eq_some h, by simpa using List.find?_some h⟩

theorem pathAt_eq_some {t : Entries} {q : UInt64} : pathAt t k = some q ↔
    ∃ d, lookupDir t k = some (some d) ∧ d.qid.path = q := by
  unfold pathAt
  rcases lookupDir t k with _ | _ | d <;> simp

/-- An entry that is not gone lies in the tree, with its path. -/
theorem DentsOk.pathAt {t : Entries} {dtab : List Dent} {n : ℕ} {q : UInt64}
    (h : DentsOk t dtab n q) (hde : de ∈ dtab) (hg : de.gone = false) :
    pathAt t de.k = some de.xdir.qid.path := by
  obtain ⟨d, hd, hu⟩ := h.cached de hde hg
  unfold Server.pathAt
  rw [hd, qid_of_unnamed hu]
  rfl

/-- Entries that are not gone and lie under one key are one. -/
theorem DentsOk.eq_of_key {t : Entries} {dtab : List Dent} {n : ℕ} {q : UInt64}
    (h : DentsOk t dtab n q) {a b : Dent} (ha : a ∈ dtab) (hb : b ∈ dtab) (hga : a.gone = false)
    (hgb : b.gone = false) (hk : a.k = b.k) : a = b := by
  refine h.paths a ha b hb (Option.some.inj ?_)
  rw [← h.pathAt ha hga, ← h.pathAt hb hgb, hk]

/-! ## Changes in memory -/

/-- What an entry is in the tree, and that it is gone, is left alone. -/
structure Benign (f : Dent → Dent) (de : Dent) : Prop where
  id : (f de).id = de.id
  xdir : unnamed (f de).xdir = unnamed de.xdir
  up : (f de).up = de.up
  k : (f de).k = de.k
  gone : de.gone = true → (f de).gone = true

theorem Benign.path {f : Dent → Dent} (h : Benign f de) :
    (f de).xdir.qid.path = de.xdir.qid.path := by
  rw [qid_of_unnamed h.xdir]

/-- The entries of a table after a change to one. -/
theorem mem_setDent {f : Dent → Dent} {x : Dent} (h : x ∈ (s.setDent p f).dtab) :
    ∃ y ∈ s.dtab, x = if y.id = p then f y else y := by
  obtain ⟨y, hy, rfl⟩ := List.mem_map.1 h
  exact ⟨y, hy, rfl⟩

/-- From `s` to `s'` open entries only change in what the tree does not know, or are closed. -/
def Tame (s s' : MountSt) : Prop :=
  (∃ g : Dent → Dent, (∀ de ∈ s.dtab, Benign g de) ∧ ∀ x ∈ s'.dtab, ∃ y ∈ s.dtab, x = g y)
    ∧ s'.tree = s.tree ∧ s'.nextdent = s.nextdent ∧ s'.nextqid = s.nextqid

theorem Tame.fidOk {s' : MountSt} (h : Tame s s') {f : Fid} (hf : FidOk s f) : FidOk s' f := by
  obtain ⟨⟨g, hg, hdtab⟩, htree, hnext, hqid⟩ := h
  refine ⟨hnext ▸ hf.lt, hqid ▸ hf.le, ?_, htree ▸ hf.up⟩
  intro x hx hid
  obtain ⟨y, hy, rfl⟩ := hdtab x hx
  rw [(hg y hy).id] at hid
  rw [(hg y hy).path]
  exact hf.path y hy hid

theorem Tame.amsgOk {s' : MountSt} (h : Tame s s') {a : Amsg} (ha : AmsgOk s a) :
    AmsgOk s' a := by
  obtain ⟨⟨g, hg, hdtab⟩, -, hnext, -⟩ := h
  intro hr q hq
  obtain ⟨h1, h2⟩ := ha hr q hq
  refine ⟨hnext ▸ h1, ?_⟩
  intro x hx hid
  obtain ⟨y, hy, rfl⟩ := hdtab x hx
  exact (hg y hy).gone (h2 y hy ((hg y hy).id ▸ hid))

theorem Tame.inv {s' : MountSt} (h : Tame s s') (hi : Inv s)
    (hfids : ∀ i f, s'.fids i = some f → FidOk s f) (hadm : ∀ a ∈ s'.adm, AmsgOk s a) :
    Inv s' := by
  refine ⟨?_, ?_, fun i f hf => h.fidOk (hfids i f hf), fun a ha => h.amsgOk (hadm a ha)⟩
  all_goals obtain ⟨⟨g, hg, hdtab⟩, htree, hnext, hqid⟩ := h
  · rw [htree, hqid]
    exact hi.tree
  · rw [htree, hnext, hqid]
    refine ⟨?_, ?_, ?_, ?_, ?_, ?_⟩
    · intro x hx hgone
      obtain ⟨y, hy, rfl⟩ := hdtab x hx
      obtain ⟨d, hd, hu⟩ := hi.dents.cached y hy (by
        by_contra hc
        rw [(hg y hy).gone (by simpa using hc)] at hgone
        cases hgone)
      rw [(hg y hy).k, (hg y hy).xdir]
      exact ⟨d, hd, hu⟩
    · intro x hx
      obtain ⟨y, hy, rfl⟩ := hdtab x hx
      rw [(hg y hy).k, (hg y hy).up]
      exact hi.dents.key y hy
    · intro a ha b hb hab
      obtain ⟨y, hy, rfl⟩ := hdtab a ha
      obtain ⟨z, hz, rfl⟩ := hdtab b hb
      rw [(hg y hy).id, (hg z hz).id] at hab
      rw [hi.dents.ids y hy z hz hab]
    · intro a ha b hb hab
      obtain ⟨y, hy, rfl⟩ := hdtab a ha
      obtain ⟨z, hz, rfl⟩ := hdtab b hb
      rw [(hg y hy).path, (hg z hz).path] at hab
      rw [hi.dents.paths y hy z hz hab]
    · intro x hx
      obtain ⟨y, hy, rfl⟩ := hdtab x hx
      rw [(hg y hy).id]
      exact hi.dents.id_lt y hy
    · intro x hx
      obtain ⟨y, hy, rfl⟩ := hdtab x hx
      rw [(hg y hy).path]
      exact hi.dents.path_le y hy

theorem dent_eq_some (hd : DentsOk s.tree s.dtab s.nextdent s.nextqid) (hde : de ∈ s.dtab) :
    s.dent de.id = some de := by
  obtain ⟨x, hx⟩ : ∃ x, s.dent de.id = some x := by
    rw [← Option.isSome_iff_exists, dent, List.find?_isSome]
    exact ⟨de, hde, by simp⟩
  rw [hx, hd.ids x (dent_mem hx).1 de hde (dent_mem hx).2]

theorem tame_setDent (hi : Inv s) {f : Dent → Dent} (hf : ∀ de, s.dent p = some de → Benign f de) :
    Tame s (s.setDent p f) := by
  refine ⟨⟨fun de => if de.id = p then f de else de, ?_, fun x hx => mem_setDent hx⟩, rfl, rfl,
    rfl⟩
  intro de hde
  by_cases hp : de.id = p
  · have hb := hf de (hp ▸ dent_eq_some hi.dents hde)
    constructor <;> simp only [hp, if_true]
    · exact hp ▸ hb.id
    · exact hb.xdir
    · exact hb.up
    · exact hb.k
    · exact hb.gone
  · constructor <;> simp only [hp, if_false]
    exact id

theorem tame_ref (hi : Inv s) (p : ℕ) : Tame s (s.ref p) :=
  tame_setDent hi fun _ _ => ⟨rfl, rfl, rfl, rfl, id⟩

theorem Inv.setDent (hi : Inv s) {f : Dent → Dent} (hf : ∀ de, s.dent p = some de → Benign f de) :
    Inv (s.setDent p f) :=
  (tame_setDent hi hf).inv hi hi.fids hi.adm

theorem Inv.ref (hi : Inv s) (p : ℕ) : Inv (s.ref p) :=
  (tame_ref hi p).inv hi hi.fids hi.adm

/-- The table only loses entries, and the fids and messages are others. -/
theorem Inv.keep (hi : Inv s) {s' : MountSt} (hdtab : ∀ x ∈ s'.dtab, x ∈ s.dtab)
    (htree : s'.tree = s.tree) (hnext : s'.nextdent = s.nextdent) (hqid : s'.nextqid = s.nextqid)
    (hfids : ∀ i f, s'.fids i = some f → FidOk s f) (hadm : ∀ a ∈ s'.adm, AmsgOk s a) : Inv s' :=
  have ht : Tame s s' :=
    ⟨⟨id, fun _ _ => ⟨rfl, rfl, rfl, rfl, id⟩, fun x hx => ⟨x, hdtab x hx, rfl⟩⟩,
      htree, hnext, hqid⟩
  ht.inv hi hfids hadm

theorem Inv.clunkdent (hi : Inv s) (p : ℕ) : Inv (s.clunkdent p) := by
  have h : Inv (s.setDent p fun de => { de with ref := de.ref - 1 }) :=
    hi.setDent fun _ _ => ⟨rfl, rfl, rfl, rfl, id⟩
  exact h.keep (fun x hx => List.mem_of_mem_filter hx) rfl rfl rfl h.fids h.adm

theorem Inv.putfid (hi : Inv s) (f : Fid) : Inv (s.putfid f) :=
  (hi.clunkdent f.dent).clunkdent f.dir

theorem Inv.freeamsg (hi : Inv s) (a : Option Amsg) : Inv (s.freeamsg a) := by
  unfold MountSt.freeamsg
  split
  · exact hi.clunkdent _
  · exact hi

theorem Inv.setFid (hi : Inv s) (i : FidKey) {f : Option Fid} (hf : ∀ g ∈ f, FidOk s g) :
    Inv (s.setFid i f) := by
  refine hi.keep (fun _ h => h) rfl rfl rfl ?_ hi.adm
  intro j g hg
  by_cases hij : j = i
  · subst hij
    exact hf g (by simpa [MountSt.setFid] using hg)
  · refine hi.fids j g ?_
    simpa [MountSt.setFid, hij] using hg

theorem Inv.send (hi : Inv s) {a : Option Amsg} (ha : ∀ b ∈ a, AmsgOk s b) : Inv (s.send a) := by
  refine hi.keep (fun _ h => h) rfl rfl rfl hi.fids ?_
  intro b hb
  rcases List.mem_append.1 hb with hb | hb
  · exact hi.adm b hb
  · exact ha b (by simpa using hb)

/-! ## Opening an entry -/

/-- Another entry in the table: fids and messages know nothing of it. -/
theorem FidOk.newdent {f : Fid} (h : FidOk s f) (x : Dent) (hx : x.id = s.nextdent) :
    FidOk { s with dtab := x :: s.dtab, nextdent := s.nextdent + 1 } f := by
  refine ⟨Nat.lt_succ_of_lt h.lt, h.le, ?_, h.up⟩
  intro de hde hid
  rcases List.mem_cons.1 hde with rfl | hde
  · have := h.lt
    omega
  · exact h.path de hde hid

theorem AmsgOk.newdent {a : Amsg} (h : AmsgOk s a) (x : Dent) (hx : x.id = s.nextdent) :
    AmsgOk { s with dtab := x :: s.dtab, nextdent := s.nextdent + 1 } a := by
  intro hr q hq
  obtain ⟨h1, h2⟩ := h hr q hq
  refine ⟨Nat.lt_succ_of_lt h1, ?_⟩
  intro de hde hid
  rcases List.mem_cons.1 hde with rfl | hde
  · omega
  · exact h2 de hde hid

/-- A new entry, of a path that no open entry has. -/
theorem Inv.newdent (hi : Inv s) (x : Dent) (hx : x.id = s.nextdent)
    (hk : ∃ name, dkey x.up name = some x.k) (hd : lookupDir s.tree x.k = some (some x.xdir))
    (hp : ∀ de ∈ s.dtab, de.xdir.qid.path ≠ x.xdir.qid.path) :
    Inv { s with dtab := x :: s.dtab, nextdent := s.nextdent + 1 } := by
  refine ⟨hi.tree, ⟨?_, ?_, ?_, ?_, ?_, ?_⟩, fun i f hf => (hi.fids i f hf).newdent x hx,
    fun a ha => (hi.adm a ha).newdent x hx⟩
  · intro de hde hg
    rcases List.mem_cons.1 hde with rfl | hde
    · exact ⟨_, hd, rfl⟩
    · exact hi.dents.cached de hde hg
  · intro de hde
    rcases List.mem_cons.1 hde with rfl | hde
    · exact hk
    · exact hi.dents.key de hde
  · intro a ha b hb hab
    rcases List.mem_cons.1 ha with rfl | ha' <;> rcases List.mem_cons.1 hb with rfl | hb'
    · rfl
    · have := hi.dents.id_lt b hb'
      omega
    · have := hi.dents.id_lt a ha'
      omega
    · exact hi.dents.ids a ha' b hb' hab
  · intro a ha b hb hab
    rcases List.mem_cons.1 ha with rfl | ha' <;> rcases List.mem_cons.1 hb with rfl | hb'
    · rfl
    · exact absurd hab.symm (hp b hb')
    · exact absurd hab (hp a ha')
    · exact hi.dents.paths a ha' b hb' hab
  · intro de hde
    rcases List.mem_cons.1 hde with rfl | hde
    · rw [hx]
      exact Nat.lt_succ_self _
    · exact Nat.lt_succ_of_lt (hi.dents.id_lt de hde)
  · intro de hde
    rcases List.mem_cons.1 hde with rfl | hde
    · exact hi.tree.old _ _ (pathAt_eq_some.2 ⟨_, hd, rfl⟩)
    · exact hi.dents.path_le de hde

/-- `getdent` of an entry that was found under its key. -/
theorem Inv.getdent (hi : Inv s) {s' : MountSt} {up : Int64} {name : Bytes}
    (hk : dkey up name = some k) (hd : lookupDir s.tree k = some (some d))
    (hn : d.name = some name) (h : s.getdent up d = some (s', p)) :
    Inv s' ∧ s'.tree = s.tree ∧ s'.nextqid = s.nextqid ∧ (∀ f, FidOk s f → FidOk s' f)
      ∧ p < s'.nextdent ∧ ∀ de ∈ s'.dtab, de.id = p → de.xdir.qid.path = d.qid.path := by
  unfold MountSt.getdent at h
  split at h
  · next de hfind =>
    obtain ⟨rfl, rfl⟩ := Prod.mk.inj (Option.some.inj h)
    have hde := List.mem_of_find?_eq_some hfind
    have hpath : de.xdir.qid.path = d.qid.path := by simpa using List.find?_some hfind
    refine ⟨hi.ref _, rfl, rfl, fun f hf => (tame_ref hi _).fidOk hf, hi.dents.id_lt de hde, ?_⟩
    intro x hx hid
    obtain ⟨y, hy, rfl⟩ := mem_setDent hx
    have hy' : y = de := by
      refine hi.dents.ids y hy de hde ?_
      rw [← hid]
      split_ifs <;> rfl
    subst hy'
    simpa using hpath
  · next hfind =>
    simp only [hn, Option.bind_eq_bind, Option.bind_some, hk, Option.some.injEq, Prod.mk.injEq] at h
    obtain ⟨rfl, rfl⟩ := h
    have hp : ∀ de ∈ s.dtab, de.xdir.qid.path ≠ d.qid.path := by
      simpa using List.find?_eq_none.1 hfind
    refine ⟨hi.newdent _ rfl ⟨name, hk⟩ hd hp, rfl, rfl, fun f hf => hf.newdent _ rfl,
      Nat.lt_succ_self _, ?_⟩
    intro x hx hid
    rcases List.mem_cons.1 hx with rfl | hx
    · rfl
    · have := hi.dents.id_lt x hx
      omega

/-! ## Changes of the tree -/

/-- Messages after which no new entry is found, and those that are open and not gone still are. -/
theorem Inv.shrink (hi : Inv s) {ms : List GefsMsg}
    (hsub : ∀ k d, lookupDir (s.tree ++ ms) k = some (some d) → lookupDir s.tree k = some (some d))
    (hkeep : ∀ de ∈ s.dtab, de.gone = false →
      lookupDir (s.tree ++ ms) de.k = lookupDir s.tree de.k) :
    Inv { s with tree := s.tree ++ ms } := by
  have hpath : ∀ k q, pathAt (s.tree ++ ms) k = some q → pathAt s.tree k = some q := by
    intro k q h
    obtain ⟨d, hd, rfl⟩ := pathAt_eq_some.1 h
    exact pathAt_eq_some.2 ⟨d, hsub k d hd, rfl⟩
  refine ⟨⟨fun k k' q h h' => hi.tree.own k k' q (hpath k q h) (hpath k' q h'),
      fun k q h => hi.tree.old k q (hpath k q h)⟩,
    ⟨?_, hi.dents.key, hi.dents.ids, hi.dents.paths, hi.dents.id_lt, hi.dents.path_le⟩, ?_, hi.adm⟩
  · intro de hde hg
    rw [hkeep de hde hg]
    exact hi.dents.cached de hde hg
  · intro i f hf
    obtain ⟨h1, h2, h3, h4⟩ := hi.fids i f hf
    exact ⟨h1, h2, h3, fun hne k h => h4 hne k (hpath k _ h)⟩

/-- Messages on the keys of directories. -/
theorem Inv.super (hi : Inv s) {ms : List GefsMsg} (hms : ∀ m ∈ ms, m.k.length = 9) :
    Inv { s with tree := s.tree ++ ms } := by
  have hother : ∀ k, k.length ≠ 9 → lookupDir (s.tree ++ ms) k = lookupDir s.tree k := by
    intro k hk
    refine lookupDir_append_of_ne ?_
    rintro m hm rfl
    exact hk (hms m hm)
  refine hi.shrink ?_ ?_
  · intro k d h
    by_cases hk : k.length = 9
    · exact absurd h (lookupDir_ne_of_length hk)
    · rwa [hother k hk] at h
  · intro de hde _
    obtain ⟨name, hname⟩ := hi.dents.key de hde
    exact hother _ (by have := (dkey_shape hname).1; omega)

/-- Messages that clear data blocks. -/
theorem Inv.clear (hi : Inv s) {ms : List GefsMsg}
    (hms : ∀ m ∈ ms, m.op = .oclearb ∧ m.k.head? = some gefsKdat) :
    Inv { s with tree := s.tree ++ ms } := by
  have hother : ∀ k, (∀ m ∈ ms, m.k ≠ k) → lookupDir (s.tree ++ ms) k = lookupDir s.tree k :=
    fun k => lookupDir_append_of_ne
  refine hi.shrink ?_ ?_
  · intro k d h
    by_cases hk : ∃ m ∈ ms, m.k = k
    · exfalso
      obtain ⟨v, hv, -⟩ := lookupDir_eq_some_some.1 h
      rcases hf : s.tree.find k with _ | u
      · rw [find_append_none hf] at hv
        cases hv
      · rw [find_clear (fun m hm => (hms m hm).1) hk hf] at hv
        cases hv
    · push Not at hk
      rwa [hother k hk] at h
  · intro de hde _
    refine hother _ ?_
    rintro m hm he
    obtain ⟨name, hname⟩ := hi.dents.key de hde
    have h1 := (hms m hm).2
    rw [he, (dkey_shape hname).2] at h1
    cases h1

/-- The removal of an entry that no open entry is, except for one that is gone. -/
theorem Inv.delete (hi : Inv s) {v : Bytes} (hf : s.tree.find k = some (some v)) {m : GefsMsg}
    (hop : m.op = .odelete) (hk : m.k = k)
    (hg : ∀ de ∈ s.dtab, de.gone = false → de.k ≠ k) :
    Inv { s with tree := s.tree ++ [m] } := by
  have hother : ∀ j, j ≠ k → lookupDir (s.tree ++ [m]) j = lookupDir s.tree j := by
    intro j hj
    exact lookupDir_append_of_ne (by simpa [hk] using Ne.symm hj)
  refine hi.shrink ?_ fun de hde hgone => hother _ (hg de hde hgone)
  intro j d h
  by_cases hj : j = k
  · subst hj
    obtain ⟨w, hw, -⟩ := lookupDir_eq_some_some.1 h
    rw [find_remove hf (.inr ⟨hop, rfl⟩) (by simp [hk])] at hw
    cases hw
  · rwa [hother j hj] at h

/-- An entry of a new qid path under a key that has none. -/
theorem Inv.insert (hi : Inv s) {up : Int64} {m : GefsMsg} (hm : insertDir up d = some m)
    (hn : ∀ t ∈ d.name, ∀ b ∈ t, b ≠ 0) (hf : s.tree.find m.k = some none)
    (hq : d.qid.path = s.nextqid + 1) (hmax : s.nextqid ≠ -1) :
    Inv { s with tree := s.tree ++ [m], nextqid := s.nextqid + 1 } := by
  have hlt : s.nextqid.toNat < (s.nextqid + 1).toNat := by
    rw [UInt64.toNat_add]
    have h := s.nextqid.toNat_lt
    have hne : s.nextqid.toNat ≠ 2 ^ 64 - 1 := fun h => hmax (UInt64.toNat_inj.1 h)
    rw [show (1 : UInt64).toNat = 1 from rfl, Nat.mod_eq_of_lt (by omega)]
    omega
  have hself : lookupDir (s.tree ++ [m]) m.k = some (some d) :=
    lookupDir_insert hf hm rfl hn (by simp)
  have hother : ∀ k, k ≠ m.k → lookupDir (s.tree ++ [m]) k = lookupDir s.tree k := by
    intro k hk
    exact lookupDir_append_of_ne (by simpa using Ne.symm hk)
  have hnone : pathAt s.tree m.k = none := by
    unfold pathAt
    rw [lookupDir_eq_some_none.2 hf]
    rfl
  -- what lies under a key now is the new entry or what lay there before
  have hcases : ∀ k q, pathAt (s.tree ++ [m]) k = some q →
      k = m.k ∧ q = s.nextqid + 1 ∨ k ≠ m.k ∧ pathAt s.tree k = some q := by
    intro k q h
    by_cases hk : k = m.k
    · subst hk
      refine .inl ⟨rfl, ?_⟩
      unfold pathAt at h
      rw [hself] at h
      rw [← hq]
      exact (Option.some.inj h).symm
    · refine .inr ⟨hk, ?_⟩
      unfold pathAt at h ⊢
      rwa [hother k hk] at h
  have hkey : ∀ de ∈ s.dtab, de.gone = false → de.k ≠ m.k := by
    intro de hde hg he
    have := hi.dents.pathAt hde hg
    rw [he, hnone] at this
    cases this
  have hold : ∀ {q : UInt64}, q.toNat ≤ s.nextqid.toNat → q ≠ s.nextqid + 1 := by
    rintro q hle rfl
    omega
  refine ⟨⟨?_, ?_⟩, ⟨?_, hi.dents.key, hi.dents.ids, hi.dents.paths, hi.dents.id_lt, ?_⟩, ?_,
    hi.adm⟩
  · intro k k' q h h'
    rcases hcases k q h with ⟨rfl, rfl⟩ | ⟨-, h1⟩ <;> rcases hcases k' _ h' with ⟨rfl, h2⟩ | ⟨-, h2⟩
    · rfl
    · exact absurd rfl (hold (hi.tree.old _ _ h2))
    · exact absurd h2 (hold (hi.tree.old _ _ h1))
    · exact hi.tree.own k k' q h1 h2
  · intro k q h
    rcases hcases k q h with ⟨-, rfl⟩ | ⟨-, h1⟩
    · exact le_rfl
    · exact (hi.tree.old k q h1).trans hlt.le
  · intro de hde hg
    rw [hother _ (hkey de hde hg)]
    exact hi.dents.cached de hde hg
  · exact fun de hde => (hi.dents.path_le de hde).trans hlt.le
  · intro i f hf'
    obtain ⟨h1, h2, h3, h4⟩ := hi.fids i f hf'
    refine ⟨h1, h2.trans hlt.le, h3, ?_⟩
    intro hne k h
    rcases hcases k _ h with ⟨-, he⟩ | ⟨-, h5⟩
    · exact absurd he (hold h2)
    · exact h4 hne k h5

/-- An open entry changed in memory and in the tree, where the other keys of open entries and the
directories of the fids' files stay. -/
theorem Inv.change (hi : Inv s) (hde : s.dent p = some de) (hg : de.gone = false)
    {g : Dent → Dent} {t : Entries} (hid : (g de).id = de.id) (hgg : (g de).gone = de.gone)
    (hpath : (g de).xdir.qid.path = de.xdir.qid.path)
    (hkey : ∃ name, dkey (g de).up name = some (g de).k)
    (hself : ∃ d, lookupDir t (g de).k = some (some d) ∧ unnamed (g de).xdir = unnamed d)
    (hother : ∀ x ∈ s.dtab, x.gone = false → x.k ≠ de.k → lookupDir t x.k = lookupDir s.tree x.k)
    (htree : TreeOk t s.nextqid)
    (hup : ∀ i f, s.fids i = some f → f.dir ≠ f.dent → ∀ k, pathAt t k = some f.qpath →
      ∃ name, dkey f.pqpath name = some k) :
    Inv { s.setDent p g with tree := t } := by
  obtain ⟨hmem, rfl⟩ := dent_mem hde
  -- each entry is the one changed, as it is now, or another as it was
  have hcases : ∀ x ∈ (s.setDent de.id g).dtab, x = g de ∨ x ∈ s.dtab ∧ x.id ≠ de.id := by
    intro x hx
    obtain ⟨y, hy, rfl⟩ := mem_setDent hx
    by_cases hyid : y.id = de.id
    · left
      rw [if_pos hyid, hi.dents.ids y hy de hmem hyid]
    · right
      rw [if_neg hyid]
      exact ⟨hy, hyid⟩
  refine ⟨htree, ⟨?_, ?_, ?_, ?_, ?_, ?_⟩, ?_, ?_⟩
  · intro x hx hgx
    rcases hcases x hx with rfl | ⟨hx, hne⟩
    · exact hself
    · have hk : x.k ≠ de.k := fun hk => hne (congrArg _ (hi.dents.eq_of_key hx hmem hgx hg hk))
      rw [hother x hx hgx hk]
      exact hi.dents.cached x hx hgx
  · intro x hx
    rcases hcases x hx with rfl | ⟨hx, -⟩
    · exact hkey
    · exact hi.dents.key x hx
  · intro a ha b hb hab
    rcases hcases a ha with rfl | ⟨ha, hne⟩ <;> rcases hcases b hb with rfl | ⟨hb, hne'⟩
    · rfl
    · exact absurd (hab.symm.trans hid) hne'
    · exact absurd (hab.trans hid) hne
    · exact hi.dents.ids a ha b hb hab
  · intro a ha b hb hab
    rcases hcases a ha with rfl | ⟨ha, hne⟩ <;> rcases hcases b hb with rfl | ⟨hb, hne'⟩
    · rfl
    · exact absurd (congrArg _ (hi.dents.paths b hb de hmem (hab.symm.trans hpath))) hne'
    · exact absurd (congrArg _ (hi.dents.paths a ha de hmem (hab.trans hpath))) hne
    · exact hi.dents.paths a ha b hb hab
  · intro x hx
    rcases hcases x hx with rfl | ⟨hx, -⟩
    · rw [hid]
      exact hi.dents.id_lt de hmem
    · exact hi.dents.id_lt x hx
  · intro x hx
    rcases hcases x hx with rfl | ⟨hx, -⟩
    · rw [hpath]
      exact hi.dents.path_le de hmem
    · exact hi.dents.path_le x hx
  · intro i f hf
    obtain ⟨h1, h2, h3, -⟩ := hi.fids i f hf
    refine ⟨h1, h2, ?_, hup i f hf⟩
    intro x hx hxid
    rcases hcases x hx with rfl | ⟨hx, -⟩
    · rw [hpath]
      exact h3 de hmem (hid.symm.trans hxid)
    · exact h3 x hx hxid
  · intro a ha hr q hq
    obtain ⟨h1, h2⟩ := hi.adm a ha hr q hq
    refine ⟨h1, ?_⟩
    intro x hx hxid
    rcases hcases x hx with rfl | ⟨hx, -⟩
    · rw [hgg]
      exact h2 de hmem (hid.symm.trans hxid)
    · exact h2 x hx hxid

/-- A wstat message on an open entry, and the same change in memory. -/
theorem Inv.wstat (hi : Inv s) (hde : s.dent p = some de) (hg : de.gone = false) {w : Wstat}
    {g : Dent → Dent} (hid : (g de).id = de.id) (hgg : (g de).gone = de.gone)
    (hup : (g de).up = de.up) (hk : (g de).k = de.k)
    (hx : unnamed (g de).xdir = unnamed (w.upd (bumpVers de.xdir))) :
    Inv { s.setDent p g with tree := s.tree ++ [w.msg de.k] } := by
  have hmem := (dent_mem hde).1
  obtain ⟨d, hd, hu⟩ := hi.dents.cached de hmem hg
  have hself : lookupDir (s.tree ++ [w.msg de.k]) de.k = some (some (w.upd (bumpVers d))) :=
    lookupDir_wstat hd (by simp [Wstat.msg])
  have hother : ∀ k, k ≠ de.k → lookupDir (s.tree ++ [w.msg de.k]) k = lookupDir s.tree k := by
    intro k hk
    exact lookupDir_append_of_ne (by simpa [Wstat.msg] using Ne.symm hk)
  have hpath : ∀ k, pathAt (s.tree ++ [w.msg de.k]) k = pathAt s.tree k := by
    intro k
    unfold pathAt
    by_cases hk : k = de.k
    · subst hk
      rw [hself, hd]
      rfl
    · rw [hother k hk]
  refine hi.change hde hg hid hgg ?_ ?_ ?_ (fun x _ _ hne => hother x.k hne) ?_ ?_
  · rw [qid_of_unnamed hx]
    rfl
  · rw [hup, hk]
    exact hi.dents.key de hmem
  · rw [hk, hx]
    exact ⟨_, hself, congrArg (fun d => w.upd (bumpVers d)) hu⟩
  · exact ⟨fun k k' q h h' => hi.tree.own k k' q (hpath k ▸ h) (hpath k' ▸ h'),
      fun k q h => hi.tree.old k q (hpath k ▸ h)⟩
  · exact fun i f hf hne k h => (hi.fids i f hf).up hne k (hpath k ▸ h)

/-- An open entry moved to another name in its directory. -/
theorem Inv.rename (hi : Inv s) (hde : s.dent p = some de) (hg : de.gone = false)
    {g : Dent → Dent} {m : GefsMsg} (hid : (g de).id = de.id) (hgg : (g de).gone = de.gone)
    (hup : (g de).up = de.up) (hk : (g de).k = m.k) (hm : insertDir de.up d = some m)
    (hn : ∀ t ∈ d.name, ∀ b ∈ t, b ≠ 0) (hf : s.tree.find m.k = some none)
    (hq : d.qid.path = de.xdir.qid.path) (hx : unnamed (g de).xdir = unnamed d) :
    Inv { s.setDent p g with tree := s.tree ++ [⟨.oclobber, de.k, [], []⟩, m] } := by
  have hmem := (dent_mem hde).1
  obtain ⟨d0, hd0, hu⟩ := hi.dents.cached de hmem hg
  obtain ⟨v, hv, -⟩ := lookupDir_eq_some_some.1 hd0
  have hne : m.k ≠ de.k := by
    intro h
    rw [h, hv] at hf
    cases hf
  have hnew : lookupDir (s.tree ++ [⟨.oclobber, de.k, [], []⟩, m]) m.k = some (some d) :=
    lookupDir_insert hf hm rfl hn (by simp [Ne.symm hne])
  have hold : lookupDir (s.tree ++ [⟨.oclobber, de.k, [], []⟩, m]) de.k = some none :=
    lookupDir_eq_some_none.2 (find_remove hv (.inl rfl) (m := ⟨.oclobber, de.k, [], []⟩)
      (by simp [hne]))
  have hother : ∀ k, k ≠ de.k → k ≠ m.k →
      lookupDir (s.tree ++ [⟨.oclobber, de.k, [], []⟩, m]) k = lookupDir s.tree k := by
    intro k h1 h2
    refine lookupDir_append_of_ne ?_
    simp [Ne.symm h1, Ne.symm h2]
  have hpath0 : pathAt s.tree de.k = some de.xdir.qid.path := hi.dents.pathAt hmem hg
  -- an entry found now is the one moved or one that was there
  have hcases : ∀ k q, pathAt (s.tree ++ [⟨.oclobber, de.k, [], []⟩, m]) k = some q →
      k = m.k ∧ q = de.xdir.qid.path ∨ k ≠ de.k ∧ pathAt s.tree k = some q := by
    intro k q h
    unfold pathAt at h
    by_cases h1 : k = m.k
    · subst h1
      rw [hnew] at h
      exact .inl ⟨rfl, by rw [← hq]; exact (Option.some.inj h).symm⟩
    · by_cases h2 : k = de.k
      · subst h2
        rw [hold] at h
        cases h
      · rw [hother k h2 h1] at h
        exact .inr ⟨h2, h⟩
  refine hi.change hde hg hid hgg ?_ ?_ ?_ ?_ ⟨?_, ?_⟩ ?_
  · rw [qid_of_unnamed hx, hq]
  · rw [hup, hk]
    exact dkey_of_insertDir hm
  · rw [hk]
    exact ⟨d, hnew, hx⟩
  · intro x hxm hgx hxk
    refine hother x.k hxk ?_
    rintro he
    have := hi.dents.pathAt hxm hgx
    rw [he, pathAt, lookupDir_eq_some_none.2 hf] at this
    cases this
  · intro k k' q h h'
    rcases hcases k q h with ⟨rfl, rfl⟩ | ⟨hk1, h1⟩ <;>
      rcases hcases k' _ h' with ⟨rfl, h2⟩ | ⟨hk2, h2⟩
    · rfl
    · exact absurd (hi.tree.own _ _ _ h2 hpath0) hk2
    · subst h2
      exact absurd (hi.tree.own _ _ _ h1 hpath0) hk1
    · exact hi.tree.own k k' q h1 h2
  · intro k q h
    rcases hcases k q h with ⟨-, rfl⟩ | ⟨-, h1⟩
    · exact hi.dents.path_le de hmem
    · exact hi.tree.old k q h1
  · intro i f hfi hne k h
    rcases hcases k _ h with ⟨rfl, he⟩ | ⟨-, h1⟩
    · obtain ⟨n1, hn1⟩ := (hi.fids i f hfi).up hne de.k (by rw [hpath0, he])
      obtain ⟨n2, hn2⟩ := hi.dents.key de hmem
      rw [(gefsPackdkey_inj hn1 hn2).1]
      exact dkey_of_insertDir hm
    · exact (hi.fids i f hfi).up hne k h1

/-! ## Checks -/

section Check

variable {α β : Type}

theorem run_bind_ok {x : Chk α} {f : α → Chk β} {b : β} :
    (x >>= f).run = some (.ok b) ↔ ∃ a, x.run = some (.ok a) ∧ (f a).run = some (.ok b) := by
  rw [ExceptT.run_bind]
  rcases h : x.run with _ | _ | a
  · simp
  · simp
  · simp

theorem run_pure_ok {a b : α} : (pure a : Chk α).run = some (.ok b) ↔ a = b := by
  simp

theorem run_refuse_ok {c : Bool} {e : Err} {u : Unit} :
    (refuse c e).run = some (.ok u) ↔ c = false := by
  unfold refuse
  cases c <;> simp

theorem run_must_ok {x : Option α} {a : α} : (must x).run = some (.ok a) ↔ x = some a := by
  unfold must
  cases x <;> simp

theorem run_only_ok {c : Bool} {x : Chk Unit} {u : Unit} :
    (only c x).run = some (.ok u) ↔ (c = true → x.run = some (.ok u)) := by
  unfold only
  cases c <;> simp

theorem run_orElse_ok {x : Option α} {e : Err} {a : α} :
    (orElse x e).run = some (.ok a) ↔ x = some a := by
  unfold orElse
  cases x <;> simp

/-- A walk refused at its end leaves the state, the fid it made apart. -/
theorem MountSt.eq_of_undup {s s' : MountSt} {i : FidKey} {f : Fid} {duped : Bool}
    (h : s.undup i f duped = some s') : s' = s ∨ s' = s.setFid i none := by
  unfold undup clunkfid at h
  cases duped
  · exact .inl (Option.some.inj h).symm
  · rcases hr : f.rclose
    · rw [if_pos rfl, hr] at h
      exact .inr (Option.some.inj h).symm
    · rw [if_pos rfl, hr] at h
      cases h

/-- What checks that passed were asked for. -/
theorem Chk.Passes.of_run {c : Chk α} {P : α → Prop} (h : c.Passes P) {a : α}
    (ha : c.run = some (.ok a)) : P a := by
  unfold Chk.Passes at h
  rwa [ha] at h

end Check

end GefsFuse.Server
