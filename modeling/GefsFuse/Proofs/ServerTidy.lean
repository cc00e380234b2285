import GefsFuse.Proofs.ServerNames

/-!
# The names of a mount over a run

Each operation of an orderly run leaves the names a tree (`namespace_of_run`). What carries this is
`Tidy`: besides the names themselves, that the open entries are where they say they are, and that a
fid's directory is its file's directory, or, in the fid of a file that was just created, at times
the one above.
-/

namespace GefsFuse.Server

open MountSt

/-- An open entry is the tree's unless it is gone. If its file is in the tree, it is there. -/
structure DentTidy (t : Entries) (n : UInt64) (de : Dent) : Prop where
  key : ∃ name : CStr, dkey de.up name.bytes = some de.k
  here : de.gone = false → spot t de.k = some (de.xdir.qid.path, isDir de.xdir)
  sole : ∀ k b, spot t k = some (de.xdir.qid.path, b) → k = de.k ∧ b = isDir de.xdir
  mode : ModeOk de.xdir
  le : de.xdir.qid.path.toNat ≤ n.toNat

/-- All files of the qid path `q` are in the directory `up`. -/
def Within (t : Entries) (q : UInt64) (up : Int64) : Prop :=
  ∀ k b, spot t k = some (q, b) → ∃ name : CStr, dkey up name.bytes = some k

/-- The directory of a fid whose file is not the root. A fid that has created its file may have the
directory above instead. -/
structure FidHome (s : MountSt) (f : Fid) : Prop where
  lt : f.dir < s.nextdent
  up : f.pqpath ≠ -1
  le : f.pqpath.toUInt64.toNat ≤ s.nextqid.toNat
  within : Within s.tree f.qpath f.pqpath
  dir : ∀ x ∈ s.dtab, x.id = f.dir → x.xdir.qid.path = f.pqpath.toUInt64
    ∨ f.mode ≠ -1 ∧ Within s.tree f.pqpath.toUInt64 x.xdir.qid.path.toInt64

structure FidTidy (s : MountSt) (f : Fid) : Prop where
  lt : f.dent < s.nextdent
  le : f.qpath.toNat ≤ s.nextqid.toNat
  path : ∀ de ∈ s.dtab, de.id = f.dent → de.xdir.qid.path = f.qpath
  home : f.dir ≠ f.dent → FidHome s f

/-- What is removed on close is gone, and the file it says. -/
def AmsgTidy (s : MountSt) (a : Amsg) : Prop :=
  a.rclose → ∀ p ∈ a.dent, p < s.nextdent
    ∧ ∀ de ∈ s.dtab, de.id = p → de.gone = true ∧ de.xdir.qid.path = a.qpath

structure Tidy (s : MountSt) : Prop where
  names : NamesOk s.tree s.nextqid
  small : s.nextqid.toNat < 2 ^ 63
  dents : ∀ de ∈ s.dtab, DentTidy s.tree s.nextqid de ∧ de.id < s.nextdent
  ids : ∀ a ∈ s.dtab, ∀ b ∈ s.dtab, a.id = b.id → a = b
  paths : ∀ a ∈ s.dtab, ∀ b ∈ s.dtab, a.xdir.qid.path = b.xdir.qid.path → a = b
  fids : ∀ i f, s.fids i = some f → FidTidy s f
  adm : ∀ a ∈ s.adm, AmsgTidy s a

variable {us : Users} {s s' : MountSt} {i : FidKey} {r : Reply} {f : Fid} {de : Dent} {p : ℕ}

/-! ## Going on -/

/-- The files that were there before are in the directories they were in. -/
def Housed (t t' : Entries) (n : UInt64) : Prop :=
  ∀ k q b, spot t' k = some (q, b) → q.toNat ≤ n.toNat → ∃ k0, spot t k0 = some (q, b)
    ∧ ∀ up, ∀ name : CStr, dkey up name.bytes = some k0 →
      ∃ name' : CStr, dkey up name'.bytes = some k

theorem Housed.within {t t' : Entries} {n q : UInt64} {up : Int64} (h : Housed t t' n)
    (hq : q.toNat ≤ n.toNat) (hw : Within t q up) : Within t' q up := by
  intro k b hk
  obtain ⟨k0, hk0, hname⟩ := h k q b hk hq
  obtain ⟨name, hn⟩ := hw k0 b hk0
  exact hname up name hn

theorem Housed.of_spot {t t' : Entries} {n : UInt64}
    (h : ∀ k x, spot t' k = some x → spot t k = some x) : Housed t t' n :=
  fun k q b hk _ => ⟨k, h k (q, b) hk, fun _ name hn => ⟨name, hn⟩⟩

/-- From `s` to `s'` the open entries are the same files, those that are gone stay gone, and no file
changes its directory. -/
structure Later (s s' : MountSt) : Prop where
  dtab : ∀ x ∈ s'.dtab, x.id < s.nextdent → ∃ y ∈ s.dtab, x.id = y.id
    ∧ x.xdir.qid.path = y.xdir.qid.path ∧ (y.gone = true → x.gone = true)
  nextdent : s.nextdent ≤ s'.nextdent
  nextqid : s.nextqid.toNat ≤ s'.nextqid.toNat
  housed : Housed s.tree s'.tree s.nextqid

theorem Later.fid (h : Later s s') (hf : FidTidy s f) : FidTidy s' f := by
  refine ⟨hf.lt.trans_le h.nextdent, hf.le.trans h.nextqid, ?_, fun hne => ?_⟩
  · intro x hx hid
    obtain ⟨y, hy, he, hp, -⟩ := h.dtab x hx (hid ▸ hf.lt)
    rw [hp]
    exact hf.path y hy (he ▸ hid)
  · obtain ⟨hlt, hup, hle, hw, hdir⟩ := hf.home hne
    refine ⟨hlt.trans_le h.nextdent, hup, hle.trans h.nextqid, h.housed.within hf.le hw, ?_⟩
    intro x hx hid
    obtain ⟨y, hy, he, hp, -⟩ := h.dtab x hx (hid ▸ hlt)
    rw [hp]
    rcases hdir y hy (he ▸ hid) with hd | ⟨hm, hd⟩
    · exact .inl hd
    · exact .inr ⟨hm, h.housed.within hle hd⟩

theorem Later.amsg (h : Later s s') {a : Amsg} (ha : AmsgTidy s a) : AmsgTidy s' a := by
  intro hr p hp
  obtain ⟨hlt, hg⟩ := ha hr p hp
  refine ⟨hlt.trans_le h.nextdent, ?_⟩
  intro x hx hid
  obtain ⟨y, hy, he, hq, hgone⟩ := h.dtab x hx (hid ▸ hlt)
  obtain ⟨hg1, hg2⟩ := hg y hy (he ▸ hid)
  exact ⟨hgone hg1, hq ▸ hg2⟩

/-- A change of each open entry by `g`, and of the tree. -/
theorem Tidy.map (hi : Tidy s) {g : Dent → Dent}
    (hg : ∀ y ∈ s.dtab, (g y).id = y.id ∧ (g y).xdir.qid.path = y.xdir.qid.path
      ∧ (y.gone = true → (g y).gone = true))
    (hdtab : ∀ x ∈ s'.dtab, ∃ y ∈ s.dtab, x = g y) (hnext : s'.nextdent = s.nextdent)
    (hqid : s.nextqid.toNat ≤ s'.nextqid.toNat) (hsmall : s'.nextqid.toNat < 2 ^ 63)
    (hnames : NamesOk s'.tree s'.nextqid) (hhoused : Housed s.tree s'.tree s.nextqid)
    (hdent : ∀ y ∈ s.dtab, DentTidy s'.tree s'.nextqid (g y))
    (hfids : ∀ i f, s'.fids i = some f → FidTidy s f) (hadm : ∀ a ∈ s'.adm, AmsgTidy s a) :
    Tidy s' := by
  have ho : Later s s' := by
    refine ⟨?_, hnext.ge, hqid, hhoused⟩
    intro x hx _
    obtain ⟨y, hy, rfl⟩ := hdtab x hx
    exact ⟨y, hy, hg y hy⟩
  refine ⟨hnames, hsmall, ?_, ?_, ?_, fun i f hf => ho.fid (hfids i f hf),
    fun a ha => ho.amsg (hadm a ha)⟩
  · intro x hx
    obtain ⟨y, hy, rfl⟩ := hdtab x hx
    rw [(hg y hy).1, hnext]
    exact ⟨hdent y hy, (hi.dents y hy).2⟩
  · intro a ha b hb hab
    obtain ⟨y, hy, rfl⟩ := hdtab a ha
    obtain ⟨z, hz, rfl⟩ := hdtab b hb
    rw [(hg y hy).1, (hg z hz).1] at hab
    rw [hi.ids y hy z hz hab]
  · intro a ha b hb hab
    obtain ⟨y, hy, rfl⟩ := hdtab a ha
    obtain ⟨z, hz, rfl⟩ := hdtab b hb
    rw [(hg y hy).2.1, (hg z hz).2.1] at hab
    rw [hi.paths y hy z hz hab]

/-! ## Changes that leave the names alone -/

/-- What an open entry is, and that it is gone, is left alone. -/
structure Still (f : Dent → Dent) (de : Dent) : Prop where
  id : (f de).id = de.id
  up : (f de).up = de.up
  k : (f de).k = de.k
  path : (f de).xdir.qid.path = de.xdir.qid.path
  isDir : isDir (f de).xdir = isDir de.xdir
  mode : ModeOk de.xdir → ModeOk (f de).xdir
  gone : de.gone = true → (f de).gone = true

/-- The type and the mode of an entry stay. -/
theorem Still.of_qid {g : Dent → Dent} (hid : (g de).id = de.id) (hup : (g de).up = de.up)
    (hk : (g de).k = de.k) (hp : (g de).xdir.qid.path = de.xdir.qid.path)
    (ht : (g de).xdir.qid.type = de.xdir.qid.type) (hm : (g de).xdir.mode = de.xdir.mode)
    (hg : de.gone = true → (g de).gone = true) : Still g de := by
  have hd : Server.isDir (g de).xdir = Server.isDir de.xdir := by
    unfold Server.isDir
    rw [ht]
  refine ⟨hid, hup, hk, hp, hd, ?_, hg⟩
  unfold ModeOk
  rw [hd, hm]
  exact fun h => h

theorem DentTidy.still {t t' : Entries} {n : UInt64} (h : DentTidy t n de) {g : Dent → Dent}
    (hg : Still g de) (ht : ∀ j, spot t' j = spot t j) : DentTidy t' n (g de) := by
  refine ⟨?_, ?_, ?_, hg.mode h.mode, ?_⟩
  · rw [hg.up, hg.k]
    exact h.key
  · intro hgone
    rw [hg.k, hg.path, hg.isDir, ht]
    refine h.here ?_
    by_contra hc
    rw [hg.gone (by simpa using hc)] at hgone
    cases hgone
  · intro k b hk
    rw [hg.k, hg.isDir]
    rw [hg.path, ht] at hk
    exact h.sole k b hk
  · rw [hg.path]
    exact h.le

theorem Tidy.dent_eq (hi : Tidy s) (hde : de ∈ s.dtab) : s.dent de.id = some de := by
  obtain ⟨x, hx⟩ : ∃ x, s.dent de.id = some x := by
    rw [← Option.isSome_iff_exists, MountSt.dent, List.find?_isSome]
    exact ⟨de, hde, by simp⟩
  rw [hx, hi.ids x (dent_mem hx).1 de hde (dent_mem hx).2]

/-- Messages that leave the names alone, and a change of one open entry. -/
theorem Tidy.still (hi : Tidy s) {t : Entries} (ht : NamesOk t s.nextqid)
    (hsp : ∀ j, spot t j = spot s.tree j) {g : Dent → Dent}
    (hg : ∀ de, s.dent p = some de → Still g de) : Tidy { s.setDent p g with tree := t } := by
  have hstill : ∀ y ∈ s.dtab, Still (fun de => if de.id = p then g de else de) y := by
    intro y hy
    by_cases hp : y.id = p
    · have hb := hg y (hp ▸ hi.dent_eq hy)
      constructor <;> simp only [hp, if_true]
      · exact hp ▸ hb.id
      · exact hb.up
      · exact hb.k
      · exact hb.path
      · exact hb.isDir
      · exact hb.mode
      · exact hb.gone
    · constructor <;> simp only [hp, if_false]
      · exact id
      · exact id
  refine hi.map (g := fun de => if de.id = p then g de else de)
    (fun y hy => ⟨(hstill y hy).id, (hstill y hy).path, (hstill y hy).gone⟩)
    (fun x hx => mem_setDent hx) rfl le_rfl hi.small ht (.of_spot fun k x hx => hsp k ▸ hx)
    ?_ hi.fids hi.adm
  intro y hy
  exact (hi.dents y hy).1.still (g := fun de => if de.id = p then g de else de) (hstill y hy) hsp

theorem Tidy.setDent (hi : Tidy s) {g : Dent → Dent} (hg : ∀ de, s.dent p = some de → Still g de) :
    Tidy (s.setDent p g) :=
  hi.still hi.names (fun _ => rfl) hg

theorem Tidy.ref (hi : Tidy s) (p : ℕ) : Tidy (s.ref p) :=
  hi.setDent fun _ _ => .of_qid rfl rfl rfl rfl rfl rfl id

/-- The table only loses entries, and the fids and messages are others. -/
theorem Tidy.keep (hi : Tidy s) (hdtab : ∀ x ∈ s'.dtab, x ∈ s.dtab) (htree : s'.tree = s.tree)
    (hnext : s'.nextdent = s.nextdent) (hqid : s'.nextqid = s.nextqid)
    (hfids : ∀ i f, s'.fids i = some f → FidTidy s f) (hadm : ∀ a ∈ s'.adm, AmsgTidy s a) :
    Tidy s' := by
  refine hi.map (g := id) (fun _ _ => ⟨rfl, rfl, id⟩) (fun x hx => ⟨x, hdtab x hx, rfl⟩) hnext
    (by rw [hqid]) (hqid ▸ hi.small) (by rw [htree, hqid]; exact hi.names) ?_ ?_ hfids hadm
  · rw [htree]
    exact .of_spot fun _ _ h => h
  · rw [htree, hqid]
    exact fun y hy => (hi.dents y hy).1

theorem Tidy.clunkdent (hi : Tidy s) (p : ℕ) : Tidy (s.clunkdent p) := by
  have h : Tidy (s.setDent p fun de => { de with ref := de.ref - 1 }) :=
    hi.setDent fun _ _ => .of_qid rfl rfl rfl rfl rfl rfl id
  exact h.keep (fun x hx => List.mem_of_mem_filter hx) rfl rfl rfl h.fids h.adm

theorem Tidy.putfid (hi : Tidy s) (f : Fid) : Tidy (s.putfid f) :=
  (hi.clunkdent f.dent).clunkdent f.dir

theorem Tidy.freeamsg (hi : Tidy s) (a : Option Amsg) : Tidy (s.freeamsg a) := by
  unfold MountSt.freeamsg
  split
  · exact hi.clunkdent _
  · exact hi

theorem Tidy.setFid (hi : Tidy s) (i : FidKey) {f : Option Fid} (hf : ∀ g ∈ f, FidTidy s g) :
    Tidy (s.setFid i f) := by
  refine hi.keep (fun _ h => h) rfl rfl rfl ?_ hi.adm
  intro j g hg
  by_cases hij : j = i
  · subst hij
    exact hf g (by simpa [MountSt.setFid] using hg)
  · refine hi.fids j g ?_
    simpa [MountSt.setFid, hij] using hg

theorem Tidy.send (hi : Tidy s) {a : Option Amsg} (ha : ∀ b ∈ a, AmsgTidy s b) :
    Tidy (s.send a) := by
  refine hi.keep (fun _ h => h) rfl rfl rfl hi.fids ?_
  intro b hb
  rcases List.mem_append.1 hb with hb | hb
  · exact hi.adm b hb
  · exact ha b (by simpa using hb)

/-! ## Opening an entry -/

/-- `getdent` of an entry that was found under its key. -/
theorem Tidy.getdent (hi : Tidy s) {k : Bytes} {d : GefsXdir} {up : Int64} {name : CStr}
    (hk : dkey up name.bytes = some k) (hd : lookupDir s.tree k = some (some d))
    (hn : d.name = some name.bytes) (h : s.getdent up d = some (s', p)) :
    Tidy s' ∧ s'.tree = s.tree ∧ s'.nextqid = s.nextqid ∧ (∀ f, FidTidy s f → FidTidy s' f)
      ∧ p < s'.nextdent ∧ (∃ de ∈ s'.dtab, de.id = p)
      ∧ ∀ de ∈ s'.dtab, de.id = p → de.xdir.qid.path = d.qid.path := by
  have hspot := spot_of_lookup hd
  unfold MountSt.getdent at h
  split at h
  · next de hfind =>
    obtain ⟨rfl, rfl⟩ := Prod.mk.inj (Option.some.inj h)
    have hde := List.mem_of_find?_eq_some hfind
    have hpath : de.xdir.qid.path = d.qid.path := by simpa using List.find?_some hfind
    have ho : Later s (s.ref de.id) := by
      refine ⟨?_, le_rfl, le_rfl, .of_spot fun _ _ h => h⟩
      intro x hx _
      obtain ⟨y, hy, rfl⟩ := mem_setDent hx
      refine ⟨y, hy, ?_⟩
      split_ifs <;> exact ⟨rfl, rfl, id⟩
    refine ⟨hi.ref _, rfl, rfl, fun f hf => ho.fid hf, (hi.dents de hde).2,
      ⟨_, List.mem_map.2 ⟨de, hde, rfl⟩, by simp⟩, ?_⟩
    intro x hx hid
    obtain ⟨y, hy, rfl⟩ := mem_setDent hx
    have hy' : y = de := by
      refine hi.ids y hy de hde ?_
      rw [← hid]
      split_ifs <;> rfl
    subst hy'
    simpa using hpath
  · next hfind =>
    simp only [hn, Option.bind_eq_bind, Option.bind_some, hk, Option.some.injEq, Prod.mk.injEq] at h
    obtain ⟨rfl, rfl⟩ := h
    have hp : ∀ de ∈ s.dtab, de.xdir.qid.path ≠ d.qid.path := by
      simpa using List.find?_eq_none.1 hfind
    have ho : Later s { s with
        dtab := ⟨s.nextdent, d, up, k, 1, false, false⟩ :: s.dtab
        nextdent := s.nextdent + 1 } := by
      refine ⟨?_, Nat.le_succ _, le_rfl, .of_spot fun _ _ h => h⟩
      intro x hx hlt
      rcases List.mem_cons.1 hx with rfl | hx
      · exact absurd hlt (lt_irrefl _)
      · exact ⟨x, hx, rfl, rfl, id⟩
    have hnew : DentTidy s.tree s.nextqid ⟨s.nextdent, d, up, k, 1, false, false⟩ := by
      refine ⟨⟨name, hk⟩, fun _ => hspot, ?_, hi.names.ns.mode k d hd, hi.names.old _ _ _ hspot⟩
      intro j b hj
      obtain rfl := hi.names.ns.own _ _ _ _ _ hj hspot
      rw [hspot] at hj
      exact ⟨rfl, (Prod.mk.inj (Option.some.inj hj)).2.symm⟩
    refine ⟨⟨hi.names, hi.small, ?_, ?_, ?_, fun i f hf => ho.fid (hi.fids i f hf),
      fun a ha => ho.amsg (hi.adm a ha)⟩, rfl, rfl, fun f hf => ho.fid hf, Nat.lt_succ_self _,
      ⟨_, List.mem_cons_self, rfl⟩, ?_⟩
    · intro x hx
      rcases List.mem_cons.1 hx with rfl | hx
      · exact ⟨hnew, Nat.lt_succ_self _⟩
      · exact ⟨(hi.dents x hx).1, Nat.lt_succ_of_lt (hi.dents x hx).2⟩
    · intro a ha b hb hab
      rcases List.mem_cons.1 ha with rfl | ha' <;> rcases List.mem_cons.1 hb with rfl | hb'
      · rfl
      · exact absurd hab (hi.dents b hb').2.ne'
      · exact absurd hab (hi.dents a ha').2.ne
      · exact hi.ids a ha' b hb' hab
    · intro a ha b hb hab
      rcases List.mem_cons.1 ha with rfl | ha' <;> rcases List.mem_cons.1 hb with rfl | hb'
      · rfl
      · exact absurd hab.symm (hp b hb')
      · exact absurd hab (hp a ha')
      · exact hi.paths a ha' b hb' hab
    · intro x hx hid
      rcases List.mem_cons.1 hx with rfl | hx
      · rfl
      · have := (hi.dents x hx).2
        omega

/-! ## Changes of the names -/

/-- A new entry in a directory, of a new qid path. -/
theorem Tidy.insert (hi : Tidy s) {up : UInt64} {d : GefsXdir} {m : GefsMsg} {name : CStr}
    {k : Bytes} {dir : Bool} (hm : insertDir up.toInt64 d = some m) (hn : d.name = some name.bytes)
    (hne : name.bytes ≠ []) (hf : s.tree.find m.k = some none)
    (hq : s.nextqid.toNat < d.qid.path.toNat) (hsmall : d.qid.path.toNat < 2 ^ 63)
    (hp : spot s.tree k = some (up, true)) (hmode : ModeOk d) (hdir : isDir d = dir) :
    Tidy { s with
      tree := s.tree ++ ([m] ++ superMsg dir d.qid.path m.k), nextqid := d.qid.path } := by
  obtain ⟨hnames, hspot⟩ := hi.names.insert hm hn hne hf hq hp hmode hdir
  have hnone := spot_eq_none_of_find hf
  have hold : ∀ {j q b}, q.toNat ≤ s.nextqid.toNat →
      Function.update (spot s.tree) m.k (some (d.qid.path, dir)) j = some (q, b) →
      spot s.tree j = some (q, b) := by
    intro j q b hle hj
    rcases update_some_eq.1 hj with ⟨-, hx⟩ | ⟨-, hj⟩
    · rw [(Prod.mk.inj hx).1] at hle
      omega
    · exact hj
  refine hi.map (g := id) (fun _ _ => ⟨rfl, rfl, id⟩) (fun x hx => ⟨x, hx, rfl⟩) rfl hq.le hsmall
    hnames ?_ ?_ hi.fids hi.adm
  · intro j q b hj hle
    rw [hspot] at hj
    exact ⟨j, hold hle hj, fun _ name hn => ⟨name, hn⟩⟩
  · intro de hde
    obtain ⟨hkey, hhere, hsole, hmode, hle⟩ := (hi.dents de hde).1
    refine ⟨hkey, fun hg => ?_, fun j b hj => ?_, hmode, hle.trans hq.le⟩
    · have hk : de.k ≠ m.k := by
        intro he
        have := hhere hg
        rw [he, hnone] at this
        cases this
      rw [hspot]
      exact (Function.update_of_ne hk _ _).trans (hhere hg)
    · rw [hspot] at hj
      exact hsole j b (hold hle hj)

/-- An entry taken off that has nothing below it, and that no open entry is but one that is gone. -/
theorem Tidy.delete (hi : Tidy s) {k v : Bytes} {q : UInt64} {dir : Bool}
    (hs : spot s.tree k = some (q, dir))
    (hleaf : dir = true → ∀ name j, dkey q.toInt64 name = some j → spot s.tree j = none)
    (hg : ∀ de ∈ s.dtab, de.gone = false → de.k ≠ k) :
    Tidy { s with tree := s.tree ++ ([⟨.odelete, k, v, []⟩]
      ++ if dir then [⟨.oclobber, packupkey q, [], []⟩] else []) } := by
  obtain ⟨hnames, hspot⟩ := hi.names.delete hs (v := v) hleaf
  have hold : ∀ {j x}, Function.update (spot s.tree) k none j = some x →
      spot s.tree j = some x := fun hj => (update_none_eq.1 hj).2
  refine hi.map (g := id) (fun _ _ => ⟨rfl, rfl, id⟩) (fun x hx => ⟨x, hx, rfl⟩) rfl le_rfl hi.small
    hnames (.of_spot fun j x hj => hold (hspot j ▸ hj)) ?_ hi.fids hi.adm
  intro de hde
  obtain ⟨hkey, hhere, hsole, hmode, hle⟩ := (hi.dents de hde).1
  refine ⟨hkey, fun hgone => ?_, fun j b hj => ?_, hmode, hle⟩
  · rw [hspot]
    exact (Function.update_of_ne (hg de hde hgone) _ _).trans (hhere hgone)
  · rw [hspot] at hj
    exact hsole j b (hold hj)

/-- An open entry moved to another name in its directory. -/
theorem Tidy.rename (hi : Tidy s) (hde : s.dent p = some de) (hg : de.gone = false)
    {g : Dent → Dent} {d : GefsXdir} {m : GefsMsg} {name : CStr} (hid : (g de).id = de.id)
    (hup : (g de).up = de.up) (hk : (g de).k = m.k) (hgg : (g de).gone = de.gone)
    (hpath : (g de).xdir.qid.path = de.xdir.qid.path) (hdir : isDir (g de).xdir = isDir de.xdir)
    (hmode : ModeOk (g de).xdir) (hne1 : de.up ≠ -1) (hm : insertDir de.up d = some m)
    (hn : d.name = some name.bytes) (hne : name.bytes ≠ []) (hf : s.tree.find m.k = some none)
    (hq : d.qid.path = de.xdir.qid.path) (hdmode : ModeOk d) (hddir : isDir d = isDir de.xdir) :
    Tidy { s.setDent p g with tree := s.tree ++ ([⟨.oclobber, de.k, [], []⟩, m]
      ++ superMsg (isDir de.xdir) de.xdir.qid.path m.k) } := by
  obtain ⟨hmem, rfl⟩ := dent_mem hde
  have hd := (hi.dents de hmem).1
  have hs := hd.here hg
  obtain ⟨old, hold⟩ := hd.key
  have hnone := spot_eq_none_of_find hf
  obtain ⟨hmk, -⟩ := insertDir_name hm hn
  obtain ⟨hnames, hspot⟩ := hi.names.rename hs hold hne1 hm hn hne hf hq hdmode hddir
  -- what is found now is the entry moved or was there before
  have hcases : ∀ {j q b}, spot (s.tree ++ ([⟨.oclobber, de.k, [], []⟩, m]
      ++ superMsg (isDir de.xdir) de.xdir.qid.path m.k)) j = some (q, b) →
      j = m.k ∧ q = de.xdir.qid.path ∧ b = isDir de.xdir
        ∨ j ≠ de.k ∧ spot s.tree j = some (q, b) := by
    intro j q b hj
    rw [hspot, update_some_eq, update_none_eq, Prod.mk.injEq] at hj
    exact hj.imp_right And.right
  refine hi.map (g := fun x => if x.id = de.id then g x else x) ?_ (fun x hx => mem_setDent hx) rfl
    le_rfl hi.small hnames ?_ ?_ hi.fids hi.adm
  · intro y hy
    split_ifs with hyid
    · obtain rfl := hi.ids y hy de hmem hyid
      exact ⟨hid, hpath, fun h => hgg ▸ h⟩
    · exact ⟨rfl, rfl, fun h => h⟩
  · intro j q b hj hle
    rcases hcases hj with ⟨rfl, rfl, rfl⟩ | ⟨-, hj⟩
    · refine ⟨de.k, hs, fun up name' hname => ?_⟩
      obtain ⟨rfl, -⟩ := dkey_inj hname hold
      exact ⟨name, hmk⟩
    · exact ⟨j, hj, fun _ name hname => ⟨name, hname⟩⟩
  · intro y hy
    split_ifs with hyid
    · obtain rfl := hi.ids y hy de hmem hyid
      refine ⟨⟨name, ?_⟩, fun _ => ?_, fun j b hj => ?_, hmode, ?_⟩
      · rw [hup, hk]
        exact hmk
      · change spot (s.tree ++ ([⟨.oclobber, y.k, [], []⟩, m]
          ++ superMsg (isDir y.xdir) y.xdir.qid.path m.k)) (g y).k = _
        rw [hspot, hk, Function.update_self, hpath, hdir]
      · rw [hk, hdir]
        rcases hcases hj with ⟨rfl, -, rfl⟩ | ⟨hne, hj⟩
        · exact ⟨rfl, rfl⟩
        · rw [hpath] at hj
          exact absurd (hd.sole j b hj).1 hne
      · rw [hpath]
        exact hd.le
    · obtain ⟨hkey, hhere, hsole, hmode, hle⟩ := (hi.dents y hy).1
      have hpne : y.xdir.qid.path ≠ de.xdir.qid.path := fun h =>
        hyid (congrArg _ (hi.paths y hy de hmem h))
      refine ⟨hkey, fun hgone => ?_, fun j b hj => ?_, hmode, hle⟩
      · have h1 := hhere hgone
        have hk1 : y.k ≠ m.k := by
          intro he
          rw [he, hnone] at h1
          cases h1
        have hk2 : y.k ≠ de.k := by
          intro he
          rw [he, hs] at h1
          exact hpne (Prod.mk.inj (Option.some.inj h1)).1.symm
        rw [hspot, Function.update_of_ne hk1, Function.update_of_ne hk2, h1]
      · rcases hcases hj with ⟨-, he, -⟩ | ⟨-, hj⟩
        · exact absurd he hpne
        · exact hsole j b hj

/-- A qid path that was given out is no parent's id of the root. -/
theorem Tidy.toInt64_ne (hi : Tidy s) {q : UInt64} (hq : q.toNat ≤ s.nextqid.toNat) :
    q.toInt64 ≠ -1 := by
  intro h
  have h := congrArg Int64.toUInt64 h
  rw [UInt64.toUInt64_toInt64] at h
  rw [h] at hq
  have h1 : ((-1 : Int64).toUInt64).toNat = 2 ^ 64 - 1 := by decide
  have := hi.small
  omega

/-- The directory of a fid, whose version an operation bumps, is in the tree under a key of its own
if the fid's file is. -/
theorem Tidy.dir_here (hi : Tidy s) (hf : FidTidy s f) (hne : f.dir ≠ f.dent)
    (hde : s.dent f.dent = some de) (hg : de.gone = false) {dir : Dent}
    (hdir : s.dent f.dir = some dir) :
    spot s.tree dir.k = some (dir.xdir.qid.path, true) ∧ dir.k ≠ de.k := by
  obtain ⟨hmem, hid⟩ := dent_mem hde
  obtain ⟨hdmem, hdid⟩ := dent_mem hdir
  obtain ⟨-, hup, -, hw, hd⟩ := hf.home hne
  have hs := (hi.dents de hmem).1.here hg
  rw [hf.path de hmem hid] at hs
  obtain ⟨name, hk⟩ := hw _ _ hs
  obtain ⟨-, -, k', hk'⟩ := hi.names.ns.parent hs hk hup
  have hpne : dir.xdir.qid.path ≠ f.qpath := by
    intro hp
    refine hne ?_
    rw [← hid, ← hdid, hi.paths dir hdmem de hmem (hp.trans (hf.path de hmem hid).symm)]
  suffices h : ∃ k, spot s.tree k = some (dir.xdir.qid.path, true) by
    obtain ⟨k, hk⟩ := h
    have hk : spot s.tree dir.k = some (dir.xdir.qid.path, true) :=
      ((hi.dents dir hdmem).1.sole k true hk).1 ▸ hk
    refine ⟨hk, fun he => hpne ?_⟩
    rw [he, hs] at hk
    exact (Prod.mk.inj (Option.some.inj hk)).1.symm
  rcases hd dir hdmem hdid with hp | ⟨-, hw'⟩
  · exact ⟨k', hp ▸ hk'⟩
  · obtain ⟨name', hname'⟩ := hw' _ _ hk'
    obtain ⟨-, -, k'', hk''⟩ :=
      hi.names.ns.parent hk' hname' (hi.toInt64_ne (hi.dents dir hdmem).1.le)
    exact ⟨k'', by simpa using hk''⟩

end GefsFuse.Server
