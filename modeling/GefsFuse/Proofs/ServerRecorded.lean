import GefsFuse.Server.Walk
import GefsFuse.Proofs.ServerCached

/-!
# What the operations put into the tree

Every operation of a mount leaves the tree with entries of one size and, under the keys of
directories, keys with names (`Kept.step`).
-/

namespace GefsFuse.Server

open MountSt (WalkVars)

namespace Walk

variable {us : Users} {t : Entries} {k : Bytes}

/-- Every message is one the operations put into the tree. -/
def AllRecorded (t : Entries) : Prop := ∀ m ∈ t, Recorded m

theorem packupkey_shape (q : UInt64) :
    (packupkey q).length = 9 ∧ (packupkey q).head? = some gefsKup := by
  constructor
  · simp [packupkey]
  · rfl

theorem length_of_dkey {q : Int64} {name v : Bytes} (h : dkey q name = some v) :
    v.length = name.length + 12 ∧ name.length ≤ 244 := by
  obtain ⟨hlen, rfl⟩ := gefsPackdkey_eq_some.1 h
  have : gefsKeymax = 256 := rfl
  simp only [List.length_append, length_pack8, length_pack64, length_pack16, List.length_singleton]
  omega

/-- A message under the key of a directory: a removal, or a key with a name. -/
def OnUp (m : GefsMsg) : Prop :=
  m.op = .oclobber ∨ m.op = .oinsert ∧ ∃ q name, dkey q name = some m.v

theorem AllRecorded.onUp (ht : AllRecorded t) {q : UInt64} {m : GefsMsg} (hm : m ∈ t)
    (hk : m.k = packupkey q) : OnUp m :=
  (ht m hm).2 (hk ▸ (packupkey_shape q).2)

/-- The tree has what the operations put there, and open entries have keys of entries. -/
structure Kept (s : MountSt) : Prop where
  tree : AllRecorded s.tree
  keys : ∀ de ∈ s.dtab, de.k.head? = some gefsKent

theorem recorded_of_kent {m : GefsMsg} (hk : m.k.head? = some gefsKent)
    (hv : m.op = .oinsert → m.v.length = xdirsz) : Recorded m := by
  refine ⟨fun hop _ => hv hop, fun hu => ?_⟩
  rw [hk] at hu
  exact absurd hu (by decide)

theorem recorded_of_dat {m : GefsMsg} {q off : UInt64} (hk : m.k = packdatkey q off) :
    Recorded m := by
  have hd : m.k.head? = some gefsKdat := by
    rw [hk]
    rfl
  refine ⟨fun _ h => ?_, fun h => ?_⟩
  · rw [hd] at h
    exact absurd h (by decide)
  · rw [hd] at h
    exact absurd h (by decide)

theorem recorded_of_up {m : GefsMsg} {q : UInt64} (hk : m.k = packupkey q) (h : OnUp m) :
    Recorded m := by
  refine ⟨fun _ hm => ?_, fun _ => h⟩
  rw [hk, (packupkey_shape q).2] at hm
  exact absurd hm (by decide)

theorem recorded_insertDir {up : Int64} {d : GefsXdir} {m : GefsMsg} (h : insertDir up d = some m) :
    Recorded m ∧ ∃ name, dkey up name = some m.k := by
  unfold insertDir at h
  simp only [Option.bind_eq_bind, Option.bind_eq_some_iff, Option.some.injEq] at h
  obtain ⟨s, -, k, hk, v, hv, rfl⟩ := h
  exact ⟨recorded_of_kent (dkey_shape hk).2 fun _ => length_gefsPackdval hv, s, hk⟩

theorem recorded_superMsg {isdir : Bool} {q : UInt64} {up : Int64} {name : Bytes}
    (hk : dkey up name = some k) : ∀ m ∈ superMsg isdir q k, Recorded m := by
  unfold superMsg
  split_ifs
  · simp only [List.mem_singleton, forall_eq]
    exact recorded_of_up rfl (.inr ⟨rfl, up, name, hk⟩)
  · simp

theorem recorded_writeLoop {q : UInt64} : ∀ {n : ℕ} {o : UInt64} {c : ℕ} {bps : List GefsBptr}
    {ms : List GefsMsg} {e : UInt64},
    (MountSt.writeLoop q n o c bps).run = some (.ok (ms, e)) → ∀ m ∈ ms, Recorded m
  | n, o, c, bps, ms, e, h => by
    unfold MountSt.writeLoop at h
    split_ifs at h with hc
    · obtain ⟨rfl, -⟩ := Prod.mk.inj (run_pure_ok.1 h)
      simp
    · rcases n with _ | n
      · cases h
      · rcases bps with _ | ⟨bp, bps⟩
        · cases h
        · dsimp only at h
          obtain ⟨⟨ms', e'⟩, hrest, h⟩ := run_bind_ok.1 h
          obtain ⟨rfl, -⟩ := Prod.mk.inj (run_pure_ok.1 h)
          simp only [List.mem_cons, forall_eq_or_imp]
          exact ⟨recorded_of_dat rfl, recorded_writeLoop hrest⟩

theorem recorded_clearMsgs (a : Amsg) : ∀ m ∈ MountSt.clearMsgs a, Recorded m := by
  intro m hm
  obtain ⟨o, -, rfl⟩ := List.mem_map.1 hm
  exact recorded_of_dat rfl

namespace Kept

variable {s s' : MountSt} {i : FidKey} {r : Reply}

theorem setDent (h : Kept s) (p : ℕ) {f : Dent → Dent}
    (hf : ∀ de, (f de).k = de.k ∨ (f de).k.head? = some gefsKent) : Kept (s.setDent p f) := by
  refine ⟨h.tree, fun x hx => ?_⟩
  obtain ⟨de, hde, rfl⟩ := List.mem_map.1 hx
  split_ifs
  · rcases hf de with hk | hk
    · rw [hk]
      exact h.keys de hde
    · exact hk
  · exact h.keys de hde

theorem setDent_k (h : Kept s) (p : ℕ) {f : Dent → Dent} (hf : ∀ de, (f de).k = de.k) :
    Kept (s.setDent p f) :=
  h.setDent p fun de => .inl (hf de)

theorem setFid (h : Kept s) (i : FidKey) (f : Option Fid) : Kept (s.setFid i f) := ⟨h.tree, h.keys⟩

theorem ref (h : Kept s) (p : ℕ) : Kept (s.ref p) := h.setDent_k p fun _ => rfl

theorem touch (h : Kept s) (p : ℕ) : Kept (s.touch p) := h.setDent_k p fun _ => rfl

theorem send (h : Kept s) (a : Option Amsg) : Kept (s.send a) := ⟨h.tree, h.keys⟩

theorem clunkdent (h : Kept s) (p : ℕ) : Kept (s.clunkdent p) := by
  have h1 := h.setDent_k (f := fun de => { de with ref := de.ref - 1 }) p fun _ => rfl
  exact ⟨h.tree, fun de hde => h1.keys de (List.mem_of_mem_filter hde)⟩

theorem putfid (h : Kept s) (f : Fid) : Kept (s.putfid f) := (h.clunkdent _).clunkdent _

theorem freeamsg (h : Kept s) (a : Option Amsg) : Kept (s.freeamsg a) := by
  unfold MountSt.freeamsg
  split
  · exact h.clunkdent _
  · exact h

theorem endAmsg (h : Kept s) (a : Amsg) : Kept (s.endAmsg a) := by
  unfold MountSt.endAmsg
  split
  · exact (h.setDent_k (f := fun de => { de with trunc := false }) _ fun _ => rfl).clunkdent _
  · exact h

theorem clunkfid (h : Kept s) (i : FidKey) (f : Fid) : Kept (s.clunkfid i f).1 := by
  unfold MountSt.clunkfid
  dsimp only
  split_ifs
  · exact (h.setFid i none).setDent_k _ fun _ => rfl
  · exact h.setFid i none

theorem upsert (h : Kept s) {ms : List GefsMsg} (hms : ∀ m ∈ ms, Recorded m)
    (hu : s.upsert ms = some s') : Kept s' := by
  obtain ⟨-, rfl⟩ := upsert_eq_some.1 hu
  refine ⟨fun m hm => ?_, h.keys⟩
  rcases List.mem_append.1 hm with hm | hm
  · exact h.tree m hm
  · exact hms m hm

theorem getdent (h : Kept s) {up : Int64} {d : GefsXdir} {p : ℕ}
    (hg : s.getdent up d = some (s', p)) : Kept s' := by
  unfold MountSt.getdent at hg
  split at hg
  · obtain ⟨rfl, -⟩ := Prod.mk.inj (Option.some.inj hg)
    exact h.ref _
  · obtain ⟨n, -, hg⟩ := Option.bind_eq_some_iff.1 hg
    obtain ⟨k, hk, hg⟩ := Option.bind_eq_some_iff.1 hg
    obtain ⟨rfl, -⟩ := Prod.mk.inj (Option.some.inj hg)
    refine ⟨h.tree, ?_⟩
    simp only [List.mem_cons, forall_eq_or_imp]
    exact ⟨(dkey_shape hk).2, h.keys⟩

theorem dent (h : Kept s) {p : ℕ} {de : Dent} (hde : s.dent p = some de) :
    de.k.head? = some gefsKent :=
  h.keys de (dent_mem hde).1

/-- A message that changes or removes the entry under the key of an open one. -/
theorem recorded (h : Kept s) {p : ℕ} {de : Dent} (hde : s.dent p = some de) {m : GefsMsg}
    (hk : m.k = de.k) (hop : m.op ≠ .oinsert) : Recorded m :=
  recorded_of_kent (hk ▸ h.dent hde) fun ho => absurd ho hop

theorem recorded_msg (h : Kept s) {p : ℕ} {de : Dent} (hde : s.dent p = some de) (w : Wstat) :
    Recorded (w.msg de.k) :=
  h.recorded hde rfl (by simp [Wstat.msg])

theorem attach (h : Kept s) {uid : Int32} {permit : Bool}
    (he : s.fsattach i uid permit = some (s', r)) : Kept s' := by
  unfold MountSt.fsattach at he
  obtain ⟨k, -, he⟩ := Option.bind_eq_some_iff.1 he
  obtain ⟨x, -, he⟩ := Option.bind_eq_some_iff.1 he
  rcases x with _ | d
  · obtain ⟨rfl, -⟩ := Prod.mk.inj (Option.some.inj he)
    exact h
  · dsimp only at he
    split_ifs at he
    · obtain ⟨rfl, -⟩ := Prod.mk.inj (Option.some.inj he)
      exact h
    · obtain ⟨⟨s1, p⟩, hg, he⟩ := Option.bind_eq_some_iff.1 he
      obtain ⟨rfl, -⟩ := Prod.mk.inj (Option.some.inj he)
      exact ((h.getdent hg).ref p).setFid i _

theorem undup (h : Kept s) {f : Fid} {duped : Bool} (he : s.undup i f duped = some s') :
    Kept s' := by
  rcases MountSt.eq_of_undup he with rfl | rfl
  · exact h
  · exact h.setFid i none

theorem walkDir (h : Kept s) {w : WalkVars} {p : ℕ}
    (he : (s.walkDir w).run = some (.ok (s', p))) : Kept s' := by
  unfold MountSt.walkDir at he
  split_ifs at he
  · exact h.getdent (run_must_ok.1 he)
  · simp only [run_bind_ok, run_must_ok] at he
    obtain ⟨⟨upup, _⟩, -, _, -, _, -, d, -, he⟩ := he
    exact h.getdent he

theorem walkEnd (h : Kept s) {f : Fid} {w : WalkVars} {duped : Bool}
    (he : s.walkEnd i f w duped = some (s', r)) : Kept s' := by
  unfold MountSt.walkEnd at he
  obtain ⟨⟨s1, p⟩, hg, he⟩ := Option.bind_eq_some_iff.1 he
  obtain ⟨x, hd, he⟩ := Option.bind_eq_some_iff.1 he
  have h1 := h.getdent hg
  rcases x with e | ⟨s2, q⟩
  · obtain ⟨s3, hu, he⟩ := Option.map_eq_some_iff.1 he
    obtain ⟨rfl, -⟩ := Prod.mk.inj he
    exact h1.undup hu
  obtain ⟨rfl, -⟩ := Prod.mk.inj (Option.some.inj he)
  have h2 := h1.walkDir hd
  exact ((h2.clunkdent _).clunkdent _).setFid i _

theorem walk (h : Kept s) {newfid : UInt32} {names : List CStr}
    (he : s.fswalk us i newfid names = some (s', r)) : Kept s' := by
  unfold MountSt.fswalk at he
  obtain ⟨c, -, he⟩ := Option.bind_eq_some_iff.1 he
  rcases c with e | ⟨o, w, all⟩
  · obtain ⟨rfl, -⟩ := Prod.mk.inj (Option.some.inj he)
    exact h
  · dsimp only at he
    have hdup : Kept (((s.setFid (i.1, newfid) (some { o with mode := -1 })).ref o.dent).ref
        o.dir) := ((h.setFid _ _).ref _).ref _
    split_ifs at he
    · obtain ⟨rfl, -⟩ := Prod.mk.inj (Option.some.inj he)
      exact h
    · exact h.walkEnd he
    · obtain ⟨rfl, -⟩ := Prod.mk.inj (Option.some.inj he)
      exact h
    · obtain ⟨rfl, -⟩ := Prod.mk.inj (Option.some.inj he)
      exact hdup
    · exact hdup.walkEnd he
    · obtain ⟨rfl, -⟩ := Prod.mk.inj (Option.some.inj he)
      exact h

theorem create (h : Kept s) {req : MountSt.CreateReq}
    (he : s.fscreate us i req = some (s', r)) : Kept s' := by
  unfold MountSt.fscreate at he
  obtain ⟨c, hc, he⟩ := Option.bind_eq_some_iff.1 he
  rcases c with e | ⟨f, de⟩
  · obtain ⟨rfl, -⟩ := Prod.mk.inj (Option.some.inj he)
    exact h
  · obtain ⟨-, hde, -⟩ := createCheck_ok hc
    simp only [Option.bind_eq_bind] at he
    obtain ⟨m, hm, he⟩ := Option.bind_eq_some_iff.1 he
    obtain ⟨hrec, name, hk⟩ := recorded_insertDir hm
    have h1 : Kept ({ s with nextqid := s.nextqid + 1 } : MountSt) := ⟨h.tree, h.keys⟩
    split at he
    · obtain ⟨rfl, -⟩ := Prod.mk.inj (Option.some.inj he)
      exact h1.touch _
    · next s1 hu =>
      have hs1 : Kept s1 := by
        refine (h1.touch f.dent).upsert ?_ hu
        simp only [List.mem_append, List.mem_cons, List.mem_nil_iff, or_false]
        rintro x ((rfl | hx) | rfl)
        · exact hrec
        · exact recorded_superMsg hk x hx
        · exact h.recorded_msg hde _
      obtain ⟨⟨s2, p⟩, hg, he⟩ := Option.bind_eq_some_iff.1 he
      obtain ⟨rfl, -⟩ := Prod.mk.inj (Option.some.inj he)
      exact ((hs1.getdent hg).clunkdent _).setFid i _

theorem write (h : Kept s) {req : MountSt.WriteReq}
    (he : s.fswrite i req = some (s', r)) : Kept s' := by
  unfold MountSt.fswrite at he
  obtain ⟨c, hc, he⟩ := Option.bind_eq_some_iff.1 he
  rcases c with e | ⟨f, de⟩
  · obtain ⟨rfl, -⟩ := Prod.mk.inj (Option.some.inj he)
    exact h
  · have hde : s.dent f.dent = some de := by
      unfold MountSt.writeCheck at hc
      simp only [run_bind_ok, run_must_ok, run_orElse_ok, run_pure_ok, Prod.mk.injEq] at hc
      obtain ⟨f', -, de', hde, -, -, -, -, -, -, rfl, rfl⟩ := hc
      exact hde
    obtain ⟨c, hl, he⟩ := Option.bind_eq_some_iff.1 he
    rcases c with e | ⟨ms, e⟩
    · obtain ⟨rfl, -⟩ := Prod.mk.inj (Option.some.inj he)
      exact h
    · dsimp only at he
      split at he
      · obtain ⟨rfl, -⟩ := Prod.mk.inj (Option.some.inj he)
        exact h.setDent_k _ fun _ => rfl
      · next s1 hu =>
        obtain ⟨rfl, -⟩ := Prod.mk.inj (Option.some.inj he)
        refine upsert (h.setDent_k _ ?_) ?_ hu
        · exact fun _ => rfl
        · simp only [List.mem_append, List.mem_singleton]
          rintro x (hx | rfl)
          · exact recorded_writeLoop hl x hx
          · exact h.recorded_msg hde _

theorem wstat (h : Kept s) {req : MountSt.WstatReq}
    (he : s.fswstat us i req = some (s', r)) : Kept s' := by
  unfold MountSt.fswstat at he
  obtain ⟨c, hc, he⟩ := Option.bind_eq_some_iff.1 he
  rcases c with e | ⟨f, de, d, rename⟩
  · obtain ⟨rfl, -⟩ := Prod.mk.inj (Option.some.inj he)
    exact h
  · have hde : s.dent f.dent = some de := (wstatCheck_ok hc).2.1
    have h1 : Kept (s.wstatSize f de d).1 := by
      obtain ⟨g, hg, hk, -⟩ := wstatSize_eq (s := s) f de d
      rw [hg]
      exact h.setDent_k _ fun de => (hk de).2.2.1
    dsimp only at he
    rcases hs : s.wstatSize f de d with ⟨s1, ao⟩
    rw [hs] at he h1
    obtain ⟨c, -, he⟩ := Option.bind_eq_some_iff.1 he
    rcases c with e | w
    · obtain ⟨rfl, -⟩ := Prod.mk.inj (Option.some.inj he)
      exact h1.freeamsg _
    · dsimp only at he
      by_cases hren : rename = true
      · rw [if_pos hren] at he
        split_ifs at he
        obtain ⟨m, hm, he⟩ := Option.bind_eq_some_iff.1 he
        obtain ⟨dir, hdir, he⟩ := Option.bind_eq_some_iff.1 he
        obtain ⟨hrec, name, hk⟩ := recorded_insertDir hm
        split at he
        · obtain ⟨rfl, -⟩ := Prod.mk.inj (Option.some.inj he)
          exact (h1.touch _).freeamsg _
        · next s2 hu =>
          obtain ⟨rfl, -⟩ := Prod.mk.inj (Option.some.inj he)
          have h2 : Kept s2 := by
            refine (h1.touch _).upsert ?_ hu
            simp only [List.mem_append, List.mem_cons, List.mem_nil_iff, or_false]
            rintro x (((rfl | rfl) | hx) | rfl)
            · exact h.recorded hde rfl (by simp)
            · exact hrec
            · exact recorded_superMsg hk x hx
            · exact h1.recorded_msg hdir _
          exact (h2.setDent _ fun _ => .inr (dkey_shape hk).2).send _
      · rw [if_neg hren] at he
        split at he
        · obtain ⟨rfl, -⟩ := Prod.mk.inj (Option.some.inj he)
          exact h1.freeamsg _
        · next s2 hu =>
          obtain ⟨rfl, -⟩ := Prod.mk.inj (Option.some.inj he)
          have h2 : Kept s2 := by
            refine h1.upsert ?_ hu
            simp only [List.mem_singleton, forall_eq]
            exact h.recorded_msg hde _
          refine send (setDent_k h2 _ ?_) _
          exact fun _ => rfl

theorem clunk (h : Kept s) (he : s.fsclunk i = (s', r)) : Kept s' := by
  unfold MountSt.fsclunk at he
  split at he
  · obtain ⟨rfl, -⟩ := Prod.mk.inj he
    exact h
  · next f hf =>
    obtain ⟨rfl, -⟩ := Prod.mk.inj he
    exact ((h.clunkfid i f).putfid f).send _

theorem remove (h : Kept s) (he : s.fsremove us i = some (s', r)) : Kept s' := by
  unfold MountSt.fsremove at he
  split at he
  · obtain ⟨rfl, -⟩ := Prod.mk.inj (Option.some.inj he)
    exact h
  · next f hf =>
    have h1 := h.clunkfid i f
    rcases hcl : s.clunkfid i f with ⟨s1, a⟩
    rw [hcl] at he h1
    dsimp only at he h1
    obtain ⟨c, hc, he⟩ := Option.bind_eq_some_iff.1 he
    rcases c with e | de
    · obtain ⟨rfl, -⟩ := Prod.mk.inj (Option.some.inj he)
      exact (h1.freeamsg _).putfid f
    · have hde : s1.dent f.dent = some de := (removeCheck_ok hc).1
      dsimp only at he
      by_cases hroot : f.dir = f.dent
      · rw [if_pos hroot] at he
        cases he
      rw [if_neg hroot] at he
      obtain ⟨dir, hdir, he⟩ := Option.bind_eq_some_iff.1 he
      have h2 := (h1.freeamsg a).touch f.dir
      split at he
      · obtain ⟨rfl, -⟩ := Prod.mk.inj (Option.some.inj he)
        exact h2.putfid f
      · next s2 hu =>
        obtain ⟨rfl, -⟩ := Prod.mk.inj (Option.some.inj he)
        have h3 : Kept s2 := by
          refine h2.upsert ?_ hu
          simp only [List.mem_append, List.mem_cons, List.mem_nil_iff, or_false]
          rintro x ((rfl | hx) | rfl)
          · exact h1.recorded hde rfl (by simp)
          · split_ifs at hx
            · obtain rfl := List.mem_singleton.1 hx
              exact recorded_of_up rfl (.inl rfl)
            · cases hx
          · exact (h1.freeamsg a).recorded_msg hdir _
        refine send (putfid (setDent_k h3 _ ?_) _) _
        exact fun _ => rfl

theorem topen (h : Kept s) {mode : UInt8} (he : s.fsopen us i mode = some (s', r)) :
    Kept s' := by
  unfold MountSt.fsopen at he
  obtain ⟨c, hc, he⟩ := Option.bind_eq_some_iff.1 he
  rcases c with e | ⟨f, de, d⟩
  · obtain ⟨rfl, -⟩ := Prod.mk.inj (Option.some.inj he)
    exact h
  · obtain ⟨-, hde, -⟩ := openCheck_ok hc
    have h1 := h.setDent_k (f := fun de => { de with xdir := { de.xdir with length := d.length } })
      f.dent fun _ => rfl
    dsimp only at he
    generalize (s.setDent f.dent fun de =>
      { de with xdir := { de.xdir with length := d.length } }) = s1 at he h1
    by_cases hm : f.mode = -1
    · rw [if_neg (not_not.2 hm)] at he
      by_cases ht : MountSt.truncates de mode = true
      · rw [if_pos ht] at he
        split at he
        · obtain ⟨rfl, -⟩ := Prod.mk.inj (Option.some.inj he)
          exact h1.setDent_k _ fun _ => rfl
        · next s2 hu =>
          obtain ⟨rfl, -⟩ := Prod.mk.inj (Option.some.inj he)
          refine send (upsert (ref (setDent_k (h1.setFid i _) _ ?_) _) ?_ hu) _
          · exact fun _ => rfl
          · simp only [List.mem_singleton, forall_eq]
            exact h.recorded_msg hde _
      · rw [if_neg ht] at he
        obtain ⟨rfl, -⟩ := Prod.mk.inj (Option.some.inj he)
        exact h1.setFid i _
    · rw [if_pos hm] at he
      obtain ⟨rfl, -⟩ := Prod.mk.inj (Option.some.inj he)
      exact h1

theorem sweep (h : Kept s) (he : s.sweep = some s') : Kept s' := by
  unfold MountSt.sweep at he
  split at he
  · cases he
  · next a adm hadm =>
    have h1 : Kept { s with adm := adm } := ⟨h.tree, h.keys⟩
    dsimp only at he
    split_ifs at he
    · obtain ⟨p, -, he⟩ := Option.bind_eq_some_iff.1 he
      obtain ⟨de, hde, he⟩ := Option.bind_eq_some_iff.1 he
      obtain ⟨s2, hu, he⟩ := Option.bind_eq_some_iff.1 he
      obtain rfl := Option.some.inj he
      refine (h1.upsert ?_ hu).endAmsg a
      unfold MountSt.rcloseMsgs
      simp only [List.mem_append, List.mem_cons]
      rintro x ((rfl | hx) | hx)
      · exact h1.recorded hde rfl (by simp)
      · split_ifs at hx
        · obtain rfl := List.mem_singleton.1 hx
          exact recorded_of_up rfl (.inl rfl)
        · cases hx
      · exact recorded_clearMsgs a x hx
    · obtain rfl := Option.some.inj he
      exact h1.endAmsg a
    · split at he
      · obtain rfl := Option.some.inj he
        exact h1.freeamsg _
      · next s2 hu =>
        obtain rfl := Option.some.inj he
        exact (h1.upsert (recorded_clearMsgs a) hu).endAmsg a

theorem step (h : Kept s) {op : MountOp} (he : mountStep us s op = some s') : Kept s' := by
  obtain ⟨⟨s1, r⟩, hs, rfl⟩ := Option.map_eq_some_iff.1 he
  cases op with
  | attach i uid permit => exact h.attach hs
  | walk i newfid names => exact h.walk hs
  | stat i =>
    unfold serve MountSt.fsstat at hs
    dsimp only at hs
    split at hs
    · obtain ⟨rfl, -⟩ := Prod.mk.inj (Option.some.inj hs)
      exact h
    · obtain ⟨de, -, he⟩ := Option.map_eq_some_iff.1 hs
      obtain ⟨rfl, -⟩ := Prod.mk.inj he
      exact h
  | clunk i => exact h.clunk (Option.some.inj hs)
  | create i req => exact h.create hs
  | write i req => exact h.write hs
  | wstat i req => exact h.wstat hs
  | remove i => exact h.remove hs
  | topen i mode => exact h.topen hs
  | sweep =>
    obtain ⟨s2, hs2, he⟩ := Option.map_eq_some_iff.1 hs
    obtain ⟨rfl, -⟩ := Prod.mk.inj he
    exact h.sweep hs2

end Kept

end Walk

end GefsFuse.Server
