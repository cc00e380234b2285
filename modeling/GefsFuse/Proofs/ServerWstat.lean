import GefsFuse.Proofs.ServerCached
import GefsFuse.Server.Wstat

/-!
# The messages of a wstat decode to what was meant

The three encoders pack the fields as `Wstat.pack` does (`fswstatBuf_msg` and its like), so that
`statupdate_pack` applies to each. A Twstat that is refused has changed nothing exactly where it was
refused before it looked at the length, or left the length alone (`wstatKept_iff`).
-/

namespace GefsFuse.Server

open MountSt

variable {us : Users} {s s' : MountSt} {i : FidKey} {k : Bytes} {d : GefsXdir}

/-! ## The encoders -/

theorem OpBuf.putOpt_eq {α : Type} (b : OpBuf) (flag : UInt8) (f : α → Bytes) (x : Option α) :
    b.putOpt flag f x = ⟨b.op ||| (if x.isSome then flag else 0), b.v ++ Wstat.field f x⟩ := by
  cases x <;> simp [putOpt, put, Wstat.field]

theorem fswstatBuf_msg (w : Wstat) (k : Bytes) : (fswstatBuf w).msg k = w.msg k := by
  unfold fswstatBuf OpBuf.msg Wstat.msg Wstat.pack Wstat.op
  simp only [OpBuf.putOpt_eq, UInt8.zero_or, List.nil_append, List.cons_append]
  rfl

theorem fsopenBuf_msg (uid : Int32) (k : Bytes) :
    (fsopenBuf uid).msg k = Wstat.msg k { Wstat.bump with size := some 0, muid := some uid } := by
  simp [fsopenBuf, OpBuf.msg, Wstat.msg, Wstat.pack, Wstat.op, Wstat.field, Wstat.bump, owsize,
    owmuid, pack32i]

theorem fswriteBuf_msg (length o : UInt64) (now : Int64) (uid : Int32) (k : Bytes) :
    (fswriteBuf length o now uid).msg k = Wstat.msg k { Wstat.bump with
      size := if length < o then some o else none, mtime := some now, muid := some uid } := by
  unfold fswriteBuf
  by_cases h : length < o <;>
    simp [h, OpBuf.msg, OpBuf.put, Wstat.msg, Wstat.pack, Wstat.op, Wstat.field, Wstat.bump, owsize,
      owmtime, owmuid, pack32i, pack64i]

/-! ## What comes out -/

/-- The message of a wstat decodes to the fields it sets and a version bumped. -/
theorem decodes_msg (w : Wstat) (k : Bytes) (old : GefsXdir) :
    Decodes (w.msg k) k old (w.upd (bumpVers old)) := by
  refine ⟨rfl, rfl, fun v d hd hu => ?_⟩
  obtain ⟨v', hv', hd'⟩ := statupdate_pack hd w
  refine ⟨v', _, hv', hd', rfl, ?_⟩
  have hname : ∀ x : GefsXdir, unnamed (w.upd (bumpVers x)) = w.upd (bumpVers (unnamed x)) :=
    fun _ => rfl
  rw [hname, hname, hu]

theorem Decodes.congr {m : GefsMsg} {old new new' : GefsXdir} (h : Decodes m k old new)
    (hu : unnamed new = unnamed new') : Decodes m k old new' := by
  obtain ⟨hop, hk, h⟩ := h
  refine ⟨hop, hk, fun v d hd ho => ?_⟩
  obtain ⟨v', d', hv', hd', hn, hd''⟩ := h v d hd ho
  exact ⟨v', d', hv', hd', hn, hd''.trans hu⟩

theorem dent_wstatSize {f : Fid} {de : Dent} (hde : s.dent f.dent = some de) (d : MountSt.Dir) :
    ∃ x, (s.wstatSize f de d).1.dent f.dent = some x := by
  obtain ⟨g, hs, hg, -⟩ := wstatSize_eq (s := s) f de d
  rw [hs]
  exact ⟨_, dent_setDent_self g (fun x => (hg x).1) hde⟩

theorem tree_wstatSize (s : MountSt) (f : Fid) (de : Dent) (d : MountSt.Dir) :
    (s.wstatSize f de d).1.tree = s.tree ∧ (s.wstatSize f de d).1.adm = s.adm := by
  obtain ⟨g, hs, -, -⟩ := wstatSize_eq (s := s) f de d
  rw [hs]
  exact ⟨rfl, rfl⟩

theorem decodes_fswstat {r : WstatReq} {f : Fid} {de : Dent} {d : MountSt.Dir} {w : Wstat}
    (hc : (s.wstatCheck i r).run = some (.ok (f, de, d, false)))
    (hw : (wstatFields us f de d false).run = some (.ok w))
    (h : s.fswstat us i r = some (s', .ok)) :
    s'.tree = s.tree ++ [(fswstatBuf w).msg de.k] ∧ ∃ de', s'.dent f.dent = some de'
      ∧ Decodes ((fswstatBuf w).msg de.k) de.k de.xdir de'.xdir := by
  obtain ⟨x, hx⟩ := dent_wstatSize (wstatCheck_ok hc).2.1 d
  have ht := tree_wstatSize s f de d
  unfold MountSt.fswstat at h
  rw [hc] at h
  simp only [Option.bind_eq_bind, Option.bind_some] at h
  rw [hw] at h
  simp only [Option.bind_some, Bool.false_eq_true, if_false] at h
  split at h
  · cases (Prod.mk.inj (Option.some.inj h)).2
  · next s2 hu =>
    obtain ⟨-, rfl⟩ := upsert_eq_some.1 hu
    obtain ⟨rfl, -⟩ := Prod.mk.inj (Option.some.inj h)
    rw [fswstatBuf_msg]
    refine ⟨?_, _, dent_setDent_self _ (fun _ => rfl) hx, ?_⟩
    · change (s.wstatSize f de d).1.tree ++ _ = _
      rw [ht.1]
    · exact (decodes_msg w de.k de.xdir).congr (unnamed_wstatDir de d w false).symm

theorem decodes_fsopen {mode : UInt8} {f : Fid} {de : Dent} {q : GefsQid}
    (hc : (s.openCheck us i mode).run = some (.ok (f, de, d))) (ht : truncates de mode)
    (h : s.fsopen us i mode = some (s', .ropen q)) :
    s'.tree = s.tree ++ [(fsopenBuf f.uid).msg de.k]
      ∧ Decodes ((fsopenBuf f.uid).msg de.k) de.k de.xdir
        { bumpVers de.xdir with length := 0, muid := f.uid } := by
  rw [fsopenBuf_msg]
  refine ⟨?_, decodes_msg _ _ _⟩
  unfold MountSt.fsopen at h
  rw [hc] at h
  simp only [Option.bind_eq_bind, Option.bind_some] at h
  split_ifs at h with hm
  · cases (Prod.mk.inj (Option.some.inj h)).2
  · split at h
    · cases (Prod.mk.inj (Option.some.inj h)).2
    · next s2 hu =>
      obtain ⟨-, rfl⟩ := upsert_eq_some.1 hu
      obtain ⟨rfl, -⟩ := Prod.mk.inj (Option.some.inj h)
      rfl

theorem decodes_fswrite {r : WriteReq} {f : Fid} {de : Dent} {ms : List GefsMsg} {e : UInt64}
    {n : ℕ} (hc : (s.writeCheck i).run = some (.ok (f, de)))
    (hw : (MountSt.writeLoop f.qpath 4
      (if de.xdir.mode &&& dmappend ≠ 0 then de.xdir.length else r.offset)
      r.count r.bps).run = some (.ok (ms, e)))
    (h : s.fswrite i r = some (s', .rwrite n)) :
    s'.tree = s.tree ++ (ms ++ [(fswriteBuf de.xdir.length e r.now f.uid).msg de.k])
      ∧ Decodes ((fswriteBuf de.xdir.length e r.now f.uid).msg de.k) de.k de.xdir
        { bumpVers de.xdir with
          length := if de.xdir.length < e then e else de.xdir.length
          mtime := r.now
          muid := f.uid } := by
  rw [fswriteBuf_msg]
  constructor
  · unfold MountSt.fswrite at h
    rw [hc] at h
    simp only [Option.bind_eq_bind, Option.bind_some] at h
    rw [hw] at h
    simp only [Option.bind_some] at h
    split at h
    · cases (Prod.mk.inj (Option.some.inj h)).2
    · next s2 hu =>
      obtain ⟨-, rfl⟩ := upsert_eq_some.1 hu
      obtain ⟨rfl, -⟩ := Prod.mk.inj (Option.some.inj h)
      rfl
  · refine (decodes_msg _ _ _).congr ?_
    unfold Wstat.upd unnamed bumpVers Wstat.bump
    split_ifs <;> rfl

/-- The checks of a Twstat that gets through have passed. -/
theorem fswstat_ok {r : WstatReq} (h : s.fswstat us i r = some (s', .ok)) :
    ∃ f de d rename w, (s.wstatCheck i r).run = some (.ok (f, de, d, rename))
      ∧ (wstatFields us f de d rename).run = some (.ok w) := by
  unfold MountSt.fswstat at h
  obtain ⟨c, hc, h⟩ := Option.bind_eq_some_iff.1 h
  rcases c with e | ⟨f, de, d, rename⟩
  · cases (Prod.mk.inj (Option.some.inj h)).2
  obtain ⟨c', hw, h⟩ := Option.bind_eq_some_iff.1 h
  rcases c' with e | w
  · cases (Prod.mk.inj (Option.some.inj h)).2
  exact ⟨f, de, d, rename, w, hc, hw⟩

theorem fsopen_ropen {mode : UInt8} {q : GefsQid} (h : s.fsopen us i mode = some (s', .ropen q)) :
    ∃ f de d, (s.openCheck us i mode).run = some (.ok (f, de, d)) := by
  unfold MountSt.fsopen at h
  obtain ⟨c, hc, h⟩ := Option.bind_eq_some_iff.1 h
  rcases c with e | ⟨f, de, d⟩
  · cases (Prod.mk.inj (Option.some.inj h)).2
  exact ⟨f, de, d, hc⟩

theorem fswrite_rwrite {r : WriteReq} {n : ℕ} (h : s.fswrite i r = some (s', .rwrite n)) :
    ∃ f de ms e, (s.writeCheck i).run = some (.ok (f, de))
      ∧ (MountSt.writeLoop f.qpath 4
        (if de.xdir.mode &&& dmappend ≠ 0 then de.xdir.length else r.offset)
        r.count r.bps).run = some (.ok (ms, e)) := by
  unfold MountSt.fswrite at h
  obtain ⟨c, hc, h⟩ := Option.bind_eq_some_iff.1 h
  rcases c with e | ⟨f, de⟩
  · cases (Prod.mk.inj (Option.some.inj h)).2
  obtain ⟨c', hw, h⟩ := Option.bind_eq_some_iff.1 h
  rcases c' with e | ⟨ms, e⟩
  · cases (Prod.mk.inj (Option.some.inj h)).2
  exact ⟨f, de, ms, e, hc, hw⟩

/-- Each message that changes an entry decodes to what its operation means. -/
theorem statsDecode (us : Users) (s : MountSt) (op : MountOp) : s.StatsDecode us op := by
  cases op with
  | wstat i r => exact fun f de d w s' hc hw h => decodes_fswstat hc hw h
  | topen i mode => exact fun f de d s' q hc ht h => decodes_fsopen hc ht h
  | write i r => exact fun f de ms e s' n hc hw h => decodes_fswrite hc hw h
  | _ => trivial

section Stat

theorem nonul_nil : ∀ b ∈ ([] : Bytes), b ≠ 0 := by simp

/-- A file is made and a byte written to it, and a second fid walks to it. -/
def statState : Option MountSt := Trans.run (mountStep ⟨[], 0, 9999⟩) freshMount
  (writeOps ++ [.attach (0, 2) 1 true, .walk (0, 2) 2 [fileName]])

/-- The file is to be emptied, and its mode changed. -/
def statReq : WstatReq :=
  ⟨some ⟨⟨-1, -1, 0⟩, ⟨[], nonul_nil⟩, 0, 0o600, -1, ⟨[], nonul_nil⟩, ⟨[], nonul_nil⟩⟩, []⟩

/-- Another byte. -/
def moreReq : WriteReq := ⟨5, 1, 3, [⟨32768, 1, 1⟩]⟩

/-- Each of the three operations on this state. -/
theorem statsDecode_small : ∃ s, statState = some s
    ∧ (∃ (f : Fid) (de de' : Dent) (w : Wstat) (s' : MountSt),
      s.fswstat ⟨[], 0, 9999⟩ (0, 1) statReq = some (s', .ok)
      ∧ s'.tree = s.tree ++ [(fswstatBuf w).msg de.k] ∧ s'.dent f.dent = some de'
      ∧ Decodes ((fswstatBuf w).msg de.k) de.k de.xdir de'.xdir)
    ∧ (∃ (f : Fid) (de : Dent) (s' : MountSt),
      s.fsopen ⟨[], 0, 9999⟩ (0, 2) otrunc = some (s', .ropen ⟨4, 1, 0⟩)
      ∧ s'.tree = s.tree ++ [(fsopenBuf f.uid).msg de.k]
      ∧ Decodes ((fsopenBuf f.uid).msg de.k) de.k de.xdir
        { bumpVers de.xdir with length := 0, muid := f.uid })
    ∧ ∃ (f : Fid) (de : Dent) (s' : MountSt) (ms : List GefsMsg) (e : UInt64),
      s.fswrite (0, 1) moreReq = some (s', .rwrite 1)
      ∧ s'.tree = s.tree ++ (ms ++ [(fswriteBuf de.xdir.length e 3 f.uid).msg de.k])
      ∧ Decodes ((fswriteBuf de.xdir.length e 3 f.uid).msg de.k) de.k de.xdir
        { bumpVers de.xdir with
          length := if de.xdir.length < e then e else de.xdir.length
          mtime := 3
          muid := f.uid } := by
  have hrun : statState.isSome := by decide +kernel
  obtain ⟨s, hs⟩ := Option.isSome_iff_exists.1 hrun
  refine ⟨s, hs, ?_, ?_, ?_⟩
  · have hok : ∀ s ∈ statState,
        (s.fswstat ⟨[], 0, 9999⟩ (0, 1) statReq).map (·.2) = some .ok := by decide +kernel
    have hname : ∀ s ∈ statState, ∀ x ∈ (s.wstatCheck (0, 1) statReq).run, ∀ c ∈ x.toOption,
        c.2.2.2 = false := by decide +kernel
    obtain ⟨⟨s', _⟩, h, rfl⟩ := Option.map_eq_some_iff.1 (hok s hs)
    obtain ⟨f, de, d, rename, w, hc, hw⟩ := fswstat_ok h
    obtain rfl : rename = false := hname s hs _ hc _ rfl
    obtain ⟨ht, de', hde', hd⟩ :=
      statsDecode ⟨[], 0, 9999⟩ s (.wstat (0, 1) statReq) f de d w s' hc hw h
    exact ⟨f, de, de', w, s', h, ht, hde', hd⟩
  · have hok : ∀ s ∈ statState,
        (s.fsopen ⟨[], 0, 9999⟩ (0, 2) otrunc).map (·.2) = some (.ropen ⟨4, 1, 0⟩) := by
      decide +kernel
    have htrunc : ∀ s ∈ statState, ∀ x ∈ (s.openCheck ⟨[], 0, 9999⟩ (0, 2) otrunc).run,
        ∀ c ∈ x.toOption, truncates c.2.1 otrunc = true := by decide +kernel
    obtain ⟨⟨s', _⟩, h, rfl⟩ := Option.map_eq_some_iff.1 (hok s hs)
    obtain ⟨f, de, d, hc⟩ := fsopen_ropen h
    obtain ⟨ht, hd⟩ := statsDecode ⟨[], 0, 9999⟩ s (.topen (0, 2) otrunc) f de d s' _ hc
      (htrunc s hs _ hc _ rfl) h
    exact ⟨f, de, s', h, ht, hd⟩
  · have hok : ∀ s ∈ statState, (s.fswrite (0, 1) moreReq).map (·.2) = some (.rwrite 1) := by
      decide +kernel
    obtain ⟨⟨s', _⟩, h, rfl⟩ := Option.map_eq_some_iff.1 (hok s hs)
    obtain ⟨f, de, ms, e, hc, hw⟩ := fswrite_rwrite h
    obtain ⟨ht, hd⟩ := statsDecode ⟨[], 0, 9999⟩ s (.write (0, 1) moreReq) f de ms e s' _ hc hw h
    exact ⟨f, de, s', ms, e, h, ht, hd⟩

end Stat

/-! ## A refusal -/

/-- The entries at `p` have length `n`. -/
def LengthAt (s : MountSt) (p : ℕ) (n : UInt64) : Prop :=
  ∀ x ∈ s.dtab, x.id = p → x.xdir.length = n

theorem LengthAt.setDent {p q : ℕ} {n : UInt64} (h : LengthAt s p n) (g : Dent → Dent)
    (hid : ∀ x, (g x).id = x.id) (hg : ∀ x, (g x).xdir.length = x.xdir.length) :
    LengthAt (s.setDent q g) p n := by
  intro x hx hxp
  obtain ⟨y, hy, rfl⟩ := mem_setDent hx
  split_ifs at hxp ⊢
  · rw [hg]
    exact h y hy (hid y ▸ hxp)
  · exact h y hy hxp

theorem LengthAt.freeamsg {p : ℕ} {n : UInt64} (h : LengthAt s p n) (a : Option Amsg) :
    LengthAt (s.freeamsg a) p n := by
  unfold MountSt.freeamsg
  split
  · next q _ =>
    have h1 : LengthAt (s.setDent q fun de => { de with ref := de.ref - 1 }) p n :=
      h.setDent _ (fun _ => rfl) fun _ => rfl
    exact fun x hx => h1 x (List.mem_filter.1 hx).1
  · exact h

theorem LengthAt.touch {p q : ℕ} {n : UInt64} (h : LengthAt s p n) : LengthAt (s.touch q) p n :=
  h.setDent _ (fun _ => rfl) fun _ => rfl

/-- The length is changed before the second half of the checks. -/
theorem lengthAt_wstatSize {f : Fid} {de : Dent} {d : MountSt.Dir} {n : UInt64}
    (hn : wstatLength de d = some n) : LengthAt (s.wstatSize f de d).1 f.dent n := by
  have hset : LengthAt (s.setDent f.dent fun de => { de with xdir := { de.xdir with length := n } })
      f.dent n := by
    intro x hx hxp
    obtain ⟨y, -, rfl⟩ := mem_setDent hx
    split_ifs at hxp ⊢ with hy
    · rfl
    · exact absurd hxp hy
  unfold MountSt.wstatSize
  rw [hn]
  dsimp only
  split_ifs
  · exact hset.setDent _ (fun _ => rfl) fun _ => rfl
  · exact hset

theorem wstatLength_ne {de : Dent} {d : MountSt.Dir} {n : UInt64} (hn : wstatLength de d = some n) :
    n ≠ de.xdir.length := by
  unfold MountSt.wstatLength at hn
  split_ifs at hn with h
  rw [← Option.some.inj hn]
  exact h.2

/-- What a Twstat leaves that is refused after its first half: the state after the first half, with
the version of the directory bumped if the mount may not be changed. -/
theorem refused_eq {r : WstatReq} {f : Fid} {de : Dent} {d : MountSt.Dir} {rename : Bool} {e : Err}
    (hc : (s.wstatCheck i r).run = some (.ok (f, de, d, rename)))
    (h : s.fswstat us i r = some (s', .rerror e)) :
    s' = (s.wstatSize f de d).1.freeamsg (s.wstatSize f de d).2
      ∨ f.dir ≠ f.dent
        ∧ s' = ((s.wstatSize f de d).1.touch f.dir).freeamsg (s.wstatSize f de d).2 := by
  unfold MountSt.fswstat at h
  rw [hc] at h
  simp only [Option.bind_eq_bind, Option.bind_some] at h
  obtain ⟨c, hw, h⟩ := Option.bind_eq_some_iff.1 h
  rcases c with e | w
  · exact .inl (Prod.mk.inj (Option.some.inj h)).1.symm
  rcases rename with _ | _
  · simp only [Bool.false_eq_true, if_false] at h
    split at h
    · exact .inl (Prod.mk.inj (Option.some.inj h)).1.symm
    · cases (Prod.mk.inj (Option.some.inj h)).2
  · simp only [if_true] at h
    by_cases hdir : f.dir = f.dent
    · rw [if_pos hdir] at h
      cases h
    rw [if_neg hdir] at h
    obtain ⟨m, -, h⟩ := Option.bind_eq_some_iff.1 h
    obtain ⟨dir, -, h⟩ := Option.bind_eq_some_iff.1 h
    split at h
    · exact .inr ⟨hdir, (Prod.mk.inj (Option.some.inj h)).1.symm⟩
    · cases (Prod.mk.inj (Option.some.inj h)).2

theorem sameDent_refl (de : Dent) : SameDent de de :=
  ⟨rfl, rfl, rfl, rfl, rfl, rfl, rfl, rfl, rfl, rfl⟩

theorem wstatMountRefs_refused {r : WstatReq} {e : Err}
    (h : s.fswstat us i r = some (s', .rerror e)) (n : ℕ) : s.wstatMountRefs us i r n = n := by
  unfold MountSt.wstatMountRefs
  rw [h]
  rcases (s.wstatCheck i r).run with _ | e' | ⟨f, de, d, rename⟩
  · rfl
  · rfl
  · exact Nat.add_sub_cancel _ _

/-- A Twstat that is refused has changed nothing exactly where it is refused by a check before that
of the length, or leaves the length as it is. -/
theorem wstatKept_iff {r : WstatReq} {e : Err} (h : s.fswstat us i r = some (s', .rerror e)) :
    s.WstatKept us i r s' ↔ ∀ f de d rename,
      (s.wstatCheck i r).run = some (.ok (f, de, d, rename)) → wstatLength de d = none := by
  constructor
  · rintro ⟨hdent, -⟩ f de d rename hc
    obtain ⟨hf, hde, -⟩ := wstatCheck_ok hc
    rcases hn : wstatLength de d with _ | n
    · rfl
    have h1 := lengthAt_wstatSize (s := s) (f := f) hn
    have h2 : LengthAt s' f.dent n := by
      rcases refused_eq hc h with rfl | ⟨-, rfl⟩
      · exact h1.freeamsg _
      · exact h1.touch.freeamsg _
    obtain ⟨de', hde', hsame⟩ := hdent f hf de hde
    obtain ⟨hmem, hid⟩ := dent_mem hde'
    exact absurd ((h2 de' hmem hid).symm.trans hsame.1) (wstatLength_ne hn)
  · intro hlen
    rcases hc : (s.wstatCheck i r).run with _ | e' | ⟨f, de, d, rename⟩
    · unfold MountSt.fswstat at h
      rw [hc] at h
      cases h
    · unfold MountSt.fswstat at h
      rw [hc] at h
      obtain ⟨rfl, -⟩ := Prod.mk.inj (Option.some.inj h)
      refine ⟨fun f _ de hde => ⟨de, hde, sameDent_refl de⟩, ?_, rfl, rfl⟩
      intro n
      unfold MountSt.wstatMountRefs
      rw [hc]
    · have hsize : s.wstatSize f de d = (s, none) := by
        unfold MountSt.wstatSize
        rw [hlen f de d rename hc]
      obtain ⟨hf, hde, -⟩ := wstatCheck_ok hc
      refine ⟨?_, wstatMountRefs_refused h, ?_⟩
      all_goals rcases refused_eq hc h with rfl | ⟨hdir, rfl⟩
      all_goals rw [hsize]
      · exact fun f _ de hde => ⟨de, hde, sameDent_refl de⟩
      · intro f' hf' x hx
        obtain rfl : f = f' := Option.some.inj (hf.symm.trans hf')
        exact ⟨x, dent_setDent_ne _ (fun _ => rfl) (Ne.symm hdir) hx, sameDent_refl x⟩
      · exact ⟨rfl, rfl⟩
      · exact ⟨rfl, rfl⟩

section Shrink

/-- A file is made and a byte written to it, as user 1 who need not ask. -/
def shrinkState : Option MountSt := Trans.run (mountStep ⟨[], 0, 9999⟩) freshMount writeOps

/-- The file is to be emptied, with a mode that has a bit no mode has. -/
def shrinkReq : WstatReq :=
  ⟨some ⟨⟨-1, -1, 0⟩, ⟨[], nonul_nil⟩, 0, 0o1000, -1, ⟨[], nonul_nil⟩, ⟨[], nonul_nil⟩⟩, []⟩

/-- The same, with the length it has. -/
def keepReq : WstatReq :=
  ⟨some ⟨⟨-1, -1, 0⟩, ⟨[], nonul_nil⟩, 1, 0o1000, -1, ⟨[], nonul_nil⟩, ⟨[], nonul_nil⟩⟩, []⟩

theorem wstatKept_keep : ∃ s s', shrinkState = some s
    ∧ s.fswstat ⟨[], 0, 9999⟩ (0, 1) keepReq = some (s', .rerror .ewstatb)
    ∧ s.WstatKept ⟨[], 0, 9999⟩ (0, 1) keepReq s' := by
  have hrun : (shrinkState.bind fun s => s.fswstat ⟨[], 0, 9999⟩ (0, 1) keepReq).map (·.2)
      = some (.rerror .ewstatb) := by
    decide +kernel
  have hlen : ∀ s ∈ shrinkState, ∀ x ∈ (s.wstatCheck (0, 1) keepReq).run,
      ∀ c ∈ x.toOption, wstatLength c.2.1 c.2.2.1 = none := by
    decide +kernel
  obtain ⟨⟨s', r⟩, hs, rfl⟩ := Option.map_eq_some_iff.1 hrun
  obtain ⟨s, hs, h⟩ := Option.bind_eq_some_iff.1 hs
  refine ⟨s, s', hs, h, (wstatKept_iff h).2 fun f de d rename hc => ?_⟩
  exact hlen s hs _ hc (f, de, d, rename) rfl

theorem not_forall_wstatKept : ¬ ∀ (us : Users) (s s' : MountSt) (i : FidKey) (r : WstatReq)
    (e : Err), s.fswstat us i r = some (s', .rerror e) → s.WstatKept us i r s' := by
  intro hall
  have hrun : (shrinkState.bind fun s => s.fswstat ⟨[], 0, 9999⟩ (0, 1) shrinkReq).map (·.2)
      = some (.rerror .ewstatb) := by
    decide +kernel
  have hlen : ∀ s ∈ shrinkState, ∀ f ∈ s.fids (0, 1), ∃ de ∈ s.dent f.dent,
      ∀ x ∈ s.fswstat ⟨[], 0, 9999⟩ (0, 1) shrinkReq, ∀ de' ∈ x.1.dent f.dent,
        de'.xdir.length ≠ de.xdir.length := by
    decide +kernel
  obtain ⟨⟨s', r⟩, hs, rfl⟩ := Option.map_eq_some_iff.1 hrun
  obtain ⟨s, hs, h⟩ := Option.bind_eq_some_iff.1 hs
  obtain ⟨hdent, -⟩ := hall _ s s' _ _ _ h
  rcases hc : s.fids (0, 1) with _ | f
  · unfold MountSt.fswstat MountSt.wstatCheck at h
    rw [hc] at h
    cases h
  · obtain ⟨de, hde, hne⟩ := hlen s hs f hc
    obtain ⟨de', hde', hsame⟩ := hdent f hc de hde
    exact hne _ h de' hde' hsame.1

end Shrink

end GefsFuse.Server
