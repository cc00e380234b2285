import GefsFuse.Failed
import GefsFuse.Proofs.Paths

/-!
# Failed operations

`Sees` says what the trees and the data blocks of a state read as, and with it what is answered to
look-ups and reads (`sameAnswers_of_sees`). Calls that only look keep it, and so does an update that
is refused; most operations are made of such calls and one update, whose answer they return
(`Refusable`). A write goes on after an update that was refused, so it keeps what is seen only when
it finds no second block, and a symbolic link only when its first update is refused.
-/

namespace GefsFuse

open ByteMem SortedMap Calls Prog

/-! ## What is seen -/

/-- The active tree and the catalog are leaves with the entries `ea` and `es`, and the data block at
`x` reads as `dat x`. -/
structure Sees (ea es : List GefsKvp) (dat : Int64 → Mem) (ctx : GefsCtx) : Prop where
  ok : CtxOk ctx
  active : TreeHolds ctx ctx.activeTree ea
  snap : TreeHolds ctx ctx.snapTree es
  lt : ea.length < 16384 ∧ es.length < 16384
  data : ∀ q o v, look ea (packdatkey q o) = some v →
    ∃ bp, valBptr v = some bp ∧ Held ctx bp.addr (Shows (dat bp.addr))

section Sees

variable {ea es : List GefsKvp} {dat : Int64 → Mem} {ctx ctx' : GefsCtx}

theorem Sees.keeps (h : Sees ea es dat ctx) (hk : Keeps ctx ctx') : Sees ea es dat ctx' := by
  refine ⟨hk.ok, hk.activeTree ▸ h.active.keeps hk, hk.snapTree ▸ h.snap.keeps hk, h.lt, ?_⟩
  intro q o v hv
  obtain ⟨bp, hbp, hh⟩ := h.data q o v hv
  exact ⟨bp, hbp, hk.held _ _ hh⟩

/-- Counts and free lists are not seen. -/
theorem Sees.congr (h : Sees ea es dat ctx) (sb : GefsSuper) (as : List GefsArena) (dirty : Bool) :
    Sees ea es dat { ctx with sb := sb, arenas := as, dirty := dirty } :=
  ⟨h.ok, ⟨h.active.ht, h.active.root, h.active.asc, h.active.small⟩,
    ⟨h.snap.ht, h.snap.root, h.snap.asc, h.snap.small⟩, h.lt, h.data⟩

theorem Sees.tree (h : Sees ea es dat ctx) (t : TreeRef) :
    ∃ l, TreeHolds ctx (ctx.tree t) l ∧ l.length < 16384
      ∧ ∀ ctx', Sees ea es dat ctx' → TreeHolds ctx' (ctx'.tree t) l := by
  cases t
  · exact ⟨ea, h.active, h.lt.1, fun _ h' => h'.active⟩
  · exact ⟨es, h.snap, h.lt.2, fun _ h' => h'.snap⟩

/-! ### Answers -/

/-- The bytes of a read, as the entries and the data blocks have them. -/
def readOf (ea : List GefsKvp) (dat : Int64 → Mem) (q : UInt64) : ℕ → ℕ → UInt64 → Option Bytes
  | 0, _, _ => some []
  | fuel + 1, size, off =>
    if size = 0 then some []
    else do
      let inOff := (off % 16384).toNat
      let n := min (gefsBlksz - inOff) size
      let bs ← match look ea (packdatkey q (off / 16384 * 16384)) with
        | none => some (List.replicate n 0)
        | some v => (valBptr v).map fun bp => load (dat bp.addr) inOff n
      let rest ← readOf ea dat q fuel (size - n) (off + UInt64.ofNat n)
      some (bs ++ rest)

theorem run_readLoop_sees (q : UInt64) : ∀ (fuel size : ℕ) (off : UInt64) {ctx : GefsCtx},
    Sees ea es dat ctx → ∃ ctx', run sysStep (readLoop .active q fuel size off) ctx
      = (readOf ea dat q fuel size off).map fun bs => (bs, ctx')
  | 0, _, _, ctx, _ => ⟨ctx, rfl⟩
  | fuel + 1, size, off, ctx, h => by
    unfold readLoop readOf
    by_cases h0 : size = 0
    · rw [if_pos h0, if_pos h0]
      exact ⟨ctx, rfl⟩
    · rw [if_neg h0, if_neg h0]
      have hin : (off % 16384).toNat < 16384 := by
        rw [UInt64.toNat_mod]
        exact Nat.mod_lt _ (by decide)
      have hn : (off % 16384).toNat + min (gefsBlksz - (off % 16384).toNat) size ≤ gefsBlksz := by
        have : gefsBlksz = 16384 := rfl
        omega
      dsimp only
      generalize min (gefsBlksz - (off % 16384).toNat) size = n at hn
      obtain ⟨c1, hk1, h1⟩ := @step_btlookup ctx .active ea h.ok h.active
        (packdatkey q (off / 16384 * 16384))
      rw [one_bind, run_call _ h1]
      have hs1 := h.keeps hk1
      -- the rest of the read, wherever the block leaves off
      have hrest : ∀ (c2 : GefsCtx) (bs : Bytes), Sees ea es dat c2 → ∃ c3,
          run sysStep (readLoop .active q fuel (size - n) (off + UInt64.ofNat n) >>= fun rest =>
            .ret (bs ++ rest)) c2
            = (readOf ea dat q fuel (size - n) (off + UInt64.ofNat n)).map fun rest =>
              (bs ++ rest, c3) := by
        intro c2 bs hs2
        obtain ⟨c3, h3⟩ := run_readLoop_sees q fuel (size - n) (off + UInt64.ofNat n) hs2
        refine ⟨c3, ?_⟩
        rw [run_bind, h3]
        rcases readOf ea dat q fuel (size - n) (off + UInt64.ofNat n) with _ | rest <;> rfl
      rcases hl : look ea (packdatkey q (off / 16384 * 16384)) with _ | v
      · obtain ⟨c3, h3⟩ := hrest c1 (List.replicate n 0) hs1
        refine ⟨c3, ?_⟩
        rw [Option.map_none, readBlock, ret_bind, h3]
        rcases readOf ea dat q fuel (size - n) (off + UInt64.ofNat n) with _ | rest <;> rfl
      · obtain ⟨bp, hbp, hh⟩ := hs1.data _ _ _ hl
        obtain ⟨c, c2, hk2, hq, h2⟩ := step_getblk hs1.ok hh
        obtain ⟨c3, h3⟩ := hrest c2 (load (dat bp.addr) (off % 16384).toNat n) (hs1.keeps hk2)
        refine ⟨c3, ?_⟩
        have hld : load c.buf (c.data + (off % 16384).toNat) n
            = load (dat bp.addr) (off % 16384).toNat n :=
          load_congr fun i hi => by rw [Nat.add_assoc, hq _ (by omega)]
        rw [Option.map_some, readBlock]
        dsimp only
        rw [hbp, ofOption_some, ret_bind, one_bind, call_bind, run_call _ h2]
        dsimp only
        rw [ret_bind, hld, h3]
        rcases readOf ea dat q fuel (size - n) (off + UInt64.ofNat n) with _ | rest <;> rfl

/-- What is seen decides what is answered. -/
theorem sameAnswers_of_sees (h : Sees ea es dat ctx) (h' : Sees ea es dat ctx') :
    SameAnswers ctx ctx' := by
  refine ⟨fun t k => ?_, fun d size offset => ?_⟩
  · obtain ⟨l, hl, -, hl'⟩ := h.tree t
    obtain ⟨c, -, hc⟩ := step_btlookup h.ok hl k
    obtain ⟨c', -, hc'⟩ := step_btlookup h'.ok (hl' ctx' h') k
    rw [hc, hc']
    rfl
  · unfold gefsReadFile
    split_ifs
    · rfl
    all_goals
      obtain ⟨c, hc⟩ := run_readLoop_sees d.qid.path _ _ offset.toUInt64 h
      obtain ⟨c', hc'⟩ := run_readLoop_sees d.qid.path _ _ offset.toUInt64 h'
      rw [hc, hc', Option.map_map, Option.map_map]
      rfl

end Sees

/-! ## Calls that only look, and an update that is refused -/

/-- A call that reads, or counts. -/
def Sys.Reads : {β : Type} → Sys β → Prop
  | _, .btlookup _ _ => True
  | _, .btscan _ pfx _ => pfx.length ≤ gefsKeymax
  | _, .getblk _ => True
  | _, .nextqid => True
  | _, .nextgen => True
  | _, .readonly => True
  | _, .tree _ => True
  | _, _ => False

/-- The roots are where they were, and the allocator has what it had. -/
structure Unmoved (ctx ctx' : GefsCtx) : Prop where
  active : ctx'.activeTree = ctx.activeTree
  snap : ctx'.snapTree = ctx.snapTree
  readonly : ctx'.readonly = ctx.readonly
  narena : ctx'.sb.narena = ctx.sb.narena
  arenas : ctx'.arenas = ctx.arenas

section Reads

variable {ea es : List GefsKvp} {dat : Int64 → Mem} {ctx ctx' : GefsCtx}

theorem Unmoved.refl (ctx : GefsCtx) : Unmoved ctx ctx :=
  ⟨rfl, rfl, rfl, rfl, rfl⟩

theorem Unmoved.trans {ctx'' : GefsCtx} (h : Unmoved ctx ctx') (h' : Unmoved ctx' ctx'') :
    Unmoved ctx ctx'' :=
  ⟨h'.active.trans h.active, h'.snap.trans h.snap, h'.readonly.trans h.readonly,
    h'.narena.trans h.narena, h'.arenas.trans h.arenas⟩

theorem Keeps.unmoved (h : Keeps ctx ctx') : Unmoved ctx ctx' :=
  ⟨h.activeTree, h.snapTree, h.readonly, congrArg GefsSuper.narena h.sb, h.arenas⟩

theorem Unmoved.nextAlloc (h : Unmoved ctx ctx') : nextAlloc ctx' = nextAlloc ctx :=
  nextAlloc_of_narena h.readonly h.narena h.arenas

/-- What reads keep: all that is seen, the roots and what the allocator has. -/
theorem sees_reads {β : Type} {p : Sys β} (hp : p.Reads) (h : Sees ea es dat ctx) {b : β}
    (hs : sysStep p ctx = some (b, ctx')) : Sees ea es dat ctx' ∧ Unmoved ctx ctx' := by
  cases p with
  | btlookup t k =>
    obtain ⟨l, hl, -⟩ := h.tree t
    obtain ⟨c, hk, hc⟩ := step_btlookup h.ok hl k
    obtain rfl : c = ctx' := (Prod.mk.inj (Option.some.inj (hc.symm.trans hs))).2
    exact ⟨h.keeps hk, hk.unmoved⟩
  | btscan t pfx stop =>
    obtain ⟨l, hl, hlt, -⟩ := h.tree t
    obtain ⟨c, hk, hc⟩ := step_btscan h.ok hl hlt hp stop
    obtain rfl : c = ctx' := (Prod.mk.inj (Option.some.inj (hc.symm.trans hs))).2
    exact ⟨h.keeps hk, hk.unmoved⟩
  | getblk bp =>
    have hk := (touchBlk_spec h.ok bp).1
    have he : ctx' = (touchBlk ctx bp).2 := by
      simp only [sysStep] at hs
      unfold touchBlk
      generalize gefsGetblk ctx bp = g at hs
      rcases g with ⟨_ | _, c⟩
      · exact (Prod.mk.inj (Option.some.inj hs)).2.symm
      · exact (Prod.mk.inj (Option.some.inj hs)).2.symm
    rw [he]
    exact ⟨h.keeps hk, hk.unmoved⟩
  | nextqid =>
    cases hs
    exact ⟨h.congr _ _ _, ⟨rfl, rfl, rfl, rfl, rfl⟩⟩
  | nextgen =>
    cases hs
    exact ⟨h.congr _ _ _, ⟨rfl, rfl, rfl, rfl, rfl⟩⟩
  | readonly =>
    cases hs
    exact ⟨h, .refl ctx⟩
  | tree t =>
    cases hs
    exact ⟨h, .refl ctx⟩
  | _ => exact hp.elim

/-- A program of such calls. -/
abbrev Reading {α : Type} (p : FsProg α) : Prop := All (fun {_} q => Sys.Reads q) p

theorem Reading.run {α : Type} {p : FsProg α} (hp : Reading p) (h : Sees ea es dat ctx) {a : α}
    (hr : run sysStep p ctx = some (a, ctx')) : Sees ea es dat ctx' ∧ Unmoved ctx ctx' := by
  induction p generalizing ctx with
  | ret b =>
    obtain rfl : ctx = ctx' := (Prod.mk.inj (Option.some.inj hr)).2
    exact ⟨h, .refl ctx⟩
  | fault => cases hr
  | call p k ih =>
    obtain ⟨b, c, hs, hr⟩ := run_call_eq_some hr
    obtain ⟨h1, hn1⟩ := sees_reads hp.1 h hs
    obtain ⟨h2, hn2⟩ := ih b (hp.2 b) h1 hr
    exact ⟨h2, hn1.trans hn2⟩

theorem Sys.Quiet.reads {β : Type} {p : Sys β} (hp : p.Quiet) : p.Reads := by
  cases p with
  | btlookup t k => trivial
  | nextqid => trivial
  | nextgen => trivial
  | readonly => trivial
  | tree t => trivial
  | _ => exact hp.elim

theorem Looks.reading {α : Type} {p : FsProg α} (hp : Looks p) : Reading p :=
  All.imp (fun _ => Sys.Quiet.reads) hp

theorem reading_walkPath (t : TreeRef) (path : Bytes) (d : GefsXdir) :
    Reading (gefsWalkPath t path d) := (looks_walkPath t path d).reading

/-- An update that is refused keeps what is seen, and if there was no block there still is none. -/
theorem sees_refused (h : Sees ea es dat ctx) {t : TreeRef} {ms : List GefsMsg} {e : Errno}
    (hs : sysStep (.btupsert t ms) ctx = some (.error e, ctx')) :
    Sees ea es dat ctx' ∧ (nextAlloc ctx = none → nextAlloc ctx' = none) := by
  rcases btupsert_cases h.ok hs with ⟨-, c, -, hk, rfl | ⟨a, as, hn, rfl⟩⟩ | ⟨he, -⟩
  · exact ⟨h.keeps hk, fun hn => hk.nextAlloc.trans hn⟩
  · exact ⟨(h.keeps hk).congr _ _ _, fun hn' => by simp [hn] at hn'⟩
  · cases he

/-- An update that is made had a block. -/
theorem canAlloc_of_made (h : Sees ea es dat ctx) {t : TreeRef} {ms : List GefsMsg}
    (hs : sysStep (.btupsert t ms) ctx = some (.ok (), ctx')) : canAlloc ctx = true := by
  rcases btupsert_cases h.ok hs with ⟨_, _, he, -⟩ | ⟨-, hc⟩
  · cases he
  · exact hc

end Reads

/-! ## One update, at the end -/

section Refusable

variable {ea es : List GefsKvp} {dat : Int64 → Mem} {ctx ctx' : GefsCtx} {α : Type}

/-- An answer that is no error. -/
def IsOk : Except Errno α → Prop := fun r => ∃ a, r = .ok a

/-- The program only looks, up to one update; refused, this is its last call, and made, what is
left cannot fail. -/
def Refusable : FsProg (Except Errno α) → Prop
  | .ret _ => True
  | .fault => True
  | .call p k => p.Reads ∧ (∀ b, Refusable (k b))
    ∨ ∃ t ms, ∃ f : Except Errno Unit → FsProg (Except Errno α),
      Prog.call p k = .call (.btupsert t ms) f ∧ Rets IsOk (f (.ok ()))
        ∧ ∀ e, ∃ r, f (.error e) = .ret r

theorem Refusable.bind {β : Type} {w : FsProg β} (hw : Reading w)
    {f : β → FsProg (Except Errno α)} (hf : ∀ a, Refusable (f a)) : Refusable (w >>= f) := by
  induction w with
  | ret a => exact hf a
  | fault => trivial
  | call p k ih => exact .inl ⟨hw.1, fun b => ih b (hw.2 b)⟩

theorem refusable_update (t : TreeRef) (ms : List GefsMsg)
    {f : Except Errno Unit → FsProg (Except Errno α)} (hok : Rets IsOk (f (.ok ())))
    (herr : ∀ e, ∃ r, f (.error e) = .ret r) : Refusable (.call (.btupsert t ms) f) :=
  .inr ⟨t, ms, f, rfl, hok, herr⟩

/-- When it fails, nothing is seen of it. -/
theorem Refusable.sees {p : FsProg (Except Errno α)} (hp : Refusable p) (h : Sees ea es dat ctx)
    {e : Errno} (hr : run sysStep p ctx = some (.error e, ctx')) : Sees ea es dat ctx' := by
  induction p generalizing ctx with
  | ret a =>
    obtain rfl : ctx = ctx' := (Prod.mk.inj (Option.some.inj hr)).2
    exact h
  | fault => cases hr
  | call p k ih =>
    rcases hp with ⟨hp, hk⟩ | ⟨t, ms, f, he, hok, herr⟩
    · obtain ⟨b, c, hs, hr⟩ := run_call_eq_some hr
      exact ih b (hk b) (sees_reads hp h hs).1 hr
    · rw [he] at hr
      obtain ⟨b, c, hs, hr⟩ := run_call_eq_some hr
      rcases b with e' | _
      · obtain ⟨r, hret⟩ := herr e'
        rw [hret] at hr
        obtain rfl : c = ctx' := (Prod.mk.inj (Option.some.inj hr)).2
        exact (sees_refused h hs).1
      · obtain ⟨a, ha⟩ := hok.run hr
        cases ha

theorem Refusable.zeroRet {p : FsProg (Except Errno Unit)} (hp : Refusable p) :
    Refusable (zeroRet p) := by
  unfold GefsFuse.zeroRet
  induction p with
  | ret r =>
    rcases r with _ | _ <;> trivial
  | fault => trivial
  | call p k ih =>
    rcases hp with ⟨hp, hk⟩ | ⟨t, ms, f, he, hok, herr⟩
    · exact .inl ⟨hp, fun b => ih b (hk b)⟩
    · rw [he, call_bind]
      refine refusable_update t ms ?_ fun e => ?_
      · generalize f (.ok ()) = q at hok
        induction q with
        | ret r =>
          obtain ⟨a, rfl⟩ := hok
          exact ⟨0, rfl⟩
        | fault => trivial
        | call p k ih => exact fun b => ih b (hok b)
      · obtain ⟨r, hr⟩ := herr e
        rw [hr]
        rcases r with e' | _
        · exact ⟨.error e', rfl⟩
        · exact ⟨.ok 0, rfl⟩

end Refusable

/-! ## The operations with one update -/

section Ops

theorem refusable_btupsert (t : TreeRef) (ms : List GefsMsg) :
    Refusable (.one (.btupsert t ms) : FsProg (Except Errno Unit)) :=
  refusable_update t ms ⟨(), rfl⟩ fun e => ⟨.error e, rfl⟩

theorem refusable_insertEntry (pqid : UInt64) (name : Bytes) (d : GefsXdir) :
    Refusable (insertEntry pqid name d) := by
  unfold insertEntry
  rcases gefsPackdkey gefsKeymax pqid.toInt64 (some name) with _ | k
  · trivial
  rcases gefsPackdval gefsInlmax d with _ | v
  · trivial
  exact refusable_btupsert _ _

/-- A walk, and what comes after it. -/
theorem refusable_walkPath {α : Type} {path : Bytes} {d : GefsXdir}
    {f : Except Errno Unit × GefsXdir → FsProg (Except Errno α)} (hf : ∀ r, Refusable (f r)) :
    Refusable (gefsWalkPath .active path d >>= f) :=
  .bind (reading_walkPath _ _ _) hf

theorem refusable_rewriteEntry (path : Bytes) (f : GefsXdir → GefsXdir) :
    Refusable (rewriteEntry path f) := by
  unfold rewriteEntry
  refine refusable_walkPath ?_
  rintro ⟨_ | _, d⟩
  · trivial
  rcases splitPath path with _ | ⟨parent, name⟩
  · trivial
  refine refusable_walkPath ?_
  rintro ⟨_ | _, pdir⟩
  · trivial
  exact refusable_insertEntry _ _ _

theorem refusable_freshThen (path : Bytes)
    {f : UInt64 → UInt64 → Bytes → FsProg (Except Errno Unit)}
    (hf : ∀ pq q n, Refusable (f pq q n)) : Refusable (freshThen path f) := by
  unfold freshThen
  rcases splitPath path with _ | ⟨parent, name⟩
  · trivial
  refine refusable_walkPath ?_
  rintro ⟨_ | _, pdir⟩
  · trivial
  refine .bind (looks_walk1 _ _ _ _).reading ?_
  rintro ⟨_ | _, d⟩
  · exact .inl ⟨trivial, fun q => hf _ q _⟩
  · trivial

theorem refusable_createFile (c : Caller) (path : Bytes) (mode : UInt32) :
    Refusable (gefsCreateFile c path mode) := by
  let f : UInt64 → UInt64 → Bytes → FsProg (Except Errno Unit) := fun pq q name =>
    insertEntry pq name (newEntry c q gefsQtfile (mode &&& 0o777) name)
  have he : gefsCreateFile c path mode = freshThen path f := rfl
  rw [he]
  exact refusable_freshThen path fun pq q name => refusable_insertEntry pq name _

theorem refusable_createDir (c : Caller) (path : Bytes) (mode : UInt32) :
    Refusable (gefsCreateDir c path mode) := by
  let f : UInt64 → UInt64 → Bytes → FsProg (Except Errno Unit) := fun pq q name => do
    let k ← Prog.ofOption (gefsPackdkey gefsKeymax pq.toInt64 (some name))
    let v ← Prog.ofOption
      (gefsPackdval gefsInlmax (newEntry c q gefsQtdir (gefsDmdir ||| (mode &&& 0o777)) name))
    let up ← Prog.ofOption (gefsPackdkey gefsInlmax pq.toInt64 (some name))
    .one (.btupsert .active [⟨.oinsert, k, v, []⟩, ⟨.oinsert, packupkey q, up, []⟩])
  have he : gefsCreateDir c path mode = freshThen path f := rfl
  rw [he]
  refine refusable_freshThen path fun pq q name => ?_
  unfold f
  rcases gefsPackdkey gefsKeymax pq.toInt64 (some name) with _ | k
  · trivial
  rcases gefsPackdval gefsInlmax _ with _ | v
  · trivial
  rcases gefsPackdkey gefsInlmax pq.toInt64 (some name) with _ | up
  · trivial
  exact refusable_btupsert _ _

theorem refusable_unlinkEntry (path : Bytes) : Refusable (gefsUnlinkEntry path) := by
  unfold gefsUnlinkEntry
  refine refusable_walkPath ?_
  rintro ⟨_ | _, d⟩
  · trivial
  dsimp only
  split_ifs
  · trivial
  rcases splitPath path with _ | ⟨parent, name⟩
  · trivial
  refine refusable_walkPath ?_
  rintro ⟨_ | _, pdir⟩
  · trivial
  dsimp only
  rcases gefsPackdkey gefsKeymax pdir.qid.path.toInt64 (some name) with _ | k
  · trivial
  exact refusable_btupsert _ _

theorem reading_listDir (t : TreeRef) (q : UInt64) (callback : List GefsXdir → Bool) :
    Reading (gefsListDir t q callback) := by
  refine ⟨?_, fun kvs => (all_ofOption _).bind fun ds => trivial⟩
  show (dirPrefix q).length ≤ gefsKeymax
  simp [dirPrefix, gefsKeymax]

theorem refusable_rmdirEntry (path : Bytes) : Refusable (gefsRmdirEntry path) := by
  unfold gefsRmdirEntry
  refine refusable_walkPath ?_
  rintro ⟨_ | _, d⟩
  · trivial
  dsimp only
  split_ifs
  · trivial
  refine .bind (reading_listDir _ _ _) fun ds => ?_
  split_ifs
  · trivial
  rcases splitPath path with _ | ⟨parent, name⟩
  · trivial
  refine refusable_walkPath ?_
  rintro ⟨_ | _, pdir⟩
  · trivial
  dsimp only
  rcases gefsPackdkey gefsKeymax pdir.qid.path.toInt64 (some name) with _ | k
  · trivial
  exact refusable_btupsert _ _

theorem refusable_renameEntry (oldpath newpath : Bytes) :
    Refusable (gefsRenameEntry oldpath newpath) := by
  unfold gefsRenameEntry
  refine refusable_walkPath ?_
  rintro ⟨_ | _, d⟩
  · trivial
  rcases splitPath oldpath with _ | ⟨oldParent, oldName⟩
  · trivial
  rcases splitPath newpath with _ | ⟨newParent, newName⟩
  · trivial
  refine refusable_walkPath ?_
  rintro ⟨_ | _, oldPdir⟩
  · trivial
  refine refusable_walkPath ?_
  rintro ⟨_ | _, newPdir⟩
  · trivial
  dsimp only
  rcases gefsPackdkey gefsKeymax oldPdir.qid.path.toInt64 (some oldName) with _ | kd
  · trivial
  rcases gefsPackdkey gefsKeymax newPdir.qid.path.toInt64 (some newName) with _ | ki
  · trivial
  rcases gefsPackdval gefsInlmax _ with _ | v
  · trivial
  exact refusable_btupsert _ _

/-- Once its update is made a snapshot is only synced, and that cannot fail. -/
theorem refusable_upsertSync (ms : List GefsMsg) : Refusable (upsertSync ms) :=
  refusable_update .snap ms (rets_bind gefsSyncFs fun _ => ⟨(), rfl⟩) fun e => ⟨.error e, rfl⟩

theorem refusable_createSnapshot (name : Bytes) (flag : Bool) :
    Refusable (gefsCreateSnapshot name flag) := by
  refine .inl ⟨trivial, fun ro => ?_⟩
  cases ro
  · refine .inl ⟨trivial, fun gen => .inl ⟨trivial, fun act => ?_⟩⟩
    change Refusable (ofOption (gefsPacklbl gefsKeymax name) >>= fun k => upsertSync _)
    rcases gefsPacklbl gefsKeymax name with _ | k
    · trivial
    · exact refusable_upsertSync _
  · trivial

theorem refusable_deleteSnapshot (name : Bytes) : Refusable (gefsDeleteSnapshot name) := by
  refine .inl ⟨trivial, fun ro => ?_⟩
  cases ro
  · change Refusable (if name = lblMain ∨ name = lblAdm ∨ name = lblEmpty then _ else _)
    split_ifs
    · trivial
    · rcases gefsPacklbl gefsKeymax name with _ | k
      · trivial
      · exact refusable_upsertSync _
  · trivial

end Ops

/-! ## Writes -/

/-- The block at `a` overlaps none that is seen. -/
structure Clear (ea : List GefsKvp) (ctx : GefsCtx) (a : Int64) : Prop where
  active : Apart ctx.activeTree.bp.addr a
  snap : Apart ctx.snapTree.bp.addr a
  data : ∀ q o v bp, look ea (packdatkey q o) = some v → valBptr v = some bp → Apart bp.addr a

/-- What reads as leaves and data blocks that the next write does not overlap. -/
def Settled (ctx : GefsCtx) : Prop :=
  ∃ ea es dat, Sees ea es dat ctx ∧ ∀ a as, nextAlloc ctx = some (a, as) → Clear ea ctx a

/-- After the next block, if there is one, there is none. -/
def lastBlock (ctx : GefsCtx) : Bool :=
  match nextAlloc ctx with
  | none => true
  | some (_, as) => (nextAlloc { ctx with arenas := as }).isNone

section Write

variable {ea es : List GefsKvp} {dat : Int64 → Mem} {ctx ctx' : GefsCtx}

theorem Sees.datted {m : Mem} {bp : GefsBptr} (h : Sees ea es dat ctx) (hc : Clear ea ctx bp.addr)
    (hd : Datted ctx m bp ctx') : Sees ea es dat ctx' := by
  refine ⟨hd.ok, ?_, ?_, h.lt, ?_⟩
  · rw [hd.active]
    exact ⟨h.active.ht, hd.held _ _ h.active.root hc.active, h.active.asc, h.active.small⟩
  · rw [hd.snap]
    exact ⟨h.snap.ht, hd.held _ _ h.snap.root hc.snap, h.snap.asc, h.snap.small⟩
  · intro q o v hv
    obtain ⟨bp', hbp, hh⟩ := h.data q o v hv
    exact ⟨bp', hbp, hd.held _ _ hh (hc.data q o v bp' hv hbp)⟩

theorem reading_oldBlock (kv : Option GefsKvp) : Reading (oldBlock kv) := by
  rcases kv with _ | kv
  · trivial
  refine (all_ofOption _).bind fun bp => ⟨trivial, fun b => ?_⟩
  rcases b with _ | b <;> trivial

theorem Clear.unmoved {a : Int64} (h : Clear ea ctx a) (hu : Unmoved ctx ctx') : Clear ea ctx' a :=
  ⟨hu.active ▸ h.active, hu.snap ▸ h.snap, h.data⟩

/-- A write that finds at most one block: the block of data is not seen, and the update after it is
refused. -/
theorem writeLoop_sees {q : UInt64} : ∀ {fuel : ℕ} {buf : Bytes} {off : UInt64} {r : Option UInt64}
    {ctx : GefsCtx}, Sees ea es dat ctx →
    (∀ a as, nextAlloc ctx = some (a, as) →
      Clear ea ctx a ∧ nextAlloc { ctx with arenas := as } = none) →
    run sysStep (writeLoop q fuel buf off) ctx = some (r, ctx') → Sees ea es dat ctx'
  | 0, _, _, _, ctx, h, _, hr => by
    obtain rfl : ctx = ctx' := (Prod.mk.inj (Option.some.inj hr)).2
    exact h
  | fuel + 1, buf, off, r, ctx, h, hl, hr => by
    unfold writeLoop at hr
    by_cases hb : buf = []
    · rw [if_pos hb] at hr
      obtain rfl : ctx = ctx' := (Prod.mk.inj (Option.some.inj hr)).2
      exact h
    rw [if_neg hb] at hr
    dsimp only at hr
    generalize hk : packdatkey q (off / 16384 * 16384) = k at hr
    obtain ⟨old, c1, h1, hr⟩ := run_bind_eq_some hr
    obtain ⟨hs1, hu1⟩ := Reading.run (p := .one (.btlookup .active k))
      ⟨trivial, fun _ => trivial⟩ h h1
    obtain ⟨m, c2, h2, hr⟩ := run_bind_eq_some hr
    obtain ⟨hs2, hu2⟩ := (reading_oldBlock old).run hs1 h2
    have hu := hu1.trans hu2
    rw [one_bind] at hr
    obtain ⟨bp, c3, h3, hr⟩ := run_call_eq_some hr
    generalize store m _ _ = m' at h3
    have hw : writedat c2 m' = (bp, c3) := Option.some.inj h3
    rcases writedat_spec hs2.ok m' with ⟨-, he⟩ | ⟨a, as, -, -, he⟩ | ⟨bp', c, hd, he⟩
    · obtain ⟨rfl, rfl⟩ := Prod.mk.inj (he.symm.trans hw)
      obtain rfl : c2 = ctx' := (Prod.mk.inj (Option.some.inj hr)).2
      exact hs2
    · obtain ⟨rfl, rfl⟩ := Prod.mk.inj (he.symm.trans hw)
      obtain rfl := (Prod.mk.inj (Option.some.inj hr)).2
      exact hs2.congr _ _ _
    · obtain ⟨rfl, rfl⟩ := Prod.mk.inj (he.symm.trans hw)
      obtain ⟨hc, hn⟩ := hl _ _ (hu.nextAlloc.symm.trans hd.alloc)
      have hs3 := hs2.datted (hc.unmoved hu) hd
      have hn3 : nextAlloc c = none := by
        rw [← hn]
        exact nextAlloc_of_narena (hd.readonly.trans hu.readonly)
          ((congrArg GefsSuper.narena hd.sb).trans hu.narena) rfl
      obtain ⟨u, c4, h4, hr⟩ := run_call_eq_some hr
      rcases u with e | _
      · obtain ⟨hs4, hn4⟩ := sees_refused hs3 h4
        refine writeLoop_sees hs4 (fun a as ha => ?_) hr
        rw [hn4 hn3] at ha
        cases ha
      · have := canAlloc_of_made hs3 h4
        simp [canAlloc, hn3] at this

/-- A write: nothing is seen of it where its walks fail, or it finds at most one block. -/
theorem sees_writeFile {path buf : Bytes} {offset now : Int64} {e : Errno} (h : Sees ea es dat ctx)
    (hc : (∃ e c, run sysStep (walkFile path) ctx = some (.error e, c))
      ∨ (∀ a as, nextAlloc ctx = some (a, as) →
        Clear ea ctx a ∧ nextAlloc { ctx with arenas := as } = none))
    (hr : run sysStep (gefsWriteFile path buf offset now) ctx = some (.error e, ctx')) :
    Sees ea es dat ctx' := by
  unfold gefsWriteFile at hr
  obtain ⟨⟨r, d⟩, c1, h1, hr⟩ := run_bind_eq_some hr
  obtain ⟨hs1, hu1⟩ := (reading_walkPath _ _ _).run h h1
  unfold walkFile walkParent at hc
  rw [run_bind, h1, Option.bind_some] at hc
  rcases r with e | _
  · obtain rfl : c1 = ctx' := (Prod.mk.inj (Option.some.inj hr)).2
    exact hs1
  dsimp only at hr hc
  rcases hsp : splitPath path with _ | ⟨parent, name⟩ <;> rw [hsp] at hr hc
  · obtain rfl : c1 = ctx' := (Prod.mk.inj (Option.some.inj hr)).2
    exact hs1
  dsimp only at hr hc
  obtain ⟨⟨r, pdir⟩, c2, h2, hr⟩ := run_bind_eq_some hr
  obtain ⟨hs2, hu2⟩ := (reading_walkPath _ _ _).run hs1 h2
  rw [run_bind, h2, Option.bind_some] at hc
  rcases r with e | _
  · obtain rfl : c2 = ctx' := (Prod.mk.inj (Option.some.inj hr)).2
    exact hs2
  dsimp only at hr hc
  have hu := hu1.trans hu2
  rcases hc with ⟨e, c, hc⟩ | hc
  · cases hc
  obtain ⟨r, c3, h3, hr⟩ := run_bind_eq_some hr
  have hs3 := writeLoop_sees hs2 (fun a as ha => ?_) h3
  · rcases r with _ | off
    · obtain rfl : c3 = ctx' := (Prod.mk.inj (Option.some.inj hr)).2
      exact hs3
    · have hret : Rets IsOk (gefsWalkPath .active parent pdir >>= fun r =>
          gefsWalk1 .active r.2.qid.path.toInt64 name d >>= fun r' =>
          insertEntry r.2.qid.path name
            { r'.2 with
              length := grownLength r'.2 off
              mtime := now
              qid := { r'.2.qid with vers := r'.2.qid.vers + 1 } } >>= fun _ =>
          (.ret (.ok buf.length) : FsProg (Except Errno ℕ))) :=
        rets_bind _ fun _ => rets_bind _ fun _ => rets_bind _ fun _ => ⟨_, rfl⟩
      obtain ⟨a, ha⟩ := hret.run hr
      cases ha
  · obtain ⟨h4, h5⟩ := hc a as (hu.nextAlloc.symm.trans ha)
    refine ⟨h4.unmoved hu, ?_⟩
    rw [← h5]
    exact nextAlloc_of_narena hu.readonly hu.narena rfl

/-- Where no block is free, none of a file that has none is written. -/
theorem run_writeLoop_full {q off : UInt64} {buf : Bytes} (h : Sees ea es dat ctx)
    (hl : look ea (packdatkey q (off / 16384 * 16384)) = none) (hn : nextAlloc ctx = none)
    (hb : buf ≠ []) (fuel : ℕ) :
    ∃ c, run sysStep (writeLoop q (fuel + 1) buf off) ctx = some (none, c)
      ∧ nextAlloc c = none := by
  obtain ⟨c, hk, hs⟩ := step_btlookup (t := .active) h.ok h.active
    (packdatkey q (off / 16384 * 16384))
  rw [hl] at hs
  have hnc : nextAlloc c = none := hk.unmoved.nextAlloc.trans hn
  refine ⟨c, ?_, hnc⟩
  unfold writeLoop
  rw [if_neg hb]
  dsimp only
  rw [one_bind, run_call _ hs]
  have hw : ∀ m, sysStep (.writedat m) c = some (none, c) := fun m => by
    rcases writedat_spec hk.ok m with ⟨-, he⟩ | ⟨a, as, ha, -⟩ | ⟨bp, c', hd, -⟩
    · exact congrArg some he
    · rw [hnc] at ha
      cases ha
    · rw [hd.alloc] at hnc
      cases hnc
  rw [Option.map_none, oldBlock, ret_bind, one_bind, run_call _ (hw _)]
  rfl

/-- With one block left, that one is written and no more. -/
theorem run_writeLoop_last {q off : UInt64} {buf : Bytes} {a : Int64} {as : List GefsArena}
    (h : Sees ea es dat ctx) (hl : ∀ o, look ea (packdatkey q o) = none)
    (hn : nextAlloc ctx = some (a, as)) (ha : 0 ≤ a) (hc : Clear ea ctx a)
    (hno : nextAlloc { ctx with arenas := as } = none)
    (hb : gefsBlksz < buf.length) {fuel : ℕ} (hfuel : 2 ≤ fuel) :
    ∃ c, run sysStep (writeLoop q fuel buf off) ctx = some (none, c) ∧ nextAlloc c = none := by
  obtain ⟨fuel, rfl⟩ := Nat.exists_eq_add_of_le' hfuel
  obtain ⟨c, hk, hs⟩ := step_btlookup (t := .active) h.ok h.active
    (packdatkey q (off / 16384 * 16384))
  rw [hl] at hs
  have hne : buf ≠ [] := List.ne_nil_of_length_pos (by omega)
  unfold writeLoop
  rw [if_neg hne]
  dsimp only
  rw [one_bind, run_call _ hs, Option.map_none, oldBlock, ret_bind, one_bind]
  generalize store _ _ _ = m
  rcases writedat_spec hk.ok m with ⟨he, -⟩ | ⟨a', as', he, hneg, -⟩ | ⟨bp, c', hd, he⟩
  · rw [hk.unmoved.nextAlloc, hn] at he
    cases he
  · rw [hk.unmoved.nextAlloc, hn] at he
    obtain ⟨rfl, -⟩ := Prod.mk.inj (Option.some.inj he)
    exact absurd hneg (Int64.not_lt.2 ha)
  have hu := hk.unmoved
  have hal := hn.symm.trans (hu.nextAlloc.symm.trans hd.alloc)
  obtain ⟨rfl, rfl⟩ := Prod.mk.inj (Option.some.inj hal)
  have h' := (h.keeps hk).datted (hc.unmoved hu) hd
  have hn' : nextAlloc c' = none := by
    rw [← hno]
    exact nextAlloc_of_narena (hd.readonly.trans hu.readonly)
      ((congrArg GefsSuper.narena hd.sb).trans hu.narena) rfl
  rw [run_call _ (show sysStep (.writedat m) c = _ from congrArg some he)]
  dsimp only
  generalize [(⟨.oinsert, packdatkey q (off / 16384 * 16384), gefsPackbp bp, []⟩ : GefsMsg)] = ms
  obtain ⟨e, c2, hup⟩ := gefsBtupsert_refused h'.ok .active ms fun a as ha => by
    rw [hn'] at ha
    cases ha
  have hup : sysStep (.btupsert .active ms) c' = some (.error e, c2) := hup
  obtain ⟨h2, hn2⟩ := sees_refused h' hup
  rw [one_bind, run_call _ hup]
  refine run_writeLoop_full h2 (hl _) (hn2 hn') (fun hd => ?_) fuel
  have := List.drop_eq_nil_iff.1 hd
  omega

/-- So a write of more than a block fails, and what it has written stays unseen. -/
theorem run_writeFile_last {path parent name buf : Bytes} {offset now : Int64} {f g : Found}
    {a : Int64} {as : List GefsArena} (h : Sees ea es dat ctx)
    (hsp : splitPath path = some (parent, name)) (hf : findPath ea path = some (.ok f))
    (hg : findPath ea parent = some (.ok g))
    (hl : ∀ o, look ea (packdatkey f.dir.qid.path o) = none)
    (hn : nextAlloc ctx = some (a, as)) (ha : 0 ≤ a) (hc : Clear ea ctx a)
    (hno : nextAlloc { ctx with arenas := as } = none) (hb : gefsBlksz < buf.length) :
    ∃ c, run sysStep (gefsWriteFile path buf offset now) ctx = some (.error .enospc, c)
      ∧ nextAlloc c = none := by
  obtain ⟨c1, hk1, h1⟩ := run_walkPath (t := .active) h.ok h.active hf zeroXdir
  have hs1 := h.keeps hk1
  obtain ⟨c2, hk2, h2⟩ := run_walkPath (t := .active) hs1.ok hs1.active hg zeroXdir
  have hu := hk1.unmoved.trans hk2.unmoved
  have hno2 : nextAlloc { c2 with arenas := as } = none := by
    rw [← hno]
    exact nextAlloc_of_narena hu.readonly hu.narena rfl
  have hbs : gefsBlksz = 16384 := rfl
  obtain ⟨c3, h3, hn3⟩ : ∃ c, run sysStep
      (writeLoop f.dir.qid.path buf.length buf offset.toUInt64) c2 = some (none, c)
      ∧ nextAlloc c = none :=
    run_writeLoop_last (hs1.keeps hk2) hl (hu.nextAlloc.trans hn) ha (hc.unmoved hu) hno2 hb
      (by omega)
  refine ⟨c3, ?_, hn3⟩
  unfold gefsWriteFile
  rw [run_bind, h1, Option.bind_some]
  dsimp only
  rw [hsp]
  dsimp only
  rw [run_bind, h2, Option.bind_some]
  dsimp only
  rw [run_bind, h3]
  rfl

theorem canAlloc_insertEntry {q : UInt64} {name : Bytes} {d : GefsXdir} (h : Sees ea es dat ctx)
    (hr : run sysStep (insertEntry q name d) ctx = some (.ok (), ctx')) : canAlloc ctx = true := by
  unfold insertEntry at hr
  rcases hk : gefsPackdkey gefsKeymax q.toInt64 (some name) with _ | k <;> rw [hk] at hr
  · cases hr
  rcases hv : gefsPackdval gefsInlmax d with _ | v <;> rw [hv] at hr
  · cases hr
  obtain ⟨r, c, hs, hr⟩ := run_call_eq_some hr
  obtain ⟨rfl, -⟩ := Prod.mk.inj (Option.some.inj hr)
  exact canAlloc_of_made h hs

/-- A link: nothing is seen of it where its first update is refused, or not come to. -/
theorem sees_createSymlink {c : Caller} {target linkpath : Bytes} {e : Errno}
    (h : Sees ea es dat ctx)
    (hc : (∃ e c, run sysStep (walkParent linkpath) ctx = some (.error e, c))
      ∨ canAlloc ctx = false)
    (hr : run sysStep (gefsCreateSymlink c target linkpath) ctx = some (.error e, ctx')) :
    Sees ea es dat ctx' := by
  unfold gefsCreateSymlink at hr
  unfold walkParent at hc
  rcases hsp : splitPath linkpath with _ | ⟨parent, name⟩ <;> rw [hsp] at hr hc
  · obtain rfl : ctx = ctx' := (Prod.mk.inj (Option.some.inj hr)).2
    exact h
  dsimp only at hr hc
  obtain ⟨⟨r, pdir⟩, c1, h1, hr⟩ := run_bind_eq_some hr
  obtain ⟨hs1, hu1⟩ := (reading_walkPath _ _ _).run h h1
  rw [run_bind, h1, Option.bind_some] at hc
  rcases r with e | _
  · obtain rfl : c1 = ctx' := (Prod.mk.inj (Option.some.inj hr)).2
    exact hs1
  dsimp only at hr hc
  rcases hc with ⟨e, c, hc⟩ | hc
  · cases hc
  obtain ⟨q, c2, h2, hr⟩ := run_bind_eq_some hr
  have hq : Reading (Prog.one .nextqid : FsProg UInt64) := ⟨trivial, fun _ => trivial⟩
  obtain ⟨hs2, hu2⟩ := hq.run hs1 h2
  obtain ⟨r, c3, h3, hr⟩ := run_bind_eq_some hr
  rcases r with e | _
  · obtain rfl : c3 = ctx' := (Prod.mk.inj (Option.some.inj hr)).2
    exact (refusable_insertEntry _ _ _).sees hs2 h3
  · have hcan := canAlloc_insertEntry hs2 h3
    rw [canAlloc, (hu1.trans hu2).nextAlloc] at hcan
    rw [canAlloc] at hc
    rw [hc] at hcan
    cases hcan

end Write

/-! ## Runs -/

/-- What the operations that update more than once need for a failure to leave nothing behind. -/
def PortOp.Guarded (ctx : GefsCtx) : PortOp → Prop
  | .file (.writeFile path _ _ _) =>
    (∃ e c, run sysStep (walkFile path.bytes) ctx = some (.error e, c)) ∨ lastBlock ctx = true
  | .file (.createSymlink _ _ linkpath) =>
    (∃ e c, run sysStep (walkParent linkpath.bytes) ctx = some (.error e, c)) ∨ canAlloc ctx = false
  | _ => True

section Runs

variable {ea es : List GefsKvp} {dat : Int64 → Mem} {ctx ctx' : GefsCtx} {e : Errno}

theorem run_zeroRet_error {p : FsProg (Except Errno Unit)}
    (hr : run sysStep (zeroRet p) ctx = some (.error e, ctx')) :
    run sysStep p ctx = some (.error e, ctx') := by
  obtain ⟨r, c, h, hr⟩ := run_bind_eq_some hr
  rcases r with e' | _
  · obtain ⟨he, rfl⟩ := Prod.mk.inj (Option.some.inj hr)
    cases he
    exact h
  · cases hr

/-- An operation that fails is not seen. -/
theorem sees_failed {op : PortOp} (h : Sees ea es dat ctx)
    (hc : ∀ a as, nextAlloc ctx = some (a, as) → Clear ea ctx a) (hg : op.Guarded ctx)
    (hr : run sysStep op.prog ctx = some (.error e, ctx')) : Sees ea es dat ctx' := by
  cases op with
  | file op =>
    cases op with
    | createFile c path mode => exact (refusable_createFile _ _ _).zeroRet.sees h hr
    | createDir c path mode => exact (refusable_createDir _ _ _).zeroRet.sees h hr
    | createSymlink c target linkpath => exact sees_createSymlink h hg (run_zeroRet_error hr)
    | writeFile path buf offset now =>
      refine sees_writeFile h (hg.imp_right fun hl a as ha => ⟨hc a as ha, ?_⟩) hr
      rw [lastBlock, ha] at hl
      exact Option.isNone_iff_eq_none.1 hl
    | truncateFile path size now => exact (refusable_rewriteEntry _ _).zeroRet.sees h hr
    | unlinkEntry path => exact (refusable_unlinkEntry _).zeroRet.sees h hr
    | rmdirEntry path => exact (refusable_rmdirEntry _).zeroRet.sees h hr
    | renameEntry oldpath newpath => exact (refusable_renameEntry _ _).zeroRet.sees h hr
    | chmodEntry path mode => exact (refusable_rewriteEntry _ _).zeroRet.sees h hr
    | chownEntry path uid gid => exact (refusable_rewriteEntry _ _).zeroRet.sees h hr
    | utimensEntry path tv now => exact (refusable_rewriteEntry _ _).zeroRet.sees h hr
  | createSnapshot name flag => exact (refusable_createSnapshot _ _).zeroRet.sees h hr
  | deleteSnapshot name => exact (refusable_deleteSnapshot _).zeroRet.sees h hr
  | sync =>
    have hret : Rets IsOk (PortOp.prog .sync) := rets_bind gefsSyncFs fun _ => ⟨0, rfl⟩
    obtain ⟨a, ha⟩ := hret.run hr
    cases ha
  | select label =>
    have hret : Rets IsOk (PortOp.prog (.select label)) :=
      rets_bind (selectSnap label.bytes) fun _ => ⟨0, rfl⟩
    obtain ⟨a, ha⟩ := hret.run hr
    cases ha

theorem mem_opSteps : ∀ {ops : List PortOp} {ctx : GefsCtx} {steps : List OpStep},
    opSteps ctx ops = some steps → ∀ s ∈ steps,
      run sysStep s.op.prog s.before = some (s.answer, s.after)
  | [], _, _, h, s, hs => by
    obtain rfl := Option.some.inj h
    cases hs
  | op :: ops, ctx, _, h, s, hs => by
    obtain ⟨⟨r, c⟩, h1, h⟩ := Option.bind_eq_some_iff.1 h
    obtain ⟨steps, h2, h⟩ := Option.bind_eq_some_iff.1 h
    obtain rfl := Option.some.inj h
    rcases List.mem_cons.1 hs with rfl | hs
    · exact h1
    · exact mem_opSteps h2 s hs

/-- In every run, where each operation that fails finds a settled state, and a write that fails at
most one block or no file, a link that fails no block or no directory, look-ups and reads answer
after a failure as they did before. -/
theorem failed_sameAnswers {ops : List PortOp} {steps : List OpStep}
    (hrun : opSteps ctx ops = some steps)
    (hw : ∀ s ∈ steps, (∃ e, s.answer = .error e) → Settled s.before ∧ s.op.Guarded s.before) :
    ∀ s ∈ steps, (∃ e, s.answer = .error e) → SameAnswers s.before s.after := by
  rintro s hs ⟨e, he⟩
  obtain ⟨⟨ea, es, dat, hsees, hclear⟩, hg⟩ := hw s hs ⟨e, he⟩
  have hr := mem_opSteps hrun s hs
  rw [he] at hr
  exact sameAnswers_of_sees hsees (sees_failed hsees hclear hg hr)

end Runs

/-! ## The blank image -/

section Blank

variable {d d' : Disk} {r a u tb : GefsBptr} {nu : ℕ} {bps : List GefsBptr} {ctx : GefsCtx}

theorem look_mainEs_dat (q o : UInt64) : look mainEs (packdatkey q o) = none := rfl

theorem sees_blank (ho : Opened d' false (fun _ _ => 0) 8 r a tb bps ctx) :
    Sees mainEs (catEs r a) (fun _ _ => 0) ctx := by
  refine ⟨ho.ok, ho.main, ho.catalog, ⟨by decide, ?_⟩, fun q o v hv => ?_⟩
  · show 6 < 16384
    omega
  · rw [look_mainEs_dat] at hv
    cases hv

theorem clear_blank (hf : Formatted d d' r a u tb nu bps)
    (ho : Opened d' false (fun _ _ => 0) 8 r a tb bps ctx) : Clear mainEs ctx 0 := by
  refine ⟨?_, ?_, fun q o v bp hv => ?_⟩
  · rw [ho.active]
    show Apart r.addr _
    rw [hf.raddr]
    decide
  · rw [ho.snap, ho.sb]
    show Apart tb.addr _
    rw [hf.taddr]
    decide
  · rw [look_mainEs_dat] at hv
    cases hv

/-- The root directory of a tree just made. -/
theorem mainEs_root : ∃ d, look mainEs rootKey = some (rootVal qmainroot)
    ∧ gefsKv2dir (rootKey, rootVal qmainroot) = some d ∧ d.qid.path = 0 :=
  ⟨_, by decide +kernel, rfl, by decide +kernel⟩

/-- The path `/`. -/
def rootPath : CStr := ⟨[slash], by simp [slash]⟩

/-- An arena with one free block, and what it is without it. -/
def lastArena : GefsArena := ⟨16384, 16384, 0, ⟨0, 0, 0⟩, [⟨0, 16384⟩]⟩

def fullArena : GefsArena := ⟨16384, 16384, 16384, ⟨0, 0, 0⟩, []⟩

/-- A write of more than a block, with a block left. -/
theorem failed_sameAnswers_blank : ∃ d' ctx step, mkfs [] blankImage = some d'
    ∧ gefsFsOpen 3 d' false (fun _ _ => 0) = some (.ok ctx)
    ∧ opSteps { ctx with arenas := [lastArena] }
      [.file (.writeFile rootPath (List.replicate 16385 1) 0 0)] = some [step]
    ∧ step.answer = .error .enospc ∧ canAlloc step.before = true ∧ canAlloc step.after = false
    ∧ SameAnswers step.before step.after := by
  obtain ⟨d', r, a, u, tb, nu, bps, ctx, hm, hf, hopen, ho, hb⟩ := mount_blank
  obtain ⟨d, hv, hd, hq⟩ := mainEs_root
  let ctx1 : GefsCtx := { ctx with arenas := [lastArena] }
  have hsee : Sees mainEs (catEs r a) (fun _ _ => 0) ctx1 := (sees_blank ho).congr _ _ _
  have hnext : nextAlloc ctx1 = some (0, [fullArena]) := by
    unfold nextAlloc
    rw [if_neg (not_or.2 ⟨by simp [ctx1, hb.ro], Int32.not_le.2 hb.narena⟩)]
    rfl
  have hno : nextAlloc { ctx1 with arenas := [fullArena] } = none := by
    unfold nextAlloc
    split_ifs <;> rfl
  have hc0 := clear_blank hf ho
  have hclear : Clear mainEs ctx1 0 := ⟨hc0.active, hc0.snap, hc0.data⟩
  have hroot : findPath mainEs [slash] = some (.ok ⟨-1, [], d⟩) := findPath_root hv hd (by decide)
  have hsplit : splitPath [slash] = some ([slash], []) := rfl
  let op : PortOp := .file (.writeFile rootPath (List.replicate 16385 1) 0 0)
  obtain ⟨c, hrun, hn⟩ : ∃ c, run sysStep op.prog ctx1 = some (.error .enospc, c)
      ∧ nextAlloc c = none :=
    run_writeFile_last hsee hsplit hroot hroot (look_mainEs_dat _) hnext (by decide) hclear hno
      (by rw [List.length_replicate]; decide)
  have hsteps : opSteps ctx1 [op] = some [⟨ctx1, op, .error .enospc, c⟩] := by
    unfold opSteps
    rw [hrun]
    rfl
  refine ⟨d', ctx, _, hm, hopen, hsteps, rfl, ?_, ?_, ?_⟩
  · show canAlloc ctx1 = true
    rw [canAlloc, hnext]
    rfl
  · show canAlloc c = false
    rw [canAlloc, hn]
  refine failed_sameAnswers hsteps (fun s hs _ => ?_) _ (List.mem_singleton_self _) ⟨_, rfl⟩
  rw [List.mem_singleton.1 hs]
  refine ⟨⟨_, _, _, hsee, fun x as hx => ?_⟩, .inr ?_⟩
  · rw [hnext] at hx
    obtain ⟨rfl, -⟩ := Prod.mk.inj (Option.some.inj hx)
    exact hclear
  · show lastBlock ctx1 = true
    rw [lastBlock, hnext]
    exact congrArg Option.isNone hno

def nameAbc : Bytes := [0x61, 0x62, 0x63]

/-- A path of 1024 bytes to the entry `abc` of the root directory: a walk of it comes to `ab`. -/
def longLink : CStr := ⟨entryPath (List.replicate 1020 slash) nameAbc, fun b hb => by
  rcases List.mem_append.1 hb with h | h
  · rw [List.eq_of_mem_replicate h]
    decide
  · simp only [nameAbc, List.mem_cons, List.not_mem_nil, or_false] at h
    rcases h with rfl | rfl | rfl | rfl <;> decide⟩

theorem splitOn_slashes : ∀ n : ℕ, ((List.replicate n slash).splitOn slash).filter (· ≠ []) = []
  | 0 => by simp
  | n + 1 => by
    rw [List.replicate_succ, ← List.nil_append (slash :: _), List.splitOn_append_cons_self,
      List.filter_append, splitOn_slashes n]
    simp

theorem pathElems_slashes (n : ℕ) : pathElems (List.replicate n slash) = [] := by
  rw [pathElems, List.take_replicate]
  exact splitOn_slashes _

theorem splitPath_longLink :
    splitPath longLink.bytes = some (List.replicate 1020 slash, nameAbc) := by
  have hne : List.replicate 1020 slash ≠ [] := List.cons_ne_nil _ _
  rw [longLink, splitPath_entryPath (by decide), if_neg hne, List.take_replicate]
  rfl

theorem pathElems_longLink : pathElems longLink.bytes = [[0x61, 0x62]] := by
  have hne : List.replicate 1020 slash ≠ [] := List.cons_ne_nil _ _
  rw [longLink, pathElems_entryPath (by decide), if_neg hne, List.take_replicate, pathElems_slashes,
    List.length_replicate]
  decide

/-- An entry of the tree just made, with a name of three bytes and a value of 61. -/
theorem fits_ins_mainEs {k v : Bytes} (hk : k.length = 15) (hv : v.length = 61) :
    Fits (ins mainEs k v) := by
  have h := room_merged_le mainEs [⟨.oinsert, k, v, []⟩]
  have h1 := fits_iff_room.1 fits_mainEs
  have e1 : room mainEs = 106 := by
    simp [room, mainEs, kvSize, rootKey, packupkey]
  have e2 : room ([(⟨.oinsert, k, v, []⟩ : GefsMsg)].flatMap (putOf GefsMsg.k GefsMsg.eff))
      = 82 := by
    simp [room, putOf, GefsMsg.eff, kvSize, hk, hv]
  have hl : gefsLeafspc = 16378 := rfl
  rw [fits_iff_room, ins]
  omega

/-- With a block to have, an entry is made. -/
theorem upsert_made {es : List GefsKvp} {k v : Bytes} {ctx : GefsCtx} (hok : CtxOk ctx)
    (hh : TreeHolds ctx ctx.activeTree es) (hf : Fits (ins es k v)) (hc : canAlloc ctx = true) :
    ∃ ctx', sysStep (.btupsert .active [⟨.oinsert, k, v, []⟩]) ctx = some (.ok (), ctx') := by
  have hro : ctx.readonly = false := by
    by_contra hro
    rw [canAlloc, nextAlloc, if_pos (.inl (by simpa using hro))] at hc
    cases hc
  have hplain : Plain [(⟨.oinsert, k, v, []⟩ : GefsMsg)] := fun m hm => by
    rw [List.mem_singleton.1 hm]
    simp
  rcases @gefsBtupsert_leaf ctx .active es _ hok hh.root hplain (List.cons_ne_nil _ _) hro hf
    with ⟨hn, -⟩ | ⟨a, as, c, hn, ha, -⟩ | ⟨bp, c, -, he⟩
  · rw [canAlloc, hn] at hc
    cases hc
  · rw [canAlloc, hn] at hc
    exact absurd (of_decide_eq_true hc) (Int64.not_le.2 ha)
  · exact ⟨c, he⟩

/-- The link is made, then not found by the write, and stays. -/
theorem symlink_blank (ho : Opened d' false (fun _ _ => 0) 8 r a tb bps ctx) (hb : Bump 0 ctx) :
    ∃ k v ctx', run sysStep (gefsCreateSymlink ⟨0, 0, 0⟩ [] longLink.bytes) ctx
        = some (.error .enoent, ctx')
      ∧ look mainEs k = none ∧ CtxOk ctx' ∧ TreeHolds ctx' ctx'.activeTree (ins mainEs k v) := by
  obtain ⟨d, hv, hd, hq⟩ := mainEs_root
  obtain ⟨k, hk⟩ : ∃ k, gefsPackdkey gefsKeymax 0 (some nameAbc) = some k := ⟨_, rfl⟩
  have hlk : look mainEs k = none := by
    obtain ⟨-, rfl⟩ := gefsPackdkey_eq_some.1 hk
    rfl
  unfold gefsCreateSymlink
  rw [splitPath_longLink]
  dsimp only
  obtain ⟨c1, hk1, h1⟩ := @run_walkPath _ ctx .active ho.ok ho.main _ _
    (findPath_root hv hd (pathElems_slashes 1020)) zeroXdir
  rw [run_bind, h1, Option.bind_some]
  dsimp only
  obtain ⟨q, c2, hs2⟩ : ∃ q c2, sysStep .nextqid c1 = some (q, c2) := ⟨_, _, rfl⟩
  have hu1 := hk1.unmoved
  obtain ⟨hsee, hu2⟩ := sees_reads (p := .nextqid) trivial ((sees_blank ho).keeps hk1) hs2
  rw [one_bind, run_call _ hs2, hq]
  obtain ⟨v, hv'⟩ := @gefsPackdval_isSome gefsInlmax (by decide)
    (newEntry ⟨0, 0, 0⟩ q gefsQtsymlink 0o777 nameAbc)
  have hklen : k.length = 15 := by
    obtain ⟨-, rfl⟩ := gefsPackdkey_eq_some.1 hk
    simp [nameAbc]
  have hvlen := length_gefsPackdval hv'
  have hfits := fits_ins_mainEs hklen hvlen
  have hcan : canAlloc c2 = true := by
    rw [canAlloc, (hu1.trans hu2).nextAlloc]
    exact hb.canAlloc (by omega)
  obtain ⟨c3, hs3⟩ := upsert_made hsee.ok hsee.active hfits hcan
  obtain ⟨hok3, hh3⟩ := upsert_ins_of_fits hsee.ok hsee.active hfits
    (by rw [hklen, hvlen]; decide) hs3
  have hins : insertEntry 0 nameAbc (newEntry ⟨0, 0, 0⟩ q gefsQtsymlink 0o777 nameAbc)
      = .one (.btupsert .active [⟨.oinsert, k, v, []⟩]) := by
    unfold insertEntry
    rw [show (0 : UInt64).toInt64 = 0 from rfl, hk, hv']
    rfl
  rw [hins, one_bind, run_call _ hs3]
  have hrk : rootKey ≠ k := fun h => by
    have := congrArg List.length h
    rw [hklen] at this
    revert this
    decide
  have hroot : look (ins mainEs k v) rootKey = some (rootVal qmainroot) := by
    rw [look_ins ascending_mainEs, if_neg hrk, hv]
  obtain ⟨k', hk'⟩ : ∃ k', gefsPackdkey gefsKeymax 0 (some [0x61, 0x62]) = some k' := ⟨_, rfl⟩
  have hlk' : look (ins mainEs k v) k' = none := by
    have hne : k' ≠ k := fun h => by
      have hlen := congrArg List.length h
      obtain ⟨-, rfl⟩ := gefsPackdkey_eq_some.1 hk'
      rw [hklen] at hlen
      simp at hlen
    rw [look_ins ascending_mainEs, if_neg hne]
    obtain ⟨-, rfl⟩ := gefsPackdkey_eq_some.1 hk'
    rfl
  have hfind : findPath (ins mainEs k v) longLink.bytes = some (.error .enoent) :=
    findPath_enoent hroot hd pathElems_longLink (by decide) (by rw [hq]; exact hk') hlk'
  obtain ⟨d4, c4, hk4, h4⟩ := @run_walkPath_error _ c3 .active hok3 hh3 _ _ hfind zeroXdir
  have hw : run sysStep (gefsWriteFile longLink.bytes [] 0 0) c3 = some (.error .enoent, c4) := by
    unfold gefsWriteFile
    rw [run_bind, h4]
    rfl
  refine ⟨k, v, c4, ?_, hlk, hk4.ok, hk4.activeTree ▸ hh3.keeps hk4⟩
  dsimp only
  rw [run_bind, hw]
  rfl

/-- A link under a path that a walk does not take whole, on the blank image. -/
theorem not_forall_sameAnswers :
    ¬ ∀ (user : Bytes) (d d' : Disk) (fuel : ℕ) (readonly : Bool) (heap : ℕ → Mem) (ctx : GefsCtx)
      (ops : List PortOp) (steps : List OpStep), mkfs user d = some d' →
      gefsFsOpen fuel d' readonly heap = some (.ok ctx) → opSteps ctx ops = some steps →
      ∀ s ∈ steps, (∃ e, s.answer = .error e) → SameAnswers s.before s.after := by
  intro h
  obtain ⟨d', r, a, u, tb, nu, bps, ctx, hm, -, hopen, ho, hb⟩ := mount_blank
  obtain ⟨k, v, ctx', hr, hlk, hok, hh⟩ := symlink_blank ho hb
  let op : PortOp := .file (.createSymlink ⟨0, 0, 0⟩ ⟨[], nofun⟩ longLink)
  have hop : run sysStep op.prog ctx = some (.error .enoent, ctx') := by
    change run sysStep (zeroRet (gefsCreateSymlink ⟨0, 0, 0⟩ [] longLink.bytes)) ctx = _
    unfold zeroRet
    rw [run_bind, hr]
    rfl
  have hsteps : opSteps ctx [op] = some [⟨ctx, op, .error .enoent, ctx'⟩] := by
    unfold opSteps
    rw [hop]
    rfl
  have hsame := h _ _ _ _ _ _ _ _ _ hm hopen hsteps _ (List.mem_singleton_self _) ⟨_, rfl⟩
  obtain ⟨c1, -, h1⟩ := @step_btlookup ctx .active mainEs ho.ok ho.main k
  obtain ⟨c2, -, h2⟩ := @step_btlookup ctx' .active (ins mainEs k v) hok hh k
  have heq := hsame.lookup .active k
  rw [h1, h2, look_ins ascending_mainEs, if_pos rfl, hlk] at heq
  cases heq

end Blank
end GefsFuse
