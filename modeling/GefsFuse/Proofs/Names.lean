import GefsFuse.Names
import GefsFuse.Proofs.Batch

/-!
# A name is kept as long as its key has room, and the leaf for it

Up to its first update an operation only looks (`Sys.Quiet`), so what is left is to see where it
stands after its walks (`nameKept_bind`): before a key that has room, or before one that has none
and a subtraction from `NULL`. The update then leaves the name in the tree exactly if the leaf has
room for the batch (`nameKept_update`), and from there on the tree stays one leaf whose root is in
the cache (`Rooted`), so that each later update is judged in the same way.
-/

namespace GefsFuse

open ByteMem SortedMap Calls Prog

/-! ## Calls that only look -/

/-- A call that changes neither a tree nor the image. -/
def Sys.Quiet : {β : Type} → Sys β → Prop
  | _, .btlookup _ _ => True
  | _, .nextqid => True
  | _, .nextgen => True
  | _, .readonly => True
  | _, .tree _ => True
  | _, _ => False

theorem SameTrees.refl (ctx : GefsCtx) : SameTrees ctx ctx := ⟨rfl, rfl, rfl⟩

theorem SameTrees.trans {ctx ctx' ctx'' : GefsCtx} (h : SameTrees ctx ctx')
    (h' : SameTrees ctx' ctx'') : SameTrees ctx ctx'' :=
  ⟨h'.active.trans h.active, h'.snap.trans h.snap, h'.disk.trans h.disk⟩

theorem sameTrees_getblk (ctx : GefsCtx) (bp : GefsBptr) : SameTrees ctx (gefsGetblk ctx bp).2 := by
  unfold gefsGetblk
  split
  · exact ⟨rfl, rfl, rfl⟩
  · split <;> exact ⟨rfl, rfl, rfl⟩

/-- An update that is refused changes neither a tree nor the image. -/
theorem sameTrees_refused {ctx ctx' : GefsCtx} {t : TreeRef} {ms : List GefsMsg} {e : Errno}
    (h : gefsBtupsert ctx t ms = some (.error e, ctx')) : SameTrees ctx ctx' := by
  have hg := sameTrees_getblk ctx (ctx.tree t).bp
  unfold gefsBtupsert at h
  by_cases h0 : ctx.readonly ∨ ms = []
  · rw [if_pos h0] at h
    cases h
    exact .refl ctx
  · rw [if_neg h0] at h
    generalize gefsGetblk ctx (ctx.tree t).bp = g at h hg
    obtain ⟨_ | root, ctx1⟩ := g
    · cases h
      exact hg
    · dsimp only at h hg
      have ha : SameTrees ctx1 (gefsAllocBlk ctx1).2 := by
        unfold gefsAllocBlk
        split
        · exact .refl ctx1
        · split <;> exact ⟨rfl, rfl, rfl⟩
      generalize gefsAllocBlk ctx1 = al at h ha
      obtain ⟨addr, ctx2⟩ := al
      dsimp only at h ha
      by_cases h1 : addr < 0
      · rw [if_pos h1] at h
        cases h
        exact (hg.trans ha).trans ⟨rfl, rfl, rfl⟩
      · rw [if_neg h1] at h
        obtain ⟨b, -, h⟩ := Option.bind_eq_some_iff.1 h
        cases h

/-! ## Walks only look -/

/-- A program that only looks. -/
abbrev Looks {α : Type} (p : FsProg α) : Prop := All (fun {_} q => Sys.Quiet q) p

/-- A look-up in the tree `t`. -/
def Sys.Asks (t : TreeRef) : {β : Type} → Sys β → Prop
  | _, .btlookup t' _ => t' = t
  | _, _ => False

/-- A program of look-ups in the tree `t`. -/
abbrev Asks (t : TreeRef) {α : Type} (p : FsProg α) : Prop := All (fun {_} q => Sys.Asks t q) p

theorem Sys.Asks.quiet {t : TreeRef} {β : Type} {p : Sys β} (hp : p.Asks t) : p.Quiet := by
  cases p with
  | btlookup t k => trivial
  | _ => exact hp.elim

theorem Asks.looks {t : TreeRef} {α : Type} {p : FsProg α} (hp : Asks t p) : Looks p :=
  All.imp (fun _ => Sys.Asks.quiet) hp

theorem asks_walk1 (t : TreeRef) (pqid : Int64) (name : Bytes) (d : GefsXdir) :
    Asks t (gefsWalk1 t pqid name d) := by
  unfold gefsWalk1
  split
  · trivial
  · refine ⟨rfl, fun kv => ?_⟩
    rcases kv with _ | kv
    · trivial
    · exact (all_ofOption _).bind fun _ => trivial

theorem asks_walkElems (t : TreeRef) : ∀ (es : List Bytes) (q : UInt64) (d : GefsXdir),
    Asks t (walkElems t es q d)
  | [], _, _ => trivial
  | e :: es, q, d => by
    unfold walkElems
    split_ifs
    · exact asks_walkElems t es q d
    · refine (asks_walk1 t _ e d).bind fun r => ?_
      rcases r with ⟨_ | _, d'⟩
      · trivial
      · exact asks_walkElems t es _ d'

theorem asks_walkPath (t : TreeRef) (path : Bytes) (d : GefsXdir) :
    Asks t (gefsWalkPath t path d) := by
  unfold gefsWalkPath
  split_ifs
  · exact asks_walk1 t _ _ d
  · refine (asks_walk1 t _ _ d).bind fun r => ?_
    rcases r with ⟨_ | _, d'⟩
    · trivial
    · exact asks_walkElems t _ _ d'

theorem looks_walk1 (t : TreeRef) (pqid : Int64) (name : Bytes) (d : GefsXdir) :
    Looks (gefsWalk1 t pqid name d) := (asks_walk1 t pqid name d).looks

theorem looks_walkPath (t : TreeRef) (path : Bytes) (d : GefsXdir) :
    Looks (gefsWalkPath t path d) := (asks_walkPath t path d).looks

/-! ## What looking leaves -/

/-- `c` is `ctx` after calls that only look: both trees are leaves with the entries `es`, and the
allocator has what it had. -/
structure Looked (es : TreeRef → List GefsKvp) (ctx c : GefsCtx) : Prop where
  ok : CtxOk c
  holds : ∀ t, TreeHolds c (c.tree t) (es t)
  same : SameTrees ctx c
  alloc : canAlloc c = canAlloc ctx

section Looked

variable {es : TreeRef → List GefsKvp} {ctx c c' : GefsCtx}

theorem Looked.refl (hok : CtxOk ctx) (hh : ∀ t, TreeHolds ctx (ctx.tree t) (es t)) :
    Looked es ctx ctx :=
  ⟨hok, hh, .refl ctx, rfl⟩

theorem Looked.keeps (h : Looked es ctx c) (hk : Keeps c c') : Looked es ctx c' := by
  refine ⟨hk.ok, fun t => ?_, h.same.trans ⟨hk.activeTree, hk.snapTree, hk.disk⟩, ?_⟩
  · rw [hk.tree]
    exact (h.holds t).keeps hk
  · rw [← h.alloc, canAlloc, canAlloc, hk.nextAlloc]

/-- The counters of the superblock are not looked at. -/
theorem Looked.sb (h : Looked es ctx c) {sb : GefsSuper} (hn : sb.narena = c.sb.narena) :
    Looked es ctx { c with sb := sb } := by
  refine ⟨h.ok, fun t => ?_, h.same.trans ⟨rfl, rfl, rfl⟩, ?_⟩
  · have hh := h.holds t
    cases t <;> exact ⟨hh.ht, hh.root, hh.asc, hh.small⟩
  · rw [← h.alloc, canAlloc, canAlloc, @nextAlloc_of_narena c { c with sb := sb } rfl hn rfl]

theorem Looked.asks (h : Looked es ctx c) {t : TreeRef} {α : Type} {p : FsProg α} (hp : Asks t p)
    {a : α} (hr : run sysStep p c = some (a, c')) : Keeps c c' := by
  induction p generalizing c with
  | ret b =>
    obtain ⟨-, rfl⟩ := Prod.mk.inj (Option.some.inj hr)
    exact .refl h.ok
  | fault => cases hr
  | call p k ih =>
    obtain ⟨b, c1, hs, hr⟩ := run_call_eq_some hr
    have hk : Keeps c c1 := by
      cases p with
      | btlookup t' key =>
        obtain ⟨c2, hk, hc⟩ := step_btlookup h.ok (h.holds t') key
        obtain ⟨-, rfl⟩ := Prod.mk.inj (Option.some.inj (hc.symm.trans hs))
        exact hk
      | _ => exact hp.1.elim
    exact hk.trans (ih b (h.keeps hk) (hp.2 b) hr)

theorem Looked.vals (h : Looked es ctx c) (t : TreeRef) : c.vals t = es t :=
  vals_of_held h.ok (h.holds t).root

theorem Looked.spare (h : Looked es ctx c) (h0 : Looked es ctx ctx) {t : TreeRef}
    {ms : List GefsMsg} : Spare c t ms ↔ Spare ctx t ms := by
  unfold Spare
  rw [h.alloc, h.vals, h0.vals]

end Looked

/-! ## Names kept -/

section Kept

variable {n : Bytes} {ctx0 : GefsCtx}

theorem Sys.Quiet.kept {β : Type} {p : Sys β} (hp : p.Quiet) (ctx : GefsCtx) : p.Kept n ctx := by
  cases p with
  | btupsert t ms => exact hp.elim
  | writedat m => exact hp.elim
  | _ => trivial

theorem Sys.Quiet.not_made {β : Type} {p : Sys β} (hp : p.Quiet) (b : β) : ¬ p.Made b := by
  cases p with
  | btupsert t ms => exact hp.elim
  | _ => exact id

/-- A call that only looks can be passed. -/
theorem nameKept_call {β : Type} {p : Sys β} (hp : p.Quiet)
    {k : β → FsProg (Except Errno Unit)} {ctx ctx' : GefsCtx} {b : β}
    (h : sysStep p ctx = some (b, ctx')) :
    NameKept n ctx0 (.call p k) ctx ↔ NameKept n ctx0 (k b) ctx' := by
  constructor
  · rintro ⟨-, b', ctx1, hs, -, hk⟩
    obtain ⟨rfl, rfl⟩ := Prod.mk.inj (Option.some.inj (hs.symm.trans h))
    exact hk (hp.not_made b')
  · intro hk
    exact ⟨hp.kept ctx, b, ctx', h, fun hm => absurd hm (hp.not_made b), fun _ => hk⟩

/-- And so can a program that only looks. -/
theorem nameKept_bind {α : Type} {w : FsProg α} (hw : Looks w)
    {f : α → FsProg (Except Errno Unit)} {ctx ctx' : GefsCtx} {a : α}
    (h : run sysStep w ctx = some (a, ctx')) :
    NameKept n ctx0 (w >>= f) ctx ↔ NameKept n ctx0 (f a) ctx' := by
  induction w generalizing ctx with
  | ret b =>
    cases h
    rfl
  | fault => cases h
  | call p k ih =>
    obtain ⟨b, ctx1, hs, h⟩ := run_call_eq_some h
    rw [call_bind, nameKept_call hw.1 hs]
    exact ih b (hw.2 b) h

theorem nameKept_error {ctx : GefsCtx} (h : SameTrees ctx0 ctx) (e : Errno) :
    NameKept n ctx0 (.ret (.error e)) ctx := ⟨⟨e, rfl⟩, h⟩

end Kept

/-! ## Room -/

/-- The entries of the tree and those of the batch together fit a leaf. -/
theorem spare_of_room {ctx : GefsCtx} {t : TreeRef} {ms : List GefsMsg}
    (h : room (ctx.vals t) + room (ms.flatMap (putOf GefsMsg.k GefsMsg.eff)) ≤ gefsLeafspc) :
    Spare ctx t ms :=
  fun _ => fits_iff_room.2 ((room_merged_le _ _).trans h)

/-- An update has room for its batch, and a data block goes elsewhere than the root. -/
def Sys.Roomy : {β : Type} → Sys β → GefsCtx → Prop
  | _, .btupsert t ms, ctx => Spare ctx t ms
  | _, .writedat _, ctx => ∀ a as, nextAlloc ctx = some (a, as) → 0 ≤ a →
    a ≠ ctx.activeTree.bp.addr
  | _, _, _ => True

/-- The program finds room, wherever it looks for it. -/
abbrev Finds {α : Type} (p : FsProg α) (ctx : GefsCtx) : Prop :=
  Meets sysStep (fun q c => q.Roomy c) p ctx

/-- The tree `t` is one leaf with the entries `vs`, and its root is in the cache for good. -/
structure Rooted (t : TreeRef) (vs : List GefsKvp) (ctx : GefsCtx) : Prop where
  ok : CtxOk ctx
  ht : (ctx.tree t).ht = 1
  asc : Ascending vs
  root : Pinned ctx (ctx.tree t).bp.addr (IsLeaf vs)

/-- Under `k` there is a value that a look-up can copy. -/
def KeptAt (vs : List GefsKvp) (k : Bytes) : Prop :=
  ∃ v, look vs k = some v ∧ k.length + v.length ≤ gefsKvmax

/-- The calls made once a name is in the tree `t`: an update of one entry under no other name than
`n`, and those that change no tree. -/
def Sys.Adds (n : Bytes) (t : TreeRef) : {β : Type} → Sys β → Prop
  | _, .btupsert t' ms => t' = t ∧ (∃ m, ms = [m] ∧ m.op = .oinsert
    ∧ m.k.length + m.v.length ≤ gefsKvmax) ∧ KeysNamed n ms
  | _, .btlookup t' _ => t' = t
  | _, .writedat _ => t = .active
  | _, .btscan _ _ _ => False
  | _, .mount _ => False
  | _, _ => True

section Room

variable {n : Bytes} {t : TreeRef} {vs : List GefsKvp} {ctx ctx' : GefsCtx}

theorem Rooted.keeps (h : Rooted t vs ctx) (hk : Keeps ctx ctx') : Rooted t vs ctx' :=
  ⟨hk.ok, by rw [hk.tree]; exact h.ht, h.asc, by rw [hk.tree]; exact hk.pinned _ _ h.root⟩

/-- Only the cache and the tree count. -/
theorem Rooted.congr (h : Rooted t vs ctx) (hc : ctx'.cache = ctx.cache) (hn : ctx'.nblk = ctx.nblk)
    (ht : ctx'.tree t = ctx.tree t) : Rooted t vs ctx' := by
  obtain ⟨b, hb, hr⟩ := h.root
  refine ⟨?_, by rw [ht]; exact h.ht, h.asc, b, by rw [hc, ht]; exact hb, hr⟩
  show CacheOk ctx'.cache ctx'.nblk
  rw [hc, hn]
  exact h.ok

theorem portBatch_single {m : GefsMsg} (h : m.op = .oinsert) :
    PortBatch [m] ∧ Plain [m] := by
  refine ⟨⟨List.cons_ne_nil _ _, fun x hx => ?_, List.pairwise_singleton _ _⟩, fun x hx => ?_⟩ <;>
    rw [List.mem_singleton.1 hx, h]
  · exact .inl rfl
  · exact nofun

/-- An update that is made found room, so the tree is one leaf again. -/
theorem rooted_of_made (hok : CtxOk ctx) (hh : Held ctx (ctx.tree t).bp.addr (IsLeaf vs))
    (hs : Ascending vs) {ms : List GefsMsg} (hb : PortBatch ms) (hp : Plain ms)
    (hsp : Spare ctx t ms) (he : sysStep (.btupsert t ms) ctx = some (.ok (), ctx')) :
    Rooted t (merged vs ms) ctx' := by
  rcases btupsert_cases hok he with ⟨_, _, hr, -⟩ | ⟨-, hc⟩
  · cases hr
  · obtain ⟨bp, c, hu, hc'⟩ := upserted_of_fits hok hh hs hb hp hc (vals_of_held hok hh ▸ hsp hc)
    obtain ⟨-, rfl⟩ := Prod.mk.inj (Option.some.inj (hc'.symm.trans he))
    exact ⟨hu.ok, hu.tree_eq.2, ascending_merged hs hb.oneEach, by
      rw [hu.tree_eq.1]
      exact hu.root⟩

/-- A call after the first update is as it should be exactly if it finds room. -/
theorem Rooted.kept_iff (h : Rooted t vs ctx) {β : Type} {p : Sys β} (hp : p.Adds n t) :
    (p.Kept n ctx ∧ p.OnlyInserts) ↔ p.Roomy ctx := by
  cases p with
  | btupsert t' ms =>
    obtain ⟨rfl, ⟨m, rfl, hop, -⟩, hn⟩ := hp
    obtain ⟨hb, hpl⟩ := portBatch_single hop
    have hins : ∀ x ∈ [m], x.op = .oinsert := fun x hx => by rw [List.mem_singleton.1 hx, hop]
    have hiff := applied_iff h.ok (.inl h.root) h.asc hb hpl
    exact ⟨fun hk => hiff.1 hk.1.2, fun hsp => ⟨⟨hn, hiff.2 hsp⟩, hins⟩⟩
  | writedat m =>
    refine ⟨fun hk a as hal h0 => ?_, fun hr => ⟨fun bp c he => ?_, trivial⟩⟩ <;>
      rcases writedat_spec h.ok m with ⟨hn, hw⟩ | ⟨a', as', hn, hneg, hw⟩ | ⟨bp', c', hd, hw⟩
    · rw [hal] at hn
      cases hn
    · obtain ⟨rfl, -⟩ := Prod.mk.inj (Option.some.inj (hal.symm.trans hn))
      exact absurd hneg (Int64.not_lt.2 h0)
    · obtain ⟨rfl, -⟩ := Prod.mk.inj (Option.some.inj (hal.symm.trans hd.alloc))
      exact hk.1 bp' c' hw
    · cases (Prod.mk.inj (hw.symm.trans he)).1
    · cases (Prod.mk.inj (hw.symm.trans he)).1
    · obtain ⟨hbp, rfl⟩ := Prod.mk.inj (hw.symm.trans he)
      obtain rfl := Option.some.inj hbp
      exact hr _ _ hd.alloc (Int64.le_iff_toInt_le.2 hd.nonneg)
  | _ => exact iff_of_true ⟨trivial, trivial⟩ trivial

/-- An insertion removes no entry. -/
theorem KeptAt.insert {k : Bytes} (h : KeptAt vs k) (hs : Ascending vs) {m : GefsMsg}
    (hop : m.op = .oinsert) (hm : m.k.length + m.v.length ≤ gefsKvmax) :
    KeptAt (merged vs [m]) k := by
  obtain ⟨v, hv, hsz⟩ := h
  have hb := (portBatch_single hop).1
  by_cases hk : m.k = k
  · subst hk
    exact ⟨m.v, look_merged_insert hs hb List.mem_cons_self hop, hm⟩
  · refine ⟨v, ?_, hsz⟩
    rw [look_merged hs hb.oneEach, applyAll_of_ne (by simpa using hk)]
    exact hv

/-- And then the tree is one leaf still, with every entry it had. -/
theorem Rooted.step (h : Rooted t vs ctx) {β : Type} {p : Sys β} (hp : p.Adds n t)
    (hr : p.Roomy ctx) {b : β} (hs : sysStep p ctx = some (b, ctx')) :
    ∃ vs', Rooted t vs' ctx' ∧ ∀ k, KeptAt vs k → KeptAt vs' k := by
  cases p with
  | btupsert t' ms =>
    obtain ⟨rfl, ⟨m, rfl, hop, hm⟩, -⟩ := hp
    obtain ⟨hb, hpl⟩ := portBatch_single hop
    rcases btupsert_cases h.ok hs with ⟨-, c, -, hk, rfl | ⟨a, as, -, rfl⟩⟩ | ⟨rfl, -⟩
    · exact ⟨vs, h.keeps hk, fun _ => id⟩
    · exact ⟨vs, (h.keeps hk).congr rfl rfl (by cases t' <;> rfl), fun _ => id⟩
    · exact ⟨_, rooted_of_made h.ok (.inl h.root) h.asc hb hpl hr hs,
        fun k hk => hk.insert h.asc hop hm⟩
  | btlookup t' k =>
    obtain rfl := hp
    obtain ⟨c, hk, he⟩ := gefsBtlookup_leaf h.ok h.ht (.inl h.root) h.asc k gefsKvmax
    obtain ⟨r, -, hr⟩ := Option.map_eq_some_iff.1 (he.symm.trans hs)
    obtain ⟨-, rfl⟩ := Prod.mk.inj hr
    exact ⟨vs, h.keeps hk, fun _ => id⟩
  | writedat m =>
    obtain rfl := hp
    refine ⟨vs, ?_, fun _ => id⟩
    rcases writedat_spec h.ok m with ⟨-, hw⟩ | ⟨a, as, -, -, hw⟩ | ⟨bp, c, hd, hw⟩
    · obtain ⟨-, rfl⟩ := Prod.mk.inj (hw.symm.trans (Option.some.inj hs))
      exact h
    · obtain ⟨-, rfl⟩ := Prod.mk.inj (hw.symm.trans (Option.some.inj hs))
      exact h.congr rfl rfl rfl
    · obtain ⟨-, rfl⟩ := Prod.mk.inj (hw.symm.trans (Option.some.inj hs))
      have hne : ctx.activeTree.bp.addr ≠ bp.addr :=
        (hr _ _ hd.alloc (Int64.le_iff_toInt_le.2 hd.nonneg)).symm
      have ht : c.tree .active = ctx.tree .active := hd.active
      exact ⟨hd.ok, by rw [ht]; exact h.ht, h.asc, by rw [ht]; exact hd.pinned _ _ h.root hne⟩
  | getblk bp =>
    have hk := (touchBlk_spec h.ok bp).1
    have he : ctx' = (touchBlk ctx bp).2 := by
      simp only [sysStep] at hs
      unfold touchBlk
      generalize gefsGetblk ctx bp = g at hs
      rcases g with ⟨_ | _, c⟩
      · exact (Prod.mk.inj (Option.some.inj hs)).2.symm
      · exact (Prod.mk.inj (Option.some.inj hs)).2.symm
    rw [he]
    exact ⟨vs, h.keeps hk, fun _ => id⟩
  | btscan t' pfx stop => exact hp.elim
  | mount t' => exact hp.elim
  | putArena i =>
    obtain ⟨c, hc, he⟩ := Option.map_eq_some_iff.1 hs
    obtain ⟨-, rfl⟩ := Prod.mk.inj he
    unfold putArena at hc
    split at hc
    · cases hc
    · obtain rfl := Option.some.inj hc
      exact ⟨vs, h.congr rfl rfl (by cases t <;> rfl), fun _ => id⟩
  | putBackup =>
    obtain ⟨-, rfl⟩ := Prod.mk.inj (Option.some.inj hs)
    refine ⟨vs, ?_, fun _ => id⟩
    unfold putBackup
    split_ifs
    · exact h.congr rfl rfl (by cases t <;> rfl)
    · exact h
  | _ =>
    obtain ⟨-, rfl⟩ := Prod.mk.inj (Option.some.inj hs)
    exact ⟨vs, h.congr rfl rfl (by cases t <;> rfl), fun _ => id⟩

/-- What follows the first update is as it should be exactly if it finds room. -/
theorem Rooted.meets_iff (h : Rooted t vs ctx) {α : Type} {p : FsProg α}
    (hp : All (fun {_} q => Sys.Adds n t q) p) :
    Meets sysStep (fun q c => q.Kept n c ∧ q.OnlyInserts) p ctx ↔ Finds p ctx :=
  meets_congr (M := sysStep) (C := fun q c => q.Kept n c ∧ q.OnlyInserts)
    (D := fun q => Sys.Adds n t q) (I := fun c => ∃ vs, Rooted t vs c)
    (fun _ _ ⟨_, hi⟩ hd => hi.kept_iff hd)
    (fun _ _ _ _ ⟨_, hi⟩ hd hc hs => (hi.step hd ((hi.kept_iff hd).1 hc) hs).imp fun _ h => h.1)
    hp ⟨vs, h⟩

/-- And then it ends with every entry it had. -/
theorem Rooted.run {c : GefsCtx} (h : Rooted t vs ctx) {k : Bytes} (hk : KeptAt vs k) {α : Type}
    {p : FsProg α} {a : α} (hp : All (fun {_} q => Sys.Adds n t q) p) (hf : Finds p ctx)
    (hr : Calls.run sysStep p ctx = some (a, c)) : ∃ vs', Rooted t vs' c ∧ KeptAt vs' k := by
  have hmeets := (hp.meets (M := sysStep) ctx).and hf
  refine run_inv (M := sysStep) (I := fun c => ∃ vs', Rooted t vs' c ∧ KeptAt vs' k) ?_ ⟨vs, h, hk⟩
    hmeets hr
  rintro β q c b c' ⟨vs', hi, hk⟩ ⟨hd, hroom⟩ hs
  obtain ⟨vs'', hi', hkeep⟩ := hi.step hd hroom hs
  exact ⟨vs'', hi', hkeep k hk⟩

/-- An entry that stands is found. -/
theorem Rooted.answers (h : Rooted t vs ctx) {k : Bytes} (hk : KeptAt vs k) :
    ∃ v, (gefsBtlookup ctx (ctx.tree t) k gefsKvmax).map Prod.fst = some (some (k, v)) := by
  obtain ⟨v, hv, hsz⟩ := hk
  obtain ⟨c, -, he⟩ := gefsBtlookup_leaf h.ok h.ht (.inl h.root) h.asc k gefsKvmax
  refine ⟨v, ?_⟩
  rw [he, lookAns, hv]
  dsimp only
  rw [gefsCpkvp, if_pos hsz]
  rfl

theorem Sys.Quiet.roomy {β : Type} {p : Sys β} (hp : p.Quiet) (ctx : GefsCtx) : p.Roomy ctx := by
  cases p with
  | btupsert t ms => exact hp.elim
  | writedat m => exact hp.elim
  | _ => trivial

theorem finds_call {β : Type} {p : Sys β} (hp : p.Quiet) {α : Type} {k : β → FsProg α} {b : β}
    (hs : sysStep p ctx = some (b, ctx')) : Finds (.call p k) ctx ↔ Finds (k b) ctx' := by
  refine ⟨fun h => h.2 b ctx' hs, fun h => ⟨hp.roomy ctx, fun b' c hs' => ?_⟩⟩
  obtain ⟨rfl, rfl⟩ := Prod.mk.inj (Option.some.inj (hs.symm.trans hs'))
  exact h

theorem finds_bind {α β : Type} {w : FsProg α} (hw : Looks w) {f : α → FsProg β} {a : α}
    (hr : run sysStep w ctx = some (a, ctx')) : Finds (w >>= f) ctx ↔ Finds (f a) ctx' := by
  refine ⟨fun h => h.of_bind hr, fun h => Meets.bind ?_ fun a' c hr' => ?_⟩
  · exact meets_congr (I := fun _ => True) (C := fun _ _ => True)
      (fun _ c _ hq => iff_of_true trivial (Sys.Quiet.roomy hq c)) (fun _ _ _ _ _ _ _ _ => trivial)
      hw trivial |>.1 (meets_of_forall (fun _ _ => trivial) w ctx)
  · obtain ⟨rfl, rfl⟩ := Prod.mk.inj (Option.some.inj (hr.symm.trans hr'))
    exact h

variable {es : TreeRef → List GefsKvp} {c : GefsCtx}

/-- Where an operation comes to its first update, the name is kept exactly if the update finds room
and so does all that follows. -/
theorem nameKept_update (hr : Looked es ctx c) {ms : List GefsMsg} (hb : PortBatch ms)
    (hp : Plain ms) (hn : KeysNamed n ms) {m : GefsMsg} (hm : m ∈ ms) (hop : m.op = .oinsert)
    (hname : Names n m.k) (hsmall : m.k.length + m.v.length ≤ gefsKvmax)
    {k : Except Errno Unit → FsProg (Except Errno Unit)}
    (herr : ∀ e, k (.error e) = .ret (.error e))
    (hadds : All (fun {_} q => Sys.Adds n t q) (k (.ok ()))) :
    NameKept n ctx (.call (.btupsert t ms) k) c ↔ Finds (.call (.btupsert t ms) k) c := by
  have hh := (hr.holds t).root
  have hs := (hr.holds t).asc
  have hiff := applied_iff hr.ok hh hs hb hp
  constructor
  · rintro ⟨⟨-, happ⟩, b, c', hstep, hmade, -⟩
    have hsp := hiff.1 happ
    refine ⟨hsp, fun b' c'' hs' => ?_⟩
    obtain ⟨rfl, rfl⟩ := Prod.mk.inj (Option.some.inj (hstep.symm.trans hs'))
    rcases b with e | _
    · rw [herr]
      trivial
    · exact ((rooted_of_made hr.ok hh hs hb hp hsp hstep).meets_iff hadds).1 (hmade trivial).2.1
  · rintro ⟨hsp, hfinds⟩
    obtain ⟨r, c', he, happ⟩ := hiff.2 hsp
    refine ⟨⟨hn, r, c', he, happ⟩, r, c', he, fun hmade => ?_, fun hmade => ?_⟩
    · rcases r with e | _
      · exact hmade.elim
      have hroot := rooted_of_made hr.ok hh hs hb hp hsp he
      have hstands : KeptAt (merged (es t) ms) m.k :=
        ⟨m.v, look_merged_insert hs hb hm hop, hsmall⟩
      have hrest := hfinds _ _ he
      refine ⟨⟨m, hm, hop, hname, hroot.answers hstands⟩, (hroot.meets_iff hadds).2 hrest,
        fun c'' hrun => ?_⟩
      obtain ⟨vs', hroot', hk⟩ := hroot.run hstands hadds hrest hrun
      exact ⟨m, hm, hop, hname, hroot'.answers hk⟩
    · rcases r with e | _
      · rw [herr]
        exact nameKept_error (hr.same.trans (sameTrees_refused he)) e
      · exact absurd trivial hmade

end Room

/-! ## Keys -/

section Keys

theorem gefsPackdkey_none {up : Int64} {s : Bytes} (h : 244 < s.length) :
    gefsPackdkey gefsKeymax up (some s) = none := by
  have hlt : gefsKeymax - 9 < s.length + 3 := by
    rw [gefsKeymax]
    omega
  unfold gefsPackdkey gefsPackstr
  simp only [if_pos hlt, Option.map_none]

variable {n : CStr}

/-- A name of at most 244 bytes has a key, and is read from it again. -/
theorem gefsPackdkey_room {sz : ℕ} (hsz : 256 ≤ sz) (hn : n.bytes.length ≤ 244) (up : Int64) :
    ∃ k, gefsPackdkey sz up (some n.bytes) = some k ∧ k.length ≤ gefsKeymax ∧ Names n.bytes k := by
  have hk : gefsPackdkey sz up (some n.bytes) = some (pack8 gefsKent ++ pack64 up.toUInt64
      ++ (pack16 n.bytes.length ++ n.bytes ++ [0])) := by
    unfold gefsPackdkey gefsPackstr
    simp only [if_neg (show ¬ sz - 9 < n.bytes.length + 3 by omega), Option.map_some]
  refine ⟨_, hk, ?_, .inl ⟨up, gefsUnpackdkey_gefsPackdkey n.nonul (by omega) hk⟩⟩
  simp only [List.length_append, length_pack8, length_pack64, length_pack16, List.length_singleton]
  rw [gefsKeymax]
  omega

theorem keysNamed_cons {n : Bytes} {m : GefsMsg} {ms : List GefsMsg} :
    KeysNamed n (m :: ms) ↔ (m.op = .oinsert → m.k.length ≤ gefsKeymax
      ∧ (m.k.head? = some gefsKent ∨ m.k.head? = some gefsKlabel → Names n m.k))
      ∧ KeysNamed n ms := List.forall_mem_cons

theorem keysNamed_nil (n : Bytes) : KeysNamed n [] := fun m hm => absurd hm (by simp)

/-- The path of an entry's directory, and its last component. -/
theorem splitPath_entryPath {dir n : Bytes} (hn : slash ∉ n) : splitPath (entryPath dir n)
    = some (if dir = [] then [slash] else dir.take 1023, n.take 255) := by
  have hlen : ((entryPath dir n).reverse.takeWhile (· ≠ slash)).length = n.length := by
    unfold entryPath
    rw [List.reverse_append, List.reverse_cons, List.append_assoc, List.takeWhile_append_of_pos]
    · simp
    · intro b hb
      rw [List.mem_reverse] at hb
      simpa using fun h : b = slash => hn (h ▸ hb)
  have hi : (entryPath dir n).length - n.length - 1 = dir.length := by
    unfold entryPath
    rw [List.length_append, List.length_cons]
    omega
  have hdrop : (entryPath dir n).drop (dir.length + 1) = n := by
    unfold entryPath
    rw [List.drop_append, List.drop_of_length_le (by omega)]
    simp
  have htake : (entryPath dir n).take dir.length = dir := by simp [entryPath]
  unfold splitPath
  dsimp only
  rw [if_neg (show ¬ slash ∉ entryPath dir n from fun h => h (by simp [entryPath])), hlen, hi,
    hdrop, htake]
  by_cases h0 : dir = []
  · subst h0
    rw [List.length_nil, if_pos rfl, if_pos rfl]
    exact congrArg (fun s => some ([slash], List.take 255 s)) hdrop
  · rw [if_neg (fun h => h0 (List.length_eq_zero_iff.1 h)), if_neg h0]

end Keys

/-! ## The operations -/

section Ops

variable {n : CStr} {es : TreeRef → List GefsKvp} {ctx c ctx1 : GefsCtx}
  {r : Except Errno NamePlace}

theorem take_of_room (hn : n.bytes.length ≤ 244) : n.bytes.take 255 = n.bytes :=
  List.take_of_length_le (by omega)

theorem lt_length_take {n : Bytes} (hn : 244 < n.length) : 244 < (n.take 255).length := by
  rw [List.length_take]
  omega

theorem insertEntry_fault {s : Bytes} (hs : 244 < s.length) (pq : UInt64) (d : GefsXdir) :
    insertEntry pq s d = .fault := by
  unfold insertEntry
  rw [gefsPackdkey_none hs]
  rfl

/-- A key of an entry with a value of one. -/
theorem small_entry {k v : Bytes} {d : GefsXdir} (hk : k.length ≤ gefsKeymax)
    (hv : gefsPackdval gefsInlmax d = some v) : k.length + v.length ≤ gefsKvmax := by
  have hlen := length_gefsPackdval hv
  have h1 : gefsKvmax = gefsKeymax + gefsInlmax := rfl
  have h2 : xdirsz ≤ gefsInlmax := by decide
  omega

theorem keysNamed_entry {k v : Bytes} (hk : k.length ≤ gefsKeymax) (hname : Names n.bytes k) :
    KeysNamed n.bytes [⟨.oinsert, k, v, []⟩] :=
  keysNamed_cons.2 ⟨fun _ => ⟨hk, fun _ => hname⟩, keysNamed_nil _⟩

/-- A key of another kind has no name in it. -/
theorem keysNamed_other {b : UInt8} {k v : Bytes} (hlen : (b :: k).length ≤ gefsKeymax)
    (h1 : b ≠ gefsKent) (h2 : b ≠ gefsKlabel) :
    KeysNamed n.bytes [⟨.oinsert, b :: k, v, []⟩] := by
  refine keysNamed_cons.2 ⟨fun _ => ⟨hlen, ?_⟩, keysNamed_nil _⟩
  rintro (h | h)
  · exact absurd (Option.some.inj h) h1
  · exact absurd (Option.some.inj h) h2

/-- An entry's key, and the update under it. -/
theorem insertEntry_eq (hn : n.bytes.length ≤ 244) (pq : UInt64) (d : GefsXdir) :
    ∃ k v, gefsPackdkey gefsKeymax pq.toInt64 (some n.bytes) = some k
      ∧ gefsPackdval gefsInlmax d = some v
      ∧ insertEntry pq n.bytes d = .one (.btupsert .active [⟨.oinsert, k, v, []⟩])
      ∧ k.length ≤ gefsKeymax ∧ Names n.bytes k := by
  obtain ⟨k, hk, hlen, hnames⟩ :=
    gefsPackdkey_room (show 256 ≤ gefsKeymax from le_rfl) hn pq.toInt64
  obtain ⟨v, hv⟩ := @gefsPackdval_isSome gefsInlmax (by decide) d
  refine ⟨k, v, hk, hv, ?_, hlen, hnames⟩
  unfold insertEntry
  rw [hk, hv]
  rfl

theorem finds_single {t : TreeRef} {ms : List GefsMsg} :
    Finds (.one (.btupsert t ms)) c ↔ Spare c t ms :=
  ⟨fun h => h.1, fun h => ⟨h, fun _ _ _ => trivial⟩⟩

theorem adds_insertEntry (hn : n.bytes.length ≤ 244) (pq : UInt64) (d : GefsXdir) :
    All (fun {_} q => Sys.Adds n.bytes .active q) (insertEntry pq n.bytes d) := by
  obtain ⟨k, v, -, hv, he, hlen, hnames⟩ := insertEntry_eq hn pq d
  rw [he]
  exact ⟨⟨rfl, ⟨_, rfl, rfl, small_entry hlen hv⟩, keysNamed_entry hlen hnames⟩, fun _ => trivial⟩

theorem nameKept_insertEntry (hn : n.bytes.length ≤ 244) (hr : Looked es ctx c) (pq : UInt64)
    (d : GefsXdir) {k : Except Errno Unit → FsProg (Except Errno Unit)}
    (herr : ∀ e, k (.error e) = .ret (.error e))
    (hadds : All (fun {_} q => Sys.Adds n.bytes .active q) (k (.ok ()))) :
    NameKept n.bytes ctx (insertEntry pq n.bytes d >>= k) c
      ↔ Finds (insertEntry pq n.bytes d >>= k) c := by
  obtain ⟨key, v, -, hv, he, hlen, hnames⟩ := insertEntry_eq hn pq d
  obtain ⟨hb, hp⟩ := @portBatch_single ⟨.oinsert, key, v, []⟩ rfl
  rw [he]
  exact nameKept_update hr hb hp (keysNamed_entry hlen hnames) List.mem_cons_self rfl hnames
    (small_entry hlen hv) herr hadds

/-- A new entry in a directory, as `f` makes it, where there is none of its name. -/
def freshThen (path : Bytes) (f : UInt64 → UInt64 → Bytes → FsProg (Except Errno Unit)) :
    FsProg (Except Errno Unit) :=
  match splitPath path with
  | none => .ret (.error .einval)
  | some (parent, name) => do
    match ← gefsWalkPath .active parent zeroXdir with
    | (.error e, _) => .ret (.error e)
    | (.ok _, pdir) => do
      match ← gefsWalk1 .active pdir.qid.path.toInt64 name zeroXdir with
      | (.ok _, _) => .ret (.error .eexist)
      | (.error _, _) => do
        let q ← .one .nextqid
        f pdir.qid.path q name

theorem nameKept_fresh {dir : Bytes} (hs : slash ∉ n.bytes) (hr : Looked es ctx ctx)
    {f : UInt64 → UInt64 → Bytes → FsProg (Except Errno Unit)} {R : NamePlace → Prop}
    (hw : run sysStep (walkFresh (entryPath dir n.bytes)) ctx = some (r, ctx1))
    (hfault : 244 < n.bytes.length → ∀ pq q, f pq q (n.bytes.take 255) = .fault)
    (hkept : n.bytes.length ≤ 244 → ∀ p c, Looked es ctx c →
      (NameKept n.bytes ctx (f p.dir ctx.sb.nextqid n.bytes) c ↔ R p)) :
    NameKept n.bytes ctx (freshThen (entryPath dir n.bytes) f) ctx
      ↔ ∀ p, r = .ok p → n.bytes.length ≤ 244 ∧ R p := by
  have hsplit := @splitPath_entryPath dir _ hs
  unfold walkFresh at hw
  unfold freshThen
  rw [hsplit] at hw ⊢
  dsimp only at hw ⊢
  obtain ⟨⟨r1, pdir⟩, c1, h1, hw⟩ := run_bind_eq_some hw
  have hk1 := hr.asks (asks_walkPath _ _ _) h1
  have hr1 := hr.keeps hk1
  rw [nameKept_bind (looks_walkPath _ _ _) h1]
  rcases r1 with e | _
  · cases hw
    exact iff_of_true (nameKept_error hr1.same e) (by simp)
  · obtain ⟨⟨r2, d⟩, c2, h2, hw⟩ := run_bind_eq_some hw
    have hk2 := hk1.trans (hr1.asks (asks_walk1 _ _ _ _) h2)
    have hr2 := hr.keeps hk2
    rw [nameKept_bind (looks_walk1 _ _ _ _) h2]
    rcases r2 with e | _
    · cases hw
      have hq : sysStep .nextqid ctx1 = some (ctx.sb.nextqid,
          { ctx1 with sb := { ctx1.sb with nextqid := ctx1.sb.nextqid + 1 } }) := by
        rw [← hk2.sb]
        rfl
      dsimp only
      rw [one_bind, nameKept_call (p := .nextqid) trivial hq]
      have hiff : (∀ p, (.ok ⟨pdir.qid.path, 0, zeroXdir⟩ : Except Errno NamePlace) = .ok p →
          n.bytes.length ≤ 244 ∧ R p)
          ↔ n.bytes.length ≤ 244 ∧ R ⟨pdir.qid.path, 0, zeroXdir⟩ :=
        ⟨fun h => h _ rfl, fun h p hp => Except.ok.inj hp ▸ h⟩
      rw [hiff]
      rcases Nat.lt_or_ge 244 n.bytes.length with hlt | hle
      · rw [hfault hlt]
        exact iff_of_false id fun h => absurd h.1 (by omega)
      · have hr3 : Looked es ctx
            { ctx1 with sb := { ctx1.sb with nextqid := ctx1.sb.nextqid + 1 } } := hr2.sb rfl
        rw [take_of_room hle, and_iff_right hle]
        exact hkept hle ⟨pdir.qid.path, 0, zeroXdir⟩ _ hr3
    · cases hw
      exact iff_of_true (nameKept_error hr2.same _) (by simp)

/-- There is room for what the operation stores: in the state before for an operation of one update,
and for a link and a label, which update more than once, whenever room is looked for. -/
def NameOp.Room (dir n : Bytes) (ctx : GefsCtx) (p : NamePlace) : NameOp → Prop
  | .createSymlink c target => Finds (gefsCreateSymlink c target (entryPath dir n)) ctx
  | .createSnapshot flag => Finds (gefsCreateSnapshot n flag) ctx
  | op => ∀ ms, op.batch n ctx.sb.nextqid p = some ms → Spare ctx .active ms

theorem nameKept_createFile {dir : Bytes} (hs : slash ∉ n.bytes) (hr : Looked es ctx ctx)
    (hw : run sysStep (walkFresh (entryPath dir n.bytes)) ctx = some (r, ctx1)) (c : Caller)
    (mode : UInt32) :
    NameKept n.bytes ctx (gefsCreateFile c (entryPath dir n.bytes) mode) ctx
      ↔ ∀ p, r = .ok p → n.bytes.length ≤ 244
        ∧ (NameOp.createFile c mode).Room dir n.bytes ctx p := by
  let f pq q name := insertEntry pq name (newEntry c q gefsQtfile (mode &&& 0o777) name)
  have he : gefsCreateFile c (entryPath dir n.bytes) mode
      = freshThen (entryPath dir n.bytes) f := rfl
  rw [he]
  refine nameKept_fresh hs hr hw (fun hlt pq q => insertEntry_fault (lt_length_take hlt) pq _) ?_
  intro hn p c' hr'
  obtain ⟨k, v, hk, hv, hins, -, -⟩ :=
    insertEntry_eq hn p.dir (newEntry c ctx.sb.nextqid gefsQtfile (mode &&& 0o777) n.bytes)
  have hkept := @nameKept_insertEntry _ _ _ _ hn hr' p.dir
    (newEntry c ctx.sb.nextqid gefsQtfile (mode &&& 0o777) n.bytes) .ret (fun _ => rfl) trivial
  rw [bind_ret, hins, finds_single, hr'.spare hr, ← hins] at hkept
  refine hkept.trans ?_
  simp only [NameOp.Room, NameOp.batch, hk, hv, Option.bind_eq_bind, Option.bind_some,
    Option.some.injEq, forall_eq']

theorem nameKept_createDir {dir : Bytes} (hs : slash ∉ n.bytes) (hr : Looked es ctx ctx)
    (hw : run sysStep (walkFresh (entryPath dir n.bytes)) ctx = some (r, ctx1)) (c : Caller)
    (mode : UInt32) :
    NameKept n.bytes ctx (gefsCreateDir c (entryPath dir n.bytes) mode) ctx
      ↔ ∀ p, r = .ok p → n.bytes.length ≤ 244
        ∧ (NameOp.createDir c mode).Room dir n.bytes ctx p := by
  let f (pq q : UInt64) (name : Bytes) : FsProg (Except Errno Unit) := do
    let d := newEntry c q gefsQtdir (gefsDmdir ||| (mode &&& 0o777)) name
    let k ← Prog.ofOption (gefsPackdkey gefsKeymax pq.toInt64 (some name))
    let v ← Prog.ofOption (gefsPackdval gefsInlmax d)
    let up ← Prog.ofOption (gefsPackdkey gefsInlmax pq.toInt64 (some name))
    .one (.btupsert .active [⟨.oinsert, k, v, []⟩, ⟨.oinsert, packupkey q, up, []⟩])
  have he : gefsCreateDir c (entryPath dir n.bytes) mode
      = freshThen (entryPath dir n.bytes) f := rfl
  rw [he]
  refine nameKept_fresh hs hr hw (fun hlt pq q => ?_) fun hn p c' hr' => ?_
  · unfold f
    rw [gefsPackdkey_none (lt_length_take hlt)]
    rfl
  · obtain ⟨k, hk, hlen, hnames⟩ :=
      gefsPackdkey_room (show 256 ≤ gefsKeymax from le_rfl) hn p.dir.toInt64
    obtain ⟨v, hv⟩ := @gefsPackdval_isSome gefsInlmax (by decide)
      (newEntry c ctx.sb.nextqid gefsQtdir (gefsDmdir ||| (mode &&& 0o777)) n.bytes)
    obtain ⟨up, hup, -⟩ := gefsPackdkey_room (show 256 ≤ gefsInlmax by decide) hn p.dir.toInt64
    have hne : k ≠ packupkey ctx.sb.nextqid := by
      obtain ⟨-, rfl⟩ := gefsPackdkey_eq_some.1 hk
      exact fun h => absurd (List.cons.inj h).1 (by decide)
    have hb : PortBatch [⟨.oinsert, k, v, []⟩, ⟨.oinsert, packupkey ctx.sb.nextqid, up, []⟩] :=
      ⟨List.cons_ne_nil _ _, by simp, by simpa using fun h => absurd h hne⟩
    have hp : Plain [⟨.oinsert, k, v, []⟩, ⟨.oinsert, packupkey ctx.sb.nextqid, up, []⟩] := by
      simp [Plain]
    have hn : KeysNamed n.bytes
        [⟨.oinsert, k, v, []⟩, ⟨.oinsert, packupkey ctx.sb.nextqid, up, []⟩] :=
      keysNamed_cons.2 ⟨fun _ => ⟨hlen, fun _ => hnames⟩,
        keysNamed_other (by simp [pack64, gefsKeymax]) (by decide) (by decide)⟩
    have hkept := nameKept_update hr' hb hp hn List.mem_cons_self rfl hnames (small_entry hlen hv)
      (fun _ => rfl) (t := .active) (k := .ret) trivial
    unfold f
    dsimp only
    rw [hk, hv, hup]
    refine (hkept.trans finds_single).trans ?_
    simp only [NameOp.Room, NameOp.batch, hk, hv, hup, Option.bind_eq_bind, Option.bind_some,
      Option.some.injEq, forall_eq', hr'.spare hr]

/-- The blocks of a file are under keys with no name in them. -/
theorem adds_writeLoop (q : UInt64) : ∀ (fuel : ℕ) (buf : Bytes) (off : UInt64),
    All (fun {_} p => Sys.Adds n.bytes .active p) (writeLoop q fuel buf off)
  | 0, _, _ => trivial
  | fuel + 1, buf, off => by
    unfold writeLoop
    split_ifs
    · trivial
    · refine ⟨rfl, fun old => ?_⟩
      have hold : All (fun {_} p => Sys.Adds n.bytes .active p) (oldBlock old) := by
        unfold oldBlock
        split
        · trivial
        · refine (all_ofOption _).bind fun bp => ⟨trivial, fun b => ?_⟩
          rcases b with _ | b <;> trivial
      refine hold.bind fun m => ⟨rfl, fun bp => ?_⟩
      rcases bp with _ | bp
      · trivial
      · refine ⟨⟨rfl, ⟨_, rfl, rfl, ?_⟩, keysNamed_other ?_ (by decide) (by decide)⟩, fun _ =>
          adds_writeLoop q fuel _ _⟩
        · simp [packdatkey, gefsPackbp, gefsKvmax, gefsKeymax, gefsInlmax]
        · simp [pack64, gefsKeymax]

theorem Asks.adds {t : TreeRef} {α : Type} {p : FsProg α} (hp : Asks t p) :
    All (fun {_} q => Sys.Adds n.bytes t q) p :=
  All.imp (fun q hq => by
    cases q with
    | btlookup t' k => exact hq
    | _ => exact hq.elim) hp

theorem adds_writeFile {dir : Bytes} (hs : slash ∉ n.bytes) (hn : n.bytes.length ≤ 244)
    (buf : Bytes) (offset now : Int64) : All (fun {_} q => Sys.Adds n.bytes .active q)
      (gefsWriteFile (entryPath dir n.bytes) buf offset now) := by
  have hsplit := @splitPath_entryPath dir _ hs
  rw [take_of_room hn] at hsplit
  unfold gefsWriteFile
  refine (asks_walkPath _ _ _).adds.bind ?_
  rintro ⟨_ | _, d⟩
  · trivial
  · dsimp only
    rw [hsplit]
    refine (asks_walkPath _ _ _).adds.bind ?_
    rintro ⟨_ | _, pdir⟩
    · trivial
    · refine (adds_writeLoop _ _ _ _).bind ?_
      rintro (_ | off)
      · trivial
      · refine (asks_walkPath _ _ _).adds.bind fun w => ?_
        refine (asks_walk1 _ _ _ _).adds.bind fun w1 => ?_
        exact (adds_insertEntry hn _ _).bind fun _ => trivial

theorem nameKept_createSymlink {dir : Bytes} (hs : slash ∉ n.bytes) (hr : Looked es ctx ctx)
    (hw : run sysStep (walkDir (entryPath dir n.bytes)) ctx = some (r, ctx1)) (c : Caller)
    (target : Bytes) :
    NameKept n.bytes ctx (gefsCreateSymlink c target (entryPath dir n.bytes)) ctx
      ↔ ∀ p, r = .ok p → n.bytes.length ≤ 244
        ∧ (NameOp.createSymlink c target).Room dir n.bytes ctx p := by
  have hsplit := @splitPath_entryPath dir _ hs
  unfold walkDir at hw
  unfold NameOp.Room
  dsimp only
  unfold gefsCreateSymlink
  rw [hsplit] at hw ⊢
  dsimp only at hw ⊢
  obtain ⟨⟨r1, pdir⟩, c1, h1, hw⟩ := run_bind_eq_some hw
  have hk1 := hr.asks (asks_walkPath _ _ _) h1
  have hr1 := hr.keeps hk1
  rw [nameKept_bind (looks_walkPath _ _ _) h1, finds_bind (looks_walkPath _ _ _) h1]
  rcases r1 with e | _
  · cases hw
    exact iff_of_true (nameKept_error hr1.same e) (by simp)
  · cases hw
    have hq : sysStep .nextqid ctx1 = some (ctx1.sb.nextqid,
        { ctx1 with sb := { ctx1.sb with nextqid := ctx1.sb.nextqid + 1 } }) := rfl
    have hr2 : Looked es ctx
        { ctx1 with sb := { ctx1.sb with nextqid := ctx1.sb.nextqid + 1 } } := hr1.sb rfl
    simp only [Except.ok.injEq, forall_eq']
    rw [one_bind, nameKept_call (p := .nextqid) trivial hq,
      finds_call (p := .nextqid) trivial hq]
    rcases Nat.lt_or_ge 244 n.bytes.length with hlt | hle
    · rw [insertEntry_fault (lt_length_take hlt)]
      exact iff_of_false id fun h => absurd h.1 (by omega)
    · rw [take_of_room hle, and_iff_right hle]
      refine nameKept_insertEntry hle hr2 _ _ (fun _ => rfl) ?_
      refine (adds_writeFile hs hle _ _ _).bind fun w => ?_
      rcases w with _ | _
      · trivial
      · refine (asks_walkPath _ _ _).adds.bind fun w => ?_
        exact (asks_walk1 _ _ _ _).adds.bind fun w1 => adds_insertEntry hle _ _

theorem nameKept_renameEntry {dir oldpath : Bytes} (hs : slash ∉ n.bytes) (hr : Looked es ctx ctx)
    (hw : run sysStep (walkRename oldpath (entryPath dir n.bytes)) ctx = some (r, ctx1)) :
    NameKept n.bytes ctx (gefsRenameEntry oldpath (entryPath dir n.bytes)) ctx
      ↔ ∀ p, r = .ok p → (NameOp.renameEntry oldpath).Fits n.bytes
        ∧ (NameOp.renameEntry oldpath).Room dir n.bytes ctx p := by
  have hsplit := @splitPath_entryPath dir _ hs
  unfold walkRename at hw
  unfold gefsRenameEntry
  obtain ⟨⟨r1, d⟩, c1, h1, hw⟩ := run_bind_eq_some hw
  have hk1 := hr.asks (asks_walkPath _ _ _) h1
  have hr1 := hr.keeps hk1
  rw [nameKept_bind (looks_walkPath _ _ _) h1]
  rcases r1 with e | _
  · cases hw
    exact iff_of_true (nameKept_error hr1.same e) (by simp)
  dsimp only at hw ⊢
  rw [hsplit] at hw ⊢
  rcases hold : splitPath oldpath with _ | ⟨oldParent, oldName⟩
  · rw [hold] at hw
    cases hw
    exact iff_of_true (nameKept_error hr1.same _) (by simp)
  rw [hold] at hw
  dsimp only at hw ⊢
  obtain ⟨⟨r2, oldPdir⟩, c2, h2, hw⟩ := run_bind_eq_some hw
  have hk2 := hk1.trans (hr1.asks (asks_walkPath _ _ _) h2)
  have hr2 := hr.keeps hk2
  rw [nameKept_bind (looks_walkPath _ _ _) h2]
  rcases r2 with e | _
  · cases hw
    exact iff_of_true (nameKept_error hr2.same e) (by simp)
  dsimp only at hw ⊢
  obtain ⟨⟨r3, newPdir⟩, c3, h3, hw⟩ := run_bind_eq_some hw
  have hr3 := hr.keeps (hk2.trans (hr2.asks (asks_walkPath _ _ _) h3))
  rw [nameKept_bind (looks_walkPath _ _ _) h3]
  rcases r3 with e | _
  · cases hw
    exact iff_of_true (nameKept_error hr3.same e) (by simp)
  cases hw
  have hfits : (NameOp.renameEntry oldpath).Fits n.bytes
      ↔ n.bytes.length ≤ 244 ∧ oldName.length ≤ 244 := by
    unfold NameOp.Fits
    simp only [hold, Option.some.injEq, Prod.mk.injEq, and_imp]
    exact and_congr_right fun _ => ⟨fun h => h _ _ rfl rfl, fun h p name _ hn => hn ▸ h⟩
  simp only [Except.ok.injEq, forall_eq']
  rw [hfits]
  rcases Nat.lt_or_ge 244 oldName.length with hlt | hname
  · rw [gefsPackdkey_none hlt]
    exact iff_of_false id fun h => absurd h.1.2 (by omega)
  obtain ⟨kd, hkd⟩ : ∃ kd, gefsPackdkey gefsKeymax oldPdir.qid.path.toInt64 (some oldName)
      = some kd := by
    refine ⟨_, gefsPackdkey_eq_some.2 ⟨?_, rfl⟩⟩
    rw [gefsKeymax]
    omega
  rw [hkd]
  rcases Nat.lt_or_ge 244 n.bytes.length with hlt | hn
  · rw [gefsPackdkey_none (lt_length_take hlt)]
    exact iff_of_false id fun h => absurd h.1.1 (by omega)
  obtain ⟨k, hk, hlen, hnames⟩ :=
    gefsPackdkey_room (show 256 ≤ gefsKeymax from le_rfl) hn newPdir.qid.path.toInt64
  obtain ⟨v, hv⟩ := @gefsPackdval_isSome gefsInlmax (by decide)
    { d with qid := { d.qid with vers := d.qid.vers + 1 }, name := some n.bytes }
  rw [take_of_room hn, hk, hv, and_iff_right ⟨hn, hname⟩]
  have hb : PortBatch [⟨.odelete, kd, [], []⟩, ⟨.oinsert, k, v, []⟩] :=
    ⟨List.cons_ne_nil _ _, by simp, by simp⟩
  have hp : Plain [⟨.odelete, kd, [], []⟩, ⟨.oinsert, k, v, []⟩] := by simp [Plain]
  have hkn : KeysNamed n.bytes [⟨.odelete, kd, [], []⟩, ⟨.oinsert, k, v, []⟩] :=
    keysNamed_cons.2 ⟨fun h => absurd h (by simp), keysNamed_entry hlen hnames⟩
  have hkept := nameKept_update hr3 hb hp hkn (List.mem_cons_of_mem _ List.mem_cons_self) rfl hnames
    (small_entry hlen hv) (fun _ => rfl) (t := .active) (k := .ret) trivial
  refine (hkept.trans finds_single).trans ?_
  simp only [NameOp.Room, NameOp.batch, hold, hkd, hk, hv, Option.bind_eq_bind, Option.bind_some,
    Option.some.injEq, forall_eq', hr3.spare hr]

theorem adds_syncFs (m : Bytes) : All (fun {_} q => Sys.Adds m .snap q) gefsSyncFs := by
  have hputs : ∀ k i, All (fun {_} q => Sys.Adds m .snap q) (putArenas i k) := by
    intro k
    induction k with
    | zero => exact fun _ => trivial
    | succ k ih => exact fun i => ⟨trivial, fun _ => ih (i + 1)⟩
  unfold gefsSyncFs
  simp only [one_bind]
  refine ⟨trivial, fun ro => ⟨trivial, fun dirty => ?_⟩⟩
  dsimp only
  split_ifs
  · trivial
  · refine ⟨trivial, fun t => ⟨⟨rfl, ⟨_, rfl, rfl, ?_⟩, ?_⟩, fun _ => ⟨trivial, fun k => ?_⟩⟩⟩
    · simp [gefsPacksnap, gefsKvmax, gefsKeymax, gefsInlmax]
    · refine keysNamed_cons.2 ⟨fun _ => ⟨by simp [gefsPacksnap, gefsKeymax], ?_⟩, keysNamed_nil _⟩
      rintro (h | h) <;> exact absurd h (by simp [gefsPacksnap, gefsKsnap, gefsKent, gefsKlabel])
    · exact (hputs k 0).bind fun _ => ⟨trivial, fun _ => ⟨trivial, fun _ => ⟨trivial, fun _ =>
        trivial⟩⟩⟩

theorem nameKept_createSnapshot (hr : Looked es ctx ctx)
    (hw : run sysStep checkWritable ctx = some (r, ctx1)) (dir : Bytes) (flag : Bool) :
    NameKept n.bytes ctx (gefsCreateSnapshot n.bytes flag) ctx
      ↔ ∀ p, r = .ok p → n.bytes.length ≤ 255
        ∧ (NameOp.createSnapshot flag).Room dir n.bytes ctx p := by
  have hro : sysStep .readonly ctx = some (ctx.readonly, ctx) := rfl
  unfold checkWritable at hw
  unfold NameOp.Room
  dsimp only
  unfold gefsCreateSnapshot
  rw [one_bind, run_call _ hro] at hw
  rw [one_bind, nameKept_call (p := .readonly) trivial hro, finds_call (p := .readonly) trivial hro]
  by_cases h : ctx.readonly = true
  · rw [if_pos h] at hw ⊢
    cases hw
    exact iff_of_true (nameKept_error (.refl _) _) (by simp)
  · rw [if_neg h] at hw ⊢
    cases hw
    have hgen : sysStep .nextgen ctx
        = some (ctx.sb.nextgen, { ctx with sb := { ctx.sb with nextgen := ctx.sb.nextgen + 1 } }) :=
      rfl
    have hr1 : Looked es ctx { ctx with sb := { ctx.sb with nextgen := ctx.sb.nextgen + 1 } } :=
      hr.sb rfl
    have htree : ∀ c, sysStep (.tree .active) c = some (c.activeTree, c) := fun _ => rfl
    simp only [Except.ok.injEq, forall_eq', one_bind]
    rw [nameKept_call (p := .nextgen) trivial hgen, nameKept_call (p := .tree .active) trivial
      (htree _), finds_call (p := .nextgen) trivial hgen, finds_call (p := .tree .active) trivial
      (htree _)]
    rcases Nat.lt_or_ge 255 n.bytes.length with hlt | hle
    · have hnone : gefsPacklbl gefsKeymax n.bytes = none := if_pos (by rw [gefsKeymax]; omega)
      rw [hnone]
      exact iff_of_false id fun h => absurd h.1 (by omega)
    · have hk : gefsPacklbl gefsKeymax n.bytes = some (gefsKlabel :: n.bytes) :=
        if_neg (by rw [gefsKeymax]; omega)
      rw [hk, and_iff_right hle]
      refine nameKept_update hr1 ⟨List.cons_ne_nil _ _, by simp, ?_⟩ (by simp [Plain]) ?_
        List.mem_cons_self rfl (.inr rfl) ?_ (fun _ => rfl) ?_
      · simpa using fun h => absurd h (lbl_ne_snap _ _)
      · refine keysNamed_cons.2 ⟨fun _ => ⟨?_, fun _ => .inr rfl⟩,
          keysNamed_other (by simp [gefsKeymax]) (by decide) (by decide)⟩
        rw [List.length_cons, gefsKeymax]
        omega
      · simp only [List.length_cons, length_packlblval, gefsKvmax, gefsKeymax, gefsInlmax]
        omega
      · exact (adds_syncFs _).bind fun _ => trivial

end Ops

/-- On trees of one leaf, for an operation whose walks come back: a name of any length is stored
faithfully, and is in the tree afterwards, or refused with the trees as they were, if and only if,
whenever the operation gets as far as to store it, its keys have room for it and the leaf for
them. -/
theorem nameKept_iff (op : NameOp) {dir : Bytes} {n : CStr} (hs : slash ∉ n.bytes)
    {es : TreeRef → List GefsKvp} {ctx ctx1 : GefsCtx} {r : Except Errno NamePlace}
    (hok : CtxOk ctx) (hh : ∀ t, TreeHolds ctx (ctx.tree t) (es t))
    (hw : run sysStep (op.walks dir n.bytes) ctx = some (r, ctx1)) :
    NameKept n.bytes ctx (op.prog dir n.bytes) ctx
      ↔ ∀ p, r = .ok p → op.Fits n.bytes ∧ op.Room dir n.bytes ctx p := by
  have hr := Looked.refl hok hh
  cases op with
  | createFile c mode => exact nameKept_createFile hs hr hw c mode
  | createDir c mode => exact nameKept_createDir hs hr hw c mode
  | createSymlink c target => exact nameKept_createSymlink hs hr hw c target
  | renameEntry oldpath => exact nameKept_renameEntry hs hr hw
  | createSnapshot flag => exact nameKept_createSnapshot hr hw dir flag

/-! ## The blank image -/

/-- Nothing is in the root directory of a tree just made. -/
theorem walkFresh_mainEs {ctx : GefsCtx} (hok : CtxOk ctx)
    (hh : TreeHolds ctx (ctx.tree .active) mainEs) {n : Bytes} (hs : slash ∉ n) :
    ∃ p ctx', run sysStep (walkFresh (entryPath [] n)) ctx = some (.ok p, ctx') := by
  obtain ⟨c1, hk1, h1⟩ := step_btlookup hok hh rootKey
  have hroot : (look mainEs rootKey).map (rootKey, ·) = some (rootKey, rootVal qmainroot) := by
    decide +kernel
  have hpack : gefsPackdkey gefsKeymax (-1) (some []) = some rootKey := by decide +kernel
  obtain ⟨d, hd, hq⟩ : ∃ d, gefsKv2dir (rootKey, rootVal qmainroot) = some d ∧ d.qid.path = 0 :=
    ⟨_, rfl, by decide +kernel⟩
  rw [hroot] at h1
  have hwalk : run sysStep (gefsWalkPath .active [slash] zeroXdir) ctx
      = some ((.ok (), d), c1) := by
    unfold gefsWalkPath gefsWalk1
    rw [if_pos (.inl rfl), hpack]
    dsimp only
    rw [one_bind, run_call _ h1]
    dsimp only
    rw [hd]
    rfl
  unfold walkFresh
  rw [@splitPath_entryPath [] _ hs, if_pos rfl]
  dsimp only
  rw [run_bind, hwalk, Option.bind_some]
  dsimp only
  rw [hq]
  unfold gefsWalk1
  rcases hkey : gefsPackdkey gefsKeymax (UInt64.toInt64 0) (some (n.take 255)) with _ | k
  · exact ⟨_, c1, rfl⟩
  · have hnone : look mainEs k = none := by
      obtain ⟨-, rfl⟩ := gefsPackdkey_eq_some.1 hkey
      rfl
    obtain ⟨c2, hk2, h2⟩ := step_btlookup hk1.ok ((hk1.tree .active ▸ hh).keeps hk1) k
    rw [hnone] at h2
    dsimp only
    rw [one_bind, call_bind, run_call _ h2]
    exact ⟨_, c2, rfl⟩

/-- A name of `m` bytes. -/
def nameOf (m : ℕ) : CStr := ⟨List.replicate m 0x61, fun b hb => by
  rw [List.eq_of_mem_replicate hb]
  decide⟩

theorem slash_nameOf (m : ℕ) : slash ∉ (nameOf m).bytes := fun h => by
  have := List.eq_of_mem_replicate h
  revert this
  decide

theorem length_nameOf (m : ℕ) : (nameOf m).bytes.length = m := List.length_replicate ..

/-- The entries of the trees just made. -/
def blankEs (r a : GefsBptr) : TreeRef → List GefsKvp
  | .active => mainEs
  | .snap => catEs r a

/-- A file with a name of 244 bytes, on the blank image. -/
theorem nameKept_blank : ∃ d' ctx, mkfs [] blankImage = some d'
    ∧ gefsFsOpen 3 d' false (fun _ _ => 0) = some (.ok ctx)
    ∧ NameKept (nameOf 244).bytes ctx
      ((NameOp.createFile ⟨0, 0, 0⟩ 0o644).prog [] (nameOf 244).bytes) ctx := by
  obtain ⟨d', r, a, u, tb, nu, bps, ctx, hm, -, hopen, ho, -⟩ := mount_blank
  have hs := slash_nameOf 244
  have hlen := length_nameOf 244
  generalize nameOf 244 = n at hs hlen ⊢
  have hh : ∀ t, TreeHolds ctx (ctx.tree t) (blankEs r a t) := by
    intro t
    cases t
    · exact ho.main
    · exact ho.catalog
  obtain ⟨p, ctx1, hw⟩ := walkFresh_mainEs ho.ok ho.main hs
  refine ⟨d', ctx, hm, hopen, (nameKept_iff (.createFile ⟨0, 0, 0⟩ 0o644) hs ho.ok hh hw).2 ?_⟩
  intro q hq
  refine ⟨hlen.le, fun ms hms => spare_of_room ?_⟩
  obtain ⟨k, hk, hms⟩ := Option.bind_eq_some_iff.1 hms
  obtain ⟨v, hv, hms⟩ := Option.bind_eq_some_iff.1 hms
  obtain rfl := Option.some.inj hms
  have hv := length_gefsPackdval hv
  obtain ⟨-, rfl⟩ := gefsPackdkey_eq_some.1 hk
  have hmain : room mainEs ≤ 200 := by decide +kernel
  have hvals : ctx.vals .active = mainEs := vals_of_held ho.ok (hh .active).root
  rw [hvals]
  generalize room mainEs = used at hmain ⊢
  simp only [room, xdirsz, List.flatMap_cons, List.flatMap_nil, putOf, GefsMsg.eff, if_true,
    Option.toList_some, List.map_cons, List.map_nil, List.append_nil, List.sum_cons, List.sum_nil,
    kvSize, List.length_append, length_pack8, length_pack64, length_pack16, List.length_cons,
    List.length_nil, hv, hlen]
  have hspc : gefsLeafspc = 16378 := rfl
  omega

/-- A file with a name of 245 bytes, on the blank image. -/
theorem not_forall_nameKept :
    ¬ ∀ (user : Bytes) (d d' : Disk) (fuel : ℕ) (readonly : Bool) (heap : ℕ → Mem) (ctx : GefsCtx),
      mkfs user d = some d' → gefsFsOpen fuel d' readonly heap = some (.ok ctx) →
      ∀ (op : NameOp) (dir : Bytes) (n : CStr), slash ∉ n.bytes →
        NameKept n.bytes ctx (op.prog dir n.bytes) ctx := by
  intro h
  obtain ⟨d', r, a, u, tb, nu, bps, ctx, hm, -, hopen, ho, -⟩ := mount_blank
  obtain ⟨n, hs, hlen⟩ : ∃ n : CStr, slash ∉ n.bytes ∧ n.bytes.length = 245 :=
    ⟨nameOf 245, slash_nameOf 245, length_nameOf 245⟩
  have hh : ∀ t, TreeHolds ctx (ctx.tree t) (blankEs r a t) := by
    intro t
    cases t
    · exact ho.main
    · exact ho.catalog
  obtain ⟨p, ctx1, hw⟩ := walkFresh_mainEs ho.ok ho.main hs
  have hkept := h _ _ _ _ _ _ _ hm hopen (.createFile ⟨0, 0, 0⟩ 0o644) [] n hs
  have hle := ((nameKept_createFile hs (.refl ho.ok hh) hw ⟨0, 0, 0⟩ 0o644).1 hkept p rfl).1
  omega

end GefsFuse
