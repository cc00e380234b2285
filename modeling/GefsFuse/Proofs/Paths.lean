import GefsFuse.Paths
import GefsFuse.Proofs.Names
import GefsFuse.Proofs.SnapCounts

/-!
# When the two ways agree

On a tree of one leaf a walk is a function of the leaf's entries (`findPath`). The walk goes
through the components before the last as the walk to the split's directory does
(`findElems_append`), so the two part only where the last component is no component of the walk: it
is empty, or a dot, or lies past what the buffers take.
-/

namespace GefsFuse

open ByteMem SortedMap Calls Prog

/-! ## Walks on a leaf -/

section Find

variable (es : List GefsKvp)

/-- One step down, on the entries of a leaf. -/
def find1 (pqid : Int64) (name : Bytes) : Option (Except Errno GefsXdir) :=
  match gefsPackdkey gefsKeymax pqid (some name) with
  | none => some (.error .einval)
  | some k =>
    match look es k with
    | none => some (.error .enoent)
    | some v => (gefsKv2dir (k, v)).map .ok

def findElems : List Bytes → Found → Option (Except Errno Found)
  | [], r => some (.ok r)
  | e :: l, r =>
    if e = [dot] then findElems l r
    else (find1 es r.dir.qid.path.toInt64 e).bind fun
      | .ok d => findElems l ⟨r.dir.qid.path.toInt64, e, d⟩
      | .error e => some (.error e)

def findPath (path : Bytes) : Option (Except Errno Found) :=
  (find1 es (-1) []).bind fun
    | .ok d => findElems es (pathElems path) ⟨-1, [], d⟩
    | .error e => some (.error e)

end Find

section Runs

variable {es : List GefsKvp} {ctx : GefsCtx} {t : TreeRef}

/-- What a step down returns, `d` the entry it started from. -/
def walk1Ret (d : GefsXdir) : Except Errno GefsXdir → Except Errno Unit × GefsXdir
  | .ok d' => (.ok (), d')
  | .error e => (.error e, d)

theorem run_walk1 (hok : CtxOk ctx) (hh : TreeHolds ctx (ctx.tree t) es) (pqid : Int64)
    (name : Bytes) (d : GefsXdir) : ∃ ctx', Keeps ctx ctx'
      ∧ run sysStep (gefsWalk1 t pqid name d) ctx
        = (find1 es pqid name).map fun r => (walk1Ret d r, ctx') := by
  unfold gefsWalk1 find1
  rcases gefsPackdkey gefsKeymax pqid (some name) with _ | k
  · exact ⟨ctx, .refl hok, rfl⟩
  · obtain ⟨ctx', hk, he⟩ := step_btlookup hok hh k
    refine ⟨ctx', hk, ?_⟩
    dsimp only
    rw [one_bind, run_call _ he]
    rcases look es k with _ | v
    · rfl
    · dsimp only [Option.map_some]
      rcases gefsKv2dir (k, v) with _ | d' <;> rfl

theorem run_walkElemsFound : ∀ (l : List Bytes) {ctx : GefsCtx}, CtxOk ctx →
    TreeHolds ctx (ctx.tree t) es → ∀ r : Found, ∃ ctx', Keeps ctx ctx'
      ∧ run sysStep (walkElemsFound t l r) ctx = (findElems es l r).map fun r => (r, ctx')
  | [], ctx, hok, _, r => ⟨ctx, .refl hok, rfl⟩
  | e :: l, ctx, hok, hh, r => by
    unfold walkElemsFound findElems
    by_cases hdot : e = [dot]
    · rw [if_pos hdot, if_pos hdot]
      exact run_walkElemsFound l hok hh r
    · rw [if_neg hdot, if_neg hdot]
      obtain ⟨c1, hk1, h1⟩ := run_walk1 hok hh r.dir.qid.path.toInt64 e r.dir
      rw [run_bind, h1]
      rcases find1 es r.dir.qid.path.toInt64 e with _ | _ | d
      · exact ⟨c1, hk1, rfl⟩
      · exact ⟨c1, hk1, rfl⟩
      · obtain ⟨c2, hk2, h2⟩ := run_walkElemsFound l hk1.ok ((hk1.tree t ▸ hh).keeps hk1)
          ⟨r.dir.qid.path.toInt64, e, d⟩
        exact ⟨c2, hk1.trans hk2, h2⟩

theorem run_walkFound (hok : CtxOk ctx) (hh : TreeHolds ctx (ctx.tree t) es) (path : Bytes)
    (d : GefsXdir) : ∃ ctx', Keeps ctx ctx'
      ∧ run sysStep (walkFound t path d) ctx = (findPath es path).map fun r => (r, ctx') := by
  unfold walkFound findPath
  obtain ⟨c1, hk1, h1⟩ := run_walk1 hok hh (-1) [] d
  rw [run_bind, h1]
  rcases find1 es (-1) [] with _ | _ | d'
  · exact ⟨c1, hk1, rfl⟩
  · exact ⟨c1, hk1, rfl⟩
  · obtain ⟨c2, hk2, h2⟩ := run_walkElemsFound (pathElems path) hk1.ok
      ((hk1.tree t ▸ hh).keeps hk1) ⟨-1, [], d'⟩
    exact ⟨c2, hk1.trans hk2, h2⟩

/-- `walkFound` is the walk, with more in its answer. -/
theorem walkElemsFound_eq (t : TreeRef) : ∀ (l : List Bytes) (r : Found),
    (walkElemsFound t l r >>= fun x => .ret (x.map (·.dir)))
      = (walkElems t l r.dir.qid.path r.dir >>= fun x => .ret (x.1.map fun _ => x.2))
  | [], _ => rfl
  | e :: l, r => by
    unfold walkElemsFound walkElems
    by_cases hdot : e = [dot]
    · rw [if_pos hdot, if_pos hdot]
      exact walkElemsFound_eq t l r
    · rw [if_neg hdot, if_neg hdot, Prog.bind_assoc, Prog.bind_assoc]
      congr 1
      funext x
      rcases x with ⟨_ | _, d⟩
      · rfl
      · exact walkElemsFound_eq t l ⟨r.dir.qid.path.toInt64, e, d⟩

theorem walkFound_eq (t : TreeRef) (path : Bytes) (d : GefsXdir) :
    (walkFound t path d >>= fun x => .ret (x.map (·.dir)))
      = (gefsWalkPath t path d >>= fun x => .ret (x.1.map fun _ => x.2)) := by
  have hroot : path = [slash] ∨ path = [] → pathElems path = [] := by
    rintro (rfl | rfl) <;> decide
  unfold walkFound gefsWalkPath
  by_cases h : path = [slash] ∨ path = []
  · rw [if_pos h, Prog.bind_assoc, hroot h]
    congr 1
    funext x
    rcases x with ⟨_ | _, d'⟩ <;> rfl
  · rw [if_neg h, Prog.bind_assoc, Prog.bind_assoc]
    congr 1
    funext x
    rcases x with ⟨_ | _, d'⟩
    · rfl
    · exact walkElemsFound_eq t (pathElems path) ⟨-1, [], d'⟩

/-- So the walk comes to the entry found. -/
theorem run_walkPath (hok : CtxOk ctx) (hh : TreeHolds ctx (ctx.tree t) es) {path : Bytes}
    {f : Found} (hf : findPath es path = some (.ok f)) (d : GefsXdir) : ∃ ctx', Keeps ctx ctx'
      ∧ run sysStep (gefsWalkPath t path d) ctx = some ((.ok (), f.dir), ctx') := by
  obtain ⟨ctx', hk, h⟩ := run_walkFound hok hh path d
  refine ⟨ctx', hk, ?_⟩
  have he := congrArg (fun p => run sysStep p ctx) (walkFound_eq t path d)
  simp only [run_bind, h, hf, Option.map_some, Option.bind_some, run_ret] at he
  rcases hw : run sysStep (gefsWalkPath t path d) ctx with _ | ⟨⟨_ | _, d'⟩, c⟩ <;> rw [hw] at he
  · cases he
  · cases he
  · obtain ⟨h1, rfl⟩ := Prod.mk.inj (Option.some.inj he)
    obtain rfl : f.dir = d' := Except.ok.inj h1
    rfl

/-- And fails where it is not found. -/
theorem run_walkPath_error (hok : CtxOk ctx) (hh : TreeHolds ctx (ctx.tree t) es) {path : Bytes}
    {e : Errno} (hf : findPath es path = some (.error e)) (d : GefsXdir) : ∃ d' ctx', Keeps ctx ctx'
      ∧ run sysStep (gefsWalkPath t path d) ctx = some ((.error e, d'), ctx') := by
  obtain ⟨ctx', hk, h⟩ := run_walkFound hok hh path d
  have he := congrArg (fun p => run sysStep p ctx) (walkFound_eq t path d)
  simp only [run_bind, h, hf, Option.map_some, Option.bind_some, run_ret] at he
  rcases hw : run sysStep (gefsWalkPath t path d) ctx with _ | ⟨⟨e' | _, d'⟩, c⟩ <;> rw [hw] at he
  · cases he
  · obtain ⟨h1, rfl⟩ := Prod.mk.inj (Option.some.inj he)
    obtain rfl : e = e' := Except.error.inj h1
    exact ⟨d', ctx', hk, rfl⟩
  · cases he

end Runs

/-! ## Components -/

/-- The components of an entry's path are those of its directory's and then the last, as far as the
buffer takes it. -/
theorem pathElems_entryPath {dir n : Bytes} (hn : slash ∉ n) : pathElems (entryPath dir n)
    = pathElems (if dir = [] then [slash] else dir.take 1023)
      ++ [n.take (1022 - dir.length)].filter (· ≠ []) := by
  have hdir : pathElems (if dir = [] then [slash] else dir.take 1023) = pathElems dir := by
    split_ifs with h
    · subst h
      decide
    · unfold pathElems
      rw [List.take_take, min_self]
  rw [hdir]
  unfold pathElems entryPath
  by_cases hlen : dir.length < 1023
  · have htake : (dir ++ slash :: n).take 1023 = dir ++ slash :: n.take (1022 - dir.length) := by
      rw [List.take_append, List.take_of_length_le (by omega),
        show 1023 - dir.length = (1022 - dir.length) + 1 by omega, List.take_succ_cons]
    rw [htake, List.splitOn_append_cons_self, List.filter_append,
      List.splitOn_eq_singleton fun h => hn (List.mem_of_mem_take h),
      List.take_of_length_le (show dir.length ≤ 1023 by omega)]
  · have htake : (dir ++ slash :: n).take 1023 = dir.take 1023 := by
      rw [List.take_append, show 1023 - dir.length = 0 by omega, List.take_zero, List.append_nil]
    rw [htake, show 1022 - dir.length = 0 by omega, List.take_zero]
    simp

section Elems

variable {es : List GefsKvp}

theorem findElems_append : ∀ (l l' : List Bytes) (r : Found), findElems es (l ++ l') r
    = (findElems es l r).bind fun
      | .ok r' => findElems es l' r'
      | .error e => some (.error e)
  | [], _, _ => rfl
  | e :: l, l', r => by
    rw [List.cons_append, findElems, findElems]
    by_cases hdot : e = [dot]
    · rw [if_pos hdot, if_pos hdot]
      exact findElems_append l l' r
    · rw [if_neg hdot, if_neg hdot, Option.bind_assoc]
      congr 1
      funext x
      rcases x with _ | d
      · rfl
      · exact findElems_append l l' _

/-- A walk that succeeds comes through the directory of its path's split, and ends there or goes one
step on. -/
theorem findPath_entryPath {dir n : Bytes} (hn : slash ∉ n) {f : Found}
    (hf : findPath es (entryPath dir n) = some (.ok f)) : ∃ g,
    findPath es (if dir = [] then [slash] else dir.take 1023) = some (.ok g)
      ∧ (n.take (1022 - dir.length) = [] ∨ n.take (1022 - dir.length) = [dot] → f = g)
      ∧ (n.take (1022 - dir.length) ≠ [] → n.take (1022 - dir.length) ≠ [dot] →
        f.pqid = g.dir.qid.path.toInt64 ∧ f.name = n.take (1022 - dir.length)
          ∧ find1 es f.pqid f.name = some (.ok f.dir)) := by
  unfold findPath at hf ⊢
  rw [pathElems_entryPath hn] at hf
  generalize n.take (1022 - dir.length) = m at hf ⊢
  generalize pathElems (if dir = [] then [slash] else dir.take 1023) = l at hf ⊢
  generalize find1 es (-1) [] = root at hf ⊢
  obtain _ | _ | d := root
  · cases hf
  · cases hf
  simp only [Option.bind_some, findElems_append] at hf ⊢
  generalize findElems es l ⟨-1, [], d⟩ = r at hf ⊢
  obtain _ | _ | g := r
  · cases hf
  · cases hf
  refine ⟨g, rfl, ?_, ?_⟩
  · rintro (rfl | rfl)
    · exact (Except.ok.inj (Option.some.inj hf)).symm
    · exact (Except.ok.inj (Option.some.inj hf)).symm
  · intro h1 h2
    have hm : [m].filter (· ≠ []) = [m] := by simp [h1]
    rw [Option.bind_some, hm] at hf
    unfold findElems at hf
    dsimp only at hf
    rw [if_neg h2] at hf
    rcases hd : find1 es g.dir.qid.path.toInt64 m with _ | _ | d' <;> rw [hd] at hf
    · cases hf
    · cases hf
    · obtain rfl := Except.ok.inj (Option.some.inj hf)
      exact ⟨rfl, rfl, hd⟩

theorem find1_eq_ok {pqid : Int64} {name : Bytes} {d : GefsXdir} :
    find1 es pqid name = some (.ok d) ↔ ∃ k v, gefsPackdkey gefsKeymax pqid (some name) = some k
      ∧ look es k = some v ∧ gefsKv2dir (k, v) = some d := by
  unfold find1
  rcases gefsPackdkey gefsKeymax pqid (some name) with _ | k
  · simp
  · dsimp only
    rcases hl : look es k with _ | v <;> simp [hl]

/-- An entry is where it was found. -/
def Found.At (es : List GefsKvp) (r : Found) : Prop := find1 es r.pqid r.name = some (.ok r.dir)

theorem findElems_at : ∀ {l : List Bytes} {r f : Found}, r.At es →
    findElems es l r = some (.ok f) → f.At es
  | [], r, f, hr, h => by
    obtain rfl := Except.ok.inj (Option.some.inj h)
    exact hr
  | e :: l, r, f, hr, h => by
    rw [findElems] at h
    by_cases hdot : e = [dot]
    · rw [if_pos hdot] at h
      exact findElems_at hr h
    · rw [if_neg hdot] at h
      rcases hd : find1 es r.dir.qid.path.toInt64 e with _ | _ | d <;> rw [hd] at h
      · cases h
      · cases h
      · have hr' : Found.At es ⟨r.dir.qid.path.toInt64, e, d⟩ := hd
        exact findElems_at hr' h

theorem findPath_at {path : Bytes} {f : Found} (h : findPath es path = some (.ok f)) : f.At es := by
  unfold findPath at h
  rcases hd : find1 es (-1) [] with _ | _ | d <;> rw [hd] at h
  · cases h
  · cases h
  · have hr : Found.At es ⟨-1, [], d⟩ := hd
    exact findElems_at hr h

/-- The split of a path and the walk over it come to the same key exactly here. -/
theorem pair_iff {dir n : Bytes} (hn : slash ∉ n) {f g : Found}
    (hf : findPath es (entryPath dir n) = some (.ok f))
    (hg : findPath es (if dir = [] then [slash] else dir.take 1023) = some (.ok g)) :
    (g.dir.qid.path.toInt64 = f.pqid ∧ n.take 255 = f.name)
      ↔ ((entryPath dir n).length ≤ 1023 ∧ n ≠ [] ∧ n ≠ [dot])
        ∨ n.take 255 = f.name ∧ f.dir.qid.path.toInt64 = f.pqid := by
  obtain ⟨g', hg', hsame, hstep⟩ := findPath_entryPath hn hf
  obtain rfl := Except.ok.inj (Option.some.inj (hg'.symm.trans hg))
  have hlen : (entryPath dir n).length = dir.length + 1 + n.length := by
    unfold entryPath
    rw [List.length_append, List.length_cons]
    omega
  have hshort : (entryPath dir n).length ≤ 1023 → n.take (1022 - dir.length) = n := fun h =>
    List.take_of_length_le (by omega)
  by_cases hm : n.take (1022 - dir.length) = [] ∨ n.take (1022 - dir.length) = [dot]
  · obtain rfl := hsame hm
    have hno : ¬ ((entryPath dir n).length ≤ 1023 ∧ n ≠ [] ∧ n ≠ [dot]) := by
      rintro ⟨hle, h1, h2⟩
      rw [hshort hle] at hm
      exact hm.elim h1 h2
    rw [or_iff_right hno, and_comm]
  · rw [not_or] at hm
    obtain ⟨hp, hname, hat⟩ := hstep hm.1 hm.2
    obtain ⟨k, -, hk, -⟩ := find1_eq_ok.1 hat
    have hroom := (gefsPackdkey_eq_some.1 hk).1
    have hkm : gefsKeymax = 256 := rfl
    rw [← hp, and_iff_right rfl, hname]
    rw [hname, List.length_take] at hroom
    by_cases hle : (entryPath dir n).length ≤ 1023
    · rw [hshort hle] at hm ⊢
      have htake : n.take 255 = n := List.take_of_length_le (by omega)
      exact iff_of_true htake (.inl ⟨hle, hm⟩)
    · have hne : n.take 255 ≠ n.take (1022 - dir.length) := by
        intro h
        have h0 : 1022 - dir.length ≠ 0 := fun h => hm.1 (by rw [h, List.take_zero])
        have hl := congrArg List.length h
        rw [List.length_take, List.length_take] at hl
        omega
      exact iff_of_false hne fun h => h.elim (fun h => hle h.1) fun h => hne h.1

end Elems

/-! ## An entry changed -/

section Changed

variable {es es' : List GefsKvp} {k v v' : Bytes} {d d' : GefsXdir}

/-- What is found once `k` holds `d'`. -/
def Found.changed (k : Bytes) (d' : GefsXdir) (r : Found) : Found :=
  if gefsPackdkey gefsKeymax r.pqid (some r.name) = some k then { r with dir := d' } else r

variable (hv' : look es' k = some v') (hd' : gefsKv2dir (k, v') = some d')
  (hsame : ∀ k' ≠ k, look es' k' = look es k')
include hv' hd' hsame

theorem find1_changed {pqid : Int64} {name : Bytes} {d0 : GefsXdir}
    (h : find1 es pqid name = some (.ok d0)) :
    find1 es' pqid name = some (.ok (Found.changed k d' ⟨pqid, name, d0⟩).dir) := by
  obtain ⟨k0, v0, hk0, hl0, hd0⟩ := find1_eq_ok.1 h
  unfold Found.changed
  dsimp only
  rw [hk0]
  by_cases he : k0 = k
  · rw [if_pos (congrArg some he)]
    exact find1_eq_ok.2 ⟨k, v', he ▸ hk0, hv', hd'⟩
  · rw [if_neg fun h => he (Option.some.inj h)]
    exact find1_eq_ok.2 ⟨k0, v0, hk0, (hsame k0 he).trans hl0, hd0⟩

variable (hv : look es k = some v) (hd : gefsKv2dir (k, v) = some d)
  (hq : d'.qid.path = d.qid.path)
include hv hd hq

omit hv' hd' hsame in
/-- The next step of a walk goes to the same directory. -/
theorem changed_qid {r : Found} (hr : r.At es) :
    (r.changed k d').dir.qid.path = r.dir.qid.path := by
  obtain ⟨k0, v0, hk0, hl0, hd0⟩ := find1_eq_ok.1 hr
  unfold Found.changed
  split_ifs with h
  · obtain rfl := Option.some.inj (hk0.symm.trans h)
    obtain rfl := Option.some.inj (hl0.symm.trans hv)
    obtain rfl := Option.some.inj (hd0.symm.trans hd)
    exact hq
  · rfl

theorem findElems_changed : ∀ {l : List Bytes} {r f : Found}, r.At es →
    findElems es l r = some (.ok f) → findElems es' l (r.changed k d') = some (.ok (f.changed k d'))
  | [], r, f, _, h => by
    obtain rfl := Except.ok.inj (Option.some.inj h)
    rfl
  | e :: l, r, f, hr, h => by
    rw [findElems] at h ⊢
    by_cases hdot : e = [dot]
    · rw [if_pos hdot] at h ⊢
      exact findElems_changed hr h
    · rw [if_neg hdot] at h ⊢
      rw [changed_qid hv hd hq hr]
      rcases h1 : find1 es r.dir.qid.path.toInt64 e with _ | _ | d0 <;> rw [h1] at h
      · cases h
      · cases h
      · rw [find1_changed hv' hd' hsame h1]
        have hnext : (⟨r.dir.qid.path.toInt64, e,
            (Found.changed k d' ⟨r.dir.qid.path.toInt64, e, d0⟩).dir⟩ : Found)
            = Found.changed k d' ⟨r.dir.qid.path.toInt64, e, d0⟩ := by
          unfold Found.changed
          split_ifs <;> rfl
        rw [Option.bind_some]
        dsimp only
        rw [hnext]
        exact findElems_changed h1 h

/-- The walk comes to the same place, and shows the entry changed. -/
theorem findPath_changed {path : Bytes} {f : Found} (h : findPath es path = some (.ok f)) :
    findPath es' path = some (.ok (f.changed k d')) := by
  unfold findPath at h ⊢
  rcases h1 : find1 es (-1) [] with _ | _ | d0 <;> rw [h1] at h
  · cases h
  · cases h
  · rw [find1_changed hv' hd' hsame h1, Option.bind_some]
    have hnext : (⟨-1, [], (Found.changed k d' ⟨-1, [], d0⟩).dir⟩ : Found)
        = Found.changed k d' ⟨-1, [], d0⟩ := by
      unfold Found.changed
      split_ifs <;> rfl
    dsimp only
    rw [hnext]
    exact findElems_changed hv' hd' hsame hv hd hq h1 h

end Changed

/-! ## An operation that changes an entry -/

section Attr

variable {es : List GefsKvp} {k v v' : Bytes}

/-- `k` bound to `v'` where it is bound. -/
def rebind (k v' : Bytes) (es : List GefsKvp) : List GefsKvp :=
  es.map fun e => if e.1 = k then (k, v') else e

theorem look_rebind (es : List GefsKvp) (k v' k' : Bytes) : look (rebind k v' es) k'
    = if k' = k then (look es k).map fun _ => v' else look es k' := by
  induction es with
  | nil => simp [rebind]
  | cons e es ih =>
    unfold rebind at ih ⊢
    rw [List.map_cons, look, look, look, ih]
    by_cases he : e.1 = k
    · rw [if_pos he, if_pos he]
      by_cases hk : k' = k
      · simp [hk]
      · simp [hk, Ne.symm hk, he]
    · rw [if_neg he, if_neg he]
      by_cases hk : k' = k
      · simp [hk, he]
      · simp [hk]

/-- An entry bound again is bound in its place. -/
theorem ins_eq_rebind (hs : Ascending es) (hv : look es k = some v) :
    ins es k v' = rebind k v' es := by
  refine eq_of_look (ascending_ins hs k v') ?_ fun k' => ?_
  · refine List.pairwise_map.2 (hs.imp ?_)
    intro a b hab
    split_ifs with h1 h2 h2 <;> simp_all
  · rw [look_ins hs, look_rebind, hv, Option.map_some]

theorem fits_ins (hs : Ascending es) (hv : look es k = some v) (hle : v'.length ≤ v.length)
    (hf : Fits es) : Fits (ins es k v') := by
  rw [ins_eq_rebind hs hv]
  have hval : ∀ e ∈ es, e.1 = k → e.2 = v := fun e he h => by
    have := look_of_mem hs he
    rw [h, hv] at this
    exact (Option.some.inj this).symm
  have hsize : ∀ l : List GefsKvp, (∀ e ∈ l, e.1 = k → e.2 = v) →
      valsSize (rebind k v' l) ≤ valsSize l := by
    intro l hl
    induction l with
    | nil => exact le_rfl
    | cons e l ih =>
      obtain ⟨he, hl⟩ := List.forall_mem_cons.1 hl
      have hi := ih hl
      unfold rebind valsSize at hi ⊢
      rw [List.map_cons, List.map_cons, List.map_cons, List.sum_cons, List.sum_cons]
      have hhead : kvSize (if e.1 = k then (k, v') else e) ≤ kvSize e := by
        split_ifs with h
        · unfold kvSize
          rw [he h, h]
          dsimp only
          omega
        · exact le_rfl
      omega
  have := hsize es hval
  have hlen : (rebind k v' es).length = es.length := List.length_map ..
  unfold Fits at hf ⊢
  omega

/-- An update of one entry that was made, the entry new or not. -/
theorem upsert_ins_of_fits {ctx ctx' : GefsCtx} (hok : CtxOk ctx)
    (hh : TreeHolds ctx ctx.activeTree es) (hf : Fits (ins es k v'))
    (hsmall : k.length + v'.length ≤ gefsKvmax)
    (h : sysStep (.btupsert .active [⟨.oinsert, k, v', []⟩]) ctx = some (.ok (), ctx')) :
    CtxOk ctx' ∧ TreeHolds ctx' ctx'.activeTree (ins es k v') := by
  have hro : ctx.readonly = false := by
    by_contra hro
    have hr : sysStep (.btupsert .active [⟨.oinsert, k, v', []⟩]) ctx = some (.error .erofs, ctx) :=
      if_pos (.inl (by simpa using hro))
    rw [hr] at h
    cases h
  have hplain : Plain [(⟨.oinsert, k, v', []⟩ : GefsMsg)] := fun m hm => by
    rw [List.mem_singleton.1 hm]
    exact nofun
  rcases @gefsBtupsert_leaf ctx .active es _ hok hh.root hplain (List.cons_ne_nil _ _) hro hf
    with ⟨-, c, -, he⟩ | ⟨a, as, c, -, -, -, he⟩ | ⟨bp, c, hu, he⟩
  · cases he.symm.trans h
  · cases he.symm.trans h
  · obtain rfl : c = ctx' := (Prod.mk.inj (Option.some.inj (he.symm.trans h))).2
    have hact : c.activeTree = { ctx.activeTree with bp := bp, ht := 1 } := by
      rw [hu.active]
      unfold setRoot
      split_ifs <;> rfl
    refine ⟨hu.ok, ?_, ?_, ascending_ins hh.asc k v', small_merged hh.small fun m hm _ => ?_⟩
    · rw [hact]
    · rw [hact]
      exact .inl hu.root
    · rw [List.mem_singleton.1 hm]
      exact hsmall

/-- The same of an entry that was there, its value no longer than before. -/
theorem upsert_ins {ctx ctx' : GefsCtx} (hok : CtxOk ctx) (hh : TreeHolds ctx ctx.activeTree es)
    (hf : Fits es) (hv : look es k = some v) (hle : v'.length ≤ v.length)
    (h : sysStep (.btupsert .active [⟨.oinsert, k, v', []⟩]) ctx = some (.ok (), ctx')) :
    CtxOk ctx' ∧ TreeHolds ctx' ctx'.activeTree (ins es k v') := by
  refine upsert_ins_of_fits hok hh (fits_ins hh.asc hv hle hf) ?_ h
  have := hh.small _ (mem_of_look hv)
  dsimp only at this
  omega

end Attr

/-! ## The operations -/

theorem AttrOp.prog_eq (op : AttrOp) (path : Bytes) :
    op.prog path = rewriteEntry path fun d => op.set d := by
  cases op with
  | chmod mode => rfl
  | chown uid gid =>
    unfold AttrOp.prog AttrOp.set gefsChownEntry
    simp only [ne_eq, ite_not]
  | utimens tv now => rcases tv with _ | ⟨a, m⟩ <;> rfl
  | truncate size now => rfl

theorem AttrOp.shown_eq (op : AttrOp) (d : GefsXdir) :
    { op.set d with qid := { (op.set d).qid with vers := (op.set d).qid.vers + 1 } } = op.shown d
      ∧ (op.shown d).name = d.name := by
  cases op with
  | utimens tv now => rcases tv with _ | ⟨a, m⟩ <;> exact ⟨rfl, rfl⟩
  | _ => exact ⟨rfl, rfl⟩

theorem Looks.under {α : Type} {p : FsProg α} (hp : Looks p) (k : Bytes) :
    All (fun {_} q => Sys.Under k q) p := by
  induction p with
  | ret a => trivial
  | fault => trivial
  | call p _ ih =>
    refine ⟨?_, fun b => ih b (hp.2 b)⟩
    cases p with
    | btupsert t ms => exact hp.1.elim
    | _ => trivial

section Ops

variable {es : List GefsKvp} {ctx : GefsCtx} {dir n k : Bytes} {f g : Found}

/-- After a walk that succeeds the operation goes on with the entry found. -/
theorem meets_walkPath {β : Type} {F : Except Errno Unit × GefsXdir → FsProg β} (hok : CtxOk ctx)
    (hh : TreeHolds ctx ctx.activeTree es) {p : Bytes} (hf : findPath es p = some (.ok f))
    (d : GefsXdir) (hF : ∀ ctx', Keeps ctx ctx' →
      Meets sysStep (fun q _ => q.Under k) (F (.ok (), f.dir)) ctx') :
    Meets sysStep (fun q _ => q.Under k) (gefsWalkPath .active p d >>= F) ctx := by
  obtain ⟨ctx', hk, hr⟩ := @run_walkPath es ctx .active hok hh _ _ hf d
  refine (((looks_walkPath _ _ _).under k).meets ctx).bind fun a s' hs => ?_
  obtain ⟨rfl, rfl⟩ := Prod.mk.inj (Option.some.inj (hs.symm.trans hr))
  exact hF s' hk

variable (hok : CtxOk ctx) (hh : TreeHolds ctx ctx.activeTree es) (hn : slash ∉ n)
  (hf : findPath es (entryPath dir n) = some (.ok f))
  (hg : findPath es (if dir = [] then [slash] else dir.take 1023) = some (.ok g))

include hok hh hn hg in
theorem run_parentKey : ∃ ctx', run sysStep (parentKey (entryPath dir n)) ctx
    = some (.ok (g.dir.qid.path.toInt64, n.take 255), ctx') := by
  obtain ⟨ctx', -, hr⟩ := @run_walkPath es ctx .active hok hh _ _ hg zeroXdir
  unfold parentKey
  rw [splitPath_entryPath hn]
  dsimp only
  rw [run_bind, hr]
  exact ⟨ctx', rfl⟩

variable (hq : g.dir.qid.path.toInt64 = f.pqid) (hname : n.take 255 = f.name)
  (hk : gefsPackdkey gefsKeymax f.pqid (some f.name) = some k)

include hq hname hk in
theorem insertEntry_under (d : GefsXdir) : ∃ v', gefsPackdval gefsInlmax d = some v'
    ∧ insertEntry g.dir.qid.path (n.take 255) d
      = .one (.btupsert .active [⟨.oinsert, k, v', []⟩]) := by
  obtain ⟨v', hv'⟩ := @gefsPackdval_isSome gefsInlmax (by decide) d
  refine ⟨v', hv', ?_⟩
  unfold insertEntry
  rw [hq, hname, hk, hv']
  rfl

include hok hh hn hf hg hq hname hk

/-- An operation on attributes comes to one update, under the key found. -/
theorem run_attr (op : AttrOp) : ∃ ctx' v', Keeps ctx ctx'
    ∧ gefsPackdval gefsInlmax (op.shown f.dir) = some v'
    ∧ run sysStep (op.prog (entryPath dir n)) ctx
      = run sysStep (.one (.btupsert .active [⟨.oinsert, k, v', []⟩])) ctx' := by
  obtain ⟨v', hv', hinsert⟩ := insertEntry_under hq hname hk (op.shown f.dir)
  obtain ⟨c1, hk1, hr1⟩ := @run_walkPath es ctx .active hok hh _ _ hf zeroXdir
  have hh1 : TreeHolds c1 (c1.tree .active) es := (hk1.activeTree ▸ hh).keeps hk1
  obtain ⟨c2, hk2, hr2⟩ := run_walkPath hk1.ok hh1 hg zeroXdir
  refine ⟨c2, v', hk1.trans hk2, hv', ?_⟩
  rw [op.prog_eq]
  unfold rewriteEntry
  rw [run_bind, hr1, Option.bind_some]
  dsimp only
  rw [splitPath_entryPath hn]
  dsimp only
  rw [run_bind, hr2, Option.bind_some]
  dsimp only
  rw [(op.shown_eq f.dir).1, hinsert]

theorem meets_entryOp (op : EntryOp) :
    Meets sysStep (fun q _ => q.Under k) (op.prog (entryPath dir n)) ctx := by
  have hsplit := @splitPath_entryPath dir n hn
  cases op with
  | attr op =>
    show Meets sysStep (fun q _ => q.Under k) (op.prog (entryPath dir n)) ctx
    rw [op.prog_eq]
    unfold rewriteEntry
    refine meets_walkPath hok hh hf zeroXdir fun c1 hk1 => ?_
    dsimp only
    rw [hsplit]
    refine meets_walkPath hk1.ok ((hk1.activeTree ▸ hh).keeps hk1) hg zeroXdir fun c2 hk2 => ?_
    obtain ⟨v', -, hinsert⟩ := insertEntry_under hq hname hk (op.shown f.dir)
    dsimp only
    rw [(op.shown_eq f.dir).1, hinsert]
    exact ⟨rfl, fun _ _ _ => trivial⟩
  | unlink =>
    show Meets sysStep (fun q _ => q.Under k) (gefsUnlinkEntry (entryPath dir n)) ctx
    unfold gefsUnlinkEntry
    refine meets_walkPath hok hh hf zeroXdir fun c1 hk1 => ?_
    dsimp only
    split_ifs
    · trivial
    rw [hsplit]
    refine meets_walkPath hk1.ok ((hk1.activeTree ▸ hh).keeps hk1) hg zeroXdir fun c2 hk2 => ?_
    dsimp only
    rw [hq, hname, hk]
    exact ⟨rfl, fun _ _ _ => trivial⟩
  | rename newpath =>
    show Meets sysStep (fun q _ => q.Under k) (gefsRenameEntry (entryPath dir n) newpath) ctx
    unfold gefsRenameEntry
    refine meets_walkPath hok hh hf zeroXdir fun c1 hk1 => ?_
    dsimp only
    rw [hsplit]
    rcases splitPath newpath with _ | ⟨newParent, newName⟩
    · trivial
    refine meets_walkPath hk1.ok ((hk1.activeTree ▸ hh).keeps hk1) hg zeroXdir fun c2 hk2 => ?_
    refine (((looks_walkPath _ _ _).under k).meets c2).bind ?_
    rintro ⟨_ | _, newPdir⟩ c3 -
    · trivial
    dsimp only
    rw [hq, hname, hk, ofOption_some, ret_bind]
    rcases gefsPackdkey gefsKeymax newPdir.qid.path.toInt64 (some newName) with _ | ki
    · trivial
    rw [ofOption_some, ret_bind]
    generalize gefsPackdval gefsInlmax _ = r
    rcases r with _ | v
    · trivial
    · exact ⟨rfl, fun _ _ _ => trivial⟩

end Ops

/-! ## Agreement -/

section Agree

variable {es : List GefsKvp} {ctx ctx1 : GefsCtx} {dir n : Bytes} {f : Found}

theorem kv2dir_name {k v : Bytes} {d : GefsXdir} (h : gefsKv2dir (k, v) = some d) :
    xdirsz ≤ v.length ∧ d.name = (gefsUnpackstr (k.drop 9)).map (·.1) := by
  unfold gefsKv2dir at h
  dsimp only at h
  split_ifs at h with hlt
  obtain rfl := Option.some.inj h
  exact ⟨not_lt.1 hlt, rfl⟩

theorem lookedUp_eq (hok : CtxOk ctx) (hh : TreeHolds ctx ctx.activeTree es) (k : Bytes) :
    lookedUp ctx k = some ((look es k).map (k, ·)) := by
  obtain ⟨ctx', -, he⟩ := @step_btlookup ctx .active es hok hh k
  unfold lookedUp
  rw [he, Option.map_some]

/-- On a tree of one leaf, with an entry found at a path: the split of the path agrees with the walk
over it if and only if the path fits its buffer and its last component is neither empty nor a dot;
or the entry found has its own directory's qid path, and the name is the same. -/
theorem pathAgrees_iff (hok : CtxOk ctx) (hh : TreeHolds ctx ctx.activeTree es) (hfits : Fits es)
    (hn : slash ∉ n)
    (hw : run sysStep (walkFound .active (entryPath dir n) zeroXdir) ctx = some (.ok f, ctx1)) :
    PathAgrees ctx (entryPath dir n) f
      ↔ ((entryPath dir n).length ≤ 1023 ∧ n ≠ [] ∧ n ≠ [dot])
        ∨ n.take 255 = f.name ∧ f.dir.qid.path.toInt64 = f.pqid := by
  have hf : findPath es (entryPath dir n) = some (.ok f) := by
    obtain ⟨c, -, hr⟩ := @run_walkFound es ctx .active hok hh (entryPath dir n) zeroXdir
    rw [hw] at hr
    obtain ⟨x, hx, he⟩ := Option.map_eq_some_iff.1 hr.symm
    rw [hx, (Prod.mk.inj he).1]
  obtain ⟨g, hg, -⟩ := findPath_entryPath hn hf
  rw [← pair_iff hn hf hg]
  constructor
  · rintro ⟨⟨c, hpair⟩, -, -⟩
    obtain ⟨c', hr⟩ := run_parentKey hok hh hn hg
    obtain ⟨he, -⟩ := Prod.mk.inj (Option.some.inj (hr.symm.trans hpair))
    exact Prod.mk.inj (Except.ok.inj he)
  · rintro ⟨hq, hname⟩
    obtain ⟨k, v, hk, hv, hd⟩ := find1_eq_ok.1 (findPath_at hf)
    obtain ⟨c, hr⟩ := run_parentKey hok hh hn hg
    rw [hq, hname] at hr
    have hafter : ∀ (op : AttrOp) ctx', run sysStep (op.prog (entryPath dir n)) ctx
        = some (.ok (), ctx') → ∃ v', gefsPackdval gefsInlmax (op.shown f.dir) = some v'
          ∧ CtxOk ctx' ∧ TreeHolds ctx' ctx'.activeTree (ins es k v') := by
      intro op ctx' hrun
      obtain ⟨c2, v', hk2, hv', hop⟩ := run_attr hok hh hn hf hg hq hname hk op
      rw [hop] at hrun
      obtain ⟨b, c3, hs, hb⟩ := run_call_eq_some hrun
      cases hb
      refine ⟨v', hv', upsert_ins hk2.ok ((hk2.activeTree ▸ hh).keeps hk2) hfits hv ?_ hs⟩
      rw [length_gefsPackdval hv']
      exact (kv2dir_name hd).1
    refine ⟨⟨c, hr⟩, ⟨k, hk, meets_entryOp hok hh hn hf hg hq hname hk, ?_⟩, ?_⟩
    · intro op ctx' hrun k' hk'
      obtain ⟨v', -, hok', hh'⟩ := hafter op ctx' hrun
      rw [lookedUp_eq hok' hh', lookedUp_eq hok hh, look_ins hh.asc, if_neg hk']
    · intro op ctx' hrun
      obtain ⟨v', hv', hok', hh'⟩ := hafter op ctx' hrun
      have hd' : gefsKv2dir (k, v') = some (op.shown f.dir) := by
        rw [gefsKv2dir_gefsPackdval k hv', ← (kv2dir_name hd).2, ← (op.shown_eq f.dir).2]
      obtain ⟨c3, -, hwalk⟩ := @run_walkFound _ ctx' .active hok' hh' (entryPath dir n) zeroXdir
      have hself : look (ins es k v') k = some v' := by rw [look_ins hh.asc, if_pos rfl]
      have hothers : ∀ k' ≠ k, look (ins es k v') k' = look es k' := fun k' hk' => by
        rw [look_ins hh.asc, if_neg hk']
      have hfind := findPath_changed hself hd' hothers hv hd rfl hf
      rw [hfind] at hwalk
      have hch : f.changed k (op.shown f.dir) = { f with dir := op.shown f.dir } := if_pos hk
      rw [hch] at hwalk
      exact ⟨c3, hwalk⟩

end Agree

/-! ## Two paths -/

/-- A walk from a root directory that is there. -/
theorem findPath_eq {es : List GefsKvp} {v : Bytes} {d : GefsXdir} (hv : look es rootKey = some v)
    (hd : gefsKv2dir (rootKey, v) = some d) (path : Bytes) :
    findPath es path = findElems es (pathElems path) ⟨-1, [], d⟩ := by
  have hroot : find1 es (-1) [] = some (.ok d) :=
    find1_eq_ok.2 ⟨rootKey, v, by decide +kernel, hv, hd⟩
  unfold findPath
  rw [hroot]
  rfl

/-- The root directory of a leaf is found at its own key. -/
theorem findPath_root {es : List GefsKvp} {v : Bytes} {d : GefsXdir} (hv : look es rootKey = some v)
    (hd : gefsKv2dir (rootKey, v) = some d) {path : Bytes} (hp : pathElems path = []) :
    findPath es path = some (.ok ⟨-1, [], d⟩) := by
  rw [findPath_eq hv hd, hp]
  rfl

/-- An entry that is not in the root directory. -/
theorem findPath_enoent {es : List GefsKvp} {v n k : Bytes} {d : GefsXdir}
    (hv : look es rootKey = some v) (hd : gefsKv2dir (rootKey, v) = some d) {path : Bytes}
    (hp : pathElems path = [n]) (hn : n ≠ [dot])
    (hk : gefsPackdkey gefsKeymax d.qid.path.toInt64 (some n) = some k) (hl : look es k = none) :
    findPath es path = some (.error .enoent) := by
  rw [findPath_eq hv hd, hp, findElems, if_neg hn, find1, hk]
  dsimp only
  rw [hl]
  rfl

/-- A leaf read from a disk of one block. -/
theorem treeHolds_leaf {es : List GefsKvp} (hf : Fits es) (ha : Ascending es) (hs : Small es) :
    ∃ ctx, CtxOk ctx ∧ TreeHolds ctx ctx.activeTree es := by
  obtain ⟨b, -, hb, -⟩ := reamLeaf_spec hf 0
  refine ⟨diskCtx ⟨16384, b.buf⟩ 0 { zeroTree with ht := 1 }, diskCtx_ok _ _ _, rfl, ?_, ha, hs⟩
  have hp : (⟨16384, b.buf⟩ : Disk).pread 0 = some ((⟨16384, b.buf⟩ : Disk).window 0) :=
    if_pos ⟨by decide, by show 0 + gefsBlksz ≤ 16384; decide⟩
  refine held_diskCtx hp (isLeaf_parseBlk (hb.congr fun i hi => ?_))
  unfold withTail Disk.window
  rw [if_pos hi, Nat.zero_add]

/-- The file of the users in the tree of `adm`. -/
theorem pathAgrees_users : ∃ ctx f ctx1,
    run sysStep (walkFound .active (entryPath [] usersName) zeroXdir) ctx = some (.ok f, ctx1)
      ∧ PathAgrees ctx (entryPath [] usersName) f := by
  have hfits := fits_admEs ⟨0, 0, 0⟩ 0
  obtain ⟨ctx, hok, hh⟩ :=
    treeHolds_leaf hfits (ascending_admEs ⟨0, 0, 0⟩ 0) (small_admEs ⟨0, 0, 0⟩ 0)
  have hfind : ∃ f, findPath (admEs ⟨0, 0, 0⟩ 0) (entryPath [] usersName) = some (.ok f) := by
    have h : ((findPath (admEs ⟨0, 0, 0⟩ 0) (entryPath [] usersName)).any fun r => r.isOk) = true := by
      decide +kernel
    rcases hr : findPath (admEs ⟨0, 0, 0⟩ 0) (entryPath [] usersName) with _ | _ | f
    · rw [hr] at h
      cases h
    · rw [hr] at h
      cases h
    · exact ⟨f, rfl⟩
  obtain ⟨f, hf⟩ := hfind
  obtain ⟨ctx1, -, hw⟩ := @run_walkFound _ ctx .active hok hh (entryPath [] usersName) zeroXdir
  rw [hf] at hw
  refine ⟨ctx, f, ctx1, hw, ?_⟩
  exact (pathAgrees_iff hok hh hfits (by decide) hw).2 (.inl (by decide))

/-- The root directory's own path splits into the root directory and an empty name. -/
theorem not_forall_pathAgrees :
    ¬ ∀ (user : Bytes) (d d' : Disk) (fuel : ℕ) (readonly : Bool) (heap : ℕ → Mem)
      (ctx ctx1 : GefsCtx) (dir n : Bytes) (f : Found), mkfs user d = some d' →
      gefsFsOpen fuel d' readonly heap = some (.ok ctx) → slash ∉ n →
      run sysStep (walkFound .active (entryPath dir n) zeroXdir) ctx = some (.ok f, ctx1) →
      PathAgrees ctx (entryPath dir n) f := by
  intro h
  obtain ⟨d', r, a, u, tb, nu, bps, ctx, hm, -, hopen, ho, -⟩ := mount_blank
  obtain ⟨d, hd, hq⟩ : ∃ d, gefsKv2dir (rootKey, rootVal qmainroot) = some d ∧ d.qid.path = 0 :=
    ⟨_, rfl, by decide +kernel⟩
  have hv : look mainEs rootKey = some (rootVal qmainroot) := by decide +kernel
  have hf := findPath_root hv hd (show pathElems (entryPath [] []) = [] by decide)
  have hg := findPath_root hv hd (show pathElems [slash] = [] by decide)
  obtain ⟨ctx1, -, hw⟩ := @run_walkFound _ ctx .active ho.ok ho.main (entryPath [] []) zeroXdir
  rw [hf] at hw
  obtain ⟨⟨c, hpair⟩, -, -⟩ := h _ _ _ _ _ _ ctx ctx1 [] [] _ hm hopen (by decide) hw
  obtain ⟨c', hr⟩ := @run_parentKey _ ctx [] [] _ ho.ok ho.main (by decide) hg
  have he := Except.ok.inj (Prod.mk.inj (Option.some.inj (hr.symm.trans hpair))).1
  have hqid := (Prod.mk.inj he).1
  dsimp only at hqid
  rw [hq] at hqid
  revert hqid
  decide

end GefsFuse
