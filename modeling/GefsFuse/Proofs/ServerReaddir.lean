import GefsFuse.Proofs.ServerSweep
import GefsFuse.Server.Readdir

/-!
# A directory read in pages

A read that is answered ends at the end of the scan or at an entry it has no room for. The next one
begins with that entry and goes on behind it, in whatever tree is mounted by then. So over all reads
the names ascend, and a name that is there throughout is listed once (`readdir_pages`).
-/

namespace GefsFuse.Server

open ByteMem SortedMap

/-- A tree that a directory is read from: the messages on every key apply to what is below them, and
no clear is all there is on an entry's key. -/
structure DirTree (get : GefsBptr → Option Content) (t : GefsTree) (n : ℕ) (T : Beps n) : Prop where
  ht : t.ht.toInt = n + 1
  blocks : TreeIn get n T t.bp
  ordered : Ordered n T none none
  peopled : n ≠ 0 → Peopled n T
  scannable : Scannable n T
  applies : ∀ k, ∃ v, serverGet gefsKvmax n T k = some v
  cleared : ∀ k, [gefsKent] <+: k → ¬ LoneClear n T k

def DirRead.Sound (r : DirRead) : Prop := ∃ n T, DirTree r.get r.t n T

theorem dirPfx_eq (q : UInt64) : dirPfx q = pack8 gefsKent ++ pack64 q := by
  simp [dirPfx, gefsPackdkey]

theorem kent_dirPfx (q : UInt64) : [gefsKent] <+: dirPfx q := by
  rw [dirPfx_eq]
  exact ⟨pack64 q, rfl⟩

theorem found_eq_none {ap : GefsKvp → GefsMsg → Option (Bool × GefsKvp)} {l : List GefsMsg}
    {k : Bytes} (h : ∀ m ∈ l, m.k ≠ k) : found ap l k = none := by
  have hnil : l.filter (·.k = k) = [] := List.filter_eq_nil_iff.2 fun m hm => by simpa using h m hm
  rw [found, onKey, hnil]
  rfl

section Next

variable {get : GefsBptr → Option Content} {pfx : Bytes} {n : ℕ} {T : Beps n} {bp : GefsBptr}
  {lo hi : Option Bytes}

/-- The next pair is the one under the least key left that has one. -/
theorem btnext_spec (hin : TreeIn get n T bp) (ho : Ordered n T lo hi) (hpe : n ≠ 0 → Peopled n T) :
    ∀ {fuel : ℕ} {P : Bytes → Bool} {path : List Scanp} {r : Option (GefsKvp × List Scanp)},
      Stands P n T path → (∀ k, P k = true → pfx ≤ k) → btnext get pfx fuel path = some r →
      match r with
      | none => ∀ k, pfx <+: k → P k = true → found scanApply (allOps n T) k = none
      | some (kv, path') => pfx <+: kv.1 ∧ P kv.1 = true
        ∧ found scanApply (allOps n T) kv.1 = some kv ∧ Stands (past P kv.1) n T path'
        ∧ ∀ k, pfx <+: k → P k = true → k < kv.1 → found scanApply (allOps n T) k = none
  | 0, _, _, _, _, _, h => by cases h
  | fuel + 1, P, path, r, hst, hP, h => by
    rw [btnext] at h
    obtain ⟨x, hx, h⟩ := Option.bind_eq_some_iff.1 h
    rcases turn_cases pfx hin ho hpe keepsKey_scanApply hst with ⟨hno, ht⟩ | ⟨-, -, ht⟩
      | ⟨-, m, hm, hPm, hle, path', hst', ht⟩
    · rw [ht] at hx
      obtain rfl := Option.some.inj hx
      obtain rfl := Option.some.inj h
      intro k _ hk
      refine found_eq_none fun m hm he => ?_
      rw [← he, hno m hm] at hk
      cases hk
    · rw [ht] at hx
      cases hx
    · -- nothing is on a key before the least one
      have hbelow : ∀ k, P k = true → k < m.k → found scanApply (allOps n T) k = none := by
        intro k hk hlt
        refine found_eq_none fun x hx he => ?_
        subst he
        exact (hle x hx hk).not_gt hlt
      rw [ht] at hx
      by_cases hpre : pfx.isPrefixOf m.k = true
      · rw [if_pos hpre] at hx
        obtain ⟨-, -, hx⟩ := Option.bind_eq_some_iff.1 hx
        obtain ⟨⟨ok, kv⟩, hr, rfl⟩ := Option.map_eq_some_iff.1 hx
        have hfound : found scanApply (allOps n T) m.k = if ok then some kv else none := by
          rw [found, hr, Option.bind_some]
        rcases ok with _ | _
        · have hst'' : ∀ k, past P m.k k = true → pfx ≤ k := fun k hk => hP k (by
            simp only [past, Bool.and_eq_true] at hk
            exact hk.1)
          have ih := btnext_spec hin ho hpe hst' hst'' h
          have hmore : ∀ k, P k = true → k ≠ m.k → ¬ k < m.k → past P m.k k = true := by
            intro k hk hne hlt
            simp only [past, Bool.and_eq_true, decide_eq_true_eq]
            exact ⟨hk, lt_of_le_of_ne (not_lt.1 hlt) hne.symm⟩
          rcases r with _ | ⟨kv', path''⟩
          · intro k hp hk
            by_cases heq : k = m.k
            · rw [heq, hfound]
              rfl
            · by_cases hlt : k < m.k
              · exact hbelow k hk hlt
              · exact ih k hp (hmore k hk heq hlt)
          · obtain ⟨h1, h2, h3, h4, h5⟩ := ih
            have h2' := h2
            simp only [past, Bool.and_eq_true, decide_eq_true_eq] at h2'
            refine ⟨h1, h2'.1, h3, h4.congr fun x _ => ?_, fun k hp hk hlt => ?_⟩
            · simp only [past, Bool.and_assoc]
              congr 1
              rw [← Bool.decide_and, decide_eq_decide]
              exact ⟨fun h => h.2, fun h => ⟨h2'.2.trans h, h⟩⟩
            · by_cases heq : k = m.k
              · rw [heq, hfound]
                rfl
              · by_cases hlt' : k < m.k
                · exact hbelow k hk hlt'
                · exact h5 k hp (hmore k hk heq hlt') hlt
        · obtain rfl := Option.some.inj h
          have hkey : kv.1 = m.k := keepsKey_scanApply.found hfound
          rw [← hkey] at hfound hPm hst' hbelow hpre
          exact ⟨List.isPrefixOf_iff_prefix.1 hpre, hPm, hfound, hst', fun k _ => hbelow k⟩
      · rw [if_neg hpre] at hx
        obtain rfl := Option.some.inj hx
        obtain rfl := Option.some.inj h
        intro k hp hk
        refine found_eq_none fun x hx he => ?_
        subst he
        rcases (hle x hx hk).lt_or_eq with hlt | heq
        · exact not_prefix_of_lt (hP _ hPm) hpre hlt (List.isPrefixOf_iff_prefix.2 hp)
        · rw [heq] at hpre
          exact hpre (List.isPrefixOf_iff_prefix.2 hp)

end Next

/-! ## One read -/

section Read

variable {get : GefsBptr → Option Content} {t : GefsTree} {pfx k : Bytes} {n : ℕ} {T : Beps n}
  {kv : GefsKvp} {us : Users} {q : UInt64}

namespace DirTree

variable (h : DirTree get t n T)
include h

theorem btlookup {v : Option Bytes} (hv : serverGet gefsKvmax n T k = some v) :
    Server.btlookup get t k gefsKvmax = some (v.map (k, ·)) := by
  refine btlookup_tree h.ht h.blocks h.ordered (fun w hw => ?_) hv
  have hmem : pairMsg (k, w) ∈ (allOps n T).filter (·.k = k) := by
    rw [allOps_filter h.ordered, hw]
    simp
  exact h.scannable _ (List.mem_filter.1 hmem).1

/-- On an entry the scan finds what the lookup does. -/
theorem found_iff (hk : [gefsKent] <+: k) :
    found scanApply (allOps n T) k = some kv
      ↔ Server.btlookup get t k gefsKvmax = some (some kv) := by
  obtain ⟨v, hv⟩ := h.applies k
  rw [h.btlookup hv, Option.some.injEq]
  by_cases hex : ∃ m ∈ allOps n T, m.k = k
  · obtain ⟨r, hr, hrep, -⟩ := onKey_rep h.ordered hv hex
    obtain ⟨h1, h2⟩ := hrep (h.cleared k hk)
    rw [found, hr, Option.bind_some]
    rcases v with _ | v
    · rw [show r.1 = false from h1]
      simp
    · rw [show r.1 = true from h1, if_pos rfl, show r.2 = (k, v) from Option.some.inj (h2 v rfl),
        Option.map_some]
  · have hnone : v = none := by
      rcases v with _ | v
      · rfl
      · exact absurd (mem_of_serverGet h.ordered hv) hex
    rw [found_eq_none fun m hm he => hex ⟨m, hm, he⟩, hnone]
    simp

end DirTree

/-- The scan is done, or at a key above `k`. -/
def DirScan.Past (s : DirScan) (k : Bytes) : Prop := s.donescan = true ∨ k < s.kv.1

theorem kv2statbuf_length {room : ℤ} {b : Bytes} (h : kv2statbuf us kv room = some (.ok (some b))) :
    (b.length : ℤ) ≤ room := by
  obtain ⟨d, -, h⟩ := Option.map_eq_some_iff.1 h
  simp only [dir2statbuf] at h
  split at h
  case h_1 =>
    split_ifs at h with hlt
    · cases h
    · obtain rfl := Option.some.inj (Except.ok.inj h)
      simp [pbit, statfixlen] at hlt ⊢
      omega
  case h_2 => cases h

/-- The entries of one read from the cursor on: all of them that the scan is past, in order. -/
theorem readEntries_spec (h : DirTree get t n T) (hpfx : [gefsKent] <+: pfx) :
    ∀ {fuel : ℕ} {P : Bytes → Bool} {path : List Scanp} {room : ℤ} {s s' : DirScan}
      {bs : List Bytes}, Stands P n T path → (∀ k, P k = true → pfx ≤ k) →
      s.donescan = false → readEntries us get pfx fuel path room s = some (.ok bs, s') →
      ∃ es : List GefsKvp, List.Forall₂ (Packed us) es bs ∧ es.Pairwise (·.1 < ·.1)
        ∧ (∀ e ∈ es, pfx <+: e.1 ∧ P e.1 = true
          ∧ Server.btlookup get t e.1 gefsKvmax = some (some e) ∧ s'.Past e.1)
        ∧ (∀ k kv, pfx <+: k → P k = true → s'.Past k →
          Server.btlookup get t k gefsKvmax = some (some kv) → kv ∈ es)
        ∧ s'.first = s.first ∧ (0 ≤ room → ((bs.map List.length).sum : ℤ) ≤ room)
        ∧ (s'.donescan = false → s'.overflow = true ∧ pfx <+: s'.kv.1 ∧ P s'.kv.1 = true
          ∧ Server.btlookup get t s'.kv.1 gefsKvmax = some (some s'.kv))
  | 0, _, _, _, _, _, _, _, _, _, hr => by cases hr
  | fuel + 1, P, path, room, s, s', bs, hst, hP, hs, hr => by
    have hent : ∀ {k}, pfx <+: k → [gefsKent] <+: k := fun hk => hpfx.trans hk
    rw [readEntries] at hr
    obtain ⟨x, hx, hr⟩ := Option.bind_eq_some_iff.1 hr
    have hnext := btnext_spec h.blocks h.ordered h.peopled hst hP hx
    rcases x with _ | ⟨kv, path'⟩
    · simp only [Option.some.injEq, Prod.mk.injEq, Except.ok.injEq] at hr
      obtain ⟨rfl, rfl⟩ := hr
      refine ⟨[], .nil, .nil, by simp, fun k kv hk hPk _ hl => ?_, rfl, by simp, by simp⟩
      rw [← h.found_iff (hent hk), hnext k hk hPk] at hl
      cases hl
    · obtain ⟨hkp, hPk, hfound, hst', hbelow⟩ := hnext
      have hlook := (h.found_iff (hent hkp)).1 hfound
      obtain ⟨y, hy, hr⟩ := Option.bind_eq_some_iff.1 hr
      rcases y with e | _ | b
      · simp at hr
      · simp only [Option.some.injEq, Prod.mk.injEq, Except.ok.injEq] at hr
        obtain ⟨rfl, rfl⟩ := hr
        refine ⟨[], .nil, .nil, by simp, fun k kv' hk hPk' hpast hl => ?_, rfl,
          by simp, fun _ => ⟨rfl, hkp, hPk, hlook⟩⟩
        rcases hpast with hd | hlt
        · rw [show s.donescan = true from hd] at hs
          cases hs
        · rw [← h.found_iff (hent hk), hbelow k hk hPk' hlt] at hl
          cases hl
      · obtain ⟨⟨r, s₁⟩, hrec, hr⟩ := Option.bind_eq_some_iff.1 hr
        simp only [Option.some.injEq, Prod.mk.injEq] at hr
        obtain ⟨hr, rfl⟩ := hr
        rcases r with e | bs'
        · cases hr
        obtain rfl := Except.ok.inj hr
        have hs' : ({ s with kv := kv } : DirScan).donescan = false := hs
        have hP' : ∀ k, past P kv.1 k = true → P k = true ∧ kv.1 < k := fun k hk => by
          simpa [past] using hk
        obtain ⟨es, hpk, hord, hmem, hall, hfirst, hfit, hend⟩ :=
          readEntries_spec h hpfx hst' (fun k hk => hP k (hP' k hk).1) hs' hrec
        refine ⟨kv :: es, .cons ⟨room, hy⟩ hpk, List.pairwise_cons.2
          ⟨fun e he => (hP' _ (hmem e he).2.1).2, hord⟩, ?_, fun k kv' hk hPk' hpast hl => ?_,
          hfirst, fun _ => ?_, fun hd => ?_⟩
        · rw [List.forall_mem_cons]
          refine ⟨⟨hkp, hPk, hlook, ?_⟩, fun e he => ?_⟩
          · rcases hd : s₁.donescan with _ | _
            · exact .inr (hP' _ (hend hd).2.2.1).2
            · exact .inl hd
          · obtain ⟨h1, h2, h3⟩ := hmem e he
            exact ⟨h1, (hP' _ h2).1, h3⟩
        · rcases lt_trichotomy k kv.1 with hlt | rfl | hlt
          · rw [← h.found_iff (hent hk), hbelow k hk hPk' hlt] at hl
            cases hl
          · rw [hlook, Option.some.injEq, Option.some.injEq] at hl
            exact hl ▸ List.mem_cons_self
          · exact List.mem_cons_of_mem _ (hall k kv' hk (by simp [past, hPk', hlt]) hpast hl)
        · have hb := kv2statbuf_length hy
          have := hfit (by omega)
          simp only [List.map_cons, List.sum_cons]
          omega
        · obtain ⟨h1, h2, h3, h4⟩ := hend hd
          exact ⟨h1, h2, (hP' _ h3).1, h4⟩

/-- What the next read goes on from: a new scan, a scan that is done, or one that has an entry left
which the directory held at the read before. -/
structure Resumes (q : UInt64) (prev : GefsKvp → Prop) (s : DirScan) : Prop where
  fresh : s.first = true → s = newscan (dirPfx q)
  left : s.first = false → s.donescan = false →
    s.overflow = true ∧ dirPfx q <+: s.kv.1 ∧ prev s.kv

theorem resumes_newscan (prev : GefsKvp → Prop) : Resumes q prev (newscan (dirPfx q)) :=
  ⟨fun _ => rfl, fun h => absurd h (by simp [newscan])⟩

theorem Resumes.le {prev : GefsKvp → Prop} {s : DirScan} (h : Resumes q prev s)
    (hd : s.donescan = false) : dirPfx q ≤ s.kv.1 := by
  rcases hf : s.first with _ | _
  · exact prefix_le (h.left hf hd).2.1
  · rw [h.fresh hf]
    exact le_rfl

/-- An answered read of a scan that is not done. -/
theorem readdir_spec {r : DirRead} (hr : r.Sound) {prev : GefsKvp → Prop} {s s' : DirScan}
    {page : List Bytes} (hs : Resumes q prev s) (hd : s.donescan = false)
    (hoff : r.offset = 0 → s = newscan (dirPfx q))
    (h : readdir r.us r.get (dirPfx q) r.t r.fuel (some s) r.offset r.count
      = some (.ok page, s')) :
    ∃ es : List GefsKvp, List.Forall₂ (Packed r.us) es page ∧ es.Pairwise (·.1 < ·.1)
      ∧ (∀ e ∈ es, (r.Holds q e ∨ prev e) ∧ s.kv.1 ≤ e.1 ∧ s'.Past e.1)
      ∧ (page.map List.length).sum ≤ r.count
      ∧ (∀ k, dirPfx q <+: k → s.kv.1 ≤ k → s'.Past k → (∃ v, r.Holds q (k, v)) →
        ∃ e ∈ es, e.1 = k)
      ∧ Resumes q (r.Holds q) s' ∧ (s'.donescan = false → s.kv.1 ≤ s'.kv.1) := by
  obtain ⟨n, T, hT⟩ := hr
  have hscan : (if r.offset = 0 then newscan (dirPfx q) else s) = s := by
    split_ifs with h0
    · exact (hoff h0).symm
    · rfl
  unfold readdir at h
  simp only [hscan, hd, Bool.false_eq_true, if_false] at h
  obtain ⟨x, hx, h⟩ := Option.bind_eq_some_iff.1 h
  rcases x with e | bs
  · simp at h
  obtain ⟨path, hpath, h⟩ := Option.bind_eq_some_iff.1 h
  obtain ⟨⟨x, s₁⟩, hread, h⟩ := Option.bind_eq_some_iff.1 h
  simp only [Option.some.injEq, Prod.mk.injEq] at h
  obtain ⟨h, rfl⟩ := h
  rcases x with e | bs'
  · cases h
  obtain rfl := Except.ok.inj h
  obtain ⟨path', hpath', hst⟩ := entered_spec hT.ht hT.blocks hT.ordered hT.peopled s.kv.1 s.first
  obtain rfl := Option.some.inj (hpath.symm.trans hpath')
  have hle : ∀ k, entered s.kv.1 s.first k = true → s.kv.1 ≤ k := by
    intro k hk
    by_contra hlt
    rw [entered_eq_false (not_le.1 hlt)] at hk
    cases hk
  obtain ⟨es, hpk, hord, hmem, hall, hfirst, hfit, hend⟩ := readEntries_spec hT (kent_dirPfx q) hst
    (fun k hk => (hs.le hd).trans (hle k hk)) rfl hread
  have hres : Resumes q (r.Holds q) s₁ := ⟨fun hf => absurd (hfirst ▸ hf) (by simp),
    fun _ hd' => ⟨(hend hd').1, (hend hd').2.1, (hend hd').2.1, (hend hd').2.2.2⟩⟩
  have hto : s₁.donescan = false → s.kv.1 ≤ s₁.kv.1 := fun hd' => hle _ (hend hd').2.2.1
  have hone : ∀ e ∈ es, (r.Holds q e ∨ prev e) ∧ s.kv.1 ≤ e.1 ∧ s₁.Past e.1 := fun e he =>
    ⟨.inl ⟨(hmem e he).1, (hmem e he).2.2.1⟩, hle _ (hmem e he).2.1, (hmem e he).2.2.2⟩
  have hlook : ∀ {k v}, r.Holds q (k, v) → (k, v) ∈ es ∨ entered s.kv.1 s.first k = false
      ∨ ¬ s₁.Past k := by
    intro k v ⟨hk, hl⟩
    by_cases hp : s₁.Past k
    · rcases he : entered s.kv.1 s.first k with _ | _
      · exact .inr (.inl rfl)
      · exact .inl (hall k (k, v) hk he hp hl)
    · exact .inr (.inr hp)
  rcases hf : s.first with _ | _
  · -- the entry the read before had no room for comes first
    obtain ⟨hov, hpre, hprev⟩ := hs.left hf hd
    rw [pending, if_pos hov] at hx
    obtain ⟨y, hy, hx⟩ := Option.map_eq_some_iff.1 hx
    rcases y with e | _ | b
    · cases hx
    · cases hx
    obtain rfl := Except.ok.inj hx
    have hlt : ∀ k, entered s.kv.1 s.first k = true ↔ s.kv.1 < k := by
      intro k
      simp [hf, entered]
    have hpast : s₁.Past s.kv.1 := by
      rcases hd' : s₁.donescan with _ | _
      · exact .inr ((hlt _).1 (hend hd').2.2.1)
      · exact .inl hd'
    refine ⟨s.kv :: es, .cons ⟨_, hy⟩ hpk, List.pairwise_cons.2
      ⟨fun e he => (hlt _).1 (hmem e he).2.1, hord⟩, ?_, ?_, fun k _ hk hp ⟨v, hv⟩ => ?_, hres, hto⟩
    · rw [List.forall_mem_cons]
      exact ⟨⟨.inr hprev, le_rfl, hpast⟩, hone⟩
    · have hb := kv2statbuf_length hy
      simp only [List.map_cons, List.map_nil, List.sum_cons, List.sum_nil] at hfit
      have := hfit (by omega)
      simp only [List.singleton_append, List.map_cons, List.sum_cons]
      omega
    · rcases hk.lt_or_eq with hlt' | rfl
      · rcases hlook hv with he | he | he
        · exact ⟨_, List.mem_cons_of_mem _ he, rfl⟩
        · rw [(hlt k).2 hlt'] at he
          cases he
        · exact absurd hp he
      · exact ⟨_, List.mem_cons_self, rfl⟩
  · have hov : s.overflow = false := by
      rw [hs.fresh hf]
      rfl
    rw [pending, if_neg (by simp [hov])] at hx
    obtain rfl := Except.ok.inj (Option.some.inj hx)
    simp only [List.map_nil, List.sum_nil, Nat.cast_zero, sub_zero] at hfit
    refine ⟨es, hpk, hord, hone, ?_, fun k _ hk hp ⟨v, hv⟩ => ?_, hres, hto⟩
    · exact_mod_cast hfit (by omega)
    rcases hlook hv with he | he | he
    · exact ⟨_, he, rfl⟩
    · simp [hf, entered, hk] at he
    · exact absurd hp he

end Read

/-! ## All reads -/

section Reads

variable {q : UInt64}

/-- A scan that is done has nothing for the reads that are left. -/
theorem readdir_done {r : DirRead} {s : DirScan} (hd : s.donescan = true) (hoff : r.offset ≠ 0) :
    readdir r.us r.get (dirPfx q) r.t r.fuel (some s) r.offset r.count = some (.ok [], s) := by
  simp only [readdir, if_neg hoff, hd, if_true]

theorem readAll_cons {r : DirRead} {rs : List DirRead} {s : Option DirScan}
    {x : List (List Bytes) × Option DirScan} (h : readAll q (r :: rs) s = some x) :
    ∃ page s₁ pages, readdir r.us r.get (dirPfx q) r.t r.fuel s r.offset r.count
        = some (.ok page, s₁) ∧ readAll q rs (some s₁) = some (pages, x.2) ∧ x.1 = page :: pages := by
  rw [readAll] at h
  split at h
  case h_1 page s₁ hr =>
    obtain ⟨y, hy, rfl⟩ := Option.map_eq_some_iff.1 h
    exact ⟨page, s₁, y.1, hr, hy, rfl⟩
  case h_2 => cases h

/-- The reads that go on from `s`. -/
theorem readAll_spec : ∀ {rs : List DirRead} {prev : GefsKvp → Prop} {s : DirScan}
    {pages : List (List Bytes)} {s' : Option DirScan}, (∀ r ∈ rs, r.Sound) → Resumes q prev s →
    (∀ r ∈ rs.head?, r.offset = 0 → s = newscan (dirPfx q)) → (∀ r ∈ rs.tail, r.offset ≠ 0) →
    readAll q rs (some s) = some (pages, s') →
    ∃ ess s₁, s' = some s₁ ∧ Fetched q prev rs ess pages ∧ ess.flatten.Pairwise (·.1 < ·.1)
      ∧ (∀ e ∈ ess.flatten, s.donescan = false ∧ s.kv.1 ≤ e.1)
      ∧ (s.donescan = false → ∀ k, dirPfx q <+: k → s.kv.1 ≤ k → s₁.Past k →
        (∀ r ∈ rs, ∃ v, r.Holds q (k, v)) → ∃ e ∈ ess.flatten, e.1 = k)
  | [], prev, s, pages, s', _, _, _, _, h => by
    simp only [readAll, Option.some.injEq, Prod.mk.injEq] at h
    obtain ⟨rfl, rfl⟩ := h
    refine ⟨[], s, rfl, trivial, .nil, by simp, fun hd k _ hk hp _ => ?_⟩
    rcases hp with hd' | hlt
    · rw [hd] at hd'
      cases hd'
    · exact absurd hk hlt.not_ge
  | r :: rs, prev, s, pages, s', hr, hs, hhead, htail, h => by
    rw [List.forall_mem_cons] at hr
    obtain ⟨page, s₁, pages, hread, hrest, rfl⟩ := readAll_cons h
    have hhead' : ∀ r ∈ rs.head?, r.offset = 0 → s₁ = newscan (dirPfx q) := fun r hr h0 =>
      absurd h0 (htail r (List.mem_of_mem_head? hr))
    have htail' : ∀ r ∈ rs.tail, r.offset ≠ 0 := fun r hr => htail r (List.mem_of_mem_tail hr)
    have hoff : r.offset = 0 → s = newscan (dirPfx q) := hhead r rfl
    rcases hd : s.donescan with _ | _
    · obtain ⟨es, hpk, hord, hmem, hfit, hall, hres, hto⟩ := readdir_spec hr.1 hs hd hoff hread
      obtain ⟨ess, s₂, rfl, hf, hords, hmems, halls⟩ :=
        readAll_spec hr.2 hres hhead' htail' hrest
      refine ⟨es :: ess, s₂, rfl, ⟨hpk, fun e he => (hmem e he).1, hfit, hf⟩, ?_, ?_, ?_⟩
      · rw [List.flatten_cons, List.pairwise_append]
        refine ⟨hord, hords, fun e he e' he' => ?_⟩
        obtain ⟨hd', hle⟩ := hmems e' he'
        rcases (hmem e he).2.2 with hp | hlt
        · rw [hd'] at hp
          cases hp
        · exact hlt.trans_le hle
      · intro e he
        rcases List.mem_append.1 (List.flatten_cons ▸ he) with he | he
        · exact ⟨rfl, (hmem e he).2.1⟩
        · obtain ⟨hd', hle⟩ := hmems e he
          exact ⟨rfl, (hto hd').trans hle⟩
      · intro _ k hk hle hp hin
        rw [List.forall_mem_cons] at hin
        by_cases hp₁ : s₁.Past k
        · obtain ⟨e, he, hek⟩ := hall k hk hle hp₁ hin.1
          exact ⟨e, List.mem_append_left _ he, hek⟩
        · have hp₁ := not_or.1 hp₁
          obtain ⟨e, he, hek⟩ := halls (by simpa using hp₁.1) k hk (not_lt.1 hp₁.2) hp hin.2
          exact ⟨e, List.mem_append_right _ he, hek⟩
    · have h0 : r.offset ≠ 0 := by
        intro h0
        rw [hoff h0] at hd
        cases hd
      rw [readdir_done hd h0, Option.some.injEq, Prod.mk.injEq, Except.ok.injEq] at hread
      obtain ⟨rfl, rfl⟩ := hread
      have hres : Resumes q (r.Holds q) s := by
        refine ⟨hs.fresh, fun _ hd' => ?_⟩
        rw [hd] at hd'
        cases hd'
      obtain ⟨ess, s₂, rfl, hf, hords, hmems, -⟩ := readAll_spec hr.2 hres hhead' htail' hrest
      refine ⟨[] :: ess, s₂, rfl, ⟨.nil, by simp, by simp, hf⟩, hords, fun e he => ?_, by simp⟩
      rw [hd] at hmems
      exact hmems e he

/-- Over the reads of a fid from its first on, each page fits and has entries that the directory
held at the read or at the one before it, the names ascend, and a name that it held at every read
is among them as soon as the scan is past it. -/
theorem readdir_pages {rs : List DirRead} {pages : List (List Bytes)} {s : Option DirScan}
    (hr : ∀ r ∈ rs, r.Sound) (hoff : ∀ r ∈ rs.tail, r.offset ≠ 0)
    (h : readAll q rs none = some (pages, s)) :
    ∃ ess, Fetched q (fun _ => False) rs ess pages ∧ ess.flatten.Pairwise (·.1 < ·.1)
      ∧ ∀ d ∈ s, ∀ k, dirPfx q <+: k → d.Past k → (∀ r ∈ rs, ∃ v, r.Holds q (k, v)) →
        ∃ e ∈ ess.flatten, e.1 = k := by
  rcases rs with _ | ⟨r, rs⟩
  · simp only [readAll, Option.some.injEq, Prod.mk.injEq] at h
    obtain ⟨rfl, rfl⟩ := h
    exact ⟨[], trivial, .nil, by simp⟩
  · -- a fid with no scan begins a new one
    have hnew : readAll q (r :: rs) (some (newscan (dirPfx q))) = some (pages, s) := by
      rw [← h]
      simp [readAll, readdir]
    obtain ⟨ess, s₁, rfl, hf, hord, -, hall⟩ := readAll_spec hr (resumes_newscan _)
      (fun _ _ _ => rfl) hoff hnew
    refine ⟨ess, hf, hord, fun d hd k hk hp hin => ?_⟩
    obtain rfl := Option.some.inj hd
    exact hall rfl k hk (prefix_le hk) hp hin

end Reads

/-! ## A directory that changes between two reads -/

section Changing

def fileKvp (c : UInt8) : GefsKvp :=
  ((gefsPackdkey 16 5 (some [c])).getD [], List.replicate xdirsz 0)

def dirPtr : GefsBptr := ⟨16384, 0, 5⟩

def dirLeaf (es : List GefsKvp) : Btree.Node := ⟨dirPtr, false, es, []⟩

def dirGet (es : List GefsKvp) (bp : GefsBptr) : Option Content :=
  if bp = dirPtr then some (dirLeaf es).content else none

def dirUsers : Users := ⟨[⟨0, 0, [], [97]⟩], 0, 0⟩

/-- A read with room for one entry. -/
def dirOneRead (es : List GefsKvp) (offset : ℕ) : DirRead :=
  ⟨dirGet es, { zeroTree with ht := 1, bp := dirPtr }, dirUsers, 3, offset, 60⟩

theorem sound_dirOneRead {es : List GefsKvp} {offset : ℕ} (hf : (dirLeaf es).Fits)
    (ha : Ascending es) (hlen : ∀ e ∈ es, e.1.length + e.2.length ≤ gefsKvmax) :
    (dirOneRead es offset).Sound := by
  have hget : dirGet es dirPtr = some (dirLeaf es).content := if_pos rfl
  refine ⟨0, es, rfl, ⟨_, hget, Btree.isLeaf_content hf rfl⟩, ⟨ha, fun _ _ => ?_⟩,
    fun h => absurd rfl h, fun m hm => ?_, fun k => ⟨_, rfl⟩, ?_⟩
  · simp [InRange]
  · obtain ⟨e, he, rfl⟩ := List.mem_map.1 hm
    exact hlen e he
  · rintro k - ⟨m, hm, hop⟩
    obtain ⟨e, -, rfl⟩ := List.mem_map.1 (List.mem_filter.1 (hm ▸ List.mem_singleton_self m)).1
    simp [pairMsg] at hop

def renPtr : GefsBptr := ⟨32768, 0, 5⟩

/-- A root with a rename waiting in it: the entry of one file cleared, that of another inserted. -/
def renNode : Btree.Node :=
  ⟨renPtr, true, [((fileKvp 97).1, gefsPackbp dirPtr)],
    [⟨.oclobber, (fileKvp 97).1, [], []⟩, ⟨.oinsert, (fileKvp 99).1, (fileKvp 99).2, []⟩]⟩

def renTree : Beps 1 :=
  ([(((fileKvp 97).1, gefsPackbp dirPtr), [fileKvp 97, fileKvp 98])], renNode.read)

def renGet (bp : GefsBptr) : Option Content :=
  if bp = renPtr then some renNode.content else dirGet [fileKvp 97, fileKvp 98] bp

def dirRenRead (offset : ℕ) : DirRead :=
  ⟨renGet, { zeroTree with ht := 2, bp := renPtr }, dirUsers, 5, offset, 60⟩

theorem ascending_files : Ascending [fileKvp 97, fileKvp 98] := by
  simp only [Ascending, List.pairwise_cons]
  decide +kernel

theorem fits_files : (dirLeaf [fileKvp 97, fileKvp 98]).Fits := by
  refine ⟨?_, ?_, by simp [dirLeaf], fun _ => rfl⟩ <;> decide +kernel

theorem fits_renNode : renNode.Fits := by
  refine ⟨?_, ?_, ?_, fun h => absurd h (by decide)⟩ <;> decide +kernel

/-- Insertions that can be copied and clears apply to anything. -/
theorem foldlM_serverEff_isSome {k : Bytes} : ∀ {l : List GefsMsg} (v : Option Bytes),
    (∀ m ∈ l, m.op = .oclobber ∨ m.op = .oinsert ∧ k.length + m.v.length ≤ gefsKvmax) →
    ∃ w, l.foldlM (serverEff gefsKvmax k) v = some w
  | [], v, _ => ⟨v, rfl⟩
  | m :: l, v, h => by
    rw [List.forall_mem_cons] at h
    obtain ⟨w, hw⟩ : ∃ w, serverEff gefsKvmax k v m = some w := by
      unfold serverEff
      rcases h.1 with hop | ⟨hop, hlen⟩
      · rw [hop]
        exact ⟨none, rfl⟩
      · rw [hop]
        exact ⟨_, if_pos hlen⟩
    obtain ⟨x, hx⟩ := foldlM_serverEff_isSome w h.2
    exact ⟨x, by rw [List.foldlM_cons, hw]; exact hx⟩

theorem sound_dirRenRead (offset : ℕ) : (dirRenRead offset).Sound := by
  have hroot : renGet renPtr = some renNode.content := if_pos rfl
  have hchild : renGet dirPtr = some (dirLeaf [fileKvp 97, fileKvp 98]).content := by
    unfold renGet
    rw [if_neg (by decide)]
    exact if_pos rfl
  have hops : ∀ m ∈ renNode.read, m.op = .oclobber ∨ m.op = .oinsert
      ∧ m.k.length + m.v.length ≤ gefsKvmax := by decide +kernel
  refine ⟨1, renTree, rfl, ⟨⟨_, hroot, Btree.isPivot_content fits_renNode rfl⟩, fun c hc => ?_⟩,
    ⟨List.pairwise_singleton _ _, by simp [InRange], ?_, by simp [InRange], fun j c hj => ?_⟩,
    fun _ => ⟨by simp, by simp [Peopled]⟩, ?_, fun k => ?_, ?_⟩
  · obtain rfl := List.mem_singleton.1 hc
    exact ⟨dirPtr, by decide +kernel, _, hchild, Btree.isLeaf_content fits_files rfl⟩
  · decide +kernel
  · obtain ⟨hj', rfl⟩ := List.getElem?_eq_some_iff.1 hj
    obtain rfl : j = 0 := by simpa [renTree] using hj'
    refine ⟨ascending_files, ?_⟩
    have hle : ∀ e ∈ [fileKvp 97, fileKvp 98], (fileKvp 97).1 ≤ e.1 := by decide +kernel
    refine fun e he => ⟨fun l hl => ?_, fun x hx => by cases hx⟩
    obtain rfl : (fileKvp 97).1 = l := Option.some.inj hl
    exact hle e he
  · show ∀ m ∈ allOps 1 renTree, m.k.length + m.v.length ≤ gefsKvmax
    decide +kernel
  · refine foldlM_serverEff_isSome _ fun m hm => ?_
    have hmem : m ∈ renNode.read ∧ m.k = k := by
      rcases List.mem_append.1 hm with hm | hm
      · split at hm <;> exact absurd hm List.not_mem_nil
      · simpa using List.mem_filter.1 hm
    obtain ⟨hmem, rfl⟩ := hmem
    exact hops m hmem
  · -- the clear is on the key of an entry that is in the leaf
    rintro k - ⟨m, hm, hop⟩
    have hclear : ∀ m ∈ allOps 1 renTree, m.op = .oclearb ∨ m.op = .oclobber →
        m.k = (fileKvp 97).1 := by decide +kernel
    obtain ⟨hmem, hmk⟩ := List.mem_filter.1 (hm ▸ List.mem_singleton_self m)
    obtain rfl : m.k = k := by simpa using hmk
    have hlen : ((allOps 1 renTree).filter (·.k = (fileKvp 97).1)).length = 2 := by decide +kernel
    rw [← hclear m hmem hop, hm] at hlen
    cases hlen

/-- The first file is renamed before the second read, and the rename waits in the root. -/
def changing : List DirRead :=
  [dirOneRead [fileKvp 97, fileKvp 98] 0, dirRenRead 53, dirRenRead 106]

theorem readAll_changing : ∃ pages s, readAll 5 changing none = some (pages, s)
    ∧ pages.map List.length = [1, 1, 1] := by
  have hrun : (readAll 5 changing none).any (fun x => x.1.map List.length = [1, 1, 1]) = true := by
    decide +kernel
  obtain ⟨⟨pages, s⟩, hx, hlen⟩ := Option.any_eq_true _ _ |>.1 hrun
  exact ⟨pages, s, hx, of_decide_eq_true hlen⟩

theorem sound_changing : ∀ r ∈ changing, r.Sound := by
  simp only [changing, List.forall_mem_cons]
  exact ⟨sound_dirOneRead fits_files ascending_files (by decide +kernel), sound_dirRenRead 53,
    sound_dirRenRead 106, by simp⟩

theorem readdir_pages_changing : ∃ pages s, readAll 5 changing none = some (pages, s)
    ∧ pages.map List.length = [1, 1, 1]
    ∧ ∃ ess, Fetched 5 (fun _ => False) changing ess pages ∧ ess.flatten.Pairwise (·.1 < ·.1)
      ∧ ∀ d ∈ s, ∀ k, dirPfx 5 <+: k → d.Past k →
        (∀ r ∈ changing, ∃ v, r.Holds 5 (k, v)) → ∃ e ∈ ess.flatten, e.1 = k := by
  obtain ⟨pages, s, hrun, hlen⟩ := readAll_changing
  refine ⟨pages, s, hrun, hlen, readdir_pages sound_changing ?_ hrun⟩
  simp [changing, dirRenRead]

end Changing

end GefsFuse.Server
