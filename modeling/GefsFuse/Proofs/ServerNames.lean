import GefsFuse.Server.Namespace
import GefsFuse.Proofs.ServerRecorded

/-!
# The names of a mount stay a tree

What each kind of message does to the tree of names: a wstat leaves it alone, a create hangs a leaf
on it, a rename moves an entry within its directory with everything below it, and a removal takes a
leaf off.
-/

namespace GefsFuse.Server

open ByteMem

/-! ## The bit of a directory -/

theorem dmdir_bit (x : UInt32) : x &&& gefsDmdir ≠ 0 ↔ x.toNat.testBit 31 = true := by
  have h : (x &&& gefsDmdir).toNat = (x.toNat.testBit 31).toNat * 2 ^ 31 := by
    rw [UInt32.toNat_and, show gefsDmdir.toNat = 2 ^ 31 from rfl, Nat.and_two_pow]
  rw [Ne, ← UInt32.toNat_inj, h]
  cases x.toNat.testBit 31 <;> simp

theorem qtdir_bit (x : UInt8) : x &&& gefsQtdir ≠ 0 ↔ x.toNat.testBit 7 = true := by
  have h : (x &&& gefsQtdir).toNat = (x.toNat.testBit 7).toNat * 2 ^ 7 := by
    rw [UInt8.toNat_and, show gefsQtdir.toNat = 2 ^ 7 from rfl, Nat.and_two_pow]
  rw [Ne, ← UInt8.toNat_inj, h]
  cases x.toNat.testBit 7 <;> simp

/-- The type of a qid is the high byte of the mode, with the bit of a directory. -/
theorem qtdir_shift (x : UInt32) : (x >>> 24).toUInt8 &&& gefsQtdir ≠ 0 ↔ x &&& gefsDmdir ≠ 0 := by
  rw [qtdir_bit, dmdir_bit]
  have h : (x >>> 24).toUInt8.toNat = (x.toNat >>> 24) % 2 ^ 8 := rfl
  rw [h, Nat.testBit_mod_two_pow, Nat.testBit_shiftRight]
  simp

theorem dmdir_xor {x y : UInt32} (h : (x ^^^ y) &&& gefsDmdir = 0) :
    x &&& gefsDmdir ≠ 0 ↔ y &&& gefsDmdir ≠ 0 := by
  have h := mt (dmdir_bit _).2 (not_not.2 h)
  rw [dmdir_bit, dmdir_bit]
  rw [UInt32.toNat_xor, Nat.testBit_xor] at h
  revert h
  cases x.toNat.testBit 31 <;> cases y.toNat.testBit 31 <;> simp

/-- A mask with the bit of a directory. -/
theorem dmdir_and {x y : UInt32} (h : y &&& gefsDmdir ≠ 0) :
    x &&& y &&& gefsDmdir ≠ 0 ↔ x &&& gefsDmdir ≠ 0 := by
  rw [dmdir_bit] at h ⊢
  rw [dmdir_bit, UInt32.toNat_and, Nat.testBit_and, h, Bool.and_true]

theorem dmdir_or (x y : UInt32) (h : x &&& gefsDmdir ≠ 0) : (x ||| y) &&& gefsDmdir ≠ 0 := by
  rw [dmdir_bit] at h ⊢
  rw [UInt32.toNat_or, Nat.testBit_or, h, Bool.true_or]

/-! ## Entries under keys -/

section Spot

variable {t ms : Entries} {k : Bytes} {q : UInt64} {dir : Bool} {d : GefsXdir}

theorem spot_eq_some : spot t k = some (q, dir)
    ↔ ∃ d, lookupDir t k = some (some d) ∧ d.qid.path = q ∧ isDir d = dir := by
  unfold spot
  rcases lookupDir t k with _ | _ | d <;> simp

theorem spot_of_lookup (h : lookupDir t k = some (some d)) :
    spot t k = some (d.qid.path, isDir d) :=
  spot_eq_some.2 ⟨d, h, rfl, rfl⟩

theorem spot_eq_none_of_find (h : t.find k = some none) : spot t k = none := by
  unfold spot
  rw [lookupDir_eq_some_none.2 h]
  rfl

theorem spot_append_of_ne (h : ∀ m ∈ ms, m.k ≠ k) : spot (t ++ ms) k = spot t k := by
  unfold spot
  rw [lookupDir_append_of_ne h]

theorem find_of_spot (h : spot t k = some (q, dir)) : ∃ v, t.find k = some (some v) := by
  obtain ⟨d, hd, -⟩ := spot_eq_some.1 h
  obtain ⟨v, hv, -⟩ := lookupDir_eq_some_some.1 hd
  exact ⟨v, hv⟩

theorem dkey_inj {up up' : Int64} {name name' : Bytes} (h : dkey up name = some k)
    (h' : dkey up' name' = some k) : up = up' ∧ name = name' :=
  gefsPackdkey_inj h h'

theorem ne_packupkey_of_dkey {up : Int64} {name : Bytes} (h : dkey up name = some k) :
    k ≠ packupkey q := by
  rintro rfl
  have h1 := (dkey_shape h).1
  have h2 := (Walk.packupkey_shape q).1
  omega

/-- An entry of the tree lies under a key of an entry. -/
theorem Namespace.dkey (h : Namespace t) (hs : spot t k = some (q, dir)) :
    ∃ up, ∃ name : CStr, dkey up name.bytes = some k := by
  rcases h.up k q dir hs with hr | ⟨p, name, -, hk, -⟩
  exacts [⟨_, ⟨[], by simp⟩, hr⟩, ⟨_, name, hk⟩]

/-- The parent of an entry that is not the root. -/
theorem Namespace.parent (h : Namespace t) (hs : spot t k = some (q, dir)) {up : Int64}
    {name : Bytes} (hk : Server.dkey up name = some k) (hup : up ≠ -1) :
    name ≠ [] ∧ up.toUInt64.toNat < q.toNat ∧ ∃ k', spot t k' = some (up.toUInt64, true) := by
  rcases h.up k q dir hs with hr | ⟨p, name', k', hk', hne, hlt, hp⟩
  · exact absurd (dkey_inj hk hr).1 hup
  · obtain ⟨rfl, rfl⟩ := dkey_inj hk hk'
    exact ⟨hne, by simpa using hlt, k', by simpa using hp⟩

/-- The names are in order, no lookup stops, and the qid paths were given out. -/
structure NamesOk (t : Entries) (n : UInt64) : Prop where
  ns : Namespace t
  answers : Answers t
  old : ∀ k q dir, spot t k = some (q, dir) → q.toNat ≤ n.toNat

theorem Answers.append (h : Answers t) (hms : ∀ m ∈ ms, (t ++ ms).find m.k ≠ none
    ∧ ∀ up name, Server.dkey up name = some m.k → lookupDir (t ++ ms) m.k ≠ none) :
    Answers (t ++ ms) := by
  have hcases : ∀ k, (∃ m ∈ ms, m.k = k) ∨ ∀ m ∈ ms, m.k ≠ k := by
    intro k
    by_cases hk : ∃ m ∈ ms, m.k = k
    · exact .inl hk
    · push Not at hk
      exact .inr hk
  refine ⟨fun k => ?_, fun up name k hk => ?_⟩
  · rcases hcases k with ⟨m, hm, rfl⟩ | hne
    · exact (hms m hm).1
    · rw [find_append_of_ne hne]
      exact h.1 k
  · rcases hcases k with ⟨m, hm, rfl⟩ | hne
    · exact (hms m hm).2 up name hk
    · rw [lookupDir_append_of_ne hne]
      exact h.2 up name k hk

/-- Nothing changes in the tree of names. -/
theorem Namespace.same {t' : Entries} (h : Namespace t) (hs : ∀ k, spot t' k = spot t k)
    (hk : ∀ q, t'.find (packupkey q) = t.find (packupkey q))
    (hm : ∀ k d, lookupDir t' k = some (some d) → ModeOk d) : Namespace t' := by
  refine ⟨?_, ?_, ?_, hm⟩
  · simp only [hs]
    exact h.up
  · simp only [hs]
    exact h.own
  · simp only [hs, hk]
    exact h.kup

variable {n : UInt64}

/-- A wstat that leaves an entry what it is. -/
theorem NamesOk.wstat (h : NamesOk t n) (hd : lookupDir t k = some (some d)) {w : Wstat}
    (hw : ∀ m ∈ w.mode, m &&& gefsDmdir ≠ 0 ↔ d.mode &&& gefsDmdir ≠ 0) :
    NamesOk (t ++ [w.msg k]) n ∧ ∀ j, spot (t ++ [w.msg k]) j = spot t j := by
  have hself : lookupDir (t ++ [w.msg k]) k = some (some (w.upd (bumpVers d))) :=
    lookupDir_wstat hd (by simp [Wstat.msg])
  have hother : ∀ j, j ≠ k → lookupDir (t ++ [w.msg k]) j = lookupDir t j := fun j hj =>
    lookupDir_append_of_ne (by simpa [Wstat.msg] using hj.symm)
  have hm := h.ns.mode k d hd
  have hdir : isDir (w.upd (bumpVers d)) = isDir d ∧ ModeOk (w.upd (bumpVers d)) := by
    unfold ModeOk isDir at *
    unfold Wstat.upd bumpVers
    rcases hmode : w.mode with _ | x
    · exact ⟨rfl, hm⟩
    · have hx := hw x hmode
      have hq := qtdir_shift x
      simp only [Option.map_some, Option.getD_some, decide_eq_true_eq, decide_eq_decide] at hm hq ⊢
      exact ⟨hq.trans (hx.trans hm), hq.symm⟩
  have hspot : ∀ j, spot (t ++ [w.msg k]) j = spot t j := by
    intro j
    by_cases hj : j = k
    · subst hj
      rw [spot_of_lookup hself, spot_of_lookup hd, hdir.1]
      rfl
    · unfold spot
      rw [hother j hj]
  obtain ⟨up, name, hk⟩ := h.ns.dkey (spot_of_lookup hd)
  refine ⟨⟨h.ns.same hspot (fun q => ?_) fun j e he => ?_, h.answers.append fun m hm => ?_, ?_⟩,
    hspot⟩
  · exact find_append_of_ne (by simpa [Wstat.msg] using ne_packupkey_of_dkey hk)
  · by_cases hj : j = k
    · subst hj
      rw [hself] at he
      rw [← Option.some.inj (Option.some.inj he)]
      exact hdir.2
    · rw [hother j hj] at he
      exact h.ns.mode j e he
  · obtain rfl := List.mem_singleton.1 hm
    obtain ⟨v, hv, -⟩ := lookupDir_eq_some_some.1 hself
    change (t ++ [w.msg k]).find k ≠ none ∧ ∀ up name, Server.dkey up name = some k →
      lookupDir (t ++ [w.msg k]) k ≠ none
    rw [hv, hself]
    simp
  · simp only [hspot]
    exact h.old

/-- A message on a data block. -/
theorem NamesOk.datum (h : NamesOk t n) {m : GefsMsg} (hk : m.k.head? = some gefsKdat)
    (hop : m.op = .oclearb ∨ m.op = .oinsert ∧ m.k.length + m.v.length ≤ gefsKvmax
      ∧ m.v.length ≠ xdirsz) :
    NamesOk (t ++ [m]) n ∧ ∀ j, spot (t ++ [m]) j = spot t j := by
  have hnd : ∀ up name, Server.dkey up name ≠ some m.k := by
    intro up name hd
    rw [(dkey_shape hd).2] at hk
    cases hk
  have hold : spot t m.k = none := by
    rcases hs : spot t m.k with _ | ⟨q, dir⟩
    · rfl
    · obtain ⟨up, name, hd⟩ := h.ns.dkey hs
      exact absurd hd (hnd up name.bytes)
  obtain ⟨v, hv⟩ := Option.ne_none_iff_exists'.1 (h.answers.1 m.k)
  have hfind : (t ++ [m]).find m.k = some none
      ∨ (t ++ [m]).find m.k = some (some m.v) ∧ m.v.length ≠ xdirsz := by
    rw [find_append_one (m := m) (by simp), hv, Option.bind_some]
    unfold serverEff
    rcases hop with hop | ⟨hop, hlen, hx⟩
    · rw [hop]
      exact .inl rfl
    · rw [hop]
      exact .inr ⟨if_pos hlen, hx⟩
  have hnew : ∀ d, lookupDir (t ++ [m]) m.k ≠ some (some d) := by
    intro d hd
    obtain ⟨w, hw, hkv⟩ := lookupDir_eq_some_some.1 hd
    rcases hfind with hf | ⟨hf, hx⟩
    · rw [hf] at hw
      cases hw
    · rw [hf] at hw
      obtain rfl := Option.some.inj (Option.some.inj hw)
      exact hx (kv2dir_eq_some.1 hkv).2.1
  have hspot : ∀ j, spot (t ++ [m]) j = spot t j := by
    intro j
    by_cases hj : j = m.k
    · subst hj
      rw [hold]
      rcases hs : spot (t ++ [m]) m.k with _ | ⟨q, dir⟩
      · rfl
      · obtain ⟨d, hd, -⟩ := spot_eq_some.1 hs
        exact absurd hd (hnew d)
    · exact spot_append_of_ne (by simpa using Ne.symm hj)
  refine ⟨⟨h.ns.same hspot (fun q => find_append_of_ne ?_) fun j d hd => ?_,
    h.answers.append fun x hx => ?_, ?_⟩, hspot⟩
  · intro x hx hxk
    rw [List.mem_singleton.1 hx] at hxk
    rw [hxk, (Walk.packupkey_shape q).2] at hk
    cases hk
  · by_cases hj : j = m.k
    · subst hj
      exact absurd hd (hnew d)
    · rw [lookupDir_append_of_ne (by simpa using Ne.symm hj)] at hd
      exact h.ns.mode j d hd
  · rw [List.mem_singleton.1 hx]
    refine ⟨?_, fun up name hd => absurd hd (hnd up name)⟩
    rcases hfind with hf | ⟨hf, -⟩ <;> simp [hf]
  · simp only [hspot]
    exact h.old

/-- Messages on data blocks. -/
theorem NamesOk.data (h : NamesOk t n) (ms : Entries) : (∀ m ∈ ms, m.k.head? = some gefsKdat
      ∧ (m.op = .oclearb ∨ m.op = .oinsert ∧ m.k.length + m.v.length ≤ gefsKvmax
        ∧ m.v.length ≠ xdirsz)) →
    NamesOk (t ++ ms) n ∧ ∀ j, spot (t ++ ms) j = spot t j := by
  induction ms using List.reverseRecOn with
  | nil =>
    intro _
    simpa using h
  | append_singleton ms m ih =>
    intro hms
    obtain ⟨h1, h2⟩ := ih fun x hx => hms x (List.mem_append_left _ hx)
    obtain ⟨hk, hop⟩ := hms m (by simp)
    obtain ⟨h3, h4⟩ := h1.datum hk hop
    rw [← List.append_assoc]
    exact ⟨h3, fun j => (h4 j).trans (h2 j)⟩

/-! ## Changes of the names -/

/-- What is found once the entry under `k` is another. -/
theorem update_some_eq {α : Type} {f : Bytes → Option α} {j : Bytes} {x y : α} :
    Function.update f k (some y) j = some x ↔ j = k ∧ x = y ∨ j ≠ k ∧ f j = some x := by
  by_cases hj : j = k
  · rw [hj, Function.update_self]
    simp [eq_comm]
  · rw [Function.update_of_ne hj]
    simp [hj]

/-- What is found once the entry under `k` is gone. -/
theorem update_none_eq {α : Type} {f : Bytes → Option α} {j : Bytes} {x : α} :
    Function.update f k none j = some x ↔ j ≠ k ∧ f j = some x := by
  by_cases hj : j = k
  · rw [hj, Function.update_self]
    simp
  · rw [Function.update_of_ne hj]
    simp [hj]

/-- The key of a directory, put under its qid path, has room. -/
theorem serverEff_super (hk : k.length ≤ 256) (v : Option Bytes) :
    serverEff gefsKvmax (packupkey q) v ⟨.oinsert, packupkey q, k, []⟩ = some (some k) := by
  unfold serverEff
  refine if_pos ?_
  have := (Walk.packupkey_shape q).1
  have : gefsKvmax = 768 := rfl
  dsimp only
  omega

variable {pre : Entries} {mu m : GefsMsg} {up : Int64} {w : Option Bytes}

/-- A message on the key under a qid path, put in for a directory. -/
theorem find_up (hpre : ∀ m ∈ pre, ∃ up name, Server.dkey up name = some m.k)
    (hmu : mu.k = packupkey q) (heff : ∀ v, serverEff gefsKvmax (packupkey q) v mu = some w)
    (ht : t.find (packupkey q) ≠ none) (q' : UInt64) :
    (t ++ (pre ++ if dir then [mu] else [])).find (packupkey q')
      = if dir = true ∧ q' = q then some w else t.find (packupkey q') := by
  have hne : ∀ m ∈ pre, m.k ≠ packupkey q' := by
    intro m hm
    obtain ⟨up, name, hk⟩ := hpre m hm
    exact ne_packupkey_of_dkey hk
  rw [find_append, List.filter_append, List.filter_eq_nil_iff.2 (by simpa using hne),
    List.nil_append]
  cases dir with
  | false => simp
  | true =>
    by_cases hq : q' = q
    · subst hq
      obtain ⟨v, hv⟩ := Option.ne_none_iff_exists'.1 ht
      simp [hmu, hv, heff]
    · have hk : ¬ packupkey q = packupkey q' := fun h => hq (packupkey_inj h).symm
      simp [hmu, hk, hq]

/-- Messages on the keys of entries, and one on the key under a qid path. -/
theorem NamesOk.change (h : NamesOk t n) {n' : UInt64} {g : Bytes → Option (UInt64 × Bool)}
    (hpre : ∀ m ∈ pre, ∃ up name, Server.dkey up name = some m.k)
    (hmu : mu.k = packupkey q) (heff : ∀ v, serverEff gefsKvmax (packupkey q) v mu = some w)
    (hg : ∀ j, spot (t ++ pre) j = g j)
    (hfound : ∀ m ∈ pre, ∃ x, lookupDir (t ++ pre) m.k = some x ∧ ∀ d ∈ x, ModeOk d)
    (hup : ∀ k q dir, g k = some (q, dir) → Server.dkey (-1) [] = some k ∨
      ∃ (p : UInt64) (name : CStr) (k' : Bytes), Server.dkey p.toInt64 name.bytes = some k
        ∧ name.bytes ≠ [] ∧ p.toNat < q.toNat ∧ g k' = some (p, true))
    (hown : ∀ k k' q dir dir', g k = some (q, dir) → g k' = some (q, dir') → k = k')
    (hkup : ∀ q' v, (if dir = true ∧ q' = q then some w else t.find (packupkey q'))
      = some (some v) ↔ g v = some (q', true))
    (hold : ∀ k q dir, g k = some (q, dir) → q.toNat ≤ n'.toNat) :
    NamesOk (t ++ (pre ++ if dir then [mu] else [])) n'
      ∧ ∀ j, spot (t ++ (pre ++ if dir then [mu] else [])) j = g j := by
  have hups : ∀ x ∈ (if dir then [mu] else []), x.k = packupkey q := by
    intro x hx
    cases dir with
    | false => simp at hx
    | true => rw [List.mem_singleton.1 hx, hmu]
  have hfind : ∀ q', (t ++ (pre ++ if dir then [mu] else [])).find (packupkey q')
      = if dir = true ∧ q' = q then some w else t.find (packupkey q') :=
    find_up hpre hmu heff (h.answers.1 _)
  -- a lookup of an entry does not see the message on the key under the qid path
  have hlook : ∀ j, j.length ≠ 9 →
      lookupDir (t ++ (pre ++ if dir then [mu] else [])) j = lookupDir (t ++ pre) j := by
    intro j hj
    rw [← List.append_assoc]
    refine lookupDir_append_of_ne fun x hx hxj => hj ?_
    rw [← hxj, hups x hx, (Walk.packupkey_shape q).1]
  have hgot : ∀ j, spot (t ++ (pre ++ if dir then [mu] else [])) j = g j := by
    intro j
    rw [← hg]
    by_cases hj : j.length = 9
    · have hnone : ∀ t', spot t' j = none := by
        intro t'
        rcases hs : spot t' j with _ | ⟨q, dir⟩
        · rfl
        · obtain ⟨d, hd, -⟩ := spot_eq_some.1 hs
          exact absurd hd (lookupDir_ne_of_length hj)
      rw [hnone, hnone]
    · unfold spot
      rw [hlook j hj]
  refine ⟨⟨⟨?_, ?_, ?_, ?_⟩, ?_, ?_⟩, hgot⟩
  · simp only [hgot]
    exact hup
  · simp only [hgot]
    exact hown
  · intro q' v
    rw [hfind, hgot]
    exact hkup q' v
  · intro k d hd
    have hk : k.length ≠ 9 := fun hk => lookupDir_ne_of_length hk hd
    rw [hlook k hk] at hd
    by_cases hm : ∃ m ∈ pre, m.k = k
    · obtain ⟨m, hm, rfl⟩ := hm
      obtain ⟨x, hx, hmode⟩ := hfound m hm
      rw [hx] at hd
      exact hmode d (Option.some.inj hd)
    · push Not at hm
      rw [lookupDir_append_of_ne hm] at hd
      exact h.ns.mode k d hd
  · refine h.answers.append fun m hm => ?_
    rcases List.mem_append.1 hm with hm | hm
    · obtain ⟨up, name, hk⟩ := hpre m hm
      obtain ⟨x, hx, -⟩ := hfound m hm
      rw [← hlook m.k (by have := (dkey_shape hk).1; omega)] at hx
      refine ⟨?_, fun _ _ _ => by rw [hx]; simp⟩
      intro hf
      unfold lookupDir at hx
      rw [hf] at hx
      cases hx
    · rw [hups m hm]
      refine ⟨?_, fun up name hk => absurd rfl (ne_packupkey_of_dkey (q := q) hk)⟩
      rw [hfind]
      split_ifs
      · simp
      · exact h.answers.1 _
  · simp only [hgot]
    exact hold

theorem insertDir_name {name : Bytes} (hm : insertDir up d = some m) (hn : d.name = some name) :
    Server.dkey up name = some m.k ∧ m.k.length ≤ 256 := by
  have hk := insertDir_k hm hn
  exact ⟨hk, length_dkey hk⟩

/-- A new entry in a directory, of a new qid path. -/
theorem NamesOk.insert (h : NamesOk t n) {p : UInt64} {name : CStr}
    (hm : insertDir p.toInt64 d = some m) (hn : d.name = some name.bytes) (hne : name.bytes ≠ [])
    (hf : t.find m.k = some none) (hq : n.toNat < d.qid.path.toNat)
    (hp : spot t k = some (p, true)) (hmode : ModeOk d) (hdir : isDir d = dir) :
    NamesOk (t ++ ([m] ++ superMsg dir d.qid.path m.k)) d.qid.path
      ∧ ∀ j, spot (t ++ ([m] ++ superMsg dir d.qid.path m.k)) j
        = Function.update (spot t) m.k (some (d.qid.path, dir)) j := by
  obtain ⟨hk, hlen⟩ := insertDir_name hm hn
  have hnone := spot_eq_none_of_find hf
  have hnew : lookupDir (t ++ [m]) m.k = some (some d) := by
    refine lookupDir_insert hf hm rfl ?_ (by simp)
    rintro s hs
    rw [hn] at hs
    rw [← Option.some.inj hs]
    exact name.nonul
  have hlt : ∀ {k q dir}, spot t k = some (q, dir) → q ≠ d.qid.path := by
    rintro k q dir hs rfl
    have := h.old _ _ _ hs
    omega
  refine h.change (w := some m.k) ?_ rfl (serverEff_super hlen) ?_ ?_ ?_ ?_ ?_ ?_
  · simpa using ⟨_, _, hk⟩
  · intro j
    by_cases hj : j = m.k
    · subst hj
      rw [Function.update_self, spot_of_lookup hnew, hdir]
    · rw [Function.update_of_ne hj]
      exact spot_append_of_ne (by simpa using Ne.symm hj)
  · simpa using ⟨_, hnew, by simpa using hmode⟩
  · intro j q b hs
    by_cases hj : j = m.k
    · subst hj
      rw [Function.update_self] at hs
      obtain ⟨rfl, -⟩ := Prod.mk.inj (Option.some.inj hs)
      refine .inr ⟨p, name, k, hk, hne, (h.old _ _ _ hp).trans_lt hq, ?_⟩
      rwa [Function.update_of_ne]
      rintro rfl
      rw [hnone] at hp
      cases hp
    · rw [Function.update_of_ne hj] at hs
      rcases h.ns.up j q b hs with hr | ⟨p', name', k', hk', hne', hlt', hp'⟩
      · exact .inl hr
      · refine .inr ⟨p', name', k', hk', hne', hlt', ?_⟩
        rwa [Function.update_of_ne]
        rintro rfl
        rw [hnone] at hp'
        cases hp'
  · intro j j' q b b' hs hs'
    by_cases hj : j = m.k <;> by_cases hj' : j' = m.k
    · rw [hj, hj']
    · rw [hj, Function.update_self] at hs
      rw [Function.update_of_ne hj'] at hs'
      exact absurd (Prod.mk.inj (Option.some.inj hs)).1.symm (hlt hs')
    · rw [hj', Function.update_self] at hs'
      rw [Function.update_of_ne hj] at hs
      exact absurd (Prod.mk.inj (Option.some.inj hs')).1.symm (hlt hs)
    · rw [Function.update_of_ne hj] at hs
      rw [Function.update_of_ne hj'] at hs'
      exact h.ns.own _ _ _ _ _ hs hs'
  · intro q' v
    by_cases hq' : q' = d.qid.path
    · subst hq'
      have hold : ∀ {v}, t.find (packupkey d.qid.path) ≠ some (some v) := by
        intro v hv
        exact hlt ((h.ns.kup _ _).1 hv) rfl
      by_cases hv : v = m.k
      · subst hv
        rw [Function.update_self]
        cases dir <;> simp [hold]
      · rw [Function.update_of_ne hv]
        have hs : spot t v ≠ some (d.qid.path, true) := fun hs => hlt hs rfl
        cases dir <;> simp [hold, hs, Ne.symm hv]
    · rw [if_neg (by simp [hq']), h.ns.kup]
      by_cases hv : v = m.k
      · subst hv
        rw [Function.update_self, hnone]
        simp [Ne.symm hq']
      · rw [Function.update_of_ne hv]
  · intro j q b hs
    by_cases hj : j = m.k
    · rw [hj, Function.update_self] at hs
      rw [(Prod.mk.inj (Option.some.inj hs)).1]
    · rw [Function.update_of_ne hj] at hs
      exact (h.old _ _ _ hs).trans hq.le

/-- An entry is taken off that has nothing below it. -/
theorem NamesOk.delete (h : NamesOk t n) (hs : spot t k = some (q, dir)) {v : Bytes}
    (hleaf : dir = true → ∀ name j, Server.dkey q.toInt64 name = some j → spot t j = none) :
    NamesOk (t ++ ([⟨.odelete, k, v, []⟩]
        ++ if dir then [⟨.oclobber, packupkey q, [], []⟩] else [])) n
      ∧ ∀ j, spot (t ++ ([⟨.odelete, k, v, []⟩]
          ++ if dir then [⟨.oclobber, packupkey q, [], []⟩] else [])) j
        = Function.update (spot t) k none j := by
  obtain ⟨up, name, hk⟩ := h.ns.dkey hs
  obtain ⟨x, hx⟩ := find_of_spot hs
  have hgone : (t ++ [(⟨.odelete, k, v, []⟩ : GefsMsg)]).find k = some none :=
    find_remove hx (m := ⟨.odelete, k, v, []⟩) (.inr ⟨rfl, rfl⟩) (by simp)
  -- what is there still was there before, under another key
  have hstill : ∀ {j q' b}, Function.update (spot t) k none j = some (q', b) →
      j ≠ k ∧ spot t j = some (q', b) := update_none_eq.1
  refine h.change (w := none) ?_ rfl (fun _ => rfl) ?_ ?_ ?_ ?_ ?_ ?_
  · simpa using ⟨_, _, hk⟩
  · intro j
    by_cases hj : j = k
    · subst hj
      rw [Function.update_self, spot_eq_none_of_find hgone]
    · rw [Function.update_of_ne hj]
      exact spot_append_of_ne (by simpa using Ne.symm hj)
  · simpa using ⟨none, lookupDir_eq_some_none.2 hgone, by simp⟩
  · intro j q' b hj
    replace hj := (hstill hj).2
    rcases h.ns.up j q' b hj with hr | ⟨p, name', k', hk', hne, hlt, hp⟩
    · exact .inl hr
    · refine .inr ⟨p, name', k', hk', hne, hlt, ?_⟩
      rw [Function.update_of_ne, hp]
      rintro rfl
      rw [hs] at hp
      obtain ⟨rfl, hd⟩ := Prod.mk.inj (Option.some.inj hp)
      rw [hleaf hd _ _ hk'] at hj
      cases hj
  · intro j j' q' b b' h1 h2
    exact h.ns.own _ _ _ _ _ (hstill h1).2 (hstill h2).2
  · intro q' j
    constructor
    · intro hf
      split_ifs at hf with hc
      · cases hf
      have hj := (h.ns.kup _ _).1 hf
      rw [Function.update_of_ne, hj]
      rintro rfl
      rw [hs] at hj
      obtain ⟨rfl, hd⟩ := Prod.mk.inj (Option.some.inj hj)
      exact hc ⟨hd, rfl⟩
    · intro hj
      obtain ⟨hne, hj⟩ := hstill hj
      rw [if_neg, (h.ns.kup _ _).2 hj]
      rintro ⟨-, rfl⟩
      exact hne (h.ns.own _ _ _ _ _ hj hs)
  · intro j q' b hj
    exact h.old _ _ _ (hstill hj).2

/-- An entry gets another name in its directory, and what is below it stays there. -/
theorem NamesOk.rename (h : NamesOk t n) (hs : spot t k = some (q, dir)) {old name : CStr}
    (hk : Server.dkey up old.bytes = some k) (hup : up ≠ -1) (hm : insertDir up d = some m)
    (hn : d.name = some name.bytes) (hne : name.bytes ≠ []) (hf : t.find m.k = some none)
    (hq : d.qid.path = q) (hmode : ModeOk d) (hdir : isDir d = dir) :
    NamesOk (t ++ ([⟨.oclobber, k, [], []⟩, m] ++ superMsg dir q m.k)) n
      ∧ ∀ j, spot (t ++ ([⟨.oclobber, k, [], []⟩, m] ++ superMsg dir q m.k)) j
        = Function.update (Function.update (spot t) k none) m.k (some (q, dir)) j := by
  obtain ⟨hmk, hlen⟩ := insertDir_name hm hn
  obtain ⟨x, hx⟩ := find_of_spot hs
  have hne' : m.k ≠ k := by
    rintro he
    rw [he, hx] at hf
    cases hf
  have hnew : lookupDir (t ++ [⟨.oclobber, k, [], []⟩, m]) m.k = some (some d) := by
    refine lookupDir_insert hf hm rfl ?_ (by simp [Ne.symm hne'])
    rintro s hs
    rw [hn] at hs
    rw [← Option.some.inj hs]
    exact name.nonul
  have hgone : (t ++ [⟨.oclobber, k, [], []⟩, m]).find k = some none :=
    find_remove hx (m := ⟨.oclobber, k, [], []⟩) (.inl rfl) (by simp [hne'])
  -- an entry found now is the one moved or one that was there
  have hcases : ∀ {j q' b},
      Function.update (Function.update (spot t) k none) m.k (some (q, dir)) j = some (q', b) →
      j = m.k ∧ q' = q ∧ b = dir ∨ j ≠ m.k ∧ j ≠ k ∧ spot t j = some (q', b) := by
    intro j q' b hj
    rw [update_some_eq, update_none_eq, Prod.mk.injEq] at hj
    exact hj
  -- and each one that was there is found
  have hthere : ∀ {j q' b}, spot t j = some (q', b) → ∃ j',
      Function.update (Function.update (spot t) k none) m.k (some (q, dir)) j' = some (q', b) := by
    intro j q' b hj
    by_cases hj2 : j = k
    · rw [hj2, hs] at hj
      exact ⟨m.k, by rw [Function.update_self, hj]⟩
    · refine ⟨j, ?_⟩
      rw [Function.update_of_ne, Function.update_of_ne hj2, hj]
      rintro rfl
      rw [spot_eq_none_of_find hf] at hj
      cases hj
  obtain ⟨-, hlt, k', hp⟩ := h.ns.parent hs hk hup
  refine h.change (w := some m.k) ?_ rfl (serverEff_super hlen) ?_ ?_ ?_ ?_ ?_ ?_
  · simpa using ⟨⟨_, _, hk⟩, _, _, hmk⟩
  · intro j
    by_cases hj1 : j = m.k
    · subst hj1
      rw [Function.update_self, spot_of_lookup hnew, hdir, hq]
    · rw [Function.update_of_ne hj1]
      by_cases hj2 : j = k
      · subst hj2
        rw [Function.update_self, spot_eq_none_of_find hgone]
      · rw [Function.update_of_ne hj2]
        exact spot_append_of_ne (by simp [Ne.symm hj1, Ne.symm hj2])
  · intro x hx
    rcases List.mem_cons.1 hx with rfl | hx
    · exact ⟨none, lookupDir_eq_some_none.2 hgone, by simp⟩
    · obtain rfl := List.mem_singleton.1 hx
      exact ⟨_, hnew, by simpa using hmode⟩
  · intro j q' b hj
    rcases hcases hj with ⟨rfl, rfl, rfl⟩ | ⟨-, -, hj⟩
    · obtain ⟨k'', hp'⟩ := hthere hp
      exact .inr ⟨up.toUInt64, name, k'', by simpa using hmk, hne, hlt, hp'⟩
    · rcases h.ns.up j q' b hj with hr | ⟨p', name', k', hk', hne', hlt', hp'⟩
      · exact .inl hr
      · obtain ⟨k'', hp'⟩ := hthere hp'
        exact .inr ⟨p', name', k'', hk', hne', hlt', hp'⟩
  · intro j j' q' b b' e1 e2
    rcases hcases e1 with ⟨rfl, rfl, rfl⟩ | ⟨-, hj, h1⟩ <;>
      rcases hcases e2 with ⟨rfl, h2, h3⟩ | ⟨-, hj', h2⟩
    · rfl
    · exact absurd (h.ns.own _ _ _ _ _ h2 hs) hj'
    · subst h2
      exact absurd (h.ns.own _ _ _ _ _ h1 hs) hj
    · exact h.ns.own _ _ _ _ _ h1 h2
  · intro q' j
    by_cases hq' : q' = q
    · subst hq'
      cases dir with
      | false =>
        -- nothing lies under the key of the qid path, before or after
        rw [if_neg (by simp)]
        constructor
        · intro hj
          have hj := (h.ns.kup _ _).1 hj
          obtain rfl := h.ns.own _ _ _ _ _ hj hs
          rw [hs] at hj
          cases hj
        · intro hj
          rcases hcases hj with ⟨-, -, hb⟩ | ⟨-, hjk, hj⟩
          · cases hb
          · exact absurd (h.ns.own _ _ _ _ _ hj hs) hjk
      | true =>
        rw [if_pos ⟨rfl, rfl⟩]
        constructor
        · intro hj
          rw [← Option.some.inj (Option.some.inj hj), Function.update_self]
        · intro hj
          rcases hcases hj with ⟨rfl, -, -⟩ | ⟨-, hjk, hj⟩
          · rfl
          · exact absurd (h.ns.own _ _ _ _ _ hj hs) hjk
    · rw [if_neg (by simp [hq']), h.ns.kup]
      constructor
      · intro hj
        have hjk : j ≠ k := by
          rintro rfl
          rw [hs] at hj
          exact hq' (Prod.mk.inj (Option.some.inj hj)).1.symm
        rw [Function.update_of_ne, Function.update_of_ne hjk, hj]
        rintro rfl
        rw [spot_eq_none_of_find hf] at hj
        cases hj
      · intro hj
        rcases hcases hj with ⟨-, he, -⟩ | ⟨-, -, hj⟩
        · exact absurd he hq'
        · exact hj
  · intro j q' b hj
    rcases hcases hj with ⟨-, rfl, -⟩ | ⟨-, -, hj⟩
    · exact h.old _ _ _ hs
    · exact h.old _ _ _ hj

end Spot

end GefsFuse.Server
