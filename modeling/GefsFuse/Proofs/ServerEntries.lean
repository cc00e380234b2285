import GefsFuse.Server.Entries

/-!
# What a message does to an entry

A wstat message unpacks to the fields it was packed from, so its entry is the old one with these
fields set and the version bumped (`serverEff_wstat`). A lookup sees a message only under the
message's own key (`find_upsert_of_ne`).
-/

namespace GefsFuse.Server

open ByteMem

/-! ## The fields of a wstat message -/

section Fields

variable {m : Mem} {o : ℕ}

theorem Wstat.length_field {α : Type} {f : α → Bytes} {n : ℕ} (hf : ∀ x, (f x).length = n)
    (x : Option α) : (Wstat.field f x).length = if x.isSome then n else 0 := by
  cases x <;> simp [Wstat.field, hf]

/-- A field is read back where it was packed. -/
theorem Wstat.at_field {α : Type} {f : α → Bytes} {x : Option α} (h : At m o (Wstat.field f x)) :
    ∀ y ∈ x, At m o (f y) := by
  rintro y rfl
  exact h

/-- The flag bits of a message, for the fields it has. -/
theorem Wstat.op_bits (w : Wstat) :
    (w.op &&& 1 ≠ 0 ↔ w.size.isSome) ∧ (w.op &&& 2 ≠ 0 ↔ w.mode.isSome)
      ∧ (w.op &&& 4 ≠ 0 ↔ w.mtime.isSome) ∧ ¬ w.op &&& 8 ≠ 0
      ∧ (w.op &&& 16 ≠ 0 ↔ w.uid.isSome) ∧ (w.op &&& 32 ≠ 0 ↔ w.gid.isSome)
      ∧ (w.op &&& 64 ≠ 0 ↔ w.muid.isSome) := by
  unfold Wstat.op
  generalize w.size.isSome = a
  generalize w.mode.isSome = b
  generalize w.mtime.isSome = c
  generalize w.uid.isSome = d
  generalize w.gid.isSome = e
  generalize w.muid.isSome = f
  revert a b c d e f
  decide

theorem Wstat.head?_pack (w : Wstat) : w.pack.head? = some w.op := rfl

theorem Wstat.off_field {α : Type} {f : α → Bytes} {n : ℕ} (hf : ∀ x, (f x).length = n) {op b : UInt8}
    {x : Option α} (hb : op &&& b ≠ 0 ↔ x.isSome) (o : ℕ) :
    (if op &&& b ≠ 0 then o + n else o) = o + (Wstat.field f x).length := by
  rw [if_congr hb rfl rfl, Wstat.length_field hf]
  split_ifs <;> rfl

/-- A field that is read where its flag is set and kept where it is not. -/
theorem Wstat.read_field {α β : Type} {c : Prop} [Decidable c] {x : Option α} {v : α}
    (hc : c ↔ x.isSome) (hv : ∀ y ∈ x, v = y) (f : α → β) {e : β} {y : α} (he : f y = e) :
    (if c then f v else e) = f (x.getD y) := by
  cases x with
  | none => rw [if_neg (by simp [hc]), Option.getD_none, he]
  | some z => rw [if_pos (by simp [hc]), hv z rfl, Option.getD_some]

/-- The fields a wstat message unpacks to are those it was packed from. -/
theorem Wstat.statFields_pack (w : Wstat) (d : GefsXdir) :
    statFields w.op (memOf w.pack) d = w.upd d := by
  obtain ⟨b1, b2, b4, b8, b16, b32, b64⟩ := w.op_bits
  have h := at_memOf w.pack
  generalize hm : memOf w.pack = m at h ⊢
  unfold Wstat.pack at h
  simp only [at_append, List.length_append, List.length_singleton, zero_add] at h
  obtain ⟨⟨⟨⟨⟨⟨-, hs⟩, hmo⟩, hmt⟩, hu⟩, hg⟩, hmu⟩ := h
  unfold statFields
  extract_lets o d1 o1 q d2 o2 d3 o3 d4 o4 d5 o5 d6 o6
  have e1 : o1 = _ := off_field length_pack64 b1 o
  have e2 : o2 = _ := off_field length_pack32 b2 o1
  have e3 : o3 = _ := off_field (f := (pack64 ·.toUInt64)) (fun _ => length_pack64 _) b4 o2
  have e4 : o4 = o3 := if_neg b8
  have e5 : o5 = _ := off_field (f := (pack32 ·.toUInt32)) (fun _ => length_pack32 _) b16 o4
  have e6 : o6 = _ := off_field (f := (pack32 ·.toUInt32)) (fun _ => length_pack32 _) b32 o5
  have f1 : d1 = { d with length := w.size.getD d.length } :=
    read_field b1 (fun y hy => unpack64_at (at_field hs y hy)) (fun l => { d with length := l }) rfl
  have hmo' : At m o1 (field pack32 w.mode) := e1 ▸ hmo
  have hmt' : At m o2 (field (pack64 ·.toUInt64) w.mtime) := by
    rw [e2, e1]
    exact hmt
  have hu' : At m o4 (field (pack32 ·.toUInt32) w.uid) := by
    rw [e4, e3, e2, e1]
    exact hu
  have hg' : At m o5 (field (pack32 ·.toUInt32) w.gid) := by
    rw [e5, e4, e3, e2, e1]
    exact hg
  have hmu' : At m o6 (field (pack32 ·.toUInt32) w.muid) := by
    rw [e6, e5, e4, e3, e2, e1]
    exact hmu
  have f2 : d2 = { d1 with
      mode := w.mode.getD d1.mode
      qid := { d1.qid with
        type := (w.mode.map fun m : UInt32 => (m >>> 24).toUInt8).getD d1.qid.type } } := by
    unfold d2
    rcases hx : w.mode with _ | y
    · rw [if_neg (by simp [b2, hx])]
      rfl
    · rw [if_pos (by simp [b2, hx]), unpack32_at (at_field hmo' y hx)]
      rfl
  have f3 : d3 = { d2 with mtime := w.mtime.getD d2.mtime } :=
    read_field b4 (fun y hy => by rw [unpack64_at (at_field hmt' y hy), Int64.toInt64_toUInt64])
      (fun t => { d2 with mtime := t }) rfl
  have f4 : d4 = d3 := if_neg b8
  have f5 : d5 = { d4 with uid := w.uid.getD d4.uid } :=
    read_field b16 (fun y hy => by rw [unpack32_at (at_field hu' y hy), Int32.toInt32_toUInt32])
      (fun u => { d4 with uid := u }) rfl
  have f6 : d6 = { d5 with gid := w.gid.getD d5.gid } :=
    read_field b32 (fun y hy => by rw [unpack32_at (at_field hg' y hy), Int32.toInt32_toUInt32])
      (fun g => { d5 with gid := g }) rfl
  have hv : ∀ y ∈ w.muid, (unpack32 m o6).toInt32 = y := fun y hy => by
    rw [unpack32_at (at_field hmu' y hy), Int32.toInt32_toUInt32]
  refine (read_field b64 hv (fun u => { d6 with muid := u }) (y := d6.muid) rfl).trans ?_
  rw [f6, f5, f4, f3, f2, f1]
  rfl

theorem Wstat.length_pack (w : Wstat) : w.pack.length = statSize w.op := by
  obtain ⟨b1, b2, b4, b8, b16, b32, b64⟩ := w.op_bits
  unfold statSize Wstat.pack
  have h64 := @length_field Int64 (pack64 ·.toUInt64) 8 fun _ => length_pack64 _
  have h32 := @length_field Int32 (pack32 ·.toUInt32) 4 fun _ => length_pack32 _
  simp only [List.length_append, List.length_singleton, length_field length_pack64,
    length_field length_pack32, h64, h32, b1, b2, b4, b16, b32, b64, if_neg b8, add_zero]

end Fields

/-! ## One message -/

section Message

variable {k v : Bytes} {d : GefsXdir}

theorem kv2dir_eq_some : kv2dir (k, v) = some d ↔
    9 ≤ k.length ∧ v.length = xdirsz ∧ (∃ s, gefsUnpackstr (k.drop 9) = some (s, []))
      ∧ gefsKv2dir (k, v) = some d := by
  unfold kv2dir
  simp only [Option.bind_eq_bind, Option.bind_eq_some_iff, Option.ite_none_left_eq_some,
    Prod.exists]
  constructor
  · rintro ⟨s, e, hs, hc, hd⟩
    push Not at hc
    obtain ⟨hk, rfl, hv⟩ := hc
    exact ⟨hk, hv, ⟨s, hs⟩, hd⟩
  · rintro ⟨hk, hv, ⟨s, hs⟩, hd⟩
    exact ⟨s, [], hs, by simp [hv, hk], hd⟩

/-- A repacked entry is read back, with the name of its key. -/
theorem kv2dir_packdval {sz : ℕ} {e : GefsXdir} {w : Bytes} (hd : kv2dir (k, v) = some d)
    (hn : e.name = d.name) (hw : gefsPackdval sz e = some w) : kv2dir (k, w) = some e := by
  obtain ⟨hk, hv, hs, hd⟩ := kv2dir_eq_some.1 hd
  refine kv2dir_eq_some.2 ⟨hk, length_gefsPackdval hw, hs, ?_⟩
  have hname : d.name = (gefsUnpackstr (k.drop 9)).map (·.1) := by
    unfold gefsKv2dir at hd
    split_ifs at hd
    rw [← Option.some.inj hd]
  rw [gefsKv2dir_gefsPackdval k hw, ← hname, ← hn]

/-- A wstat message on an entry sets its fields and bumps the version. -/
theorem statupdate_pack (hd : kv2dir (k, v) = some d) (w : Wstat) :
    ∃ v', statupdate (k, v) (w.msg k) = some (k, v')
      ∧ kv2dir (k, v') = some (w.upd (bumpVers d)) := by
  have hv : v.length = xdirsz := (kv2dir_eq_some.1 hd).2.1
  obtain ⟨v', hv'⟩ := gefsPackdval_isSome (le_of_eq hv.symm) (w.upd (bumpVers d))
  refine ⟨v', ?_, kv2dir_packdval hd rfl hv'⟩
  have hdrop : v.drop v'.length = [] := by
    rw [List.drop_eq_nil_iff, length_gefsPackdval hv', hv]
  unfold statupdate
  simp only [Wstat.msg, Wstat.head?_pack, Option.bind_eq_bind, Option.bind_some, hd,
    ne_eq, Wstat.length_pack, not_true_eq_false, if_false]
  have hf : statFields w.op (memOf w.pack)
      { d with qid := { d.qid with vers := d.qid.vers + 1 } } = w.upd (bumpVers d) :=
    w.statFields_pack (bumpVers d)
  rw [hf, hv', Option.bind_some, hdrop, List.append_nil]

theorem length_dkey {up : Int64} {s : Bytes} (h : dkey up s = some k) : k.length ≤ 256 := by
  obtain ⟨hlen, rfl⟩ := gefsPackdkey_eq_some.1 h
  have : gefsKeymax = 256 := rfl
  simp only [List.length_append, length_pack8, length_pack64, length_pack16, List.length_singleton]
  omega

/-- The name of a key is read back. -/
theorem unpackstr_dkey {up : Int64} {s : Bytes} (hk : dkey up s = some k)
    (hn : ∀ b ∈ s, b ≠ 0) : 9 ≤ k.length ∧ gefsUnpackstr (k.drop 9) = some (s, []) := by
  obtain ⟨hlen, rfl⟩ := gefsPackdkey_eq_some.1 hk
  have hl : s.length < 65536 := by
    have : gefsKeymax = 256 := rfl
    omega
  have h9 : (pack8 gefsKent ++ pack64 up.toUInt64).length = 9 := by simp
  constructor
  · rw [List.length_append, h9]
    omega
  · rw [← h9, List.drop_left, ← List.append_nil (pack16 _ ++ s ++ [0])]
    exact gefsUnpackstr_packed hn hl []

theorem dkey_of_insertDir {up : Int64} {m : GefsMsg} (hm : insertDir up d = some m) :
    ∃ s, dkey up s = some m.k := by
  unfold insertDir at hm
  simp only [Option.bind_eq_bind, Option.bind_eq_some_iff, Option.some.injEq] at hm
  obtain ⟨s, -, k, hk, v, -, rfl⟩ := hm
  exact ⟨s, hk⟩

/-- The entry of an insertion is read back. -/
theorem kv2dir_insertDir {up : Int64} {m : GefsMsg} (hm : insertDir up d = some m)
    (hn : ∀ s ∈ d.name, ∀ b ∈ s, b ≠ 0) : kv2dir (m.k, m.v) = some d := by
  unfold insertDir at hm
  simp only [Option.bind_eq_bind, Option.bind_eq_some_iff, Option.some.injEq] at hm
  obtain ⟨s, hs, k, hk, v, hv, rfl⟩ := hm
  obtain ⟨hk9, hstr⟩ := unpackstr_dkey hk (hn s hs)
  refine kv2dir_eq_some.2 ⟨hk9, length_gefsPackdval hv, ⟨s, hstr⟩, ?_⟩
  rw [gefsKv2dir_gefsPackdval k hv, hstr, Option.map_some, ← hs]

end Message

/-! ## Lookups after an upsert -/

section Lookup

variable {t ms : Entries} {k : Bytes} {d : GefsXdir}

theorem find_append : (t ++ ms).find k = (t.find k).bind fun v =>
    (ms.filter (·.k = k)).foldlM (serverEff gefsKvmax k) v := by
  unfold Entries.find
  rw [List.filter_append, List.foldlM_append]
  rfl

theorem find_append_of_ne (h : ∀ m ∈ ms, m.k ≠ k) : (t ++ ms).find k = t.find k := by
  rw [find_append, List.filter_eq_nil_iff.2 (by simpa using h)]
  simp

theorem lookupDir_eq_some_some :
    lookupDir t k = some (some d) ↔ ∃ v, t.find k = some (some v) ∧ kv2dir (k, v) = some d := by
  unfold lookupDir
  rcases t.find k with _ | _ | v <;> simp

theorem lookupDir_eq_some_none : lookupDir t k = some none ↔ t.find k = some none := by
  unfold lookupDir
  rcases t.find k with _ | _ | v <;> simp

/-- A lookup does not see what is put under other keys. -/
theorem lookupDir_append_of_ne (h : ∀ m ∈ ms, m.k ≠ k) :
    lookupDir (t ++ ms) k = lookupDir t k := by
  unfold lookupDir
  rw [find_append_of_ne h]

/-- One message on the key. -/
theorem find_append_one {m : GefsMsg} (hm : ms.filter (·.k = k) = [m]) :
    (t ++ ms).find k = (t.find k).bind fun v => serverEff gefsKvmax k v m := by
  rw [find_append, hm]
  simp

theorem lookupDir_wstat (hd : lookupDir t k = some (some d)) {w : Wstat}
    (hm : ms.filter (·.k = k) = [w.msg k]) :
    lookupDir (t ++ ms) k = some (some (w.upd (bumpVers d))) := by
  obtain ⟨v, hv, hd⟩ := lookupDir_eq_some_some.1 hd
  obtain ⟨v', hv', hd'⟩ := statupdate_pack hd w
  refine lookupDir_eq_some_some.2 ⟨v', ?_, hd'⟩
  rw [find_append_one hm, hv]
  simp only [serverEff, Option.bind_some, Wstat.msg] at hv' ⊢
  rw [hv']
  rfl

theorem lookupDir_insert (hf : t.find k = some none) {up : Int64} {m : GefsMsg}
    (hi : insertDir up d = some m) (hk : m.k = k) (hn : ∀ s ∈ d.name, ∀ b ∈ s, b ≠ 0)
    (hm : ms.filter (·.k = k) = [m]) : lookupDir (t ++ ms) k = some (some d) := by
  subst hk
  have hd := kv2dir_insertDir hi hn
  obtain ⟨hop, hlen⟩ : m.op = .oinsert ∧ m.k.length + m.v.length ≤ gefsKvmax := by
    unfold insertDir at hi
    simp only [Option.bind_eq_bind, Option.bind_eq_some_iff, Option.some.injEq] at hi
    obtain ⟨s, -, k, hk, v, hv, rfl⟩ := hi
    have hkl := length_dkey hk
    have hvl : v.length = 61 := length_gefsPackdval hv
    have : gefsKvmax = 768 := rfl
    exact ⟨rfl, by dsimp only; omega⟩
  refine lookupDir_eq_some_some.2 ⟨m.v, ?_, hd⟩
  rw [find_append_one hm, hf, Option.bind_some, serverEff, hop]
  exact if_pos hlen

theorem find_remove {v : Option Bytes} (hf : t.find k = some v) {m : GefsMsg}
    (hop : m.op = .oclobber ∨ m.op = .odelete ∧ v.isSome) (hm : ms.filter (·.k = k) = [m]) :
    (t ++ ms).find k = some none := by
  rw [find_append_one hm, hf, Option.bind_some, serverEff]
  rcases hop with hop | ⟨hop, hv⟩
  · rw [hop]
  · rw [hop]
    exact if_pos hv

/-- Removals leave nothing. -/
theorem find_clear (hop : ∀ m ∈ ms, m.op = .oclearb) (hk : ∃ m ∈ ms, m.k = k) {v : Option Bytes}
    (hf : t.find k = some v) : (t ++ ms).find k = some none := by
  have hfold : ∀ (l : List GefsMsg) (v : Option Bytes), (∀ m ∈ l, m.op = .oclearb) →
      (v = none ∨ l ≠ []) → l.foldlM (serverEff gefsKvmax k) v = some none := by
    intro l
    induction l with
    | nil =>
      rintro v - (rfl | h)
      · rfl
      · exact absurd rfl h
    | cons m l ih =>
      intro v h _
      rw [List.foldlM_cons, serverEff, h m (by simp)]
      exact ih none (fun m hm => h m (by simp [hm])) (.inl rfl)
  obtain ⟨m, hm, hk⟩ := hk
  rw [find_append, hf, Option.bind_some]
  refine hfold _ _ (fun m hm => hop m (List.mem_of_mem_filter hm)) (.inr ?_)
  exact List.ne_nil_of_mem (List.mem_filter.2 ⟨hm, by simpa using hk⟩)

/-- A lookup that stops goes on to stop. -/
theorem find_append_none (hf : t.find k = none) : (t ++ ms).find k = none := by
  rw [find_append, hf]
  rfl

/-- The keys of directories are no keys of entries. -/
theorem lookupDir_ne_of_length (hk : k.length = 9) : lookupDir t k ≠ some (some d) := by
  intro h
  obtain ⟨v, -, hd⟩ := lookupDir_eq_some_some.1 h
  obtain ⟨-, -, ⟨s, hs⟩, -⟩ := kv2dir_eq_some.1 hd
  rw [List.drop_of_length_le hk.le] at hs
  simp [gefsUnpackstr] at hs

/-- A key of an entry is longer than the key of a directory and begins with `Kent`. -/
theorem dkey_shape {up : Int64} {s : Bytes} (h : dkey up s = some k) :
    9 < k.length ∧ k.head? = some gefsKent := by
  obtain ⟨-, rfl⟩ := gefsPackdkey_eq_some.1 h
  refine ⟨?_, rfl⟩
  simp only [List.length_append, length_pack8, length_pack64, length_pack16, List.length_singleton]
  omega

/-- Blocks that hold under `k` what the messages leave there are looked up as the messages are. -/
theorem btlookup_eq_find {get : GefsBptr → Option Content} {tr : GefsTree} {n : ℕ} {T : Beps n}
    {lo hi : Option Bytes} (ht : tr.ht.toInt = n + 1) (hin : TreeIn get n T tr.bp)
    (ho : Ordered n T lo hi)
    (hsm : ∀ w, leafVal n T k = some w → k.length + w.length ≤ gefsKvmax)
    (heq : serverGet gefsKvmax n T k = t.find k) {v : Option Bytes} (hv : t.find k = some v) :
    btlookup get tr k gefsKvmax = some (v.map (k, ·)) :=
  btlookup_tree ht hin ho hsm (heq.trans hv)

end Lookup

end GefsFuse.Server
