import GefsFuse.Lib.Effects
import GefsFuse.Proofs.ServerRecorded

/-!
# Names that get through a walk

The operations put only entries and keys with names into the tree (`Kept`), so a lookup with the
buffer of `fswalk` always has room, and one with that of `findparent` has where the name it copies
leaves room for the key of the directory (`upRoom_iff`). `walkRoom_iff` is the result over runs;
`fswalk_ok` says that a walk that gets through is the one of `MountSt`.
-/

namespace GefsFuse.Server

open Effects
open MountSt (WalkVars)

namespace Walk

variable {us : Users} {t : Entries} {fl : Bytes → ℕ} {k : Bytes} {nbuf : ℕ}

/-! ## Lookups -/

theorem orHalt_eq_ok {α : Type} {x : Option α} {h : Halt} {a : α} :
    orHalt x h = .ok a ↔ x = some a := by
  cases x <;> simp [orHalt]

theorem serverEff_nbuf {m : GefsMsg} {v : Option Bytes} (hop : m.op ≠ .oinsert) (nbuf' : ℕ) :
    serverEff nbuf k v m = serverEff nbuf' k v m := by
  unfold serverEff
  split
  · next h => exact absurd h hop
  all_goals rfl

/-- An insertion that has room, or any other message, does what it does in the tree. -/
theorem apply_eq {m : GefsMsg} {v : Option Bytes} (hn : nbuf ≤ gefsKvmax)
    (h : m.op = .oinsert → k.length + m.v.length ≤ nbuf) :
    apply nbuf k v m = orHalt (serverEff gefsKvmax k v m) .stops := by
  unfold apply
  split_ifs with hop
  · have hlen := h hop
    have hlen' : k.length + m.v.length ≤ gefsKvmax := by omega
    simp only [cpkvp, if_pos hlen, serverEff, hop, if_pos hlen', orHalt]
    rfl
  · rw [serverEff_nbuf hop gefsKvmax]

theorem foldlM_apply (hn : nbuf ≤ gefsKvmax) : ∀ {l : List GefsMsg} {v : Option Bytes},
    (∀ m ∈ l, m.op = .oinsert → k.length + m.v.length ≤ nbuf) →
      l.foldlM (apply nbuf k) v = orHalt (l.foldlM (serverEff gefsKvmax k) v) .stops
  | [], v, _ => rfl
  | m :: l, v, h => by
    rw [List.foldlM_cons, List.foldlM_cons, apply_eq hn (h m (by simp))]
    rcases serverEff gefsKvmax k v m with _ | v'
    · rfl
    · exact foldlM_apply hn fun m hm => h m (by simp [hm])

theorem find_eq (t : Entries) (fl : Bytes → ℕ) (k : Bytes) :
    t.find k = (leafValue t fl k).bind fun v =>
      (pending t fl k).foldlM (serverEff gefsKvmax k) v := by
  unfold Entries.find leafValue flushed pending
  conv_lhs => rw [← List.take_append_drop (fl k) (t.filter (·.k = k)), List.foldlM_append]
  rfl

/-- A lookup whose copies have room finds what the tree has. -/
theorem btlookup_eq (hn : nbuf ≤ gefsKvmax)
    (h : ∀ v ∈ copies t fl k, k.length + v.length ≤ nbuf) :
    btlookup t fl k nbuf = orHalt (t.find k) .stops := by
  have hp : ∀ m ∈ pending t fl k, m.op = .oinsert → k.length + m.v.length ≤ nbuf := by
    intro m hm hop
    refine h m.v (List.mem_append_right _ (List.mem_map_of_mem (List.mem_filter.2 ⟨hm, ?_⟩)))
    simp [hop]
  rw [find_eq t fl k]
  unfold btlookup
  rcases hl : leafValue t fl k with _ | _ | v
  · rfl
  · exact foldlM_apply hn hp
  · have hv := h v (List.mem_append_left _ (by simp [hl]))
    show (do cpkvp k v nbuf; (pending t fl k).foldlM (apply nbuf k) (some v)) = _
    rw [cpkvp, if_pos hv]
    exact foldlM_apply hn hp

/-- The blocks of a tree that has the flushed messages in its leaf and the others above it are
looked up so. -/
theorem btlookup_blocks {get : GefsBptr → Option Content} {tr : GefsTree} {n : ℕ} {T : Beps n}
    {lo hi : Option Bytes} (hh : tr.ht.toInt = n + 1) (hin : TreeIn get n T tr.bp)
    (ho : Ordered n T lo hi) (hleaf : leafValue t fl k = some (leafVal n T k))
    (hmsgs : pending t fl k = msgsOn n T k) {v : Option Bytes}
    (h : btlookup t fl k nbuf = .ok v) :
    Server.btlookup get tr k nbuf = some (v.map (k, ·)) := by
  have hfold : ∀ {l : List GefsMsg} {v v' : Option Bytes}, l.foldlM (apply nbuf k) v = .ok v' →
      l.foldlM (serverEff nbuf k) v = some v' := by
    intro l
    induction l with
    | nil =>
      intro v v' h
      exact congrArg some (Except.ok.inj h)
    | cons m l ih =>
      intro v v' h
      rw [List.foldlM_cons] at h ⊢
      obtain ⟨u, hu, h⟩ := bind_eq_ok_iff.1 h
      have hu : serverEff nbuf k v m = some u := by
        unfold apply cpkvp at hu
        split_ifs at hu with hop hfit
        · unfold serverEff
          rw [hop]
          exact (if_pos hfit).trans (congrArg some (Except.ok.inj hu))
        · cases hu
        · exact orHalt_eq_ok.1 hu
      rw [hu]
      exact ih h
  unfold btlookup at h
  rw [hleaf, hmsgs] at h
  obtain ⟨u, hu, h⟩ := bind_eq_ok_iff.1 h
  obtain rfl := Option.some.inj (orHalt_eq_ok.1 hu)
  obtain ⟨_, hcopy, h⟩ := bind_eq_ok_iff.1 h
  refine btlookup_tree hh hin ho (fun w hw => ?_) (hfold h)
  rw [hw] at hcopy
  by_contra hlong
  simp only [Option.elim, cpkvp, if_neg hlong] at hcopy
  cases hcopy

/-! ## What is recorded -/

theorem mem_flushed {m : GefsMsg} (h : m ∈ flushed t fl k) : m ∈ t ∧ m.k = k := by
  simpa using List.mem_filter.1 (List.mem_of_mem_take h)

theorem mem_pending {m : GefsMsg} (h : m ∈ pending t fl k) : m ∈ t ∧ m.k = k := by
  simpa using List.mem_filter.1 (List.mem_of_mem_drop h)

/-- Messages that insert values of one length leave values of that length. -/
theorem foldlM_length {n : ℕ} : ∀ {l : List GefsMsg} {v v' : Option Bytes},
    (∀ m ∈ l, m.op = .oinsert → m.v.length = n) → (∀ b ∈ v, b.length = n) →
      l.foldlM (serverEff gefsKvmax k) v = some v' → ∀ b ∈ v', b.length = n
  | [], v, v', _, hv, h => by
    obtain rfl := Option.some.inj h
    exact hv
  | m :: l, v, v', hl, hv, h => by
    rw [List.foldlM_cons] at h
    obtain ⟨u, h1, h2⟩ := Option.bind_eq_some_iff.1 h
    refine foldlM_length (fun m hm => hl m (by simp [hm])) ?_ h2
    intro b hb
    obtain rfl := Option.mem_def.1 hb
    by_cases hset : m.settles = true
    · by_cases hop : m.op = .oinsert
      · unfold serverEff at h1
        rw [hop] at h1
        dsimp only at h1
        split_ifs at h1
        rw [← Option.some.inj (Option.some.inj h1)]
        exact hl m (by simp) hop
      · unfold serverEff at h1
        unfold GefsMsg.settles at hset
        simp only [hop, decide_eq_true_eq, false_or] at hset
        rcases hset with h | h | h <;> simp [h] at h1
    · obtain ⟨_, -, -, -, h3⟩ := msgEff_of_serverEff (w := v) rfl h1
      obtain ⟨hlike, -⟩ := h3 (by simpa using hset)
      obtain ⟨c, rfl, hlen⟩ := Like.some_left hlike.symm
      rw [hlen]
      exact hv c rfl

theorem copies_length {n : ℕ} (h : ∀ m ∈ t, m.k = k → m.op = .oinsert → m.v.length = n) :
    ∀ v ∈ copies t fl k, v.length = n := by
  intro v hv
  rcases List.mem_append.1 hv with hv | hv
  · rcases hl : leafValue t fl k with _ | _ | v'
    · simp [hl] at hv
    · simp [hl] at hv
    · simp only [hl, Option.join_some, Option.toList_some, List.mem_singleton] at hv
      subst hv
      refine foldlM_length (fun m hm => ?_) (by simp) hl v rfl
      exact h m (mem_flushed hm).1 (mem_flushed hm).2
  · obtain ⟨m, hm, rfl⟩ := List.mem_map.1 hv
    obtain ⟨hm, hop⟩ := List.mem_filter.1 hm
    exact h m (mem_pending hm).1 (mem_pending hm).2 (by simpa using hop)

/-- The entries are looked up as the tree has them. -/
theorem entry_eq (ht : AllRecorded t) (hk : k.head? = some gefsKent) (hlen : k.length ≤ 256) :
    entry t fl k = orHalt (lookupDir t k) .stops := by
  have hc : ∀ v ∈ copies t fl k, k.length + v.length ≤ gefsKvmax := by
    intro v hv
    have h61 := copies_length (n := xdirsz) (fun m hm hmk hop => (ht m hm).1 hop (hmk ▸ hk)) v hv
    have h1 : xdirsz = 61 := rfl
    have h2 : gefsKvmax = 768 := rfl
    omega
  unfold entry lookupDir
  rw [btlookup_eq le_rfl hc]
  rcases t.find k with _ | _ | v
  · rfl
  · rfl
  · show (orHalt (kv2dir (k, v)) .stops).map some = orHalt ((kv2dir (k, v)).map some) .stops
    cases kv2dir (k, v) <;> rfl

/-! ## The key of a directory -/

theorem serverEff_onUp {v : Option Bytes} {m : GefsMsg} (hm : OnUp m) (hk : k.length = 9) :
    serverEff gefsKvmax k v m = some (if m.op = .oinsert then some m.v else none) := by
  unfold serverEff
  rcases hm with hop | ⟨hop, q, name, hd⟩
  · simp [hop]
  · obtain ⟨h1, h2⟩ := length_of_dkey hd
    have h3 : k.length + m.v.length ≤ gefsKvmax := by
      have : gefsKvmax = 768 := rfl
      omega
    simp [hop, h3]

/-- Such messages never stop the server, and leave a key with a name. -/
theorem foldlM_onUp (hk : k.length = 9) : ∀ {l : List GefsMsg} {v : Option Bytes},
    (∀ m ∈ l, OnUp m) → (∀ b ∈ v, ∃ q name, dkey q name = some b) →
      ∃ v', l.foldlM (serverEff gefsKvmax k) v = some v' ∧ ∀ b ∈ v', ∃ q name, dkey q name = some b
  | [], v, _, hv => ⟨v, rfl, hv⟩
  | m :: l, v, hl, hv => by
    rw [List.foldlM_cons, serverEff_onUp (hl m (by simp)) hk]
    refine foldlM_onUp hk (fun m hm => hl m (by simp [hm])) ?_
    split_ifs with hop
    · rcases hl m (by simp) with h | ⟨-, h⟩
      · rw [hop] at h
        cases h
      · simpa using h
    · simp

section Up

variable {up : Int64} (ht : AllRecorded t)

include ht

theorem leafValue_up (q : UInt64) : ∃ v, leafValue t fl (packupkey q) = some v
    ∧ ∀ b ∈ v, ∃ q name, dkey q name = some b :=
  foldlM_onUp (packupkey_shape q).1 (fun _ hm => ht.onUp (mem_flushed hm).1 (mem_flushed hm).2)
    (by simp)

theorem find_up (q : UInt64) : ∃ v, t.find (packupkey q) = some v
    ∧ ∀ b ∈ v, ∃ q name, dkey q name = some b := by
  refine foldlM_onUp (packupkey_shape q).1 (fun m hm => ?_) (by simp)
  obtain ⟨hm, hk⟩ := List.mem_filter.1 hm
  exact ht.onUp hm (by simpa using hk)

theorem copies_up {q : UInt64} {v : Bytes} (hv : v ∈ copies t fl (packupkey q)) :
    ∃ q name, dkey q name = some v := by
  rcases List.mem_append.1 hv with hv | hv
  · have hup : ∃ v, leafValue t fl (packupkey q) = some v ∧ ∀ b ∈ v, ∃ q name, dkey q name = some b :=
      leafValue_up ht q
    obtain ⟨v', hl, h⟩ := hup
    refine h v ?_
    rw [hl] at hv
    simpa using hv
  · obtain ⟨m, hm, rfl⟩ := List.mem_map.1 hv
    obtain ⟨hm, hop⟩ := List.mem_filter.1 hm
    rcases ht.onUp (mem_pending hm).1 (mem_pending hm).2 with h | ⟨-, h⟩
    · simp [h] at hop
    · exact h

/-- The buffer of `findparent` has room for each name of at most 235 bytes. -/
theorem upRoom_iff :
    UpRoom t fl up ↔ ∀ v ∈ copies t fl (packupkey up.toUInt64), 9 + v.length ≤ gefsKeymax := by
  have h256 : gefsKeymax = 256 := rfl
  constructor
  · intro h v hv
    obtain ⟨q, name, hd⟩ := copies_up ht hv
    have h1 := h v hv q name hd
    have h2 := (length_of_dkey hd).1
    omega
  · intro h v hv q name hd
    have h1 := h v hv
    have h2 := (length_of_dkey hd).1
    omega

end Up

/-- The outcome of a check. -/
def ofChk {α : Type} (c : Chk α) : Except Halt α :=
  match c.run with
  | some (.ok a) => .ok a
  | some (.error e) => .error (.error e)
  | none => .error .stops

theorem ofChk_eq_ok {α : Type} {c : Chk α} {a : α} : ofChk c = .ok a ↔ c.run = some (.ok a) := by
  unfold ofChk
  split <;> simp_all

theorem ofChk_ne_asserts {α : Type} (c : Chk α) : ofChk c ≠ .error .asserts := by
  unfold ofChk
  split <;> simp

theorem findparent_eq (ht : AllRecorded t) {up : Int64} (hr : UpRoom t fl up) :
    findparent t fl up = ofChk (Server.findparent t up) := by
  obtain ⟨v, hv, hd⟩ := find_up ht up.toUInt64
  unfold findparent Server.findparent
  rw [btlookup_eq (by decide) (by simpa [packupkey_shape] using (upRoom_iff ht).1 hr), hv]
  rcases v with _ | v
  · rfl
  · obtain ⟨q, name, hk⟩ := hd v rfl
    have hs := dkey_shape hk
    have h1 : ¬ (v.length ≤ 9 ∨ v.getD 0 0 ≠ gefsKent) := by
      have h2 := hs.2
      rw [List.head?_eq_getElem?] at h2
      simp [List.getD, h2, hs.1]
    show unpackdkey v = _
    unfold unpackdkey
    rw [if_neg h1]
    show orHalt (gefsUnpackdkey v) .stops = ofChk (must (gefsUnpackdkey v))
    cases gefsUnpackdkey v <;> rfl

/-- A copy that has no room is reached, as nothing else stops the lookup. -/
theorem foldlM_asserts (hk : k.length = 9) : ∀ {l : List GefsMsg} {v : Option Bytes},
    (∀ m ∈ l, OnUp m) → (∃ m ∈ l, m.op = .oinsert ∧ nbuf < k.length + m.v.length) →
      l.foldlM (apply nbuf k) v = .error .asserts
  | [], v, _, h => by simp at h
  | m :: l, v, hl, h => by
    rw [List.foldlM_cons]
    by_cases hm : m.op = .oinsert ∧ nbuf < k.length + m.v.length
    · unfold apply cpkvp
      rw [if_pos hm.1, if_neg (by omega)]
      rfl
    · have hlt : ∃ m ∈ l, m.op = .oinsert ∧ nbuf < k.length + m.v.length := by
        obtain ⟨m', hm', h⟩ := h
        rcases List.mem_cons.1 hm' with rfl | hm'
        · exact absurd h hm
        · exact ⟨m', hm', h⟩
      have hrest := fun v => foldlM_asserts (v := v) hk (fun m hm => hl m (by simp [hm])) hlt
      unfold apply cpkvp
      split_ifs with hop hfit
      · exact hrest _
      · exact absurd ⟨hop, by omega⟩ hm
      · rw [serverEff_nbuf hop gefsKvmax, serverEff_onUp (hl m (by simp)) hk]
        exact hrest _

theorem findparent_asserts (ht : AllRecorded t) {up : Int64} (hr : ¬ UpRoom t fl up) :
    findparent t fl up = .error .asserts := by
  have h9 := (packupkey_shape up.toUInt64).1
  rw [upRoom_iff ht] at hr
  have hleaf : ∃ v, leafValue t fl (packupkey up.toUInt64) = some v
      ∧ ∀ b ∈ v, ∃ q name, dkey q name = some b := leafValue_up ht _
  obtain ⟨v', hl, -⟩ := hleaf
  have hb : btlookup t fl (packupkey up.toUInt64) gefsKeymax = .error .asserts := by
    unfold btlookup
    rw [hl]
    by_cases hleaf : ∀ v ∈ v', 9 + v.length ≤ gefsKeymax
    · have hp : ∃ m ∈ pending t fl (packupkey up.toUInt64), m.op = .oinsert
          ∧ gefsKeymax < (packupkey up.toUInt64).length + m.v.length := by
        push Not at hr
        obtain ⟨v, hv, hlt⟩ := hr
        rcases List.mem_append.1 hv with hv | hv
        · have := hleaf v (by simpa [hl] using hv)
          omega
        · obtain ⟨m, hm, rfl⟩ := List.mem_map.1 hv
          obtain ⟨hm, hop⟩ := List.mem_filter.1 hm
          exact ⟨m, hm, by simpa using hop, by omega⟩
      have hf := fun v => foldlM_asserts (v := v) h9
        (fun m hm => ht.onUp (mem_pending hm).1 (mem_pending hm).2) hp
      rcases v' with _ | v
      · exact hf _
      · show (do cpkvp _ v gefsKeymax; _) = _
        rw [cpkvp, if_pos (by have := hleaf v rfl; omega)]
        exact hf _
    · push Not at hleaf
      obtain ⟨v, rfl, hlt⟩ := hleaf
      show (do cpkvp _ v gefsKeymax; _) = _
      rw [cpkvp, if_neg (by omega)]
      rfl
  unfold findparent
  rw [hb]
  rfl

/-! ## One element -/

theorem ofChk_bind {α β : Type} (x : Chk α) (f : α → Chk β) :
    ofChk (x >>= f) = ofChk x >>= fun a => ofChk (f a) := by
  show ofChk (ExceptT.bind x f) = _
  unfold ofChk ExceptT.bind ExceptT.run ExceptT.mk
  rcases h : (x : Option (Except Err α)) with _ | e | a <;> rfl

theorem ofChk_must {α : Type} (x : Option α) : ofChk (must x) = orHalt x .stops := by
  cases x <;> rfl

theorem dkey_of_length {name : Bytes} (h : name.length ≤ 244) (up : Int64) :
    ∃ k, dkey up name = some k := by
  refine ⟨_, gefsPackdkey_eq_some.2 ⟨?_, rfl⟩⟩
  have : gefsKeymax = 256 := rfl
  omega

theorem dkey_eq_none {name : Bytes} (h : 244 < name.length) (up : Int64) :
    dkey up name = none := by
  refine Option.eq_none_iff_forall_ne_some.2 fun k hk => ?_
  have := (length_of_dkey hk).2
  omega

theorem length_takeWhile_le {α : Type} {f : α → Bool} {l : List α} {i : ℕ} (hi : i < l.length)
    (h : f l[i] = false) : (l.takeWhile f).length ≤ i := by
  by_contra hlt
  have hlt : i < (l.takeWhile f).length := by omega
  have he : (l.takeWhile f)[i] = l[i] := (List.takeWhile_prefix f).getElem hlt
  have ht := List.mem_takeWhile_imp (List.getElem_mem hlt)
  rw [he, h] at ht
  cases ht

/-- A name that is read ends before the byte behind it. -/
theorem unpackstr_length {p s r : Bytes} (h : gefsUnpackstr p = some (s, r)) :
    s.length + 3 ≤ p.length := by
  unfold gefsUnpackstr at h
  dsimp only at h
  split_ifs at h with h3 h0
  obtain ⟨rfl, -⟩ := Prod.mk.inj (Option.some.inj h)
  push Not at h0
  generalize ByteMem.unbe (p.take 2) = n at h0
  have hlt : n < (p.drop 2).length := by
    rw [List.length_drop]
    omega
  have hz : (p.drop 2)[n] = 0 := by
    rw [List.getElem_drop, ← h0.2, List.getD_eq_getElem _ _ (by omega)]
    simp [Nat.add_comm]
  have := length_takeWhile_le (f := (· ≠ 0)) hlt (by simp [hz])
  omega

theorem unpackdkey_length {v name : Bytes} {q : Int64} (h : gefsUnpackdkey v = some (q, name)) :
    name.length + 12 ≤ v.length := by
  unfold gefsUnpackdkey at h
  split_ifs at h with h9
  obtain ⟨⟨n, r⟩, hx, he⟩ := Option.map_eq_some_iff.1 h
  obtain ⟨-, rfl⟩ := Prod.mk.inj he
  have h1 := unpackstr_length hx
  rw [List.length_drop] at h1
  dsimp only
  omega

/-- The name of a directory fits a key. -/
theorem findparent_length (ht : AllRecorded t) {up q : Int64} {n : Bytes}
    (h : (Server.findparent t up).run = some (.ok (q, n))) : n.length ≤ 244 := by
  unfold Server.findparent at h
  simp only [run_bind_ok, run_must_ok, run_orElse_ok] at h
  obtain ⟨x, hx, v, rfl, h⟩ := h
  obtain ⟨v', hv', hd⟩ := find_up ht up.toUInt64
  obtain rfl := Option.some.inj (hx.symm.trans hv')
  obtain ⟨q, m, hk⟩ := hd v rfl
  have h1 := unpackdkey_length h
  have h2 := length_dkey hk
  omega

/-- The name of an entry fits a key. -/
theorem name_length {d : GefsXdir} (hk : k.length ≤ 256) (h : lookupDir t k = some (some d)) :
    ∃ n, d.name = some n ∧ n.length ≤ 244 := by
  obtain ⟨v, -, hd⟩ := lookupDir_eq_some_some.1 h
  obtain ⟨-, -, ⟨n, hn⟩, hd⟩ := kv2dir_eq_some.1 hd
  have h1 := unpackstr_length hn
  rw [List.length_drop] at h1
  refine ⟨n, ?_, by omega⟩
  unfold gefsKv2dir at hd
  split_ifs at hd
  rw [← Option.some.inj hd, hn]
  rfl

theorem getdent_of_name {s : MountSt} {d : GefsXdir} {n : Bytes} (hd : d.name = some n)
    (hn : n.length ≤ 244) (up : Int64) : ∃ x, getdent s up d = .ok x ∧ x.1.tree = s.tree := by
  obtain ⟨k, hk⟩ := dkey_of_length hn up
  unfold getdent MountSt.getdent
  split
  · exact ⟨_, rfl, rfl⟩
  · rw [hd]
    simp only [Option.bind_eq_bind, Option.bind_some, hk]
    exact ⟨_, rfl, rfl⟩

section Element

variable {w : WalkVars} {name : CStr}

theorem walkName_eq (ht : AllRecorded t) (hr : StepRoom t fl w name) :
    walkName t fl w name = ofChk (MountSt.walkName t w name) := by
  unfold StepRoom at hr
  unfold walkName MountSt.walkName
  split_ifs at hr ⊢
  · exact findparent_eq ht hr
  · rfl

theorem walkName_length (ht : AllRecorded t) (hlen : name.bytes.length ≤ maxname)
    (hr : StepRoom t fl w name) {prev : Int64} {n : Bytes}
    (h : (MountSt.walkName t w name).run = some (.ok (prev, n))) : n.length ≤ 244 := by
  unfold StepRoom at hr
  unfold MountSt.walkName at h
  split_ifs at hr h
  · exact findparent_length ht h
  · have h245 : maxname = 245 := rfl
    have := congrArg Prod.snd (run_pure_ok.1 h)
    subst this
    dsimp only
    omega

/-- An element with room is looked up as the tree has it. -/
theorem child_eq (ht : AllRecorded t) (hlen : name.bytes.length ≤ maxname)
    (hr : StepRoom t fl w name) : child t fl w name = ofChk (do
      let (prev, n) ← MountSt.walkName t w name
      let k ← must (dkey prev n)
      let d ← must (lookupDir t k)
      pure (d.map (w.next prev))) := by
  unfold child
  rw [walkName_eq ht hr, ofChk_bind]
  rcases h : ofChk (MountSt.walkName t w name) with e | ⟨prev, n⟩
  · rfl
  · have hn := walkName_length ht hlen hr (ofChk_eq_ok.1 h)
    obtain ⟨k, hk⟩ := dkey_of_length hn prev
    have he : entry t fl k = orHalt (lookupDir t k) .stops :=
      entry_eq ht (dkey_shape hk).2 (length_dkey hk)
    show (packdkey prev n >>= fun k => entry t fl k >>= fun d => pure (d.map (w.next prev)))
      = ofChk (must (dkey prev n) >>= fun k => must (lookupDir t k) >>= fun d =>
          pure (d.map (w.next prev)))
    rw [packdkey, hk, ofChk_bind, ofChk_must]
    show (entry t fl k >>= fun d => pure (d.map (w.next prev)))
      = ofChk (must (lookupDir t k) >>= fun d => pure (d.map (w.next prev)))
    rw [he, ofChk_bind, ofChk_must]
    rfl

theorem child_asserts (ht : AllRecorded t) (hr : ¬ StepRoom t fl w name) :
    child t fl w name = .error .asserts := by
  unfold StepRoom at hr
  unfold child walkName
  split_ifs at hr ⊢ with hdots
  · rw [findparent_asserts ht hr]
    rfl
  · push Not at hr
    show (packdkey w.prev.toInt64 name.bytes >>= _) = _
    rw [packdkey, dkey_eq_none (by omega)]
    rfl

theorem child_some (ht : AllRecorded t) (hlen : name.bytes.length ≤ maxname)
    (hr : StepRoom t fl w name) {o : Fid} (hs : w.searchable us o) {w' : WalkVars} :
    child t fl w name = .ok (some w') ↔ Goes us t o w name w' := by
  rw [child_eq ht hlen hr, ofChk_eq_ok]
  simp only [run_bind_ok, run_must_ok, run_pure_ok, Goes, hlen, hs, true_and,
    Option.map_eq_some_iff]
  constructor
  · rintro ⟨⟨prev, n⟩, hn, k, hk, _, hd, d, rfl, rfl⟩
    exact ⟨prev, n, k, d, hn, hk, hd, rfl⟩
  · rintro ⟨prev, n, k, d, hn, hk, hd, rfl⟩
    exact ⟨⟨prev, n⟩, hn, k, hk, some d, hd, d, rfl, rfl⟩

end Element

/-! ## The loop -/

section Loop

variable {o : Fid} {names : List CStr} {w w' : WalkVars}

theorem roomAlong_cons {name : CStr} : RoomAlong us t fl o w (name :: names)
    ↔ (w.searchable us o → name.bytes.length ≤ maxname → StepRoom t fl w name)
      ∧ ∀ w1, Goes us t o w name w1 → RoomAlong us t fl o w1 names := by
  constructor
  · intro h
    refine ⟨fun hs hl => h [] name names rfl w (.nil w) hs hl, ?_⟩
    rintro w1 hg pre n post rfl w2 hw2 hs hl
    exact h (name :: pre) n post rfl w2 (.cons hg hw2) hs hl
  · rintro ⟨h1, h2⟩ pre n post he w2 hw2 hs hl
    rcases hw2 with _ | ⟨hg, hrest⟩
    · obtain ⟨rfl, -⟩ := List.cons.inj he
      exact h1 hs hl
    · obtain ⟨rfl, hnames⟩ := List.cons.inj he
      exact h2 _ hg _ n post hnames w2 hrest hs hl

theorem walkLoop_iff (ht : AllRecorded t) : ∀ {names : List CStr} {w : WalkVars},
    walkLoop us t fl o names w ≠ .error .asserts ↔ RoomAlong us t fl o w names
  | [], w => by
    refine ⟨fun _ pre n post he => ?_, fun _ h => by cases h⟩
    simp at he
  | name :: names, w => by
    rw [roomAlong_cons]
    unfold walkLoop
    split_ifs with hlong hs
    · have hl : ¬ name.bytes.length ≤ maxname := by omega
      refine ⟨fun _ => ⟨fun _ h => absurd h hl, fun w1 hg => absurd hg.1 hl⟩, fun _ h => by cases h⟩
    · have hl : name.bytes.length ≤ maxname := by omega
      by_cases hr : StepRoom t fl w name
      · rcases hc : child t fl w name with e | _ | w1
        · have hna : e ≠ .asserts := by
            rintro rfl
            rw [child_eq ht hl hr] at hc
            exact ofChk_ne_asserts _ hc
          refine ⟨fun _ => ⟨fun _ _ => hr, fun w1 hg => ?_⟩, fun _ h => hna (Except.error.inj h)⟩
          rw [(child_some ht hl hr hs).2 hg] at hc
          cases hc
        · refine ⟨fun _ => ⟨fun _ _ => hr, fun w1 hg => ?_⟩, fun _ h => by cases h⟩
          rw [(child_some ht hl hr hs).2 hg] at hc
          cases hc
        · show walkLoop us t fl o names w1 ≠ _ ↔ _
          rw [walkLoop_iff ht]
          refine ⟨fun h => ⟨fun _ _ => hr, fun w2 hg => ?_⟩, fun h => ?_⟩
          · rw [(child_some ht hl hr hs).2 hg] at hc
            obtain rfl := Option.some.inj (Except.ok.inj hc)
            exact h
          · exact h.2 w1 ((child_some ht hl hr hs).1 hc)
      · rw [child_asserts ht hr]
        exact ⟨fun h => absurd rfl h, fun h => absurd (h.1 hs hl) hr⟩
    · exact ⟨fun _ => ⟨fun h => absurd h hs, fun w1 hg => absurd hg.2.1 hs⟩, fun _ h => by cases h⟩

/-- Where all elements have room, the loop gets through all of them if they lead somewhere. -/
theorem walkLoop_leads (ht : AllRecorded t) : ∀ {names : List CStr} {w w' : WalkVars},
    RoomAlong us t fl o w names →
      (walkLoop us t fl o names w = .ok (w', true) ↔ Leads us t o w names w')
  | [], w, w', _ => by
    constructor
    · intro h
      obtain ⟨rfl, -⟩ := Prod.mk.inj (Except.ok.inj h)
      exact .nil w
    · rintro (_ | _)
      rfl
  | name :: names, w, w', hr => by
    obtain ⟨hr1, hr2⟩ := roomAlong_cons.1 hr
    have hcons : Leads us t o w (name :: names) w' ↔ ∃ w1, Goes us t o w name w1
        ∧ Leads us t o w1 names w' :=
      ⟨fun h => (by cases h with | cons hg hl => exact ⟨_, hg, hl⟩),
        fun ⟨w1, hg, hl⟩ => .cons hg hl⟩
    rw [hcons]
    unfold walkLoop
    split_ifs with hlong hs
    · exact ⟨fun h => (by cases h), fun ⟨w1, hg, _⟩ => absurd hg.1 (by omega)⟩
    · have hl : name.bytes.length ≤ maxname := by omega
      have hsome : ∀ w1, child t fl w name = .ok (some w1) ↔ Goes us t o w name w1 :=
        fun w1 => child_some ht hl (hr1 hs hl) hs
      rcases hc : child t fl w name with e | _ | w1
      · refine ⟨fun h => (by cases h), fun ⟨w1, hg, _⟩ => ?_⟩
        rw [(hsome w1).2 hg] at hc
        cases hc
      · refine ⟨fun h => (by cases h), fun ⟨w1, hg, _⟩ => ?_⟩
        rw [(hsome w1).2 hg] at hc
        cases hc
      · have hg := (hsome w1).1 hc
        show walkLoop us t fl o names w1 = _ ↔ _
        rw [walkLoop_leads ht (hr2 w1 hg)]
        refine ⟨fun h => ⟨w1, hg, h⟩, fun ⟨w2, hg2, h⟩ => ?_⟩
        rw [(hsome w2).2 hg2] at hc
        obtain rfl := Option.some.inj (Except.ok.inj hc)
        exact h
    · exact ⟨fun h => (by cases h), fun ⟨w1, hg, _⟩ => absurd hg.2.1 hs⟩

/-- What a walk of some elements leads to is an entry of the tree. -/
theorem Leads.found (h : Leads us t o w names w') (hne : names ≠ []) :
    w'.wqid ≠ [] ∧ ∃ n, w'.d.name = some n ∧ n.length ≤ 244 := by
  suffices h : (∃ k, k.length ≤ 256 ∧ lookupDir t k = some (some w'.d)) ∧ w'.wqid ≠ [] by
    obtain ⟨⟨k, hk, hd⟩, hq⟩ := h
    exact ⟨hq, name_length hk hd⟩
  induction h with
  | nil w => exact absurd rfl hne
  | @cons w w1 w2 name names hg hl ih =>
    rcases names with _ | ⟨n, names⟩
    · obtain ⟨-, -, prev, m, k, d, -, hk, hd, rfl⟩ := hg
      cases hl
      exact ⟨⟨k, length_dkey hk, hd⟩, by simp [MountSt.WalkVars.next]⟩
    · exact ih (by simp)

end Loop

/-! ## The end of a walk -/

theorem map_ne_asserts {α β : Type} {x : Except Halt α} {f : α → β} :
    x.map f ≠ .error .asserts ↔ x ≠ .error .asserts := by
  cases x <;> simp [Except.map]

theorem bind_ne_asserts {α β : Type} {x : Except Halt α} {f : α → Except Halt β}
    (h : ∀ a, f a ≠ .error .asserts) : (x >>= f) ≠ .error .asserts ↔ x ≠ .error .asserts := by
  rcases x with e | a
  · simp [bind, Except.bind]
  · exact ⟨fun _ h => (by cases h), fun _ => h a⟩

section End

variable {s : MountSt} {w : WalkVars} {i : FidKey}

theorem walkDir_iff (ht : AllRecorded s.tree) (hd : ∃ n, w.d.name = some n ∧ n.length ≤ 244) :
    walkDir s fl w ≠ .error .asserts ↔ (w.up ≠ -1 → UpRoom s.tree fl w.up) := by
  unfold walkDir
  split_ifs with hup
  · obtain ⟨n, hn, hlen⟩ := hd
    obtain ⟨x, hx, -⟩ := getdent_of_name (s := s) hn hlen w.up
    rw [hx]
    exact ⟨fun _ h => absurd hup h, fun _ h => by cases h⟩
  · by_cases hr : UpRoom s.tree fl w.up
    · refine ⟨fun _ _ => hr, fun _ => ?_⟩
      rw [findparent_eq ht hr]
      rcases hf : ofChk (Server.findparent s.tree w.up) with e | ⟨q, n⟩
      · have hna : e ≠ .asserts := by
          rintro rfl
          exact ofChk_ne_asserts _ hf
        exact fun h => hna (Except.error.inj h)
      · have hn := findparent_length ht (ofChk_eq_ok.1 hf)
        obtain ⟨k, hk⟩ := dkey_of_length hn q
        show (packdkey q n >>= fun k => entry s.tree fl k >>= fun d => orHalt d .stops >>= fun d =>
          getdent s q d) ≠ _
        rw [packdkey, hk]
        show (entry s.tree fl k >>= fun d => orHalt d .stops >>= fun d => getdent s q d) ≠ _
        rw [entry_eq ht (dkey_shape hk).2 (length_dkey hk)]
        rcases hx : lookupDir s.tree k with _ | _ | d
        · exact fun h => by cases h
        · exact fun h => by cases h
        · obtain ⟨m, hm, hmlen⟩ := name_length (length_dkey hk) hx
          obtain ⟨x, hx, -⟩ := getdent_of_name (s := s) hm hmlen q
          show getdent s q d ≠ _
          rw [hx]
          exact fun h => by cases h
    · rw [findparent_asserts ht hr]
      exact ⟨fun h => absurd rfl h, fun h => absurd (h hup) hr⟩

theorem walkEnd_iff (ht : AllRecorded s.tree) {f : Fid}
    (hd : ∃ n, w.d.name = some n ∧ n.length ≤ 244) :
    walkEnd s fl i f w ≠ .error .asserts ↔ (w.up ≠ -1 → UpRoom s.tree fl w.up) := by
  obtain ⟨n, hn, hlen⟩ := id hd
  obtain ⟨⟨s1, p⟩, hx, htree⟩ := getdent_of_name (s := s) hn hlen w.up
  have hdir : walkDir s1 fl w ≠ .error .asserts ↔ (w.up ≠ -1 → UpRoom s1.tree fl w.up) :=
    walkDir_iff (htree.symm ▸ ht) hd
  rw [htree] at hdir
  rw [← hdir]
  unfold walkEnd
  rw [hx]
  show (walkDir s1 fl w >>= _) ≠ _ ↔ _
  refine bind_ne_asserts ?_
  rintro ⟨s2, q⟩ h
  cases h

end End

theorem walkFid_iff {s : MountSt} (ht : AllRecorded s.tree) {i j : FidKey} {names : List CStr}
    {o : Fid} {w : WalkVars} (hd : names ≠ [] → ∃ n, w.d.name = some n ∧ n.length ≤ 244) :
    walkFid s fl i j names o w ≠ .error .asserts
      ↔ (names ≠ [] → i = j ∨ s.fids j = none → w.up ≠ -1 → UpRoom s.tree fl w.up) := by
  unfold walkFid
  by_cases hnil : names = []
  · simp only [hnil, if_true, ne_eq, not_true_eq_false, false_implies, iff_true]
    split_ifs <;> exact fun h => by cases h
  · simp only [hnil, if_false, ne_eq, not_false_eq_true, forall_true_left]
    by_cases hij : i = j
    · rw [if_pos hij]
      exact (walkEnd_iff ht (hd hnil)).trans
        ⟨fun h _ => h, fun h => h (.inl hij)⟩
    · rw [if_neg hij]
      rcases hfid : s.fids j with _ | f
      · rw [if_neg (by simp)]
        have htree : (((s.setFid j (some { o with mode := -1 })).ref o.dent).ref o.dir).tree
          = s.tree := rfl
        exact (walkEnd_iff (s := ((s.setFid j _).ref o.dent).ref o.dir) ht (hd hnil)).trans
          ⟨fun h _ => h, fun h => h (.inr rfl)⟩
      · rw [if_pos Option.isSome_some]
        exact ⟨fun _ h => (by rcases h with h | h <;> simp_all), fun _ h => (by cases h)⟩

/-- No assertion fails exactly where each key and each pair copied has room. -/
theorem fswalk_iff {s : MountSt} (ht : AllRecorded s.tree) {i : FidKey} {newfid : UInt32}
    {names : List CStr} :
    fswalk us s fl i newfid names ≠ .error .asserts ↔ s.WalkRoom us fl i newfid names := by
  unfold fswalk MountSt.WalkRoom
  rcases hf : s.fids i with _ | o
  · exact ⟨fun _ o ho => by simp at ho, fun _ h => (by cases h)⟩
  · simp only [Option.mem_def, Option.some.injEq, forall_eq']
    show (if o.mode ≠ -1 then _ else _) ≠ _ ↔ _
    by_cases hmode : o.mode = -1
    · rw [if_neg (not_not.2 hmode)]
      simp only [hmode, forall_true_left]
      rcases hde : s.dent o.dent with _ | de
      · exact ⟨fun _ de h => (by cases h), fun _ h => (by cases h)⟩
      · simp only [Option.some.injEq, forall_eq']
        show (walkLoop us s.tree fl o names (.first o de.xdir) >>= _) ≠ _ ↔ _
        by_cases hr : RoomAlong us s.tree fl o (.first o de.xdir) names
        · simp only [hr, true_and]
          have hl : ∀ w', walkLoop us s.tree fl o names (.first o de.xdir) = .ok (w', true)
              ↔ Leads us s.tree o (.first o de.xdir) names w' := fun _ => walkLoop_leads ht hr
          rcases hw : walkLoop us s.tree fl o names (.first o de.xdir) with e | ⟨w, all⟩
          · have hna : e ≠ .asserts := by
              rintro rfl
              exact (walkLoop_iff ht).2 hr hw
            refine ⟨fun _ w h => ?_, fun _ h => hna (Except.error.inj h)⟩
            rw [(hl w).2 h] at hw
            cases hw
          · rw [hw] at hl
            show (if w.wqid = [] ∧ names ≠ [] then _ else if all then _ else _) ≠ _ ↔ _
            rcases all with _ | _
            · refine ⟨fun _ w' h => (by cases (hl w').2 h), fun _ => ?_⟩
              rw [if_neg (by simp : ¬ (false = true))]
              split_ifs <;> exact fun h => by cases h
            · have hlead := (hl w).1 rfl
              have hone : ∀ w', Leads us s.tree o (.first o de.xdir) names w' → w' = w := by
                intro w' h
                exact (congrArg Prod.fst (Except.ok.inj ((hl w').2 h))).symm
              rw [if_neg fun h => (hlead.found h.2).1 h.1, if_pos rfl, map_ne_asserts,
                walkFid_iff ht fun h => (hlead.found h).2]
              exact ⟨fun h w' hw' => hone w' hw' ▸ h, fun h => h w hlead⟩
        · have hw := not_not.1 (mt (walkLoop_iff ht).1 hr)
          rw [hw]
          exact ⟨fun h => absurd rfl h, fun h => absurd h.1 hr⟩
    · rw [if_pos hmode]
      exact ⟨fun _ h => absurd h hmode, fun _ h => (by cases h)⟩

/-! ## The walk without buffers -/

section Coarse

variable {s : MountSt} {w : WalkVars} {i : FidKey}

theorem walkLoop_ok (ht : AllRecorded t) {o : Fid} : ∀ {names : List CStr} {w : WalkVars}
    {x : WalkVars × Bool}, walkLoop us t fl o names w = .ok x →
      (MountSt.walkLoop us t o names w).run = some (.ok x)
  | [], w, x, h => by
    rw [← Except.ok.inj h]
    rfl
  | name :: names, w, x, h => by
    unfold walkLoop at h
    split_ifs at h with hlong hs
    · have hl : name.bytes.length ≤ maxname := by omega
      obtain ⟨c, hc, h⟩ := bind_eq_ok_iff.1 h
      have hr : StepRoom t fl w name := by
        by_contra hr
        rw [child_asserts ht hr] at hc
        cases hc
      rw [child_eq ht hl hr, ofChk_eq_ok] at hc
      simp only [run_bind_ok, run_must_ok, run_pure_ok] at hc
      obtain ⟨⟨prev, n⟩, hn, k, hk, d, hd, rfl⟩ := hc
      unfold MountSt.walkLoop
      rw [if_pos (by exact hs)]
      refine run_bind_ok.2 ⟨(), run_refuse_ok.2 (by simpa using hl), ?_⟩
      refine run_bind_ok.2 ⟨(prev, n), hn, run_bind_ok.2 ⟨k, run_must_ok.2 hk, ?_⟩⟩
      refine run_bind_ok.2 ⟨d, run_must_ok.2 hd, ?_⟩
      rcases d with _ | d
      · rw [← Except.ok.inj h]
        rfl
      · exact walkLoop_ok ht h
    · rw [← Except.ok.inj h]
      unfold MountSt.walkLoop
      rw [if_neg (by exact hs)]
      exact run_bind_ok.2 ⟨(), run_refuse_ok.2 (by simpa using hlong), rfl⟩

theorem walkDir_ok (ht : AllRecorded s.tree) {x : MountSt × ℕ} (h : walkDir s fl w = .ok x) :
    (s.walkDir w).run = some (.ok x) := by
  unfold walkDir at h
  unfold MountSt.walkDir
  split_ifs at h ⊢
  · exact run_must_ok.2 (orHalt_eq_ok.1 h)
  · obtain ⟨⟨q, n⟩, hf, h⟩ := bind_eq_ok_iff.1 h
    obtain ⟨k, hk, h⟩ := bind_eq_ok_iff.1 h
    obtain ⟨d, hd, h⟩ := bind_eq_ok_iff.1 h
    obtain ⟨d, hd', h⟩ := bind_eq_ok_iff.1 h
    obtain rfl := orHalt_eq_ok.1 hd'
    have hk := orHalt_eq_ok.1 hk
    have hr : UpRoom s.tree fl w.up := by
      by_contra hr
      rw [findparent_asserts ht hr] at hf
      cases hf
    rw [findparent_eq ht hr, ofChk_eq_ok] at hf
    rw [entry_eq ht (dkey_shape hk).2 (length_dkey hk), orHalt_eq_ok] at hd
    exact run_bind_ok.2 ⟨(q, n), hf, run_bind_ok.2 ⟨k, run_must_ok.2 hk,
      run_bind_ok.2 ⟨some d, run_must_ok.2 hd, run_bind_ok.2 ⟨d, run_must_ok.2 rfl,
        run_must_ok.2 (orHalt_eq_ok.1 h)⟩⟩⟩⟩

theorem walkEnd_ok (ht : AllRecorded s.tree) {f : Fid} {s' : MountSt}
    (h : walkEnd s fl i f w = .ok s') (duped : Bool) :
    s.walkEnd i f w duped = some (s', .rwalk w.wqid) := by
  obtain ⟨⟨s1, p⟩, hg, h⟩ := bind_eq_ok_iff.1 h
  obtain ⟨⟨s2, q⟩, hd, h⟩ := bind_eq_ok_iff.1 h
  have hg := orHalt_eq_ok.1 hg
  have htree : s1.tree = s.tree := by
    unfold MountSt.getdent at hg
    split at hg
    · rw [← (Prod.mk.inj (Option.some.inj hg)).1]
      rfl
    · obtain ⟨n, -, hg⟩ := Option.bind_eq_some_iff.1 hg
      obtain ⟨k, -, hg⟩ := Option.bind_eq_some_iff.1 hg
      rw [← (Prod.mk.inj (Option.some.inj hg)).1]
  unfold MountSt.walkEnd
  show (s.getdent w.up w.d).bind _ = _
  rw [hg]
  show (s1.walkDir w).run.bind _ = _
  rw [walkDir_ok (htree.symm ▸ ht) hd]
  exact congrArg (fun x => some (x, Reply.rwalk w.wqid)) (Except.ok.inj h)

/-- A walk that gets through its buffers is one that has none. -/
theorem fswalk_ok (ht : AllRecorded s.tree) {newfid : UInt32} {names : List CStr}
    {x : MountSt × Reply} (h : fswalk us s fl i newfid names = .ok x) :
    s.fswalk us i newfid names = some x := by
  obtain ⟨o, ho, h⟩ := bind_eq_ok_iff.1 h
  split_ifs at h with hmode
  obtain ⟨de, hde, h⟩ := bind_eq_ok_iff.1 h
  obtain ⟨⟨w, all⟩, hl, h⟩ := bind_eq_ok_iff.1 h
  dsimp only at h
  by_cases hq : w.wqid = [] ∧ names ≠ []
  · rw [if_pos hq] at h
    cases h
  rw [if_neg hq] at h
  have hc : (MountSt.walkCheck us s i names).run = some (.ok (o, w, all)) :=
    run_bind_ok.2 ⟨o, run_orElse_ok.2 (orHalt_eq_ok.1 ho),
      run_bind_ok.2 ⟨(), run_refuse_ok.2 (by simpa using hmode),
        run_bind_ok.2 ⟨de, run_must_ok.2 (orHalt_eq_ok.1 hde),
          run_bind_ok.2 ⟨(w, all), walkLoop_ok ht hl,
            run_bind_ok.2 ⟨(), run_refuse_ok.2 (by simpa using hq), rfl⟩⟩⟩⟩⟩
  unfold MountSt.fswalk
  show ((MountSt.walkCheck us s i names).run).bind _ = _
  rw [hc]
  rcases all with _ | _
  · exact congrArg some (Except.ok.inj h)
  · rw [if_pos rfl] at h
    rcases hf : walkFid s fl i (i.1, newfid) names o w with e | s1
    · rw [hf] at h
      cases h
    · rw [hf] at h
      rw [← Except.ok.inj h]
      unfold walkFid at hf
      show (if i = (i.1, newfid) then if names = [] then _ else _ else if _ then _ else _) = _
      split_ifs at hf ⊢
      · rw [← Except.ok.inj hf]
      · rw [walkEnd_ok ht hf]
      · rw [← Except.ok.inj hf]
      · dsimp only at hf ⊢
        rw [walkEnd_ok (s := ((s.setFid (i.1, newfid) _).ref o.dent).ref o.dir) ht hf]

end Coarse

/-! ## Runs -/

/-- In every state reached from a mount just made, whatever has been flushed, a walk fails no
assertion exactly where the keys and the pairs it copies have room. -/
theorem walkRoom_iff {s₀ s : MountSt} (hm : s₀.Made)
    (h : Trans.Via (mountStep us) (fun _ _ => True) s₀ s)
    (fl : Bytes → ℕ) (i : FidKey) (newfid : UInt32) (names : List CStr) :
    fswalk us s fl i newfid names ≠ .error .asserts ↔ s.WalkRoom us fl i newfid names := by
  have h0 : Kept s₀ := ⟨hm.tree, by simp [hm.dtab]⟩
  have hk : Kept s := h.inv (fun _ _ _ hi _ hs => hi.step hs) h0
  exact fswalk_iff hk.tree

/-! ## Long names -/

theorem freshMount_made : freshMount.Made := by
  refine ⟨rfl, ?_⟩
  have hk : dkey (-1) [] = some rootKey := by decide +kernel
  unfold freshMount
  simp only [List.mem_append]
  rintro m (hm | hm)
  · exact (recorded_insertDir (Option.mem_toList.1 hm)).1
  · exact recorded_superMsg hk m hm

/-- A name of `n` bytes. -/
def longName (n : ℕ) : CStr := ⟨List.replicate n 97, by simp⟩

/-- A directory with a name of `n` bytes is made, and a file in it. -/
def deepOps (n : ℕ) : List MountOp :=
  [.attach (0, 1) 1 true, .walk (0, 1) 2 [],
    .create (0, 2) ⟨longName n, gefsDmdir ||| 0o775, 0, 5, 0⟩,
    .clunk (0, 2), .walk (0, 1) 2 [longName n], .create (0, 2) ⟨fileName, 0o664, 1, 5, 0⟩,
    .clunk (0, 2)]

/-- The walk to the file. -/
def deepWalk (n : ℕ) (s : MountSt) : Except Halt (MountSt × Reply) :=
  fswalk ⟨[], 0, 9999⟩ s (fun _ => 0) (0, 1) 2 [longName n, fileName]

def deepState (n : ℕ) : Option MountSt := Trans.run (mountStep ⟨[], 0, 9999⟩) freshMount (deepOps n)

theorem walkRoom_deep : ∃ s, deepState 235 = some s
    ∧ s.WalkRoom ⟨[], 0, 9999⟩ (fun _ => 0) (0, 1) 2 [longName 235, fileName] := by
  have hrun : (deepState 235).isSome = true := by
    decide +kernel
  have hok : ∀ s ∈ deepState 235, (deepWalk 235 s).toOption.isSome = true := by
    decide +kernel
  obtain ⟨s, hs⟩ := Option.isSome_iff_exists.1 hrun
  have hvia : Trans.Via (mountStep ⟨[], 0, 9999⟩) (fun _ _ => True) freshMount s :=
    Trans.via_of_run hs (Trans.along_of_forall fun _ _ => trivial)
  refine ⟨s, hs, (walkRoom_iff freshMount_made hvia _ _ _ _).1 fun h => ?_⟩
  have := hok s hs
  rw [deepWalk, h] at this
  cases this

theorem not_forall_walkRoom : ¬ ∀ (us : Users) (s₀ s : MountSt) (fl : Bytes → ℕ) (i : FidKey)
    (newfid : UInt32) (names : List CStr), s₀.Made →
      Trans.Via (mountStep us) (fun _ _ => True) s₀ s → (∀ n ∈ names, n.bytes.length ≤ maxname) →
        fswalk us s fl i newfid names ≠ .error .asserts := by
  intro hall
  have hrun : (deepState 236).isSome = true := by
    decide +kernel
  have hbad : ∀ s ∈ deepState 236, (deepWalk 236 s).map (fun _ => ()) = .error .asserts := by
    decide +kernel
  obtain ⟨s, hs⟩ := Option.isSome_iff_exists.1 hrun
  have hvia : Trans.Via (mountStep ⟨[], 0, 9999⟩) (fun _ _ => True) freshMount s :=
    Trans.via_of_run hs (Trans.along_of_forall fun _ _ => trivial)
  refine hall _ _ s (fun _ => 0) (0, 1) 2 _ freshMount_made hvia ?_
    (not_not.1 (mt map_ne_asserts.2 (not_not.2 (hbad s hs))))
  refine List.forall_mem_cons.2 ⟨?_, by simp [fileName, maxname]⟩
  show (List.replicate 236 _).length ≤ maxname
  rw [List.length_replicate]
  decide

end Walk

end GefsFuse.Server
