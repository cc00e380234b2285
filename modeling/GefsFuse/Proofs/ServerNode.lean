import GefsFuse.Lib.Effects
import GefsFuse.Proofs.Leaf
import GefsFuse.Proofs.ServerLookup
import GefsFuse.Server.Upsert

/-!
# Blocks packed and read back

A block that fits (`Node.Fits`) reads back as its values and, up to what lies behind them, its
messages (`getval_content`, `getmsg_content`), so the searches see the lists it was made of.
-/

namespace GefsFuse.Server.Btree

open ByteMem Slots SortedMap

/-- The message without what lies behind it. -/
def bare (m : GefsMsg) : GefsMsg := { m with past := [] }

/-- The values and messages have room, and a leaf has no messages. -/
structure Node.Fits (b : Node) : Prop where
  vals : 2 * b.nval + b.valsz ≤ b.spc
  msgs : 2 * b.nbuf + b.bufsz ≤ gefsBufspc
  ops : ∀ m ∈ b.msgs, MsgOp.ofByte (opByte m.op) = m.op
  leaf : b.pivot = false → b.msgs = []

theorem pack16_nat (n : ℕ) : pack16 n = be 2 n := by
  have h : ((n : ℤ) % 65536).toNat = n % 65536 := by omega
  unfold pack16
  rw [h]
  simp only [be, List.nil_append, List.cons_append, List.cons.injEq, and_true]
  constructor <;> apply UInt8.toNat_inj.1 <;> simp only [UInt8.toNat_ofNat'] <;> omega

@[simp] theorem length_packmsg (m : GefsMsg) : (packmsg m).length = msgsz m - 2 := by
  simp only [packmsg, List.length_cons, List.length_append, length_pack16, msgsz]
  omega

section Block

variable {b : Node} {i : ℕ}

theorem total_vals (b : Node) : total (b.vals.map packkv) = b.valsz := by
  simp only [total, Node.valsz, List.map_map]
  congr 1
  refine List.map_congr_left fun kv _ => ?_
  simp only [Function.comp_apply, length_packkv, kvSize]
  omega

theorem total_msgs (b : Node) : total (b.msgs.map packmsg) = b.bufsz := by
  simp only [total, Node.bufsz, List.map_map]
  congr 1
  exact List.map_congr_left fun m _ => by simp

theorem length_le_sum {α : Type} {f : α → ℕ} {l : List α} {a : α} (h : a ∈ l) :
    f a ≤ (l.map f).sum :=
  List.single_le_sum (fun _ _ => Nat.zero_le _) _ (List.mem_map_of_mem h)

theorem spc_le (b : Node) : b.spc ≤ gefsLeafspc := by
  have h1 : gefsLeafspc = 16378 := rfl
  have h2 : gefsPivspc = 8187 := rfl
  unfold Node.spc
  split_ifs <;> omega

/-- The values of a block that fits read back. -/
theorem getval_content (hf : b.Fits) (h : i < b.vals.length) :
    gefsGetval b.content i = b.vals[i] := by
  have hspc : gefsLeafspc = 16378 := rfl
  have hpiv : gefsPivspc = 8187 := rfl
  have hle := spc_le b
  have hval : 2 * (b.vals.map packkv).length + total (b.vals.map packkv) ≤ b.spc := by
    rw [List.length_map, total_vals]
    exact hf.vals
  have hmsg : 2 * (b.msgs.map packmsg).length + total (b.msgs.map packmsg) ≤ gefsBufspc := by
    rw [List.length_map, total_msgs]
    exact hf.msgs
  have hi : i < (b.vals.map packkv).length := by simpa using h
  obtain ⟨hslot, hbody⟩ := @packSlots_at b.content.data b.spc _ (fun _ => 0) hval i hi
  have hoff := offset_lt b.spc (b.vals.map packkv) i
  -- the messages of a pivot lie behind the room of its values
  have hkeep : ∀ {o : ℕ} {bs : List UInt8},
      At (packSlots b.content.data b.spc (b.vals.map packkv) fun _ => 0) o bs →
      o + bs.length ≤ b.content.data + b.spc → At b.content.buf o bs := by
    intro o bs ho hle'
    rcases hp : b.pivot with _ | _
    · have hbuf : b.content.buf = packSlots b.content.data b.spc (b.vals.map packkv) fun _ => 0 := by
        simp [Node.content, hf.leaf hp, packSlots, packFrom]
      rwa [hbuf]
    · refine packSlots_keeps ho hmsg (.inl ?_)
      have : b.spc = gefsPivspc := by simp [Node.spc, hp]
      rw [this] at hle'
      exact hle'
  have hmem := List.getElem_mem h
  have hsz := length_le_sum (f := fun kv : GefsKvp => 2 + kv.1.length + 2 + kv.2.length) hmem
  have hv := hf.vals
  unfold Node.valsz at hv
  rw [List.getElem_map] at hbody
  have hend : offset b.spc (b.vals.map packkv) i + (packkv b.vals[i]).length ≤ b.spc := by
    have h1 := total_take_le (b.vals.map packkv) (i + 1)
    have h2 : (packkv b.vals[i]).length ≤ total ((b.vals.map packkv).take (i + 1)) := by
      rw [List.take_succ_eq_append_getElem hi]
      simp only [total, List.map_append, List.sum_append, List.map_cons, List.sum_cons,
        List.getElem_map]
      omega
    unfold offset
    omega
  refine gefsGetval_of_at (o := offset b.spc (b.vals.map packkv) i) ?_ (by omega) ?_ (by omega)
    (by omega)
  · rw [pack16_nat]
    refine hkeep hslot ?_
    simp only [length_be]
    simp only [List.length_map] at hval
    omega
  · exact hkeep hbody (by omega)

theorem gefsGetmsg_of_at {c : Content} {o : ℕ} {m : GefsMsg}
    (hs : At c.buf (c.data + gefsPivspc + 2 * i) (pack16 o)) (ho : o < 65536)
    (hb : At c.buf (c.data + gefsPivspc + o) (packmsg m)) (hk : m.k.length < 65536)
    (hv : m.v.length < 65536) (hop : MsgOp.ofByte (opByte m.op) = m.op) :
    bare (gefsGetmsg c i) = bare m := by
  have hcons : packmsg m = [opByte m.op] ++ (pack16 m.k.length ++ m.k ++ pack16 m.v.length ++ m.v) :=
    rfl
  rw [hcons, at_append, at_append, at_append, at_append] at hb
  obtain ⟨h0, ⟨⟨h1, h2⟩, h3⟩, h4⟩ := hb
  simp only [List.length_append, length_pack16, List.length_singleton] at h1 h2 h3 h4
  have e0 : c.buf (c.data + gefsPivspc + o) = opByte m.op := by simpa [At, load] using h0
  have e1 := unpack16_at_nat h1 hk
  have e3 := unpack16_at_nat h3 hv
  have r2 : c.data + gefsPivspc + o + 1 + 2 = c.data + gefsPivspc + o + 3 := by omega
  have r3 : c.data + gefsPivspc + o + 1 + (2 + m.k.length)
      = c.data + gefsPivspc + o + 3 + m.k.length := by omega
  have r4 : c.data + gefsPivspc + o + 1 + (2 + m.k.length + 2)
      = c.data + gefsPivspc + o + 3 + m.k.length + 2 := by omega
  rw [r2] at h2
  rw [r3] at e3
  rw [r4] at h4
  unfold gefsGetmsg bare
  simp only [unpack16_at_nat hs ho, e0, e1, e3, hop, GefsMsg.mk.injEq, true_and, and_true]
  exact ⟨h2, h4⟩

/-- And so do the messages, up to what lies behind them. -/
theorem getmsg_content (hf : b.Fits) (h : i < b.msgs.length) :
    bare (gefsGetmsg b.content i) = bare b.msgs[i] := by
  have hbs : gefsBufspc = 8187 := rfl
  have hmsg : 2 * (b.msgs.map packmsg).length + total (b.msgs.map packmsg) ≤ gefsBufspc := by
    rw [List.length_map, total_msgs]
    exact hf.msgs
  have hi : i < (b.msgs.map packmsg).length := by simpa using h
  obtain ⟨hslot, hbody⟩ := @packSlots_at (b.content.data + gefsPivspc) gefsBufspc _
    (packSlots b.content.data b.spc (b.vals.map packkv) fun _ => 0) hmsg i hi
  have hoff := offset_lt gefsBufspc (b.msgs.map packmsg) i
  have hmem := List.getElem_mem h
  have hsz := length_le_sum (f := fun m : GefsMsg => msgsz m - 2) hmem
  have hm := hf.msgs
  have hms : msgsz b.msgs[i] = 2 + 1 + 2 + b.msgs[i].k.length + 2 + b.msgs[i].v.length := rfl
  unfold Node.bufsz at hm
  rw [List.getElem_map] at hbody
  refine gefsGetmsg_of_at (o := offset gefsBufspc (b.msgs.map packmsg) i) ?_ (by omega) hbody
    (by omega) (by omega) (hf.ops _ hmem)
  rw [pack16_nat]
  exact hslot

theorem isLeaf_content (hf : b.Fits) (hp : b.pivot = false) : IsLeaf b.vals b.content where
  type := by simp [Node.content, hp]
  nval := rfl
  getval _ h := getval_content hf h

/-- The messages as they are read. -/
def Node.read (b : Node) : List GefsMsg := (List.range b.nbuf).map (gefsGetmsg b.content)

theorem isPivot_content (hf : b.Fits) (hp : b.pivot = true) :
    IsPivot b.vals b.read b.content where
  type := by simp [Node.content, hp]
  nval := rfl
  getval _ h := getval_content hf h
  nbuf := by simp [Node.content, Node.read]
  getmsg i h := by simp [Node.read]

theorem map_bare_read (hf : b.Fits) : b.read.map bare = b.msgs.map bare := by
  refine List.ext_getElem (by simp [Node.read, Node.nbuf]) fun i h1 h2 => ?_
  have hi : i < b.msgs.length := by simpa using h2
  simpa [Node.read] using getmsg_content hf hi

/-- What is read off a block that fits is what it holds. -/
theorem vals_of_isPivot {es : List GefsKvp} {ms : List GefsMsg} (hf : b.Fits)
    (h : IsPivot es ms b.content) :
    b.pivot = true ∧ b.vals = es ∧ b.msgs.map bare = ms.map bare := by
  have hp : b.pivot = true := by
    by_contra hp
    have := h.type
    rw [Bool.not_eq_true] at hp
    simp only [Node.content, hp] at this
    exact absurd this (by decide)
  have hlen : b.vals.length = es.length := Int.ofNat_inj.1 h.nval
  have hmlen : b.msgs.length = ms.length := Int.ofNat_inj.1 h.nbuf
  refine ⟨hp, List.ext_getElem hlen fun i h1 h2 => ?_,
    List.ext_getElem (by simpa using hmlen) fun i h1 h2 => ?_⟩
  · rw [← getval_content hf h1, h.getval i h2]
  · have hi : i < b.msgs.length := by simpa using h1
    rw [List.getElem_map, List.getElem_map, ← getmsg_content hf hi, h.getmsg i (by omega)]

theorem vals_of_isLeaf {es : List GefsKvp} (hf : b.Fits) (h : IsLeaf es b.content) :
    b.pivot = false ∧ b.vals = es := by
  have hp : b.pivot = false := by
    by_contra hp
    have := h.type
    rw [Bool.not_eq_false] at hp
    simp only [Node.content, hp] at this
    exact absurd this (by decide)
  have hlen : b.vals.length = es.length := Int.ofNat_inj.1 h.nval
  refine ⟨hp, List.ext_getElem hlen fun i h1 h2 => ?_⟩
  rw [← getval_content hf h1, h.getval i h2]

end Block

end GefsFuse.Server.Btree
