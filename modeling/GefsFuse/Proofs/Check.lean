import GefsFuse.Check
import GefsFuse.Proofs.Search

/-!
# What the checker misses

A walk that logs no error has compared every key with the one before it and every first key with
the bound from the left (`Checked`). It never looks at the bound from the right, at the keys of
the messages against any bound, or at a hash: the tree it saw is sound exactly where these hold
(`sound_iff`).
-/

namespace GefsFuse

open ByteMem

/-- The `j`-th key of a block. -/
def entryKey (c : Content) (j : ℕ) : Bytes := (gefsGetval c j).1

/-- The keys of a block. -/
def blkKeys (c : Content) : List Bytes := (blkVals c).map (·.1)

/-- The keys of the leaves, in tree order. -/
def leafKeys : (n : ℕ) → Seen n → List Bytes
  | 0, _ => []
  | n + 1, (b, cs) =>
    if b.type = gefsTleaf then blkKeys b.toContent else cs.flatMap (leafKeys n)

/-- Every leaf is `n` levels down. -/
def LeavesAt : (n : ℕ) → Seen n → Prop
  | 0, b => (show GefsBlk from b).type ≠ gefsTleaf
  | n + 1, (b, cs) => (b.type = gefsTleaf → n = 0) ∧ ∀ c ∈ cs, LeavesAt n c

/-- The bound from the right of the `j`-th child. -/
def childHi (c : Content) (j : ℕ) (hi : Option Bytes) : Option Bytes :=
  if (j : ℤ) + 1 < c.nval then some (entryKey c (j + 1)) else hi

/-- Every message lies in the range of its pivot. -/
def MsgsIn : (n : ℕ) → Seen n → Option Bytes → Option Bytes → Prop
  | 0, _, _, _ => True
  | n + 1, (b, cs), lo, hi =>
    (b.type = gefsTpivot → ∀ i : ℕ, (i : ℤ) < b.nbuf → InRange lo hi (gefsGetmsg b.toContent i).k)
      ∧ ∀ (j : ℕ) c, cs[j]? = some c →
        MsgsIn n c (some (entryKey b.toContent j)) (childHi b.toContent j hi)

/-- The search for a key of a leaf takes, at every pivot above, the child the leaf is under, and
finds the key in the leaf. -/
def KeysFound : (n : ℕ) → Seen n → Prop
  | 0, _ => True
  | n + 1, (b, cs) =>
    (b.type = gefsTleaf → ∀ k ∈ blkKeys b.toContent, (blksearch b.toContent k).2.1 = true)
      ∧ ∀ (j : ℕ) c, cs[j]? = some c →
        (∀ k ∈ leafKeys n c, (blksearch b.toContent k).1 = j) ∧ KeysFound n c

/-- Every block hashes to what the pointer to it says. -/
def HashesOk : (n : ℕ) → Seen n → GefsBptr → Prop
  | 0, b, bp => gefsBufhash (show GefsBlk from b).buf 0 gefsBlksz = bp.hash
  | n + 1, (b, cs), bp =>
    gefsBufhash b.buf 0 gefsBlksz = bp.hash
      ∧ ∀ (j : ℕ) c, cs[j]? = some c → ∀ bp', valBptr (gefsGetval b.toContent j).2 = some bp' →
        HashesOk n c bp'

/-- What a clean walk is meant to say of the tree under `bp`. -/
structure Sound (n : ℕ) (s : Seen n) (bp : GefsBptr) : Prop where
  depth : LeavesAt n s
  sorted : (leafKeys n s).Pairwise (· < ·)
  msgs : MsgsIn n s none none
  found : KeysFound n s
  hashes : HashesOk n s bp

/-- No key of a leaf reaches the pivot key to the right of the child it is under. -/
def BelowRight : (n : ℕ) → Seen n → Prop
  | 0, _ => True
  | n + 1, (b, cs) => ∀ (j : ℕ) c, cs[j]? = some c →
    (∀ k ∈ leafKeys n c, (j : ℤ) + 1 < b.nval → k < entryKey b.toContent (j + 1))
      ∧ BelowRight n c

/-- What a walk without errors has made sure of. -/
def Checked : (n : ℕ) → Seen n → Option Bytes → Prop
  | 0, _, _ => False
  | n + 1, (b, cs), lo =>
    (b.type = gefsTleaf → n = 0)
      ∧ (∀ i j : ℕ, i < j → (j : ℤ) < b.nval → entryKey b.toContent i < entryKey b.toContent j)
      ∧ (∀ l, lo = some l → 0 < b.nval → l ≤ entryKey b.toContent 0)
      ∧ (b.type ≠ gefsTpivot → cs = [])
      ∧ ((cs.length : ℤ) = b.nval ∨ cs = [])
      ∧ ∀ (j : ℕ) c, cs[j]? = some c → Checked n c (some (entryKey b.toContent j))

theorem mem_blkKeys {c : Content} {k : Bytes} :
    k ∈ blkKeys c ↔ ∃ i : ℕ, (i : ℤ) < c.nval ∧ entryKey c i = k := by
  simp only [blkKeys, blkVals, List.map_map, List.mem_map, List.mem_range, Function.comp_apply,
    entryKey]
  constructor
  · rintro ⟨i, hi, rfl⟩
    exact ⟨i, by omega, rfl⟩
  · rintro ⟨i, hi, rfl⟩
    exact ⟨i, by omega, rfl⟩

/-- No error in the log. -/
def Clean (log : List CheckMsg) : Prop := ∀ m ∈ log, m.isError = false

theorem clean_append {l l' : List CheckMsg} : Clean (l ++ l') ↔ Clean l ∧ Clean l' :=
  List.forall_mem_append

theorem not_clean_of_isError {m : CheckMsg} (hm : m.isError = true) : ¬ Clean [m] := by
  intro h
  simp [h m (by simp)] at hm

theorem lt_of_checkOrder {addr : Int64} {i : ℕ} {x y : GefsKvp}
    (h : Clean (checkOrder addr i x y)) : x.1 < y.1 := by
  unfold checkOrder at h
  rw [gefsKeycmp_eq] at h
  split_ifs at h <;> first | assumption | exact absurd h (not_clean_of_isError rfl)

theorem le_of_checkLow {addr : Int64} {lo : Option GefsKvp} {x : GefsKvp}
    (h : Clean (checkLow addr lo x)) {l : Bytes} (hl : lo.map (·.1) = some l) : l ≤ x.1 := by
  obtain ⟨kv, rfl, rfl⟩ := Option.map_eq_some_iff.1 hl
  by_contra hlt
  have hc : 0 < gefsKeycmp kv.1 x.1 := by
    rw [gefsKeycmp_eq_one.2 (not_le.1 hlt)]
    decide
  simp only [checkLow, if_pos hc] at h
  exact not_clean_of_isError rfl h

section Walk

variable {α : Type} {chk : Checker α} {R : α → Option Bytes → Prop}
  (hR : ∀ {b lo hi ctx s log ctx'}, chk b lo hi ctx = some (s, log, ctx') → Clean log →
    R s (lo.map (·.1)))

include hR

theorem checkChild_clean {x : GefsKvp} {hi : Option GefsKvp} {miss : Int64 → CheckMsg}
    (hm : ∀ a, (miss a).isError = true) {ctx ctx' : GefsCtx} {ss : List α} {log : List CheckMsg}
    (h : checkChild chk x hi miss ctx = some (ss, log, ctx')) (hc : Clean log) :
    ∃ s, ss = [s] ∧ R s (some x.1) := by
  unfold checkChild at h
  obtain ⟨bp, -, h⟩ := Option.bind_eq_some_iff.1 h
  rcases hg : gefsGetblk ctx bp with ⟨_ | c, ctx1⟩ <;> rw [hg] at h
  · simp only [Option.some.injEq, Prod.mk.injEq] at h
    obtain ⟨-, rfl, -⟩ := h
    exact absurd hc (not_clean_of_isError (hm _))
  · obtain ⟨⟨s, log', ctx2⟩, h1, h2⟩ := Option.bind_eq_some_iff.1 h
    simp only [Option.some.injEq, Prod.mk.injEq] at h2
    obtain ⟨rfl, rfl, -⟩ := h2
    exact ⟨s, rfl, hR h1 hc⟩

theorem checkVals_clean {b : GefsBlk} :
    ∀ {n i : ℕ} {ctx ctx' : GefsCtx} {ss : List α} {log : List CheckMsg},
      checkVals chk b n (i + 1) ctx = some (ss, log, ctx') → Clean log →
      (∀ j, i ≤ j → j < i + n → entryKey b.toContent j < entryKey b.toContent (j + 1))
        ∧ (b.type = gefsTpivot → ss.length = n
          ∧ ∀ (j : ℕ) c, ss[j]? = some c → R c (some (entryKey b.toContent (i + j))))
        ∧ (b.type ≠ gefsTpivot → ss = [])
  | 0, i, ctx, ctx', ss, log, h, _ => by
    simp only [checkVals, Option.some.injEq, Prod.mk.injEq] at h
    obtain ⟨rfl, -, -⟩ := h
    refine ⟨fun j h1 h2 => by omega, fun _ => ⟨rfl, fun j c hj => by simp at hj⟩, fun _ => rfl⟩
  | n + 1, i, ctx, ctx', ss, log, h, hc => by
    simp only [checkVals, Nat.add_sub_cancel] at h
    obtain ⟨⟨s, log1, ctx1⟩, h1, h⟩ := Option.bind_eq_some_iff.1 h
    obtain ⟨⟨ss2, log2, ctx2⟩, h2, h⟩ := Option.bind_eq_some_iff.1 h
    simp only [Option.some.injEq, Prod.mk.injEq] at h
    obtain ⟨rfl, rfl, -⟩ := h
    obtain ⟨hc1, hc2⟩ := clean_append.1 hc
    obtain ⟨hco, hcl⟩ := clean_append.1 hc1
    obtain ⟨ih1, ih2, ih3⟩ := checkVals_clean h2 hc2
    refine ⟨fun j hj1 hj2 => ?_, fun hp => ?_, fun hp => ?_⟩
    · rcases hj1.lt_or_eq with hj | rfl
      · exact ih1 j hj (by omega)
      · exact lt_of_checkOrder hco
    · rw [checkBetween, if_pos hp] at h1
      obtain ⟨c0, rfl, hc0⟩ := checkChild_clean hR (fun _ => rfl) h1 hcl
      obtain ⟨hlen, hch⟩ := ih2 hp
      refine ⟨by simp [hlen], fun j c hj => ?_⟩
      rcases j with _ | j
      · simp only [List.singleton_append, List.getElem?_cons_zero, Option.some.injEq] at hj
        subst hj
        exact hc0
      · simp only [List.singleton_append, List.getElem?_cons_succ] at hj
        rw [show i + (j + 1) = i + 1 + j by omega]
        exact hch j c hj
    · rw [checkBetween, if_neg hp] at h1
      simp only [Option.some.injEq, Prod.mk.injEq] at h1
      obtain ⟨rfl, -, -⟩ := h1
      simpa using ih3 hp

end Walk

/-- Neighbours in order, all in order. -/
theorem lt_of_neighbours {f : ℕ → Bytes} {n : ℕ} (h : ∀ j < n, f j < f (j + 1)) {i j : ℕ}
    (hij : i < j) (hj : j ≤ n) : f i < f j := by
  induction j with
  | zero => omega
  | succ j ih =>
    rcases Nat.lt_succ_iff_lt_or_eq.1 hij with hlt | rfl
    · exact (ih hlt (by omega)).trans (h j (by omega))
    · exact h i (by omega)

/-- What a clean walk has made sure of. -/
theorem checked_of_clean : ∀ {n : ℕ} {b : GefsBlk} {lo hi : Option GefsKvp} {ctx ctx' : GefsCtx}
    {s : Seen n} {log : List CheckMsg}, checkBtreeNode n b lo hi ctx = some (s, log, ctx') →
    Clean log → Checked n s (lo.map (·.1))
  | 0, b, lo, hi, ctx, ctx', s, log, h, hc => by
    simp only [checkBtreeNode, Option.some.injEq] at h
    obtain ⟨-, rfl, -⟩ := h
    exact absurd hc (not_clean_of_isError rfl)
  | n + 1, b, lo, hi, ctx, ctx', s, log, h, hc => by
    have hbal : ∀ {l : List CheckMsg},
        Clean ((if b.type = gefsTleaf ∧ n ≠ 0 then [.unbalancedLeaf b.bp.addr n] else []) ++ l) →
        b.type = gefsTleaf → n = 0 := by
      intro l hl ht
      by_contra hn
      rw [if_pos ⟨ht, hn⟩] at hl
      exact not_clean_of_isError rfl (clean_append.1 hl).1
    unfold checkBtreeNode at h
    by_cases h0 : b.nval = 0
    · simp only [if_pos h0, Option.some.injEq] at h
      obtain ⟨rfl, rfl, -⟩ := h
      exact ⟨hbal hc, fun i j _ hj => by omega, fun _ _ hn => by omega, fun _ => rfl,
        .inr rfl, fun j c hj => by simp at hj⟩
    · simp only [if_neg h0] at h
      obtain ⟨⟨ss, log1, ctx1⟩, h1, h⟩ := Option.bind_eq_some_iff.1 h
      by_cases hp : b.type = gefsTpivot
      · simp only [if_pos hp] at h
        by_cases hneg : b.nval < 0
        · simp [if_pos hneg] at h
        · rw [if_neg hneg] at h
          obtain ⟨⟨s2, log2, ctx2⟩, h2, h⟩ := Option.bind_eq_some_iff.1 h
          simp only [Option.some.injEq] at h
          obtain ⟨rfl, rfl, -⟩ := h
          obtain ⟨hc4, -⟩ := clean_append.1 hc
          obtain ⟨hc3, hcl⟩ := clean_append.1 hc4
          obtain ⟨hc2, hcv⟩ := clean_append.1 hc3
          obtain ⟨-, hlow⟩ := clean_append.1 hc2
          obtain ⟨ho, hch, -⟩ := checkVals_clean checked_of_clean h1 hcv
          obtain ⟨hlen, hch⟩ := hch hp
          obtain ⟨c0, rfl, hc0⟩ := checkChild_clean checked_of_clean (fun _ => rfl) h2 hcl
          refine ⟨hbal hc2, fun i j hij hj => ?_, fun l hl _ => le_of_checkLow hlow hl,
            fun hn => absurd hp hn, .inl (by simp [hlen]; omega), fun j c hj => ?_⟩
          · exact lt_of_neighbours (n := (b.nval - 1).toNat) (fun j hj => ho j (by omega) (by omega))
              hij (by omega)
          · rcases Nat.lt_or_ge j ss.length with hjl | hjl
            · rw [List.getElem?_append_left hjl] at hj
              simpa using hch j c hj
            · rw [List.getElem?_append_right hjl] at hj
              obtain rfl : j = ss.length := by
                have := (List.getElem?_eq_some_iff.1 hj).1
                simp at this
                omega
              simp only [Nat.sub_self, List.getElem?_cons_zero, Option.some.injEq] at hj
              subst hj
              rw [hlen]
              exact hc0
      · simp only [if_neg hp, Option.some.injEq] at h
        obtain ⟨rfl, rfl, -⟩ := h
        obtain ⟨hc2, hcv⟩ := clean_append.1 hc
        obtain ⟨-, hlow⟩ := clean_append.1 hc2
        obtain ⟨ho, -, hnil⟩ := checkVals_clean checked_of_clean h1 hcv
        refine ⟨hbal hc2, fun i j hij hj => ?_, fun l hl _ => le_of_checkLow hlow hl, hnil, ?_, ?_⟩
        · exact lt_of_neighbours (n := (b.nval - 1).toNat) (fun j hj => ho j (by omega) (by omega))
            hij (by omega)
        · exact .inr (hnil hp)
        · intro j c hj
          simp [hnil hp] at hj

section Pure

theorem le_entryKey {b : GefsBlk}
    (h : ∀ i j : ℕ, i < j → (j : ℤ) < b.nval → entryKey b.toContent i < entryKey b.toContent j)
    {i j : ℕ} (hij : i ≤ j) (hj : (j : ℤ) < b.nval) :
    entryKey b.toContent i ≤ entryKey b.toContent j := by
  rcases hij.lt_or_eq with hlt | rfl
  · exact (h i j hlt hj).le
  · exact le_rfl

theorem Checked.leavesAt : ∀ {n : ℕ} {s : Seen n} {lo : Option Bytes}, Checked n s lo →
    LeavesAt n s
  | 0, _, _, h => h.elim
  | _ + 1, (_, _), _, ⟨hd, _, _, _, _, hch⟩ => by
    refine ⟨hd, fun c hc => ?_⟩
    obtain ⟨j, hj⟩ := List.mem_iff_getElem?.1 hc
    exact (hch j c hj).leavesAt

/-- The bound from the left holds for every leaf below. -/
theorem Checked.le_leafKeys : ∀ {n : ℕ} {s : Seen n} {l : Bytes}, Checked n s (some l) →
    ∀ k ∈ leafKeys n s, l ≤ k
  | 0, _, _, h, _, _ => h.elim
  | n + 1, (b, cs), l, ⟨_, ho, hlo, _, hlen, hch⟩, k, hk => by
    simp only [leafKeys] at hk
    split_ifs at hk with ht
    · obtain ⟨i, hi, rfl⟩ := mem_blkKeys.1 hk
      exact (hlo l rfl (by omega)).trans (le_entryKey ho (Nat.zero_le i) hi)
    · obtain ⟨c, hc, hk⟩ := List.mem_flatMap.1 hk
      obtain ⟨j, hj⟩ := List.mem_iff_getElem?.1 hc
      have hjl := (List.getElem?_eq_some_iff.1 hj).1
      have hjn : (j : ℤ) < b.nval := by
        rcases hlen with hlen | rfl
        · omega
        · simp at hjl
      calc l ≤ entryKey b.toContent 0 := hlo l rfl (by omega)
        _ ≤ entryKey b.toContent j := le_entryKey ho (Nat.zero_le j) hjn
        _ ≤ k := (hch j c hj).le_leafKeys k hk

/-- A key at or right of the `j`-th key and left of the next is searched for in the `j`-th
child. -/
theorem blksearch_eq_of_between {c : Content} {n : ℕ} (hn : c.nval = n)
    (ho : ∀ i j, i < j → j < n → entryKey c i < entryKey c j) {k : Bytes} {j : ℕ} (hj : j < n)
    (h1 : entryKey c j ≤ k) (h2 : j + 1 < n → k < entryKey c (j + 1)) :
    (blksearch c k).1 = j := by
  have hle : ∀ i j, i ≤ j → j < n → entryKey c i ≤ entryKey c j := by
    intro i j hij hj
    rcases hij.lt_or_eq with h | rfl
    · exact (ho i j h hj).le
    · exact le_rfl
  obtain ⟨p, hp, hlt, h⟩ := blksearch_spec hn hle k
  have hup : ∀ i, j < i → i < n → ¬ entryKey c i < k := by
    intro i hi hin hik
    exact (hik.trans (h2 (by omega))).not_ge (hle (j + 1) i hi hin)
  rcases h with ⟨hpn, hk, h⟩ | ⟨hne, h⟩
  · rw [h]
    have hpj : p = j := by
      rcases Nat.lt_trichotomy p j with hlt' | heq | hgt
      · have := ho p j hlt' hj
        rw [entryKey, hk] at this
        exact absurd h1 this.not_ge
      · exact heq
      · have := (h2 (by omega)).trans_le (hle (j + 1) p hgt hpn)
        rw [entryKey, hk] at this
        exact absurd this (lt_irrefl _)
    rw [hpj]
  · rw [h]
    have hjk : entryKey c j < k := lt_of_le_of_ne h1 (hne j hj)
    have h3 := (hlt j hj).2 hjk
    have h4 : p ≤ j + 1 := by
      by_contra hgt
      exact hup (j + 1) (by omega) (by omega) ((hlt (j + 1) (by omega)).1 (by omega))
    simp only []
    omega

/-- A key searched for in the `j`-th child lies left of the next key. -/
theorem lt_of_blksearch_eq {c : Content} {n : ℕ} (hn : c.nval = n)
    (ho : ∀ i j, i < j → j < n → entryKey c i < entryKey c j) {k : Bytes} {j : ℕ}
    (hj : j + 1 < n) (h : (blksearch c k).1 = j) : k < entryKey c (j + 1) := by
  have hle : ∀ i j, i ≤ j → j < n → entryKey c i ≤ entryKey c j := by
    intro i j hij hj
    rcases hij.lt_or_eq with h | rfl
    · exact (ho i j h hj).le
    · exact le_rfl
  obtain ⟨p, hp, hlt, hs⟩ := blksearch_spec hn hle k
  rcases hs with ⟨hpn, hk, hs⟩ | ⟨hne, hs⟩
  · rw [hs] at h
    obtain rfl : p = j := by simpa using h
    rw [← hk]
    exact ho p (p + 1) (by omega) hj
  · rw [hs] at h
    simp only [] at h
    obtain rfl : p = j + 1 := by omega
    have h1 : ¬ entryKey c (j + 1) < k := fun h1 => absurd ((hlt (j + 1) hj).2 h1) (by omega)
    exact lt_of_le_of_ne (not_lt.1 h1) (hne (j + 1) hj).symm

theorem Checked.keysFound : ∀ {n : ℕ} {s : Seen n} {lo : Option Bytes}, Checked n s lo →
    (KeysFound n s ↔ BelowRight n s)
  | 0, _, _, h => h.elim
  | n + 1, (b, cs), lo, ⟨_, ho, _, _, hlen, hch⟩ => by
    have hjn : ∀ (j : ℕ) c, cs[j]? = some c → (j : ℤ) < b.nval := by
      intro j c hj
      have hjl := (List.getElem?_eq_some_iff.1 hj).1
      rcases hlen with hlen | rfl
      · omega
      · simp at hjl
    have ho' : ∀ i j, i < j → j < b.nval.toNat → entryKey b.toContent i < entryKey b.toContent j :=
      fun i j hij hj => ho i j hij (by omega)
    constructor
    · rintro ⟨-, h⟩ j c hj
      refine ⟨fun k hk hj1 => ?_, (hch j c hj).keysFound.1 (h j c hj).2⟩
      exact lt_of_blksearch_eq (n := b.nval.toNat) (by omega) ho' (by omega) ((h j c hj).1 k hk)
    · intro h
      refine ⟨fun _ k hk => ?_, fun j c hj => ⟨fun k hk => ?_, ?_⟩⟩
      · obtain ⟨i, hi, rfl⟩ := mem_blkKeys.1 hk
        obtain ⟨p, -, -, hs⟩ := blksearch_spec (c := b.toContent) (n := b.nval.toNat) (by omega)
          (fun i j hij hj => le_entryKey ho hij (by omega)) (entryKey b.toContent i)
        rcases hs with ⟨-, -, hs⟩ | ⟨hne, -⟩
        · rw [hs]
        · exact absurd rfl (hne i (by omega))
      · have := hjn j c hj
        refine blksearch_eq_of_between (n := b.nval.toNat) (by omega) ho' (by omega)
          ((hch j c hj).le_leafKeys k hk) fun hj1 => (h j c hj).1 k hk (by omega)
      · exact (hch j c hj).keysFound.2 (h j c hj).2

/-- A pairwise relation on the pieces and across them. -/
theorem pairwise_flatMap_of_getElem {α β : Type*} {R : β → β → Prop} {f : α → List β} :
    ∀ {l : List α}, (∀ a ∈ l, (f a).Pairwise R) →
      (∀ (i j : ℕ) a b, i < j → l[i]? = some a → l[j]? = some b → ∀ x ∈ f a, ∀ y ∈ f b, R x y) →
      (l.flatMap f).Pairwise R
  | [], _, _ => by simp
  | a :: l, h1, h2 => by
    rw [List.flatMap_cons, List.pairwise_append]
    refine ⟨h1 a (by simp), ?_, fun x hx y hy => ?_⟩
    · refine pairwise_flatMap_of_getElem (fun b hb => h1 b (by simp [hb])) ?_
      intro i j b c hij hb hc
      exact h2 (i + 1) (j + 1) b c (by omega) (by simpa using hb) (by simpa using hc)
    · obtain ⟨b, hb, hy⟩ := List.mem_flatMap.1 hy
      obtain ⟨j, hj⟩ := List.mem_iff_getElem?.1 hb
      exact h2 0 (j + 1) a b (by omega) (by simp) (by simpa using hj) x hx y hy

theorem Checked.pairwise : ∀ {n : ℕ} {s : Seen n} {lo : Option Bytes}, Checked n s lo →
    BelowRight n s → (leafKeys n s).Pairwise (· < ·)
  | 0, _, _, h, _ => h.elim
  | n + 1, (b, cs), lo, ⟨_, ho, _, _, hlen, hch⟩, hr => by
    simp only [leafKeys]
    split_ifs with ht
    · unfold blkKeys blkVals
      rw [List.map_map, List.pairwise_map]
      refine List.pairwise_lt_range.imp_of_mem fun {i j} _ hj hij => ho i j hij ?_
      have := List.mem_range.1 hj
      omega
    · refine pairwise_flatMap_of_getElem (fun c hc => ?_) fun i j a c hij ha hc x hx y hy => ?_
      · obtain ⟨j, hj⟩ := List.mem_iff_getElem?.1 hc
        exact (hch j c hj).pairwise (hr j c hj).2
      · have hjl := (List.getElem?_eq_some_iff.1 hc).1
        have hjn : (j : ℤ) < b.nval := by
          rcases hlen with hlen | rfl
          · omega
          · simp at hjl
        calc x < entryKey b.toContent (i + 1) := (hr i a ha).1 x hx (by omega)
          _ ≤ entryKey b.toContent j := le_entryKey ho hij hjn
          _ ≤ y := (hch j c hc).le_leafKeys y hy

end Pure

theorem checked_of_checkSnapshotTree {ctx ctx' : GefsCtx} {t : GefsTree}
    {s : Seen t.ht.toInt.toNat} {log : List CheckMsg}
    (h : checkSnapshotTree ctx t = some (some s, log, ctx')) (hc : Clean log) :
    Checked _ s none := by
  unfold checkSnapshotTree at h
  rcases hg : gefsGetblk ctx t.bp with ⟨_ | root, ctx1⟩ <;> rw [hg] at h
  · simp at h
  · obtain ⟨⟨s', log', ctx2⟩, h1, h2⟩ := Option.bind_eq_some_iff.1 h
    simp only [Option.some.injEq, Prod.mk.injEq] at h2
    obtain ⟨rfl, rfl, -⟩ := h2
    exact checked_of_clean h1 hc

/-- The tree a clean walk saw is sound exactly where what the walk never looks at holds. -/
theorem sound_iff (ctx : GefsCtx) (t : GefsTree) {s : Seen t.ht.toInt.toNat}
    {log : List CheckMsg} {ctx' : GefsCtx}
    (h : checkSnapshotTree ctx t = some (some s, log, ctx')) (hc : Clean log) :
    Sound _ s t.bp ↔ BelowRight _ s ∧ MsgsIn _ s none none ∧ HashesOk _ s t.bp := by
  have hck := checked_of_checkSnapshotTree h hc
  constructor
  · intro hs
    exact ⟨hck.keysFound.1 hs.found, hs.msgs, hs.hashes⟩
  · rintro ⟨hr, hm, hh⟩
    exact ⟨hck.leavesAt, hck.pairwise hr, hm, hck.keysFound.2 hr, hh⟩

section Crossed

/-- A pivot over the leaves 1, 3 and 2, with the keys 1 and 2: the key 3 lies left of the key 2 it
should lie right of. -/
def crossedDisk : Disk :=
  { size := 49152
    byte := store (store (store (fun _ => 0)
        0 ([0, 1, 0, 2, 0, 62, 0, 0, 0, 0, 0, 4, 0, 33]
          ++ packkv ([1], gefsPackbp ⟨16384, 0, 0⟩) ++ packkv ([2], gefsPackbp ⟨32768, 0, 0⟩)))
        16384 ([0, 2, 0, 2, 0, 14, 0, 4, 0, 9] ++ packkv ([1], []) ++ packkv ([3], [])))
        32768 ([0, 2, 0, 1, 0, 7, 0, 2] ++ packkv ([2], [])) }

def crossedCtx : GefsCtx :=
  { disk := crossedDisk
    sb := ⟨16384, 0, 0, zeroTree, 0, 0, 0, 0, []⟩
    cache := gefsCacheInit 4096
    snapTree := zeroTree
    activeTree := zeroTree
    arenas := []
    dirty := false
    readonly := true
    heap := fun _ _ => 0
    nblk := 0 }

def crossedTree : GefsTree := { zeroTree with ht := 2 }

/-- Under the first child of a pivot with two keys lies a key that is not below the second. -/
def crosses (s : Seen 2) : Bool :=
  s.1.nval = 2 ∧ ∃ c ∈ s.2[0]?, ∃ k ∈ leafKeys 1 c, ¬ k < entryKey s.1.toContent 1

theorem checkSnapshotTree_crossed :
    (checkSnapshotTree crossedCtx crossedTree).any
      (fun r => r.2.1 = [] ∧ r.1.any crosses) = true := by
  decide +kernel

theorem not_belowRight_of_crosses {s : Seen 2} (h : crosses s = true) : ¬ BelowRight 2 s := by
  obtain ⟨b, cs⟩ := s
  simp only [crosses, decide_eq_true_eq] at h
  obtain ⟨hn, c, hc, k, hk, hnlt⟩ := h
  intro hr
  exact hnlt ((hr 0 c hc).1 k hk (by rw [hn]; decide))

theorem exists_crosses : ∃ s ctx',
    checkSnapshotTree crossedCtx crossedTree = some (some s, [], ctx') ∧ crosses s = true := by
  have hr := checkSnapshotTree_crossed
  rcases hc : checkSnapshotTree crossedCtx crossedTree with _ | ⟨_ | s, log, ctx'⟩ <;>
    rw [hc] at hr
  · simp at hr
  · simp only [Option.any_some, Bool.decide_and, Bool.and_eq_true, decide_eq_true_eq] at hr
    exact Bool.noConfusion hr.2
  · simp only [Option.any_some, Bool.decide_and, Bool.and_eq_true, decide_eq_true_eq] at hr
    obtain ⟨rfl, hx⟩ := hr
    exact ⟨s, ctx', rfl, hx⟩

theorem crossed_not_sound : ∃ s ctx',
    checkSnapshotTree crossedCtx crossedTree = some (some s, [], ctx')
      ∧ ¬ Sound _ s crossedTree.bp := by
  obtain ⟨s, ctx', hc, hx⟩ := exists_crosses
  refine ⟨s, ctx', hc, fun hs => ?_⟩
  exact not_belowRight_of_crosses hx ((sound_iff _ _ hc (by simp [Clean])).1 hs).1

/-- The checker finds no error in the crossed tree, and the tree is not sound. -/
theorem not_forall_sound :
    ¬ ∀ (ctx : GefsCtx) (t : GefsTree) (s : Seen t.ht.toInt.toNat) (log : List CheckMsg)
      (ctx' : GefsCtx), checkSnapshotTree ctx t = some (some s, log, ctx') → Clean log →
      Sound _ s t.bp := by
  intro h
  obtain ⟨s, ctx', hc, hx⟩ := exists_crosses
  have hs := h crossedCtx crossedTree s [] ctx' hc (by simp [Clean])
  have hck := checked_of_checkSnapshotTree hc (by simp [Clean])
  exact not_belowRight_of_crosses hx (hck.keysFound.1 hs.found)

end Crossed

end GefsFuse
