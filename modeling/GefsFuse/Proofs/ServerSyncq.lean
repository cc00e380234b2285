import GefsFuse.Server.Syncq
import Mathlib.Algebra.BigOperators.Group.Finset.Basic
import Mathlib.Data.Prod.Lex
import Mathlib.Data.Fintype.BigOperators

/-!
# The order of the sync queues

A queue holds what was put and not popped, and its root is least (`PopsMin`). The generation of a
call is taken when the call begins, so it grows with the calls; a free that is least in its queue is
then not before any earlier write of its address (`FreesLast`), and a fence is behind all that was
put before `wrwait` counted the generation up (`WaitsAll`).
-/

namespace GefsFuse.Server

open Trans Heap

/-! ## One queue -/

/-- The order of the entries. -/
def qkey (e : Qent) : ℤ ×ₗ ℕ ×ₗ ℤ := toLex (e.qgen.toInt, toLex (e.op.toNat, e.bp.addr.toInt))

theorem Qop.toNat_inj {a b : Qop} (h : a.toNat = b.toNat) : a = b := by
  cases a <;> cases b <;> simp [Qop.toNat] at h ⊢

theorem qgt_iff (a b : Qent) : qgt a b = true ↔ qkey b < qkey a := by
  have hg : a.qgen = b.qgen ↔ a.qgen.toInt = b.qgen.toInt := Int64.toInt_inj.symm
  have ho : a.op = b.op ↔ a.op.toNat = b.op.toNat := ⟨congrArg _, Qop.toNat_inj⟩
  have ha : a.bp.addr = b.bp.addr ↔ a.bp.addr.toInt = b.bp.addr.toInt := Int64.toInt_inj.symm
  unfold qgt qcmp qkey
  simp only [decide_eq_true_eq, Prod.Lex.toLex_lt_toLex, Int64.lt_iff_toInt_lt, ne_eq, hg, ho, ha]
  split_ifs <;> simp <;> omega

theorem qkey_le_iff (a b : Qent) : qkey a ≤ qkey b ↔ a.qgen.toInt < b.qgen.toInt
    ∨ a.qgen.toInt = b.qgen.toInt ∧ (a.op.toNat < b.op.toNat
      ∨ a.op.toNat = b.op.toNat ∧ a.bp.addr.toInt ≤ b.bp.addr.toInt) := by
  simp only [qkey, Prod.Lex.toLex_le_toLex]

theorem qgen_le_of_qkey_le {a b : Qent} (h : qkey a ≤ qkey b) : a.qgen.toInt ≤ b.qgen.toInt := by
  rw [qkey_le_iff] at h
  omega

/-- The entries are a heap within its array. -/
structure SyncqOk (q : Syncq) : Prop where
  heap : IsHeap qkey q.nheap q.heap
  room : q.nheap ≤ q.heapsz

theorem ents_insert (q : Syncq) (e : Qent) : (q.insert e).ents = e ::ₘ q.ents := by
  show contents (q.nheap + 1) (siftUp qgt e q.heap q.nheap) = e ::ₘ contents q.nheap q.heap
  rw [contents_siftUp qgt e q.heap q.nheap (Nat.lt_succ_self _), contents_succ,
    Function.update_self]
  congr 1
  exact contents_congr fun i hi => Function.update_of_ne hi.ne _ _

theorem SyncqOk.insert {q : Syncq} (h : SyncqOk q) (e : Qent) (hf : q.full = false) :
    SyncqOk (q.insert e) := by
  refine ⟨isHeap_siftUp qgt_iff h.heap e, ?_⟩
  have hne : q.nheap ≠ q.heapsz := by simpa [Syncq.full] using hf
  have hle := h.room
  show q.nheap + 1 ≤ q.heapsz
  omega

/-- A pop takes out one of the least entries. -/
theorem qpop_spec {q q' : Syncq} {e : Qent} (hq : SyncqOk q) (h : qpop q = some (e, q')) :
    q.ents = e ::ₘ q'.ents ∧ SyncqOk q' ∧ q.nheap = q'.nheap + 1
      ∧ ∀ x ∈ q.ents, qkey e ≤ qkey x := by
  unfold qpop at h
  split_ifs at h with h0
  obtain ⟨m, hm⟩ : ∃ m, q.nheap = m + 1 := ⟨q.nheap - 1, by omega⟩
  simp only [hm, Nat.add_sub_cancel, Option.some.injEq, Prod.mk.injEq] at h
  obtain ⟨rfl, rfl⟩ := h
  have hroom := hq.room
  have hmin : ∀ x ∈ q.ents, qkey (q.heap 0) ≤ qkey x := by
    intro x hx
    obtain ⟨i, hi, rfl⟩ := mem_contents.1 hx
    exact hq.heap.root_le i hi
  have hents : q.ents = q.heap m ::ₘ contents m q.heap := by
    rw [Syncq.ents, hm, contents_succ]
  by_cases hm0 : m = 0
  · subst hm0
    refine ⟨hents, ⟨?_, ?_⟩, hm, hmin⟩
    · intro p c _ hc
      exact absurd hc (Nat.not_lt_zero c)
    · exact Nat.zero_le _
  · have hpos : 0 < m := Nat.pos_of_ne_zero hm0
    have hheap : IsHeap qkey m q.heap := fun p c hc hn => hq.heap p c hc (by omega)
    simp only [if_neg hm0]
    refine ⟨?_, ⟨isHeap_siftDown qgt_iff _ 0 (hheap.sinking _), ?_⟩, hm, hmin⟩
    · rw [hents]
      show _ = q.heap 0 ::ₘ contents m (siftDown qgt m _ 0)
      rw [contents_siftDown qgt _ 0 hpos, contents_update hpos]
    · show m ≤ q.heapsz
      omega

theorem qpop_isSome {q : Syncq} (h : q.nheap ≠ 0) : ∃ e q', qpop q = some (e, q') := by
  unfold qpop
  rw [if_neg h]
  exact ⟨_, _, rfl⟩

/-- A queue is emptied by as many pops as it has entries. -/
theorem qpops_spec : ∀ {n : ℕ} {q : Syncq}, SyncqOk q → q.nheap = n →
    ∃ es q', qpops n q = some (es, q') ∧ q'.nheap = 0 ∧ (es : Multiset Qent) = q.ents
  | 0, q, _, hn => ⟨[], q, rfl, hn, by
      rw [Syncq.ents, hn]
      rfl⟩
  | n + 1, q, hq, hn => by
    obtain ⟨e, q1, h1⟩ := qpop_isSome (q := q) (by omega)
    obtain ⟨hents, hok, hnh, -⟩ := qpop_spec hq h1
    obtain ⟨es, q2, h2, h0, hes⟩ := qpops_spec hok (show q1.nheap = n by omega)
    refine ⟨e :: es, q2, ?_, h0, ?_⟩
    · simp only [qpops, h1, h2, Option.bind_eq_bind, Option.bind_some]
    · rw [hents, ← hes]
      rfl

/-! ## One queue and its users -/

namespace Syncer

/-- What was put or sleeps in a call of `qput`. -/
def begun (y : Syncer) : Multiset Qent := (y.put : Multiset Qent) + y.asleep

/-- What sleeps in a call of `qput` or is queued. -/
def queued (y : Syncer) : Multiset Qent := (y.asleep : Multiset Qent) + y.q.ents

/-- What is not done. -/
def pending (y : Syncer) : Multiset Qent := y.queued + y.busy.toList

end Syncer

/-- Each entry put is done, in the syncer's hands, or queued. -/
structure SyncerOk (y : Syncer) : Prop where
  q : SyncqOk y.q
  once : (y.put : Multiset Qent) = y.done + y.busy.toList + y.q.ents

theorem coe_append_singleton (l : List Qent) (e : Qent) :
    ((l ++ [e] : List Qent) : Multiset Qent) = e ::ₘ l := by
  rw [← Multiset.coe_add, Multiset.coe_singleton, add_comm, Multiset.singleton_add]

section Syncer

variable {y y' : Syncer} {e : Qent}

theorem SyncerOk.enter (h : SyncerOk y) (hf : y.q.full = false) : SyncerOk (y.enter e) := by
  refine ⟨h.q.insert e hf, ?_⟩
  show ((y.put ++ [e] : List Qent) : Multiset Qent) = y.done + y.busy.toList + (y.q.insert e).ents
  rw [coe_append_singleton, ents_insert, h.once, Multiset.add_cons]

theorem SyncerOk.qput (h : SyncerOk y) : SyncerOk (y.qput e) := by
  unfold Syncer.qput
  split_ifs with hf
  · exact ⟨h.q, h.once⟩
  · exact h.enter (Bool.eq_false_iff.2 hf)

theorem begun_qput : (y.qput e).begun = e ::ₘ y.begun := by
  unfold Syncer.qput Syncer.begun
  split_ifs
  · rw [coe_append_singleton, Multiset.add_cons]
  · show ((y.put ++ [e] : List Qent) : Multiset Qent) + y.asleep = _
    rw [coe_append_singleton, Multiset.cons_add]

theorem queued_qput : (y.qput e).queued = e ::ₘ y.queued := by
  unfold Syncer.qput Syncer.queued
  split_ifs
  · rw [coe_append_singleton, Multiset.cons_add]
  · show (y.asleep : Multiset Qent) + (y.q.insert e).ents = _
    rw [ents_insert, Multiset.add_cons]

theorem busy_qput : (y.qput e).busy = y.busy := by
  unfold Syncer.qput
  split_ifs <;> rfl

theorem done_qput : (y.qput e).done = y.done := by
  unfold Syncer.qput
  split_ifs <;> rfl

theorem mem_put_qput {x : Qent} (h : x ∈ y.put) : x ∈ (y.qput e).put := by
  unfold Syncer.qput
  split_ifs
  · exact h
  · exact List.mem_append_left _ h

/-- A sleeping call goes on: its entry is no longer asleep but queued. -/
theorem wake_spec {k : ℕ} (hy : SyncerOk y) (h : y.wake k = some (e, y')) :
    SyncerOk y' ∧ y'.begun = y.begun ∧ y'.queued = y.queued ∧ y'.busy = y.busy
      ∧ y'.done = y.done ∧ ∀ x ∈ y.put, x ∈ y'.put := by
  unfold Syncer.wake at h
  cases hk : y.asleep[k]? with
  | none => simp [hk] at h
  | some qe =>
    simp only [hk, Option.ite_none_left_eq_some, Option.some.injEq, Prod.mk.injEq] at h
    obtain ⟨hf, rfl, rfl⟩ := h
    obtain ⟨hlt, he⟩ := List.getElem?_eq_some_iff.1 hk
    have hasleep : (y.asleep : Multiset Qent) = qe ::ₘ (y.asleep.eraseIdx k : List Qent) := by
      rw [← he]
      exact Multiset.coe_eq_coe.2 (List.getElem_cons_eraseIdx_perm hlt).symm
    refine ⟨SyncerOk.enter ⟨hy.q, hy.once⟩ (Bool.eq_false_iff.2 hf), ?_, ?_, rfl, rfl,
      fun x hx => List.mem_append_left _ hx⟩
    · show ((y.put ++ [qe] : List Qent) : Multiset Qent) + (y.asleep.eraseIdx k : List Qent)
        = (y.put : Multiset Qent) + y.asleep
      rw [coe_append_singleton, hasleep, Multiset.cons_add, Multiset.add_cons]
    · show ((y.asleep.eraseIdx k : List Qent) : Multiset Qent) + (y.q.insert qe).ents
        = (y.asleep : Multiset Qent) + y.q.ents
      rw [ents_insert, hasleep, Multiset.add_cons, Multiset.cons_add]

/-- The syncer takes one of the least entries. -/
theorem pop_spec (hy : SyncerOk y) (h : y.pop = some y') :
    ∃ e, SyncerOk y' ∧ y.busy = none ∧ y'.busy = some e ∧ y.q.ents = e ::ₘ y'.q.ents
      ∧ y.queued = e ::ₘ y'.queued ∧ y'.put = y.put ∧ y'.asleep = y.asleep ∧ y'.done = y.done
      ∧ ∀ x ∈ y.q.ents, qkey e ≤ qkey x := by
  unfold Syncer.pop at h
  cases hb : y.busy with
  | some qe => simp [hb] at h
  | none =>
    rcases hp : qpop y.q with _ | ⟨e, q⟩
    · simp [hb, hp] at h
    · simp only [hb, hp, Option.some.injEq] at h
      subst h
      obtain ⟨hents, hok, -, hmin⟩ := qpop_spec hy.q hp
      refine ⟨e, ⟨hok, ?_⟩, rfl, rfl, hents, ?_, rfl, rfl, rfl, hmin⟩
      · have ho := hy.once
        rw [hb, hents] at ho
        rw [ho]
        show (y.done : Multiset Qent) + 0 + e ::ₘ q.ents = (y.done : Multiset Qent) + {e} + q.ents
        rw [add_zero, Multiset.add_cons, add_assoc, Multiset.singleton_add, Multiset.add_cons]
      · show (y.asleep : Multiset Qent) + y.q.ents = e ::ₘ ((y.asleep : Multiset Qent) + q.ents)
        rw [hents, Multiset.add_cons]

theorem handle_spec (hy : SyncerOk y) (h : y.handle = some (e, y')) :
    SyncerOk y' ∧ y.busy = some e ∧ y'.busy = none ∧ y'.queued = y.queued ∧ y'.begun = y.begun
      ∧ y'.put = y.put ∧ y'.done = e :: y.done := by
  unfold Syncer.handle at h
  cases hb : y.busy with
  | none => simp [hb] at h
  | some qe =>
    simp only [hb, Option.some.injEq, Prod.mk.injEq] at h
    obtain ⟨rfl, rfl⟩ := h
    refine ⟨⟨hy.q, ?_⟩, rfl, rfl, rfl, rfl, rfl, rfl⟩
    have ho := hy.once
    rw [hb] at ho
    rw [ho]
    show (y.done : Multiset Qent) + {qe} + y.q.ents = qe ::ₘ (y.done : Multiset Qent) + 0 + y.q.ents
    rw [add_zero, add_comm (y.done : Multiset Qent) {qe}, Multiset.singleton_add]

/-- What was put and is not queued is done, where the syncer is free. -/
theorem SyncerOk.mem_done (h : SyncerOk y) (hb : y.busy = none) {x : Qent} (hx : x ∈ y.put)
    (hq : x ∉ y.q.ents) : x ∈ y.done := by
  have hm : x ∈ (y.put : Multiset Qent) := hx
  rw [h.once, hb] at hm
  simp only [Option.toList_none, Multiset.coe_nil, add_zero, Multiset.mem_add] at hm
  exact hm.resolve_right hq

theorem SyncerOk.mem_put (h : SyncerOk y) {x : Qent} (hx : x ∈ y.q.ents) : x ∈ y.put := by
  have hm : x ∈ (y.put : Multiset Qent) := by
    rw [h.once]
    exact Multiset.mem_add.2 (.inr hx)
  exact hm

end Syncer

/-! ## All queues -/

section System

variable {n : ℕ} {arenaq : Int64 → Fin n} {s s' : SyncSt n}

/-- Each call of `qput` has its number and its generation, in the order of the calls, and goes to
the queue of its address. -/
structure EntriesOk (arenaq : Int64 → Fin n) (s : SyncSt n) : Prop where
  nodup : ∀ i, ((s.syncer i).begun.map Qent.call).Nodup
  call : ∀ i, ∀ e ∈ (s.syncer i).begun, e.call < s.calls
  qgen : ∀ i, ∀ e ∈ (s.syncer i).begun, e.qgen.toInt ≤ s.qgen.toInt
  queue : ∀ i, ∀ e ∈ (s.syncer i).begun, e.op ≠ .fence → arenaq e.bp.addr = i
  mono : ∀ i j, ∀ e ∈ (s.syncer i).begun, ∀ e' ∈ (s.syncer j).begun, e.call < e'.call →
    e.qgen.toInt ≤ e'.qgen.toInt

theorem EntriesOk.keep (h : EntriesOk arenaq s) (hc : s'.calls = s.calls)
    (hg : s.qgen.toInt ≤ s'.qgen.toInt) (hb : ∀ i, (s'.syncer i).begun = (s.syncer i).begun) :
    EntriesOk arenaq s' := by
  refine ⟨fun i => ?_, fun i e he => ?_, fun i e he => ?_, fun i e he => ?_,
    fun i j e he e' he' => ?_⟩
  · rw [hb]
    exact h.nodup i
  · rw [hb] at he
    rw [hc]
    exact h.call i e he
  · rw [hb] at he
    exact (h.qgen i e he).trans hg
  · rw [hb] at he
    exact h.queue i e he
  · rw [hb] at he he'
    exact h.mono i j e he e' he'

theorem begun_set {i : Fin n} {y : Syncer} (h : y.begun = (s.syncer i).begun) (j : Fin n) :
    ((s.set i y).syncer j).begun = (s.syncer j).begun := by
  by_cases hj : j = i
  · subst hj
    simp only [SyncSt.set, Function.update_self, h]
  · simp only [SyncSt.set, Function.update_of_ne hj]

theorem EntriesOk.qput (h : EntriesOk arenaq s) {i : Fin n} {op : Qop} {bp : GefsBptr}
    {b : Option ℕ} (hq : op ≠ .fence → arenaq bp.addr = i) :
    EntriesOk arenaq (s.qput i op bp b) := by
  obtain ⟨e, he⟩ : ∃ e : Qent, e = ⟨s.qgen, bp, b, op, s.calls⟩ := ⟨_, rfl⟩
  have hself : ((s.qput i op bp b).syncer i).begun = e ::ₘ (s.syncer i).begun := by
    simp only [SyncSt.qput, SyncSt.set, Function.update_self, begun_qput, he]
  have hother : ∀ j ≠ i, ((s.qput i op bp b).syncer j).begun = (s.syncer j).begun := fun j hj => by
    simp only [SyncSt.qput, SyncSt.set, Function.update_of_ne hj]
  have hmem : ∀ j, ∀ x ∈ ((s.qput i op bp b).syncer j).begun,
      x = e ∧ j = i ∨ x ∈ (s.syncer j).begun := by
    intro j x hx
    by_cases hj : j = i
    · subst hj
      rw [hself, Multiset.mem_cons] at hx
      exact hx.imp (fun h => ⟨h, rfl⟩) id
    · rw [hother j hj] at hx
      exact .inr hx
  have hec : e.call = s.calls := by rw [he]
  have heg : e.qgen = s.qgen := by rw [he]
  refine ⟨fun j => ?_, fun j x hx => ?_, fun j x hx => ?_, fun j x hx => ?_,
    fun j k x hx x' hx' hlt => ?_⟩
  · by_cases hj : j = i
    · subst hj
      rw [hself, Multiset.map_cons, Multiset.nodup_cons]
      refine ⟨fun hm => ?_, h.nodup j⟩
      obtain ⟨x, hx, hxe⟩ := Multiset.mem_map.1 hm
      have := h.call j x hx
      omega
    · rw [hother j hj]
      exact h.nodup j
  · show x.call < s.calls + 1
    rcases hmem j x hx with ⟨rfl, -⟩ | hx
    · omega
    · have := h.call j x hx
      omega
  · show x.qgen.toInt ≤ s.qgen.toInt
    rcases hmem j x hx with ⟨rfl, -⟩ | hx
    · rw [heg]
    · exact h.qgen j x hx
  · rcases hmem j x hx with ⟨rfl, rfl⟩ | hx
    · rw [he]
      exact hq
    · exact h.queue j x hx
  · rcases hmem j x hx with ⟨rfl, -⟩ | hx
    · -- no call comes after this one
      rcases hmem k x' hx' with ⟨rfl, -⟩ | hx'
      · omega
      · have := h.call k x' hx'
        omega
    · rcases hmem k x' hx' with ⟨rfl, -⟩ | hx'
      · rw [heg]
        exact h.qgen j x hx
      · exact h.mono j k x hx x' hx' hlt

/-- The fences of a queue that are not done. -/
def fences (y : Syncer) : ℕ := y.pending.countP fun e => e.op = .fence

theorem fences_cons {y y' : Syncer} {e : Qent} (h : y'.pending = e ::ₘ y.pending) :
    fences y' = fences y + if e.op = .fence then 1 else 0 := by
  rw [fences, h, Multiset.countP_cons]
  rfl

theorem pending_qput {y : Syncer} {e : Qent} : (y.qput e).pending = e ::ₘ y.pending := by
  unfold Syncer.pending
  rw [queued_qput, busy_qput, Multiset.cons_add]

theorem pending_wake {y y' : Syncer} {k : ℕ} {e : Qent} (hy : SyncerOk y)
    (h : y.wake k = some (e, y')) : y'.pending = y.pending := by
  obtain ⟨-, -, hq, hb, -, -⟩ := wake_spec hy h
  unfold Syncer.pending
  rw [hq, hb]

theorem pending_pop {y y' : Syncer} (hy : SyncerOk y) (h : y.pop = some y') :
    y'.pending = y.pending := by
  obtain ⟨e, -, hb, hb', -, hq, -⟩ := pop_spec hy h
  unfold Syncer.pending
  rw [hq, hb, hb', Option.toList_some, Option.toList_none, Multiset.coe_nil, add_zero,
    Multiset.coe_singleton, add_comm, Multiset.singleton_add]

theorem pending_handle {y y' : Syncer} {e : Qent} (hy : SyncerOk y)
    (h : y.handle = some (e, y')) : y.pending = e ::ₘ y'.pending := by
  obtain ⟨-, hb, hb', hq, -⟩ := handle_spec hy h
  unfold Syncer.pending
  rw [hq, hb, hb', Option.toList_some, Option.toList_none, Multiset.coe_nil, add_zero,
    Multiset.coe_singleton, add_comm, Multiset.singleton_add]

/-- While `wrwait` puts its fences none is handled; then `syncing` counts those that are left. -/
def FenceOk (F : Fin n → ℕ) (syncing : ℤ) : Wr → Prop
  | .idle => syncing = 0 ∧ ∀ i, F i = 0
  | .fence k => k ≤ n ∧ syncing = n ∧ ∀ i : Fin n, F i = if i < k then 1 else 0
  | .asleep k => k < n ∧ syncing = n ∧ ∀ i : Fin n, F i = if i < k + 1 then 1 else 0
  | .wait => syncing = ∑ i, (F i : ℤ)

structure SyncInv (arenaq : Int64 → Fin n) (s : SyncSt n) : Prop where
  ok : ∀ i, SyncerOk (s.syncer i)
  entries : EntriesOk arenaq s
  fence : FenceOk (fun i => fences (s.syncer i)) s.syncing s.wr

theorem fences_update (f : Fin n → Syncer) (i : Fin n) (y : Syncer) :
    (fun j => fences (Function.update f i y j))
      = Function.update (fun j => fences (f j)) i (fences y) := by
  funext j
  by_cases hj : j = i
  · subst hj
    simp
  · simp [Function.update_of_ne hj]

theorem fences_update_self {f : Fin n → Syncer} {i : Fin n} {y : Syncer}
    (h : fences y = fences (f i)) :
    (fun j => fences (Function.update f i y j)) = fun j => fences (f j) := by
  rw [fences_update, h]
  exact Function.update_eq_self i _

theorem ok_update {f : Fin n → Syncer} (h : ∀ j, SyncerOk (f j)) {i : Fin n} {y : Syncer}
    (hy : SyncerOk y) (j : Fin n) : SyncerOk (Function.update f i y j) := by
  by_cases hj : j = i
  · subst hj
    rwa [Function.update_self]
  · rw [Function.update_of_ne hj]
    exact h j

/-- `qgen` only increases. -/
theorem ainc_spec (h : s.ainc = some s') :
    s' = { s with qgen := s'.qgen } ∧ s.qgen.toInt < s'.qgen.toInt := by
  unfold SyncSt.ainc at h
  rw [Option.ite_none_right_eq_some, Option.some.injEq] at h
  obtain ⟨hlt, rfl⟩ := h
  exact ⟨rfl, Int64.lt_iff_toInt_lt.1 hlt⟩

theorem syncInv_init (heapsz : ℕ) (qgen : Int64) (heap : ℕ → Qent) :
    SyncInv arenaq (SyncSt.init n heapsz qgen heap) := by
  have hno : ∀ (i : Fin n) (e : Qent), e ∉ ((SyncSt.init n heapsz qgen heap).syncer i).begun :=
    fun _ _ => Multiset.notMem_zero _
  refine ⟨fun i => ⟨⟨fun p c _ hc => absurd hc (Nat.not_lt_zero c), Nat.zero_le _⟩, rfl⟩,
    ⟨fun i => Multiset.nodup_zero, fun i e he => ?_, fun i e he => ?_, fun i e he => ?_,
      fun i j e he => ?_⟩, rfl, fun i => rfl⟩
  all_goals exact absurd he (hno i e)

theorem SyncInv.ainc (hi : SyncInv arenaq s) (h : s.ainc = some s') : SyncInv arenaq s' := by
  obtain ⟨he, hlt⟩ := ainc_spec h
  rw [he]
  exact ⟨hi.ok, hi.entries.keep rfl hlt.le fun _ => rfl, hi.fence⟩

theorem SyncInv.put (hi : SyncInv arenaq s) {op : Qop} (hop : op ≠ .fence) (bp : GefsBptr)
    (b : Option ℕ) : SyncInv arenaq (s.qput (arenaq bp.addr) op bp b) := by
  refine ⟨ok_update hi.ok (hi.ok _).qput, hi.entries.qput fun _ => rfl, ?_⟩
  have hf := hi.fence
  simp only [SyncSt.qput, SyncSt.set]
  rw [fences_update_self]
  · exact hf
  · rw [fences_cons pending_qput, if_neg hop, Nat.add_zero]

/-- The loop of `wrwait` puts one fence into the next queue. -/
theorem SyncInv.putFence (hi : SyncInv arenaq s) {k : ℕ} (hk : k < n) (hwr : s.wr = .fence k)
    {wr : Wr} (hw : wr = .asleep k ∨ wr = .fence (k + 1)) :
    SyncInv arenaq { s.qput ⟨k, hk⟩ .fence SyncSt.fenceBp none with wr := wr } := by
  have hen : EntriesOk arenaq (s.qput ⟨k, hk⟩ .fence SyncSt.fenceBp none) :=
    hi.entries.qput fun h => absurd rfl h
  refine ⟨ok_update hi.ok (hi.ok _).qput, hen.keep rfl le_rfl fun _ => rfl, ?_⟩
  have hf := hi.fence
  rw [hwr] at hf
  obtain ⟨-, hs, hF⟩ := hf
  replace hF : ∀ i : Fin n, fences (s.syncer i) = if i < k then 1 else 0 := hF
  have hnew : ∀ i : Fin n, fences ((s.qput ⟨k, hk⟩ .fence SyncSt.fenceBp none).syncer i)
      = if i < k + 1 then 1 else 0 := by
    intro i
    show (fun j => fences (Function.update s.syncer ⟨k, hk⟩ _ j)) i = _
    rw [fences_update]
    by_cases hik : i = ⟨k, hk⟩
    · subst hik
      rw [Function.update_self, if_pos (Nat.lt_succ_self k), fences_cons pending_qput, if_pos rfl,
        hF, if_neg (lt_irrefl _)]
    · rw [Function.update_of_ne hik, hF i]
      have hne : (i : ℕ) ≠ k := fun h => hik (Fin.ext h)
      by_cases hlt : (i : ℕ) < k
      · rw [if_pos hlt, if_pos (by omega)]
      · rw [if_neg hlt, if_neg (by omega)]
  rcases hw with rfl | rfl
  · exact ⟨hk, hs, hnew⟩
  · exact ⟨hk, hs, hnew⟩

theorem SyncInv.wake (hi : SyncInv arenaq s) {i : Fin n} {k : ℕ} {e : Qent} {y : Syncer}
    (h : (s.syncer i).wake k = some (e, y)) : SyncInv arenaq ((s.set i y).woken e) := by
  obtain ⟨hok, hb, -⟩ := wake_spec (hi.ok i) h
  have hpend := pending_wake (hi.ok i) h
  refine ⟨ok_update hi.ok hok, hi.entries.keep rfl le_rfl (begun_set hb), ?_⟩
  have hf := hi.fence
  simp only [SyncSt.woken, SyncSt.set]
  rw [fences_update_self (by rw [fences, hpend, fences])]
  split
  · rename_i j _ hwr
    rw [hwr] at hf
    exact hf
  · exact hf

theorem SyncInv.pop (hi : SyncInv arenaq s) {i : Fin n} {y : Syncer}
    (h : (s.syncer i).pop = some y) : SyncInv arenaq (s.set i y) := by
  obtain ⟨e, hok, -, -, -, -, hput, hasl, -⟩ := pop_spec (hi.ok i) h
  have hb : y.begun = (s.syncer i).begun := by rw [Syncer.begun, hput, hasl, Syncer.begun]
  refine ⟨ok_update hi.ok hok, hi.entries.keep rfl le_rfl (begun_set hb), ?_⟩
  have hf := hi.fence
  simp only [SyncSt.set]
  rwa [fences_update_self (by rw [fences, pending_pop (hi.ok i) h, fences])]

theorem SyncInv.handle (hi : SyncInv arenaq s) {i : Fin n} {e : Qent} {y : Syncer}
    (h : (s.syncer i).handle = some (e, y)) (he : e.op ≠ .fence) : SyncInv arenaq (s.set i y) := by
  obtain ⟨hok, -, -, -, hb, -⟩ := handle_spec (hi.ok i) h
  refine ⟨ok_update hi.ok hok, hi.entries.keep rfl le_rfl (begun_set hb), ?_⟩
  have hf := hi.fence
  simp only [SyncSt.set]
  rwa [fences_update_self]
  rw [fences_cons (pending_handle (hi.ok i) h), if_neg he, Nat.add_zero]

/-- A fence is handled in the wait of `wrwait` only. -/
theorem SyncInv.handleFence (hi : SyncInv arenaq s) {i : Fin n} {e : Qent} {y : Syncer}
    (h : (s.syncer i).handle = some (e, y)) (he : e.op = .fence)
    (hwr : s.wr = .wait ∨ s.wr = .idle) :
    SyncInv arenaq { s.set i y with syncing := s.syncing - 1 } := by
  obtain ⟨hok, -, -, -, hb, -⟩ := handle_spec (hi.ok i) h
  have hone : fences (s.syncer i) = fences y + 1 := by
    rw [fences_cons (pending_handle (hi.ok i) h), if_pos he]
  refine ⟨ok_update hi.ok hok, hi.entries.keep rfl le_rfl (begun_set hb), ?_⟩
  have hf := hi.fence
  simp only [SyncSt.set]
  rcases hwr with hwr | hwr
  · rw [hwr] at hf ⊢
    show s.syncing - 1 = ∑ j, (fences (Function.update s.syncer i y j) : ℤ)
    have hsum : ∀ f : Fin n → ℕ, ∑ j, (f j : ℤ) = f i + ∑ j ∈ Finset.univ.erase i, (f j : ℤ) :=
      fun f => (Finset.add_sum_erase _ _ (Finset.mem_univ i)).symm
    have hrest : ∑ j ∈ Finset.univ.erase i, (fences (Function.update s.syncer i y j) : ℤ)
        = ∑ j ∈ Finset.univ.erase i, (fences (s.syncer j) : ℤ) := by
      refine Finset.sum_congr rfl fun j hj => ?_
      rw [Function.update_of_ne (Finset.ne_of_mem_erase hj)]
    have hold : s.syncing = ∑ j, (fences (s.syncer j) : ℤ) := hf
    rw [hold, hsum fun j => fences (s.syncer j), hsum fun j => fences (Function.update s.syncer i y j),
      hrest, hone, Function.update_self]
    push_cast
    omega
  · rw [hwr] at hf
    have := hf.2 i
    simp only [hone] at this
    omega

theorem SyncInv.wrcall (hi : SyncInv arenaq s) (hwr : s.wr = .idle) {s1 : SyncSt n}
    (h : s.ainc = some s1) : SyncInv arenaq { s1 with syncing := n, wr := .fence 0 } := by
  have h1 := hi.ainc h
  obtain ⟨he, -⟩ := ainc_spec h
  have hf := hi.fence
  rw [hwr] at hf
  refine ⟨h1.ok, h1.entries.keep rfl le_rfl fun _ => rfl, Nat.zero_le _, rfl, fun i => ?_⟩
  rw [if_neg (Nat.not_lt_zero _), he]
  exact hf.2 i

theorem SyncInv.wrend (hi : SyncInv arenaq s) {k : ℕ} (hwr : s.wr = .fence k) (hk : ¬ k < n)
    {s1 : SyncSt n} (h : s.ainc = some s1) : SyncInv arenaq { s1 with wr := .wait } := by
  have h1 := hi.ainc h
  obtain ⟨he, -⟩ := ainc_spec h
  have hf := hi.fence
  rw [hwr] at hf
  obtain ⟨-, hs, hF⟩ := hf
  replace hF : ∀ i : Fin n, fences (s.syncer i) = if i < k then 1 else 0 := hF
  refine ⟨h1.ok, h1.entries.keep rfl le_rfl fun _ => rfl, ?_⟩
  show s1.syncing = ∑ i, (fences (s1.syncer i) : ℤ)
  have hall : ∀ i : Fin n, (fences (s1.syncer i) : ℤ) = 1 := by
    intro i
    have hi := i.2
    rw [he]
    show ((fences (s.syncer i) : ℕ) : ℤ) = 1
    rw [hF i, if_pos (by omega)]
    rfl
  have hs1 : s1.syncing = n := by
    rw [he]
    exact hs
  rw [Finset.sum_congr rfl fun i _ => hall i, hs1]
  simp

theorem SyncInv.wrret (hi : SyncInv arenaq s) (hwr : s.wr = .wait) (h0 : s.syncing = 0) :
    SyncInv arenaq { s with wr := .idle } ∧ ∀ i, fences (s.syncer i) = 0 := by
  have hf := hi.fence
  rw [hwr] at hf
  have hsum : (∑ i, (fences (s.syncer i) : ℤ)) = 0 := by
    rw [← h0]
    exact hf.symm
  have hall : ∀ i, fences (s.syncer i) = 0 := by
    intro i
    have hz := (Finset.sum_eq_zero_iff_of_nonneg fun i _ => Int.natCast_nonneg _).1 hsum i
      (Finset.mem_univ i)
    exact_mod_cast hz
  exact ⟨⟨hi.ok, hi.entries.keep rfl le_rfl fun _ => rfl, h0, hall⟩, hall⟩

theorem syncInv_step (hi : SyncInv arenaq s) {a : SyncAct n} (h : syncStep arenaq s a = some s') :
    SyncInv arenaq s' := by
  unfold syncStep at h
  cases a with
  | barrier => exact hi.ainc h
  | put op bp b =>
    simp only [Option.ite_none_left_eq_some, not_or, Option.some.injEq] at h
    obtain ⟨⟨hop, -⟩, rfl⟩ := h
    exact hi.put hop bp b
  | wake i k =>
    rcases hw : (s.syncer i).wake k with _ | ⟨e, y⟩
    · simp [hw] at h
    · simp only [hw, Option.some.injEq] at h
      exact h ▸ hi.wake hw
  | pop i =>
    rcases hp : (s.syncer i).pop with _ | y
    · simp [hp] at h
    · simp only [hp, Option.some.injEq] at h
      exact h ▸ hi.pop hp
  | handle i =>
    rcases hh : (s.syncer i).handle with _ | ⟨e, y⟩
    · simp [hh] at h
    · simp only [hh] at h
      split_ifs at h with he hwr
      · exact Option.some.inj h ▸ hi.handleFence hh he hwr
      · exact Option.some.inj h ▸ hi.handle hh he
  | wrcall =>
    simp only [Option.ite_none_right_eq_some, Option.map_eq_some_iff] at h
    obtain ⟨hwr, s1, h1, rfl⟩ := h
    exact hi.wrcall hwr h1
  | wrput =>
    rcases hwr : s.wr with _ | k | _ | _
    · simp [hwr] at h
    · simp only [hwr, Option.dite_none_right_eq_some, Option.ite_none_right_eq_some,
        Option.some.injEq] at h
      obtain ⟨hk, -, rfl⟩ := h
      refine hi.putFence hk hwr ?_
      split_ifs
      · exact .inl rfl
      · exact .inr rfl
    · simp [hwr] at h
    · simp [hwr] at h
  | wrend =>
    rcases hwr : s.wr with _ | k | _ | _
    · simp [hwr] at h
    · simp only [hwr, Option.ite_none_left_eq_some, Option.map_eq_some_iff] at h
      obtain ⟨hk, s1, h1, rfl⟩ := h
      exact hi.wrend hwr hk h1
    · simp [hwr] at h
    · simp [hwr] at h
  | wrret =>
    simp only [Option.ite_none_right_eq_some, Option.some.injEq] at h
    obtain ⟨⟨hwr, h0⟩, rfl⟩ := h
    exact (hi.wrret hwr h0).1

/-! ## What `wrwait` waits for -/

/-- The fence of the queue `i` has been put, or its call sleeps. -/
def Fenced (i : ℕ) : Wr → Prop
  | .idle => False
  | .fence k => i < k
  | .asleep k => i < k + 1
  | .wait => True

/-- One queue in a run of `wrwait` that began at the generation `g`, when `base` had been put: no
fence is before `base`, and when the fence has been popped, `base` is done. -/
structure Covers (g : ℤ) (base : List Qent) (y : Syncer) (fenced : Prop) : Prop where
  put : ∀ e ∈ base, e ∈ y.put ∧ e.qgen.toInt ≤ g
  later : ∀ f ∈ y.queued, f.op = .fence → g < f.qgen.toInt
  popped : fenced → (∀ f ∈ y.queued, f.op ≠ .fence) → ∀ e ∈ base, e ∈ y.done

section Covers

variable {g : ℤ} {base : List Qent} {y y' : Syncer} {P P' : Prop}

/-- A step that puts nothing in or out. -/
theorem Covers.keep (h : Covers g base y P) (hP : P' → P) (hput : ∀ x ∈ y.put, x ∈ y'.put)
    (hq : y'.queued = y.queued) (hd : ∀ x ∈ y.done, x ∈ y'.done) : Covers g base y' P' := by
  refine ⟨fun e he => ⟨hput _ (h.put e he).1, (h.put e he).2⟩, ?_, fun hp hf e he => ?_⟩
  · rw [hq]
    exact h.later
  · rw [hq] at hf
    exact hd e (h.popped (hP hp) hf e he)

theorem Covers.qput (h : Covers g base y P) {e : Qent} (he : e.op ≠ .fence) :
    Covers g base (y.qput e) P := by
  refine ⟨fun x hx => ⟨mem_put_qput (h.put x hx).1, (h.put x hx).2⟩, fun f hf hop => ?_,
    fun hp hf x hx => ?_⟩
  · rw [queued_qput, Multiset.mem_cons] at hf
    rcases hf with rfl | hf
    · exact absurd hop he
    · exact h.later f hf hop
  · rw [done_qput]
    refine h.popped hp (fun f hm => hf f ?_) x hx
    rw [queued_qput]
    exact Multiset.mem_cons_of_mem hm

theorem Covers.putFence (h : Covers g base y P) {e : Qent} (he : e.op = .fence)
    (hg : g < e.qgen.toInt) (P' : Prop) : Covers g base (y.qput e) P' := by
  refine ⟨fun x hx => ⟨mem_put_qput (h.put x hx).1, (h.put x hx).2⟩, fun f hf hop => ?_,
    fun _ hf => ?_⟩
  · rw [queued_qput, Multiset.mem_cons] at hf
    rcases hf with rfl | hf
    · exact hg
    · exact h.later f hf hop
  · refine absurd he (hf e ?_)
    rw [queued_qput]
    exact Multiset.mem_cons_self _ _

/-- When a fence is popped, nothing of `base` is queued any more, for it would be less. -/
theorem Covers.pop (h : Covers g base y P) (hy : SyncerOk y) (hp : y.pop = some y') :
    Covers g base y' P := by
  obtain ⟨e, -, hb, -, -, hq, hput, -, hdone, hmin⟩ := pop_spec hy hp
  refine ⟨fun x hx => ⟨hput ▸ (h.put x hx).1, (h.put x hx).2⟩, fun f hf hop => ?_,
    fun hP hf x hx => ?_⟩
  · refine h.later f ?_ hop
    rw [hq]
    exact Multiset.mem_cons_of_mem hf
  · rw [hdone]
    by_cases hop : e.op = .fence
    · refine hy.mem_done hb (h.put x hx).1 fun hm => ?_
      have h1 := qgen_le_of_qkey_le (hmin x hm)
      have h2 := (h.put x hx).2
      have h3 := h.later e (by rw [hq]; exact Multiset.mem_cons_self _ _) hop
      omega
    · refine h.popped hP (fun f hm => ?_) x hx
      rw [hq, Multiset.mem_cons] at hm
      rcases hm with rfl | hm
      · exact hop
      · exact hf f hm

end Covers

/-- All queues in a run of `wrwait`. -/
structure Covering (g : ℤ) (base : Fin n → List Qent) (s : SyncSt n) : Prop where
  running : s.wr ≠ .idle
  qgen : g < s.qgen.toInt
  queue : ∀ i, Covers g (base i) (s.syncer i) (Fenced i s.wr)

theorem Covering.set {g : ℤ} {base : Fin n → List Qent} (h : Covering g base s) {i : Fin n}
    {y : Syncer} (hy : Covers g (base i) y (Fenced i s.wr)) : Covering g base (s.set i y) := by
  refine ⟨h.running, h.qgen, fun j => ?_⟩
  by_cases hj : j = i
  · subst hj
    simp only [SyncSt.set, Function.update_self]
    exact hy
  · simp only [SyncSt.set, Function.update_of_ne hj]
    exact h.queue j

theorem Covering.step {g : ℤ} {base : Fin n → List Qent} (h : Covering g base s)
    (hi : SyncInv arenaq s) {a : SyncAct n} (ha : a ≠ .wrret)
    (hs : syncStep arenaq s a = some s') : Covering g base s' := by
  have hg := h.qgen
  unfold syncStep at hs
  cases a with
  | barrier =>
    obtain ⟨he, hlt⟩ := ainc_spec hs
    rw [he]
    exact ⟨h.running, hg.trans hlt, h.queue⟩
  | put op bp b =>
    simp only [Option.ite_none_left_eq_some, not_or, Option.some.injEq] at hs
    obtain ⟨⟨hop, -⟩, rfl⟩ := hs
    have h' : Covering g base { s with calls := s.calls + 1 } := ⟨h.running, hg, h.queue⟩
    exact h'.set ((h.queue _).qput hop)
  | wake i k =>
    rcases hw : (s.syncer i).wake k with _ | ⟨e, y⟩
    · simp [hw] at hs
    · simp only [hw, Option.some.injEq] at hs
      subst hs
      obtain ⟨-, -, hq, -, hd, hput⟩ := wake_spec (hi.ok i) hw
      have h' := h.set (i := i) ((h.queue i).keep id hput hq fun x hx => hd.symm ▸ hx)
      unfold SyncSt.woken
      split
      · rename_i j _ hwr
        refine ⟨by simp, h'.qgen, fun l => ?_⟩
        have hl := h'.queue l
        rw [hwr] at hl
        exact hl
      · exact h'
  | pop i =>
    rcases hp : (s.syncer i).pop with _ | y
    · simp [hp] at hs
    · simp only [hp, Option.some.injEq] at hs
      exact hs ▸ h.set ((h.queue i).pop (hi.ok i) hp)
  | handle i =>
    rcases hh : (s.syncer i).handle with _ | ⟨e, y⟩
    · simp [hh] at hs
    · obtain ⟨-, -, -, hq, -, hput, hd⟩ := handle_spec (hi.ok i) hh
      have h' := h.set (i := i) ((h.queue i).keep id (fun x hx => hput.symm ▸ hx) hq fun x hx => by
        rw [hd]
        exact List.mem_cons_of_mem _ hx)
      simp only [hh] at hs
      split_ifs at hs
      · exact Option.some.inj hs ▸ ⟨h'.running, h'.qgen, h'.queue⟩
      · exact Option.some.inj hs ▸ h'
  | wrcall =>
    simp only [Option.ite_none_right_eq_some] at hs
    exact absurd hs.1 h.running
  | wrput =>
    rcases hwr : s.wr with _ | k | _ | _
    · simp [hwr] at hs
    · simp only [hwr, Option.dite_none_right_eq_some, Option.ite_none_right_eq_some,
        Option.some.injEq] at hs
      obtain ⟨hk, -, rfl⟩ := hs
      refine ⟨?_, hg, fun j => ?_⟩
      · dsimp only
        split_ifs <;> simp
      · by_cases hj : j = ⟨k, hk⟩
        · subst hj
          simp only [SyncSt.qput, SyncSt.set, Function.update_self]
          exact (h.queue _).putFence rfl hg _
        · simp only [SyncSt.qput, SyncSt.set, Function.update_of_ne hj]
          have hj' : (j : ℕ) ≠ k := fun he => hj (Fin.ext he)
          refine (h.queue j).keep (fun hf => ?_) (fun _ hx => hx) rfl fun _ hx => hx
          rw [hwr]
          split_ifs at hf
          · have hlt : (j : ℕ) < k + 1 := hf
            show (j : ℕ) < k
            omega
          · have hlt : (j : ℕ) < k + 1 := hf
            show (j : ℕ) < k
            omega
    · simp [hwr] at hs
    · simp [hwr] at hs
  | wrend =>
    rcases hwr : s.wr with _ | k | _ | _
    · simp [hwr] at hs
    · simp only [hwr, Option.ite_none_left_eq_some, Option.map_eq_some_iff] at hs
      obtain ⟨hk, s1, h1, rfl⟩ := hs
      obtain ⟨he, hlt⟩ := ainc_spec h1
      refine ⟨by simp, hg.trans hlt, fun j => ?_⟩
      have hj := h.queue j
      rw [he]
      refine hj.keep (fun _ => ?_) (fun _ hx => hx) rfl fun _ hx => hx
      rw [hwr]
      have hjn := j.2
      show (j : ℕ) < k
      omega
    · simp [hwr] at hs
    · simp [hwr] at hs
  | wrret => exact absurd rfl ha

/-! ## The promises -/

theorem SyncInv.putOnce (hi : SyncInv arenaq s) (i : Fin n) : PutOnce (s.syncer i) := by
  refine ⟨(hi.ok i).once, ?_, qpops_spec (hi.ok i).q rfl⟩
  have hn := hi.entries.nodup i
  rw [Syncer.begun, Multiset.map_add] at hn
  have hput := (Multiset.nodup_add.1 hn).1
  rwa [Multiset.map_coe, Multiset.coe_nodup] at hput

theorem SyncInv.popsMin (hi : SyncInv arenaq s) (i : Fin n) : PopsMin (s.syncer i) := by
  intro e q hp x hx h1
  obtain ⟨-, -, -, hmin⟩ := qpop_spec (hi.ok i).q hp
  have hgt : qgt e x = true := decide_eq_true h1
  exact absurd ((qgt_iff e x).1 hgt) (not_lt.2 (hmin x hx))

theorem SyncInv.freesLast (hi : SyncInv arenaq s) : FreesLast s := by
  intro i y' hp e he hop j w hw hwop haddr hlt
  obtain ⟨e', -, hb, hb', hents, -, -, -, -, hmin⟩ := pop_spec (hi.ok i) hp
  obtain rfl : e' = e := Option.some.inj (hb'.symm.trans he)
  have hein : e' ∈ (s.syncer i).q.ents := by
    rw [hents]
    exact Multiset.mem_cons_self _ _
  have hebegun : e' ∈ (s.syncer i).begun :=
    Multiset.mem_add.2 (.inl ((hi.ok i).mem_put hein))
  have hwbegun : w ∈ (s.syncer j).begun := Multiset.mem_add.2 (.inl hw)
  -- both are in the queue of their address
  have hij : j = i := by
    have h1 := hi.entries.queue j w hwbegun (by rw [hwop]; decide)
    have h2 := hi.entries.queue i e' hebegun (by rw [hop]; decide)
    rw [← h1, ← h2, haddr]
  subst hij
  have hno : w ∉ (s.syncer j).q.ents := by
    intro hm
    have h1 := hi.entries.mono j j w hwbegun e' hebegun hlt
    have h2 := (qkey_le_iff e' w).1 (hmin w hm)
    rw [hop, hwop] at h2
    simp only [Qop.toNat] at h2
    omega
  exact ⟨(hi.ok j).mem_done hb hw hno, hno⟩

theorem SyncInv.waitsAll (hi : SyncInv arenaq s) : WaitsAll arenaq s := by
  intro s1 s2 s3 h1 hv h3
  have hi1 := syncInv_step hi h1
  have hc1 : Covering s.qgen.toInt (fun i => (s.syncer i).put) s1 := by
    simp only [syncStep, Option.ite_none_right_eq_some, Option.map_eq_some_iff] at h1
    obtain ⟨hwr, s', h', rfl⟩ := h1
    obtain ⟨he, hlt⟩ := ainc_spec h'
    have hf := hi.fence
    rw [hwr] at hf
    refine ⟨by simp, hlt, fun i => ⟨fun e hm => ⟨?_, ?_⟩, fun f hm hop => ?_, fun h => ?_⟩⟩
    · rw [he]
      exact hm
    · exact hi.entries.qgen i e (Multiset.mem_add.2 (.inl hm))
    · rw [he] at hm
      have hz := hf.2 i
      have hpend : f ∈ (s.syncer i).pending := Multiset.mem_add.2 (.inl hm)
      exact absurd hop (Multiset.countP_eq_zero.1 hz f hpend)
    · exact absurd h (Nat.not_lt_zero _)
  obtain ⟨hi2, hc2⟩ : SyncInv arenaq s2 ∧ Covering s.qgen.toInt (fun i => (s.syncer i).put) s2 := by
    refine hv.inv (I := fun s' => SyncInv arenaq s'
      ∧ Covering s.qgen.toInt (fun i => (s.syncer i).put) s') ?_ ⟨hi1, hc1⟩
    rintro a t t' ⟨ht, hct⟩ ha hs
    exact ⟨syncInv_step ht hs, hct.step ht ha hs⟩
  simp only [syncStep, Option.ite_none_right_eq_some] at h3
  obtain ⟨⟨hwr, h0⟩, -⟩ := h3
  obtain ⟨-, hz⟩ := hi2.wrret hwr h0
  intro i e he
  have hcov := hc2.queue i
  rw [hwr] at hcov
  refine hcov.popped trivial (fun f hf hop => ?_) e he
  exact absurd hop (Multiset.countP_eq_zero.1 (hz i) f (Multiset.mem_add.2 (.inl hf)))

end System

/-- In every interleaving of calls of `qput` and `wrwait`, barriers and syncers, with the generation
only increasing: each entry put is popped once, a pop gives a minimum, a free is popped when every
earlier write of its address is done, and `wrwait` returns when all that was put before it is. -/
theorem syncq_ordered {n : ℕ} {arenaq : Int64 → Fin n} {heapsz : ℕ} {qgen : Int64} {heap : ℕ → Qent}
    {s : SyncSt n} (h : Via (syncStep arenaq) Any (SyncSt.init n heapsz qgen heap) s) :
    (∀ i, PutOnce (s.syncer i)) ∧ (∀ i, PopsMin (s.syncer i)) ∧ FreesLast s
      ∧ WaitsAll arenaq s := by
  have hi : SyncInv arenaq s :=
    h.inv (fun _ _ _ hi _ hs => syncInv_step hi hs) (syncInv_init heapsz qgen heap)
  exact ⟨hi.putOnce, hi.popsMin, hi.freesLast, hi.waitsAll⟩

/-- A block is written and freed, and a second one written, around a call of `wrwait`. -/
def oneSync : List (SyncAct 1) :=
  [.put .free ⟨16384, 0, 0⟩ none, .put .write ⟨16384, 0, 0⟩ (some 0), .wrcall, .wrput, .wrend,
    .put .write ⟨32768, 0, 0⟩ (some 1), .pop 0, .handle 0, .pop 0, .handle 0, .pop 0, .handle 0,
    .wrret]

theorem syncq_ordered_one : ∃ s, run (syncStep fun _ => (0 : Fin 1))
      (SyncSt.init 1 8 0 fun _ => ⟨0, ⟨0, 0, 0⟩, none, .fence, 0⟩) oneSync = some s
    ∧ PutOnce (s.syncer 0) ∧ FreesLast s := by
  obtain ⟨s, hs⟩ := Option.isSome_iff_exists.1 (show (run (syncStep fun _ => (0 : Fin 1))
    (SyncSt.init 1 8 0 fun _ => ⟨0, ⟨0, 0, 0⟩, none, .fence, 0⟩) oneSync).isSome = true by
      decide +kernel)
  have hv : Via (syncStep fun _ => (0 : Fin 1)) Any _ s := via_of_run hs (by simp [Along, oneSync, Any])
  obtain ⟨h1, -, h2, -⟩ := syncq_ordered hv
  exact ⟨s, hs, h1 0, h2⟩

end GefsFuse.Server
