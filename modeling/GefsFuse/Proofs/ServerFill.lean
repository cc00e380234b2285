import GefsFuse.Proofs.ServerIntact

/-!
# What a node takes up

The bytes of a node's values and of its messages, as sums over the two lists, against the counts
the code keeps of them, and what one more of either adds.
-/

namespace GefsFuse.Server.Btree

/-! ## Bytes -/

/-- The bytes of the values and their slots. -/
def valSum (vs : List GefsKvp) : ℕ := (vs.map valsz).sum

/-- The bytes of the messages and their slots. -/
def msgSum (ms : List GefsMsg) : ℕ := (ms.map msgsz).sum

def Node.used (b : Node) : ℕ := valSum b.vals

@[simp] theorem valSum_nil : valSum [] = 0 := rfl

@[simp] theorem valSum_cons (v : GefsKvp) (vs : List GefsKvp) :
    valSum (v :: vs) = valsz v + valSum vs := by
  simp [valSum]

@[simp] theorem valSum_append (vs ws : List GefsKvp) :
    valSum (vs ++ ws) = valSum vs + valSum ws := by
  simp [valSum]

@[simp] theorem msgSum_nil : msgSum [] = 0 := rfl

@[simp] theorem msgSum_cons (m : GefsMsg) (ms : List GefsMsg) :
    msgSum (m :: ms) = msgsz m + msgSum ms := by
  simp [msgSum]

@[simp] theorem msgSum_append (ms ls : List GefsMsg) :
    msgSum (ms ++ ls) = msgSum ms + msgSum ls := by
  simp [msgSum]

theorem valsz_mk (k v : Bytes) : valsz (k, v) = 6 + k.length + v.length := by
  unfold valsz
  dsimp only
  omega

theorem used_eq (b : Node) : 2 * b.nval + b.valsz = b.used := by
  unfold Node.nval Node.valsz Node.used
  induction b.vals with
  | nil => rfl
  | cons v vs ih =>
    simp only [List.length_cons, List.map_cons, List.sum_cons, valSum_cons]
    rw [← ih, valsz]
    omega

theorem buffill_eq (b : Node) : buffill b = msgSum b.msgs := by
  unfold buffill Node.nbuf Node.bufsz
  induction b.msgs with
  | nil => rfl
  | cons m ms ih =>
    simp only [List.length_cons, List.map_cons, List.sum_cons, msgSum_cons]
    rw [← ih, msgsz]
    omega

theorem msgSum_sublist {ms ls : List GefsMsg} (h : ms.Sublist ls) : msgSum ms ≤ msgSum ls :=
  (h.map msgsz).sum_le_sum fun _ _ => Nat.zero_le _

def Node.addVal (b : Node) (kv : GefsKvp) : Node := { b with vals := b.vals ++ [kv] }

def Node.addMsg (b : Node) (m : GefsMsg) : Node := { b with msgs := b.msgs ++ [m] }

section Add

variable {b : Node} (kv : GefsKvp) (m : GefsMsg)

@[simp] theorem addVal_pivot : (b.addVal kv).pivot = b.pivot := rfl

@[simp] theorem addVal_msgs : (b.addVal kv).msgs = b.msgs := rfl

@[simp] theorem addVal_spc : (b.addVal kv).spc = b.spc := rfl

@[simp] theorem addVal_used : (b.addVal kv).used = b.used + valsz kv := by
  simp [Node.addVal, Node.used]

@[simp] theorem addMsg_pivot : (b.addMsg m).pivot = b.pivot := rfl

@[simp] theorem addMsg_vals : (b.addMsg m).vals = b.vals := rfl

@[simp] theorem addMsg_spc : (b.addMsg m).spc = b.spc := rfl

@[simp] theorem addMsg_used : (b.addMsg m).used = b.used := rfl

@[simp] theorem addMsg_msgSum : msgSum (b.addMsg m).msgs = msgSum b.msgs + msgsz m := by
  simp [Node.addMsg]

end Add

end GefsFuse.Server.Btree
