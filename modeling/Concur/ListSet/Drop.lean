import Concur.ListSet.Coupling

/-! # Dropping an `OrderedListSet`

`drop` walks the pointers from `head` and frees each node it reaches. An insert
allocates one node and links it; a remove that returns `Ok` unlinks one node
of the list and frees it as its `Box` goes out of scope. So in every reachable
state the nodes allocated are the nodes reachable from `head` and one node per
unlinking write of a remove, and `drop` frees exactly the reachable ones, each
once, all of them allocated.
-/

namespace Concur.ListSet

open State

variable {α : Type*} [LinearOrder α] {s : State α}

/-- The walk of `OrderedListSet::drop` from link `l`: free the node the pointer
reaches and go on to its `next`, until a null pointer; `fuel` bounds the walk. -/
def dropFrom (val : Link → Option Nat) : Nat → Link → List Nat
  | 0, _ => []
  | fuel + 1, l =>
    match val l with
    | none => []
    | some n => n :: dropFrom val fuel (.next n)

/-- The nodes `OrderedListSet::drop` frees, in order. No walk from `head` is
longer than the number of nodes ever allocated. -/
def State.drop (s : State α) : List Nat := dropFrom s.val (s.nnodes + 1) .head

/-- The write is the unlinking write of a `remove`. -/
def Op.unlinks : Op α → Bool
  | .remove _ => true
  | _ => false

omit [LinearOrder α] in
@[simp] theorem Op.unlinks_insert (k : α) : (Op.insert k).unlinks = false := rfl

omit [LinearOrder α] in
@[simp] theorem Op.unlinks_remove (k : α) : (Op.remove k).unlinks = true := rfl

/-- Every node an insert allocated is reachable from `head`, or was unlinked by
one write of a remove. -/
def Accounted (s : State α) : Prop :=
  s.order.length + s.log.countP (fun e => e.2.unlinks) = s.nnodes

omit [LinearOrder α] in
theorem Chain.dropFrom_eq {val : Link → Option Nat} {data : Nat → Option α} {l : Link}
    {lo : WithBot α} {order : List Nat} [LinearOrder α] (hc : Chain val data l lo order)
    {fuel : Nat} (hf : order.length < fuel) : dropFrom val fuel l = order := by
  induction order generalizing l lo fuel with
  | nil =>
    obtain ⟨fuel, rfl⟩ := Nat.exists_eq_add_one.mpr hf
    simp [dropFrom, show val l = none from hc]
  | cons n rest ih =>
    obtain ⟨fuel, rfl⟩ := Nat.exists_eq_add_one.mpr (Nat.zero_lt_of_lt hf)
    obtain ⟨hl, v, -, -, hc⟩ := hc
    simp only [dropFrom, hl, ih hc (by simpa using hf)]

omit [LinearOrder α] in
theorem accounted_init (ops : Nat → Op α) : Accounted (init ops) := rfl

theorem Inv.accounted_step (hi : Inv s) (ha : Accounted s) (t : Nat) : Accounted (step s t) := by
  have hp := hi.calls t
  rcases hpc : (s.calls t).pc with _ | _ | ⟨prev, n⟩ | ⟨prev, n⟩ | n | ⟨cur, b⟩ | ⟨cur, n⟩ |
    ⟨cur, n⟩ | ⟨cur, n⟩ | ⟨cur, r⟩ | r <;> rw [hpc] at hp <;> simp only [step, hpc]
  case found =>
    split
    · exact ha
    · split_ifs
      · exact ha
      · have hlen := (insertAtLink_perm (N := s.nnodes) hp.1.listed).length_eq
        simp only [Accounted, State.setPc, State.insertAt, List.countP_append] at ha ⊢
        simp only [List.length_cons] at hlen
        simp only [hlen, List.countP_cons, List.countP_nil, Op.unlinks_insert,
          Bool.false_eq_true, if_false]
        omega
    · (repeat' split) <;> exact ha
  case removeWrite =>
    have hn := hi.chain.mem_of_val hp.1.listed hp.2.1
    have hlen := List.length_erase_of_mem hn
    have hpos := List.length_pos_of_mem hn
    simp only [Accounted, State.setPc, State.unlinkAt, List.countP_append] at ha ⊢
    simp only [hlen, List.countP_cons, List.countP_nil, Op.unlinks_remove, if_true]
    omega
  all_goals (repeat' split) <;> exact ha

theorem Reachable.accounted (hr : Reachable s) : Accounted s := by
  induction hr with
  | initial ops => exact accounted_init ops
  | step t hr ih => exact hr.inv.accounted_step ih t

/-- Dropping the set frees exactly the nodes reachable from `head`, each once,
in list order, and all of them allocated; with them, the nodes the unlinking
writes of removes took out make up every node ever allocated. -/
theorem orderedListSet_drop_frees (hr : Reachable s) :
    s.drop = s.order ∧ s.drop.Nodup ∧ (∀ n ∈ s.drop, n < s.nnodes) ∧
      s.drop.length + s.log.countP (fun e => e.2.unlinks) = s.nnodes := by
  have hi := hr.inv
  have ha := hr.accounted
  have hdrop : s.drop = s.order := hi.chain.dropFrom_eq (by unfold Accounted at ha; omega)
  refine ⟨hdrop, hdrop ▸ hi.chain.nodup, fun n hn => ?_, hdrop ▸ ha⟩
  obtain ⟨v, hv, -⟩ := hi.chain.data_of_mem (hdrop ▸ hn)
  by_contra hge
  rw [hi.fresh n (by omega)] at hv
  cases hv

/-- Call 0 inserts 5 and call 1 removes it: `drop` frees nothing, and the one
node allocated was unlinked by the remove. -/
theorem orderedListSet_drop_frees_removed :
    let s := schedule (init fun t => if t = 0 then .insert 5 else .remove (5 : Nat))
      [0, 0, 0, 0, 1, 1, 1, 1, 1, 1, 1]
    s.drop = s.order ∧ s.drop.Nodup ∧ (∀ n ∈ s.drop, n < s.nnodes) ∧
      s.drop.length + s.log.countP (fun e => e.2.unlinks) = s.nnodes :=
  orderedListSet_drop_frees ((Reachable.initial _).schedule _)

end Concur.ListSet
