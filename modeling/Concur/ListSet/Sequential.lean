import Mathlib

/-! # `OrderedListSet` run by one thread

The list is the sequence of its node values. A cursor is the position of the
link whose lock it holds: 0 for `head`, `i + 1` for the `next` of node `i`;
link `p` points to node `p`, or is null when `p` is the length. Run by one
thread, the calls agree with a finite set, the list stays strictly
increasing, and `iter` yields the set in increasing order, each element once.
-/

namespace Concur.ListSet

variable {α : Type*} [LinearOrder α]

/-- `Cursor::find`: holding link `pos`, which points to the first node of
`rest`, move hand over hand to the first node not below `key`. -/
def Cursor.find (key : α) : List α → Nat → Bool × Nat
  | [], pos => (false, pos)
  | node :: rest, pos => if key ≤ node then (decide (key = node), pos) else Cursor.find key rest (pos + 1)

namespace OrderedListSet

/-- `OrderedListSet::find`: a cursor from `head`. -/
def find (l : List α) (key : α) : Bool × Nat := Cursor.find key l 0

def contains (l : List α) (key : α) : Bool := (find l key).1

/-- `insert`: on a miss, the held link now points to a new node with `key`,
whose `next` is the node the link pointed to. -/
def insert (l : List α) (key : α) : List α × Except α Unit :=
  match find l key with
  | (true, _) => (l, .error key)
  | (false, pos) => (l.take pos ++ key :: l.drop pos, .ok ())

/-- `remove`: on a hit, the held link now points to the `next` of the node it
pointed to, whose value is returned. A hit never holds a null link. -/
def remove (l : List α) (key : α) : List α × Except Unit α :=
  match find l key with
  | (false, _) => (l, .error ())
  | (true, pos) =>
    match l.drop pos with
    | node :: rest => (l.take pos ++ rest, .ok node)
    | [] => (l, .error ())

end OrderedListSet

/-- `Iter`: the link whose lock it holds (`none` once it has run off the end)
and the flag of its first call. -/
structure Iter where
  link : Option Nat
  first : Bool

/-- `OrderedListSet::iter`. -/
def iter : Iter := ⟨some 0, true⟩

/-- `Iter::next`. -/
def Iter.next (l : List α) (it : Iter) : Iter × Option α :=
  match it.link with
  | none => (it, none)
  | some p =>
    match l[p]? with
    | none => (it, none)
    | some node =>
      if it.first then (⟨some p, false⟩, some node)
      else
        match l[p + 1]? with
        | none => (⟨none, false⟩, none)
        | some next => (⟨some (p + 1), false⟩, some next)

/-- The values of the first `n` calls of `next`, up to the first `None`. -/
def Iter.drain (l : List α) : Nat → Iter → List α
  | 0, _ => []
  | n + 1, it =>
    match it.next l with
    | (_, none) => []
    | (it', some a) => a :: Iter.drain l n it'

/-- A call on the set. -/
inductive Op (α : Type*)
  | insert (key : α)
  | remove (key : α)
  | contains (key : α)

/-- What a call returns. -/
inductive Ret (α : Type*)
  | insert (r : Except α Unit)
  | remove (r : Except Unit α)
  | contains (r : Bool)

def exec (l : List α) : Op α → List α × Ret α
  | .insert key => ((OrderedListSet.insert l key).1, .insert (OrderedListSet.insert l key).2)
  | .remove key => ((OrderedListSet.remove l key).1, .remove (OrderedListSet.remove l key).2)
  | .contains key => (l, .contains (OrderedListSet.contains l key))

/-- The calls of one thread, in order. -/
def run (l : List α) : List (Op α) → List α × List (Ret α)
  | [] => (l, [])
  | op :: ops => ((run (exec l op).1 ops).1, (exec l op).2 :: (run (exec l op).1 ops).2)

/-- The reference finite set. -/
def Op.spec (S : Finset α) : Op α → Finset α × Ret α
  | .insert key => if key ∈ S then (S, .insert (.error key)) else (Insert.insert key S, .insert (.ok ()))
  | .remove key => if key ∈ S then (S.erase key, .remove (.ok key)) else (S, .remove (.error ()))
  | .contains key => (S, .contains (decide (key ∈ S)))

def specRun (S : Finset α) : List (Op α) → Finset α × List (Ret α)
  | [] => (S, [])
  | op :: ops => ((specRun (op.spec S).1 ops).1, (op.spec S).2 :: (specRun (op.spec S).1 ops).2)

section
variable {key : α} {l : List α}

theorem mem_cons_iff_of_le {a : α} {rest : List α} (hl : (a :: rest).Sorted (· < ·))
    (h : key ≤ a) : key ∈ a :: rest ↔ key = a := by
  refine ⟨fun hm => ?_, fun h => h ▸ List.mem_cons_self _ _⟩
  rcases List.mem_cons.mp hm with h' | h'
  · exact h'
  · exact absurd h (not_le.mpr (List.rel_of_sorted_cons hl _ h'))

theorem Cursor.find_eq (hl : l.Sorted (· < ·)) (pos : Nat) :
    Cursor.find key l pos = (decide (key ∈ l), pos + (l.takeWhile (· < key)).length) := by
  induction l generalizing pos with
  | nil => rfl
  | cons a rest ih =>
    rw [Cursor.find]
    split
    · next hle => simp [List.takeWhile_cons, not_lt.mpr hle, mem_cons_iff_of_le hl hle]
    · next hlt =>
      have ha : a < key := lt_of_not_le hlt
      rw [ih hl.of_cons]
      simp [List.takeWhile_cons, ha, ne_of_gt ha]
      omega

omit [LinearOrder α] in
theorem take_length_takeWhile (p : α → Bool) (l : List α) :
    l.take (l.takeWhile p).length = l.takeWhile p := by
  induction l with
  | nil => rfl
  | cons a rest ih => by_cases h : p a <;> simp [List.takeWhile_cons, h, ih]

omit [LinearOrder α] in
theorem drop_length_takeWhile (p : α → Bool) (l : List α) :
    l.drop (l.takeWhile p).length = l.dropWhile p := by
  induction l with
  | nil => rfl
  | cons a rest ih => by_cases h : p a <;> simp [List.takeWhile_cons, List.dropWhile_cons, h, ih]

theorem dropWhile_of_mem (hl : l.Sorted (· < ·)) (h : key ∈ l) : ∃ rest,
    l.dropWhile (· < key) = key :: rest ∧ l.takeWhile (· < key) ++ rest = l.erase key := by
  induction l with
  | nil => simp at h
  | cons a t ih =>
    by_cases ha : a < key
    · obtain ⟨rest, h1, h2⟩ := ih hl.of_cons
        ((List.mem_cons.mp h).resolve_left (ne_of_gt ha))
      refine ⟨rest, by simp [List.dropWhile_cons, ha, h1], ?_⟩
      simp [List.takeWhile_cons, ha, ← h2, List.erase_cons_tail (by simp [ne_of_lt ha] : ¬(a == key))]
    · obtain rfl := (mem_cons_iff_of_le hl (not_lt.mp ha)).mp h
      exact ⟨t, by simp [List.dropWhile_cons], by simp [List.takeWhile_cons]⟩

theorem insert_eq (hl : l.Sorted (· < ·)) : OrderedListSet.insert l key =
    if key ∈ l then (l, .error key) else (l.orderedInsert (· ≤ ·) key, .ok ()) := by
  rw [OrderedListSet.insert, OrderedListSet.find, Cursor.find_eq hl]
  by_cases h : key ∈ l
  · simp [h]
  · simp [h, take_length_takeWhile, drop_length_takeWhile, List.orderedInsert_eq_take_drop]

theorem remove_eq (hl : l.Sorted (· < ·)) : OrderedListSet.remove l key =
    if key ∈ l then (l.erase key, .ok key) else (l, .error ()) := by
  rw [OrderedListSet.remove, OrderedListSet.find, Cursor.find_eq hl]
  by_cases h : key ∈ l
  · obtain ⟨rest, h1, h2⟩ := dropWhile_of_mem hl h
    simp [h, drop_length_takeWhile, take_length_takeWhile, h1, h2]
  · simp [h]

theorem sorted_orderedInsert (hl : l.Sorted (· < ·)) (h : key ∉ l) :
    (l.orderedInsert (· ≤ ·) key).Sorted (· < ·) :=
  (hl.le_of_lt.orderedInsert key l).lt_of_le
    ((List.perm_orderedInsert _ key l).nodup_iff.mpr (List.nodup_cons.mpr ⟨h, hl.nodup⟩))

theorem toFinset_erase (hl : l.Nodup) : (l.erase key).toFinset = l.toFinset.erase key := by
  ext x; simp [hl.mem_erase_iff, and_comm]

end

theorem exec_spec {l : List α} {S : Finset α} (hl : l.Sorted (· < ·)) (hS : l.toFinset = S)
    (op : Op α) : (exec l op).2 = (op.spec S).2 ∧ (exec l op).1.Sorted (· < ·) ∧
      (exec l op).1.toFinset = (op.spec S).1 := by
  have hmem : ∀ k, k ∈ l ↔ k ∈ S := fun k => by rw [← hS, List.mem_toFinset]
  cases op with
  | insert key =>
    by_cases h : key ∈ l
    · simp [exec, Op.spec, insert_eq hl, h, (hmem key).mp h, hl, hS]
    · refine ⟨by simp [exec, Op.spec, insert_eq hl, h, (hmem key).not.mp h], ?_, ?_⟩
      · simpa [exec, insert_eq hl, h] using sorted_orderedInsert hl h
      · ext x
        simp [exec, Op.spec, insert_eq hl, h, (hmem key).not.mp h,
          (List.perm_orderedInsert _ key l).mem_iff, ← hS]
  | remove key =>
    by_cases h : key ∈ l
    · refine ⟨by simp [exec, Op.spec, remove_eq hl, h, (hmem key).mp h], ?_, ?_⟩
      · simpa [exec, remove_eq hl, h] using hl.sublist (List.erase_sublist _ _)
      · simp [exec, Op.spec, remove_eq hl, h, (hmem key).mp h, toFinset_erase hl.nodup, hS]
    · simp [exec, Op.spec, remove_eq hl, h, (hmem key).not.mp h, hl, hS]
  | contains key =>
    simp [exec, Op.spec, OrderedListSet.contains, OrderedListSet.find, Cursor.find_eq hl,
      hmem, hl, hS]

theorem run_spec {l : List α} {S : Finset α} (hl : l.Sorted (· < ·)) (hS : l.toFinset = S)
    (ops : List (Op α)) : (run l ops).2 = (specRun S ops).2 ∧ (run l ops).1.Sorted (· < ·) ∧
      (run l ops).1.toFinset = (specRun S ops).1 := by
  induction ops generalizing l S with
  | nil => exact ⟨rfl, hl, hS⟩
  | cons op ops ih =>
    obtain ⟨h1, h2, h3⟩ := exec_spec hl hS op
    obtain ⟨g1, g2, g3⟩ := ih h2 h3
    exact ⟨by simp [run, specRun, h1, g1], g2, g3⟩

omit [LinearOrder α] in
theorem Iter.drain_after (l : List α) {p : Nat} (hp : p < l.length) (n : Nat) :
    Iter.drain l n ⟨some p, false⟩ = (l.drop (p + 1)).take n := by
  induction n generalizing p with
  | zero => rfl
  | succ n ih =>
    rw [Iter.drain, Iter.next]
    simp only [List.getElem?_eq_getElem hp, Bool.false_eq_true, if_false]
    by_cases hq : p + 1 < l.length
    · simp only [List.getElem?_eq_getElem hq, ih hq, List.drop_eq_getElem_cons hq,
        List.take_succ_cons]
    · simp [List.getElem?_eq_none (by omega : l.length ≤ p + 1),
        List.drop_eq_nil_of_le (by omega : l.length ≤ p + 1)]

omit [LinearOrder α] in
theorem Iter.drain_iter (l : List α) (n : Nat) : Iter.drain l n iter = l.take n := by
  cases n with
  | zero => rfl
  | succ n =>
    rw [Iter.drain, iter, Iter.next]
    cases l with
    | nil => rfl
    | cons a rest => simp [Iter.drain_after (a :: rest) (by simp : 0 < (a :: rest).length)]

/-- Run by one thread from `new()`, every call answers as the reference set
does, the list stays strictly increasing and equal to the set's elements in
order, and `iter` yields exactly those, once each, then `None`. -/
theorem orderedListSet_agrees (ops : List (Op α)) :
    (run [] ops).2 = (specRun ∅ ops).2 ∧ (run [] ops).1.Sorted (· < ·) ∧
      (run [] ops).1 = (specRun ∅ ops).1.sort (· ≤ ·) ∧
      ∀ n, Iter.drain (run [] ops).1 n iter = ((specRun ∅ ops).1.sort (· ≤ ·)).take n := by
  obtain ⟨h1, h2, h3⟩ := run_spec List.sorted_nil List.toFinset_nil ops
  have heq : (run [] ops).1 = (specRun ∅ ops).1.sort (· ≤ ·) :=
    List.eq_of_perm_of_sorted (List.perm_of_nodup_nodup_toFinset_eq h2.nodup
      (Finset.sort_nodup _ _) (by rw [h3, Finset.sort_toFinset])) h2 (Finset.sort_sorted_lt _)
  exact ⟨h1, h2, heq, fun n => by rw [Iter.drain_iter, heq]⟩

end Concur.ListSet
