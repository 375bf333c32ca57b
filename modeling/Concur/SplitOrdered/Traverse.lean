import Concur.SplitOrdered.Machine

/-! # The finding phase of `find_harris`

The traversal stops at null or at the first unmarked node whose key is not
below the search key. Between the pointer it read last from `prev` and where
it stops there are only marked nodes, and `prev` is the cell it started from
or the `next` of an unmarked node below the key.
-/

namespace Concur.SplitOrdered

variable {V : Type*}

/-- The nodes `xs`, all marked, lead by `next` from pointer `p` to pointer `q`. -/
def MarkedPath (nodes : Nat → Option (Node V)) : Option Nat → Option Nat → List Nat → Prop
  | p, q, [] => p = q
  | p, q, x :: xs =>
    p = some x ∧ ∃ node, nodes x = some node ∧ node.marked = true ∧ MarkedPath nodes node.next q xs

/-- Where a search for `key` stops: at null, not found, or at an unmarked node
not below `key`, found exactly when its key is `key`. -/
def Stop (nodes : Nat → Option (Node V)) (key : Nat) (curr : Option Nat) (found : Bool) : Prop :=
  curr = none ∧ found = false ∨
    ∃ c node, curr = some c ∧ nodes c = some node ∧ node.marked = false ∧ key ≤ node.key ∧
      (found = true ↔ node.key = key)

theorem traverse_spec {nodes : Nat → Option (Node V)} {key fuel : Nat} {prev prev' : Loc}
    {prevNext curr prevNext' curr' : Option Nat} {found : Bool}
    (h : traverse nodes key fuel prev prevNext curr = some (prev', prevNext', curr', found)) :
    Stop nodes key curr' found ∧
      ((prev' = prev ∧ prevNext' = prevNext ∧ ∃ xs, MarkedPath nodes curr curr' xs) ∨
        ∃ p node, prev' = .next p ∧ nodes p = some node ∧ node.marked = false ∧ node.key < key ∧
          node.next = prevNext' ∧ ∃ xs, MarkedPath nodes prevNext' curr' xs) := by
  induction fuel generalizing prev prevNext curr with
  | zero => simp [traverse] at h
  | succ fuel ih =>
    rcases curr with _ | c
    · simp only [traverse, Option.some.injEq, Prod.mk.injEq] at h
      obtain ⟨rfl, rfl, rfl, rfl⟩ := h
      exact ⟨.inl ⟨rfl, rfl⟩, .inl ⟨rfl, rfl, [], rfl⟩⟩
    · simp only [traverse] at h
      rcases hc : nodes c with _ | node
      · simp [hc] at h
      · simp only [hc] at h
        split_ifs at h with hm hk
        · obtain ⟨hs, hpath⟩ := ih h
          refine ⟨hs, hpath.imp (fun ⟨h1, h2, xs, hxs⟩ => ⟨h1, h2, c :: xs, rfl, node, hc, hm, hxs⟩)
            id⟩
        · obtain ⟨hs, hpath⟩ := ih h
          refine ⟨hs, .inr ?_⟩
          rcases hpath with ⟨rfl, rfl, hxs⟩ | hmoved
          · exact ⟨c, node, rfl, hc, by simpa using hm, hk, rfl, hxs⟩
          · exact hmoved
        · simp only [Option.some.injEq, Prod.mk.injEq] at h
          obtain ⟨rfl, rfl, rfl, rfl⟩ := h
          exact ⟨.inr ⟨c, node, rfl, hc, by simpa using hm, not_lt.mp hk, by simp⟩,
            .inl ⟨rfl, rfl, [], rfl⟩⟩

end Concur.SplitOrdered
