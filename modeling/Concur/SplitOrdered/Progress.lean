import Concur.SplitOrdered.Overflow

/-! # How calls of `SplitOrderedList` end

A call panics only where the code means it to: `assert_valid_key` rejects its
key, or an insert's `size * LOAD_FACTOR` overflows at its `fetch_add`. The
`unwrap` of `lookup`, the `unwrap` of `delete`, the division `key % size` and
the mark of `Cursor::delete` never panic.

A call invoked in any reachable state and then run alone returns the
sequential map's result. A call already inside `lookup_bucket` may not: for a
bucket whose parent is `0` it searches from the cursor `List::head` gave it,
`parent_cursor`, and after a failed insert CAS it searches from that same
cursor again. Once another call has changed `head` in between, the search
stops at the same place, the CAS fails again, and the call goes round this
loop forever, even alone.
-/

namespace Concur.SplitOrdered

open Function
open Concur.GrowableArray (usizeSize)

variable {V : Type*} {s : State V} {order : List Nat} {t : Nat}

/-- Why a call panicked: `assert_valid_key` rejected its key, or it is an
insert that read `size = 2 ^ 63`, so that `size * LOAD_FACTOR` overflowed at its
`fetch_add`. -/
def PanicCause (c : Call V) : Prop :=
  hiMask ≤ c.op.key ∨ (∃ k v, c.op = .insert k v) ∧ c.size = 2 ^ 63

theorem retTo_ne_panicked (cursor : Cursor) (pending : List Nat) :
    (retTo cursor pending : Pc V) ≠ .panicked := by
  cases pending <;> simp [retTo]

theorem afterFind_eq_panicked {c : Call V} {target : Target} {start cursor : Cursor}
    {found : Bool} (h : s.afterFind c target start cursor found = .panicked) :
    found = true ∧ cursor.curr.bind s.nodes = none := by
  unfold State.afterFind at h
  split at h
  · split_ifs at h
  · split at h
    · split_ifs at h with hf
      · split at h
        · cases h
        · exact ⟨hf, ‹_›⟩
    · split_ifs at h
    · split_ifs at h

theorem Shape.panicCause_step (hs : Shape s order) (hl : Lin s) (hn : (s.calls t).pc ≠ .panicked)
    (h : ((step s t).calls t).pc = .panicked) : PanicCause ((step s t).calls t) := by
  have hc := hs.calls t
  have hcl := hl.calls t
  rcases hpc : (s.calls t).pc with _ | _ | ⟨b, pending⟩ | ⟨b, pending⟩ | ⟨b, pending⟩ |
    ⟨target, start⟩ | ⟨target, start, prev, prevNext, curr, found⟩ | ⟨b, pending, start, cursor⟩ |
    ⟨b, pending, cursor⟩ | cursor | _ | _ | cursor | ⟨cursor, next, value⟩ | value | r | _ <;>
    simp only [CallShape, CallLin, hpc] at hc hcl <;> simp only [step, hpc] at h ⊢
  case start =>
    split_ifs at h ⊢ with hv
    · simp at h
    · exact .inl (by simpa [setPc_call, validKey] using hv)
  case find =>
    split_ifs at h with h0
    · obtain ⟨j, -, -, hj⟩ := hs.heap.size
      simp [hj] at h0
    · simp at h
  case traverse =>
    split at h
    · rename_i prev prevNext curr found htr
      split_ifs at h
      · obtain ⟨hf, hb⟩ := afterFind_eq_panicked (by simpa using h)
        rcases (traverse_spec htr).1 with ⟨-, rfl⟩ | ⟨c, node, rfl, hnode, -⟩
        · cases hf
        · simp [hnode] at hb
      · simp at h
    · rw [hpc] at h; cases h
  case cleanup =>
    split at h
    · rename_i s' hcas
      obtain ⟨hf, hb⟩ := afterFind_eq_panicked (by simpa using h)
      rcases hc.2.2.2.2.2.2 with ⟨-, rfl⟩ | ⟨c, node, rfl, hnode, -⟩
      · cases hf
      · obtain ⟨node', hnode', -⟩ := cas_keep hcas hnode
        simp [hnode'] at hb
    · simp at h
  case fetchAdd =>
    split_ifs at h ⊢ with hover
    · obtain ⟨k, v, hop, -⟩ := hcl
      exact .inr ⟨⟨k, v, by simpa [setPc_call] using hop⟩,
        by simpa [setPc_call] using (hs.overflow_iff hpc).mp hover⟩
    all_goals simp at h
  case mark =>
    split at h
    · split at h
      · split_ifs at h <;> simp at h
      · rw [hpc] at h; cases h
    · rename_i hnone
      obtain ⟨-, n, node, hcur, -⟩ := hc
      simp [hcur] at hnone
  case fetchSub =>
    obtain ⟨k, v, -, rfl, -⟩ := hcl
    simp at h
  case panicked => exact absurd hpc hn
  all_goals
    (repeat' split at h) <;> simp [hpc, retTo_ne_panicked] at h

/-- A call panics only where the code means it to. In every reachable state, a
call that has panicked was rejected by `assert_valid_key`, or is an insert that
read `size = 2 ^ 63` and overflowed `size * LOAD_FACTOR` at its `fetch_add`. So
the `unwrap`s of `lookup` and `delete`, the division `key % size` and the mark
of `Cursor::delete` never panic. -/
theorem splitOrdered_panics_only (hr : Reachable s) (t : Nat) (hpc : (s.calls t).pc = .panicked) :
    PanicCause (s.calls t) := by
  induction hr generalizing t with
  | initial ops =>
    simp only [init] at hpc
    split at hpc <;> cases hpc
  | @step s u hr ih =>
    obtain ⟨order, hs⟩ := hr.shape
    by_cases htu : t = u
    · subst htu
      by_cases hn : (s.calls t).pc = .panicked
      · rw [show step s t = s by simp [step, hn]] at hpc ⊢
        exact ih t hpc
      · exact hs.panicCause_step hr.lin hn hpc
    · rw [(stepFrame s u).calls t htu] at hpc ⊢
      exact ih t hpc

theorem splitOrdered_panics_only_invalid :
    PanicCause ((schedule (init [(.lookup (2 ^ 63) : Op Nat)]) [0]).calls 0) :=
  splitOrdered_panics_only ((Reachable.initial _).schedule _) 0 rfl

/-- Calls are obstruction-free from their invocation. In every reachable state,
a call that has not started, run alone, returns the sequential map's result on
the map of that state and changes the map, `count` and `size` as the sequential
map says, when its key is one `assert_valid_key` admits and, for an insert,
`size` is below `2 ^ 63`. -/
theorem splitOrdered_solo_returns (hr : Reachable s) (hpc : (s.calls t).pc = .start)
    (hk : (s.calls t).op.key < hiMask) (hlt : ∀ k v, (s.calls t).op = .insert k v → s.size < 2 ^ 63) :
    ∃ k, RanSeq t s (solo s t k) := by
  obtain ⟨order, hs⟩ := hr.shape
  exact hs.start_solo hpc hk hlt

/-- Two inserts start together; the first runs alone to its return, and then
the second, run alone, also returns the sequential map's result. -/
theorem splitOrdered_solo_returns_second :
    ∃ k, RanSeq 1 (schedule (init [.insert 1 (5 : Nat), .insert 2 6]) (List.replicate 11 0))
      (solo (schedule (init [.insert 1 (5 : Nat), .insert 2 6]) (List.replicate 11 0)) 1 k) :=
  splitOrdered_solo_returns ((Reachable.initial _).schedule _) rfl (by decide)
    (fun _ _ _ => by decide)

theorem setPc_setPc (s : State V) (t : Nat) (pc pc' : Pc V) :
    (s.setPc t pc).setPc t pc' = s.setPc t pc' := by
  simp [State.setPc, State.setCall, setPc_call]

theorem setPc_self (s : State V) (t : Nat) : s.setPc t (s.calls t).pc = s := by
  simp [State.setPc, State.setCall]

/-- A call of `lookup_bucket` that searches for its sentinel from a cursor at
`head` whose node is no longer `head`'s, where the search stops at the `head`
link without passing a node below the key, spins: the search finds the same
place, the cleanup CAS or the insert CAS on `head` fails, and the call is back
where it was, with the state unchanged. Run alone it never returns. -/
theorem lookupBucket_stale_head_spins {b : Nat} {pending : List Nat} {c curr : Option Nat}
    {found : Bool} (hpc : (s.calls t).pc = .traverse (.sentinel b pending) ⟨.head, c⟩)
    (hhead : s.head ≠ c)
    (htr : traverse s.nodes (reverseBits b) findFuel .head c c = some (.head, c, curr, found))
    (hfound : c = curr → found = false) :
    (∀ k, solo s t (2 * k) = s) ∧ ∀ k r, ((solo s t k).calls t).pc ≠ .done r := by
  have hcycle : solo s t 2 = s := by
    rw [solo_succ, solo_one]
    by_cases hcc : c = curr
    · subst hcc
      have h1 : step s t = s.setPc t (.sentinelInsert b pending ⟨.head, c⟩ ⟨.head, c⟩) := by
        simp [step, hpc, Target.key, htr, State.afterFind, hfound rfl]
      have h2 : step (s.setPc t (.sentinelInsert b pending ⟨.head, c⟩ ⟨.head, c⟩)) t =
          (s.setPc t (.sentinelInsert b pending ⟨.head, c⟩ ⟨.head, c⟩)).setPc t
            (.traverse (.sentinel b pending) ⟨.head, c⟩) := by
        simp [step, State.insertAt, State.cas, hhead]
      rw [h1, h2, setPc_setPc, ← hpc, setPc_self]
    · have h1 : step s t =
          s.setPc t (.cleanup (.sentinel b pending) ⟨.head, c⟩ .head c curr found) := by
        simp [step, hpc, Target.key, htr, hcc]
      have h2 : step (s.setPc t (.cleanup (.sentinel b pending) ⟨.head, c⟩ .head c curr found)) t =
          (s.setPc t (.cleanup (.sentinel b pending) ⟨.head, c⟩ .head c curr found)).setPc t
            (.traverse (.sentinel b pending) ⟨.head, c⟩) := by
        simp [step, State.cas, hhead]
      rw [h1, h2, setPc_setPc, ← hpc, setPc_self]
  have heven : ∀ k, solo s t (2 * k) = s := fun k => by
    induction k with
    | zero => rfl
    | succ k ih => rw [Nat.mul_succ, solo_add, ih, hcycle]
  refine ⟨heven, fun k r => ?_⟩
  obtain ⟨j, rfl | rfl⟩ := Nat.even_or_odd' k
  · rw [heven, hpc]; nofun
  · rw [solo_add, heven, solo_one]
    simp only [step, hpc, Target.key, htr]
    split_ifs with hcc
    · simp [State.afterFind, hfound hcc]
    · simp

/-- `lookup(1)` on `new()` reads `head` as null for bucket `1`, whose parent is
`0`; then `lookup(0)` links the sentinel of bucket `0` at `head`. From there the
first call spins when run alone. -/
theorem lookupBucket_stale_head_run :
    let s := schedule (init [.lookup 1, (.lookup 0 : Op Nat)]) [0, 0, 0, 0, 0, 1, 1, 1, 1, 1, 1, 1]
    Reachable s ∧ (s.calls 0).pc = .traverse (.sentinel 1 []) ⟨.head, none⟩ ∧ s.head = some 0 ∧
      (∀ k, solo s 0 (2 * k) = s) ∧ ∀ k r, ((solo s 0 k).calls 0).pc ≠ .done r := by
  intro s
  have hpc : (s.calls 0).pc = .traverse (.sentinel 1 []) ⟨.head, none⟩ := rfl
  have hhead : s.head = some 0 := rfl
  exact ⟨(Reachable.initial _).schedule _, hpc, hhead,
    lookupBucket_stale_head_spins hpc (by rw [hhead]; nofun) rfl fun _ => rfl⟩

end Concur.SplitOrdered
