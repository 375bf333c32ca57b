import Concur.ListSet.Coupling

/-! # No run of hand-over-hand calls deadlocks

A call that does not move at its step has returned, or waits for a lock that
some call holds. A call that holds a lock and waits holds one link and waits
for the `next` of the node that link points to, so the waits follow the
pointers from `head`. The pointers end at null, so the last call of such a
wait does not wait: in every reachable state in which some call has not
returned, some call that has not returned moves.
-/

namespace Concur.ListSet

open State

variable {α : Type*} [LinearOrder α] {s : State α} {t u : Nat} {x : Link} {key : α}

/-- The call has returned. -/
def Pc.returned : Pc α → Bool
  | .done _ => true
  | _ => false

omit [LinearOrder α] in
theorem Pc.returned_of_holds {pc : Pc α} (h : x ∈ pc.holds) : pc.returned = false := by
  cases pc <;> first | rfl | simp [Pc.holds] at h

theorem State.visit_eq {pc : Pc α} (h : s.visit key x = some pc) :
    (∃ b, pc = .found x b) ∨ ∃ n, pc = .lockNext x n := by
  unfold State.visit at h
  split at h
  · cases h; exact .inl ⟨_, rfl⟩
  · obtain ⟨v, -, rfl⟩ := Option.map_eq_some'.mp h
    split_ifs
    · exact .inl ⟨_, rfl⟩
    · exact .inr ⟨_, rfl⟩

theorem Inv.visit_isSome (hi : Inv s) (key : α) (hx : s.Listed x) : (s.visit key x).isSome := by
  unfold State.visit
  split
  · rfl
  · rename_i n hv
    obtain ⟨v, hd, -⟩ := hi.chain.data_of_mem (hi.chain.mem_of_val hx hv)
    simp [hd]

theorem Inv.stalled (hi : Inv s) (h : ((step s t).calls t).pc = (s.calls t).pc) :
    (s.calls t).pc.returned = true ∨ ∃ x u, (s.calls t).pc.waits = some x ∧ s.owner x = some u := by
  have hp := hi.calls t
  rcases hpc : (s.calls t).pc with _ | _ | ⟨prev, n⟩ | ⟨prev, n⟩ | n | ⟨cur, b⟩ | ⟨cur, n⟩ |
    ⟨cur, n⟩ | ⟨cur, n⟩ | ⟨cur, r⟩ | r <;> rw [hpc] at hp <;> simp only [step, hpc] at h
  case lockHead | lockNext | removeLock =>
    split_ifs at h with hl
    · simp [State.setPc_calls] at h
    · obtain ⟨u, hu⟩ := Option.ne_none_iff_exists'.mp hl
      exact .inr ⟨_, u, rfl, hu⟩
  case readHead =>
    split at h
    · rcases State.visit_eq ‹_› with ⟨b, rfl⟩ | ⟨n, rfl⟩ <;> simp [State.setPc_calls] at h
    · simpa [‹s.visit _ _ = none›] using
        hi.visit_isSome (s.calls t).op.key (inChain_self .head s.order)
  case readNext =>
    split at h
    · rcases State.visit_eq ‹_› with ⟨b, rfl⟩ | ⟨n, rfl⟩ <;> simp [State.setPc_calls] at h
    · simpa [‹s.visit _ _ = none›] using
        hi.visit_isSome (s.calls t).op.key (listed_next.mpr hp.1)
  case found =>
    split at h
    · simp [State.setPc_calls] at h
    · split_ifs at h <;> simp [State.setPc_calls] at h
    · split_ifs at h with hb
      · split at h
        · simp [State.setPc_calls] at h
        · rename_i hv
          obtain ⟨n, hn, -⟩ := (hi.mem_keys_iff hp.1).mp (by simpa [hb] using hp.2)
          rw [hv] at hn; cases hn
      · simp [State.setPc_calls] at h
  case removeUnlock =>
    rw [hp.2.2.1] at h
    simp [State.setPc_calls] at h
  case unlockPrev | removeWrite | release => simp [State.setPc_calls] at h
  case done => exact .inl rfl

theorem Inv.holder_moves_or_waits (hi : Inv s) (hx : s.owner x = some u) :
    ((s.calls u).pc.returned = false ∧ ((step s u).calls u).pc ≠ (s.calls u).pc) ∨
      ∃ n u', s.val x = some n ∧ s.owner (.next n) = some u' := by
  have hheld := (hi.owner x u).mp hx
  have hp := hi.calls u
  have hret := Pc.returned_of_holds hheld
  by_cases h : ((step s u).calls u).pc = (s.calls u).pc
  · refine .inr ?_
    rcases hi.stalled h with hd | ⟨y, u', hw, hu'⟩
    · rw [hret] at hd; cases hd
    rcases hpc : (s.calls u).pc with _ | _ | ⟨prev, n⟩ | ⟨prev, n⟩ | n | ⟨cur, b⟩ | ⟨cur, n⟩ |
      ⟨cur, n⟩ | ⟨cur, n⟩ | ⟨cur, r⟩ | r <;> rw [hpc] at hw hheld hp <;>
      simp only [Pc.waits, Pc.holds, List.mem_singleton, List.not_mem_nil] at hw hheld <;>
      cases hw
    all_goals subst hheld; exact ⟨n, u', hp.2.1, hu'⟩
  · exact .inl ⟨hret, h⟩

/-- Some call that holds a lock and has not returned moves, if a call holds a
link from which the pointers run to null through `rest`: each call that waits,
waits for the link one pointer further, so the last one does not wait. -/
theorem Inv.holder_moves_of_owner (hi : Inv s) {lo : WithBot α} {rest : List Nat}
    (hc : Chain s.val s.data x lo rest) (hu : s.owner x = some u) :
    ∃ w y, s.owner y = some w ∧ (s.calls w).pc.returned = false ∧
      ((step s w).calls w).pc ≠ (s.calls w).pc := by
  induction rest generalizing x lo u with
  | nil =>
    obtain hm | ⟨n, -, hn, -⟩ := hi.holder_moves_or_waits hu
    · exact ⟨u, x, hu, hm⟩
    · rw [show s.val x = none from hc] at hn; cases hn
  | cons m rest ih =>
    obtain hm | ⟨n, u', hn, hu'⟩ := hi.holder_moves_or_waits hu
    · exact ⟨u, x, hu, hm⟩
    · obtain ⟨hm, v, -, -, hc⟩ := hc
      rw [hm] at hn; cases hn
      exact ih hc hu'

theorem Inv.exists_moves_of_owner (hi : Inv s) {lo : WithBot α} {rest : List Nat}
    (hc : Chain s.val s.data x lo rest) (hu : s.owner x = some u) :
    ∃ w, (s.calls w).pc.returned = false ∧ ((step s w).calls w).pc ≠ (s.calls w).pc :=
  let ⟨w, _, _, hw⟩ := hi.holder_moves_of_owner hc hu
  ⟨w, hw⟩

/-- Hand-over-hand locking never deadlocks. In every reachable state in which
some call has not returned, some call that has not returned moves at its next
step: the calls that wait for locks wait along the pointers of the list, and
the list ends. -/
theorem handOverHand_deadlockFree (hr : Reachable s) (ht : (s.calls t).pc.returned = false) :
    ∃ u, (s.calls u).pc.returned = false ∧ ((step s u).calls u).pc ≠ (s.calls u).pc := by
  have hi := hr.inv
  by_cases h : ((step s t).calls t).pc = (s.calls t).pc
  · rcases hi.stalled h with hd | ⟨x, u, hw, hu⟩
    · rw [ht] at hd; cases hd
    · obtain ⟨lo, rest, hc⟩ := hi.chain.suffix (hi.waits_listed hw)
      exact hi.exists_moves_of_owner hc hu
  · exact ⟨t, ht, h⟩

/-- Call 0 holds the lock of `head`, so call 1 waits at its first step, and
some call that has not returned moves. -/
theorem handOverHand_deadlockFree_waiting :
    ((step (schedule (init fun t => (.insert t : Op Nat)) [0]) 1).calls 1).pc =
        ((schedule (init fun t => (.insert t : Op Nat)) [0]).calls 1).pc ∧
      ∃ u, ((schedule (init fun t => (.insert t : Op Nat)) [0]).calls u).pc.returned = false ∧
        ((step (schedule (init fun t => (.insert t : Op Nat)) [0]) u).calls u).pc ≠
          ((schedule (init fun t => (.insert t : Op Nat)) [0]).calls u).pc :=
  ⟨rfl, handOverHand_deadlockFree ((Reachable.initial _).schedule _) (t := 1) rfl⟩

end Concur.ListSet
