import Concur.ListSet.Progress
import Concur.ListSet.Solo

/-! # Hand-over-hand calls are linearizable

A call decides its result while it holds the link of its key, so the result
agrees with the keys of the list then, which are the set the writes logged so
far make. An `insert` of an absent key links its node in at that step and logs
it; a `remove` of a present key logs its unlinking write. So every result is
what the reference set returns on the set of a prefix of `log`, and the result
of a write is the call's own entry there. The prefix is fixed by a step of the
call itself, so it is never shorter than `log` was before the call's first
step: a call that returned before another began comes first.
-/

namespace Concur.ListSet

open State

variable {α : Type*} [LinearOrder α] {s s₀ : State α} {t : Nat} {L₀ : Nat}
  {log : List (Nat × Op α)} {op : Op α} {r : Ret α}

/-- Result `r` of call `t` running `op` is placed after the first `L` writes of
`log`: it is what the reference set returns on the set they make, and a result
that wrote is entry `L`. -/
def Linearized (log : List (Nat × Op α)) (t : Nat) (op : Op α) (r : Ret α) (L : Nat) : Prop :=
  (op.spec (applyLog (log.take L) ∅)).2 = r ∧ (r.isOk → log[L]? = some (t, op))

/-- The result `r` is placed in `log`, not before position `L₀`. -/
def LinAt (log : List (Nat × Op α)) (L₀ t : Nat) (op : Op α) (r : Ret α) : Prop :=
  ∃ L, L₀ ≤ L ∧ L ≤ log.length ∧ Linearized log t op r L

/-- What a call at `pc` has fixed of its place in `log`: nothing before it
decides, and the result it returns from the unlinking write of a `remove` and
from its release on. -/
def PcLin (log : List (Nat × Op α)) (L₀ t : Nat) (op : Op α) : Pc α → Prop
  | .lockHead | .readHead | .lockNext _ _ | .unlockPrev _ _ | .readNext _ | .found _ _
  | .removeLock _ _ | .removeWrite _ _ => True
  | .removeUnlock _ _ => LinAt log L₀ t op (.remove (.ok op.key))
  | .release _ r | .done r => LinAt log L₀ t op r

/-- From `s₀` on, `log` only grows, and every call that had not taken a step in
`s₀` is placed in it at or after its length in `s₀`. -/
def LinFrom (s₀ s : State α) : Prop :=
  s₀.log <+: s.log ∧
    ∀ t, (s₀.calls t).pc = .lockHead → PcLin s.log s₀.log.length t (s.calls t).op (s.calls t).pc

section
omit [LinearOrder α]
variable (s : State α) (t : Nat) (l : Link) (pc : Pc α)

@[simp] theorem State.setPc_log : (s.setPc t pc).log = s.log := rfl
@[simp] theorem State.lock_log : (s.lock l t).log = s.log := rfl
@[simp] theorem State.unlock_log : (s.unlock l).log = s.log := rfl
@[simp] theorem State.insertAt_log (k : α) : (s.insertAt t l k).log = s.log ++ [(t, .insert k)] :=
  rfl
@[simp] theorem State.unlinkAt_log (n : Nat) (k : α) :
    (s.unlinkAt t l n k).log = s.log ++ [(t, .remove k)] := rfl

end

theorem LinAt.append (h : LinAt log L₀ t op r) (l : List (Nat × Op α)) :
    LinAt (log ++ l) L₀ t op r := by
  obtain ⟨L, h₀, hL, hr, hw⟩ := h
  refine ⟨L, h₀, by simp only [List.length_append]; omega,
    by rwa [List.take_append_of_le_length hL], fun ho => ?_⟩
  obtain ⟨hlt, -⟩ := List.getElem?_eq_some_iff.mp (hw ho)
  rw [List.getElem?_append_left hlt, hw ho]

theorem PcLin.append {pc : Pc α} (h : PcLin log L₀ t op pc) (l : List (Nat × Op α)) :
    PcLin (log ++ l) L₀ t op pc := by
  cases pc <;> first | trivial | exact LinAt.append h l

theorem log_prefix_step (s : State α) (t : Nat) : s.log <+: (step s t).log := by
  rcases hpc : (s.calls t).pc <;> simp only [step, hpc] <;> (repeat' split) <;>
    first | exact List.prefix_refl _ | exact List.prefix_append _ _

theorem Inv.linAt_now (hi : Inv s) (hL : L₀ ≤ s.log.length)
    (hr : (op.spec s.keys.toFinset).2 = r) (hw : r.isOk = false) : LinAt s.log L₀ t op r :=
  ⟨s.log.length, hL, le_rfl, by rwa [List.take_length, ← hi.log], fun h => by simp [hw] at h⟩

theorem Inv.linAt_write (hi : Inv s) (hL : L₀ ≤ s.log.length)
    (hr : (op.spec s.keys.toFinset).2 = r) : LinAt (s.log ++ [(t, op)]) L₀ t op r :=
  ⟨s.log.length, hL, by simp, by rwa [List.take_left, ← hi.log], fun _ => by simp⟩

/-- The stepping call keeps what it has fixed, and fixes its result at the step
that decides a `contains`, a failed update or an `insert`, and at the unlinking
write of a `remove`. -/
theorem Inv.pcLin_step (hi : Inv s) (hL : L₀ ≤ s.log.length)
    (h : PcLin s.log L₀ t (s.calls t).op (s.calls t).pc) :
    PcLin (step s t).log L₀ t ((step s t).calls t).op ((step s t).calls t).pc := by
  have hp := hi.calls t
  rw [step_op]
  rcases hpc : (s.calls t).pc with _ | _ | ⟨prev, n⟩ | ⟨prev, n⟩ | n | ⟨cur, b⟩ | ⟨cur, n⟩ |
    ⟨cur, n⟩ | ⟨cur, n⟩ | ⟨cur, r⟩ | r <;> rw [hpc] at hp h <;> simp only [step, hpc]
  case readHead | readNext =>
    split
    · rcases State.visit_eq ‹_› with ⟨b, rfl⟩ | ⟨n, rfl⟩ <;> simp only [State.setPc_pc] <;> trivial
    · rw [hpc]; trivial
  case found =>
    obtain ⟨-, rfl⟩ := hp
    split
    · next k hop =>
      simp only [State.setPc_pc, State.setPc_log]
      exact hi.linAt_now hL (by simp [hop, Op.spec, Op.key]) rfl
    · next k hop =>
      rw [hop]
      split_ifs with hb <;> simp only [State.setPc_pc, State.setPc_log, State.insertAt_log] <;>
        simp only [hop, Op.key, decide_eq_true_eq] at hb
      · exact hi.linAt_now hL (by simp [Op.spec, hb]) rfl
      · exact hi.linAt_write hL (by simp [Op.spec, hb])
    · next k hop =>
      split_ifs with hb
      · split <;> simp only [State.setPc_pc, hpc] <;> trivial
      · simp only [State.setPc_pc, State.setPc_log]
        simp only [hop, Op.key, decide_eq_true_eq] at hb
        exact hi.linAt_now hL (by simp [hop, Op.spec, hb]) rfl
  case removeWrite =>
    obtain ⟨ha, hv, hd, hop⟩ := hp
    have hk : (s.calls t).op.key ∈ s.keys := (hi.mem_keys_iff ha).mpr ⟨n, hv, hd⟩
    simp only [State.setPc_pc, State.setPc_log, State.unlinkAt_log]
    generalize (s.calls t).op.key = k at hop hk ⊢
    rw [hop]
    exact hi.linAt_write hL (by simp [Op.spec, Op.key, hk])
  case removeUnlock =>
    split
    · rename_i v hv
      obtain ⟨-, -, hd, -⟩ := hp
      obtain rfl : v = (s.calls t).op.key := Option.some.inj (hv.symm.trans hd)
      simpa only [State.setPc_pc, State.setPc_log, State.unlock_log] using h
    · rw [hpc]; exact h
  case release => simpa only [State.setPc_pc, State.setPc_log, State.unlock_log] using h
  case done => exact h
  all_goals (try split) <;> simp only [State.setPc_pc, hpc] <;> trivial

theorem linFrom_refl (s₀ : State α) : LinFrom s₀ s₀ :=
  ⟨List.prefix_refl _, fun t ht => by rw [ht]; trivial⟩

theorem Inv.linFrom_step (hi : Inv s) (hl : LinFrom s₀ s) (t : Nat) : LinFrom s₀ (step s t) := by
  obtain ⟨hp, hc⟩ := hl
  refine ⟨hp.trans (log_prefix_step s t), fun u hu => ?_⟩
  by_cases hut : u = t
  · subst hut
    exact hi.pcLin_step hp.length_le (hc u hu)
  · obtain ⟨l, hl⟩ := log_prefix_step s t
    rw [step_calls_ne s hut, ← hl]
    exact (hc u hu).append l

theorem Inv.linFrom_schedule (hi : Inv s) (hl : LinFrom s₀ s) (sched : List Nat) :
    LinFrom s₀ (schedule s sched) := by
  induction sched generalizing s with
  | nil => exact hl
  | cons t rest ih => exact ih (inv_step hi t) (hi.linFrom_step hl t)

/-- Hand-over-hand calls are linearizable, in real time. From any reachable
state `s₀`, under any schedule, a call that had not taken a step in `s₀` and
has returned `r` returned what the reference set returns on the set made by the
first `L` writes of `log`, for an `L` no smaller than the length of `log` in
`s₀`; and if it wrote, its write is entry `L`. From `new()`, where no call has
taken a step, this places every returned call; and a call that returned
before another's first step is placed no later than it. -/
theorem handOverHand_linearizable {sched : List Nat} (hr : Reachable s₀)
    (hstart : (s₀.calls t).pc = .lockHead)
    (hdone : ((schedule s₀ sched).calls t).pc = .done r) :
    ∃ L, s₀.log.length ≤ L ∧ L ≤ (schedule s₀ sched).log.length ∧
      Linearized (schedule s₀ sched).log t (s₀.calls t).op r L := by
  have h := (hr.inv.linFrom_schedule (linFrom_refl s₀) sched).2 t hstart
  rw [hdone, schedule_op] at h
  exact h

/-- `insert 5` returns before `contains 5` takes its first step: the
`contains` returns `true`, placed after the insert's write. -/
theorem handOverHand_linearizable_realTime :
    let s₀ := schedule (init fun t => if t = 0 then .insert 5 else .contains (5 : Nat)) [0, 0, 0, 0]
    let s := schedule s₀ [1, 1, 1, 1]
    ∃ L, s₀.log.length ≤ L ∧ L ≤ s.log.length ∧
      Linearized s.log 1 (s₀.calls 1).op (.contains true) L :=
  handOverHand_linearizable ((Reachable.initial _).schedule _) rfl rfl

end Concur.ListSet
