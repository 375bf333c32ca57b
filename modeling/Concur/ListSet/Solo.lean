import Concur.ListSet.Coupling

/-! # A call run alone is the sequential call

A call invoked while no call holds a lock, and then run alone, returns within
`3 * n + 7` steps on a list of `n` nodes: two to lock `head` and read it, three
per node it passes (lock that node's `next`, unlock the link before it, read
on), and at most five to decide, write and release. It returns what the
sequential `OrderedListSet` call returns on the keys of the list, and leaves
the keys as the sequential call leaves them. So the calls of one thread, each
run to its return in turn, do what `run` says: the concurrent machine refines
the sequential set.
-/

namespace Concur.ListSet

open State

variable {α : Type*} [LinearOrder α] {s : State α} {t u : Nat} {x cur : Link} {n : Nat}

/-- The state after call `t` takes `k` steps alone. -/
def solo (s : State α) (t k : Nat) : State α := schedule s (List.replicate k t)

/-- The program counter of a call about to read link `x` in the loop of `Cursor::find`. -/
def readPc : Link → Pc α
  | .head => .readHead
  | .next n => .readNext n

theorem solo_add (s : State α) (t k l : Nat) : solo s t (k + l) = solo (solo s t k) t l := by
  simp only [solo, schedule, List.replicate_add, List.foldl_append]

theorem solo_succ (s : State α) (t k : Nat) : solo s t (k + 1) = solo (step s t) t k := by
  rw [Nat.add_comm, solo_add]; rfl

omit [LinearOrder α] in
@[simp] theorem State.setPc_op (s : State α) (t u : Nat) (pc : Pc α) :
    ((s.setPc t pc).calls u).op = (s.calls u).op := by
  rw [State.setPc_calls]; split <;> simp_all

omit [LinearOrder α] in
@[simp] theorem State.setPc_pc (s : State α) (t : Nat) (pc : Pc α) :
    ((s.setPc t pc).calls t).pc = pc := by
  simp [State.setPc_calls]

section
omit [LinearOrder α]
variable (s : State α) (t : Nat) (l : Link)

@[simp] theorem State.lock_calls : (s.lock l t).calls = s.calls := rfl
@[simp] theorem State.unlock_calls : (s.unlock l).calls = s.calls := rfl

end

section
variable {prev : Link} {b : Bool} {r : Ret α}

theorem step_lockHead (hpc : (s.calls t).pc = .lockHead) (h : s.owner .head = none) :
    step s t = (s.lock .head t).setPc t .readHead := by
  simp only [step, hpc, h, if_true]

theorem step_lockNext (hpc : (s.calls t).pc = .lockNext prev n) (h : s.owner (.next n) = none) :
    step s t = (s.lock (.next n) t).setPc t (.unlockPrev prev n) := by
  simp only [step, hpc, h, if_true]

theorem step_unlockPrev (hpc : (s.calls t).pc = .unlockPrev prev n) :
    step s t = (s.unlock prev).setPc t (.readNext n) := by
  simp only [step, hpc]

theorem step_removeLock (hpc : (s.calls t).pc = .removeLock cur n) (h : s.owner (.next n) = none) :
    step s t = (s.lock (.next n) t).setPc t (.removeWrite cur n) := by
  simp only [step, hpc, h, if_true]

theorem step_removeWrite (hpc : (s.calls t).pc = .removeWrite cur n) :
    step s t = (s.unlinkAt t cur n (s.calls t).op.key).setPc t (.removeUnlock cur n) := by
  simp only [step, hpc]

theorem step_removeUnlock {v : α} (hpc : (s.calls t).pc = .removeUnlock cur n)
    (h : s.data n = some v) :
    step s t = (s.unlock (.next n)).setPc t (.release cur (.remove (.ok v))) := by
  simp only [step, hpc, h]

theorem step_release (hpc : (s.calls t).pc = .release cur r) :
    step s t = (s.unlock cur).setPc t (.done r) := by
  simp only [step, hpc]

end

theorem step_calls_ne (s : State α) (hu : u ≠ t) : (step s t).calls u = s.calls u := by
  simp only [step]
  split <;> (repeat' split) <;> simp [State.setPc_calls, hu, State.lock, State.unlock,
    State.insertAt, State.unlinkAt]

theorem schedule_calls_ne (s : State α) {sched : List Nat} (hu : u ∉ sched) :
    (schedule s sched).calls u = s.calls u := by
  induction sched generalizing s with
  | nil => rfl
  | cons v sched ih =>
    simp only [List.mem_cons, not_or] at hu
    exact (ih _ hu.2).trans (step_calls_ne s hu.1)

theorem step_op (s : State α) (t u : Nat) : ((step s t).calls u).op = (s.calls u).op := by
  simp only [step]
  split <;> (repeat' split) <;> simp [State.lock, State.unlock, State.insertAt, State.unlinkAt]

theorem schedule_op (s : State α) (sched : List Nat) (u : Nat) :
    ((schedule s sched).calls u).op = (s.calls u).op := by
  induction sched generalizing s with
  | nil => rfl
  | cons t rest ih => exact (ih (step s t)).trans (step_op s t u)

theorem solo_op (s : State α) (t u k : Nat) : ((solo s t k).calls u).op = (s.calls u).op :=
  schedule_op s _ u

theorem inv_schedule (hi : Inv s) (l : List Nat) : Inv (schedule s l) := by
  induction l generalizing s with
  | nil => exact hi
  | cons t rest ih => exact ih (inv_step hi t)

theorem inv_solo (hi : Inv s) (t k : Nat) : Inv (solo s t k) := inv_schedule hi _

theorem solo_calls_ne (s : State α) (hu : u ≠ t) (k : Nat) : (solo s t k).calls u = s.calls u :=
  schedule_calls_ne s fun h => hu (List.eq_of_mem_replicate h)

omit [LinearOrder α] in
theorem holds_readPc (x : Link) : (readPc x : Pc α).holds = [x] := by cases x <;> rfl

theorem step_readPc (hpc : (s.calls t).pc = readPc x) :
    step s t = (s.visit (s.calls t).op.key x).elim s (s.setPc t) := by
  cases x <;> simp only [readPc] at hpc <;> simp only [step, hpc] <;> split <;> simp_all

theorem Inv.owner_eq_none (hi : Inv s) (ho : ∀ u ≠ t, (s.calls u).pc.holds = [])
    (hx : x ∉ (s.calls t).pc.holds) : s.owner x = none := by
  cases h : s.owner x with
  | none => rfl
  | some u =>
    have hm := (hi.owner x u).mp h
    by_cases hu : u = t
    · subst hu; exact absurd hm hx
    · rw [ho u hu] at hm; cases hm

/-- Reading link `x`, from which the pointers run through `rest`, a call run
alone passes the nodes below its key, three steps each, and stops at the link
of its key, with the keys as they were. -/
theorem Inv.walk_solo (hi : Inv s) (ho : ∀ u ≠ t, (s.calls u).pc.holds = [])
    (hpc : (s.calls t).pc = readPc x) (hx : s.Listed x) {lo : WithBot α} {rest : List Nat}
    (hc : Chain s.val s.data x lo rest) :
    ∃ k ≤ 3 * rest.length, ∃ cur b, ((solo s t (k + 1)).calls t).pc = .found cur b ∧
      (solo s t (k + 1)).keys = s.keys := by
  induction rest generalizing s x lo with
  | nil =>
    have h1 : solo s t 1 = s.setPc t (.found x false) := by
      simp [solo, schedule, step_readPc hpc, State.visit, show s.val x = none from hc]
    exact ⟨0, le_rfl, x, false, by rw [h1, State.setPc_pc], by rw [h1]; rfl⟩
  | cons m rest ih =>
    obtain ⟨hv, v, hd, -, hc⟩ := hc
    have hvis : s.visit (s.calls t).op.key x = some (if (s.calls t).op.key ≤ v then
        .found x (decide ((s.calls t).op.key = v)) else .lockNext x m) := by
      simp [State.visit, hv, hd]
    by_cases hkv : (s.calls t).op.key ≤ v
    · have h1 : solo s t 1 = s.setPc t (.found x (decide ((s.calls t).op.key = v))) := by
        simp [solo, schedule, step_readPc hpc, hvis, hkv]
      exact ⟨0, Nat.zero_le _, x, _, by rw [h1, State.setPc_pc], by rw [h1]; rfl⟩
    have hm : m ∈ s.order := hi.chain.mem_of_val hx hv
    have hfree : s.owner (.next m) = none := by
      refine hi.owner_eq_none ho ?_
      rw [hpc, holds_readPc, List.mem_singleton]
      rintro rfl
      exact hi.chain.val_next_ne hm hv
    have h1 : step s t = s.setPc t (.lockNext x m) := by
      rw [step_readPc hpc, hvis, if_neg hkv]; rfl
    have h3 : solo s t 3 = ((((s.setPc t (.lockNext x m)).lock (.next m) t).setPc t
        (.unlockPrev x m)).unlock x).setPc t (.readNext m) := by
      show step (step (step s t) t) t = _
      rw [h1, step_lockNext (State.setPc_pc ..) hfree, step_unlockPrev (State.setPc_pc ..)]
    have hi3 := inv_solo hi t 3
    rw [h3] at hi3
    obtain ⟨k, hk, cur, b, hpc', hkeys⟩ := ih (x := .next m) hi3 (fun u hu => by
        simpa [State.setPc_calls, hu] using ho u hu) (State.setPc_pc ..)
      (listed_next.mpr hm) hc
    refine ⟨k + 3, by simp only [List.length_cons]; omega, cur, b, ?_, ?_⟩
    · rwa [show k + 3 + 1 = 3 + (k + 1) by omega, solo_add, h3]
    · rw [show k + 3 + 1 = 3 + (k + 1) by omega, solo_add, h3, hkeys]; rfl

theorem solo_release {s' : State α} {r : Ret α} (h : step s t = s'.setPc t (.release cur r)) :
    solo s t 2 = ((s'.setPc t (.release cur r)).unlock cur).setPc t (.done r) := by
  show step (step s t) t = _
  rw [h, step_release (State.setPc_pc ..)]

theorem solo_release_self {op : Op α} {r : Ret α} (h : step s t = s.setPc t (.release cur r))
    (hr : exec s.keys op = (s.keys, r)) :
    ∃ k ≤ 5, ((solo s t k).calls t).pc = .done (exec s.keys op).2 ∧
      (solo s t k).keys = (exec s.keys op).1 := by
  rw [hr]
  exact ⟨2, by omega, by rw [solo_release h, State.setPc_pc], by rw [solo_release h]; rfl⟩

/-- At the link of its key, a call run alone decides, makes its write and
releases its lock within five steps, returning what the sequential call
returns and leaving the keys as the sequential call leaves them. -/
theorem Inv.finish_solo {b : Bool} (hi : Inv s) (ho : ∀ u ≠ t, (s.calls u).pc.holds = [])
    (hpc : (s.calls t).pc = .found cur b) :
    ∃ k ≤ 5, ((solo s t k).calls t).pc = .done (exec s.keys (s.calls t).op).2 ∧
      (solo s t k).keys = (exec s.keys (s.calls t).op).1 := by
  have hp := hi.calls t
  rw [hpc] at hp
  obtain ⟨ha, hb⟩ := hp
  have hl : s.keys.Sorted (· < ·) := hi.chain.sorted
  cases hop : (s.calls t).op with
  | contains key =>
    simp only [hop, Op.key] at ha hb
    have h1 : step s t = s.setPc t (.release cur (.contains b)) := by simp only [step, hpc, hop]
    refine solo_release_self h1 ?_
    rw [hb]
    simp [exec, OrderedListSet.contains, OrderedListSet.find, Cursor.find_eq hl]
  | insert key =>
    simp only [hop, Op.key] at ha hb
    by_cases hk : key ∈ s.keys
    · have h1 : step s t = s.setPc t (.release cur (.insert (.error key))) := by
        simp [step, hpc, hop, hb, hk]
      exact solo_release_self h1 (by simp [exec, insert_eq hl, hk])
    · have h1 : step s t = (s.insertAt t cur key).setPc t (.release cur (.insert (.ok ()))) := by
        simp [step, hpc, hop, hb, hk]
      have h2 := solo_release h1
      have hs2 := (inv_solo hi t 2).chain.sorted
      rw [h2] at hs2
      refine ⟨2, by omega, by rw [h2, State.setPc_pc]; simp [exec, insert_eq hl, hk], ?_⟩
      rw [h2]
      simp only [exec, insert_eq hl, hk, if_false]
      exact List.eq_of_perm_of_sorted ((hi.keys_insertAt (t := t) ha.listed).trans
        (List.perm_orderedInsert _ key s.keys).symm) hs2 (sorted_orderedInsert hl hk)
  | remove key =>
    simp only [hop, Op.key] at ha hb
    by_cases hk : key ∈ s.keys
    · obtain ⟨n, hv, hd⟩ := (hi.mem_keys_iff ha).mp hk
      have hn : n ∈ s.order := hi.chain.mem_of_val ha.listed hv
      have hfree : s.owner (.next n) = none := by
        refine hi.owner_eq_none ho ?_
        rw [hpc, Pc.holds, List.mem_singleton]
        rintro rfl
        exact hi.chain.val_next_ne hn hv
      have h1 : step s t = s.setPc t (.removeLock cur n) := by simp [step, hpc, hop, hb, hk, hv]
      have h5 : solo s t 5 = ((((((((s.setPc t (.removeLock cur n)).lock (.next n) t).setPc t
          (.removeWrite cur n)).unlinkAt t cur n key).setPc t (.removeUnlock cur n)).unlock
          (.next n)).setPc t (.release cur (.remove (.ok key)))).unlock cur).setPc t
          (.done (.remove (.ok key))) := by
        show step (step (step (step (step s t) t) t) t) t = _
        rw [h1, step_removeLock (State.setPc_pc ..) hfree, step_removeWrite (State.setPc_pc ..)]
        simp only [State.setPc_op, State.lock_calls, hop, Op.key]
        rw [step_removeUnlock (State.setPc_pc ..) (by simpa using hd),
          step_release (State.setPc_pc ..)]
      have hs5 := (inv_solo hi t 5).chain.sorted
      rw [h5] at hs5
      refine ⟨5, le_rfl, by rw [h5, State.setPc_pc]; simp [exec, remove_eq hl, hk], ?_⟩
      rw [h5]
      simp only [exec, remove_eq hl, hk, if_true]
      have hperm := (List.perm_cons key).mp
        ((keys_unlinkAt hn hd t cur key).symm.trans (List.perm_cons_erase hk))
      exact List.eq_of_perm_of_sorted hperm hs5 (hl.sublist (List.erase_sublist _ _))
    · have h1 : step s t = s.setPc t (.release cur (.remove (.error ()))) := by
        simp [step, hpc, hop, hb, hk]
      exact solo_release_self h1 (by simp [exec, remove_eq hl, hk])

theorem Inv.solo_exec (hi : Inv s) (hpc : (s.calls t).pc = .lockHead)
    (hfree : ∀ x, s.owner x = none) :
    ∃ k ≤ 3 * s.order.length + 7,
      ((solo s t k).calls t).pc = .done (exec s.keys (s.calls t).op).2 ∧
      (solo s t k).keys = (exec s.keys (s.calls t).op).1 ∧
      (∀ x, (solo s t k).owner x = none) ∧ ∀ u ≠ t, (solo s t k).calls u = s.calls u := by
  have ho : ∀ u, (s.calls u).pc.holds = [] := fun u =>
    List.eq_nil_iff_forall_not_mem.mpr fun x hx => by
      have := (hi.owner x u).mpr hx
      rw [hfree x] at this; cases this
  have hi₁ := inv_step hi t
  rw [step_lockHead hpc (hfree _)] at hi₁
  obtain ⟨k₁, hk₁, cur, b, hpc₁, hkeys₁⟩ := hi₁.walk_solo (x := .head)
    (fun u hu => by simpa [State.setPc_calls, hu] using ho u) (State.setPc_pc ..)
    (inChain_self _ _) hi.chain
  have hsolo₁ : solo s t (k₁ + 2) = solo ((s.lock .head t).setPc t .readHead) t (k₁ + 1) := by
    rw [solo_succ, step_lockHead hpc (hfree _)]
  have hcalls₁ : ∀ u ≠ t, (solo s t (k₁ + 2)).calls u = s.calls u := fun u hu =>
    solo_calls_ne s hu _
  have hop₁ : ((solo s t (k₁ + 2)).calls t).op = (s.calls t).op := solo_op ..
  rw [← hsolo₁] at hpc₁ hkeys₁
  obtain ⟨k₂, hk₂, hpc₂, hkeys₂⟩ := (inv_solo hi t (k₁ + 2)).finish_solo
    (fun u hu => by rw [hcalls₁ u hu]; exact ho u) hpc₁
  rw [← solo_add, hop₁, hkeys₁] at hpc₂ hkeys₂
  refine ⟨k₁ + 2 + k₂, by omega, hpc₂, hkeys₂, fun x => ?_, fun u hu => solo_calls_ne s hu _⟩
  refine (inv_solo hi t _).owner_eq_none (fun u hu => by rw [solo_calls_ne s hu]; exact ho u) ?_
  rw [hpc₂]; exact List.not_mem_nil x

/-- A call run alone is the sequential call. In every reachable state in which
no call holds a lock, a call just invoked and then run alone returns, within
`3 * n + 7` steps on a list of `n` nodes, what the sequential `OrderedListSet`
call returns on the keys of the list; it leaves the keys as the sequential call
leaves them, every lock free, and every other call as it was. -/
theorem handOverHand_solo_exec (hr : Reachable s) (hpc : (s.calls t).pc = .lockHead)
    (hfree : ∀ x, s.owner x = none) :
    ∃ k ≤ 3 * s.order.length + 7,
      ((solo s t k).calls t).pc = .done (exec s.keys (s.calls t).op).2 ∧
      (solo s t k).keys = (exec s.keys (s.calls t).op).1 ∧
      (∀ x, (solo s t k).owner x = none) ∧ ∀ u ≠ t, (solo s t k).calls u = s.calls u :=
  hr.inv.solo_exec hpc hfree

/-- From `new()` with call 0 having inserted 5, call 1 inserts 3 alone. -/
theorem handOverHand_solo_exec_second :
    let s := schedule (init fun t => if t = 0 then .insert 5 else .insert (3 : Nat)) [0, 0, 0, 0]
    (s.calls 1).pc = .lockHead ∧ (∀ x, s.owner x = none) ∧
      ∃ k ≤ 3 * s.order.length + 7,
        ((solo s 1 k).calls 1).pc = .done (exec s.keys (s.calls 1).op).2 ∧
        (solo s 1 k).keys = (exec s.keys (s.calls 1).op).1 ∧
        (∀ x, (solo s 1 k).owner x = none) ∧ ∀ u ≠ 1, (solo s 1 k).calls u = s.calls u :=
  have hfree : ∀ x, (schedule (init fun t => if t = 0 then .insert 5 else .insert (3 : Nat))
      [0, 0, 0, 0]).owner x = none := fun x => by cases x <;> rfl
  ⟨rfl, hfree, handOverHand_solo_exec ((Reachable.initial _).schedule _) rfl hfree⟩

theorem Inv.serial_exec (hi : Inv s) (hfree : ∀ x, s.owner x = none) (t m : Nat)
    (hpc : ∀ i < m, (s.calls (t + i)).pc = .lockHead) :
    ∃ sched : List Nat, sched.Sorted (· ≤ ·) ∧ (∀ u ∈ sched, t ≤ u ∧ u < t + m) ∧
      (schedule s sched).keys = (run s.keys ((List.range m).map fun i => (s.calls (t + i)).op)).1 ∧
      (List.range m).map (fun i => ((schedule s sched).calls (t + i)).pc) =
        (run s.keys ((List.range m).map fun i => (s.calls (t + i)).op)).2.map Pc.done ∧
      ∀ x, (schedule s sched).owner x = none := by
  induction m generalizing s t with
  | zero => exact ⟨[], List.sorted_nil, by simp, rfl, rfl, hfree⟩
  | succ m ih =>
    have h0 : (s.calls t).pc = .lockHead := hpc 0 (by omega)
    obtain ⟨k, -, hdone, hkeys, hfree₁, hcalls⟩ := hi.solo_exec h0 hfree
    have hops : ∀ i, ((solo s t k).calls (t + 1 + i)).op = (s.calls (t + (i + 1))).op := fun i => by
      rw [hcalls _ (by omega), Nat.add_right_comm, Nat.add_assoc]
    obtain ⟨sched, hsort, hrange, hkeys', hpcs, hfree'⟩ := ih (inv_solo hi t k) hfree₁ (t + 1)
      fun i hi => by rw [hcalls _ (by omega), Nat.add_right_comm, Nat.add_assoc]; exact hpc _ (by omega)
    have happ : schedule s (List.replicate k t ++ sched) = schedule (solo s t k) sched :=
      List.foldl_append ..
    have hne : t ∉ sched := fun h => by have := (hrange t h).1; omega
    simp only [hops, hkeys] at hkeys' hpcs
    refine ⟨List.replicate k t ++ sched, ?_, ?_, ?_, ?_, by rw [happ]; exact hfree'⟩
    · refine List.pairwise_append.mpr ⟨List.pairwise_replicate.mpr (.inr le_rfl), hsort, ?_⟩
      intro a ha b hb
      rw [List.eq_of_mem_replicate ha]
      exact Nat.le_of_succ_le (hrange b hb).1
    · intro u hu
      rcases List.mem_append.mp hu with hu | hu
      · rw [List.eq_of_mem_replicate hu]; omega
      · have := hrange u hu; omega
    · rw [happ, hkeys', List.range_succ_eq_map, List.map_cons, List.map_map]
      rfl
    · rw [happ, List.range_succ_eq_map, List.map_cons, List.map_map, List.map_cons,
        List.map_map, Nat.add_zero, schedule_calls_ne _ hne, hdone]
      simp only [run, List.map_cons]
      refine congrArg _ (Eq.trans (List.map_congr_left fun i _ => ?_) hpcs)
      simp only [Function.comp_apply, show t + Nat.succ i = t + 1 + i by omega]

/-- The concurrent machine refines the sequential set. The calls of one thread
on `OrderedListSet::new()`, each run to its return before the next begins,
under the lock-coupling steps, return what the sequential calls of `run`
return, and leave the keys that `run` leaves. -/
theorem handOverHand_serial (ops : Nat → Op α) (m : Nat) :
    ∃ sched : List Nat, sched.Sorted (· ≤ ·) ∧ (∀ u ∈ sched, u < m) ∧
      (schedule (init ops) sched).keys = (run [] ((List.range m).map ops)).1 ∧
      (List.range m).map (fun t => ((schedule (init ops) sched).calls t).pc) =
        (run [] ((List.range m).map ops)).2.map Pc.done := by
  obtain ⟨sched, h1, h2, h3, h4, -⟩ :=
    (inv_init ops).serial_exec (fun _ => rfl) 0 m fun _ _ => rfl
  simp only [Nat.zero_add] at h2 h3 h4
  exact ⟨sched, h1, fun u hu => (h2 u hu).2, h3, h4⟩

end Concur.ListSet
