import Concur.ListSet.Progress
import Concur.ListSet.Solo

/-! # Every run of hand-over-hand calls is bounded

A call passes each node ahead of it with three steps (lock that node's `next`,
unlock the link before it, read on) and decides, writes and releases in at most
five more. A node linked in ahead of a call adds three steps to its walk, and
each of `m` calls links in at most one node, before it decides. So `pot` bounds
the steps left to a call: three for each node after the link it stands at and
for each call that may still link a node in, and a few for the rest of its
operation. A step that changes the state lowers the sum of `pot` over the calls
below `m`, and no step raises it: an `insert` that links a node in ahead of the
other calls pays their three steps each out of its own `3 * m`. So the calls
below `m` make at most `m * (3 * m + 7)` moves from `new()`, and, as no run
deadlocks, round-robin scheduling returns each of them within
`m * (3 * m + 7) + 1` rounds.
-/

namespace Concur.ListSet

open State

variable {α : Type*} [LinearOrder α] {s s' : State α} {t u m k n : Nat} {l x y : Link}
  {order : List Nat}

/-- The number of nodes of `order`, read as a chain from link `l`, after link `x`. -/
def aheadFrom : Link → List Nat → Link → Nat
  | _, [], _ => 0
  | l, n :: rest, x => if x = l then rest.length + 1 else aheadFrom (.next n) rest x

/-- The number of nodes of the list after link `x`. -/
def State.ahead (s : State α) (x : Link) : Nat := aheadFrom .head s.order x

/-- The link whose nodes ahead a call at `pc` has still to pass, before it decides. -/
def Pc.at : Pc α → Option Link
  | .lockHead | .readHead => some .head
  | .lockNext prev _ => some prev
  | .unlockPrev _ n | .readNext n => some (.next n)
  | _ => none

/-- A bound on the steps left to a call at `pc`, among `M` calls. -/
def State.pot (s : State α) (M : Nat) : Pc α → Nat
  | .lockHead => 3 * (s.ahead .head + M) + 7
  | .readHead => 3 * (s.ahead .head + M) + 6
  | .lockNext prev _ => 3 * (s.ahead prev + M) + 5
  | .unlockPrev _ n => 3 * (s.ahead (.next n) + M) + 7
  | .readNext n => 3 * (s.ahead (.next n) + M) + 6
  | .found _ _ => 3 * M + 5
  | .removeLock _ _ => 4
  | .removeWrite _ _ => 3
  | .removeUnlock _ _ => 2
  | .release _ _ => 1
  | .done _ => 0

/-- The steps left to the calls below `m`. -/
def State.potential (s : State α) (m : Nat) : Nat :=
  ∑ u ∈ Finset.range m, s.pot m (s.calls u).pc

/-- Every step of the schedule changes the state. -/
def Busy : State α → List Nat → Prop
  | _, [] => True
  | s, t :: rest => step s t ≠ s ∧ Busy (step s t) rest

/-- `k` rounds in which calls `0`, ..., `m - 1` take one step each, in order. -/
def rounds (m k : Nat) : List Nat := (List.replicate k (List.range m)).flatten

section
omit [LinearOrder α]

theorem aheadFrom_self (l : Link) (order : List Nat) : aheadFrom l order l = order.length := by
  cases order <;> simp [aheadFrom]

theorem aheadFrom_congr {l₁ l₂ : Link} (h₁ : x ≠ l₁) (h₂ : x ≠ l₂) (order : List Nat) :
    aheadFrom l₁ order x = aheadFrom l₂ order x := by
  cases order <;> simp [aheadFrom, h₁, h₂]

theorem length_insertAtLink_le (N : Nat) (cur l : Link) (order : List Nat) :
    (insertAtLink N cur l order).length ≤ order.length + 1 := by
  induction order generalizing l with
  | nil => simp only [insertAtLink]; split <;> simp
  | cons m rest ih => simp only [insertAtLink]; split <;> simp [ih]

theorem aheadFrom_insertAtLink {N : Nat} (hy : y ≠ .next N) (cur l : Link) (order : List Nat) :
    aheadFrom l (insertAtLink N cur l order) y ≤ aheadFrom l order y + 1 := by
  induction order generalizing l with
  | nil => simp only [insertAtLink]; split <;> simp only [aheadFrom] <;> (try split) <;> simp
  | cons m rest ih =>
    simp only [insertAtLink]
    split
    · simp only [aheadFrom, if_neg hy]; split <;> simp
    · simp only [aheadFrom]
      split
      · have := length_insertAtLink_le N cur (.next m) rest; omega
      · exact ih _

theorem aheadFrom_erase (hy : y ≠ .next n) (l : Link) (order : List Nat) :
    aheadFrom l (order.erase n) y ≤ aheadFrom l order y := by
  induction order generalizing l with
  | nil => simp
  | cons m rest ih =>
    rw [List.erase_cons]
    split
    · obtain rfl := beq_iff_eq.mp ‹_›
      simp only [aheadFrom]
      split
      · subst_vars; rw [aheadFrom_self]; omega
      · rw [aheadFrom_congr ‹_› hy]
    · simp only [aheadFrom]
      split
      · have := List.length_erase_le n rest; omega
      · exact ih _

end

theorem Chain.aheadFrom_val {val : Link → Option Nat} {data : Nat → Option α} {lo : WithBot α}
    (hc : Chain val data l lo order) (hl : ∀ p, l = .next p → p ∉ order)
    (hx : InChain l order x) (hn : val x = some n) :
    aheadFrom l order x = aheadFrom l order (.next n) + 1 := by
  induction order generalizing l lo with
  | nil =>
    rcases hx with rfl | ⟨m, hm, -⟩
    · rw [show val x = none from hc] at hn; cases hn
    · cases hm
  | cons k rest ih =>
    have hmem : n ∈ k :: rest := hc.mem_of_val hx hn
    have hnd := hc.nodup
    obtain ⟨hk, v, -, -, hc⟩ := hc
    have hnl : Link.next n ≠ l := fun h => hl n h.symm hmem
    by_cases hxl : x = l
    · subst hxl
      rw [hk] at hn; cases hn
      simp [aheadFrom, hnl, aheadFrom_self]
    · simp only [aheadFrom, if_neg hxl, if_neg hnl]
      exact ih hc (fun p hp => by cases hp; exact (List.nodup_cons.mp hnd).1)
        ((inChain_cons.mp hx).resolve_left hxl)

theorem Inv.ahead_val (hi : Inv s) (hx : s.Listed x) (hn : s.val x = some n) :
    s.ahead x = s.ahead (.next n) + 1 :=
  hi.chain.aheadFrom_val (by rintro _ ⟨⟩) hx hn

section
omit [LinearOrder α]
variable (s : State α) (t : Nat) (l : Link) (pc : Pc α)

@[simp] theorem State.setPc_ahead : (s.setPc t pc).ahead = s.ahead := rfl
@[simp] theorem State.lock_ahead : (s.lock l t).ahead = s.ahead := rfl
@[simp] theorem State.unlock_ahead : (s.unlock l).ahead = s.ahead := rfl
@[simp] theorem State.setPc_order : (s.setPc t pc).order = s.order := rfl
@[simp] theorem State.lock_order : (s.lock l t).order = s.order := rfl
@[simp] theorem State.unlock_order : (s.unlock l).order = s.order := rfl

end

omit [LinearOrder α] in
theorem State.pot_le {M : Nat} {pc : Pc α}
    (h : ∀ y, pc.at = some y → s'.ahead y ≤ s.ahead y + k) : s'.pot M pc ≤ s.pot M pc + 3 * k := by
  cases pc <;> simp only [State.pot, Pc.at] at h ⊢ <;> first | omega | (have hy := h _ rfl; omega)

omit [LinearOrder α] in
theorem Pc.at_held {pc : Pc α} (h : pc.at = some y) : y = .head ∨ y ∈ pc.holds := by
  cases pc <;> simp only [Pc.at, Option.some.injEq, reduceCtorEq] at h <;> subst h <;>
    simp [Pc.holds]

theorem Inv.at_listed (hi : Inv s) (h : (s.calls u).pc.at = some y) : s.Listed y := by
  rcases Pc.at_held h with rfl | hy
  · exact inChain_self _ _
  · rcases hi.held_listed hy with hy | ⟨cur, n, hpc, -⟩
    · exact hy
    · rw [hpc] at h; cases h

theorem Inv.order_step (hi : Inv s) (t : Nat) :
    (step s t).order = s.order ∨
      (∃ cur, s.Listed cur ∧ (step s t).order = insertAtLink s.nnodes cur .head s.order) ∨
      ∃ cur n, (s.calls t).pc = .removeWrite cur n ∧ (step s t).order = s.order.erase n := by
  have hp := hi.calls t
  rcases hpc : (s.calls t).pc with _ | _ | ⟨prev, n⟩ | ⟨prev, n⟩ | n | ⟨cur, b⟩ | ⟨cur, n⟩ |
    ⟨cur, n⟩ | ⟨cur, n⟩ | ⟨cur, r⟩ | r <;> rw [hpc] at hp <;> simp only [step, hpc]
  case found =>
    split
    · exact .inl rfl
    · split_ifs
      · exact .inl rfl
      · exact .inr (.inl ⟨cur, hp.1.listed, rfl⟩)
    · (repeat' split) <;> exact .inl rfl
  case removeWrite => exact .inr (.inr ⟨cur, n, rfl, rfl⟩)
  all_goals (repeat' split) <;> first | exact .inl rfl | exact .inl trivial

theorem Inv.length_order_step (hi : Inv s) (t : Nat) :
    (step s t).order.length ≤ s.order.length + 1 := by
  rcases hi.order_step t with h | ⟨cur, hcur, h⟩ | ⟨cur, n, -, h⟩ <;> rw [h]
  · omega
  · exact (insertAtLink_perm hcur).length_eq.le
  · have := List.length_erase_le n s.order; omega

theorem Inv.pot_step_other (hi : Inv s) (hu : u ≠ t) (M : Nat) :
    (step s t).pot M ((step s t).calls u).pc ≤
      s.pot M (s.calls u).pc + 3 * ((step s t).order.length - s.order.length) := by
  rw [step_calls_ne s hu]
  refine State.pot_le fun y hy => ?_
  rcases hi.order_step t with h | ⟨cur, hcur, h⟩ | ⟨cur, n, hpc, h⟩
  · simp only [State.ahead, h]; omega
  · have hN : y ≠ .next s.nnodes := fun he =>
      hi.nnodes_not_mem (listed_next.mp (he ▸ hi.at_listed hy))
    have hlen := (insertAtLink_perm (N := s.nnodes) hcur).length_eq
    simp only [State.ahead, h, hlen, List.length_cons]
    have := aheadFrom_insertAtLink hN cur .head s.order
    omega
  · have hn : y ≠ .next n := by
      rintro rfl
      rcases Pc.at_held hy with h | h
      · cases h
      · exact hu (hi.holder_unique h (by rw [hpc]; simp [Pc.holds]))
    simp only [State.ahead, h]
    have := aheadFrom_erase hn .head s.order
    omega

theorem Inv.pot_step_self (hi : Inv s) (M : Nat) :
    step s t = s ∨ (step s t).pot M ((step s t).calls t).pc +
      3 * M * ((step s t).order.length - s.order.length) < s.pot M (s.calls t).pc := by
  have hp := hi.calls t
  rcases hpc : (s.calls t).pc with _ | _ | ⟨prev, n⟩ | ⟨prev, n⟩ | n | ⟨cur, b⟩ | ⟨cur, n⟩ |
    ⟨cur, n⟩ | ⟨cur, n⟩ | ⟨cur, r⟩ | r <;> rw [hpc] at hp <;> simp only [step, hpc]
  case readHead | readNext =>
    split
    · right
      rcases State.visit_eq ‹_› with ⟨b, rfl⟩ | ⟨n, rfl⟩ <;>
        simp only [State.setPc_pc, State.setPc_ahead, State.setPc_order, State.pot, Nat.sub_self,
          mul_zero, add_zero] <;> omega
    · exact .inl rfl
  case lockNext =>
    split
    · right
      have := hi.ahead_val hp.1 hp.2.1
      simp only [State.setPc_pc, State.setPc_ahead, State.lock_ahead, State.setPc_order,
        State.lock_order, State.pot, Nat.sub_self, mul_zero, add_zero]
      omega
    · exact .inl rfl
  case found =>
    split
    · exact .inr (by simp [State.pot])
    · split_ifs
      · exact .inr (by simp [State.pot])
      · right
        have hlen := (insertAtLink_perm (N := s.nnodes) hp.1.listed).length_eq
        simp only [State.setPc_pc, State.setPc_order, State.pot]
        simp only [State.insertAt, hlen, List.length_cons, Nat.add_sub_cancel_left, mul_one]
        omega
    · split_ifs
      · split
        · exact .inr (by simp [State.pot])
        · exact .inl rfl
      · exact .inr (by simp [State.pot])
  case removeWrite =>
    right
    simp only [State.setPc_pc, State.setPc_order, State.pot]
    simp only [State.unlinkAt, Nat.sub_eq_zero_of_le (List.length_erase_le n s.order), mul_zero]
    omega
  case done => exact .inl trivial
  case unlockPrev | release => exact .inr (by simp [State.pot])
  all_goals split <;> first | exact .inl rfl | exact .inr (by simp [State.pot])

theorem Inv.potential_step (hi : Inv s) (ht : t < m) :
    step s t = s ∨ (step s t).potential m < s.potential m := by
  refine (hi.pot_step_self (t := t) m).imp_right fun hself => ?_
  have hmem : t ∈ Finset.range m := Finset.mem_range.mpr ht
  have hother : ∑ u ∈ (Finset.range m).erase t, (step s t).pot m ((step s t).calls u).pc ≤
      ∑ u ∈ (Finset.range m).erase t, s.pot m (s.calls u).pc +
        (m - 1) * (3 * ((step s t).order.length - s.order.length)) :=
    calc _ ≤ ∑ u ∈ (Finset.range m).erase t,
            (s.pot m (s.calls u).pc + 3 * ((step s t).order.length - s.order.length)) :=
          Finset.sum_le_sum fun u hu => hi.pot_step_other (Finset.ne_of_mem_erase hu) m
      _ = _ := by
        rw [Finset.sum_add_distrib, Finset.sum_const, Finset.card_erase_of_mem hmem,
          Finset.card_range, smul_eq_mul]
  unfold State.potential
  rw [← Finset.add_sum_erase _ _ hmem, ← Finset.add_sum_erase _ _ hmem]
  have hk := hi.length_order_step t
  obtain hk | hk : (step s t).order.length - s.order.length = 0 ∨
      (step s t).order.length - s.order.length = 1 := by omega
  all_goals rw [hk] at hself hother; simp only [mul_zero, add_zero, mul_one] at hself hother; omega

theorem Inv.potential_schedule_le (hi : Inv s) {l : List Nat} (hl : ∀ u ∈ l, u < m) :
    (schedule s l).potential m ≤ s.potential m := by
  induction l generalizing s with
  | nil => exact le_rfl
  | cons t rest ih =>
    have h := ih (inv_step hi t) fun u hu => hl u (List.mem_cons_of_mem _ hu)
    show (schedule (step s t) rest).potential m ≤ _
    rcases hi.potential_step (hl t (List.mem_cons_self _ _)) with he | hlt
    · rw [he] at h ⊢; exact h
    · exact h.trans hlt.le

/-- A schedule of calls below `m` in which some call can move from the start
lowers the potential: the steps before that call's turn either lower it or
leave the state as it was. -/
theorem Inv.potential_schedule_lt (hi : Inv s) {l : List Nat} (hl : ∀ u ∈ l, u < m)
    (hu : u ∈ l) (hmove : step s u ≠ s) : (schedule s l).potential m < s.potential m := by
  induction l generalizing s with
  | nil => cases hu
  | cons t rest ih =>
    have hl' : ∀ u ∈ rest, u < m := fun u hu => hl u (List.mem_cons_of_mem _ hu)
    show (schedule (step s t) rest).potential m < _
    rcases hi.potential_step (hl t (List.mem_cons_self _ _)) with he | hlt
    · rw [he]
      refine ih hi hl' ?_ hmove
      rcases List.mem_cons.mp hu with rfl | hu
      · exact absurd he hmove
      · exact hu
    · exact lt_of_le_of_lt ((inv_step hi t).potential_schedule_le hl') hlt

theorem Inv.length_le_potential (hi : Inv s) {sched : List Nat} (hs : ∀ u ∈ sched, u < m)
    (hb : Busy s sched) : sched.length ≤ s.potential m := by
  induction sched generalizing s with
  | nil => exact Nat.zero_le _
  | cons t rest ih =>
    obtain ⟨hne, hb⟩ := hb
    have hlt := (hi.potential_step (hs t (List.mem_cons_self _ _))).resolve_left hne
    have := ih (inv_step hi t) (fun u hu => hs u (List.mem_cons_of_mem _ hu)) hb
    simp only [List.length_cons]
    omega

omit [LinearOrder α] in
theorem potential_init (ops : Nat → Op α) (m : Nat) : (init ops).potential m = m * (3 * m + 7) := by
  simp [State.potential, State.pot, State.ahead, aheadFrom, init]

/-- The calls at or above `m` have not taken a step. -/
def Idle (m : Nat) (s : State α) : Prop := ∀ u, m ≤ u → (s.calls u).pc = .lockHead

theorem Idle.schedule_below (h : Idle m s) {l : List Nat} (hl : ∀ u ∈ l, u < m) :
    Idle m (schedule s l) := fun u hu => by
  rw [schedule_calls_ne s fun h' => absurd (hl u h') (by omega)]
  exact h u hu

theorem Inv.exists_moves_below (hi : Inv s) (hidle : Idle m s) (ht : t < m)
    (hret : (s.calls t).pc.returned = false) : ∃ u < m, step s u ≠ s := by
  by_cases h : ((step s t).calls t).pc = (s.calls t).pc
  · rcases hi.stalled h with hd | ⟨x, u, hw, hu⟩
    · rw [hret] at hd; cases hd
    obtain ⟨lo, rest, hc⟩ := hi.chain.suffix (hi.waits_listed hw)
    obtain ⟨w, y, hy, -, hmove⟩ := hi.holder_moves_of_owner hc hu
    refine ⟨w, Nat.lt_of_not_le fun hw => ?_, fun he => hmove (by rw [he])⟩
    have := (hi.owner y w).mp hy
    rw [hidle w hw] at this
    cases this
  · exact ⟨t, ht, fun he => h (by rw [he])⟩

theorem schedule_returned (h : (s.calls t).pc.returned = true) (l : List Nat) :
    ((schedule s l).calls t).pc.returned = true := by
  induction l generalizing s with
  | nil => exact h
  | cons u rest ih =>
    refine ih ?_
    by_cases hu : t = u
    · subst hu
      obtain ⟨r, hr⟩ : ∃ r, (s.calls t).pc = .done r := by
        cases hpc : (s.calls t).pc <;> rw [hpc] at h <;> first | exact ⟨_, rfl⟩ | cases h
      rwa [show step s t = s by simp only [step, hr]]
    · rwa [step_calls_ne s hu]

theorem rounds_succ (m k : Nat) : rounds m (k + 1) = List.range m ++ rounds m k := rfl

theorem Inv.potential_rounds (hi : Inv s) (hidle : Idle m s) (ht : t < m) (k : Nat)
    (hret : ((schedule s (rounds m k)).calls t).pc.returned = false) :
    (schedule s (rounds m k)).potential m + k ≤ s.potential m := by
  induction k generalizing s with
  | zero => exact le_refl _
  | succ k ih =>
    have hr : ∀ u ∈ List.range m, u < m := fun u hu => List.mem_range.mp hu
    have happ : schedule s (rounds m (k + 1)) = schedule (schedule s (List.range m)) (rounds m k) :=
      List.foldl_append _ _ _ _
    rw [happ] at hret ⊢
    have h₁ := ih (inv_schedule hi _) (hidle.schedule_below hr) hret
    have hret₀ : (s.calls t).pc.returned = false := by
      cases h : (s.calls t).pc.returned
      · rfl
      · rw [schedule_returned (schedule_returned h _) _] at hret; cases hret
    obtain ⟨u, hu, hmove⟩ := hi.exists_moves_below hidle ht hret₀
    have h₂ := hi.potential_schedule_lt hr (List.mem_range.mpr hu) hmove
    omega

/-- Every run of `m` hand-over-hand calls is bounded. From `new()`, whatever the
operations, a schedule of the calls below `m` in which every step changes the
state has at most `m * (3 * m + 7)` steps; and when the calls below `m` take a
step each in turn, all of them have returned after `m * (3 * m + 7) + 1`
rounds. -/
theorem handOverHand_bounded (ops : Nat → Op α) (m : Nat) :
    (∀ sched : List Nat, (∀ u ∈ sched, u < m) → Busy (init ops) sched →
      sched.length ≤ m * (3 * m + 7)) ∧
    ∀ t < m, ((schedule (init ops) (rounds m (m * (3 * m + 7) + 1))).calls t).pc.returned = true := by
  have hi := inv_init ops
  refine ⟨fun sched hs hb => potential_init ops m ▸ hi.length_le_potential hs hb, fun t ht => ?_⟩
  by_contra hret
  have := hi.potential_rounds (fun _ _ => rfl) ht _ (Bool.eq_false_iff.mpr hret)
  rw [potential_init] at this
  omega

/- `insert 5` and `remove 5` in turn: the `remove` waits three rounds for the
lock of `head` and then takes six steps, so both have returned after ten rounds,
well within the bound of `27`. -/
example : ((schedule (init fun t => if t = 0 then .insert 5 else .remove (5 : Nat))
      (rounds 2 10)).calls 0).pc.returned = true ∧
    ((schedule (init fun t => if t = 0 then .insert 5 else .remove (5 : Nat))
      (rounds 2 10)).calls 1).pc.returned = true := by
  decide

end Concur.ListSet
