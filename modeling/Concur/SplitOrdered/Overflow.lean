import Concur.SplitOrdered.Sequential

/-! # Paused inserts, a wrapped `count`, and an insert that panics

Between its list-insert CAS and its `fetch_add`, an insert has added its key
to the map but not yet counted it. A delete of that key that runs to its
`fetch_sub` in the meantime takes `count` below zero, to `2 ^ 64 - 1`, and an
insert that fetches that value doubles `size` with one entry in the map.

One round on `new()` plays this out with four calls on one key: an insert
links its node and pauses, a delete runs, a second insert runs and doubles
`size`, the paused insert finishes, and a second delete runs. The map and
`count` are as before the round, and `size` has doubled. After 62 rounds
`size` is `2 ^ 63`. The next insert links its key and then panics at
`fetch_add`, where `size * LOAD_FACTOR` overflows. Its key stays in the map,
and the insert never returns `Ok(())`.
-/

namespace Concur.SplitOrdered

open Function
open Concur.GrowableArray (usizeSize)

variable {V : Type*} {s s' : State V} {order : List Nat} {t : Nat}

theorem schedule_append (s : State V) (l₁ l₂ : List Nat) :
    schedule s (l₁ ++ l₂) = schedule (schedule s l₁) l₂ :=
  List.foldl_append _ _ _ _

/-- A call that has panicked, or is at a `fetch_add` that will overflow. -/
def Overflowing (c : Call V) : Prop :=
  c.pc = .panicked ∨ c.pc = .fetchAdd ∧ 2 ^ usizeSize ≤ c.size * loadFactor

theorem overflowing_step (h : Overflowing (s.calls t)) (u : Nat) :
    Overflowing ((step s u).calls t) := by
  rcases eq_or_ne t u with rfl | hu
  · rcases h with hpc | ⟨hpc, hov⟩
    · rw [show step s t = s by simp [step, hpc]]
      exact .inl hpc
    · left
      simp [step, hpc, hov]
  · rwa [(stepFrame s u).calls t hu]

theorem overflowing_schedule (h : Overflowing (s.calls t)) (sched : List Nat) :
    ((schedule s sched).calls t).pc ≠ .done (.insert (.ok ())) := by
  induction sched generalizing s with
  | nil => rcases h with h | ⟨h, -⟩ <;> rw [schedule, List.foldl_nil, h] <;> nofun
  | cons u rest ih => exact ih (overflowing_step h u)

theorem RanSeq.delete_some {k : Nat} {v : V} (h : RanSeq t s s') (hop : (s.calls t).op = .delete k)
    (hM : s.absMap k = some v) :
    s'.absMap = update s.absMap k none ∧ s'.count = wrap (s.count + (2 ^ usizeSize - 1)) ∧
      s'.size = s.size := by
  refine ⟨?_, ?_, ?_⟩
  · rw [h.absMap, hop]; simp [Op.apply, Op.run, hM, Op.key]
  · rw [h.count, hop]; simp [Op.countAfter, Op.run, hM]
  · rw [h.size, hop]; simp [Op.sizeAfter, Op.run, hM]

theorem RanSeq.insert_none {k : Nat} {v : V} (h : RanSeq t s s')
    (hop : (s.calls t).op = .insert k v) (hM : s.absMap k = none) :
    s'.absMap = update s.absMap k (some v) ∧ s'.count = wrap (s.count + 1) ∧
      s'.size = if s.size * loadFactor < s.count then s.size * 2 else s.size := by
  refine ⟨?_, ?_, ?_⟩
  · rw [h.absMap, hop]; simp [Op.apply, Op.run, hM, Op.key]
  · rw [h.count, hop]; simp [Op.countAfter, Op.run, hM]
  · rw [h.size, hop]; simp [Op.sizeAfter, Op.run, hM]

section Link

variable (hs : Shape s order)
include hs

/-- An insert of an absent key run alone from its start reaches its list-insert
CAS, at a cursor whose cell holds its node, having written nothing the map,
`count` or the other calls see. -/
theorem Shape.reach_insertCas {k : Nat} {v : V} (hpc : (s.calls t).pc = .start)
    (hop : (s.calls t).op = .insert k v) (hk : k < hiMask) (hM : s.absMap k = none) :
    ∃ j cursor, ((solo s t j).calls t).pc = .insertCas cursor ∧
      ((solo s t j).calls t).op = .insert k v ∧ ((solo s t j).calls t).size = s.size ∧
      CurrOk (solo s t j) cursor ∧ SoloEffect (fun _ => True) t s (solo s t j) := by
  have hk' : (s.calls t).op.key < hiMask := by rw [hop]; exact hk
  obtain ⟨order₀, hs₀⟩ := hs.keep_solo t 1
  rw [solo_one, step_start hpc hk'] at hs₀
  obtain ⟨j, start, prev, curr, found, hcall, heff, hcur, hfound, -⟩ :=
    hs₀.find_solo (t := t) (by simp)
  cases found
  · refine ⟨1 + j, ⟨prev, curr⟩, ?_⟩
    rw [solo_add, solo_one, step_start hpc hk', hcall]
    exact ⟨by simp [State.afterFind, hop], by simp [hop], by simp, hcur,
      ((SoloEffect.refl s).setCall _).trans (heff.mono fun _ _ => trivial)⟩
  · -- the search cannot find a key the map does not have
    obtain ⟨n, node, -, hn, -, hkey, hval⟩ := hfound rfl
    obtain ⟨order₁, hs₁⟩ := hs₀.keep_solo t j
    simp only [setCall_absMap, State.setCall_calls, update_same, hop, Op.key, hM] at hval hkey
    exact absurd hval.symm (hs₁.heap.value_ne_none hn hk hkey)

end Link

/-- One round on calls `a` to `a + 3`, an insert, a delete, an insert and a
delete of one key the map does not have, with `count = 0`. The first insert
links its node and pauses before `fetch_add`; the delete runs and wraps
`count` to `2 ^ 64 - 1`; the second insert runs and doubles `size` from that
count; the first insert finishes; the second delete runs. The map and `count`
are as before, and `size` has doubled. -/
theorem round_doubles_size {s : State V} (hr : Reachable s) {a k : Nat} {v : V}
    (hk : k < hiMask) (hA : (s.calls a).pc = .start ∧ (s.calls a).op = .insert k v)
    (hB : (s.calls (a + 1)).pc = .start ∧ (s.calls (a + 1)).op = .delete k)
    (hC : (s.calls (a + 2)).pc = .start ∧ (s.calls (a + 2)).op = .insert k v)
    (hD : (s.calls (a + 3)).pc = .start ∧ (s.calls (a + 3)).op = .delete k)
    (hM : s.absMap k = none) (hcount : s.count = 0) (hsize : s.size * 2 ≤ 2 ^ 63) :
    ∃ sched : List Nat, (∀ u ∈ sched, a ≤ u ∧ u < a + 4) ∧
      (schedule s sched).absMap = s.absMap ∧ (schedule s sched).count = 0 ∧
      (schedule s sched).size = s.size * 2 := by
  obtain ⟨order, hs⟩ := hr.shape
  -- the first insert links its node and pauses
  obtain ⟨j, cursor, hpc₁, hop₁, hsize₁, hcur₁, heff₁⟩ := hs.reach_insertCas hA.1 hA.2 hk hM
  obtain ⟨order₁, hs₁⟩ := hs.keep_solo a j
  obtain ⟨-, hcall₂, habs₂, hcount₂, hsize₂, hcalls₂⟩ := hs₁.insertCas_solo hpc₁ hop₁ hcur₁
  set s₂ := step (solo s a j) a
  obtain ⟨order₂, hs₂⟩ := hs₁.keep_solo a 1
  rw [solo_one] at hs₂
  have hcalls₂' : ∀ u, u ≠ a → s₂.calls u = s.calls u := fun u hu =>
    (hcalls₂ u hu).trans (heff₁.calls u hu)
  -- the delete wraps `count`
  have hB₂ := hcalls₂' (a + 1) (by omega)
  obtain ⟨k₃, hran₃⟩ := hs₂.start_solo (t := a + 1) (by rw [hB₂, hB.1])
    (by rw [hB₂, hB.2]; exact hk) fun _ _ h => by rw [hB₂, hB.2] at h; cases h
  set s₃ := solo s₂ (a + 1) k₃
  obtain ⟨habs₃, hcount₃, hsize₃⟩ := hran₃.delete_some (by rw [hB₂, hB.2])
    (by rw [habs₂, update_same])
  obtain ⟨order₃, hs₃⟩ := hs₂.keep_solo (a + 1) k₃
  -- the second insert doubles `size`
  have hC₃ : s₃.calls (a + 2) = s.calls (a + 2) :=
    (hran₃.calls _ (by omega)).trans (hcalls₂' _ (by omega))
  have hS₂ : s₂.size = s.size := hsize₂.trans heff₁.size
  obtain ⟨k₄, hran₄⟩ := hs₃.start_solo (t := a + 2) (by rw [hC₃, hC.1])
    (by rw [hC₃, hC.2]; exact hk) fun _ _ _ => by rw [hsize₃, hS₂]; omega
  set s₄ := solo s₃ (a + 2) k₄
  obtain ⟨habs₄, hcount₄, hsize₄⟩ := hran₄.insert_none (by rw [hC₃, hC.2])
    (by rw [habs₃, update_same])
  have hc₃ : s₃.count = 2 ^ usizeSize - 1 := by
    rw [hcount₃, hcount₂, heff₁.count, hcount, wrap, usizeSize]; norm_num
  have hc₄ : s₄.count = 0 := by rw [hcount₄, hc₃, wrap, usizeSize]; norm_num
  have hS₄ : s₄.size = s.size * 2 := by
    rw [hsize₄, hsize₃, hS₂, hc₃, if_pos (by rw [loadFactor, usizeSize]; omega)]
  -- the first insert finishes, against the size it read
  have hA₄ : s₄.calls a = { (solo s a j).calls a with pc := .fetchAdd } :=
    (hran₄.calls a (by omega)).trans ((hran₃.calls a (by omega)).trans hcall₂)
  obtain ⟨-, hcount₅, hsize₅, habs₅, hcalls₅⟩ := step_fetchAdd_ok (s := s₄) (t := a)
    (by rw [hA₄]) (by rw [hA₄, hsize₁, loadFactor, usizeSize]; omega)
    (by rw [hc₄]; exact Nat.zero_le _)
  set s₅ := step s₄ a
  obtain ⟨order₄, hs₄⟩ := hs₃.keep_solo (a + 2) k₄
  obtain ⟨order₅, hs₅⟩ := hs₄.keep_solo a 1
  rw [solo_one] at hs₅
  -- the second delete restores `count`
  have hD₅ : s₅.calls (a + 3) = s.calls (a + 3) := (hcalls₅ _ (by omega)).trans
    ((hran₄.calls _ (by omega)).trans ((hran₃.calls _ (by omega)).trans (hcalls₂' _ (by omega))))
  obtain ⟨k₆, hran₆⟩ := hs₅.start_solo (t := a + 3) (by rw [hD₅, hD.1])
    (by rw [hD₅, hD.2]; exact hk) fun _ _ h => by rw [hD₅, hD.2] at h; cases h
  obtain ⟨habs₆, hcount₆, hsize₆⟩ := hran₆.delete_some (by rw [hD₅, hD.2])
    (by rw [habs₅, habs₄, update_same])
  refine ⟨List.replicate j a ++ [a] ++ List.replicate k₃ (a + 1) ++ List.replicate k₄ (a + 2) ++
    [a] ++ List.replicate k₆ (a + 3), ?_, ?_⟩
  · intro u hu
    simp only [List.mem_append, List.mem_replicate, List.mem_singleton] at hu
    omega
  have hrun : schedule s (List.replicate j a ++ [a] ++ List.replicate k₃ (a + 1) ++
      List.replicate k₄ (a + 2) ++ [a] ++ List.replicate k₆ (a + 3)) = solo s₅ (a + 3) k₆ := by
    simp only [schedule_append]
    rfl
  rw [hrun, habs₆, habs₅, habs₄, habs₃, habs₂, heff₁.absMap, hcount₆, hcount₅, hc₄, hsize₆,
    hsize₅, hS₄]
  refine ⟨?_, by norm_num [wrap, usizeSize], rfl⟩
  simp only [update_idem, update_eq_self_iff, hM]

/-- The calls of `r` rounds on key `0`, then one more insert. -/
def raceOps (v : V) : Nat → List (Op V)
  | 0 => [.insert 0 v]
  | r + 1 => .insert 0 v :: .delete 0 :: .insert 0 v :: .delete 0 :: raceOps v r

theorem getElem?_raceOps (v : V) {R i : Nat} (hi : i ≤ 4 * R) :
    (raceOps v R)[i]? = some (if i % 2 = 0 then .insert 0 v else .delete 0) := by
  induction R generalizing i with
  | zero => obtain rfl : i = 0 := by omega
            rfl
  | succ R ih =>
    rcases i with _ | _ | _ | _ | i
    iterate 4 simp [raceOps]
    simp only [raceOps, List.getElem?_cons_succ]
    rw [ih (by omega), show (i + 1 + 1 + 1 + 1) % 2 = i % 2 by omega]

theorem init_raceOps_call (v : V) {R i : Nat} (hi : i ≤ 4 * R) :
    ((init (raceOps v R)).calls i).pc = .start ∧
      ((init (raceOps v R)).calls i).op = if i % 2 = 0 then .insert 0 v else .delete 0 := by
  simp [init, getElem?_raceOps v hi]

theorem rounds_double_size (v : V) {R : Nat} (hR : R ≤ 62) :
    ∀ r ≤ R, ∃ sched : List Nat, (∀ u ∈ sched, u < 4 * r) ∧
      (schedule (init (raceOps v R)) sched).absMap = (fun _ => none) ∧
      (schedule (init (raceOps v R)) sched).count = 0 ∧
      (schedule (init (raceOps v R)) sched).size = 2 ^ (r + 1) := by
  intro r
  induction r with
  | zero => exact fun _ => ⟨[], nofun, absMap_init _, rfl, rfl⟩
  | succ r ih =>
    intro hr
    obtain ⟨sched, hlt, habs, hcount, hsize⟩ := ih (by omega)
    have hcall : ∀ j < 4, (schedule (init (raceOps v R)) sched).calls (4 * r + j) =
        (init (raceOps v R)).calls (4 * r + j) := fun j _ =>
      schedule_calls_of_not_mem fun hm => absurd (hlt _ hm) (by omega)
    have hop : ∀ j < 4, ((schedule (init (raceOps v R)) sched).calls (4 * r + j)).pc = .start ∧
        ((schedule (init (raceOps v R)) sched).calls (4 * r + j)).op =
          if j % 2 = 0 then .insert 0 v else .delete 0 := fun j hj => by
      rw [hcall j hj, ← show (4 * r + j) % 2 = j % 2 by omega]
      exact init_raceOps_call v (by omega)
    obtain ⟨sched', hin, habs', hcount', hsize'⟩ :=
      round_doubles_size ((Reachable.initial _).schedule sched) (a := 4 * r) (by decide)
        (hop 0 (by omega)) (hop 1 (by omega)) (hop 2 (by omega)) (hop 3 (by omega))
        (by rw [habs]) hcount (by rw [hsize, ← pow_succ]; exact Nat.pow_le_pow_right two_pos (by omega))
    refine ⟨sched ++ sched', fun u hu => ?_, ?_⟩
    · rcases List.mem_append.mp hu with hu | hu
      · exact (hlt u hu).trans_le (by omega)
      · exact (hin u hu).2.trans_le (by omega)
    rw [schedule_append]
    exact ⟨habs'.trans habs, hcount', by rw [hsize', hsize, ← pow_succ]⟩

/-- After 62 rounds on `new()`, `size` is `2 ^ 63`. The next insert finds its
key absent and its list-insert CAS adds it to the map; from there its
`fetch_add` overflows `size * LOAD_FACTOR`, and the insert never returns
`Ok(())`, whatever the other calls do. -/
theorem insert_links_then_panics :
    ∃ (sched : List Nat) (cursor : Cursor),
      ((schedule (init (raceOps (1 : Nat) 62)) sched).calls 248).op = .insert 0 1 ∧
      ((schedule (init (raceOps (1 : Nat) 62)) sched).calls 248).pc = .insertCas cursor ∧
      (schedule (init (raceOps (1 : Nat) 62)) sched).absMap 0 = none ∧
      (step (schedule (init (raceOps (1 : Nat) 62)) sched) 248).absMap 0 = some 1 ∧
      ∀ sched', ((schedule (step (schedule (init (raceOps (1 : Nat) 62)) sched) 248)
        sched').calls 248).pc ≠ .done (.insert (.ok ())) := by
  obtain ⟨sched, hlt, habs, -, hsize⟩ := rounds_double_size (1 : Nat) le_rfl 62 le_rfl
  have hr := (Reachable.initial (raceOps (1 : Nat) 62)).schedule sched
  obtain ⟨order, hs⟩ := hr.shape
  have hcall := schedule_calls_of_not_mem (s := init (raceOps (1 : Nat) 62)) (u := 248)
    fun hm => absurd (hlt _ hm) (by omega)
  obtain ⟨hpc, hop⟩ := init_raceOps_call (1 : Nat) (R := 62) (i := 248) le_rfl
  rw [← hcall] at hpc hop
  obtain ⟨j, cursor, hpc₁, hop₁, hsize₁, hcur₁, heff₁⟩ :=
    hs.reach_insertCas hpc hop (by decide) (by rw [habs])
  obtain ⟨order₁, hs₁⟩ := hs.keep_solo 248 j
  obtain ⟨-, hcall₂, habs₂, -, -, -⟩ := hs₁.insertCas_solo hpc₁ hop₁ hcur₁
  refine ⟨sched ++ List.replicate j 248, cursor, ?_⟩
  rw [schedule_append, show schedule _ (List.replicate j 248) = solo _ 248 j from rfl]
  refine ⟨hop₁, hpc₁, by rw [heff₁.absMap, habs], by rw [habs₂, update_same], fun sched' => ?_⟩
  refine overflowing_schedule (.inr ⟨by rw [hcall₂], ?_⟩) sched'
  rw [hcall₂]
  show 2 ^ usizeSize ≤ ((solo _ 248 j).calls 248).size * loadFactor
  rw [hsize₁, hsize, loadFactor, usizeSize]
  norm_num

end Concur.SplitOrdered
