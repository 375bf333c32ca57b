import Concur.SplitOrdered.Safety

/-! # The element counter of the split-ordered list

`count` is a `usize` that an insert raises with `fetch_add` after linking its
node, and a delete lowers with `fetch_sub` after marking its node. It trails
the number of data entries by the calls between those two points: modulo
`2 ^ 64`, `count = D - I + R`, where `D` counts the unmarked data nodes, `I`
the inserts that linked but did not yet add, and `R` the deletes that marked
but did not yet subtract. Nothing keeps a subtraction from running before the
addition of the node it removed, so `count` itself may wrap below zero.
-/

namespace Concur.SplitOrdered

open Function
open Concur.ListSet (Link Chain)
open Concur.GrowableArray (usizeSize)

variable {V : Type*} {s s' : State V} {order : List Nat}

/-- A data entry: an unmarked node with a value. -/
def Node.isEntry (node : Node V) : Bool := !node.marked && node.value.isSome

def State.isEntryAt (s : State V) (n : Nat) : Bool := (s.nodes n).any Node.isEntry

/-- `D`: the data entries among the allocated nodes. -/
def State.entries (s : State V) : Nat := (List.range s.nnodes).countP s.isEntryAt

/-- The insert has linked its node and not yet run `fetch_add`. -/
@[simp] def Pc.pendingAdd : Pc V → Bool
  | .fetchAdd => true
  | _ => false

/-- The delete has marked its node and not yet run `fetch_sub`. -/
@[simp] def Pc.pendingSub : Pc V → Bool
  | .unlink .. | .fetchSub _ => true
  | _ => false

/-- The number of calls whose program counter satisfies `p`. -/
def State.countCalls (s : State V) (p : Pc V → Bool) : Nat :=
  (List.range s.nthreads).countP fun t => p (s.calls t).pc

/-- What a call at `pc` adds to `count`'s lag behind `D`. -/
def Pc.weight : Pc V → ZMod (2 ^ usizeSize)
  | .fetchAdd => -1
  | .unlink .. | .fetchSub _ => 1
  | _ => 0

theorem Pc.weight_eq (pc : Pc V) :
    pc.weight = (pc.pendingSub.toNat : ZMod (2 ^ usizeSize)) - pc.pendingAdd.toNat := by
  cases pc <;> simp only [Pc.weight, Pc.pendingSub, Pc.pendingAdd, Bool.toNat_false,
    Bool.toNat_true, Nat.cast_zero, Nat.cast_one, sub_zero, zero_sub, sub_self]

/-- The invariant of `count`: `count = D - I + R` modulo `2 ^ 64`. -/
structure Counted (s : State V) : Prop where
  lt : s.count < 2 ^ usizeSize
  ledger : (s.count : ZMod (2 ^ usizeSize)) =
    s.entries - s.countCalls Pc.pendingAdd + s.countCalls Pc.pendingSub
  idle : ∀ t, s.nthreads ≤ t → ∃ r, (s.calls t).pc = .done r

theorem countP_range_update (f : Nat → Bool) {t N : Nat} (ht : t < N) (b : Bool) :
    (List.range N).countP (update f t b) + (f t).toNat = (List.range N).countP f + b.toNat := by
  induction N with
  | zero => exact absurd ht (Nat.not_lt_zero _)
  | succ N ih =>
    simp only [List.range_succ, List.countP_append, List.countP_singleton]
    rcases Nat.lt_succ_iff_lt_or_eq.mp ht with ht | rfl
    · have := ih ht
      rw [update_noteq ht.ne']
      omega
    · have hsame : (List.range t).countP (update f t b) = (List.range t).countP f :=
        List.countP_congr fun n hn => by rw [update_noteq (List.mem_range.mp hn).ne]
      rw [hsame, update_same]
      cases f t <;> cases b <;> rfl

theorem countCalls_setCall (p : Pc V → Bool) {t : Nat} (ht : t < s.nthreads) (c : Call V) :
    (s.setCall t c).countCalls p + (p (s.calls t).pc).toNat = s.countCalls p + (p c.pc).toNat := by
  have hf : (fun u => p ((s.setCall t c).calls u).pc) =
      update (fun u => p (s.calls u).pc) t (p c.pc) := by
    funext u
    rcases eq_or_ne u t with rfl | hu <;> simp [*]
  rw [State.countCalls, State.countCalls, State.setCall_nthreads, hf]
  exact countP_range_update _ ht _

theorem countCalls_congr (hc : s'.calls = s.calls) (hn : s'.nthreads = s.nthreads)
    (p : Pc V → Bool) : s'.countCalls p = s.countCalls p := by
  rw [State.countCalls, State.countCalls, hc, hn]

theorem entries_congr (hn : s'.nodes = s.nodes) (hnn : s'.nnodes = s.nnodes) :
    s'.entries = s.entries := by
  have hf : s'.isEntryAt = s.isEntryAt := funext fun n => by simp [State.isEntryAt, hn]
  rw [State.entries, State.entries, hnn, hf]

@[simp] theorem entries_setCall (s : State V) (t : Nat) (c : Call V) :
    (s.setCall t c).entries = s.entries :=
  entries_congr rfl rfl

@[simp] theorem entries_withCount (s : State V) (n : Nat) :
    ({ s with count := n } : State V).entries = s.entries :=
  rfl

@[simp] theorem entries_withLog (s : State V) (log : List (Nat × Nat × Option V)) :
    ({ s with log := log } : State V).entries = s.entries :=
  rfl

theorem entries_cas {prev : Loc} {e w : Option Nat} (hc : s.cas prev e w = some s') :
    s'.entries = s.entries := by
  have hf : s'.isEntryAt = s.isEntryAt := by
    rcases cas_eq_some hc with ⟨-, -, rfl⟩ | ⟨p, node, -, hp, -, -, rfl⟩ | ⟨i, -, -, rfl⟩
    · rfl
    · funext n
      rcases eq_or_ne n p with rfl | hnp
      · simp [State.isEntryAt, hp, Node.isEntry]
      · simp [State.isEntryAt, hnp]
    · rfl
  rw [State.entries, State.entries, hf, (cas_frame hc).1]

theorem entries_insertAt {cursor : Cursor} {key : Nat} {value : Option V} {N : Nat}
    (hi : s.insertAt cursor key value = some (s', N)) :
    s'.entries = s.entries + value.isSome.toNat := by
  obtain ⟨s₁, hc, rfl, rfl⟩ := insertAt_eq_some hi
  rw [← entries_cas hc, State.entries, State.entries, (cas_frame hc).1, List.range_succ,
    List.countP_append, List.countP_singleton]
  congr 1
  · refine List.countP_congr fun n hn => ?_
    simp [State.isEntryAt, (List.mem_range.mp hn).ne]
  · cases value <;> simp [State.isEntryAt, Node.isEntry]

theorem entries_setMark {n : Nat} {node : Node V} (hn : s.nodes n = some node)
    (hlt : n < s.nnodes) (hm : node.marked = false) (hv : node.value.isSome) :
    (s.setMark n node).entries + 1 = s.entries := by
  have hf : (s.setMark n node).isEntryAt = update s.isEntryAt n false := by
    funext m
    rcases eq_or_ne m n with rfl | hmn
    · simp [State.isEntryAt, State.setMark, Node.isEntry]
    · simp [State.isEntryAt, State.setMark, hmn]
  have := countP_range_update s.isEntryAt hlt false
  rw [show s.isEntryAt n = true by simp [State.isEntryAt, hn, Node.isEntry, hm, hv]] at this
  rw [State.entries, State.entries, hf]
  exact this

theorem Counted.lt_nthreads (hc : Counted s) {t : Nat} (hpc : ∀ r, (s.calls t).pc ≠ .done r) :
    t < s.nthreads :=
  not_le.mp fun h => let ⟨r, hr⟩ := hc.idle t h; hpc r hr

theorem Counted.setCall (hc : Counted s) {t : Nat} {c : Call V} (ht : t < s.nthreads)
    (hcalls : s'.calls = s.calls) (hn : s'.nthreads = s.nthreads)
    (hlt : s'.count < 2 ^ usizeSize)
    (hw : (s'.count : ZMod (2 ^ usizeSize)) - s'.entries - c.pc.weight =
      s.count - s.entries - (s.calls t).pc.weight) :
    Counted (s'.setCall t c) := by
  have hA := countCalls_setCall (s := s') Pc.pendingAdd (hn ▸ ht) c
  have hS := countCalls_setCall (s := s') Pc.pendingSub (hn ▸ ht) c
  rw [hcalls, countCalls_congr hcalls hn] at hA hS
  refine ⟨hlt, ?_, fun u hu => ?_⟩
  · have hA' := congrArg (Nat.cast : Nat → ZMod (2 ^ usizeSize)) hA
    have hS' := congrArg (Nat.cast : Nat → ZMod (2 ^ usizeSize)) hS
    push_cast at hA' hS'
    rw [Pc.weight_eq, Pc.weight_eq] at hw
    simp only [State.setCall_count, entries_setCall]
    linear_combination hw + hc.ledger + hA' - hS'
  · have hut : u ≠ t := by rintro rfl; simp at hu; omega
    simpa [hut, hcalls] using hc.idle u (by simpa [hn] using hu)

theorem Counted.setPc (hc : Counted s) {t : Nat} {pc : Pc V} (ht : t < s.nthreads)
    (hcalls : s'.calls = s.calls) (hn : s'.nthreads = s.nthreads)
    (hlt : s'.count < 2 ^ usizeSize)
    (hw : (s'.count : ZMod (2 ^ usizeSize)) - s'.entries - pc.weight =
      s.count - s.entries - (s.calls t).pc.weight) :
    Counted (s'.setPc t pc) := by
  rw [State.setPc, hcalls]
  exact hc.setCall ht hcalls hn hlt hw

theorem Counted.quiet (hc : Counted s) {t : Nat} {old pc : Pc V} (ht : t < s.nthreads)
    (hpc : (s.calls t).pc = old) (hcalls : s'.calls = s.calls) (hn : s'.nthreads = s.nthreads)
    (hcount : s'.count = s.count) (hent : s'.entries = s.entries) (hw : pc.weight = old.weight) :
    Counted (s'.setPc t pc) :=
  hc.setPc ht hcalls hn (hcount ▸ hc.lt) (by rw [hcount, hent, hw, hpc])

@[simp] theorem weight_retTo (cursor : Cursor) (pending : List Nat) :
    (retTo cursor pending : Pc V).weight = 0 := by
  cases pending <;> rfl

@[simp] theorem weight_afterFind (c : Call V) (target : Target) (start cursor : Cursor)
    (found : Bool) : (s.afterFind c target start cursor found).weight = 0 := by
  unfold State.afterFind
  repeat' split
  all_goals rfl

theorem cast_wrap (n : Nat) : ((wrap n : Nat) : ZMod (2 ^ usizeSize)) = n := ZMod.natCast_mod _ _

theorem cast_wrap_pred (n : Nat) :
    ((wrap (n + (2 ^ usizeSize - 1)) : Nat) : ZMod (2 ^ usizeSize)) = n - 1 := by
  rw [cast_wrap, Nat.cast_add, Nat.cast_sub Nat.one_le_two_pow, ZMod.natCast_self, Nat.cast_one,
    zero_sub, sub_eq_add_neg]

theorem wrap_lt (n : Nat) : wrap n < 2 ^ usizeSize := Nat.mod_lt _ (by positivity)

theorem counted_step (hs : Shape s order) (hc : Counted s) (t : Nat) : Counted (step s t) := by
  rcases hpc : (s.calls t).pc with _ | _ | ⟨b, pending⟩ | ⟨b, pending⟩ | ⟨b, pending⟩ |
    ⟨target, start⟩ | ⟨target, start, prev, prevNext, curr, found⟩ | ⟨b, pending, start, cursor⟩ |
    ⟨b, pending, cursor⟩ | cursor | _ | _ | cursor | ⟨cursor, next, value⟩ | value | r | _ <;>
    simp only [step, hpc]
  case done | panicked => exact hc
  all_goals have ht : t < s.nthreads := hc.lt_nthreads fun r h => by rw [hpc] at h; cases h
  case start =>
    split_ifs
    · exact hc.setCall ht rfl rfl hc.lt (by rw [hpc]; rfl)
    · exact hc.quiet ht hpc rfl rfl rfl rfl rfl
  case find =>
    split_ifs
    · exact hc.quiet ht hpc rfl rfl rfl rfl rfl
    · exact hc.setCall ht rfl rfl hc.lt (by rw [hpc]; rfl)
  case lbRead =>
    split
    · exact hc.quiet ht hpc rfl rfl rfl rfl (weight_retTo _ _)
    · exact hc.quiet ht hpc rfl rfl rfl rfl rfl
  case lbSize => split_ifs <;> exact hc.quiet ht hpc rfl rfl rfl rfl rfl
  case lbHead => exact hc.quiet ht hpc rfl rfl rfl rfl rfl
  case traverse =>
    split
    · split_ifs
      · exact hc.quiet ht hpc rfl rfl rfl rfl (weight_afterFind _ _ _ _ _)
      · exact hc.quiet ht hpc rfl rfl rfl rfl rfl
    · exact hc
  case cleanup =>
    rcases hcas : s.cas prev prevNext curr with _ | s₁
    · exact hc.quiet ht hpc rfl rfl rfl rfl rfl
    · obtain ⟨-, -, hcount, hcalls, hn, -⟩ := cas_frame hcas
      exact hc.quiet ht hpc hcalls hn hcount (entries_cas hcas) (weight_afterFind _ _ _ _ _)
  case sentinelInsert =>
    rcases hins : s.insertAt cursor (reverseBits b) none with _ | ⟨s₁, n⟩
    · exact hc.quiet ht hpc rfl rfl rfl rfl rfl
    · obtain ⟨-, -, hcount, hcalls, hn, -⟩ := insertAt_frame hins
      exact hc.quiet ht hpc hcalls hn hcount (by simpa using entries_insertAt hins) rfl
  case publish =>
    rcases hcas : s.cas (.bucket (reverseBits b)) none cursor.curr with _ | s₁ <;> dsimp only
    · exact hc.quiet ht hpc rfl rfl rfl rfl (weight_retTo _ _)
    · obtain ⟨-, -, hcount, hcalls, hn, -⟩ := cas_frame hcas
      exact hc.quiet ht hpc hcalls hn hcount (entries_cas hcas) (weight_retTo _ _)
  case insertCas =>
    rcases hop : (s.calls t).op with k | ⟨k, v⟩ | k
    · exact hc
    · rcases hins : s.insertAt cursor (makeContentKey k) (some v) with _ | ⟨s₁, n⟩ <;>
        simp only [hins]
      · exact hc.quiet ht hpc rfl rfl rfl rfl rfl
      · -- the node is linked: `D` gains it and the insert now owes its `fetch_add`
        obtain ⟨-, -, hcount, hcalls, hn, -⟩ := insertAt_frame hins
        have hent := entries_insertAt hins
        have hcount' : ({ s₁ with log := s.log ++ [(t, k, some v)] } : State V).count = s.count :=
          hcount
        refine hc.setPc ht hcalls hn (hcount' ▸ hc.lt) ?_
        rw [entries_withLog, hent, hpc, hcount']
        simp only [Pc.weight, Option.isSome_some, Bool.toNat_true, Nat.cast_add, Nat.cast_one]
        abel
    · exact hc
  case fetchAdd =>
    split_ifs <;> exact hc.setPc ht rfl rfl (wrap_lt _) (by
      simp only [cast_wrap, entries_withCount, hpc, Pc.weight, Nat.cast_add, Nat.cast_one]; abel)
  case sizeCas =>
    split_ifs
    · exact hc.quiet ht hpc rfl rfl rfl (entries_congr rfl rfl) rfl
    · exact hc.quiet ht hpc rfl rfl rfl rfl rfl
  case mark =>
    have hm := hs.calls t
    simp only [CallShape, hpc] at hm
    obtain ⟨-, n, node, hcur, hn, hkey, hk⟩ := hm
    simp only [hcur, hn]
    split_ifs with hm
    · exact hc.quiet ht hpc rfl rfl rfl rfl rfl
    · -- the mark takes the node out of `D` and the delete now owes its `fetch_sub`
      have hent := entries_setMark hn ((hs.heap.alloc n).mp (by simp [hn])) (by simpa using hm)
        (Option.isSome_iff_ne_none.mpr (hs.heap.value_ne_none hn hkey hk))
      refine hc.setPc ht rfl rfl hc.lt ?_
      rw [entries_withLog, ← hent, hpc]
      simp only [Pc.weight, Nat.cast_add, Nat.cast_one]
      rw [show (s.setMark n node).count = s.count from rfl]
      abel
  case unlink =>
    rcases hcas : s.cas cursor.prev cursor.curr next with _ | s₁
    · exact hc.quiet ht hpc rfl rfl rfl rfl rfl
    · obtain ⟨-, -, hcount, hcalls, hn, -⟩ := cas_frame hcas
      exact hc.quiet ht hpc hcalls hn hcount (entries_cas hcas) rfl
  case fetchSub =>
    cases value <;> exact hc.setPc ht rfl rfl (wrap_lt _)
      (by rw [cast_wrap_pred, entries_withCount, hpc]; simp only [Pc.weight]; abel)

theorem counted_init (ops : List (Op V)) : Counted (init ops) where
  lt := by positivity
  ledger := by
    have hcalls : ∀ p : Pc V → Bool, p .start = false → p (.done (.lookup none)) = false →
        (init ops).countCalls p = 0 := fun p h1 h2 =>
      List.countP_eq_zero.mpr fun t _ => by
        simp only [init]
        split <;> simp [h1, h2]
    rw [hcalls _ rfl rfl, hcalls _ rfl rfl]
    simp only [State.entries, init, List.range_zero, List.countP_nil, Nat.cast_zero, sub_zero,
      add_zero]
  idle t ht := ⟨.lookup none, by simp [init, List.getElem?_eq_none (Nat.le_of_not_lt (by simpa [init] using ht.not_lt))]⟩

theorem Reachable.counted (hr : Reachable s) : (∃ order, Shape s order) ∧ Counted s := by
  induction hr with
  | initial ops => exact ⟨⟨[], shape_init ops⟩, counted_init ops⟩
  | step t _ ih =>
    obtain ⟨⟨order, hs⟩, hc⟩ := ih
    exact ⟨(shapedStep hs t).1, counted_step hs hc t⟩

/-- A step of call `t` from `s` to `s'` touches no other call, and `count` and
`size` only where the source writes them. -/
structure StepFrame (s s' : State V) (t : Nat) : Prop where
  calls : ∀ u ≠ t, s'.calls u = s.calls u
  nthreads : s'.nthreads = s.nthreads
  count : s'.count = s.count ∨ (s.calls t).pc = .fetchAdd ∨ ∃ v, (s.calls t).pc = .fetchSub v
  size : s'.size = s.size ∨ (s.calls t).pc = .sizeCas

theorem StepFrame.setCall {X : State V} {t : Nat} {c : Call V} (hcalls : X.calls = s.calls)
    (hn : X.nthreads = s.nthreads)
    (hcount : X.count = s.count ∨ (s.calls t).pc = .fetchAdd ∨ ∃ v, (s.calls t).pc = .fetchSub v)
    (hsize : X.size = s.size ∨ (s.calls t).pc = .sizeCas) : StepFrame s (X.setCall t c) t :=
  ⟨fun u hu => by simp [hu, hcalls], hn, hcount, hsize⟩

theorem StepFrame.setPc {X : State V} {t : Nat} {pc : Pc V} (hcalls : X.calls = s.calls)
    (hn : X.nthreads = s.nthreads) (hcount : X.count = s.count) (hsize : X.size = s.size) :
    StepFrame s (X.setPc t pc) t :=
  .setCall hcalls hn (.inl hcount) (.inl hsize)

theorem stepFrame (s : State V) (t : Nat) : StepFrame s (step s t) t := by
  have hstay : StepFrame s s t := ⟨fun _ _ => rfl, rfl, .inl rfl, .inl rfl⟩
  rcases hpc : (s.calls t).pc with _ | _ | ⟨b, pending⟩ | ⟨b, pending⟩ | ⟨b, pending⟩ |
    ⟨target, start⟩ | ⟨target, start, prev, prevNext, curr, found⟩ | ⟨b, pending, start, cursor⟩ |
    ⟨b, pending, cursor⟩ | cursor | _ | _ | cursor | ⟨cursor, next, value⟩ | value | r | _ <;>
    simp only [step, hpc]
  case start | find => split_ifs <;> exact .setCall rfl rfl (.inl rfl) (.inl rfl)
  case lbRead => split <;> exact .setPc rfl rfl rfl rfl
  case lbSize => split_ifs <;> exact .setPc rfl rfl rfl rfl
  case lbHead => exact .setPc rfl rfl rfl rfl
  case traverse =>
    split
    · split_ifs <;> exact .setPc rfl rfl rfl rfl
    · exact hstay
  case cleanup | unlink =>
    split
    · next hcas =>
      obtain ⟨-, hsize, hcount, hcalls, hn, -⟩ := cas_frame hcas
      exact .setPc hcalls hn hcount hsize
    · exact .setPc rfl rfl rfl rfl
  case publish =>
    split <;> rename_i hcas
    · obtain ⟨-, hsize, hcount, hcalls, hn, -⟩ := cas_frame hcas
      exact .setPc hcalls hn hcount hsize
    · exact .setPc rfl rfl rfl rfl
  case sentinelInsert =>
    split
    · next hins =>
      obtain ⟨-, hsize, hcount, hcalls, hn, -⟩ := insertAt_frame hins
      exact .setPc hcalls hn hcount hsize
    · exact .setPc rfl rfl rfl rfl
  case insertCas =>
    split
    · split
      · next hins =>
        obtain ⟨-, hsize, hcount, hcalls, hn, -⟩ := insertAt_frame hins
        exact .setPc hcalls hn hcount hsize
      · exact .setPc rfl rfl rfl rfl
    · exact hstay
  case fetchAdd => split_ifs <;> exact .setCall rfl rfl (.inr (.inl hpc)) (.inl rfl)
  case sizeCas => split_ifs <;> exact .setCall rfl rfl (.inl rfl) (.inr hpc)
  case mark =>
    split
    · split
      · split_ifs <;> exact .setPc rfl rfl rfl rfl
      · exact hstay
    · exact .setPc rfl rfl rfl rfl
  case fetchSub => split <;> exact .setCall rfl rfl (.inr (.inr ⟨_, hpc⟩)) (.inl rfl)
  case done | panicked => exact hstay

/-- From here the call can no longer return `Err`: it has linked or marked its
node, or it has returned `Ok`, or it has panicked. -/
def Pc.committed : Pc V → Bool
  | .fetchAdd | .sizeCas | .unlink .. | .fetchSub _ | .panicked => true
  | .done (.insert (.ok _)) | .done (.delete (.ok _)) => true
  | _ => false

/-- The call returned `Err`. -/
def Pc.isErr : Pc V → Bool
  | .done (.insert (.error _)) | .done (.delete (.error _)) => true
  | _ => false

theorem Pc.committed_of_isErr {pc : Pc V} (h : pc.isErr = true) : pc.committed = false := by
  rcases pc with _ | _ | _ | _ | _ | _ | _ | _ | _ | _ | _ | _ | _ | _ | _ | ((_ | _) | (_ | _) | (_ | _)) | _ <;>
    simp_all [Pc.isErr, Pc.committed]

theorem committed_step {s : State V} {u : Nat} (t : Nat) (h : (s.calls u).pc.committed = true) :
    ((step s t).calls u).pc.committed = true := by
  rcases eq_or_ne u t with rfl | hu
  · rcases hpc : (s.calls u).pc with _ | _ | _ | _ | _ | _ | _ | _ | _ | _ | _ | _ | _ | _ | value |
      ((_ | _) | (_ | _) | (_ | _)) | _ <;> rw [hpc] at h <;>
      simp only [Pc.committed, Bool.false_eq_true] at h <;> simp only [step, hpc]
    all_goals (repeat' split) <;> simp [State.setPc, Pc.committed]
  · rwa [(stepFrame s t).calls u hu]

theorem committed_schedule {s : State V} {u : Nat} (sched : List Nat)
    (h : (s.calls u).pc.committed = true) : ((schedule s sched).calls u).pc.committed = true := by
  induction sched generalizing s with
  | nil => exact h
  | cons t rest ih => exact ih (committed_step t h)

theorem err_count_schedule {s : State V} {sched : List Nat} {t : Nat}
    (herr : ((schedule s sched).calls t).pc.isErr = true) {i : Nat} (hi : sched[i]? = some t) :
    (step (schedule s (sched.take i)) t).count = (schedule s (sched.take i)).count := by
  set s₀ := schedule s (sched.take i)
  have hend : schedule s sched = schedule (step s₀ t) (sched.drop (i + 1)) := by
    obtain ⟨hlt, hget⟩ := List.getElem?_eq_some_iff.mp hi
    conv_lhs => rw [← List.take_append_drop i sched, List.drop_eq_getElem_cons hlt, hget]
    simp only [schedule, List.foldl_append, List.foldl_cons, s₀]
  rcases (stepFrame s₀ t).count with h | h | ⟨v, h⟩
  · exact h
  all_goals
    have hc : (s₀.calls t).pc.committed = true := by rw [h]; rfl
    have := committed_schedule (sched.drop (i + 1)) (committed_step t hc)
    rw [← hend, Pc.committed_of_isErr herr] at this
    cases this

/-- The call is not between its start and its return. -/
def Pc.isIdle : Pc V → Bool
  | .start | .done _ | .panicked => true
  | _ => false

/-- No call is in flight. -/
def State.Quiescent (s : State V) : Prop := ∀ t < s.nthreads, (s.calls t).pc.isIdle = true

theorem State.Quiescent.countCalls_eq_zero (hq : s.Quiescent) {p : Pc V → Bool}
    (hp : ∀ pc : Pc V, pc.isIdle = true → p pc = false) : s.countCalls p = 0 :=
  List.countP_eq_zero.mpr fun t ht => by
    simp [hp _ (hq t (List.mem_range.mp ht))]

theorem isEntryAt_iff {n : Nat} :
    s.isEntryAt n = true ↔ ∃ node, s.nodes n = some node ∧ node.marked = false ∧
      node.value.isSome = true := by
  rcases hn : s.nodes n with _ | node <;> simp [State.isEntryAt, hn, Node.isEntry]

theorem Shape.entries_eq (hs : Shape s order) : s.entries = order.countP s.isEntryAt := by
  have h := hs.heap
  rw [State.entries, List.countP_eq_length_filter, List.countP_eq_length_filter]
  refine List.Perm.length_eq ((List.perm_ext_iff_of_nodup ((List.nodup_range _).filter _)
    (h.chain.nodup.filter _)).mpr fun n => ?_)
  simp only [List.mem_filter, List.mem_range, decide_eq_true_eq]
  constructor
  · rintro ⟨-, he⟩
    obtain ⟨node, hn, hm, -⟩ := isEntryAt_iff.mp he
    exact ⟨h.mem_of_unmarked hn hm, he⟩
  · rintro ⟨hmem, he⟩
    exact ⟨(h.alloc n).mp (h.alloc_of_mem hmem), he⟩

theorem Shape.entries_le (hs : Shape s order) : s.entries ≤ hiMask := by
  have h := hs.heap
  set L := (List.range s.nnodes).filter s.isEntryAt
  have hkey : ∀ n ∈ L, ∃ node, s.nodes n = some node ∧ node.marked = false ∧
      node.key % 2 = 1 ∧ node.key < 2 ^ 64 := fun n hn => by
    obtain ⟨node, hnode, hm, hv⟩ := isEntryAt_iff.mp (List.mem_filter.mp hn).2
    obtain ⟨v, hv⟩ := Option.isSome_iff_exists.mp hv
    obtain ⟨k, hk, hkk⟩ := h.data n node v hnode hv
    exact ⟨node, hnode, hm, hkk ▸ makeContentKey_mod_two hk, hkk ▸ reverseBits_lt _⟩
  -- half the list-key tells the entries apart
  let f : Nat → Nat := fun n => ((s.nodes n).map Node.key).getD 0 / 2
  have hinj : ∀ m ∈ L, ∀ n ∈ L, f m = f n → m = n := fun m hm n hn hf => by
    obtain ⟨nm, hnm, hmm, hom, -⟩ := hkey m hm
    obtain ⟨nn, hnn, hmn, hon, -⟩ := hkey n hn
    simp only [f, hnm, hnn, Option.map_some', Option.getD_some] at hf
    exact chain_eq_of_data_eq h.chain (h.mem_of_unmarked hnm hmm) (h.mem_of_unmarked hnn hmn)
      (by simp [State.nodeKey, hnm, hnn]; omega)
  have hsub : (L.map f).toFinset ⊆ Finset.range hiMask := fun x hx => by
    obtain ⟨n, hn, rfl⟩ := List.mem_map.mp (List.mem_toFinset.mp hx)
    obtain ⟨node, hnode, -, -, hlt⟩ := hkey n hn
    simp only [f, hnode, Option.map_some', Option.getD_some, Finset.mem_range, hiMask_eq]
    omega
  calc s.entries = (L.map f).toFinset.card := by
        rw [List.toFinset_card_of_nodup (((List.nodup_range _).filter _).map_on hinj),
          List.length_map, State.entries, List.countP_eq_length_filter]
    _ ≤ (Finset.range hiMask).card := Finset.card_le_card hsub
    _ = hiMask := Finset.card_range _

theorem Counted.count_eq_entries (hc : Counted s) (hs : Shape s order) (hq : s.Quiescent) :
    s.count = s.entries := by
  have hA := hq.countCalls_eq_zero (p := Pc.pendingAdd) (by rintro (_ | _) h <;> simp_all [Pc.isIdle])
  have hS := hq.countCalls_eq_zero (p := Pc.pendingSub) (by rintro (_ | _) h <;> simp_all [Pc.isIdle])
  have hl := hc.ledger
  rw [hA, hS, Nat.cast_zero, sub_zero, add_zero, ZMod.natCast_eq_natCast_iff'] at hl
  rwa [Nat.mod_eq_of_lt hc.lt, Nat.mod_eq_of_lt ((hs.entries_le).trans_lt (by decide))] at hl

/-- `count = D - I + R` modulo `2 ^ 64`, with `D` the entries on the list, `I`
the inserts between their link and their `fetch_add`, and `R` the deletes
between their mark and their `fetch_sub`; so `count = D` when no call is in
flight, and the steps of a call that returns `Err` never move `count`. -/
theorem count_tracks_entries (hr : Reachable s) :
    (∃ order, Chain s.linkVal s.nodeKey .head ⊥ order ∧ s.entries = order.countP s.isEntryAt) ∧
    (s.count : ZMod (2 ^ usizeSize)) =
      s.entries - s.countCalls Pc.pendingAdd + s.countCalls Pc.pendingSub ∧
    (s.Quiescent → s.count = s.entries) ∧
    ∀ (sched : List Nat) (t : Nat), ((schedule s sched).calls t).pc.isErr = true →
      ∀ i, sched[i]? = some t →
        (step (schedule s (sched.take i)) t).count = (schedule s (sched.take i)).count := by
  obtain ⟨⟨order, hs⟩, hc⟩ := hr.counted
  exact ⟨⟨order, hs.heap.chain, hs.entries_eq⟩, hc.ledger, hc.count_eq_entries hs,
    fun _ _ herr _ hi => err_count_schedule herr hi⟩

theorem count_tracks_entries_run :
    let s := schedule (init [.insert 3 (7 : Nat), .delete 3, .insert 5 8])
      [0, 0, 0, 0, 0, 0, 1, 1, 1, 1, 1, 1, 2, 2]
    (∃ order, Chain s.linkVal s.nodeKey .head ⊥ order ∧ s.entries = order.countP s.isEntryAt) ∧
    (s.count : ZMod (2 ^ usizeSize)) =
      s.entries - s.countCalls Pc.pendingAdd + s.countCalls Pc.pendingSub ∧
    (s.Quiescent → s.count = s.entries) ∧
    ∀ (sched : List Nat) (t : Nat), ((schedule s sched).calls t).pc.isErr = true →
      ∀ i, sched[i]? = some t →
        (step (schedule s (sched.take i)) t).count = (schedule s (sched.take i)).count :=
  count_tracks_entries ((Reachable.initial _).schedule _)

end Concur.SplitOrdered
