import Concur.SplitOrdered.Solo

/-! # Calls run alone, and the calls of one thread

A call run without interference returns what the sequential map returns:
`find` reads `size`, runs `lookup_bucket` for the key's bucket and searches
from that sentinel, which finds the key's node exactly when the map has the
key; an insert then links its node and adds one to `count`, doubling `size`
when the fetched count exceeds `size * LOAD_FACTOR`, and a delete marks,
unlinks and subtracts one. One thread's calls on `new()` therefore return the
results of the sequential map. `size` stays below `2 ^ 63` on the way, as
`count` is then the number of entries, so the `fetch_add` of an insert never
overflows.
-/

namespace Concur.SplitOrdered

open Function
open Concur.GrowableArray (usizeSize)

variable {V : Type*} {s s' s₁ : State V} {order : List Nat} {t : Nat}

/-- The sequential map after a call: the change `Op.run` makes to the call's key. -/
def Op.apply (M : Nat → Option V) (op : Op V) : Nat → Option V :=
  match (op.run M).2 with
  | some x => update M op.key x
  | none => M

/-- `count` after a call: one more after an insert that adds its key, one less
(as a `usize`) after a delete that removes it. -/
def Op.countAfter (M : Nat → Option V) (count : Nat) (op : Op V) : Nat :=
  match (op.run M).2 with
  | some (some _) => wrap (count + 1)
  | some none => wrap (count + (2 ^ usizeSize - 1))
  | none => count

/-- `size` after a call: an insert that adds its key doubles it when the count
it fetched exceeds `size * LOAD_FACTOR`. -/
def Op.sizeAfter (M : Nat → Option V) (count size : Nat) (op : Op V) : Nat :=
  match (op.run M).2 with
  | some (some _) => if size * loadFactor < count then size * 2 else size
  | _ => size

/-- The results of one thread's calls on the sequential map, from `M`. -/
def seqRets : (Nat → Option V) → List (Op V) → List (Ret V)
  | _, [] => []
  | M, op :: ops => (op.run M).1 :: seqRets (op.apply M) ops

/-- What a call run alone does, as the sequential map says: it returns the map's
result, and the map, `count` and `size` change as `Op.apply`, `Op.countAfter`
and `Op.sizeAfter` say; no other call moves. -/
structure RanSeq (t : Nat) (s s' : State V) : Prop where
  ret : (s'.calls t).pc = .done ((s.calls t).op.run s.absMap).1
  absMap : s'.absMap = (s.calls t).op.apply s.absMap
  count : s'.count = (s.calls t).op.countAfter s.absMap s.count
  size : s'.size = (s.calls t).op.sizeAfter s.absMap s.count s.size
  calls : ∀ u, u ≠ t → s'.calls u = s.calls u

theorem RanSeq.of_effect {P : Nat → Prop} (heff : SoloEffect P t s s')
    (hret : (s'.calls t).pc = .done ((s.calls t).op.run s.absMap).1)
    (hnone : ((s.calls t).op.run s.absMap).2 = none) : RanSeq t s s' where
  ret := hret
  absMap := by simp only [heff.absMap, Op.apply, hnone]
  count := by simp only [heff.count, Op.countAfter, hnone]
  size := by simp only [heff.size, Op.sizeAfter, hnone]
  calls := heff.calls

theorem step_start (hpc : (s.calls t).pc = .start) (hk : (s.calls t).op.key < hiMask) :
    step s t = s.setCall t { s.calls t with pc := .find, invoked := s.log.length } := by
  simp [step, hpc, validKey, hk]

theorem step_find (hpc : (s.calls t).pc = .find) (h0 : s.size ≠ 0) :
    step s t = s.setCall t
      { s.calls t with pc := .lbRead ((s.calls t).op.key % s.size) [], size := s.size } := by
  simp [step, hpc, h0]

theorem step_fetchAdd_ok (hpc : (s.calls t).pc = .fetchAdd)
    (hno : (s.calls t).size * loadFactor < 2 ^ usizeSize)
    (hle : s.count ≤ (s.calls t).size * loadFactor) :
    ((step s t).calls t).pc = .done (.insert (.ok ())) ∧ (step s t).count = wrap (s.count + 1) ∧
      (step s t).size = s.size ∧ (step s t).absMap = s.absMap ∧
      ∀ u, u ≠ t → (step s t).calls u = s.calls u := by
  have h : step s t = { s with count := wrap (s.count + 1) }.setPc t (.done (.insert (.ok ()))) := by
    simp only [step, hpc, if_neg (Nat.not_le.mpr hno), gt_iff_lt, if_neg (Nat.not_lt.mpr hle)]
  rw [h]
  exact ⟨setPc_pc .., by rw [setPc_count], by rw [setPc_size],
    by rw [setPc_absMap, absMap_setCount], fun u hu => setPc_other _ _ hu⟩

/-- `fetch_add` run alone, with the size CAS it may lead to: `count` goes up by
one, and `size` doubles when the fetched count exceeds `size * LOAD_FACTOR`,
which does not overflow below `size = 2 ^ 63`. -/
theorem fetchAdd_solo (hpc : (s.calls t).pc = .fetchAdd)
    (hsize : (s.calls t).size = s.size) (hlt : s.size < 2 ^ 63) :
    ∃ k, ((solo s t k).calls t).pc = .done (.insert (.ok ())) ∧
      (solo s t k).count = wrap (s.count + 1) ∧
      (solo s t k).size = (if s.size * loadFactor < s.count then s.size * 2 else s.size) ∧
      (solo s t k).absMap = s.absMap ∧ ∀ u, u ≠ t → (solo s t k).calls u = s.calls u := by
  have hno : s.size * loadFactor < 2 ^ usizeSize := by rw [loadFactor, usizeSize]; omega
  by_cases hgt : s.size * loadFactor < s.count
  · -- the size CAS doubles the size this insert read
    set s₁ : State V := { s with count := wrap (s.count + 1) }
    have h₁ : step s t = s₁.setPc t .sizeCas := by
      simp only [step, hpc, if_neg (Nat.not_le.mpr hno), gt_iff_lt, hsize, if_pos hgt]
    have h₂ : solo s t 2 = { s₁.setPc t .sizeCas with size := s.size * 2 }.setPc t
        (.done (.insert (.ok ()))) := by
      show step (step s t) t = _
      rw [h₁]
      simp [step, setPc_call, hsize, s₁]
    refine ⟨2, ?_⟩
    rw [h₂]
    exact ⟨setPc_pc .., rfl, by simp [hgt], rfl, fun u hu => by simp only [setPc_other _ _ hu]⟩
  · obtain ⟨hpc₁, hcount₁, hsize₁, habs₁, hcalls₁⟩ :=
      step_fetchAdd_ok hpc (hsize ▸ hno) (hsize ▸ Nat.not_lt.mp hgt)
    exact ⟨1, hpc₁, hcount₁, by rw [solo_one, hsize₁, if_neg hgt], habs₁, hcalls₁⟩

theorem step_fetchSub {v : V} (hpc : (s.calls t).pc = .fetchSub (some v)) :
    ((step s t).calls t).pc = .done (.delete (.ok v)) ∧ (step s t).absMap = s.absMap ∧
      (step s t).count = wrap (s.count + (2 ^ usizeSize - 1)) ∧ (step s t).size = s.size ∧
      ∀ u, u ≠ t → (step s t).calls u = s.calls u := by
  simp only [step, hpc]
  exact ⟨setPc_pc .., by rw [setPc_absMap, absMap_setCount], by rw [setPc_count],
    by rw [setPc_size], fun u hu => setPc_other _ _ hu⟩

section Calls

variable (hs : Shape s order)
include hs

/-- `find` run alone: it reads `size`, runs `lookup_bucket` for the key's bucket
and searches from its sentinel; then the call goes where the search sends it,
at a cursor whose cell holds its node, having found the unmarked node with the
key's content key exactly when there is one. -/
theorem Shape.find_solo (hpc : (s.calls t).pc = .find) :
    ∃ k start prev curr found,
      (solo s t k).calls t = { s.calls t with
        pc := (solo s t k).afterFind (s.calls t) .content start ⟨prev, curr⟩ found
        size := s.size } ∧
      SoloEffect (LookupChain s.size ((s.calls t).op.key % s.size)) t s (solo s t k) ∧
      CurrOk (solo s t k) ⟨prev, curr⟩ ∧
      (found = true → ∃ n node, curr = some n ∧ (solo s t k).nodes n = some node ∧
        node.marked = false ∧ node.key = makeContentKey (s.calls t).op.key ∧
        s.absMap (s.calls t).op.key = node.value) ∧
      (found = false → s.absMap (s.calls t).op.key = none) := by
  have hkey : (s.calls t).op.key < hiMask := by
    have hc := hs.calls t
    simp only [CallShape, hpc] at hc
    exact hc
  obtain ⟨j, -, hj, hsz⟩ := hs.heap.size
  set s₁ := s.setCall t
    { s.calls t with pc := .lbRead ((s.calls t).op.key % s.size) [], size := s.size }
  have h₁ : solo s t 1 = s₁ := step_find hpc (by rw [hsz]; positivity)
  obtain ⟨order₁, hs₁⟩ := hs.keep_solo t 1
  rw [h₁] at hs₁
  obtain ⟨k₁, cursor, -, hret⟩ :=
    hs₁.lookupBucket_solo
      (show (s₁.calls t).pc = .lbRead ((s.calls t).op.key % s.size) [] by simp [s₁])
  obtain ⟨order₂, hs₂⟩ := hs₁.keep_solo t k₁
  have hcall₁ : (solo s₁ t k₁).calls t =
      { s.calls t with pc := .traverse .content cursor, size := s.size } := by
    rw [hret.call]; simp [s₁]; rfl
  -- the bucket's sentinel is below the key's content key
  have hstart : SentinelStart (solo s₁ t k₁).nodes cursor
      (Target.key ((solo s₁ t k₁).calls t).op.key .content) := by
    obtain ⟨n, node, hc, hn, hk, hv, -⟩ := hret.sentinel
    refine ⟨n, node, hc, hn, hv, hk.trans_lt ?_⟩
    rw [hcall₁, hsz]
    simp only [Target.key]
    exact reverseBits_lt_makeContentKey hkey hj
  obtain ⟨k₂, prev, curr, found, -, hcall, heff, hcur, hfound, habs⟩ :=
    hs₂.search_solo (by rw [hcall₁]) hret.currOk (.inr hstart)
  rw [hcall₁] at hcall hfound habs
  obtain ⟨order₃, hs₃⟩ := hs₂.keep_solo t k₂
  have heff' : SoloEffect (LookupChain s.size ((s.calls t).op.key % s.size)) t s
      (solo (solo s₁ t k₁) t k₂) :=
    ((SoloEffect.refl s).setCall _).trans (hret.effect.trans (heff.mono fun _ => False.elim))
  refine ⟨1 + k₁ + k₂, cursor, prev, curr, found, ?_⟩
  rw [solo_add, solo_add, h₁]
  refine ⟨hcall, heff', hcur, fun hf => ?_, fun hf => ?_⟩
  · obtain ⟨n, node, hc, hn, hm, hk⟩ := hfound hf
    exact ⟨n, node, hc, hn, hm, hk, heff'.absMap ▸ hs₃.heap.absMap_of_node hn hm hkey hk⟩
  · exact heff'.absMap ▸ absMap_of_absent (habs hf)

theorem Shape.insertCas_solo {k : Nat} {v : V} {cursor : Cursor}
    (hpc : (s.calls t).pc = .insertCas cursor) (hop : (s.calls t).op = .insert k v)
    (hcur : CurrOk s cursor) :
    s.absMap k = none ∧ (step s t).calls t = { s.calls t with pc := .fetchAdd } ∧
      (step s t).absMap = update s.absMap k (some v) ∧ (step s t).count = s.count ∧
      (step s t).size = s.size ∧ ∀ u, u ≠ t → (step s t).calls u = s.calls u := by
  have hc := hs.calls t
  simp only [CallShape, hpc, hop, Op.key] at hc
  obtain ⟨hk, -, hpos⟩ := hc
  obtain ⟨s₁, hcas⟩ := hcur.cas (some s.nnodes)
  rcases hins : s.insertAt cursor (makeContentKey k) (some v) with _ | ⟨s₂, N⟩
  · simp [State.insertAt, hcas] at hins
  obtain ⟨⟨order', hh⟩, -⟩ := hs.heap.insertAt hins hpos (fun hv => by cases hv)
    fun _ _ => ⟨k, hk, rfl⟩
  obtain ⟨habs, hmap⟩ := hs.heap.absMap_insertAt_some hh hins hk
  obtain ⟨-, hsize, hcount, hcalls, -, -⟩ := insertAt_frame hins
  have hstep : step s t = { s₂ with log := s.log ++ [(t, k, some v)] }.setPc t .fetchAdd := by
    simp only [step, hpc, hop, hins]
  rw [hstep]
  exact ⟨habs, by simp [State.setPc, hcalls], hmap, hcount, hsize,
    fun u hu => by simp [State.setPc, hu, hcalls]⟩

/-- A delete's mark run alone, with its unlink and `fetch_sub`: the map loses
the key, whose value the delete returns, and `count` goes down by one. The
unlink goes on to `fetch_sub` whether its CAS succeeds or not. -/
theorem Shape.mark_solo {k n : Nat} {cursor : Cursor} {node : Node V}
    (hpc : (s.calls t).pc = .mark cursor) (hop : (s.calls t).op = .delete k)
    (hc : cursor.curr = some n) (hn : s.nodes n = some node) (hm : node.marked = false) :
    ∃ v, s.absMap k = some v ∧ ((solo s t 3).calls t).pc = .done (.delete (.ok v)) ∧
      (solo s t 3).absMap = update s.absMap k none ∧
      (solo s t 3).count = wrap (s.count + (2 ^ usizeSize - 1)) ∧ (solo s t 3).size = s.size ∧
      ∀ u, u ≠ t → (solo s t 3).calls u = s.calls u := by
  have hsh := hs.calls t
  simp only [CallShape, hpc, hop, Op.key] at hsh
  obtain ⟨-, n', node', hc', hn', hk, hkey⟩ := hsh
  rw [hc] at hc'; cases hc'
  rw [hn] at hn'; cases hn'
  obtain ⟨v, hv⟩ := Option.ne_none_iff_exists'.mp (hs.heap.value_ne_none hn hk hkey)
  obtain ⟨hval, hmap⟩ := hs.heap.absMap_setMark hn hm hk hkey
  set s₁ := { s.setMark n node with log := s.log ++ [(t, k, none)] }.setPc t
    (.unlink cursor node.next (some v))
  have h₁ : step s t = s₁ := by simp [step, hpc, hop, hc, hn, hm, Op.key, s₁, hv]
  obtain ⟨s₂, h₂, habs, hcount, hsize, hcalls⟩ : ∃ s₂ : State V,
      step s₁ t = s₂.setPc t (.fetchSub (some v)) ∧ s₂.absMap = s₁.absMap ∧
        s₂.count = s.count ∧ s₂.size = s.size ∧ s₂.calls = s₁.calls := by
    simp only [step, s₁, setPc_pc]
    rcases hcas : State.cas _ cursor.prev cursor.curr node.next with _ | s₂
    · exact ⟨_, rfl, rfl, rfl, rfl, rfl⟩
    · obtain ⟨-, hsize, hcount, hcalls, -⟩ := cas_frame hcas
      exact ⟨s₂, rfl, absMap_cas hcas, hcount, hsize, hcalls⟩
  have h₃ : solo s t 3 = step (s₂.setPc t (.fetchSub (some v))) t := by
    show step (step (step s t) t) t = _
    rw [h₁, h₂]
  obtain ⟨hpc₃, habs₃, hcount₃, hsize₃, hcalls₃⟩ := step_fetchSub (setPc_pc s₂ t _)
  refine ⟨v, hval.trans hv, ?_⟩
  rw [h₃, habs₃, hcount₃, hsize₃, setPc_absMap, setPc_count, setPc_size, habs, hcount, hsize]
  refine ⟨hpc₃, hmap, rfl, rfl, fun u hu => ?_⟩
  rw [hcalls₃ u hu, setPc_other _ _ hu, hcalls, setPc_other _ _ hu]
  rfl

/-- A call run alone from `find` does what the sequential map does, if `size` is
below `2 ^ 63` when the call is an insert: the search finds the key exactly
when the map has it, a lookup returns its value, an insert of a new key links
it and runs `fetch_add`, a delete of a present key marks, unlinks and runs
`fetch_sub`, and every other call returns `Err` without a write. -/
theorem Shape.call_solo (hpc : (s.calls t).pc = .find)
    (hlt : ∀ k v, (s.calls t).op = .insert k v → s.size < 2 ^ 63) :
    ∃ k, RanSeq t s (solo s t k) := by
  have hkey : (s.calls t).op.key < hiMask := by
    have hc := hs.calls t
    simp only [CallShape, hpc] at hc
    exact hc
  obtain ⟨k₁, start, prev, curr, found, hcall, heff, hcur, hfound, habs⟩ := hs.find_solo hpc
  obtain ⟨order₁, hs₁⟩ := hs.keep_solo t k₁
  have hpc₁ : ((solo s t k₁).calls t).pc =
      (solo s t k₁).afterFind (s.calls t) .content start ⟨prev, curr⟩ found := by
    rw [hcall]
  have hop₁ : ((solo s t k₁).calls t).op = (s.calls t).op := by rw [hcall]
  rcases hop : (s.calls t).op with k | ⟨k, v⟩ | k <;>
    simp only [hop, Op.key] at hfound habs hop₁ hkey <;> cases found
  case lookup.false =>
    refine ⟨k₁, .of_effect heff ?_ (by rw [hop]; rfl)⟩
    simp [hpc₁, State.afterFind, hop, Op.run, habs rfl]
  case lookup.true =>
    obtain ⟨n, node, rfl, hn, -, -, hval⟩ := hfound rfl
    refine ⟨k₁, .of_effect heff ?_ (by rw [hop]; rfl)⟩
    simp [hpc₁, State.afterFind, hop, hn, Op.run, hval]
  case insert.true =>
    obtain ⟨n, node, rfl, hn, hm, hk, hval⟩ := hfound rfl
    obtain ⟨w, hw⟩ := Option.ne_none_iff_exists'.mp (hs₁.heap.value_ne_none hn hkey hk)
    refine ⟨k₁, .of_effect heff ?_ (by simp [hop, Op.run, hval, hw])⟩
    simp [hpc₁, State.afterFind, hop, Op.run, hval, hw]
  case insert.false =>
    have hM := habs rfl
    obtain ⟨-, hcall₂, habs₂, hcount₂, hsize₂, hcalls₂⟩ :=
      hs₁.insertCas_solo (by simp [hpc₁, State.afterFind, hop]) hop₁ hcur
    obtain ⟨k₃, hret, hcount₃, hsize₃, habs₃, hcalls₃⟩ := fetchAdd_solo (by rw [hcall₂])
      (by rw [hcall₂, hsize₂, heff.size, hcall]) (by rw [hsize₂, heff.size]; exact hlt k v hop)
    refine ⟨k₁ + 1 + k₃, ?_⟩
    rw [solo_add, solo_add, solo_one]
    refine ⟨?_, ?_, ?_, ?_, fun u hu => ?_⟩
    · rw [hret, hop]; simp [Op.run, hM]
    · rw [habs₃, habs₂, heff.absMap, hop]; simp [Op.apply, Op.run, hM, Op.key]
    · rw [hcount₃, hcount₂, heff.count, hop]; simp [Op.countAfter, Op.run, hM]
    · rw [hsize₃, hsize₂, hcount₂, heff.size, heff.count, hop]; simp [Op.sizeAfter, Op.run, hM]
    · rw [hcalls₃ u hu, hcalls₂ u hu, heff.calls u hu]
  case delete.true =>
    obtain ⟨n, node, rfl, hn, hm, -, -⟩ := hfound rfl
    obtain ⟨v, hv, hret, habs₃, hcount₃, hsize₃, hcalls₃⟩ :=
      hs₁.mark_solo (show _ = .mark ⟨prev, some n⟩ by simp [hpc₁, State.afterFind, hop]) hop₁ rfl
        hn hm
    have hM : s.absMap k = some v := heff.absMap ▸ hv
    refine ⟨k₁ + 3, ?_⟩
    rw [solo_add]
    refine ⟨?_, ?_, ?_, ?_, fun u hu => ?_⟩
    · rw [hret, hop]; simp [Op.run, hM]
    · rw [habs₃, heff.absMap, hop]; simp [Op.apply, Op.run, hM, Op.key]
    · rw [hcount₃, heff.count, hop]; simp [Op.countAfter, Op.run, hM]
    · rw [hsize₃, heff.size, hop]; simp [Op.sizeAfter, Op.run, hM]
    · rw [hcalls₃ u hu, heff.calls u hu]
  case delete.false =>
    refine ⟨k₁, .of_effect heff ?_ (by simp [hop, Op.run, habs rfl])⟩
    simp [hpc₁, State.afterFind, hop, Op.run, habs rfl]

theorem Shape.start_solo (hpc : (s.calls t).pc = .start) (hk : (s.calls t).op.key < hiMask)
    (hlt : ∀ k v, (s.calls t).op = .insert k v → s.size < 2 ^ 63) :
    ∃ k, RanSeq t s (solo s t k) := by
  obtain ⟨order₀, hs₀⟩ := hs.keep_solo t 1
  rw [solo_one, step_start hpc hk] at hs₀
  obtain ⟨k, h⟩ := hs₀.call_solo (t := t) (by simp) fun k v h => hlt k v (by simpa using h)
  refine ⟨1 + k, ?_⟩
  rw [solo_add, solo_one, step_start hpc hk]
  exact ⟨by simpa using h.ret, by simpa using h.absMap, by simpa using h.count,
    by simpa using h.size, fun u hu => by simpa [hu] using h.calls u hu⟩

end Calls

/-- One thread making calls `t`, `t + 1`, … one after another: call `t + i`
runs alone for `ks[i]` steps. -/
def serial : Nat → List Nat → List Nat
  | _, [] => []
  | t, k :: ks => List.replicate k t ++ serial (t + 1) ks

theorem schedule_serial (s : State V) (t k : Nat) (ks : List Nat) :
    schedule s (serial t (k :: ks)) = schedule (solo s t k) (serial (t + 1) ks) := by
  simp only [serial, schedule, solo, List.foldl_append]

theorem le_of_mem_serial {t u : Nat} {ks : List Nat} (h : u ∈ serial t ks) : t ≤ u := by
  induction ks generalizing t with
  | nil => simp [serial] at h
  | cons k ks ih =>
    rcases List.mem_append.mp h with h | h
    · exact (List.eq_of_mem_replicate h).ge
    · exact (Nat.le_succ t).trans (ih h)

theorem schedule_calls_of_not_mem {u : Nat} {sched : List Nat} (hu : u ∉ sched) :
    (schedule s sched).calls u = s.calls u := by
  induction sched generalizing s with
  | nil => rfl
  | cons t rest ih =>
    rw [List.mem_cons, not_or] at hu
    exact (ih hu.2).trans ((stepFrame s t).calls u hu.1)

/-- Calls `t`, `t + 1`, … of one thread, each run alone from its start on a
quiescent state, return what the sequential map returns from the map they
start on. `size` stays below `2 ^ 63` on the way: a doubling needs more than
twice `size` entries, and there are at most `2 ^ 63`. -/
theorem serial_seq {ops : List (Op V)} (hkeys : ∀ op ∈ ops, op.key < hiMask) :
    ∀ {s : State V} {t : Nat}, Reachable s → (∀ u, (s.calls u).pc.isIdle = true) →
      s.size < 2 ^ 63 →
      (∀ i op, ops[i]? = some op → (s.calls (t + i)).pc = .start ∧ (s.calls (t + i)).op = op) →
      ∃ ks : List Nat, ks.length = ops.length ∧
        (List.range ops.length).map (fun i => ((schedule s (serial t ks)).calls (t + i)).pc) =
          (seqRets s.absMap ops).map Pc.done := by
  induction ops with
  | nil => exact fun _ _ _ _ => ⟨[], rfl, rfl⟩
  | cons op ops ih =>
    intro s t hr hidle hlt hcalls
    obtain ⟨⟨order, hs⟩, hc⟩ := hr.counted
    obtain ⟨hpc, hop⟩ := hcalls 0 op (by simp)
    rw [Nat.add_zero] at hpc hop
    obtain ⟨k, hret, habs, -, hsize, hothers⟩ :=
      hs.start_solo hpc (hop ▸ hkeys op (List.mem_cons_self _ _)) fun _ _ _ => hlt
    rw [hop] at hret habs hsize
    -- a doubling stays below the number of entries
    have hlt' : (solo s t k).size < 2 ^ 63 := by
      have hcount : s.count ≤ 2 ^ 63 :=
        hc.count_eq_entries hs (fun u _ => hidle u) ▸ hs.entries_le
      rw [hsize, Op.sizeAfter]
      split
      · split_ifs with hgt
        · rw [loadFactor] at hgt; omega
        · exact hlt
      · exact hlt
    have hidle' : ∀ u, ((solo s t k).calls u).pc.isIdle = true := fun u => by
      rcases eq_or_ne u t with rfl | hu
      · rw [hret]; rfl
      · rw [hothers u hu]; exact hidle u
    obtain ⟨ks, hlen, hks⟩ := ih (fun o ho => hkeys o (List.mem_cons_of_mem _ ho))
      (s := solo s t k) (t := t + 1) (hr.schedule _) hidle' hlt' fun i o hi => by
        rw [hothers _ (by omega), Nat.add_right_comm]; exact hcalls (i + 1) o (by rwa [List.getElem?_cons_succ])
    refine ⟨k :: ks, by simp [hlen], ?_⟩
    rw [List.length_cons, List.range_succ_eq_map, List.map_cons, List.map_map, schedule_serial,
      seqRets, List.map_cons, ← habs, ← hks,
      schedule_calls_of_not_mem fun hm => absurd (le_of_mem_serial hm) (by omega), Nat.add_zero, hret]
    congr 1
    exact List.map_congr_left fun i _ => by rw [show t + 1 + i = t + i.succ by omega]; rfl

theorem absMap_init (ops : List (Op V)) : (init ops).absMap = fun _ => none := by
  funext k
  simp [State.absMap, init]

/-- One thread's calls on `SplitOrderedList::new()`, with keys `assert_valid_key`
admits, each run until it returns: every call returns what the sequential map
returns, from the empty map, whatever doublings of `size` and sentinel
insertions happen on the way. -/
theorem splitOrdered_sequential (ops : List (Op V)) (hkeys : ∀ op ∈ ops, op.key < hiMask) :
    ∃ ks : List Nat, ks.length = ops.length ∧
      (List.range ops.length).map (fun t => ((schedule (init ops) (serial 0 ks)).calls t).pc) =
        (seqRets (fun _ => none) ops).map Pc.done := by
  obtain ⟨ks, hlen, h⟩ := serial_seq hkeys (s := init ops) (t := 0) (.initial ops)
    (fun u => by simp only [init]; split <;> rfl) (by simp [init])
    fun i op hi => by simp [init, hi]
  exact ⟨ks, hlen, by simpa [absMap_init] using h⟩

theorem splitOrdered_sequential_run :
    (∀ op ∈ ([.insert 5 7, .lookup 5, .delete 5, .lookup 5] : List (Op Nat)), op.key < hiMask) ∧
      ∃ ks : List Nat, ks.length = 4 ∧
        (List.range 4).map (fun t => ((schedule (init ([.insert 5 7, .lookup 5, .delete 5,
          .lookup 5] : List (Op Nat))) (serial 0 ks)).calls t).pc) =
          [.done (.insert (.ok ())), .done (.lookup (some 7)), .done (.delete (.ok 7)),
            .done (.lookup none)] :=
  have hkeys : ∀ op ∈ ([.insert 5 7, .lookup 5, .delete 5, .lookup 5] : List (Op Nat)),
      op.key < hiMask := by decide
  ⟨hkeys, by
    obtain ⟨ks, hlen, h⟩ := splitOrdered_sequential _ hkeys
    exact ⟨ks, hlen, h.trans rfl⟩⟩

end Concur.SplitOrdered
