import Concur.SplitOrdered.Descent

/-! # `lookup_bucket` run alone

Run without interference, `lookup_bucket(b)` returns: at once from a published
trie slot, and otherwise after its recursion to the parent (or a read of the
list head), one search with at most one cleanup CAS, at most one sentinel
insert and one publication CAS. So it takes at most `7 * (count_ones(b) + 1)`
steps. What it leaves behind is a `SoloEffect`: every node keeps its key, value
and mark, the new nodes are unmarked sentinels of buckets on `b`'s parent chain
that no unmarked node stood for, only null trie slots of that chain are
written, and the map, `size`, `count` and `log` are unchanged. The cleanup CAS
of a search may still unlink marked nodes, which the map does not see.
-/

namespace Concur.SplitOrdered

open Function
open Concur.ListSet (Link InChain inChain_self)
open Concur.GrowableArray (usizeSize)

variable {V : Type*} {s s' s₁ s₂ : State V} {order order' : List Nat}

/-- The state after call `t` takes `k` steps alone. -/
def solo (s : State V) (t k : Nat) : State V := schedule s (List.replicate k t)

theorem solo_succ (s : State V) (t k : Nat) : solo s t (k + 1) = solo (step s t) t k := rfl

theorem solo_one (s : State V) (t : Nat) : solo s t 1 = step s t := rfl

theorem solo_add (s : State V) (t k l : Nat) : solo s t (k + l) = solo (solo s t k) t l := by
  simp only [solo, schedule, List.replicate_add, List.foldl_append]

theorem setPc_call (s : State V) (t : Nat) (pc : Pc V) :
    (s.setPc t pc).calls t = { s.calls t with pc := pc } := by
  simp [State.setPc]

@[simp] theorem setPc_pc (s : State V) (t : Nat) (pc : Pc V) : ((s.setPc t pc).calls t).pc = pc := by
  simp [setPc_call]

@[simp] theorem setPc_size (s : State V) (t : Nat) (pc : Pc V) : (s.setPc t pc).size = s.size := rfl

@[simp] theorem setPc_head (s : State V) (t : Nat) (pc : Pc V) : (s.setPc t pc).head = s.head := rfl

@[simp] theorem setPc_count (s : State V) (t : Nat) (pc : Pc V) : (s.setPc t pc).count = s.count := rfl

@[simp] theorem setPc_absMap (s : State V) (t : Nat) (pc : Pc V) :
    (s.setPc t pc).absMap = s.absMap := rfl

@[simp] theorem setCall_absMap (s : State V) (t : Nat) (c : Call V) :
    (s.setCall t c).absMap = s.absMap := rfl

@[simp] theorem setCall_size (s : State V) (t : Nat) (c : Call V) : (s.setCall t c).size = s.size :=
  rfl

@[simp] theorem absMap_setCount (s : State V) (c : Nat) :
    ({ s with count := c } : State V).absMap = s.absMap := rfl

theorem setPc_other (s : State V) {t u : Nat} (pc : Pc V) (hu : u ≠ t) :
    (s.setPc t pc).calls u = s.calls u := by
  simp [State.setPc, hu]

theorem Shape.keep_solo (hs : Shape s order) (t k : Nat) : ∃ order', Shape (solo s t k) order' := by
  induction k generalizing s order with
  | zero => exact ⟨order, hs⟩
  | succ k ih =>
    obtain ⟨order', hs'⟩ := (shapedStep hs t).1
    exact ih hs'

/-- The cell `prev` of `cursor` still holds `curr`, and a `next` cell is that
of an unmarked node: a CAS of `prev` from `curr` succeeds. -/
def CurrOk (s : State V) (cursor : Cursor) : Prop :=
  match cursor.prev with
  | .head => s.head = cursor.curr
  | .next p => ∃ node, s.nodes p = some node ∧ node.marked = false ∧ node.next = cursor.curr
  | .bucket i => s.buckets i = cursor.curr

theorem CurrOk.cas {cursor : Cursor} (h : CurrOk s cursor) (w : Option Nat) :
    ∃ s', s.cas cursor.prev cursor.curr w = some s' := by
  obtain ⟨_ | p | i, curr⟩ := cursor <;> simp only [CurrOk] at h
  · simp [State.cas, h]
  · obtain ⟨node, hp, hm, hn⟩ := h
    simp [State.cas, hp, hm, hn]
  · simp [State.cas, h]

theorem CurrOk.congr {cursor : Cursor} (h : CurrOk s cursor) (hh : s'.head = s.head)
    (hn : ∀ p, cursor.prev = .next p → s'.nodes p = s.nodes p)
    (hb : ∀ i, cursor.prev = .bucket i → s'.buckets i = s.buckets i) : CurrOk s' cursor := by
  obtain ⟨_ | p | i, curr⟩ := cursor
  · exact hh.trans h
  · show ∃ node, s'.nodes p = some node ∧ _
    rw [hn p rfl]
    exact h
  · exact (hb i rfl).trans h

theorem CurrOk.setPc {cursor : Cursor} (h : CurrOk s cursor) (t : Nat) (pc : Pc V) :
    CurrOk (s.setPc t pc) cursor :=
  h.congr rfl (fun _ _ => rfl) fun _ _ => rfl

theorem traverse_currOk {key fuel : Nat} {start : Cursor} {prev : Loc}
    {prevNext curr : Option Nat} {found : Bool}
    (h : traverse s.nodes key fuel start.prev start.curr start.curr =
      some (prev, prevNext, curr, found)) (hc : CurrOk s start) : CurrOk s ⟨prev, prevNext⟩ := by
  rcases (traverse_spec h).2 with ⟨rfl, rfl, -⟩ | ⟨p, node, rfl, hp, hm, -, hn, -⟩
  · exact hc
  · exact ⟨node, hp, hm, hn⟩

theorem cas_currOk {prev : Loc} {e w : Option Nat} (hc : s.cas prev e w = some s') :
    CurrOk s' ⟨prev, w⟩ := by
  rcases cas_eq_some hc with ⟨rfl, -, rfl⟩ | ⟨p, node, rfl, -, hm, -, rfl⟩ | ⟨i, rfl, -, rfl⟩
  · rfl
  · exact ⟨_, update_same _ _ _, hm, rfl⟩
  · exact update_same _ _ _

theorem Heap.insertAt_currOk (h : Heap s order) {cursor : Cursor} {key N : Nat}
    {value : Option V} (hi : s.insertAt cursor key value = some (s', N)) :
    CurrOk s' ⟨cursor.prev, some N⟩ := by
  obtain ⟨s₁, hc, rfl, rfl⟩ := insertAt_eq_some hi
  have h₁ := cas_currOk hc
  refine h₁.congr rfl (fun p hp => update_noteq ?_ _ _) (fun _ _ => rfl)
  rintro rfl
  rw [hp] at h₁
  obtain ⟨node, hnode, -⟩ := h₁
  exact (cas_ne_none hc).mp (by simp [hnode]) h.fresh

/-- `curr` is an unmarked sentinel with list-key `key`. -/
def SentinelAt (s : State V) (key : Nat) (curr : Option Nat) : Prop :=
  ∃ n node, curr = some n ∧ s.nodes n = some node ∧ node.key = key ∧ node.value = none ∧
    node.marked = false

theorem SentinelAt.grows (hg : Grows s s') (h' : Heap s' order') {key : Nat} {curr : Option Nat}
    (h : SentinelAt s key curr) : SentinelAt s' key curr := by
  obtain ⟨n, node, hc, hn, hk, hv, -⟩ := h
  obtain ⟨node', hn', hk', hv'⟩ := hg.keep hn
  exact ⟨n, node', hc, hn', hk'.trans hk, hv'.trans hv, (h'.sentinel n node' hn' (hv'.trans hv)).1⟩

theorem cas_keep {prev : Loc} {e w : Option Nat} (hc : s.cas prev e w = some s') {n : Nat}
    {node : Node V} (hn : s.nodes n = some node) :
    ∃ node', s'.nodes n = some node' ∧ node'.key = node.key ∧ node'.value = node.value ∧
      node'.marked = node.marked := by
  rcases cas_eq_some hc with ⟨-, -, rfl⟩ | ⟨p, nd, -, hp, -, -, rfl⟩ | ⟨i, -, -, rfl⟩
  · exact ⟨node, hn, rfl, rfl, rfl⟩
  · rcases eq_or_ne n p with rfl | hnp
    · rw [hp] at hn; cases hn
      exact ⟨_, update_same _ _ _, rfl, rfl, rfl⟩
    · exact ⟨node, (update_noteq hnp _ _).trans hn, rfl, rfl, rfl⟩
  · exact ⟨node, hn, rfl, rfl, rfl⟩

/-- What call `t`, running alone, did to the shared state when it may insert the
sentinels and publish the trie slots of the buckets `P`: every node keeps its
key, value and mark; each new node is an unmarked sentinel of a bucket of `P`
whose key no unmarked node had; only null trie slots of buckets of `P` are
written; the map, `size`, `count`, `log` and the other calls are as they were. -/
structure SoloEffect (P : Nat → Prop) (t : Nat) (s s' : State V) : Prop where
  nodes : ∀ n node, s.nodes n = some node → ∃ node', s'.nodes n = some node' ∧
    node'.key = node.key ∧ node'.value = node.value ∧ node'.marked = node.marked
  fresh : ∀ n node, s.nodes n = none → s'.nodes n = some node →
    node.value = none ∧ node.marked = false ∧ (∃ b, P b ∧ node.key = reverseBits b) ∧
      ∀ m nd, s.nodes m = some nd → nd.marked = false → nd.key ≠ node.key
  buckets : ∀ i, s'.buckets i ≠ s.buckets i → s.buckets i = none ∧ ∃ b, P b ∧ i = reverseBits b
  absMap : s'.absMap = s.absMap
  size : s'.size = s.size
  count : s'.count = s.count
  log : s'.log = s.log
  calls : ∀ u, u ≠ t → s'.calls u = s.calls u

namespace SoloEffect

variable {P Q : Nat → Prop} {t : Nat}

theorem refl (s : State V) : SoloEffect P t s s :=
  ⟨fun _ node h => ⟨node, h, rfl, rfl, rfl⟩, fun _ _ h h' => by simp [h] at h',
    fun _ h => absurd rfl h, rfl, rfl, rfl, rfl, fun _ _ => rfl⟩

theorem trans (h₁ : SoloEffect P t s s₁) (h₂ : SoloEffect P t s₁ s₂) : SoloEffect P t s s₂ := by
  refine ⟨fun n node hn => ?_, fun n node hn hn₂ => ?_, fun i hi => ?_, h₂.absMap.trans h₁.absMap,
    h₂.size.trans h₁.size, h₂.count.trans h₁.count, h₂.log.trans h₁.log,
    fun u hu => (h₂.calls u hu).trans (h₁.calls u hu)⟩
  · obtain ⟨node₁, hn₁, hk₁, hv₁, hm₁⟩ := h₁.nodes n node hn
    obtain ⟨node₂, hn₂, hk₂, hv₂, hm₂⟩ := h₂.nodes n node₁ hn₁
    exact ⟨node₂, hn₂, hk₂.trans hk₁, hv₂.trans hv₁, hm₂.trans hm₁⟩
  · rcases hn₁ : s₁.nodes n with _ | node₁
    · -- new in the second part: no node of `s` had its key unmarked
      obtain ⟨hv, hm, hb, habs⟩ := h₂.fresh n node hn₁ hn₂
      refine ⟨hv, hm, hb, fun m nd hmn hmm => ?_⟩
      obtain ⟨nd', hmn', hk', -, hm'⟩ := h₁.nodes m nd hmn
      exact hk' ▸ habs m nd' hmn' (hm'.trans hmm)
    · -- new in the first part, and kept by the second
      obtain ⟨hv, hm, ⟨b, hb, hk⟩, habs⟩ := h₁.fresh n node₁ hn hn₁
      obtain ⟨node₂, hn₂', hk₂, hv₂, hm₂⟩ := h₂.nodes n node₁ hn₁
      rw [hn₂] at hn₂'; cases hn₂'
      exact ⟨hv₂.trans hv, hm₂.trans hm, ⟨b, hb, hk₂.trans hk⟩, hk₂ ▸ habs⟩
  · by_cases h : s₁.buckets i = s.buckets i
    · obtain ⟨hnone, hb⟩ := h₂.buckets i (h ▸ hi)
      exact ⟨h ▸ hnone, hb⟩
    · exact h₁.buckets i h

theorem mono (h : SoloEffect P t s s') (hPQ : ∀ b, P b → Q b) : SoloEffect Q t s s' :=
  { h with
    fresh := fun n node hn hn' =>
      let ⟨hv, hm, ⟨b, hb, hk⟩, habs⟩ := h.fresh n node hn hn'
      ⟨hv, hm, ⟨b, hPQ b hb, hk⟩, habs⟩
    buckets := fun i hi =>
      let ⟨hnone, b, hb, hi'⟩ := h.buckets i hi
      ⟨hnone, b, hPQ b hb, hi'⟩ }

theorem setCall (h : SoloEffect P t s s') (c : Call V) : SoloEffect P t s (s'.setCall t c) :=
  { h with calls := fun u hu => by simp [hu, h.calls u hu] }

theorem setPc (h : SoloEffect P t s s') (pc : Pc V) : SoloEffect P t s (s'.setPc t pc) :=
  h.setCall _

theorem of_cas {prev : Loc} {e w : Option Nat} (hc : s.cas prev e w = some s')
    (hb : ∀ i, prev = .bucket i → e = none ∧ ∃ b, P b ∧ i = reverseBits b) :
    SoloEffect P t s s' := by
  obtain ⟨-, hsize, hcount, hcalls, -, hlog⟩ := cas_frame hc
  refine ⟨fun n node hn => cas_keep hc hn, fun n node hn hn' => ?_, fun i hi => ?_, absMap_cas hc,
    hsize, hcount, hlog, fun u _ => by rw [hcalls]⟩
  · exact absurd hn ((cas_ne_none hc).mp (by simp [hn']))
  · rcases cas_eq_some hc with ⟨rfl, -, rfl⟩ | ⟨p, node, rfl, -, -, -, rfl⟩ | ⟨j, rfl, he, rfl⟩
    · exact absurd rfl hi
    · exact absurd rfl hi
    · obtain ⟨rfl, hP⟩ := hb j rfl
      rcases eq_or_ne i j with rfl | hij
      · exact ⟨he, hP⟩
      · simp [hij] at hi

theorem of_insertAt (h : Heap s order) (h' : Heap s' order') {cursor : Cursor} {b N : Nat}
    (hi : s.insertAt cursor (reverseBits b) none = some (s', N))
    (hprev : ∀ i, cursor.prev ≠ .bucket i) (hP : P b)
    (habs : ∀ m nd, s.nodes m = some nd → nd.marked = false → nd.key ≠ reverseBits b) :
    SoloEffect P t s s' := by
  obtain ⟨s₁, hc, rfl, rfl⟩ := insertAt_eq_some hi
  have h₁ : SoloEffect P t s s₁ := of_cas hc fun i hi => absurd hi (hprev i)
  refine ⟨fun n node hn => ?_, fun n node hn hn' => ?_, h₁.buckets, h.absMap_insertAt_none h' hi,
    h₁.size, h₁.count, h₁.log, h₁.calls⟩
  · have hne : n ≠ s.nnodes := by rintro rfl; simp [h.fresh] at hn
    obtain ⟨node', hn', hrest⟩ := h₁.nodes n node hn
    exact ⟨node', (update_noteq hne _ _).trans hn', hrest⟩
  · rcases eq_or_ne n s.nnodes with rfl | hne
    · simp only [update_same, Option.some.injEq] at hn'
      subst hn'
      exact ⟨rfl, rfl, ⟨b, hP, rfl⟩, habs⟩
    · simp only [update_noteq hne] at hn'
      exact h₁.fresh n node hn hn'

end SoloEffect

theorem Heap.key_lt (h : Heap s order) {n : Nat} {node : Node V} (hn : s.nodes n = some node) :
    node.key < 2 ^ usizeSize := by
  rcases hv : node.value with _ | v
  · obtain ⟨-, b, -, hk⟩ := h.sentinel n node hn hv
    rw [hk]; exact reverseBits_lt b
  · obtain ⟨k, -, hk⟩ := h.data n node v hn hv
    rw [hk]; exact reverseBits_lt _

theorem Heap.traverse_ne_none (h : Heap s order) {key fuel : Nat} {prev : Loc}
    {prevNext curr : Option Nat} (hf : 0 < fuel)
    (hc : ∀ c, curr = some c → ∃ node, s.nodes c = some node ∧ 2 ^ usizeSize < node.key + fuel) :
    traverse s.nodes key fuel prev prevNext curr ≠ none := by
  induction fuel generalizing prev prevNext curr with
  | zero => exact absurd hf (lt_irrefl 0)
  | succ fuel ih =>
    rcases curr with _ | c
    · simp [traverse]
    obtain ⟨node, hn, hk⟩ := hc c rfl
    have hlt := h.key_lt hn
    have hnext : ∀ m, node.next = some m →
        ∃ node', s.nodes m = some node' ∧ 2 ^ usizeSize < node'.key + fuel := fun m hm => by
      obtain ⟨node', hn', hlt'⟩ := h.edge c node m hn hm
      exact ⟨node', hn', by omega⟩
    simp only [traverse, hn]
    split_ifs
    · exact ih (by omega) hnext
    · exact ih (by omega) hnext
    · simp

theorem Heap.traverse_isSome (h : Heap s order) {key : Nat} {start : Cursor}
    (hc : ∀ p, start.curr = some p → s.nodes p ≠ none) :
    ∃ r, traverse s.nodes key findFuel start.prev start.curr start.curr = some r :=
  Option.ne_none_iff_exists'.mp <| h.traverse_ne_none (by simp [findFuel]) fun p hp => by
    obtain ⟨node, hn⟩ := Option.ne_none_iff_exists'.mp (hc p hp)
    exact ⟨node, hn, by rw [findFuel]; omega⟩

theorem Heap.search_head (h : Heap s order) {key : Nat} {prev : Loc} {prevNext curr : Option Nat}
    (hr : traverse s.nodes key findFuel .head s.head s.head = some (prev, prevNext, curr, false)) :
    ∀ n node, s.nodes n = some node → node.marked = false → node.key ≠ key := by
  obtain ⟨hstop, hpath⟩ := traverse_spec hr
  rcases hpath with ⟨-, -, xs, hxs⟩ | ⟨q, nq, -, hq, hqm, hqk, hqn, xs, hxs⟩
  · exact fun n node hn hm => h.absent (inChain_self _ _) (by rintro _ ⟨⟩) hxs hstop hn hm
  · exact fun n node hn hm => h.absent (.inr ⟨q, h.mem_of_unmarked hq hqm, rfl⟩)
      (by rintro _ ⟨⟩; exact ⟨nq.key, by simp [State.nodeKey, hq], hqk⟩)
      (by simpa [State.linkVal, hq, hqn] using hxs) hstop hn hm

section Steps

variable {t b : Nat} {pending : List Nat}

theorem step_lbRead_some {p : Nat} (hpc : (s.calls t).pc = .lbRead b pending)
    (hbk : s.buckets (reverseBits b) = some p) :
    step s t = s.setPc t (retTo ⟨.bucket (reverseBits b), some p⟩ pending) := by
  simp only [step, hpc, hbk]

theorem step_lbRead_none (hpc : (s.calls t).pc = .lbRead b pending)
    (hbk : s.buckets (reverseBits b) = none) : step s t = s.setPc t (.lbSize b pending) := by
  simp only [step, hpc, hbk]

theorem step_lbSize (hpc : (s.calls t).pc = .lbSize b pending) :
    step s t = s.setPc t (if lookupParent s.size b = 0 then .lbHead b pending
      else .lbRead (lookupParent s.size b) (b :: pending)) := by
  simp only [step, hpc]
  split_ifs <;> rfl

theorem step_lbHead (hpc : (s.calls t).pc = .lbHead b pending) :
    step s t = s.setPc t (.traverse (.sentinel b pending) ⟨.head, s.head⟩) := by
  simp only [step, hpc]

end Steps

/-- Call `t`'s `lookup_bucket(b)`, begun in `s`, has returned `cursor` in `s'`
to the buckets `pending` waiting for it: the cursor's cell still holds the
unmarked sentinel of `b`, and the run did no more than a `SoloEffect` for `P`. -/
structure Returned (P : Nat → Prop) (t b : Nat) (pending : List Nat) (s s' : State V)
    (cursor : Cursor) : Prop where
  call : s'.calls t = { s.calls t with pc := retTo cursor pending }
  effect : SoloEffect P t s s'
  currOk : CurrOk s' cursor
  sentinel : SentinelAt s' (reverseBits b) cursor.curr

theorem Returned.mono {P Q : Nat → Prop} {t b : Nat} {pending : List Nat} {cursor : Cursor}
    (h : Returned P t b pending s s' cursor) (hPQ : ∀ b, P b → Q b) :
    Returned Q t b pending s s' cursor :=
  ⟨h.call, h.effect.mono hPQ, h.currOk, h.sentinel⟩

theorem Returned.of_effect {P : Nat → Prop} {t b : Nat} {pending : List Nat} {cursor : Cursor}
    {pc : Pc V} (h₁ : SoloEffect P t s s₁) (hcall : s₁.calls t = { s.calls t with pc := pc })
    (h : Returned P t b pending s₁ s₂ cursor) : Returned P t b pending s s₂ cursor :=
  ⟨by rw [h.call, hcall], h₁.trans h.effect, h.currOk, h.sentinel⟩

section Phases

variable {t b : Nat} {pending : List Nat} (hs : Shape s order)
include hs

theorem Shape.publish_solo {cursor : Cursor} (hpc : (s.calls t).pc = .publish b pending cursor)
    (hcur : CurrOk s cursor) (hsen : SentinelAt s (reverseBits b) cursor.curr) :
    Returned (· = b) t b pending s (step s t) cursor := by
  have hc := hs.calls t
  simp only [CallShape, hpc] at hc
  have hprev := hc.2.2.2.2.1.ne_bucket
  simp only [step, hpc]
  rcases hcas : s.cas (.bucket (reverseBits b)) none cursor.curr with _ | s₁ <;> dsimp only
  · exact ⟨setPc_call .., (SoloEffect.refl s).setPc _, hcur, hsen⟩
  · have heff : SoloEffect (· = b) t s s₁ :=
      .of_cas hcas fun i hi => ⟨rfl, b, rfl, (Loc.bucket.inj hi).symm⟩
    rcases cas_eq_some hcas with ⟨⟨⟩, -⟩ | ⟨p, node, ⟨⟩, -⟩ | ⟨j, -, -, rfl⟩
    exact ⟨setPc_call .., heff.setPc _,
      hcur.congr rfl (fun _ _ => rfl) fun i hi => absurd hi (hprev i), hsen⟩

theorem Shape.sentinelInsert_solo {start cursor : Cursor}
    (hpc : (s.calls t).pc = .sentinelInsert b pending start cursor) (hcur : CurrOk s cursor)
    (habs : ∀ n node, s.nodes n = some node → node.marked = false → node.key ≠ reverseBits b) :
    ∃ N, (step s t).calls t = { s.calls t with pc := .publish b pending ⟨cursor.prev, some N⟩ } ∧
      SoloEffect (· = b) t s (step s t) ∧ CurrOk (step s t) ⟨cursor.prev, some N⟩ ∧
      SentinelAt (step s t) (reverseBits b) (some N) := by
  have hc := hs.calls t
  simp only [CallShape, hpc] at hc
  obtain ⟨-, hsize, hb, -, -, hpos⟩ := hc
  obtain ⟨s₁, hcas⟩ := hcur.cas (some s.nnodes)
  simp only [step, hpc]
  rcases hins : s.insertAt cursor (reverseBits b) none with _ | ⟨s₂, N⟩
  · simp [State.insertAt, hcas] at hins
  dsimp only
  obtain ⟨⟨order', hh⟩, -⟩ := hs.heap.insertAt hins hpos
    (fun _ => ⟨b, hb.trans_le hsize.le_hiMask, rfl⟩) (fun _ hv => by cases hv)
  exact ⟨N, by rw [setPc_call, (insertAt_frame hins).2.2.2.1],
    (SoloEffect.of_insertAt (P := (· = b)) hs.heap hh hins hpos.1.ne_bucket rfl habs).setPc _,
    (hs.heap.insertAt_currOk hins).setPc .., ⟨N, _, rfl, (insertAt_frame hins).1, rfl, rfl, rfl⟩⟩

/-- A search run alone, with its cleanup CAS when it passed marked nodes: within
two steps the call goes where the result of `find_harris` sends it, at a
cursor whose cell holds its node, having found an unmarked node with the key
exactly when there is one. -/
theorem Shape.search_solo {target : Target} {start : Cursor}
    (hpc : (s.calls t).pc = .traverse target start) (hcur : CurrOk s start)
    (hstart : start.prev = .head ∨ SentinelStart s.nodes start (target.key (s.calls t).op.key)) :
    ∃ k prev curr found, k ≤ 2 ∧
      (solo s t k).calls t = { s.calls t with
        pc := (solo s t k).afterFind (s.calls t) target start ⟨prev, curr⟩ found } ∧
      SoloEffect (fun _ => False) t s (solo s t k) ∧ CurrOk (solo s t k) ⟨prev, curr⟩ ∧
      (found = true → ∃ n node, curr = some n ∧ (solo s t k).nodes n = some node ∧
        node.marked = false ∧ node.key = target.key (s.calls t).op.key) ∧
      (found = false → ∀ n node, (solo s t k).nodes n = some node → node.marked = false →
        node.key ≠ target.key (s.calls t).op.key) := by
  have hc := hs.calls t
  simp only [CallShape, hpc] at hc
  obtain ⟨-, -, -, hstartOk⟩ := hc
  obtain ⟨⟨prev, prevNext, curr, found⟩, hr⟩ :
      ∃ r, traverse s.nodes (target.key (s.calls t).op.key) findFuel start.prev start.curr
        start.curr = some r :=
    hs.heap.traverse_isSome hstartOk.2.2
  have hprev := (hs.heap.traverse_stop hstartOk hr).1.ne_bucket
  have hcur₁ : CurrOk s ⟨prev, prevNext⟩ := traverse_currOk hr hcur
  -- what the search saw: an unmarked node with the key, or that there is none
  have hfound : found = true → ∃ n node, curr = some n ∧ s.nodes n = some node ∧
      node.marked = false ∧ node.key = target.key (s.calls t).op.key := by
    rintro rfl
    rcases (traverse_spec hr).1 with ⟨-, ⟨⟩⟩ | ⟨c, node, hc, hn, hm, -, hk⟩
    exact ⟨c, node, hc, hn, hm, hk.mp rfl⟩
  have habs : found = false → ∀ n node, s.nodes n = some node → node.marked = false →
      node.key ≠ target.key (s.calls t).op.key := by
    rintro rfl
    rcases hstart with hh | hsent
    · obtain ⟨_, curr₀⟩ := start
      cases hh
      cases (hcur : s.head = curr₀)
      exact hs.heap.search_head hr
    · exact (hs.heap.search hsent hr).2 rfl
  have hstep : step s t = if prevNext = curr then
      s.setPc t (s.afterFind (s.calls t) target start ⟨prev, curr⟩ found)
      else s.setPc t (.cleanup target start prev prevNext curr found) := by
    simp only [step, hpc, hr]
  by_cases hpn : prevNext = curr
  · refine ⟨1, prev, curr, found, by omega, ?_⟩
    rw [solo_succ, hstep, if_pos hpn]
    exact ⟨setPc_call .., (SoloEffect.refl s).setPc _, (hpn ▸ hcur₁).setPc .., hfound, habs⟩
  · -- the cleanup CAS swings `prev` past the marked nodes
    set s' := s.setPc t (.cleanup target start prev prevNext curr found)
    obtain ⟨s₁, hcas⟩ := (hcur₁.setPc t _ : CurrOk s' _).cas curr
    have heff : SoloEffect (fun _ => False) t s s₁ :=
      ((SoloEffect.refl s).setPc _).trans (.of_cas hcas fun i hi => absurd hi (hprev i))
    refine ⟨2, prev, curr, found, le_rfl, ?_⟩
    have h₂ : solo s t 2 =
        s₁.setPc t (s₁.afterFind (s.calls t) target start ⟨prev, curr⟩ found) := by
      show step (step s t) t = _
      rw [hstep, if_neg hpn]
      simp only [step, s', setPc_call, hcas]
      rfl
    rw [h₂]
    refine ⟨by rw [setPc_call, (cas_frame hcas).2.2.2.1, setPc_call]; rfl, heff.setPc _,
      (cas_currOk hcas).setPc .., fun hf => ?_, fun hf n node hn hm => ?_⟩
    · obtain ⟨n, node, hc, hn, hm, hk⟩ := hfound hf
      obtain ⟨node', hn', hk', -, hm'⟩ := heff.nodes n node hn
      exact ⟨n, node', hc, hn', hm'.trans hm, hk'.trans hk⟩
    · obtain ⟨old, hold, hk, -, hm'⟩ := cas_nodes hcas hn
      exact hk ▸ habs hf n old hold (hm' ▸ hm)

theorem Shape.findSentinel_solo {start : Cursor}
    (hpc : (s.calls t).pc = .traverse (.sentinel b pending) start) (hcur : CurrOk s start)
    (hstart : start.prev = .head ∨ SentinelStart s.nodes start (reverseBits b)) :
    ∃ k cursor, k ≤ 4 ∧ Returned (· = b) t b pending s (solo s t k) cursor := by
  have hc := hs.calls t
  simp only [CallShape, hpc, Target.Ok] at hc
  obtain ⟨-, hsize, ⟨hb, -⟩, -⟩ := hc
  obtain ⟨k, prev, curr, found, hk, hcall, heff, hcur₁, hfound, habs⟩ :=
    hs.search_solo hpc hcur hstart
  have heff' : SoloEffect (· = b) t s (solo s t k) := heff.mono fun _ => False.elim
  obtain ⟨order₁, hs₁⟩ := hs.keep_solo t k
  cases found
  · -- the sentinel is not there: link it in, then publish it
    obtain ⟨N, hcall₂, heff₂, hcur₂, hsen₂⟩ :=
      hs₁.sentinelInsert_solo (by rw [hcall]; rfl) hcur₁ (habs rfl)
    obtain ⟨order₂, hs₂⟩ := (shapedStep hs₁ t).1
    refine ⟨k + 2, ⟨prev, some N⟩, by omega, ?_⟩
    rw [solo_add]
    exact .of_effect heff' hcall
      (.of_effect heff₂ hcall₂ (hs₂.publish_solo (by rw [hcall₂]) hcur₂ hsen₂))
  · obtain ⟨n, node, hc, hn, hm, hkey⟩ := hfound rfl
    have hsen : SentinelAt (solo s t k) (reverseBits b) curr :=
      ⟨n, node, hc, hn, hkey, hs₁.heap.value_eq_none hn (hb.trans_le hsize.le_hiMask) hkey, hm⟩
    refine ⟨k + 1, ⟨prev, curr⟩, by omega, ?_⟩
    rw [solo_add]
    exact .of_effect heff' hcall (hs₁.publish_solo (by rw [hcall]; rfl) hcur₁ hsen)

end Phases

/-- The buckets whose `lookup_bucket` the call for `b` may run under `size`:
`b` itself and, when the parent is not `0` (whose search starts at the list
head instead), the parent's. -/
inductive LookupChain (size : Nat) : Nat → Nat → Prop
  | self (b : Nat) : LookupChain size b b
  | parent {b b' : Nat} : lookupParent size b ≠ 0 → LookupChain size (lookupParent size b) b' →
      LookupChain size b b'

/-- `lookup_bucket(b)`, run alone from its start, returns within
`7 * (count_ones(b) + 1)` steps at the unmarked sentinel of `b`, having done no
more than insert and publish sentinels of the buckets on its chain. -/
theorem Shape.lookupBucket_solo (hs : Shape s order) {t b : Nat} {pending : List Nat}
    (hpc : (s.calls t).pc = .lbRead b pending) :
    ∃ k cursor, k ≤ 7 * (countOnes b + 1) ∧
      Returned (LookupChain s.size b) t b pending s (solo s t k) cursor := by
  induction b using Nat.strong_induction_on generalizing s order pending with
  | _ b ih =>
  have hc := hs.calls t
  simp only [CallShape, hpc] at hc
  obtain ⟨-, hsize, hb, -⟩ := hc
  have hself : ∀ b', b' = b → LookupChain s.size b b' := by rintro _ rfl; exact .self _
  rcases hbk : s.buckets (reverseBits b) with _ | p
  swap
  · -- a published slot: its sentinel's cursor at once
    obtain ⟨node, hp, hv, hk⟩ := hs.heap.bucket _ p hbk
    refine ⟨1, ⟨.bucket (reverseBits b), some p⟩, by omega, ?_⟩
    rw [solo_succ, step_lbRead_some hpc hbk]
    exact ⟨setPc_call .., (SoloEffect.refl s).setPc _, hbk, p, node, rfl, hp, hk, hv,
      (hs.heap.sentinel p node hp hv).1⟩
  -- a null slot: search from the parent's sentinel, or from the list head
  have h₁ := step_lbRead_none hpc hbk
  have h₂ := step_lbSize (setPc_pc s t (.lbSize b pending))
  rw [setPc_size] at h₂
  by_cases hp0 : lookupParent s.size b = 0
  · rw [if_pos hp0] at h₂
    set s₃ := ((s.setPc t (.lbSize b pending)).setPc t (.lbHead b pending)).setPc t
      (.traverse (.sentinel b pending) ⟨.head, s.head⟩)
    have h₃ : solo s t 3 = s₃ := by
      rw [solo_succ, h₁, solo_succ, h₂, solo_succ, step_lbHead (setPc_pc ..)]; rfl
    obtain ⟨order₃, hs₃⟩ := hs.keep_solo t 3
    rw [h₃] at hs₃
    obtain ⟨k, cursor, hk, hret⟩ := hs₃.findSentinel_solo (setPc_pc ..) rfl (.inl rfl)
    have hcall : s₃.calls t =
        { s.calls t with pc := .traverse (.sentinel b pending) ⟨.head, s.head⟩ } := by
      simp only [s₃, setPc_call]
    refine ⟨3 + k, cursor, by omega, ?_⟩
    rw [solo_add, h₃]
    exact .of_effect ((((SoloEffect.refl s).setPc _).setPc _).setPc _) hcall (hret.mono hself)
  · rw [if_neg hp0] at h₂
    set s₂ := (s.setPc t (.lbSize b pending)).setPc t (.lbRead (lookupParent s.size b) (b :: pending))
    have h₂' : solo s t 2 = s₂ := by rw [solo_succ, h₁, solo_succ, h₂]; rfl
    obtain ⟨order₂, hs₂⟩ := hs.keep_solo t 2
    rw [h₂'] at hs₂
    -- the parent is `b` with its top bit cleared: smaller, with an earlier sentinel
    obtain ⟨-, hrev⟩ := hs.heap.lookupParent_lt hsize hb hp0
    have hb0 : 0 < b := Nat.pos_of_ne_zero fun h0 => hp0 (by simp [lookupParent, h0])
    obtain ⟨m, -, hm, hms⟩ := hs.heap.size
    have hbs : b < 2 ^ m := by
      obtain ⟨j, -, -, -, hjs⟩ := hsize
      exact hms ▸ hb.trans_le hjs
    have hpar : lookupParent s.size b = b - 2 ^ Nat.log 2 b := by
      rw [hms]; exact lookupParent_eq hb0 (by omega) hbs
    have hcount : countOnes (lookupParent s.size b) + 1 = countOnes b :=
      hpar ▸ countOnes_clear_top hb0
        (hbs.trans_le (Nat.pow_le_pow_right (by norm_num) (by rw [usizeSize]; omega)))
    obtain ⟨k₁, cursor₁, hk₁, hret₁⟩ :=
      ih _ (hpar ▸ Nat.sub_lt hb0 (Nat.two_pow_pos _)) hs₂ (setPc_pc ..)
    obtain ⟨order₃, hs₃⟩ := hs₂.keep_solo t k₁
    have hstart : SentinelStart (solo s₂ t k₁).nodes cursor₁ (reverseBits b) := by
      obtain ⟨n, node, hc, hn, hk, hv, -⟩ := hret₁.sentinel
      exact ⟨n, node, hc, hn, hv, hk.trans_lt hrev⟩
    obtain ⟨k₂, cursor, hk₂, hret₂⟩ :=
      hs₃.findSentinel_solo (by rw [hret₁.call]; rfl) hret₁.currOk (.inr hstart)
    have hcall : s₂.calls t =
        { s.calls t with pc := .lbRead (lookupParent s.size b) (b :: pending) } := by
      simp only [s₂, setPc_call]
    refine ⟨2 + k₁ + k₂, cursor, by omega, ?_⟩
    rw [solo_add, solo_add, h₂']
    exact .of_effect (((SoloEffect.refl s).setPc _).setPc _) hcall
      (.of_effect (hret₁.effect.mono fun b' h => .parent hp0 h) hret₁.call (hret₂.mono hself))

end Concur.SplitOrdered
