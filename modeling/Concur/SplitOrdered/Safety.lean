import Concur.SplitOrdered.Shape

/-! # Every reachable state of the split-ordered list has its shape

One lemma per kind of step says what the stepping call knows next; the heap
lemmas of `Shape` say what its write does to the shared state, and
`CallShape.grows` carries the other calls' facts along. By induction over runs
the shape holds in every reachable state, and trie slots, once written, keep
their sentinel for the rest of the run.
-/

namespace Concur.SplitOrdered

open Function
open Concur.ListSet (Link Chain InChain inChain_self)
open Concur.GrowableArray (usizeSize)

variable {V : Type*} {s s₁ : State V} {order order' : List Nat}

theorem SizeOk.le_hiMask {size : Nat} (h : SizeOk s size) : size ≤ hiMask := by
  obtain ⟨j, -, hj, rfl, -⟩ := h
  exact Nat.pow_le_pow_right (by norm_num) hj

theorem Heap.sizeOk (h : Heap s order) : SizeOk s s.size :=
  let ⟨j, h1, h2, hj⟩ := h.size
  ⟨j, h1, h2, hj, le_rfl⟩

theorem Heap.alloc_of_mem (h : Heap s order) {n : Nat} (hn : n ∈ order) : s.nodes n ≠ none :=
  fun hnone => by
    obtain ⟨v, hv, -⟩ := h.chain.data_of_mem hn
    simp [State.nodeKey, hnone] at hv

theorem Stop.stopKey {nodes : Nat → Option (Node V)} {key : Nat} {curr : Option Nat}
    {found : Bool} (h : Stop nodes key curr found) : StopKey nodes key curr found :=
  h.imp id fun ⟨c, node, hc, hn, _, hk, hf⟩ => ⟨c, node, hc, hn, hk, hf⟩

theorem StopKey.insertPos {nodes : Nat → Option (Node V)} {key : Nat} {prev : Loc}
    {curr : Option Nat} (hprev : PrevOk nodes prev key) (h : StopKey nodes key curr false) :
    InsertPos nodes ⟨prev, curr⟩ key := by
  refine ⟨hprev, h.imp (fun h => h.1) fun ⟨c, node, hc, hn, hk, hf⟩ => ⟨c, node, hc, hn, ?_⟩⟩
  exact lt_of_le_of_ne hk fun he => by simp [he] at hf

theorem StopKey.found {nodes : Nat → Option (Node V)} {key : Nat} {curr : Option Nat}
    (h : StopKey nodes key curr true) :
    ∃ n node, curr = some n ∧ nodes n = some node ∧ node.key = key := by
  rcases h with ⟨-, ⟨⟩⟩ | ⟨n, node, hc, hn, -, hf⟩
  exact ⟨n, node, hc, hn, hf.mp rfl⟩

theorem PrevOk.startOk {nodes : Nat → Option (Node V)} {cursor : Cursor} {κ₀ κ : Nat}
    (hp : PrevOk nodes cursor.prev κ₀) (hc : ∀ p, cursor.curr = some p → nodes p ≠ none)
    (hlt : κ₀ < κ) : StartOk nodes cursor κ := by
  refine ⟨fun i hi => absurd hi (hp.ne_bucket i), fun p hpp => ?_, hc⟩
  rcases hp with hh | ⟨q, node, hq, hn, hk⟩
  · rw [hh] at hpp; cases hpp
  · rw [hq] at hpp; cases hpp
    exact ⟨node, hn, hk.trans hlt⟩

theorem Heap.startOk_bucket (h : Heap s order) {i p κ : Nat} (hi : s.buckets i = some p)
    (hlt : i < κ) : StartOk s.nodes ⟨.bucket i, some p⟩ κ := by
  obtain ⟨node, hp, hv, hk⟩ := h.bucket i p hi
  refine ⟨fun j hj => ?_, fun q hq => (by cases hq), fun q hq => ?_⟩
  · cases hj
    exact ⟨p, node, rfl, hp, hv, hk, hlt⟩
  · cases hq
    simp [hp]

theorem Heap.startOk_head (h : Heap s order) (κ : Nat) : StartOk s.nodes ⟨.head, s.head⟩ κ := by
  refine ⟨fun i hi => (by cases hi), fun q hq => (by cases hq), fun p hp => ?_⟩
  exact h.alloc_of_mem (h.chain.mem_of_val (inChain_self _ _) hp)

theorem Heap.lookupParent_lt (h : Heap s order) {size b : Nat} (hsize : SizeOk s size)
    (hb : b < size) (hp : lookupParent s.size b ≠ 0) :
    lookupParent s.size b < size ∧ reverseBits (lookupParent s.size b) < reverseBits b := by
  have hbi : b < hiMask := hb.trans_le hsize.le_hiMask
  obtain ⟨m, -, hm, hms⟩ := h.size
  obtain ⟨j, -, -, rfl, hjs⟩ := hsize
  have hb0 : 0 < b := Nat.pos_of_ne_zero fun h0 => hp (by simp [lookupParent, h0])
  rw [hms, lookupParent_eq hb0 (by omega) (by omega)] at hp ⊢
  exact ⟨(Nat.sub_le _ _).trans_lt hb, reverseBits_clear_top_lt hb0 hbi⟩

theorem Heap.callShape_afterFind (h : Heap s order) {c : Call V} {target : Target}
    {start : Cursor} {prev : Loc} {curr : Option Nat} {found : Bool}
    (hkey : c.op.key < hiMask) (hsize : SizeOk s c.size) (htarget : target.Ok c.op.key c.size)
    (hstart : StartOk s.nodes start (target.key c.op.key))
    (hprev : PrevOk s.nodes prev (target.key c.op.key))
    (hstop : StopKey s.nodes (target.key c.op.key) curr found) :
    CallShape s { c with pc := s.afterFind c target start ⟨prev, curr⟩ found } := by
  cases target with
  | sentinel b pending =>
    obtain ⟨hb, hpend⟩ := htarget
    cases found
    · exact ⟨hkey, hsize, hb, hpend, hstart, hstop.insertPos hprev⟩
    · obtain ⟨p, node, rfl, hp, hk⟩ := hstop.found
      exact ⟨hkey, hsize, hb, hpend, hprev, p, node, rfl, hp,
        h.value_eq_none hp (hb.trans_le hsize.le_hiMask) hk, hk⟩
  | content =>
    rcases hop : c.op with k | ⟨k, v⟩ | k <;> cases found <;>
      simp only [State.afterFind, hop, Op.key, Bool.false_eq_true, if_false, if_true]
        at hkey hprev hstop ⊢
    case lookup.true => split <;> trivial
    case insert.false => exact ⟨hkey, hsize, hstop.insertPos hprev⟩
    case delete.true =>
      obtain ⟨n, node, rfl, hn, hk⟩ := hstop.found
      exact ⟨hprev, n, node, rfl, hn, hkey, hk⟩
    all_goals trivial

theorem Heap.traverse_stop (h : Heap s order) {key : Nat} {start : Cursor} {prev : Loc}
    {prevNext curr : Option Nat} {found : Bool} (hstart : StartOk s.nodes start key)
    (hr : traverse s.nodes key findFuel start.prev start.curr start.curr =
      some (prev, prevNext, curr, found)) :
    PrevOk s.nodes prev key ∧ (∃ xs, MarkedPath s.nodes prevNext curr xs) ∧
      StopKey s.nodes key curr found := by
  obtain ⟨hstop, hpath⟩ := traverse_spec hr
  refine ⟨?_, ?_, hstop.stopKey⟩
  · rcases hpath with ⟨rfl, -, xs, hxs⟩ | ⟨p, node, rfl, hp, -, hk, -⟩
    · rcases hprev : start.prev with _ | p | i
      · exact .inl rfl
      · obtain ⟨node, hp, hk⟩ := hstart.2.1 p hprev
        exact .inr ⟨p, node, rfl, hp, hk⟩
      · -- from a trie slot the search never stays: its sentinel is unmarked and below `key`
        obtain ⟨p, node, hc, hp, hv, rfl, hlt⟩ := hstart.1 i hprev
        rw [hc] at hxs
        cases xs with
        | nil =>
          rcases hstop with ⟨hcn, -⟩ | ⟨c, node', hc', hn', -, hk', -⟩
          · rw [hcn] at hxs; cases hxs
          · rw [← hxs] at hc'; cases hc'
            rw [hp] at hn'; cases hn'
            exact absurd hk' (not_le.mpr hlt)
        | cons x xs =>
          obtain ⟨hx, node', hn', hm, -⟩ := hxs
          cases hx
          rw [hp] at hn'; cases hn'
          simp [(h.sentinel p node hp hv).1] at hm
    · exact .inr ⟨p, node, rfl, hp, hk⟩
  · rcases hpath with ⟨-, rfl, hxs⟩ | ⟨-, -, -, -, -, -, -, hxs⟩
    exacts [hxs, hxs]

theorem callShape_retTo {c : Call V} {cursor : Cursor} {b : Nat} {pending : List Nat}
    (hkey : c.op.key < hiMask) (hsize : SizeOk s c.size)
    (hpend : Pending c.op.key c.size b pending)
    (hstart : ∀ κ, reverseBits b < κ → StartOk s.nodes cursor κ) :
    CallShape s { c with pc := retTo cursor pending } := by
  cases pending with
  | nil =>
    obtain ⟨j, hj1, hj, hsz, hle⟩ := hsize
    refine ⟨hkey, ⟨j, hj1, hj, hsz, hle⟩, trivial, hstart _ ?_⟩
    rw [show b = c.op.key % 2 ^ j from hsz ▸ hpend]
    exact reverseBits_lt_makeContentKey hkey hj
  | cons b' rest => exact ⟨hkey, hsize, ⟨hpend.2.1, hpend.2.2⟩, hstart _ hpend.1⟩

/-- The step from `s` to `s'` keeps the shape and only grows the shared state. -/
def ShapedStep (s s' : State V) : Prop := (∃ order, Shape s' order) ∧ Grows s s'

theorem Shape.next (hs : Shape s order) (hh : Heap s₁ order') (hg : Grows s s₁)
    (hcalls : s₁.calls = s.calls) {t : Nat} {c : Call V} (hc : CallShape s₁ c) :
    ShapedStep s (s₁.setCall t c) := by
  have hg' : Grows s₁ (s₁.setCall t c) := .of_nodes rfl rfl le_rfl
  refine ⟨⟨order', hh.congr rfl rfl rfl rfl rfl, fun u => ?_⟩, hg.trans hg'⟩
  rcases eq_or_ne u t with rfl | hu
  · simpa [State.setCall] using hc.grows hg'
  · simpa [State.setCall, hu, hcalls] using ((hs.calls u).grows hg).grows hg'

theorem Shape.nextPc (hs : Shape s order) (hh : Heap s₁ order') (hg : Grows s s₁)
    (hcalls : s₁.calls = s.calls) {t : Nat} {pc : Pc V}
    (hc : CallShape s₁ { s.calls t with pc := pc }) : ShapedStep s (s₁.setPc t pc) := by
  rw [State.setPc, hcalls]
  exact hs.next hh hg hcalls hc

theorem Shape.setPc (hs : Shape s order) {t : Nat} {pc : Pc V}
    (hc : CallShape s { s.calls t with pc := pc }) : ShapedStep s (s.setPc t pc) :=
  hs.nextPc hs.heap (.refl s) rfl hc

theorem Shape.stay (hs : Shape s order) : ShapedStep s s := ⟨⟨order, hs⟩, .refl s⟩

theorem Shape.setCount (hs : Shape s order) {t count : Nat} {pc : Pc V}
    (hc : CallShape s { s.calls t with pc := pc }) :
    ShapedStep s ({ s with count := count }.setPc t pc) := by
  have hh : Heap { s with count := count } order := hs.heap.congr rfl rfl rfl rfl rfl
  exact hs.nextPc hh (.of_nodes rfl rfl le_rfl) rfl (hc.grows (.of_nodes rfl rfl le_rfl))

section Steps

variable {t : Nat} (hs : Shape s order)
include hs

theorem shapedStep_start (hpc : (s.calls t).pc = .start) : ShapedStep s (step s t) := by
  simp only [step, hpc]
  split_ifs with hv
  · exact hs.next hs.heap (.refl s) rfl (by simpa [CallShape, validKey] using hv)
  · exact hs.setPc trivial

theorem shapedStep_find (hpc : (s.calls t).pc = .find) : ShapedStep s (step s t) := by
  have hc := hs.calls t
  simp only [CallShape, hpc] at hc
  simp only [step, hpc]
  split_ifs with h0
  · exact hs.setPc trivial
  · exact hs.next hs.heap (.refl s) rfl
      ⟨hc, hs.heap.sizeOk, Nat.mod_lt _ (Nat.pos_of_ne_zero h0), rfl⟩

theorem shapedStep_lbRead {b : Nat} {pending : List Nat} (hpc : (s.calls t).pc = .lbRead b pending) :
    ShapedStep s (step s t) := by
  have hc := hs.calls t
  simp only [CallShape, hpc] at hc
  obtain ⟨hkey, hsize, hb, hpend⟩ := hc
  simp only [step, hpc]
  rcases hbk : s.buckets (reverseBits b) with _ | p
  · exact hs.setPc ⟨hkey, hsize, hb, hpend⟩
  · exact hs.setPc (callShape_retTo hkey hsize hpend fun κ hκ => hs.heap.startOk_bucket hbk hκ)

theorem shapedStep_lbSize {b : Nat} {pending : List Nat} (hpc : (s.calls t).pc = .lbSize b pending) :
    ShapedStep s (step s t) := by
  have hc := hs.calls t
  simp only [CallShape, hpc] at hc
  obtain ⟨hkey, hsize, hb, hpend⟩ := hc
  simp only [step, hpc]
  split_ifs with hp0
  · exact hs.setPc ⟨hkey, hsize, hb, hpend⟩
  · obtain ⟨hlt, hrev⟩ := hs.heap.lookupParent_lt hsize hb hp0
    exact hs.setPc ⟨hkey, hsize, hlt, hrev, hb, hpend⟩

theorem shapedStep_lbHead {b : Nat} {pending : List Nat} (hpc : (s.calls t).pc = .lbHead b pending) :
    ShapedStep s (step s t) := by
  have hc := hs.calls t
  simp only [CallShape, hpc] at hc
  obtain ⟨hkey, hsize, hb, hpend⟩ := hc
  simp only [step, hpc]
  exact hs.setPc ⟨hkey, hsize, ⟨hb, hpend⟩, hs.heap.startOk_head _⟩

theorem shapedStep_traverse {target : Target} {start : Cursor}
    (hpc : (s.calls t).pc = .traverse target start) : ShapedStep s (step s t) := by
  have hc := hs.calls t
  simp only [CallShape, hpc] at hc
  obtain ⟨hkey, hsize, htarget, hstart⟩ := hc
  simp only [step, hpc]
  rcases hr : traverse s.nodes (target.key (s.calls t).op.key) findFuel start.prev start.curr
    start.curr with _ | ⟨prev, prevNext, curr, found⟩
  · exact hs.stay
  · obtain ⟨hprev, hpath, hstop⟩ := hs.heap.traverse_stop hstart hr
    dsimp only
    split_ifs
    · exact hs.setPc (hs.heap.callShape_afterFind hkey hsize htarget hstart hprev hstop)
    · exact hs.setPc ⟨hkey, hsize, htarget, hstart, hprev, hpath, hstop⟩

theorem shapedStep_cleanup {target : Target} {start : Cursor} {prev : Loc}
    {prevNext curr : Option Nat} {found : Bool}
    (hpc : (s.calls t).pc = .cleanup target start prev prevNext curr found) :
    ShapedStep s (step s t) := by
  have hc := hs.calls t
  simp only [CallShape, hpc] at hc
  obtain ⟨hkey, hsize, htarget, hstart, hprev, ⟨xs, hxs⟩, hstop⟩ := hc
  simp only [step, hpc]
  rcases hcas : s.cas prev prevNext curr with _ | s₁
  · exact hs.setPc ⟨hkey, hsize, htarget, hstart⟩
  · obtain ⟨order', hh⟩ := hs.heap.casList hcas hprev.ne_bucket hxs
    have hg := cas_grows hcas fun i hi => absurd hi (hprev.ne_bucket i)
    exact hs.nextPc hh hg (cas_frame hcas).2.2.2.1 (hh.callShape_afterFind hkey (hsize.grows hg)
      htarget (hstart.grows hg) (hprev.grows hg) (hstop.grows hg))

theorem shapedStep_sentinelInsert {b : Nat} {pending : List Nat} {start cursor : Cursor}
    (hpc : (s.calls t).pc = .sentinelInsert b pending start cursor) : ShapedStep s (step s t) := by
  have hc := hs.calls t
  simp only [CallShape, hpc] at hc
  obtain ⟨hkey, hsize, hb, hpend, hstart, hpos⟩ := hc
  simp only [step, hpc]
  rcases hins : s.insertAt cursor (reverseBits b) none with _ | ⟨s₁, n⟩
  · exact hs.setPc ⟨hkey, hsize, ⟨hb, hpend⟩, hstart⟩
  · obtain ⟨⟨order', hh⟩, hg⟩ := hs.heap.insertAt hins hpos
      (fun _ => ⟨b, hb.trans_le hsize.le_hiMask, rfl⟩) (fun _ hv => by cases hv)
    obtain ⟨hnew, -, -, hcalls, -⟩ := insertAt_frame hins
    exact hs.nextPc hh hg hcalls
      ⟨hkey, hsize.grows hg, hb, hpend, hpos.1.grows hg, n, _, rfl, hnew, rfl, rfl⟩

theorem shapedStep_publish {b : Nat} {pending : List Nat} {cursor : Cursor}
    (hpc : (s.calls t).pc = .publish b pending cursor) : ShapedStep s (step s t) := by
  have hc := hs.calls t
  simp only [CallShape, hpc] at hc
  obtain ⟨hkey, hsize, hb, hpend, hprev, p, node, hcur, hp, hv, hk⟩ := hc
  have hstart : ∀ {s₁ : State V}, Grows s s₁ → ∀ κ, reverseBits b < κ →
      StartOk s₁.nodes cursor κ := fun hg κ hκ =>
    (hprev.grows hg).startOk (fun q hq => hg.ne_none (by rw [hcur] at hq; cases hq; simp [hp])) hκ
  simp only [step, hpc]
  rcases hcas : s.cas (.bucket (reverseBits b)) none cursor.curr with _ | s₁
  · exact hs.setPc (callShape_retTo hkey hsize hpend (hstart (.refl s)))
  · have hh := hs.heap.casBucket hcas fun q hq => by
      rw [hcur] at hq; cases hq; exact ⟨node, hp, hv, hk⟩
    have hg := cas_grows hcas fun _ _ => rfl
    exact hs.nextPc hh hg (cas_frame hcas).2.2.2.1
      (callShape_retTo hkey (hsize.grows hg) hpend (hstart hg))

theorem shapedStep_insertCas {cursor : Cursor} (hpc : (s.calls t).pc = .insertCas cursor) :
    ShapedStep s (step s t) := by
  have hc := hs.calls t
  simp only [CallShape, hpc] at hc
  obtain ⟨hkey, hsize, hpos⟩ := hc
  simp only [step, hpc]
  rcases hop : (s.calls t).op with k | ⟨k, v⟩ | k
  · exact hs.stay
  · have hk : k < hiMask := by simpa [hop, Op.key] using hkey
    rw [hop, Op.key] at hpos
    rcases hins : s.insertAt cursor (makeContentKey k) (some v) with _ | ⟨s₁, n⟩ <;>
      simp only [hins]
    · exact hs.setPc hkey
    · obtain ⟨⟨order', hh⟩, hg⟩ := hs.heap.insertAt hins hpos (fun hv => by cases hv)
        fun _ _ => ⟨k, hk, rfl⟩
      have hh' : Heap { s₁ with log := s.log ++ [(t, k, some v)] } order' :=
        hh.congr rfl rfl rfl rfl rfl
      have hg' : Grows s { s₁ with log := s.log ++ [(t, k, some v)] } :=
        hg.trans (.of_nodes rfl rfl le_rfl)
      exact hs.nextPc hh' hg' (insertAt_frame hins).2.2.2.1 (hsize.grows hg')
  · exact hs.stay

theorem shapedStep_fetchAdd (hpc : (s.calls t).pc = .fetchAdd) : ShapedStep s (step s t) := by
  have hc := hs.calls t
  simp only [CallShape, hpc] at hc
  simp only [step, hpc]
  split_ifs with hover
  · exact hs.setCount trivial
  · exact hs.setCount ⟨hc, not_le.mp hover⟩
  · exact hs.setCount trivial

theorem shapedStep_sizeCas (hpc : (s.calls t).pc = .sizeCas) : ShapedStep s (step s t) := by
  have hc := hs.calls t
  simp only [CallShape, hpc] at hc
  simp only [step, hpc]
  split_ifs with heq
  · have hh : Heap { s with size := (s.calls t).size * 2 } order := by
      rw [← heq]; exact hs.heap.double (heq ▸ hc.2)
    exact hs.nextPc hh (.of_nodes rfl rfl (show s.size ≤ (s.calls t).size * 2 by omega)) rfl trivial
  · exact hs.setPc trivial

theorem shapedStep_mark {cursor : Cursor} (hpc : (s.calls t).pc = .mark cursor) :
    ShapedStep s (step s t) := by
  have hc := hs.calls t
  simp only [CallShape, hpc] at hc
  obtain ⟨hprev, n, node, hcur, hn, hkey, hk⟩ := hc
  simp only [step, hpc, hcur, hn]
  split_ifs with hm
  · exact hs.setPc trivial
  · have hh : Heap { s.setMark n node with log := s.log ++ [(t, (s.calls t).op.key, none)] } order :=
      (hs.heap.setMark hn (hs.heap.value_ne_none hn hkey hk)).congr rfl rfl rfl rfl rfl
    have hg : Grows s { s.setMark n node with log := s.log ++ [(t, (s.calls t).op.key, none)] } :=
      (grows_setMark hn).trans (.of_nodes rfl rfl le_rfl)
    exact hs.nextPc hh hg rfl ⟨hprev.grows hg, n, _, hcur, update_same _ _ _, rfl, rfl⟩

theorem shapedStep_unlink {cursor : Cursor} {next : Option Nat} {value : Option V}
    (hpc : (s.calls t).pc = .unlink cursor next value) : ShapedStep s (step s t) := by
  have hc := hs.calls t
  simp only [CallShape, hpc] at hc
  obtain ⟨hprev, n, node, hcur, hn, hm, hnext⟩ := hc
  simp only [step, hpc]
  rcases hcas : s.cas cursor.prev cursor.curr next with _ | s₁
  · exact hs.setPc trivial
  · have hpath : MarkedPath s.nodes cursor.curr next [n] := ⟨hcur, node, hn, hm, hnext⟩
    obtain ⟨order', hh⟩ := hs.heap.casList hcas hprev.ne_bucket hpath
    exact hs.nextPc hh (cas_grows hcas fun i hi => absurd hi (hprev.ne_bucket i))
      (cas_frame hcas).2.2.2.1 trivial

theorem shapedStep_fetchSub {value : Option V} (hpc : (s.calls t).pc = .fetchSub value) :
    ShapedStep s (step s t) := by
  simp only [step, hpc]
  cases value
  · exact hs.setCount trivial
  · exact hs.setCount trivial

end Steps

theorem shapedStep (hs : Shape s order) (t : Nat) : ShapedStep s (step s t) := by
  rcases hpc : (s.calls t).pc with _ | _ | ⟨b, pending⟩ | ⟨b, pending⟩ | ⟨b, pending⟩ |
    ⟨target, start⟩ | ⟨target, start, prev, prevNext, curr, found⟩ | ⟨b, pending, start, cursor⟩ |
    ⟨b, pending, cursor⟩ | cursor | _ | _ | cursor | ⟨cursor, next, value⟩ | value | r | _
  · exact shapedStep_start hs hpc
  · exact shapedStep_find hs hpc
  · exact shapedStep_lbRead hs hpc
  · exact shapedStep_lbSize hs hpc
  · exact shapedStep_lbHead hs hpc
  · exact shapedStep_traverse hs hpc
  · exact shapedStep_cleanup hs hpc
  · exact shapedStep_sentinelInsert hs hpc
  · exact shapedStep_publish hs hpc
  · exact shapedStep_insertCas hs hpc
  · exact shapedStep_fetchAdd hs hpc
  · exact shapedStep_sizeCas hs hpc
  · exact shapedStep_mark hs hpc
  · exact shapedStep_unlink hs hpc
  · exact shapedStep_fetchSub hs hpc
  all_goals
    simp only [step, hpc]
    exact hs.stay

theorem shape_init (ops : List (Op V)) : Shape (init ops) [] where
  heap :=
    { chain := rfl
      alloc := fun n => by simp [init]
      edge := fun _ _ _ h => nomatch h
      sentinel := fun _ _ h => nomatch h
      data := fun _ _ _ h => nomatch h
      offChain := fun _ _ h => nomatch h
      bucket := fun _ _ h => nomatch h
      size := ⟨1, le_rfl, by norm_num, rfl⟩ }
  calls t := by rcases ht : ops[t]? with _ | op <;> simp [CallShape, init, ht]

theorem Reachable.shape (hr : Reachable s) : ∃ order, Shape s order := by
  induction hr with
  | initial ops => exact ⟨[], shape_init ops⟩
  | step t _ ih =>
    obtain ⟨order, hs⟩ := ih
    exact (shapedStep hs t).1

theorem Shape.grows_schedule (hs : Shape s order) (sched : List Nat) :
    Grows s (schedule s sched) := by
  induction sched generalizing s order with
  | nil => exact .refl s
  | cons t rest ih =>
    obtain ⟨⟨order', hs'⟩, hg⟩ := shapedStep hs t
    exact hg.trans (ih hs')

/-- The list cell whose CAS the call's next step may try: `prev` of the cleanup
in `find_harris`, or `prev` of the cursor it inserts or unlinks at. -/
def Pc.listCell : Pc V → Option Loc
  | .cleanup _ _ prev _ _ _ => some prev
  | .sentinelInsert _ _ _ cursor => some cursor.prev
  | .insertCas cursor => some cursor.prev
  | .unlink cursor _ _ => some cursor.prev
  | _ => none

/-- What holds of the list and its trie in every reachable state. -/
structure WellShaped (s : State V) : Prop where
  /-- The nodes reachable from `head` are sorted by list-key, strictly
  increasing, and every unmarked node is among them. -/
  sorted : ∃ order, Chain s.linkVal s.nodeKey .head ⊥ order ∧
    (order.filterMap s.nodeKey).Sorted (· < ·) ∧
    ∀ n node, s.nodes n = some node → node.marked = false → n ∈ order
  /-- A node is a sentinel (value `None`) exactly when its list-key is even. -/
  sentinel_iff : ∀ n node, s.nodes n = some node → (node.value = none ↔ node.key % 2 = 0)
  /-- Sentinels are never marked. -/
  sentinel_unmarked : ∀ n node, s.nodes n = some node → node.value = none →
    node.marked = false
  /-- No two unmarked nodes share a list-key. -/
  key_unique : ∀ n m node node', s.nodes n = some node → s.nodes m = some node' →
    node.marked = false → node'.marked = false → node.key = node'.key → n = m
  /-- A node holds a value exactly when its list-key is the content key of a
  valid user key. -/
  data_iff : ∀ n node, s.nodes n = some node →
    ((∃ v, node.value = some v) ↔ ∃ k < hiMask, node.key = makeContentKey k)
  /-- A non-null trie slot points to the sentinel with the slot's index as
  list-key, and keeps pointing to it for the rest of any run. -/
  bucket : ∀ i p, s.buckets i = some p →
    (∃ node, s.nodes p = some node ∧ node.value = none ∧ node.key = i) ∧
      ∀ sched, (schedule s sched).buckets i = some p
  /-- No call is about to CAS a trie slot as a list cell. -/
  no_slot_cas : ∀ t l, (s.calls t).pc.listCell = some l → ∀ i, l ≠ .bucket i

theorem Shape.no_slot_cas (hs : Shape s order) (t : Nat) {l : Loc}
    (hl : (s.calls t).pc.listCell = some l) : ∀ i, l ≠ .bucket i := by
  have hc := hs.calls t
  rcases hpc : (s.calls t).pc <;> simp only [Pc.listCell, hpc] at hl <;> cases hl <;>
    simp only [CallShape, hpc] at hc
  case cleanup => exact hc.2.2.2.2.1.ne_bucket
  case sentinelInsert => exact hc.2.2.2.2.2.1.ne_bucket
  case insertCas => exact hc.2.2.1.ne_bucket
  case unlink => exact hc.1.ne_bucket

theorem Shape.wellShaped (hs : Shape s order) : WellShaped s := by
  have h := hs.heap
  have hmem : ∀ n node, s.nodes n = some node → node.marked = false → n ∈ order :=
    fun n node hn hm => h.mem_of_unmarked hn hm
  refine ⟨⟨order, h.chain, h.chain.sorted, hmem⟩, fun n node hn => ?_,
    fun n node hn hv => (h.sentinel n node hn hv).1, fun n m node node' hn hm hu hu' hk => ?_,
    fun n node hn => ?_, fun i p hi => ⟨h.bucket i p hi, fun sched => ?_⟩, hs.no_slot_cas⟩
  · rcases hv : node.value with _ | v
    · obtain ⟨-, b, hb, hk⟩ := h.sentinel n node hn hv
      exact ⟨fun _ => hk ▸ reverseBits_mod_two hb, fun _ => rfl⟩
    · obtain ⟨k, hk, hkey⟩ := h.data n node v hn hv
      simp [hkey, makeContentKey_mod_two hk]
  · exact chain_eq_of_data_eq h.chain (hmem n node hn hu) (hmem m node' hm hu')
      (by simp [State.nodeKey, hn, hm, hk])
  · refine ⟨fun ⟨v, hv⟩ => h.data n node v hn hv, fun ⟨k, hk, hkey⟩ => ?_⟩
    exact Option.ne_none_iff_exists'.mp (h.value_ne_none hn hk hkey)
  · exact (hs.grows_schedule sched).buckets i p hi

/-- Every reachable state of the split-ordered list is well shaped. -/
theorem splitOrdered_wellShaped (hr : Reachable s) : WellShaped s :=
  let ⟨_, hs⟩ := hr.shape
  hs.wellShaped

theorem splitOrdered_wellShaped_run :
    WellShaped (schedule (init [.insert 3 (7 : Nat), .insert 5 8, .delete 3])
      [0, 1, 2, 0, 1, 2, 0, 1, 2, 0, 1, 2, 0, 1, 2]) :=
  splitOrdered_wellShaped ((Reachable.initial _).schedule _)

end Concur.SplitOrdered
