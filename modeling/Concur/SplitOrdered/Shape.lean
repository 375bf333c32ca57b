import Concur.SplitOrdered.Traverse
import Concur.ListSet.Chain

/-! # The shape of the split-ordered list

In every reachable state the pointers from `head` form a chain sorted by
list-key, every `next` pointer leads to a larger key, the nodes off the chain
are marked, sentinels carry the key `reverse_bits(b)` of a bucket and are never
marked, data nodes carry `make_content_key(k)` of a valid key, and a non-null
trie slot points to the sentinel with its index as key. Each call knows, at
its program counter, where its cursors stand (`CallShape`); in particular no
list CAS is ever tried through a trie slot.

The shared state only `Grows`: nodes keep key and value, marks stay, a marked
node's `next` is frozen, trie slots are written once, and `size` never
decreases. The calls' facts are stable under such changes, so a step of one
call leaves the facts of the others true.
-/

namespace Concur.SplitOrdered

open Function
open Concur.ListSet (Link Chain InChain Slot inChain_self inChain_cons insertAtLink insertAtLink_perm)
open Concur.GrowableArray (usizeSize)

variable {V : Type*}

namespace State

/-- The pointer in a list link. -/
def linkVal (s : State V) : Link → Option Nat
  | .head => s.head
  | .next n => (s.nodes n).bind Node.next

/-- The list-key of a node. -/
def nodeKey (s : State V) (n : Nat) : Option Nat := (s.nodes n).map Node.key

end State

/-- `prev` is `head`, or the `next` of a node below `key`. -/
def PrevOk (nodes : Nat → Option (Node V)) (prev : Loc) (key : Nat) : Prop :=
  prev = .head ∨ ∃ p node, prev = .next p ∧ nodes p = some node ∧ node.key < key

/-- A search for `key` may start at `start`: from a trie slot only at a
sentinel with that index below `key`, and from a list cell as `PrevOk` says. -/
def StartOk (nodes : Nat → Option (Node V)) (start : Cursor) (key : Nat) : Prop :=
  (∀ i, start.prev = .bucket i → ∃ p node, start.curr = some p ∧ nodes p = some node ∧
    node.value = none ∧ node.key = i ∧ i < key) ∧
  (∀ p, start.prev = .next p → ∃ node, nodes p = some node ∧ node.key < key) ∧
  ∀ p, start.curr = some p → nodes p ≠ none

/-- A node with `key` may be linked in at `cursor`. -/
def InsertPos (nodes : Nat → Option (Node V)) (cursor : Cursor) (key : Nat) : Prop :=
  PrevOk nodes cursor.prev key ∧
    (cursor.curr = none ∨ ∃ c node, cursor.curr = some c ∧ nodes c = some node ∧ key < node.key)

/-- What of `Stop` stays true: the search stopped at null or at a node not
below `key`, found exactly when its key is `key`. -/
def StopKey (nodes : Nat → Option (Node V)) (key : Nat) (curr : Option Nat) (found : Bool) :
    Prop :=
  curr = none ∧ found = false ∨
    ∃ c node, curr = some c ∧ nodes c = some node ∧ key ≤ node.key ∧ (found = true ↔ node.key = key)

/-- The buckets waiting in the recursion of `lookup_bucket` for bucket `b`:
each waits for the one before, whose sentinel key is smaller, and the last is
the bucket of `key`. -/
def Pending (key size : Nat) : Nat → List Nat → Prop
  | b, [] => b = key % size
  | b, b' :: rest => reverseBits b < reverseBits b' ∧ b' < size ∧ Pending key size b' rest

/-- `size` is a power of two `2 ^ j` with `1 ≤ j ≤ 63`, at most the current `size`. -/
def SizeOk (s : State V) (size : Nat) : Prop :=
  ∃ j, 1 ≤ j ∧ j ≤ 63 ∧ size = 2 ^ j ∧ size ≤ s.size

def Target.Ok (key size : Nat) : Target → Prop
  | .sentinel b pending => b < size ∧ Pending key size b pending
  | .content => True

/-- What a call knows at its program counter. -/
def CallShape (s : State V) (c : Call V) : Prop :=
  match c.pc with
  | .start | .done _ | .panicked | .fetchSub _ => True
  | .find => c.op.key < hiMask
  | .lbRead b pending | .lbSize b pending | .lbHead b pending =>
    c.op.key < hiMask ∧ SizeOk s c.size ∧ b < c.size ∧ Pending c.op.key c.size b pending
  | .traverse target start =>
    c.op.key < hiMask ∧ SizeOk s c.size ∧ target.Ok c.op.key c.size ∧
      StartOk s.nodes start (target.key c.op.key)
  | .cleanup target start prev prevNext curr found =>
    c.op.key < hiMask ∧ SizeOk s c.size ∧ target.Ok c.op.key c.size ∧
      StartOk s.nodes start (target.key c.op.key) ∧ PrevOk s.nodes prev (target.key c.op.key) ∧
      (∃ xs, MarkedPath s.nodes prevNext curr xs) ∧ StopKey s.nodes (target.key c.op.key) curr found
  | .sentinelInsert b pending start cursor =>
    c.op.key < hiMask ∧ SizeOk s c.size ∧ b < c.size ∧ Pending c.op.key c.size b pending ∧
      StartOk s.nodes start (reverseBits b) ∧ InsertPos s.nodes cursor (reverseBits b)
  | .publish b pending cursor =>
    c.op.key < hiMask ∧ SizeOk s c.size ∧ b < c.size ∧ Pending c.op.key c.size b pending ∧
      PrevOk s.nodes cursor.prev (reverseBits b) ∧
      ∃ p node, cursor.curr = some p ∧ s.nodes p = some node ∧ node.value = none ∧
        node.key = reverseBits b
  | .insertCas cursor =>
    c.op.key < hiMask ∧ SizeOk s c.size ∧ InsertPos s.nodes cursor (makeContentKey c.op.key)
  | .fetchAdd => SizeOk s c.size
  | .sizeCas => SizeOk s c.size ∧ c.size * loadFactor < 2 ^ usizeSize
  | .mark cursor =>
    PrevOk s.nodes cursor.prev (makeContentKey c.op.key) ∧
      ∃ n node, cursor.curr = some n ∧ s.nodes n = some node ∧ c.op.key < hiMask ∧
        node.key = makeContentKey c.op.key
  | .unlink cursor next _ =>
    PrevOk s.nodes cursor.prev (makeContentKey c.op.key) ∧
      ∃ n node, cursor.curr = some n ∧ s.nodes n = some node ∧ node.marked = true ∧
        node.next = next

/-- The shared part of the invariant. -/
structure Heap (s : State V) (order : List Nat) : Prop where
  chain : Chain s.linkVal s.nodeKey .head ⊥ order
  alloc : ∀ n, s.nodes n ≠ none ↔ n < s.nnodes
  edge : ∀ n node m, s.nodes n = some node → node.next = some m →
    ∃ node', s.nodes m = some node' ∧ node.key < node'.key
  sentinel : ∀ n node, s.nodes n = some node → node.value = none →
    node.marked = false ∧ ∃ b < hiMask, node.key = reverseBits b
  data : ∀ n node v, s.nodes n = some node → node.value = some v →
    ∃ k < hiMask, node.key = makeContentKey k
  offChain : ∀ n node, s.nodes n = some node → n ∉ order → node.marked = true
  bucket : ∀ i p, s.buckets i = some p →
    ∃ node, s.nodes p = some node ∧ node.value = none ∧ node.key = i
  size : ∃ j, 1 ≤ j ∧ j ≤ 63 ∧ s.size = 2 ^ j

structure Shape (s : State V) (order : List Nat) : Prop where
  heap : Heap s order
  calls : ∀ t, CallShape s (s.calls t)

/-- How the shared state can change in a step. -/
structure Grows (s s' : State V) : Prop where
  nodes : ∀ n node, s.nodes n = some node → ∃ node', s'.nodes n = some node' ∧
    node'.key = node.key ∧ node'.value = node.value ∧
    (node.marked = true → node'.marked = true ∧ node'.next = node.next)
  buckets : ∀ i p, s.buckets i = some p → s'.buckets i = some p
  size : s.size ≤ s'.size

variable {s s' s'' : State V} {order : List Nat}

theorem Grows.refl (s : State V) : Grows s s :=
  ⟨fun _ node h => ⟨node, h, rfl, rfl, fun hm => ⟨hm, rfl⟩⟩, fun _ _ => id, le_rfl⟩

theorem Grows.trans (h : Grows s s') (h' : Grows s' s'') : Grows s s'' := by
  refine ⟨fun n node hn => ?_, fun i p hi => h'.buckets i p (h.buckets i p hi),
    h.size.trans h'.size⟩
  obtain ⟨node', hn', hk, hv, hm⟩ := h.nodes n node hn
  obtain ⟨node'', hn'', hk', hv', hm'⟩ := h'.nodes n node' hn'
  exact ⟨node'', hn'', hk'.trans hk, hv'.trans hv, fun hmk =>
    ⟨(hm' (hm hmk).1).1, (hm' (hm hmk).1).2.trans (hm hmk).2⟩⟩

theorem Grows.of_nodes (hn : s'.nodes = s.nodes) (hb : s'.buckets = s.buckets)
    (hs : s.size ≤ s'.size) : Grows s s' := by
  refine ⟨fun n node h => ?_, fun i p h => ?_, hs⟩
  · exact ⟨node, hn ▸ h, rfl, rfl, fun hm => ⟨hm, rfl⟩⟩
  · rwa [hb]

theorem cas_eq_some {prev : Loc} {e w : Option Nat} (h : s.cas prev e w = some s') :
    (prev = .head ∧ s.head = e ∧ s' = { s with head := w }) ∨
    (∃ p node, prev = .next p ∧ s.nodes p = some node ∧ node.marked = false ∧ node.next = e ∧
      s' = { s with nodes := update s.nodes p (some { node with next := w }) }) ∨
    (∃ i, prev = .bucket i ∧ s.buckets i = e ∧ s' = { s with buckets := update s.buckets i w }) := by
  cases prev with
  | head =>
    simp only [State.cas] at h
    split_ifs at h with he
    cases h; exact .inl ⟨rfl, he, rfl⟩
  | next p =>
    simp only [State.cas] at h
    split at h
    · rename_i node hp
      split_ifs at h with hc
      cases h
      exact .inr (.inl ⟨p, node, rfl, hp, by simpa using hc.1, hc.2, rfl⟩)
    · cases h
  | bucket i =>
    simp only [State.cas] at h
    split_ifs at h with he
    cases h; exact .inr (.inr ⟨i, rfl, he, rfl⟩)

theorem cas_grows {prev : Loc} {e w : Option Nat} (h : s.cas prev e w = some s')
    (hb : ∀ i, prev = .bucket i → e = none) : Grows s s' := by
  rcases cas_eq_some h with ⟨-, -, rfl⟩ | ⟨p, node, -, hp, hm, -, rfl⟩ | ⟨i, rfl, he, rfl⟩
  · exact Grows.of_nodes rfl rfl le_rfl
  · refine ⟨fun n node' hn => ?_, fun _ _ => id, le_rfl⟩
    by_cases hnp : n = p
    · subst hnp; rw [hp] at hn; cases hn
      exact ⟨_, update_same _ _ _, rfl, rfl, fun h => absurd h (by simp [hm])⟩
    · exact ⟨node', by simpa [hnp] using hn, rfl, rfl, fun hm' => ⟨hm', rfl⟩⟩
  · refine ⟨fun n node h => ⟨node, h, rfl, rfl, fun hm => ⟨hm, rfl⟩⟩, fun j p hj => ?_, le_rfl⟩
    by_cases hji : j = i
    · subst hji; rw [hb j rfl] at he; rw [he] at hj; cases hj
    · simpa [hji] using hj

variable {n : Nat} {node : Node V} {key : Nat} {prev : Loc} {cursor : Cursor}

theorem Grows.keep (h : Grows s s') (hn : s.nodes n = some node) :
    ∃ node', s'.nodes n = some node' ∧ node'.key = node.key ∧ node'.value = node.value :=
  let ⟨node', h', hk, hv, _⟩ := h.nodes n node hn
  ⟨node', h', hk, hv⟩

theorem Grows.ne_none (h : Grows s s') (hn : s.nodes n ≠ none) : s'.nodes n ≠ none := by
  obtain ⟨node, hn⟩ := Option.ne_none_iff_exists'.mp hn
  obtain ⟨node', h', -⟩ := h.keep hn
  simp [h']

theorem PrevOk.grows (h : Grows s s') (hp : PrevOk s.nodes prev key) : PrevOk s'.nodes prev key := by
  rcases hp with rfl | ⟨p, node, rfl, hn, hk⟩
  · exact .inl rfl
  · obtain ⟨node', h', hk', -⟩ := h.keep hn
    exact .inr ⟨p, node', rfl, h', hk' ▸ hk⟩

theorem StartOk.grows (h : Grows s s') (hp : StartOk s.nodes cursor key) :
    StartOk s'.nodes cursor key := by
  refine ⟨fun i hi => ?_, fun p hp' => ?_, fun p hc => h.ne_none (hp.2.2 p hc)⟩
  · obtain ⟨p, node, hc, hn, hv, hk, hik⟩ := hp.1 i hi
    obtain ⟨node', h', hk', hv'⟩ := h.keep hn
    exact ⟨p, node', hc, h', hv'.trans hv, hk'.trans hk, hik⟩
  · obtain ⟨node, hn, hk⟩ := hp.2.1 p hp'
    obtain ⟨node', h', hk', -⟩ := h.keep hn
    exact ⟨node', h', hk' ▸ hk⟩

theorem InsertPos.grows (h : Grows s s') (hp : InsertPos s.nodes cursor key) :
    InsertPos s'.nodes cursor key := by
  refine ⟨hp.1.grows h, hp.2.imp id fun ⟨c, node, hc, hn, hk⟩ => ?_⟩
  obtain ⟨node', h', hk', -⟩ := h.keep hn
  exact ⟨c, node', hc, h', hk' ▸ hk⟩

theorem StopKey.grows (h : Grows s s') {curr : Option Nat} {found : Bool}
    (hp : StopKey s.nodes key curr found) : StopKey s'.nodes key curr found := by
  refine hp.imp id fun ⟨c, node, hc, hn, hk, hf⟩ => ?_
  obtain ⟨node', h', hk', -⟩ := h.keep hn
  exact ⟨c, node', hc, h', hk' ▸ hk, hk' ▸ hf⟩

theorem MarkedPath.grows (h : Grows s s') {p q : Option Nat} {xs : List Nat}
    (hp : MarkedPath s.nodes p q xs) : MarkedPath s'.nodes p q xs := by
  induction xs generalizing p with
  | nil => exact hp
  | cons x xs ih =>
    obtain ⟨rfl, node, hn, hm, hxs⟩ := hp
    obtain ⟨node', h', -, -, hm'⟩ := h.nodes x node hn
    exact ⟨rfl, node', h', (hm' hm).1, (hm' hm).2 ▸ ih hxs⟩

theorem SizeOk.grows (h : Grows s s') {size : Nat} (hp : SizeOk s size) : SizeOk s' size :=
  let ⟨j, h1, h2, h3, h4⟩ := hp
  ⟨j, h1, h2, h3, h4.trans h.size⟩

theorem CallShape.grows (h : Grows s s') {c : Call V} (hc : CallShape s c) : CallShape s' c := by
  rcases hpc : c.pc with _ | _ | ⟨b, pending⟩ | ⟨b, pending⟩ | ⟨b, pending⟩ | ⟨target, start⟩ |
    ⟨target, start, prev, prevNext, curr, found⟩ | ⟨b, pending, start, cursor⟩ |
    ⟨b, pending, cursor⟩ | cursor | _ | _ | cursor | ⟨cursor, next, value⟩ | value | r | _ <;>
    simp only [CallShape, hpc] at hc ⊢
  case find => exact hc
  case lbRead | lbSize | lbHead => exact ⟨hc.1, hc.2.1.grows h, hc.2.2⟩
  case traverse => exact ⟨hc.1, hc.2.1.grows h, hc.2.2.1, hc.2.2.2.grows h⟩
  case cleanup =>
    obtain ⟨h1, h2, h3, h4, h5, ⟨xs, h6⟩, h7⟩ := hc
    exact ⟨h1, h2.grows h, h3, h4.grows h, h5.grows h, ⟨xs, h6.grows h⟩, h7.grows h⟩
  case sentinelInsert =>
    obtain ⟨h1, h2, h3, h4, h5, h6⟩ := hc
    exact ⟨h1, h2.grows h, h3, h4, h5.grows h, h6.grows h⟩
  case publish =>
    obtain ⟨h1, h2, h3, h4, h5, p, node, hc, hn, hv, hk⟩ := hc
    obtain ⟨node', h', hk', hv'⟩ := h.keep hn
    exact ⟨h1, h2.grows h, h3, h4, h5.grows h, p, node', hc, h', hv'.trans hv, hk'.trans hk⟩
  case insertCas => exact ⟨hc.1, hc.2.1.grows h, hc.2.2.grows h⟩
  case fetchAdd => exact hc.grows h
  case sizeCas => exact ⟨hc.1.grows h, hc.2⟩
  case mark =>
    obtain ⟨h1, n, node, hc, hn, hk, hkey⟩ := hc
    obtain ⟨node', h', hk', -⟩ := h.keep hn
    exact ⟨h1.grows h, n, node', hc, h', hk, hk'.trans hkey⟩
  case unlink =>
    obtain ⟨h1, n, node, hc, hn, hm, hnext⟩ := hc
    obtain ⟨node', h', -, -, hm'⟩ := h.nodes n node hn
    exact ⟨h1.grows h, n, node', hc, h', (hm' hm).1, (hm' hm).2.trans hnext⟩

section Chains

variable {val val' : Link → Option Nat} {data : Nat → Option Nat}

/-- The nodes `xs` lead by `val` from pointer `e` to pointer `w`. -/
def PathVal (val : Link → Option Nat) : Option Nat → Option Nat → List Nat → Prop
  | e, w, [] => e = w
  | e, w, y :: ys => e = some y ∧ PathVal val (val (.next y)) w ys

theorem PathVal.congr {e w : Option Nat} {xs : List Nat} (h : PathVal val e w xs)
    (hv : ∀ y ∈ xs, val' (.next y) = val (.next y)) : PathVal val' e w xs := by
  induction xs generalizing e with
  | nil => exact h
  | cons y ys ih =>
    refine ⟨h.1, ?_⟩
    rw [hv y (List.mem_cons_self _ _)]
    exact ih h.2 fun z hz => hv z (List.mem_cons_of_mem _ hz)

theorem chain_unlinkPath {x : Link} :
    ∀ {order : List Nat} {e w : Option Nat} {xs : List Nat} {val : Link → Option Nat},
      Chain val data .head ⊥ order → InChain .head order x → (∀ p, x = .next p → p ∉ xs) →
      val x = e → PathVal val e w xs →
      ∃ order', Chain (update val x w) data .head ⊥ order' ∧ ∀ n, n ∈ order' ↔ n ∈ order ∧ n ∉ xs
  | order, e, w, [], val, hc, _, _, he, hp => by
    refine ⟨order, ?_, fun n => by simp⟩
    rwa [show update val x w = val by rw [← hp, ← he, update_eq_self]]
  | order, e, w, y :: ys, val, hc, hx, hxs, he, ⟨hey, hp⟩ => by
    subst hey
    have hc' := hc.unlink hx he (by rintro _ ⟨⟩)
    have hx' : InChain .head (order.erase y) x := by
      rcases hx with rfl | ⟨m, hm, rfl⟩
      · exact inChain_self _ _
      · refine .inr ⟨m, (List.mem_erase_of_ne fun h => hxs m rfl ?_).mpr hm, rfl⟩
        rw [h]; exact List.mem_cons_self _ _
    obtain ⟨order', hc'', hmem⟩ := chain_unlinkPath hc' hx'
      (fun p hp hm => hxs p hp (List.mem_cons_of_mem _ hm)) (update_same _ _ _)
      (hp.congr fun z hz => update_noteq (fun h => by
        subst h; exact hxs z rfl (List.mem_cons_of_mem _ hz)) _ _)
    refine ⟨order', by rwa [update_idem] at hc'', fun n => ?_⟩
    rw [hmem, hc.nodup.mem_erase_iff, List.mem_cons]
    tauto

theorem chain_eq_of_data_eq {l : Link} {lo : WithBot Nat} :
    ∀ {order : List Nat} {m n : Nat}, Chain val data l lo order → m ∈ order → n ∈ order →
      data m = data n → m = n
  | [], _, _, _, hm, _, _ => absurd hm (List.not_mem_nil _)
  | p :: rest, m, n, hc, hm, hn, hd => by
    obtain ⟨-, v, hv, -, hc⟩ := hc
    have hfar : ∀ q ∈ rest, data q ≠ data p := fun q hq h => by
      obtain ⟨w, hw, hlt⟩ := hc.data_of_mem hq
      rw [h, hv] at hw; cases hw; exact lt_irrefl _ hlt
    rcases List.mem_cons.mp hm with rfl | hm' <;> rcases List.mem_cons.mp hn with rfl | hn'
    · rfl
    · exact absurd hd.symm (hfar n hn')
    · exact absurd hd (hfar m hm')
    · exact chain_eq_of_data_eq hc hm' hn' hd

end Chains

theorem MarkedPath.pathVal {e w : Option Nat} {xs : List Nat} (h : MarkedPath s.nodes e w xs) :
    PathVal s.linkVal e w xs := by
  induction xs generalizing e with
  | nil => exact h
  | cons y ys ih =>
    obtain ⟨rfl, node, hn, -, hp⟩ := h
    exact ⟨rfl, by simpa [State.linkVal, hn] using ih hp⟩

theorem MarkedPath.marked {e w : Option Nat} {xs : List Nat} (h : MarkedPath s.nodes e w xs)
    {y : Nat} (hy : y ∈ xs) : ∃ node, s.nodes y = some node ∧ node.marked = true := by
  induction xs generalizing e with
  | nil => exact absurd hy (List.not_mem_nil _)
  | cons x xs ih =>
    obtain ⟨rfl, node, hn, hm, hp⟩ := h
    rcases List.mem_cons.mp hy with rfl | hy
    · exact ⟨node, hn, hm⟩
    · exact ih hp hy

theorem Heap.lt_of_path (h : Heap s order) {p c : Nat} {node : Node V} {w : Option Nat}
    {xs : List Nat} (hp : s.nodes p = some node) (hpath : MarkedPath s.nodes node.next w xs)
    (hw : w = some c) : ∃ node', s.nodes c = some node' ∧ node.key < node'.key := by
  induction xs generalizing p node with
  | nil => exact h.edge p node c hp (hpath.trans hw)
  | cons x xs ih =>
    obtain ⟨hx, nx, hnx, -, hrest⟩ := hpath
    obtain ⟨nx', hnx', hlt⟩ := h.edge p node x hp hx
    rw [hnx] at hnx'; cases hnx'
    obtain ⟨node', hc, hlt'⟩ := ih hnx hrest
    exact ⟨node', hc, hlt.trans hlt'⟩

theorem Heap.congr (h : Heap s order) (hh : s'.head = s.head) (hn : s'.nodes = s.nodes)
    (hnn : s'.nnodes = s.nnodes) (hb : s'.buckets = s.buckets) (hs : s'.size = s.size) :
    Heap s' order := by
  obtain ⟨⟩ := s; obtain ⟨⟩ := s'
  simp only at hh hn hnn hb hs
  subst hh hn hnn hb hs
  exact ⟨h.1, h.2, h.3, h.4, h.5, h.6, h.7, h.8⟩

theorem linkVal_setHead (s : State V) (w : Option Nat) :
    State.linkVal { s with head := w } = update s.linkVal .head w := by
  funext l; cases l <;> rfl

theorem linkVal_setNode (s : State V) (p : Nat) (nd : Node V) :
    State.linkVal { s with nodes := update s.nodes p (some nd) } =
      update s.linkVal (.next p) nd.next := by
  funext l
  cases l with
  | head => rfl
  | next n =>
    rcases eq_or_ne n p with rfl | hnp
    · simp [State.linkVal]
    · simp [State.linkVal, hnp]

theorem linkVal_alloc (s : State V) (p : Nat) (nd : Node V) (k : Nat) :
    State.linkVal { s with nodes := update s.nodes p (some nd), nnodes := k } =
      update s.linkVal (.next p) nd.next :=
  linkVal_setNode s p nd

theorem nodeKey_setNode (s : State V) (p : Nat) (nd : Node V) :
    State.nodeKey { s with nodes := update s.nodes p (some nd) } =
      update s.nodeKey p (some nd.key) := by
  funext n
  rcases eq_or_ne n p with rfl | hnp
  · simp [State.nodeKey]
  · simp [State.nodeKey, hnp]

theorem nodeKey_alloc (s : State V) (p : Nat) (nd : Node V) (k : Nat) :
    State.nodeKey { s with nodes := update s.nodes p (some nd), nnodes := k } =
      update s.nodeKey p (some nd.key) :=
  nodeKey_setNode s p nd

theorem Heap.mem_of_unmarked (h : Heap s order) {p : Nat} {node : Node V}
    (hp : s.nodes p = some node) (hm : node.marked = false) : p ∈ order :=
  of_not_not fun hno => by simp [h.offChain p node hp hno] at hm

theorem Heap.fresh (h : Heap s order) : s.nodes s.nnodes = none := by
  simpa using (h.alloc s.nnodes).not

theorem PrevOk.ne_bucket {nodes : Nat → Option (Node V)} (h : PrevOk nodes prev key) :
    ∀ i, prev ≠ .bucket i := by
  rintro i rfl
  rcases h with h | ⟨p, node, h, -⟩ <;> cases h

theorem cas_nodes {prev : Loc} {e w : Option Nat} (hc : s.cas prev e w = some s') {n : Nat}
    {nd : Node V} (hn : s'.nodes n = some nd) :
    ∃ old, s.nodes n = some old ∧ nd.key = old.key ∧ nd.value = old.value ∧ nd.marked = old.marked := by
  rcases cas_eq_some hc with ⟨-, -, rfl⟩ | ⟨p, node, -, hp, -, -, rfl⟩ | ⟨i, -, -, rfl⟩
  · exact ⟨nd, hn, rfl, rfl, rfl⟩
  · by_cases hnp : n = p
    · subst hnp
      simp only [update_same, Option.some.injEq] at hn
      exact ⟨node, hp, by rw [← hn], by rw [← hn], by rw [← hn]⟩
    · exact ⟨nd, by simpa [hnp] using hn, rfl, rfl, rfl⟩
  · exact ⟨nd, hn, rfl, rfl, rfl⟩

theorem cas_buckets {prev : Loc} {e w : Option Nat} (hc : s.cas prev e w = some s')
    (hprev : ∀ i, prev ≠ .bucket i) : s'.buckets = s.buckets := by
  rcases cas_eq_some hc with ⟨-, -, rfl⟩ | ⟨p, node, -, -, -, -, rfl⟩ | ⟨i, rfl, -, -⟩
  · rfl
  · rfl
  · exact absurd rfl (hprev i)

theorem Heap.casList (h : Heap s order) {prev : Loc} {e w : Option Nat} {xs : List Nat}
    (hc : s.cas prev e w = some s') (hprev : ∀ i, prev ≠ .bucket i)
    (hpath : MarkedPath s.nodes e w xs) : ∃ order', Heap s' order' := by
  have hg := cas_grows hc fun i hi => absurd hi (hprev i)
  -- the nodes leaving the chain are those of the path, all marked
  have hoff : ∀ order' : List Nat, (∀ n, n ∈ order' ↔ n ∈ order ∧ n ∉ xs) →
      ∀ n nd, s'.nodes n = some nd → n ∉ order' → nd.marked = true := by
    intro order' hmem n nd hn hn'
    obtain ⟨old, hold, -, -, hm⟩ := cas_nodes hc hn
    rw [hm]
    by_cases hno : n ∈ order
    · obtain ⟨nd', hnd', hm'⟩ := hpath.marked (of_not_not fun hx => hn' ((hmem n).2 ⟨hno, hx⟩))
      rw [hold] at hnd'; cases hnd'; exact hm'
    · exact h.offChain n old hold hno
  have hnodes : ∀ n nd, s'.nodes n = some nd → (nd.value = none →
      nd.marked = false ∧ ∃ b < hiMask, nd.key = reverseBits b) ∧
      ∀ v, nd.value = some v → ∃ k < hiMask, nd.key = makeContentKey k := by
    intro n nd hn
    obtain ⟨old, hold, hk, hv, hm⟩ := cas_nodes hc hn
    rw [hk, hv, hm]
    exact ⟨h.sentinel n old hold, fun v => h.data n old v hold⟩
  have hbucket : ∀ i q, s'.buckets i = some q →
      ∃ node, s'.nodes q = some node ∧ node.value = none ∧ node.key = i := by
    intro i q hi
    rw [cas_buckets hc hprev] at hi
    obtain ⟨node, hq, hv, hk⟩ := h.bucket i q hi
    obtain ⟨node', hq', hk', hv'⟩ := hg.keep hq
    exact ⟨node', hq', hv'.trans hv, hk'.trans hk⟩
  rcases cas_eq_some hc with ⟨rfl, he, rfl⟩ | ⟨p, node, rfl, hp, hm, he, rfl⟩ | ⟨i, rfl, -, -⟩
  · obtain ⟨order', hch, hmem⟩ :=
      chain_unlinkPath h.chain (inChain_self _ _) (by rintro _ ⟨⟩) he hpath.pathVal
    refine ⟨order', ⟨by rw [linkVal_setHead]; exact hch, h.alloc, h.edge, fun n nd hn => (hnodes n nd hn).1,
      fun n nd v hn => (hnodes n nd hn).2 v, hoff order' hmem, hbucket, h.size⟩⟩
  · have hin : p ∈ order := of_not_not fun hno => by simp [h.offChain p node hp hno] at hm
    have hpx : p ∉ xs := fun hx => by
      obtain ⟨nd, hnd, hmk⟩ := hpath.marked hx
      rw [hp] at hnd; cases hnd; simp [hm] at hmk
    obtain ⟨order', hch, hmem⟩ := chain_unlinkPath h.chain (.inr ⟨p, hin, rfl⟩)
      (by rintro q ⟨⟩; exact hpx) (by simp [State.linkVal, hp, he]) hpath.pathVal
    have hk : s.nodeKey = update s.nodeKey p (some node.key) := by
      rw [eq_comm, update_eq_iff]; simp [State.nodeKey, hp]
    refine ⟨order', ⟨by rw [linkVal_setNode, nodeKey_setNode, ← hk]; exact hch, fun n => ?_, fun n nd m hn hnext => ?_,
      fun n nd hn => (hnodes n nd hn).1, fun n nd v hn => (hnodes n nd hn).2 v,
      hoff order' hmem, hbucket, h.size⟩⟩
    · by_cases hn : n = p
      · subst hn; simpa [hp] using h.alloc n
      · simpa [hn] using h.alloc n
    · by_cases hnp : n = p
      · subst hnp
        simp only [update_same, Option.some.injEq] at hn
        subst hn
        obtain ⟨nm, hnm, hlt⟩ := h.lt_of_path hp (he ▸ hpath) hnext
        obtain ⟨nm', hnm', hk', -⟩ := hg.keep hnm
        exact ⟨nm', hnm', hk' ▸ hlt⟩
      · obtain ⟨nm, hnm, hlt⟩ := h.edge n nd m (by simpa [hnp] using hn) hnext
        obtain ⟨nm', hnm', hk', -⟩ := hg.keep hnm
        exact ⟨nm', hnm', hk' ▸ hlt⟩
  · exact absurd rfl (hprev i)

theorem cas_ne_none {e w : Option Nat} (hc : s.cas prev e w = some s') {n : Nat} :
    s'.nodes n ≠ none ↔ s.nodes n ≠ none := by
  rcases cas_eq_some hc with ⟨-, -, rfl⟩ | ⟨p, node, -, hp, -, -, rfl⟩ | ⟨i, -, -, rfl⟩
  · rfl
  · rcases eq_or_ne n p with rfl | hnp <;> simp [*]
  · rfl

theorem cas_frame {e w : Option Nat} (hc : s.cas prev e w = some s') :
    s'.nnodes = s.nnodes ∧ s'.size = s.size ∧ s'.count = s.count ∧ s'.calls = s.calls ∧
      s'.nthreads = s.nthreads ∧ s'.log = s.log := by
  rcases cas_eq_some hc with ⟨-, -, rfl⟩ | ⟨p, node, -, -, -, -, rfl⟩ | ⟨i, -, -, rfl⟩ <;>
    exact ⟨rfl, rfl, rfl, rfl, rfl, rfl⟩

theorem insertAt_eq_some {value : Option V} {N : Nat}
    (hi : s.insertAt cursor key value = some (s', N)) :
    ∃ s₁, s.cas cursor.prev cursor.curr (some s.nnodes) = some s₁ ∧ N = s.nnodes ∧
      s' = { s₁ with
        nodes := update s₁.nodes s.nnodes (some ⟨key, value, cursor.curr, false⟩)
        nnodes := s.nnodes + 1 } := by
  obtain ⟨s₁, hc, he⟩ := Option.map_eq_some'.mp hi
  cases he
  exact ⟨s₁, hc, rfl, rfl⟩

theorem nodeKey_cas {e w : Option Nat} (hc : s.cas prev e w = some s') : s'.nodeKey = s.nodeKey := by
  rcases cas_eq_some hc with ⟨-, -, rfl⟩ | ⟨p, node, -, hp, -, -, rfl⟩ | ⟨i, -, -, rfl⟩
  · rfl
  · rw [nodeKey_setNode, update_eq_self_iff]; simp [State.nodeKey, hp]
  · rfl

theorem grows_alloc {N k : Nat} {nd : Node V} (hN : s.nodes N = none) :
    Grows s { s with nodes := update s.nodes N (some nd), nnodes := k } :=
  ⟨fun n node hn => ⟨node, (update_noteq (by rintro rfl; simp [hN] at hn) _ _).trans hn, rfl, rfl,
    fun hm => ⟨hm, rfl⟩⟩, fun _ _ => id, le_rfl⟩

theorem InsertPos.above (h : InsertPos s.nodes cursor key) {c : Nat} (hc : cursor.curr = some c) :
    ∃ node, s.nodes c = some node ∧ key < node.key := by
  rcases h.2 with h | ⟨c', node, h', hn, hk⟩
  · simp [h] at hc
  · rw [hc] at h'; cases h'; exact ⟨node, hn, hk⟩

theorem Heap.insertAt (h : Heap s order) {value : Option V} {N : Nat}
    (hi : s.insertAt cursor key value = some (s', N)) (hpos : InsertPos s.nodes cursor key)
    (hsent : value = none → ∃ b < hiMask, key = reverseBits b)
    (hdata : ∀ v, value = some v → ∃ k < hiMask, key = makeContentKey k) :
    (∃ order', Heap s' order') ∧ Grows s s' := by
  obtain ⟨s₁, hc, rfl, rfl⟩ := insertAt_eq_some hi
  have hg₁ := cas_grows hc fun i hi => absurd hi (hpos.1.ne_bucket i)
  have hN₁ : s₁.nodes s.nnodes = none := by
    by_contra hne
    obtain ⟨nd, hnd⟩ := Option.ne_none_iff_exists'.mp hne
    obtain ⟨old, hold, -⟩ := cas_nodes hc hnd
    simp [h.fresh] at hold
  have hg₂ : Grows s₁ { s₁ with
      nodes := update s₁.nodes s.nnodes (some ⟨key, value, cursor.curr, false⟩)
      nnodes := s.nnodes + 1 } := grows_alloc hN₁
  refine ⟨?_, hg₁.trans hg₂⟩
  -- the link that the CAS wrote
  obtain ⟨x, hx, hxv, hl₁, hxk, hxN⟩ : ∃ x : Link, InChain .head order x ∧
      s.linkVal x = cursor.curr ∧ s₁.linkVal = update s.linkVal x (some s.nnodes) ∧
      (∀ p, x = .next p → ∃ node, s.nodes p = some node ∧ node.key < key) ∧
      x ≠ .next s.nnodes := by
    rcases cas_eq_some hc with ⟨-, he, rfl⟩ | ⟨p, node, hpp, hp, hm, he, rfl⟩ | ⟨i, hi, -, -⟩
    · exact ⟨.head, inChain_self _ _, he, linkVal_setHead _ _, by rintro _ ⟨⟩, by rintro ⟨⟩⟩
    · refine ⟨.next p, .inr ⟨p, h.mem_of_unmarked hp hm, rfl⟩, by simp [State.linkVal, hp, he],
        linkVal_setNode _ _ _, ?_, ?_⟩
      · rintro q ⟨⟩
        rcases hpos.1 with hh | ⟨q, node', hq, hq', hk⟩
        · rw [hpp] at hh; cases hh
        · rw [hpp] at hq; cases hq; exact ⟨node', hq', hk⟩
      · rintro ⟨⟩; simp [h.fresh] at hp
    · exact absurd hi (hpos.1.ne_bucket i)
  have hNo : s.nnodes ∉ order := fun hm => by
    obtain ⟨v, hv, -⟩ := h.chain.data_of_mem hm
    simp [State.nodeKey, h.fresh] at hv
  have hch := h.chain.insert hx
    ⟨fun _ => WithBot.bot_lt_coe _,
      fun m hm => let ⟨node, hn, hk⟩ := hxk m hm; ⟨node.key, by simp [State.nodeKey, hn], hk⟩,
      fun n hn => let ⟨node, hn', hk⟩ := hpos.above (hxv ▸ hn)
        ⟨node.key, by simp [State.nodeKey, hn'], hk.le⟩⟩
    (fun n hn => let ⟨node, hn', hk⟩ := hpos.above (hxv ▸ hn)
      by simp [State.nodeKey, hn', hk.ne'])
    (by rintro _ ⟨⟩) hNo (by rintro ⟨⟩)
  refine ⟨insertAtLink s.nnodes x .head order, ⟨?_, fun n => ?_, fun n nd m hn hnext => ?_,
    fun n nd hn hv => ?_,
    fun n nd v hn hv => ?_, fun n nd hn hno => ?_, fun i q hi => ?_,
    (cas_frame hc).2.1 ▸ h.size⟩⟩
  · rw [linkVal_alloc, nodeKey_alloc, nodeKey_cas hc, hl₁, update_comm hxN, ← hxv]
    exact hch
  · rcases eq_or_ne n s.nnodes with rfl | hn
    · simp
    · simp only [update_noteq hn]; rw [cas_ne_none hc, h.alloc n]; omega
  · rcases eq_or_ne n s.nnodes with rfl | hnN
    · simp only [update_same, Option.some.injEq] at hn
      subst hn
      obtain ⟨nm, hnm, hlt⟩ := hpos.above hnext
      obtain ⟨nm', hnm', hk, -⟩ := (hg₁.trans hg₂).keep hnm
      exact ⟨nm', hnm', hk ▸ hlt⟩
    · simp only [update_noteq hnN] at hn
      obtain ⟨old, hold, hk, -, -⟩ := cas_nodes hc hn
      have hv : s₁.linkVal (.next n) = some m := by simp [State.linkVal, hn, hnext]
      rw [hl₁] at hv
      by_cases hxn : x = .next n
      · subst hxn
        rw [update_same] at hv
        cases hv
        obtain ⟨node, hnode, hlt⟩ := hxk n rfl
        rw [hold] at hnode
        cases hnode
        exact ⟨_, update_same _ _ _, hk ▸ hlt⟩
      · rw [update_noteq (Ne.symm hxn)] at hv
        obtain ⟨nm, hnm, hlt⟩ := h.edge n old m hold (by simpa [State.linkVal, hold] using hv)
        obtain ⟨nm', hnm', hk', -⟩ := (hg₁.trans hg₂).keep hnm
        exact ⟨nm', hnm', hk ▸ hk' ▸ hlt⟩
  · rcases eq_or_ne n s.nnodes with rfl | hnN
    · simp only [update_same, Option.some.injEq] at hn
      subst hn
      exact ⟨rfl, hsent hv⟩
    · simp only [update_noteq hnN] at hn
      obtain ⟨old, hold, hk, hvv, hm⟩ := cas_nodes hc hn
      rw [hk, hm]
      exact h.sentinel n old hold (hvv ▸ hv)
  · rcases eq_or_ne n s.nnodes with rfl | hnN
    · simp only [update_same, Option.some.injEq] at hn
      subst hn
      exact hdata v hv
    · simp only [update_noteq hnN] at hn
      obtain ⟨old, hold, hk, hvv, -⟩ := cas_nodes hc hn
      rw [hk]
      exact h.data n old v hold (hvv ▸ hv)
  · have hmem := (insertAtLink_perm (N := s.nnodes) hx).mem_iff.not.mp hno
    rw [List.mem_cons, not_or] at hmem
    simp only [update_noteq hmem.1] at hn
    obtain ⟨old, hold, -, -, hm⟩ := cas_nodes hc hn
    exact hm ▸ h.offChain n old hold hmem.2
  · rw [show s₁.buckets = s.buckets from cas_buckets hc (hpos.1.ne_bucket)] at hi
    obtain ⟨node, hq, hv, hk⟩ := h.bucket i q hi
    obtain ⟨node', hq', hk', hv'⟩ := (hg₁.trans hg₂).keep hq
    exact ⟨node', hq', hv'.trans hv, hk'.trans hk⟩

theorem insertAt_frame {value : Option V} {N : Nat}
    (hi : s.insertAt cursor key value = some (s', N)) :
    s'.nodes N = some ⟨key, value, cursor.curr, false⟩ ∧ s'.size = s.size ∧ s'.count = s.count ∧
      s'.calls = s.calls ∧ s'.nthreads = s.nthreads ∧ s'.log = s.log := by
  obtain ⟨s₁, hc, rfl, rfl⟩ := insertAt_eq_some hi
  obtain ⟨-, hsize, hcount, hcalls, hn, hlog⟩ := cas_frame hc
  exact ⟨update_same _ _ _, hsize, hcount, hcalls, hn, hlog⟩

theorem Heap.value_ne_none (h : Heap s order) (hn : s.nodes n = some node) {k : Nat}
    (hk : k < hiMask) (hkey : node.key = makeContentKey k) : node.value ≠ none := fun hv => by
  obtain ⟨-, b, hb, hkb⟩ := h.sentinel n node hn hv
  have := reverseBits_mod_two hb
  rw [← hkb, hkey, makeContentKey_mod_two hk] at this
  exact absurd this (by decide)

theorem Heap.value_eq_none (h : Heap s order) (hn : s.nodes n = some node) {b : Nat}
    (hb : b < hiMask) (hkey : node.key = reverseBits b) : node.value = none := by
  rcases hv : node.value with _ | v
  · rfl
  · obtain ⟨k, hk, hkk⟩ := h.data n node v hn hv
    have := makeContentKey_mod_two hk
    rw [← hkk, hkey, reverseBits_mod_two hb] at this
    exact absurd this (by decide)

theorem grows_setMark (hn : s.nodes n = some node) : Grows s (s.setMark n node) := by
  refine ⟨fun m nd hm => ?_, fun _ _ => id, le_rfl⟩
  rcases eq_or_ne m n with rfl | hmn
  · rw [hn] at hm; cases hm
    exact ⟨_, update_same _ _ _, rfl, rfl, fun _ => ⟨rfl, rfl⟩⟩
  · exact ⟨nd, (update_noteq hmn _ _).trans hm, rfl, rfl, fun hmk => ⟨hmk, rfl⟩⟩

theorem Heap.setMark (h : Heap s order) (hn : s.nodes n = some node) (hv : node.value ≠ none) :
    Heap (s.setMark n node) order := by
  have hg := grows_setMark hn
  have hl : s.linkVal = update s.linkVal (.next n) node.next := by
    rw [eq_comm, update_eq_self_iff]; simp [State.linkVal, hn]
  have hk : s.nodeKey = update s.nodeKey n (some node.key) := by
    rw [eq_comm, update_eq_self_iff]; simp [State.nodeKey, hn]
  refine ⟨?_, fun m => ?_, fun m nd k hm hnext => ?_, fun m nd hm hv' => ?_,
    fun m nd v hm hv' => ?_, fun m nd hm hmo => ?_, fun i p hi => ?_, h.size⟩
  · rw [State.setMark, linkVal_setNode, nodeKey_setNode, ← hl, ← hk]
    exact h.chain
  · rcases eq_or_ne m n with rfl | hmn
    · simpa [State.setMark, hn] using h.alloc m
    · simpa [State.setMark, hmn] using h.alloc m
  rotate_left 4
  · obtain ⟨nd, hp, hv, hk⟩ := h.bucket i p hi
    obtain ⟨nd', hp', hk', hv'⟩ := hg.keep hp
    exact ⟨nd', hp', hv'.trans hv, hk'.trans hk⟩
  all_goals
    rcases eq_or_ne m n with rfl | hmn
    all_goals first
      | (simp only [State.setMark, update_same, Option.some.injEq] at hm; subst hm)
      | simp only [State.setMark, update_noteq hmn] at hm
  · obtain ⟨nk, hnk, hlt⟩ := h.edge m node k hn hnext
    obtain ⟨nk', hnk', hk', -⟩ := hg.keep hnk
    exact ⟨nk', hnk', hk' ▸ hlt⟩
  · obtain ⟨nk, hnk, hlt⟩ := h.edge m nd k hm hnext
    obtain ⟨nk', hnk', hk', -⟩ := hg.keep hnk
    exact ⟨nk', hnk', hk' ▸ hlt⟩
  · exact absurd hv' hv
  · exact h.sentinel m nd hm hv'
  · exact h.data m node v hn hv'
  · exact h.data m nd v hm hv'
  · rfl
  · exact h.offChain m nd hm hmo

theorem Heap.casBucket (h : Heap s order) {i : Nat} {e w : Option Nat}
    (hc : s.cas (.bucket i) e w = some s')
    (hw : ∀ p, w = some p → ∃ node, s.nodes p = some node ∧ node.value = none ∧ node.key = i) :
    Heap s' order := by
  rcases cas_eq_some hc with ⟨⟨⟩, -⟩ | ⟨p, node, ⟨⟩, -⟩ | ⟨j, ⟨⟩, -, rfl⟩
  refine ⟨h.chain, h.alloc, h.edge, h.sentinel, h.data, h.offChain, fun j p hj => ?_, h.size⟩
  rcases eq_or_ne j i with rfl | hji
  · exact hw p (by simpa using hj)
  · exact h.bucket j p (by simpa [hji] using hj)

theorem Heap.double (h : Heap s order) (hs : s.size * 2 < 2 ^ usizeSize) :
    Heap { s with size := s.size * 2 } order := by
  obtain ⟨j, hj1, -, hj⟩ := h.size
  refine ⟨h.chain, h.alloc, h.edge, h.sentinel, h.data, h.offChain, h.bucket, j + 1, by omega, ?_,
    by rw [hj, pow_succ]⟩
  rw [hj, ← pow_succ] at hs
  exact Nat.lt_succ_iff.mp ((Nat.pow_lt_pow_iff_right (by norm_num)).mp hs)

end Concur.SplitOrdered
