import Concur.ListSet.Chain

/-! # Hand-over-hand locking keeps `OrderedListSet` a set

The invariant of every run of `step`. The pointers from `head` form a sorted
chain through the ghost `order`. Each lock is held by the one call whose
program counter says it holds it. Each call knows, at its program counter,
the facts about the links it holds that its next step relies on (`PcInv`).
The keys of the list are what the logged writes make of the empty set, and
each call has logged its operation once if it wrote and never otherwise.

A call writes only at links it holds, and the facts of every other call are
about the links that call holds, so one call's write leaves the others'
facts true (`Keeps`): this is where the lock coupling is used.
-/

namespace Concur.ListSet

open Function

variable {α : Type*} [LinearOrder α]

/-- The links whose lock a call holds at its program counter. -/
def Pc.holds : Pc α → List Link
  | .lockHead | .done _ => []
  | .readHead => [.head]
  | .lockNext prev _ => [prev]
  | .unlockPrev prev n => [prev, .next n]
  | .readNext n => [.next n]
  | .found cur _ | .removeLock cur _ | .release cur _ => [cur]
  | .removeWrite cur n | .removeUnlock cur n => [cur, .next n]

/-- The link whose lock a call waits for when its next step takes a lock. -/
def Pc.waits : Pc α → Option Link
  | .lockHead => some .head
  | .lockNext _ n | .removeLock _ n => some (.next n)
  | _ => none

def Ret.isOk : Ret α → Bool
  | .insert (.ok _) | .remove (.ok _) => true
  | _ => false

/-- The call has made its write: linked its node in, or unlinked one. -/
def Pc.wrote : Pc α → Bool
  | .removeUnlock _ _ => true
  | .release _ r | .done r => r.isOk
  | _ => false

/-- What the result `r` of a call on `key` says of the keys of the list. -/
def Ret.Agrees (key : α) (keys : List α) : Ret α → Prop
  | .contains b => b = decide (key ∈ keys)
  | .insert (.error k) => k = key ∧ key ∈ keys
  | .insert (.ok _) => key ∈ keys
  | .remove (.error _) => key ∉ keys
  | .remove (.ok v) => v = key ∧ key ∉ keys

theorem Ret.agrees_congr {key : α} {keys keys' : List α} (r : Ret α)
    (h : key ∈ keys' ↔ key ∈ keys) : r.Agrees key keys' ↔ r.Agrees key keys := by
  cases r with
  | insert e => cases e <;> simp only [Ret.Agrees, h]
  | remove e => cases e <;> simp only [Ret.Agrees, h]
  | contains b => simp only [Ret.Agrees, h]

namespace State

/-- `x` is `head` or the `next` of a node of the list. -/
def Listed (s : State α) (x : Link) : Prop := InChain .head s.order x

/-- `x` is the slot of `key` in the list. -/
def At (s : State α) (key : α) (x : Link) : Prop :=
  s.Listed x ∧ Slot s.val s.data .head ⊥ key x

theorem At.listed {s : State α} {key : α} {x : Link} (h : s.At key x) : s.Listed x := h.1

theorem At.slot {s : State α} {key : α} {x : Link} (h : s.At key x) :
    Slot s.val s.data .head ⊥ key x := h.2

/-- Node `n` holds a key below `key`. -/
def Below (s : State α) (key : α) (n : Nat) : Prop := ∃ v, s.data n = some v ∧ v < key

omit [LinearOrder α] in
theorem listed_next {s : State α} {n : Nat} : s.Listed (.next n) ↔ n ∈ s.order := by
  simp [Listed, InChain]

end State

open State

/-- What a call running `op` knows of the list at `pc`. -/
def PcInv (s : State α) (op : Op α) : Pc α → Prop
  | .lockHead | .readHead | .done _ => True
  | .lockNext prev n | .unlockPrev prev n =>
    s.Listed prev ∧ s.val prev = some n ∧ s.Below op.key n
  | .readNext n => n ∈ s.order ∧ s.Below op.key n
  | .found cur b => s.At op.key cur ∧ b = decide (op.key ∈ s.keys)
  | .removeLock cur n | .removeWrite cur n =>
    s.At op.key cur ∧ s.val cur = some n ∧ s.data n = some op.key ∧ op = .remove op.key
  | .removeUnlock cur n =>
    s.At op.key cur ∧ n ∉ s.order ∧ s.data n = some op.key ∧ op.key ∉ s.keys
  | .release cur r => s.At op.key cur ∧ r.Agrees op.key s.keys

/-- The invariant of every run. -/
structure Inv (s : State α) : Prop where
  chain : Chain s.val s.data .head ⊥ s.order
  fresh : ∀ n, s.nnodes ≤ n → s.data n = none
  owner : ∀ x t, s.owner x = some t ↔ x ∈ (s.calls t).pc.holds
  calls : ∀ t, PcInv s (s.calls t).op (s.calls t).pc
  log : s.keys.toFinset = applyLog s.log ∅
  wrote : ∀ t, s.log.filter (·.1 == t) =
    if (s.calls t).pc.wrote then [(t, (s.calls t).op)] else []

theorem applyLog_append (log log' : List (Nat × Op α)) (S : Finset α) :
    applyLog (log ++ log') S = applyLog log' (applyLog log S) := by
  induction log generalizing S with
  | nil => rfl
  | cons e log ih => obtain ⟨_, op⟩ := e; cases op <;> exact ih _

variable {s s' : State α} {t u : Nat} {key k : α} {x cur : Link} {n : Nat} {held : List Link}

namespace Inv

theorem data_of_mem (hi : Inv s) (hn : n ∈ s.order) : ∃ v, s.data n = some v :=
  let ⟨v, hv, _⟩ := hi.chain.data_of_mem hn
  ⟨v, hv⟩

theorem nnodes_not_mem (hi : Inv s) : s.nnodes ∉ s.order := fun h => by
  obtain ⟨v, hv⟩ := hi.data_of_mem h
  rw [hi.fresh _ le_rfl] at hv; cases hv

theorem ne_nnodes (hi : Inv s) {v : α} (hn : s.data n = some v) : n ≠ s.nnodes := by
  rintro rfl; rw [hi.fresh _ le_rfl] at hn; cases hn

theorem holder_unique (hi : Inv s) (ht : x ∈ (s.calls t).pc.holds)
    (hu : x ∈ (s.calls u).pc.holds) : t = u :=
  Option.some.inj (((hi.owner x t).mpr ht).symm.trans ((hi.owner x u).mpr hu))

theorem mem_keys_iff (hi : Inv s) (h : s.At key x) :
    key ∈ s.keys ↔ ∃ n, s.val x = some n ∧ s.data n = some key :=
  hi.chain.mem_keys_iff h.listed h.slot

theorem at_unique (hi : Inv s) {y : Link} (hx : s.At key x) (hy : s.At key y) : x = y :=
  hi.chain.slot_unique hx.listed hy.listed hx.slot hy.slot

theorem keys_nodup (hi : Inv s) : s.keys.Nodup := hi.chain.sorted.nodup

end Inv

/-- What a write by one call leaves of the facts of a call holding `held`. -/
structure Keeps (s s' : State α) (held : List Link) : Prop where
  listed : ∀ x ∈ held, s.Listed x → s'.Listed x
  val : ∀ x ∈ held, s.Listed x → s'.val x = s.val x
  data : ∀ n v, s.data n = some v → s'.data n = some v
  mem : ∀ n, .next n ∈ held → n ∈ s.order → n ∈ s'.order
  not_mem : ∀ n v, s.data n = some v → n ∉ s.order → n ∉ s'.order
  keys : ∀ key x, x ∈ held → s.At key x → (key ∈ s'.keys ↔ key ∈ s.keys)

theorem Keeps.below (h : Keeps s s' held) (hb : s.Below key n) : s'.Below key n :=
  let ⟨v, hv, hlt⟩ := hb
  ⟨v, h.data n v hv, hlt⟩

theorem Keeps.at (h : Keeps s s' held) (hx : x ∈ held) (ha : s.At key x) : s'.At key x := by
  refine ⟨h.listed x hx ha.listed, ha.slot.first, fun m hm => ?_, fun n hn => ?_⟩
  · obtain ⟨v, hv, hlt⟩ := ha.slot.below m hm
    exact ⟨v, h.data m v hv, hlt⟩
  · obtain ⟨v, hv, hle⟩ := ha.slot.above n (by rwa [← h.val x hx ha.listed])
    exact ⟨v, h.data n v hv, hle⟩

theorem PcInv.keeps {op : Op α} {pc : Pc α} (h : Keeps s s' pc.holds) (hp : PcInv s op pc) :
    PcInv s' op pc := by
  cases pc with
  | lockHead | readHead | done => trivial
  | lockNext prev n | unlockPrev prev n =>
    obtain ⟨hl, hv, hb⟩ := hp
    exact ⟨h.listed prev (List.mem_cons_self _ _) hl,
      (h.val prev (List.mem_cons_self _ _) hl).trans hv, h.below hb⟩
  | readNext n => exact ⟨h.mem n (List.mem_singleton_self _) hp.1, h.below hp.2⟩
  | found cur b =>
    have hc := h.keys _ _ (List.mem_singleton_self cur) hp.1
    exact ⟨h.at (List.mem_singleton_self cur) hp.1, hp.2.trans (decide_eq_decide.mpr hc.symm)⟩
  | removeLock cur n | removeWrite cur n =>
    obtain ⟨ha, hv, hd, hop⟩ := hp
    exact ⟨h.at (List.mem_cons_self _ _) ha, (h.val cur (List.mem_cons_self _ _) ha.listed).trans hv,
      h.data _ _ hd, hop⟩
  | removeUnlock cur n =>
    obtain ⟨ha, hn, hd, hk⟩ := hp
    exact ⟨h.at (List.mem_cons_self _ _) ha, h.not_mem n _ hd hn, h.data _ _ hd,
      by rwa [h.keys _ _ (List.mem_cons_self _ _) ha]⟩
  | release cur r =>
    exact ⟨h.at (List.mem_singleton_self cur) hp.1,
      (r.agrees_congr (h.keys _ _ (List.mem_singleton_self cur) hp.1)).mpr hp.2⟩

theorem pcInv_congr {op : Op α} {pc : Pc α} (hv : s'.val = s.val) (hd : s'.data = s.data)
    (ho : s'.order = s.order) : PcInv s' op pc ↔ PcInv s op pc := by
  obtain ⟨⟩ := s; obtain ⟨⟩ := s'
  cases hv; cases hd; cases ho; cases pc <;> exact Iff.rfl

/-- After call `t` moves to `pc`, lock table `o` agrees with what every call holds. -/
def OwnerAfter (s : State α) (o : Link → Option Nat) (t : Nat) (pc : Pc α) : Prop :=
  (∀ x, o x = some t ↔ x ∈ pc.holds) ∧ ∀ x u, u ≠ t → (o x = some u ↔ x ∈ (s.calls u).pc.holds)

theorem inv_setPc {pc : Pc α} (hcalls : s'.calls = s.calls)
    (hchain : Chain s'.val s'.data .head ⊥ s'.order)
    (hfresh : ∀ n, s'.nnodes ≤ n → s'.data n = none) (howner : OwnerAfter s s'.owner t pc)
    (hself : PcInv s' (s.calls t).op pc) (hother : ∀ u ≠ t, PcInv s' (s.calls u).op (s.calls u).pc)
    (hlog : s'.keys.toFinset = applyLog s'.log ∅)
    (hwrote : s'.log.filter (·.1 == t) = if pc.wrote then [(t, (s.calls t).op)] else [])
    (hwrote' : ∀ u ≠ t, s'.log.filter (·.1 == u) =
      if (s.calls u).pc.wrote then [(u, (s.calls u).op)] else []) :
    Inv (s'.setPc t pc) := by
  have hpc : ∀ {op : Op α} {pc' : Pc α}, PcInv (s'.setPc t pc) op pc' ↔ PcInv s' op pc' :=
    pcInv_congr rfl rfl rfl
  refine ⟨hchain, hfresh, fun x u => ?_, fun u => ?_, hlog, fun u => ?_⟩ <;>
    rw [State.setPc_calls, hcalls] <;> by_cases h : u = t
  · subst h; rw [if_pos rfl]; exact howner.1 x
  · rw [if_neg h]; exact howner.2 x u h
  · subst h; rw [if_pos rfl]; exact hpc.mpr hself
  · rw [if_neg h]; exact hpc.mpr (hother u h)
  · subst h; rw [if_pos rfl]; exact hwrote
  · rw [if_neg h]; exact hwrote' u h

theorem Inv.ownerAfter_keep (hi : Inv s) {pc : Pc α} (hh : pc.holds = (s.calls t).pc.holds) :
    OwnerAfter s s.owner t pc :=
  ⟨fun x => hh ▸ hi.owner x t, fun x u _ => hi.owner x u⟩

theorem Inv.ownerAfter_lock (hi : Inv s) {pc : Pc α} (hl : s.owner x = none)
    (hh : ∀ y, y ∈ pc.holds ↔ y = x ∨ y ∈ (s.calls t).pc.holds) :
    OwnerAfter s (update s.owner x (some t)) t pc := by
  refine ⟨fun y => ?_, fun y u hu => ?_⟩ <;> by_cases hy : y = x
  · subst hy; simp [hh]
  · rw [update_noteq hy, hh, hi.owner, or_iff_right hy]
  · subst hy
    rw [update_same, ← hi.owner, hl]
    exact ⟨fun h => absurd (Option.some.inj h) hu.symm, (fun h => nomatch h)⟩
  · rw [update_noteq hy, hi.owner]

theorem Inv.ownerAfter_unlock (hi : Inv s) {pc : Pc α} (hx : x ∈ (s.calls t).pc.holds)
    (hh : ∀ y, y ∈ pc.holds ↔ y ≠ x ∧ y ∈ (s.calls t).pc.holds) :
    OwnerAfter s (update s.owner x none) t pc := by
  refine ⟨fun y => ?_, fun y u hu => ?_⟩ <;> by_cases hy : y = x
  · subst hy; simp [hh]
  · rw [update_noteq hy, hh, hi.owner, and_iff_right hy]
  · subst hy
    rw [update_same]
    exact ⟨(fun h => nomatch h), fun h => absurd (hi.holder_unique hx h) hu.symm⟩
  · rw [update_noteq hy, hi.owner]

theorem Inv.move (hi : Inv s) {o : Link → Option Nat} {pc : Pc α} (ho : OwnerAfter s o t pc)
    (hpc : PcInv s (s.calls t).op pc) (hw : pc.wrote = (s.calls t).pc.wrote) :
    Inv ({ s with owner := o }.setPc t pc) :=
  inv_setPc rfl hi.chain hi.fresh ho ((pcInv_congr rfl rfl rfl).mpr hpc)
    (fun u _ => (pcInv_congr rfl rfl rfl).mpr (hi.calls u)) hi.log (hw ▸ hi.wrote t)
    (fun u _ => hi.wrote u)

omit [LinearOrder α] in
theorem mem_insertAt_order (hx : s.Listed x) :
    n ∈ (s.insertAt t x k).order ↔ n = s.nnodes ∨ n ∈ s.order :=
  (insertAtLink_perm hx).mem_iff.trans List.mem_cons

omit [LinearOrder α] in
theorem listed_insertAt {y : Link} (hx : s.Listed x) (hy : s.Listed y) :
    (s.insertAt t x k).Listed y := by
  rcases hy with rfl | ⟨m, hm, rfl⟩
  · exact inChain_self _ _
  · exact listed_next.mpr ((mem_insertAt_order hx).mpr (.inr hm))

theorem Inv.data_insertAt (hi : Inv s) {v : α} (hn : s.data n = some v) :
    (s.insertAt t x k).data n = some v := by
  simp only [State.insertAt, update_noteq (hi.ne_nnodes hn), hn]

theorem Inv.keys_insertAt (hi : Inv s) (hx : s.Listed x) :
    (s.insertAt t x k).keys.Perm (k :: s.keys) := by
  have hN : (s.insertAt t x k).data s.nnodes = some k := update_same _ _ _
  refine ((insertAtLink_perm hx).filterMap _).trans ?_
  rw [List.filterMap_cons, hN, State.keys,
    List.filterMap_congr fun m hm => update_noteq (ne_of_mem_of_not_mem hm hi.nnodes_not_mem) _ _]

theorem Inv.keeps_insertAt (hi : Inv s) (ha : s.At k cur) (hcur : cur ∉ held) :
    Keeps s (s.insertAt t cur k) held where
  listed _ _ := listed_insertAt ha.listed
  val x hx hl := by
    have hxN : x ≠ .next s.nnodes := by
      rintro rfl; exact hi.nnodes_not_mem (listed_next.mp hl)
    simp only [State.insertAt, update_noteq (ne_of_mem_of_not_mem hx hcur), update_noteq hxN]
  data _ _ := hi.data_insertAt
  mem n _ hn := (mem_insertAt_order ha.listed).mpr (.inr hn)
  not_mem n v hd hn := by
    rw [mem_insertAt_order ha.listed]; exact fun h => h.elim (hi.ne_nnodes hd) hn
  keys key x hx hat := by
    have hne : key ≠ k := by
      rintro rfl; exact hcur (hi.at_unique hat ha ▸ hx)
    rw [(hi.keys_insertAt ha.listed).mem_iff, List.mem_cons, or_iff_right hne]

theorem Inv.insertAt_step (hi : Inv s) (hop : (s.calls t).op = .insert k)
    (hpc : (s.calls t).pc = .found cur false) :
    Inv ((s.insertAt t cur k).setPc t (.release cur (.insert (.ok ())))) := by
  obtain ⟨ha, hk⟩ : s.At k cur ∧ false = decide (k ∈ s.keys) := by
    have := hi.calls t; rwa [hop, hpc] at this
  have hk : k ∉ s.keys := by simpa using hk
  have hperm := hi.keys_insertAt (t := t) (k := k) ha.listed
  have hcur : ∀ u ≠ t, cur ∉ (s.calls u).pc.holds := fun u h hc =>
    h (hi.holder_unique hc (by rw [hpc]; exact List.mem_singleton_self _))
  refine inv_setPc (s := s) rfl ?_ (fun n hn => ?_) (hi.ownerAfter_keep (by rw [hpc]; rfl)) ?_
    (fun u h => (hi.calls u).keeps (hi.keeps_insertAt ha (hcur u h))) ?_ ?_ (fun u h => ?_)
  · refine hi.chain.insert ha.listed ha.slot (fun n hn hd => hk ?_) (by rintro _ ⟨⟩)
      hi.nnodes_not_mem (by rintro ⟨⟩)
    exact (hi.mem_keys_iff ha).mpr ⟨n, hn, hd⟩
  · simp only [State.insertAt] at hn ⊢
    rw [update_noteq (by omega), hi.fresh n (by omega)]
  · rw [hop]
    refine ⟨⟨listed_insertAt ha.listed ha.listed, fun _ => WithBot.bot_lt_coe _,
      fun m hm => ?_, fun n hn => ?_⟩, hperm.mem_iff.mpr (List.mem_cons_self _ _)⟩
    · obtain ⟨v, hv, hlt⟩ := ha.slot.below m hm
      exact ⟨v, hi.data_insertAt hv, hlt⟩
    · rw [show (s.insertAt t cur k).val cur = some s.nnodes from update_same _ _ _] at hn
      cases hn
      exact ⟨k, update_same _ _ _, le_rfl⟩
  · show (s.insertAt t cur k).keys.toFinset = applyLog (s.log ++ [(t, .insert k)]) ∅
    rw [applyLog_append, ← hi.log, List.toFinset_eq_of_perm _ _ hperm, List.toFinset_cons]
    rfl
  · show List.filter (fun e : Nat × Op α => e.1 == t) (s.log ++ [(t, .insert k)]) = _
    rw [List.filter_append, hi.wrote t, hpc, hop]
    simp [Pc.wrote, Ret.isOk]
  · show List.filter (fun e : Nat × Op α => e.1 == u) (s.log ++ [(t, .insert k)]) = _
    rw [List.filter_append, hi.wrote u]
    simp [Ne.symm h]

omit [LinearOrder α] in
theorem keys_unlinkAt (hn : n ∈ s.order) (hd : s.data n = some k) (t : Nat) (cur : Link) (k' : α) :
    s.keys.Perm (k :: (s.unlinkAt t cur n k').keys) := by
  have := (List.perm_cons_erase hn).filterMap s.data
  rwa [List.filterMap_cons, hd] at this

theorem Inv.keeps_unlinkAt (hi : Inv s) (ha : s.At k cur) (hv : s.val cur = some n)
    (hd : s.data n = some k) (hcur : cur ∉ held) (hnext : .next n ∉ held) {k' : α} :
    Keeps s (s.unlinkAt t cur n k') held where
  listed x hx hl := by
    rcases hl with rfl | ⟨m, hm, rfl⟩
    · exact inChain_self _ _
    · refine listed_next.mpr ((List.mem_erase_of_ne ?_).mpr hm)
      rintro rfl; exact hnext hx
  val x hx _ := update_noteq (ne_of_mem_of_not_mem hx hcur) _ _
  data _ _ h := h
  mem m hm h := (List.mem_erase_of_ne (by rintro rfl; exact hnext hm)).mpr h
  not_mem _ _ _ h h' := h (List.erase_subset _ _ h')
  keys key x hx hat := by
    have hne : key ≠ k := by
      rintro rfl; exact hcur (hi.at_unique hat ha ▸ hx)
    rw [(keys_unlinkAt (hi.chain.mem_of_val ha.listed hv) hd t cur k').mem_iff, List.mem_cons,
      or_iff_right hne]

theorem Inv.unlinkAt_step (hi : Inv s) (hpc : (s.calls t).pc = .removeWrite cur n) :
    Inv ((s.unlinkAt t cur n (s.calls t).op.key).setPc t (.removeUnlock cur n)) := by
  have hp := hi.calls t
  rw [hpc] at hp
  obtain ⟨ha, hv, hd, hop⟩ := hp
  have hn : n ∈ s.order := hi.chain.mem_of_val ha.listed hv
  have hperm := keys_unlinkAt hn hd t cur (s.calls t).op.key
  have hk : (s.calls t).op.key ∉ (s.unlinkAt t cur n (s.calls t).op.key).keys :=
    (List.nodup_cons.mp (hperm.nodup_iff.mp hi.keys_nodup)).1
  have hheld : ∀ u ≠ t, cur ∉ (s.calls u).pc.holds ∧ .next n ∉ (s.calls u).pc.holds :=
    fun u h => ⟨fun hc => h (hi.holder_unique hc (by rw [hpc]; exact List.mem_cons_self _ _)),
      fun hc => h (hi.holder_unique hc (by rw [hpc]; simp [Pc.holds]))⟩
  refine inv_setPc (s := s) rfl (hi.chain.unlink ha.listed hv (by rintro _ ⟨⟩)) hi.fresh
    (hi.ownerAfter_keep (by rw [hpc]; rfl)) ⟨⟨?_, fun _ => WithBot.bot_lt_coe _, ha.slot.below,
      fun m hm => ?_⟩, hi.chain.nodup.not_mem_erase, hd, hk⟩
    (fun u h => (hi.calls u).keeps (hi.keeps_unlinkAt ha hv hd (hheld u h).1 (hheld u h).2))
    ?_ ?_ (fun u h => ?_)
  · rcases ha.listed with h | ⟨m, hm, rfl⟩
    · exact .inl h
    · refine listed_next.mpr ((List.mem_erase_of_ne ?_).mpr hm)
      rintro rfl; exact hi.chain.val_next_ne hn hv
  · simp only [State.unlinkAt, update_same] at hm
    obtain ⟨w, hw, hlt⟩ := hi.chain.lt_of_val_next hn hd hm
    exact ⟨w, hw, hlt.le⟩
  · show _ = applyLog (s.log ++ [(t, .remove _)]) ∅
    rw [applyLog_append, ← hi.log, List.toFinset_eq_of_perm _ _ hperm, List.toFinset_cons]
    exact (Finset.erase_insert (by simpa using hk)).symm
  · show List.filter (fun e : Nat × Op α => e.1 == t) (s.log ++ [(t, .remove _)]) = _
    rw [List.filter_append, hi.wrote t, hpc, ← hop]
    simp [Pc.wrote]
  · show List.filter (fun e : Nat × Op α => e.1 == u) (s.log ++ [(t, .remove _)]) = _
    rw [List.filter_append, hi.wrote u]
    simp [Ne.symm h]

/-- The loop body of `Cursor::find` at a listed link whose node is below `key`
stops at `key`'s slot, with `key`'s membership, or moves on to the node below
`key` that the link reaches. -/
theorem Inv.visit (hi : Inv s) {op : Op α} {pc : Pc α} (hx : s.Listed x)
    (hb : ∀ m, x = .next m → s.Below op.key m) (h : s.visit op.key x = some pc) :
    PcInv s op pc ∧ pc.holds = [x] ∧ pc.wrote = false := by
  unfold State.visit at h
  split at h
  · rename_i hv
    cases h
    have ha : s.At op.key x := ⟨hx, fun _ => WithBot.bot_lt_coe _, hb, by simp [hv]⟩
    exact ⟨⟨ha, by simp [hi.mem_keys_iff ha, hv]⟩, rfl, rfl⟩
  · rename_i n hv
    obtain ⟨v, hd, rfl⟩ := Option.map_eq_some'.mp h
    by_cases hkv : op.key ≤ v
    · have ha : s.At op.key x := ⟨hx, fun _ => WithBot.bot_lt_coe _, hb,
        fun m hm => ⟨v, by rw [hv] at hm; cases hm; exact hd, hkv⟩⟩
      simp only [hkv, if_true]
      refine ⟨⟨ha, ?_⟩, rfl, rfl⟩
      simp [hi.mem_keys_iff ha, hv, hd, eq_comm]
    · simp only [hkv, if_false]
      exact ⟨⟨hx, hv, v, hd, not_le.mp hkv⟩, rfl, rfl⟩

theorem inv_step (hi : Inv s) (t : Nat) : Inv (step s t) := by
  have hp := hi.calls t
  rcases hpc : (s.calls t).pc with _ | _ | ⟨prev, n⟩ | ⟨prev, n⟩ | n | ⟨cur, b⟩ | ⟨cur, n⟩ |
    ⟨cur, n⟩ | ⟨cur, n⟩ | ⟨cur, r⟩ | r <;> rw [hpc] at hp <;> simp only [step, hpc]
  case lockHead =>
    split_ifs with hl
    · exact hi.move (hi.ownerAfter_lock hl (by simp [Pc.holds, hpc])) trivial (by rw [hpc]; rfl)
    · exact hi
  case readHead =>
    split
    · rename_i pc h
      obtain ⟨hp', hh, hw⟩ := hi.visit (inChain_self _ _) (by rintro _ ⟨⟩) h
      exact hi.move (hi.ownerAfter_keep (by rw [hh, hpc]; rfl)) hp' (by rw [hw, hpc]; rfl)
    · exact hi
  case lockNext =>
    split_ifs with hl
    · exact hi.move (hi.ownerAfter_lock hl (by simp [Pc.holds, hpc, or_comm])) hp
        (by rw [hpc]; rfl)
    · exact hi
  case unlockPrev =>
    obtain ⟨hl, hv, hb⟩ := hp
    have hn := hi.chain.mem_of_val hl hv
    have hne : prev ≠ .next n := by rintro rfl; exact hi.chain.val_next_ne hn hv
    refine hi.move (hi.ownerAfter_unlock (by simp [Pc.holds, hpc]) fun y => ?_) ⟨hn, hb⟩
      (by rw [hpc]; rfl)
    simp only [Pc.holds, hpc, List.mem_singleton, List.mem_cons, List.not_mem_nil, or_false]
    exact ⟨fun h => ⟨h ▸ hne.symm, .inr h⟩, fun h => h.2.resolve_left h.1⟩
  case readNext =>
    split
    · rename_i pc h
      obtain ⟨hp', hh, hw⟩ :=
        hi.visit (listed_next.mpr hp.1) (by rintro m ⟨⟩; exact hp.2) h
      exact hi.move (hi.ownerAfter_keep (by rw [hh, hpc]; rfl)) hp' (by rw [hw, hpc]; rfl)
    · exact hi
  case found =>
    have hkeep : ∀ {pc : Pc α}, pc.holds = [cur] → OwnerAfter s s.owner t pc :=
      fun h => hi.ownerAfter_keep (by rw [h, hpc]; rfl)
    split
    · exact hi.move (hkeep rfl) hp (by rw [hpc]; rfl)
    · rename_i k hop
      rw [hop] at hp
      split_ifs with hb
      · subst hb
        refine hi.move (hkeep rfl) ?_ (by rw [hpc]; rfl)
        rw [hop]; exact ⟨hp.1, rfl, by simpa using hp.2.symm⟩
      · exact hi.insertAt_step hop (by rw [hpc, Bool.eq_false_iff.mpr hb])
    · rename_i k hop
      rw [hop] at hp
      split_ifs with hb
      · subst hb
        split
        · rename_i n hv
          obtain ⟨n', hv', hd⟩ := (hi.mem_keys_iff hp.1).mp (by simpa using hp.2.symm)
          rw [hv] at hv'; cases hv'
          exact hi.move (hkeep rfl) (by rw [hop]; exact ⟨hp.1, hv, hd, rfl⟩) (by rw [hpc]; rfl)
        · exact hi
      · refine hi.move (hkeep rfl) ?_ (by rw [hpc]; rfl)
        rw [hop]; exact ⟨hp.1, by simpa [Bool.eq_false_iff.mpr hb] using hp.2⟩
  case removeLock =>
    split_ifs with hl
    · exact hi.move (hi.ownerAfter_lock hl (by simp [Pc.holds, hpc, or_comm])) hp
        (by rw [hpc]; rfl)
    · exact hi
  case removeWrite => exact hi.unlinkAt_step hpc
  case removeUnlock =>
    obtain ⟨ha, hn, hd, hk⟩ := hp
    have hne : cur ≠ .next n := by rintro rfl; exact hn (listed_next.mp ha.listed)
    rw [hd]
    refine hi.move (hi.ownerAfter_unlock (by simp [Pc.holds, hpc]) fun y => ?_) ⟨ha, rfl, hk⟩
      (by rw [hpc]; rfl)
    simp only [Pc.holds, hpc, List.mem_singleton, List.mem_cons, List.not_mem_nil, or_false]
    exact ⟨fun h => ⟨h ▸ hne, .inl h⟩, fun h => h.2.resolve_right h.1⟩
  case release =>
    exact hi.move (hi.ownerAfter_unlock (by simp [Pc.holds, hpc]) (by simp [Pc.holds, hpc]))
      trivial (by rw [hpc]; rfl)
  case done => exact hi

theorem inv_init (ops : Nat → Op α) : Inv (init ops) where
  chain := rfl
  fresh _ _ := rfl
  owner _ _ := by simp [init, Pc.holds]
  calls _ := trivial
  log := rfl
  wrote _ := rfl

theorem Reachable.inv (hr : Reachable s) : Inv s := by
  induction hr with
  | initial ops => exact inv_init ops
  | step t _ ih => exact inv_step ih t

theorem Inv.held_listed (hi : Inv s) (hx : x ∈ (s.calls t).pc.holds) :
    s.Listed x ∨ ∃ cur n, (s.calls t).pc = .removeUnlock cur n ∧ x = .next n := by
  have hp := hi.calls t
  rcases hpc : (s.calls t).pc with _ | _ | ⟨prev, n⟩ | ⟨prev, n⟩ | n | ⟨cur, b⟩ | ⟨cur, n⟩ |
    ⟨cur, n⟩ | ⟨cur, n⟩ | ⟨cur, r⟩ | r <;> rw [hpc] at hp hx <;>
    simp only [Pc.holds, List.mem_cons, List.mem_singleton, List.not_mem_nil, or_false] at hx
  case readHead => exact .inl (hx ▸ inChain_self _ _)
  case lockNext => exact .inl (hx ▸ hp.1)
  case unlockPrev =>
    rcases hx with rfl | rfl
    · exact .inl hp.1
    · exact .inl (listed_next.mpr (hi.chain.mem_of_val hp.1 hp.2.1))
  case readNext => exact .inl (hx ▸ listed_next.mpr hp.1)
  case found | removeLock | release => exact .inl (hx ▸ hp.1.listed)
  case removeWrite =>
    rcases hx with rfl | rfl
    · exact .inl hp.1.listed
    · exact .inl (listed_next.mpr (hi.chain.mem_of_val hp.1.listed hp.2.1))
  case removeUnlock =>
    rcases hx with rfl | rfl
    · exact .inl hp.1.listed
    · exact .inr ⟨cur, n, rfl, rfl⟩

theorem Inv.waits_listed (hi : Inv s) (hw : (s.calls t).pc.waits = some x) : s.Listed x := by
  have hp := hi.calls t
  rcases hpc : (s.calls t).pc with _ | _ | ⟨prev, n⟩ | ⟨prev, n⟩ | n | ⟨cur, b⟩ | ⟨cur, n⟩ |
    ⟨cur, n⟩ | ⟨cur, n⟩ | ⟨cur, r⟩ | r <;> rw [hpc] at hp hw <;> simp only [Pc.waits] at hw <;>
    cases hw
  case lockHead => exact inChain_self _ _
  case lockNext => exact listed_next.mpr (hi.chain.mem_of_val hp.1 hp.2.1)
  case removeLock => exact listed_next.mpr (hi.chain.mem_of_val hp.1.listed hp.2.1)

/-- What every state of a run of hand-over-hand calls satisfies. -/
structure Coupled (s : State α) : Prop where
  chain : Chain s.val s.data .head ⊥ s.order
  sorted : s.keys.Sorted (· < ·)
  log : s.keys.toFinset = applyLog s.log ∅
  wrote : ∀ t, s.log.filter (·.1 == t) =
    if (s.calls t).pc.wrote then [(t, (s.calls t).op)] else []
  found : ∀ t cur b, (s.calls t).pc = .found cur b →
    s.owner cur = some t ∧ b = decide ((s.calls t).op.key ∈ s.keys)
  release : ∀ t cur r, (s.calls t).pc = .release cur r →
    s.owner cur = some t ∧ r.Agrees (s.calls t).op.key s.keys
  unlinked : ∀ t n, s.owner (.next n) = some t ∨ (s.calls t).pc.waits = some (.next n) →
    n ∉ s.order → ∃ cur, (s.calls t).pc = .removeUnlock cur n ∧ (step s t).owner (.next n) = none

/-- Hand-over-hand locking keeps the list sorted, loses and duplicates no
write, decides each result while holding its link, and leaves the `next` lock
of an unlinked node only to the `remove` that unlinked it, for one step. -/
theorem handOverHand_coupled (hr : Reachable s) : Coupled s := by
  have hi := hr.inv
  refine ⟨hi.chain, hi.chain.sorted, hi.log, hi.wrote, fun t cur b hpc => ?_,
    fun t cur r hpc => ?_, fun t n h hn => ?_⟩
  · have hp := hi.calls t; rw [hpc] at hp
    exact ⟨(hi.owner cur t).mpr (by rw [hpc]; exact List.mem_singleton_self _), hp.2⟩
  · have hp := hi.calls t; rw [hpc] at hp
    exact ⟨(hi.owner cur t).mpr (by rw [hpc]; exact List.mem_singleton_self _), hp.2⟩
  · have hnl : ¬ s.Listed (.next n) := fun h => hn (listed_next.mp h)
    rcases h with h | h
    · rcases hi.held_listed ((hi.owner _ t).mp h) with h | ⟨cur, m, hpc, ⟨⟩⟩
      · exact absurd h hnl
      · have hp := hi.calls t; rw [hpc] at hp
        refine ⟨cur, hpc, ?_⟩
        simp only [step, hpc, hp.2.2.1]
        exact update_same _ _ _
    · exact absurd (hi.waits_listed h) hnl

theorem handOverHand_coupled_unlinked :
    Coupled (schedule (init fun t => if t = 0 then .insert 5 else .remove (5 : Nat))
      [0, 0, 0, 0, 1, 1, 1, 1, 1]) :=
  handOverHand_coupled ((Reachable.initial _).schedule _)

/-- After call 0 inserts 5 and call 1 runs `remove 5` through its unlinking
write, call 1 still holds the `next` lock of the node it unlinked. -/
theorem remove_holds_unlinked_next :
    let s := schedule (init fun t => if t = 0 then .insert 5 else .remove (5 : Nat))
      [0, 0, 0, 0, 1, 1, 1, 1, 1]
    Reachable s ∧ s.owner (.next 0) = some 1 ∧ 0 ∉ s.order :=
  ⟨(Reachable.initial _).schedule _, by decide, by decide⟩

end Concur.ListSet
