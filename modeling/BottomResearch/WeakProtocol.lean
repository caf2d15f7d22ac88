import BottomResearch.Runs
import BottomResearch.WeakVariables

/-!
# The protocol of weak variables

What the steps of `WeakVariables` keep, whichever thread takes them.  Proved
here:

* `inv_loaded`, `inv_readLoad`, `inv_loadLocked`: loads keep the invariant
  (`Inv`);
* `keeps_storeLocked`: so does `storeWeak` under the locks;
* `keeps_clearDeallocating`: so does the deallocation of an object, which zeroes
  its variables;
* `step_inv`, `step_fatal`, `run_inv`: every step and every run.
-/

namespace BottomResearch.WeakVariables

open WeakReferences

/-! ## The invariant -/

/-- The variable is one that a deallocation has to zero. -/
def InUse : Status → Prop
  | .active _ | .destroying _ => True
  | .unused | .initializing _ => False

/-- The memory of the object is there, and its weak variables are not cleared yet. -/
def Held (p : Phase) : Prop := p = .live ∨ p = .deallocating

def Pc.location : Pc → Option Location
  | .idle => none
  | .storing l _ _ _ | .loading l _ => some l

/-- What a thread in an operation can rely on. -/
def Stands (t : Thread) : Pc → Status → Prop
  | .idle, _ => True
  | .storing _ none new _, st => st = .initializing t ∧ new.isSome = true
  | .storing _ (some _) (some _) _, st => t ∈ users st
  | .storing _ (some _) none _, st => st = .destroying t
  | .loading _ _, st => t ∈ users st

/-- The thread is in an operation on a variable of this status. -/
def Occupies (t : Thread) (st : Status) : Prop :=
  st = .initializing t ∨ st = .destroying t ∨ t ∈ users st

structure Inv (s : State) : Prop where
  wf : ∀ i, (s.tables i).WF
  reg : ∀ o l, Reg s.tables o l → s.memory l = .object o ∧ InUse (s.status l) ∧
    Held (s.phase o) ∧ s.weaklyReferenced o = true
  held : ∀ o l, InUse (s.status l) → s.memory l = .object o → Reg s.tables o l
  threads : ∀ t l, (s.pc t).location = some l → Stands t (s.pc t) (s.status l)
  refs : ∀ o, 0 < s.refs o ↔ s.phase o = .live
  quiet : s.complaints = []

theorem inv_init : Inv .init where
  wf _ := WeakTable.wf_empty
  reg _ _ h := absurd h fun ⟨refs, hm, _⟩ => WeakTable.not_has_empty _ refs hm
  held _ _ h := h.elim
  threads _ _ h := by cases h
  refs _ := by simp [State.init]
  quiet := rfl

theorem mem_users {t : Thread} {st : Status} (h : t ∈ users st) :
    ∃ us, st = .active us ∧ t ∈ us := by
  cases st with
  | active us => exact ⟨us, rfl, h⟩
  | unused => cases h
  | initializing t' => cases h
  | destroying t' => cases h

theorem Stands.occupies {t : Thread} {pc : Pc} {st : Status} (h : Stands t pc st) {l : Location}
    (hl : pc.location = some l) : Occupies t st := by
  cases pc with
  | idle => cases hl
  | loading l o => exact Or.inr (Or.inr h)
  | storing l old new crash =>
    cases old with
    | none => exact Or.inl h.1
    | some v =>
      cases new with
      | none => exact Or.inr (Or.inl h)
      | some w => exact Or.inr (Or.inr h)

/-- Another thread is not disturbed by one that leaves. -/
theorem Stands.finished {t t' : Thread} {pc : Pc} {st : Status} (h : Stands t' pc st)
    (hne : t' ≠ t) (ht : Occupies t st) {l : Location} (hl : pc.location = some l) :
    Stands t' pc (finished t st) := by
  have key : ∀ us, st = .active us → t' ∈ us → t' ∈ users (WeakVariables.finished t st) := by
    rintro us rfl hm
    exact List.mem_filter.mpr ⟨hm, by simpa using hne⟩
  have away : st = .initializing t' ∨ st = .destroying t' → False := by
    rintro (rfl | rfl)
    · rcases ht with he | he | he
      · injection he with he
        exact hne he
      · cases he
      · cases he
    · rcases ht with he | he | he
      · cases he
      · injection he with he
        exact hne he
      · cases he
  cases pc with
  | idle => cases hl
  | loading l o =>
    obtain ⟨us, hst, hm⟩ := mem_users h
    exact key us hst hm
  | storing l old new crash =>
    cases old with
    | none => exact (away (Or.inl h.1)).elim
    | some v =>
      cases new with
      | none => exact (away (Or.inr h)).elim
      | some w =>
        obtain ⟨us, hst, hm⟩ := mem_users h
        exact key us hst hm

/-! ## Threads that enter and leave -/

section Threads

variable {s : State} {t : Thread} {l : Location}

theorem threads_leave (h : ∀ t' l', t' ≠ t → (s.pc t').location = some l' →
      Stands t' (s.pc t') (s.status l')) (ht : Occupies t (s.status l)) :
    ∀ t' l', ((leave s t l).pc t').location = some l' →
      Stands t' ((leave s t l).pc t') ((leave s t l).status l') := by
  intro t' l' hl
  by_cases hne : t' = t
  · subst hne
    simp only [leave, Function.update_self] at hl
    cases hl
  · simp only [leave, Function.update_of_ne hne] at hl ⊢
    have hs := h t' l' hne hl
    by_cases hll : l' = l
    · subst hll
      rw [Function.update_self]
      exact hs.finished hne ht hl
    · rw [Function.update_of_ne hll]
      exact hs

theorem threads_enter (h : ∀ t l, (s.pc t).location = some l → Stands t (s.pc t) (s.status l))
    {pc : Pc} {st : Status} (ht : ∀ l', pc.location = some l' → l' = l ∧ Stands t pc st)
    (hst : ∀ t' pc', t' ≠ t → pc'.location = some l → Stands t' pc' (s.status l) →
      Stands t' pc' st) :
    ∀ t' l', ((enter s t l pc st).pc t').location = some l' →
      Stands t' ((enter s t l pc st).pc t') ((enter s t l pc st).status l') := by
  intro t' l' hl
  by_cases hne : t' = t
  · subst hne
    simp only [enter, Function.update_self] at hl ⊢
    obtain ⟨rfl, hs⟩ := ht l' hl
    rw [Function.update_self]
    exact hs
  · simp only [enter, Function.update_of_ne hne] at hl ⊢
    have hs := h t' l' hl
    by_cases hll : l' = l
    · subst hll
      rw [Function.update_self]
      exact hst t' _ hne hl hs
    · rw [Function.update_of_ne hll]
      exact hs

/-- One more thread in an operation on a variable disturbs none of the others. -/
theorem Stands.enter {t' : Thread} {pc : Pc} {st : Status} (h : Stands t' pc st)
    (hst : st.isActive = true) {l : Location} (hl : pc.location = some l) :
    Stands t' pc (.active (users st ++ [t])) := by
  obtain ⟨us, rfl⟩ : ∃ us, st = .active us := by
    cases st with
    | active us => exact ⟨us, rfl⟩
    | unused => cases hst
    | initializing _ => cases hst
    | destroying _ => cases hst
  cases pc with
  | idle => cases hl
  | loading l o => exact List.mem_append_left _ h
  | storing l old new crash =>
    cases old with
    | none => cases h.1
    | some v =>
      cases new with
      | none => cases h
      | some w => exact List.mem_append_left _ h

/-- No thread is in an operation on storage that no thread occupies. -/
theorem Stands.vacant {t' : Thread} {pc : Pc} {st : Status} (h : Stands t' pc st)
    (hst : st = .unused ∨ st = .active []) {l : Location} (hl : pc.location = some l) : False := by
  rcases hst with rfl | rfl
  · rcases h.occupies hl with he | he | he <;> cases he
  · rcases h.occupies hl with he | he | he <;> cases he

end Threads

/-! ## Loads keep the invariant -/

section Load

variable {overrides : Overrides} {s : State} {t : Thread} {l : Location}

/-- All but what concerns the thread itself. -/
structure InvBut (t : Thread) (s : State) : Prop where
  wf : ∀ i, (s.tables i).WF
  reg : ∀ o l, Reg s.tables o l → s.memory l = .object o ∧ InUse (s.status l) ∧
    Held (s.phase o) ∧ s.weaklyReferenced o = true
  held : ∀ o l, InUse (s.status l) → s.memory l = .object o → Reg s.tables o l
  threads : ∀ t' l, t' ≠ t → (s.pc t').location = some l → Stands t' (s.pc t') (s.status l)
  refs : ∀ o, 0 < s.refs o ↔ s.phase o = .live
  quiet : s.complaints = []

theorem Inv.but (h : Inv s) (t : Thread) : InvBut t s :=
  ⟨h.wf, h.reg, h.held, fun t' l _ => h.threads t' l, h.refs, h.quiet⟩

theorem inUse_of_mem_users {st : Status} (h : t ∈ users st) : InUse st := by
  obtain ⟨us, rfl, _⟩ := mem_users h
  trivial

theorem inv_loaded (h : InvBut t s) (ht : t ∈ users (s.status l)) (v : IdValue) :
    Inv (loaded s t l v) := by
  have huse : ∀ l', InUse ((loaded s t l v).status l') ↔ InUse (s.status l') := by
    intro l'
    simp only [loaded, leave]
    by_cases hll : l' = l
    · subst hll
      obtain ⟨us, hst, _⟩ := mem_users ht
      rw [Function.update_self, hst]
      exact Iff.rfl
    · rw [Function.update_of_ne hll]
  refine ⟨h.wf, fun o l' hr => ?_, fun o l' hu hm => ?_, ?_, h.refs, h.quiet⟩
  · obtain ⟨hm, hu, hp, hw⟩ := h.reg o l' hr
    exact ⟨hm, (huse l').mpr hu, hp, hw⟩
  · exact h.held o l' ((huse l').mp hu) hm
  · exact threads_leave (s := { s with loads := s.loads ++ [(t, l, v)] }) h.threads
      (Or.inr (Or.inr ht))

theorem inv_readLoad (h : InvBut t s) (ht : t ∈ users (s.status l)) : Inv (readLoad s t l) := by
  unfold readLoad
  split
  · rename_i o ho
    refine ⟨h.wf, h.reg, h.held, fun t' l' hl => ?_, h.refs, h.quiet⟩
    by_cases hne : t' = t
    · subst hne
      simp only [Function.update_self] at hl ⊢
      cases hl
      exact ht
    · simp only [Function.update_of_ne hne] at hl ⊢
      exact h.threads t' l' hne hl
  · exact inv_loaded h ht _

theorem InvBut.retain (h : InvBut t s) {o : Object} (ho : s.phase o = .live) :
    InvBut t { s with refs := Function.update s.refs o (s.refs o + 1) } := by
  refine ⟨h.wf, h.reg, h.held, h.threads, fun o' => ?_, h.quiet⟩
  show 0 < Function.update s.refs o _ o' ↔ _
  by_cases he : o' = o
  · subst he
    rw [Function.update_self]
    exact ⟨fun _ => ho, fun _ => Nat.succ_pos _⟩
  · rw [Function.update_of_ne he]
    exact h.refs o'

/-- Nobody retains an object whose deallocation has begun. -/
theorem live_of_retained {o : Object} (hmay : (Pc.loading l o).mayRetain s overrides = true)
    (h : (tryRetain overrides s o).2 = true) : s.phase o = .live := by
  simp only [Pc.mayRetain] at hmay
  unfold tryRetain at h
  split at h
  · rename_i hcustom
    cases hr : overrides.retainWeakReference with
    | none =>
      rw [hr] at h
      cases h
    | some r =>
      rw [hr] at h
      have hr2 : r.2 = true := h
      rw [hcustom, hr] at hmay
      simpa [hr2] using hmay
  · split at h
    · assumption
    · cases h

theorem inv_loadLocked (h : InvBut t s) (ht : t ∈ users (s.status l)) {o : Object}
    (hmay : (Pc.loading l o).mayRetain s overrides = true) :
    Inv (loadLocked overrides s t l o) := by
  unfold loadLocked
  dsimp only
  split
  · rename_i hret
    exact inv_loaded (h.retain (live_of_retained hmay hret)) ht _
  · exact inv_loaded h ht _

end Load

/-! ## Stores keep the invariant -/

section Store

variable {overrides : Overrides} {s : State} {t : Thread} {l : Location}

theorem Inv.not_reg_of_ne (h : Inv s) {o : Object} (hne : s.memory l ≠ .object o) :
    ¬ Reg s.tables o l :=
  fun hr => hne (h.reg o l hr).1

/-- After the old value is cleaned up the variable has no registration. -/
theorem cleanUp_spec (h : Inv s) {old : Option IdValue}
    (hold : old = none ∧ ¬ InUse (s.status l) ∨ old = some (s.memory l) ∧ InUse (s.status l)) :
    ∃ tables, cleanUp s l old = .ok { s with tables := tables } ∧ (∀ i, (tables i).WF) ∧
      ∀ o' l', Reg tables o' l' ↔ l' ≠ l ∧ Reg s.tables o' l' := by
  have same : (∀ o', ¬ Reg s.tables o' l) →
      ∀ o' l', Reg s.tables o' l' ↔ l' ≠ l ∧ Reg s.tables o' l' := by
    intro hnone o' l'
    constructor
    · intro hr
      exact ⟨fun he => hnone o' (he ▸ hr), hr⟩
    · exact And.right
  have hstate : { s with tables := s.tables, complaints := s.complaints ++ [] } = s := by
    rw [List.append_nil]
  rcases hold with ⟨rfl, hout⟩ | ⟨rfl, hin⟩
  · exact ⟨s.tables, rfl, h.wf, same fun o' hr => hout (h.reg o' l hr).2.1⟩
  · unfold cleanUp
    cases hm : s.memory l with
    | nil =>
      refine ⟨s.tables, ?_, h.wf, same fun o' => h.not_reg_of_ne (by rw [hm]; nofun)⟩
      show Except.ok { s with tables := s.tables, complaints := s.complaints ++ [] } = _
      rw [hstate]
    | tagged n =>
      refine ⟨s.tables, ?_, h.wf, same fun o' => h.not_reg_of_ne (by rw [hm]; nofun)⟩
      show Except.ok { s with tables := s.tables, complaints := s.complaints ++ [] } = _
      rw [hstate]
    | object o =>
      obtain ⟨tables, complaints, e, hwf, hknown, hreg⟩ := unregister_reg h.wf o l
      have hnone := hknown (h.held o l hin hm)
      subst hnone
      refine ⟨tables, ?_, hwf, fun o' l' => ?_⟩
      · simp only []
        rw [e]
        show Except.ok { s with tables := tables, complaints := s.complaints ++ [] } = _
        rw [List.append_nil]
      · rw [hreg]
        constructor
        · rintro ⟨hne, hr⟩
          refine ⟨?_, hr⟩
          rintro rfl
          have := (h.reg o' l' hr).1
          rw [hm] at this
          injection this with this
          exact hne ⟨this.symm, rfl⟩
        · rintro ⟨hne, hr⟩
          exact ⟨fun he => hne he.2, hr⟩

/-- The object is refused: its deallocation has begun, or its class says so. -/
def Refused (s : State) (overrides : Overrides) (o : Object) : Prop :=
  s.hasCustomRR o = false ∧ s.phase o ≠ .live ∨
    s.hasCustomRR o = true ∧ overrides.allowsWeakReference = some false

theorem refused_of_viability {o : Object}
    (h : viability overrides s (.object o) = .deallocating) : Refused s overrides o := by
  simp only [viability] at h
  split at h
  · rename_i hcustom
    split at h
    · cases h
    · cases h
    · rename_i ha
      exact Or.inr ⟨hcustom, ha⟩
  · rename_i hcustom
    split at h
    · cases h
    · rename_i hp
      exact Or.inl ⟨by simpa using hcustom, hp⟩

/-- The new value of a variable without registration. -/
theorem assign_spec (hwf : ∀ i, (s.tables i).WF) (hnone : ∀ o, ¬ Reg s.tables o l) (new : IdValue)
    (crash : Bool) :
    (∃ tables v, assign overrides s l crash (some new) = .ok { s with
          tables := tables
          weaklyReferenced := setWeaklyReferenced s.weaklyReferenced v
          memory := Function.update s.memory l v } ∧
        (∀ i, (tables i).WF) ∧ (∀ o, v = .object o → new = .object o) ∧
          ∀ o' l', Reg tables o' l' ↔ l' = l ∧ v = .object o' ∨ Reg s.tables o' l') ∨
      ∃ o, (new = .object o ∧ crash = true ∧ Refused s overrides o) ∧
        assign overrides s l crash (some new) = .error (.cannotFormWeakReference o) := by
  have reject : ∀ v : IdValue, (∀ o, v ≠ .object o) →
      ∀ o' l', Reg s.tables o' l' ↔ l' = l ∧ v = .object o' ∨ Reg s.tables o' l' := by
    intro v hv o' l'
    simp [hv]
  have keep : ∀ o, Function.update s.tables (indexForPointer o) (s.tables (indexForPointer o)) =
      s.tables := fun o => Function.update_eq_self _ _
  cases new with
  | nil => exact Or.inl ⟨s.tables, .nil, rfl, hwf, fun o => nofun, reject _ fun o => nofun⟩
  | tagged n =>
    exact Or.inl ⟨s.tables, .tagged n, rfl, hwf, fun o => nofun, reject _ fun o => nofun⟩
  | object o =>
    cases hv : viability overrides s (.object o) with
    | viable =>
      obtain ⟨tables, e, hwf', hreg⟩ := register_reg hwf (hnone o) crash
      refine Or.inl ⟨tables, .object o, ?_, hwf', ?_, fun o' l' => ?_⟩
      · unfold assign
        simp only [hv]
        rw [e]
        rfl
      · exact fun o' he => he
      · rw [hreg, IdValue.object.injEq]
        constructor
        · rintro (⟨rfl, rfl⟩ | hr)
          · exact Or.inl ⟨rfl, rfl⟩
          · exact Or.inr hr
        · rintro (⟨rfl, rfl⟩ | hr)
          · exact Or.inl ⟨rfl, rfl⟩
          · exact Or.inr hr
    | unsupported =>
      refine Or.inl ⟨s.tables, .nil, ?_, hwf, fun o => nofun, reject _ fun o => nofun⟩
      simp only [assign, register, hv, weakRegister]
      show Except.ok _ = _
      rw [keep]
    | deallocating =>
      cases crash with
      | true =>
        refine Or.inr ⟨o, ⟨rfl, rfl, refused_of_viability hv⟩, ?_⟩
        simp only [assign, register, hv, weakRegister]
        rfl
      | false =>
        refine Or.inl ⟨s.tables, .nil, ?_, hwf, fun o => nofun, reject _ fun o => nofun⟩
        simp only [assign, register, hv, weakRegister]
        show Except.ok _ = _
        rw [keep]

end Store

/-! ## Every step keeps the invariant -/

section Step

variable {overrides : Overrides} {s s' : State} {t : Thread} {l : Location}

/-- The result of a step that may end the process over a weak reference to `o` only, where
`refused o`. -/
def Keeps (refused : Object → Prop) (r : Except Fatal State) : Prop :=
  (∃ s', r = .ok s' ∧ Inv s') ∨ ∃ o, refused o ∧ r = .error (.cannotFormWeakReference o)

theorem Keeps.ok {refused : Object → Prop} (h : Inv s) : Keeps refused (.ok s) :=
  Or.inl ⟨s, rfl, h⟩

/-- The thread is about to store an object with the crashing variant, and it is refused. -/
def StoresRefused (s : State) (t : Thread) (overrides : Overrides) (o : Object) : Prop :=
  ∃ l old, s.pc t = .storing l old (some (.object o)) true ∧ Refused s overrides o

/-- A variable that was written under the locks, when its thread leaves. -/
theorem inv_leave {tables : SideTables} {weaklyReferenced : Object → Bool} {memory : Memory}
    (h : Inv s) (ht : Occupies t (s.status l)) (hwf : ∀ i, (tables i).WF)
    (hreg : ∀ o l', Reg tables o l' ↔
      l' = l ∧ InUse (finished t (s.status l)) ∧ memory l = .object o ∨
        l' ≠ l ∧ Reg s.tables o l')
    (hmem : ∀ l', l' ≠ l → memory l' = s.memory l')
    (hown : ∀ o, InUse (finished t (s.status l)) → memory l = .object o →
      Held (s.phase o) ∧ weaklyReferenced o = true)
    (hweak : ∀ o, s.weaklyReferenced o = true → weaklyReferenced o = true) :
    Inv (leave { s with
      tables := tables, weaklyReferenced := weaklyReferenced, memory := memory } t l) := by
  have hstatus : ∀ l', l' ≠ l →
      Function.update s.status l (finished t (s.status l)) l' = s.status l' :=
    fun l' hne => Function.update_of_ne hne ..
  have hself : Function.update s.status l (finished t (s.status l)) l =
      finished t (s.status l) := Function.update_self ..
  refine ⟨hwf, fun o l' hr => ?_, fun o l' hu hm => ?_, ?_, h.refs, h.quiet⟩
  · show memory l' = _ ∧ InUse (Function.update s.status l (finished t (s.status l)) l') ∧
      Held (s.phase o) ∧ weaklyReferenced o = true
    rcases (hreg o l').mp hr with ⟨rfl, hu, hm⟩ | ⟨hne, hold⟩
    · obtain ⟨hheld, hw⟩ := hown o hu hm
      rw [hself]
      exact ⟨hm, hu, hheld, hw⟩
    · obtain ⟨hm, hu, hp, hw⟩ := h.reg o l' hold
      rw [hstatus l' hne, hmem l' hne]
      exact ⟨hm, hu, hp, hweak o hw⟩
  · replace hu : InUse (Function.update s.status l (finished t (s.status l)) l') := hu
    replace hm : memory l' = .object o := hm
    refine (hreg o l').mpr ?_
    by_cases hll : l' = l
    · subst hll
      rw [hself] at hu
      exact Or.inl ⟨rfl, hu, hm⟩
    · rw [hstatus l' hll] at hu
      rw [hmem l' hll] at hm
      exact Or.inr ⟨hll, h.held o l' hu hm⟩
  · exact threads_leave (s := { s with
      tables := tables, weaklyReferenced := weaklyReferenced, memory := memory })
      (fun t' l' _ => h.threads t' l') ht

/-- **`storeWeak` under the locks.** -/
theorem keeps_storeLocked (h : Inv s) {old new : Option IdValue} {crash : Bool}
    (hpc : s.pc t = .storing l old new crash) (hnew : (s.pc t).newHeld s.phase = true)
    (hold : changed s l old = false) :
    Keeps (StoresRefused s t overrides) (storeLocked overrides s t l old new crash) := by
  have hs := h.threads t l (by rw [hpc]; rfl)
  rw [hpc] at hs hnew
  have ht : Occupies t (s.status l) := hs.occupies rfl
  obtain ⟨tables, e, hwf, hreg⟩ : ∃ tables, cleanUp s l old = .ok { s with tables := tables } ∧
      (∀ i, (tables i).WF) ∧ ∀ o' l', Reg tables o' l' ↔ l' ≠ l ∧ Reg s.tables o' l' := by
    refine cleanUp_spec h ?_
    cases old with
    | none =>
      rw [hs.1]
      exact Or.inl ⟨rfl, id⟩
    | some v =>
      have hv : s.memory l = v := by simpa [changed] using hold
      subst hv
      refine Or.inr ⟨rfl, ?_⟩
      cases new with
      | none =>
        rw [show s.status l = .destroying t from hs]
        trivial
      | some w => exact inUse_of_mem_users hs
  unfold storeLocked
  rw [e]
  cases new with
  | none =>
    -- Only `objc_destroyWeak` has no new value, and its variable is not in use any more.
    have hout : ¬ InUse (finished t (s.status l)) := by
      cases old with
      | none => exact absurd hs.2 nofun
      | some v =>
        rw [show s.status l = .destroying t from hs]
        exact id
    refine Keeps.ok (inv_leave h ht hwf (fun o l' => ?_) (fun _ _ => rfl)
      (fun o hu => absurd hu hout) (fun _ => id))
    rw [hreg]
    constructor
    · exact Or.inr
    · rintro (⟨_, hu, _⟩ | hr)
      · exact absurd hu hout
      · exact hr
  | some w =>
    have hin : InUse (finished t (s.status l)) := by
      cases old with
      | none =>
        rw [hs.1]
        trivial
      | some v =>
        obtain ⟨us, hst, _⟩ := mem_users (show t ∈ users (s.status l) from hs)
        rw [hst]
        trivial
    have hnone : ∀ o, ¬ Reg tables o l := fun o hr => ((hreg o l).mp hr).1 rfl
    rcases @assign_spec overrides { s with tables := tables } l hwf hnone w crash with
      ⟨tables', v, e', hwf', hsame, hreg'⟩ | ⟨o, ⟨rfl, rfl, hrefused⟩, e'⟩
    · suffices hleft : Inv (leave { s with
          tables := tables'
          weaklyReferenced := setWeaklyReferenced s.weaklyReferenced v
          memory := Function.update s.memory l v } t l) by
        refine Or.inl ⟨_, ?_, hleft⟩
        show (assign overrides { s with tables := tables } l crash (some w) >>= _) = _
        rw [e']
        rfl
      refine inv_leave h ht hwf' (fun o l' => ?_) (fun l' hne => ?_) (fun o _ hm => ?_)
        (fun o hw => ?_)
      · rw [hreg', hreg, Function.update_self]
        constructor
        · rintro (⟨rfl, rfl⟩ | hr)
          · exact Or.inl ⟨rfl, hin, rfl⟩
          · exact Or.inr hr
        · rintro (⟨rfl, _, rfl⟩ | hr)
          · exact Or.inl ⟨rfl, rfl⟩
          · exact Or.inr hr
      · rw [Function.update_of_ne hne]
      · rw [Function.update_self] at hm
        subst hm
        have hw := hsame o rfl
        subst hw
        refine ⟨?_, Function.update_self ..⟩
        simpa [Pc.newHeld, Held] using hnew
      · cases v with
        | nil => exact hw
        | tagged n => exact hw
        | object o' =>
          show Function.update s.weaklyReferenced o' true o = true
          by_cases ho : o = o'
          · rw [ho, Function.update_self]
          · rw [Function.update_of_ne ho]
            exact hw
    · refine Or.inr ⟨o, ⟨l, old, hpc, hrefused⟩, ?_⟩
      show (assign overrides { s with tables := tables } l true (some (.object o)) >>= _) = _
      rw [e']
      rfl

theorem inv_readOld (h : Inv s) {old new : Option IdValue} {crash : Bool}
    (hpc : s.pc t = .storing l old new crash) : Inv (readOld s t l old new crash) := by
  refine ⟨h.wf, h.reg, h.held, fun t' l' hl => ?_, h.refs, h.quiet⟩
  simp only [readOld] at hl ⊢
  by_cases hne : t' = t
  · subst hne
    have hs := h.threads t' l (by rw [hpc]; rfl)
    rw [hpc] at hs
    rw [Function.update_self] at hl ⊢
    injection hl with hl
    subst hl
    cases old with
    | none => exact hs
    | some v => cases new <;> exact hs
  · rw [Function.update_of_ne hne] at hl ⊢
    exact h.threads t' l' hl

theorem keeps_commit (h : Inv s) (ha : allowed s (.commit t overrides) = true) :
    Keeps (StoresRefused s t overrides) (commit overrides s t) := by
  simp only [allowed, Bool.and_eq_true] at ha
  unfold commit
  split
  · exact Keeps.ok h
  · rename_i l old new crash hpc
    split
    · exact Keeps.ok (inv_readOld h hpc)
    · rename_i hold
      exact keeps_storeLocked h hpc ha.1 (by simpa using hold)
  · rename_i l o hpc
    have hs := h.threads t l (by rw [hpc]; rfl)
    rw [hpc] at hs
    split
    · exact Keeps.ok (inv_readLoad (h.but t) hs)
    · rw [hpc] at ha
      exact Keeps.ok (inv_loadLocked (h.but t) hs ha.2)

theorem inv_retry (h : Inv s) (t : Thread) : Inv (retry s t) := by
  unfold retry
  split
  · exact h
  · rename_i l old new crash hpc
    exact inv_readOld h hpc
  · rename_i l o hpc
    have hs := h.threads t l (by rw [hpc]; rfl)
    rw [hpc] at hs
    exact inv_readLoad (h.but t) hs

/-- A change of phases and reference counts alone. -/
theorem inv_phases (h : Inv s) {phase : Object → Phase} {hasCustomRR : Object → Bool}
    {refs : Object → Nat} {weaklyReferenced : Object → Bool}
    (hp : ∀ o, Held (s.phase o) → Held (phase o) ∧
      (s.weaklyReferenced o = true → weaklyReferenced o = true))
    (hr : ∀ o, 0 < refs o ↔ phase o = .live) :
    Inv { s with
      phase := phase, hasCustomRR := hasCustomRR, refs := refs
      weaklyReferenced := weaklyReferenced } :=
  ⟨h.wf, fun o l hreg =>
    have ⟨hm, hu, hh, hw⟩ := h.reg o l hreg
    ⟨hm, hu, (hp o hh).1, (hp o hh).2 hw⟩, h.held, h.threads, hr, h.quiet⟩

theorem inv_alloc (h : Inv s) {o : Object} (ho : s.phase o = .freed) (custom : Bool) :
    Inv { s with
      phase := Function.update s.phase o .live
      hasCustomRR := Function.update s.hasCustomRR o custom
      refs := Function.update s.refs o 1
      weaklyReferenced := Function.update s.weaklyReferenced o false } := by
  refine inv_phases h (fun o' hh => ?_) (fun o' => ?_)
  · have hne : o' ≠ o := by
      rintro rfl
      rw [ho] at hh
      rcases hh with hh | hh <;> cases hh
    rw [Function.update_of_ne hne, Function.update_of_ne hne]
    exact ⟨hh, id⟩
  · by_cases he : o' = o
    · subst he
      simp
    · rw [Function.update_of_ne he, Function.update_of_ne he]
      exact h.refs o'

theorem inv_retain (h : Inv s) {o : Object} (ho : s.phase o = .live) :
    Inv { s with refs := Function.update s.refs o (s.refs o + 1) } :=
  ⟨h.wf, h.reg, h.held, h.threads, ((h.but 0).retain ho).refs, h.quiet⟩

theorem inv_release (h : Inv s) {o : Object} (ho : s.phase o = .live) : Inv (release s o) := by
  have hpos := (h.refs o).mpr ho
  refine inv_phases h (fun o' hh => ⟨?_, id⟩) (fun o' => ?_)
  · by_cases he : o' = o
    · subst he
      rw [Function.update_self]
      split
      · exact Or.inr rfl
      · exact hh
    · rw [Function.update_of_ne he]
      exact hh
  · by_cases he : o' = o
    · subst he
      rw [Function.update_self, Function.update_self]
      split
      · rename_i hone
        simp [hone]
      · rename_i hone
        simp only [ho, iff_true]
        omega
    · rw [Function.update_of_ne he, Function.update_of_ne he]
      exact h.refs o'

theorem inv_free (h : Inv s) {o : Object} (ho : s.phase o = .cleared) :
    Inv { s with phase := Function.update s.phase o .freed } := by
  refine inv_phases h (fun o' hh => ⟨?_, id⟩) (fun o' => ?_)
  · have hne : o' ≠ o := by
      rintro rfl
      rw [ho] at hh
      rcases hh with hh | hh <;> cases hh
    rw [Function.update_of_ne hne]
    exact hh
  · by_cases he : o' = o
    · subst he
      rw [Function.update_self, h.refs, ho]
      simp
    · rw [Function.update_of_ne he]
      exact h.refs o'

/-- **Deallocation** zeroes the variables of the object. -/
theorem keeps_clearDeallocating (h : Inv s) {o : Object} (ho : s.phase o = .deallocating)
    (refused : Object → Prop) : Keeps refused (clearDeallocating s o) := by
  have hrefs : ∀ o', 0 < s.refs o' ↔ Function.update s.phase o .cleared o' = .live := by
    intro o'
    by_cases he : o' = o
    · subst he
      rw [Function.update_self, h.refs, ho]
      simp
    · rw [Function.update_of_ne he]
      exact h.refs o'
  unfold clearDeallocating
  split
  · obtain ⟨tables, memory, e, hwf, hreg, hmem⟩ :=
      clear_reg h.wf (fun l hr => (h.reg o l hr).1)
    refine Or.inl ⟨{ s with
      tables := tables, memory := memory, complaints := s.complaints ++ [],
      phase := Function.update s.phase o .cleared }, ?_, hwf, fun o' l' hr => ?_,
      fun o' l' hu hm => ?_, h.threads, hrefs, ?_⟩
    · rw [e]
      rfl
    · obtain ⟨hne, hold⟩ := (hreg o' l').mp hr
      obtain ⟨hm, hu, hp, hw⟩ := h.reg o' l' hold
      have hkeep : memory l' = s.memory l' := by
        rcases hmem l' with ⟨_, hown⟩ | ⟨hsame, _⟩
        · rw [(h.reg o l' hown).1] at hm
          injection hm with hm
          exact absurd hm.symm hne
        · exact hsame
      refine ⟨hkeep.trans hm, hu, ?_, hw⟩
      show Held (Function.update s.phase o .cleared o')
      rw [Function.update_of_ne hne]
      exact hp
    · replace hm : memory l' = .object o' := hm
      rcases hmem l' with ⟨hnil, _⟩ | ⟨hsame, hnot⟩
      · rw [hnil] at hm
        cases hm
      · rw [hsame] at hm
        have hold := h.held o' l' hu hm
        refine (hreg o' l').mpr ⟨?_, hold⟩
        rintro rfl
        exact hnot hold
    · show s.complaints ++ [] = []
      rw [h.quiet]
      rfl
  · rename_i hweak
    refine Keeps.ok ⟨h.wf, fun o' l' hr => ?_, h.held, h.threads, hrefs, h.quiet⟩
    obtain ⟨hm, hu, hp, hw⟩ := h.reg o' l' hr
    have hne : o' ≠ o := by
      rintro rfl
      exact hweak hw
    refine ⟨hm, hu, ?_, hw⟩
    show Held (Function.update s.phase o .cleared o')
    rw [Function.update_of_ne hne]
    exact hp

/-- A thread enters an operation. -/
theorem inv_enter (h : Inv s) {pc : Pc} {st : Status} (huse : InUse st ↔ InUse (s.status l))
    (ht : ∀ l', pc.location = some l' → l' = l ∧ Stands t pc st)
    (hst : ∀ t' pc', t' ≠ t → pc'.location = some l → Stands t' pc' (s.status l) →
      Stands t' pc' st) :
    Inv (enter s t l pc st) := by
  have huse' : ∀ l', InUse (Function.update s.status l st l') ↔ InUse (s.status l') := by
    intro l'
    by_cases hll : l' = l
    · rw [hll, Function.update_self]
      exact huse
    · rw [Function.update_of_ne hll]
  refine ⟨h.wf, fun o l' hr => ?_, fun o l' hu hm => ?_, threads_enter h.threads ht hst, h.refs,
    h.quiet⟩
  · obtain ⟨hm, hu, hp, hw⟩ := h.reg o l' hr
    exact ⟨hm, (huse' l').mpr hu, hp, hw⟩
  · exact h.held o l' ((huse' l').mp hu) hm

theorem inv_initWeak (h : Inv s) (hl : s.status l = .unused) (new : IdValue) (crash : Bool) :
    Inv (initWeak s t l new crash) := by
  have vacant : ∀ t', (s.pc t').location ≠ some l := fun t' he =>
    (h.threads t' l he).vacant (Or.inl hl) he
  unfold initWeak
  split
  · refine ⟨h.wf, fun o l' hr => ?_, fun o l' hu hm => ?_, fun t' l' he => ?_, h.refs, h.quiet⟩
    · obtain ⟨hm, hu, hp, hw⟩ := h.reg o l' hr
      have hne : l' ≠ l := by
        rintro rfl
        rw [hl] at hu
        exact hu
      show Function.update s.memory l .nil l' = _ ∧
        InUse (Function.update s.status l (.active []) l') ∧ _
      rw [Function.update_of_ne hne, Function.update_of_ne hne]
      exact ⟨hm, hu, hp, hw⟩
    · replace hm : Function.update s.memory l .nil l' = .object o := hm
      replace hu : InUse (Function.update s.status l (.active []) l') := hu
      by_cases hll : l' = l
      · rw [hll, Function.update_self] at hm
        cases hm
      · rw [Function.update_of_ne hll] at hm hu
        exact h.held o l' hu hm
    · have hne : l' ≠ l := by
        rintro rfl
        exact vacant t' he
      show Stands t' (s.pc t') (Function.update s.status l (.active []) l')
      rw [Function.update_of_ne hne]
      exact h.threads t' l' he
  · refine inv_enter h (by rw [hl]; exact Iff.rfl) (fun l' he => ?_) (fun t' pc' _ he hs => ?_)
    · injection he with he
      exact ⟨he.symm, rfl, rfl⟩
    · exact (hs.vacant (Or.inl hl) he).elim

theorem inUse_of_isActive {st : Status} (h : st.isActive = true) : InUse st := by
  cases st with
  | active us => trivial
  | unused => cases h
  | initializing t => cases h
  | destroying t => cases h

/-- A thread joins those in an operation on a variable. -/
theorem inv_join (h : Inv s) (hl : (s.status l).isActive = true) {pc : Pc}
    (hpc : ∀ l', pc.location = some l' → l' = l ∧ ∀ st, t ∈ users st → Stands t pc st) :
    Inv (enter s t l pc (.active (users (s.status l) ++ [t]))) := by
  refine inv_enter h ⟨fun _ => inUse_of_isActive hl, fun _ => trivial⟩ (fun l' he => ?_)
    (fun t' pc' _ he hs => hs.enter hl he)
  obtain ⟨hl', hs⟩ := hpc l' he
  exact ⟨hl', hs _ (List.mem_append_right _ (List.mem_singleton_self t))⟩

/-- What may end the process in a step. -/
def Action.StoresRefused (s : State) : Action → Object → Prop
  | .commit t overrides => WeakVariables.StoresRefused s t overrides
  | _ => fun _ => False

theorem keeps_perform (h : Inv s) (a : Action) (ha : allowed s a = true) :
    Keeps (a.StoresRefused s) (perform s a) := by
  cases a with
  | alloc o custom => exact Keeps.ok (inv_alloc h (of_decide_eq_true ha) custom)
  | retain o => exact Keeps.ok (inv_retain h (of_decide_eq_true ha))
  | release o => exact Keeps.ok (inv_release h (of_decide_eq_true ha))
  | clearDeallocating o => exact keeps_clearDeallocating h (of_decide_eq_true ha) _
  | free o => exact Keeps.ok (inv_free h (of_decide_eq_true ha))
  | write l v =>
    have hl : s.status l = .unused := of_decide_eq_true ha
    have hout : ¬ InUse (s.status l) := by
      rw [hl]
      exact id
    refine Keeps.ok ⟨h.wf, fun o l' hr => ?_, fun o l' hu hm => ?_, h.threads, h.refs, h.quiet⟩
    · obtain ⟨hm, hu, hp, hw⟩ := h.reg o l' hr
      have hne : l' ≠ l := by
        rintro rfl
        exact hout hu
      refine ⟨?_, hu, hp, hw⟩
      show Function.update s.memory l v l' = _
      rw [Function.update_of_ne hne]
      exact hm
    · have hne : l' ≠ l := by
        rintro rfl
        exact hout hu
      replace hm : Function.update s.memory l v l' = .object o := hm
      rw [Function.update_of_ne hne] at hm
      exact h.held o l' hu hm
  | initWeak t l new crash =>
    simp only [allowed, Bool.and_eq_true, decide_eq_true_eq] at ha
    exact Keeps.ok (inv_initWeak h ha.2 new crash)
  | storeWeak t l new crash =>
    simp only [allowed, Bool.and_eq_true, decide_eq_true_eq] at ha
    refine Keeps.ok (inv_join h ha.2 fun l' he => ?_)
    injection he with he
    exact ⟨he.symm, fun st hm => hm⟩
  | destroyWeak t l =>
    simp only [allowed, Bool.and_eq_true, decide_eq_true_eq] at ha
    refine Keeps.ok (inv_enter h ?_ (fun l' he => ?_) (fun t' pc' _ he hs => ?_))
    · rw [ha.2]
      exact Iff.rfl
    · injection he with he
      exact ⟨he.symm, rfl⟩
    · exact (hs.vacant (Or.inr ha.2) he).elim
  | loadWeakRetained t l =>
    simp only [allowed, Bool.and_eq_true, decide_eq_true_eq] at ha
    refine Keeps.ok (inv_readLoad ((inv_join h ha.2 fun l' he => ?_).but t) ?_)
    · rw [ha.1] at he
      cases he
    · show t ∈ users (Function.update s.status l _ l)
      rw [Function.update_self]
      exact List.mem_append_right _ (List.mem_singleton_self t)
  | commit t overrides => exact keeps_commit h ha
  | retry t => exact Keeps.ok (inv_retry h t)

/-- **The step lemma.** -/
theorem step_inv (h : Inv s) {a : Action} (hs : step s a = .ok s') : Inv s' := by
  unfold step at hs
  split at hs
  · rename_i ha
    have hp := keeps_perform h a ha
    rcases hp with ⟨s1, e, h1⟩ | ⟨o, _, e⟩
    · rw [e] at hs
      cases hs
      exact h1
    · rw [e] at hs
      cases hs
  · cases hs

theorem step_fatal (h : Inv s) {a : Action} {f : Fatal} (hs : step s a = .error (.fatal f)) :
    ∃ o, f = .cannotFormWeakReference o ∧ a.StoresRefused s o := by
  unfold step at hs
  split at hs
  · rename_i ha
    have hp := keeps_perform h a ha
    rcases hp with ⟨s1, e, h1⟩ | ⟨o, hrefused, e⟩
    · rw [e] at hs
      cases hs
    · rw [e] at hs
      cases hs
      exact ⟨o, rfl, hrefused⟩
  · cases hs

/-- **The run lemma.** -/
theorem run_inv {as : List Action} (h : run as = .ok s) : Inv s :=
  Runs.foldlM_invariant (fun _ _ _ hi => step_inv hi) inv_init h

end Step

end BottomResearch.WeakVariables
