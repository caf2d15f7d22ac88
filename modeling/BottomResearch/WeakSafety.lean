import BottomResearch.WeakProtocol

/-!
# Safety of weak variables

What holds over every interleaving of the threads.  Proved here:

* `run_safe`: no variable in use holds an object that was cleared or freed, the
  registrations are what the variables hold, and the tables never end the
  process;
* `load_live`: a load returns an object only while the variable holds it, with the
  reference that its class adds.
-/

namespace BottomResearch.WeakVariables

open WeakReferences

variable {overrides : Overrides} {s s' : State}

/-- **Weak variables never dangle.**  Whatever the threads do and in whichever
order, a variable in use holds an object exactly when it is registered for it,
that object is neither cleared nor freed, nothing was reported, and the only
thing that ends the process is a store, with the crashing variant, of an object whose
deallocation has begun or whose class does not allow weak references to it. -/
theorem run_safe {as : List Action} (h : run as = .ok s) :
    (∀ l o, InUse (s.status l) → (s.memory l = .object o ↔ Reg s.tables o l)) ∧
      (∀ l o, InUse (s.status l) → s.memory l = .object o →
        s.phase o ≠ .cleared ∧ s.phase o ≠ .freed) ∧
      s.complaints = [] ∧
      ∀ a f, step s a = .error (.fatal f) →
        ∃ o, f = .cannotFormWeakReference o ∧ a.StoresRefused s o := by
  have hinv := run_inv h
  refine ⟨fun l o hu => ⟨hinv.held o l hu, fun hr => (hinv.reg o l hr).1⟩, fun l o hu hm => ?_,
    hinv.quiet, fun a f hs => step_fatal hinv hs⟩
  rcases (hinv.reg o l (hinv.held o l hu hm)).2.2.1 with hp | hp <;> rw [hp] <;>
    exact ⟨nofun, nofun⟩

/-- No override is called. -/
def noOverrides : Overrides := ⟨none, none⟩

/-- Two variables of an object, one of them stored while a thread loads it, up to
the deallocation that zeroes both. -/
def lastRelease : List Action :=
  [.alloc 16 false, .initWeak 1 8 (.object 16) true, .commit 1 noOverrides,
    .initWeak 1 24 .nil true, .loadWeakRetained 2 24, .storeWeak 1 24 (.object 16) true,
    .loadWeakRetained 2 8, .commit 1 noOverrides, .commit 2 noOverrides, .release 16, .release 16,
    .clearDeallocating 16, .free 16]

theorem run_safe_lastRelease :
    ∃ s, run lastRelease = .ok s ∧ ∀ l, InUse (s.status l) → s.memory l ≠ .object 16 := by
  obtain ⟨s, hs, hfreed⟩ : ∃ s, run lastRelease = .ok s ∧ s.phase 16 = .freed := ⟨_, rfl, rfl⟩
  exact ⟨s, hs, fun l hu hm => ((run_safe hs).2.1 l 16 hu hm).2 hfreed⟩

/-! ## Loads -/

/-- The overrides that a step may call. -/
def Action.called : Action → Overrides
  | .commit _ overrides => overrides
  | _ => noOverrides

/-- The object is returned, before and after the step: with one reference more, or with what
its class did. -/
structure Returned (overrides : Overrides) (s s' : State) (o : Object) : Prop where
  held : Held (s'.phase o)
  plain : s.hasCustomRR o = false → s'.phase o = .live ∧ s'.refs o = s.refs o + 1
  custom : s.hasCustomRR o = true → ∃ retained, overrides.retainWeakReference = some (true, retained) ∧
    s'.refs o = s.refs o + (if retained then 1 else 0) ∧ (retained = true → s'.phase o = .live)

/-- The object is not returned: its deallocation has begun, or its class declines. -/
def Declined (overrides : Overrides) (s : State) (o : Object) : Prop :=
  s.hasCustomRR o = false ∧ s.phase o ≠ .live ∨
    s.hasCustomRR o = true ∧ ∀ retained, overrides.retainWeakReference ≠ some (true, retained)

/-- What a load may answer, before and after the step in which it returns. -/
def Answers (overrides : Overrides) (s s' : State) (l : Location) : IdValue → Prop
  | .object o => s.memory l = .object o ∧ Returned overrides s s' o
  | .tagged n => s.memory l = .tagged n
  | .nil => s.memory l = .nil ∨ ∃ o, s.memory l = .object o ∧ Declined overrides s o

/-- A step lets at most one load return. -/
def Loads (overrides : Overrides) (s s' : State) : Prop :=
  s'.loads = s.loads ∨ ∃ t l v, s'.loads = s.loads ++ [(t, l, v)] ∧ InUse (s.status l) ∧
    Answers overrides s s' l v

theorem loads_readLoad {t : Thread} {l : Location} (hu : InUse (s.status l)) {s1 : State}
    (hm : s1.memory = s.memory) (hl : s1.loads = s.loads) :
    Loads overrides s (readLoad s1 t l) := by
  unfold readLoad
  split
  · exact Or.inl hl
  · rename_i v hv
    refine Or.inr ⟨t, l, _, congrArg (· ++ [(t, l, s1.memory l)]) hl, hu, ?_⟩
    rw [hm] at hv ⊢
    cases hw : s.memory l with
    | nil => exact Or.inl hw
    | tagged n => exact hw
    | object o => exact absurd hw (hv o)

theorem loads_loadLocked (hinv : Inv s) {t : Thread} {l : Location} (hu : InUse (s.status l))
    {o : Object} (hm : s.memory l = .object o)
    (hmay : (Pc.loading l o).mayRetain s overrides = true) :
    Loads overrides s (loadLocked overrides s t l o) := by
  have hheld : Held (s.phase o) := (hinv.reg o l (hinv.held o l hu hm)).2.2.1
  have hlive := live_of_retained hmay
  have hself : Function.update s.refs o (s.refs o + 1) o = s.refs o + 1 := Function.update_self ..
  unfold loadLocked
  unfold tryRetain at hlive ⊢
  cases hc : s.hasCustomRR o with
  | false =>
    have hplain : s.hasCustomRR o ≠ true := by simp [hc]
    rcases Decidable.em (s.phase o = .live) with hp | hp
    · simp only [Bool.false_eq_true, if_false, hp, if_true]
      exact Or.inr ⟨t, l, .object o, rfl, hu, hm, hheld, fun _ => ⟨hp, hself⟩,
        fun hyes => absurd hyes hplain⟩
    · simp only [Bool.false_eq_true, if_false, hp]
      exact Or.inr ⟨t, l, .nil, rfl, hu, Or.inr ⟨o, hm, Or.inl ⟨hc, hp⟩⟩⟩
  | true =>
    have hcustom : s.hasCustomRR o ≠ false := by simp [hc]
    rw [hc] at hlive
    cases hr : overrides.retainWeakReference with
    | none =>
      exact Or.inr ⟨t, l, .nil, rfl, hu, Or.inr ⟨o, hm, Or.inr ⟨hc, fun _ => by rw [hr]; nofun⟩⟩⟩
    | some r =>
      obtain ⟨answer, retained⟩ := r
      rw [hr] at hlive
      cases answer with
      | false =>
        have hdeclined : Declined overrides s o := Or.inr ⟨hc, fun b hb => by
          rw [hr] at hb
          cases hb⟩
        cases retained <;> exact Or.inr ⟨t, l, .nil, rfl, hu, Or.inr ⟨o, hm, hdeclined⟩⟩
      | true =>
        cases retained with
        | false => exact Or.inr ⟨t, l, .object o, rfl, hu, hm, hheld, fun hno => absurd hno hcustom,
            fun _ => ⟨false, hr, rfl, fun hyes => absurd hyes Bool.false_ne_true⟩⟩
        | true => exact Or.inr ⟨t, l, .object o, rfl, hu, hm, hheld, fun hno => absurd hno hcustom,
            fun _ => ⟨true, hr, hself, fun _ => hlive rfl⟩⟩

theorem cleanUp_loads {l : Location} {old : Option IdValue} (h : cleanUp s l old = .ok s') :
    s'.loads = s.loads := by
  unfold cleanUp at h
  split at h
  · rename_i v
    cases hu : unregister s.tables v l with
    | error f =>
      rw [hu] at h
      cases h
    | ok r =>
      rw [hu] at h
      cases h
      rfl
  · cases h
    rfl

theorem assign_loads {l : Location} {crash : Bool} {new : Option IdValue}
    (h : assign overrides s l crash new = .ok s') : s'.loads = s.loads := by
  unfold assign at h
  split at h
  · rename_i v
    cases hr : register s.tables v l (viability overrides s v) crash with
    | error f =>
      rw [hr] at h
      cases h
    | ok r =>
      rw [hr] at h
      cases h
      rfl
  · cases h
    rfl

theorem storeLocked_loads {t : Thread} {l : Location} {old new : Option IdValue} {crash : Bool}
    (h : storeLocked overrides s t l old new crash = .ok s') : s'.loads = s.loads := by
  unfold storeLocked at h
  cases h1 : cleanUp s l old with
  | error f =>
    rw [h1] at h
    cases h
  | ok s1 =>
    rw [h1] at h
    replace h : (assign overrides s1 l crash new >>= fun s => .ok (leave s t l)) = .ok s' := h
    cases h2 : assign overrides s1 l crash new with
    | error f =>
      rw [h2] at h
      cases h
    | ok s2 =>
      rw [h2] at h
      cases h
      exact (assign_loads h2).trans (cleanUp_loads h1)

theorem clearDeallocating_loads {o : Object} (h : clearDeallocating s o = .ok s') :
    s'.loads = s.loads := by
  unfold clearDeallocating at h
  split at h
  · cases hc : clear s.tables s.memory o with
    | error f =>
      rw [hc] at h
      cases h
    | ok r =>
      rw [hc] at h
      cases h
      rfl
  · cases h
    rfl

theorem loads_perform (hinv : Inv s) {a : Action} (ha : allowed s a = true)
    (h : perform s a = .ok s') : Loads a.called s s' := by
  have inUse : ∀ t l o, s.pc t = .loading l o → InUse (s.status l) := by
    intro t l o hpc
    have hs := hinv.threads t l (by rw [hpc]; rfl)
    rw [hpc] at hs
    exact inUse_of_mem_users hs
  cases a with
  | alloc o custom | retain o | release o | free o | write l v | storeWeak t l new crash
  | destroyWeak t l =>
    cases h
    exact Or.inl rfl
  | clearDeallocating o => exact Or.inl (clearDeallocating_loads h)
  | initWeak t l new crash =>
    cases h
    unfold initWeak
    split <;> exact Or.inl rfl
  | loadWeakRetained t l =>
    simp only [allowed, Bool.and_eq_true] at ha
    cases h
    exact loads_readLoad (inUse_of_isActive ha.2) rfl rfl
  | commit t overrides =>
    replace h : commit overrides s t = .ok s' := h
    simp only [allowed, Bool.and_eq_true] at ha
    unfold commit at h
    split at h
    · cases h
      exact Or.inl rfl
    · split at h
      · cases h
        exact Or.inl rfl
      · exact Or.inl (storeLocked_loads h)
    · rename_i l o hpc
      split at h
      · cases h
        exact loads_readLoad (inUse t l o hpc) rfl rfl
      · rename_i hm
        cases h
        rw [hpc] at ha
        exact loads_loadLocked hinv (inUse t l o hpc) (not_not.mp hm) ha.2
  | retry t =>
    cases h
    unfold retry
    split
    · exact Or.inl rfl
    · exact Or.inl rfl
    · rename_i l o hpc
      exact loads_readLoad (inUse t l o hpc) rfl rfl

/-- **A load is a strong reference.**  In every interleaving, when a load returns
an object, the variable holds that object in that moment, and it is alive and has one
reference more; where its class has its own reference counting, it is not cleared and has
what the class added in answering YES.  It returns nil only when the variable holds nil or
the object may not be retained. -/
theorem load_live {as : List Action} (h : run as = .ok s) {a : Action}
    (hs : step s a = .ok s') {t : Thread} {l : Location} {v : IdValue}
    (hl : s'.loads = s.loads ++ [(t, l, v)]) : InUse (s.status l) ∧
      Answers a.called s s' l v := by
  have hinv := run_inv h
  unfold step at hs
  split at hs
  · rename_i ha
    cases hp : perform s a with
    | error f =>
      rw [hp] at hs
      cases hs
    | ok s1 =>
      rw [hp] at hs
      cases hs
      rcases loads_perform hinv ha hp with hsame | ⟨t', l', v', hone, hu, hans⟩
      · rw [hsame] at hl
        have := congrArg List.length hl
        rw [List.length_append, List.length_singleton] at this
        omega
      · rw [hone] at hl
        have he := List.append_cancel_left hl
        injection he with he
        injection he with ht he
        injection he with hll hv
        subst hll hv
        exact ⟨hu, hans⟩
  · cases hs

/-- Class objects: `+allowsWeakReference` and `+retainWeakReference` of `NSObject` answer YES,
and nothing is counted. -/
def classMethods : Overrides := ⟨some true, some (true, false)⟩

/-- A load of a class object. -/
def classObject : List Action :=
  [.alloc 48 true, .initWeak 1 8 (.object 48) true, .commit 1 classMethods, .loadWeakRetained 2 8]

/-- A second thread has read the variable before the first one stores to it; a class object
is loaded without a reference. -/
theorem load_live_commit :
    (∃ s s', run (lastRelease.take 8) = .ok s ∧ step s (.commit 2 noOverrides) = .ok s' ∧
      s.memory 8 = .object 16 ∧ Returned noOverrides s s' 16) ∧
    ∃ s s', run classObject = .ok s ∧ step s (.commit 2 classMethods) = .ok s' ∧
      s.memory 8 = .object 48 ∧ Returned classMethods s s' 48 := by
  constructor
  · obtain ⟨s, hs, s', hs', hl⟩ : ∃ s, run (lastRelease.take 8) = .ok s ∧
        ∃ s', step s (.commit 2 noOverrides) = .ok s' ∧
          s'.loads = s.loads ++ [(2, 8, .object 16)] := ⟨_, rfl, _, rfl, rfl⟩
    exact ⟨s, s', hs, hs', (load_live hs hs' hl).2⟩
  · obtain ⟨s, hs, s', hs', hl⟩ : ∃ s, run classObject = .ok s ∧
        ∃ s', step s (.commit 2 classMethods) = .ok s' ∧
          s'.loads = s.loads ++ [(2, 8, .object 48)] := ⟨_, rfl, _, rfl, rfl⟩
    exact ⟨s, s', hs, hs', (load_live hs hs' hl).2⟩

end BottomResearch.WeakVariables
