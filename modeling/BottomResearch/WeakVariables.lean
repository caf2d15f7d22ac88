import BottomResearch.WeakReferences

/-!
# Weak variables

`storeWeak`, `objc_loadWeakRetained` and the deallocation of objects in
`NSObject.mm`, as steps of threads.  An operation on a weak variable first reads
the variable without a lock.  What it does next happens under the locks of the
side tables of the objects concerned, after a check that the variable still
holds what was read.  Proved here:

* `register_reg`, `unregister_reg`, `clear_reg`: the striped side tables as one
  relation between objects and variables.
-/

namespace BottomResearch.WeakVariables

open WeakReferences

abbrev Thread := Nat

/-! ## Side tables -/

/-- `StripedMap::StripeCount`. -/
def stripeCount : Nat := 64

def indexForPointer (addr : Nat) : Nat := ((addr >>> 4) ^^^ (addr >>> 9)) % stripeCount

/-- `SideTables()`, of which only the weak tables are used here. -/
abbrev SideTables := Nat → WeakTable

/-- `weak_unregister_no_lock` in the table of the object. -/
def unregister (tables : SideTables) (referent : IdValue) (l : Location) :
    Except Fatal (SideTables × List Complaint) :=
  match referent with
  | .object o => do
    let (t, complaints) ← weakUnregister (tables (indexForPointer o)) (.object o) l
    .ok (Function.update tables (indexForPointer o) t, complaints)
  | .nil | .tagged _ => .ok (tables, [])

/-- `weak_register_no_lock` in the table of the object. -/
def register (tables : SideTables) (referent : IdValue) (l : Location) (viability : Viability)
    (crashIfDeallocating : Bool) : Except Fatal (SideTables × IdValue) :=
  match referent with
  | .object o => do
    let (t, v) ← weakRegister (tables (indexForPointer o)) (.object o) l viability
      crashIfDeallocating
    .ok (Function.update tables (indexForPointer o) t, v)
  | .nil => .ok (tables, .nil)
  | .tagged n => .ok (tables, .tagged n)

/-- `weak_clear_no_lock` in the table of the object. -/
def clear (tables : SideTables) (memory : Memory) (o : Object) :
    Except Fatal (SideTables × Memory × List Complaint) := do
  let (t, memory, complaints) ← weakClear (tables (indexForPointer o)) memory o
  .ok (Function.update tables (indexForPointer o) t, memory, complaints)

/-- The object is weakly referenced from the variable. -/
def Reg (tables : SideTables) (o : Object) (l : Location) : Prop :=
  (tables (indexForPointer o)).Registered o l

/-! ## The state -/

/-- From its last release on an object is deallocating.  `clearDeallocating`
comes before its memory is freed. -/
inductive Phase where
  | live
  | deallocating
  | cleared
  | freed
  deriving DecidableEq, Repr

/-- What the overrides of `allowsWeakReference` and `retainWeakReference` do when a step
calls them; `none` where the message is forwarded.  The second one answers, and retains the
object or does not. -/
structure Overrides where
  allowsWeakReference : Option Bool
  retainWeakReference : Option (Bool × Bool)
  deriving DecidableEq, Repr

/-- What storage is used for.  `active` has the threads that are in an operation
on the variable. -/
inductive Status where
  | unused
  | initializing (t : Thread)
  | active (users : List Thread)
  | destroying (t : Thread)
  deriving DecidableEq, Repr

/-- Where a thread is.  `storing` is `storeWeak` with the value it has read, when
there is an old one, and the new value, when there is one. -/
inductive Pc where
  | idle
  | storing (l : Location) (old new : Option IdValue) (crashIfDeallocating : Bool)
  | loading (l : Location) (obj : Object)
  deriving DecidableEq, Repr

structure State where
  tables : SideTables
  memory : Memory
  phase : Object → Phase
  hasCustomRR : Object → Bool
  refs : Object → Nat
  /-- The bit of `isa`, or that of the side table. -/
  weaklyReferenced : Object → Bool
  status : Location → Status
  pc : Thread → Pc
  complaints : List Complaint
  loads : List (Thread × Location × IdValue)

def State.init : State where
  tables _ := .empty
  memory _ := .nil
  phase _ := .freed
  hasCustomRR _ := false
  refs _ := 0
  weaklyReferenced _ := false
  status _ := .unused
  pc _ := .idle
  complaints := []
  loads := []

/-- Why a run stops.  `misuse` is a step that its caller may not take. -/
inductive Stop where
  | fatal (f : Fatal)
  | misuse
  deriving DecidableEq, Repr

inductive Action where
  | alloc (o : Object) (hasCustomRR : Bool)
  | retain (o : Object)
  | release (o : Object)
  | clearDeallocating (o : Object)
  | free (o : Object)
  /-- Memory that is no weak variable is written. -/
  | write (l : Location) (v : IdValue)
  | initWeak (t : Thread) (l : Location) (new : IdValue) (crashIfDeallocating : Bool)
  | storeWeak (t : Thread) (l : Location) (new : IdValue) (crashIfDeallocating : Bool)
  | destroyWeak (t : Thread) (l : Location)
  | loadWeakRetained (t : Thread) (l : Location)
  /-- The part under the locks. -/
  | commit (t : Thread) (overrides : Overrides)
  /-- The class of the object is sent `+initialize` first, without the locks. -/
  | retry (t : Thread)
  deriving DecidableEq, Repr

/-! ## Steps -/

/-- The checks of `weak_register_no_lock`. -/
def viability (overrides : Overrides) (s : State) (v : IdValue) : Viability :=
  match v with
  | .object o =>
    if s.hasCustomRR o then
      match overrides.allowsWeakReference with
      | none => .unsupported
      | some true => .viable
      | some false => .deallocating
    else if s.phase o = .live then .viable else .deallocating
  | .nil | .tagged _ => .viable

/-- `setWeaklyReferenced_nolock`, of objects. -/
def setWeaklyReferenced (weaklyReferenced : Object → Bool) : IdValue → Object → Bool
  | .object o => Function.update weaklyReferenced o true
  | .nil | .tagged _ => weaklyReferenced

/-- "Clean up old value, if any." -/
def cleanUp (s : State) (l : Location) : Option IdValue → Except Fatal State
  | some old => do
    let (tables, complaints) ← unregister s.tables old l
    .ok { s with tables := tables, complaints := s.complaints ++ complaints }
  | none => .ok s

/-- "Assign new value, if any." -/
def assign (overrides : Overrides) (s : State) (l : Location) (crashIfDeallocating : Bool) :
    Option IdValue → Except Fatal State
  | some new => do
    let (tables, v) ← register s.tables new l (viability overrides s new) crashIfDeallocating
    .ok { s with
      tables := tables
      weaklyReferenced := setWeaklyReferenced s.weaklyReferenced v
      memory := Function.update s.memory l v }
  -- "The storage is not changed."
  | none => .ok s

/-- What storage is used for when a thread has finished its operation on it. -/
def finished (t : Thread) : Status → Status
  | .initializing _ => .active []
  | .active users => .active (users.filter (· ≠ t))
  | .destroying _ | .unused => .unused

def leave (s : State) (t : Thread) (l : Location) : State :=
  { s with
    pc := Function.update s.pc t .idle
    status := Function.update s.status l (finished t (s.status l)) }

def enter (s : State) (t : Thread) (l : Location) (pc : Pc) (status : Status) : State :=
  { s with
    pc := Function.update s.pc t pc
    status := Function.update s.status l status }

/-- A load returns. -/
def loaded (s : State) (t : Thread) (l : Location) (v : IdValue) : State :=
  leave { s with loads := s.loads ++ [(t, l, v)] } t l

/-- The lines of `objc_loadWeakRetained` before it takes the lock. -/
def readLoad (s : State) (t : Thread) (l : Location) : State :=
  match s.memory l with
  | .object o => { s with pc := Function.update s.pc t (.loading l o) }
  | v => loaded s t l v

/-- `rootTryRetain`, or the override: its answer, and whether it added a reference. -/
def tryRetain (overrides : Overrides) (s : State) (o : Object) : Bool × Bool :=
  if s.hasCustomRR o then overrides.retainWeakReference.getD (false, false)
  else if s.phase o = .live then (true, true) else (false, false)

/-- The lines of `objc_loadWeakRetained` under the lock. -/
def loadLocked (overrides : Overrides) (s : State) (t : Thread) (l : Location) (o : Object) : State :=
  let (tried, retained) := tryRetain overrides s o
  let s := if retained then { s with refs := Function.update s.refs o (s.refs o + 1) } else s
  loaded s t l (if tried then .object o else .nil)

/-- The lines of `storeWeak` under the locks. -/
def storeLocked (overrides : Overrides) (s : State) (t : Thread) (l : Location)
    (old new : Option IdValue) (crashIfDeallocating : Bool) : Except Fatal State := do
  let s ← cleanUp s l old
  let s ← assign overrides s l crashIfDeallocating new
  .ok (leave s t l)

/-- "Retry if the old value changes underneath us." -/
def changed (s : State) (l : Location) : Option IdValue → Bool
  | some old => s.memory l ≠ old
  | none => false

/-- `storeWeak` from its label `retry` to the locks. -/
def readOld (s : State) (t : Thread) (l : Location) (old new : Option IdValue)
    (crashIfDeallocating : Bool) : State :=
  let pc := .storing l (old.map fun _ => s.memory l) new crashIfDeallocating
  { s with pc := Function.update s.pc t pc }

def commit (overrides : Overrides) (s : State) (t : Thread) : Except Fatal State :=
  match s.pc t with
  | .idle => .ok s
  | .storing l old new crash =>
    if changed s l old then .ok (readOld s t l old new crash)
    else storeLocked overrides s t l old new crash
  | .loading l o =>
    if s.memory l ≠ .object o then .ok (readLoad s t l) else .ok (loadLocked overrides s t l o)

def retry (s : State) (t : Thread) : State :=
  match s.pc t with
  | .idle => s
  | .storing l old new crash => readOld s t l old new crash
  | .loading l _ => readLoad s t l

/-- The last release begins the deallocation. -/
def release (s : State) (o : Object) : State :=
  { s with
    refs := Function.update s.refs o (s.refs o - 1)
    phase := Function.update s.phase o (if s.refs o = 1 then .deallocating else s.phase o) }

/-- `clearDeallocating` looks at the table only when the object was ever weakly
referenced. -/
def clearDeallocating (s : State) (o : Object) : Except Fatal State :=
  if s.weaklyReferenced o then do
    let (tables, memory, complaints) ← clear s.tables s.memory o
    .ok { s with
      tables := tables
      memory := memory
      complaints := s.complaints ++ complaints
      phase := Function.update s.phase o .cleared }
  else .ok { s with phase := Function.update s.phase o .cleared }

def initWeak (s : State) (t : Thread) (l : Location) (new : IdValue) (crash : Bool) : State :=
  match new with
  | .nil =>
    { s with
      memory := Function.update s.memory l .nil
      status := Function.update s.status l (.active []) }
  | new => enter s t l (.storing l none (some new) crash) (.initializing t)

/-- The threads in an operation on a variable. -/
def users : Status → List Thread
  | .active users => users
  | _ => []

def perform (s : State) : Action → Except Fatal State
  | .alloc o custom => .ok { s with
      phase := Function.update s.phase o .live
      hasCustomRR := Function.update s.hasCustomRR o custom
      refs := Function.update s.refs o 1
      weaklyReferenced := Function.update s.weaklyReferenced o false }
  | .retain o => .ok { s with refs := Function.update s.refs o (s.refs o + 1) }
  | .release o => .ok (release s o)
  | .clearDeallocating o => clearDeallocating s o
  | .free o => .ok { s with phase := Function.update s.phase o .freed }
  | .write l v => .ok { s with memory := Function.update s.memory l v }
  | .initWeak t l new crash => .ok (initWeak s t l new crash)
  | .storeWeak t l new crash =>
    .ok (enter s t l (.storing l (some (s.memory l)) (some new) crash)
      (.active (users (s.status l) ++ [t])))
  | .destroyWeak t l =>
    .ok (enter s t l (.storing l (some (s.memory l)) none false) (.destroying t))
  | .loadWeakRetained t l =>
    .ok (readLoad (enter s t l (s.pc t) (.active (users (s.status l) ++ [t]))) t l)
  | .commit t overrides => commit overrides s t
  | .retry t => .ok (retry s t)

/-! ## What the callers have to see to -/

def Status.isActive : Status → Bool
  | .active _ => true
  | _ => false

/-- The object that a thread is about to store is not beyond `-dealloc`. -/
def Pc.newHeld (phase : Object → Phase) : Pc → Bool
  | .storing _ _ (some (.object o)) _ => phase o = .live || phase o = .deallocating
  | _ => true

/-- An override retains an object only before its deallocation has begun. -/
def Pc.mayRetain (s : State) (overrides : Overrides) : Pc → Bool
  | .loading _ o =>
    !(s.hasCustomRR o && (overrides.retainWeakReference.map (·.2)).getD false) || s.phase o = .live
  | _ => true

/-- The caller of a `storeWeak` keeps the new object, or runs in its `-dealloc`.
Initialization and destruction of a variable are not concurrent to other
operations on it. -/
def allowed (s : State) : Action → Bool
  | .alloc o _ => s.phase o = .freed
  | .retain o | .release o => s.phase o = .live
  | .clearDeallocating o => s.phase o = .deallocating
  | .free o => s.phase o = .cleared
  | .write l _ => s.status l = .unused
  | .initWeak t l _ _ => s.pc t = .idle && s.status l = .unused
  | .storeWeak t l _ _ | .loadWeakRetained t l => s.pc t = .idle && (s.status l).isActive
  | .destroyWeak t l => s.pc t = .idle && s.status l = .active []
  | .commit t overrides => (s.pc t).newHeld s.phase && (s.pc t).mayRetain s overrides
  | .retry _ => true

def step (s : State) (a : Action) : Except Stop State :=
  if allowed s a then
    match perform s a with
    | .ok s => .ok s
    | .error f => .error (.fatal f)
  else .error .misuse

def run (as : List Action) : Except Stop State := as.foldlM step State.init

/-! ## Side tables as one relation -/

section Tables

variable {tables : SideTables}

/-- An operation on the table of an object leaves the pairs of the other tables. -/
theorem reg_update {t : WeakTable} {o : Object} {p : Object → Location → Prop}
    (hp : ∀ o' l', o' ≠ o → (p o' l' ↔ Reg tables o' l'))
    (ht : ∀ o' l', indexForPointer o' = indexForPointer o →
      (t.Registered o' l' ↔ p o' l')) (o' : Object) (l' : Location) :
    Reg (Function.update tables (indexForPointer o) t) o' l' ↔ p o' l' := by
  unfold Reg
  by_cases hi : indexForPointer o' = indexForPointer o
  · rw [hi, Function.update_self]
    exact ht o' l' hi
  · rw [Function.update_of_ne hi, hp o' l' (fun he => hi (he ▸ rfl))]
    exact Iff.rfl

theorem wf_update (h : ∀ i, (tables i).WF) {t : WeakTable} (ht : t.WF) (j : Nat) :
    ∀ i, (Function.update tables j t i).WF := by
  intro i
  by_cases hi : i = j
  · rw [hi, Function.update_self]
    exact ht
  · rw [Function.update_of_ne hi]
    exact h i

theorem unregister_reg (h : ∀ i, (tables i).WF) (o : Object) (l : Location) :
    ∃ tables' complaints, unregister tables (.object o) l = .ok (tables', complaints) ∧
      (∀ i, (tables' i).WF) ∧ (Reg tables o l → complaints = []) ∧
        ∀ o' l', Reg tables' o' l' ↔ ¬ (o' = o ∧ l' = l) ∧ Reg tables o' l' := by
  obtain ⟨t, complaints, e, hwf, hknown, hreg⟩ := weakUnregister_spec (h (indexForPointer o)) o l
  refine ⟨_, complaints, ?_, wf_update h hwf (indexForPointer o), hknown, ?_⟩
  · show (weakUnregister (tables (indexForPointer o)) (.object o) l >>= _) = _
    rw [e]
    rfl
  · refine reg_update (fun o' l' hne => by simp [hne]) (fun o' l' hi => ?_)
    rw [hreg, Reg, hi]

theorem register_reg (h : ∀ i, (tables i).WF) {o : Object} {l : Location}
    (hnew : ¬ Reg tables o l) (crash : Bool) :
    ∃ tables', register tables (.object o) l .viable crash = .ok (tables', .object o) ∧
      (∀ i, (tables' i).WF) ∧ ∀ o' l', Reg tables' o' l' ↔ o' = o ∧ l' = l ∨ Reg tables o' l' := by
  obtain ⟨t, e, hwf, hreg⟩ := remember_spec (h (indexForPointer o)) hnew
  refine ⟨_, ?_, wf_update h hwf (indexForPointer o), ?_⟩
  · show ((remember (tables (indexForPointer o)) o l >>= _) >>= _) = _
    rw [e]
    rfl
  · refine reg_update (fun o' l' hne => by simp [hne]) (fun o' l' hi => ?_)
    rw [hreg, Reg, hi]

theorem clear_reg (h : ∀ i, (tables i).WF) {memory : Memory} {o : Object}
    (hown : ∀ l, Reg tables o l → memory l = .object o) :
    ∃ tables' memory', clear tables memory o = .ok (tables', memory', []) ∧
      (∀ i, (tables' i).WF) ∧ (∀ o' l', Reg tables' o' l' ↔ o' ≠ o ∧ Reg tables o' l') ∧
        ∀ l, memory' l = .nil ∧ Reg tables o l ∨ memory' l = memory l ∧ ¬ Reg tables o l := by
  obtain ⟨t, memory', complaints, e, hwf, hreg, hmem, hquiet⟩ :=
    weakClear_spec (h (indexForPointer o)) memory o
  have hnone := hquiet fun r hr => Or.inl (hown r hr)
  subst hnone
  refine ⟨_, memory', ?_, wf_update h hwf (indexForPointer o), ?_, fun l => ?_⟩
  · unfold clear
    rw [e]
    rfl
  · refine reg_update (fun o' l' hne => by simp [hne]) (fun o' l' hi => ?_)
    rw [hreg, Reg, hi]
  · rcases hmem l with ⟨hnil, hr, _⟩ | ⟨hsame, hnot⟩
    · exact Or.inl ⟨hnil, hr⟩
    · exact Or.inr ⟨hsame, fun hr => hnot ⟨hr, hown l hr⟩⟩

end Tables

end BottomResearch.WeakVariables
