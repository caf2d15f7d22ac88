import BottomResearch.Delivery

/-!
# Objects that die

What happens when the last reference to an object goes away: its `dealloc` methods
run from its isa upwards (`destroy`).  The methods of the application's classes end
with the one of their superclass, and `NSObject`'s releases the associations; the
hooks that `createClass:` installs are C functions and call no superclass.  Proved here:

* `destroyed_never`: of an observed object only the hook runs;
* `neverMessagesDead_iff_observerAlive`: in a run of adds, messages and deaths no dead
  observer is messaged exactly when, at each message that notifies, the observer of
  the latest add on the receiver is alive.
-/

namespace BottomResearch.Lifetime

open Foundation Dispatch Runs Observing Registrations Messages Interception

variable {σ V : Type}

/-! ## `dealloc` -/

/-- What the `dealloc` methods of the application's classes do to the instance
variables before they go on to the superclass. -/
abbrev Deallocs (σ : Type) := NSString → Option (σ → σ)

/-- A `dealloc` method: that of a class, or the hook of a file. -/
inductive DeallocIMP
  | method (cls : NSString)
  | hook (c : Category)
  deriving DecidableEq, Repr

/-- What a destruction leaves, and the methods that ran, each with the isa of the
object when it began. -/
structure Destruction (σ V : Type) where
  world : World σ V
  ran : List (DeallocIMP × NSString)

/-- The class that has `-[NSObject class]`. -/
def isNSObject (c : ClassEntry NSString NSString (IMP σ V)) : Bool :=
  match c.getMethodNoSuper (lit "class") with
  | some (.body .nsobjectClass) => true
  | _ => false

/-- `NSObject`'s `dealloc` removes the associations. -/
def releaseAssociations (w : World σ V) (self : Oid) : World σ V :=
  { w with
    observer := fun key y => if y = self then none else w.observer key y
    infos := fun y => if y = self then none else w.infos y }

/-- The hook that the file `c` installs. -/
def deallocHook (w : World σ V) (self : Oid) : Category → World σ V
  | .autoDeallocKVO => (myDealloc (V := V) w self).world
  | .blockKVO => (pdMyDealloc (V := V) w self).world
  -- `NSObject+KVO.m` installs none.
  | .kvo => w

/-- What the method of one class does, if the class has one. -/
def deallocBody (own : Deallocs σ) (self : Oid) (c : ClassEntry NSString NSString (IMP σ V)) :
    Option (World σ V → World σ V) :=
  if isNSObject c then some fun w => releaseAssociations w self
  else (own c.name).map fun f w => w.setIvars self (f (w.ivars self))

/-- The `dealloc` methods of a class and its superclasses. -/
def runDeallocs (own : Deallocs σ) (self : Oid) :
    List (ClassEntry NSString NSString (IMP σ V)) → World σ V → Destruction σ V
  | [], w => ⟨w, []⟩
  | c :: classes, w =>
    match c.getMethodNoSuper (lit "dealloc") with
    -- Nothing in the hook calls the method of the superclass.
    | some (.kvoDealloc file) => ⟨deallocHook w self file, [(.hook file, w.isa self)]⟩
    | _ =>
      match deallocBody own self c with
      | none => runDeallocs own self classes w
      | some body =>
        let rest := runDeallocs own self classes (body w)
        ⟨rest.world, (.method c.name, w.isa self) :: rest.ran⟩

/-- The last reference to `self` goes away. -/
def destroy (own : Deallocs σ) (w : World σ V) (self : Oid) : Destruction σ V :=
  runDeallocs own self (hierarchy w.classes (w.isa self)) w

/-- The destruction claimed for an observed object: the hook, and after it the methods
that run for an object that was never observed, the isa being the class meanwhile. -/
structure Destroyed (A : App σ V) (own : Deallocs σ) (c : Category) (w : World σ V) (x : Oid)
    (ran : List (DeallocIMP × NSString)) : Prop where
  methods : ∃ isa, ran = (.hook c, isa) :: (destroy own (A.start w.ivars) x).ran
  isa : ∀ r ∈ ran.tail, r.2 = A.classOf x

/-! ### An object that was never observed -/

/-- A class of the application has no hook. -/
theorem runDeallocs_body (own : Deallocs σ) (x : Oid) (c : ClassEntry NSString NSString (Body σ V))
    (classes : List (ClassEntry NSString NSString (IMP σ V))) (w : World σ V) :
    runDeallocs own x (c.mapImp .body :: classes) w =
      match deallocBody own x (c.mapImp .body) with
      | none => runDeallocs own x classes w
      | some body =>
        ⟨(runDeallocs own x classes (body w)).world,
          (.method c.name, w.isa x) :: (runDeallocs own x classes (body w)).ran⟩ := by
  rw [runDeallocs, getMethodNoSuper_mapImp]
  cases c.getMethodNoSuper (lit "dealloc") <;> rfl

/-- `NSObject`'s `dealloc` runs. -/
theorem ran_ne_nil (own : Deallocs σ) (x : Oid) {classes : List (ClassEntry NSString NSString (Body σ V))}
    (h : classes.findSome? (fun c => c.getMethodNoSuper (lit "class")) = some .nsobjectClass)
    (w : World σ V) : (runDeallocs own x (classes.map (·.mapImp .body)) w).ran ≠ [] := by
  induction classes generalizing w with
  | nil => cases h
  | cons c classes ih =>
    rw [List.map_cons, runDeallocs_body]
    cases hbody : deallocBody own x (c.mapImp .body : ClassEntry NSString NSString (IMP σ V)) with
    | some body => exact List.cons_ne_nil _ _
    | none =>
      refine ih ?_ w
      rw [List.findSome?_cons] at h
      cases hc : c.getMethodNoSuper (lit "class") with
      | none =>
        rw [hc] at h
        exact h
      | some b =>
        rw [hc] at h
        cases h
        have hroot : isNSObject (c.mapImp .body : ClassEntry NSString NSString (IMP σ V)) = true := by
          rw [isNSObject, getMethodNoSuper_mapImp, hc]
          rfl
        rw [deallocBody, if_pos hroot] at hbody
        cases hbody

theorem ran_start_ne_nil (A : App σ V) (own : Deallocs σ) (ivars : Oid → σ) (x : Oid) :
    (destroy own (A.start ivars) x).ran ≠ [] := by
  have hclass := A.class_inherited x
  rw [getMethod_eq_findSome?] at hclass
  show (runDeallocs own x (hierarchy (A.classes.map (·.mapImp .body)) (A.classOf x)) _).ran ≠ []
  rw [hierarchy_mapImp]
  exact ran_ne_nil own x hclass _

/-! ### An observed object -/

/-- The hook runs, and nothing after it. -/
theorem destroy_observed {A : App σ V} {h : List (Op V)} {w : World σ V} (hr : Refines A h w)
    {c : Category} (hc : A.attachedLast = c) (hne : c ≠ .kvo) (own : Deallocs σ) {x : Oid}
    (hx : observed h x = true) :
    destroy own w x = ⟨(restoreClass (V := V) w x).world, [(.hook c, notifying (A.classOf x))]⟩ := by
  obtain ⟨k, hk⟩ := firstKey_of_observed A hx
  have hisa : w.isa x = notifying (A.classOf x) := by
    rw [hr.isa x, hx]
    rfl
  have hhook : (dynamicClass A (A.classOf x) k).getMethodNoSuper (lit "dealloc") =
      some (.kvoDealloc c) := by
    rw [dynamicClass_dealloc A (by rw [hc]; exact hne), hc]
  rw [destroy, hisa, hr.hierarchy_dynamic hk, runDeallocs, hhook]
  dsimp only
  rw [hisa]
  cases c with
  | kvo => exact absurd rfl hne
  | autoDeallocKVO => rfl
  | blockKVO => rfl

/-- An object observed through `zb_addObserver:` or `pd_addObserverBlock:` is never
destroyed as an object that is not observed. -/
theorem destroyed_never (A : App σ V) {c : Category} (hne : c ≠ .kvo) (own : Deallocs σ)
    (ivars : Oid → σ) (h : List (Op V)) (x : Oid) (hx : observed h x = true) :
    ¬ Destroyed (A.alone c) own c ((A.alone c).after ivars h) x
      (destroy own ((A.alone c).after ivars h) x).ran := by
  intro hall
  obtain ⟨isa, hran⟩ := hall.methods
  rw [destroy_observed (refines_after (A.alone c) ivars h) rfl hne own hx] at hran
  exact ran_start_ne_nil (A.alone c) own _ x (List.cons.inj hran).2.symm

theorem destroyed_never_name :
    ¬ Destroyed (personApp.alone .blockKVO) (fun _ => none) .blockKVO
      ((personApp.alone .blockKVO).after (fun _ _ => none)
        [.pdAddObserverBlock 1 (some 2) (some (lit "name")) (some 10)]) 1
      (destroy (fun _ => none) ((personApp.alone .blockKVO).after (fun _ _ => none)
        [.pdAddObserverBlock 1 (some 2) (some (lit "name")) (some 10)]) 1).ran :=
  destroyed_never personApp (by decide) _ _ _ 1 (by decide)

/-- A `Person` observed through `zb_addObserver:` and released: the hook runs, and
`NSObject`'s `dealloc` does not. -/
theorem observed_person_leaks :
    ¬ Destroyed (personApp.alone .autoDeallocKVO) (fun _ => none) .autoDeallocKVO
      ((personApp.alone .autoDeallocKVO).after (fun _ _ => none)
        [.zbAddObserver 1 (some 2) (some (lit "name"))]) 1
      (destroy (fun _ => none) ((personApp.alone .autoDeallocKVO).after (fun _ _ => none)
        [.zbAddObserver 1 (some 2) (some (lit "name"))]) 1).ran := by
  intro hall
  obtain ⟨isa, hran⟩ := hall.methods
  have hlen := congrArg List.length hran
  rw [List.length_cons] at hlen
  revert hlen
  decide

/-! ## Runs with deaths -/

/-- The calls of a client of `NSObject+AutoDeallocKVO`, and the deaths of objects. -/
inductive LifeOp (V : Type)
  | zbAddObserver (x : Oid) (observer : Option Oid) (keyPath : Option NSString)
  | message (x : Oid) (cmd : SetterSEL) (newValue : Option V)
  | dealloc (x : Oid)

structure Life (σ V : Type) where
  world : World σ V
  alive : Oid → Bool

/-- The process with the deaths of its objects. -/
def lifetime (A : App σ V) (own : Deallocs σ) : System (Life σ V) (LifeOp V) (List (Event V)) where
  step s op :=
    match op with
    | .zbAddObserver x o k => (⟨(zbAddObserver A o k s.world x).world, s.alive⟩, [])
    | .message x cmd v =>
      let r := msgSend A s.world x cmd v
      (⟨r.world, s.alive⟩, r.events)
    | .dealloc x =>
      (⟨(destroy own s.world x).world, fun y => if y = x then false else s.alive y⟩, [])

/-- The state after the operations `ops`. -/
def lifeAfter (A : App σ V) (own : Deallocs σ) (ivars : Oid → σ) (ops : List (LifeOp V)) : Life σ V :=
  (lifetime A own).run ⟨A.start ivars, fun _ => true⟩ ops

/-- What the death of an object amounts to in the process: its class is restored. -/
def LifeOp.call : LifeOp V → Op V
  | .zbAddObserver x o k => .zbAddObserver x o k
  | .message x cmd v => .message x cmd v
  | .dealloc x => .myDealloc x

/-- Nothing is done with dead objects. -/
def OnLiving (pre : List (LifeOp V)) : LifeOp V → Prop
  | .zbAddObserver x o _ => .dealloc x ∉ pre ∧ ∀ o', o = some o' → .dealloc o' ∉ pre
  | .message x _ _ => .dealloc x ∉ pre
  | .dealloc x => .dealloc x ∉ pre

/-- No dead observer is messaged. -/
def NeverMessagesDead (A : App σ V) (own : Deallocs σ) (ivars : Oid → σ) (ops : List (LifeOp V)) :
    Prop :=
  AtEach (fun pre op => ∀ o k x change,
    .observeValueForKeyPath o k x change ∈ (lifetime A own).output (lifeAfter A own ivars pre) op →
      (lifeAfter A own ivars pre).alive o = true) ops

/-- At a message that stores through the notifying setter of `x`, the observer of the
latest add on `x` has not died since. -/
def ObserverAlive (A : App σ V) (own : Deallocs σ) (ivars : Oid → σ) (pre : List (LifeOp V))
    (op : LifeOp V) : Prop :=
  ∀ x cmd v before o k after, op = .message x cmd (some v) →
    overridden A (pre.map LifeOp.call) (A.classOf x) = some cmd.name →
    Stores A (lifeAfter A own ivars pre).world x cmd.name (some v) →
    Last (fun j => Touches x (LifeOp.call j)) pre before (.zbAddObserver x (some o) k) after →
      .dealloc o ∉ after

/-! ### A death leaves what the history describes -/

/-- Between `w` and `w'` only instance variables and associations of `x` went away. -/
structure Dies (x : Oid) (w w' : World σ V) : Prop where
  classes : w'.classes = w.classes
  isa : w'.isa = w.isa
  observer : ∀ key y, w'.observer key y = w.observer key y ∨ y = x ∧ w'.observer key y = none
  infos : ∀ y, w'.infos y = w.infos y ∨ y = x ∧ w'.infos y = none

theorem Dies.trans {x : Oid} {w w' w'' : World σ V} (h : Dies x w w') (h' : Dies x w' w'') :
    Dies x w w'' where
  classes := h'.classes.trans h.classes
  isa := h'.isa.trans h.isa
  observer key y := by
    rcases h'.observer key y with e | e
    · rw [e]
      exact h.observer key y
    · exact Or.inr e
  infos y := by
    rcases h'.infos y with e | e
    · rw [e]
      exact h.infos y
    · exact Or.inr e

theorem dies_deallocBody {own : Deallocs σ} {x : Oid} {c : ClassEntry NSString NSString (IMP σ V)}
    {body : World σ V → World σ V} (hbody : deallocBody own x c = some body) (w : World σ V) :
    Dies x w (body w) := by
  unfold deallocBody at hbody
  split at hbody
  · cases hbody
    refine ⟨rfl, rfl, fun key y => ?_, fun y => ?_⟩
    · by_cases e : y = x
      · exact Or.inr ⟨e, if_pos e⟩
      · exact Or.inl (if_neg e)
    · by_cases e : y = x
      · exact Or.inr ⟨e, if_pos e⟩
      · exact Or.inl (if_neg e)
  · obtain ⟨f, _, rfl⟩ := Option.map_eq_some_iff.mp hbody
    exact ⟨rfl, rfl, fun _ _ => Or.inl rfl, fun _ => Or.inl rfl⟩

theorem dies_runDeallocs (own : Deallocs σ) (x : Oid)
    (classes : List (ClassEntry NSString NSString (Body σ V))) (w : World σ V) :
    Dies x w (runDeallocs own x (classes.map (·.mapImp .body)) w).world := by
  induction classes generalizing w with
  | nil => exact ⟨rfl, rfl, fun _ _ => Or.inl rfl, fun _ => Or.inl rfl⟩
  | cons c classes ih =>
    rw [List.map_cons, runDeallocs_body]
    cases hbody : deallocBody own x (c.mapImp .body : ClassEntry NSString NSString (IMP σ V)) with
    | none => exact ih w
    | some body => exact (dies_deallocBody hbody w).trans (ih (body w))

section Death

variable {A : App σ V} {h : List (Op V)} {w : World σ V} {x : Oid}

/-- Restoring the class of an object that is not observed changes nothing. -/
theorem refines_myDealloc (hr : Refines A h w) (hx : observed h x = false) :
    Refines A (h ++ [.myDealloc x]) w := by
  refine refines_unstored hr rfl rfl rfl fun y => ?_
  have hsame : observed (h ++ [.myDealloc x]) y = observed h y := by
    rw [observed_snoc]
    by_cases e : y = x
    · subst e
      simp [observedStep, adds, restores, hx]
    · have e' : ¬ x = y := fun he => e he.symm
      simp [observedStep, adds, restores, e']
  rw [hsame]
  exact hr.isa y

/-- An object without associations leaves none. -/
theorem refines_of_dies {w' : World σ V} (hr : Refines A h w) (hd : Dies x w w')
    (hobserver : ∀ key, lastObserver A key h x = none) (hblocks : blocksOf h x = []) :
    Refines A h w' where
  isa y := (congrFun hd.isa y).trans (hr.isa y)
  observer key y := by
    rcases hd.observer key y with e | ⟨rfl, e⟩
    · exact e.trans (hr.observer key y)
    · exact e.trans (hobserver key).symm
  infos y := by
    rcases hd.infos y with e | ⟨rfl, e⟩
    · rw [e]
      exact hr.infos y
    · rw [e, hblocks]
      rfl
  classes := by
    rw [hd.classes]
    exact hr.classes

/-- An object that no call touched has no associations, and its death changes nothing
that the history describes. -/
theorem refines_destroy_untouched (hr : Refines A h w) (own : Deallocs σ)
    (hno : ∀ op ∈ h, ¬ Touches x op) :
    Refines A (h ++ [.myDealloc x]) (destroy own w x).world := by
  have hx : observed h x = false :=
    foldl_of_not (P := Touches x) (fun b _ hj => observedStep_of_not_touches hj b) hno false
  have hobserver : ∀ key, lastObserver A key h x = none := fun key =>
    foldl_of_not (P := Touches x) (fun o _ hj => lastObserverStep_of_not_touches A key hj o) hno none
  have hblocks : blocksOf h x = [] :=
    List.filterMap_eq_nil_iff.mpr fun op hop => blockFor_of_not_touches (hno op hop)
  have hisa : w.isa x = A.classOf x := by
    rw [hr.isa x, hx]
    rfl
  have hdies : Dies x w (destroy own w x).world := by
    rw [destroy, hisa, hr.hierarchy_base x]
    exact dies_runDeallocs own x _ w
  exact refines_myDealloc (refines_of_dies hr hdies hobserver hblocks) hx

end Death

/-! ### Living objects -/

/-- Of a living object only adds are on record. -/
theorem zbAdd_of_touches {ops : List (LifeOp V)} {x : Oid} (halive : .dealloc x ∉ ops)
    {op : LifeOp V} (hop : op ∈ ops) (ht : Touches x op.call) :
    ∃ o k, op = .zbAddObserver x o k := by
  cases op with
  | zbAddObserver y o k =>
    rcases ht with ht | ht
    · cases ht
      exact ⟨o, k, rfl⟩
    · cases ht
  | message y cmd v => rcases ht with ht | ht <;> cases ht
  | dealloc y =>
    rcases ht with ht | ht
    · cases ht
    · cases ht
      exact absurd hop halive

theorem exists_last_zbAdd {ops : List (LifeOp V)} {x : Oid} (halive : .dealloc x ∉ ops)
    {op : LifeOp V} (hop : op ∈ ops) (ht : Touches x op.call) :
    ∃ before o k after,
      Last (fun j => Touches x (LifeOp.call j)) ops before (.zbAddObserver x o k) after := by
  obtain ⟨before, i, after, hl⟩ := exists_last (P := fun j => Touches x (LifeOp.call j)) hop ht
  have hi : i ∈ ops := by
    rw [hl.split]
    exact List.mem_append_right _ List.mem_cons_self
  obtain ⟨o, k, rfl⟩ := zbAdd_of_touches halive hi hl.here
  exact ⟨before, o, k, after, hl⟩

/-- Of a living object that is not observed nothing is on record. -/
theorem untouched_of_not_observed {ops : List (LifeOp V)} {x : Oid} (halive : .dealloc x ∉ ops)
    (hx : observed (ops.map LifeOp.call) x = false) :
    ∀ op ∈ ops.map LifeOp.call, ¬ Touches x op := by
  intro op hop ht
  obtain ⟨j, hj, rfl⟩ := List.mem_map.mp hop
  obtain ⟨before, o, k, after, hl⟩ := exists_last_zbAdd halive hj ht
  have hobs := (observed_of_last hl.map).mpr rfl
  rw [hx] at hobs
  cases hobs

/-- The process is in the state that its calls describe, and the flags say who has died. -/
structure Lived (A : App σ V) (ops : List (LifeOp V)) (s : Life σ V) : Prop where
  refines : Refines A (ops.map LifeOp.call) s.world
  alive : ∀ x, s.alive x = true ↔ .dealloc x ∉ ops

theorem lived_start (A : App σ V) (ivars : Oid → σ) : Lived A [] ⟨A.start ivars, fun _ => true⟩ :=
  ⟨Refines.start A ivars, fun _ => by simp⟩

/-- A death is a call of the hook that restores the class. -/
theorem refines_dealloc {A : App σ V} (hc : A.attachedLast = .autoDeallocKVO) (own : Deallocs σ)
    {ops : List (LifeOp V)} {w : World σ V} (hr : Refines A (ops.map LifeOp.call) w) {x : Oid}
    (halive : .dealloc x ∉ ops) :
    Refines A (ops.map LifeOp.call ++ [.myDealloc x]) (destroy own w x).world := by
  cases hx : observed (ops.map LifeOp.call) x with
  | true =>
    rw [destroy_observed hr hc (by simp) own hx]
    exact refines_step hr (.myDealloc x)
  | false => exact refines_destroy_untouched hr own (untouched_of_not_observed halive hx)

/-- One operation on living objects. -/
theorem lived_step {A : App σ V} (hc : A.attachedLast = .autoDeallocKVO) (own : Deallocs σ)
    {ops : List (LifeOp V)} {s : Life σ V} (hs : Lived A ops s) {op : LifeOp V}
    (hop : OnLiving ops op) : Lived A (ops ++ [op]) ((lifetime A own).next s op) := by
  have hmap : (ops ++ [op]).map LifeOp.call = ops.map LifeOp.call ++ [op.call] := List.map_append
  cases op with
  | zbAddObserver x o k =>
    refine ⟨hmap ▸ refines_step hs.refines (.zbAddObserver x o k), fun y => ?_⟩
    show s.alive y = true ↔ _
    rw [hs.alive y]
    simp
  | message x cmd v =>
    refine ⟨hmap ▸ refines_step hs.refines (.message x cmd v), fun y => ?_⟩
    show s.alive y = true ↔ _
    rw [hs.alive y]
    simp
  | dealloc x =>
    refine ⟨hmap ▸ refines_dealloc hc own hs.refines hop, fun y => ?_⟩
    show (if y = x then false else s.alive y) = true ↔ _
    by_cases e : y = x
    · subst e
      simp
    · have hne : (LifeOp.dealloc y : LifeOp V) ≠ .dealloc x := fun he => e (by cases he; rfl)
      rw [if_neg e, hs.alive y]
      simp [hne]

/-- **Refinement with deaths.**  So it is after every run in which nothing is done with
dead objects. -/
theorem lived_after (A : App σ V) (hc : A.attachedLast = .autoDeallocKVO) (own : Deallocs σ)
    (ivars : Oid → σ) (ops : List (LifeOp V)) :
    AtEach OnLiving ops → Lived A ops (lifeAfter A own ivars ops) := by
  refine (lifetime A own).run_induction (P := fun ops s => AtEach OnLiving ops → Lived A ops s)
    (fun _ => lived_start A ivars) ?_ ops
  intro ops s op ih hliving
  rw [atEach_snoc] at hliving
  exact lived_step hc own (ih hliving.1) hliving.2

/-! ### Dead observers -/

/-- The observer of the latest add on `x`. -/
theorem lastObserver_of_last_zbAdd {A : App σ V} {ops before after : List (LifeOp V)} {x : Oid}
    {o : Option Oid} {k : Option NSString}
    (hl : Last (fun j => Touches x (LifeOp.call j)) ops before (.zbAddObserver x o k) after) :
    lastObserver A (A.objc .autoDeallocKVO) (ops.map LifeOp.call) x = o := by
  rw [lastObserver, hl.map.foldl_eq fun b _ hj => lastObserverStep_of_not_touches A _ hj b]
  simp [LifeOp.call, lastObserverStep, associates]

/-- An observer that was alive when it was added has died exactly when it died since. -/
theorem alive_since_add {ops before after : List (LifeOp V)} (hliving : AtEach OnLiving ops) {x o : Oid}
    {k : Option NSString} (e : ops = before ++ .zbAddObserver x (some o) k :: after) :
    .dealloc o ∉ ops ↔ .dealloc o ∉ after := by
  have hbefore : .dealloc o ∉ before := (hliving before _ after e).2 o rfl
  rw [e]
  simp [hbefore]

/-- No dead observer is messaged exactly when the latest observers are alive. -/
theorem neverMessagesDead_iff_observerAlive (A : App σ V) (own : Deallocs σ) (ivars : Oid → σ)
    (ops : List (LifeOp V)) (hliving : AtEach OnLiving ops) :
    NeverMessagesDead (A.alone .autoDeallocKVO) own ivars ops ↔
      AtEach (ObserverAlive (A.alone .autoDeallocKVO) own ivars) ops := by
  refine AtEach.congr fun pre op post e => ?_
  have hc : (A.alone .autoDeallocKVO).attachedLast = .autoDeallocKVO := rfl
  have hpre : AtEach OnLiving pre := AtEach.of_append (e ▸ hliving)
  have hop : OnLiving pre op := hliving pre op post e
  obtain ⟨hr, halive⟩ := lived_after (A.alone .autoDeallocKVO) hc own ivars pre hpre
  constructor
  · rintro hall x cmd v before o k after rfl hover hs hl
    have hobs : observed (pre.map LifeOp.call) x = true := (observed_of_last hl.map).mpr rfl
    have hi : Intercepts (A.alone .autoDeallocKVO) (pre.map LifeOp.call) x cmd.name := ⟨hobs, hover⟩
    obtain ⟨key, hkey⟩ := exists_getterForSetter hi
    have hm := (Delivery.mem_events_observer hr hc (by simp) x cmd (some v) _).mpr
      ⟨v, key, o, rfl, hi, hkey, hs, lastObserver_of_last_zbAdd hl, rfl⟩
    exact (alive_since_add hpre hl.split).mp ((halive o).mp (hall o key x _ hm))
  · intro hkept o k x change hm
    cases op with
    | message y cmd v =>
      obtain ⟨v', key, o', rfl, hi, hkey, hs, ho, e'⟩ :=
        (Delivery.mem_events_observer hr hc (by simp) y cmd v _).mp hm
      cases e'
      obtain ⟨op', hop', k', ha⟩ := exists_add_of_observed hi.1
      obtain ⟨j, hj, rfl⟩ := List.mem_map.mp hop'
      obtain ⟨before, o'', k'', after, hl⟩ :=
        exists_last_zbAdd hop hj (Or.inl (by rw [ha]; rfl))
      rw [lastObserver_of_last_zbAdd hl] at ho
      subst ho
      exact (halive o).mpr ((alive_since_add hpre hl.split).mpr
        (hkept x cmd v' before o k'' after rfl hi.2 hs hl))
    | zbAddObserver y o' k' => cases hm
    | dealloc y => cases hm

/-- An observer that dies before the object it observes. -/
def addThenDie : List (LifeOp Nat) := [.zbAddObserver 1 (some 2) (some (lit "name")), .dealloc 2]

theorem onLiving_addThenDie :
    AtEach OnLiving (addThenDie ++ [.message 1 setName (some 7)]) := by
  refine (atEach_snoc OnLiving addThenDie _).mpr ⟨?_, by simp [OnLiving, addThenDie]⟩
  refine (atEach_snoc OnLiving [_] _).mpr ⟨?_, by simp [OnLiving]⟩
  exact (atEach_snoc OnLiving [] _).mpr ⟨atEach_nil _, by simp [OnLiving]⟩

theorem neverMessagesDead_iff_observerAlive_name :
    NeverMessagesDead (personApp.alone .autoDeallocKVO) (fun _ => none) (fun _ _ => none)
        (addThenDie ++ [.message 1 setName (some 7)]) ↔
      AtEach (ObserverAlive (personApp.alone .autoDeallocKVO) (fun _ => none) (fun _ _ => none))
        (addThenDie ++ [.message 1 setName (some 7)]) :=
  neverMessagesDead_iff_observerAlive personApp _ _ _ onLiving_addThenDie

/-- The dead observer is messaged. -/
theorem dead_observer_messaged :
    AtEach OnLiving (addThenDie ++ [.message 1 setName (some 7)]) ∧
      ¬ NeverMessagesDead (personApp.alone .autoDeallocKVO) (fun _ => none) (fun _ _ => none)
        (addThenDie ++ [.message 1 setName (some 7)]) := by
  refine ⟨onLiving_addThenDie, fun hall => ?_⟩
  have hdead := hall addThenDie _ [] rfl 2 (lit "name") 1 (lit "name", 7) (by decide)
  revert hdead
  decide

end BottomResearch.Lifetime
