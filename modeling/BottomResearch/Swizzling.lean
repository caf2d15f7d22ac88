import BottomResearch.Dispatch
import BottomResearch.Foundation
import BottomResearch.SuperCalls

/-!
# The exchange of `viewWillAppear:`

`UIViewController+Swizzling.m` exchanges the implementations of `viewWillAppear:`
and `test_viewWillAppear:` in `+load`.  The classes under `UIViewController`, what
they do in `viewWillAppear:` and UIKit's own `viewWillAppear:` are arbitrary.
Proved here:

* `perform_start`, `perform_load`: before and after `+load` a message runs through
  the same overrides, and after them through UIKit's method before and through
  `test_viewWillAppear:` after;
* `original_not_performed`: after `+load` UIKit's method is never executed;
* `conservative_iff_not_passesOn`: the exchange keeps what a message executes
  exactly when the overrides do not pass it on to `UIViewController`.
-/

namespace BottomResearch.Swizzling

open Foundation Dispatch SuperCalls

/-- A function is known by the class and the selector it is written under, as
`__func__` prints them. -/
abbrev Func := Method NSString NSString

/-- The body of a method with one `BOOL` argument. -/
abbrev Body (σ : Type) := Bool → σ → Script Bool σ

def viewController : NSString := lit "UIViewController"

def viewWillAppearSEL : NSString := lit "viewWillAppear:"

def testViewWillAppearSEL : NSString := lit "test_viewWillAppear:"

/-- `test_viewWillAppear:`, which only logs. -/
def testViewWillAppear {σ : Type} : Body σ := fun _ s => .done s

/-- The view controller classes of an app, whose instances have states `σ`. -/
structure App (σ : Type) where
  controllers : Registry NSString NSString (Body σ)
  under : Under viewController controllers
  /-- What UIKit's `viewWillAppear:` does. -/
  viewWillAppear : Bool → σ → σ

/-- The class's functions, under their names. -/
def compile {σ : Type} (c : ClassEntry NSString NSString (Body σ)) :
    ClassEntry NSString NSString (IMP Func Bool σ) :=
  ⟨c.name, c.superclass, c.methods.map fun m => (m.1, ⟨(c.name, m.1), m.2⟩)⟩

/-- `+load`. -/
def load {σ : Type} (reg : Registry NSString NSString (IMP Func Bool σ)) :
    Registry NSString NSString (IMP Func Bool σ) :=
  let m1 := getInstanceMethod reg viewController viewWillAppearSEL
  let m2 := getInstanceMethod reg viewController testViewWillAppearSEL
  exchangeImplementations reg m1 m2

namespace App

variable {σ : Type} (A : App σ)

/-- `UIViewController` with its category.  The classes above it have neither method. -/
def uiViewController : ClassEntry NSString NSString (Body σ) :=
  ⟨viewController, none,
    [(viewWillAppearSEL, fun animated s => .done (A.viewWillAppear animated s)),
      (testViewWillAppearSEL, testViewWillAppear)]⟩

/-- The classes before `+load`. -/
def start : Registry NSString NSString (IMP Func Bool σ) :=
  (A.controllers ++ [A.uiViewController]).map compile

/-- An instance of one of the classes. -/
structure Instance where
  isa : NSString
  isa_mem : isa ∈ viewController :: A.controllers.map (·.name)
  state : σ

/-- The overrides of `viewWillAppear:` between a class and `UIViewController`. -/
def overrides (cls : NSString) : List (IMP Func Bool σ) :=
  (implementations (A.controllers.map compile) cls viewWillAppearSEL).map (·.2)

end App

/-- What `[self viewWillAppear:animated]` executes. -/
def executed {σ : Type} {A : App σ} (reg : Registry NSString NSString (IMP Func Bool σ))
    (self : A.Instance) (animated : Bool) : List Func :=
  (perform ((implementations reg self.isa viewWillAppearSEL).map (·.2)) animated self.state).1

/-- The exchange has added `test_viewWillAppear:` for each call of UIKit's method. -/
structure Conservative (before after : List Func) : Prop where
  kept : after.filter (· ≠ (viewController, testViewWillAppearSEL)) = before
  added : after.count (viewController, testViewWillAppearSEL) =
    before.count (viewController, viewWillAppearSEL)

/-! ## The classes -/

section Classes

variable {σ : Type}

theorem getMethodNoSuper_compile (c : ClassEntry NSString NSString (Body σ)) (s : NSString) :
    (compile c).getMethodNoSuper s = (c.getMethodNoSuper s).map fun b => ⟨(c.name, s), b⟩ :=
  lookup_map (fun s b => (⟨(c.name, s), b⟩ : IMP Func Bool σ)) c.methods s

theorem hierarchy_compile (reg : Registry NSString NSString (Body σ)) (n : NSString) :
    hierarchy (reg.map compile) n = (hierarchy reg n).map compile :=
  hierarchy_map (f := compile) (fun _ => rfl) (fun _ => rfl) reg n

/-- A function has its class and its selector as its name. -/
theorem mem_implementations_compile {reg : Registry NSString NSString (Body σ)} {n s : NSString}
    {p : NSString × IMP Func Bool σ} (hp : p ∈ implementations (reg.map compile) n s) :
    p.2.name = (p.1, s) ∧ ∃ c ∈ reg, c.name = p.1 := by
  obtain ⟨c', hc', hm⟩ := List.mem_filterMap.mp hp
  obtain ⟨c, hc, rfl⟩ := List.mem_map.mp (mem_of_mem_hierarchy hc')
  rw [getMethodNoSuper_compile, Option.map_map, Option.map_eq_some_iff] at hm
  obtain ⟨b, _, rfl⟩ := hm
  exact ⟨rfl, c, hc, rfl⟩

theorem class_ne_of_mem (A : App σ) {n s : NSString} {p : NSString × IMP Func Bool σ}
    (hp : p ∈ implementations (A.controllers.map compile) n s) : p.1 ≠ viewController := by
  obtain ⟨_, c, hc, e⟩ := mem_implementations_compile hp
  exact e ▸ A.under.name_ne c hc

theorem name_ne_of_mem_overrides (A : App σ) {cls : NSString} {i : IMP Func Bool σ}
    (hi : i ∈ A.overrides cls) (s : NSString) : i.name ≠ (viewController, s) := by
  obtain ⟨p, hp, rfl⟩ := List.mem_map.mp hi
  rw [(mem_implementations_compile hp).1]
  exact fun e => class_ne_of_mem A hp (congrArg (fun m : Func => m.1) e)

end Classes

/-! ## Before and after `+load` -/

section Chain

variable {σ : Type} (A : App σ)

/-- UIKit's method and the one that takes its place. -/
def original : IMP Func Bool σ :=
  ⟨(viewController, viewWillAppearSEL), fun animated s => .done (A.viewWillAppear animated s)⟩

def replacement : IMP Func Bool σ :=
  ⟨(viewController, testViewWillAppearSEL), testViewWillAppear⟩

theorem hierarchy_start {n : NSString} (hn : n ∈ viewController :: A.controllers.map (·.name)) :
    hierarchy A.start n =
      hierarchy (A.controllers.map compile) n ++ [compile A.uiViewController] := by
  have hroot : hierarchy (A.controllers ++ [A.uiViewController]) n =
      hierarchy A.controllers n ++ [A.uiViewController] :=
    hierarchy_root rfl A.under hn
  rw [App.start, hierarchy_compile, hroot, List.map_append, hierarchy_compile]
  rfl

theorem implementations_start {n : NSString}
    (hn : n ∈ viewController :: A.controllers.map (·.name)) :
    implementations A.start n viewWillAppearSEL =
      implementations (A.controllers.map compile) n viewWillAppearSEL ++
        [(viewController, original A)] := by
  unfold implementations
  rw [hierarchy_start A hn, List.filterMap_append]
  rfl

/-- `+load` finds both methods in `UIViewController` itself. -/
theorem hierarchy_viewController :
    hierarchy A.start viewController = [compile A.uiViewController] := by
  rw [App.start, hierarchy_compile, hierarchy_append A.under.name_ne]
  rfl

theorem getImplementation_start (s : NSString) :
    getImplementation A.start (viewController, s) =
      (compile A.uiViewController).getMethodNoSuper s := by
  have hnone : ∀ c ∈ A.controllers.map compile, c.name ≠ viewController := by
    intro c hc
    obtain ⟨d, hd, rfl⟩ := List.mem_map.mp hc
    exact A.under.name_ne d hd
  rw [getImplementation, App.start, List.map_append, getClass_append hnone]
  rfl

theorem load_start :
    load A.start = exchangeImplementations A.start (some (viewController, viewWillAppearSEL))
      (some (viewController, testViewWillAppearSEL)) := by
  have h1 : getInstanceMethod A.start viewController viewWillAppearSEL =
      some (viewController, viewWillAppearSEL) := by
    rw [getInstanceMethod, implementations, hierarchy_viewController]
    rfl
  have h2 : getInstanceMethod A.start viewController testViewWillAppearSEL =
      some (viewController, testViewWillAppearSEL) := by
    rw [getInstanceMethod, implementations, hierarchy_viewController]
    rfl
  rw [load, h1, h2]

theorem implementations_load {n : NSString}
    (hn : n ∈ viewController :: A.controllers.map (·.name)) :
    implementations (load A.start) n viewWillAppearSEL =
      implementations (A.controllers.map compile) n viewWillAppearSEL ++
        [(viewController, replacement)] := by
  have hne : viewWillAppearSEL ≠ testViewWillAppearSEL := by decide
  have h1 : getImplementation A.start (viewController, viewWillAppearSEL) = some (original A) := by
    rw [getImplementation_start]
    rfl
  have h2 : getImplementation A.start (viewController, testViewWillAppearSEL) =
      some replacement := by
    rw [getImplementation_start]
    rfl
  rw [load_start, implementations_exchange h1 h2 hne, implementations_start A hn, List.map_append]
  have hkeep : (implementations (A.controllers.map compile) n viewWillAppearSEL).map
      (fun p => (p.1, if p.1 = viewController then replacement else p.2)) =
        implementations (A.controllers.map compile) n viewWillAppearSEL := by
    refine (List.map_congr_left fun p hp => ?_).trans (List.map_id _)
    rw [if_neg (class_ne_of_mem A hp)]
    rfl
  rw [hkeep]
  rfl

variable {A} (self : A.Instance) (animated : Bool)

theorem perform_start : executed A.start self animated =
    (perform (A.overrides self.isa ++ [original A]) animated self.state).1 := by
  rw [executed, implementations_start A self.isa_mem, List.map_append]
  rfl

theorem perform_load : executed (load A.start) self animated =
    (perform (A.overrides self.isa ++ [replacement]) animated self.state).1 := by
  rw [executed, implementations_load A self.isa_mem, List.map_append]
  rfl

/-- Nothing calls UIKit's method after `+load`: `test_viewWillAppear:` does not. -/
theorem original_not_performed :
    (viewController, viewWillAppearSEL) ∉ executed (load A.start) self animated := by
  rw [perform_load]
  intro h
  obtain ⟨i, hi, hname⟩ := mem_perform h
  have hne : (viewController, testViewWillAppearSEL) ≠ (viewController, viewWillAppearSEL) := by
    decide
  rcases List.mem_append.mp hi with hi | hi
  · exact name_ne_of_mem_overrides A hi _ hname
  · rw [List.mem_singleton.mp hi] at hname
    exact hne hname

theorem not_mem_perform_overrides (s : NSString) :
    (viewController, s) ∉ (perform (A.overrides self.isa) animated self.state).1 := by
  intro h
  obtain ⟨i, hi, hname⟩ := mem_perform h
  exact name_ne_of_mem_overrides A hi s hname

/-- The exchange keeps what a message executes exactly when the overrides between the
instance's class and `UIViewController` do not pass it on. -/
theorem conservative_iff_not_passesOn :
    Conservative (executed A.start self animated) (executed (load A.start) self animated) ↔
      ¬ PassesOn (A.overrides self.isa) animated self.state := by
  constructor
  · intro h hpass
    have hbefore : (viewController, viewWillAppearSEL) ∈ executed A.start self animated := by
      rw [perform_start]
      exact mem_perform_of_passesOn hpass (original A) []
    rw [← h.kept] at hbefore
    exact original_not_performed self animated (List.mem_filter.mp hbefore).1
  · intro hpass
    have hno := not_mem_perform_overrides self animated
    rw [perform_start, perform_load, perform_append_of_not_passesOn hpass,
      perform_append_of_not_passesOn hpass]
    constructor
    · refine List.filter_eq_self.mpr fun e he => decide_eq_true ?_
      exact fun heq => hno _ (heq ▸ he)
    · rw [List.count_eq_zero_of_not_mem (hno _), List.count_eq_zero_of_not_mem (hno _)]

end Chain

/-! ## `Demo6ViewController` -/

/-- `viewWillAppear:` of `Demo6ViewController`, which logs after its call to `super`. -/
def demo6ViewWillAppear : Body Unit := fun animated s => .callSuper animated s .done

def demo6 : App Unit where
  controllers :=
    [⟨lit "Demo6ViewController", some viewController, [(viewWillAppearSEL, demo6ViewWillAppear)]⟩]
  under := ⟨by decide, ⟨viewController, List.mem_cons_self, rfl⟩, trivial⟩
  viewWillAppear _ s := s

def demo6ViewController : demo6.Instance :=
  ⟨lit "Demo6ViewController", List.mem_cons_of_mem _ List.mem_cons_self, ()⟩

example : executed (load demo6.start) demo6ViewController true =
    [(lit "Demo6ViewController", viewWillAppearSEL), (viewController, testViewWillAppearSEL)] := by
  decide

/-- UIKit's `viewWillAppear:` is lost when the view of `Demo6ViewController` appears. -/
theorem not_conservative_demo6 :
    ¬ Conservative (executed demo6.start demo6ViewController true)
      (executed (load demo6.start) demo6ViewController true) :=
  fun h => absurd h.kept (by decide)

end BottomResearch.Swizzling
