import BottomResearch.Dispatch
import BottomResearch.Foundation
import BottomResearch.Runs

/-!
# Message forwarding of `Dog` and `Cat`

A message to an object without a method for its selector is forwarded: the object
is asked for another target, then for a signature, and then gets the invocation.
`Dog.m` and `Cat.m` implement the three hooks, for instances of `Dog` and for the
class `Cat`; the other methods of their classes and superclasses are arbitrary.
Proved here:

* `implementations_hook`: added methods never come between a message for a hook
  and the hooks of the source;
* `not_ends_run`: a message `run` to a `Dog` that does not implement it is
  forwarded to the same `Dog` for ever;
* `ends_iff`: the chain of every other message ends.
-/

namespace BottomResearch.Forwarding

open Foundation Dispatch Runs

abbrev SEL := NSString

/-- The classes whose methods instances of `Dog` and the class `Cat` have. -/
inductive ClassName
  | dog
  | metaCat
  | metaNSObject
  | nsObject
  deriving DecidableEq

/-- An instance of `Dog`, or the class `Cat`. -/
inductive Object
  | dog (oid : Nat)
  | cat
  deriving DecidableEq

def Object.isa : Object → ClassName
  | .dog _ => .dog
  | .cat => .metaCat

inductive NSMethodSignature
  | signatureWithObjCTypes (types : NSString)
  | ofMethod (m : Method ClassName SEL)

structure NSInvocation where
  methodSignature : NSMethodSignature
  selector : SEL
  target : Object

/-- The functions of the source by the class they are written in; `other` is any other
method. -/
inductive IMP (β : Type)
  | forwardingTargetForSelector (cls : ClassName)
  | methodSignatureForSelector (cls : ClassName)
  | forwardInvocation (cls : ClassName)
  | run
  | other (body : β)

/-! ## The hooks -/

/-- `forwardingTargetForSelector:` of `Dog` and of `Cat`. -/
def superTarget (super : SEL → Option Object) (aSelector : SEL) : Option Object :=
  super aSelector

def Dog.forwardingTargetForSelector := superTarget

def Cat.forwardingTargetForSelector := superTarget

def NSObject.forwardingTargetForSelector (_ : SEL) : Option Object := none

/-- `methodSignatureForSelector:` with a signature for one selector. -/
def signatureFor (registered : SEL) (super : SEL → Option NSMethodSignature) (aSelector : SEL) :
    Option NSMethodSignature :=
  if aSelector = registered then some (.signatureWithObjCTypes (lit "v@:")) else super aSelector

def Dog.methodSignatureForSelector := signatureFor (lit "run")

def Cat.methodSignatureForSelector := signatureFor (lit "jump")

/-- The signature of an implemented method. -/
def NSObject.methodSignatureForSelector {β : Type} (reg : Registry ClassName SEL (IMP β))
    (self : Object) (aSelector : SEL) : Option NSMethodSignature :=
  (getInstanceMethod reg self.isa aSelector).map .ofMethod

/-- The invocation that a `forwardInvocation:` invokes, if it does not end in
`doesNotRecognizeSelector:`. -/
def invokeRun (self : Object) (anInvocation : NSInvocation) : Option NSInvocation :=
  some { anInvocation with selector := lit "run", target := self }

def Dog.forwardInvocation := invokeRun

def Cat.forwardInvocation := invokeRun

def NSObject.forwardInvocation (_ : Object) (_ : NSInvocation) : Option NSInvocation := none

section Hooks

variable {β : Type}

/-- Runs through the implementations of `forwardingTargetForSelector:`. -/
def forwardingTargetForSelector : List (ClassName × IMP β) → SEL → Option Object
  | (_, .forwardingTargetForSelector .dog) :: super, aSelector =>
    Dog.forwardingTargetForSelector (forwardingTargetForSelector super) aSelector
  | (_, .forwardingTargetForSelector .metaCat) :: super, aSelector =>
    Cat.forwardingTargetForSelector (forwardingTargetForSelector super) aSelector
  | _, aSelector => NSObject.forwardingTargetForSelector aSelector

def methodSignatureForSelector (reg : Registry ClassName SEL (IMP β)) (self : Object) :
    List (ClassName × IMP β) → SEL → Option NSMethodSignature
  | (_, .methodSignatureForSelector .dog) :: super, aSelector =>
    Dog.methodSignatureForSelector (methodSignatureForSelector reg self super) aSelector
  | (_, .methodSignatureForSelector .metaCat) :: super, aSelector =>
    Cat.methodSignatureForSelector (methodSignatureForSelector reg self super) aSelector
  | _, aSelector => NSObject.methodSignatureForSelector reg self aSelector

def forwardInvocation (self : Object) :
    List (ClassName × IMP β) → NSInvocation → Option NSInvocation
  | (_, .forwardInvocation .dog) :: _, anInvocation => Dog.forwardInvocation self anInvocation
  | (_, .forwardInvocation .metaCat) :: _, anInvocation => Cat.forwardInvocation self anInvocation
  | _, anInvocation => NSObject.forwardInvocation self anInvocation

end Hooks

/-! ## The chain -/

section Chain

variable {β : Type}

/-- The methods that the source and `NSObject` give to the class. -/
def hooks (cls : ClassName) : List (SEL × IMP β) :=
  [(lit "forwardingTargetForSelector:", .forwardingTargetForSelector cls),
    (lit "methodSignatureForSelector:", .methodSignatureForSelector cls),
    (lit "forwardInvocation:", .forwardInvocation cls)]

def sourceClasses : Registry ClassName SEL (IMP β) :=
  [⟨.dog, some .nsObject, hooks .dog⟩,
    ⟨.metaCat, some .metaNSObject, hooks .metaCat ++ [(lit "run", .run)]⟩,
    ⟨.metaNSObject, some .nsObject, hooks .metaNSObject⟩,
    ⟨.nsObject, none, hooks .nsObject⟩]

def others (further : ClassName → List (SEL × β)) (cls : ClassName) : List (SEL × IMP β) :=
  (further cls).map fun m => (m.1, .other m.2)

/-- The classes with further methods, those that a resolver adds among them. -/
def classes (further : ClassName → List (SEL × β)) : Registry ClassName SEL (IMP β) :=
  sourceClasses.map fun c => c.addMethods (others further c.name)

/-- What the chain of a message does next. -/
inductive Phase (β : Type)
  | msgSend (self : Object) (sel : SEL)
  | forwardingTarget (self : Object) (sel : SEL)
  | methodSignature (self : Object) (sel : SEL)
  | forwardInvocation (self : Object) (anInvocation : NSInvocation)
  | invoke (anInvocation : NSInvocation)
  | implemented (self : Object) (sel : SEL) (imp : IMP β)
  | unrecognizedSelector (self : Object) (sel : SEL)

/-- The chain has ended in a method or in the exception. -/
def Phase.Final : Phase β → Prop
  | .implemented .. | .unrecognizedSelector .. => True
  | _ => False

/-- One step of the chain; the hooks are themselves looked up. -/
def next (reg : Registry ClassName SEL (IMP β)) : Phase β → Phase β
  | .msgSend self sel =>
    match getMethod reg self.isa sel with
    | some imp => .implemented self sel imp
    | none => .forwardingTarget self sel
  | .forwardingTarget self sel =>
    match forwardingTargetForSelector
      (implementations reg self.isa (lit "forwardingTargetForSelector:")) sel with
    | some target => if target = self then .methodSignature self sel else .msgSend target sel
    | none => .methodSignature self sel
  | .methodSignature self sel =>
    match methodSignatureForSelector reg self
      (implementations reg self.isa (lit "methodSignatureForSelector:")) sel with
    | some signature => .forwardInvocation self ⟨signature, sel, self⟩
    | none => .unrecognizedSelector self sel
  | .forwardInvocation self anInvocation =>
    match forwardInvocation self (implementations reg self.isa (lit "forwardInvocation:"))
      anInvocation with
    | some invocation => .invoke invocation
    | none => .unrecognizedSelector self anInvocation.selector
  | .invoke anInvocation => .msgSend anInvocation.target anInvocation.selector
  | .implemented self sel imp => .implemented self sel imp
  | .unrecognizedSelector self sel => .unrecognizedSelector self sel

end Chain

/-! ## Lookup -/

section Lookup

variable {β : Type} (further : ClassName → List (SEL × β))

theorem implementations_hook {s : SEL}
    (hs : (sourceClasses (β := β)).all (fun c => (c.getMethodNoSuper s).isSome) = true)
    (n : ClassName) : implementations (classes further) n s = implementations sourceClasses n s :=
  implementations_addMethods (fun c hc => List.all_eq_true.mp hs c (mem_of_mem_hierarchy hc))
    (others further)

theorem forwardingTarget_eq_none (self : Object) (sel : SEL) :
    forwardingTargetForSelector (implementations (classes further) self.isa
      (lit "forwardingTargetForSelector:")) sel = none := by
  rw [implementations_hook further rfl]
  cases self with
  | dog oid => rfl
  | cat => rfl

/-- The selector that the object gives a signature for. -/
def registered : Object → SEL
  | .dog _ => lit "run"
  | .cat => lit "jump"

theorem methodSignature_eq (self : Object) (sel : SEL) :
    methodSignatureForSelector (classes further) self (implementations (classes further) self.isa
      (lit "methodSignatureForSelector:")) sel =
        if sel = registered self then some (.signatureWithObjCTypes (lit "v@:"))
        else (getInstanceMethod (classes further) self.isa sel).map .ofMethod := by
  rw [implementations_hook further rfl]
  cases self with
  | dog oid => rfl
  | cat => rfl

theorem forwardInvocation_eq (self : Object) (anInvocation : NSInvocation) :
    forwardInvocation self (implementations (classes further) self.isa (lit "forwardInvocation:"))
      anInvocation = some { anInvocation with selector := lit "run", target := self } := by
  rw [implementations_hook further rfl]
  cases self with
  | dog oid => rfl
  | cat => rfl

/-- `Dog` has `run` only where it was added. -/
theorem getMethod_dog_run_eq_none_iff : getMethod (classes further) .dog (lit "run") = none ↔
    lit "run" ∉ (further .dog).map (·.1) ∧ lit "run" ∉ (further .nsObject).map (·.1) := by
  have hdog : hierarchy (sourceClasses (β := β)) .dog =
      [⟨.dog, some .nsObject, hooks .dog⟩, ⟨.nsObject, none, hooks .nsObject⟩] := rfl
  have hown : ∀ (cls : ClassName) (m : Option ClassName),
      (⟨cls, m, hooks (β := β) cls⟩ : ClassEntry ClassName SEL (IMP β)).getMethodNoSuper
        (lit "run") = none := fun _ _ => rfl
  rw [classes, getMethod_addMethods, hdog, List.findSome?_eq_none_iff, List.forall_mem_cons,
    List.forall_mem_singleton, hown, hown, Option.none_or, Option.none_or]
  have hother (cls : ClassName) := lookup_map_eq_none_iff (f := fun _ b => IMP.other b)
    (l := further cls) (s := lit "run")
  exact and_congr (hother .dog) (hother .nsObject)

/-- `Cat` implements `run` itself. -/
theorem getMethod_cat_run : getMethod (classes further) .metaCat (lit "run") = some .run := by
  rw [classes, getMethod_addMethods]
  rfl

end Lookup

/-! ## Steps -/

section Steps

variable {β : Type} {further : ClassName → List (SEL × β)} {self : Object} {sel : SEL}

theorem next_msgSend_of_some {imp : IMP β}
    (h : getMethod (classes further) self.isa sel = some imp) :
    next (classes further) (.msgSend self sel) = .implemented self sel imp := by
  rw [next, h]

theorem next_msgSend_of_none (h : getMethod (classes further) self.isa sel = none) :
    next (classes further) (.msgSend self sel) = .forwardingTarget self sel := by
  rw [next, h]

theorem next_forwardingTarget (self : Object) (sel : SEL) :
    next (classes further) (.forwardingTarget self sel) = .methodSignature self sel := by
  rw [next, forwardingTarget_eq_none]

theorem next_methodSignature_registered (self : Object) :
    next (classes further) (.methodSignature self (registered self)) =
      .forwardInvocation self ⟨.signatureWithObjCTypes (lit "v@:"), registered self, self⟩ := by
  rw [next, methodSignature_eq, if_pos rfl]

theorem next_methodSignature_of_none (h : getMethod (classes further) self.isa sel = none)
    (hne : sel ≠ registered self) :
    next (classes further) (.methodSignature self sel) = .unrecognizedSelector self sel := by
  rw [next, methodSignature_eq, if_neg hne, getInstanceMethod_eq_none_iff.mpr h]
  rfl

theorem next_forwardInvocation (self : Object) (anInvocation : NSInvocation) :
    next (classes further) (.forwardInvocation self anInvocation) =
      .invoke { anInvocation with selector := lit "run", target := self } := by
  rw [next, forwardInvocation_eq]

end Steps

/-! ## The end of the chain -/

section End

variable {β : Type} {further : ClassName → List (SEL × β)} {self : Object} {sel : SEL}

/-- An implemented method ends the chain. -/
theorem ends_of_getMethod {imp : IMP β} (h : getMethod (classes further) self.isa sel = some imp) :
    Ends (next (classes further)) Phase.Final (.msgSend self sel) := by
  rw [ends_iff_of_next (next_msgSend_of_some h) id]
  exact ends_of_final trivial

/-- Without a method the chain depends on the signature: no hook names another target. -/
theorem ends_msgSend_iff (h : getMethod (classes further) self.isa sel = none) :
    Ends (next (classes further)) Phase.Final (.msgSend self sel) ↔
      Ends (next (classes further)) Phase.Final (.methodSignature self sel) := by
  rw [ends_iff_of_next (next_msgSend_of_none h) id,
    ends_iff_of_next (next_forwardingTarget self sel) id]

/-- Without a signature the exception ends it. -/
theorem ends_of_ne_registered (h : getMethod (classes further) self.isa sel = none)
    (hne : sel ≠ registered self) :
    Ends (next (classes further)) Phase.Final (.msgSend self sel) := by
  rw [ends_msgSend_iff h, ends_iff_of_next (next_methodSignature_of_none h hne) id]
  exact ends_of_final trivial

/-- The class `Cat` forwards `jump` to its own `run`. -/
theorem ends_cat (sel : SEL) :
    Ends (next (classes further)) Phase.Final (.msgSend .cat sel) := by
  cases h : getMethod (classes further) Object.cat.isa sel with
  | some imp => exact ends_of_getMethod h
  | none =>
    by_cases hne : sel = registered .cat
    · subst hne
      rw [ends_msgSend_iff h, ends_iff_of_next (next_methodSignature_registered _) id,
        ends_iff_of_next (next_forwardInvocation _ _) id, ends_iff_of_next rfl id]
      exact ends_of_getMethod (getMethod_cat_run further)
    · exact ends_of_ne_registered h hne

example : (next (classes (β := Unit) fun _ => []))^[6] (.msgSend .cat (lit "jump")) =
    .implemented .cat (lit "run") .run := rfl

/-- The phases of a message `run` that a `Dog` forwards to itself. -/
inductive Looping (oid : Nat) : Phase β → Prop
  | msgSend : Looping oid (.msgSend (.dog oid) (lit "run"))
  | forwardingTarget : Looping oid (.forwardingTarget (.dog oid) (lit "run"))
  | methodSignature : Looping oid (.methodSignature (.dog oid) (lit "run"))
  | forwardInvocation (anInvocation : NSInvocation) :
    Looping oid (.forwardInvocation (.dog oid) anInvocation)
  | invoke (signature : NSMethodSignature) :
    Looping oid (.invoke ⟨signature, lit "run", .dog oid⟩)

theorem Looping.next {oid : Nat} (h : getMethod (classes further) .dog (lit "run") = none)
    {p : Phase β} (hp : Looping oid p) : Looping oid (next (classes further) p) := by
  cases hp with
  | msgSend =>
    rw [next_msgSend_of_none h]
    exact forwardingTarget
  | forwardingTarget =>
    rw [next_forwardingTarget]
    exact methodSignature
  | methodSignature =>
    have hnext : Forwarding.next (classes further) (.methodSignature (.dog oid) (lit "run")) =
        .forwardInvocation (.dog oid) ⟨.signatureWithObjCTypes (lit "v@:"), lit "run", .dog oid⟩ :=
      next_methodSignature_registered (.dog oid)
    rw [hnext]
    exact forwardInvocation _
  | forwardInvocation anInvocation =>
    rw [next_forwardInvocation]
    exact invoke _
  | invoke signature => exact msgSend

theorem Looping.not_final {oid : Nat} {p : Phase β} (hp : Looping oid p) : ¬ p.Final := by
  cases hp <;> exact id

/-- A `Dog` without `run` forwards it to itself for ever. -/
theorem not_ends_run (oid : Nat) (h : getMethod (classes further) .dog (lit "run") = none) :
    ¬ Ends (next (classes further)) Phase.Final (.msgSend (.dog oid) (lit "run")) :=
  not_ends_of_invariant (fun _ hp => Looping.next h hp) (fun _ hp => hp.not_final) Looping.msgSend

end End

/-- The chain of a message ends unless it is `run` to a `Dog` and neither `Dog` nor
`NSObject` has been given that method. -/
theorem ends_iff {β : Type} (further : ClassName → List (SEL × β)) (self : Object) (sel : SEL) :
    Ends (next (classes further)) Phase.Final (.msgSend self sel) ↔
      self = .cat ∨ sel ≠ lit "run" ∨ lit "run" ∈ (further .dog).map (·.1) ∨
        lit "run" ∈ (further .nsObject).map (·.1) := by
  cases self with
  | cat => exact iff_of_true (ends_cat sel) (Or.inl rfl)
  | dog oid =>
    cases h : getMethod (classes further) .dog sel with
    | some imp =>
      refine iff_of_true (ends_of_getMethod h) (Or.inr ?_)
      by_contra hno
      simp only [not_or, not_not] at hno
      obtain ⟨rfl, hdog, hobject⟩ := hno
      rw [(getMethod_dog_run_eq_none_iff further).mpr ⟨hdog, hobject⟩] at h
      cases h
    | none =>
      by_cases hsel : sel = lit "run"
      · subst hsel
        refine iff_of_false (not_ends_run oid h) ?_
        obtain ⟨hdog, hobject⟩ := (getMethod_dog_run_eq_none_iff further).mp h
        rintro (hcat | hrun | hmem | hmem)
        · cases hcat
        · exact hrun rfl
        · exact hdog hmem
        · exact hobject hmem
      · exact iff_of_true (ends_of_ne_registered h hsel) (Or.inr (Or.inl hsel))

/-- `[[Dog new] run]` in `viewDidLoad` does not end. -/
theorem not_ends_dog_run :
    ¬ Ends (next (classes (β := Unit) fun _ => [])) Phase.Final (.msgSend (.dog 0) (lit "run")) :=
  not_ends_run 0 rfl

end BottomResearch.Forwarding
