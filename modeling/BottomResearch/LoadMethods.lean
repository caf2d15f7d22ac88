import Mathlib.Data.List.Dedup
import Mathlib.Logic.Function.Basic

/-!
# `+load` methods

`objc-loadmethod.mm`, with `load_images`, `prepare_load_methods`,
`schedule_class_load` and `_unload_image` in `objc-runtime-new.mm`.  An image brings
classes and categories with `+load` methods, which are queued and called by the
outermost `call_load_methods`.  A `+load` method may map and unmap images, by what
happened before: what it does is a parameter.  An image that is unmapped takes its
classes with it, `RW_LOADED` included, and may be mapped again.
-/

namespace BottomResearch.LoadMethods

variable {C K I : Type}

/-- What is known of classes and categories; `remapClass` is that of a category's
class, and there is none for a weak-linked class that is missing. -/
structure Program (C K I : Type) where
  superclass : C → Option C
  depth : C → Nat
  depth_superclass : ∀ c d, superclass c = some d → depth d < depth c
  getLoadMethod : C → Option I
  categoryGetLoadMethod : K → Option I
  remapClass : K → Option C

/-- The lists of an image, the first two of what is not lazy.  A class that is
weak-linked and missing is `none`. -/
structure Image (C K : Type) where
  nonlazyClasses : List (Option C)
  nonlazyCategories : List K
  classes : List C
  categories : List K

def Image.Lists (image : Image C K) (cls : C) : Prop :=
  cls ∈ image.classes ∨ some cls ∈ image.nonlazyClasses

instance [DecidableEq C] (image : Image C K) (cls : C) : Decidable (image.Lists cls) :=
  inferInstanceAs (Decidable (_ ∨ _))

/-- What happened, of which a method may depend.  `scheduled` is where `RW_LOADED` is
set, `mapped` comes when all of the image is queued, and a call tells how much had
happened when it was queued. -/
inductive Event (C K I : Type) where
  | mapped (image : Image C K)
  | unmapped (image : Image C K)
  | scheduled (cls : C)
  | classLoad (cls : C) (queued : Nat) (method : I)
  | categoryLoad (cls : C) (cat : K) (queued : Nat) (method : I)

inductive Action (C K : Type) where
  | map (image : Image C K)
  | unmap (image : Image C K)

/-- `struct loadable_class` and `struct loadable_category`.  An entry that was removed
has no name, and `queued` is for the statements only: no function reads it. -/
structure Loadable (A I : Type) where
  name : Option A
  method : I
  queued : Nat

/-- The queues, oldest first.  `loaded` is `RW_LOADED`, and the history is newest
first. -/
structure State (C K I : Type) where
  loaded : C → Bool
  loadableClasses : List (Loadable C I)
  loadableCategories : List (Loadable K I)
  loading : Bool
  history : List (Event C K I)

/-- What the call of a `+load` method does. -/
abbrev OnLoad (C K I : Type) := List (Event C K I) → Event C K I → List (Action C K)

variable [DecidableEq C] [DecidableEq K]

def State.start : State C K I := ⟨fun _ => false, [], [], false, []⟩

def State.record (event : Event C K I) (s : State C K I) : State C K I :=
  { s with history := event :: s.history }

/-! ## The queues -/

section Queues

variable (P : Program C K I)

def addClassToLoadableList (cls : C) (s : State C K I) : State C K I :=
  match P.getLoadMethod cls with
  | none => s
  | some method => { s with
      loadableClasses := s.loadableClasses ++ [⟨some cls, method, s.history.length⟩] }

def addCategoryToLoadableList (cat : K) (s : State C K I) : State C K I :=
  match P.categoryGetLoadMethod cat with
  | none => s
  | some method => { s with
      loadableCategories := s.loadableCategories ++ [⟨some cat, method, s.history.length⟩] }

/-- The first entry for `a` loses it. -/
def removeFromList {A : Type} [DecidableEq A] (a : A) : List (Loadable A I) → List (Loadable A I)
  | [] => []
  | e :: rest => if e.name = some a then { e with name := none } :: rest
    else e :: removeFromList a rest

def removeClassFromLoadableList (s : State C K I) (cls : C) : State C K I :=
  { s with loadableClasses := removeFromList cls s.loadableClasses }

def removeCategoryFromLoadableList (s : State C K I) (cat : K) : State C K I :=
  { s with loadableCategories := removeFromList cat s.loadableCategories }

/-- `cls->setInfo(RW_LOADED)`. -/
def setLoaded (cls : C) (s : State C K I) : State C K I :=
  State.record (.scheduled cls) { s with loaded := Function.update s.loaded cls true }

/-- The first argument is above the depth of the class. -/
def scheduleClassLoad : Nat → C → State C K I → State C K I
  | 0, _, s => s
  | n + 1, cls, s =>
    if s.loaded cls then s
    else
      -- Superclasses first.
      let s := match P.superclass cls with
        | none => s
        | some superclass => scheduleClassLoad n superclass s
      setLoaded cls (addClassToLoadableList P cls s)

def prepareClass (s : State C K I) : Option C → State C K I
  | none => s
  | some cls => scheduleClassLoad P (P.depth cls + 1) cls s

def prepareCategory (s : State C K I) (cat : K) : State C K I :=
  match P.remapClass cat with
  | none => s
  | some _ => addCategoryToLoadableList P cat s

def prepareLoadMethods (image : Image C K) (s : State C K I) : State C K I :=
  image.nonlazyCategories.foldl (prepareCategory P)
    (image.nonlazyClasses.foldl (prepareClass P) s)

def hasLoadMethods (image : Image C K) : Bool :=
  !image.nonlazyClasses.isEmpty || !image.nonlazyCategories.isEmpty

/-- The flags of the class go with its `rw`. -/
def freeClass (s : State C K I) (cls : C) : State C K I :=
  { s with loaded := Function.update s.loaded cls false }

/-- `_unload_image`, as far as it is about the queues and `RW_LOADED`. -/
def unloadImage (image : Image C K) (s : State C K I) : State C K I :=
  let s := image.categories.foldl removeCategoryFromLoadableList (s.record (.unmapped image))
  let classes := (image.classes ++ image.nonlazyClasses.filterMap id).dedup
  -- Each class leaves the queue before any is freed.
  classes.foldl freeClass (classes.foldl removeClassFromLoadableList s)

end Queues

/-! ## The calls -/

section Calls

variable (P : Program C K I) (onLoad : OnLoad C K I)
variable (callLoadMethods : State C K I → Option (State C K I))

def loadImages (image : Image C K) (s : State C K I) : Option (State C K I) :=
  if hasLoadMethods image then
    callLoadMethods ((prepareLoadMethods P image s).record (.mapped image))
  else some (s.record (.mapped image))

def perform (s : State C K I) : Action C K → Option (State C K I)
  | .map image => loadImages P callLoadMethods image s
  | .unmap image => some (unloadImage image s)

/-- A `+load` method is called. -/
def callMethod (event : Event C K I) (s : State C K I) : Option (State C K I) :=
  (onLoad s.history event).foldlM (perform P callLoadMethods) (s.record event)

/-- The loop of `call_class_loads` over the detached list. -/
def callClasses : List (Loadable C I) → State C K I → Option (State C K I)
  | [], s => some s
  | ⟨none, _, _⟩ :: rest, s => callClasses rest s
  | ⟨some cls, method, queued⟩ :: rest, s =>
    callMethod P onLoad callLoadMethods (.classLoad cls queued method) s >>= callClasses rest

def callClassLoads (s : State C K I) : Option (State C K I) :=
  callClasses P onLoad callLoadMethods s.loadableClasses { s with loadableClasses := [] }

/-- The loop of `call_category_loads` over the detached list, with what stays of it. -/
def callCategories :
    List (Loadable K I) → State C K I → Option (List (Loadable K I) × State C K I)
  | [], s => some ([], s)
  | ⟨none, _, _⟩ :: rest, s => callCategories rest s
  | ⟨some cat, method, queued⟩ :: rest, s =>
    match P.remapClass cat with
    | none => do
      let (waiting, s) ← callCategories rest s
      some (⟨some cat, method, queued⟩ :: waiting, s)
    | some cls =>
      callMethod P onLoad callLoadMethods (.categoryLoad cls cat queued method) s >>=
        callCategories rest

/-- Also whether categories were added meanwhile. -/
def callCategoryLoads (s : State C K I) : Option (Bool × State C K I) := do
  let (waiting, s) ← callCategories P onLoad callLoadMethods s.loadableCategories
    { s with loadableCategories := [] }
  some (!s.loadableCategories.isEmpty,
    { s with loadableCategories := waiting ++ s.loadableCategories })

/-- Class `+load`s until there are no more. -/
def whileClasses : Nat → State C K I → Option (State C K I)
  | 0, s => if s.loadableClasses.isEmpty then some s else none
  | n + 1, s =>
    if s.loadableClasses.isEmpty then some s
    else callClassLoads P onLoad callLoadMethods s >>= whileClasses n

/-- The loop of `call_load_methods`. -/
def doLoads : Nat → State C K I → Option (State C K I)
  | 0, _ => none
  | n + 1, s => do
    let s ← whileClasses P onLoad callLoadMethods n s
    let (more, s) ← callCategoryLoads P onLoad callLoadMethods s
    if !s.loadableClasses.isEmpty || more then doLoads n s else some s

end Calls

/-- Only the outermost call does anything. -/
def callLoadMethods (P : Program C K I) (onLoad : OnLoad C K I) :
    Nat → State C K I → Option (State C K I)
  | 0, s => if s.loading then some s else none
  | n + 1, s =>
    if s.loading then some s
    else (doLoads P onLoad (callLoadMethods P onLoad n) n { s with loading := true }).map
      fun s => { s with loading := false }

/-- The images that are mapped and unmapped outside of any `+load`. -/
def run (P : Program C K I) (onLoad : OnLoad C K I) (fuel : Nat) (actions : List (Action C K)) :
    Option (State C K I) :=
  actions.foldlM (perform P (callLoadMethods P onLoad fuel)) State.start

end BottomResearch.LoadMethods
