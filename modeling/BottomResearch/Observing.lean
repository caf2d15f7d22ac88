import BottomResearch.Dispatch
import BottomResearch.Foundation
import BottomResearch.Runs

/-!
# The three hand-written observation categories

The model of `NSObject+KVO.m`, `NSObject+AutoDeallocKVO.m` and
`NSObject+BlockKVO.m` over the runtime they call.  An `App` is what is fixed
when the process starts: its classes, the class each object is created with,
the order in which the categories were attached and the addresses of the
string constants used as association keys.  A `World` is what changes: the
registered classes, the isa and the instance variables of each object, and the
two associations.  `process` performs the calls of the three categories and the
one-argument messages of the application, one at a time.

The code of setters and getters is a parameter (`Code`).  In an `App` it is an
arbitrary function of the receiver's instance variables that may raise.  Type
encodings are left out: the runtime stores them and no modelled code reads them.
-/

namespace BottomResearch.Observing

open Foundation Dispatch Runs

/-! ## Classes, objects and the process -/

/-- An object's address. -/
abbrev Oid := Nat

inductive Category
  | kvo
  | autoDeallocKVO
  | blockKVO
  deriving DecidableEq, Repr

/-- Why a call did not return normally. -/
inductive Raised
  | unrecognizedSelector
  | nilInDictionary
  | range
  | badAccess
  | stackOverflow
  | accessor
  deriving DecidableEq, Repr

/-- A method of an application class: a setter with code `S`, a getter with code `G`,
or `-[NSObject class]`. -/
inductive BodyOf (S G : Type)
  | setter (f : S)
  | getter (f : G)
  | nsobjectClass

/-- What a method list entry points to: a method of the application, or one of
the C functions that `createClass:` installs. -/
inductive IMPOf (S G : Type)
  | body (b : BodyOf S G)
  | kvoClass (c : Category)
  | kvoSetter (c : Category)
  | kvoDealloc (c : Category)

/-- An `Info` of `NSObject+BlockKVO.m`.  A block is known by its address. -/
structure Info where
  observer : Option Oid
  keyPath : Option NSString
  hanleBlock : Option Nat
  deriving DecidableEq, Repr

/-- The calls that leave the modelled code. -/
inductive Event (V : Type)
  | observeValueForKeyPath (observer : Oid) (keyPath : NSString) (object : Oid)
      (change : NSString × V)
  /-- The call of the block of the entry `index` in the array of `object`. -/
  | hanleBlock (object : Oid) (index : Nat) (block : Nat) (observer : Option Oid)
      (keyPath : NSString) (oldValue newValue : Option V)
  deriving DecidableEq, Repr

/-- `@"NSKVONotifying_"`, the prefix of the dynamic classes. -/
def notifyingPrefix : NSString := lit "NSKVONotifying_"

/-- The dynamic class of a base class. -/
def notifying (oldName : NSString) : NSString := notifyingPrefix ++ oldName

/-- What is fixed when the process starts.  No class is named as a dynamic
class, and the class of every object inherits `-class` from `NSObject`. -/
structure AppOf (S G V : Type) where
  table : CaseTable
  /-- A class as an object. -/
  classObject : NSString → V
  /-- The classes of the application, the newest first. -/
  classes : Registry NSString NSString (BodyOf S G)
  /-- The class an object is created with. -/
  classOf : Oid → NSString
  /-- The categories in the order in which the runtime attached them. -/
  order : List Category
  order_ne_nil : order ≠ []
  /-- The address of the constant `@"objc"` in each file. -/
  objc : Category → Nat
  not_notifying : ∀ c ∈ classes, ¬ notifyingPrefix <+: c.name
  class_inherited : ∀ x, getMethod classes (classOf x) (lit "class") = some .nsobjectClass

structure WorldOf (S G σ : Type) where
  classes : Registry NSString NSString (IMPOf S G)
  isa : Oid → NSString
  ivars : Oid → σ
  /-- The association under the constant `@"objc"` of a file, by its address. -/
  observer : Nat → Oid → Option Oid
  /-- The array under `PDKVOAssiociateKey`. -/
  infos : Oid → Option (List Info)

/-- What a call leaves. -/
structure ReplyOf (S G σ V : Type) where
  world : WorldOf S G σ
  events : List (Event V)
  raised : Option Raised

variable {S G σ V : Type}

/-- The category attached last, whose `createClass:` the shared selector reaches. -/
def AppOf.attachedLast (A : AppOf S G V) : Category := A.order.getLast A.order_ne_nil

/-- The process with one of the categories only. -/
def AppOf.alone (A : AppOf S G V) (c : Category) : AppOf S G V :=
  { A with order := [c], order_ne_nil := List.cons_ne_nil c [] }

/-- The start of the process, the objects holding `ivars`. -/
def AppOf.start (A : AppOf S G V) (ivars : Oid → σ) : WorldOf S G σ where
  classes := A.classes.map (·.mapImp .body)
  isa := A.classOf
  ivars := ivars
  observer _ _ := none
  infos _ := none

/-! ## The runtime functions -/

namespace WorldOf

def objectSetClass (w : WorldOf S G σ) (x : Oid) (cls : NSString) : WorldOf S G σ :=
  { w with isa := fun y => if y = x then cls else w.isa y }

def setIvars (w : WorldOf S G σ) (x : Oid) (s : σ) : WorldOf S G σ :=
  { w with ivars := fun y => if y = x then s else w.ivars y }

/-- `objc_setAssociatedObject` under `@"objc"`, which does not retain. -/
def setObserver (w : WorldOf S G σ) (key : Nat) (x : Oid) (o : Option Oid) : WorldOf S G σ :=
  { w with observer := fun k y => if k = key ∧ y = x then o else w.observer k y }

/-- `objc_setAssociatedObject` under `PDKVOAssiociateKey`. -/
def setInfos (w : WorldOf S G σ) (x : Oid) (infos : List Info) : WorldOf S G σ :=
  { w with infos := fun y => if y = x then some infos else w.infos y }

end WorldOf

/-- The three `class` functions: `class_getSuperclass(object_getClass(self))`. -/
def kvoClass (w : WorldOf S G σ) (self : Oid) : Option NSString := getSuperclass w.classes (w.isa self)

def tzClass (w : WorldOf S G σ) (self : Oid) : Option NSString := kvoClass w self

def zbClass (w : WorldOf S G σ) (self : Oid) : Option NSString := kvoClass w self

def pdClass (w : WorldOf S G σ) (self : Oid) : Option NSString := kvoClass w self

/-- The answer to `[self class]`. -/
def classMessage (w : WorldOf S G σ) (self : Oid) : Option NSString :=
  match getMethod w.classes (w.isa self) (lit "class") with
  | some (.body .nsobjectClass) => some (w.isa self)
  | some (.kvoClass .kvo) => tzClass w self
  | some (.kvoClass .autoDeallocKVO) => zbClass w self
  | some (.kvoClass .blockKVO) => pdClass w self
  | _ => none

/-! ## Names of setters and getters -/

/-- `setterForGetter`, the same in the three files. -/
def setterForGetter (T : CaseTable) (getter : Option NSString) : Option NSString :=
  match getter with
  | none => none
  | some getter =>
    if getter.length = 0 then none
    else
      let firstString := uppercaseString T (getter.take 1)
      let leaveString := getter.drop 1
      some (lit "set" ++ firstString ++ leaveString ++ lit ":")

/-- `getterForSetter`, the same in the three files.  `substringToIndex:1` of an
empty string raises. -/
def getterForSetter (T : CaseTable) (setter : NSString) : Except Raised (Option NSString) :=
  if setter.length = 0 ∨ ¬ lit "set" <+: setter ∨ ¬ lit ":" <:+ setter then .ok none
  else
    let getter := (setter.drop 3).take (setter.length - 4)
    if getter.length = 0 then .error .range
    else
      let firstString := lowercaseString T (getter.take 1)
      .ok (some (firstString ++ getter.drop 1))

/-! ## `createClass:` -/

/-- The body of the three `createClass:` methods, which differ in the functions
they install; `NSObject+KVO.m` installs no `dealloc`. -/
def createClassWith (A : AppOf S G V) (classImp setterImp : IMPOf S G)
    (deallocImp : Option (IMPOf S G)) (keyPath : Option NSString) (w : WorldOf S G σ) (self : Oid) :
    Option (NSString × WorldOf S G σ) :=
  match classMessage w self with
  | none => none
  | some oldName =>
    let newName := notifying oldName
    match getClass w.classes newName with
    | some _ => some (newName, w)
    | none =>
      let classes := registerClass w.classes oldName newName
      let classes := addMethod classes newName (lit "class") classImp
      let classes :=
        match setterForGetter A.table keyPath with
        | some setterSEL => addMethod classes newName setterSEL setterImp
        -- The null selector: no message carries it.
        | none => classes
      let classes :=
        match deallocImp with
        | some imp => addMethod classes newName (lit "dealloc") imp
        | none => classes
      some (newName, { w with classes := classes })

/-- `createClass:` of `NSObject+KVO.m`. -/
def createClassKVO (A : AppOf S G V) :
    Option NSString → WorldOf S G σ → Oid → Option (NSString × WorldOf S G σ) :=
  createClassWith A (.kvoClass .kvo) (.kvoSetter .kvo) none

/-- `createClass:` of `NSObject+AutoDeallocKVO.m`. -/
def createClassAutoDeallocKVO (A : AppOf S G V) :
    Option NSString → WorldOf S G σ → Oid → Option (NSString × WorldOf S G σ) :=
  createClassWith A (.kvoClass .autoDeallocKVO) (.kvoSetter .autoDeallocKVO)
    (some (.kvoDealloc .autoDeallocKVO))

/-- `createClass:` of `NSObject+BlockKVO.m`. -/
def createClassBlockKVO (A : AppOf S G V) :
    Option NSString → WorldOf S G σ → Oid → Option (NSString × WorldOf S G σ) :=
  createClassWith A (.kvoClass .blockKVO) (.kvoSetter .blockKVO) (some (.kvoDealloc .blockKVO))

/-- `[self createClass:keyPath]`. -/
def createClass (A : AppOf S G V) (keyPath : Option NSString) (w : WorldOf S G σ) (self : Oid) :
    Option (NSString × WorldOf S G σ) :=
  match A.attachedLast with
  | .kvo => createClassKVO A keyPath w self
  | .autoDeallocKVO => createClassAutoDeallocKVO A keyPath w self
  | .blockKVO => createClassBlockKVO A keyPath w self

/-! ## Adding and removing -/

/-- The body of the three methods that add an observer. -/
def addObserverWith (A : AppOf S G V) (file : Category) (observer : Option Oid)
    (keyPath : Option NSString) (w : WorldOf S G σ) (self : Oid) : ReplyOf S G σ V :=
  match createClass A keyPath w self with
  | none => ⟨w, [], some .unrecognizedSelector⟩
  | some (newClass, w) =>
    ⟨(w.objectSetClass self newClass).setObserver (A.objc file) self observer, [], none⟩

def gvAddObserver (A : AppOf S G V) :
    Option Oid → Option NSString → WorldOf S G σ → Oid → ReplyOf S G σ V :=
  addObserverWith A .kvo

def zbAddObserver (A : AppOf S G V) :
    Option Oid → Option NSString → WorldOf S G σ → Oid → ReplyOf S G σ V :=
  addObserverWith A .autoDeallocKVO

def pdAddObserver (A : AppOf S G V) :
    Option Oid → Option NSString → WorldOf S G σ → Oid → ReplyOf S G σ V :=
  addObserverWith A .blockKVO

def pdAddObserverBlock (A : AppOf S G V) (observer : Option Oid) (keyPath : Option NSString)
    (handleBlock : Option Nat) (w : WorldOf S G σ) (self : Oid) : ReplyOf S G σ V :=
  match createClass A keyPath w self with
  | none => ⟨w, [], some .unrecognizedSelector⟩
  | some (newClass, w) =>
    let w := w.objectSetClass self newClass
    let info : Info := ⟨observer, keyPath, handleBlock⟩
    let array := (w.infos self).getD []
    ⟨w.setInfos self (array ++ [info]), [], none⟩

/-- `object_setClass(self, [self class])`, the body of the three methods that
remove an observer and of the two `dealloc` hooks. -/
def restoreClass (w : WorldOf S G σ) (self : Oid) : ReplyOf S G σ V :=
  match classMessage w self with
  | none => ⟨w, [], some .unrecognizedSelector⟩
  | some superClass => ⟨w.objectSetClass self superClass, [], none⟩

def gvRemoveObserver (_observer : Option Oid) (_keyPath : Option NSString) (w : WorldOf S G σ)
    (self : Oid) : ReplyOf S G σ V :=
  restoreClass w self

def zbRemoveObserver (_observer : Option Oid) (_keyPath : Option NSString) (w : WorldOf S G σ)
    (self : Oid) : ReplyOf S G σ V :=
  restoreClass w self

def pdRemoveObserver (_observer : Option Oid) (_keyPath : Option NSString) (w : WorldOf S G σ)
    (self : Oid) : ReplyOf S G σ V :=
  restoreClass w self

def myDealloc (w : WorldOf S G σ) (self : Oid) : ReplyOf S G σ V := restoreClass w self

def pdMyDealloc (w : WorldOf S G σ) (self : Oid) : ReplyOf S G σ V := restoreClass w self

/-! ## Messages -/

/-- The selector of a method with one argument ends in a colon. -/
structure SetterSEL where
  name : NSString
  colon : lit ":" <:+ name

/-- How the code of an application runs: what a setter leaves, and what a getter answers,
which changes nothing. -/
structure Code (S G σ V : Type) where
  setter (f : S) (w : WorldOf S G σ) (self : Oid) (newValue : Option V) : ReplyOf S G σ V
  getter (f : G) (w : WorldOf S G σ) (self : Oid) : Except Raised (Option V)

/-- The loop of `pd_setter`: the block of the first entry for the key path is
called and the function returns. -/
def callFirst (self : Oid) (keyPath : NSString) (oldValue newValue : Option V) :
    Nat → List Info → List (Event V) × Option Raised
  | _, [] => ([], none)
  | i, info :: array =>
    if info.keyPath = some keyPath then
      match info.hanleBlock with
      | some block => ([.hanleBlock self i block info.observer keyPath oldValue newValue], none)
      | none => ([], some .badAccess)
    else callFirst self keyPath oldValue newValue (i + 1) array

namespace Code

variable (run : Code S G σ V)

/-- Run the method of the application that a one-argument message reached. -/
def callBody (w : WorldOf S G σ) (self : Oid) (newValue : Option V) :
    BodyOf S G → ReplyOf S G σ V
  | .setter f => run.setter f w self newValue
  -- A method without parameters ignores the argument.
  | .getter f =>
    match run.getter f w self with
    | .ok _ => ⟨w, [], none⟩
    | .error e => ⟨w, [], some e⟩
  | .nsobjectClass => ⟨w, [], none⟩

/-- `objc_msgSendSuper` with one argument.  A notifying setter found above the
class of the receiver would look there again without end. -/
def msgSendSuper (w : WorldOf S G σ) (superClass : Option NSString) (self : Oid) (cmd : NSString)
    (newValue : Option V) : ReplyOf S G σ V :=
  match superClass.bind (getMethod w.classes · cmd) with
  | some (.body b) => run.callBody w self newValue b
  | some _ => ⟨w, [], some .stackOverflow⟩
  | none => ⟨w, [], some .unrecognizedSelector⟩

/-- `objc_msgSendSuper` without argument, for its answer. -/
def msgSendSuperGetter (A : AppOf S G V) (w : WorldOf S G σ) (superClass : Option NSString)
    (self : Oid) (cmd : NSString) : Except Raised (Option V) :=
  match superClass.bind (getMethod w.classes · cmd) with
  | some (.body (.getter f)) => run.getter f w self
  | some (.body .nsobjectClass) => .ok (some (A.classObject (w.isa self)))
  | some _ => .error .badAccess
  | none => .error .unrecognizedSelector

/-- The body of `tz_setter` and `zb_setter`.  The dictionary literal is built
before the message to the observer is sent. -/
def observerSetter (A : AppOf S G V) (file : Category) (w : WorldOf S G σ) (self : Oid)
    (cmd : NSString) (newValue : Option V) : ReplyOf S G σ V :=
  match run.msgSendSuper w (getSuperclass w.classes (w.isa self)) self cmd newValue with
  | ⟨w, events, some e⟩ => ⟨w, events, some e⟩
  | ⟨w, events, none⟩ =>
    let observer := w.observer (A.objc file) self
    match getterForSetter A.table cmd with
    | .error e => ⟨w, events, some e⟩
    | .ok key =>
      match key, newValue with
      | some key, some value =>
        match observer with
        | some o => ⟨w, events ++ [.observeValueForKeyPath o key self (key, value)], none⟩
        | none => ⟨w, events, none⟩
      | _, _ => ⟨w, events, some .nilInDictionary⟩

def tzSetter (A : AppOf S G V) :
    WorldOf S G σ → Oid → NSString → Option V → ReplyOf S G σ V :=
  run.observerSetter A .kvo

def zbSetter (A : AppOf S G V) :
    WorldOf S G σ → Oid → NSString → Option V → ReplyOf S G σ V :=
  run.observerSetter A .autoDeallocKVO

def pdSetter (A : AppOf S G V) (w : WorldOf S G σ) (self : Oid) (cmd : NSString)
    (newValue : Option V) : ReplyOf S G σ V :=
  let superClass := getSuperclass w.classes (w.isa self)
  match getterForSetter A.table cmd with
  | .error e => ⟨w, [], some e⟩
  | .ok none => ⟨w, [], some .badAccess⟩
  | .ok (some keyPath) =>
    match run.msgSendSuperGetter A w superClass self keyPath with
    | .error e => ⟨w, [], some e⟩
    | .ok oldValue =>
      match run.msgSendSuper w superClass self cmd newValue with
      | ⟨w, events, some e⟩ => ⟨w, events, some e⟩
      | ⟨w, events, none⟩ =>
        match w.infos self with
        | none => ⟨w, events, none⟩
        | some array =>
          let (called, raised) := callFirst self keyPath oldValue newValue 0 array
          ⟨w, events ++ called, raised⟩

/-- `objc_msgSend` of a one-argument message. -/
def msgSend (A : AppOf S G V) (w : WorldOf S G σ) (self : Oid) (cmd : SetterSEL)
    (newValue : Option V) : ReplyOf S G σ V :=
  match getMethod w.classes (w.isa self) cmd.name with
  | some (.kvoSetter .kvo) => run.tzSetter A w self cmd.name newValue
  | some (.kvoSetter .autoDeallocKVO) => run.zbSetter A w self cmd.name newValue
  | some (.kvoSetter .blockKVO) => run.pdSetter A w self cmd.name newValue
  | some (.body b) => run.callBody w self newValue b
  -- `class` and `dealloc` have no colon.
  | some _ => ⟨w, [], none⟩
  | none => ⟨w, [], some .unrecognizedSelector⟩

end Code

/-! ## The process -/

inductive Op (V : Type)
  | gvAddObserver (x : Oid) (observer : Option Oid) (keyPath : Option NSString)
  | zbAddObserver (x : Oid) (observer : Option Oid) (keyPath : Option NSString)
  | pdAddObserver (x : Oid) (observer : Option Oid) (keyPath : Option NSString)
  | pdAddObserverBlock (x : Oid) (observer : Option Oid) (keyPath : Option NSString)
      (handleBlock : Option Nat)
  | gvRemoveObserver (x : Oid) (observer : Option Oid) (keyPath : Option NSString)
  | zbRemoveObserver (x : Oid) (observer : Option Oid) (keyPath : Option NSString)
  | pdRemoveObserver (x : Oid) (observer : Option Oid) (keyPath : Option NSString)
  | myDealloc (x : Oid)
  | pdMyDealloc (x : Oid)
  | message (x : Oid) (cmd : SetterSEL) (newValue : Option V)

namespace Code

variable (run : Code S G σ V)

def perform (A : AppOf S G V) (w : WorldOf S G σ) : Op V → ReplyOf S G σ V
  | .gvAddObserver x o k => gvAddObserver A o k w x
  | .zbAddObserver x o k => zbAddObserver A o k w x
  | .pdAddObserver x o k => pdAddObserver A o k w x
  | .pdAddObserverBlock x o k b => pdAddObserverBlock A o k b w x
  | .gvRemoveObserver x o k => gvRemoveObserver o k w x
  | .zbRemoveObserver x o k => zbRemoveObserver o k w x
  | .pdRemoveObserver x o k => pdRemoveObserver o k w x
  | .myDealloc x => myDealloc w x
  | .pdMyDealloc x => pdMyDealloc w x
  | .message x cmd v => run.msgSend A w x cmd v

/-- The process as a system that answers an operation with its callbacks and
the exception it raised. -/
def process (A : AppOf S G V) : System (WorldOf S G σ) (Op V) (List (Event V) × Option Raised) where
  step w op :=
    ((run.perform A w op).world, (run.perform A w op).events, (run.perform A w op).raised)

/-- The process after the operations `ops`. -/
def after (A : AppOf S G V) (ivars : Oid → σ) (ops : List (Op V)) : WorldOf S G σ :=
  (run.process A).run (A.start ivars) ops

end Code

/-! ## A message changes only the instance variables of its receiver -/

structure OnlyIvars (x : Oid) (w w' : WorldOf S G σ) : Prop where
  classes : w'.classes = w.classes
  isa : w'.isa = w.isa
  observer : w'.observer = w.observer
  infos : w'.infos = w.infos
  ivars : ∀ y, y ≠ x → w'.ivars y = w.ivars y

theorem OnlyIvars.refl (x : Oid) (w : WorldOf S G σ) : OnlyIvars x w w :=
  ⟨rfl, rfl, rfl, rfl, fun _ _ => rfl⟩

theorem OnlyIvars.trans {x : Oid} {w w' w'' : WorldOf S G σ} (h : OnlyIvars x w w')
    (h' : OnlyIvars x w' w'') : OnlyIvars x w w'' :=
  ⟨h'.classes.trans h.classes, h'.isa.trans h.isa, h'.observer.trans h.observer,
    h'.infos.trans h.infos, fun y hy => (h'.ivars y hy).trans (h.ivars y hy)⟩

theorem onlyIvars_setIvars (x : Oid) (w : WorldOf S G σ) (s : σ) : OnlyIvars x w (w.setIvars x s) :=
  ⟨rfl, rfl, rfl, rfl, fun _ h => if_neg h⟩

namespace Code

/-- What an accessor may change. -/
def Local (run : Code S G σ V) : Prop :=
  ∀ f w x v, OnlyIvars x w (run.setter f w x v).world

variable {run : Code S G σ V}

theorem Local.callBody (hrun : run.Local) (w : WorldOf S G σ) (x : Oid) (v : Option V)
    (b : BodyOf S G) : OnlyIvars x w (run.callBody w x v b).world := by
  cases b with
  | setter f => exact hrun f w x v
  | getter f =>
    rw [Code.callBody]
    cases run.getter f w x with
    | ok _ => exact OnlyIvars.refl x w
    | error _ => exact OnlyIvars.refl x w
  | nsobjectClass => exact OnlyIvars.refl x w

theorem Local.msgSendSuper (hrun : run.Local) (w : WorldOf S G σ) (c : Option NSString) (x : Oid)
    (cmd : NSString) (v : Option V) : OnlyIvars x w (run.msgSendSuper w c x cmd v).world := by
  unfold Code.msgSendSuper
  split
  · exact hrun.callBody w x v _
  · exact OnlyIvars.refl x w
  · exact OnlyIvars.refl x w

theorem observerSetter_world (A : AppOf S G V) (file : Category) (w : WorldOf S G σ) (x : Oid)
    (cmd : NSString) (v : Option V) :
    (run.observerSetter A file w x cmd v).world =
      (run.msgSendSuper w (getSuperclass w.classes (w.isa x)) x cmd v).world := by
  unfold observerSetter
  split
  · next h => rw [h]
  · next h =>
    rw [h]
    dsimp only
    split
    · rfl
    · split
      · split <;> rfl
      · rfl

theorem Local.pdSetter (hrun : run.Local) (A : AppOf S G V) (w : WorldOf S G σ) (x : Oid)
    (cmd : NSString) (v : Option V) : OnlyIvars x w (run.pdSetter A w x cmd v).world := by
  have hs := hrun.msgSendSuper w (getSuperclass w.classes (w.isa x)) x cmd v
  unfold Code.pdSetter
  dsimp only
  split
  · exact OnlyIvars.refl x w
  · exact OnlyIvars.refl x w
  · split
    · exact OnlyIvars.refl x w
    · split
      · next h => rw [h] at hs; exact hs
      · next h =>
        rw [h] at hs
        split <;> exact hs

theorem Local.msgSend (hrun : run.Local) (A : AppOf S G V) (w : WorldOf S G σ) (x : Oid)
    (cmd : SetterSEL) (v : Option V) : OnlyIvars x w (run.msgSend A w x cmd v).world := by
  unfold Code.msgSend
  split
  · unfold tzSetter; rw [observerSetter_world]; exact hrun.msgSendSuper w _ x _ v
  · unfold zbSetter; rw [observerSetter_world]; exact hrun.msgSendSuper w _ x _ v
  · exact hrun.pdSetter A w x _ v
  · exact hrun.callBody w x v _
  · exact OnlyIvars.refl x w
  · exact OnlyIvars.refl x w

end Code

/-! ## Accessors that are functions of the instance variables -/

/-- A setter leaves instance variables and says whether it raised; a getter answers or
raises. -/
abbrev Body (σ V : Type) := BodyOf (σ → Option V → σ × Bool) (σ → Option (Option V))

abbrev IMP (σ V : Type) := IMPOf (σ → Option V → σ × Bool) (σ → Option (Option V))

abbrev App (σ V : Type) := AppOf (σ → Option V → σ × Bool) (σ → Option (Option V)) V

abbrev World (σ V : Type) := WorldOf (σ → Option V → σ × Bool) (σ → Option (Option V)) σ

abbrev Reply (σ V : Type) := ReplyOf (σ → Option V → σ × Bool) (σ → Option (Option V)) σ V

def direct : Code (σ → Option V → σ × Bool) (σ → Option (Option V)) σ V where
  setter f w self newValue :=
    let (s, raises) := f (w.ivars self) newValue
    ⟨w.setIvars self s, [], if raises then some .accessor else none⟩
  getter f w self :=
    match f (w.ivars self) with
    | some answer => .ok answer
    | none => .error .accessor

def observerSetter (A : App σ V) (file : Category) (w : World σ V) (self : Oid) (cmd : NSString)
    (newValue : Option V) : Reply σ V :=
  direct.observerSetter A file w self cmd newValue

def tzSetter (A : App σ V) : World σ V → Oid → NSString → Option V → Reply σ V :=
  observerSetter A .kvo

def zbSetter (A : App σ V) : World σ V → Oid → NSString → Option V → Reply σ V :=
  observerSetter A .autoDeallocKVO

def pdSetter (A : App σ V) : World σ V → Oid → NSString → Option V → Reply σ V :=
  direct.pdSetter A

def msgSend (A : App σ V) (w : World σ V) (self : Oid) (cmd : SetterSEL) (newValue : Option V) :
    Reply σ V :=
  direct.msgSend A w self cmd newValue

def perform (A : App σ V) (w : World σ V) (op : Op V) : Reply σ V := direct.perform A w op

def process (A : App σ V) : System (World σ V) (Op V) (List (Event V) × Option Raised) :=
  direct.process A

def AppOf.after (A : App σ V) (ivars : Oid → σ) (ops : List (Op V)) : World σ V :=
  direct.after A ivars ops

theorem local_direct : (direct : Code _ _ σ V).Local := fun _ w x _ => onlyIvars_setIvars x w _

theorem onlyIvars_msgSend (A : App σ V) (w : World σ V) (x : Oid) (cmd : SetterSEL) (v : Option V) :
    OnlyIvars x w (msgSend A w x cmd v).world :=
  local_direct.msgSend A w x cmd v

end BottomResearch.Observing
