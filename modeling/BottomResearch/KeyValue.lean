import BottomResearch.Foundation

/-!
# The hand-written key-value coding

The model of `zb_setValue:forKey:` and `zb_valueForKey:` of `NSObject+KVC.m`.
The two functions see an object through its class (`ObjClass`): the methods it
responds to, the instance variables of each class of its hierarchy and the two
hooks for undefined keys, all arbitrary.  The list that `class_copyIvarList`
returns is explicit state (`IvarList`): to read or free it after it was freed is
a failure of its own.

Proved here: `setPasses_eq`, the passes of the setter store in the first
variable found, and `getPasses_found`, the first match of the getter frees the
list, and a second one fails.
-/

namespace BottomResearch.KeyValue

open Foundation

/-! ## Objects -/

/-- An instance variable: how many classes above the object's own it is declared,
and its index in the list of that class. -/
structure Slot where
  level : Nat
  index : Nat
  deriving DecidableEq, Repr

structure Exception where
  name : NSString
  reason : NSString
  deriving DecidableEq

inductive Failure
  | exception (e : Exception)
  /-- The list of instance variables was read or freed after it was freed. -/
  | badAccess
  deriving DecidableEq

abbrev Ivars (V : Type) := Slot → Option V

/-- A method performed with one argument; `nil` is `none`. -/
abbrev Method (V : Type) := Option V → Ivars V → Ivars V × Except Exception (Option V)

/-- The class of an object. -/
structure ObjClass (V : Type) where
  method : NSString → Option (Method V)
  accessInstanceVariablesDirectly : Bool
  /-- The names of the instance variables, the object's own class first, each class
  in the order of declaration. -/
  ivarNames : List (List NSString)
  setValueForUndefinedKey : Option V → NSString → Ivars V → Ivars V × Except Exception Unit
  valueForUndefinedKey : NSString → Ivars V → Ivars V × Except Exception (Option V)

/-- The messages of the two functions that may run other code. -/
inductive Sent (V : Type)
  | performSelector (sel : NSString) (object : Option V)
  | setValueForUndefinedKey (value : Option V) (key : NSString)
  | valueForUndefinedKey (key : NSString)
  deriving DecidableEq

/-- What `ivars` points to; the list of a class without variables is `NULL`. -/
inductive IvarList
  | null
  | allocated
  | freed
  deriving DecidableEq, Repr

structure Machine (V : Type) where
  ivars : Ivars V
  sent : List (Sent V)
  list : IvarList

def Machine.send {V : Type} (m : Machine V) (message : Sent V) : Machine V :=
  { m with sent := m.sent ++ [message] }

/-- What a call answers, and the machine it leaves. -/
abbrev Result (V α : Type) := Except Failure α × Machine V

variable {V : Type}

/-! ## The runtime functions -/

def ObjClass.respondsToSelector (c : ObjClass V) (sel : NSString) : Bool := (c.method sel).isSome

/-- The names in the list that `class_copyIvarList` returns. -/
def ObjClass.ownNames (c : ObjClass V) : List NSString := c.ivarNames.headD []

def copyIvarList (c : ObjClass V) (m : Machine V) : Machine V :=
  { m with list := if c.ownNames = [] then .null else .allocated }

def free (m : Machine V) : Result V Unit :=
  match m.list with
  | .null => (.ok (), m)
  | .allocated => (.ok (), { m with list := .freed })
  | .freed => (.error .badAccess, m)

/-- `object_setIvar(self, ivars[i], value)`. -/
def objectSetIvar (i : Nat) (value : Option V) (m : Machine V) : Result V Unit :=
  match m.list with
  | .allocated => (.ok (), { m with ivars := fun s => if s = ⟨0, i⟩ then value else m.ivars s })
  | _ => (.error .badAccess, m)

/-- `object_getIvar(self, ivars[i])`. -/
def objectGetIvar (i : Nat) (m : Machine V) : Result V (Option V) :=
  match m.list with
  | .allocated => (.ok (m.ivars ⟨0, i⟩), m)
  | _ => (.error .badAccess, m)

def andThen {α β : Type} (r : Result V α) (next : α → Machine V → Result V β) : Result V β :=
  match r with
  | (.error e, m) => (.error e, m)
  | (.ok a, m) => next a m

def performSelector (c : ObjClass V) (sel : NSString) (object : Option V) (m : Machine V) :
    Result V (Option V) :=
  let m := m.send (.performSelector sel object)
  match c.method sel with
  | none => (.error (.exception ⟨lit "NSInvalidArgumentException", sel⟩), m)
  | some f =>
    let (ivars, answer) := f object m.ivars
    (answer.mapError .exception, { m with ivars := ivars })

def sendSetUndefined (c : ObjClass V) (value : Option V) (key : NSString) (m : Machine V) :
    Result V Unit :=
  let m := m.send (.setValueForUndefinedKey value key)
  let (ivars, answer) := c.setValueForUndefinedKey value key m.ivars
  (answer.mapError .exception, { m with ivars := ivars })

def sendValueForUndefined (c : ObjClass V) (key : NSString) (m : Machine V) :
    Result V (Option V) :=
  let m := m.send (.valueForUndefinedKey key)
  let (ivars, answer) := c.valueForUndefinedKey key m.ivars
  (answer.mapError .exception, { m with ivars := ivars })

@[simp] theorem mapError_ok {α ε ε' : Type} (f : ε → ε') (a : α) :
    (Except.ok a).mapError f = .ok a := rfl

@[simp] theorem mapError_error {α ε ε' : Type} (f : ε → ε') (e : ε) :
    (Except.error e : Except ε α).mapError f = .error (f e) := rfl

/-! ## The two functions -/

/-- `key.length`, which is 0 for `nil`. -/
def keyLength : Option NSString → Nat
  | none => 0
  | some key => key.length

/-- `set<Key>:`, `_set<Key>:`, `setIs<Key>:`. -/
def setterNames (Key : NSString) : List NSString :=
  [lit "set" ++ Key ++ lit ":", lit "_set" ++ Key ++ lit ":", lit "setIs" ++ Key ++ lit ":"]

/-- `get<Key>`, `<key>`. -/
def getterNames (key Key : NSString) : List NSString := [lit "get" ++ Key, key]

/-- `_<key>`, `_is<Key>`, `<key>`, `is<Key>`. -/
def passNames (key Key : NSString) : List NSString :=
  [lit "_" ++ key, lit "_is" ++ Key, key, lit "is" ++ Key]

/-- One loop over the list of names, up to the first variable of that name. -/
def ObjClass.pass (c : ObjClass V) (name : NSString) : Option Nat :=
  c.ownNames.findIdx? fun keyName => keyName = name

/-- The loops of the setter; a loop that finds its name returns from the function. -/
def setPasses (c : ObjClass V) (value : Option V) : List NSString → Machine V → Option (Result V Unit)
  | [], _ => none
  | name :: names, m =>
    match c.pass name with
    | some i => some (andThen (objectSetIvar i value m) fun _ m => free m)
    | none => setPasses c value names m

/-- The loops of the getter; a loop that finds its name reads the variable, frees
the list and breaks. -/
def getPasses (c : ObjClass V) : List NSString → Machine V → Result V Unit
  | [], m => (.ok (), m)
  | name :: names, m =>
    match c.pass name with
    | some i =>
      andThen (objectGetIvar i m) fun _ m => andThen (free m) fun _ m => getPasses c names m
    | none => getPasses c names m

def zbSetValue (T : CaseTable) (c : ObjClass V) (value : Option V) (key : Option NSString)
    (m : Machine V) : Result V Unit :=
  if key = none ∧ keyLength key = 0 then (.ok (), m)
  else
    let key := key.getD []
    let Key := capitalizedString T key
    match (setterNames Key).find? c.respondsToSelector with
    | some sel => andThen (performSelector c sel value m) fun _ m => (.ok (), m)
    | none =>
      if c.accessInstanceVariablesDirectly = false then
        (.error (.exception ⟨lit "NSUnkonwnKeyException", lit "setValue:forUndefineKey"⟩), m)
      else
        let m := copyIvarList c m
        match setPasses c value (passNames key Key) m with
        | some r => r
        | none => andThen (sendSetUndefined c value key m) fun _ m => free m

def zbValueForKey (T : CaseTable) (c : ObjClass V) (key : Option NSString) (m : Machine V) :
    Result V (Option V) :=
  if key = none ∧ keyLength key = 0 then (.ok none, m)
  else
    let key := key.getD []
    let Key := capitalizedString T key
    match (getterNames key Key).find? c.respondsToSelector with
    | some sel => performSelector c sel none m
    | none =>
      if c.accessInstanceVariablesDirectly = false then
        (.error (.exception ⟨lit "NSUnkonwnKeyException", lit "valueForUndefinedKey:"⟩), m)
      else
        andThen (getPasses c (passNames key Key) (copyIvarList c m)) fun _ m =>
          -- The answer of the hook is dropped.
          andThen (sendValueForUndefined c key m) fun _ m =>
            andThen (free m) fun _ m => (.ok none, m)

theorem responds_of_method {c : ObjClass V} {sel : NSString} {f : Method V}
    (h : c.method sel = some f) : c.respondsToSelector sel = true := by
  simp [ObjClass.respondsToSelector, h]

theorem performSelector_of_method {c : ObjClass V} {sel : NSString} {f : Method V}
    (h : c.method sel = some f) (object : Option V) (m : Machine V) :
    performSelector c sel object m = ((f object m.ivars).2.mapError .exception,
      { m.send (.performSelector sel object) with ivars := (f object m.ivars).1 }) := by
  unfold performSelector
  rw [h]
  rfl

theorem performSelector_sent (c : ObjClass V) (sel : NSString) (object : Option V) (m : Machine V) :
    (performSelector c sel object m).2.sent = m.sent ++ [.performSelector sel object] := by
  unfold performSelector
  cases c.method sel <;> rfl

theorem sendValueForUndefined_sent (c : ObjClass V) (key : NSString) (m : Machine V) :
    (sendValueForUndefined c key m).2.sent = m.sent ++ [.valueForUndefinedKey key] := rfl

theorem objectGetIvar_sent (i : Nat) (m : Machine V) : (objectGetIvar i m).2.sent = m.sent := by
  unfold objectGetIvar
  split <;> rfl

theorem sendSetUndefined_sent (c : ObjClass V) (value : Option V) (key : NSString) (m : Machine V) :
    (sendSetUndefined c value key m).2.sent = m.sent ++ [.setValueForUndefinedKey value key] := rfl

theorem free_sent (m : Machine V) : (free m).2.sent = m.sent := by
  unfold free
  split <;> rfl

theorem andThen_sent {α β : Type} (r : Result V α) {next : α → Machine V → Result V β}
    (h : ∀ a m, (next a m).2.sent = m.sent) : (andThen r next).2.sent = r.2.sent := by
  rcases r with ⟨e | a, m⟩
  · rfl
  · exact h a m

theorem free_ivars (m : Machine V) : (free m).2.ivars = m.ivars := by
  unfold free
  split <;> rfl

theorem andThen_ivars {α β : Type} (r : Result V α) {next : α → Machine V → Result V β}
    (h : ∀ a m, (next a m).2.ivars = m.ivars) : (andThen r next).2.ivars = r.2.ivars := by
  rcases r with ⟨e | a, m⟩
  · rfl
  · exact h a m

/-! ## The passes -/

/-- The variable that the passes find for a key. -/
def ObjClass.ivarFor (c : ObjClass V) (T : CaseTable) (key : NSString) : Option Nat :=
  (passNames key (capitalizedString T key)).findSome? c.pass

theorem pass_list {c : ObjClass V} {name : NSString} {i : Nat} (h : c.pass name = some i)
    (m : Machine V) : (copyIvarList c m).list = .allocated := by
  have hne : c.ownNames ≠ [] := by
    intro he
    rw [ObjClass.pass, he] at h
    cases h
  exact if_neg hne

theorem ivarFor_list {c : ObjClass V} {T : CaseTable} {key : NSString} {i : Nat}
    (h : c.ivarFor T key = some i) (m : Machine V) : (copyIvarList c m).list = .allocated := by
  obtain ⟨name, _, hp⟩ := List.exists_of_findSome?_eq_some h
  exact pass_list hp m

/-- The setter stores in the first variable found, frees the list and returns. -/
theorem setPasses_eq (c : ObjClass V) (value : Option V) (names : List NSString) {m : Machine V}
    (hm : m.list = .allocated) :
    setPasses c value names m = (names.findSome? c.pass).map fun i =>
      (.ok (), ⟨fun s => if s = ⟨0, i⟩ then value else m.ivars s, m.sent, .freed⟩) := by
  induction names with
  | nil => rfl
  | cons name names ih =>
    rw [setPasses, List.findSome?_cons]
    cases c.pass name with
    | none => exact ih
    | some i => simp [objectSetIvar, andThen, free, hm]

theorem setPasses_none {c : ObjClass V} {names : List NSString}
    (h : names.findSome? c.pass = none) (value : Option V) (m : Machine V) :
    setPasses c value names m = none := by
  induction names with
  | nil => rfl
  | cons name names ih =>
    rw [List.findSome?_cons] at h
    rw [setPasses]
    cases hp : c.pass name with
    | none =>
      rw [hp] at h
      exact ih h
    | some i =>
      rw [hp] at h
      cases h

theorem getPasses_sent (c : ObjClass V) (names : List NSString) (m : Machine V) :
    (getPasses c names m).2.sent = m.sent := by
  induction names generalizing m with
  | nil => rfl
  | cons name names ih =>
    rw [getPasses]
    cases c.pass name with
    | none => exact ih m
    | some i =>
      dsimp only
      rw [andThen_sent, objectGetIvar_sent]
      intro _ m
      rw [andThen_sent _ fun _ m => ih m, free_sent]

/-- How many of the names are found in the list. -/
def ObjClass.found (c : ObjClass V) (names : List NSString) : Nat :=
  names.countP fun name => (c.pass name).isSome

theorem found_cons_none {c : ObjClass V} {name : NSString} (h : c.pass name = none)
    (names : List NSString) : c.found (name :: names) = c.found names := by
  simp [ObjClass.found, h]

theorem found_cons_some {c : ObjClass V} {name : NSString} {i : Nat} (h : c.pass name = some i)
    (names : List NSString) : c.found (name :: names) = c.found names + 1 := by
  simp [ObjClass.found, h]

theorem found_eq_zero_iff {c : ObjClass V} {names : List NSString} :
    c.found names = 0 ↔ names.findSome? c.pass = none := by
  rw [ObjClass.found, List.countP_eq_zero, List.findSome?_eq_none_iff]
  simp only [Option.not_isSome_iff_eq_none]

theorem found_ne_zero {c : ObjClass V} {T : CaseTable} {key : NSString} {i : Nat}
    (h : c.ivarFor T key = some i) : c.found (passNames key (capitalizedString T key)) ≠ 0 := by
  intro hz
  rw [ObjClass.ivarFor, found_eq_zero_iff.mp hz] at h
  cases h

/-- Passes of the getter that find nothing do nothing. -/
theorem getPasses_none {c : ObjClass V} {names : List NSString} (h : c.found names = 0)
    (m : Machine V) : getPasses c names m = (.ok (), m) := by
  induction names with
  | nil => rfl
  | cons name names ih =>
    rw [getPasses]
    cases hp : c.pass name with
    | none =>
      rw [found_cons_none hp] at h
      exact ih h
    | some i =>
      rw [found_cons_some hp] at h
      omega

/-- After a pass of the getter has freed the list, another match fails. -/
theorem getPasses_freed {c : ObjClass V} {names : List NSString} (h : c.found names ≠ 0)
    {m : Machine V} (hm : m.list = .freed) : getPasses c names m = (.error .badAccess, m) := by
  induction names with
  | nil => exact absurd rfl h
  | cons name names ih =>
    rw [getPasses]
    cases hp : c.pass name with
    | none =>
      rw [found_cons_none hp] at h
      exact ih h
    | some i => simp [objectGetIvar, andThen, hm]

/-- The first match of the getter frees the list, and a second one fails. -/
theorem getPasses_found {c : ObjClass V} {names : List NSString} (h : c.found names ≠ 0)
    {m : Machine V} (hm : m.list = .allocated) :
    getPasses c names m =
      (if c.found names = 1 then .ok () else .error .badAccess, { m with list := .freed }) := by
  induction names with
  | nil => exact absurd rfl h
  | cons name names ih =>
    rw [getPasses]
    cases hp : c.pass name with
    | none =>
      rw [found_cons_none hp] at h ⊢
      exact ih h
    | some i =>
      have hstep : (andThen (objectGetIvar i m) fun _ m =>
          andThen (free m) fun _ m => getPasses c names m) =
            getPasses c names { m with list := .freed } := by
        simp [objectGetIvar, andThen, free, hm]
      dsimp only
      rw [hstep, found_cons_some hp]
      by_cases hz : c.found names = 0
      · rw [getPasses_none hz, if_pos (by omega)]
      · rw [getPasses_freed hz rfl, if_neg (by omega)]

end BottomResearch.KeyValue
