import BottomResearch.IvarList

/-!
# Scalar properties

The hand-written key-value coding passes the word of an object reference where an
accessor or a variable of type `NSInteger` takes an integer, and takes the integer
back for a reference; it converts nothing.  Proved here:

* `survives_iff_wordIsInteger`: exactly when a boxed integer comes through nevertheless;
* `passesReference_of_property`: the property takes the reference, and the synthesized
  accessors return the object that was set.
-/

namespace BottomResearch.Scalars

open Foundation KeyValue KeyResolution

/-! ## Words -/

/-- A reference to an object is its word; the word 0 is `nil`. -/
abbrev Ref := { w : UInt64 // w ≠ 0 }

def word : Option Ref → UInt64
  | none => 0
  | some r => r.val

def ofWord (w : UInt64) : Option Ref := if h : w = 0 then none else some ⟨w, h⟩

@[simp] theorem ofWord_word (v : Option Ref) : ofWord (word v) = v := by
  cases v with
  | none => rfl
  | some r => exact dif_neg r.property

/-- The `NSInteger` that a word is. -/
def integer (v : Option Ref) : Int64 := (word v).toInt64

def ofInteger (n : Int64) : Option Ref := ofWord n.toUInt64

@[simp] theorem ofInteger_integer (v : Option Ref) : ofInteger (integer v) = v := by
  simp [ofInteger, integer]

/-! ## Properties of type `NSInteger` -/

/-- The synthesized setter of a property with the variable `s`. -/
def setScalar (s : Slot) : Method Ref := fun value ivars =>
  (fun t => if t = s then ofInteger (integer value) else ivars t, .ok none)

/-- The synthesized getter. -/
def scalar (s : Slot) : Method Ref := fun _ ivars => (ivars, .ok (ofInteger (integer (ivars s))))

/-- The property `p` has its synthesized accessors. -/
structure Synthesized (T : CaseTable) (c : ObjClass Ref) (p : NSString) (s : Slot) : Prop where
  setter : c.method (lit "set" ++ upperFirst T p ++ lit ":") = some (setScalar s)
  getter : c.method p = some (scalar s)

/-- The property `p` is the variable `_p` alone. -/
structure Bare (T : CaseTable) (c : ObjClass Ref) (p : NSString) (s : Slot) : Prop where
  ivar : IvarList.declared c (lit "_" ++ p) = some s
  setter : (setterNames (upperFirst T p)).find? c.respondsToSelector = none
  getter : (getterNames p (upperFirst T p)).find? c.respondsToSelector = none

section Survival

/- `numbers` tells which references are those of number objects, and their integers. -/
variable (T : CaseTable) (c : ObjClass Ref) (numbers : Ref → Option Int64) (number : Ref) (n : Int64)
  (p : NSString) (s : Slot) (m : Machine Ref)

/-- The object `number` set for `p` stores its integer `n`, and a number object of `n`
is what `p` then answers. -/
structure Survives : Prop where
  stored : integer ((zbSetValue T c (some number) (some p) m).2.ivars s) = n
  returned : ∃ o, (zbValueForKey T c (some p) (zbSetValue T c (some number) (some p) m).2).1 =
    .ok (some o) ∧ numbers o = some n

/-- The word of the number object happens to be the integer in it, and a `get<P>` of the
class, which is performed before `p`, answers with that integer. -/
structure WordIsInteger : Prop where
  synthesized : Synthesized T c p s
  word : integer (some number) = n
  getFirst : ∀ f, c.method (lit "get" ++ upperFirst T p) = some f →
    ∃ o, (f none fun t => if t = s then some number else m.ivars t).2 = .ok (some o) ∧
      numbers o = some n

/-- The object `number` set for `p` stores the word of its reference, and is what `p`
then answers if the property is synthesized and the class has no `get<P>`. -/
structure PassesReference : Prop where
  stored : integer ((zbSetValue T c (some number) (some p) m).2.ivars s) = number.val.toInt64
  returned : Synthesized T c p s → c.method (lit "get" ++ upperFirst T p) = none →
    ∃ o, (zbValueForKey T c (some p) (zbSetValue T c (some number) (some p) m).2).1 =
      .ok (some o) ∧ o = number ∧ numbers o = some n

end Survival

section OneProperty

variable {T : CaseTable} {c : ObjClass Ref} {p : NSString} {s : Slot}

/-- The setter stores the word that it is given. -/
theorem zbSetValue_scalar (hp : ∀ u ∈ p, isAsciiLower u = true) (h : Synthesized T c p s)
    (value : Option Ref) (m : Machine Ref) :
    (zbSetValue T c value (some p) m).2.ivars = fun t => if t = s then value else m.ivars t := by
  have hfind : (setterNames (upperFirst T p)).find? c.respondsToSelector =
      some (lit "set" ++ upperFirst T p ++ lit ":") :=
    List.find?_cons_of_pos (responds_of_method h.setter)
  rw [zbSetValue_some, capitalizedString_of_lower T hp, hfind]
  dsimp only
  rw [performSelector_of_method h.setter]
  simp [setScalar, andThen, Machine.send]

/-- The getter answers with the word that is stored, unless the class has a `get<P>`. -/
theorem zbValueForKey_scalar (hp : ∀ u ∈ p, isAsciiLower u = true) (h : Synthesized T c p s)
    (hget : c.method (lit "get" ++ upperFirst T p) = none) (m : Machine Ref) :
    (zbValueForKey T c (some p) m).1 = .ok (m.ivars s) := by
  have hno : ¬ c.respondsToSelector (lit "get" ++ upperFirst T p) = true := by
    simp [ObjClass.respondsToSelector, hget]
  have hfind : (getterNames p (upperFirst T p)).find? c.respondsToSelector = some p := by
    rw [getterNames, List.find?_cons_of_neg hno]
    exact List.find?_cons_of_pos (responds_of_method h.getter)
  rw [zbValueForKey_some, capitalizedString_of_lower T hp, hfind]
  dsimp only
  rw [performSelector_of_method h.getter]
  simp [scalar]

theorem zbValueForKey_get {f : Method Ref} (hp : ∀ u ∈ p, isAsciiLower u = true)
    (hget : c.method (lit "get" ++ upperFirst T p) = some f) (m : Machine Ref) (o : Ref) :
    (zbValueForKey T c (some p) m).1 = .ok (some o) ↔ (f none m.ivars).2 = .ok (some o) := by
  have hfind : (getterNames p (upperFirst T p)).find? c.respondsToSelector =
      some (lit "get" ++ upperFirst T p) :=
    List.find?_cons_of_pos (responds_of_method hget)
  rw [zbValueForKey_some, capitalizedString_of_lower T hp, hfind]
  dsimp only
  rw [performSelector_of_method hget]
  cases (f none m.ivars).2 <;> simp

/-- Without an accessor the getter returns no object: what a variable holds, and what the
hook answers, is dropped. -/
theorem zbValueForKey_bare (hp : ∀ u ∈ p, isAsciiLower u = true) (h : Bare T c p s)
    (m : Machine Ref) (o : Ref) : (zbValueForKey T c (some p) m).1 ≠ .ok (some o) := by
  rw [zbValueForKey_some, capitalizedString_of_lower T hp, h.getter]
  dsimp only
  split
  · intro he
    cases he
  · refine andThen_ne_ok fun _ => andThen_ne_ok fun _ => andThen_ne_ok fun _ => ?_
    intro he
    cases he

/-- A boxed integer comes through exactly when the property is synthesized and the word
of the number object is the integer itself. -/
theorem survives_iff_wordIsInteger (hp : ∀ u ∈ p, isAsciiLower u = true)
    (hproperty : Synthesized T c p s ∨ Bare T c p s) (numbers : Ref → Option Int64) (number : Ref)
    (n : Int64) (hnumber : numbers number = some n) (m : Machine Ref) :
    Survives T c numbers number n p s m ↔ WordIsInteger T c numbers number n p s m := by
  rcases hproperty with h | h
  · have hivars := zbSetValue_scalar hp h (some number) m
    have hstored : (zbSetValue T c (some number) (some p) m).2.ivars s = some number := by
      rw [hivars]
      exact if_pos rfl
    constructor
    · rintro ⟨hword, o, ho, hn⟩
      rw [hstored] at hword
      refine ⟨h, hword, fun f hf => ⟨o, ?_, hn⟩⟩
      rw [← hivars]
      exact (zbValueForKey_get hp hf _ o).mp ho
    · rintro ⟨_, hword, hget⟩
      refine ⟨by rw [hstored, hword], ?_⟩
      cases hf : c.method (lit "get" ++ upperFirst T p) with
      | none => exact ⟨number, by rw [zbValueForKey_scalar hp h hf, hstored], hnumber⟩
      | some f =>
        obtain ⟨o, ho, hn⟩ := hget f hf
        refine ⟨o, (zbValueForKey_get hp hf _ o).mpr ?_, hn⟩
        rw [hivars]
        exact ho
  · constructor
    · rintro ⟨_, o, ho, _⟩
      exact absurd ho (zbValueForKey_bare hp h _ o)
    · rintro ⟨hs, _, _⟩
      have hno : c.respondsToSelector p = false := by
        have hmem := List.find?_eq_none.mp h.getter p (List.mem_cons_of_mem _ List.mem_cons_self)
        simpa using hmem
      rw [ObjClass.respondsToSelector, hs.getter] at hno
      cases hno

/-- A bare variable of the object's own class takes the word that it is given. -/
theorem zbSetValue_bare (hp : ∀ u ∈ p, isAsciiLower u = true) (h : Bare T c p s) (hown : s.level = 0)
    (hdirect : c.accessInstanceVariablesDirectly = true) (value : Option Ref) (m : Machine Ref) :
    (zbSetValue T c value (some p) m).2.ivars = fun t => if t = s then value else m.ivars t := by
  have hpass : c.pass (lit "_" ++ p) = some s.index := IvarList.pass_of_declared h.ivar hown
  have hivar : c.ivarFor T p = some s.index := by
    rw [ObjClass.ivarFor, passNames, List.findSome?_cons, hpass]
  have hno : (setterNames (capitalizedString T p)).find? c.respondsToSelector = none := by
    rw [capitalizedString_of_lower T hp]
    exact h.setter
  rw [zbSetValue_ivar hdirect hno hivar]
  obtain ⟨level, i⟩ := s
  cases hown
  rfl

/-- The property takes the reference of a number object for an integer, and its
synthesized accessors return the object that was set. -/
theorem passesReference_of_property (hp : ∀ u ∈ p, isAsciiLower u = true)
    (hproperty : Synthesized T c p s ∨
      Bare T c p s ∧ s.level = 0 ∧ c.accessInstanceVariablesDirectly = true)
    (numbers : Ref → Option Int64) (number : Ref) (n : Int64) (hnumber : numbers number = some n)
    (m : Machine Ref) : PassesReference T c numbers number n p s m := by
  have hivars : (zbSetValue T c (some number) (some p) m).2.ivars s = some number := by
    rcases hproperty with h | ⟨h, hown, hdirect⟩
    · rw [zbSetValue_scalar hp h]
      exact if_pos rfl
    · rw [zbSetValue_bare hp h hown hdirect]
      exact if_pos rfl
  refine ⟨?_, fun h hget => ⟨number, ?_, rfl, hnumber⟩⟩
  · rw [hivars]
    rfl
  · rw [zbValueForKey_scalar hp h hget, hivars]

end OneProperty

/-- A class with the property `age` of type `NSInteger`. -/
def ageClass : ObjClass Ref :=
  { responding none with
    ivarNames := [[lit "_name", lit "_age"]]
    method := fun sel =>
      if sel = lit "setAge:" then some (setScalar ⟨0, 1⟩)
      else if sel = lit "age" then some (scalar ⟨0, 1⟩)
      else none }

/-- The tagged reference of the number object `@7`. -/
def seven : Ref := ⟨0xb000000000000073, by decide⟩

def onlySeven (r : Ref) : Option Int64 := if r = seven then some 7 else none

theorem passesReference_of_property_age :
    PassesReference asciiTable ageClass onlySeven seven 7 (lit "age") ⟨0, 1⟩ blank :=
  passesReference_of_property (List.all_eq_true.mp rfl) (Or.inl ⟨rfl, rfl⟩) onlySeven seven 7 rfl
    blank

/-- The property holds the reference, not 7. -/
theorem boxed_seven_lost :
    Synthesized asciiTable ageClass (lit "age") ⟨0, 1⟩ ∧ onlySeven seven = some 7 ∧
      ¬ Survives asciiTable ageClass onlySeven seven 7 (lit "age") ⟨0, 1⟩ blank := by
  refine ⟨⟨rfl, rfl⟩, rfl, fun h => ?_⟩
  have hstored := h.stored
  revert hstored
  decide

end BottomResearch.Scalars
