import BottomResearch.KeyResolution

/-!
# The stage of the instance variables

What the hand-written key-value coding does with the list that `class_copyIvarList`
returns.  The list holds the variables of the object's own class only, and its owner
has to free it.  Proved here:

* `ivarStage_iff_notInherited`: the setter stores in the variable that the key names
  exactly when that variable is not an inherited one;
* `freedOnce_iff`: exactly when each of the two functions frees the list once.
-/

namespace BottomResearch.IvarList

open Foundation KeyValue KeyResolution

variable {V : Type}

/-! ## The variable that a key names -/

/-- `class_getInstanceVariable`, from the class at `level` upwards. -/
def findIvarFrom : Nat → List (List NSString) → NSString → Option Slot
  | _, [], _ => none
  | level, names :: levels, name =>
    match names.findIdx? fun keyName => keyName = name with
    | some i => some ⟨level, i⟩
    | none => findIvarFrom (level + 1) levels name

/-- The variable of a name, own or inherited. -/
def declared (c : ObjClass V) (name : NSString) : Option Slot := findIvarFrom 0 c.ivarNames name

/-- The variable that a key names: the first of `_<key>`, `_is<Key>`, `<key>`, `is<Key>`
that the object has. -/
def named (T : CaseTable) (c : ObjClass V) (key : NSString) : Option Slot :=
  (passNames key (upperFirst T key)).findSome? (declared c)

/-- What `zb_setValue:forKey:` has to do for a key without a setter. -/
structure IvarStage (T : CaseTable) (c : ObjClass V) (key : NSString) (value : Option V)
    (m : Machine V) : Prop where
  stored : c.accessInstanceVariablesDirectly = true → ∀ s, named T c key = some s →
    (zbSetValue T c value (some key) m).1 = .ok () ∧
      (zbSetValue T c value (some key) m).2.ivars = (fun t => if t = s then value else m.ivars t) ∧
      (zbSetValue T c value (some key) m).2.sent = m.sent
  undefined : c.accessInstanceVariablesDirectly = true → named T c key = none →
    (zbSetValue T c value (some key) m).2.ivars = (c.setValueForUndefinedKey value key m.ivars).1 ∧
      (zbSetValue T c value (some key) m).2.sent = m.sent ++ [.setValueForUndefinedKey value key]
  notDirect : c.accessInstanceVariablesDirectly = false →
    ∃ e, zbSetValue T c value (some key) m = (.error (.exception e), m)

/-- The variable that the key names is one of the object's own class. -/
def NotInherited (T : CaseTable) (c : ObjClass V) (key : NSString) : Prop :=
  ∀ s, named T c key = some s → s.level = 0

theorem le_level_of_findIvarFrom {level : Nat} {levels : List (List NSString)} {name : NSString}
    {s : Slot} (h : findIvarFrom level levels name = some s) : level ≤ s.level := by
  induction levels generalizing level with
  | nil => cases h
  | cons names levels ih =>
    rw [findIvarFrom] at h
    split at h
    · cases h
      exact Nat.le_refl _
    · exact Nat.le_of_succ_le (ih h)

/-- A pass finds the names that the object's own class declares. -/
theorem declared_of_pass {c : ObjClass V} {name : NSString} {i : Nat} (h : c.pass name = some i) :
    declared c name = some ⟨0, i⟩ := by
  unfold ObjClass.pass ObjClass.ownNames at h
  unfold declared
  cases hn : c.ivarNames with
  | nil =>
    rw [hn] at h
    cases h
  | cons names levels =>
    rw [hn] at h
    rw [findIvarFrom, show (names.findIdx? fun keyName => keyName = name) = some i from h]

/-- A pass finds no other variables. -/
theorem pass_of_declared {c : ObjClass V} {name : NSString} {s : Slot}
    (h : declared c name = some s) (hs : s.level = 0) : c.pass name = some s.index := by
  unfold declared at h
  unfold ObjClass.pass ObjClass.ownNames
  cases hn : c.ivarNames with
  | nil =>
    rw [hn] at h
    cases h
  | cons names levels =>
    rw [hn, findIvarFrom] at h
    split at h
    · next i hi =>
      cases h
      exact hi
    · have hle := le_level_of_findIvarFrom h
      omega

theorem pass_of_not_declared {c : ObjClass V} {name : NSString} (h : declared c name = none) :
    c.pass name = none := by
  cases hp : c.pass name with
  | none => rfl
  | some i =>
    rw [declared_of_pass hp] at h
    cases h

/-- The passes find the variable that the key names when it is not inherited. -/
theorem passes_of_named {c : ObjClass V} {names : List NSString} {s : Slot}
    (h : names.findSome? (declared c) = some s) (hs : s.level = 0) :
    names.findSome? c.pass = some s.index := by
  induction names with
  | nil => cases h
  | cons name names ih =>
    rw [List.findSome?_cons] at h ⊢
    cases hd : declared c name with
    | none =>
      rw [hd] at h
      rw [pass_of_not_declared hd]
      exact ih h
    | some t =>
      rw [hd] at h
      cases h
      rw [pass_of_declared hd hs]

theorem passes_of_not_named {c : ObjClass V} {names : List NSString}
    (h : names.findSome? (declared c) = none) : names.findSome? c.pass = none := by
  rw [List.findSome?_eq_none_iff] at h ⊢
  exact fun name hm => pass_of_not_declared (h name hm)

/-! ## Storing -/

section Stage

variable {T : CaseTable} {c : ObjClass V} {key : NSString}

theorem named_eq (hkey : ∀ u ∈ key, isAsciiLower u = true) :
    named T c key = (passNames key (capitalizedString T key)).findSome? (declared c) := by
  rw [capitalizedString_of_lower T hkey]
  rfl

theorem ivarStage_of_notInherited (hkey : ∀ u ∈ key, isAsciiLower u = true)
    (hno : (setterNames (capitalizedString T key)).find? c.respondsToSelector = none)
    (h : c.accessInstanceVariablesDirectly = true → NotInherited T c key) (value : Option V)
    (m : Machine V) : IvarStage T c key value m where
  stored hdirect s hs := by
    have hlevel := h hdirect s hs
    rw [named_eq hkey] at hs
    obtain ⟨level, i⟩ := s
    cases hlevel
    rw [zbSetValue_ivar hdirect hno (passes_of_named hs rfl)]
    exact ⟨rfl, rfl, rfl⟩
  undefined hdirect hs := by
    rw [named_eq hkey] at hs
    rw [zbSetValue_undefined hdirect hno (passes_of_not_named hs),
      andThen_sent _ fun _ m => free_sent m, sendSetUndefined_sent]
    refine ⟨?_, rfl⟩
    rw [andThen_ivars _ fun _ m => free_ivars m]
    rfl
  notDirect hdirect := by
    rw [zbSetValue_some, hno]
    dsimp only
    rw [if_pos hdirect]
    exact ⟨_, rfl⟩

/-- An inherited variable is not stored in: a value sent to a blank object shows it. -/
theorem notInherited_of_ivarStage [Inhabited V]
    (hno : (setterNames (capitalizedString T key)).find? c.respondsToSelector = none)
    (hdirect : c.accessInstanceVariablesDirectly = true)
    (h : IvarStage T c key (some default) blank) : NotInherited T c key := by
  intro s hs
  obtain ⟨_, hivars, hsent⟩ := h.stored hdirect s hs
  cases hi : c.ivarFor T key with
  | none =>
    rw [zbSetValue_undefined hdirect hno hi, andThen_sent _ fun _ m => free_sent m,
      sendSetUndefined_sent] at hsent
    cases hsent
  | some i =>
    rw [zbSetValue_ivar hdirect hno hi] at hivars
    have hslot := congrFun hivars s
    by_cases e : s = ⟨0, i⟩
    · rw [e]
    · dsimp only at hslot
      rw [if_neg e, if_pos rfl] at hslot
      cases hslot

/-- The setter does what the stage of the instance variables asks exactly when the
variable that the key names is not inherited, or the stage is not allowed. -/
theorem ivarStage_iff_notInherited [Inhabited V] (T : CaseTable) (c : ObjClass V) (key : NSString)
    (hkey : ∀ u ∈ key, isAsciiLower u = true)
    (hno : (setterNames (upperFirst T key)).find? c.respondsToSelector = none) :
    (∀ value m, IvarStage T c key value m) ↔
      (c.accessInstanceVariablesDirectly = true → NotInherited T c key) := by
  rw [← capitalizedString_of_lower T hkey] at hno
  constructor
  · exact fun hall hdirect => notInherited_of_ivarStage hno hdirect (hall _ _)
  · exact fun h value m => ivarStage_of_notInherited hkey hno h value m

end Stage

/-- The variables of `nameClass` are its own. -/
theorem ivarStage_iff_notInherited_name :
    (∀ value m, IvarStage asciiTable nameClass (lit "name") value m) ↔
      (nameClass.accessInstanceVariablesDirectly = true →
        NotInherited asciiTable nameClass (lit "name")) :=
  ivarStage_iff_notInherited asciiTable nameClass (lit "name") (List.all_eq_true.mp rfl) rfl

/-- A class without variables below one that declares `_name`. -/
def inheritsName : ObjClass Nat := { responding none with ivarNames := [[], [lit "_name"]] }

/-- The inherited variable is not stored in; the hook is sent instead. -/
theorem inherited_not_stored : ¬ ∀ value m, IvarStage asciiTable inheritsName (lit "name") value m := by
  intro hall
  obtain ⟨_, _, hsent⟩ := (hall (some 7) blank).stored rfl ⟨1, 0⟩ (by decide)
  revert hsent
  decide

/-! ## Freeing -/

/-- A call copies a list: no accessor is found under `names`, and the class has
variables (the list of a class without variables is `NULL`). -/
def Copies (c : ObjClass V) (key : Option NSString) (names : NSString → List NSString) : Prop :=
  ∃ k, key = some k ∧ (names k).find? c.respondsToSelector = none ∧
    c.accessInstanceVariablesDirectly = true ∧ c.ownNames ≠ []

/-- Nothing is read or freed after it was freed, and a list that was copied is freed. -/
def FreedOnce {α : Type} (copied : Prop) (r : Result V α) : Prop :=
  r.1 ≠ .error .badAccess ∧ (copied → r.2.list = .freed)

/-- The setter finds a variable, or its hook returns. -/
def SetterFrees (T : CaseTable) (c : ObjClass V) (value : Option V) (k : NSString)
    (ivars : Ivars V) : Prop :=
  c.found (passNames k (capitalizedString T k)) ≠ 0 ∨
    ∃ u, (c.setValueForUndefinedKey value k ivars).2 = .ok u

/-- The getter finds nothing and its hook returns, or one of its passes finds a
variable and the hook raises. -/
def GetterFrees (T : CaseTable) (c : ObjClass V) (k : NSString) (ivars : Ivars V) : Prop :=
  (c.found (passNames k (capitalizedString T k)) = 0 ∧
      ∃ answer, (c.valueForUndefinedKey k ivars).2 = .ok answer) ∨
    (c.found (passNames k (capitalizedString T k)) = 1 ∧
      ∃ e, (c.valueForUndefinedKey k ivars).2 = .error e)

section Freeing

variable {T : CaseTable} {c : ObjClass V} {k : NSString}

theorem found_of_no_names (h : c.ownNames = []) (names : List NSString) : c.found names = 0 := by
  rw [found_eq_zero_iff, List.findSome?_eq_none_iff]
  intro name _
  rw [ObjClass.pass, h]
  rfl

theorem copyIvarList_list (h : c.ownNames ≠ []) (m : Machine V) :
    (copyIvarList c m).list = .allocated := if_neg h

theorem copyIvarList_null (h : c.ownNames = []) (m : Machine V) :
    (copyIvarList c m).list = .null := if_pos h

/-- An exception is no list access. -/
theorem mapError_exception {α : Type} (x : Except Exception α) :
    x.mapError Failure.exception ≠ .error .badAccess ∧
      ((∃ a, x.mapError Failure.exception = .ok a) ↔ ∃ a, x = .ok a) ∧
      ((∃ e, x.mapError Failure.exception = .error e) ↔ ∃ e, x = .error e) := by
  cases x <;> simp

theorem performSelector_ne_badAccess (sel : NSString) (object : Option V) (m : Machine V) :
    (performSelector c sel object m).1 ≠ .error .badAccess := by
  unfold performSelector
  cases c.method sel with
  | none => simp
  | some f => exact (mapError_exception _).1

theorem andThen_ok_ne_badAccess {α β : Type} {r : Result V α} (hr : r.1 ≠ .error .badAccess) (b : β) :
    (andThen r fun _ m => (.ok b, m)).1 ≠ .error .badAccess := by
  rcases r with ⟨e | a, m⟩
  · intro h
    cases h
    exact hr rfl
  · intro h
    cases h

/-- The end of the setter, in the form of the end of the getter. -/
theorem andThen_free (r : Result V Unit) :
    (andThen r fun _ m => free m) = andThen r fun _ m => andThen (free m) fun _ m => (.ok (), m) := by
  congr 1
  funext _ m
  unfold free
  cases m.list <;> rfl

/-- After the hook, whose own failures are exceptions, the list is freed once if the hook
returned and had it allocated, or raised and had it freed already. -/
theorem freedOnce_hook {α β : Type} {r : Result V α} (hr : r.1 ≠ .error .badAccess) (b : β)
    (copied : Prop) (hcopied : copied) :
    FreedOnce copied (andThen r fun _ m => andThen (free m) fun _ m => (.ok b, m)) ↔
      ((∃ a, r.1 = .ok a) ∧ r.2.list = .allocated) ∨ ((∃ e, r.1 = .error e) ∧ r.2.list = .freed) := by
  unfold FreedOnce
  rcases r with ⟨e | a, m⟩
  · have hne : e ≠ .badAccess := fun h => hr (by rw [h])
    simp [andThen, hne, hcopied]
  · cases hm : m.list <;> simp [andThen, free, hm, hcopied]

/-- With no list copied only a bad access matters. -/
theorem freedOnce_of_not_copied {α : Type} {copied : Prop} (h : ¬ copied) {r : Result V α}
    (hr : r.1 ≠ .error .badAccess) : FreedOnce copied r :=
  ⟨hr, fun hc => absurd hc h⟩

/-- A `NULL` list may be freed. -/
theorem hook_null {α β : Type} {r : Result V α} (hr : r.1 ≠ .error .badAccess)
    (hlist : r.2.list = .null) (b : β) :
    (andThen r fun _ m => andThen (free m) fun _ m => (.ok b, m)).1 ≠ .error .badAccess := by
  rcases r with ⟨e | a, m⟩
  · have hne : e ≠ .badAccess := fun h => hr (by rw [h])
    simp [andThen, hne]
  · have hm : m.list = .null := hlist
    simp [andThen, free, hm]

/-- Without an accessor only an empty list is not copied. -/
theorem ownNames_of_not_copies {names : NSString → List NSString} (h : ¬ Copies c (some k) names)
    (hno : (names k).find? c.respondsToSelector = none)
    (hdirect : c.accessInstanceVariablesDirectly = true) : c.ownNames = [] := by
  by_cases hown : c.ownNames = []
  · exact hown
  · exact absurd ⟨k, rfl, hno, hdirect, hown⟩ h

/-- A call that copies no list touches none. -/
theorem zbSetValue_ne_badAccess
    (h : ¬ Copies c (some k) fun k => setterNames (capitalizedString T k)) (value : Option V)
    (m : Machine V) : (zbSetValue T c value (some k) m).1 ≠ .error .badAccess := by
  obtain ⟨hne, _⟩ := mapError_exception (c.setValueForUndefinedKey value k m.ivars).2
  rw [zbSetValue_some]
  cases hf : (setterNames (capitalizedString T k)).find? c.respondsToSelector with
  | some sel => exact andThen_ok_ne_badAccess (performSelector_ne_badAccess sel value m) ()
  | none =>
    dsimp only
    by_cases hdirect : c.accessInstanceVariablesDirectly = false
    · simp [hdirect]
    · have hown := ownNames_of_not_copies h hf (by simpa using hdirect)
      rw [if_neg hdirect, setPasses_none (found_eq_zero_iff.mp (found_of_no_names hown _)) value,
        andThen_free]
      exact hook_null hne (copyIvarList_null hown m) ()

theorem zbValueForKey_ne_badAccess
    (h : ¬ Copies c (some k) fun k => getterNames k (capitalizedString T k)) (m : Machine V) :
    (zbValueForKey T c (some k) m).1 ≠ .error .badAccess := by
  obtain ⟨hne, _⟩ := mapError_exception (c.valueForUndefinedKey k m.ivars).2
  rw [zbValueForKey_some]
  cases hf : (getterNames k (capitalizedString T k)).find? c.respondsToSelector with
  | some sel => exact performSelector_ne_badAccess sel none m
  | none =>
    dsimp only
    by_cases hdirect : c.accessInstanceVariablesDirectly = false
    · simp [hdirect]
    · have hown := ownNames_of_not_copies h hf (by simpa using hdirect)
      rw [if_neg hdirect, getPasses_none (found_of_no_names hown _)]
      exact hook_null hne (copyIvarList_null hown m) none

/-- **The setter.** -/
theorem freedOnce_setter (T : CaseTable) (c : ObjClass V) (value : Option V) (k : NSString)
    (m : Machine V) :
    FreedOnce (Copies c (some k) fun k => setterNames (capitalizedString T k))
        (zbSetValue T c value (some k) m) ↔
      (Copies c (some k) (fun k => setterNames (capitalizedString T k)) →
        SetterFrees T c value k m.ivars) := by
  by_cases hcopies : Copies c (some k) fun k => setterNames (capitalizedString T k)
  · simp only [hcopies, true_implies]
    obtain ⟨_, ⟨⟩, hno, hdirect, hown⟩ := id hcopies
    unfold SetterFrees
    cases hi : c.ivarFor T k with
    | some i =>
      have hfound := found_ne_zero hi
      rw [zbSetValue_ivar hdirect hno hi]
      simp [FreedOnce, hfound]
    | none =>
      obtain ⟨hne, hok, _⟩ := mapError_exception (c.setValueForUndefinedKey value k m.ivars).2
      have hfound : c.found (passNames k (capitalizedString T k)) = 0 := found_eq_zero_iff.mpr hi
      have hlist : (sendSetUndefined c value k (copyIvarList c m)).2.list = .allocated :=
        copyIvarList_list hown m
      rw [zbSetValue_undefined hdirect hno hi, andThen_free, freedOnce_hook hne () True trivial,
        hlist]
      show _ ↔ c.found _ ≠ 0 ∨ _
      simp only [hfound, ne_eq, not_true_eq_false, false_or, and_true, reduceCtorEq, and_false,
        or_false]
      exact hok
  · exact ⟨fun _ h => absurd h hcopies,
      fun _ => freedOnce_of_not_copied hcopies (zbSetValue_ne_badAccess hcopies value m)⟩

/-- **The getter.** -/
theorem freedOnce_getter (T : CaseTable) (c : ObjClass V) (k : NSString) (m : Machine V) :
    FreedOnce (Copies c (some k) fun k => getterNames k (capitalizedString T k))
        (zbValueForKey T c (some k) m) ↔
      (Copies c (some k) (fun k => getterNames k (capitalizedString T k)) →
        GetterFrees T c k m.ivars) := by
  by_cases hcopies : Copies c (some k) fun k => getterNames k (capitalizedString T k)
  · obtain ⟨hne, hok, herr⟩ := mapError_exception (c.valueForUndefinedKey k m.ivars).2
    simp only [hcopies, true_implies]
    obtain ⟨_, ⟨⟩, hno, hdirect, hown⟩ := id hcopies
    rw [zbValueForKey_some, hno]
    dsimp only
    rw [if_neg (by simp [hdirect])]
    unfold GetterFrees
    by_cases hz : c.found (passNames k (capitalizedString T k)) = 0
    · have hlist : (sendValueForUndefined c k (copyIvarList c m)).2.list = .allocated :=
        copyIvarList_list hown m
      rw [getPasses_none hz]
      show FreedOnce True (andThen (sendValueForUndefined c k (copyIvarList c m)) _) ↔ _
      rw [freedOnce_hook hne none True trivial, hlist]
      simp only [hz, true_and, and_true, reduceCtorEq, and_false, or_false, Nat.zero_ne_one, false_and]
      exact hok
    · rw [getPasses_found hz (copyIvarList_list hown m)]
      by_cases hone : c.found (passNames k (capitalizedString T k)) = 1
      · rw [if_pos hone]
        show FreedOnce True
          (andThen (sendValueForUndefined c k { copyIvarList c m with list := .freed }) _) ↔ _
        have hlist : (sendValueForUndefined c k { copyIvarList c m with list := .freed }).2.list =
          .freed := rfl
        rw [freedOnce_hook hne none True trivial, hlist]
        simp only [hone, Nat.one_ne_zero, true_and, and_true, reduceCtorEq, and_false, false_or,
          false_and]
        exact herr
      · rw [if_neg hone]
        simp [FreedOnce, andThen, hz, hone]
  · exact ⟨fun _ h => absurd h hcopies,
      fun _ => freedOnce_of_not_copied hcopies (zbValueForKey_ne_badAccess hcopies m)⟩

end Freeing

/-- Exactly when each of the two functions frees the list it copied once, and does not
touch it afterwards. -/
theorem freedOnce_iff (T : CaseTable) (c : ObjClass V) (value : Option V) (key : Option NSString)
    (m : Machine V) :
    (FreedOnce (Copies c key fun k => setterNames (capitalizedString T k))
        (zbSetValue T c value key m) ↔
      ∀ k, key = some k → Copies c key (fun k => setterNames (capitalizedString T k)) →
        SetterFrees T c value k m.ivars) ∧
    (FreedOnce (Copies c key fun k => getterNames k (capitalizedString T k))
        (zbValueForKey T c key m) ↔
      ∀ k, key = some k → Copies c key (fun k => getterNames k (capitalizedString T k)) →
        GetterFrees T c k m.ivars) := by
  cases key with
  | none =>
    have hno : ∀ names, ¬ Copies c none names := by
      rintro names ⟨k, hk, _⟩
      cases hk
    constructor
    · refine ⟨fun _ k hk => (by cases hk), fun _ => freedOnce_of_not_copied (hno _) ?_⟩
      intro h
      cases h
    · refine ⟨fun _ k hk => (by cases hk), fun _ => freedOnce_of_not_copied (hno _) ?_⟩
      intro h
      cases h
  | some k =>
    constructor
    · rw [freedOnce_setter]
      exact ⟨fun h k' hk => by cases hk; exact h, fun h => h k rfl⟩
    · rw [freedOnce_getter]
      exact ⟨fun h k' hk => by cases hk; exact h, fun h => h k rfl⟩

/-- The getter of `name` frees the list of `nameClass` twice. -/
theorem name_list_freed_twice :
    ¬ FreedOnce (Copies nameClass (some (lit "name")) fun k =>
        getterNames k (capitalizedString asciiTable k))
      (zbValueForKey asciiTable nameClass (some (lit "name")) blank) :=
  fun h => h.1 (by rfl)

end BottomResearch.IvarList
