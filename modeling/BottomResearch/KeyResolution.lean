import BottomResearch.KeyValue

/-!
# What the hand-written key-value coding resolves to

Proved here:

* `resolves_iff_keyOk`: the accessors are searched under the key with its first
  character upper-cased, and a missing key does nothing, for one class exactly when
  its searches agree (`SearchesAgree`), and for every class exactly when the key is
  `nil`, or is not empty and `capitalizedString` changes no other character of it;
* `stored_after_sets`: a key without accessors is stored in the variable that the
  getter looks for, and further sets to other variables leave it there;
* `setThenGet_never`: the getter never returns that value.
-/

namespace BottomResearch.KeyResolution

open Foundation KeyValue

variable {V : Type}

/-! ## Accessors -/

/-- The accessors of `key` are searched under the key with only its first
character upper-cased; without a key nothing happens. -/
structure Resolves (T : CaseTable) (c : ObjClass V) (key : Option NSString) : Prop where
  set_first : ∀ k value m sel, key = some k → k ≠ [] →
    (setterNames (upperFirst T k)).find? c.respondsToSelector = some sel →
    zbSetValue T c value key m = andThen (performSelector c sel value m) fun _ m => (.ok (), m)
  set_none : ∀ k value m, key = some k → k ≠ [] →
    (setterNames (upperFirst T k)).find? c.respondsToSelector = none →
    ∃ new, (zbSetValue T c value key m).2.sent = m.sent ++ new ∧
      ∀ sel object, .performSelector sel object ∉ new
  get_first : ∀ k m sel, key = some k → k ≠ [] →
    (getterNames k (upperFirst T k)).find? c.respondsToSelector = some sel →
    zbValueForKey T c key m = performSelector c sel none m
  missing : key = none ∨ key = some [] → ∀ value m,
    (zbSetValue T c value key m).2 = m ∧ (zbValueForKey T c key m).2 = m

/-- The searches under `capitalizedString` find what the searches under the key with
only its first character upper-cased find.  The empty key must find no accessor and
no way to the instance variables. -/
def SearchesAgree (T : CaseTable) (c : ObjClass V) : Option NSString → Prop
  | none => True
  | some [] =>
    (setterNames []).find? c.respondsToSelector = none ∧
      (getterNames [] []).find? c.respondsToSelector = none ∧
      c.accessInstanceVariablesDirectly = false
  | some k =>
    (setterNames (capitalizedString T k)).find? c.respondsToSelector =
        (setterNames (upperFirst T k)).find? c.respondsToSelector ∧
      ((getterNames k (upperFirst T k)).find? c.respondsToSelector = none ∨
        (getterNames k (capitalizedString T k)).find? c.respondsToSelector =
          (getterNames k (upperFirst T k)).find? c.respondsToSelector)

/-- The key is `nil`, or not empty and capitalized by its first character alone. -/
def KeyOk (T : CaseTable) : Option NSString → Prop
  | none => True
  | some k => k ≠ [] ∧ capitalizedString T k = upperFirst T k

theorem zbSetValue_some (T : CaseTable) (c : ObjClass V) (value : Option V) (k : NSString)
    (m : Machine V) :
    zbSetValue T c value (some k) m =
      match (setterNames (capitalizedString T k)).find? c.respondsToSelector with
      | some sel => andThen (performSelector c sel value m) fun _ m => (.ok (), m)
      | none =>
        if c.accessInstanceVariablesDirectly = false then
          (.error (.exception ⟨lit "NSUnkonwnKeyException", lit "setValue:forUndefineKey"⟩), m)
        else
          match setPasses c value (passNames k (capitalizedString T k)) (copyIvarList c m) with
          | some r => r
          | none => andThen (sendSetUndefined c value k (copyIvarList c m)) fun _ m => free m := by
  unfold zbSetValue
  rw [if_neg fun h => by cases h.1]
  rfl

theorem zbValueForKey_some (T : CaseTable) (c : ObjClass V) (k : NSString) (m : Machine V) :
    zbValueForKey T c (some k) m =
      match (getterNames k (capitalizedString T k)).find? c.respondsToSelector with
      | some sel => performSelector c sel none m
      | none =>
        if c.accessInstanceVariablesDirectly = false then
          (.error (.exception ⟨lit "NSUnkonwnKeyException", lit "valueForUndefinedKey:"⟩), m)
        else
          andThen (getPasses c (passNames k (capitalizedString T k)) (copyIvarList c m)) fun _ m =>
            andThen (sendValueForUndefined c k m) fun _ m =>
              andThen (free m) fun _ m => (.ok none, m) := by
  unfold zbValueForKey
  rw [if_neg fun h => by cases h.1]
  rfl

/-- The variable found is stored in, and the list is freed. -/
theorem zbSetValue_ivar {T : CaseTable} {c : ObjClass V} {k : NSString} {i : Nat}
    (hdirect : c.accessInstanceVariablesDirectly = true)
    (hno : (setterNames (capitalizedString T k)).find? c.respondsToSelector = none)
    (hi : c.ivarFor T k = some i) (value : Option V) (m : Machine V) :
    zbSetValue T c value (some k) m =
      (.ok (), ⟨fun s => if s = ⟨0, i⟩ then value else m.ivars s, m.sent, .freed⟩) := by
  have hfound := hi
  unfold ObjClass.ivarFor at hfound
  rw [zbSetValue_some, hno]
  dsimp only
  rw [if_neg (by simp [hdirect]),
    setPasses_eq c value _ (ivarFor_list hi m), hfound]
  rfl

/-- Where no variable is found the hook is sent, and the list is freed if it returns. -/
theorem zbSetValue_undefined {T : CaseTable} {c : ObjClass V} {k : NSString}
    (hdirect : c.accessInstanceVariablesDirectly = true)
    (hno : (setterNames (capitalizedString T k)).find? c.respondsToSelector = none)
    (hi : c.ivarFor T k = none) (value : Option V) (m : Machine V) :
    zbSetValue T c value (some k) m =
      andThen (sendSetUndefined c value k (copyIvarList c m)) fun _ m => free m := by
  rw [zbSetValue_some, hno]
  dsimp only
  rw [if_neg (by simp [hdirect]), setPasses_none hi]

/-- A setter that finds no accessor performs none. -/
theorem sent_of_no_setter {T : CaseTable} {c : ObjClass V} {k : NSString}
    (h : (setterNames (capitalizedString T k)).find? c.respondsToSelector = none)
    (value : Option V) (m : Machine V) :
    ∃ new, (zbSetValue T c value (some k) m).2.sent = m.sent ++ new ∧
      ∀ sel object, .performSelector sel object ∉ new := by
  cases hd : c.accessInstanceVariablesDirectly with
  | false =>
    rw [zbSetValue_some, h]
    dsimp only
    rw [if_pos hd]
    exact ⟨[], (List.append_nil _).symm, fun _ _ hm => by cases hm⟩
  | true =>
    cases hi : c.ivarFor T k with
    | some i =>
      rw [zbSetValue_ivar hd h hi]
      exact ⟨[], (List.append_nil _).symm, fun _ _ hm => by cases hm⟩
    | none =>
      rw [zbSetValue_undefined hd h hi, andThen_sent _ fun _ m => free_sent m,
        sendSetUndefined_sent]
      refine ⟨[.setValueForUndefinedKey value k], rfl, fun _ _ hm => ?_⟩
      cases List.mem_singleton.mp hm

/-- A getter that finds no accessor performs none. -/
theorem sent_of_no_getter {T : CaseTable} {c : ObjClass V} {k : NSString}
    (h : (getterNames k (capitalizedString T k)).find? c.respondsToSelector = none)
    (m : Machine V) :
    ∃ new, (zbValueForKey T c (some k) m).2.sent = m.sent ++ new ∧
      ∀ sel object, .performSelector sel object ∉ new := by
  rw [zbValueForKey_some, h]
  dsimp only
  split
  · exact ⟨[], (List.append_nil _).symm, fun _ _ hm => by cases hm⟩
  · have hpasses : (getPasses c (passNames k (capitalizedString T k)) (copyIvarList c m)).2.sent =
        m.sent := getPasses_sent c _ _
    rcases hp : getPasses c (passNames k (capitalizedString T k)) (copyIvarList c m) with ⟨e | a, m'⟩
    · rw [hp] at hpasses
      exact ⟨[], by rw [List.append_nil]; exact hpasses, fun _ _ hm => by cases hm⟩
    · rw [hp] at hpasses
      refine ⟨[.valueForUndefinedKey k], ?_, fun _ _ hm => ?_⟩
      · rw [← hpasses]
        show (andThen (sendValueForUndefined c k m') _).2.sent = _
        rw [andThen_sent, sendValueForUndefined_sent]
        intro _ m
        rw [andThen_sent _ fun _ _ => rfl, free_sent]
      · cases List.mem_singleton.mp hm

theorem sent_of_setter {T : CaseTable} {c : ObjClass V} {k sel : NSString}
    (h : (setterNames (capitalizedString T k)).find? c.respondsToSelector = some sel)
    (value : Option V) (m : Machine V) :
    (zbSetValue T c value (some k) m).2.sent = m.sent ++ [.performSelector sel value] := by
  rw [zbSetValue_some, h]
  dsimp only
  rw [andThen_sent _ fun _ _ => rfl, performSelector_sent]

theorem sent_of_getter {T : CaseTable} {c : ObjClass V} {k sel : NSString}
    (h : (getterNames k (capitalizedString T k)).find? c.respondsToSelector = some sel)
    (m : Machine V) :
    (zbValueForKey T c (some k) m).2.sent = m.sent ++ [.performSelector sel none] := by
  rw [zbValueForKey_some, h]
  exact performSelector_sent c sel none m

/-! ### One class -/

def blank : Machine V := ⟨fun _ => none, [], .null⟩

/-- Two performed selectors that leave one log are one selector. -/
theorem performed_inj {sel sel' : NSString} {object : Option V} {m : Machine V}
    (h : m.sent ++ [.performSelector sel object] = m.sent ++ [.performSelector sel' object]) :
    sel = sel' := by
  have he := List.append_cancel_left h
  cases he
  rfl

/-- A log that grew by a performed selector did not grow without one. -/
theorem performed_of_new {sel : NSString} {object : Option V} {m : Machine V} {new : List (Sent V)}
    (h : m.sent ++ [.performSelector sel object] = m.sent ++ new)
    (hno : ∀ sel object, .performSelector sel object ∉ new) : False := by
  rw [← List.append_cancel_left h] at hno
  exact hno sel object List.mem_cons_self

section OneClass

variable {T : CaseTable} {c : ObjClass V}

theorem setters_agree {k : NSString} (hk : k ≠ []) (h : Resolves T c (some k)) :
    (setterNames (capitalizedString T k)).find? c.respondsToSelector =
      (setterNames (upperFirst T k)).find? c.respondsToSelector := by
  cases hU : (setterNames (upperFirst T k)).find? c.respondsToSelector with
  | some sel =>
    have hset := congrArg (·.2.sent) (h.set_first k none blank sel rfl hk hU)
    rw [andThen_sent _ fun _ _ => rfl, performSelector_sent] at hset
    cases hC : (setterNames (capitalizedString T k)).find? c.respondsToSelector with
    | some sel' =>
      rw [sent_of_setter hC] at hset
      rw [performed_inj hset]
    | none =>
      obtain ⟨new, hnew, hno⟩ := sent_of_no_setter hC none (blank : Machine V)
      exact absurd hno fun hno => performed_of_new (hset.symm.trans hnew) hno
  | none =>
    obtain ⟨new, hnew, hno⟩ := h.set_none k none blank rfl hk hU
    cases hC : (setterNames (capitalizedString T k)).find? c.respondsToSelector with
    | some sel' =>
      rw [sent_of_setter hC] at hnew
      exact absurd hno fun hno => performed_of_new hnew hno
    | none => rfl

theorem getters_agree {k : NSString} (hk : k ≠ []) (h : Resolves T c (some k)) :
    (getterNames k (upperFirst T k)).find? c.respondsToSelector = none ∨
      (getterNames k (capitalizedString T k)).find? c.respondsToSelector =
        (getterNames k (upperFirst T k)).find? c.respondsToSelector := by
  cases hU : (getterNames k (upperFirst T k)).find? c.respondsToSelector with
  | none => exact Or.inl rfl
  | some sel =>
    have hget := congrArg (·.2.sent) (h.get_first k blank sel rfl hk hU)
    rw [performSelector_sent] at hget
    cases hC : (getterNames k (capitalizedString T k)).find? c.respondsToSelector with
    | some sel' =>
      rw [sent_of_getter hC] at hget
      exact Or.inr (by rw [performed_inj hget])
    | none =>
      obtain ⟨new, hnew, hno⟩ := sent_of_no_getter hC (blank : Machine V)
      exact absurd hno fun hno => performed_of_new (hget.symm.trans hnew) hno

/-- What a class must be for the empty key to do nothing. -/
theorem empty_of_resolves (h : Resolves T c (some [])) : SearchesAgree T c (some []) := by
  obtain ⟨hset, hget⟩ := h.missing (Or.inr rfl) none blank
  have hsetters : (setterNames []).find? c.respondsToSelector = none := by
    cases hs : (setterNames []).find? c.respondsToSelector with
    | none => rfl
    | some sel =>
      have hsent := congrArg Machine.sent hset
      rw [sent_of_setter hs] at hsent
      cases hsent
  refine ⟨hsetters, ?_, ?_⟩
  · cases hg : (getterNames [] []).find? c.respondsToSelector with
    | none => rfl
    | some sel =>
      have hsent := congrArg Machine.sent hget
      rw [sent_of_getter hg] at hsent
      cases hsent
  · cases hd : c.accessInstanceVariablesDirectly with
    | false => rfl
    | true =>
      have hfind : (setterNames (capitalizedString T [])).find? c.respondsToSelector = none :=
        hsetters
      cases hi : c.ivarFor T [] with
      | some i =>
        rw [zbSetValue_ivar hd hfind hi] at hset
        cases congrArg Machine.list hset
      | none =>
        rw [zbSetValue_undefined hd hfind hi] at hset
        have hsent := congrArg Machine.sent hset
        rw [andThen_sent _ fun _ m => free_sent m, sendSetUndefined_sent] at hsent
        cases hsent

/-- Without a key neither function does anything. -/
theorem resolves_none (T : CaseTable) (c : ObjClass V) : Resolves T c none := by
  refine ⟨?_, ?_, ?_, fun _ _ _ => ⟨rfl, rfl⟩⟩
  · rintro _ _ _ _ ⟨⟩
  · rintro _ _ _ ⟨⟩
  · rintro _ _ _ ⟨⟩

theorem resolves_of_empty (h : SearchesAgree T c (some [])) : Resolves T c (some []) := by
  obtain ⟨hset, hget, hdirect⟩ := h
  refine ⟨?_, ?_, ?_, fun _ value m => ?_⟩
  · rintro k _ _ _ ⟨⟩ hk
    exact absurd rfl hk
  · rintro k _ _ ⟨⟩ hk
    exact absurd rfl hk
  · rintro k _ _ ⟨⟩ hk
    exact absurd rfl hk
  · have hs : (setterNames (capitalizedString T [])).find? c.respondsToSelector = none := hset
    have hg : (getterNames [] (capitalizedString T [])).find? c.respondsToSelector = none := hget
    rw [zbSetValue_some, zbValueForKey_some, hs, hg]
    dsimp only
    rw [if_pos hdirect, if_pos hdirect]
    exact ⟨rfl, rfl⟩

/-- Where the searches agree each function performs what the search under the key with
its first character upper-cased finds. -/
theorem resolves_of_agree {k : NSString} (hk : k ≠ [])
    (hset : (setterNames (capitalizedString T k)).find? c.respondsToSelector =
      (setterNames (upperFirst T k)).find? c.respondsToSelector)
    (hget : (getterNames k (upperFirst T k)).find? c.respondsToSelector = none ∨
      (getterNames k (capitalizedString T k)).find? c.respondsToSelector =
        (getterNames k (upperFirst T k)).find? c.respondsToSelector) :
    Resolves T c (some k) := by
  refine ⟨?_, ?_, ?_, ?_⟩
  · rintro k value m sel ⟨⟩ _ hfind
    rw [zbSetValue_some, hset, hfind]
  · rintro k value m ⟨⟩ _ hfind
    exact sent_of_no_setter (hset.trans hfind) value m
  · rintro k m sel ⟨⟩ _ hfind
    rw [zbValueForKey_some]
    rcases hget with hnone | hsame
    · rw [hnone] at hfind
      cases hfind
    · rw [hsame, hfind]
  · rintro (e | e)
    · cases e
    · exact absurd (Option.some.inj e) hk

/-- One class resolves one key exactly when its searches agree. -/
theorem resolves_iff_searchesAgree (T : CaseTable) (c : ObjClass V) (key : Option NSString) :
    Resolves T c key ↔ SearchesAgree T c key := by
  match key with
  | none => exact ⟨fun _ => trivial, fun _ => resolves_none T c⟩
  | some [] => exact ⟨empty_of_resolves, resolves_of_empty⟩
  | some (a :: rest) =>
    have hk : a :: rest ≠ [] := List.cons_ne_nil a rest
    exact ⟨fun h => ⟨setters_agree hk h, getters_agree hk h⟩,
      fun ⟨hset, hget⟩ => resolves_of_agree hk hset hget⟩

end OneClass

/-! ### Every class -/

/-- A class that responds to `sel` only, with a method that does nothing. -/
def responding (sel : Option NSString) : ObjClass V where
  method s := if some s = sel then some fun _ ivars => (ivars, .ok none) else none
  accessInstanceVariablesDirectly := true
  ivarNames := []
  setValueForUndefinedKey _ _ ivars := (ivars, .ok ())
  valueForUndefinedKey _ ivars := (ivars, .ok none)

theorem responding_iff (sel : Option NSString) (s : NSString) :
    (responding sel : ObjClass V).respondsToSelector s = true ↔ some s = sel := by
  unfold responding ObjClass.respondsToSelector
  by_cases h : some s = sel
  · simp [h]
  · simp [h]

theorem set_ne_underscore (U W : NSString) :
    lit "set" ++ U ++ lit ":" ≠ lit "_set" ++ W ++ lit ":" := by
  intro h
  have hhead := congrArg List.head? h
  revert hhead
  simp [lit]

/-- Only `_set<Key>:` of the three names begins with an underscore. -/
theorem underscore_mem_setterNames {U W : NSString}
    (h : lit "_set" ++ W ++ lit ":" ∈ setterNames U) : U = W := by
  have hIs : lit "setIs" ++ U ++ lit ":" = lit "set" ++ (lit "Is" ++ U) ++ lit ":" := rfl
  unfold setterNames at h
  rw [hIs] at h
  rcases List.mem_cons.mp h with h | h
  · exact absurd h.symm (set_ne_underscore U W)
  · rcases List.mem_cons.mp h with h | h
    · exact (List.append_cancel_left (List.append_cancel_right h)).symm
    · exact absurd (List.mem_singleton.mp h).symm (set_ne_underscore _ W)

/-- The class that responds to `_set<Key>:` only tells the two capitalizations apart. -/
theorem capitalized_of_agree {T : CaseTable} {k : NSString}
    (h : (setterNames (capitalizedString T k)).find?
        (responding (some (lit "_set" ++ upperFirst T k ++ lit ":")) : ObjClass V).respondsToSelector =
      (setterNames (upperFirst T k)).find?
        (responding (some (lit "_set" ++ upperFirst T k ++ lit ":")) : ObjClass V).respondsToSelector) :
    capitalizedString T k = upperFirst T k := by
  have hne : ¬ (responding (some (lit "_set" ++ upperFirst T k ++ lit ":")) :
      ObjClass V).respondsToSelector (lit "set" ++ upperFirst T k ++ lit ":") = true := by
    rw [responding_iff, Option.some.injEq]
    exact set_ne_underscore _ _
  have hU : (setterNames (upperFirst T k)).find?
      (responding (some (lit "_set" ++ upperFirst T k ++ lit ":")) : ObjClass V).respondsToSelector =
        some (lit "_set" ++ upperFirst T k ++ lit ":") := by
    rw [setterNames, List.find?_cons_of_neg hne,
      List.find?_cons_of_pos ((responding_iff _ _).mpr rfl)]
  exact underscore_mem_setterNames (List.mem_of_find?_eq_some (h.trans hU))

/-- A key resolves for a class exactly when the searches agree there, and for every
class exactly when `capitalizedString` changes its first character alone. -/
theorem resolves_iff_keyOk (V : Type) (T : CaseTable) (key : Option NSString) :
    (∀ c : ObjClass V, Resolves T c key ↔ SearchesAgree T c key) ∧
      ((∀ c : ObjClass V, Resolves T c key) ↔ KeyOk T key) := by
  refine ⟨fun c => resolves_iff_searchesAgree T c key, ?_⟩
  simp only [resolves_iff_searchesAgree]
  match key with
  | none => exact ⟨fun _ => trivial, fun _ _ => trivial⟩
  | some [] =>
    constructor
    · intro h
      cases (h (responding none)).2.2
    · rintro ⟨hk, _⟩
      exact absurd rfl hk
  | some (a :: rest) =>
    constructor
    · exact fun h => ⟨List.cons_ne_nil a rest, capitalized_of_agree (V := V) (h _).1⟩
    · rintro ⟨_, hcap⟩ c
      exact ⟨by rw [hcap], Or.inr (by rw [hcap])⟩

/-- Keys of lower-case ASCII letters, as in the demos, resolve for every class. -/
theorem keyOk_of_lower (T : CaseTable) {k : NSString} (hk : k ≠ [])
    (h : ∀ c ∈ k, isAsciiLower c = true) : KeyOk T (some k) :=
  ⟨hk, capitalizedString_of_lower T h⟩

/-- `setFirstName:` is not found for the key `firstName`. -/
theorem firstName_not_resolved :
    ¬ Resolves asciiTable (responding (some (lit "setFirstName:")) : ObjClass Nat)
      (some (lit "firstName")) := by
  intro h
  have hset := h.set_first (lit "firstName") (some 7) blank (lit "setFirstName:") rfl (by decide)
    (by decide)
  have hsent := congrArg (fun r : Result Nat Unit => r.2.sent) hset
  revert hsent
  decide

/-! ## Instance variables -/

/-- No setter and no getter of the key exists. -/
def NoAccessor (T : CaseTable) (c : ObjClass V) (k : NSString) : Prop :=
  (setterNames (capitalizedString T k)).find? c.respondsToSelector = none ∧
    (getterNames k (capitalizedString T k)).find? c.respondsToSelector = none

/-- The machine after the calls `zb_setValue:forKey:`, one for each pair. -/
def afterSets (T : CaseTable) (c : ObjClass V) (sets : List (NSString × Option V)) (m : Machine V) :
    Machine V :=
  sets.foldl (fun m s => (zbSetValue T c s.2 (some s.1) m).2) m

/-- After the value was set, and after more sets, the getter returns it and does
not send `valueForUndefinedKey:`. -/
def SetThenGet (T : CaseTable) (c : ObjClass V) (k : NSString) (value : Option V)
    (more : List (NSString × Option V)) (m : Machine V) : Prop :=
  let m' := afterSets T c ((k, value) :: more) m
  (zbValueForKey T c (some k) m').1 = .ok value ∧
    .valueForUndefinedKey k ∉ (zbValueForKey T c (some k) m').2.sent.drop m'.sent.length

/-- Sets to other variables keep a variable. -/
theorem ivars_afterSets {T : CaseTable} {c : ObjClass V} {i : Nat}
    (hdirect : c.accessInstanceVariablesDirectly = true) (more : List (NSString × Option V))
    (hmore : ∀ s ∈ more, NoAccessor T c s.1 ∧ ∃ j, c.ivarFor T s.1 = some j ∧ j ≠ i)
    (m : Machine V) : (afterSets T c more m).ivars ⟨0, i⟩ = m.ivars ⟨0, i⟩ := by
  induction more generalizing m with
  | nil => rfl
  | cons s more ih =>
    obtain ⟨hno, j, hj, hne⟩ := hmore s List.mem_cons_self
    have hstep : afterSets T c (s :: more) m =
        afterSets T c more (zbSetValue T c s.2 (some s.1) m).2 := rfl
    rw [hstep, ih fun t ht => hmore t (List.mem_cons_of_mem s ht),
      zbSetValue_ivar hdirect hno.1 hj]
    have hslot : (⟨0, i⟩ : Slot) ≠ ⟨0, j⟩ := by
      intro e
      cases e
      exact hne rfl
    exact if_neg hslot

/-- The setter does its half: the value is where the getter looks for it. -/
theorem stored_after_sets {T : CaseTable} {c : ObjClass V} {k : NSString} {i : Nat}
    (hdirect : c.accessInstanceVariablesDirectly = true) (hno : NoAccessor T c k)
    (hi : c.ivarFor T k = some i) (value : Option V) (more : List (NSString × Option V))
    (hmore : ∀ s ∈ more, NoAccessor T c s.1 ∧ ∃ j, c.ivarFor T s.1 = some j ∧ j ≠ i)
    (m : Machine V) : (afterSets T c ((k, value) :: more) m).ivars ⟨0, i⟩ = value := by
  have hstep : afterSets T c ((k, value) :: more) m =
      afterSets T c more (zbSetValue T c value (some k) m).2 := rfl
  rw [hstep, ivars_afterSets hdirect more hmore, zbSetValue_ivar hdirect hno.1 hi]
  exact if_pos rfl

theorem andThen_ne_ok {α β : Type} {r : Result V α} {next : α → Machine V → Result V β} {b : β}
    (h : ∀ a, (next a r.2).1 ≠ .ok b) : (andThen r next).1 ≠ .ok b := by
  rcases r with ⟨e | a, m⟩
  · intro he
    cases he
  · exact h a

/-- A getter that finds the variable never returns: it sends the hook and frees
the list again. -/
theorem zbValueForKey_ne_ok {T : CaseTable} {c : ObjClass V} {k : NSString} {i : Nat}
    (hdirect : c.accessInstanceVariablesDirectly = true) (hno : NoAccessor T c k)
    (hi : c.ivarFor T k = some i) (m : Machine V) (answer : Option V) :
    (zbValueForKey T c (some k) m).1 ≠ .ok answer := by
  rw [zbValueForKey_some, hno.2]
  dsimp only
  rw [if_neg (by simp [hdirect]), getPasses_found (found_ne_zero hi) (ivarFor_list hi m)]
  split
  · refine andThen_ne_ok fun _ => andThen_ne_ok fun _ => ?_
    intro he
    cases he
  · intro he
    cases he

/-- The getter never returns what was set. -/
theorem setThenGet_never (T : CaseTable) (c : ObjClass V) (k : NSString) (i : Nat)
    (hdirect : c.accessInstanceVariablesDirectly = true) (hno : NoAccessor T c k)
    (hi : c.ivarFor T k = some i) (value : Option V) (more : List (NSString × Option V))
    (m : Machine V) : ¬ SetThenGet T c k value more m :=
  fun h => zbValueForKey_ne_ok hdirect hno hi _ value h.1

/-- A class with the variables `_name` and `age`, no accessors, and hooks that answer `nil`. -/
def nameClass : ObjClass Nat := { responding none with ivarNames := [[lit "_name", lit "age"]] }

theorem setThenGet_never_name :
    ¬ SetThenGet asciiTable nameClass (lit "name") (some 7) [(lit "age", some 3)] blank :=
  setThenGet_never asciiTable nameClass (lit "name") 0 rfl ⟨rfl, rfl⟩ (by decide) (some 7) _ blank

/-- The getter sends the hook and frees the list twice. -/
theorem get_name_fails : ¬ SetThenGet asciiTable nameClass (lit "name") (some 7) [] blank := by
  intro h
  have hfails : (zbValueForKey asciiTable nameClass (some (lit "name"))
      (afterSets asciiTable nameClass [(lit "name", some 7)] blank)).1 = .error .badAccess := rfl
  cases hfails.symm.trans h.1

end BottomResearch.KeyResolution
