import BottomResearch.KeyValue
import BottomResearch.Runs
import Mathlib.Logic.Function.Basic

/-!
# The container

The model of `Container.m`, an object that keeps a value for any key in a private
dictionary, by the two hooks for undefined keys.  The hooks are reached through the
documented key-value search only, and the accessors and the variable of the
dictionary itself are found by that search.  Proved here:

* `behavesAsMap_of_missed`: a run whose keys the search does not find is a run of a map;
* `missed_of_lower`: the search finds no other lower-case ASCII keys than `dic` and
  `isa`, if no further accessor has such a name.
-/

namespace BottomResearch.Container

open Foundation Runs

/-! ## Objects -/

/-- An object.  The mutable dictionaries are numbered. -/
inductive Object (A : Type)
  | dictionary (d : Nat)
  | other (a : A)
  deriving DecidableEq

inductive Failure
  | exception (e : KeyValue.Exception)
  /-- A message to a container whose class pointer was overwritten. -/
  | notContainer
  deriving DecidableEq

/-- A container and what its methods read and write. -/
structure State (A W : Type) where
  isa : Option (Object A)
  dic : Option (Object A)
  /-- The entries of each dictionary. -/
  entries : Nat → NSString → Option (Object A)
  /-- The number of the next dictionary. -/
  next : Nat
  /-- What only the methods of other classes use. -/
  world : W

/-- What a method does to the state, and what it answers. -/
abbrev Body (A W α : Type) := State A W → State A W × Except Failure α

/-- The code that is not the container's. -/
structure Surroundings (A W : Type) where
  table : CaseTable
  /-- The class `Container`. -/
  container : A
  /-- The accessors besides those of `dic`, such as the inherited ones. -/
  setter : NSString → Option (Option (Object A) → Body A W Unit)
  getter : NSString → Option (Body A W (Option (Object A)))
  /-- `setValue:forKey:` of an object that is no mutable dictionary. -/
  otherSetValue : A → Option (Object A) → NSString → Body A W Unit
  otherValueForKey : A → NSString → Body A W (Option (Object A))
  /-- `valueForKey:` of a dictionary for its own properties. -/
  dictionaryProperty : Nat → NSString → Body A W (Option (Object A))

variable {A W : Type}

section Model

variable (F : Surroundings A W)

/-! ## Dictionaries -/

/-- `[NSMutableDictionary dictionary]`, stored in `_dic`. -/
def State.newDictionary (s : State A W) : State A W :=
  { s with
    dic := some (.dictionary s.next)
    entries := Function.update s.entries s.next fun _ => none
    next := s.next + 1 }

/-- `[object setValue:value forKey:key]`; a dictionary removes the entry for `nil`. -/
def sendSetValue (object value : Option (Object A)) (key : NSString) : Body A W Unit := fun s =>
  match object with
  | none => (s, .ok ())
  | some (.dictionary d) =>
    ({ s with entries := Function.update s.entries d (Function.update (s.entries d) key value) },
      .ok ())
  | some (.other a) => F.otherSetValue a value key s

/-- `[object valueForKey:key]`; for a dictionary `@` stands before its own properties. -/
def sendValueForKey (object : Option (Object A)) (key : NSString) : Body A W (Option (Object A)) :=
  fun s =>
  match object with
  | none => (s, .ok none)
  | some (.dictionary d) =>
    if key.head? = some 64 then F.dictionaryProperty d (key.drop 1) s
    else (s, .ok (s.entries d key))
  | some (.other a) => F.otherValueForKey a key s

/-! ## The two hooks -/

def setValueForUndefinedKey (value : Option (Object A)) (key : Option NSString) : Body A W Unit :=
  fun s =>
  if key = none ∨ key = some [] then (s, .ok ())
  else
    let s := if s.dic.isNone then s.newDictionary else s
    sendSetValue F s.dic value (key.getD []) s

def valueForUndefinedKey (key : Option NSString) : Body A W (Option (Object A)) := fun s =>
  if key = none ∨ key = some [] then (s, .ok none)
  else sendValueForKey F s.dic (key.getD []) s

/-! ## The search -/

/-- The methods that the container has as setters: that of `dic`, and others. -/
def setter (sel : NSString) : Option (Option (Object A) → Body A W Unit) :=
  if sel = lit "setDic:" then some fun value s => ({ s with dic := value }, .ok ())
  else F.setter sel

def getter (sel : NSString) : Option (Body A W (Option (Object A))) :=
  if sel = lit "dic" then some fun s => (s, .ok s.dic)
  else F.getter sel

inductive Ivar
  | isa
  | dic

def ivarNamed (name : NSString) : Option Ivar :=
  if name = lit "isa" then some .isa
  else if name = lit "_dic" then some .dic
  else none

def findSetter (key : NSString) : Option (Option (Object A) → Body A W Unit) :=
  (setValueForKeyNames F.table key).findSome? (setter F)

def findGetter (key : NSString) : Option (Body A W (Option (Object A))) :=
  (valueForKeyNames F.table key).findSome? (getter F)

def findIvar (key : NSString) : Option Ivar := (ivarSearchNames F.table key).findSome? ivarNamed

/-- What `NSObject` does for `setValue:forKey:`; the class lets it use the variables. -/
def setValueForKey (value : Option (Object A)) (key : NSString) : Body A W Unit := fun s =>
  match findSetter F key with
  | some set => set value s
  | none =>
    match findIvar F key with
    | some .isa => ({ s with isa := value }, .ok ())
    | some .dic => ({ s with dic := value }, .ok ())
    | none => setValueForUndefinedKey F value (some key) s

/-- What `NSObject` does for `valueForKey:`. -/
def valueForKey (key : NSString) : Body A W (Option (Object A)) := fun s =>
  match findGetter F key with
  | some get => get s
  | none =>
    match findIvar F key with
    | some .isa => (s, .ok s.isa)
    | some .dic => (s, .ok s.dic)
    | none => valueForUndefinedKey F (some key) s

/-! ## Runs -/

inductive Call (A : Type)
  | setValueForKey (value : Option (Object A)) (key : NSString)
  | valueForKey (key : NSString)

def Call.key : Call A → NSString
  | .setValueForKey _ key => key
  | .valueForKey key => key

/-- The calls as messages to one container; a set answers nothing. -/
def container [DecidableEq A] : System (State A W) (Call A) (Except Failure (Option (Object A))) where
  step s call :=
    if s.isa ≠ some (.other F.container) then (s, .error .notContainer)
    else
      match call with
      | .setValueForKey value key =>
        ((setValueForKey F value key s).1, (setValueForKey F value key s).2.map fun _ => none)
      | .valueForKey key => valueForKey F key s

end Model

/-- The value of the latest set of a key. -/
def latest (calls : List (Call A)) (key : NSString) : Option (Object A) :=
  calls.foldl (fun latest call =>
    match call with
    | .setValueForKey value k => if key = k then value else latest
    | .valueForKey _ => latest) none

/-- What a map answers to a call. -/
def Call.answer (m : NSString → Option (Object A)) : Call A → Option (Object A)
  | .setValueForKey _ _ => none
  | .valueForKey key => m key

/-- Each call of the run answers as a map does, and none raises. -/
def BehavesAsMap [DecidableEq A] (F : Surroundings A W) (s : State A W) (calls : List (Call A)) :
    Prop :=
  AtEach (fun before call =>
    (container F).output ((container F).run s before) call = .ok (call.answer (latest before))) calls

/-- A new container. -/
structure New (F : Surroundings A W) (s : State A W) : Prop where
  isa : s.isa = some (.other F.container)
  dic : s.dic = none

/-- The search finds neither an accessor nor a variable for the key, and the dictionary,
once there is one, does not take a key to read for one of its own properties. -/
def Missed (F : Surroundings A W) (s : State A W) : Call A → Prop
  | .setValueForKey _ key => (findSetter F key).isNone ∧ (findIvar F key).isNone
  | .valueForKey key => (findGetter F key).isNone ∧ (findIvar F key).isNone ∧
      (key.head? = some 64 → s.dic = none)

/-! ## Keys that the search misses -/

/-- No accessor besides those of `dic` has one of the names that are searched for the key. -/
structure NoOtherAccessor (F : Surroundings A W) (key : NSString) : Prop where
  setter : ∀ sel ∈ setValueForKeyNames F.table key, F.setter sel = none
  getter : ∀ sel ∈ valueForKeyNames F.table key, F.getter sel = none

section Keys

variable {F : Surroundings A W} {key : NSString}

theorem findSetter_isNone (h : NoOtherAccessor F key) (hdic : upperFirst F.table key ≠ lit "Dic") :
    (findSetter F key).isNone := by
  rw [Option.isNone_iff_eq_none, findSetter, List.findSome?_eq_none_iff]
  intro sel hsel
  have hother := h.setter sel hsel
  have hne : sel ≠ lit "setDic:" := by
    have hsplit : lit "setDic:" = lit "set" ++ lit "Dic" ++ lit ":" := rfl
    rintro rfl
    simp only [setValueForKeyNames, List.mem_cons, List.not_mem_nil, or_false] at hsel
    rcases hsel with hsel | hsel
    · rw [hsplit] at hsel
      exact hdic (List.append_cancel_left (List.append_cancel_right hsel)).symm
    · simp [lit] at hsel
  unfold setter
  rw [if_neg hne, hother]

theorem findGetter_isNone (h : NoOtherAccessor F key) (hdic : key ≠ lit "dic") :
    (findGetter F key).isNone := by
  rw [Option.isNone_iff_eq_none, findGetter, List.findSome?_eq_none_iff]
  intro sel hsel
  have hother := h.getter sel hsel
  have hne : sel ≠ lit "dic" := by
    rintro rfl
    simp only [valueForKeyNames, List.mem_cons, List.not_mem_nil, or_false] at hsel
    rcases hsel with hsel | hsel | hsel | hsel
    · simp [lit] at hsel
    · exact hdic hsel.symm
    · simp [lit] at hsel
    · simp [lit] at hsel
  unfold getter
  rw [if_neg hne, hother]

theorem findIvar_isNone (hdic : key ≠ lit "dic") (hvar : key ≠ lit "_dic") (hisa : key ≠ lit "isa")
    (ha : upperFirst F.table key ≠ lit "a") : (findIvar F key).isNone := by
  rw [Option.isNone_iff_eq_none, findIvar, List.findSome?_eq_none_iff]
  intro name hname
  simp only [ivarSearchNames, List.mem_cons, List.not_mem_nil, or_false] at hname
  have hne : name ≠ lit "isa" := by
    have hsplit : lit "isa" = lit "is" ++ lit "a" := rfl
    rintro rfl
    rcases hname with hname | hname | hname | hname
    · simp [lit] at hname
    · simp [lit] at hname
    · exact hisa hname.symm
    · rw [hsplit] at hname
      exact ha (List.append_cancel_left hname).symm
  have hne' : name ≠ lit "_dic" := by
    have hsplit : lit "_dic" = lit "_" ++ lit "dic" := rfl
    rintro rfl
    rcases hname with hname | hname | hname | hname
    · rw [hsplit] at hname
      exact hdic (List.append_cancel_left hname).symm
    · simp [lit] at hname
    · exact hvar hname.symm
    · simp [lit] at hname
  unfold ivarNamed
  rw [if_neg hne, if_neg hne']

theorem upperFirst_ne_Dic (T : CaseTable) (hkey : ∀ u ∈ key, isAsciiLower u = true)
    (hdic : key ≠ lit "dic") : upperFirst T key ≠ lit "Dic" := by
  cases key with
  | nil => exact List.cons_ne_nil _ _ ∘ Eq.symm
  | cons c rest =>
    rw [upperFirst_of_lower T (hkey c List.mem_cons_self)]
    intro h
    obtain ⟨hc, hrest⟩ := List.cons.inj h
    have hd : c = 100 := by
      rw [show c = c - 32 + 32 by simp, hc]
      rfl
    rw [hd, hrest] at hdic
    exact hdic rfl

theorem upperFirst_ne_a (T : CaseTable) (hkey : ∀ u ∈ key, isAsciiLower u = true) :
    upperFirst T key ≠ lit "a" := by
  cases key with
  | nil => exact List.cons_ne_nil _ _ ∘ Eq.symm
  | cons c rest =>
    have hlower := hkey c List.mem_cons_self
    rw [upperFirst_of_lower T hlower]
    intro h
    have hc : c = 129 := by
      rw [show c = c - 32 + 32 by simp, (List.cons.inj h).1]
      rfl
    rw [hc] at hlower
    revert hlower
    decide

/-- The search misses the lower-case ASCII keys that name neither the variables of the
container nor another accessor. -/
theorem missed_of_lower {call : Call A} (hkey : ∀ u ∈ call.key, isAsciiLower u = true)
    (hother : NoOtherAccessor F call.key) (hdic : call.key ≠ lit "dic")
    (hisa : call.key ≠ lit "isa") (s : State A W) : Missed F s call := by
  have hvar : call.key ≠ lit "_dic" := by
    intro h
    have hu := hkey 95 (by rw [h]; exact List.mem_cons_self)
    revert hu
    decide
  have hat : call.key.head? ≠ some 64 := by
    intro h
    have hu := hkey 64 (List.mem_of_mem_head? h)
    revert hu
    decide
  have hIvar := findIvar_isNone hdic hvar hisa (upperFirst_ne_a F.table hkey)
  cases call with
  | setValueForKey value key =>
    exact ⟨findSetter_isNone hother (upperFirst_ne_Dic F.table hkey hdic), hIvar⟩
  | valueForKey key =>
    exact ⟨findGetter_isNone hother hdic, hIvar, fun h => absurd h hat⟩

end Keys

/-! ## The stored map -/

/-- The dictionary of the container holds the map `m`. -/
structure Stores (F : Surroundings A W) (s : State A W) (m : NSString → Option (Object A)) : Prop where
  isa : s.isa = some (.other F.container)
  entries : (s.dic = none ∧ m = fun _ => none) ∨ ∃ d, s.dic = some (.dictionary d) ∧ s.entries d = m

/-- What a call does to a map. -/
def Call.store (m : NSString → Option (Object A)) : Call A → NSString → Option (Object A)
  | .setValueForKey value key => Function.update m key value
  | .valueForKey _ => m

theorem latest_snoc (calls : List (Call A)) (call : Call A) :
    latest (calls ++ [call]) = call.store (latest calls) := by
  funext key
  unfold latest
  rw [List.foldl_append]
  cases call with
  | setValueForKey value k => simp [Call.store, Function.update_apply]
  | valueForKey k => rfl

section Steps

variable {F : Surroundings A W} {s : State A W} {m : NSString → Option (Object A)}

theorem New.stores (h : New F s) : Stores F s (latest []) := ⟨h.isa, Or.inl ⟨h.dic, rfl⟩⟩

theorem newDictionary_stores (h : Stores F s m) (hdic : s.dic = none) :
    Stores F s.newDictionary m := by
  have hm : m = fun _ => none := by
    rcases h.entries with ⟨_, hm⟩ | ⟨d, hd, _⟩
    · exact hm
    · rw [hdic] at hd
      cases hd
  refine ⟨h.isa, Or.inr ⟨s.next, rfl, ?_⟩⟩
  rw [hm]
  exact Function.update_self _ _ _

theorem sendSetValue_stores {d : Nat} (h : Stores F s m) (hdic : s.dic = some (.dictionary d))
    (value : Option (Object A)) (key : NSString) :
    (sendSetValue F s.dic value key s).2 = .ok () ∧
      Stores F (sendSetValue F s.dic value key s).1 (Function.update m key value) := by
  have hm : s.entries d = m := by
    rcases h.entries with ⟨hn, _⟩ | ⟨d', hd, hm⟩
    · rw [hdic] at hn
      cases hn
    · rw [hdic] at hd
      cases hd
      exact hm
  rw [hdic]
  refine ⟨rfl, h.isa, Or.inr ⟨d, hdic, ?_⟩⟩
  rw [← hm]
  exact Function.update_self _ _ _

/-- The first hook enters the value into the map. -/
theorem setValueForUndefinedKey_stores {key : NSString} (hkey : key ≠ []) (h : Stores F s m)
    (value : Option (Object A)) :
    (setValueForUndefinedKey F value (some key) s).2 = .ok () ∧
      Stores F (setValueForUndefinedKey F value (some key) s).1 (Function.update m key value) := by
  unfold setValueForUndefinedKey
  rw [if_neg (by simp [hkey])]
  rcases h.entries with ⟨hdic, _⟩ | ⟨d, hdic, _⟩
  · have hnone : s.dic.isNone = true := by rw [hdic]; rfl
    rw [if_pos hnone]
    exact sendSetValue_stores (newDictionary_stores h hdic) rfl value key
  · have hsome : ¬ s.dic.isNone = true := by rw [hdic]; exact Bool.false_ne_true
    rw [if_neg hsome]
    exact sendSetValue_stores h hdic value key

/-- The second hook reads the value from the map. -/
theorem valueForUndefinedKey_stores {key : NSString} (hkey : key ≠ []) (h : Stores F s m)
    (hat : key.head? = some 64 → s.dic = none) :
    valueForUndefinedKey F (some key) s = (s, .ok (m key)) := by
  unfold valueForUndefinedKey
  rw [if_neg (by simp [hkey])]
  rcases h.entries with ⟨hdic, hm⟩ | ⟨d, hdic, hm⟩
  · rw [hdic, hm]
    rfl
  · have hno : ¬ key.head? = some 64 := by
      intro ha
      rw [hat ha] at hdic
      cases hdic
    rw [hdic]
    rw [← hm]
    exact if_neg hno

theorem setValueForKey_missed {value : Option (Object A)} {key : NSString}
    (h : Missed F s (.setValueForKey value key)) :
    setValueForKey F value key s = setValueForUndefinedKey F value (some key) s := by
  obtain ⟨hfind, hivar⟩ := h
  rw [Option.isNone_iff_eq_none] at hfind hivar
  unfold setValueForKey
  rw [hfind, hivar]

theorem valueForKey_missed {key : NSString} (h : Missed F s (.valueForKey key)) :
    valueForKey F key s = valueForUndefinedKey F (some key) s := by
  obtain ⟨hfind, hivar, _⟩ := h
  rw [Option.isNone_iff_eq_none] at hfind hivar
  unfold valueForKey
  rw [hfind, hivar]

variable [DecidableEq A]

/-- **Step lemma.**  A call that the search misses does what it does to a map. -/
theorem step_of_missed {call : Call A} (hkey : call.key ≠ []) (h : Stores F s m)
    (hmissed : Missed F s call) :
    (container F).output s call = .ok (call.answer m) ∧
      Stores F ((container F).next s call) (call.store m) := by
  unfold System.output System.next
  cases call with
  | setValueForKey value key =>
    have hstep : (container F).step s (.setValueForKey value key) =
        ((setValueForKey F value key s).1, (setValueForKey F value key s).2.map fun _ => none) :=
      if_neg (not_not_intro h.isa)
    have hhook := setValueForUndefinedKey_stores (show key ≠ [] from hkey) h value
    rw [hstep, setValueForKey_missed hmissed, hhook.1]
    exact ⟨rfl, hhook.2⟩
  | valueForKey key =>
    have hstep : (container F).step s (.valueForKey key) = valueForKey F key s :=
      if_neg (not_not_intro h.isa)
    have hhook := valueForUndefinedKey_stores (show key ≠ [] from hkey) h hmissed.2.2
    rw [hstep, valueForKey_missed hmissed, hhook]
    exact ⟨rfl, h⟩

/-- **Run lemma.**  After calls that the search misses the container stores their map. -/
theorem stores_of_missed (hs : New F s) (calls : List (Call A))
    (hkeys : ∀ call ∈ calls, call.key ≠ [])
    (hmissed : AtEach (fun before call => Missed F ((container F).run s before) call) calls) :
    Stores F ((container F).run s calls) (latest calls) := by
  induction calls using List.reverseRecOn with
  | nil => exact hs.stores
  | append_singleton calls call ih =>
    rw [atEach_snoc] at hmissed
    have hstores := ih (fun c hc => hkeys c (List.mem_append_left _ hc)) hmissed.1
    have hkey := hkeys call (List.mem_append_right _ (List.mem_singleton.mpr rfl))
    rw [System.run_snoc, latest_snoc]
    exact (step_of_missed hkey hstores hmissed.2).2

/-- A new container behaves as a map in each run whose keys the search misses. -/
theorem behavesAsMap_of_missed (hs : New F s) (calls : List (Call A))
    (hkeys : ∀ call ∈ calls, call.key ≠ [])
    (hmissed : AtEach (fun before call => Missed F ((container F).run s before) call) calls) :
    BehavesAsMap F s calls := by
  intro before call after hsplit
  have hbefore : AtEach (fun before call => Missed F ((container F).run s before) call) before :=
    AtEach.of_append (hsplit ▸ hmissed)
  have hstores := stores_of_missed hs before
    (fun c hc => hkeys c (hsplit ▸ List.mem_append_left _ hc)) hbefore
  have hkey := hkeys call (hsplit ▸ List.mem_append_right _ List.mem_cons_self)
  exact (step_of_missed hkey hstores (hmissed before call after hsplit)).1

end Steps

/-! ## A container among plain objects -/

/-- No further accessors; the other objects know no keys. -/
def plain : Surroundings Nat Unit where
  table := asciiTable
  container := 0
  setter _ := none
  getter _ := none
  otherSetValue _ _ key s := (s, .error (.exception ⟨lit "NSUnknownKeyException", key⟩))
  otherValueForKey _ key s := (s, .error (.exception ⟨lit "NSUnknownKeyException", key⟩))
  dictionaryProperty _ key s := (s, .error (.exception ⟨lit "NSUnknownKeyException", key⟩))

def newContainer : State Nat Unit := ⟨some (.other 0), none, fun _ _ => none, 0, ()⟩

def setName : Call Nat := .setValueForKey (some (.other 7)) (lit "name")

def getName : Call Nat := .valueForKey (lit "name")

theorem behavesAsMap_of_missed_name : BehavesAsMap plain newContainer [getName, setName, getName] := by
  apply behavesAsMap_of_missed ⟨rfl, rfl⟩
  · decide
  · intro before call after hsplit
    have hmem : call ∈ [getName, setName, getName] := by
      rw [hsplit]
      exact List.mem_append_right _ List.mem_cons_self
    have hkey : call.key = lit "name" := by
      simp only [List.mem_cons, List.not_mem_nil, or_false] at hmem
      rcases hmem with rfl | rfl | rfl <;> rfl
    apply missed_of_lower
    · rw [hkey]
      exact List.all_eq_true.mp rfl
    · exact ⟨fun _ _ => rfl, fun _ _ => rfl⟩
    · rw [hkey]
      decide
    · rw [hkey]
      decide

/-- `nil` for the key `dic` throws the dictionary away. -/
theorem entries_thrown_away :
    ¬ BehavesAsMap plain newContainer [setName, .setValueForKey none (lit "dic"), getName] := by
  intro h
  have hget := h [setName, .setValueForKey none (lit "dic")] getName [] rfl
  have hnil : (container plain).output ((container plain).run newContainer
      [setName, .setValueForKey none (lit "dic")]) getName = .ok none := rfl
  cases Except.ok.inj (hnil.symm.trans hget)

end BottomResearch.Container
