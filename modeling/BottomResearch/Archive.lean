import BottomResearch.KeyValue
import BottomResearch.Runs

/-!
# The archive of `Bear`

The model of `encodeWithCoder:` and `initWithCoder:` of `Bear.m` for `Bear` and
the subclasses that inherit them.  Both loop over the instance variables of the
object's own class and go through Foundation's key-value search with the name of
the variable as the key.  `NSObject`'s own methods are a parameter (`Root`), and
the coder is a finite map.

Proved here: `roundTrip_iff_faithful`, an object comes back from its archive
exactly when each name can be read and is accepted where it is written, and each
variable, own or inherited, is last written under a name that reads its value, or is
not written and holds `nil` or 0.
-/

namespace BottomResearch.Archive

open Foundation Runs KeyValue

/-! ## Objects -/

inductive IvarType
  | object
  | integer
  deriving DecidableEq, Repr

/-- An object: an integer number, or any other. -/
inductive Obj (V : Type)
  | number (i : Int64)
  | other (v : V)
  deriving DecidableEq

/-- What the variables hold; each variable is read at its own type. -/
structure Values (V : Type) where
  objects : Slot → Option (Obj V)
  integers : Slot → Int64

/-- What one variable holds. -/
inductive Content (V : Type)
  | object (o : Option (Obj V))
  | integer (i : Int64)
  deriving DecidableEq

/-- Why a call raised. -/
inductive Raised
  | undefinedKey
  | nilValueForKey
  | unrecognizedSelector
  | root
  deriving DecidableEq, Repr

/-- What the two functions use of Foundation: its case tables, the accessor
methods that `NSObject` itself has, which change no instance variable but may raise (as
`-[NSObject copy]` does on a `Bear`), and what an object that is no integer number
answers to `integerValue`. -/
structure Root (V : Type) where
  table : CaseTable
  getter : NSString → Option (Values V → Except Raised (Option (Obj V)))
  setter : NSString → Option (Option (Obj V) → Option Raised)
  integerValue : V → Option Int64

/-- `Bear` or a subclass of it: the instance variables of the classes below `Bear`,
the object's own class first. -/
structure BearClass where
  below : List (List (NSString × IvarType))

/-- The instance variables that `Bear` synthesizes. -/
def bearIvars : List (NSString × IvarType) :=
  [(lit "_name", .object), (lit "_age", .integer), (lit "_sex", .object)]

/-- The accessors that `Bear` synthesizes, with the index of their variable. -/
def bearProperties : List (NSString × NSString × Nat) :=
  [(lit "name", lit "setName:", 0), (lit "age", lit "setAge:", 1), (lit "sex", lit "setSex:", 2)]

namespace BearClass

/-- The classes from the object's own up to `Bear`.  The `isa` of `NSObject` is left
out: no class below can declare a variable of that name. -/
def levels (c : BearClass) : List (List (NSString × IvarType)) := c.below ++ [bearIvars]

/-- The names in the list that `class_copyIvarList` returns. -/
def ownNames (c : BearClass) : List NSString := (c.levels.headD []).map (·.1)

def typeOf (c : BearClass) (s : Slot) : Option IvarType :=
  (c.levels[s.level]?).bind fun level => (level[s.index]?).map (·.2)

end BearClass

/-- `class_getInstanceVariable`, from the class at `level` upwards. -/
def findIvarFrom : Nat → List (List (NSString × IvarType)) → NSString → Option Slot
  | _, [], _ => none
  | level, ivars :: levels, name =>
    match ivars.findIdx? fun ivar => ivar.1 = name with
    | some i => some ⟨level, i⟩
    | none => findIvarFrom (level + 1) levels name

def BearClass.findIvar (c : BearClass) (name : NSString) : Option Slot := findIvarFrom 0 c.levels name

variable {V : Type}

/-- The content of a variable at its type. -/
def BearClass.content (c : BearClass) (values : Values V) (s : Slot) : Content V :=
  match c.typeOf s with
  | some .integer => .integer (values.integers s)
  | _ => .object (values.objects s)

def Values.store (values : Values V) (s : Slot) : Content V → Values V
  | .object o => { values with objects := fun t => if t = s then o else values.objects t }
  | .integer i => { values with integers := fun t => if t = s then i else values.integers t }

/-- A new object: `nil` and 0 everywhere. -/
def Values.zero : Values V := ⟨fun _ => none, fun _ => 0⟩

/-! ## `valueForKey:` and `setValue:forKey:` -/

/-- Where a key is read. -/
inductive Source (V : Type)
  | slot (s : Slot)
  | method (f : Values V → Except Raised (Option (Obj V)))

/-- Where a key is written. -/
inductive Target (V : Type)
  | slot (s : Slot)
  | method (f : Option (Obj V) → Option Raised)

/-- The getter that `sel` reaches: one of `Bear` or one of `NSObject`. -/
def getter (R : Root V) (c : BearClass) (sel : NSString) : Option (Source V) :=
  match bearProperties.find? fun p => p.1 = sel with
  | some p => some (.slot ⟨c.below.length, p.2.2⟩)
  | none => (R.getter sel).map .method

def setter (R : Root V) (c : BearClass) (sel : NSString) : Option (Target V) :=
  match bearProperties.find? fun p => p.2.1 = sel with
  | some p => some (.slot ⟨c.below.length, p.2.2⟩)
  | none => (R.setter sel).map .method

def source (R : Root V) (c : BearClass) (key : NSString) : Option (Source V) :=
  match (valueForKeyNames R.table key).findSome? (getter R c) with
  | some found => some found
  | none => ((ivarSearchNames R.table key).findSome? c.findIvar).map .slot

def target (R : Root V) (c : BearClass) (key : NSString) : Option (Target V) :=
  match (setValueForKeyNames R.table key).findSome? (setter R c) with
  | some found => some found
  | none => ((ivarSearchNames R.table key).findSome? c.findIvar).map .slot

/-- An integer is boxed. -/
def Content.boxed : Content V → Option (Obj V)
  | .object o => o
  | .integer i => some (.number i)

def valueForKey (R : Root V) (c : BearClass) (values : Values V) (key : NSString) :
    Except Raised (Option (Obj V)) :=
  match source R c key with
  | some (.slot s) => .ok (c.content values s).boxed
  | some (.method f) => f values
  | none => .error .undefinedKey

/-- The content that an object becomes in a variable of a type. -/
def unboxed (R : Root V) : Option IvarType → Option (Obj V) → Except Raised (Content V)
  | some .integer, some (.number i) => .ok (.integer i)
  | some .integer, some (.other v) =>
    match R.integerValue v with
    | some i => .ok (.integer i)
    | none => .error .unrecognizedSelector
  -- `setNilValueForKey:` raises.
  | some .integer, none => .error .nilValueForKey
  | _, o => .ok (.object o)

def setValue (R : Root V) (c : BearClass) (value : Option (Obj V)) (key : NSString)
    (values : Values V) : Except Raised (Values V) :=
  match target R c key with
  | some (.slot s) => (unboxed R (c.typeOf s) value).map (values.store s)
  | some (.method f) =>
    match f value with
    | some e => .error e
    | none => .ok values
  | none => .error .undefinedKey

/-! ## Archiving -/

abbrev Coder (V : Type) := List (NSString × Option (Obj V))

def encodeObject (coder : Coder V) (value : Option (Obj V)) (key : NSString) : Coder V :=
  (key, value) :: coder

def decodeObject (coder : Coder V) (key : NSString) : Option (Obj V) := (coder.lookup key).getD none

/-- The loop of `encodeWithCoder:`. -/
def encodeLoop (R : Root V) (c : BearClass) (values : Values V) :
    List NSString → Coder V → Except Raised (Coder V)
  | [], coder => .ok coder
  | key :: keys, coder =>
    match valueForKey R c values key with
    | .error e => .error e
    | .ok value => encodeLoop R c values keys (encodeObject coder value key)

def encodeWithCoder (R : Root V) (c : BearClass) (values : Values V) (coder : Coder V) :
    Except Raised (Coder V) :=
  encodeLoop R c values c.ownNames coder

/-- The loop of `initWithCoder:`. -/
def initLoop (R : Root V) (c : BearClass) (coder : Coder V) :
    List NSString → Values V → Except Raised (Values V)
  | [], values => .ok values
  | key :: keys, values =>
    match setValue R c (decodeObject coder key) key values with
    | .error e => .error e
    | .ok values => initLoop R c coder keys values

def initWithCoder (R : Root V) (c : BearClass) (coder : Coder V) : Except Raised (Values V) :=
  initLoop R c coder c.ownNames .zero

/-- The object comes back from its archive: nothing raises, and every variable has
an equal value. -/
def RoundTrip (R : Root V) (c : BearClass) (values : Values V) : Prop :=
  ∃ coder values', encodeWithCoder R c values [] = .ok coder ∧
    initWithCoder R c coder = .ok values' ∧
    ∀ s, c.typeOf s ≠ none → c.content values' s = c.content values s

/-! ## What is read and what is written -/

section Search

variable (R : Root V) (c : BearClass)

/-- What `encodeWithCoder:` reads under a name. -/
def reads (values : Values V) (key : NSString) : Option (Obj V) :=
  match source R c key with
  | some (.slot s) => (c.content values s).boxed
  | some (.method f) =>
    match f values with
    | .ok value => value
    | .error _ => none
  | none => none

/-- Reading a name raises nothing: only a method of `NSObject` can raise. -/
def Answers (values : Values V) (key : NSString) : Prop :=
  ∀ f, source R c key = some (.method f) → ∃ value, f values = .ok value

/-- The variable that is written under a name. -/
def writes (key : NSString) : Option Slot :=
  match target R c key with
  | some (.slot s) => some s
  | _ => none

/-- Writing `value` under a name raises nothing. -/
def Accepts (key : NSString) (value : Option (Obj V)) : Prop :=
  match target R c key with
  | some (.slot s) => ∃ content, unboxed R (c.typeOf s) value = .ok content
  | some (.method f) => f value = none
  | none => False

/-- The names of the object's own class are read and written so that every variable
gets its value back. -/
structure Faithful (values : Values V) : Prop where
  answered : ∀ key ∈ c.ownNames, Answers R c values key
  accepted : ∀ key ∈ c.ownNames, Accepts R c key (reads R c values key)
  written : ∀ s before key after, c.typeOf s ≠ none →
    Last (fun key => writes R c key = some s) c.ownNames before key after →
    unboxed R (c.typeOf s) (reads R c values key) = .ok (c.content values s)
  unwritten : ∀ s, c.typeOf s ≠ none → (∀ key ∈ c.ownNames, writes R c key ≠ some s) →
    c.content values s = c.content .zero s

end Search

variable {R : Root V} {c : BearClass}

theorem findIvarFrom_ne_none {levels : List (List (NSString × IvarType))} {name : NSString}
    (h : name ∈ (levels.headD []).map (·.1)) (level : Nat) : findIvarFrom level levels name ≠ none := by
  cases levels with
  | nil => cases h
  | cons ivars levels =>
    obtain ⟨ivar, hm, rfl⟩ := List.mem_map.mp h
    have hsome : (ivars.findIdx? fun i => i.1 = ivar.1).isSome = true := by
      rw [List.findIdx?_isSome]
      exact List.any_eq_true.mpr ⟨ivar, hm, by simp⟩
    obtain ⟨i, hi⟩ := Option.isSome_iff_exists.mp hsome
    rw [findIvarFrom, hi]
    exact Option.some_ne_none _

/-- A name of the object's own class is found: itself, if nothing is found before. -/
theorem source_ne_none (R : Root V) {key : NSString} (h : key ∈ c.ownNames) :
    source R c key ≠ none := by
  intro hnone
  unfold source at hnone
  split at hnone
  · cases hnone
  · have hsearch := Option.map_eq_none_iff.mp hnone
    rw [List.findSome?_eq_none_iff] at hsearch
    exact findIvarFrom_ne_none h 0 (hsearch key (by simp [ivarSearchNames]))

/-- Reading a name of the object's own class raises nothing if its method does not. -/
theorem valueForKey_of_answers {key : NSString} (h : key ∈ c.ownNames) {values : Values V}
    (ha : Answers R c values key) : valueForKey R c values key = .ok (reads R c values key) := by
  unfold valueForKey reads
  cases hs : source R c key with
  | none => exact absurd hs (source_ne_none R h)
  | some found =>
    cases found with
    | slot s => rfl
    | method f =>
      obtain ⟨value, hf⟩ := ha f hs
      simp only [hf]

theorem answers_of_valueForKey {key : NSString} {values : Values V} {value : Option (Obj V)}
    (h : valueForKey R c values key = .ok value) : Answers R c values key := by
  intro f hs
  rw [valueForKey, hs] at h
  exact ⟨value, h⟩

/-! ## The coder -/

theorem decode_encode (coder : Coder V) (value : Option (Obj V)) (key k : NSString) :
    decodeObject (encodeObject coder value key) k = if k = key then value else decodeObject coder k := by
  unfold decodeObject encodeObject
  rw [List.lookup_cons]
  by_cases h : k = key
  · rw [beq_iff_eq.mpr h, if_pos h]
    rfl
  · rw [beq_false_of_ne h, if_neg h]

/-- The encoder raises nothing exactly when each name can be read. -/
theorem encodeLoop_ok_iff (values : Values V) (keys : List NSString)
    (hkeys : ∀ key ∈ keys, key ∈ c.ownNames) (coder coder' : Coder V) :
    encodeLoop R c values keys coder = .ok coder' ↔
      (∀ key ∈ keys, Answers R c values key) ∧
        coder' = keys.foldl (fun coder key => encodeObject coder (reads R c values key) key) coder := by
  induction keys generalizing coder with
  | nil =>
    constructor
    · intro h
      cases h
      refine ⟨fun _ hm => ?_, rfl⟩
      cases hm
    · rintro ⟨_, rfl⟩
      rfl
  | cons key keys ih =>
    have hkey := hkeys key List.mem_cons_self
    have hrest := ih fun k hk => hkeys k (List.mem_cons_of_mem key hk)
    rw [List.forall_mem_cons, encodeLoop]
    cases hv : valueForKey R c values key with
    | error e =>
      constructor
      · intro h
        cases h
      · rintro ⟨⟨ha, _⟩, _⟩
        cases hv.symm.trans (valueForKey_of_answers hkey ha)
    | ok value =>
      have ha := answers_of_valueForKey hv
      have e : value = reads R c values key :=
        Except.ok.inj (hv.symm.trans (valueForKey_of_answers hkey ha))
      subst e
      exact (hrest _).trans ⟨fun h => ⟨⟨ha, h.1⟩, h.2⟩, fun h => ⟨h.1.2, h.2⟩⟩

/-- Under each name stands what was read there. -/
theorem decode_foldl (values : Values V) (keys : List NSString) (coder : Coder V) (k : NSString) :
    decodeObject
        (keys.foldl (fun coder key => encodeObject coder (reads R c values key) key) coder) k =
      if k ∈ keys then reads R c values k else decodeObject coder k := by
  induction keys generalizing coder with
  | nil => simp
  | cons key keys ih =>
    rw [List.foldl_cons, ih, decode_encode]
    by_cases hk : k ∈ keys
    · rw [if_pos hk, if_pos (List.mem_cons_of_mem key hk)]
    · rw [if_neg hk]
      by_cases e : k = key
      · rw [if_pos e, if_pos (e ▸ List.mem_cons_self), e]
      · rw [if_neg e, if_neg fun hm => (List.mem_cons.mp hm).elim e hk]

/-! ## The decoder -/

/-- What writing an accepted value leaves. -/
def write (R : Root V) (c : BearClass) (coder : Coder V) (values : Values V) (key : NSString) :
    Values V :=
  match setValue R c (decodeObject coder key) key values with
  | .ok values' => values'
  | .error _ => values

theorem setValue_ok_iff {value : Option (Obj V)} {key : NSString} {values : Values V} :
    (∃ values', setValue R c value key values = .ok values') ↔ Accepts R c key value := by
  unfold setValue Accepts
  cases target R c key with
  | none =>
    constructor
    · rintro ⟨_, h⟩
      cases h
    · exact False.elim
  | some t =>
    cases t with
    | slot s =>
      dsimp only
      cases unboxed R (c.typeOf s) value with
      | error e =>
        constructor
        · rintro ⟨_, h⟩
          cases h
        · rintro ⟨_, h⟩
          cases h
      | ok content => exact ⟨fun _ => ⟨content, rfl⟩, fun _ => ⟨_, rfl⟩⟩
    | method f =>
      dsimp only
      cases f value with
      | some e =>
        constructor
        · rintro ⟨_, h⟩
          cases h
        · intro h
          cases h
      | none =>
        constructor
        · exact fun _ => rfl
        · exact fun _ => ⟨values, rfl⟩

theorem write_of_ok {coder : Coder V} {key : NSString} {values next : Values V}
    (h : setValue R c (decodeObject coder key) key values = .ok next) :
    write R c coder values key = next := by
  rw [write, h]

/-- The decoder raises nothing exactly when each name accepts its value. -/
theorem initLoop_ok_iff (coder : Coder V) (keys : List NSString) (values values' : Values V) :
    initLoop R c coder keys values = .ok values' ↔
      (∀ key ∈ keys, Accepts R c key (decodeObject coder key)) ∧
        values' = keys.foldl (write R c coder) values := by
  induction keys generalizing values with
  | nil =>
    constructor
    · intro h
      cases h
      refine ⟨fun _ hm => ?_, rfl⟩
      cases hm
    · rintro ⟨_, rfl⟩
      rfl
  | cons key keys ih =>
    unfold initLoop
    rw [List.foldl_cons]
    cases hset : setValue R c (decodeObject coder key) key values with
    | error e =>
      constructor
      · intro h
        cases h
      · rintro ⟨hall, _⟩
        obtain ⟨_, h⟩ := setValue_ok_iff.mpr (hall key List.mem_cons_self)
        rw [hset] at h
        cases h
    | ok next =>
      rw [write_of_ok hset]
      dsimp only
      rw [ih next]
      constructor
      · rintro ⟨hall, rfl⟩
        refine ⟨fun k hk => ?_, rfl⟩
        rcases List.mem_cons.mp hk with rfl | hk
        · exact setValue_ok_iff.mp ⟨next, hset⟩
        · exact hall k hk
      · rintro ⟨hall, rfl⟩
        exact ⟨fun k hk => hall k (List.mem_cons_of_mem key hk), rfl⟩

/-- The content of a variable after a write. -/
def contentStep (R : Root V) (c : BearClass) (coder : Coder V) (s : Slot) (content : Content V)
    (key : NSString) : Content V :=
  if writes R c key = some s then
    match unboxed R (c.typeOf s) (decodeObject coder key) with
    | .ok content => content
    | .error _ => content
  else content

/-- A content fits the type that it was unboxed for. -/
theorem unboxed_fits {ty : Option IvarType} {value : Option (Obj V)} {content : Content V}
    (h : unboxed R ty value = .ok content) :
    (ty = some .integer ∧ ∃ i, content = .integer i) ∨
      (ty ≠ some .integer ∧ ∃ o, content = .object o) := by
  by_cases hty : ty = some .integer
  · subst hty
    refine Or.inl ⟨rfl, ?_⟩
    cases value with
    | none => cases h
    | some o =>
      cases o with
      | number i =>
        cases h
        exact ⟨i, rfl⟩
      | other v =>
        unfold unboxed at h
        cases hv : R.integerValue v with
        | none =>
          simp only [hv] at h
          cases h
        | some i =>
          simp only [hv] at h
          cases h
          exact ⟨i, rfl⟩
  · refine Or.inr ⟨hty, value, ?_⟩
    cases ty with
    | none =>
      cases h
      rfl
    | some ty =>
      cases ty with
      | integer => exact absurd rfl hty
      | object =>
        cases h
        rfl

theorem content_store {value : Option (Obj V)} {t : Slot} {content : Content V}
    (h : unboxed R (c.typeOf t) value = .ok content) (values : Values V) (s : Slot) :
    c.content (values.store t content) s = if t = s then content else c.content values s := by
  by_cases e : t = s
  · subst e
    rw [if_pos rfl]
    unfold BearClass.content
    rcases unboxed_fits h with ⟨hty, i, rfl⟩ | ⟨hty, o, rfl⟩
    · rw [hty]
      exact congrArg Content.integer (if_pos rfl)
    · split
      · next hty' => exact absurd hty' hty
      · exact congrArg Content.object (if_pos rfl)
  · have e' : ¬ s = t := fun h => e h.symm
    rw [if_neg e]
    unfold BearClass.content
    cases content <;> simp [Values.store, e']

theorem content_write (coder : Coder V) (values : Values V) (key : NSString) (s : Slot) :
    c.content (write R c coder values key) s =
      contentStep R c coder s (c.content values s) key := by
  unfold write contentStep writes setValue
  cases target R c key with
  | none => rfl
  | some t =>
    cases t with
    | method f =>
      dsimp only
      cases f (decodeObject coder key) <;> rfl
    | slot t =>
      dsimp only
      cases hu : unboxed R (c.typeOf t) (decodeObject coder key) with
      | error e =>
        by_cases ht : t = s
        · subst ht
          rw [if_pos rfl, hu]
          rfl
        · rw [if_neg fun h => ht (Option.some.inj h)]
          rfl
      | ok content =>
        have hst := content_store hu values s
        by_cases ht : t = s
        · subst ht
          rw [if_pos rfl, hu]
          rw [if_pos rfl] at hst
          exact hst
        · rw [if_neg fun h => ht (Option.some.inj h)]
          rw [if_neg ht] at hst
          exact hst

theorem content_foldl (coder : Coder V) (keys : List NSString) (values : Values V) (s : Slot) :
    c.content (keys.foldl (write R c coder) values) s =
      keys.foldl (contentStep R c coder s) (c.content values s) := by
  induction keys generalizing values with
  | nil => rfl
  | cons key keys ih =>
    rw [List.foldl_cons, List.foldl_cons, ih, content_write]

theorem contentStep_of_not (coder : Coder V) (s : Slot) (content : Content V) (key : NSString)
    (h : ¬ writes R c key = some s) : contentStep R c coder s content key = content :=
  if_neg h

/-! ## The round trip -/

theorem accepts_unboxed {key : NSString} {value : Option (Obj V)} {s : Slot}
    (ha : Accepts R c key value) (hw : writes R c key = some s) :
    ∃ content, unboxed R (c.typeOf s) value = .ok content := by
  unfold Accepts at ha
  unfold writes at hw
  cases ht : target R c key with
  | none =>
    rw [ht] at hw
    cases hw
  | some t =>
    rw [ht] at ha hw
    cases t with
    | method f => cases hw
    | slot t =>
      cases hw
      exact ha

/-- What the decoder leaves in a variable that some name writes: the value of the last one. -/
theorem content_of_last {coder : Coder V} {s : Slot} {before after : List NSString} {key : NSString}
    (hl : Last (fun key => writes R c key = some s) c.ownNames before key after)
    (ha : Accepts R c key (decodeObject coder key)) :
    unboxed R (c.typeOf s) (decodeObject coder key) =
      .ok (c.content (c.ownNames.foldl (write R c coder) .zero) s) := by
  obtain ⟨content, hu⟩ := accepts_unboxed ha hl.here
  have hstep : ∀ b, contentStep R c coder s b key = content := by
    intro b
    rw [contentStep, if_pos hl.here, hu]
  rw [hu, content_foldl, hl.foldl_eq fun b k hk => contentStep_of_not coder s b k hk, hstep]

/-- A variable that no name writes keeps what a new object holds. -/
theorem content_of_unwritten {coder : Coder V} {s : Slot}
    (hno : ∀ key ∈ c.ownNames, writes R c key ≠ some s) :
    c.content (c.ownNames.foldl (write R c coder) .zero) s = c.content .zero s := by
  rw [content_foldl]
  exact foldl_of_not (fun b k hk => contentStep_of_not coder s b k hk) hno _

/-- **Round trip.**  An object comes back from its archive exactly when its names
are faithful. -/
theorem roundTrip_iff_faithful (R : Root V) (c : BearClass) (values : Values V) :
    RoundTrip R c values ↔ Faithful R c values := by
  have henc := encodeLoop_ok_iff (R := R) values c.ownNames (fun _ h => h) []
  have hread : ∀ key ∈ c.ownNames, decodeObject
      (c.ownNames.foldl (fun coder key => encodeObject coder (reads R c values key) key) []) key =
        reads R c values key := fun key hk => by
    rw [decode_foldl, if_pos hk]
  constructor
  · rintro ⟨coder, values', henc', hinit, hsame⟩
    obtain ⟨hans, rfl⟩ := (henc coder).mp henc'
    obtain ⟨hall, rfl⟩ := (initLoop_ok_iff _ _ _ _).mp hinit
    refine ⟨hans, fun key hk => hread key hk ▸ hall key hk, ?_, ?_⟩
    · intro s before key after hs hl
      have hk : key ∈ c.ownNames := hl.split ▸ List.mem_append_right _ List.mem_cons_self
      rw [← hread key hk, content_of_last hl (hall key hk), hsame s hs]
    · intro s hs hno
      rw [← hsame s hs, content_of_unwritten hno]
  · rintro ⟨hans, hacc, hwritten, hunwritten⟩
    have henc' := (henc _).mpr ⟨hans, rfl⟩
    revert hread henc'
    generalize c.ownNames.foldl
      (fun coder key => encodeObject coder (reads R c values key) key) [] = coder
    intro hread henc'
    have hall : ∀ key ∈ c.ownNames, Accepts R c key (decodeObject coder key) := fun key hk =>
      (hread key hk).symm ▸ hacc key hk
    refine ⟨coder, _, henc', (initLoop_ok_iff _ _ _ _).mpr ⟨hall, rfl⟩, fun s hs => ?_⟩
    by_cases hex : ∃ key ∈ c.ownNames, writes R c key = some s
    · obtain ⟨k, hk, hw⟩ := hex
      obtain ⟨before, key, after, hl⟩ :=
        exists_last (P := fun key => writes R c key = some s) hk hw
      have hkey : key ∈ c.ownNames := hl.split ▸ List.mem_append_right _ List.mem_cons_self
      have hu := content_of_last hl (hall key hkey)
      rw [hread key hkey, hwritten s before key after hs hl] at hu
      exact (Except.ok.inj hu).symm
    · have hno : ∀ key ∈ c.ownNames, writes R c key ≠ some s := fun key hk hw => hex ⟨key, hk, hw⟩
      rw [content_of_unwritten hno, hunwritten s hs hno]

/-! ## A plain bear -/

/-- `NSObject` has no accessor method for the key. -/
def Root.Plain (R : Root V) (key : NSString) : Prop :=
  (∀ sel ∈ valueForKeyNames R.table key, R.getter sel = none) ∧
    ∀ sel ∈ setValueForKeyNames R.table key, R.setter sel = none

theorem unboxed_boxed (R : Root V) (c : BearClass) (values : Values V) (s : Slot) :
    unboxed R (c.typeOf s) (c.content values s).boxed = .ok (c.content values s) := by
  unfold BearClass.content
  cases c.typeOf s with
  | none => rfl
  | some ty => cases ty <;> rfl

/-- A class whose names are read and written at one variable each, and whose
variables are all written, is faithful. -/
theorem roundTrip_of_direct (R : Root V) (c : BearClass)
    (hname : ∀ key ∈ c.ownNames, ∃ s, source R c key = some (.slot s) ∧ target R c key = some (.slot s))
    (hslot : ∀ s, c.typeOf s ≠ none → ∃ key ∈ c.ownNames, writes R c key = some s)
    (values : Values V) : RoundTrip R c values := by
  have hkey : ∀ key ∈ c.ownNames, ∀ s, writes R c key = some s →
      reads R c values key = (c.content values s).boxed := by
    intro key hk s hw
    obtain ⟨t, hsrc, htgt⟩ := hname key hk
    unfold writes at hw
    rw [htgt] at hw
    cases hw
    rw [reads, hsrc]
  refine (roundTrip_iff_faithful R c values).mpr ⟨fun key hk f hf => ?_, fun key hk => ?_, ?_, ?_⟩
  · obtain ⟨s, hsrc, _⟩ := hname key hk
    cases hsrc.symm.trans hf
  · obtain ⟨s, _, htgt⟩ := hname key hk
    have hw : writes R c key = some s := by rw [writes, htgt]
    rw [hkey key hk s hw, Accepts, htgt]
    exact ⟨_, unboxed_boxed R c values s⟩
  · intro s before key after _ hl
    have hk : key ∈ c.ownNames := hl.split ▸ List.mem_append_right _ List.mem_cons_self
    rw [hkey key hk s hl.here, unboxed_boxed]
  · intro s hs hno
    obtain ⟨key, hk, hw⟩ := hslot s hs
    exact absurd hw (hno key hk)

theorem bear_search (R : Root V) {key : NSString} {i : Nat} (hR : R.Plain key)
    (hup : upperFirst R.table key = key)
    (hget : ∀ sel ∈ [lit "get" ++ key, key, lit "is" ++ key, lit "_" ++ key],
      bearProperties.find? (fun p => p.1 = sel) = none)
    (hset : ∀ sel ∈ [lit "set" ++ key ++ lit ":", lit "_set" ++ key ++ lit ":"],
      bearProperties.find? (fun p => p.2.1 = sel) = none)
    (hivar : [lit "_" ++ key, lit "_is" ++ key, key, lit "is" ++ key].findSome?
      (BearClass.mk []).findIvar = some ⟨0, i⟩) :
    source R ⟨[]⟩ key = some (.slot ⟨0, i⟩) ∧ target R ⟨[]⟩ key = some (.slot ⟨0, i⟩) := by
  have hsearch : (ivarSearchNames R.table key).findSome? (BearClass.mk []).findIvar =
      some ⟨0, i⟩ := by
    rw [ivarSearchNames, hup]
    exact hivar
  have hgetter : (valueForKeyNames R.table key).findSome? (getter R ⟨[]⟩) = none := by
    refine List.findSome?_eq_none_iff.mpr fun sel hsel => ?_
    have hroot := hR.1 sel hsel
    rw [valueForKeyNames, hup] at hsel
    rw [getter, hget sel hsel, hroot]
    rfl
  have hsetter : (setValueForKeyNames R.table key).findSome? (setter R ⟨[]⟩) = none := by
    refine List.findSome?_eq_none_iff.mpr fun sel hsel => ?_
    have hroot := hR.2 sel hsel
    rw [setValueForKeyNames, hup] at hsel
    rw [setter, hset sel hsel, hroot]
    rfl
  rw [source, target, hgetter, hsetter, hsearch]
  exact ⟨rfl, rfl⟩

/-- A plain `Bear` always comes back. -/
theorem roundTrip_bear (R : Root V) (hR : ∀ key ∈ (BearClass.mk []).ownNames, R.Plain key)
    (values : Values V) : RoundTrip R ⟨[]⟩ values := by
  have hname := bear_search R (i := 0) (hR (lit "_name") (by decide))
    (upperFirst_underscore _ _ _) (by decide) (by decide) (by decide)
  have hage := bear_search R (i := 1) (hR (lit "_age") (by decide))
    (upperFirst_underscore _ _ _) (by decide) (by decide) (by decide)
  have hsex := bear_search R (i := 2) (hR (lit "_sex") (by decide))
    (upperFirst_underscore _ _ _) (by decide) (by decide) (by decide)
  refine roundTrip_of_direct R ⟨[]⟩ ?_ ?_ values
  · intro key hk
    rcases List.mem_cons.mp hk with rfl | hk
    · exact ⟨_, hname⟩
    · rcases List.mem_cons.mp hk with rfl | hk
      · exact ⟨_, hage⟩
      · rw [List.mem_singleton.mp hk]
        exact ⟨_, hsex⟩
  · rintro ⟨level, index⟩ hs
    cases level with
    | succ n => exact absurd rfl hs
    | zero =>
      match index with
      | 0 => exact ⟨lit "_name", by decide, by rw [writes, hname.2]⟩
      | 1 => exact ⟨lit "_age", by decide, by rw [writes, hage.2]⟩
      | 2 => exact ⟨lit "_sex", by decide, by rw [writes, hsex.2]⟩
      | n + 3 => exact absurd rfl hs

/-! ## A subclass -/

/-- An `NSObject` without accessor methods. -/
def plainRoot : Root Nat := ⟨asciiTable, fun _ => none, fun _ => none, fun _ => none⟩

/-- A subclass that declares nothing archives nothing of `Bear`. -/
theorem subclass_loses_name :
    ¬ RoundTrip plainRoot ⟨[[]]⟩ ⟨fun _ => some (.other 5), fun _ => 4⟩ := by
  rintro ⟨coder, values', henc, hinit, hsame⟩
  cases henc
  cases hinit
  have hname := hsame ⟨1, 0⟩ (by decide)
  revert hname
  decide

/-- `NSObject` with its method `copy`, which raises here as `Bear` has no `copyWithZone:`. -/
def copyRoot : Root Nat :=
  { plainRoot with
    getter := fun sel =>
      if sel = lit "copy" then some fun _ => .error .unrecognizedSelector else none }

/-- A variable named `copy` cannot be archived. -/
example : ¬ RoundTrip copyRoot ⟨[[(lit "copy", .object)]]⟩ .zero := by
  rintro ⟨coder, values', henc, _⟩
  have hraise : encodeWithCoder copyRoot ⟨[[(lit "copy", .object)]]⟩ .zero [] =
      .error .unrecognizedSelector := by decide
  cases hraise.symm.trans henc

end BottomResearch.Archive
