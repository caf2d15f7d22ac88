import Mathlib.Data.List.Basic

/-!
# Classes with single inheritance and late registration

A registry lists the classes of a process, the newest first.  A class names
its superclass, which was registered before it, so a method lookup walks
towards the end of the list and always ends.  Names, selectors and method
bodies are arbitrary types.  Proved here:

* `getMethod_append`: classes with other names in front change no lookup;
* `getMethod_of_mem`: a class in front of the registry answers with its own
  table, and below it with its superclass;
* `getMethod_mapImp`: renaming method bodies commutes with lookup;
* `getMethod_eq_findSome?`: a lookup is a search in the list of a class and its
  superclasses (`hierarchy`);
* `hierarchy_root`: that list ends in the root, for a class under it;
* `implementations_exchange`: what an exchange of two methods does to the
  implementations that a message and the calls to `super` run through;
* `getMethod_addMethods`: lookup in classes that methods were added to.
-/

namespace BottomResearch.Dispatch

/-- A registered class. -/
structure ClassEntry (N S I : Type) where
  name : N
  superclass : Option N
  methods : List (S × I)

abbrev Registry (N S I : Type) := List (ClassEntry N S I)

variable {N S I J : Type} [DecidableEq N] [DecidableEq S]

/-- The method in the class's own table. -/
def ClassEntry.getMethodNoSuper (c : ClassEntry N S I) (s : S) : Option I := c.methods.lookup s

/-- `class_addMethod` on one class: nothing changes when the selector is present. -/
def ClassEntry.addMethod (c : ClassEntry N S I) (s : S) (i : I) : ClassEntry N S I :=
  match c.getMethodNoSuper s with
  | some _ => c
  | none => { c with methods := (s, i) :: c.methods }

/-- Several calls of `class_addMethod` on one class. -/
def ClassEntry.addMethods (c : ClassEntry N S I) (l : List (S × I)) : ClassEntry N S I :=
  l.foldl (fun c m => c.addMethod m.1 m.2) c

def getClass (reg : Registry N S I) (n : N) : Option (ClassEntry N S I) :=
  reg.find? fun c => c.name = n

def getSuperclass (reg : Registry N S I) (n : N) : Option N := (getClass reg n).bind (·.superclass)

/-- The method that a message to an instance of `n` reaches. -/
def getMethod : Registry N S I → N → S → Option I
  | [], _, _ => none
  | c :: reg, n, s =>
    if c.name = n then
      match c.getMethodNoSuper s with
      | some i => some i
      | none =>
        match c.superclass with
        | some m => getMethod reg m s
        | none => none
    else getMethod reg n s

/-- The class `n` and its superclasses, from `n` upwards. -/
def hierarchy : Registry N S I → N → List (ClassEntry N S I)
  | [], _ => []
  | c :: reg, n =>
    if c.name = n then
      c :: match c.superclass with
        | some m => hierarchy reg m
        | none => []
    else hierarchy reg n

/-- Each class has as superclass `root` or a class that was registered before it. -/
def Under (root : N) : Registry N S I → Prop
  | [] => True
  | c :: reg => c.name ≠ root ∧ (∃ m ∈ root :: reg.map (·.name), c.superclass = some m) ∧
    Under root reg

/-- The implementations of `s` that an instance of `n` has: a message reaches the first,
and a call to `super` in one of them the next. -/
def implementations (reg : Registry N S I) (n : N) (s : S) : List (N × I) :=
  (hierarchy reg n).filterMap fun c => (c.getMethodNoSuper s).map fun i => (c.name, i)

def addMethod : Registry N S I → N → S → I → Registry N S I
  | [], _, _, _ => []
  | c :: reg, n, s, i =>
    if c.name = n then c.addMethod s i :: reg else c :: addMethod reg n s i

/-- A new class without methods; the registry is unchanged when the name is in use. -/
def registerClass (reg : Registry N S I) (superclass n : N) : Registry N S I :=
  match getClass reg n with
  | some _ => reg
  | none => ⟨n, some superclass, []⟩ :: reg

/-! ### Methods that change their implementation -/

/-- A method is known by its class and its selector. -/
abbrev Method (N S : Type) := N × S

/-- `class_getInstanceMethod`. -/
def getInstanceMethod (reg : Registry N S I) (n : N) (s : S) : Option (Method N S) :=
  (implementations reg n s).head?.map fun p => (p.1, s)

/-- `method_getImplementation`. -/
def getImplementation (reg : Registry N S I) (m : Method N S) : Option I :=
  (getClass reg m.1).bind fun c => c.getMethodNoSuper m.2

def ClassEntry.setImplementation (c : ClassEntry N S I) (s : S) (i : I) : ClassEntry N S I :=
  { c with methods := c.methods.map fun m => (m.1, if m.1 = s then i else m.2) }

/-- `method_setImplementation`; no two classes share a name. -/
def setImplementation (reg : Registry N S I) (m : Method N S) (i : I) : Registry N S I :=
  reg.map fun c => if c.name = m.1 then c.setImplementation m.2 i else c

/-- `method_exchangeImplementations`, which does nothing without two methods. -/
def exchangeImplementations (reg : Registry N S I) (m1 m2 : Option (Method N S)) : Registry N S I :=
  match m1, m2 with
  | some m1, some m2 =>
    match getImplementation reg m1, getImplementation reg m2 with
    | some m1_imp, some m2_imp => setImplementation (setImplementation reg m1 m2_imp) m2 m1_imp
    | _, _ => reg
  | _, _ => reg

def ClassEntry.mapImp (f : I → J) (c : ClassEntry N S I) : ClassEntry N S J :=
  ⟨c.name, c.superclass, c.methods.map fun m => (m.1, f m.2)⟩

/-! ## One class -/

omit [DecidableEq N] in
@[simp] theorem getMethodNoSuper_nil (n : N) (m : Option N) (s : S) :
    (⟨n, m, []⟩ : ClassEntry N S I).getMethodNoSuper s = none := rfl

omit [DecidableEq N] in
theorem getMethodNoSuper_cons (n : N) (m : Option N) (t : S × I) (l : List (S × I)) (s : S) :
    (⟨n, m, t :: l⟩ : ClassEntry N S I).getMethodNoSuper s =
      if s = t.1 then some t.2 else (⟨n, m, l⟩ : ClassEntry N S I).getMethodNoSuper s := by
  unfold ClassEntry.getMethodNoSuper
  rw [List.lookup_cons]
  by_cases h : s = t.1
  · rw [beq_iff_eq.mpr h, if_pos h]
  · rw [beq_false_of_ne h, if_neg h]

omit [DecidableEq N] in
/-- An absent selector is added in front. -/
theorem addMethod_of_none {c : ClassEntry N S I} {s : S} (h : c.getMethodNoSuper s = none) (i : I) :
    c.addMethod s i = ⟨c.name, c.superclass, (s, i) :: c.methods⟩ := by
  rw [ClassEntry.addMethod, h]

/-- Changes that keep the selectors commute with the search for one. -/
theorem lookup_map (f : S → I → J) (l : List (S × I)) (s : S) :
    (l.map fun m => (m.1, f m.1 m.2)).lookup s = (l.lookup s).map (f s) := by
  induction l with
  | nil => rfl
  | cons m l ih =>
    rw [List.map_cons, List.lookup_cons, List.lookup_cons, ih]
    by_cases e : s = m.1
    · rw [beq_iff_eq.mpr e, e]
      rfl
    · rw [beq_false_of_ne e]

theorem lookup_map_eq_none_iff {f : S → I → J} {l : List (S × I)} {s : S} :
    (l.map fun m => (m.1, f m.1 m.2)).lookup s = none ↔ s ∉ l.map (·.1) := by
  rw [lookup_map, Option.map_eq_none_iff, List.lookup_eq_none_iff]
  constructor
  · intro h hmem
    obtain ⟨m, hm, rfl⟩ := List.mem_map.mp hmem
    exact bne_iff_ne.mp (h m hm) rfl
  · intro h m hm
    exact bne_iff_ne.mpr fun e => h (e ▸ List.mem_map_of_mem hm)

omit [DecidableEq N] in
theorem getMethodNoSuper_mapImp (f : I → J) (c : ClassEntry N S I) (s : S) :
    (c.mapImp f).getMethodNoSuper s = (c.getMethodNoSuper s).map f :=
  lookup_map (fun _ => f) c.methods s

omit [DecidableEq N] in
theorem addMethod_of_some {c : ClassEntry N S I} {s : S} {j : I} (h : c.getMethodNoSuper s = some j)
    (i : I) : c.addMethod s i = c := by
  rw [ClassEntry.addMethod, h]

omit [DecidableEq N] in
/-- A class keeps its own methods. -/
theorem getMethodNoSuper_addMethod (c : ClassEntry N S I) (s : S) (i : I) (t : S) :
    (c.addMethod s i).getMethodNoSuper t =
      (c.getMethodNoSuper t).or (if t = s then some i else none) := by
  cases h : c.getMethodNoSuper s with
  | some j =>
    rw [addMethod_of_some h]
    by_cases e : t = s
    · rw [e, h]
      rfl
    · rw [if_neg e, Option.or_none]
  | none =>
    rw [addMethod_of_none h, getMethodNoSuper_cons]
    by_cases e : t = s
    · rw [if_pos e, if_pos e, e, h]
      rfl
    · rw [if_neg e, if_neg e, Option.or_none]

omit [DecidableEq N] in
theorem addMethods_cons (c : ClassEntry N S I) (m : S × I) (l : List (S × I)) :
    c.addMethods (m :: l) = (c.addMethod m.1 m.2).addMethods l := rfl

omit [DecidableEq N] in
theorem getMethodNoSuper_addMethods (c : ClassEntry N S I) (l : List (S × I)) (t : S) :
    (c.addMethods l).getMethodNoSuper t = (c.getMethodNoSuper t).or (l.lookup t) := by
  induction l generalizing c with
  | nil => rw [List.lookup_nil, Option.or_none]; rfl
  | cons m l ih =>
    rw [addMethods_cons, ih, getMethodNoSuper_addMethod, Option.or_assoc, List.lookup_cons]
    congr 1
    by_cases e : t = m.1
    · rw [if_pos e, beq_iff_eq.mpr e]
      rfl
    · rw [if_neg e, beq_false_of_ne e]
      rfl

omit [DecidableEq N] in
@[simp] theorem addMethods_name (c : ClassEntry N S I) (l : List (S × I)) :
    (c.addMethods l).name = c.name := by
  induction l generalizing c with
  | nil => rfl
  | cons m l ih =>
    rw [addMethods_cons, ih, ClassEntry.addMethod]
    split <;> rfl

omit [DecidableEq N] in
@[simp] theorem addMethods_superclass (c : ClassEntry N S I) (l : List (S × I)) :
    (c.addMethods l).superclass = c.superclass := by
  induction l generalizing c with
  | nil => rfl
  | cons m l ih =>
    rw [addMethods_cons, ih, ClassEntry.addMethod]
    split <;> rfl

/-! ## The superclasses -/

omit [DecidableEq S] in
/-- Classes with other names in front change no hierarchy. -/
theorem hierarchy_append {new : Registry N S I} {n : N} (h : ∀ c ∈ new, c.name ≠ n)
    (reg : Registry N S I) : hierarchy (new ++ reg) n = hierarchy reg n := by
  induction new with
  | nil => rfl
  | cons c new ih =>
    rw [List.cons_append, hierarchy, if_neg (h c List.mem_cons_self)]
    exact ih fun d hd => h d (List.mem_cons_of_mem c hd)

omit [DecidableEq S] in
/-- Above a new class comes the hierarchy of its superclass. -/
theorem hierarchy_of_mem {new : Registry N S I} (nodup : (new.map (·.name)).Nodup)
    {c : ClassEntry N S I} (hc : c ∈ new) {m : N} (hm : c.superclass = some m)
    (old : ∀ d ∈ new, d.name ≠ m) (reg : Registry N S I) :
    hierarchy (new ++ reg) c.name = c :: hierarchy reg m := by
  induction new with
  | nil => simp at hc
  | cons d new ih =>
    rw [List.map_cons, List.nodup_cons] at nodup
    rcases List.mem_cons.mp hc with rfl | hc
    · rw [List.cons_append, hierarchy, if_pos rfl, hm]
      dsimp only
      rw [hierarchy_append fun e he => old e (List.mem_cons_of_mem c he)]
    · have hne : d.name ≠ c.name := fun e => nodup.1 (e ▸ List.mem_map_of_mem hc)
      rw [List.cons_append, hierarchy, if_neg hne]
      exact ih nodup.2 hc fun e he => old e (List.mem_cons_of_mem d he)

omit [DecidableEq N] [DecidableEq S] in
theorem Under.name_ne {root : N} {reg : Registry N S I} (h : Under root reg) :
    ∀ c ∈ reg, c.name ≠ root := by
  induction reg with
  | nil => simp
  | cons d reg ih =>
    obtain ⟨hne, _, hrest⟩ := h
    intro c hc
    rcases List.mem_cons.mp hc with rfl | hc
    · exact hne
    · exact ih hrest c hc

omit [DecidableEq S] in
/-- The root ends the hierarchy of every class under it. -/
theorem hierarchy_root {c : ClassEntry N S I} (hc : c.superclass = none) {reg : Registry N S I}
    (h : Under c.name reg) {n : N} (hn : n ∈ c.name :: reg.map (·.name)) :
    hierarchy (reg ++ [c]) n = hierarchy reg n ++ [c] := by
  induction reg generalizing n with
  | nil =>
    obtain rfl := List.mem_singleton.mp hn
    simp [hierarchy, hc]
  | cons d reg ih =>
    obtain ⟨_, ⟨m, hm, hsuper⟩, hrest⟩ := h
    rw [List.cons_append, hierarchy, hierarchy]
    by_cases hd : d.name = n
    · rw [if_pos hd, if_pos hd, hsuper, List.cons_append]
      exact congrArg (d :: ·) (ih hrest hm)
    · rw [if_neg hd, if_neg hd]
      have hn' : n ∈ c.name :: reg.map (·.name) := by
        simp only [List.map_cons, List.mem_cons] at hn ⊢
        rcases hn with hn | hn | hn
        · exact Or.inl hn
        · exact absurd hn.symm hd
        · exact Or.inr hn
      exact ih hrest hn'

omit [DecidableEq S] in
theorem mem_of_mem_hierarchy {reg : Registry N S I} {n : N} {c : ClassEntry N S I}
    (h : c ∈ hierarchy reg n) : c ∈ reg := by
  induction reg generalizing n with
  | nil => exact absurd h List.not_mem_nil
  | cons d reg ih =>
    rw [hierarchy] at h
    split at h
    · rcases List.mem_cons.mp h with rfl | h
      · exact List.mem_cons_self
      · cases hs : d.superclass with
        | some m =>
          rw [hs] at h
          exact List.mem_cons_of_mem d (ih h)
        | none =>
          rw [hs] at h
          exact absurd h List.not_mem_nil
    · exact List.mem_cons_of_mem d (ih h)

omit [DecidableEq S] in
/-- Changes that keep the names and the superclasses commute with the hierarchy. -/
theorem hierarchy_map {f : ClassEntry N S I → ClassEntry N S J} (hname : ∀ c, (f c).name = c.name)
    (hsuper : ∀ c, (f c).superclass = c.superclass) (reg : Registry N S I) (n : N) :
    hierarchy (reg.map f) n = (hierarchy reg n).map f := by
  induction reg generalizing n with
  | nil => rfl
  | cons c reg ih =>
    rw [List.map_cons, hierarchy, hierarchy, hname, hsuper]
    by_cases h : c.name = n
    · rw [if_pos h, if_pos h, List.map_cons]
      cases c.superclass with
      | some m => exact congrArg (f c :: ·) (ih m)
      | none => rfl
    · rw [if_neg h, if_neg h]
      exact ih n

omit [DecidableEq S] in
theorem hierarchy_mapImp (f : I → J) (reg : Registry N S I) (n : N) :
    hierarchy (reg.map (·.mapImp f)) n = (hierarchy reg n).map (·.mapImp f) :=
  hierarchy_map (f := fun c => c.mapImp f) (fun _ => rfl) (fun _ => rfl) reg n

/-- A message reaches the first method of its selector in the hierarchy. -/
theorem getMethod_eq_findSome? (reg : Registry N S I) (n : N) (s : S) :
    getMethod reg n s = (hierarchy reg n).findSome? fun c => c.getMethodNoSuper s := by
  induction reg generalizing n with
  | nil => rfl
  | cons c reg ih =>
    rw [getMethod, hierarchy]
    by_cases h : c.name = n
    · rw [if_pos h, if_pos h, List.findSome?_cons]
      cases c.getMethodNoSuper s with
      | some i => rfl
      | none =>
        cases c.superclass with
        | some m => exact ih m
        | none => rfl
    · rw [if_neg h, if_neg h]
      exact ih n

/-! ## Lookup -/

/-- Classes with other names in front change no lookup. -/
theorem getMethod_append {new : Registry N S I} {n : N} (h : ∀ c ∈ new, c.name ≠ n)
    (reg : Registry N S I) (s : S) : getMethod (new ++ reg) n s = getMethod reg n s := by
  rw [getMethod_eq_findSome?, hierarchy_append h, ← getMethod_eq_findSome?]

/-- A class among the new ones, whose names are distinct and whose superclass
is not new, answers from its own table and then as its superclass does. -/
theorem getMethod_of_mem {new : Registry N S I} (nodup : (new.map (·.name)).Nodup)
    {c : ClassEntry N S I} (hc : c ∈ new) {m : N} (hm : c.superclass = some m)
    (old : ∀ d ∈ new, d.name ≠ m) (reg : Registry N S I) (s : S) :
    getMethod (new ++ reg) c.name s = (c.getMethodNoSuper s).or (getMethod reg m s) := by
  rw [getMethod_eq_findSome?, hierarchy_of_mem nodup hc hm old, List.findSome?_cons,
    ← getMethod_eq_findSome?]
  cases c.getMethodNoSuper s <;> rfl

omit [DecidableEq S] in
theorem getClass_append {new : Registry N S I} {n : N} (h : ∀ c ∈ new, c.name ≠ n)
    (reg : Registry N S I) : getClass (new ++ reg) n = getClass reg n := by
  have hnone : getClass new n = none :=
    List.find?_eq_none.mpr fun c hc => by simpa using h c hc
  rw [getClass, List.find?_append, ← getClass, hnone, Option.none_or]
  rfl

omit [DecidableEq S] in
theorem getClass_of_mem {new : Registry N S I} (nodup : (new.map (·.name)).Nodup)
    {c : ClassEntry N S I} (hc : c ∈ new) (reg : Registry N S I) :
    getClass (new ++ reg) c.name = some c := by
  induction new with
  | nil => simp at hc
  | cons d new ih =>
    rw [List.map_cons, List.nodup_cons] at nodup
    rcases List.mem_cons.mp hc with rfl | hc
    · simp [getClass]
    · have hne : d.name ≠ c.name := fun e => nodup.1 (e ▸ List.mem_map_of_mem hc)
      have := ih nodup.2 hc
      simpa [getClass, hne] using this

omit [DecidableEq S] in
/-- A name that is used once is used once in the whole registry. -/
theorem filter_name_of_mem {new old : Registry N S I} (nodup : (new.map (·.name)).Nodup)
    {c : ClassEntry N S I} (hc : c ∈ new) (hold : ∀ d ∈ old, d.name ≠ c.name) :
    ((new ++ old).filter fun d => d.name = c.name) = [c] := by
  have hnone : (old.filter fun d => d.name = c.name) = [] :=
    List.filter_eq_nil_iff.mpr fun d hd => by simpa using hold d hd
  rw [List.filter_append, hnone, List.append_nil]
  induction new with
  | nil => simp at hc
  | cons d new ih =>
    rw [List.map_cons, List.nodup_cons] at nodup
    rcases List.mem_cons.mp hc with rfl | hc
    · have hrest : (new.filter fun e => e.name = c.name) = [] :=
        List.filter_eq_nil_iff.mpr fun e he => by
          have hne : e.name ≠ c.name := fun h => nodup.1 (h ▸ List.mem_map_of_mem he)
          simpa using hne
      rw [List.filter_cons_of_pos (by simp), hrest]
    · have hne : d.name ≠ c.name := fun e => nodup.1 (e ▸ List.mem_map_of_mem hc)
      rw [List.filter_cons_of_neg (by simpa using hne)]
      exact ih nodup.2 hc

theorem getMethod_mapImp (f : I → J) (reg : Registry N S I) (n : N) (s : S) :
    getMethod (reg.map (·.mapImp f)) n s = (getMethod reg n s).map f := by
  rw [getMethod_eq_findSome?, getMethod_eq_findSome?, hierarchy_mapImp, List.findSome?_map,
    List.map_findSome?]
  congr 1
  funext c
  exact getMethodNoSuper_mapImp f c s

/-! ## Implementations -/

/-- A message reaches the first implementation. -/
theorem getMethod_eq_head? (reg : Registry N S I) (n : N) (s : S) :
    getMethod reg n s = (implementations reg n s).head?.map (·.2) := by
  rw [getMethod_eq_findSome?, implementations, List.head?_filterMap, List.map_findSome?]
  congr 1
  funext c
  dsimp only [Function.comp_apply]
  cases c.getMethodNoSuper s <;> rfl

theorem getInstanceMethod_eq_none_iff {reg : Registry N S I} {n : N} {s : S} :
    getInstanceMethod reg n s = none ↔ getMethod reg n s = none := by
  rw [getMethod_eq_head?, getInstanceMethod, Option.map_eq_none_iff, Option.map_eq_none_iff]

/-- Where every class has the selector itself, added methods change nothing. -/
theorem implementations_addMethods {reg : Registry N S I} {n : N} {s : S}
    (h : ∀ c ∈ hierarchy reg n, (c.getMethodNoSuper s).isSome) (f : N → List (S × I)) :
    implementations (reg.map fun c => c.addMethods (f c.name)) n s = implementations reg n s := by
  unfold implementations
  rw [hierarchy_map (f := fun c => c.addMethods (f c.name)) (fun c => addMethods_name c _)
    (fun c => addMethods_superclass c _), List.filterMap_map]
  refine List.filterMap_congr fun c hc => ?_
  obtain ⟨i, hi⟩ := Option.isSome_iff_exists.mp (h c hc)
  rw [Function.comp_apply, getMethodNoSuper_addMethods, addMethods_name, hi]
  rfl

/-- Lookup with added methods: each class asks its own table first. -/
theorem getMethod_addMethods (reg : Registry N S I) (f : N → List (S × I)) (n : N) (s : S) :
    getMethod (reg.map fun c => c.addMethods (f c.name)) n s =
      (hierarchy reg n).findSome? fun c => (c.getMethodNoSuper s).or ((f c.name).lookup s) := by
  rw [getMethod_eq_findSome?, hierarchy_map (f := fun c => c.addMethods (f c.name))
    (fun c => addMethods_name c _) (fun c => addMethods_superclass c _), List.findSome?_map]
  congr 1
  funext c
  exact getMethodNoSuper_addMethods c _ s

omit [DecidableEq N] in
theorem getMethodNoSuper_setImplementation (c : ClassEntry N S I) (s : S) (i : I) (t : S) :
    (c.setImplementation s i).getMethodNoSuper t =
      (c.getMethodNoSuper t).map fun j => if t = s then i else j :=
  lookup_map (fun t j => if t = s then i else j) c.methods t

/-- A method that gets another implementation is the only one that does. -/
theorem implementations_setImplementation (reg : Registry N S I) (m : Method N S) (i : I) (n : N)
    (s : S) : implementations (setImplementation reg m i) n s =
      (implementations reg n s).map fun p => (p.1, if (p.1, s) = m then i else p.2) := by
  obtain ⟨cls, t⟩ := m
  unfold implementations setImplementation
  rw [hierarchy_map (fun c => by split <;> rfl) (fun c => by split <;> rfl), List.filterMap_map,
    List.map_filterMap]
  congr 1
  funext c
  dsimp only [Function.comp_apply]
  by_cases e : c.name = cls
  · rw [if_pos e, getMethodNoSuper_setImplementation]
    cases c.getMethodNoSuper s with
    | none => rfl
    | some j => simp [ClassEntry.setImplementation, e]
  · rw [if_neg e]
    cases c.getMethodNoSuper s with
    | none => rfl
    | some j => simp [e]

/-- An exchange of methods with two selectors gives the first the implementation of the
second. -/
theorem implementations_exchange {reg : Registry N S I} {m1 m2 : Method N S} {i1 i2 : I}
    (h1 : getImplementation reg m1 = some i1) (h2 : getImplementation reg m2 = some i2)
    (hne : m1.2 ≠ m2.2) (n : N) :
    implementations (exchangeImplementations reg (some m1) (some m2)) n m1.2 =
      (implementations reg n m1.2).map fun p => (p.1, if p.1 = m1.1 then i2 else p.2) := by
  unfold exchangeImplementations
  simp only [h1, h2]
  rw [implementations_setImplementation, implementations_setImplementation, List.map_map]
  congr 1
  funext p
  have hother : ¬ (p.1, m1.2) = m2 := fun e => hne (by rw [← e])
  have hthis : (p.1, m1.2) = m1 ↔ p.1 = m1.1 := by
    rw [Prod.ext_iff]
    exact and_iff_left rfl
  simp [hother, hthis]

/-! ## Registration -/

omit [DecidableEq S] in
theorem registerClass_of_none {reg : Registry N S I} {n : N} (h : getClass reg n = none)
    (superclass : N) : registerClass reg superclass n = ⟨n, some superclass, []⟩ :: reg := by
  rw [registerClass, h]

theorem addMethod_cons_self (c : ClassEntry N S I) (reg : Registry N S I) (s : S) (i : I) :
    addMethod (c :: reg) c.name s i = c.addMethod s i :: reg := by
  rw [addMethod, if_pos rfl]

end BottomResearch.Dispatch
