import BottomResearch.Observing

/-!
# What the calls so far amount to

The abstract model of the three categories: everything the process does with a
message is read off the list of the calls made before it.

* `observed h x`: the latest call that changed the class of `x` added to it;
* `firstKey A h C`: the key path of the first add on any object of class `C`,
  the only one whose setter the dynamic class of `C` overrides;
* `lastObserver A key h x`: the observer of the latest add on `x` that stores
  under the address `key`;
* `blocksOf h x`: the blocks added on `x`, in order, removed or not.

Proved here: `refines_run`, every run leaves the process in the state that its
history describes (`Refines`), with `refines_perform` for one call, whatever the code of
the accessors does to the instance variables of their receiver.
-/

namespace BottomResearch.Registrations

open Foundation Dispatch Runs Observing

variable {S G σ V : Type}

/-! ## What one call asks for -/

/-- The receiver and the key path of a call that adds an observer or a block. -/
def adds : Op V → Option (Oid × Option NSString)
  | .gvAddObserver x _ k | .zbAddObserver x _ k | .pdAddObserver x _ k
  | .pdAddObserverBlock x _ k _ => some (x, k)
  | _ => none

/-- The receiver of a call that gives an object its class back. -/
def restores : Op V → Option Oid
  | .gvRemoveObserver x _ _ | .zbRemoveObserver x _ _ | .pdRemoveObserver x _ _
  | .myDealloc x | .pdMyDealloc x => some x
  | _ => none

/-- The file, the receiver and the observer of a call that stores an observer. -/
def associates : Op V → Option (Category × Oid × Option Oid)
  | .gvAddObserver x o _ => some (.kvo, x, o)
  | .zbAddObserver x o _ => some (.autoDeallocKVO, x, o)
  | .pdAddObserver x o _ => some (.blockKVO, x, o)
  | _ => none

/-- The receiver and the entry of a call that stores a block. -/
def registersBlock : Op V → Option (Oid × Info)
  | .pdAddObserverBlock x o k b => some (x, ⟨o, k, b⟩)
  | _ => none

/-! ## The history -/

def observedStep (x : Oid) (b : Bool) (op : Op V) : Bool :=
  if (adds op).map (·.1) = some x then true
  else if restores op = some x then false
  else b

/-- The latest call that changed the class of `x` added to it. -/
def observed (h : List (Op V)) (x : Oid) : Bool := h.foldl (observedStep x) false

/-- The key path of a call that adds to an object of class `C`. -/
def keyFor (A : AppOf S G V) (C : NSString) (op : Op V) : Option (Option NSString) :=
  match adds op with
  | some (x, k) => if A.classOf x = C then some k else none
  | none => none

/-- The key path of the first add on an object of class `C`. -/
def firstKey (A : AppOf S G V) (h : List (Op V)) (C : NSString) : Option (Option NSString) :=
  h.findSome? (keyFor A C)

def lastObserverStep (A : AppOf S G V) (key : Nat) (x : Oid) (o : Option Oid) (op : Op V) : Option Oid :=
  match associates op with
  | some (file, y, o') => if A.objc file = key ∧ y = x then o' else o
  | none => o

/-- The observer that the latest add on `x` stored under the address `key`. -/
def lastObserver (A : AppOf S G V) (key : Nat) (h : List (Op V)) (x : Oid) : Option Oid :=
  h.foldl (lastObserverStep A key x) none

def blockFor (x : Oid) (op : Op V) : Option Info :=
  match registersBlock op with
  | some (y, info) => if y = x then some info else none
  | none => none

/-- The entries added on `x`, in order. -/
def blocksOf (h : List (Op V)) (x : Oid) : List Info := h.filterMap (blockFor x)

theorem observed_snoc (h : List (Op V)) (op : Op V) (x : Oid) :
    observed (h ++ [op]) x = observedStep x (observed h x) op := by
  simp [observed, List.foldl_append]

theorem firstKey_snoc (A : AppOf S G V) (h : List (Op V)) (op : Op V) (C : NSString) :
    firstKey A (h ++ [op]) C = (firstKey A h C).or (keyFor A C op) := by
  rw [firstKey, List.findSome?_append, ← firstKey]
  cases hk : keyFor A C op <;> simp [List.findSome?, hk]

theorem lastObserver_snoc (A : AppOf S G V) (key : Nat) (h : List (Op V)) (op : Op V) (x : Oid) :
    lastObserver A key (h ++ [op]) x = lastObserverStep A key x (lastObserver A key h x) op := by
  simp [lastObserver, List.foldl_append]

theorem blocksOf_snoc (h : List (Op V)) (op : Op V) (x : Oid) :
    blocksOf (h ++ [op]) x = blocksOf h x ++ (blockFor x op).toList := by
  rw [blocksOf, List.filterMap_append, ← blocksOf]
  cases hb : blockFor x op <;> simp [hb]

/-- The call adds to `x` or restores its class. -/
def Touches (x : Oid) (op : Op V) : Prop := (adds op).map (·.1) = some x ∨ restores op = some x

instance (x : Oid) : DecidablePred (Touches (V := V) x) := fun _ =>
  inferInstanceAs (Decidable (_ ∨ _))

theorem observedStep_of_not_touches {x : Oid} {op : Op V} (hop : ¬ Touches x op) (b : Bool) :
    observedStep x b op = b := by
  unfold Touches at hop
  rw [not_or] at hop
  rw [observedStep, if_neg hop.1, if_neg hop.2]

theorem ne_of_not_touches {x y : Oid} {op : Op V} {k : Option NSString} (hop : ¬ Touches x op)
    (ha : adds op = some (y, k)) : y ≠ x := by
  rintro rfl
  exact hop (Or.inl (by rw [ha]; rfl))

theorem lastObserverStep_of_not_touches (A : AppOf S G V) (key : Nat) {x : Oid} {op : Op V}
    (hop : ¬ Touches x op) (o : Option Oid) : lastObserverStep A key x o op = o := by
  cases op with
  | gvAddObserver y | zbAddObserver y | pdAddObserver y =>
    simp [lastObserverStep, associates, ne_of_not_touches hop rfl]
  | _ => rfl

theorem blockFor_of_not_touches {x : Oid} {op : Op V} (hop : ¬ Touches x op) :
    blockFor x op = none := by
  cases op with
  | pdAddObserverBlock y =>
    simp [blockFor, registersBlock, ne_of_not_touches hop rfl]
  | _ => rfl

/-- The last call that touched `x` settles whether it is observed. -/
theorem observed_of_last {h before after : List (Op V)} {op : Op V} {x : Oid}
    (hl : Last (Touches x) h before op after) :
    observed h x = true ↔ (adds op).map (·.1) = some x := by
  rw [observed, hl.foldl_eq fun b _ hj => observedStep_of_not_touches hj b, observedStep]
  by_cases ha : (adds op).map (·.1) = some x
  · simp [ha]
  · rcases hl.here with ha' | hres
    · exact absurd ha' ha
    · simp [ha, hres]

theorem exists_add_of_observed {h : List (Op V)} {x : Oid} (hx : observed h x = true) :
    ∃ op ∈ h, ∃ k, adds op = some (x, k) := by
  induction h using List.reverseRecOn with
  | nil => simp [observed] at hx
  | append_singleton h op ih =>
    rw [observed_snoc, observedStep] at hx
    split at hx
    · next ha =>
      obtain ⟨⟨y, k⟩, hy, rfl⟩ := Option.map_eq_some_iff.mp ha
      exact ⟨op, List.mem_append_right h List.mem_cons_self, k, hy⟩
    · split at hx
      · cases hx
      · obtain ⟨op', hop', k, hk⟩ := ih hx
        exact ⟨op', List.mem_append_left _ hop', k, hk⟩

theorem exists_firstKey (A : AppOf S G V) {h : List (Op V)} {op : Op V} (hop : op ∈ h) {x : Oid}
    {k : Option NSString} (ha : adds op = some (x, k)) :
    ∃ k', firstKey A h (A.classOf x) = some k' := by
  have hs : (firstKey A h (A.classOf x)).isSome = true :=
    List.findSome?_isSome_iff.mpr ⟨op, hop, by simp [keyFor, ha]⟩
  exact Option.isSome_iff_exists.mp hs

/-- An observed object has a first key in its class. -/
theorem firstKey_of_observed (A : AppOf S G V) {h : List (Op V)} {x : Oid} (hx : observed h x = true) :
    ∃ k, firstKey A h (A.classOf x) = some k := by
  obtain ⟨op, hop, k, ha⟩ := exists_add_of_observed hx
  exact exists_firstKey A hop ha

/-! ## Names -/

theorem setterForGetter_colon {T : CaseTable} {k : Option NSString} {s : NSString}
    (h : setterForGetter T k = some s) : lit ":" <:+ s := by
  unfold setterForGetter at h
  cases k with
  | none => cases h
  | some k =>
    dsimp only at h
    split at h
    · cases h
    · cases h
      exact List.suffix_append _ _

theorem ne_class_of_colon {s : NSString} (h : lit ":" <:+ s) : s ≠ lit "class" := by
  rintro rfl
  revert h
  decide

theorem ne_dealloc_of_colon {s : NSString} (h : lit ":" <:+ s) : s ≠ lit "dealloc" := by
  rintro rfl
  revert h
  decide

theorem notifying_inj {C D : NSString} : notifying C = notifying D ↔ C = D :=
  List.append_right_inj _

/-- No base class is named as a dynamic class. -/
theorem classOf_not_notifying (A : AppOf S G V) (x : Oid) : ¬ notifyingPrefix <+: A.classOf x := by
  intro hp
  have hne : ∀ c ∈ A.classes, c.name ≠ A.classOf x := fun c hc e => A.not_notifying c hc (e ▸ hp)
  have hnone := getMethod_append hne [] (lit "class")
  rw [List.append_nil, A.class_inherited x] at hnone
  cases hnone

theorem notifying_ne_classOf (A : AppOf S G V) (C : NSString) (x : Oid) :
    notifying C ≠ A.classOf x :=
  fun e => classOf_not_notifying A x (e ▸ List.prefix_append _ _)

/-! ## The dynamic classes -/

/-- The methods of a dynamic class that `createClass:` built for the key path `k`. -/
def notifyingMethods (A : AppOf S G V) (k : Option NSString) : List (NSString × IMPOf S G) :=
  (if A.attachedLast = .kvo then [] else [(lit "dealloc", .kvoDealloc A.attachedLast)]) ++
    ((setterForGetter A.table k).map fun s => (s, IMPOf.kvoSetter A.attachedLast)).toList ++
    [(lit "class", .kvoClass A.attachedLast)]

def dynamicClass (A : AppOf S G V) (C : NSString) (k : Option NSString) :
    ClassEntry NSString NSString (IMPOf S G) :=
  ⟨notifying C, some C, notifyingMethods A k⟩

/-- What one file's `createClass:` does for an object of class `C`: the hook for `dealloc`
and the setter are added where there are any, and neither hides the other. -/
theorem createClassWith_eq (A : AppOf S G V) {c : Category} (hlast : A.attachedLast = c) {w : WorldOf S G σ}
    {x : Oid} {C : NSString} (k : Option NSString) (hC : classMessage w x = some C) :
    createClassWith A (.kvoClass c) (.kvoSetter c) (if c = .kvo then none else some (.kvoDealloc c))
        k w x =
      some (notifying C,
        match getClass w.classes (notifying C) with
        | some _ => w
        | none => { w with classes := dynamicClass A C k :: w.classes }) := by
  unfold createClassWith
  rw [hC]
  dsimp only
  cases hg : getClass w.classes (notifying C) with
  | some _ => rfl
  | none =>
    have hdc : lit "dealloc" ≠ lit "class" := by decide
    rw [registerClass_of_none hg, addMethod_cons_self, addMethod_of_none rfl]
    simp only [dynamicClass, notifyingMethods, hlast]
    cases hk : setterForGetter A.table k with
    | none =>
      cases c with
      | kvo => rfl
      | autoDeallocKVO | blockKVO =>
        simp only [reduceCtorEq, ↓reduceIte]
        rw [addMethod_cons_self, addMethod_of_none (by simp [getMethodNoSuper_cons, hdc])]
        rfl
    | some s =>
      have hs := setterForGetter_colon hk
      dsimp only
      rw [addMethod_cons_self,
        addMethod_of_none (by simp [getMethodNoSuper_cons, ne_class_of_colon hs])]
      cases c with
      | kvo => rfl
      | autoDeallocKVO | blockKVO =>
        simp only [reduceCtorEq, ↓reduceIte]
        rw [addMethod_cons_self, addMethod_of_none (by
          simp [getMethodNoSuper_cons, hdc, (ne_dealloc_of_colon hs).symm])]
        rfl

/-- `createClass:` builds the dynamic class where it does not exist. -/
theorem createClass_eq (A : AppOf S G V) {w : WorldOf S G σ} {x : Oid} {C : NSString} (k : Option NSString)
    (hC : classMessage w x = some C) :
    createClass A k w x = some (notifying C,
      match getClass w.classes (notifying C) with
      | some _ => w
      | none => { w with classes := dynamicClass A C k :: w.classes }) := by
  unfold createClass
  cases hlast : A.attachedLast with
  | kvo => exact createClassWith_eq A hlast k hC
  | autoDeallocKVO => exact createClassWith_eq A hlast k hC
  | blockKVO => exact createClassWith_eq A hlast k hC

theorem dynamicClass_class (A : AppOf S G V) (C : NSString) (k : Option NSString) :
    (dynamicClass A C k).getMethodNoSuper (lit "class") = some (.kvoClass A.attachedLast) := by
  have hcd : lit "class" ≠ lit "dealloc" := by decide
  unfold dynamicClass notifyingMethods
  cases hk : setterForGetter A.table k with
  | none => by_cases hl : A.attachedLast = .kvo <;> simp [hl, getMethodNoSuper_cons, hcd]
  | some s =>
    have hcs := (ne_class_of_colon (setterForGetter_colon hk)).symm
    by_cases hl : A.attachedLast = .kvo <;> simp [hl, getMethodNoSuper_cons, hcd, hcs]

/-- The two files that install a hook for `dealloc`. -/
theorem dynamicClass_dealloc (A : AppOf S G V) (hne : A.attachedLast ≠ .kvo) (C : NSString)
    (k : Option NSString) :
    (dynamicClass A C k).getMethodNoSuper (lit "dealloc") = some (.kvoDealloc A.attachedLast) := by
  unfold dynamicClass notifyingMethods
  simp [hne, getMethodNoSuper_cons]

/-- Of the selectors with an argument a dynamic class has the one it was built for. -/
theorem dynamicClass_setter (A : AppOf S G V) (C : NSString) (k : Option NSString) {s : NSString}
    (hs : lit ":" <:+ s) :
    (dynamicClass A C k).getMethodNoSuper s =
      if setterForGetter A.table k = some s then some (.kvoSetter A.attachedLast) else none := by
  have hsd := ne_dealloc_of_colon hs
  have hsc := ne_class_of_colon hs
  unfold dynamicClass notifyingMethods
  cases hk : setterForGetter A.table k with
  | none => by_cases hl : A.attachedLast = .kvo <;> simp [hl, getMethodNoSuper_cons, hsd, hsc]
  | some s' =>
    have he : s = s' ↔ s' = s := eq_comm
    by_cases hl : A.attachedLast = .kvo <;> simp [hl, getMethodNoSuper_cons, hsd, hsc, he]

/-- Of the other selectors it has `class` and `dealloc`. -/
theorem dynamicClass_getter (A : AppOf S G V) (C : NSString) (k : Option NSString) {s : NSString}
    (hs : ¬ lit ":" <:+ s) (hc : s ≠ lit "class") (hd : s ≠ lit "dealloc") :
    (dynamicClass A C k).getMethodNoSuper s = none := by
  unfold dynamicClass notifyingMethods
  cases hk : setterForGetter A.table k with
  | none => by_cases hl : A.attachedLast = .kvo <;> simp [hl, getMethodNoSuper_cons, hd, hc]
  | some s' =>
    have he : s ≠ s' := fun e => hs (e ▸ setterForGetter_colon hk)
    by_cases hl : A.attachedLast = .kvo <;> simp [hl, getMethodNoSuper_cons, hd, hc, he]

/-- No class of the application is named as a dynamic class. -/
theorem base_name_ne (A : AppOf S G V) (C : NSString) :
    ∀ c ∈ A.classes.map (·.mapImp IMPOf.body), c.name ≠ notifying C := by
  intro c hc e
  obtain ⟨d, hd, rfl⟩ := List.mem_map.mp hc
  have hd' : d.name = notifying C := e
  exact A.not_notifying d hd (hd' ▸ List.prefix_append _ _)

/-- The classes registered by the calls `h`: one for each class that was added to. -/
structure Dynamic (A : AppOf S G V) (h : List (Op V))
    (new : Registry NSString NSString (IMPOf S G)) : Prop where
  nodup : (new.map (·.name)).Nodup
  entry : ∀ c ∈ new, ∃ x k, firstKey A h (A.classOf x) = some k ∧
    c = dynamicClass A (A.classOf x) k
  complete : ∀ x k, firstKey A h (A.classOf x) = some k → dynamicClass A (A.classOf x) k ∈ new

namespace Dynamic

variable {A : AppOf S G V} {h : List (Op V)} {new : Registry NSString NSString (IMPOf S G)}

theorem nil (A : AppOf S G V) : Dynamic A [] [] where
  nodup := List.nodup_nil
  entry c hc := by simp at hc
  complete x k hk := by simp [firstKey] at hk

theorem name_ne_classOf (hd : Dynamic A h new) (x : Oid) : ∀ c ∈ new, c.name ≠ A.classOf x := by
  intro c hc
  obtain ⟨y, k, _, rfl⟩ := hd.entry c hc
  exact notifying_ne_classOf A _ x

/-- A class without a first key has no dynamic class. -/
theorem name_ne_notifying (hd : Dynamic A h new) {x : Oid}
    (hk : firstKey A h (A.classOf x) = none) : ∀ c ∈ new, c.name ≠ notifying (A.classOf x) := by
  intro c hc e
  obtain ⟨y, k, hy, rfl⟩ := hd.entry c hc
  rw [notifying_inj.mp e, hk] at hy
  cases hy

/-- A call that adds to no class without a first key registers nothing. -/
theorem snoc_old (hd : Dynamic A h new) {op : Op V}
    (hop : ∀ x, firstKey A h (A.classOf x) = none → keyFor A (A.classOf x) op = none) :
    Dynamic A (h ++ [op]) new := by
  have same : ∀ x, firstKey A (h ++ [op]) (A.classOf x) = firstKey A h (A.classOf x) := by
    intro x
    rw [firstKey_snoc]
    cases hk : firstKey A h (A.classOf x) with
    | some k => rfl
    | none => rw [hop x hk]; rfl
  refine ⟨hd.nodup, fun c hc => ?_, fun x k hk => hd.complete x k (by rw [← same x]; exact hk)⟩
  obtain ⟨x, k, hk, e⟩ := hd.entry c hc
  exact ⟨x, k, by rw [same x]; exact hk, e⟩

/-- The first add on a class registers its dynamic class. -/
theorem snoc_new (hd : Dynamic A h new) {op : Op V} {x : Oid} {k : Option NSString}
    (hop : adds op = some (x, k)) (hk : firstKey A h (A.classOf x) = none) :
    Dynamic A (h ++ [op]) (dynamicClass A (A.classOf x) k :: new) := by
  have hx : firstKey A (h ++ [op]) (A.classOf x) = some k := by
    rw [firstKey_snoc, hk]
    simp [keyFor, hop]
  refine ⟨?_, fun c hc => ?_, fun y k' hk' => ?_⟩
  · rw [List.map_cons, List.nodup_cons]
    refine ⟨fun hmem => ?_, hd.nodup⟩
    obtain ⟨c, hc, e⟩ := List.mem_map.mp hmem
    exact hd.name_ne_notifying hk c hc e
  · rcases List.mem_cons.mp hc with rfl | hc
    · exact ⟨x, k, hx, rfl⟩
    · obtain ⟨y, k', hy, e⟩ := hd.entry c hc
      exact ⟨y, k', by rw [firstKey_snoc, hy]; rfl, e⟩
  · by_cases e : A.classOf y = A.classOf x
    · rw [e, hx] at hk'
      cases hk'
      rw [e]
      exact List.mem_cons_self
    · have hno : keyFor A (A.classOf y) op = none := by
        simp only [keyFor, hop]
        exact if_neg fun e' => e e'.symm
      rw [firstKey_snoc, hno, Option.or_none] at hk'
      exact List.mem_cons_of_mem _ (hd.complete y k' hk')

end Dynamic

/-! ## Refinement -/

/-- The process is in the state that the calls `h` describe. -/
structure Refines (A : AppOf S G V) (h : List (Op V)) (w : WorldOf S G σ) : Prop where
  isa : ∀ x, w.isa x = if observed h x then notifying (A.classOf x) else A.classOf x
  observer : ∀ key x, w.observer key x = lastObserver A key h x
  infos : ∀ x, (w.infos x).getD [] = blocksOf h x
  classes : ∃ new, w.classes = new ++ A.classes.map (·.mapImp .body) ∧ Dynamic A h new

namespace Refines

variable {A : AppOf S G V} {h : List (Op V)} {w : WorldOf S G σ}

theorem start (A : AppOf S G V) (ivars : Oid → σ) : Refines A [] (A.start ivars) where
  isa _ := rfl
  observer _ _ := rfl
  infos _ := rfl
  classes := ⟨[], rfl, Dynamic.nil A⟩

/-- A base class keeps its methods. -/
theorem getMethod_base (hr : Refines A h w) (x : Oid) (s : NSString) :
    getMethod w.classes (A.classOf x) s = (getMethod A.classes (A.classOf x) s).map .body := by
  obtain ⟨new, hc, hd⟩ := hr.classes
  rw [hc, getMethod_append (hd.name_ne_classOf x), getMethod_mapImp]

/-- A dynamic class answers from its own table and then as its base class. -/
theorem getMethod_dynamic (hr : Refines A h w) {x : Oid} {k : Option NSString}
    (hk : firstKey A h (A.classOf x) = some k) (s : NSString) :
    getMethod w.classes (notifying (A.classOf x)) s =
      ((dynamicClass A (A.classOf x) k).getMethodNoSuper s).or
        ((getMethod A.classes (A.classOf x) s).map .body) := by
  rw [← hr.getMethod_base x s]
  obtain ⟨new, hc, hd⟩ := hr.classes
  have hm := getMethod_of_mem hd.nodup (hd.complete x k hk) rfl (hd.name_ne_classOf x)
    (A.classes.map (·.mapImp .body)) s
  rw [hc, getMethod_append (hd.name_ne_classOf x)]
  exact hm

/-- The hierarchy of a base class is that of the start of the process. -/
theorem hierarchy_base (hr : Refines A h w) (x : Oid) :
    hierarchy w.classes (A.classOf x) =
      (hierarchy A.classes (A.classOf x)).map (·.mapImp .body) := by
  obtain ⟨new, hc, hd⟩ := hr.classes
  rw [hc, hierarchy_append (hd.name_ne_classOf x), hierarchy_mapImp]

/-- A dynamic class comes below its base class. -/
theorem hierarchy_dynamic (hr : Refines A h w) {x : Oid} {k : Option NSString}
    (hk : firstKey A h (A.classOf x) = some k) :
    hierarchy w.classes (notifying (A.classOf x)) =
      dynamicClass A (A.classOf x) k :: (hierarchy A.classes (A.classOf x)).map (·.mapImp .body) := by
  obtain ⟨new, hc, hd⟩ := hr.classes
  rw [hc, ← hierarchy_mapImp]
  exact hierarchy_of_mem hd.nodup (hd.complete x k hk) rfl (hd.name_ne_classOf x) _

theorem getClass_dynamic (hr : Refines A h w) {x : Oid} {k : Option NSString}
    (hk : firstKey A h (A.classOf x) = some k) :
    getClass w.classes (notifying (A.classOf x)) = some (dynamicClass A (A.classOf x) k) := by
  obtain ⟨new, hc, hd⟩ := hr.classes
  rw [hc]
  exact getClass_of_mem hd.nodup (hd.complete x k hk) _

theorem getClass_none (hr : Refines A h w) {x : Oid} (hk : firstKey A h (A.classOf x) = none) :
    getClass w.classes (notifying (A.classOf x)) = none := by
  obtain ⟨new, hc, hd⟩ := hr.classes
  rw [hc, getClass_append (hd.name_ne_notifying hk)]
  exact List.find?_eq_none.mpr fun c hc => by simpa using base_name_ne A _ c hc

theorem getSuperclass_dynamic (hr : Refines A h w) {x : Oid} {k : Option NSString}
    (hk : firstKey A h (A.classOf x) = some k) :
    getSuperclass w.classes (notifying (A.classOf x)) = some (A.classOf x) := by
  rw [getSuperclass, hr.getClass_dynamic hk]
  rfl

/-- `[x class]` answers the class `x` was created with. -/
theorem classMessage_eq (hr : Refines A h w) (x : Oid) : classMessage w x = some (A.classOf x) := by
  unfold classMessage
  rw [hr.isa x]
  cases hx : observed h x with
  | false =>
    simp only [Bool.false_eq_true, ↓reduceIte]
    rw [hr.getMethod_base x, A.class_inherited x]
    rfl
  | true =>
    obtain ⟨k, hk⟩ := firstKey_of_observed A hx
    have hisa : w.isa x = notifying (A.classOf x) := by rw [hr.isa x, hx]; rfl
    have hsuper : kvoClass w x = some (A.classOf x) := by
      rw [kvoClass, hisa, hr.getSuperclass_dynamic hk]
    simp only [↓reduceIte]
    rw [hr.getMethod_dynamic hk, dynamicClass_class, Option.some_or]
    cases A.attachedLast <;> exact hsuper

/-- What `createClass:` does for an add. -/
theorem createClass_eq (hr : Refines A h w) {op : Op V} {x : Oid} {k : Option NSString}
    (hop : adds op = some (x, k)) :
    ∃ classes, createClass A k w x = some (notifying (A.classOf x), { w with classes := classes }) ∧
      ∃ new, classes = new ++ A.classes.map (·.mapImp .body) ∧ Dynamic A (h ++ [op]) new := by
  obtain ⟨new, hc, hd⟩ := hr.classes
  rw [Registrations.createClass_eq A k (hr.classMessage_eq x)]
  cases hk : firstKey A h (A.classOf x) with
  | some k' =>
    rw [hr.getClass_dynamic hk]
    refine ⟨w.classes, rfl, new, hc, hd.snoc_old fun y hy => ?_⟩
    have hne : A.classOf x ≠ A.classOf y := fun e => by rw [← e, hk] at hy; cases hy
    simp [keyFor, hop, hne]
  | none =>
    rw [hr.getClass_none hk]
    exact ⟨_, rfl, dynamicClass A (A.classOf x) k :: new, by rw [hc]; rfl, hd.snoc_new hop hk⟩

end Refines

section OneCall

variable {A : AppOf S G V} {h : List (Op V)} {w : WorldOf S G σ} {op : Op V} {x : Oid}

/-- Instance variables are not described. -/
theorem refines_of_onlyIvars {w' : WorldOf S G σ} (hr : Refines A h w) (hf : OnlyIvars x w w') :
    Refines A h w' where
  isa y := (congrFun hf.isa y).trans (hr.isa y)
  observer key y := (congrFun (congrFun hf.observer key) y).trans (hr.observer key y)
  infos y := (congrArg (·.getD []) (congrFun hf.infos y)).trans (hr.infos y)
  classes := by
    rw [hf.classes]
    exact hr.classes

/-- A call that adds and stores nothing may change the class of an object. -/
theorem refines_unstored (hr : Refines A h w) (hadd : adds op = none) (hassoc : associates op = none)
    (hblock : registersBlock op = none) {isa : Oid → NSString}
    (hisa : ∀ y, isa y =
      if observed (h ++ [op]) y then notifying (A.classOf y) else A.classOf y) :
    Refines A (h ++ [op]) { w with isa := isa } := by
  obtain ⟨new, hc, hd⟩ := hr.classes
  refine ⟨hisa, fun key y => ?_, fun y => ?_, new, hc, hd.snoc_old fun y _ => ?_⟩
  · rw [lastObserver_snoc, lastObserverStep, hassoc]
    exact hr.observer key y
  · rw [blocksOf_snoc, blockFor, hblock, Option.toList_none, List.append_nil]
    exact hr.infos y
  · simp [keyFor, hadd]

theorem refines_restored (hr : Refines A h w) (hadd : adds op = none) (hassoc : associates op = none)
    (hblock : registersBlock op = none) (hres : restores op = some x) :
    Refines A (h ++ [op]) (restoreClass (V := V) w x).world := by
  rw [restoreClass, hr.classMessage_eq x]
  refine refines_unstored hr hadd hassoc hblock fun y => ?_
  rw [observed_snoc, observedStep, hadd, hres]
  by_cases e : y = x
  · subst e
    simp
  · have e' : ¬ x = y := fun he => e he.symm
    simp [e, e', hr.isa y]

/-- The receiver of an add has its dynamic class. -/
theorem isa_added (hr : Refines A h w) {k : Option NSString} (hadd : adds op = some (x, k))
    (y : Oid) :
    (if y = x then notifying (A.classOf x) else w.isa y) =
      if observed (h ++ [op]) y then notifying (A.classOf y) else A.classOf y := by
  rw [observed_snoc, observedStep, hadd]
  by_cases e : y = x
  · subst e
    simp
  · have e' : ¬ x = y := fun he => e he.symm
    have hres : restores op = none := by cases op <;> simp [adds] at hadd <;> rfl
    simp [e, e', hres, hr.isa y]

/-- An add of an observer stores it under the address of its file. -/
theorem refines_stored (hr : Refines A h w) {file : Category} {o : Option Oid} {k : Option NSString}
    (hadd : adds op = some (x, k)) (hassoc : associates op = some (file, x, o))
    (hblock : registersBlock op = none) :
    Refines A (h ++ [op]) (addObserverWith A file o k w x).world := by
  obtain ⟨classes, hcreate, hnew⟩ := hr.createClass_eq hadd
  have hisa := isa_added hr hadd
  rw [addObserverWith, hcreate]
  refine ⟨hisa, fun key y => ?_, fun y => ?_, hnew⟩
  · rw [lastObserver_snoc, lastObserverStep, hassoc, ← hr.observer key y]
    by_cases e1 : key = A.objc file <;> by_cases e2 : y = x <;>
      simp [WorldOf.setObserver, WorldOf.objectSetClass, e1, e2, eq_comm]
  · rw [blocksOf_snoc, blockFor, hblock, Option.toList_none, List.append_nil]
    exact hr.infos y

/-- An add of a block appends its entry. -/
theorem refines_pdAddObserverBlock (hr : Refines A h w) (o : Option Oid) (k : Option NSString)
    (b : Option Nat) :
    Refines A (h ++ [.pdAddObserverBlock x o k b]) (pdAddObserverBlock A o k b w x).world := by
  have hadd : adds (.pdAddObserverBlock x o k b : Op V) = some (x, k) := rfl
  obtain ⟨classes, hcreate, hnew⟩ := hr.createClass_eq hadd
  have hisa := isa_added hr hadd
  rw [pdAddObserverBlock, hcreate]
  refine ⟨hisa, fun key y => ?_, fun y => ?_, hnew⟩
  · rw [lastObserver_snoc]
    exact hr.observer key y
  · rw [blocksOf_snoc, ← hr.infos y]
    by_cases e : y = x
    · subst e
      simp [WorldOf.setInfos, WorldOf.objectSetClass, blockFor, registersBlock]
    · have e' : ¬ x = y := fun he => e he.symm
      simp [WorldOf.setInfos, WorldOf.objectSetClass, blockFor, registersBlock, e, e']

/-- A message changes nothing that is described. -/
theorem refines_message {run : Code S G σ V} (hrun : run.Local) (hr : Refines A h w)
    (cmd : SetterSEL) (v : Option V) :
    Refines A (h ++ [.message x cmd v]) (run.msgSend A w x cmd v).world := by
  have hidle : Refines A (h ++ [.message x cmd v]) { w with isa := w.isa } :=
    refines_unstored hr rfl rfl rfl fun y => by
      rw [observed_snoc]
      exact hr.isa y
  exact refines_of_onlyIvars hidle (hrun.msgSend A w x cmd v)

end OneCall

section Runs

variable {run : Code S G σ V} {A : AppOf S G V}

/-- One call keeps the process in the state that its history describes. -/
theorem refines_perform (hrun : run.Local) {h : List (Op V)} {w : WorldOf S G σ}
    (hr : Refines A h w) (op : Op V) : Refines A (h ++ [op]) (run.perform A w op).world := by
  cases op with
  | gvAddObserver x o k => exact refines_stored hr rfl rfl rfl
  | zbAddObserver x o k => exact refines_stored hr rfl rfl rfl
  | pdAddObserver x o k => exact refines_stored hr rfl rfl rfl
  | pdAddObserverBlock x o k b => exact refines_pdAddObserverBlock hr o k b
  | gvRemoveObserver x o k => exact refines_restored hr rfl rfl rfl rfl
  | zbRemoveObserver x o k => exact refines_restored hr rfl rfl rfl rfl
  | pdRemoveObserver x o k => exact refines_restored hr rfl rfl rfl rfl
  | myDealloc x => exact refines_restored hr rfl rfl rfl rfl
  | pdMyDealloc x => exact refines_restored hr rfl rfl rfl rfl
  | message x cmd v => exact refines_message hrun hr cmd v

/-- **Refinement.**  Every run leaves the process in the state that its calls
describe. -/
theorem refines_run (hrun : run.Local) (A : AppOf S G V) (ivars : Oid → σ) (h : List (Op V)) :
    Refines A h (run.after A ivars h) :=
  (run.process A).run_induction (P := Refines A) (Refines.start A ivars)
    (fun _ _ op hr => refines_perform hrun hr op) h

end Runs

section Direct

variable {A : App σ V} {h : List (Op V)} {w : World σ V}

theorem refines_step (hr : Refines A h w) (op : Op V) :
    Refines A (h ++ [op]) (perform A w op).world :=
  refines_perform local_direct hr op

theorem refines_after (A : App σ V) (ivars : Oid → σ) (h : List (Op V)) :
    Refines A h (A.after ivars h) :=
  refines_run local_direct A ivars h

end Direct

end BottomResearch.Registrations
