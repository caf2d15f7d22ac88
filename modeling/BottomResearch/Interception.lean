import BottomResearch.Messages

/-!
# The dynamic classes over whole runs

Proved here:

* `isaDiscipline_after`: in every state of every run the isa of an object is
  its class or the one dynamic class of that class, `-class` answers the
  class, no dynamic class has a dynamic class, and a removal restores the isa;
* `intercepted_iff_oneKeyPerClass`: with one category by itself every added
  key is intercepted in every state exactly when all adds on objects of one
  class name one key.
-/

namespace BottomResearch.Interception

open Foundation Dispatch Runs Observing Registrations Messages

variable {σ V : Type}

/-! ## The isa pointers -/

/-- The classes registered under a name. -/
def registered (w : World σ V) (n : NSString) : Registry NSString NSString (IMP σ V) :=
  w.classes.filter fun c => c.name = n

/-- The class of `x` is the base class or the single dynamic class over it. -/
def IsaOfClass (A : App σ V) (w : World σ V) (x : Oid) : Prop :=
  w.isa x = A.classOf x ∨
    w.isa x = notifying (A.classOf x) ∧
      ∃ c, registered w (notifying (A.classOf x)) = [c] ∧ c.superclass = some (A.classOf x)

structure IsaDiscipline (A : App σ V) (w : World σ V) : Prop where
  isa : ∀ x, IsaOfClass A w x
  class_answer : ∀ x, classMessage w x = some (A.classOf x)
  not_twice : ∀ c ∈ w.classes, ¬ notifying notifyingPrefix <+: c.name
  restored : ∀ op x, restores op = some x → (perform A w op).world.isa x = A.classOf x

section Isa

variable {A : App σ V} {h : List (Op V)} {w : World σ V}

theorem isaOfClass_of_refines (hr : Refines A h w) (x : Oid) : IsaOfClass A w x := by
  unfold IsaOfClass
  rw [hr.isa x]
  cases hx : observed h x with
  | false => exact Or.inl rfl
  | true =>
    obtain ⟨k, hk⟩ := firstKey_of_observed A hx
    obtain ⟨new, hc, hd⟩ := hr.classes
    refine Or.inr ⟨rfl, dynamicClass A (A.classOf x) k, ?_, rfl⟩
    unfold registered
    rw [hc]
    exact filter_name_of_mem hd.nodup (hd.complete x k hk) (base_name_ne A _)

theorem not_twice_of_refines (hr : Refines A h w) :
    ∀ c ∈ w.classes, ¬ notifying notifyingPrefix <+: c.name := by
  intro c hc hp
  obtain ⟨new, hw, hd⟩ := hr.classes
  rw [hw] at hc
  rcases List.mem_append.mp hc with hc | hc
  · obtain ⟨x, k, _, rfl⟩ := hd.entry c hc
    exact classOf_not_notifying A x ((List.prefix_append_right_inj notifyingPrefix).mp hp)
  · obtain ⟨d, hd, rfl⟩ := List.mem_map.mp hc
    exact A.not_notifying d hd ((List.prefix_append _ _).trans hp)

/-- A removal restores the isa, whether the object is observed or not. -/
theorem restored_of_refines (hr : Refines A h w) {op : Op V} {x : Oid} (hop : restores op = some x) :
    (perform A w op).world.isa x = A.classOf x := by
  have hadd : adds op = none := by cases op <;> simp [restores] at hop <;> rfl
  rw [(refines_step hr op).isa x, observed_snoc, observedStep, hadd, hop]
  simp

end Isa

/-- **The isa discipline.** -/
theorem isaDiscipline_after (A : App σ V) (ivars : Oid → σ) (ops : List (Op V)) :
    IsaDiscipline A (A.after ivars ops) := by
  have hr := refines_after A ivars ops
  exact ⟨isaOfClass_of_refines hr, hr.classMessage_eq, not_twice_of_refines hr,
    fun _ _ hop => restored_of_refines hr hop⟩

/-! ## The overridden setters -/

/-- The own method list of a registered class has the notifying setter of `c` for `s`. -/
def implements (w : World σ V) (c : Category) (cls s : NSString) : Bool :=
  match getClass w.classes cls with
  | none => false
  | some entry =>
    match entry.getMethodNoSuper s with
    | some (.kvoSetter d) => decide (d = c)
    | _ => false

/-- A key that begins with a lower-case ASCII letter. -/
def LowerFirst (k : NSString) : Prop := ∃ c rest, k = c :: rest ∧ isAsciiLower c = true

/-- The category whose method a call is. -/
def category : Op V → Option Category
  | .gvAddObserver .. | .gvRemoveObserver .. => some .kvo
  | .zbAddObserver .. | .zbRemoveObserver .. | .myDealloc .. => some .autoDeallocKVO
  | .pdAddObserver .. | .pdAddObserverBlock .. | .pdRemoveObserver .. | .pdMyDealloc .. =>
    some .blockKVO
  | .message .. => none

/-- Calls of one category that add keys which begin with a lower-case ASCII letter. -/
def AddsKeys (c : Category) (ops : List (Op V)) : Prop :=
  ∀ op ∈ ops, category op = some c ∧ ∃ x k, adds op = some (x, some k) ∧ LowerFirst k

/-- Each added key is overridden by the notifying setter of `c` in the dynamic
class its object points to. -/
def Intercepted (A : App σ V) (c : Category) (ops : List (Op V)) (w : World σ V) : Prop :=
  ∀ op ∈ ops, ∀ x k, adds op = some (x, some k) →
    w.isa x = notifying (A.classOf x) ∧
      ∃ s, setterForGetter A.table (some k) = some s ∧ implements w c (w.isa x) s = true

/-- All adds on objects of one class name one key. -/
def OneKeyPerClass (A : App σ V) (ops : List (Op V)) : Prop :=
  ∀ op ∈ ops, ∀ op' ∈ ops, ∀ x x' k k', adds op = some (x, k) → adds op' = some (x', k') →
    A.classOf x = A.classOf x' → k = k'

/-! ### Keys and selectors -/

theorem exists_setter {T : CaseTable} {k : NSString} (hk : LowerFirst k) :
    ∃ s, setterForGetter T (some k) = some s := by
  obtain ⟨c, rest, rfl, _⟩ := hk
  exact ⟨_, rfl⟩

/-- A key that begins with a lower-case ASCII letter comes back from its setter. -/
theorem getterForSetter_of_lowerFirst {T : CaseTable} {k s : NSString} (hk : LowerFirst k)
    (h : setterForGetter T (some k) = some s) : getterForSetter T s = .ok (some k) := by
  obtain ⟨c, rest, rfl, hc⟩ := hk
  rw [getterForSetter_setterForGetter h, rebuiltKey_of_lower T hc]

/-- Keys that begin with a lower-case ASCII letter have different setters. -/
theorem setterForGetter_inj {T : CaseTable} {k k' s : NSString} (hk : LowerFirst k)
    (hk' : LowerFirst k') (h : setterForGetter T (some k) = some s)
    (h' : setterForGetter T (some k') = some s) : k = k' := by
  have e := (getterForSetter_of_lowerFirst hk h).symm.trans (getterForSetter_of_lowerFirst hk' h')
  exact Option.some.inj (Except.ok.inj e)

/-! ### Histories of adds -/

theorem firstKey_mem {A : App σ V} {h : List (Op V)} {C : NSString} {k : Option NSString}
    (hk : firstKey A h C = some k) : ∃ op ∈ h, ∃ x, adds op = some (x, k) ∧ A.classOf x = C := by
  obtain ⟨op, hop, e⟩ := List.exists_of_findSome?_eq_some hk
  unfold keyFor at e
  cases ha : adds op with
  | none =>
    rw [ha] at e
    cases e
  | some p =>
    obtain ⟨x, k'⟩ := p
    rw [ha] at e
    dsimp only at e
    split at e
    · next hx => cases e; exact ⟨op, hop, x, ha, hx⟩
    · cases e

/-- Without a removal what was added to stays observed. -/
theorem observed_of_adds {h : List (Op V)} (hno : ∀ op ∈ h, restores op = none) {op : Op V}
    (hop : op ∈ h) {x : Oid} {k : Option NSString} (ha : adds op = some (x, k)) :
    observed h x = true := by
  induction h using List.reverseRecOn with
  | nil => simp at hop
  | append_singleton h last ih =>
    rw [observed_snoc, observedStep]
    rcases List.mem_append.mp hop with hin | hlast
    · split
      · rfl
      · rw [hno last (List.mem_append_right h List.mem_cons_self), if_neg (by simp)]
        exact ih (fun op hm => hno op (List.mem_append_left _ hm)) hin
    · have e := List.mem_singleton.mp hlast
      subst e
      rw [if_pos (by rw [ha]; rfl)]

theorem restores_of_adds {op : Op V} {p : Oid × Option NSString} (ha : adds op = some p) :
    restores op = none := by
  cases op <;> simp [adds] at ha <;> rfl

/-! ### When every key is intercepted -/

section OneKey

variable {A : App σ V} {c : Category} {ops : List (Op V)}

/-- The dynamic class has the notifying setter of its first key and no other. -/
theorem implements_dynamic {h : List (Op V)} {w : World σ V} (hr : Refines A h w)
    (hc : A.attachedLast = c) {x : Oid} {k : Option NSString}
    (hk : firstKey A h (A.classOf x) = some k) {s : NSString} (hs : lit ":" <:+ s) :
    implements w c (notifying (A.classOf x)) s = true ↔ setterForGetter A.table k = some s := by
  unfold implements
  rw [hr.getClass_dynamic hk]
  dsimp only
  rw [dynamicClass_setter A _ k hs, hc]
  by_cases e : setterForGetter A.table k = some s
  · simp [e]
  · simp [e]

/-- The class of `x` has the notifying setter for a selector exactly when messages of
that selector to `x` are intercepted. -/
theorem implements_isa_iff {h : List (Op V)} {w : World σ V} (hr : Refines A h w)
    (hc : A.attachedLast = c) (x : Oid) {s : NSString} (hs : lit ":" <:+ s) :
    implements w c (w.isa x) s = true ↔ Intercepts A h x s := by
  rw [hr.isa x]
  cases hx : observed h x with
  | true =>
    obtain ⟨k, hk⟩ := firstKey_of_observed A hx
    rw [if_pos rfl, implements_dynamic hr hc hk hs, Intercepts, overridden, hk, Option.bind_some]
    exact ⟨fun e => ⟨hx, e⟩, fun hi => hi.2⟩
  | false =>
    rw [if_neg Bool.false_ne_true]
    have hbody : implements w c (A.classOf x) s = false := by
      obtain ⟨new, hw, hd⟩ := hr.classes
      unfold implements
      rw [hw, getClass_append (hd.name_ne_classOf x)]
      cases hg : getClass (A.classes.map (·.mapImp IMPOf.body)) (A.classOf x) with
      | none => rfl
      | some entry =>
        obtain ⟨d, _, rfl⟩ := List.mem_map.mp (List.mem_of_find?_eq_some hg)
        dsimp only
        rw [getMethodNoSuper_mapImp]
        cases d.getMethodNoSuper s <;> rfl
    rw [hbody]
    constructor
    · intro h
      cases h
    · intro hi
      cases hx.symm.trans hi.1

theorem intercepted_of_oneKey {w : World σ V} (hr : Refines A ops w) (hc : A.attachedLast = c)
    (hadds : AddsKeys c ops) (hone : OneKeyPerClass A ops) : Intercepted A c ops w := by
  intro op hop x k ha
  have hno : ∀ op ∈ ops, restores op = none := by
    intro op hm
    obtain ⟨_, y, k', ha', _⟩ := hadds op hm
    exact restores_of_adds ha'
  have hisa : w.isa x = notifying (A.classOf x) := by
    rw [hr.isa x, observed_of_adds hno hop ha]
    rfl
  obtain ⟨k', hk'⟩ := exists_firstKey A hop ha
  obtain ⟨op', hop', y, ha', hy⟩ := firstKey_mem hk'
  obtain ⟨_, z, l, hz, hl⟩ := hadds op hop
  rw [ha] at hz
  cases hz
  have e : k' = some k := hone op' hop' op hop y x k' (some k) ha' ha hy
  subst e
  obtain ⟨s, hs⟩ := exists_setter (T := A.table) hl
  refine ⟨hisa, s, hs, ?_⟩
  rw [hisa]
  exact (implements_dynamic hr hc hk' (setterForGetter_colon hs)).mpr hs

theorem key_of_intercepted {w : World σ V} (hr : Refines A ops w) (hc : A.attachedLast = c)
    (hadds : AddsKeys c ops) (hi : Intercepted A c ops w) {op : Op V} (hop : op ∈ ops) {x : Oid}
    {k : Option NSString} (ha : adds op = some (x, k)) : firstKey A ops (A.classOf x) = some k := by
  obtain ⟨_, z, l, hz, hl⟩ := hadds op hop
  rw [ha] at hz
  cases hz
  obtain ⟨hisa, s, hs, himp⟩ := hi op hop x l ha
  obtain ⟨k', hk'⟩ := exists_firstKey A hop ha
  rw [hisa] at himp
  have hs' := (implements_dynamic hr hc hk' (setterForGetter_colon hs)).mp himp
  obtain ⟨op', hop', y, ha', hy⟩ := firstKey_mem hk'
  obtain ⟨_, z', l', hz', hl'⟩ := hadds op' hop'
  rw [ha'] at hz'
  cases hz'
  rw [hk', setterForGetter_inj hl' hl hs' hs]

/-- With one category by itself every added key is intercepted in every state
exactly when each class is observed for one key. -/
theorem intercepted_iff_oneKeyPerClass (A : App σ V) (c : Category) (ivars : Oid → σ)
    (ops : List (Op V)) (hadds : AddsKeys c ops) :
    (∀ pre, pre <+: ops → Intercepted (A.alone c) c pre ((A.alone c).after ivars pre)) ↔
      OneKeyPerClass (A.alone c) ops := by
  have hc : (A.alone c).attachedLast = c := rfl
  constructor
  · intro hall op hop op' hop' x x' k k' ha ha' e
    have hr := refines_after (A.alone c) ivars ops
    have hi := hall ops (List.prefix_refl ops)
    have h1 := key_of_intercepted hr hc hadds hi hop ha
    have h2 := key_of_intercepted hr hc hadds hi hop' ha'
    rw [← e, h1] at h2
    exact Option.some.inj h2
  · intro hone pre hpre
    have hsub : ∀ op ∈ pre, op ∈ ops := fun op hm => hpre.subset hm
    exact intercepted_of_oneKey (refines_after (A.alone c) ivars pre) hc
      (fun op hm => hadds op (hsub op hm))
      (fun op hm op' hm' => hone op (hsub op hm) op' (hsub op' hm'))

end OneKey

/-! ### Two properties of one class -/

/-- The synthesized accessors of an object property without instance variable names. -/
def synthesize (k : NSString) : List (NSString × Body (NSString → Option Nat) Nat) :=
  [(k, .getter fun s => some (s k)),
   (lit "set" ++ upperFirst asciiTable k ++ lit ":",
    .setter fun s v => (fun l => if l = k then v else s l, false))]

/-- `Person` of the demos with its properties `name` and `firstName`; the
categories are attached in the order in which the project compiles them. -/
def personApp : App (NSString → Option Nat) Nat where
  table := asciiTable
  classObject _ := 0
  classes := [⟨lit "Person", some (lit "NSObject"),
    synthesize (lit "name") ++ synthesize (lit "firstName")⟩,
    ⟨lit "NSObject", none, [(lit "class", .nsobjectClass)]⟩]
  classOf _ := lit "Person"
  order := [.autoDeallocKVO, .kvo, .blockKVO]
  order_ne_nil := by decide
  objc _ := 0
  not_notifying := by decide
  class_inherited _ := rfl

def setName : SetterSEL := ⟨lit "setName:", by decide⟩

/-- Two keys of one object. -/
def nameThenFirstName : List (Op Nat) :=
  [.gvAddObserver 1 (some 2) (some (lit "name")),
   .gvAddObserver 1 (some 2) (some (lit "firstName"))]

theorem addsKeys_nameThenFirstName : AddsKeys .kvo nameThenFirstName := by
  intro op hop
  rcases List.mem_cons.mp hop with rfl | hop
  · exact ⟨rfl, 1, lit "name", rfl, _, _, rfl, rfl⟩
  · rw [List.mem_singleton.mp hop]
    exact ⟨rfl, 1, lit "firstName", rfl, _, _, rfl, rfl⟩

theorem intercepted_iff_oneKeyPerClass_name :
    (∀ pre, pre <+: nameThenFirstName → Intercepted (personApp.alone .kvo) .kvo pre
        ((personApp.alone .kvo).after (fun _ _ => none) pre)) ↔
      OneKeyPerClass (personApp.alone .kvo) nameThenFirstName :=
  intercepted_iff_oneKeyPerClass personApp .kvo _ _ addsKeys_nameThenFirstName

/-- The second key is not intercepted. -/
theorem firstName_not_intercepted :
    AddsKeys .kvo nameThenFirstName ∧
      ¬ Intercepted (personApp.alone .kvo) .kvo nameThenFirstName
        ((personApp.alone .kvo).after (fun _ _ => none) nameThenFirstName) := by
  constructor
  · exact addsKeys_nameThenFirstName
  · intro hi
    obtain ⟨_, s, hs, himp⟩ :=
      hi _ (List.mem_cons_of_mem _ List.mem_cons_self) 1 (lit "firstName") rfl
    have hset : setterForGetter asciiTable (some (lit "firstName")) = some (lit "setFirstName:") := by
      decide
    have e : s = lit "setFirstName:" := Option.some.inj (hs.symm.trans hset)
    subst e
    revert himp
    decide

end BottomResearch.Interception
