import BottomResearch.Interception

/-!
# Who is notified

`NSObject+KVO.m` by itself, and for the last result `NSObject+AutoDeallocKVO.m`
by itself.  A notification goes to the observer stored by the latest add on the
receiver, under the key path rebuilt from the setter that the dynamic class
overrides.  Proved here:

* `noSpurious_iff_covered`: every notification belongs to a registration that
  was not removed exactly when, at each message that notifies, the latest add on
  the receiver was for that key path or its observer was registered for it before;
* `removalExact_iff_removesTheLiveOne`: a removal takes away its own registration and nothing
  else exactly when the receiver is not observed or notifies nobody but the
  removed observer, and for the removed key only;
* `eachToldOnce_iff_latestOnly`: of several observers of a key only the latest is told,
  in the two files that notify observers.
-/

namespace BottomResearch.Delivery

open Foundation Dispatch Runs Observing Registrations Messages Interception

variable {σ V : Type}

/-! ## The notifications of one message -/

section Message

variable {A : App σ V} {h : List (Op V)} {w : World σ V} {x : Oid} {cmd : SetterSEL}

theorem events_of_not_intercepts (hr : Refines A h w) (hi : ¬ Intercepts A h x cmd.name)
    (v : Option V) : (msgSend A w x cmd v).events = [] := by
  rw [msgSend_of_not_intercepts hr hi]

/-- The two categories that notify observers read the association of their own file. -/
theorem events_observer (hr : Refines A h w) {c : Category} (hc : A.attachedLast = c)
    (hne : c ≠ .blockKVO) (hi : Intercepts A h x cmd.name) {key : NSString}
    (hkey : getterForSetter A.table cmd.name = .ok (some key)) (v : Option V) :
    (msgSend A w x cmd v).events =
      if Stores A w x cmd.name v then
        (observerOutcome key x (lastObserver A (A.objc c) h x) v).1
      else [] := by
  rw [msgSend_of_intercepts hr hi, notifyingSetter, hc]
  cases c with
  | kvo => exact observerSetter_events hr hi hkey .kvo v
  | autoDeallocKVO => exact observerSetter_events hr hi hkey .autoDeallocKVO v
  | blockKVO => exact absurd rfl hne

end Message

/-! ## Spurious notifications -/

/-- The calls of one category and the messages. -/
def Only (c : Category) (ops : List (Op V)) : Prop :=
  ∀ op ∈ ops, category op = some c ∨ category op = none

/-- `o` was added on `x` for `k` and not removed for it since. -/
def Registered (h : List (Op V)) (x o : Oid) (k : NSString) : Prop :=
  ∃ p1 p2, h = p1 ++ .gvAddObserver x (some o) (some k) :: p2 ∧
    .gvRemoveObserver x (some o) (some k) ∉ p2

/-- Every notification of the run belongs to a registration. -/
def NoSpurious (A : App σ V) (ivars : Oid → σ) (ops : List (Op V)) : Prop :=
  AtEach (fun pre op => ∀ o k x change,
    .observeValueForKeyPath o k x change ∈ (perform A (A.after ivars pre) op).events →
      Registered pre x o k) ops

/-- Before a message that stores through the notifying setter of `x`, the latest
add on `x` was for the key path `key` of that setter, or its observer was
registered for `key` already. -/
def Covered (A : App σ V) (ivars : Oid → σ) (pre : List (Op V)) (op : Op V) : Prop :=
  ∀ x cmd v key before o k after, op = .message x cmd (some v) →
    overridden A pre (A.classOf x) = some cmd.name →
    getterForSetter A.table cmd.name = .ok (some key) →
    Stores A (A.after ivars pre) x cmd.name (some v) →
    Last (Touches x) pre before (.gvAddObserver x (some o) k) after →
      k = some key ∨ Registered before x o key

theorem lastObserver_of_last {A : App σ V} {h before after : List (Op V)} {o : Option Oid}
    {k : Option NSString} {x : Oid} (hl : Last (Touches x) h before (.gvAddObserver x o k) after) :
    lastObserver A (A.objc .kvo) h x = o := by
  rw [lastObserver, hl.foldl_eq fun b _ hj => lastObserverStep_of_not_touches A _ hj b]
  simp [lastObserverStep, associates]

/-- While `x` is observed the last call that touched it was an add. -/
theorem exists_last_add {h : List (Op V)} (honly : Only .kvo h) {x : Oid}
    (hx : observed h x = true) :
    ∃ before o k after, Last (Touches x) h before (.gvAddObserver x o k) after := by
  obtain ⟨op, hop, k, hop'⟩ := exists_add_of_observed hx
  have ht : Touches x op := Or.inl (by rw [hop']; rfl)
  obtain ⟨before, i, after, hl⟩ := exists_last hop ht
  have ha := (observed_of_last hl).mp hx
  have hi : i ∈ h := by
    rw [hl.split]
    exact List.mem_append_right _ List.mem_cons_self
  have hcat := honly i hi
  cases i with
  | gvAddObserver y o k =>
    cases ha
    exact ⟨before, o, k, after, hl⟩
  | zbAddObserver | pdAddObserver | pdAddObserverBlock => simp [category] at hcat
  | _ => cases ha

/-- A registration is settled by the latest add. -/
theorem registered_iff_of_last {h before after : List (Op V)} {o : Oid} {k : Option NSString}
    {x : Oid} (hl : Last (Touches x) h before (.gvAddObserver x (some o) k) after) (key : NSString) :
    Registered h x o key ↔ k = some key ∨ Registered before x o key := by
  have hafter : .gvRemoveObserver x (some o) (some key) ∉ after := fun hm =>
    hl.later _ hm (Or.inr rfl)
  constructor
  · rintro ⟨p1, p2, e, hno⟩
    rcases hl.cases_split e (Or.inl rfl) with ⟨_, hi, _⟩ | ⟨mid, hb, hp2⟩
    · cases hi
      exact Or.inl rfl
    · exact Or.inr ⟨p1, mid, hb, fun hm => hno (hp2 ▸ List.mem_append_left _ hm)⟩
  · rintro (rfl | ⟨p1, p2, e, hno⟩)
    · exact ⟨before, after, hl.split, hafter⟩
    · refine ⟨p1, p2 ++ .gvAddObserver x (some o) k :: after, ?_, fun hm => ?_⟩
      · rw [hl.split, e, List.append_assoc]
        rfl
      · rcases List.mem_append.mp hm with hm | hm
        · exact hno hm
        · rcases List.mem_cons.mp hm with hm | hm
          · cases hm
          · exact hafter hm

/-- Adding and removing notify nobody. -/
theorem events_of_not_message (A : App σ V) (w : World σ V) {op : Op V}
    (hop : ∀ x cmd v, op ≠ .message x cmd v) : (perform A w op).events = [] := by
  have added : ∀ file o k x, (addObserverWith A file o k w x).events = [] := by
    intro file o k x
    unfold addObserverWith
    split <;> rfl
  have restored : ∀ x, (restoreClass (V := V) w x).events = [] := by
    intro x
    unfold restoreClass
    split <;> rfl
  cases op with
  | gvAddObserver x o k => exact added .kvo o k x
  | zbAddObserver x o k => exact added .autoDeallocKVO o k x
  | pdAddObserver x o k => exact added .blockKVO o k x
  | pdAddObserverBlock x o k b =>
    unfold perform Code.perform pdAddObserverBlock
    dsimp only
    split <;> rfl
  | gvRemoveObserver x | zbRemoveObserver x | pdRemoveObserver x | myDealloc x | pdMyDealloc x =>
    exact restored x
  | message x cmd v => exact absurd rfl (hop x cmd v)

/-- What a message of the run notifies. -/
theorem mem_events_observer {A : App σ V} {h : List (Op V)} {w : World σ V} (hr : Refines A h w)
    {c : Category} (hc : A.attachedLast = c) (hne : c ≠ .blockKVO) (x : Oid) (cmd : SetterSEL)
    (v : Option V) (e : Event V) :
    e ∈ (msgSend A w x cmd v).events ↔
      ∃ value key o, v = some value ∧ Intercepts A h x cmd.name ∧
        getterForSetter A.table cmd.name = .ok (some key) ∧ Stores A w x cmd.name (some value) ∧
        lastObserver A (A.objc c) h x = some o ∧
        e = .observeValueForKeyPath o key x (key, value) := by
  by_cases hi : Intercepts A h x cmd.name
  · obtain ⟨key, hkey⟩ := exists_getterForSetter hi
    rw [events_observer hr hc hne hi hkey]
    constructor
    · intro hm
      by_cases hs : Stores A w x cmd.name v
      · rw [if_pos hs] at hm
        cases v with
        | none => cases hm
        | some v =>
          obtain ⟨o, ho, rfl⟩ := List.mem_map.mp hm
          exact ⟨v, key, o, rfl, hi, hkey, hs, Option.mem_toList.mp ho, rfl⟩
      · rw [if_neg hs] at hm
        cases hm
    · rintro ⟨v, key', o, rfl, _, hkey', hs, ho, rfl⟩
      rw [hkey] at hkey'
      cases hkey'
      rw [if_pos hs]
      exact List.mem_map.mpr ⟨o, Option.mem_toList.mpr ho, rfl⟩
  · rw [events_of_not_intercepts hr hi]
    constructor
    · intro hm
      cases hm
    · rintro ⟨_, _, _, _, hi', _⟩
      exact absurd hi' hi

/-- Notifications are never spurious exactly when the latest adds cover them. -/
theorem noSpurious_iff_covered (A : App σ V) (ivars : Oid → σ) (ops : List (Op V))
    (honly : Only .kvo ops) :
    NoSpurious (A.alone .kvo) ivars ops ↔ AtEach (Covered (A.alone .kvo) ivars) ops := by
  refine AtEach.congr fun pre op post e => ?_
  have hpre : Only .kvo pre := fun i hi => honly i (e ▸ List.mem_append_left _ hi)
  have hr := refines_after (A.alone .kvo) ivars pre
  have hc : (A.alone .kvo).attachedLast = .kvo := rfl
  constructor
  · rintro hall x cmd v key before o k after rfl hover hkey hs hl
    have hi : Intercepts (A.alone .kvo) pre x cmd.name := ⟨(observed_of_last hl).mpr rfl, hover⟩
    have hm := (mem_events_observer hr hc (by simp) x cmd (some v) _).mpr
      ⟨v, key, o, rfl, hi, hkey, hs, lastObserver_of_last hl, rfl⟩
    exact (registered_iff_of_last hl key).mp (hall o key x _ hm)
  · intro hcov o key x change hm
    cases op with
    | message y cmd v =>
      obtain ⟨v', key', o', rfl, hi, hkey, hs, ho, e'⟩ := (mem_events_observer hr hc (by simp) y cmd v _).mp hm
      cases e'
      obtain ⟨before, o'', k, after, hl⟩ := exists_last_add hpre hi.1
      rw [lastObserver_of_last hl] at ho
      subst ho
      exact (registered_iff_of_last hl key).mpr
        (hcov x cmd v' key before o k after rfl hi.2 hkey hs hl)
    | _ =>
      rw [events_of_not_message _ _ (by simp)] at hm
      cases hm

theorem noSpurious_iff_covered_name :
    NoSpurious (personApp.alone .kvo) (fun _ _ => none)
        [.gvAddObserver 1 (some 2) (some (lit "name")), .message 1 setName (some 7)] ↔
      AtEach (Covered (personApp.alone .kvo) (fun _ _ => none))
        [.gvAddObserver 1 (some 2) (some (lit "name")), .message 1 setName (some 7)] :=
  noSpurious_iff_covered personApp _ _ fun op hop => by
    rcases List.mem_cons.mp hop with rfl | hop
    · exact Or.inl rfl
    · rw [List.mem_singleton.mp hop]
      exact Or.inr rfl

/-- A key observed on one object and another key on another object of the class. -/
def nameAndFirstName : List (Op Nat) :=
  [.gvAddObserver 1 (some 2) (some (lit "name")),
   .gvAddObserver 3 (some 4) (some (lit "firstName"))]

/-- The observer of `firstName` is told of `name`. -/
theorem spurious_name :
    ¬ NoSpurious (personApp.alone .kvo) (fun _ _ => none)
      (nameAndFirstName ++ [.message 3 setName (some 7)]) := by
  intro hall
  obtain ⟨p1, p2, e, _⟩ := hall nameAndFirstName _ [] rfl 4 (lit "name") 3 (lit "name", 7) (by decide)
  have hm : Op.gvAddObserver 3 (some 4) (some (lit "name")) ∈ nameAndFirstName := by
    rw [e]
    exact List.mem_append_right _ List.mem_cons_self
  have hne : lit "name" ≠ lit "firstName" := by decide
  simp [nameAndFirstName, hne] at hm

/-! ## Removals -/

/-- The observers that a message would notify. -/
def notified (A : App σ V) (w : World σ V) (y : Oid) (cmd : SetterSEL) (v : V) : List Oid :=
  (msgSend A w y cmd (some v)).events.filterMap fun
    | .observeValueForKeyPath o _ _ _ => some o
    | .hanleBlock .. => none

/-- The pair that a removal names is registered. -/
def PairRegistered (h : List (Op V)) (x : Oid) (o : Option Oid) (k : Option NSString) : Prop :=
  ∃ o' k', o = some o' ∧ k = some k' ∧ Registered h x o' k'

/-- `[x gv_removeObserver:o forKeyPath:k]` removes the registration of `o` on
`x` for `k` and nothing else; where that is not registered it changes nothing. -/
structure RemovalExact (A : App σ V) (h : List (Op V)) (w : World σ V) (x : Oid) (o : Option Oid)
    (k : Option NSString) : Prop where
  less : ∀ y cmd v, notified A (gvRemoveObserver (V := V) o k w x).world y cmd v =
    (notified A w y cmd v).filter fun o' =>
      ¬ (y = x ∧ setterForGetter A.table k = some cmd.name ∧ o = some o')
  stray : ¬ PairRegistered h x o k → ∀ y cmd v,
    notified A (gvRemoveObserver (V := V) o k w x).world y cmd v = notified A w y cmd v

/-- The observer that `x` notifies, and the selector that notifies it, are the removed ones,
and these are registered. -/
def RemovesTheLiveOne (A : App σ V) (h : List (Op V)) (w : World σ V) (x : Oid) (o : Option Oid)
    (k : Option NSString) : Prop :=
  observed h x = true → ∀ s o' v, overridden A h (A.classOf x) = some s →
    lastObserver A (A.objc .kvo) h x = some o' → Stores A w x s (some v) →
      o = some o' ∧ setterForGetter A.table k = some s ∧ PairRegistered h x o k

section Removal

variable {A : App σ V} {h : List (Op V)} {w : World σ V}

theorem notified_eq (hr : Refines A h w) (hc : A.attachedLast = .kvo) (y : Oid) (cmd : SetterSEL)
    (v : V) :
    notified A w y cmd v =
      if Intercepts A h y cmd.name ∧ Stores A w y cmd.name (some v) then
        (lastObserver A (A.objc .kvo) h y).toList
      else [] := by
  unfold notified
  by_cases hi : Intercepts A h y cmd.name
  · obtain ⟨key, hkey⟩ := exists_getterForSetter hi
    rw [events_observer hr hc (by simp) hi hkey]
    by_cases hs : Stores A w y cmd.name (some v)
    · rw [if_pos hs, if_pos ⟨hi, hs⟩]
      cases lastObserver A (A.objc .kvo) h y <;> rfl
    · rw [if_neg hs, if_neg fun hh => hs hh.2]
      rfl
  · rw [if_neg fun hh => hi hh.1, events_of_not_intercepts hr hi]
    rfl

theorem gvRemoveObserver_ivars (o : Option Oid) (k : Option NSString) (w : World σ V) (x : Oid) :
    (gvRemoveObserver (V := V) o k w x).world.ivars = w.ivars := by
  unfold gvRemoveObserver restoreClass
  split <;> rfl

/-- A removal ends the interception of its receiver and no other. -/
theorem intercepts_after_removal (A : App σ V) (h : List (Op V)) (x : Oid) (o : Option Oid)
    (k : Option NSString) (y : Oid) (cmd : NSString) :
    Intercepts A (h ++ [.gvRemoveObserver x o k]) y cmd ↔ y ≠ x ∧ Intercepts A h y cmd := by
  have hobs : observed (h ++ [.gvRemoveObserver x o k]) y = if y = x then false else observed h y := by
    rw [observed_snoc, observedStep]
    by_cases e : y = x
    · simp [adds, restores, e]
    · have e' : ¬ x = y := fun he => e he.symm
      simp [adds, restores, e, e']
  have hfirst : overridden A (h ++ [.gvRemoveObserver x o k]) (A.classOf y) =
      overridden A h (A.classOf y) := by
    rw [overridden, overridden, firstKey_snoc]
    simp [keyFor, adds]
  unfold Intercepts
  rw [hobs, hfirst]
  by_cases e : y = x <;> simp [e]

/-- A removal makes its receiver notify nobody and leaves every other object. -/
theorem notified_after_removal (hr : Refines A h w) (hc : A.attachedLast = .kvo) (x : Oid)
    (o : Option Oid) (k : Option NSString) (y : Oid) (cmd : SetterSEL) (v : V) :
    notified A (gvRemoveObserver (V := V) o k w x).world y cmd v =
      if y = x then [] else notified A w y cmd v := by
  have hr' : Refines A (h ++ [.gvRemoveObserver x o k]) (gvRemoveObserver (V := V) o k w x).world :=
    refines_step hr (.gvRemoveObserver x o k)
  have hlast : lastObserver A (A.objc .kvo) (h ++ [.gvRemoveObserver x o k]) y =
      lastObserver A (A.objc .kvo) h y := by
    rw [lastObserver_snoc]
    rfl
  have hs : Stores A (gvRemoveObserver (V := V) o k w x).world y cmd.name (some v) ↔
      Stores A w y cmd.name (some v) := by
    unfold Stores
    rw [gvRemoveObserver_ivars]
  rw [notified_eq hr' hc, notified_eq hr hc, hlast]
  simp only [intercepts_after_removal A h x o k y cmd.name, hs]
  by_cases e : y = x <;> simp [e]

/-- Whom `x` notifies when it is observed. -/
theorem notified_live (hr : Refines A h w) (hc : A.attachedLast = .kvo) {x : Oid} {s : NSString}
    {o' : Oid} {v : V} (hx : observed h x = true) (hs : overridden A h (A.classOf x) = some s)
    (ho : lastObserver A (A.objc .kvo) h x = some o') (hst : Stores A w x s (some v)) :
    ∃ cmd : SetterSEL, cmd.name = s ∧ notified A w x cmd v = [o'] := by
  obtain ⟨k', _, hk'⟩ := overridden_eq_some hs
  refine ⟨⟨s, setterForGetter_colon hk'⟩, rfl, ?_⟩
  rw [notified_eq hr hc, if_pos ⟨⟨hx, hs⟩, hst⟩, ho]
  rfl

/-- Where `x` notifies somebody, it is the observer and the setter that are live. -/
theorem live_of_notified (hr : Refines A h w) (hc : A.attachedLast = .kvo) {x : Oid}
    {cmd : SetterSEL} {v : V} {o' : Oid} (hm : o' ∈ notified A w x cmd v) :
    observed h x = true ∧ overridden A h (A.classOf x) = some cmd.name ∧
      lastObserver A (A.objc .kvo) h x = some o' ∧ Stores A w x cmd.name (some v) := by
  rw [notified_eq hr hc] at hm
  split at hm
  · next hh =>
    obtain ⟨⟨hx, hs⟩, hst⟩ := hh
    exact ⟨hx, hs, by simpa using hm, hst⟩
  · simp at hm

/-- A removal is exact exactly when it removes the registration that is live. -/
theorem removalExact_of_refines (hr : Refines A h w) (hc : A.attachedLast = .kvo) (x : Oid)
    (o : Option Oid) (k : Option NSString) :
    RemovalExact A h w x o k ↔ RemovesTheLiveOne A h w x o k := by
  constructor
  · intro hex hx s o' v hs ho hst
    obtain ⟨cmd, rfl, hlive⟩ := notified_live hr hc hx hs ho hst
    have hgone := hex.less x cmd v
    rw [notified_after_removal hr hc, if_pos rfl, hlive] at hgone
    have hkeep := List.filter_eq_nil_iff.mp hgone.symm o' List.mem_cons_self
    simp only [true_and, decide_not, Bool.not_eq_eq_eq_not, Bool.not_true,
      decide_eq_false_iff_not, not_not] at hkeep
    refine ⟨hkeep.2, hkeep.1, ?_⟩
    -- A stray removal would leave the observer.
    by_contra hstray
    have hsame := hex.stray hstray x cmd v
    rw [notified_after_removal hr hc, if_pos rfl, hlive] at hsame
    cases hsame
  · intro hlive
    constructor
    · intro y cmd v
      rw [notified_after_removal hr hc]
      by_cases e : y = x
      · subst e
        rw [if_pos rfl, eq_comm, List.filter_eq_nil_iff]
        intro o' hm
        obtain ⟨hx, hs, ho, hst⟩ := live_of_notified hr hc hm
        obtain ⟨h1, h2, _⟩ := hlive hx cmd.name o' v hs ho hst
        simp [h1, h2]
      · rw [if_neg e]
        exact (List.filter_eq_self.mpr fun o' _ => by simp [e]).symm
    · intro hstray y cmd v
      rw [notified_after_removal hr hc]
      by_cases e : y = x
      · subst e
        rw [if_pos rfl, eq_comm, List.eq_nil_iff_forall_not_mem]
        intro o' hm
        obtain ⟨hx, hs, ho, hst⟩ := live_of_notified hr hc hm
        exact hstray (hlive hx cmd.name o' v hs ho hst).2.2
      · rw [if_neg e]

end Removal

/-- After every run a removal is exact exactly when it removes the registration
that is live. -/
theorem removalExact_iff_removesTheLiveOne (A : App σ V) (ivars : Oid → σ) (h : List (Op V))
    (x : Oid) (o : Option Oid) (k : Option NSString) :
    RemovalExact (A.alone .kvo) h ((A.alone .kvo).after ivars h) x o k ↔
      RemovesTheLiveOne (A.alone .kvo) h ((A.alone .kvo).after ivars h) x o k :=
  removalExact_of_refines (refines_after (A.alone .kvo) ivars h) rfl x o k

/-- Removing an observer that was never added silences the one that was. -/
theorem stranger_silences :
    ¬ RemovalExact (personApp.alone .kvo) [.gvAddObserver 1 (some 2) (some (lit "name"))]
      ((personApp.alone .kvo).after (fun _ _ => none)
        [.gvAddObserver 1 (some 2) (some (lit "name"))]) 1 (some 5) (some (lit "name")) := by
  intro hex
  have h7 := hex.less 1 setName 7
  revert h7
  decide

/-! ## Several observers -/

/-- The observers that the calls of the file `c` added on `x` for `k`, in order. -/
def observersAdded (c : Category) (x : Oid) (k : NSString) (ops : List (Op V)) : List Oid :=
  ops.filterMap fun op =>
    match associates op with
    | some (file, _, o) => if file = c ∧ adds op = some (x, some k) then o else none
    | none => none

/-- `observeValueForKeyPath:` is sent to `o`. -/
def tells (o : Oid) : Event V → Bool
  | .observeValueForKeyPath o' .. => o' = o
  | .hanleBlock .. => false

def EachToldOnce (events : List (Event V)) (observers : List Oid) : Prop :=
  ∀ o ∈ observers, events.countP (tells o) = 1

/-- Only the observer of the latest add is told. -/
theorem told_iff {A : App σ V} {h : List (Op V)} {w : World σ V} (hr : Refines A h w)
    {c : Category} (hc : A.attachedLast = c) (hne : c ≠ .blockKVO) {x : Oid} {cmd : SetterSEL}
    (hi : Intercepts A h x cmd.name) (v : V) (o : Oid) :
    (msgSend A w x cmd (some v)).events.countP (tells o) = 1 ↔
      lastObserver A (A.objc c) h x = some o ∧ Stores A w x cmd.name (some v) := by
  obtain ⟨key, hkey⟩ := exists_getterForSetter hi
  rw [events_observer hr hc hne hi hkey]
  by_cases hs : Stores A w x cmd.name (some v)
  · cases ho : lastObserver A (A.objc c) h x with
    | none => simp [observerOutcome, hs]
    | some o' => simp [observerOutcome, tells, hs]
  · simp [hs]

/-- With one of the two categories by itself every observer of a list is told once
exactly when the list is empty, or has one observer and that is the latest one. -/
theorem eachToldOnce_iff_latestOnly (A : App σ V) {c : Category} (hc : c ≠ .blockKVO)
    (ivars : Oid → σ) (before run : List (Op V)) (x : Oid) (k : NSString) (cmd : SetterSEL) (v : V)
    (hset : implements ((A.alone c).after ivars (before ++ run)) c
      (((A.alone c).after ivars (before ++ run)).isa x) cmd.name = true)
    (hdistinct : (observersAdded c x k run).Nodup) :
    EachToldOnce (msgSend (A.alone c) ((A.alone c).after ivars (before ++ run)) x cmd
        (some v)).events (observersAdded c x k run) ↔
      observersAdded c x k run = [] ∨
        ∃ o, observersAdded c x k run = [o] ∧
          lastObserver (A.alone c) (A.objc c) (before ++ run) x = some o ∧
          Stores (A.alone c) ((A.alone c).after ivars (before ++ run)) x cmd.name (some v) := by
  have hr := refines_after (A.alone c) ivars (before ++ run)
  have hlast : (A.alone c).attachedLast = c := rfl
  have hi := (implements_isa_iff hr hlast x cmd.colon).mp hset
  have htold := told_iff hr hlast hc hi v
  unfold EachToldOnce
  constructor
  · intro hall
    cases hl : observersAdded c x k run with
    | nil => exact Or.inl rfl
    | cons o rest =>
      rw [hl] at hall hdistinct
      have ho := (htold o).mp (hall o List.mem_cons_self)
      -- Another observer of the list would be the latest one too.
      have hrest : rest = [] := by
        refine List.eq_nil_iff_forall_not_mem.mpr fun o' hm => ?_
        have ho' := (htold o').mp (hall o' (List.mem_cons_of_mem o hm))
        have e : o = o' := Option.some.inj (ho.1.symm.trans ho'.1)
        exact (List.nodup_cons.mp hdistinct).1 (e ▸ hm)
      exact Or.inr ⟨o, by rw [hrest], ho⟩
  · rintro (hnil | ⟨o, hone, ho⟩) o' hm
    · rw [hnil] at hm
      cases hm
    · rw [hone] at hm
      rw [List.mem_singleton.mp hm]
      exact (htold o).mpr ho

/-- Two observers of one key. -/
def twoObservers : List (Op Nat) :=
  [.gvAddObserver 1 (some 2) (some (lit "name")), .gvAddObserver 1 (some 3) (some (lit "name"))]

theorem eachToldOnce_iff_latestOnly_name :
    EachToldOnce (msgSend (personApp.alone .kvo)
        ((personApp.alone .kvo).after (fun _ _ => none) ([] ++ twoObservers)) 1 setName
        (some 7)).events (observersAdded .kvo 1 (lit "name") twoObservers) ↔
      observersAdded .kvo 1 (lit "name") twoObservers = [] ∨
        ∃ o, observersAdded .kvo 1 (lit "name") twoObservers = [o] ∧
          lastObserver (personApp.alone .kvo) (personApp.objc .kvo) ([] ++ twoObservers) 1 = some o ∧
          Stores (personApp.alone .kvo)
            ((personApp.alone .kvo).after (fun _ _ => none) ([] ++ twoObservers)) 1 setName.name
            (some 7) :=
  eachToldOnce_iff_latestOnly personApp (by decide) _ [] twoObservers 1 (lit "name") setName 7
    (by decide) (by decide)

/-- The first of two observers is not told. -/
theorem first_observer_not_told :
    implements ((personApp.alone .kvo).after (fun _ _ => none) twoObservers) .kvo
        (((personApp.alone .kvo).after (fun _ _ => none) twoObservers).isa 1) setName.name = true ∧
      observersAdded .kvo 1 (lit "name") twoObservers = [2, 3] ∧
      ¬ EachToldOnce (msgSend (personApp.alone .kvo)
        ((personApp.alone .kvo).after (fun _ _ => none) twoObservers) 1 setName (some 7)).events
        (observersAdded .kvo 1 (lit "name") twoObservers) := by
  refine ⟨by decide, by decide, fun hall => ?_⟩
  have htwo := hall 2 (by decide)
  revert htwo
  decide

end BottomResearch.Delivery
