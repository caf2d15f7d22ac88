import BottomResearch.Interception
import Mathlib.Data.List.Nodup

/-!
# The three categories in one process

The three files define `createClass:` and build a class of one name, so the
category attached last decides which setter every add installs.  Proved here:

* `delivered_iff_matches`: in a run of registrations for one key of one class,
  one for each object, a message is delivered to the observer or block of its
  receiver once exactly when the receiver was registered through the category
  attached last, or through the other observer category if their files share the
  association key, and the accessors of the class return.
-/

namespace BottomResearch.Coexistence

open Foundation Dispatch Runs Observing Registrations Messages Interception

variable {σ V : Type}

/-! ## Registrations -/

/-- A call of `gv_addObserver:`, `zb_addObserver:` or `pd_addObserverBlock:`. -/
inductive Registration
  | gv (x observer : Oid)
  | zb (x observer : Oid)
  | pd (x : Oid) (observer : Option Oid) (handleBlock : Nat)

namespace Registration

def receiver : Registration → Oid
  | gv x _ | zb x _ | pd x _ _ => x

/-- The category whose method is called. -/
def api : Registration → Category
  | gv .. => .kvo
  | zb .. => .autoDeallocKVO
  | pd .. => .blockKVO

def op (k : NSString) : Registration → Op V
  | gv x o => .gvAddObserver x (some o) (some k)
  | zb x o => .zbAddObserver x (some o) (some k)
  | pd x o b => .pdAddObserverBlock x o (some k) (some b)

/-- The call reaches the observer or the block that was registered. -/
def reached : Registration → Event V → Bool
  | gv _ o, .observeValueForKeyPath o' .. | zb _ o, .observeValueForKeyPath o' .. => o' = o
  | pd _ _ b, .hanleBlock _ _ b' .. => b' = b
  | _, _ => false

theorem adds_op (r : Registration) (k : NSString) :
    adds (r.op k : Op V) = some (r.receiver, some k) := by
  cases r <;> rfl

theorem restores_op (r : Registration) (k : NSString) : restores (r.op k : Op V) = none := by
  cases r <;> rfl

theorem touches_op (r : Registration) (k : NSString) : Touches r.receiver (r.op k : Op V) :=
  Or.inl (by rw [adds_op]; rfl)

end Registration

/-- A run of registrations for `k` on objects of class `C`, one for each object,
and of messages. -/
structure Mixed (A : App σ V) (C k : NSString) (ops : List (Op V)) : Prop where
  calls : ∀ op ∈ ops, (∃ r : Registration, op = r.op k ∧ A.classOf r.receiver = C) ∨
    ∃ x cmd v, op = .message x cmd v
  once : ((ops.filterMap adds).map (·.1)).Nodup

/-- The registrations that the category attached last serves. -/
def Matches (A : App σ V) (api : Category) : Prop :=
  if A.attachedLast = .blockKVO then api = .blockKVO
  else api ≠ .blockKVO ∧ A.objc api = A.objc A.attachedLast

/-- The accessors of the class that the notifying setter calls return. -/
def Returns (A : App σ V) (w : World σ V) (x : Oid) (k cmd : NSString) (v : Option V) : Prop :=
  Stores A w x cmd v ∧ (A.attachedLast = .blockKVO → ∃ old, baseGet A x k (w.ivars x) = .ok old)

/-! ## What one registration leaves -/

section Run

variable {A : App σ V} {C k : NSString} {ops : List (Op V)}

/-- No other call of the run touches the receiver. -/
theorem touches_once (hrun : Mixed A C k ops) {r : Registration} {pre post : List (Op V)}
    (e : ops = pre ++ r.op k :: post) : ∀ j ∈ pre ++ post, ¬ Touches r.receiver j := by
  have hadd : ∀ j ∈ ops, Touches r.receiver j → ∃ k', adds j = some (r.receiver, k') := by
    intro j hj ht
    rcases hrun.calls j hj with ⟨r', rfl, _⟩ | ⟨x, cmd, v, rfl⟩
    · rcases ht with ht | ht
      · rw [r'.adds_op] at ht
        exact ⟨some k, by rw [r'.adds_op, ← Option.some.inj ht]⟩
      · rw [r'.restores_op] at ht
        cases ht
    · rcases ht with ht | ht <;> cases ht
  intro j hj ht
  obtain ⟨k', ha⟩ := hadd j (by
    rw [e]
    rcases List.mem_append.mp hj with hj | hj
    · exact List.mem_append_left _ hj
    · exact List.mem_append_right _ (List.mem_cons_of_mem _ hj)) ht
  have hn := hrun.once
  rw [e, List.filterMap_append, List.filterMap_cons_some (r.adds_op k), List.map_append,
    List.map_cons, List.nodup_middle, List.nodup_cons, ← List.map_append, ← List.filterMap_append] at hn
  exact hn.1 (List.mem_map.mpr ⟨_, List.mem_filterMap.mpr ⟨j, hj, ha⟩, rfl⟩)

theorem last_registration (hrun : Mixed A C k ops) {r : Registration} {pre post : List (Op V)}
    (e : ops = pre ++ r.op k :: post) : Last (Touches r.receiver) ops pre (r.op k) post where
  split := e
  here := r.touches_op k
  later j hj := touches_once hrun e j (List.mem_append_right pre hj)

/-- The observer that the run stored under `key` on the receiver. -/
theorem lastObserver_registration (hrun : Mixed A C k ops) {r : Registration}
    {pre post : List (Op V)} (e : ops = pre ++ r.op k :: post) (key : Nat) :
    lastObserver A key ops r.receiver = lastObserverStep A key r.receiver none (r.op k) := by
  have hf : ∀ o j, ¬ Touches r.receiver j → lastObserverStep A key r.receiver o j = o :=
    fun o _ hj => lastObserverStep_of_not_touches A key hj o
  have hpre : pre.foldl (lastObserverStep A key r.receiver) none = none :=
    foldl_of_not hf (fun j hj => touches_once hrun e j (List.mem_append_left post hj)) none
  rw [lastObserver, (last_registration hrun e).foldl_eq hf, hpre]

/-- The entries of the receiver's array. -/
theorem blocksOf_registration (hrun : Mixed A C k ops) {r : Registration}
    {pre post : List (Op V)} (e : ops = pre ++ r.op k :: post) :
    blocksOf ops r.receiver = (blockFor r.receiver (r.op k : Op V)).toList := by
  have hno : ∀ js : List (Op V), (∀ j ∈ js, ¬ Touches r.receiver j) →
      js.filterMap (blockFor r.receiver) = [] := fun js hjs =>
    List.filterMap_eq_nil_iff.mpr fun j hj => blockFor_of_not_touches (hjs j hj)
  have hpre := hno pre fun j hj => touches_once hrun e j (List.mem_append_left post hj)
  have hpost := hno post fun j hj => touches_once hrun e j (List.mem_append_right pre hj)
  rw [e, blocksOf, List.filterMap_append, hpre, List.nil_append]
  cases hb : blockFor r.receiver (r.op k : Op V) with
  | none => rw [List.filterMap_cons_none hb, hpost, Option.toList_none]
  | some info => rw [List.filterMap_cons_some hb, hpost, Option.toList_some]

/-- Every registered object has its setter intercepted. -/
theorem intercepts_registration (hrun : Mixed A C k ops) {r : Registration}
    {pre post : List (Op V)} (e : ops = pre ++ r.op k :: post) {s : NSString}
    (hs : setterForGetter A.table (some k) = some s) : Intercepts A ops r.receiver s := by
  refine ⟨(observed_of_last (last_registration hrun e)).mpr (by rw [r.adds_op]; rfl), ?_⟩
  have hr : r.op k ∈ ops := by
    rw [e]
    exact List.mem_append_right pre List.mem_cons_self
  obtain ⟨k', hk'⟩ := exists_firstKey A hr (r.adds_op k)
  obtain ⟨op', hop', y, ha, _⟩ := firstKey_mem hk'
  rw [overridden, hk']
  rcases hrun.calls op' hop' with ⟨r', rfl, _⟩ | ⟨x, cmd, v, rfl⟩
  · rw [r'.adds_op] at ha
    cases ha
    exact hs
  · cases ha

/-- The setter of `file` tells the receiver's observer once exactly when the run
stored it under the association key of `file`. -/
theorem observerSetter_reaches {w : World σ V} (hw : Refines A ops w) (hrun : Mixed A C k ops)
    {r : Registration} {pre post : List (Op V)} (e : ops = pre ++ r.op k :: post) {cmd : NSString}
    (hi : Intercepts A ops r.receiver cmd) {key : NSString}
    (hkey : getterForSetter A.table cmd = .ok (some key)) (file : Category) (v : V) :
    (observerSetter A file w r.receiver cmd (some v)).events.countP r.reached = 1 ↔
      (r.api ≠ .blockKVO ∧ A.objc r.api = A.objc file) ∧ Stores A w r.receiver cmd (some v) := by
  rw [observerSetter_events hw hi hkey, lastObserver_registration hrun e]
  by_cases hs : Stores A w r.receiver cmd (some v)
  · simp only [hs, if_true, and_true]
    cases r with
    | gv x o =>
      by_cases ho : A.objc .kvo = A.objc file <;>
        simp [observerOutcome, Registration.op, Registration.receiver, Registration.reached,
          Registration.api, lastObserverStep, associates, ho]
    | zb x o =>
      by_cases ho : A.objc .autoDeallocKVO = A.objc file <;>
        simp [observerOutcome, Registration.op, Registration.receiver, Registration.reached,
          Registration.api, lastObserverStep, associates, ho]
    | pd x o b =>
      simp [observerOutcome, Registration.op, Registration.api, lastObserverStep, associates]
  · simp [hs]

/-- `pd_setter` calls the receiver's block once exactly when it was registered
through `pd_addObserverBlock:` and the class below returns. -/
theorem pdSetter_reaches {w : World σ V} (hw : Refines A ops w) (hrun : Mixed A C k ops)
    {r : Registration} {pre post : List (Op V)} (e : ops = pre ++ r.op k :: post) {cmd : NSString}
    (hi : Intercepts A ops r.receiver cmd)
    (hkey : getterForSetter A.table cmd = .ok (some k)) (v : V) :
    (pdSetter A w r.receiver cmd (some v)).events.countP r.reached = 1 ↔
      r.api = .blockKVO ∧ Stores A w r.receiver cmd (some v) ∧
        ∃ old, baseGet A r.receiver k (w.ivars r.receiver) = .ok old := by
  rw [pdSetter_events hw hi hkey, blocksOf_registration hrun e]
  cases hg : baseGet A r.receiver k (w.ivars r.receiver) with
  | error err => simp
  | ok old =>
    by_cases hs : Stores A w r.receiver cmd (some v)
    · simp only [hs, if_true, true_and]
      cases r <;>
        simp [Registration.op, Registration.receiver, Registration.reached, Registration.api,
          blockFor, registersBlock, callFirst]
    · simp [hs]

end Run

/-! ## Delivery -/

/-- In a mixed run a message to a registered object is delivered once exactly when
the category attached last serves its registration. -/
theorem delivered_iff_matches (A : App σ V) (ivars : Oid → σ) (C k : NSString) (hk : LowerFirst k)
    (ops : List (Op V)) (hrun : Mixed A C k ops) (r : Registration) (hr : r.op k ∈ ops)
    (cmd : SetterSEL) (hcmd : setterForGetter A.table (some k) = some cmd.name) (v : V) :
    (msgSend A (A.after ivars ops) r.receiver cmd (some v)).events.countP r.reached = 1 ↔
      Matches A r.api ∧ Returns A (A.after ivars ops) r.receiver k cmd.name (some v) := by
  obtain ⟨pre, post, e⟩ := List.append_of_mem hr
  have hw := refines_after A ivars ops
  have hi := intercepts_registration hrun e hcmd
  have hkey := getterForSetter_of_lowerFirst hk hcmd
  rw [msgSend_of_intercepts hw hi, notifyingSetter, Matches, Returns]
  cases hlast : A.attachedLast with
  | kvo =>
    dsimp only
    rw [tzSetter, observerSetter_reaches hw hrun e hi hkey]
    simp
  | autoDeallocKVO =>
    dsimp only
    rw [zbSetter, observerSetter_reaches hw hrun e hi hkey]
    simp
  | blockKVO =>
    dsimp only
    rw [pdSetter_reaches hw hrun e hi hkey]
    simp

/-- One object observed through `gv_addObserver:` and one through a block. -/
def gvThenPd : List (Op Nat) :=
  [(Registration.gv 1 2).op (lit "name"), (Registration.pd 3 (some 4) 10).op (lit "name")]

theorem mixed_gvThenPd : Mixed personApp (lit "Person") (lit "name") gvThenPd where
  calls op hop := by
    rcases List.mem_cons.mp hop with rfl | hop
    · exact Or.inl ⟨.gv 1 2, rfl, rfl⟩
    · rw [List.mem_singleton.mp hop]
      exact Or.inl ⟨.pd 3 (some 4) 10, rfl, rfl⟩
  once := by decide

theorem delivered_iff_matches_name :
    (msgSend personApp (personApp.after (fun _ _ => none) gvThenPd) 3 setName (some 7)).events.countP
        (Registration.pd 3 (some 4) 10).reached = 1 ↔
      Matches personApp .blockKVO ∧
        Returns personApp (personApp.after (fun _ _ => none) gvThenPd) 3 (lit "name")
          (lit "setName:") (some 7) :=
  delivered_iff_matches personApp _ (lit "Person") (lit "name") ⟨_, _, rfl, rfl⟩ gvThenPd
    mixed_gvThenPd (.pd 3 (some 4) 10) (List.mem_cons_of_mem _ List.mem_cons_self) setName
    (by decide) 7

/-- In the order in which the project compiles the files the observer is not told. -/
theorem gv_observer_not_told :
    Mixed personApp (lit "Person") (lit "name") gvThenPd ∧
      (msgSend personApp (personApp.after (fun _ _ => none) gvThenPd) 1 setName
        (some 7)).events.countP (Registration.gv 1 2).reached ≠ 1 :=
  ⟨mixed_gvThenPd, by decide⟩

end BottomResearch.Coexistence
