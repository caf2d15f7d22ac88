import BottomResearch.Delivery
import BottomResearch.Transparency
import Mathlib.Data.List.TakeDrop

/-!
# Blocks and their removal

`NSObject+BlockKVO.m` by itself.  The array of an object only grows, and
`pd_setter` calls the first entry for its key path, so a block is known by its
index there.  Proved here:

* `mem_events_block`: the block a message calls is the first one ever added on the
  receiver for the key path;
* `removedStaySilent_iff_firstKept`: no block is called after its removal exactly
  when, at each message that calls one, the first block added on the receiver
  for the key path has not been removed;
* `everyBlockCalled_iff_single`: a message calls every block registered for its key
  exactly when one is;
* `givesPropertyValues_iff_keepsArguments`: a block is given the values of the property
  exactly when the setter keeps its argument.
-/

namespace BottomResearch.Blocks

open Foundation Dispatch Runs Observing Registrations Messages Interception

variable {σ V : Type}

/-! ## The array of an object -/

/-- Each entry comes from an add, and the entries before it from earlier adds. -/
theorem exists_add_of_blocksOf {h : List (Op V)} {x : Oid} {before rest : List Info} {info : Info}
    (e : blocksOf h x = before ++ info :: rest) :
    ∃ q1 q2, h = q1 ++ .pdAddObserverBlock x info.observer info.keyPath info.hanleBlock :: q2 ∧
      blocksOf q1 x = before := by
  obtain ⟨l1, l2, rfl, h1, h2⟩ := List.filterMap_eq_append_iff.mp e
  obtain ⟨m1, op, m2, rfl, hnone, hop, _⟩ := List.filterMap_eq_cons_iff.mp h2
  have hadd : op = .pdAddObserverBlock x info.observer info.keyPath info.hanleBlock := by
    cases op with
    | pdAddObserverBlock y o k b =>
      unfold blockFor registersBlock at hop
      dsimp only at hop
      split at hop
      · next hy =>
        cases hop
        rw [hy]
      · cases hop
    | _ => cases hop
  subst hadd
  refine ⟨l1 ++ m1, m2, by rw [List.append_assoc], ?_⟩
  have hm : m1.filterMap (blockFor x) = [] := List.filterMap_eq_nil_iff.mpr hnone
  rw [blocksOf, List.filterMap_append, hm, List.append_nil]
  exact h1

/-- The entry an add creates, at the end of the array. -/
theorem blocksOf_add (q1 q2 : List (Op V)) (x : Oid) (info : Info) :
    blocksOf (q1 ++ .pdAddObserverBlock x info.observer info.keyPath info.hanleBlock :: q2) x =
      blocksOf q1 x ++ info :: blocksOf q2 x := by
  simp [blocksOf, blockFor, registersBlock]

/-- The block of the entry `i` was removed: a removal of its observer and key path
was sent to `x` after it was added. -/
def Ended (h : List (Op V)) (x : Oid) (i : Nat) : Prop :=
  ∃ p1 p2 info, h = p1 ++ .pdRemoveObserver x info.observer info.keyPath :: p2 ∧
    (blocksOf p1 x)[i]? = some info

/-- A removal that comes after the add ends its entry, and nothing else does. -/
theorem ended_iff (q1 q2 : List (Op V)) (x : Oid) (info : Info) :
    Ended (q1 ++ .pdAddObserverBlock x info.observer info.keyPath info.hanleBlock :: q2) x
        (blocksOf q1 x).length ↔
      .pdRemoveObserver x info.observer info.keyPath ∈ q2 := by
  have at_i : ∀ m : List (Op V), (blocksOf (q1 ++
      .pdAddObserverBlock x info.observer info.keyPath info.hanleBlock :: m) x)[
        (blocksOf q1 x).length]? = some info := by
    intro m
    rw [blocksOf_add, List.getElem?_append_right (Nat.le_refl _), Nat.sub_self]
    rfl
  constructor
  · rintro ⟨p1, p2, other, e, hi⟩
    rcases List.append_eq_append_iff.mp e with ⟨mid, h1, h2⟩ | ⟨mid, h1, h2⟩
    · cases mid with
      | nil => cases h2
      | cons op mid =>
        obtain ⟨rfl, hq2⟩ := List.cons.inj h2
        rw [h1, at_i mid] at hi
        cases hi
        rw [hq2]
        exact List.mem_append_right mid List.mem_cons_self
    · have hlen : (blocksOf p1 x).length ≤ (blocksOf q1 x).length := by
        rw [h1, blocksOf, blocksOf, List.filterMap_append, List.length_append]
        omega
      rw [List.getElem?_eq_none hlen] at hi
      cases hi
  · intro hm
    obtain ⟨m1, m2, rfl⟩ := List.append_of_mem hm
    refine ⟨q1 ++ .pdAddObserverBlock x info.observer info.keyPath info.hanleBlock :: m1, m2, info,
      ?_, at_i m1⟩
    rw [List.append_assoc, List.cons_append]

/-! ## The block a message calls -/

/-- The class below answers the getter and stores without raising. -/
def Completes (A : App σ V) (w : World σ V) (x : Oid) (cmd key : NSString) (v : Option V) : Prop :=
  (∃ old, baseGet A x key (w.ivars x) = .ok old) ∧ Stores A w x cmd v

/-- The search calls the first entry for the key path and no other. -/
theorem mem_callFirst {x : Oid} {key : NSString} {old v : Option V} {array : List Info}
    {e : Event V} :
    e ∈ (callFirst x key old v 0 array).1 ↔
      ∃ before info rest b, array = before ++ info :: rest ∧
        (∀ o ∈ before, o.keyPath ≠ some key) ∧ info.keyPath = some key ∧
        info.hanleBlock = some b ∧ e = .hanleBlock x before.length b info.observer key old v := by
  constructor
  · intro hm
    rcases none_or_first key array with hno | ⟨before, info, rest, rfl, hno, hyes⟩
    · rw [callFirst_none hno] at hm
      cases hm
    · rw [callFirst_append hno hyes, callInfo, Nat.zero_add] at hm
      cases hbl : info.hanleBlock with
      | none =>
        rw [hbl] at hm
        cases hm
      | some b =>
        rw [hbl] at hm
        exact ⟨before, info, rest, b, rfl, hno, hyes, hbl, List.mem_singleton.mp hm⟩
  · rintro ⟨before, info, rest, b, rfl, hno, hyes, hbl, rfl⟩
    rw [callFirst_append hno hyes, callInfo, hbl, Nat.zero_add]
    exact List.mem_singleton.mpr rfl

section Message

variable {A : App σ V} {h : List (Op V)} {w : World σ V}

/-- `pd_setter` searches the array when the class below has answered and stored. -/
theorem mem_pdSetter_events (hr : Refines A h w) {x : Oid} {cmd key : NSString}
    (hi : Intercepts A h x cmd) (hkey : getterForSetter A.table cmd = .ok (some key))
    (v : Option V) (e : Event V) :
    e ∈ (pdSetter A w x cmd v).events ↔
      ∃ old, baseGet A x key (w.ivars x) = .ok old ∧ Stores A w x cmd v ∧
        e ∈ (callFirst x key old v 0 (blocksOf h x)).1 := by
  rw [pdSetter_events hr hi hkey]
  cases hg : baseGet A x key (w.ivars x) with
  | error err => simp
  | ok old =>
    dsimp only
    by_cases hs : Stores A w x cmd v
    · rw [if_pos hs]
      constructor
      · intro hm
        exact ⟨old, rfl, hs, hm⟩
      · rintro ⟨_, ⟨⟩, _, hm⟩
        exact hm
    · rw [if_neg hs]
      constructor
      · intro hm
        cases hm
      · rintro ⟨_, _, hs', _⟩
        exact absurd hs' hs

/-- A message calls the block of the first entry for the key path of its setter. -/
theorem mem_events_block (hr : Refines A h w) (hc : A.attachedLast = .blockKVO) (x : Oid)
    (cmd : SetterSEL) (v : Option V) (e : Event V) :
    e ∈ (msgSend A w x cmd v).events ↔
      ∃ key old before info rest b, Intercepts A h x cmd.name ∧
        getterForSetter A.table cmd.name = .ok (some key) ∧
        baseGet A x key (w.ivars x) = .ok old ∧ Stores A w x cmd.name v ∧
        blocksOf h x = before ++ info :: rest ∧ (∀ o ∈ before, o.keyPath ≠ some key) ∧
        info.keyPath = some key ∧ info.hanleBlock = some b ∧
        e = .hanleBlock x before.length b info.observer key old v := by
  by_cases hi : Intercepts A h x cmd.name
  · obtain ⟨key, hkey⟩ := exists_getterForSetter hi
    rw [msgSend_of_intercepts hr hi, notifyingSetter, hc]
    dsimp only
    rw [mem_pdSetter_events hr hi hkey]
    constructor
    · rintro ⟨old, hg, hs, hm⟩
      obtain ⟨before, info, rest, b, hfirst⟩ := mem_callFirst.mp hm
      exact ⟨key, old, before, info, rest, b, hi, hkey, hg, hs, hfirst⟩
    · rintro ⟨key', old, before, info, rest, b, _, hkey', hg, hs, hfirst⟩
      rw [hkey] at hkey'
      cases hkey'
      exact ⟨old, hg, hs, mem_callFirst.mpr ⟨before, info, rest, b, hfirst⟩⟩
  · rw [msgSend_of_not_intercepts hr hi]
    constructor
    · intro hm
      cases hm
    · rintro ⟨_, _, _, _, _, _, hi', _⟩
      exact absurd hi' hi

end Message

/-! ## Removed blocks -/

/-- No block is called after its removal. -/
def RemovedStaySilent (A : App σ V) (ivars : Oid → σ) (ops : List (Op V)) : Prop :=
  AtEach (fun pre op => ∀ x i b o key old v,
    .hanleBlock x i b o key old v ∈ (perform A (A.after ivars pre) op).events → ¬ Ended pre x i) ops

/-- At a message that the notifying setter completes, the first block added on
the receiver for the key path has not been removed. -/
def FirstKept (A : App σ V) (ivars : Oid → σ) (pre : List (Op V)) (op : Op V) : Prop :=
  ∀ x cmd v key q1 o b q2, op = .message x cmd v → Intercepts A pre x cmd.name →
    getterForSetter A.table cmd.name = .ok (some key) →
    Completes A (A.after ivars pre) x cmd.name key v →
    pre = q1 ++ .pdAddObserverBlock x o (some key) (some b) :: q2 →
    (∀ info ∈ blocksOf q1 x, info.keyPath ≠ some key) →
      .pdRemoveObserver x o (some key) ∉ q2

/-- Removed blocks stay silent exactly when the first block for a key path is kept. -/
theorem removedStaySilent_iff_firstKept (A : App σ V) (ivars : Oid → σ) (ops : List (Op V)) :
    RemovedStaySilent (A.alone .blockKVO) ivars ops ↔
      AtEach (FirstKept (A.alone .blockKVO) ivars) ops := by
  refine AtEach.congr fun pre op post _ => ?_
  have hr := refines_after (A.alone .blockKVO) ivars pre
  have hc : (A.alone .blockKVO).attachedLast = .blockKVO := rfl
  constructor
  · rintro hall x cmd v key q1 o b q2 rfl hi hkey ⟨⟨old, hold⟩, hs⟩ hpre hno hrem
    let info : Info := ⟨o, some key, some b⟩
    have hb : blocksOf pre x = blocksOf q1 x ++ info :: blocksOf q2 x := by
      rw [hpre]
      exact blocksOf_add q1 q2 x info
    have hm := (mem_events_block hr hc x cmd v _).mpr
      ⟨key, old, _, info, _, b, hi, hkey, hold, hs, hb, hno, rfl, rfl, rfl⟩
    refine hall x _ b o key old v hm ?_
    rw [hpre]
    exact (ended_iff q1 q2 x info).mpr hrem
  · intro hkept x i b o key old v hm hend
    cases op with
    | message y cmd v' =>
      obtain ⟨key', old', before, info, rest, b', hi, hkey, hold, hs, hb, hno, hyes, hbl, e⟩ :=
        (mem_events_block hr hc y cmd v' _).mp hm
      cases e
      obtain ⟨q1, q2, hpre, rfl⟩ := exists_add_of_blocksOf hb
      rw [hpre] at hend
      have hrem := (ended_iff q1 q2 x info).mp hend
      rw [hyes, hbl] at hpre
      rw [hyes] at hrem
      exact hkept x cmd v key q1 info.observer b q2 rfl hi hkey ⟨⟨old, hold⟩, hs⟩ hpre hno hrem
    | _ =>
      rw [Delivery.events_of_not_message _ _ (by simp)] at hm
      cases hm

/-- An add, its removal and an add for another observer. -/
def removedThenAdded : List (Op Nat) :=
  [.pdAddObserverBlock 1 (some 2) (some (lit "name")) (some 10),
   .pdRemoveObserver 1 (some 2) (some (lit "name")),
   .pdAddObserverBlock 1 (some 3) (some (lit "name")) (some 11)]

/-- The removed block is called, and the new one is not. -/
theorem removed_block_called :
    ¬ RemovedStaySilent (personApp.alone .blockKVO) (fun _ _ => none)
      (removedThenAdded ++ [.message 1 setName (some 7)]) := by
  intro hall
  refine hall removedThenAdded _ [] rfl 1 0 10 (some 2) (lit "name") none (some 7) (by decide) ?_
  exact ⟨[.pdAddObserverBlock 1 (some 2) (some (lit "name")) (some 10)],
    [.pdAddObserverBlock 1 (some 3) (some (lit "name")) (some 11)],
    ⟨some 2, some (lit "name"), some 10⟩, rfl, rfl⟩

/-! ## Several blocks -/

/-- The registrations for `k` among the entries from the index `i` on: the index, the
block and the observer of each. -/
def registrationsFor (k : NSString) : Nat → List Info → List (Nat × Nat × Option Oid)
  | _, [] => []
  | i, info :: array =>
    if info.keyPath = some k then
      (info.hanleBlock.map fun b => (i, b, info.observer)).toList ++
        registrationsFor k (i + 1) array
    else registrationsFor k (i + 1) array

/-- The blocks called, each with the observer it is given. -/
def blockCalls (events : List (Event V)) : List (Nat × Nat × Option Oid) :=
  events.filterMap fun
    | .hanleBlock _ i b o .. => some (i, b, o)
    | .observeValueForKeyPath .. => none

/-- The search calls the first registration for the key path. -/
theorem callFirst_events {array : List Info} (hb : ∀ info ∈ array, info.hanleBlock ≠ none)
    (x : Oid) (k : NSString) (old v : Option V) (i : Nat) :
    (callFirst x k old v i array).1 =
      ((registrationsFor k i array).take 1).map fun r => .hanleBlock x r.1 r.2.1 r.2.2 k old v := by
  induction array generalizing i with
  | nil => rfl
  | cons info array ih =>
    rw [callFirst, registrationsFor]
    by_cases hk : info.keyPath = some k
    · rw [if_pos hk, if_pos hk]
      cases hbl : info.hanleBlock with
      | none => exact absurd hbl (hb info List.mem_cons_self)
      | some b => rfl
    · rw [if_neg hk, if_neg hk]
      exact ih (fun o hm => hb o (List.mem_cons_of_mem info hm)) (i + 1)

theorem length_registrationsFor {array : List Info} (hb : ∀ info ∈ array, info.hanleBlock ≠ none)
    (k : NSString) (i : Nat) :
    (registrationsFor k i array).length = array.countP fun info => info.keyPath = some k := by
  induction array generalizing i with
  | nil => rfl
  | cons info array ih =>
    have hrest := ih (fun o hm => hb o (List.mem_cons_of_mem info hm)) (i + 1)
    rw [registrationsFor, List.countP_cons]
    by_cases hk : info.keyPath = some k
    · obtain ⟨b, hbl⟩ := Option.ne_none_iff_exists'.mp (hb info List.mem_cons_self)
      simp [hk, hbl, hrest]
    · simp [hk, hrest]

/-- What a message that the dynamic class overrides calls. -/
theorem blockCalls_eq {A : App σ V} {h : List (Op V)} {w : World σ V} (hr : Refines A h w)
    (hc : A.attachedLast = .blockKVO) {x : Oid} {cmd : SetterSEL} (hi : Intercepts A h x cmd.name)
    {k : NSString} (hkey : getterForSetter A.table cmd.name = .ok (some k))
    (hb : Transparency.BlocksGiven h x) (v : Option V) [Decidable (Completes A w x cmd.name k v)] :
    blockCalls (msgSend A w x cmd v).events =
      if Completes A w x cmd.name k v then (registrationsFor k 0 (blocksOf h x)).take 1 else [] := by
  rw [msgSend_of_intercepts hr hi, notifyingSetter, hc]
  dsimp only
  rw [pdSetter_events hr hi hkey]
  cases hg : baseGet A x k (w.ivars x) with
  | error e =>
    have hno : ¬ Completes A w x cmd.name k v := by
      rintro ⟨⟨old, hold⟩, _⟩
      rw [hg] at hold
      cases hold
    rw [if_neg hno]
    rfl
  | ok old =>
    have hcompletes : Completes A w x cmd.name k v ↔ Stores A w x cmd.name v :=
      ⟨fun hh => hh.2, fun hs => ⟨⟨old, hg⟩, hs⟩⟩
    simp only [hcompletes]
    by_cases hs : Stores A w x cmd.name v
    · rw [if_pos hs, if_pos hs, callFirst_events hb, blockCalls, List.filterMap_map]
      exact List.filterMap_some
    · rw [if_neg hs, if_neg hs]
      rfl

/-- With `NSObject+BlockKVO` by itself a message calls every block registered for its
key, in order and with its own observer, exactly when one is and the class below
completes. -/
theorem everyBlockCalled_iff_single (A : App σ V) (ivars : Oid → σ) (h : List (Op V)) (x : Oid)
    (hb : Transparency.BlocksGiven h x) (k : NSString) (hk : LowerFirst k)
    (hmem : ∃ info ∈ blocksOf h x, info.keyPath = some k) (cmd : SetterSEL)
    (hcmd : setterForGetter A.table (some k) = some cmd.name)
    (hset : implements ((A.alone .blockKVO).after ivars h) .blockKVO
      (((A.alone .blockKVO).after ivars h).isa x) cmd.name = true) (v : Option V) :
    blockCalls (msgSend (A.alone .blockKVO) ((A.alone .blockKVO).after ivars h) x cmd v).events =
        registrationsFor k 0 (blocksOf h x) ↔
      ((blocksOf h x).countP fun info => info.keyPath = some k) = 1 ∧
        Completes (A.alone .blockKVO) ((A.alone .blockKVO).after ivars h) x cmd.name k v := by
  classical
  have hr := refines_after (A.alone .blockKVO) ivars h
  have hc : (A.alone .blockKVO).attachedLast = .blockKVO := rfl
  have hi := (implements_isa_iff hr hc x cmd.colon).mp hset
  have hkey : getterForSetter (A.alone .blockKVO).table cmd.name = .ok (some k) :=
    getterForSetter_of_lowerFirst hk hcmd
  have hlen := length_registrationsFor hb k 0
  have hpos : 0 < (blocksOf h x).countP fun info => info.keyPath = some k := by
    obtain ⟨info, hm, hyes⟩ := hmem
    exact List.countP_pos_iff.mpr ⟨info, hm, by simpa using hyes⟩
  rw [blockCalls_eq hr hc hi hkey hb v]
  by_cases hdone : Completes (A.alone .blockKVO) ((A.alone .blockKVO).after ivars h) x cmd.name k v
  · rw [if_pos hdone, List.take_eq_self_iff, hlen]
    exact ⟨fun hle => ⟨by omega, hdone⟩, fun hh => by omega⟩
  · rw [if_neg hdone]
    constructor
    · intro hnil
      rw [← hnil, List.length_nil] at hlen
      omega
    · exact fun hh => absurd hh.2 hdone

/-- Two blocks of one key, with another key between them. -/
def twoBlocks : List (Op Nat) :=
  [.pdAddObserverBlock 1 (some 2) (some (lit "name")) (some 10),
   .pdAddObserverBlock 1 (some 2) (some (lit "firstName")) (some 11),
   .pdAddObserverBlock 1 (some 3) (some (lit "name")) (some 12)]

theorem everyBlockCalled_iff_single_name :
    blockCalls (msgSend (personApp.alone .blockKVO)
        ((personApp.alone .blockKVO).after (fun _ _ => none) twoBlocks) 1 setName none).events =
        registrationsFor (lit "name") 0 (blocksOf twoBlocks 1) ↔
      ((blocksOf twoBlocks 1).countP fun info => info.keyPath = some (lit "name")) = 1 ∧
        Completes (personApp.alone .blockKVO)
          ((personApp.alone .blockKVO).after (fun _ _ => none) twoBlocks) 1 setName.name
          (lit "name") none :=
  everyBlockCalled_iff_single personApp _ twoBlocks 1 (by unfold Transparency.BlocksGiven; decide)
    (lit "name") ⟨_, _, rfl, rfl⟩ ⟨_, List.mem_cons_self, rfl⟩ setName (by decide)
    (by decide) none

/-- The second block of a key is not called. -/
theorem second_block_not_called :
    registrationsFor (lit "name") 0 (blocksOf twoBlocks 1) = [(0, 10, some 2), (2, 12, some 3)] ∧
      implements ((personApp.alone .blockKVO).after (fun _ _ => none) twoBlocks) .blockKVO
        (((personApp.alone .blockKVO).after (fun _ _ => none) twoBlocks).isa 1) setName.name = true ∧
      blockCalls (msgSend (personApp.alone .blockKVO)
        ((personApp.alone .blockKVO).after (fun _ _ => none) twoBlocks) 1 setName
        (some 7)).events ≠ registrationsFor (lit "name") 0 (blocksOf twoBlocks 1) :=
  ⟨by decide, by decide, by decide⟩

/-! ## Old and new values -/

/-- The accessors of the key `k`: functions of the instance variables that do not raise. -/
structure Accessors (A : App σ V) (C k set : NSString) (get : σ → Option V)
    (store : σ → Option V → σ) : Prop where
  getter : getMethod A.classes C k = some (.getter fun s => some (get s))
  setter : getMethod A.classes C set = some (.setter fun s v => (store s v, false))

/-- The old and the new value that the block of the entry `i` is given. -/
def givenTo (i : Nat) : Event V → Option (Option V × Option V)
  | .hanleBlock _ j _ _ _ old new => if j = i then some (old, new) else none
  | .observeValueForKeyPath .. => none

/-- The values that the block of the entry `i` is given by setter messages to `x`. -/
def valuesGiven (A : App σ V) (x : Oid) (cmd : SetterSEL) (i : Nat) :
    World σ V → List (Option V) → List (Option V × Option V)
  | _, [] => []
  | w, v :: vs =>
    (msgSend A w x cmd v).events.filterMap (givenTo i) ++
      valuesGiven A x cmd i (msgSend A w x cmd v).world vs

/-- What the getter answers just before each message and right after its store. -/
def propertyValues (get : σ → Option V) (store : σ → Option V → σ) :
    σ → List (Option V) → List (Option V × Option V)
  | _, [] => []
  | s, v :: vs => (get s, get (store s v)) :: propertyValues get store (store s v) vs

/-- At each message the getter answers the argument once it is stored. -/
def KeepsArguments (get : σ → Option V) (store : σ → Option V → σ) : σ → List (Option V) → Prop
  | _, [] => True
  | s, v :: vs => get (store s v) = v ∧ KeepsArguments get store (store s v) vs

/-- The block's calls report the property's values, so that each new value is the old
value of the next call. -/
structure GivesPropertyValues (given values : List (Option V × Option V)) : Prop where
  each : given <+: values
  chained : ∀ n p q, given[n]? = some p → given[n + 1]? = some q → p.2 = q.1

theorem propertyValues_chained (get : σ → Option V) (store : σ → Option V → σ) (s : σ)
    (vs : List (Option V)) (n : Nat) {p q : Option V × Option V}
    (hp : (propertyValues get store s vs)[n]? = some p)
    (hq : (propertyValues get store s vs)[n + 1]? = some q) : p.2 = q.1 := by
  induction vs generalizing s n with
  | nil => cases hp
  | cons v vs ih =>
    cases n with
    | succ n => exact ih (store s v) n hp hq
    | zero =>
      cases vs with
      | nil => cases hq
      | cons v' vs =>
        cases hp
        cases hq
        rfl

theorem givesPropertyValues_of_prefix {given : List (Option V × Option V)} {get : σ → Option V}
    {store : σ → Option V → σ} {s : σ} {vs : List (Option V)}
    (h : given <+: propertyValues get store s vs) :
    GivesPropertyValues given (propertyValues get store s vs) := by
  have hin : ∀ (n : Nat) p, given[n]? = some p →
      (propertyValues get store s vs)[n]? = some p := by
    intro n p hp
    obtain ⟨rest, e⟩ := h
    have hlt := (List.getElem?_eq_some_iff.mp hp).1
    rw [← e, List.getElem?_append_left hlt]
    exact hp
  exact ⟨h, fun n _ _ hp hq => propertyValues_chained get store s vs n (hin n _ hp)
    (hin (n + 1) _ hq)⟩

section Values

variable {A : App σ V} {h : List (Op V)} {w : World σ V} {x : Oid} {cmd : SetterSEL} {k : NSString}
  {get : σ → Option V} {store : σ → Option V → σ} {i b : Nat} {o : Option Oid}

/-- One message: the block is given the old value and the argument. -/
theorem pdSetter_values (hr : Refines A h w) (hc : A.attachedLast = .blockKVO)
    (hi : Intercepts A h x cmd.name) (hkey : getterForSetter A.table cmd.name = .ok (some k))
    (hacc : Accessors A (A.classOf x) k cmd.name get store) (hb : Transparency.BlocksGiven h x)
    (hone : registrationsFor k 0 (blocksOf h x) = [(i, b, o)]) (v : Option V) :
    (msgSend A w x cmd v).events = [.hanleBlock x i b o k (get (w.ivars x)) v] ∧
      (msgSend A w x cmd v).world.ivars x = store (w.ivars x) v := by
  have hget : baseGet A x k (w.ivars x) = .ok (get (w.ivars x)) := by
    rw [baseGet, hacc.getter]
  have hsend : baseSend A x cmd.name v (w.ivars x) = (store (w.ivars x) v, none) := by
    rw [baseSend, hacc.setter]
    rfl
  rw [msgSend_of_intercepts hr hi, notifyingSetter, hc]
  dsimp only
  rw [pdSetter_eq hr hi hkey, hget, hsend]
  refine ⟨?_, ivars_setIvars w x _⟩
  dsimp only
  rw [callFirst_events hb, hone]
  rfl

/-- With the setter overridden, the values given are the property's exactly when the
setter keeps its arguments. -/
theorem valuesGiven_prefix_iff (hr : Refines A h w) (hc : A.attachedLast = .blockKVO)
    (hi : Intercepts A h x cmd.name) (hkey : getterForSetter A.table cmd.name = .ok (some k))
    (hacc : Accessors A (A.classOf x) k cmd.name get store) (hb : Transparency.BlocksGiven h x)
    (hone : registrationsFor k 0 (blocksOf h x) = [(i, b, o)]) (vs : List (Option V)) :
    valuesGiven A x cmd i w vs <+: propertyValues get store (w.ivars x) vs ↔
      KeepsArguments get store (w.ivars x) vs := by
  induction vs generalizing w with
  | nil => exact ⟨fun _ => trivial, fun _ => List.nil_prefix⟩
  | cons v vs ih =>
    obtain ⟨hevents, hivars⟩ := pdSetter_values hr hc hi hkey hacc hb hone v
    have hnext := refines_of_onlyIvars hr (onlyIvars_msgSend A w x cmd v)
    have hrest := ih hnext
    rw [hivars] at hrest
    have hgiven : (msgSend A w x cmd v).events.filterMap (givenTo i) = [(get (w.ivars x), v)] := by
      rw [hevents]
      simp [givenTo]
    rw [valuesGiven, hgiven, propertyValues, KeepsArguments, ← hrest, List.singleton_append,
      List.cons_prefix_cons, Prod.mk.injEq]
    exact ⟨fun ⟨⟨_, e⟩, hp⟩ => ⟨e.symm, hp⟩, fun ⟨e, hp⟩ => ⟨⟨rfl, e.symm⟩, hp⟩⟩

theorem valuesGiven_of_not_intercepts (hr : Refines A h w) (hi : ¬ Intercepts A h x cmd.name)
    (vs : List (Option V)) : valuesGiven A x cmd i w vs = [] := by
  induction vs generalizing w with
  | nil => rfl
  | cons v vs ih =>
    rw [valuesGiven, Delivery.events_of_not_intercepts hr hi,
      ih (refines_of_onlyIvars hr (onlyIvars_msgSend A w x cmd v))]
    rfl

end Values

/-- With `NSObject+BlockKVO` by itself the calls of the one block of a key report the
values of the property exactly when the setter, if it is overridden, keeps its arguments. -/
theorem givesPropertyValues_iff_keepsArguments (A : App σ V) (ivars : Oid → σ) (h : List (Op V))
    (x : Oid) (hb : Transparency.BlocksGiven h x) (k : NSString) (hk : LowerFirst k) (i b : Nat)
    (o : Option Oid) (hone : registrationsFor k 0 (blocksOf h x) = [(i, b, o)]) (cmd : SetterSEL)
    (hcmd : setterForGetter A.table (some k) = some cmd.name) (get : σ → Option V)
    (store : σ → Option V → σ) (hacc : Accessors A (A.classOf x) k cmd.name get store)
    (vs : List (Option V)) :
    GivesPropertyValues
        (valuesGiven (A.alone .blockKVO) x cmd i ((A.alone .blockKVO).after ivars h) vs)
        (propertyValues get store (((A.alone .blockKVO).after ivars h).ivars x) vs) ↔
      (Intercepts (A.alone .blockKVO) h x cmd.name →
        KeepsArguments get store (((A.alone .blockKVO).after ivars h).ivars x) vs) := by
  have hr := refines_after (A.alone .blockKVO) ivars h
  have hkey : getterForSetter (A.alone .blockKVO).table cmd.name = .ok (some k) :=
    getterForSetter_of_lowerFirst hk hcmd
  have hacc' : Accessors (A.alone .blockKVO) ((A.alone .blockKVO).classOf x) k cmd.name get store :=
    ⟨hacc.getter, hacc.setter⟩
  by_cases hi : Intercepts (A.alone .blockKVO) h x cmd.name
  · have hiff := valuesGiven_prefix_iff hr rfl hi hkey hacc' hb hone vs
    exact ⟨fun hall _ => hiff.mp hall.each,
      fun hkeeps => givesPropertyValues_of_prefix (hiff.mpr (hkeeps hi))⟩
  · rw [valuesGiven_of_not_intercepts hr hi]
    exact ⟨fun _ hi' => absurd hi' hi, fun _ => givesPropertyValues_of_prefix List.nil_prefix⟩

/-- One block of one key. -/
def oneBlock : List (Op Nat) := [.pdAddObserverBlock 1 (some 2) (some (lit "name")) (some 10)]

/-- The synthesized accessors of `name` keep their arguments. -/
theorem accessors_name : Accessors personApp (lit "Person") (lit "name") (lit "setName:")
    (fun s => s (lit "name")) (fun s v l => if l = lit "name" then v else s l) :=
  ⟨rfl, rfl⟩

theorem givesPropertyValues_iff_keepsArguments_name :
    GivesPropertyValues
        (valuesGiven (personApp.alone .blockKVO) 1 setName 0
          ((personApp.alone .blockKVO).after (fun _ _ => none) oneBlock) [some 7, none])
        (propertyValues (fun s => s (lit "name")) (fun s v l => if l = lit "name" then v else s l)
          (((personApp.alone .blockKVO).after (fun _ _ => none) oneBlock).ivars 1) [some 7, none]) ↔
      (Intercepts (personApp.alone .blockKVO) oneBlock 1 setName.name →
        KeepsArguments (fun s => s (lit "name")) (fun s v l => if l = lit "name" then v else s l)
          (((personApp.alone .blockKVO).after (fun _ _ => none) oneBlock).ivars 1) [some 7, none]) :=
  givesPropertyValues_iff_keepsArguments personApp _ oneBlock 1
    (by unfold Transparency.BlocksGiven; decide) (lit "name") ⟨_, _, rfl, rfl⟩ 0 10 (some 2)
    (by decide) setName (by decide) _ _ accessors_name _

/-- A `Person` whose `setName:` stores at most 5. -/
def clampingApp : App (Option Nat) Nat where
  table := asciiTable
  classObject _ := 0
  classes := [⟨lit "Person", some (lit "NSObject"),
    [(lit "name", .getter fun s => some s),
     (lit "setName:", .setter fun _ v => (v.map (min 5), false))]⟩,
    ⟨lit "NSObject", none, [(lit "class", .nsobjectClass)]⟩]
  classOf _ := lit "Person"
  order := [.blockKVO]
  order_ne_nil := by decide
  objc _ := 0
  not_notifying := by decide
  class_inherited _ := rfl

/-- The block is given 7 where the property answers 5. -/
theorem clamped_value_not_given :
    Accessors clampingApp (lit "Person") (lit "name") (lit "setName:") (fun s => s)
        (fun _ v => v.map (min 5)) ∧
      ¬ GivesPropertyValues
        (valuesGiven (clampingApp.alone .blockKVO) 1 setName 0
          ((clampingApp.alone .blockKVO).after (fun _ => none) oneBlock) [some 7])
        (propertyValues (fun s => s) (fun _ v => v.map (min 5))
          (((clampingApp.alone .blockKVO).after (fun _ => none) oneBlock).ivars 1) [some 7]) := by
  refine ⟨⟨rfl, rfl⟩, fun hall => ?_⟩
  have heach := hall.each
  revert heach
  decide

end BottomResearch.Blocks
