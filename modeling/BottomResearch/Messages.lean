import BottomResearch.Registrations

/-!
# What one message does

In a process that refines a history, a one-argument message does what the
method of the base class does (`baseReply`), unless the dynamic class of the
receiver overrides its selector (`Intercepts`).  Proved here:

* `send_of_not_intercepts` and `send_of_intercepts`: which of the two happens;
* `observerReply_eq` and `blockReply_eq`: what the notifying setters do, in
  terms of the base class and of the history;
* `getterForSetter_setterForGetter`: the key path a notifying setter rebuilds
  from its selector, which is the observed one when that begins with a
  lower-case ASCII letter (`rebuiltKey_of_lower`).
-/

namespace BottomResearch.Messages

open Foundation Dispatch Runs Observing Registrations

variable {σ V : Type}

/-! ## Names -/

/-- The key path that a notifying setter for the key `k` rebuilds from its selector. -/
def rebuiltKey (T : CaseTable) (k : NSString) : NSString :=
  let name := uppercaseString T (k.take 1) ++ k.drop 1
  lowercaseString T (name.take 1) ++ name.drop 1

/-- The key path of `set<Name>:`. -/
theorem getterForSetter_set (T : CaseTable) (d : UInt16) (more : NSString) :
    getterForSetter T (lit "set" ++ ((d :: more) ++ lit ":")) =
      .ok (some (lowercaseString T [d] ++ more)) := by
  obtain ⟨s, hs⟩ : ∃ s, s = lit "set" ++ ((d :: more) ++ lit ":") := ⟨_, rfl⟩
  have hset : (lit "set").length = 3 := rfl
  have hcolon : (lit ":").length = 1 := rfl
  have hlen : s.length = 3 + (more.length + 1 + 1) := by
    rw [hs]
    simp only [List.length_append, List.length_cons, hset, hcolon]
  have hdrop : (s.drop 3).take (s.length - 4) = d :: more := by
    have hn : s.length - 4 = (d :: more).length := by
      rw [hlen, List.length_cons]
      omega
    rw [hn, hs, ← hset, List.drop_left, List.take_left]
  have hpre : lit "set" <+: s := hs ▸ List.prefix_append _ _
  have hsuf : lit ":" <:+ s := by
    rw [hs, ← List.append_assoc]
    exact List.suffix_append _ _
  have hzero : s.length ≠ 0 := by omega
  rw [← hs]
  unfold getterForSetter
  rw [if_neg (by simp only [hzero, hpre, hsuf, not_true_eq_false, or_false, not_false_eq_true]),
    hdrop]
  simp only [List.length_cons, Nat.add_one_ne_zero, ↓reduceIte, List.take_succ_cons,
    List.take_zero, List.drop_succ_cons, List.drop_zero]

theorem getterForSetter_setterForGetter {T : CaseTable} {k s : NSString}
    (h : setterForGetter T (some k) = some s) :
    getterForSetter T s = .ok (some (rebuiltKey T k)) := by
  cases k with
  | nil => simp [setterForGetter] at h
  | cons c rest =>
    have hne := uppercaseString_singleton_ne_nil T c
    obtain ⟨d, more, hname⟩ : ∃ d more, uppercaseString T [c] ++ rest = d :: more := by
      cases hu : uppercaseString T [c] with
      | nil => exact absurd hu hne
      | cons d more => exact ⟨d, more ++ rest, rfl⟩
    have hs : s = lit "set" ++ ((d :: more) ++ lit ":") := by
      simp only [setterForGetter, List.length_cons, Nat.add_one_ne_zero, ↓reduceIte,
        List.take_succ_cons, List.take_zero, List.drop_succ_cons, List.drop_zero,
        Option.some.injEq] at h
      rw [← h, ← hname]
      simp only [List.append_assoc]
    rw [hs, getterForSetter_set]
    simp only [rebuiltKey, List.take_succ_cons, List.take_zero, List.drop_succ_cons,
      List.drop_zero, hname]

/-- A key that begins with a lower-case ASCII letter is rebuilt. -/
theorem rebuiltKey_of_lower (T : CaseTable) {c : UInt16} (h : isAsciiLower c = true)
    (rest : NSString) : rebuiltKey T (c :: rest) = c :: rest := by
  obtain ⟨hup, hlow⟩ := lower_upper_ascii T h
  simp [rebuiltKey, hup, hlow]

/-! ## Interception -/

section Code

variable {S G : Type} {run : Code S G σ V} {A : AppOf S G V} {h : List (Op V)}
  {w : WorldOf S G σ} {x : Oid}

/-- The selector that the dynamic class of `C` overrides. -/
def overridden (A : AppOf S G V) (h : List (Op V)) (C : NSString) : Option NSString :=
  (firstKey A h C).bind (setterForGetter A.table)

/-- `cmd` sent to `x` reaches a notifying setter. -/
def Intercepts (A : AppOf S G V) (h : List (Op V)) (x : Oid) (cmd : NSString) : Prop :=
  observed h x = true ∧ overridden A h (A.classOf x) = some cmd

instance (A : AppOf S G V) (h : List (Op V)) (x : Oid) (cmd : NSString) :
    Decidable (Intercepts A h x cmd) :=
  inferInstanceAs (Decidable (_ ∧ _))

theorem overridden_eq_some {C cmd : NSString} (ho : overridden A h C = some cmd) :
    ∃ k, firstKey A h C = some (some k) ∧ setterForGetter A.table (some k) = some cmd := by
  obtain ⟨k, hk, hs⟩ := Option.bind_eq_some_iff.mp ho
  cases k with
  | none => cases hs
  | some k => exact ⟨k, hk, hs⟩

theorem exists_getterForSetter {cmd : NSString} (hi : Intercepts A h x cmd) :
    ∃ key, getterForSetter A.table cmd = .ok (some key) := by
  obtain ⟨k, _, hs⟩ := overridden_eq_some hi.2
  exact ⟨_, getterForSetter_setterForGetter hs⟩

/-- What the method of the base class leaves. -/
def baseReply (run : Code S G σ V) (A : AppOf S G V) (w : WorldOf S G σ) (x : Oid) (cmd : NSString)
    (v : Option V) : ReplyOf S G σ V :=
  match getMethod A.classes (A.classOf x) cmd with
  | some b => run.callBody w x v b
  | none => ⟨w, [], some .unrecognizedSelector⟩

/-- What the getter of the base class answers to a notifying setter. -/
def baseAnswer (run : Code S G σ V) (A : AppOf S G V) (w : WorldOf S G σ) (x : Oid)
    (cmd : NSString) : Except Raised (Option V) :=
  match getMethod A.classes (A.classOf x) cmd with
  | some (.getter f) => run.getter f w x
  | some .nsobjectClass => .ok (some (A.classObject (notifying (A.classOf x))))
  | some (.setter _) => .error .badAccess
  | none => .error .unrecognizedSelector

theorem onlyIvars_baseReply (hrun : run.Local) (A : AppOf S G V) (w : WorldOf S G σ) (x : Oid)
    (cmd : NSString) (v : Option V) : OnlyIvars x w (baseReply run A w x cmd v).world := by
  unfold baseReply
  cases getMethod A.classes (A.classOf x) cmd with
  | some b => exact hrun.callBody w x v b
  | none => exact OnlyIvars.refl x w

/-- The notifying setter of the category whose `createClass:` built the class. -/
def notifyingReply (run : Code S G σ V) (A : AppOf S G V) (w : WorldOf S G σ) (x : Oid)
    (cmd : NSString) (v : Option V) : ReplyOf S G σ V :=
  match A.attachedLast with
  | .kvo => run.tzSetter A w x cmd v
  | .autoDeallocKVO => run.zbSetter A w x cmd v
  | .blockKVO => run.pdSetter A w x cmd v

theorem send_of_intercepts (hr : Refines A h w) {cmd : SetterSEL}
    (hi : Intercepts A h x cmd.name) (v : Option V) :
    run.msgSend A w x cmd v = notifyingReply run A w x cmd.name v := by
  obtain ⟨hx, ho⟩ := hi
  obtain ⟨k, hk, hs⟩ := overridden_eq_some ho
  have hm : getMethod w.classes (w.isa x) cmd.name = some (.kvoSetter A.attachedLast) := by
    rw [hr.isa x, hx, if_pos rfl, hr.getMethod_dynamic hk, dynamicClass_setter A _ _ cmd.colon,
      if_pos hs]
    rfl
  unfold Code.msgSend notifyingReply
  rw [hm]
  cases A.attachedLast <;> rfl

/-- A message that is not intercepted does what the base class does. -/
theorem send_of_not_intercepts (hr : Refines A h w) {cmd : SetterSEL}
    (hi : ¬ Intercepts A h x cmd.name) (v : Option V) :
    run.msgSend A w x cmd v = baseReply run A w x cmd.name v := by
  have hm : getMethod w.classes (w.isa x) cmd.name =
      (getMethod A.classes (A.classOf x) cmd.name).map .body := by
    rw [hr.isa x]
    cases hx : observed h x with
    | false =>
      rw [if_neg Bool.false_ne_true]
      exact hr.getMethod_base x cmd.name
    | true =>
      obtain ⟨k, hk⟩ := firstKey_of_observed A hx
      have hs : ¬ setterForGetter A.table k = some cmd.name := fun hs =>
        hi ⟨hx, by rw [overridden, hk]; exact hs⟩
      rw [if_pos rfl, hr.getMethod_dynamic hk, dynamicClass_setter A _ _ cmd.colon, if_neg hs,
        Option.none_or]
  unfold Code.msgSend baseReply
  rw [hm]
  cases getMethod A.classes (A.classOf x) cmd.name with
  | none => rfl
  | some b => rfl

/-! ## The notifying setters -/

section Setters

variable {cmd : NSString}

theorem superclass_of_intercepts (hr : Refines A h w) (hi : Intercepts A h x cmd) :
    getSuperclass w.classes (w.isa x) = some (A.classOf x) := by
  obtain ⟨k, hk⟩ := firstKey_of_observed A hi.1
  rw [hr.isa x, hi.1, if_pos rfl, hr.getSuperclass_dynamic hk]

theorem sendSuper_eq (hr : Refines A h w) (x : Oid) (cmd : NSString) (v : Option V) :
    run.msgSendSuper w (some (A.classOf x)) x cmd v = baseReply run A w x cmd v := by
  unfold Code.msgSendSuper baseReply
  rw [Option.bind_some, hr.getMethod_base x cmd]
  cases getMethod A.classes (A.classOf x) cmd with
  | none => rfl
  | some b => rfl

theorem sendSuperGetter_eq (hr : Refines A h w) (hx : observed h x = true) (cmd : NSString) :
    run.msgSendSuperGetter A w (some (A.classOf x)) x cmd = baseAnswer run A w x cmd := by
  have hisa : w.isa x = notifying (A.classOf x) := by rw [hr.isa x, hx]; rfl
  unfold Code.msgSendSuperGetter baseAnswer
  rw [Option.bind_some, hr.getMethod_base x cmd]
  cases getMethod A.classes (A.classOf x) cmd with
  | none => rfl
  | some b =>
    cases b with
    | setter f => rfl
    | getter f => rfl
    | nsobjectClass => simp only [Option.map_some, hisa]

/-- What `tz_setter` and `zb_setter` send once the base class has stored. -/
def observerOutcome (key : NSString) (x : Oid) (observer : Option Oid) :
    Option V → List (Event V) × Option Raised
  | none => ([], some .nilInDictionary)
  | some v => (observer.toList.map fun o => .observeValueForKeyPath o key x (key, v), none)

/-- What a notifying setter adds to the reply of the base class that has stored. -/
def thenSend (r : ReplyOf S G σ V) (out : List (Event V) × Option Raised) : ReplyOf S G σ V :=
  match r with
  | ⟨w, events, some e⟩ => ⟨w, events, some e⟩
  | ⟨w, events, none⟩ => ⟨w, events ++ out.1, out.2⟩

/-- **`tz_setter` and `zb_setter`.** -/
theorem observerReply_eq (hrun : run.Local) (hr : Refines A h w) (hi : Intercepts A h x cmd)
    {key : NSString} (hkey : getterForSetter A.table cmd = .ok (some key)) (file : Category)
    (v : Option V) :
    run.observerSetter A file w x cmd v =
      thenSend (baseReply run A w x cmd v)
        (observerOutcome key x (lastObserver A (A.objc file) h x) v) := by
  have hlocal := onlyIvars_baseReply hrun A w x cmd v
  unfold Code.observerSetter
  rw [superclass_of_intercepts hr hi, sendSuper_eq hr]
  generalize baseReply run A w x cmd v = r at hlocal ⊢
  rcases r with ⟨w', events, e | e⟩
  · have ho : w'.observer (A.objc file) x = lastObserver A (A.objc file) h x :=
      (congrFun (congrFun hlocal.observer _) x).trans (hr.observer _ x)
    simp only [hkey, ho, thenSend]
    cases v with
    | none => simp only [observerOutcome, List.append_nil]
    | some v =>
      cases lastObserver A (A.objc file) h x with
      | none => simp only [observerOutcome, Option.toList_none, List.map_nil, List.append_nil]
      | some o => rfl
  · rfl

/-- **`pd_setter`.** -/
theorem blockReply_eq (hrun : run.Local) (hr : Refines A h w) (hi : Intercepts A h x cmd)
    {key : NSString} (hkey : getterForSetter A.table cmd = .ok (some key)) (v : Option V) :
    run.pdSetter A w x cmd v =
      match baseAnswer run A w x key with
      | .error e => ⟨w, [], some e⟩
      | .ok old =>
        thenSend (baseReply run A w x cmd v) (callFirst x key old v 0 (blocksOf h x)) := by
  have hlocal := onlyIvars_baseReply hrun A w x cmd v
  unfold Code.pdSetter
  rw [superclass_of_intercepts hr hi]
  simp only [hkey]
  rw [sendSuperGetter_eq hr hi.1, sendSuper_eq hr]
  cases baseAnswer run A w x key with
  | error e => rfl
  | ok old =>
    dsimp only
    generalize baseReply run A w x cmd v = r at hlocal ⊢
    rcases r with ⟨w', events, e | e⟩
    · have hinfos : (w'.infos x).getD [] = blocksOf h x :=
        (congrArg (·.getD []) (congrFun hlocal.infos x)).trans (hr.infos x)
      dsimp only
      cases hw : w'.infos x with
      | none =>
        rw [hw] at hinfos
        rw [← hinfos]
        simp only [Option.getD_none, thenSend, callFirst, List.append_nil]
      | some array =>
        rw [hw] at hinfos
        rw [← hinfos]
        rfl
    · rfl

end Setters

end Code

/-! ## Accessors that are functions of the instance variables -/

/-- What the method of the base class does with the instance variables `s`. -/
def baseSend (A : App σ V) (x : Oid) (cmd : NSString) (newValue : Option V) (s : σ) :
    σ × Option Raised :=
  match getMethod A.classes (A.classOf x) cmd with
  | some (.setter f) => ((f s newValue).1, if (f s newValue).2 then some .accessor else none)
  | some (.getter f) => (s, if (f s).isSome then none else some .accessor)
  | some .nsobjectClass => (s, none)
  | none => (s, some .unrecognizedSelector)

/-- What the getter of the base class answers while the object is observed. -/
def baseGet (A : App σ V) (x : Oid) (cmd : NSString) (s : σ) : Except Raised (Option V) :=
  match getMethod A.classes (A.classOf x) cmd with
  | some (.getter f) =>
    match f s with
    | some answer => .ok answer
    | none => .error .accessor
  | some .nsobjectClass => .ok (some (A.classObject (notifying (A.classOf x))))
  | some (.setter _) => .error .badAccess
  | none => .error .unrecognizedSelector

section Ivars

variable {S G : Type}

theorem setIvars_self (w : WorldOf S G σ) (x : Oid) : w.setIvars x (w.ivars x) = w := by
  have h : (fun y => if y = x then w.ivars x else w.ivars y) = w.ivars := by
    funext y
    by_cases e : y = x
    · rw [if_pos e, e]
    · rw [if_neg e]
  unfold WorldOf.setIvars
  rw [h]

theorem ivars_setIvars (w : WorldOf S G σ) (x : Oid) (s : σ) : (w.setIvars x s).ivars x = s :=
  if_pos rfl

end Ivars

section Direct

variable {A : App σ V} {h : List (Op V)} {w : World σ V} {x : Oid}

theorem baseReply_direct (A : App σ V) (w : World σ V) (x : Oid) (cmd : NSString) (v : Option V) :
    baseReply direct A w x cmd v =
      ⟨w.setIvars x (baseSend A x cmd v (w.ivars x)).1, [], (baseSend A x cmd v (w.ivars x)).2⟩ := by
  unfold baseReply baseSend
  cases getMethod A.classes (A.classOf x) cmd with
  | none =>
    dsimp only
    rw [setIvars_self]
  | some b =>
    cases b with
    | setter f => rfl
    | getter f =>
      dsimp only
      rw [setIvars_self, Code.callBody]
      simp only [direct]
      cases f (w.ivars x) with
      | none => rfl
      | some answer => rfl
    | nsobjectClass =>
      dsimp only
      rw [setIvars_self]
      rfl

theorem baseAnswer_direct (A : App σ V) (w : World σ V) (x : Oid) (cmd : NSString) :
    baseAnswer direct A w x cmd = baseGet A x cmd (w.ivars x) := by
  unfold baseAnswer baseGet
  cases getMethod A.classes (A.classOf x) cmd with
  | none => rfl
  | some b =>
    cases b with
    | setter f => rfl
    | getter f => rfl
    | nsobjectClass => rfl

/-- The notifying setter of the category whose `createClass:` built the class. -/
def notifyingSetter (A : App σ V) (w : World σ V) (x : Oid) (cmd : NSString) (v : Option V) :
    Reply σ V :=
  match A.attachedLast with
  | .kvo => tzSetter A w x cmd v
  | .autoDeallocKVO => zbSetter A w x cmd v
  | .blockKVO => pdSetter A w x cmd v

theorem msgSend_of_intercepts (hr : Refines A h w) {cmd : SetterSEL}
    (hi : Intercepts A h x cmd.name) (v : Option V) :
    msgSend A w x cmd v = notifyingSetter A w x cmd.name v := by
  rw [msgSend, send_of_intercepts hr hi, notifyingReply, notifyingSetter]
  cases A.attachedLast <;> rfl

theorem msgSend_of_not_intercepts (hr : Refines A h w) {cmd : SetterSEL}
    (hi : ¬ Intercepts A h x cmd.name) (v : Option V) :
    msgSend A w x cmd v = ⟨w.setIvars x (baseSend A x cmd.name v (w.ivars x)).1, [],
      (baseSend A x cmd.name v (w.ivars x)).2⟩ := by
  rw [msgSend, send_of_not_intercepts hr hi, baseReply_direct]

section Setters

variable {cmd : NSString}

/-- The base class stores `v` in `x` without raising. -/
def Stores (A : App σ V) (w : World σ V) (x : Oid) (cmd : NSString) (v : Option V) : Prop :=
  (baseSend A x cmd v (w.ivars x)).2 = none

instance (A : App σ V) (w : World σ V) (x : Oid) (cmd : NSString) (v : Option V) :
    Decidable (Stores A w x cmd v) :=
  inferInstanceAs (Decidable (_ = _))

theorem stores_iff {v : Option V} {s : σ} {e : Option Raised}
    (hb : baseSend A x cmd v (w.ivars x) = (s, e)) : Stores A w x cmd v ↔ e = none := by
  rw [Stores, hb]

theorem observerSetter_eq (hr : Refines A h w) (hi : Intercepts A h x cmd) {key : NSString}
    (hkey : getterForSetter A.table cmd = .ok (some key)) (file : Category) (v : Option V) :
    observerSetter A file w x cmd v =
      match baseSend A x cmd v (w.ivars x) with
      | (s, some e) => ⟨w.setIvars x s, [], some e⟩
      | (s, none) => ⟨w.setIvars x s, (observerOutcome key x (lastObserver A (A.objc file) h x) v).1,
          (observerOutcome key x (lastObserver A (A.objc file) h x) v).2⟩ := by
  rw [observerSetter, observerReply_eq local_direct hr hi hkey, baseReply_direct]
  rcases baseSend A x cmd v (w.ivars x) with ⟨s, e | e⟩ <;> rfl

/-- The observer is told of what is stored. -/
theorem observerSetter_events (hr : Refines A h w) (hi : Intercepts A h x cmd) {key : NSString}
    (hkey : getterForSetter A.table cmd = .ok (some key)) (file : Category) (v : Option V) :
    (observerSetter A file w x cmd v).events =
      if Stores A w x cmd v then
        (observerOutcome key x (lastObserver A (A.objc file) h x) v).1
      else [] := by
  rw [observerSetter_eq hr hi hkey]
  rcases hb : baseSend A x cmd v (w.ivars x) with ⟨s, e | e⟩
  · rw [if_pos ((stores_iff hb).mpr rfl)]
  · have hs : ¬ Stores A w x cmd v := fun hs => Option.some_ne_none e ((stores_iff hb).mp hs)
    rw [if_neg hs]

theorem pdSetter_eq (hr : Refines A h w) (hi : Intercepts A h x cmd) {key : NSString}
    (hkey : getterForSetter A.table cmd = .ok (some key)) (v : Option V) :
    pdSetter A w x cmd v =
      match baseGet A x key (w.ivars x) with
      | .error e => ⟨w, [], some e⟩
      | .ok old =>
        match baseSend A x cmd v (w.ivars x) with
        | (s, some e) => ⟨w.setIvars x s, [], some e⟩
        | (s, none) => ⟨w.setIvars x s, (callFirst x key old v 0 (blocksOf h x)).1,
            (callFirst x key old v 0 (blocksOf h x)).2⟩ := by
  rw [pdSetter, blockReply_eq local_direct hr hi hkey, baseAnswer_direct, baseReply_direct]
  cases baseGet A x key (w.ivars x) with
  | error e => rfl
  | ok old => rcases baseSend A x cmd v (w.ivars x) with ⟨s, e | e⟩ <;> rfl

/-- The search runs when the getter answers and the value is stored. -/
theorem pdSetter_events (hr : Refines A h w) (hi : Intercepts A h x cmd) {key : NSString}
    (hkey : getterForSetter A.table cmd = .ok (some key)) (v : Option V) :
    (pdSetter A w x cmd v).events =
      match baseGet A x key (w.ivars x) with
      | .error _ => []
      | .ok old => if Stores A w x cmd v then (callFirst x key old v 0 (blocksOf h x)).1 else [] := by
  rw [pdSetter_eq hr hi hkey]
  cases baseGet A x key (w.ivars x) with
  | error e => rfl
  | ok old =>
    dsimp only
    rcases hb : baseSend A x cmd v (w.ivars x) with ⟨s, e | e⟩
    · rw [if_pos ((stores_iff hb).mpr rfl)]
    · have hs : ¬ Stores A w x cmd v := fun hs => Option.some_ne_none e ((stores_iff hb).mp hs)
      rw [if_neg hs]

end Setters

end Direct

/-! ## The search of `pd_setter` -/

/-- The call of an entry's block. -/
def callInfo (x : Oid) (key : NSString) (old v : Option V) (i : Nat) (info : Info) :
    List (Event V) × Option Raised :=
  match info.hanleBlock with
  | some block => ([.hanleBlock x i block info.observer key old v], none)
  | none => ([], some .badAccess)

theorem callFirst_none {key : NSString} {array : List Info}
    (hno : ∀ info ∈ array, info.keyPath ≠ some key) (x : Oid) (old v : Option V) (i : Nat) :
    callFirst x key old v i array = ([], none) := by
  induction array generalizing i with
  | nil => rfl
  | cons info array ih =>
    rw [callFirst, if_neg (hno info List.mem_cons_self)]
    exact ih (fun info hm => hno info (List.mem_cons_of_mem _ hm)) (i + 1)

/-- The first entry for the key path is called, and no other. -/
theorem callFirst_append {key : NSString} {before : List Info} {info : Info}
    (hno : ∀ info ∈ before, info.keyPath ≠ some key) (hyes : info.keyPath = some key)
    (rest : List Info) (x : Oid) (old v : Option V) (i : Nat) :
    callFirst x key old v i (before ++ info :: rest) =
      callInfo x key old v (i + before.length) info := by
  induction before generalizing i with
  | nil =>
    rw [List.nil_append, callFirst, if_pos hyes]
    rfl
  | cons other before ih =>
    rw [List.cons_append, callFirst, if_neg (hno other List.mem_cons_self),
      ih (fun info hm => hno info (List.mem_cons_of_mem _ hm)) (i + 1), List.length_cons]
    congr 1
    omega

theorem none_or_first (key : NSString) (array : List Info) :
    (∀ info ∈ array, info.keyPath ≠ some key) ∨
      ∃ before info rest, array = before ++ info :: rest ∧
        (∀ info ∈ before, info.keyPath ≠ some key) ∧ info.keyPath = some key := by
  cases hf : array.find? fun info => decide (info.keyPath = some key) with
  | none =>
    have hno := List.find?_eq_none.mp hf
    exact Or.inl fun info hm => by simpa using hno info hm
  | some info =>
    obtain ⟨hyes, before, rest, e, hno⟩ := List.find?_eq_some_iff_append.mp hf
    exact Or.inr ⟨before, info, rest, e, fun o hm => by simpa using hno o hm, by simpa using hyes⟩

end BottomResearch.Messages
