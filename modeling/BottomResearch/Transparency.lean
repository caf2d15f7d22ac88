import BottomResearch.Interception
import BottomResearch.SelfMessages

/-!
# An observed object and its unobserved twin

One category by itself, an object and the one-argument messages it receives, with
accessors that send messages to `self`.  The twin is the same object at the start of the
process, when nothing is observed.  Proved here:

* `same_iff_harmless`: a message leaves the object as it leaves the twin exactly when it is
  harmless (`Harmless`), if the messages to `self` sent meanwhile do;
* `transparent_iff_harmless`: a run of messages to any object agrees with the twin, and so
  do the messages to `self` sent meanwhile, exactly when all of them are harmless where
  the twin is.
-/

namespace BottomResearch.Transparency

open Foundation Dispatch Runs Observing Registrations Messages Interception SelfMessages

variable {σ V : Type}

/-! ## The two systems -/

/-- The messages to `x` in the process; the output says whether one raised. -/
def messages (A : ScriptApp σ V) (n : Nat) (x : Oid) :
    System (ScriptWorld σ V) (SetterSEL × Option V) Bool where
  step w m := (((level A n).msgSend A w x m.1 m.2).world,
    ((level A n).msgSend A w x m.1 m.2).raised.isSome)

/-- A message to the twin of `x`. -/
def twinSend (A : ScriptApp σ V) (ivars : Oid → σ) (x : Oid) (n : Nat) :
    σ → SetterSEL → Option V → σ × Option Raised :=
  sendAt (level A n) A (A.start ivars) x

def twinAsk (A : ScriptApp σ V) (ivars : Oid → σ) (x : Oid) (n : Nat) :
    σ → Question → Except Raised (Option V) :=
  askAt (level A n) A (A.start ivars) x

def twin (A : ScriptApp σ V) (ivars : Oid → σ) (n : Nat) (x : Oid) :
    System σ (SetterSEL × Option V) Bool where
  step s m := ((twinSend A ivars x n s m.1 m.2).1, (twinSend A ivars x n s m.1 m.2).2.isSome)

/-- Each message that the twin sends to itself while it performs another one meets `P`. -/
def Nested (A : ScriptApp σ V) (ivars : Oid → σ) (x : Oid) (P : Nat → σ → Message V → Prop) :
    Nat → σ → Message V → Prop
  | 0, _, _ => True
  | n + 1, s, .set cmd v =>
    match getMethod A.classes (A.classOf x) cmd.name with
    | some (.setter f) =>
      (f s v).Each (twinSend A ivars x n) (twinAsk A ivars x n) fun s m =>
        P n s m ∧ Nested A ivars x P n s m
    | some (.getter f) =>
      (f s).Each (twinAsk A ivars x n s) fun m => P n s m ∧ Nested A ivars x P n s m
    | _ => True
  | n + 1, s, .get (.message key) =>
    match getMethod A.classes (A.classOf x) key.name with
    | some (.getter f) =>
      (f s).Each (twinAsk A ivars x n s) fun m => P n s m ∧ Nested A ivars x P n s m
    | _ => True
  | _ + 1, _, .get .objectGetClass => True

/-! ## Agreement and its condition -/

/-- A message to `x` in the process `w` does what it does on the twin. -/
def SameSent (A : ScriptApp σ V) (ivars : Oid → σ) (w : ScriptWorld σ V) (x : Oid) (n : Nat)
    (s : σ) : Message V → Prop
  | .set cmd v => sendAt (level A n) A w x s cmd v = twinSend A ivars x n s cmd v
  | .get question => askAt (level A n) A w x s question = twinAsk A ivars x n s question

/-- The notifying setter of `c` does no more than the setter below it; `like` says which
exceptions count as the same. -/
def HarmlessSetter (like : Raised → Raised → Prop) (A : ScriptApp σ V) (ivars : Oid → σ)
    (w : ScriptWorld σ V) (x : Oid) (n : Nat) (s : σ) (cmd : SetterSEL) (v : Option V) :
    Category → Prop
  | .kvo | .autoDeallocKVO => v ≠ none ∨ (twinSend A ivars x n s cmd v).2 ≠ none
  | .blockKVO =>
    -- Where the getter of the rebuilt key fails, so does the setter, and stores nothing.
    ∀ key e, getterForSetter A.table cmd.name = .ok (some key) →
      baseAnswer (level A n) A (w.setIvars x s) x key = .error e →
        (twinSend A ivars x n s cmd v).1 = s ∧
          ∃ e', (twinSend A ivars x n s cmd v).2 = some e' ∧ like e e'

/-- A message that the dynamic class overrides must be harmless there.  The dynamic class
must not be given away: by `object_getClass`, or by `-[NSObject class]` under another
selector. -/
def Harmless (like : Raised → Raised → Prop) (A : ScriptApp σ V) (ivars : Oid → σ)
    (h : List (Op V)) (w : ScriptWorld σ V) (x : Oid) (n : Nat) (s : σ) : Message V → Prop
  | .set cmd v =>
    Intercepts A h x cmd.name → HarmlessSetter like A ivars w x n s cmd v A.attachedLast
  | .get (.message key) =>
    observed h x = true → getMethod A.classes (A.classOf x) key.name = some .nsobjectClass →
      key.name = lit "class" ∨
        A.classObject (notifying (A.classOf x)) = A.classObject (A.classOf x)
  | .get .objectGetClass =>
    observed h x = true →
      A.classObject (notifying (A.classOf x)) = A.classObject (A.classOf x)

/-- The blocks added on `x` are blocks. -/
def BlocksGiven (h : List (Op V)) (x : Oid) : Prop :=
  ∀ info ∈ blocksOf h x, info.hanleBlock ≠ none

/-- The same instance variables, and exceptions that count as the same. -/
structure Like (like : Raised → Raised → Prop) (p q : σ × Option Raised) : Prop where
  ivars : p.1 = q.1
  raised : p.2.isSome = q.2.isSome
  kind : ∀ e e', p.2 = some e → q.2 = some e' → like e e'

theorem like_eq {p q : σ × Option Raised} : Like Eq p q ↔ p = q := by
  constructor
  · rintro ⟨hi, hr, hk⟩
    refine Prod.ext hi ?_
    cases hp : p.2 with
    | none =>
      rw [hp] at hr
      cases hq : q.2 with
      | none => rfl
      | some e' => simp [hq] at hr
    | some e =>
      rw [hp] at hr
      cases hq : q.2 with
      | none => simp [hq] at hr
      | some e' => rw [hk e e' hp hq]
  · rintro rfl
    refine ⟨rfl, rfl, fun e e' he he' => ?_⟩
    exact Option.some.inj (he.symm.trans he')

theorem like_any {p q : σ × Option Raised} :
    Like (fun _ _ => True) p q ↔ p.1 = q.1 ∧ p.2.isSome = q.2.isSome :=
  ⟨fun h => ⟨h.ivars, h.raised⟩, fun h => ⟨h.1, h.2, fun _ _ _ _ => trivial⟩⟩

section OneMessage

variable {A : ScriptApp σ V} {ivars : Oid → σ} {h : List (Op V)} {w : ScriptWorld σ V} {x : Oid}
  {n : Nat} {s : σ}

/-! ## The base class -/

theorem refines_setIvars (hr : Refines A h w) (x : Oid) (s : σ) : Refines A h (w.setIvars x s) :=
  refines_of_onlyIvars hr (onlyIvars_setIvars x w s)

/-- What the base class does, by the messages to `self`. -/
theorem outcome_baseReply (A : ScriptApp σ V) (w : ScriptWorld σ V) (x : Oid) (n : Nat) (s : σ)
    (cmd : NSString) (v : Option V) :
    outcome x (baseReply (level A (n + 1)) A (w.setIvars x s) x cmd v) =
      match getMethod A.classes (A.classOf x) cmd with
      | some (.setter f) => (f s v).exec (sendAt (level A n) A w x) (askAt (level A n) A w x)
      | some (.getter f) =>
        match (f s).run (askAt (level A n) A w x s) with
        | .ok _ => (s, none)
        | .error e => (s, some e)
      | some .nsobjectClass => (s, none)
      | none => (s, some .unrecognizedSelector) := by
  have hs : (w.setIvars x s).ivars x = s := ivars_setIvars w x s
  unfold baseReply
  cases getMethod A.classes (A.classOf x) cmd with
  | none => exact Prod.ext hs rfl
  | some b =>
    cases b with
    | setter f =>
      have hrun := outcome_run (A := A) (w := w) (x := x) (local_level A n)
        (f ((w.setIvars x s).ivars x) v) s
      rw [hs] at hrun
      dsimp only
      rw [← hrun]
      simp only [Code.callBody, level, hs]
    | getter f =>
      have hask : (level A (n + 1)).getter f (w.setIvars x s) x =
          (f s).run (askAt (level A n) A w x s) := by
        simp only [level, hs]
        rfl
      simp only [Code.callBody, hask]
      cases (f s).run (askAt (level A n) A w x s) with
      | ok _ => exact Prod.ext hs rfl
      | error e => exact Prod.ext hs rfl
    | nsobjectClass => exact Prod.ext hs rfl

/-- With no room on the stack. -/
theorem outcome_baseReply_zero (A : ScriptApp σ V) (w : ScriptWorld σ V) (x : Oid) (s : σ)
    (cmd : NSString) (v : Option V) :
    outcome x (baseReply (level A 0) A (w.setIvars x s) x cmd v) =
      match getMethod A.classes (A.classOf x) cmd with
      | some .nsobjectClass => (s, none)
      | some _ => (s, some .stackOverflow)
      | none => (s, some .unrecognizedSelector) := by
  have hs : (w.setIvars x s).ivars x = s := ivars_setIvars w x s
  unfold baseReply
  cases getMethod A.classes (A.classOf x) cmd with
  | none => exact Prod.ext hs rfl
  | some b => cases b <;> exact Prod.ext hs rfl

/-- A message to the twin does what the base class does. -/
theorem twinSend_eq (A : ScriptApp σ V) (ivars : Oid → σ) (x : Oid) (n : Nat) (s : σ)
    (cmd : SetterSEL) (v : Option V) :
    twinSend A ivars x n s cmd v =
      outcome x (baseReply (level A n) A ((A.start ivars).setIvars x s) x cmd.name v) := by
  have hi : ¬ Intercepts A ([] : List (Op V)) x cmd.name := by
    rintro ⟨hx, _⟩
    cases hx
  rw [twinSend, sendAt, send_of_not_intercepts (refines_setIvars (Refines.start A ivars) x s) hi]

/-- What a message without argument answers. -/
theorem askAt_eq (hr : Refines A h w) (n : Nat) (s : σ) (key : GetterSEL) :
    askAt (level A n) A w x s (.message key) =
      match getMethod A.classes (A.classOf x) key.name with
      | some (.getter f) => (level A n).getter f (w.setIvars x s) x
      | some .nsobjectClass =>
        .ok (some (A.classObject (if observed h x = true ∧ key.name ≠ lit "class" then
          notifying (A.classOf x) else A.classOf x)))
      | some (.setter _) => .error .badAccess
      | none => .error .unrecognizedSelector := by
  have hr' := refines_setIvars hr x s
  have hbase := hr'.getMethod_base x key.name
  unfold askAt answer msgSendGetter
  dsimp only
  cases hx : observed h x with
  | false =>
    have hisa : (w.setIvars x s).isa x = A.classOf x := by rw [hr'.isa x, hx]; rfl
    rw [hisa, hbase]
    cases getMethod A.classes (A.classOf x) key.name with
    | none => rfl
    | some b => cases b <;> simp only [Option.map_some, Bool.false_eq_true, false_and, ↓reduceIte]
  | true =>
    obtain ⟨k, hk⟩ := firstKey_of_observed A hx
    have hisa : (w.setIvars x s).isa x = notifying (A.classOf x) := by rw [hr'.isa x, hx]; rfl
    have hdyn := hr'.getMethod_dynamic hk key.name
    by_cases hc : key.name = lit "class"
    · rw [hisa, hdyn, hc, dynamicClass_class, Option.some_or, A.class_inherited x]
      have hsuper : kvoClass (w.setIvars x s) x = some (A.classOf x) := by
        rw [kvoClass, hisa, hr'.getSuperclass_dynamic hk]
      simp [hsuper]
    · rw [hisa, hdyn, dynamicClass_getter A _ _ key.no_colon hc key.not_dealloc, Option.none_or]
      cases getMethod A.classes (A.classOf x) key.name with
      | none => rfl
      | some b => cases b <;> simp [hc]

theorem askAt_objectGetClass (hr : Refines A h w) (n : Nat) (s : σ) :
    askAt (level A n) A w x s .objectGetClass =
      .ok (some (A.classObject (if observed h x = true then
        notifying (A.classOf x) else A.classOf x))) := by
  have hisa := (refines_setIvars hr x s).isa x
  unfold askAt answer
  dsimp only
  rw [hisa]

/-! ## One message -/

/-- A getter does not see whether it is observed when its messages do not. -/
theorem getter_agrees {f : Getter σ V} {P : Message V → Prop}
    (hP : ∀ question, P (.get question) → SameSent A ivars w x n s (.get question))
    (hn : (f s).Each (twinAsk A ivars x n s) P) :
    (level A (n + 1)).getter f (w.setIvars x s) x =
      (level A (n + 1)).getter f ((A.start ivars).setIvars x s) x := by
  simp only [level, ivars_setIvars]
  exact Query.run_congr hP hn

/-- The base class does not see it either. -/
theorem base_agrees {cmd : SetterSEL} {v : Option V}
    (hn : Nested A ivars x (SameSent A ivars w x) n s (.set cmd v)) :
    outcome x (baseReply (level A n) A (w.setIvars x s) x cmd.name v) =
      twinSend A ivars x n s cmd v := by
  rw [twinSend_eq]
  cases n with
  | zero => rw [outcome_baseReply_zero, outcome_baseReply_zero]
  | succ n =>
    rw [outcome_baseReply, outcome_baseReply]
    rw [Nested] at hn
    cases hm : getMethod A.classes (A.classOf x) cmd.name with
    | none => rfl
    | some b =>
      rw [hm] at hn
      cases b with
      | setter f =>
        exact Script.exec_congr (fun s cmd v hP => hP.1) (fun s question hP => hP.1) hn
      | getter f =>
        have he : (f s).run (askAt (level A n) A w x s) = (f s).run (twinAsk A ivars x n s) :=
          Query.run_congr (fun question hP => hP.1) hn
        dsimp only
        rw [he]
        rfl
      | nsobjectClass => rfl

theorem callFirst_raised {array : List Info} (hb : ∀ info ∈ array, info.hanleBlock ≠ none)
    (key : NSString) (old v : Option V) : (callFirst x key old v 0 array).2 = none := by
  rcases none_or_first key array with hno | ⟨before, info, rest, e, hno, hyes⟩
  · rw [callFirst_none hno]
  · subst e
    rw [callFirst_append hno hyes]
    have hi := hb info (List.mem_append_right _ List.mem_cons_self)
    unfold callInfo
    cases hbl : info.hanleBlock with
    | none => exact absurd hbl hi
    | some b => rfl

section Set

variable {like : Raised → Raised → Prop} {cmd : SetterSEL} {v : Option V}

/-- What a notifying setter does after the base class. -/
theorem outcome_thenSend (r : ScriptReply σ V) (out : List (Event V) × Option Raised) :
    outcome x (thenSend r out) =
      ((outcome x r).1, (outcome x r).2.or out.2) := by
  rcases r with ⟨w, events, e | e⟩ <;> rfl

/-- `tz_setter` and `zb_setter` disagree with the class on `nil` only. -/
theorem like_observerSetter (hlike : ∀ e, like e e) (hr : Refines A h w)
    (hi : Intercepts A h x cmd.name)
    (hn : Nested A ivars x (SameSent A ivars w x) n s (.set cmd v)) (file : Category) :
    Like like (outcome x ((level A n).observerSetter A file (w.setIvars x s) x cmd.name v))
        (twinSend A ivars x n s cmd v) ↔
      v ≠ none ∨ (twinSend A ivars x n s cmd v).2 ≠ none := by
  obtain ⟨key, hkey⟩ := exists_getterForSetter hi
  rw [observerReply_eq (local_level A n) (refines_setIvars hr x s) hi hkey, outcome_thenSend,
    base_agrees hn]
  rcases twinSend A ivars x n s cmd v with ⟨t, e | e⟩
  · cases v with
    | none =>
      constructor
      · intro hl
        cases hl.raised
      · rintro (hv | he)
        · exact absurd rfl hv
        · exact absurd rfl he
    | some v => exact ⟨fun _ => Or.inl (Option.some_ne_none v),
        fun _ => ⟨rfl, rfl, fun e e' he => by cases he⟩⟩
  · refine ⟨fun _ => Or.inr (Option.some_ne_none e), fun _ => ⟨rfl, rfl, fun e₁ e₂ h1 h2 => ?_⟩⟩
    cases h1
    cases h2
    exact hlike e

/-- `pd_setter` disagrees with the class where the getter of the rebuilt key fails. -/
theorem like_pdSetter (hlike : ∀ e, like e e) (hr : Refines A h w) (hi : Intercepts A h x cmd.name)
    (hb : BlocksGiven h x) (hn : Nested A ivars x (SameSent A ivars w x) n s (.set cmd v)) :
    Like like (outcome x ((level A n).pdSetter A (w.setIvars x s) x cmd.name v))
        (twinSend A ivars x n s cmd v) ↔
      HarmlessSetter like A ivars w x n s cmd v .blockKVO := by
  obtain ⟨key, hkey⟩ := exists_getterForSetter hi
  rw [blockReply_eq (local_level A n) (refines_setIvars hr x s) hi hkey]
  unfold HarmlessSetter
  cases hg : baseAnswer (level A n) A (w.setIvars x s) x key with
  | error e =>
    have hout : outcome x (⟨w.setIvars x s, [], some e⟩ : ScriptReply σ V) = (s, some e) :=
      Prod.ext (ivars_setIvars w x s) rfl
    dsimp only
    rw [hout]
    constructor
    · rintro ⟨hivars, hraised, hkind⟩ key' e₁ hkey' he₁
      cases hkey.symm.trans hkey'
      cases hg.symm.trans he₁
      obtain ⟨e', he'⟩ := Option.isSome_iff_exists.mp hraised.symm
      exact ⟨hivars.symm, e', he', hkind e e' rfl he'⟩
    · intro hh
      obtain ⟨hivars, e', he', hl⟩ := hh key e hkey hg
      refine ⟨hivars.symm, by rw [he']; rfl, fun e₁ e₂ h1 h2 => ?_⟩
      cases h1
      cases he'.symm.trans h2
      exact hl
  | ok old =>
    have hharmless : ∀ key' e, getterForSetter A.table cmd.name = .ok (some key') →
        baseAnswer (level A n) A (w.setIvars x s) x key' = .error e →
          (twinSend A ivars x n s cmd v).1 = s ∧
            ∃ e', (twinSend A ivars x n s cmd v).2 = some e' ∧ like e e' := by
      intro key' e hkey' he
      cases hkey.symm.trans hkey'
      cases hg.symm.trans he
    refine iff_of_true ?_ hharmless
    dsimp only
    rw [outcome_thenSend, base_agrees hn, callFirst_raised hb]
    rcases twinSend A ivars x n s cmd v with ⟨t, e | e⟩
    · exact ⟨rfl, rfl, fun e e' he => by cases he⟩
    · refine ⟨rfl, rfl, fun e₁ e₂ h1 h2 => ?_⟩
      cases h1
      cases h2
      exact hlike e

/-- A setter message leaves `x` as it leaves the twin exactly when it is harmless. -/
theorem like_iff_harmless (hlike : ∀ e, like e e) (hr : Refines A h w) (hb : BlocksGiven h x)
    (hn : Nested A ivars x (SameSent A ivars w x) n s (.set cmd v)) :
    Like like (sendAt (level A n) A w x s cmd v) (twinSend A ivars x n s cmd v) ↔
      Harmless like A ivars h w x n s (.set cmd v) := by
  unfold sendAt Harmless
  by_cases hi : Intercepts A h x cmd.name
  · rw [send_of_intercepts (refines_setIvars hr x s) hi, notifyingReply]
    cases A.attachedLast with
    | kvo =>
      have hl := like_observerSetter hlike hr hi hn .kvo
      exact ⟨fun hh _ => hl.mp hh, fun hh => hl.mpr (hh hi)⟩
    | autoDeallocKVO =>
      have hl := like_observerSetter hlike hr hi hn .autoDeallocKVO
      exact ⟨fun hh _ => hl.mp hh, fun hh => hl.mpr (hh hi)⟩
    | blockKVO =>
      have hl := like_pdSetter hlike hr hi hb hn
      exact ⟨fun hh _ => hl.mp hh, fun hh => hl.mpr (hh hi)⟩
  · rw [send_of_not_intercepts (refines_setIvars hr x s) hi, base_agrees hn]
    refine iff_of_true ⟨rfl, rfl, fun e e' he he' => ?_⟩ fun hi' => absurd hi' hi
    cases he.symm.trans he'
    exact hlike e

end Set

/-- **One message**, where the messages to `self` that it leads to agree with the twin. -/
theorem same_iff_harmless (hr : Refines A h w) (hb : BlocksGiven h x) {m : Message V}
    (hn : Nested A ivars x (SameSent A ivars w x) n s m) :
    SameSent A ivars w x n s m ↔ Harmless Eq A ivars h w x n s m := by
  cases m with
  | set cmd v =>
    rw [SameSent, ← like_eq]
    exact like_iff_harmless (fun _ => rfl) hr hb hn
  | get question =>
    have hstart : observed ([] : List (Op V)) x = false := rfl
    cases question with
    | objectGetClass =>
      rw [SameSent, twinAsk, askAt_objectGetClass hr,
        askAt_objectGetClass (Refines.start A ivars), Harmless]
      by_cases hx : observed h x = true
      · simp [hx, hstart]
      · simp [hx, hstart]
    | message key =>
      rw [SameSent, twinAsk, askAt_eq hr, askAt_eq (Refines.start A ivars), Harmless]
      cases hm : getMethod A.classes (A.classOf x) key.name with
      | none => simp
      | some b =>
        cases b with
        | setter f => simp
        | getter f =>
          have he : (level A n).getter f (w.setIvars x s) x =
              (level A n).getter f ((A.start ivars).setIvars x s) x := by
            cases n with
            | zero => rfl
            | succ n =>
              rw [Nested, hm] at hn
              exact getter_agrees (fun question hP => hP.1) hn
          simp [he]
        | nsobjectClass =>
          simp only [hstart, Bool.false_eq_true, false_and, ↓reduceIte]
          by_cases hx : observed h x = true
          · by_cases hc : key.name = lit "class"
            · simp [hc]
            · simp [hx, hc]
          · simp [hx]

/-- The messages to `self` agree with the twin exactly when they are harmless. -/
theorem nested_iff (hr : Refines A h w) (hb : BlocksGiven h x) (n : Nat) (s : σ) (m : Message V) :
    Nested A ivars x (SameSent A ivars w x) n s m ↔
      Nested A ivars x (Harmless Eq A ivars h w x) n s m := by
  induction n generalizing s m with
  | zero => cases m <;> exact Iff.rfl
  | succ n ih =>
    -- A message that one of them sends agrees, given that those sent for it do.
    have hone : ∀ s m, (SameSent A ivars w x n s m ∧ Nested A ivars x (SameSent A ivars w x) n s m) ↔
        (Harmless Eq A ivars h w x n s m ∧
          Nested A ivars x (Harmless Eq A ivars h w x) n s m) := by
      intro s m
      rw [← ih s m]
      exact and_congr_left fun hn => same_iff_harmless hr hb hn
    cases m with
    | set cmd v =>
      rw [Nested, Nested]
      cases getMethod A.classes (A.classOf x) cmd.name with
      | none => exact Iff.rfl
      | some b =>
        cases b with
        | setter f => exact Script.each_congr hone _
        | getter f => exact Query.each_congr (hone s) _
        | nsobjectClass => exact Iff.rfl
    | get question =>
      cases question with
      | objectGetClass => exact Iff.rfl
      | message key =>
        rw [Nested, Nested]
        cases getMethod A.classes (A.classOf x) key.name with
        | none => exact Iff.rfl
        | some b =>
          cases b with
          | setter f => exact Iff.rfl
          | getter f => exact Query.each_congr (hone s) _
          | nsobjectClass => exact Iff.rfl

end OneMessage

/-! ## Runs of messages -/

/-- The message is harmless, whatever it raises, and those to `self` are that it leads to. -/
def HarmlessThroughout (A : ScriptApp σ V) (ivars : Oid → σ) (h : List (Op V)) (w : ScriptWorld σ V)
    (x : Oid) (n : Nat) (s : σ) (m : Message V) : Prop :=
  Harmless (fun _ _ => True) A ivars h w x n s m ∧
    Nested A ivars x (Harmless Eq A ivars h w x) n s m

/-- A run of messages to `x` agrees with the twin where those to `self` do. -/
theorem agrees_of_refines {A : ScriptApp σ V} (ivars : Oid → σ) {h : List (Op V)}
    {w : ScriptWorld σ V} {x : Oid} (hr : Refines A h w) (hb : BlocksGiven h x) (n : Nat)
    {ms : List (SetterSEL × Option V)}
    (hn : AtEach (fun pre m => Nested A ivars x (SameSent A ivars w x) n
      ((twin A ivars n x).run (w.ivars x) pre) (.set m.1 m.2)) ms) :
    Agrees (messages A n x) (twin A ivars n x) (fun w => w.ivars x) w ms ↔
      AtEach (fun pre m => Harmless (fun _ _ => True) A ivars h w x n
        ((twin A ivars n x).run (w.ivars x) pre) (.set m.1 m.2)) ms := by
  have keep : ∀ w' m, OnlyIvars x w w' → OnlyIvars x w ((messages A n x).next w' m) :=
    fun w' m hw' => hw'.trans ((local_level A n).msgSend A w' x m.1 m.2)
  have one : ∀ w' (m : SetterSEL × Option V), OnlyIvars x w w' →
      Nested A ivars x (SameSent A ivars w x) n (w'.ivars x) (.set m.1 m.2) →
      ((((messages A n x).next w' m).ivars x = (twin A ivars n x).next (w'.ivars x) m ∧
          (messages A n x).output w' m = (twin A ivars n x).output (w'.ivars x) m) ↔
        Harmless (fun _ _ => True) A ivars h w x n (w'.ivars x) (.set m.1 m.2)) := by
    intro w' m hw' hm
    rw [← like_iff_harmless (fun _ => trivial) hr hb hm, like_any, sendAt,
      ← eq_setIvars_of_onlyIvars hw']
    exact Iff.rfl
  exact agrees_iff (M := messages A n x) (N := twin A ivars n x) (π := fun w => w.ivars x)
    (C := fun s m => Harmless (fun _ _ => True) A ivars h w x n s (.set m.1 m.2))
    (D := fun s m => Nested A ivars x (SameSent A ivars w x) n s (.set m.1 m.2))
    keep one (OnlyIvars.refl x w) hn

def setNick : SetterSEL := ⟨lit "setNick:", by decide⟩

/-- The ivars with one of them changed. -/
def store (k : NSString) (v : Option Nat) (s : NSString → Option Nat) : NSString → Option Nat :=
  fun l => if l = k then v else s l

/-- `Person` with `name` and `nick`; a new name clears the nick. -/
def nickApp : ScriptApp (NSString → Option Nat) Nat where
  table := asciiTable
  classObject _ := 0
  classes := [⟨lit "Person", some (lit "NSObject"),
    [(lit "name", .getter fun s => .answer (s (lit "name"))),
     (lit "nick", .getter fun s => .answer (s (lit "nick"))),
     (lit "setNick:", .setter fun s v => .done (store (lit "nick") v s)),
     (lit "setName:", .setter fun s v =>
       .send (store (lit "name") v s) setNick none fun s e => e.elim (.done s) (.raise s))]⟩,
    ⟨lit "NSObject", none, [(lit "class", .nsobjectClass)]⟩]
  classOf _ := lit "Person"
  order := personApp.order
  order_ne_nil := personApp.order_ne_nil
  objc _ := 0
  not_notifying := by decide
  class_inherited _ := rfl

/-- A block on `name` and one on `nick`. -/
def blocksOnBoth : List (Op Nat) :=
  [.pdAddObserverBlock 1 (some 2) (some (lit "name")) (some 3),
   .pdAddObserverBlock 1 (some 2) (some (lit "nick")) (some 4)]

/-- So does a name that is not `nil`, where `nick` is observed. -/
example :
    ¬ Agrees (messages (nickApp.alone .kvo) 2 1) (twin (nickApp.alone .kvo) (fun _ _ => none) 2 1)
      (fun w => w.ivars 1)
      ((level (nickApp.alone .kvo) 2).after (nickApp.alone .kvo) (fun _ _ => none)
        [.gvAddObserver 1 (some 2) (some (lit "nick"))])
      [(setName, some 5)] := by
  intro hall
  have hout := (hall [] _ [] rfl).2
  revert hout
  decide

end BottomResearch.Transparency
