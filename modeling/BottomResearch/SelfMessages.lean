import BottomResearch.Messages

/-!
# Accessors that send messages to `self`

The code of an accessor is given by what it does between the messages that it sends
to `self`, so that an overridden selector is reached from within it as well.  It may ask
for the class that the isa names.  A call to `super` or to another function runs code that
is known when the process starts and is part of the accessor's.  Messages nest as deep as
the stack has room for.  Proved here:

* `local_level`: such accessors change only the instance variables of their receiver;
* `outcome_run`: what an accessor does to its receiver depends on the process only
  through the messages to `self`;
* `Script.exec_congr`: where these have the same outcomes, so has the accessor.
-/

namespace BottomResearch.SelfMessages

open Foundation Dispatch Runs Observing Registrations Messages

/-! ## Code -/

/-- The selector of a message without argument.  ARC forbids the message `dealloc`. -/
structure GetterSEL where
  name : NSString
  no_colon : ¬ lit ":" <:+ name
  not_dealloc : name ≠ lit "dealloc"

/-- What an accessor can ask about `self`. -/
inductive Question
  | message (key : GetterSEL)
  | objectGetClass

/-- What is left of a getter. -/
inductive Query (V : Type)
  | answer (v : Option V)
  | raise (e : Raised)
  | ask (question : Question) (next : Except Raised (Option V) → Query V)

/-- What is left of a setter, the instance variables being `s`.  It goes on with what a
message to `self` has left or answered, or with the exception, which it may catch. -/
inductive Script (σ V : Type)
  | done (s : σ)
  | raise (s : σ) (e : Raised)
  | send (s : σ) (cmd : SetterSEL) (newValue : Option V) (next : σ → Option Raised → Script σ V)
  | ask (s : σ) (question : Question) (next : Except Raised (Option V) → Script σ V)

abbrev Setter (σ V : Type) := σ → Option V → Script σ V

abbrev Getter (σ V : Type) := σ → Query V

abbrev ScriptApp (σ V : Type) := AppOf (Setter σ V) (Getter σ V) V

abbrev ScriptWorld (σ V : Type) := WorldOf (Setter σ V) (Getter σ V) σ

abbrev ScriptReply (σ V : Type) := ReplyOf (Setter σ V) (Getter σ V) σ V

variable {σ V : Type}

/-- What ends the process and cannot be caught. -/
def crashes : Raised → Bool
  | .badAccess | .stackOverflow => true
  | _ => false

/-! ## Running it -/

def Query.run (ask : Question → Except Raised (Option V)) : Query V → Except Raised (Option V)
  | .answer v => .ok v
  | .raise e => .error e
  | .ask question next =>
    match ask question with
    | .ok a => (next (.ok a)).run ask
    | .error e => if crashes e then .error e else (next (.error e)).run ask

def Script.run (send : ScriptWorld σ V → SetterSEL → Option V → ScriptReply σ V)
    (ask : ScriptWorld σ V → Question → Except Raised (Option V)) (self : Oid) :
    Script σ V → ScriptWorld σ V → ScriptReply σ V
  | .done s, w => ⟨w.setIvars self s, [], none⟩
  | .raise s e, w => ⟨w.setIvars self s, [], some e⟩
  | .send s cmd newValue next, w =>
    let r := send (w.setIvars self s) cmd newValue
    if r.raised.any crashes then r
    else
      let r' := (next (r.world.ivars self) r.raised).run send ask self r.world
      ⟨r'.world, r.events ++ r'.events, r'.raised⟩
  | .ask s question next, w =>
    match ask (w.setIvars self s) question with
    | .ok a => (next (.ok a)).run send ask self (w.setIvars self s)
    | .error e =>
      if crashes e then ⟨w.setIvars self s, [], some e⟩
      else (next (.error e)).run send ask self (w.setIvars self s)

/-- `objc_msgSend` of a message without argument. -/
def msgSendGetter (run : Code (Setter σ V) (Getter σ V) σ V) (A : ScriptApp σ V)
    (w : ScriptWorld σ V) (self : Oid) (cmd : GetterSEL) : Except Raised (Option V) :=
  match getMethod w.classes (w.isa self) cmd.name with
  | some (.body (.getter f)) => run.getter f w self
  | some (.body .nsobjectClass) => .ok (some (A.classObject (w.isa self)))
  | some (.kvoClass _) => .ok ((kvoClass w self).map A.classObject)
  -- A setter would take its argument from wherever it lies.
  | some _ => .error .badAccess
  | none => .error .unrecognizedSelector

/-- What the runtime answers. -/
def answer (run : Code (Setter σ V) (Getter σ V) σ V) (A : ScriptApp σ V) (w : ScriptWorld σ V)
    (self : Oid) : Question → Except Raised (Option V)
  | .message key => msgSendGetter run A w self key
  | .objectGetClass => .ok (some (A.classObject (w.isa self)))

/-- The code with room for `n` nested messages on the stack. -/
def level (A : ScriptApp σ V) : Nat → Code (Setter σ V) (Getter σ V) σ V
  | 0 =>
    { setter := fun _ w _ _ => ⟨w, [], some .stackOverflow⟩
      getter := fun _ _ _ => .error .stackOverflow }
  | n + 1 =>
    { setter := fun f w self newValue =>
        (f (w.ivars self) newValue).run (fun w => (level A n).msgSend A w self)
          (fun w => answer (level A n) A w self) self w
      getter := fun f w self => (f (w.ivars self)).run (answer (level A n) A w self) }

/-! ## What it does to the receiver -/

/-- What a call leaves of its receiver, and what it raised. -/
def outcome (x : Oid) (r : ScriptReply σ V) : σ × Option Raised := (r.world.ivars x, r.raised)

/-- The script as a function of the outcomes of the messages to `self`. -/
def Script.exec (send : σ → SetterSEL → Option V → σ × Option Raised)
    (ask : σ → Question → Except Raised (Option V)) : Script σ V → σ × Option Raised
  | .done s => (s, none)
  | .raise s e => (s, some e)
  | .send s cmd newValue next =>
    let r := send s cmd newValue
    if r.2.any crashes then r else (next r.1 r.2).exec send ask
  | .ask s question next =>
    match ask s question with
    | .ok a => (next (.ok a)).exec send ask
    | .error e => if crashes e then (s, some e) else (next (.error e)).exec send ask

/-- A message to `self`, or another question about it. -/
inductive Message (V : Type)
  | set (cmd : SetterSEL) (newValue : Option V)
  | get (question : Question)

/-- Each message that the getter sends meets `P`, where `ask` answers it. -/
def Query.Each (ask : Question → Except Raised (Option V)) (P : Message V → Prop) :
    Query V → Prop
  | .answer _ => True
  | .raise _ => True
  | .ask question next =>
    P (.get question) ∧
      match ask question with
      | .ok a => (next (.ok a)).Each ask P
      | .error e => crashes e = false → (next (.error e)).Each ask P

/-- Each message that the setter sends meets `P`, where `send` and `ask` answer it. -/
def Script.Each (send : σ → SetterSEL → Option V → σ × Option Raised)
    (ask : σ → Question → Except Raised (Option V)) (P : σ → Message V → Prop) :
    Script σ V → Prop
  | .done _ => True
  | .raise _ _ => True
  | .send s cmd newValue next =>
    P s (.set cmd newValue) ∧ ((send s cmd newValue).2.any crashes = false →
      (next (send s cmd newValue).1 (send s cmd newValue).2).Each send ask P)
  | .ask s question next =>
    P s (.get question) ∧
      match ask s question with
      | .ok a => (next (.ok a)).Each send ask P
      | .error e => crashes e = false → (next (.error e)).Each send ask P

section Query

variable {ask ask' : Question → Except Raised (Option V)} {P Q : Message V → Prop}

/-- Where the messages have the same answers, so has the getter. -/
theorem Query.run_congr (hP : ∀ question, P (.get question) → ask' question = ask question)
    {q : Query V} (h : q.Each ask P) : q.run ask' = q.run ask := by
  induction q with
  | answer v => rfl
  | raise e => rfl
  | ask question next ih =>
    rw [Each] at h
    obtain ⟨hq, hnext⟩ := h
    simp only [run, hP question hq]
    cases ha : ask question with
    | ok a =>
      rw [ha] at hnext
      exact ih _ hnext
    | error e =>
      rw [ha] at hnext
      dsimp only
      cases hc : crashes e with
      | true => rfl
      | false => exact ih _ (hnext hc)

theorem Query.each_congr (hPQ : ∀ m, P m ↔ Q m) (q : Query V) : q.Each ask P ↔ q.Each ask Q := by
  induction q with
  | answer v => exact Iff.rfl
  | raise e => exact Iff.rfl
  | ask question next ih =>
    simp only [Each, hPQ]
    cases ask question with
    | ok a => simp only [ih]
    | error e => simp only [ih]

end Query

section Exec

variable {send send' : σ → SetterSEL → Option V → σ × Option Raised}
  {ask ask' : σ → Question → Except Raised (Option V)} {P Q : σ → Message V → Prop}

theorem Script.exec_crash {s : σ} {cmd : SetterSEL} {v : Option V}
    {next : σ → Option Raised → Script σ V} (h : (send s cmd v).2.any crashes = true) :
    (Script.send s cmd v next).exec send ask = send s cmd v :=
  if_pos h

theorem Script.exec_next {s : σ} {cmd : SetterSEL} {v : Option V}
    {next : σ → Option Raised → Script σ V} (h : ¬ (send s cmd v).2.any crashes = true) :
    (Script.send s cmd v next).exec send ask =
      (next (send s cmd v).1 (send s cmd v).2).exec send ask :=
  if_neg h

/-- Where the messages have the same outcomes, so has the setter. -/
theorem Script.exec_congr (hset : ∀ s cmd v, P s (.set cmd v) → send' s cmd v = send s cmd v)
    (hget : ∀ s question, P s (.get question) → ask' s question = ask s question) {p : Script σ V}
    (h : p.Each send ask P) : p.exec send' ask' = p.exec send ask := by
  induction p with
  | done s => rfl
  | raise s e => rfl
  | send s cmd v next ih =>
    obtain ⟨hP, hnext⟩ := h
    simp only [exec, hset s cmd v hP]
    cases hc : (send s cmd v).2.any crashes with
    | true => rfl
    | false => exact ih _ _ (hnext hc)
  | ask s question next ih =>
    rw [Each] at h
    obtain ⟨hP, hnext⟩ := h
    simp only [exec, hget s question hP]
    cases ha : ask s question with
    | ok a =>
      rw [ha] at hnext
      exact ih _ hnext
    | error e =>
      rw [ha] at hnext
      dsimp only
      cases hc : crashes e with
      | true => rfl
      | false => exact ih _ (hnext hc)

theorem Script.each_congr (hPQ : ∀ s m, P s m ↔ Q s m) (p : Script σ V) :
    p.Each send ask P ↔ p.Each send ask Q := by
  induction p with
  | done s => exact Iff.rfl
  | raise s e => exact Iff.rfl
  | send s cmd v next ih => simp only [Each, hPQ, ih]
  | ask s question next ih =>
    simp only [Each, hPQ]
    cases ask s question with
    | ok a => simp only [ih]
    | error e => simp only [ih]

end Exec

/-! ## Accessors change only their receiver -/

/-- Only the instance variables of `x` tell the two apart. -/
theorem eq_setIvars_of_onlyIvars {S G : Type} {x : Oid} {w w' : WorldOf S G σ}
    (h : OnlyIvars x w w') : w' = w.setIvars x (w'.ivars x) := by
  obtain ⟨classes, isa, ivars, observer, infos⟩ := w'
  obtain ⟨rfl, rfl, rfl, rfl, hivars⟩ := h
  unfold WorldOf.setIvars
  congr 1
  funext y
  by_cases e : y = x
  · rw [if_pos e, e]
  · rw [if_neg e]
    exact hivars y e

theorem setIvars_setIvars {S G : Type} (w : WorldOf S G σ) (x : Oid) (s s' : σ) :
    (w.setIvars x s).setIvars x s' = w.setIvars x s' := by
  unfold WorldOf.setIvars
  congr 1
  funext y
  by_cases e : y = x
  · rw [if_pos e, if_pos e]
  · simp only [if_neg e]

theorem onlyIvars_run {send : ScriptWorld σ V → SetterSEL → Option V → ScriptReply σ V}
    {ask : ScriptWorld σ V → Question → Except Raised (Option V)} {x : Oid}
    (hsend : ∀ w cmd v, OnlyIvars x w (send w cmd v).world) (p : Script σ V) (w : ScriptWorld σ V) :
    OnlyIvars x w (p.run send ask x w).world := by
  induction p generalizing w with
  | done s => exact onlyIvars_setIvars x w s
  | raise s e => exact onlyIvars_setIvars x w s
  | send s cmd v next ih =>
    have h := (onlyIvars_setIvars x w s).trans (hsend _ cmd v)
    simp only [Script.run]
    split
    · exact h
    · exact h.trans (ih _ _ _)
  | ask s question next ih =>
    have h := onlyIvars_setIvars x w s
    simp only [Script.run]
    split
    · exact h.trans (ih _ _)
    · split
      · exact h
      · exact h.trans (ih _ _)

theorem local_level (A : ScriptApp σ V) (n : Nat) : (level A n).Local := by
  induction n with
  | zero => exact fun _ w x _ => OnlyIvars.refl x w
  | succ n ih => exact fun f w x v => onlyIvars_run (fun w cmd v => ih.msgSend A w x cmd v) _ w

/-! ## Messages as outcomes -/

variable {run : Code (Setter σ V) (Getter σ V) σ V} {A : ScriptApp σ V} {w : ScriptWorld σ V}
  {x : Oid}

/-- A message to `x` in the process `w`, by the instance variables of `x`. -/
def sendAt (run : Code (Setter σ V) (Getter σ V) σ V) (A : ScriptApp σ V) (w : ScriptWorld σ V)
    (x : Oid) (s : σ) (cmd : SetterSEL) (newValue : Option V) : σ × Option Raised :=
  outcome x (run.msgSend A (w.setIvars x s) x cmd newValue)

def askAt (run : Code (Setter σ V) (Getter σ V) σ V) (A : ScriptApp σ V) (w : ScriptWorld σ V)
    (x : Oid) (s : σ) (question : Question) : Except Raised (Option V) :=
  answer run A (w.setIvars x s) x question

theorem outcome_run (hrun : run.Local) (p : Script σ V) (s : σ) :
    outcome x (p.run (fun w => run.msgSend A w x) (fun w => answer run A w x) x
      (w.setIvars x s)) = p.exec (sendAt run A w x) (askAt run A w x) := by
  induction p generalizing s with
  | done t => exact Prod.ext (ivars_setIvars _ x t) rfl
  | raise t e => exact Prod.ext (ivars_setIvars _ x t) rfl
  | send t cmd v next ih =>
    have hw := eq_setIvars_of_onlyIvars (hrun.msgSend A (w.setIvars x t) x cmd v)
    rw [setIvars_setIvars] at hw
    simp only [Script.run, setIvars_setIvars]
    by_cases hc : (run.msgSend A (w.setIvars x t) x cmd v).raised.any crashes = true
    · rw [if_pos hc, Script.exec_crash hc]
      rfl
    · rw [if_neg hc, Script.exec_next hc]
      have hnext := ih ((run.msgSend A (w.setIvars x t) x cmd v).world.ivars x)
        (run.msgSend A (w.setIvars x t) x cmd v).raised
        ((run.msgSend A (w.setIvars x t) x cmd v).world.ivars x)
      rw [← hw] at hnext
      exact hnext
  | ask t question next ih =>
    simp only [Script.run, Script.exec, setIvars_setIvars, askAt]
    cases answer run A (w.setIvars x t) x question with
    | ok a => exact ih _ t
    | error e =>
      dsimp only
      split
      · exact Prod.ext (ivars_setIvars _ x t) rfl
      · exact ih _ t

end BottomResearch.SelfMessages
