import Mathlib.Algebra.Group.Nat.Defs
import Mathlib.Data.Fintype.Basic
import Mathlib.Logic.Function.Basic

/-!
# Reference counts

`rootRetain`, `rootRelease` and `changeIsa` in `objc-object.h`, with the functions
of the side table in `NSObject.mm`, as steps of threads on one object.  A
reference count is split: some of it is in the isa, which is written by exclusive
stores without a lock, the rest in the side table, under its lock.  A store that
finds the isa changed since it was loaded fails, and may also fail by itself.
-/

namespace BottomResearch.RetainCount

/-! ## The two places -/

inductive Arch where
  | arm64
  | x86_64
  | armv7k
  deriving DecidableEq, Repr

/-- The width of `extra_rc`. -/
def rcBits : Arch → Nat
  | .arm64 => 19
  | .x86_64 => 8
  | .armv7k => 7

/-- `RC_HALF`, "half of its range". -/
def rcHalf (arch : Arch) : Nat := 2 ^ (rcBits arch - 1)

/-- The fields of `isa_t` that the functions read.  With a raw pointer all other
fields are in the side table. -/
structure Isa where
  nonpointer : Bool
  weaklyReferenced : Bool
  deallocating : Bool
  hasSidetableRc : Bool
  extraRc : Nat
  deriving DecidableEq, Repr

def Isa.raw : Isa := ⟨false, false, false, false, 0⟩

/-- `extra_rc++` does not carry. -/
def Isa.fits (arch : Arch) (isa : Isa) (n : Nat) : Bool := isa.extraRc + n < 2 ^ rcBits arch

/-- An entry of `RefcountMap`, by the bits `SIDE_TABLE_WEAKLY_REFERENCED`,
`SIDE_TABLE_DEALLOCATING` and those from `SIDE_TABLE_RC_ONE` on. -/
structure Refcnt where
  weaklyReferenced : Bool
  deallocating : Bool
  count : Nat
  deriving DecidableEq, Repr

def Refcnt.zero : Refcnt := ⟨false, false, 0⟩

/-- The entry as one number. -/
def Refcnt.word (r : Refcnt) : Nat :=
  r.weaklyReferenced.toNat + 2 * r.deallocating.toNat + 4 * r.count

/-- `WORD_BITS`. -/
def wordBits : Arch → Nat
  | .arm64 | .x86_64 => 64
  | .armv7k => 32

/-- The counts from here on reach `SIDE_TABLE_RC_PINNED`, the highest bit of the entry. -/
def pinnedCount (arch : Arch) : Nat := 2 ^ (wordBits arch - 3)

/-- Where a run of the model stops.  `pinned` is no error of the source, which
would no longer count from there on. -/
inductive Fault where
  | overreleased
  | sideTableUnderflow
  | pinned
  deriving DecidableEq, Repr

/-- The entry with another count. -/
def Refcnt.add (arch : Arch) (r : Refcnt) (n : Nat) : Except Fault Refcnt :=
  if r.count + n < pinnedCount arch then .ok { r with count := r.count + n } else .error .pinned

/-- The entry of the object; an access through `operator[]` makes one. -/
abbrev Side := Option Refcnt

def sidetableAddExtraRC (arch : Arch) (side : Side) (deltaRc : Nat) : Except Fault Side :=
  some <$> (side.getD .zero).add arch deltaRc

/-- The count that was subtracted, which is 0 when there is none. -/
def sidetableSubExtraRC (side : Side) (deltaRc : Nat) : Except Fault (Side × Nat) :=
  match side with
  | none => .ok (none, 0)
  | some r =>
    if r.word = 0 then .ok (some r, 0)
    else if deltaRc ≤ r.count then .ok (some { r with count := r.count - deltaRc }, deltaRc)
    else .error .sideTableUnderflow

def sidetableGetExtraRC (side : Side) : Nat :=
  match side with
  | none => 0
  | some r => r.count

def sidetableMoveExtraRC (arch : Arch) (side : Side) (old : Isa) : Except Fault Side := do
  let r ← (side.getD .zero).add arch old.extraRc
  .ok (some { r with
    deallocating := r.deallocating || old.deallocating
    weaklyReferenced := r.weaklyReferenced || old.weaklyReferenced })

def sidetableRetain (arch : Arch) (side : Side) : Except Fault Side :=
  some <$> (side.getD .zero).add arch 1

def sidetableTryRetain (arch : Arch) (side : Side) : Except Fault (Side × Bool) :=
  match side with
  | none => .ok (some { Refcnt.zero with count := 1 }, true)
  | some r =>
    if r.deallocating then .ok (some r, false)
    else do
      let r ← r.add arch 1
      .ok (some r, true)

/-- Tells whether the object should now be deallocated. -/
def sidetableRelease (side : Side) : Except Fault (Side × Bool) :=
  match side with
  | none => .ok (some { Refcnt.zero with deallocating := true }, true)
  | some r =>
    if r.word < 2 then .ok (some { r with deallocating := true }, true)
    else if r.count = 0 then .error .sideTableUnderflow
    else .ok (some { r with count := r.count - 1 }, false)

/-! ## Threads -/

/-- Where a thread is.  `tried` is `tryRetain`, whose caller holds the lock;
`slow` is `handleOverflow` or `handleUnderflow`; `locked` is `sideTableLocked`;
`old` is the isa that was loaded. -/
inductive Pc where
  | idle
  | retainLoad (tried slow locked : Bool)
  | retainLock (old : Isa)
  | retainStore (tried slow locked : Bool) (old : Isa)
  | retainTranscribe (tried : Bool)
  | sideRetain
  | releaseLoad (slow locked : Bool)
  | releaseLock
  | releaseStore (slow locked : Bool) (old : Isa)
  | releaseBorrow (old : Isa)
  | releaseBorrowed (old : Isa) (borrowed : Nat)
  | releaseReload (borrowed : Nat)
  | releaseRestore (old : Isa) (borrowed : Nat)
  | releaseReturn (borrowed : Nat)
  | releaseDealloc (slow locked : Bool) (old : Isa)
  | sideRelease
  | changeLoad (locked : Bool)
  | changeLock (old : Isa)
  | changeStore (old : Isa)
  | changeTranscribe (old : Isa)
  deriving DecidableEq, Repr

variable {T : Type} [DecidableEq T]

/-- `owns` counts the references of each thread; it is no state of the source.  A
reference that is given up counts until the store that takes it from the count. -/
structure State (T : Type) where
  isa : Isa
  side : Side
  lock : Option T
  pc : T → Pc
  owns : T → Nat
  /-- The messages `-dealloc`. -/
  deallocs : Nat

/-- A new object, of a class with or without a nonpointer isa. -/
def State.init (nonpointer : Bool) (t : T) : State T where
  isa := { Isa.raw with nonpointer := nonpointer }
  side := none
  lock := none
  pc _ := .idle
  owns := Function.update (fun _ => 0) t 1
  deallocs := 0

namespace State

variable (s : State T) (t : T)

def goto (pc : Pc) : State T := { s with pc := Function.update s.pc t pc }

def unlockIf (b : Bool) : State T := if b then { s with lock := none } else s

/-- The function returns. -/
def return' (locked : Bool) : State T := (s.unlockIf locked).goto t .idle

def gain : State T := { s with owns := Function.update s.owns t (s.owns t + 1) }

def lose : State T := { s with owns := Function.update s.owns t (s.owns t - 1) }

/-- The thread goes on when the lock is free. -/
def lockThen (pc : Pc) : State T :=
  match s.lock with
  | none => { s with lock := some t }.goto t pc
  | some _ => s

end State

variable (arch : Arch)

/-- `rootRetain` from the load to the store. -/
def retainLoad (s : State T) (t : T) (tried slow locked : Bool) : Except Fault (State T) :=
  let old := s.isa
  if old.nonpointer = false then
    if tried then do
      let (side, ok) ← sidetableTryRetain arch s.side
      let s := { s with side := side }
      .ok ((if ok then s.gain t else s).return' t true)
    else .ok ((s.unlockIf locked).goto t .sideRetain)
  else if tried && old.deallocating then .ok (s.return' t true)
  else if old.fits arch 1 then .ok (s.goto t (.retainStore tried slow locked old))
  -- `rootRetain_overflow` starts anew.
  else if slow = false then .ok (s.goto t (.retainLoad tried true false))
  else if tried || locked then .ok (s.goto t (.retainStore tried slow locked old))
  else .ok (s.goto t (.retainLock old))

/-- The store of `rootRetain`. -/
def retainStore (s : State T) (t : T) (tried slow locked : Bool) (old : Isa) (stored : Bool) :
    State T :=
  if s.isa = old ∧ stored then
    if old.fits arch 1 then
      { s with isa := { old with extraRc := old.extraRc + 1 } }.gain t |>.return' t (tried || locked)
    else
      { s with isa := { old with extraRc := rcHalf arch, hasSidetableRc := true } }.gain t
        |>.goto t (.retainTranscribe tried)
  else s.goto t (.retainLoad tried slow locked)

/-- `rootRelease` from its label `retry` to the store or to `underflow`. -/
def releaseLoad (s : State T) (t : T) (slow locked : Bool) : State T :=
  let old := s.isa
  if old.nonpointer = false then (s.unlockIf locked).goto t .sideRelease
  else if 0 < old.extraRc then s.goto t (.releaseStore slow locked old)
  else if old.hasSidetableRc then
    -- `rootRelease_underflow` starts anew, and so does the thread that takes the lock.
    if slow = false then s.goto t (.releaseLoad true false)
    else if locked then s.goto t (.releaseBorrow old)
    else s.goto t .releaseLock
  else s.goto t (.releaseDealloc slow locked old)

def releaseBorrow (s : State T) (t : T) (old : Isa) : Except Fault (State T) := do
  let (side, borrowed) ← sidetableSubExtraRC s.side (rcHalf arch)
  let s := { s with side := side }
  .ok (if 0 < borrowed then s.goto t (.releaseBorrowed old borrowed)
    else s.goto t (.releaseDealloc true true old))

/-- "Really deallocate." -/
def releaseDealloc (s : State T) (t : T) (slow locked : Bool) (old : Isa) (stored : Bool) :
    Except Fault (State T) :=
  if old.deallocating then .error .overreleased
  else if s.isa = old ∧ stored then
    let s := { s with isa := { old with deallocating := true }, deallocs := s.deallocs + 1 }
    .ok ((s.lose t).return' t locked)
  else .ok (s.goto t (.releaseLoad slow locked))

/-- The next step of a thread; `stored` tells whether a store may succeed. -/
def advance (s : State T) (t : T) (stored : Bool) : Except Fault (State T) :=
  match s.pc t with
  | .idle => .ok s
  | .retainLoad tried slow locked => retainLoad arch s t tried slow locked
  | .retainLock old => .ok (s.lockThen t (.retainStore false true true old))
  | .retainStore tried slow locked old => .ok (retainStore arch s t tried slow locked old stored)
  | .retainTranscribe _ => do
    let side ← sidetableAddExtraRC arch s.side (rcHalf arch)
    .ok ({ s with side := side }.return' t true)
  | .sideRetain =>
    if s.lock = none then do
      let side ← sidetableRetain arch s.side
      .ok ({ s with side := side }.gain t |>.return' t false)
    else .ok s
  | .releaseLoad slow locked => .ok (releaseLoad s t slow locked)
  | .releaseLock => .ok (s.lockThen t (.releaseLoad true true))
  | .releaseStore slow locked old =>
    .ok (if s.isa = old ∧ stored then
        { s with isa := { old with extraRc := old.extraRc - 1 } }.lose t |>.return' t locked
      else s.goto t (.releaseLoad slow locked))
  | .releaseBorrow old => releaseBorrow arch s t old
  | .releaseBorrowed old borrowed =>
    .ok (if s.isa = old ∧ stored then
        { s with isa := { old with extraRc := borrowed - 1 } }.lose t |>.return' t true
      else s.goto t (.releaseReload borrowed))
  | .releaseReload borrowed =>
    .ok (if s.isa.nonpointer && s.isa.fits arch (borrowed - 1) then
        s.goto t (.releaseRestore s.isa borrowed)
      else s.goto t (.releaseReturn borrowed))
  | .releaseRestore old borrowed =>
    .ok (if s.isa = old ∧ stored then
        { s with isa := { old with extraRc := old.extraRc + (borrowed - 1) } }.lose t
          |>.return' t true
      else s.goto t (.releaseReturn borrowed))
  | .releaseReturn borrowed => do
    let side ← sidetableAddExtraRC arch s.side borrowed
    .ok ({ s with side := side }.goto t (.releaseLoad true true))
  | .releaseDealloc slow locked old => releaseDealloc s t slow locked old stored
  | .sideRelease =>
    if s.lock = none then do
      let (side, dealloc) ← sidetableRelease s.side
      let s := { s with side := side, deallocs := s.deallocs + dealloc.toNat }
      .ok ((s.lose t).return' t false)
    else .ok s
  | .changeLoad locked =>
    .ok (if s.isa.nonpointer = false then s.return' t locked
      else if locked then s.goto t (.changeStore s.isa)
      else s.goto t (.changeLock s.isa))
  | .changeLock old => .ok (s.lockThen t (.changeStore old))
  | .changeStore old =>
    .ok (if s.isa = old ∧ stored then { s with isa := .raw }.goto t (.changeTranscribe old)
      else s.goto t (.changeLoad true))
  | .changeTranscribe old => do
    let side ← sidetableMoveExtraRC arch s.side old
    .ok ({ s with side := side }.return' t true)

/-! ## What the callers do -/

inductive Action (T : Type) where
  | retain (t : T)
  | release (t : T)
  /-- `objc_loadWeakRetained`, which takes the lock of the side table. -/
  | tryRetain (t : T)
  /-- `changeIsa`, to a class without a nonpointer isa. -/
  | changeIsa (t : T)
  /-- A reference goes to another thread. -/
  | hand (t u : T)
  | step (t : T) (stored : Bool)
  deriving DecidableEq, Repr

inductive Stop where
  | fault (f : Fault)
  | misuse
  deriving DecidableEq, Repr

/-- All but `tryRetain` need a reference. -/
def allowed (s : State T) : Action T → Bool
  | .retain t | .release t | .changeIsa t | .hand t _ => s.pc t = .idle && decide (0 < s.owns t)
  | .tryRetain t => s.pc t = .idle
  | .step _ _ => true

def perform (s : State T) : Action T → Except Fault (State T)
  | .retain t => .ok (s.goto t (.retainLoad false false false))
  | .release t => .ok (s.goto t (.releaseLoad false false))
  | .tryRetain t => .ok (s.lockThen t (.retainLoad true false false))
  | .changeIsa t => .ok (s.goto t (.changeLoad false))
  | .hand t u => .ok ((s.lose t).gain u)
  | .step t stored => advance arch s t stored

def step (s : State T) (a : Action T) : Except Stop (State T) :=
  if allowed s a then
    match perform arch s a with
    | .ok s => .ok s
    | .error f => .error (.fault f)
  else .error .misuse

def run (s : State T) (as : List (Action T)) : Except Stop (State T) := as.foldlM (step arch) s

/-- `rootRetainCount`, which holds the lock. -/
def rootRetainCount (s : State T) : Nat :=
  if s.isa.nonpointer then
    1 + s.isa.extraRc + if s.isa.hasSidetableRc then sidetableGetExtraRC s.side else 0
  else 1 + sidetableGetExtraRC s.side

end BottomResearch.RetainCount
