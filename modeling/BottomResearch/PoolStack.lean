import Mathlib.Data.List.Basic
import Mathlib.Data.List.Count

/-!
# A stack with pools

A stack of references and boundaries.  A pool is a boundary and what lies above
it; popping the pool releases its references, newest first.  Releasing a
reference runs code, which may depend on all that happened before, push more
references, use pools of its own and leave pools that nothing pops.  Proved here:

* code only adds to the stack that it finds, and a pool leaves it as it was;
* a reference is released as often as it was pushed, but for those still on the
  stack and those leaked for want of a pool;
* code returns when what is released only pushes references of a lower rank.
-/

namespace BottomResearch.PoolStack

inductive Code (α : Type) where
  | done
  | autorelease (o : α) (next : Code α)
  | push (next : Code α)
  | pool (body next : Code α)

inductive Event (α : Type) where
  | autoreleased (o : α)
  | released (o : α)
  | leaked (o : α)
  deriving DecidableEq

/-- The stack and the history, both newest first; `none` is a boundary.
`inPlace` is off until a pool is pushed or a reference kept. -/
structure Pools (α : Type) where
  stack : List (Option α)
  inPlace : Bool
  history : List (Event α)

/-- What the release of a reference runs, by what happened before. -/
abbrev OnRelease (α : Type) := List (Event α) → α → Code α

variable {α : Type}

namespace Pools

def empty : Pools α := ⟨[], false, []⟩

def push (s : Pools α) : Pools α := { s with stack := none :: s.stack, inPlace := true }

def autorelease (leaks : Bool) (o : α) (s : Pools α) : Pools α :=
  if leaks && !s.inPlace then
    { s with history := .leaked o :: .autoreleased o :: s.history }
  else
    { stack := some o :: s.stack
      inPlace := true
      history := .autoreleased o :: s.history }

end Pools

/-- The pushes above height `n` are undone, and their references released. -/
def drain (onRelease : OnRelease α) (run : Code α → Pools α → Option (Pools α)) (n : Nat) :
    Nat → Pools α → Option (Pools α)
  | 0, s => if s.stack.length ≤ n then some s else none
  | fuel + 1, s =>
    if s.stack.length ≤ n then some s
    else match s.stack with
      | [] => some s
      | none :: rest => drain onRelease run n fuel { s with stack := rest }
      | some o :: rest =>
        run (onRelease s.history o) { s with
          stack := rest
          history := .released o :: s.history } >>= drain onRelease run n fuel

def popTo (onRelease : OnRelease α) (run : Code α → Pools α → Option (Pools α)) (n fuel : Nat)
    (s : Pools α) : Option (Pools α) :=
  (drain onRelease run n fuel s).map fun s' => { s' with inPlace := decide (n ≠ 0) }

def exec (leaks : Bool) (onRelease : OnRelease α) : Nat → Code α → Pools α → Option (Pools α)
  | 0, _, _ => none
  | _ + 1, .done, s => some s
  | fuel + 1, .autorelease o next, s => exec leaks onRelease fuel next (s.autorelease leaks o)
  | fuel + 1, .push next, s => exec leaks onRelease fuel next s.push
  | fuel + 1, .pool body next, s => do
    let s1 ← exec leaks onRelease fuel body s.push
    let s2 ← popTo onRelease (exec leaks onRelease fuel) s.stack.length fuel s1
    exec leaks onRelease fuel next s2

/-! ## The bottom of the stack -/

section Bottom

variable {leaks : Bool} {s : Pools α}

namespace Pools

/-- Where references may leak, a pool is in place and lies at the bottom. -/
def Held (leaks : Bool) (s : Pools α) : Prop :=
  leaks = true → s.inPlace = true ∧ s.stack.getLast? = some none

/-- The same of a stack that may have been popped to the bottom. -/
def Bottom (leaks : Bool) (s : Pools α) : Prop :=
  leaks = true → s.inPlace = true ∧ ∀ o, s.stack.getLast? ≠ some (some o)

/-- Where references may leak, nothing is in place or a pool lies at the bottom. -/
def Sound (leaks : Bool) (s : Pools α) : Prop :=
  leaks = true → s.inPlace = false ∧ s.stack = [] ∨
    s.inPlace = true ∧ s.stack.getLast? = some none

end Pools

theorem getLast?_suffix {β : Type} {x : β} {xs ys : List β} (h : xs <:+ ys)
    (hx : xs.getLast? = some x) : ys.getLast? = some x := by
  obtain ⟨zs, rfl⟩ := h
  simp [List.getLast?_append, hx]

/-- A reference is not at the bottom. -/
theorem Pools.Bottom.rest {o : α} {rest : List (Option α)} (h : s.Bottom leaks)
    (hs : s.stack = some o :: rest) (history : List (Event α)) :
    Pools.Held leaks { s with stack := rest, history := history } := by
  intro hl
  obtain ⟨hin, hlast⟩ := h hl
  refine ⟨hin, ?_⟩
  rw [hs] at hlast
  cases hr : rest.getLast? with
  | none =>
    rw [List.getLast?_eq_none_iff] at hr
    exact absurd (by simp [hr]) (hlast o)
  | some slot =>
    cases slot with
    | none => rfl
    | some o' => exact absurd (getLast?_suffix (List.suffix_cons _ _) hr) (hlast o')

theorem Pools.Bottom.tail {rest : List (Option α)} (h : s.Bottom leaks)
    (hs : s.stack = none :: rest) : Pools.Bottom leaks { s with stack := rest } := by
  intro hl
  obtain ⟨hin, hlast⟩ := h hl
  refine ⟨hin, fun o hr => hlast o ?_⟩
  rw [hs]
  exact getLast?_suffix (List.suffix_cons _ _) hr

theorem Pools.Held.bottom (h : s.Held leaks) : s.Bottom leaks := by
  intro hl
  obtain ⟨hin, hlast⟩ := h hl
  exact ⟨hin, fun o => by simp [hlast]⟩

theorem Pools.Sound.push (h : s.Sound leaks) : s.push.Held leaks := by
  intro hl
  refine ⟨rfl, ?_⟩
  rcases h hl with ⟨_, hnil⟩ | ⟨_, hlast⟩
  · simp [Pools.push, hnil]
  · exact getLast?_suffix (List.suffix_cons _ _) hlast

theorem Pools.Sound.autorelease (h : s.Sound leaks) (o : α) :
    (s.autorelease leaks o).Sound leaks := by
  intro hl
  unfold Pools.autorelease
  split
  · exact h hl
  · rename_i hin
    rcases h hl with ⟨hin', _⟩ | ⟨_, hlast⟩
    · exact absurd hin (by simp [hl, hin'])
    · exact Or.inr ⟨rfl, getLast?_suffix (List.suffix_cons _ _) hlast⟩

end Bottom

/-! ## Fuel -/

section Fuel

variable {leaks : Bool} {onRelease : OnRelease α} {s s' s1 : Pools α} {f g n n' : Nat}
variable {run run' : Code α → Pools α → Option (Pools α)}

theorem drain_done (fuel : Nat) (h : s.stack.length ≤ n) :
    drain onRelease run n fuel s = some s := by
  cases fuel with
  | zero => exact if_pos h
  | succ fuel => exact if_pos h

theorem drain_zero (h : ¬ s.stack.length ≤ n) : drain onRelease run n 0 s = none := if_neg h

theorem drain_boundary {rest : List (Option α)} (hs : s.stack = none :: rest)
    (h : ¬ s.stack.length ≤ n) : drain onRelease run n (f + 1) s =
      drain onRelease run n f { s with stack := rest } := by
  rw [drain, if_neg h]
  simp only [hs]

theorem drain_reference {o : α} {rest : List (Option α)} (hs : s.stack = some o :: rest)
    (h : ¬ s.stack.length ≤ n) : drain onRelease run n (f + 1) s =
      run (onRelease s.history o) { s with
        stack := rest
        history := .released o :: s.history } >>= drain onRelease run n f := by
  rw [drain, if_neg h]
  simp only [hs]

theorem drain_mono (hrun : ∀ p s s', run p s = some s' → run' p s = some s') (hfg : f ≤ g)
    (h : drain onRelease run n f s = some s') : drain onRelease run' n g s = some s' := by
  induction f generalizing g s with
  | zero =>
    by_cases hlen : s.stack.length ≤ n
    · rw [drain_done _ hlen] at h ⊢
      exact h
    · rw [drain_zero hlen] at h
      cases h
  | succ f ih =>
    by_cases hlen : s.stack.length ≤ n
    · rw [drain_done _ hlen] at h ⊢
      exact h
    · obtain ⟨g, rfl⟩ := Nat.exists_eq_add_of_le' hfg
      have hle : f ≤ g + f := by omega
      rw [← Nat.add_assoc]
      cases hs : s.stack with
      | nil => exact absurd (by simp [hs]) hlen
      | cons slot rest =>
        cases slot with
        | none =>
          rw [drain_boundary hs hlen] at h ⊢
          exact ih hle h
        | some o =>
          rw [drain_reference hs hlen] at h ⊢
          obtain ⟨s2, hr, h⟩ := Option.bind_eq_some_iff.mp h
          exact Option.bind_eq_some_iff.mpr ⟨s2, hrun _ _ _ hr, ih hle h⟩

/-- More fuel does not change what code does. -/
theorem exec_mono {p : Code α} (hfg : f ≤ g) (h : exec leaks onRelease f p s = some s') :
    exec leaks onRelease g p s = some s' := by
  induction f generalizing g p s s' with
  | zero => cases h
  | succ f ih =>
    obtain ⟨g, rfl⟩ := Nat.exists_eq_add_of_le' hfg
    have hle : f ≤ g + f := by omega
    rw [← Nat.add_assoc]
    cases p with
    | done => exact h
    | autorelease o next =>
      rw [exec] at h ⊢
      exact ih hle h
    | push next =>
      rw [exec] at h ⊢
      exact ih hle h
    | pool body next =>
      rw [exec] at h ⊢
      obtain ⟨s2, h1, h⟩ := Option.bind_eq_some_iff.mp h
      obtain ⟨s3, h2, h⟩ := Option.bind_eq_some_iff.mp h
      obtain ⟨s4, hd, rfl⟩ := Option.map_eq_some_iff.mp h2
      refine Option.bind_eq_some_iff.mpr ⟨s2, ih hle h1,
        Option.bind_eq_some_iff.mpr ⟨_, ?_, ih hle h⟩⟩
      exact Option.map_eq_some_iff.mpr ⟨s4, drain_mono (fun _ _ _ hr => ih hle hr) hle hd, rfl⟩

theorem drain_stop (hlen : s.stack.length ≤ n') (h1 : drain onRelease run n' f s = some s1)
    (h2 : drain onRelease run n g s1 = some s') : drain onRelease run n (f + g) s = some s' := by
  rw [drain_done _ hlen] at h1
  cases h1
  exact drain_mono (fun _ _ _ hr => hr) (Nat.le_add_left g f) h2

/-- Draining to one height and then to a lower one. -/
theorem drain_drain (hn : n ≤ n') (h1 : drain onRelease run n' f s = some s1)
    (h2 : drain onRelease run n g s1 = some s') : drain onRelease run n (f + g) s = some s' := by
  induction f generalizing s with
  | zero =>
    by_cases hlen : s.stack.length ≤ n'
    · exact drain_stop hlen h1 h2
    · rw [drain_zero hlen] at h1
      cases h1
  | succ f ih =>
    by_cases hlen : s.stack.length ≤ n'
    · exact drain_stop hlen h1 h2
    · have hlen' : ¬ s.stack.length ≤ n := fun h => hlen (Nat.le_trans h hn)
      rw [Nat.add_right_comm]
      cases hs : s.stack with
      | nil => exact absurd (by simp [hs]) hlen
      | cons slot rest =>
        cases slot with
        | none =>
          rw [drain_boundary hs hlen] at h1
          rw [drain_boundary hs hlen']
          exact ih h1
        | some o =>
          rw [drain_reference hs hlen] at h1
          rw [drain_reference hs hlen']
          obtain ⟨s2, hr, h1⟩ := Option.bind_eq_some_iff.mp h1
          exact Option.bind_eq_some_iff.mpr ⟨s2, hr, ih h1⟩

end Fuel

/-! ## What is kept -/

section Kept

variable [DecidableEq α] {leaks : Bool} {onRelease : OnRelease α}
variable {run : Code α → Pools α → Option (Pools α)} {s s' s'' : Pools α}

namespace Pools

def autoreleased (s : Pools α) (o : α) : Nat := s.history.count (.autoreleased o)

def released (s : Pools α) (o : α) : Nat := s.history.count (.released o)

def leaked (s : Pools α) (o : α) : Nat := s.history.count (.leaked o)

def pending (s : Pools α) (o : α) : Nat := s.stack.count (some o)

end Pools

/-- No reference is lost between two states. -/
def Balanced (s s' : Pools α) : Prop :=
  ∀ o, s'.autoreleased o + (s.released o + s.leaked o + s.pending o) =
    s.autoreleased o + (s'.released o + s'.leaked o + s'.pending o)

theorem Balanced.refl (s : Pools α) : Balanced s s := fun _ => rfl

theorem Balanced.trans (h : Balanced s s') (h' : Balanced s' s'') : Balanced s s'' := by
  intro o
  have h1 := h o
  have h2 := h' o
  omega

/-- What code keeps. -/
structure Kept (leaks : Bool) (s s' : Pools α) : Prop where
  suffix : s.stack <:+ s'.stack
  balanced : Balanced s s'
  held : s.Held leaks → s'.Held leaks ∧ ∀ o, s'.leaked o = s.leaked o

theorem Kept.refl (s : Pools α) : Kept leaks s s :=
  ⟨List.suffix_refl _, Balanced.refl s, fun h => ⟨h, fun _ => rfl⟩⟩

theorem Kept.trans (h : Kept leaks s s') (h' : Kept leaks s' s'') : Kept leaks s s'' := by
  refine ⟨h.suffix.trans h'.suffix, h.balanced.trans h'.balanced, fun hh => ?_⟩
  obtain ⟨h1, e1⟩ := h.held hh
  obtain ⟨h2, e2⟩ := h'.held h1
  exact ⟨h2, fun o => (e2 o).trans (e1 o)⟩

theorem kept_push (s : Pools α) : Kept leaks s s.push := by
  refine ⟨List.suffix_cons _ _, fun o => ?_, fun h => ⟨fun hl => ⟨rfl, ?_⟩, fun _ => rfl⟩⟩
  · simp [Pools.push, Pools.autoreleased, Pools.released, Pools.leaked, Pools.pending]
  · exact getLast?_suffix (List.suffix_cons _ _) (h hl).2

theorem kept_autorelease (o : α) (s : Pools α) : Kept leaks s (s.autorelease leaks o) := by
  unfold Pools.autorelease
  split
  · rename_i hleak
    rw [Bool.and_eq_true, Bool.not_eq_true'] at hleak
    refine ⟨List.suffix_refl _, fun o' => ?_, fun h => ?_⟩
    · simp [Pools.autoreleased, Pools.released, Pools.leaked, Pools.pending, List.count_cons]
      omega
    · exact absurd (h hleak.1).1 (by simp [hleak.2])
  · refine ⟨List.suffix_cons _ _, fun o' => ?_, fun h => ⟨fun hl => ⟨rfl, ?_⟩, fun _ => ?_⟩⟩
    · simp [Pools.autoreleased, Pools.released, Pools.leaked, Pools.pending, List.count_cons]
      omega
    · exact getLast?_suffix (List.suffix_cons _ _) (h hl).2
    · simp [Pools.leaked]

/-- **Draining** to a height takes the stack back to it. -/
theorem drain_spec (hrun : ∀ p s s', run p s = some s' → Kept leaks s s') {fuel : Nat}
    {above base : List (Option α)} (hs : s.stack = above ++ base)
    (h : drain onRelease run base.length fuel s = some s') :
    s'.stack = base ∧ Balanced s s' ∧
      (s.Bottom leaks → s'.Bottom leaks ∧ ∀ o, s'.leaked o = s.leaked o) := by
  cases above with
  | nil =>
    rw [drain_done _ (by simp [hs])] at h
    cases h
    exact ⟨hs, Balanced.refl _, fun hb => ⟨hb, fun _ => rfl⟩⟩
  | cons slot above =>
    have hgt : ¬ s.stack.length ≤ base.length := by
      rw [hs, List.length_append, List.length_cons]
      omega
    induction fuel generalizing s slot above with
    | zero =>
      rw [drain_zero hgt] at h
      cases h
    | succ fuel ih =>
      have hrest {s1 : Pools α} {above' : List (Option α)} (hs1 : s1.stack = above' ++ base)
          (h1 : drain onRelease run base.length fuel s1 = some s') :
          s'.stack = base ∧ Balanced s1 s' ∧
            (s1.Bottom leaks → s'.Bottom leaks ∧ ∀ o, s'.leaked o = s1.leaked o) := by
        cases above' with
        | nil =>
          rw [drain_done _ (by simp [hs1])] at h1
          cases h1
          exact ⟨hs1, Balanced.refl _, fun hb => ⟨hb, fun _ => rfl⟩⟩
        | cons slot' above' =>
          exact ih h1 slot' above' hs1 (by
            rw [hs1, List.length_append, List.length_cons]
            omega)
      cases slot with
      | none =>
        have hs' : s.stack = none :: (above ++ base) := hs
        rw [drain_boundary hs' hgt] at h
        obtain ⟨hstack, hbal, hbot⟩ := hrest rfl h
        refine ⟨hstack, Balanced.trans (fun o => ?_) hbal, fun hb => hbot (hb.tail hs)⟩
        simp [Pools.autoreleased, Pools.released, Pools.leaked, Pools.pending, hs]
      | some o =>
        have hs' : s.stack = some o :: (above ++ base) := hs
        rw [drain_reference hs' hgt] at h
        obtain ⟨s1, hr, h⟩ := Option.bind_eq_some_iff.mp h
        have hk := hrun _ _ _ hr
        obtain ⟨above', hs1⟩ := hk.suffix
        simp only at hs1
        rw [← List.append_assoc] at hs1
        obtain ⟨hstack, hbal, hbot⟩ := hrest hs1.symm h
        refine ⟨hstack, Balanced.trans (fun o' => ?_) (hk.balanced.trans hbal), fun hb => ?_⟩
        · simp [Pools.autoreleased, Pools.released, Pools.leaked, Pools.pending, hs,
            List.count_cons]
          omega
        · obtain ⟨hh, e1⟩ := hk.held (hb.rest hs _)
          obtain ⟨hb', e2⟩ := hbot hh.bottom
          refine ⟨hb', fun o' => (e2 o').trans ((e1 o').trans ?_)⟩
          simp [Pools.leaked]

/-- A pool that was pushed at height `n` is popped. -/
theorem popTo_spec (hrun : ∀ p s s', run p s = some s' → Kept leaks s s') {fuel : Nat}
    (hs : s.push.stack <:+ s'.stack)
    (h : popTo onRelease run s.stack.length fuel s' = some s'') :
    s''.stack = s.stack ∧ s''.inPlace = decide (s.stack.length ≠ 0) ∧ Balanced s' s'' ∧
      (s'.Held leaks → ∀ o, s''.leaked o = s'.leaked o) := by
  obtain ⟨s1, hd, rfl⟩ := Option.map_eq_some_iff.mp h
  obtain ⟨above, habove⟩ := (List.suffix_cons none s.stack).trans hs
  obtain ⟨hstack, hbal, hbot⟩ := drain_spec hrun habove.symm hd
  exact ⟨hstack, rfl, hbal, fun hh => (hbot hh.bottom).2⟩

/-- **Code** adds to the stack, and keeps the balance. -/
theorem exec_kept {fuel : Nat} {p : Code α} (h : exec leaks onRelease fuel p s = some s') :
    Kept leaks s s' := by
  induction fuel generalizing p s s' with
  | zero => cases h
  | succ fuel ih =>
    cases p with
    | done =>
      cases h
      exact Kept.refl s
    | autorelease o next => exact (kept_autorelease o s).trans (ih h)
    | push next => exact (kept_push s).trans (ih h)
    | pool body next =>
      rw [exec] at h
      obtain ⟨s1, h1, h⟩ := Option.bind_eq_some_iff.mp h
      obtain ⟨s2, h2, h⟩ := Option.bind_eq_some_iff.mp h
      have hk := (kept_push s).trans (ih h1)
      obtain ⟨hstack, hin, hbal, hleak⟩ :=
        popTo_spec (fun _ _ _ hr => ih hr) (ih h1).suffix h2
      refine Kept.trans ⟨hstack ▸ List.suffix_refl _, hk.balanced.trans hbal, fun hh => ?_⟩ (ih h)
      obtain ⟨hh1, e1⟩ := hk.held hh
      refine ⟨fun hl => ⟨?_, hstack ▸ (hh hl).2⟩, fun o => (hleak hh1 o).trans (e1 o)⟩
      rw [hin, decide_eq_true_eq]
      intro hz
      have hlast := (hh hl).2
      rw [List.length_eq_zero_iff.mp hz] at hlast
      cases hlast

theorem popTo_sound (hs : s.Sound leaks) (hrun : ∀ p s s', run p s = some s' → Kept leaks s s')
    {fuel : Nat} (hsuf : s.push.stack <:+ s'.stack)
    (h : popTo onRelease run s.stack.length fuel s' = some s'') : s''.Sound leaks := by
  obtain ⟨hstack, hin, _⟩ := popTo_spec hrun hsuf h
  intro hl
  rw [hin, hstack]
  rcases hs hl with ⟨_, hnil⟩ | ⟨_, hlast⟩
  · exact Or.inl ⟨by simp [hnil], hnil⟩
  · refine Or.inr ⟨?_, hlast⟩
    rw [decide_eq_true_eq]
    intro hz
    simp [List.length_eq_zero_iff.mp hz] at hlast

theorem exec_sound (hs : s.Sound leaks) {fuel : Nat} {p : Code α}
    (h : exec leaks onRelease fuel p s = some s') : s'.Sound leaks := by
  induction fuel generalizing p s s' with
  | zero => cases h
  | succ fuel ih =>
    cases p with
    | done =>
      cases h
      exact hs
    | autorelease o next => exact ih (hs.autorelease o) h
    | push next => exact ih (fun hl => Or.inr (hs.push hl)) h
    | pool body next =>
      rw [exec] at h
      obtain ⟨s1, h1, h⟩ := Option.bind_eq_some_iff.mp h
      obtain ⟨s2, h2, h⟩ := Option.bind_eq_some_iff.mp h
      have hk : Kept leaks s.push s1 := exec_kept h1
      exact ih (popTo_sound hs (fun _ _ _ hr => exec_kept hr) hk.suffix h2) h

/-- **A pool** leaves the stack as it was, and has released by its end what was
pushed in it, as often. -/
theorem pool_spec (hs : s.Sound leaks) {fuel : Nat} {body : Code α}
    (h : exec leaks onRelease fuel (.pool body .done) s = some s') :
    s'.stack = s.stack ∧ s'.inPlace = decide (s.stack.length ≠ 0) ∧ ∀ o,
      s'.leaked o = s.leaked o ∧
        s'.autoreleased o + s.released o = s.autoreleased o + s'.released o := by
  cases fuel with
  | zero => cases h
  | succ fuel =>
    rw [exec] at h
    obtain ⟨s1, h1, h⟩ := Option.bind_eq_some_iff.mp h
    obtain ⟨s2, h2, h⟩ := Option.bind_eq_some_iff.mp h
    have he : s2 = s' := by
      cases fuel with
      | zero => cases h
      | succ fuel => exact Option.some.inj h
    subst he
    have hk : Kept leaks s.push s1 := exec_kept h1
    obtain ⟨hstack, hin, hbal, hleak⟩ := popTo_spec (fun _ _ _ hr => exec_kept hr) hk.suffix h2
    obtain ⟨hheld1, e1⟩ := hk.held hs.push
    refine ⟨hstack, hin, fun o => ?_⟩
    have e : s2.leaked o = s.leaked o := (hleak hheld1 o).trans (e1 o)
    have hpush : Kept leaks s s.push := kept_push s
    have hb := (hpush.balanced.trans (hk.balanced.trans hbal)) o
    have hp : s2.pending o = s.pending o := by rw [Pools.pending, hstack, Pools.pending]
    exact ⟨e, by omega⟩

end Kept

/-! ## Termination -/

section Rank

variable [DecidableEq α] {leaks : Bool} {onRelease : OnRelease α} {rank : α → Nat}
variable {s : Pools α}

/-- The references that code pushes have a rank below `r`. -/
def Code.Below (rank : α → Nat) (r : Nat) : Code α → Prop
  | .done => True
  | .autorelease o next => rank o < r ∧ next.Below rank r
  | .push next => next.Below rank r
  | .pool body next => body.Below rank r ∧ next.Below rank r

/-- The release of a reference only pushes references of a lower rank. -/
def Ranked (rank : α → Nat) (onRelease : OnRelease α) : Prop :=
  ∀ history o, (onRelease history o).Below rank (rank o)

/-- Code of rank `r` returns, and leaves references of a rank below `r`. -/
def Returns (leaks : Bool) (onRelease : OnRelease α) (rank : α → Nat) (r : Nat) : Prop :=
  ∀ p : Code α, p.Below rank r → ∀ s, ∃ fuel s' new, exec leaks onRelease fuel p s = some s' ∧
    s'.stack = new ++ s.stack ∧ ∀ o, some o ∈ new → rank o < r

/-- A stack is drained when the code of all lower ranks returns. -/
theorem drain_returns (hrank : Ranked rank onRelease) {r : Nat}
    (hret : ∀ r' < r, Returns leaks onRelease rank r') {above base : List (Option α)}
    (habove : ∀ o, some o ∈ above → rank o < r) (hs : s.stack = above ++ base) :
    ∃ fuel s', drain onRelease (exec leaks onRelease fuel) base.length fuel s = some s' := by
  -- On the rank, and for one rank on the references above the base.
  induction r using Nat.strongRecOn generalizing above base s with
  | ind r ihr =>
    induction above generalizing s with
    | nil => exact ⟨0, s, drain_done 0 (by simp [hs])⟩
    | cons slot above ih =>
      have hgt : ¬ s.stack.length ≤ base.length := by
        rw [hs, List.length_append, List.length_cons]
        omega
      have hrest : ∀ o, some o ∈ above → rank o < r :=
        fun o ho => habove o (List.mem_cons_of_mem _ ho)
      cases slot with
      | none =>
        have hs' : s.stack = none :: (above ++ base) := hs
        obtain ⟨f, s', h⟩ := ih (s := { s with stack := above ++ base }) hrest rfl
        refine ⟨f + 1, s', ?_⟩
        rw [drain_boundary hs' hgt]
        exact drain_mono (fun _ _ _ hr => exec_mono (Nat.le_succ f) hr) (Nat.le_refl f) h
      | some o =>
        have hs' : s.stack = some o :: (above ++ base) := hs
        have ho : rank o < r := habove o List.mem_cons_self
        -- What the release leaves is of a lower rank, and drained first.
        obtain ⟨f1, s1, new, h1, hs1, hnew⟩ := hret _ ho _ (hrank s.history o) { s with
          stack := above ++ base
          history := .released o :: s.history }
        obtain ⟨f2, s2, h2⟩ := ihr _ ho (fun r' hr' => hret r' (Nat.lt_trans hr' ho)) hnew hs1
        obtain ⟨hs2, _⟩ := drain_spec (fun _ _ _ hr => exec_kept hr) hs1 h2
        obtain ⟨f3, s3, h3⟩ := ih hrest hs2
        have hle1 : f1 ≤ f1 + f2 + f3 + 1 := by omega
        have hle2 : f2 ≤ f1 + f2 + f3 + 1 := by omega
        have hle3 : f3 ≤ f1 + f2 + f3 + 1 := by omega
        refine ⟨f1 + f2 + f3 + 1, s3, ?_⟩
        rw [drain_reference hs' hgt]
        refine Option.bind_eq_some_iff.mpr ⟨s1, exec_mono hle1 h1, ?_⟩
        have h23 := drain_drain (by simp) (drain_mono (fun _ _ _ hr => exec_mono hle2 hr)
          (Nat.le_refl f2) h2) (drain_mono (fun _ _ _ hr => exec_mono hle3 hr) (Nat.le_refl f3) h3)
        exact drain_mono (fun _ _ _ hr => hr) (by omega) h23

theorem returns (hrank : Ranked rank onRelease) (r : Nat) : Returns leaks onRelease rank r := by
  induction r using Nat.strongRecOn with
  | ind r ihr =>
    intro p
    induction p with
    | done => exact fun _ s => ⟨1, s, [], rfl, rfl, by simp⟩
    | autorelease o next ih =>
      rintro ⟨ho, hb⟩ s
      obtain ⟨f, s', new, h, hs, hnew⟩ := ih hb (s.autorelease leaks o)
      have hadd : ∃ added, (s.autorelease leaks o).stack = added ++ s.stack ∧
          ∀ o', some o' ∈ added → rank o' < r := by
        unfold Pools.autorelease
        split
        · exact ⟨[], rfl, by simp⟩
        · exact ⟨[some o], rfl, by simp [ho]⟩
      obtain ⟨added, ha, hadded⟩ := hadd
      refine ⟨f + 1, s', new ++ added, h, by rw [hs, ha, List.append_assoc], fun o' hm => ?_⟩
      rcases List.mem_append.mp hm with hm | hm
      · exact hnew o' hm
      · exact hadded o' hm
    | push next ih =>
      intro hb s
      obtain ⟨f, s', new, h, hs, hnew⟩ := ih hb s.push
      refine ⟨f + 1, s', new ++ [none], h, by simp [hs, Pools.push], fun o' hm => ?_⟩
      exact hnew o' (by simpa using hm)
    | pool body next ihb ih =>
      rintro ⟨hb, hn⟩ s
      obtain ⟨f1, s1, new, h1, hs1, hnew⟩ := ihb hb s.push
      have hs1' : s1.stack = (new ++ [none]) ++ s.stack := by simp [hs1, Pools.push]
      obtain ⟨f2, s2, h2⟩ := drain_returns hrank ihr (fun o ho => hnew o (by simpa using ho)) hs1'
      obtain ⟨hs2, _⟩ := drain_spec (fun _ _ _ hr => exec_kept hr) hs1' h2
      obtain ⟨f3, s3, new', h3, hs3, hnew'⟩ := ih hn { s2 with
        inPlace := decide (s.stack.length ≠ 0) }
      have hle1 : f1 ≤ f1 + f2 + f3 := by omega
      have hle2 : f2 ≤ f1 + f2 + f3 := by omega
      have hle3 : f3 ≤ f1 + f2 + f3 := by omega
      refine ⟨f1 + f2 + f3 + 1, s3, new', ?_, by rw [hs3]; simp [hs2], hnew'⟩
      rw [exec]
      refine Option.bind_eq_some_iff.mpr ⟨s1, exec_mono hle1 h1,
        Option.bind_eq_some_iff.mpr ⟨_, ?_, exec_mono hle3 h3⟩⟩
      exact Option.map_eq_some_iff.mpr
        ⟨s2, drain_mono (fun _ _ _ hr => exec_mono hle2 hr) hle2 h2, rfl⟩

omit [DecidableEq α] in
/-- The references on a stack have a rank below some bound. -/
theorem exists_rank (rank : α → Nat) (stack : List (Option α)) :
    ∃ r, ∀ o, some o ∈ stack → rank o < r := by
  induction stack with
  | nil => exact ⟨0, fun o ho => absurd ho List.not_mem_nil⟩
  | cons slot stack ih =>
    obtain ⟨r, hr⟩ := ih
    refine ⟨max r ((slot.map rank).getD 0 + 1), fun o ho => ?_⟩
    rcases List.mem_cons.mp ho with rfl | ho
    · exact Nat.lt_of_lt_of_le (Nat.lt_succ_self (rank o)) (Nat.le_max_right _ _)
    · exact Nat.lt_of_lt_of_le (hr o ho) (Nat.le_max_left _ _)

end Rank

end BottomResearch.PoolStack
