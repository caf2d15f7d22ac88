/-!
# Methods that call `super`

A class and its superclasses give a message a list of implementations: it
executes the first, and a call to `super` in one of them executes the next.  A
body is given by the calls to `super` that it makes: each with an argument, and
continued from the state that the call leaves.  Names, arguments and states are
arbitrary types.  Proved here:

* `mem_perform`: only implementations of the list are executed;
* `mem_perform_of_passesOn`: the implementation after `front` is executed when
  `front` passes the message on;
* `perform_append_of_not_passesOn`: otherwise what comes after `front` makes no
  difference.
Core Lean only.
-/

namespace BottomResearch.SuperCalls

/-- What a body does to a receiver with states `σ`: it ends in a state, or it calls
`super` with an argument in a state. -/
inductive Script (α σ : Type)
  | done (s : σ)
  | callSuper (a : α) (s : σ) (next : σ → Script α σ)

/-- An implementation is known by a name. -/
structure IMP (ε α σ : Type) where
  name : ε
  body : α → σ → Script α σ

variable {ε α σ : Type}

/-- The names of what the body executes and the state that it leaves, where `super` is
what a call to `super` executes and leaves. -/
def Script.run (super : α → σ → List ε × σ) : Script α σ → List ε × σ
  | .done s => ([], s)
  | .callSuper a s next =>
    let r := super a s
    let r' := (next r.2).run super
    (r.1 ++ r'.1, r'.2)

/-- Some call to `super` meets `P`. -/
def Script.Calls (super : α → σ → List ε × σ) (P : α → σ → Prop) : Script α σ → Prop
  | .done _ => False
  | .callSuper a s next => P a s ∨ (next (super a s).2).Calls super P

/-- The names of the implementations that a message executes, in order, and the state of
the receiver after it. -/
def perform : List (IMP ε α σ) → α → σ → List ε × σ
  | [], _, s => ([], s)
  | i :: rest, a, s =>
    let r := (i.body a s).run (perform rest)
    (i.name :: r.1, r.2)

/-- Each implementation calls `super`, and in one of these calls the next one does. -/
def PassesOn : List (IMP ε α σ) → α → σ → Prop
  | [], _, _ => True
  | i :: rest, a, s => (i.body a s).Calls (perform rest) (PassesOn rest)

/-! ## One body -/

theorem Script.mem_run (super : α → σ → List ε × σ) (e : ε) (c : Script α σ) :
    e ∈ (c.run super).1 ↔ c.Calls super fun a s => e ∈ (super a s).1 := by
  induction c with
  | done s => simp [run, Calls]
  | callSuper a s next ih =>
    rw [run, Calls, List.mem_append, ih]

theorem Script.Calls.exists {super : α → σ → List ε × σ} {P : α → σ → Prop} {c : Script α σ}
    (h : c.Calls super P) : ∃ a s, P a s := by
  induction c with
  | done s => exact h.elim
  | callSuper a s next ih =>
    rcases h with h | h
    · exact ⟨a, s, h⟩
    · exact ih _ h

section Agree

variable {f g : α → σ → List ε × σ} {P : α → σ → Prop} (agree : ∀ a s, ¬ P a s → f a s = g a s)

include agree

/-- A body cannot tell two supers apart that differ only where it does not call them. -/
theorem Script.run_of_not_calls {c : Script α σ} (h : ¬ c.Calls g P) : c.run f = c.run g := by
  induction c with
  | done s => rfl
  | callSuper a s next ih =>
    rw [Calls, not_or] at h
    rw [run, run, agree a s h.1, ih _ h.2]

/-- The first call that meets `P` is made with either super. -/
theorem Script.Calls.of_agree {Q : α → σ → Prop} (hQ : ∀ a s, P a s → Q a s) {c : Script α σ}
    (h : c.Calls g P) : c.Calls f Q := by
  induction c with
  | done s => exact h
  | callSuper a s next ih =>
    by_cases hp : P a s
    · exact Or.inl (hQ a s hp)
    · have hrest : (next (g a s).2).Calls g P := h.resolve_left hp
      refine Or.inr ?_
      rw [agree a s hp]
      exact ih _ hrest

end Agree

/-! ## A list of implementations -/

theorem mem_perform {imps : List (IMP ε α σ)} {a : α} {s : σ} {e : ε}
    (h : e ∈ (perform imps a s).1) : ∃ i ∈ imps, i.name = e := by
  induction imps generalizing a s with
  | nil => simp [perform] at h
  | cons i rest ih =>
    rw [perform, List.mem_cons, Script.mem_run] at h
    rcases h with rfl | h
    · exact ⟨i, List.mem_cons_self, rfl⟩
    · obtain ⟨b, t, hmem⟩ := h.exists
      obtain ⟨j, hj, hname⟩ := ih hmem
      exact ⟨j, List.mem_cons_of_mem i hj, hname⟩

/-- What comes after implementations that do not pass the message on makes no difference. -/
theorem perform_append_of_not_passesOn {front : List (IMP ε α σ)} {a : α} {s : σ}
    (h : ¬ PassesOn front a s) (rest : List (IMP ε α σ)) :
    perform (front ++ rest) a s = perform front a s := by
  induction front generalizing a s with
  | nil => exact absurd trivial h
  | cons i front ih =>
    rw [List.cons_append, perform, perform, Script.run_of_not_calls (fun b t => ih) h]

theorem mem_perform_of_passesOn {front : List (IMP ε α σ)} {a : α} {s : σ}
    (h : PassesOn front a s) (i : IMP ε α σ) (rest : List (IMP ε α σ)) :
    i.name ∈ (perform (front ++ i :: rest) a s).1 := by
  induction front generalizing a s with
  | nil => exact List.mem_cons_self
  | cons j front ih =>
    rw [List.cons_append, perform, List.mem_cons, Script.mem_run]
    right
    exact Script.Calls.of_agree (fun b t hb => perform_append_of_not_passesOn hb _)
      (fun b t hb => ih hb) h

end BottomResearch.SuperCalls
