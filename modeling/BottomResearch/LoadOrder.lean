import Mathlib.Data.List.Count
import BottomResearch.LoadMethods
import BottomResearch.Runs

/-!
# The order of `+load` methods

The detached list and the list that is attached form one queue, and every class that
is loaded was called since it was scheduled, or is in it.  What a call of a `+load`
method does to the queue is the same in every call, since re-entrant calls do nothing.
Proved here: the invariant of the queues, kept by each action and by each call.

A class is scheduled again once its image was unmapped, so a call is told apart by
when it was queued: `older.length`, if `older` had happened.
-/

namespace BottomResearch.LoadMethods

open Runs (Due)

variable {C K I : Type}

/-! ## What happened -/

/-- The classes whose `+load` was called, newest first, with when they were queued. -/
def calledClasses : List (Event C K I) → List (C × Nat)
  | [] => []
  | .classLoad cls queued _ :: history => (cls, queued) :: calledClasses history
  | _ :: history => calledClasses history

def calledCategories : List (Event C K I) → List (K × Nat)
  | [] => []
  | .categoryLoad _ cat queued _ :: history => (cat, queued) :: calledCategories history
  | _ :: history => calledCategories history

/-- The categories of the images that were mapped, as often. -/
def mappedCategories : List (Event C K I) → List K
  | [] => []
  | .mapped image :: history => image.nonlazyCategories ++ mappedCategories history
  | _ :: history => mappedCategories history

def unmappedCategories : List (Event C K I) → List K
  | [] => []
  | .unmapped image :: history => image.categories ++ unmappedCategories history
  | _ :: history => unmappedCategories history

def Gone (history : List (Event C K I)) (cls : C) : Prop :=
  ∃ image, .unmapped image ∈ history ∧ image.Lists cls

/-- When the class was scheduled, if it was not unmapped since. -/
def loadedSince [DecidableEq C] (cls : C) : List (Event C K I) → Option Nat
  | [] => none
  | .scheduled c :: history => if c = cls then some history.length else loadedSince cls history
  | .unmapped image :: history => if image.Lists cls then none else loadedSince cls history
  | _ :: history => loadedSince cls history

/-- The class that was scheduled then was called for it, or was unmapped since. -/
def Settled (history : List (Event C K I)) (e : C × Nat) : Prop :=
  e ∈ calledClasses history ∨
    ∃ newer older, history = newer ++ .scheduled e.1 :: older ∧ older.length = e.2 ∧
      Gone newer e.1

section History

variable {history older newer : List (Event C K I)} {e : C × Nat}

theorem Settled.mono (event : Event C K I) (h : Settled history e) :
    Settled (event :: history) e := by
  rcases h with h | ⟨newer, older, rfl, hl, image, hm, hc⟩
  · refine Or.inl ?_
    cases event with
    | classLoad => exact List.mem_cons_of_mem _ h
    | mapped => exact h
    | unmapped => exact h
    | scheduled => exact h
    | categoryLoad => exact h
  · exact Or.inr ⟨event :: newer, older, rfl, hl, image, List.mem_cons_of_mem _ hm, hc⟩

theorem Settled.suffix (hs : older <:+ history) (h : Settled older e) : Settled history e := by
  obtain ⟨events, rfl⟩ := hs
  induction events with
  | nil => exact h
  | cons event events ih => exact ih.mono event

/-- What had happened before the last event. -/
theorem suffix_of_le {event : Event C K I} (hs : older <:+ event :: history)
    (hl : older.length ≤ history.length) : older <:+ history :=
  (List.suffix_cons_iff.mp hs).resolve_left fun e => by
    rw [e, List.length_cons] at hl
    omega

end History

section Order

variable [DecidableEq C] (P : Program C K I)

/-- `d` is a superclass of `c`, directly or not. -/
inductive Above : C → C → Prop where
  | superclass {c d : C} (h : P.superclass c = some d) : Above d c
  | step {c d e : C} (h : P.superclass c = some d) (ha : Above e d) : Above e c

/-- What has to be called before the class that was scheduled then: the superclasses
with a `+load`, as they were loaded at that time. -/
def Needs (history : List (Event C K I)) (e d : C × Nat) : Prop :=
  ∃ older, .scheduled e.1 :: older <:+ history ∧ older.length = e.2 ∧ Above P d.1 e.1 ∧
    P.getLoadMethod d.1 ≠ none ∧ loadedSince d.1 older = some d.2

/-- A class is scheduled when it is not loaded and its superclass is, and with the image
that lists it; each call was that of the right method, for something that was queued
before, and a class's superclasses were settled. -/
def Ordered : List (Event C K I) → Prop
  | [] => True
  | .mapped image :: history =>
    (∀ c, some c ∈ image.nonlazyClasses → loadedSince c history ≠ none) ∧ Ordered history
  | .unmapped _ :: history => Ordered history
  | .scheduled cls :: history =>
    (loadedSince cls history = none ∧
      ∀ d, P.superclass cls = some d → loadedSince d history ≠ none) ∧ Ordered history
  | .classLoad cls queued method :: history =>
    (P.getLoadMethod cls = some method ∧
      (∃ older, .scheduled cls :: older <:+ history ∧ older.length = queued) ∧
        ∀ d, Needs P history (cls, queued) d → Settled history d) ∧ Ordered history
  | .categoryLoad cls cat queued method :: history =>
    (P.remapClass cat = some cls ∧ P.categoryGetLoadMethod cat = some method ∧
      ∃ image older, .mapped image :: older <:+ history ∧ older.length = queued ∧
        cat ∈ image.nonlazyCategories) ∧ Ordered history

/-- When the category was mapped its class was loaded, and that class was settled
since. -/
def Ready (history : List (Event C K I)) (cls : C) (cat : K) (queued : Nat) : Prop :=
  ∃ image older n, .mapped image :: older <:+ history ∧ older.length = queued ∧
    cat ∈ image.nonlazyCategories ∧ loadedSince cls older = some n ∧ Settled history (cls, n)

/-- A category was called when its class was ready. -/
def CategoriesOrdered : List (Event C K I) → Prop
  | [] => True
  | .categoryLoad cls cat queued _ :: history =>
    (P.getLoadMethod cls ≠ none → Ready history cls cat queued) ∧ CategoriesOrdered history
  | _ :: history => CategoriesOrdered history

/-- Images are mapped in the order of what they depend on: the class of a category
comes with its image, or with one before it that is still mapped. -/
def OrderedMaps : List (Event C K I) → Prop
  | [] => True
  | .mapped image :: history =>
    (∀ cat ∈ image.nonlazyCategories, ∀ cls, P.remapClass cat = some cls →
      P.getLoadMethod cls ≠ none → some cls ∈ image.nonlazyClasses ∨
        ∃ newer image' older, history = newer ++ .mapped image' :: older ∧
          some cls ∈ image'.nonlazyClasses ∧ ¬ Gone newer cls) ∧
      OrderedMaps history
  | _ :: history => OrderedMaps history

/-- And unmapped in that order: a class goes with what is loaded below it. -/
def OrderedUnmaps : List (Event C K I) → Prop
  | [] => True
  | .unmapped image :: history =>
    (∀ c d, P.superclass c = some d → image.Lists d → loadedSince c history ≠ none →
      image.Lists c) ∧ OrderedUnmaps history
  | _ :: history => OrderedUnmaps history

end Order

section Loaded

variable [DecidableEq C] {P : Program C K I} {newer older history : List (Event C K I)}
variable {c d : C} {n : Nat}

omit [DecidableEq C] in
theorem OrderedMaps.suffix (hs : older <:+ history) (h : OrderedMaps P history) :
    OrderedMaps P older := by
  obtain ⟨events, rfl⟩ := hs
  induction events with
  | nil => exact h
  | cons event events ih =>
    refine ih ?_
    cases event with
    | mapped => exact h.2
    | unmapped => exact h
    | scheduled => exact h
    | classLoad => exact h
    | categoryLoad => exact h

theorem Ordered.of_cons {event : Event C K I} (h : Ordered P (event :: history)) :
    Ordered P history := by
  cases event with
  | unmapped => exact h
  | mapped => exact h.2
  | scheduled => exact h.2
  | classLoad => exact h.2
  | categoryLoad => exact h.2

theorem Ordered.suffix (hs : older <:+ history) (h : Ordered P history) : Ordered P older := by
  obtain ⟨events, rfl⟩ := hs
  induction events with
  | nil => exact h
  | cons event events ih => exact ih h.of_cons

theorem exists_scheduled (h : loadedSince c history = some n) :
    ∃ newer older, history = newer ++ .scheduled c :: older ∧ older.length = n := by
  induction history with
  | nil => cases h
  | cons event history ih =>
    have hcons (h : loadedSince c history = some n) :
        ∃ newer older, event :: history = newer ++ .scheduled c :: older ∧ older.length = n := by
      obtain ⟨newer, older, rfl, hl⟩ := ih h
      exact ⟨event :: newer, older, rfl, hl⟩
    cases event with
    | mapped => exact hcons h
    | classLoad => exact hcons h
    | categoryLoad => exact hcons h
    | unmapped image =>
      rw [loadedSince] at h
      split at h
      · cases h
      · exact hcons h
    | scheduled cls =>
      rw [loadedSince] at h
      split at h
      · rename_i e
        cases h
        exact ⟨[], history, by rw [e]; rfl, rfl⟩
      · exact hcons h

/-- A class stays loaded until it is unmapped. -/
theorem loadedSince_append (ho : Ordered P (newer ++ older)) (h : loadedSince c older = some n) :
    loadedSince c (newer ++ older) = some n ∨ Gone newer c := by
  induction newer with
  | nil => exact Or.inl h
  | cons event newer ih =>
    rcases ih ho.of_cons with hl | ⟨image, hm, hc⟩
    · cases event with
      | mapped => exact Or.inl hl
      | classLoad => exact Or.inl hl
      | categoryLoad => exact Or.inl hl
      | unmapped image =>
        by_cases hc : image.Lists c
        · exact Or.inr ⟨image, List.mem_cons_self, hc⟩
        · exact Or.inl (by rw [List.cons_append, loadedSince, if_neg hc, hl])
      | scheduled cls =>
        refine Or.inl ?_
        by_cases hc : cls = c
        · have hnone : loadedSince c (newer ++ older) = none := hc ▸ ho.1.1
          cases hl.symm.trans hnone
        · rw [List.cons_append, loadedSince, if_neg hc, hl]
    · exact Or.inr ⟨image, List.mem_cons_of_mem _ hm, hc⟩

theorem settled_of_gone (h : loadedSince c older = some n) (hg : Gone newer c) :
    Settled (newer ++ older) (c, n) := by
  obtain ⟨newer', older', rfl, hl⟩ := exists_scheduled h
  obtain ⟨image, hm, hc⟩ := hg
  exact Or.inr ⟨newer ++ newer', older', by rw [List.append_assoc], hl, image,
    List.mem_append_left _ hm, hc⟩

/-- A class is scheduled again only once it was unmapped. -/
theorem gone_between (ho : Ordered P (.scheduled c :: (newer ++ .scheduled c :: older))) :
    Gone newer c := by
  have hl : loadedSince c (.scheduled c :: older) = some older.length := if_pos rfl
  rcases loadedSince_append ho.of_cons hl with h | h
  · cases h.symm.trans ho.1.1
  · exact h

theorem Ready.suffix {cat : K} (hs : older <:+ history) (h : Ready older c cat n) :
    Ready history c cat n := by
  obtain ⟨image, moment, k, hm, hl, hc, hk, hset⟩ := h
  exact ⟨image, moment, k, hm.trans hs, hl, hc, hk, hset.suffix hs⟩

/-- The class of a category that is mapped in order is loaded. -/
theorem loadedSince_of_orderedMaps {image : Image C K} {cat : K}
    (ho : Ordered P (.mapped image :: history)) (hm : OrderedMaps P (.mapped image :: history))
    (hc : cat ∈ image.nonlazyCategories) (hr : P.remapClass cat = some c)
    (hload : P.getLoadMethod c ≠ none) : loadedSince c history ≠ none := by
  rcases hm.1 cat hc c hr hload with hl | ⟨newer, image', older, rfl, hl, hg⟩
  · exact ho.1 c hl
  · have ho' : Ordered P (.mapped image' :: older) := ho.of_cons.suffix ⟨newer, rfl⟩
    obtain ⟨n, hn⟩ := Option.ne_none_iff_exists'.mp (ho'.1 c hl)
    have hn' : loadedSince c (.mapped image' :: older) = some n := hn
    rcases loadedSince_append ho.of_cons hn' with h | h
    · rw [h]
      exact Option.some_ne_none n
    · exact absurd h hg

/-- The superclasses of a loaded class are loaded, if images are unmapped in order. -/
theorem loadedSince_superclass (ho : Ordered P history) (hu : OrderedUnmaps P history)
    (hs : P.superclass c = some d) (h : loadedSince c history ≠ none) :
    loadedSince d history ≠ none := by
  induction history with
  | nil => exact absurd rfl h
  | cons event history ih =>
    cases event with
    | mapped => exact ih ho.2 hu h
    | classLoad => exact ih ho.2 hu h
    | categoryLoad => exact ih ho.2 hu h
    | unmapped image =>
      rw [loadedSince] at h ⊢
      split at h
      · exact absurd rfl h
      · rename_i hc
        rw [if_neg fun hd => hc (hu.1 c d hs hd h)]
        exact ih ho hu.2 h
    | scheduled cls =>
      rw [loadedSince] at h ⊢
      split
      · exact Option.some_ne_none _
      · split at h
        · rename_i hc
          exact ho.1.2 d (hc ▸ hs)
        · exact ih ho.2 hu h

theorem loadedSince_above (ho : Ordered P history) (hu : OrderedUnmaps P history)
    (ha : Above P d c) (h : loadedSince c history ≠ none) : loadedSince d history ≠ none := by
  induction ha with
  | superclass hs => exact loadedSince_superclass ho hu hs h
  | step hs _ ih => exact ih (loadedSince_superclass ho hu hs h)

/-- What a new event says of what was queued before. -/
theorem Needs.of_cons {event : Event C K I} {e b : C × Nat}
    (h : Needs P (event :: history) e b) (he : e.2 < history.length) : Needs P history e b := by
  obtain ⟨older, hs, hl, hneeds⟩ := h
  refine ⟨older, suffix_of_le hs ?_, hl, hneeds⟩
  rw [List.length_cons, hl]
  omega

end Loaded

/-! ## The queue of classes -/

/-- What is left in a list, with when it was queued. -/
def waiting {A : Type} (l : List (Loadable A I)) : List (A × Nat) :=
  l.filterMap fun e => e.name.map fun a => (a, e.queued)

section Waiting

variable {A : Type}

theorem waiting_append (l l' : List (Loadable A I)) :
    waiting (l ++ l') = waiting l ++ waiting l' := List.filterMap_append

@[simp] theorem waiting_none (m : I) (n : Nat) (l : List (Loadable A I)) :
    waiting (⟨none, m, n⟩ :: l) = waiting l := rfl

@[simp] theorem waiting_some (a : A) (m : I) (n : Nat) (l : List (Loadable A I)) :
    waiting (⟨some a, m, n⟩ :: l) = (a, n) :: waiting l := rfl

variable [DecidableEq A]

def removeAll (as : List A) (l : List (Loadable A I)) : List (Loadable A I) :=
  as.foldl (fun l a => removeFromList a l) l

theorem mem_removeFromList {a b : A} {l : List (Loadable A I)} {e : Loadable A I}
    (h : e ∈ removeFromList a l) (hb : e.name = some b) : e ∈ l := by
  induction l with
  | nil => exact h
  | cons e' l ih =>
    rw [removeFromList] at h
    split at h
    · rcases List.mem_cons.mp h with rfl | h
      · cases hb
      · exact List.mem_cons_of_mem _ h
    · rcases List.mem_cons.mp h with he | h
      · exact he ▸ List.mem_cons_self
      · exact List.mem_cons_of_mem _ (ih h)

theorem mem_removeAll {b : A} {as : List A} {l : List (Loadable A I)} {e : Loadable A I}
    (h : e ∈ removeAll as l) (hb : e.name = some b) : e ∈ l := by
  induction as generalizing l with
  | nil => exact h
  | cons a as ih => exact mem_removeFromList (ih h) hb

/-- One entry for `a` at most leaves the list, and no other. -/
theorem waiting_removeFromList (a : A) (l : List (Loadable A I)) :
    (waiting (removeFromList a l)).Sublist (waiting l) ∧ ∀ e : A × Nat,
      (waiting l).count e ≤ (waiting (removeFromList a l)).count e + [a].count e.1 := by
  induction l with
  | nil => exact ⟨List.Sublist.refl _, fun e => Nat.zero_le _⟩
  | cons e' l ih =>
    obtain ⟨o, m, n⟩ := e'
    rw [removeFromList]
    cases o with
    | none =>
      rw [if_neg (Option.some_ne_none a).symm, waiting_none, waiting_none]
      exact ih
    | some b =>
      by_cases hb : b = a
      · rw [if_pos (congrArg some hb), waiting_none, waiting_some, hb]
        refine ⟨List.sublist_cons_self _ _, fun e => ?_⟩
        by_cases he : e = (a, n)
        · refine Nat.le_of_eq ?_
          rw [he, List.count_cons_self, List.count_singleton_self]
        · rw [List.count_cons_of_ne (Ne.symm he)]
          exact Nat.le_add_right _ _
      · rw [if_neg fun h => hb (Option.some.inj h), waiting_some, waiting_some]
        refine ⟨ih.1.cons_cons _, fun e => ?_⟩
        have hle := ih.2 e
        rw [List.count_cons, List.count_cons]
        omega

theorem waiting_removeAll (as : List A) (l : List (Loadable A I)) :
    (waiting (removeAll as l)).Sublist (waiting l) ∧ ∀ e : A × Nat,
      (waiting l).count e ≤ (waiting (removeAll as l)).count e + as.count e.1 := by
  induction as generalizing l with
  | nil => exact ⟨List.Sublist.refl _, fun e => Nat.le_refl _⟩
  | cons a as ih =>
    obtain ⟨hs, hc⟩ := ih (removeFromList a l)
    obtain ⟨hs', hc'⟩ := waiting_removeFromList a l
    refine ⟨hs.trans hs', fun e => ?_⟩
    have hle := hc e
    have hle' := hc' e
    have hsplit : (a :: as).count e.1 = as.count e.1 + [a].count e.1 := by
      rw [List.count_cons, List.count_singleton]
    show _ ≤ (waiting (removeAll as (removeFromList a l))).count e + _
    omega

theorem mem_waiting_removeAll {as : List A} {l : List (Loadable A I)} {e : A × Nat}
    (h : e ∈ waiting l) (he : e.1 ∉ as) : e ∈ waiting (removeAll as l) := by
  have hle := (waiting_removeAll as l).2 e
  rw [List.count_eq_zero.mpr he] at hle
  have hpos := List.count_pos_iff.mpr h
  exact List.count_pos_iff.mp (by omega)

/-- A removal looks at the attached part of a queue only. -/
theorem waiting_unmap (as : List A) (ds l : List (Loadable A I)) :
    (waiting (ds ++ removeAll as l)).Sublist (waiting (ds ++ l)) := by
  rw [waiting_append, waiting_append]
  exact (waiting_removeAll as l).1.append_left _

theorem mem_unmap {b : A} {as : List A} {ds l : List (Loadable A I)} {e : Loadable A I}
    (h : e ∈ ds ++ removeAll as l) (hb : e.name = some b) : e ∈ ds ++ l := by
  rcases List.mem_append.mp h with h | h
  · exact List.mem_append_left _ h
  · exact List.mem_append_right _ (mem_removeAll h hb)

end Waiting

/-- The invariant of the classes that are left to call. -/
structure ClassInv [DecidableEq C] (P : Program C K I) (q : List (Loadable C I))
    (loaded : C → Bool) (history : List (Event C K I)) : Prop where
  loaded_iff : ∀ c, loaded c = true ↔ loadedSince c history ≠ none
  method : ∀ e ∈ q, ∀ c, e.name = some c → P.getLoadMethod c = some e.method
  scheduled : ∀ e ∈ waiting q, ∃ older, .scheduled e.1 :: older <:+ history ∧ older.length = e.2
  before : ∀ e ∈ waiting q ++ calledClasses history, e.2 < history.length
  nodup : (waiting q ++ calledClasses history).Nodup
  due : Due (Needs P history) (Settled history) (waiting q)
  done : ∀ c n, loadedSince c history = some n → P.getLoadMethod c ≠ none →
    Settled history (c, n) ∨ (c, n) ∈ waiting q
  ordered : Ordered P history

section Classes

variable [DecidableEq C] {P : Program C K I} {q ds l : List (Loadable C I)} {loaded : C → Bool}
variable {history older : List (Event C K I)} {c : C} {n : Nat}

/-- A class that was loaded at some moment was settled since, or is in the queue. -/
theorem ClassInv.settled (h : ClassInv P q loaded history) (hs : older <:+ history)
    (hl : loadedSince c older = some n) (hload : P.getLoadMethod c ≠ none) :
    Settled history (c, n) ∨ (c, n) ∈ waiting q := by
  obtain ⟨newer, rfl⟩ := hs
  rcases loadedSince_append h.ordered hl with hl' | hg
  · exact h.done c n hl' hload
  · exact Or.inl (settled_of_gone hl hg)

/-- What is queued stays due, whatever happens. -/
theorem ClassInv.due_mono (h : ClassInv P q loaded history) (event : Event C K I) :
    Due (Needs P (event :: history)) (Settled (event :: history)) (waiting q) :=
  h.due.mono (fun e he _ hb => hb.of_cons (h.before e (List.mem_append_left _ he)))
    fun _ hb => hb.mono event

theorem ClassInv.scheduled_mono (h : ClassInv P q loaded history) (event : Event C K I) :
    ∀ e ∈ waiting q, ∃ older, .scheduled e.1 :: older <:+ event :: history ∧
      older.length = e.2 := by
  intro e he
  obtain ⟨older, hs, hl⟩ := h.scheduled e he
  exact ⟨older, hs.trans (List.suffix_cons event history), hl⟩

/-- A step that only changes the history, in which nothing is called. -/
theorem ClassInv.record (h : ClassInv P q loaded history) {event : Event C K I}
    (hcalled : calledClasses (event :: history) = calledClasses history)
    (hloaded : ∀ c, loadedSince c (event :: history) = loadedSince c history)
    (hordered : Ordered P (event :: history)) : ClassInv P q loaded (event :: history) := by
  refine ⟨fun c => ?_, h.method, h.scheduled_mono event, fun e he => ?_, ?_, h.due_mono event,
    fun c n hl hload => ?_, hordered⟩
  · rw [hloaded]
    exact h.loaded_iff c
  · rw [hcalled] at he
    exact Nat.lt_succ_of_lt (h.before e he)
  · rw [hcalled]
    exact h.nodup
  · rw [hloaded] at hl
    exact (h.done c n hl hload).imp_left fun hb => hb.mono event

/-- An entry that was removed is skipped. -/
theorem ClassInv.skip {m : I} (h : ClassInv P (⟨none, m, n⟩ :: q) loaded history) :
    ClassInv P q loaded history :=
  ⟨h.loaded_iff, fun e he => h.method e (List.mem_cons_of_mem _ he), h.scheduled, h.before,
    h.nodup, h.due, h.done, h.ordered⟩

/-- **The call** of the next class of the detached list. -/
theorem ClassInv.call {m : I} (h : ClassInv P (⟨some c, m, n⟩ :: q) loaded history) :
    ClassInv P q loaded (.classLoad c n m :: history) := by
  have hdue := h.due_mono (.classLoad c n m)
  have hnodup := h.nodup
  rw [waiting_some] at hdue hnodup
  constructor
  · exact h.loaded_iff
  · exact fun e he => h.method e (List.mem_cons_of_mem _ he)
  · exact fun e he => h.scheduled_mono _ e (List.mem_cons_of_mem _ he)
  · exact fun e he => Nat.lt_succ_of_lt (h.before e (List.perm_middle.mem_iff.mp he))
  · exact (List.perm_middle.nodup_iff).mpr hnodup
  · refine hdue.2.mono (fun _ _ _ => id) fun b hb => ?_
    rcases hb with hb | rfl
    · exact hb
    · exact Or.inl List.mem_cons_self
  · intro d k hl hload
    rcases h.done d k hl hload with hset | hm
    · exact Or.inl (hset.mono _)
    · rcases List.mem_cons.mp hm with e | hm
      · exact Or.inl (Or.inl (e ▸ List.mem_cons_self))
      · exact Or.inr hm
  · exact ⟨⟨h.method _ List.mem_cons_self c rfl, h.scheduled _ List.mem_cons_self,
      (waiting_some c m n q ▸ h.due).1⟩, h.ordered⟩

/-- What a class adds to the queue. -/
def classEntry (P : Program C K I) (n : Nat) (c : C) : List (Loadable C I) :=
  match P.getLoadMethod c with
  | none => []
  | some m => [⟨some c, m, n⟩]

theorem loadedSince_of_ne {d : C} (hd : c ≠ d) :
    loadedSince d (.scheduled c :: history) = loadedSince d history := if_neg hd

/-- The flag of a class that is scheduled, and of the others. -/
theorem ClassInv.loaded_iff_update (h : ClassInv P q loaded history) (c d : C) :
    Function.update loaded c true d = true ↔ loadedSince d (.scheduled c :: history) ≠ none := by
  by_cases hd : c = d
  · rw [← hd, Function.update_self, loadedSince, if_pos rfl]
    exact ⟨fun _ => Option.some_ne_none _, fun _ => rfl⟩
  · rw [Function.update_of_ne (Ne.symm hd), loadedSince_of_ne hd]
    exact h.loaded_iff d

theorem ClassInv.ordered_scheduled (h : ClassInv P q loaded history) (hnew : loaded c = false)
    (hs : ∀ d, P.superclass c = some d → loaded d = true) : Ordered P (.scheduled c :: history) := by
  refine ⟨⟨?_, fun d hd => (h.loaded_iff d).mp (hs d hd)⟩, h.ordered⟩
  by_contra hl
  rw [(h.loaded_iff c).mpr hl] at hnew
  cases hnew

/-- A class that is scheduled goes to the end of the queue. -/
theorem ClassInv.add {m : I} (h : ClassInv P q loaded history) (hm : P.getLoadMethod c = some m)
    (ho : Ordered P (.scheduled c :: history)) :
    ClassInv P (q ++ [⟨some c, m, history.length⟩]) (Function.update loaded c true)
      (.scheduled c :: history) := by
  have hwaiting : waiting (q ++ [⟨some c, m, history.length⟩]) =
      waiting q ++ [(c, history.length)] := waiting_append _ _
  have hfresh : (c, history.length) ∉ waiting q ++ calledClasses history :=
    fun hm => Nat.lt_irrefl _ (h.before _ hm)
  constructor
  · exact h.loaded_iff_update c
  · intro e he d hd
    rcases List.mem_append.mp he with he | he
    · exact h.method e he d hd
    · cases List.mem_singleton.mp he
      cases hd
      exact hm
  · intro e he
    rw [hwaiting] at he
    rcases List.mem_append.mp he with he | he
    · exact h.scheduled_mono _ e he
    · cases List.mem_singleton.mp he
      exact ⟨history, List.suffix_refl _, rfl⟩
  · intro e he
    rw [hwaiting, List.append_assoc] at he
    rcases List.mem_append.mp he with he | he
    · exact Nat.lt_succ_of_lt (h.before e (List.mem_append_left _ he))
    · rcases List.mem_cons.mp he with rfl | he
      · exact Nat.lt_succ_self _
      · exact Nat.lt_succ_of_lt (h.before e (List.mem_append_right _ he))
  · rw [hwaiting, List.append_assoc]
    exact (List.perm_middle.nodup_iff).mpr (List.nodup_cons.mpr ⟨hfresh, h.nodup⟩)
  · rw [hwaiting]
    refine (h.due_mono _).snoc fun d hd => ?_
    obtain ⟨older, hsuf, hl, _, hload, hsince⟩ := hd
    have hlen := hsuf.eq_of_length (by rw [List.length_cons, hl]; rfl)
    have hnow : loadedSince d.1 history = some d.2 := List.tail_eq_of_cons_eq hlen ▸ hsince
    exact (h.done d.1 d.2 hnow hload).imp_left fun hb => hb.mono _
  · intro d k hl hload
    rw [hwaiting]
    by_cases hd : c = d
    · rw [loadedSince, if_pos hd] at hl
      cases hl
      exact Or.inr (List.mem_append_right _ (hd ▸ List.mem_cons_self))
    · rw [loadedSince_of_ne hd] at hl
      exact (h.done d k hl hload).imp (fun hb => hb.mono _) (List.mem_append_left _)
  · exact ho

theorem ClassInv.schedule (h : ClassInv P q loaded history) (hnew : loaded c = false)
    (hs : ∀ d, P.superclass c = some d → loaded d = true) :
    ClassInv P (q ++ classEntry P history.length c) (Function.update loaded c true)
      (.scheduled c :: history) := by
  have ho := h.ordered_scheduled hnew hs
  unfold classEntry
  cases hm : P.getLoadMethod c with
  | some m => exact h.add hm ho
  | none =>
    rw [List.append_nil]
    refine ⟨h.loaded_iff_update c, h.method, h.scheduled_mono _,
      fun e he => Nat.lt_succ_of_lt (h.before e he), h.nodup, h.due_mono _,
      fun d k hl hload => ?_, ho⟩
    have hd : c ≠ d := fun e => hload (e ▸ hm)
    rw [loadedSince_of_ne hd] at hl
    exact (h.done d k hl hload).imp_left fun hb => hb.mono _

/-- Classes that are unmapped leave the queue, but not the detached part of it. -/
theorem ClassInv.unmap {image : Image C K} {classes : List C}
    (h : ClassInv P (ds ++ l) loaded history) (hclasses : ∀ c, c ∈ classes ↔ image.Lists c) :
    ClassInv P (ds ++ removeAll classes l) (fun c => loaded c && !decide (c ∈ classes))
      (.unmapped image :: history) := by
  have hsub := waiting_unmap classes ds l
  have hleft : ∀ e ∈ waiting (ds ++ l), ¬ image.Lists e.1 →
      e ∈ waiting (ds ++ removeAll classes l) := by
    intro e he hc
    rw [waiting_append, List.mem_append] at he ⊢
    exact he.imp_right fun hm => mem_waiting_removeAll hm fun hin => hc ((hclasses _).mp hin)
  constructor
  · intro c
    rw [loadedSince, Bool.and_eq_true, Bool.not_eq_true', decide_eq_false_iff_not, hclasses,
      h.loaded_iff]
    by_cases hc : image.Lists c
    · rw [if_pos hc]
      exact ⟨fun hl => absurd hc hl.2, fun hl => absurd rfl hl⟩
    · rw [if_neg hc]
      exact ⟨fun hl => hl.1, fun hl => ⟨hl, hc⟩⟩
  · exact fun e he c hc => h.method e (mem_unmap he hc) c hc
  · exact fun e he => h.scheduled_mono _ e (hsub.mem he)
  · exact fun e he => Nat.lt_succ_of_lt (h.before e ((hsub.append_right _).mem he))
  · exact h.nodup.sublist (hsub.append_right _)
  · refine (h.due_mono _).sublist h.nodup.of_append_left hsub fun e he hnot => Or.inr ?_
    obtain ⟨older, ⟨newer, hs⟩, hl⟩ := h.scheduled e he
    refine ⟨.unmapped image :: newer, older, by rw [← hs]; rfl, hl, image, List.mem_cons_self, ?_⟩
    by_contra hc
    exact hnot (hleft e he hc)
  · intro c n hl hload
    rw [loadedSince] at hl
    split at hl
    · cases hl
    · rename_i hc
      exact (h.done c n hl hload).imp (fun hb => hb.mono _) fun hm => hleft _ hm hc
  · exact h.ordered

end Classes

/-! ## Scheduling -/

/-- What scheduling leaves alone. -/
structure Scheduled (s s' : State C K I) : Prop where
  loaded : ∀ d, s.loaded d = true → s'.loaded d = true
  history : ∃ newer, s'.history = newer ++ s.history ∧ ∀ event ∈ newer, ∃ d, event = .scheduled d
  loading : s'.loading = s.loading
  categories : s'.loadableCategories = s.loadableCategories

theorem Scheduled.refl (s : State C K I) : Scheduled s s :=
  ⟨fun _ h => h, ⟨[], rfl, by simp⟩, rfl, rfl⟩

theorem Scheduled.trans {s s' s'' : State C K I} (h : Scheduled s s') (h' : Scheduled s' s'') :
    Scheduled s s'' := by
  obtain ⟨newer, e, hn⟩ := h.history
  obtain ⟨newer', e', hn'⟩ := h'.history
  refine ⟨fun d hd => h'.loaded d (h.loaded d hd), ⟨newer' ++ newer, by
    rw [e', e, List.append_assoc], fun event hm => ?_⟩, h'.loading.trans h.loading,
    h'.categories.trans h.categories⟩
  rcases List.mem_append.mp hm with hm | hm
  · exact hn' event hm
  · exact hn event hm

section Scheduling

variable [DecidableEq C] {P : Program C K I} {ds : List (Loadable C I)} {s : State C K I}

theorem setLoaded_addClass (c : C) (s : State C K I) :
    setLoaded c (addClassToLoadableList P c s) = { s with
      loaded := Function.update s.loaded c true
      loadableClasses := s.loadableClasses ++ classEntry P s.history.length c
      history := .scheduled c :: s.history } := by
  unfold setLoaded addClassToLoadableList classEntry State.record
  cases P.getLoadMethod c with
  | none => rw [List.append_nil]
  | some m => rfl

theorem scheduled_setLoaded (c : C) (s : State C K I) :
    Scheduled s (setLoaded c (addClassToLoadableList P c s)) := by
  rw [setLoaded_addClass]
  refine ⟨fun d hd => ?_, ⟨[.scheduled c], rfl, fun event hm => ⟨c, List.mem_singleton.mp hm⟩⟩,
    rfl, rfl⟩
  show Function.update s.loaded c true d = true
  by_cases hdc : d = c
  · rw [hdc, Function.update_self]
  · rwa [Function.update_of_ne hdc]

/-- The invariant of the classes, with a part of the queue that is detached. -/
abbrev ClassesInv (P : Program C K I) (ds : List (Loadable C I)) (s : State C K I) : Prop :=
  ClassInv P (ds ++ s.loadableClasses) s.loaded s.history

/-- **Scheduling** a class schedules its superclasses first, and no other class. -/
theorem schedule_inv {n : Nat} {c : C} (hn : P.depth c < n) (h : ClassesInv P ds s) :
    ClassesInv P ds (scheduleClassLoad P n c s) ∧ (scheduleClassLoad P n c s).loaded c = true ∧
      Scheduled s (scheduleClassLoad P n c s) ∧
        ∀ d, (scheduleClassLoad P n c s).loaded d = true →
          s.loaded d = true ∨ P.depth d ≤ P.depth c := by
  induction n generalizing c s with
  | zero => exact absurd hn (Nat.not_lt_zero _)
  | succ n ih =>
    rw [scheduleClassLoad]
    cases hc : s.loaded c with
    | true =>
      rw [if_pos rfl]
      exact ⟨h, hc, Scheduled.refl s, fun d hd => Or.inl hd⟩
    | false =>
      rw [if_neg Bool.false_ne_true]
      have hadd {s1 : State C K I} (h1 : ClassesInv P ds s1) (hs1 : Scheduled s s1)
          (hnew : s1.loaded c = false) (hsup : ∀ d, P.superclass c = some d → s1.loaded d = true)
          (hframe : ∀ d, s1.loaded d = true → s.loaded d = true ∨ P.depth d ≤ P.depth c) :
          let s2 := setLoaded c (addClassToLoadableList P c s1)
          ClassesInv P ds s2 ∧ s2.loaded c = true ∧ Scheduled s s2 ∧
            ∀ d, s2.loaded d = true → s.loaded d = true ∨ P.depth d ≤ P.depth c := by
        have hs2 := scheduled_setLoaded (P := P) c s1
        rw [setLoaded_addClass] at hs2 ⊢
        refine ⟨?_, Function.update_self .., hs1.trans hs2, fun d hd => ?_⟩
        · have hinv := h1.schedule hnew hsup
          rwa [List.append_assoc] at hinv
        · by_cases hdc : d = c
          · exact Or.inr (hdc ▸ Nat.le_refl _)
          · simp only [Function.update_of_ne hdc] at hd
            exact hframe d hd
      cases hsup : P.superclass c with
      | none => exact hadd h (Scheduled.refl s) hc (by simp [hsup]) fun d hd => Or.inl hd
      | some d =>
        have hdepth := P.depth_superclass c d hsup
        obtain ⟨h1, hd1, hs1, hframe⟩ := ih (c := d) (by omega) h
        refine hadd h1 hs1 ?_ (fun e he => by cases hsup.symm.trans he; exact hd1) fun e he => ?_
        · -- A class is not above its superclass.
          cases hc1 : (scheduleClassLoad P n d s).loaded c with
          | false => rfl
          | true =>
            rcases hframe c hc1 with hold | hle
            · cases hold.symm.trans hc
            · omega
        · exact (hframe e he).imp_right fun hle => by omega

/-- The classes of an image are scheduled in turn. -/
theorem prepareClasses_inv (l : List (Option C)) (h : ClassesInv P ds s) :
    ClassesInv P ds (l.foldl (prepareClass P) s) ∧ Scheduled s (l.foldl (prepareClass P) s) ∧
      ∀ c, some c ∈ l → (l.foldl (prepareClass P) s).loaded c = true := by
  induction l generalizing s with
  | nil => exact ⟨h, Scheduled.refl s, by simp⟩
  | cons o l ih =>
    cases o with
    | none =>
      obtain ⟨h', hs, hl⟩ := ih h
      exact ⟨h', hs, fun c hc => hl c (by simpa using hc)⟩
    | some d =>
      obtain ⟨h1, hd, hs1, _⟩ := schedule_inv (Nat.lt_succ_self _) h
      obtain ⟨h', hs, hl⟩ := ih h1
      refine ⟨h', hs1.trans hs, fun c hc => ?_⟩
      rcases List.mem_cons.mp hc with e | hc
      · cases e
        exact hs.loaded d hd
      · exact hl c hc

end Scheduling

/-! ## The queue of categories -/

structure CategoryInv [DecidableEq C] [DecidableEq K] (P : Program C K I)
    (q : List (Loadable K I)) (history : List (Event C K I)) : Prop where
  method : ∀ e ∈ q, ∀ cat, e.name = some cat →
    P.categoryGetLoadMethod cat = some e.method ∧ P.remapClass cat ≠ none
  mapped : ∀ e ∈ waiting q, ∃ image older, .mapped image :: older <:+ history ∧
    older.length = e.2 ∧ e.1 ∈ image.nonlazyCategories
  before : ∀ e ∈ waiting q ++ calledCategories history, e.2 < history.length
  total : ∀ cat, ((calledCategories history).map Prod.fst).count cat +
    ((waiting q).map Prod.fst).count cat ≤ (mappedCategories history).count cat
  count : ∀ image older cat, .mapped image :: older <:+ history →
    (calledCategories history).count (cat, older.length) +
      (waiting q).count (cat, older.length) ≤ image.nonlazyCategories.count cat
  done : ∀ newer image older cat, history = newer ++ .mapped image :: older →
    P.remapClass cat ≠ none → P.categoryGetLoadMethod cat ≠ none →
      image.nonlazyCategories.count cat ≤ (calledCategories history).count (cat, older.length) +
        (waiting q).count (cat, older.length) + (unmappedCategories newer).count cat
  ordered : OrderedMaps P history → CategoriesOrdered P history

section Categories

variable {P : Program C K I} {q ks l : List (Loadable K I)} {history : List (Event C K I)}

/-- What a category adds to the queue. -/
def categoryEntry (P : Program C K I) (n : Nat) (cat : K) : Option (Loadable K I) :=
  match P.remapClass cat with
  | none => none
  | some _ => (P.categoryGetLoadMethod cat).map fun m => ⟨some cat, m, n⟩

theorem prepareCategories_eq (l : List K) (s : State C K I) :
    l.foldl (prepareCategory P) s =
      { s with loadableCategories :=
        s.loadableCategories ++ l.filterMap (categoryEntry P s.history.length) } := by
  induction l generalizing s with
  | nil => simp
  | cons cat l ih =>
    rw [List.foldl_cons, ih]
    unfold prepareCategory categoryEntry addCategoryToLoadableList
    cases hr : P.remapClass cat with
    | none => simp [hr]
    | some cls =>
      cases hm : P.categoryGetLoadMethod cat with
      | none => simp [hr, hm]
      | some m => simp [hr, hm]

theorem waiting_entries (n : Nat) (l : List K) : waiting (l.filterMap (categoryEntry P n)) =
    (l.filter fun cat => (P.remapClass cat).isSome && (P.categoryGetLoadMethod cat).isSome).map
      fun cat => (cat, n) := by
  induction l with
  | nil => rfl
  | cons cat l ih =>
    unfold categoryEntry at ih ⊢
    cases hr : P.remapClass cat with
    | none => simpa [hr] using ih
    | some cls =>
      cases hm : P.categoryGetLoadMethod cat with
      | none => simpa [hr, hm] using ih
      | some m => simpa [hr, hm] using ih

theorem map_fst_entries (n : Nat) (l : List K) :
    ((waiting (l.filterMap (categoryEntry P n))).map Prod.fst).Sublist l := by
  rw [waiting_entries, List.map_map]
  show (List.map id _).Sublist l
  rw [List.map_id]
  exact List.filter_sublist

theorem mem_entries {n : Nat} {l : List K} {e : K × Nat}
    (h : e ∈ waiting (l.filterMap (categoryEntry P n))) : e.1 ∈ l ∧ e.2 = n := by
  rw [waiting_entries] at h
  obtain ⟨cat, hm, rfl⟩ := List.mem_map.mp h
  exact ⟨List.mem_of_mem_filter hm, rfl⟩

theorem count_entries [DecidableEq K] (n : Nat) (l : List K) (cat : K) :
    (waiting (l.filterMap (categoryEntry P n))).count (cat, n) ≤ l.count cat ∧
      (P.remapClass cat ≠ none → P.categoryGetLoadMethod cat ≠ none →
        (waiting (l.filterMap (categoryEntry P n))).count (cat, n) = l.count cat) := by
  have hinj : Function.Injective fun cat : K => (cat, n) := fun a b e => (Prod.mk.inj e).1
  rw [waiting_entries, List.count_map_of_injective _ _ hinj]
  refine ⟨List.filter_sublist.count_le cat, fun hr hm => List.count_filter ?_⟩
  rw [Option.isSome_iff_ne_none.mpr hr, Option.isSome_iff_ne_none.mpr hm]
  rfl

variable [DecidableEq C] [DecidableEq K]

theorem CategoryInv.mapped_mono (h : CategoryInv P q history) (event : Event C K I) :
    ∀ e ∈ waiting q, ∃ image older, .mapped image :: older <:+ event :: history ∧
      older.length = e.2 ∧ e.1 ∈ image.nonlazyCategories := by
  intro e he
  obtain ⟨image, older, hs, hrest⟩ := h.mapped e he
  exact ⟨image, older, hs.trans (List.suffix_cons event history), hrest⟩

/-- An event that is about neither maps nor categories. -/
theorem CategoryInv.record (h : CategoryInv P q history) {event : Event C K I}
    (hcalled : calledCategories (event :: history) = calledCategories history)
    (hmap : mappedCategories (event :: history) = mappedCategories history)
    (hnot : ∀ image, event ≠ .mapped image)
    (hmaps : OrderedMaps P (event :: history) → OrderedMaps P history)
    (hordered : CategoriesOrdered P history → CategoriesOrdered P (event :: history)) :
    CategoryInv P q (event :: history) := by
  refine ⟨h.method, h.mapped_mono event, fun e he => ?_, ?_, fun image older cat hs => ?_,
    fun newer image older cat e hr hload => ?_, fun ho => hordered (h.ordered (hmaps ho))⟩
  · rw [hcalled] at he
    exact Nat.lt_succ_of_lt (h.before e he)
  · rw [hcalled, hmap]
    exact h.total
  · rw [hcalled]
    refine h.count image older cat ((List.suffix_cons_iff.mp hs).resolve_left fun e => ?_)
    exact hnot image (List.head_eq_of_cons_eq e).symm
  · rw [hcalled]
    cases newer with
    | nil => exact absurd (List.head_eq_of_cons_eq e) (hnot image)
    | cons event' newer =>
      have hdone := h.done newer image older cat (List.tail_eq_of_cons_eq e) hr hload
      refine Nat.le_trans hdone (Nat.add_le_add_left ?_ _)
      cases event' with
      | unmapped =>
        rw [unmappedCategories, List.count_append]
        exact Nat.le_add_left _ _
      | mapped => exact Nat.le_refl _
      | scheduled => exact Nat.le_refl _
      | classLoad => exact Nat.le_refl _
      | categoryLoad => exact Nat.le_refl _

theorem CategoryInv.scheduled {newer : List (Event C K I)} (h : CategoryInv P q history)
    (hn : ∀ event ∈ newer, ∃ d, event = .scheduled d) : CategoryInv P q (newer ++ history) := by
  induction newer with
  | nil => exact h
  | cons event newer ih =>
    obtain ⟨d, rfl⟩ := hn event List.mem_cons_self
    exact (ih fun e he => hn e (List.mem_cons_of_mem _ he)).record rfl rfl
      (fun _ e => by cases e) id id

/-- An image adds its categories. -/
theorem CategoryInv.map (h : CategoryInv P q history) (image : Image C K) :
    CategoryInv P (q ++ image.nonlazyCategories.filterMap (categoryEntry P history.length))
      (.mapped image :: history) := by
  have hcount := count_entries (P := P) history.length image.nonlazyCategories
  constructor
  · intro e he cat hc
    rcases List.mem_append.mp he with he | he
    · exact h.method e he cat hc
    · obtain ⟨cat', _, he⟩ := List.mem_filterMap.mp he
      unfold categoryEntry at he
      cases hr : P.remapClass cat' with
      | none => simp [hr] at he
      | some cls =>
        simp only [hr, Option.map_eq_some_iff] at he
        obtain ⟨m, hm, rfl⟩ := he
        cases hc
        exact ⟨hm, by rw [hr]; exact Option.some_ne_none cls⟩
  · intro e he
    rw [waiting_append] at he
    rcases List.mem_append.mp he with he | he
    · exact h.mapped_mono _ e he
    · obtain ⟨hm, hn⟩ := mem_entries he
      exact ⟨image, history, List.suffix_refl _, hn.symm, hm⟩
  · intro e he
    have hlt {e : K × Nat} (he : e ∈ waiting q ++ calledCategories history) :
        e.2 < (.mapped image :: history : List (Event C K I)).length :=
      Nat.lt_succ_of_lt (h.before e he)
    rw [waiting_append, List.append_assoc] at he
    rcases List.mem_append.mp he with he | he
    · exact hlt (List.mem_append_left _ he)
    · rcases List.mem_append.mp he with he | he
      · rw [(mem_entries he).2]
        exact Nat.lt_succ_self _
      · exact hlt (List.mem_append_right _ he)
  · intro cat
    have hold := h.total cat
    have hnew := (map_fst_entries (P := P) (I := I) history.length
      image.nonlazyCategories).count_le cat
    rw [waiting_append, List.map_append, List.count_append, mappedCategories, List.count_append]
    show ((calledCategories history).map Prod.fst).count cat + _ ≤ _
    omega
  · intro image' older cat hs
    show (calledCategories history).count (cat, older.length) + _ ≤ _
    rw [waiting_append, List.count_append]
    rcases List.suffix_cons_iff.mp hs with e | hs
    · cases e
      -- Nothing was queued at this moment before.
      have hfresh : (cat, history.length) ∉ waiting q ++ calledCategories history :=
        fun hm => Nat.lt_irrefl _ (h.before _ hm)
      have hq := List.count_eq_zero.mpr fun hm => hfresh (List.mem_append_left _ hm)
      have hc := List.count_eq_zero.mpr fun hm => hfresh (List.mem_append_right _ hm)
      have hle := (hcount cat).1
      omega
    · have hlt : older.length < history.length := hs.length_le
      have hnew : (waiting (image.nonlazyCategories.filterMap
          (categoryEntry P history.length))).count (cat, older.length) = 0 :=
        List.count_eq_zero.mpr fun hm => Nat.lt_irrefl _ ((mem_entries hm).2 ▸ hlt)
      have hold := h.count image' older cat hs
      omega
  · intro newer image' older cat e hr hload
    show _ ≤ (calledCategories history).count (cat, older.length) + _ + _
    rw [waiting_append, List.count_append]
    cases newer with
    | nil =>
      cases e
      have heq := (hcount cat).2 hr hload
      omega
    | cons event newer =>
      obtain ⟨rfl, rest⟩ := List.cons.inj e
      have hold := h.done newer image' older cat rest hr hload
      show _ ≤ _ + _ + (unmappedCategories newer).count cat
      omega
  · exact fun hmaps => h.ordered hmaps.2

/-- Categories that are unmapped leave the queue, but not the detached part of it. -/
theorem CategoryInv.unmap (h : CategoryInv P (ks ++ l) history) (image : Image C K) :
    CategoryInv P (ks ++ removeAll image.categories l) (.unmapped image :: history) := by
  have hsub := waiting_unmap image.categories ks l
  constructor
  · exact fun e he cat hc => h.method e (mem_unmap he hc) cat hc
  · exact fun e he => h.mapped_mono _ e (hsub.mem he)
  · exact fun e he => Nat.lt_succ_of_lt (h.before e ((hsub.append_right _).mem he))
  · exact fun cat => Nat.le_trans (Nat.add_le_add_left ((hsub.map _).count_le cat) _) (h.total cat)
  · intro image' older cat hs
    refine Nat.le_trans (Nat.add_le_add_left (hsub.count_le _) _) (h.count image' older cat ?_)
    exact (List.suffix_cons_iff.mp hs).resolve_left fun e => by cases e
  · intro newer image' older cat e hr hload
    cases newer with
    | nil => cases e
    | cons event newer =>
      obtain ⟨rfl, rest⟩ := List.cons.inj e
      have hold := h.done newer image' older cat rest hr hload
      have hleft : (waiting l).count (cat, older.length) ≤ _ + image.categories.count cat :=
        (waiting_removeAll image.categories l).2 (cat, older.length)
      show _ ≤ (calledCategories history).count (cat, older.length) + _ + _
      rw [waiting_append, List.count_append] at hold ⊢
      rw [unmappedCategories, List.count_append]
      omega
  · exact h.ordered

/-- An entry that was removed is skipped. -/
theorem CategoryInv.skip {m : I} {n : Nat} (h : CategoryInv P (⟨none, m, n⟩ :: q) history) :
    CategoryInv P q history :=
  ⟨fun e he => h.method e (List.mem_cons_of_mem _ he), h.mapped, h.before, h.total, h.count,
    h.done, h.ordered⟩

/-- **The call** of the next category of the detached list. -/
theorem CategoryInv.call {cat : K} {cls : C} {m : I} {n : Nat}
    (h : CategoryInv P (⟨some cat, m, n⟩ :: q) history)
    (hready : OrderedMaps P history → P.getLoadMethod cls ≠ none → Ready history cls cat n) :
    CategoryInv P q (.categoryLoad cls cat n m :: history) := by
  have hcalled (e : K × Nat) :
      (calledCategories (.categoryLoad cls cat n m :: history : List (Event C K I))).count e +
        (waiting q).count e = (calledCategories history).count e +
          (waiting (⟨some cat, m, n⟩ :: q)).count e := by
    rw [calledCategories, waiting_some, List.count_cons, List.count_cons]
    omega
  constructor
  · exact fun e he => h.method e (List.mem_cons_of_mem _ he)
  · exact fun e he => h.mapped_mono _ e (List.mem_cons_of_mem _ he)
  · exact fun e he => Nat.lt_succ_of_lt (h.before e (List.perm_middle.mem_iff.mp he))
  · intro a
    have hold := h.total a
    rw [waiting_some, List.map_cons, List.count_cons] at hold
    rw [calledCategories, List.map_cons, List.count_cons]
    show _ ≤ (mappedCategories history).count a
    omega
  · intro image older a hs
    rw [hcalled]
    exact h.count image older a ((List.suffix_cons_iff.mp hs).resolve_left fun e => by cases e)
  · intro newer image older a e hr hload
    rw [hcalled]
    cases newer with
    | nil => cases e
    | cons event newer =>
      obtain ⟨rfl, rest⟩ := List.cons.inj e
      exact h.done newer image older a rest hr hload
  · exact fun ho => ⟨hready ho, h.ordered ho⟩

end Categories

/-! ## Actions and calls -/

structure Inv [DecidableEq C] [DecidableEq K] (P : Program C K I) (ds : List (Loadable C I))
    (ks : List (Loadable K I)) (s : State C K I) : Prop where
  classes : ClassesInv P ds s
  categories : CategoryInv P (ks ++ s.loadableCategories) s.history

section Calls

variable [DecidableEq C] [DecidableEq K] {P : Program C K I}
variable {ds : List (Loadable C I)} {ks : List (Loadable K I)} {s : State C K I}

/-- What an action does to the queues; the call that follows it does nothing. -/
def act (P : Program C K I) (s : State C K I) : Action C K → State C K I
  | .map image => (prepareLoadMethods P image s).record (.mapped image)
  | .unmap image => unloadImage image s

theorem inv_map (h : Inv P ds ks s) (image : Image C K) :
    Inv P ds ks (act P s (.map image)) ∧ (act P s (.map image)).loading = s.loading ∧
      ∃ newer, (act P s (.map image)).history = .mapped image :: (newer ++ s.history) ∧
        ∀ event ∈ newer, ∃ d, event = .scheduled d := by
  obtain ⟨hclass, hs, hl⟩ := prepareClasses_inv image.nonlazyClasses h.classes
  obtain ⟨newer, ehist, hnewer⟩ := hs.history
  have hcat : CategoryInv P (ks ++ (image.nonlazyClasses.foldl (prepareClass P)
      s).loadableCategories) (image.nonlazyClasses.foldl (prepareClass P) s).history := by
    rw [hs.categories, ehist]
    exact h.categories.scheduled hnewer
  have hmap := hcat.map image
  rw [List.append_assoc] at hmap
  have hordered : Ordered P (.mapped image ::
      (image.nonlazyClasses.foldl (prepareClass P) s).history) :=
    ⟨fun c hc => (hclass.loaded_iff c).mp (hl c hc), hclass.ordered⟩
  have hrecord := hclass.record rfl (fun _ => rfl) hordered
  rw [act, prepareLoadMethods, prepareCategories_eq]
  exact ⟨⟨hrecord, hmap⟩, hs.loading, newer, congrArg _ ehist, hnewer⟩

theorem unloadImage_eq (image : Image C K) (s : State C K I) :
    let classes := (image.classes ++ image.nonlazyClasses.filterMap id).dedup
    unloadImage image s =
      { loaded := fun c => s.loaded c && !decide (c ∈ classes)
        loadableClasses := removeAll classes s.loadableClasses
        loadableCategories := removeAll image.categories s.loadableCategories
        loading := s.loading
        history := .unmapped image :: s.history } := by
  have hcats : ∀ (l : List K) (s : State C K I), l.foldl removeCategoryFromLoadableList s =
      { s with loadableCategories := removeAll l s.loadableCategories } := by
    intro l
    induction l with
    | nil => exact fun s => rfl
    | cons cat l ih => exact fun s => ih (removeCategoryFromLoadableList s cat)
  have hclasses : ∀ (l : List C) (s : State C K I), l.foldl removeClassFromLoadableList s =
      { s with loadableClasses := removeAll l s.loadableClasses } := by
    intro l
    induction l with
    | nil => exact fun s => rfl
    | cons c l ih => exact fun s => ih (removeClassFromLoadableList s c)
  have hfree : ∀ (l : List C) (s : State C K I), l.foldl freeClass s =
      { s with loaded := fun c => s.loaded c && !decide (c ∈ l) } := by
    intro l
    induction l with
    | nil => exact fun s => by simp
    | cons c l ih =>
      intro s
      rw [List.foldl_cons, ih, freeClass]
      congr 1
      funext d
      by_cases hd : d = c
      · simp [hd]
      · simp [hd]
  intro classes
  rw [unloadImage, hcats, hclasses, hfree]
  rfl

theorem inv_unmap (h : Inv P ds ks s) (image : Image C K) :
    Inv P ds ks (unloadImage image s) := by
  rw [unloadImage_eq]
  refine ⟨h.classes.unmap fun c => ?_, h.categories.unmap image⟩
  rw [List.mem_dedup, List.mem_append, List.mem_filterMap]
  exact or_congr_right ⟨fun ⟨o, hm, e⟩ => e ▸ hm, fun hm => ⟨some c, hm, rfl⟩⟩

end Calls

end BottomResearch.LoadMethods
