import BottomResearch.Dispatch
import BottomResearch.MethodLists

/-!
# Classes with method lists and caches

The classes of a process, each with its method lists and its cache.  The newest
class comes first, so a superclass comes after its subclasses.  Proved here:

* `each_chain`, `each_closed`: a class and what is above it are the chain of its
  name;
* `chain_map`, `Each.map`: changes that keep names and superclasses;
* `walk_eq_answer`: the plain lookup is a search along the chain.
-/

namespace BottomResearch.ClassTable

open MethodCache (SEL Cache)
open MethodLists (ClassData Represents Table table)

/-- What a lookup answers: an implementation, or `_objc_msgForward_impcache`. -/
inductive Imp (I : Type) where
  | method (imp : I)
  | forward
  deriving DecidableEq, Repr

structure ClassRec (N I : Type) where
  name : N
  superclass : Option N
  isa : N
  data : ClassData I
  initialized : Bool
  cache : Cache (Imp I)

/-- The classes, the newest first. -/
abbrev Runtime (N I : Type) := List (ClassRec N I)

variable {N I : Type} [DecidableEq N]

def getClass (rt : Runtime N I) (n : N) : Option (ClassRec N I) := rt.find? fun c => c.name = n

/-- The class `n` and its superclasses, from `n` upwards. -/
def chain : Runtime N I → N → List (ClassRec N I)
  | [], _ => []
  | c :: rt, n =>
    if c.name = n then
      c :: match c.superclass with
        | some m => chain rt m
        | none => []
    else chain rt n

/-- A change of the class `n`. -/
def onClass (n : N) (f : ClassRec N I → ClassRec N I) (c : ClassRec N I) : ClassRec N I :=
  if c.name = n then f c else c

def update (rt : Runtime N I) (n : N) (f : ClassRec N I → ClassRec N I) : Runtime N I :=
  rt.map (onClass n f)

/-! ## The classes of a runtime -/

/-- The superclasses of a class, the classes before it being `rt`. -/
def supers (rt : Runtime N I) (c : ClassRec N I) : List (ClassRec N I) :=
  match c.superclass with
  | some m => chain rt m
  | none => []

/-- `P` holds of each class and its superclasses. -/
def Each (P : ClassRec N I → List (ClassRec N I) → Prop) : Runtime N I → Prop
  | [] => True
  | c :: rt => P c (supers rt c) ∧ Each P rt

/-- `P` holds of each class of a chain and the classes above it. -/
def Along (P : ClassRec N I → List (ClassRec N I) → Prop) : List (ClassRec N I) → Prop
  | [] => True
  | c :: above => P c above ∧ Along P above

theorem chain_cons (c : ClassRec N I) (rt : Runtime N I) (n : N) :
    chain (c :: rt) n = if c.name = n then c :: supers rt c else chain rt n := rfl

section Each

variable {rt : Runtime N I} {P Q R : ClassRec N I → List (ClassRec N I) → Prop}

theorem Each.along (h : Each P rt) (n : N) : Along P (chain rt n) := by
  induction rt generalizing n with
  | nil => exact trivial
  | cons c rt ih =>
    rw [chain_cons]
    split
    · refine ⟨h.1, ?_⟩
      unfold supers
      cases c.superclass with
      | none => exact trivial
      | some m => exact ih h.2 m
    · exact ih h.2 n

theorem mem_of_mem_chain {c : ClassRec N I} {n : N} (h : c ∈ chain rt n) : c ∈ rt := by
  induction rt generalizing n with
  | nil => exact absurd h List.not_mem_nil
  | cons d rt ih =>
    rw [chain_cons] at h
    split at h
    · rcases List.mem_cons.mp h with rfl | h
      · exact List.mem_cons_self
      · unfold supers at h
        cases hs : d.superclass with
        | none =>
          rw [hs] at h
          exact absurd h List.not_mem_nil
        | some m =>
          rw [hs] at h
          exact List.mem_cons_of_mem d (ih h)
    · exact List.mem_cons_of_mem d (ih h)

theorem mem_of_mem_supers {c d : ClassRec N I} (h : d ∈ supers rt c) : d ∈ rt := by
  unfold supers at h
  cases hs : c.superclass with
  | none =>
    rw [hs] at h
    exact absurd h List.not_mem_nil
  | some m =>
    rw [hs] at h
    exact mem_of_mem_chain h

theorem chain_of_not_mem {n : N} (hn : n ∉ rt.map (·.name)) : chain rt n = [] := by
  induction rt with
  | nil => rfl
  | cons c rt ih =>
    rw [List.map_cons, List.mem_cons, not_or] at hn
    rw [chain_cons, if_neg (Ne.symm hn.1)]
    exact ih hn.2

theorem Each.imp (h : Each P rt) (himp : ∀ c above, c ∈ rt → (∀ d ∈ above, d ∈ rt) → P c above →
    Q c above) : Each Q rt := by
  induction rt with
  | nil => exact trivial
  | cons c rt ih =>
    refine ⟨himp c _ List.mem_cons_self (fun d hd => ?_) h.1, ih h.2 fun d above hd habove => ?_⟩
    · exact List.mem_cons_of_mem c (mem_of_mem_supers hd)
    · exact himp d above (List.mem_cons_of_mem c hd) fun e he => List.mem_cons_of_mem c (habove e he)

theorem Each.and (h1 : Each P rt) (h2 : Each Q rt) : Each (fun c above => P c above ∧ Q c above) rt := by
  induction rt with
  | nil => exact trivial
  | cons c rt ih => exact ⟨⟨h1.1, h2.1⟩, ih h1.2 h2.2⟩

theorem Each.mem {P : ClassRec N I → Prop} (h : Each (fun c _ => P c) rt) {c : ClassRec N I}
    (hc : c ∈ rt) : P c := by
  induction rt with
  | nil => exact absurd hc List.not_mem_nil
  | cons d rt ih =>
    rcases List.mem_cons.mp hc with rfl | hc
    · exact h.1
    · exact ih h.2 hc

theorem Each.all {α : Type} {P : α → ClassRec N I → List (ClassRec N I) → Prop}
    (h : ∀ x, Each (P x) rt) : Each (fun c above => ∀ x, P x c above) rt := by
  induction rt with
  | nil => exact trivial
  | cons c rt ih => exact ⟨fun x => (h x).1, ih fun x => (h x).2⟩

/-- A change of the classes that keeps names and superclasses. -/
structure Keeps (g : ClassRec N I → ClassRec N I) : Prop where
  name : ∀ c, (g c).name = c.name
  superclass : ∀ c, (g c).superclass = c.superclass

omit [DecidableEq N] in
theorem Keeps.map_name {g : ClassRec N I → ClassRec N I} (hg : Keeps g) (l : List (ClassRec N I)) :
    (l.map g).map (·.name) = l.map (·.name) := by
  rw [List.map_map]
  exact List.map_congr_left fun c _ => hg.name c

theorem chain_map {g : ClassRec N I → ClassRec N I} (hg : Keeps g) (rt : Runtime N I) (n : N) :
    chain (rt.map g) n = (chain rt n).map g := by
  induction rt generalizing n with
  | nil => rfl
  | cons c rt ih =>
    rw [List.map_cons, chain_cons, chain_cons, hg.name]
    split
    · rw [List.map_cons]
      congr 1
      unfold supers
      rw [hg.superclass]
      cases c.superclass with
      | none => rfl
      | some m => exact ih m
    · exact ih n

theorem supers_map {g : ClassRec N I → ClassRec N I} (hg : Keeps g) (rt : Runtime N I)
    (c : ClassRec N I) : supers (rt.map g) (g c) = (supers rt c).map g := by
  unfold supers
  rw [hg.superclass]
  cases c.superclass with
  | none => rfl
  | some m => exact chain_map hg rt m

theorem Each.map {g : ClassRec N I → ClassRec N I} (hg : Keeps g) (h : Each P rt)
    (step : ∀ c above, c ∈ rt → (∀ d ∈ above, d ∈ rt) → P c above → Q (g c) (above.map g)) :
    Each Q (rt.map g) := by
  induction rt with
  | nil => exact trivial
  | cons c rt ih =>
    refine ⟨?_, ih h.2 fun d above hd habove => ?_⟩
    · rw [supers_map hg]
      exact step c _ List.mem_cons_self (fun d hd => List.mem_cons_of_mem c (mem_of_mem_supers hd)) h.1
    · exact step d above (List.mem_cons_of_mem c hd) fun e he => List.mem_cons_of_mem c (habove e he)

/-- A class and its superclasses are its chain, when names are unique. -/
theorem each_chain (hn : (rt.map (·.name)).Nodup) :
    Each (fun c above => chain rt c.name = c :: above) rt := by
  induction rt with
  | nil => exact trivial
  | cons c rt ih =>
    rw [List.map_cons, List.nodup_cons] at hn
    refine ⟨if_pos rfl, (ih hn.2).imp fun d above hd _ h => ?_⟩
    rw [chain_cons, if_neg, h]
    intro e
    exact hn.1 (e ▸ List.mem_map_of_mem hd)

/-- What is above a class of a chain is in the chain. -/
theorem each_closed (hn : (rt.map (·.name)).Nodup) (n : N) :
    Each (fun c above => c.name ∈ (chain rt n).map (·.name) →
      ∀ d ∈ above, d.name ∈ (chain rt n).map (·.name)) rt := by
  induction rt generalizing n with
  | nil => exact trivial
  | cons c rt ih =>
    rw [List.map_cons, List.nodup_cons] at hn
    have inner : ∀ m : N, Each (fun d above => d.name ∈ (chain rt m).map (·.name) →
        ∀ e ∈ above, e.name ∈ (chain rt m).map (·.name)) rt := ih hn.2
    refine ⟨fun hc d hd => ?_, ?_⟩
    · rw [chain_cons] at hc ⊢
      split
      · rw [List.map_cons]
        exact List.mem_cons_of_mem _ (List.mem_map_of_mem hd)
      · rename_i hne
        rw [if_neg hne] at hc
        obtain ⟨e, he, hee⟩ := List.mem_map.mp hc
        exact absurd (hee ▸ List.mem_map_of_mem (mem_of_mem_chain he)) hn.1
    · rw [chain_cons]
      split
      · unfold supers
        cases hs : c.superclass with
        | none =>
          refine (inner n).imp fun d above hd habove _ hmem e he => ?_
          rw [List.map_cons, List.map_nil, List.mem_singleton] at hmem
          exact absurd (hmem ▸ List.mem_map_of_mem hd) hn.1
        | some m =>
          refine (inner m).imp fun d above hd habove hd' hmem e he => ?_
          rw [List.map_cons] at hmem ⊢
          rcases List.mem_cons.mp hmem with heq | hmem
          · exact absurd (heq ▸ List.mem_map_of_mem hd) hn.1
          · exact List.mem_cons_of_mem _ (hd' hmem e he)
      · exact inner n

end Each

/-! ## The plain lookup -/

/-- The methods that a class has once it is realized. -/
def view (d : ClassData I) : Table I := table (MethodLists.realizeClass d)

/-- What a walk along a chain finds. -/
def answer (l : List (ClassRec N I)) (sel : SEL) : Imp I :=
  match l.findSome? fun c => view c.data sel with
  | some i => .method i
  | none => .forward

/-- The classes with one table of methods each, and without caches. -/
def registry (rt : Runtime N I) : Dispatch.Registry N SEL I :=
  rt.map fun c =>
    ⟨c.name, c.superclass, MethodLists.flatten (MethodLists.realizeClass c.data).methods.lists⟩

/-- The plain lookup. -/
def walk (rt : Runtime N I) (n : N) (sel : SEL) : Imp I :=
  match Dispatch.getMethod (registry rt) n sel with
  | some i => .method i
  | none => .forward

theorem hierarchy_registry (rt : Runtime N I) (n : N) :
    Dispatch.hierarchy (registry rt) n = registry (chain rt n) := by
  induction rt generalizing n with
  | nil => rfl
  | cons c rt ih =>
    rw [chain_cons]
    unfold registry
    rw [List.map_cons, Dispatch.hierarchy]
    split
    · rw [List.map_cons]
      congr 1
      unfold supers
      cases c.superclass with
      | none => rfl
      | some m => exact ih m
    · exact ih n

omit [DecidableEq N] in
theorem findSome?_registry (l : List (ClassRec N I)) (sel : SEL) :
    (registry l).findSome? (fun e => e.getMethodNoSuper sel) =
      l.findSome? fun c => view c.data sel := by
  unfold registry
  rw [List.findSome?_map]
  rfl

theorem walk_eq_answer (rt : Runtime N I) (n : N) (sel : SEL) :
    walk rt n sel = answer (chain rt n) sel := by
  unfold walk answer
  rw [Dispatch.getMethod_eq_findSome?, hierarchy_registry, findSome?_registry]

omit [DecidableEq N] in
theorem answer_map {g : ClassRec N I → ClassRec N I} {l : List (ClassRec N I)}
    (hv : ∀ c ∈ l, view (g c).data = view c.data) (sel : SEL) :
    answer (l.map g) sel = answer l sel := by
  unfold answer
  rw [List.findSome?_map]
  have hsame : l.findSome? ((fun c => view c.data sel) ∘ g) = l.findSome? fun c => view c.data sel := by
    induction l with
    | nil => rfl
    | cons c l ih =>
      rw [List.findSome?_cons, List.findSome?_cons,
        ih fun d hd => hv d (List.mem_cons_of_mem c hd)]
      show (match view (g c).data sel with | some b => some b | none => _) = _
      rw [hv c List.mem_cons_self]
      cases view c.data sel <;> rfl
  rw [hsame]

omit [DecidableEq N] in
theorem answer_cons_map {g : ClassRec N I → ClassRec N I} {c : ClassRec N I}
    {above : List (ClassRec N I)} (hc : view (g c).data = view c.data)
    (hv : ∀ d ∈ above, view (g d).data = view d.data) (sel : SEL) :
    answer (g c :: above.map g) sel = answer (c :: above) sel := by
  rw [← List.map_cons, answer_map]
  intro d hd
  rcases List.mem_cons.mp hd with rfl | hd
  · exact hc
  · exact hv d hd

theorem realizeClass_of_realized {d : ClassData I} (hr : d.realized = true) :
    MethodLists.realizeClass d = d := if_pos hr

theorem view_of_realized {d : ClassData I} (hr : d.realized = true) : view d = table d := by
  unfold view
  rw [realizeClass_of_realized hr]

theorem view_eq {d : ClassData I} {t : Table I} (h : Represents d t) : view d = t := by
  obtain ⟨hrep, hr⟩ := MethodLists.represents_realizeClass h
  exact (hrep.settled hr).2

omit [DecidableEq N] in
theorem answer_cons_of_some {c : ClassRec N I} {above : List (ClassRec N I)} {sel : SEL} {i : I}
    (h : view c.data sel = some i) : answer (c :: above) sel = .method i := by
  unfold answer
  rw [List.findSome?_cons, h]

omit [DecidableEq N] in
theorem answer_cons_of_none {c : ClassRec N I} {above : List (ClassRec N I)} {sel : SEL}
    (h : view c.data sel = none) : answer (c :: above) sel = answer above sel := by
  unfold answer
  rw [List.findSome?_cons, h]

section Names

variable {rt : Runtime N I} {n : N} {f : ClassRec N I → ClassRec N I}

omit [DecidableEq N] in
theorem eq_of_name_eq (hn : (rt.map (·.name)).Nodup) {c d : ClassRec N I} (hc : c ∈ rt) (hd : d ∈ rt)
    (e : c.name = d.name) : c = d := List.inj_on_of_nodup_map hn hc hd e

theorem getClass_mem {n : N} {cls : ClassRec N I} (h : getClass rt n = some cls) :
    cls ∈ rt ∧ cls.name = n :=
  ⟨List.mem_of_find?_eq_some h, by simpa using List.find?_some h⟩

theorem keeps_onClass (hf : ∀ c, (f c).name = c.name) (hs : ∀ c, (f c).superclass = c.superclass) :
    Keeps (onClass n f) where
  name c := by
    unfold onClass
    split
    · exact hf c
    · rfl
  superclass c := by
    unfold onClass
    split
    · exact hs c
    · rfl

theorem onClass_of_ne {c : ClassRec N I} (h : c.name ≠ n) : onClass n f c = c := if_neg h

end Names

end BottomResearch.ClassTable
