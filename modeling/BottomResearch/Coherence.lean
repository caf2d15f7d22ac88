import BottomResearch.ClassTable

/-!
# Coherent method caches

Changes of methods erase the caches of the classes that they concern, so that
what is cached is always what a walk through the method lists finds.  Only
realized classes are flushed; the others have nothing in their caches.  Proved
here:

* `inv_flushCaches`: where a flush concerns a class, its cache may have been wrong;
* `inv_update_flush`, `inv_update_unrealized`, `inv_update_view`: a change of one
  class is followed by a flush, or the class is not realized, or no method
  becomes visible;
* `inv_realizeClass`, `inv_discoverCategory`, `inv_addMethod`,
  `inv_setImplementation`, `inv_exchangeImplementations`: every change of methods
  keeps the caches coherent;
* `AtMost.map` and the lemmas after it: none of these changes fills a cache.
-/

namespace BottomResearch.Coherence

open ClassTable
open MethodCache (SEL Arch Cache cacheErase Has)
open MethodLists (ClassData MethodList MethodRef Represents Table table)

/-- What ends the process. -/
inductive Fatal where
  | cache (e : MethodCache.Fatal)
  | unrealized
  deriving DecidableEq, Repr

variable {N I : Type} [DecidableEq N]

/-- `realizeClass` goes through the superclasses and the metaclasses as well. -/
def toRealize (rt : Runtime N I) (n : N) : List N :=
  ((chain rt n).flatMap fun c => c :: chain rt c.isa).map (·.name)

def realizeOne (names : List N) (c : ClassRec N I) : ClassRec N I :=
  if c.name ∈ names then { c with data := MethodLists.realizeClass c.data } else c

def realizeClass (rt : Runtime N I) (n : N) : Runtime N I := rt.map (realizeOne (toRealize rt n))

/-- The classes whose caches a change of `cls` concerns; `none` is every class. -/
def Concerns (rt : Runtime N I) (cls : Option N) (n : N) : Prop :=
  ∀ m, cls = some m → m ∈ (chain rt n).map (·.name)

instance (rt : Runtime N I) (cls : Option N) (n : N) : Decidable (Concerns rt cls n) :=
  match cls with
  | none => isTrue nofun
  | some m => decidable_of_iff (m ∈ (chain rt n).map (·.name))
      ⟨fun h _ e => Option.some.inj e ▸ h, fun h => h m rfl⟩

def eraseCache (rt : Runtime N I) (cls : Option N) (c : ClassRec N I) : ClassRec N I :=
  if c.data.realized = true ∧ Concerns rt cls c.name then { c with cache := cacheErase c.cache }
  else c

def flushCaches (rt : Runtime N I) (cls : Option N) : Runtime N I := rt.map (eraseCache rt cls)

/-! ## Changes of methods -/

def discoverCategory (rt : Runtime N I) (n : N) (cat : Option (MethodList I)) : Runtime N I :=
  match getClass rt n with
  | none => rt
  | some cls =>
    let rt' := update rt n fun c => { c with data := MethodLists.discoverCategory c.data cat }
    -- A realized class is methodized again, which flushes when methods came.
    if cls.data.realized && (cls.data.unattached ++ [cat]).any (·.isSome) then
      flushCaches rt' (some n)
    else rt'

/-- `class_addMethod` and `class_replaceMethod`. -/
def addMethod (rt : Runtime N I) (n : N) (name : SEL) (imp : I) (replace : Bool) :
    Except Fatal (Runtime N I) :=
  match getClass rt n with
  | none => .ok rt
  | some cls =>
    if cls.data.realized then
      let rt' := update rt n fun c =>
        { c with data := (MethodLists.addMethod c.data name imp replace).1 }
      -- A method that is there and is not replaced changes nothing.
      let old := (MethodLists.addMethod cls.data name imp replace).2
      .ok (if old.isSome && !replace then rt' else flushCaches rt' (some n))
    else .error .unrealized

/-- Any method of any class, by the class and the method's place in its lists. -/
abbrev Method (N : Type) := N × MethodRef

def setImp (rt : Runtime N I) (m : Method N) (imp : I) : Runtime N I :=
  update rt m.1 fun c => { c with data := c.data.setImp m.2 imp }

def imp (rt : Runtime N I) (m : Method N) : Option I :=
  (getClass rt m.1).bind fun c => MethodLists.impAt c.data.methods.lists m.2

/-- `method_setImplementation`. -/
def setImplementation (rt : Runtime N I) (m : Method N) (imp : I) : Runtime N I :=
  flushCaches (setImp rt m imp) none

/-- `method_exchangeImplementations`. -/
def exchangeImplementations (rt : Runtime N I) (m1 m2 : Method N) : Runtime N I :=
  match imp rt m1, imp rt m2 with
  | some m1_imp, some m2_imp => flushCaches (setImp (setImp rt m1 m2_imp) m2 m1_imp) none
  | _, _ => rt

/-- A class of a mapped image, or one that was allocated; names are unique. -/
def register (rt : Runtime N I) (name : N) (superclass : Option N) (isa : N)
    (baseMethods : Option (MethodList I)) (bonus : Option (SEL × I)) : Runtime N I :=
  match getClass rt name with
  | some _ => rt
  | none => ⟨name, superclass, isa, MethodLists.newClass baseMethods bonus, false, Cache.empty⟩ :: rt

def setInitialized (rt : Runtime N I) (n : N) : Runtime N I :=
  update rt n fun c => { c with initialized := true }

/-! ## The invariant -/

/-- A class by itself, and the realization of its superclasses. -/
structure Sane (arch : Arch) (c : ClassRec N I) (above : List (ClassRec N I)) : Prop where
  cache : MethodCache.WF arch c.cache
  ready : ∃ t, Represents c.data t
  idle : c.data.realized = false → ∀ sel imp, ¬ Has c.cache sel imp
  closed : c.data.realized = true → ∀ d ∈ above, d.data.realized = true

/-- What is cached is what a walk finds. -/
def Coherent (c : ClassRec N I) (above : List (ClassRec N I)) : Prop :=
  ∀ sel imp, Has c.cache sel imp → imp = answer (c :: above) sel

/-- What every step keeps. -/
structure Inv (arch : Arch) (rt : Runtime N I) : Prop where
  nodup : (rt.map (·.name)).Nodup
  sane : Each (Sane arch) rt
  coherent : Each Coherent rt

section Inv

variable {arch : Arch} {rt : Runtime N I}

/-- Changes that touch no cache and show in no method table. -/
theorem inv_of_view_eq {g : ClassRec N I → ClassRec N I} (hg : Keeps g) (h : Inv arch rt)
    (hcache : ∀ c ∈ rt, (g c).cache = c.cache) (hview : ∀ c ∈ rt, view (g c).data = view c.data)
    (hready : ∀ c ∈ rt, (∃ t, Represents c.data t) → ∃ t, Represents (g c).data t)
    (hreal : ∀ c ∈ rt, c.data.realized = true → (g c).data.realized = true)
    (hclosed : Each (fun c above => (g c).data.realized = true →
      ∀ d ∈ above, (g d).data.realized = true) rt) : Inv arch (rt.map g) where
  nodup := by
    rw [hg.map_name]
    exact h.nodup
  sane := by
    refine (h.sane.and hclosed).map hg fun c above hc habove hP => ⟨?_, ?_, fun hf => ?_, ?_⟩
    · rw [hcache c hc]
      exact hP.1.cache
    · exact hready c hc hP.1.ready
    · rw [hcache c hc]
      apply hP.1.idle
      cases hr : c.data.realized with
      | false => rfl
      | true =>
        rw [hreal c hc hr] at hf
        cases hf
    · intro hr d hd
      obtain ⟨e, he, rfl⟩ := List.mem_map.mp hd
      exact hP.2 hr e he
  coherent := by
    refine h.coherent.map hg fun c above hc habove hP sel imp hhas => ?_
    rw [hcache c hc] at hhas
    rw [answer_cons_map (hview c hc) fun d hd => hview d (habove d hd)]
    exact hP sel imp hhas

theorem eraseCache_data (cls : Option N) (c : ClassRec N I) :
    (eraseCache rt cls c).data = c.data := by
  unfold eraseCache
  split <;> rfl

theorem keeps_eraseCache (cls : Option N) : Keeps (eraseCache rt cls) where
  name c := by unfold eraseCache; split <;> rfl
  superclass c := by unfold eraseCache; split <;> rfl

/-- **Flushing.**  Caches need be coherent only where the flush does not concern them. -/
theorem inv_flushCaches {cls : Option N} (hn : (rt.map (·.name)).Nodup)
    (hs : Each (Sane arch) rt)
    (hc : Each (fun c above => ¬ Concerns rt cls c.name → Coherent c above) rt) :
    Inv arch (flushCaches rt cls) where
  nodup := by
    unfold flushCaches
    rw [(keeps_eraseCache cls).map_name]
    exact hn
  sane := by
    refine hs.map (keeps_eraseCache cls) fun c above _ _ hP => ⟨?_, ?_, fun hf => ?_, fun hr d hd => ?_⟩
    · unfold eraseCache
      split
      · exact (MethodCache.cacheErase_spec hP.cache).1
      · exact hP.cache
    · rw [eraseCache_data]
      exact hP.ready
    · rw [eraseCache_data] at hf
      unfold eraseCache
      split
      · exact (MethodCache.cacheErase_spec hP.cache).2.2
      · exact hP.idle hf
    · rw [eraseCache_data] at hr
      obtain ⟨e, he, rfl⟩ := List.mem_map.mp hd
      rw [eraseCache_data]
      exact hP.closed hr e he
  coherent := by
    refine (hs.and hc).map (keeps_eraseCache cls) fun c above _ _ hP sel imp hhas => ?_
    rw [answer_cons_map (by rw [eraseCache_data]) fun d _ => by rw [eraseCache_data]]
    unfold eraseCache at hhas
    split at hhas
    · exact absurd hhas ((MethodCache.cacheErase_spec hP.1.cache).2.2 sel imp)
    · rename_i hcond
      cases hr : c.data.realized with
      | false => exact absurd hhas (hP.1.idle hr sel imp)
      | true => exact hP.2 (fun hcon => hcond ⟨hr, hcon⟩) sel imp hhas

/-! ### Changes of one class -/

/-- A change of the method lists of the class `n`. -/
structure Changes (rt : Runtime N I) (n : N) (f : ClassRec N I → ClassRec N I) : Prop where
  name : ∀ c, (f c).name = c.name
  superclass : ∀ c, (f c).superclass = c.superclass
  cache : ∀ c, (f c).cache = c.cache
  realized : ∀ c, (f c).data.realized = c.data.realized
  ready : ∀ c ∈ rt, c.name = n → (∃ t, Represents c.data t) → ∃ t, Represents (f c).data t

variable {n : N} {f : ClassRec N I → ClassRec N I}

theorem Changes.keeps (hf : Changes rt n f) : Keeps (onClass n f) :=
  keeps_onClass hf.name hf.superclass

theorem Changes.realized_onClass (hf : Changes rt n f) (c : ClassRec N I) :
    (onClass n f c).data.realized = c.data.realized := by
  unfold onClass
  split
  · exact hf.realized c
  · rfl

theorem Changes.cache_onClass (hf : Changes rt n f) (c : ClassRec N I) :
    (onClass n f c).cache = c.cache := by
  unfold onClass
  split
  · exact hf.cache c
  · rfl

theorem Changes.ready_onClass (hf : Changes rt n f) {c : ClassRec N I} (hc : c ∈ rt)
    (h : ∃ t, Represents c.data t) : ∃ t, Represents (onClass n f c).data t := by
  unfold onClass
  split
  · rename_i hn
    exact hf.ready c hc hn h
  · exact h

theorem nodup_update (hf : Changes rt n f) (hn : (rt.map (·.name)).Nodup) :
    ((update rt n f).map (·.name)).Nodup := by
  unfold update
  rw [hf.keeps.map_name]
  exact hn

theorem sane_update (hf : Changes rt n f) (hs : Each (Sane arch) rt) :
    Each (Sane arch) (update rt n f) := by
  refine hs.map hf.keeps fun c above hc _ hP => ⟨?_, hf.ready_onClass hc hP.ready, fun hr => ?_, ?_⟩
  · rw [hf.cache_onClass]
    exact hP.cache
  · rw [hf.realized_onClass] at hr
    rw [hf.cache_onClass]
    exact hP.idle hr
  · intro hr d hd
    obtain ⟨e, he, rfl⟩ := List.mem_map.mp hd
    rw [hf.realized_onClass] at hr ⊢
    exact hP.closed hr e he

/-- Away from the class and its subclasses nothing changes. -/
theorem coherent_update (hf : Changes rt n f) (h : Inv arch rt) :
    Each (fun c above => n ∉ (c :: above).map (·.name) → Coherent c above) (update rt n f) := by
  refine h.coherent.map hf.keeps fun c above _ _ hP hnot sel imp hhas => ?_
  have hsame : ∀ d ∈ c :: above, onClass n f d = d := by
    intro d hd
    apply onClass_of_ne
    intro e
    apply hnot
    rw [← List.map_cons, hf.keeps.map_name, ← e]
    exact List.mem_map_of_mem hd
  rw [hf.cache_onClass] at hhas
  rw [answer_cons_map (by rw [hsame c List.mem_cons_self]) fun d hd => by
    rw [hsame d (List.mem_cons_of_mem c hd)]]
  exact hP sel imp hhas

/-- **Change and flush** of the class and its subclasses. -/
theorem inv_update_flush (hf : Changes rt n f) (h : Inv arch rt) :
    Inv arch (flushCaches (update rt n f) (some n)) := by
  have hnodup := nodup_update hf h.nodup
  refine inv_flushCaches hnodup (sane_update hf h.sane) ?_
  refine ((coherent_update hf h).and (each_chain hnodup)).imp fun c above _ _ hP hnot => ?_
  apply hP.1
  intro hmem
  apply hnot
  intro m hm
  cases hm
  rw [hP.2]
  exact hmem

/-- Without a flush, of a class that is not realized: none of its subclasses is. -/
theorem inv_update_unrealized (hf : Changes rt n f) (h : Inv arch rt)
    (hr : ∀ c ∈ rt, c.name = n → c.data.realized = false) : Inv arch (update rt n f) where
  nodup := nodup_update hf h.nodup
  sane := sane_update hf h.sane
  coherent := by
    have hidle : Each (fun c above => n ∈ (c :: above).map (·.name) →
        ∀ sel imp, ¬ Has c.cache sel imp) (update rt n f) := by
      refine h.sane.map hf.keeps fun c above hc habove hP hmem => ?_
      rw [← List.map_cons, hf.keeps.map_name] at hmem
      rw [hf.cache_onClass]
      apply hP.idle
      cases hreal : c.data.realized with
      | false => rfl
      | true =>
        obtain ⟨d, hd, hdn⟩ := List.mem_map.mp hmem
        rcases List.mem_cons.mp hd with rfl | hd
        · rw [hr d hc hdn] at hreal
          cases hreal
        · have := hP.closed hreal d hd
          rw [hr d (habove d hd) hdn] at this
          cases this
    refine ((coherent_update hf h).and hidle).imp fun c above _ _ hP => ?_
    rcases Decidable.em (n ∈ (c :: above).map (·.name)) with hmem | hmem
    · exact fun sel imp hhas => absurd hhas (hP.2 hmem sel imp)
    · exact hP.1 hmem

/-- Without a flush, when no method becomes visible. -/
theorem inv_update_view (hf : Changes rt n f) (h : Inv arch rt)
    (hv : ∀ c ∈ rt, c.name = n → view (f c).data = view c.data) : Inv arch (update rt n f) := by
  refine inv_of_view_eq hf.keeps h (fun c _ => hf.cache_onClass c) (fun c hc => ?_)
    (fun c hc => hf.ready_onClass hc) (fun c _ hr => by rw [hf.realized_onClass]; exact hr)
    (h.sane.imp fun c above _ _ hP hr d hd => ?_)
  · unfold onClass
    split
    · rename_i hn
      exact hv c hc hn
    · rfl
  · rw [hf.realized_onClass] at hr ⊢
    exact hP.closed hr d hd

/-- After a flush of all classes, any change of method lists is fine. -/
theorem inv_flush_all (hn : (rt.map (·.name)).Nodup) (hs : Each (Sane arch) rt) :
    Inv arch (flushCaches rt none) :=
  inv_flushCaches hn hs (hs.imp fun _ _ _ _ _ hnot => absurd nofun hnot)

end Inv

/-! ## The steps keep the invariant -/

section Steps

variable {arch : Arch} {rt : Runtime N I}

theorem mem_toRealize {n m : N} : m ∈ toRealize rt n ↔
    ∃ c ∈ chain rt n, m = c.name ∨ m ∈ (chain rt c.isa).map (·.name) := by
  unfold toRealize
  rw [List.map_flatMap, List.mem_flatMap]
  constructor
  · rintro ⟨c, hc, hm⟩
    exact ⟨c, hc, List.mem_cons.mp hm⟩
  · rintro ⟨c, hc, hm⟩
    exact ⟨c, hc, List.mem_cons.mpr hm⟩

/-- With a class, its superclasses are realized. -/
theorem each_toRealize (hn : (rt.map (·.name)).Nodup) (n : N) :
    Each (fun c above => c.name ∈ toRealize rt n → ∀ d ∈ above, d.name ∈ toRealize rt n) rt := by
  refine (Each.all fun m => each_closed hn m).imp fun c above _ _ hP hmem d hd => ?_
  rw [mem_toRealize] at hmem ⊢
  obtain ⟨c', hc', heq | hm⟩ := hmem
  · obtain ⟨d', hd', e⟩ := List.mem_map.mp (hP n (heq ▸ List.mem_map_of_mem hc') d hd)
    exact ⟨d', hd', Or.inl e.symm⟩
  · exact ⟨c', hc', Or.inr (hP c'.isa hm d hd)⟩

theorem keeps_realizeOne (names : List N) : Keeps (realizeOne (I := I) names) where
  name c := by unfold realizeOne; split <;> rfl
  superclass c := by unfold realizeOne; split <;> rfl

theorem realizeOne_realized {names : List N} {c : ClassRec N I} (h : ∃ t, Represents c.data t) :
    (realizeOne names c).data.realized = true ↔ c.data.realized = true ∨ c.name ∈ names := by
  obtain ⟨t, ht⟩ := h
  unfold realizeOne
  split
  · rename_i hmem
    exact ⟨fun _ => Or.inr hmem, fun _ => (MethodLists.represents_realizeClass ht).2⟩
  · rename_i hmem
    exact ⟨Or.inl, fun h => h.resolve_right hmem⟩

theorem Inv.ready (h : Inv arch rt) {c : ClassRec N I} (hc : c ∈ rt) : ∃ t, Represents c.data t :=
  (h.sane.imp fun _ _ _ _ hP => hP.ready : Each (fun c _ => ∃ t, Represents c.data t) rt).mem hc

theorem inv_realizeClass (h : Inv arch rt) (n : N) : Inv arch (realizeClass rt n) := by
  refine inv_of_view_eq (keeps_realizeOne _) h (fun c _ => ?_) (fun c hc => ?_) (fun c _ hr => ?_)
    (fun c hc hr => (realizeOne_realized (h.ready hc)).mpr (Or.inl hr)) ?_
  · unfold realizeOne
    split <;> rfl
  · obtain ⟨t, ht⟩ := h.ready hc
    unfold realizeOne
    split
    · exact (view_eq (MethodLists.represents_realizeClass ht).1).trans (view_eq ht).symm
    · rfl
  · obtain ⟨t, ht⟩ := hr
    unfold realizeOne
    split
    · exact ⟨t, (MethodLists.represents_realizeClass ht).1⟩
    · exact ⟨t, ht⟩
  · refine (h.sane.and (each_toRealize h.nodup n)).imp fun c above hc habove hP hr d hd => ?_
    refine (realizeOne_realized (h.ready (habove d hd))).mpr ?_
    rcases (realizeOne_realized (h.ready hc)).mp hr with hreal | hmem
    · exact Or.inl (hP.1.closed hreal d hd)
    · exact Or.inr (hP.2 hmem d hd)

/-! ### Changes of methods -/

theorem discoverCategory_realized (d : ClassData I) (cat : Option (MethodList I)) :
    (MethodLists.discoverCategory d cat).realized = d.realized := by
  unfold MethodLists.discoverCategory
  dsimp only
  split <;> rfl

omit [DecidableEq N] in
theorem changes_discoverCategory (n : N) (cat : Option (MethodList I)) :
    Changes rt n fun c => { c with data := MethodLists.discoverCategory c.data cat } where
  name _ := rfl
  superclass _ := rfl
  cache _ := rfl
  realized c := discoverCategory_realized c.data cat
  ready _ _ _ hr := hr.elim fun _ ht => ⟨_, MethodLists.represents_discoverCategory ht cat⟩

theorem inv_discoverCategory (h : Inv arch rt) (n : N) (cat : Option (MethodList I)) :
    Inv arch (discoverCategory rt n cat) := by
  have hchanges : Changes rt n _ := changes_discoverCategory n cat
  unfold discoverCategory
  cases hget : getClass rt n with
  | none => exact h
  | some cls =>
    obtain ⟨hmem, hname⟩ := getClass_mem hget
    have hcls : ∀ c ∈ rt, c.name = n → c = cls := fun c hc e =>
      eq_of_name_eq h.nodup hc hmem (e.trans hname.symm)
    dsimp only
    split
    · exact inv_update_flush hchanges h
    · rename_i hno
      cases hr : cls.data.realized with
      | false =>
        refine inv_update_unrealized hchanges h fun c hc e => ?_
        rw [hcls c hc e, hr]
      | true =>
        -- Only a category without methods is attached without a flush.
        have hnone : cat = none := by
          cases cat with
          | none => rfl
          | some m =>
            rw [hr, List.any_append] at hno
            simp at hno
        refine inv_update_view hchanges h fun c hc _ => ?_
        obtain ⟨t, ht⟩ := h.ready hc
        have hrep := MethodLists.represents_discoverCategory ht cat
        show view (MethodLists.discoverCategory c.data cat) = view c.data
        rw [view_eq hrep, view_eq ht, hnone]
        rfl

theorem inv_addMethod (h : Inv arch rt) {n : N} {name : SEL} {imp : I} {replace : Bool}
    {rt' : Runtime N I} (hadd : addMethod rt n name imp replace = .ok rt') : Inv arch rt' := by
  unfold addMethod at hadd
  cases hget : getClass rt n with
  | none =>
    rw [hget] at hadd
    cases hadd
    exact h
  | some cls =>
    obtain ⟨hmem, hname⟩ := getClass_mem hget
    have hcls : ∀ c ∈ rt, c.name = n → c = cls := fun c hc e =>
      eq_of_name_eq h.nodup hc hmem (e.trans hname.symm)
    rw [hget] at hadd
    dsimp only at hadd
    split at hadd
    · rename_i hr
      have hchanges : Changes rt n fun c =>
          { c with data := (MethodLists.addMethod c.data name imp replace).1 } :=
        ⟨fun _ => rfl, fun _ => rfl, fun _ => rfl,
          fun c => (MethodLists.addMethod_keeps c.data name imp replace).1, fun c hc e hrep => by
            obtain ⟨t, ht⟩ := hrep
            rw [hcls c hc e] at ht ⊢
            exact ⟨_, MethodLists.represents_addMethod ht hr name imp replace⟩⟩
      injection hadd with hadd
      subst hadd
      split
      · rename_i hold
        refine inv_update_view hchanges h fun c hc e => ?_
        rw [Bool.and_eq_true, MethodLists.addMethod_result] at hold
        have hreplace : replace = false := by simpa using hold.2
        rw [hcls c hc e]
        show view (MethodLists.addMethod cls.data name imp replace).1 = view cls.data
        rw [view_of_realized ((MethodLists.addMethod_keeps _ _ _ _).1.trans hr),
          view_of_realized hr, MethodLists.table_addMethod]
        funext s
        unfold Table.add
        obtain ⟨i, hi⟩ := Option.isSome_iff_exists.mp hold.1
        split
        · rename_i hs
          rw [hs, hi, hreplace]
          rfl
        · rfl
      · exact inv_update_flush hchanges h
    · cases hadd

omit [DecidableEq N] in
theorem changes_setImp (n : N) (m : MethodRef) (imp : I) :
    Changes rt n fun c => { c with data := c.data.setImp m imp } where
  name _ := rfl
  superclass _ := rfl
  cache _ := rfl
  realized _ := rfl
  ready c _ _ hr := by
    obtain ⟨t, ht⟩ := hr
    refine ⟨if c.data.realized then table (c.data.setImp m imp) else t, fun hreal => ?_, fun hreal => ?_⟩
    · have hreal' : c.data.realized = true := hreal
      rw [if_pos hreal']
      exact ⟨(ht.settled hreal').1, rfl⟩
    · have hreal' : c.data.realized = false := hreal
      obtain ⟨hlists, htab⟩ := ht.waiting hreal'
      rw [if_neg (by rw [hreal']; exact Bool.false_ne_true)]
      refine ⟨?_, htab⟩
      show (c.data.methods.modify _ _).lists = []
      rw [MethodLists.modify_lists, hlists, List.modify_nil]

theorem inv_setImplementation (h : Inv arch rt) (m : Method N) (imp : I) :
    Inv arch (setImplementation rt m imp) :=
  inv_flush_all (nodup_update (changes_setImp m.1 m.2 imp) h.nodup)
    (sane_update (changes_setImp m.1 m.2 imp) h.sane)

theorem inv_exchangeImplementations (h : Inv arch rt) (m1 m2 : Method N) :
    Inv arch (exchangeImplementations rt m1 m2) := by
  unfold exchangeImplementations
  split
  · rename_i i1 i2 _ _
    have hfirst : Changes rt m1.1 _ := changes_setImp m1.1 m1.2 i2
    have hn := nodup_update hfirst h.nodup
    have hs := sane_update hfirst h.sane
    exact inv_flush_all (nodup_update (changes_setImp m2.1 m2.2 i1) hn)
      (sane_update (changes_setImp m2.1 m2.2 i1) hs)
  · exact h

theorem inv_setInitialized (h : Inv arch rt) (n : N) : Inv arch (setInitialized rt n) :=
  inv_update_view (f := fun c => { c with initialized := true })
    ⟨fun _ => rfl, fun _ => rfl, fun _ => rfl, fun _ => rfl, fun _ _ _ hr => hr⟩ h fun _ _ _ => rfl

theorem inv_register (h : Inv arch rt) (name : N) (superclass : Option N) (isa : N)
    (baseMethods : Option (MethodList I)) (bonus : Option (SEL × I)) :
    Inv arch (register rt name superclass isa baseMethods bonus) := by
  unfold register
  cases hget : getClass rt name with
  | some cls => exact h
  | none =>
    have hempty : ∀ sel imp, ¬ Has (Cache.empty : Cache (Imp I)) sel imp :=
      MethodCache.not_has_of_occupied (MethodCache.wf_empty arch) rfl
    refine ⟨?_, ⟨⟨MethodCache.wf_empty arch, ⟨_, MethodLists.represents_newClass baseMethods bonus⟩,
      fun _ => hempty, nofun⟩, h.sane⟩, ⟨fun sel imp hhas => absurd hhas (hempty sel imp), h.coherent⟩⟩
    rw [List.map_cons, List.nodup_cons]
    refine ⟨fun hmem => ?_, h.nodup⟩
    obtain ⟨c, hc, e⟩ := List.mem_map.mp hmem
    have := List.find?_eq_none.mp hget c hc
    simp [e] at this

theorem inv_flush (h : Inv arch rt) (cls : Option N) : Inv arch (flushCaches rt cls) :=
  inv_flushCaches h.nodup h.sane (h.coherent.imp fun _ _ _ _ hP _ => hP)

/-! ### Realized classes stay realized -/

def RealizedAt (rt : Runtime N I) (n : N) : Prop :=
  ∃ c ∈ rt, c.name = n ∧ c.data.realized = true

omit [DecidableEq N] in
theorem RealizedAt.map {g : ClassRec N I → ClassRec N I} (hname : ∀ c, (g c).name = c.name)
    (hreal : ∀ c ∈ rt, c.data.realized = true → (g c).data.realized = true) {n : N}
    (h : RealizedAt rt n) : RealizedAt (rt.map g) n := by
  obtain ⟨c, hc, e, hr⟩ := h
  exact ⟨g c, List.mem_map_of_mem hc, (hname c).trans e, hreal c hc hr⟩

theorem realizedAt_flushCaches (cls : Option N) {n : N} (h : RealizedAt rt n) :
    RealizedAt (flushCaches rt cls) n :=
  h.map (keeps_eraseCache cls).name fun c _ hr => by rw [eraseCache_data]; exact hr

theorem realizedAt_update {m : N} {f : ClassRec N I → ClassRec N I} (hf : Changes rt m f) {n : N}
    (h : RealizedAt rt n) : RealizedAt (update rt m f) n :=
  h.map hf.keeps.name fun c _ hr => (hf.realized_onClass c).trans hr

theorem realizedAt_realizeClass (hi : Inv arch rt) {n : N} (hn : n ∈ rt.map (·.name)) :
    RealizedAt (realizeClass rt n) n := by
  have hchain : ∃ c ∈ chain rt n, c.name = n := by
    clear hi
    induction rt with
    | nil => exact absurd hn List.not_mem_nil
    | cons c rt ih =>
      rw [chain_cons]
      split
      · rename_i e
        exact ⟨c, List.mem_cons_self, e⟩
      · rename_i e
        exact ih ((List.mem_cons.mp hn).resolve_left (Ne.symm e))
  obtain ⟨c, hc, e⟩ := hchain
  have hmem := mem_of_mem_chain hc
  refine ⟨realizeOne (toRealize rt n) c, List.mem_map_of_mem hmem,
    ((keeps_realizeOne _).name c).trans e, ?_⟩
  exact (realizeOne_realized (hi.ready hmem)).mpr (Or.inr (mem_toRealize.mpr ⟨c, hc, Or.inl rfl⟩))

theorem realizedAt_realizeClass_of (hi : Inv arch rt) (m : N) {n : N} (h : RealizedAt rt n) :
    RealizedAt (realizeClass rt m) n :=
  h.map (keeps_realizeOne _).name fun _ hc hr =>
    (realizeOne_realized (hi.ready hc)).mpr (Or.inl hr)

end Steps

/-! ## How full the caches are -/

/-- No cache holds more than `k` entries. -/
def AtMost (k : Nat) (rt : Runtime N I) : Prop := ∀ c ∈ rt, c.cache.occupied ≤ k

section AtMost

variable {k : Nat} {rt : Runtime N I}

omit [DecidableEq N] in
theorem AtMost.map {g : ClassRec N I → ClassRec N I} (h : AtMost k rt)
    (hg : ∀ c, (g c).cache.occupied ≤ c.cache.occupied) : AtMost k (rt.map g) := by
  intro c hc
  obtain ⟨d, hd, rfl⟩ := List.mem_map.mp hc
  exact Nat.le_trans (hg d) (h d hd)

omit [DecidableEq N] in
theorem AtMost.mono {l : Nat} (h : AtMost k rt) (hkl : k ≤ l) : AtMost l rt :=
  fun c hc => Nat.le_trans (h c hc) hkl

theorem atMost_update (h : AtMost k rt) (n : N) {f : ClassRec N I → ClassRec N I}
    (hf : ∀ c, (f c).cache = c.cache) : AtMost k (update rt n f) := by
  refine h.map fun c => ?_
  unfold onClass
  split
  · exact Nat.le_of_eq (by rw [hf])
  · exact Nat.le_refl _

theorem atMost_setImp (h : AtMost k rt) (m : Method N) (imp : I) : AtMost k (setImp rt m imp) :=
  atMost_update h m.1 fun _ => rfl

theorem atMost_flushCaches (h : AtMost k rt) (cls : Option N) : AtMost k (flushCaches rt cls) := by
  refine h.map fun c => ?_
  unfold eraseCache
  split
  · exact MethodCache.cacheErase_occupied_le c.cache
  · exact Nat.le_refl _

theorem atMost_realizeClass (h : AtMost k rt) (n : N) : AtMost k (realizeClass rt n) := by
  refine h.map fun c => ?_
  unfold realizeOne
  split <;> exact Nat.le_refl _

theorem atMost_discoverCategory (h : AtMost k rt) (n : N) (cat : Option (MethodList I)) :
    AtMost k (discoverCategory rt n cat) := by
  have hup : AtMost k (update rt n fun c =>
      { c with data := MethodLists.discoverCategory c.data cat }) := atMost_update h n fun _ => rfl
  unfold discoverCategory
  split
  · exact h
  · dsimp only
    split
    · exact atMost_flushCaches hup (some n)
    · exact hup

theorem atMost_addMethod {rt' : Runtime N I} (h : AtMost k rt) {n : N} {name : SEL} {imp : I}
    {replace : Bool} (hadd : addMethod rt n name imp replace = .ok rt') : AtMost k rt' := by
  have hup : AtMost k (update rt n fun c =>
      { c with data := (MethodLists.addMethod c.data name imp replace).1 }) :=
    atMost_update h n fun _ => rfl
  unfold addMethod at hadd
  split at hadd
  · cases hadd
    exact h
  · split at hadd
    · cases hadd
      split
      · exact hup
      · exact atMost_flushCaches hup (some n)
    · cases hadd

theorem atMost_exchangeImplementations (h : AtMost k rt) (m1 m2 : Method N) :
    AtMost k (exchangeImplementations rt m1 m2) := by
  unfold exchangeImplementations
  split
  · exact atMost_flushCaches (atMost_setImp (atMost_setImp h _ _) _ _) none
  · exact h

theorem atMost_register (h : AtMost k rt) (name : N) (superclass : Option N) (isa : N)
    (base : Option (MethodList I)) (bonus : Option (SEL × I)) :
    AtMost k (register rt name superclass isa base bonus) := by
  unfold register
  split
  · exact h
  · intro c hc
    rcases List.mem_cons.mp hc with rfl | hc
    · exact Nat.zero_le k
    · exact h c hc

end AtMost

end BottomResearch.Coherence
