import BottomResearch.LoadOrder

/-!
# Every `+load` once, superclasses first

For every run, whatever the `+load` methods map and unmap while they run: the calls
end with empty queues; no class was called twice for one mapping, and every class that
was scheduled was called for it or unmapped; a class was called after its superclasses,
a category after its class; and with a bound on the images the calls return.
-/

namespace BottomResearch.LoadMethods

variable {C K I : Type} [DecidableEq C] [DecidableEq K] {P : Program C K I}
variable {onLoad : OnLoad C K I} {ds : List (Loadable C I)} {ks : List (Loadable K I)}
variable {s s' : State C K I}

/-! ## One method -/

/-- What a re-entrant call does. -/
def Reentrant (callLoadMethods : State C K I → Option (State C K I)) : Prop :=
  ∀ s, s.loading = true → callLoadMethods s = some s

theorem reentrant_callLoadMethods (P : Program C K I) (onLoad : OnLoad C K I) (n : Nat) :
    Reentrant (callLoadMethods P onLoad n) := by
  intro s hs
  cases n with
  | zero => exact if_pos hs
  | succ n => exact if_pos hs

/-! ## Progress -/

def mapCount : List (Event C K I) → Nat
  | [] => 0
  | .mapped _ :: history => mapCount history + 1
  | _ :: history => mapCount history

omit [DecidableEq C] [DecidableEq K] in
theorem mapCount_scheduled {newer history : List (Event C K I)}
    (h : ∀ event ∈ newer, ∃ d, event = .scheduled d) :
    mapCount (newer ++ history) = mapCount history := by
  induction newer with
  | nil => rfl
  | cons event newer ih =>
    obtain ⟨d, rfl⟩ := h event List.mem_cons_self
    exact ih fun e he => h e (List.mem_cons_of_mem _ he)

/-- No `+load` method maps an image once `B` were mapped. -/
def Bounded (onLoad : OnLoad C K I) (B : Nat) : Prop :=
  ∀ history event, B ≤ mapCount history → ∀ image, Action.map image ∉ onLoad history event

/-- Without an image that is mapped nothing is added to the queues. -/
structure Grew (s s' : State C K I) : Prop where
  le : mapCount s.history ≤ mapCount s'.history
  classes : mapCount s'.history = mapCount s.history → s.loadableClasses = [] →
    s'.loadableClasses = []
  categories : mapCount s'.history = mapCount s.history → s.loadableCategories = [] →
    s'.loadableCategories = []

omit [DecidableEq C] [DecidableEq K] in
theorem Grew.refl (s : State C K I) : Grew s s := ⟨Nat.le_refl _, fun _ => id, fun _ => id⟩

omit [DecidableEq C] [DecidableEq K] in
theorem Grew.trans {s s' s'' : State C K I} (h : Grew s s') (h' : Grew s' s'') : Grew s s'' := by
  have hle := h.le
  have hle' := h'.le
  refine ⟨Nat.le_trans hle hle', fun e hs => ?_, fun e hs => ?_⟩
  · exact h'.classes (by omega) (h.classes (by omega) hs)
  · exact h'.categories (by omega) (h.categories (by omega) hs)

omit [DecidableEq C] in
theorem removeAll_nil (as : List K) : removeAll as ([] : List (Loadable K I)) = [] := by
  induction as with
  | nil => rfl
  | cons a as ih => exact ih

/-- Unmapping an image adds nothing to the queues. -/
theorem unloadImage_nil (image : Image C K) (s : State C K I) :
    (s.loadableClasses = [] → (unloadImage image s).loadableClasses = []) ∧
      (s.loadableCategories = [] → (unloadImage image s).loadableCategories = []) := by
  rw [unloadImage_eq]
  exact ⟨fun hs => (congrArg _ hs).trans (removeAll_nil _),
    fun hs => (congrArg _ hs).trans (removeAll_nil _)⟩

section Calls

variable {call : State C K I → Option (State C K I)}

omit [DecidableEq K] in
theorem prepareLoadMethods_nothing {image : Image C K} (h : hasLoadMethods image = false)
    (s : State C K I) : prepareLoadMethods P image s = s := by
  simp only [hasLoadMethods, Bool.or_eq_false_iff, Bool.not_eq_false', List.isEmpty_iff] at h
  simp [prepareLoadMethods, h.1, h.2]

/-- While `+load` methods are called, actions only change the queues. -/
theorem perform_loading (hcall : Reentrant call) (h : Inv P ds ks s) (hs : s.loading = true)
    (a : Action C K) : ∃ s', perform P call s a = some s' ∧ Inv P ds ks s' ∧
      s'.loading = true ∧ s.history <:+ s'.history ∧ Grew s s' ∧
        ((∀ image, a ≠ .map image) → mapCount s'.history = mapCount s.history) := by
  cases a with
  | map image =>
    obtain ⟨hi, hl, newer, hhist, hnewer⟩ := inv_map h image
    have hl' : (act P s (.map image)).loading = true := hl.trans hs
    have hcount : mapCount (act P s (.map image)).history = mapCount s.history + 1 := by
      rw [hhist, mapCount, mapCount_scheduled hnewer]
    have hsuf : s.history <:+ (act P s (.map image)).history :=
      hhist ▸ (List.suffix_append newer s.history).trans (List.suffix_cons _ _)
    refine ⟨_, ?_, hi, hl', hsuf,
      ⟨by omega, fun e => by omega, fun e => by omega⟩, fun hno => absurd rfl (hno image)⟩
    simp only [perform, loadImages]
    split
    · exact hcall _ hl'
    · rename_i hno
      rw [act, prepareLoadMethods_nothing (by simpa using hno)]
  | unmap image =>
    obtain ⟨hc, hk⟩ := unloadImage_nil image s
    have hhist : (unloadImage image s).history = .unmapped image :: s.history := by
      rw [unloadImage_eq]
    have hl : (unloadImage image s).loading = s.loading := by
      rw [unloadImage_eq]
    have hcount : mapCount (unloadImage image s).history = mapCount s.history := by
      rw [hhist]
      rfl
    exact ⟨_, rfl, inv_unmap h image, hl.trans hs, hhist ▸ List.suffix_cons _ _,
      ⟨Nat.le_of_eq hcount.symm, fun _ => hc, fun _ => hk⟩, fun _ => hcount⟩

/-- What a `+load` method does to the queues. -/
theorem callMethod_inv (hcall : Reentrant call) {event : Event C K I}
    (h : Inv P ds ks (s.record event)) (hs : s.loading = true)
    (hevent : mapCount (event :: s.history) = mapCount s.history) :
    ∃ s', callMethod P onLoad call event s = some s' ∧ Inv P ds ks s' ∧ s'.loading = true ∧
      s.history <:+ s'.history ∧ Grew s s' ∧
        ∀ B, Bounded onLoad B → B ≤ mapCount s.history →
          mapCount s'.history = mapCount s.history := by
  have hperforms : ∀ (l : List (Action C K)) (s1 : State C K I), Inv P ds ks s1 →
      s1.loading = true → ∃ s', l.foldlM (perform P call) s1 = some s' ∧ Inv P ds ks s' ∧
        s'.loading = true ∧ s1.history <:+ s'.history ∧ Grew s1 s' ∧
          ((∀ image, Action.map image ∉ l) → mapCount s'.history = mapCount s1.history) := by
    intro l
    induction l with
    | nil => exact fun s1 h1 hs1 => ⟨s1, rfl, h1, hs1, List.suffix_refl _, Grew.refl s1, fun _ => rfl⟩
    | cons a l ih =>
      intro s1 h1 hs1
      obtain ⟨s2, e, hi, hl, hsuf, hgrew, hno⟩ := perform_loading hcall h1 hs1 a
      obtain ⟨s', e', hi', hl', hsuf', hgrew', hno'⟩ := ih s2 hi hl
      refine ⟨s', ?_, hi', hl', hsuf.trans hsuf', hgrew.trans hgrew', fun hnot => ?_⟩
      · rw [List.foldlM_cons, e]
        exact e'
      · rw [hno' fun image hm => hnot image (List.mem_cons_of_mem _ hm),
          hno fun image ha => hnot image (ha ▸ List.mem_cons_self)]
  obtain ⟨s', e, hi, hl, hsuf, hgrew, hno⟩ := hperforms (onLoad s.history event) _ h hs
  have hrecord : Grew s (s.record event) :=
    ⟨Nat.le_of_eq hevent.symm, fun _ => id, fun _ => id⟩
  exact ⟨s', e, hi, hl, (List.suffix_cons event _).trans hsuf, hrecord.trans hgrew,
    fun B hB hle => (hno (hB _ event hle)).trans hevent⟩

/-! ## The detached lists -/

/-- Calls that do not map once `B` images are mapped. -/
structure Progress (onLoad : OnLoad C K I) (s s' : State C K I) : Prop where
  grew : Grew s s'
  bound : ∀ B, Bounded onLoad B → B ≤ mapCount s.history →
    mapCount s'.history = mapCount s.history

omit [DecidableEq C] [DecidableEq K] in
theorem Progress.trans {s s' s'' : State C K I} (h : Progress onLoad s s')
    (h' : Progress onLoad s' s'') : Progress onLoad s s'' :=
  ⟨h.grew.trans h'.grew, fun B hB hle => by
    have e := h.bound B hB hle
    exact (h'.bound B hB (by omega)).trans e⟩

/-- **The detached classes** are called in turn. -/
theorem callClasses_inv (hcall : Reentrant call) (h : Inv P ds ks s) (hs : s.loading = true) :
    ∃ s', callClasses P onLoad call ds s = some s' ∧ Inv P [] ks s' ∧ s'.loading = true ∧
      Progress onLoad s s' := by
  induction ds generalizing s with
  | nil => exact ⟨s, rfl, h, hs, Grew.refl s, fun _ _ _ => rfl⟩
  | cons e ds ih =>
    obtain ⟨o, m, n⟩ := e
    cases o with
    | none => exact ih ⟨h.classes.skip, h.categories⟩ hs
    | some c =>
      have hrecord : Inv P ds ks (s.record (.classLoad c n m)) :=
        ⟨h.classes.call, h.categories.record rfl rfl (fun _ e => by cases e) id id⟩
      obtain ⟨s1, e1, h1, hl1, _, hgrew, hbound⟩ := callMethod_inv hcall hrecord hs rfl
      obtain ⟨s', e', h', hl', hp'⟩ := ih h1 hl1
      refine ⟨s', ?_, h', hl', Progress.trans ⟨hgrew, hbound⟩ hp'⟩
      rw [callClasses, e1]
      exact e'

theorem callClassLoads_inv (onLoad : OnLoad C K I) (hcall : Reentrant call) (h : Inv P [] ks s)
    (hs : s.loading = true) :
    ∃ s', callClassLoads P onLoad call s = some s' ∧ Inv P [] ks s' ∧ s'.loading = true ∧
      Progress onLoad { s with loadableClasses := [] } s' := by
  have hdetached : Inv P s.loadableClasses ks { s with loadableClasses := [] } := by
    refine ⟨?_, h.categories⟩
    show ClassInv P (s.loadableClasses ++ []) s.loaded s.history
    rw [List.append_nil]
    exact h.classes
  exact callClasses_inv hcall hdetached hs

/-- **The detached categories** are called in turn, when their classes are ready. -/
theorem callCategories_inv (hcall : Reentrant call) (h : Inv P [] ks s) (hs : s.loading = true)
    (hready : OrderedMaps P s.history → ∀ e ∈ waiting ks, ∀ cls, P.remapClass e.1 = some cls →
      P.getLoadMethod cls ≠ none → Ready s.history cls e.1 e.2) :
    ∃ s', callCategories P onLoad call ks s = some ([], s') ∧ Inv P [] [] s' ∧
      s'.loading = true ∧ Progress onLoad s s' := by
  induction ks generalizing s with
  | nil => exact ⟨s, rfl, h, hs, Grew.refl s, fun _ _ _ => rfl⟩
  | cons e ks ih =>
    obtain ⟨o, m, n⟩ := e
    cases o with
    | none => exact ih ⟨h.classes, h.categories.skip⟩ hs hready
    | some cat =>
      obtain ⟨hm, hr⟩ := h.categories.method _ List.mem_cons_self cat rfl
      obtain ⟨cls, hcls⟩ := Option.ne_none_iff_exists'.mp hr
      have hready' : OrderedMaps P s.history → P.getLoadMethod cls ≠ none →
          Ready s.history cls cat n := fun ho => hready ho (cat, n) List.mem_cons_self cls hcls
      have hmapped := h.categories.mapped (cat, n) List.mem_cons_self
      have hrecord : Inv P [] ks (s.record (.categoryLoad cls cat n m)) :=
        ⟨h.classes.record rfl (fun _ => rfl) ⟨⟨hcls, hm, hmapped⟩, h.classes.ordered⟩,
          h.categories.call hready'⟩
      obtain ⟨s1, e1, h1, hl1, hsuf, hgrew, hbound⟩ := callMethod_inv hcall hrecord hs rfl
      obtain ⟨s', e', h', hl', hp'⟩ := ih h1 hl1 fun ho e he cls' hr' hload =>
        (hready (ho.suffix hsuf) e (List.mem_cons_of_mem _ he) cls' hr' hload).suffix hsuf
      refine ⟨s', ?_, h', hl', Progress.trans ⟨hgrew, hbound⟩ hp'⟩
      rw [callCategories, hcls]
      show (callMethod P onLoad call _ s >>= callCategories P onLoad call ks) = _
      rw [e1]
      exact e'

/-- When no class waits, the class of a category that was mapped in order is ready. -/
theorem ready_of_orderedMaps (h : Inv P [] ks s) (hempty : s.loadableClasses = [])
    (ho : OrderedMaps P s.history) {e : K × Nat} (he : e ∈ waiting (ks ++ s.loadableCategories))
    {cls : C} (hr : P.remapClass e.1 = some cls) (hload : P.getLoadMethod cls ≠ none) :
    Ready s.history cls e.1 e.2 := by
  obtain ⟨image, older, hs, hl, hm⟩ := h.categories.mapped e he
  have hne := loadedSince_of_orderedMaps (h.classes.ordered.suffix hs) (ho.suffix hs) hm hr hload
  obtain ⟨n, hn⟩ := Option.ne_none_iff_exists'.mp hne
  have hsuf : older <:+ s.history := (List.suffix_cons _ older).trans hs
  refine ⟨image, older, n, hs, hl, hm, hn, ?_⟩
  rcases h.classes.settled hsuf hn hload with hset | hq
  · exact hset
  · rw [hempty] at hq
    cases hq

theorem callCategoryLoads_inv (onLoad : OnLoad C K I) (hcall : Reentrant call)
    (h : Inv P [] [] s) (hs : s.loading = true) (hempty : s.loadableClasses = []) :
    ∃ s' more, callCategoryLoads P onLoad call s = some (more, s') ∧ Inv P [] [] s' ∧
      s'.loading = true ∧ (more = false → s'.loadableCategories = []) ∧
        Progress onLoad { s with loadableCategories := [] } s' ∧
          (s'.loadableCategories = [] → more = false) := by
  have hdetached : Inv P [] s.loadableCategories { s with loadableCategories := [] } := by
    refine ⟨h.classes, ?_⟩
    show CategoryInv P (s.loadableCategories ++ []) s.history
    rw [List.append_nil]
    exact h.categories
  obtain ⟨s', e, hi, hl, hp⟩ := callCategories_inv hcall hdetached hs
    fun ho e he cls hr hload => ready_of_orderedMaps h hempty ho he hr hload
  refine ⟨s', !s'.loadableCategories.isEmpty, by rw [callCategoryLoads, e]; rfl, hi, hl, ?_, hp, ?_⟩
  · simp
  · intro hnil
    simp [hnil]

/-! ## The loops -/

theorem whileClasses_inv (hcall : Reentrant call) {n : Nat} (h : Inv P [] ks s)
    (hs : s.loading = true) (e : whileClasses P onLoad call n s = some s') :
    Inv P [] ks s' ∧ s'.loading = true ∧ s'.loadableClasses = [] := by
  induction n generalizing s with
  | zero =>
    rw [whileClasses] at e
    split at e
    · rename_i hnil
      cases e
      exact ⟨h, hs, List.isEmpty_iff.mp hnil⟩
    · cases e
  | succ n ih =>
    rw [whileClasses] at e
    split at e
    · rename_i hnil
      cases e
      exact ⟨h, hs, List.isEmpty_iff.mp hnil⟩
    · obtain ⟨s1, e1, h1, hl1, _⟩ := callClassLoads_inv onLoad hcall h hs
      rw [e1] at e
      exact ih h1 hl1 e

theorem doLoads_inv (hcall : Reentrant call) {n : Nat} (h : Inv P [] [] s)
    (hs : s.loading = true) (e : doLoads P onLoad call n s = some s') :
    Inv P [] [] s' ∧ s'.loadableClasses = [] ∧ s'.loadableCategories = [] := by
  induction n generalizing s with
  | zero => cases e
  | succ n ih =>
    rw [doLoads] at e
    obtain ⟨s1, e1, e⟩ := Option.bind_eq_some_iff.mp e
    obtain ⟨h1, hl1, hnil1⟩ := whileClasses_inv hcall h hs e1
    obtain ⟨s2, more, e2, h2, hl2, hmore, _⟩ := callCategoryLoads_inv onLoad hcall h1 hl1 hnil1
    rw [e2] at e
    simp only [Option.bind_eq_bind, Option.bind_some] at e
    split at e
    · exact ih h2 hl2 e
    · rename_i hend
      cases e
      simp only [Bool.or_eq_true, Bool.not_eq_true', not_or, Bool.not_eq_true,
        Bool.not_eq_false] at hend
      exact ⟨h2, List.isEmpty_iff.mp hend.1, hmore hend.2⟩

end Calls

/-- Between the calls. -/
structure Rest (P : Program C K I) (s : State C K I) : Prop where
  inv : Inv P [] [] s
  classes : s.loadableClasses = []
  categories : s.loadableCategories = []
  loading : s.loading = false

theorem callLoadMethods_rest {n : Nat} (h : Inv P [] [] s) (hs : s.loading = false)
    (e : callLoadMethods P onLoad n s = some s') : Rest P s' := by
  cases n with
  | zero => simp [callLoadMethods, hs] at e
  | succ n =>
    simp only [callLoadMethods, hs, Bool.false_eq_true, if_false] at e
    obtain ⟨s1, e1, rfl⟩ := Option.map_eq_some_iff.mp e
    obtain ⟨h1, hclasses, hcategories⟩ :=
      doLoads_inv (s := { s with loading := true }) (reentrant_callLoadMethods P onLoad n)
        ⟨h.classes, h.categories⟩ rfl e1
    exact ⟨⟨h1.classes, h1.categories⟩, hclasses, hcategories, rfl⟩

theorem rest_start (P : Program C K I) : Rest P State.start := by
  refine ⟨⟨⟨?_, ?_, ?_, ?_, List.nodup_nil, trivial, ?_, trivial⟩,
    ⟨?_, ?_, ?_, fun _ => Nat.le_refl _, ?_, ?_, fun _ => trivial⟩⟩, rfl, rfl, rfl⟩
  · exact fun c => ⟨fun h => Bool.noConfusion h, fun h => absurd rfl h⟩
  · exact fun e he => by cases he
  · exact fun e he => by cases he
  · exact fun e he => by cases he
  · exact fun c n h => by cases h
  · exact fun e he => by cases he
  · exact fun e he => by cases he
  · exact fun e he => by cases he
  · exact fun image older cat hs => absurd (List.suffix_nil.mp hs) (List.cons_ne_nil _ _)
  · exact fun newer image older cat e => by simp [State.start] at e

theorem perform_rest {n : Nat} (h : Rest P s) (a : Action C K)
    (e : perform P (callLoadMethods P onLoad n) s a = some s') : Rest P s' := by
  cases a with
  | map image =>
    obtain ⟨hi, hl, _⟩ := inv_map h.inv image
    simp only [perform, loadImages] at e
    split at e
    · exact callLoadMethods_rest hi (hl.trans h.loading) e
    · rename_i hno
      rw [act, prepareLoadMethods_nothing (by simpa using hno)] at hi
      cases e
      exact ⟨hi, h.classes, h.categories, h.loading⟩
  | unmap image =>
    cases e
    obtain ⟨hc, hk⟩ := unloadImage_nil image s
    refine ⟨inv_unmap h.inv image, hc h.classes, hk h.categories, ?_⟩
    rw [unloadImage_eq]
    exact h.loading

/-- **The run lemma.** -/
theorem run_rest {fuel : Nat} {actions : List (Action C K)}
    (h : run P onLoad fuel actions = some s) : Rest P s := by
  have hrun : ∀ (actions : List (Action C K)) (s0 : State C K I), Rest P s0 →
      actions.foldlM (perform P (callLoadMethods P onLoad fuel)) s0 = some s → Rest P s := by
    intro actions
    induction actions with
    | nil =>
      intro s0 h0 e
      cases e
      exact h0
    | cons a actions ih =>
      intro s0 h0 e
      rw [List.foldlM_cons] at e
      obtain ⟨s1, e1, e⟩ := Option.bind_eq_some_iff.mp e
      exact ih s1 (perform_rest h0 a e1) e
  exact hrun actions _ (rest_start P) h

/-! ## A chain of classes -/

/-- Class `n + 1` is a subclass of `n`, category `n` one of class `n`; all have a
`+load`. -/
def linear : Program Nat Nat Nat where
  superclass
    | 0 => none
    | c + 1 => some c
  depth := id
  depth_superclass c d h := by
    cases c with
    | zero => cases h
    | succ c =>
      cases h
      exact Nat.lt_succ_self _
  getLoadMethod := some
  categoryGetLoadMethod := some
  remapClass := some

/-- An image with classes 1 and 0 and category 0. -/
def firstImage : Image Nat Nat := ⟨[some 1, some 0], [0], [1, 0], [0]⟩

def secondImage : Image Nat Nat := ⟨[some 3, some 2], [1], [3, 2], [1]⟩

/-- The first `+load` maps the second image. -/
def mapsMore : OnLoad Nat Nat Nat := fun history _ =>
  if mapCount history = 1 then [.map secondImage] else []

/-- Both images are unmapped, and the first is mapped again. -/
def mapsTwice : List (Action Nat Nat) :=
  [.map firstImage, .unmap secondImage, .unmap firstImage, .map firstImage]

/-! ## Results -/

/-- **Superclasses first, and once for a mapping.**  After every run the queues are empty;
no class was called twice for having been scheduled once, and a class is scheduled again
only once it was unmapped; each call was that of the class's own method, when its
superclasses with a `+load` had been called or unmapped; and after every mapping each
class with a `+load` that the image lists, or that is above such a class where images are
unmapped in order, was called or unmapped. -/
theorem run_classes {fuel : Nat} {actions : List (Action C K)}
    (h : run P onLoad fuel actions = some s) :
    s.loadableClasses = [] ∧ s.loadableCategories = [] ∧ (calledClasses s.history).Nodup ∧
      (∀ newer older c, .scheduled c :: (newer ++ .scheduled c :: older) <:+ s.history →
        Gone newer c) ∧
      Ordered P s.history ∧
        ∀ image older c, .mapped image :: older <:+ s.history → some c ∈ image.nonlazyClasses →
          ∀ d, d = c ∨ OrderedUnmaps P older ∧ Above P d c → P.getLoadMethod d ≠ none →
            ∃ n, loadedSince d older = some n ∧ Settled s.history (d, n) := by
  have hrest := run_rest h
  have hc := hrest.inv.classes
  refine ⟨hrest.classes, hrest.categories, hc.nodup.of_append_right,
    fun newer older c hs => gone_between (hc.ordered.suffix hs), hc.ordered,
    fun image older c hs hl d hd hload => ?_⟩
  have ho : Ordered P (.mapped image :: older) := hc.ordered.suffix hs
  have hne : loadedSince d older ≠ none := by
    rcases hd with rfl | ⟨hu, ha⟩
    · exact ho.1 d hl
    · exact loadedSince_above ho.2 hu ha (ho.1 c hl)
  obtain ⟨n, hn⟩ := Option.ne_none_iff_exists'.mp hne
  refine ⟨n, hn, ?_⟩
  rcases hc.settled ((List.suffix_cons _ older).trans hs) hn hload with hset | hq
  · exact hset
  · rw [hrest.classes] at hq
    cases hq

theorem run_classes_linear : ∃ s, run linear mapsMore 9 mapsTwice = some s ∧
    (calledClasses s.history).map Prod.fst = [1, 0, 3, 2, 1, 0] ∧
      (calledClasses s.history).Nodup ∧ Ordered linear s.history := by
  cases h : run linear mapsMore 9 mapsTwice with
  | none =>
    have hsome : (run linear mapsMore 9 mapsTwice).isSome = true := rfl
    rw [h] at hsome
    cases hsome
  | some s =>
    have hcalled : (run linear mapsMore 9 mapsTwice).map
        (fun s => (calledClasses s.history).map Prod.fst) = some [1, 0, 3, 2, 1, 0] := rfl
    rw [h] at hcalled
    have hrun := run_classes h
    exact ⟨s, rfl, Option.some.inj hcalled, hrun.2.2.1, hrun.2.2.2.2.1⟩

-- An image that is unmapped by a `+load` loses its classes on the attached list, not
-- those that are detached: class 1 is still called.  In the source that call goes to a
-- method in memory that is no longer mapped.
example : (run linear (fun history _ => if mapCount history = 1 ∧ (calledClasses history).isEmpty
      then [.unmap firstImage] else []) 9 [.map firstImage]).map
    (fun s => (calledClasses s.history).map Prod.fst) = some [1, 0] := rfl

/-- **Categories.**  After every run a category was called at most as often as it was
mapped.  For each mapping it was called at most as often as that image lists it, and if
it has a `+load` and its class exists, as often but for what was unmapped since. -/
theorem run_categories {fuel : Nat} {actions : List (Action C K)}
    (h : run P onLoad fuel actions = some s) (cat : K) :
    ((calledCategories s.history).map Prod.fst).count cat ≤
      (mappedCategories s.history).count cat ∧
      ∀ newer image older, s.history = newer ++ .mapped image :: older →
        (calledCategories s.history).count (cat, older.length) ≤
          image.nonlazyCategories.count cat ∧
        (P.remapClass cat ≠ none → P.categoryGetLoadMethod cat ≠ none →
          image.nonlazyCategories.count cat ≤
            (calledCategories s.history).count (cat, older.length) +
              (unmappedCategories newer).count cat) := by
  have hrest := run_rest h
  have hk := hrest.inv.categories
  rw [hrest.categories] at hk
  refine ⟨Nat.le_trans (Nat.le_add_right _ _) (hk.total cat), fun newer image older e =>
    ⟨Nat.le_trans (Nat.le_add_right _ _) (hk.count image older cat ⟨newer, e.symm⟩),
      fun hr hload => ?_⟩⟩
  exact hk.done newer image older cat e hr hload

theorem run_categories_linear : ∃ s, run linear mapsMore 9 mapsTwice = some s ∧
    (calledCategories s.history).map Prod.fst = [0, 1, 0] ∧
      ((calledCategories s.history).map Prod.fst).count 0 ≤
        (mappedCategories s.history).count 0 := by
  cases h : run linear mapsMore 9 mapsTwice with
  | none =>
    have hsome : (run linear mapsMore 9 mapsTwice).isSome = true := rfl
    rw [h] at hsome
    cases hsome
  | some s =>
    have hcalled : (run linear mapsMore 9 mapsTwice).map
        (fun s => (calledCategories s.history).map Prod.fst) = some [0, 1, 0] := rfl
    rw [h] at hcalled
    exact ⟨s, rfl, Option.some.inj hcalled, (run_categories h 0).1⟩

/-- **A category after its class**, when images are mapped in the order of what they
depend on. -/
theorem run_categoriesOrdered {fuel : Nat} {actions : List (Action C K)}
    (h : run P onLoad fuel actions = some s) (ho : OrderedMaps P s.history) :
    CategoriesOrdered P s.history :=
  (run_rest h).inv.categories.ordered ho

theorem run_categoriesOrdered_linear : ∃ s, run linear mapsMore 9 mapsTwice = some s ∧
    CategoriesOrdered linear s.history := by
  cases h : run linear mapsMore 9 mapsTwice with
  | none =>
    have hsome : (run linear mapsMore 9 mapsTwice).isSome = true := rfl
    rw [h] at hsome
    cases hsome
  | some s =>
    have hhist : (run linear mapsMore 9 mapsTwice).map (fun s => s.history) = some
        [.categoryLoad 0 0 16 0, .classLoad 1 15 1, .classLoad 0 14 0, .mapped firstImage,
          .scheduled 1, .scheduled 0, .unmapped firstImage, .unmapped secondImage,
          .categoryLoad 1 1 6 1, .categoryLoad 0 0 2 0, .classLoad 3 5 3, .classLoad 2 4 2,
          .classLoad 1 1 1, .mapped secondImage, .scheduled 3, .scheduled 2, .classLoad 0 0 0,
          .mapped firstImage, .scheduled 1, .scheduled 0] := rfl
    rw [h] at hhist
    refine ⟨s, rfl, run_categoriesOrdered h ?_⟩
    have e : s.history = _ := Option.some.inj hhist
    have hfirst (cat cls : Nat) (hc : cat ∈ firstImage.nonlazyCategories)
        (hr : linear.remapClass cat = some cls) : some cls ∈ firstImage.nonlazyClasses := by
      cases List.mem_singleton.mp hc
      cases hr
      decide
    rw [e]
    refine ⟨fun cat hc cls hr _ => Or.inl (hfirst cat cls hc hr), fun cat hc cls hr _ => ?_,
      fun cat hc cls hr _ => Or.inl (hfirst cat cls hc hr), trivial⟩
    cases List.mem_singleton.mp hc
    cases hr
    refine Or.inr ⟨[.scheduled 3, .scheduled 2, .classLoad 0 0 0], firstImage, _, rfl,
      by decide, ?_⟩
    rintro ⟨image, hm, _⟩
    simp at hm

/-! ## Termination -/

section Termination

variable {B : Nat} {call : State C K I → Option (State C K I)}

/-- Every turn of the loop but the last maps an image. -/
theorem whileClasses_returns (hcall : Reentrant call) (hB : Bounded onLoad B) {n : Nat}
    (h : Inv P [] ks s) (hs : s.loading = true)
    (hn : s.loadableClasses = [] ∨ B - mapCount s.history < n) :
    ∃ s', whileClasses P onLoad call n s = some s' ∧
      mapCount s.history ≤ mapCount s'.history := by
  induction n generalizing s with
  | zero =>
    rcases hn with hnil | hlt
    · exact ⟨s, by simp [whileClasses, hnil], Nat.le_refl _⟩
    · exact absurd hlt (Nat.not_lt_zero _)
  | succ n ih =>
    rw [whileClasses]
    split
    · exact ⟨s, rfl, Nat.le_refl _⟩
    · rename_i hne
      obtain ⟨s1, e1, h1, hl1, hgrew, hbound⟩ := callClassLoads_inv onLoad hcall h hs
      have hle : mapCount s.history ≤ mapCount s1.history := hgrew.le
      have hn1 : s1.loadableClasses = [] ∨ B - mapCount s1.history < n := by
        rcases hn with hnil | hlt
        · exact absurd (List.isEmpty_iff.mpr hnil) hne
        · by_cases e : mapCount s1.history = mapCount s.history
          · exact Or.inl (hgrew.classes e rfl)
          · have hnot : ¬ B ≤ mapCount s.history := fun hB' => e (hbound B hB hB')
            exact Or.inr (by omega)
      obtain ⟨s', e', hle'⟩ := ih h1 hl1 hn1
      exact ⟨s', by rw [e1]; exact e', Nat.le_trans hle hle'⟩

theorem doLoads_returns (hcall : Reentrant call) (hB : Bounded onLoad B) {n : Nat}
    (h : Inv P [] [] s) (hs : s.loading = true) (hn : B - mapCount s.history + 1 < n) :
    ∃ s', doLoads P onLoad call n s = some s' := by
  induction n generalizing s with
  | zero => exact absurd hn (Nat.not_lt_zero _)
  | succ n ih =>
    obtain ⟨s1, e1, hle1⟩ := whileClasses_returns hcall hB h hs (Or.inr (by omega : _ < n))
    obtain ⟨h1, hl1, hnil1⟩ := whileClasses_inv hcall h hs e1
    obtain ⟨s2, more, e2, h2, hl2, _, ⟨hgrew, hbound⟩, hmore⟩ :=
      callCategoryLoads_inv onLoad hcall h1 hl1 hnil1
    have hle2 : mapCount s1.history ≤ mapCount s2.history := hgrew.le
    rw [doLoads, e1]
    simp only [Option.bind_eq_bind, Option.bind_some, e2]
    split
    · rename_i hagain
      refine ih h2 hl2 ?_
      by_cases e : mapCount s2.history = mapCount s1.history
      · -- Nothing was mapped, so nothing was added.
        have hc : s2.loadableClasses = [] := hgrew.classes e hnil1
        have hk : more = false := hmore (hgrew.categories e rfl)
        simp [hc, hk] at hagain
      · have hnot : ¬ B ≤ mapCount s1.history := fun hB' => e (hbound B hB hB')
        omega
    · exact ⟨s2, rfl⟩

/-- **The calls return** when the `+load` methods map a bounded number of images. -/
theorem run_returns (hB : Bounded onLoad B) (actions : List (Action C K)) :
    ∃ s, run P onLoad (B + 3) actions = some s := by
  have hcall : ∀ s : State C K I, Inv P [] [] s → s.loading = false →
      ∃ s', callLoadMethods P onLoad (B + 3) s = some s' := by
    intro s h hs
    obtain ⟨s', e⟩ := doLoads_returns (reentrant_callLoadMethods P onLoad (B + 2)) hB
      (n := B + 2) (s := { s with loading := true }) ⟨h.classes, h.categories⟩ rfl (by
        show B - mapCount s.history + 1 < B + 2
        omega)
    refine ⟨{ s' with loading := false }, ?_⟩
    rw [show B + 3 = B + 2 + 1 from rfl, callLoadMethods, if_neg (by simp [hs]), e]
    rfl
  have hrun : ∀ (actions : List (Action C K)) (s0 : State C K I), Rest P s0 →
      ∃ s, actions.foldlM (perform P (callLoadMethods P onLoad (B + 3))) s0 = some s := by
    intro actions
    induction actions with
    | nil => exact fun s0 _ => ⟨s0, rfl⟩
    | cons a actions ih =>
      intro s0 h0
      obtain ⟨s1, e1⟩ : ∃ s1, perform P (callLoadMethods P onLoad (B + 3)) s0 a = some s1 := by
        cases a with
        | map image =>
          obtain ⟨hi, hl, _⟩ := inv_map h0.inv image
          simp only [perform, loadImages]
          split
          · exact hcall _ hi (hl.trans h0.loading)
          · exact ⟨_, rfl⟩
        | unmap image => exact ⟨_, rfl⟩
      obtain ⟨s, e⟩ := ih s1 (perform_rest h0 a e1)
      exact ⟨s, by rw [List.foldlM_cons, e1]; exact e⟩
  exact hrun actions _ (rest_start P)

theorem run_returns_linear : ∃ s, run linear mapsMore 5 mapsTwice = some s := by
  refine run_returns (B := 2) (fun history event hle image hm => ?_) mapsTwice
  rw [mapsMore, if_neg (by omega)] at hm
  cases hm

end Termination

end BottomResearch.LoadMethods
