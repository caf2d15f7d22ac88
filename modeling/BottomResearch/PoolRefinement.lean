import BottomResearch.PoolPages

/-!
# Pages refine the stack

On every run the pages of a thread do what the stack of pools does: the same
objects are released in the same order, and what is left is the same stack.  No
page is corrupt or full, no pool is invalid, and no page is deleted with objects
on it.  Outside page-per-pool debugging the search for a slot to release may look
at one parent only.
-/

namespace BottomResearch.AutoreleasePool

open PoolStack (Code Event OnRelease Pools drain Kept)
open Runs (Follows)

variable {Object : Type} {cfg : Config} {c c' : Chain Object} {t : Thread Object}
variable {z : Page Object} {ps : List (Page Object)}

/-! ## The search for a slot -/

/-- The search ends at the hottest page that is not empty. -/
def Finds (cfg : Config) (seek : Chain Object → Except Fault (Chain Object)) : Prop :=
  ∀ c : Chain Object, c.Shape cfg → ∀ es page ps, c.line = es ++ page :: ps →
    (∀ e ∈ es, e = []) → page ≠ [] → seek c = .ok ⟨ps, page, es.reverse ++ c.children⟩

theorem whileEmpty_eq {es : List (Page Object)} {page : Page Object} (hes : ∀ e ∈ es, e = [])
    (hpage : page ≠ []) {hot : Page Object} {parents children : List (Page Object)}
    (h : hot :: parents = es ++ page :: ps) :
    whileEmpty children hot parents = .ok ⟨ps, page, es.reverse ++ children⟩ := by
  have hfalse : page.isEmpty = false := by simpa using hpage
  induction es generalizing hot parents children with
  | nil =>
    injection h with hhot hparents
    subst hhot hparents
    cases parents with
    | nil => simp [whileEmpty, hfalse]
    | cons parent parents => simp [whileEmpty, hfalse]
  | cons e es ih =>
    injection h with hhot hparents
    have he : hot = [] := hhot.trans (hes e List.mem_cons_self)
    cases parents with
    | nil => simp at hparents
    | cons parent parents =>
      have hrest : whileEmpty (hot :: children) parent parents = _ :=
        ih (fun e' he' => hes e' (List.mem_cons_of_mem _ he')) hparents
      rw [he] at hrest
      simp [whileEmpty, he, hrest, hes e List.mem_cons_self]

theorem finds_seekWhile : Finds cfg (seekWhile : Chain Object → _) := by
  intro c _ es page ps h hes hpage
  exact whileEmpty_eq hes hpage h

/-- Where every parent is full, only the hot page may be empty. -/
theorem finds_seekIf (hd : cfg.debugPoolAllocation = false) :
    Finds cfg (seekIf : Chain Object → _) := by
  intro c hc es page ps h hes hpage
  obtain ⟨parents, hot, children⟩ := c
  have hfalse : page.isEmpty = false := by simpa using hpage
  cases es with
  | nil =>
    injection h with hhot hparents
    simp only at hhot hparents
    subst hhot hparents
    simp [seekIf, hfalse]
  | cons e es =>
    injection h with hhot hparents
    simp only at hhot hparents
    have he : hot = [] := hhot.trans (hes e List.mem_cons_self)
    cases es with
    | nil =>
      subst hparents
      simp [seekIf, he, hes e List.mem_cons_self]
    | cons e' es =>
      -- The parent would be empty.
      have hfull := hc.full hd e' (by simp [hparents])
      have hnil : e' = [] := hes e' (by simp)
      have := cfg.two_le
      simp [hnil] at hfull
      omega

/-! ## Deleting pages -/

theorem kill_ok {pages : List (Page Object)} (h : ∀ page ∈ pages, page = []) :
    kill pages = .ok () := by
  have hall : pages.all List.isEmpty = true := by simpa using h
  simp [kill, hall]

/-- What `pop` leaves of the pages around the slot. -/
theorem deleteEmpty_spec {cs : List (Page Object)} (h : Chain.Shape cfg ⟨ps, z, cs⟩) :
    ∃ tls, deleteEmpty cfg ⟨ps, z, cs⟩ = .ok tls ∧ tls.Shape cfg ∧
      tls.contents = z ++ ps.flatten ∧
        ((∃ cs', tls = .pages ⟨ps, z, cs'⟩ ∧
            (cfg.debugMissingPools = true → ¬ (z = [] ∧ ps = []))) ∨
          (tls = .empty ∧ z = [] ∧ ps = [] ∧
            (cfg.debugPoolAllocation = true ∨ cfg.debugMissingPools = true)) ∨
          ∃ page ps', tls = .pages ⟨ps', page, []⟩ ∧ z = [] ∧ ps = page :: ps' ∧
            cfg.debugPoolAllocation = true) := by
  have hkill : z = [] → kill (z :: cs) = .ok () := by
    intro hz
    apply kill_ok
    simpa [hz] using h.above
  have hchild : ∀ cs' : List (Page Object), (∀ page ∈ cs', page = []) →
      Chain.Shape cfg ⟨ps, z, cs'⟩ := fun cs' hcs => ⟨h.fits, hcs, h.full⟩
  by_cases hpage : cfg.debugPoolAllocation = true ∧ z = []
  · obtain ⟨hd, rfl⟩ := hpage
    cases ps with
    | nil =>
      refine ⟨.empty, ?_, trivial, rfl, Or.inr (Or.inl ⟨rfl, rfl, rfl, Or.inl hd⟩)⟩
      simp [deleteEmpty, hd, hkill rfl, bind, Except.bind]
    | cons page ps =>
      refine ⟨.pages ⟨ps, page, []⟩, ?_, ⟨?_, by simp, by simp [hd]⟩, rfl,
        Or.inr (Or.inr ⟨page, ps, rfl, rfl, rfl, hd⟩)⟩
      · simp [deleteEmpty, hd, hkill rfl, bind, Except.bind]
      · exact fun p hm => h.fits p (List.mem_cons_of_mem _ hm)
  · have hpage' : (cfg.debugPoolAllocation && z.isEmpty) = false := by
      simpa using fun hd hz => hpage ⟨hd, hz⟩
    by_cases htop : cfg.debugMissingPools = true ∧ z = [] ∧ ps = []
    · obtain ⟨hm, rfl, rfl⟩ := htop
      refine ⟨.empty, ?_, trivial, rfl, Or.inr (Or.inl ⟨rfl, rfl, rfl, Or.inr hm⟩)⟩
      simp only [List.isEmpty_nil, Bool.and_true] at hpage'
      simp [deleteEmpty, hpage', hm, hkill rfl, bind, Except.bind]
    · have htop' : (cfg.debugMissingPools && z.isEmpty && ps.isEmpty) = false := by
        simpa using fun hm hz hp => htop ⟨hm, hz, hp⟩
      have hleft : ∃ cs', deleteEmpty cfg ⟨ps, z, cs⟩ = .ok (.pages ⟨ps, z, cs'⟩) ∧
          ∀ page ∈ cs', page = [] := by
        cases cs with
        | nil => exact ⟨[], by simp [deleteEmpty, hpage', htop'], by simp⟩
        | cons child cs =>
          have hcs : ∀ page ∈ cs, page = [] :=
            fun page hm => h.above page (List.mem_cons_of_mem _ hm)
          by_cases hhalf : Page.lessThanHalfFull cfg z = true
          · refine ⟨[], ?_, by simp⟩
            simp [deleteEmpty, hpage', htop', hhalf, kill_ok h.above, bind, Except.bind]
          · refine ⟨[child], ?_, by simpa using h.above child List.mem_cons_self⟩
            simp [deleteEmpty, hpage', htop', hhalf, kill_ok hcs, bind, Except.bind]
      obtain ⟨cs', e, hcs'⟩ := hleft
      exact ⟨_, e, hchild cs' hcs', rfl,
        Or.inl ⟨cs', rfl, fun hm hz => htop ⟨hm, hz.1, hz.2⟩⟩⟩

/-- The pages are again as they were before the push. -/
theorem Mark.restored {s : Pools Object} {cs : List (Page Object)} {tls : Tls Object}
    (h : Mark cfg t.tls z ps) (ht : Good cfg t s) (hs : s.Sound cfg.debugMissingPools)
    (hc : Chain.Shape cfg ⟨ps, z, cs⟩) (e : deleteEmpty cfg ⟨ps, z, cs⟩ = .ok tls)
    (history : List (Event Object)) :
    Good cfg ⟨tls, history⟩ ⟨s.stack, decide (s.stack.length ≠ 0), history⟩ ∧
      t.tls.Extends tls := by
  obtain ⟨tls', e', hshape, hcont, hcases⟩ := deleteEmpty_spec hc
  cases e.symm.trans e'
  have hstack : tls.contents = s.stack := by rw [hcont, h.flatten, ht.contents]
  have hrestores := h.restores
  have hflatten := h.flatten
  obtain ⟨tls0, history0⟩ := t
  -- Where references may leak, there is no page without a boundary.
  have hheld : cfg.debugMissingPools = true → tls0 ≠ .empty → s.stack ≠ [] := by
    intro hm hne hnil
    rcases hs hm with ⟨hin, _⟩ | ⟨_, hlast⟩
    · have := (ht.inPlace hm).mpr hne
      simp [hin] at this
    · simp [hnil] at hlast
  have hz : s.stack = z ++ ps.flatten := hstack.symm.trans hcont
  refine ⟨⟨hshape, hstack, rfl, fun hm => ?_⟩, ?_⟩
  · cases tls0 with
    | empty =>
      obtain ⟨rfl, rfl⟩ := hrestores
      rcases hcases with ⟨cs', rfl, hne⟩ | ⟨rfl, _⟩ | ⟨page, ps', _, _, hps, _⟩
      · exact absurd ⟨rfl, rfl⟩ (hne hm)
      · simp [hz]
      · cases hps
    | placeholder =>
      obtain ⟨rfl, rfl⟩ := hrestores
      rcases hcases with ⟨cs', rfl, _⟩ | ⟨_, hnil, _⟩ | ⟨page, ps', _, hnil, _⟩
      · simp [hz]
      · cases hnil
      · cases hnil
    | pages c0 =>
      have hne : s.stack ≠ [] := hheld hm (by simp)
      rcases hcases with ⟨cs', rfl, _⟩ | ⟨_, rfl, rfl, _⟩ | ⟨page, ps', rfl, _⟩
      · simp [hne]
      · exact absurd hz hne
      · simp [hne]
  · cases tls0 with
    | empty => trivial
    | placeholder =>
      obtain ⟨rfl, rfl⟩ := hrestores
      rcases hcases with ⟨cs', rfl, _⟩ | ⟨_, hnil, _⟩ | ⟨page, ps', rfl, _⟩
      · simp [Tls.Extends]
      · cases hnil
      · simp [Tls.Extends]
    | pages c0 =>
      rcases hcases with ⟨cs', rfl, _⟩ | ⟨_, rfl, rfl, hdebug⟩ | ⟨page, ps', rfl, rfl, hps, hd⟩
      · rcases hrestores with ⟨_, rfl, rfl⟩ | ⟨rfl, rfl⟩
        · exact ⟨[], c0.hot, rfl, List.suffix_refl _⟩
        · exact ⟨[[]], c0.hot, rfl, List.suffix_refl _⟩
      · rcases hrestores with ⟨hd, _, _⟩ | ⟨_, hps⟩
        · rcases hdebug with hd' | hm
          · simp [hd] at hd'
          · exact absurd hz (hheld hm (by simp))
        · cases hps
      · rcases hrestores with ⟨hd', _, _⟩ | ⟨_, hps'⟩
        · simp [hd] at hd'
        · injection hps.symm.trans hps' with hpage hparents
          exact ⟨[], page, by rw [Chain.line, hparents]; rfl, hpage ▸ List.suffix_refl _⟩

/-! ## Releasing -/

/-- What `releaseUntil` keeps: there is more above the slot, or nothing on the pages
above it either.  The slot holds a boundary, or is the first of the coldest page. -/
def Above (cfg : Config) (z : Page Object) (ps : List (Page Object)) (c : Chain Object) : Prop :=
  ∃ qs y, c.line = qs ++ (y ++ z) :: ps ∧ (y = [] → ∀ q ∈ qs, q = []) ∧
    (y = [] ∨ y.getLast? = some none ∨ cfg.debugPoolAllocation = false ∧ z = [] ∧ ps = [])

theorem Marked.above (h : Marked c z ps) : Above cfg z ps c := by
  obtain ⟨qs, page, e, y, rfl⟩ := h
  exact ⟨qs, y ++ [none], by simp [e], by simp, by simp⟩

theorem first_nonempty (qs : List (Page Object)) : (∀ q ∈ qs, q = []) ∨
    ∃ es page rest, qs = es ++ page :: rest ∧ (∀ e ∈ es, e = []) ∧ page ≠ [] := by
  induction qs with
  | nil => simp
  | cons q qs ih =>
    by_cases hq : q = []
    · rcases ih with h | ⟨es, page, rest, rfl, hes, hpage⟩
      · exact Or.inl (by simpa [hq] using h)
      · exact Or.inr ⟨q :: es, page, rest, rfl, by simpa [hq] using hes, hpage⟩
    · exact Or.inr ⟨[], q, qs, rfl, by simp, hq⟩

theorem flatten_of_empty {qs : List (Page Object)} (h : ∀ q ∈ qs, q = []) : qs.flatten = [] :=
  List.flatten_eq_nil_iff.mpr h

/-- The next slot, and the pages without it. -/
structure Next (cfg : Config) (c : Chain Object) (slot : Option Object) (c1 : Chain Object) :
    Prop where
  shape : c1.Shape cfg
  contents : c.contents = slot :: c1.contents
  found : ∀ seek, Finds cfg seek → seek c = .ok { c1 with hot := slot :: c1.hot }

/-- The hot page moves down over empty pages, and may lose slots. -/
theorem Chain.Shape.back (hc : c.Shape cfg) {es ps : List (Page Object)}
    {page page' : Page Object} (h : c.line = es ++ page :: ps) (hes : ∀ e ∈ es, e = [])
    (hlen : page'.length ≤ page.length) :
    Chain.Shape cfg ⟨ps, page', es.reverse ++ c.children⟩ := by
  have hfits : ∀ p ∈ page :: ps, p.length ≤ cfg.capacity := by
    intro p hm
    refine hc.fits p ?_
    rw [h]
    exact List.mem_append_right _ hm
  refine ⟨fun p hm => ?_, fun p hm => ?_, fun hd p hm => ?_⟩
  · rcases List.mem_cons.mp hm with rfl | hm
    · exact Nat.le_trans hlen (hfits _ List.mem_cons_self)
    · exact hfits p (List.mem_cons_of_mem _ hm)
  · rcases List.mem_append.mp hm with hm | hm
    · exact hes p (List.mem_reverse.mp hm)
    · exact hc.above p hm
  · refine hc.full hd p ?_
    have hparents : c.parents = (es ++ page :: ps).tail := by rw [← h]; rfl
    rw [hparents]
    cases es with
    | nil => exact hm
    | cons e es => exact List.mem_append_right _ (List.mem_cons_of_mem _ hm)

theorem Chain.Shape.next (hc : c.Shape cfg) {es ps : List (Page Object)} {rest : Page Object}
    {slot : Option Object} (h : c.line = es ++ (slot :: rest) :: ps) (hes : ∀ e ∈ es, e = []) :
    Next cfg c slot ⟨ps, rest, es.reverse ++ c.children⟩ := by
  refine ⟨hc.back h hes (Nat.le_succ _), ?_,
    fun seek hseek => hseek c hc es _ ps h hes (List.cons_ne_nil _ _)⟩
  rw [Chain.contents, h, List.flatten_append, flatten_of_empty hes]
  rfl

/-- **One turn of the loop.**  A boundary is dropped; after an object the code that
its release runs leaves pages that extend the rest. -/
theorem Above.next (h : Above cfg z ps c) (hc : c.Shape cfg)
    (hne : ∀ qs, c.line ≠ qs ++ z :: ps) :
    ∃ slot c1, Next cfg c slot c1 ∧ (slot = none → Above cfg z ps c1) ∧
      ∀ o, slot = some o → ∀ c2 : Chain Object, c2.Shape cfg → c1.Extends c2 →
        Above cfg z ps c2 := by
  obtain ⟨qs, y, e, hempty, hmark⟩ := h
  have hy : y ≠ [] := by
    rintro rfl
    exact hne qs e
  rcases first_nonempty qs with hqs | ⟨es, page, rest, rfl, hes, hpage⟩
  · -- The slot is taken from the page itself.
    obtain ⟨slot, y, rfl⟩ := List.exists_cons_of_ne_nil hy
    have hrest : y = [] ∧ slot = none ∨ y.getLast? = some none ∨
        cfg.debugPoolAllocation = false ∧ z = [] ∧ ps = [] := by
      rcases hmark with hnil | hlast | hcold
      · cases hnil
      · cases y with
        | nil => exact Or.inl ⟨rfl, by simpa using hlast⟩
        | cons slot' y => exact Or.inr (Or.inl (by simpa using hlast))
      · exact Or.inr (Or.inr hcold)
    refine ⟨slot, _, hc.next e hqs, fun _ => ?_, fun o ho c2 hc2 hext => ?_⟩
    · refine ⟨[], y, rfl, by simp, ?_⟩
      rcases hrest with ⟨hnil, _⟩ | hlast | hcold
      · exact Or.inl hnil
      · exact Or.inr (Or.inl hlast)
      · exact Or.inr (Or.inr hcold)
    · obtain ⟨qs', page', e2, w, rfl⟩ := hext
      refine ⟨qs', w ++ y, by simp [e2], fun hnil => ?_, ?_⟩
      · obtain ⟨rfl, rfl⟩ := List.append_eq_nil_iff.mp hnil
        rcases hrest with ⟨_, hnone⟩ | hlast | ⟨hd, rfl, rfl⟩
        · cases ho.symm.trans hnone
        · cases hlast
        · cases qs' with
          | nil => simp
          | cons q qs' =>
            -- An empty page would be a parent, which is full.
            have hparents : c2.parents = qs' ++ [[]] := by
              have := congrArg List.tail e2
              simpa [Chain.line] using this
            have hfull := hc2.full hd [] (by simp [hparents])
            have := cfg.two_le
            simp at hfull
            omega
      · rcases hrest with ⟨_, hnone⟩ | hlast | hcold
        · cases ho.symm.trans hnone
        · exact Or.inr (Or.inl (by simp [hlast]))
        · exact Or.inr (Or.inr hcold)
  · -- The slot is taken from a page above it.
    obtain ⟨slot, page, rfl⟩ := List.exists_cons_of_ne_nil hpage
    have e' : c.line = es ++ (slot :: page) :: (rest ++ (y ++ z) :: ps) := by simp [e]
    have habove {c2 : Chain Object} (hext : Chain.Extends ⟨rest ++ (y ++ z) :: ps, page,
        es.reverse ++ c.children⟩ c2) : Above cfg z ps c2 := by
      have hline : Chain.line ⟨rest ++ (y ++ z) :: ps, page, es.reverse ++ c.children⟩ =
        (page :: rest) ++ (y ++ z) :: ps := rfl
      obtain ⟨qs', page', e2, w, rfl⟩ := hext.page hline
      refine ⟨qs', w ++ y, by simp [e2], by simp [hy], ?_⟩
      rcases hmark with hnil | hlast | hcold
      · exact absurd hnil hy
      · exact Or.inr (Or.inl (by simp [hlast]))
      · exact Or.inr (Or.inr hcold)
    exact ⟨slot, _, hc.next e' hes, fun _ => habove (Chain.Extends.refl _),
      fun _ _ _ _ hext => habove hext⟩

/-- The slot is reached, or there is more above it. -/
theorem Above.cases (h : Above cfg z ps c) :
    (∃ qs, c.line = qs ++ z :: ps ∧ (∀ q ∈ qs, q = []) ∧ c.contents = z ++ ps.flatten) ∨
      ∃ qs page, c.line = qs ++ page :: ps ∧ page.length ≠ z.length ∧
        (z ++ ps.flatten).length < c.contents.length ∧ ∀ qs, c.line ≠ qs ++ z :: ps := by
  obtain ⟨qs, y, e, hempty, _⟩ := h
  by_cases hy : y = []
  · subst hy
    refine Or.inl ⟨qs, e, hempty rfl, ?_⟩
    rw [Chain.contents, e, List.flatten_append, flatten_of_empty (hempty rfl)]
    rfl
  · have hpos : 0 < y.length := List.length_pos_iff.mpr hy
    refine Or.inr ⟨qs, y ++ z, e, ?_, ?_, fun qs' e' => ?_⟩
    · rw [List.length_append]
      omega
    · rw [Chain.contents, e]
      simp
      omega
    · have hlen : qs.length = qs'.length := by
        have := congrArg List.length (e.symm.trans e')
        simpa using this
      have hcons := (List.append_inj (e.symm.trans e') hlen).2
      injection hcons with hz _
      exact hy (by simpa using hz)

theorem isBoundary_mark {page : Page Object} {cs : List (Page Object)} (h : none :: z <:+ page) :
    Chain.isBoundary z.length ⟨ps, page, cs⟩ = true := by
  obtain ⟨w, rfl⟩ := h
  simp [Chain.isBoundary]

/-- The coldest page is empty only when it is hot. -/
theorem coldest_empty (hc : c.Shape cfg) (hd : cfg.debugPoolAllocation = false)
    {qs : List (Page Object)} (e : c.line = qs ++ [[]]) : qs = [] := by
  cases qs with
  | nil => rfl
  | cons q qs =>
    have hparents : c.parents = qs ++ [[]] := by
      have := congrArg List.tail e
      simpa [Chain.line] using this
    have hfull := hc.full hd [] (by simp [hparents])
    have := cfg.two_le
    simp at hfull
    omega

theorem coldest (c : Chain Object) : ∃ qs page, c.line = qs ++ [page] :=
  ⟨_, _, (List.dropLast_append_getLast (List.cons_ne_nil c.hot c.parents)).symm⟩

/-- A boundary at the bottom of the stack is in the first slot of the coldest page. -/
theorem marked_coldest (hc : c.Shape cfg) (hd : cfg.debugPoolAllocation = false)
    (h : [none] <:+ c.contents) : Marked c [] [] := by
  obtain ⟨qs, page, e⟩ := coldest c
  have hne : page ≠ [] := by
    rintro rfl
    rw [Chain.contents, e, coldest_empty hc hd e] at h
    simp at h
  refine ⟨qs, page, e, ?_⟩
  rw [Chain.contents, e, List.flatten_append, List.flatten_singleton] at h
  exact List.suffix_of_suffix_length_le h (List.suffix_append _ _) (List.length_pos_iff.mpr hne)

section Release

variable {onRelease : OnRelease Object} {seek seek' : Chain Object → Except Fault (Chain Object)}
variable {run run' : Code Object → Thread Object → Except Fault (Thread Object)}

theorem releaseUntil_stop {qs : List (Page Object)} (h : c.line = qs ++ z :: ps) (fuel : Nat)
    (history : List (Event Object)) :
    releaseUntil onRelease seek run ps.length z.length fuel ⟨.pages c, history⟩ =
      .ok ⟨.pages ⟨ps, z, qs.reverse ++ c.children⟩, history⟩ := by
  unfold releaseUntil
  simp [Chain.select_line h]

theorem releaseUntil_zero {qs : List (Page Object)} {page : Page Object}
    (h : c.line = qs ++ page :: ps) (hne : page.length ≠ z.length)
    (history : List (Event Object)) :
    releaseUntil onRelease seek run ps.length z.length 0 ⟨.pages c, history⟩ =
      .error .outOfFuel := by
  unfold releaseUntil
  simp [Chain.select_line h, hne]

theorem releaseUntil_boundary {qs : List (Page Object)} {page : Page Object}
    (h : c.line = qs ++ page :: ps) (hne : page.length ≠ z.length) (hseek : Finds cfg seek)
    {c1 : Chain Object} (hn : Next cfg c none c1) (fuel : Nat) (history : List (Event Object)) :
    releaseUntil onRelease seek run ps.length z.length (fuel + 1) ⟨.pages c, history⟩ =
      releaseUntil onRelease seek run ps.length z.length fuel ⟨.pages c1, history⟩ := by
  rw [releaseUntil]
  simp [Chain.select_line h, hne, hn.found seek hseek, bind, Except.bind]

theorem releaseUntil_object {qs : List (Page Object)} {page : Page Object}
    (h : c.line = qs ++ page :: ps) (hne : page.length ≠ z.length) (hseek : Finds cfg seek)
    {c1 : Chain Object} {o : Object} (hn : Next cfg c (some o) c1) (fuel : Nat)
    (history : List (Event Object)) :
    releaseUntil onRelease seek run ps.length z.length (fuel + 1) ⟨.pages c, history⟩ =
      run (onRelease history o) ⟨.pages c1, .released o :: history⟩ >>=
        releaseUntil onRelease seek run ps.length z.length fuel := by
  rw [releaseUntil]
  simp [Chain.select_line h, hne, hn.found seek hseek, bind, Except.bind]

variable [DecidableEq Object] {runA : Code Object → Pools Object → Option (Pools Object)}

/-- Code on the pages does what it does on the stack. -/
def Simulates (cfg : Config) (runA : Code Object → Pools Object → Option (Pools Object))
    (run run' : Code Object → Thread Object → Except Fault (Thread Object)) : Prop :=
  ∀ p t s, Good cfg t s → s.Sound cfg.debugMissingPools →
    Follows .outOfFuel (fun t' s' => Good cfg t' s' ∧ t.tls.Extends t'.tls) (runA p s) (run p t)
      (run' p t)

/-- **Releasing** down to a slot drains the stack to its height. -/
theorem releaseUntil_follows (hseek : Finds cfg seek) (hseek' : Finds cfg seek')
    (hkept : ∀ p s s', runA p s = some s' → Kept cfg.debugMissingPools s s')
    (hrun : Simulates cfg runA run run') {fuel : Nat} {s : Pools Object}
    (h : Above cfg z ps c) (hc : c.Shape cfg) (hcont : c.contents = s.stack)
    (hbot : s.Bottom cfg.debugMissingPools) :
    Follows .outOfFuel
      (fun t' s' => ∃ cs, t' = ⟨.pages ⟨ps, z, cs⟩, s'.history⟩ ∧
        Chain.Shape cfg ⟨ps, z, cs⟩ ∧ s'.stack = z ++ ps.flatten)
      (drain onRelease runA (z ++ ps.flatten).length fuel s)
      (releaseUntil onRelease seek run ps.length z.length fuel ⟨.pages c, s.history⟩)
      (releaseUntil onRelease seek' run' ps.length z.length fuel ⟨.pages c, s.history⟩) := by
  induction fuel generalizing c s with
  | zero =>
    rcases h.cases with ⟨qs, e, hqs, hz⟩ | ⟨qs, page, e, hne, hlen, _⟩
    · rw [PoolStack.drain_done _ (Nat.le_of_eq (congrArg List.length (hcont.symm.trans hz))),
        releaseUntil_stop e, releaseUntil_stop e]
      exact ⟨_, rfl, rfl, _, rfl, hc.back e hqs (Nat.le_refl _), hcont.symm.trans hz⟩
    · rw [PoolStack.drain_zero (by rw [← hcont]; omega), releaseUntil_zero e hne,
        releaseUntil_zero e hne]
      exact ⟨rfl, rfl⟩
  | succ fuel ih =>
    rcases h.cases with ⟨qs, e, hqs, hz⟩ | ⟨qs, page, e, hne, hlen, hmore⟩
    · rw [PoolStack.drain_done _ (Nat.le_of_eq (congrArg List.length (hcont.symm.trans hz))),
        releaseUntil_stop e, releaseUntil_stop e]
      exact ⟨_, rfl, rfl, _, rfl, hc.back e hqs (Nat.le_refl _), hcont.symm.trans hz⟩
    · have hgt : ¬ s.stack.length ≤ (z ++ ps.flatten).length := by
        rw [← hcont]
        omega
      obtain ⟨slot, c1, hn, hboundary, hobject⟩ := h.next hc hmore
      have hs : s.stack = slot :: c1.contents := hcont.symm.trans hn.contents
      cases slot with
      | none =>
        rw [PoolStack.drain_boundary hs hgt, releaseUntil_boundary e hne hseek hn,
          releaseUntil_boundary e hne hseek' hn]
        exact ih (hboundary rfl) hn.shape rfl (hbot.tail hs)
      | some o =>
        rw [PoolStack.drain_reference hs hgt, releaseUntil_object e hne hseek hn,
          releaseUntil_object e hne hseek' hn]
        have hheld := hbot.rest hs (.released o :: s.history)
        have hgood : Good cfg ⟨.pages c1, .released o :: s.history⟩
            { s with stack := c1.contents, history := .released o :: s.history } :=
          ⟨hn.shape, rfl, rfl, fun hl => ⟨fun _ => by simp, fun _ => (hheld hl).1⟩⟩
        refine (hrun _ _ _ hgood fun hl => Or.inr (hheld hl)).bind fun t2 s2 he h2 => ?_
        obtain ⟨hgood2, hext⟩ := h2
        obtain ⟨tls2, history2⟩ := t2
        obtain ⟨c2, rfl, hext⟩ := hext.pages
        obtain ⟨hshape2, hcont2, hhist2, _⟩ := hgood2
        simp only at hhist2
        subst hhist2
        exact ih (hobject o rfl c2 hshape2 hext) hshape2 hcont2
          ((hkept _ _ _ he).held hheld).1.bottom

/-! ## Popping -/

/-- A pool that was pushed on `t` is popped at its slot. -/
theorem popSlot_follows (hseek : Finds cfg seek) (hseek' : Finds cfg seek')
    (hkept : ∀ p s s', runA p s = some s' → Kept cfg.debugMissingPools s s')
    (hrun : Simulates cfg runA run run') {s s1 : Pools Object} (ht : Good cfg t s)
    (hs : s.Sound cfg.debugMissingPools) (hmark : Mark cfg t.tls z ps) (hc : c.Shape cfg)
    (hmarked : Marked c z ps) (hcont : c.contents = s1.stack)
    (hbot : s1.Bottom cfg.debugMissingPools) (fuel : Nat) :
    Follows .outOfFuel (fun t' s' => Good cfg t' s' ∧ t.tls.Extends t'.tls)
      (PoolStack.popTo onRelease runA s.stack.length fuel s1)
      (popSlot cfg onRelease seek run ps.length z.length fuel ⟨.pages c, s1.history⟩)
      (popSlot cfg onRelease seek' run' ps.length z.length fuel ⟨.pages c, s1.history⟩) := by
  have hlen : s.stack.length = (z ++ ps.flatten).length := by rw [hmark.flatten, ht.contents]
  obtain ⟨qs, page, e, hsuf⟩ := hmarked
  have hmarked : Marked c z ps := ⟨qs, page, e, hsuf⟩
  simp only [popSlot, Chain.select_line e, isBoundary_mark hsuf, Bool.true_or, if_true,
    PoolStack.popTo, Option.map_eq_bind, hlen]
  refine (releaseUntil_follows hseek hseek' hkept hrun hmarked.above hc hcont hbot).bind
    fun t2 s2 _ h2 => ?_
  obtain ⟨cs, rfl, hshape, hstack⟩ := h2
  obtain ⟨tls, e2, _⟩ := deleteEmpty_spec hshape
  obtain ⟨hgood, hext⟩ := hmark.restored ht hs hshape e2 s2.history
  refine ⟨⟨tls, s2.history⟩, by simp [e2, bind, Except.bind], by simp [e2, bind, Except.bind],
    ?_, hext⟩
  have hstack2 : s2.stack = s.stack := by rw [hstack, hmark.flatten, ht.contents]
  simpa [hstack2, ← hlen] using hgood

/-- The pool that the placeholder stands for is popped. -/
theorem popPlaceholder_follows (hseek : Finds cfg seek) (hseek' : Finds cfg seek')
    (hkept : ∀ p s s', runA p s = some s' → Kept cfg.debugMissingPools s s')
    (hrun : Simulates cfg runA run run') (hd : cfg.debugPoolAllocation = false)
    {t1 : Thread Object} {s s1 : Pools Object} (ht : Good cfg t s) (hempty : t.tls = .empty)
    (hs : s.Sound cfg.debugMissingPools) (ht1 : Good cfg t1 s1) (hne : t1.tls ≠ .empty)
    (hsuf : [none] <:+ s1.stack) (hbot : s1.Bottom cfg.debugMissingPools) {fuel : Nat} :
    Follows .outOfFuel (fun t' s' => Good cfg t' s' ∧ t.tls.Extends t'.tls)
      (PoolStack.popTo onRelease runA s.stack.length (fuel + 1) s1)
      (pop cfg onRelease seek run .placeholder (fuel + 1) t1)
      (pop cfg onRelease seek' run' .placeholder (fuel + 1) t1) := by
  obtain ⟨tls1, history1⟩ := t1
  have hstack : s.stack = [] := by rw [← ht.contents, hempty]; rfl
  have hhist : history1 = s1.history := ht1.history
  subst hhist
  cases tls1 with
  | empty => exact absurd rfl hne
  | placeholder =>
    have hs1 : s1.stack = [none] := ht1.contents.symm
    have hpop : PoolStack.popTo onRelease runA s.stack.length (fuel + 1) s1 =
        some { s1 with stack := [], inPlace := false } := by
      have hgt : ¬ s1.stack.length ≤ s.stack.length := by simp [hs1, hstack]
      rw [PoolStack.popTo, PoolStack.drain_boundary hs1 hgt, PoolStack.drain_done _ (Nat.zero_le _)]
      simp [hstack]
    rw [hpop]
    exact ⟨⟨.empty, s1.history⟩, rfl, rfl, ⟨trivial, rfl, rfl, by simp⟩, by rw [hempty]; trivial⟩
  | pages c =>
    have hmark : Mark cfg t.tls [] [] := by
      rw [hempty]
      exact ⟨rfl, rfl, rfl⟩
    have hcont : c.contents = s1.stack := ht1.contents
    exact popSlot_follows hseek hseek' hkept hrun ht hs hmark ht1.shape
      (marked_coldest ht1.shape hd (hcont ▸ hsuf)) hcont hbot (fuel + 1)

/-- **The simulation.**  Whatever code runs and whatever releases run, the pages
follow the stack. -/
theorem exec_follows (hseek : Finds cfg seek) (hseek' : Finds cfg seek') (fuel : Nat) :
    Simulates cfg (PoolStack.exec cfg.debugMissingPools onRelease fuel)
      (exec cfg onRelease seek fuel) (exec cfg onRelease seek' fuel) := by
  induction fuel with
  | zero => exact fun _ _ _ _ _ => ⟨rfl, rfl⟩
  | succ fuel ih =>
    intro p t s ht hs
    cases p with
    | done => exact ⟨t, rfl, rfl, ht, Tls.Extends.refl _⟩
    | autorelease o next =>
      obtain ⟨t1, e, ht1, hext⟩ := autorelease_spec ht o
      simp only [exec, PoolStack.exec, e]
      exact (ih next t1 _ ht1 (hs.autorelease o)).mono
        fun t' s' _ h => ⟨h.1, hext.trans h.2⟩
    | push next =>
      obtain ⟨token, t1, e, ht1, hext, _⟩ := push_spec ht
      simp only [exec, PoolStack.exec, e]
      exact (ih next t1 _ ht1 fun hl => Or.inr (hs.push hl)).mono
        fun t' s' _ h => ⟨h.1, hext.trans h.2⟩
    | pool body next =>
      obtain ⟨token, t1, e, ht1, _, htoken⟩ := push_spec ht
      simp only [exec, PoolStack.exec, e]
      refine (ih body t1 _ ht1 fun hl => Or.inr (hs.push hl)).bind fun t2 s2 h2 hgood2 => ?_
      obtain ⟨ht2, hext2⟩ := hgood2
      have hk : Kept cfg.debugMissingPools s.push s2 := PoolStack.exec_kept h2
      have hbot : s2.Bottom cfg.debugMissingPools := (hk.held hs.push).1.bottom
      have hkept : ∀ p s s', PoolStack.exec cfg.debugMissingPools onRelease fuel p s = some s' →
          Kept cfg.debugMissingPools s s' := fun _ _ _ h => PoolStack.exec_kept h
      have hpop : Follows .outOfFuel (fun t' s' => Good cfg t' s' ∧ t.tls.Extends t'.tls)
          (PoolStack.popTo onRelease (PoolStack.exec cfg.debugMissingPools onRelease fuel)
            s.stack.length fuel s2)
          (pop cfg onRelease seek (exec cfg onRelease seek fuel) token fuel t2)
          (pop cfg onRelease seek' (exec cfg onRelease seek' fuel) token fuel t2) := by
        rcases htoken with ⟨hempty, rfl, hplace⟩ | ⟨c, z, ps, rfl, hpages, hmarked, hmark⟩
        · have hd : cfg.debugPoolAllocation = false := by
            have := ht1.shape
            rwa [hplace] at this
          rw [hplace] at hext2
          have hnil : s.stack = [] := by
            rw [← ht.contents, hempty]
            rfl
          have hsuf : [none] <:+ s2.stack := by
            have := hk.suffix
            rwa [Pools.push, hnil] at this
          cases fuel with
          | zero => cases h2
          | succ fuel =>
            exact popPlaceholder_follows hseek hseek' hkept ih hd ht hempty hs ht2 hext2 hsuf hbot
        · rw [hpages] at hext2
          obtain ⟨tls2, history2⟩ := t2
          obtain ⟨c2, rfl, hext2⟩ := hext2.pages
          have hhist : history2 = s2.history := ht2.history
          subst hhist
          exact popSlot_follows hseek hseek' hkept ih ht hs hmark ht2.shape (hmarked.extends hext2)
            ht2.contents hbot fuel
      refine hpop.bind fun t3 s3 h3 hgood3 => ?_
      have hs3 : s3.Sound cfg.debugMissingPools := PoolStack.popTo_sound hs hkept hk.suffix h3
      exact (ih next t3 s3 hgood3.1 hs3).mono fun t' s' _ h => ⟨h.1, hgood3.2.trans h.2⟩

end Release

end BottomResearch.AutoreleasePool
