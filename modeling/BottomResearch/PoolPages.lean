import BottomResearch.AutoreleasePool
import BottomResearch.Runs

/-!
# The pages of an autorelease pool

The pages of a thread hold the stack of its pools, read from the hot page to the
coldest.  What the pages look like: nothing lies above the hot page, and outside
page-per-pool debugging every page below it is full.  Proved here: pushing puts a
slot on the stack, and where the slot of a pool lies is not moved by what comes
after it.
-/

namespace BottomResearch.AutoreleasePool

open PoolStack (Code Event OnRelease Pools)

variable {Object : Type} {cfg : Config} {c c' : Chain Object} {t : Thread Object}

namespace Chain

/-- The pages from the hot one to the coldest. -/
def line (c : Chain Object) : List (Page Object) := c.hot :: c.parents

def contents (c : Chain Object) : List (Option Object) := c.line.flatten

structure Shape (cfg : Config) (c : Chain Object) : Prop where
  fits : ∀ page ∈ c.line, page.length ≤ cfg.capacity
  above : ∀ page ∈ c.children, page = []
  full : cfg.debugPoolAllocation = false → ∀ page ∈ c.parents, page.length = cfg.capacity

/-- The pages below the hot page of `c` are the same, and its slots still there. -/
def Extends (c c' : Chain Object) : Prop :=
  ∃ qs page, c'.line = qs ++ page :: c.parents ∧ c.hot <:+ page

theorem Extends.refl (c : Chain Object) : c.Extends c :=
  ⟨[], c.hot, rfl, List.suffix_refl _⟩

/-- A slot `z` of a page over `ps` stays where it is. -/
theorem Extends.page (h : c.Extends c') {qs ps : List (Page Object)} {page : Page Object}
    (hc : c.line = qs ++ page :: ps) :
    ∃ qs' page', c'.line = qs' ++ page' :: ps ∧ page <:+ page' := by
  obtain ⟨es, x, hx, hsuf⟩ := h
  cases qs with
  | nil =>
    injection hc with hhot hps
    rw [hps] at hx
    exact ⟨es, x, hx, hhot ▸ hsuf⟩
  | cons q qs =>
    injection hc with hhot hps
    refine ⟨es ++ x :: qs, page, ?_, List.suffix_refl _⟩
    rw [hx, hps]
    simp

theorem Extends.trans {c'' : Chain Object} (h : c.Extends c') (h' : c'.Extends c'') :
    c.Extends c'' := by
  obtain ⟨qs, x, hx, hsuf⟩ := h
  obtain ⟨qs', x', hx', hsuf'⟩ := h'.page hx
  exact ⟨qs', x', hx', hsuf.trans hsuf'⟩

/-- The pages around the one at a depth. -/
theorem select_line {qs ps : List (Page Object)} {page : Page Object}
    (h : c.line = qs ++ page :: ps) :
    c.select ps.length = some ⟨ps, page, qs.reverse ++ c.children⟩ := by
  have hall : c.parents.reverse ++ c.hot :: c.children =
      ps.reverse ++ page :: (qs.reverse ++ c.children) := by
    have hline : c.parents.reverse ++ c.hot :: c.children = c.line.reverse ++ c.children := by
      simp [line]
    rw [hline, h]
    simp
  simp [select, hall]

/-- A slot is put on the stack, on the hot page or on the next one. -/
structure Placed (c : Chain Object) (slot : Option Object) (c' : Chain Object) (z : Page Object)
    (ps : List (Page Object)) : Prop where
  hot : c'.hot = slot :: z
  parents : c'.parents = ps
  same : z = c.hot ∧ ps = c.parents ∨ z = [] ∧ ps = c.hot :: c.parents

section Placed

variable {slot : Option Object} {z : Page Object} {ps : List (Page Object)}

theorem Placed.flatten (h : Placed c slot c' z ps) : z ++ ps.flatten = c.contents := by
  rcases h.same with ⟨rfl, rfl⟩ | ⟨rfl, rfl⟩ <;> simp [contents, line]

theorem Placed.contents (h : Placed c slot c' z ps) : c'.contents = slot :: c.contents := by
  rw [← h.flatten, Chain.contents, line, h.hot, h.parents]
  simp

theorem Placed.extends (h : Placed c slot c' z ps) : c.Extends c' := by
  rcases h.same with ⟨rfl, rfl⟩ | ⟨rfl, rfl⟩
  · exact ⟨[], _, by rw [line, h.hot, h.parents]; rfl, List.suffix_cons _ _⟩
  · exact ⟨[[slot]], c.hot, by rw [line, h.hot, h.parents]; rfl, List.suffix_refl _⟩

end Placed

theorem nextPage_eq (parents : List (Page Object)) (page : Page Object)
    {children : List (Page Object)} (h : ∀ page ∈ children, page = []) :
    nextPage cfg parents page children = ⟨page :: parents, [], children.tail⟩ := by
  cases children with
  | nil => rfl
  | cons child children =>
    have hfull : Page.full cfg ([] : Page Object) = false := by
      have := cfg.two_le
      simp [Page.full]
      omega
    rw [nextPage, h child List.mem_cons_self, hfull]
    rfl

theorem autoreleaseFullPage_spec (h : c.Shape cfg)
    (hfull : cfg.debugPoolAllocation = false → c.hot.length = cfg.capacity)
    (slot : Option Object) :
    ∃ c', autoreleaseFullPage cfg slot c = .ok (.slot (c.hot :: c.parents).length 0, c') ∧
      c'.Shape cfg ∧ Placed c slot c' [] (c.hot :: c.parents) := by
  have hnot : Page.full cfg ([] : Page Object) = false := by
    have := cfg.two_le
    simp [Page.full]
    omega
  refine ⟨⟨c.hot :: c.parents, [slot], c.children.tail⟩, ?_, ?_, ⟨rfl, rfl, Or.inr ⟨rfl, rfl⟩⟩⟩
  · simp [autoreleaseFullPage, nextPage_eq _ _ h.above, add, hnot]
  · refine ⟨fun page hm => ?_, fun page hm => h.above page (List.mem_of_mem_tail hm),
      fun hd page hm => ?_⟩
    · rcases List.mem_cons.mp hm with rfl | hm
      · exact Nat.le_trans (by simp) cfg.two_le
      · exact h.fits page hm
    · rcases List.mem_cons.mp hm with rfl | hm
      · exact hfull hd
      · exact h.full hd page hm

/-- A slot on the hot page. -/
theorem add_spec (h : c.Shape cfg) (hroom : c.hot.full cfg = false) (slot : Option Object) :
    ∃ c', c.add cfg slot = .ok (.slot c.parents.length c.hot.length, c') ∧ c'.Shape cfg ∧
      Placed c slot c' c.hot c.parents := by
  have hlt : c.hot.length < cfg.capacity := by
    have hne : c.hot.length ≠ cfg.capacity := by simpa [Page.full] using hroom
    exact Nat.lt_of_le_of_ne (h.fits c.hot List.mem_cons_self) hne
  refine ⟨{ c with hot := slot :: c.hot }, by simp [add, hroom], ?_,
    ⟨rfl, rfl, Or.inl ⟨rfl, rfl⟩⟩⟩
  refine ⟨fun page hm => ?_, h.above, h.full⟩
  rcases List.mem_cons.mp hm with rfl | hm
  · exact hlt
  · exact h.fits page (List.mem_cons_of_mem _ hm)

end Chain

/-! ## Threads -/

namespace Tls

/-- The stack of pools; the placeholder stands for one that is empty. -/
def contents : Tls Object → List (Option Object)
  | .empty => []
  | .placeholder => [none]
  | .pages c => c.contents

def Shape (cfg : Config) : Tls Object → Prop
  | .empty => True
  | .placeholder => cfg.debugPoolAllocation = false
  | .pages c => c.Shape cfg

def Extends : Tls Object → Tls Object → Prop
  | .empty, _ => True
  | .placeholder, tls => tls ≠ .empty
  | .pages c, .pages c' => c.Extends c'
  | .pages _, _ => False

theorem Extends.refl : ∀ tls : Tls Object, tls.Extends tls
  | .empty => trivial
  | .placeholder => by simp [Extends]
  | .pages c => Chain.Extends.refl c

theorem Extends.trans {a b d : Tls Object} (h : a.Extends b) (h' : b.Extends d) : a.Extends d := by
  cases a with
  | empty => trivial
  | placeholder =>
    cases b with
    | empty => exact absurd rfl h
    | placeholder => exact h'
    | pages c =>
      cases d with
      | pages c' => simp [Extends]
      | empty => exact h'.elim
      | placeholder => exact h'.elim
  | pages c =>
    cases b with
    | pages c1 =>
      cases d with
      | pages c2 => exact Chain.Extends.trans h h'
      | empty => exact h'.elim
      | placeholder => exact h'.elim
    | empty => exact h.elim
    | placeholder => exact h.elim

/-- Where pages were, there are pages. -/
theorem Extends.pages {c : Chain Object} {tls : Tls Object} (h : Extends (.pages c) tls) :
    ∃ c', tls = .pages c' ∧ c.Extends c' := by
  cases tls with
  | empty => exact h.elim
  | placeholder => exact h.elim
  | pages c' => exact ⟨c', rfl, h⟩

end Tls

/-- The pages of a thread hold the stack `s`. -/
structure Good (cfg : Config) (t : Thread Object) (s : Pools Object) : Prop where
  shape : t.tls.Shape cfg
  contents : t.tls.contents = s.stack
  history : t.history = s.history
  inPlace : cfg.debugMissingPools = true → (s.inPlace = true ↔ t.tls ≠ .empty)

theorem shape_single {page : Page Object} (h : page.length ≤ 2) :
    Chain.Shape cfg ⟨[], page, []⟩ := by
  refine ⟨fun page' hm => ?_, by simp, by simp⟩
  rw [Chain.line, List.mem_singleton] at hm
  rw [hm]
  exact Nat.le_trans h cfg.two_le

theorem add_fresh (slot : Option Object) :
    Chain.fresh.add cfg slot = .ok (.slot 0 0, ⟨[], [slot], []⟩) := by
  have hnot : Page.full cfg ([] : Page Object) = false := by
    have := cfg.two_le
    simp [Page.full]
    omega
  simp [Chain.add, Chain.fresh, hnot]

theorem add_second (slot : Option Object) :
    Chain.add cfg slot ⟨[], [none], []⟩ = .ok (.slot 0 1, ⟨[], [slot, none], []⟩) := by
  have hnot : Page.full cfg [(none : Option Object)] = false := by
    have := cfg.two_le
    simp [Page.full]
    omega
  simp [Chain.add, hnot]

/-- The first page for a placeholder. -/
theorem autoreleaseNoPage_placeholder (slot : Option Object) (history : List (Event Object)) :
    autoreleaseNoPage cfg slot ⟨.placeholder, history⟩ =
      .ok (some (.slot 0 1), ⟨.pages ⟨[], [slot, none], []⟩, history⟩) := by
  simp only [autoreleaseNoPage, bind, Except.bind, add_fresh, add_second]

theorem autoreleaseFast_pages (h : c.Shape cfg) (slot : Option Object)
    (history : List (Event Object)) :
    ∃ c' z ps, autoreleaseFast cfg slot ⟨.pages c, history⟩ =
        .ok (some (.slot ps.length z.length), ⟨.pages c', history⟩) ∧
      c'.Shape cfg ∧ Chain.Placed c slot c' z ps := by
  by_cases hfull : c.hot.full cfg = true
  · obtain ⟨c', e, hs, hp⟩ := Chain.autoreleaseFullPage_spec h
      (fun _ => by simpa [Page.full] using hfull) slot
    exact ⟨c', _, _, by simp [autoreleaseFast, hfull, e, bind, Except.bind], hs, hp⟩
  · obtain ⟨c', e, hs, hp⟩ := Chain.add_spec h (by simpa using hfull) slot
    exact ⟨c', _, _, by simp [autoreleaseFast, hfull, e, bind, Except.bind], hs, hp⟩

/-- **Autorelease** puts the object on the stack, or leaks it. -/
theorem autorelease_spec {s : Pools Object} (h : Good cfg t s) (o : Object) :
    ∃ t', autorelease cfg o t = .ok t' ∧ Good cfg t' (s.autorelease cfg.debugMissingPools o) ∧
      t.tls.Extends t'.tls := by
  obtain ⟨tls, history⟩ := t
  obtain ⟨hshape, hcont, hhist, hin⟩ := h
  simp only at hshape hcont hhist hin
  subst hhist
  cases tls with
  | empty =>
    have hstack : s.stack = [] := hcont.symm
    by_cases hl : cfg.debugMissingPools = true
    · have hnot : s.inPlace = false := by simpa using hin hl
      refine ⟨⟨.empty, .leaked o :: .autoreleased o :: s.history⟩, ?_, ⟨trivial, ?_, ?_, ?_⟩,
        trivial⟩
      · simp [autorelease, autoreleaseFast, autoreleaseNoPage, hl, bind, Except.bind]
      all_goals simp [Pools.autorelease, hl, hnot, hstack, Tls.contents]
    · refine ⟨⟨.pages ⟨[], [some o], []⟩, .autoreleased o :: s.history⟩, ?_,
        ⟨shape_single (by simp), ?_, ?_, fun hl' => absurd hl' hl⟩, trivial⟩
      · simp [autorelease, autoreleaseFast, autoreleaseNoPage, hl, add_fresh, bind, Except.bind]
      all_goals simp [Pools.autorelease, hl, hstack, Tls.contents, Chain.contents, Chain.line]
  | placeholder =>
    have hstack : s.stack = [none] := hcont.symm
    have hkeep : (cfg.debugMissingPools && !s.inPlace) = false := by
      cases hl : cfg.debugMissingPools <;> simp_all
    refine ⟨⟨.pages ⟨[], [some o, none], []⟩, .autoreleased o :: s.history⟩, ?_,
      ⟨shape_single (by simp), ?_, ?_, ?_⟩, by simp [Tls.Extends]⟩
    · simp [autorelease, autoreleaseFast, autoreleaseNoPage_placeholder, bind, Except.bind]
    all_goals simp [Pools.autorelease, hkeep, hstack, Tls.contents, Chain.contents, Chain.line]
  | pages c =>
    have hkeep : (cfg.debugMissingPools && !s.inPlace) = false := by
      cases hl : cfg.debugMissingPools <;> simp_all
    obtain ⟨c', z, ps, e, hshape', hplaced⟩ :=
      autoreleaseFast_pages hshape (some o) (.autoreleased o :: s.history)
    refine ⟨⟨.pages c', .autoreleased o :: s.history⟩, ?_, ⟨hshape', ?_, ?_, ?_⟩,
      hplaced.extends⟩
    · simp [autorelease, e, bind, Except.bind]
    · have hcont' : c.contents = s.stack := hcont
      simp [Pools.autorelease, hkeep, Tls.contents, hplaced.contents, hcont']
    all_goals simp [Pools.autorelease, hkeep]

/-- Where the boundary of a pool lies, and what popping it leaves. -/
structure Mark (cfg : Config) (tls : Tls Object) (z : Page Object) (ps : List (Page Object)) :
    Prop where
  flatten : z ++ ps.flatten = tls.contents
  restores : match tls with
    | .empty => z = [] ∧ ps = []
    | .placeholder => z = [none] ∧ ps = []
    | .pages c => cfg.debugPoolAllocation = false ∧ z = c.hot ∧ ps = c.parents ∨
      z = [] ∧ ps = c.hot :: c.parents

/-- The boundary over `z` on the page over `ps`. -/
def Marked (c : Chain Object) (z : Page Object) (ps : List (Page Object)) : Prop :=
  ∃ qs page, c.line = qs ++ page :: ps ∧ none :: z <:+ page

theorem Marked.extends {z : Page Object} {ps : List (Page Object)} (h : Marked c z ps)
    (hc : c.Extends c') : Marked c' z ps := by
  obtain ⟨qs, page, e, hsuf⟩ := h
  obtain ⟨qs', page', e', hsuf'⟩ := hc.page e
  exact ⟨qs', page', e', hsuf.trans hsuf'⟩

theorem Chain.Placed.marked {z : Page Object} {ps : List (Page Object)}
    (h : Chain.Placed c none c' z ps) : Marked c' z ps :=
  ⟨[], _, by rw [Chain.line, h.hot, h.parents]; rfl, List.suffix_refl _⟩

/-- **Push** puts a boundary on the stack, or the placeholder in its place. -/
theorem push_spec {s : Pools Object} (h : Good cfg t s) :
    ∃ token t', push cfg t = .ok (token, t') ∧ Good cfg t' s.push ∧ t.tls.Extends t'.tls ∧
      (t.tls = .empty ∧ token = .placeholder ∧ t'.tls = .placeholder ∨
        ∃ c z ps, token = .slot ps.length z.length ∧ t'.tls = .pages c ∧ Marked c z ps ∧
          Mark cfg t.tls z ps) := by
  obtain ⟨tls, history⟩ := t
  obtain ⟨hshape, hcont, hhist, hin⟩ := h
  simp only at hshape hcont hhist hin
  subst hhist
  cases tls with
  | empty =>
    have hstack : s.stack = [] := hcont.symm
    cases hd : cfg.debugPoolAllocation with
    | false =>
      refine ⟨.placeholder, ⟨.placeholder, s.history⟩, ?_, ⟨hd, ?_, rfl, ?_⟩, trivial,
        Or.inl ⟨rfl, rfl, rfl⟩⟩
      · simp [push, autoreleaseFast, autoreleaseNoPage, hd, bind, Except.bind]
      all_goals simp [Pools.push, Tls.contents, hstack]
    | true =>
      refine ⟨.slot 0 0, ⟨.pages ⟨[], [none], []⟩, s.history⟩, ?_,
        ⟨shape_single (by simp), ?_, rfl, ?_⟩, trivial,
        Or.inr ⟨_, [], [], rfl, rfl, ⟨[], [none], rfl, List.suffix_refl _⟩, ⟨rfl, rfl, rfl⟩⟩⟩
      · simp [push, autoreleaseNewPage, autoreleaseNoPage, hd, add_fresh, bind, Except.bind]
      all_goals simp [Pools.push, Tls.contents, Chain.contents, Chain.line, hstack]
  | placeholder =>
    have hstack : s.stack = [none] := hcont.symm
    have hd : cfg.debugPoolAllocation = false := hshape
    refine ⟨.slot 0 1, ⟨.pages ⟨[], [none, none], []⟩, s.history⟩, ?_,
      ⟨shape_single (by simp), ?_, rfl, ?_⟩, by simp [Tls.Extends],
      Or.inr ⟨_, [none], [], rfl, rfl, ⟨[], [none, none], rfl, List.suffix_refl _⟩,
        ⟨rfl, rfl, rfl⟩⟩⟩
    · simp [push, autoreleaseFast, autoreleaseNoPage_placeholder, hd, bind, Except.bind]
    all_goals simp [Pools.push, Tls.contents, Chain.contents, Chain.line, hstack]
  | pages c =>
    obtain ⟨c', z, ps, e, hshape', hplaced, hnew⟩ : ∃ c' z ps,
        push cfg ⟨.pages c, s.history⟩ =
            .ok (.slot ps.length z.length, ⟨.pages c', s.history⟩) ∧
          c'.Shape cfg ∧ Chain.Placed c none c' z ps ∧
          (cfg.debugPoolAllocation = true → z = [] ∧ ps = c.hot :: c.parents) := by
      cases hd : cfg.debugPoolAllocation with
      | false =>
        obtain ⟨c', z, ps, e, hs, hp⟩ := autoreleaseFast_pages hshape none s.history
        exact ⟨c', z, ps, by simp [push, hd, e, bind, Except.bind], hs, hp, by simp⟩
      | true =>
        obtain ⟨c', e, hs, hp⟩ := Chain.autoreleaseFullPage_spec hshape (by simp [hd]) none
        exact ⟨c', _, _, by simp [push, autoreleaseNewPage, hd, e, bind, Except.bind], hs, hp,
          fun _ => ⟨rfl, rfl⟩⟩
    refine ⟨_, _, e, ⟨hshape', ?_, rfl, by simp [Pools.push]⟩, hplaced.extends,
      Or.inr ⟨c', z, ps, rfl, rfl, hplaced.marked, ⟨hplaced.flatten, ?_⟩⟩⟩
    · have hcont' : c.contents = s.stack := hcont
      simp [Pools.push, Tls.contents, hplaced.contents, hcont']
    · cases hd : cfg.debugPoolAllocation with
      | false => simpa using hplaced.same
      | true => exact Or.inr (hnew hd)

end BottomResearch.AutoreleasePool
