import BottomResearch.PoolRefinement

/-!
# What autorelease pools guarantee

For every run of a thread from its start: the pages behave as one stack of pools; a
pool has released by its end what was autoreleased in it, as often, and left the
stack below as it was; when the thread ends nothing is left to release.  All this
holds whatever the release of an object does on the thread: more objects, more
pools, and pools that nothing pops.
-/

namespace BottomResearch.AutoreleasePool

open PoolStack (Code Event OnRelease Pools Kept)
open Runs (Follows)

variable {Object : Type} {cfg : Config} {c : Chain Object} {t : Thread Object}

def Thread.start : Thread Object := ⟨.empty, []⟩

namespace Thread

variable [DecidableEq Object]

def autoreleased (t : Thread Object) (o : Object) : Nat := t.history.count (.autoreleased o)

def released (t : Thread Object) (o : Object) : Nat := t.history.count (.released o)

def leaked (t : Thread Object) (o : Object) : Nat := t.history.count (.leaked o)

end Thread

theorem good_start : Good cfg (Thread.start : Thread Object) Pools.empty :=
  ⟨trivial, rfl, rfl, fun _ => by simp [Pools.empty, Thread.start]⟩

theorem sound_empty (leaks : Bool) : (Pools.empty : Pools Object).Sound leaks :=
  fun _ => Or.inl ⟨rfl, rfl⟩

/-! ## A chain of objects -/

/-- Pages of two slots. -/
def twoSlots (debugPoolAllocation : Bool) : Config :=
  ⟨2, Nat.le_refl 2, debugPoolAllocation, false, true⟩

/-- The release of an object autoreleases the next of a chain. -/
def chained : OnRelease Nat := fun _ o =>
  match o with
  | 0 => .done
  | o + 1 => .autorelease o .done

theorem ranked_chained : PoolStack.Ranked id chained := by
  intro history o
  cases o with
  | zero => trivial
  | succ o => exact ⟨Nat.lt_succ_self o, trivial⟩

/-- The release of object 1 leaves a pool that nothing pops. -/
def unpopped : OnRelease Nat := fun _ o => if o = 1 then .push .done else .done

/-! ## Runs -/

theorem killPages_spec (h : t.tls.Shape cfg) (hcont : t.tls.contents = []) :
    killPages cfg t = .ok { t with tls := .empty } := by
  obtain ⟨tls, history⟩ := t
  cases tls with
  | empty => rfl
  | placeholder => rfl
  | pages c =>
    have hline : ∀ page ∈ c.line, page = [] := List.flatten_eq_nil_iff.mp hcont
    have hkill : kill (c.parents.reverse ++ c.hot :: c.children) = .ok () := by
      apply kill_ok
      intro page hm
      simp only [List.mem_append, List.mem_reverse, List.mem_cons] at hm
      rcases hm with hm | rfl | hm
      · exact hline page (List.mem_cons_of_mem _ hm)
      · exact hline _ List.mem_cons_self
      · exact h.above page hm
    by_cases hdebug : (cfg.debugMissingPools || cfg.debugPoolAllocation) = true
    · simp [killPages, hdebug]
    · simp [killPages, hdebug, hkill, bind, Except.bind]

section Safety

variable [DecidableEq Object] {onRelease : OnRelease Object} {fuel : Nat} {p : Code Object}

theorem simulates (cfg : Config) (onRelease : OnRelease Object) (fuel : Nat) :
    Simulates cfg (PoolStack.exec cfg.debugMissingPools onRelease fuel)
      (exec cfg onRelease seekWhile fuel) (exec cfg onRelease seekWhile fuel) :=
  exec_follows finds_seekWhile finds_seekWhile fuel

/-- **The pages of a thread are a stack of pools.**  Where the stack of pools returns,
the pages hold the same stack and the same was released in the same order; else both
lack fuel.  There is no other fault. -/
theorem exec_refines (cfg : Config) (onRelease : OnRelease Object) (fuel : Nat)
    (p : Code Object) :
    match PoolStack.exec cfg.debugMissingPools onRelease fuel p Pools.empty with
    | none => exec cfg onRelease seekWhile fuel p Thread.start = .error .outOfFuel
    | some s => ∃ t, exec cfg onRelease seekWhile fuel p Thread.start = .ok t ∧
        t.tls.contents = s.stack ∧ t.history = s.history := by
  have h := simulates cfg onRelease fuel p _ _ good_start (sound_empty _)
  cases e : PoolStack.exec cfg.debugMissingPools onRelease fuel p Pools.empty with
  | none =>
    rw [e] at h
    exact h.1
  | some s =>
    rw [e] at h
    obtain ⟨t, e', _, hgood, _⟩ := h
    exact ⟨t, e', hgood.contents, hgood.history⟩

/-- A state that code reached is the one of a stack of pools. -/
theorem reached (h : exec cfg onRelease seekWhile fuel p Thread.start = .ok t) :
    ∃ s : Pools Object, Good cfg t s ∧ s.Sound cfg.debugMissingPools ∧
      PoolStack.exec cfg.debugMissingPools onRelease fuel p Pools.empty = some s := by
  have hf := simulates cfg onRelease fuel p _ _ good_start (sound_empty _)
  cases e : PoolStack.exec cfg.debugMissingPools onRelease fuel p Pools.empty with
  | none =>
    rw [e] at hf
    cases h.symm.trans hf.1
  | some s =>
    rw [e] at hf
    obtain ⟨t', e', _, hgood, _⟩ := hf
    cases h.symm.trans e'
    exact ⟨s, hgood, PoolStack.exec_sound (sound_empty _) e, rfl⟩

/-- **A pool releases what was autoreleased in it.**  In every state that a thread
reaches, a pool that returns leaves the stack as it was; nothing has leaked, and every
object was released in it as often as it was autoreleased in it. -/
theorem pool_releases (h : exec cfg onRelease seekWhile fuel p Thread.start = .ok t)
    (fuel' : Nat) (body : Code Object) :
    exec cfg onRelease seekWhile fuel' (.pool body .done) t = .error .outOfFuel ∨
      ∃ t', exec cfg onRelease seekWhile fuel' (.pool body .done) t = .ok t' ∧
        t'.tls.contents = t.tls.contents ∧ ∀ o, t'.leaked o = t.leaked o ∧
          t'.autoreleased o + t.released o = t.autoreleased o + t'.released o := by
  obtain ⟨s, hgood, hsound, _⟩ := reached h
  have hf := simulates cfg onRelease fuel' (.pool body .done) t s hgood hsound
  cases e : PoolStack.exec cfg.debugMissingPools onRelease fuel' (.pool body .done) s with
  | none =>
    rw [e] at hf
    exact Or.inl hf.1
  | some s' =>
    rw [e] at hf
    obtain ⟨t', e', _, hgood', _⟩ := hf
    obtain ⟨hstack, _, hcount⟩ := PoolStack.pool_spec hsound e
    refine Or.inr ⟨t', e', ?_, fun o => ?_⟩
    · rw [hgood'.contents, hstack, hgood.contents]
    · simp only [Thread.leaked, Thread.autoreleased, Thread.released, hgood.history,
        hgood'.history]
      exact hcount o

theorem pool_releases_chained : ∃ t', exec (twoSlots false) chained seekWhile 9
    (.pool (.autorelease 2 .done) .done) ⟨.pages ⟨[], [some 0], []⟩, [.autoreleased 0]⟩ = .ok t' ∧
      t'.tls.contents = [some 0] ∧ ∀ o, t'.leaked o = 0 ∧
        t'.autoreleased o = [Event.autoreleased 0].count (.autoreleased o) + t'.released o := by
  have h : exec (twoSlots false) chained seekWhile 9 (.autorelease 0 .done) Thread.start =
    .ok ⟨.pages ⟨[], [some 0], []⟩, [.autoreleased 0]⟩ := rfl
  rcases pool_releases h 9 (.autorelease 2 .done) with hf | ⟨t', e, hcont, hcount⟩
  · cases hf
  · exact ⟨t', e, hcont, fun o => ⟨(hcount o).1, (hcount o).2⟩⟩

/-- **Code returns** when the release of an object only autoreleases objects of a lower
rank. -/
theorem exec_returns (cfg : Config) {rank : Object → Nat} (hrank : PoolStack.Ranked rank onRelease)
    {r : Nat} (hp : p.Below rank r) :
    ∃ fuel t, exec cfg onRelease seekWhile fuel p Thread.start = .ok t := by
  obtain ⟨fuel, s, _, e, _⟩ := PoolStack.returns hrank r p hp Pools.empty
  have h := exec_refines cfg onRelease fuel p
  rw [e] at h
  obtain ⟨t, e', _⟩ := h
  exact ⟨fuel, t, e'⟩

theorem exec_returns_chained : ∃ fuel t, exec (twoSlots false) chained seekWhile fuel
    (.pool (.autorelease 3 (.autorelease 4 .done)) .done) Thread.start = .ok t :=
  exec_returns _ ranked_chained (r := 5) (by simp [PoolStack.Code.Below])

/-- **One parent is enough.**  Outside page-per-pool debugging `releaseUntil` may look
for a slot with an `if` instead of its loop. -/
theorem exec_seekIf (hd : cfg.debugPoolAllocation = false) (onRelease : OnRelease Object)
    (fuel : Nat) (p : Code Object) :
    exec cfg onRelease seekIf fuel p Thread.start =
      exec cfg onRelease seekWhile fuel p Thread.start := by
  have h : Simulates cfg (PoolStack.exec cfg.debugMissingPools onRelease fuel)
      (exec cfg onRelease seekWhile fuel) (exec cfg onRelease seekIf fuel) :=
    exec_follows finds_seekWhile (finds_seekIf hd) fuel
  exact (h p _ _ good_start (sound_empty _)).eq.symm

theorem exec_seekIf_chained : exec (twoSlots false) chained seekIf 9
    (.pool (.autorelease 3 (.autorelease 4 .done)) .done) Thread.start =
      exec (twoSlots false) chained seekWhile 9
        (.pool (.autorelease 3 (.autorelease 4 .done)) .done) Thread.start :=
  exec_seekIf rfl chained 9 _

-- In page-per-pool debugging two empty pages may follow each other: the `if` fails.
example : (exec (twoSlots true) unpopped seekWhile 9
      (.pool (.autorelease 0 (.autorelease 1 .done)) .done) Thread.start).isOk = true ∧
    (exec (twoSlots true) unpopped seekIf 9
      (.pool (.autorelease 0 (.autorelease 1 .done)) .done) Thread.start).isOk = false :=
  ⟨rfl, rfl⟩

/-! ## The end of a thread -/

section Destructor

variable {seek seek' : Chain Object → Except Fault (Chain Object)} {s : Pools Object}

/-- Everything is popped from the first slot of the coldest page. -/
theorem popCold_follows (hseek : Finds cfg seek) (hseek' : Finds cfg seek')
    (onRelease : OnRelease Object) (hd : cfg.debugPoolAllocation = false) (hc : c.Shape cfg)
    (hcont : c.contents = s.stack) (hbot : s.Bottom cfg.debugMissingPools) (fuel : Nat) :
    Follows .outOfFuel
      (fun t' s' => t'.tls.Shape cfg ∧ t'.tls.contents = [] ∧ t'.history = s'.history)
      (PoolStack.drain onRelease (PoolStack.exec cfg.debugMissingPools onRelease fuel) 0 fuel s)
      (popSlot cfg onRelease seek (exec cfg onRelease seek fuel) 0 0 fuel ⟨.pages c, s.history⟩)
      (popSlot cfg onRelease seek' (exec cfg onRelease seek' fuel) 0 0 fuel
        ⟨.pages c, s.history⟩) := by
  obtain ⟨qs, page, e⟩ := coldest c
  have habove : Above cfg [] [] c := by
    refine ⟨qs, page, by simp [e], ?_, Or.inr (Or.inr ⟨hd, rfl, rfl⟩)⟩
    rintro rfl
    rw [coldest_empty hc hd e]
    simp
  have hselect : c.select 0 = some ⟨[], page, qs.reverse ++ c.children⟩ := Chain.select_line e
  have hkept : ∀ p s s', PoolStack.exec cfg.debugMissingPools onRelease fuel p s = some s' →
      Kept cfg.debugMissingPools s s' := fun _ _ _ h => PoolStack.exec_kept h
  simp only [popSlot, hselect, beq_self_eq_true, List.isEmpty_nil, Bool.and_self, Bool.or_true,
    if_true]
  refine Follows.bind_ok (releaseUntil_follows hseek hseek' hkept
    (exec_follows hseek hseek' fuel) habove hc hcont hbot) fun t2 s2 h2 => ?_
  obtain ⟨cs, rfl, hshape, _⟩ := h2
  obtain ⟨tls, e2, hshape2, hcont2, _⟩ := deleteEmpty_spec hshape
  exact ⟨⟨tls, s2.history⟩, by simp [e2, bind, Except.bind], by simp [e2, bind, Except.bind],
    hshape2, hcont2, rfl⟩

/-- **The destructor** of a thread with pages drains the stack and deletes every page. -/
theorem tlsDealloc_follows (hseek : Finds cfg seek) (hseek' : Finds cfg seek')
    (onRelease : OnRelease Object) (hd : cfg.debugPoolAllocation = false)
    (hgood : Good cfg ⟨.pages c, s.history⟩ s) (hsound : s.Sound cfg.debugMissingPools)
    (fuel : Nat) :
    Follows .outOfFuel (fun t' s' => t'.tls = .empty ∧ t'.history = s'.history)
      (PoolStack.drain onRelease (PoolStack.exec cfg.debugMissingPools onRelease fuel) 0 fuel s)
      (tlsDealloc cfg onRelease seek fuel ⟨.pages c, s.history⟩)
      (tlsDealloc cfg onRelease seek' fuel ⟨.pages c, s.history⟩) := by
  have hcont : c.contents = s.stack := hgood.contents
  have hshape : c.Shape cfg := hgood.shape
  obtain ⟨qs, page, eline⟩ := coldest c
  have hlast : (c.hot :: c.parents).getLastD [] = page := by
    have e' : c.hot :: c.parents = qs ++ [page] := eline
    simp [e', List.getLastD_eq_getLast?]
  by_cases hcold : page = []
  · -- A cold page that is empty is the only page.
    subst hcold
    have hnil : c.contents = [] := by
      rw [Chain.contents, eline, coldest_empty hshape hd eline]
      rfl
    have hstack : s.stack.length ≤ 0 := by simp [← hcont, hnil]
    rw [PoolStack.drain_done fuel hstack]
    simp only [tlsDealloc, hlast, List.isEmpty_nil, if_true]
    rw [killPages_spec (t := ⟨.pages c, s.history⟩) hshape hnil]
    exact ⟨_, rfl, rfl, rfl, rfl⟩
  · have hheld : s.Held cfg.debugMissingPools := by
      intro hl
      have hin := (hgood.inPlace hl).mpr (by simp)
      rcases hsound hl with ⟨hno, _⟩ | hheld
      · simp [hin] at hno
      · exact hheld
    have hfalse : page.isEmpty = false := by simpa using hcold
    simp only [tlsDealloc, hlast, hfalse, Bool.false_eq_true, if_false]
    refine Follows.bind_ok (popCold_follows hseek hseek' onRelease hd hshape hcont hheld.bottom
      fuel) fun t2 s2 h2 => ?_
    obtain ⟨hshape2, hcont2, hhist2⟩ := h2
    have hkill := killPages_spec hshape2 hcont2
    exact ⟨_, hkill, hkill, rfl, hhist2⟩

end Destructor

/-- With nothing pending every object was released or leaked. -/
theorem settled {s : Pools Object} (hbal : PoolStack.Balanced Pools.empty s)
    (hpending : ∀ o, s.pending o = 0) (hhist : t.history = s.history) (o : Object) :
    t.autoreleased o = t.released o + t.leaked o := by
  have hb := hbal o
  have hp := hpending o
  simp only [Pools.autoreleased, Pools.released, Pools.leaked, Pools.pending, Pools.empty,
    List.count_nil] at hb hp
  simp only [Thread.autoreleased, Thread.released, Thread.leaked, hhist]
  omega

/-- The thread has no pages left, and every object was released or leaked. -/
def Settled (t : Thread Object) : Prop :=
  t.tls = .empty ∧ ∀ o, t.autoreleased o = t.released o + t.leaked o

/-- **The end of a thread** releases all that it autoreleased, but for what leaked; it comes
to an end when the release of an object only autoreleases objects of a lower rank. -/
theorem tlsDealloc_releases (hd : cfg.debugPoolAllocation = false)
    (h : exec cfg onRelease seekWhile fuel p Thread.start = .ok t) :
    (∀ fuel', tlsDealloc cfg onRelease seekWhile fuel' t = .error .outOfFuel ∨
        ∃ t', tlsDealloc cfg onRelease seekWhile fuel' t = .ok t' ∧ Settled t') ∧
      ∀ rank : Object → Nat, PoolStack.Ranked rank onRelease →
        ∃ fuel' t', tlsDealloc cfg onRelease seekWhile fuel' t = .ok t' ∧ Settled t' := by
  obtain ⟨s, hgood, hsound, e⟩ := reached h
  have hbal : PoolStack.Balanced Pools.empty s := (PoolStack.exec_kept e).balanced
  obtain ⟨tls, history⟩ := t
  have hhist : history = s.history := hgood.history
  have hcont := hgood.contents
  subst hhist
  -- Without pages no reference is pending.
  have unused : (∀ o, some o ∉ s.stack) → Settled ⟨.empty, s.history⟩ := fun hno =>
    ⟨rfl, settled hbal (fun o => List.count_eq_zero.mpr (hno o)) rfl⟩
  cases tls with
  | empty =>
    have hend : Settled ⟨.empty, s.history⟩ := unused fun o => by simp [← hcont, Tls.contents]
    exact ⟨fun _ => Or.inr ⟨_, rfl, hend⟩, fun _ _ => ⟨0, _, rfl, hend⟩⟩
  | placeholder =>
    have hend : Settled ⟨.empty, s.history⟩ := unused fun o => by simp [← hcont, Tls.contents]
    exact ⟨fun _ => Or.inr ⟨_, rfl, hend⟩, fun _ _ => ⟨0, _, rfl, hend⟩⟩
  | pages c =>
    have hf := tlsDealloc_follows finds_seekWhile finds_seekWhile onRelease hd hgood hsound
    have ends : ∀ fuel' s', PoolStack.drain onRelease
        (PoolStack.exec cfg.debugMissingPools onRelease fuel') 0 fuel' s = some s' →
          ∃ t', tlsDealloc cfg onRelease seekWhile fuel' ⟨.pages c, s.history⟩ = .ok t' ∧
            Settled t' := by
      intro fuel' s' ed
      have hdrain := PoolStack.drain_spec (fun _ _ _ hr => PoolStack.exec_kept hr)
        (List.append_nil s.stack).symm ed
      have hfuel := hf fuel'
      rw [ed] at hfuel
      obtain ⟨t', e', _, htls, hhist⟩ := hfuel
      exact ⟨t', e', htls,
        settled (hbal.trans hdrain.2.1) (fun o => by simp [Pools.pending, hdrain.1]) hhist⟩
    refine ⟨fun fuel' => ?_, fun rank hrank => ?_⟩
    · cases ed : PoolStack.drain onRelease (PoolStack.exec cfg.debugMissingPools onRelease fuel')
          0 fuel' s with
      | none =>
        have hfuel := hf fuel'
        rw [ed] at hfuel
        exact Or.inl hfuel.1
      | some s' => exact Or.inr (ends fuel' s' ed)
    · obtain ⟨r, hr⟩ := PoolStack.exists_rank rank s.stack
      obtain ⟨fuel', s', ed⟩ := PoolStack.drain_returns hrank
        (fun r' _ => PoolStack.returns hrank r') hr (List.append_nil s.stack).symm
      exact ⟨fuel', ends fuel' s' ed⟩

theorem tlsDealloc_releases_chained : ∃ fuel' t', tlsDealloc (twoSlots false) chained seekWhile
    fuel' ⟨.pages ⟨[], [some 3], []⟩, [.autoreleased 3]⟩ = .ok t' ∧ Settled t' := by
  have h : exec (twoSlots false) chained seekWhile 9 (.autorelease 3 .done) Thread.start =
    .ok ⟨.pages ⟨[], [some 3], []⟩, [.autoreleased 3]⟩ := rfl
  exact (tlsDealloc_releases rfl h).2 id ranked_chained

/-- The destructor does the same with the `if`, too. -/
theorem tlsDealloc_seekIf (hd : cfg.debugPoolAllocation = false)
    (h : exec cfg onRelease seekWhile fuel p Thread.start = .ok t) (fuel' : Nat) :
    tlsDealloc cfg onRelease seekIf fuel' t = tlsDealloc cfg onRelease seekWhile fuel' t := by
  obtain ⟨s, hgood, hsound, _⟩ := reached h
  obtain ⟨tls, history⟩ := t
  have hhist : history = s.history := hgood.history
  subst hhist
  cases tls with
  | empty => rfl
  | placeholder => rfl
  | pages c =>
    exact (tlsDealloc_follows finds_seekWhile (finds_seekIf hd) onRelease hd hgood hsound
      fuel').eq.symm

end Safety

end BottomResearch.AutoreleasePool
