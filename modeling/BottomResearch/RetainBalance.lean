import BottomResearch.RetainCount
import Mathlib.Algebra.BigOperators.Group.Finset.Basic
import Mathlib.Data.Fintype.BigOperators

/-!
# What reference counts count

The two places of a reference count and what a thread is about to move from one
to the other, against the references that the threads have.  Proved here:

* `Local.mono`: what a thread relies on, when other threads go on;
* `Balanced.isa_count`, `Balanced.add`, `Balanced.sub`, `Balanced.dealloc`,
  `Balanced.toRaw`, `Balanced.rawSide`, `Balanced.rawDealloc`: what a step does to
  the balance;
* `Inv.next`: what a step of one thread has to see to, so that the invariant
  (`Inv`) is kept, and its cases `Inv.goto`, `Inv.returns`, `Inv.stay`, `Inv.quit`
  and `Inv.lockThen`.
-/

namespace BottomResearch.RetainCount

open Finset

variable {T : Type} [DecidableEq T]

/-! ## What a thread holds and relies on -/

/-- The thread holds the lock of the side table. -/
def Pc.holds : Pc → Bool
  | .retainLoad tried _ locked | .retainStore tried _ locked _ => tried || locked
  | .releaseLoad _ locked | .releaseStore _ locked _ | .releaseDealloc _ locked _
  | .changeLoad locked => locked
  | .retainTranscribe _ | .releaseBorrow _ | .releaseBorrowed _ _ | .releaseReload _
  | .releaseRestore _ _ | .releaseReturn _ | .changeStore _ | .changeTranscribe _ => true
  | .idle | .retainLock _ | .sideRetain | .releaseLock | .sideRelease | .changeLock _ => false

/-- The part of the count that is in neither place. -/
def Pc.pending (arch : Arch) : Pc → Nat
  | .retainTranscribe _ => rcHalf arch
  | .releaseBorrowed _ borrowed | .releaseReload borrowed | .releaseRestore _ borrowed
  | .releaseReturn borrowed => borrowed
  | .changeTranscribe old => old.extraRc
  | _ => 0

/-- An isa that was loaded while the object had references. -/
def Isa.Live (isa : Isa) : Prop := isa.nonpointer = true ∧ isa.deallocating = false

/-- What a thread with `own` references can rely on, whether the isa is a
nonpointer one (`np`), and of the side table while it has the lock. -/
def Local (arch : Arch) (np : Bool) (side : Side) (own : Nat) : Pc → Prop
  | .idle => True
  | .retainLoad tried slow locked =>
    (tried = true → locked = false) ∧ (tried = false → 0 < own) ∧ (slow = false → locked = false)
  | .retainLock old => 0 < own ∧ old.Live ∧ old.fits arch 1 = false
  | .retainStore tried slow locked old =>
    (tried = true → locked = false) ∧ (tried = false → 0 < own) ∧ (slow = false → locked = false) ∧
      old.Live ∧ (old.fits arch 1 = false → tried = true ∨ locked = true)
  | .retainTranscribe _ => np = true ∧ 0 < own
  | .sideRetain | .sideRelease => np = false ∧ 0 < own
  | .releaseLoad slow locked => 0 < own ∧ (slow = false → locked = false)
  | .releaseLock => 0 < own
  | .releaseStore slow locked old =>
    0 < own ∧ (slow = false → locked = false) ∧ old.Live ∧ 0 < old.extraRc
  | .releaseBorrow old => 0 < own ∧ old.Live ∧ old.extraRc = 0 ∧ np = true
  | .releaseBorrowed old borrowed =>
    0 < own ∧ old.Live ∧ old.extraRc = 0 ∧ borrowed = rcHalf arch ∧ np = true
  | .releaseReload borrowed | .releaseReturn borrowed =>
    0 < own ∧ borrowed = rcHalf arch ∧ np = true
  | .releaseRestore old borrowed =>
    0 < own ∧ borrowed = rcHalf arch ∧ np = true ∧ old.fits arch (borrowed - 1) = true
  | .releaseDealloc slow locked old =>
    0 < own ∧ (slow = false → locked = false) ∧ old.Live ∧ old.extraRc = 0 ∧
      (old.hasSidetableRc = true → locked = true ∧ sidetableGetExtraRC side = 0)
  | .changeLoad _ => 0 < own
  | .changeLock old | .changeStore old => 0 < own ∧ old.Live
  | .changeTranscribe old => np = false ∧ old.deallocating = false ∧ 0 < own

/-- The steps of other threads leave that alone: what is said of the side table or
of a nonpointer isa is said by the holder of the lock. -/
theorem Local.mono {arch : Arch} {np np' : Bool} {side side' : Side} {own : Nat} {p : Pc}
    (h : Local arch np side own p) (hlock : p.holds = true → np' = np ∧ side' = side)
    (hraw : np = false → np' = false) : Local arch np' side' own p := by
  cases p with
  | idle | retainLoad _ _ _ | retainLock _ | retainStore _ _ _ _ | releaseLoad _ _ | releaseLock
  | releaseStore _ _ _ | changeLoad _ | changeLock _ | changeStore _ => exact h
  | sideRetain | sideRelease => exact ⟨hraw h.1, h.2⟩
  | changeTranscribe _ => exact ⟨hraw h.1, h.2⟩
  | retainTranscribe _ | releaseBorrow _ | releaseBorrowed _ _ | releaseReload _
  | releaseReturn _ | releaseRestore _ _ =>
    obtain ⟨rfl, rfl⟩ := hlock rfl
    exact h
  | releaseDealloc slow locked old =>
    obtain ⟨h1, h2, h3, h4, h5⟩ := h
    refine ⟨h1, h2, h3, h4, fun hhas => ?_⟩
    obtain ⟨hl, hc⟩ := h5 hhas
    obtain ⟨rfl, rfl⟩ := hlock hl
    exact ⟨hl, hc⟩

/-- More references leave it alone, too. -/
theorem Local.mono_own {arch : Arch} {np : Bool} {side : Side} {own own' : Nat} {p : Pc}
    (h : Local arch np side own p) (hle : own ≤ own') : Local arch np side own' p := by
  cases p with
  | idle => trivial
  | retainLoad tried slow locked => exact ⟨h.1, fun ht => Nat.lt_of_lt_of_le (h.2.1 ht) hle, h.2.2⟩
  | retainStore tried slow locked old =>
    exact ⟨h.1, fun ht => Nat.lt_of_lt_of_le (h.2.1 ht) hle, h.2.2⟩
  | releaseLock | changeLoad _ => exact Nat.lt_of_lt_of_le h hle
  | retainTranscribe _ | sideRetain | sideRelease => exact ⟨h.1, Nat.lt_of_lt_of_le h.2 hle⟩
  | changeTranscribe _ => exact ⟨h.1, h.2.1, Nat.lt_of_lt_of_le h.2.2 hle⟩
  | retainLock _ | releaseLoad _ _ | releaseStore _ _ _ | releaseBorrow _ | releaseBorrowed _ _
  | releaseReload _ | releaseReturn _ | releaseRestore _ _ | releaseDealloc _ _ _ | changeLock _
  | changeStore _ => exact ⟨Nat.lt_of_lt_of_le h.1 hle, h.2⟩

/-! ## The balance -/

def sideDeallocating : Side → Bool
  | none => false
  | some r => r.deallocating

/-- The count in both places and on the way is that of the references (`total`),
until the deallocation. -/
structure Balanced (arch : Arch) (isa : Isa) (side : Side) (pending total deallocs : Nat) :
    Prop where
  live : isa.deallocating = false → sideDeallocating side = false →
    1 + isa.extraRc + sidetableGetExtraRC side + pending = total ∧ deallocs = 0
  dead : isa.deallocating = true ∨ sideDeallocating side = true → total = 0 ∧ deallocs = 1
  /-- As long as the isa has a part of the count, halves are moved. -/
  packed : isa.nonpointer = true → ∀ r, side = some r →
    r.deallocating = false ∧ r.weaklyReferenced = false ∧ rcHalf arch ∣ r.count
  flag : isa.nonpointer = true → isa.hasSidetableRc = false →
    sidetableGetExtraRC side = 0 ∧ pending = 0
  fits : isa.extraRc < 2 ^ rcBits arch
  raw : isa.nonpointer = false → isa.extraRc = 0 ∧ isa.deallocating = false

theorem two_mul_rcHalf (arch : Arch) : 2 ^ rcBits arch = 2 * rcHalf arch := by
  cases arch <;> rfl

theorem rcHalf_pos (arch : Arch) : 0 < rcHalf arch := Nat.two_pow_pos _

/-- While there are references the object is not deallocating. -/
theorem Balanced.alive {arch : Arch} {isa : Isa} {side : Side} {pending total deallocs : Nat}
    (h : Balanced arch isa side pending total deallocs) (hpos : 0 < total) :
    isa.deallocating = false ∧ sideDeallocating side = false ∧
      1 + isa.extraRc + sidetableGetExtraRC side + pending = total ∧ deallocs = 0 := by
  have h1 : isa.deallocating = false := by
    cases hd : isa.deallocating with
    | false => rfl
    | true =>
      have := (h.dead (Or.inl hd)).1
      omega
  have h2 : sideDeallocating side = false := by
    cases hd : sideDeallocating side with
    | false => rfl
    | true =>
      have := (h.dead (Or.inr hd)).1
      omega
  exact ⟨h1, h2, h.live h1 h2⟩

section Balance

variable {arch : Arch} {isa : Isa} {side side' : Side} {P W d : Nat}

theorem Balanced.side_live (h : Balanced arch isa side P W d) (hn : isa.nonpointer = true) :
    sideDeallocating side = false := by
  cases side with
  | none => rfl
  | some r => exact (h.packed hn r rfl).1

/-- What a change of the count in the isa has to keep, as long as it stays alive. -/
theorem Balanced.isa_count (h : Balanced arch isa side P W d) (hl : isa.Live) {n P' W' : Nat}
    {flag : Bool} (hn : n < 2 ^ rcBits arch)
    (hsum : 1 + isa.extraRc + sidetableGetExtraRC side + P = W →
      1 + n + sidetableGetExtraRC side + P' = W')
    (hflag : flag = false → isa.hasSidetableRc = false ∧ (P = 0 → P' = 0)) :
    Balanced arch { isa with extraRc := n, hasSidetableRc := flag } side P' W' d := by
  have hside := h.side_live hl.1
  refine ⟨fun _ _ => ?_, fun hd => ?_, h.packed, fun _ hf => ?_, hn, fun hr => ?_⟩
  · obtain ⟨hw, hd⟩ := h.live hl.2 hside
    exact ⟨hsum hw, hd⟩
  · rcases hd with hd | hd
    · exact absurd (hl.2.symm.trans hd) (by simp)
    · exact absurd (hside.symm.trans hd) (by simp)
  · obtain ⟨hold, hP⟩ := hflag hf
    obtain ⟨hc, hp⟩ := h.flag hl.1 hold
    exact ⟨hc, hP hp⟩
  · exact absurd (hl.1.symm.trans hr) (by simp)

theorem Refcnt.add_ok {r : Refcnt} {n : Nat} (h : r.count + n < pinnedCount arch) :
    r.add arch n = .ok { r with count := r.count + n } := if_pos h

theorem Refcnt.add_pinned {r : Refcnt} {n : Nat} (h : ¬ r.count + n < pinnedCount arch) :
    r.add arch n = .error .pinned := if_neg h

theorem getExtraRC_eq (side : Side) : sidetableGetExtraRC side = (side.getD .zero).count := by
  cases side <;> rfl

/-- A half comes to the side table. -/
theorem Balanced.add (h : Balanced arch isa side P W d) (hn : isa.nonpointer = true)
    (hW : 0 < W) (hP : rcHalf arch ≤ P) :
    (∃ side', sidetableAddExtraRC arch side (rcHalf arch) = .ok side' ∧
        Balanced arch isa side' (P - rcHalf arch) W d) ∨
      sidetableAddExtraRC arch side (rcHalf arch) = .error .pinned ∧ pinnedCount arch ≤ W := by
  obtain ⟨hd, hs, hw, hdz⟩ := h.alive hW
  have hpos := rcHalf_pos arch
  have hcount := getExtraRC_eq side
  have hr : (side.getD .zero).deallocating = false ∧ (side.getD .zero).weaklyReferenced = false ∧
      rcHalf arch ∣ (side.getD .zero).count := by
    cases side with
    | none => exact ⟨rfl, rfl, Nat.dvd_zero _⟩
    | some r => exact h.packed hn r rfl
  unfold sidetableAddExtraRC
  by_cases hfit : (side.getD .zero).count + rcHalf arch < pinnedCount arch
  · refine Or.inl ⟨some { side.getD .zero with count := (side.getD .zero).count + rcHalf arch },
      ?_, fun _ _ => ⟨?_, hdz⟩, fun hdead => ?_, fun _ r he => ?_, fun _ hf => ?_, h.fits, h.raw⟩
    · rw [Refcnt.add_ok hfit]
      rfl
    · show 1 + isa.extraRc + ((side.getD .zero).count + rcHalf arch) + _ = _
      omega
    · rcases hdead with hdead | hdead
      · exact absurd (hd.symm.trans hdead) (by simp)
      · exact absurd (hr.1.symm.trans hdead) (by simp)
    · cases he
      exact ⟨hr.1, hr.2.1, Nat.dvd_add_self_right.mpr hr.2.2⟩
    · have := (h.flag hn hf).2
      omega
  · refine Or.inr ⟨?_, by omega⟩
    rw [Refcnt.add_pinned hfit]
    rfl

/-- A half leaves the side table, unless there is none. -/
theorem Balanced.sub (h : Balanced arch isa side P W d) (hn : isa.nonpointer = true) :
    sidetableSubExtraRC side (rcHalf arch) = .ok (side, 0) ∧ sidetableGetExtraRC side = 0 ∨
      ∃ side', sidetableSubExtraRC side (rcHalf arch) = .ok (side', rcHalf arch) ∧
        Balanced arch isa side' (P + rcHalf arch) W d := by
  have hpos := rcHalf_pos arch
  cases side with
  | none => exact Or.inl ⟨rfl, rfl⟩
  | some r =>
    obtain ⟨hd, hweak, hdvd⟩ := h.packed hn r rfl
    have hword : r.word = 4 * r.count := by
      simp [Refcnt.word, hd, hweak]
    unfold sidetableSubExtraRC
    by_cases hz : r.count = 0
    · refine Or.inl ⟨?_, hz⟩
      simp only [if_pos (show r.word = 0 by omega)]
    · have hle : rcHalf arch ≤ r.count := Nat.le_of_dvd (by omega) hdvd
      refine Or.inr ⟨some { r with count := r.count - rcHalf arch }, ?_, fun hd' hs => ?_,
        fun hdead => ?_, fun _ r' he => ?_, fun _ hf => ?_, h.fits, h.raw⟩
      · simp only [if_neg (show ¬ r.word = 0 by omega), if_pos hle]
      · obtain ⟨hw, hdz⟩ := h.live hd' hd
        refine ⟨?_, hdz⟩
        replace hw : 1 + isa.extraRc + r.count + P = W := hw
        show 1 + isa.extraRc + (r.count - rcHalf arch) + _ = _
        omega
      · exact h.dead hdead
      · cases he
        exact ⟨hd, hweak, Nat.dvd_sub hdvd (Nat.dvd_refl _)⟩
      · exact absurd (h.flag hn hf).1 hz

/-- The last reference. -/
theorem Balanced.dealloc (h : Balanced arch isa side P W d) (hl : isa.Live) (hW : 0 < W)
    (hx : isa.extraRc = 0) (hs : sidetableGetExtraRC side = 0) (hP : P = 0) :
    Balanced arch { isa with deallocating := true } side P (W - 1) (d + 1) := by
  obtain ⟨_, _, hw, hd⟩ := h.alive hW
  refine ⟨by simp, fun _ => by omega, h.packed, h.flag, h.fits, fun hr => ?_⟩
  exact absurd (hl.1.symm.trans hr) (by simp)

/-- The count goes from the isa on its way to the side table. -/
theorem Balanced.toRaw (h : Balanced arch isa side P W d) (hl : isa.Live) :
    Balanced arch .raw side (P + isa.extraRc) W d := by
  have hside := h.side_live hl.1
  obtain ⟨hw, hd⟩ := h.live hl.2 hside
  refine ⟨fun _ _ => ⟨?_, hd⟩, fun hdead => ?_, by simp [Isa.raw], by simp [Isa.raw], Nat.two_pow_pos _,
    fun _ => ⟨rfl, rfl⟩⟩
  · show 1 + 0 + _ + _ = _
    omega
  · rcases hdead with hdead | hdead
    · cases hdead
    · exact absurd (hside.symm.trans hdead) (by simp)

/-- The entry of a raw isa with another count. -/
theorem Balanced.rawSide (h : Balanced arch isa side P W d) (hn : isa.nonpointer = false)
    {r : Refcnt} (hs : sideDeallocating side = false) (hr : r.deallocating = false) {P' W' : Nat}
    (hsum : 1 + isa.extraRc + sidetableGetExtraRC side + P = W →
      1 + isa.extraRc + r.count + P' = W') :
    Balanced arch isa (some r) P' W' d := by
  obtain ⟨hx, hd⟩ := h.raw hn
  obtain ⟨hw, hdz⟩ := h.live hd hs
  refine ⟨fun _ _ => ⟨hsum hw, hdz⟩, fun hdead => ?_, fun hn' => ?_, fun hn' => ?_, h.fits, h.raw⟩
  · rcases hdead with hdead | hdead
    · exact absurd (hd.symm.trans hdead) (by simp)
    · exact absurd (hr.symm.trans hdead) (by simp)
  · exact absurd (hn.symm.trans hn') (by simp)
  · exact absurd (hn.symm.trans hn') (by simp)

/-- The last reference, with a raw isa. -/
theorem Balanced.rawDealloc (h : Balanced arch isa side P W d) (hn : isa.nonpointer = false)
    {r : Refcnt} (hr : r.deallocating = true) (hW : 0 < W) (hs : sidetableGetExtraRC side = 0)
    (hP : P = 0) : Balanced arch isa (some r) P (W - 1) (d + 1) := by
  obtain ⟨_, _, hw, hd⟩ := h.alive hW
  have hx := (h.raw hn).1
  refine ⟨fun _ hs' => ?_, fun _ => by omega, fun hn' => ?_, fun hn' => ?_, h.fits, h.raw⟩
  · exact absurd (hr.symm.trans hs') (by simp)
  · exact absurd (hn.symm.trans hn') (by simp)
  · exact absurd (hn.symm.trans hn') (by simp)

end Balance

/-! ## The invariant -/

section Invariant

variable [Fintype T] {arch : Arch} {s s' : State T} {t : T}

structure Inv (arch : Arch) (s : State T) : Prop where
  balanced : Balanced arch s.isa s.side (∑ u, (s.pc u).pending arch) (∑ u, s.owns u) s.deallocs
  lock : ∀ u, (s.pc u).holds = true ↔ s.lock = some u
  local' : ∀ u, Local arch s.isa.nonpointer s.side (s.owns u) (s.pc u)

theorem sum_off {f g : T → Nat} (h : ∀ u, u ≠ t → g u = f u) :
    ∑ u, g u + f t = ∑ u, f u + g t := by
  have hg := add_sum_erase univ g (mem_univ t)
  have hf := add_sum_erase univ f (mem_univ t)
  have hrest : ∑ u ∈ univ.erase t, g u = ∑ u ∈ univ.erase t, f u :=
    sum_congr rfl fun u hu => h u (ne_of_mem_erase hu)
  omega

theorem le_sum (f : T → Nat) (t : T) : f t ≤ ∑ u, f u := by
  rw [← add_sum_erase univ f (mem_univ t)]
  exact Nat.le_add_right _ _

theorem Pc.holds_of_pending {p : Pc} (h : p.pending arch ≠ 0) : p.holds = true := by
  cases p <;> first | rfl | exact absurd rfl h

omit [DecidableEq T] in
/-- Nothing is on its way but what the holder of the lock moves. -/
theorem Inv.pending_eq (h : Inv arch s) (ht : ∀ u, s.lock = some u → u = t) :
    ∑ u, (s.pc u).pending arch = (s.pc t).pending arch := by
  refine sum_eq_single t (fun u _ hne => ?_) (fun hn => absurd (mem_univ t) hn)
  by_contra hp
  exact hne (ht u ((h.lock u).mp (Pc.holds_of_pending hp)))

/-- **One step of one thread.**  It changes its own place and its own references;
the side table, and whether the isa is a nonpointer one, only while no other
thread has the lock. -/
theorem Inv.next (h : Inv arch s) {p p' : Pc} (hp : s.pc t = p)
    (hpc : s'.pc = Function.update s.pc t p') (howns : ∀ u, u ≠ t → s'.owns u = s.owns u)
    (hlock : p'.holds = true ↔ s'.lock = some t)
    (hothers : ∀ u, u ≠ t → (s'.lock = some u ↔ s.lock = some u))
    (hside : ∀ u, u ≠ t → s.lock = some u →
      s'.isa.nonpointer = s.isa.nonpointer ∧ s'.side = s.side)
    (hraw : s.isa.nonpointer = false → s'.isa.nonpointer = false)
    (hlocal : Local arch s'.isa.nonpointer s'.side (s'.owns t) p')
    (hbal : ∀ P W P' W', Balanced arch s.isa s.side P W s.deallocs →
      P' + p.pending arch = P + p'.pending arch → W' + s.owns t = W + s'.owns t →
      p.pending arch ≤ P → s.owns t ≤ W →
      ((∀ u, s.lock = some u → u = t) → P = p.pending arch) →
      Balanced arch s'.isa s'.side P' W' s'.deallocs) : Inv arch s' := by
  have hpc' : ∀ u, u ≠ t → s'.pc u = s.pc u := fun u hu => by
    rw [hpc, Function.update_of_ne hu]
  have hpct : s'.pc t = p' := by rw [hpc, Function.update_self]
  refine ⟨?_, fun u => ?_, fun u => ?_⟩
  · refine hbal _ _ _ _ h.balanced ?_ (sum_off howns) ?_ (le_sum s.owns t) (fun hu => ?_)
    · have := sum_off (f := fun u => (s.pc u).pending arch) (g := fun u => (s'.pc u).pending arch)
        (t := t) fun u hu => by rw [hpc' u hu]
      rw [hp, hpct] at this
      exact this
    · rw [← hp]
      exact le_sum (fun u => (s.pc u).pending arch) t
    · rw [h.pending_eq hu, hp]
  · by_cases hu : u = t
    · rw [hu, hpct]
      exact hlock
    · rw [hpc' u hu, h.lock u, hothers u hu]
  · by_cases hu : u = t
    · rw [hu, hpct]
      exact hlocal
    · rw [hpc' u hu, howns u hu]
      exact (h.local' u).mono (fun hh => hside u hu ((h.lock u).mp hh)) hraw

/-- What a thread may change while another one holds the lock. -/
def Guarded (s s1 : State T) (holds : Bool) : Prop :=
  holds = true ∨ s.lock = none ∨ s1.isa.nonpointer = s.isa.nonpointer ∧ s1.side = s.side

omit [DecidableEq T] [Fintype T] in
theorem Guarded.elim {holds : Bool} (hg : Guarded s s' holds)
    (hl : holds = true → s.lock = some t) {u : T} (hu : u ≠ t) (hlu : s.lock = some u) :
    s'.isa.nonpointer = s.isa.nonpointer ∧ s'.side = s.side := by
  rcases hg with hh | hnone | hsame
  · rw [hl hh] at hlu
    injection hlu with hlu
    exact absurd hlu.symm hu
  · rw [hnone] at hlu
    cases hlu
  · exact hsame

/-- A step after which the thread holds the lock as before. -/
theorem Inv.goto (h : Inv arch s) {p p' : Pc} (hp : s.pc t = p) (s1 : State T)
    (hpc : s1.pc = s.pc) (hl : s1.lock = s.lock) (howns : ∀ u, u ≠ t → s1.owns u = s.owns u)
    (hholds : p'.holds = p.holds) (hg : Guarded s s1 p.holds)
    (hraw : s.isa.nonpointer = false → s1.isa.nonpointer = false)
    (hlocal : Local arch s1.isa.nonpointer s1.side (s1.owns t) p')
    (hbal : ∀ P W P' W', Balanced arch s.isa s.side P W s.deallocs →
      P' + p.pending arch = P + p'.pending arch → W' + s.owns t = W + s1.owns t →
      p.pending arch ≤ P → s.owns t ≤ W →
      ((∀ u, s.lock = some u → u = t) → P = p.pending arch) →
      Balanced arch s1.isa s1.side P' W' s1.deallocs) : Inv arch (s1.goto t p') := by
  have hlt := h.lock t
  rw [hp] at hlt
  refine h.next hp ?_ howns ?_ (fun u _ => ?_) (fun u => hg.elim hlt.mp) hraw hlocal hbal
  · show Function.update s1.pc t p' = _
    rw [hpc]
  · rw [hholds, hlt]
    show _ ↔ s1.lock = _
    rw [hl]
  · show s1.lock = _ ↔ _
    rw [hl]

omit [DecidableEq T] [Fintype T] in
theorem unlockIf_eq (s : State T) (b : Bool) :
    s.unlockIf b = { s with lock := if b then none else s.lock } := by
  cases b <;> rfl

/-- A step after which the thread does not hold the lock. -/
theorem Inv.leave (h : Inv arch s) {p p' : Pc} (hp : s.pc t = p) (s1 : State T)
    (hpc : s1.pc = s.pc) (hl : s1.lock = s.lock) (howns : ∀ u, u ≠ t → s1.owns u = s.owns u)
    {b : Bool} (hb : b = p.holds) (hholds : p'.holds = false) (hg : Guarded s s1 b)
    (hraw : s.isa.nonpointer = false → s1.isa.nonpointer = false)
    (hlocal : Local arch s1.isa.nonpointer s1.side (s1.owns t) p')
    (hbal : ∀ P W P' W', Balanced arch s.isa s.side P W s.deallocs →
      P' + p.pending arch = P + p'.pending arch → W' + s.owns t = W + s1.owns t →
      p.pending arch ≤ P → s.owns t ≤ W →
      ((∀ u, s.lock = some u → u = t) → P = p.pending arch) →
      Balanced arch s1.isa s1.side P' W' s1.deallocs) :
    Inv arch ((s1.unlockIf b).goto t p') := by
  have hlt := h.lock t
  rw [hp, ← hb] at hlt
  rw [unlockIf_eq]
  refine h.next hp ?_ howns ?_ (fun u hu => ?_) (fun u => hg.elim hlt.mp) hraw hlocal hbal
  · show Function.update s1.pc t p' = _
    rw [hpc]
  · rw [hholds]
    show _ ↔ (if b = true then none else s1.lock) = _
    cases b with
    | true => simp
    | false =>
      rw [if_neg Bool.false_ne_true, hl, ← hlt]
  · show (if b = true then none else s1.lock) = _ ↔ _
    cases b with
    | true =>
      rw [if_pos rfl, hlt.mp rfl]
      simp [Ne.symm hu]
    | false => rw [if_neg Bool.false_ne_true, hl]

theorem Inv.returns (h : Inv arch s) {p : Pc} (hp : s.pc t = p) (s1 : State T)
    (hpc : s1.pc = s.pc) (hl : s1.lock = s.lock) (howns : ∀ u, u ≠ t → s1.owns u = s.owns u)
    {b : Bool} (hb : b = p.holds) (hg : Guarded s s1 b)
    (hraw : s.isa.nonpointer = false → s1.isa.nonpointer = false)
    (hbal : ∀ P W P' W', Balanced arch s.isa s.side P W s.deallocs →
      P' + p.pending arch = P → W' + s.owns t = W + s1.owns t →
      p.pending arch ≤ P → s.owns t ≤ W →
      ((∀ u, s.lock = some u → u = t) → P = p.pending arch) →
      Balanced arch s1.isa s1.side P' W' s1.deallocs) : Inv arch (s1.return' t b) :=
  h.leave hp s1 hpc hl howns hb (show Pc.idle.holds = false from rfl) hg hraw trivial hbal

/-- A step that changes only where the thread is. -/
theorem Inv.stay (h : Inv arch s) {p p' : Pc} (hp : s.pc t = p) (hholds : p'.holds = p.holds)
    (hpend : p'.pending arch = p.pending arch)
    (hlocal : Local arch s.isa.nonpointer s.side (s.owns t) p') : Inv arch (s.goto t p') := by
  refine h.goto hp s rfl rfl (fun _ _ => rfl) hholds (Or.inr (Or.inr ⟨rfl, rfl⟩)) id hlocal ?_
  intro P W P' W' hbal hP hW hle hle' _
  rw [show P' = P by omega, show W' = W by omega]
  exact hbal

/-- A thread that returns without a change. -/
theorem Inv.quit (h : Inv arch s) {p p' : Pc} (hp : s.pc t = p) {b : Bool} (hb : b = p.holds)
    (hholds : p'.holds = false) (hpend : p'.pending arch = p.pending arch)
    (hlocal : Local arch s.isa.nonpointer s.side (s.owns t) p') :
    Inv arch ((s.unlockIf b).goto t p') := by
  refine h.leave hp s rfl rfl (fun _ _ => rfl) hb hholds (Or.inr (Or.inr ⟨rfl, rfl⟩)) id hlocal ?_
  intro P W P' W' hbal hP hW hle hle' _
  rw [show P' = P by omega, show W' = W by omega]
  exact hbal

/-- A thread that waits for the lock. -/
theorem Inv.lockThen (h : Inv arch s) {p p' : Pc} (hp : s.pc t = p) (hholds : p'.holds = true)
    (hpend : p'.pending arch = p.pending arch)
    (hlocal : Local arch s.isa.nonpointer s.side (s.owns t) p') :
    Inv arch (s.lockThen t p') := by
  unfold State.lockThen
  split
  · rename_i hnone
    refine h.next hp rfl (fun _ _ => rfl) (by simp [hholds, State.goto]) (fun u hu => ?_)
      (fun u _ hl => ⟨rfl, rfl⟩) id hlocal ?_
    · rw [hnone]
      show some t = some u ↔ none = some u
      simp [Ne.symm hu]
    · intro P W P' W' hbal hP hW hle hle' _
      have hw : W' + s.owns t = W + s.owns t := hW
      rw [show P' = P by omega, show W' = W by omega]
      exact hbal
  · exact h

end Invariant

end BottomResearch.RetainCount
