import BottomResearch.RetainBalance
import BottomResearch.Runs
import Mathlib.Algebra.BigOperators.Fin

/-!
# Safety of reference counts

The invariant of `RetainBalance` along every interleaving.  Proved here:

* `keeps_advance`: each step of each thread keeps it, however often exclusive
  stores fail;
* `run_counts`: the count is the number of references, `-dealloc` is sent once,
  with the last release, and nothing is released too often.
-/

namespace BottomResearch.RetainCount

open Finset

section Invariant

variable {T : Type} [DecidableEq T] [Fintype T] {arch : Arch} {s s' : State T} {t : T}

/-! ## The steps -/

/-- A step keeps the invariant, or comes to a count that the side table cannot have. -/
def Keeps (arch : Arch) (s : State T) (r : Except Fault (State T)) : Prop :=
  (∃ s', r = .ok s' ∧ Inv arch s') ∨ r = .error .pinned ∧ pinnedCount arch ≤ ∑ u, s.owns u

omit [DecidableEq T] in
theorem Keeps.ok (h : Inv arch s') : Keeps arch s (.ok s') := Or.inl ⟨s', rfl, h⟩

omit [Fintype T] in
theorem gain_owns (s : State T) (t : T) : (s.gain t).owns t = s.owns t + 1 :=
  Function.update_self ..

omit [Fintype T] in
theorem lose_owns (s : State T) (t : T) : (s.lose t).owns t = s.owns t - 1 :=
  Function.update_self ..

omit [Fintype T] in
theorem gain_owns_of_ne (s : State T) {t u : T} (h : u ≠ t) : (s.gain t).owns u = s.owns u :=
  Function.update_of_ne h ..

omit [Fintype T] in
theorem lose_owns_of_ne (s : State T) {t u : T} (h : u ≠ t) : (s.lose t).owns u = s.owns u :=
  Function.update_of_ne h ..

omit [DecidableEq T] in
theorem Inv.local_of (h : Inv arch s) {p : Pc} (hp : s.pc t = p) :
    Local arch s.isa.nonpointer s.side (s.owns t) p := hp ▸ h.local' t

/-- A thread with a reference sees an isa that is not deallocating. -/
theorem Inv.isa_live (h : Inv arch s) (hown : 0 < s.owns t) (hn : ¬ s.isa.nonpointer = false) :
    s.isa.Live :=
  ⟨by simpa using hn, (h.balanced.alive (Nat.lt_of_lt_of_le hown (le_sum s.owns t))).1⟩

/-- The reference that `sidetable_tryRetain` may find. -/
theorem keeps_tryRetain (h : Inv arch s) {slow locked : Bool}
    (hp : s.pc t = .retainLoad true slow locked) (hn : s.isa.nonpointer = false) :
    Keeps arch s (retainLoad arch s t true slow locked) := by
  have hgain : ∀ r : Refcnt, sideDeallocating s.side = false → r.deallocating = false →
      r.count = sidetableGetExtraRC s.side + 1 →
      Inv arch (({ s with side := some r }.gain t).return' t true) := by
    intro r hlive hr hcount
    refine h.returns hp ({ s with side := some r }.gain t) rfl rfl
      (fun u => gain_owns_of_ne _) rfl (Or.inl rfl) id ?_
    intro P W P' W' hbal hP hW _ _ _
    rw [gain_owns] at hW
    refine hbal.rawSide hn hlive hr fun hsum => ?_
    replace hW : W' + s.owns t = W + (s.owns t + 1) := hW
    replace hP : P' + 0 = P := hP
    omega
  unfold retainLoad
  simp only [hn, if_true]
  cases hs : s.side with
  | none =>
    exact Keeps.ok (hgain { Refcnt.zero with count := 1 } (by rw [hs]; rfl) rfl (by rw [hs]; rfl))
  | some r =>
    cases hd : r.deallocating with
    | true =>
      have hsame : { s with side := some r } = s := by rw [← hs]
      have hr : sidetableTryRetain arch (some r) = .ok (some r, false) := by
        simp only [sidetableTryRetain, hd, if_true]
      rw [hr]
      show Keeps arch s (.ok ({ s with side := some r }.return' t true))
      rw [hsame]
      exact Keeps.ok (h.quit hp rfl rfl rfl trivial)
    | false =>
      by_cases hfit : r.count + 1 < pinnedCount arch
      · have hr : sidetableTryRetain arch (some r) = .ok (some { r with count := r.count + 1 }, true) := by
          rw [sidetableTryRetain, if_neg (by simp [hd]), Refcnt.add_ok hfit]
          rfl
        rw [hr]
        exact Keeps.ok (hgain { r with count := r.count + 1 } (by rw [hs]; exact hd) hd
          (by rw [hs]; rfl))
      · have hr : sidetableTryRetain arch (some r) = .error .pinned := by
          rw [sidetableTryRetain, if_neg (by simp [hd]), Refcnt.add_pinned hfit]
          rfl
        rw [hr]
        refine Or.inr ⟨rfl, ?_⟩
        have hsum := (h.balanced.live (h.balanced.raw hn).2 (by rw [hs]; exact hd)).1
        rw [hs] at hsum
        replace hsum : 1 + s.isa.extraRc + r.count + _ = _ := hsum
        omega

theorem keeps_retainLoad (h : Inv arch s) {tried slow locked : Bool}
    (hp : s.pc t = .retainLoad tried slow locked) :
    Keeps arch s (retainLoad arch s t tried slow locked) := by
  obtain ⟨htried, hown, hslow⟩ := h.local_of hp
  by_cases hn : s.isa.nonpointer = false
  · cases tried with
    | true => exact keeps_tryRetain h hp hn
    | false =>
      simp only [retainLoad, hn, if_true, Bool.false_eq_true, if_false]
      exact Keeps.ok (h.quit hp rfl rfl rfl ⟨hn, hown rfl⟩)
  · simp only [retainLoad, if_neg hn]
    split
    · rename_i hdead
      rw [Bool.and_eq_true] at hdead
      rw [hdead.1] at hp
      exact Keeps.ok (h.quit hp rfl rfl rfl trivial)
    · rename_i hdead
      -- Without a reference it was looked whether the object is deallocating.
      have hlive : s.isa.Live := by
        cases tried with
        | true => exact ⟨by simpa using hn, by simpa using hdead⟩
        | false => exact h.isa_live (hown rfl) hn
      split
      · rename_i hfit
        exact Keeps.ok (h.stay hp rfl rfl
          ⟨htried, hown, hslow, hlive, fun hf => absurd (hf.symm.trans hfit) (by simp)⟩)
      · rename_i hfit
        split
        · rename_i hs
          rw [hslow hs] at hp
          exact Keeps.ok (h.stay hp rfl rfl ⟨fun _ => rfl, hown, by simp⟩)
        · rename_i hs
          split
          · rename_i hheld
            exact Keeps.ok (h.stay hp rfl rfl
              ⟨htried, hown, hslow, hlive, fun _ => by simpa using hheld⟩)
          · rename_i hheld
            simp only [Bool.or_eq_true, not_or, Bool.not_eq_true] at hheld
            refine Keeps.ok (h.stay hp ?_ rfl ⟨hown hheld.1, hlive, by simpa using hfit⟩)
            simp [Pc.holds, hheld]

theorem keeps_retainStore (h : Inv arch s) {tried slow locked stored : Bool} {old : Isa}
    (hp : s.pc t = .retainStore tried slow locked old) :
    Inv arch (retainStore arch s t tried slow locked old stored) := by
  obtain ⟨htried, hown, hslow, hlive, hfull⟩ := h.local_of hp
  unfold retainStore
  split
  · rename_i hstored
    obtain ⟨hsame, _⟩ := hstored
    subst hsame
    split
    · rename_i hfit
      refine h.returns hp
        ({ s with isa := { s.isa with extraRc := s.isa.extraRc + 1 } }.gain t) rfl rfl
        (fun u => gain_owns_of_ne _) rfl (Or.inr (Or.inr ⟨rfl, rfl⟩)) id ?_
      intro P W P' W' hbal hP hW _ _ _
      rw [gain_owns] at hW
      replace hW : W' + s.owns t = W + (s.owns t + 1) := hW
      replace hP : P' + 0 = P := hP
      exact hbal.isa_count hlive (of_decide_eq_true hfit) (fun hsum => by omega)
        (fun hf => ⟨hf, fun _ => by omega⟩)
    · rename_i hfit
      have hfit' : s.isa.fits arch 1 = false := by simpa using hfit
      have hholds : tried || locked := by simpa using hfull hfit'
      refine h.goto hp _ rfl rfl (fun u => gain_owns_of_ne _) (by simp [Pc.holds, hholds])
        (Or.inr (Or.inr ⟨rfl, rfl⟩)) id ⟨hlive.1, by rw [gain_owns]; omega⟩ ?_
      intro P W P' W' hbal hP hW _ _ _
      rw [gain_owns] at hW
      replace hW : W' + s.owns t = W + (s.owns t + 1) := hW
      replace hP : P' + 0 = P + rcHalf arch := hP
      have htwo := two_mul_rcHalf arch
      have hlt := hbal.fits
      have hge : ¬ s.isa.extraRc + 1 < 2 ^ rcBits arch := fun hlt => hfit (decide_eq_true hlt)
      refine hbal.isa_count hlive ?_ (fun hsum => by omega) (by simp)
      have := rcHalf_pos arch
      omega
  · exact h.stay hp rfl rfl ⟨fun ht => htried ht, hown, hslow⟩

/-- Half of the count is put into the side table. -/
theorem Inv.add (h : Inv arch s) {p : Pc} (hp : s.pc t = p) (hpend : p.pending arch = rcHalf arch)
    (hn : s.isa.nonpointer = true) (hown : 0 < s.owns t) :
    (∃ side, sidetableAddExtraRC arch s.side (rcHalf arch) = .ok side ∧
        ∀ P W P', Balanced arch s.isa s.side P W s.deallocs → P' + p.pending arch = P →
          s.owns t ≤ W → Balanced arch s.isa side P' W s.deallocs) ∨
      sidetableAddExtraRC arch s.side (rcHalf arch) = .error .pinned ∧ pinnedCount arch ≤ ∑ u, s.owns u := by
  have hle : rcHalf arch ≤ ∑ u, (s.pc u).pending arch := by
    rw [← hpend, ← hp]
    exact le_sum (fun u => (s.pc u).pending arch) t
  rcases h.balanced.add hn (Nat.lt_of_lt_of_le hown (le_sum s.owns t)) hle with
    ⟨side, e, _⟩ | hpin
  · refine Or.inl ⟨side, e, fun P W P' hbal hP hW => ?_⟩
    rw [hpend] at hP
    rcases hbal.add hn (Nat.lt_of_lt_of_le hown hW) (by omega) with ⟨side', e', hb⟩ | hpin
    · rw [e] at e'
      cases e'
      rw [show P' = P - rcHalf arch by omega]
      exact hb
    · rw [e] at hpin
      cases hpin.1
  · exact Or.inr hpin

theorem keeps_retainTranscribe (h : Inv arch s) {tried stored : Bool}
    (hp : s.pc t = .retainTranscribe tried) : Keeps arch s (advance arch s t stored) := by
  obtain ⟨hn, hown⟩ := h.local_of hp
  unfold advance
  simp only [hp]
  rcases h.add hp rfl hn hown with ⟨side, e, hbal'⟩ | ⟨e, hpin⟩
  · rw [e]
    refine Keeps.ok (h.returns hp { s with side := side } rfl rfl (fun _ _ => rfl) rfl
      (Or.inl rfl) id ?_)
    intro P W P' W' hbal hP hW _ hWle _
    replace hW : W' + s.owns t = W + s.owns t := hW
    rw [show W' = W by omega]
    exact hbal' P W P' hbal hP hWle
  · rw [e]
    exact Or.inr ⟨rfl, hpin⟩

theorem keeps_sideRetain (h : Inv arch s) {stored : Bool} (hp : s.pc t = .sideRetain) :
    Keeps arch s (advance arch s t stored) := by
  obtain ⟨hn, hown⟩ := h.local_of hp
  obtain ⟨_, hlive, hsum, _⟩ := h.balanced.alive (Nat.lt_of_lt_of_le hown (le_sum s.owns t))
  -- The entry that `operator[]` finds or makes.
  obtain ⟨r, hr, hdead, hcount⟩ : ∃ r, s.side.getD .zero = r ∧ r.deallocating = false ∧
      sidetableGetExtraRC s.side = r.count := by
    refine ⟨_, rfl, ?_, getExtraRC_eq s.side⟩
    cases hs : s.side with
    | none => rfl
    | some r =>
      rw [hs] at hlive
      exact hlive
  unfold advance
  simp only [hp, sidetableRetain, hr]
  split
  · rename_i hfree
    by_cases hfit : r.count + 1 < pinnedCount arch
    · rw [Refcnt.add_ok hfit]
      refine Keeps.ok (h.returns hp ({ s with side := some { r with count := r.count + 1 } }.gain t)
        rfl rfl (fun u => gain_owns_of_ne _) rfl (Or.inr (Or.inl hfree)) id ?_)
      intro P W P' W' hbal hP hW _ _ _
      rw [gain_owns] at hW
      replace hW : W' + s.owns t = W + (s.owns t + 1) := hW
      replace hP : P' + 0 = P := hP
      show Balanced arch s.isa (some { r with count := r.count + 1 }) P' W' s.deallocs
      refine hbal.rawSide (r := { r with count := r.count + 1 }) hn hlive hdead fun hsum => ?_
      show 1 + s.isa.extraRc + (r.count + 1) + P' = W'
      omega
    · rw [Refcnt.add_pinned hfit]
      exact Or.inr ⟨rfl, by omega⟩
  · exact Keeps.ok h

/-! ## Releases -/

theorem inv_releaseLoad (h : Inv arch s) {slow locked : Bool}
    (hp : s.pc t = .releaseLoad slow locked) : Inv arch (releaseLoad s t slow locked) := by
  obtain ⟨hown, hslow⟩ := h.local_of hp
  unfold releaseLoad
  simp only []
  split
  · rename_i hn
    exact h.quit hp rfl rfl rfl ⟨hn, hown⟩
  · rename_i hn
    have hlive := h.isa_live hown hn
    split
    · rename_i hx
      exact h.stay hp rfl rfl ⟨hown, hslow, hlive, hx⟩
    · rename_i hx
      have hz : s.isa.extraRc = 0 := by omega
      split
      · split
        · rename_i hs
          rw [hslow hs] at hp
          exact h.stay hp rfl rfl ⟨hown, by simp⟩
        · split
          · rename_i hl
            refine h.stay hp ?_ rfl ⟨hown, hlive, hz, hlive.1⟩
            rw [hl]
            rfl
          · rename_i hl
            refine h.stay hp ?_ rfl hown
            simp [Pc.holds, hl]
      · rename_i hhas
        exact h.stay hp rfl rfl ⟨hown, hslow, hlive, hz, fun hf => absurd hf hhas⟩

/-- A store that gives a reference up and returns. -/
theorem inv_lose (h : Inv arch s) {p : Pc} (hp : s.pc t = p) {b : Bool} (hb : b = p.holds)
    (hown : 0 < s.owns t) {old : Isa} (hsame : s.isa = old) (hlive : old.Live) {n : Nat}
    (hn : n < 2 ^ rcBits arch) (hsum : n + 1 = old.extraRc + p.pending arch) :
    Inv arch (({ s with isa := { old with extraRc := n } }.lose t).return' t b) := by
  subst hsame
  refine h.returns hp ({ s with isa := { s.isa with extraRc := n } }.lose t) rfl rfl
    (fun u => lose_owns_of_ne _) hb (Or.inr (Or.inr ⟨rfl, rfl⟩)) id ?_
  intro P W P' W' hbal hP hW _ hWle _
  rw [lose_owns] at hW
  replace hW : W' + s.owns t = W + (s.owns t - 1) := hW
  exact hbal.isa_count hlive hn (fun hs => by omega) (fun hf => ⟨hf, fun hz => by omega⟩)

theorem keeps_releaseBorrow (h : Inv arch s) {old : Isa} (hp : s.pc t = .releaseBorrow old) :
    Keeps arch s (releaseBorrow arch s t old) := by
  obtain ⟨hown, hlive, hx, hn⟩ := h.local_of hp
  unfold releaseBorrow
  rcases h.balanced.sub hn with ⟨e, hz⟩ | ⟨side, e, _⟩
  · rw [e]
    show Keeps arch s (.ok (({ s with side := s.side }).goto t (.releaseDealloc true true old)))
    exact Keeps.ok (h.stay hp rfl rfl ⟨hown, by simp, hlive, hx, fun _ => ⟨rfl, hz⟩⟩)
  · rw [e]
    show Keeps arch s (.ok (if 0 < rcHalf arch then _ else _))
    rw [if_pos (rcHalf_pos arch)]
    refine Keeps.ok (h.goto hp { s with side := side } rfl rfl (fun _ _ => rfl) rfl (Or.inl rfl) id
      ⟨hown, hlive, hx, rfl, hn⟩ ?_)
    intro P W P' W' hbal hP hW _ _ _
    replace hW : W' + s.owns t = W + s.owns t := hW
    replace hP : P' + 0 = P + rcHalf arch := hP
    rcases hbal.sub hn with ⟨e', _⟩ | ⟨side', e', hb⟩
    · rw [e] at e'
      injection e' with e'
      injection e' with _ e'
      have := rcHalf_pos arch
      omega
    · rw [e] at e'
      injection e' with e'
      injection e' with e'
      subst e'
      rw [show P' = P + rcHalf arch by omega, show W' = W by omega]
      exact hb

theorem inv_borrowed (h : Inv arch s) {old : Isa} {borrowed : Nat} {stored : Bool}
    (hp : s.pc t = .releaseBorrowed old borrowed) :
    Inv arch (if s.isa = old ∧ stored then
      ({ s with isa := { old with extraRc := borrowed - 1 } }.lose t).return' t true
      else s.goto t (.releaseReload borrowed)) := by
  obtain ⟨hown, hlive, hx, hb, hn⟩ := h.local_of hp
  have hpos := rcHalf_pos arch
  have htwo := two_mul_rcHalf arch
  split
  · rename_i hstored
    refine inv_lose h hp rfl hown hstored.1 hlive (by omega) ?_
    show borrowed - 1 + 1 = old.extraRc + borrowed
    omega
  · exact h.stay hp rfl rfl ⟨hown, hb, hn⟩

theorem inv_restore (h : Inv arch s) {old : Isa} {borrowed : Nat} {stored : Bool}
    (hp : s.pc t = .releaseRestore old borrowed) :
    Inv arch (if s.isa = old ∧ stored then
      ({ s with isa := { old with extraRc := old.extraRc + (borrowed - 1) } }.lose t).return' t true
      else s.goto t (.releaseReturn borrowed)) := by
  obtain ⟨hown, hb, hn, hfit⟩ := h.local_of hp
  have hpos := rcHalf_pos arch
  split
  · rename_i hstored
    obtain ⟨hsame, _⟩ := hstored
    have hlive : old.Live := by
      rw [← hsame]
      exact h.isa_live hown (by simp [hn])
    refine inv_lose h hp rfl hown hsame hlive (of_decide_eq_true hfit) ?_
    show old.extraRc + (borrowed - 1) + 1 = old.extraRc + borrowed
    omega
  · exact h.stay hp rfl rfl ⟨hown, hb, hn⟩

theorem keeps_releaseReturn (h : Inv arch s) {borrowed : Nat} {stored : Bool}
    (hp : s.pc t = .releaseReturn borrowed) : Keeps arch s (advance arch s t stored) := by
  obtain ⟨hown, rfl, hn⟩ := h.local_of hp
  unfold advance
  simp only [hp]
  rcases h.add hp rfl hn hown with ⟨side, e, hbal'⟩ | ⟨e, hpin⟩
  · rw [e]
    refine Keeps.ok (h.goto hp { s with side := side } rfl rfl (fun _ _ => rfl) rfl (Or.inl rfl) id
      ⟨hown, by simp⟩ ?_)
    intro P W P' W' hbal hP hW _ hWle _
    replace hW : W' + s.owns t = W + s.owns t := hW
    rw [show W' = W by omega]
    exact hbal' P W P' hbal hP hWle
  · rw [e]
    exact Or.inr ⟨rfl, hpin⟩

/-- **The last release.** -/
theorem keeps_releaseDealloc (h : Inv arch s) {slow locked stored : Bool} {old : Isa}
    (hp : s.pc t = .releaseDealloc slow locked old) :
    Keeps arch s (releaseDealloc s t slow locked old stored) := by
  obtain ⟨hown, hslow, hlive, hx, hside⟩ := h.local_of hp
  unfold releaseDealloc
  rw [if_neg (by simp [hlive.2])]
  split
  · rename_i hstored
    obtain ⟨hsame, _⟩ := hstored
    subst hsame
    refine Keeps.ok (h.returns hp ({ s with
      isa := { s.isa with deallocating := true }, deallocs := s.deallocs + 1 }.lose t) rfl rfl
      (fun u => lose_owns_of_ne _) rfl (Or.inr (Or.inr ⟨rfl, rfl⟩)) id ?_)
    intro P W P' W' hbal hP hW _ hWle hmine
    rw [lose_owns] at hW
    replace hW : W' + s.owns t = W + (s.owns t - 1) := hW
    replace hP : P' + 0 = P := hP
    -- Either the side table was never used, or the thread has its lock and found it empty.
    have hempty : sidetableGetExtraRC s.side = 0 ∧ P = 0 := by
      cases hhas : s.isa.hasSidetableRc with
      | false => exact hbal.flag hlive.1 hhas
      | true =>
        obtain ⟨hl, hz⟩ := hside hhas
        refine ⟨hz, hmine fun u hu => ?_⟩
        have ht := (h.lock t).mp (by rw [hp]; exact hl)
        rw [ht] at hu
        injection hu with hu
        exact hu.symm
    rw [show P' = P by omega, show W' = W - 1 by omega]
    exact hbal.dealloc hlive (by omega) hx hempty.1 hempty.2
  · exact Keeps.ok (h.stay hp rfl rfl ⟨hown, hslow⟩)

theorem keeps_sideRelease (h : Inv arch s) {stored : Bool} (hp : s.pc t = .sideRelease) :
    Keeps arch s (advance arch s t stored) := by
  obtain ⟨hn, hown⟩ := h.local_of hp
  obtain ⟨_, hlive, _, _⟩ := h.balanced.alive (Nat.lt_of_lt_of_le hown (le_sum s.owns t))
  unfold advance
  simp only [hp]
  split
  · rename_i hfree
    have hmine : ∀ u, s.lock = some u → u = t := fun u hu => by
      rw [hfree] at hu
      cases hu
    -- The count was 0, so that the reference is the last one.
    have last : ∀ r : Refcnt, r.deallocating = true → sidetableGetExtraRC s.side = 0 →
        Inv arch (({ s with side := some r, deallocs := s.deallocs + 1 }.lose t).return' t false) := by
      intro r hr hz
      refine h.returns hp ({ s with side := some r, deallocs := s.deallocs + 1 }.lose t) rfl rfl
        (fun u => lose_owns_of_ne _) rfl (Or.inr (Or.inl hfree)) id ?_
      intro P W P' W' hbal hP hW _ hWle hP0
      rw [lose_owns] at hW
      replace hW : W' + s.owns t = W + (s.owns t - 1) := hW
      replace hP : P' + 0 = P := hP
      rw [show P' = P by omega, show W' = W - 1 by omega]
      exact hbal.rawDealloc hn hr (by omega) hz (hP0 hmine)
    cases hs : s.side with
    | none => exact Keeps.ok (last { Refcnt.zero with deallocating := true } rfl (by rw [hs]; rfl))
    | some r =>
      rw [hs] at hlive
      replace hlive : r.deallocating = false := hlive
      have hword : r.word = r.weaklyReferenced.toNat + 4 * r.count := by
        simp [Refcnt.word, hlive]
      have hbit : r.weaklyReferenced.toNat ≤ 1 := Bool.toNat_le ..
      by_cases hz : r.count = 0
      · have e : sidetableRelease (some r) = .ok (some { r with deallocating := true }, true) := by
          rw [sidetableRelease, if_pos (by omega)]
        rw [e]
        exact Keeps.ok (last { r with deallocating := true } rfl (by rw [hs]; exact hz))
      · have e : sidetableRelease (some r) = .ok (some { r with count := r.count - 1 }, false) := by
          rw [sidetableRelease, if_neg (by omega), if_neg hz]
        rw [e]
        refine Keeps.ok (h.returns hp ({ s with side := some { r with count := r.count - 1 } }.lose t)
          rfl rfl (fun u => lose_owns_of_ne _) rfl (Or.inr (Or.inl hfree)) id ?_)
        intro P W P' W' hbal hP hW _ hWle _
        rw [lose_owns] at hW
        replace hW : W' + s.owns t = W + (s.owns t - 1) := hW
        replace hP : P' + 0 = P := hP
        show Balanced arch s.isa (some { r with count := r.count - 1 }) P' W' s.deallocs
        refine hbal.rawSide (r := { r with count := r.count - 1 }) hn (by rw [hs]; exact hlive) hlive
          fun hsum => ?_
        rw [hs] at hsum
        replace hsum : 1 + s.isa.extraRc + r.count + P = W := hsum
        show 1 + s.isa.extraRc + (r.count - 1) + P' = W'
        omega
  · exact Keeps.ok h

/-! ## The change of the isa -/

theorem inv_changeStore (h : Inv arch s) {old : Isa} {stored : Bool}
    (hp : s.pc t = .changeStore old) :
    Inv arch (if s.isa = old ∧ stored then { s with isa := .raw }.goto t (.changeTranscribe old)
      else s.goto t (.changeLoad true)) := by
  obtain ⟨hown, hlive⟩ := h.local_of hp
  split
  · rename_i hstored
    obtain ⟨hsame, _⟩ := hstored
    subst hsame
    refine h.goto hp { s with isa := .raw } rfl rfl (fun _ _ => rfl) rfl (Or.inl rfl)
      (fun _ => rfl) ⟨rfl, hlive.2, hown⟩ ?_
    intro P W P' W' hbal hP hW _ _ _
    replace hW : W' + s.owns t = W + s.owns t := hW
    replace hP : P' + 0 = P + s.isa.extraRc := hP
    rw [show P' = P + s.isa.extraRc by omega, show W' = W by omega]
    exact hbal.toRaw hlive
  · exact h.stay hp rfl rfl hown

theorem keeps_changeTranscribe (h : Inv arch s) {old : Isa} {stored : Bool}
    (hp : s.pc t = .changeTranscribe old) : Keeps arch s (advance arch s t stored) := by
  obtain ⟨hn, hd, hown⟩ := h.local_of hp
  obtain ⟨_, hlive, hsum, _⟩ := h.balanced.alive (Nat.lt_of_lt_of_le hown (le_sum s.owns t))
  obtain ⟨r, hr, hdead, hcount⟩ : ∃ r, s.side.getD .zero = r ∧ r.deallocating = false ∧
      sidetableGetExtraRC s.side = r.count := by
    refine ⟨_, rfl, ?_, getExtraRC_eq s.side⟩
    cases hs : s.side with
    | none => rfl
    | some r =>
      rw [hs] at hlive
      exact hlive
  have hle : old.extraRc ≤ ∑ u, (s.pc u).pending arch := by
    have := le_sum (fun u => (s.pc u).pending arch) t
    rw [hp] at this
    exact this
  unfold advance
  simp only [hp, sidetableMoveExtraRC, hr]
  by_cases hfit : r.count + old.extraRc < pinnedCount arch
  · rw [Refcnt.add_ok hfit]
    refine Keeps.ok (h.returns hp { s with side := some { r with
      count := r.count + old.extraRc
      deallocating := r.deallocating || old.deallocating
      weaklyReferenced := r.weaklyReferenced || old.weaklyReferenced } } rfl rfl (fun _ _ => rfl) rfl
      (Or.inl rfl) id ?_)
    intro P W P' W' hbal hP hW _ _ _
    replace hW : W' + s.owns t = W + s.owns t := hW
    replace hP : P' + old.extraRc = P := hP
    refine hbal.rawSide hn hlive (show (r.deallocating || old.deallocating) = false by
      rw [hdead, hd]; rfl) fun hsum => ?_
    show 1 + s.isa.extraRc + (r.count + old.extraRc) + P' = W'
    omega
  · rw [Refcnt.add_pinned hfit]
    exact Or.inr ⟨rfl, by omega⟩

/-! ## All steps -/

/-- **One step of any thread**, whether or not its store succeeds. -/
theorem keeps_advance (h : Inv arch s) (t : T) (stored : Bool) :
    Keeps arch s (advance arch s t stored) := by
  cases hp : s.pc t with
  | retainTranscribe tried => exact keeps_retainTranscribe h hp
  | sideRetain => exact keeps_sideRetain h hp
  | releaseReturn borrowed => exact keeps_releaseReturn h hp
  | sideRelease => exact keeps_sideRelease h hp
  | changeTranscribe old => exact keeps_changeTranscribe h hp
  | idle =>
    simp only [advance, hp]
    exact Keeps.ok h
  | retainLoad tried slow locked =>
    simp only [advance, hp]
    exact keeps_retainLoad h hp
  | retainLock old =>
    obtain ⟨hown, hlive, hfull⟩ := h.local_of hp
    simp only [advance, hp]
    exact Keeps.ok (h.lockThen hp rfl rfl
      ⟨by simp, fun _ => hown, by simp, hlive, fun _ => Or.inr rfl⟩)
  | retainStore tried slow locked old =>
    simp only [advance, hp]
    exact Keeps.ok (keeps_retainStore h hp)
  | releaseLoad slow locked =>
    simp only [advance, hp]
    exact Keeps.ok (inv_releaseLoad h hp)
  | releaseLock =>
    have hown : 0 < s.owns t := h.local_of hp
    simp only [advance, hp]
    exact Keeps.ok (h.lockThen hp rfl rfl ⟨hown, by simp⟩)
  | releaseStore slow locked old =>
    obtain ⟨hown, hslow, hlive, hx⟩ := h.local_of hp
    simp only [advance, hp]
    refine Keeps.ok ?_
    split
    · rename_i hstored
      have hlt := h.balanced.fits
      rw [hstored.1] at hlt
      refine inv_lose h hp rfl hown hstored.1 hlive (by omega) ?_
      show old.extraRc - 1 + 1 = old.extraRc + 0
      omega
    · exact h.stay hp rfl rfl ⟨hown, hslow⟩
  | releaseBorrow old =>
    simp only [advance, hp]
    exact keeps_releaseBorrow h hp
  | releaseBorrowed old borrowed =>
    simp only [advance, hp]
    exact Keeps.ok (inv_borrowed h hp)
  | releaseReload borrowed =>
    obtain ⟨hown, hb, hn⟩ := h.local_of hp
    simp only [advance, hp]
    refine Keeps.ok ?_
    split
    · rename_i hfit
      rw [Bool.and_eq_true] at hfit
      exact h.stay hp rfl rfl ⟨hown, hb, hn, hfit.2⟩
    · exact h.stay hp rfl rfl ⟨hown, hb, hn⟩
  | releaseRestore old borrowed =>
    simp only [advance, hp]
    exact Keeps.ok (inv_restore h hp)
  | releaseDealloc slow locked old =>
    simp only [advance, hp]
    exact keeps_releaseDealloc h hp
  | changeLoad locked =>
    have hown : 0 < s.owns t := h.local_of hp
    simp only [advance, hp]
    refine Keeps.ok ?_
    split
    · exact h.quit hp rfl rfl rfl trivial
    · rename_i hn
      have hlive := h.isa_live hown hn
      split
      · rename_i hl
        refine h.stay hp ?_ rfl ⟨hown, hlive⟩
        rw [hl]
        rfl
      · rename_i hl
        refine h.stay hp ?_ rfl ⟨hown, hlive⟩
        simp [Pc.holds, hl]
  | changeLock old =>
    have hlocal := h.local_of hp
    simp only [advance, hp]
    exact Keeps.ok (h.lockThen hp rfl rfl hlocal)
  | changeStore old =>
    simp only [advance, hp]
    exact Keeps.ok (inv_changeStore h hp)

/-- A reference that goes from an idle thread to another one. -/
theorem inv_hand (h : Inv arch s) (ht : s.pc t = .idle) (hown : 0 < s.owns t) (u : T) :
    Inv arch ((s.lose t).gain u) := by
  have hle := le_sum s.owns t
  have hlose := sum_off (t := t) (f := s.owns) (g := (s.lose t).owns)
    (fun v => lose_owns_of_ne s)
  have hgain := sum_off (t := u) (f := (s.lose t).owns) (g := ((s.lose t).gain u).owns)
    (fun v => gain_owns_of_ne _)
  rw [lose_owns] at hlose
  rw [gain_owns] at hgain
  refine ⟨?_, h.lock, fun v => ?_⟩
  · rw [show ∑ v, ((s.lose t).gain u).owns v = ∑ v, s.owns v by omega]
    exact h.balanced
  · have hv := h.local' v
    by_cases hvt : v = t
    · subst hvt
      rw [ht] at hv
      show Local arch s.isa.nonpointer s.side _ (s.pc v)
      rw [ht]
      exact hv
    · have hmono : s.owns v ≤ ((s.lose t).gain u).owns v := by
        by_cases hvu : v = u
        · subst hvu
          rw [gain_owns, lose_owns_of_ne s hvt]
          exact Nat.le_succ _
        · rw [gain_owns_of_ne _ hvu, lose_owns_of_ne s hvt]
      exact hv.mono_own hmono

theorem keeps_perform (h : Inv arch s) {a : Action T} (ha : allowed s a = true) :
    Keeps arch s (perform arch s a) := by
  cases a with
  | retain t =>
    simp only [allowed, Bool.and_eq_true, decide_eq_true_eq] at ha
    exact Keeps.ok (h.stay ha.1 rfl rfl ⟨by simp, fun _ => ha.2, fun _ => rfl⟩)
  | release t =>
    simp only [allowed, Bool.and_eq_true, decide_eq_true_eq] at ha
    exact Keeps.ok (h.stay ha.1 rfl rfl ⟨ha.2, fun _ => rfl⟩)
  | tryRetain t =>
    simp only [allowed, decide_eq_true_eq] at ha
    exact Keeps.ok (h.lockThen ha rfl rfl ⟨fun _ => rfl, by simp, fun _ => rfl⟩)
  | changeIsa t =>
    simp only [allowed, Bool.and_eq_true, decide_eq_true_eq] at ha
    exact Keeps.ok (h.stay ha.1 rfl rfl ha.2)
  | hand t u =>
    simp only [allowed, Bool.and_eq_true, decide_eq_true_eq] at ha
    exact Keeps.ok (inv_hand h ha.1 ha.2 u)
  | step t stored => exact keeps_advance h t stored

theorem step_inv (h : Inv arch s) {a : Action T} (hs : step arch s a = .ok s') : Inv arch s' := by
  unfold step at hs
  split at hs
  · rename_i ha
    rcases keeps_perform h ha with ⟨s1, e, h1⟩ | ⟨e, _⟩
    · rw [e] at hs
      cases hs
      exact h1
    · rw [e] at hs
      cases hs
  · cases hs

theorem inv_init (arch : Arch) (nonpointer : Bool) (t : T) : Inv arch (State.init nonpointer t) where
  balanced := by
    have hsum := sum_off (t := t) (f := fun _ : T => 0) (g := Function.update (fun _ => 0) t 1)
      fun u hu => Function.update_of_ne hu ..
    rw [Function.update_self, sum_const_zero] at hsum
    have hone : ∑ u, (State.init nonpointer t).owns u = 1 := hsum
    have hzero : ∑ u, ((State.init nonpointer t).pc u).pending arch = 0 :=
      sum_eq_zero fun _ _ => rfl
    rw [hone, hzero]
    refine ⟨fun _ _ => ⟨rfl, rfl⟩, ?_, ?_, fun _ _ => ⟨rfl, rfl⟩, Nat.two_pow_pos _,
      fun _ => ⟨rfl, rfl⟩⟩
    · rintro (hd | hd) <;> cases hd
    · intro _ r hr
      cases hr
  lock u := ⟨(by cases ·), (by cases ·)⟩
  local' u := trivial

/-- **References are counted.**  In every interleaving, with stores that fail as
often as they like: `-dealloc` is sent once, when the last reference is gone; until
then the object is not deallocating, and its retain count is the number of
references whenever the lock is free.  No step releases too often, and only a
count that the side table cannot have stops a run. -/
theorem run_counts {nonpointer : Bool} {as : List (Action T)}
    (h : run arch (State.init nonpointer t) as = .ok s) :
    s.deallocs = (if ∑ u, s.owns u = 0 then 1 else 0) ∧
      (0 < ∑ u, s.owns u → s.isa.deallocating = false ∧ sideDeallocating s.side = false ∧
        (s.lock = none → rootRetainCount s = ∑ u, s.owns u)) ∧
      ∀ a f, step arch s a = .error (.fault f) → f = .pinned ∧ pinnedCount arch ≤ ∑ u, s.owns u := by
  have hinv : Inv arch s :=
    Runs.foldlM_invariant (fun _ _ _ hi => step_inv hi) (inv_init arch nonpointer t) h
  refine ⟨?_, fun hpos => ?_, fun a f hs => ?_⟩
  · split
    · rename_i hz
      by_contra hne
      have hbal := hinv.balanced
      cases hd : s.isa.deallocating with
      | true => exact hne (hbal.dead (Or.inl hd)).2
      | false =>
        cases hs : sideDeallocating s.side with
        | true => exact hne (hbal.dead (Or.inr hs)).2
        | false =>
          have := (hbal.live hd hs).1
          omega
    · rename_i hz
      exact (hinv.balanced.alive (Nat.pos_of_ne_zero hz)).2.2.2
  · obtain ⟨hd, hs, hsum, _⟩ := hinv.balanced.alive hpos
    refine ⟨hd, hs, fun hfree => ?_⟩
    have hpend := hinv.pending_eq (t := t) fun u hu => by
      rw [hfree] at hu
      cases hu
    have hnone : (s.pc t).pending arch = 0 := by
      by_contra hp
      have := (hinv.lock t).mp (Pc.holds_of_pending hp)
      rw [hfree] at this
      cases this
    unfold rootRetainCount
    split
    · rename_i hn
      split
      · omega
      · rename_i hhas
        have := (hinv.balanced.flag hn (by simpa using hhas)).1
        omega
    · rename_i hn
      have := (hinv.balanced.raw (by simpa using hn)).1
      omega
  · unfold step at hs
    split at hs
    · rename_i ha
      rcases keeps_perform hinv ha with ⟨s1, e, _⟩ | ⟨e, hpin⟩
      · rw [e] at hs
        cases hs
      · rw [e] at hs
        cases hs
        exact ⟨rfl, hpin⟩
    · cases hs

end Invariant

/-- Two threads release the last two references; a store of the second one comes
too late, so that the first one gets ahead of it. -/
def lastTwo : List (Action (Fin 2)) :=
  [.retain 0, .step 0 true, .step 0 true, .hand 0 1, .release 0, .release 1, .step 0 true,
    .step 1 true, .step 0 true, .step 1 true, .step 1 true, .step 1 true]

theorem run_counts_lastTwo :
    ∃ s, run .x86_64 (State.init true 0) lastTwo = .ok s ∧ s.owns 0 + s.owns 1 = 0 ∧
      s.deallocs = 1 := by
  cases h : run .x86_64 (State.init true 0) lastTwo with
  | error e =>
    have hok : (run .x86_64 (State.init true 0) lastTwo).isOk = true := rfl
    rw [h] at hok
    cases hok
  | ok s =>
    have hz : (run .x86_64 (State.init true 0) lastTwo).toOption.map
        (fun s => s.owns 0 + s.owns 1) = some 0 := rfl
    rw [h] at hz
    injection hz with hz
    refine ⟨s, rfl, hz, (run_counts h).1.trans (if_pos ?_)⟩
    rw [Fin.sum_univ_two]
    exact hz

end BottomResearch.RetainCount
