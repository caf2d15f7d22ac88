import BottomResearch.Probing
import Mathlib.Data.List.Induction

/-!
# The method cache of a class

`objc-cache.mm`: the selectors that were sent to a class and the
implementations that they reached, in a hash table that is never more than
three quarters full.  A table that would become fuller is replaced by one of
twice the size, without its entries.  Proved here:

* `find_wf`: a search in a cache that meets the invariant (`WF`) ends, so that
  `bad_cache` is not reached;
* `cacheGetImp_eq_some_iff`: what the cache answers is what it has;
* `cacheFill_spec`, `cacheErase_spec`: what the operations leave in it;
* `run_sound`: along every run the invariant holds, a cached implementation was
  filled in after the last erasure, and fewer than 3·2²⁹ fillings never fail.
-/

namespace BottomResearch.MethodCache

open Probing

/-- A selector is a pointer, and the pointer is the key (`getKey`). -/
abbrev SEL := Nat

inductive Arch where
  | arm
  | i386
  | x86_64
  | arm64
  deriving DecidableEq, Repr

/-- The width of `mask_t`. -/
def maskBits : Arch → Nat
  | .arm | .i386 => 16
  | .x86_64 | .arm64 => 32

/-- `cache_next`. -/
def cacheNext (arch : Arch) (i mask : Nat) : Nat :=
  match arch with
  | .arm64 => if i = 0 then mask else i - 1
  | .arm | .i386 | .x86_64 => (i + 1) &&& mask

/-- `cache_hash`. -/
def cacheHash (key : SEL) (mask : Nat) : Nat := key &&& mask

def initCacheSize : Nat := 4

/-- `cache_t`.  A bucket whose key is 0 is a free slot.  `shared` tells that
the buckets are the read-only ones of `emptyBucketsForCapacity`, which are all
free and which no cache allocated for itself. -/
structure Cache (I : Type) where
  buckets : Slots SEL I
  shared : Bool
  mask : Nat
  occupied : Nat
  deriving DecidableEq, Repr

/-- What ends the process. -/
inductive Fatal where
  | badCache
  | newCapacity
  deriving DecidableEq, Repr

variable {I : Type}

namespace Cache

/-- `initializeToEmpty`. -/
def empty : Cache I := ⟨[none], true, 0, 0⟩

def capacity (c : Cache I) : Nat := if c.mask ≠ 0 then c.mask + 1 else 0

def isConstantEmptyCache (c : Cache I) : Bool := c.occupied = 0 && c.shared

/-- `cache_t::find`, before it looks at how the loop ended. -/
def find (arch : Arch) (c : Cache I) (k : SEL) : Outcome :=
  Probing.find (cacheNext arch · c.mask) (cacheHash · c.mask) c.buckets k

/-- The old entries are not carried over. -/
def reallocate (arch : Arch) (newCapacity : Nat) : Except Fatal (Cache I) :=
  if 0 < newCapacity ∧ (newCapacity - 1) % 2 ^ maskBits arch = newCapacity - 1 then
    .ok ⟨List.replicate newCapacity none, false, newCapacity - 1, 0⟩
  else .error .newCapacity

def expand (arch : Arch) (c : Cache I) : Except Fatal (Cache I) :=
  let oldCapacity := c.capacity
  let newCapacity := if oldCapacity ≠ 0 then oldCapacity * 2 % 2 ^ 32 else initCacheSize
  -- A mask that does not fit keeps the cache at its size.
  let newCapacity := if newCapacity % 2 ^ maskBits arch ≠ newCapacity then oldCapacity
    else newCapacity
  reallocate arch newCapacity

end Cache

/-- `cache_getImp`. -/
def cacheGetImp (arch : Arch) (c : Cache I) (sel : SEL) : Option I :=
  match c.find arch sel with
  | .found i _ => (slotAt c.buckets i).map (·.2)
  | _ => none

/-- The cache that an entry is about to be written to. -/
def makeRoom (arch : Arch) (c : Cache I) : Except Fatal (Cache I) :=
  let newOccupied := (c.occupied + 1) % 2 ^ maskBits arch
  let capacity := c.capacity
  if c.isConstantEmptyCache then
    Cache.reallocate arch (if capacity ≠ 0 then capacity else initCacheSize)
  else if newOccupied ≤ capacity / 4 * 3 then .ok c
  else c.expand arch

/-- The last lines of `cache_fill_nolock`. -/
def insertBucket (arch : Arch) (c : Cache I) (sel : SEL) (imp : I) : Except Fatal (Cache I) :=
  match c.find arch sel with
  | .found i _ =>
    .ok { c with
      buckets := c.buckets.set i (some (sel, imp))
      occupied := if (slotAt c.buckets i).isNone then c.occupied + 1 else c.occupied }
  | _ => .error .badCache

/-- `cache_fill_nolock` for a class that is initialized. -/
def cacheFill (arch : Arch) (c : Cache I) (sel : SEL) (imp : I) : Except Fatal (Cache I) :=
  match cacheGetImp arch c sel with
  | some _ => .ok c
  | none => do insertBucket arch (← makeRoom arch c) sel imp

/-- `cache_erase_nolock`. -/
def cacheErase (c : Cache I) : Cache I :=
  if 0 < c.capacity ∧ 0 < c.occupied then
    ⟨List.replicate c.capacity none, true, c.capacity - 1, 0⟩
  else c

/-! ## The order of the buckets -/

theorem cycle_cacheNext (arch : Arch) {k mask : Nat} (hk : mask + 1 = 2 ^ k) :
    Cycle (mask + 1) (cacheNext arch · mask) := by
  cases arch with
  | arm64 => exact cycle_backward (mask + 1)
  | arm => exact cycle_mask hk
  | i386 => exact cycle_mask hk
  | x86_64 => exact cycle_mask hk

/-! ## The invariant -/

/-- What every operation keeps. -/
structure WF (arch : Arch) (c : Cache I) : Prop where
  length : c.buckets.length = c.mask + 1
  power : ∃ k < maskBits arch, c.mask + 1 = 2 ^ k
  small : c.mask = 0 → c.shared = true
  least : c.mask ≠ 0 → 4 ≤ c.mask + 1
  count : c.occupied = c.buckets.countP (·.isSome)
  full : c.occupied ≤ c.capacity / 4 * 3
  free : c.shared = true → c.occupied = 0
  placed : Placed (cacheNext arch · c.mask) (cacheHash · c.mask) c.buckets

/-- The cache has this entry. -/
def Has (c : Cache I) (sel : SEL) (imp : I) : Prop := some (sel, imp) ∈ c.buckets

/-- A table of `n` free buckets. -/
def fresh (n : Nat) (shared : Bool) : Cache I := ⟨List.replicate n none, shared, n - 1, 0⟩

theorem not_has_fresh (n : Nat) (shared : Bool) (sel : SEL) (imp : I) :
    ¬ Has (fresh n shared) sel imp := by
  intro h
  cases List.eq_of_mem_replicate h

theorem capacity_fresh {n : Nat} (hn : 4 ≤ n) (shared : Bool) :
    (fresh n shared : Cache I).capacity = n := by
  show (if n - 1 ≠ 0 then n - 1 + 1 else 0) = n
  rw [if_pos (by omega)]
  omega

theorem wf_fresh {arch : Arch} {k : Nat} (h2 : 2 ≤ k) (hk : k < maskBits arch) (shared : Bool) :
    WF arch (fresh (2 ^ k) shared : Cache I) := by
  have h4 : 2 ^ 2 ≤ 2 ^ k := Nat.pow_le_pow_right (by omega) h2
  have hpos : 2 ^ k - 1 + 1 = 2 ^ k := by omega
  refine ⟨?_, ⟨k, hk, hpos⟩, ?_, ?_, ?_, ?_, fun _ => rfl, ?_⟩
  · show (List.replicate (2 ^ k) none).length = 2 ^ k - 1 + 1
    rw [List.length_replicate, hpos]
  · intro h
    have : 2 ^ k - 1 = 0 := h
    omega
  · intro _
    show 4 ≤ 2 ^ k - 1 + 1
    omega
  · show 0 = (List.replicate (2 ^ k) none).countP _
    rw [List.countP_replicate]
    rfl
  · exact Nat.zero_le _
  · exact placed_of_free fun i => slotAt_replicate (2 ^ k) i

theorem wf_empty (arch : Arch) : WF arch (Cache.empty : Cache I) where
  length := rfl
  power := ⟨0, by cases arch <;> decide, rfl⟩
  small _ := rfl
  least h := absurd rfl h
  count := rfl
  full := Nat.zero_le _
  free _ := rfl
  placed := placed_of_free fun i => slotAt_replicate 1 i

theorem reallocate_ok {arch : Arch} {k : Nat} (hk : k < maskBits arch) :
    (Cache.reallocate arch (2 ^ k) : Except Fatal (Cache I)) = .ok (fresh (2 ^ k) false) := by
  have hlt : 2 ^ k < 2 ^ maskBits arch := Nat.pow_lt_pow_right (by omega) hk
  have hpos : 0 < 2 ^ k := Nat.pow_pos (by omega)
  unfold Cache.reallocate
  rw [if_pos ⟨hpos, Nat.mod_eq_of_lt (by omega)⟩]
  rfl

/-! ## Searching -/

section Find

variable {arch : Arch} {c : Cache I}

theorem capacity_eq (hm : c.mask ≠ 0) : c.capacity = c.mask + 1 := by
  unfold Cache.capacity
  rw [if_pos hm]

theorem WF.occupied_lt (h : WF arch c) : c.occupied < c.mask + 1 := by
  have := h.full
  unfold Cache.capacity at this
  split at this <;> omega

theorem WF.cycle (h : WF arch c) : Cycle c.buckets.length (cacheNext arch · c.mask) := by
  obtain ⟨k, _, hk⟩ := h.power
  rw [h.length]
  exact cycle_cacheNext arch hk

theorem WF.hash_lt (h : WF arch c) (key : SEL) : cacheHash key c.mask < c.buckets.length := by
  obtain ⟨k, _, hk⟩ := h.power
  rw [h.length]
  exact and_mask_lt hk key

theorem WF.exists_free (h : WF arch c) : ∃ i < c.buckets.length, slotAt c.buckets i = none := by
  apply Probing.exists_free
  rw [← h.count, h.length]
  exact h.occupied_lt

/-- **No corruption.**  The loop of `find` ends at the bucket of the selector, or at a
free one when the cache has no bucket of the selector. -/
theorem find_wf (h : WF arch c) (k : SEL) :
    ∃ i d, c.find arch k = .found i d ∧ i < c.buckets.length ∧
      ((∃ imp, slotAt c.buckets i = some (k, imp)) ∨
        slotAt c.buckets i = none ∧ ∀ imp, ¬ Has c k imp) := by
  obtain ⟨i, d, hf, hi, hcase⟩ := find_spec h.cycle h.hash_lt h.placed h.exists_free k
  refine ⟨i, d, hf, hi, ?_⟩
  rcases hcase with hown | ⟨hnone, habsent⟩
  · exact Or.inl hown
  · refine Or.inr ⟨hnone, fun imp hhas => ?_⟩
    obtain ⟨j, _, hj⟩ := mem_iff_slotAt.mp hhas
    exact habsent j imp hj

theorem cacheGetImp_eq_some_iff (h : WF arch c) (k : SEL) (imp : I) :
    cacheGetImp arch c k = some imp ↔ Has c k imp := by
  obtain ⟨i, d, hf, hi, hcase⟩ := find_wf h k
  unfold cacheGetImp
  rw [hf]
  rcases hcase with ⟨imp', hown⟩ | ⟨hnone, habsent⟩
  · show (slotAt c.buckets i).map (·.2) = some imp ↔ _
    rw [hown]
    constructor
    · intro he
      cases he
      exact mem_iff_slotAt.mpr ⟨i, hi, hown⟩
    · intro hhas
      obtain ⟨j, _, hj⟩ := mem_iff_slotAt.mp hhas
      rw [h.placed.unique h.cycle h.hash_lt hj hown, hown] at hj
      cases hj
      rfl
  · show (slotAt c.buckets i).map (·.2) = some imp ↔ _
    rw [hnone]
    exact ⟨nofun, fun hhas => absurd hhas (habsent imp)⟩

theorem Has.unique (h : WF arch c) {k : SEL} {imp imp' : I} (h1 : Has c k imp)
    (h2 : Has c k imp') : imp = imp' := by
  have e1 := (cacheGetImp_eq_some_iff h k imp).mpr h1
  rw [(cacheGetImp_eq_some_iff h k imp').mpr h2] at e1
  exact (Option.some.inj e1).symm

theorem cacheGetImp_eq_none (h : WF arch c) {k : SEL} (hn : cacheGetImp arch c k = none) (imp : I) :
    ¬ Has c k imp := by
  intro hhas
  rw [(cacheGetImp_eq_some_iff h k imp).mpr hhas] at hn
  cases hn

end Find

/-! ## Filling -/

section Fill

variable {arch : Arch} {c : Cache I}

/-- The size at which a cache can grow no further and may not stay. -/
def Overflows (arch : Arch) (c : Cache I) : Prop := maskBits arch = 32 ∧ c.capacity = 2 ^ 31

/-- A cache that has room for one more entry. -/
structure Roomy (arch : Arch) (c : Cache I) : Prop extends WF arch c where
  own : c.shared = false
  room : c.occupied + 1 ≤ c.capacity / 4 * 3

theorem roomy_fresh {k : Nat} (h2 : 2 ≤ k) (hk : k < maskBits arch) :
    Roomy arch (fresh (2 ^ k) false : Cache I) where
  toWF := wf_fresh h2 hk false
  own := rfl
  room := by
    have h4 : 2 ^ 2 ≤ 2 ^ k := Nat.pow_le_pow_right (by omega) h2
    rw [capacity_fresh h4]
    show 0 + 1 ≤ _
    omega

theorem two_le_of_four_le {k n : Nat} (hn : n = 2 ^ k) (h4 : 4 ≤ n) : 2 ≤ k := by
  rcases k with _ | _ | k
  · omega
  · omega
  · omega

theorem maskBits_cases (arch : Arch) : maskBits arch = 16 ∨ maskBits arch = 32 := by
  cases arch <;> decide

/-- A cache that grows becomes an empty one, unless its size overflows. -/
theorem expand_spec (h : WF arch c) (hm : c.mask ≠ 0) :
    (∃ c', c.expand arch = .ok c' ∧ Roomy arch c' ∧ c'.occupied = 0 ∧
        ∀ sel imp, ¬ Has c' sel imp) ∨
      c.expand arch = .error .newCapacity ∧ Overflows arch c := by
  obtain ⟨k, hk, hpow⟩ := h.power
  have hcap : c.capacity = 2 ^ k := by rw [capacity_eq hm, hpow]
  have h2 : 2 ≤ k := two_le_of_four_le hpow (h.least hm)
  have hne : c.capacity ≠ 0 := by
    rw [hcap]
    exact Nat.pos_iff_ne_zero.mp (Nat.pow_pos (by omega))
  have grown : ∀ j, 2 ≤ j → j < maskBits arch → ∃ c',
      (Cache.reallocate arch (2 ^ j) : Except Fatal (Cache I)) = .ok c' ∧ Roomy arch c' ∧
        c'.occupied = 0 ∧ ∀ sel imp, ¬ Has c' sel imp := fun j hj hjk =>
    ⟨_, reallocate_ok hjk, roomy_fresh hj hjk, rfl, not_has_fresh _ _⟩
  unfold Cache.expand
  simp only [if_pos hne]
  rcases Nat.lt_or_ge (k + 1) (maskBits arch) with hlt | hge
  · have hfits : 2 ^ k * 2 < 2 ^ maskBits arch := by
      rw [← Nat.pow_succ]
      exact Nat.pow_lt_pow_right (by omega) hlt
    have h32 : 2 ^ maskBits arch ≤ 2 ^ 32 := by
      apply Nat.pow_le_pow_right (by decide)
      rcases maskBits_cases arch with e | e <;> omega
    have hmod : 2 ^ k * 2 % 2 ^ 32 = 2 ^ k * 2 := Nat.mod_eq_of_lt (by omega)
    rw [hcap, hmod, Nat.mod_eq_of_lt hfits, if_neg (fun hne => hne rfl), ← Nat.pow_succ]
    exact Or.inl (grown (k + 1) (by omega) hlt)
  · have hlast : k + 1 = maskBits arch := by omega
    rcases maskBits_cases arch with e | e
    · have hk15 : k = 15 := by omega
      rw [hcap, hk15, e]
      exact Or.inl (grown 15 (by omega) (by omega))
    · have hk31 : k = 31 := by omega
      refine Or.inr ⟨?_, e, by rw [hcap, hk31]⟩
      rw [hcap, hk31, e]
      rfl

theorem makeRoom_spec (h : WF arch c) :
    (∃ c', makeRoom arch c = .ok c' ∧ Roomy arch c' ∧ c'.occupied ≤ c.occupied ∧
        ∀ sel imp, Has c' sel imp → Has c sel imp) ∨
      makeRoom arch c = .error .newCapacity ∧ Overflows arch c ∧
        c.capacity / 4 * 3 ≤ c.occupied := by
  have hbits := maskBits_cases arch
  obtain ⟨k, hk, hpow⟩ := h.power
  have hlt : c.occupied + 1 < 2 ^ maskBits arch ∨ c.mask = 0 := by
    rcases Nat.eq_zero_or_pos c.mask with hz | hm
    · exact Or.inr hz
    · have hle : 2 ^ k < 2 ^ maskBits arch := Nat.pow_lt_pow_right (by omega) hk
      have := h.occupied_lt
      omega
  unfold makeRoom
  cases hconst : c.isConstantEmptyCache with
  | true =>
    simp only [if_true]
    refine Or.inl ?_
    have hpos : ∃ j, 2 ≤ j ∧ j < maskBits arch ∧
        (if c.capacity ≠ 0 then c.capacity else initCacheSize) = 2 ^ j := by
      rcases Nat.eq_zero_or_pos c.mask with hz | hm
      · refine ⟨2, by omega, by omega, ?_⟩
        have : c.capacity = 0 := by
          unfold Cache.capacity
          rw [if_neg (by omega)]
        rw [if_neg (by omega)]
        rfl
      · have hcap := capacity_eq (c := c) (by omega)
        refine ⟨k, two_le_of_four_le hpow (h.least (by omega)), hk, ?_⟩
        rw [if_pos (by omega), hcap, hpow]
    obtain ⟨j, h2, hj, e⟩ := hpos
    rw [e, reallocate_ok hj]
    exact ⟨_, rfl, roomy_fresh h2 hj, Nat.zero_le _, fun sel imp hhas =>
      absurd hhas (not_has_fresh _ _ sel imp)⟩
  | false =>
    have hown : c.mask ≠ 0 ∧ c.shared = false := by
      unfold Cache.isConstantEmptyCache at hconst
      cases hs : c.shared with
      | true =>
        rw [hs, h.free hs] at hconst
        cases hconst
      | false =>
        refine ⟨fun hz => ?_, rfl⟩
        rw [h.small hz] at hs
        cases hs
    have hmod : (c.occupied + 1) % 2 ^ maskBits arch = c.occupied + 1 :=
      Nat.mod_eq_of_lt (hlt.resolve_right hown.1)
    simp only [Bool.false_eq_true, if_false, hmod]
    split
    · rename_i hroom
      exact Or.inl ⟨c, rfl, ⟨h, hown.2, hroom⟩, Nat.le_refl _, fun _ _ hh => hh⟩
    · rename_i hroom
      rcases expand_spec h hown.1 with ⟨c', e, hc', hz, hnone⟩ | ⟨e, hover⟩
      · exact Or.inl ⟨c', e, hc', by omega, fun sel imp hh => absurd hh (hnone sel imp)⟩
      · exact Or.inr ⟨e, hover, by omega⟩

theorem insertBucket_spec (h : Roomy arch c) {sel : SEL} (hnew : ∀ imp, ¬ Has c sel imp) (imp : I) :
    ∃ c', insertBucket arch c sel imp = .ok c' ∧ WF arch c' ∧ c'.occupied = c.occupied + 1 ∧
      ∀ s i, Has c' s i ↔ s = sel ∧ i = imp ∨ s ≠ sel ∧ Has c s i := by
  obtain ⟨i, d, hf, hi, hcase⟩ := find_wf h.toWF sel
  have hnone : slotAt c.buckets i = none := by
    rcases hcase with ⟨imp', hown⟩ | ⟨hnone, _⟩
    · exact absurd (mem_iff_slotAt.mpr ⟨i, hi, hown⟩) (hnew imp')
    · exact hnone
  have hcount := countP_set hi (some (sel, imp))
  unfold insertBucket
  rw [hf]
  simp only [hnone, Option.isNone_none, if_true]
  refine ⟨_, rfl, ⟨?_, h.power, h.small, h.least, ?_, h.room, ?_, ?_⟩, rfl, ?_⟩
  · show (c.buckets.set i _).length = _
    rw [List.length_set]
    exact h.length
  · rw [hnone] at hcount
    have := h.count
    simp only [Option.isSome_none, Option.isSome_some, Bool.false_eq_true, if_false, if_true]
      at hcount
    show c.occupied + 1 = (c.buckets.set i _).countP _
    omega
  · intro hs
    rw [h.own] at hs
    cases hs
  · exact placed_set h.cycle h.hash_lt h.placed hf imp
  · intro s j
    show some (s, j) ∈ c.buckets.set i _ ↔ _
    rw [mem_set_iff h.cycle h.hash_lt h.placed hf imp, Prod.mk.injEq]
    rfl

/-- **Filling.**  Afterwards the selector is cached, with the implementation it had
or the new one, and nothing else is new; only an overflowing size fails. -/
theorem cacheFill_spec (h : WF arch c) (sel : SEL) (imp : I) :
    (∃ c', cacheFill arch c sel imp = .ok c' ∧ WF arch c' ∧ c'.occupied ≤ c.occupied + 1 ∧
        Has c' sel ((cacheGetImp arch c sel).getD imp) ∧
        ∀ s i, Has c' s i → Has c s i ∨ s = sel ∧ i = imp ∧ ∀ j, ¬ Has c sel j) ∨
      cacheFill arch c sel imp = .error .newCapacity ∧ Overflows arch c ∧
        c.capacity / 4 * 3 ≤ c.occupied := by
  unfold cacheFill
  cases hget : cacheGetImp arch c sel with
  | some i =>
    exact Or.inl ⟨c, rfl, h, by omega, (cacheGetImp_eq_some_iff h sel i).mp hget,
      fun _ _ hh => Or.inl hh⟩
  | none =>
    have hnew := cacheGetImp_eq_none h hget
    rcases makeRoom_spec h with ⟨c1, e1, h1, hle, hsub⟩ | ⟨e, hover, hfull⟩
    · obtain ⟨c2, e2, h2, hocc, hhas⟩ :=
        insertBucket_spec h1 (fun i hi => hnew i (hsub sel i hi)) imp
      refine Or.inl ⟨c2, ?_, h2, by omega, (hhas sel imp).mpr (Or.inl ⟨rfl, rfl⟩), ?_⟩
      · show (makeRoom arch c >>= fun c' => insertBucket arch c' sel imp) = .ok c2
        rw [e1]
        exact e2
      · intro s i hsi
        rcases (hhas s i).mp hsi with ⟨rfl, rfl⟩ | ⟨_, hold⟩
        · exact Or.inr ⟨rfl, rfl, hnew⟩
        · exact Or.inl (hsub s i hold)
    · refine Or.inr ⟨?_, hover, hfull⟩
      show (makeRoom arch c >>= fun c' => insertBucket arch c' sel imp) = .error .newCapacity
      rw [e]
      rfl

end Fill

/-! ## Erasing -/

theorem not_has_of_occupied {arch : Arch} {c : Cache I} (h : WF arch c) (h0 : c.occupied = 0)
    (sel : SEL) (imp : I) : ¬ Has c sel imp := by
  intro hhas
  have hpos : 0 < c.buckets.countP (·.isSome) := List.countP_pos_iff.mpr ⟨_, hhas, rfl⟩
  have := h.count
  omega

theorem cacheErase_spec {arch : Arch} {c : Cache I} (h : WF arch c) :
    WF arch (cacheErase c) ∧ (cacheErase c).occupied = 0 ∧
      ∀ sel imp, ¬ Has (cacheErase c) sel imp := by
  unfold cacheErase
  split
  · rename_i hpos
    obtain ⟨k, hk, hpow⟩ := h.power
    have hm : c.mask ≠ 0 := fun hz => by
      have := h.free (h.small hz)
      omega
    have hcap : c.capacity = 2 ^ k := by rw [capacity_eq hm, hpow]
    rw [hcap]
    exact ⟨wf_fresh (two_le_of_four_le hpow (h.least hm)) hk true, rfl, not_has_fresh _ true⟩
  · rename_i hpos
    have h0 : c.occupied = 0 := by
      have := h.full
      omega
    exact ⟨h, h0, not_has_of_occupied h h0⟩

theorem cacheErase_occupied_le (c : Cache I) : (cacheErase c).occupied ≤ c.occupied := by
  unfold cacheErase
  split
  · exact Nat.zero_le _
  · exact Nat.le_refl _

/-! ## Runs -/

inductive Op (I : Type) where
  | fill (sel : SEL) (imp : I)
  | erase

def step (arch : Arch) (r : Except Fatal (Cache I)) : Op I → Except Fatal (Cache I)
  | .fill sel imp => r >>= fun c => cacheFill arch c sel imp
  | .erase => r.map cacheErase

/-- A run from the cache of a new class. -/
def run (arch : Arch) (ops : List (Op I)) : Except Fatal (Cache I) :=
  ops.foldl (step arch) (.ok Cache.empty)

/-- The entries that were offered after the last erasure. -/
def offered (ops : List (Op I)) : List (SEL × I) :=
  ops.foldl (fun l op => match op with
    | .fill sel imp => l ++ [(sel, imp)]
    | .erase => []) []

def isFill : Op I → Bool
  | .fill _ _ => true
  | .erase => false

/-- What a run leads to. -/
def Sound (arch : Arch) (ops : List (Op I)) : Except Fatal (Cache I) → Prop
  | .ok c => WF arch c ∧ c.occupied ≤ ops.countP isFill ∧
      (∀ sel imp, cacheGetImp arch c sel = some imp → (sel, imp) ∈ offered ops) ∧
      ∀ pre sel imp, ops = pre ++ [.fill sel imp] → ∃ b, run arch pre = .ok b ∧
        cacheGetImp arch c sel = some ((cacheGetImp arch b sel).getD imp)
  | .error e => e = .newCapacity ∧ maskBits arch = 32 ∧ 3 * 2 ^ 29 ≤ ops.countP isFill

theorem offered_fill (ops : List (Op I)) (sel : SEL) (imp : I) :
    offered (ops ++ [.fill sel imp]) = offered ops ++ [(sel, imp)] := by
  unfold offered
  rw [List.foldl_append]
  rfl

theorem run_snoc (arch : Arch) (ops : List (Op I)) (op : Op I) :
    run arch (ops ++ [op]) = step arch (run arch ops) op := by
  unfold run
  rw [List.foldl_append]
  rfl

theorem sound_step {arch : Arch} {ops : List (Op I)} {r : Except Fatal (Cache I)}
    (h : Sound arch ops r) (hr : r = run arch ops) (op : Op I) :
    Sound arch (ops ++ [op]) (step arch r op) := by
  have hcount : ops.countP isFill ≤ (ops ++ [op]).countP isFill := by
    rw [List.countP_append]
    omega
  cases r with
  | error e =>
    have he : Sound arch (ops ++ [op]) (.error e : Except Fatal (Cache I)) :=
      ⟨h.1, h.2.1, Nat.le_trans h.2.2 hcount⟩
    cases op <;> exact he
  | ok c =>
    obtain ⟨hwf, hocc, hoff, _⟩ := h
    cases op with
    | fill sel imp =>
      show Sound arch _ (cacheFill arch c sel imp)
      have hrun : .ok c = run arch ops := hr
      have hone : (ops ++ [Op.fill sel imp]).countP isFill = ops.countP isFill + 1 := by
        rw [List.countP_append]
        rfl
      rcases cacheFill_spec hwf sel imp with ⟨c', e, hwf', hle, hin, hnew⟩ | ⟨e, hover, hfull⟩
      · rw [e]
        refine ⟨hwf', by omega, fun s i hsi => ?_, fun pre s i hlast => ?_⟩
        · rw [offered_fill]
          rcases hnew s i ((cacheGetImp_eq_some_iff hwf' s i).mp hsi) with hold | ⟨rfl, rfl, _⟩
          · exact List.mem_append_left _ (hoff s i ((cacheGetImp_eq_some_iff hwf s i).mpr hold))
          · exact List.mem_append_right _ List.mem_cons_self
        · obtain ⟨rfl, hop⟩ := List.append_inj' hlast rfl
          cases hop
          exact ⟨c, hrun.symm, (cacheGetImp_eq_some_iff hwf' sel _).mpr hin⟩
      · rw [e]
        refine ⟨rfl, hover.1, ?_⟩
        have := hover.2
        omega
    | erase =>
      obtain ⟨hwf', h0, hnone⟩ := cacheErase_spec hwf
      refine ⟨hwf', by rw [h0]; omega, fun s i hsi => ?_, fun pre s i hlast => ?_⟩
      · exact absurd ((cacheGetImp_eq_some_iff hwf' s i).mp hsi) (hnone s i)
      · cases (List.append_inj' hlast rfl).2

/-- **The cache along every run** is never found corrupt and is at most three
quarters full; what it answers was offered after the last erasure, and a selector that
was just filled in is answered, with the new implementation if it had none.  A run fails
only on a 64-bit machine, after 3·2²⁹ fillings. -/
theorem run_sound (arch : Arch) (ops : List (Op I)) : Sound arch ops (run arch ops) := by
  induction ops using List.reverseRecOn with
  | nil =>
    have hwf : WF arch (Cache.empty : Cache I) := wf_empty arch
    refine ⟨hwf, Nat.le_refl 0, fun sel imp h => ?_, fun pre sel imp h => ?_⟩
    · exact absurd ((cacheGetImp_eq_some_iff hwf sel imp).mp h)
        (not_has_of_occupied hwf rfl sel imp)
    · simp at h
  | append_singleton ops op ih =>
    rw [run_snoc]
    exact sound_step ih rfl op

end BottomResearch.MethodCache
