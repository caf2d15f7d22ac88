import Mathlib.Algebra.Group.Nat.Defs
import Mathlib.Data.List.GetD
import Mathlib.Data.List.Nodup
import Mathlib.Data.List.Perm.Subperm
import Mathlib.Logic.Function.Iterate

/-!
# Hash tables with open addressing

The slots of a table are visited in a cyclic order, from the slot that a key
hashes to.  A search ends at a slot that it looks for, back at its start, or
beyond a limit on the displacement.  Keys, values and the cyclic order are
arbitrary.  Proved here:

* `probe_eq_found_iff`, `probe_eq_wrapped`, `probe_eq_exceeded`: where a search
  ends;
* `cycle_forward`, `cycle_mask`, `cycle_backward`: the orders that step to the
  neighbour;
* `find_spec`: in a table where no slot was ever cleared, one search tells
  whether a key is there (`Placed`), and `placed_set` keeps it so;
* `locate_spec`: in a table that clears slots and remembers the largest
  displacement, a search within that limit finds each key (`Within`);
* `Counted.insert_spec`, `Counted.refill_spec`, `Counted.clear_spec`,
  `Counted.setValue_spec`: the operations on such a table, and moving its entries
  to another one.
-/

namespace BottomResearch.Probing

/-- Where a search ends. -/
inductive Outcome where
  | found (index displacement : Nat)
  | wrapped
  | exceeded
  deriving DecidableEq, Repr

/-- One turn of the loop looks at a slot, moves on, and gives up back at the
start or beyond the limit. -/
def scan (next : Nat → Nat) (stop : Nat → Bool) (start limit : Nat) : Nat → Nat → Nat → Outcome
  | 0, _, _ => .wrapped
  | fuel + 1, index, displacement =>
    if stop index then .found index displacement
    else if next index = start then .wrapped
    else if limit < displacement + 1 then .exceeded
    else scan next stop start limit fuel (next index) (displacement + 1)

/-- A search in a table of `n` slots. -/
def probe (n : Nat) (next : Nat → Nat) (stop : Nat → Bool) (start limit : Nat) : Outcome :=
  scan next stop start limit n start 0

/-- `next` runs through all slots below `n`. -/
structure Cycle (n : Nat) (next : Nat → Nat) : Prop where
  lt : ∀ i < n, next i < n
  turn : ∀ i < n, next^[n] i = i
  ret : ∀ i < n, ∀ d, 0 < d → d < n → next^[d] i ≠ i
  reach : ∀ i < n, ∀ j < n, ∃ d < n, next^[d] i = j

/-! ## Searching -/

section Search

variable {n : Nat} {next : Nat → Nat} {stop : Nat → Bool} {start limit : Nat}

theorem Cycle.iterate_lt (c : Cycle n next) {i : Nat} (hi : i < n) (d : Nat) :
    next^[d] i < n := by
  induction d with
  | zero => exact hi
  | succ d ih =>
    rw [Function.iterate_succ_apply']
    exact c.lt _ ih

/-- What the outcome of a search says, when the first `d` slots were looked at before. -/
def Outcome.Tells (n : Nat) (next : Nat → Nat) (stop : Nat → Bool) (start limit d : Nat) :
    Outcome → Prop
  | .found i e => i = next^[e] start ∧ d ≤ e ∧ e < n ∧ e ≤ limit ∧ stop i = true ∧
      ∀ k, d ≤ k → k < e → stop (next^[k] start) = false
  | .wrapped => n ≤ limit + 1 ∧ ∀ k, d ≤ k → k < n → stop (next^[k] start) = false
  | .exceeded => limit + 1 < n ∧ ∀ k, d ≤ k → k ≤ limit → stop (next^[k] start) = false

theorem Outcome.Tells.pred {o : Outcome} {d : Nat} (h : o.Tells n next stop start limit (d + 1))
    (hd : stop (next^[d] start) = false) : o.Tells n next stop start limit d := by
  have split : ∀ {k : Nat}, d ≤ k → k = d ∨ d + 1 ≤ k := by omega
  cases o with
  | found i e =>
    obtain ⟨hi, hde, hen, hel, hs, hfree⟩ := h
    refine ⟨hi, by omega, hen, hel, hs, fun k hk hke => ?_⟩
    rcases split hk with rfl | hk
    · exact hd
    · exact hfree k hk hke
  | wrapped =>
    refine ⟨h.1, fun k hk hkn => ?_⟩
    rcases split hk with rfl | hk
    · exact hd
    · exact h.2 k hk hkn
  | exceeded =>
    refine ⟨h.1, fun k hk hkl => ?_⟩
    rcases split hk with rfl | hk
    · exact hd
    · exact h.2 k hk hkl

theorem scan_tells (c : Cycle n next) (hs : start < n) :
    ∀ fuel d, fuel + d = n → 0 < fuel → d ≤ limit →
      (scan next stop start limit fuel (next^[d] start) d).Tells n next stop start limit d := by
  intro fuel
  induction fuel with
  | zero => intro d _ h0; omega
  | succ fuel ih =>
    intro d hn _ hdl
    have hnext : next (next^[d] start) = next^[d + 1] start :=
      (Function.iterate_succ_apply' next d start).symm
    unfold scan
    cases hstop : stop (next^[d] start) with
    | true =>
      simp only [if_true]
      exact ⟨rfl, Nat.le_refl d, by omega, hdl, hstop, fun k h1 h2 => by omega⟩
    | false =>
      simp only [Bool.false_eq_true, if_false, hnext]
      split
      · -- Back at the start: the displacement has gone through the whole cycle.
        rename_i hback
        have hlast : ¬ d + 1 < n := fun h => c.ret start hs (d + 1) (by omega) h hback
        refine ⟨by omega, fun k h1 h2 => ?_⟩
        have : k = d := by omega
        rw [this, hstop]
      · rename_i hback
        have hmore : d + 1 < n := by
          have : d + 1 ≠ n := fun h => hback (h ▸ c.turn start hs)
          omega
        split
        · refine ⟨by omega, fun k h1 h2 => ?_⟩
          have : k = d := by omega
          rw [this, hstop]
        · exact (ih (d + 1) (by omega) (by omega) (by omega)).pred hstop

theorem probe_tells (c : Cycle n next) (hs : start < n) (stop : Nat → Bool) (limit : Nat) :
    (probe n next stop start limit).Tells n next stop start limit 0 :=
  scan_tells c hs n 0 rfl (by omega) (by omega)

theorem probe_eq_wrapped (c : Cycle n next) (hs : start < n)
    (h : probe n next stop start limit = .wrapped) :
    n ≤ limit + 1 ∧ ∀ j < n, stop j = false := by
  have ht := probe_tells c hs stop limit
  rw [h] at ht
  refine ⟨ht.1, fun j hj => ?_⟩
  obtain ⟨d, hd, rfl⟩ := c.reach start hs j hj
  exact ht.2 d (by omega) hd

theorem probe_eq_exceeded (c : Cycle n next) (hs : start < n)
    (h : probe n next stop start limit = .exceeded) :
    limit + 1 < n ∧ ∀ d ≤ limit, stop (next^[d] start) = false := by
  have ht := probe_tells c hs stop limit
  rw [h] at ht
  exact ⟨ht.1, fun d hd => ht.2 d (by omega) hd⟩

theorem probe_eq_found (c : Cycle n next) (hs : start < n) {i d : Nat}
    (h : probe n next stop start limit = .found i d) :
    i = next^[d] start ∧ d < n ∧ d ≤ limit ∧ stop i = true ∧
      ∀ k < d, stop (next^[k] start) = false := by
  have ht := probe_tells c hs stop limit
  rw [h] at ht
  obtain ⟨hi, _, hn, hl, hstop, hfree⟩ := ht
  exact ⟨hi, hn, hl, hstop, fun k hk => hfree k (by omega) hk⟩

/-- A search ends at the first slot that it looks for, when that is within the limit. -/
theorem probe_eq_found_iff (c : Cycle n next) (hs : start < n) {i d : Nat} :
    probe n next stop start limit = .found i d ↔
      i = next^[d] start ∧ d < n ∧ d ≤ limit ∧ stop i = true ∧
        ∀ k < d, stop (next^[k] start) = false := by
  constructor
  · exact probe_eq_found c hs
  · rintro ⟨rfl, hn, hl, hstop, hfree⟩
    cases h : probe n next stop start limit with
    | found j e =>
      obtain ⟨rfl, _, _, hstop', hfree'⟩ := probe_eq_found c hs h
      rcases Nat.lt_trichotomy d e with hde | rfl | hed
      · rw [hfree' d hde] at hstop
        cases hstop
      · rfl
      · rw [hfree e hed] at hstop'
        cases hstop'
    | wrapped =>
      rw [(probe_eq_wrapped c hs h).2 _ (c.iterate_lt hs d)] at hstop
      cases hstop
    | exceeded =>
      rw [(probe_eq_exceeded c hs h).2 d hl] at hstop
      cases hstop

end Search

/-! ## The two neighbour orders -/

theorem iterate_forward (n : Nat) (i d : Nat) (hi : i < n) :
    (fun i => (i + 1) % n)^[d] i = (i + d) % n := by
  induction d with
  | zero => exact (Nat.mod_eq_of_lt hi).symm
  | succ d ih =>
    rw [Function.iterate_succ_apply', ih, Nat.mod_add_mod, Nat.add_assoc]

theorem cycle_forward (n : Nat) : Cycle n fun i => (i + 1) % n where
  lt i hi := Nat.mod_lt _ (by omega)
  turn i hi := by rw [iterate_forward n i n hi, Nat.add_mod_right, Nat.mod_eq_of_lt hi]
  ret i hi d h0 hd := by
    rw [iterate_forward n i d hi]
    rcases Nat.lt_or_ge (i + d) n with h | h
    · rw [Nat.mod_eq_of_lt h]
      omega
    · rw [Nat.mod_eq_sub_mod h, Nat.mod_eq_of_lt (by omega)]
      omega
  reach i hi j hj := by
    rcases Nat.lt_or_ge j i with h | h
    · refine ⟨j + n - i, by omega, ?_⟩
      rw [iterate_forward n i _ hi, show i + (j + n - i) = j + n by omega, Nat.add_mod_right,
        Nat.mod_eq_of_lt hj]
    · refine ⟨j - i, by omega, ?_⟩
      rw [iterate_forward n i _ hi, show i + (j - i) = j by omega, Nat.mod_eq_of_lt hj]

theorem and_mask {k mask : Nat} (hk : mask + 1 = 2 ^ k) (x : Nat) :
    x &&& mask = x % (mask + 1) := by
  rw [hk, ← Nat.and_two_pow_sub_one_eq_mod, show mask = 2 ^ k - 1 by omega]

/-- The next slot, when the number of slots is a power of two. -/
theorem cycle_mask {k mask : Nat} (hk : mask + 1 = 2 ^ k) :
    Cycle (mask + 1) fun i => (i + 1) &&& mask := by
  have hsame : (fun i => (i + 1) &&& mask) = fun i => (i + 1) % (mask + 1) :=
    funext fun i => and_mask hk (i + 1)
  rw [hsame]
  exact cycle_forward (mask + 1)

theorem and_mask_lt {k mask : Nat} (hk : mask + 1 = 2 ^ k) (x : Nat) : x &&& mask < mask + 1 := by
  rw [and_mask hk]
  exact Nat.mod_lt _ (by omega)

theorem iterate_backward (n : Nat) (i d : Nat) (hi : i < n) (hd : d ≤ n) :
    (fun i => if i = 0 then n - 1 else i - 1)^[d] i = if d ≤ i then i - d else i + n - d := by
  induction d with
  | zero => simp
  | succ d ih =>
    rw [Function.iterate_succ_apply', ih (by omega)]
    split <;> split <;> split <;> omega

theorem cycle_backward (n : Nat) : Cycle n fun i => if i = 0 then n - 1 else i - 1 where
  lt i hi := by
    show (if i = 0 then n - 1 else i - 1) < n
    split <;> omega
  turn i hi := by
    rw [iterate_backward n i n hi (Nat.le_refl n), if_neg (by omega)]
    omega
  ret i hi d h0 hd := by
    rw [iterate_backward n i d hi (by omega)]
    split <;> omega
  reach i hi j hj := by
    rcases Nat.lt_or_ge i j with h | h
    · refine ⟨i + n - j, by omega, ?_⟩
      rw [iterate_backward n i _ hi (by omega), if_neg (by omega)]
      omega
    · refine ⟨i - j, by omega, ?_⟩
      rw [iterate_backward n i _ hi (by omega), if_pos (by omega)]
      omega

/-! ## Slots -/

/-- The slots of a table; `none` is a free one. -/
abbrev Slots (K V : Type) := List (Option (K × V))

section Slots

variable {K V : Type}

def slotAt (t : Slots K V) (i : Nat) : Option (K × V) := t.getD i none

theorem mem_iff_slotAt {t : Slots K V} {p : K × V} :
    some p ∈ t ↔ ∃ i < t.length, slotAt t i = some p := by
  unfold slotAt
  rw [List.mem_iff_getElem]
  constructor
  · rintro ⟨i, hi, h⟩
    exact ⟨i, hi, by rw [List.getD_eq_getElem _ _ hi, h]⟩
  · rintro ⟨i, hi, h⟩
    rw [List.getD_eq_getElem _ _ hi] at h
    exact ⟨i, hi, h⟩

theorem lt_length_of_slotAt {t : Slots K V} {i : Nat} {p : K × V} (h : slotAt t i = some p) :
    i < t.length := by
  rcases Nat.lt_or_ge i t.length with hi | hi
  · exact hi
  · rw [slotAt, List.getD_eq_default _ _ hi] at h
    cases h

theorem slotAt_set {t : Slots K V} {i j : Nat} {o : Option (K × V)} (hi : i < t.length) :
    slotAt (t.set i o) j = if j = i then o else slotAt t j := by
  unfold slotAt
  rw [List.getD_eq_getElem?_getD, List.getElem?_set, List.getD_eq_getElem?_getD]
  rcases Nat.decEq j i with hne | rfl
  · rw [if_neg (Ne.symm hne), if_neg hne]
  · rw [if_pos rfl, if_pos hi, if_pos rfl]
    rfl

/-- Somewhere is a free slot, unless all are filled. -/
theorem exists_free {t : Slots K V} (h : t.countP (·.isSome) < t.length) :
    ∃ i < t.length, slotAt t i = none := by
  have hne : ¬ ∀ o ∈ t, o.isSome = true := by
    intro hall
    rw [List.countP_eq_length.mpr hall] at h
    omega
  obtain ⟨o, ho, hfree⟩ : ∃ o ∈ t, ¬ o.isSome = true := by
    by_contra hcon
    exact hne fun o ho => by_contra fun hf => hcon ⟨o, ho, hf⟩
  obtain ⟨i, hi, rfl⟩ := List.mem_iff_getElem.mp ho
  refine ⟨i, hi, ?_⟩
  rw [slotAt, List.getD_eq_getElem _ _ hi]
  cases hv : t[i] with
  | none => rfl
  | some p => simp [hv] at hfree

theorem slotAt_replicate (n i : Nat) : slotAt (List.replicate n (none : Option (K × V))) i = none := by
  unfold slotAt
  rw [List.getD_eq_getElem?_getD, List.getElem?_replicate]
  split <;> rfl

/-- The number of filled slots after one of them is written. -/
theorem countP_set {t : Slots K V} {i : Nat} (hi : i < t.length) (o : Option (K × V)) :
    (t.set i o).countP (·.isSome) + (if (slotAt t i).isSome then 1 else 0) =
      t.countP (·.isSome) + if o.isSome then 1 else 0 := by
  have hat : slotAt t i = t[i] := List.getD_eq_getElem _ _ hi
  have hpos : (if t[i].isSome then 1 else 0) ≤ t.countP (·.isSome) := by
    split
    · rename_i h
      exact List.countP_pos_iff.mpr ⟨t[i], List.getElem_mem hi, h⟩
    · omega
  rw [List.countP_set hi, hat]
  omega

end Slots

/-! ## Tables that never clear a slot -/

section Placed

variable {K V : Type} [DecidableEq K]

/-- The slot is free or has the key. -/
def freeOrOwn (t : Slots K V) (k : K) (i : Nat) : Bool :=
  match slotAt t i with
  | none => true
  | some p => p.1 = k

/-- On the way from where its key hashes to, an entry comes after other keys only. -/
def Placed (next : Nat → Nat) (hash : K → Nat) (t : Slots K V) : Prop :=
  ∀ i k v, slotAt t i = some (k, v) → ∃ d < t.length, next^[d] (hash k) = i ∧
    ∀ e < d, ∃ p, slotAt t (next^[e] (hash k)) = some p ∧ p.1 ≠ k

variable {next : Nat → Nat} {hash : K → Nat} {t : Slots K V}

omit [DecidableEq K] in
theorem placed_of_free (h : ∀ i, slotAt t i = none) : Placed next hash t := by
  intro i k v hi
  rw [h i] at hi
  cases hi

theorem freeOrOwn_eq_false {k : K} {i : Nat} :
    freeOrOwn t k i = false ↔ ∃ p, slotAt t i = some p ∧ p.1 ≠ k := by
  unfold freeOrOwn
  cases slotAt t i with
  | none => simp
  | some p => simp

theorem freeOrOwn_eq_true {k : K} {i : Nat} :
    freeOrOwn t k i = true ↔ slotAt t i = none ∨ ∃ v, slotAt t i = some (k, v) := by
  unfold freeOrOwn
  cases slotAt t i with
  | none => simp
  | some p =>
    rcases p with ⟨k', v⟩
    simp

/-- A search for a key or a free slot, through all slots. -/
def find (next : Nat → Nat) (hash : K → Nat) (t : Slots K V) (k : K) : Outcome :=
  probe t.length next (freeOrOwn t k) (hash k) t.length

theorem find_eq_found_of_mem (c : Cycle t.length next) (hh : ∀ k, hash k < t.length)
    (hp : Placed next hash t) {i : Nat} {k : K} {v : V} (hi : slotAt t i = some (k, v)) :
    ∃ d, find next hash t k = .found i d := by
  obtain ⟨d, hd, hw, hbefore⟩ := hp i k v hi
  refine ⟨d, (probe_eq_found_iff c (hh k)).mpr ⟨hw.symm, hd, by omega, ?_, fun e he => ?_⟩⟩
  · exact freeOrOwn_eq_true.mpr (Or.inr ⟨v, hi⟩)
  · exact freeOrOwn_eq_false.mpr (hbefore e he)

/-- **One search.**  While a slot is free, the search ends: at the entry of the
key, or at a free slot when the table has no entry of the key. -/
theorem find_spec (c : Cycle t.length next) (hh : ∀ k, hash k < t.length)
    (hp : Placed next hash t) (hfree : ∃ i < t.length, slotAt t i = none) (k : K) :
    ∃ i d, find next hash t k = .found i d ∧ i < t.length ∧
      ((∃ v, slotAt t i = some (k, v)) ∨
        slotAt t i = none ∧ ∀ j v, slotAt t j ≠ some (k, v)) := by
  cases h : find next hash t k with
  | found i d =>
    obtain ⟨rfl, _, _, hstop, _⟩ := probe_eq_found c (hh k) h
    refine ⟨_, d, rfl, c.iterate_lt (hh k) d, ?_⟩
    rcases freeOrOwn_eq_true.mp hstop with hnone | hown
    · refine Or.inr ⟨hnone, fun j v hj => ?_⟩
      obtain ⟨e, he⟩ := find_eq_found_of_mem c hh hp hj
      rw [h] at he
      injection he with hji
      rw [hji, hj] at hnone
      cases hnone
    · exact Or.inl hown
  | wrapped =>
    obtain ⟨i, hi, hnone⟩ := hfree
    have := (probe_eq_wrapped c (hh k) h).2 i hi
    rw [freeOrOwn_eq_true.mpr (Or.inl hnone)] at this
    cases this
  | exceeded =>
    have := (probe_eq_exceeded c (hh k) h).1
    omega

/-- No two slots have the same key. -/
theorem Placed.unique (c : Cycle t.length next) (hh : ∀ k, hash k < t.length)
    (hp : Placed next hash t) {i j : Nat} {k : K} {v w : V} (hi : slotAt t i = some (k, v))
    (hj : slotAt t j = some (k, w)) : i = j := by
  obtain ⟨d, hd⟩ := find_eq_found_of_mem c hh hp hi
  obtain ⟨e, he⟩ := find_eq_found_of_mem c hh hp hj
  rw [hd] at he
  injection he

/-- Writing an entry where the search for its key ended. -/
theorem placed_set (c : Cycle t.length next) (hh : ∀ k, hash k < t.length)
    (hp : Placed next hash t) {i d : Nat} {k : K} (hf : find next hash t k = .found i d) (v : V) :
    Placed next hash (t.set i (some (k, v))) := by
  obtain ⟨rfl, hd, _, hstop, hbefore⟩ := probe_eq_found c (hh k) hf
  have hi := c.iterate_lt (hh k) d
  -- A slot that another key was met at before is met with another key after.
  have still : ∀ {k' : K} {j : Nat}, k' ≠ k → (∃ p, slotAt t j = some p ∧ p.1 ≠ k') →
      ∃ p, slotAt (t.set (next^[d] (hash k)) (some (k, v))) j = some p ∧ p.1 ≠ k' := by
    rintro k' j hk ⟨p, hp, hne⟩
    rw [slotAt_set hi]
    split
    · exact ⟨(k, v), rfl, Ne.symm hk⟩
    · exact ⟨p, hp, hne⟩
  intro j k' v' hj
  rw [List.length_set]
  rw [slotAt_set hi] at hj
  split at hj
  · rename_i hji
    cases hj
    refine ⟨d, hd, hji.symm, fun e he => ?_⟩
    obtain ⟨p, hp, hne⟩ := freeOrOwn_eq_false.mp (hbefore e he)
    refine ⟨p, ?_, hne⟩
    rw [slotAt_set hi, if_neg]
    · exact hp
    · intro heq
      rw [← heq, hbefore e he] at hstop
      cases hstop
  · rename_i hji
    obtain ⟨d', hd', hw, hbefore'⟩ := hp j k' v' hj
    have hk : k' ≠ k := by
      rintro rfl
      obtain ⟨e, he⟩ := find_eq_found_of_mem c hh hp hj
      rw [hf] at he
      injection he with hij
      exact hji hij.symm
    exact ⟨d', hd', hw, fun e he => still hk (hbefore' e he)⟩

/-- The entries after writing one where the search for its key ended. -/
theorem mem_set_iff (c : Cycle t.length next) (hh : ∀ k, hash k < t.length)
    (hp : Placed next hash t) {i d : Nat} {k : K} (hf : find next hash t k = .found i d) (v : V)
    {p : K × V} :
    some p ∈ t.set i (some (k, v)) ↔ p = (k, v) ∨ p.1 ≠ k ∧ some p ∈ t := by
  have hi : i < t.length := by
    obtain ⟨rfl, _⟩ := probe_eq_found c (hh k) hf
    exact c.iterate_lt (hh k) d
  have hstop := (probe_eq_found c (hh k) hf).2.2.2.1
  rw [mem_iff_slotAt, mem_iff_slotAt, List.length_set]
  constructor
  · rintro ⟨j, hj, h⟩
    rw [slotAt_set hi] at h
    split at h
    · exact Or.inl (Option.some.inj h).symm
    · rename_i hji
      refine Or.inr ⟨?_, j, hj, h⟩
      rintro rfl
      obtain ⟨e, he⟩ := find_eq_found_of_mem c hh hp h
      rw [hf] at he
      injection he with hij
      exact hji hij.symm
  · rintro (rfl | ⟨hne, j, hj, h⟩)
    · exact ⟨i, hi, by rw [slotAt_set hi, if_pos rfl]⟩
    · refine ⟨j, hj, ?_⟩
      rw [slotAt_set hi, if_neg]
      · exact h
      · rintro rfl
        rcases freeOrOwn_eq_true.mp hstop with hnone | ⟨w, hown⟩
        · rw [hnone] at h
          cases h
        · rw [hown] at h
          cases h
          exact hne rfl

end Placed

/-! ## Tables that clear slots and remember the largest displacement -/

section Within

variable {K V : Type} [DecidableEq K]

/-- The slot has the key. -/
def owns (t : Slots K V) (k : K) (i : Nat) : Bool :=
  match slotAt t i with
  | none => false
  | some p => p.1 = k

def isFree (t : Slots K V) (i : Nat) : Bool := (slotAt t i).isNone

/-- Each entry lies at most `limit` moves after where its key hashes to. -/
def Within (next : Nat → Nat) (hash : K → Nat) (limit : Nat) (t : Slots K V) : Prop :=
  ∀ i k v, slotAt t i = some (k, v) → ∃ d < t.length, d ≤ limit ∧ next^[d] (hash k) = i

/-- No two slots have the same key. -/
def Distinct (t : Slots K V) : Prop :=
  ∀ i j k v w, slotAt t i = some (k, v) → slotAt t j = some (k, w) → i = j

variable {next : Nat → Nat} {hash : K → Nat} {limit : Nat} {t : Slots K V}

/-- A search for a key within the limit. -/
def locate (next : Nat → Nat) (hash : K → Nat) (limit : Nat) (t : Slots K V) (k : K) : Outcome :=
  probe t.length next (owns t k) (hash k) limit

/-- A search for a free slot. -/
def vacancy (next : Nat → Nat) (hash : K → Nat) (t : Slots K V) (k : K) : Outcome :=
  probe t.length next (isFree t) (hash k) t.length

theorem owns_eq_true {k : K} {i : Nat} : owns t k i = true ↔ ∃ v, slotAt t i = some (k, v) := by
  unfold owns
  cases slotAt t i with
  | none => simp
  | some p =>
    rcases p with ⟨k', v⟩
    simp

omit [DecidableEq K] in
theorem isFree_eq_true {i : Nat} : isFree t i = true ↔ slotAt t i = none := by
  unfold isFree
  exact Option.isNone_iff_eq_none

/-- **A search within the limit** never comes back to its start, and tells
whether the table has the key. -/
theorem locate_spec (c : Cycle t.length next) (hh : ∀ k, hash k < t.length)
    (hw : Within next hash limit t) (hl : limit + 1 < t.length) (k : K) :
    (∃ i d v, locate next hash limit t k = .found i d ∧ slotAt t i = some (k, v)) ∨
      locate next hash limit t k = .exceeded ∧ ∀ j v, slotAt t j ≠ some (k, v) := by
  cases h : locate next hash limit t k with
  | found i d =>
    obtain ⟨_, _, _, hstop, _⟩ := probe_eq_found c (hh k) h
    obtain ⟨v, hv⟩ := owns_eq_true.mp hstop
    exact Or.inl ⟨i, d, v, rfl, hv⟩
  | wrapped =>
    have := (probe_eq_wrapped c (hh k) h).1
    omega
  | exceeded =>
    refine Or.inr ⟨rfl, fun j v hj => ?_⟩
    obtain ⟨d, _, hd, rfl⟩ := hw j k v hj
    have := (probe_eq_exceeded c (hh k) h).2 d hd
    rw [owns_eq_true.mpr ⟨v, hj⟩] at this
    cases this

omit [DecidableEq K] in
theorem countP_eq_countP_range (t : Slots K V) :
    t.countP (·.isSome) = (List.range t.length).countP fun i => (slotAt t i).isSome := by
  have : t = (List.range t.length).map (slotAt t) := by
    apply List.ext_getElem
    · simp
    · intro i h1 h2
      simp [slotAt, List.getElem?_eq_getElem h1]
  conv => lhs; rw [this, List.countP_map]
  rfl

omit [DecidableEq K] in
/-- The slots passed over on the way to a free one are all different and filled. -/
theorem displacement_le (c : Cycle t.length next) {start d : Nat} (hs : start < t.length)
    (hd : d < t.length) (hfull : ∀ e < d, isFree t (next^[e] start) = false) :
    d ≤ t.countP (·.isSome) := by
  have hinj : ∀ e e', e < e' → e' < d → next^[e] start ≠ next^[e'] start := by
    intro e e' h h' heq
    refine c.ret _ (c.iterate_lt hs e) (e' - e) (by omega) (by omega) ?_
    rw [← Function.iterate_add_apply, show e' - e + e = e' by omega, heq]
  have hnodup : ((List.range d).map fun e => next^[e] start).Nodup := by
    refine (List.nodup_map_iff_inj_on List.nodup_range).mpr fun e he e' he' heq => ?_
    rw [List.mem_range] at he he'
    rcases Nat.lt_trichotomy e e' with h | h | h
    · exact absurd heq (hinj e e' h he')
    · exact h
    · exact absurd heq.symm (hinj e' e h he)
  have hsub : ((List.range d).map fun e => next^[e] start) ⊆
      (List.range t.length).filter fun i => (slotAt t i).isSome := by
    intro i hi
    obtain ⟨e, he, rfl⟩ := List.mem_map.mp hi
    have hf := hfull e (List.mem_range.mp he)
    rw [List.mem_filter, List.mem_range]
    refine ⟨c.iterate_lt hs e, ?_⟩
    unfold isFree at hf
    simpa using hf
  have := (hnodup.subperm hsub).length_le
  rw [List.length_map, List.length_range, ← List.countP_eq_length_filter,
    ← countP_eq_countP_range] at this
  exact this

omit [DecidableEq K] in
/-- A search for a free slot, while there is one: the slots passed over are filled. -/
theorem vacancy_spec (c : Cycle t.length next) (hh : ∀ k, hash k < t.length)
    (hfree : t.countP (·.isSome) < t.length) (k : K) :
    ∃ i d, vacancy next hash t k = .found i d ∧ i < t.length ∧ slotAt t i = none ∧
      i = next^[d] (hash k) ∧ d < t.length ∧ d ≤ t.countP (·.isSome) := by
  cases h : vacancy next hash t k with
  | found i d =>
    obtain ⟨hi, hd, _, hstop, hbefore⟩ := probe_eq_found c (hh k) h
    exact ⟨i, d, rfl, hi ▸ c.iterate_lt (hh k) d, isFree_eq_true.mp hstop, hi, hd,
      displacement_le c (hh k) hd hbefore⟩
  | wrapped =>
    obtain ⟨i, hi, hnone⟩ := exists_free hfree
    have := (probe_eq_wrapped c (hh k) h).2 i hi
    rw [isFree_eq_true.mpr hnone] at this
    cases this
  | exceeded =>
    have := (probe_eq_exceeded c (hh k) h).1
    omega

omit [DecidableEq K] in
theorem within_of_free (h : ∀ i, slotAt t i = none) : Within next hash limit t := by
  intro i k v hi
  rw [h i] at hi
  cases hi

omit [DecidableEq K] in
theorem Within.mono (hw : Within next hash limit t) {limit' : Nat} (h : limit ≤ limit') :
    Within next hash limit' t := by
  intro i k v hi
  obtain ⟨d, hd, hdl, he⟩ := hw i k v hi
  exact ⟨d, hd, by omega, he⟩

omit [DecidableEq K] in
theorem within_set (hw : Within next hash limit t) {i d : Nat} {k : K} (hi : i < t.length)
    (he : i = next^[d] (hash k)) (hd : d < t.length) (hdl : d ≤ limit) (v : V) :
    Within next hash limit (t.set i (some (k, v))) := by
  intro j k' v' hj
  rw [slotAt_set hi] at hj
  rw [List.length_set]
  split at hj
  · rename_i hji
    cases hj
    exact ⟨d, hd, hdl, by rw [hji, he]⟩
  · exact hw j k' v' hj

omit [DecidableEq K] in
theorem within_clear (hw : Within next hash limit t) {i : Nat} (hi : i < t.length) :
    Within next hash limit (t.set i none) := by
  intro j k v hj
  rw [slotAt_set hi] at hj
  rw [List.length_set]
  split at hj
  · cases hj
  · exact hw j k v hj

omit [DecidableEq K] in
theorem distinct_of_free (h : ∀ i, slotAt t i = none) : Distinct t := by
  intro i j k v w hi
  rw [h i] at hi
  cases hi

omit [DecidableEq K] in
/-- Filling a free slot, or writing the entry of the same key, keeps keys distinct. -/
theorem distinct_set (hd : Distinct t) {i : Nat} {k : K} (hi : i < t.length)
    (hnew : ∀ j v, slotAt t j = some (k, v) → j = i) (v : V) :
    Distinct (t.set i (some (k, v))) := by
  intro a b k' v1 v2 ha hb
  rw [slotAt_set hi] at ha hb
  split at ha <;> split at hb
  · omega
  · rename_i hai hbi
    cases ha
    exact absurd (hnew b v2 hb) hbi
  · rename_i hai hbi
    cases hb
    exact absurd (hnew a v1 ha) hai
  · exact hd a b k' v1 v2 ha hb

omit [DecidableEq K] in
theorem distinct_clear (hd : Distinct t) {i : Nat} (hi : i < t.length) :
    Distinct (t.set i none) := by
  intro a b k v1 v2 ha hb
  rw [slotAt_set hi] at ha hb
  split at ha
  · cases ha
  · split at hb
    · cases hb
    · exact hd a b k v1 v2 ha hb

end Within

/-! ## Operations on such a table -/

/-- The slots, the number of entries and the largest displacement. -/
structure Counted (K V : Type) where
  slots : Slots K V
  count : Nat
  limit : Nat

namespace Counted

variable {K V : Type}

def fresh (n : Nat) : Counted K V := ⟨List.replicate n none, 0, 0⟩

/-- The table has this entry. -/
def Has (t : Counted K V) (k : K) (v : V) : Prop := some (k, v) ∈ t.slots

/-- The entry goes to the first free slot, unless there is none. -/
def insert (next : Nat → Nat) (hash : K → Nat) (t : Counted K V) (k : K) (v : V) :
    Option (Counted K V) :=
  match vacancy next hash t.slots k with
  | .found i d => some ⟨t.slots.set i (some (k, v)), t.count + 1, max t.limit d⟩
  | _ => none

/-- The entries of some slots are added one after the other. -/
def refill {ε : Type} (add : Counted K V → K → V → Except ε (Counted K V)) :
    Slots K V → Counted K V → Except ε (Counted K V)
  | [], t => .ok t
  | none :: slots, t => refill add slots t
  | some (k, v) :: slots, t => do refill add slots (← add t k v)

def clear (t : Counted K V) (i : Nat) : Counted K V := ⟨t.slots.set i none, t.count - 1, t.limit⟩

def setValue (t : Counted K V) (i : Nat) (k : K) (v : V) : Counted K V :=
  { t with slots := t.slots.set i (some (k, v)) }

structure WF (next : Nat → Nat) (hash : K → Nat) (t : Counted K V) : Prop where
  count : t.count = t.slots.countP (·.isSome)
  within : Within next hash t.limit t.slots
  distinct : Distinct t.slots
  limit : t.limit + 1 < t.slots.length

variable {next : Nat → Nat} {hash : K → Nat} {t : Counted K V}

theorem not_has_fresh (n : Nat) (k : K) (v : V) : ¬ (fresh n).Has k v := by
  intro h
  cases List.eq_of_mem_replicate h

theorem wf_fresh {n : Nat} (hn : 1 < n) : WF next hash (fresh n : Counted K V) where
  count := by
    rw [fresh, List.countP_replicate]
    rfl
  within := within_of_free fun i => slotAt_replicate n i
  distinct := distinct_of_free fun i => slotAt_replicate n i
  limit := by
    simp [fresh]
    omega

theorem has_iff {k : K} {v : V} : t.Has k v ↔ ∃ i < t.slots.length, slotAt t.slots i = some (k, v) :=
  mem_iff_slotAt

theorem WF.unique (h : WF next hash t) {k : K} {v w : V} (h1 : t.Has k v) (h2 : t.Has k w) :
    v = w := by
  obtain ⟨i, _, hi⟩ := has_iff.mp h1
  obtain ⟨j, _, hj⟩ := has_iff.mp h2
  rw [h.distinct i j k v w hi hj, hj] at hi
  cases hi
  rfl

theorem WF.count_le (h : WF next hash t) : t.count ≤ t.slots.length := by
  rw [h.count]
  exact List.countP_le_length

/-- **Insertion** of a new key, while two slots are free. -/
theorem insert_spec (c : Cycle t.slots.length next) (hh : ∀ k, hash k < t.slots.length)
    (h : WF next hash t) (hroom : t.count + 1 < t.slots.length) {k : K} (hnew : ∀ v, ¬ t.Has k v)
    (v : V) :
    ∃ t', t.insert next hash k v = some t' ∧ WF next hash t' ∧ t'.count = t.count + 1 ∧
      t'.slots.length = t.slots.length ∧
        ∀ k' v', t'.Has k' v' ↔ k' = k ∧ v' = v ∨ t.Has k' v' := by
  obtain ⟨i, d, hf, hi, hnone, he, hd, hdc⟩ :=
    vacancy_spec c hh (by rw [← h.count]; omega) k
  rw [← h.count] at hdc
  have hcount := countP_set hi (some (k, v))
  rw [hnone] at hcount
  simp only [Option.isSome_none, Option.isSome_some, Bool.false_eq_true, if_false, if_true] at hcount
  unfold insert
  rw [hf]
  refine ⟨_, rfl, ⟨?_, ?_, ?_, ?_⟩, rfl, List.length_set, fun k' v' => ?_⟩
  · have := h.count
    show t.count + 1 = (t.slots.set i _).countP _
    omega
  · exact within_set (h.within.mono (Nat.le_max_left _ _)) hi he hd (Nat.le_max_right _ _) v
  · refine distinct_set h.distinct hi (fun j w hj => ?_) v
    exact absurd (has_iff.mpr ⟨j, lt_length_of_slotAt hj, hj⟩) (hnew w)
  · have := h.limit
    show max t.limit d + 1 < (t.slots.set i _).length
    rw [List.length_set]
    omega
  · rw [has_iff, has_iff]
    show (∃ j < (t.slots.set i _).length, slotAt (t.slots.set i _) j = _) ↔ _
    rw [List.length_set]
    constructor
    · rintro ⟨j, hj, hjs⟩
      rw [slotAt_set hi] at hjs
      split at hjs
      · cases hjs
        exact Or.inl ⟨rfl, rfl⟩
      · exact Or.inr ⟨j, hj, hjs⟩
    · rintro (⟨rfl, rfl⟩ | ⟨j, hj, hjs⟩)
      · exact ⟨i, hi, by rw [slotAt_set hi, if_pos rfl]⟩
      · refine ⟨j, hj, ?_⟩
        rw [slotAt_set hi, if_neg, hjs]
        rintro rfl
        rw [hnone] at hjs
        cases hjs

/-- Keys of a list of slots that do not repeat. -/
def Fresh (slots : Slots K V) : Prop := (slots.filterMap fun o => o.map (·.1)).Nodup

/-- **Moving** entries with new keys, by an addition that works on tables with `P`
and fewer than `room` entries. -/
theorem refill_spec {ε : Type} {add : Counted K V → K → V → Except ε (Counted K V)}
    {P : Counted K V → Prop} {room : Nat}
    (hadd : ∀ t k v, P t → t.count < room → (∀ w, ¬ t.Has k w) →
      ∃ t', add t k v = .ok t' ∧ P t' ∧ t'.count = t.count + 1 ∧
        ∀ k' v', t'.Has k' v' ↔ k' = k ∧ v' = v ∨ t.Has k' v')
    {slots : Slots K V} (hs : Fresh slots) (h : P t)
    (hnew : ∀ k v w, some (k, v) ∈ slots → ¬ t.Has k w)
    (hroom : t.count + slots.countP (·.isSome) ≤ room) :
    ∃ t', refill add slots t = .ok t' ∧ P t' ∧ t'.count = t.count + slots.countP (·.isSome) ∧
      ∀ k v, t'.Has k v ↔ some (k, v) ∈ slots ∨ t.Has k v := by
  induction slots generalizing t with
  | nil => exact ⟨t, rfl, h, rfl, fun k v => by simp⟩
  | cons o slots ih =>
    cases o with
    | none =>
      obtain ⟨t', e, hP, hcount, hhas⟩ := ih hs h
        (fun k v w hm => hnew k v w (List.mem_cons_of_mem _ hm)) hroom
      exact ⟨t', e, hP, hcount, fun k v => by simp [hhas]⟩
    | some p =>
      obtain ⟨k, v⟩ := p
      have hcons : (some (k, v) :: slots).countP (·.isSome) = slots.countP (·.isSome) + 1 :=
        List.countP_cons_of_pos rfl
      rw [hcons] at hroom ⊢
      replace hs : (k :: slots.filterMap fun o => o.map (·.1)).Nodup := hs
      rw [List.nodup_cons] at hs
      obtain ⟨t1, e1, h1, hcount1, hhas1⟩ := hadd t k v h (by omega)
        (fun w => hnew k v w List.mem_cons_self)
      have hnew1 : ∀ k' v' w', some (k', v') ∈ slots → ¬ t1.Has k' w' := by
        intro k' v' w' hm hh'
        rcases (hhas1 k' w').mp hh' with ⟨rfl, _⟩ | hold
        · exact hs.1 (List.mem_filterMap.mpr ⟨_, hm, rfl⟩)
        · exact hnew k' v' w' (List.mem_cons_of_mem _ hm) hold
      obtain ⟨t', e, hP, hcount, hhas⟩ := ih hs.2 h1 hnew1 (by omega)
      refine ⟨t', ?_, hP, by omega, fun k' v' => ?_⟩
      · show (add t k v >>= fun t => refill add slots t) = .ok t'
        rw [e1]
        exact e
      · rw [hhas, hhas1, List.mem_cons, Option.some.injEq, Prod.mk.injEq]
        constructor
        · rintro (hm | hm | hm)
          · exact Or.inl (Or.inr hm)
          · exact Or.inl (Or.inl hm)
          · exact Or.inr hm
        · rintro ((hm | hm) | hm)
          · exact Or.inr (Or.inl hm)
          · exact Or.inl hm
          · exact Or.inr (Or.inr hm)

/-- The slots of a table can be moved. -/
theorem fresh_of_distinct {slots : Slots K V} (h : Distinct slots) : Fresh slots := by
  unfold Fresh
  induction slots with
  | nil => exact List.nodup_nil
  | cons o slots ih =>
    have htail : Distinct slots := by
      intro i j k v w hi hj
      have := h (i + 1) (j + 1) k v w hi hj
      omega
    cases o with
    | none => exact ih htail
    | some p =>
      obtain ⟨k, v⟩ := p
      show (k :: slots.filterMap fun o => o.map (·.1)).Nodup
      rw [List.nodup_cons]
      refine ⟨fun hm => ?_, ih htail⟩
      obtain ⟨o, ho, he⟩ := List.mem_filterMap.mp hm
      obtain ⟨q, rfl, hq⟩ := Option.map_eq_some_iff.mp he
      obtain ⟨j, _, hj⟩ := mem_iff_slotAt.mp ho
      have := h 0 (j + 1) k v q.2 rfl (by rw [← hq]; exact hj)
      omega

/-- **Clearing** the slot of an entry. -/
theorem clear_spec (h : WF next hash t) {i : Nat} {k : K} {v : V} (hi : slotAt t.slots i = some (k, v)) :
    WF next hash (t.clear i) ∧ (t.clear i).count + 1 = t.count ∧
      ∀ k' v', (t.clear i).Has k' v' ↔ k' ≠ k ∧ t.Has k' v' := by
  have hlt := lt_length_of_slotAt hi
  have hcount := countP_set hlt (none : Option (K × V))
  rw [hi] at hcount
  simp only [Option.isSome_none, Option.isSome_some, Bool.false_eq_true, if_false, if_true] at hcount
  have hc := h.count
  refine ⟨⟨?_, within_clear h.within hlt, distinct_clear h.distinct hlt, ?_⟩, ?_, fun k' v' => ?_⟩
  · show t.count - 1 = (t.slots.set i none).countP _
    omega
  · show t.limit + 1 < (t.slots.set i none).length
    rw [List.length_set]
    exact h.limit
  · show t.count - 1 + 1 = t.count
    omega
  · rw [has_iff, has_iff]
    show (∃ j < (t.slots.set i none).length, slotAt (t.slots.set i none) j = _) ↔ _
    rw [List.length_set]
    constructor
    · rintro ⟨j, hj, hjs⟩
      rw [slotAt_set hlt] at hjs
      split at hjs
      · cases hjs
      · rename_i hji
        refine ⟨?_, j, hj, hjs⟩
        rintro rfl
        exact hji (h.distinct j i k' v' v hjs hi)
    · rintro ⟨hne, j, hj, hjs⟩
      refine ⟨j, hj, ?_⟩
      rw [slotAt_set hlt, if_neg, hjs]
      rintro rfl
      rw [hi] at hjs
      cases hjs
      exact hne rfl

/-- Writing another value to the slot of an entry. -/
theorem setValue_spec (h : WF next hash t) {i : Nat} {k : K} {v : V}
    (hi : slotAt t.slots i = some (k, v)) (w : V) :
    WF next hash (t.setValue i k w) ∧ (t.setValue i k w).slots.length = t.slots.length ∧
      ∀ k' v', (t.setValue i k w).Has k' v' ↔ k' = k ∧ v' = w ∨ k' ≠ k ∧ t.Has k' v' := by
  have hlt := lt_length_of_slotAt hi
  have hcount := countP_set hlt (some (k, w))
  rw [hi] at hcount
  simp only [Option.isSome_some, if_true] at hcount
  have hc := h.count
  obtain ⟨d, hd, hdl, he⟩ := h.within i k v hi
  refine ⟨⟨?_, within_set h.within hlt he.symm hd hdl w, ?_, ?_⟩, List.length_set, fun k' v' => ?_⟩
  · show t.count = (t.slots.set i _).countP _
    omega
  · exact distinct_set h.distinct hlt (fun j v' hj => h.distinct j i k v' v hj hi) w
  · show t.limit + 1 < (t.slots.set i _).length
    rw [List.length_set]
    exact h.limit
  · rw [has_iff, has_iff]
    show (∃ j < (t.slots.set i _).length, slotAt (t.slots.set i _) j = _) ↔ _
    rw [List.length_set]
    constructor
    · rintro ⟨j, hj, hjs⟩
      rw [slotAt_set hlt] at hjs
      split at hjs
      · cases hjs
        exact Or.inl ⟨rfl, rfl⟩
      · rename_i hji
        refine Or.inr ⟨?_, j, hj, hjs⟩
        rintro rfl
        exact hji (h.distinct j i k' v' v hjs hi)
    · rintro (⟨rfl, rfl⟩ | ⟨hne, j, hj, hjs⟩)
      · exact ⟨i, hlt, by rw [slotAt_set hlt, if_pos rfl]⟩
      · refine ⟨j, hj, ?_⟩
        rw [slotAt_set hlt, if_neg, hjs]
        rintro rfl
        rw [hi] at hjs
        cases hjs
        exact hne rfl

end Counted

end BottomResearch.Probing
