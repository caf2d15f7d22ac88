import BottomResearch.Probing

/-!
# The table of weak references

`objc-weak.mm`: a hash table from objects to the weak variables that refer to
them.  Up to four variables of an object are kept in the entry itself, more of
them in a hash table of their own.  Both tables use open addressing, clear slots
and remember the largest displacement of an insertion.  Proved here:

* `appendReferrer_spec`, `removeReferrer_spec`: the variables of one object;
* `weakRegister_spec`, `weakUnregister_spec`, `weakClear_spec`: the operations
  on the set of registered pairs, none of which ends in `bad_weak_table`;
* `run_registered`: along every run the registered pairs are those of a plain
  set, whatever the tables grew and shrank to.
-/

namespace BottomResearch.WeakReferences

open Probing

/-- The address of an object. -/
abbrev Object := Nat

/-- The address of a `__weak` variable. -/
abbrev Location := Nat

/-- An `id`. -/
inductive IdValue where
  | nil
  | tagged (payload : Nat)
  | object (o : Object)
  deriving DecidableEq, Repr

/-- What ends the process.  `nesting` is not in the source: it marks that
`append_referrer` calls itself deeper than the model follows it. -/
inductive Fatal where
  | badWeakTable
  | cannotFormWeakReference (o : Object)
  | nesting
  deriving DecidableEq, Repr

/-- The messages of `_objc_inform`. -/
inductive Complaint where
  | unknownVariable (r : Location)
  | holdsOther (r : Location) (held : IdValue) (o : Object)
  deriving DecidableEq, Repr

/-- `__builtin_bswap64`. -/
def bswap64 (key : Nat) : Nat :=
  (List.range 8).foldl (fun r i => r * 256 + key / 256 ^ i % 256) 0

/-- `ptr_hash` of a 64-bit address. -/
def ptrHash (key : Nat) : Nat :=
  let key := key ^^^ (key >>> 4)
  let key := key * 0x8a970be7488fda55 % 2 ^ 64
  (key ^^^ bswap64 key) % 2 ^ 32

/-- The slot after another one. -/
def next (mask i : Nat) : Nat := (i + 1) &&& mask

def begin (mask key : Nat) : Nat := ptrHash key &&& mask

section Table

variable {V : Type}

/-- `mask`; a table that is not allocated has the mask 0. -/
def mask (t : Counted Nat V) : Nat := t.slots.length - 1

/-- The entry goes to the first free slot from where its key hashes to. -/
def insert (t : Counted Nat V) (key : Nat) (v : V) : Except Fatal (Counted Nat V) :=
  match t.insert (next (mask t)) (begin (mask t)) key v with
  | some t => .ok t
  | none => .error .badWeakTable

/-- The slot of a key. -/
def search (t : Counted Nat V) (key : Nat) : Except Fatal (Option Nat) :=
  match locate (next (mask t)) (begin (mask t)) t.limit t.slots key with
  | .found i _ => .ok (some i)
  | .exceeded => .ok none
  | .wrapped => .error .badWeakTable

end Table

/-! ## The variables of one object -/

def weakInlineCount : Nat := 4

/-- The union of `weak_entry_t`. -/
inductive Referrers where
  | inline (slots : List (Option Location))
  | outOfLine (t : Counted Location Unit)

namespace Referrers

/-- All variables, in the order of the slots. -/
def list : Referrers → List Location
  | .inline slots => slots.filterMap id
  | .outOfLine t => t.slots.filterMap fun o => o.map (·.1)

/-- The constructor of `weak_entry_t`. -/
def single (r : Location) : Referrers := .inline [some r, none, none, none]

/-- The test of `weak_unregister_no_lock`.  When no variable is left out of line,
its loop reads the pointer to the table as `inline_referrers[0]`. -/
def isEmpty : Referrers → Bool
  | .inline slots => slots.all (·.isNone)
  | .outOfLine _ => false

end Referrers

/-- The loop of `grow_refs_and_insert`, with the number of variables not yet moved. -/
def moveRefs (append : Counted Location Unit → Location → Except Fatal (Counted Location Unit)) :
    Slots Location Unit → Nat → Counted Location Unit → Except Fatal (Counted Location Unit)
  | [], _, t => .ok t
  | _ :: _, 0, t => .ok t
  | none :: slots, n + 1, t => moveRefs append slots (n + 1) t
  | some (r, _) :: slots, n + 1, t => do moveRefs append slots n (← append t r)

def growRefsAndInsert
    (append : Counted Location Unit → Location → Except Fatal (Counted Location Unit))
    (t : Counted Location Unit) (r : Location) : Except Fatal (Counted Location Unit) := do
  let oldSize := t.slots.length
  let newSize := if oldSize ≠ 0 then oldSize * 2 else 8
  append (← moveRefs append t.slots t.count (Counted.fresh newSize)) r

/-- `append_referrer` on an entry that is out of line.  It calls itself through
`grow_refs_and_insert`, which the model follows to a depth. -/
def appendOutOfLine : Nat → Counted Location Unit → Location → Except Fatal (Counted Location Unit)
  | 0, _, _ => .error .nesting
  | depth + 1, t, r =>
    if t.slots.length * 3 / 4 ≤ t.count then growRefsAndInsert (appendOutOfLine depth) t r
    else insert t r ()

/-- The table that `append_referrer` makes of the four variables of an entry: no
variable is where it hashes to until the table grows. -/
def outOfLineTable (slots : List (Option Location)) : Counted Location Unit :=
  ⟨slots.map fun o => o.map (·, ()), weakInlineCount, 0⟩

def appendReferrer (refs : Referrers) (r : Location) : Except Fatal Referrers :=
  match refs with
  | .inline slots =>
    match slots.findIdx? (·.isNone) with
    | some i => .ok (.inline (slots.set i (some r)))
    | none => .outOfLine <$> appendOutOfLine 2 (outOfLineTable slots) r
  | .outOfLine t => .outOfLine <$> appendOutOfLine 2 t r

/-- An unknown variable is reported. -/
def removeReferrer (refs : Referrers) (r : Location) :
    Except Fatal (Referrers × List Complaint) :=
  match refs with
  | .inline slots =>
    match slots.findIdx? (· = some r) with
    | some i => .ok (.inline (slots.set i none), [])
    | none => .ok (refs, [.unknownVariable r])
  | .outOfLine t => do
    match ← search t r with
    | some i => .ok (.outOfLine (t.clear i), [])
    | none => .ok (refs, [.unknownVariable r])

/-! ## The table -/

/-- `weak_table_t`; no slots stand for `weak_entries == nil`. -/
abbrev WeakTable := Counted Object Referrers

def WeakTable.empty : WeakTable := ⟨[], 0, 0⟩

def weakEntryInsert (t : WeakTable) (o : Object) (refs : Referrers) : Except Fatal WeakTable :=
  insert t o refs

def weakResize (t : WeakTable) (newSize : Nat) : Except Fatal WeakTable :=
  Counted.refill weakEntryInsert t.slots (Counted.fresh newSize)

def weakGrowMaybe (t : WeakTable) : Except Fatal WeakTable :=
  let oldSize := t.slots.length
  if oldSize * 3 / 4 ≤ t.count then weakResize t (if oldSize ≠ 0 then oldSize * 2 else 64)
  else .ok t

def weakCompactMaybe (t : WeakTable) : Except Fatal WeakTable :=
  let oldSize := t.slots.length
  if 1024 ≤ oldSize ∧ t.count ≤ oldSize / 16 then weakResize t (oldSize / 8) else .ok t

def weakEntryRemove (t : WeakTable) (i : Nat) : Except Fatal WeakTable :=
  weakCompactMaybe (t.clear i)

/-- The slot and the variables of an object. -/
def weakEntryForReferent (t : WeakTable) (o : Object) : Except Fatal (Option (Nat × Referrers)) :=
  if t.slots = [] then .ok none
  else do
    match ← search t o with
    | some i => .ok ((slotAt t.slots i).map fun p => (i, p.2))
    | none => .ok none

/-- The part of `weak_unregister_no_lock` that has found the entry. -/
def unregisterFrom (t : WeakTable) (i : Nat) (o : Object) (refs : Referrers) :
    Except Fatal WeakTable :=
  if refs.isEmpty then weakEntryRemove t i else .ok (t.setValue i o refs)

def weakUnregister (t : WeakTable) (referent : IdValue) (r : Location) :
    Except Fatal (WeakTable × List Complaint) :=
  match referent with
  | .object o => do
    match ← weakEntryForReferent t o with
    | some (i, refs) =>
      let (refs, complaints) ← removeReferrer refs r
      let t ← unregisterFrom t i o refs
      .ok (t, complaints)
    | none => .ok (t, [])
  -- A tagged pointer has no entry either.
  | .nil | .tagged _ => .ok (t, [])

/-- What `weak_register_no_lock` finds out about an object. -/
inductive Viability where
  | viable
  | deallocating
  /-- `allowsWeakReference` is forwarded. -/
  | unsupported
  deriving DecidableEq, Repr

/-- "now remember it and where it is being stored" -/
def remember (t : WeakTable) (o : Object) (r : Location) : Except Fatal WeakTable := do
  match ← weakEntryForReferent t o with
  | some (i, refs) =>
    let refs ← appendReferrer refs r
    .ok (t.setValue i o refs)
  | none =>
    let t ← weakGrowMaybe t
    weakEntryInsert t o (.single r)

def weakRegister (t : WeakTable) (referent : IdValue) (r : Location) (viability : Viability)
    (crashIfDeallocating : Bool) : Except Fatal (WeakTable × IdValue) :=
  match referent, viability with
  | .nil, _ => .ok (t, .nil)
  | .tagged n, _ => .ok (t, .tagged n)
  | .object _, .unsupported => .ok (t, .nil)
  | .object o, .deallocating =>
    if crashIfDeallocating then .error (.cannotFormWeakReference o) else .ok (t, .nil)
  | .object o, .viable => do
    let t ← remember t o r
    .ok (t, .object o)

/-- What the `__weak` variables hold. -/
abbrev Memory := Location → IdValue

/-- One turn of the loop of `weak_clear_no_lock`. -/
def zeroReferrer (o : Object) (s : Memory × List Complaint) (r : Location) :
    Memory × List Complaint :=
  if s.1 r = .object o then (Function.update s.1 r .nil, s.2)
  else if s.1 r = .nil then s
  else (s.1, s.2 ++ [.holdsOther r (s.1 r) o])

def weakClear (t : WeakTable) (memory : Memory) (o : Object) :
    Except Fatal (WeakTable × Memory × List Complaint) := do
  match ← weakEntryForReferent t o with
  | none => .ok (t, memory, [])
  | some (i, refs) =>
    let (memory, complaints) := refs.list.foldl (zeroReferrer o) (memory, [])
    let t ← weakEntryRemove t i
    .ok (t, memory, complaints)

/-! ## Tables of a power of two slots -/

section Sized

variable {V : Type}

/-- At most three quarters of at least `low` slots are filled. -/
structure Sized (low : Nat) (t : Counted Nat V) : Prop where
  power : ∃ k, t.slots.length = 2 ^ k
  low_le : low ≤ t.slots.length
  wf : t.WF (next (mask t)) (begin (mask t))
  load : t.count * 4 ≤ t.slots.length * 3

theorem mask_add_one {n k : Nat} (hk : n = 2 ^ k) : n - 1 + 1 = 2 ^ k := by
  have := Nat.two_pow_pos k
  omega

theorem cycle_next {t : Counted Nat V} {k : Nat} (hk : t.slots.length = 2 ^ k) :
    Cycle t.slots.length (next (mask t)) := by
  have h := cycle_mask (mask_add_one hk)
  rw [mask_add_one hk, ← hk] at h
  exact h

theorem begin_lt {t : Counted Nat V} {k : Nat} (hk : t.slots.length = 2 ^ k) (key : Nat) :
    begin (mask t) key < t.slots.length := by
  have h := and_mask_lt (mask_add_one hk) (ptrHash key)
  rw [mask_add_one hk, ← hk] at h
  exact h

theorem mask_congr {t t' : Counted Nat V} (h : t'.slots.length = t.slots.length) :
    mask t' = mask t := by
  rw [mask, mask, h]

variable {low : Nat} {t : Counted Nat V}

theorem sized_fresh {n k : Nat} (hk : n = 2 ^ k) (hlow : low ≤ n) (h8 : 8 ≤ low) :
    Sized low (Counted.fresh n : Counted Nat V) where
  power := ⟨k, by rw [Counted.fresh, List.length_replicate, hk]⟩
  low_le := by
    rw [Counted.fresh, List.length_replicate]
    exact hlow
  wf := Counted.wf_fresh (by omega)
  load := by
    show 0 * 4 ≤ _
    omega

theorem insert_sized (h : Sized low t) (h8 : 8 ≤ low) (hroom : t.count < t.slots.length * 3 / 4)
    {key : Nat} (hnew : ∀ v, ¬ t.Has key v) (v : V) :
    ∃ t', insert t key v = .ok t' ∧ Sized low t' ∧ t'.slots.length = t.slots.length ∧
      t'.count = t.count + 1 ∧ ∀ key' v', t'.Has key' v' ↔ key' = key ∧ v' = v ∨ t.Has key' v' := by
  obtain ⟨k, hk⟩ := h.power
  have hlow := h.low_le
  obtain ⟨t', e, hwf, hcount, hlen, hhas⟩ := Counted.insert_spec (cycle_next hk) (begin_lt hk) h.wf
    (by omega) hnew v
  refine ⟨t', ?_, ⟨⟨k, hlen.trans hk⟩, hlen ▸ hlow, ?_, by omega⟩, hlen, hcount, hhas⟩
  · rw [insert, e]
  · rw [mask_congr hlen]
    exact hwf

/-- The entries of a table go to a new one of `n` slots. -/
theorem refill_sized {add : Counted Nat V → Nat → V → Except Fatal (Counted Nat V)} {n k : Nat}
    (hadd : ∀ t key v, Sized low t → t.slots.length = n → t.count < n * 3 / 4 →
      (∀ w, ¬ t.Has key w) → ∃ t', add t key v = .ok t' ∧ Sized low t' ∧
        t'.slots.length = t.slots.length ∧ t'.count = t.count + 1 ∧
          ∀ key' v', t'.Has key' v' ↔ key' = key ∧ v' = v ∨ t.Has key' v')
    (hk : n = 2 ^ k) (hlow : low ≤ n) (h8 : 8 ≤ low) {slots : Slots Nat V}
    (hs : Counted.Fresh slots) (hroom : slots.countP (·.isSome) ≤ n * 3 / 4) :
    ∃ t', Counted.refill add slots (Counted.fresh n) = .ok t' ∧ Sized low t' ∧
      t'.slots.length = n ∧ t'.count = slots.countP (·.isSome) ∧
        ∀ key v, t'.Has key v ↔ some (key, v) ∈ slots := by
  have hempty : (Counted.fresh n : Counted Nat V).count + slots.countP (·.isSome) ≤ n * 3 / 4 := by
    show 0 + _ ≤ _
    omega
  obtain ⟨t', e, ⟨hsized, hlen⟩, hcount, hhas⟩ :=
    Counted.refill_spec (P := fun t => Sized low t ∧ t.slots.length = n)
      (fun t key v hP hlt hnew => by
        obtain ⟨t', e, h', hlen', hcount', hhas'⟩ := hadd t key v hP.1 hP.2 hlt hnew
        exact ⟨t', e, ⟨h', hlen'.trans hP.2⟩, hcount', hhas'⟩)
      hs ⟨sized_fresh hk hlow h8, List.length_replicate⟩
      (fun key v w _ => Counted.not_has_fresh n key w) hempty
  refine ⟨t', e, hsized, hlen, ?_, fun key v => ?_⟩
  · rw [hcount]
    exact Nat.zero_add _
  · rw [hhas]
    simp [Counted.not_has_fresh]

theorem search_sized (h : Sized low t) (key : Nat) :
    (∃ i v, search t key = .ok (some i) ∧ slotAt t.slots i = some (key, v)) ∨
      search t key = .ok none ∧ ∀ v, ¬ t.Has key v := by
  obtain ⟨k, hk⟩ := h.power
  unfold search
  rcases locate_spec (cycle_next hk) (begin_lt hk) h.wf.within h.wf.limit key with
    ⟨i, d, v, e, hi⟩ | ⟨e, hnone⟩
  · rw [e]
    exact Or.inl ⟨i, v, rfl, hi⟩
  · rw [e]
    refine Or.inr ⟨rfl, fun v hv => ?_⟩
    obtain ⟨j, _, hj⟩ := Counted.has_iff.mp hv
    exact hnone j v hj

theorem clear_sized (h : Sized low t) {i key : Nat} {v : V}
    (hi : slotAt t.slots i = some (key, v)) :
    Sized low (t.clear i) ∧ (t.clear i).count + 1 = t.count ∧
      ∀ key' v', (t.clear i).Has key' v' ↔ key' ≠ key ∧ t.Has key' v' := by
  obtain ⟨k, hk⟩ := h.power
  obtain ⟨hwf, hcount, hhas⟩ := Counted.clear_spec h.wf hi
  have hlen : (t.clear i).slots.length = t.slots.length := List.length_set
  have hload := h.load
  refine ⟨⟨⟨k, hlen.trans hk⟩, hlen ▸ h.low_le, ?_, by omega⟩, hcount, hhas⟩
  rw [mask_congr hlen]
  exact hwf

theorem setValue_sized (h : Sized low t) {i key : Nat} {v : V}
    (hi : slotAt t.slots i = some (key, v)) (w : V) :
    Sized low (t.setValue i key w) ∧
      ∀ key' v', (t.setValue i key w).Has key' v' ↔
        key' = key ∧ v' = w ∨ key' ≠ key ∧ t.Has key' v' := by
  obtain ⟨k, hk⟩ := h.power
  obtain ⟨hwf, hlen, hhas⟩ := Counted.setValue_spec h.wf hi w
  refine ⟨⟨⟨k, hlen.trans hk⟩, hlen ▸ h.low_le, ?_, ?_⟩, hhas⟩
  · rw [mask_congr hlen]
    exact hwf
  · rw [hlen]
    exact h.load

end Sized

/-! ## The variables of one object, against a set -/

namespace Referrers

/-- In the entry there are four slots; no variable is there twice. -/
def WF : Referrers → Prop
  | .inline slots => slots.length = weakInlineCount ∧ (slots.filterMap id).Nodup
  | .outOfLine t => Sized 8 t

theorem mem_list_inline {slots : List (Option Location)} {r : Location} :
    r ∈ (inline slots).list ↔ some r ∈ slots := by
  simp [list]

theorem mem_list_outOfLine {t : Counted Location Unit} {r : Location} :
    r ∈ (outOfLine t).list ↔ t.Has r () := by
  simp only [list, List.mem_filterMap, Option.map_eq_some_iff, Counted.Has]
  constructor
  · rintro ⟨_, hm, p, rfl, rfl⟩
    exact hm
  · intro hm
    exact ⟨_, hm, _, rfl, rfl⟩

theorem WF.nodup {refs : Referrers} (h : refs.WF) : refs.list.Nodup := by
  cases refs with
  | inline slots => exact h.2
  | outOfLine t => exact Counted.fresh_of_distinct (Sized.wf h).distinct

theorem wf_single (r : Location) : (single r).WF := ⟨rfl, List.nodup_singleton r⟩

theorem list_single (r : Location) : (single r).list = [r] := rfl

end Referrers

/-- The counter only ends the loop when no variable is left. -/
theorem moveRefs_eq_refill
    (append : Counted Location Unit → Location → Except Fatal (Counted Location Unit))
    (slots : Slots Location Unit) (t : Counted Location Unit) :
    moveRefs append slots (slots.countP (·.isSome)) t =
      Counted.refill (fun t r _ => append t r) slots t := by
  have stop : ∀ (slots : Slots Location Unit) t, moveRefs append slots 0 t = .ok t := by
    intro slots t
    cases slots <;> rfl
  induction slots generalizing t with
  | nil => rfl
  | cons o slots ih =>
    cases o with
    | none =>
      have hcons : (none :: slots).countP (·.isSome) = slots.countP (·.isSome) :=
        List.countP_cons_of_neg (by simp)
      rw [hcons]
      refine Eq.trans ?_ (ih t)
      cases slots.countP (·.isSome) with
      | zero => rw [stop, stop]
      | succ n => rfl
    | some p =>
      have hcons : (some p :: slots).countP (·.isSome) = slots.countP (·.isSome) + 1 :=
        List.countP_cons_of_pos rfl
      rw [hcons]
      show (append t p.1 >>= _) = (append t p.1 >>= _)
      exact congrArg _ (funext fun t => ih t)

section Append

variable {t : Counted Location Unit} {r : Location}

theorem appendOutOfLine_room (h : Sized 8 t) (hroom : t.count < t.slots.length * 3 / 4)
    (hnew : ¬ t.Has r ()) (depth : Nat) :
    ∃ t', appendOutOfLine (depth + 1) t r = .ok t' ∧ Sized 8 t' ∧
      t'.slots.length = t.slots.length ∧ t'.count = t.count + 1 ∧
        ∀ r' u, t'.Has r' u ↔ r' = r ∧ u = () ∨ t.Has r' u := by
  have hnot : ¬ t.slots.length * 3 / 4 ≤ t.count := by omega
  rw [appendOutOfLine, if_neg hnot]
  exact insert_sized h (Nat.le_refl 8) hroom (fun _ => hnew) ()

/-- The growth to twice the slots, which leaves room for all variables. -/
theorem grow_spec {n k : Nat} (hn : t.slots.length = n) (hk : n = 2 ^ k) (hlow : 4 ≤ n)
    (hs : Counted.Fresh t.slots) (hcount : t.count = t.slots.countP (·.isSome))
    (hnew : ¬ t.Has r ()) (depth : Nat) :
    ∃ t', growRefsAndInsert (appendOutOfLine (depth + 1)) t r = .ok t' ∧ Sized 8 t' ∧
      ∀ r', t'.Has r' () ↔ r' = r ∨ t.Has r' () := by
  have hle : t.slots.countP (·.isSome) ≤ n := hn ▸ List.countP_le_length
  obtain ⟨t1, e1, h1, hlen1, hcount1, hhas1⟩ :=
    refill_sized (n := n * 2) (k := k + 1)
      (fun t r u h hlen hlt hnew => appendOutOfLine_room h (hlen ▸ hlt) (hnew ()) depth)
      (by rw [hk, Nat.pow_succ]) (by omega) (Nat.le_refl 8) hs
      (Nat.le_trans hle (by omega))
  have hlt : t1.count < t1.slots.length * 3 / 4 := by
    rw [hlen1, hcount1]
    exact Nat.lt_of_le_of_lt hle (by omega)
  obtain ⟨t2, e2, h2, _, _, hhas2⟩ :=
    appendOutOfLine_room h1 hlt (fun hm => hnew ((hhas1 r ()).mp hm)) depth
  refine ⟨t2, ?_, h2, fun r' => ?_⟩
  · have hsize : (if n ≠ 0 then n * 2 else 8) = n * 2 := if_pos (by omega)
    simp only [growRefsAndInsert, hn, hsize, hcount]
    rw [moveRefs_eq_refill, e1]
    exact e2
  · rw [hhas2, hhas1]
    simp [Counted.Has]

theorem appendOutOfLine_spec (h : Sized 8 t) (hnew : ¬ t.Has r ()) :
    ∃ t', appendOutOfLine 2 t r = .ok t' ∧ Sized 8 t' ∧
      ∀ r', t'.Has r' () ↔ r' = r ∨ t.Has r' () := by
  by_cases hroom : t.count < t.slots.length * 3 / 4
  · obtain ⟨t', e, h', _, _, hhas⟩ := appendOutOfLine_room h hroom hnew 1
    exact ⟨t', e, h', fun r' => by simp [hhas]⟩
  · obtain ⟨k, hk⟩ := h.power
    have hlow := h.low_le
    rw [appendOutOfLine, if_pos (by omega)]
    exact grow_spec rfl hk (by omega) (Counted.fresh_of_distinct h.wf.distinct) h.wf.count hnew 0

end Append

/-- The four variables that leave the entry. -/
theorem appendOutOfLine_table {slots : List (Option Location)} (hlen : slots.length = weakInlineCount)
    (hall : ∀ o ∈ slots, o.isSome = true) (hnodup : (slots.filterMap id).Nodup) {r : Location}
    (hnew : some r ∉ slots) :
    ∃ t', appendOutOfLine 2 (outOfLineTable slots) r = .ok t' ∧ Sized 8 t' ∧
      ∀ r', t'.Has r' () ↔ r' = r ∨ some r' ∈ slots := by
  have hhas : ∀ r', (outOfLineTable slots).Has r' () ↔ some r' ∈ slots := by
    intro r'
    simp [outOfLineTable, Counted.Has]
  have hsize : (outOfLineTable slots).slots.length = 4 := (List.length_map ..).trans hlen
  have hfresh : Counted.Fresh (outOfLineTable slots).slots := by
    have : (outOfLineTable slots).slots.filterMap (fun o => o.map (·.1)) = slots.filterMap id := by
      rw [outOfLineTable, List.filterMap_map]
      exact List.filterMap_congr fun o _ => by cases o <;> rfl
    rw [Counted.Fresh, this]
    exact hnodup
  have hcount : (outOfLineTable slots).count = (outOfLineTable slots).slots.countP (·.isSome) := by
    have : (outOfLineTable slots).slots.countP (·.isSome) = slots.countP (·.isSome) := by
      rw [outOfLineTable, List.countP_map]
      exact List.countP_congr fun o _ => by cases o <;> simp
    rw [this, List.countP_eq_length.mpr hall, hlen]
    rfl
  obtain ⟨t', e, h', hhas'⟩ := grow_spec (r := r) hsize (k := 2) rfl (Nat.le_refl 4) hfresh hcount
    (fun hm => hnew ((hhas r).mp hm)) 0
  refine ⟨t', ?_, h', fun r' => by rw [hhas', hhas]⟩
  have hfull : (outOfLineTable slots).slots.length * 3 / 4 ≤ (outOfLineTable slots).count := by
    rw [hsize]
    exact Nat.le_of_ble_eq_true rfl
  rw [appendOutOfLine, if_pos hfull]
  exact e

/-- One slot of the entry is written. -/
theorem set_split {slots : List (Option Location)} {i : Nat} {o : Option Location}
    (hi : i < slots.length) (ho : slots[i] = o) :
    ∃ before after, slots = before ++ o :: after ∧
      ∀ o', slots.set i o' = before ++ o' :: after := by
  have hset : ∀ o', slots.set i o' = slots.take i ++ o' :: slots.drop (i + 1) := by
    intro o'
    rw [List.set_eq_take_append_cons_drop, if_pos hi]
  refine ⟨slots.take i, slots.drop (i + 1), ?_, hset⟩
  rw [← hset, ← ho, List.set_getElem_self]

theorem filterMap_none (before after : List (Option Location)) :
    (before ++ none :: after).filterMap id = before.filterMap id ++ after.filterMap id := by
  rw [List.filterMap_append, List.filterMap_cons_none rfl]

theorem filterMap_some_perm (before after : List (Option Location)) (r : Location) :
    ((before ++ some r :: after).filterMap id).Perm
      (r :: (before.filterMap id ++ after.filterMap id)) := by
  rw [List.filterMap_append]
  exact List.perm_middle

/-- **A new variable** of an object. -/
theorem appendReferrer_spec {refs : Referrers} (h : refs.WF) {r : Location}
    (hnew : r ∉ refs.list) :
    ∃ refs', appendReferrer refs r = .ok refs' ∧ refs'.WF ∧
      ∀ r', r' ∈ refs'.list ↔ r' = r ∨ r' ∈ refs.list := by
  cases refs with
  | outOfLine t =>
    rw [Referrers.mem_list_outOfLine] at hnew
    obtain ⟨t', e, h', hhas⟩ := appendOutOfLine_spec h hnew
    refine ⟨.outOfLine t', ?_, h', fun r' => ?_⟩
    · rw [appendReferrer, e]
      rfl
    · rw [Referrers.mem_list_outOfLine, Referrers.mem_list_outOfLine]
      exact hhas r'
  | inline slots =>
    obtain ⟨hlen, hnodup⟩ := h
    rw [appendReferrer]
    cases hfree : slots.findIdx? (·.isNone) with
    | some i =>
      obtain ⟨hi, hnone, _⟩ := List.findIdx?_eq_some_iff_getElem.mp hfree
      obtain ⟨before, after, hslots, hset⟩ := set_split hi (Option.isNone_iff_eq_none.mp hnone)
      refine ⟨_, rfl, ⟨(List.length_set ..).trans hlen, ?_⟩, fun r' => ?_⟩
      · rw [hset, (filterMap_some_perm before after r).nodup_iff, ← filterMap_none, ← hslots]
        exact List.nodup_cons.mpr ⟨hnew, hnodup⟩
      · rw [Referrers.list, hset, (filterMap_some_perm before after r).mem_iff, ← filterMap_none,
          ← hslots, List.mem_cons]
        rfl
    | none =>
      rw [Referrers.mem_list_inline] at hnew
      have hall : ∀ o ∈ slots, o.isSome = true := fun o ho => by
        simpa using List.findIdx?_eq_none_iff.mp hfree o ho
      obtain ⟨t', e, h', hhas⟩ := appendOutOfLine_table hlen hall hnodup hnew
      refine ⟨.outOfLine t', ?_, h', fun r' => ?_⟩
      · rw [e]
        rfl
      · rw [Referrers.mem_list_outOfLine, Referrers.mem_list_inline]
        exact hhas r'

/-- **Removal** of a variable; an unknown one changes nothing and is reported. -/
theorem removeReferrer_spec {refs : Referrers} (h : refs.WF) (r : Location) :
    ∃ refs' complaints, removeReferrer refs r = .ok (refs', complaints) ∧ refs'.WF ∧
      (complaints = [] ↔ r ∈ refs.list) ∧
        ∀ r', r' ∈ refs'.list ↔ r' ≠ r ∧ r' ∈ refs.list := by
  have same : r ∉ refs.list → ∀ r', r' ∈ refs.list ↔ r' ≠ r ∧ r' ∈ refs.list := by
    intro hr r'
    constructor
    · intro hm
      exact ⟨fun he => hr (he ▸ hm), hm⟩
    · exact And.right
  cases refs with
  | outOfLine t =>
    rcases search_sized h r with ⟨i, v, e, hi⟩ | ⟨e, hnone⟩
    · obtain ⟨h', _, hhas⟩ := clear_sized h hi
      refine ⟨.outOfLine (t.clear i), [], ?_, h', ?_, fun r' => ?_⟩
      · rw [removeReferrer, e]
        rfl
      · rw [Referrers.mem_list_outOfLine]
        exact ⟨fun _ => Counted.has_iff.mpr ⟨i, lt_length_of_slotAt hi, hi⟩, fun _ => rfl⟩
      · rw [Referrers.mem_list_outOfLine, Referrers.mem_list_outOfLine]
        exact hhas r' ()
    · have hr : r ∉ (Referrers.outOfLine t).list := by
        rw [Referrers.mem_list_outOfLine]
        exact hnone ()
      refine ⟨_, [.unknownVariable r], ?_, h, by simp [hr], same hr⟩
      rw [removeReferrer, e]
      rfl
  | inline slots =>
    obtain ⟨hlen, hnodup⟩ := h
    rw [removeReferrer]
    cases hfind : slots.findIdx? (· = some r) with
    | some i =>
      obtain ⟨hi, hown, _⟩ := List.findIdx?_eq_some_iff_getElem.mp hfind
      obtain ⟨before, after, hslots, hset⟩ := set_split hi (of_decide_eq_true hown)
      have hperm := filterMap_some_perm before after r
      rw [← hslots] at hperm
      rw [hperm.nodup_iff, List.nodup_cons] at hnodup
      refine ⟨_, [], rfl, ⟨(List.length_set ..).trans hlen, ?_⟩, ?_, fun r' => ?_⟩
      · rw [hset, filterMap_none]
        exact hnodup.2
      · rw [Referrers.list, hperm.mem_iff]
        simp
      · rw [Referrers.list, Referrers.list, hset, filterMap_none, hperm.mem_iff, List.mem_cons]
        constructor
        · intro hm
          exact ⟨fun he => hnodup.1 (he ▸ hm), Or.inr hm⟩
        · rintro ⟨hne, he | hm⟩
          · exact absurd he hne
          · exact hm
    | none =>
      have hr : r ∉ (Referrers.inline slots).list := by
        rw [Referrers.mem_list_inline]
        intro hm
        simpa using List.findIdx?_eq_none_iff.mp hfind _ hm
      exact ⟨_, _, rfl, ⟨hlen, hnodup⟩, by simp [hr], same hr⟩

/-! ## The table, against a set of pairs -/

namespace WeakTable

/-- The table is not allocated, or has at least 64 slots. -/
structure WF (t : WeakTable) : Prop where
  sized : t = empty ∨ Sized 64 t
  referrers : ∀ o refs, t.Has o refs → refs.WF

/-- The object is weakly referenced from the variable. -/
def Registered (t : WeakTable) (o : Object) (r : Location) : Prop :=
  ∃ refs, t.Has o refs ∧ r ∈ refs.list

theorem not_has_empty (o : Object) (refs : Referrers) : ¬ empty.Has o refs := List.not_mem_nil

theorem wf_empty : empty.WF := ⟨Or.inl rfl, fun o refs h => absurd h (not_has_empty o refs)⟩

end WeakTable

variable {t : WeakTable}

theorem weakEntryForReferent_spec (h : t.WF) (o : Object) :
    (∃ i refs, weakEntryForReferent t o = .ok (some (i, refs)) ∧ Sized 64 t ∧
        slotAt t.slots i = some (o, refs)) ∨
      weakEntryForReferent t o = .ok none ∧ ∀ refs, ¬ t.Has o refs := by
  rcases h.sized with rfl | hs
  · exact Or.inr ⟨rfl, WeakTable.not_has_empty o⟩
  · have hne : t.slots ≠ [] := by
      intro he
      have := hs.low_le
      rw [he] at this
      cases this
    rw [weakEntryForReferent, if_neg hne]
    rcases search_sized hs o with ⟨i, refs, e, hi⟩ | ⟨e, hnone⟩
    · refine Or.inl ⟨i, refs, ?_, hs, hi⟩
      rw [e]
      show Except.ok ((slotAt t.slots i).map _) = _
      rw [hi]
      rfl
    · refine Or.inr ⟨?_, hnone⟩
      rw [e]
      rfl

theorem weakResize_spec (hs : Counted.Fresh t.slots) {n k : Nat} (hk : n = 2 ^ k) (hlow : 64 ≤ n)
    (hroom : t.slots.countP (·.isSome) ≤ n * 3 / 4) :
    ∃ t', weakResize t n = .ok t' ∧ Sized 64 t' ∧ t'.slots.length = n ∧
      t'.count = t.slots.countP (·.isSome) ∧ ∀ o refs, t'.Has o refs ↔ t.Has o refs :=
  refill_sized (fun _ _ refs h hlen hlt hnew => insert_sized h (by omega) (hlen ▸ hlt) hnew refs)
    hk hlow (by omega) hs hroom

/-- Growing leaves room for one more entry. -/
theorem weakGrowMaybe_spec (h : t = .empty ∨ Sized 64 t) :
    ∃ t', weakGrowMaybe t = .ok t' ∧ Sized 64 t' ∧ t'.count < t'.slots.length * 3 / 4 ∧
      ∀ o refs, t'.Has o refs ↔ t.Has o refs := by
  rcases h with rfl | hs
  · obtain ⟨t', e, h', hlen, hcount, hhas⟩ :=
      weakResize_spec (t := .empty) (n := 64) (k := 6) List.nodup_nil rfl (Nat.le_refl 64)
        (Nat.zero_le _)
    refine ⟨t', e, h', ?_, hhas⟩
    rw [hcount, hlen]
    exact Nat.lt_of_sub_eq_succ rfl
  · unfold weakGrowMaybe
    by_cases hfull : t.slots.length * 3 / 4 ≤ t.count
    · have hlow := hs.low_le
      obtain ⟨k, hk⟩ := hs.power
      have hle : t.slots.countP (·.isSome) ≤ t.slots.length := List.countP_le_length
      have hsize : (if t.slots.length ≠ 0 then t.slots.length * 2 else 64) = t.slots.length * 2 :=
        if_pos (by omega)
      obtain ⟨t', e, h', hlen, hcount, hhas⟩ := weakResize_spec (k := k + 1)
        (Counted.fresh_of_distinct hs.wf.distinct) (n := t.slots.length * 2)
        (by rw [hk, Nat.pow_succ]) (by omega) (by omega)
      simp only [hsize, if_pos hfull]
      exact ⟨t', e, h', by omega, hhas⟩
    · simp only [if_neg hfull]
      exact ⟨t, rfl, hs, by omega, fun o refs => Iff.rfl⟩

theorem weakCompactMaybe_spec (hs : Sized 64 t) :
    ∃ t', weakCompactMaybe t = .ok t' ∧ Sized 64 t' ∧ ∀ o refs, t'.Has o refs ↔ t.Has o refs := by
  unfold weakCompactMaybe
  by_cases hsparse : 1024 ≤ t.slots.length ∧ t.count ≤ t.slots.length / 16
  · obtain ⟨k, hk⟩ := hs.power
    obtain _ | _ | _ | k := k
    · omega
    · omega
    · omega
    have h8 : t.slots.length / 8 = 2 ^ k := by
      rw [hk, Nat.pow_succ, Nat.pow_succ, Nat.pow_succ]
      omega
    have hcount := hs.wf.count
    obtain ⟨t', e, h', _, _, hhas⟩ := weakResize_spec (Counted.fresh_of_distinct hs.wf.distinct)
      h8 (by omega) (Nat.le_trans (Nat.le_of_eq hcount.symm) (by omega))
    simp only [if_pos hsparse]
    exact ⟨t', e, h', hhas⟩
  · simp only [if_neg hsparse]
    exact ⟨t, rfl, hs, fun o refs => Iff.rfl⟩

theorem weakEntryRemove_spec (h : t.WF) (hs : Sized 64 t) {i : Nat} {o : Object}
    {refs : Referrers} (hi : slotAt t.slots i = some (o, refs)) :
    ∃ t', weakEntryRemove t i = .ok t' ∧ t'.WF ∧
      ∀ o' refs', t'.Has o' refs' ↔ o' ≠ o ∧ t.Has o' refs' := by
  obtain ⟨hs1, _, hhas1⟩ := clear_sized hs hi
  obtain ⟨t', e, hs', hhas⟩ := weakCompactMaybe_spec hs1
  have hall : ∀ o' refs', t'.Has o' refs' ↔ o' ≠ o ∧ t.Has o' refs' :=
    fun o' refs' => (hhas o' refs').trans (hhas1 o' refs')
  exact ⟨t', e, ⟨Or.inr hs', fun o' refs' hm => h.referrers o' refs' ((hall o' refs').mp hm).2⟩,
    hall⟩

/-- The variables of an object, in a table that has at most one entry of it. -/
theorem registered_iff (hs : Sized 64 t) {i : Nat} {o : Object} {refs : Referrers}
    (hi : slotAt t.slots i = some (o, refs)) (r : Location) :
    t.Registered o r ↔ r ∈ refs.list := by
  have hm : t.Has o refs := Counted.has_iff.mpr ⟨i, lt_length_of_slotAt hi, hi⟩
  constructor
  · rintro ⟨refs', hm', hr⟩
    rw [hs.wf.unique hm' hm] at hr
    exact hr
  · intro hr
    exact ⟨refs, hm, hr⟩

theorem remember_spec (h : t.WF) {o : Object} {r : Location} (hnew : ¬ t.Registered o r) :
    ∃ t', remember t o r = .ok t' ∧ t'.WF ∧
      ∀ o' r', t'.Registered o' r' ↔ o' = o ∧ r' = r ∨ t.Registered o' r' := by
  unfold remember
  rcases weakEntryForReferent_spec h o with ⟨i, refs, e, hs, hi⟩ | ⟨e, hnone⟩
  · have hm : t.Has o refs := Counted.has_iff.mpr ⟨i, lt_length_of_slotAt hi, hi⟩
    obtain ⟨refs', e', hwf', hlist⟩ := appendReferrer_spec (h.referrers o refs hm)
      (fun hr => hnew ⟨refs, hm, hr⟩)
    obtain ⟨hs', hhas⟩ := setValue_sized hs hi refs'
    refine ⟨t.setValue i o refs', ?_, ⟨Or.inr hs', fun o' refs'' hm' => ?_⟩, fun o' r' => ?_⟩
    · rw [e]
      show (appendReferrer refs r >>= _) = _
      rw [e']
      rfl
    · rcases (hhas o' refs'').mp hm' with ⟨_, rfl⟩ | ⟨_, hold⟩
      · exact hwf'
      · exact h.referrers o' refs'' hold
    · by_cases ho : o' = o
      · subst ho
        rw [registered_iff hs hi]
        constructor
        · rintro ⟨refs'', hm', hr⟩
          rcases (hhas o' refs'').mp hm' with ⟨_, rfl⟩ | ⟨hne, _⟩
          · rcases (hlist r').mp hr with rfl | hr
            · exact Or.inl ⟨rfl, rfl⟩
            · exact Or.inr hr
          · exact absurd rfl hne
        · rintro (⟨_, rfl⟩ | hr)
          · exact ⟨refs', (hhas _ _).mpr (Or.inl ⟨rfl, rfl⟩), (hlist r').mpr (Or.inl rfl)⟩
          · exact ⟨refs', (hhas _ _).mpr (Or.inl ⟨rfl, rfl⟩), (hlist r').mpr (Or.inr hr)⟩
      · simp [WeakTable.Registered, hhas, ho]
  · obtain ⟨t1, e1, hs1, hroom, hhas1⟩ := weakGrowMaybe_spec h.sized
    have hnew1 : ∀ refs, ¬ t1.Has o refs := fun refs hm => hnone refs ((hhas1 o refs).mp hm)
    obtain ⟨t2, e2, hs2, _, _, hhas2⟩ :=
      insert_sized hs1 (by omega) hroom hnew1 (Referrers.single r)
    refine ⟨t2, ?_, ⟨Or.inr hs2, fun o' refs' hm => ?_⟩, fun o' r' => ?_⟩
    · rw [e]
      show (weakGrowMaybe t >>= _) = _
      rw [e1]
      exact e2
    · rcases (hhas2 o' refs').mp hm with ⟨_, rfl⟩ | hold
      · exact Referrers.wf_single r
      · exact h.referrers o' refs' ((hhas1 o' refs').mp hold)
    · constructor
      · rintro ⟨refs', hm, hr⟩
        rcases (hhas2 o' refs').mp hm with ⟨rfl, rfl⟩ | hold
        · rw [Referrers.list_single, List.mem_singleton] at hr
          exact Or.inl ⟨rfl, hr⟩
        · exact Or.inr ⟨refs', (hhas1 o' refs').mp hold, hr⟩
      · rintro (⟨rfl, rfl⟩ | ⟨refs', hm, hr⟩)
        · exact ⟨_, (hhas2 _ _).mpr (Or.inl ⟨rfl, rfl⟩), List.mem_singleton_self _⟩
        · exact ⟨refs', (hhas2 _ _).mpr (Or.inr ((hhas1 _ _).mpr hm)), hr⟩

/-- **Unregistering** a pair; no other pair is touched. -/
theorem weakUnregister_spec (h : t.WF) (o : Object) (r : Location) :
    ∃ t' complaints, weakUnregister t (.object o) r = .ok (t', complaints) ∧ t'.WF ∧
      (t.Registered o r → complaints = []) ∧
        ∀ o' r', t'.Registered o' r' ↔ ¬ (o' = o ∧ r' = r) ∧ t.Registered o' r' := by
  rcases weakEntryForReferent_spec h o with ⟨i, refs, e, hs, hi⟩ | ⟨e, hnone⟩
  · have hm : t.Has o refs := Counted.has_iff.mpr ⟨i, lt_length_of_slotAt hi, hi⟩
    obtain ⟨refs', complaints, e', hwf', hknown, hlist⟩ :=
      removeReferrer_spec (h.referrers o refs hm) r
    -- The entry is written back, or removed when it has no variable.
    obtain ⟨t', e'', hwf'', hhas⟩ : ∃ t', unregisterFrom t i o refs' = .ok t' ∧ t'.WF ∧
        ∀ o' r', t'.Registered o' r' ↔
          o' = o ∧ r' ∈ refs'.list ∨ o' ≠ o ∧ t.Registered o' r' := by
      unfold unregisterFrom
      by_cases hempty : refs'.isEmpty = true
      · obtain ⟨t', e, hwf, hhas⟩ := weakEntryRemove_spec h hs hi
        rw [if_pos hempty]
        refine ⟨t', e, hwf, fun o' r' => ?_⟩
        have hnil : ∀ r', r' ∉ refs'.list := by
          intro r' hr
          cases refs' with
          | inline slots =>
            have := List.all_eq_true.mp hempty _ (Referrers.mem_list_inline.mp hr)
            cases this
          | outOfLine t => cases hempty
        simp [WeakTable.Registered, hhas, hnil, and_assoc]
      · obtain ⟨hs', hhas⟩ := setValue_sized hs hi refs'
        rw [if_neg hempty]
        refine ⟨_, rfl, ⟨Or.inr hs', fun o' refs'' hm' => ?_⟩, fun o' r' => ?_⟩
        · rcases (hhas o' refs'').mp hm' with ⟨_, rfl⟩ | ⟨_, hold⟩
          · exact hwf'
          · exact h.referrers o' refs'' hold
        · by_cases ho : o' = o
          · simp [WeakTable.Registered, hhas, ho]
          · simp [WeakTable.Registered, hhas, ho]
    refine ⟨t', complaints, ?_, hwf'', fun hr => ?_, fun o' r' => ?_⟩
    · show (weakEntryForReferent t o >>= _) = _
      rw [e]
      show (removeReferrer refs r >>= _) = _
      rw [e']
      show (unregisterFrom t i o refs' >>= _) = _
      rw [e'']
      rfl
    · exact hknown.mpr ((registered_iff hs hi r).mp hr)
    · rw [hhas, hlist]
      by_cases ho : o' = o
      · subst ho
        simp [registered_iff hs hi]
      · simp [ho]
  · refine ⟨t, [], ?_, h, fun _ => rfl, fun o' r' => ?_⟩
    · show (weakEntryForReferent t o >>= _) = _
      rw [e]
      rfl
    · constructor
      · rintro ⟨refs, hm, hr⟩
        refine ⟨?_, refs, hm, hr⟩
        rintro ⟨rfl, _⟩
        exact hnone refs hm
      · exact And.right

/-- The memory after the loop of `weak_clear_no_lock`. -/
theorem zeroReferrers_spec (o : Object) (refs : List Location) (memory : Memory)
    (complaints : List Complaint) :
    (∀ r, (refs.foldl (zeroReferrer o) (memory, complaints)).1 r =
        if r ∈ refs ∧ memory r = .object o then .nil else memory r) ∧
      ((∀ r ∈ refs, memory r = .object o ∨ memory r = .nil) →
        (refs.foldl (zeroReferrer o) (memory, complaints)).2 = complaints) := by
  induction refs generalizing memory complaints with
  | nil => simp
  | cons r refs ih =>
    rw [List.foldl_cons, zeroReferrer]
    by_cases hown : memory r = .object o
    · obtain ⟨ihm, ihc⟩ := ih (Function.update memory r .nil) complaints
      simp only [hown, if_true]
      refine ⟨fun r' => ?_, fun hall => ihc fun r' hr' => ?_⟩
      · rw [ihm]
        by_cases hr : r' = r
        · subst hr
          simp [hown]
        · simp [hr]
      · by_cases hr : r' = r
        · subst hr
          simp
        · rw [Function.update_of_ne hr]
          exact hall r' (List.mem_cons_of_mem _ hr')
    · rw [if_neg hown]
      by_cases hnil : memory r = .nil
      · obtain ⟨ihm, ihc⟩ := ih memory complaints
        simp only [hnil, if_true]
        refine ⟨fun r' => ?_, fun hall => ihc fun r' hr' => hall r' (List.mem_cons_of_mem _ hr')⟩
        rw [ihm]
        by_cases hr : r' = r
        · subst hr
          simp [hnil]
        · simp [hr]
      · simp only [hnil, if_false]
        obtain ⟨ihm, _⟩ := ih memory (complaints ++ [.holdsOther r (memory r) o])
        refine ⟨fun r' => ?_, fun hall => ?_⟩
        · rw [ihm]
          by_cases hr : r' = r
          · subst hr
            simp [hown]
          · simp [hr]
        · rcases hall r List.mem_cons_self with h | h
          · exact absurd h hown
          · exact absurd h hnil

/-- **Clearing** an object: the variables that hold it become nil, and no pair of
it is left. -/
theorem weakClear_spec (h : t.WF) (memory : Memory) (o : Object) :
    ∃ t' memory' complaints, weakClear t memory o = .ok (t', memory', complaints) ∧ t'.WF ∧
      (∀ o' r, t'.Registered o' r ↔ o' ≠ o ∧ t.Registered o' r) ∧
      (∀ r, memory' r = .nil ∧ t.Registered o r ∧ memory r = .object o ∨
        memory' r = memory r ∧ ¬ (t.Registered o r ∧ memory r = .object o)) ∧
      ((∀ r, t.Registered o r → memory r = .object o ∨ memory r = .nil) → complaints = []) := by
  unfold weakClear
  rcases weakEntryForReferent_spec h o with ⟨i, refs, e, hs, hi⟩ | ⟨e, hnone⟩
  · obtain ⟨t', e', hwf', hhas⟩ := weakEntryRemove_spec h hs hi
    obtain ⟨hm, hc⟩ := zeroReferrers_spec o refs.list memory []
    refine ⟨t', (refs.list.foldl (zeroReferrer o) (memory, [])).1,
      (refs.list.foldl (zeroReferrer o) (memory, [])).2, ?_, hwf', ?_, ?_, ?_⟩
    · rw [e]
      show (weakEntryRemove t i >>= _) = _
      rw [e']
      rfl
    · intro o' r
      simp [WeakTable.Registered, hhas, and_assoc]
    · intro r
      rw [hm, registered_iff hs hi]
      split
      · rename_i hcond
        exact Or.inl ⟨rfl, hcond⟩
      · rename_i hcond
        exact Or.inr ⟨rfl, hcond⟩
    · intro hall
      exact hc fun r hr => hall r ((registered_iff hs hi r).mpr hr)
  · have hnot : ∀ r, ¬ t.Registered o r := fun r ⟨refs, hm, _⟩ => hnone refs hm
    refine ⟨t, memory, [], ?_, h, fun o' r => ?_, fun r => Or.inr ⟨rfl, fun hr => hnot r hr.1⟩,
      fun _ => rfl⟩
    · rw [e]
      rfl
    · constructor
      · rintro ⟨refs, hm, hr⟩
        refine ⟨?_, refs, hm, hr⟩
        rintro rfl
        exact hnone refs hm
      · exact And.right

/-! ## Runs -/

/-- What is asked of a table. -/
inductive Op where
  | register (o : Object) (r : Location)
  | unregister (o : Object) (r : Location)
  | clear (o : Object)
  deriving DecidableEq, Repr

/-- The table and the variables that `weak_clear_no_lock` writes to. -/
structure State where
  table : WeakTable
  memory : Memory

def State.init (memory : Memory) : State := ⟨.empty, memory⟩

def step (s : State) : Op → Except Fatal State
  | .register o r => do
    let (t, _) ← weakRegister s.table (.object o) r .viable false
    .ok { s with table := t }
  | .unregister o r => do
    let (t, _) ← weakUnregister s.table (.object o) r
    .ok { s with table := t }
  | .clear o => do
    let (t, memory, _) ← weakClear s.table s.memory o
    .ok ⟨t, memory⟩

/-- The registered pairs as a plain set. -/
def pairs (p : Object → Location → Prop) : Op → Object → Location → Prop
  | .register o r => fun o' r' => o' = o ∧ r' = r ∨ p o' r'
  | .unregister o r => fun o' r' => ¬ (o' = o ∧ r' = r) ∧ p o' r'
  | .clear o => fun o' r' => o' ≠ o ∧ p o' r'

/-- "weak pointers are never added to a set twice" -/
def Once (p : Object → Location → Prop) : List Op → Prop
  | [] => True
  | op :: ops => (∀ o r, op = .register o r → ¬ p o r) ∧ Once (pairs p op) ops

theorem step_registered {s : State} (h : s.table.WF) (op : Op)
    (hnew : ∀ o r, op = .register o r → ¬ s.table.Registered o r) :
    ∃ s', step s op = .ok s' ∧ s'.table.WF ∧
      s'.table.Registered = pairs s.table.Registered op := by
  cases op with
  | register o r =>
    obtain ⟨t', e, hwf, hreg⟩ := remember_spec h (hnew o r rfl)
    refine ⟨{ s with table := t' }, ?_, hwf, funext fun o' => funext fun r' => propext (hreg o' r')⟩
    show ((remember s.table o r >>= _) >>= _) = _
    rw [e]
    rfl
  | unregister o r =>
    obtain ⟨t', complaints, e, hwf, _, hreg⟩ := weakUnregister_spec h o r
    refine ⟨{ s with table := t' }, ?_, hwf, funext fun o' => funext fun r' => propext (hreg o' r')⟩
    show (weakUnregister s.table (.object o) r >>= _) = _
    rw [e]
    rfl
  | clear o =>
    obtain ⟨t', memory', complaints, e, hwf, hreg, _⟩ := weakClear_spec h s.memory o
    refine ⟨⟨t', memory'⟩, ?_, hwf, funext fun o' => funext fun r' => propext (hreg o' r')⟩
    show (weakClear s.table s.memory o >>= _) = _
    rw [e]
    rfl

/-- **The table is a set of pairs.**  While no pair is registered twice, no run
ends in `bad_weak_table`, and the pairs of the table are those of a plain set. -/
theorem run_registered (memory : Memory) (ops : List Op) (h : Once (fun _ _ => False) ops) :
    ∃ s, ops.foldlM step (State.init memory) = .ok s ∧ s.table.WF ∧
      s.table.Registered = ops.foldl pairs (fun _ _ => False) := by
  have hempty : (State.init memory).table.Registered = fun _ _ => False :=
    funext fun o => funext fun r => eq_false fun ⟨refs, hm, _⟩ => WeakTable.not_has_empty o refs hm
  rw [← hempty] at h ⊢
  have hwf : (State.init memory).table.WF := WeakTable.wf_empty
  generalize State.init memory = s at h hwf
  clear hempty
  induction ops generalizing s with
  | nil => exact ⟨s, rfl, hwf, rfl⟩
  | cons op ops ih =>
    obtain ⟨s1, e1, hwf1, hreg1⟩ := step_registered hwf op h.1
    obtain ⟨s2, e2, hwf2, hreg2⟩ := ih s1 (hreg1 ▸ h.2) hwf1
    refine ⟨s2, ?_, hwf2, ?_⟩
    · rw [List.foldlM_cons, e1]
      exact e2
    · rw [hreg2, hreg1]
      rfl

/-- The fifth variable moves to a table of eight slots, which the seventh doubles. -/
theorem run_registered_seven :
    Once (fun _ _ => False) ((List.range 7).map fun i => Op.register 1 (i + 1)) ∧
      ∃ s, ((List.range 7).map fun i => Op.register 1 (i + 1)).foldlM step (State.init fun _ => .nil) =
        .ok s ∧ s.table.WF ∧
          s.table.Registered = ((List.range 7).map fun i => Op.register 1 (i + 1)).foldl pairs
            (fun _ _ => False) := by
  have h : Once (fun _ _ => False) ((List.range 7).map fun i => Op.register 1 (i + 1)) := by
    simp [Once, pairs, List.range_succ]
  exact ⟨h, run_registered _ _ h⟩

end BottomResearch.WeakReferences
