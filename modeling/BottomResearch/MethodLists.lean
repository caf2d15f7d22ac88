import BottomResearch.Dispatch
import BottomResearch.MethodCache

/-!
# The method lists of a class

`objc-runtime-new.mm`: a class has an array of method lists.  Each list is
sorted by selector address when it is attached; the lists of categories stand
in front of the class's own, the newest first.  A category that is discovered
before its class is realized waits, and one that is discovered later is
attached at once.  Proved here:

* `findMethodInSortedMethodList_eq`: the binary search finds the first method of
  the selector in a sorted list;
* `searchMethodList_fixup`: sorting changes no search (`stable_sort`);
* `getMethodNoSuper_eq`: the lists are searched as one association list;
* `attachLists_lists`: the three layouts of the array are one list;
* `lookup_run`: along every run, a class answers as an association list to
  which categories are added in front, whenever the class was realized.
-/

namespace BottomResearch.MethodLists

open MethodCache (SEL)

variable {I : Type}

/-- `method_list_t`.  A list that is marked as fixed up is sorted by selector address. -/
structure MethodList (I : Type) where
  methods : List (SEL × I)
  fixedUp : Bool
  expectedSize : Bool
  sorted : fixedUp = true → (methods.map (·.1)).Pairwise (· ≤ ·)

/-! ## Searching one list -/

/-- The inner loop of `findMethodInSortedMethodList`. -/
def rewind (list : List (SEL × I)) (key : SEL) : Nat → Nat
  | 0 => 0
  | probe + 1 => if (list[probe]?).map (·.1) = some key then rewind list key probe else probe + 1

/-- The loop of `findMethodInSortedMethodList`, with positions for pointers.  The count
is halved in each turn, so it bounds the turns. -/
def searchFrom (list : List (SEL × I)) (key : SEL) : Nat → Nat → Nat → Option Nat
  | 0, _, _ => none
  | fuel + 1, base, count =>
    if count = 0 then none
    else
      let probe := base + count / 2
      match list[probe]? with
      | none => none
      | some m =>
        if key = m.1 then some (rewind list key probe)
        else if m.1 < key then searchFrom list key fuel (probe + 1) ((count - 1) / 2)
        else searchFrom list key fuel base (count / 2)

def findMethodInSortedMethodList (key : SEL) (list : List (SEL × I)) : Option Nat :=
  searchFrom list key list.length 0 list.length

def searchMethodList (mlist : MethodList I) (sel : SEL) : Option Nat :=
  if mlist.fixedUp && mlist.expectedSize then findMethodInSortedMethodList sel mlist.methods
  else mlist.methods.findIdx? fun m => m.1 = sel

/-- Where a list has its first method of a selector. -/
def firstIdx (list : List (SEL × I)) (sel : SEL) : Option Nat := list.findIdx? fun m => m.1 = sel

theorem firstIdx_eq_some_iff {list : List (SEL × I)} {sel : SEL} {i : Nat} :
    firstIdx list sel = some i ↔ (list[i]?).map (·.1) = some sel ∧
      ∀ j < i, (list[j]?).map (·.1) ≠ some sel := by
  unfold firstIdx
  rw [List.findIdx?_eq_some_iff_getElem]
  constructor
  · rintro ⟨hi, heq, hbefore⟩
    refine ⟨by simpa [List.getElem?_eq_getElem hi] using heq, fun j hj => ?_⟩
    simpa [List.getElem?_eq_getElem (Nat.lt_trans hj hi)] using hbefore j hj
  · rintro ⟨heq, hbefore⟩
    have hi : i < list.length := by
      rcases Nat.lt_or_ge i list.length with h | h
      · exact h
      · rw [List.getElem?_eq_none h] at heq
        cases heq
    refine ⟨hi, by simpa [List.getElem?_eq_getElem hi] using heq, fun j hj => ?_⟩
    simpa [List.getElem?_eq_getElem (Nat.lt_trans hj hi)] using hbefore j hj

theorem firstIdx_eq_none_iff {list : List (SEL × I)} {sel : SEL} :
    firstIdx list sel = none ↔ ∀ j : Nat, (list[j]?).map (·.1) ≠ some sel := by
  unfold firstIdx
  rw [List.findIdx?_eq_none_iff]
  constructor
  · intro h j hj
    obtain ⟨m, hm, he⟩ := Option.map_eq_some_iff.mp hj
    have := h m (List.mem_of_getElem? hm)
    simp [he] at this
  · intro h m hm
    obtain ⟨j, hj⟩ := List.getElem?_of_mem hm
    have := h j
    rw [hj] at this
    simpa using this

/-- The names at two positions of a sorted list. -/
theorem name_le {list : List (SEL × I)} (hs : (list.map (·.1)).Pairwise (· ≤ ·)) {i j : Nat}
    {a b : SEL} (hij : i ≤ j) (ha : (list[i]?).map (·.1) = some a)
    (hb : (list[j]?).map (·.1) = some b) : a ≤ b := by
  rw [← List.getElem?_map] at ha hb
  obtain ⟨hi, rfl⟩ := List.getElem?_eq_some_iff.mp ha
  obtain ⟨hj, rfl⟩ := List.getElem?_eq_some_iff.mp hb
  rcases Nat.lt_or_eq_of_le hij with h | rfl
  · exact List.pairwise_iff_getElem.mp hs i j hi hj h
  · exact Nat.le_refl _

/-- Rewinding from a method of the selector ends at the first one. -/
theorem rewind_spec {list : List (SEL × I)} (hs : (list.map (·.1)).Pairwise (· ≤ ·)) {key : SEL} :
    ∀ probe : Nat, (list[probe]?).map (·.1) = some key →
      firstIdx list key = some (rewind list key probe) := by
  intro probe
  induction probe with
  | zero =>
    intro h
    exact firstIdx_eq_some_iff.mpr ⟨h, fun j hj => absurd hj (Nat.not_lt_zero j)⟩
  | succ probe ih =>
    intro h
    unfold rewind
    split
    · rename_i hprev
      exact ih hprev
    · rename_i hprev
      refine firstIdx_eq_some_iff.mpr ⟨h, fun j hj heq => hprev ?_⟩
      -- Between two methods of the selector in a sorted list are only such methods.
      have hlt : probe < list.length := by
        have : probe + 1 < list.length := by
          rcases Nat.lt_or_ge (probe + 1) list.length with hl | hl
          · exact hl
          · rw [List.getElem?_eq_none hl] at h
            cases h
        omega
      have hat : (list[probe]?).map (·.1) = some list[probe].1 := by
        rw [List.getElem?_eq_getElem hlt]
        rfl
      have h1 := name_le hs (by omega) heq hat
      have h2 := name_le hs (by omega) hat h
      rw [hat, Nat.le_antisymm h2 h1]

theorem searchFrom_eq {list : List (SEL × I)} (hs : (list.map (·.1)).Pairwise (· ≤ ·)) {key : SEL} :
    ∀ fuel base count, count ≤ fuel → base + count ≤ list.length →
      (∀ j : Nat, (list[j]?).map (·.1) = some key → base ≤ j ∧ j < base + count) →
        searchFrom list key fuel base count = firstIdx list key := by
  intro fuel
  induction fuel with
  | zero =>
    intro base count hfuel hlen hwindow
    exact (firstIdx_eq_none_iff.mpr fun j hj => by
      have := hwindow j hj
      omega).symm
  | succ fuel ih =>
    intro base count hfuel hlen hwindow
    unfold searchFrom
    split
    · rename_i h0
      exact (firstIdx_eq_none_iff.mpr fun j hj => by
        have := hwindow j hj
        omega).symm
    · rename_i h0
      have hprobe : base + count / 2 < list.length := by omega
      have hat : (list[base + count / 2]?).map (·.1) = some list[base + count / 2].1 := by
        rw [List.getElem?_eq_getElem hprobe]
        rfl
      simp only [List.getElem?_eq_getElem hprobe]
      split
      · rename_i hkey
        rw [hkey]
        exact (rewind_spec hs _ hat).symm
      · rename_i hne
        split
        · rename_i hlt
          refine ih _ _ (by omega) (by omega) fun j hj => ?_
          have hin := hwindow j hj
          have hright : ¬ j ≤ base + count / 2 := fun hle =>
            Nat.not_lt_of_le (name_le hs hle hj hat) hlt
          omega
        · rename_i hge
          refine ih _ _ (by omega) (by omega) fun j hj => ?_
          have hin := hwindow j hj
          have hleft : ¬ base + count / 2 ≤ j := fun hle =>
            hne (Nat.le_antisymm (Nat.not_lt.mp hge) (name_le hs hle hat hj))
          omega

/-- **Binary search** finds the first method of the selector. -/
theorem findMethodInSortedMethodList_eq {list : List (SEL × I)}
    (hs : (list.map (·.1)).Pairwise (· ≤ ·)) (key : SEL) :
    findMethodInSortedMethodList key list = firstIdx list key := by
  refine searchFrom_eq hs list.length 0 list.length (by omega) (by omega)
    fun j hj => ⟨by omega, ?_⟩
  rcases Nat.lt_or_ge j list.length with h | h
  · omega
  · rw [List.getElem?_eq_none h] at hj
    cases hj

theorem searchMethodList_eq (mlist : MethodList I) (sel : SEL) :
    searchMethodList mlist sel = firstIdx mlist.methods sel := by
  unfold searchMethodList
  split
  · rename_i h
    rw [Bool.and_eq_true] at h
    exact findMethodInSortedMethodList_eq (mlist.sorted h.1) sel
  · rfl

/-! ## Searching all lists -/

/-- A `method_t` is known by the position of its list and its position there. -/
abbrev MethodRef := Nat × Nat

/-- The loop of `getMethodNoSuper_nolock`. -/
def findMethod : List (MethodList I) → SEL → Option MethodRef
  | [], _ => none
  | mlist :: lists, sel =>
    match searchMethodList mlist sel with
    | some k => some (0, k)
    | none => (findMethod lists sel).map fun m => (m.1 + 1, m.2)

def impAt (lists : List (MethodList I)) (m : MethodRef) : Option I :=
  (lists[m.1]?).bind fun mlist => (mlist.methods[m.2]?).map (·.2)

def MethodList.setImp (mlist : MethodList I) (k : Nat) (imp : I) : MethodList I where
  methods := mlist.methods.modify k fun m => (m.1, imp)
  fixedUp := mlist.fixedUp
  expectedSize := mlist.expectedSize
  sorted h := by
    have same : (mlist.methods.modify k fun m => (m.1, imp)).map (·.1) =
        mlist.methods.map (·.1) := by
      apply List.ext_getElem?
      intro j
      rw [List.getElem?_map, List.getElem?_map, List.getElem?_modify]
      cases mlist.methods[j]? with
      | none => rfl
      | some m => split <;> rfl
    rw [same]
    exact mlist.sorted h

def setImpAt (lists : List (MethodList I)) (m : MethodRef) (imp : I) : List (MethodList I) :=
  lists.modify m.1 fun mlist => mlist.setImp m.2 imp

/-- All methods, in the order in which they are searched. -/
def flatten (lists : List (MethodList I)) : List (SEL × I) := lists.flatMap (·.methods)

theorem firstIdx_cons (m : SEL × I) (list : List (SEL × I)) (sel : SEL) :
    firstIdx (m :: list) sel = if m.1 = sel then some 0 else (firstIdx list sel).map (· + 1) := by
  unfold firstIdx
  rw [List.findIdx?_cons]
  rcases Nat.decEq m.1 sel with h | h
  · rw [if_neg h, decide_eq_false h]
    rfl
  · rw [if_pos h, decide_eq_true h]
    rfl

theorem lookup_cons (m : SEL × I) (list : List (SEL × I)) (sel : SEL) :
    (m :: list).lookup sel = if m.1 = sel then some m.2 else list.lookup sel := by
  rw [List.lookup_cons]
  rcases Nat.decEq m.1 sel with h | h
  · rw [if_neg h, beq_false_of_ne (Ne.symm h)]
  · rw [if_pos h, h, beq_self_eq_true]

theorem lookup_append (l1 l2 : List (SEL × I)) (sel : SEL) :
    (l1 ++ l2).lookup sel = (l1.lookup sel).or (l2.lookup sel) := by
  induction l1 with
  | nil => rfl
  | cons m l1 ih =>
    rw [List.cons_append, lookup_cons, lookup_cons]
    split
    · rfl
    · exact ih

theorem lookup_eq_firstIdx (list : List (SEL × I)) (sel : SEL) :
    list.lookup sel = (firstIdx list sel).bind fun k => (list[k]?).map (·.2) := by
  induction list with
  | nil => rfl
  | cons m list ih =>
    rw [lookup_cons, firstIdx_cons]
    split
    · rfl
    · rw [ih]
      cases firstIdx list sel with
      | none => rfl
      | some k => rfl

theorem lookup_modify_first {list : List (SEL × I)} {sel : SEL} :
    ∀ {k : Nat}, firstIdx list sel = some k → ∀ (imp : I) (s : SEL),
      (list.modify k fun m => (m.1, imp)).lookup s =
        if s = sel then some imp else list.lookup s := by
  induction list with
  | nil => intro k h; cases h
  | cons m list ih =>
    intro k h imp s
    rw [firstIdx_cons] at h
    split at h
    · rename_i hm
      cases h
      show ((m.1, imp) :: list).lookup s = _
      rw [lookup_cons, lookup_cons, hm]
      rcases Nat.decEq sel s with hs | hs
      · rw [if_neg hs, if_neg (Ne.symm hs), if_neg hs]
      · rw [if_pos hs, if_pos hs.symm]
    · rename_i hm
      obtain ⟨j, hj, rfl⟩ := Option.map_eq_some_iff.mp h
      show (m :: list.modify j _).lookup s = _
      rw [lookup_cons, lookup_cons, ih hj imp s]
      rcases Nat.decEq m.1 s with hs | hs
      · rw [if_neg hs, if_neg hs]
      · rw [if_pos hs, if_pos hs, if_neg (fun e => hm (hs.trans e))]

theorem searchMethodList_eq_none_iff (mlist : MethodList I) (sel : SEL) :
    searchMethodList mlist sel = none ↔ mlist.methods.lookup sel = none := by
  rw [searchMethodList_eq, lookup_eq_firstIdx]
  cases h : firstIdx mlist.methods sel with
  | none => simp
  | some k =>
    obtain ⟨m, hm, _⟩ := Option.map_eq_some_iff.mp (firstIdx_eq_some_iff.mp h).1
    simp [hm]

/-- **One table.**  Searching the lists is a lookup in all their methods. -/
theorem findMethod_imp (lists : List (MethodList I)) (sel : SEL) :
    (findMethod lists sel).bind (impAt lists) = (flatten lists).lookup sel := by
  induction lists with
  | nil => rfl
  | cons mlist lists ih =>
    show _ = (mlist.methods ++ flatten lists).lookup sel
    unfold findMethod
    rw [lookup_append, lookup_eq_firstIdx, ← searchMethodList_eq]
    cases h : searchMethodList mlist sel with
    | some k =>
      rw [searchMethodList_eq] at h
      obtain ⟨m, hm, _⟩ := Option.map_eq_some_iff.mp (firstIdx_eq_some_iff.mp h).1
      show impAt (mlist :: lists) (0, k) = _
      simp [impAt, hm]
    | none =>
      rw [← ih]
      cases findMethod lists sel with
      | none => rfl
      | some m => rfl

theorem findMethod_eq_none_iff (lists : List (MethodList I)) (sel : SEL) :
    findMethod lists sel = none ↔ (flatten lists).lookup sel = none := by
  induction lists with
  | nil => exact ⟨fun _ => rfl, fun _ => rfl⟩
  | cons mlist lists ih =>
    show _ ↔ (mlist.methods ++ flatten lists).lookup sel = none
    unfold findMethod
    rw [lookup_append, Option.or_eq_none_iff, ← ih, ← searchMethodList_eq_none_iff]
    cases searchMethodList mlist sel with
    | some k => simp
    | none => simp

/-- Setting the implementation of the method that is found. -/
theorem lookup_setImpAt {lists : List (MethodList I)} {sel : SEL} :
    ∀ {m : MethodRef}, findMethod lists sel = some m → ∀ (imp : I) (s : SEL),
      (flatten (setImpAt lists m imp)).lookup s =
        if s = sel then some imp else (flatten lists).lookup s := by
  induction lists with
  | nil => intro m h; cases h
  | cons mlist lists ih =>
    intro m h imp s
    unfold findMethod at h
    cases hsearch : searchMethodList mlist sel with
    | some k =>
      rw [hsearch] at h
      cases h
      rw [searchMethodList_eq] at hsearch
      show ((mlist.methods.modify k _) ++ flatten lists).lookup s =
        if s = sel then some imp else (mlist.methods ++ flatten lists).lookup s
      rw [lookup_append, lookup_append, lookup_modify_first hsearch]
      split <;> rfl
    | none =>
      rw [hsearch] at h
      obtain ⟨j, hj, rfl⟩ := Option.map_eq_some_iff.mp h
      have hnone := (searchMethodList_eq_none_iff mlist sel).mp hsearch
      show (mlist.methods ++ flatten (setImpAt lists j imp)).lookup s =
        if s = sel then some imp else (mlist.methods ++ flatten lists).lookup s
      rw [lookup_append, lookup_append, ih hj]
      split
      · rename_i hs
        rw [hs, hnone]
        rfl
      · rfl

/-! ## Attaching lists -/

/-- The order of `SortBySELAddress`. -/
def addressLe (lhs rhs : SEL × I) : Bool := lhs.1 ≤ rhs.1

theorem addressLe_trans (a b c : SEL × I) (h1 : addressLe a b = true) (h2 : addressLe b c = true) :
    addressLe a c = true := by
  unfold addressLe at *
  rw [decide_eq_true_eq] at *
  exact Nat.le_trans h1 h2

theorem addressLe_total (a b : SEL × I) : (addressLe a b || addressLe b a) = true := by
  unfold addressLe
  rw [Bool.or_eq_true, decide_eq_true_eq, decide_eq_true_eq]
  exact Nat.le_total a.1 b.1

/-- `std::stable_sort`. -/
def sortBySELAddress (methods : List (SEL × I)) : List (SEL × I) := methods.mergeSort addressLe

theorem pairwise_sortBySELAddress (methods : List (SEL × I)) :
    ((sortBySELAddress methods).map (·.1)).Pairwise (· ≤ ·) := by
  rw [List.pairwise_map]
  have hs := List.pairwise_mergeSort addressLe_trans addressLe_total methods
  exact hs.imp fun h => of_decide_eq_true h

def fixupMethodList (mlist : MethodList I) : MethodList I where
  methods := sortBySELAddress mlist.methods
  fixedUp := true
  expectedSize := mlist.expectedSize
  sorted _ := pairwise_sortBySELAddress mlist.methods

def prepareMethodLists (addedLists : List (MethodList I)) : List (MethodList I) :=
  addedLists.map fun mlist => if mlist.fixedUp then mlist else fixupMethodList mlist

/-- `list_array_tt`: no list or one, or an array of lists. -/
inductive ListArray (α : Type) where
  | one (list : Option α)
  | many (lists : List α)

def ListArray.lists {α : Type} : ListArray α → List α
  | .one list => list.toList
  | .many lists => lists

def ListArray.attachLists {α : Type} (a : ListArray α) (addedLists : List α) : ListArray α :=
  match addedLists, a with
  | [], a => a
  | added, .many lists => .many (added ++ lists)
  | [added], .one none => .one (some added)
  | added, .one list => .many (added ++ list.toList)

/-- Whatever the layout, the added lists come first. -/
theorem attachLists_lists {α : Type} (a : ListArray α) (addedLists : List α) :
    (a.attachLists addedLists).lists = addedLists ++ a.lists := by
  cases a with
  | many lists => cases addedLists <;> rfl
  | one list =>
    rcases addedLists with _ | ⟨added, _ | ⟨added', rest⟩⟩
    · rfl
    · cases list <;> rfl
    · cases list <;> rfl

/-- Changing one list in place. -/
def ListArray.modify {α : Type} (a : ListArray α) (i : Nat) (f : α → α) : ListArray α :=
  match a with
  | .one list => .one (if i = 0 then list.map f else list)
  | .many lists => .many (lists.modify i f)

theorem modify_lists {α : Type} (a : ListArray α) (i : Nat) (f : α → α) :
    (a.modify i f).lists = a.lists.modify i f := by
  cases a with
  | many lists => rfl
  | one list =>
    cases list with
    | none => cases i <;> rfl
    | some l =>
      cases i with
      | zero => rfl
      | succ i => simp [ListArray.modify, ListArray.lists]

/-- The methods of one selector keep their order when a list is sorted. -/
theorem filter_sortBySELAddress (methods : List (SEL × I)) (sel : SEL) :
    (sortBySELAddress methods).filter (fun m => m.1 = sel) =
      methods.filter fun m => m.1 = sel := by
  have hsame : (methods.filter fun m => m.1 = sel).Pairwise
      fun lhs rhs => addressLe lhs rhs = true := by
    refine List.pairwise_iff_getElem.mpr fun i j hi hj _ => ?_
    have h1 := List.of_mem_filter (List.getElem_mem hi)
    have h2 := List.of_mem_filter (List.getElem_mem hj)
    rw [decide_eq_true_eq] at h1 h2
    exact decide_eq_true (Nat.le_of_eq (h1.trans h2.symm))
  have hsub := List.sublist_mergeSort addressLe_trans addressLe_total hsame List.filter_sublist
  have hin : List.Sublist (methods.filter fun m => m.1 = sel)
      ((sortBySELAddress methods).filter fun m => m.1 = sel) := by
    have := hsub.filter fun m => decide (m.1 = sel)
    simp only [List.filter_filter, Bool.and_self] at this
    exact this
  refine (hin.eq_of_length ?_).symm
  exact ((List.mergeSort_perm methods _).filter _).length_eq.symm

theorem lookup_eq_head?_filter (list : List (SEL × I)) (sel : SEL) :
    list.lookup sel = ((list.filter fun m => m.1 = sel).head?).map (·.2) := by
  induction list with
  | nil => rfl
  | cons m list ih =>
    rw [lookup_cons, List.filter_cons]
    rcases Nat.decEq m.1 sel with h | h
    · rw [if_neg h, if_neg (by simpa using h), ih]
    · rw [if_pos h, if_pos (by simpa using h)]
      rfl

/-- **Sorting** changes no lookup. -/
theorem lookup_sortBySELAddress (methods : List (SEL × I)) (sel : SEL) :
    (sortBySELAddress methods).lookup sel = methods.lookup sel := by
  rw [lookup_eq_head?_filter, filter_sortBySELAddress, ← lookup_eq_head?_filter]

theorem lookup_flatten_prepare (addedLists : List (MethodList I)) (sel : SEL) :
    (flatten (prepareMethodLists addedLists)).lookup sel = (flatten addedLists).lookup sel := by
  induction addedLists with
  | nil => rfl
  | cons mlist addedLists ih =>
    have hone : (if mlist.fixedUp then mlist else fixupMethodList mlist).methods.lookup sel =
        mlist.methods.lookup sel := by
      split
      · rfl
      · exact lookup_sortBySELAddress mlist.methods sel
    show ((if mlist.fixedUp then mlist else fixupMethodList mlist).methods ++
      flatten (prepareMethodLists addedLists)).lookup sel =
        (mlist.methods ++ flatten addedLists).lookup sel
    rw [lookup_append, lookup_append, hone, ih]

theorem flatten_append (l1 l2 : List (MethodList I)) : flatten (l1 ++ l2) = flatten l1 ++ flatten l2 :=
  List.flatMap_append

/-! ## Classes and their categories -/

/-- What a class needs for its methods.  `bonus` is the method that a root metaclass
gets when it is methodized; a category without methods for the class is `none`. -/
structure ClassData (I : Type) where
  baseMethods : Option (MethodList I)
  bonus : Option (SEL × I)
  realized : Bool
  methods : ListArray (MethodList I)
  unattached : List (Option (MethodList I))

/-- A class of an image that was just mapped. -/
def newClass (baseMethods : Option (MethodList I)) (bonus : Option (SEL × I)) : ClassData I :=
  ⟨baseMethods, bonus, false, .one none, []⟩

/-- `getMethodNoSuper_nolock` and the implementation of what it finds. -/
def getMethodNoSuper (c : ClassData I) (sel : SEL) : Option I :=
  (findMethod c.methods.lists sel).bind (impAt c.methods.lists)

/-- `attachCategories`, which walks backwards to have the newest category first. -/
def attachCategories (c : ClassData I) (cats : List (Option (MethodList I))) : ClassData I :=
  let mlists := cats.reverse.filterMap id
  { c with methods := c.methods.attachLists (prepareMethodLists mlists) }

/-- `m->imp = imp` for a method that was found before. -/
def ClassData.setImp (c : ClassData I) (m : MethodRef) (imp : I) : ClassData I :=
  { c with methods := c.methods.modify m.1 fun mlist => mlist.setImp m.2 imp }

/-- `addMethod`, with the implementation that was there before. -/
def addMethod (c : ClassData I) (name : SEL) (imp : I) (replace : Bool) : ClassData I × Option I :=
  match findMethod c.methods.lists name with
  | some m =>
    if replace then (c.setImp m imp, impAt c.methods.lists m)
    else (c, impAt c.methods.lists m)
  | none =>
    let newlist : MethodList I := ⟨[(name, imp)], true, true, fun _ => List.pairwise_singleton _ _⟩
    ({ c with methods := c.methods.attachLists (prepareMethodLists [newlist]) }, none)

def methodizeClass (c : ClassData I) : ClassData I :=
  let c1 := match c.baseMethods with
    | some list => { c with methods := c.methods.attachLists (prepareMethodLists [list]) }
    | none => c
  let c2 := match c1.bonus with
    | some (sel, imp) => (addMethod c1 sel imp false).1
    | none => c1
  attachCategories { c2 with unattached := [] } c2.unattached

def remethodizeClass (c : ClassData I) : ClassData I :=
  attachCategories { c with unattached := [] } c.unattached

def realizeClass (c : ClassData I) : ClassData I :=
  if c.realized then c else methodizeClass { c with realized := true }

def addUnattachedCategory (c : ClassData I) (cat : Option (MethodList I)) : ClassData I :=
  { c with unattached := c.unattached ++ [cat] }

/-- What `_read_images` does with a category of the class. -/
def discoverCategory (c : ClassData I) (cat : Option (MethodList I)) : ClassData I :=
  let c := addUnattachedCategory c cat
  if c.realized then remethodizeClass c else c

/-! ## What the operations do to lookups -/

/-- The purpose of method lists: which implementation a selector has in the class. -/
abbrev Table (I : Type) := SEL → Option I

/-- The methods of a list come before those of the table. -/
def Table.override (t : Table I) (list : List (SEL × I)) : Table I := fun s => (list.lookup s).or (t s)

def Table.add (t : Table I) (name : SEL) (imp : I) (replace : Bool) : Table I := fun s =>
  if s = name then if replace then some imp else (t name).or (some imp) else t s

def table (c : ClassData I) : Table I := fun s => (flatten c.methods.lists).lookup s

theorem getMethodNoSuper_eq (c : ClassData I) (sel : SEL) :
    getMethodNoSuper c sel = table c sel := findMethod_imp c.methods.lists sel

theorem flatten_attachLists (a : ListArray (MethodList I)) (added : List (MethodList I)) (s : SEL) :
    (flatten (a.attachLists (prepareMethodLists added)).lists).lookup s =
      ((flatten added).lookup s).or ((flatten a.lists).lookup s) := by
  rw [attachLists_lists, flatten_append, lookup_append, lookup_flatten_prepare]

/-- The methods of categories, the oldest category first, in the order of their search. -/
def categoryMethods (cats : List (Option (MethodList I))) : List (SEL × I) :=
  flatten (cats.reverse.filterMap id)

theorem table_attachCategories (c : ClassData I) (cats : List (Option (MethodList I))) :
    table (attachCategories c cats) = (table c).override (categoryMethods cats) :=
  funext fun s => flatten_attachLists c.methods _ s

theorem table_addMethod (c : ClassData I) (name : SEL) (imp : I) (replace : Bool) :
    table (addMethod c name imp replace).1 = (table c).add name imp replace := by
  funext s
  unfold addMethod Table.add
  have hfound := findMethod_imp c.methods.lists name
  cases hm : findMethod c.methods.lists name with
  | some m =>
    rw [hm] at hfound
    have hsome : ∃ i, table c name = some i := by
      rcases h : table c name with _ | i
      · rw [(findMethod_eq_none_iff c.methods.lists name).mpr h] at hm
        cases hm
      · exact ⟨i, rfl⟩
    cases replace with
    | true =>
      show (flatten (c.methods.modify m.1 _).lists).lookup s = _
      rw [modify_lists]
      exact lookup_setImpAt hm imp s
    | false =>
      show table c s = _
      split
      · rename_i hs
        obtain ⟨i, hi⟩ := hsome
        rw [hs, hi]
        rfl
      · rfl
  | none =>
    have hnone : table c name = none := (findMethod_eq_none_iff c.methods.lists name).mp hm
    show (flatten (c.methods.attachLists (prepareMethodLists [_])).lists).lookup s = _
    rw [flatten_attachLists]
    show (([(name, imp)] : List (SEL × I)).lookup s).or (table c s) = _
    rw [lookup_cons, hnone]
    rcases Nat.decEq name s with h | h
    · rw [if_neg h, if_neg (Ne.symm h)]
      rfl
    · rw [if_pos h, if_pos h.symm]
      cases replace <;> rfl

/-- `class_addMethod` and `class_replaceMethod` return what was there before. -/
theorem addMethod_result (c : ClassData I) (name : SEL) (imp : I) (replace : Bool) :
    (addMethod c name imp replace).2 = table c name := by
  have hfound : getMethodNoSuper c name = table c name := findMethod_imp c.methods.lists name
  unfold getMethodNoSuper at hfound
  unfold addMethod
  cases hm : findMethod c.methods.lists name with
  | some m =>
    rw [hm] at hfound
    cases replace with
    | true => exact hfound
    | false => exact hfound
  | none =>
    rw [hm] at hfound
    exact hfound

/-! ## Runs -/

inductive Op (I : Type) where
  | discover (cat : Option (MethodList I))
  | realize
  | add (name : SEL) (imp : I) (replace : Bool)

/-- Methods can be added to a realized class only. -/
def step (c : ClassData I) : Op I → Option (ClassData I)
  | .discover cat => some (discoverCategory c cat)
  | .realize => some (realizeClass c)
  | .add name imp replace =>
    if c.realized then some (addMethod c name imp replace).1 else none

def run (c : ClassData I) (ops : List (Op I)) : Option (ClassData I) := ops.foldlM step c

/-- What the operations are for. -/
def Table.step (t : Table I) : Op I → Table I
  | .discover cat => t.override ((cat.map (·.methods)).getD [])
  | .realize => t
  | .add name imp replace => t.add name imp replace

def Table.run (t : Table I) (ops : List (Op I)) : Table I := ops.foldl Table.step t

/-- The table of a new class: its own methods before the one that it gets. -/
def Table.new (baseMethods : Option (MethodList I)) (bonus : Option (SEL × I)) : Table I :=
  Table.override (fun s => bonus.toList.lookup s) ((baseMethods.map (·.methods)).getD [])

theorem addMethod_keeps (c : ClassData I) (name : SEL) (imp : I) (replace : Bool) :
    (addMethod c name imp replace).1.realized = c.realized ∧
      (addMethod c name imp replace).1.unattached = c.unattached ∧
      (addMethod c name imp replace).1.baseMethods = c.baseMethods ∧
      (addMethod c name imp replace).1.bonus = c.bonus := by
  unfold addMethod
  cases findMethod c.methods.lists name with
  | some m => cases replace <;> exact ⟨rfl, rfl, rfl, rfl⟩
  | none => exact ⟨rfl, rfl, rfl, rfl⟩

theorem override_append (t : Table I) (l1 l2 : List (SEL × I)) :
    (t.override l1).override l2 = t.override (l2 ++ l1) := by
  funext s
  unfold Table.override
  rw [lookup_append, Option.or_assoc]

theorem categoryMethods_snoc (cats : List (Option (MethodList I))) (cat : Option (MethodList I)) :
    categoryMethods (cats ++ [cat]) = (cat.map (·.methods)).getD [] ++ categoryMethods cats := by
  unfold categoryMethods
  rw [List.reverse_append, List.reverse_singleton, List.singleton_append, List.filterMap_cons]
  cases cat <;> rfl

theorem table_methodizeClass {c : ClassData I} (h : c.methods.lists = []) :
    table (methodizeClass c) =
      (Table.new c.baseMethods c.bonus).override (categoryMethods c.unattached) ∧
      (methodizeClass c).realized = c.realized ∧ (methodizeClass c).unattached = [] := by
  -- The class's own methods.
  obtain ⟨c1, e1, hbonus, hreal, hcats, htable⟩ : ∃ c1, c1 = (match c.baseMethods with
      | some list => { c with methods := c.methods.attachLists (prepareMethodLists [list]) }
      | none => c) ∧ c1.bonus = c.bonus ∧ c1.realized = c.realized ∧
        c1.unattached = c.unattached ∧
        ∀ s, table c1 s = ((c.baseMethods.map (·.methods)).getD []).lookup s := by
    refine ⟨_, rfl, ?_⟩
    cases hb : c.baseMethods with
    | none => exact ⟨rfl, rfl, rfl, fun s => by unfold table; rw [h]; rfl⟩
    | some list =>
      refine ⟨rfl, rfl, rfl, fun s => ?_⟩
      show (flatten (c.methods.attachLists (prepareMethodLists [list])).lists).lookup s = _
      rw [flatten_attachLists, h, flatten, List.flatMap_singleton]
      exact Option.or_none
  -- What a root metaclass gets comes after them.
  obtain ⟨c2, e2, hreal2, hcats2, htable2⟩ : ∃ c2, c2 = (match c1.bonus with
      | some (sel, imp) => (addMethod c1 sel imp false).1
      | none => c1) ∧ c2.realized = c.realized ∧ c2.unattached = c.unattached ∧
        table c2 = Table.new c.baseMethods c.bonus := by
    refine ⟨_, rfl, ?_⟩
    cases hb : c1.bonus with
    | none =>
      refine ⟨hreal, hcats, funext fun s => ?_⟩
      unfold Table.new Table.override
      rw [htable s, ← hbonus, hb]
      exact Option.or_none.symm
    | some m =>
      obtain ⟨sel, imp⟩ := m
      have hkeep := addMethod_keeps c1 sel imp false
      refine ⟨hkeep.1.trans hreal, hkeep.2.1.trans hcats, ?_⟩
      show table (addMethod c1 sel imp false).1 = _
      rw [table_addMethod]
      funext s
      unfold Table.new Table.override Table.add
      rw [← hbonus, hb, ← htable s]
      show _ = (table c1 s).or (([(sel, imp)] : List (SEL × I)).lookup s)
      rw [lookup_cons]
      rcases Nat.decEq sel s with hs | hs
      · rw [if_neg (Ne.symm hs), if_neg hs]
        exact Option.or_none.symm
      · rw [if_pos hs.symm, if_pos hs, hs]
        rfl
  have e : methodizeClass c = attachCategories { c2 with unattached := [] } c2.unattached := by
    unfold methodizeClass
    rw [e2, e1]
  rw [e]
  refine ⟨?_, hreal2, rfl⟩
  rw [table_attachCategories, ← hcats2, ← htable2]
  rfl

/-- A class stands for a table, once it is realized and before. -/
structure Represents (c : ClassData I) (t : Table I) : Prop where
  settled : c.realized = true → c.unattached = [] ∧ table c = t
  waiting : c.realized = false → c.methods.lists = [] ∧
    t = (Table.new c.baseMethods c.bonus).override (categoryMethods c.unattached)

theorem represents_newClass (baseMethods : Option (MethodList I)) (bonus : Option (SEL × I)) :
    Represents (newClass baseMethods bonus) (Table.new baseMethods bonus) where
  settled h := by cases h
  waiting _ := ⟨rfl, rfl⟩

theorem represents_realizeClass {c : ClassData I} {t : Table I} (h : Represents c t) :
    Represents (realizeClass c) t ∧ (realizeClass c).realized = true := by
  unfold realizeClass
  cases hr : c.realized with
  | true => exact ⟨h, hr⟩
  | false =>
    obtain ⟨hlists, ht⟩ := h.waiting hr
    obtain ⟨htable, hreal, hcats⟩ := table_methodizeClass (c := { c with realized := true }) hlists
    refine ⟨⟨fun _ => ⟨hcats, htable.trans ht.symm⟩, fun hf => ?_⟩, hreal⟩
    have : (true : Bool) = false := hreal.symm.trans hf
    cases this

theorem represents_discoverCategory {c : ClassData I} {t : Table I} (h : Represents c t)
    (cat : Option (MethodList I)) :
    Represents (discoverCategory c cat) (t.override ((cat.map (·.methods)).getD [])) := by
  unfold discoverCategory
  cases hr : c.realized with
  | true =>
    obtain ⟨hcats, htable⟩ := h.settled hr
    have hone : categoryMethods (c.unattached ++ [cat]) = (cat.map (·.methods)).getD [] := by
      rw [categoryMethods_snoc, hcats]
      exact List.append_nil _
    show Represents (if c.realized = true then _ else _) _
    rw [if_pos hr]
    refine ⟨fun _ => ⟨rfl, ?_⟩, fun hf => ?_⟩
    · show table (attachCategories _ (c.unattached ++ [cat])) = _
      rw [table_attachCategories, hone, ← htable]
      rfl
    · have : c.realized = false := hf
      rw [hr] at this
      cases this
  | false =>
    obtain ⟨hlists, ht⟩ := h.waiting hr
    show Represents (if c.realized = true then _ else _) _
    rw [if_neg (by rw [hr]; exact Bool.false_ne_true)]
    refine ⟨fun hf => ?_, fun _ => ⟨hlists, ?_⟩⟩
    · have : c.realized = true := hf
      rw [hr] at this
      cases this
    · show _ = (Table.new c.baseMethods c.bonus).override (categoryMethods (c.unattached ++ [cat]))
      rw [categoryMethods_snoc, ← override_append, ← ht]

theorem represents_addMethod {c : ClassData I} {t : Table I} (h : Represents c t)
    (hr : c.realized = true) (name : SEL) (imp : I) (replace : Bool) :
    Represents (addMethod c name imp replace).1 (t.add name imp replace) := by
  obtain ⟨hcats, htable⟩ := h.settled hr
  have hkeep := addMethod_keeps c name imp replace
  refine ⟨fun _ => ⟨hkeep.2.1.trans hcats, ?_⟩, fun hf => ?_⟩
  · rw [table_addMethod, htable]
  · rw [hkeep.1, hr] at hf
    cases hf

theorem represents_step {c c' : ClassData I} {t : Table I} {op : Op I} (h : Represents c t)
    (hs : step c op = some c') : Represents c' (t.step op) := by
  cases op with
  | discover cat =>
    cases hs
    exact represents_discoverCategory h cat
  | realize =>
    cases hs
    exact (represents_realizeClass h).1
  | add name imp replace =>
    change (if c.realized = true then some (addMethod c name imp replace).1 else none) = some c'
      at hs
    split at hs
    · rename_i hr
      cases hs
      exact represents_addMethod h hr name imp replace
    · cases hs

theorem represents_run {c c' : ClassData I} {t : Table I} {ops : List (Op I)} (h : Represents c t)
    (hs : run c ops = some c') : Represents c' (t.run ops) := by
  induction ops generalizing c t with
  | nil =>
    cases hs
    exact h
  | cons op ops ih =>
    unfold run at hs
    rw [List.foldlM_cons] at hs
    obtain ⟨c1, h1, hrest⟩ := Option.bind_eq_some_iff.mp hs
    exact ih (represents_step h h1) hrest

/-- **The lists of a class along every run** answer as a table to which each category
was added in front when it was discovered, whenever the class was realized. -/
theorem lookup_run (baseMethods : Option (MethodList I)) (bonus : Option (SEL × I))
    (ops : List (Op I)) {c : ClassData I} (h : run (newClass baseMethods bonus) ops = some c)
    (sel : SEL) :
    getMethodNoSuper (realizeClass c) sel = (Table.new baseMethods bonus).run ops sel := by
  obtain ⟨hrep, hr⟩ :=
    represents_realizeClass (represents_run (represents_newClass baseMethods bonus) h)
  rw [getMethodNoSuper_eq, (hrep.settled hr).2]

/-- Two categories that wait for the class, one with two methods of a selector: the
first of them is found, before the class's own. -/
theorem lookup_run_waiting :
    getMethodNoSuper (realizeClass (discoverCategory (discoverCategory
      (newClass (some ⟨[(5, 0), (4, 8)], false, true, nofun⟩) none)
        (some ⟨[(7, 3), (5, 1), (5, 9)], false, true, nofun⟩))
        (some ⟨[(3, 7)], false, true, nofun⟩))) 5 = some 1 :=
  lookup_run (some ⟨[(5, 0), (4, 8)], false, true, nofun⟩) none
    [.discover (some ⟨[(7, 3), (5, 1), (5, 9)], false, true, nofun⟩),
      .discover (some ⟨[(3, 7)], false, true, nofun⟩)] rfl 5

end BottomResearch.MethodLists
