import BottomResearch.Blocks

/-!
# Keys and their setters

Registration turns a key into a setter with `setterForGetter`, and a notifying
setter turns its selector back into a key with `getterForSetter`.  Proved here:

* `rebuiltKey_eq_iff`: a key comes back exactly when its first unit is the lower
  case of its upper case, each of one unit;
* `convertBack_iff_firstUnit`: for a set of keys, in a process with any of the
  three categories, all of them come back, have different setters and are reported
  under their own names exactly when the first unit of each comes back.
-/

namespace BottomResearch.KeyNames

open Foundation Dispatch Runs Observing Registrations Messages Interception

variable {σ V : Type}

/-- The first unit of the key is the lower case of its upper case. -/
def FirstUnitComesBack (T : CaseTable) : NSString → Prop
  | [] => False
  | c :: _ => ∃ u, uppercaseString T [c] = [u] ∧ lowercaseString T [u] = [c]

/-- The key path of a callback. -/
def keyPathOf : Event V → NSString
  | .observeValueForKeyPath _ k .. => k
  | .hanleBlock _ _ _ _ k .. => k

/-- The keys convert back: each comes back from its setter, no two share a setter, and
a callback of the setter installed for a key reports this key. -/
structure ConvertBack (A : App σ V) (keys : NSString → Prop) : Prop where
  comesBack : ∀ k, keys k → ∃ s, setterForGetter A.table (some k) = some s ∧
    getterForSetter A.table s = .ok (some k)
  distinct : ∀ k k', keys k → keys k' →
    setterForGetter A.table (some k) = setterForGetter A.table (some k') → k = k'
  reported : ∀ ivars h x k cmd v, keys k → firstKey A h (A.classOf x) = some (some k) →
    ∀ e ∈ (msgSend A (A.after ivars h) x cmd v).events, keyPathOf e = k

/-! ## One key -/

theorem lowercaseString_singleton_ne_nil (T : CaseTable) (c : UInt16) :
    lowercaseString T [c] ≠ [] := T.mapCaseTo_ne_nil _ _ _ _

/-- A key comes back exactly when its first unit does. -/
theorem rebuiltKey_eq_iff (T : CaseTable) (c : UInt16) (rest : NSString) :
    rebuiltKey T (c :: rest) = c :: rest ↔ FirstUnitComesBack T (c :: rest) := by
  unfold rebuiltKey FirstUnitComesBack
  dsimp only [List.take_succ_cons, List.take_zero, List.drop_succ_cons, List.drop_zero]
  cases hu : uppercaseString T [c] with
  | nil => exact absurd hu (uppercaseString_singleton_ne_nil T c)
  | cons d more =>
    have hd := lowercaseString_singleton_ne_nil T d
    have hsplit : lowercaseString T [d] ++ (more ++ rest) = [c] ++ rest ↔
        lowercaseString T [d] ++ more = [c] := by
      rw [← List.append_assoc]
      exact List.append_left_inj rest
    constructor
    · intro h
      -- The lower case is not empty, so nothing of the upper case is left over.
      rcases List.append_eq_singleton_iff.mp (hsplit.mp h) with ⟨hnil, _⟩ | ⟨hlow, hmore⟩
      · exact absurd hnil hd
      · exact ⟨d, by rw [hmore], hlow⟩
    · rintro ⟨u, hcons, hlow⟩
      cases hcons
      exact hsplit.mpr (by rw [hlow]; rfl)

/-- The two conversions of one key. -/
theorem comesBack_iff (T : CaseTable) (k : NSString) :
    (∃ s, setterForGetter T (some k) = some s ∧ getterForSetter T s = .ok (some k)) ↔
      FirstUnitComesBack T k := by
  cases k with
  | nil =>
    constructor
    · rintro ⟨s, hs, _⟩
      cases hs
    · exact False.elim
  | cons c rest =>
    rw [← rebuiltKey_eq_iff]
    constructor
    · rintro ⟨s, hs, hg⟩
      rw [getterForSetter_setterForGetter hs] at hg
      exact Option.some.inj (Except.ok.inj hg)
    · intro h
      obtain ⟨s, hs⟩ : ∃ s, setterForGetter T (some (c :: rest)) = some s := ⟨_, rfl⟩
      exact ⟨s, hs, by rw [getterForSetter_setterForGetter hs, h]⟩

/-! ## Callbacks -/

/-- A callback reports the key rebuilt from the setter. -/
theorem keyPathOf_events {A : App σ V} {h : List (Op V)} {w : World σ V} (hr : Refines A h w)
    {x : Oid} {cmd : SetterSEL} {key : NSString}
    (hkey : getterForSetter A.table cmd.name = .ok (some key)) (v : Option V) {e : Event V}
    (he : e ∈ (msgSend A w x cmd v).events) : keyPathOf e = key := by
  by_cases hc : A.attachedLast = .blockKVO
  · obtain ⟨key', _, _, _, _, _, _, hkey', _, _, _, _, _, _, rfl⟩ :=
      (Blocks.mem_events_block hr hc x cmd v e).mp he
    rw [hkey] at hkey'
    cases hkey'
    rfl
  · obtain ⟨_, key', _, _, _, hkey', _, _, rfl⟩ :=
      (Delivery.mem_events_observer hr rfl hc x cmd v e).mp he
    rw [hkey] at hkey'
    cases hkey'
    rfl

/-- The key for which the overridden setter was installed is reported when it comes back. -/
theorem reported_of_comesBack {A : App σ V} {h : List (Op V)} {w : World σ V} (hr : Refines A h w)
    {x : Oid} {k : NSString} (hk : firstKey A h (A.classOf x) = some (some k))
    (hback : FirstUnitComesBack A.table k) (cmd : SetterSEL) (v : Option V) {e : Event V}
    (he : e ∈ (msgSend A w x cmd v).events) : keyPathOf e = k := by
  by_cases hi : Intercepts A h x cmd.name
  · obtain ⟨s, hs, hg⟩ := (comesBack_iff A.table k).mpr hback
    have ho := hi.2
    rw [overridden, hk, Option.bind_some, hs] at ho
    cases ho
    exact keyPathOf_events hr hg v he
  · rw [Delivery.events_of_not_intercepts hr hi] at he
    cases he

/-- Keys convert back exactly when the first unit of each does. -/
theorem convertBack_iff_firstUnit (A : App σ V) (keys : NSString → Prop) :
    ConvertBack A keys ↔ ∀ k, keys k → FirstUnitComesBack A.table k := by
  constructor
  · exact fun hall k hk => (comesBack_iff A.table k).mp (hall.comesBack k hk)
  · intro hall
    refine ⟨fun k hk => (comesBack_iff A.table k).mpr (hall k hk), ?_, ?_⟩
    · intro k k' hk hk' e
      obtain ⟨s, hs, hg⟩ := (comesBack_iff A.table k).mpr (hall k hk)
      obtain ⟨s', hs', hg'⟩ := (comesBack_iff A.table k').mpr (hall k' hk')
      rw [hs, hs'] at e
      cases e
      exact Option.some.inj (Except.ok.inj (hg.symm.trans hg'))
    · exact fun ivars h x k cmd v hk hfirst e he =>
        reported_of_comesBack (refines_after A ivars h) hfirst (hall k hk) cmd v he

/-- `Name` comes back as `name`. -/
theorem upper_key_comes_back_lower : ¬ ConvertBack personApp fun k => k = lit "Name" := by
  intro hall
  obtain ⟨s, hs, hg⟩ := hall.comesBack (lit "Name") rfl
  have hset : setterForGetter asciiTable (some (lit "Name")) = some (lit "setName:") := by decide
  cases hs.symm.trans hset
  revert hg
  decide

end BottomResearch.KeyNames
