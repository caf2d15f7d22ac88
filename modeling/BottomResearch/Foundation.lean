/-!
# Foundation strings

A string is the list of its UTF-16 units.  The case mappings are the loops of
`CFStringUppercase`, `CFStringLowercase` and `CFStringCapitalize` over the
Unicode tables, which are a parameter (`CaseTable`): of them only what the loops
show for ASCII is fixed.  `asciiTable` is a table that maps nothing else.
-/

namespace BottomResearch.Foundation

/-- A string is its units, as `length` and `substringToIndex:` count them. -/
abbrev NSString := List UInt16

/-- The literal `@"..."` of an ASCII text. -/
def lit (s : String) : NSString := s.toList.map fun c => c.toNat.toUInt16

/-! ## Case tables -/

inductive CaseMapping
  | toLowercase
  | toUppercase
  | toTitlecase
  deriving DecidableEq, Repr

def isAsciiUpper (c : UInt16) : Bool := 65 ≤ c && c ≤ 90

def isAsciiLower (c : UInt16) : Bool := 97 ≤ c && c ≤ 122

/-- The branch of the three loops for eight-bit contents below 128. -/
def mapAscii : CaseMapping → UInt16 → UInt16
  | .toLowercase, c => if isAsciiUpper c then c + 32 else c
  | .toUppercase, c | .toTitlecase, c => if isAsciiLower c then c - 32 else c

/-- The Unicode data behind the loops: `CFUniCharMapCaseTo` for a character
between the units before and after it, and the character sets that
`CFStringCapitalize` asks for word boundaries. -/
structure CaseTable where
  mapCaseTo : CaseMapping → (before : NSString) → UInt32 → (after : NSString) → NSString
  caseIgnorable : UInt32 → Bool
  letter : UInt32 → Bool
  mapCaseTo_ne_nil : ∀ m before c after, mapCaseTo m before c after ≠ []
  mapCaseTo_ascii : ∀ m before (c : UInt16) after, c < 128 →
    mapCaseTo m before c.toUInt32 after = [mapAscii m c]
  letter_ascii : ∀ c : UInt16, (isAsciiLower c || isAsciiUpper c) = true →
    letter c.toUInt32 = true ∧ caseIgnorable c.toUInt32 = false

/-! ## The mapping loops -/

def isSurrogatePair (hi lo : UInt16) : Bool :=
  0xD800 ≤ hi && hi ≤ 0xDBFF && 0xDC00 ≤ lo && lo ≤ 0xDFFF

def longCharacter (hi lo : UInt16) : UInt32 :=
  (hi.toUInt32 - 0xD800) * 0x400 + (lo.toUInt32 - 0xDC00) + 0x10000

/-- `isLastCased` after the character `c`. -/
def lastCased (T : CaseTable) (isLastCased : Bool) (c : UInt32) : Bool :=
  if T.caseIgnorable c then isLastCased else T.letter c

/-- The loop of the three mappings: `done` is mapped, the rest is to be mapped,
and `mapping` chooses by whether the last character was a cased one. -/
def mapLoop (T : CaseTable) (mapping : Bool → CaseMapping) :
    (isLastCased : Bool) → (done rest : NSString) → NSString
  | _, done, [] => done
  | last, done, [c] => done ++ T.mapCaseTo (mapping last) done c.toUInt32 []
  | last, done, c :: d :: rest =>
    if isSurrogatePair c d then
      mapLoop T mapping (lastCased T last (longCharacter c d))
        (done ++ T.mapCaseTo (mapping last) done (longCharacter c d) rest) rest
    else
      mapLoop T mapping (lastCased T last c.toUInt32)
        (done ++ T.mapCaseTo (mapping last) done c.toUInt32 (d :: rest)) (d :: rest)

def uppercaseString (T : CaseTable) (s : NSString) : NSString :=
  mapLoop T (fun _ => .toUppercase) false [] s

def lowercaseString (T : CaseTable) (s : NSString) : NSString :=
  mapLoop T (fun _ => .toLowercase) false [] s

def capitalizedString (T : CaseTable) (s : NSString) : NSString :=
  mapLoop T (fun last => if last then .toLowercase else .toTitlecase) false [] s

/-- The string with only its first character upper-cased, a surrogate pair
being one character. -/
def upperFirst (T : CaseTable) : NSString → NSString
  | [] => []
  | [c] => uppercaseString T [c]
  | c :: d :: rest =>
    if isSurrogatePair c d then uppercaseString T [c, d] ++ rest
    else uppercaseString T [c] ++ d :: rest

/-! ## The documented key-value search -/

/-- The getters that `valueForKey:` looks for, in this order. -/
def valueForKeyNames (T : CaseTable) (key : NSString) : List NSString :=
  [lit "get" ++ upperFirst T key, key, lit "is" ++ upperFirst T key, lit "_" ++ key]

/-- The setters that `setValue:forKey:` looks for, in this order. -/
def setValueForKeyNames (T : CaseTable) (key : NSString) : List NSString :=
  [lit "set" ++ upperFirst T key ++ lit ":", lit "_set" ++ upperFirst T key ++ lit ":"]

/-- The instance variables that both look for when no accessor is found. -/
def ivarSearchNames (T : CaseTable) (key : NSString) : List NSString :=
  [lit "_" ++ key, lit "_is" ++ upperFirst T key, key, lit "is" ++ upperFirst T key]

/-! ## One-unit strings -/

theorem uppercaseString_singleton (T : CaseTable) (c : UInt16) :
    uppercaseString T [c] = T.mapCaseTo .toUppercase [] c.toUInt32 [] := rfl

theorem lowercaseString_singleton (T : CaseTable) (c : UInt16) :
    lowercaseString T [c] = T.mapCaseTo .toLowercase [] c.toUInt32 [] := rfl

theorem uppercaseString_singleton_ne_nil (T : CaseTable) (c : UInt16) :
    uppercaseString T [c] ≠ [] := T.mapCaseTo_ne_nil _ _ _ _

/-- A lower-case ASCII letter comes back from its upper case. -/
theorem lower_upper_ascii (T : CaseTable) {c : UInt16} (h : isAsciiLower c = true) :
    uppercaseString T [c] = [c - 32] ∧ lowercaseString T [c - 32] = [c] := by
  simp only [isAsciiLower, Bool.and_eq_true, decide_eq_true_eq] at h
  have hc : c < 128 := by grind
  have hu : c - 32 < 128 := by grind
  have hup : isAsciiUpper (c - 32) = true := by
    simp only [isAsciiUpper, Bool.and_eq_true, decide_eq_true_eq]; grind
  have hlow : isAsciiLower c = true := by
    simp only [isAsciiLower, Bool.and_eq_true, decide_eq_true_eq]; exact h
  rw [uppercaseString_singleton, lowercaseString_singleton, T.mapCaseTo_ascii _ _ _ _ hc,
    T.mapCaseTo_ascii _ _ _ _ hu]
  refine ⟨by simp [mapAscii, hlow], ?_⟩
  simp [mapAscii, hup]

/-- An underscore has no case. -/
theorem upperFirst_underscore (T : CaseTable) (d : UInt16) (rest : NSString) :
    upperFirst T (95 :: d :: rest) = 95 :: d :: rest := by
  have hu : uppercaseString T [95] = [95] := by
    rw [uppercaseString_singleton, T.mapCaseTo_ascii _ _ _ _ (by decide)]
    decide
  have hs : isSurrogatePair 95 d = false := by simp [isSurrogatePair]
  rw [upperFirst, hs, hu]
  rfl

/-! ## Lower-case ASCII strings -/

theorem not_surrogatePair_of_ascii {c : UInt16} (h : isAsciiLower c = true) (d : UInt16) :
    isSurrogatePair c d = false := by
  simp only [isAsciiLower, Bool.and_eq_true, decide_eq_true_eq] at h
  have : ¬ 0xD800 ≤ c := by grind
  simp [isSurrogatePair, this]

/-- A lower-case ASCII letter in front is the one that `upperFirst` changes. -/
theorem upperFirst_of_lower (T : CaseTable) {c : UInt16} (h : isAsciiLower c = true)
    (rest : NSString) : upperFirst T (c :: rest) = (c - 32) :: rest := by
  have hup := (lower_upper_ascii T h).1
  cases rest with
  | nil => exact hup
  | cons d rest => simp [upperFirst, not_surrogatePair_of_ascii h, hup]

/-- Inside a word the lower-case loop changes no lower-case ASCII letter. -/
theorem mapLoop_capitalize_ascii (T : CaseTable) (done rest : NSString)
    (h : ∀ c ∈ rest, isAsciiLower c = true) :
    mapLoop T (fun last => if last then .toLowercase else .toTitlecase) true done rest =
      done ++ rest := by
  have keep : ∀ c, isAsciiLower c = true → ∀ before after,
      T.mapCaseTo .toLowercase before c.toUInt32 after = [c] := by
    intro c hc before after
    have hc' := hc
    simp only [isAsciiLower, Bool.and_eq_true, decide_eq_true_eq] at hc'
    have hup : isAsciiUpper c = false := by
      simp only [isAsciiUpper, Bool.and_eq_false_iff, decide_eq_false_iff_not]; grind
    rw [T.mapCaseTo_ascii _ _ _ _ (by grind)]
    simp [mapAscii, hup]
  induction rest generalizing done with
  | nil => simp [mapLoop]
  | cons c rest ih =>
    have hc := h c List.mem_cons_self
    cases rest with
    | nil => simp [mapLoop, keep c hc]
    | cons d rest =>
      have hcase := T.letter_ascii c (by simp [hc])
      have hlast : lastCased T true c.toUInt32 = true := by simp [lastCased, hcase]
      simp only [mapLoop, not_surrogatePair_of_ascii hc, Bool.false_eq_true, ↓reduceIte, hlast,
        keep c hc]
      rw [ih _ fun e he => h e (List.mem_cons_of_mem c he), List.append_assoc]
      rfl

/-- A lower-case ASCII string is capitalized by its first letter alone. -/
theorem capitalizedString_of_lower (T : CaseTable) {s : NSString}
    (h : ∀ c ∈ s, isAsciiLower c = true) : capitalizedString T s = upperFirst T s := by
  cases s with
  | nil => rfl
  | cons c rest =>
    have hc := h c List.mem_cons_self
    have hc' := hc
    simp only [isAsciiLower, Bool.and_eq_true, decide_eq_true_eq] at hc'
    have htitle : ∀ before after,
        T.mapCaseTo .toTitlecase before c.toUInt32 after = uppercaseString T [c] := by
      intro before after
      rw [uppercaseString_singleton, T.mapCaseTo_ascii _ _ _ _ (by grind),
        T.mapCaseTo_ascii _ _ _ _ (by grind)]
      rfl
    cases rest with
    | nil => simp [capitalizedString, mapLoop, upperFirst, htitle]
    | cons d rest =>
      have hcase := T.letter_ascii c (by simp [hc])
      have hlast : lastCased T false c.toUInt32 = true := by simp [lastCased, hcase]
      simp only [capitalizedString, mapLoop, upperFirst, not_surrogatePair_of_ascii hc,
        Bool.false_eq_true, ↓reduceIte, hlast, htitle, List.nil_append]
      exact mapLoop_capitalize_ascii T _ _ fun e he => h e (List.mem_cons_of_mem c he)

/-! ## The ASCII table -/

/-- The units of a character. -/
def encode (c : UInt32) : NSString :=
  if c < 0x10000 then [c.toUInt16]
  else [((c - 0x10000) / 0x400 + 0xD800).toUInt16, ((c - 0x10000) % 0x400 + 0xDC00).toUInt16]

/-- Only ASCII letters have case. -/
def asciiTable : CaseTable where
  mapCaseTo m _ c _ := if c < 128 then [mapAscii m c.toUInt16] else encode c
  caseIgnorable c := [39, 94, 96].contains c
  letter c := c < 128 && (isAsciiLower c.toUInt16 || isAsciiUpper c.toUInt16)
  mapCaseTo_ne_nil m before c after := by
    unfold encode
    split
    · simp
    · split <;> simp
  mapCaseTo_ascii m before c after h := by
    have h' : c.toUInt32 < 128 := by
      rw [UInt32.lt_iff_toNat_lt]; rw [UInt16.lt_iff_toNat_lt] at h; simpa using h
    simp [h']
  letter_ascii c h := by
    have hc : c.toNat < 128 := by
      simp only [isAsciiLower, isAsciiUpper, Bool.or_eq_true, Bool.and_eq_true,
        decide_eq_true_eq, UInt16.le_iff_toNat_le] at h
      change _ ∧ _ ≤ 122 ∨ _ ∧ _ ≤ 90 at h
      omega
    have key : ∀ n < 128, (isAsciiLower n.toUInt16 || isAsciiUpper n.toUInt16) = true →
        [39, 94, 96].contains n.toUInt32 = false := by decide
    have hn : c.toNat.toUInt16 = c := by simp
    have hn' : c.toNat.toUInt32 = c.toUInt32 := by simp
    refine ⟨?_, hn' ▸ key c.toNat hc (hn.symm ▸ h)⟩
    have h' : c.toUInt32 < 128 := by rw [UInt32.lt_iff_toNat_lt]; simpa using hc
    simpa [h'] using h

example : capitalizedString asciiTable (lit "firstName") = lit "Firstname" := by decide

example : upperFirst asciiTable (lit "firstName") = lit "FirstName" := by decide

end BottomResearch.Foundation
