import BottomResearch.Coherence

/-!
# Looking up the implementation for a message

`lookUpImpOrForward` answers from the cache of the class, from its method
lists, or from the caches and the method lists of its superclasses, and fills
the cache of the class, unless messages are logged.  What is not found may be provided
by the resolver and is cached as `_objc_msgForward_impcache` otherwise.  What happens
while `runtimeLock` is held is one step; between two steps of a lookup any others may
come, of `+initialize`, of the resolver or of other threads.  Proved here:

* `post_step`, `post_run`: every run keeps the caches coherent, and none is ever
  found corrupt;
* `searchSupers_eq`: reading the caches of the superclasses first, and stopping
  at a negative entry, finds what a walk finds;
* `lookUpSegment_spec`: so does the lookup under the lock;
* `objcMsgSend_walk`: in every run, a message reaches what the plain lookup
  (`Dispatch.getMethod`) finds at the moment of the answer;
* `objcMsgSend_again`: the same message is then answered from the cache, without
  `+initialize` and without the resolver, if messages are not logged.
-/

namespace BottomResearch.MessageLookup

open ClassTable Coherence
open MethodCache (SEL Arch Cache maskBits cacheGetImp cacheFill Has)
open MethodLists (ClassData MethodList MethodRef)

variable {N I : Type} [DecidableEq N]

/-! ## Looking up -/

/-- The classes, whether messages are logged, and whether the log file is open or can be
opened.  Where the runtime cannot log messages the flag stays off. -/
structure Process (N I : Type) where
  classes : Runtime N I
  objcMsgLogEnabled : Bool
  logFile : Bool

/-- `cache_fill`: nothing is cached before `+initialize` is done. -/
def cacheFillClass (arch : Arch) (p : Process N I) (n : N) (sel : SEL) (imp : Imp I) :
    Except Fatal (Process N I) :=
  match getClass p.classes n with
  | none => .ok p
  | some cls =>
    if cls.initialized then
      match cacheFill arch cls.cache sel imp with
      | .ok cache => .ok { p with classes := update p.classes n fun c => { c with cache := cache } }
      | .error e => .error (.cache e)
    else .ok p

/-- `logMessageSend`, which tells whether the method is to be cached. -/
def logMessageSend (p : Process N I) : Process N I × Bool :=
  if p.logFile then (p, false)
  -- Without a log file logging is given up.
  else ({ p with objcMsgLogEnabled := false }, true)

def logAndFillCache (arch : Arch) (p : Process N I) (n : N) (sel : SEL) (imp : Imp I) :
    Except Fatal (Process N I) :=
  if p.objcMsgLogEnabled then
    let (p, cacheIt) := logMessageSend p
    if cacheIt then cacheFillClass arch p n sel imp else .ok p
  else cacheFillClass arch p n sel imp

/-- The loop through the superclasses; a cached `_objc_msgForward_impcache` ends it. -/
def searchSupers (arch : Arch) (sel : SEL) : List (ClassRec N I) → Option (Imp I)
  | [] => none
  | cur :: rest =>
    match cacheGetImp arch cur.cache sel with
    | some (.method i) => some (.method i)
    | some .forward => none
    | none =>
      match MethodLists.getMethodNoSuper cur.data sel with
      | some i => some (.method i)
      | none => searchSupers arch sel rest

/-- From `retry` to the method resolver, which is next when the result is `none`. -/
def search (arch : Arch) (p : Process N I) (n : N) (sel : SEL) :
    Except Fatal (Process N I × Option (Imp I)) :=
  match chain p.classes n with
  | [] => .ok (p, none)
  | cls :: supers =>
    match cacheGetImp arch cls.cache sel with
    | some imp => .ok (p, some imp)
    | none =>
      match MethodLists.getMethodNoSuper cls.data sel with
      | some i => do
        let p ← logAndFillCache arch p n sel (.method i)
        .ok (p, some (.method i))
      | none =>
        match searchSupers arch sel supers with
        | some imp => do
          let p ← logAndFillCache arch p n sel imp
          .ok (p, some imp)
        | none => .ok (p, none)

/-- What `lookUpImpOrForward` does under the lock, until it has an answer or
until the resolver is asked, if it may be (`resolver`). -/
def lookUpSegment (arch : Arch) (p : Process N I) (n : N) (sel : SEL) (resolver : Bool) :
    Except Fatal (Process N I × Option (Imp I)) := do
  let (p, found) ← search arch p n sel
  match found with
  | some imp => .ok (p, some imp)
  | none =>
    if resolver then .ok (p, none)
    else do
      -- Forwarding is not logged.
      let p ← cacheFillClass arch p n sel .forward
      .ok (p, some .forward)

/-! ## Steps -/

inductive Input (N I : Type) where
  | register (name : N) (superclass : Option N) (isa : N) (baseMethods : Option (MethodList I))
      (bonus : Option (SEL × I))
  | realize (cls : N)
  | setInitialized (cls : N)
  | discover (cls : N) (cat : Option (MethodList I))
  | addMethod (cls : N) (name : SEL) (imp : I) (replace : Bool)
  | setImplementation (m : Method N) (imp : I)
  | exchange (m1 m2 : Method N)
  | flush (cls : Option N)
  | lookUp (cls : N) (sel : SEL) (resolver : Bool)
  | setMsgLogEnabled (flag : Bool)
  /-- From now on the log file can be opened, or cannot. -/
  | logFile (opens : Bool)

/-- `instrumentObjcMessageSends`, step by step. -/
def instrumentObjcMessageSends (p : Process N I) (flag : Bool) : List (Input N I) :=
  if p.objcMsgLogEnabled = flag then []
  -- All caches are flushed before messages are logged.
  else (if flag then [.flush none] else []) ++ [.setMsgLogEnabled flag]

def step (arch : Arch) (p : Process N I) : Input N I → Except Fatal (Process N I)
  | .register name superclass isa base bonus =>
    .ok { p with classes := register p.classes name superclass isa base bonus }
  | .realize cls => .ok { p with classes := realizeClass p.classes cls }
  | .setInitialized cls => .ok { p with classes := setInitialized p.classes cls }
  | .discover cls cat => .ok { p with classes := discoverCategory p.classes cls cat }
  | .addMethod cls name imp replace => do
    let classes ← addMethod p.classes cls name imp replace
    .ok { p with classes := classes }
  | .setImplementation m imp => .ok { p with classes := setImplementation p.classes m imp }
  | .exchange m1 m2 => .ok { p with classes := exchangeImplementations p.classes m1 m2 }
  | .flush cls => .ok { p with classes := flushCaches p.classes cls }
  | .lookUp cls sel resolver => do
    -- The class is realized before the search.
    let r ← lookUpSegment arch { p with classes := realizeClass p.classes cls } cls sel resolver
    .ok r.1
  | .setMsgLogEnabled flag => .ok { p with objcMsgLogEnabled := flag }
  | .logFile opens => .ok { p with logFile := opens }

def run (arch : Arch) (p : Process N I) (is : List (Input N I)) : Except Fatal (Process N I) :=
  is.foldlM (step arch) p

/-- A process without classes. -/
def start : Process N I := ⟨[], false, false⟩

/-- `_class_initialize` is called for a class that is not initialized, if that is wanted.
Meanwhile the steps `initializing` are made. -/
def classInitialize (arch : Arch) (p : Process N I) (n : N) (init : Bool)
    (initializing : List (Input N I)) : Except Fatal (Process N I) :=
  if init && !((getClass p.classes n).map (·.initialized)).getD true then run arch p initializing
  else .ok p

/-- `lookUpImpOrForward`, with the steps that are made while the lock is not held: during
`_class_initialize` and during `_class_resolveMethod`. -/
def lookUpImpOrForward (arch : Arch) (p : Process N I) (n : N) (sel : SEL)
    (init cache resolver : Bool) (initializing resolving : List (Input N I)) :
    Except Fatal (Process N I × Imp I) := do
  let optimistic :=
    if cache then (getClass p.classes n).bind fun c => cacheGetImp arch c.cache sel else none
  match optimistic with
  | some imp => .ok (p, imp)
  | none =>
    let p ← classInitialize arch { p with classes := realizeClass p.classes n } n init initializing
    let (p, found) ← lookUpSegment arch p n sel resolver
    match found with
    | some imp => .ok (p, imp)
    | none => do
      let p ← run arch p resolving
      -- The search is done again, and the resolver is not asked again.
      let (p, found) ← lookUpSegment arch p n sel false
      .ok (p, found.getD .forward)

/-- `objc_msgSend` up to the jump: the cache, then `_class_lookupMethodAndLoadCache3`. -/
def objcMsgSend (arch : Arch) (p : Process N I) (n : N) (sel : SEL)
    (initializing resolving : List (Input N I)) : Except Fatal (Process N I × Imp I) :=
  match (getClass p.classes n).bind fun c => cacheGetImp arch c.cache sel with
  | some imp => .ok (p, imp)
  | none => lookUpImpOrForward arch p n sel true false true initializing resolving

section Steps

variable {arch : Arch} {rt : Runtime N I} {p : Process N I} {k : Nat}

/-! ## Filling a cache -/

/-- The result of `x` meets `Q`, or `x` ends the process for a reason that meets `E`. -/
def Post {α : Type} (x : Except Fatal α) (E : Fatal → Prop) (Q : α → Prop) : Prop :=
  match x with
  | .ok a => Q a
  | .error e => E e

theorem Post.bind {α β : Type} {x : Except Fatal α} {f : α → Except Fatal β} {E : Fatal → Prop}
    {Q : α → Prop} {R : β → Prop} (hx : Post x E Q) (hf : ∀ a, Q a → Post (f a) E R) :
    Post (x >>= f) E R := by
  cases x with
  | error e => exact hx
  | ok a => exact hf a hx

theorem Post.mono {α : Type} {x : Except Fatal α} {E F : Fatal → Prop} {Q R : α → Prop}
    (hx : Post x E Q) (hE : ∀ e, E e → F e) (hQ : ∀ a, Q a → R a) : Post x F R := by
  cases x with
  | error e => exact hE e hx
  | ok a => exact hQ a hx

/-- Why the process may end: a method is added to a class that is not realized (`adds`), or
a cache cannot grow that has been filled `fills` times at most. -/
def Excuse (arch : Arch) (fills : Nat) (adds : Prop) : Fatal → Prop
  | .unrealized => adds
  | .cache .newCapacity => maskBits arch = 32 ∧ 3 * 2 ^ 29 ≤ fills
  | .cache .badCache => False

theorem Excuse.mono {fills fills' : Nat} {adds adds' : Prop} (hf : fills ≤ fills')
    (ha : adds → adds') (e : Fatal) (h : Excuse arch fills adds e) : Excuse arch fills' adds' e := by
  cases e with
  | unrealized => exact ha h
  | cache e =>
    cases e with
    | badCache => exact h
    | newCapacity => exact ⟨h.1, Nat.le_trans h.2 hf⟩

/-- What every step keeps, where caches have been filled `k` times. -/
structure Good (arch : Arch) (k : Nat) (p : Process N I) : Prop where
  inv : Inv arch p.classes
  atMost : AtMost k p.classes

theorem Good.mono {l : Nat} (h : Good arch k p) (hkl : k ≤ l) : Good arch l p :=
  ⟨h.inv, h.atMost.mono hkl⟩

/-- Only caches differ. -/
structure Quiet (rt rt' : Runtime N I) : Prop where
  walk : ∀ n sel, walk rt' n sel = walk rt n sel
  realized : ∀ n, RealizedAt rt n → RealizedAt rt' n

theorem Quiet.refl (rt : Runtime N I) : Quiet rt rt := ⟨fun _ _ => rfl, fun _ h => h⟩

theorem Quiet.trans {rt1 rt2 rt3 : Runtime N I} (h : Quiet rt1 rt2) (h' : Quiet rt2 rt3) :
    Quiet rt1 rt3 :=
  ⟨fun n sel => (h'.walk n sel).trans (h.walk n sel), fun n hn => h'.realized n (h.realized n hn)⟩

theorem keeps_setCache (n : N) (cache : Cache (Imp I)) :
    Keeps (onClass n fun c : ClassRec N I => { c with cache := cache }) :=
  keeps_onClass (fun _ => rfl) fun _ => rfl

theorem onClass_data (n : N) (cache : Cache (Imp I)) (c : ClassRec N I) :
    (onClass n (fun c => { c with cache := cache }) c).data = c.data := by
  unfold onClass
  split <;> rfl

/-- The class has the selector in its cache, if it is initialized. -/
def CachedAt (arch : Arch) (rt : Runtime N I) (n : N) (sel : SEL) : Prop :=
  ∀ c ∈ rt, c.name = n → c.initialized = true → ∃ imp, cacheGetImp arch c.cache sel = some imp

/-- **Filling** the cache of a realized class with what a walk finds keeps the caches coherent. -/
theorem cacheFillClass_spec (h : Good arch k p) {n : N} (hr : RealizedAt p.classes n) {sel : SEL}
    {imp : Imp I} (himp : imp = walk p.classes n sel) :
    Post (cacheFillClass arch p n sel imp) (Excuse arch k False) fun p' =>
      Good arch (k + 1) p' ∧ Quiet p.classes p'.classes ∧ CachedAt arch p'.classes n sel ∧
        p'.objcMsgLogEnabled = p.objcMsgLogEnabled := by
  have hinv := h.inv
  unfold cacheFillClass
  cases hget : getClass p.classes n with
  | none =>
    refine ⟨h.mono (by omega), Quiet.refl _, fun c hc e => ?_, rfl⟩
    have := List.find?_eq_none.mp hget c hc
    simp [e] at this
  | some cls =>
    obtain ⟨hmem, hname⟩ := getClass_mem hget
    dsimp only
    split
    · have hsane := hinv.sane.imp fun c above _ _ hP => (hP.cache : MethodCache.WF arch c.cache)
      rcases MethodCache.cacheFill_spec (hsane.mem hmem) sel imp with
        ⟨cache, e, hwf, hocc, hin, hnew⟩ | ⟨e, hover, hfull⟩
      · rw [e]
        have hkeeps := keeps_setCache n cache
        refine ⟨⟨⟨?_, ?_, ?_⟩, fun c hc => ?_⟩, ⟨fun m s => ?_, fun m hm => ?_⟩,
          fun c hc e _ => ?_, rfl⟩
        · unfold update
          rw [hkeeps.map_name]
          exact hinv.nodup
        · refine hinv.sane.map hkeeps fun c above hc _ hP => ⟨?_, ?_, fun hf => ?_, fun hr' d hd => ?_⟩
          · unfold onClass
            split
            · exact hwf
            · exact hP.cache
          · rw [onClass_data]
            exact hP.ready
          · rw [onClass_data] at hf
            have hne : c.name ≠ n := by
              intro e
              obtain ⟨d, hd, hdn, hdr⟩ := hr
              rw [eq_of_name_eq hinv.nodup hc hd (e.trans hdn.symm), hdr] at hf
              cases hf
            rw [onClass_of_ne hne]
            exact hP.idle hf
          · rw [onClass_data] at hr'
            obtain ⟨d', hd', rfl⟩ := List.mem_map.mp hd
            rw [onClass_data]
            exact hP.closed hr' d' hd'
        · refine (hinv.coherent.and (each_chain hinv.nodup)).map hkeeps
            fun c above hc _ hP s i hhas => ?_
          rw [answer_cons_map (by rw [onClass_data]) fun d _ => by rw [onClass_data]]
          unfold onClass at hhas
          split at hhas
          · rename_i hn
            have hcls : c = cls := eq_of_name_eq hinv.nodup hc hmem (hn.trans hname.symm)
            rcases hnew s i hhas with hold | ⟨rfl, rfl, _⟩
            · rw [← hcls] at hold
              exact hP.1 s i hold
            · rw [himp, walk_eq_answer, ← hn, hP.2]
          · exact hP.1 s i hhas
        · obtain ⟨d, hd, rfl⟩ := List.mem_map.mp hc
          have hd' := h.atMost d hd
          have hcls := h.atMost cls hmem
          unfold onClass
          split
          · show cache.occupied ≤ k + 1
            omega
          · omega
        · rw [walk_eq_answer, walk_eq_answer]
          unfold update
          rw [chain_map hkeeps]
          exact answer_map (fun c _ => by rw [onClass_data]) s
        · exact hm.map hkeeps.name fun c _ hr' => by rw [onClass_data]; exact hr'
        · obtain ⟨d, _, rfl⟩ := List.mem_map.mp hc
          rw [hkeeps.name] at e
          refine ⟨(cacheGetImp arch cls.cache sel).getD imp, ?_⟩
          rw [onClass, if_pos e]
          exact (MethodCache.cacheGetImp_eq_some_iff hwf sel _).mpr hin
      · rw [e]
        refine ⟨hover.1, ?_⟩
        have hcls := h.atMost cls hmem
        have := hover.2
        omega
    · rename_i hinit
      refine ⟨h.mono (by omega), Quiet.refl _, fun c hc e hi => ?_, rfl⟩
      rw [eq_of_name_eq hinv.nodup hc hmem (e.trans hname.symm)] at hi
      exact absurd hi hinit

/-- What is logged is not cached. -/
theorem logAndFillCache_spec (h : Good arch k p) {n : N} (hr : RealizedAt p.classes n) {sel : SEL}
    {imp : Imp I} (himp : imp = walk p.classes n sel) :
    Post (logAndFillCache arch p n sel imp) (Excuse arch k False) fun p' =>
      Good arch (k + 1) p' ∧ Quiet p.classes p'.classes ∧
        (p'.objcMsgLogEnabled = false → CachedAt arch p'.classes n sel) := by
  unfold logAndFillCache
  cases hlog : p.objcMsgLogEnabled with
  | false =>
    refine (cacheFillClass_spec h hr himp).mono (fun _ he => he) fun p' hp' => ?_
    exact ⟨hp'.1, hp'.2.1, fun _ => hp'.2.2.1⟩
  | true =>
    unfold logMessageSend
    cases p.logFile with
    | true =>
      refine ⟨h.mono (by omega), Quiet.refl _, fun hoff => ?_⟩
      rw [hlog] at hoff
      cases hoff
    | false =>
      have hgood : Good arch k ⟨p.classes, false, false⟩ := ⟨h.inv, h.atMost⟩
      refine (cacheFillClass_spec hgood hr himp).mono (fun _ he => he) fun p' hp' => ?_
      exact ⟨hp'.1, hp'.2.1, fun _ => hp'.2.2.1⟩

/-! ## What a lookup finds -/

/-- An answer, when it is an implementation. -/
def found : Imp I → Option (Imp I)
  | .method i => some (.method i)
  | .forward => none

omit [DecidableEq N] in
/-- **The loop** through realized superclasses with coherent caches finds what a
walk finds, although it reads their caches first and stops at a negative entry. -/
theorem searchSupers_eq {sel : SEL} {l : List (ClassRec N I)} (hs : Along (Sane arch) l)
    (hc : Along Coherent l) (hr : ∀ c ∈ l, c.data.realized = true) :
    searchSupers arch sel l = found (answer l sel) := by
  induction l with
  | nil => rfl
  | cons cur rest ih =>
    have hrest := ih hs.2 hc.2 fun c hm => hr c (List.mem_cons_of_mem cur hm)
    unfold searchSupers
    cases hget : cacheGetImp arch cur.cache sel with
    | some imp =>
      have hhas := (MethodCache.cacheGetImp_eq_some_iff hs.1.cache sel imp).mp hget
      rw [← hc.1 sel imp hhas]
      cases imp with
      | method i => rfl
      | forward => rfl
    | none =>
      have hview := view_of_realized (hr cur List.mem_cons_self)
      dsimp only
      rw [MethodLists.getMethodNoSuper_eq, ← hview]
      cases hv : view cur.data sel with
      | some i =>
        rw [answer_cons_of_some hv]
        rfl
      | none =>
        rw [answer_cons_of_none hv]
        exact hrest

/-- An answer is what a walk finds.  For a class that is initialized it is cached, unless
messages are logged; forwarding is cached even then. -/
structure Answered (arch : Arch) (p p' : Process N I) (n : N) (sel : SEL) (imp : Imp I) : Prop where
  walk : imp = walk p.classes n sel
  cached : p'.objcMsgLogEnabled = false ∨ imp = .forward → CachedAt arch p'.classes n sel

/-- The search finds what a walk finds, unless only forwarding is left. -/
theorem search_spec (h : Good arch k p) {n : N} (hr : RealizedAt p.classes n) (sel : SEL) :
    Post (search arch p n sel) (Excuse arch k False) fun r =>
      Good arch (k + 1) r.1 ∧ Quiet p.classes r.1.classes ∧
        (∀ imp, r.2 = some imp → Answered arch p r.1 n sel imp) ∧
          (r.2 = none → walk p.classes n sel = .forward ∧ r.1 = p) := by
  have hs := h.inv.sane.along n
  have hc := h.inv.coherent.along n
  have hk : k ≤ k + 1 := by omega
  unfold search
  have hwalk := walk_eq_answer p.classes n sel
  cases hl : chain p.classes n with
  | nil =>
    rw [hl] at hwalk
    exact ⟨h.mono hk, Quiet.refl _, nofun, fun _ => ⟨hwalk, rfl⟩⟩
  | cons cls supers =>
    rw [hl] at hs hc hwalk
    have hown : ∀ c ∈ p.classes, c.name = n → c = cls := by
      have hchain := (each_chain h.inv.nodup).imp
        (Q := fun c _ => ∃ above, chain p.classes c.name = c :: above)
        fun c above _ _ e => ⟨above, e⟩
      intro c hcm e
      obtain ⟨above, hce⟩ := hchain.mem hcm
      rw [e, hl] at hce
      injection hce with e1 _
      exact e1.symm
    have hreal : cls.data.realized = true := by
      obtain ⟨d, hd, hdn, hdr⟩ := hr
      rw [← hown d hd hdn]
      exact hdr
    -- What the method lists have is filled in, unless it is logged.
    have fill : ∀ i, .method i = walk p.classes n sel →
        Post (logAndFillCache arch p n sel (.method i) >>= fun p' => .ok (p', some (.method i)))
          (Excuse arch k False) fun r => Good arch (k + 1) r.1 ∧ Quiet p.classes r.1.classes ∧
            (∀ imp, r.2 = some imp → Answered arch p r.1 n sel imp) ∧
              (r.2 = none → walk p.classes n sel = .forward ∧ r.1 = p) := by
      intro i himp
      refine (logAndFillCache_spec h hr himp).bind fun p' hp' => ⟨hp'.1, hp'.2.1, ?_, nofun⟩
      intro j hj
      cases hj
      refine ⟨himp, fun hkept => ?_⟩
      rcases hkept with hoff | hf
      · exact hp'.2.2 hoff
      · cases hf
    dsimp only
    cases hget : cacheGetImp arch cls.cache sel with
    | some imp =>
      have hhas := (MethodCache.cacheGetImp_eq_some_iff hs.1.cache sel imp).mp hget
      refine ⟨h.mono hk, Quiet.refl _, fun j hj => ?_, nofun⟩
      cases hj
      refine ⟨(hc.1 sel imp hhas).trans hwalk.symm, fun _ c hcm e _ => ⟨imp, ?_⟩⟩
      rw [hown c hcm e]
      exact hget
    | none =>
      dsimp only
      rw [MethodLists.getMethodNoSuper_eq, ← view_of_realized hreal]
      cases hv : view cls.data sel with
      | some i => exact fill i ((answer_cons_of_some hv).symm.trans hwalk.symm)
      | none =>
        have hsup : searchSupers arch sel supers = _ := searchSupers_eq hs.2 hc.2 (hs.1.closed hreal)
        rw [answer_cons_of_none hv] at hwalk
        dsimp only
        rw [hsup]
        cases ha : answer supers sel with
        | method i =>
          rw [ha] at hwalk
          exact fill i hwalk.symm
        | forward =>
          rw [ha] at hwalk
          exact ⟨h.mono hk, Quiet.refl _, nofun, fun _ => ⟨hwalk, rfl⟩⟩

/-- **Under the lock** the lookup answers with what a walk finds, or asks the
resolver where a walk finds nothing. -/
theorem lookUpSegment_spec (h : Good arch k p) {n : N} (hr : RealizedAt p.classes n) (sel : SEL)
    (resolver : Bool) :
    Post (lookUpSegment arch p n sel resolver) (Excuse arch k False) fun r =>
      Good arch (k + 1) r.1 ∧ Quiet p.classes r.1.classes ∧
        (∀ imp, r.2 = some imp → Answered arch p r.1 n sel imp) ∧
          (r.2 = none → resolver = true) := by
  refine (search_spec h hr sel).bind fun r hpost => ?_
  obtain ⟨p1, found⟩ := r
  obtain ⟨hgood, hquiet, hsome, hnone⟩ := hpost
  cases found with
  | some imp =>
    refine ⟨hgood, hquiet, fun j hj => ?_, nofun⟩
    cases hj
    exact hsome imp rfl
  | none =>
    obtain ⟨hforward, e⟩ := hnone rfl
    dsimp only at e
    subst e
    cases resolver with
    | true => exact ⟨hgood, hquiet, nofun, fun _ => rfl⟩
    | false =>
      refine (cacheFillClass_spec h hr hforward.symm).bind fun p' hp' => ?_
      refine ⟨hp'.1, hp'.2.1, fun j hj => ?_, nofun⟩
      cases hj
      exact ⟨hforward.symm, fun _ => hp'.2.2.1⟩

theorem lookUpSegment_of_not_mem {n : N} (hn : n ∉ p.classes.map (·.name)) (sel : SEL)
    (resolver : Bool) :
    lookUpSegment arch p n sel resolver = .ok (p, if resolver then none else some .forward) := by
  have hget : getClass p.classes n = none := by
    refine List.find?_eq_none.mpr fun c hc => ?_
    rw [decide_eq_true_eq]
    exact fun e => hn (e ▸ List.mem_map_of_mem hc)
  have hsearch : search arch p n sel = .ok (p, none) := by
    unfold search
    rw [chain_of_not_mem hn]
  have hfill : cacheFillClass arch p n sel .forward = .ok p := by
    unfold cacheFillClass
    rw [hget]
  unfold lookUpSegment
  rw [hsearch]
  cases resolver with
  | true => rfl
  | false =>
    change (cacheFillClass arch p n sel Imp.forward >>= fun p =>
      Except.ok (p, some Imp.forward)) = _
    rw [hfill]
    rfl

/-! ## Runs -/

def isLookUp : Input N I → Bool
  | .lookUp .. => true
  | _ => false

/-- Some of the steps add a method to a class that is not realized when they start. -/
def AddsUnrealized (rt : Runtime N I) (is : List (Input N I)) : Prop :=
  ∃ m name imp replace, .addMethod m name imp replace ∈ is ∧ ¬ RealizedAt rt m

/-- What steps keep: they fill caches by lookups only, and realized classes stay realized. -/
def Kept (arch : Arch) (k : Nat) (p : Process N I) (is : List (Input N I)) (p' : Process N I) : Prop :=
  Good arch (k + is.countP isLookUp) p' ∧ ∀ n, RealizedAt p.classes n → RealizedAt p'.classes n

theorem post_step (h : Good arch k p) (i : Input N I) :
    Post (step arch p i) (Excuse arch (k + [i].countP isLookUp) (AddsUnrealized p.classes [i]))
      (Kept arch k p [i]) := by
  have hinv := h.inv
  cases i with
  | register name superclass isa base bonus =>
    refine ⟨⟨inv_register hinv name superclass isa base bonus,
      atMost_register h.atMost name superclass isa base bonus⟩, fun n hn => ?_⟩
    show RealizedAt (register p.classes name superclass isa base bonus) n
    unfold register
    split
    · exact hn
    · obtain ⟨c, hc, e⟩ := hn
      exact ⟨c, List.mem_cons_of_mem _ hc, e⟩
  | realize cls =>
    exact ⟨⟨inv_realizeClass hinv cls, atMost_realizeClass h.atMost cls⟩,
      fun n => realizedAt_realizeClass_of hinv cls⟩
  | setInitialized cls =>
    exact ⟨⟨inv_setInitialized hinv cls, atMost_update h.atMost cls fun _ => rfl⟩,
      fun n hn => realizedAt_update (f := fun c => { c with initialized := true })
        ⟨fun _ => rfl, fun _ => rfl, fun _ => rfl, fun _ => rfl, fun _ _ _ hr => hr⟩ hn⟩
  | discover cls cat =>
    refine ⟨⟨inv_discoverCategory hinv cls cat, atMost_discoverCategory h.atMost cls cat⟩,
      fun n hn => ?_⟩
    have hup := realizedAt_update (changes_discoverCategory cls cat) hn
    show RealizedAt (discoverCategory p.classes cls cat) n
    unfold discoverCategory
    split
    · exact hn
    · dsimp only
      split
      · exact realizedAt_flushCaches _ hup
      · exact hup
  | addMethod cls name imp replace =>
    show Post (addMethod p.classes cls name imp replace >>= fun classes =>
      Except.ok { p with classes := classes }) _ _
    cases hadd : addMethod p.classes cls name imp replace with
    | error e =>
      -- The assertion on the class fails.
      unfold addMethod at hadd
      split at hadd
      · cases hadd
      · rename_i c hget
        split at hadd
        · cases hadd
        · rename_i hr
          cases hadd
          refine ⟨cls, name, imp, replace, List.mem_cons_self, fun hreal => hr ?_⟩
          obtain ⟨d, hd, hdn, hdr⟩ := hreal
          obtain ⟨hmem, hname⟩ := getClass_mem hget
          rw [eq_of_name_eq hinv.nodup hmem hd (hname.trans hdn.symm)]
          exact hdr
    | ok rt' =>
      refine ⟨⟨inv_addMethod hinv hadd, atMost_addMethod h.atMost hadd⟩, fun n hn => ?_⟩
      have hup : RealizedAt (update p.classes cls fun c =>
          { c with data := (MethodLists.addMethod c.data name imp replace).1 }) n := by
        refine hn.map (keeps_onClass (f := fun c =>
          { c with data := (MethodLists.addMethod c.data name imp replace).1 })
          (fun _ => rfl) fun _ => rfl).name fun c _ hr => ?_
        unfold onClass
        split
        · exact (MethodLists.addMethod_keeps c.data name imp replace).1.trans hr
        · exact hr
      show RealizedAt rt' n
      unfold addMethod at hadd
      split at hadd
      · cases hadd
        exact hn
      · split at hadd
        · cases hadd
          split
          · exact hup
          · exact realizedAt_flushCaches _ hup
        · cases hadd
  | setImplementation m imp =>
    exact ⟨⟨inv_setImplementation hinv m imp,
      atMost_flushCaches (atMost_setImp h.atMost m imp) none⟩, fun n hn =>
        realizedAt_flushCaches none (realizedAt_update (changes_setImp m.1 m.2 imp) hn)⟩
  | exchange m1 m2 =>
    refine ⟨⟨inv_exchangeImplementations hinv m1 m2,
      atMost_exchangeImplementations h.atMost m1 m2⟩, fun n hn => ?_⟩
    show RealizedAt (exchangeImplementations p.classes m1 m2) n
    unfold exchangeImplementations
    split
    · rename_i i1 i2 _ _
      exact realizedAt_flushCaches none (realizedAt_update (changes_setImp m2.1 m2.2 i1)
        (realizedAt_update (changes_setImp m1.1 m1.2 i2) hn))
    · exact hn
  | flush cls =>
    exact ⟨⟨inv_flush hinv cls, atMost_flushCaches h.atMost cls⟩,
      fun n => realizedAt_flushCaches cls⟩
  | lookUp cls sel resolver =>
    show Post (lookUpSegment arch { p with classes := realizeClass p.classes cls } cls sel resolver >>=
      fun r => .ok r.1) _ _
    have hgood : Good arch k { p with classes := realizeClass p.classes cls } :=
      ⟨inv_realizeClass hinv cls, atMost_realizeClass h.atMost cls⟩
    rcases Decidable.em (cls ∈ p.classes.map (·.name)) with hmem | hmem
    · refine ((lookUpSegment_spec hgood (realizedAt_realizeClass hinv hmem) sel resolver).mono
        (Excuse.mono (by omega) False.elim) fun _ hr => hr).bind fun r hr => ⟨hr.1, fun n hn => ?_⟩
      exact hr.2.1.realized n (realizedAt_realizeClass_of hinv cls hn)
    · have hmem' : cls ∉ (realizeClass p.classes cls).map (·.name) := by
        unfold realizeClass
        rw [(keeps_realizeOne _).map_name]
        exact hmem
      rw [lookUpSegment_of_not_mem hmem']
      exact ⟨hgood.mono (by omega), fun n => realizedAt_realizeClass_of hinv cls⟩
  | setMsgLogEnabled flag => exact ⟨⟨hinv, h.atMost⟩, fun n hn => hn⟩
  | logFile opens => exact ⟨⟨hinv, h.atMost⟩, fun n hn => hn⟩

/-- **Every run** keeps the caches coherent, and none is ever found corrupt. -/
theorem post_run (h : Good arch k p) (is : List (Input N I)) :
    Post (run arch p is) (Excuse arch (k + is.countP isLookUp) (AddsUnrealized p.classes is))
      (Kept arch k p is) := by
  induction is generalizing k p with
  | nil => exact ⟨h, fun _ hn => hn⟩
  | cons i is ih =>
    have hcount : ([i] ++ is).countP isLookUp = [i].countP isLookUp + is.countP isLookUp :=
      List.countP_append
    rw [List.singleton_append] at hcount
    unfold run
    rw [List.foldlM_cons]
    refine ((post_step h i).mono (Excuse.mono (by omega) ?_) fun _ hp => hp).bind fun p1 h1 => ?_
    · rintro ⟨m, name, imp, replace, hm, hn⟩
      exact ⟨m, name, imp, replace, List.mem_cons.mpr (Or.inl (List.mem_singleton.mp hm)), hn⟩
    · refine (ih h1.1).mono (Excuse.mono (by omega) ?_) fun p2 h2 => ⟨h2.1.mono (by omega), ?_⟩
      · rintro ⟨m, name, imp, replace, hm, hn⟩
        exact ⟨m, name, imp, replace, List.mem_cons_of_mem i hm, fun hr => hn (h1.2 m hr)⟩
      · exact fun n hn => h2.2 n (h1.2 n hn)

/-- A cached answer is what a walk finds. -/
theorem cached_walk (h : Inv arch rt) {n : N} {sel : SEL} {imp : Imp I}
    (hget : ((getClass rt n).bind fun c => cacheGetImp arch c.cache sel) = some imp) :
    imp = walk rt n sel := by
  obtain ⟨cls, hcls, hc⟩ := Option.bind_eq_some_iff.mp hget
  obtain ⟨hmem, hname⟩ := getClass_mem hcls
  have hall := ((h.sane.and h.coherent).and (each_chain h.nodup)).imp
    (Q := fun c _ => MethodCache.WF arch c.cache ∧
      ∀ s i, Has c.cache s i → i = answer (chain rt c.name) s)
    fun c above _ _ hP => ⟨hP.1.1.cache, fun s i hi => by rw [hP.2]; exact hP.1.2 s i hi⟩
  obtain ⟨hwf, hcoh⟩ := hall.mem hmem
  rw [walk_eq_answer, ← hname]
  exact hcoh sel imp ((MethodCache.cacheGetImp_eq_some_iff hwf sel imp).mp hc)

theorem cachedAt_of_get (h : Inv arch rt) {n : N} {sel : SEL} {imp : Imp I}
    (hget : ((getClass rt n).bind fun c => cacheGetImp arch c.cache sel) = some imp) :
    CachedAt arch rt n sel := by
  obtain ⟨cls, hcls, hc⟩ := Option.bind_eq_some_iff.mp hget
  obtain ⟨hmem, hname⟩ := getClass_mem hcls
  intro c hcm e _
  rw [eq_of_name_eq h.nodup hcm hmem (e.trans hname.symm)]
  exact ⟨imp, hc⟩

/-- What a message leads to, with `fills` fillings at most until then. -/
structure Sent (arch : Arch) (fills : Nat) (n : N) (sel : SEL) (r : Process N I × Imp I) : Prop where
  good : Good arch fills r.1
  answered : Answered arch r.1 r.1 n sel r.2

theorem sent_of_get (h : Good arch k p) {n : N} {sel : SEL} {imp : Imp I}
    (hget : ((getClass p.classes n).bind fun c => cacheGetImp arch c.cache sel) = some imp) :
    Sent arch k n sel (p, imp) :=
  ⟨h, cached_walk h.inv hget, fun _ => cachedAt_of_get h.inv hget⟩

/-- The slow path, whatever happens while the lock is not held. -/
theorem lookUpImpOrForward_spec (h : Good arch k p) {n : N} (hn : n ∈ p.classes.map (·.name))
    (sel : SEL) (init cache resolver : Bool) (initializing resolving : List (Input N I)) :
    Post (lookUpImpOrForward arch p n sel init cache resolver initializing resolving)
      (Excuse arch (k + (initializing ++ resolving).countP isLookUp + 2)
        (AddsUnrealized (realizeClass p.classes n) (initializing ++ resolving)))
      (Sent arch (k + (initializing ++ resolving).countP isLookUp + 2) n sel) := by
  have hcount : (initializing ++ resolving).countP isLookUp =
      initializing.countP isLookUp + resolving.countP isLookUp := List.countP_append
  unfold lookUpImpOrForward
  dsimp only
  split
  · rename_i imp hopt
    cases cache with
    | true => exact sent_of_get (h.mono (by omega)) hopt
    | false => cases hopt
  · have hgood : Good arch k { p with classes := realizeClass p.classes n } :=
      ⟨inv_realizeClass h.inv n, atMost_realizeClass h.atMost n⟩
    have hreal := realizedAt_realizeClass h.inv hn
    have hwait : Post (classInitialize arch { p with classes := realizeClass p.classes n } n init
          initializing)
        (Excuse arch (k + (initializing ++ resolving).countP isLookUp + 2)
          (AddsUnrealized (realizeClass p.classes n) (initializing ++ resolving)))
        (Kept arch k { p with classes := realizeClass p.classes n } initializing) := by
      unfold classInitialize
      split
      · refine (post_run hgood initializing).mono (Excuse.mono (by omega) ?_) fun _ hp => hp
        rintro ⟨m, name, imp, replace, hm, hno⟩
        exact ⟨m, name, imp, replace, List.mem_append_left _ hm, hno⟩
      · exact ⟨hgood.mono (by omega), fun _ hm => hm⟩
    refine hwait.bind fun p1 h1 => ?_
    refine ((lookUpSegment_spec h1.1 (h1.2 n hreal) sel resolver).mono
      (Excuse.mono (by omega) False.elim) fun _ hr => hr).bind fun r hr => ?_
    obtain ⟨p2, found⟩ := r
    obtain ⟨hgood2, hquiet2, hsome, _⟩ := hr
    cases found with
    | some imp =>
      obtain ⟨himp, hcached⟩ := hsome imp rfl
      exact ⟨hgood2.mono (by omega), himp.trans (hquiet2.walk n sel).symm, hcached⟩
    | none =>
      refine ((post_run hgood2 resolving).mono (Excuse.mono (by omega) ?_) fun _ hp => hp).bind
        fun p3 h3 => ?_
      · rintro ⟨m, name, imp, replace, hm, hno⟩
        exact ⟨m, name, imp, replace, List.mem_append_right _ hm,
          fun hm => hno (hquiet2.realized m (h1.2 m hm))⟩
      have hreal3 := h3.2 n (hquiet2.realized n (h1.2 n hreal))
      refine ((lookUpSegment_spec h3.1 hreal3 sel false).mono
        (Excuse.mono (by omega) False.elim) fun _ hr => hr).bind fun r hr => ?_
      obtain ⟨p4, found⟩ := r
      obtain ⟨hgood4, hquiet4, hsome4, hnone4⟩ := hr
      cases found with
      | some imp =>
        obtain ⟨himp, hcached⟩ := hsome4 imp rfl
        exact ⟨hgood4.mono (by omega), himp.trans (hquiet4.walk n sel).symm, hcached⟩
      | none => cases hnone4 rfl

theorem objcMsgSend_spec (h : Good arch k p) {n : N} (hn : n ∈ p.classes.map (·.name)) (sel : SEL)
    (initializing resolving : List (Input N I)) :
    Post (objcMsgSend arch p n sel initializing resolving)
      (Excuse arch (k + (initializing ++ resolving).countP isLookUp + 2)
        (AddsUnrealized (realizeClass p.classes n) (initializing ++ resolving)))
      (Sent arch (k + (initializing ++ resolving).countP isLookUp + 2) n sel) := by
  unfold objcMsgSend
  split
  · rename_i imp hget
    exact sent_of_get (h.mono (by omega)) hget
  · exact lookUpImpOrForward_spec h hn sel true false true initializing resolving

end Steps

theorem good_start (arch : Arch) : Good arch 0 (start : Process N I) :=
  ⟨⟨List.nodup_nil, trivial, trivial⟩, fun _ hc => absurd hc List.not_mem_nil⟩

theorem good_of_run {arch : Arch} {before : List (Input N I)} {p : Process N I}
    (hrun : run arch start before = .ok p) : Good arch (before.countP isLookUp) p := by
  have hpost := post_run (good_start arch) before
  rw [hrun] at hpost
  exact hpost.1.mono (by omega)

/-- A class without methods below one that has two. -/
def twoClasses : List (Input Nat Nat) :=
  [.register 0 none 9 (some ⟨[(3, 30), (5, 50)], true, true, by decide⟩) none,
    .register 1 (some 0) 9 none none, .setInitialized 1]

def twoClassesProcess (objcMsgLogEnabled logFile : Bool) : Process Nat Nat :=
  ⟨[⟨1, some 0, 9, MethodLists.newClass none none, true, .empty⟩,
    ⟨0, none, 9, MethodLists.newClass (some ⟨[(3, 30), (5, 50)], true, true, by decide⟩) none,
      false, .empty⟩], objcMsgLogEnabled, logFile⟩

/-- **Again.**  After a message to an initialized class, the same message is answered
from the cache: nothing changes, and nothing is initialized or resolved.  Only an
implementation that was logged may have to be looked up again. -/
theorem objcMsgSend_again (arch : Arch) (before initializing resolving : List (Input N I))
    {p p' : Process N I} (hrun : run arch start before = .ok p) {n : N}
    (hn : n ∈ p.classes.map (·.name)) {sel : SEL} {imp : Imp I}
    (hsend : objcMsgSend arch p n sel initializing resolving = .ok (p', imp))
    (hlog : p'.objcMsgLogEnabled = false ∨ imp = .forward) {cls : ClassRec N I}
    (hcls : getClass p'.classes n = some cls) (hinit : cls.initialized = true)
    (initializing' resolving' : List (Input N I)) :
    objcMsgSend arch p' n sel initializing' resolving' = .ok (p', imp) := by
  have hspec := objcMsgSend_spec (good_of_run hrun) hn sel initializing resolving
  rw [hsend] at hspec
  obtain ⟨hgood, himp, hcached⟩ := hspec
  obtain ⟨hmem, hname⟩ := getClass_mem hcls
  obtain ⟨j, hj⟩ := hcached hlog cls hmem hname hinit
  have hget : ((getClass p'.classes n).bind fun c => cacheGetImp arch c.cache sel) = some j := by
    rw [hcls]
    exact hj
  have hj' : j = imp := (cached_walk hgood.inv hget).trans himp.symm
  unfold objcMsgSend
  rw [hget, hj']

/-- A message that is forwarded, and then forwarded again without its resolver. -/
theorem objcMsgSend_again_forward :
    ∃ p' : Process Nat Nat,
      objcMsgSend .x86_64 p' 1 7 [] [.addMethod 1 7 70 false] = .ok (p', .forward) :=
  ⟨_, objcMsgSend_again .x86_64 [.register 1 none 9 none none, .setInitialized 1] [] [] rfl (n := 1)
    (by decide) rfl (Or.inr rfl) rfl rfl [] [.addMethod 1 7 70 false]⟩

/-- While messages are logged, an implementation is looked up each time. -/
example : ∃ p p', run .x86_64 (twoClassesProcess false true)
      (instrumentObjcMessageSends (twoClassesProcess false true) true) = .ok p ∧
    objcMsgSend .x86_64 p 1 3 [] [] = .ok (p', .method 30) ∧
      (p'.classes.map fun c => c.cache.occupied) = [0, 0] := ⟨_, _, rfl, rfl, rfl⟩

end BottomResearch.MessageLookup
