import Mathlib.Data.List.Induction
import Mathlib.Logic.Function.Iterate

/-!
# Runs of a deterministic system

A system answers each input with a new state and an output.  A run is the
list of its inputs, so a statement about a run may speak of the inputs that
came before a point of it.  Proved here, for every system:

* `System.run_induction`: a relation between the inputs so far and the state
  that holds at the start and is kept by one step holds along every run;
* `atEach_snoc`, `AtEach.congr`: reasoning about what holds at each point of
  a list of inputs;
* `Last.cases_split`, `Last.foldl_eq`: the last input of a kind settles what only
  inputs of that kind change;
* `agrees_iff`: if one step of `M` agrees with one step of `N` exactly when
  the input meets `C`, wherever it meets `D`, then `M` agrees with `N` at each point of a
  run exactly when each input of it meets `C` where `N` meets it;
* `ends_iff_of_next`, `not_ends_of_invariant`: for a system that runs by itself,
  one step changes nothing about whether it ends, and it does not end where
  every state it can be in is followed by another such state;
* `foldlM_invariant`: what every step that does not fail keeps, a run that does
  not fail keeps;
* `Due.snoc`, `Due.sublist`: queues in which nothing comes before what it needs;
* `Follows.bind`: computations that do what another one does, up to its fuel,
  compose.
-/

namespace BottomResearch.Runs

/-- A deterministic system with states `σ`, inputs `ι` and outputs `ε`. -/
structure System (σ ι ε : Type) where
  step : σ → ι → σ × ε

variable {σ τ ι ε : Type}

/-! ## Points of a list of inputs -/

/-- `Q` holds at each point of `is`: of the inputs before it and the input there. -/
def AtEach (Q : List ι → ι → Prop) (is : List ι) : Prop :=
  ∀ pre i post, is = pre ++ i :: post → Q pre i

theorem atEach_nil (Q : List ι → ι → Prop) : AtEach Q [] := by
  intro pre i post h
  simp at h

theorem append_cons_eq_snoc {is pre post : List ι} {i j : ι} (h : is ++ [i] = pre ++ j :: post) :
    (post = [] ∧ pre = is ∧ j = i) ∨ ∃ rest, post = rest ++ [i] ∧ is = pre ++ j :: rest := by
  rcases List.eq_nil_or_concat post with rfl | ⟨rest, k, rfl⟩
  · have := List.append_inj' h rfl
    simp at this
    exact Or.inl ⟨rfl, this.1.symm, this.2.symm⟩
  · rw [List.concat_eq_append, ← List.cons_append, ← List.append_assoc] at h
    have := List.append_inj' h rfl
    simp at this
    exact Or.inr ⟨rest, by rw [this.2, List.concat_eq_append], this.1⟩

theorem AtEach.of_append {Q : List ι → ι → Prop} {is js : List ι} (h : AtEach Q (is ++ js)) :
    AtEach Q is := by
  intro pre i post e
  refine h pre i (post ++ js) ?_
  rw [e, List.append_assoc, List.cons_append]

theorem atEach_snoc (Q : List ι → ι → Prop) (is : List ι) (i : ι) :
    AtEach Q (is ++ [i]) ↔ AtEach Q is ∧ Q is i := by
  constructor
  · intro h
    exact ⟨AtEach.of_append h, h is i [] rfl⟩
  · rintro ⟨h, hi⟩ pre j post e
    rcases append_cons_eq_snoc e with ⟨_, rfl, rfl⟩ | ⟨rest, _, e'⟩
    · exact hi
    · exact h pre j rest e'

theorem AtEach.congr {Q R : List ι → ι → Prop} {is : List ι}
    (h : AtEach (fun pre i => Q pre i ↔ R pre i) is) : AtEach Q is ↔ AtEach R is :=
  ⟨fun hq pre i post e => (h pre i post e).mp (hq pre i post e),
   fun hr pre i post e => (h pre i post e).mpr (hr pre i post e)⟩

/-! ## The last input of a kind -/

/-- `i` is the last input that meets `P`. -/
structure Last (P : ι → Prop) (is before : List ι) (i : ι) (after : List ι) : Prop where
  split : is = before ++ i :: after
  here : P i
  later : ∀ j ∈ after, ¬ P j

/-- Inputs that do not meet `P` leave a fold that only those that meet it change. -/
theorem foldl_of_not {P : ι → Prop} {β : Type} {f : β → ι → β} (hf : ∀ b j, ¬ P j → f b j = b)
    {js : List ι} (hjs : ∀ j ∈ js, ¬ P j) (b : β) : js.foldl f b = b := by
  induction js with
  | nil => rfl
  | cons j js ih =>
    rw [List.foldl_cons, hf b j (hjs j List.mem_cons_self)]
    exact ih fun k hk => hjs k (List.mem_cons_of_mem j hk)

theorem exists_last {P : ι → Prop} [DecidablePred P] {is : List ι} {j : ι} (hj : j ∈ is)
    (hP : P j) : ∃ before i after, Last P is before i after := by
  induction is using List.reverseRecOn with
  | nil => simp at hj
  | append_singleton is k ih =>
    by_cases hk : P k
    · exact ⟨is, k, [], rfl, hk, fun l hl => by simp at hl⟩
    · have hin : j ∈ is := by
        rcases List.mem_append.mp hj with hin | hlast
        · exact hin
        · rw [List.mem_singleton.mp hlast] at hP
          exact absurd hP hk
      obtain ⟨before, i, after, hl⟩ := ih hin
      refine ⟨before, i, after ++ [k], by rw [hl.split]; simp, hl.here, fun l hm => ?_⟩
      rcases List.mem_append.mp hm with hm | hm
      · exact hl.later l hm
      · rw [List.mem_singleton.mp hm]
        exact hk

namespace Last

variable {P : ι → Prop} {is before after : List ι} {i : ι}

/-- An input that meets `P` is the last one or comes before it. -/
theorem cases_split (hl : Last P is before i after) {p1 p2 : List ι} {j : ι}
    (e : is = p1 ++ j :: p2) (hj : P j) :
    (p1 = before ∧ j = i ∧ p2 = after) ∨
      ∃ mid, before = p1 ++ j :: mid ∧ p2 = mid ++ i :: after := by
  have e' := hl.split.symm.trans e
  rcases List.append_eq_append_iff.mp e' with ⟨mid, h1, h2⟩ | ⟨mid, h1, h2⟩
  · cases mid with
    | nil =>
      obtain ⟨rfl, rfl⟩ := List.cons.inj h2
      exact Or.inl ⟨by rw [h1, List.append_nil], rfl, rfl⟩
    | cons m mid =>
      have hmem : j ∈ after := by
        rw [(List.cons.inj h2).2]
        exact List.mem_append_right _ List.mem_cons_self
      exact absurd hj (hl.later j hmem)
  · cases mid with
    | nil =>
      obtain ⟨rfl, rfl⟩ := List.cons.inj h2
      exact Or.inl ⟨by rw [h1, List.append_nil], rfl, rfl⟩
    | cons m mid =>
      obtain ⟨rfl, h3⟩ := List.cons.inj h2
      exact Or.inr ⟨mid, h1, h3⟩

/-- A fold that only the inputs that meet `P` change is settled by the last one. -/
theorem foldl_eq {β : Type} (hl : Last P is before i after) {f : β → ι → β}
    (hf : ∀ b j, ¬ P j → f b j = b) (b : β) : is.foldl f b = f (before.foldl f b) i := by
  rw [hl.split, List.foldl_append, List.foldl_cons, foldl_of_not hf hl.later]

/-- The last input of a kind in a translated list. -/
theorem map {κ : Type} {f : ι → κ} {Q : κ → Prop} (hl : Last (fun j => Q (f j)) is before i after) :
    Last Q (is.map f) (before.map f) (f i) (after.map f) where
  split := by rw [hl.split, List.map_append, List.map_cons]
  here := hl.here
  later k hk := by
    obtain ⟨j, hj, rfl⟩ := List.mem_map.mp hk
    exact hl.later j hj

end Last

/-! ## Runs -/

namespace System

variable (M : System σ ι ε)

def next (s : σ) (i : ι) : σ := (M.step s i).1

def output (s : σ) (i : ι) : ε := (M.step s i).2

def run (s : σ) (is : List ι) : σ := is.foldl M.next s

theorem run_append (s : σ) (is js : List ι) : M.run s (is ++ js) = M.run (M.run s is) js :=
  List.foldl_append

theorem run_snoc (s : σ) (is : List ι) (i : ι) : M.run s (is ++ [i]) = M.next (M.run s is) i := by
  rw [run_append]; rfl

/-- **Run rule.**  What relates inputs and state at the start and survives one
step relates them along every run. -/
theorem run_induction {s : σ} {P : List ι → σ → Prop} (start : P [] s)
    (step : ∀ is t i, P is t → P (is ++ [i]) (M.next t i)) (is : List ι) : P is (M.run s is) := by
  induction is using List.reverseRecOn with
  | nil => exact start
  | append_singleton is i ih => rw [run_snoc]; exact step is _ i ih

end System

/-! ## Two systems on the same inputs -/

/-- At each point of the run `M`, seen through `π`, is where `N` is and has
answered as `N` did. -/
def Agrees (M : System σ ι ε) (N : System τ ι ε) (π : σ → τ) (s : σ) (is : List ι) : Prop :=
  AtEach (fun pre i => π (M.run s (pre ++ [i])) = N.run (π s) (pre ++ [i]) ∧
    M.output (M.run s pre) i = N.output (N.run (π s) pre) i) is

theorem Agrees.run_eq {M : System σ ι ε} {N : System τ ι ε} {π : σ → τ} {s : σ} {is : List ι}
    (h : Agrees M N π s is) : π (M.run s is) = N.run (π s) is := by
  rcases List.eq_nil_or_concat is with rfl | ⟨js, i, rfl⟩
  · rfl
  · rw [List.concat_eq_append] at h ⊢
    exact (h js i [] rfl).1

/-- **Lockstep rule.**  Where `N` meets inputs with `D` only. -/
theorem agrees_iff {M : System σ ι ε} {N : System τ ι ε} {π : σ → τ} {Inv : σ → Prop}
    {C D : τ → ι → Prop} (keep : ∀ s i, Inv s → Inv (M.next s i))
    (one : ∀ s i, Inv s → D (π s) i →
      ((π (M.next s i) = N.next (π s) i ∧ M.output s i = N.output (π s) i) ↔ C (π s) i))
    {s : σ} (hs : Inv s) {is : List ι} (hD : AtEach (fun pre i => D (N.run (π s) pre) i) is) :
    Agrees M N π s is ↔ AtEach (fun pre i => C (N.run (π s) pre) i) is := by
  have inv : ∀ is, Inv (M.run s is) :=
    M.run_induction (P := fun _ t => Inv t) hs (fun _ t i => keep t i)
  induction is using List.reverseRecOn with
  | nil => exact ⟨fun _ => atEach_nil _, fun _ => atEach_nil _⟩
  | append_singleton is i ih =>
    obtain ⟨hD, hi⟩ := (atEach_snoc _ is i).mp hD
    have last : Agrees M N π s is →
        ((π (M.run s (is ++ [i])) = N.run (π s) (is ++ [i]) ∧
          M.output (M.run s is) i = N.output (N.run (π s) is) i) ↔ C (N.run (π s) is) i) := by
      intro h
      rw [M.run_snoc, N.run_snoc, ← h.run_eq]
      exact one _ i (inv is) (h.run_eq ▸ hi)
    unfold Agrees
    rw [atEach_snoc, atEach_snoc]
    constructor
    · rintro ⟨h, hi⟩
      exact ⟨(ih hD).mp h, (last h).mp hi⟩
    · rintro ⟨h, hi⟩
      have h' := (ih hD).mpr h
      exact ⟨h', (last h').mpr hi⟩

/-! ## Running by itself -/

/-- From `s` the steps of `next` lead to a final state. -/
def Ends (next : σ → σ) (final : σ → Prop) (s : σ) : Prop := ∃ n : Nat, final (next^[n] s)

section Ends

variable {next : σ → σ} {final : σ → Prop} {s : σ}

theorem ends_of_final (h : final s) : Ends next final s := ⟨0, h⟩

/-- One step changes nothing about whether the system ends. -/
theorem ends_iff_of_next {t : σ} (e : next s = t) (h : ¬ final s) :
    Ends next final s ↔ Ends next final t := by
  subst e
  constructor
  · rintro ⟨n, hn⟩
    cases n with
    | zero => exact absurd hn h
    | succ n => exact ⟨n, hn⟩
  · rintro ⟨n, hn⟩
    exact ⟨n + 1, hn⟩

/-- **Divergence rule.**  What every step keeps and no final state has holds for ever. -/
theorem not_ends_of_invariant {Inv : σ → Prop} (keep : ∀ t, Inv t → Inv (next t))
    (final_not : ∀ t, Inv t → ¬ final t) (hs : Inv s) : ¬ Ends next final s := by
  rintro ⟨n, hn⟩
  have hinv : Inv (next^[n] s) := by
    induction n generalizing s with
    | zero => exact hs
    | succ n ih => exact ih (keep s hs) hn
  exact final_not _ hinv hn

end Ends

/-! ## Steps that can fail -/

/-- **Run rule** for steps that can fail. -/
theorem foldlM_invariant {α : Type} {step : σ → α → Except ε σ} {P : σ → Prop}
    (keep : ∀ s a s', P s → step s a = .ok s' → P s') {as : List α} {s s' : σ} (hs : P s)
    (h : as.foldlM step s = .ok s') : P s' := by
  induction as generalizing s with
  | nil =>
    cases h
    exact hs
  | cons a as ih =>
    rw [List.foldlM_cons] at h
    cases e : step s a with
    | error err =>
      rw [e] at h
      cases h
    | ok t =>
      rw [e] at h
      exact ih (keep s a t hs e) h

/-! ## Queues -/

section Queue

variable {α : Type} {needs needs' : α → α → Prop} {ok ok' : α → Prop} {q q' : List α} {a : α}

/-- What an element of the queue needs is settled or comes before it. -/
def Due (needs : α → α → Prop) (ok : α → Prop) : List α → Prop
  | [] => True
  | a :: q => (∀ b, needs a b → ok b) ∧ Due needs (fun b => ok b ∨ b = a) q

theorem Due.mono (h : Due needs ok q) (hneeds : ∀ a ∈ q, ∀ b, needs' a b → needs a b)
    (hok : ∀ b, ok b → ok' b) : Due needs' ok' q := by
  induction q generalizing ok ok' with
  | nil => trivial
  | cons a q ih =>
    exact ⟨fun b hb => hok b (h.1 b (hneeds a List.mem_cons_self b hb)),
      ih h.2 (fun c hc => hneeds c (List.mem_cons_of_mem a hc)) fun b hb => hb.imp_left (hok b)⟩

theorem Due.snoc (h : Due needs ok q) (ha : ∀ b, needs a b → ok b ∨ b ∈ q) :
    Due needs ok (q ++ [a]) := by
  induction q generalizing ok with
  | nil => exact ⟨fun b hb => by simpa using ha b hb, trivial⟩
  | cons c q ih =>
    refine ⟨h.1, ih h.2 fun b hb => ?_⟩
    rcases ha b hb with hok | hm
    · exact Or.inl (Or.inl hok)
    · rcases List.mem_cons.mp hm with rfl | hm
      · exact Or.inl (Or.inr rfl)
      · exact Or.inr hm

/-- What is settled may leave the queue. -/
theorem Due.sublist (h : Due needs ok q) (hnodup : q.Nodup) (hs : q'.Sublist q)
    (hok : ∀ a ∈ q, a ∉ q' → ok a) : Due needs ok q' := by
  induction hs generalizing ok with
  | slnil => trivial
  | @cons l' l a hs ih =>
    obtain ⟨ha, hnodup⟩ := List.nodup_cons.mp hnodup
    have hleft : ok a := hok a List.mem_cons_self fun hm => ha (hs.mem hm)
    refine ih (h.2.mono (fun _ _ _ => id) fun b hb => ?_) hnodup fun b hb =>
      hok b (List.mem_cons_of_mem a hb)
    rcases hb with hb | rfl
    · exact hb
    · exact hleft
  | @cons_cons l' l a hs ih =>
    obtain ⟨ha, hnodup⟩ := List.nodup_cons.mp hnodup
    refine ⟨h.1, ih h.2 hnodup fun b hb hnot => Or.inl (hok b (List.mem_cons_of_mem a hb) ?_)⟩
    intro hm
    rcases List.mem_cons.mp hm with rfl | hm
    · exact ha hb
    · exact hnot hm

end Queue

/-! ## Computations with fuel -/

section Fuel

variable {α β γ δ : Type} {e : ε} {P : β → α → Prop} {Q : δ → γ → Prop}

/-- Two computations both do what `a` does, and stop with `e` where it lacks fuel. -/
def Follows (e : ε) (P : β → α → Prop) : Option α → Except ε β → Except ε β → Prop
  | none, r, r' => r = .error e ∧ r' = .error e
  | some a, r, r' => ∃ b, r = .ok b ∧ r' = .ok b ∧ P b a

theorem Follows.bind {a : Option α} {r r' : Except ε β} {f : α → Option γ}
    {g g' : β → Except ε δ} (h : Follows e P a r r')
    (hf : ∀ b x, a = some x → P b x → Follows e Q (f x) (g b) (g' b)) :
    Follows e Q (a >>= f) (r >>= g) (r' >>= g') := by
  cases a with
  | none =>
    obtain ⟨rfl, rfl⟩ := h
    exact ⟨rfl, rfl⟩
  | some x =>
    obtain ⟨b, rfl, rfl, hb⟩ := h
    exact hf b x rfl hb

theorem Follows.bind_ok {Q : δ → α → Prop} {a : Option α} {r r' : Except ε β}
    {g g' : β → Except ε δ} (h : Follows e P a r r')
    (hg : ∀ b x, P b x → ∃ d, g b = .ok d ∧ g' b = .ok d ∧ Q d x) :
    Follows e Q a (r >>= g) (r' >>= g') := by
  cases a with
  | none =>
    obtain ⟨rfl, rfl⟩ := h
    exact ⟨rfl, rfl⟩
  | some x =>
    obtain ⟨b, rfl, rfl, hb⟩ := h
    exact hg b x hb

theorem Follows.eq {a : Option α} {r r' : Except ε β} (h : Follows e P a r r') : r = r' := by
  cases a with
  | none => rw [h.1, h.2]
  | some x =>
    obtain ⟨b, hr, hr', _⟩ := h
    rw [hr, hr']

theorem Follows.mono {P' : β → α → Prop} {a : Option α} {r r' : Except ε β}
    (h : Follows e P a r r') (hP : ∀ b x, a = some x → P b x → P' b x) : Follows e P' a r r' := by
  cases a with
  | none => exact h
  | some x =>
    obtain ⟨b, hr, hr', hb⟩ := h
    exact ⟨b, hr, hr', hP b x rfl hb⟩

end Fuel

end BottomResearch.Runs
