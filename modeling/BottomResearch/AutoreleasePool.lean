import BottomResearch.PoolStack

/-!
# Autorelease pools

`AutoreleasePoolPage` in `NSObject.mm`.  The stack of a thread is a list of pages,
linked both ways; the thread's variable holds the hot page, nothing, or the
placeholder of a first pool that was never used.  A page is known by its depth, a
slot by its page and its place in it.  Release is a parameter: by what happened
before, the code that the release of an object runs on the same thread.
-/

namespace BottomResearch.AutoreleasePool

open PoolStack (Code Event OnRelease)

variable {Object : Type}

/-- The slots of a page, the options in the environment and the SDK. -/
structure Config where
  capacity : Nat
  two_le : 2 ≤ capacity
  debugPoolAllocation : Bool
  debugMissingPools : Bool
  newSdk : Bool

/-- The slots of a page below `next`, newest first; `none` is `POOL_BOUNDARY`. -/
abbrev Page (Object : Type) := List (Option Object)

namespace Page

def full (cfg : Config) (page : Page Object) : Bool := page.length == cfg.capacity

def lessThanHalfFull (cfg : Config) (page : Page Object) : Bool :=
  decide (page.length < cfg.capacity / 2)

end Page

/-- The pages of a thread, from the hot page outwards. -/
structure Chain (Object : Type) where
  parents : List (Page Object)
  hot : Page Object
  children : List (Page Object)

inductive Tls (Object : Type) where
  | empty
  | placeholder
  | pages (c : Chain Object)

/-- What `push` returns: `EMPTY_POOL_PLACEHOLDER` or the address of a slot. -/
inductive Token where
  | placeholder
  | slot (depth offset : Nat)

inductive Fault where
  | full
  | busted
  | invalidPool
  | notEmpty
  | outOfFuel

structure Thread (Object : Type) where
  tls : Tls Object
  history : List (Event Object)

namespace Chain

/-- A page without parent. -/
def fresh : Chain Object := ⟨[], [], []⟩

def add (cfg : Config) (slot : Option Object) (c : Chain Object) :
    Except Fault (Token × Chain Object) :=
  if c.hot.full cfg then .error .full
  else .ok (.slot c.parents.length c.hot.length, { c with hot := slot :: c.hot })

/-- The page at a depth, with the pages on either side. -/
def select (depth : Nat) (c : Chain Object) : Option (Chain Object) :=
  let pages := c.parents.reverse ++ c.hot :: c.children
  match pages.drop depth with
  | [] => none
  | page :: children => some ⟨(pages.take depth).reverse, page, children⟩

/-- `*stop`; a slot above `next` holds the scribble. -/
def isBoundary (offset : Nat) (c : Chain Object) : Bool :=
  match c.hot.reverse[offset]? with
  | some none => true
  | _ => false

end Chain

/-! ## Push and autorelease -/

/-- The first child with room, or a new page. -/
def nextPage (cfg : Config) (parents : List (Page Object)) (page : Page Object) :
    List (Page Object) → Chain Object
  | [] => ⟨page :: parents, [], []⟩
  | child :: children =>
    if child.full cfg then nextPage cfg (page :: parents) child children
    else ⟨page :: parents, child, children⟩

def autoreleaseFullPage (cfg : Config) (slot : Option Object) (c : Chain Object) :
    Except Fault (Token × Chain Object) :=
  (nextPage cfg c.parents c.hot c.children).add cfg slot

/-- There is no hot page; no token for an object that leaks. -/
def autoreleaseNoPage (cfg : Config) (slot : Option Object) (t : Thread Object) :
    Except Fault (Option Token × Thread Object) :=
  match t.tls, slot with
  | .placeholder, _ => do
    -- A boundary for the pool that the placeholder stands for.
    let (_, c) ← Chain.fresh.add cfg none
    let (token, c) ← c.add cfg slot
    .ok (some token, { t with tls := .pages c })
  | _, some o =>
    if cfg.debugMissingPools then .ok (none, { t with history := .leaked o :: t.history })
    else do
      let (token, c) ← Chain.fresh.add cfg (some o)
      .ok (some token, { t with tls := .pages c })
  | _, none =>
    if cfg.debugPoolAllocation then do
      let (token, c) ← Chain.fresh.add cfg none
      .ok (some token, { t with tls := .pages c })
    else .ok (some .placeholder, { t with tls := .placeholder })

def autoreleaseFast (cfg : Config) (slot : Option Object) (t : Thread Object) :
    Except Fault (Option Token × Thread Object) :=
  match t.tls with
  | .pages c => do
    let (token, c) ← if c.hot.full cfg then autoreleaseFullPage cfg slot c else c.add cfg slot
    .ok (some token, { t with tls := .pages c })
  | _ => autoreleaseNoPage cfg slot t

def autoreleaseNewPage (cfg : Config) (slot : Option Object) (t : Thread Object) :
    Except Fault (Option Token × Thread Object) :=
  match t.tls with
  | .pages c => do
    let (token, c) ← autoreleaseFullPage cfg slot c
    .ok (some token, { t with tls := .pages c })
  | _ => autoreleaseNoPage cfg slot t

def autorelease (cfg : Config) (o : Object) (t : Thread Object) : Except Fault (Thread Object) := do
  let (_, t) ← autoreleaseFast cfg (some o) { t with history := .autoreleased o :: t.history }
  .ok t

def push (cfg : Config) (t : Thread Object) : Except Fault (Token × Thread Object) := do
  let (dest, t) ← if cfg.debugPoolAllocation then autoreleaseNewPage cfg none t
    else autoreleaseFast cfg none t
  match dest with
  | some token => .ok (token, t)
  | none => .error .busted

/-! ## Pop -/

/-- `while (page->empty())` in `releaseUntil`. -/
def whileEmpty (children : List (Page Object)) (hot : Page Object) :
    List (Page Object) → Except Fault (Chain Object)
  | [] => if hot.isEmpty then .error .busted else .ok ⟨[], hot, children⟩
  | page :: parents =>
    if hot.isEmpty then whileEmpty (hot :: children) page parents
    else .ok ⟨page :: parents, hot, children⟩

/-- The search for a slot to release, as it is. -/
def seekWhile (c : Chain Object) : Except Fault (Chain Object) :=
  whileEmpty c.children c.hot c.parents

/-- The search with the `if` that the comment in `releaseUntil` asks for. -/
def seekIf (c : Chain Object) : Except Fault (Chain Object) :=
  if c.hot.isEmpty then
    match c.parents with
    | [] => .error .busted
    | page :: parents => .ok ⟨parents, page, c.hot :: c.children⟩
  else .ok c

section Release

variable (cfg : Config) (onRelease : OnRelease Object)
variable (seek : Chain Object → Except Fault (Chain Object))
variable (run : Code Object → Thread Object → Except Fault (Thread Object))

/-- Release what lies above a slot, from the hot page on at every turn. -/
def releaseUntil (depth offset : Nat) : Nat → Thread Object → Except Fault (Thread Object)
  | fuel, t =>
    match t.tls with
    | .pages c =>
      match c.select depth with
      | none => .error .busted
      | some this =>
        if this.hot.length = offset then .ok { t with tls := .pages this }
        else match fuel with
          | 0 => .error .outOfFuel
          | fuel + 1 => seek c >>= fun c =>
            match c.hot with
            | [] => .error .busted
            | none :: rest =>
              releaseUntil depth offset fuel { t with tls := .pages { c with hot := rest } }
            | some o :: rest =>
              run (onRelease t.history o)
                ⟨.pages { c with hot := rest }, .released o :: t.history⟩ >>=
                releaseUntil depth offset fuel
    | _ => .error .busted

/-- Deletes pages, which are to be empty. -/
def kill (pages : List (Page Object)) : Except Fault Unit :=
  if pages.all List.isEmpty then .ok () else .error .notEmpty

/-- The empty pages that `pop` deletes when it has released. -/
def deleteEmpty (c : Chain Object) : Except Fault (Tls Object) :=
  if cfg.debugPoolAllocation && c.hot.isEmpty then do
    kill (c.hot :: c.children)
    match c.parents with
    | [] => .ok .empty
    | parent :: parents => .ok (.pages ⟨parents, parent, []⟩)
  else if cfg.debugMissingPools && c.hot.isEmpty && c.parents.isEmpty then do
    kill (c.hot :: c.children)
    .ok .empty
  else match c.children with
    | [] => .ok (.pages c)
    | child :: children =>
      if c.hot.lessThanHalfFull cfg then do
        kill (child :: children)
        .ok (.pages { c with children := [] })
      else do
        kill children
        .ok (.pages { c with children := [child] })

def badPop (t : Thread Object) : Except Fault (Thread Object) :=
  if cfg.debugPoolAllocation || cfg.newSdk then .error .invalidPool else .ok t

/-- `pop` of a slot. -/
def popSlot (depth offset fuel : Nat) (t : Thread Object) : Except Fault (Thread Object) :=
  match t.tls with
  | .pages c =>
    match c.select depth with
    | none => .error .busted
    | some page =>
      -- The first slot of the coldest page may hold an object.
      if page.isBoundary offset || offset == 0 && page.parents.isEmpty then
        releaseUntil onRelease seek run depth offset fuel t >>= fun t =>
          match t.tls with
          | .pages c => do
            let tls ← deleteEmpty cfg c
            .ok { t with tls := tls }
          | _ => .error .busted
      else badPop cfg t
  | _ => .error .busted

def pop (token : Token) (fuel : Nat) (t : Thread Object) : Except Fault (Thread Object) :=
  match token with
  | .slot depth offset => popSlot cfg onRelease seek run depth offset fuel t
  | .placeholder =>
    match t.tls with
    | .pages _ => popSlot cfg onRelease seek run 0 0 fuel t
    | _ => .ok { t with tls := .empty }

end Release

/-- What a thread does with its pools. -/
def exec (cfg : Config) (onRelease : OnRelease Object)
    (seek : Chain Object → Except Fault (Chain Object)) :
    Nat → Code Object → Thread Object → Except Fault (Thread Object)
  | 0, _, _ => .error .outOfFuel
  | _ + 1, .done, t => .ok t
  | fuel + 1, .autorelease o next, t => autorelease cfg o t >>= exec cfg onRelease seek fuel next
  | fuel + 1, .push next, t => push cfg t >>= fun r => exec cfg onRelease seek fuel next r.2
  | fuel + 1, .pool body next, t => do
    let (token, t) ← push cfg t
    let t ← exec cfg onRelease seek fuel body t
    let t ← pop cfg onRelease seek (exec cfg onRelease seek fuel) token fuel t
    exec cfg onRelease seek fuel next t

/-- The pages that are left when a thread ends; in debugging `pop` deleted them. -/
def killPages (cfg : Config) (t : Thread Object) : Except Fault (Thread Object) :=
  match t.tls with
  | .pages c =>
    if cfg.debugMissingPools || cfg.debugPoolAllocation then .ok { t with tls := .empty }
    else do
      kill (c.parents.reverse ++ c.hot :: c.children)
      .ok { t with tls := .empty }
  | _ => .ok { t with tls := .empty }

/-- The destructor of the thread's variable. -/
def tlsDealloc (cfg : Config) (onRelease : OnRelease Object)
    (seek : Chain Object → Except Fault (Chain Object)) (fuel : Nat) (t : Thread Object) :
    Except Fault (Thread Object) :=
  match t.tls with
  | .pages c =>
    -- All pools are popped from the coldest page.
    if ((c.hot :: c.parents).getLastD []).isEmpty then killPages cfg t
    else popSlot cfg onRelease seek (exec cfg onRelease seek fuel) 0 0 fuel t >>= killPages cfg
  | _ => .ok { t with tls := .empty }

end BottomResearch.AutoreleasePool
