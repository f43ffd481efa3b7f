import BekenCam.StepRuns

/-!
# Promises and their handles

Any number of actors, tasks and interrupts, resolve and await promises and copy, move, assign and
drop the handles to them. Each masked section and each semaphore operation is one step, and so is
each deletion; what an actor does in between is its own. Promises, and the payloads of the resolves,
are numbered in the order of their creation: a payload that is passed twice counts as two. The
count of a promise is a natural number: each handle takes a word of the 32 bit address space, so
there are always fewer than a `uint32_t` can count.
-/
namespace BekenCam.Promise

/-- A `Shared`. One that is spent has given up the last reference and still has the pointer. -/
inductive Handle
  | gone
  | empty
  | counted (p : ℕ)
  | spent (p : ℕ)
  deriving DecidableEq

/-- The pointer, if there is one. -/
def Handle.value : Handle → Option ℕ
  | .counted p | .spent p => some p
  | .gone | .empty => none

def Handle.ofValue : Option ℕ → Handle
  | none => .empty
  | some p => .counted p

/-- A `PromiseBase` without its count. `ok` tells whether there is a semaphore. -/
structure Cell where
  ok : Bool
  sem : Bool
  resolved : Bool
  taken : Bool
  value : Option ℕ
  deriving DecidableEq

/-- What remains to be done after `drop`. An assignment has counted `extra` up before. -/
inductive After (η : Type)
  | assign (dst src : η) (extra : Option ℕ)
  | moveAssign (dst src : η)
  | clear (h : η)
  | destroy (h : η)

def After.target {η : Type} : After η → η
  | .assign dst _ _ | .moveAssign dst _ => dst
  | .clear h | .destroy h => h

/-- Where an actor is, with its locals: the step it is going to take. -/
inductive Pc (η : Type)
  | idle
  -- the copy constructor and the copy assignment, before `ref`
  | copying (dst src : η) (p : ℕ)
  | assigning (dst src : η) (p : ℕ)
  -- `drop`: before `unref`, before `delete`
  | dropping (k : After η)
  | deleting (k : After η) (p : ℕ)
  -- `resolve_raw` and `resolve_raw_from_isr`: before `claim`, before the give
  | resolving (h : η) (p : ℕ) (payload : Option ℕ)
  | giving (h : η) (p : ℕ) (payload : Option ℕ)
  -- `await_raw`: before the take, before the masked section, before the give
  | taking (h : η) (p : ℕ)
  | masked (h : η) (p : ℕ)
  | putBack (h : η) (p : ℕ) (payload : Option ℕ)

/-- What became of a payload: its resolve returned false, an await returned it, or the destructor
of a promise deleted it. -/
inductive Fate
  | lost
  | handed (p : ℕ)
  | freed (p : ℕ)
  deriving DecidableEq

/-- `wins`, `fates` and `deleted` only record: the resolves that returned true, with their
payloads, what became of the payloads, and the promises that were deleted. -/
structure State (τ η : Type) where
  pc : τ → Pc η
  handle : η → Handle
  refs : ℕ → ℕ
  cell : ℕ → Cell
  nextPromise : ℕ
  nextPayload : ℕ
  wins : List (ℕ × Option ℕ)
  fates : List (ℕ × Fate)
  deleted : List ℕ

def Cell.fresh (ok : Bool) : Cell := ⟨ok, false, false, false, none⟩

def init (τ η : Type) : State τ η where
  pc _ := .idle
  handle _ := .gone
  refs _ := 0
  cell _ := .fresh false
  nextPromise := 0
  nextPayload := 0
  wins := []
  fates := []
  deleted := []

inductive Act (τ η : Type)
  -- constructors: empty, of a new promise, copying, moving
  | construct (a : τ) (h : η)
  | make (a : τ) (h : η) (ok : Bool)
  | copy (a : τ) (dst src : η)
  | move (a : τ) (dst src : η)
  | take (a : τ) (dst src : η)
  -- assignments and what lets go
  | assign (a : τ) (dst src : η)
  | moveAssign (a : τ) (dst src : η)
  | clear (a : τ) (h : η)
  | destroy (a : τ) (h : η)
  -- the promise
  | resolve (a : τ) (h : η) (hasPayload : Bool)
  | resolveFromIsr (a : τ) (h : η) (hasPayload : Bool)
  | await (a : τ) (h : η)
  -- the next step of what an actor is in
  | next (a : τ)

section Step

variable {τ η : Type} [DecidableEq τ] [DecidableEq η]

def State.setPc (s : State τ η) (a : τ) (pc : Pc η) : State τ η :=
  { s with pc := Function.update s.pc a pc }

def State.setHandle (s : State τ η) (h : η) (handle : Handle) : State τ η :=
  { s with handle := Function.update s.handle h handle }

def State.setRefs (s : State τ η) (p n : ℕ) : State τ η :=
  { s with refs := Function.update s.refs p n }

def State.setCell (s : State τ η) (p : ℕ) (cell : Cell) : State τ η :=
  { s with cell := Function.update s.cell p cell }

/-- What became of a payload, unless it is null. -/
def State.settle (s : State τ η) (payload : Option ℕ) (fate : Fate) : State τ η :=
  { s with fates := payload.toList.map (·, fate) ++ s.fates }

/-- The new handle has the pointer and the old one is emptied. -/
def State.moveTo (s : State τ η) (dst src : η) : State τ η :=
  (s.setHandle dst (.ofValue (s.handle src).value)).setHandle src .empty

/-- The end of an operation that has dropped what its handle had. -/
def State.finish (s : State τ η) (a : τ) : After η → State τ η
  | .assign dst src _ => (s.setHandle dst (.ofValue (s.handle src).value)).setPc a .idle
  | .moveAssign dst src => (s.moveTo dst src).setPc a .idle
  | .clear h => (s.setHandle h .empty).setPc a .idle
  | .destroy h => (s.setHandle h .gone).setPc a .idle

/-- The step of `drop`: `unref` says whether the count came to zero. -/
def State.unref (s : State τ η) (a : τ) (k : After η) : State τ η :=
  match (s.handle k.target).value with
  | none => s.finish a k
  | some p =>
    if s.refs p = 1 then
      ((s.setRefs p 0).setHandle k.target (.spent p)).setPc a (.deleting k p)
    else (s.setRefs p (s.refs p - 1)).finish a k

/-- The destructor of the promise. -/
def State.delete (s : State τ η) (p : ℕ) : State τ η :=
  { (s.settle (s.cell p).value (.freed p)).setCell p { s.cell p with value := none } with
    deleted := p :: s.deleted }

/-- The payload of a call, null or new. -/
def State.payload (s : State τ η) (hasPayload : Bool) : Option ℕ :=
  if hasPayload then some s.nextPayload else none

def State.spendPayload (s : State τ η) (hasPayload : Bool) : State τ η :=
  { s with nextPayload := s.nextPayload + if hasPayload then 1 else 0 }

/-- `resolve_raw` and `resolve_raw_from_isr` up to the test of `ok`. -/
def State.resolve (s : State τ η) (a : τ) (h : η) (p : ℕ) (hasPayload : Bool) : State τ η :=
  if (s.cell p).ok then
    (s.spendPayload hasPayload).setPc a (.resolving h p (s.payload hasPayload))
  else (s.spendPayload hasPayload).settle (s.payload hasPayload) .lost

/-- The next step of an actor. Only the take of the semaphore can block. -/
def nextStep (s : State τ η) (a : τ) : Option (State τ η) :=
  match s.pc a with
  | .idle => none
  | .copying dst _ p =>
    some (((s.setRefs p (s.refs p + 1)).setHandle dst (.counted p)).setPc a .idle)
  | .assigning dst src p =>
    some ((s.setRefs p (s.refs p + 1)).setPc a (.dropping (.assign dst src (some p))))
  | .dropping k => some (s.unref a k)
  | .deleting k p => some ((s.delete p).finish a k)
  | .resolving h p payload =>
    if (s.cell p).resolved then some ((s.settle payload .lost).setPc a .idle)
    else some ((s.setCell p { s.cell p with
      value := payload
      resolved := true }).setPc a (.giving h p payload))
  | .giving _ p payload =>
    some ({ s.setCell p { s.cell p with sem := true } with
      wins := (p, payload) :: s.wins }.setPc a .idle)
  | .taking h p =>
    if (s.cell p).sem then
      some ((s.setCell p { s.cell p with sem := false }).setPc a (.masked h p))
    else none
  | .masked h p =>
    let value := if (s.cell p).taken then none else (s.cell p).value
    some ((s.setCell p { s.cell p with
      taken := true
      value := none }).setPc a (.putBack h p value))
  | .putBack _ p payload =>
    some (((s.setCell p { s.cell p with sem := true }).settle payload (.handed p)).setPc a .idle)

/-- The beginning of an operation, by an actor that is in none. -/
def beginStep (s : State τ η) : Act τ η → Option (State τ η)
  | .construct _ h => if s.handle h = .gone then some (s.setHandle h .empty) else none
  | .make _ h ok =>
    if s.handle h = .gone then
      some { (s.setRefs s.nextPromise 1).setHandle h (.counted s.nextPromise) with
        cell := Function.update s.cell s.nextPromise (.fresh ok)
        nextPromise := s.nextPromise + 1 }
    else none
  | .copy a dst src =>
    if s.handle dst = .gone ∧ s.handle src ≠ .gone then
      match (s.handle src).value with
      | some p => some (s.setPc a (.copying dst src p))
      | none => some (s.setHandle dst .empty)
    else none
  | .move _ dst src | .take _ dst src =>
    if s.handle dst = .gone ∧ s.handle src ≠ .gone then some (s.moveTo dst src) else none
  | .assign a dst src =>
    if s.handle dst ≠ .gone ∧ s.handle src ≠ .gone then
      match (s.handle src).value with
      | some p => some (s.setPc a (.assigning dst src p))
      | none => some (s.setPc a (.dropping (.assign dst src none)))
    else none
  | .moveAssign a dst src =>
    if s.handle dst ≠ .gone ∧ s.handle src ≠ .gone then
      if dst = src then some s else some (s.setPc a (.dropping (.moveAssign dst src)))
    else none
  | .clear a h => if s.handle h ≠ .gone then some (s.setPc a (.dropping (.clear h))) else none
  | .destroy a h => if s.handle h ≠ .gone then some (s.setPc a (.dropping (.destroy h))) else none
  | .resolve a h hasPayload | .resolveFromIsr a h hasPayload =>
    (s.handle h).value.map fun p => s.resolve a h p hasPayload
  | .await a h =>
    (s.handle h).value.map fun p => if (s.cell p).ok then s.setPc a (.taking h p) else s
  | .next _ => none

def Act.actor : Act τ η → τ
  | .construct a _ | .make a _ _ | .copy a _ _ | .move a _ _ | .take a _ _ | .assign a _ _
  | .moveAssign a _ _ | .clear a _ | .destroy a _ | .resolve a _ _ | .resolveFromIsr a _ _
  | .await a _ | .next a => a

def Pc.isIdle : Pc η → Bool
  | .idle => true
  | _ => false

def step (s : State τ η) (act : Act τ η) : Option (State τ η) :=
  match act with
  | .next a => nextStep s a
  | act => if (s.pc act.actor).isIdle then beginStep s act else none

end Step

/-! ## The contract -/

section Contract

variable {τ η : Type}

/-- The handles that an actor is writing. -/
def After.writes : After η → List η
  | .assign dst _ _ => [dst]
  | .moveAssign dst src => [dst, src]
  | .clear h | .destroy h => [h]

def After.reads : After η → List η
  | .assign _ src _ => [src]
  | .moveAssign _ _ | .clear _ | .destroy _ => []

def Pc.writes : Pc η → List η
  | .copying dst _ _ | .assigning dst _ _ => [dst]
  | .dropping k | .deleting k _ => k.writes
  | _ => []

def Pc.reads : Pc η → List η
  | .copying _ src _ | .assigning _ src _ => [src]
  | .dropping k | .deleting k _ => k.reads
  | .resolving h _ _ | .giving h _ _ | .taking h _ | .masked h _ | .putBack h _ _ => [h]
  | .idle => []

def Act.writes : Act τ η → List η
  | .construct _ h | .make _ h _ | .clear _ h | .destroy _ h => [h]
  | .copy _ dst _ | .assign _ dst _ => [dst]
  | .move _ dst src | .take _ dst src | .moveAssign _ dst src => [dst, src]
  | .resolve _ _ _ | .resolveFromIsr _ _ _ | .await _ _ | .next _ => []

def Act.reads : Act τ η → List η
  | .copy _ _ src | .assign _ _ src => [src]
  | .resolve _ h _ | .resolveFromIsr _ h _ | .await _ h => [h]
  | _ => []

/-- The promise that an actor is awaiting. -/
def Pc.awaits : Pc η → Option ℕ
  | .taking _ p | .masked _ p | .putBack _ p _ => some p
  | _ => none

def Act.awaits (s : State τ η) : Act τ η → Option ℕ
  | .await _ h => (s.handle h).value
  | _ => none

/-- A handle is not written by one actor while another one uses it, so that an actor that uses a
promise has a handle to it, and a promise has one consumer at a time. -/
def Holding (s : State τ η) (act : Act τ η) : Prop :=
  ∀ b, (∀ h ∈ act.writes, h ∉ (s.pc b).writes ∧ h ∉ (s.pc b).reads) ∧
    (∀ h ∈ act.reads, h ∉ (s.pc b).writes) ∧ ∀ p ∈ act.awaits s, (s.pc b).awaits ≠ some p

instance [Fintype τ] [DecidableEq η] (s : State τ η) (act : Act τ η) : Decidable (Holding s act) :=
  inferInstanceAs (Decidable (∀ _, _ ∧ _ ∧ _))

end Contract
end BekenCam.Promise
