import BekenCam.StaSession

/-!
# How far an association is

An association is built, published, taken by one of the tasks that end a session, answered and
ended, or it is given up before anybody has its promise. The whole state follows from how far each
association is, and a step moves at most one of them.
-/
namespace BekenCam.Sta

open Scan (Promise)

/-! ## One association -/

/-- How far an association is. `unsent` is one whose request was refused, while the caller still has
the result, and `givenUp` one that ended without an answer. -/
inductive Life
  | unused
  | built
  | published
  | taken (w : Who)
  | answered (w : Who)
  | ended
  | unsent
  | givenUp
  deriving DecidableEq

namespace Life

/-- The session's handle of the promise is in the session or with the task that took it. -/
@[simp] def isHeld : Life → Bool
  | published | taken _ | answered _ => true
  | _ => false

@[simp] def isAnswered : Life → Bool
  | answered _ | ended => true
  | _ => false

/-- The session's handle is gone. -/
@[simp] def isOver : Life → Bool
  | ended | unsent | givenUp => true
  | _ => false

end Life

namespace Caller

/-- The association whose result and handles the caller has. -/
@[simp] def building : Caller → Option ℕ
  | built k _ => some k
  | _ => none

/-- The result that was taken back from the session. -/
@[simp] def withdrawn : Caller → Option ℕ
  | unsent _ r => r
  | _ => none

/-- The association whose promise the caller has. -/
@[simp] def client : Caller → Option ℕ
  | built k _ | published k | armed k | failed k | stopped k | unsent k _ => some k
  | _ => none

@[simp] def waiting : Caller → Option ℕ
  | published k | armed k => some k
  | _ => none

/-- The association that the session has if it has any. -/
@[simp] def current : Caller → Option ℕ
  | published k | armed k | failed k | stopped k => some k
  | _ => none

/-- The caller has found the session empty. -/
@[simp] def isPast : Caller → Bool
  | free | ready _ | built _ _ => true
  | _ => false

end Caller

namespace Task

/-- What `session_finish` took, up to `resolve`. -/
@[simp] def carried : Task → Option (ℕ × Option ℕ)
  | took k r _ | quiet k r _ | linking k r | resolving k r => some (k, r)
  | _ => none

def pending (t : Task) : Option ℕ := t.carried.map Prod.fst

@[simp] def answered : Task → Option ℕ
  | dropping k => some k
  | _ => none

end Task

/-- One association as the others see it. -/
@[ext] structure View where
  used : Bool
  built : Bool
  unsent : Bool
  published : Bool
  taken : Who → Bool
  answered : Who → Bool
  obj : Promise
  resolves : ℕ
  gone : ℕ
  dropped : ℕ
  handed : Bool
  client : Bool
  waiting : Bool

def State.view (s : State) (k : ℕ) : View where
  used := decide (k < s.next)
  built := s.caller.building == some k
  unsent := s.caller.withdrawn == some k
  published := s.promise == some k
  taken w := (s.task w).pending == some k
  answered w := (s.task w).answered == some k
  obj := s.promises k
  resolves := s.resolves.count k
  gone := s.gone.count k
  dropped := s.dropped.count k
  handed := decide (k ∈ s.handed)
  client := s.caller.client == some k
  waiting := s.caller.waiting == some k

/-- The association `k` is as far as `x`. -/
structure Fits (k : ℕ) (x : Life) (v : View) : Prop where
  used : v.used = decide (x ≠ .unused)
  built : v.built = decide (x = .built)
  unsent : v.unsent = decide (x = .unsent)
  published : v.published = decide (x = .published)
  taken : ∀ w, v.taken w = decide (x = .taken w)
  answered : ∀ w, v.answered w = decide (x = .answered w)
  session : v.obj.session = x.isHeld
  resolved : v.obj.resolved = x.isAnswered
  own : ∀ r, v.obj.value = some r → r = k ∧ x.isAnswered = true
  alive : v.obj.value ≠ none → v.obj.client = true ∨ v.obj.session = true
  resolves : v.resolves = if x.isAnswered then 1 else 0
  gone : v.gone = if x = .givenUp ∨ (x.isAnswered = true ∧ v.obj.value = none) then 1 else 0
  dropped : v.dropped = if x.isOver then 1 else 0
  handed : v.handed = true → x.isHeld = true ∨ x.isAnswered = true
  owner : v.obj.client = true → v.handed = true ∨ v.client = true
  client : v.client = true → v.obj.client = true ∧ v.handed = false
  waiting : v.waiting = true → x.isHeld = true ∨ x.isAnswered = true

section Machine

variable {k : ℕ} {x : Life} {v : View} {w : Who}

theorem Fits.build (h : Fits k .unused v) : Fits k .built { v with
    used := true, built := true, client := true, waiting := false
    obj := ⟨true, false, false, false, none⟩ } := by
  obtain ⟨-, -, hunsent, hpublished, htaken, hanswered, -, -, -, -, hresolves, hgone, hdropped,
    hhanded, -, -, -⟩ := h
  constructor <;> simp_all

theorem Fits.publish (h : Fits k .built v) : Fits k .published { v with
    built := false, published := true, waiting := true
    obj := { v.obj with session := true } } := by
  obtain ⟨hused, hbuilt, hunsent, -, htaken, hanswered, -, hresolved, hown, -, hresolves, hgone,
    hdropped, hhanded, howner, hclient, -⟩ := h
  constructor <;> simp_all

/-- The request was accepted, and the promise is returned. -/
theorem Fits.hand (h : Fits k x v) (hwaiting : v.waiting = true) : Fits k x { v with
    client := false, waiting := false, handed := true } where
  __ := h
  handed _ := h.waiting hwaiting
  owner _ := .inl rfl
  client := nofun
  waiting := nofun

/-- What the session has is taken back. -/
theorem Fits.withdraw (h : Fits k .published v) (hclient : v.client = true) :
    Fits k .unsent { v with
      published := false, unsent := true, waiting := false, dropped := v.dropped + 1
      obj := { v.obj with session := false } } := by
  have hhanded := (h.client hclient).2
  obtain ⟨hused, hbuilt, -, -, htaken, hanswered, -, hresolved, hown, -, hresolves, hgone,
    hdropped, -, howner, hclient, -⟩ := h
  constructor <;> simp_all

/-- The payload that goes with the last handle. -/
def lost (obj : Promise) : Option ℕ := if obj.client || obj.session then none else obj.value

theorem value_letGo (obj : Promise) :
    obj.letGo.value = if obj.client || obj.session then obj.value else none := by
  unfold Promise.letGo
  split_ifs <;> rfl

/-- A payload is lost once, and its promise has none after that. -/
theorem Fits.gone_lost (h : Fits k x v) (obj : Promise) (hvalue : obj.value = v.obj.value) :
    v.gone + (lost obj).toList.count k =
      if x = .givenUp ∨ (x.isAnswered = true ∧ obj.letGo.value = none) then 1 else 0 := by
  have hgone := h.gone
  rw [value_letGo, hvalue]
  unfold lost
  rw [hvalue]
  split_ifs at hgone ⊢ <;> cases hv : v.obj.value with
  | none => simp_all
  | some r =>
    obtain ⟨rfl, hanswered⟩ := h.own r hv
    cases x <;> simp_all

theorem Fits.count_lost (h : Fits k x v) (obj : Promise) (hvalue : obj.value = v.obj.value) {q : ℕ}
    (hq : q ≠ k) : (lost obj).toList.count q = 0 := by
  unfold lost
  rw [hvalue]
  split_ifs
  · rfl
  · cases hv : v.obj.value with
    | none => rfl
    | some r =>
      obtain ⟨rfl, -⟩ := h.own r hv
      simp [Ne.symm hq]

theorem Fits.dropClient (h : Fits k x v) : Fits k x { v with
    client := false, waiting := false
    gone := v.gone + (lost { v.obj with client := false }).toList.count k
    obj := Promise.letGo { v.obj with client := false } } where
  __ := h
  session := by simpa using h.session
  resolved := by simpa using h.resolved
  own r hr := by
    rw [value_letGo] at hr
    split_ifs at hr
    exact h.own r hr
  alive := Promise.alive_letGo _
  gone := h.gone_lost _ rfl
  owner := by simp
  client := nofun
  waiting := nofun

/-- The result of an association that was taken back is deleted. -/
theorem Fits.giveUp (h : Fits k .unsent v) :
    Fits k .givenUp { v with unsent := false, gone := v.gone + 1 } := by
  obtain ⟨hused, hbuilt, -, hpublished, htaken, hanswered, hsession, hresolved, hown, halive,
    hresolves, hgone, hdropped, hhanded, howner, hclient, hwaiting⟩ := h
  constructor <;> simp_all

/-- There was no memory for the promise. -/
theorem Fits.waste (h : Fits k .unused v) (hvalue : v.obj.value = none) :
    Fits k .givenUp { v with used := true, gone := v.gone + 1, dropped := v.dropped + 1 } := by
  obtain ⟨-, hbuilt, hunsent, hpublished, htaken, hanswered, hsession, hresolved, hown, halive,
    hresolves, hgone, hdropped, hhanded, howner, hclient, hwaiting⟩ := h
  constructor <;> simp_all

theorem Fits.await (h : Fits k x v) (hresolved : v.obj.resolved = true) : Fits k x { v with
    gone := v.gone + v.obj.value.toList.count k
    obj := { v.obj with taken := true, value := none } } := by
  have hanswered : x.isAnswered = true := h.resolved.symm.trans hresolved
  refine { h with own := nofun, alive := fun hne => absurd rfl hne, gone := ?_ }
  have hgone := h.gone
  cases hv : v.obj.value with
  | none => simp_all
  | some r =>
    obtain ⟨rfl, -⟩ := h.own r hv
    cases x <;> simp_all

/-- Only the task that takes it has it. -/
theorem update_eq_decide {f : Who → Bool} {mk : Who → Life} (hmk : ∀ w', mk w = mk w' ↔ w = w')
    (hnone : ∀ w', f w' = false) (w' : Who) :
    Function.update f w true w' = decide (mk w = mk w') := by
  rw [Function.update_apply]
  split_ifs with hw
  · simp [hw]
  · simp [hnone, hmk, Ne.symm hw]

theorem update_false {f : Who → Bool} (hnone : ∀ w', w' ≠ w → f w' = false) (w' : Who) :
    Function.update f w false w' = false := by
  rw [Function.update_apply]
  split_ifs with hw
  · rfl
  · exact hnone w' hw

theorem Fits.take (h : Fits k .published v) : Fits k (.taken w) { v with
    published := false, taken := Function.update v.taken w true } := by
  have htakes : ∀ w', Function.update v.taken w true w' = decide (Life.taken w = .taken w') :=
    update_eq_decide (by simp) (by simpa using h.taken)
  obtain ⟨hused, hbuilt, hunsent, -, -, hanswered, hsession, hresolved, hown, halive,
    hresolves, hgone, hdropped, hhanded, howner, hclient, hwaiting⟩ := h
  constructor <;> simp_all

theorem Fits.resolve (h : Fits k (.taken w) v) : Fits k (.answered w) { v with
    taken := Function.update v.taken w false, answered := Function.update v.answered w true
    resolves := v.resolves + 1
    obj := { v.obj with resolved := true, value := some k } } := by
  have hleaves : ∀ w', Function.update v.taken w false w' = false :=
    update_false fun w' hw => by simpa [hw.symm] using h.taken w'
  have hanswers : ∀ w', Function.update v.answered w true w' =
      decide (Life.answered w = .answered w') :=
    update_eq_decide (by simp) (by simpa using h.answered)
  obtain ⟨hused, hbuilt, hunsent, hpublished, -, -, hsession, -, -, -,
    hresolves, hgone, hdropped, hhanded, howner, hclient, hwaiting⟩ := h
  constructor <;> simp_all

/-- The session's handle goes after the promise was resolved. -/
theorem Fits.release (h : Fits k (.answered w) v) : Fits k .ended { v with
    answered := Function.update v.answered w false
    gone := v.gone + (lost { v.obj with session := false }).toList.count k
    dropped := v.dropped + 1
    obj := Promise.letGo { v.obj with session := false } } := by
  have hlost := h.gone_lost { v.obj with session := false } rfl
  have hleaves : ∀ w', Function.update v.answered w false w' = false :=
    update_false fun w' hw => by simpa [hw.symm] using h.answered w'
  have halive := Promise.alive_letGo { v.obj with session := false }
  have hvalue := value_letGo { v.obj with session := false }
  obtain ⟨hused, hbuilt, hunsent, hpublished, htaken, -, hsession, hresolved, hown, -,
    hresolves, -, hdropped, hhanded, howner, hclient, hwaiting⟩ := h
  constructor <;> simp_all

end Machine

end BekenCam.Sta
