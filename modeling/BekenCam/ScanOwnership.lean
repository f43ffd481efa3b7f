import BekenCam.ScanModel

/-!
# Promises and results of scan sessions

What concerns one promise is a small machine of its own: who holds which of its two handles,
whether it was returned and whether it is resolved. A step moves the machine of at most one promise.
The results are in one place each until they are deleted or awaited.
-/
namespace BekenCam.Scan

variable {ι : Type}

/-! ## One promise -/

/-- What a caller in `wifi_scan` is about to do with the promise. -/
inductive Stage
  | built
  | published
  | leaving
  deriving DecidableEq

def Frame.stage (q : ℕ) : Frame → Option Stage
  | built p _ => if p = q then some .built else none
  | published p => if p = q then some .published else none
  | failed p | unsent p _ => if p = q then some .leaving else none
  | idle | checked => none

/-- A worker that has the session's handle, with `true` while it has not resolved the promise. -/
def Finish.hold (q : ℕ) : Finish → Option Bool
  | took (some p) _ _ => if p = q then some true else none
  | dropping p => if p = q then some false else none
  | _ => none

/-- One promise as the others see it. The session is the holder `none`. -/
@[ext] structure View (ι : Type) where
  obj : Promise
  handed : Bool
  resolves : ℕ
  framed : ι → Option Stage
  holding : Option Worker → Option Bool

def State.holding (s : State ι) (q : ℕ) : Option Worker → Option Bool
  | none => if s.promise = some q then some true else none
  | some w => (s.worker w).hold q

def State.view (s : State ι) (q : ℕ) : View ι where
  obj := s.promises q
  handed := decide (q ∈ s.handed)
  resolves := s.resolves.count q
  framed i := (s.frame i).stage q
  holding := s.holding q

/-- The number is not used yet. -/
def View.empty : View ι where
  obj := ⟨false, false, false, false, none⟩
  handed := false
  resolves := 0
  framed _ := none
  holding _ := none

structure Good (v : View ι) : Prop where
  frames : ∀ i j, v.framed i ≠ none → v.framed j ≠ none → i = j
  client : ∀ i, v.framed i ≠ none → v.obj.client = true ∧ v.handed = false
  built : ∀ i, v.framed i = some .built → v.obj.session = false ∧ v.obj.resolved = false
  holders : ∀ h h', v.holding h ≠ none → v.holding h' ≠ none → h = h'
  session : v.obj.session = true ↔ ∃ h, v.holding h ≠ none
  owned : v.obj.client = true → v.handed = true ∨ ∃ i, v.framed i ≠ none
  pending : ∀ h, v.holding h = some true → v.obj.resolved = false
  unresolved : v.obj.resolved = false → v.obj.value = none ∧ v.resolves = 0
  alive : v.obj.value ≠ none → v.obj.client = true ∨ v.obj.session = true
  once : v.resolves ≤ 1
  answered : v.handed = true ∨ (∃ i, v.framed i = some .published) →
    v.obj.resolved = true ∨ ∃ h, v.holding h = some true

/-- The promise after a handle of it has gone. -/
def Promise.letGo (obj : Promise) : Promise :=
  if obj.client || obj.session then obj else { obj with value := none }

@[simp] theorem Promise.client_letGo (obj : Promise) : obj.letGo.client = obj.client := by
  unfold Promise.letGo
  split_ifs <;> rfl

@[simp] theorem Promise.session_letGo (obj : Promise) : obj.letGo.session = obj.session := by
  unfold Promise.letGo
  split_ifs <;> rfl

@[simp] theorem Promise.resolved_letGo (obj : Promise) : obj.letGo.resolved = obj.resolved := by
  unfold Promise.letGo
  split_ifs <;> rfl

theorem Promise.value_letGo {obj : Promise} (h : obj.value = none) : obj.letGo.value = none := by
  unfold Promise.letGo
  split_ifs
  · exact h
  · rfl

theorem Promise.alive_letGo (obj : Promise) (h : obj.letGo.value ≠ none) :
    obj.letGo.client = true ∨ obj.letGo.session = true := by
  unfold Promise.letGo at h ⊢
  split_ifs at h ⊢ with hlast
  · simpa using hlast
  · simp at h

section Machine

variable [DecidableEq ι] {v : View ι} {i : ι} {w : Worker}

omit [DecidableEq ι] in
theorem good_empty : Good (View.empty : View ι) := by
  constructor <;> simp [View.empty]

theorem good_build : Good ({ (View.empty : View ι) with
    obj := ⟨true, false, false, false, none⟩
    framed := Function.update (fun _ => none) i (some .built) } : View ι) := by
  constructor <;> simp [View.empty, Function.update_apply]

omit [DecidableEq ι] in
/-- No holder has the handle of a promise that is not published. -/
theorem Good.not_holding (h : Good v) (hi : v.framed i = some .built) (k : Option Worker) :
    v.holding k = none := by
  by_contra hk
  have hsession := h.session.mpr ⟨k, hk⟩
  simp [(h.built i hi).1] at hsession

/-- The frame of a caller goes on to its next stage. -/
theorem Good.frames_update (h : Good v) (hi : v.framed i ≠ none) (x : Option Stage) (j k : ι)
    (hj : Function.update v.framed i x j ≠ none) (hk : Function.update v.framed i x k ≠ none) :
    j = k := by
  have heq : ∀ j, Function.update v.framed i x j ≠ none → j = i := by
    intro j hj
    by_contra hne
    rw [Function.update_of_ne hne] at hj
    exact hne (h.frames j i hj hi)
  rw [heq j hj, heq k hk]

omit [DecidableEq ι] in
/-- The session's handle goes from one holder to another. -/
theorem Good.holders_update (h : Good v) {k : Option Worker} (hk : v.holding k ≠ none) (x : Option Bool)
    (k' a b : Option Worker)
    (ha : Function.update (Function.update v.holding k none) k' x a ≠ none)
    (hb : Function.update (Function.update v.holding k none) k' x b ≠ none) : a = b := by
  have heq : ∀ a, Function.update (Function.update v.holding k none) k' x a ≠ none → a = k' := by
    intro a ha
    by_contra hne
    rw [Function.update_of_ne hne, Function.update_apply] at ha
    split_ifs at ha with hak
    · exact ha rfl
    · exact hak (h.holders a k ha hk)
  rw [heq a ha, heq b hb]

theorem of_framed_update {x : Option Stage} {stage : Stage} {j : ι} (hx : x ≠ some stage)
    (hj : Function.update v.framed i x j = some stage) : v.framed j = some stage ∧ j ≠ i := by
  rw [Function.update_apply] at hj
  split_ifs at hj with hji
  · exact absurd hj hx
  · exact ⟨hj, hji⟩

theorem Good.publish (h : Good v) (hi : v.framed i = some .built) :
    Good { v with
      obj := { v.obj with session := true }
      framed := Function.update v.framed i (some .published)
      holding := Function.update v.holding none (some true) } := by
  have hnone := h.not_holding hi
  have hres := (h.built i hi).2
  have hclient := h.client i (by simp [hi])
  refine ⟨h.frames_update (by simp [hi]) _, fun _ _ => hclient, ?_, ?_, ?_, fun _ => ?_,
    fun _ _ => hres, h.unresolved, fun _ => .inr rfl, h.once, fun _ => ?_⟩
  · intro j hj
    obtain ⟨hj, hji⟩ := of_framed_update (by simp) hj
    exact absurd (h.frames j i (by simp [hj]) (by simp [hi])) hji
  · intro a b ha hb
    simp only [Function.update_apply, hnone] at ha hb
    split_ifs at ha hb with hna hnb
    · rw [hna, hnb]
    all_goals simp at ha hb
  · exact ⟨fun _ => ⟨none, by simp⟩, fun _ => rfl⟩
  · exact .inr ⟨i, by simp⟩
  · exact .inr ⟨none, by simp⟩

/-- The request was queued, and the promise is returned. -/
theorem Good.hand (h : Good v) (hi : v.framed i = some .published) :
    Good { v with handed := true, framed := Function.update v.framed i none } := by
  have hother : ∀ j, Function.update v.framed i none j = none := by
    intro j
    by_contra hj
    have hji : j ≠ i := by
      rintro rfl
      simp at hj
    rw [Function.update_of_ne hji] at hj
    exact hji (h.frames j i hj (by simp [hi]))
  refine ⟨?_, ?_, ?_, h.holders, h.session, fun _ => .inl rfl, h.pending, h.unresolved, h.alive,
    h.once, fun _ => h.answered (.inr ⟨i, hi⟩)⟩
  all_goals simp [hother]

/-- The request was not queued. -/
theorem Good.fail (h : Good v) (hi : v.framed i = some .published) :
    Good { v with framed := Function.update v.framed i (some .leaving) } := by
  have hclient := h.client i (by simp [hi])
  refine ⟨h.frames_update (by simp [hi]) _, fun _ _ => hclient, ?_, h.holders, h.session,
    fun _ => .inr ⟨i, by simp⟩, h.pending, h.unresolved, h.alive, h.once, ?_⟩
  · intro j hj
    exact h.built j (of_framed_update (by simp) hj).1
  · exact fun _ => h.answered (.inr ⟨i, hi⟩)

omit [DecidableEq ι] in
/-- The session's handle is dropped while the caller still has its own. -/
theorem Good.unpublish (h : Good v) (hi : v.framed i = some .leaving)
    (hheld : v.holding none = some true) :
    Good { v with
      obj := { v.obj with session := false }
      holding := Function.update v.holding none none } := by
  have hnone : ∀ k, Function.update v.holding none none k = none := by
    intro k
    rw [Function.update_apply]
    split_ifs with hk
    · rfl
    · by_contra hne
      exact hk (h.holders k none hne (by simp [hheld]))
  have hclient := h.client i (by simp [hi])
  have hleaving : ∀ j, v.framed j ≠ some .published := by
    intro j hj
    obtain rfl := h.frames j i (by simp [hj]) (by simp [hi])
    simp [hi] at hj
  refine ⟨h.frames, h.client, ?_, ?_, ?_, h.owned, ?_, h.unresolved, fun _ => .inl hclient.1,
    h.once, ?_⟩
  · exact fun j hj => ⟨rfl, (h.built j hj).2⟩
  · exact fun a b ha => absurd (hnone a) ha
  · exact ⟨nofun, fun ⟨a, ha⟩ => absurd (hnone a) ha⟩
  · exact fun a ha => absurd ((hnone a).symm.trans ha) (by simp)
  · rintro (hhanded | ⟨j, hj⟩)
    · exact absurd (hclient.2.symm.trans hhanded) (by decide)
    · exact absurd hj (hleaving j)

omit [DecidableEq ι] in
/-- The caller's handle is dropped, and nobody is in `wifi_scan` with it any more. -/
theorem Good.dropClient (h : Good v) {framed : ι → Option Stage} (hframed : ∀ j, framed j = none)
    (hhanded : v.handed = true → v.obj.resolved = true ∨ ∃ k, v.holding k = some true) :
    Good { v with obj := Promise.letGo { v.obj with client := false }, framed := framed } := by
  refine ⟨?_, ?_, ?_, h.holders, ?_, ?_, ?_, ?_, Promise.alive_letGo _, h.once, ?_⟩
  · simp [hframed]
  · simp [hframed]
  · simp [hframed]
  · simpa using h.session
  · simp
  · simpa using h.pending
  · intro hres
    obtain ⟨hvalue, hcount⟩ := h.unresolved (by simpa using hres)
    exact ⟨Promise.value_letGo hvalue, hcount⟩
  · simpa [hframed] using hhanded

theorem Good.leave (h : Good v) (hi : v.framed i = some .leaving) :
    Good { v with
      obj := Promise.letGo { v.obj with client := false }
      framed := Function.update v.framed i none } := by
  refine h.dropClient (fun j => ?_) fun hhanded => h.answered (.inl hhanded)
  by_contra hj
  rw [Function.update_apply] at hj
  split_ifs at hj with hji
  · exact hj rfl
  · exact hji (h.frames j i hj (by simp [hi]))

omit [DecidableEq ι] in
theorem Good.drop (h : Good v) (hhanded : v.handed = true) :
    Good { v with obj := Promise.letGo { v.obj with client := false } } := by
  refine h.dropClient (fun j => ?_) fun hhanded => h.answered (.inl hhanded)
  by_contra hj
  simp [(h.client j hj).2] at hhanded

omit [DecidableEq ι] in
theorem Good.await (h : Good v) (hres : v.obj.resolved = true) :
    Good { v with obj := { v.obj with taken := true, value := none } } := by
  refine ⟨h.frames, h.client, h.built, h.holders, h.session, h.owned, h.pending, ?_, ?_, h.once,
    h.answered⟩
  · intro hnot
    simp [hres] at hnot
  · simp

omit [DecidableEq ι] in
/-- A worker takes the session's handle. -/
theorem Good.take (h : Good v) (w : Worker) (hheld : v.holding none = some true) :
    Good { v with
      holding := Function.update (Function.update v.holding none none) (some w) (some true) } := by
  refine ⟨h.frames, h.client, h.built, h.holders_update (by simp [hheld]) _ _, ?_, h.owned, ?_,
    h.unresolved, h.alive, h.once, fun _ => .inr ⟨some w, by simp⟩⟩
  · exact ⟨fun _ => ⟨some w, by simp⟩, fun _ => h.session.mpr ⟨none, by simp [hheld]⟩⟩
  · exact fun _ _ => h.pending none hheld

omit [DecidableEq ι] in
theorem Good.resolve (h : Good v) (hheld : v.holding (some w) = some true) (r : Option ℕ) :
    Good { v with
      obj := { v.obj with resolved := true, value := r }
      resolves := v.resolves + 1
      holding := Function.update v.holding (some w) (some false) } := by
  have hzero := (h.unresolved (h.pending _ hheld)).2
  have hsession := h.session.mpr ⟨some w, by simp [hheld]⟩
  have honly : ∀ k, v.holding k ≠ none → k = some w := fun k hk =>
    h.holders k (some w) hk (by simp [hheld])
  have hnew : ∀ k, Function.update v.holding (some w) (some false) k ≠ none → k = some w := by
    intro k hk
    by_contra hne
    rw [Function.update_of_ne hne] at hk
    exact hne (honly k hk)
  refine ⟨h.frames, h.client, ?_, ?_, ?_, h.owned, ?_, nofun, fun _ => .inr hsession, ?_,
    fun _ => .inl rfl⟩
  · intro j hj
    have hnot := h.not_holding hj (some w)
    simp [hheld] at hnot
  · intro a b ha hb
    rw [hnew a ha, hnew b hb]
  · exact ⟨fun _ => ⟨some w, by simp⟩, fun _ => hsession⟩
  · intro k hk
    have hkw := hnew k (by rw [show Function.update v.holding (some w) (some false) k = _ from hk]; simp)
    rw [hkw] at hk
    simp at hk
  · simp [hzero]

omit [DecidableEq ι] in
theorem Good.release (h : Good v) (hheld : v.holding (some w) = some false) :
    Good { v with
      obj := Promise.letGo { v.obj with session := false }
      holding := Function.update v.holding (some w) none } := by
  have hnone : ∀ k, Function.update v.holding (some w) none k = none := by
    intro k
    rw [Function.update_apply]
    split_ifs with hk
    · rfl
    · by_contra hne
      exact hk (h.holders k (some w) hne (by simp [hheld]))
  have hres : v.handed = true ∨ (∃ i, v.framed i = some .published) → v.obj.resolved = true := by
    intro hreturned
    rcases h.answered hreturned with hres | ⟨k, hk⟩
    · exact hres
    · obtain rfl := h.holders k (some w) (by simp [hk]) (by simp [hheld])
      simp [hheld] at hk
  refine ⟨h.frames, ?_, ?_, ?_, ?_, ?_, ?_, ?_, Promise.alive_letGo _, h.once, ?_⟩
  · simpa using h.client
  · intro j hj
    have hnot := h.not_holding hj (some w)
    simp [hheld] at hnot
  · exact fun a b ha => absurd (hnone a) ha
  · simp [hnone]
  · simpa using h.owned
  · exact fun a ha => absurd ((hnone a).symm.trans ha) (by simp)
  · intro hnot
    obtain ⟨hvalue, hcount⟩ := h.unresolved (by simpa using hnot)
    exact ⟨Promise.value_letGo hvalue, hcount⟩
  · exact fun hreturned => .inl (by simpa using hres hreturned)

end Machine

/-! ## The whole state -/

/-- Where a result can be. -/
inductive Place (ι : Type)
  | frame (i : ι)
  | session
  | worker (w : Worker)
  | promise (p : ℕ)
  deriving DecidableEq

def Frame.result : Frame → Option ℕ
  | built _ r => some r
  | unsent _ r => r
  | _ => none

def Finish.result : Finish → Option ℕ
  | took _ r _ => r
  | _ => none

def State.slot (s : State ι) : Place ι → Option ℕ
  | .frame i => (s.frame i).result
  | .session => s.result
  | .worker w => (s.worker w).result
  | .promise p => (s.promises p).value

structure Inv (s : State ι) : Prop where
  good : ∀ q, Good (s.view q)
  fresh : ∀ q, s.nextPromise ≤ q → s.view q = View.empty
  paired : s.promise.isSome = s.result.isSome
  took : ∀ w p r status, s.worker w = .took p r status → p.isSome = r.isSome
  owned : OwnedOnce s.slot s.gone s.nextResult

theorem view_init (q : ℕ) : (init ι).view q = View.empty := by
  refine View.ext rfl rfl rfl rfl ?_
  funext k
  cases k <;> rfl

theorem inv_init : Inv (init ι) where
  good q := by
    rw [view_init]
    exact good_empty
  fresh q _ := view_init q
  paired := rfl
  took := nofun
  owned := by
    have hslot : (init ι).slot = fun _ => none := by
      funext place
      cases place <;> rfl
    rw [hslot]
    exact OwnedOnce.empty

section Views

variable {s s' : State ι} {p q : ℕ} {obj : Promise}

/-- Only one promise is affected. -/
theorem Inv.of_view {t : State ι} (h : Inv s) (hp : s.view p ≠ View.empty)
    (hnext : t.nextPromise = s.nextPromise)
    (hothers : ∀ q, q ≠ p → t.view q = s.view q) (hgood : Good (t.view p)) :
    (∀ q, Good (t.view q)) ∧ ∀ q, t.nextPromise ≤ q → t.view q = View.empty := by
  refine ⟨fun q => ?_, fun q hq => ?_⟩
  · by_cases hqp : q = p
    · exact hqp ▸ hgood
    · rw [hothers q hqp]
      exact h.good q
  · rw [hnext] at hq
    have hqp : q ≠ p := by
      rintro rfl
      exact hp (h.fresh q hq)
    rw [hothers q hqp]
    exact h.fresh q hq

theorem view_setPromise (s : State ι) (p q : ℕ) (obj : Promise) :
    (s.setPromise p obj).view q = { s.view q with obj := if q = p then obj else s.promises q } :=
  View.ext (Function.update_apply s.promises p obj q) rfl rfl rfl rfl

theorem view_letGo (s : State ι) (p q : ℕ) (obj : Promise) :
    (s.letGo p obj).view q =
      { s.view q with obj := if q = p then obj.letGo else s.promises q } := by
  unfold State.letGo Promise.letGo
  split_ifs with hlast hqp hqp
  all_goals refine View.ext ?_ rfl rfl rfl rfl
  all_goals simp [State.view, State.setPromise, hqp]

theorem letGo_eq (s : State ι) (p : ℕ) (obj : Promise) : s.letGo p obj =
    { s with
      promises := Function.update s.promises p obj.letGo
      gone := (s.letGo p obj).gone } := by
  unfold State.letGo Promise.letGo
  split_ifs <;> rfl

theorem slot_setPromise [DecidableEq ι] (s : State ι) (p : ℕ) (obj : Promise) :
    (s.setPromise p obj).slot = Function.update s.slot (.promise p) obj.value := by
  funext place
  rw [Function.update_apply]
  cases place with
  | promise q =>
    simp only [State.slot, State.setPromise, Function.update_apply, Place.promise.injEq]
    split_ifs <;> rfl
  | _ => rfl

/-- The handle that goes may take the payload with it. -/
theorem owned_letGo [DecidableEq ι] {next : ℕ} (h : OwnedOnce s.slot s.gone next)
    (hvalue : obj.value = (s.promises p).value) :
    OwnedOnce (s.letGo p obj).slot (s.letGo p obj).gone next := by
  unfold State.letGo
  split_ifs
  · have hself : (s.setPromise p obj).slot = s.slot := by
      rw [slot_setPromise, hvalue]
      exact Function.update_eq_self (Place.promise p) s.slot
    rw [hself]
    exact h
  · have hdiscard := h.discard (.promise p)
    have hslot := slot_setPromise s p { obj with value := none }
    have hsame : ({ s.setPromise p { obj with value := none } with
        gone := obj.value.toList ++ s.gone } : State ι).slot =
        (s.setPromise p { obj with value := none }).slot := by
      funext place
      cases place <;> rfl
    rw [hsame, hslot, hvalue]
    exact hdiscard

/-- A handle goes, and the rest is as it was. -/
theorem inv_letGo [DecidableEq ι] (hgood : ∀ q, Good ((s.letGo p obj).view q))
    (hfresh : ∀ q, s.nextPromise ≤ q → (s.letGo p obj).view q = View.empty)
    (hpaired : s.promise.isSome = s.result.isSome)
    (htook : ∀ w p r status, s.worker w = .took p r status → p.isSome = r.isSome)
    (howned : OwnedOnce s.slot s.gone s.nextResult) (hvalue : obj.value = (s.promises p).value) :
    Inv (s.letGo p obj) := by
  have hletGo := owned_letGo howned hvalue
  refine ⟨hgood, ?_, ?_, ?_, ?_⟩
  · intro q hq
    rw [letGo_eq] at hq
    exact hfresh q hq
  · rw [letGo_eq]
    exact hpaired
  · rw [letGo_eq]
    exact htook
  · have hnext : (s.letGo p obj).nextResult = s.nextResult := by
      rw [letGo_eq]
    rw [hnext]
    exact hletGo

variable [DecidableEq ι] {i : ι} {w : Worker}

theorem view_setFrame (s : State ι) (i : ι) (f : Frame) (q : ℕ) :
    (s.setFrame i f).view q =
      { s.view q with framed := Function.update (s.view q).framed i (f.stage q) } := by
  refine View.ext rfl rfl rfl ?_ rfl
  funext j
  simp only [State.view, State.setFrame, Function.update_apply]
  split_ifs <;> rfl

omit [DecidableEq ι] in
theorem view_setWorker (s : State ι) (w : Worker) (f : Finish) (q : ℕ) :
    (s.setWorker w f).view q =
      { s.view q with holding := Function.update (s.view q).holding (some w) (f.hold q) } := by
  refine View.ext rfl rfl rfl rfl ?_
  funext k
  cases k with
  | none => rfl
  | some w' =>
    simp only [State.view, State.holding, State.setWorker, Function.update_apply, Option.some.injEq]
    split_ifs <;> rfl

theorem slot_setFrame (s : State ι) (i : ι) (f : Frame) :
    (s.setFrame i f).slot = Function.update s.slot (.frame i) f.result := by
  funext place
  rw [Function.update_apply]
  cases place with
  | frame j =>
    simp only [State.slot, State.setFrame, Function.update_apply, Place.frame.injEq]
    split_ifs <;> rfl
  | _ => rfl

theorem slot_setWorker (s : State ι) (w : Worker) (f : Finish) :
    (s.setWorker w f).slot = Function.update s.slot (.worker w) f.result := by
  funext place
  rw [Function.update_apply]
  cases place with
  | worker w' =>
    simp only [State.slot, State.setWorker, Function.update_apply, Place.worker.injEq]
    split_ifs <;> rfl
  | _ => rfl

theorem view_setFrame_same {f : Frame} (h : f.stage q = (s.frame i).stage q) :
    (s.setFrame i f).view q = s.view q := by
  rw [view_setFrame, h]
  exact View.ext rfl rfl rfl (Function.update_eq_self i (s.view q).framed) rfl

omit [DecidableEq ι] in
theorem view_setWorker_same {f : Finish} (h : f.hold q = (s.worker w).hold q) :
    (s.setWorker w f).view q = s.view q := by
  rw [view_setWorker, h]
  exact View.ext rfl rfl rfl rfl (Function.update_eq_self (some w) (s.view q).holding)

omit [DecidableEq ι] in
theorem view_ne_empty_of_client (h : (s.promises p).client = true) : s.view p ≠ View.empty := by
  intro heq
  have hclient : (s.view p).obj.client = false := by
    rw [heq]
    rfl
  exact absurd (hclient.symm.trans h) (by decide)

end Views

/-! ## The callers -/

section Callers

variable [DecidableEq ι] {s : State ι} {i : ι} {p r : ℕ}

omit [DecidableEq ι] in
/-- A caller in `wifi_scan` has its handle. -/
theorem Inv.client (h : Inv s) {stage : Stage} (hi : (s.frame i).stage p = some stage) :
    (s.promises p).client = true ∧ p ∉ s.handed := by
  have hclient := (h.good p).client i (by rw [show (s.view p).framed i = _ from hi]; simp)
  exact ⟨hclient.1, by simpa [State.view] using hclient.2⟩

/-- A step of a caller that concerns no promise and no result. -/
theorem Inv.setFrame (h : Inv s) {f : Frame} (hstage : ∀ q, f.stage q = (s.frame i).stage q)
    (hresult : f.result = (s.frame i).result) : Inv (s.setFrame i f) where
  good q := by
    rw [view_setFrame_same (hstage q)]
    exact h.good q
  fresh q hq := by
    rw [view_setFrame_same (hstage q)]
    exact h.fresh q hq
  paired := h.paired
  took := h.took
  owned := by
    have hslot : (s.setFrame i f).slot = s.slot := by
      rw [slot_setFrame, hresult]
      exact Function.update_eq_self (Place.frame i) s.slot
    rw [hslot]
    exact h.owned

theorem Inv.build (h : Inv s) (hi : s.frame i = .checked) : Inv ({ s with
      promises := Function.update s.promises s.nextPromise ⟨true, false, false, false, none⟩
      results := Function.update s.results s.nextResult ⟨.ok, 0, 0⟩
      nextPromise := s.nextPromise + 1
      nextResult := s.nextResult + 1 }.setFrame i (.built s.nextPromise s.nextResult)) := by
  have hfresh := h.fresh s.nextPromise le_rfl
  have hself : ({ s with
      promises := Function.update s.promises s.nextPromise ⟨true, false, false, false, none⟩
      results := Function.update s.results s.nextResult ⟨.ok, 0, 0⟩
      nextPromise := s.nextPromise + 1
      nextResult := s.nextResult + 1 }.setFrame i (.built s.nextPromise s.nextResult)).view
        s.nextPromise = { (View.empty : View ι) with
          obj := ⟨true, false, false, false, none⟩
          framed := Function.update (fun _ => none) i (some .built) } := by
    rw [view_setFrame, ← hfresh]
    refine View.ext (Function.update_self ..) rfl rfl ?_ rfl
    have hframed : (s.view s.nextPromise).framed = fun _ => none := by
      rw [hfresh]
      rfl
    simp only [Frame.stage, if_true]
    exact congrArg (fun f => Function.update f i _) hframed
  have hothers : ∀ q, q ≠ s.nextPromise → ({ s with
      promises := Function.update s.promises s.nextPromise ⟨true, false, false, false, none⟩
      results := Function.update s.results s.nextResult ⟨.ok, 0, 0⟩
      nextPromise := s.nextPromise + 1
      nextResult := s.nextResult + 1 }.setFrame i (.built s.nextPromise s.nextResult)).view q =
        s.view q := by
    intro q hq
    rw [view_setFrame_same (by simp [Frame.stage, Ne.symm hq, hi])]
    exact View.ext (Function.update_of_ne hq _ _) rfl rfl rfl rfl
  refine ⟨fun q => ?_, fun q hq => ?_, h.paired, h.took, ?_⟩
  · by_cases hq : q = s.nextPromise
    · rw [hq, hself]
      exact good_build
    · rw [hothers q hq]
      exact h.good q
  · have hlt : s.nextPromise < q := hq
    rw [hothers q (Nat.ne_of_gt hlt)]
    exact h.fresh q (Nat.le_of_lt hlt)
  · have hnone : (s.promises s.nextPromise).value = none := congrArg (fun v => v.obj.value) hfresh
    have hslot : ({ s with
        promises := Function.update s.promises s.nextPromise ⟨true, false, false, false, none⟩
        results := Function.update s.results s.nextResult ⟨.ok, 0, 0⟩
        nextPromise := s.nextPromise + 1
        nextResult := s.nextResult + 1 } : State ι).slot = s.slot := by
      funext place
      cases place with
      | promise q =>
        by_cases hq : q = s.nextPromise
        · rw [hq]
          simp [State.slot, hnone]
        · simp [State.slot, Function.update_of_ne hq]
      | _ => rfl
    rw [slot_setFrame, hslot]
    exact h.owned.create (by simp [State.slot, hi, Frame.result])

theorem Inv.buildFails (h : Inv s) (hi : s.frame i = .checked) : Inv ({ s with
    nextResult := s.nextResult + 1
    gone := s.nextResult :: s.gone }.setFrame i .idle) := by
  have hsame := h.setFrame (i := i) (f := .idle) (fun q => by rw [hi]; rfl) (by rw [hi]; rfl)
  exact ⟨hsame.good, hsame.fresh, h.paired, h.took, hsame.owned.waste⟩

/-- What was not there is taken away. -/
theorem update_none {α β : Type} [DecidableEq α] {f : α → Option β} {a : α} (h : f a = none) :
    Function.update f a none = f := by
  rw [← h]
  exact Function.update_eq_self a f

omit [DecidableEq ι] in
/-- The variables of the session. -/
theorem view_session (s : State ι) (promise result : Option ℕ) (collectSurvey cancelled : Bool)
    (q : ℕ) : ({ s with
      promise := promise
      result := result
      collectSurvey := collectSurvey
      cancelled := cancelled } : State ι).view q = { s.view q with
        holding := Function.update (s.view q).holding none
          (if promise = some q then some true else none) } := by
  refine View.ext rfl rfl rfl rfl ?_
  funext k
  cases k <;> rfl

theorem slot_session (s : State ι) (promise result : Option ℕ) (collectSurvey cancelled : Bool) :
    ({ s with
      promise := promise
      result := result
      collectSurvey := collectSurvey
      cancelled := cancelled } : State ι).slot = Function.update s.slot .session result := by
  funext place
  rw [Function.update_apply]
  cases place <;> rfl

theorem Inv.publish (h : Inv s) (hi : s.frame i = .built p r) (hfree : s.promise = none)
    (collectSurvey : Bool) :
    Inv ({ s.setPromise p { s.promises p with session := true } with
      promise := some p
      result := some r
      collectSurvey := collectSurvey
      cancelled := false }.setFrame i (.published p)) := by
  have hstage : (s.view p).framed i = some .built := by simp [State.view, hi, Frame.stage]
  have hnone : ∀ q, (s.view q).holding none = none := by simp [State.view, State.holding, hfree]
  have hclient := (h.client (i := i) (p := p) hstage).1
  obtain ⟨hgood, hfresh⟩ := h.of_view (p := p)
    (t := { s.setPromise p { s.promises p with session := true } with
      promise := some p
      result := some r
      collectSurvey := collectSurvey
      cancelled := false }.setFrame i (.published p)) (view_ne_empty_of_client hclient) rfl
    (fun q hq => by
      rw [view_setFrame, view_session, view_setPromise, if_neg hq, if_neg (by simp [Ne.symm hq])]
      refine View.ext rfl rfl rfl ?_ (update_none (hnone q))
      simp only [Frame.stage, if_neg (Ne.symm hq)]
      exact update_none (by simp [State.view, hi, Frame.stage, Ne.symm hq]))
    (by
      rw [view_setFrame, view_session, view_setPromise, if_pos rfl, if_pos rfl]
      simp only [Frame.stage, if_true]
      exact (h.good p).publish hstage)
  refine ⟨hgood, hfresh, rfl, h.took, ?_⟩
  have hresult : s.result = none := by
    have hpaired := h.paired
    rw [hfree] at hpaired
    simpa using hpaired.symm
  have hmove := h.owned.move (p := .frame i) (q := .session)
    (show s.slot .session = none from hresult) (by simp)
  have hvalue : Function.update s.slot (.promise p) (s.promises p).value = s.slot :=
    Function.update_eq_self (Place.promise p) s.slot
  rw [slot_setFrame, slot_session, slot_setPromise, hvalue]
  rw [Function.update_comm (by simp)] at hmove
  have hframe : s.slot (.frame i) = some r := by simp [State.slot, hi, Frame.result]
  rw [hframe] at hmove
  exact hmove

omit [DecidableEq ι] in
theorem view_handed (s : State ι) (p q : ℕ) : ({ s with handed := p :: s.handed } : State ι).view q =
    { s.view q with handed := decide (q = p) || (s.view q).handed } := by
  refine View.ext rfl ?_ rfl rfl rfl
  simp [State.view]

theorem Inv.hand (h : Inv s) (hi : s.frame i = .published p) :
    Inv ({ s with handed := p :: s.handed }.setFrame i .idle) := by
  have hstage : (s.view p).framed i = some .published := by simp [State.view, hi, Frame.stage]
  have hclient := (h.client (i := i) (p := p) hstage).1
  obtain ⟨hgood, hfresh⟩ := h.of_view (p := p)
    (t := { s with handed := p :: s.handed }.setFrame i .idle) (view_ne_empty_of_client hclient) rfl
    (fun q hq => by
      rw [view_setFrame_same (by simp [Frame.stage, hi, Ne.symm hq]), view_handed]
      exact View.ext rfl (by simp [hq]) rfl rfl rfl)
    (by
      rw [view_setFrame, view_handed, decide_eq_true rfl]
      exact (h.good p).hand hstage)
  refine ⟨hgood, hfresh, h.paired, h.took, ?_⟩
  have hslot : ({ s with handed := p :: s.handed } : State ι).slot = s.slot := by
    funext place
    cases place <;> rfl
  rw [slot_setFrame, hslot, show Frame.idle.result = none from rfl,
    update_none (by simp [State.slot, hi, Frame.result])]
  exact h.owned

theorem Inv.fail (h : Inv s) (hi : s.frame i = .published p) : Inv (s.setFrame i (.failed p)) := by
  have hstage : (s.view p).framed i = some .published := by simp [State.view, hi, Frame.stage]
  have hclient := (h.client (i := i) (p := p) hstage).1
  obtain ⟨hgood, hfresh⟩ := h.of_view (p := p) (t := s.setFrame i (.failed p))
    (view_ne_empty_of_client hclient) rfl
    (fun q hq => view_setFrame_same (by simp [Frame.stage, hi, Ne.symm hq]))
    (by
      rw [view_setFrame]
      simp only [Frame.stage, if_true]
      exact (h.good p).fail hstage)
  refine ⟨hgood, hfresh, h.paired, h.took, ?_⟩
  rw [slot_setFrame, show (Frame.failed p).result = none from rfl,
    update_none (by simp [State.slot, hi, Frame.result])]
  exact h.owned

/-- The session was taken over already, so there is nothing to clean up. -/
theorem Inv.cleanupEmpty (h : Inv s) (hi : s.frame i = .failed p) (hfree : s.promise = none) :
    Inv ({ s with promise := none, result := none }.setFrame i (.unsent p s.result)) := by
  have hresult : s.result = none := by
    have hpaired := h.paired
    rw [hfree] at hpaired
    simpa using hpaired.symm
  have hsame : ({ s with promise := none, result := none } : State ι) = s := by
    cases s
    simp_all
  rw [hsame, hresult]
  exact h.setFrame (fun q => by rw [hi]; rfl) (by rw [hi]; rfl)

/-- A caller whose request was not queued takes its result back. -/
theorem Inv.cleanup (h : Inv s) (hi : s.frame i = .failed p) (hown : s.promise = some p) :
    Inv ({ s.dropSession p with
      promise := none
      result := none }.setFrame i (.unsent p s.result)) := by
  have hstage : (s.view p).framed i = some .leaving := by simp [State.view, hi, Frame.stage]
  have hclient := (h.client (i := i) (p := p) hstage).1
  have hheld : (s.view p).holding none = some true := by simp [State.view, State.holding, hown]
  have hdrop : s.dropSession p = s.setPromise p { s.promises p with session := false } := by
    unfold State.dropSession State.letGo
    simp [hclient]
  rw [hdrop]
  obtain ⟨hgood, hfresh⟩ := h.of_view (p := p)
    (t := { s.setPromise p { s.promises p with session := false } with
      promise := none
      result := none }.setFrame i (.unsent p s.result)) (view_ne_empty_of_client hclient) rfl
    (fun q hq => by
      rw [view_setFrame_same (by simp [Frame.stage, hi, State.setPromise]), view_session,
        view_setPromise, if_neg hq, if_neg nofun]
      refine View.ext rfl rfl rfl rfl (update_none ?_)
      simp [State.view, State.holding, hown, Ne.symm hq])
    (by
      rw [view_setFrame_same (by simp [Frame.stage, hi, State.setPromise]), view_session,
        view_setPromise, if_pos rfl, if_neg nofun]
      exact (h.good p).unpublish hstage hheld)
  refine ⟨hgood, hfresh, rfl, h.took, ?_⟩
  have hmove := h.owned.move (p := .session) (q := .frame i)
    (by simp [State.slot, hi, Frame.result]) (by simp)
  have hvalue : Function.update s.slot (.promise p) (s.promises p).value = s.slot :=
    Function.update_eq_self (Place.promise p) s.slot
  rw [slot_setFrame, slot_session, slot_setPromise, hvalue]
  exact hmove

theorem Inv.leave (h : Inv s) {r : Option ℕ} (hi : s.frame i = .unsent p r) :
    Inv (({ s with gone := r.toList ++ s.gone }.setFrame i .idle).dropClient p) := by
  have hstage : (s.view p).framed i = some .leaving := by simp [State.view, hi, Frame.stage]
  have hclient := (h.client (i := i) (p := p) hstage).1
  obtain ⟨hgood, hfresh⟩ := h.of_view (p := p)
    (t := ({ s with gone := r.toList ++ s.gone }.setFrame i .idle).dropClient p)
    (view_ne_empty_of_client hclient) (by rw [State.dropClient, letGo_eq]; rfl)
    (fun q hq => by
      unfold State.dropClient
      rw [view_letGo, if_neg hq, view_setFrame_same (by simp [Frame.stage, hi, Ne.symm hq])]
      rfl)
    (by
      unfold State.dropClient
      rw [view_letGo, if_pos rfl, view_setFrame]
      exact (h.good p).leave hstage)
  refine inv_letGo hgood ?_ h.paired h.took ?_ rfl
  · intro q hq
    exact hfresh q (by rw [State.dropClient, letGo_eq]; exact hq)
  · have hslot : s.slot (.frame i) = r := by simp [State.slot, hi, Frame.result]
    have hsame : ({ s with gone := r.toList ++ s.gone } : State ι).slot = s.slot := by
      funext place
      cases place <;> rfl
    rw [slot_setFrame, hsame, ← hslot]
    exact h.owned.discard _

/-! ## The one who was given the promise -/

theorem Inv.await (h : Inv s) (hclient : (s.promises p).client = true)
    (hres : (s.promises p).resolved = true) :
    Inv { s.setPromise p { s.promises p with taken := true, value := none } with
      gone := (s.promises p).value.toList ++ s.gone } := by
  have hview : ∀ q, ({ s.setPromise p { s.promises p with taken := true, value := none } with
      gone := (s.promises p).value.toList ++ s.gone } : State ι).view q =
      (s.setPromise p { s.promises p with taken := true, value := none }).view q :=
    fun q => View.ext rfl rfl rfl rfl rfl
  obtain ⟨hgood, hfresh⟩ := h.of_view (p := p)
    (t := { s.setPromise p { s.promises p with taken := true, value := none } with
      gone := (s.promises p).value.toList ++ s.gone }) (view_ne_empty_of_client hclient) rfl
    (fun q hq => by
      rw [hview, view_setPromise, if_neg hq]
      rfl)
    (by
      rw [hview, view_setPromise, if_pos rfl]
      exact (h.good p).await hres)
  refine ⟨hgood, hfresh, h.paired, h.took, ?_⟩
  have hslot : ({ s.setPromise p { s.promises p with taken := true, value := none } with
      gone := (s.promises p).value.toList ++ s.gone } : State ι).slot =
      (s.setPromise p { s.promises p with taken := true, value := none }).slot := by
    funext place
    cases place <;> rfl
  rw [hslot, slot_setPromise]
  exact h.owned.discard (.promise p)

theorem Inv.drop (h : Inv s) (hhanded : p ∈ s.handed) (hclient : (s.promises p).client = true) :
    Inv (s.dropClient p) := by
  have hview : (s.view p).handed = true := by simpa [State.view] using hhanded
  obtain ⟨hgood, hfresh⟩ := h.of_view (p := p) (t := s.dropClient p)
    (view_ne_empty_of_client hclient) (by rw [State.dropClient, letGo_eq])
    (fun q hq => by
      unfold State.dropClient
      rw [view_letGo, if_neg hq]
      rfl)
    (by
      unfold State.dropClient
      rw [view_letGo, if_pos rfl]
      exact (h.good p).drop hview)
  refine inv_letGo hgood (fun q hq => ?_) h.paired h.took h.owned rfl
  exact hfresh q (by rw [State.dropClient, letGo_eq]; exact hq)

end Callers

/-! ## The workers -/

section Workers

variable [DecidableEq ι] {s : State ι} {w : Worker} {p : ℕ}

omit [DecidableEq ι] in
theorem view_ne_empty_of_holding {k : Option Worker} (h : (s.view p).holding k ≠ none) :
    s.view p ≠ View.empty := by
  intro heq
  rw [heq] at h
  exact h rfl

/-- A step of a worker that concerns no promise and no result. -/
theorem Inv.setWorker (h : Inv s) {f : Finish} (hhold : ∀ q, f.hold q = (s.worker w).hold q)
    (hresult : f.result = (s.worker w).result)
    (htook : ∀ p r status, f = .took p r status → p.isSome = r.isSome) : Inv (s.setWorker w f) where
  good q := by
    rw [view_setWorker_same (hhold q)]
    exact h.good q
  fresh q hq := by
    rw [view_setWorker_same (hhold q)]
    exact h.fresh q hq
  paired := h.paired
  took w' p r status hw := by
    have hw' : Function.update s.worker w f w' = .took p r status := hw
    rw [Function.update_apply] at hw'
    split_ifs at hw'
    · exact htook p r status hw'
    · exact h.took w' p r status hw'
  owned := by
    have hslot : (s.setWorker w f).slot = s.slot := by
      rw [slot_setWorker, hresult]
      exact Function.update_eq_self (Place.worker w) s.slot
    rw [hslot]
    exact h.owned

omit [DecidableEq ι] in
theorem hold_of_ready {f : Finish} (h : f.ready w = true) : (∀ q, f.hold q = none) ∧ f.result = none := by
  cases f <;> cases w <;> first | exact ⟨fun _ => rfl, rfl⟩ | cases h

/-- A worker takes over the session, if there is one. -/
theorem Inv.finish (h : Inv s) (hready : (s.worker w).ready w = true) (status : ScanStatus) :
    Inv ({ s with
      promise := none
      result := none
      cancelled := false }.setWorker w (.took s.promise s.result status)) := by
  obtain ⟨hhold, hresult⟩ := hold_of_ready hready
  have htook : ∀ w' p r st, ({ s with
      promise := none
      result := none
      cancelled := false }.setWorker w (.took s.promise s.result status)).worker w' = .took p r st →
      p.isSome = r.isSome := by
    intro w' p r st hw
    have hw' : Function.update s.worker w (.took s.promise s.result status) w' = .took p r st := hw
    rw [Function.update_apply] at hw'
    split_ifs at hw'
    · cases hw'
      exact h.paired
    · exact h.took w' p r st hw'
  have howned : OwnedOnce ({ s with
      promise := none
      result := none
      cancelled := false }.setWorker w (.took s.promise s.result status)).slot s.gone s.nextResult := by
    rw [slot_setWorker, slot_session]
    exact h.owned.move (p := .session) (q := .worker w)
      (show s.slot (.worker w) = none from hresult) (by simp)
  cases hpromise : s.promise with
  | none =>
    have hview : ∀ q, ({ s with
        promise := none
        result := none
        cancelled := false }.setWorker w (.took none s.result status)).view q = s.view q := by
      intro q
      rw [view_setWorker, view_session, if_neg nofun]
      refine View.ext rfl rfl rfl rfl ?_
      have hsession : Function.update (s.view q).holding none none = (s.view q).holding :=
        update_none (by simp [State.view, State.holding, hpromise])
      change Function.update (Function.update (s.view q).holding none none) (some w) none = _
      rw [hsession]
      exact update_none (hhold q)
    rw [hpromise] at htook howned
    refine ⟨fun q => ?_, fun q hq => ?_, rfl, htook, howned⟩
    · rw [hview]
      exact h.good q
    · rw [hview]
      exact h.fresh q hq
  | some p =>
    have hheld : (s.view p).holding none = some true := by
      simp [State.view, State.holding, hpromise]
    rw [hpromise] at htook howned
    obtain ⟨hgood, hfresh⟩ := h.of_view (p := p)
      (t := { s with
        promise := none
        result := none
        cancelled := false }.setWorker w (.took (some p) s.result status))
      (view_ne_empty_of_holding (k := none) (by simp [hheld])) rfl
      (fun q hq => by
        rw [view_setWorker, view_session, if_neg nofun]
        refine View.ext rfl rfl rfl rfl ?_
        have hsession : Function.update (s.view q).holding none none = (s.view q).holding :=
          update_none (by simp [State.view, State.holding, hpromise, Ne.symm hq])
        simp only [Finish.hold, if_neg (Ne.symm hq)]
        rw [hsession]
        exact update_none (hhold q))
      (by
        rw [view_setWorker, view_session, if_neg nofun]
        simp only [Finish.hold, if_true]
        exact (h.good p).take w hheld)
    exact ⟨hgood, hfresh, rfl, htook, howned⟩

omit [DecidableEq ι] in
theorem view_resolves (s : State ι) (results : ℕ → ScanResult) (p q : ℕ) :
    ({ s with results := results, resolves := p :: s.resolves } : State ι).view q =
      { s.view q with resolves := if q = p then (s.view q).resolves + 1 else (s.view q).resolves } := by
  refine View.ext rfl rfl ?_ rfl rfl
  simp only [State.view, List.count_cons]
  by_cases hq : q = p
  · simp [hq]
  · simp [hq, Ne.symm hq]

theorem Inv.resolve (h : Inv s) {r : Option ℕ} {status : ScanStatus} (results : ℕ → ScanResult)
    (hw : s.worker w = .took (some p) r status) :
    (s.promises p).resolved = false ∧
    Inv (({ s with results := results, resolves := p :: s.resolves }.setWorker w
      (.dropping p)).setPromise p { s.promises p with resolved := true, value := r }) := by
  have hheld : (s.view p).holding (some w) = some true := by
    simp [State.view, State.holding, hw, Finish.hold]
  have hres := (h.good p).pending _ hheld
  refine ⟨hres, ?_⟩
  obtain ⟨hgood, hfresh⟩ := h.of_view (p := p)
    (t := ({ s with results := results, resolves := p :: s.resolves }.setWorker w
      (.dropping p)).setPromise p { s.promises p with resolved := true, value := r })
    (view_ne_empty_of_holding (k := some w) (by simp [hheld])) rfl
    (fun q hq => by
      rw [view_setPromise, if_neg hq, view_setWorker_same (by simp [Finish.hold, hw, Ne.symm hq]),
        view_resolves, if_neg hq]
      rfl)
    (by
      rw [view_setPromise, if_pos rfl, view_setWorker, view_resolves, if_pos rfl]
      simp only [Finish.hold, if_true]
      exact (h.good p).resolve hheld r)
  refine ⟨hgood, hfresh, h.paired, ?_, ?_⟩
  · intro w' p' r' st hw'
    have hw'' : Function.update s.worker w (.dropping p) w' = .took p' r' st := hw'
    rw [Function.update_apply] at hw''
    split_ifs at hw''
    exact h.took w' p' r' st hw''
  · have hempty : s.slot (.promise p) = none := ((h.good p).unresolved hres).1
    have hmove := h.owned.move (p := .worker w) (q := .promise p) hempty (by simp)
    have hsame : ({ s with results := results, resolves := p :: s.resolves } : State ι).slot =
        s.slot := by
      funext place
      cases place <;> rfl
    have hresult : s.slot (.worker w) = r := by simp [State.slot, hw, Finish.result]
    rw [slot_setPromise, slot_setWorker, hsame]
    rw [hresult] at hmove
    exact hmove

/-- The session's handle goes after the promise was resolved. -/
theorem Inv.release (h : Inv s) (hw : s.worker w = .dropping p) :
    Inv ((s.setWorker w .idle).dropSession p) := by
  have hheld : (s.view p).holding (some w) = some false := by
    simp [State.view, State.holding, hw, Finish.hold]
  obtain ⟨hgood, hfresh⟩ := h.of_view (p := p) (t := (s.setWorker w .idle).dropSession p)
    (view_ne_empty_of_holding (k := some w) (by simp [hheld]))
    (by rw [State.dropSession, letGo_eq]; rfl)
    (fun q hq => by
      unfold State.dropSession
      rw [view_letGo, if_neg hq, view_setWorker_same (by simp [Finish.hold, hw, Ne.symm hq])]
      rfl)
    (by
      unfold State.dropSession
      rw [view_letGo, if_pos rfl, view_setWorker]
      exact (h.good p).release hheld)
  refine inv_letGo hgood (fun q hq => ?_) h.paired ?_ ?_ rfl
  · exact hfresh q (by rw [State.dropSession, letGo_eq]; exact hq)
  · intro w' p' r' st hw'
    have hw'' : Function.update s.worker w .idle w' = .took p' r' st := hw'
    rw [Function.update_apply] at hw''
    split_ifs at hw''
    exact h.took w' p' r' st hw''
  · rw [slot_setWorker, show Finish.idle.result = none from rfl,
      update_none (by simp [State.slot, hw, Finish.result])]
    exact h.owned

end Workers

/-! ## The theorem -/

section Runs

variable [DecidableEq ι] {s s' : State ι}

theorem Inv.scanStep {a : Act ι} (h : Inv s) (hok : inTurn s a = true)
    (hstep : Scan.scanStep s a = some s') : Inv s' := by
  cases a with
  | check i =>
    dsimp only [Scan.scanStep] at hstep
    split at hstep
    case h_1 hi =>
      split_ifs at hstep
      · cases hstep
        exact h
      · cases hstep
        exact h.setFrame (fun q => by rw [hi]; rfl) (by rw [hi]; rfl)
    case h_2 => cases hstep
  | build i =>
    dsimp only [Scan.scanStep] at hstep
    split at hstep <;> cases hstep
    exact h.build ‹_›
  | buildFails i hasResult =>
    dsimp only [Scan.scanStep] at hstep
    split at hstep
    case h_1 hi =>
      split_ifs at hstep
      · cases hstep
        exact h.buildFails hi
      · cases hstep
        exact h.setFrame (fun q => by rw [hi]; rfl) (by rw [hi]; rfl)
    case h_2 => cases hstep
  | publish i collectSurvey =>
    dsimp only [Scan.scanStep] at hstep
    split at hstep
    case h_1 p r hi =>
      cases hstep
      have hfree : s.promise = none := Option.isNone_iff_eq_none.mp hok
      have hdrop : (s.setPromise p { s.promises p with session := true }).dropPublished =
          s.setPromise p { s.promises p with session := true } := by
        unfold State.dropPublished
        rw [show (s.setPromise p _).promise = none from hfree]
      rw [hdrop]
      exact h.publish hi hfree collectSurvey
    case h_2 => cases hstep
  | send i queued =>
    dsimp only [Scan.scanStep] at hstep
    split at hstep
    case h_1 p hi =>
      split_ifs at hstep
      · cases hstep
        exact h.hand hi
      · cases hstep
        exact h.fail hi
    case h_2 => cases hstep
  | cleanup i =>
    dsimp only [Scan.scanStep] at hstep
    split at hstep
    case h_1 p hi =>
      cases hstep
      have hown : s.promise = none ∨ s.promise = some p := by
        rw [inTurn, hi] at hok
        simpa using hok
      unfold State.dropPublished
      rcases hown with hfree | hown
      · rw [hfree]
        exact h.cleanupEmpty hi hfree
      · rw [hown]
        exact h.cleanup hi hown
    case h_2 => cases hstep
  | leave i =>
    dsimp only [Scan.scanStep] at hstep
    split at hstep <;> cases hstep
    exact h.leave ‹_›
  | _ => cases hstep

theorem Inv.clientStep {a : Act ι} (h : Inv s) (hstep : Scan.clientStep s a = some s') : Inv s' := by
  cases a with
  | await p =>
    dsimp only [Scan.clientStep] at hstep
    split at hstep
    case isTrue hp =>
      split_ifs at hstep
      · cases hstep
        exact h
      · cases hstep
        exact h.await hp.2.1 hp.2.2
    case isFalse => cases hstep
  | drop p =>
    dsimp only [Scan.clientStep] at hstep
    split_ifs at hstep with hp
    cases hstep
    exact h.drop hp.1 hp.2
  | _ => cases hstep

omit [DecidableEq ι] in
/-- What a result holds and whether the session is cancelled are nobody's concern here. -/
theorem Inv.setUnseen (h : Inv s) (results : ℕ → ScanResult) (cancelled : Bool) :
    Inv { s with results := results, cancelled := cancelled } := by
  have hview : ∀ q, ({ s with results := results, cancelled := cancelled } : State ι).view q =
      s.view q :=
    fun q => View.ext rfl rfl rfl rfl (by funext k; cases k <;> rfl)
  have hslot : ({ s with results := results, cancelled := cancelled } : State ι).slot = s.slot := by
    funext place
    cases place <;> rfl
  refine ⟨fun q => ?_, fun q hq => ?_, h.paired, h.took, ?_⟩
  · rw [hview]
    exact h.good q
  · rw [hview]
    exact h.fresh q hq
  · rw [hslot]
    exact h.owned

omit [DecidableEq ι] in
theorem Inv.setResults (h : Inv s) (results : ℕ → ScanResult) : Inv { s with results := results } :=
  h.setUnseen results s.cancelled

omit [DecidableEq ι] in
theorem Inv.setCancelled (h : Inv s) (cancelled : Bool) : Inv { s with cancelled := cancelled } :=
  h.setUnseen s.results cancelled

theorem Inv.workerStep {a : Act ι} (h : Inv s) (hstep : Scan.workerStep s a = some s') : Inv s' := by
  cases a with
  | indication known outOfMemory =>
    dsimp only [Scan.workerStep] at hstep
    split at hstep <;> cases hstep
    · exact h.setResults _
    · exact h
  | survey outOfMemory =>
    dsimp only [Scan.workerStep] at hstep
    split at hstep <;> cases hstep
    · exact h.setResults _
    · exact h
  | expire =>
    dsimp only [Scan.workerStep] at hstep
    split at hstep
    case h_1 hw =>
      split_ifs at hstep
      · cases hstep
        exact h
      · cases hstep
        exact h.setWorker (fun q => by rw [hw]; rfl) (by rw [hw]; rfl) nofun
      · cases hstep
        exact (h.setCancelled true).setWorker (fun q => by rw [show s.worker _ = _ from hw]; rfl)
          (by rw [show s.worker _ = _ from hw]; rfl) nofun
    case h_2 => cases hstep
  | cancelSweep queued =>
    dsimp only [Scan.workerStep] at hstep
    split at hstep
    case h_1 hw =>
      cases hstep
      cases queued with
      | true => exact h.setWorker (fun q => by rw [hw]; rfl) (by rw [hw]; rfl) nofun
      | false => exact h.setWorker (fun q => by rw [hw]; rfl) (by rw [hw]; rfl) nofun
    case h_2 => cases hstep
  | finish w =>
    dsimp only [Scan.workerStep] at hstep
    split_ifs at hstep with hready
    cases hstep
    exact h.finish hready _
  | resolve w =>
    dsimp only [Scan.workerStep] at hstep
    split at hstep
    case h_1 r status hw =>
      cases hstep
      have hnone : r = none := by simpa using (h.took w none r status hw).symm
      exact h.setWorker (fun q => by rw [hw]; rfl) (by rw [hw, hnone]; rfl) nofun
    case h_2 p r status hw =>
      obtain ⟨hres, hinv⟩ := h.resolve (conclude s.results status r) hw
      rw [if_neg (by simp [hres])] at hstep
      cases hstep
      exact hinv
    case h_3 => cases hstep
  | release w =>
    dsimp only [Scan.workerStep] at hstep
    split at hstep <;> cases hstep
    exact h.release ‹_›
  | _ => cases hstep

theorem Inv.step {a : Act ι} (h : Inv s) (hok : inTurn s a = true)
    (hstep : Scan.step s a = some s') : Inv s' := by
  unfold Scan.step at hstep
  split at hstep
  all_goals first
    | exact h.clientStep hstep
    | exact h.workerStep hstep
    | exact h.scanStep hok hstep

/-- Every promise that was returned is resolved or about to be, none is resolved twice, and every
result is in one place until it is deleted or awaited once. -/
structure Sound (s : State ι) : Prop where
  answered : ∀ p ∈ s.handed, (s.promises p).resolved = true ∨ s.promise = some p ∨
    ∃ w r status, s.worker w = .took (some p) r status
  once : s.resolves.Nodup
  owned : ∀ r < s.nextResult, (s.gone.count r = 1 ∧ ∀ place, s.slot place ≠ some r) ∨
    (r ∉ s.gone ∧ ∃! place, s.slot place = some r)
  held : ∀ p, (s.promises p).value ≠ none → ((s.promises p).client = true ∧ p ∈ s.handed) ∨
    (∃ i, (s.frame i).stage p ≠ none) ∨ s.promise = some p ∨ ∃ w, (s.worker w).hold p ≠ none

omit [DecidableEq ι] in
theorem took_of_hold {f : Finish} {p : ℕ} (h : f.hold p = some true) :
    ∃ r status, f = .took (some p) r status := by
  cases f with
  | took promise r status =>
    cases promise with
    | none => cases h
    | some q =>
      simp only [Finish.hold] at h
      split_ifs at h with hq
      exact ⟨r, status, by rw [hq]⟩
  | dropping q =>
    simp only [Finish.hold] at h
    split_ifs at h
    cases h
  | _ => cases h

omit [DecidableEq ι] in
theorem Inv.sound (h : Inv s) : Sound s where
  answered p hp := by
    have hhanded : (s.view p).handed = true := by simpa [State.view] using hp
    refine ((h.good p).answered (.inl hhanded)).imp_right ?_
    rintro ⟨k, hk⟩
    cases k with
    | none => exact .inl (by simpa [State.view, State.holding] using hk)
    | some w =>
      obtain ⟨r, status, hw⟩ := took_of_hold (f := s.worker w) hk
      exact .inr ⟨w, r, status, hw⟩
  once := List.nodup_iff_count_le_one.mpr fun p => (h.good p).once
  owned r hr := by
    by_cases hgone : r ∈ s.gone
    · refine .inl ⟨List.count_eq_one_of_mem h.owned.nodup hgone, fun place hplace => ?_⟩
      exact h.owned.not_gone place r hplace hgone
    · obtain hmem | ⟨place, hplace⟩ := h.owned.kept r hr
      · exact absurd hmem hgone
      · refine .inr ⟨hgone, place, hplace, fun other hother => ?_⟩
        exact h.owned.unique other place r hother hplace
  held p hvalue := by
    rcases (h.good p).alive hvalue with hclient | hsession
    · rcases (h.good p).owned hclient with hhanded | hframe
      · exact .inl ⟨hclient, by simpa [State.view] using hhanded⟩
      · exact .inr (.inl hframe)
    · obtain ⟨k, hk⟩ := (h.good p).session.mp hsession
      cases k with
      | none => exact .inr (.inr (.inl (by simpa [State.view, State.holding] using hk)))
      | some w => exact .inr (.inr (.inr ⟨w, hk⟩))

/-- In every run in which the sessions do not run into each other. -/
theorem wifiScan_sound {ls : List (Act ι)} {s : State ι}
    (hwithin : Within step (fun s a => inTurn s a = true) (init ι) ls)
    (hrun : runSteps step (init ι) ls = some s) : Sound s := by
  have hinv : Inv s := invariant_of_within (fun _ _ _ hs hok hstep => hs.step hok hstep)
    inv_init hwithin hrun
  exact hinv.sound

end Runs

local instance twoCallers : NeZero 2 := ⟨Nat.succ_ne_zero 1⟩

/-- A sweep that ends while another caller finds the session busy. -/
def oneSweep : List (Act (Fin 2)) :=
  [.check 0, .build 0, .publish 0 false, .send 0 true, .indication false true, .check 1,
    .finish .kmsg, .resolve .kmsg, .release .kmsg, .await 0, .drop 0]

theorem wifiScan_sound_oneSweep : ∃ s, runSteps step (init (Fin 2)) oneSweep = some s ∧
    s.handed = [0] ∧ s.gone = [0] ∧ (s.results 0).status = .incomplete ∧ Sound s := by
  have hend : (runSteps step (init (Fin 2)) oneSweep).map
      (fun s => (s.handed, s.gone, (s.results 0).status)) = some ([0], [0], .incomplete) := by
    decide +kernel
  obtain ⟨s, hs, heq⟩ := Option.map_eq_some_iff.mp hend
  obtain ⟨hhanded, hrest⟩ := Prod.mk.inj heq
  obtain ⟨hgone, hstatus⟩ := Prod.mk.inj hrest
  exact ⟨s, hs, hhanded, hgone, hstatus, wifiScan_sound (by decide +kernel) hs⟩

/-- Both callers pass the busy check before either has published. -/
def bothPublish : List (Act (Fin 2)) :=
  [.check 0, .check 1, .build 0, .publish 0 false, .send 0 true, .build 1, .publish 1 false]

/-- The first promise was returned, and nobody is left to resolve it. -/
theorem wifiScan_overwritten : ¬ ∀ (ls : List (Act (Fin 2))) (s : State (Fin 2)),
    runSteps step (init (Fin 2)) ls = some s → Sound s := by
  intro hclaim
  have hend : (runSteps step (init (Fin 2)) bothPublish).map (fun s => (s.handed, s.promise,
      (s.promises 0).resolved, (s.worker .kmsg).hold 0, (s.worker .timer).hold 0)) =
      some ([0], some 1, false, none, none) := by decide +kernel
  obtain ⟨s, hs, heq⟩ := Option.map_eq_some_iff.mp hend
  simp only [Prod.mk.injEq] at heq
  obtain ⟨hhanded, hpromise, hres, hkmsg, htimer⟩ := heq
  rcases (hclaim bothPublish s hs).answered 0 (by simp [hhanded]) with h | h | ⟨w, r, status, h⟩
  · simp [hres] at h
  · simp [hpromise] at h
  · have hhold : (s.worker w).hold 0 = some true := by simp [h, Finish.hold]
    cases w
    · simp [hkmsg] at hhold
    · simp [htimer] at hhold

end BekenCam.Scan
