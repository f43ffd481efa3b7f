import BekenCam.PromiseHandles
import BekenCam.Ownership

/-!
# What becomes of a payload

A promise is unresolved, claimed by the one resolve that is going to give the semaphore, open, or in
the hands of the await that took it. The payload of the resolve that won is in the promise, on its
way out of an await, handed over, or deleted with the promise, and it is in one of these places
only.
-/
namespace BekenCam.Promise

variable {τ η : Type}

/-- What an actor does with a promise once it has claimed it or awaits it. -/
inductive Role
  | giving (payload : Option ℕ)
  | taking
  | masked
  | putBack (payload : Option ℕ)

/-- The actor that is to give the semaphore. -/
def Role.busy : Role → Bool
  | .giving _ | .masked | .putBack _ => true
  | .taking => false

def Role.awaits : Role → Bool
  | .taking | .masked | .putBack _ => true
  | .giving _ => false

def Pc.role (p : ℕ) : Pc η → Option Role
  | .giving _ q v => if q = p then some (.giving v) else none
  | .taking _ q => if q = p then some .taking else none
  | .masked _ q => if q = p then some .masked else none
  | .putBack _ q v => if q = p then some (.putBack v) else none
  | _ => none

/-- What concerns one promise. `spent` has the payloads that it handed over or deleted. -/
@[ext] structure View (τ : Type) where
  cell : Cell
  role : τ → Option Role
  wins : List (Option ℕ)
  spent : List ℕ

def winOf (p : ℕ) (win : ℕ × Option ℕ) : Option (Option ℕ) :=
  if win.1 = p then some win.2 else none

def spentBy (p : ℕ) (fate : ℕ × Fate) : Option ℕ :=
  if fate.2 = .handed p ∨ fate.2 = .freed p then some fate.1 else none

def State.view (s : State τ η) (p : ℕ) : View τ where
  cell := s.cell p
  role a := (s.pc a).role p
  wins := s.wins.filterMap (winOf p)
  spent := s.fates.filterMap (spentBy p)

/-- Nobody is to give the semaphore, but for `a`. -/
def Quiet (role : τ → Option Role) (a : Option τ) : Prop :=
  ∀ b r, role b = some r → r.busy = true → some b = a

/-- The winning payload is in the promise or is spent. -/
structure View.Keeps (V : View τ) (v : Option ℕ) : Prop where
  resolved : V.cell.resolved = true
  wins : V.wins = [v]
  total : V.cell.value.toList ++ V.spent = v.toList
  taken : V.cell.taken = true → V.cell.value = none

/-- The life of a promise. -/
inductive View.Phase (V : View τ) : Prop
  | unresolved (hresolved : V.cell.resolved = false) (hvalue : V.cell.value = none)
      (htaken : V.cell.taken = false) (hsem : V.cell.sem = false) (hwins : V.wins = [])
      (hspent : V.spent = []) (hquiet : Quiet V.role none)
  | claimed (a : τ) (v : Option ℕ) (hrole : V.role a = some (.giving v))
      (hresolved : V.cell.resolved = true) (hvalue : V.cell.value = v)
      (htaken : V.cell.taken = false) (hsem : V.cell.sem = false) (hwins : V.wins = [])
      (hspent : V.spent = []) (hquiet : Quiet V.role (some a))
  | opened (v : Option ℕ) (hkeeps : V.Keeps v) (hsem : V.cell.sem = true) (hquiet : Quiet V.role none)
  | inside (a : τ) (v : Option ℕ) (hrole : V.role a = some .masked) (hkeeps : V.Keeps v)
      (hsem : V.cell.sem = false) (hquiet : Quiet V.role (some a))
  | leaving (a : τ) (v w : Option ℕ) (hrole : V.role a = some (.putBack w))
      (hresolved : V.cell.resolved = true) (hvalue : V.cell.value = none)
      (hsem : V.cell.sem = false) (hwins : V.wins = [v])
      (htotal : w.toList ++ V.spent = v.toList) (hquiet : Quiet V.role (some a))

structure View.Good (V : View τ) : Prop where
  phase : V.Phase
  consumer : ∀ a b r r', V.role a = some r → V.role b = some r' → r.awaits = true →
    r'.awaits = true → a = b

section Transitions

variable [DecidableEq τ] {V : View τ} {role : τ → Option Role} {a : τ}

theorem Quiet.update {x y : Option τ} (h : Quiet role x) {r : Option Role}
    (hself : ∀ r', r = some r' → r'.busy = true → some a = y)
    (hothers : ∀ b, b ≠ a → some b = x → some b = y) : Quiet (Function.update role a r) y := by
  intro b r' hb hbusy
  rw [Function.update_apply] at hb
  split_ifs at hb with hba
  · rw [hba]
    exact hself r' hb hbusy
  · exact hothers b hba (h b r' hb hbusy)

theorem Quiet.enter (h : Quiet role none) (r : Option Role) :
    Quiet (Function.update role a r) (some a) :=
  h.update (fun _ _ _ => rfl) (by simp)

theorem Quiet.stay (h : Quiet role (some a)) (r : Option Role) :
    Quiet (Function.update role a r) (some a) :=
  h.update (fun _ _ _ => rfl) (fun _ _ hb => hb)

theorem Quiet.leave (h : Quiet role (some a)) : Quiet (Function.update role a none) none :=
  h.update nofun fun _ hba hb => absurd (Option.some.inj hb) hba

theorem Quiet.await {x : Option τ} (h : Quiet role x) :
    Quiet (Function.update role a (some .taking)) x :=
  h.update (by simp [Role.busy]) fun _ _ hb => hb

omit [DecidableEq τ] in
/-- A busy role is that of the one who is busy. -/
theorem Quiet.eq {x : Option τ} (h : Quiet role x) {r : Role} (ha : role a = some r)
    (hbusy : r.busy = true) : some a = x :=
  h a r ha hbusy

/-- The consumers after the actor `a` took up the role `r`. -/
theorem consumer_update {r : Option Role}
    (h : ∀ b c q q', role b = some q → role c = some q' → q.awaits = true → q'.awaits = true → b = c)
    (hself : ∀ q, r = some q → q.awaits = true →
      ∀ b q', b ≠ a → role b = some q' → q'.awaits = false) :
    ∀ b c q q', Function.update role a r b = some q → Function.update role a r c = some q' →
      q.awaits = true → q'.awaits = true → b = c := by
  intro b c q q' hb hc hq hq'
  rw [Function.update_apply] at hb hc
  split_ifs at hb hc with hba hca hca
  · rw [hba, hca]
  · simp [hself q hb hq c q' hca hc] at hq'
  · simp [hself q' hc hq' b q hba hb] at hq
  · exact h b c q q' hb hc hq hq'

omit [DecidableEq τ] in
/-- The consumer goes on. -/
theorem View.Good.awaits_false (h : V.Good) {q : Role} (ha : V.role a = some q)
    (hq : q.awaits = true) : ∀ b q', b ≠ a → V.role b = some q' → q'.awaits = false := by
  intro b q' hba hb
  by_contra hq'
  exact hba (h.consumer b a q' q hb ha (by simpa using hq') hq)

theorem View.Good.claim (h : V.Good) (hresolved : V.cell.resolved = false)
    (v : Option ℕ) : View.Good { V with
      cell := { V.cell with
        value := v
        resolved := true }
      role := Function.update V.role a (some (.giving v)) } := by
  refine ⟨?_, consumer_update h.consumer ?_⟩
  · cases h.phase with
    | unresolved hres hvalue htaken hsem hwins hspent hquiet =>
      exact .claimed a v (Function.update_self ..) rfl rfl htaken hsem hwins hspent (hquiet.enter _)
    | claimed b w hrole hres | opened w hres | inside b w hrole hres | leaving b w w' hrole hres =>
      first | simp [hres] at hresolved | simp [hres.resolved] at hresolved
  · rintro q ⟨⟩
    nofun

theorem View.Good.give (h : V.Good) {v : Option ℕ} (ha : V.role a = some (.giving v)) :
    V.wins = [] ∧ View.Good { V with
      cell := { V.cell with sem := true }
      role := Function.update V.role a none
      wins := v :: V.wins } := by
  cases h.phase with
  | unresolved hres hvalue htaken hsem hwins hspent hquiet => cases hquiet.eq ha rfl
  | opened w hkeeps hsem hquiet => cases hquiet.eq ha rfl
  | inside b w hrole hkeeps hsem hquiet =>
    obtain rfl := Option.some.inj (hquiet.eq ha rfl)
    cases ha.symm.trans hrole
  | leaving b w w' hrole hres hvalue hsem hwins htotal hquiet =>
    obtain rfl := Option.some.inj (hquiet.eq ha rfl)
    cases ha.symm.trans hrole
  | claimed b w hrole hres hvalue htaken hsem hwins hspent hquiet =>
    obtain rfl := Option.some.inj (hquiet.eq ha rfl)
    cases ha.symm.trans hrole
    refine ⟨hwins, .opened v ⟨hres, by rw [hwins], ?_, by simp [htaken]⟩ rfl hquiet.leave,
      consumer_update h.consumer nofun⟩
    simp [hspent, hvalue]

theorem View.Good.take (h : V.Good) (ha : V.role a = some .taking) (hsem : V.cell.sem = true) :
    View.Good { V with
      cell := { V.cell with sem := false }
      role := Function.update V.role a (some .masked) } := by
  refine ⟨?_, consumer_update h.consumer fun q _ _ => h.awaits_false ha rfl⟩
  cases h.phase with
  | opened w hkeeps hopen hquiet =>
    exact .inside a w (Function.update_self ..) ⟨hkeeps.resolved, hkeeps.wins, hkeeps.total,
      hkeeps.taken⟩ rfl (hquiet.enter _)
  | unresolved hres hvalue htaken hclosed => simp [hclosed] at hsem
  | claimed b w hrole hres hvalue htaken hclosed => simp [hclosed] at hsem
  | inside b w hrole hkeeps hclosed => simp [hclosed] at hsem
  | leaving b w w' hrole hres hvalue hclosed => simp [hclosed] at hsem

/-- The masked section of an await. -/
theorem View.Good.hold (h : V.Good) (ha : V.role a = some .masked) :
    View.Good { V with
      cell := { V.cell with
        taken := true
        value := none }
      role := Function.update V.role a
        (some (.putBack (if V.cell.taken then none else V.cell.value))) } := by
  refine ⟨?_, consumer_update h.consumer fun q _ _ => h.awaits_false ha rfl⟩
  cases h.phase with
  | inside b w hrole hkeeps hsem hquiet =>
    obtain rfl := Option.some.inj (hquiet.eq ha rfl)
    refine .leaving a w _ (Function.update_self ..) hkeeps.resolved rfl hsem hkeeps.wins ?_
      (hquiet.stay _)
    have htotal := hkeeps.total
    split_ifs with htaken
    · rw [hkeeps.taken htaken] at htotal
      exact htotal
    · exact htotal
  | unresolved hres hvalue htaken hsem hwins hspent hquiet => cases hquiet.eq ha rfl
  | opened w hkeeps hsem hquiet => cases hquiet.eq ha rfl
  | claimed b w hrole hres hvalue htaken hsem hwins hspent hquiet =>
    obtain rfl := Option.some.inj (hquiet.eq ha rfl)
    cases ha.symm.trans hrole
  | leaving b w w' hrole hres hvalue hsem hwins htotal hquiet =>
    obtain rfl := Option.some.inj (hquiet.eq ha rfl)
    cases ha.symm.trans hrole

theorem View.Good.putBack (h : V.Good) {w : Option ℕ} (ha : V.role a = some (.putBack w)) :
    V.cell.value = none ∧ View.Good { V with
      cell := { V.cell with sem := true }
      role := Function.update V.role a none
      spent := w.toList ++ V.spent } := by
  cases h.phase with
  | leaving b v w' hrole hres hvalue hsem hwins htotal hquiet =>
    obtain rfl := Option.some.inj (hquiet.eq ha rfl)
    cases ha.symm.trans hrole
    refine ⟨hvalue, .opened v ⟨hres, hwins, ?_, fun _ => hvalue⟩ rfl hquiet.leave,
      consumer_update h.consumer nofun⟩
    rw [hvalue]
    exact htotal
  | unresolved hres hvalue htaken hsem hwins hspent hquiet => cases hquiet.eq ha rfl
  | opened w hkeeps hsem hquiet => cases hquiet.eq ha rfl
  | claimed b w hrole hres hvalue htaken hsem hwins hspent hquiet =>
    obtain rfl := Option.some.inj (hquiet.eq ha rfl)
    cases ha.symm.trans hrole
  | inside b w hrole hkeeps hsem hquiet =>
    obtain rfl := Option.some.inj (hquiet.eq ha rfl)
    cases ha.symm.trans hrole

omit [DecidableEq τ] in
theorem View.Good.value_of_taken (h : V.Good) (htaken : V.cell.taken = true) :
    V.cell.value = none := by
  cases h.phase with
  | unresolved hres hvalue hclear | claimed b v hrole hres hvalue hclear => simp [hclear] at htaken
  | opened v hkeeps | inside b v hrole hkeeps => exact hkeeps.taken htaken
  | leaving b v w hrole hres hvalue => exact hvalue

/-- A consumer comes to await. -/
theorem View.Good.await (h : V.Good) (ha : V.role a = none)
    (hnone : ∀ b q, V.role b = some q → q.awaits = false) :
    View.Good { V with role := Function.update V.role a (some .taking) } := by
  refine ⟨?_, consumer_update h.consumer fun _ _ _ b q _ hb => hnone b q hb⟩
  have hkeep : ∀ {b q}, V.role b = some q →
      Function.update V.role a (some .taking) b = some q := by
    intro b q hb
    rw [Function.update_of_ne, hb]
    rintro rfl
    simp [ha] at hb
  cases h.phase with
  | unresolved hres hvalue htaken hsem hwins hspent hquiet =>
    exact .unresolved hres hvalue htaken hsem hwins hspent hquiet.await
  | claimed b v hrole hres hvalue htaken hsem hwins hspent hquiet =>
    exact .claimed b v (hkeep hrole) hres hvalue htaken hsem hwins hspent hquiet.await
  | opened v hkeeps hsem hquiet =>
    exact .opened v ⟨hkeeps.resolved, hkeeps.wins, hkeeps.total, hkeeps.taken⟩ hsem hquiet.await
  | inside b v hrole hkeeps hsem hquiet =>
    exact .inside b v (hkeep hrole)
      ⟨hkeeps.resolved, hkeeps.wins, hkeeps.total, hkeeps.taken⟩ hsem hquiet.await
  | leaving b v w hrole hres hvalue hsem hwins htotal hquiet =>
    exact .leaving b v w (hkeep hrole) hres hvalue hsem hwins htotal hquiet.await

omit [DecidableEq τ] in
/-- The destructor of a promise that nobody uses. -/
theorem View.Good.delete (h : V.Good) (hnone : ∀ b, V.role b = none) :
    View.Good { V with
      cell := { V.cell with value := none }
      spent := V.cell.value.toList ++ V.spent } := by
  refine ⟨?_, h.consumer⟩
  cases h.phase with
  | unresolved hres hvalue htaken hsem hwins hspent hquiet =>
    exact .unresolved hres rfl htaken hsem hwins (by simp [hvalue, hspent]) hquiet
  | opened v hkeeps hsem hquiet =>
    exact .opened v ⟨hkeeps.resolved, hkeeps.wins, hkeeps.total, fun _ => rfl⟩ hsem hquiet
  | claimed b v hrole | inside b v hrole | leaving b v w hrole => simp [hnone b] at hrole

end Transitions

/-! ## The payloads of all promises -/

/-- The payload that an actor has: of its resolve until it claims, of its await on the way out. -/
def Pc.payload : Pc η → Option ℕ
  | .resolving _ _ v | .putBack _ _ v => v
  | _ => none

/-- Where payloads are: with an actor, or in a promise. -/
def State.slot (s : State τ η) : τ ⊕ ℕ → Option ℕ
  | .inl a => (s.pc a).payload
  | .inr p => (s.cell p).value

structure Safe (s : State τ η) : Prop where
  handles : Inv s
  good : ∀ p, (s.view p).Good
  owned : OwnedOnce s.slot (s.fates.map Prod.fst) s.nextPayload
  freed : ∀ v p, (v, .freed p) ∈ s.fates → p ∈ s.deleted
  gone : ∀ p ∈ s.deleted, (s.cell p).value = none
  fresh : ∀ p, s.nextPromise ≤ p → s.cell p = .fresh false

theorem safe_init : Safe (init τ η) where
  handles := inv_init
  good p := ⟨.unresolved rfl rfl rfl rfl rfl rfl nofun, nofun⟩
  owned := by
    have hslot : (init τ η).slot = fun _ => none := by
      funext place
      cases place <;> rfl
    rw [hslot]
    exact OwnedOnce.empty
  freed := nofun
  gone := nofun
  fresh _ _ := rfl

section Update

variable [DecidableEq τ] {s t : State τ η} {a : τ} {p q : ℕ}

theorem view_setPc (s : State τ η) (a : τ) (pc : Pc η) (q : ℕ) :
    (s.setPc a pc).view q =
      { s.view q with role := Function.update (s.view q).role a (pc.role q) } := by
  refine View.ext rfl ?_ rfl rfl
  funext b
  simp only [State.view, State.setPc, Function.update_apply]
  split_ifs <;> rfl

/-- Nothing changes for a promise that the actor had and has nothing to do with. -/
theorem view_setPc_same {pc : Pc η} (h : pc.role q = (s.pc a).role q) :
    (s.setPc a pc).view q = s.view q := by
  rw [view_setPc, h]
  exact View.ext rfl (Function.update_eq_self a (s.view q).role) rfl rfl

theorem slot_setPc (s : State τ η) (a : τ) (pc : Pc η) :
    (s.setPc a pc).slot = Function.update s.slot (.inl a) pc.payload := by
  funext place
  rw [Function.update_apply]
  cases place with
  | inl b =>
    simp only [State.slot, State.setPc, Function.update_apply, Sum.inl.injEq]
    split_ifs <;> rfl
  | inr q => simp [State.slot, State.setPc]

omit [DecidableEq τ] in
theorem view_setCell (s : State τ η) (p : ℕ) (cell : Cell) (q : ℕ) :
    (s.setCell p cell).view q = if q = p then { s.view q with cell := cell } else s.view q := by
  split_ifs with hq
  · subst hq
    exact View.ext (Function.update_self ..) rfl rfl rfl
  · exact View.ext (Function.update_of_ne hq ..) rfl rfl rfl

theorem slot_setCell (s : State τ η) (p : ℕ) (cell : Cell) :
    (s.setCell p cell).slot = Function.update s.slot (.inr p) cell.value := by
  funext place
  rw [Function.update_apply]
  cases place with
  | inl b => simp [State.slot, State.setCell]
  | inr q =>
    simp only [State.slot, State.setCell, Function.update_apply, Sum.inr.injEq]
    split_ifs <;> rfl

theorem slot_setCell_same {cell : Cell} (h : cell.value = (s.cell p).value) :
    (s.setCell p cell).slot = s.slot := by
  rw [slot_setCell, h]
  exact Function.update_eq_self (.inr p) s.slot

omit [DecidableEq τ] in
theorem view_settle (s : State τ η) (v : Option ℕ) (fate : Fate) (q : ℕ) :
    (s.settle v fate).view q = if fate = .handed q ∨ fate = .freed q then
      { s.view q with spent := v.toList ++ (s.view q).spent } else s.view q := by
  split_ifs with hq
  · refine View.ext rfl rfl rfl ?_
    cases v <;> simp [State.view, State.settle, spentBy, hq]
  · refine View.ext rfl rfl rfl ?_
    cases v <;> simp [State.view, State.settle, spentBy, hq]

omit [DecidableEq τ] in
theorem fates_settle (s : State τ η) (v : Option ℕ) (fate : Fate) :
    (s.settle v fate).fates.map Prod.fst = v.toList ++ s.fates.map Prod.fst := by
  cases v <;> simp [State.settle]

omit [DecidableEq τ] in
theorem view_win (s : State τ η) (p : ℕ) (v : Option ℕ) (q : ℕ) :
    ({ s with wins := (p, v) :: s.wins } : State τ η).view q =
      if q = p then { s.view q with wins := v :: (s.view q).wins } else s.view q := by
  split_ifs with hq
  · refine View.ext rfl rfl ?_ rfl
    simp [State.view, winOf, hq]
  · refine View.ext rfl rfl ?_ rfl
    simp [State.view, winOf, Ne.symm hq]

omit [DecidableEq τ] in
/-- Only one promise is affected. -/
theorem Safe.good_of_view (h : Safe s) (hothers : ∀ q, q ≠ p → t.view q = s.view q)
    (hgood : (t.view p).Good) (q : ℕ) : (t.view q).Good := by
  by_cases hqp : q = p
  · exact hqp ▸ hgood
  · rw [hothers q hqp]
    exact h.good q

omit [DecidableEq τ] in
/-- A step of the handles. -/
theorem Safe.of_same (h : Safe s) (hinv : Inv t) (hcell : t.cell = s.cell)
    (hrole : ∀ b p, (t.pc b).role p = (s.pc b).role p)
    (hpayload : ∀ b, (t.pc b).payload = (s.pc b).payload) (hwins : t.wins = s.wins)
    (hfates : t.fates = s.fates) (hdeleted : t.deleted = s.deleted)
    (hnext : t.nextPromise = s.nextPromise) (hnextPayload : t.nextPayload = s.nextPayload) :
    Safe t where
  handles := hinv
  good p := by
    have hview : t.view p = s.view p := by
      refine View.ext (congrFun hcell p) (funext fun b => hrole b p) ?_ ?_
      · simp [State.view, hwins]
      · simp [State.view, hfates]
    rw [hview]
    exact h.good p
  owned := by
    have hslot : t.slot = s.slot := by
      funext place
      cases place with
      | inl b => exact hpayload b
      | inr p => simp [State.slot, hcell]
    rw [hslot, hfates, hnextPayload]
    exact h.owned
  freed := by
    rw [hfates, hdeleted]
    exact h.freed
  gone := by
    rw [hdeleted, hcell]
    exact h.gone
  fresh := by
    rw [hnext, hcell]
    exact h.fresh

omit [DecidableEq τ] in
theorem Inv.live (h : Inv s) {g : η} (hg : s.handle g = .counted p) :
    p ∉ s.deleted ∧ p < s.nextPromise := by
  have hholder : s.holder (.inl g) = some p := by simp [State.holder, hg, Handle.counts]
  exact ⟨h.counted.notMem_deleted hholder, h.counted.lt_next hholder⟩

omit [DecidableEq τ] in
/-- A step of an actor that uses the promise `p`. -/
theorem Safe.of_promise (h : Safe s) (hinv : Inv t) {g : η} (hg : s.handle g = .counted p)
    (hothers : ∀ q, q ≠ p → t.view q = s.view q) (hgood : (t.view p).Good)
    (howned : OwnedOnce t.slot (t.fates.map Prod.fst) t.nextPayload)
    (hfreed : ∀ v q, (v, Fate.freed q) ∈ t.fates → (v, Fate.freed q) ∈ s.fates)
    (hdeleted : t.deleted = s.deleted) (hnext : t.nextPromise = s.nextPromise) : Safe t where
  handles := hinv
  good := h.good_of_view hothers hgood
  owned := howned
  freed v q hq := by
    rw [hdeleted]
    exact h.freed v q (hfreed v q hq)
  gone q hq := by
    rw [hdeleted] at hq
    have hne : q ≠ p := by
      rintro rfl
      exact (h.handles.live hg).1 hq
    have hcell : t.cell q = s.cell q := congrArg View.cell (hothers q hne)
    rw [hcell]
    exact h.gone q hq
  fresh q hq := by
    rw [hnext] at hq
    have hne : q ≠ p := by
      rintro rfl
      have hlt := (h.handles.live hg).2
      omega
    have hcell : t.cell q = s.cell q := congrArg View.cell (hothers q hne)
    rw [hcell]
    exact h.fresh q hq

omit [DecidableEq τ] in
theorem mem_settle {v : Option ℕ} {w : ℕ} (fate : Fate) (hne : fate ≠ .freed q)
    (h : (w, Fate.freed q) ∈ (s.settle v fate).fates) : (w, Fate.freed q) ∈ s.fates := by
  rcases List.mem_append.mp h with hmem | hmem
  · obtain ⟨u, -, hu⟩ := List.mem_map.mp hmem
    exact absurd (Prod.mk.inj hu).2 hne
  · exact hmem

/-! ## The steps -/

theorem Safe.lose (h : Safe s) {g : η} {v : Option ℕ} (hpc : s.pc a = .resolving g p v)
    (hinv : Inv ((s.settle v .lost).setPc a .idle)) : Safe ((s.settle v .lost).setPc a .idle) := by
  have hhandle : s.handle g = .counted p := h.handles.knownAt hpc
  have hview : ∀ q, ((s.settle v .lost).setPc a .idle).view q = s.view q := by
    intro q
    have hrole : (Pc.idle : Pc η).role q = (s.pc a).role q := by
      rw [hpc]
      rfl
    rw [view_setPc_same (s := s.settle v .lost) hrole, view_settle, if_neg (by simp)]
  refine h.of_promise hinv hhandle (fun q _ => hview q) ?_ ?_ (fun w q => mem_settle .lost nofun) rfl rfl
  · rw [hview]
    exact h.good p
  · have hslot : (s.settle v .lost).slot = s.slot := by
      funext place
      cases place <;> rfl
    have hpayload : s.slot (.inl a) = v := by simp [State.slot, hpc, Pc.payload]
    rw [slot_setPc, hslot]
    change OwnedOnce _ ((s.settle v .lost).fates.map Prod.fst) s.nextPayload
    rw [fates_settle, ← hpayload]
    exact h.owned.discard (.inl a)

theorem Safe.claim (h : Safe s) {g : η} {v : Option ℕ} (hpc : s.pc a = .resolving g p v)
    (hresolved : (s.cell p).resolved = false)
    (hinv : Inv ((s.setCell p { s.cell p with
      value := v
      resolved := true }).setPc a (.giving g p v))) :
    Safe ((s.setCell p { s.cell p with
      value := v
      resolved := true }).setPc a (.giving g p v)) := by
  have hhandle : s.handle g = .counted p := h.handles.knownAt hpc
  refine h.of_promise hinv hhandle ?_ ?_ ?_ (fun w q hq => hq) rfl rfl
  · intro q hq
    have hrole : (Pc.giving g p v).role q = (s.pc a).role q := by
      simp [hpc, Pc.role, Ne.symm hq]
    rw [view_setPc_same (s := s.setCell p _) hrole, view_setCell, if_neg hq]
  · rw [view_setPc, view_setCell, if_pos rfl, Pc.role, if_pos rfl]
    exact (h.good p).claim hresolved v
  · have hpayload : s.slot (.inl a) = v := by simp [State.slot, hpc, Pc.payload]
    have hempty : s.slot (.inr p) = none := by
      cases (h.good p).phase with
      | unresolved hres hvalue => exact hvalue
      | claimed b w hrole hres | leaving b w w' hrole hres =>
        exact absurd (hres.symm.trans hresolved) (by simp)
      | opened w hkeeps | inside b w hrole hkeeps =>
        exact absurd (hkeeps.resolved.symm.trans hresolved) (by simp)
    have hmove := h.owned.move (p := .inl a) (q := .inr p) hempty (by simp)
    rw [slot_setPc, slot_setCell]
    rw [hpayload, Function.update_comm (by simp)] at hmove
    exact hmove

theorem Safe.give (h : Safe s) {g : η} {v : Option ℕ} (hpc : s.pc a = .giving g p v)
    (hinv : Inv ({ s.setCell p { s.cell p with sem := true } with
      wins := (p, v) :: s.wins }.setPc a .idle)) :
    Safe ({ s.setCell p { s.cell p with sem := true } with
      wins := (p, v) :: s.wins }.setPc a .idle) := by
  have hhandle : s.handle g = .counted p := h.handles.knownAt hpc
  refine h.of_promise hinv hhandle ?_ ?_ ?_ (fun w q hq => hq) rfl rfl
  · intro q hq
    have hrole : (Pc.idle : Pc η).role q = (s.pc a).role q := by
      simp [hpc, Pc.role, Ne.symm hq]
    rw [view_setPc_same (s := { s.setCell p { s.cell p with sem := true } with
      wins := (p, v) :: s.wins }) hrole]
    have hwin := view_win (s.setCell p { s.cell p with sem := true }) p v q
    rw [if_neg hq, view_setCell, if_neg hq] at hwin
    exact hwin
  · have hrole : (s.view p).role a = some (.giving v) := by simp [State.view, hpc, Pc.role]
    rw [view_setPc]
    have hwin := view_win (s.setCell p { s.cell p with sem := true }) p v p
    rw [if_pos rfl, view_setCell, if_pos rfl] at hwin
    have hgood := ((h.good p).give hrole).2
    change View.Good { State.view { s.setCell p { s.cell p with sem := true } with
      wins := (p, v) :: (s.setCell p { s.cell p with sem := true }).wins } p with role := _ }
    rw [hwin]
    exact hgood
  · have hslot : ({ s.setCell p { s.cell p with sem := true } with
        wins := (p, v) :: s.wins } : State τ η).slot = s.slot := by
      have hcell : (s.setCell p { s.cell p with sem := true }).slot = s.slot :=
        slot_setCell_same rfl
      exact hcell
    have hpayload : s.slot (.inl a) = none := by simp [State.slot, hpc, Pc.payload]
    rw [slot_setPc, hslot, Pc.payload, Function.update_eq_self_iff.mpr hpayload.symm]
    · exact h.owned
    all_goals nofun

theorem Safe.take (h : Safe s) {g : η} (hpc : s.pc a = .taking g p) (hsem : (s.cell p).sem = true)
    (hinv : Inv ((s.setCell p { s.cell p with sem := false }).setPc a (.masked g p))) :
    Safe ((s.setCell p { s.cell p with sem := false }).setPc a (.masked g p)) := by
  have hhandle : s.handle g = .counted p := h.handles.knownAt hpc
  refine h.of_promise hinv hhandle ?_ ?_ ?_ (fun w q hq => hq) rfl rfl
  · intro q hq
    have hrole : (Pc.masked g p).role q = (s.pc a).role q := by
      simp [hpc, Pc.role, Ne.symm hq]
    rw [view_setPc_same (s := s.setCell p _) hrole, view_setCell, if_neg hq]
  · have hrole : (s.view p).role a = some .taking := by simp [State.view, hpc, Pc.role]
    rw [view_setPc, view_setCell, if_pos rfl, Pc.role, if_pos rfl]
    exact (h.good p).take hrole hsem
  · have hpayload : s.slot (.inl a) = none := by simp [State.slot, hpc, Pc.payload]
    have hcell : (s.setCell p { s.cell p with sem := false }).slot = s.slot := slot_setCell_same rfl
    rw [slot_setPc, hcell, Pc.payload, Function.update_eq_self_iff.mpr hpayload.symm]
    · exact h.owned
    all_goals nofun

theorem Safe.hold (h : Safe s) {g : η} (hpc : s.pc a = .masked g p)
    (hinv : Inv ((s.setCell p { s.cell p with
      taken := true
      value := none }).setPc a
        (.putBack g p (if (s.cell p).taken then none else (s.cell p).value)))) :
    Safe ((s.setCell p { s.cell p with
      taken := true
      value := none }).setPc a
        (.putBack g p (if (s.cell p).taken then none else (s.cell p).value))) := by
  have hhandle : s.handle g = .counted p := h.handles.knownAt hpc
  have hrole : (s.view p).role a = some .masked := by simp [State.view, hpc, Pc.role]
  refine h.of_promise hinv hhandle ?_ ?_ ?_ (fun w q hq => hq) rfl rfl
  · intro q hq
    have hrole : ∀ v, (Pc.putBack g p v).role q = (s.pc a).role q := by
      intro v
      simp [hpc, Pc.role, Ne.symm hq]
    rw [view_setPc_same (s := s.setCell p _) (hrole _), view_setCell, if_neg hq]
  · rw [view_setPc, view_setCell, if_pos rfl, Pc.role, if_pos rfl]
    exact (h.good p).hold hrole
  · have hpayload : s.slot (.inl a) = none := by simp [State.slot, hpc, Pc.payload]
    have hvalue : (if (s.cell p).taken then none else (s.cell p).value) = s.slot (.inr p) := by
      split_ifs with htaken
      · exact ((h.good p).value_of_taken htaken).symm
      · rfl
    have hmove := h.owned.move (p := .inr p) (q := .inl a) hpayload (by simp)
    rw [slot_setPc, slot_setCell, Pc.payload, hvalue]
    exact hmove

theorem Safe.putBack (h : Safe s) {g : η} {v : Option ℕ} (hpc : s.pc a = .putBack g p v)
    (hinv : Inv (((s.setCell p { s.cell p with sem := true }).settle v (.handed p)).setPc a .idle)) :
    Safe (((s.setCell p { s.cell p with sem := true }).settle v (.handed p)).setPc a .idle) := by
  have hhandle : s.handle g = .counted p := h.handles.knownAt hpc
  refine h.of_promise hinv hhandle ?_ ?_ ?_ ?_ rfl rfl
  · intro q hq
    have hrole : (Pc.idle : Pc η).role q = (s.pc a).role q := by
      simp [hpc, Pc.role, Ne.symm hq]
    rw [view_setPc_same (s := (s.setCell p _).settle v _) hrole, view_settle,
      if_neg (by simp [Ne.symm hq]), view_setCell, if_neg hq]
  · have hrole : (s.view p).role a = some (.putBack v) := by simp [State.view, hpc, Pc.role]
    rw [view_setPc, view_settle, if_pos (.inl rfl), view_setCell, if_pos rfl]
    exact ((h.good p).putBack hrole).2
  · have hcell : (s.setCell p { s.cell p with sem := true }).slot = s.slot := slot_setCell_same rfl
    have hslot : ((s.setCell p { s.cell p with sem := true }).settle v (.handed p)).slot =
        s.slot := by
      rw [← hcell]
      funext place
      cases place <;> rfl
    have hpayload : s.slot (.inl a) = v := by simp [State.slot, hpc, Pc.payload]
    rw [slot_setPc, hslot]
    change OwnedOnce _ ((State.settle _ v (.handed p)).fates.map Prod.fst) s.nextPayload
    rw [fates_settle, ← hpayload]
    exact h.owned.discard (.inl a)
  · exact fun w q hq => mem_settle (s := s.setCell p _) (.handed p) nofun hq

/-- A step of one actor on handles. -/
theorem Safe.of_frame (h : Safe s) (hinv : Inv t) {pc : Pc η} (hpc : t.pc = Function.update s.pc a pc)
    (hrole : ∀ q, pc.role q = (s.pc a).role q) (hpayload : pc.payload = (s.pc a).payload)
    (hcell : t.cell = s.cell) (hwins : t.wins = s.wins) (hfates : t.fates = s.fates)
    (hdeleted : t.deleted = s.deleted) (hnext : t.nextPromise = s.nextPromise)
    (hnextPayload : t.nextPayload = s.nextPayload) : Safe t := by
  refine h.of_same hinv hcell ?_ ?_ hwins hfates hdeleted hnext hnextPayload
  · intro b q
    rw [hpc, Function.update_apply]
    split_ifs with hb
    · rw [hb, hrole]
    · rfl
  · intro b
    rw [hpc, Function.update_apply]
    split_ifs with hb
    · rw [hb, hpayload]
    · rfl

section Handles

variable [DecidableEq η] {k : After η}

theorem Safe.unref (h : Safe s) (hpc : s.pc a = .dropping k) (hinv : Inv (s.unref a k)) :
    Safe (s.unref a k) := by
  have hframe : (s.unref a k).cell = s.cell ∧ (s.unref a k).wins = s.wins ∧
      (s.unref a k).fates = s.fates ∧ (s.unref a k).deleted = s.deleted ∧
      (s.unref a k).nextPromise = s.nextPromise ∧ (s.unref a k).nextPayload = s.nextPayload ∧
      ∃ pc : Pc η, (s.unref a k).pc = Function.update s.pc a pc ∧ (∀ q, pc.role q = none) ∧
        pc.payload = none := by
    unfold State.unref
    split
    · cases k <;> exact ⟨rfl, rfl, rfl, rfl, rfl, rfl, .idle, rfl, fun _ => rfl, rfl⟩
    · split_ifs
      · exact ⟨rfl, rfl, rfl, rfl, rfl, rfl, .deleting k _, rfl, fun _ => rfl, rfl⟩
      · cases k <;> exact ⟨rfl, rfl, rfl, rfl, rfl, rfl, .idle, rfl, fun _ => rfl, rfl⟩
  obtain ⟨hcell, hwins, hfates, hdeleted, hnext, hnextPayload, pc, hpc', hrole, hpayload⟩ := hframe
  refine h.of_frame hinv hpc' ?_ ?_ hcell hwins hfates hdeleted hnext hnextPayload
  · intro q
    rw [hrole, hpc]
    rfl
  · rw [hpayload, hpc]
    rfl

omit [DecidableEq τ] [DecidableEq η] in
/-- An actor that uses a promise has a handle to it. -/
theorem Inv.counted_of_role (h : Inv s) {b : τ} {r : Role} (hrole : (s.pc b).role p = some r) :
    ∃ g, s.handle g = .counted p := by
  have hknown := h.known b
  cases hpc : s.pc b with
  | giving g q v | taking g q | masked g q | putBack g q v =>
    rw [hpc] at hknown hrole
    dsimp only [Pc.role] at hrole
    split_ifs at hrole with hq
    exact ⟨g, hq ▸ hknown⟩
  | idle | copying | assigning | dropping | deleting | resolving =>
    rw [hpc] at hrole
    simp [Pc.role] at hrole

theorem Safe.delete (h : Safe s) (hpc : s.pc a = .deleting k p)
    (hinv : Inv ((s.delete p).finish a k)) : Safe ((s.delete p).finish a k) := by
  have hcell : ((s.delete p).finish a k).cell =
      Function.update s.cell p { s.cell p with value := none } := by cases k <;> rfl
  have hwins : ((s.delete p).finish a k).wins = s.wins := by cases k <;> rfl
  have hfates : ((s.delete p).finish a k).fates = (s.settle (s.cell p).value (.freed p)).fates := by
    cases k <;> rfl
  have hdeleted : ((s.delete p).finish a k).deleted = p :: s.deleted := by cases k <;> rfl
  have hnext : ((s.delete p).finish a k).nextPromise = s.nextPromise := by cases k <;> rfl
  have hnextPayload : ((s.delete p).finish a k).nextPayload = s.nextPayload := by cases k <;> rfl
  have howed := h.handles.counted.owed a p (congrArg Pc.owes hpc)
  have hlt := h.handles.counted.owes_lt a p (congrArg Pc.owes hpc)
  have hrole : ∀ b q, (((s.delete p).finish a k).pc b).role q = (s.pc b).role q := by
    intro b q
    rw [pc_finish, Function.update_apply]
    split_ifs with hb
    · rw [hb, hpc]
      rfl
    · rfl
  have hview : ∀ q, ((s.delete p).finish a k).view q =
      ((s.settle (s.cell p).value (.freed p)).setCell p { s.cell p with value := none }).view q := by
    intro q
    refine View.ext (congrFun hcell q) (funext fun b => hrole b q) ?_ ?_
    · simp only [State.view, hwins]
      rfl
    · simp only [State.view, hfates]
      rfl
  refine ⟨hinv, h.good_of_view (p := p) ?_ ?_, ?_, ?_, ?_, ?_⟩
  · intro q hq
    rw [hview, view_setCell, if_neg hq, view_settle, if_neg (by simp [Ne.symm hq])]
  · rw [hview, view_setCell, if_pos rfl, view_settle, if_pos (.inr rfl)]
    refine (h.good p).delete fun b => ?_
    by_contra hsome
    obtain ⟨r, hr⟩ := Option.ne_none_iff_exists'.mp hsome
    obtain ⟨g, hg⟩ := h.handles.counted_of_role hr
    have hpos := h.handles.counted.pos (t := .inl g) (p := p)
      (by simp [State.holder, hg, Handle.counts])
    omega
  · have hslot : ((s.delete p).finish a k).slot = Function.update s.slot (.inr p) none := by
      funext place
      rw [Function.update_apply]
      cases place with
      | inl b =>
        simp only [State.slot, pc_finish, Function.update_apply, reduceCtorEq, if_false]
        split_ifs with hb
        · rw [hb, hpc]
          rfl
        · rfl
      | inr q =>
        simp only [State.slot, hcell, Function.update_apply, Sum.inr.injEq]
        split_ifs <;> rfl
    rw [hslot, hfates, fates_settle, hnextPayload]
    exact h.owned.discard (.inr p)
  · intro v q hq
    rw [hfates] at hq
    rw [hdeleted]
    by_cases hqp : q = p
    · rw [hqp]
      exact List.mem_cons_self
    · have hmem := mem_settle (.freed p) (by simpa using Ne.symm hqp) hq
      exact List.mem_cons_of_mem _ (h.freed v q hmem)
  · intro q hq
    rw [hdeleted] at hq
    rw [hcell, Function.update_apply]
    split_ifs with hqp
    · rfl
    · exact h.gone q ((List.mem_cons.mp hq).resolve_left hqp)
  · intro q hq
    rw [hnext] at hq
    rw [hcell, Function.update_of_ne (by omega)]
    exact h.fresh q hq

theorem Safe.nextStep (h : Safe s) (hstep : nextStep s a = some t) : Safe t := by
  have hinv := h.handles.nextStep hstep
  unfold Promise.nextStep at hstep
  cases hpc : s.pc a with
  | idle => simp [hpc] at hstep
  | copying dst src p | assigning dst src p =>
    obtain rfl : _ = t := by simpa [hpc] using hstep
    exact h.of_frame hinv rfl (fun q => by rw [hpc]; rfl) (by rw [hpc]; rfl) rfl rfl rfl rfl rfl rfl
  | dropping k =>
    obtain rfl : _ = t := by simpa [hpc] using hstep
    exact h.unref hpc hinv
  | deleting k p =>
    obtain rfl : _ = t := by simpa [hpc] using hstep
    exact h.delete hpc hinv
  | resolving g p v =>
    simp only [hpc] at hstep
    split_ifs at hstep with hresolved <;> obtain rfl := Option.some.inj hstep
    · exact h.lose hpc hinv
    · exact h.claim hpc (by simpa using hresolved) hinv
  | giving g p v =>
    obtain rfl : _ = t := by simpa [hpc] using hstep
    exact h.give hpc hinv
  | taking g p =>
    simp only [hpc] at hstep
    split_ifs at hstep with hsem
    obtain rfl := Option.some.inj hstep
    exact h.take hpc hsem hinv
  | masked g p =>
    simp only [hpc] at hstep
    obtain rfl := Option.some.inj hstep
    exact h.hold hpc hinv
  | putBack g p v =>
    obtain rfl : _ = t := by simpa [hpc] using hstep
    exact h.putBack hpc hinv

variable {act : Act τ η}

omit [DecidableEq τ] in
theorem Safe.make (h : Safe s) {g : η} (ok : Bool)
    (hinv : Inv { (s.setRefs s.nextPromise 1).setHandle g (.counted s.nextPromise) with
      cell := Function.update s.cell s.nextPromise (.fresh ok)
      nextPromise := s.nextPromise + 1 }) :
    Safe { (s.setRefs s.nextPromise 1).setHandle g (.counted s.nextPromise) with
      cell := Function.update s.cell s.nextPromise (.fresh ok)
      nextPromise := s.nextPromise + 1 } := by
  have hfresh := h.fresh s.nextPromise (Nat.le_refl _)
  refine ⟨hinv, h.good_of_view (p := s.nextPromise) ?_ ?_, ?_, h.freed, ?_, ?_⟩
  · intro q hq
    exact View.ext (Function.update_of_ne hq ..) rfl rfl rfl
  · refine ⟨?_, (h.good s.nextPromise).consumer⟩
    have hcell : (s.view s.nextPromise).cell = .fresh false := hfresh
    cases (h.good s.nextPromise).phase with
    | unresolved hres hvalue htaken hsem hwins hspent hquiet =>
      refine .unresolved ?_ ?_ ?_ ?_ hwins hspent hquiet <;> simp [State.view, Cell.fresh]
    | claimed b v hrole hres | leaving b v w hrole hres => simp [hcell, Cell.fresh] at hres
    | opened v hkeeps | inside b v hrole hkeeps =>
      have hres := hkeeps.resolved
      simp [hcell, Cell.fresh] at hres
  · have hslot : ∀ place, State.slot { (s.setRefs s.nextPromise 1).setHandle g
        (.counted s.nextPromise) with
        cell := Function.update s.cell s.nextPromise (.fresh ok)
        nextPromise := s.nextPromise + 1 } place = s.slot place := by
      intro place
      cases place with
      | inl b => rfl
      | inr q =>
        simp only [State.slot, Function.update_apply]
        split_ifs with hq
        · rw [hq, hfresh]
          rfl
        · rfl
    rw [funext hslot]
    exact h.owned
  · intro q hq
    have hlt := h.handles.counted.deleted_lt q hq
    have hcell : Function.update s.cell s.nextPromise (.fresh ok) q = s.cell q :=
      Function.update_of_ne (by omega) ..
    exact (congrArg Cell.value hcell).trans (h.gone q hq)
  · intro q hq
    have hlt : s.nextPromise < q := hq
    exact (Function.update_of_ne (by omega) ..).trans (h.fresh q (by omega))

omit [DecidableEq η] in
/-- A resolve begins: its payload is new, and comes back at once from a promise that failed to
build. -/
theorem Safe.resolve (h : Safe s) {g : η} {hasPayload : Bool} (hidle : s.pc a = .idle)
    (hinv : Inv (s.resolve a g p hasPayload)) : Safe (s.resolve a g p hasPayload) := by
  have hpayload : s.slot (.inl a) = none := by simp [State.slot, hidle, Pc.payload]
  unfold State.resolve at hinv ⊢
  split_ifs at hinv ⊢
  · refine ⟨hinv, fun q => ?_, ?_, h.freed, h.gone, h.fresh⟩
    · have hrole : (Pc.resolving g p (s.payload hasPayload)).role q = (s.pc a).role q := by
        rw [hidle]
        rfl
      rw [view_setPc_same (s := s.spendPayload hasPayload) hrole]
      exact h.good q
    · have hslot : (s.spendPayload hasPayload).slot = s.slot := by
        funext place
        cases place <;> rfl
      rw [slot_setPc, hslot, Pc.payload]
      cases hasPayload with
      | false =>
        rw [State.payload, if_neg nofun, Function.update_eq_self_iff.mpr hpayload.symm]
        exact h.owned
      | true => exact h.owned.create hpayload
  · refine ⟨hinv, fun q => ?_, ?_, ?_, h.gone, h.fresh⟩
    · rw [view_settle, if_neg (by simp)]
      exact h.good q
    · have hslot : ((s.spendPayload hasPayload).settle (s.payload hasPayload) .lost).slot =
          s.slot := by
        funext place
        cases place <;> rfl
      rw [hslot, fates_settle]
      cases hasPayload with
      | false => exact h.owned
      | true => exact h.owned.waste
    · exact fun v q hq => h.freed v q (mem_settle (s := s.spendPayload hasPayload) .lost nofun hq)

omit [DecidableEq τ] [DecidableEq η] in
theorem awaits_of_role {b : τ} {r : Role} (hrole : (s.pc b).role p = some r)
    (hawaits : r.awaits = true) : (s.pc b).awaits = some p := by
  cases hpc : s.pc b with
  | taking g q | masked g q | putBack g q v =>
    rw [hpc] at hrole
    dsimp only [Pc.role] at hrole
    split_ifs at hrole with hq
    rw [Pc.awaits, hq]
  | giving g q v =>
    rw [hpc] at hrole
    dsimp only [Pc.role] at hrole
    split_ifs at hrole with hq
    cases hrole
    cases hawaits
  | idle | copying | assigning | dropping | deleting | resolving =>
    rw [hpc] at hrole
    simp [Pc.role] at hrole

omit [DecidableEq η] in
theorem Safe.await (h : Safe s) {g : η} (hidle : s.pc a = .idle) (hg : s.handle g = .counted p)
    (halone : ∀ b, (s.pc b).awaits ≠ some p) (hinv : Inv (s.setPc a (.taking g p))) :
    Safe (s.setPc a (.taking g p)) := by
  refine h.of_promise hinv hg ?_ ?_ ?_ (fun v q hq => hq) rfl rfl
  · intro q hq
    have hrole : (Pc.taking g p).role q = (s.pc a).role q := by
      simp [hidle, Pc.role, Ne.symm hq]
    exact view_setPc_same hrole
  · rw [view_setPc, Pc.role, if_pos rfl]
    refine (h.good p).await (by simp [State.view, hidle, Pc.role]) fun b q hb => ?_
    by_contra hq
    exact halone b (awaits_of_role hb (by simpa using hq))
  · have hpayload : s.slot (.inl a) = none := by simp [State.slot, hidle, Pc.payload]
    rw [slot_setPc, Pc.payload, Function.update_eq_self_iff.mpr hpayload.symm]
    · exact h.owned
    all_goals nofun

theorem Safe.beginStep (h : Safe s) (hholding : Holding s act) (hidle : s.pc act.actor = .idle)
    (hstep : beginStep s act = some t) : Safe t := by
  have hinv := h.handles.beginStep hholding hidle hstep
  have hframe : ∀ {pc : Pc η}, (∀ q, pc.role q = none) → pc.payload = none →
      t = s.setPc act.actor pc → Safe t := by
    rintro pc hrole hpayload rfl
    exact h.of_frame hinv rfl (fun q => by rw [hrole, hidle]; rfl) (by rw [hpayload, hidle]; rfl)
      rfl rfl rfl rfl rfl rfl
  cases act with
  | next b => simp [Promise.beginStep] at hstep
  | construct b g =>
    dsimp only [Promise.beginStep] at hstep
    split_ifs at hstep with hgone
    obtain rfl := Option.some.inj hstep
    exact h.of_same hinv rfl (fun _ _ => rfl) (fun _ => rfl) rfl rfl rfl rfl rfl
  | make b g ok =>
    dsimp only [Promise.beginStep] at hstep
    split_ifs at hstep with hgone
    obtain rfl := Option.some.inj hstep
    exact h.make ok hinv
  | copy b dst src =>
    dsimp only [Promise.beginStep] at hstep
    split_ifs at hstep with hlive
    split at hstep <;> obtain rfl := Option.some.inj hstep
    · exact hframe (fun _ => rfl) rfl rfl
    · exact h.of_same hinv rfl (fun _ _ => rfl) (fun _ => rfl) rfl rfl rfl rfl rfl
  | move b dst src | take b dst src =>
    dsimp only [Promise.beginStep] at hstep
    split_ifs at hstep with hlive
    obtain rfl := Option.some.inj hstep
    exact h.of_same hinv rfl (fun _ _ => rfl) (fun _ => rfl) rfl rfl rfl rfl rfl
  | assign b dst src =>
    dsimp only [Promise.beginStep] at hstep
    split_ifs at hstep with hlive
    split at hstep <;> obtain rfl := Option.some.inj hstep <;> exact hframe (fun _ => rfl) rfl rfl
  | moveAssign b dst src =>
    dsimp only [Promise.beginStep] at hstep
    split_ifs at hstep with hlive hsame <;> obtain rfl := Option.some.inj hstep
    · exact h
    · exact hframe (fun _ => rfl) rfl rfl
  | clear b g | destroy b g =>
    dsimp only [Promise.beginStep] at hstep
    split_ifs at hstep with hlive
    obtain rfl := Option.some.inj hstep
    exact hframe (fun _ => rfl) rfl rfl
  | resolve b g hasPayload | resolveFromIsr b g hasPayload =>
    obtain ⟨p, hp, rfl⟩ := Option.map_eq_some_iff.mp hstep
    exact h.resolve hidle hinv
  | await b g =>
    obtain ⟨p, hp, rfl⟩ := Option.map_eq_some_iff.mp hstep
    have husable := h.handles.usable (fun c => (hholding c).2.1 g List.mem_cons_self)
      (fun hgone => by simp [hgone, Handle.value] at hp)
    split_ifs at hinv ⊢
    · exact h.await hidle (Handle.eq_counted husable hp) (fun c => (hholding c).2.2 p hp) hinv
    · exact h

omit [DecidableEq τ] [DecidableEq η] in
theorem eq_idle {pc : Pc η} (h : pc.isIdle = true) : pc = .idle := by
  cases pc <;> first | rfl | cases h

theorem step_eq_beginStep (hact : ∀ a, act ≠ .next a) :
    Promise.step s act = if (s.pc act.actor).isIdle then Promise.beginStep s act else none := by
  cases act with
  | next a => exact absurd rfl (hact a)
  | construct | make | copy | move | take | assign | moveAssign | clear | destroy | resolve
  | resolveFromIsr | await => rfl

theorem Safe.step (h : Safe s) (hholding : Holding s act) (hstep : Promise.step s act = some t) :
    Safe t := by
  by_cases hnext : ∃ a, act = .next a
  · obtain ⟨a, rfl⟩ := hnext
    exact h.nextStep hstep
  · rw [step_eq_beginStep (by simpa using hnext)] at hstep
    split_ifs at hstep with hidle
    exact h.beginStep hholding (eq_idle hidle) hstep

end Handles

end Update

/-! ## What holds in every run -/

/-- The handle through which an actor uses a promise, and the promise. -/
def Pc.promise : Pc η → Option ℕ
  | .copying _ _ p | .assigning _ _ p | .resolving _ p _ | .giving _ p _ | .taking _ p
  | .masked _ p | .putBack _ p _ => some p
  | _ => none

structure Sound (s : State τ η) : Prop where
  /-- At most one resolve of a promise returned true. -/
  one_winner : (s.wins.map Prod.fst).Nodup
  /-- No payload was handed over twice, deleted twice, or both, and none of a resolve that returned
  false was handed over or deleted. -/
  one_fate : (s.fates.map Prod.fst).Nodup
  handed : ∀ v p, (v, Fate.handed p) ∈ s.fates → (p, some v) ∈ s.wins
  freed : ∀ v p, (v, Fate.freed p) ∈ s.fates → (p, some v) ∈ s.wins ∧ p ∈ s.deleted
  /-- The winning payload is handed over, deleted, or still in the promise or an await of it. -/
  kept : ∀ v p, (p, some v) ∈ s.wins → (v, Fate.handed p) ∈ s.fates ∨ (v, Fate.freed p) ∈ s.fates ∨
    p ∉ s.deleted ∧ ((s.cell p).value = some v ∨ ∃ a g, s.pc a = .putBack g p (some v))
  lost : ∀ v, (v, Fate.lost) ∈ s.fates →
    (∀ p, (s.cell p).value ≠ some v) ∧ ∀ a g p, s.pc a ≠ .putBack g p (some v)
  /-- An await is blocked only until a resolve has returned true, which one that has claimed the
  promise is about to do. -/
  blocked : ∀ a g p, s.pc a = .taking g p → (s.cell p).sem = false →
    (∀ v, (p, v) ∉ s.wins) ∧
      ((s.cell p).resolved = true → ∃ b g' v, s.pc b = .giving g' p v)
  deleted_once : s.deleted.Nodup
  /-- A promise is deleted by the one who dropped its last handle. -/
  last : ∀ a k p, s.pc a = .deleting k p →
    s.handle k.target = .spent p ∧ ∀ t, s.holder t ≠ some p
  deleted_iff : ∀ p < s.nextPromise, p ∈ s.deleted ↔
    (∀ t, s.holder t ≠ some p) ∧ ∀ a k, s.pc a ≠ .deleting k p
  in_use : ∀ a p, (s.pc a).promise = some p → p ∉ s.deleted

section Sound

variable {s : State τ η} {a : τ} {p v : ℕ}

theorem mem_wins {w : Option ℕ} : w ∈ (s.view p).wins ↔ (p, w) ∈ s.wins := by
  simp only [State.view, List.mem_filterMap, winOf]
  constructor
  · rintro ⟨⟨q, w'⟩, hmem, heq⟩
    split_ifs at heq with hq
    obtain rfl := Option.some.inj heq
    obtain rfl : q = p := hq
    exact hmem
  · exact fun hmem => ⟨(p, w), hmem, if_pos rfl⟩

theorem mem_spent :
    v ∈ (s.view p).spent ↔ (v, Fate.handed p) ∈ s.fates ∨ (v, Fate.freed p) ∈ s.fates := by
  simp only [State.view, List.mem_filterMap, spentBy]
  constructor
  · rintro ⟨⟨w, fate⟩, hmem, heq⟩
    split_ifs at heq with hfate
    obtain rfl := Option.some.inj heq
    rcases hfate with rfl | rfl
    · exact .inl hmem
    · exact .inr hmem
  · rintro (hmem | hmem)
    · exact ⟨_, hmem, if_pos (.inl rfl)⟩
    · exact ⟨_, hmem, if_pos (.inr rfl)⟩

theorem View.Good.length_wins {V : View τ} (h : V.Good) : V.wins.length ≤ 1 := by
  cases h.phase with
  | unresolved hres hvalue htaken hsem hwins | claimed b w hrole hres hvalue htaken hsem hwins =>
    simp [hwins]
  | opened w hkeeps | inside b w hrole hkeeps => simp [hkeeps.wins]
  | leaving b w w' hrole hres hvalue hsem hwins => simp [hwins]

/-- What is spent is the winning payload. -/
theorem View.Good.spent {V : View τ} (h : V.Good) (hv : v ∈ V.spent) : some v ∈ V.wins := by
  have hkeeps : ∀ {w : Option ℕ} {l : List ℕ}, l ++ V.spent = w.toList → some v = w := by
    intro w l htotal
    have hmem : v ∈ w.toList := htotal ▸ List.mem_append_right l hv
    have heq : w = some v := by simpa using hmem
    exact heq.symm
  cases h.phase with
  | unresolved hres hvalue htaken hsem hwins hspent
  | claimed b w hrole hres hvalue htaken hsem hwins hspent => simp [hspent] at hv
  | opened w hk | inside b w hrole hk =>
    rw [hk.wins, hkeeps hk.total]
    exact List.mem_cons_self
  | leaving b w w' hrole hres hvalue hsem hwins htotal =>
    rw [hwins, hkeeps htotal]
    exact List.mem_cons_self

/-- The winning payload is in the promise, on its way out of an await, or spent. -/
theorem View.Good.kept {V : View τ} (h : V.Good) (hv : some v ∈ V.wins) :
    v ∈ V.spent ∨ V.cell.value = some v ∨ ∃ a, V.role a = some (.putBack (some v)) := by
  cases h.phase with
  | unresolved hres hvalue htaken hsem hwins | claimed b w hrole hres hvalue htaken hsem hwins =>
    simp [hwins] at hv
  | opened w hk | inside b w hrole hk =>
    obtain rfl : some v = w := by simpa [hk.wins] using hv
    have hmem : v ∈ V.cell.value.toList ++ V.spent := by
      rw [hk.total]
      exact List.mem_cons_self
    rcases List.mem_append.mp hmem with hmem | hmem
    · exact .inr (.inl (by simpa using hmem))
    · exact .inl hmem
  | leaving b w w' hrole hres hvalue hsem hwins htotal =>
    obtain rfl : some v = w := by simpa [hwins] using hv
    have hmem : v ∈ w'.toList ++ V.spent := by
      rw [htotal]
      exact List.mem_cons_self
    rcases List.mem_append.mp hmem with hmem | hmem
    · obtain rfl : w' = some v := by simpa using hmem
      exact .inr (.inr ⟨b, hrole⟩)
    · exact .inl hmem

/-- A consumer that is blocked waits for a resolve, which is claimed at most. -/
theorem View.Good.blocked {V : View τ} (h : V.Good) (ha : V.role a = some .taking)
    (hsem : V.cell.sem = false) :
    V.wins = [] ∧ (V.cell.resolved = true → ∃ b v, V.role b = some (.giving v)) := by
  cases h.phase with
  | unresolved hres hvalue htaken hclosed hwins => exact ⟨hwins, by simp [hres]⟩
  | claimed b w hrole hres hvalue htaken hclosed hwins => exact ⟨hwins, fun _ => ⟨b, w, hrole⟩⟩
  | opened w hkeeps hopen => simp [hopen] at hsem
  | inside b w hrole hkeeps =>
    obtain rfl := h.consumer a b _ _ ha hrole rfl rfl
    cases ha.symm.trans hrole
  | leaving b w w' hrole =>
    obtain rfl := h.consumer a b _ _ ha hrole rfl rfl
    cases ha.symm.trans hrole

theorem nodup_of_filter {α β : Type} [DecidableEq α] {l : List (α × β)}
    (h : ∀ a, (l.filter fun x => x.1 = a).length ≤ 1) : (l.map Prod.fst).Nodup := by
  rw [List.nodup_iff_count_le_one]
  intro a
  rw [List.count_eq_countP, List.countP_map, List.countP_eq_length_filter]
  exact h a

theorem length_wins (s : State τ η) (p : ℕ) :
    (s.view p).wins.length = (s.wins.filter fun x => x.1 = p).length := by
  simp only [State.view]
  induction s.wins with
  | nil => rfl
  | cons win wins ih =>
    by_cases hp : win.1 = p
    · simp [winOf, hp, ih]
    · simp [winOf, hp, ih]

/-- Where an actor in a role stands, by the handle it came with. -/
def Role.pc (g : η) (p : ℕ) : Role → Pc η
  | .giving v => .giving g p v
  | .taking => .taking g p
  | .masked => .masked g p
  | .putBack v => .putBack g p v

theorem pc_of_role {r : Role} (h : (s.pc a).role p = some r) : ∃ g, s.pc a = r.pc g p := by
  cases hpc : s.pc a with
  | putBack g q w | giving g q w | taking g q | masked g q =>
    rw [hpc] at h
    dsimp only [Pc.role] at h
    split_ifs at h with hq
    obtain rfl := Option.some.inj h
    exact ⟨g, by rw [hq]; rfl⟩
  | idle | copying | assigning | dropping | deleting | resolving =>
    rw [hpc] at h
    simp [Pc.role] at h

theorem Safe.sound (h : Safe s) : Sound s where
  one_winner := nodup_of_filter fun p => by
    rw [← length_wins]
    exact (h.good p).length_wins
  one_fate := h.owned.nodup
  handed v p hv := mem_wins.mp ((h.good p).spent (mem_spent.mpr (.inl hv)))
  freed v p hv := ⟨mem_wins.mp ((h.good p).spent (mem_spent.mpr (.inr hv))), h.freed v p hv⟩
  kept v p hv := by
    rcases (h.good p).kept (mem_wins.mpr hv) with hspent | hvalue | ⟨a, ha⟩
    · rcases mem_spent.mp hspent with hhanded | hfreed
      · exact .inl hhanded
      · exact .inr (.inl hfreed)
    · refine .inr (.inr ⟨fun hmem => ?_, .inl hvalue⟩)
      have hnone := h.gone p hmem
      have hsome : (s.cell p).value = some v := hvalue
      simp [hnone] at hsome
    · obtain ⟨g, hg⟩ := pc_of_role ha
      have hknown := h.handles.known a
      rw [hg] at hknown
      exact .inr (.inr ⟨(h.handles.live hknown).1, .inr ⟨a, g, hg⟩⟩)
  lost v hv := by
    have hgone : v ∈ s.fates.map Prod.fst := List.mem_map.mpr ⟨_, hv, rfl⟩
    refine ⟨fun p hp => h.owned.not_gone (.inr p) v hp hgone, fun a g p ha => ?_⟩
    exact h.owned.not_gone (.inl a) v (by simp [State.slot, ha, Pc.payload]) hgone
  blocked a g p ha hsem := by
    have hrole : (s.view p).role a = some .taking := by simp [State.view, ha, Pc.role]
    obtain ⟨hwins, hgiving⟩ := (h.good p).blocked hrole hsem
    refine ⟨fun v hv => ?_, fun hres => ?_⟩
    · have hmem := mem_wins.mpr hv
      simp [hwins] at hmem
    · obtain ⟨b, v, hb⟩ := hgiving hres
      obtain ⟨g', hg'⟩ := pc_of_role hb
      exact ⟨b, g', v, hg'⟩
  deleted_once := h.handles.counted.nodup
  last a k p ha := by
    have hknown := h.handles.known a
    rw [ha] at hknown
    refine ⟨hknown.1, fun t ht => ?_⟩
    have hzero := (h.handles.counted.owed a p (congrArg Pc.owes ha)).1
    have hpos := h.handles.counted.pos ht
    omega
  deleted_iff p hp := by
    rw [h.handles.counted.mem_deleted_iff hp]
    refine and_congr_right fun _ => ⟨fun hnone a k ha => ?_, fun hnone a ha => ?_⟩
    · exact hnone a (congrArg Pc.owes ha)
    · have howes : (s.pc a).owes = some p := ha
      cases hpc : s.pc a with
      | deleting k q =>
        rw [hpc] at howes
        obtain rfl : q = p := Option.some.inj howes
        exact hnone a k hpc
      | idle | copying | assigning | dropping | resolving | giving | taking | masked | putBack =>
        simp [hpc, Pc.owes] at howes
  in_use a p ha := by
    have hknown := h.handles.known a
    cases hpc : s.pc a with
    | copying dst src q | assigning dst src q =>
      rw [hpc] at hknown ha
      obtain rfl : q = p := Option.some.inj ha
      exact (h.handles.live hknown.2).1
    | resolving g q | giving g q | taking g q | masked g q | putBack g q =>
      rw [hpc] at hknown ha
      obtain rfl : q = p := Option.some.inj ha
      exact (h.handles.live hknown).1
    | idle | dropping | deleting => simp [hpc, Pc.promise] at ha

/-- In every run of actors that hold a handle while they use a promise. -/
theorem promise_sound [DecidableEq τ] [DecidableEq η] {acts : List (Act τ η)}
    (hwithin : Within step Holding (init τ η) acts)
    (hrun : runSteps step (init τ η) acts = some s) : Sound s := by
  have hstep : ∀ (s : State τ η) (act : Act τ η) (s' : State τ η), Safe s → Holding s act →
      step s act = some s' → Safe s' := fun _ _ _ h hholding hstep => h.step hholding hstep
  have hsafe : Safe s := invariant_of_within hstep safe_init hwithin hrun
  exact hsafe.sound

/-- Two producers, one of them an interrupt, and a consumer that awaits twice: it assigns its handle
to itself and is the last to let go. -/
def twoProducers : List (Act (Fin 3) (Fin 3)) :=
  [.make 0 0 true, .copy 0 1 0, .next 0, .copy 0 2 0, .next 0, .await 0 0,
    .resolve 1 1 true, .resolveFromIsr 2 2 true, .next 2, .next 1, .next 2, .next 0, .next 0,
    .next 0, .destroy 1 1, .next 1, .destroy 2 2, .next 2, .await 0 0, .next 0, .next 0, .next 0,
    .assign 0 0 0, .next 0, .next 0, .destroy 0 0, .next 0, .next 0]

theorem promise_sound_twoProducers :
    ((runSteps step (init (Fin 3) (Fin 3)) twoProducers).map fun s =>
      (s.wins, s.fates, s.deleted)) = some ([(0, some 1)], [(1, .handed 0), (0, .lost)], [0]) ∧
    ∀ s, runSteps step (init (Fin 3) (Fin 3)) twoProducers = some s → Sound s :=
  ⟨by decide +kernel, fun _ hrun => promise_sound (by decide +kernel) hrun⟩

end Sound

end BekenCam.Promise
