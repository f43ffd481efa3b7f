import BekenCam.PromiseModel
import BekenCam.ReferenceCount

/-!
# The handles of a promise

The count of a promise is the number of the handles that have it, and of the assignments that have
counted it up already. An assignment of a handle to itself holds two references on its way.
-/
namespace BekenCam.Promise

variable {τ η : Type}

/-- The promise that the handle has a reference to. -/
def Handle.counts : Handle → Option ℕ
  | .counted p => some p
  | _ => none

/-- Not in the hands of `delete`. -/
def Handle.usable : Handle → Bool
  | .empty | .counted _ => true
  | .gone | .spent _ => false

/-- The reference that an assignment has counted up. -/
def After.extra : After η → Option ℕ
  | .assign _ _ extra => extra
  | _ => none

def Pc.extra : Pc η → Option ℕ
  | .dropping k | .deleting k _ => k.extra
  | _ => none

/-- The promise that an actor is about to delete. -/
def Pc.owes : Pc η → Option ℕ
  | .deleting _ p => some p
  | _ => none

def State.holder (s : State τ η) : η ⊕ τ → Option ℕ
  | .inl h => (s.handle h).counts
  | .inr a => (s.pc a).extra

def State.owes (s : State τ η) (a : τ) : Option ℕ := (s.pc a).owes

/-- What an actor knows of the handles it uses. -/
def After.At (handle : η → Handle) : After η → Prop
  | .assign _ src extra => handle src = .ofValue extra
  | .moveAssign dst src => dst ≠ src ∧ (handle src).usable = true
  | .clear _ | .destroy _ => True

def Pc.At (handle : η → Handle) : Pc η → Prop
  | .idle => True
  | .copying dst src p => handle dst = .gone ∧ handle src = .counted p
  | .assigning dst src p => (handle dst).usable = true ∧ handle src = .counted p
  | .dropping k => (handle k.target).usable = true ∧ k.At handle
  | .deleting k p => handle k.target = .spent p ∧ k.At handle
  | .resolving h p _ | .giving h p _ | .taking h p | .masked h p | .putBack h p _ =>
    handle h = .counted p

structure Inv (s : State τ η) : Prop where
  exclusive : ∀ a b, a ≠ b → ∀ h ∈ (s.pc a).writes, h ∉ (s.pc b).writes ∧ h ∉ (s.pc b).reads
  known : ∀ a, (s.pc a).At s.handle
  spent : ∀ h p, s.handle h = .spent p → ∃ a k, s.pc a = .deleting k p ∧ k.target = h
  counted : Counted s.holder s.refs s.owes s.deleted s.nextPromise

theorem inv_init : Inv (init τ η) where
  exclusive _ _ _ := nofun
  known _ := trivial
  spent := nofun
  counted := by
    have hholder : (init τ η).holder = fun _ => none := by
      funext t
      cases t <;> rfl
    rw [hholder]
    exact Counted.empty

theorem Handle.counts_ofValue (p : Option ℕ) : (Handle.ofValue p).counts = p := by
  cases p <;> rfl

theorem Handle.ofValue_of_usable {handle : Handle} (h : handle.usable = true) :
    .ofValue handle.value = handle := by
  cases handle <;> first | rfl | cases h

theorem After.target_mem_writes (k : After η) : k.target ∈ k.writes := by
  cases k <;> simp [After.target, After.writes]

/-- An actor knows nothing of other handles. -/
theorem Pc.At.congr {handle handle' : η → Handle} {pc : Pc η} (h : pc.At handle)
    (hwrites : ∀ h ∈ pc.writes, handle' h = handle h)
    (hreads : ∀ h ∈ pc.reads, handle' h = handle h) : pc.At handle' := by
  have hafter : ∀ k : After η, (∀ h ∈ k.writes, handle' h = handle h) →
      (∀ h ∈ k.reads, handle' h = handle h) → k.At handle → k.At handle' := by
    intro k hw hr hk
    cases k with
    | assign dst src extra => exact (hr src (by simp [After.reads])).trans hk
    | moveAssign dst src =>
      refine ⟨hk.1, ?_⟩
      rw [hw src (by simp [After.writes])]
      exact hk.2
    | clear | destroy => trivial
  cases pc with
  | idle => trivial
  | copying dst src p =>
    exact ⟨(hwrites dst (by simp [Pc.writes])).trans h.1, (hreads src (by simp [Pc.reads])).trans h.2⟩
  | assigning dst src p =>
    refine ⟨?_, (hreads src (by simp [Pc.reads])).trans h.2⟩
    rw [hwrites dst (by simp [Pc.writes])]
    exact h.1
  | dropping k =>
    refine ⟨?_, hafter k hwrites hreads h.2⟩
    rw [hwrites _ k.target_mem_writes]
    exact h.1
  | deleting k p => exact ⟨(hwrites _ k.target_mem_writes).trans h.1, hafter k hwrites hreads h.2⟩
  | resolving h' | giving h' | taking h' | masked h' | putBack h' =>
    exact (hreads h' (by simp [Pc.reads])).trans h

/-- A step of the actor `a` that writes the handles `W`, which nobody else uses. -/
theorem Inv.of_step {s t : State τ η} {a : τ} {W : List η} (h : Inv s)
    (hpc : ∀ b, b ≠ a → t.pc b = s.pc b) (hhandle : ∀ h, h ∉ W → t.handle h = s.handle h)
    (hfree : ∀ b, b ≠ a → ∀ h ∈ W, h ∉ (s.pc b).writes ∧ h ∉ (s.pc b).reads)
    (hold : ∀ h ∈ (s.pc a).writes, h ∈ W) (hwrites : ∀ h ∈ (t.pc a).writes, h ∈ W)
    (hreads : ∀ b, b ≠ a → ∀ h ∈ (t.pc a).reads, h ∉ (s.pc b).writes)
    (hknown : (t.pc a).At t.handle)
    (hspent : ∀ h ∈ W, ∀ p, t.handle h = .spent p → ∃ k, t.pc a = .deleting k p ∧ k.target = h)
    (hcounted : Counted t.holder t.refs t.owes t.deleted t.nextPromise) : Inv t where
  exclusive b c hbc h' hh := by
    by_cases hb : b = a
    · subst hb
      rw [hpc c (Ne.symm hbc)]
      exact hfree c (Ne.symm hbc) h' (hwrites h' hh)
    · rw [hpc b hb] at hh
      by_cases hc : c = a
      · subst hc
        refine ⟨fun hw => ?_, fun hr => hreads b hb h' hr hh⟩
        exact (hfree b hb h' (hwrites h' hw)).1 hh
      · rw [hpc c hc]
        exact h.exclusive b c hbc h' hh
  known b := by
    by_cases hb : b = a
    · rw [hb]
      exact hknown
    · rw [hpc b hb]
      refine (h.known b).congr (fun h' hh => hhandle h' fun hW => ?_) fun h' hh => hhandle h' fun hW => ?_
      · exact (hfree b hb h' hW).1 hh
      · exact (hfree b hb h' hW).2 hh
  spent h' p hh := by
    by_cases hW : h' ∈ W
    · exact ⟨a, hspent h' hW p hh⟩
    · rw [hhandle h' hW] at hh
      obtain ⟨b, k, hb, hk⟩ := h.spent h' p hh
      refine ⟨b, k, ?_, hk⟩
      rw [hpc b, hb]
      rintro rfl
      refine hW (hold h' ?_)
      rw [hb, ← hk]
      exact k.target_mem_writes
  counted := hcounted

/-! ## The references -/

section References

variable [DecidableEq τ] [DecidableEq η] {s : State τ η} {a : τ}

theorem holder_setPc (s : State τ η) (a : τ) (pc : Pc η) :
    (s.setPc a pc).holder = Function.update s.holder (.inr a) pc.extra := by
  funext t
  cases t with
  | inl h => rfl
  | inr b =>
    by_cases hb : b = a
    · subst hb
      simp [State.holder, State.setPc]
    · simp [State.holder, State.setPc, hb]

theorem holder_setHandle (s : State τ η) (h : η) (handle : Handle) :
    (s.setHandle h handle).holder = Function.update s.holder (.inl h) handle.counts := by
  funext t
  cases t with
  | inl g =>
    by_cases hg : g = h
    · subst hg
      simp [State.holder, State.setHandle]
    · simp [State.holder, State.setHandle, hg]
  | inr b => simp [State.holder, State.setHandle]

omit [DecidableEq η] in
theorem owes_setPc (s : State τ η) (a : τ) (pc : Pc η) :
    (s.setPc a pc).owes = Function.update s.owes a pc.owes := by
  funext b
  by_cases hb : b = a
  · subst hb
    simp [State.owes, State.setPc]
  · simp [State.owes, State.setPc, hb]

/-- The handle that was dropped gets what the operation has for it. -/
theorem counted_finish {k : After η} (hextra : (s.pc a).extra = k.extra) (hk : k.At s.handle)
    (h : Counted (Function.update s.holder (.inl k.target) none) s.refs
      (Function.update s.owes a none) s.deleted s.nextPromise) :
    Counted (s.finish a k).holder (s.finish a k).refs (s.finish a k).owes (s.finish a k).deleted
      (s.finish a k).nextPromise := by
  have hactor : s.holder (.inr a) = k.extra := hextra
  cases k with
  | assign dst src extra =>
    dsimp only [After.target, After.extra] at h hactor
    have hpass := h.pass (t := .inr a) (u := .inl dst) (Function.update_self ..) (by simp)
    rw [Function.update_of_ne (by simp), hactor, Function.update_comm (by simp),
      Function.update_idem] at hpass
    have hsrc : s.handle src = .ofValue extra := hk
    have hvalue : Handle.ofValue (s.handle src).value = .ofValue extra := by
      rw [hsrc]
      cases extra <;> rfl
    dsimp only [State.finish]
    rw [holder_setPc, holder_setHandle, owes_setPc, hvalue, Handle.counts_ofValue]
    exact hpass
  | moveAssign dst src =>
    dsimp only [After.target, After.extra] at h hactor
    obtain ⟨hne, husable⟩ := hk
    have hne' : (.inl src : η ⊕ τ) ≠ .inl dst := by simpa using Ne.symm hne
    have hpass := h.pass (t := .inl src) (u := .inl dst) (Function.update_self ..) hne'
    rw [Function.update_of_ne hne', Function.update_comm hne', Function.update_idem] at hpass
    dsimp only [State.finish, State.moveTo]
    rw [holder_setPc, holder_setHandle, holder_setHandle, owes_setPc,
      Handle.ofValue_of_usable husable, Function.update_eq_self_iff.mpr]
    · exact hpass
    · simpa [Pc.extra] using hactor.symm
  | clear g | destroy g =>
    dsimp only [After.target, After.extra] at h hactor
    dsimp only [State.finish]
    rw [holder_setPc, holder_setHandle, owes_setPc, Function.update_eq_self_iff.mpr]
    · exact h
    · simpa [Pc.extra] using hactor.symm

theorem pc_finish (s : State τ η) (a : τ) (k : After η) :
    (s.finish a k).pc = Function.update s.pc a .idle := by
  cases k <;> rfl

theorem handle_finish {k : After η} {h : η} (hh : h ∉ k.writes) :
    (s.finish a k).handle h = s.handle h := by
  cases k with
  | assign dst src extra =>
    have hne : h ≠ dst := by simpa [After.writes] using hh
    simp [State.finish, State.setHandle, State.setPc, hne]
  | moveAssign dst src =>
    obtain ⟨hdst, hsrc⟩ : h ≠ dst ∧ h ≠ src := by simpa [After.writes] using hh
    simp [State.finish, State.moveTo, State.setHandle, State.setPc, hdst, hsrc]
  | clear g | destroy g =>
    have hne : h ≠ g := by simpa [After.writes] using hh
    simp [State.finish, State.setHandle, State.setPc, hne]

theorem Handle.ofValue_ne_spent {v : Option ℕ} {p : ℕ} : Handle.ofValue v ≠ .spent p := by
  cases v <;> nofun

theorem finish_ne_spent {k : After η} {h : η} {p : ℕ} (hh : h ∈ k.writes) :
    (s.finish a k).handle h ≠ .spent p := by
  cases k with
  | assign dst src extra =>
    obtain rfl : h = dst := by simpa [After.writes] using hh
    simp [State.finish, State.setHandle, State.setPc, Handle.ofValue_ne_spent]
  | moveAssign dst src =>
    by_cases hsrc : h = src
    · simp [State.finish, State.moveTo, State.setHandle, State.setPc, hsrc]
    · obtain rfl : h = dst := by simpa [After.writes, hsrc] using hh
      simp [State.finish, State.moveTo, State.setHandle, State.setPc, hsrc, Handle.ofValue_ne_spent]
  | clear g | destroy g =>
    obtain rfl : h = g := by simpa [After.writes] using hh
    simp [State.finish, State.setHandle, State.setPc]

/-- The end of a drop, with the count as it is without the handle that was dropped. -/
theorem Inv.finish (h : Inv s) {t : State τ η} {k : After η} (hpc : t.pc = s.pc)
    (hhandle : t.handle = s.handle) (hk : s.pc a = .dropping k ∨ ∃ p, s.pc a = .deleting k p)
    (hcounted : Counted (Function.update t.holder (.inl k.target) none) t.refs
      (Function.update t.owes a none) t.deleted t.nextPromise) : Inv (t.finish a k) := by
  obtain ⟨hwrites, hextra, hat⟩ : (s.pc a).writes = k.writes ∧ (s.pc a).extra = k.extra ∧
      k.At s.handle := by
    have hknown := h.known a
    rcases hk with hk | ⟨p, hk⟩ <;> rw [hk] at hknown ⊢ <;> exact ⟨rfl, rfl, hknown.2⟩
  have hidle : (t.finish a k).pc a = .idle := by simp [pc_finish]
  refine h.of_step (a := a) (W := k.writes) ?_ ?_ ?_ ?_ ?_ ?_ ?_ ?_ ?_
  · intro b hb
    simp [pc_finish, hb, hpc]
  · intro g hg
    rw [handle_finish hg, hhandle]
  · intro b hb g hg
    exact h.exclusive a b (Ne.symm hb) g (hwrites ▸ hg)
  · exact fun g hg => hwrites ▸ hg
  · rw [hidle]
    nofun
  · rw [hidle]
    nofun
  · rw [hidle]
    trivial
  · exact fun g hg p hp => absurd hp (finish_ne_spent hg)
  · exact counted_finish (hpc ▸ hextra) (hhandle ▸ hat) hcounted

omit [DecidableEq η] in
/-- A step that leaves the handles and the counts. -/
theorem Inv.of_same (h : Inv s) {t : State τ η} {pc : Pc η} (hpc : t.pc = Function.update s.pc a pc)
    (hhandle : t.handle = s.handle) (hrefs : t.refs = s.refs) (hdeleted : t.deleted = s.deleted)
    (hnext : t.nextPromise = s.nextPromise) (hold : ∀ g, g ∉ (s.pc a).writes)
    (hwrites : ∀ b, b ≠ a → ∀ g ∈ pc.writes, g ∉ (s.pc b).writes ∧ g ∉ (s.pc b).reads)
    (hreads : ∀ b, b ≠ a → ∀ g ∈ pc.reads, g ∉ (s.pc b).writes)
    (hspent : ∀ g ∈ pc.writes, ∀ p, s.handle g ≠ .spent p)
    (hknown : pc.At s.handle) (hextra : pc.extra = (s.pc a).extra) (howes : pc.owes = (s.pc a).owes) :
    Inv t := by
  have hself : t.pc a = pc := by simp [hpc]
  refine h.of_step (a := a) (W := pc.writes) ?_ ?_ hwrites ?_ ?_ ?_ ?_ ?_ ?_
  · intro b hb
    simp [hpc, hb]
  · intro g _
    rw [hhandle]
  · exact fun g hg => absurd hg (hold g)
  · rw [hself]
    exact fun g hg => hg
  · rw [hself]
    exact hreads
  · rw [hself, hhandle]
    exact hknown
  · intro g hg p hp
    rw [hhandle] at hp
    exact absurd hp (hspent g hg p)
  · have hholder : t.holder = s.holder := by
      funext u
      cases u with
      | inl g => simp [State.holder, hhandle]
      | inr b =>
        by_cases hb : b = a
        · subst hb
          simp [State.holder, hself, hextra]
        · simp [State.holder, hpc, hb]
    have howed : t.owes = s.owes := by
      funext b
      by_cases hb : b = a
      · subst hb
        simp [State.owes, hself, howes]
      · simp [State.owes, hpc, hb]
    rw [hholder, hrefs, howed, hdeleted, hnext]
    exact h.counted

omit [DecidableEq τ] [DecidableEq η] in
/-- An operation of one step on handles that nobody uses. -/
theorem Inv.instant (h : Inv s) {t : State τ η} {W : List η} (hidle : s.pc a = .idle)
    (hpc : t.pc = s.pc) (hhandle : ∀ g, g ∉ W → t.handle g = s.handle g)
    (hfree : ∀ b, ∀ g ∈ W, g ∉ (s.pc b).writes ∧ g ∉ (s.pc b).reads)
    (hspent : ∀ g ∈ W, ∀ p, t.handle g ≠ .spent p)
    (hcounted : Counted t.holder t.refs t.owes t.deleted t.nextPromise) : Inv t := by
  have hself : t.pc a = .idle := by rw [hpc, hidle]
  refine h.of_step (a := a) (W := W) (fun b _ => by rw [hpc]) hhandle (fun b _ => hfree b) ?_ ?_ ?_
    ?_ (fun g hg p hp => absurd hp (hspent g hg p)) hcounted
  · rw [hidle]
    nofun
  · rw [hself]
    nofun
  · rw [hself]
    nofun
  · rw [hself]
    trivial

omit [DecidableEq τ] [DecidableEq η] in
/-- A handle that nobody writes is not spent. -/
theorem Inv.ne_spent (h : Inv s) {g : η} (hg : ∀ b, g ∉ (s.pc b).writes) (p : ℕ) :
    s.handle g ≠ .spent p := by
  intro hp
  obtain ⟨b, k, hb, hk⟩ := h.spent g p hp
  refine hg b ?_
  rw [hb, ← hk]
  exact k.target_mem_writes

omit [DecidableEq τ] [DecidableEq η] in
theorem Inv.usable (h : Inv s) {g : η} (hg : ∀ b, g ∉ (s.pc b).writes) (hlive : s.handle g ≠ .gone) :
    (s.handle g).usable = true := by
  cases hh : s.handle g with
  | gone => exact absurd hh hlive
  | empty | counted p => rfl
  | spent p => exact absurd hh (h.ne_spent hg p)

theorem Handle.eq_counted {handle : Handle} {p : ℕ} (h : handle.usable = true)
    (hp : handle.value = some p) : handle = .counted p := by
  cases handle <;> simp_all [Handle.usable, Handle.value]

theorem Handle.eq_empty {handle : Handle} (h : handle.usable = true) (hnone : handle.value = none) :
    handle = .empty := by
  cases handle <;> simp_all [Handle.usable, Handle.value]

end References

/-! ## The steps -/

theorem Inv.knownAt {s : State τ η} (h : Inv s) {a : τ} {pc : Pc η} (hpc : s.pc a = pc) :
    pc.At s.handle :=
  hpc ▸ h.known a

section Steps

variable [DecidableEq τ] [DecidableEq η] {s : State τ η} {a : τ} {p : ℕ}

theorem Inv.copying (h : Inv s) {dst src : η} (hpc : s.pc a = .copying dst src p) :
    Inv (((s.setRefs p (s.refs p + 1)).setHandle dst (.counted p)).setPc a .idle) := by
  have hknown := h.knownAt hpc
  have hdst : s.holder (.inl dst) = none := by simp [State.holder, hknown.1, Handle.counts]
  have hsrc : s.holder (.inl src) = some p := by simp [State.holder, hknown.2, Handle.counts]
  have hwrites : (s.pc a).writes = [dst] := by rw [hpc, Pc.writes]
  have hself : (((s.setRefs p (s.refs p + 1)).setHandle dst (.counted p)).setPc a .idle).pc a = .idle :=
    Function.update_self ..
  refine h.of_step (a := a) (W := [dst]) ?_ ?_ ?_ (by simp [hwrites]) ?_ ?_ ?_ ?_ ?_
  · exact fun b hb => Function.update_of_ne hb ..
  · intro g hg
    exact Function.update_of_ne (by simpa using hg) ..
  · exact fun b hb g hg => h.exclusive a b (Ne.symm hb) g (hwrites ▸ hg)
  · rw [hself]
    nofun
  · rw [hself]
    nofun
  · rw [hself]
    trivial
  · intro g hg q hq
    obtain rfl : g = dst := by simpa using hg
    simp [State.setPc, State.setHandle] at hq
  · have hadopt := h.counted.adopt hdst hsrc
    have hextra : (s.pc a).extra = none := by simp [hpc, Pc.extra]
    have hholder : Function.update (Function.update s.holder (.inl dst) (some p)) (.inr a) none =
        Function.update s.holder (.inl dst) (some p) := by
      rw [Function.update_eq_self_iff, Function.update_of_ne (by simp)]
      exact hextra.symm
    have howes : Function.update s.owes a none = s.owes :=
      Function.update_eq_self_iff.mpr (congrArg Pc.owes hpc).symm
    rw [holder_setPc, holder_setHandle, owes_setPc]
    change Counted (Function.update (Function.update s.holder _ (some p)) _ none) _
      (Function.update s.owes a none) _ _
    rw [hholder, howes]
    exact hadopt

theorem Inv.assigning (h : Inv s) {dst src : η} (hpc : s.pc a = .assigning dst src p) :
    Inv ((s.setRefs p (s.refs p + 1)).setPc a (.dropping (.assign dst src (some p)))) := by
  have hknown := h.knownAt hpc
  have hactor : s.holder (.inr a) = none := by simp [State.holder, hpc, Pc.extra]
  have hsrc : s.holder (.inl src) = some p := by simp [State.holder, hknown.2, Handle.counts]
  have hwrites : (s.pc a).writes = [dst] := by rw [hpc, Pc.writes]
  have hself : ((s.setRefs p (s.refs p + 1)).setPc a (.dropping (.assign dst src (some p)))).pc a =
      .dropping (.assign dst src (some p)) := Function.update_self ..
  refine h.of_step (a := a) (W := [dst]) ?_ (fun _ _ => rfl) ?_ (by simp [hwrites]) ?_ ?_ ?_ ?_ ?_
  · exact fun b hb => Function.update_of_ne hb ..
  · exact fun b hb g hg => h.exclusive a b (Ne.symm hb) g (hwrites ▸ hg)
  · rw [hself]
    simp [Pc.writes, After.writes]
  · rw [hself]
    intro b hb g hg hw
    refine (h.exclusive b a hb g hw).2 ?_
    rw [hpc]
    exact hg
  · rw [hself]
    exact hknown
  · intro g hg q hq
    obtain rfl : g = dst := by simpa using hg
    have husable := hknown.1
    have hspent : s.handle g = .spent q := hq
    simp [hspent, Handle.usable] at husable
  · have hadopt := h.counted.adopt hactor hsrc
    have howes : Function.update s.owes a none = s.owes :=
      Function.update_eq_self_iff.mpr (congrArg Pc.owes hpc).symm
    rw [holder_setPc, owes_setPc]
    change Counted (Function.update s.holder _ (some p)) _ (Function.update s.owes a none) _ _
    rw [howes]
    exact hadopt

/-- The last reference goes: nobody else uses the handle, and a self-assignment has another one. -/
theorem Inv.unrefLast (h : Inv s) {k : After η} (hpc : s.pc a = .dropping k)
    (hhandle : s.handle k.target = .counted p) (hlast : s.refs p = 1) :
    Inv (((s.setRefs p 0).setHandle k.target (.spent p)).setPc a (.deleting k p)) := by
  have hknown := h.knownAt hpc
  have htarget : s.holder (.inl k.target) = some p := by
    simp [State.holder, hhandle, Handle.counts]
  have hextra : (s.pc a).extra = k.extra := by rw [hpc, Pc.extra]
  have hkeep : k.At (Function.update s.handle k.target (.spent p)) := by
    cases k with
    | assign dst src extra =>
      have hsrc : s.handle src = .ofValue extra := hknown.2
      have hne : src ≠ dst := by
        rintro rfl
        have hcounted : s.handle src = .counted p := hhandle
        have hextra' : extra = some p := by
          rw [← Handle.counts_ofValue extra, ← hsrc, hcounted, Handle.counts]
        have hactor : s.holder (.inr a) = some p := hextra.trans hextra'
        simpa using h.counted.only hlast htarget hactor
      exact (Function.update_of_ne hne ..).trans hsrc
    | moveAssign dst src =>
      refine ⟨hknown.2.1, ?_⟩
      have hne : src ≠ dst := Ne.symm hknown.2.1
      rw [After.target, Function.update_of_ne hne]
      exact hknown.2.2
    | clear | destroy => trivial
  have hwrites : (s.pc a).writes = k.writes := by rw [hpc, Pc.writes]
  have hself : (((s.setRefs p 0).setHandle k.target (.spent p)).setPc a (.deleting k p)).pc a =
      .deleting k p := Function.update_self ..
  refine h.of_step (a := a) (W := k.writes) ?_ ?_ ?_ ?_ ?_ ?_ ?_ ?_ ?_
  · exact fun b hb => Function.update_of_ne hb ..
  · intro g hg
    refine Function.update_of_ne ?_ ..
    rintro rfl
    exact hg k.target_mem_writes
  · exact fun b hb g hg => h.exclusive a b (Ne.symm hb) g (hwrites ▸ hg)
  · exact fun g hg => hwrites ▸ hg
  · rw [hself]
    exact fun g hg => hg
  · rw [hself]
    intro b hb g hg hw
    refine (h.exclusive b a hb g hw).2 ?_
    rw [hpc]
    exact hg
  · rw [hself]
    exact ⟨Function.update_self .., hkeep⟩
  · intro g hg q hq
    by_cases hgt : g = k.target
    · obtain rfl : p = q := by simpa [State.setPc, State.setHandle, hgt] using hq
      exact ⟨k, hself, hgt.symm⟩
    · have hq' : s.handle g = .spent q := by
        simpa [State.setPc, State.setHandle, State.setRefs, hgt] using hq
      obtain ⟨b, k', hb, hk'⟩ := h.spent g q hq'
      have hba : b = a := by
        by_contra hne
        refine (h.exclusive a b (Ne.symm hne) g (hwrites ▸ hg)).1 ?_
        rw [hb, ← hk']
        exact k'.target_mem_writes
      rw [hba, hpc] at hb
      cases hb
  · have hrelease := h.counted.releaseLast (a := a) htarget hlast (congrArg Pc.owes hpc)
    have hholder : Function.update (Function.update s.holder (.inl k.target) none) (.inr a) k.extra =
        Function.update s.holder (.inl k.target) none := by
      rw [Function.update_eq_self_iff, Function.update_of_ne (by simp)]
      exact hextra.symm
    rw [holder_setPc, holder_setHandle, owes_setPc]
    change Counted (Function.update (Function.update s.holder _ none) _ k.extra) _ _ _ _
    rw [hholder]
    exact hrelease

theorem Inv.unref (h : Inv s) {k : After η} (hpc : s.pc a = .dropping k) : Inv (s.unref a k) := by
  have hknown := h.knownAt hpc
  have howes : Function.update s.owes a none = s.owes :=
    Function.update_eq_self_iff.mpr (congrArg Pc.owes hpc).symm
  unfold State.unref
  cases hvalue : (s.handle k.target).value with
  | none =>
    have hempty := Handle.eq_empty hknown.1 hvalue
    refine h.finish rfl rfl (.inl hpc) ?_
    rw [howes, Function.update_eq_self_iff.mpr]
    · exact h.counted
    · simp [State.holder, hempty, Handle.counts]
  | some p =>
    have hhandle := Handle.eq_counted hknown.1 hvalue
    dsimp only
    split_ifs with hlast
    · exact h.unrefLast hpc hhandle hlast
    · refine h.finish (t := s.setRefs p (s.refs p - 1)) rfl rfl (.inl hpc) ?_
      have hrelease := h.counted.release (t := .inl k.target)
        (by simp [State.holder, hhandle, Handle.counts]) hlast
      change Counted (Function.update s.holder _ none) _ (Function.update s.owes a none) _ _
      rw [howes]
      exact hrelease

theorem Inv.deleting (h : Inv s) {k : After η} (hpc : s.pc a = .deleting k p) :
    Inv ((s.delete p).finish a k) := by
  have hknown := h.knownAt hpc
  refine h.finish rfl rfl (.inr ⟨p, hpc⟩) ?_
  have hdelete := h.counted.delete (a := a) (congrArg Pc.owes hpc)
  have hholder : Function.update s.holder (.inl k.target) none = s.holder := by
    rw [Function.update_eq_self_iff]
    simp [State.holder, hknown.1, Handle.counts]
  change Counted (Function.update s.holder _ none) _ (Function.update s.owes a none) _ _
  rw [hholder]
  exact hdelete

omit [DecidableEq η] in
/-- A step of a resolve or an await. -/
theorem Inv.use (h : Inv s) {t : State τ η} {pc : Pc η} (hpc : t.pc = Function.update s.pc a pc)
    (hhandle : t.handle = s.handle) (hrefs : t.refs = s.refs) (hdeleted : t.deleted = s.deleted)
    (hnext : t.nextPromise = s.nextPromise) (hold : (s.pc a).writes = [])
    (hwrites : pc.writes = []) (hreads : ∀ g ∈ pc.reads, g ∈ (s.pc a).reads)
    (hknown : pc.At s.handle) (hextra : pc.extra = (s.pc a).extra) (howes : pc.owes = (s.pc a).owes) :
    Inv t := by
  refine h.of_same hpc hhandle hrefs hdeleted hnext (by simp [hold]) ?_ ?_ ?_ hknown hextra howes
  · simp [hwrites]
  · intro b hb g hg hw
    exact (h.exclusive b a hb g hw).2 (hreads g hg)
  · simp [hwrites]

theorem Inv.nextStep {t : State τ η} (h : Inv s) (hstep : nextStep s a = some t) : Inv t := by
  have hknown := h.known a
  unfold Promise.nextStep at hstep
  cases hpc : s.pc a with
  | idle => simp [hpc] at hstep
  | copying dst src p =>
    obtain rfl : _ = t := by simpa [hpc] using hstep
    exact h.copying hpc
  | assigning dst src p =>
    obtain rfl : _ = t := by simpa [hpc] using hstep
    exact h.assigning hpc
  | dropping k =>
    obtain rfl : _ = t := by simpa [hpc] using hstep
    exact h.unref hpc
  | deleting k p =>
    obtain rfl : _ = t := by simpa [hpc] using hstep
    exact h.deleting hpc
  | resolving g p payload =>
    rw [hpc] at hknown
    simp only [hpc] at hstep
    split_ifs at hstep <;> obtain rfl := Option.some.inj hstep
    · exact h.use rfl rfl rfl rfl rfl (by rw [hpc]; rfl) rfl nofun trivial (by rw [hpc]; rfl)
        (by rw [hpc]; rfl)
    · exact h.use rfl rfl rfl rfl rfl (by rw [hpc]; rfl) rfl (fun g hg => by rwa [hpc]) hknown
        (by rw [hpc]; rfl) (by rw [hpc]; rfl)
  | giving g p payload =>
    obtain rfl : _ = t := by simpa [hpc] using hstep
    exact h.use rfl rfl rfl rfl rfl (by rw [hpc]; rfl) rfl nofun trivial (by rw [hpc]; rfl)
      (by rw [hpc]; rfl)
  | taking g p =>
    rw [hpc] at hknown
    simp only [hpc] at hstep
    split_ifs at hstep
    obtain rfl := Option.some.inj hstep
    exact h.use rfl rfl rfl rfl rfl (by rw [hpc]; rfl) rfl (fun g hg => by rwa [hpc]) hknown
      (by rw [hpc]; rfl) (by rw [hpc]; rfl)
  | masked g p =>
    rw [hpc] at hknown
    simp only [hpc] at hstep
    obtain rfl := Option.some.inj hstep
    exact h.use rfl rfl rfl rfl rfl (by rw [hpc]; rfl) rfl (fun g hg => by rwa [hpc]) hknown
      (by rw [hpc]; rfl) (by rw [hpc]; rfl)
  | putBack g p payload =>
    obtain rfl : _ = t := by simpa [hpc] using hstep
    exact h.use rfl rfl rfl rfl rfl (by rw [hpc]; rfl) rfl nofun trivial (by rw [hpc]; rfl)
      (by rw [hpc]; rfl)

variable {act : Act τ η}

omit [DecidableEq η] in
/-- An actor begins an operation. -/
theorem Inv.enter (h : Inv s) (hholding : Holding s act) (hidle : s.pc a = .idle) {t : State τ η}
    {pc : Pc η} (hpc : t.pc = Function.update s.pc a pc) (hhandle : t.handle = s.handle)
    (hrefs : t.refs = s.refs) (hdeleted : t.deleted = s.deleted)
    (hnext : t.nextPromise = s.nextPromise) (hwrites : ∀ g ∈ pc.writes, g ∈ act.writes)
    (hreads : ∀ g ∈ pc.reads, g ∈ act.reads) (hknown : pc.At s.handle) (hextra : pc.extra = none)
    (howes : pc.owes = none) : Inv t := by
  refine h.of_same hpc hhandle hrefs hdeleted hnext ?_ ?_ ?_ ?_ hknown ?_ ?_
  · rw [hidle]
    nofun
  · exact fun b _ g hg => (hholding b).1 g (hwrites g hg)
  · exact fun b _ g hg => (hholding b).2.1 g (hreads g hg)
  · exact fun g hg => h.ne_spent fun b => ((hholding b).1 g (hwrites g hg)).1
  · rw [hextra, hidle]
    rfl
  · rw [howes, hidle]
    rfl

omit [DecidableEq τ] [DecidableEq η] in
/-- An operation of one step on one handle that it may write. -/
theorem Inv.instantAt (h : Inv s) {t : State τ η} (hholding : Holding s act) (hidle : s.pc a = .idle)
    {g : η} (hg : g ∈ act.writes) (hpc : t.pc = s.pc)
    (hhandle : ∀ g', g' ≠ g → t.handle g' = s.handle g') (hspent : ∀ p, t.handle g ≠ .spent p)
    (hcounted : Counted t.holder t.refs t.owes t.deleted t.nextPromise) : Inv t := by
  refine h.instant (W := [g]) hidle hpc ?_ ?_ ?_ hcounted
  · exact fun g' hg' => hhandle g' (by simpa using hg')
  · intro b g' hg'
    obtain rfl : g' = g := by simpa using hg'
    exact (hholding b).1 g' hg
  · intro g' hg' p
    obtain rfl : g' = g := by simpa using hg'
    exact hspent p

/-- A handle that is not there gets a pointer. -/
theorem Inv.construct (h : Inv s) (hholding : Holding s act) (hidle : s.pc a = .idle) {g : η}
    (hg : g ∈ act.writes) (hgone : s.handle g = .gone) : Inv (s.setHandle g .empty) := by
  refine h.instantAt hholding hidle hg rfl (fun g' hne => Function.update_of_ne hne ..)
    (fun p => by simp [State.setHandle]) ?_
  rw [holder_setHandle, Function.update_eq_self_iff.mpr]
  · exact h.counted
  · simp [State.holder, hgone, Handle.counts]

theorem Inv.make (h : Inv s) (hholding : Holding s act) (hidle : s.pc a = .idle) {g : η}
    (hg : g ∈ act.writes) (hgone : s.handle g = .gone) (ok : Bool) :
    Inv { (s.setRefs s.nextPromise 1).setHandle g (.counted s.nextPromise) with
      cell := Function.update s.cell s.nextPromise (.fresh ok)
      nextPromise := s.nextPromise + 1 } := by
  refine h.instantAt hholding hidle hg rfl (fun g' hne => Function.update_of_ne hne ..)
    (fun p => by simp [State.setHandle]) ?_
  have hcreate := h.counted.create (t := .inl g) (by simp [State.holder, hgone, Handle.counts])
  have hholder := holder_setHandle s g (.counted s.nextPromise)
  rw [Handle.counts] at hholder
  rw [← hholder] at hcreate
  exact hcreate

theorem Inv.moveTo (h : Inv s) (hholding : Holding s act) (hidle : s.pc a = .idle) {dst src : η}
    (hwrites : act.writes = [dst, src]) (hdst : s.handle dst = .gone) (hsrc : s.handle src ≠ .gone) :
    Inv (s.moveTo dst src) := by
  have hfree : ∀ b, ∀ g ∈ [dst, src], g ∉ (s.pc b).writes ∧ g ∉ (s.pc b).reads := by
    intro b g hg
    exact (hholding b).1 g (hwrites ▸ hg)
  have hne : dst ≠ src := by
    rintro rfl
    exact hsrc hdst
  have hne' : (.inl src : η ⊕ τ) ≠ .inl dst := by simpa using Ne.symm hne
  have husable := h.usable (fun b => (hfree b src (by simp)).1) hsrc
  refine h.instant (W := [dst, src]) hidle rfl ?_ hfree ?_ ?_
  · intro g hg
    obtain ⟨hgd, hgs⟩ : g ≠ dst ∧ g ≠ src := by simpa using hg
    simp [State.moveTo, State.setHandle, hgd, hgs]
  · intro g hg p
    by_cases hgs : g = src
    · simp [State.moveTo, State.setHandle, hgs]
    · obtain rfl : g = dst := by simpa [hgs] using hg
      simp [State.moveTo, State.setHandle, hgs, Handle.ofValue_ne_spent]
  · have hpass := h.counted.pass (t := .inl src) (u := .inl dst)
      (by simp [State.holder, hdst, Handle.counts]) hne'
    rw [Function.update_comm hne'] at hpass
    dsimp only [State.moveTo]
    rw [holder_setHandle, holder_setHandle, Handle.ofValue_of_usable husable]
    exact hpass

theorem Inv.beginStep {t : State τ η} (h : Inv s) (hholding : Holding s act)
    (hidle : s.pc act.actor = .idle) (hstep : beginStep s act = some t) : Inv t := by
  cases act with
  | next b => simp [Promise.beginStep] at hstep
  | construct b g =>
    dsimp only [Promise.beginStep] at hstep
    split_ifs at hstep with hgone
    obtain rfl := Option.some.inj hstep
    exact h.construct hholding hidle List.mem_cons_self hgone
  | make b g ok =>
    dsimp only [Promise.beginStep] at hstep
    split_ifs at hstep with hgone
    obtain rfl := Option.some.inj hstep
    exact h.make hholding hidle List.mem_cons_self hgone ok
  | copy b dst src =>
    dsimp only [Promise.beginStep] at hstep
    split_ifs at hstep with hlive
    have husable := h.usable (fun c => (hholding c).2.1 src List.mem_cons_self) hlive.2
    split at hstep <;> obtain rfl := Option.some.inj hstep
    · next p hp =>
      exact h.enter hholding hidle rfl rfl rfl rfl rfl (fun g hg => hg) (fun g hg => hg)
        ⟨hlive.1, Handle.eq_counted husable hp⟩ rfl rfl
    · exact h.construct hholding hidle List.mem_cons_self hlive.1
  | move b dst src | take b dst src =>
    dsimp only [Promise.beginStep] at hstep
    split_ifs at hstep with hlive
    obtain rfl := Option.some.inj hstep
    exact h.moveTo hholding hidle rfl hlive.1 hlive.2
  | assign b dst src =>
    dsimp only [Promise.beginStep] at hstep
    split_ifs at hstep with hlive
    have hdst := h.usable (fun c => ((hholding c).1 dst List.mem_cons_self).1) hlive.1
    have husable := h.usable (fun c => (hholding c).2.1 src List.mem_cons_self) hlive.2
    split at hstep <;> obtain rfl := Option.some.inj hstep
    · next p hp =>
      exact h.enter hholding hidle rfl rfl rfl rfl rfl (fun g hg => hg) (fun g hg => hg)
        ⟨hdst, Handle.eq_counted husable hp⟩ rfl rfl
    · next hnone =>
      exact h.enter hholding hidle rfl rfl rfl rfl rfl (fun g hg => hg) (fun g hg => hg)
        ⟨hdst, Handle.eq_empty husable hnone⟩ rfl rfl
  | moveAssign b dst src =>
    dsimp only [Promise.beginStep] at hstep
    split_ifs at hstep with hlive hsame <;> obtain rfl := Option.some.inj hstep
    · exact h
    · have hdst := h.usable (fun c => ((hholding c).1 dst (by simp [Act.writes])).1) hlive.1
      have hsrc := h.usable (fun c => ((hholding c).1 src (by simp [Act.writes])).1) hlive.2
      exact h.enter hholding hidle rfl rfl rfl rfl rfl (fun g hg => hg) nofun
        ⟨hdst, hsame, hsrc⟩ rfl rfl
  | clear b g | destroy b g =>
    dsimp only [Promise.beginStep] at hstep
    split_ifs at hstep with hlive
    obtain rfl := Option.some.inj hstep
    have husable := h.usable (fun c => ((hholding c).1 g List.mem_cons_self).1) hlive
    exact h.enter hholding hidle rfl rfl rfl rfl rfl (fun g hg => hg) nofun ⟨husable, trivial⟩ rfl
      rfl
  | resolve b g hasPayload | resolveFromIsr b g hasPayload =>
    obtain ⟨p, hp, rfl⟩ := Option.map_eq_some_iff.mp hstep
    have husable := h.usable (fun c => (hholding c).2.1 g List.mem_cons_self)
      (fun hgone => by simp [hgone, Handle.value] at hp)
    unfold State.resolve
    split_ifs
    · exact h.enter hholding hidle rfl rfl rfl rfl rfl nofun (fun g hg => hg)
        (Handle.eq_counted husable hp) rfl rfl
    · exact ⟨h.exclusive, h.known, h.spent, h.counted⟩
  | await b g =>
    obtain ⟨p, hp, rfl⟩ := Option.map_eq_some_iff.mp hstep
    have husable := h.usable (fun c => (hholding c).2.1 g List.mem_cons_self)
      (fun hgone => by simp [hgone, Handle.value] at hp)
    split_ifs
    · exact h.enter hholding hidle rfl rfl rfl rfl rfl nofun (fun g hg => hg)
        (Handle.eq_counted husable hp) rfl rfl
    · exact h

end Steps

end BekenCam.Promise
