import Mathlib.Tactic

/-!
# Programs over a command signature

A program is a finite tree of commands to an external device. The same tree is
run to completion by a handler, stopped in the middle of a command, or advanced
one command at a time next to another program (see `TwoTasks`). The signature `C` and the answer
types `R` are arbitrary, and so is the device state.
-/
namespace BekenCam

/-- Either a finished result, or one command with a continuation of its answer. -/
inductive Prog (C : Type) (R : C → Type) (α : Type) : Type
  | ret (a : α)
  | call (c : C) (k : R c → Prog C R α)

/-- What the device answers to a command, and its state afterwards. -/
abbrev Handler (C : Type) (R : C → Type) (σ : Type) := (c : C) → σ → R c × σ

namespace Prog

variable {C : Type} {R : C → Type} {σ α β : Type}

def bind : Prog C R α → (α → Prog C R β) → Prog C R β
  | ret a, f => f a
  | call c k, f => call c (fun r => (k r).bind f)

instance : Monad (Prog C R) where
  pure := ret
  bind := bind

/-- The program that issues one command and returns its answer. -/
def command (c : C) : Prog C R (R c) := call c ret

@[simp] theorem pure_eq_ret (a : α) : (pure a : Prog C R α) = ret a := rfl

@[simp] theorem ret_bind (a : α) (f : α → Prog C R β) : (ret a >>= f) = f a := rfl

@[simp] theorem call_bind (c : C) (k : R c → Prog C R α) (f : α → Prog C R β) :
    (call c k >>= f) = call c (fun r => k r >>= f) := rfl

@[simp] theorem command_bind (c : C) (f : R c → Prog C R β) :
    (command c >>= f) = call c f := rfl

theorem bind_assoc {γ : Type} (m : Prog C R α) (f : α → Prog C R β) (g : β → Prog C R γ) :
    (m >>= f) >>= g = m >>= fun a => f a >>= g := by
  induction m with
  | ret a => rfl
  | call c k ih =>
    simp only [call_bind]
    congr 1
    funext r
    exact ih r

theorem bind_ret (m : Prog C R α) : m >>= ret = m := by
  induction m with
  | ret a => rfl
  | call c k ih =>
    simp only [call_bind]
    congr 1
    funext r
    exact ih r

/-- Run to completion under a handler. -/
def run (h : Handler C R σ) : Prog C R α → σ → α × σ
  | ret a, s => (a, s)
  | call c k, s => run h (k (h c s).1) (h c s).2

@[simp] theorem run_ret (h : Handler C R σ) (a : α) (s : σ) : run h (ret a) s = (a, s) := rfl

@[simp] theorem run_call (h : Handler C R σ) (c : C) (k : R c → Prog C R α) (s : σ) :
    run h (call c k) s = run h (k (h c s).1) (h c s).2 := rfl

@[simp] theorem run_bind (h : Handler C R σ) (m : Prog C R α) (f : α → Prog C R β) (s : σ) :
    run h (m >>= f) s = run h (f (run h m s).1) (run h m s).2 := by
  induction m generalizing s with
  | ret a => rfl
  | call c k ih => exact ih _ _

/-- The commands a run issues, in order. -/
def calls (h : Handler C R σ) : Prog C R α → σ → List C
  | ret _, _ => []
  | call c k, s => c :: calls h (k (h c s).1) (h c s).2

@[simp] theorem calls_ret (h : Handler C R σ) (a : α) (s : σ) :
    calls h (ret a : Prog C R α) s = [] := rfl

@[simp] theorem calls_call (h : Handler C R σ) (c : C) (k : R c → Prog C R α) (s : σ) :
    calls h (call c k) s = c :: calls h (k (h c s).1) (h c s).2 := rfl

@[simp] theorem calls_bind (h : Handler C R σ) (m : Prog C R α) (f : α → Prog C R β) (s : σ) :
    calls h (m >>= f) s = calls h m s ++ calls h (f (run h m s).1) (run h m s).2 := by
  induction m generalizing s with
  | ret a => rfl
  | call c k ih => simp only [call_bind, calls_call, run_call, ih, List.cons_append]

/-! ## Runs with any answers -/

/-- `Performs m es a`: with some answers of the device, `m` issues the commands in `es`, gets
the answers in `es`, and returns `a`. -/
inductive Performs : Prog C R α → List (Σ c, R c) → α → Prop
  | ret (a : α) : Performs (ret a) [] a
  | call (c : C) (k : R c → Prog C R α) (r : R c) (es : List (Σ c, R c)) (a : α)
      (hrest : Performs (k r) es a) : Performs (call c k) (⟨c, r⟩ :: es) a

theorem performs_ret {a b : α} {es : List (Σ c, R c)} (h : Performs (ret a : Prog C R α) es b) :
    es = [] ∧ b = a := by
  cases h
  exact ⟨rfl, rfl⟩

theorem performs_call {c : C} {k : R c → Prog C R α} {es : List (Σ c, R c)} {a : α}
    (h : Performs (call c k) es a) : ∃ r fs, es = ⟨c, r⟩ :: fs ∧ Performs (k r) fs a := by
  cases h with
  | call _ _ r fs _ hrest => exact ⟨r, fs, rfl, hrest⟩

theorem performs_command {c : C} {f : R c → Prog C R α} {es : List (Σ c, R c)} {a : α}
    (h : Performs (command c >>= f) es a) : ∃ r fs, es = ⟨c, r⟩ :: fs ∧ Performs (f r) fs a :=
  performs_call h

theorem performs_ite {p : Prop} [Decidable p] {m n : Prog C R α} {es : List (Σ c, R c)} {a : α}
    (h : Performs (if p then m else n) es a) : p ∧ Performs m es a ∨ ¬p ∧ Performs n es a := by
  by_cases hp : p
  · rw [if_pos hp] at h
    exact .inl ⟨hp, h⟩
  · rw [if_neg hp] at h
    exact .inr ⟨hp, h⟩

theorem performs_bind {m : Prog C R α} {f : α → Prog C R β} {es : List (Σ c, R c)} {b : β}
    (h : Performs (m >>= f) es b) :
    ∃ a fs gs, es = fs ++ gs ∧ Performs m fs a ∧ Performs (f a) gs b := by
  induction m generalizing es with
  | ret a => exact ⟨a, [], es, rfl, .ret a, h⟩
  | call c k ih =>
    obtain ⟨r, fs, rfl, hrest⟩ := performs_call h
    obtain ⟨a, gs, hs, rfl, hm, hf⟩ := ih r hrest
    exact ⟨a, ⟨c, r⟩ :: gs, hs, rfl, .call c k r gs a hm, hf⟩

theorem Performs.bind {m : Prog C R α} {f : α → Prog C R β} {fs gs : List (Σ c, R c)} {a : α}
    {b : β} (hm : Performs m fs a) (hf : Performs (f a) gs b) :
    Performs (m >>= f) (fs ++ gs) b := by
  induction hm with
  | ret a => exact hf
  | call c k r es a hrest ih => exact .call c _ r _ b (ih hf)

theorem performs_bind_pure {m : Prog C R α} {f : α → β} {es : List (Σ c, R c)} {b : β}
    (h : Performs (m >>= fun a => pure (f a)) es b) : ∃ a, Performs m es a ∧ b = f a := by
  obtain ⟨a, fs, gs, rfl, hm, hret⟩ := performs_bind h
  obtain ⟨rfl, rfl⟩ := performs_ret hret
  exact ⟨a, by simpa using hm, rfl⟩

/-- The commands of a run under a handler, each with its answer. -/
def events (h : Handler C R σ) : Prog C R α → σ → List (Σ c, R c)
  | ret _, _ => []
  | call c k, s => ⟨c, (h c s).1⟩ :: events h (k (h c s).1) (h c s).2

@[simp] theorem events_ret (h : Handler C R σ) (a : α) (s : σ) :
    events h (ret a : Prog C R α) s = [] := rfl

@[simp] theorem events_call (h : Handler C R σ) (c : C) (k : R c → Prog C R α) (s : σ) :
    events h (call c k) s = ⟨c, (h c s).1⟩ :: events h (k (h c s).1) (h c s).2 := rfl

/-- A run without commands does not touch the device. -/
theorem run_snd_of_events_nil {h : Handler C R σ} {m : Prog C R α} {s : σ}
    (hnil : events h m s = []) : (run h m s).2 = s := by
  cases m with
  | ret a => rfl
  | call c k => simp at hnil

theorem performs_events (h : Handler C R σ) (m : Prog C R α) (s : σ) :
    Performs m (events h m s) (run h m s).1 := by
  induction m generalizing s with
  | ret a => exact .ret a
  | call c k ih => exact .call c k _ _ _ (ih _ _)

/-! ## Programs restricted to some commands -/

/-- Every command the program can issue, whatever the answers, satisfies `P`. -/
def Only (P : C → Prop) : Prog C R α → Prop
  | ret _ => True
  | call c k => P c ∧ ∀ r, (k r).Only P

@[simp] theorem only_ret (P : C → Prop) (a : α) : Only P (ret a : Prog C R α) := trivial

@[simp] theorem only_call (P : C → Prop) (c : C) (k : R c → Prog C R α) :
    Only P (call c k) ↔ P c ∧ ∀ r, Only P (k r) := Iff.rfl

theorem only_pure {P : C → Prop} (a : α) : Only P (pure a : Prog C R α) := trivial

theorem Only.mono {P P' : C → Prop} (hP : ∀ c, P c → P' c) {m : Prog C R α} (hm : Only P m) :
    Only P' m := by
  induction m with
  | ret a => trivial
  | call c k ih => exact ⟨hP c hm.1, fun r => ih r (hm.2 r)⟩

theorem only_bind {P : C → Prop} {m : Prog C R α} {f : α → Prog C R β}
    (hm : Only P m) (hf : ∀ a, Only P (f a)) : Only P (m >>= f) := by
  induction m with
  | ret a => exact hf a
  | call c k ih => exact ⟨hm.1, fun r => ih r (hm.2 r)⟩

theorem only_ite {P : C → Prop} {c : Prop} [Decidable c] {m m' : Prog C R α} (hm : Only P m)
    (hm' : Only P m') : Only P (if c then m else m') := by
  split_ifs <;> assumption

/-- Commands that leave the device alone make programs that leave it alone. -/
theorem run_snd_of_only {P : C → Prop} {h : Handler C R σ} (hP : ∀ c, P c → ∀ s, (h c s).2 = s)
    {m : Prog C R α} (hm : Only P m) (s : σ) : (run h m s).2 = s := by
  induction m generalizing s with
  | ret a => rfl
  | call c k ih => rw [run_call, hP c hm.1 s]; exact ih _ (hm.2 _) s

theorem calls_of_only {P : C → Prop} (h : Handler C R σ) {m : Prog C R α} (hm : Only P m)
    (s : σ) : ∀ c ∈ calls h m s, P c := by
  induction m generalizing s with
  | ret a => simp
  | call c k ih =>
    intro d hd
    rcases List.mem_cons.mp hd with rfl | hd
    · exact hm.1
    · exact ih _ (hm.2 _) _ d hd

/-! ## Runs that are cut short -/

/-- `Interrupted h part m s done s'`: the run of `m` from `s` stops for good after
the commands `done`, possibly inside the next one, and leaves the device in `s'`.
`part c s s'` says what a command `c` stopped in its middle can leave behind. -/
inductive Interrupted (h : Handler C R σ) (part : C → σ → σ → Prop) :
    Prog C R α → σ → List C → σ → Prop
  | between (m : Prog C R α) (s : σ) : Interrupted h part m s [] s
  | inside (c : C) (k : R c → Prog C R α) (s s' : σ) (hpart : part c s s') :
      Interrupted h part (call c k) s [] s'
  | after (c : C) (k : R c → Prog C R α) (s : σ) (cs : List C) (s' : σ)
      (hrest : Interrupted h part (k (h c s).1) (h c s).2 cs s') :
      Interrupted h part (call c k) s (c :: cs) s'

variable {h : Handler C R σ} {part : C → σ → σ → Prop}

theorem interrupted_ret {a : α} {s s' : σ} {cs : List C}
    (hi : Interrupted h part (ret a : Prog C R α) s cs s') : cs = [] ∧ s' = s := by
  cases hi with
  | between => exact ⟨rfl, rfl⟩

theorem interrupted_call {c : C} {k : R c → Prog C R α} {s s' : σ} {cs : List C}
    (hi : Interrupted h part (call c k) s cs s') :
    (cs = [] ∧ (s' = s ∨ part c s s')) ∨
      ∃ ds, cs = c :: ds ∧ Interrupted h part (k (h c s).1) (h c s).2 ds s' := by
  cases hi with
  | between => exact .inl ⟨rfl, .inl rfl⟩
  | inside _ _ _ _ hpart => exact .inl ⟨rfl, .inr hpart⟩
  | after _ _ _ ds _ hrest => exact .inr ⟨ds, rfl, hrest⟩

/-- A sequence is stopped inside its first part, or inside its second part after
the whole first part has run. -/
theorem interrupted_bind {m : Prog C R α} {f : α → Prog C R β} {s s' : σ} {cs : List C}
    (hi : Interrupted h part (m >>= f) s cs s') :
    Interrupted h part m s cs s' ∨
      ∃ ds, cs = calls h m s ++ ds ∧
        Interrupted h part (f (run h m s).1) (run h m s).2 ds s' := by
  induction m generalizing s cs with
  | ret a => exact .inr ⟨cs, rfl, hi⟩
  | call c k ih =>
    rcases interrupted_call hi with ⟨rfl, rfl | hpart⟩ | ⟨ds, rfl, hrest⟩
    · exact .inl (.between _ _)
    · exact .inl (.inside c k s s' hpart)
    · rcases ih _ hrest with hm | ⟨es, rfl, hf⟩
      · exact .inl (.after c k s ds s' hm)
      · exact .inr ⟨es, rfl, hf⟩

/-- A sequence can be stopped wherever its second part can. -/
theorem Interrupted.bind_right {m : Prog C R α} {f : α → Prog C R β} {s s' : σ} {cs : List C}
    (hi : Interrupted h part (f (run h m s).1) (run h m s).2 cs s') :
    Interrupted h part (m >>= f) s (calls h m s ++ cs) s' := by
  induction m generalizing s with
  | ret a => exact hi
  | call c k ih => exact .after c _ s _ s' (ih _ hi)

/-- Stopping a program that only issues harmless commands is harmless. -/
theorem interrupted_of_only {P : C → Prop} (hP : ∀ c, P c → ∀ s, (h c s).2 = s)
    (hpart : ∀ c, P c → ∀ s s', part c s s' → s' = s) {m : Prog C R α} (hm : Only P m)
    {s s' : σ} {cs : List C} (hi : Interrupted h part m s cs s') :
    s' = s ∧ ∀ c ∈ cs, P c := by
  induction m generalizing s cs with
  | ret a => obtain ⟨rfl, rfl⟩ := interrupted_ret hi; simp
  | call c k ih =>
    rcases interrupted_call hi with ⟨rfl, rfl | hp⟩ | ⟨ds, rfl, hrest⟩
    · simp
    · exact ⟨hpart c hm.1 s s' hp, by simp⟩
    · rw [hP c hm.1 s] at hrest
      obtain ⟨hs, hds⟩ := ih _ (hm.2 _) hrest
      exact ⟨hs, by simpa using ⟨hm.1, hds⟩⟩

end Prog
end BekenCam
