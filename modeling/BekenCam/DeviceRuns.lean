import BekenCam.CommandProgram

/-!
# Devices known by their answers

A device as a relation: which answers it may give to a command in a state, and in which state
it then is. A run against it is a list of commands with answers that the program performs and
the device can take. A program may also be carried out by another one, command by command,
which keeps a state of its own (`interpret`).
-/
namespace BekenCam

/-- `dev c s r s'`: to `c` in `s` the answer may be `r`, with `s'` afterwards. -/
abbrev Device (C : Type) (R : C → Type) (σ : Type) := (c : C) → σ → R c → σ → Prop

namespace Prog

variable {C : Type} {R : C → Type} {σ α β : Type}

/-- The device can take these commands with these answers one after the other. -/
def Steps (dev : Device C R σ) : σ → List (Σ c, R c) → σ → Prop
  | s, [], s' => s' = s
  | s, e :: es, s' => ∃ s₁, dev e.1 s e.2 s₁ ∧ Steps dev s₁ es s'

variable {dev : Device C R σ}

@[simp] theorem steps_nil {s s' : σ} : Steps dev s [] s' ↔ s' = s := Iff.rfl

@[simp] theorem steps_cons {s s' : σ} {e : Σ c, R c} {es : List (Σ c, R c)} :
    Steps dev s (e :: es) s' ↔ ∃ s₁, dev e.1 s e.2 s₁ ∧ Steps dev s₁ es s' := Iff.rfl

theorem steps_append {s s' : σ} {es fs : List (Σ c, R c)} :
    Steps dev s (es ++ fs) s' ↔ ∃ s₁, Steps dev s es s₁ ∧ Steps dev s₁ fs s' := by
  induction es generalizing s with
  | nil => simp
  | cons e es ih =>
    simp only [List.cons_append, steps_cons, ih]
    constructor
    · rintro ⟨s₁, hdev, s₂, hes, hfs⟩
      exact ⟨s₂, ⟨s₁, hdev, hes⟩, hfs⟩
    · rintro ⟨s₂, ⟨s₁, hdev, hes⟩, hfs⟩
      exact ⟨s₁, hdev, s₂, hes, hfs⟩

theorem mem_of_only {P : C → Prop} {m : Prog C R α} (hm : Only P m) {es : List (Σ c, R c)} {a : α}
    (hrun : Performs m es a) : ∀ e ∈ es, P e.1 := by
  induction hrun with
  | ret a => simp
  | call c k r es a _ ih =>
    intro e he
    rcases List.mem_cons.mp he with rfl | he
    · exact hm.1
    · exact ih (hm.2 r) e he

/-- Commands that leave the device alone, whatever it answers. -/
theorem steps_unchanged {P : C → Prop} (hP : ∀ c, P c → ∀ s r s', dev c s r s' → s' = s)
    {es : List (Σ c, R c)} (hes : ∀ e ∈ es, P e.1) {s s' : σ} (hsteps : Steps dev s es s') :
    s' = s := by
  induction es generalizing s with
  | nil => exact hsteps
  | cons e es ih =>
    obtain ⟨s₁, hdev, hrest⟩ := hsteps
    obtain rfl := hP e.1 (hes e (by simp)) s e.2 s₁ hdev
    exact ih (fun e he => hes e (by simp [he])) hrest

/-- Under the handler `h` the run asks only what it may, where `ok` says what that is. -/
def AsksOnly (h : Handler C R σ) (ok : C → σ → Bool) : Prog C R α → σ → Bool
  | ret _, _ => true
  | call c k, s => ok c s && AsksOnly h ok (k (h c s).1) (h c s).2

/-- A handler that answers as the device does, where it is asked, takes its steps. -/
theorem steps_events {h : Handler C R σ} {ok : C → σ → Bool}
    (hok : ∀ c s, ok c s = true → dev c s (h c s).1 (h c s).2) {m : Prog C R α} {s : σ}
    (hasks : AsksOnly h ok m s = true) : Steps dev s (events h m s) (run h m s).2 := by
  induction m generalizing s with
  | ret a => exact rfl
  | call c k ih =>
    obtain ⟨hc, hrest⟩ := Bool.and_eq_true_iff.mp hasks
    exact ⟨_, hok c s hc, ih _ hrest⟩

/-- The program and the state after `n` commands, or at the end if it comes sooner. -/
def advance (h : Handler C R σ) : ℕ → Prog C R α → σ → Prog C R α × σ
  | 0, m, s => (m, s)
  | _ + 1, ret a, s => (ret a, s)
  | n + 1, call c k, s => advance h n (k (h c s).1) (h c s).2

theorem only_advance {P : C → Prop} (h : Handler C R σ) (n : ℕ) {m : Prog C R α} (hm : Only P m)
    (s : σ) : Only P (advance h n m s).1 := by
  induction n generalizing m s with
  | zero => exact hm
  | succ n ih =>
    cases m with
    | ret a => trivial
    | call c k => exact ih (hm.2 _) _

/-! ## What holds after every run -/

/-- Whatever the device answers, `Q` holds of the result and the state at the end. -/
def Wp (dev : Device C R σ) (Q : α → σ → Prop) : Prog C R α → σ → Prop
  | ret a, s => Q a s
  | call c k, s => ∀ r s', dev c s r s' → Wp dev Q (k r) s'

section Wp

variable {Q : α → σ → Prop}

@[simp] theorem wp_ret {a : α} {s : σ} : Wp dev Q (ret a) s ↔ Q a s := Iff.rfl

@[simp] theorem wp_call {c : C} {k : R c → Prog C R α} {s : σ} :
    Wp dev Q (call c k) s ↔ ∀ r s', dev c s r s' → Wp dev Q (k r) s' := Iff.rfl

theorem Wp.mono {Q' : α → σ → Prop} (hQ : ∀ a s, Q a s → Q' a s) {m : Prog C R α} {s : σ}
    (h : Wp dev Q m s) : Wp dev Q' m s := by
  induction m generalizing s with
  | ret a => exact hQ a s h
  | call c k ih => exact fun r s' hdev => ih r (h r s' hdev)

theorem wp_bind {m : Prog C R β} {f : β → Prog C R α} {s : σ} :
    Wp dev Q (m >>= f) s ↔ Wp dev (fun b s' => Wp dev Q (f b) s') m s := by
  induction m generalizing s with
  | ret a => exact Iff.rfl
  | call c k ih =>
    constructor
    · exact fun h r s' hdev => (ih r).mp (h r s' hdev)
    · exact fun h r s' hdev => (ih r).mpr (h r s' hdev)

theorem wp_command {c : C} {f : R c → Prog C R α} {s : σ} :
    Wp dev Q (command c >>= f) s ↔ ∀ r s', dev c s r s' → Wp dev Q (f r) s' := Iff.rfl

/-- What holds after every run holds after this one. -/
theorem Wp.of_run {m : Prog C R α} {s s' : σ} {es : List (Σ c, R c)} {a : α} (h : Wp dev Q m s)
    (hrun : Performs m es a) (hsteps : Steps dev s es s') : Q a s' := by
  induction hrun generalizing s with
  | ret a =>
    obtain rfl := hsteps
    exact h
  | call c k r es a _ ih =>
    obtain ⟨s₁, hdev, hrest⟩ := hsteps
    exact ih (h r s₁ hdev) hrest

/-- What every command of the program preserves holds at its end. -/
theorem wp_of_only {P : C → Prop} {Inv : σ → Prop}
    (hP : ∀ c, P c → ∀ s r s', Inv s → dev c s r s' → Inv s') {m : Prog C R α} (hm : Only P m)
    {s : σ} (hinv : Inv s) : Wp dev (fun _ s' => Inv s') m s := by
  induction m generalizing s with
  | ret a => exact hinv
  | call c k ih => exact fun r s' hdev => ih r (hm.2 r) (hP c hm.1 s r s' hinv hdev)

end Wp

/-! ## Programs that carry out programs -/

section Interpret

variable {C' : Type} {R' : C' → Type} {τ : Type}

/-- Carry out each command by a program over other commands. -/
def interpret (h : (c : C) → τ → Prog C' R' (R c × τ)) : Prog C R α → τ → Prog C' R' (α × τ)
  | ret a, t => ret (a, t)
  | call c k, t => h c t >>= fun p => interpret h (k p.1) p.2

/-- The commands `cs`, each carried out in turn, took the commands `es` below. -/
inductive Interpreted (h : (c : C) → τ → Prog C' R' (R c × τ)) :
    τ → List (Σ c, R c) → List (Σ c, R' c) → τ → Prop
  | nil (t : τ) : Interpreted h t [] [] t
  | cons {t t₁ t' : τ} {c : C} {r : R c} {cs : List (Σ c, R c)} {es fs : List (Σ c, R' c)}
      (hfirst : Performs (h c t) es (r, t₁)) (hrest : Interpreted h t₁ cs fs t') :
      Interpreted h t (⟨c, r⟩ :: cs) (es ++ fs) t'

theorem performs_interpret {h : (c : C) → τ → Prog C' R' (R c × τ)} {m : Prog C R α} {t t' : τ}
    {a : α} {es : List (Σ c, R' c)} (hrun : Performs (interpret h m t) es (a, t')) :
    ∃ cs, Performs m cs a ∧ Interpreted h t cs es t' := by
  induction m generalizing t es with
  | ret b =>
    obtain ⟨rfl, heq⟩ := performs_ret hrun
    obtain ⟨rfl, rfl⟩ := Prod.mk.inj heq
    exact ⟨[], .ret a, .nil _⟩
  | call c k ih =>
    obtain ⟨⟨r, t₁⟩, fs, gs, rfl, hfirst, hrest⟩ := performs_bind hrun
    obtain ⟨cs, hperf, hcs⟩ := ih r hrest
    exact ⟨⟨c, r⟩ :: cs, .call c k r cs a hperf, .cons hfirst hcs⟩

/-- What the commands answer where they are carried out, they answer to the program. -/
theorem Interpreted.performs {h : (c : C) → τ → Prog C' R' (R c × τ)} {m : Prog C R α} {t t' : τ}
    {a : α} {cs : List (Σ c, R c)} {es : List (Σ c, R' c)} (hrun : Interpreted h t cs es t')
    (hm : Performs m cs a) : Performs (interpret h m t) es (a, t') := by
  induction hrun generalizing m with
  | nil t =>
    cases hm with
    | ret a => exact .ret _
  | cons hfirst _ ih =>
    cases hm with
    | call c k r cs a hrest => exact hfirst.bind (ih hrest)

theorem Interpreted.mem_of_only {h : (c : C) → τ → Prog C' R' (R c × τ)} {P : C' → Prop}
    (hP : ∀ c t, Only P (h c t)) {t t' : τ} {cs : List (Σ c, R c)} {es : List (Σ c, R' c)}
    (hrun : Interpreted h t cs es t') : ∀ e ∈ es, P e.1 := by
  induction hrun with
  | nil => simp
  | cons hfirst _ ih =>
    intro e he
    rcases List.mem_append.mp he with he | he
    · exact Prog.mem_of_only (hP _ _) hfirst e he
    · exact ih e he

end Interpret

end Prog
end BekenCam
