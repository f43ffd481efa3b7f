import BekenCam.CommandProgram

/-!
# Two programs on one device

Two tasks issue their commands in any order; each command is atomic. Commands in `P`
leave the device alone. If, while both tasks are under way, neither has issued any
other command, then the interleaving has the effect of running one task after the
other. A task that only has commands of `P` left after it changed the device no longer
counts as under way: its answer may still depend on the other task, its effect does not.
-/
namespace BekenCam

open Prog

variable {C : Type} {R : C → Type} {σ α : Type}

/-- What is left of a program, and the commands it has issued so far. -/
structure Task (C : Type) (R : C → Type) (α : Type) where
  rest : Prog C R α
  issued : List C

def Task.start (m : Prog C R α) : Task C R α := ⟨m, []⟩

/-- Two tasks, named by a Boolean, and the device they share. -/
structure TwoTasks (C : Type) (R : C → Type) (α σ : Type) where
  task : Bool → Task C R α
  device : σ

namespace TwoTasks

def start (m : Bool → Prog C R α) (s : σ) : TwoTasks C R α σ := ⟨fun b => .start (m b), s⟩

/-- Task `who` issues its next command, if it has one. -/
def step (h : Handler C R σ) (p : TwoTasks C R α σ) (who : Bool) : TwoTasks C R α σ :=
  match (p.task who).rest with
  | ret _ => p
  | call c k =>
    ⟨Function.update p.task who ⟨k (h c p.device).1, (p.task who).issued ++ [c]⟩, (h c p.device).2⟩

def run (h : Handler C R σ) (p : TwoTasks C R α σ) (sched : List Bool) : TwoTasks C R α σ :=
  sched.foldl (step h) p

@[simp] theorem run_nil (h : Handler C R σ) (p : TwoTasks C R α σ) : p.run h [] = p := rfl

@[simp] theorem run_cons (h : Handler C R σ) (p : TwoTasks C R α σ) (who : Bool)
    (sched : List Bool) : p.run h (who :: sched) = (p.step h who).run h sched := rfl

theorem run_append (h : Handler C R σ) (p : TwoTasks C R α σ) (sched sched' : List Bool) :
    p.run h (sched ++ sched') = (p.run h sched).run h sched' := List.foldl_append

theorem step_ret {h : Handler C R σ} {p : TwoTasks C R α σ} {who : Bool} {a : α}
    (hr : (p.task who).rest = ret a) : p.step h who = p := by
  rw [step, hr]

theorem step_call {h : Handler C R σ} {p : TwoTasks C R α σ} {who : Bool} {c : C}
    {k : R c → Prog C R α} (hr : (p.task who).rest = call c k) :
    p.step h who = ⟨Function.update p.task who
      ⟨k (h c p.device).1, (p.task who).issued ++ [c]⟩, (h c p.device).2⟩ := by
  rw [step, hr]

end TwoTasks

/-! ## One task alone -/

/-- The task has come from the program `m`, started on the device `d`, to `t` on `d'`,
with nobody else touching the device. -/
inductive SoloRun (h : Handler C R σ) (m : Prog C R α) (d : σ) : Task C R α → σ → Prop
  | start : SoloRun h m d (.start m) d
  | step (c : C) (k : R c → Prog C R α) (cs : List C) (d' : σ)
      (hrun : SoloRun h m d ⟨call c k, cs⟩ d') :
      SoloRun h m d ⟨k (h c d').1, cs ++ [c]⟩ (h c d').2

namespace SoloRun

variable {h : Handler C R σ} {m : Prog C R α} {d d' : σ} {t : Task C R α}

/-- One more command of the task. -/
theorem next {c : C} {k : R c → Prog C R α} (hs : SoloRun h m d t d') (hr : t.rest = call c k) :
    SoloRun h m d ⟨k (h c d').1, t.issued ++ [c]⟩ (h c d').2 := by
  obtain ⟨rest, issued⟩ := t
  subst hr
  exact .step c k issued d' hs

/-- The rest of the task yields what the whole program yields. -/
theorem run_eq (hs : SoloRun h m d t d') : Prog.run h t.rest d' = Prog.run h m d := by
  induction hs with
  | start => rfl
  | step c k cs d' _ ih => exact ih

theorem calls_eq (hs : SoloRun h m d t d') : calls h m d = t.issued ++ calls h t.rest d' := by
  induction hs with
  | start => rfl
  | step c k cs d' _ ih =>
    rw [ih, List.append_assoc]
    rfl

theorem of_not_issued (hs : SoloRun h m d t d') (hi : t.issued = []) :
    t = .start m ∧ d' = d := by
  cases hs with
  | start => exact ⟨rfl, rfl⟩
  | step c k cs d' _ => simp at hi

/-- A task that has issued only harmless commands has left the device alone. -/
theorem device_eq {P : C → Prop} (hP : ∀ c, P c → ∀ s, (h c s).2 = s) (hs : SoloRun h m d t d')
    (hi : ∀ c ∈ t.issued, P c) : d' = d := by
  induction hs with
  | start => rfl
  | step c k cs d' _ ih =>
    rw [hP c (hi c (by simp)), ih fun e he => hi e (by simp [he])]

end SoloRun

/-! ## Two tasks that stay out of each other's way -/

/-- The task has returned, or it has changed the device and cannot change it again. -/
def Task.Over (P : C → Prop) (t : Task C R α) : Prop :=
  (∃ a, t.rest = ret a) ∨ (Only P t.rest ∧ ∃ c ∈ t.issued, ¬P c)

def NextIn (P : C → Prop) : Prog C R α → Prop
  | ret _ => True
  | call c _ => P c

namespace TwoTasks

/-- Task `who` may take its step: the other task has not begun, or is over, or neither
the other task so far nor this step touches the device. -/
def Clear (P : C → Prop) (p : TwoTasks C R α σ) (who : Bool) : Prop :=
  (p.task (!who)).issued = [] ∨ (p.task (!who)).Over P ∨
    ((∀ c ∈ (p.task (!who)).issued, P c) ∧ NextIn P (p.task who).rest)

def AllClear (h : Handler C R σ) (P : C → Prop) : TwoTasks C R α σ → List Bool → Prop
  | _, [] => True
  | p, who :: sched => Clear P p who ∧ AllClear h P (p.step h who) sched

/-- What holds between steps: both tasks have only read; or one of them is under way and
the other has not begun; or one of them is over and the other came after it. -/
inductive Serial (h : Handler C R σ) (P : C → Prop) (m : Bool → Prog C R α) (s : σ)
    (p : TwoTasks C R α σ) : Prop
  | reading (hrun : ∀ b, SoloRun h (m b) s (p.task b) p.device)
      (hread : ∀ b, ∀ c ∈ (p.task b).issued, P c)
  | alone (w : Bool) (hrun : SoloRun h (m w) s (p.task w) p.device)
      (hother : p.task (!w) = .start (m (!w)))
  | behind (w : Bool)
      (hover : (p.task w).rest = ret (Prog.run h (m w) s).1 ∨
        (Only P (p.task w).rest ∧ ∃ c ∈ calls h (m w) s, ¬P c))
      (hrun : SoloRun h (m (!w)) (Prog.run h (m w) s).2 (p.task (!w)) p.device)

variable {h : Handler C R σ} {P : C → Prop} {m : Bool → Prog C R α} {s : σ}

/-- A task that ran alone and is over determines the device the other one starts on. -/
theorem over_of_solo (hP : ∀ c, P c → ∀ s, (h c s).2 = s) {m : Prog C R α} {t : Task C R α} {d : σ}
    (hrun : SoloRun h m s t d) (hover : t.Over P) :
    d = (Prog.run h m s).2 ∧
      (t.rest = ret (Prog.run h m s).1 ∨ (Only P t.rest ∧ ∃ c ∈ calls h m s, ¬P c)) := by
  have heq := hrun.run_eq
  rcases hover with ⟨a, ha⟩ | ⟨honly, c, hc, hnot⟩
  · rw [ha, run_ret] at heq
    rw [← heq]
    exact ⟨rfl, .inl ha⟩
  · refine ⟨?_, .inr ⟨honly, c, ?_, hnot⟩⟩
    · rw [← heq, run_snd_of_only hP honly]
    · rw [hrun.calls_eq]
      exact List.mem_append_left _ hc

@[simp] theorem update_task_self (f : Bool → Task C R α) (w : Bool) (t : Task C R α) :
    Function.update f w t w = t := Function.update_self ..

@[simp] theorem update_task_not (f : Bool → Task C R α) (w : Bool) (t : Task C R α) :
    Function.update f w t (!w) = f (!w) := Function.update_of_ne (by simp) ..

section Step

variable {p : TwoTasks C R α σ} {who : Bool} {c : C} {k : R c → Prog C R α}

/-- The task that steps has run alone so far, and the other has not begun. -/
theorem Serial.step_alone (hr : (p.task who).rest = call c k)
    (hself : SoloRun h (m who) s (p.task who) p.device) (hother : p.task (!who) = .start (m (!who))) :
    Serial h P m s (p.step h who) := by
  rw [step_call hr]
  refine .alone who ?_ ?_
  · simpa using hself.next hr
  · simpa using hother

/-- The other task ran alone up to here and is over: this step comes behind it. -/
theorem Serial.step_behind (hP : ∀ c, P c → ∀ s, (h c s).2 = s)
    (hr : (p.task who).rest = call c k) (hover : (p.task (!who)).Over P)
    (hother : SoloRun h (m (!who)) s (p.task (!who)) p.device)
    (hself : SoloRun h (m who) p.device (p.task who) p.device) :
    Serial h P m s (p.step h who) := by
  obtain ⟨hd, ho⟩ := over_of_solo hP hother hover
  rw [step_call hr]
  refine .behind (!who) ?_ ?_
  · simpa using ho
  · rw [← hd]
    simpa using hself.next hr

/-- Nobody has touched the device, and neither does this step. -/
theorem Serial.step_reading (hP : ∀ c, P c → ∀ s, (h c s).2 = s)
    (hr : (p.task who).rest = call c k) (hrun : ∀ b, SoloRun h (m b) s (p.task b) p.device)
    (hread : ∀ b, ∀ c ∈ (p.task b).issued, P c) (hnext : NextIn P (p.task who).rest) :
    Serial h P m s (p.step h who) := by
  rw [hr] at hnext
  have hkeep := hP c hnext p.device
  rw [step_call hr]
  refine .reading ((Bool.forall_bool' who).mpr ⟨?_, ?_⟩) ((Bool.forall_bool' who).mpr ⟨?_, ?_⟩)
  · simpa using (hrun who).next hr
  · simpa [hkeep] using hrun (!who)
  · intro e he
    simp only [update_task_self, List.mem_append, List.mem_singleton] at he
    rcases he with he | rfl
    · exact hread who e he
    · exact hnext
  · simpa using hread (!who)

/-- One step. -/
theorem Serial.step (hP : ∀ c, P c → ∀ s, (h c s).2 = s) (hs : Serial h P m s p)
    (hclear : Clear P p who) : Serial h P m s (p.step h who) := by
  cases hr : (p.task who).rest with
  | ret a =>
    rw [step_ret hr]
    exact hs
  | call c k =>
    cases hs with
    | reading hrun hread =>
      have hdev : p.device = s := (hrun who).device_eq hP (hread who)
      rcases hclear with hnot | hover | ⟨-, hnext⟩
      · exact .step_alone hr (hrun who) ((hrun (!who)).of_not_issued hnot).1
      · exact .step_behind hP hr hover (hrun _) (hdev.symm ▸ hrun who)
      · exact .step_reading hP hr hrun hread hnext
    | alone w hrun hother =>
      rcases Bool.eq_or_eq_not w who with rfl | rfl
      · exact .step_alone hr hrun hother
      · rw [Bool.not_not] at hother
        have hself : ∀ d, SoloRun h (m who) d (p.task who) d := by
          intro d
          rw [hother]
          exact .start
        rcases hclear with hnot | hover | ⟨hq, hnext⟩
        · obtain ⟨hst, hd⟩ := hrun.of_not_issued hnot
          exact .step_alone hr (hd ▸ hself p.device) hst
        · exact .step_behind hP hr hover hrun (hself _)
        · have hd := hrun.device_eq hP hq
          refine .step_reading hP hr ((Bool.forall_bool' who).mpr ⟨?_, hrun⟩)
            ((Bool.forall_bool' who).mpr ⟨?_, hq⟩) hnext
          · rw [hd]
            exact hself s
          · simp [hother, Task.start]
    | behind w hover hrun =>
      rcases Bool.eq_or_eq_not w who with rfl | rfl
      · rcases hover with hret | ⟨honly, hc⟩
        · rw [hret] at hr
          cases hr
        · rw [hr] at honly
          have hkeep := hP c honly.1 p.device
          rw [step_call hr]
          refine .behind w ?_ ?_
          · simpa using Or.inr ⟨honly.2 _, hc⟩
          · simpa [hkeep] using hrun
      · rw [step_call hr]
        refine .behind (!who) (by simpa using hover) ?_
        rw [Bool.not_not] at hrun ⊢
        simpa using hrun.next hr

end Step

/-- A whole schedule. -/
theorem Serial.run (hP : ∀ c, P c → ∀ s, (h c s).2 = s) (sched : List Bool)
    {p : TwoTasks C R α σ} (hs : Serial h P m s p) (hclear : AllClear h P p sched) :
    Serial h P m s (p.run h sched) := by
  induction sched generalizing p with
  | nil => exact hs
  | cons who sched ih => exact ih (hs.step hP hclear.1) hclear.2

theorem serial_start (h : Handler C R σ) (P : C → Prop) (m : Bool → Prog C R α) (s : σ) :
    Serial h P m s (.start m s) :=
  .reading (fun _ => .start) (fun b c hc => by simp [start, Task.start] at hc)

/-- Two tasks that stayed out of each other's way and have both returned: the device is
as if they had run one after the other, the later one answers as it would have then,
and so does the earlier one unless it changed the device. -/
theorem sequential_of_allClear (hP : ∀ c, P c → ∀ s, (h c s).2 = s) (sched : List Bool)
    (hclear : AllClear h P (.start m s) sched) {a : Bool → α}
    (hret : ∀ b, (((TwoTasks.start m s).run h sched).task b).rest = ret (a b)) :
    ∃ w, ((TwoTasks.start m s).run h sched).device =
        (Prog.run h (m (!w)) (Prog.run h (m w) s).2).2 ∧
      a (!w) = (Prog.run h (m (!w)) (Prog.run h (m w) s).2).1 ∧
      (a w = (Prog.run h (m w) s).1 ∨ ∃ c ∈ calls h (m w) s, ¬P c) := by
  have hsolo : ∀ {m' : Prog C R α} {d : σ} {b : Bool}, SoloRun h m' d
      (((TwoTasks.start m s).run h sched).task b) ((TwoTasks.start m s).run h sched).device →
      (a b, ((TwoTasks.start m s).run h sched).device) = Prog.run h m' d := by
    intro m' d b hrun
    rw [← hrun.run_eq, hret b]
    rfl
  cases (serial_start h P m s).run hP sched hclear with
  | reading hrun hread =>
    have hdev := (hrun true).device_eq hP (hread true)
    have h1 := hsolo (hrun false)
    have h2 := hsolo (hrun true)
    rw [hdev] at h1 h2 ⊢
    refine ⟨false, ?_, ?_, .inl ?_⟩
    · rw [← h1]
      simp [← h2]
    · rw [← h1]
      simp [← h2]
    · rw [← h1]
  | alone w hrun hother =>
    have h1 := hsolo hrun
    have h2 := hret (!w)
    rw [hother] at h2
    have h2' : m (!w) = ret (a (!w)) := h2
    refine ⟨w, ?_, ?_, .inl ?_⟩
    · rw [h2', run_ret, ← h1]
    · rw [h2', run_ret]
    · rw [← h1]
  | behind w hover hrun =>
    have h1 := hsolo hrun
    refine ⟨w, by rw [← h1], by rw [← h1], ?_⟩
    rcases hover with hr | ⟨-, hc⟩
    · rw [hret w] at hr
      exact .inl (Prog.ret.inj hr)
    · exact .inr hc

/-! ## Letting one task run -/

/-- A task runs the first part of its program while the other one waits. -/
theorem run_replicate {β : Type} {q : Prog C R β} {f : β → Prog C R α} {p : TwoTasks C R α σ}
    (who : Bool) (hr : (p.task who).rest = q >>= f) :
    p.run h (List.replicate (calls h q p.device).length who) =
      ⟨Function.update p.task who ⟨f (Prog.run h q p.device).1,
        (p.task who).issued ++ calls h q p.device⟩, (Prog.run h q p.device).2⟩ := by
  induction q generalizing p with
  | ret b =>
    have ht : (⟨f b, (p.task who).issued⟩ : Task C R α) = p.task who := by
      rw [show f b = (p.task who).rest from hr.symm]
    simp [ht]
  | call c k ih =>
    rw [calls_call, List.length_cons, List.replicate_succ, run_cons, step_call hr,
      ih _ (by simp only [update_task_self]; rfl)]
    simp

theorem allClear_append (p : TwoTasks C R α σ) (sched sched' : List Bool) :
    AllClear h P p (sched ++ sched') ↔
      AllClear h P p sched ∧ AllClear h P (p.run h sched) sched' := by
  induction sched generalizing p with
  | nil => simp [AllClear]
  | cons who sched ih => simp [AllClear, ih, and_assoc]

theorem step_task_not (p : TwoTasks C R α σ) (who : Bool) :
    (p.step h who).task (!who) = p.task (!who) := by
  cases hr : (p.task who).rest with
  | ret a => rw [step_ret hr]
  | call c k => rw [step_call hr]; simp

/-- A task whose neighbour has not begun or is over may go on. -/
theorem allClear_replicate {p : TwoTasks C R α σ} {who : Bool} (n : ℕ)
    (hother : (p.task (!who)).issued = [] ∨ (p.task (!who)).Over P) :
    AllClear h P p (List.replicate n who) := by
  induction n generalizing p with
  | zero => trivial
  | succ n ih =>
    refine ⟨?_, ih ?_⟩
    · rcases hother with hn | ho
      · exact .inl hn
      · exact .inr (.inl ho)
    · rwa [step_task_not]

/-- A task may read on while the other one has only read. -/
theorem allClear_reading (m : Prog C R α) {p : TwoTasks C R α σ} {who : Bool}
    (hm : (p.task who).rest = m) (hother : ∀ c ∈ (p.task (!who)).issued, P c)
    (hself : ∀ c ∈ calls h m p.device, P c) :
    AllClear h P p (List.replicate (calls h m p.device).length who) := by
  induction m generalizing p with
  | ret a => trivial
  | call c k ih =>
    have hstep := step_call (h := h) hm
    rw [calls_call, List.length_cons, List.replicate_succ]
    rw [calls_call] at hself
    refine ⟨.inr (.inr ⟨hother, ?_⟩), ?_⟩
    · rw [hm]
      exact hself c (by simp)
    · rw [hstep]
      refine ih _ (by simp) (by simpa using hother) fun e he => ?_
      exact hself e (List.mem_cons_of_mem _ he)

/-- Task `who` can come to `m` while the other one waits and the device stays the same. -/
def CanReach (h : Handler C R σ) (p : TwoTasks C R α σ) (who : Bool) (m : Prog C R α) : Prop :=
  ∃ sched cs, p.run h sched = ⟨Function.update p.task who ⟨m, cs⟩, p.device⟩

theorem CanReach.start {p : TwoTasks C R α σ} {who : Bool} {m : Prog C R α}
    (hm : (p.task who).rest = m) : CanReach h p who m := by
  refine ⟨[], (p.task who).issued, ?_⟩
  simp [← hm]

theorem CanReach.bind {β : Type} {p : TwoTasks C R α σ} {who : Bool} {q : Prog C R β}
    {f : β → Prog C R α} {b : β} (hp : CanReach h p who (q >>= f))
    (hq : Prog.run h q p.device = (b, p.device)) : CanReach h p who (f b) := by
  obtain ⟨sched, cs, hrun⟩ := hp
  refine ⟨sched ++ List.replicate (calls h q p.device).length who, cs ++ calls h q p.device, ?_⟩
  have hrest := run_replicate (h := h) (q := q) (f := f)
    (p := ⟨Function.update p.task who ⟨q >>= f, cs⟩, p.device⟩) who (by simp)
  rw [run_append, hrun, hrest]
  simp [hq]

/-- A task runs to its end while the other one waits. -/
theorem run_to_end (h : Handler C R σ) (p : TwoTasks C R α σ) (who : Bool) :
    let q := p.run h (List.replicate (calls h (p.task who).rest p.device).length who)
    (q.task who).rest = ret (Prog.run h (p.task who).rest p.device).1 ∧
      q.task (!who) = p.task (!who) ∧ q.device = (Prog.run h (p.task who).rest p.device).2 := by
  rw [run_replicate who (bind_ret _).symm]
  simp

/-- The schedule that runs the first task to its end, then the second one. -/
def finishBoth (h : Handler C R σ) (p : TwoTasks C R α σ) : List Bool :=
  let d := (Prog.run h (p.task false).rest p.device).2
  List.replicate (calls h (p.task false).rest p.device).length false ++
    List.replicate (calls h (p.task true).rest d).length true

theorem run_finishBoth (h : Handler C R σ) (p : TwoTasks C R α σ) :
    let d := (Prog.run h (p.task false).rest p.device).2
    let q := p.run h (finishBoth h p)
    (q.task false).rest = ret (Prog.run h (p.task false).rest p.device).1 ∧
      (q.task true).rest = ret (Prog.run h (p.task true).rest d).1 ∧
      q.device = (Prog.run h (p.task true).rest d).2 := by
  obtain ⟨h1, h2, h3⟩ := run_to_end h p false
  rw [Bool.not_false] at h2
  have hnext := run_to_end h
    (p.run h (List.replicate (calls h (p.task false).rest p.device).length false)) true
  rw [h2, h3, Bool.not_true] at hnext
  obtain ⟨h4, h5, h6⟩ := hnext
  dsimp only
  rw [finishBoth, run_append]
  exact ⟨by rw [h5, h1], h4, h6⟩

/-- Running one task after the other is always clear. -/
theorem allClear_finishBoth (m : Bool → Prog C R α) (s : σ) :
    AllClear h P (TwoTasks.start m s) (finishBoth h (TwoTasks.start m s)) := by
  obtain ⟨h1, -, -⟩ := run_to_end h (TwoTasks.start m s) false
  rw [finishBoth, allClear_append]
  exact ⟨allClear_replicate _ (.inl rfl), allClear_replicate _ (.inr (.inl ⟨_, h1⟩))⟩

/-- The second task reads for a while, the first one runs to its end and only reads, and the second
one goes on. -/
def overlapping {β : Type} (h : Handler C R σ) (m : Bool → Prog C R α) (q : Prog C R β)
    (f : β → Prog C R α) (s : σ) : List Bool :=
  List.replicate (calls h q s).length true ++
    (List.replicate (calls h (m false) s).length false ++
      List.replicate (calls h (f (Prog.run h q s).1) (Prog.run h (m false) s).2).length true)

theorem allClear_overlapping {β : Type} {q : Prog C R β} {f : β → Prog C R α}
    (hP : ∀ c, P c → ∀ s, (h c s).2 = s) (hm : m true = q >>= f) (hq : Only P q)
    (hread : ∀ c ∈ calls h (m false) s, P c) :
    AllClear h P (start m s) (overlapping h m q f s) ∧
      (((start m s).run h (overlapping h m q f s)).task false).rest =
        ret (Prog.run h (m false) s).1 ∧
      (((start m s).run h (overlapping h m q f s)).task true).rest =
        ret (Prog.run h (f (Prog.run h q s).1) (Prog.run h (m false) s).2).1 := by
  have hrun := run_replicate (h := h) (p := start m s) true hm
  rw [show (Prog.run h q (start m s).device).2 = s from run_snd_of_only hP hq s] at hrun
  rw [overlapping, allClear_append, allClear_append, run_append, run_append]
  generalize hp : (start m s).run h (List.replicate (calls h q s).length true) = p
  replace hrun := hp.symm.trans hrun
  have hreads : p.task true = ⟨f (Prog.run h q s).1, calls h q s⟩ :=
    congrArg (fun t => t.task true) hrun
  have hwaits : p.task false = .start (m false) := congrArg (fun t => t.task false) hrun
  have hdev : p.device = s := congrArg device hrun
  obtain ⟨hend, hother, hdev'⟩ := run_to_end h p false
  rw [hwaits, hdev] at hend hdev'
  rw [hwaits, hdev, Bool.not_false, hreads] at hother
  have hclear := allClear_reading (h := h) (P := P) (m false) (p := p)
    (show (p.task false).rest = m false from congrArg Task.rest hwaits)
    (by rw [Bool.not_false, hreads]; exact calls_of_only h hq s)
    (by rw [hdev]; exact hread)
  rw [hdev] at hclear
  have hrest : (Task.start (m false)).rest = m false := rfl
  rw [hrest] at hend hother hdev'
  generalize hp' : p.run h (List.replicate (calls h (m false) s).length false) = p' at *
  obtain ⟨hlast, hkept, -⟩ := run_to_end h p' true
  rw [hother, hdev'] at hlast hkept
  refine ⟨⟨allClear_replicate _ (.inl rfl), hclear, allClear_replicate _ (.inr (.inl ⟨_, hend⟩))⟩,
    ?_, hlast⟩
  exact (congrArg Task.rest hkept).trans hend

/-- The first task runs to its end after the second one has come to `r`. -/
theorem run_overtaken {m : Bool → Prog C R α} {s : σ} {r : Prog C R α}
    (hr : CanReach h (TwoTasks.start m s) true r) : ∃ sched,
      let p := (TwoTasks.start m s).run h sched
      (p.task false).rest = ret (Prog.run h (m false) s).1 ∧
        (p.task true).rest = ret (Prog.run h r (Prog.run h (m false) s).2).1 ∧
        p.device = (Prog.run h r (Prog.run h (m false) s).2).2 := by
  obtain ⟨sched, cs, hrun⟩ := hr
  have hfalse : (((TwoTasks.start m s).run h sched).task false).rest = m false := by
    simp only [hrun]
    rfl
  have htrue : (((TwoTasks.start m s).run h sched).task true).rest = r := by
    simp [hrun]
  have hdev : ((TwoTasks.start m s).run h sched).device = s := by
    rw [hrun]
    rfl
  have hend := run_finishBoth h ((TwoTasks.start m s).run h sched)
  rw [hfalse, htrue, hdev] at hend
  refine ⟨sched ++ finishBoth h ((TwoTasks.start m s).run h sched), ?_⟩
  rw [run_append]
  exact hend

end TwoTasks
end BekenCam
