import Mathlib.Data.Nat.Count
import Mathlib.Tactic

/-!
# Tasks that use an object

Tasks are numbered in the order of their creation. Each may use the object it was created with until
it leaves. Whoever knows that an object has no users left may free it.
-/
namespace BekenCam

variable {K : Type} [DecidableEq K]

/-- How many of the tasks created so far still use `k`. -/
def users (task : ℕ → Option K) (next : ℕ) (k : K) : ℕ := Nat.count (fun i => task i = some k) next

section Users

variable {task : ℕ → Option K} {next i : ℕ} {k k' : K}

@[simp] theorem users_zero (task : ℕ → Option K) (k : K) : users task 0 k = 0 := by
  simp [users]

theorem users_succ (task : ℕ → Option K) (next : ℕ) (k : K) :
    users task (next + 1) k = users task next k + if task next = some k then 1 else 0 :=
  Nat.count_succ ..

theorem users_congr {task' : ℕ → Option K} (h : ∀ i < next, task i = task' i) :
    users task next k = users task' next k := by
  induction next with
  | zero => simp
  | succ n ih => rw [users_succ, users_succ, ih fun i hi => h i (Nat.lt_succ_of_lt hi), h n n.lt_succ_self]

/-- A task that has not been created does not count. -/
theorem users_update_of_le (x : Option K) (h : next ≤ i) :
    users (Function.update task i x) next k = users task next k :=
  users_congr fun _ hj => Function.update_of_ne (by omega) ..

theorem users_spawn (task : ℕ → Option K) (next : ℕ) (k k' : K) :
    users (Function.update task next (some k)) (next + 1) k' =
      users task next k' + if k = k' then 1 else 0 := by
  rw [users_succ, users_update_of_le _ le_rfl, Function.update_self]
  simp

theorem users_leave (hi : i < next) (hk : task i = some k) :
    users (Function.update task i none) next k + 1 = users task next k := by
  induction next with
  | zero => omega
  | succ n ih =>
    rw [users_succ, users_succ]
    rcases Nat.lt_succ_iff_lt_or_eq.mp hi with hin | rfl
    · rw [Function.update_of_ne (by omega), ← ih hin]
      omega
    · rw [users_update_of_le _ le_rfl, Function.update_self, hk]
      simp

/-- The other objects keep their users. -/
theorem users_update_of_ne {x : Option K} (hk : task i ≠ some k) (hx : x ≠ some k) :
    users (Function.update task i x) next k = users task next k := by
  induction next with
  | zero => simp
  | succ n ih =>
    rw [users_succ, users_succ, ih]
    by_cases hin : i = n
    · subst hin
      rw [Function.update_self, if_neg hx, if_neg hk]
    · rw [Function.update_of_ne (Ne.symm hin)]

theorem users_pos (hi : i < next) (hk : task i = some k) : 0 < users task next k := by
  rw [← users_leave hi hk]
  omega

theorem users_eq_zero : users task next k = 0 ↔ ∀ i < next, task i ≠ some k :=
  Nat.count_iff_forall_not


end Users

/-! ## Collecting the tasks of an object

A task reports as its last act. The owner of an object counts the tasks it has started and takes the
reports one by one; `book` has both numbers for each object that is there.
-/

structure Accounted (book : K → Option (ℕ × ℕ)) (task : ℕ → Option K) (next : ℕ) : Prop where
  fresh : ∀ i, next ≤ i → task i = none
  balanced : ∀ k given started, book k = some (given, started) →
    users task next k + given = started
  unused : ∀ k, book k = none → users task next k = 0

namespace Accounted

variable {book : K → Option (ℕ × ℕ)} {task : ℕ → Option K} {next i given started : ℕ} {k : K}

theorem empty : Accounted (fun _ : K => none) (fun _ => none) 0 :=
  ⟨fun _ _ => rfl, nofun, fun _ _ => users_zero ..⟩

theorem lt_next (h : Accounted book task next) (hi : task i = some k) : i < next := by
  by_contra hge
  simp [h.fresh i (Nat.le_of_not_lt hge)] at hi

/-- The object of a task is there, and its owner has not taken all the reports. -/
theorem present (h : Accounted book task next) (hi : task i = some k) :
    ∃ given started, book k = some (given, started) ∧ given < started := by
  have hpos := users_pos (h.lt_next hi) hi
  cases hk : book k with
  | none =>
    have hzero := h.unused k hk
    omega
  | some counts =>
    obtain ⟨given, started⟩ := counts
    have hbalanced := h.balanced k given started hk
    exact ⟨given, started, rfl, by omega⟩

/-- The counts of one object change. -/
theorem update (h : Accounted book task next) {counts : Option (ℕ × ℕ)} {task' : ℕ → Option K}
    {next' : ℕ} (hfresh : ∀ i, next' ≤ i → task' i = none)
    (hothers : ∀ k', k' ≠ k → users task' next' k' = users task next k')
    (hsome : ∀ given started, counts = some (given, started) →
      users task' next' k + given = started)
    (hnone : counts = none → users task' next' k = 0) :
    Accounted (Function.update book k counts) task' next' := by
  refine ⟨hfresh, fun k' g st hbook => ?_, fun k' hbook => ?_⟩ <;> by_cases hk : k' = k
  · subst hk
    exact hsome g st (by simpa using hbook)
  · rw [Function.update_of_ne hk] at hbook
    rw [hothers k' hk]
    exact h.balanced k' g st hbook
  · subst hk
    exact hnone (by simpa using hbook)
  · rw [Function.update_of_ne hk] at hbook
    rw [hothers k' hk]
    exact h.unused k' hbook

theorem create (h : Accounted book task next) (hk : book k = none) :
    Accounted (Function.update book k (some (0, 0))) task next := by
  refine h.update h.fresh (fun _ _ => rfl) (fun g st hcounts => ?_) nofun
  have hzero := h.unused k hk
  simp only [Option.some_inj, Prod.mk.injEq] at hcounts
  omega

theorem spawn (h : Accounted book task next) (hk : book k = some (given, started)) :
    Accounted (Function.update book k (some (given, started + 1)))
      (Function.update task next (some k)) (next + 1) := by
  refine h.update (fun i hi => ?_) (fun k' hk' => ?_) (fun g st hcounts => ?_) nofun
  · rw [Function.update_of_ne (by omega)]
    exact h.fresh i (by omega)
  · rw [users_spawn, if_neg (Ne.symm hk'), Nat.add_zero]
  · have hbalanced := h.balanced k given started hk
    rw [users_spawn, if_pos rfl]
    simp only [Option.some_inj, Prod.mk.injEq] at hcounts
    omega

theorem report (h : Accounted book task next) (hi : task i = some k)
    (hk : book k = some (given, started)) :
    Accounted (Function.update book k (some (given + 1, started))) (Function.update task i none)
      next := by
  refine h.update (fun j hj => ?_) (fun k' hk' => ?_) (fun g st hcounts => ?_) nofun
  · rw [Function.update_apply]
    split_ifs with hji
    · rfl
    · exact h.fresh j hj
  · exact users_update_of_ne (by simpa [hi] using Ne.symm hk') (by simp)
  · have hbalanced := h.balanced k given started hk
    have hleft := users_leave (h.lt_next hi) hi
    simp only [Option.some_inj, Prod.mk.injEq] at hcounts
    omega

theorem collect (h : Accounted book task next) (hk : book k = some (given + 1, started)) :
    Accounted (Function.update book k (some (given, started - 1))) task next := by
  refine h.update h.fresh (fun _ _ => rfl) (fun g st hcounts => ?_) nofun
  have hbalanced := h.balanced k (given + 1) started hk
  simp only [Option.some_inj, Prod.mk.injEq] at hcounts
  omega

theorem free (h : Accounted book task next) (hk : book k = some (given, 0)) :
    Accounted (Function.update book k none) task next := by
  refine h.update h.fresh (fun _ _ => rfl) nofun fun _ => ?_
  have hbalanced := h.balanced k given 0 hk
  omega

end Accounted
end BekenCam
