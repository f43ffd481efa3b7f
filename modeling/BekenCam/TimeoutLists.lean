import BekenCam.TimeoutModel

/-!
# What the calls and the ticks do to the list of timeouts

Each operation is described by the list of running timeouts before and after it and by what it does
to the ticks that are left.
-/
namespace BekenCam.Timeout

variable {τ : Type*} {s : Timeouts τ} {t u : τ} {list front rest : List τ} {current : Option τ}
  {fuel : ℕ}

/-- The list is linked from the head, and the timer that runs is the one of the driver. -/
structure Ready (s : Timeouts τ) (list : List τ) : Prop where
  linked : Seg s.next s.head list none
  running : s.running = if s.timer < 0 then [] else [s.timer]
  counted : list ≠ [] → 0 ≤ s.timer

theorem Ready.nodup (h : Ready s list) : list.Nodup := h.linked.nodup

theorem Ready.head_eq_none (h : Ready s list) : s.head = none ↔ list = [] := by
  cases list with
  | nil => exact iff_of_true h.linked rfl
  | cons t list =>
    refine iff_of_false ?_ (by simp)
    rw [h.linked.1]
    simp

theorem ready_start (next : τ → Option τ) (ticks : τ → UInt32) : Ready (.start next ticks) [] :=
  ⟨rfl, rfl, fun h => absurd rfl h⟩

/-! ## The countdown -/

variable [DecidableEq τ]

/-- The ticks that are left after a countdown of the nodes. -/
def left (ticks : τ → UInt32) (list : List τ) (t : τ) : ℕ :=
  if t ∈ list then (ticks t).toNat - 1 else (ticks t).toNat

theorem left_singleton_of_update {ticks : τ → UInt32} {n : UInt32}
    (hn : n.toNat = (ticks t).toNat - 1) (u : τ) :
    (Function.update ticks t n u).toNat = left ticks [t] u := by
  by_cases hu : u = t
  · subst hu
    simpa [left] using hn
  · simp [left, hu]

/-- A node with more than one tick stays. -/
theorem countDown_keep (prev : Option τ) (h : 1 < (s.ticks t).toNat) :
    ∃ ticks, (∀ u, (ticks u).toNat = left s.ticks [t] u) ∧
      countDown s prev t = ({ s with ticks := ticks }, some t) := by
  have hsub : (s.ticks t - 1).toNat = (s.ticks t).toNat - 1 :=
    UInt32.toNat_sub_of_le _ _ (UInt32.le_iff_toNat_le.mpr h.le)
  have hpos : s.ticks t > 0 := UInt32.lt_iff_toNat_lt.mpr (by simpa using Nat.zero_lt_of_lt h)
  have hne : s.ticks t - 1 ≠ 0 := by
    intro hzero
    rw [hzero] at hsub
    simp at hsub
    omega
  refine ⟨Function.update s.ticks t (s.ticks t - 1), left_singleton_of_update hsub, ?_⟩
  simp [countDown, hpos, hne]

/-- A node with one tick or none goes. -/
theorem countDown_remove (prev : Option τ) (h : (s.ticks t).toNat ≤ 1) :
    ∃ ticks, (∀ u, (ticks u).toNat = left s.ticks [t] u) ∧
      countDown s prev t =
        ({ removeCurrent s prev t with
            ticks := ticks
            removeDelay := removeDelayTicks }, prev) := by
  refine ⟨Function.update s.ticks t 0, left_singleton_of_update (by simp; omega), ?_⟩
  rcases Nat.le_one_iff_eq_zero_or_eq_one.mp h with hzero | hone
  · have hticks : s.ticks t = 0 := UInt32.toNat_inj.mp (by simpa using hzero)
    have hsame : Function.update s.ticks t 0 = s.ticks := by rw [← hticks, Function.update_eq_self]
    rw [hsame]
    simp [countDown, hticks, removeCurrent]
  · have hticks : s.ticks t = 1 := UInt32.toNat_inj.mp (by simpa using hone)
    simp [countDown, hticks, removeCurrent]

theorem left_cons {ticks ticks' : τ → UInt32} (ht : t ∉ rest)
    (h : ∀ u, (ticks' u).toNat = left ticks [t] u) (u : τ) :
    left ticks' rest u = left ticks (t :: rest) u := by
  by_cases hu : u = t
  · subst hu
    simp [left, ht, h]
  · simp [left, hu, h]

theorem filter_left {ticks ticks' : τ → UInt32} (ht : t ∉ rest)
    (h : ∀ u, (ticks' u).toNat = left ticks [t] u) :
    rest.filter (fun u => 1 < (ticks' u).toNat) = rest.filter (fun u => 1 < (ticks u).toNat) := by
  refine List.filter_congr fun u hu => ?_
  have hne : u ≠ t := by
    rintro rfl
    exact ht hu
  simp [h, left, hne]

/-- The walk of the interrupt keeps the nodes with more than one tick, in their order. -/
theorem isrLoop_spec (hfuel : rest.length ≤ fuel) (hfront : Seg s.next s.head front current)
    (hrest : Seg s.next current rest none) (hnodup : (front ++ rest).Nodup) :
    ∃ s', isrLoop fuel front.getLast? current s = some s' ∧
      Seg s'.next s'.head (front ++ rest.filter fun u => 1 < (s.ticks u).toNat) none ∧
      (∀ u, (s'.ticks u).toNat = left s.ticks rest u) ∧
      s'.timer = s.timer ∧ s'.running = s.running := by
  induction rest generalizing s front current fuel with
  | nil =>
    obtain rfl : current = none := hrest
    refine ⟨s, by cases fuel <;> rfl, by simpa using hfront, fun u => by simp [left], rfl, rfl⟩
  | cons t rest ih =>
    obtain ⟨rfl, hrest⟩ := hrest
    obtain ⟨fuel, rfl⟩ : ∃ k, fuel = k + 1 := ⟨fuel - 1, by simp at hfuel; omega⟩
    have hfuel' : rest.length ≤ fuel := by simpa using hfuel
    have ht : t ∉ rest := by
      have hback := (List.nodup_append.mp hnodup).2.1
      exact (List.nodup_cons.mp hback).1
    by_cases hticks : 1 < (s.ticks t).toNat
    · obtain ⟨ticks, hleft, heq⟩ := countDown_keep front.getLast? hticks
      have hfront' : Seg s.next s.head (front ++ [t]) (s.next t) := seg_concat.mpr ⟨hfront, rfl⟩
      obtain ⟨s', hrun, hlinked, hall, htimer, hrunning⟩ := @ih { s with ticks := ticks }
        (front ++ [t]) (s.next t) fuel hfuel' hfront' hrest (by simpa using hnodup)
      refine ⟨s', ?_, ?_, fun u => (hall u).trans (left_cons ht hleft u), htimer, hrunning⟩
      · rw [isrLoop, heq]
        simpa using hrun
      · rw [List.filter_cons_of_pos (by simpa using hticks), ← filter_left ht hleft]
        simpa using hlinked
    · obtain ⟨ticks, hleft, heq⟩ := countDown_remove front.getLast? (Nat.le_of_not_lt hticks)
      obtain ⟨hfront', hrest', hnext⟩ := hfront.unlink hrest hnodup
      have hnodup' : (front ++ rest).Nodup :=
        hnodup.sublist ((List.sublist_cons_self t rest).append_left front)
      obtain ⟨s', hrun, hlinked, hall, htimer, hrunning⟩ :=
        @ih { removeCurrent s front.getLast? t with ticks := ticks, removeDelay := removeDelayTicks }
          front (s.next t) fuel hfuel' hfront' hrest' hnodup'
      refine ⟨s', ?_, ?_, fun u => (hall u).trans (left_cons ht hleft u), htimer, hrunning⟩
      · rw [isrLoop, heq]
        show isrLoop fuel front.getLast? ((unlink s.next s.head front.getLast? t).2 t) _ = some s'
        rw [hnext]
        exact hrun
      · rw [List.filter_cons_of_neg (by simpa using hticks), ← filter_left ht hleft]
        exact hlinked

/-- A tick takes one from each timeout of the list, and those that had one left are off it. -/
theorem tick_spec (h : Ready s list) (hfuel : list.length ≤ fuel) :
    ∃ s', step fuel s .tick = some s' ∧
      Ready s' (list.filter fun u => 1 < (s.ticks u).toNat) ∧
      ∀ u, (s'.ticks u).toNat = left s.ticks list u := by
  by_cases hstopped : s.timer < 0
  · have hnil : list = [] := by
      by_contra hne
      have hcounted := h.counted hne
      omega
    subst hnil
    refine ⟨s, ?_, by simpa using h, fun u => by simp [left]⟩
    simp [step, h.running, hstopped]
  · have hrunning : s.running = [s.timer] := by rw [h.running, if_neg hstopped]
    have hstep : step fuel s .tick = timeoutIsr fuel s.timer s := by
      simp [step, hrunning]
    rw [hstep]
    by_cases hhead : s.head = none
    · have hnil : list = [] := h.head_eq_none.mp hhead
      subst hnil
      rw [timeoutIsr, if_pos hhead]
      refine ⟨_, rfl, ?_, fun u => ?_⟩
      · split
        · exact ⟨h.linked, by simp [hrunning], fun hne => absurd rfl hne⟩
        · exact ⟨h.linked, h.running, h.counted⟩
      · split <;> simp [left]
    · rw [timeoutIsr, if_neg hhead, if_neg (by simp)]
      have hempty : Seg s.next s.head [] s.head := rfl
      obtain ⟨s', hrun, hlinked, hleft, htimer, hruns⟩ :=
        isrLoop_spec hfuel hempty h.linked (by simpa using h.nodup)
      refine ⟨s', hrun, ⟨by simpa using hlinked, ?_, ?_⟩, hleft⟩
      · rw [hruns, htimer]
        exact h.running
      · intro _
        rw [htimer]
        omega

/-! ## The calls -/

/-- The search of `freeTimeout` takes out the struct it looks for. -/
theorem freeLoop_spec (hfuel : rest.length ≤ fuel) (hfront : Seg s.next s.head front current)
    (hrest : Seg s.next current rest none) (hnodup : (front ++ rest).Nodup) (ht : t ∉ front) :
    ∃ s', freeLoop t fuel front.getLast? current s = some s' ∧
      Seg s'.next s'.head ((front ++ rest).erase t) none ∧
      s'.ticks = s.ticks ∧ s'.timer = s.timer ∧ s'.running = s.running := by
  induction rest generalizing front current fuel with
  | nil =>
    obtain rfl : current = none := hrest
    refine ⟨s, by cases fuel <;> rfl, ?_, rfl, rfl, rfl⟩
    rw [List.append_nil, List.erase_of_not_mem ht]
    exact hfront
  | cons u rest ih =>
    obtain ⟨rfl, hrest⟩ := hrest
    obtain ⟨fuel, rfl⟩ : ∃ k, fuel = k + 1 := ⟨fuel - 1, by simp at hfuel; omega⟩
    by_cases hu : u = t
    · subst hu
      obtain ⟨hfront', hrest', -⟩ := hfront.unlink hrest hnodup
      rw [freeLoop, if_pos rfl]
      refine ⟨_, rfl, ?_, rfl, rfl, rfl⟩
      rw [List.erase_append_right _ ht, List.erase_cons_head]
      exact seg_append.mpr ⟨_, hfront', hrest'⟩
    · have hfront' : Seg s.next s.head (front ++ [u]) (s.next u) := seg_concat.mpr ⟨hfront, rfl⟩
      have ht' : t ∉ front ++ [u] := by simp [ht, Ne.symm hu]
      have hnext := ih (Nat.le_of_succ_le_succ hfuel) hfront' hrest (by simpa using hnodup) ht'
      rw [freeLoop, if_neg hu]
      simpa using hnext

theorem free_spec (h : Ready s list) (hfuel : list.length ≤ fuel) (t : τ) :
    ∃ s', step fuel s (.free t) = some s' ∧ Ready s' (list.erase t) ∧
      s'.ticks = Function.update s.ticks t 0 := by
  have hempty : Seg s.next s.head [] s.head := rfl
  have hloop := @freeLoop_spec τ { s with ticks := Function.update s.ticks t 0 } t [] list s.head
    fuel _ hfuel hempty h.linked (by simpa using h.nodup) (by simp)
  obtain ⟨s', hrun, hlinked, hticks, htimer, hruns⟩ := hloop
  refine ⟨s', hrun, ⟨by simpa using hlinked, ?_, fun hne => ?_⟩, hticks⟩
  · rw [hruns, htimer]
    exact h.running
  · rw [htimer]
    refine h.counted ?_
    rintro rfl
    exact hne rfl

omit [DecidableEq τ] in
/-- The walk to the tail ends at the last node. -/
theorem tailLoop_eq (hfuel : front.length ≤ fuel) (h : Seg s.next (some t) (front ++ [u]) none) :
    tailLoop s fuel t = some u := by
  induction front generalizing t fuel with
  | nil =>
    obtain ⟨ht, hend⟩ := h
    obtain rfl := Option.some.inj ht
    have hnone : s.next t = none := hend
    unfold tailLoop
    rw [hnone]
  | cons v front ih =>
    obtain ⟨ht, hrest⟩ := h
    obtain rfl := Option.some.inj ht
    obtain ⟨fuel, rfl⟩ : ∃ k, fuel = k + 1 := ⟨fuel - 1, by simp at hfuel; omega⟩
    have hsome : ∃ v, s.next t = some v := by
      cases front with
      | nil => exact ⟨u, hrest.1⟩
      | cons v front => exact ⟨v, hrest.1⟩
    obtain ⟨v, hv⟩ := hsome
    rw [hv] at hrest
    unfold tailLoop
    rw [hv]
    exact ih (Nat.le_of_succ_le_succ hfuel) hrest

theorem addToTail_spec (h : Ready s list) (htimer : 0 ≤ s.timer) (hfuel : list.length ≤ fuel)
    (ht : t ∉ list) (hend : s.next t = none) :
    ∃ s', addToTail fuel t s = some s' ∧ Ready s' (list ++ [t]) ∧ s'.ticks = s.ticks := by
  rcases List.eq_nil_or_concat' list with rfl | ⟨front, u, rfl⟩
  · have hhead : s.head = none := h.linked
    refine ⟨{ s with head := some t }, ?_, ⟨⟨rfl, hend⟩, h.running, fun _ => htimer⟩, rfl⟩
    rw [addToTail, hhead]
  · have hhead : ∃ v, s.head = some v := by
      cases hcase : s.head with
      | none => simpa using h.head_eq_none.mp hcase
      | some v => exact ⟨v, rfl⟩
    obtain ⟨v, hv⟩ := hhead
    have htail : tailLoop s fuel v = some u := by
      refine tailLoop_eq (Nat.le_of_succ_le (by simpa using hfuel)) ?_
      rw [← hv]
      exact h.linked
    refine ⟨{ s with next := Function.update s.next u (some t) }, ?_,
      ⟨h.linked.link ht hend, h.running, fun _ => htimer⟩, rfl⟩
    simp only [addToTail, hv]
    rw [htail]
    rfl

theorem toNat_succ {ms : UInt32} (h : ms + 1 ≠ 0) : (ms + 1).toNat = ms.toNat + 1 := by
  have hne : (ms + 1).toNat ≠ 0 := fun hzero => h (UInt32.toNat_inj.mp (by simpa using hzero))
  have hlt := ms.toNat_lt
  rw [UInt32.toNat_add] at hne ⊢
  simp only [UInt32.reduceToNat] at hne ⊢
  omega

/-- A struct off the list is created: it joins the list at its end, or the list is the same. -/
theorem create_spec (h : Ready s list) (hfuel : list.length ≤ fuel) (ht : t ∉ list) (ms : UInt32)
    (answer : ℤ) :
    ∃ returned s', createTimeout fuel t ms answer s = some (returned, s') ∧
      (∀ u, u ≠ t → s'.ticks u = s.ticks u) ∧
      Ready s' (if returned = true ∧ ms ≠ infiniteTimeout then list ++ [t] else list) ∧
      (returned = true →
        if ms = infiniteTimeout then s'.ticks t ≠ 0 else (s'.ticks t).toNat = ms.toNat + 1) := by
  unfold createTimeout
  by_cases hinfinite : ms = infiniteTimeout
  · refine ⟨true, { s with
      ticks := Function.update s.ticks t 0xffffffff
      next := Function.update s.next t none }, by simp [hinfinite], ?_, ?_, ?_⟩
    · intro u hu
      simp [hu]
    · rw [if_neg (by simp [hinfinite])]
      exact ⟨h.linked.update ht, h.running, h.counted⟩
    · simp [hinfinite]
  simp only [hinfinite, if_false]
  by_cases hzero : ms + 1 = 0
  · rw [if_pos hzero]
    exact ⟨false, s, rfl, fun _ _ => rfl, h, nofun⟩
  rw [if_neg hzero]
  -- the state in which the struct is set up and not yet on the list
  have hset : ∀ {timer : ℤ} {running : List ℤ}, 0 ≤ timer → running = [timer] → ∃ s',
      addToTail fuel t { s with
        ticks := Function.update s.ticks t (ms + 1)
        next := Function.update s.next t none
        timer := timer
        running := running } = some s' ∧ Ready s' (list ++ [t]) ∧
      s'.ticks = Function.update s.ticks t (ms + 1) := by
    intro timer running htimer hrunning
    refine addToTail_spec ⟨h.linked.update ht, ?_, fun _ => htimer⟩ htimer hfuel ht ?_
    · show running = if timer < 0 then [] else [timer]
      rw [if_neg (by omega), hrunning]
    · simp
  by_cases hstopped : s.timer < 0
  · rw [if_pos hstopped]
    have hnone : s.running = [] := by rw [h.running, if_pos hstopped]
    by_cases hanswer : answer < 0
    · rw [if_pos hanswer]
      refine ⟨false, _, rfl, fun u hu => by simp [hu], ?_, nofun⟩
      exact ⟨h.linked.update ht, h.running, h.counted⟩
    · rw [if_neg hanswer]
      obtain ⟨s', hadd, hready, hticks⟩ := hset (by omega : 0 ≤ answer) rfl
      rw [hnone, hadd]
      refine ⟨true, s', rfl, fun u hu => by simp [hticks, hu], by simpa [hinfinite] using hready,
        fun _ => ?_⟩
      rw [hticks, Function.update_self]
      exact toNat_succ hzero
  · rw [if_neg hstopped]
    have hrunning : s.running = [s.timer] := by rw [h.running, if_neg hstopped]
    obtain ⟨s', hadd, hready, hticks⟩ := hset (by omega : 0 ≤ s.timer) hrunning
    rw [hadd]
    refine ⟨true, s', rfl, fun u hu => by simp [hticks, hu], by simpa [hinfinite] using hready,
      fun _ => ?_⟩
    rw [hticks, Function.update_self]
    exact toNat_succ hzero

end BekenCam.Timeout
