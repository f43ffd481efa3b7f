import BekenCam.TimeoutLists

/-!
# Timeouts over whole runs

The history of calls and ticks says for each struct which call was the last about it and how many
ticks ago. A timeout is pending from the call that created it to the tick after its last
millisecond, unless it is freed. The list is the pending timeouts in creation order, and a timer
runs while there are any.
-/
namespace BekenCam.Timeout

variable {τ : Type*} {events : List (Event τ)} {e e' : Event τ} {t u : τ} {ms ms' : UInt32}
  {n m : ℕ}

/-- The struct a call is about. -/
def Event.about : Event τ → Option τ
  | .create t _ _ _ => some t
  | .free t => some t
  | .tick => none

def Event.ticks : Event τ → ℕ
  | .tick => 1
  | _ => 0

def ticksIn (events : List (Event τ)) : ℕ := (events.map Event.ticks).sum

/-- The last call about `t` is `e`, and `n` ticks came after it. -/
def LastCall (events : List (Event τ)) (t : τ) (e : Event τ) (n : ℕ) : Prop :=
  ∃ before after, events = before ++ e :: after ∧ e.about = some t ∧
    (∀ e' ∈ after, e'.about ≠ some t) ∧ ticksIn after = n

/-- The timeout `t` was successfully created `n` ticks ago, and not freed or created again since. -/
def Started (events : List (Event τ)) (t : τ) (ms : UInt32) (n : ℕ) : Prop :=
  ∃ answer, LastCall events t (.create t ms answer true) n

def Freed (events : List (Event τ)) (t : τ) : Prop := ∃ n, LastCall events t (.free t) n

/-- A finite timeout that was created, and is neither freed nor finished. -/
def Pending (events : List (Event τ)) (t : τ) : Prop :=
  ∃ ms n, Started events t ms n ∧ ms ≠ infiniteTimeout ∧ n ≤ ms.toNat

/-- The last call about `t` created it, and `u` was created after that. -/
def CreatedBefore (events : List (Event τ)) (t u : τ) : Prop :=
  ∃ before ms answer after, events = before ++ .create t ms answer true :: after ∧
    (∀ e' ∈ after, e'.about ≠ some t) ∧ ∃ ms' answer', .create u ms' answer' true ∈ after

/-- No struct is created while it is pending. -/
def CleanCreates (events : List (Event τ)) : Prop :=
  ∀ front t ms answer returned, front ++ [.create t ms answer returned] <+: events →
    ¬ Pending front t

/-! ## The last call after one more event -/

theorem ticksIn_concat : ticksIn (events ++ [e]) = ticksIn events + e.ticks := by
  simp [ticksIn]

theorem lastCall_concat :
    LastCall (events ++ [e']) t e n ↔
      (e' = e ∧ e.about = some t ∧ n = 0) ∨
        e'.about ≠ some t ∧ ∃ k, LastCall events t e k ∧ n = k + e'.ticks := by
  constructor
  · rintro ⟨before, after, heq, habout, hnone, hticks⟩
    rcases List.eq_nil_or_concat' after with rfl | ⟨after, last, rfl⟩
    · obtain ⟨-, hlast⟩ := List.append_inj' heq rfl
      exact Or.inl ⟨by simpa using hlast, habout, hticks.symm⟩
    · have hsplit : events ++ [e'] = (before ++ e :: after) ++ [last] := by simpa using heq
      obtain ⟨rfl, hlast⟩ := List.append_inj' hsplit rfl
      obtain rfl : e' = last := by simpa using hlast
      refine Or.inr ⟨hnone e' (by simp), ticksIn after, ?_, ?_⟩
      · exact ⟨before, after, rfl, habout, fun e₁ h₁ => hnone e₁ (by simp [h₁]), rfl⟩
      · rw [← hticks, ticksIn_concat]
  · rintro (⟨rfl, habout, rfl⟩ | ⟨hother, k, ⟨before, after, rfl, habout, hnone, rfl⟩, rfl⟩)
    · exact ⟨events, [], rfl, habout, by simp, rfl⟩
    · refine ⟨before, after ++ [e'], by simp, habout, fun e₁ h₁ => ?_, ticksIn_concat⟩
      rcases List.mem_append.mp h₁ with h₁ | h₁
      · exact hnone e₁ h₁
      · obtain rfl := List.mem_singleton.mp h₁
        exact hother

theorem not_lastCall_nil : ¬ LastCall [] t e n := by
  rintro ⟨before, after, heq, -⟩
  simp at heq

theorem LastCall.unique (h : LastCall events t e n) (h' : LastCall events t e' m) :
    e = e' ∧ n = m := by
  induction events using List.reverseRecOn generalizing n m with
  | nil => exact absurd h not_lastCall_nil
  | append_singleton events last ih =>
    rcases lastCall_concat.mp h with ⟨rfl, habout, rfl⟩ | ⟨hother, k, hk, rfl⟩ <;>
      rcases lastCall_concat.mp h' with ⟨rfl, habout', rfl⟩ | ⟨hother', k', hk', rfl⟩
    · exact ⟨rfl, rfl⟩
    · exact absurd habout hother'
    · exact absurd habout' hother
    · obtain ⟨rfl, rfl⟩ := ih hk hk'
      exact ⟨rfl, rfl⟩

theorem Started.unique (h : Started events t ms n) (h' : Started events t ms' m) :
    ms = ms' ∧ n = m := by
  obtain ⟨answer, hlast⟩ := h
  obtain ⟨answer', hlast'⟩ := h'
  obtain ⟨heq, hn⟩ := hlast.unique hlast'
  exact ⟨by simpa using congrArg (fun e => match e with | .create _ ms _ _ => ms | _ => 0) heq, hn⟩

theorem lastCall_tick :
    LastCall (events ++ [.tick]) t e n ↔ ∃ k, LastCall events t e k ∧ n = k + 1 := by
  rw [lastCall_concat]
  constructor
  · rintro (⟨rfl, habout, -⟩ | ⟨-, hlast⟩)
    · cases habout
    · exact hlast
  · intro hlast
    exact Or.inr ⟨nofun, hlast⟩

theorem lastCall_call (h : e'.about = some u) :
    LastCall (events ++ [e']) t e n ↔
      (t = u ∧ e = e' ∧ n = 0) ∨ (t ≠ u ∧ LastCall events t e n) := by
  have hticks : e'.ticks = 0 := by
    cases e' with
    | tick => cases h
    | _ => rfl
  rw [lastCall_concat, h, hticks]
  constructor
  · rintro (⟨rfl, habout, hn⟩ | ⟨hother, k, hlast, rfl⟩)
    · rw [h] at habout
      exact Or.inl ⟨(Option.some.inj habout).symm, rfl, hn⟩
    · exact Or.inr ⟨fun htu => hother (htu ▸ rfl), hlast⟩
  · rintro (⟨rfl, rfl, hn⟩ | ⟨htu, hlast⟩)
    · exact Or.inl ⟨rfl, h, hn⟩
    · exact Or.inr ⟨fun hut => htu (Option.some.inj hut).symm, n, hlast, rfl⟩

theorem started_tick :
    Started (events ++ [.tick]) t ms n ↔ ∃ k, Started events t ms k ∧ n = k + 1 := by
  simp only [Started, lastCall_tick]
  constructor
  · rintro ⟨answer, k, hlast, hn⟩
    exact ⟨k, ⟨answer, hlast⟩, hn⟩
  · rintro ⟨k, ⟨answer, hlast⟩, hn⟩
    exact ⟨answer, k, hlast, hn⟩

theorem started_free :
    Started (events ++ [.free u]) t ms n ↔ t ≠ u ∧ Started events t ms n := by
  have hcall : (Event.free u).about = some u := rfl
  simp [Started, lastCall_call hcall]

theorem started_create {answer : ℤ} {returned : Bool} :
    Started (events ++ [.create u ms' answer returned]) t ms n ↔
      (t = u ∧ returned = true ∧ ms = ms' ∧ n = 0) ∨ (t ≠ u ∧ Started events t ms n) := by
  have hcall : (Event.create u ms' answer returned).about = some u := rfl
  simp only [Started, lastCall_call hcall, exists_or, exists_and_left]
  refine or_congr (and_congr_right fun htu => ?_) Iff.rfl
  subst htu
  constructor
  · rintro ⟨answer', heq, hn⟩
    obtain ⟨-, rfl, -, rfl⟩ : t = t ∧ ms = ms' ∧ answer' = answer ∧ true = returned := by
      simpa using heq
    exact ⟨rfl, rfl, hn⟩
  · rintro ⟨rfl, rfl, hn⟩
    exact ⟨answer, rfl, hn⟩

theorem freed_tick : Freed (events ++ [.tick]) t ↔ Freed events t := by
  simp [Freed, lastCall_tick]

theorem freed_free : Freed (events ++ [.free u]) t ↔ t = u ∨ Freed events t := by
  have hcall : (Event.free u).about = some u := rfl
  simp only [Freed, lastCall_call hcall, exists_or, exists_and_left]
  by_cases htu : t = u <;> simp [htu]

theorem freed_create {answer : ℤ} {returned : Bool} :
    Freed (events ++ [.create u ms answer returned]) t ↔ t ≠ u ∧ Freed events t := by
  have hcall : (Event.create u ms answer returned).about = some u := rfl
  simp [Freed, lastCall_call hcall]

theorem CreatedBefore.concat (h : CreatedBefore events t u) (he : e.about ≠ some t) :
    CreatedBefore (events ++ [e]) t u := by
  obtain ⟨before, ms, answer, after, rfl, hnone, ms', answer', hmem⟩ := h
  refine ⟨before, ms, answer, after ++ [e], by simp, fun e₁ h₁ => ?_, ms', answer', by simp [hmem]⟩
  rcases List.mem_append.mp h₁ with h₁ | h₁
  · exact hnone e₁ h₁
  · obtain rfl := List.mem_singleton.mp h₁
    exact he

theorem Pending.createdBefore (h : Pending events t) {answer : ℤ} (hne : t ≠ u) :
    CreatedBefore (events ++ [.create u ms answer true]) t u := by
  obtain ⟨ms₀, n, ⟨answer₀, before, after, rfl, -, hnone, -⟩, -, -⟩ := h
  refine ⟨before, ms₀, answer₀, after ++ [.create u ms answer true], by simp, fun e₁ h₁ => ?_, ms,
    answer, by simp⟩
  rcases List.mem_append.mp h₁ with h₁ | h₁
  · exact hnone e₁ h₁
  · obtain rfl := List.mem_singleton.mp h₁
    exact fun heq => hne (Option.some.inj heq).symm

/-! ## The invariant of a run -/

variable {s s' : Timeouts τ} {list : List τ} {fuel : ℕ}

/-- The list is the pending timeouts, and the ticks are those left of what was asked for. -/
structure Tracks (events : List (Event τ)) (s : Timeouts τ) (list : List τ) : Prop where
  ready : Ready s list
  pending : ∀ t, t ∈ list ↔ Pending events t
  started : ∀ t ms n, Started events t ms n →
    if ms = infiniteTimeout then s.ticks t ≠ 0 else (s.ticks t).toNat = ms.toNat + 1 - n
  freed : ∀ t, Freed events t → s.ticks t = 0
  order : list.Pairwise (CreatedBefore events)
  length : list.length ≤ events.length

theorem tracks_start (next : τ → Option τ) (ticks : τ → UInt32) :
    Tracks [] (.start next ticks) [] where
  ready := ready_start next ticks
  pending t := by
    refine iff_of_false (by simp) ?_
    rintro ⟨ms, n, ⟨answer, hlast⟩, -⟩
    exact not_lastCall_nil hlast
  started t ms n h := by
    obtain ⟨answer, hlast⟩ := h
    exact absurd hlast not_lastCall_nil
  freed t h := by
    obtain ⟨n, hlast⟩ := h
    exact absurd hlast not_lastCall_nil
  order := List.Pairwise.nil
  length := le_rfl

/-- A timeout of the list is finite and has its last tick before it. -/
theorem Tracks.of_mem (h : Tracks events s list) (ht : t ∈ list) (hms : Started events t ms n) :
    ms ≠ infiniteTimeout ∧ n ≤ ms.toNat := by
  obtain ⟨ms', n', hstarted, hfinite, hle⟩ := (h.pending t).mp ht
  obtain ⟨rfl, rfl⟩ := hms.unique hstarted
  exact ⟨hfinite, hle⟩

theorem Tracks.ticks_eq (h : Tracks events s list) (hms : Started events t ms n)
    (hfinite : ms ≠ infiniteTimeout) : (s.ticks t).toNat = ms.toNat + 1 - n := by
  simpa [hfinite] using h.started t ms n hms

variable [DecidableEq τ]

theorem Tracks.tick (h : Tracks events s list)
    (hready : Ready s' (list.filter fun u => 1 < (s.ticks u).toNat))
    (hleft : ∀ u, (s'.ticks u).toNat = left s.ticks list u) :
    Tracks (events ++ [.tick]) s' (list.filter fun u => 1 < (s.ticks u).toNat) where
  ready := hready
  pending t := by
    simp only [List.mem_filter, decide_eq_true_eq, Pending, started_tick]
    constructor
    · rintro ⟨hmem, hticks⟩
      obtain ⟨ms, n, hstarted, hfinite, hle⟩ := (h.pending t).mp hmem
      have heq := h.ticks_eq hstarted hfinite
      exact ⟨ms, n + 1, ⟨n, hstarted, rfl⟩, hfinite, by omega⟩
    · rintro ⟨ms, -, ⟨n, hstarted, rfl⟩, hfinite, hle⟩
      have heq := h.ticks_eq hstarted hfinite
      exact ⟨(h.pending t).mpr ⟨ms, n, hstarted, hfinite, by omega⟩, by omega⟩
  started t ms n hms := by
    obtain ⟨k, hbefore, rfl⟩ := started_tick.mp hms
    by_cases hfinite : ms = infiniteTimeout
    · have hout : t ∉ list := fun hmem => (h.of_mem hmem hbefore).1 hfinite
      have hkept : s'.ticks t = s.ticks t := UInt32.toNat_inj.mp (by simp [hleft, left, hout])
      have hticks := h.started t ms k hbefore
      rw [if_pos hfinite] at hticks ⊢
      rwa [hkept]
    · rw [if_neg hfinite, hleft, left, h.ticks_eq hbefore hfinite]
      split
      · omega
      · next hout =>
        have hover : ¬ k ≤ ms.toNat := fun hle =>
          hout ((h.pending t).mpr ⟨ms, k, hbefore, hfinite, hle⟩)
        omega
  freed t ht := by
    have hzero := h.freed t (freed_tick.mp ht)
    exact UInt32.toNat_inj.mp (by simp [hleft, left, hzero])
  order := (h.order.sublist List.filter_sublist).imp fun hbefore => hbefore.concat nofun
  length := by
    have hle := List.length_filter_le (fun u => decide (1 < (s.ticks u).toNat)) list
    have hlength := h.length
    simp only [List.length_append]
    omega

theorem Tracks.free (h : Tracks events s list) (hready : Ready s' (list.erase u))
    (hticks : s'.ticks = Function.update s.ticks u 0) :
    Tracks (events ++ [.free u]) s' (list.erase u) where
  ready := hready
  pending t := by
    simp only [h.ready.nodup.mem_erase_iff, h.pending, Pending, started_free]
    constructor
    · rintro ⟨htu, ms, n, hstarted, hle⟩
      exact ⟨ms, n, ⟨htu, hstarted⟩, hle⟩
    · rintro ⟨ms, n, ⟨htu, hstarted⟩, hle⟩
      exact ⟨htu, ms, n, hstarted, hle⟩
  started t ms n hms := by
    obtain ⟨htu, hms⟩ := started_free.mp hms
    rw [hticks, Function.update_of_ne htu]
    exact h.started t ms n hms
  freed t ht := by
    rw [hticks]
    by_cases htu : t = u
    · simp [htu]
    · rw [Function.update_of_ne htu]
      exact h.freed t ((freed_free.mp ht).resolve_left htu)
  order := by
    have hbefore := h.order.sublist (List.erase_sublist (a := u))
    refine hbefore.imp_of_mem fun ht _ hlt => hlt.concat fun heq => ?_
    exact (h.ready.nodup.mem_erase_iff.mp ht).1 (Option.some.inj heq).symm
  length := by
    have hle := List.length_erase_le (a := u) (l := list)
    have hlength := h.length
    simp only [List.length_append]
    omega

/-- A struct off the list was created; with success and finite it is the last of the list. -/
theorem Tracks.create (h : Tracks events s list) {answer : ℤ} {returned : Bool} (hout : u ∉ list)
    (hother : ∀ t, t ≠ u → s'.ticks t = s.ticks t)
    (hready : Ready s' (if returned = true ∧ ms ≠ infiniteTimeout then list ++ [u] else list))
    (hset : returned = true →
      if ms = infiniteTimeout then s'.ticks u ≠ 0 else (s'.ticks u).toNat = ms.toNat + 1) :
    Tracks (events ++ [.create u ms answer returned]) s'
      (if returned = true ∧ ms ≠ infiniteTimeout then list ++ [u] else list) where
  ready := hready
  pending t := by
    have hmem : t ∈ (if returned = true ∧ ms ≠ infiniteTimeout then list ++ [u] else list) ↔
        (t = u ∧ returned = true ∧ ms ≠ infiniteTimeout) ∨ (t ≠ u ∧ t ∈ list) := by
      by_cases htu : t = u
      · subst htu
        by_cases hnew : returned = true ∧ ms ≠ infiniteTimeout <;> simp [hnew, hout]
      · split <;> simp [htu]
    rw [hmem, h.pending t]
    simp only [Pending, started_create]
    constructor
    · rintro (⟨htu, hreturned, hfinite⟩ | ⟨htu, ms', n, hstarted, hle⟩)
      · exact ⟨ms, 0, Or.inl ⟨htu, hreturned, rfl, rfl⟩, hfinite, Nat.zero_le _⟩
      · exact ⟨ms', n, Or.inr ⟨htu, hstarted⟩, hle⟩
    · rintro ⟨ms', n, ⟨htu, hreturned, rfl, rfl⟩ | ⟨htu, hstarted⟩, hfinite, hle⟩
      · exact Or.inl ⟨htu, hreturned, hfinite⟩
      · exact Or.inr ⟨htu, ms', n, hstarted, hfinite, hle⟩
  started t ms' n hms := by
    rcases started_create.mp hms with ⟨rfl, hreturned, rfl, rfl⟩ | ⟨htu, hms⟩
    · simpa using hset hreturned
    · rw [hother t htu]
      exact h.started t ms' n hms
  freed t ht := by
    obtain ⟨htu, hfreed⟩ := freed_create.mp ht
    rw [hother t htu]
    exact h.freed t hfreed
  order := by
    have hne : ∀ t ∈ list, t ≠ u := fun t ht htu => hout (htu ▸ ht)
    have hbefore : list.Pairwise (CreatedBefore (events ++ [.create u ms answer returned])) :=
      h.order.imp_of_mem fun ht _ hlt => hlt.concat fun heq => hne _ ht (Option.some.inj heq).symm
    split
    · next hnew =>
      rw [hnew.1] at hbefore ⊢
      refine List.pairwise_append.mpr ⟨hbefore, List.pairwise_singleton _ _, fun t ht v hv => ?_⟩
      obtain rfl := List.mem_singleton.mp hv
      exact ((h.pending t).mp ht).createdBefore (hne t ht)
    · exact hbefore
  length := by
    have hlength := h.length
    split <;> simp only [List.length_append, List.length_singleton] <;> omega

/-! ## Runs -/

/-- A call on a struct that is not pending, as far as it is created, returns. -/
theorem Tracks.step_returns (h : Tracks events s list) (hfuel : events.length ≤ fuel) :
    (∃ s', step fuel s .tick = some s') ∧ (∀ t, ∃ s', step fuel s (.free t) = some s') ∧
      ∀ t ms answer, ¬ Pending events t →
        ∃ returned s', step fuel s (.create t ms answer returned) = some s' := by
  have hlist : list.length ≤ fuel := h.length.trans hfuel
  refine ⟨?_, fun t => ?_, fun t ms answer hnot => ?_⟩
  · obtain ⟨s', hstep, -⟩ := tick_spec h.ready hlist
    exact ⟨s', hstep⟩
  · obtain ⟨s', hstep, -⟩ := free_spec h.ready hlist t
    exact ⟨s', hstep⟩
  · have hout : t ∉ list := fun hmem => hnot ((h.pending t).mp hmem)
    obtain ⟨returned, s', hcreate, -⟩ := create_spec h.ready hlist hout ms answer
    exact ⟨returned, s', by simp [step, hcreate]⟩

theorem Tracks.step (h : Tracks events s list) (hfuel : events.length ≤ fuel)
    (hclean : ∀ t ms answer returned, e = .create t ms answer returned → ¬ Pending events t)
    (hstep : step fuel s e = some s') : ∃ list', Tracks (events ++ [e]) s' list' := by
  have hlist : list.length ≤ fuel := h.length.trans hfuel
  cases e with
  | tick =>
    obtain ⟨t, ht, hready, hleft⟩ := tick_spec h.ready hlist
    obtain rfl : t = s' := by simpa [ht] using hstep
    exact ⟨_, h.tick hready hleft⟩
  | free u =>
    obtain ⟨t, ht, hready, hticks⟩ := free_spec h.ready hlist u
    obtain rfl : t = s' := by simpa [ht] using hstep
    exact ⟨_, h.free hready hticks⟩
  | create u ms answer returned =>
    have hout : u ∉ list := fun hmem => hclean _ _ _ _ rfl ((h.pending u).mp hmem)
    obtain ⟨r, t, ht, hother, hready, hset⟩ := create_spec h.ready hlist hout ms answer
    obtain ⟨rfl, rfl⟩ : r = returned ∧ t = s' := by simpa [Timeout.step, ht] using hstep
    exact ⟨_, h.create hout hother hready hset⟩

theorem tracks_of_run {next : τ → Option τ} {ticks : τ → UInt32} (hfuel : events.length ≤ fuel)
    (hclean : CleanCreates events)
    (hrun : runSteps (step fuel) (.start next ticks) events = some s) :
    ∃ list, Tracks events s list := by
  refine invariant_of_history (fun events s => ∃ list, Tracks events s list)
    ⟨[], tracks_start next ticks⟩ (fun pre e s s' hpre h hstep => ?_) hrun
  obtain ⟨list, htracks⟩ := h
  have hle : pre.length ≤ fuel :=
    ((List.prefix_append pre [e]).trans hpre).length_le.trans hfuel
  refine htracks.step hle (fun t ms answer returned heq => ?_) hstep
  exact hclean pre t ms answer returned (heq ▸ hpre)

/-- The list from the head after a run. -/
structure Counted (events : List (Event τ)) (s : Timeouts τ) (list : List τ) : Prop where
  linked : Seg s.next s.head list none
  acyclic : list.Nodup
  pending : ∀ t, t ∈ list ↔ Pending events t
  order : list.Pairwise (CreatedBefore events)
  running : list ≠ [] → 0 ≤ s.timer ∧ s.timer ∈ s.running
  finished : ∀ t ms n, Started events t ms n →
    (isTimeoutFinished s t = true ↔ ms ≠ infiniteTimeout ∧ ms.toNat + 1 ≤ n)
  freed : ∀ t, Freed events t → isTimeoutFinished s t = true
  off : ∀ t, isTimeoutFinished s t = true → t ∉ list

omit [DecidableEq τ] in
theorem Tracks.counted (h : Tracks events s list) : Counted events s list where
  linked := h.ready.linked
  acyclic := h.ready.nodup
  pending := h.pending
  order := h.order
  running hne := by
    have htimer := h.ready.counted hne
    refine ⟨htimer, ?_⟩
    rw [h.ready.running, if_neg (by omega)]
    exact List.mem_singleton_self _
  finished t ms n hms := by
    have hzero : isTimeoutFinished s t = true ↔ (s.ticks t).toNat = 0 := by
      simp [isTimeoutFinished, ← UInt32.toNat_inj]
    by_cases hfinite : ms = infiniteTimeout
    · have hticks := h.started t ms n hms
      rw [if_pos hfinite] at hticks
      simp [isTimeoutFinished, hticks, hfinite]
    · rw [hzero, h.ticks_eq hms hfinite]
      simp only [ne_eq, hfinite, not_false_eq_true, true_and]
      omega
  freed t ht := by simp [isTimeoutFinished, h.freed t ht]
  off t ht hmem := by
    obtain ⟨ms, n, hms, hfinite, hle⟩ := (h.pending t).mp hmem
    have hticks := h.ticks_eq hms hfinite
    have hzero : s.ticks t = 0 := by simpa [isTimeoutFinished] using ht
    rw [hzero] at hticks
    simp at hticks
    omega

/-- Over every run that creates no struct while it is pending, the list is the pending timeouts,
each finishes with the tick after its last millisecond, and no call or tick hangs. -/
theorem timeouts_run (next : τ → Option τ) (ticks : τ → UInt32) (fuel : ℕ)
    (events : List (Event τ)) (hfuel : events.length ≤ fuel) (hclean : CleanCreates events)
    (s : Timeouts τ) (hrun : runSteps (step fuel) (.start next ticks) events = some s) :
    (∃ list, Counted events s list) ∧
      (∃ s', step fuel s .tick = some s') ∧ (∀ t, ∃ s', step fuel s (.free t) = some s') ∧
      ∀ t ms answer, ¬ Pending events t →
        ∃ returned s', step fuel s (.create t ms answer returned) = some s' := by
  obtain ⟨list, htracks⟩ := tracks_of_run hfuel hclean hrun
  exact ⟨⟨list, htracks.counted⟩, htracks.step_returns hfuel⟩

def Event.isCreate : Event τ → Bool
  | .create _ _ _ _ => true
  | _ => false

omit [DecidableEq τ] in
/-- A struct that no earlier call is about is not pending. -/
theorem cleanCreates_of_first
    (h : events.Pairwise fun e e' => e'.isCreate = true → e.about ≠ e'.about) :
    CleanCreates events := by
  rintro front t ms answer returned hprefix ⟨ms', n, ⟨answer', before, after, rfl, -⟩, -⟩
  have hfirst := h.sublist hprefix.sublist
  rw [List.pairwise_append] at hfirst
  exact hfirst.2.2 (.create t ms' answer' true) (by simp) _ (List.mem_singleton_self _) rfl rfl

/-- One timeout of a millisecond finishes, and the other one is freed. -/
def finishOneFreeOne : List (Event Bool) :=
  [.create false 1 5 true, .create true 9 6 true, .tick, .tick, .free true]

theorem timeouts_run_finish_free :
    ∃ s, runSteps (step 5) (.start (fun _ => none) fun _ => 0) finishOneFreeOne = some s ∧
      isTimeoutFinished s false = true ∧ s.head = none ∧ s.running = [5] ∧
      ∃ list, Counted finishOneFreeOne s list := by
  have hclean : CleanCreates finishOneFreeOne := cleanCreates_of_first (by decide)
  exact ⟨_, rfl, rfl, rfl, rfl, (timeouts_run (fun _ => none) (fun _ => 0) 5 finishOneFreeOne
    le_rfl hclean _ rfl).1⟩

end BekenCam.Timeout
