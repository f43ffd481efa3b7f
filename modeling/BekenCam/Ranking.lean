import Mathlib.Tactic

/-!
# Ranking by repeated selection

Elements have names and strengths. A ranking lists for each name its strongest element, the first
one where several are equally strong, in the order of strength. A loop that selects the strongest
element with a name that it has not selected yet goes through the ranking from the front.
-/
namespace BekenCam

section Selection

variable {α κ ν : Type*} [DecidableEq α] [DecidableEq κ] [LinearOrder ν] (strength : α → ν)

/-- The first of the strongest elements with the property. -/
def firstBest (p : α → Bool) (l : List α) : Option α :=
  l.foldl (fun best a => if p a && best.all (fun b => strength b < strength a) then some a else best)
    none

/-- In the list `a` comes before `b` if it is stronger, or as strong and earlier. -/
def Beats (l : List α) (a b : α) : Prop :=
  strength b < strength a ∨ strength b = strength a ∧ l.idxOf a < l.idxOf b

variable {strength} {l : List α} {a b : α}

theorem Beats.asymm (h : Beats strength l a b) : ¬Beats strength l b a := by
  rcases h with hless | ⟨heq, hidx⟩
  · rintro (hless' | ⟨heq', -⟩)
    · exact lt_asymm hless hless'
    · exact absurd heq' hless.ne'
  · rintro (hless' | ⟨-, hidx'⟩)
    · exact absurd heq hless'.ne'
    · exact lt_asymm hidx hidx'

theorem Beats.le (h : Beats strength l a b) : strength b ≤ strength a :=
  h.elim le_of_lt fun heq => heq.1.le

theorem beats_concat {x : α} (ha : a ∈ l) (hb : b ∈ l) (h : Beats strength l a b) :
    Beats strength (l ++ [x]) a b := by
  unfold Beats
  rwa [List.idxOf_append_of_mem ha, List.idxOf_append_of_mem hb]

theorem beats_last {x : α} (ha : a ∈ l) (hx : x ∉ l) (hle : strength x ≤ strength a) :
    Beats strength (l ++ [x]) a x := by
  rcases hle.lt_or_eq with hlt | heq
  · exact .inl hlt
  · refine .inr ⟨heq, ?_⟩
    rw [List.idxOf_append_of_mem ha, List.idxOf_append_of_notMem hx, List.idxOf_cons_self]
    exact Nat.lt_of_lt_of_le (List.idxOf_lt_length_of_mem ha) (Nat.le_add_right _ _)

variable {p : α → Bool}

omit [DecidableEq α] in
theorem firstBest_concat (x : α) : firstBest strength p (l ++ [x]) =
    if p x && (firstBest strength p l).all (fun b => strength b < strength x) then some x
    else firstBest strength p l :=
  List.foldl_concat ..

/-- What the loop over the list has found. -/
def IsBest (strength : α → ν) (p : α → Bool) (l : List α) : Option α → Prop
  | none => ∀ b ∈ l, p b = false
  | some a => a ∈ l ∧ p a = true ∧ ∀ b ∈ l, p b = true → b ≠ a → Beats strength l a b

theorem isBest_firstBest (l : List α) : IsBest strength p l (firstBest strength p l) := by
  induction l using List.reverseRecOn with
  | nil => exact fun b hb => absurd hb List.not_mem_nil
  | append_singleton l x ih =>
    rw [firstBest_concat]
    generalize firstBest strength p l = best at ih
    split_ifs with hx
    · obtain ⟨hpx, hall⟩ := Bool.and_eq_true_iff.mp hx
      refine ⟨List.mem_append_right _ (List.mem_singleton_self x), hpx, fun b hb hpb hne => ?_⟩
      have hbl : b ∈ l := (List.mem_append.mp hb).resolve_right fun h =>
        hne (List.mem_singleton.mp h)
      cases best with
      | none => exact absurd hpb (by rw [ih b hbl]; exact Bool.false_ne_true)
      | some c =>
        have hless : strength c < strength x := by simpa using hall
        by_cases hbc : b = c
        · exact .inl (hbc ▸ hless)
        · exact .inl ((ih.2.2 b hbl hpb hbc).le.trans_lt hless)
    · cases best with
      | none =>
        have hpx : p x = false := by simpa using hx
        intro b hb
        rcases List.mem_append.mp hb with hb | hb
        · exact ih b hb
        · rw [List.mem_singleton.mp hb, hpx]
      | some a =>
        obtain ⟨ha, hpa, hbeats⟩ := ih
        refine ⟨List.mem_append_left _ ha, hpa, fun b hb hpb hne => ?_⟩
        by_cases hbl : b ∈ l
        · exact beats_concat ha hbl (hbeats b hbl hpb hne)
        · obtain rfl : b = x := by simpa [hbl] using hb
          have hle : strength b ≤ strength a := by simpa [hpb] using hx
          exact beats_last ha hbl hle

theorem mem_of_firstBest (h : firstBest strength p l = some a) : a ∈ l := by
  have hbest : IsBest strength p l (firstBest strength p l) := isBest_firstBest l
  rw [h] at hbest
  exact hbest.1

variable (strength) (name : α → κ) (named : κ → Bool)

/-- The element has a name that is not among those taken. -/
def unseen (taken : List α) (a : α) : Bool := named (name a) && taken.all fun t => name t ≠ name a

/-- The loop with room for so many more. -/
def select (l : List α) : ℕ → List α → List α
  | 0, taken => taken
  | room + 1, taken =>
    match firstBest strength (unseen name named taken) l with
    | none => taken
    | some a => select l room (taken ++ [a])

/-- The strongest element with its name. -/
def IsStrongest (l : List α) (a : α) : Prop :=
  a ∈ l ∧ named (name a) = true ∧ ∀ b ∈ l, name b = name a → b ≠ a → Beats strength l a b

structure Ranking (l ranked : List α) : Prop where
  names : (ranked.map name).Nodup
  strongest : ∀ a ∈ ranked, IsStrongest strength name named l a
  sorted : ranked.Pairwise (Beats strength l)
  complete : ∀ b ∈ l, named (name b) = true → ∃ a ∈ ranked, name a = name b

/-- What holds of the elements taken so far. -/
structure Selected (l taken : List α) : Prop where
  names : (taken.map name).Nodup
  strongest : ∀ a ∈ taken, IsStrongest strength name named l a
  sorted : taken.Pairwise (Beats strength l)
  rest : ∀ a ∈ taken, ∀ b ∈ l, unseen name named taken b = true → Beats strength l a b

variable {strength name named} {taken : List α}

omit [DecidableEq α] in
theorem unseen_iff : unseen name named taken a = true ↔
    named (name a) = true ∧ ∀ t ∈ taken, name t ≠ name a := by
  simp [unseen]

omit [DecidableEq α] in
theorem unseen_concat : unseen name named (taken ++ [a]) b = true ↔
    unseen name named taken b = true ∧ name a ≠ name b := by
  simp [unseen_iff, or_imp, forall_and, and_assoc]

theorem selected_nil (l : List α) : Selected strength name named l [] where
  names := List.nodup_nil
  strongest := by simp
  sorted := .nil
  rest := by simp

theorem Selected.concat (h : Selected strength name named l taken)
    (ha : firstBest strength (unseen name named taken) l = some a) :
    Selected strength name named l (taken ++ [a]) := by
  have hbest : IsBest strength (unseen name named taken) l _ := isBest_firstBest l
  rw [ha] at hbest
  obtain ⟨hmem, hunseen, hbeats⟩ := hbest
  obtain ⟨hnamed, hnew⟩ := unseen_iff.mp hunseen
  refine ⟨?_, ?_, ?_, ?_⟩
  · rw [List.map_append, List.map_singleton]
    refine h.names.append (List.nodup_singleton _) fun c hc hca => ?_
    obtain ⟨t, ht, rfl⟩ := List.mem_map.mp hc
    exact hnew t ht (List.mem_singleton.mp hca)
  · intro b hb
    rcases List.mem_append.mp hb with hb | hb
    · exact h.strongest b hb
    · obtain rfl := List.mem_singleton.mp hb
      refine ⟨hmem, hnamed, fun c hc hname hne => hbeats c hc ?_ hne⟩
      exact unseen_iff.mpr ⟨hname ▸ hnamed, fun t ht => hname ▸ hnew t ht⟩
  · refine List.pairwise_append.mpr ⟨h.sorted, List.pairwise_singleton _ _, fun b hb c hc => ?_⟩
    rw [List.mem_singleton.mp hc]
    exact h.rest b hb a hmem hunseen
  · intro b hb c hc hrest
    obtain ⟨hrest, hother⟩ := unseen_concat.mp hrest
    rcases List.mem_append.mp hb with hb | hb
    · exact h.rest b hb c hc hrest
    · rw [List.mem_singleton.mp hb]
      exact hbeats c hc hrest fun heq => hother (congrArg name heq.symm)

/-- Nothing is left to take. -/
theorem Selected.ranking (h : Selected strength name named l taken)
    (hnone : firstBest strength (unseen name named taken) l = none) :
    Ranking strength name named l taken := by
  refine ⟨h.names, h.strongest, h.sorted, fun b hb hnamed => ?_⟩
  have hbest : IsBest strength (unseen name named taken) l _ := isBest_firstBest l
  rw [hnone] at hbest
  by_contra hmissing
  have hunseen : unseen name named taken b = true :=
    unseen_iff.mpr ⟨hnamed, fun t ht heq => hmissing ⟨t, ht, heq⟩⟩
  exact absurd hunseen (by rw [hbest b hb]; exact Bool.false_ne_true)

theorem Selected.length_le (h : Selected strength name named l taken) :
    taken.length ≤ l.length :=
  (h.names.of_map.subperm fun a ha => (h.strongest a ha).1).length_le

theorem select_spec (h : Selected strength name named l taken) (n : ℕ) :
    ∃ more, select strength name named l n taken = taken ++ more ∧
      Selected strength name named l (taken ++ more) ∧
      (more.length = n ∨
        firstBest strength (unseen name named (taken ++ more)) l = none ∧ more.length ≤ n) := by
  induction n generalizing taken with
  | zero => exact ⟨[], (List.append_nil _).symm, by rwa [List.append_nil], .inl rfl⟩
  | succ n ih =>
    rw [select]
    cases hbest : firstBest strength (unseen name named taken) l with
    | none =>
      refine ⟨[], (List.append_nil _).symm, by rwa [List.append_nil], .inr ⟨?_, Nat.zero_le _⟩⟩
      rwa [List.append_nil]
    | some a =>
      obtain ⟨more, heq, hselected, hend⟩ := ih (h.concat hbest)
      rw [List.append_assoc, List.singleton_append] at heq hselected hend
      refine ⟨a :: more, heq, hselected, ?_⟩
      rw [List.length_cons]
      exact hend.imp (congrArg (· + 1)) fun hnone => ⟨hnone.1, Nat.succ_le_succ hnone.2⟩

omit [DecidableEq α] in
theorem select_done (hnone : firstBest strength (unseen name named taken) l = none) (n : ℕ) :
    select strength name named l n taken = taken := by
  cases n with
  | zero => rfl
  | succ n => rw [select, hnone]

omit [DecidableEq α] in
theorem select_add (n k : ℕ) (taken : List α) : select strength name named l (n + k) taken =
    select strength name named l k (select strength name named l n taken) := by
  induction n generalizing taken with
  | zero => rw [Nat.zero_add, select]
  | succ n ih =>
    rw [Nat.succ_add, select, select]
    cases hbest : firstBest strength (unseen name named taken) l with
    | none => exact (select_done hbest k).symm
    | some a => exact ih (taken ++ [a])

/-- The loop goes through the ranking. -/
theorem exists_ranking (strength : α → ν) (name : α → κ) (named : κ → Bool) (l : List α) :
    ∃ ranked, Ranking strength name named l ranked ∧
      ∀ n, select strength name named l n [] = ranked.take n := by
  have hstart : Selected strength name named l [] := selected_nil l
  obtain ⟨ranked, hall, hselected, hend⟩ := select_spec hstart (l.length + 1)
  rw [List.nil_append] at hall hselected hend
  have hlen := hselected.length_le
  have hnone := (hend.resolve_left (by omega)).1
  refine ⟨ranked, hselected.ranking hnone, fun n => ?_⟩
  obtain ⟨front, hfront, hfrontSelected, hstop⟩ := select_spec hstart n
  rw [List.nil_append] at hfront hfrontSelected hstop
  -- Running on from what the first rounds took leads to the same end.
  have hrest : select strength name named l (l.length + 1) front = ranked := by
    rw [← hfront, ← select_add, Nat.add_comm, select_add, hall, select_done hnone]
  rw [hfront]
  rcases hstop with hlength | ⟨hdone, hlength⟩
  · obtain ⟨more, hmore, -⟩ := select_spec hfrontSelected (l.length + 1)
    rw [hrest] at hmore
    rw [hmore, List.take_left' hlength]
  · rw [select_done hdone] at hrest
    rw [← hrest, List.take_of_length_le hlength]

omit [DecidableEq κ] in
theorem IsStrongest.unique (ha : IsStrongest strength name named l a)
    (hb : IsStrongest strength name named l b) (hname : name a = name b) : a = b := by
  by_contra hne
  exact (ha.2.2 b hb.1 hname.symm (Ne.symm hne)).asymm (hb.2.2 a ha.1 hname hne)

omit [DecidableEq κ] in
theorem Ranking.mem_iff {ranked : List α} (h : Ranking strength name named l ranked) :
    a ∈ ranked ↔ IsStrongest strength name named l a := by
  refine ⟨h.strongest a, fun ha => ?_⟩
  obtain ⟨b, hb, hname⟩ := h.complete a ha.1 ha.2.1
  rwa [ha.unique (h.strongest b hb) hname.symm]

omit [DecidableEq κ] in
/-- There is one ranking of a list. -/
theorem Ranking.unique {ranked ranked' : List α} (h : Ranking strength name named l ranked)
    (h' : Ranking strength name named l ranked') : ranked = ranked' := by
  have hperm : ranked.Perm ranked' :=
    (List.perm_ext_iff_of_nodup h.names.of_map h'.names.of_map).mpr fun a => by
      rw [h.mem_iff, h'.mem_iff]
  exact hperm.eq_of_pairwise (fun a b _ _ hab hba => absurd hba hab.asymm) h.sorted h'.sorted

end Selection

end BekenCam
