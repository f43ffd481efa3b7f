import Mathlib.Algebra.BigOperators.Group.Finset.Basic
import Mathlib.Data.Finset.Basic
import Mathlib.Tactic

/-!
# The map behind a log

A log is a list of entries, oldest first. An entry sets a key or removes it, and
the newest entry of a key decides. A table is a log without removals in which no
key occurs twice. Compaction turns a log into a table that denotes the same map
and weighs no more.
-/
namespace BekenCam

variable {K V : Type*} [DecidableEq K]

/-- The map a log denotes; `none` in an entry removes its key. -/
def latest (l : List (K × Option V)) : K → Option V :=
  l.foldl (fun m e => Function.update m e.1 e.2) (fun _ => none)

@[simp] theorem latest_nil : latest ([] : List (K × Option V)) = fun _ => none := rfl

@[simp] theorem latest_append_singleton (l : List (K × Option V)) (e : K × Option V) :
    latest (l ++ [e]) = Function.update (latest l) e.1 e.2 := by
  simp [latest]

theorem latest_append_of_ne (l : List (K × Option V)) {l' : List (K × Option V)} {k : K}
    (h : ∀ e ∈ l', e.1 ≠ k) : latest (l ++ l') k = latest l k := by
  induction l' using List.reverseRecOn with
  | nil => rw [List.append_nil]
  | append_singleton l' e ih =>
    have hne : k ≠ e.1 := (h e (by simp)).symm
    rw [← List.append_assoc, latest_append_singleton, Function.update_of_ne hne]
    exact ih fun x hx => h x (by simp [hx])

/-- A key named behind an older part of the log has its value from there. -/
theorem latest_append_of_mem (l : List (K × Option V)) {l' : List (K × Option V)} {k : K}
    (h : ∃ e ∈ l', e.1 = k) : ∃ e ∈ l', e.1 = k ∧ latest (l ++ l') k = e.2 := by
  induction l' using List.reverseRecOn with
  | nil => simp at h
  | append_singleton l' e ih =>
    rw [← List.append_assoc, latest_append_singleton]
    by_cases hk : k = e.1
    · subst hk
      exact ⟨e, by simp, rfl, Function.update_self _ _ _⟩
    · have hin : ∃ x ∈ l', x.1 = k := by
        obtain ⟨x, hx, hxk⟩ := h
        rcases List.mem_append.mp hx with hx | hx
        · exact ⟨x, hx, hxk⟩
        · rw [List.mem_singleton.mp hx] at hxk
          exact absurd hxk.symm hk
      obtain ⟨x, hx, hxk, hlatest⟩ := ih hin
      exact ⟨x, by simp [hx], hxk, by rw [Function.update_of_ne hk, hlatest]⟩

/-- The map holds what the newest entry of a key says. -/
theorem latest_eq_some_iff (l : List (K × Option V)) (k : K) (v : V) : latest l k = some v ↔
    ∃ older newer, l = older ++ (k, some v) :: newer ∧ ∀ e ∈ newer, e.1 ≠ k := by
  constructor
  · intro h
    induction l using List.reverseRecOn with
    | nil => simp at h
    | append_singleton l e ih =>
      rw [latest_append_singleton] at h
      by_cases hk : k = e.1
      · subst hk
        rw [Function.update_self] at h
        exact ⟨l, [], by rw [← h], by simp⟩
      · rw [Function.update_of_ne hk] at h
        obtain ⟨older, newer, rfl, hnewer⟩ := ih h
        refine ⟨older, newer ++ [e], by simp, ?_⟩
        intro x hx
        rcases List.mem_append.mp hx with hx | hx
        · exact hnewer x hx
        · rw [List.mem_singleton.mp hx]
          exact Ne.symm hk
  · rintro ⟨older, newer, rfl, hnewer⟩
    rw [← List.singleton_append, ← List.append_assoc, latest_append_of_ne _ hnewer,
      latest_append_singleton, Function.update_self]

/-- A table read as a log. -/
def tableLog (t : List (K × V)) : List (K × Option V) := t.map (fun e => (e.1, some e.2))

/-- Drop the key from the table, then add the new value if there is one. -/
def put (t : List (K × V)) (k : K) (v : Option V) : List (K × V) :=
  t.filter (fun e => e.1 ≠ k) ++ v.toList.map (fun x => (k, x))

def compact (l : List (K × Option V)) : List (K × V) :=
  l.foldl (fun t e => put t e.1 e.2) []

@[simp] theorem compact_nil : compact ([] : List (K × Option V)) = [] := rfl

@[simp] theorem compact_append_singleton (l : List (K × Option V)) (e : K × Option V) :
    compact (l ++ [e]) = put (compact l) e.1 e.2 := by
  simp [compact]

theorem latest_tableLog_filter (t : List (K × V)) (k : K) :
    latest (tableLog (t.filter (fun e => e.1 ≠ k))) =
      Function.update (latest (tableLog t)) k none := by
  induction t using List.reverseRecOn with
  | nil => simp [tableLog]
  | append_singleton t e ih =>
    simp only [tableLog, List.map_append, List.map_cons, List.map_nil,
      latest_append_singleton] at ih ⊢
    by_cases hek : e.1 = k
    · have hdrop : (t ++ [e]).filter (fun e => e.1 ≠ k) = t.filter (fun e => e.1 ≠ k) := by
        simp [List.filter_append, hek]
      rw [hdrop, ih, hek, Function.update_idem]
    · simp only [List.filter_append, ne_eq, hek, not_false_eq_true, decide_true,
        List.filter_cons_of_pos, List.filter_nil, List.map_append, List.map_cons, List.map_nil,
        latest_append_singleton] at ih ⊢
      rw [ih, Function.update_comm hek]

/-- Putting into a table is a point update of its map. -/
@[simp] theorem latest_tableLog_put (t : List (K × V)) (k : K) (v : Option V) :
    latest (tableLog (put t k v)) = Function.update (latest (tableLog t)) k v := by
  have hf := latest_tableLog_filter t k
  cases v with
  | none => simpa [put] using hf
  | some x =>
    simp only [put, tableLog, Option.toList_some, List.map_cons, List.map_nil, List.map_append,
      latest_append_singleton] at hf ⊢
    rw [hf, Function.update_idem]

/-- Compaction keeps the map. -/
theorem latest_tableLog_compact (l : List (K × Option V)) :
    latest (tableLog (compact l)) = latest l := by
  induction l using List.reverseRecOn with
  | nil => rfl
  | append_singleton l e ih => simp [ih]

theorem nodup_keys_put {t : List (K × V)} (ht : (t.map Prod.fst).Nodup) (k : K) (v : Option V) :
    ((put t k v).map Prod.fst).Nodup := by
  have hf : ((t.filter (fun e => e.1 ≠ k)).map Prod.fst).Nodup :=
    ht.sublist (List.filter_sublist.map Prod.fst)
  cases v with
  | none => simpa [put] using hf
  | some x =>
    simp only [put, Option.toList_some, List.map_cons, List.map_nil, List.map_append]
    refine hf.append (List.nodup_singleton k) ?_
    simp only [List.disjoint_singleton, List.mem_map, List.mem_filter, not_exists, not_and]
    intro e he hek
    simp [hek] at he

theorem nodup_keys_compact (l : List (K × Option V)) : ((compact l).map Prod.fst).Nodup := by
  induction l using List.reverseRecOn with
  | nil => simp
  | append_singleton l e ih => simpa using nodup_keys_put ih e.1 e.2

/-- A table holds a value exactly where its map does. -/
theorem mem_table_iff {t : List (K × V)} (ht : (t.map Prod.fst).Nodup) (k : K) (v : V) :
    (k, v) ∈ t ↔ latest (tableLog t) k = some v := by
  induction t using List.reverseRecOn with
  | nil => simp [tableLog]
  | append_singleton t e ih =>
    simp only [List.map_append, List.map_cons, List.map_nil, List.nodup_append] at ht
    obtain ⟨hn, -, hd⟩ := ht
    simp only [tableLog, List.map_append, List.map_cons, List.map_nil, latest_append_singleton,
      List.mem_append, List.mem_singleton] at ih ⊢
    by_cases hk : k = e.1
    · subst hk
      have hnot : (e.1, v) ∉ t := fun hm =>
        hd e.1 (List.mem_map.mpr ⟨_, hm, rfl⟩) e.1 (by simp) rfl
      simp [hnot, Prod.ext_iff, eq_comm]
    · simp [ih hn, Prod.ext_iff, hk]

/-! ## Weights -/

section Weight

variable (w : Option V → ℕ)

/-- Total weight of a log. -/
def logWeight (l : List (K × Option V)) : ℕ := (l.map (fun e => w e.2)).sum

omit [DecidableEq K] in
@[simp] theorem logWeight_nil : logWeight w ([] : List (K × Option V)) = 0 := rfl

omit [DecidableEq K] in
@[simp] theorem logWeight_append (l l' : List (K × Option V)) :
    logWeight w (l ++ l') = logWeight w l + logWeight w l' := by
  simp [logWeight]

omit [DecidableEq K] in
@[simp] theorem logWeight_singleton (e : K × Option V) : logWeight w [e] = w e.2 := by
  simp [logWeight]

omit [DecidableEq K] in
theorem logWeight_filter_le (t : List (K × V)) (p : K × V → Bool) :
    logWeight w (tableLog (t.filter p)) ≤ logWeight w (tableLog t) := by
  simp only [logWeight, tableLog, List.map_map]
  exact (List.filter_sublist.map _).sum_le_sum (by simp)

theorem logWeight_put_le (t : List (K × V)) (k : K) (v : Option V) :
    logWeight w (tableLog (put t k v)) ≤ logWeight w (tableLog t) + w v := by
  have hf := logWeight_filter_le w t (fun e => e.1 ≠ k)
  cases v with
  | none => simpa [put] using le_trans hf (Nat.le_add_right _ _)
  | some x =>
    simp only [put, tableLog, Option.toList_some, List.map_cons, List.map_nil, List.map_append,
      logWeight_append, logWeight_singleton] at hf ⊢
    omega

/-- A compacted log weighs at most what the log weighed. -/
theorem logWeight_compact_le (l : List (K × Option V)) :
    logWeight w (tableLog (compact l)) ≤ logWeight w l := by
  induction l using List.reverseRecOn with
  | nil => simp [tableLog]
  | append_singleton l e ih =>
    have hp := logWeight_put_le w (compact l) e.1 e.2
    simp only [compact_append_singleton, logWeight_append, logWeight_singleton]
    omega

/-- What the live keys of a map weigh. -/
def mapWeight (keys : Finset K) (m : K → Option V) : ℕ :=
  ∑ k ∈ keys, ((m k).elim 0 (fun v => w (some v)))

theorem mapWeight_update (keys : Finset K) (m : K → Option V) {k : K} (hk : k ∈ keys) (v : V)
    (hm : m k = none) : mapWeight w keys (Function.update m k (some v)) =
      mapWeight w keys m + w (some v) := by
  have hold := Finset.sum_erase_add keys (fun j => (m j).elim 0 (fun v => w (some v))) hk
  have hnew := Finset.sum_erase_add keys
    (fun j => (Function.update m k (some v) j).elim 0 (fun v => w (some v))) hk
  have he : ∑ j ∈ keys.erase k, (Function.update m k (some v) j).elim 0 (fun v => w (some v)) =
      ∑ j ∈ keys.erase k, (m j).elim 0 (fun v => w (some v)) := by
    apply Finset.sum_congr rfl
    intro j hj
    rw [Function.update_of_ne (Finset.ne_of_mem_erase hj)]
  simp only [Function.update_self, hm, Option.elim_some, Option.elim_none] at hold hnew
  simp only [mapWeight]
  omega

/-- A map with few live keys of bounded weight is light. -/
theorem mapWeight_le (keys S : Finset K) (m : K → Option V) (bound : ℕ)
    (hS : ∀ k, m k ≠ none → k ∈ S) (hw : ∀ k v, m k = some v → w (some v) ≤ bound) :
    mapWeight w keys m ≤ S.card * bound := by
  have hzero : ∀ k ∈ keys, k ∉ S → (m k).elim 0 (fun v => w (some v)) = 0 := by
    intro k _ hk
    have hn : m k = none := by
      by_contra hc
      exact hk (hS k hc)
    rw [hn, Option.elim_none]
  have hle : ∀ k ∈ keys ∩ S, (m k).elim 0 (fun v => w (some v)) ≤ bound := by
    intro k _
    cases hm : m k with
    | none => simp
    | some v => exact hw k v hm
  calc mapWeight w keys m
      = ∑ k ∈ keys ∩ S, (m k).elim 0 (fun v => w (some v)) := by
        rw [mapWeight, ← Finset.sum_subset Finset.inter_subset_left]
        intro k hk hn
        exact hzero k hk fun hS => hn (Finset.mem_inter.mpr ⟨hk, hS⟩)
    _ ≤ (keys ∩ S).card * bound := by
        rw [← smul_eq_mul]
        exact Finset.sum_le_card_nsmul _ _ _ hle
    _ ≤ S.card * bound :=
        Nat.mul_le_mul_right _ (Finset.card_le_card Finset.inter_subset_right)

/-- A table weighs what the live keys of its map weigh. -/
theorem logWeight_table (keys : Finset K) {t : List (K × V)} (ht : (t.map Prod.fst).Nodup)
    (hk : ∀ e ∈ t, e.1 ∈ keys) :
    logWeight w (tableLog t) = mapWeight w keys (latest (tableLog t)) := by
  induction t using List.reverseRecOn with
  | nil => simp [tableLog, mapWeight]
  | append_singleton t e ih =>
    have hnone : latest (tableLog t) e.1 = none := by
      rw [List.map_append, List.nodup_append] at ht
      by_contra hc
      obtain ⟨v, hv⟩ := Option.ne_none_iff_exists'.mp hc
      have hm := (mem_table_iff ht.1 e.1 v).mpr hv
      exact ht.2.2 e.1 (List.mem_map.mpr ⟨_, hm, rfl⟩) e.1 (by simp) rfl
    have ht' : (t.map Prod.fst).Nodup := by
      rw [List.map_append, List.nodup_append] at ht
      exact ht.1
    have hrec := ih ht' (fun e he => hk e (by simp [he]))
    have hup := mapWeight_update w keys (latest (tableLog t)) (hk e (by simp)) e.2 hnone
    simp only [tableLog, List.map_append, List.map_cons, List.map_nil, logWeight_append,
      logWeight_singleton, latest_append_singleton] at hrec hup ⊢
    rw [hup, hrec]

end Weight
end BekenCam
