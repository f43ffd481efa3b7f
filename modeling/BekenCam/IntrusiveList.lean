import Mathlib.Logic.Function.Basic
import Mathlib.Tactic

/-!
# Lists linked through their own nodes

Each node has a link to the next one. `Seg next a nodes b` says that the links from `a` lead through
`nodes` to `b`. A write to the link of a node outside a segment leaves the segment, so that a node
is taken out, and one put at the end, with one write.
-/
namespace BekenCam

variable {τ : Type*}

/-- The links from `a` lead through the nodes to `b`. -/
def Seg (next : τ → Option τ) (a : Option τ) : List τ → Option τ → Prop
  | [], b => a = b
  | t :: nodes, b => a = some t ∧ Seg next (next t) nodes b

section Segments

variable {next : τ → Option τ} {a b c : Option τ} {t u : τ} {nodes front rest : List τ}

theorem seg_append : Seg next a (front ++ rest) c ↔ ∃ b, Seg next a front b ∧ Seg next b rest c := by
  induction front generalizing a with
  | nil => simp [Seg]
  | cons t front ih => simp [Seg, ih, and_assoc]

theorem seg_concat : Seg next a (front ++ [t]) c ↔ Seg next a front (some t) ∧ next t = c := by
  rw [seg_append]
  constructor
  · rintro ⟨b, hfront, rfl, hlast⟩
    exact ⟨hfront, hlast⟩
  · rintro ⟨hfront, hlast⟩
    exact ⟨some t, hfront, rfl, hlast⟩

/-- From one start the links lead to the end in one way only. -/
theorem Seg.unique (h : Seg next a nodes none) (h' : Seg next a rest none) : nodes = rest := by
  induction nodes generalizing a rest with
  | nil =>
    cases rest with
    | nil => rfl
    | cons u rest =>
      obtain rfl : a = none := h
      cases h'.1
  | cons t nodes ih =>
    obtain ⟨rfl, hnodes⟩ := h
    cases rest with
    | nil => cases h'
    | cons u rest =>
      obtain ⟨hu, hrest⟩ := h'
      obtain rfl := Option.some.inj hu
      rw [ih hnodes hrest]

/-- A list that ends has no cycle. -/
theorem Seg.nodup (h : Seg next a nodes none) : nodes.Nodup := by
  induction nodes generalizing a with
  | nil => exact List.nodup_nil
  | cons t nodes ih =>
    refine List.nodup_cons.mpr ⟨fun hmem => ?_, ih h.2⟩
    obtain ⟨front, rest, rfl⟩ := List.append_of_mem hmem
    obtain ⟨_, _, hb, hrest⟩ := seg_append.mp h.2
    have hlength := congrArg List.length (Seg.unique h.2 hrest)
    simp at hlength
    omega

theorem Seg.tail (h : Seg next (some t) nodes c) (hne : some t ≠ c) :
    ∃ rest, nodes = t :: rest ∧ Seg next (next t) rest c := by
  cases nodes with
  | nil => exact absurd h hne
  | cons u rest =>
    obtain ⟨hu, hrest⟩ := h
    obtain rfl := Option.some.inj hu
    exact ⟨rest, rfl, hrest⟩

variable [DecidableEq τ]

theorem Seg.update (h : Seg next a nodes b) (ht : t ∉ nodes) :
    Seg (Function.update next t c) a nodes b := by
  induction nodes generalizing a with
  | nil => exact h
  | cons u nodes ih =>
    have hout : t ≠ u ∧ t ∉ nodes := by simpa using ht
    refine ⟨h.1, ?_⟩
    rw [Function.update_of_ne (Ne.symm hout.1)]
    exact ih h.2 hout.2

/-- The head and the links once the node `t` behind `prev` is out. -/
def unlink (next : τ → Option τ) (head prev : Option τ) (t : τ) : Option τ × (τ → Option τ) :=
  match prev with
  | some p => (head, Function.update next p (next t))
  | none => (next t, next)

/-- One write takes out the node behind the front. The walk goes on from its link as it was. -/
theorem Seg.unlink (hfront : Seg next a front (some t)) (hrest : Seg next (next t) rest none)
    (hnodup : (front ++ t :: rest).Nodup) :
    Seg (unlink next a front.getLast? t).2 (unlink next a front.getLast? t).1 front (next t) ∧
      Seg (unlink next a front.getLast? t).2 (next t) rest none ∧
      (unlink next a front.getLast? t).2 t = next t := by
  rcases List.eq_nil_or_concat' front with rfl | ⟨front, p, rfl⟩
  · exact ⟨rfl, hrest, rfl⟩
  have hsplit : (front ++ p :: t :: rest).Nodup := by simpa using hnodup
  obtain ⟨hp, -⟩ := List.nodup_cons.mp (List.nodup_middle.mp hsplit)
  have hout : p ∉ front ∧ p ≠ t ∧ p ∉ rest := by simpa using hp
  simp only [List.getLast?_concat, BekenCam.unlink]
  obtain ⟨hbefore, -⟩ := seg_concat.mp hfront
  refine ⟨seg_concat.mpr ⟨hbefore.update hout.1, Function.update_self _ _ _⟩,
    hrest.update hout.2.2, Function.update_of_ne (Ne.symm hout.2.1) _ _⟩

/-- One write puts a node outside the list behind its last one. -/
theorem Seg.link (h : Seg next a (front ++ [u]) none) (ht : t ∉ front ++ [u]) (hend : next t = none) :
    Seg (Function.update next u (some t)) a (front ++ [u] ++ [t]) none := by
  have hnodup := h.nodup
  obtain ⟨hfront, -⟩ := seg_concat.mp h
  have hu : u ∉ front := fun hmem => (List.nodup_append.mp hnodup).2.2 u hmem u (by simp) rfl
  have hne : t ≠ u := by
    rintro rfl
    exact ht (by simp)
  refine seg_concat.mpr ⟨seg_concat.mpr ⟨hfront.update hu, Function.update_self _ _ _⟩, ?_⟩
  rw [Function.update_of_ne hne]
  exact hend

end Segments

end BekenCam
