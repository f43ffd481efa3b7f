import Mathlib.Tactic

/-!
# Streams of records

A reader takes a value from the front of a text, or finds the text too short or wrong. A format has
texts for its values and a reader that does not need to see what follows a value. Written one behind
the other, the values are read back one by one, also from a text that was cut.
-/
namespace BekenCam

variable {α β γ : Type*}

/-- The value at the front, and the text behind it. -/
def Reader (α β : Type*) := List α → Option (β × List α)

namespace Reader

def pure (b : β) : Reader α β := fun text => some (b, text)

def bind (m : Reader α β) (f : β → Reader α γ) : Reader α γ := fun text =>
  (m text).bind fun x => f x.1 x.2

/-- A fixed text. -/
def literal [DecidableEq α] (lit : List α) : Reader α Unit := fun text =>
  if lit <+: text then some ((), text.drop lit.length) else none

/-- So many symbols. -/
def symbols (n : ℕ) : Reader α (List α) := fun text =>
  if n ≤ text.length then some (text.take n, text.drop n) else none

/-- The symbols up to the first one that is not `p`, which is there. -/
def span (p : α → Bool) : Reader α (List α) := fun text =>
  if (text.dropWhile p).isEmpty then none else some (text.takeWhile p, text.dropWhile p)

/-- What was read stays so when more follows. -/
def Steady (m : Reader α β) : Prop :=
  ∀ text b rest more, m text = some (b, rest) → m (text ++ more) = some (b, rest ++ more)

theorem steady_pure (b : β) : Steady (pure b : Reader α β) := by
  intro text b' rest more h
  obtain ⟨rfl, rfl⟩ : b = b' ∧ text = rest := by simpa [pure] using h
  rfl

theorem Steady.bind {m : Reader α β} {f : β → Reader α γ} (hm : Steady m)
    (hf : ∀ b, Steady (f b)) : Steady (m.bind f) := by
  intro text c rest more h
  obtain ⟨⟨b, rest'⟩, hb, hc⟩ := Option.bind_eq_some_iff.mp h
  have hmore := hm text b rest' more hb
  show (m (text ++ more)).bind _ = _
  rw [hmore]
  exact hf b rest' c rest more hc

theorem steady_literal [DecidableEq α] (lit : List α) : Steady (literal lit) := by
  intro text b rest more h
  unfold literal at h ⊢
  split_ifs at h with hlit
  obtain ⟨-, rfl⟩ : () = b ∧ text.drop lit.length = rest := by simpa using h
  rw [if_pos (hlit.trans (List.prefix_append ..)), List.drop_append_of_le_length hlit.length_le]

theorem steady_symbols (n : ℕ) : Steady (symbols n : Reader α (List α)) := by
  intro text b rest more h
  unfold symbols at h ⊢
  split_ifs at h with hn
  obtain ⟨rfl, rfl⟩ : text.take n = b ∧ text.drop n = rest := by simpa using h
  rw [if_pos (hn.trans (by simp)), List.drop_append_of_le_length hn,
    List.take_append_of_le_length hn]

theorem steady_span (p : α → Bool) : Steady (span p) := by
  intro text b rest more h
  unfold span at h ⊢
  split_ifs at h with hend
  obtain ⟨rfl, rfl⟩ : text.takeWhile p = b ∧ text.dropWhile p = rest := by simpa using h
  have hdrop : (text ++ more).dropWhile p = text.dropWhile p ++ more := by
    rw [List.dropWhile_append, if_neg (by simpa using hend)]
  have htake : (text ++ more).takeWhile p = text.takeWhile p := by
    have hlt : (text.takeWhile p).length ≠ text.length := by
      intro heq
      have hsum := congrArg List.length (List.takeWhile_append_dropWhile (p := p) (l := text))
      rw [List.length_append] at hsum
      exact hend (List.isEmpty_iff.mpr (List.eq_nil_of_length_eq_zero (by omega)))
    rw [List.takeWhile_append, if_neg hlt]
  rw [hdrop, htake, if_neg]
  intro hnil
  rw [List.isEmpty_iff] at hend hnil
  exact hend (List.append_eq_nil_iff.mp hnil).1

/-! ## What the readers find -/

theorem bind_eq {m : Reader α β} {text rest : List α} {b : β} (h : m text = some (b, rest))
    (f : β → Reader α γ) : m.bind f text = f b rest := by
  rw [bind, h, Option.bind_some]

theorem literal_append [DecidableEq α] (lit rest : List α) :
    literal lit (lit ++ rest) = some ((), rest) := by
  rw [literal, if_pos (List.prefix_append ..), List.drop_left]

theorem symbols_append (text rest : List α) :
    symbols text.length (text ++ rest) = some (text, rest) := by
  rw [symbols, if_pos (by simp), List.take_left, List.drop_left]

theorem span_append {p : α → Bool} {text rest : List α} {a : α} (htext : ∀ x ∈ text, p x = true)
    (ha : p a = false) : span p (text ++ a :: rest) = some (text, a :: rest) := by
  have hdrop : (text ++ a :: rest).dropWhile p = a :: rest := by
    rw [List.dropWhile_append_of_pos htext, List.dropWhile_cons_of_neg (by simp [ha])]
  have htake : (text ++ a :: rest).takeWhile p = text := by
    rw [List.takeWhile_append_of_pos htext, List.takeWhile_cons_of_neg (by simp [ha]),
      List.append_nil]
  rw [span, hdrop, htake]
  rfl

/-- The values at the front, at most so many. -/
def many (m : Reader α β) : ℕ → List α → List β
  | 0, _ => []
  | n + 1, text =>
    match m text with
    | none => []
    | some (b, rest) => b :: many m n rest

end Reader

/-- The texts of values, and their reader. -/
structure Format (α β : Type*) where
  write : β → List α
  read : Reader α β
  write_ne : ∀ b, write b ≠ []
  read_write : ∀ b, read (write b) = some (b, [])
  steady : read.Steady

namespace Format

variable (f : Format α β)

/-- The texts of these values, one behind the other. -/
def stream (bs : List β) : List α := bs.flatMap f.write

/-- The values that a text has whole. -/
def readAll (text : List α) : List β := f.read.many text.length text

@[simp] theorem stream_nil : f.stream [] = [] := rfl

@[simp] theorem stream_append (as bs : List β) :
    f.stream (as ++ bs) = f.stream as ++ f.stream bs := List.flatMap_append

@[simp] theorem stream_singleton (b : β) : f.stream [b] = f.write b := by simp [stream]

theorem read_append (b : β) (rest : List α) : f.read (f.write b ++ rest) = some (b, rest) :=
  f.steady _ _ _ rest (f.read_write b)

/-- A value that was cut is not read. -/
theorem read_cut {b : β} {text : List α} (htext : text <+: f.write b) (hne : text ≠ f.write b) :
    f.read text = none := by
  obtain ⟨more, hmore⟩ := htext
  cases hread : f.read text with
  | none => rfl
  | some found =>
    obtain ⟨b', rest⟩ := found
    have hwhole := f.steady _ _ _ more hread
    rw [hmore, f.read_write, Option.some_inj, Prod.mk.injEq] at hwhole
    have hnil := (List.append_eq_nil_iff.mp hwhole.2.symm).2
    rw [hnil, List.append_nil] at hmore
    exact absurd hmore hne

theorem read_nil : f.read [] = none := by
  cases hread : f.read [] with
  | none => rfl
  | some found => rw [← hread, f.read_cut (List.nil_prefix ..) (f.write_ne found.1).symm]

theorem length_le_stream (bs : List β) : bs.length ≤ (f.stream bs).length := by
  induction bs with
  | nil => exact Nat.le_refl _
  | cons b bs ih =>
    have hpos := List.length_pos_iff.mpr (f.write_ne b)
    rw [stream, List.flatMap_cons, List.length_append, List.length_cons, ← stream]
    omega

/-- Whole values are read up to the text behind them. -/
theorem readAll_stream (bs : List β) {cut : List α} (hcut : f.read cut = none) :
    f.readAll (f.stream bs ++ cut) = bs := by
  have hmany : ∀ n, bs.length ≤ n → f.read.many n (f.stream bs ++ cut) = bs := by
    induction bs with
    | nil =>
      rintro (_ | n) -
      · rfl
      · rw [Reader.many, stream_nil, List.nil_append, hcut]
    | cons b bs ih =>
      rintro (_ | n) hn
      · cases hn
      · rw [stream, List.flatMap_cons, List.append_assoc, Reader.many, f.read_append]
        exact congrArg (b :: ·) (ih n (Nat.le_of_succ_le_succ hn))
  refine hmany _ ((f.length_le_stream bs).trans ?_)
  rw [List.length_append]
  exact Nat.le_add_right ..

/-- A text that was cut has some values whole, and one at most in part. -/
theorem cut_stream {bs : List β} {text : List α} (h : text <+: f.stream bs) :
    ∃ n cut, text = f.stream (bs.take n) ++ cut ∧ f.read cut = none := by
  induction bs generalizing text with
  | nil => exact ⟨0, text, rfl, by rw [List.prefix_nil.mp h, f.read_nil]⟩
  | cons b bs ih =>
    rw [stream, List.flatMap_cons, ← stream] at h
    rcases List.prefix_or_prefix_of_prefix h (List.prefix_append ..) with hshort | ⟨rest, rfl⟩
    · by_cases hwhole : text = f.write b
      · exact ⟨1, [], by simp [hwhole], f.read_nil⟩
      · exact ⟨0, text, rfl, f.read_cut hshort hwhole⟩
    · obtain ⟨n, cut, rfl, hcut⟩ := ih ((List.prefix_append_right_inj _).mp h)
      exact ⟨n + 1, cut, by simp [stream], hcut⟩

/-- What is read of a text that was cut was written. -/
theorem readAll_cut {bs : List β} {text : List α} (h : text <+: f.stream bs) :
    f.readAll text <+: bs := by
  obtain ⟨n, cut, rfl, hcut⟩ := f.cut_stream h
  rw [f.readAll_stream _ hcut]
  exact List.take_prefix ..

/-- Every value that the text has whole is read. -/
theorem whole_readAll {bs done : List β} {text : List α} (h : text <+: f.stream bs)
    (hdone : done <+: bs) (hwhole : f.stream done <+: text) : done <+: f.readAll text := by
  obtain ⟨n, cut, rfl, hcut⟩ := f.cut_stream h
  rw [f.readAll_stream _ hcut]
  rcases List.prefix_or_prefix_of_prefix hdone (List.take_prefix n bs) with hle | ⟨rest, hrest⟩
  · exact hle
  cases rest with
  | nil => rw [← hrest, List.append_nil]
  | cons b rest =>
    rw [← hrest, stream_append, List.prefix_append_right_inj] at hwhole
    rw [stream, List.flatMap_cons] at hwhole
    obtain ⟨more, rfl⟩ := (List.prefix_append ..).trans hwhole
    rw [f.read_append] at hcut
    cases hcut

end Format
end BekenCam
