import BekenCam.FlashKvModel
import Mathlib.Data.List.TakeWhile

/-!
# Splitting a line and recalling it

The shell splits a line at blanks and at quotes, and the history writes the arguments of a command
that ran as a line again. A string is the bytes before its end.
-/
namespace BekenCam.Console

open FlashKv (cString zero_notMem_cString cString_eq)

def blank : UInt8 := 0x20
def quote : UInt8 := 0x22

/-! ## The tokenizer -/

/-- The loop of `handle_input` with room for so many arguments. A quote counts only where an
argument begins, and its partner or the next blank becomes the end of the argument. -/
def splitLine : ℕ → List UInt8 → List (List UInt8)
  | 0, _ => []
  | room + 1, line =>
    match line.dropWhile (· = blank) with
    | [] => []
    | c :: rest =>
      if c = quote then
        cString (rest.takeWhile (· ≠ quote)) ::
          splitLine room (rest.dropWhile (· ≠ quote)).tail
      else
        cString ((c :: rest).takeWhile (· ≠ blank)) ::
          splitLine room ((c :: rest).dropWhile (· ≠ blank)).tail

/-- `argv` has 32 places, and the last one is the null pointer. -/
def splitArgs (line : List UInt8) : List (List UInt8) := splitLine 31 line

/-! ## The history -/

/-- The lines, the latest first; the index is `-1` when none of them is shown. -/
structure History where
  depth : ℕ
  index : ℤ
  tokens : List (List UInt8)
  hdepth : 0 < depth
  hsize : tokens.length ≤ depth
  hlow : -1 ≤ index
  hhigh : index < tokens.length

namespace History

def push (h : History) (token : List UInt8) : List (List UInt8) :=
  if h.tokens.length = h.depth then token :: h.tokens.dropLast else token :: h.tokens

theorem length_push (h : History) (token : List UInt8) : (h.push token).length ≤ h.depth := by
  have hdepth := h.hdepth
  have hsize := h.hsize
  unfold push
  split_ifs with hfull
  · rw [List.length_cons, List.length_dropLast]
    omega
  · rw [List.length_cons]
    omega

/-- `add(const char *)`. -/
def addLine (h : History) (token : List UInt8) : History :=
  if token = [] then h
  else if h.tokens.head? = some token then
    { h with
      index := -1
      hlow := le_rfl
      hhigh := by omega }
  else
    { h with
      index := -1
      tokens := h.push token
      hsize := h.length_push token
      hlow := le_rfl
      hhigh := by omega }

end History

def needsQuotes (s : List UInt8) : Bool := s = [] ∨ blank ∈ s

def writeArg (s : List UInt8) : List UInt8 := if needsQuotes s then quote :: s ++ [quote] else s

/-- The line that the arguments are written as. -/
def joinArgs (argv : List (List UInt8)) : List UInt8 := [blank].intercalate (argv.map writeArg)

namespace History

/-- `add(int, const char *[])`. -/
def addArgs (h : History) (argv : List (List UInt8)) : History :=
  if argv.length = 0 then h else h.addLine (joinArgs argv)

def prev (h : History) : Option (List UInt8) × History :=
  if hzero : h.tokens.length = 0 then (none, h)
  else if hmore : h.index + 1 < h.tokens.length then
    (h.tokens[(h.index + 1).toNat]?, { h with
      index := h.index + 1
      hlow := by have hlow := h.hlow; omega
      hhigh := hmore })
  else (h.tokens[h.index.toNat]?, h)

def next (h : History) : Option (List UInt8) × History :=
  if hnone : h.index ≤ 0 then
    (none, { h with
      index := -1
      hlow := le_rfl
      hhigh := by omega })
  else
    (h.tokens[(h.index - 1).toNat]?, { h with
      index := h.index - 1
      hlow := by omega
      hhigh := by have hhigh := h.hhigh; omega })

end History

/-! ## The handlers -/

/-- What `handle_input` does with a line. -/
inductive Outcome
  | nothing
  | run (argv : List (List UInt8))
  | notHandled (command : List UInt8)
  deriving DecidableEq

/-- `names` are those of the handlers up to the end of the table. -/
def handleInput (names : List (List UInt8)) (h : History) (line : List UInt8) :
    Outcome × History :=
  match splitArgs line with
  | [] => (.nothing, h)
  | command :: args =>
    if command ∈ names then (.run (command :: args), h.addArgs (command :: args))
    else (.notHandled command, h)

/-! ## The arguments of a line -/

/-- An argument that can be written: one with a blank has no quote, and none begins with one. -/
structure Writable (a : List UInt8) : Prop where
  ended : 0 ∉ a
  blanks : blank ∈ a → quote ∉ a
  head : a.head? ≠ some quote

theorem not_mem_cString_takeWhile {c : UInt8} {a : List UInt8} :
    c ∉ cString (a.takeWhile (· ≠ c)) := by
  intro h
  simpa using List.mem_takeWhile_imp ((List.takeWhile_sublist _).mem h)

theorem writable_quoted (a : List UInt8) : Writable (cString (a.takeWhile (· ≠ quote))) where
  ended := zero_notMem_cString _
  blanks _ := not_mem_cString_takeWhile
  head h := not_mem_cString_takeWhile (List.mem_of_mem_head? h)

theorem writable_bare {c : UInt8} {rest : List UInt8} (h : c ≠ quote) :
    Writable (cString ((c :: rest).takeWhile (· ≠ blank))) where
  ended := zero_notMem_cString _
  blanks hblank := absurd hblank not_mem_cString_takeWhile
  head hhead := by
    have hprefix : cString ((c :: rest).takeWhile (· ≠ blank)) <+: c :: rest :=
      (List.takeWhile_prefix _).trans (List.takeWhile_prefix _)
    obtain ⟨t, ht⟩ := hprefix
    cases ha : cString ((c :: rest).takeWhile (· ≠ blank)) with
    | nil =>
      rw [ha] at hhead
      cases hhead
    | cons d a =>
      rw [ha] at hhead ht
      obtain rfl := Option.some.inj hhead
      exact h (List.cons.inj ht).1.symm

theorem writable_of_mem_splitLine {room : ℕ} {line : List UInt8} :
    ∀ a ∈ splitLine room line, Writable a := by
  induction room generalizing line with
  | zero => nofun
  | succ room ih =>
    rw [splitLine]
    cases line.dropWhile (· = blank) with
    | nil => nofun
    | cons c rest =>
      simp only []
      split_ifs with hquote
      · exact List.forall_mem_cons.mpr ⟨writable_quoted rest, ih⟩
      · exact List.forall_mem_cons.mpr ⟨writable_bare hquote, ih⟩

theorem length_splitLine_le (room : ℕ) (line : List UInt8) :
    (splitLine room line).length ≤ room := by
  induction room generalizing line with
  | zero => exact Nat.le_refl _
  | succ room ih =>
    rw [splitLine]
    cases line.dropWhile (· = blank) with
    | nil => exact Nat.zero_le _
    | cons c rest =>
      simp only []
      split_ifs
      · exact Nat.succ_le_succ (ih _)
      · exact Nat.succ_le_succ (ih _)

/-! ## What is written splits again -/

theorem splitLine_nil (room : ℕ) : splitLine room [] = [] := by
  cases room <;> rfl

theorem splitLine_blank (room : ℕ) (line : List UInt8) :
    splitLine room (blank :: line) = splitLine room line := by
  cases room with
  | zero => rfl
  | succ room => rfl

/-- The end of a line, or a blank. -/
def Ends (t : List UInt8) : Prop := t = [] ∨ ∃ t', t = blank :: t'

theorem splitLine_tail {t : List UInt8} (ht : Ends t) (room : ℕ) :
    splitLine room t.tail = splitLine room t := by
  rcases ht with rfl | ⟨t, rfl⟩
  · rfl
  · exact (splitLine_blank room t).symm

theorem span_append {c : UInt8} {a t : List UInt8} (ha : c ∉ a) (ht : t = [] ∨ ∃ t', t = c :: t') :
    (a ++ t).takeWhile (· ≠ c) = a ∧ (a ++ t).dropWhile (· ≠ c) = t := by
  have hall : ∀ b ∈ a, decide (b ≠ c) = true := fun b hb =>
    decide_eq_true fun heq => ha (heq ▸ hb)
  rw [List.takeWhile_append_of_pos hall, List.dropWhile_append_of_pos hall]
  rcases ht with rfl | ⟨t, rfl⟩ <;> simp

theorem needsQuotes_iff {a : List UInt8} : needsQuotes a = true ↔ a = [] ∨ blank ∈ a :=
  decide_eq_true_iff

/-- A written argument is read back. -/
theorem splitLine_writeArg {a t : List UInt8} (ha : Writable a) (ht : Ends t) (room : ℕ) :
    splitLine (room + 1) (writeArg a ++ t) = a :: splitLine room t := by
  unfold writeArg
  split_ifs with hquotes
  · have hquote : quote ∉ a := by
      rcases needsQuotes_iff.mp hquotes with rfl | hblank
      · exact List.not_mem_nil
      · exact ha.blanks hblank
    have hline : quote :: a ++ [quote] ++ t = quote :: (a ++ quote :: t) := by simp
    obtain ⟨htake, hdrop⟩ := span_append hquote (.inr ⟨t, rfl⟩)
    have hskip : (quote :: (a ++ quote :: t)).dropWhile (· = blank) = quote :: (a ++ quote :: t) :=
      rfl
    rw [hline, splitLine, hskip]
    simp only [if_true, htake, hdrop, cString_eq ha.ended, List.tail_cons]
  · rw [needsQuotes_iff, not_or] at hquotes
    obtain ⟨hne, hblank⟩ := hquotes
    obtain ⟨c, a, rfl⟩ := List.exists_cons_of_ne_nil hne
    have hc : c ≠ blank := fun h => hblank (h ▸ List.mem_cons_self)
    have hquote : c ≠ quote := fun h => ha.head (congrArg some h)
    obtain ⟨htake, hdrop⟩ := span_append hblank ht
    have hskip : (c :: a ++ t).dropWhile (· = blank) = c :: (a ++ t) := by
      rw [List.cons_append, List.dropWhile_cons_of_neg (by simpa using hc)]
    rw [List.cons_append] at htake hdrop
    rw [splitLine, hskip]
    simp only [if_neg hquote, htake, hdrop, cString_eq ha.ended, splitLine_tail ht]

theorem joinArgs_cons (a b : List UInt8) (argv : List (List UInt8)) :
    joinArgs (a :: b :: argv) = writeArg a ++ blank :: joinArgs (b :: argv) := by
  simp [joinArgs, List.intercalate]

theorem splitLine_joinArgs {argv : List (List UInt8)} (hargv : ∀ a ∈ argv, Writable a) {room : ℕ}
    (hroom : argv.length ≤ room) : splitLine room (joinArgs argv) = argv := by
  induction argv generalizing room with
  | nil => exact splitLine_nil room
  | cons a argv ih =>
    obtain ⟨room, rfl⟩ : ∃ r, room = r + 1 := ⟨room - 1, by
      rw [List.length_cons] at hroom
      omega⟩
    have hroom' := Nat.le_of_succ_le_succ hroom
    obtain ⟨ha, hrest⟩ := List.forall_mem_cons.mp hargv
    cases argv with
    | nil =>
      have hjoin : joinArgs [a] = writeArg a ++ [] := by simp [joinArgs, List.intercalate]
      rw [hjoin, splitLine_writeArg ha (.inl rfl), splitLine_nil]
    | cons b argv =>
      rw [joinArgs_cons, splitLine_writeArg ha (.inr ⟨_, rfl⟩), splitLine_blank, ih hrest hroom']

theorem head_addLine (h : History) {token : List UInt8} (hne : token ≠ []) :
    (h.addLine token).tokens.head? = some token := by
  unfold History.addLine
  rw [if_neg hne]
  split_ifs with hsame
  · exact hsame
  · unfold History.push
    split_ifs <;> rfl

theorem splitArgs_joinArgs (line : List UInt8) :
    splitArgs (joinArgs (splitArgs line)) = splitArgs line :=
  splitLine_joinArgs writable_of_mem_splitLine (length_splitLine_le 31 line)

theorem head_addArgs (h : History) {line : List UInt8} (hargs : splitArgs line ≠ []) :
    (h.addArgs (splitArgs line)).tokens.head? = some (joinArgs (splitArgs line)) := by
  have hne : joinArgs (splitArgs line) ≠ [] := by
    intro hnil
    have hsplit := splitArgs_joinArgs line
    rw [hnil] at hsplit
    exact hargs hsplit.symm
  rw [History.addArgs, if_neg (by rwa [List.length_eq_zero_iff])]
  exact head_addLine h hne

/-- The line that the history keeps of a command splits into the arguments of the command. -/
theorem recall_splits_same (h : History) (line : List UInt8) (hargs : splitArgs line ≠ []) :
    ∃ stored, (h.addArgs (splitArgs line)).tokens.head? = some stored ∧
      splitArgs stored = splitArgs line :=
  ⟨_, head_addArgs h hargs, splitArgs_joinArgs line⟩

/-- The history of the shell before the first command. -/
def History.start : History := ⟨8, -1, [], by decide, by decide, by decide, by decide⟩

/-- The line `a "b c"""`: quotes that touch, and one without a partner. -/
theorem recall_splits_same_quotes :
    let line : List UInt8 := [0x61, 0x20, 0x22, 0x62, 0x20, 0x63, 0x22, 0x22, 0x22]
    splitArgs line = [[0x61], [0x62, 0x20, 0x63], []] ∧
      ∃ stored, (History.start.addArgs (splitArgs line)).tokens.head? = some stored ∧
        splitArgs stored = splitArgs line :=
  ⟨by decide, recall_splits_same History.start _ (by decide)⟩

/-- So the recalled line runs the command again. -/
theorem recall_runs_same {names : List (List UInt8)} {h h' : History} {line : List UInt8}
    {argv : List (List UInt8)} (hrun : handleInput names h line = (.run argv, h')) :
    ∃ stored, h'.tokens.head? = some stored ∧ (handleInput names h' stored).1 = .run argv := by
  unfold handleInput at hrun
  cases hargs : splitArgs line with
  | nil => simp [hargs] at hrun
  | cons command args =>
    simp only [hargs] at hrun
    split_ifs at hrun with hcommand
    · obtain ⟨rfl, rfl⟩ : command :: args = argv ∧ h.addArgs (command :: args) = h' := by
        simpa using hrun
      have hhead := @head_addArgs h line (by rw [hargs]; exact List.cons_ne_nil _ _)
      have hsplit := splitArgs_joinArgs line
      rw [hargs] at hhead hsplit
      refine ⟨_, hhead, ?_⟩
      unfold handleInput
      simp only [hsplit, if_pos hcommand]
    · simp at hrun

end BekenCam.Console
