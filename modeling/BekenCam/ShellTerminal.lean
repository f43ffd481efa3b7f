import BekenCam.ShellCompletion
import BekenCam.StepRuns
import BekenCam.Terminal

/-!
# The shell on a terminal

The shell prints what an edit changes and not the whole line, so the line on the screen and the line
in the buffer are kept alike key by key.
-/
namespace BekenCam.Console

open FlashKv (cString_append_zero)
open Http (ascii)
open Terminal (display screen Printable)

inductive Key
  | char (c : UInt8) (h : Printable c)
  | backspace
  | delete
  | left
  | right
  | home
  | homeAlt
  | toEnd
  | toEndAlt
  | up
  | down
  | tab

def Key.bytes : Key → List UInt8
  | .char c _ => [c]
  | .backspace => [0x7F]
  | .delete => controlDelete
  | .left => arrowLeft
  | .right => arrowRight
  | .home => controlHome
  | .homeAlt => controlHomeAlt
  | .toEnd => controlEnd
  | .toEndAlt => controlEndAlt
  | .up => arrowUp
  | .down => arrowDown
  | .tab => [0x09]

structure Session where
  shell : Shell
  terminal : Terminal

namespace Session

/-- The shell takes a byte, and the terminal what it prints. -/
def receive (x : Session) (c : UInt8) : Session :=
  let (shell, out) := x.shell.update c
  ⟨shell, x.terminal.write out⟩

def press (x : Session) (k : Key) : Session := k.bytes.foldl receive x

/-- A key that keeps the line below 2047 characters. -/
def step (x : Session) (k : Key) : Option Session :=
  if (x.press k).shell.input.size < inputBufferSize - 1 then some (x.press k) else none

/-- The prompt of a shell with a history, on a blank line. -/
def start (handlers : List Handler) (history : History) : Session :=
  ⟨{ Shell.create handlers with history := history }, (display [] 0).write Console.start⟩

/-- The terminal shows the prompt and the line, and its cursor is where the next character goes. -/
structure Shows (x : Session) : Prop where
  line : x.terminal.line = screen (prompt ++ x.shell.input.buffer.take x.shell.input.size)
  col : x.terminal.col = prompt.length + x.shell.input.getOffset

end Session

/-- The tabulator prints over what is right of the cursor, and lists candidates without going back to
the cursor. It does no harm where it replaces the line or prints nothing. -/
def Clear (s : Shell) (left right : List UInt8) : Prop :=
  left = [] ∨ left.getLast? = some blank ∨
    match matching s.names left with
    | [] => True
    | [name] => name = left → ∀ c ∈ right, c = blank
    | _ =>
      if commonPrefix (s.found left) ≠ left then ∀ c ∈ right, c = blank
      else s.autocompleteStreak > 1 ∨ right = []

def ClearKey (x : Session) : Key → Prop
  | .tab => ∀ left right, x.shell.input.Holds left right → Clear x.shell left right
  | _ => True

/-! ## What the formats make of a terminal -/

def Letters (l : List UInt8) : Prop := ∀ c ∈ l, Printable c

theorem Letters.ended {l : List UInt8} (h : Letters l) : 0 ∉ l :=
  fun hzero => absurd (h 0 hzero).1 (by decide)

theorem letters_append {a b : List UInt8} : Letters (a ++ b) ↔ Letters a ∧ Letters b :=
  List.forall_mem_append

theorem letters_cons {c : UInt8} {l : List UInt8} : Letters (c :: l) ↔ Printable c ∧ Letters l :=
  List.forall_mem_cons

section Formats

variable (line : ℕ → UInt8) (col : ℕ)

theorem write_decimal (n : ℕ) :
    (⟨.number 0, line, col⟩ : Terminal).write (decimal n) = ⟨.number n, line, col⟩ := by
  unfold decimal
  split_ifs with hn
  · rw [hn]
    rfl
  · have hlt : ∀ d ∈ Nat.digits 10 n, d < 10 := fun d => Nat.digits_lt_base (by decide)
    have hdigits := Terminal.write_decimal hlt line col
    rw [Nat.ofDigits_digits] at hdigits
    exact hdigits

theorem write_csi (n : ℕ) {final : UInt8} (hfinal : 0x3F < final) :
    (⟨.ground, line, col⟩ : Terminal).write (csi n final) =
      Terminal.control ⟨.number n, line, col⟩ n final := by
  have hdigit : ¬(0x30 ≤ final ∧ final ≤ 0x39) := fun h =>
    absurd (UInt8.lt_of_lt_of_le hfinal h.2) (by decide)
  have hparameter : ¬(0x20 ≤ final ∧ final ≤ 0x3F) := fun h => absurd hfinal (UInt8.not_lt.mpr h.2)
  rw [csi, Terminal.write_append, Terminal.write_append]
  change ((⟨.number 0, line, col⟩ : Terminal).write (decimal n)).write [final] = _
  rw [write_decimal, Terminal.write_cons, Terminal.write_nil, Terminal.feed]
  dsimp only
  rw [if_neg hdigit, if_neg hparameter]

theorem write_cursorBack {n : ℕ} (hn : 0 < n) :
    (⟨.ground, line, col⟩ : Terminal).write (cursorBack n) = ⟨.ground, line, col - n⟩ := by
  rw [cursorBack, write_csi line col n (by decide), Terminal.control, if_neg (by decide),
    if_pos rfl, max_eq_right hn]

theorem write_cursorForward {n : ℕ} (hn : 0 < n) :
    (⟨.ground, line, col⟩ : Terminal).write (cursorForward n) = ⟨.ground, line, col + n⟩ := by
  rw [cursorForward, write_csi line col n (by decide), Terminal.control, if_pos rfl,
    max_eq_right hn]

theorem write_clearLine :
    (⟨.ground, line, col⟩ : Terminal).write clearLine = display [] 0 := by
  rw [clearLine, Terminal.write_append, Terminal.write_append]
  change (Terminal.write ⟨.ground, line, 0⟩ (csi 2 0x4B)).write [0x0D] = _
  rw [write_csi line 0 2 (by decide)]
  rfl

end Formats

/-! ## What an edit prints -/

theorem letters_prompt : Letters prompt := by
  unfold Letters
  decide +kernel

theorem display_insert (pre : List UInt8) {right : List UInt8} {c : UInt8} (hc : Printable c)
    (hright : Letters right) :
    (display (pre ++ right) pre.length).write
        ([c] ++ if right.length > 0 then right ++ cursorBack right.length else []) =
      display (pre ++ c :: right) (pre.length + 1) := by
  split_ifs with hmore
  · have hover := Terminal.write_printable pre right (letters_cons.mpr ⟨hc, hright⟩)
    rw [List.drop_eq_nil_of_le (by rw [List.length_cons]; omega), List.append_nil] at hover
    rw [← List.append_assoc, List.singleton_append, Terminal.write_append, hover, display,
      write_cursorBack _ _ hmore, List.length_cons]
    congr 1
    omega
  · obtain rfl : right = [] := List.length_eq_zero_iff.mp (by omega)
    have hover := Terminal.write_printable pre [] (letters_cons.mpr ⟨hc, hright⟩)
    rw [List.drop_nil, List.append_nil, List.append_nil] at hover
    rw [List.append_nil, List.append_nil]
    exact hover

theorem display_delete (pre : List UInt8) {right : List UInt8} (c : UInt8)
    (hright : Letters right) :
    (display (pre ++ c :: right) pre.length).write
        (right ++ [blank] ++ cursorBack (right.length + 1)) =
      display (pre ++ right) pre.length := by
  have hblank : Letters (right ++ [blank]) :=
    letters_append.mpr ⟨hright, letters_cons.mpr ⟨by decide, List.forall_mem_nil _⟩⟩
  have hover := Terminal.write_printable pre (c :: right) hblank
  rw [List.drop_eq_nil_of_le (by simp), List.append_nil, List.length_append,
    List.length_singleton] at hover
  have hscreen : screen (pre ++ (right ++ [blank])) = screen (pre ++ right) := by
    rw [← List.append_assoc]
    exact Terminal.screen_append_blanks _ (List.forall_mem_singleton.mpr rfl)
  rw [Terminal.write_append, hover, display, write_cursorBack _ _ (Nat.succ_pos _), hscreen,
    Nat.add_sub_cancel]
  rfl

theorem display_start {text : List UInt8} (htext : Letters text) :
    (display [] 0).write (start ++ text) = display (prompt ++ text) (prompt.length + text.length) := by
  have hover := Terminal.write_printable [] [] (letters_append.mpr ⟨letters_prompt, htext⟩)
  rwa [List.drop_nil, List.append_nil, List.append_nil, List.nil_append, List.length_append,
    List.length_nil, Nat.zero_add] at hover

theorem display_replace (line : ℕ → UInt8) (col : ℕ) {text : List UInt8} (htext : Letters text) :
    (⟨.ground, line, col⟩ : Terminal).write (clearLine ++ start ++ text) =
      display (prompt ++ text) (prompt.length + text.length) := by
  rw [List.append_assoc, Terminal.write_append, write_clearLine, display_start htext]

theorem display_complete (pre : List UInt8) {text right : List UInt8} (htext : Letters text)
    (hright : ∀ c ∈ right, c = blank) :
    (display (pre ++ right) pre.length).write text =
      display (pre ++ text ++ right) (pre.length + text.length) := by
  have hrest : ∀ c ∈ right.drop text.length, c = blank := fun c hc =>
    hright c (List.mem_of_mem_drop hc)
  rw [Terminal.write_printable pre right htext, display, display,
    Terminal.screen_append_blanks _ hrest, Terminal.screen_append_blanks _ hright]

theorem listing_scrolls {found : List (List UInt8)} (h : ∀ name ∈ found, Letters name) :
    ∀ c ∈ eol ++ (found.mapIdx fun i name =>
      (if i > 0 ∧ i % 4 = 0 then eol else []) ++ padded name).flatten,
      Printable c ∨ c = 0x0D ∨ c = 0x0A := by
  have heol : ∀ c ∈ eol, Printable c ∨ c = 0x0D ∨ c = 0x0A := by decide +kernel
  intro c hc
  rcases List.mem_append.mp hc with hc | hc
  · exact heol c hc
  · obtain ⟨entry, hentry, hc⟩ := List.mem_flatten.mp hc
    obtain ⟨i, hi, rfl⟩ := List.mem_mapIdx.mp hentry
    rcases List.mem_append.mp hc with hc | hc
    · split_ifs at hc
      · exact heol c hc
      · exact absurd hc List.not_mem_nil
    · rcases List.mem_append.mp hc with hc | hc
      · exact .inl (h _ (List.getElem_mem hi) c hc)
      · rw [List.eq_of_mem_replicate hc]
        exact .inl (by decide)

theorem display_listing (line : ℕ → UInt8) (col : ℕ) {found : List (List UInt8)}
    {text : List UInt8} (h : ∀ name ∈ found, Letters name) (htext : Letters text) :
    (⟨.ground, line, col⟩ : Terminal).write (Shell.listing found ++ start ++ text) =
      display (prompt ++ text) (prompt.length + text.length) := by
  obtain ⟨line', col', hscroll⟩ := Terminal.write_scroll (listing_scrolls h) line col
  have hlisting : (⟨.ground, line, col⟩ : Terminal).write (Shell.listing found) = display [] 0 := by
    rw [Shell.listing, Terminal.write_append, hscroll]
    exact Terminal.write_newline line' col'
  rw [List.append_assoc, Terminal.write_append, hlisting, display_start htext]

/-! ## The session between two keys -/

/-- The editor holds a line of characters that can be shown, with room for more. -/
structure Editing (s : Shell) (left right : List UInt8) : Prop where
  holds : s.input.Holds left right
  letters : Letters (left ++ right)
  room : s.input.size < inputBufferSize - 1
  error : s.input.error = false
  sequence : s.sequence = []
  names : ∀ name ∈ s.names, Letters name
  history : ∀ line ∈ s.history.tokens, Letters line

/-- What the terminal shows of the two parts of the line. -/
def shown (left right : List UInt8) : Terminal :=
  display (prompt ++ left ++ right) (prompt ++ left).length

/-- An operation on the line printed what the terminal needs to show the new line. -/
structure Follows (left right : List UInt8) (r : Shell × List UInt8) (left' right' : List UInt8) :
    Prop where
  editing : Editing r.1 left' right'
  terminal : (shown left right).write r.2 = shown left' right'

/-- An operation changes the line and leaves the rest. -/
structure Same (s s' : Shell) : Prop where
  handlers : s'.handlers = s.handlers
  tokens : s'.history.tokens = s.history.tokens
  sequence : s'.sequence = s.sequence

theorem Editing.next {s s' : Shell} {left right left' right' : List UInt8}
    (h : Editing s left right) (hsame : Same s s') (hholds : s'.input.Holds left' right')
    (herror : s'.input.error = s.input.error) (hletters : Letters (left' ++ right'))
    (hshort : s'.input.size < inputBufferSize - 1) : Editing s' left' right' where
  holds := hholds
  letters := hletters
  room := hshort
  error := herror.trans h.error
  sequence := hsame.sequence.trans h.sequence
  names := by
    rw [Shell.names, hsame.handlers]
    exact h.names
  history := by
    rw [hsame.tokens]
    exact h.history

def controls : List (List UInt8) :=
  [arrowUp, arrowDown, arrowRight, arrowLeft, controlHome, controlHomeAlt, controlEnd,
    controlEndAlt, controlDelete]

/-- The bytes of a key end in one operation. -/
theorem foldl_control {x : Session} (hsequence : x.shell.sequence = []) {control : List UInt8}
    (h : control ∈ controls) : control.foldl Session.receive x =
      ⟨(x.shell.handleControlSequence control).1,
        x.terminal.write (x.shell.handleControlSequence control).2⟩ := by
  obtain ⟨⟨handlers, history, input, sequence, streak⟩, terminal⟩ := x
  obtain rfl : sequence = [] := hsequence
  simp only [controls, List.mem_cons, List.not_mem_nil, or_false] at h
  obtain rfl | rfl | rfl | rfl | rfl | rfl | rfl | rfl | rfl := h <;> rfl

/-! ## The keys -/

section Keys

variable {s : Shell} {left right : List UInt8}

theorem Editing.ended (h : Editing s left right) : 0 ∉ left ++ right := h.letters.ended

theorem fromCursor_eq {i : Input} (h : i.Holds left right) (hright : 0 ∉ right) :
    i.fromCursor = right := by
  obtain ⟨rest, htext⟩ := h.text
  rw [Input.fromCursor, h.cursor, htext, List.drop_left]
  exact cString_append_zero hright rest

theorem whole_eq {i : Input} (h : i.Holds left right) (hline : 0 ∉ left ++ right) :
    i.whole = left ++ right := by
  obtain ⟨rest, htext⟩ := h.text
  rw [Input.whole, htext, ← List.append_assoc]
  exact cString_append_zero hline rest

theorem tail_eq {i : Input} (h : i.Holds left right) : i.size - i.getOffset = right.length := by
  rw [Input.getOffset, h.size, h.cursor, Nat.add_sub_cancel_left]

/-- A key that does nothing prints nothing. -/
theorem Editing.follows_same (h : Editing s left right) {s' : Shell} (hsame : Same s s')
    (hinput : s'.input = s.input) : Follows left right (s', []) left right :=
  ⟨h.next hsame (hinput ▸ h.holds) (by rw [hinput]) h.letters (hinput ▸ h.room), rfl⟩

/-- The cursor goes from one place to another. -/
theorem Editing.follows_move (h : Editing s left right) {left' right' : List UInt8} {i : Input}
    {out : List UInt8} (hholds : i.Holds left' right') (herror : i.error = s.input.error)
    (hline : left' ++ right' = left ++ right)
    (hout : (shown left right).write out =
      display (prompt ++ left ++ right) (prompt ++ left').length) :
    Follows left right ({ s with input := i }, out) left' right' where
  editing := by
    refine h.next ⟨rfl, rfl, rfl⟩ hholds herror (hline ▸ h.letters) ?_
    have hroom := h.room
    have hlen := congrArg List.length hline
    rw [List.length_append, List.length_append] at hlen
    rw [h.holds.size] at hroom
    rw [hholds.size]
    omega
  terminal := by
    rw [hout, shown, List.append_assoc prompt, List.append_assoc prompt, hline]

theorem follows_left (h : Editing s left right) :
    ∃ left' right', Follows left right (s.handleControlSequence arrowLeft) left' right' := by
  change ∃ left' right', Follows left right
    ({ s with input := s.input.cursorLeft.2 }, if s.input.cursorLeft.1 then arrowLeft else []) _ _
  obtain rfl | ⟨front, c, rfl⟩ := List.eq_nil_or_concat' left
  · rw [h.holds.cursorLeft_start]
    exact ⟨[], right, h.follows_same ⟨rfl, rfl, rfl⟩ rfl⟩
  · obtain ⟨hmove, hholds⟩ := h.holds.cursorLeft
    rw [hmove]
    refine ⟨front, c :: right, h.follows_move hholds rfl (by simp) ?_⟩
    have hcol : (prompt ++ (front ++ [c])).length - 1 = (prompt ++ front).length := by simp
    rw [← hcol]
    rfl

theorem follows_right (h : Editing s left right) :
    ∃ left' right', Follows left right (s.handleControlSequence arrowRight) left' right' := by
  change ∃ left' right', Follows left right
    ({ s with input := s.input.cursorRight.2 }, if s.input.cursorRight.1 then arrowRight else []) _ _
  cases right with
  | nil =>
    rw [h.holds.cursorRight_end]
    exact ⟨left, [], h.follows_same ⟨rfl, rfl, rfl⟩ rfl⟩
  | cons c right =>
    obtain ⟨hmove, hholds⟩ := h.holds.cursorRight
    rw [hmove]
    refine ⟨left ++ [c], right, h.follows_move hholds rfl (by simp) ?_⟩
    have hcol : (prompt ++ (left ++ [c])).length = (prompt ++ left).length + 1 := by
      rw [← List.append_assoc, List.length_append, List.length_singleton]
    rw [hcol]
    rfl

theorem follows_home (h : Editing s left right) :
    ∃ left' right', Follows left right
      (if s.input.getOffset > 0 then
        ({ s with input := s.input.setOffset 0 }, cursorBack s.input.getOffset)
      else (s, [])) left' right' := by
  have hoffset : s.input.getOffset = left.length := h.holds.cursor
  rw [hoffset]
  split_ifs with hmore
  · refine ⟨[], left ++ right, h.follows_move h.holds.setOffset_start rfl rfl ?_⟩
    rw [shown, display, write_cursorBack _ _ hmore, List.length_append, Nat.add_sub_cancel]
    rfl
  · exact ⟨left, right, h.follows_same ⟨rfl, rfl, rfl⟩ rfl⟩

theorem follows_end (h : Editing s left right) :
    ∃ left' right', Follows left right
      (if s.input.size - s.input.getOffset > 0 then
        ({ s with input := s.input.setOffset s.input.size },
          cursorForward (s.input.size - s.input.getOffset))
      else (s, [])) left' right' := by
  rw [tail_eq h.holds]
  split_ifs with hmore
  · refine ⟨left ++ right, [], h.follows_move h.holds.setOffset_end rfl (List.append_nil _) ?_⟩
    rw [shown, display, write_cursorForward _ _ hmore, ← List.length_append, List.append_assoc]
    rfl
  · exact ⟨left, right, h.follows_same ⟨rfl, rfl, rfl⟩ rfl⟩

theorem follows_delete (h : Editing s left right) :
    ∃ left' right', Follows left right (s.handleControlSequence controlDelete) left' right' := by
  change ∃ left' right', Follows left right
    ({ s with input := s.input.removeRight.2 }, if s.input.removeRight.1 then
      s.input.removeRight.2.fromCursor ++ [blank] ++
        cursorBack (s.input.removeRight.2.size - s.input.removeRight.2.getOffset + 1) else []) _ _
  cases right with
  | nil =>
    rw [h.holds.removeRight_end]
    exact ⟨left, [], h.follows_same ⟨rfl, rfl, rfl⟩ rfl⟩
  | cons c right =>
    obtain ⟨hremoved, hholds, herror⟩ := h.holds.removeRight
    obtain ⟨hleft, hright⟩ := letters_append.mp h.letters
    have hrest := (letters_cons.mp hright).2
    have hroom := h.room
    rw [h.holds.size, List.length_cons] at hroom
    rw [hremoved, if_pos rfl, fromCursor_eq hholds hrest.ended, tail_eq hholds]
    refine ⟨left, right, h.next ⟨rfl, rfl, rfl⟩ hholds herror
      (letters_append.mpr ⟨hleft, hrest⟩) (by dsimp only; rw [hholds.size]; omega), ?_⟩
    exact display_delete (prompt ++ left) c hrest

theorem update_backspace (hsequence : s.sequence = []) :
    s.update 0x7F = ({ s with autocompleteStreak := 0, input := s.input.removeLeft.2 },
      if s.input.removeLeft.1 then
        [backspace] ++ s.input.removeLeft.2.fromCursor ++ [blank] ++
          cursorBack (s.input.removeLeft.2.size - s.input.removeLeft.2.getOffset + 1)
      else []) := by
  obtain ⟨handlers, history, input, sequence, streak⟩ := s
  obtain rfl : sequence = [] := hsequence
  rfl

theorem follows_backspace (h : Editing s left right) :
    ∃ left' right', Follows left right (s.update 0x7F) left' right' := by
  rw [update_backspace h.sequence]
  obtain rfl | ⟨front, c, rfl⟩ := List.eq_nil_or_concat' left
  · rw [h.holds.removeLeft_start]
    exact ⟨[], right, h.follows_same ⟨rfl, rfl, rfl⟩ rfl⟩
  · obtain ⟨hremoved, hholds, herror⟩ := h.holds.removeLeft
    obtain ⟨hleft, hright⟩ := letters_append.mp h.letters
    have hroom := h.room
    rw [h.holds.size, List.length_append, List.length_singleton] at hroom
    rw [hremoved, if_pos rfl, fromCursor_eq hholds hright.ended, tail_eq hholds]
    refine ⟨front, right, h.next ⟨rfl, rfl, rfl⟩ hholds herror
      (letters_append.mpr ⟨(letters_append.mp hleft).1, hright⟩)
      (by dsimp only; rw [hholds.size]; omega), ?_⟩
    have hdelete := display_delete (prompt ++ front) c hright
    have hcol : (prompt ++ (front ++ [c])).length - 1 = (prompt ++ front).length := by simp
    have hline : prompt ++ (front ++ [c]) ++ right = prompt ++ front ++ c :: right := by simp
    have hback : (shown (front ++ [c]) right).write [backspace] =
        display (prompt ++ front ++ c :: right) (prompt ++ front).length := by
      rw [← hcol, ← hline]
      rfl
    rw [List.append_assoc, List.append_assoc, Terminal.write_append, hback, ← List.append_assoc,
      hdelete]
    rfl

theorem update_char {c : UInt8} (hc : Printable c) (hsequence : s.sequence = []) :
    s.update c = if (s.input.put c).error then
        ({ s with autocompleteStreak := 0, input := (s.input.put c).reset }, start)
      else ({ s with autocompleteStreak := 0, input := s.input.put c },
        [c] ++ if (s.input.put c).size - (s.input.put c).getOffset > 0 then
          (s.input.put c).fromCursor ++ cursorBack ((s.input.put c).size - (s.input.put c).getOffset)
        else []) := by
  obtain ⟨handlers, history, input, sequence, streak⟩ := s
  obtain rfl : sequence = [] := hsequence
  have hne : ∀ k : UInt8, ¬Printable k → c ≠ k := fun k hk heq => hk (heq ▸ hc)
  have hdetect : detect [] c = (.noSequence, []) := by
    rw [detect, if_neg (hne escape (by decide))]
    rfl
  unfold Shell.update
  simp only [hdetect, if_neg (hne 0x09 (by decide)), if_neg (hne 0x0D (by decide)),
    if_neg (hne 0x7F (by decide)), if_neg (hne 0x0A (by decide)),
    if_neg (not_or.mpr ⟨hne 0x03 (by decide), hne 0x04 (by decide)⟩)]

theorem follows_char (h : Editing s left right) {c : UInt8} (hc : Printable c)
    (hshort : (s.update c).1.input.size < inputBufferSize - 1) :
    Follows left right (s.update c) (left ++ [c]) right := by
  have hroom := h.room
  rw [h.holds.size] at hroom
  obtain ⟨hholds, herror⟩ := h.holds.put hroom c
  obtain ⟨hleft, hright⟩ := letters_append.mp h.letters
  have hnew : Letters [c] := letters_cons.mpr ⟨hc, List.forall_mem_nil _⟩
  have hfine : ¬(s.input.put c).error = true := by rw [herror, h.error]; exact Bool.false_ne_true
  rw [update_char hc h.sequence, if_neg hfine] at hshort ⊢
  rw [fromCursor_eq hholds hright.ended, tail_eq hholds]
  refine ⟨h.next ⟨rfl, rfl, rfl⟩ hholds herror
    (letters_append.mpr ⟨letters_append.mpr ⟨hleft, hnew⟩, hright⟩) hshort, ?_⟩
  have hinsert := display_insert (prompt ++ left) hc hright
  have hline : prompt ++ (left ++ [c]) ++ right = prompt ++ left ++ c :: right := by simp
  have hcol : (prompt ++ (left ++ [c])).length = (prompt ++ left).length + 1 := by
    rw [← List.append_assoc, List.length_append, List.length_singleton]
  rw [← hline, ← hcol] at hinsert
  exact hinsert

/-- A line from elsewhere takes the place of the line. -/
theorem follows_replace (h : Editing s left right) {s' : Shell} (hsame : Same s s')
    {command : Option (List UInt8)} (hcommand : ∀ text ∈ command, Letters text)
    (hshort : (s'.replaceCommand command).1.input.size < inputBufferSize - 1) :
    ∃ left' right', Follows left right (s'.replaceCommand command) left' right' := by
  cases command with
  | none =>
    refine ⟨[], [], h.next ⟨hsame.handlers, hsame.tokens, hsame.sequence⟩ Input.holds_fresh
      h.error.symm (List.forall_mem_nil _) hshort, ?_⟩
    have hreplace := display_replace (screen (prompt ++ left ++ right)) (prompt ++ left).length
      (List.forall_mem_nil Printable)
    rwa [List.append_nil] at hreplace
  | some text =>
    have htext := hcommand text rfl
    have hholds := Input.holds_fresh.foldl_put text
    have hsize : (text.foldl Input.put Input.fresh).size < inputBufferSize - 1 := hshort
    rw [hholds.size, List.nil_append, List.length_take] at hsize
    simp only [List.length_nil, Nat.sub_zero, Nat.add_zero] at hsize
    have hall : text.take (inputBufferSize - 1) = text := List.take_of_length_le (by omega)
    simp only [List.length_nil, Nat.sub_zero, hall, List.nil_append] at hholds
    have herror := Input.holds_fresh.foldl_put_error
      (show [].length + text.length + [].length ≤ inputBufferSize - 1 by simp; omega)
    refine ⟨text, [], h.next ⟨hsame.handlers, hsame.tokens, hsame.sequence⟩ hholds
      (herror.trans h.error.symm) (by rwa [List.append_nil]) hshort, ?_⟩
    have hreplace := display_replace (screen (prompt ++ left ++ right)) (prompt ++ left).length htext
    rw [← List.length_append] at hreplace
    rw [shown, shown, List.append_nil]
    exact hreplace

theorem tokens_prev (history : History) :
    history.prev.2.tokens = history.tokens ∧ ∀ text ∈ history.prev.1, text ∈ history.tokens := by
  unfold History.prev
  split_ifs
  · exact ⟨rfl, fun text htext => absurd htext (by simp)⟩
  · exact ⟨rfl, fun text htext => List.mem_of_getElem? htext⟩
  · exact ⟨rfl, fun text htext => List.mem_of_getElem? htext⟩

theorem tokens_next (history : History) :
    history.next.2.tokens = history.tokens ∧ ∀ text ∈ history.next.1, text ∈ history.tokens := by
  unfold History.next
  split_ifs
  · exact ⟨rfl, fun text htext => absurd htext (by simp)⟩
  · exact ⟨rfl, fun text htext => List.mem_of_getElem? htext⟩

theorem follows_up (h : Editing s left right)
    (hshort : (s.handleControlSequence arrowUp).1.input.size < inputBufferSize - 1) :
    ∃ left' right', Follows left right (s.handleControlSequence arrowUp) left' right' := by
  obtain ⟨htokens, hmem⟩ := tokens_prev s.history
  have hsame : Same s { s with history := s.history.prev.2 } := ⟨rfl, htokens, rfl⟩
  exact follows_replace h hsame (fun text htext => h.history _ (hmem text htext)) hshort

theorem follows_down (h : Editing s left right)
    (hshort : (s.handleControlSequence arrowDown).1.input.size < inputBufferSize - 1) :
    ∃ left' right', Follows left right (s.handleControlSequence arrowDown) left' right' := by
  obtain ⟨htokens, hmem⟩ := tokens_next s.history
  have hsame : Same s { s with history := s.history.next.2 } := ⟨rfl, htokens, rfl⟩
  exact follows_replace h hsame (fun text htext => h.history _ (hmem text htext)) hshort

/-- Text goes in where nothing but blanks is right of the cursor. -/
theorem follows_putAll (h : Editing s left right) {text : List UInt8} (htext : Letters text)
    (hright : ∀ c ∈ right, c = blank) {s' : Shell} (hsame : Same s s')
    (hinput : s'.input = (s.putAll text).input) (hshort : s'.input.size < inputBufferSize - 1) :
    ∃ left' right', Follows left right (s', text) left' right' := by
  have hholds : (s.putAll text).input.Holds _ right := h.holds.foldl_put text
  have hroom := h.room
  rw [hinput, hholds.size, List.length_append, List.length_take] at hshort
  rw [h.holds.size] at hroom
  have hall : text.take (inputBufferSize - 1 - left.length - right.length) = text :=
    List.take_of_length_le (by omega)
  rw [hall, ← hinput] at hholds
  obtain ⟨hl, hr⟩ := letters_append.mp h.letters
  have herror : s'.input.error = s.input.error := by
    rw [hinput]
    exact h.holds.foldl_put_error (by omega)
  refine ⟨left ++ text, right, h.next hsame hholds herror
    (letters_append.mpr ⟨letters_append.mpr ⟨hl, htext⟩, hr⟩) ?_, ?_⟩
  · rw [hholds.size, List.length_append]
    omega
  · have hcomplete := display_complete (prompt ++ left) htext hright
    rw [← List.length_append, List.append_assoc prompt] at hcomplete
    exact hcomplete

theorem update_tab (hsequence : s.sequence = []) :
    s.update 0x09 = ({ s.autocomplete.1 with
      autocompleteStreak := s.autocomplete.1.autocompleteStreak + 1 }, s.autocomplete.2) := by
  obtain ⟨handlers, history, input, sequence, streak⟩ := s
  obtain rfl : sequence = [] := hsequence
  rfl

theorem letters_found (h : Editing s left right) {name : List UInt8} (hname : name ∈ s.found left) :
    Letters name :=
  h.names name (List.mem_of_mem_filter (List.mem_of_mem_take hname))

/-- What the candidates have in common is a part of the first of them. -/
theorem letters_common (h : Editing s left right) :
    Letters ((commonPrefix (s.found left)).drop left.length) := by
  intro c hc
  have hmem := List.mem_of_mem_drop hc
  have hfound : ∀ name ∈ s.found left, Letters name := fun _ => letters_found h
  cases hlist : s.found left with
  | nil =>
    rw [hlist] at hmem
    exact absurd hmem List.not_mem_nil
  | cons first others =>
    rw [hlist] at hmem hfound
    exact hfound first List.mem_cons_self c (List.mem_of_mem_take hmem)

/-- The candidates are listed under the line, and the line is printed again. -/
theorem follows_listing (h : Editing s left []) {s' : Shell} (hsame : Same s s')
    (hinput : s'.input = s.input) :
    Follows left [] (s', Shell.listing (s.found left) ++ start ++ s.input.whole) left [] where
  editing := h.next hsame (hinput ▸ h.holds) (by rw [hinput]) h.letters (hinput ▸ h.room)
  terminal := by
    have htext := h.letters
    have hlisting := display_listing (screen (prompt ++ left ++ [])) (prompt ++ left).length
      (fun _ => letters_found h) htext
    rw [whole_eq h.holds h.letters.ended, shown]
    simp only [List.append_nil, ← List.length_append] at hlisting ⊢
    exact hlisting

theorem follows_tab (h : Editing s left right) (hclear : Clear s left right)
    (hshort : (s.update 0x09).1.input.size < inputBufferSize - 1) :
    ∃ left' right', Follows left right (s.update 0x09) left' right' := by
  rw [update_tab h.sequence] at hshort ⊢
  by_cases hstart : left = [] ∨ left.getLast? = some blank
  · rw [Shell.autocomplete_blank h.holds hstart]
    exact ⟨left, right, h.follows_same ⟨rfl, rfl, rfl⟩ rfl⟩
  obtain ⟨hne, hblank⟩ := not_or.mp hstart
  replace hclear := (hclear.resolve_left hne).resolve_left hblank
  cases hfound : matching s.names left with
  | nil =>
    rw [Shell.autocomplete_none h.holds hne hblank hfound]
    exact ⟨left, right, h.follows_same ⟨rfl, rfl, rfl⟩ rfl⟩
  | cons first rest =>
    rw [hfound] at hclear
    have hfirst : first ∈ matching s.names left := hfound ▸ List.mem_cons_self
    cases rest with
    | nil =>
      by_cases hself : first = left
      · rw [Shell.autocomplete_self h.holds hne hblank (hself ▸ hfound)] at hshort ⊢
        exact follows_putAll h (letters_cons.mpr ⟨by decide, List.forall_mem_nil _⟩) (hclear hself)
          ⟨rfl, rfl, rfl⟩ rfl hshort
      · rw [Shell.autocomplete_one h.holds hne hblank hfound hself] at hshort ⊢
        have hsame : Same s { s with autocompleteStreak := s.autocompleteStreak + 1 } :=
          ⟨rfl, rfl, rfl⟩
        have hname : Letters first := h.names first (List.mem_of_mem_filter hfirst)
        have hcommand : ∀ text ∈ some first, Letters text := fun text htext =>
          Option.some.inj htext ▸ hname
        exact follows_replace h hsame hcommand hshort
    | cons second others =>
      have hmany : 2 ≤ (matching s.names left).length := by
        rw [hfound, List.length_cons, List.length_cons]
        omega
      rw [Shell.autocomplete_many h.holds hne hblank hmany] at hshort ⊢
      dsimp only at hclear
      by_cases hother : commonPrefix (s.found left) ≠ left
      · rw [if_pos hother] at hclear hshort ⊢
        exact follows_putAll h (letters_common h) hclear ⟨rfl, rfl, rfl⟩ rfl hshort
      · rw [if_neg hother] at hclear hshort ⊢
        by_cases hstreak : s.autocompleteStreak > 1
        · rw [if_pos hstreak]
          exact ⟨left, right, h.follows_same ⟨rfl, rfl, rfl⟩ rfl⟩
        · rw [if_neg hstreak]
          obtain rfl := hclear.resolve_left hstreak
          exact ⟨left, [], follows_listing h ⟨rfl, rfl, rfl⟩ rfl⟩

end Keys

/-! ## A session -/

namespace Session

/-- The terminal shows the line that the editor holds. -/
def Live (x : Session) : Prop :=
  ∃ left right, Editing x.shell left right ∧ x.terminal = shown left right

theorem Live.shows {x : Session} (h : x.Live) : x.Shows := by
  obtain ⟨left, right, hediting, hterminal⟩ := h
  obtain ⟨rest, htext⟩ := hediting.holds.text
  have hline : x.shell.input.buffer.take x.shell.input.size = left ++ right := by
    rw [htext, hediting.holds.size, ← List.length_append, ← List.append_assoc, List.take_left]
  rw [shown] at hterminal
  refine ⟨?_, ?_⟩
  · rw [hterminal, hline, ← List.append_assoc]
    rfl
  · rw [hterminal, Input.getOffset, hediting.holds.cursor, ← List.length_append]
    rfl

theorem live_of_follows {x : Session} {left right : List UInt8} {r : Shell × List UInt8}
    (hterminal : x.terminal = shown left right)
    (h : ∃ left' right', Follows left right r left' right') :
    Live ⟨r.1, x.terminal.write r.2⟩ := by
  obtain ⟨left', right', hfollows⟩ := h
  exact ⟨left', right', hfollows.editing, by rw [hterminal, hfollows.terminal]⟩

theorem Live.press {x : Session} (h : x.Live) {k : Key} (hclear : ClearKey x k)
    (hshort : (x.press k).shell.input.size < inputBufferSize - 1) : (x.press k).Live := by
  obtain ⟨left, right, hediting, hterminal⟩ := h
  have hcontrol := fun control => @foldl_control x hediting.sequence control
  cases k with
  | char c hc => exact live_of_follows hterminal ⟨_, _, follows_char hediting hc hshort⟩
  | backspace => exact live_of_follows hterminal (follows_backspace hediting)
  | tab =>
    exact live_of_follows hterminal
      (follows_tab hediting (hclear left right hediting.holds) hshort)
  | delete =>
    rw [Session.press, Key.bytes, hcontrol _ (by decide)]
    exact live_of_follows hterminal (follows_delete hediting)
  | left =>
    rw [Session.press, Key.bytes, hcontrol _ (by decide)]
    exact live_of_follows hterminal (follows_left hediting)
  | right =>
    rw [Session.press, Key.bytes, hcontrol _ (by decide)]
    exact live_of_follows hterminal (follows_right hediting)
  | home =>
    rw [Session.press, Key.bytes, hcontrol _ (by decide)]
    exact live_of_follows hterminal (follows_home hediting)
  | homeAlt =>
    rw [Session.press, Key.bytes, hcontrol _ (by decide)]
    exact live_of_follows hterminal (follows_home hediting)
  | toEnd =>
    rw [Session.press, Key.bytes, hcontrol _ (by decide)]
    exact live_of_follows hterminal (follows_end hediting)
  | toEndAlt =>
    rw [Session.press, Key.bytes, hcontrol _ (by decide)]
    exact live_of_follows hterminal (follows_end hediting)
  | up =>
    rw [Session.press, Key.bytes, hcontrol _ (by decide)] at hshort ⊢
    exact live_of_follows hterminal (follows_up hediting hshort)
  | down =>
    rw [Session.press, Key.bytes, hcontrol _ (by decide)] at hshort ⊢
    exact live_of_follows hterminal (follows_down hediting hshort)

theorem live_start {handlers : List Handler} {history : History}
    (hnames : ∀ handler ∈ handlers, Letters handler.name)
    (hhistory : ∀ line ∈ history.tokens, Letters line) : (start handlers history).Live := by
  refine ⟨[], [], ⟨Input.holds_fresh, List.forall_mem_nil _, Nat.zero_lt_succ _, rfl, rfl, ?_, hhistory⟩, ?_⟩
  · intro name hname
    obtain ⟨handler, hmem, rfl⟩ := List.mem_map.mp hname
    exact hnames handler hmem
  · exact display_start (List.forall_mem_nil _)

/-- As long as the tabulator is not pressed where what it prints is not what it does, the terminal
shows the line after every key. -/
theorem terminal_shows_line {handlers : List Handler} {history : History}
    (hnames : ∀ handler ∈ handlers, Letters handler.name)
    (hhistory : ∀ line ∈ history.tokens, Letters line) {keys : List Key} {x : Session}
    (hclear : Within step ClearKey (start handlers history) keys)
    (hrun : runSteps step (start handlers history) keys = some x) : x.Shows := by
  refine Live.shows (invariant_of_within ?_ (live_start hnames hhistory) hclear hrun)
  intro y k y' hlive hkey hstep
  unfold Session.step at hstep
  split_ifs at hstep with hshort
  obtain rfl := Option.some.inj hstep
  exact hlive.press hkey hshort

/-- The letter `h` is completed to `help`. -/
theorem terminal_shows_line_help : ∃ x, runSteps step (start [helpHandler] .start)
    [.char 0x68 (by decide), .tab] = some x ∧ x.Shows := by
  have hshort : (runSteps step (start [helpHandler] .start)
      [.char 0x68 (by decide), .tab]).isSome = true := by decide +kernel
  obtain ⟨x, hrun⟩ := Option.isSome_iff_exists.mp hshort
  refine ⟨x, hrun, terminal_shows_line (by unfold Letters; decide +kernel) (List.forall_mem_nil _) ?_ hrun⟩
  refine ⟨trivial, fun y hy => ⟨fun left right hholds => ?_, fun _ _ => trivial⟩⟩
  obtain rfl : (start [helpHandler] .start).press (.char 0x68 (by decide)) = y := by
    unfold step at hy
    split_ifs at hy
    exact Option.some.inj hy
  have hline : ((start [helpHandler] .start).press (.char 0x68 (by decide))).shell.input.Holds
    [0x68] [] := (Input.holds_fresh.put (by decide) 0x68).1
  obtain ⟨rfl, rfl⟩ := hline.unique hholds
  exact .inr (.inr fun _ => List.forall_mem_nil _)

/-- In `help|x` the blank is printed over `x`. -/
theorem terminal_not_shows_line :
    ¬∀ (handlers : List Handler) (history : History) (keys : List Key) (x : Session),
      (∀ handler ∈ handlers, Letters handler.name) → (∀ line ∈ history.tokens, Letters line) →
        runSteps step (start handlers history) keys = some x → x.Shows := by
  intro hall
  have hover : ((runSteps step (start [helpHandler] .start)
      [.char 0x68 (by decide), .char 0x65 (by decide), .char 0x6C (by decide),
        .char 0x70 (by decide), .char 0x78 (by decide), .left, .tab]).any fun x =>
      x.terminal.line 7 ≠ screen (prompt ++ x.shell.input.buffer.take x.shell.input.size) 7) =
        true := by decide +kernel
  obtain ⟨x, hrun, hne⟩ := (Option.any_eq_true _ _).mp hover
  have hshows := hall _ _ _ x (by unfold Letters; decide +kernel) (List.forall_mem_nil _) hrun
  rw [hshows.line] at hne
  simp at hne

end Session

end BekenCam.Console
