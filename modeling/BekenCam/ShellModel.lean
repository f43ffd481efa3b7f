import BekenCam.HttpRequest
import BekenCam.ShellHistory
import BekenCam.ShellInput
import Mathlib.Data.Nat.Digits.Defs

/-!
# The shell

Every key changes the line and prints what changes on the screen. A handler is its name and what it
prints for its arguments; the table ends before the first entry without a name or a function.
-/
namespace BekenCam.Console

open FlashKv (cString)
open Http (ascii)

structure Handler where
  name : List UInt8
  ended : (0 : UInt8) ∉ name
  output : List (List UInt8) → List UInt8

structure Shell where
  handlers : List Handler
  history : History
  input : Input
  sequence : List UInt8
  autocompleteStreak : UInt32

/-- The shell over a table of handlers. -/
def Shell.create (handlers : List Handler) : Shell := ⟨handlers, .start, .fresh, [], 0⟩

def Shell.names (s : Shell) : List (List UInt8) := s.handlers.map Handler.name

/-! ## What is printed -/

def escape : UInt8 := 0x1B
def bracket : UInt8 := 0x5B
def backspace : UInt8 := 0x08
def eol : List UInt8 := [0x0D, 0x0A]

/-- The format `%d` of a number that is not negative. -/
def decimal (n : ℕ) : List UInt8 :=
  if n = 0 then [0x30] else (Nat.digits 10 n).reverse.map fun d => 0x30 + UInt8.ofNat d

/-- A control of the terminal that takes a number. -/
def csi (n : ℕ) (final : UInt8) : List UInt8 := [escape, bracket] ++ decimal n ++ [final]

def cursorBack (n : ℕ) : List UInt8 := csi n 0x44
def cursorForward (n : ℕ) : List UInt8 := csi n 0x43

def prompt : List UInt8 := [0x3E, blank]

/-- `start` prints the prompt and a blank. -/
def start : List UInt8 := prompt

def clearLine : List UInt8 := [0x0D] ++ csi 2 0x4B ++ [0x0D]

/-- `%s` of the cursor and of the buffer. -/
def Input.fromCursor (i : Input) : List UInt8 := cString (i.buffer.drop i.cursor)
def Input.whole (i : Input) : List UInt8 := cString i.buffer

/-- `%-16s`. -/
def padded (name : List UInt8) : List UInt8 := name ++ List.replicate (16 - name.length) blank

def colorText (color text : List UInt8) : List UInt8 :=
  [escape, bracket] ++ color ++ [0x6D] ++ text ++ [escape, bracket, 0x30, 0x6D]

/-! ## Control sequences -/

def arrowUp : List UInt8 := [escape, bracket, 0x41]
def arrowDown : List UInt8 := [escape, bracket, 0x42]
def arrowRight : List UInt8 := [escape, bracket, 0x43]
def arrowLeft : List UInt8 := [escape, bracket, 0x44]
def controlHome : List UInt8 := [escape, bracket, 0x48]
def controlHomeAlt : List UInt8 := [escape, bracket, 0x31, 0x7E]
def controlEnd : List UInt8 := [escape, bracket, 0x46]
def controlEndAlt : List UInt8 := [escape, bracket, 0x34, 0x7E]
def pageUp : List UInt8 := [escape, bracket, 0x35, 0x7E]
def pageDown : List UInt8 := [escape, bracket, 0x36, 0x7E]
def controlDelete : List UInt8 := [escape, bracket, 0x33, 0x7E]

inductive Detected
  | noSequence
  | inSequence
  | endSequence (control : List UInt8)
  deriving DecidableEq

/-- The sequence is what the buffer of sixteen holds before the position. -/
def detect (sequence : List UInt8) (c : UInt8) : Detected × List UInt8 :=
  if c = escape then (.inSequence, [c])
  else if sequence.length = 1 then (.inSequence, if c = bracket then sequence ++ [c] else [])
  else if sequence.length > 1 then
    if sequence.length ≥ 15 then (.inSequence, [])
    else if (0x41 ≤ c ∧ c ≤ 0x5A) ∨ c = 0x7E then (.endSequence (sequence ++ [c]), [])
    else (.inSequence, sequence ++ [c])
  else (.noSequence, sequence)

namespace Shell

variable (s : Shell)

def replaceCommand (command : Option (List UInt8)) : Shell × List UInt8 :=
  match command with
  | some command => ({ s with input := s.input.set command }, clearLine ++ start ++ command)
  | none => ({ s with input := s.input.reset }, clearLine ++ start)

/-- Hexadecimal digits, as `%02X` prints them. -/
def hexByte (c : UInt8) : List UInt8 :=
  let digit (n : UInt8) : UInt8 := if n < 10 then 0x30 + n else 0x37 + n
  [digit (c >>> 4), digit (c &&& 0x0F)]

def unhandled (control : List UInt8) : List UInt8 :=
  [0x0D] ++ ascii "Unhandled control sequence [" ++
    colorText (ascii "1;33") ([0x5C, 0x78] ++ hexByte (control.getD 0 0) ++ control.tail) ++
    [0x5D] ++ eol

def handleControlSequence (control : List UInt8) : Shell × List UInt8 :=
  if control = arrowUp then
    let (command, history) := s.history.prev
    replaceCommand { s with history := history } command
  else if control = arrowDown then
    let (command, history) := s.history.next
    replaceCommand { s with history := history } command
  else if control = arrowLeft then
    let (moved, input) := s.input.cursorLeft
    ({ s with input := input }, if moved then arrowLeft else [])
  else if control = arrowRight then
    let (moved, input) := s.input.cursorRight
    ({ s with input := input }, if moved then arrowRight else [])
  else if control = pageUp then (s, [])
  else if control = pageDown then (s, [])
  else if control = controlHome ∨ control = controlHomeAlt then
    let steps := s.input.getOffset
    if steps > 0 then ({ s with input := s.input.setOffset 0 }, cursorBack steps) else (s, [])
  else if control = controlEnd ∨ control = controlEndAlt then
    let steps := s.input.size - s.input.getOffset
    if steps > 0 then ({ s with input := s.input.setOffset s.input.size }, cursorForward steps)
    else (s, [])
  else if control = controlDelete then
    let (removed, input) := s.input.removeRight
    let tail := input.size - input.getOffset
    ({ s with input := input },
      if removed then input.fromCursor ++ [blank] ++ cursorBack (tail + 1) else [])
  else (s, unhandled control)

/-! ## Completion -/

/-- How far two strings agree. -/
def prefixMatch : List UInt8 → List UInt8 → ℕ
  | a :: s1, b :: s2 => if a ≠ 0 ∧ b ≠ 0 ∧ a = b then prefixMatch s1 s2 + 1 else 0
  | _, _ => 0

/-- How far the first candidate agrees with all the others. -/
def commonLength : List UInt8 → List (List UInt8) → ℕ
  | [], _ => 0
  | ch :: first, others =>
    if ∀ other ∈ others, other.headD 0 = ch then
      commonLength first (others.map List.tail) + 1
    else 0

def maxCandidates : ℕ := 16

/-- The loop stops when the array is full. -/
def candidates : List (List UInt8) :=
  (s.names.filter fun name => prefixMatch s.input.buffer name ≥ s.input.getOffset).take
    maxCandidates

/-- The table of the candidates, four in a row. -/
def listing (found : List (List UInt8)) : List UInt8 :=
  eol ++ (found.mapIdx fun i name => (if i > 0 ∧ i % 4 = 0 then eol else []) ++ padded name).flatten
    ++ eol

def putAll (text : List UInt8) : Shell := { s with input := text.foldl Input.put s.input }

def autocomplete : Shell × List UInt8 :=
  let length := s.input.getOffset
  if length = 0 ∨ s.input.buffer.getD (length - 1) 0 = blank then (s, [])
  else
    match s.candidates with
    | [] => (s, [])
    | [command] =>
      if command.getD length 0 = 0 then (s.putAll [blank], [blank])
      else s.replaceCommand (some command)
    | first :: others =>
      let common := commonLength first others
      if common > length then
        let text := slice first length (common - length)
        ({ s.putAll text with autocompleteStreak := 0 }, text)
      else if s.autocompleteStreak > 1 then (s, [])
      else (s, listing (first :: others) ++ start ++ s.input.whole)

/-! ## Keys -/

/-- What `handle_input` prints. -/
def outcomeOutput : Outcome → List UInt8
  | .nothing => []
  | .run argv =>
    match s.handlers.find? fun h => some h.name = argv.head? with
    | some h => h.output argv
    | none => []
  | .notHandled command =>
    colorText (ascii "1;31") (ascii "Command " ++ command ++ ascii " not handled" ++ eol)

def enter : Shell × List UInt8 :=
  if s.input.isEmpty then ({ s with input := s.input.reset }, eol ++ start)
  else
    let (outcome, history) := handleInput s.names s.history (s.input.buffer.take s.input.size)
    ({ s with history := history, input := s.input.reset }, eol ++ s.outcomeOutput outcome ++ start)

def update (c : UInt8) : Shell × List UInt8 :=
  let (detected, sequence) := detect s.sequence c
  let s := { s with sequence := sequence }
  match detected with
  | .endSequence control => s.handleControlSequence control
  | .inSequence => (s, [])
  | .noSequence =>
    if c = 0x09 then
      let (s, out) := s.autocomplete
      ({ s with autocompleteStreak := s.autocompleteStreak + 1 }, out)
    else
      let s := { s with autocompleteStreak := 0 }
      let c := if c = 0x0D then 0x0A else c
      if c = 0x7F then
        let (removed, input) := s.input.removeLeft
        let tail := input.size - input.getOffset
        ({ s with input := input },
          if removed then [backspace] ++ input.fromCursor ++ [blank] ++ cursorBack (tail + 1)
          else [])
      else if c = 0x03 ∨ c = 0x04 then
        ({ s with input := s.input.reset }, clearLine ++ start)
      else if c = 0x0A then s.enter
      else
        let input := s.input.put c
        if input.error then ({ s with input := input.reset }, start)
        else
          let tail := input.size - input.getOffset
          ({ s with input := input },
            [c] ++ if tail > 0 then input.fromCursor ++ cursorBack tail else [])

end Shell

end BekenCam.Console
