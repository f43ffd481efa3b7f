import Mathlib.Tactic

/-!
# JSON texts

The tokens of a text after RFC 8259: strings with their escapes resolved, and every other byte that
is not white space. `\u` takes the codes of single bytes.
-/
namespace BekenCam.Json

def quote : UInt8 := 34
def backslash : UInt8 := 92
def comma : UInt8 := 44
def colon : UInt8 := 58
def openBrace : UInt8 := 123
def closeBrace : UInt8 := 125
def letterU : UInt8 := 117

def isSpace (b : UInt8) : Bool := b = 32 ∨ b = 9 ∨ b = 13 ∨ b = 10

/-- The value of a hexadecimal digit. -/
def hexValue (c : UInt8) : Option UInt8 :=
  if 48 ≤ c ∧ c ≤ 57 then some (c - 48)
  else if 97 ≤ c ∧ c ≤ 102 then some (c - 97 + 10)
  else if 65 ≤ c ∧ c ≤ 70 then some (c - 65 + 10)
  else none

/-- The character that a backslash and this letter stand for. -/
def unescape (c : UInt8) : UInt8 :=
  if c = 98 then 8
  else if c = 102 then 12
  else if c = 110 then 10
  else if c = 114 then 13
  else if c = 116 then 9
  else c

inductive Token
  | string (bytes : List UInt8)
  | byte (b : UInt8)
  deriving DecidableEq

/-- In a string, `s` is what it holds so far. -/
inductive LexState
  | between
  | text (s : List UInt8)
  | escaped (s : List UInt8)
  | hex (s : List UInt8) (digits : ℕ) (code : ℕ)
  deriving DecidableEq

def lexByte (b : UInt8) : LexState → LexState × List Token
  | .between =>
    if isSpace b then (.between, [])
    else if b = quote then (.text [], [])
    else (.between, [.byte b])
  | .text s =>
    if b = quote then (.between, [.string s])
    else if b = backslash then (.escaped s, [])
    else (.text (s ++ [b]), [])
  | .escaped s => (if b = letterU then .hex s 0 0 else .text (s ++ [unescape b]), [])
  | .hex s digits code =>
    let code := code * 16 + ((hexValue b).getD 0).toNat
    (if digits = 3 then .text (s ++ [UInt8.ofNat code]) else .hex s (digits + 1) code, [])

/-- The state after the bytes, and the tokens that are complete. -/
def lex : LexState → List UInt8 → LexState × List Token
  | st, [] => (st, [])
  | st, b :: bytes =>
    let (st, toks) := lexByte b st
    let (st, rest) := lex st bytes
    (st, toks ++ rest)

theorem lex_append (st : LexState) (a b : List UInt8) :
    lex st (a ++ b) = ((lex (lex st a).1 b).1, (lex st a).2 ++ (lex (lex st a).1 b).2) := by
  induction a generalizing st with
  | nil => rfl
  | cons x a ih => simp only [List.cons_append, lex, ih, List.append_assoc]

/-- The tokens of a whole text. -/
def tokens (bytes : List UInt8) : List Token := (lex .between bytes).2

/-- What is in front of `r'` in `r` lexes to these tokens. -/
def Lexes (r r' : List UInt8) (toks : List Token) : Prop :=
  ∃ front, r = front ++ r' ∧ lex .between front = (.between, toks)

section Lexes

variable {r r₁ r' : List UInt8} {toks more : List Token}

theorem Lexes.refl (r : List UInt8) : Lexes r r [] := ⟨[], rfl, rfl⟩

theorem Lexes.trans (h : Lexes r r₁ toks) (h' : Lexes r₁ r' more) : Lexes r r' (toks ++ more) := by
  obtain ⟨a, rfl, ha⟩ := h
  obtain ⟨b, rfl, hb⟩ := h'
  refine ⟨a ++ b, (List.append_assoc a b r').symm, ?_⟩
  rw [lex_append, ha, hb]

theorem Lexes.tokens (h : Lexes r [] toks) : tokens r = toks := by
  obtain ⟨front, rfl, hfront⟩ := h
  rw [List.append_nil, Json.tokens, hfront]

/-- A token takes at least one byte. -/
theorem Lexes.length_lt (h : Lexes r r' toks) (hne : toks ≠ []) : r'.length < r.length := by
  obtain ⟨front, rfl, hfront⟩ := h
  cases front with
  | nil =>
    cases hfront
    exact absurd rfl hne
  | cons b front =>
    rw [List.length_append, List.length_cons]
    omega

theorem lexes_dropWhile (r : List UInt8) : Lexes r (r.dropWhile isSpace) [] := by
  refine ⟨r.takeWhile isSpace, List.takeWhile_append_dropWhile.symm, ?_⟩
  induction r with
  | nil => rfl
  | cons b r ih =>
    cases hb : isSpace b with
    | true =>
      rw [List.takeWhile_cons, hb, if_pos rfl]
      simp only [lex, lexByte, hb, if_true, ih]
      rfl
    | false =>
      rw [List.takeWhile_cons, hb]
      rfl

/-- A byte that is neither white space nor opens a string. -/
theorem lexes_byte {b : UInt8} (hspace : isSpace b = false) (hquote : b ≠ quote) :
    Lexes (b :: r) r [.byte b] := by
  refine ⟨[b], rfl, ?_⟩
  simp [lex, lexByte, hspace, hquote]

end Lexes

/-! ## Members -/

/-- The string that an object's text gives this name last. -/
def lastString (name : List UInt8) : List Token → Option (List UInt8)
  | .string key :: .byte b :: .string s :: toks =>
    (lastString name toks).or (if b = colon ∧ key = name then some s else none)
  | _ :: toks => lastString name toks
  | [] => none

/-- A value that is a string, or none of whose bytes is in a string. -/
def IsValue (toks : List Token) : Prop :=
  (∃ s, toks = [.string s]) ∨ ∀ tok ∈ toks, ∃ b, tok = .byte b

def stringOf : List Token → Option (List UInt8)
  | [.string s] => some s
  | _ => none

theorem lastString_byte (name : List UInt8) (b : UInt8) (toks : List Token) :
    lastString name (.byte b :: toks) = lastString name toks := rfl

theorem lastString_bytes (name : List UInt8) {value : List Token}
    (hvalue : ∀ tok ∈ value, ∃ b, tok = .byte b) (toks : List Token) :
    lastString name (value ++ toks) = lastString name toks := by
  induction value with
  | nil => rfl
  | cons tok value ih =>
    obtain ⟨b, rfl⟩ := hvalue tok (List.mem_cons_self ..)
    rw [List.cons_append, lastString_byte]
    exact ih fun tok htok => hvalue tok (List.mem_cons_of_mem _ htok)

theorem stringOf_bytes {value : List Token} (hvalue : ∀ tok ∈ value, ∃ b, tok = .byte b) :
    stringOf value = none := by
  cases value with
  | nil => rfl
  | cons tok value =>
    obtain ⟨b, rfl⟩ := hvalue tok (List.mem_cons_self ..)
    rfl

/-- A member in front of the others. -/
theorem lastString_member (name key : List UInt8) {value : List Token} (hvalue : IsValue value)
    (b : UInt8) (toks : List Token) :
    lastString name (.string key :: .byte colon :: (value ++ .byte b :: toks)) =
      (lastString name toks).or (if key = name then stringOf value else none) := by
  rcases hvalue with ⟨s, rfl⟩ | hbytes
  · simp [lastString, stringOf]
  · have hskip : lastString name (.string key :: .byte colon :: (value ++ .byte b :: toks)) =
        lastString name (value ++ .byte b :: toks) := by
      cases value with
      | nil => rfl
      | cons tok value =>
        obtain ⟨b, rfl⟩ := hbytes tok (List.mem_cons_self ..)
        rfl
    rw [hskip, lastString_bytes name hbytes, lastString_byte, stringOf_bytes hbytes, ite_self,
      Option.or_none]

end BekenCam.Json
