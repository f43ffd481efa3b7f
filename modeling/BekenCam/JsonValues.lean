import BekenCam.JsonSyntax

/-!
# Nested values

Arrays and objects of any depth over the scalars, without white space between the tokens, and how
any bytes can be written as the characters of a string.
-/
namespace BekenCam.JsonSyntax

open Json

def openBracket : UInt8 := 91
def closeBracket : UInt8 := 93

def arrayText (items : List (List UInt8)) : List UInt8 :=
  openBracket :: ([comma].intercalate items ++ [closeBracket])

/-- Each member is the characters of its key and the text of its value. -/
def objectText (members : List (List StringChar × List UInt8)) : List UInt8 :=
  openBrace :: ([comma].intercalate (members.map fun m => stringText m.1 ++ colon :: m.2) ++
    [closeBrace])

/-- The text of a value. -/
inductive IsJson : List UInt8 → Prop
  | scalar {v : Scalar} (h : v.Valid) : IsJson v.text
  | array {items : List (List UInt8)} (h : ∀ item ∈ items, IsJson item) : IsJson (arrayText items)
  | object {members : List (List StringChar × List UInt8)}
      (hkeys : ∀ m ∈ members, (stringCodes m.1).isSome = true)
      (hvalues : ∀ m ∈ members, IsJson m.2) : IsJson (objectText members)

theorem intercalate_cons {α : Type*} (sep x : List α) (xs : List (List α)) :
    sep.intercalate (x :: xs) = x ++ xs.flatMap fun y => sep ++ y := by
  induction xs generalizing x with
  | nil => simp
  | cons y ys ih =>
    rw [List.intercalate_cons_cons, ih, List.flatMap_cons]
    simp only [List.append_assoc]

/-! ## Writing strings -/

/-- A digit for a number below sixteen. -/
def hexLetter (n : UInt8) : UInt8 := if n < 10 then n + 0x30 else n - 10 + 0x61

/-- A byte as it is written in a string. -/
def charOf (c : UInt8) : StringChar :=
  if c = quote ∨ c = backslash then .short c
  else if c < 0x20 then .unicode 0x30 0x30 (hexLetter (c >>> 4)) (hexLetter (c &&& 0x0F))
  else .plain c

/-- Every byte has a character, and it stands for the byte. -/
theorem code_charOf (c : UInt8) : (charOf c).code = some c.toNat := by
  have hescape : ∀ k < 32, hexNumber [0x30, 0x30, hexLetter (UInt8.ofNat k >>> 4),
      hexLetter (UInt8.ofNat k &&& 0x0F)] = some k := by decide +kernel
  unfold charOf
  split_ifs with hspecial hlow
  · rcases hspecial with rfl | rfl <;> rfl
  · have hc := hescape c.toNat (UInt8.lt_iff_toNat_lt.mp hlow)
    rw [UInt8.ofNat_toNat] at hc
    exact hc
  · rw [not_or] at hspecial
    rw [StringChar.code, if_pos ⟨UInt8.not_lt.mp hlow, hspecial⟩]

theorem stringCodes_charOf (s : List UInt8) :
    stringCodes (s.map charOf) = some (s.map UInt8.toNat) := by
  induction s with
  | nil => rfl
  | cons c s ih =>
    rw [List.map_cons]
    exact mapM_cons_eq_some.mpr ⟨_, _, code_charOf c, ih, rfl⟩

/-- A string of any bytes. -/
def quotedText (s : List UInt8) : List UInt8 := stringText (s.map charOf)

theorem isJson_quotedText (s : List UInt8) : IsJson (quotedText s) := by
  have hvalid : (Scalar.string (s.map charOf)).Valid := by
    rw [Scalar.Valid, stringCodes_charOf]
    rfl
  exact .scalar hvalid

/-- An object whose keys are strings of any bytes. -/
theorem isJson_object {members : List (List UInt8 × List UInt8)}
    (h : ∀ m ∈ members, IsJson m.2) :
    IsJson (objectText (members.map fun m => (m.1.map charOf, m.2))) := by
  refine .object ?_ ?_
  · rw [List.forall_mem_map]
    exact fun m _ => by rw [stringCodes_charOf]; rfl
  · rw [List.forall_mem_map]
    exact h

end BekenCam.JsonSyntax
