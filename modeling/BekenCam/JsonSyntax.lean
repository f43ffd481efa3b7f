import BekenCam.JsonText

/-!
# Objects of scalars

RFC 8259 objects whose values are strings, numbers and words, as trees that keep every byte of
their text: white space, escapes and digits. A tree prints to its text. Beside the meaning the RFC
gives a tree stands the narrower one of a dialect that knows bytes and short numbers only.
-/
namespace BekenCam.JsonSyntax

open Json

/-- White space between two tokens. -/
def IsGap (gap : List UInt8) : Prop := ∀ b ∈ gap, isSpace b = true

def IsDigits (ds : List UInt8) : Prop := ∀ d ∈ ds, 48 ≤ d ∧ d ≤ 57

instance (ds : List UInt8) : Decidable (IsDigits ds) := inferInstanceAs (Decidable (∀ d ∈ ds, _))

def decimal (ds : List UInt8) : ℕ := ds.foldl (fun n d => n * 10 + (d.toNat - 48)) 0

theorem decimal_lt {ds : List UInt8} (h : IsDigits ds) : decimal ds < 10 ^ ds.length := by
  induction ds using List.reverseRecOn with
  | nil => exact Nat.one_pos
  | append_singleton ds d ih =>
    have hrest := ih fun x hx => h x (List.mem_append_left _ hx)
    have hhigh := UInt8.le_iff_toNat_le.mp (h d (by simp)).2
    have hmax : (57 : UInt8).toNat = 57 := rfl
    have hconcat : decimal (ds ++ [d]) = decimal ds * 10 + (d.toNat - 48) := List.foldl_concat ..
    rw [hconcat, List.length_append, List.length_singleton, Nat.pow_succ]
    omega

/-- The number of some hexadecimal digits. -/
def hexNumber (ds : List UInt8) : Option ℕ :=
  ds.foldlM (fun n d => (hexValue d).map fun v => n * 16 + v.toNat) 0

/-! ## Element by element -/

section MapM

variable {α β : Type} {f : α → Option β}

theorem mapM_cons_eq_some {a : α} {l : List α} {bs : List β} : (a :: l).mapM f = some bs ↔
    ∃ b rest, f a = some b ∧ l.mapM f = some rest ∧ bs = b :: rest := by
  rw [List.mapM_cons]
  constructor
  · intro h
    obtain ⟨b, hb, h⟩ := Option.bind_eq_some_iff.mp h
    obtain ⟨rest, hrest, h⟩ := Option.bind_eq_some_iff.mp h
    exact ⟨b, rest, hb, hrest, (Option.some.inj h).symm⟩
  · rintro ⟨b, rest, hb, hrest, rfl⟩
    exact Option.bind_eq_some_iff.mpr ⟨b, hb, Option.bind_eq_some_iff.mpr ⟨rest, hrest, rfl⟩⟩

theorem length_mapM {l : List α} {bs : List β} (h : l.mapM f = some bs) :
    bs.length = l.length := by
  induction l generalizing bs with
  | nil =>
    cases h
    rfl
  | cons a l ih =>
    obtain ⟨b, rest, -, hrest, rfl⟩ := mapM_cons_eq_some.mp h
    rw [List.length_cons, List.length_cons, ih hrest]

theorem mapM_ne_none_iff {l : List α} : l.mapM f ≠ none ↔ ∀ a ∈ l, f a ≠ none := by
  induction l with
  | nil => exact ⟨fun _ => nofun, fun _ => nofun⟩
  | cons a l ih =>
    rw [List.forall_mem_cons, ← ih]
    simp only [Option.ne_none_iff_exists', mapM_cons_eq_some]
    constructor
    · rintro ⟨bs, b, rest, hb, hrest, -⟩
      exact ⟨⟨b, hb⟩, rest, hrest⟩
    · rintro ⟨⟨b, hb⟩, rest, hrest⟩
      exact ⟨b :: rest, b, rest, hb, hrest, rfl⟩

end MapM

/-! ## Strings -/

/-- A character as it is written: itself, a backslash and a letter, or `\u` and four digits. -/
inductive StringChar
  | plain (c : UInt8)
  | short (letter : UInt8)
  | unicode (h1 h2 h3 h4 : UInt8)
  deriving DecidableEq

def shortEscapes : List (UInt8 × UInt8) :=
  [(34, 34), (92, 92), (47, 47), (98, 8), (102, 12), (110, 10), (114, 13), (116, 9)]

namespace StringChar

def text : StringChar → List UInt8
  | plain c => [c]
  | short letter => [backslash, letter]
  | unicode h1 h2 h3 h4 => [backslash, letterU, h1, h2, h3, h4]

/-- The code of a character, if it may be written like that. The bytes of a character behind ASCII
count one by one. -/
def code : StringChar → Option ℕ
  | plain c => if 0x20 ≤ c ∧ c ≠ quote ∧ c ≠ backslash then some c.toNat else none
  | short letter => (shortEscapes.lookup letter).map UInt8.toNat
  | unicode h1 h2 h3 h4 => hexNumber [h1, h2, h3, h4]

/-- The dialect's `\u` stops at ASCII, and there is no NUL. -/
def byte : StringChar → Option UInt8
  | unicode h1 h2 h3 h4 => (hexNumber [h1, h2, h3, h4]).bind fun n =>
      if 1 ≤ n ∧ n ≤ 0x7F then some (UInt8.ofNat n) else none
  | ch => ch.code.map UInt8.ofNat

end StringChar

def charsText (s : List StringChar) : List UInt8 := s.flatMap StringChar.text

def stringText (s : List StringChar) : List UInt8 := quote :: (charsText s ++ [quote])

def stringCodes (s : List StringChar) : Option (List ℕ) := s.mapM StringChar.code

def stringBytes (s : List StringChar) : Option (List UInt8) := s.mapM StringChar.byte

/-! ## Numbers -/

/-- The letter of an exponent, its sign if there is one, and its digits. -/
structure Exponent where
  letter : UInt8
  sign : Option UInt8
  digits : List UInt8
  deriving DecidableEq

structure Number where
  minus : Bool
  int : List UInt8
  frac : Option (List UInt8)
  exp : Option Exponent
  deriving DecidableEq

namespace Number

def text (n : Number) : List UInt8 :=
  (if n.minus then [45] else []) ++ n.int ++ n.frac.elim [] (fun ds => 46 :: ds) ++
    n.exp.elim [] (fun e => e.letter :: e.sign.toList ++ e.digits)

/-- The numbers of the RFC: no superfluous zero in front, and no part without a digit. -/
structure Valid (n : Number) : Prop where
  int_ne : n.int ≠ []
  int_digits : IsDigits n.int
  no_zero : n.int.head? = some 48 → n.int = [48]
  frac : ∀ ds ∈ n.frac, ds ≠ [] ∧ IsDigits ds
  exp : ∀ e ∈ n.exp, (e.letter = 101 ∨ e.letter = 69) ∧ (∀ b ∈ e.sign, b = 43 ∨ b = 45) ∧
    e.digits ≠ [] ∧ IsDigits e.digits

/-- One to nine digits. -/
def Short (n : Number) : Prop :=
  n.minus = false ∧ n.frac = none ∧ n.exp = none ∧ IsDigits n.int ∧ 1 ≤ n.int.length ∧
    n.int.length ≤ 9

instance (n : Number) : Decidable n.Short := inferInstanceAs (Decidable (_ ∧ _))

def ofDigits (ds : List UInt8) : Number := ⟨false, ds, none, none⟩

@[simp] theorem text_ofDigits (ds : List UInt8) : (ofDigits ds).text = ds := by
  simp [text, ofDigits]

theorem Short.eq {n : Number} (h : n.Short) : n = ofDigits n.int := by
  obtain ⟨hminus, hfrac, hexp, -⟩ := h
  rw [ofDigits, ← hminus, ← hfrac, ← hexp]

end Number

/-! ## Values, members, documents -/

inductive Scalar
  | string (s : List StringChar)
  | number (n : Number)
  | bool (b : Bool)
  | null
  deriving DecidableEq

/-- What a scalar of the dialect stands for. -/
inductive Value
  | string (s : List UInt8)
  | number (n : ℕ)
  | bool (b : Bool)
  | null
  deriving DecidableEq

/-- `true` and `false`. -/
def boolText (b : Bool) : List UInt8 :=
  if b then [116, 114, 117, 101] else [102, 97, 108, 115, 101]

def nullText : List UInt8 := [110, 117, 108, 108]

namespace Scalar

def text : Scalar → List UInt8
  | string s => stringText s
  | number n => n.text
  | bool b => boolText b
  | null => nullText

/-- The scalars of the RFC. -/
def Valid : Scalar → Prop
  | string s => (stringCodes s).isSome
  | number n => n.Valid
  | _ => True

/-- The meaning in the dialect. -/
def value : Scalar → Option Value
  | string s => (stringBytes s).map .string
  | number n => if n.Short then some (.number (decimal n.int)) else none
  | bool b => some (.bool b)
  | null => some .null

variable {v : Scalar}

theorem value_eq_string {s : List UInt8} :
    v.value = some (.string s) ↔ ∃ cs, v = string cs ∧ stringBytes cs = some s := by
  cases v with
  | string cs => simp [value]
  | number n =>
    rw [value]
    split_ifs <;> simp
  | bool b => simp [value]
  | null => simp [value]

theorem value_eq_number {n : ℕ} :
    v.value = some (.number n) ↔ ∃ m : Number, v = number m ∧ m.Short ∧ decimal m.int = n := by
  cases v with
  | string cs => simp [value]
  | number m =>
    rw [value]
    split_ifs with hshort
    · simp [hshort]
    · simp [hshort]
  | bool b => simp [value]
  | null => simp [value]

theorem value_eq_bool {b : Bool} : v.value = some (.bool b) ↔ v = bool b := by
  cases v with
  | string cs => simp [value]
  | number m =>
    rw [value]
    split_ifs <;> simp
  | bool b' => simp [value]
  | null => simp [value]

end Scalar

/-- A member of an object, with the white space around its tokens. -/
structure Member where
  before : List UInt8
  key : List StringChar
  afterKey : List UInt8
  beforeValue : List UInt8
  value : Scalar
  after : List UInt8
  deriving DecidableEq

namespace Member

def text (m : Member) : List UInt8 :=
  m.before ++ stringText m.key ++ m.afterKey ++ colon :: (m.beforeValue ++ m.value.text ++ m.after)

structure Gaps (m : Member) : Prop where
  before : IsGap m.before
  afterKey : IsGap m.afterKey
  beforeValue : IsGap m.beforeValue
  after : IsGap m.after

end Member

/-- An object with the white space around it. `gap` is what an object without members holds. -/
structure Document where
  before : List UInt8
  gap : List UInt8
  members : List Member
  after : List UInt8

def membersText (ms : List Member) : List UInt8 := [comma].intercalate (ms.map Member.text)

namespace Document

def text (d : Document) : List UInt8 :=
  d.before ++ openBrace ::
    ((if d.members = [] then d.gap else membersText d.members) ++ closeBrace :: d.after)

structure Gaps (d : Document) : Prop where
  before : IsGap d.before
  gap : IsGap d.gap
  members : ∀ m ∈ d.members, m.Gaps
  after : IsGap d.after

end Document
end BekenCam.JsonSyntax
