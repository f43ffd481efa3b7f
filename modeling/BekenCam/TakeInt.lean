import Mathlib.Data.List.TakeWhile
import Mathlib.Data.Nat.Digits.Defs
import Mathlib.Tactic

/-!
# Integers on the command line

A string is the bytes before its end. The accumulators wrap like the registers they are in.
-/
namespace BekenCam.ShellParser

inductive ParseError
  | error
  deriving DecidableEq

def isspace (c : UInt8) : Bool := c = 0x20 ∨ 0x09 ≤ c ∧ c ≤ 0x0D

def hexNibble (c : UInt8) : Option ℕ :=
  if 0x30 ≤ c ∧ c ≤ 0x39 then some (c.toNat - 0x30)
  else if 0x61 ≤ c ∧ c ≤ 0x66 then some (c.toNat - 0x61 + 10)
  else if 0x41 ≤ c ∧ c ≤ 0x46 then some (c.toNat - 0x41 + 10)
  else none

/-- The other three compare with the first and the last digit. -/
def digitUpTo (last : UInt8) (c : UInt8) : Option ℕ :=
  if 0x30 ≤ c ∧ c ≤ last then some (c.toNat - 0x30) else none

/-- The loop of a literal, to a white space or the end: what it accumulates, and the count. -/
def digitLoop (base : Int32) (digit : UInt8 → Option ℕ) :
    List UInt8 → Int32 → ℕ → Option (Int32 × ℕ)
  | [], accum, digits => some (accum, digits)
  | c :: s, accum, digits =>
    if isspace c then some (accum, digits)
    else
      match digit c with
      | none => none
      | some d => digitLoop base digit s (accum * base + Int32.ofNat d) (digits + 1)

/-- A literal of at least one digit. -/
def someDigits (base : Int32) (digit : UInt8 → Option ℕ) (s : List UInt8) : Option Int32 :=
  match digitLoop base digit s 0 0 with
  | none => none
  | some (accum, digits) => if digits = 0 then none else some accum

def parseBinaryLiteral (s : List UInt8) : Option Int32 := someDigits 2 (digitUpTo 0x31) s

/-- The character a pointer is at; behind the last is a zero. -/
def peek (s : List UInt8) : UInt8 := s.headD 0

def parseDecimalLiteral (s : List UInt8) : Option Int32 :=
  if peek s = 0x2D then (someDigits 10 (digitUpTo 0x39) s.tail).map fun accum => -1 * accum
  else someDigits 10 (digitUpTo 0x39) s

def parseHexLiteral (s : List UInt8) : Option Int32 := someDigits 16 hexNibble s

/-- Nothing counts the digits here, and the sign is looked for behind the zero. -/
def parseOctalLiteral (s : List UInt8) : Option Int32 :=
  if peek s = 0x2D then (digitLoop 8 (digitUpTo 0x37) s.tail 0 0).map fun r => -1 * r.1
  else (digitLoop 8 (digitUpTo 0x37) s 0 0).map Prod.fst

def parseIntLiteral (s : List UInt8) : Option Int32 :=
  let s := s.dropWhile isspace
  if peek s ≠ 0x30 then parseDecimalLiteral s
  else
    let s := s.tail
    if peek s = 0x62 then parseBinaryLiteral s.tail
    else if peek s = 0x78 then parseHexLiteral s.tail
    else parseOctalLiteral s

def takeInt (s : List UInt8) : Except ParseError Int32 :=
  match parseIntLiteral s with
  | some out => .ok out
  | none => .error .error

/-- `ok_or`. -/
def okOr (r : Except ParseError Int32) (default : Int32) : Int32 := r.toOption.getD default

/-! ## The grammar -/

/-- A digit of any base up to sixteen. -/
def digitValue (base : ℕ) (c : UInt8) : Option ℕ := (hexNibble c).filter (· < base)

/-- The digits of the number `n`, the first being the highest. -/
def Numeral (base : ℕ) (ds : List UInt8) (n : ℕ) : Prop :=
  ∃ vs : List ℕ, ds.map (digitValue base) = vs.map some ∧ n = Nat.ofDigits base vs.reverse

inductive Literal : List UInt8 → ℤ → Prop
  | minus {ds : List UInt8} {n : ℕ} : ds ≠ [] → Numeral 10 ds n → Literal (0x2D :: ds) (-n)
  | decimal {d : UInt8} {ds : List UInt8} {n : ℕ} : d ≠ 0x30 → Numeral 10 (d :: ds) n →
      Literal (d :: ds) n
  | binary {ds : List UInt8} {n : ℕ} : ds ≠ [] → Numeral 2 ds n → Literal (0x30 :: 0x62 :: ds) n
  | hex {ds : List UInt8} {n : ℕ} : ds ≠ [] → Numeral 16 ds n → Literal (0x30 :: 0x78 :: ds) n
  | octal {ds : List UInt8} {n : ℕ} : Numeral 8 ds n → Literal (0x30 :: ds) n

/-- Up to the first white space. -/
def text (s : List UInt8) : List UInt8 := s.takeWhile fun c => !isspace c

/-- The text behind the leading white space. -/
def word (s : List UInt8) : List UInt8 := text (s.dropWhile isspace)

/-- `take_int` takes the literals, as signed words. -/
def TakesLiterals (s : List UInt8) : Prop :=
  ∀ v, takeInt s = .ok v ↔ ∃ n, Literal (word s) n ∧ v = Int32.ofInt n

/-- A sign behind the zero, and octal digits. -/
def MisplacedSign (w : List UInt8) : Prop :=
  ∃ ds, w = 0x30 :: 0x2D :: ds ∧ ∀ d ∈ ds, (digitValue 8 d).isSome

/-! ## Digits -/

theorem digitUpTo_eq {last : UInt8} {base : ℕ} (hlast : last ≤ 0x39)
    (hbase : last.toNat + 1 = base + 0x30) : digitUpTo last = digitValue base := by
  funext c
  have hle : last.toNat ≤ 0x39 := hlast
  unfold digitUpTo digitValue hexNibble
  simp only [UInt8.le_iff_toNat_le, UInt8.reduceToNat]
  by_cases hdigit : 0x30 ≤ c.toNat ∧ c.toNat ≤ 0x39
  · rw [if_pos hdigit]
    by_cases hin : c.toNat ≤ last.toNat
    · rw [if_pos ⟨hdigit.1, hin⟩, Option.filter_some, if_pos (by simp; omega)]
    · rw [if_neg (by omega), Option.filter_some, if_neg (by simp; omega)]
  · rw [if_neg hdigit, if_neg (by omega)]
    split_ifs
    · rw [Option.filter_some, if_neg (by simp; omega)]
    · rw [Option.filter_some, if_neg (by simp; omega)]
    · rfl

theorem binaryDigit_eq : digitUpTo 0x31 = digitValue 2 := digitUpTo_eq (by decide) rfl

theorem octalDigit_eq : digitUpTo 0x37 = digitValue 8 := digitUpTo_eq (by decide) rfl

theorem decimalDigit_eq : digitUpTo 0x39 = digitValue 10 := digitUpTo_eq (by decide) rfl

theorem hexNibble_eq : hexNibble = digitValue 16 := by
  funext c
  unfold digitValue
  cases hc : hexNibble c with
  | none => rfl
  | some d =>
    have hlt : d < 16 := by
      unfold hexNibble at hc
      simp only [UInt8.le_iff_toNat_le, UInt8.reduceToNat] at hc
      split_ifs at hc <;> (obtain rfl := Option.some.inj hc; omega)
    rw [Option.filter_some, if_pos (by simpa using hlt)]

/-! ## The loop -/

theorem digitLoop_takeWhile (base : Int32) (digit : UInt8 → Option ℕ) (s : List UInt8)
    (accum : Int32) (digits : ℕ) :
    digitLoop base digit (s.takeWhile fun c => !isspace c) accum digits =
      digitLoop base digit s accum digits := by
  induction s generalizing accum digits with
  | nil => rfl
  | cons c s ih =>
    rw [List.takeWhile_cons]
    by_cases hspace : isspace c = true
    · simp [hspace, digitLoop]
    · simp [hspace, digitLoop, ih]

/-- Over digits the loop reads the number, and anything else stops it. -/
theorem digitLoop_eq_some {base : ℕ} {w : List UInt8} (hw : ∀ c ∈ w, isspace c = false)
    {accum digits k : ℕ} {a : Int32} :
    digitLoop (.ofNat base) (digitValue base) w (.ofNat accum) digits = some (a, k) ↔
      ∃ vs : List ℕ, w.map (digitValue base) = vs.map some ∧
        a = .ofNat (vs.foldl (fun n v => n * base + v) accum) ∧ k = digits + vs.length := by
  induction w generalizing accum digits with
  | nil =>
    constructor
    · intro h
      cases h
      exact ⟨[], rfl, rfl, rfl⟩
    · rintro ⟨vs, hvs, rfl, rfl⟩
      obtain rfl : vs = [] := List.map_eq_nil_iff.mp hvs.symm
      rfl
  | cons c w ih =>
    have hc : isspace c = false := hw c List.mem_cons_self
    simp only [digitLoop, hc, Bool.false_eq_true, if_false, List.map_cons]
    cases hd : digitValue base c with
    | none =>
      refine ⟨nofun, ?_⟩
      rintro ⟨_ | ⟨v, vs⟩, hvs, -⟩ <;> cases hvs
    | some d =>
      simp only []
      rw [← Int32.ofNat_mul, ← Int32.ofNat_add, ih fun b hb => hw b (List.mem_cons_of_mem c hb)]
      constructor
      · rintro ⟨vs, hvs, rfl, rfl⟩
        exact ⟨d :: vs, by rw [hvs, List.map_cons], rfl, by rw [List.length_cons]; omega⟩
      · rintro ⟨_ | ⟨v, vs⟩, hvs, rfl, rfl⟩
        · cases hvs
        · rw [List.map_cons, List.cons.injEq, Option.some.injEq] at hvs
          obtain ⟨rfl, hvs⟩ := hvs
          exact ⟨vs, hvs, rfl, by rw [List.length_cons]; omega⟩

/-- The whole loop reads a numeral. -/
theorem digitLoop_numeral {base : ℕ} {w : List UInt8} (hw : ∀ c ∈ w, isspace c = false) {k : ℕ}
    {a : Int32} :
    digitLoop (.ofNat base) (digitValue base) w 0 0 = some (a, k) ↔
      k = w.length ∧ ∃ n, Numeral base w n ∧ a = .ofNat n := by
  have hzero : (0 : Int32) = .ofNat 0 := rfl
  rw [hzero, digitLoop_eq_some hw]
  have hvalue (vs : List ℕ) :
      vs.foldl (fun n v => n * base + v) 0 = Nat.ofDigits base vs.reverse := by
    rw [Nat.ofDigits_eq_foldr, List.foldr_reverse]
    congr 1
    funext n v
    rw [Nat.cast_id, Nat.mul_comm, Nat.add_comm]
  constructor
  · rintro ⟨vs, hvs, rfl, rfl⟩
    have hlen := congrArg List.length hvs
    rw [List.length_map, List.length_map] at hlen
    exact ⟨by omega, _, ⟨vs, hvs, rfl⟩, by rw [hvalue]⟩
  · rintro ⟨rfl, _, ⟨vs, hvs, rfl⟩, rfl⟩
    have hlen := congrArg List.length hvs
    rw [List.length_map, List.length_map] at hlen
    exact ⟨vs, hvs, by rw [hvalue], by omega⟩

theorem someDigits_eq_some {base : ℕ} {w : List UInt8} (hw : ∀ c ∈ w, isspace c = false)
    {a : Int32} :
    someDigits (.ofNat base) (digitValue base) w = some a ↔
      w ≠ [] ∧ ∃ n, Numeral base w n ∧ a = .ofNat n := by
  unfold someDigits
  cases hloop : digitLoop (.ofNat base) (digitValue base) w 0 0 with
  | none =>
    refine ⟨nofun, fun ⟨_, hn⟩ => ?_⟩
    rw [(digitLoop_numeral hw).mpr ⟨rfl, hn⟩] at hloop
    cases hloop
  | some r =>
    obtain ⟨b, k⟩ := r
    obtain ⟨rfl, n, hn, rfl⟩ := (digitLoop_numeral hw).mp hloop
    simp only [List.length_eq_zero_iff]
    by_cases hnil : w = []
    · rw [if_pos hnil]
      exact ⟨nofun, fun h => absurd hnil h.1⟩
    · rw [if_neg hnil]
      constructor
      · rintro h
        cases h
        exact ⟨hnil, n, hn, rfl⟩
      · rintro ⟨-, h⟩
        have hagain := (digitLoop_numeral hw).mpr ⟨rfl, h⟩
        rw [hloop] at hagain
        cases hagain
        rfl

/-! ## The literals -/

theorem not_space_of_mem_text {s : List UInt8} {c : UInt8} (h : c ∈ text s) :
    isspace c = false := by
  simpa using List.mem_takeWhile_imp h

theorem dropWhile_text (s : List UInt8) : (text s).dropWhile isspace = text s := by
  cases s with
  | nil => rfl
  | cons c s =>
    unfold text
    by_cases hc : isspace c = true <;> simp [hc]

theorem peek_text {s : List UInt8} {c : UInt8} (hspace : isspace c = false) (hzero : c ≠ 0) :
    peek (text s) = c ↔ peek s = c := by
  unfold peek text
  cases s with
  | nil => rfl
  | cons d s =>
    by_cases hd : isspace d = true
    · have hne : d ≠ c := fun h => by rw [h, hspace] at hd; cases hd
      simp [hd, hne, hzero.symm]
    · simp [hd]

theorem tail_text {s : List UInt8} (h : isspace (peek s) = false) :
    (text s).tail = text s.tail := by
  unfold text
  cases s with
  | nil => rfl
  | cons c s =>
    have hc : isspace c = false := h
    simp [hc]

theorem someDigits_text (base : Int32) (digit : UInt8 → Option ℕ) (s : List UInt8) :
    someDigits base digit (text s) = someDigits base digit s := by
  unfold someDigits text
  rw [digitLoop_takeWhile]

theorem parseDecimalLiteral_text (s : List UInt8) :
    parseDecimalLiteral (text s) = parseDecimalLiteral s := by
  unfold parseDecimalLiteral
  simp only [peek_text (c := 0x2D) (by decide) (by decide)]
  by_cases hminus : peek s = 0x2D
  · rw [if_pos hminus, if_pos hminus, tail_text (by rw [hminus]; decide), someDigits_text]
  · rw [if_neg hminus, if_neg hminus, someDigits_text]

theorem parseOctalLiteral_text (s : List UInt8) :
    parseOctalLiteral (text s) = parseOctalLiteral s := by
  unfold parseOctalLiteral
  simp only [peek_text (c := 0x2D) (by decide) (by decide)]
  by_cases hminus : peek s = 0x2D
  · rw [if_pos hminus, if_pos hminus, tail_text (by rw [hminus]; decide), text,
      digitLoop_takeWhile]
  · rw [if_neg hminus, if_neg hminus, text, digitLoop_takeWhile]

/-- Only the word matters. -/
theorem parseIntLiteral_word (s : List UInt8) : parseIntLiteral (word s) = parseIntLiteral s := by
  unfold parseIntLiteral
  rw [word, dropWhile_text]
  generalize s.dropWhile isspace = t
  simp only [ne_eq, peek_text (c := 0x30) (by decide) (by decide)]
  by_cases hzero : peek t = 0x30
  · simp only [hzero, not_true_eq_false, if_false, tail_text (s := t) (by rw [hzero]; decide),
      peek_text (c := 0x62) (by decide) (by decide), peek_text (c := 0x78) (by decide) (by decide)]
    by_cases hb : peek t.tail = 0x62
    · rw [if_pos hb, if_pos hb, tail_text (by rw [hb]; decide)]
      exact someDigits_text ..
    by_cases hx : peek t.tail = 0x78
    · rw [if_neg hb, if_neg hb, if_pos hx, if_pos hx, tail_text (by rw [hx]; decide)]
      exact someDigits_text ..
    · rw [if_neg hb, if_neg hb, if_neg hx, if_neg hx, parseOctalLiteral_text]
  · rw [if_pos hzero, if_pos hzero, parseDecimalLiteral_text]

/-! ## The literals -/

theorem not_numeral_of {base n : ℕ} {d : UInt8} {ds : List UInt8} (h : digitValue base d = none) :
    ¬Numeral base (d :: ds) n := by
  rintro ⟨_ | ⟨v, vs⟩, hvs, -⟩
  · cases hvs
  · rw [List.map_cons, h] at hvs
    cases hvs

section Word

variable {w : List UInt8} {v : Int32}

theorem someDigits_literal {base : ℕ} (hw : ∀ c ∈ w, isspace c = false) (lead : List UInt8)
    (hlead : ∀ n, Literal (lead ++ w) n ↔ w ≠ [] ∧ ∃ m : ℕ, Numeral base w m ∧ n = m) :
    someDigits (.ofNat base) (digitValue base) w = some v ↔
      ∃ n, Literal (lead ++ w) n ∧ v = Int32.ofInt n := by
  rw [someDigits_eq_some hw]
  constructor
  · rintro ⟨hne, n, hn, rfl⟩
    exact ⟨n, (hlead n).mpr ⟨hne, n, hn, rfl⟩, Int32.ofInt_eq_ofNat.symm⟩
  · rintro ⟨_, hn, rfl⟩
    obtain ⟨hne, m, hm, rfl⟩ := (hlead _).mp hn
    exact ⟨hne, m, hm, Int32.ofInt_eq_ofNat⟩

theorem parseBinaryLiteral_literal (hw : ∀ c ∈ w, isspace c = false) :
    parseBinaryLiteral w = some v ↔
      ∃ n, Literal (0x30 :: 0x62 :: w) n ∧ v = Int32.ofInt n := by
  unfold parseBinaryLiteral
  rw [binaryDigit_eq]
  refine someDigits_literal hw [0x30, 0x62] fun n => ⟨fun h => ?_, ?_⟩
  · cases h with
    | decimal hd _ => exact absurd rfl hd
    | binary hne hn => exact ⟨hne, _, hn, rfl⟩
    | octal hn => exact absurd hn (not_numeral_of rfl)
  · rintro ⟨hne, m, hm, rfl⟩
    exact .binary hne hm

theorem parseHexLiteral_literal (hw : ∀ c ∈ w, isspace c = false) :
    parseHexLiteral w = some v ↔ ∃ n, Literal (0x30 :: 0x78 :: w) n ∧ v = Int32.ofInt n := by
  unfold parseHexLiteral
  rw [hexNibble_eq]
  refine someDigits_literal hw [0x30, 0x78] fun n => ⟨fun h => ?_, ?_⟩
  · cases h with
    | decimal hd _ => exact absurd rfl hd
    | hex hne hn => exact ⟨hne, _, hn, rfl⟩
    | octal hn => exact absurd hn (not_numeral_of rfl)
  · rintro ⟨hne, m, hm, rfl⟩
    exact .hex hne hm

theorem parseDecimalLiteral_literal (hw : ∀ c ∈ w, isspace c = false) (hzero : peek w ≠ 0x30) :
    parseDecimalLiteral w = some v ↔ ∃ n, Literal w n ∧ v = Int32.ofInt n := by
  unfold parseDecimalLiteral
  rw [decimalDigit_eq]
  cases w with
  | nil => exact ⟨nofun, fun ⟨n, hn, _⟩ => nomatch hn⟩
  | cons c w =>
    have hw' : ∀ d ∈ w, isspace d = false := fun d hd => hw d (List.mem_cons_of_mem c hd)
    have hc : c ≠ 0x30 := hzero
    by_cases hminus : c = 0x2D
    · subst hminus
      rw [if_pos (show peek (0x2D :: w) = 0x2D from rfl), Option.map_eq_some_iff]
      constructor
      · rintro ⟨a, ha, rfl⟩
        obtain ⟨hne, n, hn, rfl⟩ := (someDigits_eq_some hw').mp ha
        refine ⟨-n, .minus hne hn, ?_⟩
        rw [Int32.ofInt_neg, Int32.ofInt_eq_ofNat]
        exact (Int32.neg_eq_neg_one_mul _).symm
      · rintro ⟨_, hn, rfl⟩
        cases hn with
        | @minus _ n hne hn =>
          refine ⟨.ofNat n, (someDigits_eq_some hw').mpr ⟨hne, n, hn, rfl⟩, ?_⟩
          rw [Int32.ofInt_neg, Int32.ofInt_eq_ofNat]
          exact (Int32.neg_eq_neg_one_mul _).symm
        | decimal _ hn => exact absurd hn (not_numeral_of rfl)
    · rw [if_neg (show peek (c :: w) ≠ 0x2D from hminus)]
      refine someDigits_literal hw [] fun n => ⟨fun h => ?_, ?_⟩
      · cases h with
        | minus => exact absurd rfl hminus
        | decimal _ hn => exact ⟨List.cons_ne_nil _ _, _, hn, rfl⟩
        | binary => exact absurd rfl hc
        | hex => exact absurd rfl hc
        | octal => exact absurd rfl hc
      · rintro ⟨-, m, hm, rfl⟩
        exact .decimal hc hm

theorem parseOctalLiteral_literal (hw : ∀ c ∈ w, isspace c = false) (hminus : peek w ≠ 0x2D)
    (hb : peek w ≠ 0x62) (hx : peek w ≠ 0x78) :
    parseOctalLiteral w = some v ↔ ∃ n, Literal (0x30 :: w) n ∧ v = Int32.ofInt n := by
  unfold parseOctalLiteral
  rw [if_neg hminus, octalDigit_eq, Option.map_eq_some_iff]
  constructor
  · rintro ⟨⟨a, k⟩, hloop, rfl⟩
    obtain ⟨-, n, hn, rfl⟩ := (digitLoop_numeral hw).mp hloop
    exact ⟨n, .octal hn, Int32.ofInt_eq_ofNat.symm⟩
  · rintro ⟨_, hn, rfl⟩
    cases hn with
    | decimal hd _ => exact absurd rfl hd
    | binary => exact absurd rfl hb
    | hex => exact absurd rfl hx
    | @octal _ n hn =>
      exact ⟨(.ofNat n, w.length), (digitLoop_numeral hw).mpr ⟨rfl, n, hn, rfl⟩,
        Int32.ofInt_eq_ofNat.symm⟩

theorem exists_numeral {base : ℕ} {ds : List UInt8} :
    (∃ n, Numeral base ds n) ↔ ∀ d ∈ ds, (digitValue base d).isSome := by
  constructor
  · rintro ⟨n, vs, hvs, -⟩ d hd
    have hmem := List.mem_map_of_mem (f := digitValue base) hd
    rw [hvs] at hmem
    obtain ⟨v, -, hv⟩ := List.mem_map.mp hmem
    rw [← hv]
    rfl
  · intro h
    refine ⟨_, ds.map fun d => (digitValue base d).getD 0, ?_, rfl⟩
    rw [List.map_map]
    refine List.map_congr_left fun d hd => ?_
    obtain ⟨v, hv⟩ := Option.isSome_iff_exists.mp (h d hd)
    rw [Function.comp_apply, hv]
    rfl

/-- Behind a sign the octal digits are read all the same. -/
theorem parseOctalLiteral_sign {ds : List UInt8} (hds : ∀ c ∈ ds, isspace c = false) :
    (∃ v, parseOctalLiteral (0x2D :: ds) = some v) ↔ ∀ d ∈ ds, (digitValue 8 d).isSome := by
  unfold parseOctalLiteral
  rw [if_pos (show peek (0x2D :: ds) = 0x2D from rfl), octalDigit_eq, ← exists_numeral]
  constructor
  · rintro ⟨v, hv⟩
    obtain ⟨⟨a, k⟩, hloop, -⟩ := Option.map_eq_some_iff.mp hv
    obtain ⟨-, n, hn, -⟩ := (digitLoop_numeral hds).mp hloop
    exact ⟨n, hn⟩
  · rintro ⟨n, hn⟩
    have hloop := (digitLoop_numeral hds).mpr ⟨rfl, n, hn, rfl⟩
    exact ⟨_, Option.map_eq_some_iff.mpr ⟨_, hloop, rfl⟩⟩

theorem not_literal_sign {ds : List UInt8} {n : ℤ} : ¬Literal (0x30 :: 0x2D :: ds) n := by
  intro h
  cases h with
  | decimal hd _ => exact hd rfl
  | octal hn => exact not_numeral_of rfl hn

theorem eq_cons_of_peek {c : UInt8} (h : peek w = c) (hc : c ≠ 0) : ∃ w', w = c :: w' := by
  cases w with
  | nil => exact absurd h.symm hc
  | cons d w =>
    obtain rfl : d = c := h
    exact ⟨w, rfl⟩

theorem parseIntLiteral_literal (hw : ∀ c ∈ w, isspace c = false) (hnot : ¬MisplacedSign w) :
    parseIntLiteral w = some v ↔ ∃ n, Literal w n ∧ v = Int32.ofInt n := by
  have hdrop : w.dropWhile isspace = w := by
    cases w with
    | nil => rfl
    | cons c w => rw [List.dropWhile_cons, hw c List.mem_cons_self, if_neg Bool.false_ne_true]
  unfold parseIntLiteral
  simp only [hdrop]
  by_cases hzero : peek w = 0x30
  · obtain ⟨w, rfl⟩ := eq_cons_of_peek hzero (by decide)
    rw [List.forall_mem_cons] at hw
    rw [if_neg (not_not.mpr hzero), List.tail_cons]
    by_cases hb : peek w = 0x62
    · obtain ⟨w, rfl⟩ := eq_cons_of_peek hb (by decide)
      rw [if_pos hb]
      exact parseBinaryLiteral_literal (List.forall_mem_cons.mp hw.2).2
    by_cases hx : peek w = 0x78
    · obtain ⟨w, rfl⟩ := eq_cons_of_peek hx (by decide)
      rw [if_neg hb, if_pos hx]
      exact parseHexLiteral_literal (List.forall_mem_cons.mp hw.2).2
    rw [if_neg hb, if_neg hx]
    by_cases hminus : peek w = 0x2D
    · obtain ⟨ds, rfl⟩ := eq_cons_of_peek hminus (by decide)
      refine ⟨fun h => ?_, fun ⟨n, hn, _⟩ => absurd hn not_literal_sign⟩
      have hoctal := (parseOctalLiteral_sign (List.forall_mem_cons.mp hw.2).2).mp ⟨v, h⟩
      exact absurd ⟨ds, rfl, hoctal⟩ hnot
    · exact parseOctalLiteral_literal hw.2 hminus hb hx
  · rw [if_pos hzero]
    exact parseDecimalLiteral_literal hw hzero

end Word

theorem takeInt_eq_ok {s : List UInt8} {v : Int32} :
    takeInt s = .ok v ↔ parseIntLiteral (word s) = some v := by
  rw [parseIntLiteral_word, takeInt]
  cases parseIntLiteral s with
  | none => exact ⟨nofun, nofun⟩
  | some out =>
    exact ⟨fun h => congrArg some (Except.ok.inj h), fun h => congrArg _ (Option.some.inj h)⟩

/-- A sign behind the zero is taken. -/
theorem misplacedSign_taken {s : List UInt8} (h : MisplacedSign (word s)) : ¬TakesLiterals s := by
  obtain ⟨ds, hword, hds⟩ := h
  have hspace : ∀ c ∈ word s, isspace c = false := fun c hc => not_space_of_mem_text hc
  rw [hword, List.forall_mem_cons, List.forall_mem_cons] at hspace
  obtain ⟨v, hv⟩ := (parseOctalLiteral_sign hspace.2.2).mpr hds
  intro htakes
  have hword' : parseIntLiteral (word s) = some v := by
    rw [hword]
    exact hv
  obtain ⟨n, hn, -⟩ := (htakes v).mp (takeInt_eq_ok.mpr hword')
  rw [hword] at hn
  exact not_literal_sign hn

/-- `take_int` accepts the literals with their values, and besides them only octal digits with a
sign between them and the zero. -/
theorem takesLiterals_iff (s : List UInt8) : TakesLiterals s ↔ ¬MisplacedSign (word s) := by
  refine ⟨fun h hsign => misplacedSign_taken hsign h, fun h v => ?_⟩
  rw [takeInt_eq_ok]
  exact parseIntLiteral_literal (fun c hc => not_space_of_mem_text hc) h

/-- The text `0-7`. -/
theorem takesLiterals_fails : ¬TakesLiterals [0x30, 0x2D, 0x37] :=
  misplacedSign_taken ⟨[0x37], rfl, by decide +kernel⟩

end BekenCam.ShellParser
