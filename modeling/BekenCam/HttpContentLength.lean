import BekenCam.HttpLimits

/-!
# How a content length may be written

The reader keeps 31 bytes of a header line, 16 of them behind the name. Blanks and leading zeros
count, so a value gets cut when it starts too far to the right.
-/
namespace BekenCam.Http

/-! ## The lines of a head -/

/-- Lines, each with the LF that ends it. -/
def joinLines (lines : List (List UInt8)) : List UInt8 := lines.flatMap (· ++ [lf])

/-- What the reader keeps of a line. -/
def keptLine (line : List UInt8) : List UInt8 := line.take (lineSize - 1)

theorem HeadState.keep_line (st : HeadState) (b : UInt8) :
    (st.keep b).line = st.line ∧ (st.keep b).contentLength = st.contentLength := by
  unfold HeadState.keep
  split_ifs
  · exact ⟨rfl, rfl⟩
  · exact ⟨rfl, rfl⟩

theorem headAfter_line {l : List UInt8} (hl : (headAfter l).line = []) {body : List UInt8}
    (hbody : lf ∉ body) : (headAfter (l ++ body)).line = keptLine body ∧
      (headAfter (l ++ body)).contentLength = (headAfter l).contentLength := by
  induction body using List.reverseRecOn with
  | nil =>
    rw [List.append_nil, hl]
    exact ⟨rfl, rfl⟩
  | append_singleton body b ih =>
    obtain ⟨hline, hlength⟩ := ih fun hmem => hbody (List.mem_append_left [b] hmem)
    have hb : b ≠ lf := by
      rintro rfl
      exact hbody (List.mem_append_right body (List.mem_singleton_self lf))
    obtain ⟨hsameLine, hsameLength⟩ := (headAfter (l ++ body)).keep_line b
    rw [← List.append_assoc, headAfter_concat, HeadState.byte, HeadState.collect, if_neg hb,
      hsameLine, hline]
    have hsize : (keptLine body).length = min (lineSize - 1) body.length := List.length_take
    split_ifs with hroom
    · refine ⟨?_, hsameLength.trans hlength⟩
      dsimp only
      rw [keptLine, keptLine, List.take_of_length_le (by omega),
        List.take_of_length_le (by rw [List.length_append, List.length_singleton]; omega)]
    · refine ⟨?_, hsameLength.trans hlength⟩
      dsimp only
      rw [hsameLine, hline, keptLine, keptLine, List.take_append_of_le_length (by omega)]

theorem headAfter_lines (lines : List (List UInt8)) (h : ∀ line ∈ lines, lf ∉ line) :
    (headAfter (joinLines lines)).line = [] ∧ (headAfter (joinLines lines)).contentLength =
      lines.foldl (fun length line => scanHeader length (keptLine line)) 0 := by
  induction lines using List.reverseRecOn with
  | nil => exact ⟨rfl, rfl⟩
  | append_singleton lines line ih =>
    obtain ⟨hline, hlength⟩ := ih fun line' hmem => h line' (List.mem_append_left [line] hmem)
    have hbody := h line (List.mem_append_right lines (List.mem_singleton_self line))
    obtain ⟨hkept, hsame⟩ := headAfter_line hline hbody
    obtain ⟨hsameLine, hsameLength⟩ := (headAfter (joinLines lines ++ line)).keep_line lf
    have hjoin : joinLines (lines ++ [line]) = joinLines lines ++ line ++ [lf] := by
      simp [joinLines]
    rw [hjoin, headAfter_concat, HeadState.byte, HeadState.collect, if_pos rfl, hsameLine,
      hsameLength, hkept, hsame, hlength, List.foldl_append]
    exact ⟨rfl, rfl⟩

/-! ## Decimal numbers -/

theorem digitsValue_append (a b : List UInt8) :
    digitsValue (a ++ b) = digitsValue a * 10 ^ b.length + digitsValue b := by
  induction b using List.reverseRecOn with
  | nil => simp [digitsValue]
  | append_singleton b x ih =>
    have hconcat : ∀ l : List UInt8, digitsValue (l ++ [x]) =
        digitsValue l * 10 + (x.toNat - 48) := fun l => List.foldl_concat ..
    rw [← List.append_assoc, hconcat, hconcat, ih, List.length_append, List.length_singleton,
      pow_succ]
    ring

theorem isSpace_of_isDigit {b : UInt8} (h : isDigit b = true) :
    isSpace b = false ∧ b ≠ 45 ∧ b ≠ 43 := by
  rw [isDigit, decide_eq_true_eq, UInt8.le_iff_toNat_le, UInt8.le_iff_toNat_le] at h
  have h48 : (48 : UInt8).toNat = 48 := rfl
  have h57 : (57 : UInt8).toNat = 57 := rfl
  refine ⟨?_, ?_, ?_⟩
  · have h32 : (32 : UInt8).toNat = 32 := rfl
    have h13 : (13 : UInt8).toNat = 13 := rfl
    rw [isSpace, Bool.or_eq_false_iff, beq_eq_false_iff_ne, decide_eq_false_iff_not,
      UInt8.le_iff_toNat_le, UInt8.le_iff_toNat_le]
    refine ⟨?_, by omega⟩
    rintro rfl
    omega
  · rintro rfl
    exact absurd h.1 (by decide)
  · rintro rfl
    exact absurd h.1 (by decide)

/-- Blanks, digits and whatever is no digit. -/
theorem strtoul_digits {blanks digits rest : List UInt8} (hblanks : ∀ b ∈ blanks, isSpace b = true)
    (hdigits : ∀ b ∈ digits, isDigit b = true) (hrest : ∀ b ∈ rest, isDigit b = false)
    (hnone : digits = [] → rest = []) (hfits : digitsValue digits < 2 ^ 32) :
    (strtoul (blanks ++ (digits ++ rest))).toNat = digitsValue digits := by
  have hdrop : (blanks ++ (digits ++ rest)).dropWhile isSpace = digits ++ rest := by
    rw [List.dropWhile_append_of_pos hblanks]
    cases digits with
    | nil => rw [hnone rfl]; rfl
    | cons b digits =>
      have hb := (isSpace_of_isDigit (hdigits b List.mem_cons_self)).1
      rw [List.cons_append, List.dropWhile_cons_of_neg (by rw [hb]; nofun)]
  have hsign : ((digits ++ rest).head? == some 45) = false ∧
      ((digits ++ rest).head? == some 43) = false := by
    cases digits with
    | nil => rw [hnone rfl]; exact ⟨rfl, rfl⟩
    | cons b digits =>
      obtain ⟨-, hminus, hplus⟩ := isSpace_of_isDigit (hdigits b List.mem_cons_self)
      simp [hminus, hplus]
  have htake : (digits ++ rest).takeWhile isDigit = digits := by
    rw [List.takeWhile_append_of_pos hdigits]
    cases rest with
    | nil => rw [List.takeWhile_nil, List.append_nil]
    | cons b rest =>
      rw [List.takeWhile_cons_of_neg (by rw [hrest b List.mem_cons_self]; nofun), List.append_nil]
  unfold strtoul
  simp only [hdrop, hsign.1, hsign.2, Bool.or_false, Bool.false_eq_true, if_false, htake]
  rw [if_neg (Nat.not_le.mpr hfits), UInt32.toNat_ofNat', Nat.mod_eq_of_lt hfits]

/-! ## The line -/

def isBlank (b : UInt8) : Bool := b == 32 || b == 9

/-- A header line that states the content length, in any spelling. -/
structure LengthLine where
  /-- With the colon. -/
  name : List UInt8
  blanks : List UInt8
  digits : List UInt8
  trailing : List UInt8
  named : name.map toLower = contentLengthName
  blank : ∀ b ∈ blanks, isBlank b = true
  decimal : digits ≠ [] ∧ ∀ b ∈ digits, isDigit b = true
  blankBehind : ∀ b ∈ trailing, isBlank b = true
  fits : digitsValue digits < 2 ^ 32

namespace LengthLine

variable (line : LengthLine)

def value : ℕ := digitsValue line.digits

/-- Without its LF. -/
def text : List UInt8 := line.name ++ (line.blanks ++ (line.digits ++ (line.trailing ++ [cr])))

/-- The digits that the reader keeps. -/
def keptDigits : List UInt8 :=
  line.digits.take (lineSize - 1 - contentLengthName.length - line.blanks.length)

theorem length_name : line.name.length = contentLengthName.length := by
  rw [← line.named, List.length_map]

theorem contentLengthName_length : contentLengthName.length = 15 := by decide +kernel

/-- What is cut off is missed, unless nothing but zeros was written. -/
theorem keptDigits_value : digitsValue line.keptDigits = line.value ↔
    line.blanks.length + line.digits.length ≤ 16 ∨ line.value = 0 := by
  have hroom : lineSize - 1 - contentLengthName.length = 16 := by
    rw [contentLengthName_length]
    rfl
  rw [keptDigits, hroom, value]
  rcases Nat.lt_or_ge 16 (line.blanks.length + line.digits.length) with hcut | hfit
  · have hdigits := List.length_pos_iff.mpr line.decimal.1
    have hvalue := digitsValue_append (line.digits.take (16 - line.blanks.length))
      (line.digits.drop (16 - line.blanks.length))
    have hpower : 10 ≤ 10 ^ (line.digits.drop (16 - line.blanks.length)).length := by
      refine Nat.le_self_pow ?_ 10
      rw [List.length_drop]
      omega
    have htimes := Nat.mul_le_mul_left (digitsValue (line.digits.take (16 - line.blanks.length)))
      hpower
    rw [List.take_append_drop] at hvalue
    generalize digitsValue (line.digits.take (16 - line.blanks.length)) *
      10 ^ (line.digits.drop (16 - line.blanks.length)).length = shifted at hvalue htimes
    constructor
    · intro heq
      right
      omega
    · rintro (hle | hzero)
      · omega
      · omega
  · rw [List.take_of_length_le (by omega)]
    exact iff_of_true rfl (Or.inl hfit)

theorem isSpace_of_isBlank {b : UInt8} (h : isBlank b = true) :
    isSpace b = true ∧ isDigit b = false := by
  rw [isBlank, Bool.or_eq_true, beq_iff_eq, beq_iff_eq] at h
  rcases h with rfl | rfl
  · exact ⟨by decide, by decide⟩
  · exact ⟨by decide, by decide⟩

theorem digitsValue_take_le (digits : List UInt8) (n : ℕ) :
    digitsValue (digits.take n) ≤ digitsValue digits := by
  have hvalue := digitsValue_append (digits.take n) (digits.drop n)
  have hpower : 1 ≤ 10 ^ (digits.drop n).length := Nat.one_le_pow _ _ (by decide)
  have htimes := Nat.mul_le_mul_left (digitsValue (digits.take n)) hpower
  rw [List.take_append_drop] at hvalue
  generalize digitsValue (digits.take n) * 10 ^ (digits.drop n).length = shifted at hvalue htimes
  omega

/-- The reader takes the digits it has kept. -/
theorem scanHeader_text (length : UInt32) :
    (scanHeader length (keptLine line.text)).toNat = digitsValue line.keptDigits := by
  have hname := line.length_name
  have hsize : contentLengthName.length ≤ lineSize - 1 := by decide +kernel
  have htake : (keptLine line.text).take contentLengthName.length = line.name := by
    rw [keptLine, List.take_take, Nat.min_eq_left hsize, text, ← hname, List.take_left]
  have hdrop : (keptLine line.text).drop contentLengthName.length =
      (line.blanks ++ (line.digits ++ (line.trailing ++ [cr]))).take
        (lineSize - 1 - contentLengthName.length) := by
    rw [keptLine, List.drop_take, text, ← hname, List.drop_left]
  have hkept : (line.blanks ++ (line.digits ++ (line.trailing ++ [cr]))).take
        (lineSize - 1 - contentLengthName.length) =
      line.blanks.take (lineSize - 1 - contentLengthName.length) ++ (line.keptDigits ++
        (line.trailing ++ [cr]).take (lineSize - 1 - contentLengthName.length -
          line.blanks.length - line.digits.length)) := by
    rw [List.take_append, List.take_append, keptDigits]
  have hfits : digitsValue line.keptDigits < 2 ^ 32 :=
    Nat.lt_of_le_of_lt (digitsValue_take_le _ _) line.fits
  unfold scanHeader
  rw [htake, if_pos line.named, hdrop, hkept]
  refine strtoul_digits (fun b hb => ?_) (fun b hb => ?_) (fun b hb => ?_) (fun hnone => ?_) hfits
  · exact (isSpace_of_isBlank (line.blank b (List.mem_of_mem_take hb))).1
  · exact line.decimal.2 b (List.mem_of_mem_take hb)
  · rcases List.mem_append.mp (List.mem_of_mem_take hb) with hb | hb
    · exact (isSpace_of_isBlank (line.blankBehind b hb)).2
    · rw [List.mem_singleton.mp hb]
      decide
  · have hempty := (List.take_eq_nil_iff.mp hnone).resolve_right line.decimal.1
    rw [hempty, Nat.zero_sub, List.take_zero]

end LengthLine

/-! ## The head -/

/-- A line with another name leaves the length alone. -/
theorem scanHeader_other {line : List UInt8}
    (h : (line.take contentLengthName.length).map toLower ≠ contentLengthName) (length : UInt32) :
    scanHeader length (keptLine line) = length := by
  have hsize : contentLengthName.length ≤ lineSize - 1 := by decide +kernel
  have htake : (keptLine line).take contentLengthName.length =
      line.take contentLengthName.length := by
    rw [keptLine, List.take_take, Nat.min_eq_left hsize]
  rw [scanHeader, htake, if_neg h]

/-- The lines of a head with one that states the content length. -/
structure LengthHead (before : List (List UInt8)) (line : LengthLine)
    (after : List (List UInt8)) (head : List UInt8) : Prop where
  lines : head = joinLines (before ++ line.text :: after)
  whole : IsHead head
  ends : ∀ l ∈ before ++ line.text :: after, lf ∉ l
  only : ∀ l ∈ before ++ after,
    (l.take contentLengthName.length).map toLower ≠ contentLengthName

theorem LengthHead.contentLength {before after : List (List UInt8)} {line : LengthLine}
    {head : List UInt8} (h : LengthHead before line after head) :
    (headAfter head).contentLength.toNat = digitsValue line.keptDigits := by
  have hother : ∀ lines : List (List UInt8), (∀ l ∈ lines,
      (l.take contentLengthName.length).map toLower ≠ contentLengthName) → ∀ length,
      lines.foldl (fun length l => scanHeader length (keptLine l)) length = length := by
    intro lines hlines length
    induction lines with
    | nil => rfl
    | cons l lines ih =>
      rw [List.foldl_cons, scanHeader_other (hlines l List.mem_cons_self)]
      exact ih fun l' hl' => hlines l' (List.mem_cons_of_mem l hl')
  rw [h.lines, (headAfter_lines _ h.ends).2, List.foldl_append, List.foldl_cons,
    hother after fun l hl => h.only l (List.mem_append_right before hl)]
  exact line.scanHeader_text _

/-- The length that was written gets into the request. -/
structure Understood (socket : Socket) (value : ℕ) : Prop where
  read : ∃ head pending, (readHead socket).1 = .ok head pending ∧
    head.contentLength.toNat = value
  handled : ∀ request, (serveRequest socket).1 = .handled request →
    request.contentLength.toNat = value

theorem parseRequestLine_contentLength {head : HeadState} {request : Request}
    (h : parseRequestLine head = .ok request) : request.contentLength = head.contentLength := by
  unfold parseRequestLine at h
  dsimp only at h
  split_ifs at h
  obtain rfl := Except.ok.inj h
  rfl

/-- The blanks and the digits have to fit 16 bytes, whatever else the head says and however it is
cut. -/
theorem http_content_length_iff {before after : List (List UInt8)} {line : LengthLine}
    {head : List UInt8} (h : LengthHead before line after head) (hlimit : head.length ≤ headLimit)
    (rest : List UInt8) (cuts : ℕ → ℕ) : Understood ⟨head ++ rest, cuts, 0⟩ line.value ↔
      line.blanks.length + line.digits.length ≤ 16 ∨ line.value = 0 := by
  have hincoming : (⟨head ++ rest, cuts, 0⟩ : Socket).incoming = head ++ rest := rfl
  obtain ⟨pending, socket, hread, -⟩ := readHead_spec h.whole hlimit hincoming
  rw [← line.keptDigits_value, ← h.contentLength]
  constructor
  · rintro ⟨⟨st, pending', hok, hvalue⟩, -⟩
    rw [hread] at hok
    rw [← hvalue, (HeadResult.ok.inj hok).1]
  · intro hvalue
    refine ⟨⟨headAfter head, pending, by rw [hread], hvalue⟩, fun request hrequest => ?_⟩
    unfold serveRequest at hrequest
    rw [hread] at hrequest
    dsimp only at hrequest
    cases hparse : parseRequestLine (headAfter head) with
    | error status =>
      rw [hparse] at hrequest
      cases hrequest
    | ok request' =>
      rw [hparse] at hrequest
      obtain rfl := Decision.handled.inj hrequest
      rw [parseRequestLine_contentLength hparse, hvalue]

/-- `cOnTeNt-LeNgTh`, two blanks, and zeros in front. -/
def mixedLine : LengthLine where
  name := ascii "cOnTeNt-LeNgTh:"
  blanks := [32, 9]
  digits := ascii "00042"
  trailing := [32]
  named := by decide +kernel
  blank := by decide +kernel
  decimal := by decide +kernel
  blankBehind := by decide +kernel
  fits := by decide +kernel

/-- Fourteen blanks in front of three digits. -/
def indentedLine : LengthLine where
  name := ascii "Content-Length:"
  blanks := List.replicate 14 32
  digits := ascii "123"
  trailing := []
  named := by decide +kernel
  blank := by decide +kernel
  decimal := by decide +kernel
  blankBehind := by decide +kernel
  fits := by decide +kernel

def putHead (line : LengthLine) : List UInt8 :=
  joinLines ([ascii "PUT / HTTP/1.1\r"] ++ line.text :: [[cr]])

theorem lengthHead_mixed :
    LengthHead [ascii "PUT / HTTP/1.1\r"] mixedLine [[cr]] (putHead mixedLine) :=
  ⟨rfl, isHead_of_scan (by decide +kernel), by decide +kernel, by decide +kernel⟩

theorem lengthHead_indented :
    LengthHead [ascii "PUT / HTTP/1.1\r"] indentedLine [[cr]] (putHead indentedLine) :=
  ⟨rfl, isHead_of_scan (by decide +kernel), by decide +kernel, by decide +kernel⟩

theorem http_content_length_iff_mixed :
    (Understood ⟨putHead mixedLine ++ [], fun _ => 2, 0⟩ mixedLine.value ↔
      mixedLine.blanks.length + mixedLine.digits.length ≤ 16 ∨ mixedLine.value = 0) ∧
    mixedLine.value = 42 :=
  ⟨http_content_length_iff lengthHead_mixed (by decide +kernel) [] fun _ => 2, by decide +kernel⟩

/-- The last digit is cut off: 12 for 123. -/
theorem http_content_length_cut : ¬∀ (before after : List (List UInt8)) (line : LengthLine)
    (head : List UInt8), LengthHead before line after head → head.length ≤ headLimit →
      ∀ (rest : List UInt8) (cuts : ℕ → ℕ), Understood ⟨head ++ rest, cuts, 0⟩ line.value := by
  intro h
  have hunderstood := h _ _ indentedLine _ lengthHead_indented (by decide +kernel) [] fun _ => 127
  have hhandled : (serveRequest ⟨putHead indentedLine ++ [], fun _ => 127, 0⟩).1 =
      .handled ⟨ascii "PUT", ascii "/", [], 12⟩ := by decide +kernel
  exact absurd (hunderstood.handled _ hhandled) (by decide +kernel)

end BekenCam.Http
