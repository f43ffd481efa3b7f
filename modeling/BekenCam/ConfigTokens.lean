import BekenCam.ConfigJson
import BekenCam.JsonSyntax

/-!
# What the token readers take

Each reader of a body takes white space and one token. The token and what it stands for are given
by the syntax of the object; the reader only adds where it stops.
-/
namespace BekenCam.Settings

open FlashKv Json ReadM JsonSyntax
open Http (ascii)

/-! ## White space -/

/-- The text does not start with white space. -/
def NoSpace (r : List UInt8) : Prop := ∀ b ∈ r.head?, isSpace b = false

theorem noSpace_cons {b : UInt8} {r : List UInt8} : NoSpace (b :: r) ↔ isSpace b = false := by
  simp [NoSpace]

theorem dropWhile_isSpace_iff (r r' : List UInt8) :
    r.dropWhile isSpace = r' ↔ ∃ gap, IsGap gap ∧ r = gap ++ r' ∧ NoSpace r' := by
  constructor
  · rintro rfl
    refine ⟨r.takeWhile isSpace, List.all_eq_true.mp List.all_takeWhile,
      List.takeWhile_append_dropWhile.symm, fun b hb => ?_⟩
    have hhead := List.head?_dropWhile_not isSpace r
    rw [Option.mem_def.mp hb] at hhead
    simpa using hhead
  · rintro ⟨gap, hgap, rfl, hnext⟩
    rw [List.dropWhile_append_of_pos hgap]
    cases r' with
    | nil => rfl
    | cons b r' => exact List.dropWhile_cons_of_neg (by simp [noSpace_cons.mp hnext])

theorem takes_skipSpace_iff {r r' : List UInt8} :
    Takes skipSpace r () r' ↔ ∃ gap, IsGap gap ∧ r = gap ++ r' ∧ NoSpace r' := by
  rw [← dropWhile_isSpace_iff]
  change ((some (), r.dropWhile isSpace) : Option Unit × List UInt8) = (some (), r') ↔ _
  rw [Prod.mk.injEq]
  exact and_iff_right rfl

theorem takes_consume_iff {c : UInt8} (hc : isSpace c = false) {r r' : List UInt8} :
    Takes (consume c) r true r' ↔ ∃ gap, IsGap gap ∧ r = gap ++ c :: r' := by
  have hiff : Takes (consume c) r true r' ↔ r.dropWhile isSpace = c :: r' := by
    unfold Takes consume
    cases r.dropWhile isSpace with
    | nil => simp
    | cons b rest =>
      by_cases hb : b = c
      · simp [hb]
      · simp [hb]
  rw [hiff, dropWhile_isSpace_iff]
  simp only [noSpace_cons, hc, and_true]

theorem takes_consume_false_iff {c : UInt8} {r r' : List UInt8} :
    Takes (consume c) r false r' ↔
      (∃ gap, IsGap gap ∧ r = gap ++ r' ∧ NoSpace r') ∧ r'.head? ≠ some c := by
  rw [← dropWhile_isSpace_iff]
  unfold Takes consume
  cases r.dropWhile isSpace with
  | nil =>
    simp only [Prod.mk.injEq, true_and]
    constructor
    · rintro rfl
      exact ⟨rfl, nofun⟩
    · exact fun h => h.1
  | cons b rest =>
    by_cases hb : b = c
    · simp only [if_pos hb, Prod.mk.injEq, Option.some.injEq, Bool.true_eq_false, false_and,
        false_iff, not_and, not_not]
      rintro rfl
      simp [hb]
    · simp only [if_neg hb, Prod.mk.injEq, true_and]
      constructor
      · rintro rfl
        exact ⟨rfl, by simp [hb]⟩
      · exact fun h => h.1

/-! ## Strings -/

theorem unicodeByte_eq_byte (h1 h2 h3 h4 : UInt8) :
    unicodeByte h1 h2 h3 h4 = (StringChar.unicode h1 h2 h3 h4).byte := by
  simp only [unicodeByte, StringChar.byte, hexNumber, List.foldlM_cons, List.foldlM_nil]
  cases hexValue h1 with
  | none => rfl
  | some d1 =>
    cases hexValue h2 with
    | none => rfl
    | some d2 =>
      cases hexValue h3 with
      | none => rfl
      | some d3 =>
        cases hexValue h4 with
        | none => rfl
        | some d4 =>
          simp only [Option.bind_eq_bind, Option.bind_some, Option.map_some, Nat.zero_mul,
            Nat.zero_add, Option.pure_def]
          split_ifs with hbad hgood
          · omega
          · rfl
          · rfl
          · omega

theorem shortEscape_eq_lookup (e : UInt8) : shortEscape e = shortEscapes.lookup e := by
  have hall : ∀ k < 256, shortEscape (UInt8.ofNat k) = shortEscapes.lookup (UInt8.ofNat k) := by
    decide +kernel
  have he := hall e.toNat e.toNat_lt
  rwa [UInt8.ofNat_toNat] at he

theorem byte_plain_iff {c b : UInt8} : (StringChar.plain c).byte = some b ↔
    0x20 ≤ c ∧ c ≠ quote ∧ c ≠ backslash ∧ c = b := by
  simp only [StringChar.byte, StringChar.code]
  split_ifs with h
  · simp [h]
  · constructor
    · exact nofun
    · exact fun hc => absurd ⟨hc.1, hc.2.1, hc.2.2.1⟩ h

theorem byte_short (e : UInt8) : (StringChar.short e).byte = shortEscape e := by
  rw [shortEscape_eq_lookup, StringChar.byte, StringChar.code, Option.map_map]
  · have hid : UInt8.ofNat ∘ UInt8.toNat = id := funext fun x => UInt8.ofNat_toNat
    rw [hid, Option.map_id]
    rfl
  · exact nofun

/-- One character, however it is written. -/
theorem readChars_char {size : Option ℕ} {out out' : List UInt8} {ch : StringChar} {b : UInt8}
    (h : ch.byte = some b) (hkeep : keepChar size out b = some out') (r : List UInt8) :
    readChars size out (ch.text ++ r) = readChars size out' r := by
  cases ch with
  | plain c =>
    obtain ⟨hlow, hquote, hback, rfl⟩ := byte_plain_iff.mp h
    change readChars size out (c :: r) = _
    rw [readChars.eq_def]
    dsimp only
    rw [if_neg hquote, if_neg (UInt8.not_lt.mpr hlow), if_neg hback, hkeep]
  | short e =>
    rw [byte_short] at h
    have hletter : e ≠ letterU := by
      rintro rfl
      rw [show shortEscape letterU = none by decide] at h
      cases h
    change readChars size out (backslash :: e :: r) = _
    rw [readChars.eq_def]
    dsimp only
    rw [if_neg (by decide), if_neg (by decide), if_pos rfl, if_neg hletter, h, Option.bind_some,
      hkeep]
  | unicode h1 h2 h3 h4 =>
    rw [← unicodeByte_eq_byte] at h
    change readChars size out (backslash :: letterU :: h1 :: h2 :: h3 :: h4 :: r) = _
    rw [readChars.eq_def]
    dsimp only
    rw [if_neg (by decide), if_neg (by decide), if_pos rfl, if_pos rfl, h, Option.bind_some,
      hkeep]

/-- What is kept of the bytes of a string behind `out`. -/
def Kept (size : Option ℕ) (out bytes text : List UInt8) : Prop :=
  match size with
  | none => text = out ++ [0]
  | some n => (bytes = [] ∨ out.length + bytes.length < n) ∧ text = out ++ bytes ++ [0]

theorem kept_nil (size : Option ℕ) (out : List UInt8) : Kept size out [] (out ++ [0]) := by
  cases size with
  | none => rfl
  | some n => exact ⟨Or.inl rfl, by rw [List.append_nil]⟩

theorem kept_cons {size : Option ℕ} {out bytes text : List UInt8} {b : UInt8} :
    Kept size out (b :: bytes) text ↔
      ∃ out', keepChar size out b = some out' ∧ Kept size out' bytes text := by
  cases size with
  | none => simp [Kept, keepChar]
  | some n =>
    simp only [Kept, keepChar]
    constructor
    · rintro ⟨hfit, rfl⟩
      have hlen : out.length + (b :: bytes).length < n := hfit.resolve_left (List.cons_ne_nil b bytes)
      rw [List.length_cons] at hlen
      refine ⟨out ++ [b], if_neg (by omega), Or.inr ?_, by simp⟩
      rw [List.length_append, List.length_singleton]
      omega
    · rintro ⟨out', hkeep, hfit, rfl⟩
      split_ifs at hkeep with hfull
      obtain rfl := Option.some.inj hkeep
      refine ⟨Or.inr ?_, by simp⟩
      rw [List.length_cons]
      rcases hfit with rfl | hfit
      · rw [List.length_nil]
        omega
      · rw [List.length_append, List.length_singleton] at hfit
        omega

theorem stringBytes_cons {ch : StringChar} {cs : List StringChar} {bytes : List UInt8} :
    stringBytes (ch :: cs) = some bytes ↔
      ∃ b rest, ch.byte = some b ∧ stringBytes cs = some rest ∧ bytes = b :: rest :=
  mapM_cons_eq_some

/-- No character is a NUL. -/
theorem byte_ne_zero (ch : StringChar) : ch.byte ≠ some 0 := by
  intro h
  cases ch with
  | plain c =>
    obtain ⟨hlow, -, -, rfl⟩ := byte_plain_iff.mp h
    exact absurd hlow (by decide)
  | short e =>
    have hall : ∀ k < 256, shortEscape (UInt8.ofNat k) ≠ some 0 := by decide +kernel
    rw [byte_short, ← UInt8.ofNat_toNat (x := e)] at h
    exact hall e.toNat e.toNat_lt h
  | unicode h1 h2 h3 h4 =>
    obtain ⟨n, -, hn⟩ := Option.bind_eq_some_iff.mp h
    split_ifs at hn with hrange
    have hzero := congrArg UInt8.toNat (Option.some.inj hn)
    rw [UInt8.toNat_ofNat', UInt8.toNat_zero] at hzero
    omega

theorem zero_notMem_stringBytes {cs : List StringChar} {s : List UInt8}
    (h : stringBytes cs = some s) : (0 : UInt8) ∉ s := by
  induction cs generalizing s with
  | nil =>
    obtain rfl : s = [] := (Option.some.inj h).symm
    exact List.not_mem_nil
  | cons ch cs ih =>
    obtain ⟨b, rest, hb, hrest, rfl⟩ := stringBytes_cons.mp h
    rw [List.mem_cons, not_or]
    refine ⟨?_, ih hrest⟩
    rintro rfl
    exact byte_ne_zero ch hb

theorem charsText_cons (ch : StringChar) (cs : List StringChar) :
    charsText (ch :: cs) = ch.text ++ charsText cs := List.flatMap_cons

theorem takes_readChars {size : Option ℕ} {out text r r' : List UInt8}
    (h : Takes (readChars size out) r text r') :
    ∃ cs bytes, r = charsText cs ++ quote :: r' ∧ stringBytes cs = some bytes ∧
      Kept size out bytes text := by
  -- one more character in front of the rest
  have hcons : ∀ {out out' rest : List UInt8} (ch : StringChar) {b : UInt8},
      ch.byte = some b → keepChar size out b = some out' →
      (∃ cs bytes, rest = charsText cs ++ quote :: r' ∧ stringBytes cs = some bytes ∧
        Kept size out' bytes text) →
      ∃ cs bytes, ch.text ++ rest = charsText cs ++ quote :: r' ∧ stringBytes cs = some bytes ∧
        Kept size out bytes text := by
    rintro out out' rest ch b hb hkeep ⟨cs, bytes, rfl, hbytes, hkept⟩
    refine ⟨ch :: cs, b :: bytes, ?_, stringBytes_cons.mpr ⟨b, bytes, hb, hbytes, rfl⟩,
      kept_cons.mpr ⟨out', hkeep, hkept⟩⟩
    rw [charsText_cons, List.append_assoc]
  unfold Takes at h
  fun_induction readChars size out r with
  | case1 | case3 | case4 | case6 | case7 | case9 | case11 => cases h
  | case2 out r =>
    cases h
    exact ⟨[], [], rfl, rfl, kept_nil size out⟩
  | case5 out h1 h2 h3 h4 r out' hkeep _ _ ih =>
    obtain ⟨b, hcode, hkeep⟩ := Option.bind_eq_some_iff.mp hkeep
    rw [unicodeByte_eq_byte] at hcode
    exact hcons (.unicode h1 h2 h3 h4) hcode hkeep (ih h)
  | case8 out e r hletter out' hkeep _ _ ih =>
    obtain ⟨b, hescape, hkeep⟩ := Option.bind_eq_some_iff.mp hkeep
    rw [← byte_short] at hescape
    exact hcons (.short e) hescape hkeep (ih h)
  | case10 out c r hquote hlow hback out' hkeep ih =>
    exact hcons (.plain c) (byte_plain_iff.mpr ⟨UInt8.not_lt.mp hlow, hquote, hback, rfl⟩) hkeep
      (ih h)

theorem takes_readChars_of {size : Option ℕ} {out bytes text : List UInt8}
    {cs : List StringChar} (hbytes : stringBytes cs = some bytes) (hkept : Kept size out bytes text)
    (r : List UInt8) : Takes (readChars size out) (charsText cs ++ quote :: r) text r := by
  induction cs generalizing out bytes with
  | nil =>
    obtain rfl : bytes = [] := (Option.some.inj hbytes).symm
    obtain rfl : text = out ++ [0] := by
      cases size with
      | none => exact hkept
      | some n => rw [hkept.2, List.append_nil]
    unfold Takes
    rw [readChars.eq_def]
    rfl
  | cons ch cs ih =>
    obtain ⟨b, rest, hb, hrest, rfl⟩ := stringBytes_cons.mp hbytes
    obtain ⟨out', hkeep, hkept⟩ := kept_cons.mp hkept
    unfold Takes
    rw [charsText_cons, List.append_assoc, readChars_char hb hkeep]
    exact ih hrest hkept

theorem takes_readString_iff {size : Option ℕ} {text r r' : List UInt8} :
    Takes (readString size) r text r' ↔ ∃ gap cs bytes, IsGap gap ∧
      r = gap ++ (stringText cs ++ r') ∧ stringBytes cs = some bytes ∧ Kept size [] bytes text := by
  unfold readString
  rw [takes_bind]
  constructor
  · rintro ⟨opened, r₁, hopen, h⟩
    split_ifs at h with htrue
    · rw [htrue] at hopen
      obtain ⟨gap, hgap, rfl⟩ := (takes_consume_iff (by decide)).mp hopen
      obtain ⟨cs, bytes, rfl, hbytes, hkept⟩ := takes_readChars h
      exact ⟨gap, cs, bytes, hgap, by simp [stringText], hbytes, hkept⟩
    · exact absurd h not_takes_failure
  · rintro ⟨gap, cs, bytes, hgap, rfl, hbytes, hkept⟩
    refine ⟨true, charsText cs ++ quote :: r', (takes_consume_iff (by decide)).mpr
      ⟨gap, hgap, by simp [stringText]⟩, ?_⟩
    rw [if_pos rfl]
    exact takes_readChars_of hbytes hkept r'

/-! ## Numbers -/

/-- The text does not go on with a digit. -/
def NoDigit (r : List UInt8) : Prop := ∀ b ∈ r.head?, ¬(48 ≤ b ∧ b ≤ 57)

theorem isDigit_iff {c : UInt8} : isDigit c = true ↔ 48 ≤ c ∧ c ≤ 57 := by
  simp [isDigit]

/-- Nine digits do not overflow. -/
theorem digit_step {result : UInt32} {digits : ℕ} {c : UInt8} (hc : 48 ≤ c ∧ c ≤ 57)
    (hresult : result.toNat < 10 ^ digits) (hdigits : digits < 9) :
    (result * 10 + (c - 0x30).toUInt32).toNat = result.toNat * 10 + (c.toNat - 48) ∧
      result.toNat * 10 + (c.toNat - 48) < 10 ^ (digits + 1) := by
  have hlow := UInt8.le_iff_toNat_le.mp hc.1
  have hhigh := UInt8.le_iff_toNat_le.mp hc.2
  have hsub : (c - 0x30).toUInt32.toNat = c.toNat - 48 := by
    rw [UInt8.toNat_toUInt32, UInt8.toNat_sub_of_le _ _ hc.1]
    rfl
  have hten : (10 : UInt32).toNat = 10 := rfl
  have hpow : 10 ^ digits ≤ 10 ^ 8 := Nat.pow_le_pow_right (by decide) (by omega)
  have hmax : (57 : UInt8).toNat = 57 := rfl
  have hmul : (result * 10).toNat = result.toNat * 10 := by
    rw [UInt32.toNat_mul, hten]
    exact Nat.mod_eq_of_lt (by omega)
  refine ⟨?_, by rw [Nat.pow_succ]; omega⟩
  rw [UInt32.toNat_add, hmul, hsub]
  exact Nat.mod_eq_of_lt (by omega)

/-- All digits in front of `r'`, nine at most, have been read behind those of `result`. -/
def DigitsRead (result digits : ℕ) (r : List UInt8) (n m : ℕ) (r' : List UInt8) : Prop :=
  ∃ ds, r = ds ++ r' ∧ IsDigits ds ∧ m = digits + ds.length ∧ m ≤ 9 ∧
    n = ds.foldl (fun n d => n * 10 + (d.toNat - 48)) result ∧ NoDigit r'

theorem digitsRead_of_noDigit {result digits n m : ℕ} {r r' : List UInt8} (hr : NoDigit r)
    (hdigits : digits ≤ 9) :
    DigitsRead result digits r n m r' ↔ n = result ∧ m = digits ∧ r = r' := by
  constructor
  · rintro ⟨ds, rfl, hds, rfl, -, hn, -⟩
    cases ds with
    | nil => exact ⟨hn, rfl, rfl⟩
    | cons d ds => exact absurd (hds d List.mem_cons_self) (hr d rfl)
  · rintro ⟨rfl, rfl, rfl⟩
    exact ⟨[], rfl, nofun, rfl, hdigits, rfl, hr⟩

theorem digitsRead_cons {result digits n m : ℕ} {c : UInt8} {r r' : List UInt8}
    (hc : 48 ≤ c ∧ c ≤ 57) :
    DigitsRead result digits (c :: r) n m r' ↔
      DigitsRead (result * 10 + (c.toNat - 48)) (digits + 1) r n m r' := by
  constructor
  · rintro ⟨ds, hsplit, hds, hm, hle, hn, hr'⟩
    cases ds with
    | nil =>
      obtain rfl : c :: r = r' := hsplit
      exact absurd hc (hr' c rfl)
    | cons d ds =>
      obtain ⟨rfl, rfl⟩ := List.cons.inj hsplit
      rw [List.length_cons] at hm
      exact ⟨ds, rfl, fun d hd => hds d (List.mem_cons_of_mem _ hd), by omega, hle, hn, hr'⟩
  · rintro ⟨ds, rfl, hds, hm, hle, hn, hr'⟩
    refine ⟨c :: ds, rfl, List.forall_mem_cons.mpr ⟨hc, hds⟩, ?_, hle, hn, hr'⟩
    rw [List.length_cons]
    omega

theorem takes_stopped_iff {result n : UInt32} {digits m : ℕ} {r r' : List UInt8} (hr : NoDigit r)
    (hdigits : digits ≤ 9) : Takes (pure (result, digits)) r (n, m) r' ↔
      DigitsRead result.toNat digits r n.toNat m r' := by
  rw [digitsRead_of_noDigit hr hdigits, UInt32.toNat_inj, takes_pure, Prod.mk.injEq, and_assoc,
    eq_comm, eq_comm (a := digits)]

theorem takes_readDigits_iff {result : UInt32} {digits : ℕ} (hresult : result.toNat < 10 ^ digits)
    (hdigits : digits ≤ 9) {n : UInt32} {m : ℕ} {r r' : List UInt8} :
    Takes (readDigits result digits) r (n, m) r' ↔
      DigitsRead result.toNat digits r n.toNat m r' := by
  induction r generalizing result digits with
  | nil => exact takes_stopped_iff nofun hdigits
  | cons c r ih =>
    unfold Takes
    rw [readDigits]
    by_cases hc : isDigit c = true
    · have hc' := isDigit_iff.mp hc
      rw [if_pos hc, digitsRead_cons hc']
      by_cases hfull : digits + 1 > 9
      · rw [if_pos hfull]
        constructor
        · exact nofun
        · rintro ⟨ds, -, -, hm, hle, -⟩
          omega
      · obtain ⟨hstep, hlt⟩ := digit_step hc' hresult (by omega)
        rw [if_neg hfull, ← hstep]
        exact ih (by rw [hstep]; exact hlt) (by omega)
    · rw [if_neg hc]
      refine takes_stopped_iff (fun b hb => ?_) hdigits
      obtain rfl := Option.some.inj hb
      exact fun h => hc (isDigit_iff.mpr h)

theorem not_isSpace_of_digit {d : UInt8} (h : 48 ≤ d ∧ d ≤ 57) : isSpace d = false := by
  have hlow := UInt8.le_iff_toNat_le.mp h.1
  have h48 : (48 : UInt8).toNat = 48 := rfl
  have hne : ∀ b : UInt8, b.toNat < 48 → d ≠ b := by
    rintro b hb rfl
    omega
  simp [isSpace, hne 32 (by decide), hne 9 (by decide), hne 13 (by decide), hne 10 (by decide)]

theorem takes_readNumber_iff {n : UInt32} {r r' : List UInt8} :
    Takes readNumber r n r' ↔ ∃ gap ds, IsGap gap ∧ r = gap ++ (ds ++ r') ∧
      (Number.ofDigits ds).Short ∧ n.toNat = decimal ds ∧ NoDigit r' := by
  have hread : Takes readNumber r n r' ↔ ∃ r₁ m, Takes skipSpace r () r₁ ∧
      Takes (readDigits 0 0) r₁ (n, m) r' ∧ m ≠ 0 := by
    unfold readNumber
    rw [takes_bind]
    constructor
    · rintro ⟨⟨⟩, r₁, hspace, h⟩
      obtain ⟨⟨n', m⟩, r₂, hdigits, h⟩ := takes_bind.mp h
      dsimp only at h
      split_ifs at h with hzero
      · exact absurd h not_takes_failure
      · obtain ⟨rfl, rfl⟩ := takes_pure.mp h
        exact ⟨r₁, m, hspace, hdigits, hzero⟩
    · rintro ⟨r₁, m, hspace, hdigits, hzero⟩
      refine ⟨(), r₁, hspace, takes_bind.mpr ⟨(n, m), r', hdigits, ?_⟩⟩
      dsimp only
      rw [if_neg hzero]
      exact takes_pure.mpr ⟨rfl, rfl⟩
  rw [hread]
  constructor
  · rintro ⟨r₁, m, hspace, hdigits, hzero⟩
    obtain ⟨gap, hgap, rfl, -⟩ := takes_skipSpace_iff.mp hspace
    obtain ⟨ds, rfl, hds, rfl, hle, hn, hr'⟩ :=
      (takes_readDigits_iff (by decide) (by decide)).mp hdigits
    rw [Nat.zero_add] at hzero hle
    exact ⟨gap, ds, hgap, rfl, ⟨rfl, rfl, rfl, hds, Nat.pos_of_ne_zero hzero, hle⟩, hn, hr'⟩
  · rintro ⟨gap, ds, hgap, rfl, ⟨-, -, -, hds, hpos, hle⟩, hn, hr'⟩
    change 1 ≤ ds.length at hpos
    refine ⟨ds ++ r', ds.length, takes_skipSpace_iff.mpr ⟨gap, hgap, rfl, ?_⟩,
      (takes_readDigits_iff (by decide) (by decide)).mpr
        ⟨ds, rfl, hds, (Nat.zero_add _).symm, hle, hn, hr'⟩, by omega⟩
    cases ds with
    | nil => cases hpos
    | cons d ds => exact noSpace_cons.mpr (not_isSpace_of_digit (hds d List.mem_cons_self))

/-- A short number is read as the number it is. -/
theorem takes_shortNumber {gap r : List UInt8} {n : Number} (hgap : IsGap gap) (hshort : n.Short)
    (hend : NoDigit r) :
    Takes readNumber (gap ++ (n.int ++ r)) (UInt32.ofNat (decimal n.int)) r := by
  refine takes_readNumber_iff.mpr ⟨gap, n.int, hgap, rfl, hshort.eq ▸ hshort, ?_, hend⟩
  obtain ⟨-, -, -, hdigits, -, hle⟩ := hshort
  have hlt := decimal_lt hdigits
  have hpow : 10 ^ n.int.length ≤ 10 ^ 9 := Nat.pow_le_pow_right (by decide) hle
  rw [UInt32.toNat_ofNat']
  exact Nat.mod_eq_of_lt (by omega)

/-! ## Words -/

theorem isGap_nil : IsGap [] := List.forall_mem_nil _

theorem isGap_append {a b : List UInt8} (ha : IsGap a) (hb : IsGap b) : IsGap (a ++ b) := by
  intro x hx
  rcases List.mem_append.mp hx with hx | hx
  · exact ha x hx
  · exact hb x hx

theorem takes_readPrefix_iff {word r r' : List UInt8} :
    Takes (readPrefix word) r () r' ↔ r = word ++ r' := by
  unfold Takes readPrefix
  split_ifs with hp
  · obtain ⟨rest, rfl⟩ := List.isPrefixOf_iff_prefix.mp hp
    rw [List.drop_left, Prod.mk.injEq, List.append_cancel_left_eq]
    exact and_iff_right rfl
  · constructor
    · exact nofun
    · rintro rfl
      exact absurd (List.isPrefixOf_iff_prefix.mpr (List.prefix_append _ _)) hp

theorem fails_readPrefix_iff {word r r' : List UInt8} :
    Fails (readPrefix word) r r' ↔ r = r' ∧ ¬word <+: r' := by
  rw [← List.isPrefixOf_iff_prefix]
  unfold Fails readPrefix
  split_ifs with hp
  · constructor
    · exact nofun
    · rintro ⟨rfl, hno⟩
      exact absurd hp hno
  · rw [Prod.mk.injEq]
    constructor
    · rintro ⟨-, rfl⟩
      exact ⟨rfl, hp⟩
    · exact fun h => ⟨rfl, h.1⟩

/-- A word that does not start with white space. -/
theorem takes_readWord_iff {b : UInt8} {word r r' : List UInt8} (hb : isSpace b = false) :
    Takes (readWord (b :: word)) r () r' ↔
      ∃ gap, IsGap gap ∧ r = gap ++ (b :: word ++ r') := by
  unfold readWord
  rw [takes_bind]
  constructor
  · rintro ⟨⟨⟩, r₁, hspace, hword⟩
    obtain ⟨gap, hgap, rfl, -⟩ := takes_skipSpace_iff.mp hspace
    exact ⟨gap, hgap, by rw [takes_readPrefix_iff.mp hword]⟩
  · rintro ⟨gap, hgap, rfl⟩
    exact ⟨(), _, takes_skipSpace_iff.mpr ⟨gap, hgap, rfl, noSpace_cons.mpr hb⟩,
      takes_readPrefix_iff.mpr rfl⟩

/-- A word that is not there costs the white space only. -/
theorem fails_readWord_iff {word r r' : List UInt8} :
    Fails (readWord word) r r' ↔
      (∃ gap, IsGap gap ∧ r = gap ++ r' ∧ NoSpace r') ∧ ¬word <+: r' := by
  unfold readWord
  rw [fails_bind]
  constructor
  · rintro (h | ⟨⟨⟩, r₁, hspace, hword⟩)
    · cases h
    · obtain ⟨rfl, hno⟩ := fails_readPrefix_iff.mp hword
      exact ⟨takes_skipSpace_iff.mp hspace, hno⟩
  · rintro ⟨hgap, hno⟩
    exact Or.inr ⟨(), r', takes_skipSpace_iff.mpr hgap, fails_readPrefix_iff.mpr ⟨rfl, hno⟩⟩

theorem ascii_words : ascii "true" = boolText true ∧ ascii "false" = boolText false ∧
    ascii "null" = nullText := by decide +kernel

theorem takes_readBool_iff {b : Bool} {r r' : List UInt8} :
    Takes readBool r b r' ↔ ∃ gap, IsGap gap ∧ r = gap ++ (boolText b ++ r') := by
  unfold readBool
  rw [takes_orElse]
  simp only [takes_replace, fails_replace, ascii_words.1, ascii_words.2.1]
  constructor
  · rintro (⟨⟨⟨⟩, h⟩, rfl⟩ | ⟨r₁, hfail, ⟨⟨⟩, h⟩, rfl⟩)
    · exact (takes_readWord_iff (by decide)).mp h
    · obtain ⟨gap', hgap', hr₁⟩ := (takes_readWord_iff (by decide)).mp h
      obtain ⟨⟨gap, hgap, rfl, -⟩, -⟩ := fails_readWord_iff.mp hfail
      refine ⟨gap ++ gap', isGap_append hgap hgap', ?_⟩
      rw [hr₁, List.append_assoc]
      rfl
  · rintro ⟨gap, hgap, rfl⟩
    cases b with
    | true => exact Or.inl ⟨⟨(), (takes_readWord_iff (by decide)).mpr ⟨gap, hgap, rfl⟩⟩, rfl⟩
    | false =>
      refine Or.inr ⟨boolText false ++ r', fails_readWord_iff.mpr ⟨⟨gap, hgap, rfl, ?_⟩, ?_⟩,
        ⟨(), (takes_readWord_iff (by decide)).mpr ⟨[], nofun, rfl⟩⟩, rfl⟩
      · exact noSpace_cons.mpr (by decide)
      · simp [boolText]

/-- Where no bool is, the reader gets behind the white space. -/
theorem fails_readBool {gap r : List UInt8} (hgap : IsGap gap) (hspace : NoSpace r)
    (hno : ∀ b, ¬boolText b <+: r) : Fails readBool (gap ++ r) r := by
  unfold readBool
  rw [fails_orElse]
  simp only [fails_replace, ascii_words.1, ascii_words.2.1]
  exact ⟨r, fails_readWord_iff.mpr ⟨⟨gap, hgap, rfl, hspace⟩, hno true⟩,
    fails_readWord_iff.mpr ⟨⟨[], nofun, rfl, hspace⟩, hno false⟩⟩

/-! ## Values to skip -/
/-- Behind a number the text does not go on with a digit. -/
def Ends : Scalar → List UInt8 → Prop
  | .number _, r => NoDigit r
  | _, _ => True

theorem fails_readNumber {gap r : List UInt8} (hgap : IsGap gap) (hspace : NoSpace r)
    (hdigit : NoDigit r) : Fails readNumber (gap ++ r) r := by
  have hdigits : Takes (readDigits 0 0) r (0, 0) r :=
    (takes_readDigits_iff (by decide) (by decide)).mpr
      ((digitsRead_of_noDigit hdigit (by decide)).mpr ⟨rfl, rfl, rfl⟩)
  unfold readNumber
  rw [fails_bind]
  refine Or.inr ⟨(), r, takes_skipSpace_iff.mpr ⟨gap, hgap, rfl, hspace⟩, ?_⟩
  rw [fails_bind]
  exact Or.inr ⟨(0, 0), r, hdigits, fails_failure.mpr rfl⟩

/-- A number that is too long leaves a digit. -/
theorem digit_of_fails {result : UInt32} {digits : ℕ} {r r' : List UInt8}
    (h : Fails (readDigits result digits) r r') : ∃ d rest, r' = d :: rest ∧ 48 ≤ d ∧ d ≤ 57 := by
  unfold Fails at h
  fun_induction readDigits result digits r with
  | case1 => cases h
  | case2 result digits c r hc hfull =>
    obtain rfl := (Prod.mk.inj h).2
    exact ⟨c, r, rfl, isDigit_iff.mp hc⟩
  | case3 result digits c r hc hfull ih => exact ih h
  | case4 => cases h

theorem rest_of_fails {r r' : List UInt8} (h : Fails readNumber r r') :
    (∃ gap, IsGap gap ∧ r = gap ++ r') ∨ ∃ d rest, r' = d :: rest ∧ 48 ≤ d ∧ d ≤ 57 := by
  unfold readNumber at h
  rcases fails_bind.mp h with hspace | ⟨⟨⟩, r₁, hspace, hrest⟩
  · cases hspace
  · obtain ⟨gap, hgap, rfl, -⟩ := takes_skipSpace_iff.mp hspace
    rcases fails_bind.mp hrest with hdigits | ⟨⟨n, m⟩, r₂, hdigits, hresult⟩
    · exact Or.inr (digit_of_fails hdigits)
    · dsimp only at hresult
      split_ifs at hresult with hzero
      · obtain rfl := fails_failure.mp hresult
        obtain ⟨ds, rfl, -, hm, -⟩ :=
          (takes_readDigits_iff (by decide) (by decide)).mp hdigits
        obtain rfl : ds = [] := List.length_eq_zero_iff.mp (by omega)
        exact Or.inl ⟨gap, hgap, rfl⟩
      · exact absurd hresult not_fails_pure

/-- A scalar that is not a string. -/
def skipWord : ReadM Unit :=
  (do let _ ← readNumber) <|> (do let _ ← readBool) <|> readWord (ascii "null")

theorem takes_atQuote_iff {r₁ r₂ : List UInt8} {q : Bool} :
    Takes (fun r => (some (r.head? == some quote), r) : ReadM Bool) r₁ q r₂ ↔
      (r₁.head? == some quote) = q ∧ r₁ = r₂ := by
  change ((some (r₁.head? == some quote), r₁) : Option Bool × List UInt8) = (some q, r₂) ↔ _
  rw [Prod.mk.injEq, Option.some.injEq]

/-- Behind the white space the first byte decides. -/
theorem takes_skipValue_eq {r r' : List UInt8} :
    Takes skipValue r () r' ↔ ∃ gap r₁, IsGap gap ∧ r = gap ++ r₁ ∧ NoSpace r₁ ∧
      if r₁.head? = some quote then ∃ text, Takes (readString none) r₁ text r'
      else Takes skipWord r₁ () r' := by
  unfold skipValue
  rw [takes_bind]
  constructor
  · rintro ⟨⟨⟩, r₁, hspace, h⟩
    obtain ⟨gap, hgap, rfl, hnext⟩ := takes_skipSpace_iff.mp hspace
    obtain ⟨q, r₂, hq, h⟩ := takes_bind.mp h
    obtain ⟨rfl, rfl⟩ := takes_atQuote_iff.mp hq
    refine ⟨gap, r₁, hgap, rfl, hnext, ?_⟩
    by_cases hquote : r₁.head? = some quote
    · rw [if_pos (beq_iff_eq.mpr hquote)] at h
      rw [if_pos hquote]
      exact (takes_replace.mp h).1
    · rw [if_neg (fun hc => hquote (beq_iff_eq.mp hc))] at h
      rw [if_neg hquote]
      exact h
  · rintro ⟨gap, r₁, hgap, rfl, hnext, h⟩
    refine ⟨(), r₁, takes_skipSpace_iff.mpr ⟨gap, hgap, rfl, hnext⟩,
      takes_bind.mpr ⟨_, r₁, takes_atQuote_iff.mpr ⟨rfl, rfl⟩, ?_⟩⟩
    by_cases hquote : r₁.head? = some quote
    · rw [if_pos hquote] at h
      rw [if_pos (beq_iff_eq.mpr hquote)]
      exact takes_replace.mpr ⟨h, rfl⟩
    · rw [if_neg hquote] at h
      rw [if_neg (fun hc => hquote (beq_iff_eq.mp hc))]
      exact h

theorem scalar_of_readNumber {n : UInt32} {r r' : List UInt8} (h : Takes readNumber r n r') :
    ∃ gap v val, IsGap gap ∧ r = gap ++ (Scalar.text v ++ r') ∧ v.value = some val ∧ Ends v r' := by
  obtain ⟨gap, ds, hgap, rfl, hshort, -, hend⟩ := takes_readNumber_iff.mp h
  refine ⟨gap, .number (.ofDigits ds), .number (decimal ds), hgap, ?_, if_pos hshort, hend⟩
  rw [Scalar.text, Number.text_ofDigits]

theorem gap_of_fails_readBool {r r' : List UInt8} (h : Fails readBool r r') :
    ∃ gap, IsGap gap ∧ r = gap ++ r' := by
  unfold readBool at h
  obtain ⟨r₁, htrue, hfalse⟩ := fails_orElse.mp h
  obtain ⟨⟨gap, hgap, rfl, -⟩, -⟩ := fails_readWord_iff.mp (fails_replace.mp htrue)
  obtain ⟨⟨gap', hgap', rfl, -⟩, -⟩ := fails_readWord_iff.mp (fails_replace.mp hfalse)
  exact ⟨gap ++ gap', isGap_append hgap hgap', (List.append_assoc ..).symm⟩

/-- A word behind white space is no digit. -/
theorem not_digit_cons {gap word rest r : List UInt8} {b d : UInt8} (hgap : IsGap gap)
    (hb : ¬(48 ≤ b ∧ b ≤ 57)) (h : d :: rest = gap ++ (b :: word ++ r)) : ¬(48 ≤ d ∧ d ≤ 57) := by
  intro hd
  cases gap with
  | nil =>
    obtain ⟨rfl, -⟩ := List.cons.inj h
    exact hb hd
  | cons g gap =>
    obtain ⟨rfl, -⟩ := List.cons.inj h
    have hspace := hgap d List.mem_cons_self
    rw [not_isSpace_of_digit hd] at hspace
    cases hspace

/-- A number that is too long leaves a digit, which no word starts with. -/
theorem word_of_fails_number {r r' r₁ gap word : List UInt8} {b : UInt8}
    (hfail : Fails (do let _ ← readNumber) r r₁) (hgap : IsGap gap) (hb : ¬(48 ≤ b ∧ b ≤ 57))
    (hr₁ : r₁ = gap ++ (b :: word ++ r')) :
    ∃ gap', IsGap gap' ∧ r = gap' ++ (b :: word ++ r') := by
  rcases rest_of_fails (fails_replace.mp hfail) with ⟨gap', hgap', rfl⟩ | ⟨d, rest, rfl, hd⟩
  · exact ⟨gap' ++ gap, isGap_append hgap' hgap, by rw [hr₁, List.append_assoc]⟩
  · exact absurd hd (not_digit_cons hgap hb hr₁)

theorem scalar_of_skipWord {r r' : List UInt8} (h : Takes skipWord r () r') :
    ∃ gap v val, IsGap gap ∧ r = gap ++ (Scalar.text v ++ r') ∧ v.value = some val ∧ Ends v r' := by
  unfold skipWord at h
  rcases takes_orElse.mp h with hnumber | ⟨r₁, hfail, hword⟩
  · obtain ⟨n, hnumber⟩ := (takes_replace.mp hnumber).1
    exact scalar_of_readNumber hnumber
  · rcases takes_orElse.mp hword with hbool | ⟨r₂, hfail₂, hnull⟩
    · obtain ⟨b, hbool⟩ := (takes_replace.mp hbool).1
      obtain ⟨gap, hgap, hr₁⟩ := takes_readBool_iff.mp hbool
      cases b with
      | true =>
        obtain ⟨gap', hgap', rfl⟩ := word_of_fails_number hfail hgap (by decide) hr₁
        exact ⟨gap', .bool true, .bool true, hgap', rfl, rfl, trivial⟩
      | false =>
        obtain ⟨gap', hgap', rfl⟩ := word_of_fails_number hfail hgap (by decide) hr₁
        exact ⟨gap', .bool false, .bool false, hgap', rfl, rfl, trivial⟩
    · rw [ascii_words.2.2] at hnull
      obtain ⟨gap₂, hgap₂, rfl⟩ := (takes_readWord_iff (by decide)).mp hnull
      obtain ⟨gap₁, hgap₁, hr₁⟩ := gap_of_fails_readBool (fails_replace.mp hfail₂)
      rw [← List.append_assoc] at hr₁
      have hgap := isGap_append hgap₁ hgap₂
      obtain ⟨gap', hgap', rfl⟩ := word_of_fails_number hfail hgap (by decide) hr₁
      exact ⟨gap', .null, .null, hgap', rfl, rfl, trivial⟩

theorem takes_skipValue_word {gap word r : List UInt8} {b : UInt8} (hgap : IsGap gap)
    (hspace : isSpace b = false) (hquote : b ≠ quote) (h : Takes skipWord (b :: word ++ r) () r) :
    Takes skipValue (gap ++ (b :: word ++ r)) () r := by
  refine takes_skipValue_eq.mpr ⟨gap, _, hgap, rfl, noSpace_cons.mpr hspace, ?_⟩
  rw [if_neg (by simpa using hquote)]
  exact h

theorem fails_number_word {word r : List UInt8} {b : UInt8} (hspace : isSpace b = false)
    (hb : ¬(48 ≤ b ∧ b ≤ 57)) :
    Fails (do let _ ← readNumber) (b :: word ++ r) (b :: word ++ r) := by
  refine fails_replace.mpr (fails_readNumber isGap_nil (noSpace_cons.mpr hspace) ?_)
  rintro c ⟨⟩
  exact hb

/-- Every scalar of the dialect is skipped. -/
theorem takes_skipValue_of {gap r : List UInt8} {v : Scalar} {val : Value} (hgap : IsGap gap)
    (hval : v.value = some val) (hend : Ends v r) :
    Takes skipValue (gap ++ (v.text ++ r)) () r := by
  cases v with
  | string cs =>
    obtain ⟨bytes, hbytes, -⟩ := Option.map_eq_some_iff.mp hval
    refine takes_skipValue_eq.mpr ⟨gap, _, hgap, rfl, noSpace_cons.mpr (by decide), ?_⟩
    rw [if_pos (show ((Scalar.string cs).text ++ r).head? = some quote from rfl)]
    exact ⟨[0], takes_readString_iff.mpr ⟨[], cs, bytes, nofun, rfl, hbytes, rfl⟩⟩
  | number n =>
    have hshort : n.Short := by
      by_contra hc
      rw [Scalar.value, if_neg hc] at hval
      cases hval
    have hread := takes_shortNumber isGap_nil hshort hend
    obtain ⟨-, -, -, hdigits, hpos, -⟩ := id hshort
    rw [Scalar.text, hshort.eq, Number.text_ofDigits]
    rw [List.nil_append] at hread
    cases hint : n.int with
    | nil => rw [hint] at hpos; cases hpos
    | cons d ds =>
      rw [hint] at hdigits hread
      have hd := hdigits d List.mem_cons_self
      refine takes_skipValue_word hgap (not_isSpace_of_digit hd) ?_ (takes_orElse.mpr (Or.inl
        (takes_replace.mpr ⟨⟨_, hread⟩, rfl⟩)))
      rintro rfl
      exact absurd hd (by decide)
  | bool b =>
    have hbool : Takes (do let _ ← readBool) (boolText b ++ r) () r :=
      takes_replace.mpr ⟨⟨b, takes_readBool_iff.mpr ⟨[], nofun, rfl⟩⟩, rfl⟩
    cases b with
    | true =>
      exact takes_skipValue_word hgap (by decide) (by decide) (takes_orElse.mpr (Or.inr
        ⟨_, fails_number_word (by decide) (by decide), takes_orElse.mpr (Or.inl hbool)⟩))
    | false =>
      exact takes_skipValue_word hgap (by decide) (by decide) (takes_orElse.mpr (Or.inr
        ⟨_, fails_number_word (by decide) (by decide), takes_orElse.mpr (Or.inl hbool)⟩))
  | null =>
    have hnoBool : Fails (do let _ ← readBool) (nullText ++ r) (nullText ++ r) := by
      refine fails_replace.mpr (fails_readBool isGap_nil (noSpace_cons.mpr (by decide)) ?_)
      intro b
      cases b <;> simp [boolText]
    have hnull : Takes (readWord (ascii "null")) (nullText ++ r) () r := by
      rw [ascii_words.2.2]
      exact (takes_readWord_iff (by decide)).mpr ⟨[], nofun, rfl⟩
    exact takes_skipValue_word hgap (by decide) (by decide) (takes_orElse.mpr (Or.inr
      ⟨_, fails_number_word (by decide) (by decide), takes_orElse.mpr (Or.inr ⟨_, hnoBool, hnull⟩)⟩))

theorem takes_skipValue_iff {r r' : List UInt8} :
    Takes skipValue r () r' ↔ ∃ gap v val, IsGap gap ∧ r = gap ++ (Scalar.text v ++ r') ∧
      v.value = some val ∧ Ends v r' := by
  constructor
  · intro h
    obtain ⟨gap, r₁, hgap, rfl, -, h⟩ := takes_skipValue_eq.mp h
    have hscalar : ∃ gap' v val, IsGap gap' ∧ r₁ = gap' ++ (Scalar.text v ++ r') ∧
        v.value = some val ∧ Ends v r' := by
      split_ifs at h with hquote
      · obtain ⟨text, h⟩ := h
        obtain ⟨gap', cs, bytes, hgap', rfl, hbytes, -⟩ := takes_readString_iff.mp h
        exact ⟨gap', .string cs, .string bytes, hgap', rfl,
          Option.map_eq_some_iff.mpr ⟨bytes, hbytes, rfl⟩, trivial⟩
      · exact scalar_of_skipWord h
    obtain ⟨gap', v, val, hgap', rfl, hval, hend⟩ := hscalar
    exact ⟨gap ++ gap', v, val, isGap_append hgap hgap', (List.append_assoc ..).symm, hval, hend⟩
  · rintro ⟨gap, v, val, hgap, rfl, hval, hend⟩
    exact takes_skipValue_of hgap hval hend

end BekenCam.Settings
