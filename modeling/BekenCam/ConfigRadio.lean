import BekenCam.ApModel
import BekenCam.ConfigStorage
import BekenCam.ConfigTokens
import BekenCam.Wpa2Kdf

/-!
# What the radio takes

The settings a text is accepted for have a name and a channel that the access point takes. Their
passphrase need not be one that WPA2 takes: its length is checked, its characters are not. Which
passphrase that is, the tokens of the text say.
-/
namespace BekenCam.Settings

open FlashKv Json JsonSyntax ReadM Ap Wpa2
open Http (ascii)

/-! ## Strings -/

theorem shortEscape_eq {e c : UInt8} (h : shortEscape e = some c) :
    e ≠ letterU ∧ unescape e = c := by
  unfold shortEscape at h
  split_ifs at h with hself hletter
  · obtain rfl := Option.some.inj h
    rcases hself with rfl | rfl | rfl <;> exact ⟨by decide, by decide⟩
  · obtain rfl := Option.some.inj h
    rcases hletter with rfl | rfl | rfl | rfl | rfl <;> exact ⟨by decide, rfl⟩

theorem unicodeByte_eq {h1 h2 h3 h4 c : UInt8} (h : unicodeByte h1 h2 h3 h4 = some c)
    (s : List UInt8) : lex (.hex s 0 0) [h1, h2, h3, h4] = (.text (s ++ [c]), []) := by
  unfold unicodeByte at h
  obtain ⟨d1, hd1, h⟩ := Option.bind_eq_some_iff.mp h
  obtain ⟨d2, hd2, h⟩ := Option.bind_eq_some_iff.mp h
  obtain ⟨d3, hd3, h⟩ := Option.bind_eq_some_iff.mp h
  obtain ⟨d4, hd4, h⟩ := Option.bind_eq_some_iff.mp h
  dsimp only at h
  split_ifs at h with hcode
  obtain rfl := Option.some.inj h
  simp [lex, lexByte, hd1, hd2, hd3, hd4]

/-- One more character, in whatever way it is written. -/
theorem lex_char {ch : StringChar} {b : UInt8} (h : ch.byte = some b) (s : List UInt8) :
    lex (.text s) ch.text = (.text (s ++ [b]), []) := by
  cases ch with
  | plain c =>
    obtain ⟨-, hquote, hback, rfl⟩ := byte_plain_iff.mp h
    simp [StringChar.text, lex, lexByte, hquote, hback]
  | short e =>
    rw [byte_short] at h
    obtain ⟨hletter, rfl⟩ := shortEscape_eq h
    simp [StringChar.text, lex, lexByte, hletter, show backslash ≠ quote by decide]
  | unicode h1 h2 h3 h4 =>
    rw [← unicodeByte_eq_byte] at h
    exact unicodeByte_eq h s

theorem lex_chars {cs : List StringChar} {bytes : List UInt8} (h : stringBytes cs = some bytes)
    (s : List UInt8) : lex (.text s) (charsText cs) = (.text (s ++ bytes), []) := by
  induction cs generalizing s bytes with
  | nil =>
    obtain rfl : bytes = [] := (Option.some.inj h).symm
    rw [List.append_nil]
    rfl
  | cons ch cs ih =>
    obtain ⟨b, rest, hb, hrest, rfl⟩ := stringBytes_cons.mp h
    rw [charsText_cons, lex_append, lex_char hb, ih hrest, List.append_assoc]
    rfl

/-- Of a string that holds `s` so far, the rest has been read: its text is in front of `r'`, and
where it is kept it fits and has no NUL. -/
def StringRead (size : Option ℕ) (s text r r' : List UInt8) : Prop :=
  ∃ front s', r = front ++ r' ∧ lex (.text s) front = (.between, [.string s']) ∧
    ∀ n, size = some n → s.length < n → 0 ∉ s → text = s' ++ [0] ∧ s'.length < n ∧ 0 ∉ s'

theorem readChars_read {size : Option ℕ} {out s text r r' : List UInt8}
    (hout : size ≠ none → out = s) (h : readChars size out r = (some text, r')) :
    StringRead size s text r r' := by
  obtain ⟨cs, bytes, rfl, hbytes, hkept⟩ := takes_readChars h
  refine ⟨charsText cs ++ [quote], s ++ bytes, by simp, ?_, ?_⟩
  · rw [lex_append, lex_chars hbytes]
    rfl
  · rintro n rfl hlen hzero
    obtain ⟨hfit, rfl⟩ := hkept
    obtain rfl := hout nofun
    refine ⟨rfl, ?_, ?_⟩
    · rw [List.length_append]
      rcases hfit with rfl | hfit
      · exact hlen
      · exact hfit
    · rw [List.mem_append]
      exact not_or.mpr ⟨hzero, zero_notMem_stringBytes hbytes⟩

theorem lexes_consume_false {c : UInt8} {r r' : List UInt8} (h : Takes (consume c) r false r') :
    Lexes r r' [] := by
  have hspace := lexes_dropWhile r
  unfold Takes consume at h
  cases hr : r.dropWhile isSpace with
  | nil =>
    rw [hr] at h hspace
    cases h
    exact hspace
  | cons b rest =>
    rw [hr] at h hspace
    by_cases hb : b = c
    · simp only [if_pos hb] at h
      cases h
    · simp only [if_neg hb] at h
      cases h
      exact hspace

theorem takes_consume_true {c : UInt8} {r r' : List UInt8} (h : Takes (consume c) r true r') :
    Lexes r (c :: r') [] := by
  have hspace := lexes_dropWhile r
  unfold Takes consume at h
  cases hr : r.dropWhile isSpace with
  | nil =>
    rw [hr] at h
    cases h
  | cons b rest =>
    rw [hr] at h hspace
    by_cases hb : b = c
    · simp only [if_pos hb] at h
      cases h
      rwa [hb] at hspace
    · simp only [if_neg hb] at h
      cases h

theorem lexes_consume_true {c : UInt8} (hspace : isSpace c = false) (hquote : c ≠ quote)
    {r r' : List UInt8} (h : Takes (consume c) r true r') : Lexes r r' [.byte c] :=
  (takes_consume_true h).trans (lexes_byte hspace hquote)

/-- A string is one token. -/
theorem lexes_readString {size : Option ℕ} {text r r' : List UInt8}
    (h : Takes (readString size) r text r') :
    ∃ s, Lexes r r' [.string s] ∧
      ∀ n, size = some n → 0 < n → text = s ++ [0] ∧ s.length < n ∧ 0 ∉ s := by
  unfold readString at h
  obtain ⟨opened, r₁, hopen, h⟩ := takes_bind.mp h
  split_ifs at h with htrue
  · rw [htrue] at hopen
    obtain ⟨front, s, rfl, hfront, htext⟩ := readChars_read (s := []) (fun _ => rfl) h
    have hchars : Lexes (quote :: (front ++ r')) r' [.string s] := by
      refine ⟨quote :: front, rfl, ?_⟩
      change ((lex (.text []) front).1, [] ++ (lex (.text []) front).2) = _
      rw [hfront]
      rfl
    exact ⟨s, (takes_consume_true hopen).trans hchars,
      fun n hn hpos => htext n hn hpos List.not_mem_nil⟩
  · exact absurd h not_takes_failure

/-! ## Other values -/

/-- No string is in front of `r'`. -/
def Plain (r r' : List UInt8) : Prop :=
  ∃ toks, Lexes r r' toks ∧ ∀ tok ∈ toks, ∃ b, tok = .byte b

instance : Std.Refl Plain := ⟨fun r => ⟨[], Lexes.refl r, nofun⟩⟩

instance : IsTrans (List UInt8) Plain where
  trans _ _ _ h h' := by
    obtain ⟨toks, hlex, hbytes⟩ := h
    obtain ⟨more, hlex', hbytes'⟩ := h'
    exact ⟨toks ++ more, hlex.trans hlex', List.forall_mem_append.mpr ⟨hbytes, hbytes'⟩⟩

theorem plain_byte {b : UInt8} (hspace : isSpace b = false) (hquote : b ≠ quote)
    (r : List UInt8) : Plain (b :: r) r :=
  ⟨[.byte b], lexes_byte hspace hquote, fun _ htok => ⟨b, List.mem_singleton.mp htok⟩⟩

theorem moves_skipSpace : Moves Plain skipSpace := fun r => ⟨[], lexes_dropWhile r, nofun⟩

theorem moves_readDigits (result : UInt32) (digits : ℕ) :
    Moves Plain (readDigits result digits) := by
  intro r
  induction r generalizing result digits with
  | nil => exact Std.Refl.refl []
  | cons c r ih =>
    unfold readDigits
    split_ifs with hdigit hmany
    · exact Std.Refl.refl _
    · have hrange : 0x30 ≤ c ∧ c ≤ 0x39 := of_decide_eq_true hdigit
      have hspace : isSpace c = false := by
        rw [isSpace, decide_eq_false_iff_not]
        rintro (rfl | rfl | rfl | rfl) <;> exact absurd hrange (by decide)
      have hquote : c ≠ quote := by
        rintro rfl
        exact absurd hrange (by decide)
      exact IsTrans.trans _ _ _ (plain_byte hspace hquote r) (ih _ _)
    · exact Std.Refl.refl _

theorem moves_readPrefix {word : List UInt8}
    (hword : (word.all fun b => !isSpace b && b != quote) = true) :
    Moves Plain (readPrefix word) := by
  intro r
  unfold readPrefix
  split_ifs with hprefix
  · obtain ⟨rest, rfl⟩ := List.isPrefixOf_iff_prefix.mp hprefix
    rw [List.drop_left]
    clear hprefix
    induction word with
    | nil => exact Std.Refl.refl rest
    | cons b word ih =>
      rw [List.all_cons, Bool.and_eq_true, Bool.and_eq_true, Bool.not_eq_true', bne_iff_ne] at hword
      exact IsTrans.trans _ _ _ (plain_byte hword.1.1 hword.1.2 _) (ih hword.2)
  · exact Std.Refl.refl r

theorem moves_readNumber : Moves Plain readNumber := by
  refine moves_skipSpace.bind fun _ => (moves_readDigits 0 0).bind fun (result, digits) => ?_
  dsimp only
  split_ifs
  · exact Moves.failure
  · exact Moves.pure result

theorem moves_readWord {word : List UInt8}
    (hword : (word.all fun b => !isSpace b && b != quote) = true) :
    Moves Plain (readWord word) :=
  moves_skipSpace.bind fun _ => moves_readPrefix hword

theorem moves_readBool : Moves Plain readBool :=
  ((moves_readWord (by decide)).bind fun _ => Moves.pure true).orElse
    ((moves_readWord (by decide)).bind fun _ => Moves.pure false)

theorem Plain.isValue {r r' : List UInt8} (h : Plain r r') :
    ∃ toks, Lexes r r' toks ∧ IsValue toks ∧ stringOf toks = none := by
  obtain ⟨toks, hlex, hbytes⟩ := h
  exact ⟨toks, hlex, .inr hbytes, stringOf_bytes hbytes⟩

theorem lexes_skipSpace {r r' : List UInt8} (h : Takes skipSpace r () r') : Lexes r r' [] := by
  obtain ⟨-, rfl⟩ := (show Takes skipSpace r () (r.dropWhile isSpace) from rfl).unique h
  exact lexes_dropWhile r

theorem value_skipValue {r r' : List UInt8} (h : Takes skipValue r () r') :
    ∃ toks, Lexes r r' toks ∧ IsValue toks := by
  unfold skipValue at h
  obtain ⟨_, r₁, hspace, h⟩ := takes_bind.mp h
  have hfront := lexes_skipSpace hspace
  obtain ⟨quoted, r₂, hquoted, h⟩ := takes_bind.mp h
  obtain rfl : r₁ = r₂ := congrArg Prod.snd hquoted
  split_ifs at h
  · obtain ⟨text, r₃, hstring, hpure⟩ := takes_bind.mp h
    obtain ⟨-, rfl⟩ := takes_pure.mp hpure
    obtain ⟨s, hlex, -⟩ := lexes_readString hstring
    exact ⟨_, hfront.trans hlex, .inl ⟨s, rfl⟩⟩
  · have hmoves : Moves Plain
        ((do let _ ← readNumber) <|> (do let _ ← readBool) <|> readWord (ascii "null")) :=
      (moves_readNumber.bind fun _ => Moves.pure ()).orElse
        ((moves_readBool.bind fun _ => Moves.pure ()).orElse (moves_readWord (by decide)))
    obtain ⟨toks, hlex, hvalue, -⟩ := (hmoves.takes h).isValue
    exact ⟨_, hfront.trans hlex, hvalue⟩

/-! ## Fields -/

/-- The value of the member `key` has been read: what it does to the station's fields. -/
structure FieldRead (key : List UInt8) (toks : List Token) (config next : Config) : Prop where
  value : IsValue toks
  terminated : config.Terminated → next.Terminated
  staSsid : cString next.staSsid =
    (if key = ascii "sta_ssid" then stringOf toks else none).getD (cString config.staSsid)
  staPassword : cString next.staPassword =
    (if key = ascii "sta_password" then stringOf toks else none).getD (cString config.staPassword)

/-- A string written to the front of its array. -/
theorem cString_write {s : List UInt8} (hne : (0 : UInt8) ∉ s) (arr : List UInt8) :
    cString (writeAt arr 0 (s ++ [0])) = s := by
  rw [writeAt, List.take_zero, List.nil_append, List.append_assoc]
  exact cString_append_zero hne _

theorem write_terminated {s arr : List UInt8} {n : ℕ} (hfits : s.length < n) (harr : arr.length = n) :
    (writeAt arr 0 (s ++ [0])).length = n ∧ (0 : UInt8) ∈ writeAt arr 0 (s ++ [0]) := by
  refine ⟨?_, ?_⟩
  · rw [length_writeAt_of_le, harr]
    rw [List.length_append, List.length_singleton]
    omega
  · simp [writeAt]

theorem length_readMac {mac r r' : List UInt8} (h : Takes readMac r mac r') :
    mac.length = 6 ∧ ∃ s, Lexes r r' [.string s] := by
  unfold readMac at h
  obtain ⟨text, r₁, hstring, h⟩ := takes_bind.mp h
  obtain ⟨s, hlex, -⟩ := lexes_readString hstring
  split_ifs at h
  · exact absurd h not_takes_failure
  · cases hmac : (List.range 6).mapM (macByte text) with
    | none =>
      rw [hmac] at h
      exact absurd h not_takes_failure
    | some bytes =>
      rw [hmac] at h
      obtain ⟨rfl, rfl⟩ := takes_pure.mp h
      exact ⟨length_mapM hmac, s, hlex⟩

/-- A field that is not one of the station's strings. -/
theorem FieldRead.other {key : List UInt8} {toks : List Token} {config next : Config}
    (hvalue : IsValue toks) (hkey : stringOf toks = none ∨
      (key ≠ ascii "sta_ssid" ∧ key ≠ ascii "sta_password"))
    (hmac : config.mac.length = 6 → next.mac.length = 6)
    (hap : config.apSsid.length = configSsidMax + 1 ∧ 0 ∈ config.apSsid →
      next.apSsid.length = configSsidMax + 1 ∧ 0 ∈ next.apSsid)
    (hsta : next.staSsid = config.staSsid) (hpass : next.staPassword = config.staPassword) :
    FieldRead key toks config next where
  value := hvalue
  terminated ht := by
    obtain ⟨hsize, hzero⟩ := hap ⟨ht.apSsid_size, ht.apSsid_terminated⟩
    exact ⟨hmac ht.mac_size, hsize, hzero, hsta ▸ ht.staSsid_size, hsta ▸ ht.staSsid_terminated,
      hpass ▸ ht.staPassword_size, hpass ▸ ht.staPassword_terminated⟩
  staSsid := by
    have hnone : (if key = ascii "sta_ssid" then stringOf toks else none) = none := by
      rcases hkey with h | h
      · rw [h, ite_self]
      · rw [if_neg h.1]
    rw [hnone, hsta]
    rfl
  staPassword := by
    have hnone : (if key = ascii "sta_password" then stringOf toks else none) = none := by
      rcases hkey with h | h
      · rw [h, ite_self]
      · rw [if_neg h.2]
    rw [hnone, hpass]
    rfl

theorem fieldRead_bool {key : List UInt8} {config next : Config} {r r' : List UInt8}
    {put : Bool → Config} (h : Takes (readBool >>= fun on => return put on) r next r')
    (hput : ∀ on, (put on).mac = config.mac ∧ (put on).apSsid = config.apSsid ∧
      (put on).staSsid = config.staSsid ∧ (put on).staPassword = config.staPassword) :
    ∃ toks, Lexes r r' toks ∧ FieldRead key toks config next := by
  obtain ⟨on, hread, rfl⟩ := takes_map.mp h
  obtain ⟨toks, hlex, hvalue, hnone⟩ := (moves_readBool.takes hread).isValue
  obtain ⟨hmac, hap, hsta, hpass⟩ := hput on
  exact ⟨toks, hlex, .other hvalue (.inl hnone) (fun h => hmac ▸ h) (fun h => hap ▸ h) hsta hpass⟩

/-- One case for each key. -/
theorem fieldRead {key : List UInt8} {config next : Config} {r r' : List UInt8}
    (h : Takes (readField key config) r next r') :
    ∃ toks, Lexes r r' toks ∧ FieldRead key toks config next := by
  unfold readField at h
  rcases takes_ite.mp h with ⟨hmac, h⟩ | ⟨-, h⟩
  · obtain ⟨mac, hread, rfl⟩ := takes_map.mp h
    obtain ⟨hlen, s, hlex⟩ := length_readMac hread
    exact ⟨_, hlex, .other (.inl ⟨s, rfl⟩) (.inr (by rw [hmac]; decide)) (fun _ => hlen) id rfl rfl⟩
  rcases takes_ite.mp h with ⟨hap, h⟩ | ⟨-, h⟩
  · obtain ⟨text, hread, rfl⟩ := takes_map.mp h
    obtain ⟨s, hlex, htext⟩ := lexes_readString hread
    obtain ⟨rfl, hfits, -⟩ := htext _ rfl (by decide)
    exact ⟨_, hlex, .other (.inl ⟨s, rfl⟩) (.inr (by rw [hap]; decide)) id
      (fun harr => write_terminated hfits harr.1) rfl rfl⟩
  rcases takes_ite.mp h with ⟨-, h⟩ | ⟨-, h⟩
  · obtain ⟨channel, r₁, hread, h⟩ := takes_bind.mp h
    obtain ⟨toks, hlex, hvalue, hnone⟩ := (moves_readNumber.takes hread).isValue
    split_ifs at h
    · exact absurd h not_takes_failure
    · obtain ⟨rfl, rfl⟩ := takes_pure.mp h
      exact ⟨toks, hlex, .other hvalue (.inl hnone) id id rfl rfl⟩
  rcases takes_ite.mp h with ⟨-, h⟩ | ⟨-, h⟩
  · exact fieldRead_bool h fun _ => ⟨rfl, rfl, rfl, rfl⟩
  rcases takes_ite.mp h with ⟨hsta, h⟩ | ⟨hsta, h⟩
  · obtain ⟨text, hread, rfl⟩ := takes_map.mp h
    obtain ⟨s, hlex, htext⟩ := lexes_readString hread
    obtain ⟨rfl, hfits, hne⟩ := htext _ rfl (by decide)
    refine ⟨_, hlex, .inl ⟨s, rfl⟩, fun ht => ?_, ?_, ?_⟩
    · obtain ⟨hsize, hzero⟩ := write_terminated hfits ht.staSsid_size
      exact ⟨ht.mac_size, ht.apSsid_size, ht.apSsid_terminated, hsize, hzero, ht.staPassword_size,
        ht.staPassword_terminated⟩
    · rw [if_pos hsta]
      exact cString_write hne _
    · rw [if_neg (by rw [hsta]; decide)]
      rfl
  rcases takes_ite.mp h with ⟨hpass, h⟩ | ⟨hpass, h⟩
  · obtain ⟨text, hread, rfl⟩ := takes_map.mp h
    obtain ⟨s, hlex, htext⟩ := lexes_readString hread
    obtain ⟨rfl, hfits, hne⟩ := htext _ rfl (by decide)
    refine ⟨_, hlex, .inl ⟨s, rfl⟩, fun ht => ?_, ?_, ?_⟩
    · obtain ⟨hsize, hzero⟩ := write_terminated hfits ht.staPassword_size
      exact ⟨ht.mac_size, ht.apSsid_size, ht.apSsid_terminated, ht.staSsid_size,
        ht.staSsid_terminated, hsize, hzero⟩
    · rw [if_neg hsta]
      rfl
    · rw [if_pos hpass]
      exact cString_write hne _
  rcases takes_ite.mp h with ⟨-, h⟩ | ⟨-, h⟩
  · exact fieldRead_bool h fun _ => ⟨rfl, rfl, rfl, rfl⟩
  rcases takes_ite.mp h with ⟨-, h⟩ | ⟨-, h⟩
  · exact fieldRead_bool h fun _ => ⟨rfl, rfl, rfl, rfl⟩
  rcases takes_ite.mp h with ⟨-, h⟩ | ⟨-, h⟩
  · exact fieldRead_bool h fun _ => ⟨rfl, rfl, rfl, rfl⟩
  obtain ⟨_, hread, rfl⟩ := takes_map.mp h
  obtain ⟨toks, hlex, hvalue⟩ := value_skipValue hread
  exact ⟨toks, hlex, .other hvalue (.inr ⟨hsta, hpass⟩) id id rfl rfl⟩

/-! ## The whole text -/

/-- A member is a name, a colon and the value. -/
theorem memberRead {config next : Config} {r r' : List UInt8}
    (h : Takes (readMember config) r next r') :
    ∃ key toks, Lexes r r' (.string key :: .byte colon :: toks) ∧
      FieldRead key toks config next := by
  unfold readMember at h
  obtain ⟨text, r₁, hkey, h⟩ := takes_bind.mp h
  obtain ⟨key, hlexKey, htext⟩ := lexes_readString hkey
  obtain ⟨rfl, -, hne⟩ := htext _ rfl (by decide)
  obtain ⟨found, r₂, hcolon, h⟩ := takes_bind.mp h
  split_ifs at h with htrue
  · rw [htrue] at hcolon
    rw [cString_append_zero hne] at h
    obtain ⟨toks, hlex, hfield⟩ := fieldRead h
    exact ⟨key, toks, (hlexKey.trans (lexes_consume_true (by decide) (by decide) hcolon)).trans hlex,
      hfield⟩
  · exact absurd h not_takes_failure

/-- The fuel never runs out: a member is not empty. -/
theorem readMembers_fuel {fuel : ℕ} {config : Config} {r : List UInt8} (h : r.length < fuel) :
    readMembers (fuel + 1) config r = readMembers fuel config r := by
  induction fuel generalizing config r with
  | zero => exact absurd h (Nat.not_lt_zero _)
  | succ fuel ih =>
    refine ReadM.bind_congr fun next r₁ hmember => ReadM.bind_congr fun found r₂ hcomma => ?_
    cases found with
    | false => rfl
    | true =>
      obtain ⟨key, toks, hlex, -⟩ := memberRead hmember
      have hlt := (hlex.trans (lexes_consume_true (by decide) (by decide) hcomma)).length_lt nofun
      exact ih (by omega)

/-- What the members that were read say, in front of the byte that ends them. -/
structure TextRead (toks : List Token) (config next : Config) : Prop where
  terminated : config.Terminated → next.Terminated
  staSsid : ∀ b, cString next.staSsid =
    (lastString (ascii "sta_ssid") (toks ++ [.byte b])).getD (cString config.staSsid)
  staPassword : ∀ b, cString next.staPassword =
    (lastString (ascii "sta_password") (toks ++ [.byte b])).getD (cString config.staPassword)

theorem TextRead.last {key : List UInt8} {toks : List Token} {config next : Config}
    (h : FieldRead key toks config next) :
    TextRead (.string key :: .byte colon :: toks) config next where
  terminated := h.terminated
  staSsid b := by
    rw [h.staSsid]
    exact congrArg (Option.getD · _) (lastString_member _ key h.value b []).symm
  staPassword b := by
    rw [h.staPassword]
    exact congrArg (Option.getD · _) (lastString_member _ key h.value b []).symm

theorem TextRead.cons {key : List UInt8} {toks more : List Token} {config config' next : Config}
    (h : FieldRead key toks config config') (hrest : TextRead more config' next) :
    TextRead (.string key :: .byte colon :: (toks ++ .byte comma :: more)) config next where
  terminated ht := hrest.terminated (h.terminated ht)
  staSsid b := by
    rw [hrest.staSsid b, h.staSsid, List.cons_append, List.cons_append, List.append_assoc,
      List.cons_append, lastString_member _ key h.value comma, Option.getD_or]
  staPassword b := by
    rw [hrest.staPassword b, h.staPassword, List.cons_append, List.cons_append, List.append_assoc,
      List.cons_append, lastString_member _ key h.value comma, Option.getD_or]

theorem textRead {fuel : ℕ} {config next : Config} {r r' : List UInt8}
    (h : Takes (readMembers fuel config) r next r') :
    ∃ toks, Lexes r r' toks ∧ TextRead toks config next := by
  induction fuel generalizing config r with
  | zero => exact absurd h not_takes_failure
  | succ fuel ih =>
    obtain ⟨config', r₁, hmember, h⟩ := takes_bind.mp h
    obtain ⟨key, toks, hlex, hfield⟩ := memberRead hmember
    obtain ⟨found, r₂, hcomma, h⟩ := takes_bind.mp h
    cases found with
    | false =>
      obtain ⟨rfl, rfl⟩ := takes_pure.mp h
      have hall := hlex.trans (lexes_consume_false hcomma)
      rw [List.append_nil] at hall
      exact ⟨_, hall, .last hfield⟩
    | true =>
      obtain ⟨more, hmore, hrest⟩ := ih h
      have hcommaLex := lexes_consume_true (by decide) (by decide) hcomma
      have hall := (hlex.trans hcommaLex).trans hmore
      refine ⟨_, ?_, .cons hfield hrest⟩
      simpa only [List.cons_append, List.append_assoc, List.nil_append] using hall

/-- The station's name and passphrase that a text asks for, over those there were. -/
def staSsidAfter (json : List UInt8) (config : Config) : List UInt8 :=
  (lastString (ascii "sta_ssid") (tokens json)).getD (cString config.staSsid)

def staPasswordAfter (json : List UInt8) (config : Config) : List UInt8 :=
  (lastString (ascii "sta_password") (tokens json)).getD (cString config.staPassword)

theorem objectRead {fuel : ℕ} {json : List UInt8} {config next : Config}
    (h : Takes (readObject fuel config) json next []) :
    (config.Terminated → next.Terminated) ∧ cString next.staSsid = staSsidAfter json config ∧
      cString next.staPassword = staPasswordAfter json config := by
  unfold readObject at h
  obtain ⟨opened, r₁, hopen, h⟩ := takes_bind.mp h
  split_ifs at h with htrue
  · rw [htrue] at hopen
    have hopenLex := lexes_consume_true (by decide) (by decide) hopen
    obtain ⟨closed, r₂, hclose, h⟩ := takes_bind.mp h
    cases closed with
    | true =>
      obtain ⟨_, r₃, hend, h⟩ := takes_bind.mp h
      obtain ⟨rfl, rfl⟩ := takes_pure.mp h
      have hcloseLex := lexes_consume_true (by decide) (by decide) hclose
      have htokens := ((hopenLex.trans hcloseLex).trans (lexes_skipSpace hend)).tokens
      unfold staSsidAfter staPasswordAfter
      rw [htokens]
      exact ⟨id, rfl, rfl⟩
    | false =>
      obtain ⟨next', r₃, hmembers, h⟩ := takes_bind.mp h
      obtain ⟨toks, hlex, hread⟩ := textRead hmembers
      obtain ⟨closed, r₄, hclose', h⟩ := takes_bind.mp h
      cases closed with
      | false => exact absurd h not_takes_failure
      | true =>
        obtain ⟨_, r₅, hend, h⟩ := takes_bind.mp h
        obtain ⟨rfl, rfl⟩ := takes_pure.mp h
        have hcloseLex := lexes_consume_true (by decide) (by decide) hclose'
        have htokens := ((((hopenLex.trans (lexes_consume_false hclose)).trans hlex).trans
          hcloseLex).trans (lexes_skipSpace hend)).tokens
        rw [List.append_nil, List.append_nil, List.append_assoc] at htokens
        unfold staSsidAfter staPasswordAfter
        rw [htokens]
        exact ⟨hread.terminated, hread.staSsid _, hread.staPassword _⟩
  · exact absurd h not_takes_failure

/-! ## The radio -/

/-- The checks of `wifi_ap_start` let the settings pass, and a station that has a name and a
passphrase gets its key. -/
def RadioTakes (config : Config) : Prop :=
  (∃ k, wifiApStart ⟨cString config.apSsid, config.apChannel⟩ = readRunning >>= k) ∧
    (cString config.staSsid ≠ [] → cString config.staPassword ≠ [] →
      (wpa2Pmk (cString config.staPassword) (cString config.staSsid)).isSome)

/-- The passphrase is one of WPA2: its characters are printable ASCII. -/
def PrintablePassword (json : List UInt8) (config : Config) : Prop :=
  staSsidAfter json config ≠ [] → ∀ b ∈ staPasswordAfter json config, 32 ≤ b ∧ b ≤ 126

theorem wifiApStart_checked {ssid : List UInt8} {channel : UInt8}
    (hssid : 0 < ssid.length ∧ ssid.length ≤ 32) (hchannel : 1 ≤ channel ∧ channel ≤ 14) :
    ∃ k, wifiApStart ⟨ssid, channel⟩ = readRunning >>= k := by
  have hname : ¬(ssid.length = 0 ∨ ssid.length > apSsidMax) := by
    rw [apSsidMax]
    omega
  have hrange : ¬(channel < 1 ∨ channel > 14) :=
    not_or.mpr ⟨UInt8.not_lt.mpr hchannel.1, UInt8.not_lt.mpr hchannel.2⟩
  unfold wifiApStart
  rw [dif_neg hname, if_neg hrange]
  exact ⟨_, rfl⟩

/-- Settings that were accepted fail at the radio for the characters of the passphrase only. -/
theorem config_from_json_radio_iff {json : List UInt8} {config next : Config}
    (hconfig : config.Terminated) (haccepted : configFromJson json config = some next) :
    RadioTakes next ↔ PrintablePassword json config := by
  obtain ⟨hobject, hvalid⟩ := configFromJson_eq_some.mp haccepted
  obtain ⟨hnext, hssid, hpassword⟩ := objectRead hobject
  obtain ⟨-, hname, hchannel, hlen⟩ := isValid_iff.mp hvalid
  have ht := hnext hconfig
  have hap := length_cString_lt ht.apSsid_terminated
  have hsta := length_cString_lt ht.staSsid_terminated
  have hpass := length_cString_lt ht.staPassword_terminated
  rw [ht.apSsid_size, configSsidMax] at hap
  rw [ht.staSsid_size, configSsidMax] at hsta
  rw [ht.staPassword_size, configPasswordMax] at hpass
  have hstart : ∃ k, wifiApStart ⟨cString next.apSsid, next.apChannel⟩ = readRunning >>= k := by
    refine wifiApStart_checked ⟨List.length_pos_iff.mpr ?_, by omega⟩ hchannel
    rwa [ne_eq, ← headD_eq_zero_iff]
  unfold RadioTakes PrintablePassword
  rw [wpa2Pmk_isSome_iff, ← hssid, ← hpassword]
  constructor
  · rintro ⟨-, hkey⟩ hnamed b hb
    exact (hkey hnamed (List.ne_nil_of_mem hb)).2.2 b hb
  · intro hprintable
    refine ⟨hstart, fun hnamed hsecret => ?_⟩
    have hnamed' := List.length_pos_iff.mpr hnamed
    have hsecret' := List.length_pos_iff.mpr hsecret
    exact ⟨⟨by omega, by omega⟩, ⟨by omega, by omega⟩, hprintable hnamed⟩

def networkText (password : String) : List UInt8 :=
  ascii ("\x7b\"mac\": \"c8:47:8c:01:02:04\", \"ap_ssid\": \"cam\", \"sta_ssid\": \"home\", " ++
    "\"sta_password\": \"" ++ password ++ "\"\x7d")

theorem config_from_json_radio_iff_printable :
    ∃ next, configFromJson (networkText "password") kDefaults = some next ∧
      (RadioTakes next ↔ PrintablePassword (networkText "password") kDefaults) := by
  have hsome : (configFromJson (networkText "password") kDefaults).isSome = true := by
    decide +kernel
  obtain ⟨next, hnext⟩ := Option.isSome_iff_exists.mp hsome
  exact ⟨next, hnext, config_from_json_radio_iff
    ⟨by decide, by decide, by decide, by decide, by decide, by decide, by decide⟩ hnext⟩

/-- A control character is taken from the text, and refused when the key is made. -/
theorem config_from_json_radio_refuses :
    kDefaults.Terminated ∧
      ∃ next, configFromJson (networkText "pass\\u0001word") kDefaults = some next ∧
        ¬RadioTakes next := by
  have hsome : (configFromJson (networkText "pass\\u0001word") kDefaults).isSome = true ∧
      ∀ next ∈ configFromJson (networkText "pass\\u0001word") kDefaults,
        cString next.staSsid ≠ [] ∧ cString next.staPassword ≠ [] ∧
          wpa2Pmk (cString next.staPassword) (cString next.staSsid) = none := by
    decide +kernel
  obtain ⟨next, hnext⟩ := Option.isSome_iff_exists.mp hsome.1
  obtain ⟨hnamed, hsecret, hnone⟩ := hsome.2 next hnext
  refine ⟨⟨by decide, by decide, by decide, by decide, by decide, by decide, by decide⟩, next, hnext,
    fun htakes => ?_⟩
  have hkey := htakes.2 hnamed hsecret
  rw [hnone] at hkey
  cases hkey

end BekenCam.Settings
