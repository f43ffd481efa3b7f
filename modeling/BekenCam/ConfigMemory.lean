import BekenCam.ConfigTokens
import BekenCam.CursorReader

/-!
# Reading settings from memory

The reader of `config_json.cpp` with its two pointers: the body has no terminator, so every `*r.p`
needs its own test against `r.end`. It mirrors the reader of texts, and never looks behind the body.
-/
namespace BekenCam.Settings.Memory

open Json JsonSyntax CursorM
open Http (ascii)

/-! ## The reader -/

/-- The turns of a loop are as many as there are bytes left. -/
def skipSpaceLoop : ℕ → CursorM Unit
  | 0 => return ()
  | n + 1 => do
    if ← atEnd then return ()
    else if isSpace (← peek) then do
      advance 1
      skipSpaceLoop n
    else return ()

def skipSpace : CursorM Unit := do skipSpaceLoop (← left)

def consume (c : UInt8) : CursorM Bool := do
  skipSpace
  if ← atEnd then return false
  else if (← peek) = c then do
    advance 1
    return true
  else return false

/-- `for (int i = 0; i < 4; i++)` over the digits of `\u`. -/
def hexDigits : ℕ → ℕ → CursorM ℕ
  | 0, code => return code
  | n + 1, code => do
    match hexValue (← next) with
    | none => failure
    | some digit => hexDigits n (code * 16 + digit.toNat)

/-- Behind a backslash. -/
def readEscape : CursorM UInt8 := do
  if ← atEnd then failure
  else do
    let c ← next
    if c = letterU then
      if (← left) < 4 then failure
      else do
        let code ← hexDigits 4 0
        if code = 0 ∨ code ≥ 0x80 then failure else return UInt8.ofNat code
    else
      match shortEscape c with
      | some c => return c
      | none => failure

/-- One turn more than there are bytes: the last one finds the end. -/
def readChars (size : Option ℕ) : ℕ → List UInt8 → CursorM (List UInt8)
  | 0, _ => failure
  | n + 1, out => do
    if ← atEnd then failure
    else do
      let c ← next
      if c = quote then return out ++ [0]
      else if c < 0x20 then failure
      else do
        let c ← if c = backslash then readEscape else pure c
        match keepChar size out c with
        | some out => readChars size n out
        | none => failure

def readString (size : Option ℕ) : CursorM (List UInt8) := do
  if ← consume quote then readChars size ((← left) + 1) [] else failure

def readDigits : ℕ → UInt32 → ℕ → CursorM (UInt32 × ℕ)
  | 0, result, digits => return (result, digits)
  | n + 1, result, digits => do
    if ← atEnd then return (result, digits)
    else if isDigit (← peek) then
      if digits + 1 > 9 then failure
      else do
        let c ← next
        readDigits n (result * 10 + (c - 0x30).toUInt32) (digits + 1)
    else return (result, digits)

def readNumber : CursorM UInt32 := do
  skipSpace
  let (result, digits) ← do readDigits (← left) 0 0
  if digits = 0 then failure else return result

def readPrefix (word : List UInt8) : CursorM Unit := do
  if (← left) < word.length then failure
  else if ← same word then advance word.length
  else failure

def readWord (word : List UInt8) : CursorM Unit := do
  skipSpace
  readPrefix word

def readBool : CursorM Bool :=
  (do readWord (ascii "true"); return true) <|> (do readWord (ascii "false"); return false)

def readMac : CursorM (List UInt8) := do
  let text ← readString (some 18)
  if (FlashKv.cString text).length ≠ 17 then failure
  else
    match (List.range 6).mapM (macByte text) with
    | some mac => return mac
    | none => failure

/-- `r.p < r.end && *r.p == '"'`. -/
def atQuote : CursorM Bool := do
  if ← atEnd then return false else return (← peek) == quote

def skipValue : CursorM Unit := do
  skipSpace
  if ← atQuote then do
    let _ ← readString none
  else
    (do let _ ← readNumber) <|> (do let _ ← readBool) <|> readWord (ascii "null")

def readField (key : List UInt8) (config : Config) : CursorM Config :=
  if key = ascii "mac" then do
    return { config with mac := ← readMac }
  else if key = ascii "ap_ssid" then do
    let text ← readString (some (configSsidMax + 1))
    return { config with apSsid := writeAt config.apSsid 0 text }
  else if key = ascii "ap_channel" then do
    let channel ← readNumber
    if channel > 255 then failure else return { config with apChannel := channel.toUInt8 }
  else if key = ascii "ap_enabled" then do
    return { config with apEnabled := ← readBool }
  else if key = ascii "sta_ssid" then do
    let text ← readString (some (configSsidMax + 1))
    return { config with staSsid := writeAt config.staSsid 0 text }
  else if key = ascii "sta_password" then do
    let text ← readString (some (configPasswordMax + 1))
    return { config with staPassword := writeAt config.staPassword 0 text }
  else if key = ascii "sta_enabled" then do
    return { config with staEnabled := ← readBool }
  else if key = ascii "led_enabled" then do
    return { config with ledEnabled := ← readBool }
  else if key = ascii "telnet_enabled" then do
    return { config with telnetEnabled := ← readBool }
  else do
    skipValue
    return config

def readMember (config : Config) : CursorM Config := do
  let key ← readString (some 24)
  if ← consume colon then readField (FlashKv.cString key) config else failure

/-- The fuel is for the members; each takes at least one byte. -/
def readMembers : ℕ → Config → CursorM Config
  | 0, _ => failure
  | fuel + 1, config => do
    let config ← readMember config
    if ← consume comma then readMembers fuel config else return config

def readObject (fuel : ℕ) (config : Config) : CursorM Config := do
  if ← consume openBrace then
    if ← consume closeBrace then
      skipSpace
      return config
    else
      let next ← readMembers fuel config
      if ← consume closeBrace then
        skipSpace
        return next
      else failure
  else failure

/-- What `config_from_json` returns and leaves in `config`, and the offsets it has looked at. -/
def configFromJson (mem : ℕ → UInt8) (length : ℕ) (config : Config) : Bool × Config × List ℕ :=
  match readObject length config mem length ⟨0, []⟩ with
  | (some next, r) =>
    if r.p ≠ length ∨ !isValid next then (false, config, r.looked) else (true, next, r.looked)
  | (none, r) => (false, config, r.looked)

/-! ## White space -/

variable {mem : ℕ → UInt8} {stop : ℕ} {c : Cursor} {exact : Prop}

theorem inside_step (hc : Inside stop c) (h : c.p < stop) {k : ℕ} (hk : k ≤ stop - c.p) :
    Inside stop ⟨c.p + k, c.p :: c.looked⟩ :=
  ⟨by dsimp only; omega, List.forall_mem_cons.mpr ⟨h, hc.looked⟩⟩

variable (mem) in
theorem skipSpaceLoop_run (n : ℕ) (hn : stop - c.p ≤ n) (hc : Inside stop c) :
    ∃ c', skipSpaceLoop n mem stop c = (some (), c') ∧ Inside stop c' ∧
      (text mem stop c.p).dropWhile isSpace = text mem stop c'.p := by
  induction n generalizing c with
  | zero =>
    refine ⟨c, rfl, hc, ?_⟩
    rw [text_of_le mem (by omega)]
    rfl
  | succ n ih =>
    rw [skipSpaceLoop, atEnd_bind]
    by_cases hend : stop ≤ c.p
    · refine ⟨c, by rw [if_pos (decide_eq_true hend)]; rfl, hc, ?_⟩
      rw [text_of_le mem hend]
      rfl
    · have hlt : c.p < stop := by omega
      rw [if_neg (by simpa using hlt), peek_bind, text_of_lt mem hlt, List.dropWhile_cons]
      have hstep := inside_step hc hlt (k := 0) (by omega)
      by_cases hspace : isSpace (mem c.p) = true
      · rw [if_pos hspace, if_pos hspace, advance_bind]
        exact ih (by dsimp only; omega) (inside_step hc hlt (k := 1) (by omega))
      · rw [if_neg hspace, if_neg hspace]
        exact ⟨_, rfl, hstep, (text_of_lt mem hlt).symm⟩

theorem mirrors_skipSpace : Mirrors exact skipSpace Settings.skipSpace := by
  intro mem stop c hc
  obtain ⟨c', hrun, hin, hdrop⟩ := skipSpaceLoop_run mem (stop - c.p) le_rfl hc
  exact .of_run hrun rfl hin hdrop

theorem mirrors_consume (b : UInt8) : Mirrors exact (consume b) (Settings.consume b) := by
  intro mem stop c hc
  obtain ⟨c', hrun, hin, hdrop⟩ := skipSpaceLoop_run mem (stop - c.p) le_rfl hc
  have hskip : skipSpace mem stop c = (some (), c') := hrun
  have hm := bind_of_some hskip fun _ => do
    if ← atEnd then return false
    else if (← peek) = b then do
      advance 1
      return true
    else return false
  rw [atEnd_bind] at hm
  by_cases hend : stop ≤ c'.p
  · have hn : Settings.consume b (text mem stop c.p) = (some false, []) := by
      unfold Settings.consume
      rw [hdrop, text_of_le mem hend]
    rw [if_pos (decide_eq_true hend)] at hm
    exact .of_run hm hn hin (text_of_le mem hend).symm
  · have hlt : c'.p < stop := by omega
    have hn : Settings.consume b (text mem stop c.p) = if mem c'.p = b then
        (some true, text mem stop (c'.p + 1))
        else (some false, mem c'.p :: text mem stop (c'.p + 1)) := by
      unfold Settings.consume
      rw [hdrop, text_of_lt mem hlt]
    rw [if_neg (by simpa using hlt), peek_bind] at hm
    by_cases hb : mem c'.p = b
    · rw [if_pos hb, advance_bind] at hm
      exact .of_run hm (hn.trans (if_pos hb)) (inside_step hin hlt (k := 1) (by omega)) rfl
    · rw [if_neg hb] at hm
      exact .of_run hm (hn.trans (if_neg hb)) (inside_step hin hlt (k := 0) (by omega))
        (text_of_lt mem hlt).symm

/-! ## Numbers and words -/

theorem readDigits_follows (n : ℕ) (result : UInt32) (digits : ℕ) (hn : stop - c.p ≤ n)
    (hc : Inside stop c) :
    MirrorsAt exact (readDigits n result digits) (Settings.readDigits result digits) mem stop c := by
  induction n generalizing c result digits with
  | zero =>
    have htext := text_of_le mem (show stop ≤ c.p by omega)
    refine .of_run rfl (r := []) ?_ hc htext.symm
    rw [htext]
    rfl
  | succ n ih =>
    by_cases hend : stop ≤ c.p
    · have htext := text_of_le mem hend
      have hrun : readDigits (n + 1) result digits mem stop c = (some (result, digits), c) := by
        rw [readDigits, atEnd_bind, if_pos (decide_eq_true hend)]
        rfl
      refine .of_run hrun (r := []) ?_ hc htext.symm
      rw [htext]
      rfl
    · have hlt : c.p < stop := by omega
      have htext := text_of_lt mem hlt
      have hstay := inside_step hc hlt (k := 0) (by omega)
      by_cases hdigit : isDigit (mem c.p) = true
      · by_cases hfull : digits + 1 > 9
        · have hrun : readDigits (n + 1) result digits mem stop c =
              (none, ⟨c.p, c.p :: c.looked⟩) := by
            rw [readDigits, atEnd_bind, if_neg (by simpa using hlt), peek_bind, if_pos hdigit,
              if_pos hfull]
            rfl
          refine .of_run hrun (r := text mem stop c.p) ?_ hstay rfl
          rw [htext, Settings.readDigits, if_pos hdigit, if_pos hfull]
        · have hrun : readDigits (n + 1) result digits mem stop c =
              readDigits n (result * 10 + (mem c.p - 0x30).toUInt32) (digits + 1) mem stop
                ⟨c.p + 1, c.p :: c.p :: c.looked⟩ := by
            rw [readDigits, atEnd_bind, if_neg (by simpa using hlt), peek_bind, if_pos hdigit,
              if_neg hfull, next_bind]
          have hrest : Settings.readDigits result digits (text mem stop c.p) =
              Settings.readDigits (result * 10 + (mem c.p - 0x30).toUInt32) (digits + 1)
                (text mem stop (c.p + 1)) := by
            rw [htext, Settings.readDigits, if_pos hdigit, if_neg hfull]
          have hnext : Inside stop ⟨c.p + 1, c.p :: c.p :: c.looked⟩ :=
            ⟨by dsimp only; omega, List.forall_mem_cons.mpr ⟨hlt, hstay.looked⟩⟩
          obtain ⟨hin, hresult, hplace⟩ := ih (result * 10 + (mem c.p - 0x30).toUInt32)
            (digits + 1) (by dsimp only; omega) hnext
          refine ⟨?_, ?_, ?_⟩
          · rw [hrun]
            exact hin
          · rw [hrun, hrest]
            exact hresult
          · rw [hrun, hrest]
            exact hplace
      · have hrun : readDigits (n + 1) result digits mem stop c =
            (some (result, digits), ⟨c.p, c.p :: c.looked⟩) := by
          rw [readDigits, atEnd_bind, if_neg (by simpa using hlt), peek_bind, if_neg hdigit]
          rfl
        refine .of_run hrun (r := text mem stop c.p) ?_ hstay rfl
        rw [htext, Settings.readDigits, if_neg hdigit]

theorem mirrors_readNumber : Mirrors exact readNumber Settings.readNumber := by
  unfold readNumber Settings.readNumber
  refine mirrors_skipSpace.bind fun _ mem stop c hc => ?_
  refine ((readDigits_follows (stop - c.p) 0 0 le_rfl hc).bind ?_).left
  rintro ⟨result, digits⟩ c' - hc'
  dsimp only
  split_ifs
  · exact mirrors_failure mem stop c' hc'
  · exact mirrors_pure result mem stop c' hc'

theorem mirrors_readPrefix (word : List UInt8) :
    Mirrors exact (readPrefix word) (Settings.readPrefix word) := by
  intro mem stop c hc
  have hfront : word.isPrefixOf (text mem stop c.p) = true ↔
      word.length ≤ stop - c.p ∧ (List.range word.length).map (fun i => mem (c.p + i)) = word := by
    rw [List.isPrefixOf_iff_prefix, List.prefix_iff_eq_take]
    constructor
    · intro h
      have hlen : word.length ≤ stop - c.p := by
        have hl := congrArg List.length h
        rw [List.length_take, length_text] at hl
        omega
      exact ⟨hlen, (take_text mem hlen).symm.trans h.symm⟩
    · rintro ⟨hlen, h⟩
      rw [take_text mem hlen, h]
  have hp := hc.p
  by_cases hshort : stop - c.p < word.length
  · have hrun : readPrefix word mem stop c = (none, c) := by
      rw [readPrefix, left_bind, if_pos hshort]
      rfl
    refine .of_run hrun (r := text mem stop c.p) ?_ hc rfl
    rw [Settings.readPrefix, if_neg (fun h => absurd (hfront.mp h).1 (by omega))]
  · have hlooked : ∀ a ∈ (List.range word.length).map (c.p + ·) ++ c.looked, a < stop := by
      intro a ha
      rcases List.mem_append.mp ha with ha | ha
      · obtain ⟨i, hi, rfl⟩ := List.mem_map.mp ha
        have hlt := List.mem_range.mp hi
        omega
      · exact hc.looked a ha
    by_cases hsame : (List.range word.length).map (fun i => mem (c.p + i)) = word
    · have hrun : readPrefix word mem stop c = (some (), ⟨c.p + word.length,
          (List.range word.length).map (c.p + ·) ++ c.looked⟩) := by
        rw [readPrefix, left_bind, if_neg hshort, same_bind, if_pos (decide_eq_true hsame)]
        rfl
      refine .of_run hrun (r := text mem stop (c.p + word.length)) ?_
        ⟨by dsimp only; omega, hlooked⟩ rfl
      rw [Settings.readPrefix, if_pos (hfront.mpr ⟨by omega, hsame⟩), drop_text]
    · have hrun : readPrefix word mem stop c = (none, ⟨c.p,
          (List.range word.length).map (c.p + ·) ++ c.looked⟩) := by
        rw [readPrefix, left_bind, if_neg hshort, same_bind, if_neg (by simpa using hsame)]
        rfl
      refine .of_run hrun (r := text mem stop c.p) ?_ ⟨hp, hlooked⟩ rfl
      rw [Settings.readPrefix, if_neg (fun h => hsame (hfront.mp h).2)]

theorem mirrors_readWord (word : List UInt8) :
    Mirrors exact (readWord word) (Settings.readWord word) :=
  mirrors_skipSpace.bind fun _ => mirrors_readPrefix word

theorem mirrors_readBool : Mirrors exact readBool Settings.readBool :=
  Mirrors.orElse ((mirrors_readWord _).bind fun _ => mirrors_pure true)
    ((mirrors_readWord _).bind fun _ => mirrors_pure false)

/-! ## Strings -/

def unicodeOf : List UInt8 → Option (UInt8 × List UInt8)
  | h1 :: h2 :: h3 :: h4 :: r => (unicodeByte h1 h2 h3 h4).map (·, r)
  | _ => none

/-- The byte behind a backslash, and the text behind it. -/
def escapeOf : List UInt8 → Option (UInt8 × List UInt8)
  | [] => none
  | e :: r => if e = letterU then unicodeOf r else (shortEscape e).map (·, r)

theorem readChars_escape {size : Option ℕ} {out out' r r' : List UInt8} {b : UInt8}
    (h : escapeOf r = some (b, r')) (hkeep : keepChar size out b = some out') :
    Settings.readChars size out (backslash :: r) = Settings.readChars size out' r' := by
  rw [Settings.readChars.eq_def]
  dsimp only
  rw [if_neg (by decide), if_neg (by decide), if_pos rfl]
  rcases r with _ | ⟨e, r⟩
  · cases h
  rw [escapeOf] at h
  dsimp only
  by_cases he : e = letterU
  · rw [if_pos he] at h ⊢
    rcases r with _ | ⟨h1, _ | ⟨h2, _ | ⟨h3, _ | ⟨h4, r⟩⟩⟩⟩
    · cases h
    · cases h
    · cases h
    · cases h
    · obtain ⟨b', hcode, hb⟩ := Option.map_eq_some_iff.mp h
      obtain ⟨rfl, rfl⟩ := Prod.mk.inj hb
      dsimp only
      rw [hcode, Option.bind_some, hkeep]
  · rw [if_neg he] at h ⊢
    obtain ⟨b', hescape, hb⟩ := Option.map_eq_some_iff.mp h
    obtain ⟨rfl, rfl⟩ := Prod.mk.inj hb
    rw [hescape, Option.bind_some, hkeep]

theorem readChars_bad_escape {size : Option ℕ} {out r : List UInt8}
    (h : ∀ b r', escapeOf r = some (b, r') → keepChar size out b = none) :
    (Settings.readChars size out (backslash :: r)).1 = none := by
  rw [Settings.readChars.eq_def]
  dsimp only
  rw [if_neg (by decide), if_neg (by decide), if_pos rfl]
  rcases r with _ | ⟨e, r⟩
  · rfl
  rw [escapeOf] at h
  dsimp only
  by_cases he : e = letterU
  · rw [if_pos he] at h ⊢
    rcases r with _ | ⟨h1, _ | ⟨h2, _ | ⟨h3, _ | ⟨h4, r⟩⟩⟩⟩
    · rfl
    · rfl
    · rfl
    · rfl
    · dsimp only
      cases hcode : unicodeByte h1 h2 h3 h4 with
      | none => rfl
      | some b =>
        have hkeep := h b r (by rw [unicodeOf, hcode]; rfl)
        rw [Option.bind_some, hkeep]
  · rw [if_neg he] at h ⊢
    cases hescape : shortEscape e with
    | none => rfl
    | some b =>
      have hkeep := h b r (by rw [hescape]; rfl)
      rw [Option.bind_some, hkeep]

variable (mem) in
/-- The digits are read one by one, up to the first that is none. -/
theorem hexDigits_run (n code : ℕ) (hn : n ≤ stop - c.p) (hc : Inside stop c) :
    ∃ c', hexDigits n code mem stop c =
        (((text mem stop c.p).take n).foldlM
          (fun n d => (hexValue d).map fun v => n * 16 + v.toNat) code, c') ∧
      Inside stop c' ∧ ((hexDigits n code mem stop c).1 ≠ none → c'.p = c.p + n) := by
  induction n generalizing c code with
  | zero => exact ⟨c, rfl, hc, fun _ => rfl⟩
  | succ n ih =>
    have hlt : c.p < stop := by omega
    have hin := inside_step hc hlt (k := 1) (by omega)
    rw [text_of_lt mem hlt, List.take_succ_cons, List.foldlM_cons, hexDigits, next_bind]
    cases hexValue (mem c.p) with
    | none => exact ⟨_, rfl, hin, fun h => absurd rfl h⟩
    | some digit =>
      obtain ⟨c', hrun, hin', hplace⟩ := ih (code * 16 + digit.toNat) (by dsimp only; omega) hin
      refine ⟨c', hrun, hin', fun h => ?_⟩
      rw [hplace h]
      dsimp only
      omega

variable (mem) in
theorem text_of_four {p : ℕ} (h : 4 ≤ stop - p) : ∃ h1 h2 h3 h4,
    text mem stop p = h1 :: h2 :: h3 :: h4 :: text mem stop (p + 4) := by
  refine ⟨mem p, mem (p + 1), mem (p + 2), mem (p + 3), ?_⟩
  rw [text_of_lt mem (p := p) (by omega), text_of_lt mem (p := p + 1) (by omega),
    text_of_lt mem (p := p + 2) (by omega), text_of_lt mem (p := p + 3) (by omega)]

theorem unicodeOf_short {r : List UInt8} (h : r.length < 4) : unicodeOf r = none := by
  rcases r with _ | ⟨h1, _ | ⟨h2, _ | ⟨h3, _ | ⟨h4, r⟩⟩⟩⟩
  · rfl
  · rfl
  · rfl
  · rfl
  · simp only [List.length_cons] at h
    omega

/-- The code of `\u` in front of the rest of the text. -/
theorem unicode_run (h : 4 ≤ stop - c.p) (hc : Inside stop c) :
    ∃ c', (do
        let code ← hexDigits 4 0
        if code = 0 ∨ code ≥ 0x80 then failure else return UInt8.ofNat code : CursorM UInt8)
          mem stop c = ((unicodeOf (text mem stop c.p)).map Prod.fst, c') ∧
      Inside stop c' ∧ ∀ b r, unicodeOf (text mem stop c.p) = some (b, r) →
        r = text mem stop c'.p := by
  obtain ⟨c', hrun, hin, hplace⟩ := hexDigits_run mem 4 0 h hc
  obtain ⟨h1, h2, h3, h4, htext⟩ := text_of_four mem h
  have hcode : unicodeOf (text mem stop c.p) =
      ((hexNumber [h1, h2, h3, h4]).bind fun n =>
        if 1 ≤ n ∧ n ≤ 0x7F then some (UInt8.ofNat n) else none).map (·, text mem stop (c.p + 4)) := by
    rw [htext, unicodeOf, unicodeByte_eq_byte]
    rfl
  have hdigits : hexDigits 4 0 mem stop c = (hexNumber [h1, h2, h3, h4], c') := by
    rw [hrun, htext]
    rfl
  rw [hdigits] at hplace
  refine ⟨c', ?_, hin, ?_⟩
  · rw [hcode]
    cases hnumber : hexNumber [h1, h2, h3, h4] with
    | none =>
      rw [hnumber] at hdigits
      exact bind_of_none hdigits _
    | some n =>
      rw [hnumber] at hdigits
      rw [bind_of_some hdigits, Option.bind_some]
      split_ifs with hbad hgood
      · omega
      · rfl
      · rfl
      · omega
  · intro b r hb
    rw [hcode] at hb
    obtain ⟨b', hb', hpair⟩ := Option.map_eq_some_iff.mp hb
    obtain ⟨-, rfl⟩ := Prod.mk.inj hpair
    obtain ⟨n, hn, -⟩ := Option.bind_eq_some_iff.mp hb'
    rw [hplace (by rw [hn]; nofun)]

variable (mem) in
theorem readEscape_run (hc : Inside stop c) :
    ∃ c', readEscape mem stop c = ((escapeOf (text mem stop c.p)).map Prod.fst, c') ∧
      Inside stop c' ∧ ∀ b r, escapeOf (text mem stop c.p) = some (b, r) →
        r = text mem stop c'.p := by
  rw [readEscape, atEnd_bind]
  by_cases hend : stop ≤ c.p
  · rw [if_pos (decide_eq_true hend), text_of_le mem hend]
    exact ⟨c, rfl, hc, nofun⟩
  have hlt : c.p < stop := by omega
  have hin := inside_step hc hlt (k := 1) (by omega)
  rw [if_neg (by simpa using hlt), next_bind, text_of_lt mem hlt, escapeOf]
  by_cases he : mem c.p = letterU
  · rw [if_pos he, if_pos he, left_bind]
    dsimp only
    by_cases hshort : stop - (c.p + 1) < 4
    · have hlen : (text mem stop (c.p + 1)).length < 4 := by
        rw [length_text]
        exact hshort
      rw [if_pos hshort, unicodeOf_short hlen]
      exact ⟨_, rfl, hin, nofun⟩
    · rw [if_neg hshort]
      exact unicode_run (c := ⟨c.p + 1, c.p :: c.looked⟩) (Nat.not_lt.mp hshort) hin
  · rw [if_neg he, if_neg he]
    cases hescape : shortEscape (mem c.p) with
    | none => exact ⟨_, rfl, hin, nofun⟩
    | some b =>
      refine ⟨_, rfl, hin, ?_⟩
      rintro b' r ⟨⟩
      rfl

theorem escapeOf_length {r r' : List UInt8} {b : UInt8} (h : escapeOf r = some (b, r')) :
    r'.length < r.length := by
  rcases r with _ | ⟨e, r⟩
  · cases h
  rw [escapeOf] at h
  split_ifs at h
  · rcases r with _ | ⟨h1, _ | ⟨h2, _ | ⟨h3, _ | ⟨h4, r⟩⟩⟩⟩
    · cases h
    · cases h
    · cases h
    · cases h
    · obtain ⟨b', -, hb⟩ := Option.map_eq_some_iff.mp h
      obtain ⟨-, rfl⟩ := Prod.mk.inj hb
      simp only [List.length_cons]
      omega
  · obtain ⟨b', -, hb⟩ := Option.map_eq_some_iff.mp h
    obtain ⟨-, rfl⟩ := Prod.mk.inj hb
    exact Nat.lt_succ_self _

/-- Both fail; where is not compared. -/
theorem mirrorsAt_none {α : Type} {m : CursorM α} {n : ReadM α} {c' : Cursor}
    (hm : m mem stop c = (none, c')) (hn : (n (text mem stop c.p)).1 = none)
    (hin : Inside stop c') : MirrorsAt False m n mem stop c := by
  refine ⟨?_, ?_, ?_⟩
  · rw [hm]
    exact hin
  · rw [hm, hn]
  · rw [hm]
    exact fun h => (h.resolve_left id rfl).elim

theorem mirrorsAt_congr {α : Type} {m m' : CursorM α} {n n' : ReadM α} {c' : Cursor}
    (hm : m mem stop c = m' mem stop c')
    (hn : n (text mem stop c.p) = n' (text mem stop c'.p))
    (h : MirrorsAt exact m' n' mem stop c') : MirrorsAt exact m n mem stop c := by
  refine ⟨?_, ?_, ?_⟩
  · rw [hm]
    exact h.inside
  · rw [hm, hn]
    exact h.result
  · rw [hm, hn]
    exact h.rest

section Turn

variable (mem) in
/-- A turn of the loop behind the first byte. -/
theorem readChars_turn (size : Option ℕ) (n : ℕ) (out : List UInt8) (hlt : c.p < stop) :
    readChars size (n + 1) out mem stop c =
    (if mem c.p = quote then return out ++ [0]
      else if mem c.p < 0x20 then failure
      else do
        let b ← if mem c.p = backslash then readEscape else pure (mem c.p)
        match keepChar size out b with
        | some out => readChars size n out
        | none => failure : CursorM (List UInt8)) mem stop ⟨c.p + 1, c.p :: c.looked⟩ := by
  rw [readChars, atEnd_bind, if_neg (by simpa using hlt), next_bind]

variable {size : Option ℕ} {n : ℕ} {out : List UInt8}

theorem readChars_turn_escape (hlt : c.p < stop) (hback : mem c.p = backslash)
    (hin : Inside stop ⟨c.p + 1, c.p :: c.looked⟩) (hn : stop - c.p < n + 1)
    (ih : ∀ {c : Cursor} (out : List UInt8), stop - c.p < n → Inside stop c →
      MirrorsAt False (readChars size n out) (Settings.readChars size out) mem stop c) :
    MirrorsAt False (readChars size (n + 1) out) (Settings.readChars size out) mem stop c := by
  have hturn := readChars_turn mem size n out hlt
  have htext := text_of_lt mem hlt
  rw [hback, if_neg (by decide), if_neg (by decide), if_pos rfl] at hturn
  obtain ⟨c', hrun, hin', hrest⟩ := readEscape_run mem hin
  dsimp only at hrun hrest
  cases hescape : escapeOf (text mem stop (c.p + 1)) with
  | none =>
    rw [hescape] at hrun
    rw [bind_of_none hrun] at hturn
    refine mirrorsAt_none hturn ?_ hin'
    rw [htext, hback]
    exact readChars_bad_escape fun b r h => by rw [hescape] at h; cases h
  | some p =>
    obtain ⟨b, r⟩ := p
    rw [hescape] at hrun
    obtain rfl := hrest b r hescape
    have hprogress := escapeOf_length hescape
    rw [length_text, length_text] at hprogress
    rw [bind_of_some hrun] at hturn
    cases hkeep : keepChar size out b with
    | none =>
      simp only [hkeep] at hturn
      refine mirrorsAt_none hturn ?_ hin'
      rw [htext, hback]
      refine readChars_bad_escape fun b' r h => ?_
      rw [hescape] at h
      cases h
      exact hkeep
    | some out' =>
      simp only [hkeep] at hturn
      refine mirrorsAt_congr hturn ?_ (ih out' (by omega) hin')
      rw [htext, hback]
      exact readChars_escape hescape hkeep

theorem readChars_turn_plain (hlt : c.p < stop) (hquote : mem c.p ≠ quote)
    (hlow : ¬mem c.p < 0x20) (hback : mem c.p ≠ backslash)
    (hin : Inside stop ⟨c.p + 1, c.p :: c.looked⟩) (hn : stop - c.p < n + 1)
    (ih : ∀ {c : Cursor} (out : List UInt8), stop - c.p < n → Inside stop c →
      MirrorsAt False (readChars size n out) (Settings.readChars size out) mem stop c) :
    MirrorsAt False (readChars size (n + 1) out) (Settings.readChars size out) mem stop c := by
  have hturn := readChars_turn mem size n out hlt
  have hread : Settings.readChars size out (text mem stop c.p) =
      match keepChar size out (mem c.p) with
      | some out => Settings.readChars size out (text mem stop (c.p + 1))
      | none => (none, text mem stop (c.p + 1)) := by
    rw [text_of_lt mem hlt, Settings.readChars.eq_def]
    dsimp only
    refine (if_neg hquote).trans ((if_neg hlow).trans ((if_neg hback).trans ?_))
    cases keepChar size out (mem c.p) with
    | none => rfl
    | some out => rfl
  rw [if_neg hquote, if_neg hlow, if_neg hback] at hturn
  replace hturn : readChars size (n + 1) out mem stop c =
      (match keepChar size out (mem c.p) with
        | some out => readChars size n out
        | none => failure : CursorM (List UInt8)) mem stop ⟨c.p + 1, c.p :: c.looked⟩ := hturn
  cases hkeep : keepChar size out (mem c.p) with
  | none =>
    simp only [hkeep] at hturn hread
    exact mirrorsAt_none hturn (congrArg Prod.fst hread) hin
  | some out' =>
    simp only [hkeep] at hturn hread
    exact mirrorsAt_congr hturn hread
      (ih (c := ⟨c.p + 1, c.p :: c.looked⟩) out' (by dsimp only; omega) hin)

theorem readChars_follows (size : Option ℕ) (n : ℕ) (out : List UInt8) (hn : stop - c.p < n)
    (hc : Inside stop c) :
    MirrorsAt False (readChars size n out) (Settings.readChars size out) mem stop c := by
  induction n generalizing c out with
  | zero => cases hn
  | succ n ih =>
    by_cases hend : stop ≤ c.p
    · have hrun : readChars size (n + 1) out mem stop c = (none, c) := by
        rw [readChars, atEnd_bind, if_pos (decide_eq_true hend)]
        rfl
      refine mirrorsAt_none hrun ?_ hc
      rw [text_of_le mem hend]
      rfl
    have hlt : c.p < stop := by omega
    have hin := inside_step hc hlt (k := 1) (by omega)
    have hturn := readChars_turn mem size n out hlt
    by_cases hquote : mem c.p = quote
    · rw [if_pos hquote] at hturn
      refine .of_run hturn (r := text mem stop (c.p + 1)) ?_ hin rfl
      rw [text_of_lt mem hlt, Settings.readChars.eq_def]
      exact if_pos hquote
    by_cases hlow : mem c.p < 0x20
    · rw [if_neg hquote, if_pos hlow] at hturn
      refine mirrorsAt_none hturn ?_ hin
      rw [text_of_lt mem hlt, Settings.readChars.eq_def]
      dsimp only
      rw [if_neg hquote, if_pos hlow]
    by_cases hback : mem c.p = backslash
    · exact readChars_turn_escape hlt hback hin hn fun out hn hc => ih out hn hc
    · exact readChars_turn_plain hlt hquote hlow hback hin hn fun out hn hc => ih out hn hc

end Turn

theorem mirrors_readString (size : Option ℕ) :
    Mirrors False (readString size) (Settings.readString size) := by
  unfold readString Settings.readString
  refine (mirrors_consume quote).bind fun opened => .ite (fun mem stop c hc => ?_) mirrors_failure
  exact (readChars_follows size _ [] (Nat.lt_succ_self _) hc).left

/-! ## Fields -/

theorem mirrors_readMac : Mirrors False readMac Settings.readMac := by
  unfold readMac Settings.readMac
  refine (mirrors_readString (some 18)).bind fun text => .ite mirrors_failure ?_
  cases (List.range 6).mapM (macByte text) with
  | none => exact mirrors_failure
  | some mac => exact mirrors_pure mac

theorem mirrors_atQuote :
    Mirrors exact atQuote (fun r => (some (r.head? == some quote), r)) := by
  intro mem stop c hc
  by_cases hend : stop ≤ c.p
  · have hrun : atQuote mem stop c = (some false, c) := by
      rw [atQuote, atEnd_bind, if_pos (decide_eq_true hend)]
      rfl
    refine .of_run hrun ?_ hc rfl
    rw [text_of_le mem hend]
    rfl
  · have hlt : c.p < stop := by omega
    have hrun : atQuote mem stop c = (some (mem c.p == quote), ⟨c.p, c.p :: c.looked⟩) := by
      rw [atQuote, atEnd_bind, if_neg (by simpa using hlt)]
      rfl
    refine .of_run hrun ?_ (inside_step hc hlt (k := 0) (by omega)) rfl
    rw [text_of_lt mem hlt]
    rfl

theorem mirrors_skipValue : Mirrors False skipValue Settings.skipValue := by
  unfold skipValue Settings.skipValue
  refine mirrors_skipSpace.bind fun _ => mirrors_atQuote.bind fun quoted => .ite ?_ ?_
  · exact (mirrors_readString none).bind fun _ => mirrors_pure ()
  · exact (mirrors_readNumber.bind fun _ => mirrors_pure ()).orElse
      ((mirrors_readBool.bind fun _ => mirrors_pure ()).orElse (mirrors_readWord _))

theorem mirrors_readField (key : List UInt8) (config : Config) :
    Mirrors False (readField key config) (Settings.readField key config) := by
  unfold readField Settings.readField
  refine .ite ?_ <| .ite ?_ <| .ite ?_ <| .ite ?_ <| .ite ?_ <| .ite ?_ <| .ite ?_ <| .ite ?_ <|
    .ite ?_ ?_
  · exact mirrors_readMac.bind fun _ => mirrors_pure _
  · exact (mirrors_readString _).bind fun _ => mirrors_pure _
  · exact mirrors_readNumber.bind fun channel => .ite mirrors_failure (mirrors_pure _)
  · exact mirrors_readBool.bind fun _ => mirrors_pure _
  · exact (mirrors_readString _).bind fun _ => mirrors_pure _
  · exact (mirrors_readString _).bind fun _ => mirrors_pure _
  · exact mirrors_readBool.bind fun _ => mirrors_pure _
  · exact mirrors_readBool.bind fun _ => mirrors_pure _
  · exact mirrors_readBool.bind fun _ => mirrors_pure _
  · exact mirrors_skipValue.bind fun _ => mirrors_pure _

/-! ## The object -/

theorem mirrors_readMember (config : Config) :
    Mirrors False (readMember config) (Settings.readMember config) := by
  unfold readMember Settings.readMember
  refine (mirrors_readString (some 24)).bind fun key => (mirrors_consume colon).bind fun sep =>
    .ite ?_ mirrors_failure
  exact mirrors_readField _ config

theorem mirrors_readMembers (fuel : ℕ) (config : Config) :
    Mirrors False (readMembers fuel config) (Settings.readMembers fuel config) := by
  induction fuel generalizing config with
  | zero => exact mirrors_failure
  | succ fuel ih =>
    unfold readMembers Settings.readMembers
    refine (mirrors_readMember config).bind fun config => (mirrors_consume comma).bind fun more =>
      .ite ?_ (mirrors_pure config)
    exact ih config

theorem mirrors_readObject (fuel : ℕ) (config : Config) :
    Mirrors False (readObject fuel config) (Settings.readObject fuel config) := by
  unfold readObject Settings.readObject
  refine (mirrors_consume openBrace).bind fun opened => .ite ?_ mirrors_failure
  refine (mirrors_consume closeBrace).bind fun empty => .ite ?_ ?_
  · exact mirrors_skipSpace.bind fun _ => mirrors_pure config
  · refine (mirrors_readMembers fuel config).bind fun next =>
      (mirrors_consume closeBrace).bind fun closed => .ite ?_ mirrors_failure
    exact mirrors_skipSpace.bind fun _ => mirrors_pure next

/-- The bytes of a body. -/
def body (mem : ℕ → UInt8) (length : ℕ) : List UInt8 := text mem length 0

/-- Over memory the reader does what it does over texts, and it stays in the body. -/
theorem configFromJson_eq (mem : ℕ → UInt8) (length : ℕ) (config : Config) :
    ∃ looked, (∀ a ∈ looked, a < length) ∧ configFromJson mem length config =
      match Settings.configFromJson (body mem length) config with
      | some next => (true, next, looked)
      | none => (false, config, looked) := by
  obtain ⟨hin, hresult, hrest⟩ := mirrors_readObject length config mem length ⟨0, []⟩
    ⟨Nat.zero_le _, nofun⟩
  refine ⟨(readObject length config mem length ⟨0, []⟩).2.looked, hin.looked, ?_⟩
  have hlength : (body mem length).length = length := by rw [body, length_text, Nat.sub_zero]
  have hp := hin.p
  unfold configFromJson Settings.configFromJson
  rw [hlength]
  change (Settings.readObject length config (body mem length)).1 = _ at hresult
  rcases hm : readObject length config mem length ⟨0, []⟩ with ⟨_ | next, r⟩
  · rw [hm] at hresult
    rcases hn : Settings.readObject length config (body mem length) with ⟨_ | next, rest⟩
    · rfl
    · rw [hn] at hresult
      cases hresult
  · rw [hm] at hresult hrest hp
    have hplace := hrest (Or.inr nofun)
    change (Settings.readObject length config (body mem length)).2 = text mem length r.p at hplace
    have hn : Settings.readObject length config (body mem length) =
        (some next, text mem length r.p) := Prod.ext hresult hplace
    rw [hn]
    dsimp only at hp ⊢
    by_cases hend : r.p = length
    · rw [text_of_le mem hend.ge]
      by_cases hvalid : isValid next = true
      · simp [hend, hvalid]
      · simp [hend, hvalid]
    · rw [text_of_lt mem (by omega), if_pos (Or.inl hend)]

end BekenCam.Settings.Memory
