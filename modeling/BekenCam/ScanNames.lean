import BekenCam.ScanJson

/-!
# The names in a scan

What a reader of the text finds as the names of the networks. The stations are told apart by all the
bytes of their SSIDs, but a name is printed as a string that ends at its first NUL.
-/
namespace BekenCam.ScanJson

open FlashKv (cString cString_eq zero_notMem_cString)
open Http (ascii)
open Json
open JsonSyntax
open Scan (ScanStatus ScanStation scanSsidMax)

/-! ## Tokens -/

/-- A text lexes to these tokens, wherever it stands between two tokens. -/
def Lexed (text : List UInt8) (toks : List Token) : Prop := lex .between text = (.between, toks)

theorem Lexed.append {a b : List UInt8} {toks more : List Token} (ha : Lexed a toks)
    (hb : Lexed b more) : Lexed (a ++ b) (toks ++ more) := by
  unfold Lexed at *
  rw [lex_append, ha, hb]

theorem lexed_byte {b : UInt8} (hspace : isSpace b = false) (hquote : b ≠ quote) :
    Lexed [b] [.byte b] := by
  simp [Lexed, lex, lexByte, hspace, hquote]

theorem lexed_bytes {bytes : List UInt8} (h : ∀ b ∈ bytes, isSpace b = false ∧ b ≠ quote) :
    Lexed bytes (bytes.map .byte) := by
  induction bytes with
  | nil => rfl
  | cons b bytes ih =>
    rw [List.forall_mem_cons] at h
    exact (lexed_byte h.1.1 h.1.2).append (ih h.2)

/-- A character of a string adds its byte. -/
theorem lex_charOf (c : UInt8) (s : List UInt8) :
    lex (.text s) (charOf c).text = (.text (s ++ [c]), []) := by
  have hescape : ∀ k < 32, UInt8.ofNat ((((0 * 16 + ((hexValue 0x30).getD 0).toNat) * 16 +
      ((hexValue 0x30).getD 0).toNat) * 16 +
        ((hexValue (hexLetter (UInt8.ofNat k >>> 4))).getD 0).toNat) * 16 +
          ((hexValue (hexLetter (UInt8.ofNat k &&& 0x0F))).getD 0).toNat) = UInt8.ofNat k := by
    decide +kernel
  unfold charOf
  split_ifs with hspecial hlow
  · rcases hspecial with rfl | rfl <;> rfl
  · have hc := hescape c.toNat (UInt8.lt_iff_toNat_lt.mp hlow)
    rw [UInt8.ofNat_toNat] at hc
    conv_rhs => rw [← hc]
    rfl
  · rw [not_or] at hspecial
    simp [StringChar.text, lex, lexByte, hspecial]

theorem lexed_quotedText (s : List UInt8) : Lexed (quotedText s) [.string s] := by
  have hchars (out : List UInt8) : lex (.text out) (charsText (s.map charOf)) =
      (.text (out ++ s), []) := by
    induction s generalizing out with
    | nil => rw [List.append_nil]; rfl
    | cons c s ih =>
      have hcons : charsText ((c :: s).map charOf) = (charOf c).text ++ charsText (s.map charOf) := by
        rw [charsText, List.map_cons, List.flatMap_cons]
        rfl
      rw [hcons, lex_append, lex_charOf, ih, List.append_assoc]
      rfl
  have hopen : lexByte quote .between = (.text [], []) := rfl
  have hclose : lex (.text s) [quote] = (.between, [.string s]) := rfl
  rw [Lexed, quotedText, stringText, lex, hopen]
  dsimp only
  rw [lex_append, hchars, List.nil_append, hclose]
  rfl

/-- Values behind the first. -/
theorem lexed_flatMap {items : List (List UInt8)} {toks : List (List Token)}
    (h : List.Forall₂ Lexed items toks) : Lexed (items.flatMap fun item => [comma] ++ item)
      (toks.flatMap fun item => [.byte comma] ++ item) := by
  induction h with
  | nil => rfl
  | cons hitem _ ih =>
    rw [List.flatMap_cons, List.flatMap_cons]
    exact (Lexed.append (lexed_byte rfl (by decide)) hitem).append ih

theorem lexed_intercalate {items : List (List UInt8)} {toks : List (List Token)}
    (h : List.Forall₂ Lexed items toks) :
    Lexed ([comma].intercalate items) ([.byte comma].intercalate toks) := by
  cases h with
  | nil => rfl
  | cons hitem hrest =>
    rw [intercalate_cons, intercalate_cons]
    exact hitem.append (lexed_flatMap hrest)

def memberToks (m : List UInt8 × List Token) : List Token := .string m.1 :: .byte colon :: m.2

def objectToks (members : List (List UInt8 × List Token)) : List Token :=
  .byte openBrace :: ([.byte comma].intercalate (members.map memberToks) ++ [.byte closeBrace])

def arrayToks (items : List (List Token)) : List Token :=
  .byte openBracket :: ([.byte comma].intercalate items ++ [.byte closeBracket])

theorem lexed_object {members : List (List UInt8 × List UInt8)}
    {toks : List (List UInt8 × List Token)}
    (h : List.Forall₂ (fun m t => m.1 = t.1 ∧ Lexed m.2 t.2) members toks) :
    Lexed (objectOf members) (objectToks toks) := by
  have hmembers : List.Forall₂ Lexed
      ((members.map fun m => (m.1.map charOf, m.2)).map fun m => stringText m.1 ++ colon :: m.2)
      (toks.map memberToks) := by
    rw [List.map_map, List.forall₂_map_left_iff, List.forall₂_map_right_iff]
    refine h.imp fun m t hmt => ?_
    have hkey := lexed_quotedText m.1
    rw [hmt.1] at hkey
    have hcolon : Lexed [colon] [.byte colon] := lexed_byte rfl (by decide)
    have hmember := hkey.append (hcolon.append hmt.2)
    rw [← hmt.1] at hmember
    rw [memberToks, ← hmt.1]
    exact hmember
  exact Lexed.append (lexed_byte rfl (by decide))
    ((lexed_intercalate hmembers).append (lexed_byte rfl (by decide)))

theorem lexed_array {items : List (List UInt8)} {toks : List (List Token)}
    (h : List.Forall₂ Lexed items toks) : Lexed (arrayText items) (arrayToks toks) :=
  Lexed.append (lexed_byte rfl (by decide))
    ((lexed_intercalate h).append (lexed_byte rfl (by decide)))

/-! ## The tokens of a scan -/

def networkToks (s : ScanStation) : List Token :=
  objectToks [(ascii "ssid", [.string (cString s.ssid)]),
    (ascii "rssi", (signedText s.rssi).map .byte),
    (ascii "channel", (ascii (toString s.channel.toNat)).map .byte),
    (ascii "security", [.string (securityName s.security)])]

def scanToks (status : ScanStatus) (stations : List ScanStation) : List Token :=
  objectToks [(ascii "status", [.string (scanStatusName status)]),
    (ascii "networks", arrayToks (stations.map networkToks))]

theorem not_space_of_digit {d : UInt8} (h : 48 ≤ d ∧ d ≤ 57) : isSpace d = false ∧ d ≠ quote := by
  have hall : ∀ k < 256, 48 ≤ UInt8.ofNat k ∧ UInt8.ofNat k ≤ 57 →
      isSpace (UInt8.ofNat k) = false ∧ UInt8.ofNat k ≠ quote := by decide +kernel
  have hd := hall d.toNat d.toNat_lt
  rw [UInt8.ofNat_toNat] at hd
  exact hd h

theorem lexed_digits (k : ℕ) : Lexed (ascii (toString k)) ((ascii (toString k)).map .byte) :=
  lexed_bytes fun d hd => not_space_of_digit (isDigits_ascii k d hd)

theorem lexed_signedText (n : Int8) : Lexed (signedText n) ((signedText n).map .byte) := by
  rw [signedText, List.map_append]
  refine Lexed.append ?_ (lexed_digits n.toInt.natAbs)
  split_ifs
  · exact lexed_byte rfl (by decide)
  · rfl

theorem lexed_networkText (s : ScanStation) : Lexed (networkText s) (networkToks s) :=
  lexed_object (.cons ⟨rfl, lexed_quotedText _⟩ (.cons ⟨rfl, lexed_signedText _⟩
    (.cons ⟨rfl, lexed_digits s.channel.toNat⟩ (.cons ⟨rfl, lexed_quotedText _⟩ .nil))))

theorem tokens_scanText (status : ScanStatus) (stations : List ScanStation) :
    tokens (scanText status stations) = scanToks status stations := by
  have hnetworks : List.Forall₂ Lexed (stations.map networkText) (stations.map networkToks) := by
    rw [List.forall₂_map_left_iff, List.forall₂_map_right_iff]
    exact List.forall₂_same.mpr fun s _ => lexed_networkText s
  have htext : Lexed (scanText status stations) (scanToks status stations) :=
    lexed_object (.cons ⟨rfl, lexed_quotedText _⟩ (.cons ⟨rfl, lexed_array hnetworks⟩ .nil))
  rw [tokens, htext]

/-! ## The names that are read -/

/-- The string behind a key `ssid` and its colon. -/
def ssidAt : Token → List Token → List (List UInt8)
  | .string key, .byte b :: .string s :: _ => if key = ascii "ssid" ∧ b = colon then [s] else []
  | _, _ => []

/-- The names in an object's text, in their order. -/
def ssidStrings : List Token → List (List UInt8)
  | [] => []
  | tok :: toks => ssidAt tok toks ++ ssidStrings toks

theorem ssidStrings_byte (b : UInt8) (toks : List Token) :
    ssidStrings (.byte b :: toks) = ssidStrings toks := rfl

theorem ssidStrings_bytes (bytes : List UInt8) (toks : List Token) :
    ssidStrings (bytes.map .byte ++ toks) = ssidStrings toks := by
  induction bytes with
  | nil => rfl
  | cons b bytes ih => rw [List.map_cons, List.cons_append, ssidStrings_byte, ih]

/-- A string with another byte than a colon behind it is no key. -/
theorem ssidStrings_value (s : List UInt8) {b : UInt8} (hb : b ≠ colon) (toks : List Token) :
    ssidStrings (.string s :: .byte b :: toks) = ssidStrings toks := by
  have hnone : ssidAt (.string s) (.byte b :: toks) = [] := by
    unfold ssidAt
    split
    · rename_i heq
      obtain ⟨hbyte, -⟩ := List.cons.inj heq
      rw [Token.byte.inj hbyte] at hb
      exact if_neg fun h => hb h.2
    · rfl
  rw [ssidStrings, hnone, List.nil_append, ssidStrings_byte]

theorem ssidStrings_key (key s : List UInt8) {b : UInt8} (hb : b ≠ colon) (toks : List Token) :
    ssidStrings (.string key :: .byte colon :: .string s :: .byte b :: toks) =
      (if key = ascii "ssid" then [s] else []) ++ ssidStrings toks := by
  rw [ssidStrings, ssidStrings_byte, ssidStrings_value s hb, ssidAt]
  simp only [and_true]

/-- A key in front of a number. -/
theorem ssidStrings_number (key : List UInt8) {bytes : List UInt8} (hne : bytes ≠ [])
    (toks : List Token) :
    ssidStrings (.string key :: .byte colon :: (bytes.map .byte ++ toks)) = ssidStrings toks := by
  cases bytes with
  | nil => exact absurd rfl hne
  | cons b bytes => exact ssidStrings_bytes bytes toks

theorem ssidStrings_network (s : ScanStation) (toks : List Token) :
    ssidStrings (networkToks s ++ toks) = cString s.ssid :: ssidStrings toks := by
  have hrssi : signedText s.rssi ≠ [] :=
    List.append_ne_nil_of_right_ne_nil _ (ascii_toString_ne_nil _)
  simp only [networkToks, objectToks, memberToks, List.map_cons, List.map_nil, intercalate_cons,
    List.flatMap_cons, List.flatMap_nil, List.cons_append, List.nil_append, List.append_assoc]
  rw [ssidStrings_byte, ssidStrings_key _ _ (by decide), if_pos rfl, ssidStrings_number _ hrssi,
    ssidStrings_byte, ssidStrings_number _ (ascii_toString_ne_nil s.channel.toNat), ssidStrings_byte,
    ssidStrings_key _ _ (by decide), if_neg (by decide)]
  rfl

theorem ssidStrings_networks (stations : List ScanStation) (toks : List Token) :
    ssidStrings ([.byte comma].intercalate (stations.map networkToks) ++ toks) =
      stations.map (fun s => cString s.ssid) ++ ssidStrings toks := by
  have hrest (stations : List ScanStation) : ssidStrings ((stations.map networkToks).flatMap
      (fun item => [.byte comma] ++ item) ++ toks) =
        stations.map (fun s => cString s.ssid) ++ ssidStrings toks := by
    induction stations with
    | nil => rfl
    | cons s stations ih =>
      rw [List.map_cons, List.flatMap_cons, List.append_assoc, List.append_assoc,
        List.singleton_append, ssidStrings_byte, ssidStrings_network, ih]
      rfl
  cases stations with
  | nil => rfl
  | cons s stations =>
    rw [List.map_cons, intercalate_cons, List.append_assoc, ssidStrings_network, hrest]
    rfl

/-- The names in the text of a scan are those of its stations, up to their first NULs. -/
theorem ssidStrings_scanText (status : ScanStatus) (stations : List ScanStation) :
    ssidStrings (tokens (scanText status stations)) = stations.map fun s => cString s.ssid := by
  rw [tokens_scanText]
  simp only [scanToks, objectToks, arrayToks, memberToks, List.map_cons, List.map_nil,
    intercalate_cons, List.flatMap_cons, List.flatMap_nil, List.cons_append, List.nil_append,
    List.append_assoc]
  rw [ssidStrings_byte, ssidStrings_key _ _ (by decide), if_neg (by decide), List.nil_append]
  have hnetworks := ssidStrings_networks stations [.byte closeBracket, .byte closeBrace]
  rw [ssidStrings_byte, ssidStrings_byte, ssidStrings, List.append_nil] at hnetworks
  exact hnetworks

/-! ## Names as they are -/

/-- The names that are read are not empty, differ, and are those of the stations. -/
structure NamesRight (text : List UInt8) (stations : List ScanStation) : Prop where
  nonempty : ∀ name ∈ ssidStrings (tokens text), name ≠ []
  distinct : (ssidStrings (tokens text)).Nodup
  full : ssidStrings (tokens text) = stations.map ScanStation.ssid

theorem namesRight_iff {status : ScanStatus} {stations : List ScanStation}
    (hnamed : ∀ s ∈ stations, s.ssid ≠ []) (hnodup : (stations.map ScanStation.ssid).Nodup) :
    NamesRight (scanText status stations) stations ↔ ∀ s ∈ stations, 0 ∉ s.ssid := by
  constructor
  · intro h s hs
    have hfull := h.full
    rw [ssidStrings_scanText] at hfull
    rw [← List.map_inj_left.mp hfull s hs]
    exact zero_notMem_cString _
  · intro h
    have hnames : ssidStrings (tokens (scanText status stations)) =
        stations.map ScanStation.ssid := by
      rw [ssidStrings_scanText]
      exact List.map_congr_left fun s hs => cString_eq (h s hs)
    refine ⟨?_, hnames ▸ hnodup, hnames⟩
    rw [hnames, List.forall_mem_map]
    exact hnamed

section Run

variable {stations : List ScanStation} {buf : List UInt8} {size : ℕ}

/-- With room for the longest entries the loop ends when it has taken enough. -/
theorem writeNetworks_room {status : ScanStatus}
    (hstations : ∀ s ∈ stations, s.ssid.length ≤ scanSsidMax) (hbuf : size ≤ buf.length)
    (room : ℕ) (taken : List ScanStation)
    (hroom : (header status ++ joined taken).length + room * scanEntryMax < size) :
    (writeNetworks stations room (written buf size (header status ++ joined taken)) taken).2 =
      select signal ScanStation.ssid isNamed stations room taken := by
  induction room generalizing taken with
  | zero => rfl
  | succ room ih =>
    rw [Nat.succ_mul] at hroom
    have hfits : (header status ++ joined taken).length < size := by omega
    rw [writeNetworks, select, written_fits hbuf hfits, if_pos ⟨rfl, by dsimp only; omega⟩,
      ← written_fits hbuf hfits, bestStation_eq]
    cases hbest : firstBest signal (unseen ScanStation.ssid isNamed taken) stations with
    | none => rfl
    | some best =>
      have hentry := length_networkText_lt (hstations best (mem_of_firstBest hbest))
      have hjoined := length_joined_concat_le taken best
      have hnext := ih (taken ++ [best]) (by
        rw [List.length_append] at hroom ⊢
        omega)
      dsimp only
      rw [writeNetwork_eq, written_append, List.append_assoc, ← joined_concat, hnext]

/-- The names are right in a text exactly if none of those listed has a NUL. -/
theorem namesRight_listed (status : ScanStatus)
    (hstations : ∀ s ∈ stations, s.ssid.length ≤ scanSsidMax) (hbuf : size ≤ buf.length)
    (hprinted : (scanToJson status stations buf size).1 ≠ 0) :
    NamesRight ((scanToJson status stations buf size).2.take
        (scanToJson status stations buf size).1) (listed status stations buf size) ↔
      ∀ s ∈ listed status stations buf size, 0 ∉ s.ssid := by
  obtain ⟨⟨k, -, hlisted⟩, -⟩ := listed_spec status hstations hbuf
  obtain ⟨ranked, hranked, htake⟩ := exists_ranking signal ScanStation.ssid isNamed stations
  have hfront : listed status stations buf size = ranked.take k := hlisted.trans (htake k)
  rcases scanToJson_memory status hstations hbuf with ⟨-, heq⟩ | ⟨-, mem, heq, -⟩
  · rw [heq, writeAt_front, List.append_assoc, List.take_left, hfront]
    refine namesRight_iff (fun s hs => ?_) ?_
    · have hnamed := (hranked.strongest s (List.mem_of_mem_take hs)).2.1
      simpa [isNamed] using hnamed
    · rw [List.map_take]
      exact hranked.names.sublist (List.take_sublist _ _)
  · rw [heq] at hprinted
    exact absurd rfl hprinted

theorem printed_of_fits {status : ScanStatus}
    (hstations : ∀ s ∈ stations, s.ssid.length ≤ scanSsidMax) (hbuf : size ≤ buf.length)
    (hfits : (scanText status (listed status stations buf size)).length < size) :
    (scanToJson status stations buf size).1 ≠ 0 := by
  rcases scanToJson_memory status hstations hbuf with ⟨-, heq⟩ | ⟨hlong, -⟩
  · rw [heq, scanText_eq]
    exact (Nat.succ_pos _).ne'
  · omega

/-- The names that are printed of a scan are right, whatever the buffer, exactly if none of the
networks that can be listed has a NUL in its name. -/
theorem names_right_iff (status : ScanStatus)
    (hstations : ∀ s ∈ stations, s.ssid.length ≤ scanSsidMax) :
    ∃ ranked, Networks stations ranked ∧
      ((∀ (buf : List UInt8) (size : ℕ), size ≤ buf.length →
          (scanToJson status stations buf size).1 ≠ 0 →
            NamesRight ((scanToJson status stations buf size).2.take
              (scanToJson status stations buf size).1) (listed status stations buf size)) ↔
        ∀ s ∈ ranked.take scanNetworksMax, 0 ∉ s.ssid) := by
  obtain ⟨ranked, hranked, htake⟩ := exists_ranking signal ScanStation.ssid isNamed stations
  refine ⟨ranked, hranked, fun hall => ?_, fun hnone buf size hbuf hprinted => ?_⟩
  · -- A buffer in which every network that can be listed is listed.
    obtain ⟨buf, size, hbuf, hroom⟩ : ∃ (buf : List UInt8) (size : ℕ), size ≤ buf.length ∧
        (header status ++ joined []).length + scanNetworksMax * scanEntryMax < size :=
      ⟨List.replicate _ 0, _, List.length_replicate.ge, Nat.lt_succ_self _⟩
    have hlisted := writeNetworks_room hstations hbuf scanNetworksMax [] hroom
    rw [← writeStatus_start] at hlisted
    have hfits : (scanText status (listed status stations buf size)).length < size := by
      rcases (listed_spec status hstations hbuf).2 with hnil | hfits
      · have hend : [closeBracket, closeBrace].length = 2 := rfl
        have hentries : 2 ≤ scanNetworksMax * scanEntryMax := by decide
        rw [hnil, scanText_eq, ← List.append_assoc, List.length_append, hend]
        omega
      · exact hfits
    have hprinted := printed_of_fits hstations hbuf hfits
    have hnone := (namesRight_listed status hstations hbuf hprinted).mp (hall _ _ hbuf hprinted)
    rwa [listed, hlisted, htake] at hnone
  · rw [namesRight_listed status hstations hbuf hprinted]
    obtain ⟨⟨k, hk, hlisted⟩, -⟩ := listed_spec status hstations hbuf
    rw [hlisted, strongest, htake]
    exact fun s hs => hnone s (List.take_subset_take_left _ hk hs)

end Run

theorem names_right_iff_nearby : ∃ ranked, Networks nearby ranked ∧
    ((∀ (buf : List UInt8) (size : ℕ), size ≤ buf.length →
        (scanToJson .ok nearby buf size).1 ≠ 0 →
          NamesRight ((scanToJson .ok nearby buf size).2.take (scanToJson .ok nearby buf size).1)
            (listed .ok nearby buf size)) ↔
      ∀ s ∈ ranked.take scanNetworksMax, 0 ∉ s.ssid) :=
  names_right_iff .ok (by decide +kernel)

/-- A network that hides behind four NULs is listed without a name. -/
theorem names_not_right :
    ¬∀ (status : ScanStatus) (stations : List ScanStation) (buf : List UInt8) (size : ℕ),
      (∀ s ∈ stations, s.ssid.length ≤ scanSsidMax) → size ≤ buf.length →
        (scanToJson status stations buf size).1 ≠ 0 →
          NamesRight ((scanToJson status stations buf size).2.take
            (scanToJson status stations buf size).1) (listed status stations buf size) := by
  intro hall
  have hright := hall .ok [station [0, 0, 0, 0] (-60)] (List.replicate 400 0) 400 (by decide +kernel)
    List.length_replicate.ge (by decide +kernel)
  exact absurd rfl (hright.nonempty [] (by decide +kernel))

end BekenCam.ScanJson
