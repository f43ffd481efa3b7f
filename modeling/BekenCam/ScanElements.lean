import BekenCam.ElementRuns

/-!
# Elements of scanned frames

How a scan reads the elements behind the fixed part of a beacon: the search for one element, and
the security that the RSN element or the WPA element announces.
-/
namespace BekenCam.Scan

inductive StationSecurity
  | open
  | wep
  | wpa
  | wpa2
  | wpa3
deriving DecidableEq

def findIe (ies iesLen : ℕ) (id : UInt8) : Reads (Option ℕ) :=
  walkElements ies iesLen (fun eltId _ _ => pure (eltId = id)) iesLen 0

/-- 00-0F-AC:8 is SAE, 00-0F-AC:9 is FT-SAE. -/
def saeSuites : List (List UInt8) := [[0x00, 0x0F, 0xAC, 8], [0x00, 0x0F, 0xAC, 9]]

def lookSae (p : ℕ) : Reads Bool := do
  if ← lookSame p [0x00, 0x0F, 0xAC] then
    let type ← look (p + 3)
    return type = 8 ∨ type = 9
  else return false

/-- The loop over the AKM suites, `akmCnt` of them left. -/
def akmLoop (ie ieLen : ℕ) : ℕ → ℕ → Reads StationSecurity
  | 0, _ => pure .wpa2
  | akmCnt + 1, offset =>
    if offset + 4 ≤ ieLen then do
      if ← lookSae (ie + offset) then return .wpa3
      akmLoop ie ieLen akmCnt (offset + 4)
    else return .wpa2

/-- The offset is a halfword; only the sum with the pairwise suites can go beyond one. -/
def rsnSecurity (ie : ℕ) (ieLen : UInt8) : Reads StationSecurity := do
  if ieLen.toNat < 8 then return .wpa2
  let offset := 2 + 4
  if offset + 2 > ieLen.toNat then return .wpa2
  let pairwise ← lookLe16 (ie + offset)
  let offset := (offset + (2 + pairwise * 4)) % 2 ^ 16
  if offset + 2 > ieLen.toNat then return .wpa2
  let akmCnt ← lookLe16 (ie + offset)
  akmLoop ie ieLen.toNat akmCnt (offset + 2)

def wpaOui : List UInt8 := [0x00, 0x50, 0xF2, 0x01]

/-- The test of the walk over the vendor elements. -/
def isWpa (id len : UInt8) (p : ℕ) : Reads Bool := do
  if id = 221 ∧ len.toNat ≥ 4 then
    let bytes ← lookBytes (p + 2) 4
    return bytes = wpaOui
  else return false

def parseSecurity (ies iesLen : ℕ) (capability : ℕ) : Reads StationSecurity := do
  match ← findIe ies iesLen 48 with
  | some rsn =>
    let len ← look (rsn + 1)
    rsnSecurity (rsn + 2) len
  | none =>
    match ← walkElements ies iesLen isWpa iesLen 0 with
    | some _ => return .wpa
    | none => return if capability.testBit 4 then .wep else .open

/-! ## The RSN element -/

/-- Among as many suites as the count at `off` says, one inside the body is an SAE suite. -/
def SaeListed (body : List UInt8) (off : ℕ) : Prop :=
  ∃ j < le16 body off, off + 2 + 4 * j + 4 ≤ body.length ∧
    slice body (off + 2 + 4 * j) 4 ∈ saeSuites

instance (body : List UInt8) (off : ℕ) : Decidable (SaeListed body off) :=
  inferInstanceAs (Decidable (∃ j < le16 body off, off + 2 + 4 * j + 4 ≤ body.length ∧
    slice body (off + 2 + 4 * j) 4 ∈ saeSuites))

/-- Where the count of AKM suites stands: behind the version, the group suite, the count of pairwise
suites and these suites. -/
def akmOffset (body : List UInt8) : ℕ := 2 + 4 + 2 + 4 * le16 body 6

/-- What the code makes of a body: it looks for the count at the offset modulo `2 ^ 16`. -/
def rsnClass (body : List UInt8) : StationSecurity :=
  if 8 ≤ body.length ∧ SaeListed body (akmOffset body % 2 ^ 16) then .wpa3 else .wpa2

section Rsn

variable {mem : ℕ → UInt8} {ok : ℕ → Prop} {ie n : ℕ}

theorem lookSae_sees {off : ℕ} (hok : ∀ i < n, ok (ie + i)) (hoff : off + 4 ≤ n) :
    Sees mem ok (lookSae (ie + off)) (decide (slice (bytesAt mem ie n) off 4 ∈ saeSuites)) := by
  have hsame : Sees mem ok (lookSame (ie + off) [0x00, 0x0F, 0xAC])
      (decide (bytesAt mem (ie + off) 3 = [0x00, 0x0F, 0xAC])) :=
    sees_lookSame fun i hi => by
      have hin := hok (off + i) (by simp at hi; omega)
      rwa [← Nat.add_assoc] at hin
  have hsuite : slice (bytesAt mem ie n) off 4 =
      bytesAt mem (ie + off) 3 ++ [mem (ie + off + 3)] := by
    rw [slice_bytesAt hoff, bytesAt_succ]
  rw [hsuite]
  refine hsame.bind ?_
  by_cases hoi : bytesAt mem (ie + off) 3 = [0x00, 0x0F, 0xAC]
  · rw [if_pos (by simpa using hoi), hoi]
    refine sees_look_bind (by simpa [Nat.add_assoc] using hok (off + 3) (by omega)) ?_
    have hvalue : (decide (mem (ie + off + 3) = 8 ∨ mem (ie + off + 3) = 9)) =
        decide ([0x00, 0x0F, 0xAC] ++ [mem (ie + off + 3)] ∈ saeSuites) := by
      simp [saeSuites]
    rw [← hvalue]
    exact sees_pure _
  · rw [if_neg (by simpa using hoi)]
    have hvalue : decide (bytesAt mem (ie + off) 3 ++ [mem (ie + off + 3)] ∈ saeSuites) = false := by
      rw [decide_eq_false_iff_not]
      intro hmem
      refine hoi ?_
      have hsplit : ∃ t, bytesAt mem (ie + off) 3 ++ [mem (ie + off + 3)] =
          [0x00, 0x0F, 0xAC] ++ [t] := by
        rcases List.mem_pair.mp hmem with heq | heq
        · exact ⟨8, heq⟩
        · exact ⟨9, heq⟩
      obtain ⟨t, ht⟩ := hsplit
      exact (List.append_inj' ht rfl).1
    rw [hvalue]
    exact sees_pure _

/-- The suites from the `j`-th on: the loop finds the SAE suites among those inside the body. -/
theorem akmLoop_sees {off : ℕ} (hok : ∀ i < n, ok (ie + i)) (count : ℕ) :
    Sees mem ok (akmLoop ie n count off)
      (if ∃ j < count, off + 4 * j + 4 ≤ n ∧
          slice (bytesAt mem ie n) (off + 4 * j) 4 ∈ saeSuites then .wpa3 else .wpa2) := by
  induction count generalizing off with
  | zero =>
    rw [if_neg (by simp)]
    exact sees_pure _
  | succ count ih =>
    rw [akmLoop]
    split
    · next hin =>
      refine (lookSae_sees hok hin).bind ?_
      by_cases hsae : slice (bytesAt mem ie n) off 4 ∈ saeSuites
      · rw [if_pos (by simpa using hsae), if_pos ⟨0, Nat.succ_pos _, hin, hsae⟩]
        exact sees_pure _
      · rw [if_neg (by simpa using hsae)]
        have hshift : (∃ j < count + 1, off + 4 * j + 4 ≤ n ∧
            slice (bytesAt mem ie n) (off + 4 * j) 4 ∈ saeSuites) ↔
            ∃ j < count, off + 4 + 4 * j + 4 ≤ n ∧
              slice (bytesAt mem ie n) (off + 4 + 4 * j) 4 ∈ saeSuites := by
          constructor
          · rintro ⟨j, hj, hle, hmem⟩
            cases j with
            | zero => exact absurd hmem hsae
            | succ j =>
              have heq : off + 4 * (j + 1) = off + 4 + 4 * j := by ring
              exact ⟨j, by omega, by omega, heq ▸ hmem⟩
          · rintro ⟨j, hj, hle, hmem⟩
            have heq : off + 4 * (j + 1) = off + 4 + 4 * j := by ring
            exact ⟨j + 1, by omega, by omega, heq.symm ▸ hmem⟩
        simp only [hshift]
        exact ih
    · next hout =>
      rw [if_neg]
      · exact sees_pure _
      · rintro ⟨j, -, hle, -⟩
        omega

theorem rsnSecurity_sees (ieLen : UInt8) (hok : ∀ i < ieLen.toNat, ok (ie + i)) :
    Sees mem ok (rsnSecurity ie ieLen) (rsnClass (bytesAt mem ie ieLen.toNat)) := by
  rw [rsnClass, length_bytesAt]
  by_cases hshort : ieLen.toNat < 8
  · simp only [rsnSecurity, hshort, if_true]
    rw [if_neg (by omega)]
    exact sees_pure _
  · simp only [rsnSecurity, hshort, if_false]
    refine (sees_lookLe16 (by omega) hok).bind ?_
    have hoff : (2 + 4 + (2 + le16 (bytesAt mem ie ieLen.toNat) 6 * 4)) % 2 ^ 16 =
        akmOffset (bytesAt mem ie ieLen.toNat) % 2 ^ 16 := by
      congr 1
      rw [akmOffset]
      ring
    show Sees mem ok (if (2 + 4 + (2 + le16 (bytesAt mem ie ieLen.toNat) 6 * 4)) % 2 ^ 16 + 2 >
      ieLen.toNat then _ else _) _
    rw [hoff]
    generalize akmOffset (bytesAt mem ie ieLen.toNat) % 2 ^ 16 = off
    split
    · next hout =>
      rw [if_neg]
      · exact sees_pure _
      · rintro ⟨-, j, -, hle, -⟩
        rw [length_bytesAt] at hle
        omega
    · next hin =>
      refine (sees_lookLe16 (by omega) hok).bind ?_
      have hloop : Sees mem ok (akmLoop ie ieLen.toNat (le16 (bytesAt mem ie ieLen.toNat) off)
          (off + 2)) _ := akmLoop_sees hok _
      simpa [SaeListed, Nat.le_of_not_lt hshort] using hloop

/-- What is said of the class of a body: WPA3 for an SAE suite where the counts say, else WPA2. -/
def ReadsRsn (body : List UInt8) (security : StationSecurity) : Prop :=
  (security = .wpa3 ↔ SaeListed body (akmOffset body)) ∧
    (¬ SaeListed body (akmOffset body) → security = .wpa2)

instance (body : List UInt8) (security : StationSecurity) : Decidable (ReadsRsn body security) :=
  inferInstanceAs (Decidable (_ ∧ (_ → _)))

/-- The class is right unless the pairwise suites carry the offset beyond a halfword, to where the
body reads as a list with an SAE suite. -/
theorem rsn_security_iff (mem : ℕ → UInt8) (ie : ℕ) (ieLen : UInt8) :
    ReadsRsn (bytesAt mem ie ieLen.toNat) (valueOf mem (rsnSecurity ie ieLen)) ↔
      ¬ (8 ≤ ieLen.toNat ∧ 2 ^ 16 ≤ akmOffset (bytesAt mem ie ieLen.toNat) ∧
        SaeListed (bytesAt mem ie ieLen.toNat)
          (akmOffset (bytesAt mem ie ieLen.toNat) % 2 ^ 16)) := by
  have hvalue := (@rsnSecurity_sees mem (fun _ => True) ie ieLen fun _ _ => trivial).value
  rw [hvalue, ReadsRsn, rsnClass]
  have hlt := ieLen.toNat_lt
  have hlength := length_bytesAt mem ie ieLen.toNat
  generalize bytesAt mem ie ieLen.toNat = body at hlength
  rw [hlength]
  have hoff : 8 ≤ akmOffset body := by
    rw [akmOffset]
    omega
  -- a list inside the body starts before its end
  have hin : SaeListed body (akmOffset body) →
      8 ≤ ieLen.toNat ∧ akmOffset body % 2 ^ 16 = akmOffset body ∧ akmOffset body < 2 ^ 16 := by
    rintro ⟨j, -, hle, -⟩
    exact ⟨by omega, Nat.mod_eq_of_lt (by omega), by omega⟩
  by_cases hwraps : 2 ^ 16 ≤ akmOffset body
  · have hnot : ¬ SaeListed body (akmOffset body) := fun h => by
      have hbound := (hin h).2.2
      omega
    by_cases hcode : 8 ≤ ieLen.toNat ∧ SaeListed body (akmOffset body % 2 ^ 16)
    · rw [if_pos hcode]
      exact iff_of_false (fun h => hnot (h.1.mp rfl)) fun h => h ⟨hcode.1, hwraps, hcode.2⟩
    · rw [if_neg hcode]
      exact iff_of_true ⟨iff_of_false (by simp) hnot, fun _ => rfl⟩ fun h => hcode ⟨h.1, h.2.2⟩
  · have hsame : akmOffset body % 2 ^ 16 = akmOffset body := Nat.mod_eq_of_lt (by omega)
    rw [hsame]
    by_cases hlisted : SaeListed body (akmOffset body)
    · rw [if_pos ⟨(hin hlisted).1, hlisted⟩]
      exact iff_of_true ⟨iff_of_true rfl hlisted, fun h => absurd hlisted h⟩ fun h => hwraps h.2.1
    · rw [if_neg fun h => hlisted h.2]
      exact iff_of_true ⟨iff_of_false (by simp) hlisted, fun _ => rfl⟩ fun h => hwraps h.2.1

/-- Version 1, the group suite GCMP-128 and 16382 pairwise suites: the version is read as the count
of the AKM suites, and the group suite as SAE. -/
theorem rsn_security_wraps : ¬ ∀ (mem : ℕ → UInt8) (ie : ℕ) (ieLen : UInt8),
    ReadsRsn (bytesAt mem ie ieLen.toNat) (valueOf mem (rsnSecurity ie ieLen)) := by
  intro h
  have hfails := h (bytesMemory [1, 0, 0x00, 0x0F, 0xAC, 8, 0xFE, 0x3F]) 0 8
  revert hfails
  decide

end Rsn

/-! ## The security of a frame -/

/-- Whether it is the WPA element, a vendor's one with the OUI 00-50-F2 and type 1. -/
def announcesWpa (e : Element) : Bool := e.id = 221 ∧ e.body.take 4 = wpaOui

/-- The RSN element decides, then the WPA element, then the privacy bit. -/
def securityOf (es : List Element) (capability : ℕ) : StationSecurity :=
  match es.find? (fun e => e.id = 48) with
  | some rsn => rsnClass rsn.body
  | none =>
    if es.any announcesWpa then .wpa else if capability.testBit 4 then .wep else .open

section Frames

variable {mem : ℕ → UInt8} {ok : ℕ → Prop} {ies n : ℕ}

theorem findIe_sees (hok : ∀ i < n, ok (ies + i)) (id : UInt8) :
    ∃ r, Sees mem ok (findIe ies n id) r ∧
      Found mem ies n r ((elements (bytesAt mem ies n)).find? fun e => e.id = id) := by
  have hwanted : ∀ p e, StandsAt mem ies n p e →
      Sees mem ok (pure (decide (e.id = id)) : Reads Bool) (decide (e.id = id)) :=
    fun _ _ _ => sees_pure _
  simpa [findIe] using walkElements_sees (fun eltId _ _ => pure (eltId = id))
    (fun e => e.id = id) hok hwanted (Nat.le_add_left n 0)

theorem isWpa_sees (hok : ∀ i < n, ok (ies + i)) {p : ℕ} {e : Element}
    (h : StandsAt mem ies n p e) :
    Sees mem ok (isWpa e.id (UInt8.ofNat e.body.length) p) (announcesWpa e) := by
  rw [isWpa, e.toNat_length]
  by_cases hlong : e.id = 221 ∧ e.body.length ≥ 4
  · rw [if_pos hlong]
    have hinside : ∀ i < 4, ok (p + 2 + i) := by
      intro i hi
      rw [Nat.add_assoc]
      exact h.inside hok (by omega)
    have hfront : bytesAt mem (p + 2) 4 = e.body.take 4 := by
      rw [← h.body_eq, take_bytesAt hlong.2]
    refine (sees_lookBytes hinside).bind ?_
    rw [hfront]
    have hvalue : announcesWpa e = decide (e.body.take 4 = wpaOui) := by
      simp [announcesWpa, hlong.1]
    rw [hvalue]
    exact sees_pure _
  · rw [if_neg hlong]
    have hvalue : announcesWpa e = false := by
      rw [announcesWpa, decide_eq_false_iff_not]
      rintro ⟨hid, hoi⟩
      have hlength := congrArg List.length hoi
      simp only [List.length_take, wpaOui, List.length_cons, List.length_nil] at hlength
      exact hlong ⟨hid, by omega⟩
    rw [hvalue]
    exact sees_pure _

theorem parseSecurity_sees (hok : ∀ i < n, ok (ies + i)) (capability : ℕ) :
    Sees mem ok (parseSecurity ies n capability)
      (securityOf (elements (bytesAt mem ies n)) capability) := by
  obtain ⟨r, hrsn, hfound⟩ := findIe_sees hok 48
  refine hrsn.bind ?_
  rw [securityOf]
  cases hfind : (elements (bytesAt mem ies n)).find? (fun e => e.id = 48) with
  | some rsn =>
    rw [hfind] at hfound
    cases r with
    | none => exact hfound.elim
    | some p =>
      have hstands : StandsAt mem ies n p rsn := hfound
      have hlength : (mem (p + 1)).toNat = rsn.body.length := by
        rw [hstands.length_eq, rsn.toNat_length]
      refine sees_look_bind (hstands.inside hok (by omega)) ?_
      have hinside : ∀ i < (mem (p + 1)).toNat, ok (p + 2 + i) := by
        intro i hi
        rw [Nat.add_assoc]
        exact hstands.inside hok (by omega)
      have hclass : Sees mem ok (rsnSecurity (p + 2) (mem (p + 1))) _ := rsnSecurity_sees _ hinside
      rwa [hlength, hstands.body_eq] at hclass
  | none =>
    rw [hfind] at hfound
    cases r with
    | some p => exact hfound.elim
    | none =>
      obtain ⟨r, hwalk, hfound⟩ := walkElements_sees isWpa announcesWpa hok
        (fun p e hstands => isWpa_sees hok hstands) (Nat.le_add_left n 0)
      refine hwalk.bind ?_
      rw [List.drop_zero] at hfound
      cases hwpa : (elements (bytesAt mem ies n)).find? announcesWpa with
      | some e =>
        rw [hwpa] at hfound
        cases r with
        | none => exact hfound.elim
        | some p =>
          have hany : (elements (bytesAt mem ies n)).any announcesWpa = true :=
            List.any_eq_true.mpr ⟨e, List.mem_of_find?_eq_some hwpa, List.find?_some hwpa⟩
          rw [if_pos hany]
          exact sees_pure _
      | none =>
        rw [hwpa] at hfound
        cases r with
        | some p => exact hfound.elim
        | none =>
          have hany : ¬ (elements (bytesAt mem ies n)).any announcesWpa = true := by
            simpa [List.find?_eq_none] using hwpa
          rw [if_neg hany]
          exact sees_pure _

end Frames

end BekenCam.Scan
