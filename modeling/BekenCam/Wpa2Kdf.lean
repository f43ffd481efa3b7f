import BekenCam.ByteOrder
import BekenCam.Wpa2Sha1

/-!
# From the PMK to the keys of the link

The 802.11i PRF and the pairwise transient key. The standard sorts the addresses and the
nonces as numbers; the code sorts them with `memcmp`, and both give one key.
-/
namespace BekenCam.Wpa2

@[simp] abbrev wpa2PmkLen : ℕ := 32

/-- KCK 0..15, KEK 16..31, TK 32..47. -/
@[simp] abbrev wpa2PtkLen : ℕ := 48

/-- The iterations behind the first of one block. -/
def pbkdf2Rounds (base : HmacSha1) (u t : List UInt8) : ℕ → List UInt8
  | 0 => t
  | n + 1 =>
    let u := hmacSha1Final (hmacSha1Update base u)
    pbkdf2Rounds base u (List.zipWith (· ^^^ ·) t u) n

def pbkdf2Loop (base : HmacSha1) (salt : List UInt8) (iterations : ℕ) (block : UInt32)
    (outLen : ℕ) : List UInt8 :=
  if outLen = 0 then []
  else
    let u := hmacSha1Final (hmacSha1Update base (salt ++ be32Bytes block))
    let t := pbkdf2Rounds base u u (iterations - 1)
    let n := min outLen 20
    t.take n ++ pbkdf2Loop base salt iterations (block + 1) (outLen - n)
termination_by outLen

/-- Nothing when the salt does not fit the work buffer. -/
def wpa2Pbkdf2Sha1 (pass salt : List UInt8) (iterations outLen : ℕ) : Option (List UInt8) :=
  if salt.length > 32 ∨ iterations = 0 then none
  else some (pbkdf2Loop (hmacSha1Begin pass) salt iterations 1 outLen)

/-- The passphrase is a C string; without one it is empty. -/
def wpa2Pmk (passphrase ssid : List UInt8) : Option (List UInt8) :=
  let n := passphrase.length
  if n < 8 ∨ n > 63 ∨ ssid.length < 1 ∨ ssid.length > 32 then none
  else if passphrase.any fun b => b < 32 || b > 126 then none
  else wpa2Pbkdf2Sha1 passphrase ssid 4096 wpa2PmkLen

/-- The loop of `wpa2_prf`; the counter is one byte. -/
def prfLoop (base : HmacSha1) (buf : List UInt8) (counter : UInt8) (outLen : ℕ) : List UInt8 :=
  if outLen = 0 then []
  else
    let d := hmacSha1Final (hmacSha1Update base (buf ++ [counter]))
    let c := min outLen 20
    d.take c ++ prfLoop base buf (counter + 1) (outLen - c)
termination_by outLen

/-- Nothing when label and data do not fit the 128-byte work buffer. -/
def wpa2Prf (key label data : List UInt8) (outLen : ℕ) : Option (List UInt8) :=
  if label.length + 1 + data.length + 1 > 128 then none
  else some (prfLoop (hmacSha1Begin key) (label ++ 0 :: data) 0 outLen)

theorem wpa2Pmk_isSome_iff {passphrase ssid : List UInt8} : (wpa2Pmk passphrase ssid).isSome ↔
    (8 ≤ passphrase.length ∧ passphrase.length ≤ 63) ∧ (1 ≤ ssid.length ∧ ssid.length ≤ 32) ∧
      ∀ b ∈ passphrase, 32 ≤ b ∧ b ≤ 126 := by
  unfold wpa2Pmk wpa2Pbkdf2Sha1
  dsimp only
  split_ifs with hsize hany hsalt
  · simp only [Option.isSome_none, Bool.false_eq_true, false_iff]
    omega
  · simp only [Option.isSome_none, Bool.false_eq_true, false_iff]
    rintro ⟨-, -, hall⟩
    obtain ⟨b, hb, hbad⟩ := List.any_eq_true.mp hany
    rw [Bool.or_eq_true, decide_eq_true_eq, decide_eq_true_eq] at hbad
    rcases hbad with h | h
    · exact absurd h (UInt8.not_lt.mpr (hall b hb).1)
    · exact absurd h (UInt8.not_lt.mpr (hall b hb).2)
  · have hlong := hsalt.resolve_right not_false
    omega
  · refine ⟨fun _ => ⟨by omega, by omega, fun b hb => ?_⟩, fun _ => rfl⟩
    rw [Bool.not_eq_true, List.any_eq_false] at hany
    have hgood := hany b hb
    rw [Bool.or_eq_true, decide_eq_true_eq, decide_eq_true_eq, not_or, UInt8.not_lt,
      UInt8.not_lt] at hgood
    exact hgood

theorem length_prfLoop (base : HmacSha1) (buf : List UInt8) (counter : UInt8) (outLen : ℕ) :
    (prfLoop base buf counter outLen).length = outLen := by
  induction outLen using Nat.strong_induction_on generalizing counter with
  | _ outLen ih =>
    rw [prfLoop]
    split_ifs with h
    · rw [List.length_nil, h]
    · rw [List.length_append, ih _ (by omega), List.length_take, length_hmacSha1Final]
      omega

/-- "Pairwise key expansion". -/
def pairwiseLabel : List UInt8 :=
  "Pairwise key expansion".toList.map fun c => UInt8.ofNat c.toNat

theorem length_pairwiseLabel : pairwiseLabel.length = 22 := by decide

/-- Cannot fail: the label and the 76 bytes fit the buffer. -/
theorem wpa2Prf_isSome {key data : List UInt8} (h : data.length = 76) (outLen : ℕ) :
    (wpa2Prf key pairwiseLabel data outLen).isSome := by
  rw [wpa2Prf, length_pairwiseLabel, h]
  rfl

def wpa2PtkData (aa spa : Octets 6) (anonce snonce : Octets 32) : Octets 76 :=
  let a := if memcmp aa.val spa.val = .lt then (aa, spa) else (spa, aa)
  let n := if memcmp anonce.val snonce.val = .lt then (anonce, snonce) else (snonce, anonce)
  ⟨a.1.val ++ a.2.val ++ n.1.val ++ n.2.val,
    by simp [a.1.property, a.2.property, n.1.property, n.2.property]⟩

def wpa2Ptk (pmk : Octets wpa2PmkLen) (aa spa : Octets 6) (anonce snonce : Octets 32) :
    Octets wpa2PtkLen :=
  let data := wpa2PtkData aa spa anonce snonce
  let ptk := wpa2Prf pmk.val pairwiseLabel data.val wpa2PtkLen
  ⟨ptk.get (wpa2Prf_isSome data.property _), by
    simp only [ptk, wpa2Prf, length_pairwiseLabel, data.property]
    exact length_prfLoop _ _ _ _⟩

/-! ## The standard's formula -/

/-- The smaller of two byte strings taken as numbers. -/
def octetsMin {n : ℕ} (a b : Octets n) : Octets n :=
  if beValue a.val ≤ beValue b.val then a else b

def octetsMax {n : ℕ} (a b : Octets n) : Octets n :=
  if beValue a.val ≤ beValue b.val then b else a

/-- PRF-384 of the standard: three hashes, cut to 48 bytes. -/
def prf384 (key label data : List UInt8) : List UInt8 :=
  ((List.range 3).flatMap fun i => hmacSha1 key (label ++ 0 :: data ++ [UInt8.ofNat i])).take 48

theorem length_prf384 (key label data : List UInt8) : (prf384 key label data).length = 48 := by
  have hone : ∀ m, (hmacSha1 key m).length = 20 := fun m => length_hmacSha1Final _
  simp [prf384, hone, List.range_succ]

/-- What the standard expands, the smaller one first. -/
def ieeePtkData (aa spa : Octets 6) (anonce snonce : Octets 32) : List UInt8 :=
  (octetsMin aa spa).val ++ (octetsMax aa spa).val ++
    (octetsMin anonce snonce).val ++ (octetsMax anonce snonce).val

/-- The pairwise transient key of 802.11 for two parties. -/
def ieeePtk (pmk : Octets wpa2PmkLen) (aa spa : Octets 6) (anonce snonce : Octets 32) :
    Octets wpa2PtkLen :=
  ⟨prf384 pmk.val pairwiseLabel (ieeePtkData aa spa anonce snonce), length_prf384 _ _ _⟩

theorem octetsMin_comm {n : ℕ} (a b : Octets n) : octetsMin a b = octetsMin b a := by
  have hlen : a.val.length = b.val.length := a.property.trans b.property.symm
  unfold octetsMin
  split_ifs with h1 h2 h2
  · exact Subtype.ext (beValue_inj hlen (by omega))
  · rfl
  · rfl
  · omega

theorem octetsMax_comm {n : ℕ} (a b : Octets n) : octetsMax a b = octetsMax b a := by
  have hlen : a.val.length = b.val.length := a.property.trans b.property.symm
  unfold octetsMax
  split_ifs with h1 h2 h2
  · exact Subtype.ext (beValue_inj hlen (by omega)).symm
  · rfl
  · rfl
  · omega

/-- Either side gets the same key. -/
theorem ieeePtk_comm (pmk : Octets wpa2PmkLen) (aa spa : Octets 6) (anonce snonce : Octets 32) :
    ieeePtk pmk aa spa anonce snonce = ieeePtk pmk spa aa snonce anonce := by
  have hdata : ieeePtkData aa spa anonce snonce = ieeePtkData spa aa snonce anonce := by
    unfold ieeePtkData
    rw [octetsMin_comm aa, octetsMax_comm aa, octetsMin_comm anonce, octetsMax_comm anonce]
  simp only [ieeePtk, hdata]

/-- Sorting with `memcmp` is sorting by value. -/
theorem memcmp_sorts {n : ℕ} (a b : Octets n) :
    (if memcmp a.val b.val = .lt then (a, b) else (b, a)) = (octetsMin a b, octetsMax a b) := by
  have hlen : a.val.length = b.val.length := a.property.trans b.property.symm
  unfold octetsMin octetsMax
  rcases Nat.lt_trichotomy (beValue a.val) (beValue b.val) with hlt | heq | hgt
  · rw [if_pos ((memcmp_lt_iff hlen).mpr hlt), if_pos hlt.le, if_pos hlt.le]
  · obtain rfl : a = b := Subtype.ext (beValue_inj hlen heq)
    simp
  · rw [if_neg (by rw [memcmp_lt_iff hlen]; omega), if_neg (by omega), if_neg (by omega)]

/-- A loop that writes one hash after the other cuts the hashes to the length that is asked for. -/
theorem hashLoop_eq_take {κ : Type} {next : κ → κ} {hash : κ → List UInt8}
    {loop : κ → ℕ → List UInt8} (hhash : ∀ k, (hash k).length = 20)
    (hloop : ∀ k n, loop k n =
      if n = 0 then [] else (hash k).take (min n 20) ++ loop (next k) (n - min n 20))
    (m : ℕ) (k : κ) (n : ℕ) (h : n ≤ 20 * m) :
    loop k n = ((List.range m).flatMap fun i => hash (next^[i] k)).take n := by
  induction m generalizing k n with
  | zero =>
    obtain rfl : n = 0 := by omega
    rw [hloop, if_pos rfl, List.take_zero]
  | succ m ih =>
    have hfirst : hash (next^[0] k) = hash k := rfl
    have hrest : n - min n 20 = n - 20 := by omega
    rw [List.range_succ_eq_map, List.flatMap_cons, List.flatMap_map, List.take_append, hfirst,
      hhash, hloop]
    simp only [Function.iterate_succ_apply]
    rw [← ih (next k) (n - 20) (by omega)]
    split_ifs with hz
    · rw [hz, List.take_zero, Nat.zero_sub, hloop, if_pos rfl, List.append_nil]
    · rw [hrest]
      congr 1
      rcases Nat.le_total n 20 with hle | hge
      · rw [Nat.min_eq_left hle]
      · rw [Nat.min_eq_right hge, List.take_of_length_le (by rw [hhash]),
          List.take_of_length_le (by rw [hhash]; exact hge)]

/-- The loop cuts the concatenated hashes to the length that is asked for. -/
theorem prfLoop_eq_take (base : HmacSha1) (buf : List UInt8) (m : ℕ) (counter : UInt8) (outLen : ℕ)
    (h : outLen ≤ 20 * m) : prfLoop base buf counter outLen = ((List.range m).flatMap fun i =>
      hmacSha1Final (hmacSha1Update base (buf ++ [counter + UInt8.ofNat i]))).take outLen := by
  have hcounter : ∀ i, (· + 1)^[i] counter = counter + UInt8.ofNat i := by
    intro i
    induction i with
    | zero => exact (UInt8.add_zero counter).symm
    | succ i ih =>
      rw [Function.iterate_succ_apply', ih, UInt8.add_assoc, UInt8.ofNat_add]
      rfl
  have hloop : ∀ (k : UInt8) n, prfLoop base buf k n = if n = 0 then [] else
      (hmacSha1Final (hmacSha1Update base (buf ++ [k]))).take (min n 20) ++
        prfLoop base buf (k + 1) (n - min n 20) := fun k n => by rw [prfLoop]
  have htake := hashLoop_eq_take (fun _ => length_hmacSha1Final _) hloop m counter outLen h
  simp only [hcounter] at htake
  exact htake

/-- The code derives the key of the standard. -/
theorem wpa2Ptk_eq_ieeePtk (pmk : Octets wpa2PmkLen) (aa spa : Octets 6)
    (anonce snonce : Octets 32) :
    wpa2Ptk pmk aa spa anonce snonce = ieeePtk pmk aa spa anonce snonce := by
  set data := wpa2PtkData aa spa anonce snonce with hdata
  have hsorted : data.val = ieeePtkData aa spa anonce snonce := by
    simp only [hdata, wpa2PtkData, memcmp_sorts, ieeePtkData]
  have hprf : wpa2Prf pmk.val pairwiseLabel data.val wpa2PtkLen =
      some (prfLoop (hmacSha1Begin pmk.val) (pairwiseLabel ++ 0 :: data.val) 0 48) := by
    rw [wpa2Prf, length_pairwiseLabel, data.property]
    rfl
  have hptk : (wpa2Ptk pmk aa spa anonce snonce).val =
      prfLoop (hmacSha1Begin pmk.val) (pairwiseLabel ++ 0 :: data.val) 0 48 := by
    simp only [wpa2Ptk, ← hdata, hprf, Option.get_some]
  apply Subtype.ext
  rw [hptk, prfLoop_eq_take _ _ 3 _ _ (by decide), hsorted]
  simp only [UInt8.zero_add]
  rfl

end BekenCam.Wpa2
