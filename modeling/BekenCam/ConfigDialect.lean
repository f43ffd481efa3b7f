import BekenCam.ConfigPatch
import BekenCam.ConfigStorage
import BekenCam.ConfigTokens

/-!
# The dialect of a body

What a body may say, member by member, and what each member writes. `updates` accepts exactly the
objects of this dialect, and gives what their members write from the first to the last.
-/
namespace BekenCam.Settings

open FlashKv Json ReadM JsonSyntax
open Http (ascii)

/-! ## Members -/

def hexPair (high low : UInt8) : Option UInt8 := do
  return (← hexValue high) * 16 + (← hexValue low)

/-- Six bytes as pairs of digits with a colon between them: 17 characters. -/
def IsMac (s mac : List UInt8) : Prop :=
  ∃ pairs : List (UInt8 × UInt8), pairs.length = 6 ∧
    s = [colon].intercalate (pairs.map fun p => [p.1, p.2]) ∧
      pairs.mapM (fun p => hexPair p.1 p.2) = some mac

def fieldNames : List (List UInt8 × Key) :=
  [(ascii "mac", .mac), (ascii "ap_ssid", .apSsid), (ascii "ap_channel", .apChannel),
    (ascii "ap_enabled", .apEnabled), (ascii "sta_ssid", .staSsid),
    (ascii "sta_password", .staPassword), (ascii "sta_enabled", .staEnabled),
    (ascii "led_enabled", .ledEnabled), (ascii "telnet_enabled", .telnetEnabled)]

/-- The field a key names. -/
def fieldOf (key : List UInt8) : Option Key := fieldNames.lookup key

/-- What a value writes. A field takes a value of its own type that fits; a key that names no field
takes any value and writes nothing. -/
inductive Writes : Option Key → Value → List Update → Prop
  | mac {s mac : List UInt8} : IsMac s mac → Writes (some .mac) (.string s) [.mac mac]
  | apSsid {s : List UInt8} : s.length ≤ 32 →
      Writes (some .apSsid) (.string s) [.apSsid (s ++ [0])]
  | apChannel {n : ℕ} : n ≤ 255 →
      Writes (some .apChannel) (.number n) [.apChannel (UInt8.ofNat n)]
  | apEnabled (b : Bool) : Writes (some .apEnabled) (.bool b) [.apEnabled b]
  | staSsid {s : List UInt8} : s.length ≤ 32 →
      Writes (some .staSsid) (.string s) [.staSsid (s ++ [0])]
  | staPassword {s : List UInt8} : s.length ≤ 63 →
      Writes (some .staPassword) (.string s) [.staPassword (s ++ [0])]
  | staEnabled (b : Bool) : Writes (some .staEnabled) (.bool b) [.staEnabled b]
  | ledEnabled (b : Bool) : Writes (some .ledEnabled) (.bool b) [.ledEnabled b]
  | telnetEnabled (b : Bool) : Writes (some .telnetEnabled) (.bool b) [.telnetEnabled b]
  | unknown (val : Value) : Writes none val []

/-- A member of the dialect, and what it writes. -/
structure MemberWrites (m : JsonSyntax.Member) (us : List Update) : Prop where
  gaps : m.Gaps
  writes : ∃ key val, stringBytes m.key = some key ∧ key.length ≤ 23 ∧
    m.value.value = some val ∧ Writes (fieldOf key) val us

/-- An object of the dialect, and what its members write from the first to the last. -/
structure DocumentWrites (d : Document) (us : List Update) : Prop where
  gaps : d.Gaps
  members : ∃ uss, List.Forall₂ MemberWrites d.members uss ∧ us = uss.flatten

/-! ## The address -/

/-- Guards on the elements of a list. -/
theorem mapM_guard {α β : Type} {p : α → Prop} [DecidablePred p] {g : α → Option β} (l : List α)
    {bs : List β} : l.mapM (fun a => if p a then g a else none) = some bs ↔
      (∀ a ∈ l, p a) ∧ l.mapM g = some bs := by
  induction l generalizing bs with
  | nil => simp
  | cons a l ih =>
    rw [List.mapM_cons, List.mapM_cons]
    simp only [Option.bind_eq_bind, Option.bind_eq_some_iff, ih, List.forall_mem_cons]
    by_cases hp : p a
    · simp only [hp, true_and, if_true]
      constructor
      · rintro ⟨b, hb, bs', ⟨hl, hbs'⟩, hbs⟩
        exact ⟨hl, b, hb, bs', hbs', hbs⟩
      · rintro ⟨hl, b, hb, bs', hbs', hbs⟩
        exact ⟨b, hb, bs', ⟨hl, hbs'⟩, hbs⟩
    · simp [hp]

/-- Byte `i` of the address in its text. -/
def pairAt (text : List UInt8) (i : ℕ) : UInt8 × UInt8 :=
  (text.getD (i * 3) 0, text.getD (i * 3 + 1) 0)

theorem macByte_eq (text : List UInt8) (i : ℕ) :
    macByte text i = if i < 5 → text.getD (i * 3 + 2) 0 = colon then
      hexPair (pairAt text i).1 (pairAt text i).2 else none := by
  unfold macByte hexPair pairAt
  cases hexValue (text.getD (i * 3) 0) with
  | none => simp
  | some high =>
    cases hexValue (text.getD (i * 3 + 1) 0) with
    | none => simp
    | some low =>
      by_cases hsep : i < 5 ∧ text.getD (i * 3 + 2) 0 ≠ colon
      · have hno : ¬(i < 5 → text.getD (i * 3 + 2) 0 = colon) := fun h => hsep.2 (h hsep.1)
        rw [if_neg hno]
        simp only [Option.bind_eq_bind, Option.bind_some, if_pos hsep]
      · have hyes : i < 5 → text.getD (i * 3 + 2) 0 = colon := by
          intro hi
          by_contra hc
          exact hsep ⟨hi, hc⟩
        rw [if_pos hyes]
        simp only [Option.bind_eq_bind, Option.bind_some, if_neg hsep]
        rfl

theorem mapM_macByte_iff {s mac : List UInt8} (hlen : s.length = 17) :
    (List.range 6).mapM (macByte (s ++ [0])) = some mac ↔ IsMac s mac := by
  have hpairs : ∀ text : List UInt8, (List.range 6).mapM
      (fun i => hexPair (pairAt text i).1 (pairAt text i).2) =
        ((List.range 6).map (pairAt text)).mapM fun p => hexPair p.1 p.2 := by
    intro text
    rw [List.mapM_map]
    rfl
  rw [funext (macByte_eq (s ++ [0])), mapM_guard, hpairs]
  constructor
  · rintro ⟨hsep, hmac⟩
    refine ⟨_, rfl, ?_, hmac⟩
    match s, hlen with
    | [a, a', x, b, b', y, c, c', z, d, d', u, e, e', v, f, f'], _ =>
      have hx : x = colon := hsep 0 (by decide) (by decide)
      have hy : y = colon := hsep 1 (by decide) (by decide)
      have hz : z = colon := hsep 2 (by decide) (by decide)
      have hu : u = colon := hsep 3 (by decide) (by decide)
      have hv : v = colon := hsep 4 (by decide) (by decide)
      rw [hx, hy, hz, hu, hv]
      rfl
  · rintro ⟨pairs, hsix, rfl, hmac⟩
    match pairs, hsix with
    | [(a, a'), (b, b'), (c, c'), (d, d'), (e, e'), (f, f')], _ =>
      refine ⟨?_, hmac⟩
      intro i hi hlt
      have hi' : i < 5 := hlt
      interval_cases i <;> rfl

theorem IsMac.length {s mac : List UInt8} (h : IsMac s mac) : s.length = 17 := by
  obtain ⟨pairs, hsix, rfl, -⟩ := h
  match pairs, hsix with
  | [_, _, _, _, _, _], _ => rfl

theorem takes_readMac_iff {mac r r' : List UInt8} :
    Takes readMac r mac r' ↔ ∃ gap cs s, IsGap gap ∧ r = gap ++ (stringText cs ++ r') ∧
      stringBytes cs = some s ∧ IsMac s mac := by
  unfold readMac
  rw [takes_bind]
  constructor
  · rintro ⟨text, r₁, hstring, h⟩
    obtain ⟨gap, cs, s, hgap, rfl, hs, -, rfl⟩ := takes_readString_iff.mp hstring
    rw [List.nil_append, cString_append_zero (zero_notMem_stringBytes hs)] at h
    split_ifs at h with hlen
    · exact absurd h not_takes_failure
    · split at h
      · next mac' hmac =>
        obtain ⟨rfl, rfl⟩ := takes_pure.mp h
        exact ⟨gap, cs, s, hgap, rfl, hs, (mapM_macByte_iff (not_not.mp hlen)).mp hmac⟩
      · exact absurd h not_takes_failure
  · rintro ⟨gap, cs, s, hgap, rfl, hs, hmac⟩
    have hlen := hmac.length
    refine ⟨s ++ [0], r', takes_readString_iff.mpr ⟨gap, cs, s, hgap, rfl, hs, Or.inr ?_, rfl⟩, ?_⟩
    · rw [hlen]
      decide
    · rw [cString_append_zero (zero_notMem_stringBytes hs), if_neg (not_not.mpr hlen),
        (mapM_macByte_iff hlen).mpr hmac]
      exact takes_pure.mpr ⟨rfl, rfl⟩

/-! ## One member -/

/-- The reader of the field a key names. -/
def readFieldOf : Option Key → ReadM (List Update)
  | some .mac => do return [.mac (← readMac)]
  | some .apSsid => do return [.apSsid (← readString (some (configSsidMax + 1)))]
  | some .apChannel => do
    let channel ← readNumber
    if channel > 255 then failure else return [.apChannel channel.toUInt8]
  | some .apEnabled => do return [.apEnabled (← readBool)]
  | some .staSsid => do return [.staSsid (← readString (some (configSsidMax + 1)))]
  | some .staPassword => do return [.staPassword (← readString (some (configPasswordMax + 1)))]
  | some .staEnabled => do return [.staEnabled (← readBool)]
  | some .ledEnabled => do return [.ledEnabled (← readBool)]
  | some .telnetEnabled => do return [.telnetEnabled (← readBool)]
  | none => do
    skipValue
    return []

theorem lookup_cons_eq {α β : Type} [BEq α] [LawfulBEq α] [DecidableEq α] (key k : α) (v : β)
    (l : List (α × β)) :
    ((k, v) :: l).lookup key = if key = k then some v else l.lookup key := by
  rw [List.lookup_cons]
  by_cases h : key = k
  · simp [h]
  · simp [h, beq_false_of_ne h]

theorem readUpdate_eq (key : List UInt8) : readUpdate key = readFieldOf (fieldOf key) := by
  unfold readUpdate fieldOf fieldNames
  simp only [lookup_cons_eq, List.lookup_nil, apply_ite readFieldOf]
  rfl

/-- White space and one value in front of `r'`, which writes `us`. -/
def ValueTaken (field : Option Key) (r : List UInt8) (us : List Update) (r' : List UInt8) : Prop :=
  ∃ gap v val, IsGap gap ∧ r = gap ++ (Scalar.text v ++ r') ∧ v.value = some val ∧
    Writes field val us ∧ Ends v r'

section Fields

variable {r r' : List UInt8} {us : List Update}

theorem takes_update_iff {α : Type} {read : ReadM α} {u : α → Update} :
    Takes (do return [u (← read)]) r us r' ↔ ∃ a, Takes read r a r' ∧ [u a] = us := by
  rw [takes_bind]
  constructor
  · rintro ⟨a, r₁, h, hus⟩
    obtain ⟨rfl, rfl⟩ := takes_pure.mp hus
    exact ⟨a, h, rfl⟩
  · rintro ⟨a, h, rfl⟩
    exact ⟨a, r', h, takes_pure.mpr ⟨rfl, rfl⟩⟩

/-- A field that holds a string of at most `n` bytes. -/
theorem takes_stringField {field : Key} {n : ℕ} {u : List UInt8 → Update}
    (hwrites : ∀ val us, Writes (some field) val us ↔
      ∃ s : List UInt8, s.length ≤ n ∧ val = .string s ∧ us = [u (s ++ [0])]) :
    Takes (do return [u (← readString (some (n + 1)))]) r us r' ↔
      ValueTaken (some field) r us r' := by
  rw [takes_update_iff]
  constructor
  · rintro ⟨text, hstring, rfl⟩
    obtain ⟨gap, cs, s, hgap, rfl, hs, hfit, rfl⟩ := takes_readString_iff.mp hstring
    refine ⟨gap, .string cs, .string s, hgap, rfl, Scalar.value_eq_string.mpr ⟨cs, rfl, hs⟩,
      (hwrites _ _).mpr ⟨s, ?_, rfl, rfl⟩, trivial⟩
    rcases hfit with rfl | hfit
    · exact Nat.zero_le n
    · rw [List.length_nil, Nat.zero_add] at hfit
      omega
  · rintro ⟨gap, v, val, hgap, rfl, hval, hw, -⟩
    obtain ⟨s, hfit, rfl, rfl⟩ := (hwrites _ _).mp hw
    obtain ⟨cs, rfl, hs⟩ := Scalar.value_eq_string.mp hval
    refine ⟨s ++ [0], takes_readString_iff.mpr ⟨gap, cs, s, hgap, rfl, hs, Or.inr ?_, rfl⟩, rfl⟩
    rw [List.length_nil, Nat.zero_add]
    omega

theorem takes_boolField {field : Key} {u : Bool → Update}
    (hwrites : ∀ val us, Writes (some field) val us ↔ ∃ b, val = .bool b ∧ us = [u b]) :
    Takes (do return [u (← readBool)]) r us r' ↔ ValueTaken (some field) r us r' := by
  rw [takes_update_iff]
  constructor
  · rintro ⟨b, hbool, rfl⟩
    obtain ⟨gap, hgap, rfl⟩ := takes_readBool_iff.mp hbool
    exact ⟨gap, .bool b, .bool b, hgap, rfl, rfl, (hwrites _ _).mpr ⟨b, rfl, rfl⟩, trivial⟩
  · rintro ⟨gap, v, val, hgap, rfl, hval, hw, -⟩
    obtain ⟨b, rfl, rfl⟩ := (hwrites _ _).mp hw
    obtain rfl := Scalar.value_eq_bool.mp hval
    exact ⟨b, takes_readBool_iff.mpr ⟨gap, hgap, rfl⟩, rfl⟩

theorem takes_macField :
    Takes (do return [.mac (← readMac)]) r us r' ↔ ValueTaken (some .mac) r us r' := by
  rw [takes_update_iff]
  constructor
  · rintro ⟨mac, hmac, rfl⟩
    obtain ⟨gap, cs, s, hgap, rfl, hs, hmac⟩ := takes_readMac_iff.mp hmac
    exact ⟨gap, .string cs, .string s, hgap, rfl, Scalar.value_eq_string.mpr ⟨cs, rfl, hs⟩,
      .mac hmac, trivial⟩
  · rintro ⟨gap, v, val, hgap, rfl, hval, hw, -⟩
    cases hw with
    | mac hmac =>
      obtain ⟨cs, rfl, hs⟩ := Scalar.value_eq_string.mp hval
      exact ⟨_, takes_readMac_iff.mpr ⟨gap, cs, _, hgap, rfl, hs, hmac⟩, rfl⟩

theorem takes_channelField :
    Takes (readFieldOf (some .apChannel)) r us r' ↔ ValueTaken (some .apChannel) r us r' := by
  have hread : Takes (readFieldOf (some .apChannel)) r us r' ↔
      ∃ n, Takes readNumber r n r' ∧ n.toNat ≤ 255 ∧ us = [.apChannel n.toUInt8] := by
    unfold readFieldOf
    rw [takes_bind]
    constructor
    · rintro ⟨n, r₁, hnumber, h⟩
      split_ifs at h with hbig
      · exact absurd h not_takes_failure
      · obtain ⟨rfl, rfl⟩ := takes_pure.mp h
        exact ⟨n, hnumber, UInt32.le_iff_toNat_le.mp (UInt32.not_lt.mp hbig), rfl⟩
    · rintro ⟨n, hnumber, hfit, rfl⟩
      refine ⟨n, r', hnumber, ?_⟩
      rw [if_neg (UInt32.not_lt.mpr (UInt32.le_iff_toNat_le.mpr hfit))]
      exact takes_pure.mpr ⟨rfl, rfl⟩
  have hcast : ∀ n : UInt32, n.toUInt8 = UInt8.ofNat n.toNat := fun n => rfl
  rw [hread]
  constructor
  · rintro ⟨n, hnumber, hfit, rfl⟩
    obtain ⟨gap, ds, hgap, rfl, hshort, hn, hend⟩ := takes_readNumber_iff.mp hnumber
    rw [hcast, hn]
    rw [hn] at hfit
    refine ⟨gap, .number (.ofDigits ds), .number (decimal ds), hgap, ?_,
      Scalar.value_eq_number.mpr ⟨_, rfl, hshort, rfl⟩, .apChannel hfit, hend⟩
    rw [Scalar.text, Number.text_ofDigits]
  · rintro ⟨gap, v, val, hgap, rfl, hval, hw, hend⟩
    cases hw with
    | apChannel hfit =>
      obtain ⟨m, rfl, hshort, rfl⟩ := Scalar.value_eq_number.mp hval
      have hread := takes_shortNumber hgap hshort hend
      have hnat : (UInt32.ofNat (decimal m.int)).toNat = decimal m.int := by
        rw [UInt32.toNat_ofNat']
        exact Nat.mod_eq_of_lt (by omega)
      rw [Scalar.text, hshort.eq, Number.text_ofDigits]
      refine ⟨_, hread, hnat.trans_le hfit, ?_⟩
      rw [hcast, hnat]
      rfl

theorem takes_unknown :
    Takes (readFieldOf none) r us r' ↔ ValueTaken none r us r' := by
  unfold readFieldOf
  rw [takes_replace]
  constructor
  · rintro ⟨⟨⟨⟩, h⟩, rfl⟩
    obtain ⟨gap, v, val, hgap, rfl, hval, hend⟩ := takes_skipValue_iff.mp h
    exact ⟨gap, v, val, hgap, rfl, hval, .unknown val, hend⟩
  · rintro ⟨gap, v, val, hgap, rfl, hval, hw, hend⟩
    cases hw
    exact ⟨⟨(), takes_skipValue_iff.mpr ⟨gap, v, val, hgap, rfl, hval, hend⟩⟩, rfl⟩

theorem takes_readFieldOf_iff (field : Option Key) :
    Takes (readFieldOf field) r us r' ↔ ValueTaken field r us r' := by
  rcases field with _ | field
  · exact takes_unknown
  cases field with
  | mac => exact takes_macField
  | apChannel => exact takes_channelField
  | apSsid =>
    refine takes_stringField fun val us => ⟨?_, ?_⟩
    · intro hw
      cases hw with
      | apSsid hfit => exact ⟨_, hfit, rfl, rfl⟩
    · rintro ⟨s, hfit, rfl, rfl⟩
      exact .apSsid hfit
  | staSsid =>
    refine takes_stringField fun val us => ⟨?_, ?_⟩
    · intro hw
      cases hw with
      | staSsid hfit => exact ⟨_, hfit, rfl, rfl⟩
    · rintro ⟨s, hfit, rfl, rfl⟩
      exact .staSsid hfit
  | staPassword =>
    refine takes_stringField fun val us => ⟨?_, ?_⟩
    · intro hw
      cases hw with
      | staPassword hfit => exact ⟨_, hfit, rfl, rfl⟩
    · rintro ⟨s, hfit, rfl, rfl⟩
      exact .staPassword hfit
  | apEnabled =>
    refine takes_boolField fun val us => ⟨?_, ?_⟩
    · rintro ⟨b⟩
      exact ⟨_, rfl, rfl⟩
    · rintro ⟨b, rfl, rfl⟩
      exact .apEnabled b
  | staEnabled =>
    refine takes_boolField fun val us => ⟨?_, ?_⟩
    · rintro ⟨b⟩
      exact ⟨_, rfl, rfl⟩
    · rintro ⟨b, rfl, rfl⟩
      exact .staEnabled b
  | ledEnabled =>
    refine takes_boolField fun val us => ⟨?_, ?_⟩
    · rintro ⟨b⟩
      exact ⟨_, rfl, rfl⟩
    · rintro ⟨b, rfl, rfl⟩
      exact .ledEnabled b
  | telnetEnabled =>
    refine takes_boolField fun val us => ⟨?_, ?_⟩
    · rintro ⟨b⟩
      exact ⟨_, rfl, rfl⟩
    · rintro ⟨b, rfl, rfl⟩
      exact .telnetEnabled b

end Fields

theorem takes_readMemberUpdates_iff {r r' : List UInt8} {us : List Update} :
    Takes readMemberUpdates r us r' ↔ ∃ m : JsonSyntax.Member, m.after = [] ∧
      r = m.text ++ r' ∧ MemberWrites m us ∧ Ends m.value r' := by
  unfold readMemberUpdates
  rw [takes_bind]
  constructor
  · rintro ⟨text, r₁, hkey, h⟩
    obtain ⟨gap, cs, key, hgap, rfl, hkeyBytes, hfit, rfl⟩ := takes_readString_iff.mp hkey
    obtain ⟨separated, r₂, hcolon, hvalue⟩ := takes_bind.mp h
    split_ifs at hvalue with hsep
    · rw [hsep] at hcolon
      obtain ⟨gap₁, hgap₁, rfl⟩ := (takes_consume_iff (by decide)).mp hcolon
      rw [List.nil_append, cString_append_zero (zero_notMem_stringBytes hkeyBytes),
        readUpdate_eq] at hvalue
      obtain ⟨gap₂, v, val, hgap₂, rfl, hval, hw, hend⟩ := (takes_readFieldOf_iff _).mp hvalue
      refine ⟨⟨gap, cs, gap₁, gap₂, v, []⟩, rfl, by simp [JsonSyntax.Member.text],
        ⟨⟨hgap, hgap₁, hgap₂, nofun⟩, key, val, hkeyBytes, ?_, hval, hw⟩, hend⟩
      rcases hfit with rfl | hfit
      · exact Nat.zero_le _
      · rw [List.length_nil, Nat.zero_add] at hfit
        omega
    · exact absurd hvalue not_takes_failure
  · rintro ⟨⟨gap, cs, gap₁, gap₂, v, after⟩, rfl, rfl,
      ⟨⟨hgap, hgap₁, hgap₂, -⟩, key, val, hkeyBytes, hfit, hval, hw⟩, hend⟩
    have hshape : JsonSyntax.Member.text ⟨gap, cs, gap₁, gap₂, v, []⟩ ++ r' =
        gap ++ (stringText cs ++ (gap₁ ++ colon :: (gap₂ ++ (v.text ++ r')))) := by
      simp [JsonSyntax.Member.text]
    rw [hshape]
    refine ⟨key ++ [0], _, takes_readString_iff.mpr ⟨gap, cs, key, hgap, rfl, hkeyBytes,
      Or.inr ?_, rfl⟩, takes_bind.mpr ⟨true, _, (takes_consume_iff (by decide)).mpr
        ⟨gap₁, hgap₁, rfl⟩, ?_⟩⟩
    · rw [List.length_nil, Nat.zero_add]
      change key.length ≤ 23 at hfit
      omega
    · rw [if_pos rfl, cString_append_zero (zero_notMem_stringBytes hkeyBytes), readUpdate_eq]
      exact (takes_readFieldOf_iff _).mpr ⟨gap₂, v, val, hgap₂, rfl, hval, hw, hend⟩

/-! ## All members -/

theorem membersText_singleton (m : JsonSyntax.Member) : membersText [m] = m.text := by
  simp [membersText]

theorem membersText_cons (m m' : JsonSyntax.Member) (ms : List JsonSyntax.Member) :
    membersText (m :: m' :: ms) = m.text ++ comma :: membersText (m' :: ms) := by
  simp [membersText, List.intercalate]

/-- White space behind a member. -/
theorem text_after (m : JsonSyntax.Member) (hafter : m.after = []) (gap : List UInt8) :
    ({ m with after := gap } : JsonSyntax.Member).text = m.text ++ gap := by
  simp [JsonSyntax.Member.text, hafter]

theorem MemberWrites.after {m : JsonSyntax.Member} {us : List Update} (h : MemberWrites m us)
    {gap : List UInt8} (hgap : IsGap gap) : MemberWrites { m with after := gap } us :=
  ⟨⟨h.gaps.before, h.gaps.afterKey, h.gaps.beforeValue, hgap⟩, h.writes⟩

theorem MemberWrites.before {m : JsonSyntax.Member} {us : List Update} (h : MemberWrites m us)
    {gap : List UInt8} (hgap : IsGap gap) : MemberWrites { m with before := gap } us :=
  ⟨⟨hgap, h.gaps.afterKey, h.gaps.beforeValue, h.gaps.after⟩, h.writes⟩

theorem noDigit_gap {gap rest : List UInt8} {b : UInt8} (hgap : IsGap gap)
    (hb : ¬(48 ≤ b ∧ b ≤ 57)) : NoDigit (gap ++ b :: rest) := by
  cases gap with
  | nil =>
    rintro c ⟨⟩
    exact hb
  | cons g gap =>
    rintro c ⟨⟩ hc
    have hspace := hgap g List.mem_cons_self
    rw [not_isSpace_of_digit hc] at hspace
    cases hspace

theorem ends_gap {gap rest : List UInt8} {b : UInt8} (hgap : IsGap gap)
    (hb : ¬(48 ≤ b ∧ b ≤ 57)) (v : Scalar) : Ends v (gap ++ b :: rest) := by
  cases v with
  | number n => exact noDigit_gap hgap hb
  | _ => trivial

theorem takes_readMembersUpdates {fuel : ℕ} {r r' : List UInt8} {us : List Update}
    (h : Takes (readMembersUpdates fuel) r us r') :
    NoSpace r' ∧ ∃ m ms uss, r = membersText (m :: ms) ++ r' ∧
      List.Forall₂ MemberWrites (m :: ms) uss ∧ us = uss.flatten := by
  induction fuel generalizing r us with
  | zero => exact absurd h not_takes_failure
  | succ fuel ih =>
    unfold readMembersUpdates at h
    obtain ⟨us₁, r₁, hmember, hrest⟩ := takes_bind.mp h
    obtain ⟨m, hafter, rfl, hm, -⟩ := takes_readMemberUpdates_iff.mp hmember
    obtain ⟨separated, r₂, hcomma, hresult⟩ := takes_bind.mp hrest
    split_ifs at hresult with hsep
    · rw [hsep] at hcomma
      obtain ⟨gap, hgap, rfl⟩ := (takes_consume_iff (by decide)).mp hcomma
      obtain ⟨more, r₃, hmore, hus⟩ := takes_bind.mp hresult
      obtain ⟨rfl, rfl⟩ := takes_pure.mp hus
      obtain ⟨hspace, m', ms, uss, rfl, hms, rfl⟩ := ih hmore
      refine ⟨hspace, { m with after := gap }, m' :: ms, us₁ :: uss, ?_, .cons (hm.after hgap) hms,
        rfl⟩
      rw [membersText_cons, text_after m hafter gap]
      simp
    · rw [Bool.not_eq_true] at hsep
      rw [hsep] at hcomma
      obtain ⟨⟨gap, hgap, rfl, hspace⟩, -⟩ := takes_consume_false_iff.mp hcomma
      obtain ⟨rfl, rfl⟩ := takes_pure.mp hresult
      refine ⟨hspace, { m with after := gap }, [], [us₁], ?_, .cons (hm.after hgap) .nil, by simp⟩
      rw [membersText_singleton, text_after m hafter gap, List.append_assoc]

/-- A member without the white space behind it. -/
theorem takes_memberUpdates {m : JsonSyntax.Member} {us : List Update} (hm : MemberWrites m us)
    {b : UInt8} (hb : ¬(48 ≤ b ∧ b ≤ 57)) (rest : List UInt8) :
    Takes readMemberUpdates (m.text ++ b :: rest) us (m.after ++ b :: rest) := by
  refine takes_readMemberUpdates_iff.mpr ⟨{ m with after := [] }, rfl, ?_, hm.after nofun,
    ends_gap hm.gaps.after hb m.value⟩
  simp [JsonSyntax.Member.text]

theorem takes_membersUpdates {m : JsonSyntax.Member} {ms : List JsonSyntax.Member}
    {uss : List (List Update)} (h : List.Forall₂ MemberWrites (m :: ms) uss) {fuel : ℕ}
    (hfuel : ms.length < fuel) (r : List UInt8) :
    Takes (readMembersUpdates fuel) (membersText (m :: ms) ++ closeBrace :: r) uss.flatten
      (closeBrace :: r) := by
  induction ms generalizing m uss fuel with
  | nil =>
    obtain ⟨fuel, rfl⟩ := Nat.exists_eq_succ_of_ne_zero (Nat.ne_of_gt hfuel)
    obtain ⟨us, _, hm, hnil, rfl⟩ := List.forall₂_cons_left_iff.mp h
    obtain rfl := List.forall₂_nil_left_iff.mp hnil
    unfold readMembersUpdates
    rw [membersText_singleton]
    refine takes_bind.mpr ⟨us, _, takes_memberUpdates hm (by decide) r, takes_bind.mpr
      ⟨false, closeBrace :: r, takes_consume_false_iff.mpr
        ⟨⟨m.after, hm.gaps.after, rfl, noSpace_cons.mpr (by decide)⟩, ?_⟩, ?_⟩⟩
    · simp [closeBrace, comma]
    · rw [if_neg (by decide)]
      exact takes_pure.mpr ⟨by simp, rfl⟩
  | cons m' ms ih =>
    obtain ⟨fuel, rfl⟩ := Nat.exists_eq_succ_of_ne_zero (Nat.ne_of_gt (Nat.zero_lt_of_lt hfuel))
    obtain ⟨us, uss, hm, hms, rfl⟩ := List.forall₂_cons_left_iff.mp h
    rw [List.length_cons] at hfuel
    unfold readMembersUpdates
    rw [membersText_cons, List.append_assoc, List.cons_append]
    refine takes_bind.mpr ⟨us, _, takes_memberUpdates hm (by decide) _, takes_bind.mpr
      ⟨true, _, (takes_consume_iff (by decide)).mpr ⟨m.after, hm.gaps.after, rfl⟩, ?_⟩⟩
    rw [if_pos rfl]
    exact takes_bind.mpr ⟨uss.flatten, _, ih hms (by omega), takes_pure.mpr ⟨rfl, rfl⟩⟩

/-! ## The object -/

theorem length_le_membersText (m : JsonSyntax.Member) (ms : List JsonSyntax.Member) :
    ms.length < (membersText (m :: ms)).length := by
  have hpos : ∀ m : JsonSyntax.Member, 0 < m.text.length := by
    intro m
    simp only [JsonSyntax.Member.text, stringText, List.length_append, List.length_cons]
    omega
  induction ms generalizing m with
  | nil =>
    rw [membersText_singleton]
    exact hpos m
  | cons m' ms ih =>
    have hrest := ih m'
    have hm := hpos m
    rw [membersText_cons, List.length_append, List.length_cons, List.length_cons]
    omega

theorem gap_eq_nil {gap r : List UInt8} (hgap : IsGap gap) (hspace : NoSpace (gap ++ r)) :
    gap = [] := by
  cases gap with
  | nil => rfl
  | cons g gap =>
    have hg := hgap g List.mem_cons_self
    rw [noSpace_cons.mp hspace] at hg
    cases hg

theorem gaps_of_writes {ms : List JsonSyntax.Member} {uss : List (List Update)}
    (h : List.Forall₂ MemberWrites ms uss) : ∀ m ∈ ms, m.Gaps := by
  induction h with
  | nil => exact nofun
  | cons hm _ ih => exact List.forall_mem_cons.mpr ⟨hm.gaps, ih⟩

theorem membersText_gap (gap : List UInt8) (m : JsonSyntax.Member) (ms : List JsonSyntax.Member) :
    membersText ({ m with before := gap ++ m.before } :: ms) = gap ++ membersText (m :: ms) := by
  cases ms with
  | nil => simp [membersText_singleton, JsonSyntax.Member.text]
  | cons m' ms => simp [membersText_cons, JsonSyntax.Member.text]

/-- The white space in front of the first member. -/
theorem membersText_before (m : JsonSyntax.Member) (ms : List JsonSyntax.Member) :
    membersText (m :: ms) = m.before ++ membersText ({ m with before := [] } :: ms) := by
  cases ms with
  | nil => simp [membersText_singleton, JsonSyntax.Member.text]
  | cons m' ms => simp [membersText_cons, JsonSyntax.Member.text]

theorem membersText_quote (m : JsonSyntax.Member) (ms : List JsonSyntax.Member) :
    ∃ text, membersText ({ m with before := [] } :: ms) = quote :: text := by
  cases ms with
  | nil =>
    rw [membersText_singleton]
    exact ⟨_, rfl⟩
  | cons m' ms =>
    rw [membersText_cons]
    exact ⟨_, rfl⟩

theorem takes_readObjectUpdates {fuel : ℕ} {json : List UInt8} {us : List Update}
    (h : Takes (readObjectUpdates fuel) json us []) :
    ∃ d : Document, d.text = json ∧ DocumentWrites d us := by
  unfold readObjectUpdates at h
  obtain ⟨opened, r₁, hopen, hinside⟩ := takes_bind.mp h
  split_ifs at hinside with htrue
  · rw [htrue] at hopen
    obtain ⟨before, hbefore, rfl⟩ := (takes_consume_iff (by decide)).mp hopen
    obtain ⟨closed, r₂, hclose, hbody⟩ := takes_bind.mp hinside
    split_ifs at hbody with hempty
    · rw [hempty] at hclose
      obtain ⟨gap, hgap, rfl⟩ := (takes_consume_iff (by decide)).mp hclose
      obtain ⟨⟨⟨⟩, hspace⟩, rfl⟩ := takes_replace.mp hbody
      obtain ⟨after, hafter, rfl, -⟩ := takes_skipSpace_iff.mp hspace
      exact ⟨⟨before, gap, [], after⟩, by simp [Document.text],
        ⟨hbefore, hgap, nofun, hafter⟩, [], .nil, rfl⟩
    · rw [Bool.not_eq_true] at hempty
      rw [hempty] at hclose
      obtain ⟨⟨gap, hgap, rfl, -⟩, -⟩ := takes_consume_false_iff.mp hclose
      obtain ⟨us', r₃, hmembers, hrest⟩ := takes_bind.mp hbody
      obtain ⟨hspace, m, ms, uss, rfl, hms, rfl⟩ := takes_readMembersUpdates hmembers
      obtain ⟨ended, r₄, hend, hresult⟩ := takes_bind.mp hrest
      split_ifs at hresult with hended
      · rw [hended] at hend
        obtain ⟨gap', hgap', rfl⟩ := (takes_consume_iff (by decide)).mp hend
        obtain ⟨⟨⟨⟩, hskip⟩, rfl⟩ := takes_replace.mp hresult
        obtain ⟨after, hafter, rfl, -⟩ := takes_skipSpace_iff.mp hskip
        -- the white space in front of the brace was taken with the last member
        obtain rfl := gap_eq_nil hgap' hspace
        obtain ⟨us, uss, hm, hothers, rfl⟩ := List.forall₂_cons_left_iff.mp hms
        have hgaps : IsGap (gap ++ m.before) := isGap_append hgap hm.gaps.before
        have hwrites : List.Forall₂ MemberWrites ({ m with before := gap ++ m.before } :: ms)
            (us :: uss) := .cons (hm.before hgaps) hothers
        refine ⟨⟨before, [], { m with before := gap ++ m.before } :: ms, after⟩, ?_,
          ⟨hbefore, nofun, gaps_of_writes hwrites, hafter⟩, us :: uss, hwrites, rfl⟩
        rw [Document.text, if_neg nofun, membersText_gap]
        simp
      · exact absurd hresult not_takes_failure
  · exact absurd hinside not_takes_failure

theorem takes_readObjectUpdates_of {d : Document} {us : List Update} (h : DocumentWrites d us)
    {fuel : ℕ} (hfuel : d.text.length ≤ fuel) : Takes (readObjectUpdates fuel) d.text us [] := by
  obtain ⟨⟨hbefore, hgap, hmembers, hafter⟩, uss, hms, rfl⟩ := h
  obtain ⟨before, gap, members, after⟩ := d
  dsimp only at hbefore hgap hmembers hafter hms
  have hskip : Takes skipSpace after () [] :=
    takes_skipSpace_iff.mpr ⟨after, hafter, (List.append_nil _).symm, nofun⟩
  unfold readObjectUpdates
  refine takes_bind.mpr ⟨true, _, (takes_consume_iff (by decide)).mpr ⟨before, hbefore, rfl⟩, ?_⟩
  rw [if_pos rfl]
  cases members with
  | nil =>
    obtain rfl := List.forall₂_nil_left_iff.mp hms
    refine takes_bind.mpr ⟨true, after, (takes_consume_iff (by decide)).mpr
      ⟨gap, hgap, by simp⟩, ?_⟩
    rw [if_pos rfl]
    exact takes_replace.mpr ⟨⟨(), hskip⟩, rfl⟩
  | cons m ms =>
    obtain ⟨us, uss, hm, hrest, rfl⟩ := List.forall₂_cons_left_iff.mp hms
    have hfirst : List.Forall₂ MemberWrites ({ m with before := [] } :: ms) (us :: uss) :=
      .cons (hm.before nofun) hrest
    have hshape := membersText_before m ms
    obtain ⟨text, hquote⟩ := membersText_quote m ms
    have hlength := length_le_membersText { m with before := [] } ms
    have hfuel' : ms.length < fuel := by
      rw [Document.text, if_neg nofun, hshape] at hfuel
      simp only [List.length_append, List.length_cons] at hfuel
      omega
    rw [if_neg nofun, hshape]
    refine takes_bind.mpr ⟨false, membersText ({ m with before := [] } :: ms) ++
      closeBrace :: after, takes_consume_false_iff.mpr ⟨⟨m.before, hm.gaps.before,
        List.append_assoc .., ?_⟩, ?_⟩, ?_⟩
    · rw [hquote]
      exact noSpace_cons.mpr (by decide)
    · rw [hquote]
      change some quote ≠ some closeBrace
      decide
    · rw [if_neg (by decide)]
      refine takes_bind.mpr ⟨_, _, takes_membersUpdates hfirst hfuel' after, takes_bind.mpr
        ⟨true, after, (takes_consume_iff (by decide)).mpr ⟨[], nofun, rfl⟩, ?_⟩⟩
      rw [if_pos rfl]
      exact takes_replace.mpr ⟨⟨(), hskip⟩, rfl⟩

/-- A body is accepted as a text exactly when it is an object of the dialect. -/
theorem updates_iff {json : List UInt8} {us : List Update} :
    updates json = some us ↔ ∃ d : Document, d.text = json ∧ DocumentWrites d us := by
  rw [updates_eq_some]
  constructor
  · exact takes_readObjectUpdates
  · rintro ⟨d, rfl, h⟩
    exact takes_readObjectUpdates_of h le_rfl

end BekenCam.Settings
