import BekenCam.JsonSyntax

/-!
# A text has one tree

From the front of a text the tree can be read off: the first byte of a character, of a value, or
behind some white space says which one it is. Only a number may be left too early, in front of its
fraction or its exponent.
-/
namespace BekenCam.JsonSyntax

open Json

/-- The longest front whose bytes are all of one kind. -/
theorem front_unique {P : UInt8 → Prop} {front front' r r' : List UInt8}
    (hfront : ∀ b ∈ front, P b) (hfront' : ∀ b ∈ front', P b) (hr : ∀ b ∈ r.head?, ¬P b)
    (hr' : ∀ b ∈ r'.head?, ¬P b) (h : front ++ r = front' ++ r') : front = front' ∧ r = r' := by
  induction front generalizing front' with
  | nil =>
    cases front' with
    | nil => exact ⟨rfl, h⟩
    | cons b front' =>
      obtain rfl : r = b :: (front' ++ r') := h
      exact absurd (hfront' b List.mem_cons_self) (hr b rfl)
  | cons b front ih =>
    cases front' with
    | nil =>
      obtain rfl : b :: (front ++ r) = r' := h
      exact absurd (hfront b List.mem_cons_self) (hr' b rfl)
    | cons b' front' =>
      obtain ⟨rfl, htail⟩ := List.cons.inj h
      obtain ⟨rfl, hrest⟩ := ih (fun x hx => hfront x (List.mem_cons_of_mem _ hx))
        (fun x hx => hfront' x (List.mem_cons_of_mem _ hx)) htail
      exact ⟨rfl, hrest⟩

/-! ## White space and strings -/

theorem gap_unique {gap gap' r r' : List UInt8} {b b' : UInt8} (hgap : IsGap gap)
    (hgap' : IsGap gap') (hb : isSpace b = false) (hb' : isSpace b' = false)
    (h : gap ++ b :: r = gap' ++ b' :: r') : gap = gap' ∧ b = b' ∧ r = r' := by
  have hnext : ∀ {c : UInt8} {l : List UInt8}, isSpace c = false →
      ∀ x ∈ (c :: l).head?, ¬isSpace x = true := by
    rintro c l hc x ⟨⟩
    rw [hc]
    nofun
  obtain ⟨hsame, hrest⟩ := front_unique hgap hgap' (hnext hb) (hnext hb') h
  exact ⟨hsame, List.cons.inj hrest⟩

namespace StringChar

theorem code_of_byte {ch : StringChar} {b : UInt8} (h : ch.byte = some b) :
    ch.code = some b.toNat := by
  cases ch with
  | plain c =>
    obtain ⟨n, hn, rfl⟩ := Option.map_eq_some_iff.mp h
    rw [hn]
    rw [code] at hn
    split_ifs at hn
    obtain rfl := Option.some.inj hn
    rw [UInt8.ofNat_toNat]
  | short letter =>
    obtain ⟨n, hn, rfl⟩ := Option.map_eq_some_iff.mp h
    rw [hn]
    obtain ⟨c, -, rfl⟩ := Option.map_eq_some_iff.mp hn
    rw [UInt8.ofNat_toNat]
  | unicode h1 h2 h3 h4 =>
    obtain ⟨n, hn, hb⟩ := Option.bind_eq_some_iff.mp h
    split_ifs at hb with hrange
    obtain rfl := Option.some.inj hb
    rw [code, hn, UInt8.toNat_ofNat', Nat.mod_eq_of_lt (by omega)]

theorem plain_valid {c : UInt8} (h : (plain c).code ≠ none) : c ≠ quote ∧ c ≠ backslash := by
  rw [code] at h
  split_ifs at h with hc
  · exact hc.2
  · exact absurd rfl h

theorem short_valid {letter : UInt8} (h : (short letter).code ≠ none) : letter ≠ letterU := by
  rintro rfl
  exact h rfl

/-- No character starts with a quote. -/
theorem text_ne_quote {ch : StringChar} (h : ch.code ≠ none) (r r' : List UInt8) :
    ch.text ++ r ≠ quote :: r' := by
  intro heq
  cases ch with
  | plain c => exact (plain_valid h).1 (List.cons.inj heq).1
  | short letter => exact absurd (List.cons.inj heq).1 (by decide)
  | unicode h1 h2 h3 h4 => exact absurd (List.cons.inj heq).1 (by decide)

theorem text_unique {ch ch' : StringChar} (h : ch.code ≠ none) (h' : ch'.code ≠ none)
    {r r' : List UInt8} (heq : ch.text ++ r = ch'.text ++ r') : ch = ch' ∧ r = r' := by
  cases ch with
  | plain c =>
    cases ch' with
    | plain c' =>
      obtain ⟨rfl, hr⟩ := List.cons.inj heq
      exact ⟨rfl, hr⟩
    | short letter => exact absurd (List.cons.inj heq).1 (plain_valid h).2
    | unicode h1 h2 h3 h4 => exact absurd (List.cons.inj heq).1 (plain_valid h).2
  | short letter =>
    cases ch' with
    | plain c' => exact absurd (List.cons.inj heq).1.symm (plain_valid h').2
    | short letter' =>
      obtain ⟨-, htail⟩ := List.cons.inj heq
      obtain ⟨rfl, hr⟩ := List.cons.inj htail
      exact ⟨rfl, hr⟩
    | unicode h1 h2 h3 h4 =>
      obtain ⟨-, htail⟩ := List.cons.inj heq
      exact absurd (List.cons.inj htail).1 (short_valid h)
  | unicode h1 h2 h3 h4 =>
    cases ch' with
    | plain c' => exact absurd (List.cons.inj heq).1.symm (plain_valid h').2
    | short letter' =>
      obtain ⟨-, htail⟩ := List.cons.inj heq
      exact absurd (List.cons.inj htail).1.symm (short_valid h')
    | unicode k1 k2 k3 k4 =>
      simp only [text, List.cons_append, List.nil_append, List.cons.injEq, true_and] at heq
      obtain ⟨rfl, rfl, rfl, rfl, hr⟩ := heq
      exact ⟨rfl, hr⟩

end StringChar

theorem mapM_valid {β : Type} {f : StringChar → Option β} {cs : List StringChar} {bs : List β}
    (h : cs.mapM f = some bs) : ∀ ch ∈ cs, f ch ≠ none :=
  mapM_ne_none_iff.mp (by rw [h]; nofun)

theorem code_ne_none_of_byte {ch : StringChar} (h : ch.byte ≠ none) : ch.code ≠ none := by
  obtain ⟨b, hb⟩ := Option.ne_none_iff_exists'.mp h
  rw [StringChar.code_of_byte hb]
  nofun

theorem charsText_unique {cs cs' : List StringChar} (h : ∀ ch ∈ cs, ch.code ≠ none)
    (h' : ∀ ch ∈ cs', ch.code ≠ none) {r r' : List UInt8}
    (hchars : charsText cs ++ quote :: r = charsText cs' ++ quote :: r') : cs = cs' ∧ r = r' := by
  induction cs generalizing cs' with
  | nil =>
    cases cs' with
    | nil => exact ⟨rfl, (List.cons.inj hchars).2⟩
    | cons ch' cs' =>
      rw [charsText, charsText, List.flatMap_cons, List.append_assoc] at hchars
      exact absurd hchars.symm (StringChar.text_ne_quote (h' ch' List.mem_cons_self) _ _)
  | cons ch cs ih =>
    obtain ⟨hch, hcs⟩ := List.forall_mem_cons.mp h
    cases cs' with
    | nil =>
      rw [charsText, charsText, List.flatMap_cons, List.append_assoc] at hchars
      exact absurd hchars (StringChar.text_ne_quote hch _ _)
    | cons ch' cs' =>
      obtain ⟨hch', hcs'⟩ := List.forall_mem_cons.mp h'
      rw [charsText, charsText, List.flatMap_cons, List.flatMap_cons, List.append_assoc,
        List.append_assoc] at hchars
      obtain ⟨rfl, htail⟩ := StringChar.text_unique hch hch' hchars
      obtain ⟨rfl, hr⟩ := ih hcs hcs' htail
      exact ⟨rfl, hr⟩

theorem stringText_unique {cs cs' : List StringChar} (h : ∀ ch ∈ cs, ch.code ≠ none)
    (h' : ∀ ch ∈ cs', ch.code ≠ none) {r r' : List UInt8}
    (heq : stringText cs ++ r = stringText cs' ++ r') : cs = cs' ∧ r = r' :=
  charsText_unique h h' (by simpa [stringText] using heq)

/-! ## Numbers and other scalars -/

theorem digits_unique {ds ds' r r' : List UInt8} {c : UInt8} (hds : IsDigits ds)
    (hds' : IsDigits ds') (hc : ¬(48 ≤ c ∧ c ≤ 57)) (hr' : ∀ b ∈ r'.head?, ¬(48 ≤ b ∧ b ≤ 57))
    (h : ds ++ c :: r = ds' ++ r') : ds = ds' ∧ c :: r = r' := by
  refine front_unique hds hds' ?_ hr' h
  rintro b ⟨⟩
  exact hc

/-- The byte a fraction or an exponent starts with. -/
def GoesOn (r : List UInt8) : Prop := ∃ c rest, r = c :: rest ∧ (c = 46 ∨ c = 101 ∨ c = 69)

theorem number_front {n : Number} (hn : n.Valid) {ds r' : List UInt8} (hds : IsDigits ds)
    (hne : ds ≠ []) (hr' : ∀ b ∈ r'.head?, ¬(48 ≤ b ∧ b ≤ 57)) {b : UInt8} {rest : List UInt8}
    (hb : ¬(48 ≤ b ∧ b ≤ 57)) (h : n.text ++ b :: rest = ds ++ r') :
    (n = .ofDigits ds ∧ b :: rest = r') ∨ GoesOn r' := by
  obtain ⟨minus, int, frac, exp⟩ := n
  have hint : IsDigits int := hn.int_digits
  cases minus with
  | true =>
    cases ds with
    | nil => exact absurd rfl hne
    | cons d ds =>
      obtain ⟨rfl, -⟩ := List.cons.inj h
      exact absurd (hds 45 List.mem_cons_self) (by decide)
  | false =>
    cases frac with
    | some fs =>
      have hshape : int ++ 46 :: (fs ++ (exp.elim [] (fun e => e.letter :: e.sign.toList ++ e.digits) ++
          b :: rest)) = ds ++ r' := by
        simpa [Number.text] using h
      obtain ⟨-, rfl⟩ := digits_unique hint hds (by decide) hr' hshape
      exact Or.inr ⟨46, _, rfl, Or.inl rfl⟩
    | none =>
      cases exp with
      | some e =>
        have hshape : int ++ e.letter :: (e.sign.toList ++ (e.digits ++ b :: rest)) = ds ++ r' := by
          simpa [Number.text] using h
        have hletter := (hn.exp e rfl).1
        have hnot : ¬(48 ≤ e.letter ∧ e.letter ≤ 57) := by
          rcases hletter with heq | heq <;> rw [heq] <;> decide
        obtain ⟨-, rfl⟩ := digits_unique hint hds hnot hr' hshape
        exact Or.inr ⟨e.letter, _, rfl, Or.inr hletter⟩
      | none =>
        have hshape : int ++ b :: rest = ds ++ r' := by
          simpa [Number.text] using h
        obtain ⟨rfl, hrest⟩ := digits_unique hint hds hb hr' hshape
        exact Or.inl ⟨rfl, hrest⟩

/-! ## The narrow part of the syntax -/

/-- `\u` names a character of ASCII other than NUL. -/
def StringChar.Narrow : StringChar → Prop
  | .unicode h1 h2 h3 h4 => ∃ n, hexNumber [h1, h2, h3, h4] = some n ∧ 1 ≤ n ∧ n ≤ 0x7F
  | _ => True

theorem StringChar.byte_iff {ch : StringChar} (h : ch.code ≠ none) :
    ch.byte ≠ none ↔ ch.Narrow := by
  cases ch with
  | plain c =>
    obtain ⟨n, hn⟩ := Option.ne_none_iff_exists'.mp h
    have hbyte : (plain c).byte = some (UInt8.ofNat n) := Option.map_eq_some_iff.mpr ⟨n, hn, rfl⟩
    rw [hbyte]
    exact ⟨fun _ => trivial, fun _ => nofun⟩
  | short letter =>
    obtain ⟨n, hn⟩ := Option.ne_none_iff_exists'.mp h
    have hbyte : (short letter).byte = some (UInt8.ofNat n) :=
      Option.map_eq_some_iff.mpr ⟨n, hn, rfl⟩
    rw [hbyte]
    exact ⟨fun _ => trivial, fun _ => nofun⟩
  | unicode h1 h2 h3 h4 =>
    obtain ⟨n, hn⟩ := Option.ne_none_iff_exists'.mp h
    rw [code] at hn
    rw [byte, Narrow, hn, Option.bind_some]
    split_ifs with hrange
    · exact ⟨fun _ => ⟨n, rfl, hrange⟩, fun _ => nofun⟩
    · refine ⟨fun hne => absurd rfl hne, ?_⟩
      rintro ⟨m, hm, hrange'⟩
      obtain rfl := Option.some.inj hm
      exact absurd hrange' hrange

/-- A number of at most nine digits, without a sign, a fraction or an exponent. -/
def Scalar.Narrow : Scalar → Prop
  | .string s => ∀ ch ∈ s, ch.Narrow
  | .number n => n.minus = false ∧ n.frac = none ∧ n.exp = none ∧ n.int.length ≤ 9
  | _ => True

theorem narrow_of_bytes {cs : List StringChar} {bytes : List UInt8}
    (h : stringBytes cs = some bytes) : ∀ ch ∈ cs, ch.Narrow := by
  intro ch hch
  have hbyte := mapM_valid h ch hch
  exact (StringChar.byte_iff (code_ne_none_of_byte hbyte)).mp hbyte

theorem bytes_of_narrow {cs : List StringChar} (h : ∀ ch ∈ cs, ch.code ≠ none)
    (hnarrow : ∀ ch ∈ cs, ch.Narrow) : ∃ bytes, stringBytes cs = some bytes :=
  Option.ne_none_iff_exists'.mp (mapM_ne_none_iff.mpr fun ch hch =>
    (StringChar.byte_iff (h ch hch)).mpr (hnarrow ch hch))

theorem Scalar.value_iff {v : Scalar} (hv : v.Valid) : v.value ≠ none ↔ v.Narrow := by
  cases v with
  | string s =>
    obtain ⟨codes, hcodes⟩ := Option.isSome_iff_exists.mp hv
    constructor
    · intro hval
      obtain ⟨val, hval⟩ := Option.ne_none_iff_exists'.mp hval
      obtain ⟨bytes, hbytes, -⟩ := Option.map_eq_some_iff.mp hval
      exact narrow_of_bytes hbytes
    · intro hnarrow
      obtain ⟨bytes, hbytes⟩ := bytes_of_narrow (mapM_valid hcodes) hnarrow
      rw [value, hbytes]
      exact Option.some_ne_none _
  | number n =>
    have hdigits : IsDigits n.int := hv.int_digits
    have hpos : 1 ≤ n.int.length := List.length_pos_iff.mpr hv.int_ne
    rw [value, Narrow]
    split_ifs with hshort
    · exact ⟨fun _ => ⟨hshort.1, hshort.2.1, hshort.2.2.1, hshort.2.2.2.2.2⟩,
        fun _ => Option.some_ne_none _⟩
    · refine ⟨fun hne => absurd rfl hne, ?_⟩
      rintro ⟨hminus, hfrac, hexp, hlen⟩
      exact absurd ⟨hminus, hfrac, hexp, hdigits, hpos, hlen⟩ hshort
  | bool b => exact ⟨fun _ => trivial, fun _ => Option.some_ne_none _⟩
  | null => exact ⟨fun _ => trivial, fun _ => Option.some_ne_none _⟩

/-! ## The kind of a scalar -/

/-- The kinds of scalars, and the kind whose texts start with a byte. -/
def Scalar.kind : Scalar → ℕ
  | .string _ => 0
  | .number _ => 1
  | .bool true => 2
  | .bool false => 3
  | .null => 4

def kindOf (c : UInt8) : ℕ :=
  if c = 34 then 0 else if c = 116 then 2 else if c = 102 then 3 else if c = 110 then 4 else 1

theorem kindOf_digit {c : UInt8} (h : 48 ≤ c ∧ c ≤ 57) :
    kindOf c = 1 ∧ isSpace c = false := by
  have hlow := UInt8.le_iff_toNat_le.mp h.1
  have hhigh := UInt8.le_iff_toNat_le.mp h.2
  have h48 : (48 : UInt8).toNat = 48 := rfl
  have h57 : (57 : UInt8).toNat = 57 := rfl
  have hne : ∀ b : UInt8, b.toNat < 48 ∨ 57 < b.toNat → c ≠ b := by
    rintro b hb rfl
    omega
  constructor
  · rw [kindOf, if_neg (hne 34 (by decide)), if_neg (hne 116 (by decide)),
      if_neg (hne 102 (by decide)), if_neg (hne 110 (by decide))]
  · simp [isSpace, hne 32 (by decide), hne 9 (by decide), hne 13 (by decide), hne 10 (by decide)]

theorem kindOf_digits {ds r : List UInt8} (hds : IsDigits ds) (hne : ds ≠ []) :
    ∃ c t, ds ++ r = c :: t ∧ kindOf c = 1 ∧ isSpace c = false := by
  cases ds with
  | nil => exact absurd rfl hne
  | cons d ds => exact ⟨d, ds ++ r, rfl, kindOf_digit (hds d List.mem_cons_self)⟩

theorem kind_of_valid {v : Scalar} (hv : v.Valid) (r : List UInt8) :
    ∃ c t, v.text ++ r = c :: t ∧ kindOf c = v.kind ∧ isSpace c = false := by
  cases v with
  | string cs => exact ⟨quote, _, rfl, rfl, rfl⟩
  | number n =>
    obtain ⟨minus, int, frac, exp⟩ := n
    cases minus with
    | true => exact ⟨45, _, rfl, rfl, rfl⟩
    | false =>
      obtain ⟨c, t, ht, hc⟩ := kindOf_digits (r := frac.elim [] (fun ds => 46 :: ds) ++
        (exp.elim [] (fun e => e.letter :: e.sign.toList ++ e.digits) ++ r))
        hv.int_digits hv.int_ne
      refine ⟨c, t, ?_, hc⟩
      rw [← ht]
      simp [Scalar.text, Number.text]
  | bool b => cases b <;> exact ⟨_, _, rfl, rfl, rfl⟩
  | null => exact ⟨110, _, rfl, rfl, rfl⟩

theorem kind_of_value {v : Scalar} (hv : v.value ≠ none) (r : List UInt8) :
    ∃ c t, v.text ++ r = c :: t ∧ kindOf c = v.kind ∧ isSpace c = false := by
  cases v with
  | string cs => exact ⟨quote, _, rfl, rfl, rfl⟩
  | number n =>
    have hshort : n.Short := by
      by_contra hc
      exact hv (if_neg hc)
    rw [Scalar.text, hshort.eq, Number.text_ofDigits]
    exact kindOf_digits hshort.2.2.2.1 (List.length_pos_iff.mp hshort.2.2.2.2.1)
  | bool b => cases b <;> exact ⟨_, _, rfl, rfl, rfl⟩
  | null => exact ⟨110, _, rfl, rfl, rfl⟩

/-- A scalar of the dialect in front of the text of a scalar of the RFC. -/
theorem scalar_front {v v' : Scalar} (hv : v.Valid) (hv' : v'.value ≠ none) {b : UInt8}
    {rest r' : List UInt8} (hb : ¬(48 ≤ b ∧ b ≤ 57))
    (hend : ∀ n, v' = .number n → ∀ c ∈ r'.head?, ¬(48 ≤ c ∧ c ≤ 57))
    (h : v.text ++ b :: rest = v'.text ++ r') : (v = v' ∧ b :: rest = r') ∨ GoesOn r' := by
  have hkind : v.kind = v'.kind := by
    obtain ⟨c, t, ht, hc, -⟩ := kind_of_valid hv (b :: rest)
    obtain ⟨c', t', ht', hc', -⟩ := kind_of_value hv' r'
    rw [ht, ht'] at h
    rw [← hc, ← hc', (List.cons.inj h).1]
  cases v' with
  | string cs' =>
    cases v with
    | string cs =>
      have hcs : ∀ ch ∈ cs, ch.code ≠ none := by
        obtain ⟨codes, hcodes⟩ := Option.isSome_iff_exists.mp hv
        exact mapM_valid hcodes
      have hcs' : ∀ ch ∈ cs', ch.code ≠ none := by
        obtain ⟨val, hval⟩ := Option.ne_none_iff_exists'.mp hv'
        obtain ⟨bytes, hbytes, -⟩ := Option.map_eq_some_iff.mp hval
        exact fun ch hch => code_ne_none_of_byte (mapM_valid hbytes ch hch)
      obtain ⟨rfl, hr⟩ := stringText_unique hcs hcs' h
      exact Or.inl ⟨rfl, hr⟩
    | number n => cases hkind
    | bool b => cases b <;> cases hkind
    | null => cases hkind
  | number n' =>
    have hshort : n'.Short := by
      by_contra hc
      exact hv' (if_neg hc)
    cases v with
    | number n =>
      obtain ⟨hminus, hfrac, hexp, hdigits, hpos, -⟩ := id hshort
      rw [Scalar.text, Scalar.text, hshort.eq, Number.text_ofDigits] at h
      rcases number_front hv hdigits (List.length_pos_iff.mp hpos) (hend n' rfl) hb h with
        ⟨rfl, hr⟩ | hgoes
      · exact Or.inl ⟨by rw [← hshort.eq], hr⟩
      · exact Or.inr hgoes
    | string cs => cases hkind
    | bool b => cases b <;> cases hkind
    | null => cases hkind
  | bool b' =>
    cases v with
    | bool b =>
      obtain rfl : b = b' := by
        cases b <;> cases b' <;> first | rfl | cases hkind
      exact Or.inl ⟨rfl, List.append_cancel_left h⟩
    | string cs => cases b' <;> cases hkind
    | number n => cases b' <;> cases hkind
    | null => cases b' <;> cases hkind
  | null =>
    cases v with
    | null => exact Or.inl ⟨rfl, List.append_cancel_left h⟩
    | string cs => cases hkind
    | number n => cases hkind
    | bool b => cases b <;> cases hkind

end BekenCam.JsonSyntax
