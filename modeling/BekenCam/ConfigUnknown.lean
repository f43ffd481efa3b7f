import BekenCam.ConfigReading
import BekenCam.JsonUnambiguous

/-!
# Members that name no field

A member whose key the settings do not have is ignored where the reader gets over it: the reader of
keys and the reader of values it shares with the fields are narrower than JSON.
-/
namespace BekenCam.Settings

open FlashKv Json ReadM JsonSyntax
open Http (ascii)

/-- A member of the RFC whose key, as a string, names no field. -/
structure UnknownMember (m : JsonSyntax.Member) : Prop where
  gaps : m.Gaps
  key : ∃ codes, stringCodes m.key = some codes ∧
    ∀ field ∈ fieldNames, codes ≠ field.1.map UInt8.toNat
  value : m.value.Valid

/-- What the reader gets over: a key of at most 23 bytes, no `\u` but for ASCII without NUL, and as a
number one to nine digits. -/
structure Skippable (m : JsonSyntax.Member) : Prop where
  key : ∀ ch ∈ m.key, ch.Narrow
  length : m.key.length ≤ 23
  value : m.value.Narrow

/-! ## One member -/

theorem fieldOf_eq_none {key : List UInt8} (h : ∀ field ∈ fieldNames, key ≠ field.1) :
    fieldOf key = none := by
  rw [fieldOf, List.lookup_eq_none_iff]
  intro field hfield
  exact bne_iff_ne.mpr (h field hfield)

theorem stringCodes_of_bytes {cs : List StringChar} {bytes : List UInt8}
    (h : stringBytes cs = some bytes) : stringCodes cs = some (bytes.map UInt8.toNat) := by
  induction cs generalizing bytes with
  | nil =>
    obtain rfl : bytes = [] := (Option.some.inj h).symm
    rfl
  | cons ch cs ih =>
    obtain ⟨b, rest, hb, hrest, rfl⟩ := stringBytes_cons.mp h
    have hcodes := ih hrest
    rw [stringCodes] at hcodes ⊢
    rw [List.mapM_cons, StringChar.code_of_byte hb, hcodes]
    rfl

theorem UnknownMember.writes {m : JsonSyntax.Member} (hm : UnknownMember m) (h : Skippable m) :
    MemberWrites m [] := by
  obtain ⟨codes, hcodes, hunknown⟩ := hm.key
  obtain ⟨key, hkey⟩ := bytes_of_narrow (mapM_valid hcodes) h.key
  obtain ⟨val, hval⟩ := Option.ne_none_iff_exists'.mp ((Scalar.value_iff hm.value).mpr h.value)
  refine ⟨hm.gaps, key, val, hkey, (length_mapM hkey).trans_le h.length, hval, ?_⟩
  have hfield : fieldOf key = none := by
    refine fieldOf_eq_none fun field hfield hsame => hunknown field hfield ?_
    rw [stringCodes_of_bytes hkey, hsame] at hcodes
    exact (Option.some.inj hcodes).symm
  rw [hfield]
  exact .unknown val

/-- A member of the dialect in front of the text of an unknown member. -/
theorem member_front {m : JsonSyntax.Member} (hm : UnknownMember m) {us : List Update} {b : UInt8}
    {rest r' : List UInt8} (hb : ¬(48 ≤ b ∧ b ≤ 57))
    (h : Takes readMemberUpdates (m.text ++ b :: rest) us r') : Skippable m ∨ GoesOn r' := by
  obtain ⟨m', hafter, htext, ⟨hgaps, key, val, hkey, hlength, hval, -⟩, hend⟩ :=
    takes_readMemberUpdates_iff.mp h
  obtain ⟨codes, hcodes, -⟩ := hm.key
  obtain ⟨before, cs, afterKey, beforeValue, v, after⟩ := m
  obtain ⟨before', cs', afterKey', beforeValue', v', after'⟩ := m'
  obtain ⟨hbefore, hafterKey, hbeforeValue, hafterGap⟩ := hm.gaps
  obtain ⟨hbefore', hafterKey', hbeforeValue', -⟩ := hgaps
  dsimp only at *
  subst hafter
  have hshape : before ++ quote :: (charsText cs ++ quote :: (afterKey ++ colon :: (beforeValue ++
      (v.text ++ (after ++ b :: rest))))) =
      before' ++ quote :: (charsText cs' ++ quote :: (afterKey' ++ colon :: (beforeValue' ++
        (v'.text ++ r')))) := by
    simpa [JsonSyntax.Member.text, stringText] using htext
  have hvalid' : ∀ ch ∈ cs', ch.code ≠ none :=
    fun ch hch => code_ne_none_of_byte (mapM_valid hkey ch hch)
  obtain ⟨-, -, hinside⟩ := gap_unique hbefore hbefore' (by decide) (by decide) hshape
  obtain ⟨rfl, hbehind⟩ := charsText_unique (mapM_valid hcodes) hvalid' hinside
  obtain ⟨-, -, hvalue⟩ := gap_unique hafterKey hafterKey' (by decide) (by decide) hbehind
  -- the values stand behind white space of the same length
  have hval' : v'.value ≠ none := by
    rw [hval]
    exact Option.some_ne_none _
  obtain ⟨c, t, ht, -, hc⟩ := kind_of_valid hm.value (after ++ b :: rest)
  obtain ⟨c', t', ht', -, hc'⟩ := kind_of_value hval' r'
  rw [ht, ht'] at hvalue
  obtain ⟨-, rfl, rfl⟩ := gap_unique hbeforeValue hbeforeValue' hc hc' hvalue
  obtain ⟨d, tail, hd, hdigit⟩ : ∃ d tail, after ++ b :: rest = d :: tail ∧
      ¬(48 ≤ d ∧ d ≤ 57) := by
    cases after with
    | nil => exact ⟨b, rest, rfl, hb⟩
    | cons d after =>
      refine ⟨d, after ++ b :: rest, rfl, fun hdigit => ?_⟩
      have hspace := hafterGap d List.mem_cons_self
      rw [not_isSpace_of_digit hdigit] at hspace
      cases hspace
  have hends : ∀ n, v' = .number n → ∀ c ∈ r'.head?, ¬(48 ≤ c ∧ c ≤ 57) := by
    rintro n rfl
    exact hend
  have hfront : v.text ++ d :: tail = v'.text ++ r' := by
    rw [← hd, ht, ht']
  rcases scalar_front hm.value hval' hdigit hends hfront with ⟨rfl, -⟩ | hgoes
  · exact Or.inl ⟨narrow_of_bytes hkey, (length_mapM hkey).symm.trans_le hlength,
      (Scalar.value_iff hm.value).mp hval'⟩
  · exact Or.inr hgoes

/-! ## A member among others -/

theorem membersText_cons_of_ne {m : JsonSyntax.Member} {ms : List JsonSyntax.Member}
    (h : ms ≠ []) : membersText (m :: ms) = m.text ++ comma :: membersText ms := by
  cases ms with
  | nil => exact absurd rfl h
  | cons m' ms => exact membersText_cons m m' ms

/-- A run over all members comes to each of them. -/
theorem takes_from {older newer : List JsonSyntax.Member} {m : JsonSyntax.Member}
    {uss : List (List Update)} (hwrites : List.Forall₂ MemberWrites older uss) {fuel : ℕ}
    {us : List Update} {rest r : List UInt8}
    (h : Takes (readMembersUpdates fuel) (membersText (older ++ m :: newer) ++ rest) us r) :
    ∃ fuel' us', Takes (readMembersUpdates fuel') (membersText (m :: newer) ++ rest) us' r := by
  induction hwrites generalizing fuel us with
  | nil => exact ⟨fuel, us, h⟩
  | @cons m₁ us₁ older uss hm _ ih =>
    cases fuel with
    | zero => exact absurd h not_takes_failure
    | succ fuel =>
      unfold readMembersUpdates at h
      rw [List.cons_append, membersText_cons_of_ne (by simp), List.append_assoc,
        List.cons_append] at h
      obtain ⟨us', r₁, hmember, hbehind⟩ := takes_bind.mp h
      obtain ⟨rfl, rfl⟩ := hmember.unique (takes_memberUpdates hm (by decide) _)
      obtain ⟨separated, r₂, hcomma, hothers⟩ := takes_bind.mp hbehind
      obtain ⟨rfl, rfl⟩ := hcomma.unique ((takes_consume_iff (by decide)).mpr
        ⟨m₁.after, hm.gaps.after, rfl⟩)
      rw [if_pos rfl] at hothers
      obtain ⟨us₂, r₃, hrest, hresult⟩ := takes_bind.mp hothers
      obtain ⟨-, rfl⟩ := takes_pure.mp hresult
      exact ih hrest

/-- Behind a number that goes on the object is not closed. -/
theorem not_closed {r gap rest : List UInt8} (hgoes : GoesOn r) (hgap : IsGap gap) :
    r ≠ gap ++ closeBrace :: rest := by
  obtain ⟨c, tail, rfl, hc⟩ := hgoes
  intro h
  cases gap with
  | nil =>
    obtain ⟨rfl, -⟩ := List.cons.inj h
    exact absurd hc (by decide)
  | cons g gap =>
    obtain ⟨rfl, -⟩ := List.cons.inj h
    have hspace := hgap c List.mem_cons_self
    rcases hc with rfl | rfl | rfl <;> cases hspace

/-- An unknown member that the reader has got over, in an object that was closed. -/
theorem skippable_of_takes {m : JsonSyntax.Member} {newer : List JsonSyntax.Member}
    (hm : UnknownMember m) {fuel : ℕ} {us : List Update} {after gap rest : List UInt8}
    (hgap : IsGap gap)
    (h : Takes (readMembersUpdates fuel) (membersText (m :: newer) ++ closeBrace :: after) us
      (gap ++ closeBrace :: rest)) : Skippable m := by
  obtain ⟨b, tail, htext, hb⟩ : ∃ b tail,
      membersText (m :: newer) ++ closeBrace :: after = m.text ++ b :: tail ∧
        ¬(48 ≤ b ∧ b ≤ 57) := by
    cases newer with
    | nil => exact ⟨closeBrace, after, by rw [membersText_singleton], by decide⟩
    | cons m' newer =>
      exact ⟨comma, _, by rw [membersText_cons, List.append_assoc, List.cons_append], by decide⟩
  cases fuel with
  | zero => exact absurd h not_takes_failure
  | succ fuel =>
    unfold readMembersUpdates at h
    rw [htext] at h
    obtain ⟨us₁, r₁, hmember, hbehind⟩ := takes_bind.mp h
    rcases member_front hm hb hmember with hskip | hgoes
    · exact hskip
    · obtain ⟨separated, r₂, hcomma, hresult⟩ := takes_bind.mp hbehind
      obtain ⟨c, tail, rfl, hc⟩ := id hgoes
      have hspace : isSpace c = false := by rcases hc with rfl | rfl | rfl <;> rfl
      have hno : Takes (consume comma) (c :: tail) false (c :: tail) :=
        takes_consume_false_iff.mpr
          ⟨⟨[], List.forall_mem_nil _, rfl, noSpace_cons.mpr hspace⟩, by
            rcases hc with rfl | rfl | rfl <;> simp [comma]⟩
      obtain ⟨rfl, rfl⟩ := hcomma.unique hno
      rw [if_neg (by decide)] at hresult
      obtain ⟨-, hclosed⟩ := takes_pure.mp hresult
      exact absurd hclosed (not_closed hgoes hgap)

/-! ## A member in a document -/

theorem takes_inside {d : Document} {m : JsonSyntax.Member} {ms : List JsonSyntax.Member}
    {us : List Update} (hbefore : IsGap d.before) (hm : IsGap m.before)
    (h : updates ({ d with members := m :: ms } : Document).text = some us) :
    ∃ fuel us' gap rest, IsGap gap ∧ Takes (readMembersUpdates fuel)
      (membersText ({ m with before := [] } :: ms) ++ closeBrace :: d.after) us'
        (gap ++ closeBrace :: rest) := by
  have htakes := updates_eq_some.mp h
  unfold readObjectUpdates at htakes
  rw [Document.text, if_neg (List.cons_ne_nil _ _), membersText_before m ms] at htakes
  obtain ⟨opened, r₁, hopen, hinside⟩ := takes_bind.mp htakes
  obtain ⟨rfl, rfl⟩ := hopen.unique ((takes_consume_iff (by decide)).mpr ⟨d.before, hbefore, rfl⟩)
  rw [if_pos rfl] at hinside
  obtain ⟨closed, r₂, hclose, hbody⟩ := takes_bind.mp hinside
  obtain ⟨text, hquote⟩ := membersText_quote m ms
  -- the first member starts with a quote, so that the object is not empty
  have hnot : Takes (consume closeBrace) (m.before ++ membersText ({ m with before := [] } :: ms) ++
      closeBrace :: d.after) false
        (membersText ({ m with before := [] } :: ms) ++ closeBrace :: d.after) := by
    refine takes_consume_false_iff.mpr ⟨⟨m.before, hm, List.append_assoc .., ?_⟩, ?_⟩
    · rw [hquote]
      exact noSpace_cons.mpr (by decide)
    · rw [hquote]
      change some quote ≠ some closeBrace
      decide
  obtain ⟨rfl, rfl⟩ := hclose.unique hnot
  rw [if_neg (by decide)] at hbody
  obtain ⟨us', r₃, hmembers, hrest⟩ := takes_bind.mp hbody
  obtain ⟨ended, r₄, hend, hresult⟩ := takes_bind.mp hrest
  split_ifs at hresult with hended
  · rw [hended] at hend
    obtain ⟨gap, hgap, rfl⟩ := (takes_consume_iff (by decide)).mp hend
    exact ⟨_, us', gap, r₄, hgap, hmembers⟩
  · exact absurd hresult not_takes_failure

/-- A text is only accepted when the reader gets over its unknown members. -/
theorem skippable_of_updates {d : Document} {older newer : List JsonSyntax.Member}
    {new : JsonSyntax.Member} {uss : List (List Update)} {us : List Update}
    (hbefore : IsGap d.before) (hwrites : List.Forall₂ MemberWrites older uss)
    (hnew : UnknownMember new)
    (h : updates ({ d with members := older ++ new :: newer } : Document).text = some us) :
    Skippable new := by
  cases hwrites with
  | nil =>
    obtain ⟨fuel, us', gap, rest, hgap, hrun⟩ := takes_inside hbefore hnew.gaps.before h
    have hunspaced : UnknownMember { new with before := [] } :=
      ⟨⟨nofun, hnew.gaps.afterKey, hnew.gaps.beforeValue, hnew.gaps.after⟩, hnew.key, hnew.value⟩
    have hskip := skippable_of_takes hunspaced hgap hrun
    exact ⟨hskip.key, hskip.length, hskip.value⟩
  | @cons m us₁ older uss hm hothers =>
    obtain ⟨fuel, us', gap, rest, hgap, hrun⟩ := takes_inside hbefore hm.gaps.before h
    have hall : List.Forall₂ MemberWrites ({ m with before := [] } :: older) (us₁ :: uss) :=
      .cons (hm.before nofun) hothers
    obtain ⟨fuel', us'', hfrom⟩ := takes_from hall hrun
    exact skippable_of_takes hnew hgap hfrom

theorem DocumentWrites.insert {d : Document} {us : List Update} (hd : DocumentWrites d us)
    {older newer : List JsonSyntax.Member} (hsplit : d.members = older ++ newer)
    {new : JsonSyntax.Member} (hnew : MemberWrites new []) :
    DocumentWrites { d with members := older ++ new :: newer } us := by
  obtain ⟨⟨hbefore, hgap, -, hafter⟩, uss, hwrites, rfl⟩ := hd
  rw [hsplit] at hwrites
  have holder := List.forall₂_take_append uss older newer hwrites.flip
  have hnewer := List.forall₂_drop_append uss older newer hwrites.flip
  have hall := List.rel_append holder.flip (List.Forall₂.cons hnew hnewer.flip)
  refine ⟨⟨hbefore, hgap, gaps_of_writes hall, hafter⟩, _, hall, ?_⟩
  rw [List.flatten_append, List.flatten_cons, List.nil_append, ← List.flatten_append,
    List.take_append_drop]

/-- An accepted text has a tree, and wherever a member is put that names no field, the result stays
the same exactly when the reader gets over the member. -/
theorem unknown_key_ignored_iff {json : List UInt8} {config next : Config}
    (h : configFromJson json config = some next) :
    (∃ d us, Document.text d = json ∧ DocumentWrites d us) ∧
      ∀ (d : Document) us, d.text = json → DocumentWrites d us → ∀ older new newer,
        d.members = older ++ newer → UnknownMember new →
          (configFromJson ({ d with members := older ++ new :: newer } : Document).text config =
            some next ↔ Skippable new) := by
  obtain ⟨d₀, us₀, hd₀, hwrites₀, hvalid, rfl⟩ := configFromJson_iff.mp h
  refine ⟨⟨d₀, us₀, hd₀, hwrites₀⟩, ?_⟩
  rintro d us rfl hwrites older new newer hsplit hnew
  -- both trees of the text write the same
  obtain rfl : us₀ = us := by
    have hus := updates_iff.mpr ⟨d₀, hd₀, hwrites₀⟩
    rw [updates_iff.mpr ⟨d, rfl, hwrites⟩] at hus
    exact (Option.some.inj hus).symm
  constructor
  · intro haccepted
    obtain ⟨us, hus, -, -⟩ := configFromJson_eq_updates.mp haccepted
    obtain ⟨uss, hmembers, -⟩ := hwrites.members
    rw [hsplit] at hmembers
    have holder := List.forall₂_take_append uss older newer hmembers.flip
    exact skippable_of_updates hwrites.gaps.before holder.flip hnew hus
  · intro hskip
    exact configFromJson_iff.mpr ⟨_, us₀, rfl, hwrites.insert hsplit (hnew.writes hskip), hvalid,
      rfl⟩

/-! ## A negative number -/

def cameraSettings : Config :=
  { kDefaults with
    mac := [0xC8, 0x47, 0x8C, 0x01, 0x02, 0x04]
    apSsid := ascii "cam" ++ List.replicate 30 0 }

def memberOf (key : String) (value : Scalar) : JsonSyntax.Member :=
  ⟨[], (ascii key).map .plain, [], [], value, []⟩

def channelMember : JsonSyntax.Member := memberOf "ap_channel" (.number (.ofDigits [54]))

def bodyOf (members : List JsonSyntax.Member) : Document := ⟨[], [], members, []⟩

theorem channelBody_writes : DocumentWrites (bodyOf [channelMember]) [.apChannel 6] := by
  have hwrites : MemberWrites channelMember [.apChannel 6] :=
    ⟨⟨nofun, nofun, nofun, nofun⟩, ascii "ap_channel", .number 6, by decide +kernel,
      by decide +kernel, by decide +kernel, .apChannel (by decide)⟩
  have hall : List.Forall₂ MemberWrites [channelMember] [[.apChannel 6]] := .cons hwrites .nil
  exact ⟨⟨nofun, nofun, gaps_of_writes hall, nofun⟩, _, hall, rfl⟩

theorem unknownMember_x {value : Scalar} (h : value.Valid) : UnknownMember (memberOf "x" value) :=
  ⟨⟨nofun, nofun, nofun, nofun⟩,
    ⟨[120], show stringCodes ((ascii "x").map .plain) = _ by decide +kernel, by decide +kernel⟩, h⟩

theorem unknown_key_ignored_iff_true :
    configFromJson (bodyOf [channelMember, memberOf "x" (.bool true)]).text cameraSettings =
      some cameraSettings := by
  have haccepted : configFromJson (bodyOf [channelMember]).text cameraSettings =
      some cameraSettings := by
    decide +kernel
  have hx : UnknownMember (memberOf "x" (.bool true)) := unknownMember_x trivial
  refine ((unknown_key_ignored_iff haccepted).2 _ _ rfl channelBody_writes [channelMember] _ [] rfl
    hx).mpr ⟨?_, by decide, trivial⟩
  intro ch hch
  obtain ⟨c, -, rfl⟩ := List.mem_map.mp hch
  trivial

/-- A number with a sign behind an unknown key: the text is accepted without the member, and
refused with it. -/
theorem unknown_key_refused :
    (bodyOf [channelMember]).text = ascii "\x7b\"ap_channel\":6\x7d" ∧
      configFromJson (bodyOf [channelMember]).text cameraSettings = some cameraSettings ∧
      DocumentWrites (bodyOf [channelMember]) [.apChannel 6] ∧
      UnknownMember (memberOf "x" (.number ⟨true, [49], none, none⟩)) ∧
      (bodyOf [channelMember, memberOf "x" (.number ⟨true, [49], none, none⟩)]).text =
        ascii "\x7b\"ap_channel\":6,\"x\":-1\x7d" ∧
      configFromJson (bodyOf [channelMember, memberOf "x" (.number ⟨true, [49], none, none⟩)]).text
        cameraSettings = none := by
  have hvalid : Scalar.Valid (.number ⟨true, [49], none, none⟩) :=
    ⟨nofun, List.forall_mem_singleton.mpr (by decide), nofun, nofun, nofun⟩
  exact ⟨by decide +kernel, by decide +kernel, channelBody_writes, unknownMember_x hvalid,
    by decide +kernel, by decide +kernel⟩

end BekenCam.Settings
