import BekenCam.DhcpModel
import BekenCam.MemoryReads

/-!
# The options of a DHCP message

The server again as a program that reads the request buffer byte by byte: it does what the model on
byte strings does and looks at no byte behind the packet. A packet whose bytes behind the cookie are
pads and complete options is handled with the last values of the two options the server reads; one
with an option cut off is ignored.
-/
namespace BekenCam.Dhcp

/-! ## Reading the request buffer -/

def look32 (base : ℕ) : Reads UInt32 := do
  return get32 (← lookBytes base 4)

def typeLook (code : UInt8) (n i : ℕ) (options : Options) : Reads Options :=
  if code = 53 ∧ n = 1 then do
    let type ← look (i + 2)
    return { options with type := type }
  else pure options

def requestedLook (code : UInt8) (n i : ℕ) (options : Options) : Reads Options :=
  if code = 50 ∧ n = 4 then do
    let requested ← look32 (i + 2)
    return { options with requested := requested }
  else pure options

/-- `walkOptions` over a buffer with `len` bytes of a packet. -/
def walkOptionsLook (len : ℕ) : (fuel i : ℕ) → Options → Reads (Option Options)
  | 0, _, options => pure (some options)
  | fuel + 1, i, options =>
    if len ≤ i then pure (some options)
    else do
      let code ← look i
      if code = 255 then return some options
      if code = 0 then walkOptionsLook len fuel (i + 1) options
      else if len < i + 2 then return none
      else
        let n := (← look (i + 1)).toNat
        if len < i + 2 + n then return none
        else
          let options ← typeLook code n i options
          let options ← requestedLook code n i options
          walkOptionsLook len fuel (i + 2 + n) options

/-- `replyHeader` from the bytes of the request that it copies. -/
def copyHeader (netif : Netif) (xid flags chaddr : List UInt8) (yiaddr : UInt32) : List UInt8 :=
  let m := List.replicate replyLen 0
  let m := writeAt m 0 [2, 1, 6]
  let m := writeAt m 4 xid
  let m := writeAt m 10 flags
  let m := writeAt m 16 (put32 yiaddr)
  let m := writeAt m 20 (put32 netif.addr)
  let m := writeAt m 28 chaddr
  writeAt m bootpFixedLen [0x63, 0x82, 0x53, 0x63]

def replyLook (netif : Netif) (type : UInt8) (yiaddr : UInt32) : Reads (List UInt8) := do
  let xid ← lookBytes 4 4
  let flags ← lookBytes 10 2
  let chaddr ← lookBytes 28 16
  let options := replyOptions netif type
  return (writeAt (copyHeader netif xid flags chaddr yiaddr) optionsOffset options).take
    (optionsOffset + options.length)

/-- The six bytes at the hardware address. -/
def macLook : Reads (Octets 6) := do
  let a ← look 28
  let b ← look 29
  let c ← look 30
  let d ← look 31
  let e ← look 32
  let f ← look 33
  return ⟨[a, b, c, d, e, f], rfl⟩

/-- The address asked for. -/
def askedLook (options : Options) : Reads UInt32 :=
  if options.requested = 0 then look32 12 else pure options.requested

/-- What `on_message` does after the options. -/
def answerLook (netif : Netif) (t : Leases) (options : Options) :
    Reads (Leases × Option (List UInt8)) := do
  let mac ← macLook
  let (slot, t) := t.find mac
  if options.type = msgDiscover then
    let (slot, t) :=
      match slot with
      | some slot => (slot, t)
      | none => t.take mac
    return (t, some (← replyLook netif msgOffer (slotAddr netif slot)))
  else if options.type = msgRequest then
    let requested ← askedLook options
    let (slot, t) := claimRequested netif requested mac (slot, t)
    if slot.any fun slot => requested == slotAddr netif slot then
      return (t, some (← replyLook netif msgAck requested))
    else return (t, some (← replyLook netif msgNak 0))
  else if options.type = msgRelease then return (t.release slot, none)
  else return (t, none)

def onMessageLook (netif : Netif) (t : Leases) (len : ℕ) : Reads (Leases × Option (List UInt8)) := do
  match ← walkOptionsLook len len optionsOffset ⟨0, 0⟩ with
  | none => return (t, none)
  | some options => answerLook netif t options

/-- One round of the task with a packet of `len` bytes in the buffer. -/
def receiveLook (netif : Netif) (t : Leases) (len : ℕ) : Reads (Leases × Option (List UInt8)) := do
  if len < optionsOffset + 3 then return (t, none)
  if (← look 0) ≠ 1 then return (t, none)
  if ← lookSame bootpFixedLen [0x63, 0x82, 0x53, 0x63] then onMessageLook netif t len
  else return (t, none)

/-- What `onMessage` does after the options. -/
def answer (netif : Netif) (t : Leases) (req : Request) (options : Options) :
    Leases × Option (List UInt8) :=
  let (slot, t) := t.find req.mac
  if options.type = msgDiscover then
    let (slot, t) :=
      match slot with
      | some slot => (slot, t)
      | none => t.take req.mac
    (t, some (reply netif req.bytes msgOffer (slotAddr netif slot)))
  else if options.type = msgRequest then
    let requested := req.requested options
    let (slot, t) := claimRequested netif requested req.mac (slot, t)
    if slot.any fun slot => requested == slotAddr netif slot then
      (t, some (reply netif req.bytes msgAck requested))
    else (t, some (reply netif req.bytes msgNak 0))
  else if options.type = msgRelease then (t.release slot, none)
  else (t, none)

theorem onMessage_eq (netif : Netif) (t : Leases) (req : Request) :
    onMessage netif t req =
      match req.options with
      | none => (t, none)
      | some options => answer netif t req options := rfl

section Reading

variable {mem : ℕ → UInt8} {bytes : List UInt8}

theorem mem_eq (hmem : bytesAt mem 0 bytes.length = bytes) {i : ℕ} (hi : i < bytes.length) :
    mem i = bytes.getD i 0 := by
  have hget : (bytesAt mem 0 bytes.length).getD i 0 = mem (0 + i) := getD_bytesAt hi
  rw [hmem, Nat.zero_add] at hget
  exact hget.symm

theorem lookBytes_sees (hmem : bytesAt mem 0 bytes.length = bytes) {off n : ℕ}
    (h : off + n ≤ bytes.length) :
    Sees mem (· < bytes.length) (lookBytes off n) (slice bytes off n) := by
  have hslice : slice bytes off n = bytesAt mem off n := by
    rw [← hmem, slice_bytesAt h, Nat.zero_add]
  rw [hslice]
  exact sees_lookBytes fun i hi => by omega

theorem look32_sees (hmem : bytesAt mem 0 bytes.length = bytes) {off : ℕ}
    (h : off + 4 ≤ bytes.length) :
    Sees mem (· < bytes.length) (look32 off) (get32 (bytes.drop off)) := by
  have hfour : get32 (slice bytes off 4) = get32 (bytes.drop off) := by
    simp [get32, slice]
  rw [← hfour]
  exact (lookBytes_sees hmem h).bind (sees_pure _)

theorem typeLook_sees (hmem : bytesAt mem 0 bytes.length = bytes) {code : UInt8} {n i : ℕ}
    (h : i + 2 + n ≤ bytes.length) (options : Options) :
    Sees mem (· < bytes.length) (typeLook code n i options)
      (if code = 53 ∧ n = 1 then { options with type := bytes.getD (i + 2) 0 } else options) := by
  rw [typeLook]
  split
  · next hcode =>
    have hin : i + 2 < bytes.length := by omega
    refine sees_look_bind hin ?_
    rw [mem_eq hmem hin]
    exact sees_pure _
  · exact sees_pure _

theorem requestedLook_sees (hmem : bytesAt mem 0 bytes.length = bytes) {code : UInt8} {n i : ℕ}
    (h : i + 2 + n ≤ bytes.length) (options : Options) :
    Sees mem (· < bytes.length) (requestedLook code n i options)
      (if code = 50 ∧ n = 4 then { options with requested := get32 (bytes.drop (i + 2)) }
      else options) := by
  rw [requestedLook]
  split
  · exact (look32_sees hmem (by omega)).bind (sees_pure _)
  · exact sees_pure _

theorem walkOptionsLook_sees (hmem : bytesAt mem 0 bytes.length = bytes) (fuel i : ℕ)
    (options : Options) :
    Sees mem (· < bytes.length) (walkOptionsLook bytes.length fuel i options)
      (walkOptions bytes fuel i options) := by
  induction fuel generalizing i options with
  | zero => exact sees_pure _
  | succ fuel ih =>
    rw [walkOptionsLook, walkOptions]
    by_cases hend : bytes.length ≤ i
    · rw [if_pos hend, if_pos hend]
      exact sees_pure _
    rw [if_neg hend, if_neg hend]
    have hlt : i < bytes.length := Nat.lt_of_not_le hend
    refine sees_look_bind hlt ?_
    rw [mem_eq hmem hlt]
    dsimp only
    by_cases hstop : bytes.getD i 0 = 255
    · rw [if_pos hstop, if_pos hstop]
      exact sees_pure _
    rw [if_neg hstop, if_neg hstop]
    by_cases hpad : bytes.getD i 0 = 0
    · rw [if_pos hpad, if_pos hpad]
      exact ih _ _
    rw [if_neg hpad, if_neg hpad]
    by_cases hcut : bytes.length < i + 2
    · rw [if_pos hcut, if_pos hcut]
      exact sees_pure _
    rw [if_neg hcut, if_neg hcut]
    have hnext : i + 1 < bytes.length := by omega
    refine sees_look_bind hnext ?_
    rw [mem_eq hmem hnext]
    by_cases hlong : bytes.length < i + 2 + (bytes.getD (i + 1) 0).toNat
    · rw [if_pos hlong, if_pos hlong]
      exact sees_pure _
    rw [if_neg hlong, if_neg hlong]
    have hinside := Nat.le_of_not_lt hlong
    exact (typeLook_sees hmem hinside _).bind ((requestedLook_sees hmem hinside _).bind (ih _ _))

variable {netif : Netif} {t : Leases} {req : Request}

theorem replyLook_sees (hmem : bytesAt mem 0 req.bytes.length = req.bytes) (type : UInt8)
    (yiaddr : UInt32) :
    Sees mem (· < req.bytes.length) (replyLook netif type yiaddr)
      (reply netif req.bytes type yiaddr) := by
  have hwhole : 243 ≤ req.bytes.length := req.whole
  exact (lookBytes_sees hmem (by omega)).bind ((lookBytes_sees hmem (by omega)).bind
    ((lookBytes_sees hmem (by omega)).bind (sees_pure _)))

theorem macLook_sees (hmem : bytesAt mem 0 req.bytes.length = req.bytes) :
    Sees mem (· < req.bytes.length) macLook req.mac := by
  have hwhole : 243 ≤ req.bytes.length := req.whole
  have hmac : req.mac = ⟨[mem 28, mem 29, mem 30, mem 31, mem 32, mem 33], rfl⟩ := by
    refine Subtype.ext ?_
    show slice req.bytes 28 6 = _
    rw [← hmem, slice_bytesAt (by omega)]
    rfl
  rw [hmac]
  refine sees_look_bind (by omega) (sees_look_bind (by omega) (sees_look_bind (by omega) ?_))
  refine sees_look_bind (by omega) (sees_look_bind (by omega) (sees_look_bind (by omega) ?_))
  exact sees_pure _

theorem answerLook_sees (hmem : bytesAt mem 0 req.bytes.length = req.bytes) (options : Options) :
    Sees mem (· < req.bytes.length) (answerLook netif t options) (answer netif t req options) := by
  have hwhole : 243 ≤ req.bytes.length := req.whole
  refine (macLook_sees hmem).bind ?_
  rw [answer]
  rcases t.find req.mac with ⟨slot, t⟩
  dsimp only
  by_cases hdiscover : options.type = msgDiscover
  · rw [if_pos hdiscover, if_pos hdiscover]
    cases slot with
    | some slot => exact (replyLook_sees hmem _ _).bind (sees_pure _)
    | none => exact (replyLook_sees hmem _ _).bind (sees_pure _)
  rw [if_neg hdiscover, if_neg hdiscover]
  by_cases hrequest : options.type = msgRequest
  · rw [if_pos hrequest, if_pos hrequest]
    have hasked : Sees mem (· < req.bytes.length) (askedLook options) (req.requested options) := by
      rw [askedLook, Request.requested]
      split
      · exact look32_sees hmem (by omega)
      · exact sees_pure _
    refine hasked.bind ?_
    rcases claimRequested netif (req.requested options) req.mac (slot, t) with ⟨slot, t⟩
    dsimp only
    split
    · exact (replyLook_sees hmem _ _).bind (sees_pure _)
    · exact (replyLook_sees hmem _ _).bind (sees_pure _)
  rw [if_neg hrequest, if_neg hrequest]
  split
  · exact sees_pure _
  · exact sees_pure _

theorem onMessageLook_sees (hmem : bytesAt mem 0 req.bytes.length = req.bytes) :
    Sees mem (· < req.bytes.length) (onMessageLook netif t req.bytes.length)
      (onMessage netif t req) := by
  rw [onMessage_eq]
  refine (walkOptionsLook_sees hmem _ _ _).bind ?_
  show Sees mem _ _ (match walkOptions req.bytes req.bytes.length optionsOffset ⟨0, 0⟩ with
    | none => (t, none)
    | some options => answer netif t req options)
  cases walkOptions req.bytes req.bytes.length optionsOffset ⟨0, 0⟩ with
  | none => exact sees_pure _
  | some options => exact answerLook_sees hmem options

end Reading

/-! ## The grammar of the options -/

/-- An option that is neither a pad nor the end mark. -/
structure DhcpOption where
  code : UInt8
  data : List UInt8
  proper : code ≠ 0 ∧ code ≠ 255
  short : data.length < 256

inductive Field
  | pad
  | option (o : DhcpOption)

def Field.bytes : Field → List UInt8
  | .pad => [0]
  | .option o => o.code :: UInt8.ofNat o.data.length :: o.data

/-- The value of a one-byte option 53. -/
def Field.type? : Field → Option UInt8
  | .option o => if o.code = 53 ∧ o.data.length = 1 then some (o.data.getD 0 0) else none
  | .pad => none

/-- The value of a four-byte option 50. -/
def Field.requested? : Field → Option UInt32
  | .option o => if o.code = 50 ∧ o.data.length = 4 then some (get32 o.data) else none
  | .pad => none

/-- The last values, and zero where there is none. -/
def lastOptions (fields : List Field) : Options where
  type := (fields.filterMap Field.type?).getLast?.getD 0
  requested := (fields.filterMap Field.requested?).getLast?.getD 0

/-- The end mark, or the end of the packet. -/
def Ended (rest : List UInt8) : Prop := rest = [] ∨ ∃ tail, rest = 255 :: tail

/-- The packet ends inside an option. -/
def CutOff (rest : List UInt8) : Prop :=
  ∃ code tail, rest = code :: tail ∧ code ≠ 0 ∧ code ≠ 255 ∧
    (tail = [] ∨ ∃ n data, tail = n :: data ∧ data.length < n.toNat)

/-- What one field does to the values kept. -/
def Options.see (options : Options) (field : Field) : Options where
  type := field.type?.getD options.type
  requested := field.requested?.getD options.requested

section Grammar

variable {bytes rest : List UInt8} {fields : List Field} {fuel i : ℕ} {options : Options}

theorem lastOptions_concat (fields : List Field) (field : Field) :
    lastOptions (fields ++ [field]) = (lastOptions fields).see field := by
  rw [lastOptions, Options.see, lastOptions]
  congr 1
  · cases h : field.type? <;> simp [List.filterMap_append, h]
  · cases h : field.requested? <;> simp [List.filterMap_append, h]

theorem foldl_see (fields : List Field) : fields.foldl Options.see ⟨0, 0⟩ = lastOptions fields := by
  induction fields using List.reverseRecOn with
  | nil => rfl
  | append_singleton fields field ih => rw [List.foldl_concat, ih, lastOptions_concat]

theorem getD_of_drop {k : ℕ} (h : bytes.drop i = rest) : bytes.getD (i + k) 0 = rest.getD k 0 := by
  rw [← h]
  simp [List.getD_eq_getElem?_getD]

theorem length_of_drop (h : bytes.drop i = rest) : bytes.length - i = rest.length := by
  rw [← h, List.length_drop]

theorem get32_append {data : List UInt8} (h : data.length = 4) :
    get32 (data ++ rest) = get32 data := by
  have hget : ∀ k < 4, (data ++ rest).getD k 0 = data.getD k 0 := fun k hk =>
    List.getD_append _ _ _ _ (by omega)
  simp only [get32]
  rw [hget 0 (by decide), hget 1 (by decide), hget 2 (by decide), hget 3 (by decide)]

/-- One field, one round of the walk. -/
theorem walkOptions_field {field : Field} (h : bytes.drop i = field.bytes ++ rest) :
    walkOptions bytes (fuel + 1) i options =
      walkOptions bytes fuel (i + field.bytes.length) (options.see field) := by
  have hlength := length_of_drop h
  rw [List.length_append] at hlength
  have hcode : bytes.getD i 0 = (field.bytes ++ rest).getD 0 0 := getD_of_drop (k := 0) h
  cases field with
  | pad =>
    have hpad : bytes.getD i 0 = 0 := hcode
    simp only [Field.bytes, List.length_singleton] at hlength
    rw [walkOptions, if_neg (by omega)]
    simp only [hpad]
    rfl
  | option o =>
    have hsplit : bytes.drop i = o.code :: UInt8.ofNat o.data.length :: (o.data ++ rest) := h
    have hfirst : bytes.getD i 0 = o.code := hcode
    have hsecond : bytes.getD (i + 1) 0 = UInt8.ofNat o.data.length := getD_of_drop hsplit
    have hn : (bytes.getD (i + 1) 0).toNat = o.data.length := by
      rw [hsecond, UInt8.toNat_ofNat']
      exact Nat.mod_eq_of_lt o.short
    have hdata : bytes.drop (i + 2) = o.data ++ rest := by
      rw [← List.drop_drop, hsplit]
      rfl
    have hbytes : (Field.option o).bytes.length = 2 + o.data.length := by
      simp only [Field.bytes, List.length_cons]
      omega
    rw [hbytes] at hlength ⊢
    rw [walkOptions, if_neg (by omega)]
    simp only [hn, hfirst, o.proper.1, o.proper.2, if_false]
    rw [if_neg (by omega), if_neg (by omega), Nat.add_assoc]
    congr 1
    by_cases htype : o.code = 53 ∧ o.data.length = 1
    · have hnot : ¬ (o.code = 50 ∧ o.data.length = 4) := by
        rintro ⟨-, hfour⟩
        omega
      have hvalue : bytes.getD (i + 2) 0 = o.data.getD 0 0 := by
        rw [getD_of_drop (k := 0) hdata, List.getD_append _ _ _ _ (by omega)]
      have hsee : options.see (.option o) = { options with type := o.data.getD 0 0 } := by
        simp only [Options.see, Field.type?, Field.requested?, if_pos htype, if_neg hnot,
          Option.getD_some, Option.getD_none]
      rw [if_neg hnot, if_pos htype, hvalue, hsee]
    · by_cases hasked : o.code = 50 ∧ o.data.length = 4
      · have hvalue : get32 (bytes.drop (i + 2)) = get32 o.data := by
          rw [hdata, get32_append hasked.2]
        simp [Options.see, Field.type?, Field.requested?, hasked, hvalue]
      · simp [Options.see, Field.type?, Field.requested?, htype, hasked]

theorem walkOptions_fields (h : bytes.drop i = fields.flatMap Field.bytes ++ rest)
    (hfuel : bytes.length ≤ i + fuel) :
    ∃ left, bytes.length ≤ i + (fields.flatMap Field.bytes).length + left ∧
      walkOptions bytes fuel i options = walkOptions bytes left
        (i + (fields.flatMap Field.bytes).length) (fields.foldl Options.see options) := by
  induction fields generalizing i fuel options with
  | nil => exact ⟨fuel, by simpa using hfuel, by simp⟩
  | cons field fields ih =>
    rw [List.flatMap_cons, List.append_assoc] at h
    have hlength := length_of_drop h
    have hpos : 0 < field.bytes.length := by cases field <;> simp [Field.bytes]
    rw [List.length_append] at hlength
    obtain ⟨fuel, rfl⟩ : ∃ k, fuel = k + 1 := ⟨fuel - 1, by omega⟩
    have hnext : bytes.drop (i + field.bytes.length) =
        fields.flatMap Field.bytes ++ rest := by
      rw [← List.drop_drop, h, List.drop_left' rfl]
    obtain ⟨left, hleft, hwalk⟩ := @ih fuel (i + field.bytes.length) (options.see field) hnext
      (by omega)
    refine ⟨left, ?_, ?_⟩
    · rw [List.flatMap_cons, List.length_append]
      omega
    · rw [walkOptions_field h, hwalk, List.flatMap_cons, List.length_append, Nat.add_assoc]
      rfl

theorem walkOptions_ended (h : bytes.drop i = rest) (hrest : Ended rest) :
    walkOptions bytes fuel i options = some options := by
  cases fuel with
  | zero => rfl
  | succ fuel =>
    rw [walkOptions]
    split
    · rfl
    next hin =>
    rcases hrest with rfl | ⟨tail, rfl⟩
    · have hlength := length_of_drop h
      simp at hlength
      omega
    · have hcode : bytes.getD i 0 = 255 := getD_of_drop (k := 0) h
      rw [hcode]
      rfl

theorem walkOptions_cut (h : bytes.drop i = rest) (hrest : CutOff rest)
    (hfuel : bytes.length ≤ i + fuel) : walkOptions bytes fuel i options = none := by
  have hlength := length_of_drop h
  obtain ⟨code, tail, rfl, hpad, hend, htail⟩ := hrest
  rw [List.length_cons] at hlength
  obtain ⟨fuel, rfl⟩ : ∃ k, fuel = k + 1 := ⟨fuel - 1, by omega⟩
  have hcode : bytes.getD i 0 = code := getD_of_drop (k := 0) h
  rw [walkOptions, if_neg (by omega)]
  simp only [hcode, hpad, hend, if_false]
  rcases htail with rfl | ⟨n, data, rfl, hshort⟩
  · rw [List.length_nil] at hlength
    rw [if_pos (by omega)]
  · have hn : bytes.getD (i + 1) 0 = n := getD_of_drop h
    rw [List.length_cons] at hlength
    rw [hn, if_neg (by omega), if_pos (by omega)]

end Grammar

section Packets

variable {netif : Netif} {t : Leases} {packet : Packet} {req : Request}

theorem request_bytes (h : request packet = some req) : req.bytes = packet.val := by
  unfold request at h
  split at h
  · split at h
    · obtain rfl := Option.some.inj h
      rfl
    · cases h
  · cases h

/-- The check and the handling read nothing behind the packet. -/
theorem receiveLook_sees {mem : ℕ → UInt8}
    (hmem : bytesAt mem 0 packet.val.length = packet.val) :
    Sees mem (· < packet.val.length) (receiveLook netif t packet.val.length)
      (receive netif t packet) := by
  rw [receive, request]
  unfold receiveLook
  by_cases hshort : packet.val.length < optionsOffset + 3
  · rw [if_pos hshort, dif_neg (by omega)]
    exact sees_pure _
  have hwhole : optionsOffset + 3 ≤ packet.val.length := Nat.le_of_not_lt hshort
  have hlong : 243 ≤ packet.val.length := hwhole
  rw [if_neg hshort, dif_pos hwhole]
  have hfirst : 0 < packet.val.length := by omega
  refine sees_look_bind hfirst ?_
  rw [mem_eq hmem hfirst]
  by_cases hop : packet.val.getD 0 0 = 1
  · have hcookie : Sees mem (· < packet.val.length)
        (lookSame bootpFixedLen [0x63, 0x82, 0x53, 0x63]) _ :=
      sees_lookSame fun i hi => by
        have hoff : bootpFixedLen = 236 := rfl
        simp at hi
        omega
    have hslice : bytesAt mem bootpFixedLen [(0x63 : UInt8), 0x82, 0x53, 0x63].length =
        slice packet.val bootpFixedLen 4 := by
      have hoff : bootpFixedLen = 236 := rfl
      rw [← hmem, slice_bytesAt (by omega), Nat.zero_add]
      rfl
    rw [if_neg (by simpa using hop)]
    refine hcookie.bind ?_
    rw [hslice]
    by_cases hsame : slice packet.val bootpFixedLen 4 = [0x63, 0x82, 0x53, 0x63]
    · rw [if_pos (by simpa using hsame), if_pos ⟨hop, hsame⟩]
      exact @onMessageLook_sees mem netif t ⟨packet.val, hwhole⟩ hmem
    · rw [if_neg (by simpa using hsame), if_neg fun h => hsame h.2]
      exact sees_pure _
  · rw [if_pos hop, if_neg fun h => hop h.1]
    exact sees_pure _

theorem options_fields {fields : List Field} {rest : List UInt8}
    (h : req.bytes.drop optionsOffset = fields.flatMap Field.bytes ++ rest) :
    ∃ left, req.bytes.length ≤ optionsOffset + (fields.flatMap Field.bytes).length + left ∧
      req.bytes.drop (optionsOffset + (fields.flatMap Field.bytes).length) = rest ∧
      req.options = walkOptions req.bytes left
        (optionsOffset + (fields.flatMap Field.bytes).length) (lastOptions fields) := by
  have hdrop : req.bytes.drop (optionsOffset + (fields.flatMap Field.bytes).length) = rest := by
    rw [← List.drop_drop, h, List.drop_left' rfl]
  obtain ⟨left, hleft, hwalk⟩ := @walkOptions_fields _ _ _ _ _ ⟨0, 0⟩ h
    (Nat.le_add_left req.bytes.length optionsOffset)
  refine ⟨left, hleft, hdrop, ?_⟩
  rw [Request.options, hwalk, foldl_see]

end Packets

/-- For every packet that passes the check: nothing behind it is read, whole options are handled
with their last values, and a cut option makes the message one that is ignored. -/
theorem dhcp_options (netif : Netif) (t : Leases) (packet : Packet) (req : Request)
    (hreq : request packet = some req) :
    (∀ mem, bytesAt mem 0 packet.val.length = packet.val →
      Sees mem (· < packet.val.length) (receiveLook netif t packet.val.length)
        (receive netif t packet)) ∧
    (∀ (fields : List Field) (rest : List UInt8),
      packet.val.drop optionsOffset = fields.flatMap Field.bytes ++ rest → Ended rest →
      receive netif t packet = answer netif t req (lastOptions fields)) ∧
    (∀ (fields : List Field) (rest : List UInt8),
      packet.val.drop optionsOffset = fields.flatMap Field.bytes ++ rest → CutOff rest →
      receive netif t packet = (t, none)) := by
  have hreceive : receive netif t packet = match req.options with
      | none => (t, none)
      | some options => answer netif t req options := by
    rw [receive, hreq]
    rfl
  rw [← request_bytes hreq]
  refine ⟨fun mem hmem => ?_, fun fields rest hfields hrest => ?_,
    fun fields rest hfields hrest => ?_⟩
  · rw [request_bytes hreq] at hmem ⊢
    exact receiveLook_sees hmem
  · obtain ⟨left, -, hdrop, hwalk⟩ := options_fields hfields
    rw [hreceive, hwalk, walkOptions_ended hdrop hrest]
  · obtain ⟨left, hleft, hdrop, hwalk⟩ := options_fields hfields
    rw [hreceive, hwalk, walkOptions_cut hdrop hrest hleft]

/-- A discover message of 243 bytes. -/
def discover : List UInt8 :=
  1 :: List.replicate 235 0 ++ [0x63, 0x82, 0x53, 0x63] ++ [53, 1, 1]

theorem length_discover : discover.length = 243 := by decide +kernel

def discoverPacket : Packet := ⟨discover, by rw [length_discover]; decide⟩

def discoverRequest : Request := ⟨discover, by rw [length_discover]; decide⟩

theorem request_discover : request discoverPacket = some discoverRequest := by
  have hcookie : slice discover bootpFixedLen 4 = [0x63, 0x82, 0x53, 0x63] := by decide +kernel
  have hwhole : optionsOffset + 3 ≤ discoverPacket.val.length := discoverRequest.whole
  rw [request, dif_pos hwhole, if_pos ⟨rfl, hcookie⟩]
  rfl

theorem dhcp_options_discover :
    receive ⟨0xC0A80401, 0xFFFFFF00⟩ .clear discoverPacket =
      answer ⟨0xC0A80401, 0xFFFFFF00⟩ .clear discoverRequest ⟨1, 0⟩ := by
  have hfields : discover.drop optionsOffset = [53, 1, 1] := by decide +kernel
  exact (dhcp_options ⟨0xC0A80401, 0xFFFFFF00⟩ .clear discoverPacket discoverRequest
    request_discover).2.1 [.option ⟨53, [1], by decide, by decide⟩] [] hfields (Or.inl rfl)

end BekenCam.Dhcp
