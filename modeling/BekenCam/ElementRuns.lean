import BekenCam.MemoryReads

/-!
# Runs of elements

An element is an identifier, a length of one byte and so many bytes. `elements` is the run of
complete elements at the front of a byte string; a walk over memory that stops at the first cut
element finds there what a search of this run finds.
-/
namespace BekenCam

structure Element where
  id : UInt8
  body : List UInt8
  short : body.length < 256
deriving DecidableEq

def Element.bytes (e : Element) : List UInt8 := e.id :: UInt8.ofNat e.body.length :: e.body

theorem length_take_toNat_lt (len : UInt8) (rest : List UInt8) :
    (rest.take len.toNat).length < 256 := by
  have hlen := len.toNat_lt
  rw [List.length_take]
  omega

/-- The complete elements at the front of the bytes. -/
def elements : List UInt8 → List Element
  | id :: len :: rest =>
    if len.toNat ≤ rest.length then
      ⟨id, rest.take len.toNat, length_take_toNat_lt len rest⟩ :: elements (rest.drop len.toNat)
    else []
  | _ => []
termination_by bytes => bytes.length
decreasing_by simp; omega

section Elements

variable {e : Element} {es : List Element} {bytes rest : List UInt8}

@[simp] theorem Element.length_bytes (e : Element) : e.bytes.length = e.body.length + 2 := rfl

theorem Element.toNat_length (e : Element) : (UInt8.ofNat e.body.length).toNat = e.body.length := by
  rw [UInt8.toNat_ofNat']
  exact Nat.mod_eq_of_lt e.short

theorem elements_cons (e : Element) (rest : List UInt8) :
    elements (e.bytes ++ rest) = e :: elements rest := by
  have hlen := e.toNat_length
  rw [Element.bytes, List.cons_append, List.cons_append, elements, if_pos (by simp [hlen])]
  simp [hlen]

/-- A run of whole elements is read back. -/
theorem elements_flatMap (es : List Element) : elements (es.flatMap Element.bytes) = es := by
  induction es with
  | nil => simp [elements]
  | cons e es ih => rw [List.flatMap_cons, elements_cons, ih]

/-- Where the front of the bytes is an element, and where it is cut. -/
theorem elements_cases (bytes : List UInt8) :
    (∃ (e : Element) (rest : List UInt8), bytes = e.bytes ++ rest) ∨
      (elements bytes = [] ∧
        (bytes.length < 2 ∨ bytes.length < 2 + (bytes.getD 1 0).toNat)) := by
  match bytes with
  | [] => exact Or.inr ⟨by simp [elements], by simp⟩
  | [_] => exact Or.inr ⟨by simp [elements], by simp⟩
  | id :: len :: rest =>
    by_cases hlen : len.toNat ≤ rest.length
    · have hshort : (rest.take len.toNat).length < 256 := by
        have hlt := len.toNat_lt
        rw [List.length_take]
        omega
      refine Or.inl ⟨⟨id, rest.take len.toNat, hshort⟩, rest.drop len.toNat, ?_⟩
      simp [Element.bytes, Nat.min_eq_left hlen]
    · refine Or.inr ⟨by simp [elements, hlen], Or.inr ?_⟩
      simp
      omega

end Elements

/-! ## Walks over memory -/

/-- `p` is where the element stands, inside the `n` bytes from `base` on. -/
def StandsAt (mem : ℕ → UInt8) (base n : ℕ) (p : ℕ) (e : Element) : Prop :=
  base ≤ p ∧ p + e.bytes.length ≤ base + n ∧ bytesAt mem p e.bytes.length = e.bytes

/-- The pointer of a search, null for nothing found. -/
def Found (mem : ℕ → UInt8) (base n : ℕ) : Option ℕ → Option Element → Prop
  | none, none => True
  | some p, some e => StandsAt mem base n p e
  | _, _ => False

/-- The first element from `offset` on that is wanted. A cut element ends the walk; every round
goes on by two bytes at least, so that `n` rounds are enough. -/
def walkElements (base n : ℕ) (wanted : UInt8 → UInt8 → ℕ → Reads Bool) :
    ℕ → ℕ → Reads (Option ℕ)
  | 0, _ => pure none
  | fuel + 1, offset =>
    if offset + 2 ≤ n then do
      let id ← look (base + offset)
      let len ← look (base + offset + 1)
      if offset + 2 + len.toNat > n then return none
      if ← wanted id len (base + offset) then return some (base + offset)
      walkElements base n wanted fuel (offset + (2 + len.toNat))
    else return none

section Walks

variable {mem : ℕ → UInt8} {ok : ℕ → Prop} {base n fuel offset p : ℕ} {e : Element}
  {wanted : UInt8 → UInt8 → ℕ → Reads Bool} {test : Element → Bool}

theorem StandsAt.id_eq (h : StandsAt mem base n p e) : mem p = e.id := by
  have hfirst := congrArg (fun l => l.getD 0 0) h.2.2
  rwa [getD_bytesAt (by simp)] at hfirst

theorem StandsAt.length_eq (h : StandsAt mem base n p e) :
    mem (p + 1) = UInt8.ofNat e.body.length := by
  have hsecond := congrArg (fun l => l.getD 1 0) h.2.2
  rwa [getD_bytesAt (by simp)] at hsecond

theorem StandsAt.body_eq (h : StandsAt mem base n p e) :
    bytesAt mem (p + 2) e.body.length = e.body := by
  have hrest := congrArg (List.drop 2) h.2.2
  rw [drop_bytesAt] at hrest
  simpa [Element.bytes] using hrest

theorem StandsAt.inside (h : StandsAt mem base n p e) (hok : ∀ i < n, ok (base + i)) {i : ℕ}
    (hi : i < e.body.length + 2) : ok (p + i) := by
  obtain ⟨hstart, hend, -⟩ := h
  rw [Element.length_bytes] at hend
  have hin := hok (p + i - base) (by omega)
  rwa [Nat.add_sub_cancel' (by omega)] at hin

theorem standsAt_of_drop {rest : List UInt8}
    (h : (bytesAt mem base n).drop offset = e.bytes ++ rest) :
    StandsAt mem base n (base + offset) e := by
  have hlength := congrArg List.length h
  simp only [List.length_drop, length_bytesAt, List.length_append, Element.length_bytes] at hlength
  refine ⟨Nat.le_add_right _ _, by simp only [Element.length_bytes]; omega, ?_⟩
  have hslice : slice (bytesAt mem base n) offset e.bytes.length =
      bytesAt mem (base + offset) e.bytes.length :=
    slice_bytesAt (by simp only [Element.length_bytes]; omega)
  rw [← hslice, slice, h]
  exact List.take_left' rfl

variable (wanted test) in
/-- What the walk finds is the first wanted element of the run, and it looks at no other bytes. -/
theorem walkElements_sees (hok : ∀ i < n, ok (base + i))
    (hwanted : ∀ p e, StandsAt mem base n p e →
      Sees mem ok (wanted e.id (UInt8.ofNat e.body.length) p) (test e))
    (hfuel : n ≤ offset + fuel) :
    ∃ r, Sees mem ok (walkElements base n wanted fuel offset) r ∧
      Found mem base n r ((elements ((bytesAt mem base n).drop offset)).find? test) := by
  induction fuel generalizing offset with
  | zero =>
    have hnone : (bytesAt mem base n).drop offset = [] := List.drop_of_length_le (by simpa using hfuel)
    refine ⟨none, sees_pure _, ?_⟩
    rw [hnone]
    simp [elements, Found]
  | succ fuel ih =>
    rcases elements_cases ((bytesAt mem base n).drop offset) with ⟨e, rest, hsplit⟩ | ⟨hnil, hcut⟩
    · have hstands := standsAt_of_drop hsplit
      have hend := hstands.2.1
      rw [Element.length_bytes] at hend
      have hlen : (mem (base + offset + 1)).toNat = e.body.length := by
        rw [hstands.length_eq, e.toNat_length]
      have hlook : ∀ {f : UInt8 → UInt8 → Reads (Option ℕ)} {r : Option ℕ},
          Sees mem ok (f e.id (UInt8.ofNat e.body.length)) r →
          Sees mem ok (look (base + offset) >>= fun id => look (base + offset + 1) >>= f id) r := by
        intro f r hf
        refine sees_look_bind (hok offset (by omega)) (sees_look_bind (hok (offset + 1) (by omega)) ?_)
        rwa [hstands.id_eq, hstands.length_eq]
      have hnext : (bytesAt mem base n).drop (offset + (2 + e.body.length)) = rest := by
        rw [← List.drop_drop, hsplit]
        exact List.drop_left' (by simp [Nat.add_comm])
      rw [hsplit, elements_cons, walkElements, if_pos (by omega)]
      cases htest : test e with
      | true =>
        refine ⟨some (base + offset), hlook ?_, ?_⟩
        · rw [if_neg (by rw [e.toNat_length]; omega)]
          have hwant := hwanted _ e hstands
          rw [htest] at hwant
          exact hwant.bind (sees_pure _)
        · rw [List.find?_cons_of_pos htest]
          exact hstands
      | false =>
        obtain ⟨r, hsees, hfound⟩ := @ih (offset + (2 + e.body.length)) (by omega)
        refine ⟨r, hlook ?_, ?_⟩
        · rw [if_neg (by rw [e.toNat_length]; omega)]
          have hwant := hwanted _ e hstands
          rw [htest] at hwant
          refine hwant.bind ?_
          rwa [e.toNat_length]
        · rw [List.find?_cons_of_neg (by simp [htest])]
          rwa [hnext] at hfound
    · refine ⟨none, ?_, by simp [hnil, Found]⟩
      rw [walkElements]
      split
      · next htwo =>
        refine sees_look_bind (hok offset (by omega)) (sees_look_bind (hok (offset + 1) (by omega)) ?_)
        have hsecond : ((bytesAt mem base n).drop offset).getD 1 0 = mem (base + offset + 1) := by
          rw [drop_bytesAt, getD_bytesAt (by omega), Nat.add_assoc]
        rw [hsecond] at hcut
        simp only [List.length_drop, length_bytesAt] at hcut
        rw [if_pos (by omega)]
        exact sees_pure _
      · exact sees_pure _

end Walks

end BekenCam
