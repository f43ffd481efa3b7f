import BekenCam.FlashKvCodec
import BekenCam.LogMap

/-!
# The log in a sector

What `walk`, `scan` and `flash_kv_get` see, as functions of the sector's bytes.
`entryAt` is one turn of the loop of `walk`; `logFrom` iterates it. A `Chain` is a
run of valid records, and it only depends on the bytes it covers.
-/
namespace BekenCam.FlashKv

/-! ## One turn of the loop -/

inductive Entry
  | finished
  | broken
  | valid (key : UInt16) (value : List UInt8)

def entryAt (s : Sector) (off : ℕ) : Entry :=
  if off = kvSectorSize then .finished
  else
    let head := slice s.bytes off recordHeadSize
    let key := readU16le head
    let len := (readU16le (head.drop 2)).toNat
    if key = flashKvKeyNone then .finished
    else if len > flashKvMaxValueLen ∨ off + recordSize len > kvSectorSize then .broken
    else
      let value := slice s.bytes (off + recordHeadSize) len
      let crc := slice s.bytes (off + recordHeadSize + align4 len) recordCrcSize
      if readU32le crc ≠ recordCrc head value then .broken else .valid key value

/-- A valid record: it lies inside the sector, and its three fields agree. -/
theorem entryAt_valid_iff (s : Sector) (off : ℕ) (key : UInt16) (value : List UInt8) :
    entryAt s off = .valid key value ↔
      key ≠ flashKvKeyNone ∧ value.length ≤ 256 ∧ off + recordSize value.length ≤ 4096 ∧
      slice s.bytes off 4 = recordHead key value.length ∧
      slice s.bytes (off + 4) value.length = value ∧
      readU32le (slice s.bytes (off + 4 + align4 value.length) 4) =
        recordCrc (recordHead key value.length) value := by
  have hsize := s.size
  constructor
  · intro h
    simp only [entryAt, kvSectorSize, recordHeadSize, recordCrcSize, flashKvMaxValueLen] at h hsize
    split_ifs at h with h1 h2 h3 h4
    simp only [Entry.valid.injEq] at h
    obtain ⟨hk, hv⟩ := h
    simp only [not_or, not_lt] at h3
    have hb := recordSize_eq (readU16le ((slice s.bytes off 4).drop 2)).toNat
    have ha := le_align4 (readU16le ((slice s.bytes off 4).drop 2)).toNat
    have hvl : value.length = (readU16le ((slice s.bytes off 4).drop 2)).toNat := by
      rw [← hv, length_slice_of_le]
      omega
    have hhead : slice s.bytes off 4 = recordHead key value.length := by
      rw [← hk, hvl, recordHead_eq_of_length]
      exact length_slice_of_le (by omega)
    rw [← hvl] at h3 hv h4
    rw [hv, hhead] at h4
    exact ⟨fun hc => h2 (hk ▸ hc), h3.1, h3.2, hhead, hv, not_ne_iff.mp h4⟩
  · rintro ⟨hkey, hlen, hfit, hhead, hvalue, hcrc⟩
    have hb := recordSize_eq value.length
    have h16 : (UInt16.ofNat value.length).toNat = value.length := by
      simp only [UInt16.toNat_ofNat']
      omega
    have hk : readU16le (recordHead key value.length) = key := by
      simpa using readU16le_recordHead key value.length []
    have hl : readU16le ((recordHead key value.length).drop 2) = UInt16.ofNat value.length := by
      simpa using readU16le_recordHead_drop key value.length []
    simp only [entryAt, kvSectorSize, recordHeadSize, recordCrcSize, flashKvMaxValueLen, hhead,
      hk, hl, h16, hvalue, hcrc]
    rw [if_neg (by omega), if_neg hkey, if_neg (by omega), if_neg (by simp)]

theorem entryAt_finished_of_blank {s : Sector} {off : ℕ}
    (h : off = 4096 ∨ ∃ l, slice s.bytes off 4 = 0xFF :: 0xFF :: l) :
    entryAt s off = .finished := by
  simp only [entryAt, kvSectorSize, recordHeadSize]
  by_cases hoff : off = 4096
  · rw [if_pos hoff]
  · obtain ⟨l, hl⟩ := h.resolve_left hoff
    have hk : readU16le (0xFF :: 0xFF :: l) = flashKvKeyNone := by
      apply UInt16.toNat_inj.mp
      rw [readU16le_toNat]
      rfl
    rw [if_neg hoff, hl, if_pos hk]

/-- A valid record stays valid when only later bytes change. -/
theorem entryAt_congr {s s' : Sector} {off stop : ℕ} {key : UInt16} {value : List UInt8}
    (heq : s.bytes.take stop = s'.bytes.take stop) (hstop : off + recordSize value.length ≤ stop)
    (h : entryAt s off = .valid key value) : entryAt s' off = .valid key value := by
  rw [entryAt_valid_iff] at h ⊢
  have hb := recordSize_eq value.length
  have ha := le_align4 value.length
  rw [← slice_congr heq (by omega), ← slice_congr heq (by omega), ← slice_congr heq (by omega)]
  exact h

/-- A key and a value the store accepts. -/
def Storable (e : UInt16 × List UInt8) : Prop := e.1 ≠ flashKvKeyNone ∧ e.2.length ≤ 256

instance : DecidablePred Storable := fun _ => inferInstanceAs (Decidable (_ ∧ _))

/-- What `encode_record` wrote reads back as a valid record. -/
theorem entryAt_encodeRecord {s : Sector} {off : ℕ} {key : UInt16} {value : List UInt8}
    (hst : Storable (key, value)) (hfit : off + recordSize value.length ≤ 4096)
    (h : slice s.bytes off (recordSize value.length) = encodeRecord key value) :
    entryAt s off = .valid key value := by
  have hb := recordSize_eq value.length
  have ha := le_align4 value.length
  have hsub : ∀ i n, i + n ≤ recordSize value.length →
      slice s.bytes (off + i) n = slice (encodeRecord key value) i n := by
    intro i n hin
    rw [← h]
    simp only [slice, List.drop_take, List.take_take, List.drop_drop]
    congr 1
    omega
  have hh := hsub 0 4 (by omega)
  have hv := hsub 4 value.length (by omega)
  have hc := hsub (4 + align4 value.length) 4 (by omega)
  have hhead : slice (encodeRecord key value) 0 4 = recordHead key value.length := by
    rw [encodeRecord_eq]
    exact slice_append_self (recordHead key value.length) _
  have hvalue : slice (encodeRecord key value) 4 value.length = value := by
    rw [encodeRecord_eq]
    exact slice_middle (recordHead key value.length) value _
  have hcrc : slice (encodeRecord key value) (4 + align4 value.length) 4 =
      writeU32le (recordCrc (recordHead key value.length) value) := by
    have hm := slice_middle (recordHead key value.length ++ (value ++
      List.replicate (align4 value.length - value.length) 0))
      (writeU32le (recordCrc (recordHead key value.length) value)) []
    have hlen : (recordHead key value.length ++ (value ++
        List.replicate (align4 value.length - value.length) (0 : UInt8))).length =
        4 + align4 value.length := by
      simp
      omega
    rw [hlen] at hm
    simpa [encodeRecord_eq] using hm
  refine (entryAt_valid_iff s off key value).mpr ⟨hst.1, hst.2, hfit, ?_, ?_, ?_⟩
  · simpa [hhead] using hh
  · rw [hv, hvalue]
  · rw [Nat.add_assoc, hc, hcrc]
    simpa using readU32le_writeU32le (recordCrc (recordHead key value.length) value) []

/-! ## Chains of valid records -/

/-- `Chain s off rs stop`: the bytes from `off` to `stop` are exactly the records `rs`. -/
def Chain (s : Sector) (off : ℕ) : List Record → ℕ → Prop
  | [], stop => off = stop
  | r :: rs, stop => r.off = off ∧ entryAt s off = .valid r.key r.value ∧
      Chain s (off + recordSize r.value.length) rs stop

/-- The bytes a list of records takes in the sector. -/
def recordsSize (rs : List Record) : ℕ := (rs.map (fun r => recordSize r.value.length)).sum

theorem chain_stop {s : Sector} {rs : List Record} {off stop : ℕ} (h : Chain s off rs stop) :
    stop = off + recordsSize rs := by
  induction rs generalizing off with
  | nil => exact h.symm
  | cons r rs ih =>
    have hs := ih h.2.2
    simp only [recordsSize, List.map_cons, List.sum_cons] at hs ⊢
    omega

theorem chain_le {s : Sector} {rs : List Record} {off stop : ℕ} (hoff : off ≤ 4096)
    (h : Chain s off rs stop) : stop ≤ 4096 := by
  induction rs generalizing off with
  | nil => rw [← show off = stop from h]; exact hoff
  | cons r rs ih =>
    exact ih ((entryAt_valid_iff s off r.key r.value).mp h.2.1).2.2.1 h.2.2

theorem chain_append {s : Sector} {rs rs' : List Record} {off mid stop : ℕ}
    (h : Chain s off rs mid) (h' : Chain s mid rs' stop) : Chain s off (rs ++ rs') stop := by
  induction rs generalizing off with
  | nil => rw [show off = mid from h]; exact h'
  | cons r rs ih => exact ⟨h.1, h.2.1, ih h.2.2⟩

/-- A chain only depends on the bytes in front of its end. -/
theorem chain_congr {s s' : Sector} {rs : List Record} {off stop : ℕ}
    (heq : s.bytes.take stop = s'.bytes.take stop) (h : Chain s off rs stop) :
    Chain s' off rs stop := by
  induction rs generalizing off with
  | nil => exact h
  | cons r rs ih =>
    have hs := chain_stop h.2.2
    exact ⟨h.1, entryAt_congr heq (by omega) h.2.1, ih h.2.2⟩

/-- Every record of a chain can be read where the chain says it is. -/
theorem chain_mem {s : Sector} {rs : List Record} {off stop : ℕ} (h : Chain s off rs stop)
    {r : Record} (hr : r ∈ rs) : entryAt s r.off = .valid r.key r.value := by
  induction rs generalizing off with
  | nil => simp at hr
  | cons q rs ih =>
    rcases List.mem_cons.mp hr with rfl | hr
    · rw [h.1]; exact h.2.1
    · exact ih h.2.2 hr

/-! ## Whole record lists -/

/-- The bytes of a list of key-value pairs, one record after the other. -/
def encodeTable (t : List (UInt16 × List UInt8)) : List UInt8 :=
  t.flatMap (fun e => encodeRecord e.1 e.2)

def tableSize (t : List (UInt16 × List UInt8)) : ℕ :=
  (t.map (fun e => recordSize e.2.length)).sum

/-- The records of a table laid out from `off` on. -/
def layout (off : ℕ) : List (UInt16 × List UInt8) → List Record
  | [] => []
  | e :: t => ⟨e.1, e.2, off⟩ :: layout (off + recordSize e.2.length) t

@[simp] theorem encodeTable_nil : encodeTable [] = [] := rfl

@[simp] theorem encodeTable_cons (e : UInt16 × List UInt8) (t : List (UInt16 × List UInt8)) :
    encodeTable (e :: t) = encodeRecord e.1 e.2 ++ encodeTable t := rfl

@[simp] theorem encodeTable_append (t t' : List (UInt16 × List UInt8)) :
    encodeTable (t ++ t') = encodeTable t ++ encodeTable t' := by
  simp [encodeTable]

@[simp] theorem length_encodeTable (t : List (UInt16 × List UInt8)) :
    (encodeTable t).length = tableSize t := by
  induction t with
  | nil => rfl
  | cons e t ih => simp [tableSize] at ih ⊢; omega

@[simp] theorem tableSize_append (t t' : List (UInt16 × List UInt8)) :
    tableSize (t ++ t') = tableSize t + tableSize t' := by
  simp [tableSize]

@[simp] theorem tableSize_cons (e : UInt16 × List UInt8) (t : List (UInt16 × List UInt8)) :
    tableSize (e :: t) = recordSize e.2.length + tableSize t := by
  simp [tableSize]

@[simp] theorem tableSize_nil : tableSize [] = 0 := rfl

@[simp] theorem map_layout (off : ℕ) (t : List (UInt16 × List UInt8)) :
    (layout off t).map (fun r => (r.key, r.value)) = t := by
  induction t generalizing off with
  | nil => rfl
  | cons e t ih => simp [layout, ih]

/-- The walk over encoded records finds them all, at their offsets. -/
theorem chain_encodeTable {s : Sector} {a c : List UInt8} {t : List (UInt16 × List UInt8)}
    (hst : ∀ e ∈ t, Storable e) (h : s.bytes = a ++ (encodeTable t ++ c)) :
    Chain s a.length (layout a.length t) (a.length + tableSize t) := by
  induction t generalizing a with
  | nil => simp [layout, Chain]
  | cons e t ih =>
    have hsize := s.size
    simp only [encodeTable_cons, List.append_assoc] at h
    rw [h] at hsize
    simp only [List.length_append, length_encodeRecord, length_encodeTable, kvSectorSize] at hsize
    have hfit : a.length + recordSize e.2.length ≤ 4096 := by omega
    have hrest := ih (a := a ++ encodeRecord e.1 e.2) (fun e he => hst e (by simp [he]))
      (by simpa using h)
    have hlen : (a ++ encodeRecord e.1 e.2).length = a.length + recordSize e.2.length := by simp
    rw [hlen] at hrest
    refine ⟨rfl, entryAt_encodeRecord (hst e (by simp)) hfit ?_, ?_⟩
    · rw [h]
      simpa using slice_middle a (encodeRecord e.1 e.2) (encodeTable t ++ c)
    · simpa [Nat.add_assoc] using hrest

/-! ## The log of a sector -/

/-- The valid records, whether they end on a blank head, and where they end. -/
structure Log where
  records : List Record
  clean : Bool
  stop : ℕ

def logFrom (s : Sector) (off : ℕ) : Log :=
  match _h : entryAt s off with
  | .finished => ⟨[], true, off⟩
  | .broken => ⟨[], false, off⟩
  | .valid key value =>
    let rest := logFrom s (off + recordSize value.length)
    { rest with records := ⟨key, value, off⟩ :: rest.records }
termination_by kvSectorSize - off
decreasing_by
  have hb := ((entryAt_valid_iff s off key value).mp _h).2.2.1
  simp only [recordSize_eq, kvSectorSize] at hb ⊢
  omega

theorem logFrom_finished {s : Sector} {off : ℕ} (h : entryAt s off = .finished) :
    logFrom s off = ⟨[], true, off⟩ := by
  rw [logFrom]
  split <;> simp_all

theorem logFrom_broken {s : Sector} {off : ℕ} (h : entryAt s off = .broken) :
    logFrom s off = ⟨[], false, off⟩ := by
  rw [logFrom]
  split <;> simp_all

theorem logFrom_valid {s : Sector} {off : ℕ} {key : UInt16} {value : List UInt8}
    (h : entryAt s off = .valid key value) :
    logFrom s off = { logFrom s (off + recordSize value.length) with
      records := ⟨key, value, off⟩ :: (logFrom s (off + recordSize value.length)).records } := by
  rw [logFrom]
  split <;> simp_all

theorem chain_logFrom (s : Sector) (off : ℕ) :
    Chain s off (logFrom s off).records (logFrom s off).stop := by
  induction off using logFrom.induct s with
  | case1 off h => rw [logFrom_finished h]; rfl
  | case2 off h => rw [logFrom_broken h]; rfl
  | case3 off key value h ih => rw [logFrom_valid h]; exact ⟨rfl, h, ih⟩

/-- Behind a chain the log goes on from the end of the chain. -/
theorem logFrom_of_chain {s : Sector} {rs : List Record} {off stop : ℕ}
    (h : Chain s off rs stop) : logFrom s off =
      { logFrom s stop with records := rs ++ (logFrom s stop).records } := by
  induction rs generalizing off with
  | nil => rw [show off = stop from h]; rfl
  | cons r rs ih =>
    obtain ⟨rfl, hentry, hrest⟩ := h
    rw [logFrom_valid hentry, ih hrest]
    rfl

/-- One turn of the loop of `walk`, in terms of the entry it looks at. -/
theorem exec_walkFrom_step {β : Type} (visit : β → Record → β) (ctx : β) (off : ℕ) (s : Sector) :
    exec (walkFrom visit ctx off) s =
      match entryAt s off with
      | .finished => ((true, ctx, off), s)
      | .broken => ((false, ctx, off), s)
      | .valid key value =>
        exec (walkFrom visit (visit ctx ⟨key, value, off⟩) (off + recordSize value.length)) s := by
  have hsize := s.size
  rw [walkFrom, entryAt]
  by_cases h1 : off = kvSectorSize
  · rw [if_pos h1, if_pos h1]
    rfl
  rw [if_neg h1, if_neg h1]
  simp only [exec_flashRead_bind]
  by_cases h2 : readU16le (slice s.bytes off recordHeadSize) = flashKvKeyNone
  · rw [if_pos h2, if_pos h2]
    rfl
  rw [if_neg h2, if_neg h2]
  set len := (readU16le ((slice s.bytes off recordHeadSize).drop 2)).toNat with hlen
  by_cases h3 : len > flashKvMaxValueLen ∨ off + recordSize len > kvSectorSize
  · rw [if_pos h3, if_pos h3]
    rfl
  rw [if_neg h3, if_neg h3]
  simp only [exec_flashRead_bind]
  have hvl : (slice s.bytes (off + recordHeadSize) len).length = len := by
    simp only [recordSize_eq, kvSectorSize, not_or, not_lt] at h3 hsize
    have ha := le_align4 len
    exact length_slice_of_le (by simp only [recordHeadSize]; omega)
  split_ifs with h4
  · rfl
  · simp only [hvl]

/-- `walk` visits the log in order and changes nothing. -/
theorem exec_walkFrom {β : Type} (visit : β → Record → β) (ctx : β) (off : ℕ) (s : Sector) :
    exec (walkFrom visit ctx off) s =
      (((logFrom s off).clean, (logFrom s off).records.foldl visit ctx, (logFrom s off).stop),
        s) := by
  induction off using logFrom.induct s generalizing ctx with
  | case1 off h => rw [exec_walkFrom_step, h, logFrom_finished h]; rfl
  | case2 off h => rw [exec_walkFrom_step, h, logFrom_broken h]; rfl
  | case3 off key value h ih => rw [exec_walkFrom_step, h, logFrom_valid h]; exact ih _

end BekenCam.FlashKv
